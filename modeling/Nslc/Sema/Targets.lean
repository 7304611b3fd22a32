import Nslc.Common.Selection
import Nslc.Sema.Checkers
import Nslc.Sema.Scoping
import Nslc.Sema.Declared
/-!
# Sema — the targets S3 and S12 check

A transfer writes the names its left side is made of, through slices,
fields and concatenations. S3 and S12 look for one name, through slices
only, and take its kind from the scopes of all modules; for `=` the one
kind that is refused is that of registers.
-/

namespace Nslc

namespace Sema

open AST

/-! ## Transfers -/

structure Transfer where
  loc : Loc
  op : TransferOp
  lhs : Expr
  rhs : Expr

def Transfer.stmt (t : Transfer) : Stmt := .transfer t.loc t.op t.lhs t.rhs

def Node.transfer? : Node → Option Transfer
  | .stmt (.transfer loc op lhs rhs) => some ⟨loc, op, lhs, rhs⟩
  | _ => none

def transfersOf (ns : List Node) : List Transfer := ns.filterMap Node.transfer?

/-- The transfers of a unit. -/
def unitTransfers (cu : CompilationUnit) : List Transfer := transfersOf (declsNodes cu)

/-- The transfers the walk comes by. -/
def seenTransfers (cu : CompilationUnit) : List Transfer := transfersOf (visited (walkUnit cu))

/-- The transfers in the header of a `for` or in a definition kept among
a block's declarations. -/
def missedTransfers (cu : CompilationUnit) : List Transfer := transfersOf (missedDecls cu)

/-! ## What a transfer writes -/

mutual

/-- The names a left side writes. -/
def written (e : Expr) : List Use :=
  match e with
  | .identifier loc (x :: _) => [⟨loc, x⟩]
  | .slice _ sub _ _ => written sub
  | .fieldAccess obj _ => written obj
  | .concat parts => writtenAll parts
  | _ => []

def writtenAll (es : List Expr) : List Use :=
  match es with
  | [] => []
  | e :: es => written e ++ writtenAll es

end

mutual

/-- The names a left side writes a slice of. -/
def sliced (e : Expr) : List Use :=
  match e with
  | .slice _ sub _ _ => written sub
  | .fieldAccess obj _ => sliced obj
  | .concat parts => slicedAll parts
  | _ => []

def slicedAll (es : List Expr) : List Use :=
  match es with
  | [] => []
  | e :: es => sliced e ++ slicedAll es

end

section
variable (cu : CompilationUnit)

/-- The symbol is that of a struct instance. -/
def isStructInst (sym : Symbol) : Bool := (declsNodes cu).any fun n =>
  match n with
  | .decl (.structInst loc _ name _ _ _) => loc = sym.loc && name = sym.name
  | _ => false

/-- The symbol is that of a struct instance of wires. -/
def isWireStruct (sym : Symbol) : Bool := (declsNodes cu).any fun n =>
  match n with
  | .decl (.structInst loc _ name .wire _ _) => loc = sym.loc && name = sym.name
  | _ => false

/-- The symbol is that of an output or an inout. -/
def isDriven (sym : Symbol) : Bool := (declsNodes cu).any fun n =>
  match n with
  | .decl (.port p) =>
    p.loc = sym.loc && p.name = sym.name && (p.direction = .output || p.direction = .inout)
  | _ => false

/-- The declarations a use is bound to by the scopes it stands in. -/
def boundTo (u : Use) : List Symbol :=
  (unitBindings cu).filterMap fun b => if b.use = u then b.target else none

/-- The operator may write what is declared so. -/
def permits (op : TransferOp) (sym : Symbol) : Bool :=
  match op, sym.kind with
  | _, .mem => true
  | .wireEq, .wire | .wireEq, .variable | .wireEq, .integer => true
  | .wireEq, .port => isDriven cu sym
  | .wireEq, .reg => isWireStruct cu sym
  | .regColonEq, .reg => !isWireStruct cu sym
  | _, _ => false

mutual

/-- An identifier, a slice, a struct field access or a concatenation of
such; what is written with dots is one if it begins with a struct
instance. -/
def isTarget (e : Expr) : Bool :=
  match e with
  | .identifier _ [_] => true
  | .identifier loc (x :: _ :: _) => (boundTo cu ⟨loc, x⟩).any (isStructInst cu)
  | .slice _ sub _ _ => isTarget sub
  | .fieldAccess obj _ => isTarget obj
  | .concat parts => areTargets parts
  | _ => false

def areTargets (es : List Expr) : Bool :=
  match es with
  | [] => true
  | e :: es => isTarget e && areTargets es

end

/-- A name is written that the operator may not write. -/
def writesRefused (t : Transfer) : Bool :=
  (written t.lhs).any fun u => (boundTo cu u).any fun sym => !permits cu t.op sym

/-- A slice is written of what is neither a variable nor a memory. -/
def slicesRefused (t : Transfer) : Bool :=
  (sliced t.lhs).any fun u => (boundTo cu u).any fun sym =>
    !(sym.kind = .variable || sym.kind = .mem)

/-! ## What is asked of S3 and S12 -/

/-- A checker's reports at a transfer. -/
def reportsAt (rule : Tables → Visit → List Verdict) (t : Transfer) : List Verdict :=
  rule (tablesOf cu) (.stmt t.stmt 0)

/-- The checker reports the transfers with the property, among those with
such a left side, and no others. -/
structure ReportsExactly (rule : Tables → Visit → List Verdict) (refused : Transfer → Bool) :
    Prop where
  reports : (walkUnit cu).flatMap (rule (tablesOf cu)) =
    (seenTransfers cu).flatMap (reportsAt cu rule)
  exactly : ((seenTransfers cu).filter fun t => isTarget cu t.lhs ∧ reportsAt cu rule t ≠ []).Perm
    ((unitTransfers cu).filter fun t => isTarget cu t.lhs ∧ refused t)

/-- **Assignment targets are checked for every left-hand side.** -/
structure TargetsChecked : Prop where
  s3 : ReportsExactly cu s03 (writesRefused cu)
  s12 : ReportsExactly cu s12 (slicesRefused cu)

/-- The kinds S3 refuses. -/
def s03Refuses (op : TransferOp) (kind : SymbolKind) : Bool :=
  match op with
  | .wireEq => kind = .reg
  | .regColonEq => !(kind = .mem || kind = .reg)

/-- The name found through slices, looked up in the scopes of all
modules, is of a kind S3 refuses. -/
def s03Finds (t : Transfer) : Bool := (targetKind (tablesOf cu) t.lhs).any (s03Refuses t.op)

/-- The left side is a slice, and the name found so is of a kind S12
refuses. -/
def s12Finds (t : Transfer) : Bool :=
  isSlice t.lhs && (targetKind (tablesOf cu) t.lhs).any fun kind =>
    !(kind = .mem || kind = .variable)

/-- What there is to find at a transfer is found, and the walk comes by;
where there is nothing, nothing is found or the walk does not come by. -/
def FoundRightly (finds refused : Transfer → Bool) (t : Transfer) : Prop :=
  (refused t → finds t ∧ t ∉ missedTransfers cu) ∧
    (refused t = false → finds t = false ∨ t ∉ seenTransfers cu)

end

/-! ## The walk -/

theorem transfersOf_append (ns ms : List Node) :
    transfersOf (ns ++ ms) = transfersOf ns ++ transfersOf ms :=
  List.filterMap_append

theorem unitTransfers_perm (cu : CompilationUnit) :
    (unitTransfers cu).Perm (seenTransfers cu ++ missedTransfers cu) := by
  rw [seenTransfers, missedTransfers, ← transfersOf_append]
  exact ((visited_walkDecls cu 0).filterMap Node.transfer?).symm

/-- A checker of transfers, whatever is around them. -/
structure OfTransfers (rule : Tables → Visit → List Verdict) : Prop where
  other : ∀ t v, v.node.transfer? = none → rule t v = []
  anywhere : ∀ t s ctx ctx', rule t (.stmt s ctx) = rule t (.stmt s ctx')

theorem ofTransfers_s03 : OfTransfers s03 where
  other t v h := by
    cases v with
    | decl d ctx => rfl
    | stmt s ctx => cases s <;> first | rfl | cases h
  anywhere t s ctx ctx' := by cases s <;> rfl

theorem ofTransfers_s12 : OfTransfers s12 where
  other t v h := by
    cases v with
    | decl d ctx => rfl
    | stmt s ctx => cases s <;> first | rfl | cases h
  anywhere t s ctx ctx' := by cases s <;> rfl

theorem transfer?_eq_some {n : Node} {t : Transfer} (h : n.transfer? = some t) :
    n = .stmt t.stmt := by
  cases n with
  | decl d => cases h
  | stmt s =>
    cases s with
    | transfer loc op lhs rhs =>
      obtain rfl := Option.some.inj h
      rfl
    | _ => cases h

/-- Such a checker reports at the transfers the walk comes by. -/
theorem OfTransfers.reports {rule : Tables → Visit → List Verdict} (hrule : OfTransfers rule)
    (cu : CompilationUnit) : (walkUnit cu).flatMap (rule (tablesOf cu)) =
      (seenTransfers cu).flatMap (reportsAt cu rule) := by
  rw [seenTransfers]
  induction walkUnit cu with
  | nil => rfl
  | cons v vs ih =>
    have hvisited : visited (v :: vs) = v.node :: visited vs := rfl
    rw [List.flatMap_cons, ih, hvisited, transfersOf, transfersOf, List.filterMap_cons]
    cases hv : v.node.transfer? with
    | none =>
      rw [hrule.other _ v hv]
      rfl
    | some t =>
      have hnode := transfer?_eq_some hv
      cases v with
      | decl d ctx => cases hnode
      | stmt s ctx =>
        obtain rfl : s = t.stmt := Node.stmt.inj hnode
        rw [hrule.anywhere _ _ ctx 0]
        rfl

/-! ## The verdicts -/

theorem reportsAt_s03 (cu : CompilationUnit) (t : Transfer) :
    reportsAt cu s03 t ≠ [] ↔ s03Finds cu t = true := by
  simp only [reportsAt, Transfer.stmt, s03, s03Finds]
  cases targetKind (tablesOf cu) t.lhs with
  | none => simp
  | some kind => cases t.op <;> cases kind <;> simp [s03Refuses]

theorem reportsAt_s12 (cu : CompilationUnit) (t : Transfer) :
    reportsAt cu s12 t ≠ [] ↔ s12Finds cu t = true := by
  simp only [reportsAt, Transfer.stmt, s12, s12Finds]
  cases isSlice t.lhs with
  | false => simp
  | true =>
    cases targetKind (tablesOf cu) t.lhs with
    | none => simp
    | some kind => cases kind <;> simp

/-- **A checker of transfers is exact** where it finds what there is. -/
theorem reportsExactly_iff {rule : Tables → Visit → List Verdict} (hrule : OfTransfers rule)
    (cu : CompilationUnit) {finds : Transfer → Bool}
    (hfinds : ∀ t, reportsAt cu rule t ≠ [] ↔ finds t = true) (refused : Transfer → Bool) :
    ReportsExactly cu rule refused ↔
      ∀ t ∈ unitTransfers cu, isTarget cu t.lhs = true → FoundRightly cu finds refused t := by
  have hiff := filter_perm_filter_iff (unitTransfers_perm cu)
    (fun t => isTarget cu t.lhs = true ∧ reportsAt cu rule t ≠ [])
    (fun t => isTarget cu t.lhs = true ∧ refused t = true)
  have hsplit : ReportsExactly cu rule refused ↔ ((seenTransfers cu).filter
      fun t => isTarget cu t.lhs ∧ reportsAt cu rule t ≠ []).Perm
        ((unitTransfers cu).filter fun t => isTarget cu t.lhs ∧ refused t) :=
    ⟨fun h => h.exactly, fun h => ⟨hrule.reports cu, h⟩⟩
  rw [hsplit]
  refine Iff.trans (by convert hiff) (forall₂_congr fun t ht => ?_)
  simp only [hfinds, FoundRightly]
  cases isTarget cu t.lhs <;> cases finds t <;> cases refused t <;> simp

/-- A register written by `=` in a concatenation. -/
def concatUnit : CompilationUnit :=
  [.module 0 "m".toList [.reg 1 "r".toList none none, .wire 2 "w".toList none]
    [.transfer 3 .wireEq (.concat [.identifier 4 ["r".toList], .identifier 5 ["w".toList]])
      (.literal .decimal ['0'])] [] []]

end Sema

end Nslc
