import Nslc.Common.Selection
import Nslc.Sema.Checkers
import Nslc.Sema.Scoping
import Nslc.Sema.Visited
/-!
# Sema — the slices S15 checks

S15 looks at transfers and at the declarations of storage, and there at
every slice in an expression. The slices of all other statements it
passes over, as it does those out of the walk's reach. Whether a slice is
of a memory it decides by the name the operand starts with, looked up
among the scopes of all modules, so that what is taken of a memory cell
is not checked either.
-/

namespace Nslc

namespace Sema

open AST

/-! ## Slices -/

/-- The slices in the expressions of a node. -/
def Node.slices (n : Node) : List SliceUse := exprsSlices n.exprs

def slicesOf (ns : List Node) : List SliceUse := ns.flatMap Node.slices

/-- The slices of a unit. -/
def unitSlices (cu : CompilationUnit) : List SliceUse := slicesOf (declsNodes cu)

/-- S15 looks at the node's expressions. -/
def Node.scanned : Node → Bool
  | .stmt (.transfer _ _ _ _) => true
  | .decl (.reg _ _ _ _) | .decl (.wire _ _ _) | .decl (.variable _ _ _) => true
  | .decl (.mem _ _ _ _ _) | .decl (.structInst _ _ _ _ _ _) => true
  | _ => false

/-- The slices at a node that S15 does not look at. -/
def Node.passed (n : Node) : List SliceUse := if n.scanned then [] else n.slices

/-- The slices of a unit that S15 passes over: at nodes of other kinds,
and at those out of the walk's reach. -/
def passedOver (cu : CompilationUnit) : List SliceUse :=
  (visited (walkUnit cu)).flatMap Node.passed ++ slicesOf (missedDecls cu)

/-! ## What is asked of S15 -/

/-- The operand is the name of a memory, by the scopes it stands in. -/
def IsMemory (cu : CompilationUnit) (operand : Expr) : Prop :=
  ∃ loc x parts, operand = .identifier loc (x :: parts) ∧
    ∃ b ∈ unitBindings cu, b.use = ⟨loc, x⟩ ∧ b.target.map Symbol.kind = some .mem

/-- The slices a run of S15 reports. -/
def reportedSlices (cu : CompilationUnit) : List SliceUse :=
  ((walkUnit cu).flatMap visitSlices).filter fun u => walkSliceCheck (tablesOf cu) u ≠ []

open Classical in
/-- The slices to report: an index is no constant, and the operand is no
memory. -/
noncomputable def badSlices (cu : CompilationUnit) : List SliceUse :=
  (unitSlices cu).filter fun u => u.isConst = false ∧ ¬ IsMemory cu u.sub

/-- **Slice indices are checked in every expression.** -/
structure SlicesChecked (cu : CompilationUnit) : Prop where
  reports : (walkUnit cu).flatMap (s15 (tablesOf cu)) =
    (reportedSlices cu).map fun u => ⟨u.loc, .sliceNotConst⟩
  exactly : (reportedSlices cu).Perm (badSlices cu)

/-- S15 sees the slice for what it is. -/
def SeenRightly (cu : CompilationUnit) (u : SliceUse) : Prop :=
  (IsMemory cu u.sub → targetKind (tablesOf cu) u.sub = some .mem ∨
    u ∉ (walkUnit cu).flatMap visitSlices) ∧
  (¬ IsMemory cu u.sub → targetKind (tablesOf cu) u.sub ≠ some .mem ∧ u ∉ passedOver cu)

/-! ## The walk and what it passes over -/

theorem exprsSlices_append (es fs : List Expr) :
    exprsSlices (es ++ fs) = exprsSlices es ++ exprsSlices fs := by
  induction es with
  | nil => rfl
  | cons e es ih => rw [List.cons_append, exprsSlices, exprsSlices, ih, List.append_assoc]

theorem exprsSlices_toList (e : Option Expr) : exprsSlices e.toList = exprSlices? e := by
  cases e with
  | none => rfl
  | some e => simp [exprsSlices, exprSlices?]

/-- At a visited node S15 looks at all slices or at none. -/
theorem stmt_slices (s : Stmt) (ctx : Ctx) :
    (Node.stmt s).slices = visitSlices (.stmt s ctx) ++ (Node.stmt s).passed := by
  cases s with
  | transfer loc op lhs rhs =>
    simp [Node.slices, Node.exprs, Node.passed, Node.scanned, visitSlices, exprsSlices]
  | _ => simp [Node.passed, Node.scanned, visitSlices]

theorem decl_slices (d : Decl) (ctx : Ctx) :
    (Node.decl d).slices = visitSlices (.decl d ctx) ++ (Node.decl d).passed := by
  cases d with
  | reg loc name width init =>
    simp [Node.slices, Node.exprs, Node.passed, Node.scanned, visitSlices, blockExprs,
      exprsSlices_append, exprsSlices_toList]
  | wire loc name width =>
    simp [Node.slices, Node.exprs, Node.passed, Node.scanned, visitSlices, blockExprs,
      exprsSlices_toList]
  | «variable» loc name width =>
    simp [Node.slices, Node.exprs, Node.passed, Node.scanned, visitSlices, blockExprs,
      exprsSlices_toList]
  | mem loc name depth width init =>
    simp [Node.slices, Node.exprs, Node.passed, Node.scanned, visitSlices, blockExprs,
      exprsSlices]
  | structInst loc typeName name kind arraySize init =>
    simp [Node.slices, Node.exprs, Node.passed, Node.scanned, visitSlices, blockExprs,
      exprsSlices_append, exprsSlices_toList]
  | _ => simp [Node.passed, Node.scanned, visitSlices]

theorem visit_slices (v : Visit) : v.node.slices = visitSlices v ++ v.node.passed := by
  cases v with
  | stmt s ctx => exact stmt_slices s ctx
  | decl d ctx => exact decl_slices d ctx

/-- **The slices of a unit** are those S15 looks at and those it passes
over. -/
theorem unitSlices_perm (cu : CompilationUnit) :
    (unitSlices cu).Perm ((walkUnit cu).flatMap visitSlices ++ passedOver cu) := by
  have hnodes : (declsNodes cu).Perm (visited (walkUnit cu) ++ missedDecls cu) :=
    (visited_walkDecls cu 0).symm
  have hvisited : (visited (walkUnit cu)).flatMap Node.slices =
      (walkUnit cu).flatMap fun v => visitSlices v ++ v.node.passed := by
    rw [visited, List.flatMap_map]
    exact List.flatMap_congr fun v _ => visit_slices v
  have hsplit : ((walkUnit cu).flatMap fun v => visitSlices v ++ v.node.passed).Perm
      ((walkUnit cu).flatMap visitSlices ++
        (visited (walkUnit cu)).flatMap Node.passed) := by
    rw [visited, List.flatMap_map]
    exact (List.flatMap_append_perm _ _ _).symm
  refine (hnodes.flatMap_right Node.slices).trans ?_
  rw [List.flatMap_append, hvisited, passedOver, ← List.append_assoc]
  exact hsplit.append_right _

/-! ## The verdict -/

theorem walkSliceCheck_eq (t : Tables) (u : SliceUse) :
    walkSliceCheck t u =
      if walkSliceCheck t u ≠ [] then [⟨u.loc, .sliceNotConst⟩] else [] := by
  unfold walkSliceCheck
  split
  · simp
  · split <;> simp

theorem walkSliceCheck_ne_nil_iff (t : Tables) (u : SliceUse) :
    walkSliceCheck t u ≠ [] ↔ u.isConst = false ∧ targetKind t u.sub ≠ some .mem := by
  unfold walkSliceCheck
  split
  · rename_i h
    simp [h]
  · rename_i h
    split
    · rename_i hconst
      simp [hconst]
    · rename_i hconst
      simp [h, hconst]

theorem s15_reports (cu : CompilationUnit) : (walkUnit cu).flatMap (s15 (tablesOf cu)) =
    (reportedSlices cu).map fun u => ⟨u.loc, .sliceNotConst⟩ := by
  have hall : ∀ us : List SliceUse, us.flatMap (walkSliceCheck (tablesOf cu)) =
      (us.filter fun u => walkSliceCheck (tablesOf cu) u ≠ []).map
        fun u => ⟨u.loc, .sliceNotConst⟩ := by
    intro us
    induction us with
    | nil => rfl
    | cons u us ih =>
      rw [List.flatMap_cons, walkSliceCheck_eq, ih]
      by_cases h : walkSliceCheck (tablesOf cu) u = [] <;> simp [h]
  rw [reportedSlices, ← hall, List.flatMap_assoc]
  rfl

theorem mem_badSlices {cu : CompilationUnit} {u : SliceUse} :
    u ∈ badSlices cu ↔ u ∈ unitSlices cu ∧ u.isConst = false ∧ ¬ IsMemory cu u.sub := by
  simp [badSlices, List.mem_filter]

/-- A slice with a varying index in the condition of an `if`. -/
def conditionUnit : CompilationUnit :=
  [.module 0 "m".toList
    [.reg 1 "r".toList (some (.literal .decimal ['4'])) none, .reg 2 "i".toList none none]
    [.if (.slice 3 (.identifier 3 ["r".toList]) (.identifier 4 ["i".toList]) none)
      (.transfer 5 .regColonEq (.identifier 5 ["i".toList]) (.identifier 6 ["i".toList])) none]
    [] []]

end Sema

end Nslc
