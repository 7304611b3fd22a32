import Nslc.Sema.Types
import Nslc.Sema.Walk
/-!
# Sema — the constraint checkers of names and kinds

The checkers S3, S11, S12, S15, S21 and S22. They run when the pass has
closed all scopes: a name is looked up among the closed ones, whichever
module they belong to, and states, return terminals and widths are kept
in maps of the whole unit. `checkUnit` is a run of the six over a unit,
`verdictsIn` what they report inside one item of it.
-/

namespace Nslc

namespace Sema

open AST

/-! ## Reports -/

inductive Finding where
  | wireEqOnReg
  | regColonEqOnOther
  | stateNotVisible
  | partialAssignment
  | sliceNotConst
  | bareFinishOutsideProc
  | methodOfNoProc
  | returnOutsideFunc
  | bareReturn
  | returnWidth (value terminal : ℕ)
  deriving DecidableEq, Repr

def Finding.text : Finding → String
  | .wireEqOnReg => "'=' targets a wire, output, inout, variable, or integer; use ':=' for reg (S3)"
  | .regColonEqOnOther =>
    "':=' targets a reg or struct-instance-reg; use '=' for wire/output/inout/variable/integer (S3)"
  | .stateNotVisible =>
    "'state_name' is scoped to its enclosing 'proc' and is not visible here (S11)"
  | .partialAssignment => "partial assignment is permitted only on 'variable' identifiers (S12)"
  | .sliceNotConst => "bit-slice index must be a compile-time constant (S15)"
  | .bareFinishOutsideProc =>
    "'finish' / 'invoke' is a built-in proc method; bare form is permitted only inside a " ++
      "'proc' body (S21)"
  | .methodOfNoProc =>
    "dotted form '<inst>.finish()' / '<inst>.invoke()' requires '<inst>' to resolve to a " ++
      "'proc_name' declaration (S21)"
  | .returnOutsideFunc => "'return' may appear only inside a 'func' body (S22)"
  | .bareReturn =>
    "bare 'return;' is valid only when the func has no return-value terminal (S22)"
  | .returnWidth value terminal =>
    "return-expression width " ++ toString value ++
      " does not match func's return-value-terminal width " ++ toString terminal ++ " (S22)"

structure Verdict where
  loc : Loc
  finding : Finding
  deriving DecidableEq, Repr

/-! ## The tables the checkers read -/

mutual

/-- The state names a proc's body declares in its parallel blocks. -/
def statesIn (s : Stmt) : List Ident :=
  match s with
  | .parallel items decls =>
    (decls.flatMap fun d =>
      match d with
      | .stateName _ names => names
      | _ => []) ++ statesInAll items
  | _ => []

def statesInAll (ss : List Stmt) : List Ident :=
  match ss with
  | [] => []
  | s :: ss => statesIn s ++ statesInAll ss

end

/-- `buildIndex`: each state name with the proc that declares it, in the
order of the writes. -/
def stateIndex (cu : CompilationUnit) : List (Ident × Ident) :=
  cu.flatMap fun item =>
    match item with
    | .module _ _ _ _ _ procs =>
      procs.flatMap fun p =>
        match p with
        | .procDefn _ name body => (statesIn body).map fun x => (x, name)
        | _ => []
    | _ => []

def declarePorts (cu : CompilationUnit) : List PortDecl :=
  cu.flatMap fun item =>
    match item with
    | .declare _ _ _ _ _ ports => ports
    | _ => []

/-- The last value written for a key. -/
def lastOf {α : Type} (entries : List (Ident × α)) (x : Ident) : Option α :=
  (entries.reverse.find? fun e => e.1 = x).map Prod.snd

structure Tables where
  /-- The kind of the symbol `SymbolTable::lookup` finds. -/
  kindOf : Ident → Option SymbolKind
  /-- The proc a state name belongs to. -/
  owner : Ident → Option Ident
  funcReturn : Ident → Option Ident
  portWidth : Ident → Option ℕ

def isControlTerminal : Direction → Bool
  | .funcIn | .funcOut => true
  | _ => false

/-- A port's width by the symbol of its name. -/
def symbolWidth (sym : Option Symbol) : ℕ :=
  match sym.bind Symbol.type with
  | some (.bitVector w) => w
  | _ => 1

def tablesOf (cu : CompilationUnit) : Tables where
  kindOf x := ((runResolutionPass cu).table.lookup x).map Symbol.kind
  owner := lastOf (stateIndex cu)
  funcReturn := lastOf (((declarePorts cu).filter fun p =>
    isControlTerminal p.direction && !p.returnTerminal.isEmpty).map fun p =>
      (p.name, p.returnTerminal))
  portWidth := lastOf ((declarePorts cu).map fun p =>
    (p.name, symbolWidth ((runResolutionPass cu).table.lookup p.name)))

/-! ## S3 and S12: targets of transfers -/

/-- The name a target starts with, through its slices; empty where it
starts with none. -/
def headIdentifier : Expr → Ident
  | .identifier _ (x :: _) => x
  | .slice _ sub _ _ => headIdentifier sub
  | _ => []

/-- The kind of the symbol under a target. -/
def targetKind (t : Tables) (lhs : Expr) : Option SymbolKind :=
  if headIdentifier lhs = [] then none else t.kindOf (headIdentifier lhs)

def s03 (t : Tables) : Visit → List Verdict
  | .stmt (.transfer loc op lhs _) _ =>
    match targetKind t lhs with
    | none | some .mem => []
    | some kind =>
      match op with
      | .wireEq => if kind = .reg then [⟨loc, .wireEqOnReg⟩] else []
      | .regColonEq => if kind = .reg then [] else [⟨loc, .regColonEqOnOther⟩]
  | _ => []

def isSlice : Expr → Bool
  | .slice _ _ _ _ => true
  | _ => false

def s12 (t : Tables) : Visit → List Verdict
  | .stmt (.transfer loc _ lhs _) _ =>
    if isSlice lhs then
      match targetKind t lhs with
      | none | some .mem | some .variable => []
      | some _ => [⟨loc, .partialAssignment⟩]
    else []
  | _ => []

/-! ## S15: indices of slices -/

/-- A slice: what it is taken of and whether its indices are literals. -/
structure SliceUse where
  loc : Loc
  sub : Expr
  isConst : Bool

def isCompileTimeConst : Option Expr → Bool
  | none | some (.literal _ _) => true
  | _ => false

mutual

/-- The slices of an expression, as `walkExpr` meets them. -/
def exprSlices (e : Expr) : List SliceUse :=
  match e with
  | .slice loc sub hi lo =>
    ⟨loc, sub, isCompileTimeConst (some hi) && isCompileTimeConst lo⟩ ::
      (exprSlices sub ++ exprSlices hi ++ exprSlices? lo)
  | .binary _ lhs rhs => exprSlices lhs ++ exprSlices rhs
  | .unary _ sub => exprSlices sub
  | .conditional cond thenE elseE => exprSlices cond ++ exprSlices thenE ++ exprSlices elseE
  | .concat parts => exprsSlices parts
  | .repeat count body => exprSlices count ++ exprSlices body
  | .signExtend width sub | .zeroExtend width sub => exprSlices width ++ exprSlices sub
  | .fieldAccess obj _ => exprSlices obj
  | .call _ _ args => exprsSlices args
  | .structCast _ sub _ => exprSlices sub
  | .incDec target _ _ => exprSlices target
  | .literal _ _ | .identifier _ _ | .systemVar _ => []

def exprsSlices (es : List Expr) : List SliceUse :=
  match es with
  | [] => []
  | e :: es => exprSlices e ++ exprsSlices es

def exprSlices? (e : Option Expr) : List SliceUse :=
  match e with
  | none => []
  | some e => exprSlices e

end

/-- The slices of the expressions S15 looks at. -/
def visitSlices : Visit → List SliceUse
  | .stmt (.transfer _ _ lhs rhs) _ => exprSlices lhs ++ exprSlices rhs
  | .stmt _ _ => []
  | .decl d _ =>
    match d with
    | .reg _ _ width init => exprSlices? width ++ exprSlices? init
    | .wire _ _ width | .variable _ _ width => exprSlices? width
    | .mem _ _ depth width init => exprSlices depth ++ exprSlices width ++ exprsSlices init
    | .structInst _ _ _ _ arraySize init => exprSlices? arraySize ++ exprsSlices init
    | _ => []

/-- The cells of a memory may be indexed by any value. -/
def walkSliceCheck (t : Tables) (u : SliceUse) : List Verdict :=
  if targetKind t u.sub = some .mem then []
  else if u.isConst then [] else [⟨u.loc, .sliceNotConst⟩]

def s15 (t : Tables) (v : Visit) : List Verdict := (visitSlices v).flatMap (walkSliceCheck t)

/-! ## S21: methods of procs -/

/-- The spellings of the two methods. -/
def isProcMethod (x : Ident) : Bool := x = "finish".toList || x = "invoke".toList

def s21 (t : Tables) : Visit → List Verdict
  | .stmt (.bareFinish loc) ctx =>
    if LexCtx.has ctx LexCtx.inProc then [] else [⟨loc, .bareFinishOutsideProc⟩]
  | .stmt (.controlCall loc (head :: part :: rest) _) _ =>
    if isProcMethod ((part :: rest).getLast (List.cons_ne_nil part rest)) then
      if t.kindOf head = some .proc then [] else [⟨loc, .methodOfNoProc⟩]
    else []
  | _ => []

/-! ## S11: state names -/

/-- An identifier in an expression, with the proc around it; the empty
name stands for none. -/
structure StateUse where
  loc : Loc
  name : Ident
  enclosingProc : Ident

mutual

def exprStateUses (proc : Ident) (e : Expr) : List StateUse :=
  match e with
  | .identifier loc (x :: _) => [⟨loc, x, proc⟩]
  | .binary _ lhs rhs => exprStateUses proc lhs ++ exprStateUses proc rhs
  | .unary _ sub => exprStateUses proc sub
  | .conditional cond thenE elseE =>
    exprStateUses proc cond ++ exprStateUses proc thenE ++ exprStateUses proc elseE
  | .slice _ sub hi lo =>
    exprStateUses proc sub ++ exprStateUses proc hi ++ exprStateUses? proc lo
  | .concat parts => exprsStateUses proc parts
  | _ => []

def exprsStateUses (proc : Ident) (es : List Expr) : List StateUse :=
  match es with
  | [] => []
  | e :: es => exprStateUses proc e ++ exprsStateUses proc es

def exprStateUses? (proc : Ident) (e : Option Expr) : List StateUse :=
  match e with
  | none => []
  | some e => exprStateUses proc e

end

mutual

def stmtStateUses (proc : Ident) (s : Stmt) : List StateUse :=
  match s with
  | .transfer _ _ lhs rhs => exprStateUses proc lhs ++ exprStateUses proc rhs
  | .parallel items _ | .seq items _ => stmtsStateUses proc items
  | .alt cases elseCase | .any cases elseCase =>
    casesStateUses proc cases ++ stmtStateUses? proc elseCase
  | .if cond thenBr elseBr =>
    exprStateUses proc cond ++ stmtStateUses proc thenBr ++ stmtStateUses? proc elseBr
  | _ => []

def stmtsStateUses (proc : Ident) (ss : List Stmt) : List StateUse :=
  match ss with
  | [] => []
  | s :: ss => stmtStateUses proc s ++ stmtsStateUses proc ss

def stmtStateUses? (proc : Ident) (s : Option Stmt) : List StateUse :=
  match s with
  | none => []
  | some s => stmtStateUses proc s

def casesStateUses (proc : Ident) (cs : List CondCase) : List StateUse :=
  match cs with
  | [] => []
  | ⟨cond, body⟩ :: cs =>
    exprStateUses proc cond ++ stmtStateUses proc body ++ casesStateUses proc cs

end

def itemStateUses : Decl → List StateUse
  | .module _ _ _ actions funcs procs =>
    (funcs.flatMap fun f =>
      match f with
      | .funcDefn _ _ body => stmtStateUses [] body
      | _ => []) ++
    (procs.flatMap fun p =>
      match p with
      | .procDefn _ name body => stmtStateUses name body
      | _ => []) ++ stmtsStateUses [] actions
  | _ => []

def s11 (t : Tables) (u : StateUse) : List Verdict :=
  match t.owner u.name with
  | none => []
  | some proc => if proc = u.enclosingProc then [] else [⟨u.loc, .stateNotVisible⟩]

/-! ## S22: returns -/

def s22Outside : Visit → List Verdict
  | .stmt (.return loc _) ctx =>
    if LexCtx.has ctx LexCtx.inFunc then [] else [⟨loc, .returnOutsideFunc⟩]
  | _ => []

/-- `exprWidth`: zero where the type has none. -/
def typeWidth : Ty → ℕ
  | .bitVector w => w
  | .bit => 1
  | _ => 0

/-- The return terminal of a func and its width. -/
def returnTerminal (t : Tables) (name : ScopedName) : Option ℕ :=
  name.getLast?.bind fun x => (t.funcReturn x).map fun r => (t.portWidth r).getD 0

def s22Return (terminal : Option ℕ) (outer : List Scope) (r : Return) : List Verdict :=
  match terminal with
  | none => []
  | some terminal =>
    match r.type outer with
    | none => [⟨r.loc, .bareReturn⟩]
    | some type =>
      if typeWidth type ≠ 0 ∧ terminal ≠ 0 ∧ typeWidth type ≠ terminal then
        [⟨r.loc, .returnWidth (typeWidth type) terminal⟩]
      else []

def s22 (t : Tables) (f : OpenFunc) : List Verdict :=
  (stmtReturns [] f.body).flatMap (s22Return (returnTerminal t f.name) f.outer)

/-! ## A run of the checkers -/

def startWalker : Walker := (⟨⟨[], []⟩, [], [], []⟩ : Walker).enterScope .global

/-- The items with the walker the pass reaches each with. -/
def itemsFrom (cu : CompilationUnit) (w : Walker) : List Decl → List (Walker × Decl)
  | [] => []
  | d :: ds => (w, d) :: itemsFrom cu (w.visitDecl cu d) ds

/-- The six checkers in the order of their numbers, each over the unit. -/
def checkUnit (cu : CompilationUnit) : List Verdict :=
  let t := tablesOf cu
  let visits := walkUnit cu
  visits.flatMap (s03 t) ++ (cu.flatMap itemStateUses).flatMap (s11 t) ++ visits.flatMap (s12 t) ++
    visits.flatMap (s15 t) ++ visits.flatMap (s21 t) ++ visits.flatMap s22Outside ++
      ((itemsFrom cu startWalker cu).flatMap fun i => itemFuncs cu i.1 i.2).flatMap (s22 t)

/-- What the checkers report inside an item, `w` being the walker the
pass reaches it with. -/
def itemVerdicts (cu : CompilationUnit) (w : Walker) (d : Decl) : List Verdict :=
  let t := tablesOf cu
  let visits := walkDecl d 0
  visits.flatMap (s03 t) ++ (itemStateUses d).flatMap (s11 t) ++ visits.flatMap (s12 t) ++
    visits.flatMap (s15 t) ++ visits.flatMap (s21 t) ++ visits.flatMap s22Outside ++
      (itemFuncs cu w d).flatMap (s22 t)

/-- What they report inside the item `d` that stands behind `pre`. -/
def verdictsIn (cu pre : CompilationUnit) (d : Decl) : List Verdict :=
  itemVerdicts cu (startWalker.visitDecls cu pre) d

end Sema

end Nslc
