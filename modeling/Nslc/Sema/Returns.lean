import Nslc.Sema.Checkers
import Nslc.Sema.Scoping
import Nslc.Sema.Inference
/-!
# Sema — the returns S22 checks

A return belongs to the func around it, the func to the terminal or
`func_self` of its name, and that names the return terminal. S22 joins
the three by bare names, over the `declare` blocks of all modules, and
compares widths that were inferred without the terminal. The returns of a
body are listed here with the scopes of the blocks around them, and with
those the pass has open there if the checker's walk comes by.
-/

namespace Nslc

namespace Sema

open AST

/-! ## Returns -/

structure FoundReturn where
  loc : Loc
  value : Option Expr
  /-- The scopes of the blocks around it, with what is declared there. -/
  scopes : List Scope
  /-- The scopes the pass types the value in; none where the walk does not
  come by. -/
  seen : Option (List Scope)

/-- The walk goes on into a construct of that scope. -/
def within (scope : Scope) (seen : Option (List Scope)) : Option (List Scope) :=
  seen.map (scope :: ·)

mutual

/-- The returns of a statement. -/
def allReturns (scopes : List Scope) (seen : Option (List Scope)) (s : Stmt) : List FoundReturn :=
  match s with
  | .return loc value => [⟨loc, value, scopes, seen⟩]
  | .seq items decls | .parallel items decls =>
    allReturnsIn (blockScope decls :: scopes) (within ⟨.seqOrParallel, []⟩ seen) items ++
      keptReturns (blockScope decls :: scopes) decls
  | .while _ items | .initBlock items =>
    allReturnsIn scopes (within ⟨.seqOrParallel, []⟩ seen) items
  | .for init _ step items =>
    allReturns scopes none init ++ allReturns? scopes none step ++
      allReturnsIn scopes (within ⟨.seqOrParallel, []⟩ seen) items
  | .alt cases elseCase | .any cases elseCase =>
    allCaseReturns scopes (within ⟨.seqOrParallel, []⟩ seen) cases ++
      allReturns? scopes (within ⟨.seqOrParallel, []⟩ seen) elseCase
  | .if _ thenBr elseBr => allReturns scopes seen thenBr ++ allReturns? scopes seen elseBr
  | .labeled _ body => allReturns? scopes seen body
  | .generate loc init _ _ _ body =>
    allReturns (loopScope loc init :: scopes) (within (loopScope loc init) seen) body
  | _ => []

def allReturnsIn (scopes : List Scope) (seen : Option (List Scope)) (ss : List Stmt) :
    List FoundReturn :=
  match ss with
  | [] => []
  | s :: ss => allReturns scopes seen s ++ allReturnsIn scopes seen ss

def allReturns? (scopes : List Scope) (seen : Option (List Scope)) (s : Option Stmt) :
    List FoundReturn :=
  match s with
  | none => []
  | some s => allReturns scopes seen s

def allCaseReturns (scopes : List Scope) (seen : Option (List Scope)) (cs : List CondCase) :
    List FoundReturn :=
  match cs with
  | [] => []
  | ⟨_, body⟩ :: cs => allReturns scopes seen body ++ allCaseReturns scopes seen cs

/-- The returns in the definitions kept among a block's declarations;
those of a func are its own. -/
def keptReturns (scopes : List Scope) (ds : List Decl) : List FoundReturn :=
  match ds with
  | [] => []
  | .procDefn _ _ body :: ds | .stateDefn _ _ body :: ds =>
    allReturns scopes none body ++ keptReturns scopes ds
  | _ :: ds => keptReturns scopes ds

end

/-- The returns of a func's body. -/
def funcReturns (f : OpenFunc) : List FoundReturn := allReturns [] (some []) f.body

mutual

/-- The returns of a declaration that stand in no func. -/
def outsideReturns (d : Decl) : List FoundReturn :=
  match d with
  | .module _ _ internals actions funcs procs =>
    outsideReturnsIn internals ++ outsideReturnsIn funcs ++ outsideReturnsIn procs ++
      allReturnsIn [] (some []) actions
  | .procDefn _ _ body | .stateDefn _ _ body => allReturns [] (some []) body
  | _ => []

def outsideReturnsIn (ds : List Decl) : List FoundReturn :=
  match ds with
  | [] => []
  | d :: ds => outsideReturns d ++ outsideReturnsIn ds

end

/-! ## Funcs and their return terminals -/

/-- The declaration of a func in a module: the control terminal of the
module's `declare`, or the `func_self`. Of a func that is declared so,
the name of its return terminal, empty where it has none. -/
def declaredReturn (cu : CompilationUnit) (d : Decl) (name : ScopedName) : Option Ident :=
  match d, name with
  | .module _ moduleName internals _ _ _, [x] =>
    let ports := ((declareOf cu moduleName).map Prod.snd).getD []
    match ports.find? fun p => p.name = x && isControlTerminal p.direction with
    | some p => some p.returnTerminal
    | none => internals.findSome? fun d =>
      match d with
      | .funcSelf _ y _ returnTerminal => if y = x then some returnTerminal else none
      | _ => none
  | _, _ => none

/-- The width a type has. -/
def widthOf : Ty → Option ℕ
  | .bitVector w => some w
  | .bit => some 1
  | _ => none

/-- The width of a name, in these scopes. -/
def nameWidth (scopes : List Scope) (x : Ident) : Option ℕ :=
  ((SymbolTable.findIn scopes x).bind Symbol.type).bind widthOf

/-- The value of a number literal that states no width. -/
def unsizedValue (e : Expr) : Option ℕ :=
  match e with
  | .literal _ spelling => if '\'' ∈ spelling then none else statedValue e
  | _ => none

/-- The value is not of that width; none where it has no width. An
unsized literal is of every width it fits in. -/
def mismatches (scopes : List Scope) (e : Expr) (w : ℕ) : Option Bool :=
  match unsizedValue e with
  | some v => some (2 ^ w ≤ v)
  | none => (widthOf (exprType (SymbolTable.findIn scopes) 0 e)).map fun v => v ≠ w

/-! ## What is asked of S22 -/

section
variable (cu : CompilationUnit)

/-- Whether a return is to be reported, in a func that names this return
terminal; none where nothing is said: of a value returned without a
terminal, and where one of the two has no width. -/
def toReport (terminal : Ident) (f : OpenFunc) (r : FoundReturn) : Option Bool :=
  match r.value with
  | none => some (terminal ≠ [])
  | some e =>
    if terminal = [] then none
    else (nameWidth f.outer terminal).bind (mismatches (r.scopes ++ f.outer) e)

/-- What S22 reports at a return of a func. -/
def reportsOn (f : OpenFunc) (r : FoundReturn) : List Verdict :=
  match r.seen with
  | none => []
  | some inner => s22Return (returnTerminal (tablesOf cu) f.name) f.outer ⟨r.loc, r.value, inner⟩

/-- The funcs of a unit, each with the item it stands in. -/
def unitFuncs : List (Decl × OpenFunc) :=
  (itemsFrom cu startWalker cu).flatMap fun i => (itemFuncs cu i.1 i.2).map (i.2, ·)

/-- **Returns are checked against their own func.** -/
structure ReturnsChecked : Prop where
  reports : ((itemsFrom cu startWalker cu).flatMap fun i =>
      itemFuncs cu i.1 i.2).flatMap (s22 (tablesOf cu)) =
    (unitFuncs cu).flatMap fun f => (funcReturns f.2).flatMap (reportsOn cu f.2)
  inFunc : ∀ f ∈ unitFuncs cu, ∀ terminal, declaredReturn cu f.1 f.2.name = some terminal →
    ∀ r ∈ funcReturns f.2, ∀ b, toReport terminal f.2 r = some b →
      (reportsOn cu f.2 r ≠ [] ↔ b = true)
  outside : ((walkUnit cu).flatMap s22Outside).Perm
    ((outsideReturnsIn cu).map fun r => ⟨r.loc, .returnOutsideFunc⟩)

/-- The widths S22 compares at a value: that of the func's terminal in
the tables over all `declare` blocks, and that of the type the pass
leaves. Zero is no width. -/
def differ (w : ℕ) (scopes : List Scope) (value : Option Expr) : Prop :=
  ∀ e ∈ value, typeWidth (exprType (SymbolTable.findIn scopes) 0 e) ≠ 0 ∧ w ≠ 0 ∧
    typeWidth (exprType (SymbolTable.findIn scopes) 0 e) ≠ w

/-- S22 finds fault with a return: the walk comes by, a func of that name
has a return terminal in the tables, and the widths differ. -/
def Faulted (f : OpenFunc) (r : FoundReturn) : Prop :=
  ∃ inner ∈ r.seen, ∃ w ∈ returnTerminal (tablesOf cu) f.name,
    differ w (inner ++ f.outer) r.value

end

/-! ## The walks -/

/-- A return as the checker's walk has it. -/
def FoundReturn.walked (r : FoundReturn) : Option Return :=
  r.seen.map fun inner => ⟨r.loc, r.value, inner⟩

mutual

theorem allReturns_unseen (scopes : List Scope) (s : Stmt) :
    (allReturns scopes none s).filterMap FoundReturn.walked = [] := by
  cases s with
  | «return» loc value => rfl
  | seq items decls =>
    rw [allReturns, List.filterMap_append]
    exact List.append_eq_nil_iff.2 ⟨allReturnsIn_unseen _ items, keptReturns_unseen _ decls⟩
  | parallel items decls =>
    rw [allReturns, List.filterMap_append]
    exact List.append_eq_nil_iff.2 ⟨allReturnsIn_unseen _ items, keptReturns_unseen _ decls⟩
  | «while» cond items => exact allReturnsIn_unseen scopes items
  | initBlock items => exact allReturnsIn_unseen scopes items
  | «for» init cond step items =>
    rw [allReturns, List.filterMap_append, List.filterMap_append, allReturns_unseen scopes init,
      allReturns?_unseen scopes step]
    exact allReturnsIn_unseen scopes items
  | alt cases elseCase =>
    rw [allReturns, List.filterMap_append]
    exact List.append_eq_nil_iff.2 ⟨allCaseReturns_unseen _ cases, allReturns?_unseen _ elseCase⟩
  | any cases elseCase =>
    rw [allReturns, List.filterMap_append]
    exact List.append_eq_nil_iff.2 ⟨allCaseReturns_unseen _ cases, allReturns?_unseen _ elseCase⟩
  | «if» cond thenBr elseBr =>
    rw [allReturns, List.filterMap_append]
    exact List.append_eq_nil_iff.2 ⟨allReturns_unseen _ thenBr, allReturns?_unseen _ elseBr⟩
  | labeled label body => exact allReturns?_unseen scopes body
  | generate loc init initValue cond step body => exact allReturns_unseen _ body
  | _ => rfl

theorem allReturnsIn_unseen (scopes : List Scope) (ss : List Stmt) :
    (allReturnsIn scopes none ss).filterMap FoundReturn.walked = [] := by
  cases ss with
  | nil => rfl
  | cons s ss =>
    rw [allReturnsIn, List.filterMap_append]
    exact List.append_eq_nil_iff.2 ⟨allReturns_unseen _ s, allReturnsIn_unseen _ ss⟩

theorem allReturns?_unseen (scopes : List Scope) (s : Option Stmt) :
    (allReturns? scopes none s).filterMap FoundReturn.walked = [] := by
  cases s with
  | none => rfl
  | some s => exact allReturns_unseen scopes s

theorem allCaseReturns_unseen (scopes : List Scope) (cs : List CondCase) :
    (allCaseReturns scopes none cs).filterMap FoundReturn.walked = [] := by
  cases cs with
  | nil => rfl
  | cons c cs =>
    obtain ⟨cond, body⟩ := c
    rw [allCaseReturns, List.filterMap_append]
    exact List.append_eq_nil_iff.2 ⟨allReturns_unseen _ body, allCaseReturns_unseen _ cs⟩

theorem keptReturns_unseen (scopes : List Scope) (ds : List Decl) :
    (keptReturns scopes ds).filterMap FoundReturn.walked = [] := by
  cases ds with
  | nil => rfl
  | cons d ds =>
    cases d with
    | procDefn loc name body =>
      rw [keptReturns, List.filterMap_append]
      exact List.append_eq_nil_iff.2 ⟨allReturns_unseen _ body, keptReturns_unseen _ ds⟩
    | stateDefn loc name body =>
      rw [keptReturns, List.filterMap_append]
      exact List.append_eq_nil_iff.2 ⟨allReturns_unseen _ body, keptReturns_unseen _ ds⟩
    | _ => exact keptReturns_unseen scopes ds

end

mutual

/-- **The walk of a body** comes by the returns that are seen. -/
theorem allReturns_walked (scopes inner : List Scope) (s : Stmt) :
    (allReturns scopes (some inner) s).filterMap FoundReturn.walked = stmtReturns inner s := by
  cases s with
  | «return» loc value => rfl
  | seq items decls =>
    rw [allReturns, stmtReturns, List.filterMap_append, keptReturns_unseen, List.append_nil]
    exact allReturnsIn_walked _ _ items
  | parallel items decls =>
    rw [allReturns, stmtReturns, List.filterMap_append, keptReturns_unseen, List.append_nil]
    exact allReturnsIn_walked _ _ items
  | «while» cond items => exact allReturnsIn_walked scopes _ items
  | initBlock items => exact allReturnsIn_walked scopes _ items
  | «for» init cond step items =>
    -- nothing of the header is seen
    rw [allReturns, stmtReturns, List.filterMap_append, List.filterMap_append, allReturns_unseen]
    have hstep : (allReturns? scopes none step).filterMap FoundReturn.walked = [] :=
      allReturns?_unseen scopes step
    rw [hstep]
    exact allReturnsIn_walked scopes _ items
  | alt cases elseCase =>
    rw [allReturns, stmtReturns, List.filterMap_append]
    exact congrArg₂ _ (allCaseReturns_walked _ _ cases) (allReturns?_walked _ _ elseCase)
  | any cases elseCase =>
    rw [allReturns, stmtReturns, List.filterMap_append]
    exact congrArg₂ _ (allCaseReturns_walked _ _ cases) (allReturns?_walked _ _ elseCase)
  | «if» cond thenBr elseBr =>
    rw [allReturns, stmtReturns, List.filterMap_append]
    exact congrArg₂ _ (allReturns_walked _ _ thenBr) (allReturns?_walked _ _ elseBr)
  | labeled label body => exact allReturns?_walked scopes inner body
  | generate loc init initValue cond step body => exact allReturns_walked _ _ body
  | _ => rfl

theorem allReturnsIn_walked (scopes inner : List Scope) (ss : List Stmt) :
    (allReturnsIn scopes (some inner) ss).filterMap FoundReturn.walked =
      stmtsReturns inner ss := by
  cases ss with
  | nil => rfl
  | cons s ss =>
    rw [allReturnsIn, stmtsReturns, List.filterMap_append]
    exact congrArg₂ _ (allReturns_walked _ _ s) (allReturnsIn_walked _ _ ss)

theorem allReturns?_walked (scopes inner : List Scope) (s : Option Stmt) :
    (allReturns? scopes (some inner) s).filterMap FoundReturn.walked =
      stmtReturns? inner s := by
  cases s with
  | none => rfl
  | some s => exact allReturns_walked scopes inner s

theorem allCaseReturns_walked (scopes inner : List Scope) (cs : List CondCase) :
    (allCaseReturns scopes (some inner) cs).filterMap FoundReturn.walked =
      casesReturns inner cs := by
  cases cs with
  | nil => rfl
  | cons c cs =>
    obtain ⟨cond, body⟩ := c
    rw [allCaseReturns, casesReturns, List.filterMap_append]
    exact congrArg₂ _ (allReturns_walked _ _ body) (allCaseReturns_walked _ _ cs)

end

/-! ### Outside of funcs -/

def outsideReport (loc : Loc) : Verdict := ⟨loc, .returnOutsideFunc⟩

/-- S22 at a visited return, which depends on one bit of the context. -/
def atReturn (ctx : Ctx) (r : Return) : List Verdict :=
  if LexCtx.has ctx LexCtx.inFunc then [] else [outsideReport r.loc]

theorem or_and_inFunc {ctx b : Ctx} (hb : b &&& LexCtx.inFunc = 0) :
    (ctx ||| b) &&& LexCtx.inFunc = ctx &&& LexCtx.inFunc := by
  rw [BitVec.and_comm, BitVec.and_or_distrib_left, BitVec.and_comm _ b, hb, BitVec.and_comm]
  exact BitVec.or_zero

/-- No other construct is a func. -/
theorem atReturn_or {b : Ctx} (hb : b &&& LexCtx.inFunc = 0) (ctx : Ctx) :
    atReturn (ctx ||| b) = atReturn ctx := by
  funext r
  rw [atReturn, atReturn, LexCtx.has, LexCtx.has, or_and_inFunc hb]

theorem atReturn_action {b : Ctx} (hb : b &&& LexCtx.inFunc = 0) (ctx : Ctx) :
    atReturn (ctx ||| LexCtx.inAnyAction ||| b) = atReturn ctx := by
  rw [atReturn_or hb, atReturn_or (by decide)]

/-- What S22 reports at the calls of the statement callback. -/
def callVerdicts (calls : List (Stmt × Ctx)) : List Verdict :=
  calls.flatMap fun c => s22Outside (.stmt c.1 c.2)

theorem callVerdicts_append (cs ds : List (Stmt × Ctx)) :
    callVerdicts (cs ++ ds) = callVerdicts cs ++ callVerdicts ds := List.flatMap_append

mutual

theorem callVerdicts_walkStmt (inner : List Scope) (s : Stmt) (ctx : Ctx) :
    callVerdicts (walkStmt s ctx) = (stmtReturns inner s).flatMap (atReturn ctx) := by
  cases s with
  | «return» loc value =>
    show callVerdicts [(.return loc value, ctx)] = [⟨loc, value, inner⟩].flatMap (atReturn ctx)
    simp only [callVerdicts, List.flatMap_cons, List.flatMap_nil, s22Outside, atReturn,
      outsideReport]
  | seq items decls =>
    rw [stmtReturns, ← atReturn_action (b := LexCtx.inSeq) (by decide) ctx]
    exact callVerdicts_walkStmts _ items _
  | parallel items decls =>
    rw [stmtReturns, ← atReturn_action (b := LexCtx.inParallel) (by decide) ctx]
    exact callVerdicts_walkStmts _ items _
  | «while» cond items =>
    rw [stmtReturns, ← atReturn_action (b := LexCtx.inWhile) (by decide) ctx]
    exact callVerdicts_walkStmts _ items _
  | «for» init cond step items =>
    rw [stmtReturns, ← atReturn_action (b := LexCtx.inFor) (by decide) ctx]
    exact callVerdicts_walkStmts _ items _
  | initBlock items =>
    rw [stmtReturns, ← atReturn_action (b := LexCtx.inInitBlock) (by decide) ctx]
    exact callVerdicts_walkStmts _ items _
  | alt cases elseCase =>
    rw [stmtReturns, List.flatMap_append, ← atReturn_action (b := LexCtx.inAlt) (by decide) ctx,
      ← callVerdicts_walkCases _ cases, ← callVerdicts_walkStmt? _ elseCase,
      ← callVerdicts_append]
    rfl
  | any cases elseCase =>
    rw [stmtReturns, List.flatMap_append, ← atReturn_action (b := LexCtx.inAny) (by decide) ctx,
      ← callVerdicts_walkCases _ cases, ← callVerdicts_walkStmt? _ elseCase,
      ← callVerdicts_append]
    rfl
  | «if» cond thenBr elseBr =>
    rw [stmtReturns, List.flatMap_append, ← atReturn_action (b := LexCtx.inIf) (by decide) ctx,
      ← callVerdicts_walkStmt _ thenBr, ← callVerdicts_walkStmt? _ elseBr, ← callVerdicts_append]
    rfl
  | labeled label body =>
    rw [stmtReturns, ← atReturn_or (b := LexCtx.inAnyAction) (by decide) ctx]
    exact callVerdicts_walkStmt? _ body _
  | generate loc init initValue cond step body =>
    rw [stmtReturns, ← atReturn_action (b := LexCtx.inGenerate) (by decide) ctx]
    exact callVerdicts_walkStmt _ body _
  | _ => rfl

theorem callVerdicts_walkStmts (inner : List Scope) (ss : List Stmt) (ctx : Ctx) :
    callVerdicts (walkStmts ss ctx) = (stmtsReturns inner ss).flatMap (atReturn ctx) := by
  cases ss with
  | nil => rfl
  | cons s ss =>
    rw [walkStmts, stmtsReturns, callVerdicts_append, List.flatMap_append]
    exact congrArg₂ _ (callVerdicts_walkStmt inner s ctx) (callVerdicts_walkStmts inner ss ctx)

theorem callVerdicts_walkStmt? (inner : List Scope) (s : Option Stmt) (ctx : Ctx) :
    callVerdicts (walkStmt? s ctx) = (stmtReturns? inner s).flatMap (atReturn ctx) := by
  cases s with
  | none => rfl
  | some s => exact callVerdicts_walkStmt inner s ctx

theorem callVerdicts_walkCases (inner : List Scope) (cs : List CondCase) (ctx : Ctx) :
    callVerdicts (walkCases cs ctx) = (casesReturns inner cs).flatMap (atReturn ctx) := by
  cases cs with
  | nil => rfl
  | cons c cs =>
    obtain ⟨cond, body⟩ := c
    rw [walkCases, casesReturns, callVerdicts_append, List.flatMap_append]
    exact congrArg₂ _ (callVerdicts_walkStmt inner body ctx) (callVerdicts_walkCases inner cs ctx)

end

/-- The reports at the returns that are seen. -/
def seenOutside (rs : List FoundReturn) : List Verdict :=
  (rs.filterMap FoundReturn.walked).map fun r => outsideReport r.loc

theorem seenOutside_append (rs rs' : List FoundReturn) :
    seenOutside (rs ++ rs') = seenOutside rs ++ seenOutside rs' := by
  simp [seenOutside]

theorem flatMap_atReturn {ctx : Ctx} (h : ctx &&& LexCtx.inFunc = 0) (rs : List Return) :
    rs.flatMap (atReturn ctx) = rs.map fun r => outsideReport r.loc := by
  have hone : atReturn ctx = fun r => [outsideReport r.loc] := by
    funext r
    rw [atReturn, LexCtx.has, h]
    rfl
  rw [hone, ← List.map_eq_flatMap]

theorem flatMap_stmtCalls (calls : List (Stmt × Ctx)) :
    (stmtCalls calls).flatMap s22Outside = callVerdicts calls := by
  rw [stmtCalls, List.flatMap_map]
  rfl

theorem outside_walkStmt {ctx : Ctx} (h : ctx &&& LexCtx.inFunc = 0) (s : Stmt) :
    (stmtCalls (walkStmt s ctx)).flatMap s22Outside = seenOutside (allReturns [] (some []) s) := by
  rw [flatMap_stmtCalls, callVerdicts_walkStmt [] s, flatMap_atReturn h, seenOutside,
    allReturns_walked]

theorem outside_walkStmts {ctx : Ctx} (h : ctx &&& LexCtx.inFunc = 0) (ss : List Stmt) :
    (stmtCalls (walkStmts ss ctx)).flatMap s22Outside =
      seenOutside (allReturnsIn [] (some []) ss) := by
  rw [flatMap_stmtCalls, callVerdicts_walkStmts [] ss, flatMap_atReturn h, seenOutside,
    allReturnsIn_walked]

/-- In a func there is nothing to report. -/
theorem outside_func (s : Stmt) (ctx : Ctx) :
    (stmtCalls (walkStmt s (ctx ||| LexCtx.inFunc))).flatMap s22Outside = [] := by
  have hquiet : atReturn (ctx ||| LexCtx.inFunc) = fun _ => [] := by
    have hbit : LexCtx.has (ctx ||| LexCtx.inFunc) LexCtx.inFunc = true := by
      have hkept : (ctx ||| LexCtx.inFunc) &&& LexCtx.inFunc = LexCtx.inFunc := by
        ext i
        simp only [BitVec.getElem_and, BitVec.getElem_or]
        cases ctx[i] <;> cases LexCtx.inFunc[i] <;> rfl
      rw [LexCtx.has, hkept]
      decide
    funext r
    rw [atReturn, if_pos hbit]
  rw [flatMap_stmtCalls, callVerdicts_walkStmt [] s, hquiet]
  simp

mutual

theorem outside_walkDecl {ctx : Ctx} (h : ctx &&& LexCtx.inFunc = 0) (d : Decl) :
    (walkDecl d ctx).flatMap s22Outside = seenOutside (outsideReturns d) := by
  cases d with
  | declare name modifier clockName resetName headerParams ports =>
    rw [walkDecl, List.flatMap_cons, List.flatMap_append, List.flatMap_map, List.flatMap_map]
    simp [s22Outside, outsideReturns, seenOutside]
  | module loc name internals actions funcs procs =>
    have hctx : (ctx ||| LexCtx.inModule) &&& LexCtx.inFunc = 0 := by
      rw [or_and_inFunc (by decide), h]
    rw [walkDecl, outsideReturns, List.flatMap_cons, List.flatMap_append, List.flatMap_append,
      List.flatMap_append, seenOutside_append, seenOutside_append, seenOutside_append,
      outside_walkDecls hctx internals, outside_walkDecls hctx funcs, outside_walkDecls hctx procs,
      outside_walkStmts hctx actions]
    rfl
  | funcDefn loc name body =>
    rw [walkDecl, List.flatMap_cons, outside_func]
    rfl
  | procDefn loc name body =>
    have hctx : (ctx ||| LexCtx.inProc) &&& LexCtx.inFunc = 0 := by
      rw [or_and_inFunc (by decide), h]
    rw [walkDecl, List.flatMap_cons, outsideReturns, outside_walkStmt hctx body]
    rfl
  | stateDefn loc name body =>
    have hctx : (ctx ||| LexCtx.inProc ||| LexCtx.inState) &&& LexCtx.inFunc = 0 := by
      rw [or_and_inFunc (by decide), or_and_inFunc (by decide), h]
    rw [walkDecl, List.flatMap_cons, outsideReturns, outside_walkStmt hctx body]
    rfl
  | _ => rfl

theorem outside_walkDecls {ctx : Ctx} (h : ctx &&& LexCtx.inFunc = 0) (ds : List Decl) :
    (walkDecls ds ctx).flatMap s22Outside = seenOutside (outsideReturnsIn ds) := by
  cases ds with
  | nil => rfl
  | cons d ds =>
    rw [walkDecls, outsideReturnsIn, List.flatMap_append, seenOutside_append]
    exact congrArg₂ _ (outside_walkDecl h d) (outside_walkDecls h ds)

end

theorem FoundReturn.walked_of_seen {r : FoundReturn} {inner : List Scope}
    (h : r.seen = some inner) : r.walked = some ⟨r.loc, r.value, inner⟩ := by
  rw [walked, h]
  rfl

theorem seenOutside_eq {rs : List FoundReturn} (h : ∀ r ∈ rs, r.seen ≠ none) :
    seenOutside rs = rs.map fun r => outsideReport r.loc := by
  induction rs with
  | nil => rfl
  | cons r rs ih =>
    obtain ⟨inner, hseen⟩ := Option.ne_none_iff_exists'.1 (h r List.mem_cons_self)
    have htail := ih fun r' hr' => h r' (List.mem_cons_of_mem _ hr')
    rw [seenOutside, List.filterMap_cons_some (FoundReturn.walked_of_seen hseen), List.map_cons,
      List.map_cons, ← htail]
    rfl

/-- **Every return outside** is reported once if all are seen. -/
theorem outside_perm_iff (cu : CompilationUnit) :
    ((walkUnit cu).flatMap s22Outside).Perm
        ((outsideReturnsIn cu).map fun r => outsideReport r.loc) ↔
      ∀ r ∈ outsideReturnsIn cu, r.seen ≠ none := by
  have hwalk : (walkUnit cu).flatMap s22Outside = seenOutside (outsideReturnsIn cu) :=
    outside_walkDecls (by decide) cu
  rw [hwalk]
  constructor
  · intro h
    have hlen := h.length_eq
    rw [seenOutside, List.length_map, List.length_map, List.filterMap_length_eq_length] at hlen
    intro r hr hnone
    have := hlen r hr
    rw [FoundReturn.walked, hnone] at this
    cases this
  · intro h
    rw [seenOutside_eq h]

/-! ## The verdicts -/

/-- **S22 on a func** is S22 on its returns. -/
theorem s22_eq (cu : CompilationUnit) (f : OpenFunc) :
    s22 (tablesOf cu) f = (funcReturns f).flatMap (reportsOn cu f) := by
  rw [s22, ← allReturns_walked [] [] f.body]
  show ((funcReturns f).filterMap FoundReturn.walked).flatMap _ = _
  induction funcReturns f with
  | nil => rfl
  | cons r rs ih =>
    rw [List.flatMap_cons, ← ih]
    cases hseen : r.seen with
    | none =>
      have hwalked : r.walked = none := by rw [FoundReturn.walked, hseen]; rfl
      rw [List.filterMap_cons_none hwalked, reportsOn, hseen]
      rfl
    | some inner =>
      rw [List.filterMap_cons_some (FoundReturn.walked_of_seen hseen), reportsOn, hseen]
      rfl

theorem reports_eq (cu : CompilationUnit) : ((itemsFrom cu startWalker cu).flatMap fun i =>
    itemFuncs cu i.1 i.2).flatMap (s22 (tablesOf cu)) =
      (unitFuncs cu).flatMap fun f => (funcReturns f.2).flatMap (reportsOn cu f.2) := by
  rw [unitFuncs, List.flatMap_assoc, List.flatMap_assoc]
  refine List.flatMap_congr fun i _ => ?_
  rw [List.flatMap_map]
  exact List.flatMap_congr fun f _ => s22_eq cu f

/-- S22 reports where it finds fault. -/
theorem reportsOn_iff (cu : CompilationUnit) (f : OpenFunc) (r : FoundReturn) :
    reportsOn cu f r ≠ [] ↔ Faulted cu f r := by
  rw [reportsOn, Faulted]
  cases r.seen with
  | none => simp
  | some inner =>
    cases returnTerminal (tablesOf cu) f.name with
    | none => simp [s22Return]
    | some w =>
      cases r.value with
      | none => simp [s22Return, Return.type, differ]
      | some e =>
        simp only [s22Return, Return.type, Option.map_some, differ, Option.mem_def,
          Option.some.injEq, exists_eq_left', forall_eq']
        split <;> simp_all

/-- A `func_self` with a return terminal, left without a value. -/
def selfUnit : CompilationUnit :=
  [.module 0 "m".toList
    [.wire 1 "q".toList (some (.literal .decimal ['8'])), .funcSelf 2 "f".toList [] "q".toList] []
    [.funcDefn 3 ["f".toList] (.return 4 none)] []]

end Sema

end Nslc
