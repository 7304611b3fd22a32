import Mathlib
import Nslc.Sema.SymbolTable
import Nslc.Sema.Walk
/-!
# Sema — the declarations that are checked

`walkUnit` calls its declaration callback on the declarations it comes
by, and S1 goes over the unit with a recursion of its own. The two see
the same nodes: both follow a block's statements and leave its
declarations, and both leave the header of a `for`. What is left out is
never checked, and neither are the dummy arguments of a control
terminal.
-/

namespace Nslc

namespace Sema

open AST

/-! ## Nodes -/

inductive Node where
  | decl (d : Decl)
  | stmt (s : Stmt)

namespace Node

def decl? : Node → Option Decl
  | .decl d => some d
  | .stmt _ => none

/-- The names S1 looks at. -/
def checkedNames : Node → List Ident
  | .decl (.topLevelParam p) => [p.name]
  | .decl (.struct _ name members) => name :: members.map StructMember.name
  | .decl (.declare name _ _ _ _ _) => [name]
  | .decl (.module _ name _ _ _ _) => [name]
  | .decl (.port p) => [p.name]
  | .decl (.reg _ name _ _) => [name]
  | .decl (.wire _ name _) => [name]
  | .decl (.variable _ name _) => [name]
  | .decl (.integer _ name) => [name]
  | .decl (.mem _ name _ _ _) => [name]
  | .decl (.funcSelf _ name _ _) => [name]
  | .decl (.procName _ name _) => [name]
  | .decl (.stateName _ names) => names
  | .decl (.firstState _) => []
  | .decl (.submodule _ _ instances _) => instances.map Instance.name
  | .decl (.structInst _ _ instanceName _ _ _) => [instanceName]
  | .decl (.funcDefn _ name _) => name.getLast?.toList
  | .decl (.procDefn _ name _) => [name]
  | .decl (.stateDefn _ name _) => [name]
  | .stmt (.labeled label _) => [label]
  | .stmt (.generate _ init _ _ _ _) => [init]
  | .stmt _ => []

def dummyArgs : Node → List Ident
  | .decl (.port p) => p.dummyArgs
  | .decl (.funcSelf _ _ args _) => args
  | _ => []

/-- The names a node declares. -/
def names (n : Node) : List Ident := n.checkedNames ++ n.dummyArgs

end Node

mutual

/-- Every node of a statement. -/
def stmtNodes (s : Stmt) : List Node :=
  .stmt s :: match s with
  | .seq items decls | .parallel items decls => stmtsNodes items ++ declsNodes decls
  | .alt cases elseCase | .any cases elseCase => casesNodes cases ++ stmtNodes? elseCase
  | .if _ thenBr elseBr => stmtNodes thenBr ++ stmtNodes? elseBr
  | .while _ items | .initBlock items => stmtsNodes items
  | .for init _ step items => stmtNodes init ++ stmtNodes? step ++ stmtsNodes items
  | .labeled _ body => stmtNodes? body
  | .generate _ _ _ _ _ body => stmtNodes body
  | _ => []

def stmtsNodes (ss : List Stmt) : List Node :=
  match ss with
  | [] => []
  | s :: ss => stmtNodes s ++ stmtsNodes ss

def stmtNodes? (s : Option Stmt) : List Node :=
  match s with
  | none => []
  | some s => stmtNodes s

def casesNodes (cs : List CondCase) : List Node :=
  match cs with
  | [] => []
  | ⟨_, body⟩ :: cs => stmtNodes body ++ casesNodes cs

def declNodes (d : Decl) : List Node :=
  .decl d :: match d with
  | .declare _ _ _ _ headerParams ports =>
    headerParams.map (fun p => .decl (.topLevelParam p)) ++ ports.map fun p => .decl (.port p)
  | .module _ _ internals actions funcs procs =>
    declsNodes internals ++ declsNodes funcs ++ declsNodes procs ++ stmtsNodes actions
  | .funcDefn _ _ body | .procDefn _ _ body | .stateDefn _ _ body => stmtNodes body
  | _ => []

def declsNodes (ds : List Decl) : List Node :=
  match ds with
  | [] => []
  | d :: ds => declNodes d ++ declsNodes ds

end

/-! ## S1 -/

/-- Two underscores in a row. -/
def containsDoubleUnderscore : Text → Bool
  | '_' :: '_' :: _ => true
  | _ :: rest => containsDoubleUnderscore rest
  | [] => false

/-- The report for a name, here the name itself. -/
def emitIfBad (name : Ident) : List Ident := if containsDoubleUnderscore name then [name] else []

def emitAll (names : List Ident) : List Ident := names.flatMap emitIfBad

mutual

/-- `checkDecl` of S1. -/
def checkDecl (d : Decl) : List Ident :=
  match d with
  | .topLevelParam p => emitIfBad p.name
  | .struct _ name members => emitIfBad name ++ emitAll (members.map StructMember.name)
  | .declare name _ _ _ headerParams ports =>
    emitIfBad name ++ emitAll (headerParams.map TopLevelParamDecl.name) ++
      emitAll (ports.map PortDecl.name)
  | .module _ name internals actions funcs procs =>
    emitIfBad name ++ checkDecls internals ++ checkDecls funcs ++ checkDecls procs ++
      checkStmts actions
  | .port p => emitIfBad p.name
  | .reg _ name _ _ => emitIfBad name
  | .wire _ name _ => emitIfBad name
  | .variable _ name _ => emitIfBad name
  | .integer _ name => emitIfBad name
  | .mem _ name _ _ _ => emitIfBad name
  | .funcSelf _ name _ _ => emitIfBad name
  | .procName _ name _ => emitIfBad name
  | .stateName _ names => emitAll names
  | .firstState _ => []
  | .submodule _ _ instances _ => emitAll (instances.map Instance.name)
  | .structInst _ _ instanceName _ _ _ => emitIfBad instanceName
  | .funcDefn _ name body => emitAll name.getLast?.toList ++ checkStmt body
  | .procDefn _ name body => emitIfBad name ++ checkStmt body
  | .stateDefn _ name body => emitIfBad name ++ checkStmt body

def checkDecls (ds : List Decl) : List Ident :=
  match ds with
  | [] => []
  | d :: ds => checkDecl d ++ checkDecls ds

/-- `checkStmt` of S1. -/
def checkStmt (s : Stmt) : List Ident :=
  match s with
  | .labeled label body => emitIfBad label ++ checkStmt? body
  | .seq items _ | .parallel items _ => checkStmts items
  | .alt cases elseCase | .any cases elseCase => checkCases cases ++ checkStmt? elseCase
  | .while _ items | .initBlock items => checkStmts items
  | .for _ _ _ items => checkStmts items
  | .if _ thenBr elseBr => checkStmt thenBr ++ checkStmt? elseBr
  | .generate _ init _ _ _ body => emitIfBad init ++ checkStmt body
  | _ => []

def checkStmts (ss : List Stmt) : List Ident :=
  match ss with
  | [] => []
  | s :: ss => checkStmt s ++ checkStmts ss

def checkStmt? (s : Option Stmt) : List Ident :=
  match s with
  | none => []
  | some s => checkStmt s

def checkCases (cs : List CondCase) : List Ident :=
  match cs with
  | [] => []
  | ⟨_, body⟩ :: cs => checkStmt body ++ checkCases cs

end

/-! ## What the walks see and what they miss -/

def Visit.node : Visit → Node
  | .decl d _ => .decl d
  | .stmt s _ => .stmt s

/-- The statements a walk sees, as nodes. -/
def seen (calls : List (Stmt × Ctx)) : List Node := calls.map fun c => .stmt c.1

mutual

/-- The nodes of a block's declarations and of `for` headers. -/
def missedStmt (s : Stmt) : List Node :=
  match s with
  | .seq items decls | .parallel items decls => missedStmts items ++ declsNodes decls
  | .alt cases elseCase | .any cases elseCase => missedCases cases ++ missedStmt? elseCase
  | .if _ thenBr elseBr => missedStmt thenBr ++ missedStmt? elseBr
  | .while _ items | .initBlock items => missedStmts items
  | .for init _ step items => stmtNodes init ++ stmtNodes? step ++ missedStmts items
  | .labeled _ body => missedStmt? body
  | .generate _ _ _ _ _ body => missedStmt body
  | _ => []

def missedStmts (ss : List Stmt) : List Node :=
  match ss with
  | [] => []
  | s :: ss => missedStmt s ++ missedStmts ss

def missedStmt? (s : Option Stmt) : List Node :=
  match s with
  | none => []
  | some s => missedStmt s

def missedCases (cs : List CondCase) : List Node :=
  match cs with
  | [] => []
  | ⟨_, body⟩ :: cs => missedStmt body ++ missedCases cs

end

mutual

def missedDecl (d : Decl) : List Node :=
  match d with
  | .module _ _ internals actions funcs procs =>
    missedDecls internals ++ missedDecls funcs ++ missedDecls procs ++ missedStmts actions
  | .funcDefn _ _ body | .procDefn _ _ body | .stateDefn _ _ body => missedStmt body
  | _ => []

def missedDecls (ds : List Decl) : List Node :=
  match ds with
  | [] => []
  | d :: ds => missedDecl d ++ missedDecls ds

end

/-! ## The condition -/

def clean (names : List Ident) : Bool := names.all fun x => !containsDoubleUnderscore x

/-- No declaration among the nodes, and no name with `__`. -/
def quiet (ns : List Node) : Bool := ns.all fun n => n.decl?.isNone && clean n.names

mutual

/-- No block keeps a declaration, and the header of a `for` declares
nothing that is to be checked. -/
def coveredStmt (s : Stmt) : Bool :=
  match s with
  | .seq items decls | .parallel items decls => coveredStmts items && decls.isEmpty
  | .alt cases elseCase | .any cases elseCase => coveredCases cases && coveredStmt? elseCase
  | .if _ thenBr elseBr => coveredStmt thenBr && coveredStmt? elseBr
  | .while _ items | .initBlock items => coveredStmts items
  | .for init _ step items =>
    quiet (stmtNodes init) && quiet (stmtNodes? step) && coveredStmts items
  | .labeled _ body => coveredStmt? body
  | .generate _ _ _ _ _ body => coveredStmt body
  | _ => true

def coveredStmts (ss : List Stmt) : Bool :=
  match ss with
  | [] => true
  | s :: ss => coveredStmt s && coveredStmts ss

def coveredStmt? (s : Option Stmt) : Bool :=
  match s with
  | none => true
  | some s => coveredStmt s

def coveredCases (cs : List CondCase) : Bool :=
  match cs with
  | [] => true
  | ⟨_, body⟩ :: cs => coveredStmt body && coveredCases cs

end

mutual

/-- No dummy argument contains `__`, and the statements are covered. -/
def coveredDecl (d : Decl) : Bool :=
  match d with
  | .declare _ _ _ _ _ ports => ports.all fun p => clean p.dummyArgs
  | .port p => clean p.dummyArgs
  | .funcSelf _ _ args _ => clean args
  | .module _ _ internals actions funcs procs =>
    coveredDecls internals && coveredDecls funcs && coveredDecls procs && coveredStmts actions
  | .funcDefn _ _ body | .procDefn _ _ body | .stateDefn _ _ body => coveredStmt body
  | _ => true

def coveredDecls (ds : List Decl) : Bool :=
  match ds with
  | [] => true
  | d :: ds => coveredDecl d && coveredDecls ds

end

theorem quiet_append (ns ms : List Node) : quiet (ns ++ ms) = (quiet ns && quiet ms) := by
  simp [quiet]

theorem decl_mem_declNodes (d : Decl) : Node.decl d ∈ declNodes d := by
  cases d <;> simp [declNodes]

theorem quiet_declsNodes (ds : List Decl) : quiet (declsNodes ds) = ds.isEmpty := by
  cases ds with
  | nil => rfl
  | cons d ds =>
    have hmem : Node.decl d ∈ declsNodes (d :: ds) := by
      rw [declsNodes]
      exact List.mem_append_left _ (decl_mem_declNodes d)
    show quiet (declsNodes (d :: ds)) = false
    rw [quiet, List.all_eq_false]
    exact ⟨_, hmem, by simp [Node.decl?]⟩

mutual

theorem coveredStmt_eq (s : Stmt) : coveredStmt s = quiet (missedStmt s) := by
  cases s with
  | seq items decls =>
    rw [coveredStmt, missedStmt, quiet_append, quiet_declsNodes, coveredStmts_eq items]
  | parallel items decls =>
    rw [coveredStmt, missedStmt, quiet_append, quiet_declsNodes, coveredStmts_eq items]
  | alt cases elseCase =>
    rw [coveredStmt, missedStmt, quiet_append, coveredCases_eq cases, coveredStmt?_eq elseCase]
  | any cases elseCase =>
    rw [coveredStmt, missedStmt, quiet_append, coveredCases_eq cases, coveredStmt?_eq elseCase]
  | «if» cond thenBr elseBr =>
    rw [coveredStmt, missedStmt, quiet_append, coveredStmt_eq thenBr, coveredStmt?_eq elseBr]
  | «while» cond items => rw [coveredStmt, missedStmt, coveredStmts_eq items]
  | initBlock items => rw [coveredStmt, missedStmt, coveredStmts_eq items]
  | «for» init cond step items =>
    rw [coveredStmt, missedStmt, quiet_append, quiet_append, coveredStmts_eq items]
  | labeled label body => rw [coveredStmt, missedStmt, coveredStmt?_eq body]
  | generate loc init initValue cond step body => rw [coveredStmt, missedStmt, coveredStmt_eq body]
  | _ => rfl

theorem coveredStmts_eq (ss : List Stmt) : coveredStmts ss = quiet (missedStmts ss) := by
  cases ss with
  | nil => rfl
  | cons s ss =>
    rw [coveredStmts, missedStmts, quiet_append, coveredStmt_eq s, coveredStmts_eq ss]

theorem coveredStmt?_eq (s : Option Stmt) : coveredStmt? s = quiet (missedStmt? s) := by
  cases s with
  | none => rfl
  | some s => rw [coveredStmt?, missedStmt?, coveredStmt_eq s]

theorem coveredCases_eq (cs : List CondCase) : coveredCases cs = quiet (missedCases cs) := by
  cases cs with
  | nil => rfl
  | cons c cs =>
    obtain ⟨cond, body⟩ := c
    rw [coveredCases, missedCases, quiet_append, coveredStmt_eq body, coveredCases_eq cs]

end

/-! ## The walks see the rest -/

/-- The reports of S1 for the nodes. -/
def emitted (ns : List Node) : List Ident := ns.flatMap fun n => emitAll n.checkedNames

theorem emitted_append (ns ms : List Node) : emitted (ns ++ ms) = emitted ns ++ emitted ms := by
  simp [emitted]

theorem emitAll_singleton (x : Ident) : emitAll [x] = emitIfBad x := by simp [emitAll]

theorem seen_append (cs ds : List (Stmt × Ctx)) : seen (cs ++ ds) = seen cs ++ seen ds := by
  simp [seen]

theorem seen_cons (s : Stmt) (ctx : Ctx) (cs : List (Stmt × Ctx)) :
    seen ((s, ctx) :: cs) = .stmt s :: seen cs := rfl

theorem append_perm {α : Type} {a b c d x y : List α} (h : (a ++ c).Perm x)
    (h' : (b ++ d).Perm y) : ((a ++ b) ++ (c ++ d)).Perm (x ++ y) := by
  have hswap : (b ++ (c ++ d)).Perm (c ++ (b ++ d)) := by
    rw [← List.append_assoc, ← List.append_assoc]
    exact List.perm_append_comm.append_right d
  rw [List.append_assoc]
  refine (hswap.append_left a).trans ?_
  rw [← List.append_assoc]
  exact h.append h'

mutual

theorem seen_walkStmt (s : Stmt) (ctx : Ctx) :
    (seen (walkStmt s ctx) ++ missedStmt s).Perm (stmtNodes s) := by
  cases s with
  | seq items decls =>
    rw [walkStmt, missedStmt, stmtNodes, seen_cons, List.cons_append, ← List.append_assoc]
    exact ((seen_walkStmts items _).append_right _).cons _
  | parallel items decls =>
    rw [walkStmt, missedStmt, stmtNodes, seen_cons, List.cons_append, ← List.append_assoc]
    exact ((seen_walkStmts items _).append_right _).cons _
  | alt cases elseCase =>
    rw [walkStmt, missedStmt, stmtNodes, seen_cons, seen_append, List.cons_append]
    exact (append_perm (seen_walkCases cases _) (seen_walkStmt? elseCase _)).cons _
  | any cases elseCase =>
    rw [walkStmt, missedStmt, stmtNodes, seen_cons, seen_append, List.cons_append]
    exact (append_perm (seen_walkCases cases _) (seen_walkStmt? elseCase _)).cons _
  | «if» cond thenBr elseBr =>
    rw [walkStmt, missedStmt, stmtNodes, seen_cons, seen_append, List.cons_append]
    exact (append_perm (seen_walkStmt thenBr _) (seen_walkStmt? elseBr _)).cons _
  | «while» cond items =>
    rw [walkStmt, missedStmt, stmtNodes, seen_cons, List.cons_append]
    exact (seen_walkStmts items _).cons _
  | initBlock items =>
    rw [walkStmt, missedStmt, stmtNodes, seen_cons, List.cons_append]
    exact (seen_walkStmts items _).cons _
  | «for» init cond step items =>
    rw [walkStmt, missedStmt, stmtNodes, seen_cons, List.cons_append]
    -- nothing of the header is seen
    exact (append_perm (a := []) (List.Perm.refl _) (seen_walkStmts items _)).cons _
  | labeled label body =>
    rw [walkStmt, missedStmt, stmtNodes, seen_cons, List.cons_append]
    exact (seen_walkStmt? body _).cons _
  | generate loc init initValue cond step body =>
    rw [walkStmt, missedStmt, stmtNodes, seen_cons, List.cons_append]
    exact (seen_walkStmt body _).cons _
  | _ => exact List.Perm.refl _

theorem seen_walkStmts (ss : List Stmt) (ctx : Ctx) :
    (seen (walkStmts ss ctx) ++ missedStmts ss).Perm (stmtsNodes ss) := by
  cases ss with
  | nil => exact List.Perm.refl _
  | cons s ss =>
    rw [walkStmts, missedStmts, stmtsNodes, seen_append]
    exact append_perm (seen_walkStmt s ctx) (seen_walkStmts ss ctx)

theorem seen_walkStmt? (s : Option Stmt) (ctx : Ctx) :
    (seen (walkStmt? s ctx) ++ missedStmt? s).Perm (stmtNodes? s) := by
  cases s with
  | none => exact List.Perm.refl _
  | some s => exact seen_walkStmt s ctx

theorem seen_walkCases (cs : List CondCase) (ctx : Ctx) :
    (seen (walkCases cs ctx) ++ missedCases cs).Perm (casesNodes cs) := by
  cases cs with
  | nil => exact List.Perm.refl _
  | cons c cs =>
    obtain ⟨cond, body⟩ := c
    rw [walkCases, missedCases, casesNodes, seen_append]
    exact append_perm (seen_walkStmt body ctx) (seen_walkCases cs ctx)

end

mutual

theorem checkStmt_eq (s : Stmt) (ctx : Ctx) : checkStmt s = emitted (seen (walkStmt s ctx)) := by
  have hnone : ∀ (s : Stmt) (ns : List Node), (Node.stmt s).checkedNames = [] →
      emitted (.stmt s :: ns) = emitted ns := by
    intro s ns h
    simp [emitted, h, emitAll]
  have hname : ∀ (s : Stmt) (x : Ident) (ns : List Node), (Node.stmt s).checkedNames = [x] →
      emitted (.stmt s :: ns) = emitIfBad x ++ emitted ns := by
    intro s x ns h
    simp [emitted, h, emitAll]
  cases s with
  | seq items decls =>
    rw [walkStmt, checkStmt, seen_cons, hnone _ _ rfl, checkStmts_eq items]
  | parallel items decls =>
    rw [walkStmt, checkStmt, seen_cons, hnone _ _ rfl, checkStmts_eq items]
  | alt cases elseCase =>
    rw [walkStmt, checkStmt, seen_cons, hnone _ _ rfl, seen_append, emitted_append,
      checkCases_eq cases, checkStmt?_eq elseCase]
  | any cases elseCase =>
    rw [walkStmt, checkStmt, seen_cons, hnone _ _ rfl, seen_append, emitted_append,
      checkCases_eq cases, checkStmt?_eq elseCase]
  | «if» cond thenBr elseBr =>
    rw [walkStmt, checkStmt, seen_cons, hnone _ _ rfl, seen_append, emitted_append,
      checkStmt_eq thenBr, checkStmt?_eq elseBr]
  | «while» cond items =>
    rw [walkStmt, checkStmt, seen_cons, hnone _ _ rfl, checkStmts_eq items]
  | initBlock items =>
    rw [walkStmt, checkStmt, seen_cons, hnone _ _ rfl, checkStmts_eq items]
  | «for» init cond step items =>
    rw [walkStmt, checkStmt, seen_cons, hnone _ _ rfl, checkStmts_eq items]
  | labeled label body =>
    rw [walkStmt, checkStmt, seen_cons, hname _ label _ rfl, checkStmt?_eq body]
  | generate loc init initValue cond step body =>
    rw [walkStmt, checkStmt, seen_cons, hname _ init _ rfl, checkStmt_eq body]
  | _ => rfl

theorem checkStmts_eq (ss : List Stmt) (ctx : Ctx) :
    checkStmts ss = emitted (seen (walkStmts ss ctx)) := by
  cases ss with
  | nil => rfl
  | cons s ss =>
    rw [walkStmts, checkStmts, seen_append, emitted_append, ← checkStmt_eq s ctx,
      ← checkStmts_eq ss ctx]

theorem checkStmt?_eq (s : Option Stmt) (ctx : Ctx) :
    checkStmt? s = emitted (seen (walkStmt? s ctx)) := by
  cases s with
  | none => rfl
  | some s => exact checkStmt_eq s ctx

theorem checkCases_eq (cs : List CondCase) (ctx : Ctx) :
    checkCases cs = emitted (seen (walkCases cs ctx)) := by
  cases cs with
  | nil => rfl
  | cons c cs =>
    obtain ⟨cond, body⟩ := c
    rw [walkCases, checkCases, seen_append, emitted_append, ← checkStmt_eq body ctx,
      ← checkCases_eq cs ctx]

end

/-- The nodes a walk comes by. -/
def visited (vs : List Visit) : List Node := vs.map Visit.node

theorem visited_append (vs ws : List Visit) : visited (vs ++ ws) = visited vs ++ visited ws := by
  simp [visited]

theorem visited_cons (d : Decl) (ctx : Ctx) (vs : List Visit) :
    visited (.decl d ctx :: vs) = .decl d :: visited vs := rfl

theorem visited_stmtCalls (calls : List (Stmt × Ctx)) : visited (stmtCalls calls) = seen calls := by
  simp [visited, stmtCalls, seen, Visit.node]

theorem visited_map {α : Type} (f : α → Decl) (ctx : Ctx) (xs : List α) :
    visited (xs.map fun x => .decl (f x) ctx) = xs.map fun x => .decl (f x) := by
  simp [visited, Visit.node]

/-- The dummy arguments of the nodes are clean. -/
def plainArgs (ns : List Node) : Bool := ns.all fun n => clean n.dummyArgs

theorem plainArgs_append (ns ms : List Node) :
    plainArgs (ns ++ ms) = (plainArgs ns && plainArgs ms) := by
  simp [plainArgs]

theorem plainArgs_seen (calls : List (Stmt × Ctx)) : plainArgs (seen calls) = true := by
  simp [plainArgs, seen, Node.dummyArgs, clean]

mutual

theorem visited_walkDecl (d : Decl) (ctx : Ctx) :
    (visited (walkDecl d ctx) ++ missedDecl d).Perm (declNodes d) := by
  cases d with
  | declare name modifier clockName resetName headerParams ports =>
    rw [walkDecl, declNodes, visited_cons, visited_append, visited_map, visited_map]
    simp [missedDecl]
  | module loc name internals actions funcs procs =>
    rw [walkDecl, missedDecl, declNodes, visited_cons, visited_append, visited_append,
      visited_append, visited_stmtCalls, List.cons_append]
    exact (append_perm (append_perm (append_perm (visited_walkDecls internals _)
      (visited_walkDecls funcs _)) (visited_walkDecls procs _)) (seen_walkStmts actions _)).cons _
  | funcDefn loc name body =>
    rw [walkDecl, missedDecl, declNodes, visited_cons, visited_stmtCalls, List.cons_append]
    exact (seen_walkStmt body _).cons _
  | procDefn loc name body =>
    rw [walkDecl, missedDecl, declNodes, visited_cons, visited_stmtCalls, List.cons_append]
    exact (seen_walkStmt body _).cons _
  | stateDefn loc name body =>
    rw [walkDecl, missedDecl, declNodes, visited_cons, visited_stmtCalls, List.cons_append]
    exact (seen_walkStmt body _).cons _
  | _ => exact List.Perm.refl _

theorem visited_walkDecls (ds : List Decl) (ctx : Ctx) :
    (visited (walkDecls ds ctx) ++ missedDecls ds).Perm (declsNodes ds) := by
  cases ds with
  | nil => exact List.Perm.refl _
  | cons d ds =>
    rw [walkDecls, missedDecls, declsNodes, visited_append]
    exact append_perm (visited_walkDecl d ctx) (visited_walkDecls ds ctx)

end

theorem emitted_decl (d : Decl) (ns : List Node) :
    emitted (.decl d :: ns) = emitAll (Node.decl d).checkedNames ++ emitted ns := by
  simp [emitted]

theorem emitted_map {α : Type} (f : α → Decl) (g : α → Ident) (xs : List α)
    (h : ∀ x, (Node.decl (f x)).checkedNames = [g x]) :
    emitted (xs.map fun x => .decl (f x)) = emitAll (xs.map g) := by
  simp [emitted, emitAll, List.flatMap_map, h]

mutual

theorem checkDecl_eq (d : Decl) (ctx : Ctx) :
    checkDecl d = emitted (visited (walkDecl d ctx)) := by
  cases d with
  | declare name modifier clockName resetName headerParams ports =>
    rw [walkDecl, checkDecl, visited_cons, emitted_decl, visited_append, visited_map, visited_map,
      emitted_append, emitted_map _ TopLevelParamDecl.name _ fun _ => rfl,
      emitted_map _ PortDecl.name _ fun _ => rfl, List.append_assoc]
    simp [Node.checkedNames, emitAll]
  | module loc name internals actions funcs procs =>
    rw [walkDecl, checkDecl, visited_cons, emitted_decl, visited_append, visited_append,
      visited_append, emitted_append, emitted_append, emitted_append, visited_stmtCalls,
      ← checkDecls_eq internals, ← checkDecls_eq funcs, ← checkDecls_eq procs,
      ← checkStmts_eq actions]
    simp [Node.checkedNames, emitAll]
  | funcDefn loc name body =>
    rw [walkDecl, checkDecl, visited_cons, emitted_decl, visited_stmtCalls, ← checkStmt_eq body]
    rfl
  | procDefn loc name body =>
    rw [walkDecl, checkDecl, visited_cons, emitted_decl, visited_stmtCalls, ← checkStmt_eq body]
    simp [Node.checkedNames, emitAll]
  | stateDefn loc name body =>
    rw [walkDecl, checkDecl, visited_cons, emitted_decl, visited_stmtCalls, ← checkStmt_eq body]
    simp [Node.checkedNames, emitAll]
  | _ => simp [walkDecl, checkDecl, visited, Visit.node, emitted, emitAll, Node.checkedNames]

theorem checkDecls_eq (ds : List Decl) (ctx : Ctx) :
    checkDecls ds = emitted (visited (walkDecls ds ctx)) := by
  cases ds with
  | nil => rfl
  | cons d ds =>
    rw [walkDecls, checkDecls, visited_append, emitted_append, ← checkDecl_eq d ctx,
      ← checkDecls_eq ds ctx]

end

mutual

theorem coveredDecl_eq (d : Decl) (ctx : Ctx) :
    coveredDecl d = (quiet (missedDecl d) && plainArgs (visited (walkDecl d ctx))) := by
  have hdecl : ∀ (d : Decl) (ns : List Node), (Node.decl d).dummyArgs = [] →
      plainArgs (.decl d :: ns) = plainArgs ns := by
    intro d ns h
    simp [plainArgs, h, clean]
  cases d with
  | declare name modifier clockName resetName headerParams ports =>
    rw [walkDecl, coveredDecl, visited_cons, hdecl _ _ rfl, visited_append, visited_map, visited_map,
      plainArgs_append]
    simp [missedDecl, quiet, plainArgs, Node.dummyArgs, clean, Function.comp_def]
  | module loc name internals actions funcs procs =>
    rw [walkDecl, coveredDecl, missedDecl, visited_cons, hdecl _ _ rfl, visited_append,
      visited_append, visited_append, plainArgs_append, plainArgs_append, plainArgs_append,
      visited_stmtCalls, plainArgs_seen, quiet_append, quiet_append, quiet_append,
      coveredDecls_eq internals (ctx ||| LexCtx.inModule),
      coveredDecls_eq funcs (ctx ||| LexCtx.inModule),
      coveredDecls_eq procs (ctx ||| LexCtx.inModule), coveredStmts_eq actions]
    grind
  | funcDefn loc name body =>
    rw [walkDecl, coveredDecl, missedDecl, visited_cons, hdecl _ _ rfl, visited_stmtCalls,
      plainArgs_seen, Bool.and_true, coveredStmt_eq body]
  | procDefn loc name body =>
    rw [walkDecl, coveredDecl, missedDecl, visited_cons, hdecl _ _ rfl, visited_stmtCalls,
      plainArgs_seen, Bool.and_true, coveredStmt_eq body]
  | stateDefn loc name body =>
    rw [walkDecl, coveredDecl, missedDecl, visited_cons, hdecl _ _ rfl, visited_stmtCalls,
      plainArgs_seen, Bool.and_true, coveredStmt_eq body]
  | _ => simp [walkDecl, coveredDecl, missedDecl, visited, Visit.node, quiet, plainArgs,
      Node.dummyArgs, clean]

theorem coveredDecls_eq (ds : List Decl) (ctx : Ctx) :
    coveredDecls ds = (quiet (missedDecls ds) && plainArgs (visited (walkDecls ds ctx))) := by
  cases ds with
  | nil => rfl
  | cons d ds =>
    rw [walkDecls, coveredDecls, missedDecls, visited_append, plainArgs_append, quiet_append,
      coveredDecl_eq d ctx, coveredDecls_eq ds ctx]
    grind

end

/-! ## Every declaration -/

/-- The declarations `walkUnit` calls back on. -/
def visitedDecls (cu : CompilationUnit) : List Decl :=
  (visited (walkUnit cu)).filterMap Node.decl?

def unitDecls (cu : CompilationUnit) : List Decl := (declsNodes cu).filterMap Node.decl?

/-- The names the unit declares, wherever they stand. -/
def unitNames (cu : CompilationUnit) : List Ident := (declsNodes cu).flatMap Node.names

/-- S6 on one declaration: a report for each argument that is known and
is no `reg`. -/
def checkProcArgs (lookup : Ident → Option SymbolKind) : Decl → List Loc
  | .procName loc _ regArgs => regArgs.flatMap fun arg =>
    match lookup arg with
    | some kind => if kind ≠ .reg then [loc] else []
    | none => []
  | _ => []

/-- **Every declaration is checked**: the walk calls back once for each
declaration of the unit, S1 reports each declared name that contains
`__` once, and S6 reports what each declaration gives rise to. -/
structure EveryDeclChecked (cu : CompilationUnit) : Prop where
  walked : (visitedDecls cu).Perm (unitDecls cu)
  named : (checkDecls cu).Perm (emitAll (unitNames cu))
  procArgs : ∀ lookup, ((visitedDecls cu).flatMap (checkProcArgs lookup)).Perm
    ((unitDecls cu).flatMap (checkProcArgs lookup))

theorem perm_iff_eq_nil {α : Type} {a b c : List α} (h : (a ++ b).Perm c) :
    a.Perm c ↔ b = [] := by
  constructor
  · intro hac
    have hlen := h.length_eq
    rw [List.length_append, ← hac.length_eq] at hlen
    exact List.length_eq_zero_iff.1 (by omega)
  · rintro rfl
    rwa [List.append_nil] at h

theorem emitAll_eq_nil_iff (names : List Ident) : emitAll names = [] ↔ clean names = true := by
  simp [emitAll, emitIfBad, clean]

theorem walked_iff (cu : CompilationUnit) :
    (visitedDecls cu).Perm (unitDecls cu) ↔ (missedDecls cu).filterMap Node.decl? = [] := by
  have hperm := (visited_walkDecls cu 0).filterMap Node.decl?
  rw [List.filterMap_append] at hperm
  exact perm_iff_eq_nil hperm

theorem named_iff (cu : CompilationUnit) :
    (checkDecls cu).Perm (emitAll (unitNames cu)) ↔
      plainArgs (visited (walkUnit cu)) = true ∧
        (∀ n ∈ missedDecls cu, clean n.names = true) := by
  -- the reports, those for dummy arguments, and those for what is missed
  have hparts : (checkDecls cu ++
      (((visited (walkUnit cu)).flatMap fun n => emitAll n.dummyArgs) ++
        (missedDecls cu).flatMap fun n => emitAll n.names)).Perm (emitAll (unitNames cu)) := by
    have hnames : emitAll (unitNames cu) = (declsNodes cu).flatMap fun n => emitAll n.names := by
      simp [emitAll, unitNames, List.flatMap_assoc]
    have hsplit : (fun n : Node => emitAll n.names) =
        fun n => emitAll n.checkedNames ++ emitAll n.dummyArgs := by
      funext n
      simp [emitAll, Node.names]
    have hseen : (checkDecls cu ++ (visited (walkUnit cu)).flatMap fun n => emitAll n.dummyArgs).Perm
        ((visited (walkUnit cu)).flatMap fun n => emitAll n.names) := by
      rw [checkDecls_eq cu 0, hsplit]
      exact List.flatMap_append_perm _ _ _
    have hall := (visited_walkDecls cu 0).flatMap_right fun n => emitAll n.names
    rw [List.flatMap_append] at hall
    rw [hnames, ← List.append_assoc]
    exact (hseen.append_right _).trans hall
  rw [perm_iff_eq_nil hparts, List.append_eq_nil_iff, List.flatMap_eq_nil_iff,
    List.flatMap_eq_nil_iff]
  simp only [emitAll_eq_nil_iff, plainArgs, List.all_eq_true]

/-- Every declaration is checked exactly where no parallel or seq block
keeps one, no dummy argument contains `__`, and the headers of `for`
declare nothing of either kind. -/
theorem everyDeclChecked_iff (cu : CompilationUnit) :
    EveryDeclChecked cu ↔ coveredDecls cu = true := by
  have hquiet : quiet (missedDecls cu) = true ↔
      (missedDecls cu).filterMap Node.decl? = [] ∧
        ∀ n ∈ missedDecls cu, clean n.names = true := by
    simp only [quiet, List.all_eq_true, Bool.and_eq_true, List.filterMap_eq_nil_iff,
      Option.isNone_iff_eq_none]
    exact forall₂_and
  rw [coveredDecls_eq cu 0, Bool.and_eq_true, hquiet]
  constructor
  · intro h
    have hnamed := (named_iff cu).1 h.named
    exact ⟨⟨(walked_iff cu).1 h.walked, hnamed.2⟩, hnamed.1⟩
  · rintro ⟨⟨hdecls, hnames⟩, hargs⟩
    have hwalked := (walked_iff cu).2 hdecls
    exact ⟨hwalked, (named_iff cu).2 ⟨hargs, hnames⟩,
      fun lookup => hwalked.flatMap_right (checkProcArgs lookup)⟩

/-- `module m { func_self f; func f { wire a__b; } }`: a wire of a
function's block. -/
def localWireUnit : CompilationUnit :=
  [.module 0 ['m'] [.funcSelf 11 ['f'] [] []] []
    [.funcDefn 24 [['f']] (.parallel [] [.wire 33 ['a', '_', '_', 'b'] none])] []]

/-- The wire is not visited and its name is not reported. -/
theorem not_everyDeclChecked_localWireUnit :
    checkDecls localWireUnit = [] ∧ ['a', '_', '_', 'b'] ∈ emitAll (unitNames localWireUnit) ∧
      ¬ EveryDeclChecked localWireUnit := by
  have hnone : checkDecls localWireUnit = [] := by decide
  have hmem : ['a', '_', '_', 'b'] ∈ emitAll (unitNames localWireUnit) := by decide
  refine ⟨hnone, hmem, fun h => ?_⟩
  have := h.named.mem_iff.2 hmem
  rw [hnone] at this
  cases this

end Sema

end Nslc
