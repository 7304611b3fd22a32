import Nslc.AST.Syntax
/-!
# Sema — the walk of the constraint checkers

`walkStmt`, `walkDecl` and `walkUnit` of `ConstraintHelpers.h` call back
on the nodes of a unit with the lexical context they stand in. A checker
written on them sees the statements they visit and no others.
`positions` lists the statements of a unit with the constructs around
them; the walk visits all of these when no statement stands in the
header of a `for` or in a definition kept among a block's declarations.
-/

namespace Nslc

namespace Sema

open AST

/-! ## Lexical context -/

/-- The context bits, or-ed together. -/
abbrev Ctx := BitVec 32

namespace LexCtx

def inModule : Ctx := 1#32 <<< 0
def inFunc : Ctx := 1#32 <<< 1
def inProc : Ctx := 1#32 <<< 2
def inState : Ctx := 1#32 <<< 3
def inSeq : Ctx := 1#32 <<< 4
def inParallel : Ctx := 1#32 <<< 5
def inAlt : Ctx := 1#32 <<< 6
def inAny : Ctx := 1#32 <<< 7
def inIf : Ctx := 1#32 <<< 8
def inWhile : Ctx := 1#32 <<< 9
def inFor : Ctx := 1#32 <<< 10
def inInitBlock : Ctx := 1#32 <<< 11
def inGenerate : Ctx := 1#32 <<< 12
/-- Under any action block: no longer directly in the module body. -/
def inAnyAction : Ctx := 1#32 <<< 13

def has (bits b : Ctx) : Bool := bits &&& b != 0

end LexCtx

open LexCtx

/-! ## The walk -/

mutual

/-- The calls of the statement callback. -/
def walkStmt (s : Stmt) (ctx : Ctx) : List (Stmt × Ctx) :=
  (s, ctx) :: match s with
  | .seq items _ => walkStmts items (ctx ||| inAnyAction ||| inSeq)
  | .parallel items _ => walkStmts items (ctx ||| inAnyAction ||| inParallel)
  | .alt cases elseCase =>
    walkCases cases (ctx ||| inAnyAction ||| inAlt) ++
      walkStmt? elseCase (ctx ||| inAnyAction ||| inAlt)
  | .any cases elseCase =>
    walkCases cases (ctx ||| inAnyAction ||| inAny) ++
      walkStmt? elseCase (ctx ||| inAnyAction ||| inAny)
  | .if _ thenBr elseBr =>
    walkStmt thenBr (ctx ||| inAnyAction ||| inIf) ++
      walkStmt? elseBr (ctx ||| inAnyAction ||| inIf)
  | .while _ items => walkStmts items (ctx ||| inAnyAction ||| inWhile)
  | .for _ _ _ items => walkStmts items (ctx ||| inAnyAction ||| inFor)
  | .initBlock items => walkStmts items (ctx ||| inAnyAction ||| inInitBlock)
  | .labeled _ body => walkStmt? body (ctx ||| inAnyAction)
  | .generate _ _ _ _ _ body => walkStmt body (ctx ||| inAnyAction ||| inGenerate)
  | _ => []

def walkStmts (ss : List Stmt) (ctx : Ctx) : List (Stmt × Ctx) :=
  match ss with
  | [] => []
  | s :: ss => walkStmt s ctx ++ walkStmts ss ctx

def walkStmt? (s : Option Stmt) (ctx : Ctx) : List (Stmt × Ctx) :=
  match s with
  | none => []
  | some s => walkStmt s ctx

def walkCases (cs : List CondCase) (ctx : Ctx) : List (Stmt × Ctx) :=
  match cs with
  | [] => []
  | ⟨_, body⟩ :: cs => walkStmt body ctx ++ walkCases cs ctx

end

/-- A call of one of the two callbacks. -/
inductive Visit where
  | decl (d : Decl) (ctx : Ctx)
  | stmt (s : Stmt) (ctx : Ctx)

def Visit.stmt? : Visit → Option (Stmt × Ctx)
  | .stmt s ctx => some (s, ctx)
  | .decl _ _ => none

def stmtCalls (calls : List (Stmt × Ctx)) : List Visit := calls.map fun c => .stmt c.1 c.2

mutual

def walkDecl (d : Decl) (ctx : Ctx) : List Visit :=
  .decl d ctx :: match d with
  | .declare _ _ _ _ headerParams ports =>
    headerParams.map (fun p => .decl (.topLevelParam p) ctx) ++
      ports.map fun p => .decl (.port p) ctx
  | .module _ _ internals actions funcs procs =>
    walkDecls internals (ctx ||| inModule) ++ walkDecls funcs (ctx ||| inModule) ++
      walkDecls procs (ctx ||| inModule) ++ stmtCalls (walkStmts actions (ctx ||| inModule))
  | .funcDefn _ _ body => stmtCalls (walkStmt body (ctx ||| inFunc))
  | .procDefn _ _ body => stmtCalls (walkStmt body (ctx ||| inProc))
  | .stateDefn _ _ body => stmtCalls (walkStmt body (ctx ||| inProc ||| inState))
  | _ => []

def walkDecls (ds : List Decl) (ctx : Ctx) : List Visit :=
  match ds with
  | [] => []
  | d :: ds => walkDecl d ctx ++ walkDecls ds ctx

end

def walkUnit (cu : CompilationUnit) : List Visit := walkDecls cu 0

/-- The statements the walk visits, with the bits it passes. -/
def visitedStmts (cu : CompilationUnit) : List (Stmt × Ctx) := (walkUnit cu).filterMap Visit.stmt?

/-! ## All statements -/

/-- What a statement can stand in. -/
inductive Construct where
  | module
  | func
  | proc
  | state
  | seq
  | parallel
  | alt
  | any
  | if
  | while
  | for
  | initBlock
  | generate
  | label
  deriving DecidableEq, Repr

/-- The bits a construct stands for; a state belongs to a proc. -/
def Construct.bits : Construct → Ctx
  | .module => inModule
  | .func => inFunc
  | .proc => inProc
  | .state => inProc ||| inState
  | .seq => inAnyAction ||| inSeq
  | .parallel => inAnyAction ||| inParallel
  | .alt => inAnyAction ||| inAlt
  | .any => inAnyAction ||| inAny
  | .if => inAnyAction ||| inIf
  | .while => inAnyAction ||| inWhile
  | .for => inAnyAction ||| inFor
  | .initBlock => inAnyAction ||| inInitBlock
  | .generate => inAnyAction ||| inGenerate
  | .label => inAnyAction

/-- The bits of the constructs around a statement, innermost first. -/
def contextBits : List Construct → Ctx
  | [] => 0
  | c :: cs => contextBits cs ||| c.bits

mutual

/-- Every statement in `s` with the constructs it stands in, those of
`s` itself being `path`. -/
def stmtPositions (s : Stmt) (path : List Construct) : List (Stmt × List Construct) :=
  (s, path) :: match s with
  | .seq items decls => stmtsPositions items (.seq :: path) ++ declsPositions decls (.seq :: path)
  | .parallel items decls =>
    stmtsPositions items (.parallel :: path) ++ declsPositions decls (.parallel :: path)
  | .alt cases elseCase =>
    casesPositions cases (.alt :: path) ++ stmtPositions? elseCase (.alt :: path)
  | .any cases elseCase =>
    casesPositions cases (.any :: path) ++ stmtPositions? elseCase (.any :: path)
  | .if _ thenBr elseBr =>
    stmtPositions thenBr (.if :: path) ++ stmtPositions? elseBr (.if :: path)
  | .while _ items => stmtsPositions items (.while :: path)
  | .for init _ step items =>
    stmtPositions init (.for :: path) ++ stmtPositions? step (.for :: path) ++
      stmtsPositions items (.for :: path)
  | .initBlock items => stmtsPositions items (.initBlock :: path)
  | .labeled _ body => stmtPositions? body (.label :: path)
  | .generate _ _ _ _ _ body => stmtPositions body (.generate :: path)
  | _ => []

def stmtsPositions (ss : List Stmt) (path : List Construct) : List (Stmt × List Construct) :=
  match ss with
  | [] => []
  | s :: ss => stmtPositions s path ++ stmtsPositions ss path

def stmtPositions? (s : Option Stmt) (path : List Construct) : List (Stmt × List Construct) :=
  match s with
  | none => []
  | some s => stmtPositions s path

def casesPositions (cs : List CondCase) (path : List Construct) :
    List (Stmt × List Construct) :=
  match cs with
  | [] => []
  | ⟨_, body⟩ :: cs => stmtPositions body path ++ casesPositions cs path

def declPositions (d : Decl) (path : List Construct) : List (Stmt × List Construct) :=
  match d with
  | .module _ _ internals actions funcs procs =>
    declsPositions internals (.module :: path) ++ declsPositions funcs (.module :: path) ++
      declsPositions procs (.module :: path) ++ stmtsPositions actions (.module :: path)
  | .funcDefn _ _ body => stmtPositions body (.func :: path)
  | .procDefn _ _ body => stmtPositions body (.proc :: path)
  | .stateDefn _ _ body => stmtPositions body (.state :: path)
  | _ => []

def declsPositions (ds : List Decl) (path : List Construct) : List (Stmt × List Construct) :=
  match ds with
  | [] => []
  | d :: ds => declPositions d path ++ declsPositions ds path

end

/-- A position with the bits of what is around it. -/
def withBits (p : Stmt × List Construct) : Stmt × Ctx := (p.1, contextBits p.2)

/-- The statements of a unit, each with the bits of what is around it. -/
def positions (cu : CompilationUnit) : List (Stmt × Ctx) := (declsPositions cu []).map withBits

/-! ## What the walk leaves out -/

mutual

/-- Whether a declaration holds a statement. -/
def holdsStmt (d : Decl) : Bool :=
  match d with
  | .module _ _ internals actions funcs procs =>
    anyHoldsStmt internals || anyHoldsStmt funcs || anyHoldsStmt procs || !actions.isEmpty
  | .funcDefn _ _ _ | .procDefn _ _ _ | .stateDefn _ _ _ => true
  | _ => false

def anyHoldsStmt (ds : List Decl) : Bool :=
  match ds with
  | [] => false
  | d :: ds => holdsStmt d || anyHoldsStmt ds

end

mutual

/-- No statement of `s` is out of the walk's reach: there is no `for`,
whose header holds one, and no block keeps a definition among its
declarations. -/
def reached (s : Stmt) : Bool :=
  match s with
  | .seq items decls | .parallel items decls => reachedAll items && !anyHoldsStmt decls
  | .alt cases elseCase | .any cases elseCase => reachedCases cases && reached? elseCase
  | .if _ thenBr elseBr => reached thenBr && reached? elseBr
  | .while _ items | .initBlock items => reachedAll items
  | .for _ _ _ _ => false
  | .labeled _ body => reached? body
  | .generate _ _ _ _ _ body => reached body
  | _ => true

def reachedAll (ss : List Stmt) : Bool :=
  match ss with
  | [] => true
  | s :: ss => reached s && reachedAll ss

def reached? (s : Option Stmt) : Bool :=
  match s with
  | none => true
  | some s => reached s

def reachedCases (cs : List CondCase) : Bool :=
  match cs with
  | [] => true
  | ⟨_, body⟩ :: cs => reached body && reachedCases cs

end

mutual

def declReached (d : Decl) : Bool :=
  match d with
  | .module _ _ internals actions funcs procs =>
    declsReached internals && declsReached funcs && declsReached procs && reachedAll actions
  | .funcDefn _ _ body | .procDefn _ _ body | .stateDefn _ _ body => reached body
  | _ => true

def declsReached (ds : List Decl) : Bool :=
  match ds with
  | [] => true
  | d :: ds => declReached d && declsReached ds

end

theorem contextBits_action (path : List Construct) (b : Ctx) :
    contextBits path ||| inAnyAction ||| b = contextBits path ||| (inAnyAction ||| b) :=
  BitVec.or_assoc _ _ _

/-! ### The walk visits positions only, in their order -/

mutual

theorem walkStmt_sublist (s : Stmt) (path : List Construct) :
    (walkStmt s (contextBits path)).Sublist ((stmtPositions s path).map withBits) := by
  cases s with
  | seq items decls =>
    simp only [walkStmt, stmtPositions, List.map_cons, List.map_append, contextBits_action]
    exact .cons_cons _ ((walkStmts_sublist items (.seq :: path)).trans
      (List.sublist_append_left _ _))
  | parallel items decls =>
    simp only [walkStmt, stmtPositions, List.map_cons, List.map_append, contextBits_action]
    exact .cons_cons _ ((walkStmts_sublist items (.parallel :: path)).trans
      (List.sublist_append_left _ _))
  | alt cases elseCase =>
    simp only [walkStmt, stmtPositions, List.map_cons, List.map_append, contextBits_action]
    exact .cons_cons _ ((walkCases_sublist cases (.alt :: path)).append
      (walkStmt?_sublist elseCase (.alt :: path)))
  | any cases elseCase =>
    simp only [walkStmt, stmtPositions, List.map_cons, List.map_append, contextBits_action]
    exact .cons_cons _ ((walkCases_sublist cases (.any :: path)).append
      (walkStmt?_sublist elseCase (.any :: path)))
  | «if» cond thenBr elseBr =>
    simp only [walkStmt, stmtPositions, List.map_cons, List.map_append, contextBits_action]
    exact .cons_cons _ ((walkStmt_sublist thenBr (.if :: path)).append
      (walkStmt?_sublist elseBr (.if :: path)))
  | «while» cond items =>
    simp only [walkStmt, stmtPositions, List.map_cons, contextBits_action]
    exact .cons_cons _ (walkStmts_sublist items (.while :: path))
  | «for» init cond step items =>
    simp only [walkStmt, stmtPositions, List.map_cons, List.map_append, contextBits_action]
    exact .cons_cons _ ((walkStmts_sublist items (.for :: path)).trans
      (List.sublist_append_right _ _))
  | initBlock items =>
    simp only [walkStmt, stmtPositions, List.map_cons, contextBits_action]
    exact .cons_cons _ (walkStmts_sublist items (.initBlock :: path))
  | labeled label body =>
    simp only [walkStmt, stmtPositions, List.map_cons]
    exact .cons_cons _ (walkStmt?_sublist body (.label :: path))
  | generate loc init initValue cond step body =>
    simp only [walkStmt, stmtPositions, List.map_cons, contextBits_action]
    exact .cons_cons _ (walkStmt_sublist body (.generate :: path))
  | _ => exact List.Sublist.refl _

theorem walkStmts_sublist (ss : List Stmt) (path : List Construct) :
    (walkStmts ss (contextBits path)).Sublist ((stmtsPositions ss path).map withBits) := by
  cases ss with
  | nil => exact List.Sublist.refl _
  | cons s ss =>
    simp only [walkStmts, stmtsPositions, List.map_append]
    exact (walkStmt_sublist s path).append (walkStmts_sublist ss path)

theorem walkStmt?_sublist (s : Option Stmt) (path : List Construct) :
    (walkStmt? s (contextBits path)).Sublist ((stmtPositions? s path).map withBits) := by
  cases s with
  | none => exact List.Sublist.refl _
  | some s => exact walkStmt_sublist s path

theorem walkCases_sublist (cs : List CondCase) (path : List Construct) :
    (walkCases cs (contextBits path)).Sublist ((casesPositions cs path).map withBits) := by
  cases cs with
  | nil => exact List.Sublist.refl _
  | cons c cs =>
    obtain ⟨cond, body⟩ := c
    simp only [walkCases, casesPositions, List.map_append]
    exact (walkStmt_sublist body path).append (walkCases_sublist cs path)

end

/-! ### Where it visits all of them -/

theorem length_stmtPositions_pos (s : Stmt) (path : List Construct) :
    0 < (stmtPositions s path).length := by
  cases s <;> simp [stmtPositions]

theorem length_stmtsPositions_eq_zero {ss : List Stmt} {path : List Construct} :
    (stmtsPositions ss path).length = 0 ↔ ss.isEmpty = true := by
  cases ss with
  | nil => exact ⟨fun _ => rfl, fun _ => rfl⟩
  | cons s ss =>
    have := length_stmtPositions_pos s path
    simp only [stmtsPositions, List.length_append, List.isEmpty_cons, Bool.false_eq_true,
      iff_false]
    omega

mutual

theorem length_declPositions_eq_zero (d : Decl) (path : List Construct) :
    (declPositions d path).length = 0 ↔ holdsStmt d = false := by
  cases d with
  | module loc name internals actions funcs procs =>
    have h₁ := length_declsPositions_eq_zero internals (.module :: path)
    have h₂ := length_declsPositions_eq_zero funcs (.module :: path)
    have h₃ := length_declsPositions_eq_zero procs (.module :: path)
    simp only [declPositions, holdsStmt, List.length_append, Nat.add_eq_zero_iff, h₁, h₂, h₃,
      length_stmtsPositions_eq_zero, Bool.or_eq_false_iff, Bool.not_eq_false']
  | funcDefn loc name body =>
    have := length_stmtPositions_pos body (.func :: path)
    simp only [declPositions, holdsStmt, Bool.true_eq_false, iff_false]
    omega
  | procDefn loc name body =>
    have := length_stmtPositions_pos body (.proc :: path)
    simp only [declPositions, holdsStmt, Bool.true_eq_false, iff_false]
    omega
  | stateDefn loc name body =>
    have := length_stmtPositions_pos body (.state :: path)
    simp only [declPositions, holdsStmt, Bool.true_eq_false, iff_false]
    omega
  | _ => simp [declPositions, holdsStmt]

theorem length_declsPositions_eq_zero (ds : List Decl) (path : List Construct) :
    (declsPositions ds path).length = 0 ↔ anyHoldsStmt ds = false := by
  cases ds with
  | nil => simp [declsPositions, anyHoldsStmt]
  | cons d ds =>
    have h₁ := length_declPositions_eq_zero d path
    have h₂ := length_declsPositions_eq_zero ds path
    simp only [declsPositions, anyHoldsStmt, List.length_append, Nat.add_eq_zero_iff, h₁, h₂,
      Bool.or_eq_false_iff]

end

mutual

theorem length_walkStmt_eq_iff (s : Stmt) (path : List Construct) (ctx : Ctx) :
    (walkStmt s ctx).length ≤ (stmtPositions s path).length ∧
      ((walkStmt s ctx).length = (stmtPositions s path).length ↔ reached s = true) := by
  cases s with
  | seq items decls =>
    obtain ⟨hle, hiff⟩ := length_walkStmts_eq_iff items (.seq :: path)
      (ctx ||| inAnyAction ||| inSeq)
    have hdecls := length_declsPositions_eq_zero decls (.seq :: path)
    simp only [walkStmt, stmtPositions, reached, List.length_cons, List.length_append,
      Bool.and_eq_true, Bool.not_eq_true', ← hiff, ← hdecls]
    omega
  | parallel items decls =>
    obtain ⟨hle, hiff⟩ := length_walkStmts_eq_iff items (.parallel :: path)
      (ctx ||| inAnyAction ||| inParallel)
    have hdecls := length_declsPositions_eq_zero decls (.parallel :: path)
    simp only [walkStmt, stmtPositions, reached, List.length_cons, List.length_append,
      Bool.and_eq_true, Bool.not_eq_true', ← hiff, ← hdecls]
    omega
  | alt cases elseCase =>
    obtain ⟨hle, hiff⟩ := length_walkCases_eq_iff cases (.alt :: path)
      (ctx ||| inAnyAction ||| inAlt)
    obtain ⟨hle', hiff'⟩ := length_walkStmt?_eq_iff elseCase (.alt :: path)
      (ctx ||| inAnyAction ||| inAlt)
    simp only [walkStmt, stmtPositions, reached, List.length_cons, List.length_append,
      Bool.and_eq_true, ← hiff, ← hiff']
    omega
  | any cases elseCase =>
    obtain ⟨hle, hiff⟩ := length_walkCases_eq_iff cases (.any :: path)
      (ctx ||| inAnyAction ||| inAny)
    obtain ⟨hle', hiff'⟩ := length_walkStmt?_eq_iff elseCase (.any :: path)
      (ctx ||| inAnyAction ||| inAny)
    simp only [walkStmt, stmtPositions, reached, List.length_cons, List.length_append,
      Bool.and_eq_true, ← hiff, ← hiff']
    omega
  | «if» cond thenBr elseBr =>
    obtain ⟨hle, hiff⟩ := length_walkStmt_eq_iff thenBr (.if :: path) (ctx ||| inAnyAction ||| inIf)
    obtain ⟨hle', hiff'⟩ := length_walkStmt?_eq_iff elseBr (.if :: path)
      (ctx ||| inAnyAction ||| inIf)
    simp only [walkStmt, stmtPositions, reached, List.length_cons, List.length_append,
      Bool.and_eq_true, ← hiff, ← hiff']
    omega
  | «while» cond items =>
    obtain ⟨hle, hiff⟩ := length_walkStmts_eq_iff items (.while :: path)
      (ctx ||| inAnyAction ||| inWhile)
    simp only [walkStmt, stmtPositions, reached, List.length_cons, ← hiff]
    omega
  | «for» init cond step items =>
    -- the header's first statement is not visited
    have hinit := length_stmtPositions_pos init (.for :: path)
    obtain ⟨hle, -⟩ := length_walkStmts_eq_iff items (.for :: path) (ctx ||| inAnyAction ||| inFor)
    simp only [walkStmt, stmtPositions, reached, List.length_cons, List.length_append,
      Bool.false_eq_true, iff_false]
    omega
  | initBlock items =>
    obtain ⟨hle, hiff⟩ := length_walkStmts_eq_iff items (.initBlock :: path)
      (ctx ||| inAnyAction ||| inInitBlock)
    simp only [walkStmt, stmtPositions, reached, List.length_cons, ← hiff]
    omega
  | labeled label body =>
    obtain ⟨hle, hiff⟩ := length_walkStmt?_eq_iff body (.label :: path) (ctx ||| inAnyAction)
    simp only [walkStmt, stmtPositions, reached, List.length_cons, ← hiff]
    omega
  | generate loc init initValue cond step body =>
    obtain ⟨hle, hiff⟩ := length_walkStmt_eq_iff body (.generate :: path)
      (ctx ||| inAnyAction ||| inGenerate)
    simp only [walkStmt, stmtPositions, reached, List.length_cons, ← hiff]
    omega
  | _ => simp [walkStmt, stmtPositions, reached]

theorem length_walkStmts_eq_iff (ss : List Stmt) (path : List Construct) (ctx : Ctx) :
    (walkStmts ss ctx).length ≤ (stmtsPositions ss path).length ∧
      ((walkStmts ss ctx).length = (stmtsPositions ss path).length ↔ reachedAll ss = true) := by
  cases ss with
  | nil => simp [walkStmts, stmtsPositions, reachedAll]
  | cons s ss =>
    obtain ⟨hle, hiff⟩ := length_walkStmt_eq_iff s path ctx
    obtain ⟨hle', hiff'⟩ := length_walkStmts_eq_iff ss path ctx
    simp only [walkStmts, stmtsPositions, reachedAll, List.length_append, Bool.and_eq_true,
      ← hiff, ← hiff']
    omega

theorem length_walkStmt?_eq_iff (s : Option Stmt) (path : List Construct) (ctx : Ctx) :
    (walkStmt? s ctx).length ≤ (stmtPositions? s path).length ∧
      ((walkStmt? s ctx).length = (stmtPositions? s path).length ↔ reached? s = true) := by
  cases s with
  | none => simp [walkStmt?, stmtPositions?, reached?]
  | some s =>
    simp only [walkStmt?, stmtPositions?, reached?]
    exact length_walkStmt_eq_iff s path ctx

theorem length_walkCases_eq_iff (cs : List CondCase) (path : List Construct) (ctx : Ctx) :
    (walkCases cs ctx).length ≤ (casesPositions cs path).length ∧
      ((walkCases cs ctx).length = (casesPositions cs path).length ↔ reachedCases cs = true) := by
  cases cs with
  | nil => simp [walkCases, casesPositions, reachedCases]
  | cons c cs =>
    obtain ⟨cond, body⟩ := c
    obtain ⟨hle, hiff⟩ := length_walkStmt_eq_iff body path ctx
    obtain ⟨hle', hiff'⟩ := length_walkCases_eq_iff cs path ctx
    simp only [walkCases, casesPositions, reachedCases, List.length_append, Bool.and_eq_true,
      ← hiff, ← hiff']
    omega

end

/-! ## Units -/

theorem filterMap_declCalls {α : Type} (f : α → Decl) (ctx : Ctx) (ps : List α) :
    (ps.map fun p => Visit.decl (f p) ctx).filterMap Visit.stmt? = [] := by
  simp [List.filterMap_map, Function.comp_def, Visit.stmt?]

@[simp] theorem filterMap_stmtCalls (calls : List (Stmt × Ctx)) :
    (stmtCalls calls).filterMap Visit.stmt? = calls := by
  simp [stmtCalls, List.filterMap_map, Function.comp_def, Visit.stmt?]

mutual

theorem walkDecl_sublist (d : Decl) (path : List Construct) :
    ((walkDecl d (contextBits path)).filterMap Visit.stmt?).Sublist
      ((declPositions d path).map withBits) := by
  cases d with
  | module loc name internals actions funcs procs =>
    simp only [walkDecl, declPositions, List.filterMap_cons, Visit.stmt?, List.filterMap_append,
      filterMap_stmtCalls, List.map_append]
    exact (((walkDecls_sublist internals (.module :: path)).append
      (walkDecls_sublist funcs (.module :: path))).append
      (walkDecls_sublist procs (.module :: path))).append (walkStmts_sublist actions (.module :: path))
  | funcDefn loc name body =>
    simp only [walkDecl, declPositions, List.filterMap_cons, Visit.stmt?, filterMap_stmtCalls]
    exact walkStmt_sublist body (.func :: path)
  | procDefn loc name body =>
    simp only [walkDecl, declPositions, List.filterMap_cons, Visit.stmt?, filterMap_stmtCalls]
    exact walkStmt_sublist body (.proc :: path)
  | stateDefn loc name body =>
    simp only [walkDecl, declPositions, List.filterMap_cons, Visit.stmt?, filterMap_stmtCalls]
    rw [BitVec.or_assoc]
    exact walkStmt_sublist body (.state :: path)
  | declare name modifier clockName resetName headerParams ports =>
    simp only [walkDecl, declPositions, List.filterMap_cons, Visit.stmt?, List.filterMap_append,
      filterMap_declCalls]
    exact List.Sublist.refl _
  | _ => exact List.Sublist.refl _

theorem walkDecls_sublist (ds : List Decl) (path : List Construct) :
    ((walkDecls ds (contextBits path)).filterMap Visit.stmt?).Sublist
      ((declsPositions ds path).map withBits) := by
  cases ds with
  | nil => exact List.Sublist.refl _
  | cons d ds =>
    simp only [walkDecls, declsPositions, List.filterMap_append, List.map_append]
    exact (walkDecl_sublist d path).append (walkDecls_sublist ds path)

end

mutual

theorem length_walkDecl_eq_iff (d : Decl) (path : List Construct) (ctx : Ctx) :
    ((walkDecl d ctx).filterMap Visit.stmt?).length ≤ (declPositions d path).length ∧
      (((walkDecl d ctx).filterMap Visit.stmt?).length = (declPositions d path).length ↔
        declReached d = true) := by
  cases d with
  | module loc name internals actions funcs procs =>
    obtain ⟨hle₁, hiff₁⟩ := length_walkDecls_eq_iff internals (.module :: path) (ctx ||| inModule)
    obtain ⟨hle₂, hiff₂⟩ := length_walkDecls_eq_iff funcs (.module :: path) (ctx ||| inModule)
    obtain ⟨hle₃, hiff₃⟩ := length_walkDecls_eq_iff procs (.module :: path) (ctx ||| inModule)
    obtain ⟨hle₄, hiff₄⟩ := length_walkStmts_eq_iff actions (.module :: path) (ctx ||| inModule)
    simp only [walkDecl, declPositions, declReached, List.filterMap_cons, Visit.stmt?,
      List.filterMap_append, filterMap_stmtCalls, List.length_append, Bool.and_eq_true, ← hiff₁,
      ← hiff₂, ← hiff₃, ← hiff₄]
    omega
  | funcDefn loc name body =>
    simp only [walkDecl, declPositions, declReached, List.filterMap_cons, Visit.stmt?,
      filterMap_stmtCalls]
    exact length_walkStmt_eq_iff body (.func :: path) _
  | procDefn loc name body =>
    simp only [walkDecl, declPositions, declReached, List.filterMap_cons, Visit.stmt?,
      filterMap_stmtCalls]
    exact length_walkStmt_eq_iff body (.proc :: path) _
  | stateDefn loc name body =>
    simp only [walkDecl, declPositions, declReached, List.filterMap_cons, Visit.stmt?,
      filterMap_stmtCalls]
    exact length_walkStmt_eq_iff body (.state :: path) _
  | declare name modifier clockName resetName headerParams ports =>
    simp only [walkDecl, declPositions, declReached, List.filterMap_cons, Visit.stmt?,
      List.filterMap_append, filterMap_declCalls]
    simp
  | _ => simp [walkDecl, declPositions, declReached, Visit.stmt?]

theorem length_walkDecls_eq_iff (ds : List Decl) (path : List Construct) (ctx : Ctx) :
    ((walkDecls ds ctx).filterMap Visit.stmt?).length ≤ (declsPositions ds path).length ∧
      (((walkDecls ds ctx).filterMap Visit.stmt?).length = (declsPositions ds path).length ↔
        declsReached ds = true) := by
  cases ds with
  | nil => simp [walkDecls, declsPositions, declsReached]
  | cons d ds =>
    obtain ⟨hle, hiff⟩ := length_walkDecl_eq_iff d path ctx
    obtain ⟨hle', hiff'⟩ := length_walkDecls_eq_iff ds path ctx
    simp only [walkDecls, declsPositions, declsReached, List.filterMap_append, List.length_append,
      Bool.and_eq_true, ← hiff, ← hiff']
    omega

end

/-- **Every statement is checked**: the walk calls back once for each
statement of the unit, with the bits of the constructs around it. -/
def EveryStmtChecked (cu : CompilationUnit) : Prop := (visitedStmts cu).Perm (positions cu)

/-- What a checker on the walk reports. -/
def reportsOf {δ : Type} (check : Stmt → Ctx → List δ) (cu : CompilationUnit) : List δ :=
  (visitedStmts cu).flatMap fun v => check v.1 v.2

/-- Every statement is checked exactly where the unit has no `for` and
no definition among a block's declarations, and there a checker reports
at every position what it reports of the statement there. -/
theorem everyStmtChecked_iff (cu : CompilationUnit) :
    (EveryStmtChecked cu ↔ declsReached cu = true) ∧
      (declsReached cu = true → ∀ {δ : Type} (check : Stmt → Ctx → List δ),
        ∀ p ∈ positions cu, ∀ d ∈ check p.1 p.2, d ∈ reportsOf check cu) := by
  have hsub : (visitedStmts cu).Sublist (positions cu) := walkDecls_sublist cu []
  obtain ⟨-, hiff⟩ := length_walkDecls_eq_iff cu [] 0
  have hlen : (visitedStmts cu).length = (positions cu).length ↔ declsReached cu = true := by
    rw [positions, List.length_map]
    exact hiff
  have heq : declsReached cu = true → visitedStmts cu = positions cu :=
    fun h => hsub.eq_of_length (hlen.2 h)
  refine ⟨⟨fun h => hlen.1 h.length_eq, fun h => ?_⟩, fun h δ check p hp d hd => ?_⟩
  · rw [EveryStmtChecked, heq h]
  · rw [reportsOf, heq h]
    exact List.mem_flatMap.2 ⟨p, hp, hd⟩

/-- `module m { reg r; proc_name p; proc p { state_name s; state s { r = 1; } } }`: the body of a
state. -/
def stateBodyUnit : CompilationUnit :=
  [.module 0 ['m'] [.reg 11 ['r'] none none, .procName 18 ['p'] []] [] []
    [.procDefn 31 ['p'] (.parallel []
      [.stateName 40 [['s']], .stateDefn 54 ['s'] (.parallel
        [.transfer 64 .wireEq (.identifier 64 [['r']]) (.literal .decimal ['1'])] [])])]]

/-- The two statements of the state are not visited. -/
theorem not_everyStmtChecked_stateBodyUnit : ¬ EveryStmtChecked stateBodyUnit := by
  intro h
  have hlen : (visitedStmts stateBodyUnit).length = (positions stateBodyUnit).length :=
    h.length_eq
  exact absurd hlen (by decide)

end Sema

end Nslc
