import Nslc.AST.Syntax
/-!
# Sema — the targets of gotos

The S25 checker knows two kinds of target: a label inside a seq block, a
state name inside a state body. It collects the names with one recursion
and looks for gotos with three others, each of which follows some of the
statements and stops at the rest. Here a goto is told apart by its number
in the unit, the declarations of a block counted before its items.
-/

namespace Nslc

namespace Sema

open AST

-- the tests for a name in a list share one proof
local instance : LawfulBEq Ident := List.instLawfulBEq

/-! ## Gotos in order -/

mutual

/-- The targets of the gotos in a statement. -/
def stmtGotos (s : Stmt) : List Ident :=
  match s with
  | .goto target => [target]
  | .labeled _ body => stmtGotos? body
  | .initBlock items => stmtsGotos items
  | .parallel items decls | .seq items decls => declsGotos decls ++ stmtsGotos items
  | .alt cases elseCase | .any cases elseCase => casesGotos cases ++ stmtGotos? elseCase
  | .while _ items => stmtsGotos items
  | .for init _ step items => stmtGotos init ++ (stmtGotos? step ++ stmtsGotos items)
  | .if _ thenBr elseBr => stmtGotos thenBr ++ stmtGotos? elseBr
  | .generate _ _ _ _ _ body => stmtGotos body
  | _ => []

def stmtsGotos (ss : List Stmt) : List Ident :=
  match ss with
  | [] => []
  | s :: ss => stmtGotos s ++ stmtsGotos ss

def stmtGotos? (s : Option Stmt) : List Ident :=
  match s with
  | none => []
  | some s => stmtGotos s

def casesGotos (cs : List CondCase) : List Ident :=
  match cs with
  | [] => []
  | ⟨_, body⟩ :: cs => stmtGotos body ++ casesGotos cs

def declGotos (d : Decl) : List Ident :=
  match d with
  | .module _ _ internals actions funcs procs =>
    declsGotos internals ++ (stmtsGotos actions ++ (declsGotos funcs ++ declsGotos procs))
  | .funcDefn _ _ body | .procDefn _ _ body | .stateDefn _ _ body => stmtGotos body
  | _ => []

def declsGotos (ds : List Decl) : List Ident :=
  match ds with
  | [] => []
  | d :: ds => declGotos d ++ declsGotos ds

end

/-! ## The checker -/

inductive GotoMessage where
  /-- 'goto' inside a 'state' body must target a 'state_name' declared in
  scope (S25) -/
  | notAState
  /-- 'goto' inside a 'seq' block must target a label declared in the same
  block (S25) -/
  | notALabel
  deriving DecidableEq, Repr

structure GotoReport where
  /-- The number of the goto. -/
  number : ℕ
  message : GotoMessage
  deriving DecidableEq, Repr

def stateNames (ds : List Decl) : List Ident :=
  ds.flatMap fun d =>
    match d with
    | .stateName _ names => names
    | _ => []

def collectStateNames : Stmt → List Ident
  | .parallel _ decls => stateNames decls
  | _ => []

mutual

def collectLabels (s : Stmt) : List Ident :=
  match s with
  | .labeled label body => label :: collectLabels? body
  | .seq items _ => collectAllLabels items
  | _ => []

def collectAllLabels (ss : List Stmt) : List Ident :=
  match ss with
  | [] => []
  | s :: ss => collectLabels s ++ collectAllLabels ss

def collectLabels? (s : Option Stmt) : List Ident :=
  match s with
  | none => []
  | some s => collectLabels s

end

mutual

/-- `walkStateBody`; `k` gotos stand before the statement. -/
def walkStateBody (names : List Ident) (k : ℕ) (s : Stmt) : List GotoReport :=
  match s with
  | .goto target => if target ∈ names then [] else [⟨k, .notAState⟩]
  | .parallel items decls => walkStateItems names (k + (declsGotos decls).length) items
  | .alt cases elseCase | .any cases elseCase =>
    walkStateCases names k cases ++ walkStateBody? names (k + (casesGotos cases).length) elseCase
  | .if _ thenBr elseBr =>
    walkStateBody names k thenBr ++ walkStateBody? names (k + (stmtGotos thenBr).length) elseBr
  | _ => []

def walkStateItems (names : List Ident) (k : ℕ) (ss : List Stmt) : List GotoReport :=
  match ss with
  | [] => []
  | s :: ss => walkStateBody names k s ++ walkStateItems names (k + (stmtGotos s).length) ss

def walkStateBody? (names : List Ident) (k : ℕ) (s : Option Stmt) : List GotoReport :=
  match s with
  | none => []
  | some s => walkStateBody names k s

def walkStateCases (names : List Ident) (k : ℕ) (cs : List CondCase) : List GotoReport :=
  match cs with
  | [] => []
  | ⟨_, body⟩ :: cs => walkStateBody names k body ++ walkStateCases names (k + (stmtGotos body).length) cs

end

mutual

/-- `walkSeqBody`. -/
def walkSeqBody (labels : List Ident) (k : ℕ) (s : Stmt) : List GotoReport :=
  match s with
  | .goto target => if target ∈ labels then [] else [⟨k, .notALabel⟩]
  | .labeled _ body => walkSeqBody? labels k body
  | .seq items decls => walkSeqItems labels (k + (declsGotos decls).length) items
  | .while _ items => walkSeqItems labels k items
  | .for init _ step items =>
    walkSeqItems labels (k + (stmtGotos init).length + (stmtGotos? step).length) items
  | .if _ thenBr elseBr =>
    walkSeqBody labels k thenBr ++ walkSeqBody? labels (k + (stmtGotos thenBr).length) elseBr
  | _ => []

def walkSeqItems (labels : List Ident) (k : ℕ) (ss : List Stmt) : List GotoReport :=
  match ss with
  | [] => []
  | s :: ss => walkSeqBody labels k s ++ walkSeqItems labels (k + (stmtGotos s).length) ss

def walkSeqBody? (labels : List Ident) (k : ℕ) (s : Option Stmt) : List GotoReport :=
  match s with
  | none => []
  | some s => walkSeqBody labels k s

end

/-- The state bodies among the declarations of a block in a proc. -/
def walkStateDefn (names : List Ident) (k : ℕ) : Decl → List GotoReport
  | .stateDefn _ _ body => walkStateBody names k body
  | _ => []

def walkStateDefns (names : List Ident) (k : ℕ) (ds : List Decl) : List GotoReport :=
  match ds with
  | [] => []
  | d :: ds => walkStateDefn names k d ++ walkStateDefns names (k + (declGotos d).length) ds

mutual

def dispatch (names : List Ident) (k : ℕ) (s : Stmt) : List GotoReport :=
  match s with
  | .seq items decls => walkSeqBody (collectLabels (.seq items decls)) k (.seq items decls)
  | .parallel items decls =>
    walkStateDefns names k decls ++ dispatchItems names (k + (declsGotos decls).length) items
  | .alt cases elseCase | .any cases elseCase =>
    dispatchCases names k cases ++ dispatch? names (k + (casesGotos cases).length) elseCase
  | .if _ thenBr elseBr =>
    dispatch names k thenBr ++ dispatch? names (k + (stmtGotos thenBr).length) elseBr
  | _ => []

def dispatchItems (names : List Ident) (k : ℕ) (ss : List Stmt) : List GotoReport :=
  match ss with
  | [] => []
  | s :: ss => dispatch names k s ++ dispatchItems names (k + (stmtGotos s).length) ss

def dispatch? (names : List Ident) (k : ℕ) (s : Option Stmt) : List GotoReport :=
  match s with
  | none => []
  | some s => dispatch names k s

def dispatchCases (names : List Ident) (k : ℕ) (cs : List CondCase) : List GotoReport :=
  match cs with
  | [] => []
  | ⟨_, body⟩ :: cs => dispatch names k body ++ dispatchCases names (k + (stmtGotos body).length) cs

end

/-- One of the procs of a module. -/
def checkProc (k : ℕ) : Decl → List GotoReport
  | .procDefn _ _ body => dispatch (collectStateNames body) k body
  | _ => []

def checkProcs (k : ℕ) (ds : List Decl) : List GotoReport :=
  match ds with
  | [] => []
  | d :: ds => checkProc k d ++ checkProcs (k + (declGotos d).length) ds

/-- One item of the unit. -/
def checkItem (k : ℕ) : Decl → List GotoReport
  | .module _ _ internals actions funcs procs =>
    checkProcs (k + (declsGotos internals).length + (stmtsGotos actions).length +
      (declsGotos funcs).length) procs
  | _ => []

/-- `S25Visitor::run`. -/
def runS25 (k : ℕ) (ds : List Decl) : List GotoReport :=
  match ds with
  | [] => []
  | d :: ds => checkItem k d ++ runS25 (k + (declGotos d).length) ds

/-! ## Labels and states in scope -/

mutual

/-- The labels of a seq block in one of its statements: those in a seq
block inside it are not its own. -/
def ownLabels (s : Stmt) : List Ident :=
  match s with
  | .labeled label body => label :: ownLabels? body
  | .initBlock items | .parallel items _ | .while _ items | .for _ _ _ items => ownLabelsAll items
  | .alt cases elseCase | .any cases elseCase => ownLabelsCases cases ++ ownLabels? elseCase
  | .if _ thenBr elseBr => ownLabels thenBr ++ ownLabels? elseBr
  | .generate _ _ _ _ _ body => ownLabels body
  | _ => []

def ownLabelsAll (ss : List Stmt) : List Ident :=
  match ss with
  | [] => []
  | s :: ss => ownLabels s ++ ownLabelsAll ss

def ownLabels? (s : Option Stmt) : List Ident :=
  match s with
  | none => []
  | some s => ownLabels s

def ownLabelsCases (cs : List CondCase) : List Ident :=
  match cs with
  | [] => []
  | ⟨_, body⟩ :: cs => ownLabels body ++ ownLabelsCases cs

end

mutual

/-- The state names declared in the blocks of a proc. -/
def procStates (s : Stmt) : List Ident :=
  match s with
  | .labeled _ body => procStates? body
  | .initBlock items | .while _ items | .for _ _ _ items => procStatesAll items
  | .parallel items decls | .seq items decls =>
    stateNames decls ++ declsStates decls ++ procStatesAll items
  | .alt cases elseCase | .any cases elseCase => procStatesCases cases ++ procStates? elseCase
  | .if _ thenBr elseBr => procStates thenBr ++ procStates? elseBr
  | .generate _ _ _ _ _ body => procStates body
  | _ => []

def procStatesAll (ss : List Stmt) : List Ident :=
  match ss with
  | [] => []
  | s :: ss => procStates s ++ procStatesAll ss

def procStates? (s : Option Stmt) : List Ident :=
  match s with
  | none => []
  | some s => procStates s

def procStatesCases (cs : List CondCase) : List Ident :=
  match cs with
  | [] => []
  | ⟨_, body⟩ :: cs => procStates body ++ procStatesCases cs

/-- Those in the state bodies among some declarations. -/
def declsStates (ds : List Decl) : List Ident :=
  match ds with
  | [] => []
  | .stateDefn _ _ body :: ds => procStates body ++ declsStates ds
  | _ :: ds => declsStates ds

end

/-- What stands around a statement. -/
structure Around where
  /-- The labels of the innermost seq block. -/
  labels : List Ident
  /-- No state body lies between. -/
  inSeq : Bool
  /-- The state names of the proc, or of the module around a state body
  outside the procs. -/
  states : List Ident
  deriving DecidableEq, Repr

/-- Outside of blocks and procs. -/
def Around.outside : Around := ⟨[], false, []⟩

/-- Where the checker is when it comes to a statement, with the names it
has collected. -/
inductive Reach where
  /-- It does not come there. -/
  | none
  | unit
  | procs
  | proc (names : List Ident)
  | state (names : List Ident)
  | seq (labels : List Ident)
  deriving DecidableEq, Repr

namespace Reach

/-- Into the items of a parallel block and the cases of `alt` and `any`. -/
def branches : Reach → Reach
  | .proc names => .proc names
  | .state names => .state names
  | _ => .none

/-- Into an `if`. -/
def ifs : Reach → Reach
  | .proc names => .proc names
  | .state names => .state names
  | .seq labels => .seq labels
  | _ => .none

/-- Into a labeled statement or a loop. -/
def loops : Reach → Reach
  | .seq labels => .seq labels
  | _ => .none

/-- Into a seq block. -/
def seqBlock (s : Stmt) : Reach → Reach
  | .proc _ => .seq (collectLabels s)
  | .seq labels => .seq labels
  | _ => .none

/-- Into the state bodies of a parallel block. -/
def stateDefns : Reach → Reach
  | .proc names => .state names
  | _ => .none

@[simp] theorem branches_seq (labels : List Ident) : (seq labels).branches = .none := rfl

@[simp] theorem loops_state (names : List Ident) : (state names).loops = .none := rfl

@[simp] theorem loops_proc (names : List Ident) : (proc names).loops = .none := rfl

@[simp] theorem seqBlock_state (s : Stmt) (names : List Ident) :
    (state names).seqBlock s = .none := rfl

@[simp] theorem stateDefns_state (names : List Ident) : (state names).stateDefns = .none := rfl

@[simp] theorem stateDefns_seq (labels : List Ident) : (seq labels).stateDefns = .none := rfl

def moduleProcs : Reach → Reach
  | .unit => .procs
  | _ => .none

def procBody (body : Stmt) : Reach → Reach
  | .procs => .proc (collectStateNames body)
  | _ => .none

end Reach

structure GotoSite where
  target : Ident
  around : Around
  reach : Reach
  deriving DecidableEq, Repr

mutual

/-- The gotos of a statement with what stands around each. -/
def stmtSites (c : Around) (r : Reach) (s : Stmt) : List GotoSite :=
  match s with
  | .goto target => [⟨target, c, r⟩]
  | .labeled _ body => stmtSites? c r.loops body
  | .initBlock items => stmtsSites c .none items
  | .parallel items decls => declsSites c r.stateDefns decls ++ stmtsSites c r.branches items
  | .seq items decls =>
    declsSites ⟨ownLabelsAll items, true, c.states⟩ .none decls ++
      stmtsSites ⟨ownLabelsAll items, true, c.states⟩ (r.seqBlock (.seq items decls)) items
  | .alt cases elseCase | .any cases elseCase =>
    casesSites c r.branches cases ++ stmtSites? c r.branches elseCase
  | .while _ items => stmtsSites c r.loops items
  | .for init _ step items =>
    stmtSites c .none init ++ (stmtSites? c .none step ++ stmtsSites c r.loops items)
  | .if _ thenBr elseBr => stmtSites c r.ifs thenBr ++ stmtSites? c r.ifs elseBr
  | .generate _ _ _ _ _ body => stmtSites c .none body
  | _ => []

def stmtsSites (c : Around) (r : Reach) (ss : List Stmt) : List GotoSite :=
  match ss with
  | [] => []
  | s :: ss => stmtSites c r s ++ stmtsSites c r ss

def stmtSites? (c : Around) (r : Reach) (s : Option Stmt) : List GotoSite :=
  match s with
  | none => []
  | some s => stmtSites c r s

def casesSites (c : Around) (r : Reach) (cs : List CondCase) : List GotoSite :=
  match cs with
  | [] => []
  | ⟨_, body⟩ :: cs => stmtSites c r body ++ casesSites c r cs

def declSites (c : Around) (r : Reach) (d : Decl) : List GotoSite :=
  match d with
  | .module _ _ internals actions funcs procs =>
    declsSites .outside .none internals ++ (stmtsSites .outside .none actions ++
      (declsSites .outside .none funcs ++
        declsSites ⟨[], false, stateNames internals⟩ r.moduleProcs procs))
  | .funcDefn _ _ body => stmtSites .outside .none body
  | .procDefn _ _ body => stmtSites ⟨[], false, procStates body⟩ (r.procBody body) body
  | .stateDefn _ _ body => stmtSites { c with inSeq := false } r body
  | _ => []

def declsSites (c : Around) (r : Reach) (ds : List Decl) : List GotoSite :=
  match ds with
  | [] => []
  | d :: ds => declSites c r d ++ declsSites c r ds

end

def gotoSites (cu : CompilationUnit) : List GotoSite := declsSites .outside .unit cu

/-! ## What is reported -/

namespace GotoSite

/-- The names the checker looks the target up in; none where it does not
look. -/
def known? (g : GotoSite) : Option (List Ident) :=
  match g.reach with
  | .state names => some names
  | .seq labels => some labels
  | _ => none

/-- The report on the goto, if it is the `k`th. -/
def report? (k : ℕ) (g : GotoSite) : Option GotoReport :=
  match g.reach with
  | .state names => if g.target ∈ names then none else some ⟨k, .notAState⟩
  | .seq labels => if g.target ∈ labels then none else some ⟨k, .notALabel⟩
  | _ => none

/-- The names a goto may lead to. With `crossKind` a label may be reached
from a state body too, and a state from a seq block; without it each kind
of goto has its own targets. -/
def targets (crossKind : Bool) (g : GotoSite) : List Ident :=
  if crossKind then g.around.labels ++ g.around.states
  else if g.around.inSeq then g.around.labels else g.around.states

end GotoSite

/-- The reports on the gotos of `gs`, of which the first is the `k`th. -/
def numbered (k : ℕ) : List GotoSite → List GotoReport
  | [] => []
  | g :: gs => (g.report? k).toList ++ numbered (k + 1) gs

/-- **Gotos are checked.** A goto is reported exactly where its target is
none it may have. -/
def GotosChecked (crossKind : Bool) (cu : CompilationUnit) : Prop :=
  ∀ i g, (gotoSites cu)[i]? = some g →
    ((∃ r ∈ runS25 0 cu, r.number = i) ↔ g.target ∉ g.targets crossKind)

theorem numbered_append (k : ℕ) (gs hs : List GotoSite) :
    numbered k (gs ++ hs) = numbered k gs ++ numbered (k + gs.length) hs := by
  induction gs generalizing k with
  | nil => simp [numbered]
  | cons g gs ih =>
    rw [List.cons_append, numbered, ih, numbered, List.length_cons, List.append_assoc]
    congr 3
    omega

theorem GotoSite.number_of_report? {k : ℕ} {g : GotoSite} {r : GotoReport}
    (h : g.report? k = some r) : r.number = k := by
  unfold GotoSite.report? at h
  split at h
  · split at h
    · cases h
    · obtain rfl := Option.some.inj h
      rfl
  · split at h
    · cases h
    · obtain rfl := Option.some.inj h
      rfl
  · cases h

theorem GotoSite.isSome_report?_iff (k : ℕ) (g : GotoSite) :
    (g.report? k).isSome ↔ ∃ names, g.known? = some names ∧ g.target ∉ names := by
  unfold GotoSite.report? GotoSite.known?
  cases g.reach <;> simp

/-- A report's number is that of its goto. -/
theorem exists_numbered_iff (k : ℕ) (gs : List GotoSite) (i : ℕ) :
    (∃ r ∈ numbered k gs, r.number = k + i) ↔
      ∃ g, gs[i]? = some g ∧ (g.report? (k + i)).isSome := by
  induction gs generalizing k i with
  | nil => simp [numbered]
  | cons g gs ih =>
    have hlow : ∀ (k : ℕ) (gs : List GotoSite) (r : GotoReport), r ∈ numbered k gs → k ≤ r.number := by
      intro k gs
      induction gs generalizing k with
      | nil => simp [numbered]
      | cons g gs ih =>
        intro r hr
        rcases List.mem_append.1 hr with hr | hr
        · exact (GotoSite.number_of_report? (Option.mem_toList.1 hr)).ge
        · have hle := ih (k + 1) r hr
          omega
    cases i with
    | zero =>
      constructor
      · rintro ⟨r, hr, hnum⟩
        rcases List.mem_append.1 hr with hr | hr
        · refine ⟨g, rfl, ?_⟩
          rw [Nat.add_zero, Option.mem_toList.1 hr]
          rfl
        · have hle := hlow (k + 1) gs r hr
          omega
      · rintro ⟨g', hg, hsome⟩
        obtain rfl : g = g' := Option.some.inj hg
        obtain ⟨r, hr⟩ := Option.isSome_iff_exists.1 hsome
        rw [Nat.add_zero] at hr
        refine ⟨r, List.mem_append_left _ (Option.mem_toList.2 hr), ?_⟩
        exact GotoSite.number_of_report? hr
    | succ i =>
      have hrest := ih (k + 1) i
      rw [show k + (i + 1) = k + 1 + i by omega, List.getElem?_cons_succ, ← hrest]
      constructor
      · rintro ⟨r, hr, hnum⟩
        rcases List.mem_append.1 hr with hr | hr
        · have heq := GotoSite.number_of_report? (Option.mem_toList.1 hr)
          omega
        · exact ⟨r, hr, hnum⟩
      · rintro ⟨r, hr, hnum⟩
        exact ⟨r, List.mem_append_right _ hr, hnum⟩

/-! ## The sites are the gotos -/

mutual

theorem length_stmtSites (s : Stmt) (c : Around) (r : Reach) :
    (stmtSites c r s).length = (stmtGotos s).length := by
  cases s with
  | labeled label body => exact length_stmtSites? body c _
  | initBlock items => exact length_stmtsSites items c _
  | parallel items decls =>
    simp only [stmtSites, stmtGotos, List.length_append, length_declsSites decls,
      length_stmtsSites items]
  | seq items decls =>
    simp only [stmtSites, stmtGotos, List.length_append, length_declsSites decls,
      length_stmtsSites items]
  | alt cases elseCase =>
    simp only [stmtSites, stmtGotos, List.length_append, length_casesSites cases,
      length_stmtSites? elseCase]
  | any cases elseCase =>
    simp only [stmtSites, stmtGotos, List.length_append, length_casesSites cases,
      length_stmtSites? elseCase]
  | «while» cond items => exact length_stmtsSites items c _
  | «for» init cond step items =>
    simp only [stmtSites, stmtGotos, List.length_append, length_stmtSites init,
      length_stmtSites? step, length_stmtsSites items]
  | «if» cond thenBr elseBr =>
    simp only [stmtSites, stmtGotos, List.length_append, length_stmtSites thenBr,
      length_stmtSites? elseBr]
  | generate loc init initValue cond step body => exact length_stmtSites body c _
  | _ => rfl

theorem length_stmtsSites (ss : List Stmt) (c : Around) (r : Reach) :
    (stmtsSites c r ss).length = (stmtsGotos ss).length := by
  cases ss with
  | nil => rfl
  | cons s ss =>
    simp only [stmtsSites, stmtsGotos, List.length_append, length_stmtSites s,
      length_stmtsSites ss]

theorem length_stmtSites? (s : Option Stmt) (c : Around) (r : Reach) :
    (stmtSites? c r s).length = (stmtGotos? s).length := by
  cases s with
  | none => rfl
  | some s => exact length_stmtSites s c r

theorem length_casesSites (cs : List CondCase) (c : Around) (r : Reach) :
    (casesSites c r cs).length = (casesGotos cs).length := by
  cases cs with
  | nil => rfl
  | cons a cs =>
    obtain ⟨cond, body⟩ := a
    simp only [casesSites, casesGotos, List.length_append, length_stmtSites body,
      length_casesSites cs]

theorem length_declSites (d : Decl) (c : Around) (r : Reach) :
    (declSites c r d).length = (declGotos d).length := by
  cases d with
  | module loc name internals actions funcs procs =>
    simp only [declSites, declGotos, List.length_append, length_declsSites internals,
      length_stmtsSites actions, length_declsSites funcs, length_declsSites procs]
  | funcDefn loc name body => exact length_stmtSites body _ _
  | procDefn loc name body => exact length_stmtSites body _ _
  | stateDefn loc name body => exact length_stmtSites body _ _
  | _ => rfl

theorem length_declsSites (ds : List Decl) (c : Around) (r : Reach) :
    (declsSites c r ds).length = (declsGotos ds).length := by
  cases ds with
  | nil => rfl
  | cons d ds =>
    simp only [declsSites, declsGotos, List.length_append, length_declSites d,
      length_declsSites ds]

end

/-! ## Where the checker does not look -/

/-- Nothing below is reported. -/
def Reach.Quiet (r : Reach) : Prop := r = .none ∨ r = .unit ∨ r = .procs

theorem Reach.Quiet.none : Reach.none.Quiet := .inl rfl

theorem Reach.Quiet.below {r : Reach} (h : r.Quiet) (s : Stmt) :
    r.branches = .none ∧ r.ifs = .none ∧ r.loops = .none ∧ r.seqBlock s = .none ∧
      r.stateDefns = .none := by
  rcases h with rfl | rfl | rfl <;> exact ⟨rfl, rfl, rfl, rfl, rfl⟩

theorem GotoSite.report?_of_quiet {r : Reach} (h : r.Quiet) (k : ℕ) (target : Ident) (c : Around) :
    GotoSite.report? k ⟨target, c, r⟩ = none := by
  rcases h with rfl | rfl | rfl <;> rfl

mutual

theorem quiet_stmtSites (s : Stmt) (c : Around) {r : Reach} (h : r.Quiet) (k : ℕ) :
    numbered k (stmtSites c r s) = [] := by
  have hbelow := h.below s
  cases s with
  | goto target => simp [stmtSites, numbered, GotoSite.report?_of_quiet h]
  | labeled label body =>
    rw [stmtSites, hbelow.2.2.1]
    exact quiet_stmtSites? body c .none k
  | initBlock items => exact quiet_stmtsSites items c .none k
  | parallel items decls =>
    rw [stmtSites, hbelow.1, hbelow.2.2.2.2, numbered_append, quiet_declsSites decls,
      quiet_stmtsSites items c .none]
    rfl
  | seq items decls =>
    rw [stmtSites, hbelow.2.2.2.1, numbered_append, quiet_declsSites decls,
      quiet_stmtsSites items _ .none]
    rfl
  | alt cases elseCase =>
    rw [stmtSites, hbelow.1, numbered_append, quiet_casesSites cases c .none,
      quiet_stmtSites? elseCase c .none]
    rfl
  | any cases elseCase =>
    rw [stmtSites, hbelow.1, numbered_append, quiet_casesSites cases c .none,
      quiet_stmtSites? elseCase c .none]
    rfl
  | «while» cond items =>
    rw [stmtSites, hbelow.2.2.1]
    exact quiet_stmtsSites items c .none k
  | «for» init cond step items =>
    rw [stmtSites, hbelow.2.2.1, numbered_append, numbered_append,
      quiet_stmtSites init c .none, quiet_stmtSites? step c .none,
      quiet_stmtsSites items c .none]
    rfl
  | «if» cond thenBr elseBr =>
    rw [stmtSites, hbelow.2.1, numbered_append, quiet_stmtSites thenBr c .none,
      quiet_stmtSites? elseBr c .none]
    rfl
  | generate loc init initValue cond step body => exact quiet_stmtSites body c .none k
  | _ => rfl

theorem quiet_stmtsSites (ss : List Stmt) (c : Around) {r : Reach} (h : r.Quiet) (k : ℕ) :
    numbered k (stmtsSites c r ss) = [] := by
  cases ss with
  | nil => rfl
  | cons s ss =>
    rw [stmtsSites, numbered_append, quiet_stmtSites s c h, quiet_stmtsSites ss c h]
    rfl

theorem quiet_stmtSites? (s : Option Stmt) (c : Around) {r : Reach} (h : r.Quiet) (k : ℕ) :
    numbered k (stmtSites? c r s) = [] := by
  cases s with
  | none => rfl
  | some s => exact quiet_stmtSites s c h k

theorem quiet_casesSites (cs : List CondCase) (c : Around) {r : Reach} (h : r.Quiet) (k : ℕ) :
    numbered k (casesSites c r cs) = [] := by
  cases cs with
  | nil => rfl
  | cons a cs =>
    obtain ⟨cond, body⟩ := a
    rw [casesSites, numbered_append, quiet_stmtSites body c h, quiet_casesSites cs c h]
    rfl

theorem quiet_declSites (d : Decl) (c : Around) (k : ℕ) :
    numbered k (declSites c .none d) = [] := by
  cases d with
  | module loc name internals actions funcs procs =>
    have hprocs := quiet_declsSites procs ⟨[], false, stateNames internals⟩
    simp only [declSites, numbered_append, quiet_declsSites internals, quiet_declsSites funcs,
      quiet_stmtsSites actions _ .none, Reach.moduleProcs, hprocs, List.append_nil]
  | funcDefn loc name body => exact quiet_stmtSites body _ .none k
  | procDefn loc name body => exact quiet_stmtSites body _ .none k
  | stateDefn loc name body => exact quiet_stmtSites body _ .none k
  | _ => rfl

theorem quiet_declsSites (ds : List Decl) (c : Around) (k : ℕ) :
    numbered k (declsSites c .none ds) = [] := by
  cases ds with
  | nil => rfl
  | cons d ds =>
    rw [declsSites, numbered_append, quiet_declSites d c, quiet_declsSites ds c]
    rfl

end

/-! ## The walks report site by site -/

mutual

theorem walkStateBody_eq (names : List Ident) (s : Stmt) (c : Around) (k : ℕ) :
    walkStateBody names k s = numbered k (stmtSites c (.state names) s) := by
  cases s with
  | goto target =>
    simp only [walkStateBody, stmtSites, numbered, GotoSite.report?, List.append_nil]
    split <;> rfl
  | labeled label body => exact (quiet_stmtSites? body c .none k).symm
  | initBlock items => exact (quiet_stmtsSites items c .none k).symm
  | parallel items decls =>
    rw [walkStateBody, stmtSites, numbered_append, Reach.stateDefns_state, quiet_declsSites decls,
      length_declsSites decls]
    exact walkStateItems_eq names items c _
  | seq items decls =>
    rw [stmtSites, numbered_append, quiet_declsSites decls, Reach.seqBlock_state,
      quiet_stmtsSites items _ .none]
    rfl
  | alt cases elseCase =>
    rw [walkStateBody, stmtSites, numbered_append, length_casesSites cases]
    exact congrArg₂ _ (walkStateCases_eq names cases c k) (walkStateBody?_eq names elseCase c _)
  | any cases elseCase =>
    rw [walkStateBody, stmtSites, numbered_append, length_casesSites cases]
    exact congrArg₂ _ (walkStateCases_eq names cases c k) (walkStateBody?_eq names elseCase c _)
  | «while» cond items => exact (quiet_stmtsSites items c .none k).symm
  | «for» init cond step items =>
    rw [stmtSites, numbered_append, numbered_append, quiet_stmtSites init c .none,
      quiet_stmtSites? step c .none, Reach.loops_state, quiet_stmtsSites items c .none]
    rfl
  | «if» cond thenBr elseBr =>
    rw [walkStateBody, stmtSites, numbered_append, length_stmtSites thenBr]
    exact congrArg₂ _ (walkStateBody_eq names thenBr c k) (walkStateBody?_eq names elseBr c _)
  | generate loc init initValue cond step body =>
    exact (quiet_stmtSites body c .none k).symm
  | _ => rfl

theorem walkStateItems_eq (names : List Ident) (ss : List Stmt) (c : Around) (k : ℕ) :
    walkStateItems names k ss = numbered k (stmtsSites c (.state names) ss) := by
  cases ss with
  | nil => rfl
  | cons s ss =>
    rw [walkStateItems, stmtsSites, numbered_append, length_stmtSites s,
      walkStateBody_eq names s c k, walkStateItems_eq names ss c]

theorem walkStateBody?_eq (names : List Ident) (s : Option Stmt) (c : Around) (k : ℕ) :
    walkStateBody? names k s = numbered k (stmtSites? c (.state names) s) := by
  cases s with
  | none => rfl
  | some s => exact walkStateBody_eq names s c k

theorem walkStateCases_eq (names : List Ident) (cs : List CondCase) (c : Around) (k : ℕ) :
    walkStateCases names k cs = numbered k (casesSites c (.state names) cs) := by
  cases cs with
  | nil => rfl
  | cons a cs =>
    obtain ⟨cond, body⟩ := a
    rw [walkStateCases, casesSites, numbered_append, length_stmtSites body,
      walkStateBody_eq names body c k, walkStateCases_eq names cs c]

end

mutual

theorem walkSeqBody_eq (labels : List Ident) (s : Stmt) (c : Around) (k : ℕ) :
    walkSeqBody labels k s = numbered k (stmtSites c (.seq labels) s) := by
  cases s with
  | goto target =>
    simp only [walkSeqBody, stmtSites, numbered, GotoSite.report?, List.append_nil]
    split <;> rfl
  | labeled label body => exact walkSeqBody?_eq labels body c k
  | initBlock items => exact (quiet_stmtsSites items c .none k).symm
  | parallel items decls =>
    rw [stmtSites, numbered_append, Reach.stateDefns_seq, quiet_declsSites decls, Reach.branches_seq,
      quiet_stmtsSites items _ .none]
    rfl
  | seq items decls =>
    rw [walkSeqBody, stmtSites, numbered_append, quiet_declsSites decls, length_declsSites decls]
    exact walkSeqItems_eq labels items _ _
  | alt cases elseCase =>
    rw [stmtSites, numbered_append, Reach.branches_seq, quiet_casesSites cases c .none,
      quiet_stmtSites? elseCase c .none]
    rfl
  | any cases elseCase =>
    rw [stmtSites, numbered_append, Reach.branches_seq, quiet_casesSites cases c .none,
      quiet_stmtSites? elseCase c .none]
    rfl
  | «while» cond items => exact walkSeqItems_eq labels items c k
  | «for» init cond step items =>
    rw [walkSeqBody, stmtSites, numbered_append, numbered_append,
      quiet_stmtSites init c .none, quiet_stmtSites? step c .none,
      length_stmtSites init, length_stmtSites? step]
    exact walkSeqItems_eq labels items c _
  | «if» cond thenBr elseBr =>
    rw [walkSeqBody, stmtSites, numbered_append, length_stmtSites thenBr]
    exact congrArg₂ _ (walkSeqBody_eq labels thenBr c k) (walkSeqBody?_eq labels elseBr c _)
  | generate loc init initValue cond step body =>
    exact (quiet_stmtSites body c .none k).symm
  | _ => rfl

theorem walkSeqItems_eq (labels : List Ident) (ss : List Stmt) (c : Around) (k : ℕ) :
    walkSeqItems labels k ss = numbered k (stmtsSites c (.seq labels) ss) := by
  cases ss with
  | nil => rfl
  | cons s ss =>
    rw [walkSeqItems, stmtsSites, numbered_append, length_stmtSites s,
      walkSeqBody_eq labels s c k, walkSeqItems_eq labels ss c]

theorem walkSeqBody?_eq (labels : List Ident) (s : Option Stmt) (c : Around) (k : ℕ) :
    walkSeqBody? labels k s = numbered k (stmtSites? c (.seq labels) s) := by
  cases s with
  | none => rfl
  | some s => exact walkSeqBody_eq labels s c k

end

theorem walkStateDefns_eq (names : List Ident) (ds : List Decl) (c : Around) (k : ℕ) :
    walkStateDefns names k ds = numbered k (declsSites c (.state names) ds) := by
  induction ds generalizing k with
  | nil => rfl
  | cons d ds ih =>
    rw [walkStateDefns, declsSites, numbered_append, length_declSites d, ih]
    congr 1
    cases d with
    | stateDefn loc name body => exact walkStateBody_eq names body _ k
    | module loc name internals actions funcs procs =>
      exact (quiet_declSites (.module loc name internals actions funcs procs) c k).symm
    | funcDefn loc name body => exact (quiet_stmtSites body _ .none k).symm
    | procDefn loc name body => exact (quiet_stmtSites body _ .none k).symm
    | _ => rfl

mutual

theorem dispatch_eq (names : List Ident) (s : Stmt) (c : Around) (k : ℕ) :
    dispatch names k s = numbered k (stmtSites c (.proc names) s) := by
  cases s with
  | goto target => rfl
  | labeled label body => exact (quiet_stmtSites? body c .none k).symm
  | initBlock items => exact (quiet_stmtsSites items c .none k).symm
  | parallel items decls =>
    rw [dispatch, stmtSites, numbered_append, length_declsSites decls]
    exact congrArg₂ _ (walkStateDefns_eq names decls c k) (dispatchItems_eq names items c _)
  | seq items decls => exact walkSeqBody_eq _ (.seq items decls) c k
  | alt cases elseCase =>
    rw [dispatch, stmtSites, numbered_append, length_casesSites cases]
    exact congrArg₂ _ (dispatchCases_eq names cases c k) (dispatch?_eq names elseCase c _)
  | any cases elseCase =>
    rw [dispatch, stmtSites, numbered_append, length_casesSites cases]
    exact congrArg₂ _ (dispatchCases_eq names cases c k) (dispatch?_eq names elseCase c _)
  | «while» cond items => exact (quiet_stmtsSites items c .none k).symm
  | «for» init cond step items =>
    rw [stmtSites, numbered_append, numbered_append, quiet_stmtSites init c .none,
      quiet_stmtSites? step c .none, Reach.loops_proc, quiet_stmtsSites items c .none]
    rfl
  | «if» cond thenBr elseBr =>
    rw [dispatch, stmtSites, numbered_append, length_stmtSites thenBr]
    exact congrArg₂ _ (dispatch_eq names thenBr c k) (dispatch?_eq names elseBr c _)
  | generate loc init initValue cond step body =>
    exact (quiet_stmtSites body c .none k).symm
  | _ => rfl

theorem dispatchItems_eq (names : List Ident) (ss : List Stmt) (c : Around) (k : ℕ) :
    dispatchItems names k ss = numbered k (stmtsSites c (.proc names) ss) := by
  cases ss with
  | nil => rfl
  | cons s ss =>
    rw [dispatchItems, stmtsSites, numbered_append, length_stmtSites s,
      dispatch_eq names s c k, dispatchItems_eq names ss c]

theorem dispatch?_eq (names : List Ident) (s : Option Stmt) (c : Around) (k : ℕ) :
    dispatch? names k s = numbered k (stmtSites? c (.proc names) s) := by
  cases s with
  | none => rfl
  | some s => exact dispatch_eq names s c k

theorem dispatchCases_eq (names : List Ident) (cs : List CondCase) (c : Around) (k : ℕ) :
    dispatchCases names k cs = numbered k (casesSites c (.proc names) cs) := by
  cases cs with
  | nil => rfl
  | cons a cs =>
    obtain ⟨cond, body⟩ := a
    rw [dispatchCases, casesSites, numbered_append, length_stmtSites body,
      dispatch_eq names body c k, dispatchCases_eq names cs c]

end

theorem checkProcs_eq (ds : List Decl) (c : Around) (k : ℕ) :
    checkProcs k ds = numbered k (declsSites c .procs ds) := by
  induction ds generalizing k with
  | nil => rfl
  | cons d ds ih =>
    rw [checkProcs, declsSites, numbered_append, length_declSites d, ih]
    congr 1
    cases d with
    | procDefn loc name body => exact dispatch_eq _ body _ k
    | module loc name internals actions funcs procs =>
      exact (quiet_declSites (.module loc name internals actions funcs procs) c k).symm
    | funcDefn loc name body => exact (quiet_stmtSites body _ .none k).symm
    | stateDefn loc name body => exact (quiet_stmtSites body _ (.inr (.inr rfl)) k).symm
    | _ => rfl

/-- **The checker's reports** are those on the gotos it comes to. -/
theorem runS25_eq (ds : List Decl) (k : ℕ) :
    runS25 k ds = numbered k (declsSites .outside .unit ds) := by
  induction ds generalizing k with
  | nil => rfl
  | cons d ds ih =>
    rw [runS25, declsSites, numbered_append, length_declSites d, ih]
    congr 1
    cases d with
    | module loc name internals actions funcs procs =>
      simp only [declSites, numbered_append, quiet_declsSites internals, quiet_declsSites funcs,
        quiet_stmtsSites actions _ .none, List.nil_append, length_declsSites internals,
        length_stmtsSites actions, length_declsSites funcs]
      rw [checkItem, Nat.add_assoc, Nat.add_assoc]
      exact checkProcs_eq procs _ _
    | funcDefn loc name body => exact (quiet_stmtSites body _ .none k).symm
    | procDefn loc name body => exact (quiet_stmtSites body _ .none k).symm
    | stateDefn loc name body => exact (quiet_stmtSites body _ (.inr (.inl rfl)) k).symm
    | _ => rfl

/-- A goto is reported exactly where the checker comes and does not know
the target. -/
theorem reported_iff {cu : CompilationUnit} {i : ℕ} {g : GotoSite}
    (hg : (gotoSites cu)[i]? = some g) :
    (∃ r ∈ runS25 0 cu, r.number = i) ↔ ∃ names, g.known? = some names ∧ g.target ∉ names := by
  have hnum := exists_numbered_iff 0 (gotoSites cu) i
  simp only [Nat.zero_add] at hnum
  rw [runS25_eq, show declsSites .outside .unit cu = gotoSites cu from rfl, hnum]
  constructor
  · rintro ⟨g', hg', hsome⟩
    obtain rfl : g = g' := Option.some.inj (hg.symm.trans hg')
    exact (g.isSome_report?_iff i).1 hsome
  · intro h
    exact ⟨g, hg, (g.isSome_report?_iff i).2 h⟩

/-- **When the gotos are checked**: where the checker looks, it knows the
target exactly if the goto may have it; where it does not look, the goto
may have the target it has. -/
theorem gotosChecked_iff (crossKind : Bool) (cu : CompilationUnit) :
    GotosChecked crossKind cu ↔
      ∀ g ∈ gotoSites cu,
        match g.known? with
        | none => g.target ∈ g.targets crossKind
        | some names => g.target ∈ names ↔ g.target ∈ g.targets crossKind := by
  constructor
  · intro h g hg
    obtain ⟨i, hi, hget⟩ := List.mem_iff_getElem.1 hg
    have hsome : (gotoSites cu)[i]? = some g := by rw [List.getElem?_eq_getElem hi, hget]
    have hiff := (reported_iff hsome).symm.trans (h i g hsome)
    cases hk : g.known? with
    | none =>
      by_contra hmem
      obtain ⟨names, hnames, -⟩ := hiff.2 hmem
      rw [hk] at hnames
      cases hnames
    | some names =>
      simp only [hk, Option.some.injEq, exists_eq_left'] at hiff
      exact not_iff_not.1 hiff
  · intro h i g hg
    have hcond := h g (List.mem_of_getElem? hg)
    rw [reported_iff hg]
    cases hk : g.known? with
    | none =>
      simp only [hk] at hcond
      simp [hcond]
    | some names =>
      simp only [hk] at hcond
      simp [hcond]

/-- `module m { func f seq { goto x; } }` -/
def strayGoto : CompilationUnit :=
  [.module 0 "m".toList [] []
    [.funcDefn 0 ["f".toList] (.seq [.goto "x".toList] [])] []]

/-- `module m { proc p seq { while (c) { l: f(); goto l; } } }` -/
def loopLabel : CompilationUnit :=
  [.module 0 "m".toList [] [] []
    [.procDefn 0 "p".toList
      (.seq [.while (.identifier 0 ["c".toList])
        [.labeled "l".toList (some (.controlCall 0 ["f".toList] [])), .goto "l".toList]] [])]]

/-- The goto in the func leads nowhere and is not reported, the one in
the loop is reported and leads to its label. -/
theorem not_gotosChecked :
    ¬ GotosChecked true strayGoto ∧ ¬ GotosChecked false strayGoto ∧
      ¬ GotosChecked true loopLabel ∧ ¬ GotosChecked false loopLabel := by
  have hstray : runS25 0 strayGoto = [] := by decide
  have hloop : runS25 0 loopLabel = [⟨0, .notALabel⟩] := by decide
  have hmissed : ∀ crossKind, ¬ GotosChecked crossKind strayGoto := by
    intro crossKind h
    have hiff := h 0 _ rfl
    rw [hstray] at hiff
    obtain ⟨r, hr, -⟩ := hiff.2 (by cases crossKind <;> decide)
    cases hr
  have hfalse : ∀ crossKind, ¬ GotosChecked crossKind loopLabel := by
    intro crossKind h
    have hiff := h 0 _ rfl
    rw [hloop] at hiff
    exact hiff.1 ⟨_, List.mem_singleton_self _, rfl⟩ (by cases crossKind <;> decide)
  exact ⟨hmissed true, hmissed false, hfalse true, hfalse false⟩

end Sema

end Nslc
