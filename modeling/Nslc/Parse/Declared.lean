import Nslc.Common.Aligned
import Nslc.Parse.Module
/-!
# Parse — the declarators that reach the syntax tree

A declaration with several declarators stands for one with each of them.
What the source declares is listed block by block from the tree of a
module, what the syntax tree declares from the node that is built of it.
A block here is the module itself, a parallel block, or the body of
`seq`, `while` or `for`.
-/

namespace Nslc

namespace Parse

open AST Nslc.Lex Descent Aligned

/-! ## In the source -/

inductive Declarator where
  | plain (d : Decl)
  | instance (loc : Loc) (templateName : Ident) (i : Instance) (params : ParamsTree)

/-- The parameter assignments say this; those that were passed over, if
they can be read so. -/
def ParamsTree.Denotes : ParamsTree → List ParamAssign → Prop
  | .none, ps => ps = []
  | .read qs, ps => ps = qs.map ParamTree.toAssign
  | .skipped ts, ps =>
    ∃ qs, commaWords ParamTree.words qs = wordsOf ts ∧ ps = qs.map ParamTree.toAssign

/-- The declaration of this declarator alone. -/
def Declarator.Declares : Declarator → Decl → Prop
  | .plain d, e => e = d
  | .instance loc template i params, e =>
    ∃ ps, params.Denotes ps ∧ e = .submodule loc template [i] ps

namespace InternalTree

/-- Every declarator with what is its own. `first_state` declares
nothing. -/
def declarators : InternalTree → List Declarator
  | .wire loc first more =>
    (first :: more).map fun d => .plain (.wire loc d.name (d.size.map ExprTree.toExpr))
  | .reg loc first more =>
    (first :: more).map fun d => .plain
      (.reg loc d.name (d.width.map ExprTree.toExpr) (d.init.map ExprTree.toExpr))
  | .funcSelf loc x args ret => [.plain (.funcSelf loc x (args.getD []) (ret.getD []))]
  | .procName loc first more =>
    (first :: more).map fun d => .plain (.procName loc d.name (d.args.getD []))
  | .stateName loc first more => (first :: more).map fun x => .plain (.stateName loc [x])
  | .firstState _ => []
  | .mem loc x depth width init =>
    [.plain (.mem loc x depth.toExpr width.toExpr ((init.getD []).map ExprTree.toExpr))]
  | .integer loc first more => (first :: more).map fun x => .plain (.integer loc x)
  | .variable loc first more =>
    (first :: more).map fun d => .plain (.variable loc d.name (d.size.map ExprTree.toExpr))
  | .structInst loc type kind first more =>
    (first :: more).map fun d => .plain
      (.structInst loc type d.name kind (d.size.map ExprTree.toExpr) d.init.toExprs)
  | .submodule loc template first more =>
    (first :: more).map fun i => .instance loc template i.toInstance i.params

end InternalTree

/-- A block with its declarations, and whether they are kept: a body of
`while` or `for` has no place for them, and of several `else` cases all
but the last are lost. -/
structure Container where
  kept : Bool
  decls : List InternalTree

def Container.lost (c : Container) : Container := { c with kept := false }

def declItems : List ItemTree → List InternalTree
  | [] => []
  | .decl d :: is => d :: declItems is
  | _ :: is => declItems is

def hasElse : List ItemTree → Bool
  | [] => false
  | .elseCase _ :: _ => true
  | .lostElse :: _ => true
  | _ :: is => hasElse is

mutual

/-- The blocks of a statement. -/
def StmtTree.containers : StmtTree → List Container
  | .parallel items | .seq items =>
    ⟨true, declItems items⟩ :: (stmtContainers items ++ stateContainers items)
  | .while _ items => ⟨false, declItems items⟩ :: stmtContainers items
  | .forEnum init _ items =>
    init.containers ++ (⟨false, declItems items⟩ :: stmtContainers items)
  | .for init _ step items =>
    init.containers ++ (step.containers ++
      (⟨false, declItems items⟩ :: stmtContainers items))
  | .alt cases | .any cases => caseContainers cases ++ elseContainers cases
  | .ifThen _ thenBr => thenBr.containers
  | .ifElse _ thenBr elseBr => thenBr.containers ++ elseBr.containers
  | .initBlock items => stmtContainers items
  | .generate _ _ _ _ _ _ body => body.containers
  | _ => []

def stmtContainers : List ItemTree → List Container
  | [] => []
  | .stmt s :: is => s.containers ++ stmtContainers is
  | _ :: is => stmtContainers is

def stateContainers : List ItemTree → List Container
  | [] => []
  | .state _ _ body :: is => body.containers ++ stateContainers is
  | _ :: is => stateContainers is

def caseContainers : List ItemTree → List Container
  | [] => []
  | .case _ body :: is => body.containers ++ caseContainers is
  | _ :: is => caseContainers is

def elseContainers : List ItemTree → List Container
  | [] => []
  | .elseCase body :: is =>
    (if hasElse is then body.containers.map Container.lost else body.containers) ++
      elseContainers is
  | _ :: is => elseContainers is

end

namespace ModuleItemTree

def decls : ModuleItemTree → List InternalTree
  | .decl d => [d]
  | _ => []

def actionContainers : ModuleItemTree → List Container
  | .stmt s => s.containers
  | _ => []

def funcContainers : ModuleItemTree → List Container
  | .func _ _ _ _ body => body.containers
  | _ => []

def procContainers : ModuleItemTree → List Container
  | .proc _ _ body | .state _ _ body => body.containers
  | _ => []

end ModuleItemTree

def ModuleTree.containers (m : ModuleTree) : List Container :=
  ⟨true, m.items.flatMap ModuleItemTree.decls⟩ ::
    (m.items.flatMap ModuleItemTree.actionContainers ++
      (m.items.flatMap ModuleItemTree.funcContainers ++
        m.items.flatMap ModuleItemTree.procContainers))

/-! ## In the syntax tree -/

/-- A declaration for each name that is declared. The parameter
assignments of a `SubmoduleDecl` are those of all its instances. -/
def splitDecl : Decl → List Decl
  | .stateName loc names => names.map fun x => .stateName loc [x]
  | .submodule loc template instances ps =>
    instances.map fun i => .submodule loc template [i] ps
  | .firstState _ | .stateDefn _ _ _ => []
  | d => [d]

mutual

/-- What each block declares. -/
def stmtBlocks : Stmt → List (List Decl)
  | .parallel items decls | .seq items decls =>
    decls.flatMap splitDecl :: (stmtsBlocks items ++ declsBlocks decls)
  | .while _ items => [] :: stmtsBlocks items
  | .for init _ step items => stmtBlocks init ++ (stmtBlocks? step ++ ([] :: stmtsBlocks items))
  | .alt cases elseCase | .any cases elseCase => casesBlocks cases ++ stmtBlocks? elseCase
  | .if _ thenBr elseBr => stmtBlocks thenBr ++ stmtBlocks? elseBr
  | .initBlock items => stmtsBlocks items
  | .labeled _ body => stmtBlocks? body
  | .generate _ _ _ _ _ body => stmtBlocks body
  | _ => []

def stmtsBlocks : List Stmt → List (List Decl)
  | [] => []
  | s :: ss => stmtBlocks s ++ stmtsBlocks ss

def stmtBlocks? : Option Stmt → List (List Decl)
  | none => []
  | some s => stmtBlocks s

def casesBlocks : List CondCase → List (List Decl)
  | [] => []
  | .mk _ body :: cs => stmtBlocks body ++ casesBlocks cs

def declBlocks : Decl → List (List Decl)
  | .module _ _ internals actions funcs procs =>
    internals.flatMap splitDecl :: (stmtsBlocks actions ++ (declsBlocks funcs ++ declsBlocks procs))
  | .funcDefn _ _ body | .procDefn _ _ body | .stateDefn _ _ body => stmtBlocks body
  | _ => []

def declsBlocks : List Decl → List (List Decl)
  | [] => []
  | d :: ds => declBlocks d ++ declsBlocks ds

end

/-- **No declarator is lost.** Block by block, the declarations of the
syntax tree are those of the declarators, in their order and each with
what is its own. -/
def NothingLost (m : ModuleTree) (node : Decl) : Prop :=
  List.Forall₂ (List.Forall₂ Declarator.Declares)
    (filled (m.containers.map fun c => c.decls.flatMap InternalTree.declarators))
    (filled (declBlocks node))

/-! ## When none is lost -/

/-- Several procs or struct instances in one declaration are too many;
the instances of a module must be given what the first is given. -/
def InternalTree.Whole : InternalTree → Prop
  | .procName _ _ more => more = []
  | .structInst _ _ _ _ more => more = []
  | .submodule _ _ first more => ∀ i ∈ first :: more, i.params.Denotes first.params.assigns
  | _ => True

def Container.Keeps (c : Container) : Prop :=
  if c.kept then ∀ d ∈ c.decls, d.Whole else ∀ d ∈ c.decls, d.declarators = []

def ModuleTree.Keeps (m : ModuleTree) : Prop := ∀ c ∈ m.containers, c.Keeps

/-! ## One declaration -/

namespace InternalTree

/-- What the syntax tree has of a declaration. -/
def entries (d : InternalTree) : List Decl := d.toDecls.flatMap splitDecl

theorem forall₂_plain {α : Type} (f : α → Decl) (ds : List α) :
    List.Forall₂ Declarator.Declares (ds.map fun d => .plain (f d)) (ds.map f) := by
  induction ds with
  | nil => exact .nil
  | cons d ds ih => exact .cons rfl ih

theorem flatMap_splitDecl {α : Type} (f : α → Decl) (hf : ∀ a, splitDecl (f a) = [f a])
    (ds : List α) : (ds.map f).flatMap splitDecl = ds.map f := by
  induction ds with
  | nil => rfl
  | cons d ds ih => rw [List.map_cons, List.flatMap_cons, hf, ih, List.singleton_append]

/-- Of several declarators only the first is kept. -/
theorem forall₂_first_iff {α : Type} (f : α → Decl) (first : α) (more : List α) :
    List.Forall₂ Declarator.Declares ((first :: more).map fun d => .plain (f d)) [f first] ↔
      more = [] := by
  constructor
  · intro h
    have hlen := h.length_eq
    rw [List.length_map, List.length_cons, List.length_singleton] at hlen
    exact List.eq_nil_of_length_eq_zero (by omega)
  · rintro rfl
    exact forall₂_plain f [first]

theorem forall₂_instances_iff (loc : Loc) (template : Ident) (ps : List ParamAssign)
    (is : List InstanceTree) :
    List.Forall₂ Declarator.Declares
        (is.map fun i => .instance loc template i.toInstance i.params)
        (is.map fun i => .submodule loc template [i.toInstance] ps) ↔
      ∀ i ∈ is, i.params.Denotes ps := by
  induction is with
  | nil => simp
  | cons i is ih =>
    rw [List.map_cons, List.map_cons, List.forall₂_cons, ih, List.forall_mem_cons]
    refine and_congr_left fun _ => ⟨?_, fun h => ⟨ps, h, rfl⟩⟩
    rintro ⟨qs, hqs, heq⟩
    obtain rfl : ps = qs := by injection heq
    exact hqs

/-- **A declaration is whole where each declarator has its
declaration.** -/
theorem forall₂_entries_iff (d : InternalTree) :
    List.Forall₂ Declarator.Declares d.declarators d.entries ↔ d.Whole := by
  cases d with
  | wire loc first more =>
    rw [entries, toDecls, flatMap_splitDecl _ fun _ => rfl]
    exact iff_of_true (forall₂_plain _ _) trivial
  | reg loc first more =>
    rw [entries, toDecls, flatMap_splitDecl _ fun _ => rfl]
    exact iff_of_true (forall₂_plain _ _) trivial
  | funcSelf loc x args ret => exact iff_of_true (.cons rfl .nil) trivial
  | procName loc first more =>
    exact forall₂_first_iff (fun d => .procName loc d.name (d.args.getD [])) first more
  | stateName loc first more =>
    rw [entries, toDecls, List.flatMap_singleton, splitDecl]
    exact iff_of_true (forall₂_plain _ _) trivial
  | firstState target => exact iff_of_true .nil trivial
  | mem loc x depth width init => exact iff_of_true (.cons rfl .nil) trivial
  | integer loc first more =>
    rw [entries, toDecls, flatMap_splitDecl _ fun _ => rfl]
    exact iff_of_true (forall₂_plain _ _) trivial
  | «variable» loc first more =>
    rw [entries, toDecls, flatMap_splitDecl _ fun _ => rfl]
    exact iff_of_true (forall₂_plain _ _) trivial
  | structInst loc type kind first more =>
    exact forall₂_first_iff (fun d => .structInst loc type d.name kind
      (d.size.map ExprTree.toExpr) d.init.toExprs) first more
  | submodule loc template first more =>
    rw [entries, toDecls, List.flatMap_singleton, splitDecl, List.map_map]
    exact forall₂_instances_iff loc template first.params.assigns (first :: more)

theorem length_entries_le (d : InternalTree) : d.entries.length ≤ d.declarators.length := by
  cases d with
  | wire | reg | integer | «variable» =>
    rw [entries, toDecls, flatMap_splitDecl _ fun _ => rfl]
    simp [declarators]
  | stateName | submodule => simp [entries, toDecls, splitDecl, declarators]
  | funcSelf | procName | firstState | mem | structInst =>
    simp [entries, toDecls, splitDecl, declarators]

end InternalTree

/-! ## One block -/

namespace Container

def declarators (c : Container) : List Declarator := c.decls.flatMap InternalTree.declarators

/-- What the syntax tree has of a block. -/
def entries (c : Container) : List Decl :=
  if c.kept then c.decls.flatMap InternalTree.entries else []

theorem length_entries_le (c : Container) : c.entries.length ≤ c.declarators.length := by
  unfold entries
  split_ifs
  · exact length_flatMap_le fun d _ => d.length_entries_le
  · simp

theorem forall₂_entries_iff (c : Container) :
    List.Forall₂ Declarator.Declares c.declarators c.entries ↔ c.Keeps := by
  unfold entries Keeps
  split_ifs
  · rw [declarators, forall₂_flatMap_iff fun d _ => d.length_entries_le]
    exact forall₂_congr fun d _ => d.forall₂_entries_iff
  · rw [List.forall₂_nil_right_iff, declarators, List.flatMap_eq_nil_iff]

end Container

/-! ## Every block -/

@[simp] theorem filled_entries_lost (cs : List Container) :
    filled ((cs.map Container.lost).map Container.entries) = [] := by
  simp [filled, Container.lost, Container.entries]

theorem flatMap_splitDecl_declsOf (is : List ItemTree) :
    (declsOf is).flatMap splitDecl = (declItems is).flatMap InternalTree.entries := by
  induction is with
  | nil => rfl
  | cons i is ih =>
    cases i with
    | decl d => simp [declsOf, declItems, InternalTree.entries, ih]
    | state loc x body => simp [declsOf, declItems, splitDecl, ih]
    | _ => exact ih

/-- Only definitions have blocks in them. -/
theorem declsBlocks_toDecls_append (d : InternalTree) (ds : List Decl) :
    declsBlocks (d.toDecls ++ ds) = declsBlocks ds := by
  have hnone : ∀ es : List Decl, (∀ e ∈ es, declBlocks e = []) →
      declsBlocks (es ++ ds) = declsBlocks ds := by
    intro es hes
    induction es with
    | nil => rfl
    | cons e es ih =>
      rw [List.cons_append, declsBlocks, hes e (by simp), List.nil_append]
      exact ih fun e' he' => hes e' (by simp [he'])
  refine hnone _ fun e he => ?_
  cases d with
  | wire | reg | integer | «variable» =>
    obtain ⟨x, -, rfl⟩ := List.mem_map.1 he
    rfl
  | _ =>
    obtain rfl := List.mem_singleton.1 he
    rfl

mutual

/-- **The blocks of the syntax tree are those of the source** as far as
they are kept. -/
theorem filled_stmtBlocks (t : StmtTree) :
    filled (stmtBlocks t.toStmt) = filled (t.containers.map Container.entries) := by
  cases t with
  | parallel items | seq items =>
    simp only [StmtTree.toStmt, stmtBlocks, StmtTree.containers, List.map_cons, List.map_append]
    rw [filled_cons, filled_cons (Container.entries _), filled_append, filled_append,
      flatMap_splitDecl_declsOf, filled_stmtsBlocks items, filled_declsBlocks items]
    rfl
  | «while» cond items =>
    simp only [StmtTree.toStmt, stmtBlocks, StmtTree.containers, List.map_cons]
    rw [filled_cons, filled_cons (Container.entries _), filled_stmtsBlocks items]
    rfl
  | forEnum init last items =>
    simp only [StmtTree.toStmt, stmtBlocks, stmtBlocks?, StmtTree.containers, List.map_cons,
      List.map_append, filled_append, List.nil_append]
    rw [filled_cons, filled_cons (Container.entries _), filled_stmtBlocks init,
      filled_stmtsBlocks items]
    rfl
  | «for» init cond step items =>
    simp only [StmtTree.toStmt, stmtBlocks, stmtBlocks?, StmtTree.containers, List.map_cons,
      List.map_append, filled_append]
    rw [filled_cons, filled_cons (Container.entries _), filled_stmtBlocks init,
      filled_stmtBlocks step, filled_stmtsBlocks items]
    rfl
  | alt cases | any cases =>
    simp only [StmtTree.toStmt, stmtBlocks, StmtTree.containers, List.map_append, filled_append]
    rw [filled_casesBlocks cases, filled_elseBlocks none cases]
    simp [stmtBlocks?]
  | ifThen cond thenBr =>
    simp only [StmtTree.toStmt, stmtBlocks, stmtBlocks?, StmtTree.containers, List.append_nil]
    exact filled_stmtBlocks thenBr
  | ifElse cond thenBr elseBr =>
    simp only [StmtTree.toStmt, stmtBlocks, stmtBlocks?, StmtTree.containers, List.map_append,
      filled_append]
    rw [filled_stmtBlocks thenBr, filled_stmtBlocks elseBr]
  | initBlock items => exact filled_stmtsBlocks items
  | generate loc x init cond y step body => exact filled_stmtBlocks body
  | _ => rfl

theorem filled_stmtsBlocks (is : List ItemTree) :
    filled (stmtsBlocks (stmtsOf is)) = filled ((stmtContainers is).map Container.entries) := by
  match is with
  | [] => rfl
  | .stmt s :: is =>
    simp only [stmtsOf, stmtsBlocks, stmtContainers, List.map_append, filled_append]
    rw [filled_stmtBlocks s, filled_stmtsBlocks is]
  | .labels _ _ :: is | .decl _ :: is | .state _ _ _ :: is | .case _ _ :: is | .elseCase _ :: is
  | .lostElse :: is => exact filled_stmtsBlocks is

theorem filled_declsBlocks (is : List ItemTree) :
    filled (declsBlocks (declsOf is)) = filled ((stateContainers is).map Container.entries) := by
  match is with
  | [] => rfl
  | .state _ _ body :: is =>
    simp only [declsOf, declsBlocks, declBlocks, stateContainers, List.map_append, filled_append]
    rw [filled_stmtBlocks body, filled_declsBlocks is]
  | .decl d :: is =>
    rw [declsOf, declsBlocks_toDecls_append]
    exact filled_declsBlocks is
  | .labels _ _ :: is | .stmt _ :: is | .case _ _ :: is | .elseCase _ :: is
  | .lostElse :: is => exact filled_declsBlocks is

theorem filled_casesBlocks (is : List ItemTree) :
    filled (casesBlocks (casesOf is)) = filled ((caseContainers is).map Container.entries) := by
  match is with
  | [] => rfl
  | .case _ body :: is =>
    simp only [casesOf, casesBlocks, caseContainers, List.map_append, filled_append]
    rw [filled_stmtBlocks body, filled_casesBlocks is]
  | .labels _ _ :: is | .decl _ :: is | .state _ _ _ :: is | .stmt _ :: is | .elseCase _ :: is
  | .lostElse :: is => exact filled_casesBlocks is

/-- The `else` case set before is kept if there is no other. -/
theorem filled_elseBlocks (elseCase : Option Stmt) (is : List ItemTree) :
    filled (stmtBlocks? (elseOf elseCase is)) =
      (if hasElse is then [] else filled (stmtBlocks? elseCase)) ++
        filled ((elseContainers is).map Container.entries) := by
  match is with
  | [] => simp [elseOf, hasElse, elseContainers]
  | .elseCase body :: is =>
    rw [elseOf, filled_elseBlocks (some body.toStmt) is]
    simp only [hasElse, elseContainers, List.map_append, filled_append, if_true, List.nil_append,
      stmtBlocks?]
    split_ifs
    · rw [filled_entries_lost]
    · rw [filled_stmtBlocks body]
  | .lostElse :: is =>
    rw [elseOf, filled_elseBlocks none is]
    simp [hasElse, elseContainers, stmtBlocks?]
  | .labels _ _ :: is | .decl _ :: is | .state _ _ _ :: is | .stmt _ :: is
  | .case _ _ :: is => exact filled_elseBlocks elseCase is

end

/-! ## Modules -/

theorem stmtsBlocks_eq (ss : List Stmt) : stmtsBlocks ss = ss.flatMap stmtBlocks := by
  induction ss with
  | nil => rfl
  | cons s ss ih => rw [stmtsBlocks, ih, List.flatMap_cons]

theorem declsBlocks_eq (ds : List Decl) : declsBlocks ds = ds.flatMap declBlocks := by
  induction ds with
  | nil => rfl
  | cons d ds ih => rw [declsBlocks, ih, List.flatMap_cons]

theorem flatMap_splitDecl_internals (is : List ModuleItemTree) :
    (is.flatMap ModuleItemTree.internals).flatMap splitDecl =
      (is.flatMap ModuleItemTree.decls).flatMap InternalTree.entries := by
  induction is with
  | nil => rfl
  | cons i is ih =>
    cases i with
    | decl d =>
      simp [ModuleItemTree.internals, ModuleItemTree.decls, InternalTree.entries, ih]
    | _ => exact ih

/-- Item by item. -/
theorem filled_flatMap_entries {f : ModuleItemTree → List (List Decl)}
    {g : ModuleItemTree → List Container}
    (h : ∀ i, filled (f i) = filled ((g i).map Container.entries)) (is : List ModuleItemTree) :
    filled (is.flatMap f) = filled ((is.flatMap g).map Container.entries) := by
  induction is with
  | nil => rfl
  | cons i is ih =>
    rw [List.flatMap_cons, List.flatMap_cons, List.map_append, filled_append, filled_append, h i,
      ih]

theorem filled_actions (i : ModuleItemTree) :
    filled (i.actions.flatMap stmtBlocks) = filled (i.actionContainers.map Container.entries) := by
  cases i with
  | stmt s =>
    rw [ModuleItemTree.actions, List.flatMap_singleton]
    exact filled_stmtBlocks s
  | _ => rfl

theorem filled_funcs (i : ModuleItemTree) :
    filled (i.funcs.flatMap declBlocks) = filled (i.funcContainers.map Container.entries) := by
  cases i with
  | func loc kw x path body =>
    rw [ModuleItemTree.funcs, List.flatMap_singleton]
    exact filled_stmtBlocks body
  | _ => rfl

theorem filled_procs (i : ModuleItemTree) :
    filled (i.procs.flatMap declBlocks) = filled (i.procContainers.map Container.entries) := by
  cases i with
  | proc loc x body | state loc x body =>
    rw [ModuleItemTree.procs, List.flatMap_singleton]
    exact filled_stmtBlocks body
  | _ => rfl

theorem filled_moduleBlocks (m : ModuleTree) :
    filled (declBlocks m.toDecl) = filled (m.containers.map Container.entries) := by
  have hown : ∀ ds, Container.entries ⟨true, ds⟩ = ds.flatMap InternalTree.entries := fun _ => rfl
  simp only [ModuleTree.toDecl, declBlocks, ModuleTree.containers, List.map_cons, List.map_append,
    stmtsBlocks_eq, declsBlocks_eq, List.flatMap_assoc]
  rw [filled_cons, filled_cons (Container.entries _), filled_append, filled_append, filled_append,
    filled_append, filled_flatMap_entries filled_actions, filled_flatMap_entries filled_funcs,
    filled_flatMap_entries filled_procs, hown, ← flatMap_splitDecl_internals, List.flatMap_assoc]

theorem nothingLost_iff (m : ModuleTree) : NothingLost m m.toDecl ↔ m.Keeps := by
  unfold NothingLost
  rw [filled_moduleBlocks, ModuleTree.Keeps]
  refine (forall₂_filled_iff fun c _ => c.length_entries_le).trans ?_
  exact forall₂_congr fun c _ => c.forall₂_entries_iff

/-- `parseModuleBlock` reads the tokens `ts` in front of others and
reports no error. -/
def ParsesModule (ts rest : List Tok) (pos : ℕ) (m : ModuleTree) : Prop :=
  ∃ fuel set notes, parseModuleBlock fuel set ⟨ts ++ rest, pos⟩ =
    .ok m ⟨rest, pos + ts.length⟩ notes ∧ view.Clean notes

/-- `module m { reg a, b; func f { wire w; } }` -/
def regsTree : ModuleTree :=
  ⟨0, ['m'], [.decl (.reg 3 ⟨['a'], none, none⟩ [⟨['b'], none, none⟩]),
    .func 8 .func ['f'] [] (.parallel [.decl (.wire 11 ⟨['w'], none⟩ [])])]⟩

/-- `module m { proc_name p, q; }` -/
def procsTree : ModuleTree := ⟨0, ['m'], [.decl (.procName 3 ⟨['p'], none⟩ [⟨['q'], none⟩])]⟩

end Parse

end Nslc
