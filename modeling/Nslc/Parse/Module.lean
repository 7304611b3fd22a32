import Nslc.Parse.Stmt
/-!
# Parse — modules

`parseModuleBlock`, and the node that is built of what it reads.
-/

namespace Nslc

namespace Parse

open AST Nslc.Lex Descent

/-! ## Nodes -/

mutual

def StmtTree.toStmt : StmtTree → Stmt
  | .transfer lhs op rhs => .transfer lhs.begin op lhs.toExpr rhs.toExpr
  | .preIncDec op target => .incDec target.toExpr op true
  | .postIncDec target op => .incDec target.toExpr op false
  | .controlCall loc x path args => .controlCall loc (x :: path) (args.map ExprTree.toExpr)
  | .bareFinish loc _ => .bareFinish loc
  | .systemTask x args => .systemTask x (args.map ExprTree.toExpr)
  | .return loc value => .return loc (value.map ExprTree.toExpr)
  | .empty => .empty
  | .labeled x => .labeled x none
  | .goto x => .goto x
  | .initBlock items => .initBlock (stmtsOf items)
  | .delayTask count => .delayTask count.toExpr
  | .parallel items => .parallel (stmtsOf items) (declsOf items)
  | .alt cases => .alt (casesOf cases) (elseOf none cases)
  | .any cases => .any (casesOf cases) (elseOf none cases)
  | .seq items => .seq (stmtsOf items) (declsOf items)
  -- the declarations of a loop's body go nowhere
  | .while cond items => .while cond.toExpr (stmtsOf items)
  | .forEnum init last items => .for init.toStmt last.toExpr none (stmtsOf items)
  | .for init cond step items =>
    .for init.toStmt cond.toExpr (some step.toStmt) (stmtsOf items)
  | .forAssign loc x e => .transfer loc .regColonEq (.identifier loc [x]) e.toExpr
  | .forPre op loc x => .incDec (.identifier loc [x]) op true
  | .forPost loc x op => .incDec (.identifier loc [x]) op false
  | .ifThen cond thenBr => .if cond.toExpr thenBr.toStmt none
  | .ifElse cond thenBr elseBr => .if cond.toExpr thenBr.toStmt (some elseBr.toStmt)
  | .generate loc x init cond _ step body =>
    .generate loc x init.toExpr cond.toExpr step.toExpr body.toStmt

/-- The statements among the items. -/
def stmtsOf : List ItemTree → List Stmt
  | [] => []
  | .stmt s :: is => s.toStmt :: stmtsOf is
  | _ :: is => stmtsOf is

/-- The declarations among the items, and the states. -/
def declsOf : List ItemTree → List Decl
  | [] => []
  | .decl d :: is => d.toDecls ++ declsOf is
  | .state loc x body :: is => .stateDefn loc x body.toStmt :: declsOf is
  | _ :: is => declsOf is

def casesOf : List ItemTree → List CondCase
  | [] => []
  | .case cond body :: is => .mk cond.toExpr body.toStmt :: casesOf is
  | _ :: is => casesOf is

/-- `elseCase`, which every `else:` sets anew. -/
def elseOf (elseCase : Option Stmt) : List ItemTree → Option Stmt
  | [] => elseCase
  | .elseCase body :: is => elseOf (some body.toStmt) is
  | .lostElse :: is => elseOf none is
  | _ :: is => elseOf elseCase is

end

/-! ## Modules -/

inductive ModuleItemTree where
  | decl (d : InternalTree)
  | func (loc : Loc) (kw : TokenKind) (head : Ident) (path : List Ident) (body : StmtTree)
  | proc (loc : Loc) (name : Ident) (body : StmtTree)
  | state (loc : Loc) (name : Ident) (body : StmtTree)
  | stmt (s : StmtTree)

structure ModuleTree where
  loc : Loc
  name : Ident
  items : List ModuleItemTree

section Rules

variable (fuel : ℕ) (set : TokenSet)

def functionWarning : String :=
  "'function' is accepted as a synonym for 'func' but is not the canonical form (S26)"

/-- Behind `func` or `function`. -/
def parseFuncDefn (kw : At) : Rule ModuleItemTree := do
  let (x, path) ← parseScopedName fuel
  let body ← parseActionStatement fuel set
  return .func kw.idx kw.tok.kind x.tok.spelling path body

/-- Behind `proc`. -/
def parseProcDefn (idx : ℕ) : Rule ModuleItemTree := do
  let x ← expect .identifier "proc name"
  let body ← parseActionStatement fuel set
  return .proc idx x.tok.spelling body

/-- `parseStateDefn` among the items of a module. -/
def moduleState (idx : ℕ) : Rule ModuleItemTree := do
  let x ← expect .identifier "state name"
  let body ← parseActionStatement fuel set
  return .state idx x.tok.spelling body

def definitionCase (t : At) : Option (Rule ModuleItemTree) :=
  match t.tok.kind with
  | .func => some (parseFuncDefn fuel set t)
  | .function => some do
    warning t.idx functionWarning
    parseFuncDefn fuel set t
  | .proc => some (parseProcDefn fuel set t.idx)
  | .state => some (moduleState fuel set t.idx)
  | _ => none

/-- Instances of structs and of modules begin with two names, or with a
name and `reg` or `wire`. -/
def isDeclAhead (k next : TokenKind) : Bool :=
  isInternalDeclStart k ||
    (k == .identifier && (next == .reg || next == .wire || next == .identifier))

def parseModuleItem : Rule ModuleItemTree :=
  onNext (definitionCase fuel set) do
    if isDeclAhead (← peekKind) (← peekAhead 1) then
      let d ← parseInternalDecl (parseExpr fuel) fuel
      return .decl d
    else
      let s ← parseActionStatement fuel set
      return .stmt s

def moduleEnd : Rule Bool := do
  if isBlockEnd (← peekKind) then return true
  else
    consumeLineMarkers
    let k ← peekKind
    return k == .rbrace

/-- `parseModuleBlock` under the recovery sets pushed so far. -/
def parseModuleBlock : Rule ModuleTree := do
  let kw ← expect .module_ "'module'"
  let x ← expect .identifier "module name"
  let _ ← expect .lbrace "'\x7b' to begin module body"
  let items ← itemLoop moduleEnd (parseModuleItem fuel (set ++ kModuleItem))
    (recoverIn kModuleItem (set ++ kModuleItem)) fuel
  let _ ← expect .rbrace "'\x7d' to close module"
  return ⟨kw.idx, x.tok.spelling, items⟩

end Rules

namespace ModuleItemTree

def internals : ModuleItemTree → List Decl
  | .decl d => d.toDecls
  | _ => []

def actions : ModuleItemTree → List Stmt
  | .stmt s => [s.toStmt]
  | _ => []

def funcs : ModuleItemTree → List Decl
  | .func loc _ x path body => [.funcDefn loc (x :: path) body.toStmt]
  | _ => []

/-- The states of a module are among its procs. -/
def procs : ModuleItemTree → List Decl
  | .proc loc x body => [.procDefn loc x body.toStmt]
  | .state loc x body => [.stateDefn loc x body.toStmt]
  | _ => []

def words : ModuleItemTree → List Word
  | .decl d => d.words
  | .func _ kw x path body => .sym kw :: (nameWords (x :: path) ++ body.words)
  | .proc _ x body => [.sym .proc, .name x] ++ body.words
  | .state _ x body => [.sym .state, .name x] ++ body.words
  | .stmt s => s.words

end ModuleItemTree

namespace ModuleTree

/-- The `ModuleBlock` that is returned. -/
def toDecl (m : ModuleTree) : Decl :=
  .module m.loc m.name (m.items.flatMap ModuleItemTree.internals)
    (m.items.flatMap ModuleItemTree.actions) (m.items.flatMap ModuleItemTree.funcs)
    (m.items.flatMap ModuleItemTree.procs)

def words (m : ModuleTree) : List Word :=
  [.sym .module_, .name m.name, .sym .lbrace] ++
    (m.items.flatMap ModuleItemTree.words ++ [.sym .rbrace])

end ModuleTree

/-! ## A tree has the words that were read -/

section Reads

variable (fuel : ℕ) (set : TokenSet) {pre : List Word}

theorem reads_parseFuncDefn {kw : At} :
    Reads view (parseFuncDefn fuel set kw) (pre ++ [.sym kw.tok.kind]) fun i ws =>
      ws = pre ++ i.words := by
  refine (yields_parseScopedName fuel).bind fun r => ?_
  refine (yields_parseActionStatement fuel set).bind fun body => reads_pure ?_
  simp [ModuleItemTree.words]

theorem reads_definitionCase {t : At} {p : Rule ModuleItemTree}
    (hp : definitionCase fuel set t = some p) :
    Reads view p (pre ++ wordsOf [t.tok]) fun i ws => ws = pre ++ i.words := by
  unfold definitionCase at hp
  split at hp <;> rename_i hk <;> first | cases hp; done | obtain rfl := Option.some.inj hp
  · rw [wordsOf_of_kind hk rfl, ← hk]
    exact reads_parseFuncDefn fuel set
  · rw [wordsOf_of_kind hk rfl, ← hk]
    refine (yields_warning _ _).bind fun _ => ?_
    rw [List.append_nil]
    exact reads_parseFuncDefn fuel set
  · rw [wordsOf_of_kind hk rfl]
    refine (yields_expectName _).bind fun x => ?_
    refine (yields_parseActionStatement fuel set).bind fun body => reads_pure ?_
    simp [ModuleItemTree.words]
  · rw [wordsOf_of_kind hk rfl]
    refine (yields_expectName _).bind fun x => ?_
    refine (yields_parseActionStatement fuel set).bind fun body => reads_pure ?_
    simp [ModuleItemTree.words]

theorem yields_parseModuleItem : Yields view (parseModuleItem fuel set) ModuleItemTree.words := by
  refine fun pre => reads_onNext (fun _ _ hp => reads_definitionCase fuel set hp) ?_
  refine (yields_peekAhead 0).bind fun k => ?_
  refine (yields_peekAhead 1).bind fun next => ?_
  split_ifs
  · refine (yields_parseInternalDecl (yields_parseExpr fuel) fuel).bind fun d => reads_pure ?_
    simp [ModuleItemTree.words]
  · refine (yields_parseActionStatement fuel set).bind fun s => reads_pure ?_
    simp [ModuleItemTree.words]

theorem yields_moduleEnd : Yields view moduleEnd fun _ => [] := by
  intro pre
  refine (yields_peekAhead 0).bind fun k => ?_
  split_ifs
  · exact reads_pure (by simp)
  · refine yields_consumeLineMarkers.bind fun _ => ?_
    exact (yields_peekAhead 0).bind fun k => reads_pure (by simp)

/-- **What `parseModuleBlock` reads without an error has the words of
its tree.** -/
theorem yields_parseModuleBlock : Yields view (parseModuleBlock fuel set) ModuleTree.words := by
  intro pre
  refine (yields_expect rfl _).bind fun kw => ?_
  refine (yields_expectName _).bind fun x => ?_
  refine (yields_expect rfl _).bind fun _ => ?_
  refine (yields_itemLoop yields_moduleEnd (yields_parseModuleItem fuel _) _ fuel).bind
    fun items => ?_
  refine (yields_expect rfl _).bind fun _ => reads_pure ?_
  simp [ModuleTree.words]

end Reads

end Parse

end Nslc
