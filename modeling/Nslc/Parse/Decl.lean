import Nslc.Parse.Expr
/-!
# Parse — internal declarations

`parseInternalDecl` of `ParseDecl.cpp`. The tree keeps every declarator
that is read; `toDecls` are the declarations that get into the syntax
tree: the one that is returned, then those put aside for the caller.
-/

namespace Nslc

namespace Parse

open AST Nslc.Lex Descent

/-! ## Trees -/

/-- `x`, or `x[e]`. -/
structure SizedTree where
  name : Ident
  size : Option ExprTree

/-- `x[e] = e` -/
structure RegTree where
  name : Ident
  width : Option ExprTree
  init : Option ExprTree

/-- `x`, or `x(a, b)`. -/
structure ProcTree where
  name : Ident
  args : Option (List Ident)

inductive InitTree where
  | none
  | scalar (e : ExprTree)
  /-- `{ a, b }` -/
  | list (es : List ExprTree)

structure StructInstTree where
  name : Ident
  size : Option ExprTree
  init : InitTree

structure ParamTree where
  name : Ident
  value : ExprTree

/-- The parameter assignments of an instance. -/
inductive ParamsTree where
  | none
  | read (ps : List ParamTree)
  /-- Tokens up to the next `)`. -/
  | skipped (ts : List Tok)

structure InstanceTree where
  name : Ident
  size : Option ExprTree
  params : ParamsTree

inductive InternalTree where
  | wire (loc : Loc) (first : SizedTree) (more : List SizedTree)
  | reg (loc : Loc) (first : RegTree) (more : List RegTree)
  | funcSelf (loc : Loc) (name : Ident) (args : Option (List Ident)) (ret : Option Ident)
  | procName (loc : Loc) (first : ProcTree) (more : List ProcTree)
  | stateName (loc : Loc) (first : Ident) (more : List Ident)
  | firstState (target : Ident)
  | mem (loc : Loc) (name : Ident) (depth width : ExprTree) (init : Option (List ExprTree))
  | integer (loc : Loc) (first : Ident) (more : List Ident)
  | variable (loc : Loc) (first : SizedTree) (more : List SizedTree)
  | structInst (loc : Loc) (typeName : Ident) (kind : StorageKind) (first : StructInstTree)
      (more : List StructInstTree)
  | submodule (loc : Loc) (templateName : Ident) (first : InstanceTree) (more : List InstanceTree)

/-! ## Rules -/

section Rules

variable (expr : Rule ExprTree) (fuel : ℕ)

/-- `[e]`, or nothing. -/
def bracketed (what : String) : Rule (Option ExprTree) := do
  if ← accept .lbracket then
    let e ← expr
    let _ ← expect .rbracket what
    return some e
  else return none

/-- `= e`, or nothing. -/
def initializer : Rule (Option ExprTree) := do
  if ← accept .assign then
    let e ← expr
    return some e
  else return none

/-- `(a, b)`, or nothing. -/
def identList (one next what : String) : Rule (Option (List Ident)) := do
  if ← accept .lparen then
    let ts ← listUpTo .rparen (expect .identifier one) (expect .identifier next) what fuel
    return some (ts.map (·.tok.spelling))
  else return none

/-- The declarators of a declaration, and its `;`. -/
def declarators {α : Type} (one next : Rule α) (what : String) : Rule (α × List α) := do
  let first ← one
  let more ← moreOf .comma next fuel
  let _ ← expect .semicolon what
  return (first, more)

def wireInit : String := "'wire' may not have an initializer; use 'reg' instead (S2)"

def wireDeclarator (what : String) : Rule SizedTree := do
  let x ← expectIdentifierAllowLabel what
  let width ← bracketed expr "']' after wire width"
  let idx ← position
  if ← accept .assign then
    let _ ← expr.attempt
    Rule.note ⟨true, idx, wireInit⟩
    return ⟨x.tok.spelling, width⟩
  else return ⟨x.tok.spelling, width⟩

def regDeclarator (what : String) : Rule RegTree := do
  let x ← expect .identifier what
  let width ← bracketed expr "']' after register width"
  let init ← initializer expr
  return ⟨x.tok.spelling, width, init⟩

def procDeclarator (what : String) : Rule ProcTree := do
  let x ← expect .identifier what
  let args ← identList fuel "proc_name reg-arg" "proc_name reg-arg after ','"
    "')' after proc_name reg-args"
  return ⟨x.tok.spelling, args⟩

def variableDeclarator (what : String) : Rule SizedTree := do
  let x ← expect .identifier what
  let width ← bracketed expr "']' after variable width"
  return ⟨x.tok.spelling, width⟩

def nameDeclarator (what : String) : Rule Ident := do
  let x ← expect .identifier what
  return x.tok.spelling

/-- `{ a, b }`, or a value, behind `=`. -/
def structInit : Rule InitTree := do
  if ← accept .assign then
    if ← accept .lbrace then
      let es ← listUpTo .rbrace expr expr "'\x7d' to close struct-instance initializer" fuel
      return .list es
    else
      let e ← expr
      return .scalar e
  else return .none

def structInstDeclarator (what : String) : Rule StructInstTree := do
  let x ← expect .identifier what
  let size ← bracketed expr "']' after struct-instance array size"
  let init ← structInit expr fuel
  return ⟨x.tok.spelling, size, init⟩

def paramAssign : Rule ParamTree := do
  let x ← expect .identifier "parameter-assignment name"
  let _ ← expect .assign "'=' in parameter-assignment"
  let value ← expr
  return ⟨x.tok.spelling, value⟩

def paramAssigns : Rule ParamsTree := do
  if ← accept .lparen then
    let ps ← listUpTo .rparen (paramAssign expr) (paramAssign expr)
      "')' after parameter-assignment list" fuel
    return .read ps
  else return .none

/-- Behind the first instance the assignments are passed over. -/
def skippedParams : Rule ParamsTree := do
  if ← accept .lparen then
    let ts ← dropTokens fun k => !(k == .rparen || k == .eof)
    let _ ← expect .rparen "')' after parameter-assignment list"
    return .skipped ts
  else return .none

def instanceDeclarator (params : Rule ParamsTree) (what : String) : Rule InstanceTree := do
  let x ← expect .identifier what
  let size ← bracketed expr "']' after submodule-instance array size"
  let ps ← params
  return ⟨x.tok.spelling, size, ps⟩

/-- `= { a, b }`, or nothing. -/
def memInit : Rule (Option (List ExprTree)) := do
  if ← accept .assign then
    let _ ← expect .lbrace "'\x7b' for mem initializer list"
    let es ← listUpTo .rbrace expr expr "'\x7d' to close mem initializer list" fuel
    return some es
  else return none

/-- Behind `mem` at the token `idx`. -/
def memDecl (idx : ℕ) : Rule InternalTree := do
  let x ← expect .identifier "mem name"
  let _ ← expect .lbracket "'[' for mem depth"
  let depth ← expr
  let _ ← expect .rbracket "']' after mem depth"
  let _ ← expect .lbracket "'[' for mem width"
  let width ← expr
  let _ ← expect .rbracket "']' after mem width"
  let init ← memInit expr fuel
  let _ ← expect .semicolon "';' after mem declaration"
  return .mem idx x.tok.spelling depth width init

/-- `: x`, or nothing. -/
def returnTerminal : Rule (Option Ident) := do
  if ← accept .colon then
    let r ← expect .identifier "return-terminal identifier"
    return some r.tok.spelling
  else return none

/-- Behind `func_self` at the token `idx`. -/
def funcSelfDecl (idx : ℕ) : Rule InternalTree := do
  let x ← expect .identifier "func_self name"
  let args ← identList fuel "dummy-arg identifier" "dummy-arg identifier after ','"
    "')' after dummy-arg list"
  let ret ← returnTerminal
  let _ ← expect .semicolon "';' after func_self declaration"
  return .funcSelf idx x.tok.spelling args ret

def structInstDecl (type : At) (kind : StorageKind) : Rule InternalTree := do
  let (first, more) ← declarators fuel (structInstDeclarator expr fuel "struct-instance name")
    (structInstDeclarator expr fuel "struct-instance name after ','")
    "';' after struct-instance declaration"
  return .structInst type.idx type.tok.spelling kind first more

def submoduleDecl (type : At) : Rule InternalTree := do
  let (first, more) ← declarators fuel
    (instanceDeclarator expr (paramAssigns expr fuel) "submodule-instance name")
    (instanceDeclarator expr skippedParams "submodule-instance name after ','")
    "';' after submodule declaration"
  return .submodule type.idx type.tok.spelling first more

/-- Behind the name of a struct or of a module. -/
def typedDecl (type : At) : Rule InternalTree :=
  onNext (fun t =>
    match t.tok.kind with
    | .reg => some (structInstDecl expr fuel type .reg)
    | .wire => some (structInstDecl expr fuel type .wire)
    | _ => none) do
      if (← peekKind) = .identifier then submoduleDecl expr fuel type
      else reject ("expected 'reg' / 'wire' (struct-instance) or identifier " ++
        "(submodule-instance)")

def internalCase (t : At) : Option (Rule InternalTree) :=
  match t.tok.kind with
  | .wire => some do
    let (first, more) ← declarators fuel (wireDeclarator expr "wire name")
      (wireDeclarator expr "wire name after ','") "';' after wire declaration"
    return .wire t.idx first more
  | .reg => some do
    let (first, more) ← declarators fuel (regDeclarator expr "register name")
      (regDeclarator expr "register name after ','") "';' after register declaration"
    return .reg t.idx first more
  | .funcSelf => some (funcSelfDecl fuel t.idx)
  | .procName => some do
    let (first, more) ← declarators fuel (procDeclarator fuel "proc_name identifier")
      (procDeclarator fuel "proc_name identifier after ','") "';' after proc_name declaration"
    return .procName t.idx first more
  | .stateName => some do
    let (first, more) ← declarators fuel (nameDeclarator "state name")
      (nameDeclarator "state name after ','") "';' after state_name declaration"
    return .stateName t.idx first more
  | .firstState => some do
    let x ← expect .identifier "first_state target"
    let _ ← expect .semicolon "';' after first_state declaration"
    return .firstState x.tok.spelling
  | .mem => some (memDecl expr fuel t.idx)
  | .integer => some do
    let (first, more) ← declarators fuel (nameDeclarator "integer name")
      (nameDeclarator "integer name after ','") "';' after integer declaration"
    return .integer t.idx first more
  | .variable_ => some do
    let (first, more) ← declarators fuel (variableDeclarator expr "variable name")
      (variableDeclarator expr "variable name after ','") "';' after variable declaration"
    return .variable t.idx first more
  | .identifier => some (typedDecl expr fuel t)
  | _ => none

def parseInternalDecl : Rule InternalTree :=
  onNext (internalCase expr fuel) (reject "expected internal_declaration")

end Rules

/-! ## Declarations -/

def ParamTree.toAssign (p : ParamTree) : ParamAssign := ⟨p.name, p.value.toExpr⟩

def InitTree.toExprs : InitTree → List Expr
  | .none => []
  | .scalar e => [e.toExpr]
  | .list es => es.map ExprTree.toExpr

def InstanceTree.toInstance (i : InstanceTree) : Instance := ⟨i.name, i.size.map ExprTree.toExpr⟩

/-- The assignments that were parsed. -/
def ParamsTree.assigns : ParamsTree → List ParamAssign
  | .read ps => ps.map ParamTree.toAssign
  | _ => []

namespace InternalTree

/-- The declaration that is returned and `pendingExtraDecls_`. -/
def toDecls : InternalTree → List Decl
  | .wire loc first more =>
    (first :: more).map fun d => .wire loc d.name (d.size.map ExprTree.toExpr)
  | .reg loc first more =>
    (first :: more).map fun d =>
      .reg loc d.name (d.width.map ExprTree.toExpr) (d.init.map ExprTree.toExpr)
  | .funcSelf loc x args ret => [.funcSelf loc x (args.getD []) (ret.getD [])]
  | .procName loc first _ => [.procName loc first.name (first.args.getD [])]
  | .stateName loc first more => [.stateName loc (first :: more)]
  | .firstState target => [.firstState target]
  | .mem loc x depth width init =>
    [.mem loc x depth.toExpr width.toExpr ((init.getD []).map ExprTree.toExpr)]
  | .integer loc first more => (first :: more).map fun x => .integer loc x
  | .variable loc first more =>
    (first :: more).map fun d => .variable loc d.name (d.size.map ExprTree.toExpr)
  | .structInst loc type kind first _ =>
    [.structInst loc type first.name kind (first.size.map ExprTree.toExpr) first.init.toExprs]
  | .submodule loc template first more =>
    [.submodule loc template ((first :: more).map InstanceTree.toInstance) first.params.assigns]

end InternalTree

/-! ## Words -/

/-- `[e]` -/
def sizeWords : Option ExprTree → List Word
  | none => []
  | some e => .sym .lbracket :: (e.words ++ [.sym .rbracket])

/-- `= e` -/
def initWords : Option ExprTree → List Word
  | none => []
  | some e => .sym .assign :: e.words

/-- `(a, b)` -/
def identsWords : Option (List Ident) → List Word
  | none => []
  | some xs => .sym .lparen :: (commaWords (fun x => [.name x]) xs ++ [.sym .rparen])

/-- `{ a, b }` -/
def bracesWords (es : List ExprTree) : List Word :=
  .sym .lbrace :: (commaWords ExprTree.words es ++ [.sym .rbrace])

def SizedTree.words (d : SizedTree) : List Word := .name d.name :: sizeWords d.size

def RegTree.words (d : RegTree) : List Word :=
  .name d.name :: (sizeWords d.width ++ initWords d.init)

def ProcTree.words (d : ProcTree) : List Word := .name d.name :: identsWords d.args

def InitTree.words : InitTree → List Word
  | .none => []
  | .scalar e => .sym .assign :: e.words
  | .list es => .sym .assign :: bracesWords es

def StructInstTree.words (d : StructInstTree) : List Word :=
  .name d.name :: (sizeWords d.size ++ d.init.words)

def ParamTree.words (p : ParamTree) : List Word := [.name p.name, .sym .assign] ++ p.value.words

def ParamsTree.words : ParamsTree → List Word
  | .none => []
  | .read ps => .sym .lparen :: (commaWords ParamTree.words ps ++ [.sym .rparen])
  | .skipped ts => .sym .lparen :: (wordsOf ts ++ [.sym .rparen])

def InstanceTree.words (d : InstanceTree) : List Word :=
  .name d.name :: (sizeWords d.size ++ d.params.words)

def memInitWords : Option (List ExprTree) → List Word
  | none => []
  | some es => .sym .assign :: bracesWords es

def returnWords : Option Ident → List Word
  | none => []
  | some r => [.sym .colon, .name r]

def StorageKind.kind : StorageKind → TokenKind
  | .reg => .reg
  | .wire => .wire

/-- The declarators of a declaration, and its `;`. -/
def listWords {α : Type} (words : α → List Word) (first : α) (more : List α) : List Word :=
  commaWords words (first :: more) ++ [.sym .semicolon]

def InternalTree.words : InternalTree → List Word
  | .wire _ first more => .sym .wire :: listWords SizedTree.words first more
  | .reg _ first more => .sym .reg :: listWords RegTree.words first more
  | .funcSelf _ x args ret =>
    [.sym .funcSelf, .name x] ++ (identsWords args ++
      (returnWords ret ++ [.sym .semicolon]))
  | .procName _ first more => .sym .procName :: listWords ProcTree.words first more
  | .stateName _ first more => .sym .stateName :: listWords (fun x => [.name x]) first more
  | .firstState target => [.sym .firstState, .name target, .sym .semicolon]
  | .mem _ x depth width init =>
    [.sym .mem, .name x] ++ (sizeWords (some depth) ++ (sizeWords (some width) ++
      (memInitWords init ++ [.sym .semicolon])))
  | .integer _ first more => .sym .integer :: listWords (fun x => [.name x]) first more
  | .variable _ first more => .sym .variable_ :: listWords SizedTree.words first more
  | .structInst _ type kind first more =>
    [.name type, .sym (StorageKind.kind kind)] ++ listWords StructInstTree.words first more
  | .submodule _ template first more => .name template :: listWords InstanceTree.words first more

/-! ## A tree has the words that were read -/

section Reads

variable {expr : Rule ExprTree} (hexpr : Yields view expr ExprTree.words) (fuel : ℕ)

omit hexpr in
theorem yields_identList (one next what : String) :
    Yields view (identList fuel one next what) identsWords := by
  intro pre
  refine (yields_accept rfl).bind fun b => ?_
  cases b with
  | true =>
    refine (yields_listUpTo rfl (yields_expectName one) (yields_expectName next) what fuel).bind
      fun ts => reads_pure ?_
    cases ts with
    | nil => simp [identsWords, commaWords]
    | cons t ts => simp [identsWords, commaWords, List.flatMap_map]
  | false => exact reads_pure rfl

theorem yields_declarators {α : Type} {one next : Rule α} {words : α → List Word}
    (hone : Yields view one words) (hnext : Yields view next words) (what : String) :
    Yields view (declarators fuel one next what) fun ds => listWords words ds.1 ds.2 := by
  intro pre
  refine hone.bind fun first => ?_
  refine (yields_moreOf rfl hnext fuel).bind fun more => ?_
  refine (yields_expect rfl what).bind fun _ => reads_pure ?_
  simp [listWords, commaWords]

theorem yields_nameDeclarator (what : String) :
    Yields view (nameDeclarator what) fun x => [.name x] :=
  fun _ => (yields_expectName what).bind fun _ => reads_pure rfl

theorem yields_procDeclarator (what : String) :
    Yields view (procDeclarator fuel what) ProcTree.words := by
  intro pre
  refine (yields_expectName what).bind fun x => ?_
  refine (yields_identList fuel _ _ _).bind fun args => reads_pure ?_
  simp [ProcTree.words]

include hexpr

theorem yields_bracketed (what : String) : Yields view (bracketed expr what) sizeWords := by
  intro pre
  refine (yields_accept rfl).bind fun b => ?_
  cases b with
  | true =>
    refine hexpr.bind fun e => ?_
    refine (yields_expect rfl what).bind fun _ => reads_pure ?_
    simp [sizeWords]
  | false => exact reads_pure rfl

theorem yields_initializer : Yields view (initializer expr) initWords := by
  intro pre
  refine (yields_accept rfl).bind fun b => ?_
  cases b with
  | true => exact hexpr.bind fun e => reads_pure (by simp [initWords])
  | false => exact reads_pure rfl

theorem yields_wireDeclarator (what : String) :
    Yields view (wireDeclarator expr what) SizedTree.words := by
  intro pre
  refine (yields_identifierLike _).bind fun x => ?_
  refine (yields_bracketed hexpr _).bind fun width => ?_
  refine yields_position.bind fun idx => ?_
  refine (yields_accept rfl).bind fun b => ?_
  cases b with
  | true =>
    refine reads_bind (reads_attempt (hexpr _)) fun _ _ _ => ?_
    exact reads_reject rfl
  | false => exact reads_pure (by simp [SizedTree.words])

theorem yields_regDeclarator (what : String) :
    Yields view (regDeclarator expr what) RegTree.words := by
  intro pre
  refine (yields_expectName what).bind fun x => ?_
  refine (yields_bracketed hexpr _).bind fun width => ?_
  refine (yields_initializer hexpr).bind fun init => reads_pure ?_
  simp [RegTree.words]

theorem yields_variableDeclarator (what : String) :
    Yields view (variableDeclarator expr what) SizedTree.words := by
  intro pre
  refine (yields_expectName what).bind fun x => ?_
  refine (yields_bracketed hexpr _).bind fun width => reads_pure ?_
  simp [SizedTree.words]

theorem yields_structInit : Yields view (structInit expr fuel) InitTree.words := by
  intro pre
  refine (yields_accept rfl).bind fun b => ?_
  cases b with
  | true =>
    refine (yields_accept rfl).bind fun b => ?_
    cases b with
    | true =>
      refine (yields_listUpTo rfl hexpr hexpr _ fuel).bind fun es => reads_pure ?_
      simp [InitTree.words, bracesWords]
    | false => exact hexpr.bind fun e => reads_pure (by simp [InitTree.words])
  | false => exact reads_pure rfl

theorem yields_structInstDeclarator (what : String) :
    Yields view (structInstDeclarator expr fuel what) StructInstTree.words := by
  intro pre
  refine (yields_expectName what).bind fun x => ?_
  refine (yields_bracketed hexpr _).bind fun size => ?_
  refine (yields_structInit hexpr fuel).bind fun init => reads_pure ?_
  simp [StructInstTree.words]

theorem yields_paramAssign : Yields view (paramAssign expr) ParamTree.words := by
  intro pre
  refine (yields_expectName _).bind fun x => ?_
  refine (yields_expect rfl _).bind fun _ => ?_
  exact hexpr.bind fun value => reads_pure (by simp [ParamTree.words])

theorem yields_paramAssigns : Yields view (paramAssigns expr fuel) ParamsTree.words := by
  intro pre
  refine (yields_accept rfl).bind fun b => ?_
  cases b with
  | true =>
    refine (yields_listUpTo rfl (yields_paramAssign hexpr) (yields_paramAssign hexpr) _
      fuel).bind fun ps => reads_pure ?_
    simp [ParamsTree.words]
  | false => exact reads_pure rfl

omit hexpr in
theorem yields_skippedParams : Yields view skippedParams ParamsTree.words := by
  intro pre
  refine (yields_accept rfl).bind fun b => ?_
  cases b with
  | true =>
    refine reads_bind (reads_dropTokens _) ?_
    rintro ts ws ⟨-, rfl⟩
    refine (yields_expect rfl _).bind fun _ => reads_pure ?_
    simp [ParamsTree.words]
  | false => exact reads_pure rfl

theorem yields_instanceDeclarator {params : Rule ParamsTree}
    (hparams : Yields view params ParamsTree.words) (what : String) :
    Yields view (instanceDeclarator expr params what) InstanceTree.words := by
  intro pre
  refine (yields_expectName what).bind fun x => ?_
  refine (yields_bracketed hexpr _).bind fun size => ?_
  refine hparams.bind fun ps => reads_pure ?_
  simp [InstanceTree.words]

theorem yields_memInit : Yields view (memInit expr fuel) memInitWords := by
  intro pre
  refine (yields_accept rfl).bind fun b => ?_
  cases b with
  | true =>
    refine (yields_expect rfl _).bind fun _ => ?_
    refine (yields_listUpTo rfl hexpr hexpr _ fuel).bind fun es => reads_pure ?_
    simp [memInitWords, bracesWords]
  | false => exact reads_pure rfl

omit hexpr in
theorem yields_returnTerminal : Yields view returnTerminal returnWords := by
  intro pre
  refine (yields_accept rfl).bind fun b => ?_
  cases b with
  | true => exact (yields_expectName _).bind fun r => reads_pure (by simp [returnWords])
  | false => exact reads_pure rfl

theorem reads_memDecl (idx : ℕ) {pre : List Word} :
    Reads view (memDecl expr fuel idx) (pre ++ [.sym .mem]) fun d ws => ws = pre ++ d.words := by
  refine (yields_expectName _).bind fun x => ?_
  refine (yields_expect rfl _).bind fun _ => ?_
  refine hexpr.bind fun depth => ?_
  refine (yields_expect rfl _).bind fun _ => ?_
  refine (yields_expect rfl _).bind fun _ => ?_
  refine hexpr.bind fun width => ?_
  refine (yields_expect rfl _).bind fun _ => ?_
  refine (yields_memInit hexpr fuel).bind fun init => ?_
  refine (yields_expect rfl _).bind fun _ => reads_pure ?_
  simp [InternalTree.words, sizeWords]

omit hexpr in
theorem reads_funcSelfDecl (idx : ℕ) {pre : List Word} :
    Reads view (funcSelfDecl fuel idx) (pre ++ [.sym .funcSelf]) fun d ws =>
      ws = pre ++ d.words := by
  refine (yields_expectName _).bind fun x => ?_
  refine (yields_identList fuel _ _ _).bind fun args => ?_
  refine yields_returnTerminal.bind fun ret => ?_
  refine (yields_expect rfl _).bind fun _ => reads_pure ?_
  simp [InternalTree.words]

theorem reads_typedDecl {type : At} {pre : List Word} :
    Reads view (typedDecl expr fuel type) (pre ++ [.name type.tok.spelling]) fun d ws =>
      ws = pre ++ d.words := by
  have hstruct : ∀ what, Yields view (structInstDeclarator expr fuel what) StructInstTree.words :=
    yields_structInstDeclarator hexpr fuel
  refine reads_onNext (fun t p hp => ?_) ?_
  · split at hp
    · rename_i hk
      obtain rfl := Option.some.inj hp
      rw [wordsOf_of_kind hk rfl]
      refine (yields_declarators fuel (hstruct _) (hstruct _) _).bind fun ds => reads_pure ?_
      simp [InternalTree.words, StorageKind.kind]
    · rename_i hk
      obtain rfl := Option.some.inj hp
      rw [wordsOf_of_kind hk rfl]
      refine (yields_declarators fuel (hstruct _) (hstruct _) _).bind fun ds => reads_pure ?_
      simp [InternalTree.words, StorageKind.kind]
    · cases hp
  · refine (yields_peekAhead 0).bind fun k => ?_
    split_ifs
    · have hfirst := yields_instanceDeclarator hexpr (yields_paramAssigns hexpr fuel)
      have hmore := yields_instanceDeclarator hexpr yields_skippedParams
      refine (yields_declarators fuel (hfirst _) (hmore _) _).bind fun ds => reads_pure ?_
      simp [InternalTree.words]
    · exact reads_rejected _

theorem reads_internalCase {t : At} {p : Rule InternalTree}
    (hp : internalCase expr fuel t = some p) {pre : List Word} :
    Reads view p (pre ++ wordsOf [t.tok]) fun d ws => ws = pre ++ d.words := by
  unfold internalCase at hp
  split at hp
  · rename_i hk
    obtain rfl := Option.some.inj hp
    rw [wordsOf_of_kind hk rfl]
    have hone := yields_wireDeclarator hexpr
    refine (yields_declarators fuel (hone _) (hone _) _).bind fun ds => reads_pure ?_
    simp [InternalTree.words]
  · rename_i hk
    obtain rfl := Option.some.inj hp
    rw [wordsOf_of_kind hk rfl]
    have hone := yields_regDeclarator hexpr
    refine (yields_declarators fuel (hone _) (hone _) _).bind fun ds => reads_pure ?_
    simp [InternalTree.words]
  · rename_i hk
    obtain rfl := Option.some.inj hp
    rw [wordsOf_of_kind hk rfl]
    exact reads_funcSelfDecl fuel t.idx
  · rename_i hk
    obtain rfl := Option.some.inj hp
    rw [wordsOf_of_kind hk rfl]
    have hone := yields_procDeclarator fuel
    refine (yields_declarators fuel (hone _) (hone _) _).bind fun ds => reads_pure ?_
    simp [InternalTree.words]
  · rename_i hk
    obtain rfl := Option.some.inj hp
    rw [wordsOf_of_kind hk rfl]
    refine (yields_declarators fuel (yields_nameDeclarator _) (yields_nameDeclarator _) _).bind
      fun ds => reads_pure ?_
    simp [InternalTree.words]
  · rename_i hk
    obtain rfl := Option.some.inj hp
    rw [wordsOf_of_kind hk rfl]
    refine (yields_expectName _).bind fun x => ?_
    refine (yields_expect rfl _).bind fun _ => reads_pure ?_
    simp [InternalTree.words]
  · rename_i hk
    obtain rfl := Option.some.inj hp
    rw [wordsOf_of_kind hk rfl]
    exact reads_memDecl hexpr fuel t.idx
  · rename_i hk
    obtain rfl := Option.some.inj hp
    rw [wordsOf_of_kind hk rfl]
    refine (yields_declarators fuel (yields_nameDeclarator _) (yields_nameDeclarator _) _).bind
      fun ds => reads_pure ?_
    simp [InternalTree.words]
  · rename_i hk
    obtain rfl := Option.some.inj hp
    rw [wordsOf_of_kind hk rfl]
    have hone := yields_variableDeclarator hexpr
    refine (yields_declarators fuel (hone _) (hone _) _).bind fun ds => reads_pure ?_
    simp [InternalTree.words]
  · rename_i hk
    obtain rfl := Option.some.inj hp
    rw [wordsOf_of_isMemberName (by simp [isMemberName, hk])]
    exact reads_typedDecl hexpr fuel
  · cases hp

/-- **What `parseInternalDecl` reads without an error has the words of
its tree.** -/
theorem yields_parseInternalDecl : Yields view (parseInternalDecl expr fuel) InternalTree.words :=
  fun _ => reads_onNext (fun _ _ hp => reads_internalCase hexpr fuel hp) (reads_rejected _)

end Reads

end Parse

end Nslc
