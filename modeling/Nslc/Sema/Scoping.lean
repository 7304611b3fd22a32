import Nslc.Sema.Resolution
/-!
# Sema — lexical scoping

What the resolution pass is for: every use of a name is bound to the
innermost declaration around it. The reference threads an environment of
scopes through the unit; a declaration is in scope behind it in its
construct, one among the items of a block in the whole block. The walker
keeps its scopes on a stack instead, and leaves out the declarations of
blocks and the initial value of a `generate`; where these do not matter
(`clear`) it finds what the reference finds.
-/

namespace Nslc

namespace Sema

open AST

/-! ## Uses -/

/-- A use and the declaration it is bound to; the binding of a use in an
expression is recorded. -/
structure Binding where
  use : Use
  inExpr : Bool
  target : Option Symbol
  deriving DecidableEq, Repr

def Binding.resolution? (b : Binding) : Option (Use × Symbol) :=
  if b.inExpr then b.target.map (b.use, ·) else none

mutual

/-- The names an expression uses, in the order of its parts. -/
def exprUses (e : Expr) : List Use :=
  match e with
  | .literal _ _ | .systemVar _ => []
  | .identifier loc name => (name.head?.map (Use.mk loc)).toList
  | .unary _ sub => exprUses sub
  | .binary _ lhs rhs => exprUses lhs ++ exprUses rhs
  | .conditional cond thenE elseE => exprUses cond ++ exprUses thenE ++ exprUses elseE
  | .concat parts => exprsUses parts
  | .repeat count body => exprUses count ++ exprUses body
  | .signExtend width sub => exprUses width ++ exprUses sub
  | .zeroExtend width sub => exprUses width ++ exprUses sub
  | .slice _ sub hi lo => exprUses sub ++ exprUses hi ++ exprUses? lo
  | .fieldAccess obj _ => exprUses obj
  | .call loc target args =>
    match target with
    | [name] => ⟨loc, name⟩ :: exprsUses args
    | _ => exprsUses args
  | .structCast _ sub _ => exprUses sub
  | .incDec target _ _ => exprUses target

def exprsUses (es : List Expr) : List Use :=
  match es with
  | [] => []
  | e :: es => exprUses e ++ exprsUses es

def exprUses? (e : Option Expr) : List Use :=
  match e with
  | none => []
  | some e => exprUses e

end

/-- The use bound in the environment `env`, innermost scope first. -/
def bind (env : List Scope) (inExpr : Bool) (u : Use) : Binding :=
  ⟨u, inExpr, SymbolTable.findIn env u.name⟩

def bindAll (env : List Scope) (us : List Use) : List Binding := us.map (bind env true)

/-! ## The reference -/

/-- Declare in the innermost scope; the first declaration of a name
stands. -/
def addSymbol (env : List Scope) (sym : Symbol) : List Scope :=
  match env with
  | [] => []
  | s :: ss => (s.insert sym).getD s :: ss

/-- The symbols a declaration among a block's items declares. -/
def blockSymbols : Decl → List Symbol
  | .reg loc name width _ => [⟨.reg, name, loc, some (.bitVector (widthOr1 width))⟩]
  | .wire loc name width => [⟨.wire, name, loc, some (.bitVector (widthOr1 width))⟩]
  | .variable loc name width => [⟨.variable, name, loc, some (.bitVector (widthOr1 width))⟩]
  | .integer loc name => [⟨.integer, name, loc, some (.bitVector 64)⟩]
  | .mem loc name depth width _ =>
    [⟨.mem, name, loc, some (.memory (widthOr1 depth) (widthOr1 width))⟩]
  | .funcSelf loc name _ _ => [⟨.funcSelf, name, loc, some .bit⟩]
  | .procName loc name _ => [⟨.proc, name, loc, some .bit⟩]
  | .stateName loc names => names.map fun name => ⟨.state, name, loc, some .bit⟩
  | .submodule loc _ instances _ => instances.map fun i => ⟨.submodule, i.name, loc, some .bit⟩
  | .structInst loc _ instanceName _ _ _ => [⟨.reg, instanceName, loc, some (.bitVector 1)⟩]
  | _ => []

/-- The scope of a block. -/
def blockScope (decls : List Decl) : Scope := ⟨.seqOrParallel, decls.flatMap blockSymbols⟩

/-- The scope of a `generate`, with its loop variable. -/
def loopScope (loc : Loc) (init : Ident) : Scope :=
  ⟨.seqOrParallel, if init = [] then [] else [⟨.integer, init, loc, some (.bitVector 64)⟩]⟩

/-- The expressions of a declaration among a block's items. -/
def blockExprs : Decl → List Expr
  | .reg _ _ width init => width.toList ++ init.toList
  | .wire _ _ width | .variable _ _ width => width.toList
  | .mem _ _ depth width init => depth :: width :: init
  | .submodule _ _ instances paramAssigns =>
    instances.filterMap Instance.arraySize ++ paramAssigns.map ParamAssign.value
  | .structInst _ _ _ _ arraySize init => arraySize.toList ++ init
  | _ => []

mutual

def stmtBindings (env : List Scope) (s : Stmt) : List Binding :=
  match s with
  | .transfer _ _ lhs rhs => bindAll env (exprUses lhs ++ exprUses rhs)
  | .incDec target _ _ => bindAll env (exprUses target)
  | .controlCall loc target args =>
    match target with
    | [name] => bind env false ⟨loc, name⟩ :: bindAll env (exprsUses args)
    | _ => bindAll env (exprsUses args)
  | .bareFinish _ | .empty | .goto _ => []
  | .systemTask _ args => bindAll env (exprsUses args)
  | .return _ value => bindAll env (exprUses? value)
  | .labeled _ body => stmtBindings? env body
  | .initBlock items => stmtsBindings env items
  | .delayTask count => bindAll env (exprUses count)
  | .parallel items decls | .seq items decls =>
    declsBindings (blockScope decls :: env) decls ++ stmtsBindings (blockScope decls :: env) items
  | .alt cases elseCase | .any cases elseCase =>
    casesBindings env cases ++ stmtBindings? env elseCase
  | .while cond items => bindAll env (exprUses cond) ++ stmtsBindings env items
  | .for init cond step items =>
    stmtBindings env init ++ bindAll env (exprUses cond) ++ stmtBindings? env step ++
      stmtsBindings env items
  | .if cond thenBr elseBr =>
    bindAll env (exprUses cond) ++ stmtBindings env thenBr ++ stmtBindings? env elseBr
  | .generate loc init initValue cond step body =>
    bindAll env (exprUses initValue) ++
      bindAll (loopScope loc init :: env) (exprUses cond ++ exprUses step) ++
      stmtBindings (loopScope loc init :: env) body

def stmtsBindings (env : List Scope) (ss : List Stmt) : List Binding :=
  match ss with
  | [] => []
  | s :: ss => stmtBindings env s ++ stmtsBindings env ss

def stmtBindings? (env : List Scope) (s : Option Stmt) : List Binding :=
  match s with
  | none => []
  | some s => stmtBindings env s

def casesBindings (env : List Scope) (cs : List CondCase) : List Binding :=
  match cs with
  | [] => []
  | ⟨cond, body⟩ :: cs =>
    bindAll env (exprUses cond) ++ stmtBindings env body ++ casesBindings env cs

/-- The uses in the declarations of a block, bound in the block. -/
def declBindings (env : List Scope) (d : Decl) : List Binding :=
  match d with
  | .funcDefn _ _ body | .procDefn _ _ body | .stateDefn _ _ body => stmtBindings env body
  | d => bindAll env (exprsUses (blockExprs d))

def declsBindings (env : List Scope) (ds : List Decl) : List Binding :=
  match ds with
  | [] => []
  | d :: ds => declBindings env d ++ declsBindings env ds

end

/-- A declaration and the expressions of it, which see it; the
expressions of a refused one are no uses. -/
def declareIn (env : List Scope) (sym : Symbol) (exprs : List Expr) : List Scope × List Binding :=
  match env with
  | [] => ([], [])
  | s :: ss =>
    match s.insert sym with
    | some s' => (s' :: ss, bindAll (s' :: ss) (exprsUses exprs))
    | none => (s :: ss, [])

/-- A definition declares its name where nothing else does. -/
def addMissing (env : List Scope) (sym : Symbol) : List Scope :=
  if (SymbolTable.findIn env sym.name).isSome then env else addSymbol env sym

/-- One after the other, the environment threaded through. -/
def threadAll {α : Type} (f : List Scope → α → List Scope × List Binding) :
    List Scope → List α → List Scope × List Binding
  | env, [] => (env, [])
  | env, a :: as =>
    let r := f env a
    let rs := threadAll f r.1 as
    (rs.1, r.2 ++ rs.2)

def paramBindings (env : List Scope) (p : TopLevelParamDecl) : List Scope × List Binding :=
  let env := addSymbol env ⟨.integer, p.name, p.loc, none⟩
  (env, bindAll env (exprUses? p.init))

def portBindings (env : List Scope) (p : PortDecl) : List Scope × List Binding :=
  let width := declaredWidth p.width
  let type := if width = 0 then Ty.bit else Ty.bitVector width
  declareIn env ⟨Walker.portKind p.direction, p.name, p.loc, some type⟩ p.width.toList

def terminalBindings (env : List Scope) (d : List TopLevelParamDecl × List PortDecl) :
    List Scope × List Binding :=
  let r := threadAll paramBindings env d.1
  let rs := threadAll portBindings r.1 d.2
  (rs.1, r.2 ++ rs.2)

mutual

/-- The environment behind a declaration of the unit or of a module, and
the bindings in it. -/
def itemBindings (cu : CompilationUnit) (env : List Scope) (d : Decl) :
    List Scope × List Binding :=
  match d with
  | .topLevelParam p => paramBindings env p
  | .struct loc name members =>
    declareIn env ⟨.structType, name, loc, some (.struct name (Walker.structWidth members))⟩
      (members.filterMap StructMember.width)
  | .declare _ _ _ _ headerParams ports =>
    (env, (terminalBindings (⟨.declare, []⟩ :: env) (headerParams, ports)).2)
  | .module _ name internals actions funcs procs =>
    let r :=
      match declareOf cu name with
      | some d => terminalBindings (⟨.module, []⟩ :: env) d
      | none => (⟨.module, []⟩ :: env, [])
    let r₁ := itemsBindings cu r.1 internals
    let r₂ := itemsBindings cu r₁.1 funcs
    let r₃ := itemsBindings cu r₂.1 procs
    (env, r.2 ++ r₁.2 ++ r₂.2 ++ r₃.2 ++ stmtsBindings r₃.1 actions)
  | .port p => portBindings env p
  | .reg loc name width init =>
    declareIn env ⟨.reg, name, loc, some (.bitVector (widthOr1 width))⟩
      (width.toList ++ init.toList)
  | .wire loc name width =>
    declareIn env ⟨.wire, name, loc, some (.bitVector (widthOr1 width))⟩ width.toList
  | .variable loc name width =>
    declareIn env ⟨.variable, name, loc, some (.bitVector (widthOr1 width))⟩ width.toList
  | .integer loc name => declareIn env ⟨.integer, name, loc, some (.bitVector 64)⟩ []
  | .mem loc name depth width init =>
    declareIn env ⟨.mem, name, loc, some (.memory (widthOr1 depth) (widthOr1 width))⟩
      (depth :: width :: init)
  | .funcSelf loc name _ _ => declareIn env ⟨.funcSelf, name, loc, some .bit⟩ []
  | .procName loc name _ => declareIn env ⟨.proc, name, loc, some .bit⟩ []
  | .stateName loc names =>
    threadAll (fun env name => declareIn env ⟨.state, name, loc, some .bit⟩ []) env names
  | .firstState _ => (env, [])
  | .submodule loc _ instances paramAssigns =>
    let r := threadAll (fun env i =>
      declareIn env ⟨.submodule, Instance.name i, loc, some .bit⟩ (Instance.arraySize i).toList)
      env instances
    (r.1, r.2 ++ bindAll r.1 (exprsUses (paramAssigns.map ParamAssign.value)))
  | .structInst loc _ instanceName _ arraySize init =>
    declareIn env ⟨.reg, instanceName, loc, some (.bitVector 1)⟩ (arraySize.toList ++ init)
  | .funcDefn loc name body =>
    let env :=
      match name with
      | [x] => addMissing env ⟨.funcIn, x, loc, some .bit⟩
      | _ => env
    (env, stmtBindings env body)
  | .procDefn loc name body =>
    let env := addMissing env ⟨.proc, name, loc, some .bit⟩
    (env, stmtBindings env body)
  | .stateDefn _ _ body => (env, stmtBindings env body)

def itemsBindings (cu : CompilationUnit) (env : List Scope) (ds : List Decl) :
    List Scope × List Binding :=
  match ds with
  | [] => (env, [])
  | d :: ds =>
    let r := itemBindings cu env d
    let rs := itemsBindings cu r.1 ds
    (rs.1, r.2 ++ rs.2)

end

/-- The uses of a unit with the declarations they are bound to. -/
def unitBindings (cu : CompilationUnit) : List Binding :=
  (itemsBindings cu [⟨.global, []⟩] cu).2

/-! ## What is asked of the pass -/

/-- The names the pass reports as unresolved, in the order of reports. -/
def unresolvedIn (ds : List Report) : List Ident :=
  ds.filterMap fun d =>
    match d.message with
    | .unresolvedName name => some name
    | .duplicateDeclaration _ => none

/-- **Name resolution is lexical scoping.** -/
structure LexicallyScoped (cu : CompilationUnit) : Prop where
  reported_iff : ∀ x, x ∈ unresolvedIn (runResolutionPass cu).diags ↔
    ∃ b ∈ unitBindings cu, b.use.name = x ∧ b.target = none
  once : (unresolvedIn (runResolutionPass cu).diags).Nodup
  bound : (runResolutionPass cu).resolutions = (unitBindings cu).filterMap Binding.resolution?

/-! ## Where the pass sees everything

The pass does not look at the declarations of a block. A unit is clear of
them when no name stands inside such a declaration and no use of the
block is of a name declared so; the initial value of a `generate` is not
looked at either. -/

/-- No use of a hidden name. -/
def usesClear (hidden : List Ident) (us : List Use) : Bool := us.all fun u => !hidden.contains u.name

/-- The names hidden in a block. -/
def hiddenIn (hidden : List Ident) (decls : List Decl) : List Ident :=
  hidden ++ (decls.flatMap blockSymbols).map Symbol.name

/-- The names hidden in a `generate`: its loop variable is seen. -/
def hiddenUnder (hidden : List Ident) (loc : Loc) (init : Ident) : List Ident :=
  hidden.filter fun x => ((loopScope loc init).lookupLocal x).isNone

mutual

def clear (hidden : List Ident) (s : Stmt) : Bool :=
  match s with
  | .transfer _ _ lhs rhs => usesClear hidden (exprUses lhs ++ exprUses rhs)
  | .incDec target _ _ => usesClear hidden (exprUses target)
  | .controlCall loc target args =>
    match target with
    | [name] => usesClear hidden (⟨loc, name⟩ :: exprsUses args)
    | _ => usesClear hidden (exprsUses args)
  | .bareFinish _ | .empty | .goto _ => true
  | .systemTask _ args => usesClear hidden (exprsUses args)
  | .return _ value => usesClear hidden (exprUses? value)
  | .labeled _ body => clear? hidden body
  | .initBlock items => clearAll hidden items
  | .delayTask count => usesClear hidden (exprUses count)
  | .parallel items decls | .seq items decls =>
    (declsBindings [] decls).isEmpty && clearAll (hiddenIn hidden decls) items
  | .alt cases elseCase | .any cases elseCase => clearCases hidden cases && clear? hidden elseCase
  | .while cond items => usesClear hidden (exprUses cond) && clearAll hidden items
  | .for init cond step items =>
    clear hidden init && usesClear hidden (exprUses cond) && clear? hidden step &&
      clearAll hidden items
  | .if cond thenBr elseBr =>
    usesClear hidden (exprUses cond) && clear hidden thenBr && clear? hidden elseBr
  | .generate loc init initValue cond step body =>
    (exprUses initValue).isEmpty &&
      usesClear (hiddenUnder hidden loc init) (exprUses cond ++ exprUses step) &&
      clear (hiddenUnder hidden loc init) body

def clearAll (hidden : List Ident) (ss : List Stmt) : Bool :=
  match ss with
  | [] => true
  | s :: ss => clear hidden s && clearAll hidden ss

def clear? (hidden : List Ident) (s : Option Stmt) : Bool :=
  match s with
  | none => true
  | some s => clear hidden s

def clearCases (hidden : List Ident) (cs : List CondCase) : Bool :=
  match cs with
  | [] => true
  | ⟨cond, body⟩ :: cs =>
    usesClear hidden (exprUses cond) && clear hidden body && clearCases hidden cs

end

mutual

/-- The bodies and the actions of a unit's items are clear. -/
def itemClear (d : Decl) : Bool :=
  match d with
  | .module _ _ internals actions funcs procs =>
    itemsClear internals && itemsClear funcs && itemsClear procs && clearAll [] actions
  | .funcDefn _ _ body | .procDefn _ _ body | .stateDefn _ _ body => clear [] body
  | _ => true

def itemsClear (ds : List Decl) : Bool :=
  match ds with
  | [] => true
  | d :: ds => itemClear d && itemsClear ds

end

end Sema

end Nslc
