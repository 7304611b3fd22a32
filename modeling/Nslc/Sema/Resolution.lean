import Nslc.Sema.SymbolTable
/-!
# Sema — the resolution pass

`Walker` of `ResolutionPass.cpp`: one top-down walk that opens scopes,
declares symbols and resolves names. The first use of a name that no
open scope has is reported, later ones are not. The pass also infers a
type for every expression; inference and resolution do not depend on
each other, and the types are kept apart.
-/

namespace Nslc

namespace Sema

open AST

/-! ## Widths -/

/-- A run of digits of the given base, separators skipped, counted in 64
bits; zero where a byte is no digit. -/
def parseDigits (base : ℕ) (digit? : Char → Option ℕ) : ℕ → Text → ℕ
  | v, [] => v
  | v, c :: cs =>
    if c = '_' then parseDigits base digit? v cs
    else
      match digit? c with
      | none => 0
      | some d => parseDigits base digit? ((v * base + d) % 2 ^ 64) cs

def decimalDigit? (c : Char) : Option ℕ :=
  if '0' ≤ c ∧ c ≤ '9' then some (c.toNat - '0'.toNat) else none

def hexDigit? (c : Char) : Option ℕ :=
  if '0' ≤ c ∧ c ≤ '9' then some (c.toNat - '0'.toNat)
  else if 'a' ≤ c ∧ c ≤ 'f' then some (10 + (c.toNat - 'a'.toNat))
  else if 'A' ≤ c ∧ c ≤ 'F' then some (10 + (c.toNat - 'A'.toNat))
  else none

def parseDecimal (s : Text) : ℕ := parseDigits 10 decimalDigit? 0 s

def parseHex (s : Text) : ℕ :=
  match s with
  | '0' :: 'x' :: cs | '0' :: 'X' :: cs => parseDigits 16 hexDigit? 0 cs
  | cs => parseDigits 16 hexDigit? 0 cs

/-- The width a declaration states, zero where it states none. -/
def declaredWidth (width : Option Expr) : ℕ :=
  match width with
  | some (.literal .decimal spelling) => parseDecimal spelling
  | some (.literal .hex spelling) => parseHex spelling
  | _ => 0

/-- The stated width, one where there is none. -/
def widthOr1 (width : Option Expr) : ℕ :=
  if declaredWidth width = 0 then 1 else declaredWidth width

/-! ## The walker -/

inductive Message where
  | unresolvedName (name : Ident)
  | duplicateDeclaration (name : Ident)
  deriving DecidableEq, Repr

/-- An error of the pass. -/
structure Report where
  loc : Loc
  message : Message
  deriving DecidableEq, Repr

/-- A name that is looked up. -/
structure Use where
  loc : Loc
  name : Ident
  deriving DecidableEq, Repr

structure Walker where
  table : SymbolTable
  /-- Names reported as unresolved. -/
  reportedUnresolved : List Ident
  diags : List Report
  /-- `exprToSymbol`, by the location of the expression. -/
  resolutions : List (Use × Symbol)
  deriving DecidableEq, Repr

namespace Walker

def report (w : Walker) (loc : Loc) (m : Message) : Walker :=
  { w with diags := w.diags ++ [⟨loc, m⟩] }

def enterScope (w : Walker) (kind : ScopeKind) : Walker :=
  { w with table := w.table.enterScope kind }

def leaveScope (w : Walker) : Walker := { w with table := w.table.leaveScope }

/-- The part of `resolveName` behind a failed lookup. -/
def reportUnresolved (w : Walker) (u : Use) : Walker :=
  if w.reportedUnresolved.contains u.name then w
  else
    { w.report u.loc (.unresolvedName u.name) with
      reportedUnresolved := w.reportedUnresolved ++ [u.name] }

/-- `resolveName`, the answer dropped. -/
def resolveName (w : Walker) (u : Use) : Walker :=
  match w.table.lookup u.name with
  | some _ => w
  | none => w.reportUnresolved u

/-- `resolveName` and `recordResolution`. -/
def resolveAndRecord (w : Walker) (u : Use) : Walker :=
  match w.table.lookup u.name with
  | some sym => { w with resolutions := w.resolutions ++ [(u, sym)] }
  | none => w.reportUnresolved u

/-! ### Expressions -/

mutual

def visitExpr (w : Walker) (e : Expr) : Walker :=
  match e with
  | .literal _ _ | .systemVar _ => w
  | .identifier loc name =>
    -- of a dotted name the head only
    match name with
    | [] => w
    | head :: _ => w.resolveAndRecord ⟨loc, head⟩
  | .unary _ sub => visitExpr w sub
  | .binary _ lhs rhs => visitExpr (visitExpr w lhs) rhs
  | .conditional cond thenE elseE => visitExpr (visitExpr (visitExpr w cond) thenE) elseE
  | .concat parts => visitExprs w parts
  | .repeat count body => visitExpr (visitExpr w count) body
  | .signExtend width sub => visitExpr (visitExpr w width) sub
  | .zeroExtend width sub => visitExpr (visitExpr w width) sub
  | .slice _ sub hi lo => visitExpr? (visitExpr (visitExpr w sub) hi) lo
  | .fieldAccess obj _ => visitExpr w obj
  | .call loc target args =>
    -- `lookupScoped` finds nothing for a dotted target
    match target with
    | [name] => visitExprs (w.resolveAndRecord ⟨loc, name⟩) args
    | _ => visitExprs w args
  | .structCast _ sub _ => visitExpr w sub
  | .incDec target _ _ => visitExpr w target

def visitExprs (w : Walker) (es : List Expr) : Walker :=
  match es with
  | [] => w
  | e :: es => visitExprs (visitExpr w e) es

def visitExpr? (w : Walker) (e : Option Expr) : Walker :=
  match e with
  | none => w
  | some e => visitExpr w e

end

/-! ### Statements -/

/-- The loop variable of a `generate`, which may be missing. -/
def declareLoopVar (w : Walker) (loc : Loc) (init : Ident) : Walker :=
  if init = [] then w
  else
    match w.table.declare ⟨.integer, init, loc, some (.bitVector 64)⟩ with
    | some t => { w with table := t }
    | none => w

mutual

def visitStmt (w : Walker) (s : Stmt) : Walker :=
  match s with
  | .transfer _ _ lhs rhs => (w.visitExpr lhs).visitExpr rhs
  | .incDec target _ _ => w.visitExpr target
  | .controlCall loc target args =>
    match target with
    | [name] => (w.resolveName ⟨loc, name⟩).visitExprs args
    | _ => w.visitExprs args
  | .bareFinish _ | .empty | .goto _ => w
  | .systemTask _ args => w.visitExprs args
  | .return _ value => w.visitExpr? value
  | .labeled _ body => visitStmt? w body
  | .initBlock items => (visitStmts (w.enterScope .seqOrParallel) items).leaveScope
  | .delayTask count => w.visitExpr count
  | .parallel items _ => (visitStmts (w.enterScope .seqOrParallel) items).leaveScope
  | .seq items _ => (visitStmts (w.enterScope .seqOrParallel) items).leaveScope
  | .alt cases elseCase =>
    (visitStmt? (visitCases (w.enterScope .seqOrParallel) cases) elseCase).leaveScope
  | .any cases elseCase =>
    (visitStmt? (visitCases (w.enterScope .seqOrParallel) cases) elseCase).leaveScope
  | .while cond items =>
    (visitStmts ((w.enterScope .seqOrParallel).visitExpr cond) items).leaveScope
  | .for init cond step items =>
    let w := (visitStmt (w.enterScope .seqOrParallel) init).visitExpr cond
    (visitStmts (visitStmt? w step) items).leaveScope
  | .if cond thenBr elseBr => visitStmt? (visitStmt (w.visitExpr cond) thenBr) elseBr
  | .generate loc init _ cond step body =>
    let w := (w.enterScope .seqOrParallel).declareLoopVar loc init
    (visitStmt ((w.visitExpr cond).visitExpr step) body).leaveScope

def visitStmts (w : Walker) (ss : List Stmt) : Walker :=
  match ss with
  | [] => w
  | s :: ss => visitStmts (visitStmt w s) ss

def visitStmt? (w : Walker) (s : Option Stmt) : Walker :=
  match s with
  | none => w
  | some s => visitStmt w s

def visitCases (w : Walker) (cs : List CondCase) : Walker :=
  match cs with
  | [] => w
  | ⟨cond, body⟩ :: cs => visitCases (visitStmt (w.visitExpr cond) body) cs

end

/-! ### Declarations -/

/-- Declare the symbol, then visit the expressions of its declaration; a
name that is taken is reported and the expressions are not visited. -/
def declareThen (w : Walker) (sym : Symbol) (exprs : List Expr) : Walker :=
  match w.table.declare sym with
  | some t => ({ w with table := t }).visitExprs exprs
  | none => w.report sym.loc (.duplicateDeclaration sym.name)

/-- A parameter's value is visited in any case. -/
def declTopLevelParam (w : Walker) (p : TopLevelParamDecl) : Walker :=
  let sym : Symbol := ⟨.integer, p.name, p.loc, none⟩
  let w :=
    match w.table.declare sym with
    | some t => { w with table := t }
    | none => w.report p.loc (.duplicateDeclaration p.name)
  w.visitExpr? p.init

def structWidth (members : List StructMember) : ℕ :=
  members.foldl (fun total m => (total + widthOr1 m.width) % 2 ^ 64) 0

def portKind : Direction → SymbolKind
  | .input | .output | .inout => .port
  | .funcIn => .funcIn
  | .funcOut => .funcOut
  | .funcSelf => .funcSelf
  | .wire => .wire

def declPort (w : Walker) (p : PortDecl) : Walker :=
  let width := declaredWidth p.width
  let type := if width = 0 then Ty.bit else Ty.bitVector width
  w.declareThen ⟨portKind p.direction, p.name, p.loc, some type⟩ p.width.toList

/-- State names go to the module's scope. -/
def declStateNames (w : Walker) (loc : Loc) (names : List Ident) : Walker :=
  match names with
  | [] => w
  | name :: names =>
    match w.table.declareInScope .module ⟨.state, name, loc, some .bit⟩ with
    | some t => declStateNames { w with table := t } loc names
    | none => declStateNames (w.report loc (.duplicateDeclaration name)) loc names

def declInstances (w : Walker) (loc : Loc) (instances : List Instance) : Walker :=
  match instances with
  | [] => w
  | i :: is =>
    declInstances (w.declareThen ⟨.submodule, i.name, loc, some .bit⟩ i.arraySize.toList) loc is

/-- A definition declares its name where no open scope has it. -/
def declareMissing (w : Walker) (sym : Symbol) : Walker :=
  match w.table.lookup sym.name with
  | some _ => w
  | none =>
    match w.table.declare sym with
    | some t => { w with table := t }
    | none => w

/-- The header parameters and the terminals of a `declare`, in the
innermost scope. -/
def declTerminals (w : Walker) (d : List TopLevelParamDecl × List PortDecl) : Walker :=
  d.2.foldl declPort (d.1.foldl declTopLevelParam w)

end Walker

/-- The unit's last `declare` of that name (`declareByName_`). -/
def declareOf (cu : CompilationUnit) (name : Ident) :
    Option (List TopLevelParamDecl × List PortDecl) :=
  cu.foldl (fun found d =>
    match d with
    | .declare n _ _ _ headerParams ports =>
      if n = name ∧ n ≠ [] then some (headerParams, ports) else found
    | _ => found) none

namespace Walker

mutual

def visitDecl (cu : CompilationUnit) (w : Walker) (d : Decl) : Walker :=
  match d with
  | .topLevelParam p => w.declTopLevelParam p
  | .struct loc name members =>
    w.declareThen ⟨.structType, name, loc, some (.struct name (structWidth members))⟩
      (members.filterMap StructMember.width)
  | .declare _ _ _ _ headerParams ports =>
    ((w.enterScope .declare).declTerminals (headerParams, ports)).leaveScope
  | .module _ name internals actions funcs procs =>
    let w := w.enterScope .module
    let w :=
      match declareOf cu name with
      | some d => w.declTerminals d
      | none => w
    let w := visitDecls cu (visitDecls cu (visitDecls cu w internals) funcs) procs
    (w.visitStmts actions).leaveScope
  | .port p => w.declPort p
  | .reg loc name width init =>
    w.declareThen ⟨.reg, name, loc, some (.bitVector (widthOr1 width))⟩
      (width.toList ++ init.toList)
  | .wire loc name width =>
    w.declareThen ⟨.wire, name, loc, some (.bitVector (widthOr1 width))⟩ width.toList
  | .variable loc name width =>
    w.declareThen ⟨.variable, name, loc, some (.bitVector (widthOr1 width))⟩ width.toList
  | .integer loc name => w.declareThen ⟨.integer, name, loc, some (.bitVector 64)⟩ []
  | .mem loc name depth width init =>
    w.declareThen ⟨.mem, name, loc, some (.memory (widthOr1 depth) (widthOr1 width))⟩
      (depth :: width :: init)
  | .funcSelf loc name _ _ => w.declareThen ⟨.funcSelf, name, loc, some .bit⟩ []
  | .procName loc name _ => w.declareThen ⟨.proc, name, loc, some .bit⟩ []
  | .stateName loc names => w.declStateNames loc names
  | .firstState _ => w
  | .submodule loc _ instances paramAssigns =>
    (w.declInstances loc instances).visitExprs (paramAssigns.map ParamAssign.value)
  | .structInst loc _ instanceName _ arraySize init =>
    w.declareThen ⟨.reg, instanceName, loc, some (.bitVector 1)⟩ (arraySize.toList ++ init)
  | .funcDefn loc name body =>
    let w :=
      match name with
      | [x] => w.declareMissing ⟨.funcIn, x, loc, some .bit⟩
      | _ => w
    ((w.enterScope .function).visitStmt body).leaveScope
  | .procDefn loc name body =>
    let w := w.declareMissing ⟨.proc, name, loc, some .bit⟩
    ((w.enterScope .proc).visitStmt body).leaveScope
  | .stateDefn _ _ body => ((w.enterScope .seqOrParallel).visitStmt body).leaveScope

def visitDecls (cu : CompilationUnit) (w : Walker) (ds : List Decl) : Walker :=
  match ds with
  | [] => w
  | d :: ds => visitDecls cu (visitDecl cu w d) ds

end

end Walker

/-- `Walker::runUnit`. -/
def runResolutionPass (cu : CompilationUnit) : Walker :=
  let w : Walker := ⟨⟨[], []⟩, [], [], []⟩
  ((w.enterScope .global).visitDecls cu cu).leaveScope

end Sema

end Nslc
