import Nslc.Sema.Scoping
/-!
# Sema — inferred types

The type the resolution pass leaves on an expression, `exprType`. It
depends on the symbols the names resolve to and, for a literal, on the
width the assignment around it asks for. `stmtReturns` lists the return
statements a checker finds in a body with the type of each value: the
scopes open at a return are those around the body and one for every
block in between.
-/

namespace Nslc

namespace Sema

open AST

/-! ## Literals -/

/-- The fewest bits a value fits in, one for zero. -/
def minBits (v : ℕ) : ℕ := if v = 0 then 1 else Nat.log2 v + 1

def octalDigit? (c : Char) : Option ℕ :=
  if '0' ≤ c ∧ c ≤ '7' then some (c.toNat - '0'.toNat) else none

def parseOctal (s : Text) : ℕ :=
  match s with
  | '0' :: 'o' :: cs | '0' :: 'O' :: cs => parseDigits 8 octalDigit? 0 cs
  | cs => parseDigits 8 octalDigit? 0 cs

/-- The first of the pair `parseBinary` returns: the stated width of
`5'b10101`, else the number of digits. -/
def binaryWidth (s : Text) : ℕ :=
  let digits (cs : Text) := cs.countP (· ≠ '_')
  match s.dropWhile (· ≠ '\'') with
  | [] => if digits s = 0 then 1 else digits s
  | _ :: body =>
    let stated := parseDecimal (s.takeWhile (· ≠ '\''))
    let body :=
      match body with
      | 'b' :: cs | 'B' :: cs => cs
      | cs => cs
    if stated ≠ 0 then stated else if digits body = 0 then 1 else digits body

/-- The width the context asks for, where it is wide enough. -/
def widen (context width : ℕ) : ℕ := if context ≠ 0 ∧ width ≤ context then context else width

def literalType (context : ℕ) (kind : Lit) (spelling : Text) : Ty :=
  match kind with
  | .decimal => .bitVector (widen context (minBits (parseDecimal spelling)))
  | .hex => .bitVector (widen context ((minBits (parseHex spelling) + 3) / 4 * 4))
  | .binary => .bitVector (binaryWidth spelling)
  | .octal => .bitVector (widen context ((minBits (parseOctal spelling) + 2) / 3 * 3))
  | .string => .bitVector (8 * max spelling.length 1)

/-! ## Expressions -/

def Ty.bitWidth : Ty → ℕ
  | .bitVector w => w
  | _ => 0

/-- A width computed in 64 bits, one where it is zero. -/
def wrapWidth (w : ℕ) : ℕ := if w % 2 ^ 64 = 0 then 1 else w % 2 ^ 64

def decimalOr0 : Expr → ℕ
  | .literal .decimal spelling => parseDecimal spelling
  | _ => 0

def sliceWidth (hi : Expr) (lo : Option Expr) : ℕ :=
  match lo with
  | none => 1
  | some lo =>
    if decimalOr0 lo ≤ decimalOr0 hi then wrapWidth (decimalOr0 hi - decimalOr0 lo + 1) else 1

def BinaryOp.isTest : BinaryOp → Bool
  | .equal | .notEqual | .less | .lessEqual | .greater | .greaterEqual | .logicalAnd
  | .logicalOr => true
  | _ => false

section Infer

-- the symbol a name resolves to, and the width the context asks for
variable (find : Ident → Option Symbol) (context : ℕ)

mutual

@[grind =] def exprType (e : Expr) : Ty :=
  match e with
  | .literal kind spelling => literalType context kind spelling
  | .identifier _ name =>
    match name with
    | [] => .unresolved
    | [x] => ((find x).bind Symbol.type).getD .unresolved
    | x :: _ =>
      match find x with
      | none => .unresolved
      | some sym => sym.type.getD (.bitVector 1)
  | .systemVar _ => .bitVector 64
  | .unary op sub =>
    match op with
    | .reduceAnd | .reduceOr | .reduceXor | .logicalNot => .bitVector 1
    | .plus | .neg | .bitNot => exprType sub
  | .binary op lhs rhs =>
    let tl := exprType lhs
    if tl = .unresolved ∨ exprType rhs = .unresolved then .unresolved
    else if BinaryOp.isTest op then .bitVector 1 else tl
  | .conditional _ thenE _ => exprType thenE
  | .concat parts =>
    let types := exprTypes parts
    if types.contains .unresolved then .unresolved
    else .bitVector (wrapWidth (types.map Ty.bitWidth).sum)
  | .repeat count body =>
    let t := exprType body
    if t = .unresolved then .unresolved
    else .bitVector (wrapWidth (decimalOr0 count * t.bitWidth))
  | .signExtend width _ | .zeroExtend width _ => .bitVector (widthOr1 (some width))
  | .slice _ _ hi lo => .bitVector (sliceWidth hi lo)
  | .fieldAccess obj _ => if exprType obj = .unresolved then .unresolved else .bitVector 1
  | .call _ _ _ => .bitVector 1
  | .structCast typeName _ _ =>
    match (find typeName).bind Symbol.type with
    | some (.struct _ total) => .bitVector (if total = 0 then 1 else total)
    | _ => .bitVector 1
  | .incDec target _ _ => exprType target

@[grind =] def exprTypes (es : List Expr) : List Ty :=
  match es with
  | [] => []
  | e :: es => exprType e :: exprTypes es

end

end Infer

/-! ## Returns -/

/-- A return statement of a body, with the scopes that blocks of the body
open around it. -/
structure Return where
  loc : Loc
  value : Option Expr
  inner : List Scope

mutual

/-- The returns the walk of the checkers visits in `s`. -/
def stmtReturns (inner : List Scope) (s : Stmt) : List Return :=
  match s with
  | .return loc value => [⟨loc, value, inner⟩]
  | .seq items _ | .parallel items _ | .while _ items | .for _ _ _ items | .initBlock items =>
    stmtsReturns (⟨.seqOrParallel, []⟩ :: inner) items
  | .alt cases elseCase | .any cases elseCase =>
    casesReturns (⟨.seqOrParallel, []⟩ :: inner) cases ++
      stmtReturns? (⟨.seqOrParallel, []⟩ :: inner) elseCase
  | .if _ thenBr elseBr => stmtReturns inner thenBr ++ stmtReturns? inner elseBr
  | .labeled _ body => stmtReturns? inner body
  | .generate loc init _ _ _ body => stmtReturns (loopScope loc init :: inner) body
  | _ => []

def stmtsReturns (inner : List Scope) (ss : List Stmt) : List Return :=
  match ss with
  | [] => []
  | s :: ss => stmtReturns inner s ++ stmtsReturns inner ss

def stmtReturns? (inner : List Scope) (s : Option Stmt) : List Return :=
  match s with
  | none => []
  | some s => stmtReturns inner s

def casesReturns (inner : List Scope) (cs : List CondCase) : List Return :=
  match cs with
  | [] => []
  | ⟨_, body⟩ :: cs => stmtReturns inner body ++ casesReturns inner cs

end

/-- The type the pass leaves on the value, `outer` being the scopes open
around the body. No assignment is around a return, so there is no width
to adapt to. -/
def Return.type (outer : List Scope) (r : Return) : Option Ty :=
  r.value.map (exprType (SymbolTable.findIn (r.inner ++ outer)) 0)

/-! ## The funcs of a module -/

/-- A func without a dot declares its own name where it is missing. -/
def enterFunc (w : Walker) (loc : Loc) (name : ScopedName) : Walker :=
  match name with
  | [x] => w.declareMissing ⟨.funcIn, x, loc, some .bit⟩
  | _ => w

/-- A func, its body and the scopes open around the body. -/
structure OpenFunc where
  name : ScopedName
  body : Stmt
  outer : List Scope

/-- The funcs among the definitions, `w` being the walker before them. -/
def openFuncs (cu : CompilationUnit) (w : Walker) (ds : List Decl) : List OpenFunc :=
  match ds with
  | [] => []
  | d :: ds =>
    match d with
    | .funcDefn loc name body =>
      ⟨name, body, ⟨.function, []⟩ :: (enterFunc w loc name).table.scopes⟩ ::
        openFuncs cu (w.visitDecl cu d) ds
    | _ => openFuncs cu (w.visitDecl cu d) ds

/-- The walker in a module once its terminals are declared. -/
def enterTerminals (cu : CompilationUnit) (w : Walker) (name : Ident) : Walker :=
  match declareOf cu name with
  | some d => (w.enterScope .module).declTerminals d
  | none => w.enterScope .module

/-- The funcs of an item of the unit, `w` being the walker before it. -/
def itemFuncs (cu : CompilationUnit) (w : Walker) (d : Decl) : List OpenFunc :=
  match d with
  | .module _ name internals _ funcs _ =>
    openFuncs cu ((enterTerminals cu w name).visitDecls cu internals) funcs
  | _ => []

end Sema

end Nslc
