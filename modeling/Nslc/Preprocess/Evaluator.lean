import Nslc.Preprocess.Expander
import Nslc.Preprocess.Value
/-!
# Preprocessor — the expression evaluator

`PPExpression`, a recursive descent over the bytes of an expression that
computes while it reads. A parser's first error is reported and the
later ones are not; what helpers, nested parsers and the macro expander
report is passed on as it is.

The loops carry their iterations: one more than the bytes of the text is
always enough. A `%IDENT%` left by the expander is evaluated by a parser
of its own, and how deep these may nest is the fuel of an evaluation.
-/

namespace Nslc

namespace Preprocess

namespace Evaluator

/-- A parser between two calls: the bytes not read, the bytes read,
whether it has reported an error, and what has been reported since it
was made. -/
structure Parser where
  rest : Text
  pos : ℕ
  errored : Bool
  reports : List Finding
  deriving DecidableEq, Repr

abbrev Eval (α : Type) := StateT Parser (Except Halt) α

def halt {α : Type} (h : Halt) : Eval α := fun _ => .error h

/-! ## Reading bytes -/

def isBlank (c : Char) : Bool := c == ' ' || c == '\t' || c == '\r' || c == '\n'

def isHexDigit (c : Char) : Bool := isDigit c || ('a' ≤ c && c ≤ 'f') || ('A' ≤ c && c ≤ 'F')

def isBinDigit (c : Char) : Bool := c == '0' || c == '1'

/-- `hexDigitValue`; `none` where the source has `-1`. -/
def hexDigitValue (c : Char) : Option ℤ :=
  if isDigit c then some (c.toNat - '0'.toNat : ℕ)
  else if 'a' ≤ c ∧ c ≤ 'f' then some (10 + (c.toNat - 'a'.toNat) : ℕ)
  else if 'A' ≤ c ∧ c ≤ 'F' then some (10 + (c.toNat - 'A'.toNat) : ℕ)
  else none

namespace Parser

def advance (p : Parser) (n : ℕ) : Parser := { p with rest := p.rest.drop n, pos := p.pos + n }

def skipBlanks (p : Parser) : Parser := p.advance (p.rest.takeWhile isBlank).length

/-- Passed on as it is. -/
def push (p : Parser) (fs : List Finding) : Parser := { p with reports := p.reports ++ fs }

/-- `report`: the first error wins. -/
def report (p : Parser) (message : Text) (pos : ℕ) : Parser :=
  if p.errored then p
  else { p with errored := true, reports := p.reports ++ [⟨.error, pos, message⟩] }

end Parser

def skipWS : Eval Unit := modify Parser.skipBlanks

def advance (n : ℕ) : Eval Unit := modify fun p => p.advance n

def push (fs : List Finding) : Eval Unit := modify fun p => p.push fs

def remaining : Eval Text := return (← get).rest

def position : Eval ℕ := return (← get).pos

/-- Report an error and go on with zero. -/
def reportZero {L : LongDouble} (message : Text) (pos : ℕ) : Eval (PPValue L) := do
  modify fun p => p.report message pos
  return .int 0

/-- The bytes satisfying `p` read as one token. -/
def takeBytes (p : Char → Bool) : Eval Text := do
  let token := (← remaining).takeWhile p
  advance token.length
  return token

/-! ## Operators -/

/-- The operator of a level that stands in front, and its bytes. A `<`
or `>` that is doubled is none. -/
def orOp (t : Text) : Option (BinOp × ℕ) := if "||".toList <+: t then some (.lor, 2) else none

def andOp (t : Text) : Option (BinOp × ℕ) := if "&&".toList <+: t then some (.land, 2) else none

def equalityOp (t : Text) : Option (BinOp × ℕ) :=
  if "==".toList <+: t then some (.eq, 2)
  else if "!=".toList <+: t then some (.ne, 2)
  else none

def relationalOp (t : Text) : Option (BinOp × ℕ) :=
  if "<=".toList <+: t then some (.le, 2)
  else if ">=".toList <+: t then some (.ge, 2)
  else if "<".toList <+: t ∧ ¬ "<<".toList <+: t then some (.lt, 1)
  else if ">".toList <+: t ∧ ¬ ">>".toList <+: t then some (.gt, 1)
  else none

def additiveOp (t : Text) : Option (BinOp × ℕ) :=
  if "+".toList <+: t then some (.add, 1)
  else if "-".toList <+: t then some (.sub, 1)
  else none

def multiplicativeOp (t : Text) : Option (BinOp × ℕ) :=
  if "*".toList <+: t then some (.mul, 1)
  else if "/".toList <+: t then some (.div, 1)
  else if "%".toList <+: t then some (.mod, 1)
  else none

section Ladder

variable {L : LongDouble}

/-- What a level does with an operator read at `pos`: a division by zero
is reported and gives zero. -/
def applyBinary (op : BinOp) (pos : ℕ) (a b : PPValue L) : Eval (PPValue L) :=
  if PPValue.dividesByZero op a b then reportZero (op.zeroMessage.getD []) pos
  else liftM (PPValue.binary op a b)

/-- The loop of a level: operands as long as its operators follow. -/
def ladder (op? : Text → Option (BinOp × ℕ)) (operand : Eval (PPValue L)) :
    ℕ → PPValue L → Eval (PPValue L)
  | 0, _ => halt .outOfFuel
  | n + 1, v => do
    skipWS
    match op? (← remaining) with
    | none => return v
    | some (op, width) => do
      advance width
      let pos ← position
      let r ← operand
      let v ← applyBinary op pos v r
      ladder op? operand n v

/-- A level of the ladder over the next. -/
def climb (op? : Text → Option (BinOp × ℕ)) (operand : Eval (PPValue L)) (n : ℕ) :
    Eval (PPValue L) := do
  let v ← operand
  ladder op? operand n v

/-- The unary operator a byte is. -/
def unaryOp (c : Char) : Option UnOp :=
  if c = '+' then some .plus
  else if c = '-' then some .neg
  else if c = '!' then some .not
  else if c = '~' then some .compl
  else none

def parseUnary (primary : Eval (PPValue L)) : ℕ → Eval (PPValue L)
  | 0 => halt .outOfFuel
  | n + 1 => do
    skipWS
    match (← remaining).head? with
    | none => reportZero "unexpected end of compile-time expression".toList (← position)
    | some c =>
      match unaryOp c with
      | none => primary
      | some op => do
        advance 1
        let v ← parseUnary primary n
        liftM (PPValue.unary op v)

def parseMultiplicative (primary : Eval (PPValue L)) (n : ℕ) : Eval (PPValue L) :=
  climb multiplicativeOp (parseUnary primary n) n

def parseAdditive (primary : Eval (PPValue L)) (n : ℕ) : Eval (PPValue L) :=
  climb additiveOp (parseMultiplicative primary n) n

def parseRelational (primary : Eval (PPValue L)) (n : ℕ) : Eval (PPValue L) :=
  climb relationalOp (parseAdditive primary n) n

def parseEquality (primary : Eval (PPValue L)) (n : ℕ) : Eval (PPValue L) :=
  climb equalityOp (parseRelational primary n) n

def parseLogicalAnd (primary : Eval (PPValue L)) (n : ℕ) : Eval (PPValue L) :=
  climb andOp (parseEquality primary n) n

end Ladder

/-! ## Numbers -/

inductive Radix where
  | dec | hex | bin
  deriving DecidableEq, Repr

/-- The value of a digit of the radix. -/
def Radix.digitValue (r : Radix) (c : Char) : Option ℤ :=
  match r with
  | .dec => if isDigit c then some (c.toNat - '0'.toNat : ℕ) else none
  | .hex => hexDigitValue c
  | .bin => if isBinDigit c then some (c.toNat - '0'.toNat : ℕ) else none

def Radix.name : Radix → String
  | .dec => "decimal"
  | .hex => "hex"
  | .bin => "binary"

/-- One more digit. Decimal accumulates by arithmetic, hex and binary by
shifts, whose free low bits take the digit. -/
def Radix.push (r : Radix) (v d : ℤ) : Except Halt ℤ :=
  match r with
  | .dec => do checked ((← checked (v * 10)) + d)
  | .hex => do return (← shiftLeft v 4) + d
  | .bin => do return (← shiftLeft v 1) + d

/-- The value of a run of digits, `none` at a byte that is no digit. -/
def Radix.valueFrom (r : Radix) : ℤ → Text → Except Halt (Option ℤ)
  | v, [] => .ok (some v)
  | v, c :: cs =>
    match r.digitValue c with
    | none => .ok none
    | some d => do r.valueFrom (← r.push v d) cs

/-- A number as it is cut out of the text: `none` for a float. -/
structure NumberToken where
  radix? : Option Radix
  text : Text
  deriving DecidableEq, Repr

/-- `consumeWhile`: digits with separators. -/
def digitsOf (p : Char → Bool) (t : Text) : Text := t.takeWhile fun c => p c || c == '_'

/-- The fraction of a decimal number, its point included. -/
def fractionOf : Text → Text
  | [] => []
  | c :: cs => if c = '.' then c :: digitsOf isDigit cs else []

/-- The exponent. -/
def exponentOf : Text → Text
  | [] => []
  | c :: cs =>
    if c = 'e' ∨ c = 'E' then c :: takeSign cs ++ digitsOf isDigit (cs.drop (takeSign cs).length)
    else []

def decimalToken (t : Text) : NumberToken :=
  let whole := digitsOf isDigit t
  let fraction := fractionOf (t.drop whole.length)
  let exponent := exponentOf (t.drop (whole ++ fraction).length)
  ⟨if fraction = [] ∧ exponent = [] then some .dec else none, whole ++ fraction ++ exponent⟩

/-- The number in front. -/
def numberToken (t : Text) : NumberToken :=
  match t with
  | c :: d :: ds =>
    if c = '0' ∧ (d = 'x' ∨ d = 'X') then ⟨some .hex, c :: d :: digitsOf isHexDigit ds⟩
    else if c = '0' ∧ (d = 'b' ∨ d = 'B') then ⟨some .bin, c :: d :: digitsOf isBinDigit ds⟩
    else decimalToken t
  | _ => decimalToken t

/-- The digits of a token without separators and prefix. -/
def NumberToken.digits (k : NumberToken) : Text :=
  let filtered := k.text.filter (· ≠ '_')
  match k.radix? with
  | some .hex | some .bin => filtered.drop 2
  | _ => filtered

def parseNumber {L : LongDouble} : Eval (PPValue L) := do
  let begin ← position
  let token := numberToken (← remaining)
  advance token.text.length
  let filtered := token.text.filter (· ≠ '_')
  match token.radix? with
  | none =>
    match L.stold filtered with
    | some v => return .real v
    | none => reportZero ("malformed compile-time float literal: '".toList ++ filtered ++ ['\'']) begin
  | some radix =>
    match ← liftM (radix.valueFrom 0 token.digits) with
    | some v => return .int v
    | none =>
      reportZero ("malformed ".toList ++ radix.name.toList ++ " literal: '".toList ++ filtered ++ ['\''])
        begin

/-! ## Primaries -/

section Primary

variable {L : LongDouble}

/-- What a primary needs besides its bytes: the macros, the parser of a
whole expression, and that of a spliced body. -/
structure Context (L : LongDouble) where
  macros : MacroTable
  expression : Eval (PPValue L)
  body : Text → Except Halt (PPValue L × List Finding)

/-- `%IDENT%`. A macro not defined is a warning, passed by the parser's
own error flag, and stands for zero. -/
def parsePercentMacroRef (K : Context L) : Eval (PPValue L) := do
  let begin ← position
  advance 1
  let name ← takeBytes isIdentBody
  if name = [] then reportZero "missing identifier in '%IDENT%' macro reference".toList begin
  else if (← remaining).head? ≠ some '%' then
    reportZero "missing closing '%' in '%IDENT%' macro reference".toList begin
  else do
    advance 1
    match K.macros.lookup name with
    | none => do
      push [⟨.warning, begin, "undefined macro reference: '%".toList ++ name ++ "%'".toList⟩]
      return .int 0
    | some d => do
      let expanded := MacroExpander.expand K.macros d.body begin
      push expanded.2
      let r ← liftM (K.body expanded.1)
      push r.2
      return r.1

/-- The parenthesis that closes the first one of `t`, and everything
before it. -/
def balancedParens : ℕ → Text → Text
  | _, [] => []
  | depth, c :: cs =>
    if c = '(' then c :: balancedParens (depth + 1) cs
    else if c = ')' then
      if depth ≤ 1 then [c] else c :: balancedParens (depth - 1) cs
    else c :: balancedParens depth cs

/-- The arguments of a call, at least one. -/
def parseArgs (expression : Eval (PPValue L)) : ℕ → Eval (List (PPValue L))
  | 0 => halt .outOfFuel
  | n + 1 => do
    let v ← expression
    skipWS
    if (← remaining).head? = some ',' then do
      advance 1
      let vs ← parseArgs expression n
      return v :: vs
    else return [v]

/-- The arguments behind the opening parenthesis. -/
def callArgs (expression : Eval (PPValue L)) (n : ℕ) : Eval (List (PPValue L)) := do
  if (← remaining).head? = some ')' then return [] else parseArgs expression n

/-- A helper call, its name read and the parenthesis in front. -/
def parseHelperCall (K : Context L) (n : ℕ) (begin : ℕ) (name : Text) : Eval (PPValue L) := do
  match helperArity name with
  | none => do
    modify fun p => p.report ("compile-time helper '".toList ++ name ++
      "' is not in the recognized closed set".toList) begin
    advance (balancedParens 0 (← remaining)).length
    return .int 0
  | some arity => do
    advance 1
    skipWS
    let args ← callArgs K.expression n
    skipWS
    if (← remaining).head? ≠ some ')' then
      reportZero ("missing ')' in helper call '".toList ++ name ++ ['\'']) (← position)
    else do
      advance 1
      if args.length ≠ arity then
        reportZero ("helper '".toList ++ name ++ "' expects ".toList ++ Nat.toDigits 10 arity ++
          " arguments, got ".toList ++ Nat.toDigits 10 args.length) begin
      else do
        let r := HelperEvaluator.invoke name (args.getD 0 (.int 0)) (args.getD 1 (.int 0))
        push (r.2.toList.map fun e => ⟨e.1, begin, e.2⟩)
        return r.1

/-- A name that is not called. A macro the expander has left is an error
of its own, unless an error has been reported since this parser was
made. -/
def parseName (K : Context L) (begin : ℕ) (name : Text) : Eval (PPValue L) := do
  match K.macros.lookup name with
  | none => reportZero ("undefined macro '".toList ++ name ++ "' in compile-time expression".toList) begin
  | some d =>
    if d.body = [] then
      reportZero ("macro '".toList ++ name ++
        "' has empty body and cannot be evaluated as expression".toList) begin
    else if (← get).reports.any fun f => f.severity == .error then return .int 0
    else
      reportZero ("unresolved macro '".toList ++ name ++ "' in compile-time expression".toList) begin

def parseIdentOrHelper (K : Context L) (n : ℕ) : Eval (PPValue L) := do
  let begin ← position
  let name ← takeBytes isIdentBody
  skipWS
  if name.head? = some '_' ∧ (← remaining).head? = some '(' then parseHelperCall K n begin name
  else parseName K begin name

/-- An expression in parentheses. -/
def parseParens (K : Context L) : Eval (PPValue L) := do
  advance 1
  let v ← K.expression
  skipWS
  if (← remaining).head? ≠ some ')' then do
    let pos ← position
    modify fun p => p.report "missing ')' in compile-time expression".toList pos
    return v
  else do
    advance 1
    return v

/-- Whether a number begins here. -/
def startsNumber : Text → Bool
  | [] => false
  | c :: cs => isDigit c || (c == '.' && (cs.head?.map isDigit).getD false)

def parsePrimary (K : Context L) (n : ℕ) : Eval (PPValue L) := do
  skipWS
  let t ← remaining
  match t.head? with
  | none => reportZero "unexpected end of compile-time expression".toList (← position)
  | some c =>
    if c = '(' then parseParens K
    else if c = '%' then parsePercentMacroRef K
    else if startsNumber t then parseNumber
    else if isIdentStart c then parseIdentOrHelper K n
    else do
      let v ← reportZero ("unexpected character '".toList ++ [c] ++
        "' in compile-time expression".toList) (← position)
      advance 1
      return v

end Primary

/-! ## Whole expressions -/

section Whole

variable {L : LongDouble}

def parseLogicalOr (macros : MacroTable) (body : Text → Except Halt (PPValue L × List Finding)) :
    ℕ → Eval (PPValue L)
  | 0 => halt .outOfFuel
  | n + 1 =>
    climb orOp
      (parseLogicalAnd (parsePrimary ⟨macros, parseLogicalOr macros body n, body⟩ (n + 1)) (n + 1))
      (n + 1)

def parseTop (macros : MacroTable) (body : Text → Except Halt (PPValue L × List Finding)) (n : ℕ) :
    Eval (PPValue L) := do
  skipWS
  let v ← parseLogicalOr macros body n
  skipWS
  if (← remaining) ≠ [] then do
    let pos ← position
    modify fun p => p.report "unexpected trailing characters in compile-time expression".toList pos
    return v
  else return v

/-- A parser made for the text and run, with `depth` parsers nested in
it at most. -/
def evaluate (L : LongDouble) (macros : MacroTable) :
    ℕ → Text → Except Halt (PPValue L × List Finding)
  | 0, _ => .error .outOfFuel
  | depth + 1, text => do
    let r ← (parseTop macros (evaluate L macros depth) (text.length + 1)).run ⟨text, 0, false, []⟩
    return (r.1, r.2.reports)

/-- `PPExpression::parse`. -/
def parse (L : LongDouble) (macros : MacroTable) (depth : ℕ) (text : Text) :
    Except Halt (PPValue L × List Finding) := do
  let expanded := MacroExpander.expand macros text 0
  let r ← evaluate L macros depth expanded.1
  return (r.1, expanded.2 ++ r.2)

/-- `PPExpression::reduceDefineBody`; `none` where the body is blank. -/
def reduceDefineBody (L : LongDouble) (macros : MacroTable) (depth : ℕ) (body : Text) :
    Except Halt (Option (PPValue L) × List Finding) := do
  let trimmed := dropEndWhile isBlank (body.dropWhile isBlank)
  if trimmed = [] then return (none, [])
  else do
    let r ← parse L macros depth trimmed
    return (some r.1, r.2)

end Whole

end Evaluator

end Preprocess

end Nslc
