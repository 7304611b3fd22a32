import Nslc.Common.Comments
import Nslc.Lex.Token
/-!
# The lexer

A pull-model scanner over one buffer. Each scanner of the source runs a
cursor over the buffer; here it is a function from the text still to be
read to the number of bytes it takes, and the token gets the range and
the slice of the buffer from that number. Loops consume a byte in every
iteration, so the length of the text is enough fuel where a loop does
not follow the list.
-/

namespace Nslc

namespace Lex

/-! ## Character classes -/

def isIdentStart (c : Char) : Bool := ('A' ≤ c && c ≤ 'Z') || ('a' ≤ c && c ≤ 'z')

def isDecDigit (c : Char) : Bool := '0' ≤ c && c ≤ '9'

def isIdentBody (c : Char) : Bool := isIdentStart c || isDecDigit c || c == '_'

def isHexDigit (c : Char) : Bool :=
  isDecDigit c || ('a' ≤ c && c ≤ 'f') || ('A' ≤ c && c ≤ 'F')

/-! ## Blanks and comments -/

/-- `skipWhitespaceAndComments`: the text behind blanks and comments, and
whether a line begins there. -/
def skipUpto : ℕ → Text → Bool → Text × Bool
  | 0, t, atStart => (t, atStart)
  | _ + 1, [], atStart => ([], atStart)
  | fuel + 1, c :: cs, atStart =>
    if c = '\n' then skipUpto fuel cs true
    else if isBlank c then skipUpto fuel cs atStart
    else if c = '/' ∧ cs.head? = some '/' then
      skipUpto fuel (cs.tail.dropWhile (· ≠ '\n')) atStart
    else if c = '/' ∧ cs.head? = some '*' then
      let b := takeBlock cs.tail
      let atStart := atStart || b.copied.contains '\n'
      -- an unterminated comment is consumed to the end of the buffer
      if b.closed then skipUpto fuel b.rest atStart else ([], atStart)
    else (c :: cs, atStart)

def skipWhitespaceAndComments (t : Text) (atStart : Bool) : Text × Bool :=
  skipUpto (t.length + 1) t atStart

/-! ## Identifiers -/

/-- The bytes an identifier goes on for: identifier bytes, and `%NAME%`
references the preprocessor left. -/
def identUpto : ℕ → Text → ℕ
  | 0, _ => 0
  | _ + 1, [] => 0
  | fuel + 1, c :: cs =>
    if isIdentBody c then 1 + identUpto fuel cs
    else if c = '%' ∧ (cs.head?.map fun d => isIdentStart d || d == '_').getD false ∧
        (cs.dropWhile isIdentBody).head? = some '%' then
      (cs.takeWhile isIdentBody).length + 2 + identUpto fuel (cs.dropWhile isIdentBody).tail
    else 0

/-- What a scanner found at the cursor. -/
structure Scan where
  kind : TokenKind
  length : ℕ
  flags : NumFlags

def scanIdentifierOrKeyword (t : Text) : Scan :=
  let n := 1 + identUpto t.length t.tail
  let text := t.take n
  ⟨if t.head? = some '_' then classifyUnderscoreName text else classifyKeyword text, n, .plain⟩

/-! ## Strings -/

/-- Behind the opening quote: the bytes taken, and whether the closing
quote is one of them. -/
def stringBody : Text → ℕ × Bool
  | [] => (0, false)
  | c :: cs =>
    if c = '"' then (1, true)
    else if c = '\n' then (0, false)
    else if c = '\\' then
      match cs with
      | [] => (1, false)
      | _ :: ds => (2 + (stringBody ds).1, (stringBody ds).2)
    else (1 + (stringBody cs).1, (stringBody cs).2)

def scanString (t : Text) : Scan :=
  let r := stringBody t.tail
  ⟨if r.2 then .stringLit else .unknown, 1 + r.1, .plain⟩

/-! ## Numbers -/

/-- `isValueMarker` and `setMarkerFlag`. -/
def markerFlag (c : Char) : Option (NumFlags → NumFlags) :=
  if c = 'Z' ∨ c = 'z' then some fun f => { f with hasZ := true }
  else if c = 'X' ∨ c = 'x' then some fun f => { f with hasX := true }
  else if c = 'U' ∨ c = 'u' then some fun f => { f with hasU := true }
  else none

/-- The digits of base 2, 8 and 16; none in another base. -/
def baseDigit (base : ℕ) (c : Char) : Bool :=
  if base = 2 then c == '0' || c == '1'
  else if base = 8 then '0' ≤ c && c ≤ '7'
  else if base = 16 then isHexDigit c
  else false

def consumeValueRun (base : ℕ) : Text → NumFlags → ℕ × NumFlags
  | [], flags => (0, flags)
  | c :: cs, flags =>
    if c = '_' then
      let r := consumeValueRun base cs flags
      (1 + r.1, r.2)
    else
      match markerFlag c with
      | some set =>
        let r := consumeValueRun base cs (set flags)
        (1 + r.1, r.2)
      | none =>
        if baseDigit base c then
          let r := consumeValueRun base cs flags
          (1 + r.1, r.2)
        else (0, flags)

def radixFromChar (c : Char) : Option (TokenKind × ℕ) :=
  if c = 'b' ∨ c = 'B' then some (.binaryLit, 2)
  else if c = 'o' ∨ c = 'O' then some (.octalLit, 8)
  else if c = 'd' ∨ c = 'D' then some (.decimalLit, 10)
  else if c = 'h' ∨ c = 'H' then some (.hexLit, 16)
  else none

/-- Digits and their separators. -/
def isDecRun (c : Char) : Bool := isDecDigit c || c == '_'

/-- The literal with width `width` in front of the apostrophe. -/
def scanVerilog (width : ℕ) (kind : TokenKind) (base : ℕ) (digits : Text) : Scan :=
  if base = 10 then ⟨kind, width + 2 + (digits.takeWhile isDecRun).length, .plain⟩
  else
    let r := consumeValueRun base digits .plain
    ⟨kind, width + 2 + r.1, r.2⟩

/-- A plain decimal literal, or one that goes on behind an apostrophe
and a radix. -/
def scanDecimal (t : Text) : Scan :=
  let width := (t.takeWhile isDecRun).length
  match t.dropWhile isDecRun with
  | '\'' :: c :: digits =>
    match radixFromChar c with
    | some (kind, base) => scanVerilog width kind base digits
    | none => ⟨.decimalLit, width, .plain⟩
  | _ => ⟨.decimalLit, width, .plain⟩

/-- `0x` and `0b` behind their prefix. -/
def scanCStyle (kind : TokenKind) (base : ℕ) (digits : Text) : Scan :=
  let r := consumeValueRun base digits .plain
  ⟨kind, 2 + r.1, r.2⟩

def scanNumber (t : Text) : Scan :=
  match t with
  | '0' :: p :: digits =>
    if p = 'x' ∨ p = 'X' then scanCStyle .hexLit 16 digits
    else if p = 'b' ∨ p = 'B' then scanCStyle .binaryLit 2 digits
    else scanDecimal t
  | _ => scanDecimal t

/-! ## Punctuation -/

def emit1 (kind : TokenKind) : Scan := ⟨kind, 1, .plain⟩

/-- A two-byte operator if `second` follows, else a one-byte one. -/
def emit2If (next : Option Char) (second : Char) (two one : TokenKind) : Scan :=
  if next = some second then ⟨two, 2, .plain⟩ else emit1 one

def scanPunctuation (c : Char) (next : Option Char) : Scan :=
  match c with
  | '(' => emit1 .lparen
  | ')' => emit1 .rparen
  | '{' => emit1 .lbrace
  | '}' => emit1 .rbrace
  | '[' => emit1 .lbracket
  | ']' => emit1 .rbracket
  | ',' => emit1 .comma
  | ';' => emit1 .semicolon
  | ':' => emit2If next '=' .assignSeq .colon
  | '.' => emit2If next '{' .dotLbrace .dot
  | '=' => emit2If next '=' .equal .assign
  | '!' => emit2If next '=' .notEqual .logicalNot
  | '<' => if next = some '=' then ⟨.lessEqual, 2, .plain⟩ else emit2If next '<' .shiftLeft .less
  | '>' =>
    if next = some '=' then ⟨.greaterEqual, 2, .plain⟩ else emit2If next '>' .shiftRight .greater
  | '&' => emit2If next '&' .logicalAnd .amp
  | '|' => emit2If next '|' .logicalOr .pipe
  | '^' => emit1 .caret
  | '~' => emit1 .tilde
  | '+' => emit2If next '+' .plusPlus .plus
  | '-' => emit2If next '-' .minusMinus .minus
  | '*' => emit1 .star
  | '/' => emit1 .slash
  | '%' => emit1 .percent
  | '?' => emit1 .question
  | '@' => emit1 .atSign
  | '#' => emit1 .hashSignExtend
  | '\'' => emit1 .apostropheZeroExtend
  | _ => emit1 .unknown

/-! ## One token -/

/-- `#line` at the start of a line, with a number behind blanks. -/
def isLineDirective (t : Text) : Bool :=
  "#line".toList.isPrefixOf t &&
    match t.drop 5 with
    | [] => false
    | c :: cs =>
      (c == ' ' || c == '\t') &&
        (((c :: cs).dropWhile fun d => d == ' ' || d == '\t').head?.map isDecDigit).getD false

/-- The scanner for the text at the cursor, which is not blank. -/
def scanToken (atStart : Bool) (t : Text) : Scan :=
  match t with
  | [] => ⟨.eof, 0, .plain⟩
  | c :: cs =>
    if atStart ∧ c = '#' ∧ isLineDirective t then
      ⟨.lineDirective, (t.takeWhile (· ≠ '\n')).length, .plain⟩
    else if isIdentStart c || c == '_' then scanIdentifierOrKeyword t
    else if isDecDigit c then scanNumber t
    else if c = '"' then scanString t
    else scanPunctuation c cs.head?

/-- `Lexer::Impl`, with the offsets at which an unterminated string was
reported. -/
structure Lexer where
  buf : Text
  cur : ℕ
  peekCache : List Token
  atLineStart : Bool
  unterminatedStrings : List ℕ

def Lexer.new (buf : Text) : Lexer := ⟨buf, 0, [], true, []⟩

/-- Pull one token from the buffer. -/
def Lexer.nextImpl (lx : Lexer) : Token × Lexer :=
  let r := skipWhitespaceAndComments (lx.buf.drop lx.cur) lx.atLineStart
  let begin_ := lx.buf.length - r.1.length
  if r.1 = [] then
    (⟨.eof, lx.buf.length, lx.buf.length, [], .plain⟩,
      { lx with cur := lx.buf.length, atLineStart := r.2 })
  else
    let s := scanToken r.2 r.1
    let reports := if r.1.head? = some '"' ∧ s.kind = .unknown then [begin_] else []
    (⟨s.kind, begin_, begin_ + s.length, (lx.buf.drop begin_).take s.length, s.flags⟩,
      { lx with
        cur := begin_ + s.length
        atLineStart := false
        unterminatedStrings := lx.unterminatedStrings ++ reports })

/-! ## The interface -/

def Lexer.next (lx : Lexer) : Token × Lexer :=
  match lx.peekCache with
  | t :: ts => (t, { lx with peekCache := ts })
  | [] => lx.nextImpl

/-- The loop of `peek`: pull tokens until `n + 1` are cached. -/
def Lexer.fillUpto (n : ℕ) : ℕ → Lexer → Lexer
  | 0, lx => lx
  | fuel + 1, lx =>
    if lx.peekCache.length ≤ n then
      let r := lx.nextImpl
      Lexer.fillUpto n fuel { r.2 with peekCache := r.2.peekCache ++ [r.1] }
    else lx

/-- `peek`: a negative distance is none. -/
def Lexer.peek (lx : Lexer) (n : ℤ) : Option Token × Lexer :=
  let lx := lx.fillUpto n.toNat (n.toNat + 1)
  (lx.peekCache[n.toNat]?, lx)

end Lex

end Nslc
