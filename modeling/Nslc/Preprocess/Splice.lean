import Nslc.Common.Comments
import Nslc.Preprocess.Macro
/-!
# Preprocessor — passthrough text

What happens to a line that is not a directive: `%IDENT%` references are
spliced (`IdentSplicer::splice`), and the result is scanned for helper
calls and float literals that must not leave the preprocessor
(`scanForHelperOnPassthrough`, `scanForFloatOnPassthrough`). All three
copy or skip string literals and comments by the same two cuts.

The loops of the source run over byte positions; here they run over the
text still to be read, with the position carried along. Every iteration
consumes a byte, so the length of the text is enough fuel.
-/

namespace Nslc

namespace Preprocess

/-! ## Splicing -/

/-- Whether a run of identifier bytes is followed by an opening
parenthesis. -/
def parenAhead (t : Text) : Bool := (t.dropWhile isIdentBody).head? == some '('

/-- An exponent's digits, behind an optional sign. -/
def exponentAhead : Text → Bool
  | [] => false
  | c :: cs => if c = '+' ∨ c = '-' then (cs.head?.map isDigit).getD false else isDigit c

/-- The splicer's test for a body that has to be computed: something
that looks like a helper call or a float literal. -/
def needsReduction : Text → Bool
  | [] => false
  | a :: t =>
    match t with
    | [] => false
    | b :: rest =>
      (a == '_' && (('a' ≤ b && b ≤ 'z') || ('A' ≤ b && b ≤ 'Z')) && parenAhead (b :: rest)) ||
      (isDigit a && b == '.' && (rest.head?.map isDigit).getD false) ||
      (isDigit a && (b == 'e' || b == 'E') && exponentAhead rest) ||
      needsReduction t

/-- What a defined macro is replaced by. -/
def spliceBody (E : PPExpression) (macros : MacroTable) (d : MacroDef) : Text × List Diag :=
  if needsReduction d.body then
    match E.reduceDefineBody macros d.body with
    | (some v, fs) => (E.render v, fs.map (Finding.diag d.definingLoc))
    | (none, fs) => (d.body, fs.map (Finding.diag d.definingLoc))
  else (d.body, [])

/-- The text spliced for the reference `%name%` at distance `pos`. -/
def spliceRef (E : PPExpression) (macros : MacroTable) (loc : SourceLocation) (pos : ℕ)
    (name : Text) : Text × List Diag :=
  match macros.lookup name with
  | some d => spliceBody E macros d
  | none =>
    ('%' :: name ++ ['%'],
      [⟨.warning, locAt (some loc) pos, .undefinedMacroRef name, none⟩])

def spliceUpto (E : PPExpression) (macros : MacroTable) (loc : SourceLocation) :
    ℕ → ℕ → Text → Text × List Diag
  | 0, _, _ => ([], [])
  | _ + 1, _, [] => ([], [])
  | fuel + 1, pos, c :: cs =>
    -- one byte, or one string, comment or reference, then the rest
    let emit (out : Text) (ds : List Diag) (consumed : ℕ) (rest : Text) : Text × List Diag :=
      let r := spliceUpto E macros loc fuel (pos + consumed) rest
      (out ++ r.1, ds ++ r.2)
    if c = '"' then
      let s := takeString cs
      emit (c :: s.1) [] (1 + s.1.length) s.2
    else if c = '/' ∧ cs.head? = some '/' then (c :: cs, [])
    else if c = '/' ∧ cs.head? = some '*' then
      let b := takeBlock cs.tail
      if b.closed then emit ('/' :: '*' :: b.copied) [] (2 + b.copied.length) b.rest
      else ('/' :: '*' :: b.copied ++ b.rest, [])
    else if c = '%' then
      let name := cs.takeWhile isIdentBody
      let after := cs.dropWhile isIdentBody
      if name ≠ [] ∧ after.head? = some '%' then
        let r := spliceRef E macros loc pos name
        emit r.1 r.2 (name.length + 2) after.tail
      else emit [c] [] 1 cs
    else emit [c] [] 1 cs

/-- `IdentSplicer::splice`. -/
def splice (E : PPExpression) (macros : MacroTable) (line : Text) (loc : SourceLocation) :
    Text × List Diag :=
  spliceUpto E macros loc (line.length + 1) 0 line

/-! ## The seam guards -/

/-- The closed set of compile-time helpers (`HelperSet.def`). -/
def helperNames : List Text :=
  ["_int", "_real", "_pow", "_sqrt", "_sin", "_cos", "_tan", "_asin", "_acos", "_atan",
    "_sinh", "_cosh", "_tanh", "_log", "_log10", "_exp", "_floor", "_ceil", "_round",
    "_abs", "_min", "_max"].map String.toList

def lookupHelper (name : Text) : Bool := helperNames.contains name

/-- Whether the byte before the current one continues an identifier. -/
def afterIdent (prev : Option Char) : Bool := (prev.map isIdentBody).getD false

def scanForHelperUpto (loc : SourceLocation) : ℕ → ℕ → Option Char → Text → List Diag
  | 0, _, _, _ => []
  | _ + 1, _, _, [] => []
  | fuel + 1, pos, prev, c :: cs =>
    if c = '"' then
      let s := takeString cs
      scanForHelperUpto loc fuel (pos + 1 + s.1.length) (c :: s.1).getLast? s.2
    else if c = '/' ∧ cs.head? = some '/' then []
    else if c = '/' ∧ cs.head? = some '*' then
      let b := takeBlock cs.tail
      scanForHelperUpto loc fuel (pos + 2 + b.copied.length) ('*' :: b.copied).getLast? b.rest
    else if c = '_' ∧ afterIdent prev = false then
      let body := cs.takeWhile isIdentBody
      let after := cs.dropWhile isIdentBody
      let call := (after.dropWhile isWS).head? = some '(' ∧ lookupHelper (c :: body)
      (if call then [⟨.error, locAt (some loc) pos, .helperOnPassthrough (c :: body), none⟩] else [])
        ++ scanForHelperUpto loc fuel (pos + 1 + body.length) (c :: body).getLast? after
    else scanForHelperUpto loc fuel (pos + 1) (some c) cs

def scanForHelperOnPassthrough (text : Text) (loc : SourceLocation) : List Diag :=
  scanForHelperUpto loc (text.length + 1) 0 none text

/-- A number at the start of `t`: whether it is a float, the bytes it
takes and the rest. -/
structure NumberCut where
  isFloat : Bool
  taken : Text
  rest : Text

/-- The fraction behind the integer digits, taken only with a digit. -/
def takeFraction : Text → NumberCut
  | [] => ⟨false, [], []⟩
  | c :: cs =>
    if c = '.' ∧ (cs.head?.map isDigit).getD false then
      ⟨true, c :: cs.takeWhile isDigit, cs.dropWhile isDigit⟩
    else ⟨false, [], c :: cs⟩

/-- An optional sign. -/
def takeSign : Text → Text
  | [] => []
  | c :: _ => if c = '+' ∨ c = '-' then [c] else []

/-- The exponent, taken only with a digit behind the optional sign. -/
def takeExponent : Text → NumberCut
  | [] => ⟨false, [], []⟩
  | c :: cs =>
    let sign := takeSign cs
    let digits := cs.drop sign.length
    if (c = 'e' ∨ c = 'E') ∧ (digits.head?.map isDigit).getD false then
      ⟨true, c :: sign ++ digits.takeWhile isDigit, digits.dropWhile isDigit⟩
    else ⟨false, [], c :: cs⟩

def takeNumber (t : Text) : NumberCut :=
  let fraction := takeFraction (t.dropWhile isDigit)
  let exponent := takeExponent fraction.rest
  ⟨fraction.isFloat || exponent.isFloat,
    t.takeWhile isDigit ++ fraction.taken ++ exponent.taken, exponent.rest⟩

def scanForFloatUpto (loc : SourceLocation) : ℕ → ℕ → Option Char → Text → List Diag
  | 0, _, _, _ => []
  | _ + 1, _, _, [] => []
  | fuel + 1, pos, prev, c :: cs =>
    if c = '"' then
      let s := takeString cs
      scanForFloatUpto loc fuel (pos + 1 + s.1.length) (c :: s.1).getLast? s.2
    else if c = '/' ∧ cs.head? = some '/' then []
    else if c = '/' ∧ cs.head? = some '*' then
      let b := takeBlock cs.tail
      scanForFloatUpto loc fuel (pos + 2 + b.copied.length) ('*' :: b.copied).getLast? b.rest
    else if isDigit c ∧ afterIdent prev = false then
      let n := takeNumber (c :: cs)
      (if n.isFloat then [⟨.error, locAt (some loc) pos, .floatOnPassthrough, none⟩] else [])
        ++ scanForFloatUpto loc fuel (pos + n.taken.length) n.taken.getLast? n.rest
    else scanForFloatUpto loc fuel (pos + 1) (some c) cs

def scanForFloatOnPassthrough (text : Text) (loc : SourceLocation) : List Diag :=
  scanForFloatUpto loc (text.length + 1) 0 none text

end Preprocess

end Nslc
