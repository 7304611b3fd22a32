import Nslc.Common.Nesting
import Nslc.Preprocess.Macro
/-!
# Preprocessor — classifying a line

`classifyLine` decides which directive a line is and cuts its operands
out of the bytes. A line is a directive only with `#` in column zero: an
indented `#` is passthrough text.
-/

namespace Nslc

namespace Preprocess

/-- A classified line with the operands its kind has. -/
inductive ParsedDirective where
  | passthrough
  | incl (filename : Text) (isAngle : Bool)
  | define (name body : Text)
  | undef (name : Text)
  | ifdef (name : Text)
  | ifndef (name : Text)
  | ifExpr (expr : Text)
  | els
  | endif
  | line (operand : Text)
  | unknown (name : Text)
  deriving DecidableEq, Repr

/-- An identifier at the start of `s`; empty if there is none. -/
def readIdent (s : Text) : Text :=
  match s with
  | [] => []
  | c :: _ => if isIdentStart c then s.takeWhile isIdentBody else []

/-- Bytes satisfying `p` removed at the end of `s`. -/
def dropEndWhile (p : Char → Bool) (s : Text) : Text := (s.reverse.dropWhile p).reverse

def trim (s : Text) : Text := dropEndWhile isWS (s.dropWhile isWS)

/-- The operand of `#include`: the text between the delimiters, empty if
the closing one is missing. -/
def includeOperand (tail : Text) : ParsedDirective :=
  let between (close : Char) (s : Text) : Text :=
    if close ∈ s then s.takeWhile (· ≠ close) else []
  match tail with
  | [] => .incl [] false
  | c :: cs =>
    if c = '"' then .incl (between '"' cs) false
    else if c = '<' then .incl (between '>' cs) true
    else .incl [] false

/-- The operands of `#define`: the name, and the body up to trailing
blanks. -/
def defineOperand (rest : Text) : ParsedDirective :=
  let s := rest.dropWhile isWS
  let name := readIdent s
  let body := (s.drop name.length).dropWhile isWS
  .define name (dropEndWhile (fun c => isWS c || c == '\r') body)

/-- The directive named `kw`, `rest` being the bytes behind the keyword. -/
def directiveOf (kw rest : Text) : ParsedDirective :=
  let tail := trim rest
  if kw = "include".toList then includeOperand tail
  else if kw = "define".toList then defineOperand rest
  else if kw = "undef".toList then .undef tail
  else if kw = "ifdef".toList then .ifdef tail
  else if kw = "ifndef".toList then .ifndef tail
  else if kw = "if".toList then .ifExpr tail
  else if kw = "else".toList then .els
  else if kw = "endif".toList then .endif
  else if kw = "line".toList then .line tail
  else .unknown kw

def classifyLine (line : Text) : ParsedDirective :=
  match line with
  | [] => .passthrough
  | c :: cs =>
    if c = '#' then
      let s := cs.dropWhile isWS
      let kw := readIdent s
      if kw = [] then .unknown [] else directiveOf kw (s.drop kw.length)
    else .passthrough

/-- A trailing carriage return is not part of the line. -/
def stripCR (body : Text) : Text :=
  if body.getLast? = some '\r' then body.dropLast else body

/-- What a physical line is. -/
def lineDirective (l : Line) : ParsedDirective := classifyLine (stripCR l.body)

/-! ## Conditional directives -/

/-- The mark of a directive; the other directives play no part. -/
def ParsedDirective.mark? : ParsedDirective → Option Nesting.Mark
  | .ifdef _ | .ifndef _ | .ifExpr _ => some .opener
  | .els => some .els
  | .endif => some .endif
  | _ => none

/-- The conditional marks of a sequence of lines, in order. -/
def condMarks (ls : List Line) : List Nesting.Mark := ls.filterMap fun l => (lineDirective l).mark?

end Preprocess

end Nslc
