import Nslc.Basic.Source
/-!
# Preprocessor — messages, the macro table, the expression evaluator

The diagnostics the preprocessor reports, with their texts; the
insertion-ordered `MacroTable`; and the interface through which the line
machine calls the compile-time expression evaluator. The evaluator
computes with `long double` and is a parameter of the model here: a
truth value and a rendering for whatever values it has, and the
findings it reports, each at a distance from the location it was given.
-/

namespace Nslc

namespace Preprocess

/-! ## Diagnostics -/

inductive Message where
  | defineMissingIdent
  | undefMissingIdent
  | ifdefMissingIdent
  | macroRedefined (name : Text)
  | elseWithoutIf
  | endifWithoutIf
  | unterminatedIf
  | lineNotPositive
  | lineUnterminatedFilename
  | lineTrailing
  | includeEmptyFilename
  | includeNotFound (name : Text)
  | includeCycle (trace : Text)
  | includeNotOpened (path : Text)
  | unknownDirective (name : Text)
  | helperOnPassthrough (name : Text)
  | floatOnPassthrough
  | undefinedMacroRef (name : Text)
  /-- Reported inside the compile-time expression evaluator. -/
  | expr (text : Text)
  deriving DecidableEq, Repr

/-- The text shown to the user. -/
def Message.text : Message → String
  | .defineMissingIdent => "missing identifier in '#define' directive"
  | .undefMissingIdent => "missing identifier in '#undef' directive"
  | .ifdefMissingIdent => "missing identifier in '#ifdef'/'#ifndef' directive"
  | .macroRedefined name => "macro '" ++ String.ofList name ++ "' redefined"
  | .elseWithoutIf => "'#else' without matching '#if' / '#ifdef' / '#ifndef'"
  | .endifWithoutIf => "'#endif' without matching '#if' / '#ifdef' / '#ifndef'"
  | .unterminatedIf => "unterminated #if at end of file"
  | .lineNotPositive =>
    "'#line' directive must be followed by a positive integer (parser-note N14)"
  | .lineUnterminatedFilename => "'#line' directive: unterminated filename string"
  | .lineTrailing => "'#line' directive: unexpected trailing content"
  | .includeEmptyFilename => "could not find include: empty filename"
  | .includeNotFound name => "could not find include: '" ++ String.ofList name ++ "'"
  | .includeCycle trace => "#include cycle detected: " ++ String.ofList trace
  | .includeNotOpened path => "could not open include: '" ++ String.ofList path ++ "'"
  | .unknownDirective name => "unknown preprocessor directive: '#" ++ String.ofList name ++ "'"
  | .helperOnPassthrough name =>
    "compile-time helper '" ++ String.ofList name ++ "' used outside #define / #if condition"
  | .floatOnPassthrough => "float literal cannot cross the preprocessor seam"
  | .undefinedMacroRef name => "undefined macro reference: '%" ++ String.ofList name ++ "%'"
  | .expr text => String.ofList text

/-- The errors about how `#if`, `#else` and `#endif` nest. -/
def Message.isStructural : Message → Bool
  | .elseWithoutIf | .endifWithoutIf | .unterminatedIf => true
  | _ => false

abbrev Diag := Diagnostic Message

/-! ## The macro table -/

structure MacroDef where
  name : Text
  body : Text
  /-- Where it was defined; `none` for a `-D` macro. -/
  definingLoc : Option SourceLocation
  deriving DecidableEq, Repr

/-- Definitions in order of first insertion. -/
abbrev MacroTable := List MacroDef

namespace MacroTable

def lookup (m : MacroTable) (name : Text) : Option MacroDef :=
  m.find? fun d => d.name = name

def defined (m : MacroTable) (name : Text) : Bool := (m.lookup name).isSome

/-- `redefine`: replaces body and location in place, or appends. -/
def redefine (m : MacroTable) (name body : Text) (loc : Option SourceLocation) : MacroTable :=
  if m.defined name then
    m.map fun d => if d.name = name then ⟨name, body, loc⟩ else d
  else m ++ [⟨name, body, loc⟩]

def undef (m : MacroTable) (name : Text) : MacroTable := m.filter fun d => d.name ≠ name

/-- `predefine`: the first `-D` of a name wins. -/
def predefine (m : MacroTable) (name body : Text) : MacroTable :=
  if m.defined name then m else m ++ [⟨name, body, none⟩]

end MacroTable

/-! ## The expression evaluator -/

/-- One report of the evaluator, `delta` bytes behind the location the
evaluation was started at. -/
structure Finding where
  severity : Severity
  delta : ℕ
  text : Text
  deriving DecidableEq, Repr

/-- `PPExpression` as the line machine sees it. -/
structure PPExpression where
  Value : Type
  /-- `PPValue::isTruthy`. -/
  isTruthy : Value → Bool
  /-- `PPValue::render`. -/
  render : Value → Text
  parse : MacroTable → Text → Value × List Finding
  /-- `none` where the body is blank. -/
  reduceDefineBody : MacroTable → Text → Option Value × List Finding

/-- `locAt`: an invalid base stays invalid. -/
def locAt (base : Option SourceLocation) (delta : ℕ) : Option SourceLocation :=
  base.map fun l => { l with delta := l.delta + delta }

/-- The diagnostic a finding becomes. -/
def Finding.diag (base : Option SourceLocation) (f : Finding) : Diag :=
  ⟨f.severity, locAt base f.delta, .expr f.text, none⟩

/-! ## Character classes -/

def isWS (c : Char) : Bool := c == ' ' || c == '\t'

def isDigit (c : Char) : Bool := '0' ≤ c && c ≤ '9'

def isIdentStart (c : Char) : Bool :=
  ('A' ≤ c && c ≤ 'Z') || ('a' ≤ c && c ≤ 'z') || c == '_'

def isIdentBody (c : Char) : Bool := isIdentStart c || isDigit c

theorem isDigit_eq (c : Char) : isDigit c = c.isDigit := by
  simp [isDigit, Char.isDigit, Char.le_def]

theorem isDigit_of_mem_toDigits {n : ℕ} {c : Char} (h : c ∈ Nat.toDigits 10 n) :
    isDigit c = true := by
  rw [isDigit_eq]
  exact Nat.isDigit_of_mem_toDigits (by decide) (by decide) h

end Preprocess

end Nslc
