import Nslc.Basic.Diagnostic
import Nslc.Common.StableSort
import Nslc.LSP.DocumentPosition
import Nslc.Preprocess.Machine
/-!
# LSP — mapping diagnostics

`toLspDiagnostic` turns a reported diagnostic into the one the editor
gets: the location resolved to a line and a UTF-16 column, a code and a
source read off the message, and the notes as related information.
`toLspDiagnosticArray` sorts what it made.

A location in a file that is not registered stops the program: `none`.
-/

namespace Nslc

namespace LSP

/-- `nsl::Diagnostic`, its notes attached. -/
structure NotedDiagnostic where
  severity : Severity
  loc : Option SourceLocation
  message : String
  notes : List AttachedNote

structure Range where
  start : Position
  end_ : Position
  deriving DecidableEq, Repr

structure RelatedInformation where
  range : Range
  uri : Text
  message : String
  deriving DecidableEq, Repr

/-- The fields of the JSON object. `code` and `relatedInformation` are
left out of it where they are empty. -/
structure LspDiagnostic where
  range : Range
  severity : ℕ
  code : Text
  source : Text
  message : String
  relatedInformation : List RelatedInformation
  deriving DecidableEq, Repr

/-! ## Reading the message -/

def severityToLsp : Severity → ℕ
  | .error => 1
  | .warning => 2
  | .note => 3

/-- The blanks `StringRef::rtrim` drops. -/
def isBlankByte (c : Char) : Bool :=
  c == ' ' || c == '\t' || c == '\n' || c.toNat == 11 || c.toNat == 12 || c == '\r'

/-- `StringRef::consumeInteger` of a text that is all digits, into 32
bits. -/
def wholeInteger (t : Text) : Option ℕ :=
  if t ≠ [] ∧ t.all Preprocess.isDigit ∧ Preprocess.decimalValue t < 2 ^ 32 then
    some (Preprocess.decimalValue t)
  else none

/-- `extractCode`: the letter and number in parentheses that end a
message, the number in two digits at least. -/
def extractCode (message : Text) : Text :=
  let msg := message.rdropWhile isBlankByte
  if msg.length < 4 ∨ msg.getLast? ≠ some ')' ∨ '(' ∉ msg then []
  else
    let inside := msg.dropLast.rtakeWhile (· ≠ '(')
    match inside with
    | [] => []
    | letter :: tail =>
      if letter ≠ 'S' ∧ letter ≠ 'N' ∧ letter ≠ 'P' then []
      else
        match wholeInteger tail with
        | none => []
        | some n => letter :: ((if n < 10 then ['0'] else []) ++ Nat.toDigits 10 n)

/-- `StringRef::contains`. -/
def contains (msg part : Text) : Bool := msg.tails.any part.isPrefixOf

/-- `inferSource`. -/
def inferSource (msg code : Text) : Text :=
  if code.head? = some 'S' then "nsl-sema".toList
  else if code.head? = some 'N' then "nsl-parse".toList
  else if code.head? = some 'P' then "nsl-preprocess".toList
  else if ["#include", "#define", "#if", "%", "preprocessor", "could not find include", "include:",
      "macro"].any fun part => contains msg part.toList then "nsl-preprocess".toList
  else if ["expected", "unexpected", "missing"].any fun part => contains msg part.toList then
    "nsl-parse".toList
  else "nsl-sema".toList

/-! ## Locations -/

def hexDigit (n : ℕ) : Char := "0123456789ABCDEF".toList.getD n '0'

def isUnreserved (c : Char) : Bool :=
  ('A' ≤ c && c ≤ 'Z') || ('a' ≤ c && c ≤ 'z') || ('0' ≤ c && c ≤ '9') || c == '-' || c == '_' ||
    c == '.' || c == '~' || c == '/'

/-- `percentEncodePath`. -/
def percentEncodePath (path : Text) : Text :=
  path.flatMap fun c =>
    if isUnreserved c then [c] else ['%', hexDigit (c.toNat / 16 % 16), hexDigit (c.toNat % 16)]

/-- A location resolved: the path, the line and the column in bytes,
both from 0, and the bytes of the line. -/
structure Resolved where
  path : Text
  line : ℕ
  byteColumn : ℕ
  lineText : List UInt8

def resolveLoc (sm : SourceManager) (loc : SourceLocation) : Option Resolved :=
  (sm.buffer? loc.file).map fun b =>
    let v := b.resolveVirtual (sm.offsetOf loc)
    ⟨v.1, v.2.1 - 1, v.2.2 - 1, octets (getLine b.bytes (sm.offsetOf loc))⟩

/-- `buildRange`; the invalid location is in no file. -/
def buildRange (sm : SourceManager) (loc : Option SourceLocation) (length : ℕ) : Option Range :=
  (loc.bind (resolveLoc sm)).map fun r =>
    let utf16Start := byteToUtf16Column r.lineText r.byteColumn
    let utf16End :=
      if 0 < length then byteToUtf16Column r.lineText (r.byteColumn + length) else utf16Start
    ⟨⟨r.line, utf16Start.toNat⟩, ⟨r.line, utf16End.toNat⟩⟩

def relatedInformation (sm : SourceManager) (note : AttachedNote) : Option RelatedInformation :=
  (resolveLoc sm note.loc).map fun r =>
    let utf16 := byteToUtf16Column r.lineText r.byteColumn
    ⟨⟨⟨r.line, utf16.toNat⟩, ⟨r.line, utf16.toNat⟩⟩,
      "file://".toList ++ percentEncodePath r.path, note.message⟩

/-! ## The mapping -/

def toLspDiagnostic (sm : SourceManager) (d : NotedDiagnostic) : Option LspDiagnostic :=
  let code := extractCode d.message.toList
  (buildRange sm d.loc 0).bind fun range =>
    (d.notes.mapM (relatedInformation sm)).map fun related =>
      ⟨range, severityToLsp d.severity, code, inferSource d.message.toList code, d.message, related⟩

/-- The comparison the sort is called with. -/
def lspLess (a b : LspDiagnostic) : Bool :=
  if a.range.start.line ≠ b.range.start.line then a.range.start.line < b.range.start.line
  else if a.range.start.character ≠ b.range.start.character then
    a.range.start.character < b.range.start.character
  else a.severity < b.severity

def toLspDiagnosticArray (sm : SourceManager) (diags : List NotedDiagnostic) :
    Option (List LspDiagnostic) :=
  (diags.mapM (toLspDiagnostic sm)).map fun mapped => mapped.mergeSort fun a b => !lspLess b a

/-! ## The order -/

/-- Line, character, severity. -/
def sortKey (d : LspDiagnostic) : ℕ ×ₗ ℕ ×ₗ ℕ :=
  toLex (d.range.start.line, toLex (d.range.start.character, d.severity))

theorem not_lspLess (a b : LspDiagnostic) : (!lspLess b a) = StableSort.keyLe sortKey a b := by
  rw [StableSort.keyLe, Bool.eq_iff_iff, decide_eq_true_iff]
  simp only [sortKey, Prod.Lex.toLex_le_toLex, lspLess]
  split_ifs with hline hcol
  · simp only [Bool.not_eq_true', decide_eq_false_iff_not]
    omega
  · simp only [Bool.not_eq_true', decide_eq_false_iff_not]
    omega
  · simp only [Bool.not_eq_true', decide_eq_false_iff_not]
    omega

/-- **The array is what was mapped, sorted stably.** -/
theorem toLspDiagnosticArray_eq {sm : SourceManager} {diags : List NotedDiagnostic}
    {mapped : List LspDiagnostic} (h : diags.mapM (toLspDiagnostic sm) = some mapped) :
    ∃ published, toLspDiagnosticArray sm diags = some published ∧
      StableSort.StablySorted sortKey mapped published := by
  have hle : (fun a b => !lspLess b a) = StableSort.keyLe sortKey := by
    funext a b
    exact not_lspLess a b
  refine ⟨_, by rw [toLspDiagnosticArray, h, Option.map_some], ?_⟩
  rw [hle]
  exact StableSort.stablySorted_mergeSort sortKey mapped

end LSP

end Nslc
