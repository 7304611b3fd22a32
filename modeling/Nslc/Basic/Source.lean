import Nslc.Common.Lines
import Mathlib
/-!
# Source files — buffers, locations, the line map

`SourceManager` registers the files of a compilation, each with the
`#line` overrides recorded on it, and answers where an offset of a
buffer is: physically (`getLineCol`) and after the overrides
(`resolveVirtual`). Operations of the source that can hit an
`NSL_ABORT` answer `none` there.

A location is kept as the file, the physical line a report is about and
the distance from that line's first byte; the packed byte offset of the
source is that line's offset plus the distance. Nothing modelled here
compares packed offsets of two locations, and keeping the line makes
reports of two runs over files of different lengths comparable.
-/

namespace Nslc

/-- A registered buffer's number; `0` is the source's invalid sentinel. -/
abbrev FileID := ℕ

/-- Offsets are 24 bits wide (`SourceLocation::kMaxOffset`). -/
def kMaxOffset : ℕ := 2 ^ 24

/-- The text of one source file: what a 24-bit offset can address. -/
structure SourceText where
  text : Text
  length_lt : text.length < kMaxOffset

structure SourceLocation where
  file : FileID
  line : ℕ
  delta : ℕ
  deriving DecidableEq, Repr

inductive Severity where
  | note
  | warning
  | error
  deriving DecidableEq, Repr

/-- One reported diagnostic. `loc` is `none` for the invalid location of
a macro predefined on the command line; `previous` is the location of
the attached "previous definition" note, where there is one. -/
structure Diagnostic (μ : Type) where
  severity : Severity
  loc : Option SourceLocation
  message : μ
  previous : Option SourceLocation
  deriving DecidableEq, Repr

/-- `DiagnosticEngine::hasError`. -/
def hasError {μ : Type} (ds : List (Diagnostic μ)) : Bool :=
  ds.any fun d => d.severity == .error

/-- What stops a run for good (an `NSL_ABORT` of the source). -/
inductive Abort where
  | offsetTooLarge
  | fileIdExhausted
  | lineDirectiveOrder
  | includeStackEmpty
  deriving DecidableEq, Repr

/-! ## The source manager -/

/-- A `#line` override: from byte `originOffset` on, lines count from
`virtualLine`; an empty path means the buffer's own. -/
structure LineDirective where
  originOffset : ℕ
  virtualLine : ℕ
  virtualPath : Text
  deriving DecidableEq, Repr

structure Buffer where
  path : Text
  bytes : Text
  lineOverrides : List LineDirective
  deriving DecidableEq, Repr

structure SourceManager where
  /-- `FileID` `i + 1` is the `i`-th entry. -/
  buffers : List Buffer
  /-- Innermost include first: the directive's location, the file pulled in. -/
  includeStack : List (SourceLocation × FileID)
  deriving DecidableEq, Repr

namespace SourceManager

def buffer? (sm : SourceManager) (f : FileID) : Option Buffer :=
  if f = 0 then none else sm.buffers[f - 1]?

def getBuffer (sm : SourceManager) (f : FileID) : Text :=
  ((sm.buffer? f).map Buffer.bytes).getD []

def getPath (sm : SourceManager) (f : FileID) : Text :=
  ((sm.buffer? f).map Buffer.path).getD []

/-- `Impl::allocate`: at most 255 buffers besides the sentinel. -/
def addBufferInMemory (sm : SourceManager) (path bytes : Text) :
    Option (SourceManager × FileID) :=
  if sm.buffers.length < 255 then
    some ({ sm with buffers := sm.buffers ++ [⟨path, bytes, []⟩] }, sm.buffers.length + 1)
  else none

/-- The number of the first buffer registered under `path`. -/
def findFileIDByPath (sm : SourceManager) (path : Text) : Option FileID :=
  (sm.buffers.findIdx? fun b => b.path = path).map (· + 1)

/-- `addLineDirective`, which insists on increasing offsets. -/
def addLineDirective (sm : SourceManager) (f : FileID) (offset virtualLine : ℕ)
    (virtualPath : Text) : Option SourceManager :=
  match sm.buffer? f with
  | none => none
  | some b =>
    if b.lineOverrides.getLast?.all fun d => d.originOffset < offset then
      some { sm with
        buffers := sm.buffers.set (f - 1)
          { b with lineOverrides := b.lineOverrides ++ [⟨offset, virtualLine, virtualPath⟩] } }
    else none

def pushIncludeFrame (sm : SourceManager) (loc : SourceLocation) (f : FileID) : SourceManager :=
  { sm with includeStack := (loc, f) :: sm.includeStack }

def popIncludeFrame (sm : SourceManager) : Option SourceManager :=
  match sm.includeStack with
  | [] => none
  | _ :: fs => some { sm with includeStack := fs }

end SourceManager

/-! ## Where an offset is -/

/-- The offsets at which the lines of a buffer begin, the text standing
at `off`. -/
@[grind =] def lineStartsFrom : ℕ → Text → List ℕ
  | _, [] => []
  | off, c :: cs =>
    if c = '\n' then (off + 1) :: lineStartsFrom (off + 1) cs else lineStartsFrom (off + 1) cs

/-- `buildLineOffsetsIfNeeded`: line one begins at `0`. -/
def lineOffsets (bytes : Text) : List ℕ := 0 :: lineStartsFrom 0 bytes

/-- The index of the last line beginning at or before `off`. -/
def lineIdx (bytes : Text) (off : ℕ) : ℕ :=
  ((lineOffsets bytes).countP fun o => o ≤ off) - 1

/-- `getLineCol`, both 1-based. -/
def getLineCol (bytes : Text) (off : ℕ) : ℕ × ℕ :=
  (lineIdx bytes off + 1, off - (lineOffsets bytes).getD (lineIdx bytes off) 0 + 1)

/-- Of two overrides the one of larger origin, the earlier at a tie. -/
def keepLater (active : Option LineDirective) (d : LineDirective) : Option LineDirective :=
  match active with
  | none => some d
  | some e => if e.originOffset < d.originOffset then some d else some e

/-- The override in force at `off`: the scan stops at the first one
beyond `off` and keeps the one of largest origin. -/
def activeDirective (ds : List LineDirective) (off : ℕ) : Option LineDirective :=
  (ds.takeWhile fun d => d.originOffset ≤ off).foldl keepLater none

/-- `SourceManager::resolveVirtual`: path, line and column after the
overrides, lines counted in 32 bits. -/
def Buffer.resolveVirtual (b : Buffer) (off : ℕ) : Text × ℕ × ℕ :=
  let (physLine, physCol) := getLineCol b.bytes off
  match activeDirective b.lineOverrides off with
  | none => (b.path, physLine, physCol)
  | some d =>
    let originLine := lineIdx b.bytes d.originOffset + 1
    (if d.virtualPath = [] then b.path else d.virtualPath,
      (d.virtualLine + (physLine - originLine)) % 2 ^ 32, physCol)

end Nslc
