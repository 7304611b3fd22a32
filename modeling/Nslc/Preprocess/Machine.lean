import Nslc.Common.Run
import Nslc.Preprocess.Splice
import Nslc.Preprocess.Directive
/-!
# Preprocessor — the line machine

`Preprocessor::Impl::runFile` as a step function. A state holds the
include stack, the macro table, the reported diagnostics and the output
so far; one step reads a line of the innermost frame and dispatches on
its directive, or pops a frame that is at its end. The machine halts
when the include stack is empty, or for good at an abort.
-/

namespace Nslc

namespace Preprocess

/-- What a run does not change: the evaluator, the files that exist, and
the two include search lists. -/
structure Env where
  expr : PPExpression
  files : Text → Option SourceText
  quotePaths : List Text
  anglePaths : List Text

structure CondFrame where
  /-- Whether the branch being read is selected. -/
  currentlyEmitting : Bool
  anyBranchTaken : Bool
  /-- Whether the opener stood in a branch that is not selected. -/
  parentSuppressed : Bool
  openerLoc : SourceLocation
  deriving DecidableEq, Repr

structure Frame where
  fid : FileID
  /-- Byte offset of the next line. -/
  cursor : ℕ
  /-- Its physical number, from 1. -/
  physicalLine : ℕ
  /-- Open conditionals of this file, innermost first. -/
  condStack : List CondFrame
  deriving DecidableEq, Repr

structure State where
  sm : SourceManager
  diags : List Diag
  macros : MacroTable
  /-- Innermost frame first. -/
  includeStack : List Frame
  output : Text
  aborted : Option Abort
  deriving DecidableEq, Repr

/-- `Preprocessor::kMaxIncludeDepth`. -/
def kMaxIncludeDepth : ℕ := 256

/-- Whether text read under these open conditionals is selected. -/
def isEmitting : List CondFrame → Bool
  | [] => true
  | cf :: _ => cf.currentlyEmitting

/-! ## Output -/

/-- The canonical marker `emitLineDirective` writes. -/
def lineMarker (lineNo : ℕ) (path : Text) : Text :=
  "#line ".toList ++ Nat.toDigits 10 (lineNo % 2 ^ 32) ++
    (if path = [] then [] else " \"".toList ++ path ++ ['"']) ++ ['\n']

namespace State

def emit (s : State) (t : Text) : State := { s with output := s.output ++ t }

def addDiags (s : State) (ds : List Diag) : State := { s with diags := s.diags ++ ds }

def report (s : State) (loc : SourceLocation) (m : Message) : State :=
  s.addDiags [⟨.error, some loc, m, none⟩]

def abort (s : State) (a : Abort) : State := { s with aborted := some a }

end State

/-! ## Conditional directives -/

def pushCondFrame (st : List CondFrame) (taken : Bool) (loc : SourceLocation) : List CondFrame :=
  let parentSuppressed := !isEmitting st
  ⟨if parentSuppressed then false else taken, if parentSuppressed then false else taken,
    parentSuppressed, loc⟩ :: st

def handleIfdef (macros : MacroTable) (name : Text) (negate : Bool) (loc : SourceLocation)
    (st : List CondFrame) : List CondFrame × List Diag :=
  if name = [] then
    (pushCondFrame st false loc, [⟨.error, some loc, .ifdefMissingIdent, none⟩])
  else
    let defined := macros.defined name
    (pushCondFrame st (if negate then !defined else defined) loc, [])

/-- The condition is evaluated whether or not the directive stands in a
selected branch. -/
def handleIf (E : PPExpression) (macros : MacroTable) (expr : Text) (loc : SourceLocation)
    (st : List CondFrame) : List CondFrame × List Diag :=
  let r := E.parse macros expr
  (pushCondFrame st (E.isTruthy r.1) loc, r.2.map (Finding.diag (some loc)))

def handleElse (loc : SourceLocation) (st : List CondFrame) : List CondFrame × List Diag :=
  match st with
  | [] => ([], [⟨.error, some loc, .elseWithoutIf, none⟩])
  | cf :: rest =>
    if cf.parentSuppressed then ({ cf with currentlyEmitting := false } :: rest, [])
    else if cf.anyBranchTaken then ({ cf with currentlyEmitting := false } :: rest, [])
    else ({ cf with currentlyEmitting := true, anyBranchTaken := true } :: rest, [])

def handleEndif (loc : SourceLocation) (st : List CondFrame) : List CondFrame × List Diag :=
  match st with
  | [] => ([], [⟨.error, some loc, .endifWithoutIf, none⟩])
  | _ :: rest => (rest, [])

/-- What a line does to the open conditionals, and what it reports. -/
def condStep (E : PPExpression) (macros : MacroTable) (loc : SourceLocation)
    (d : ParsedDirective) (st : List CondFrame) : List CondFrame × List Diag :=
  match d with
  | .ifdef name => handleIfdef macros name false loc st
  | .ifndef name => handleIfdef macros name true loc st
  | .ifExpr e => handleIf E macros e loc st
  | .els => handleElse loc st
  | .endif => handleEndif loc st
  | _ => (st, [])

/-! ## Macro directives -/

def handleDefine (s : State) (name body : Text) (loc : SourceLocation) : State :=
  if name = [] then s.report loc .defineMissingIdent
  else
    let s' := { s with macros := s.macros.redefine name body (some loc) }
    -- a `-D` macro has no location to note, and its redefinition is silent
    match (s.macros.lookup name).bind MacroDef.definingLoc with
    | none => s'
    | some prev => s'.addDiags [⟨.warning, some loc, .macroRedefined name, some prev⟩]

def handleUndef (s : State) (name : Text) (loc : SourceLocation) : State :=
  if name = [] then s.report loc .undefMissingIdent
  else { s with macros := s.macros.undef name }

/-! ## `#line` -/

/-- The value of a run of decimal digits. -/
def decimalValue (ds : Text) : ℕ := ds.foldl (fun n c => n * 10 + (c.toNat - '0'.toNat)) 0

/-- The operand of `#line` after splicing: the number, the quoted file
name (`none` if absent), and whether something follows. -/
inductive LineOperand where
  | notPositive
  | unterminated
  | ok (lineNo : ℕ) (path : Option Text) (trailing : Bool)
  deriving DecidableEq, Repr

def parseLineOperand (expanded : Text) : LineOperand :=
  let s := expanded.dropWhile isWS
  let digits := s.takeWhile isDigit
  if digits = [] then .notPositive
  else
    let rest := (s.dropWhile isDigit).dropWhile isWS
    match rest with
    | [] => .ok (decimalValue digits) none false
    | c :: cs =>
      if c = '"' then
        if '"' ∈ cs then
          let after := ((cs.dropWhile (· ≠ '"')).tail).dropWhile isWS
          .ok (decimalValue digits) (some (cs.takeWhile (· ≠ '"'))) (after ≠ [])
        else .unterminated
      else .ok (decimalValue digits) none true

def handleLine (E : PPExpression) (s : State) (fid : FileID) (operand : Text)
    (loc : SourceLocation) (lineEnd : ℕ) : State :=
  let r := splice E s.macros operand loc
  let s := s.addDiags r.2
  match parseLineOperand r.1 with
  | .notPositive => s.report loc .lineNotPositive
  | .unterminated => s.report loc .lineUnterminatedFilename
  | .ok lineNo path trailing =>
    let s := if trailing then s.report loc .lineTrailing else s
    if kMaxOffset ≤ lineEnd then s.abort .offsetTooLarge
    else
      match s.sm.addLineDirective fid lineEnd (lineNo % 2 ^ 32) (path.getD []) with
      | none => s.abort .lineDirectiveOrder
      | some sm => ({ s with sm := sm }).emit (lineMarker lineNo (path.getD []))

/-! ## `#include` -/

def joinPath (dir name : Text) : Text :=
  if dir = [] then name
  else if dir.getLast? = some '/' then dir ++ name
  else dir ++ '/' :: name

/-- Everything before the final slash. -/
def dirOf (path : Text) : Text :=
  if '/' ∈ path then ((path.reverse.dropWhile (· ≠ '/')).drop 1).reverse else []

namespace Env

def fileExists (env : Env) (p : Text) : Bool := (env.files p).isSome

def findQuote (env : Env) (filename includingDir : Text) : Option Text :=
  let p := if includingDir = [] then filename else joinPath includingDir filename
  if env.fileExists p then some p
  else (env.quotePaths.map (joinPath · filename)).find? env.fileExists

def findAngle (env : Env) (filename : Text) : Option Text :=
  (env.anglePaths.map (joinPath · filename)).find? env.fileExists

/-- The file an include directive of a frame resolves to. -/
def resolve (env : Env) (filename : Text) (isAngle : Bool) (includer : Text) : Option Text :=
  if isAngle then env.findAngle filename else env.findQuote filename (dirOf includer)

end Env

/-- The paths of the open frames, outermost first. -/
def includeTrace (s : State) (resolved : Text) : Text :=
  let arrow := " -> ".toList
  (s.includeStack.reverse.map fun f => s.sm.getPath f.fid ++ arrow).flatten ++ resolved

/-- `loadFile`: a path already registered keeps its buffer. -/
inductive Loaded where
  | cannotOpen
  | exhausted
  | ok (sm : SourceManager) (fid : FileID)

def loadFile (env : Env) (sm : SourceManager) (path : Text) : Loaded :=
  match sm.findFileIDByPath path with
  | some fid => .ok sm fid
  | none =>
    match env.files path with
    | none => .cannotOpen
    | some t =>
      match sm.addBufferInMemory path t.text with
      | none => .exhausted
      | some (sm', fid) => .ok sm' fid

/-- What `handleInclude` does behind the depth guard: load the file and
push its frame. -/
def openInclude (env : Env) (s : State) (path : Text) (loc : SourceLocation) : State :=
  match loadFile env s.sm path with
  | .cannotOpen => s.report loc (.includeNotOpened path)
  | .exhausted => s.abort .fileIdExhausted
  | .ok sm inner =>
    let s := { s with
      sm := sm.pushIncludeFrame loc inner
      includeStack := ⟨inner, 0, 1, []⟩ :: s.includeStack }
    s.emit (lineMarker 1 (sm.getPath inner))

def handleInclude (env : Env) (s : State) (fid : FileID) (filename : Text) (isAngle : Bool)
    (loc : SourceLocation) : State :=
  if filename = [] then s.report loc .includeEmptyFilename
  else
    match env.resolve filename isAngle (s.sm.getPath fid) with
    | none => s.report loc (.includeNotFound filename)
    | some path =>
      if kMaxIncludeDepth < s.includeStack.length + 1 then
        s.report loc (.includeCycle (includeTrace s path))
      else openInclude env s path loc

/-! ## One step -/

/-- `readLine`. -/
def readLine (buf : Text) (cursor : ℕ) : Option Line :=
  if buf.length ≤ cursor then none else some (takeLine (buf.drop cursor)).1

/-- A passthrough line in a selected branch. -/
def passLine (E : PPExpression) (s : State) (text : Text) (loc : SourceLocation)
    (term : Text) : State :=
  let r := splice E s.macros text loc
  let s := s.addDiags (r.2 ++ scanForHelperOnPassthrough r.1 loc ++
    scanForFloatOnPassthrough r.1 loc)
  s.emit (r.1 ++ term)

/-- Frame `f` behind line `l`. -/
def Frame.advance (f : Frame) (l : Line) : Frame :=
  { f with cursor := f.cursor + l.bytes.length, physicalLine := f.physicalLine + 1 }

/-- The line about to be read, as a location. -/
def Frame.loc (f : Frame) : SourceLocation := ⟨f.fid, f.physicalLine, 0⟩

/-- The frame behind line `l`, its conditional handled. -/
def Frame.next (env : Env) (s : State) (f : Frame) (l : Line) : Frame :=
  { f.advance l with
    condStack := (condStep env.expr s.macros f.loc (lineDirective l) f.condStack).1 }

/-- The dispatch on line `l` of frame `f`, whose conditional reports
`reports`. Every directive is dispatched; the ones that are not about
conditionals act only in a selected branch. -/
def dispatch (env : Env) (s : State) (f : Frame) (l : Line) (reports : List Diag) : State :=
  let emitting := isEmitting f.condStack
  match lineDirective l with
  | .passthrough =>
    if emitting then passLine env.expr s (stripCR l.body) f.loc l.term else s.emit l.term
  | .define name body => (if emitting then handleDefine s name body f.loc else s).emit l.term
  | .undef name => (if emitting then handleUndef s name f.loc else s).emit l.term
  | .ifdef _ | .ifndef _ | .ifExpr _ | .els | .endif => (s.addDiags reports).emit l.term
  | .line operand =>
    if emitting then handleLine env.expr s f.fid operand f.loc (f.advance l).cursor
    else s.emit l.term
  | .incl filename isAngle =>
    if emitting then handleInclude env s f.fid filename isAngle f.loc else s.emit l.term
  | .unknown name =>
    (if emitting then s.report f.loc (.unknownDirective name) else s).emit l.term

/-- A line of frame `f` that stands in front of the frames `fs`: the
frame moves past the line before the line is dispatched. -/
def stepLine (env : Env) (s : State) (f : Frame) (fs : List Frame) (l : Line) : State :=
  dispatch env { s with includeStack := f.next env s l :: fs } f l
    (condStep env.expr s.macros f.loc (lineDirective l) f.condStack).2

/-- The end of frame `f`: open conditionals are reported, outermost
first, and the includer's location is re-established. -/
def stepEof (s : State) (f : Frame) (fs : List Frame) : State :=
  let s := s.addDiags (f.condStack.reverse.map fun cf =>
    ⟨.error, some cf.openerLoc, .unterminatedIf, none⟩)
  let s := { s with includeStack := fs }
  match fs with
  | [] => s
  | outer :: _ =>
    match s.sm.popIncludeFrame with
    | none => s.abort .includeStackEmpty
    | some sm => ({ s with sm := sm }).emit (lineMarker outer.physicalLine (sm.getPath outer.fid))

/-- One iteration of the loop of `runFile`. -/
def step (env : Env) (s : State) : Option State :=
  if s.aborted.isSome then none
  else
    match s.includeStack with
    | [] => none
    | f :: fs =>
      match readLine (s.sm.getBuffer f.fid) f.cursor with
      | none => some (stepEof s f fs)
      | some l => some (stepLine env s f fs l)

/-! ## Runs -/

/-- The state in which `runFile` starts on the file `path`, the first
buffer registered, under the given `-D` definitions. -/
def initial (path : Text) (input : SourceText) (predefined : List (Text × Text)) : State where
  sm := ⟨[⟨path, input.text, []⟩], []⟩
  diags := []
  macros := predefined.foldl (fun m d => m.predefine d.1 d.2) []
  includeStack := [⟨1, 0, 1, []⟩]
  output := []
  aborted := none

/-- The state after up to `n` iterations. -/
def runState (env : Env) (n : ℕ) (s : State) : State := Run.runUpto (step env) n s

/-- `runFile` has returned: every frame is read, and no abort stopped it. -/
def State.finished (s : State) : Bool := s.aborted.isNone && s.includeStack.isEmpty

/-- `Preprocessor::run` gives its output: finished, and no error reported. -/
def State.succeeded (s : State) : Bool := s.finished && !hasError s.diags

/-- Nothing to include, and an evaluator that reports nothing; for files
without `#if` and without bodies to reduce. -/
def bareEnv : Env where
  expr :=
    { Value := ℕ
      isTruthy := fun n => n != 0
      render := Nat.toDigits 10
      parse := fun _ _ => (0, [])
      reduceDefineBody := fun _ _ => (none, []) }
  files := fun _ => none
  quotePaths := []
  anglePaths := []

end Preprocess

end Nslc
