import Nslc.Preprocess.Machine
/-!
# Preprocessor — what a step can do

The inversion of `step`, `stepLine` and `stepEof` the invariants are
derived from. A line leaves the files, the frames and the abort flag
alone but for its own frame moving past it, unless it is a `#line` that
registers an override or an `#include` that opens a frame.
-/

namespace Nslc

namespace Preprocess

/-! ## Reading lines -/

theorem readLine_eq_head (buf : Text) (c : ℕ) :
    readLine buf c = (splitLines (buf.drop c)).head? := by
  unfold readLine
  split
  · rename_i h
    rw [List.drop_eq_nil_of_le h]
    rfl
  · rename_i h
    have hne : buf.drop c ≠ [] := by
      intro he
      exact h (List.drop_eq_nil_iff.1 he)
    rw [splitLines_eq_takeLine hne]
    rfl

theorem splitLines_of_readLine {buf : Text} {c : ℕ} {l : Line} (h : readLine buf c = some l) :
    splitLines (buf.drop c) = l :: (splitLines (buf.drop c)).tail := by
  rw [readLine_eq_head] at h
  exact List.eq_cons_of_mem_head? (by simp [h])

/-- Behind a line stand the remaining lines. -/
theorem splitLines_drop_bytes {buf : Text} {c : ℕ} {l : Line} (h : readLine buf c = some l) :
    splitLines (buf.drop (c + l.bytes.length)) = (splitLines (buf.drop c)).tail := by
  rw [← List.drop_drop]
  exact splitLines_drop_of_cons (splitLines_of_readLine h)

/-- A line is never empty: it has its newline or a byte before the end. -/
theorem bytes_length_pos {buf : Text} {c : ℕ} {l : Line} (h : readLine buf c = some l) :
    0 < l.bytes.length ∧ c + l.bytes.length ≤ buf.length := by
  obtain ⟨hpos, hle⟩ := bytes_length_pos_of_cons (splitLines_of_readLine h)
  rw [List.length_drop] at hle
  omega

theorem stripCR_no_newline {buf : Text} {c : ℕ} {l : Line} (h : readLine buf c = some l) :
    '\n' ∉ stripCR l.body := by
  have hbody := body_no_newline_of_mem (List.mem_of_mem_head?
    (by rw [← readLine_eq_head, h]; rfl))
  intro hmem
  unfold stripCR at hmem
  split_ifs at hmem
  · exact hbody (List.mem_of_mem_dropLast hmem)
  · exact hbody hmem

/-! ## One step -/

variable {env : Env} {s t : State} {f : Frame} {fs : List Frame} {l : Line}

/-- A step reads a line of the innermost frame, or ends the frame. -/
theorem step_cases (h : step env s = some t) :
    ∃ f fs, s.aborted = none ∧ s.includeStack = f :: fs ∧
      ((readLine (s.sm.getBuffer f.fid) f.cursor = none ∧ t = stepEof s f fs) ∨
        ∃ l, readLine (s.sm.getBuffer f.fid) f.cursor = some l ∧ t = stepLine env s f fs l) := by
  unfold step at h
  split at h
  · exact absurd h (by simp)
  · rename_i hab
    have hab' : s.aborted = none := by simpa using hab
    split at h
    · exact absurd h (by simp)
    · rename_i f fs hst
      refine ⟨f, fs, hab', hst, ?_⟩
      split at h
      · rename_i hr
        exact .inl ⟨hr, by simpa using h.symm⟩
      · rename_i l hr
        exact .inr ⟨l, hr, by simpa using h.symm⟩

theorem step_eq_none_iff : step env s = none ↔ s.aborted ≠ none ∨ s.includeStack = [] := by
  unfold step
  split
  · rename_i h
    simp only [true_iff]
    exact .inl (by simpa [Option.isSome_iff_ne_none] using h)
  · rename_i h
    have h' : s.aborted = none := by simpa using h
    split
    · rename_i hst
      simp [hst]
    · rename_i f fs hst
      simp only [h', hst]
      split <;> simp

theorem runState_succ (env : Env) (n : ℕ) (s : State) :
    runState env (n + 1) s = (step env (runState env n s)).getD (runState env n s) :=
  Run.runUpto_succ n s

/-! ## One line -/

theorem includeOperand_ne (tail : Text) : includeOperand tail ≠ .passthrough := by
  unfold includeOperand
  split
  · exact ParsedDirective.noConfusion
  · dsimp only
    split_ifs <;> exact ParsedDirective.noConfusion

/-- A line beginning with `#` is a directive. -/
theorem classifyLine_hash_ne (cs : Text) : classifyLine ('#' :: cs) ≠ .passthrough := by
  rw [classifyLine, if_pos rfl]
  dsimp only
  split
  · exact ParsedDirective.noConfusion
  · unfold directiveOf
    split
    · exact includeOperand_ne _
    · split_ifs <;> exact ParsedDirective.noConfusion

/-- What a line adds to the output where it opens no frame and registers
no override: spliced text in a selected branch, else its terminator. A
`#line` or `#include` that fails adds nothing. -/
def lineOut (env : Env) (s : State) (f : Frame) (l : Line) : Text :=
  match lineDirective l with
  | .passthrough =>
    if isEmitting f.condStack then
      (splice env.expr s.macros (stripCR l.body) f.loc).1 ++ l.term
    else l.term
  | .line _ | .incl _ _ => if isEmitting f.condStack then [] else l.term
  | _ => l.term

/-- Whether the line acts as `#line` or `#include`. -/
def movesLocation (f : Frame) (l : Line) : Bool :=
  isEmitting f.condStack &&
    match lineDirective l with
    | .line _ | .incl _ _ => true
    | _ => false

/-- The line changed nothing about files and frames but its own frame's
position. -/
structure PlainLine (env : Env) (s : State) (f : Frame) (fs : List Frame) (l : Line)
    (t : State) : Prop where
  sm_eq : t.sm = s.sm
  stack_eq : t.includeStack = f.next env s l :: fs
  aborted_eq : t.aborted = s.aborted
  output_eq : t.output = s.output ++ lineOut env s f l

/-- The line registered a `#line` override and wrote its marker. -/
structure LineLine (env : Env) (s : State) (f : Frame) (fs : List Frame) (l : Line)
    (lineNo : ℕ) (path : Option Text) (t : State) : Prop where
  operand : ∃ o, lineDirective l = .line o ∧ ∃ trailing,
    parseLineOperand (splice env.expr s.macros o f.loc).1 = .ok lineNo path trailing
  emitting : isEmitting f.condStack = true
  sm_eq : s.sm.addLineDirective f.fid (f.advance l).cursor (lineNo % 2 ^ 32) (path.getD []) =
    some t.sm
  stack_eq : t.includeStack = f.next env s l :: fs
  aborted_eq : t.aborted = s.aborted
  output_eq : t.output = s.output ++ lineMarker lineNo (path.getD [])

/-- The line opened file `inner`. -/
structure IncludeLine (env : Env) (s : State) (f : Frame) (fs : List Frame) (l : Line)
    (path : Text) (sm : SourceManager) (inner : FileID) (t : State) : Prop where
  operand : ∃ filename isAngle, lineDirective l = .incl filename isAngle ∧ filename ≠ [] ∧
    env.resolve filename isAngle (s.sm.getPath f.fid) = some path
  emitting : isEmitting f.condStack = true
  depth : fs.length + 1 < kMaxIncludeDepth
  loaded : loadFile env s.sm path = .ok sm inner
  sm_eq : t.sm = sm.pushIncludeFrame f.loc inner
  stack_eq : t.includeStack = ⟨inner, 0, 1, []⟩ :: f.next env s l :: fs
  aborted_eq : t.aborted = s.aborted
  output_eq : t.output = s.output ++ lineMarker 1 (sm.getPath inner)

/-- The line stopped the run: a `#line` whose override the line map
refuses, or an `#include` of one file too many. -/
structure AbortLine (env : Env) (s : State) (f : Frame) (fs : List Frame) (l : Line)
    (t : State) : Prop where
  sm_eq : t.sm = s.sm
  stack_eq : t.includeStack = f.next env s l :: fs
  emitting : isEmitting f.condStack = true
  cause : (∃ o lineNo path trailing, lineDirective l = .line o ∧
      parseLineOperand (splice env.expr s.macros o f.loc).1 = .ok lineNo path trailing ∧
      ((kMaxOffset ≤ (f.advance l).cursor ∧ t.aborted = some .offsetTooLarge) ∨
        (s.sm.addLineDirective f.fid (f.advance l).cursor (lineNo % 2 ^ 32) (path.getD []) = none ∧
          t.aborted = some .lineDirectiveOrder))) ∨
    (∃ filename isAngle path, lineDirective l = .incl filename isAngle ∧ filename ≠ [] ∧
      env.resolve filename isAngle (s.sm.getPath f.fid) = some path ∧
      loadFile env s.sm path = .exhausted ∧ t.aborted = some .fileIdExhausted)

theorem AbortLine.aborted_ne (h : AbortLine env s f fs l t) : t.aborted ≠ none := by
  rcases h.cause with ⟨_, _, _, _, -, -, ⟨-, h⟩ | ⟨-, h⟩⟩ | ⟨_, _, _, -, -, -, -, h⟩ <;> simp [h]

theorem plainLine_stepLine_of_not_moves (env : Env) (s : State) (fs : List Frame)
    (h : movesLocation f l = false) :
    PlainLine env s f fs l (stepLine env s f fs l) := by
  unfold movesLocation at h
  unfold stepLine dispatch
  cases hd : lineDirective l with
  | passthrough =>
    by_cases he : isEmitting f.condStack
    · constructor <;> simp [he, hd, passLine, State.emit, State.addDiags, lineOut]
    · constructor <;> simp [he, hd, State.emit, lineOut]
  | define name body =>
    by_cases he : isEmitting f.condStack
    · simp only [he, if_true, handleDefine]
      split
      · constructor <;> simp [hd, State.emit, State.report, State.addDiags, lineOut]
      · split <;> constructor <;> simp [hd, State.emit, State.addDiags, lineOut]
    · constructor <;> simp [he, hd, State.emit, lineOut]
  | undef name =>
    by_cases he : isEmitting f.condStack
    · simp only [he, if_true, handleUndef]
      split <;> constructor <;>
        simp [hd, State.emit, State.report, State.addDiags, lineOut]
    · constructor <;> simp [he, hd, State.emit, lineOut]
  | ifdef name => constructor <;> simp [hd, State.emit, State.addDiags, lineOut]
  | ifndef name => constructor <;> simp [hd, State.emit, State.addDiags, lineOut]
  | ifExpr e => constructor <;> simp [hd, State.emit, State.addDiags, lineOut]
  | els => constructor <;> simp [hd, State.emit, State.addDiags, lineOut]
  | endif => constructor <;> simp [hd, State.emit, State.addDiags, lineOut]
  | line operand =>
    have he : isEmitting f.condStack = false := by simpa [hd] using h
    constructor <;> simp [he, hd, State.emit, lineOut]
  | incl filename isAngle =>
    have he : isEmitting f.condStack = false := by simpa [hd] using h
    constructor <;> simp [he, hd, State.emit, lineOut]
  | unknown name =>
    by_cases he : isEmitting f.condStack
    · constructor <;> simp [he, hd, State.emit, State.report, State.addDiags, lineOut]
    · constructor <;> simp [he, hd, State.emit, lineOut]

/-- An error stays reported when more is. -/
theorem hasError_append_error {ds : List Diag} {d : Diag} (h : d.severity = .error) :
    hasError (ds ++ [d]) = true := by
  simp [hasError, h]

theorem stepLine_of_line (env : Env) (s : State) (fs : List Frame) {o : Text}
    (hd : lineDirective l = .line o) (he : isEmitting f.condStack = true) :
    (PlainLine env s f fs l (stepLine env s f fs l) ∧
        hasError (stepLine env s f fs l).diags = true) ∨
      (∃ lineNo path, LineLine env s f fs l lineNo path (stepLine env s f fs l)) ∨
      AbortLine env s f fs l (stepLine env s f fs l) := by
  have hplain : ∀ (ds : List Diag) (m : Message),
      PlainLine env s f fs l
        ((({ s with includeStack := f.next env s l :: fs } : State).addDiags ds).report f.loc m) := by
    intro ds m
    constructor <;> simp [he, hd, State.report, State.addDiags, lineOut]
  have hstep : stepLine env s f fs l =
      handleLine env.expr { s with includeStack := f.next env s l :: fs } f.fid o f.loc
        (f.advance l).cursor := by
    simp [stepLine, dispatch, hd, he]
  rw [hstep]
  simp only [handleLine]
  split
  · exact .inl ⟨hplain _ _, hasError_append_error rfl⟩
  · exact .inl ⟨hplain _ _, hasError_append_error rfl⟩
  · rename_i lineNo path trailing hop
    split
    · rename_i hoff
      refine .inr (.inr ⟨?_, ?_, he, .inl ⟨o, lineNo, path, trailing, hd, hop, .inl ⟨hoff, rfl⟩⟩⟩)
      all_goals cases trailing <;> rfl
    · split
      · rename_i hadd
        refine .inr (.inr ⟨?_, ?_, he,
          .inl ⟨o, lineNo, path, trailing, hd, hop, .inr ⟨?_, rfl⟩⟩⟩)
        · cases trailing <;> rfl
        · cases trailing <;> rfl
        · cases trailing <;> exact hadd
      · rename_i sm hadd
        refine .inr (.inl ⟨lineNo, path, ⟨o, hd, trailing, hop⟩, he, ?_, ?_, ?_, ?_⟩)
        · cases trailing <;> exact hadd
        all_goals cases trailing <;> rfl

theorem stepLine_of_incl (env : Env) (s : State) (fs : List Frame) {filename : Text}
    {isAngle : Bool}
    (hd : lineDirective l = .incl filename isAngle) (he : isEmitting f.condStack = true) :
    (PlainLine env s f fs l (stepLine env s f fs l) ∧
        hasError (stepLine env s f fs l).diags = true) ∨
      (∃ path sm inner, IncludeLine env s f fs l path sm inner (stepLine env s f fs l)) ∨
      AbortLine env s f fs l (stepLine env s f fs l) := by
  have hplain : ∀ m : Message,
      PlainLine env s f fs l
        (({ s with includeStack := f.next env s l :: fs } : State).report f.loc m) := by
    intro m
    constructor <;> simp [he, hd, State.report, State.addDiags, lineOut]
  have hstep : stepLine env s f fs l =
      handleInclude env { s with includeStack := f.next env s l :: fs } f.fid filename isAngle
        f.loc := by
    simp [stepLine, dispatch, hd, he]
  rw [hstep]
  unfold handleInclude
  split
  · exact .inl ⟨hplain _, hasError_append_error rfl⟩
  · rename_i hne
    split
    · exact .inl ⟨hplain _, hasError_append_error rfl⟩
    · rename_i path hres
      split
      · exact .inl ⟨hplain _, hasError_append_error rfl⟩
      · rename_i hdepth
        unfold openInclude
        split
        · exact .inl ⟨hplain _, hasError_append_error rfl⟩
        · rename_i hload
          exact .inr (.inr ⟨rfl, rfl, he,
            .inr ⟨filename, isAngle, path, hd, hne, hres, hload, rfl⟩⟩)
        · rename_i sm inner hload
          refine .inr (.inl ⟨path, sm, inner, ⟨filename, isAngle, hd, hne, hres⟩, he, ?_, hload,
            rfl, rfl, rfl, rfl⟩)
          simp only [List.length_cons] at hdepth
          omega

/-- **What a line can do.** It moves its own frame on and writes its
text; or fails as `#line` or `#include`, reporting an error; or it
registers an override; or opens a file; or the run aborts. -/
theorem stepLine_cases (env : Env) (s : State) (f : Frame) (fs : List Frame) (l : Line) :
    (PlainLine env s f fs l (stepLine env s f fs l) ∧
        (movesLocation f l = true → hasError (stepLine env s f fs l).diags = true)) ∨
      (∃ lineNo path, LineLine env s f fs l lineNo path (stepLine env s f fs l)) ∨
      (∃ path sm inner, IncludeLine env s f fs l path sm inner (stepLine env s f fs l)) ∨
      AbortLine env s f fs l (stepLine env s f fs l) := by
  by_cases hm : movesLocation f l = true
  · have hm' := hm
    simp only [movesLocation, Bool.and_eq_true] at hm'
    obtain ⟨he, hdir⟩ := hm'
    cases hd : lineDirective l with
    | line o =>
      rcases stepLine_of_line env s fs hd he with h | h | h
      · exact .inl ⟨h.1, fun _ => h.2⟩
      · exact .inr (.inl h)
      · exact .inr (.inr (.inr h))
    | incl filename isAngle =>
      rcases stepLine_of_incl env s fs hd he with h | h | h
      · exact .inl ⟨h.1, fun _ => h.2⟩
      · exact .inr (.inr (.inl h))
      · exact .inr (.inr (.inr h))
    | _ => simp [hd] at hdir
  · exact .inl ⟨plainLine_stepLine_of_not_moves env s fs (by simpa using hm), fun h => absurd h hm⟩

end Preprocess

end Nslc
