import Nslc.Preprocess.Includes
import Nslc.Driver.Replay
/-!
# Driver — locations across `#line` and `#include`

The reference keeps one shown location per open frame: a line moves it
on by one, `#line` sets it, `#include` saves it and the end of the
included file gives it back. The markers in the output stand for the
innermost one, as long as no step writes a marker the reference
disagrees with (`shownAt`): the marker behind an included file names the
includer's own path and physical line, whatever `#line` said before; a
`#line` without a file name falls back to the path of the whole output;
and a marker behind text that does not end its line is not seen at all.
-/

namespace Nslc

namespace Driver

open Preprocess

/-! ## The reference -/

def ShownLoc.next (r : ShownLoc) : ShownLoc := ⟨r.path, r.line + 1⟩

/-- The locations of the frames behind line `l` of frame `f`, in the
place of `f`'s location `cur`. -/
def refLine (env : Env) (s : State) (f : Frame) (l : Line) (cur : ShownLoc) : List ShownLoc :=
  if isEmitting f.condStack then
    match lineDirective l with
    | .line o =>
      match parseLineOperand (splice env.expr s.macros o f.loc).1 with
      | .ok n p _ => [⟨p.getD cur.path, n⟩]
      | _ => [cur.next]
    | .incl filename isAngle =>
      match env.resolve filename isAngle (s.sm.getPath f.fid) with
      | some q => [⟨q, 1⟩, cur.next]
      | none => [cur.next]
    | _ => [cur.next]
  else [cur.next]

/-- One step of the reference, innermost frame first. -/
def refStep (env : Env) (s : State) : List ShownLoc → List ShownLoc
  | [] => []
  | cur :: rest =>
    match s.includeStack with
    | [] => cur :: rest
    | f :: _ =>
      match readLine (s.sm.getBuffer f.fid) f.cursor with
      | none => rest
      | some l => refLine env s f l cur ++ rest

/-- The reference after `k` steps from `s` on file `path`. -/
def refAt (env : Env) (path : Text) (s : State) : ℕ → List ShownLoc
  | 0 => [⟨path, 1⟩]
  | k + 1 => refStep env (runState env k s) (refAt env path s k)

/-! ## When a step is shown faithfully -/

/-- A path a marker can name. -/
def Named (p : Text) : Prop := p ≠ [] ∧ Quotable p

instance (p : Text) : Decidable (Named p) := inferInstanceAs (Decidable (_ ∧ _))

/-- A line of a selected branch, read at the location `cur`: text must
be one line and no marker of its own, `#line` must name the file unless
the output's own path `root` is current, and numbers fit 32 bits. -/
def lineShown (env : Env) (root : Text) (s : State) (f : Frame) (l : Line) (cur : ShownLoc) :
    Bool :=
  match lineDirective l with
  | .passthrough =>
    let text := (splice env.expr s.macros (stripCR l.body) f.loc).1
    decide (cur.line < 2 ^ 32) && decide ('\n' ∉ text) && (parseMarker text).isNone
  | .line o =>
    match parseLineOperand (splice env.expr s.macros o f.loc).1 with
    | .ok n none _ => decide (n < 2 ^ 32) && decide (cur.path = root)
    | .ok n (some q) _ => decide (n < 2 ^ 32) && decide (Named q)
    | _ => true
  | .incl filename isAngle =>
    (env.resolve filename isAngle (s.sm.getPath f.fid)).all fun q => decide (Named q)
  | _ => true

/-- The end of a file, `outer` being at `back`: unless the includer is
at its end too, the output is at a line start and the includer's
reference location is its physical one. -/
def endShown (s : State) (outer : Frame) (back : ShownLoc) : Bool :=
  (readLine (s.sm.getBuffer outer.fid) outer.cursor).isNone ||
    (decide (AtLineStart s.output) && decide (Named (s.sm.getPath outer.fid)) &&
      decide (outer.physicalLine < 2 ^ 32) &&
      decide (back = ⟨s.sm.getPath outer.fid, outer.physicalLine⟩))

/-- The step about to be taken is shown faithfully. -/
def shownAt (env : Env) (root : Text) (s : State) (ref : List ShownLoc) : Bool :=
  match s.includeStack, ref with
  | f :: fs, cur :: rest =>
    match readLine (s.sm.getBuffer f.fid) f.cursor with
    | some l => !isEmitting f.condStack || lineShown env root s f l cur
    | none =>
      match fs, rest with
      | outer :: _, back :: _ => endShown s outer back
      | _, _ => true
  | _, _ => true

/-- The step about to be taken copies a passthrough line. -/
def CopiesLine (s : State) : Prop :=
  ∃ f fs l, s.includeStack = f :: fs ∧ readLine (s.sm.getBuffer f.fid) f.cursor = some l ∧
    isEmitting f.condStack = true ∧ lineDirective l = .passthrough

/-- **Locations survive** the run of `n` steps: every copied line is
shown at its reference location. -/
def LocationsSurvive (env : Env) (path : Text) (s : State) (n : ℕ) : Prop :=
  ∀ k < n, CopiesLine (runState env k s) →
    virtualLoc (runState env n s).sm path (runState env n s).output
        (runState env k s).output.length =
      (refAt env path s k).head?.map fun r => (r.path, r.line)

/-! ## The invariant -/

/-- Where a line is about to be read, the output stands at a line start
and its markers have led to the reference location. -/
structure LocInv (root : Text) (s : State) (ref : List ShownLoc) : Prop where
  length_eq : ref.length = s.includeStack.length
  shown : ∀ f fs l, s.includeStack = f :: fs →
    readLine (s.sm.getBuffer f.fid) f.cursor = some l →
      AtLineStart s.output ∧ ref.head? = some (track root (splitLines s.output))

variable {env : Env} {root : Text} {s t : State} {ref : List ShownLoc} {f : Frame}
  {fs : List Frame} {l : Line} {cur : ShownLoc} {rest : List ShownLoc}

/-- A line behind which another one stands has its newline. -/
theorem newline_of_readLine_next {buf : Text} {c : ℕ} {k : Line}
    (h : readLine buf c = some l) (h' : readLine buf (c + l.bytes.length) = some k) :
    l.newline = true := by
  have hnext := splitLines_of_readLine h'
  rw [splitLines_drop_bytes h] at hnext
  have hall := splitLines_of_readLine h
  rw [hnext] at hall
  exact newline_of_cons_cons hall

/-- The end of a file gives the includer's location back. -/
theorem locInv_stepEof (hlen : (cur :: rest).length = fs.length + 1)
    (hend : ∀ outer fs' back rest', fs = outer :: fs' → rest = back :: rest' →
      endShown s outer back = true)
    (hab : (stepEof s f fs).aborted = none) : LocInv root (stepEof s f fs) rest := by
  cases fs with
  | nil =>
    simp only [List.length_cons, List.length_nil, Nat.add_right_cancel_iff] at hlen
    exact ⟨by simpa [stepEof] using hlen, fun _ _ _ h => absurd h (by simp [stepEof])⟩
  | cons outer fs =>
    have hlen' : rest.length = (outer :: fs).length := by simpa using hlen
    obtain ⟨back, rest', rfl⟩ : ∃ back rest', rest = back :: rest' :=
      List.exists_cons_of_length_eq_add_one hlen'
    have hshown := hend outer fs back rest' rfl rfl
    unfold stepEof at hab ⊢
    simp only at hab ⊢
    split at hab
    · exact absurd hab (by simp [State.abort])
    · rename_i sm hpop
      have hbuf := (files_popIncludeFrame hpop).1
      have hget : ∀ fid, sm.buffer? fid = s.sm.buffer? fid := fun fid => by
        simp only [SourceManager.buffer?, hbuf, State.addDiags]
      refine ⟨hlen', ?_⟩
      rintro g gs l hg hl
      simp only [State.emit, State.addDiags] at hg hl ⊢
      obtain ⟨rfl, rfl⟩ := List.cons.inj hg
      have hl' : readLine (s.sm.getBuffer outer.fid) outer.cursor = some l := by
        simpa only [SourceManager.getBuffer, hget] using hl
      simp only [endShown, hl', Option.isNone_some, Bool.false_or, Bool.and_eq_true,
        decide_eq_true_eq] at hshown
      obtain ⟨⟨⟨hat, hnamed⟩, hfit⟩, rfl⟩ := hshown
      have hpath : sm.getPath outer.fid = s.sm.getPath outer.fid := by
        simp only [SourceManager.getPath, hget]
      refine ⟨atLineStart_lineMarker _ _ _, ?_⟩
      rw [hpath, track_lineMarker root hat _ hnamed.2, if_neg hnamed.1, Nat.mod_eq_of_lt hfit]
      rfl

/-- What a plain line writes, where another line stands behind it: one
output line that is no marker. -/
theorem lineOut_eq (hn : l.newline = true)
    (hshown : isEmitting f.condStack = true → lineShown env root s f l cur = true)
    (hm : movesLocation f l = false) :
    ∃ b, lineOut env s f l = b ++ ['\n'] ∧ '\n' ∉ b ∧ parseMarker b = none := by
  have hempty : ∃ b, l.term = b ++ ['\n'] ∧ '\n' ∉ b ∧ parseMarker b = none :=
    ⟨[], by simp [Line.term, hn], by simp, rfl⟩
  unfold lineOut
  cases hd : lineDirective l with
  | passthrough =>
    by_cases he : isEmitting f.condStack = true
    · have h := hshown he
      simp only [lineShown, hd, Bool.and_eq_true, decide_eq_true_eq,
        Option.isNone_iff_eq_none] at h
      rw [if_pos he]
      exact ⟨_, by simp [Line.term, hn], h.1.2, h.2⟩
    · rw [if_neg he]
      exact hempty
  | line o =>
    have he : isEmitting f.condStack = false := by simpa [movesLocation, hd] using hm
    simpa [he] using hempty
  | incl filename isAngle =>
    have he : isEmitting f.condStack = false := by simpa [movesLocation, hd] using hm
    simpa [he] using hempty
  | _ => exact hempty

theorem refLine_of_not_moves (hm : movesLocation f l = false) :
    refLine env s f l cur = [cur.next] := by
  unfold refLine
  split
  · rename_i he
    simp only [movesLocation, he, Bool.true_and] at hm
    split
    · simp_all
    · simp_all
    · rfl
  · rfl

/-- A line moves the reference and the markers alike. -/
theorem locInv_stepLine (hst : s.includeStack = f :: fs)
    (hr : readLine (s.sm.getBuffer f.fid) f.cursor = some l)
    (hinv : LocInv root s (cur :: rest))
    (hshown : isEmitting f.condStack = true → lineShown env root s f l cur = true)
    (hab : (stepLine env s f fs l).aborted = none)
    (herr : hasError (stepLine env s f fs l).diags = false) :
    LocInv root (stepLine env s f fs l) (refLine env s f l cur ++ rest) := by
  obtain ⟨hat, hcur⟩ := hinv.shown f fs l hst hr
  have hcur' : cur = track root (splitLines s.output) := Option.some.inj hcur
  have hlen : rest.length = fs.length := by simpa [hst] using hinv.length_eq
  rcases stepLine_cases env s f fs l with ⟨h, herr'⟩ | ⟨n, p, h⟩ | ⟨p, sm, inner, h⟩ | h
  · have hm : movesLocation f l = false := by
      by_contra hne
      rw [herr' (by simpa using hne)] at herr
      exact absurd herr (by simp)
    rw [refLine_of_not_moves hm]
    refine ⟨by simp [h.stack_eq, hlen], ?_⟩
    rintro g gs k hg hk
    rw [h.stack_eq] at hg
    obtain ⟨rfl, rfl⟩ := List.cons.inj hg
    rw [h.sm_eq] at hk
    obtain ⟨b, hb, hnl, hmark⟩ := lineOut_eq (newline_of_readLine_next hr hk) hshown hm
    rw [h.output_eq, hb]
    refine ⟨atLineStart_append _ _, ?_⟩
    rw [track_line root hat hnl hmark, ← hcur']
    rfl
  · obtain ⟨o, hd, trailing, hop⟩ := h.operand
    have href : refLine env s f l cur = [⟨p.getD cur.path, n⟩] := by
      simp [refLine, h.emitting, hd, hop]
    have hline := hshown h.emitting
    simp only [lineShown, hd, hop] at hline
    rw [href]
    refine ⟨by simp [h.stack_eq, hlen], ?_⟩
    intro g gs k _ _
    rw [h.output_eq]
    refine ⟨atLineStart_lineMarker _ _ _, ?_⟩
    cases p with
    | none =>
      simp only [Bool.and_eq_true, decide_eq_true_eq] at hline
      rw [track_lineMarker root hat n (by simp [Quotable]), Nat.mod_eq_of_lt hline.1]
      simp [hline.2]
    | some q =>
      simp only [Bool.and_eq_true, decide_eq_true_eq] at hline
      rw [track_lineMarker root hat n (by exact hline.2.2), Nat.mod_eq_of_lt hline.1]
      simp [hline.2.1]
  · obtain ⟨filename, isAngle, hd, -, hres⟩ := h.operand
    have href : refLine env s f l cur = [⟨p, 1⟩, cur.next] := by
      simp [refLine, h.emitting, hd, hres]
    have hline := hshown h.emitting
    simp only [lineShown, hd, hres, Option.all_some, decide_eq_true_eq] at hline
    rw [href]
    refine ⟨by simp [h.stack_eq, hlen], ?_⟩
    intro g gs k _ _
    rw [h.output_eq, getPath_of_loadFile h.loaded]
    refine ⟨atLineStart_lineMarker _ _ _, ?_⟩
    rw [track_lineMarker root hat 1 hline.2, if_neg hline.1]
    rfl
  · exact absurd hab h.aborted_ne

/-- **One step** that is shown faithfully and fails in nothing keeps the
markers at the reference. -/
theorem locInv_step (hinv : LocInv root s ref) (hshown : shownAt env root s ref = true)
    (hstep : step env s = some t) (hab : t.aborted = none) (herr : hasError t.diags = false) :
    LocInv root t (refStep env s ref) := by
  obtain ⟨f, fs, -, hst, hcase⟩ := step_cases hstep
  have hlen := hinv.length_eq
  rw [hst] at hlen
  obtain ⟨cur, rest, rfl⟩ : ∃ cur rest, ref = cur :: rest :=
    List.exists_cons_of_length_eq_add_one hlen
  rcases hcase with ⟨hr, rfl⟩ | ⟨l, hr, rfl⟩
  · simp only [shownAt, hst, hr] at hshown
    have hrefStep : refStep env s (cur :: rest) = rest := by simp [refStep, hst, hr]
    rw [hrefStep]
    refine locInv_stepEof hlen ?_ hab
    rintro outer fs' back rest' rfl rfl
    exact hshown
  · simp only [shownAt, hst, hr, Bool.or_eq_true, Bool.not_eq_true'] at hshown
    have hrefStep : refStep env s (cur :: rest) = refLine env s f l cur ++ rest := by
      simp [refStep, hst, hr]
    rw [hrefStep]
    refine locInv_stepLine hst hr hinv ?_ hab herr
    intro he
    rcases hshown with hno | h
    · rw [he] at hno
      exact absurd hno (by simp)
    · exact h

theorem locInv_initial (path : Text) (input : SourceText) (predefined : List (Text × Text)) :
    LocInv path (initial path input predefined) [⟨path, 1⟩] :=
  ⟨rfl, fun _ _ _ _ _ => ⟨.inl rfl, rfl⟩⟩

variable {path : Text} {input : SourceText} {predefined : List (Text × Text)} {n : ℕ}

/-- The invariant along a successful run. -/
theorem locInv_run (hrun : (runState env n (initial path input predefined)).succeeded = true)
    (hshown : ∀ k < n, shownAt env path (runState env k (initial path input predefined))
      (refAt env path (initial path input predefined) k) = true) :
    ∀ k ≤ n, LocInv path (runState env k (initial path input predefined))
      (refAt env path (initial path input predefined) k) := by
  intro k
  induction k with
  | zero => exact fun _ => locInv_initial path input predefined
  | succ k ih =>
    intro hk
    have hinv := ih (by omega)
    obtain ⟨hab, herr⟩ := clean_of_succeeded hk hrun
    rw [runState_succ] at hab herr ⊢
    cases hs : step env (runState env k (initial path input predefined)) with
    | none =>
      -- the machine has halted with no frame left, and so has the reference
      obtain ⟨hab', -⟩ := clean_of_succeeded (show k ≤ n by omega) hrun
      have hst : (runState env k (initial path input predefined)).includeStack = [] := by
        rcases step_eq_none_iff.1 hs with h | h
        · exact absurd hab' h
        · exact h
      have href : refAt env path (initial path input predefined) (k + 1) =
          refAt env path (initial path input predefined) k := by
        rw [refAt]
        cases refAt env path (initial path input predefined) k <;> simp [refStep, hst]
      rw [href]
      exact hinv
    | some t =>
      rw [hs, Option.getD_some] at hab herr
      exact locInv_step hinv (hshown k (by omega)) hs hab herr

/-- **Locations survive a successful run whose steps are all shown
faithfully**, the output being addressable and one more buffer allowed
for it. -/
theorem locationsSurvive_of_shownAt
    (hrun : (runState env n (initial path input predefined)).succeeded = true)
    (hshown : ∀ k < n, shownAt env path (runState env k (initial path input predefined))
      (refAt env path (initial path input predefined) k) = true)
    (hsize : (runState env n (initial path input predefined)).output.length < kMaxOffset)
    (hroom : (runState env n (initial path input predefined)).sm.buffers.length < 255) :
    LocationsSurvive env path (initial path input predefined) n := by
  rintro k hk ⟨f, fs, l, hst, hr, he, hd⟩
  obtain ⟨hat, hhead⟩ := (locInv_run hrun hshown k (by omega)).shown f fs l hst hr
  obtain ⟨cur, rest, href⟩ : ∃ cur rest,
      refAt env path (initial path input predefined) k = cur :: rest := by
    cases href : refAt env path (initial path input predefined) k with
    | nil => simp [href] at hhead
    | cons cur rest => exact ⟨cur, rest, rfl⟩
  have hline := hshown k hk
  simp only [shownAt, hst, hr, href, he, lineShown, hd, Bool.not_true, Bool.false_or,
    Bool.and_eq_true, decide_eq_true_eq] at hline
  rw [href, List.head?_cons, Option.some.injEq] at hhead
  obtain ⟨hab, -⟩ := clean_of_succeeded (Nat.le_refl n) hrun
  obtain ⟨more, hmore⟩ := (runState_grows (show k ≤ n by omega) hab).output
  rw [href, ← hmore]
  rw [← hmore] at hsize
  rw [virtualLoc_append hroom hsize hat (by rw [← hhead]; exact hline.1.1), ← hhead]
  rfl

/-- A file `b` to include. -/
def includeEnv (b : SourceText) : Env :=
  { bareEnv with files := fun p => if p = "b".toList then some b else none }

/-- An included file with a `#line` of its own. -/
def relinedFile : SourceText := ⟨"#line 7 \"q\"\ny\n".toList, by decide⟩

def includingFile : SourceText := ⟨"#include \"b\"\nx\n".toList, by decide⟩

theorem locationsSurvive_includingFile :
    (runState (includeEnv relinedFile) 6
        (initial "f.nsl".toList includingFile [])).succeeded = true ∧
      LocationsSurvive (includeEnv relinedFile) "f.nsl".toList
        (initial "f.nsl".toList includingFile []) 6 := by
  have hrun : (runState (includeEnv relinedFile) 6
      (initial "f.nsl".toList includingFile [])).succeeded = true := by decide +kernel
  exact ⟨hrun, locationsSurvive_of_shownAt hrun (by decide +kernel) (by decide +kernel) (by decide +kernel)⟩

def emptyFile : SourceText := ⟨[], by decide⟩

/-- The same file under a `#line` of the includer. -/
def relinedIncludingFile : SourceText :=
  ⟨"#line 100 \"v\"\n#include \"b\"\nx\n".toList, by decide⟩

/-- Behind the included file the includer's `#line` is forgotten: the
text `x` of line 101 of `v` is shown on line 3 of the file itself. -/
theorem not_locationsSurvive_relinedIncludingFile :
    (runState (includeEnv emptyFile) 5
        (initial "f.nsl".toList relinedIncludingFile [])).succeeded = true ∧
      ¬ LocationsSurvive (includeEnv emptyFile) "f.nsl".toList
        (initial "f.nsl".toList relinedIncludingFile []) 5 := by
  refine ⟨by decide +kernel, ?_⟩
  intro h
  have hcopy : CopiesLine (runState (includeEnv emptyFile) 3
      (initial "f.nsl".toList relinedIncludingFile [])) :=
    ⟨⟨1, 27, 3, []⟩, [], ⟨"x".toList, true⟩, by decide +kernel, by decide +kernel, by decide +kernel, by decide +kernel⟩
  exact absurd (h 3 (by decide +kernel) hcopy) (by decide +kernel)

end Driver

end Nslc
