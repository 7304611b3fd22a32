import Nslc.Preprocess.LineMap
/-!
# Preprocessor — include cycles

Nothing but the depth bound ends an include cycle that no conditional
guards. The machine without the bound says which cycles these are: its
include stack grows without end. The machine with the bound follows it
step for step until the bound refuses a file, and reports an error
there.
-/

namespace Nslc

namespace Preprocess

/-- The file an active `#include` on the line read next resolves to, and
the state in which it is opened, whatever the depth. -/
def nextInclude? (env : Env) (s : State) : Option (Text × State) :=
  match s.aborted, s.includeStack with
  | none, f :: fs =>
    match readLine (s.sm.getBuffer f.fid) f.cursor with
    | none => none
    | some l =>
      match lineDirective l with
      | .incl filename isAngle =>
        if isEmitting f.condStack = true ∧ filename ≠ [] then
          (env.resolve filename isAngle (s.sm.getPath f.fid)).map fun path =>
            (path, openInclude env { s with includeStack := f.next env s l :: fs } path f.loc)
        else none
      | _ => none
  | _, _ => none

/-- `step` without the depth bound. -/
def stepUnbounded (env : Env) (s : State) : Option State :=
  match nextInclude? env s with
  | some (_, t) => some t
  | none => step env s

/-- Nothing in the files ends the recursion: without the bound the
include stack outgrows every height. -/
def Unguarded (env : Env) (s : State) : Prop :=
  ∀ d, ∃ n, d ≤ (Run.runUpto (stepUnbounded env) n s).includeStack.length

/-- No include asks for a file when all file numbers are taken. -/
def FilesLeft (env : Env) (s : State) : Prop :=
  ∀ n path t, nextInclude? env (runState env n s) = some (path, t) →
    (runState env n s).includeStack.length < kMaxIncludeDepth →
      loadFile env (runState env n s).sm path ≠ .exhausted

variable {env : Env} {s t : State} {path : Text} {input : SourceText}
  {predefined : List (Text × Text)}

/-! ## One step -/

theorem nextInclude?_eq_some_iff :
    nextInclude? env s = some (path, t) ↔
      ∃ f fs l filename isAngle, s.aborted = none ∧ s.includeStack = f :: fs ∧
        readLine (s.sm.getBuffer f.fid) f.cursor = some l ∧
        lineDirective l = .incl filename isAngle ∧ isEmitting f.condStack = true ∧ filename ≠ [] ∧
        env.resolve filename isAngle (s.sm.getPath f.fid) = some path ∧
        t = openInclude env { s with includeStack := f.next env s l :: fs } path f.loc := by
  constructor
  · intro h
    unfold nextInclude? at h
    split at h
    · rename_i f fs hab hst
      split at h
      · exact absurd h (by simp)
      · rename_i l hr
        split at h
        · rename_i filename isAngle hd
          split at h
          · rename_i hcond
            obtain ⟨p, hp, heq⟩ := Option.map_eq_some_iff.1 h
            obtain ⟨rfl, rfl⟩ := Prod.mk.inj heq
            exact ⟨f, fs, l, filename, isAngle, hab, hst, hr, hd, hcond.1, hcond.2, hp, rfl⟩
          · exact absurd h (by simp)
        · exact absurd h (by simp)
    · exact absurd h (by simp)
  · rintro ⟨f, fs, l, filename, isAngle, hab, hst, hr, hd, he, hne, hres, rfl⟩
    simp [nextInclude?, hab, hst, hr, hd, he, hne, hres]

/-- Within the bound the next include is opened, at it an error is
reported. -/
theorem step_of_nextInclude (h : nextInclude? env s = some (path, t)) :
    (s.includeStack.length < kMaxIncludeDepth ∧ step env s = some t) ∨
      (kMaxIncludeDepth ≤ s.includeStack.length ∧
        ∃ t', step env s = some t' ∧ hasError t'.diags = true ∧ t'.aborted = none) := by
  obtain ⟨f, fs, l, filename, isAngle, hab, hst, hr, hd, he, hne, hres, rfl⟩ :=
    nextInclude?_eq_some_iff.1 h
  have hstep : step env s = some (handleInclude env
      { s with includeStack := f.next env s l :: fs } f.fid filename isAngle f.loc) := by
    simp [step, hab, hst, hr, stepLine, dispatch, hd, he]
  have hlen : s.includeStack.length = fs.length + 1 := by simp [hst]
  simp only [handleInclude, hne, if_false, hres] at hstep
  by_cases hdepth : kMaxIncludeDepth < fs.length + 1 + 1
  · rw [if_pos (by simpa using hdepth)] at hstep
    exact .inr ⟨by omega, _, hstep, hasError_append_error rfl, hab⟩
  · rw [if_neg (by simpa using hdepth)] at hstep
    exact .inl ⟨by omega, hstep⟩

/-- What stops a run besides the line map is an include without a file
number left. -/
theorem aborted_of_step (h : Stacked s) (hstep : step env s = some t) (hne : t.aborted ≠ none) :
    t.aborted = some .lineDirectiveOrder ∨
      ∃ path, nextInclude? env s = some (path, t) ∧
        s.includeStack.length < kMaxIncludeDepth ∧ loadFile env s.sm path = .exhausted := by
  obtain ⟨f, fs, hab, hst, ⟨-, rfl⟩ | ⟨l, hr, rfl⟩⟩ := step_cases hstep
  · rw [(stepEof_cases h hst).2.2, hab] at hne
    exact absurd rfl hne
  · rcases stepLine_cases env s f fs l with ⟨hp, -⟩ | ⟨n, p, hp⟩ | ⟨q, sm, inner, hp⟩ | hp
    · exact absurd (hp.aborted_eq.trans hab) hne
    · exact absurd (hp.aborted_eq.trans hab) hne
    · exact absurd (hp.aborted_eq.trans hab) hne
    · rcases hp.cause with ⟨o, n, p, tr, hd, hop, ⟨hbig, -⟩ | ⟨-, habt⟩⟩ |
        ⟨fn, a, q, hd, hfn, hres, hload, habt⟩
      · -- the files are short enough
        have hle := (bytes_length_pos hr).2
        have hlt := length_getBuffer_lt h.addressed f.fid
        simp only [Frame.advance] at hbig
        omega
      · exact .inl habt
      · have hnext := nextInclude?_eq_some_iff.2
          ⟨f, fs, l, fn, a, hab, hst, hr, hd, hp.emitting, hfn, hres, rfl⟩
        rcases step_of_nextInclude hnext with ⟨hlen, hs⟩ | ⟨-, t', hs, -, habt'⟩
        · rw [← Option.some.inj (hstep.symm.trans hs)] at hnext
          exact .inr ⟨q, hnext, hlen, hload⟩
        · rw [← Option.some.inj (hstep.symm.trans hs)] at habt'
          exact absurd habt' hne

/-! ## Whole runs -/

/-- Until an error is reported the bound makes no difference. -/
theorem runUnbounded_eq (n : ℕ) (hab : (runState env n s).aborted = none)
    (herr : hasError (runState env n s).diags = false) :
    Run.runUpto (stepUnbounded env) n s = runState env n s := by
  induction n with
  | zero => rfl
  | succ n ih =>
    have hgrow := runState_grows (Nat.le_succ n) hab
    have heq := ih (running_of_runState (Nat.le_succ n) hab) (hasError_mono hgrow.diags herr)
    rw [Run.runUpto_succ, heq, runState_succ]
    rw [runState_succ] at herr
    unfold stepUnbounded
    cases hnext : nextInclude? env (runState env n s) with
    | none => rfl
    | some p =>
      obtain ⟨path, t⟩ := p
      rcases step_of_nextInclude hnext with ⟨-, hs⟩ | ⟨-, t', hs, herr', -⟩
      · rw [hs]
      · rw [hs, Option.getD_some, herr'] at herr
        exact absurd herr (by simp)

/-- The state in which a run has halted is the state of every longer
run. -/
theorem runState_of_halted {n : ℕ} (h : step env (runState env n s) = none) (k : ℕ) (hk : n ≤ k) :
    runState env k s = runState env n s := by
  obtain ⟨j, rfl⟩ := Nat.exists_eq_add_of_le hk
  rw [runState, Run.runUpto_add]
  exact Run.runUpto_of_none h j

/-- **An unguarded cycle is reported.** -/
theorem hasError_of_unguarded (h : Unguarded env (initial path input predefined)) {n : ℕ}
    (hfin : (runState env n (initial path input predefined)).finished = true) :
    hasError (runState env n (initial path input predefined)).diags = true := by
  by_contra herr
  have herr' : hasError (runState env n (initial path input predefined)).diags = false := by
    simpa using herr
  simp only [State.finished, Bool.and_eq_true, Option.isNone_iff_eq_none,
    List.isEmpty_iff] at hfin
  have hhalt : step env (runState env n (initial path input predefined)) = none :=
    step_eq_none_iff.2 (.inr hfin.2)
  -- a state of the machine without the bound is one of the run, and is not higher than the bound
  obtain ⟨k, hk⟩ := h (kMaxIncludeDepth + 1)
  have hclean : (runState env k (initial path input predefined)).aborted = none ∧
      hasError (runState env k (initial path input predefined)).diags = false := by
    rcases Nat.le_total k n with hkn | hnk
    · exact ⟨running_of_runState hkn hfin.1,
        hasError_mono (runState_grows hkn hfin.1).diags herr'⟩
    · rw [runState_of_halted hhalt k hnk]
      exact ⟨hfin.1, herr'⟩
  rw [runUnbounded_eq k hclean.1 hclean.2] at hk
  have := (stacked_run env path input predefined k).depth
  omega

/-- What is wanted of include processing: the run returns, the stacks
stay low and in lockstep and are empty on return, and a cycle nothing
guards makes the run fail. -/
structure IncludesSound (env : Env) (s : State) : Prop where
  returns : ∃ n, (runState env n s).finished = true
  depth : ∀ n, (runState env n s).includeStack.length ≤ kMaxIncludeDepth
  lockstep : ∀ n, (runState env n s).sm.includeStack.map Prod.snd =
    (runState env n s).includeStack.dropLast.map Frame.fid
  empty : ∀ n, (runState env n s).finished = true →
    (runState env n s).includeStack = [] ∧ (runState env n s).sm.includeStack = []
  cyclic : Unguarded env s → ∃ n, (runState env n s).finished = true ∧
    hasError (runState env n s).diags = true

/-- A run that returns is never stopped. -/
theorem running_of_finished {n : ℕ} (h : (runState env n s).finished = true) (k : ℕ) :
    (runState env k s).aborted = none := by
  simp only [State.finished, Bool.and_eq_true, Option.isNone_iff_eq_none,
    List.isEmpty_iff] at h
  rcases Nat.le_total k n with hkn | hnk
  · exact running_of_runState hkn h.1
  · rw [runState_of_halted (step_eq_none_iff.2 (.inr h.2)) k hnk]
    exact h.1

/-- With a file number left for every include and the `#line`s in order
no run is stopped. -/
theorem running_of_inOrder (hord : LinesInOrder env (initial path input predefined))
    (hleft : FilesLeft env (initial path input predefined)) (n : ℕ) :
    (runState env n (initial path input predefined)).aborted = none := by
  induction n with
  | zero => rfl
  | succ n ih =>
    have hinv := stacked_run env path input predefined n
    by_contra hne
    have hsucc := runState_succ env n (initial path input predefined)
    cases hs : step env (runState env n (initial path input predefined)) with
    | none =>
      rw [hsucc, hs] at hne
      exact hne ih
    | some t =>
      rw [hs, Option.getD_some] at hsucc
      rcases aborted_of_step hinv hs (hsucc ▸ hne) with habt | ⟨p, hnext, hlen, hload⟩
      · obtain ⟨i, j, fid, off, off', hij, hi, hj, hle⟩ :=
          exists_out_of_order (.inl rfl) ((congrArg State.aborted hsucc).trans habt)
        exact absurd (hord i j fid off off' hij hi hj) (by omega)
      · exact hleft n p t hnext hlen hload

/-- **Include processing is sound exactly if** the `#line`s of each file
are read in order and no include finds the file numbers taken. -/
theorem includesSound_iff (env : Env) (path : Text) (input : SourceText)
    (predefined : List (Text × Text)) :
    IncludesSound env (initial path input predefined) ↔
      LinesInOrder env (initial path input predefined) ∧
        FilesLeft env (initial path input predefined) := by
  constructor
  · intro h
    obtain ⟨n, hn⟩ := h.returns
    have hrun := running_of_finished hn
    refine ⟨linesInOrder_of_accepted fun k => by simp [hrun k], ?_⟩
    intro k p t hnext hlen hload
    obtain ⟨f, fs, l, -, -, -, -, -, -, -, -, -, rfl⟩ := nextInclude?_eq_some_iff.1 hnext
    have hk := hrun (k + 1)
    rcases step_of_nextInclude hnext with ⟨-, hs⟩ | ⟨hge, -⟩
    · rw [runState_succ, hs] at hk
      simp [openInclude, hload, State.abort] at hk
    · omega
  · rintro ⟨hord, hleft⟩
    have hrun := running_of_inOrder hord hleft
    obtain ⟨n, -, hhalt⟩ := exists_halted env path input predefined
    have hstack : (runState env n (initial path input predefined)).includeStack = [] := by
      rcases step_eq_none_iff.1 hhalt with hne | hst
      · exact absurd (hrun n) hne
      · exact hst
    have hfin : (runState env n (initial path input predefined)).finished = true := by
      simp [State.finished, hrun n, hstack]
    refine ⟨⟨n, hfin⟩, fun k => (stacked_run env path input predefined k).depth,
      fun k => (stacked_run env path input predefined k).lockstep, ?_, ?_⟩
    · intro k hk
      simp only [State.finished, Bool.and_eq_true, List.isEmpty_iff] at hk
      have hlock := (stacked_run env path input predefined k).lockstep
      rw [hk.2] at hlock
      exact ⟨hk.2, List.map_eq_nil_iff.1 hlock⟩
    · exact fun hun => ⟨n, hfin, hasError_of_unguarded hun hfin⟩

/-- A file that includes itself, whatever is defined. -/
def selfIncludingFile : SourceText := ⟨"#include \"a\"\n".toList, by decide⟩

/-- Its recursion has no end of its own. -/
theorem unguarded_selfIncludingFile :
    Unguarded (oneFileEnv "a".toList selfIncludingFile)
      (initial "a".toList selfIncludingFile []) := by
  intro d
  refine ⟨d, ?_⟩
  -- every step opens the file once more
  have hinv : ∃ fs, (Run.runUpto (stepUnbounded (oneFileEnv "a".toList selfIncludingFile)) d
        (initial "a".toList selfIncludingFile [])).aborted = none ∧
      (Run.runUpto (stepUnbounded (oneFileEnv "a".toList selfIncludingFile)) d
        (initial "a".toList selfIncludingFile [])).includeStack = ⟨1, 0, 1, []⟩ :: fs ∧
      fs.length = d ∧
      (Run.runUpto (stepUnbounded (oneFileEnv "a".toList selfIncludingFile)) d
        (initial "a".toList selfIncludingFile [])).sm.buffers =
          [⟨"a".toList, selfIncludingFile.text, []⟩] := by
    induction d with
    | zero => exact ⟨[], rfl, rfl, rfl, rfl⟩
    | succ d ih =>
      obtain ⟨fs, hab, hst, hlen, hbuf⟩ := ih
      rw [Run.runUpto_succ]
      generalize Run.runUpto _ d _ = s at hab hst hbuf ⊢
      have hpath : s.sm.getPath 1 = "a".toList := by
        simp [SourceManager.getPath, SourceManager.buffer?, hbuf]
      have hread : readLine (s.sm.getBuffer 1) 0 = some ⟨"#include \"a\"".toList, true⟩ := by
        simp only [SourceManager.getBuffer, SourceManager.buffer?, hbuf]
        decide
      have hd : lineDirective ⟨"#include \"a\"".toList, true⟩ = .incl "a".toList false := by decide
      have hres : (oneFileEnv "a".toList selfIncludingFile).resolve "a".toList false "a".toList =
          some "a".toList := by decide
      have hload : loadFile (oneFileEnv "a".toList selfIncludingFile) s.sm "a".toList =
          .ok s.sm 1 := by
        have : s.sm.findFileIDByPath "a".toList = some 1 := by
          simp [SourceManager.findFileIDByPath, hbuf, List.findIdx?_cons]
        simp only [loadFile, this]
      have hnext := nextInclude?_eq_some_iff.2 ⟨⟨1, 0, 1, []⟩, fs, _, _, _, hab, hst, hread, hd, rfl,
        by decide, (congrArg _ hpath).trans hres, rfl⟩
      simp only [stepUnbounded, hnext, Option.getD_some, openInclude, hload]
      exact ⟨_, hab, rfl, by simp [hlen], hbuf⟩
  obtain ⟨fs, -, hst, hlen, -⟩ := hinv
  rw [hst, List.length_cons]
  omega

/-- A file that includes itself behind a `#line`. -/
def lineSelfIncludingFile : SourceText := ⟨"#line 1\n#include \"a\"\n".toList, by decide⟩

/-- The run neither reports the cycle nor returns: it is stopped when the
file is read for the second time. -/
theorem not_includesSound_lineSelfIncludingFile :
    ¬ IncludesSound (oneFileEnv "a".toList lineSelfIncludingFile)
      (initial "a".toList lineSelfIncludingFile []) := by
  intro h
  obtain ⟨n, hn⟩ := h.returns
  exact absurd (running_of_finished hn 3) (by decide +kernel)

end Preprocess

end Nslc
