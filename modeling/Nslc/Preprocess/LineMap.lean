import Nslc.Preprocess.Includes
/-!
# Preprocessor — the line map

`addLineDirective` wants the overrides of a file in increasing order of
offset, and aborts the run otherwise. A file has one line map however
often it is included, so the order fails as soon as a file is read again
past an active `#line`: the map refuses exactly the `#line` that stands
at or before one already read in its file.
-/

namespace Nslc

namespace Preprocess

/-- The override the next step registers, by file and offset: the line
read next is an active `#line` with a well formed operand. -/
def activeLine? (env : Env) (s : State) : Option (FileID × ℕ) :=
  match s.aborted, s.includeStack with
  | none, f :: _ =>
    match readLine (s.sm.getBuffer f.fid) f.cursor with
    | none => none
    | some l =>
      match lineDirective l with
      | .line operand =>
        match isEmitting f.condStack,
            parseLineOperand (splice env.expr s.macros operand f.loc).1 with
        | true, .ok _ _ _ => some (f.fid, (f.advance l).cursor)
        | _, _ => none
      | _ => none
  | _, _ => none

/-- No `#line` is read at or before an earlier one of the same file. -/
def LinesInOrder (env : Env) (s : State) : Prop :=
  ∀ i j fid off off', i < j → activeLine? env (runState env i s) = some (fid, off) →
    activeLine? env (runState env j s) = some (fid, off') → off < off'

variable {env : Env} {s t : State} {f : Frame} {fs : List Frame} {l : Line}

/-! ## One step -/

/-- The offsets of the overrides recorded on a file, in order. -/
def overrideOffsets (sm : SourceManager) (fid : FileID) : List ℕ :=
  ((sm.buffer? fid).map fun b => b.lineOverrides.map LineDirective.originOffset).getD []

theorem overrideOffsets_of_buffers {sm sm' : SourceManager} (h : sm'.buffers = sm.buffers) :
    overrideOffsets sm' = overrideOffsets sm := by
  funext fid
  simp only [overrideOffsets, SourceManager.buffer?, h]

theorem overrideOffsets_loadFile {sm sm' : SourceManager} {p : Text} {inner : ℕ}
    (h : loadFile env sm p = .ok sm' inner) : overrideOffsets sm' = overrideOffsets sm := by
  obtain ⟨-, -, rfl | ⟨t, hbuf⟩⟩ := files_loadFile h
  · rfl
  · funext fid
    simp only [overrideOffsets, SourceManager.buffer?, hbuf]
    split
    · rfl
    · rw [List.getElem?_append]
      split
      · rfl
      · rename_i hge
        have hnone : sm.buffers[fid - 1]? = none := List.getElem?_eq_none (Nat.le_of_not_lt hge)
        rw [hnone]
        cases hi : [(⟨p, t.text, []⟩ : Buffer)][fid - 1 - sm.buffers.length]? with
        | none => rfl
        | some b =>
          obtain rfl : b = ⟨p, t.text, []⟩ := by simpa using List.mem_of_getElem? hi
          rfl

/-- The override is recorded behind the others of its file, or refused
because one of them does not stand before it. -/
theorem addLineDirective_cases {sm : SourceManager} {fid : ℕ} (hreg : Registered sm fid)
    (off n : ℕ) (p : Text) :
    (sm.addLineDirective fid off n p = none ∧
        ∃ o ∈ (overrideOffsets sm fid).getLast?, off ≤ o) ∨
      ∃ sm', sm.addLineDirective fid off n p = some sm' ∧
        (∀ o ∈ (overrideOffsets sm fid).getLast?, o < off) ∧
        ∀ g : ℕ, overrideOffsets sm' g =
          overrideOffsets sm g ++ if g = fid then [off] else [] := by
  obtain ⟨b, hb⟩ := buffer?_of_registered hreg
  have hov : overrideOffsets sm fid = b.lineOverrides.map LineDirective.originOffset := by
    simp [overrideOffsets, hb]
  cases hadd : sm.addLineDirective fid off n p with
  | none =>
    refine .inl ⟨rfl, ?_⟩
    simp only [SourceManager.addLineDirective, hb] at hadd
    split at hadd
    · exact absurd hadd (by simp)
    · rename_i hlast
      rw [hov, List.getLast?_map]
      cases hl : b.lineOverrides.getLast? with
      | none => simp [hl] at hlast
      | some d =>
        refine ⟨d.originOffset, by simp, ?_⟩
        simpa [hl] using hlast
  | some sm' =>
    obtain ⟨b', hb', hlast, hbuf, -⟩ := files_addLineDirective hadd
    obtain rfl : b = b' := Option.some.inj (hb.symm.trans hb')
    refine .inr ⟨sm', rfl, ?_, ?_⟩
    · rw [hov, List.getLast?_map]
      intro o ho
      obtain ⟨d, hd, rfl⟩ := Option.map_eq_some_iff.1 ho
      exact hlast d hd
    · intro g
      obtain ⟨hpos, hle⟩ := hreg
      by_cases hg : g = fid
      · subst hg
        have hlt : g - 1 < sm.buffers.length := by omega
        rw [if_pos rfl, hov]
        simp [overrideOffsets, SourceManager.buffer?, hbuf, Nat.ne_of_gt hpos, hlt]
      · rw [if_neg hg, List.append_nil]
        simp only [overrideOffsets, SourceManager.buffer?, hbuf]
        split
        · rfl
        · rename_i h0
          have hne : fid - 1 ≠ g - 1 := by
            intro he
            have h0' : (g : ℕ) ≠ 0 := h0
            omega
          rw [List.getElem?_set_ne hne]

theorem activeLine?_eq_some_iff {fid : FileID} {off : ℕ} :
    activeLine? env s = some (fid, off) ↔
      ∃ f fs l o lineNo path trailing, s.aborted = none ∧ s.includeStack = f :: fs ∧
        readLine (s.sm.getBuffer f.fid) f.cursor = some l ∧ lineDirective l = .line o ∧
        isEmitting f.condStack = true ∧
        parseLineOperand (splice env.expr s.macros o f.loc).1 = .ok lineNo path trailing ∧
        f.fid = fid ∧ (f.advance l).cursor = off := by
  constructor
  · intro h
    unfold activeLine? at h
    split at h
    · rename_i f fs hab hst
      split at h
      · exact absurd h (by simp)
      · rename_i l hr
        split at h
        · rename_i o hd
          split at h
          · rename_i n p tr he hop
            obtain ⟨rfl, rfl⟩ := Prod.mk.inj (Option.some.inj h)
            exact ⟨f, fs, l, o, n, p, tr, hab, hst, hr, hd, he, hop, rfl, rfl⟩
          · exact absurd h (by simp)
        · exact absurd h (by simp)
    · exact absurd h (by simp)
  · rintro ⟨f, fs, l, o, n, p, tr, hab, hst, hr, hd, he, hop, rfl, rfl⟩
    simp [activeLine?, hab, hst, hr, hd, he, hop]

/-- **A step at an active `#line`** records it, or aborts because an
override of its file does not stand before it. -/
theorem step_of_activeLine {fid : ℕ} {off : ℕ} (h : Stacked s)
    (ha : activeLine? env s = some (fid, off)) :
    ∃ t, step env s = some t ∧
      ((t.aborted = some .lineDirectiveOrder ∧
          ∃ o ∈ (overrideOffsets s.sm fid).getLast?, off ≤ o) ∨
        (t.aborted = none ∧ (∀ o ∈ (overrideOffsets s.sm fid).getLast?, o < off) ∧
          ∀ g : ℕ, overrideOffsets t.sm g =
            overrideOffsets s.sm g ++ if g = fid then [off] else [])) := by
  obtain ⟨f, fs, l, o, n, p, tr, hab, hst, hr, hd, he, hop, rfl, rfl⟩ :=
    activeLine?_eq_some_iff.1 ha
  have hstep : step env s = some (stepLine env s f fs l) := by simp [step, hab, hst, hr]
  have hoff : ¬ kMaxOffset ≤ (f.advance l).cursor := by
    have hle := (bytes_length_pos hr).2
    have hlt := length_getBuffer_lt h.addressed f.fid
    simp only [Frame.advance]
    omega
  refine ⟨_, hstep, ?_⟩
  have heq : stepLine env s f fs l =
      handleLine env.expr { s with includeStack := f.next env s l :: fs } f.fid o f.loc
        (f.advance l).cursor := by
    simp [stepLine, dispatch, hd, he]
  rw [heq]
  simp only [handleLine, State.addDiags, hop, hoff, if_false]
  rcases addLineDirective_cases (h.registered f (by simp [hst])) (f.advance l).cursor
    (n % 2 ^ 32) (p.getD []) with ⟨hadd, hlast⟩ | ⟨sm', hadd, hlast, hov⟩
  · cases tr <;> simp only [State.report, State.addDiags, hadd, if_true, Bool.false_eq_true, if_false]
    all_goals exact .inl ⟨rfl, hlast⟩
  · cases tr <;> simp only [State.report, State.addDiags, hadd, if_true, Bool.false_eq_true, if_false]
    all_goals exact .inr ⟨hab, hlast, hov⟩

/-- Any other step leaves the line maps alone, and neither of the two
aborts happens. -/
theorem step_of_not_activeLine (h : Stacked s) (ha : activeLine? env s = none)
    (hstep : step env s = some t) :
    overrideOffsets t.sm = overrideOffsets s.sm ∧ t.aborted ≠ some .lineDirectiveOrder ∧
      t.aborted ≠ some .includeStackEmpty := by
  obtain ⟨f, fs, hab, hst, ⟨-, rfl⟩ | ⟨l, hr, rfl⟩⟩ := step_cases hstep
  · obtain ⟨hsm, -, habt⟩ := stepEof_cases h hst
    refine ⟨?_, by simp [habt, hab], by simp [habt, hab]⟩
    rcases hsm with ⟨-, hsm⟩ | ⟨-, hpop⟩
    · rw [hsm]
    · exact overrideOffsets_of_buffers (files_popIncludeFrame hpop).1
  · have hnot : ∀ o n p tr, lineDirective l = .line o → isEmitting f.condStack = true →
        parseLineOperand (splice env.expr s.macros o f.loc).1 ≠ .ok n p tr := by
      intro o n p tr hd he hop
      have := activeLine?_eq_some_iff.2 ⟨f, fs, l, o, n, p, tr, hab, hst, hr, hd, he, hop, rfl, rfl⟩
      exact absurd (ha.symm.trans this) (by simp)
    rcases stepLine_cases env s f fs l with ⟨hp, -⟩ | ⟨n, p, hp⟩ | ⟨q, sm, inner, hp⟩ | hp
    · exact ⟨by rw [hp.sm_eq], by simp [hp.aborted_eq, hab], by simp [hp.aborted_eq, hab]⟩
    · obtain ⟨o, hd, tr, hop⟩ := hp.operand
      exact absurd hop (hnot o n p tr hd hp.emitting)
    · refine ⟨?_, by simp [hp.aborted_eq, hab], by simp [hp.aborted_eq, hab]⟩
      rw [hp.sm_eq, ← overrideOffsets_loadFile hp.loaded]
      exact overrideOffsets_of_buffers rfl
    · rcases hp.cause with ⟨o, n, p, tr, hd, hop, -⟩ | ⟨_, _, _, -, -, -, -, habt⟩
      · exact absurd hop (hnot o n p tr hd hp.emitting)
      · exact ⟨by rw [hp.sm_eq], by simp [habt], by simp [habt]⟩

/-! ## Whole runs -/

section Runs

variable {path : Text} {input : SourceText} {predefined : List (Text × Text)}

/-- The offsets of the active `#line`s read in a file within `n` steps. -/
def linesRead (env : Env) (s : State) (n : ℕ) (fid : ℕ) : List ℕ :=
  (List.range n).filterMap fun i =>
    (activeLine? env (runState env i s)).bind fun p => if p.1 = fid then some p.2 else none

theorem mem_linesRead {n fid off : ℕ} :
    off ∈ linesRead env s n fid ↔ ∃ i < n, activeLine? env (runState env i s) = some (fid, off) := by
  simp only [linesRead, List.mem_filterMap, List.mem_range, Option.bind_eq_some_iff,
    Option.ite_none_right_eq_some]
  constructor
  · rintro ⟨i, hi, p, hp, rfl, h⟩
    exact ⟨i, hi, by rw [hp, ← Option.some.inj h]⟩
  · rintro ⟨i, hi, h⟩
    exact ⟨i, hi, _, h, rfl, rfl⟩

theorem linesRead_succ (env : Env) (s : State) (n fid : ℕ) :
    linesRead env s (n + 1) fid = linesRead env s n fid ++
      ((activeLine? env (runState env n s)).bind fun p =>
        if p.1 = fid then some p.2 else none).toList := by
  rw [linesRead, List.range_succ, List.filterMap_append]
  congr 1

/-- A run that is not stopped has recorded the `#line`s it read, in
increasing order. -/
theorem overrideOffsets_run (n : ℕ)
    (h : (runState env n (initial path input predefined)).aborted = none) (fid : ℕ) :
    overrideOffsets (runState env n (initial path input predefined)).sm fid =
        linesRead env (initial path input predefined) n fid ∧
      (linesRead env (initial path input predefined) n fid).Pairwise (· < ·) := by
  induction n with
  | zero =>
    refine ⟨?_, List.Pairwise.nil⟩
    simp only [overrideOffsets, SourceManager.buffer?]
    split
    · rfl
    · change ((([⟨path, input.text, []⟩] : List Buffer)[fid - 1]?).map _).getD [] = []
      cases hb : ([⟨path, input.text, []⟩] : List Buffer)[fid - 1]? with
      | none => rfl
      | some b =>
        obtain rfl : b = ⟨path, input.text, []⟩ := by simpa using List.mem_of_getElem? hb
        rfl
  | succ n ih =>
    have hsucc := runState_succ env n (initial path input predefined)
    have hinv := stacked_run env path input predefined n
    have hab : (runState env n (initial path input predefined)).aborted = none := by
      by_contra hne
      rw [hsucc, (step_eq_none_iff.2 (.inl hne)), Option.getD_none] at h
      exact hne h
    obtain ⟨hov, hsorted⟩ := ih hab
    rw [linesRead_succ]
    cases ha : activeLine? env (runState env n (initial path input predefined)) with
    | none =>
      rw [Option.bind_none, Option.toList_none, List.append_nil]
      refine ⟨?_, hsorted⟩
      cases hs : step env (runState env n (initial path input predefined)) with
      | none => rw [hsucc, hs, Option.getD_none, hov]
      | some t =>
        rw [hsucc, hs, Option.getD_some, (step_of_not_activeLine hinv ha hs).1, hov]
    | some p =>
      obtain ⟨g, off⟩ := p
      obtain ⟨t, hs, ⟨habt, -⟩ | ⟨-, hlast, hov'⟩⟩ := step_of_activeLine hinv ha
      · rw [hsucc, hs, Option.getD_some, habt] at h
        exact absurd h (by simp)
      · rw [hsucc, hs, Option.getD_some, hov' fid, hov, Option.bind_some]
        by_cases hg : g = fid
        · subst hg
          rw [if_pos rfl, if_pos rfl, Option.toList_some]
          refine ⟨rfl, List.pairwise_append.2 ⟨hsorted, List.pairwise_singleton _ _, ?_⟩⟩
          -- the last of an increasing list bounds the others
          intro a ha' b hb
          rw [List.mem_singleton.1 hb]
          have hne : linesRead env (initial path input predefined) n g ≠ [] :=
            List.ne_nil_of_mem ha'
          have hlt := hlast _ (by rw [hov]; exact List.getLast?_eq_some_getLast hne)
          have hle := List.Pairwise.rel_getLast (R := (· ≤ ·)) (hsorted.imp Nat.le_of_lt) ha'
          omega
        · rw [if_neg (Ne.symm hg), if_neg hg]
          simpa using hsorted

/-- The run is stopped by neither abort of the line map and the include
stack. -/
def LineMapSafe (env : Env) (s : State) : Prop :=
  ∀ n, (runState env n s).aborted ≠ some .lineDirectiveOrder ∧
    (runState env n s).aborted ≠ some .includeStackEmpty

/-- A run stopped by one of them was stopped by a `#line` that stands at
or before an earlier one of its file. -/
theorem exists_out_of_order {n : ℕ} {a : Abort}
    (ha : a = .lineDirectiveOrder ∨ a = .includeStackEmpty)
    (h : (runState env n (initial path input predefined)).aborted = some a) :
    ∃ i j fid off off', i < j ∧
      activeLine? env (runState env i (initial path input predefined)) = some (fid, off) ∧
      activeLine? env (runState env j (initial path input predefined)) = some (fid, off') ∧
      off' ≤ off := by
  induction n with
  | zero => exact absurd h (by simp [runState, initial])
  | succ n ih =>
    have hinv := stacked_run env path input predefined n
    rw [runState_succ] at h
    cases hs : step env (runState env n (initial path input predefined)) with
    | none =>
      rw [hs, Option.getD_none] at h
      exact ih h
    | some t =>
      rw [hs, Option.getD_some] at h
      cases hact : activeLine? env (runState env n (initial path input predefined)) with
      | none =>
        obtain ⟨-, hne, hne'⟩ := step_of_not_activeLine hinv hact hs
        rcases ha with rfl | rfl
        · exact absurd h hne
        · exact absurd h hne'
      | some p =>
        obtain ⟨fid, off'⟩ := p
        obtain ⟨t', hs', ⟨-, o, ho, hle⟩ | ⟨habt, -, -⟩⟩ := step_of_activeLine hinv hact
        · obtain ⟨f, fs, -, -, -, -, -, hab, -⟩ := activeLine?_eq_some_iff.1 hact
          rw [(overrideOffsets_run n hab fid).1] at ho
          obtain ⟨i, hi, hread⟩ := mem_linesRead.1 (List.mem_of_getLast? ho)
          exact ⟨i, n, fid, o, off', hi, hread, hact, hle⟩
        · obtain rfl : t = t' := Option.some.inj (hs.symm.trans hs')
          rw [habt] at h
          exact absurd h (by simp)

/-- A run the line map does not stop reads the `#line`s in order. -/
theorem linesInOrder_of_accepted
    (h : ∀ n, (runState env n (initial path input predefined)).aborted ≠
      some .lineDirectiveOrder) :
    LinesInOrder env (initial path input predefined) := by
  intro i j fid off off' hij hi hj
  have hinv := stacked_run env path input predefined j
  obtain ⟨f, fs, -, -, -, -, -, hab, -⟩ := activeLine?_eq_some_iff.1 hj
  obtain ⟨t, hs, ⟨habt, -⟩ | ⟨-, hlast, -⟩⟩ := step_of_activeLine hinv hj
  · refine absurd ?_ (h (j + 1))
    rw [runState_succ, hs, Option.getD_some, habt]
  · obtain ⟨hov, hsorted⟩ := overrideOffsets_run j hab fid
    have hmem : off ∈ linesRead env (initial path input predefined) j fid :=
      mem_linesRead.2 ⟨i, hij, hi⟩
    have hne : linesRead env (initial path input predefined) j fid ≠ [] :=
      List.ne_nil_of_mem hmem
    have hlt := hlast _ (by rw [hov]; exact List.getLast?_eq_some_getLast hne)
    have hle := List.Pairwise.rel_getLast (R := (· ≤ ·)) (hsorted.imp Nat.le_of_lt) hmem
    omega

/-- **The line map stops no run exactly if every `#line` of a file is
read behind the earlier ones.** -/
theorem lineMapSafe_iff (env : Env) (path : Text) (input : SourceText)
    (predefined : List (Text × Text)) :
    LineMapSafe env (initial path input predefined) ↔
      LinesInOrder env (initial path input predefined) := by
  constructor
  · exact fun hsafe => linesInOrder_of_accepted fun n => (hsafe n).1
  · intro hord n
    constructor <;> intro hab
    · obtain ⟨i, j, fid, off, off', hij, hi, hj, hle⟩ := exists_out_of_order (.inl rfl) hab
      exact absurd (hord i j fid off off' hij hi hj) (by omega)
    · obtain ⟨i, j, fid, off, off', hij, hi, hj, hle⟩ := exists_out_of_order (.inr rfl) hab
      exact absurd (hord i j fid off off' hij hi hj) (by omega)

/-- A file system with one file besides the root. -/
def oneFileEnv (path : Text) (text : SourceText) : Env :=
  { bareEnv with files := fun p => if p = path then some text else none }

/-- A file with a `#line` of its own. -/
def lineFile : SourceText := ⟨"#line 5\n".toList, by decide⟩

/-- Two inclusions of one file. -/
def twiceIncludingFile : SourceText := ⟨"#include \"b\"\n#include \"b\"\n".toList, by decide⟩

/-- The second inclusion of a file with a `#line` stops the run. -/
theorem not_lineMapSafe_twiceIncludingFile :
    ¬ LineMapSafe (oneFileEnv "b".toList lineFile)
      (initial "f.nsl".toList twiceIncludingFile []) := by
  intro h
  exact (h 5).1 (by decide +kernel)

end Runs

end Preprocess

end Nslc
