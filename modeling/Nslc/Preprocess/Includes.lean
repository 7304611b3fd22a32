import Nslc.Preprocess.Reports
/-!
# Preprocessor — the include stack

Every frame stands in a registered buffer, there are at most
`kMaxIncludeDepth` of them, and the source manager's include stack has
one entry for each but the root's. An include counts its frame's bytes
down before it opens another one, so a run halts: a byte of an outer
frame is worth more than a whole file opened from it.
-/

namespace Nslc

namespace Preprocess

variable {env : Env} {s t : State} {f : Frame} {fs : List Frame} {l : Line}

/-! ## Registered buffers -/

/-- The file number is in use. -/
def Registered (sm : SourceManager) (f : ℕ) : Prop :=
  0 < f ∧ f ≤ sm.buffers.length

/-- The files a step leaves behind: those before it, their texts as they
were, and possibly more. -/
structure FilesGrow (sm sm' : SourceManager) : Prop where
  length_le : sm.buffers.length ≤ sm'.buffers.length
  bytes_eq : ∀ f, Registered sm f → sm'.getBuffer f = sm.getBuffer f

theorem FilesGrow.refl (sm : SourceManager) : FilesGrow sm sm := ⟨Nat.le_refl _, fun _ _ => rfl⟩

theorem FilesGrow.registered {sm sm' : SourceManager} (h : FilesGrow sm sm') {f : ℕ}
    (hf : Registered sm f) : Registered sm' f :=
  ⟨hf.1, Nat.le_trans hf.2 h.length_le⟩

/-- Every registered text is short enough to be addressed. -/
def Addressed (sm : SourceManager) : Prop := ∀ b ∈ sm.buffers, b.bytes.length < kMaxOffset

theorem length_getBuffer_lt {sm : SourceManager} (h : Addressed sm) (f : ℕ) :
    (sm.getBuffer f).length < kMaxOffset := by
  unfold SourceManager.getBuffer
  cases hb : sm.buffer? f with
  | none => simp [kMaxOffset]
  | some b =>
    unfold SourceManager.buffer? at hb
    split at hb
    · exact absurd hb (by simp)
    · exact h b (List.mem_of_getElem? hb)

theorem buffer?_of_registered {sm : SourceManager} {f : ℕ}
    (h : Registered sm f) : ∃ b, sm.buffer? f = some b := by
  obtain ⟨hpos, hle⟩ := h
  unfold SourceManager.buffer?
  rw [if_neg (Nat.ne_of_gt hpos)]
  exact ⟨_, List.getElem?_eq_getElem (by omega)⟩

theorem files_popIncludeFrame {sm sm' : SourceManager} (h : sm.popIncludeFrame = some sm') :
    sm'.buffers = sm.buffers ∧ ∃ e, sm.includeStack = e :: sm'.includeStack := by
  unfold SourceManager.popIncludeFrame at h
  split at h
  · exact absurd h (by simp)
  · rename_i e es he
    rw [← Option.some.inj h]
    exact ⟨rfl, e, he⟩

/-- What recording an override changes: nothing but the override. -/
theorem files_addLineDirective {sm sm' : SourceManager} {f : ℕ} {off n : ℕ} {p : Text}
    (h : sm.addLineDirective f off n p = some sm') :
    ∃ b, sm.buffer? f = some b ∧ (∀ d ∈ b.lineOverrides.getLast?, d.originOffset < off) ∧
      sm'.buffers = sm.buffers.set (f - 1)
        { b with lineOverrides := b.lineOverrides ++ [⟨off, n, p⟩] } ∧
      sm'.includeStack = sm.includeStack := by
  unfold SourceManager.addLineDirective at h
  split at h
  · exact absurd h (by simp)
  · rename_i b hb
    split at h
    · rename_i hlast
      rw [← Option.some.inj h]
      refine ⟨b, hb, ?_, rfl, rfl⟩
      intro d hd
      rw [Option.mem_def] at hd
      simpa [hd] using hlast
    · exact absurd h (by simp)

theorem filesGrow_addLineDirective {sm sm' : SourceManager} {f : ℕ} {off n : ℕ} {p : Text}
    (h : sm.addLineDirective f off n p = some sm') :
    FilesGrow sm sm' ∧ (Addressed sm → Addressed sm') := by
  obtain ⟨b, hb, -, hbuf, -⟩ := files_addLineDirective h
  have hb' : f ≠ 0 ∧ sm.buffers[f - 1]? = some b := by
    unfold SourceManager.buffer? at hb
    split at hb
    · exact absurd hb (by simp)
    · exact ⟨‹_›, hb⟩
  refine ⟨⟨by simp [hbuf], ?_⟩, ?_⟩
  · intro g hg
    unfold SourceManager.getBuffer SourceManager.buffer?
    by_cases h0 : g = 0
    · simp [h0]
    rw [if_neg h0, if_neg h0, hbuf, List.getElem?_set]
    split
    · rename_i hfg
      have hlt : f - 1 < sm.buffers.length := (List.getElem?_eq_some_iff.1 hb'.2).1
      rw [if_pos hlt, ← hfg, hb'.2]
      rfl
    · rfl
  · intro ha c hc
    rw [hbuf] at hc
    rcases List.mem_or_eq_of_mem_set hc with hc | rfl
    · exact ha c hc
    · exact ha b (List.mem_of_getElem? hb'.2)

/-- A load answers with a registered file, a new one only if the path is
not registered yet. -/
theorem files_loadFile {sm sm' : SourceManager} {p : Text} {inner : ℕ}
    (h : loadFile env sm p = .ok sm' inner) :
    sm'.includeStack = sm.includeStack ∧ Registered sm' inner ∧
      (sm' = sm ∨ ∃ t : SourceText, sm'.buffers = sm.buffers ++ [⟨p, t.text, []⟩]) := by
  unfold loadFile at h
  split at h
  · rename_i fid hfid
    obtain ⟨rfl, rfl⟩ := Loaded.ok.inj h
    refine ⟨rfl, ?_, .inl rfl⟩
    simp only [SourceManager.findFileIDByPath, Option.map_eq_some_iff] at hfid
    obtain ⟨i, hi, rfl⟩ := hfid
    obtain ⟨hlt, -⟩ := List.findIdx?_eq_some_iff_getElem.1 hi
    exact ⟨by omega, hlt⟩
  · split at h
    · exact absurd h (by simp)
    · rename_i t _
      unfold SourceManager.addBufferInMemory at h
      split at h
      · exact absurd h (by simp)
      · rename_i hadd
        split at hadd
        · obtain ⟨rfl, rfl⟩ := Loaded.ok.inj h
          obtain ⟨rfl, rfl⟩ := Prod.mk.inj (Option.some.inj hadd)
          exact ⟨rfl, ⟨by omega, by simp⟩, .inr ⟨t, rfl⟩⟩
        · exact absurd hadd (by simp)

/-- The file a load answers with is registered under its path. -/
theorem getPath_of_loadFile {sm sm' : SourceManager} {p : Text} {inner : FileID}
    (h : loadFile env sm p = .ok sm' inner) : sm'.getPath inner = p := by
  unfold loadFile at h
  split at h
  · rename_i fid hf
    obtain ⟨rfl, rfl⟩ := Loaded.ok.inj h
    simp only [SourceManager.findFileIDByPath, Option.map_eq_some_iff] at hf
    obtain ⟨i, hi, rfl⟩ := hf
    obtain ⟨hlt, hp, -⟩ := List.findIdx?_eq_some_iff_getElem.1 hi
    simp [SourceManager.getPath, SourceManager.buffer?, hlt, of_decide_eq_true hp]
  · split at h
    · exact absurd h (by simp)
    · split at h
      · exact absurd h (by simp)
      · rename_i sm'' fid hadd
        obtain ⟨rfl, rfl⟩ := Loaded.ok.inj h
        unfold SourceManager.addBufferInMemory at hadd
        split at hadd
        · obtain ⟨rfl, rfl⟩ := Prod.mk.inj (Option.some.inj hadd)
          simp [SourceManager.getPath, SourceManager.buffer?]
        · exact absurd hadd (by simp)

theorem filesGrow_loadFile {sm sm' : SourceManager} {p : Text} {inner : ℕ}
    (h : loadFile env sm p = .ok sm' inner) :
    FilesGrow sm sm' ∧ (Addressed sm → Addressed sm') := by
  obtain ⟨-, -, rfl | ⟨t, hbuf⟩⟩ := files_loadFile h
  · exact ⟨.refl _, id⟩
  · refine ⟨⟨by simp [hbuf], ?_⟩, ?_⟩
    · intro g hg
      unfold SourceManager.getBuffer SourceManager.buffer?
      obtain ⟨hpos, hle⟩ := hg
      have hlt : g - 1 < sm.buffers.length := by omega
      rw [if_neg (Nat.ne_of_gt hpos), if_neg (Nat.ne_of_gt hpos), hbuf,
        List.getElem?_append_left hlt]
    · intro ha c hc
      rw [hbuf] at hc
      rcases List.mem_append.1 hc with hc | hc
      · exact ha c hc
      · rw [List.mem_singleton.1 hc]
        exact t.length_lt

/-! ## The invariant -/

/-- **What holds of every state reached.** -/
structure Stacked (s : State) : Prop where
  addressed : Addressed s.sm
  registered : ∀ f ∈ s.includeStack, Registered s.sm f.fid
  depth : s.includeStack.length ≤ kMaxIncludeDepth
  lockstep : s.sm.includeStack.map Prod.snd = s.includeStack.dropLast.map Frame.fid

theorem stacked_initial (path : Text) (input : SourceText) (predefined : List (Text × Text)) :
    Stacked (initial path input predefined) where
  addressed := by
    intro b hb
    rw [List.mem_singleton.1 hb]
    exact input.length_lt
  registered := by
    intro f hf
    rw [List.mem_singleton.1 hf]
    exact ⟨Nat.one_pos, Nat.le_refl _⟩
  depth := by simp [initial, kMaxIncludeDepth]
  lockstep := rfl

/-- A line that opens no frame. -/
theorem Stacked.advance (h : Stacked s) (hst : s.includeStack = f :: fs) {g : Frame}
    (hg : g.fid = f.fid) (hstack : t.includeStack = g :: fs) (hgrow : FilesGrow s.sm t.sm)
    (haddr : Addressed t.sm) (hinc : t.sm.includeStack = s.sm.includeStack) : Stacked t where
  addressed := haddr
  registered := by
    intro k hk
    rw [hstack] at hk
    rcases List.mem_cons.1 hk with rfl | hk
    · rw [hg]
      exact hgrow.registered (h.registered f (by simp [hst]))
    · exact hgrow.registered (h.registered k (by simp [hst, hk]))
  depth := by
    have := h.depth
    rw [hst] at this
    rw [hstack]
    exact this
  lockstep := by
    rw [hinc, h.lockstep, hst, hstack]
    cases fs with
    | nil => rfl
    | cons k ks => simp [hg]

theorem stacked_stepLine (h : Stacked s) (hst : s.includeStack = f :: fs) :
    Stacked (stepLine env s f fs l) := by
  have hfid : (f.next env s l).fid = f.fid := rfl
  rcases stepLine_cases env s f fs l with ⟨hp, -⟩ | ⟨n, p, hp⟩ | ⟨q, sm, inner, hp⟩ | hp
  · refine h.advance hst hfid hp.stack_eq ?_ ?_ ?_ <;> rw [hp.sm_eq]
    · exact .refl _
    · exact h.addressed
  · obtain ⟨hgrow, haddr⟩ := filesGrow_addLineDirective hp.sm_eq
    obtain ⟨_, -, -, -, hinc⟩ := files_addLineDirective hp.sm_eq
    exact h.advance hst hfid hp.stack_eq hgrow (haddr h.addressed) hinc
  · -- the frame that is opened gets its entry on both stacks
    obtain ⟨hgrow, haddr⟩ := filesGrow_loadFile hp.loaded
    obtain ⟨hinc, hreg, -⟩ := files_loadFile hp.loaded
    refine ⟨?_, ?_, ?_, ?_⟩
    · rw [hp.sm_eq]
      exact haddr h.addressed
    · intro k hk
      rw [hp.stack_eq] at hk
      rw [hp.sm_eq]
      rcases List.mem_cons.1 hk with rfl | hk
      · exact hreg
      rcases List.mem_cons.1 hk with rfl | hk
      · exact hgrow.registered (h.registered f (by simp [hst]))
      · exact hgrow.registered (h.registered k (by simp [hst, hk]))
    · have := hp.depth
      rw [hp.stack_eq]
      simp only [List.length_cons]
      omega
    · rw [hp.sm_eq, hp.stack_eq]
      have hlock := h.lockstep
      rw [hst] at hlock
      simp only [SourceManager.pushIncludeFrame, List.map_cons, hinc, hlock]
      cases fs with
      | nil => rfl
      | cons k ks => simp [hfid]
  · refine h.advance hst hfid hp.stack_eq ?_ ?_ ?_ <;> rw [hp.sm_eq]
    · exact .refl _
    · exact h.addressed

/-- The end of a frame: the entry of the frame is there to be popped. -/
theorem stepEof_cases (h : Stacked s) (hst : s.includeStack = f :: fs) :
    (fs = [] ∧ (stepEof s f fs).sm = s.sm ∨
      fs ≠ [] ∧ s.sm.popIncludeFrame = some (stepEof s f fs).sm) ∧
    (stepEof s f fs).includeStack = fs ∧ (stepEof s f fs).aborted = s.aborted := by
  cases fs with
  | nil => exact ⟨.inl ⟨rfl, rfl⟩, rfl, rfl⟩
  | cons k ks =>
    have hlock := h.lockstep
    rw [hst, List.dropLast_cons_of_ne_nil (by simp), List.map_cons] at hlock
    obtain ⟨e, es, he, -⟩ := List.map_eq_cons_iff.1 hlock
    have hpop : s.sm.popIncludeFrame = some { s.sm with includeStack := es } := by
      simp [SourceManager.popIncludeFrame, he]
    simp [stepEof, State.addDiags, hpop, State.emit]

theorem stacked_stepEof (h : Stacked s) (hst : s.includeStack = f :: fs) :
    Stacked (stepEof s f fs) := by
  obtain ⟨hsm, hstack, -⟩ := stepEof_cases h hst
  have hmem : ∀ k ∈ fs, k ∈ s.includeStack := fun k hk => by simp [hst, hk]
  have hdepth := h.depth
  rw [hst, List.length_cons] at hdepth
  have hlock := h.lockstep
  rcases hsm with ⟨rfl, hsm⟩ | ⟨hne, hpop⟩
  · refine ⟨?_, ?_, ?_, ?_⟩
    · rw [hsm]
      exact h.addressed
    · simp [hstack]
    · simp [hstack]
    · rw [hsm, hlock, hst, hstack]
      rfl
  · obtain ⟨hbuf, e, he⟩ := files_popIncludeFrame hpop
    have hgrow : FilesGrow s.sm (stepEof s f fs).sm := by
      refine ⟨by rw [hbuf], fun g _ => ?_⟩
      simp only [SourceManager.getBuffer, SourceManager.buffer?, hbuf]
    refine ⟨?_, ?_, ?_, ?_⟩
    · intro b hb
      exact h.addressed b (hbuf ▸ hb)
    · intro k hk
      rw [hstack] at hk
      exact hgrow.registered (h.registered k (hmem k hk))
    · rw [hstack]
      omega
    · rw [hst, List.dropLast_cons_of_ne_nil hne, he, List.map_cons, List.map_cons] at hlock
      rw [hstack]
      exact (List.cons.inj hlock).2

theorem stacked_step (h : Stacked s) (hstep : step env s = some t) : Stacked t := by
  obtain ⟨f, fs, -, hst, ⟨-, rfl⟩ | ⟨l, -, rfl⟩⟩ := step_cases hstep
  · exact stacked_stepEof h hst
  · exact stacked_stepLine h hst

/-- **The two stacks stay in lockstep** along every run. -/
theorem stacked_run (env : Env) (path : Text) (input : SourceText)
    (predefined : List (Text × Text)) (n : ℕ) :
    Stacked (runState env n (initial path input predefined)) :=
  Run.runUpto_inv (P := Stacked) (G := fun _ => True) (fun _ _ h _ hs => stacked_step h hs)
    (fun _ _ => trivial) (stacked_initial path input predefined)

/-! ## Termination -/

/-- The bytes a frame has still to read. -/
def Frame.remaining (sm : SourceManager) (f : Frame) : ℕ := (sm.getBuffer f.fid).length - f.cursor

/-- The bytes still to be read, those of an outer frame weighing more. -/
def weight (s : State) : ℕ :=
  Run.stackWeight (kMaxOffset + 1) (kMaxIncludeDepth - 1)
    (s.includeStack.map (Frame.remaining s.sm))

theorem remaining_eq {sm sm' : SourceManager} (hgrow : FilesGrow sm sm') {ks : List Frame}
    (h : ∀ k ∈ ks, Registered sm k.fid) :
    ks.map (Frame.remaining sm') = ks.map (Frame.remaining sm) := by
  refine List.map_congr_left fun k hk => ?_
  simp only [Frame.remaining, hgrow.bytes_eq k.fid (h k hk)]

/-- A line takes bytes off its own frame. -/
theorem remaining_next_lt {sm : SourceManager} (hgrow : FilesGrow s.sm sm)
    (hreg : Registered s.sm f.fid) (hr : readLine (s.sm.getBuffer f.fid) f.cursor = some l) :
    Frame.remaining sm (f.next env s l) < Frame.remaining s.sm f := by
  obtain ⟨hpos, hle⟩ := bytes_length_pos hr
  have hbuf := hgrow.bytes_eq f.fid hreg
  simp only [Frame.remaining, Frame.next, Frame.advance, hbuf]
  omega

theorem weight_step (h : Stacked s) (hstep : step env s = some t) : weight t < weight s := by
  have hB : 0 < kMaxOffset + 1 := Nat.succ_pos _
  obtain ⟨f, fs, -, hst, ⟨-, rfl⟩ | ⟨l, hr, rfl⟩⟩ := step_cases hstep
  · -- a frame that ends gives up the one unit it had left
    obtain ⟨hsm, hstack, -⟩ := stepEof_cases h hst
    have hbuf : (stepEof s f fs).sm.buffers = s.sm.buffers := by
      rcases hsm with ⟨-, hsm⟩ | ⟨-, hpop⟩
      · rw [hsm]
      · exact (files_popIncludeFrame hpop).1
    have hrem : Frame.remaining (stepEof s f fs).sm = Frame.remaining s.sm := by
      funext k
      simp only [Frame.remaining, SourceManager.getBuffer, SourceManager.buffer?, hbuf]
    simp only [weight, hstack, hst, List.map_cons, hrem]
    exact Run.stackWeight_pop hB
  · have hregf := h.registered f (by simp [hst])
    have hregs : ∀ k ∈ fs, Registered s.sm k.fid := fun k hk => h.registered k (by simp [hst, hk])
    have hcount : ∀ t : State, FilesGrow s.sm t.sm →
        t.includeStack = f.next env s l :: fs → weight t < weight s := by
      intro t hgrow hstack
      simp only [weight, hstack, hst, List.map_cons, remaining_eq hgrow hregs]
      exact Run.stackWeight_count hB (remaining_next_lt hgrow hregf hr)
    rcases stepLine_cases env s f fs l with ⟨hp, -⟩ | ⟨n, p, hp⟩ | ⟨q, sm, inner, hp⟩ | hp
    · exact hcount _ (hp.sm_eq ▸ .refl _) hp.stack_eq
    · exact hcount _ (filesGrow_addLineDirective hp.sm_eq).1 hp.stack_eq
    · obtain ⟨hgrow, haddr⟩ := filesGrow_loadFile hp.loaded
      have hgrow' : FilesGrow s.sm (stepLine env s f fs l).sm := by
        rw [hp.sm_eq]
        exact ⟨hgrow.length_le, hgrow.bytes_eq⟩
      have hinner : Frame.remaining (stepLine env s f fs l).sm ⟨inner, 0, 1, []⟩ + 1 <
          kMaxOffset + 1 := by
        have haddr' : Addressed (stepLine env s f fs l).sm := by
          rw [hp.sm_eq]
          exact haddr h.addressed
        have := length_getBuffer_lt haddr' inner
        simp only [Frame.remaining]
        omega
      have hdepth := hp.depth
      simp only [weight, hp.stack_eq, hst, List.map_cons, remaining_eq hgrow' hregs]
      refine Run.stackWeight_push hinner (remaining_next_lt hgrow' hregf hr) ?_
      rw [List.length_map]
      omega
    · exact hcount _ (hp.sm_eq ▸ .refl _) hp.stack_eq

/-- **Every run halts**, within the weight of the root file. -/
theorem exists_halted (env : Env) (path : Text) (input : SourceText)
    (predefined : List (Text × Text)) :
    ∃ n ≤ weight (initial path input predefined),
      step env (runState env n (initial path input predefined)) = none :=
  Run.exists_halted_of_measure (P := Stacked) (fun _ _ h hs => stacked_step h hs)
    (fun _ _ h hs => weight_step h hs) (stacked_initial path input predefined)

end Preprocess

end Nslc
