import Mathlib
import Nslc.LSP.Server
/-!
# LSP — tokens and folding workers

A token belongs to one request and is never reset: whoever holds one
(the in-flight table, the dispatch thread, a worker) holds the token of
its own id, and a walk that was interrupted finds its token cancelled
when it leaves. So a worker that answers with a list has walked the
whole text.
-/

namespace Nslc

namespace LSP

open Interleave

/-- The token the dispatch thread has made for a folding request. -/
def Duty.token? : Duty → Option (RequestId × ℕ)
  | .lookup id t _ | .read id t _ | .spawn id t _ => some (id, t)
  | .idle | .respond _ | .waiting _ | .register _ _ | .cancelling _ => none

namespace Server

variable {δ : Type} {diagnose : Text → δ} {version : Text} {s s' : Server δ} {a : ServerAction}

section Begin

variable (s : Server δ) (h : Handler)

@[simp] theorem begin_folders : (begin s h).folders = s.folders := by cases h <;> rfl
@[simp] theorem begin_tokens : (begin s h).tokens = s.tokens := by cases h <;> rfl
@[simp] theorem begin_inflight : (begin s h).inflight = s.inflight := by cases h <;> rfl
@[simp] theorem begin_stage : (begin s h).stage = s.stage := by cases h <;> rfl
@[simp] theorem begin_log : (begin s h).log = s.log := by cases h <;> rfl

end Begin

theorem duty_of_reading (h : s.reading = true) : s.duty = .idle := by
  unfold reading at h
  cases hd : s.duty <;> simp_all

theorem stage_of_reading (h : s.reading = true) : s.stage = .running := by
  simp only [reading, decide_eq_true_eq] at h
  exact h.1

/-! ## Tokens -/

/-- The token `t` was made for `id`. -/
def Owns (s : Server δ) (id : RequestId) (t : ℕ) : Prop := ∃ c, s.tokens[t]? = some ⟨id, c⟩

theorem Owns.id_eq {id id' : RequestId} {t : ℕ} (h : s.Owns id t) (h' : s.Owns id' t) :
    id = id' := by
  obtain ⟨c, hc⟩ := h
  obtain ⟨c', hc'⟩ := h'
  have := Option.some.inj (hc.symm.trans hc')
  simpa using congrArg CancellationToken.id this

/-- A token keeps its id, and a flag that is up stays up. -/
theorem StepCase.token_grows (h : StepCase diagnose version s a s') {t : ℕ}
    {tok : CancellationToken} (ht : s.tokens[t]? = some tok) :
    ∃ c, s'.tokens[t]? = some ⟨tok.id, tok.cancelled || c⟩ := by
  have hsame : s'.tokens = s.tokens → ∃ c, s'.tokens[t]? = some ⟨tok.id, tok.cancelled || c⟩ := by
    intro heq
    exact ⟨false, by rw [heq, ht, Bool.or_false]⟩
  cases h with
  | receive e hr => exact hsame (by simp)
  | registered =>
    refine ⟨false, ?_⟩
    have hlt : t < s.tokens.length := (List.getElem?_eq_some_iff.1 ht).1
    rw [List.getElem?_append_left hlt, ht, Bool.or_false]
  | @cancelled id token =>
    by_cases htok : token = t
    · exact ⟨true, by simp [cancel, ht, htok]⟩
    · exact ⟨false, by simp [cancel, ht, htok]⟩
  | drain => exact ⟨_, by rw [List.getElem?_mapIdx, ht]; rfl⟩
  | _ => exact hsame rfl

theorem StepCase.owns (h : StepCase diagnose version s a s') {id : RequestId} {t : ℕ}
    (ho : s.Owns id t) : s'.Owns id t := by
  obtain ⟨c, hc⟩ := ho
  obtain ⟨c', hc'⟩ := h.token_grows hc
  exact ⟨_, hc'⟩

theorem StepCase.isCancelled_mono (h : StepCase diagnose version s a s') {t : ℕ}
    (hc : s.isCancelled t = true) : s'.isCancelled t = true := by
  obtain ⟨tok, htok, hup⟩ := (Option.any_eq_true _ _).1 hc
  obtain ⟨c, hc'⟩ := h.token_grows htok
  simp [isCancelled, hc', hup]

/-! ## Folding workers -/

/-- The workers behind a step. -/
inductive FolderStep (s : Server δ) : Folder → Prop
  | kept {f : Folder} : f ∈ s.folders → FolderStep s f
  | spawned {id : RequestId} {t : ℕ} {x : Text} : s.duty = .spawn id t x →
      FolderStep s ⟨id, x, t, .start x, .walking⟩
  | walked {f : Folder} : f ∈ s.folders → f.phase = .walking → f.scan.ended = false →
      FolderStep s { f with scan := f.scan.step (s.isCancelled f.token) }
  | left {f : Folder} : f ∈ s.folders → f.phase = .walking → f.scan.ended = true →
      FolderStep s { f with phase := .leaving (s.isCancelled f.token) }
  | answered {f : Folder} {c : Bool} : f ∈ s.folders → f.phase = .leaving c →
      FolderStep s { f with phase := .answered }

theorem StepCase.folder (h : StepCase diagnose version s a s') {f : Folder}
    (hf : f ∈ s'.folders) : FolderStep s f := by
  cases h with
  | receive e hr => exact .kept (by simpa using hf)
  | spawned _ hduty =>
    rcases List.mem_append.1 hf with hf | hf
    · exact .kept hf
    · obtain rfl := List.mem_singleton.1 hf
      exact .spawned hduty
  | @walked i g hg hp hend =>
    rcases List.mem_or_eq_of_mem_set hf with hf | rfl
    · exact .kept hf
    · exact .walked (List.mem_of_getElem? hg) hp hend
  | @left i g hg hp hend =>
    rcases List.mem_or_eq_of_mem_set hf with hf | rfl
    · exact .kept hf
    · exact .left (List.mem_of_getElem? hg) hp hend
  | @answered i g c hg hp =>
    rcases List.mem_or_eq_of_mem_set hf with hf | rfl
    · exact .kept hf
    · exact .answered (List.mem_of_getElem? hg) hp
  | _ => exact .kept hf

/-- What a walk has come to: on its way to the end, or interrupted with
its token cancelled. -/
structure Walks (s : Server δ) (f : Folder) : Prop where
  onward : f.scan.interrupted = false → f.scan.finish = (Scan.start f.contents).finish
  interrupted : f.scan.interrupted = true → s.isCancelled f.token = true
  whole : f.phase = .leaving false → f.scan = (Scan.start f.contents).finish

theorem Walks.step {f : Folder} (h : StepCase diagnose version s a s') (hw : s.Walks f) :
    s'.Walks f :=
  ⟨hw.onward, fun hi => h.isCancelled_mono (hw.interrupted hi), hw.whole⟩

theorem FolderStep.walks {f : Folder} (hf : FolderStep s f) (hw : ∀ g ∈ s.folders, s.Walks g) :
    s.Walks f := by
  cases hf with
  | kept hg => exact hw _ hg
  | spawned => exact ⟨fun _ => rfl, (fun h => by cases h), (fun h => by cases h)⟩
  | @walked g hg hp hend =>
    have hfresh : g.scan.interrupted = false := by
      simp only [Scan.ended, Bool.or_eq_false_iff] at hend
      exact hend.2
    refine ⟨fun hi => ?_, fun hi => Scan.cancelled_of_interrupted hfresh hi, fun h => ?_⟩
    · show (g.scan.step _).finish = _
      rw [Scan.step_eq_of_not_interrupted hi, Scan.finish_step]
      exact (hw g hg).onward hfresh
    · rw [hp] at h
      cases h
  | @left g hg hp hend =>
    refine ⟨(hw g hg).onward, (hw g hg).interrupted, fun h => ?_⟩
    have hcalm : s.isCancelled g.token = false := by simpa using h
    -- a cancelled token would still be seen here
    have hfresh : g.scan.interrupted = false := by
      by_contra hi
      rw [(hw g hg).interrupted (by simpa using hi)] at hcalm
      cases hcalm
    exact Scan.eq_finish_of_ended ((hw g hg).onward hfresh) hend hfresh
  | answered hg => exact ⟨(hw _ hg).onward, (hw _ hg).interrupted, (fun h => by cases h)⟩

/-- A worker keeps its place, its id and its text. -/
theorem StepCase.folder_at (h : StepCase diagnose version s a s') {i : ℕ} {f : Folder}
    (hf : s.folders[i]? = some f) :
    ∃ f', s'.folders[i]? = some f' ∧ f'.id = f.id ∧ f'.contents = f.contents := by
  have hlt : i < s.folders.length := (List.getElem?_eq_some_iff.1 hf).1
  have hset : ∀ {j : ℕ} {g g' : Folder}, s.folders[j]? = some g → g'.id = g.id →
      g'.contents = g.contents → ∃ f', (s.folders.set j g')[i]? = some f' ∧ f'.id = f.id ∧
        f'.contents = f.contents := by
    intro j g g' hg hid hcon
    by_cases hij : j = i
    · subst hij
      obtain rfl := Option.some.inj (hf.symm.trans hg)
      exact ⟨g', by rw [List.getElem?_set_self hlt], hid, hcon⟩
    · exact ⟨f, by rw [List.getElem?_set_ne hij, hf], rfl, rfl⟩
  cases h with
  | receive e hr => exact ⟨f, by simpa using hf, rfl, rfl⟩
  | spawned => exact ⟨f, by rw [List.getElem?_append_left hlt, hf], rfl, rfl⟩
  | walked hg => exact hset hg rfl rfl
  | left hg => exact hset hg rfl rfl
  | answered hg => exact hset hg rfl rfl
  | _ => exact ⟨f, hf, rfl, rfl⟩

/-- A folding worker's response is the cancellation, or the whole list
for the text the worker was given. -/
def FullFolds (s : Server δ) : Prop :=
  ∀ r i, Wire.wrote r (some i) ∈ s.log → ∃ f, s.folders[i]? = some f ∧ f.id = r.id ∧
    (r.body = requestCancelled ∨ r.body = .result (buildFoldingRanges f.contents))

/-- What goes on the wire behind a worker's name is its answer. -/
theorem StepCase.wrote (h : StepCase diagnose version s a s') {r : Response} {i : ℕ}
    (hw : Wire.wrote r (some i) ∈ s'.log) : Wire.wrote r (some i) ∈ s.log ∨
      ∃ f c, s.folders[i]? = some f ∧ f.phase = .leaving c ∧ r = ⟨f.id, f.body c⟩ := by
  cases h with
  | receive e hr => exact .inl (by simpa using hw)
  | endOfInput => exact .inl (by simpa using hw)
  | exited => exact .inl (by simpa using hw)
  | responded => exact .inl (by simpa using hw)
  | @answered j f c hf hp =>
    rcases List.mem_append.1 hw with hw | hw
    · exact .inl hw
    · obtain ⟨rfl, hij⟩ := Wire.wrote.inj (List.mem_singleton.1 hw)
      obtain rfl := Option.some.inj hij
      exact .inr ⟨f, c, hf, hp, rfl⟩
  | _ => exact .inl hw

theorem StepCase.fullFolds (h : StepCase diagnose version s a s')
    (hw : ∀ f ∈ s.folders, s.Walks f) (hfull : s.FullFolds) : s'.FullFolds := by
  intro r i hr
  rcases h.wrote hr with hr | ⟨f, c, hf, hp, rfl⟩
  · obtain ⟨f, hf, hid, hbody⟩ := hfull r i hr
    obtain ⟨f', hf', hid', hcon⟩ := h.folder_at hf
    exact ⟨f', hf', hid'.trans hid, by rwa [hcon]⟩
  · obtain ⟨f', hf', hid', hcon⟩ := h.folder_at hf
    refine ⟨f', hf', hid', ?_⟩
    cases c with
    | true => exact .inl rfl
    | false =>
      right
      have hscan := (hw f (List.mem_of_getElem? hf)).whole hp
      show Body.result f.scan.folds = _
      rw [hcon, hscan]
      rfl

/-! ## The invariant -/

/-- Everyone's token is their own, and the loop is left with nothing at
hand. -/
structure Kept (s : Server δ) : Prop where
  inflight : ∀ id t, (id, t) ∈ s.inflight → s.Owns id t
  duty : ∀ id t, s.duty.token? = some (id, t) → s.Owns id t
  folders : ∀ f ∈ s.folders, s.Owns f.id f.token
  walks : ∀ f ∈ s.folders, s.Walks f
  drained : s.stage ≠ .running → s.duty = .idle
  returned : s.stage = .returned → ∀ f ∈ s.folders, f.phase = .answered
  full : s.FullFolds

theorem StepCase.inflight (h : StepCase diagnose version s a s') {id : RequestId} {t : ℕ}
    (hm : (id, t) ∈ s'.inflight) : (id, t) ∈ s.inflight ∨ s'.Owns id t := by
  cases h with
  | receive e hr => exact .inl (by simpa using hm)
  | registered =>
    rcases List.mem_cons.1 hm with hm | hm
    · obtain ⟨rfl, rfl⟩ := Prod.mk.inj hm
      exact .inr ⟨false, List.getElem?_concat_length⟩
    · exact .inl (List.mem_of_mem_filter hm)
  | left => exact .inl (List.mem_of_mem_filter hm)
  | _ => exact .inl hm

theorem StepCase.duty_token (h : StepCase diagnose version s a s') {id : RequestId} {t : ℕ}
    (hd : s'.duty.token? = some (id, t)) : s.duty.token? = some (id, t) ∨ s'.Owns id t := by
  cases h with
  | receive e hr =>
    have hidle := duty_of_reading hr
    generalize dispatch version s.initialized s.shutdownReceived e = handler at hd
    cases handler <;> simp_all [begin, Duty.token?]
  | registered =>
    obtain ⟨rfl, rfl⟩ := Prod.mk.inj (Option.some.inj hd)
    exact .inr ⟨false, List.getElem?_concat_length⟩
  | absent _ hduty => exact .inl (by rw [hduty]; exact hd)
  | present _ hduty => exact .inl (by rw [hduty]; exact hd)
  | read _ hduty => exact .inl (by rw [hduty]; exact hd)
  | responded => cases hd
  | waited => cases hd
  | spawned => cases hd
  | unknown => cases hd
  | cancelled => cases hd
  | _ => exact .inl hd

theorem FolderStep.owns {f : Folder} (hf : FolderStep s f) (hk : Kept s) : s.Owns f.id f.token := by
  cases hf with
  | kept hg => exact hk.folders f hg
  | spawned hduty => exact hk.duty _ _ (by rw [hduty]; rfl)
  | @walked g hg => exact hk.folders g hg
  | @left g hg => exact hk.folders g hg
  | @answered g _ hg => exact hk.folders g hg

theorem StepCase.drained (h : StepCase diagnose version s a s') (hk : Kept s)
    (hs : s'.stage ≠ .running) : s'.duty = .idle := by
  cases h with
  | receive e hr => exact absurd (by simpa using stage_of_reading hr) hs
  | endOfInput hr => exact duty_of_reading (s := s) hr
  | exited _ hduty => exact hduty
  | responded => rfl
  | spawned => rfl
  | unknown => rfl
  | cancelled => rfl
  | drain hst => exact hk.drained (by rw [hst]; simp)
  | joined hst => exact hk.drained (by rw [hst]; simp)
  | waited hst => exact absurd hst hs
  | registered hst => exact absurd hst hs
  | absent hst => exact absurd hst hs
  | present hst => exact absurd hst hs
  | read hst => exact absurd hst hs
  | _ => exact hk.drained hs

theorem StepCase.returned (h : StepCase diagnose version s a s') (hk : Kept s)
    (hs : s'.stage = .returned) : ∀ f ∈ s'.folders, f.phase = .answered := by
  -- a worker that has answered takes no step
  have hset : ∀ {i : ℕ} {f g : Folder}, s.folders[i]? = some f → f.phase ≠ .answered →
      s.stage = .returned → ∀ x ∈ s.folders.set i g, x.phase = .answered := by
    intro i f g hf hp hst
    exact absurd (hk.returned hst f (List.mem_of_getElem? hf)) hp
  cases h with
  | receive e hr => exact absurd ((stage_of_reading hr).symm.trans (by simpa using hs)) (by simp)
  | joined hst hall => simpa using hall
  | spawned hst => exact absurd (hst.symm.trans hs) (by simp)
  | walked hf hp => exact hset hf (by rw [hp]; simp) hs
  | left hf hp => exact hset hf (by rw [hp]; simp) hs
  | answered hf hp => exact hset hf (by rw [hp]; simp) hs
  | endOfInput => cases hs
  | exited => cases hs
  | drain => cases hs
  | _ => exact hk.returned hs

theorem kept_initial : Kept (initial : Server δ) where
  inflight _ _ h := by cases h
  duty _ _ h := by cases h
  folders _ h := by cases h
  walks _ h := by cases h
  drained h := absurd rfl h
  returned h := by cases h
  full _ _ h := by cases h

theorem StepCase.kept (h : StepCase diagnose version s a s') (hk : Kept s) : Kept s' where
  inflight id t hm := (h.inflight hm).elim (fun hm => h.owns (hk.inflight id t hm)) (fun ho => ho)
  duty id t hd := (h.duty_token hd).elim (fun hd => h.owns (hk.duty id t hd)) (fun ho => ho)
  folders _ hf := h.owns ((h.folder hf).owns hk)
  walks _ hf := ((h.folder hf).walks hk.walks).step h
  drained := h.drained hk
  returned := h.returned hk
  full := h.fullFolds hk.walks hk.full

theorem kept_of_reach {ok : Server δ → ServerAction → Prop}
    (h : Reach (step diagnose version) initial ok s) : Kept s :=
  h.inv kept_initial fun _ _ _ _ hk _ hst => (step_cases hst).kept hk

end Server

end LSP

end Nslc
