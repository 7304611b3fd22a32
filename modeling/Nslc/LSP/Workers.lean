import Mathlib
import Nslc.LSP.Documents
/-!
# LSP — what every interleaving keeps

Units belong to the URI they were made for; a worker's home and the unit
it has looked up belong to its URI; a unit holds what some worker has
stored in it, and has noted the version of every worker at home in it;
and workers come from notifications that were received.
-/

namespace Nslc

namespace LSP

/-! ## Notifications and positions of the dispatch thread -/

namespace Notification

variable {υ : Type}

/-- The URI, version and text of an update. -/
def update? : Notification υ → Option (υ × ℤ × Text)
  | .didOpen u v x | .didChange u v x => some (u, v, x)
  | .didClose _ => none

/-- An update of `u` to the text `x`, its version narrowed to `v`. -/
def Updates (n : Notification υ) (u : υ) (v : ℤ) (x : Text) : Prop :=
  ∃ v', toInt v' = v ∧ n.update? = some (u, v', x)

end Notification

namespace Pc

variable {υ : Type}

/-- The unit the dispatch thread is about to read, with its URI. -/
def reads? : Pc υ → Option (υ × ℕ)
  | .staleRead t u _ _ | .closeRead t u => some (u, t)
  | _ => none

/-- The unit the update at hand has been noted in, its URI and version. -/
def noted? : Pc υ → Option (ℕ × υ × ℤ)
  | .scheduling h u v _ | .enqueueing h u v _ => some (h, u, v)
  | _ => none

/-- The handler at hand is the one of `n`. -/
def Serves : Pc υ → Notification υ → Prop
  | .idle, _ => False
  | .staleLookup u v x, n | .staleRead _ u v x, n => n = .didChange u v x
  | .opening u v x, n | .updating u v x, n | .scheduling _ u v x, n | .enqueueing _ u v x, n =>
    n.Updates u v x
  | .closeLookup u, n | .closeRead _ u, n | .closePublish u _, n | .closeErase u, n =>
    n = .didClose u

end Pc

namespace Documents

open Interleave

variable {υ δ : Type} [DecidableEq υ] {diagnose : Text → δ} {s s' : Documents υ δ} {a : Action υ}
  {u u' : υ} {t : ℕ}

/-! ## Units -/

/-- Unit `t` was made for the URI `u`. -/
def Owned (s : Documents υ δ) (u : υ) (t : ℕ) : Prop := t < s.fresh ∧ (s.heap t).uri = u

theorem heap_ensure (ht : t < s.fresh) : (s.ensure u).heap t = s.heap t := by
  unfold ensure
  split
  · rfl
  · exact Function.update_of_ne (Nat.ne_of_lt ht) _ _

theorem fresh_le_ensure : s.fresh ≤ (s.ensure u).fresh := by
  unfold ensure
  split
  · exact Nat.le_refl _
  · exact Nat.le_succ _

theorem tus_ensure (h : s.tus u = some t) (u' : υ) : (s.ensure u').tus u = some t := by
  unfold ensure
  split
  · exact h
  · rename_i hnone
    have hne : u ≠ u' := by
      rintro rfl
      rw [h] at hnone
      cases hnone
    exact (Function.update_of_ne hne _ _).trans h

theorem Owned.ensure (h : s.Owned u t) (u' : υ) : (s.ensure u').Owned u t :=
  ⟨Nat.lt_of_lt_of_le h.1 fresh_le_ensure, by rw [heap_ensure h.1, h.2]⟩

theorem owned_of_tus_ensure (htus : ∀ u t, s.tus u = some t → s.Owned u t)
    (h : (s.ensure u').tus u = some t) : (s.ensure u').Owned u t := by
  cases hu' : s.tus u' with
  | some t' =>
    rw [ensure_of_some s u' hu'] at h ⊢
    exact htus u t h
  | none =>
    simp only [ensure, hu'] at h
    by_cases hne : u = u'
    · obtain rfl := hne
      rw [Function.update_self] at h
      obtain rfl := Option.some.inj h
      simp [Owned, ensure, hu', NslTU.make]
    · rw [Function.update_of_ne hne] at h
      exact (htus u t h).ensure u'

omit [DecidableEq υ] in
theorem owned_setUnit_iff {t' : ℕ} {tu : NslTU υ δ} (huri : tu.uri = (s.heap t').uri) :
    (s.setUnit t' tu).Owned u t ↔ s.Owned u t := by
  refine and_congr_right fun _ => ?_
  unfold Documents.setUnit
  by_cases hne : t = t'
  · obtain rfl := hne
    simp [huri]
  · simp [Function.update_of_ne hne]

omit [DecidableEq υ] in
theorem Owned.setUnit (h : s.Owned u t) {t' : ℕ} {tu : NslTU υ δ}
    (huri : tu.uri = (s.heap t').uri) : (s.setUnit t' tu).Owned u t :=
  (owned_setUnit_iff huri).2 h

/-- A unit stays the unit of its URI. -/
theorem StepCase.owned (h : StepCase diagnose s a s') (ho : s.Owned u t) : s'.Owned u t := by
  cases h with
  | opened => exact ho.ensure _
  | noted => exact (ho.ensure _).setUnit rfl
  | scheduled => exact ho.ensure _
  | stored => exact ho.setUnit rfl
  | _ => exact ho

/-! ## The invariant -/

/-- A worker's result is what unit `t` holds. -/
def HoldsResult (diagnose : Text → δ) (tu : NslTU υ δ) (w : Worker υ) : Prop :=
  tu.version = w.version ∧ tu.contents = w.contents ∧ tu.result = some (diagnose w.contents)

/-- Unit `t` is as it was made, or holds the result of a worker that has
stored it there. -/
def Stored (diagnose : Text → δ) (s : Documents υ δ) (t : ℕ) : Prop :=
  ((s.heap t).version = -1 ∧ ∀ w ∈ s.pool, w.phase.stored? ≠ some t) ∨
    ∃ w ∈ s.pool, w.phase.stored? = some t ∧ HoldsResult diagnose (s.heap t) w

structure WF (diagnose : Text → δ) (s : Documents υ δ) : Prop where
  tus : ∀ u t, s.tus u = some t → s.Owned u t
  reads : ∀ u t, s.pc.reads? = some (u, t) → s.Owned u t
  home : ∀ w ∈ s.pool, s.Owned w.uri w.home
  held : ∀ w ∈ s.pool, ∀ t, w.phase.tu? = some t → s.Owned w.uri t
  noting : ∀ h u v, s.pc.noted? = some (h, u, v) →
    s.tus u = some h ∧ v ≤ (s.heap h).latestReceived
  noted : ∀ w ∈ s.pool, w.version ≤ (s.heap w.home).latestReceived
  stored : ∀ t < s.fresh, s.Stored diagnose t

omit [DecidableEq υ] in
theorem wf_initial [Inhabited υ] : WF diagnose (initial : Documents υ δ) where
  tus _ _ h := by cases h
  reads _ _ h := by cases h
  home _ h := by cases h
  held _ h := by cases h
  noting _ _ _ h := by cases h
  noted _ h := by cases h
  stored _ h := absurd h (Nat.not_lt_zero _)

/-- The last version received does not go back. -/
theorem StepCase.latestReceived_le (h : StepCase diagnose s a s') (ht : t < s.fresh) :
    (s.heap t).latestReceived ≤ (s'.heap t).latestReceived := by
  cases h with
  | opened => exact (congrArg NslTU.latestReceived (heap_ensure ht)).ge
  | scheduled => exact (congrArg NslTU.latestReceived (heap_ensure ht)).ge
  | @noted u v x t' _ _ =>
    show _ ≤ (Function.update (s.ensure u).heap t' _ t).latestReceived
    by_cases hne : t = t'
    · obtain rfl := hne
      rw [Function.update_self, heap_ensure ht]
      exact le_max_left _ _
    · rw [Function.update_of_ne hne, heap_ensure ht]
  | @stored i w t' _ _ =>
    show _ ≤ (Function.update s.heap t' _ t).latestReceived
    by_cases hne : t = t'
    · obtain rfl := hne
      rw [Function.update_self]
      exact le_refl _
    · rw [Function.update_of_ne hne]
  | _ => exact le_refl _

/-- The action takes worker `w` to phase `p`. -/
inductive Advance (s : Documents υ δ) : Action υ → Worker υ → Phase → Prop
  | gone {i : ℕ} {w : Worker υ} : s.pool[i]? = some w → w.phase = .queued → s.tus w.uri = none →
      Advance s (.lookup i) w .gone
  | found {i : ℕ} {w : Worker υ} {t : ℕ} : s.pool[i]? = some w → w.phase = .queued →
      s.tus w.uri = some t → Advance s (.lookup i) w (.found t)
  | stored {i : ℕ} {w : Worker υ} {t : ℕ} : s.pool[i]? = some w → w.phase = .found t →
      Advance s (.reparse i) w (.reparsed t)
  | dropped {i : ℕ} {w : Worker υ} {t : ℕ} : s.pool[i]? = some w → w.phase = .reparsed t →
      w.version < (s.heap t).latestReceived → Advance s (.check i) w (.done t)
  | passed {i : ℕ} {w : Worker υ} {t : ℕ} : s.pool[i]? = some w → w.phase = .reparsed t →
      ¬ w.version < (s.heap t).latestReceived → Advance s (.check i) w (.checked t)
  | published {i : ℕ} {w : Worker υ} {t : ℕ} : s.pool[i]? = some w → w.phase = .checked t →
      Advance s (.publish i) w (.done t)

omit [DecidableEq υ] in
theorem Advance.mem {w : Worker υ} {p : Phase} (h : Advance s a w p) : w ∈ s.pool := by
  cases h <;> exact List.mem_of_getElem? (by assumption)

/-- Workers behind a step: those before it, one of them a phase further,
and perhaps a new one. -/
theorem StepCase.mem_pool (h : StepCase diagnose s a s') {w : Worker υ} (hw : w ∈ s'.pool) :
    w ∈ s.pool ∨ (∃ w₀ p, Advance s a w₀ p ∧ w = { w₀ with phase := p }) ∨
      (∃ home u v x, s.pc = .enqueueing home u v x ∧ s'.pc = .idle ∧
        w = ⟨u, v, x, home, .queued⟩) := by
  have hset : ∀ {i : ℕ} {w₀ : Worker υ} {p : Phase}, Advance s a w₀ p →
      w ∈ s.pool.set i { w₀ with phase := p } →
      w ∈ s.pool ∨ (∃ w₀ p, Advance s a w₀ p ∧ w = { w₀ with phase := p }) ∨
      (∃ home u v x, s.pc = .enqueueing home u v x ∧ s'.pc = .idle ∧
        w = ⟨u, v, x, home, .queued⟩) := by
    intro i w₀ p hadv hmem
    rcases List.mem_or_eq_of_mem_set hmem with hmem | rfl
    · exact .inl hmem
    · exact .inr (.inl ⟨w₀, p, hadv, rfl⟩)
  cases h with
  | opened => exact .inl (by simpa using hw)
  | noted => exact .inl (by simpa [setUnit] using hw)
  | scheduled => exact .inl (by simpa using hw)
  | @enqueued u v x home hpc =>
    rcases List.mem_append.1 hw with hw | hw
    · exact .inl hw
    · exact .inr (.inr ⟨home, u, v, x, hpc, rfl, List.mem_singleton.1 hw⟩)
  | gone h₀ hp htus => exact hset (.gone h₀ hp htus) hw
  | found h₀ hp htus => exact hset (.found h₀ hp htus) hw
  | stored h₀ hp => exact hset (.stored h₀ hp) hw
  | dropped h₀ hp hlt => exact hset (.dropped h₀ hp hlt) hw
  | passed h₀ hp hlt => exact hset (.passed h₀ hp hlt) hw
  | published h₀ hp => exact hset (.published h₀ hp) hw
  | _ => exact .inl hw

/-- What a worker has looked up and stored in a phase, it has in a later
one. -/
structure Kept (p q : Phase) : Prop where
  tu : ∀ t, p.tu? = some t → q.tu? = some t
  stored : ∀ t, p.stored? = some t → q.stored? = some t

theorem kept_rfl (p : Phase) : Kept p p := ⟨fun _ h => h, fun _ h => h⟩

theorem kept_queued (q : Phase) : Kept .queued q := by
  constructor <;> intro t h <;> cases h

theorem kept_found (t : ℕ) : Kept (.found t) (.reparsed t) := by
  refine ⟨fun _ h => h, fun t h => ?_⟩
  cases h

/-- Worker `i` stays worker `i`, perhaps a phase further. -/
theorem StepCase.getElem?_pool (h : StepCase diagnose s a s') {i : ℕ} {w : Worker υ}
    (hw : s.pool[i]? = some w) :
    ∃ p, s'.pool[i]? = some { w with phase := p } ∧ Kept w.phase p := by
  have hset : ∀ {j : ℕ} {w₀ : Worker υ} {q : Phase}, s.pool[j]? = some w₀ → Kept w₀.phase q →
      ∃ p, (s.pool.set j { w₀ with phase := q })[i]? = some { w with phase := p } ∧
        Kept w.phase p := by
    intro j w₀ q hw₀ hq
    by_cases hij : j = i
    · obtain rfl := hij
      obtain rfl : w₀ = w := Option.some.inj (hw₀.symm.trans hw)
      exact ⟨q, by rw [List.getElem?_set_self (List.getElem?_eq_some_iff.1 hw).1], hq⟩
    · exact ⟨w.phase, by rw [List.getElem?_set_ne hij, hw], kept_rfl _⟩
  have hsame : ∃ p, s.pool[i]? = some { w with phase := p } ∧ Kept w.phase p :=
    ⟨w.phase, hw, kept_rfl _⟩
  cases h with
  | opened => simpa using hsame
  | noted => simpa [setUnit] using hsame
  | scheduled => simpa using hsame
  | enqueued =>
    refine ⟨w.phase, ?_, kept_rfl _⟩
    exact (List.getElem?_append_left (List.getElem?_eq_some_iff.1 hw).1).trans hw
  | gone hw₀ hp => exact hset hw₀ (hp ▸ kept_queued _)
  | found hw₀ hp => exact hset hw₀ (hp ▸ kept_queued _)
  | stored hw₀ hp => exact hset hw₀ (hp ▸ kept_found _)
  | dropped hw₀ hp => exact hset hw₀ (hp ▸ ⟨fun _ h => h, fun _ h => h⟩)
  | passed hw₀ hp => exact hset hw₀ (hp ▸ ⟨fun _ h => h, fun _ h => h⟩)
  | published hw₀ hp => exact hset hw₀ (hp ▸ ⟨fun _ h => h, fun _ h => h⟩)
  | _ => exact hsame

/-- A unit's result changes only where a worker stores one. -/
theorem StepCase.heap_eq (h : StepCase diagnose s a s') (ht : t < s.fresh) :
    ((s'.heap t).version = (s.heap t).version ∧ (s'.heap t).contents = (s.heap t).contents ∧
        (s'.heap t).result = (s.heap t).result) ∨
      ∃ i w, a = .reparse i ∧ s.pool[i]? = some w ∧ w.phase = .found t ∧
        s'.pool[i]? = some { w with phase := .reparsed t } ∧
        HoldsResult diagnose (s'.heap t) w := by
  have hsame : ∀ {tu : NslTU υ δ}, tu = s.heap t → tu.version = (s.heap t).version ∧
      tu.contents = (s.heap t).contents ∧ tu.result = (s.heap t).result := by
    rintro tu rfl
    exact ⟨rfl, rfl, rfl⟩
  cases h with
  | opened => exact .inl (hsame (heap_ensure ht))
  | scheduled => exact .inl (hsame (heap_ensure ht))
  | @noted u v x t' _ _ =>
    left
    show (Function.update (s.ensure u).heap t' _ t).version = _ ∧
      (Function.update (s.ensure u).heap t' _ t).contents = _ ∧
      (Function.update (s.ensure u).heap t' _ t).result = _
    by_cases hne : t = t'
    · obtain rfl := hne
      rw [Function.update_self, heap_ensure ht]
      exact ⟨rfl, rfl, rfl⟩
    · rw [Function.update_of_ne hne]
      exact hsame (heap_ensure ht)
  | @stored i w t' hw hp =>
    by_cases hne : t = t'
    · obtain rfl := hne
      refine .inr ⟨i, w, rfl, hw, hp, ?_, ?_⟩
      · exact List.getElem?_set_self (List.getElem?_eq_some_iff.1 hw).1
      · show HoldsResult diagnose (Function.update s.heap t _ t) w
        rw [Function.update_self]
        exact ⟨rfl, rfl, rfl⟩
    · exact .inl (hsame (Function.update_of_ne hne _ _))
  | _ => exact .inl (hsame rfl)

/-- A worker that has stored its result did so before, or just now. -/
theorem StepCase.stored_of_mem (h : StepCase diagnose s a s') {w : Worker υ} (hw : w ∈ s'.pool)
    (ht : w.phase.stored? = some t) :
    (∃ w₀ ∈ s.pool, w₀.phase.stored? = some t ∧ ∃ p, w = { w₀ with phase := p }) ∨
      ∃ i, ∃ w₀, a = .reparse i ∧ s.pool[i]? = some w₀ ∧ w₀.phase = .found t ∧
        w = { w₀ with phase := .reparsed t } ∧ HoldsResult diagnose (s'.heap t) w₀ := by
  rcases h.mem_pool hw with hw | ⟨w₀, p, hadv, rfl⟩ | ⟨m, u, v, x, -, -, rfl⟩
  · exact .inl ⟨w, hw, ht, w.phase, rfl⟩
  · cases hadv with
    | gone => cases ht
    | found => cases ht
    | @stored i _ t' h₀ hp =>
      obtain rfl : t' = t := Option.some.inj ht
      refine .inr ⟨i, w₀, rfl, h₀, hp, rfl, ?_⟩
      cases h with
      | @stored _ w₁ t₁ h₁ hp₁ =>
        obtain rfl : w₀ = w₁ := Option.some.inj (h₀.symm.trans h₁)
        obtain rfl : t' = t₁ := by simpa [hp] using hp₁
        show HoldsResult diagnose (Function.update s.heap t' _ t') w₀
        rw [Function.update_self]
        exact ⟨rfl, rfl, rfl⟩
    | dropped h₀ hp => exact .inl ⟨w₀, List.mem_of_getElem? h₀, hp ▸ ht, _, rfl⟩
    | passed h₀ hp => exact .inl ⟨w₀, List.mem_of_getElem? h₀, hp ▸ ht, _, rfl⟩
    | published h₀ hp => exact .inl ⟨w₀, List.mem_of_getElem? h₀, hp ▸ ht, _, rfl⟩
  · cases ht

theorem StepCase.stored_of_lt (h : StepCase diagnose s a s') (ht : t < s.fresh)
    (hst : s.Stored diagnose t) : s'.Stored diagnose t := by
  rcases h.heap_eq ht with ⟨hv, hc, hr⟩ | ⟨i, w, -, -, -, hnew, hres⟩
  · rcases hst with ⟨hver, hnone⟩ | ⟨w, hw, hsto, hold⟩
    · by_cases hex : ∃ w ∈ s'.pool, w.phase.stored? = some t
      · obtain ⟨w, hw, hw'⟩ := hex
        rcases h.stored_of_mem hw hw' with ⟨w₀, hw₀, hs, -⟩ | ⟨i, w₀, -, -, -, rfl, hres⟩
        · exact absurd hs (hnone w₀ hw₀)
        · exact .inr ⟨_, hw, rfl, hres⟩
      · exact .inl ⟨hv.trans hver, fun w hw hw' => hex ⟨w, hw, hw'⟩⟩
    · obtain ⟨i, hi⟩ := List.getElem?_of_mem hw
      obtain ⟨p, hp, hkept⟩ := h.getElem?_pool hi
      refine .inr ⟨_, List.mem_of_getElem? hp, hkept.stored t hsto, ?_⟩
      exact ⟨hv.trans hold.1, hc.trans hold.2.1, hr.trans hold.2.2⟩
  · exact .inr ⟨_, List.mem_of_getElem? hnew, rfl, hres⟩

/-- A unit just made holds nothing. -/
theorem stored_ensure (hst : ∀ t < s.fresh, s.Stored diagnose t)
    (hheld : ∀ w ∈ s.pool, ∀ t, w.phase.tu? = some t → t < s.fresh) :
    ∀ t < (s.ensure u).fresh, (s.ensure u).Stored diagnose t := by
  intro t ht
  by_cases hlt : t < s.fresh
  · unfold Stored
    rw [heap_ensure hlt, ensure_pool]
    exact hst t hlt
  · cases hu : s.tus u with
    | some t' =>
      rw [ensure_of_some s u hu] at ht
      exact absurd ht hlt
    | none =>
      have heq : t = s.fresh := by
        have : t < s.fresh + 1 := by simpa [ensure, hu] using ht
        omega
      subst heq
      refine .inl ⟨by simp [ensure, hu, NslTU.make], fun w hw hw' => ?_⟩
      rw [ensure_pool] at hw
      exact absurd (hheld w hw _ (Phase.tu?_of_stored? hw')) (Nat.lt_irrefl _)

omit [DecidableEq υ] in
/-- Noting a version touches no result. -/
theorem Stored.noteReceived {t' : ℕ} {v : ℤ} {pc : Pc υ} (h : s.Stored diagnose t) :
    Stored diagnose { s.setUnit t' ((s.heap t').noteReceived v) with pc := pc } t := by
  have heap : ∀ w, HoldsResult diagnose (s.heap t) w →
      HoldsResult diagnose (Function.update s.heap t' ((s.heap t').noteReceived v) t) w := by
    intro w hw
    by_cases hne : t = t'
    · obtain rfl := hne
      rw [Function.update_self]
      exact hw
    · rwa [Function.update_of_ne hne]
  rcases h with ⟨hv, hr⟩ | ⟨w, hw, hs, hres⟩
  · refine .inl ⟨?_, hr⟩
    show (Function.update s.heap t' _ t).version = -1
    by_cases hne : t = t'
    · obtain rfl := hne
      rw [Function.update_self]
      exact hv
    · rwa [Function.update_of_ne hne]
  · exact .inr ⟨w, hw, hs, heap w hres⟩

theorem StepCase.tus_owned (h : StepCase diagnose s a s') (hwf : s.WF diagnose) :
    ∀ u t, s'.tus u = some t → s'.Owned u t := by
  intro u t htus
  cases h with
  | opened => exact owned_of_tus_ensure hwf.tus htus
  | noted => exact (owned_of_tus_ensure hwf.tus htus).setUnit rfl
  | scheduled => exact owned_of_tus_ensure hwf.tus htus
  | @erased u' _ =>
    by_cases hne : u = u'
    · obtain rfl := hne
      simp at htus
    · exact hwf.tus u t (by simpa [Function.update_of_ne hne] using htus)
  | stored => exact (hwf.tus u t htus).setUnit rfl
  | _ => exact hwf.tus u t htus

theorem StepCase.reads_owned (h : StepCase diagnose s a s') (hwf : s.WF diagnose) :
    ∀ u t, s'.pc.reads? = some (u, t) → s'.Owned u t := by
  intro u t hr
  cases h with
  | receive n => cases n <;> cases hr
  | stalePresent _ htus =>
    simp only [Pc.reads?, Option.some.injEq, Prod.mk.injEq] at hr
    obtain ⟨rfl, rfl⟩ := hr
    exact hwf.tus _ _ htus
  | closePresent _ htus =>
    simp only [Pc.reads?, Option.some.injEq, Prod.mk.injEq] at hr
    obtain ⟨rfl, rfl⟩ := hr
    exact hwf.tus _ _ htus
  | stored => exact (hwf.reads u t hr).setUnit rfl
  | gone => exact hwf.reads u t hr
  | found => exact hwf.reads u t hr
  | dropped => exact hwf.reads u t hr
  | passed => exact hwf.reads u t hr
  | published => exact hwf.reads u t hr
  | _ => cases hr

theorem StepCase.noting (h : StepCase diagnose s a s') (hwf : s.WF diagnose) :
    ∀ m u v, s'.pc.noted? = some (m, u, v) →
      s'.tus u = some m ∧ v ≤ (s'.heap m).latestReceived := by
  intro m u v hn
  have hold : ∀ hpc : s'.pc = s.pc, s'.tus = s.tus → s'.tus u = some m ∧
      v ≤ (s'.heap m).latestReceived := by
    intro hpc htus
    rw [hpc] at hn
    obtain ⟨h1, h2⟩ := hwf.noting m u v hn
    exact ⟨htus ▸ h1, h2.trans (h.latestReceived_le (hwf.tus u m h1).1)⟩
  cases h with
  | receive n => cases n <;> cases hn
  | @noted u' v' x t' hpc htus =>
    simp only [Pc.noted?, Option.some.injEq, Prod.mk.injEq] at hn
    obtain ⟨rfl, rfl, rfl⟩ := hn
    refine ⟨htus, ?_⟩
    simp [setUnit, NslTU.noteReceived]
  | @scheduled u' v' x h' hpc =>
    simp only [Pc.noted?, Option.some.injEq, Prod.mk.injEq] at hn
    obtain ⟨rfl, rfl, rfl⟩ := hn
    obtain ⟨h1, h2⟩ := hwf.noting _ _ _ (by rw [hpc]; rfl)
    refine ⟨tus_ensure h1 _, ?_⟩
    show _ ≤ ((s.ensure _).heap _).latestReceived
    rw [heap_ensure (hwf.tus _ _ h1).1]
    exact h2
  | gone => exact hold rfl rfl
  | found => exact hold rfl rfl
  | stored => exact hold rfl rfl
  | dropped => exact hold rfl rfl
  | passed => exact hold rfl rfl
  | published => exact hold rfl rfl
  | _ => cases hn

/-- A worker that has looked up a unit did so before, or just found it
in the table. -/
theorem StepCase.held (h : StepCase diagnose s a s') {w : Worker υ} (hw : w ∈ s'.pool)
    (ht : w.phase.tu? = some t) :
    (∃ w₀ ∈ s.pool, w₀.phase.tu? = some t ∧ ∃ p, w = { w₀ with phase := p }) ∨
      ∃ i, ∃ w₀, a = .lookup i ∧ s.pool[i]? = some w₀ ∧ s.tus w₀.uri = some t ∧
        w = { w₀ with phase := .found t } := by
  rcases h.mem_pool hw with hw | ⟨w₀, p, hadv, rfl⟩ | ⟨m, u, v, x, -, -, rfl⟩
  · exact .inl ⟨w, hw, ht, w.phase, rfl⟩
  · cases hadv with
    | gone => cases ht
    | @found i _ t' h₀ hp htus =>
      obtain rfl : t' = t := Option.some.inj ht
      exact .inr ⟨i, w₀, rfl, h₀, htus, rfl⟩
    | stored h₀ hp => exact .inl ⟨w₀, List.mem_of_getElem? h₀, hp ▸ ht, _, rfl⟩
    | dropped h₀ hp => exact .inl ⟨w₀, List.mem_of_getElem? h₀, hp ▸ ht, _, rfl⟩
    | passed h₀ hp => exact .inl ⟨w₀, List.mem_of_getElem? h₀, hp ▸ ht, _, rfl⟩
    | published h₀ hp => exact .inl ⟨w₀, List.mem_of_getElem? h₀, hp ▸ ht, _, rfl⟩
  · cases ht

theorem StepCase.wf (h : StepCase diagnose s a s') (hwf : s.WF diagnose) : s'.WF diagnose where
  tus := h.tus_owned hwf
  reads := h.reads_owned hwf
  home := by
    intro w hw
    rcases h.mem_pool hw with hw | ⟨w₀, p, hadv, rfl⟩ | ⟨m, u, v, x, hpc, -, rfl⟩
    · exact h.owned (hwf.home w hw)
    · exact h.owned (hwf.home w₀ hadv.mem)
    · exact h.owned (hwf.tus u m (hwf.noting m u v (by rw [hpc]; rfl)).1)
  held := by
    intro w hw t ht
    rcases h.held hw ht with ⟨w₀, hw₀, ht₀, p, rfl⟩ | ⟨i, w₀, -, -, htus, rfl⟩
    · exact h.owned (hwf.held w₀ hw₀ t ht₀)
    · exact h.owned (hwf.tus _ t htus)
  noting := h.noting hwf
  noted := by
    intro w hw
    rcases h.mem_pool hw with hw | ⟨w₀, p, hadv, rfl⟩ | ⟨m, u, v, x, hpc, -, rfl⟩
    · exact (hwf.noted w hw).trans (h.latestReceived_le (hwf.home w hw).1)
    · exact (hwf.noted w₀ hadv.mem).trans (h.latestReceived_le (hwf.home w₀ hadv.mem).1)
    · obtain ⟨h1, h2⟩ := hwf.noting m u v (by rw [hpc]; rfl)
      exact h2.trans (h.latestReceived_le (hwf.tus u m h1).1)
  stored := by
    have hlt : ∀ t < s.fresh, s'.Stored diagnose t := fun t ht => h.stored_of_lt ht (hwf.stored t ht)
    have hheld : ∀ w ∈ s.pool, ∀ t, w.phase.tu? = some t → t < s.fresh :=
      fun w hw t ht => (hwf.held w hw t ht).1
    cases h with
    | opened => exact stored_ensure hwf.stored hheld
    | noted => exact fun t ht => (stored_ensure hwf.stored hheld t ht).noteReceived
    | scheduled => exact stored_ensure hwf.stored hheld
    | _ => exact hlt

theorem wf_of_reach [Inhabited υ] {ok : Documents υ δ → Action υ → Prop}
    (h : Reach (step diagnose) initial ok s) : s.WF diagnose :=
  h.inv wf_initial fun _ _ _ _ hwf _ hst => (step_cases hst).wf hwf

/-! ## Where workers come from -/

/-- The notifications received, in order. -/
def received (s : Documents υ δ) : List (Notification υ) :=
  s.log.filterMap fun
    | .received n => some n
    | .published _ => none

/-- The notifications whose handlers have returned. -/
def served (s : Documents υ δ) : List (Notification υ) :=
  if s.pc = .idle then s.received else s.received.dropLast

theorem mem_received_of_mem_served {n : Notification υ} (h : n ∈ s.served) : n ∈ s.received := by
  unfold served at h
  split_ifs at h
  · exact h
  · exact List.mem_of_mem_dropLast h

/-- The handler at hand is that of the last notification, and workers
come from the ones before it. -/
structure Sourced (s : Documents υ δ) : Prop where
  serving : s.pc ≠ .idle → ∃ n, s.received.getLast? = some n ∧ s.pc.Serves n
  workers : ∀ w ∈ s.pool, ∃ n ∈ s.served, n.Updates w.uri w.version w.contents

omit [DecidableEq υ] in
theorem start_ne_idle (n : Notification υ) : start n ≠ .idle := by
  cases n <;> simp [start]

theorem StepCase.received_eq (h : StepCase diagnose s a s') :
    s'.received = s.received ∨ ∃ n, a = .receive n ∧ s.pc = .idle ∧
      s'.received = s.received ++ [n] ∧ s'.pc = start n := by
  cases h with
  | receive n hpc => exact .inr ⟨n, rfl, hpc, by simp [received], rfl⟩
  | opened => exact .inl (by simp [received])
  | noted => exact .inl (by simp [received, setUnit])
  | scheduled => exact .inl (by simp [received])
  | closePublished => exact .inl (by simp [received])
  | published => exact .inl (by simp [received])
  | _ => exact .inl rfl

theorem StepCase.served_subset (h : StepCase diagnose s a s') {n : Notification υ}
    (hn : n ∈ s.served) : n ∈ s'.served := by
  rcases h.received_eq with heq | ⟨m, -, hidle, heq, hpc⟩
  · unfold served at hn ⊢
    rw [heq]
    by_cases h1 : s'.pc = .idle
    · rw [if_pos h1]
      split_ifs at hn
      · exact hn
      · exact List.mem_of_mem_dropLast hn
    · rw [if_neg h1]
      split_ifs at hn with h0
      · -- only a notification takes the dispatch thread out of idleness
        cases h with
        | receive m => simp [received] at heq
        | gone => exact absurd h0 h1
        | found => exact absurd h0 h1
        | stored => exact absurd h0 h1
        | dropped => exact absurd h0 h1
        | passed => exact absurd h0 h1
        | published => exact absurd h0 h1
        | _ => simp_all
      · exact hn
  · unfold served at hn ⊢
    rw [if_pos hidle] at hn
    rw [if_neg (hpc ▸ start_ne_idle m), heq, List.dropLast_concat]
    exact hn

/-- A handler that returns serves the last notification. -/
theorem StepCase.mem_served (h : StepCase diagnose s a s') {n : Notification υ}
    (hn : n ∈ s'.served) :
    n ∈ s.served ∨ s.pc ≠ .idle ∧ s'.pc = .idle ∧ s.received.getLast? = some n := by
  rcases h.received_eq with heq | ⟨m, -, hidle, heq, hpc⟩
  · by_cases h0 : s.pc = .idle
    · left
      have hmem := mem_received_of_mem_served hn
      rw [heq] at hmem
      rwa [served, if_pos h0]
    · by_cases h1 : s'.pc = .idle
      · rw [served, if_pos h1, heq] at hn
        have hne : s.received ≠ [] := List.ne_nil_of_mem hn
        rw [← List.dropLast_append_getLast hne] at hn
        rcases List.mem_append.1 hn with hn | hn
        · exact .inl (by rwa [served, if_neg h0])
        · refine .inr ⟨h0, h1, ?_⟩
          rw [List.mem_singleton.1 hn, List.getLast?_eq_some_getLast hne]
      · left
        rw [served, if_neg h1, heq] at hn
        rwa [served, if_neg h0]
  · left
    rw [served, if_neg (hpc ▸ start_ne_idle m), heq, List.dropLast_concat] at hn
    rwa [served, if_pos hidle]

omit [DecidableEq υ] in
theorem serves_start (n : Notification υ) : (start n).Serves n := by
  cases n with
  | didOpen u v x => exact ⟨v, rfl, rfl⟩
  | didChange u v x => rfl
  | didClose u => rfl

theorem StepCase.sourced (h : StepCase diagnose s a s') (hs : s.Sourced) : s'.Sourced := by
  refine ⟨fun hne => ?_, fun w hw => ?_⟩
  · rcases h.received_eq with heq | ⟨n, -, hidle, heq, hpc⟩
    · rw [heq]
      have hkeep : ∀ hpc : s'.pc = s.pc, ∃ n, s.received.getLast? = some n ∧ s'.pc.Serves n := by
        intro hpc
        rw [hpc] at hne ⊢
        exact hs.serving hne
      have hmove : ∀ {pc pc' : Pc υ}, s.pc = pc → s'.pc = pc' → pc ≠ .idle →
          (∀ n, pc.Serves n → pc'.Serves n) →
          ∃ n, s.received.getLast? = some n ∧ s'.pc.Serves n := by
        rintro pc pc' rfl rfl hpc himp
        obtain ⟨n, hn, hserves⟩ := hs.serving hpc
        exact ⟨n, hn, himp n hserves⟩
      cases h with
      | receive n => simp [received] at heq
      | @staleAbsent u v x hpc =>
        exact hmove hpc rfl (by simp) fun n hn => ⟨v, rfl, by rw [hn]; rfl⟩
      | stalePresent hpc => exact hmove hpc rfl (by simp) fun n hn => hn
      | ignored => exact absurd rfl hne
      | @accepted u v x t hpc =>
        exact hmove hpc rfl (by simp) fun n hn => ⟨v, rfl, by rw [hn]; rfl⟩
      | opened hpc => exact hmove hpc rfl (by simp) fun n hn => hn
      | noted hpc => exact hmove hpc rfl (by simp) fun n hn => hn
      | scheduled hpc => exact hmove hpc rfl (by simp) fun n hn => hn
      | enqueued => exact absurd rfl hne
      | closeAbsent hpc => exact hmove hpc rfl (by simp) fun n hn => hn
      | closePresent hpc => exact hmove hpc rfl (by simp) fun n hn => hn
      | closeRead hpc => exact hmove hpc rfl (by simp) fun n hn => hn
      | closePublished hpc => exact hmove hpc rfl (by simp) fun n hn => hn
      | erased => exact absurd rfl hne
      | _ => exact hkeep rfl
    · exact ⟨n, by simp [heq], hpc ▸ serves_start n⟩
  · have hkeep : ∀ w ∈ s.pool, ∃ n ∈ s'.served, n.Updates w.uri w.version w.contents := by
      intro w hw
      obtain ⟨n, hn, hup⟩ := hs.workers w hw
      exact ⟨n, h.served_subset hn, hup⟩
    rcases h.mem_pool hw with hw | ⟨w₀, p, hadv, rfl⟩ | ⟨m, u, v, x, hpc, hidle, rfl⟩
    · exact hkeep w hw
    · exact hkeep w₀ hadv.mem
    · obtain ⟨n, hn, hserves⟩ := hs.serving (by rw [hpc]; simp)
      rw [hpc] at hserves
      refine ⟨n, ?_, hserves⟩
      have hmem : n ∈ s.received := List.mem_of_getLast? hn
      rcases h.received_eq with heq | ⟨n', -, hidle', -⟩
      · rwa [served, if_pos hidle, heq]
      · rw [hpc] at hidle'
        cases hidle'

theorem sourced_initial [Inhabited υ] : (initial : Documents υ δ).Sourced :=
  ⟨fun h => absurd rfl h, fun _ h => by cases h⟩

theorem sourced_of_reach [Inhabited υ] {ok : Documents υ δ → Action υ → Prop}
    (h : Reach (step diagnose) initial ok s) : s.Sourced :=
  h.inv sourced_initial fun _ _ _ _ hs _ hst => (step_cases hst).sourced hs

/-! ## A document that is not closed -/

/-- The table holds the only unit of `u`. -/
def Single (s : Documents υ δ) (u : υ) : Prop := ∀ t, s.Owned u t → s.tus u = some t

theorem Single.ensure (h : s.Single u) (u' : υ) : (s.ensure u').Single u := by
  intro t ht
  cases hu' : s.tus u' with
  | some t' =>
    rw [ensure_of_some s u' hu'] at ht ⊢
    exact h t ht
  | none =>
    by_cases hlt : t < s.fresh
    · exact tus_ensure (h t ⟨hlt, by rw [← heap_ensure hlt]; exact ht.2⟩) u'
    · have heq : t = s.fresh := by
        have : t < s.fresh + 1 := by simpa [Documents.ensure, hu'] using ht.1
        omega
      subst heq
      have huri : u' = u := by
        simpa [Documents.ensure, hu', NslTU.make] using ht.2
      obtain rfl := huri
      simp [Documents.ensure, hu']

/-- While no `didClose` of `u` is received, there is one unit of `u`. -/
theorem StepCase.single (h : StepCase diagnose s a s') (hsrc : s.Sourced)
    (hno : .didClose u ∉ s'.received) (hs : s.Single u) : s'.Single u := by
  intro t ht
  cases h with
  | opened => exact hs.ensure _ t ht
  | noted =>
    refine hs.ensure _ t ((owned_setUnit_iff ?_).1 ht)
    rfl
  | scheduled => exact hs.ensure _ t ht
  | @erased u' hpc =>
    have hne : u ≠ u' := by
      rintro rfl
      obtain ⟨n, hn, hserves⟩ := hsrc.serving (by rw [hpc]; simp)
      rw [hpc] at hserves
      obtain rfl : n = .didClose u := hserves
      exact hno (List.mem_of_getLast? hn)
    exact (Function.update_of_ne hne _ _).trans (hs t ht)
  | stored =>
    refine hs t ((owned_setUnit_iff ?_).1 ht)
    rfl
  | _ => exact hs t ht

omit [DecidableEq υ] in
theorem single_initial [Inhabited υ] (u : υ) : (initial : Documents υ δ).Single u :=
  fun _ h => absurd h.1 (Nat.not_lt_zero _)

omit [DecidableEq υ] in
/-- Units of an unclosed URI are one. -/
theorem Single.eq (h : s.Single u) {t t' : ℕ} (ht : s.Owned u t) (ht' : s.Owned u t') : t = t' :=
  Option.some.inj ((h t ht).symm.trans (h t' ht'))

end Documents

end LSP

end Nslc
