import Mathlib
import Nslc.LSP.Versions
/-!
# LSP — a document's state and its newest text

`didChange` compares its version with the one the document's state holds,
which lags behind what has been received, and `reparse` stores without
comparing at all. A document's state goes to its newest text where the
workers store in the order of their versions, and an outdated
`didChange` is ignored where a worker of at least its version has stored
before it is checked.
-/

namespace Nslc

namespace LSP

namespace Documents

open Interleave

variable {υ δ : Type} [DecidableEq υ] {diagnose : Text → δ} {s s' : Documents υ δ} {a : Action υ}
  {u : υ} {t : ℕ}

/-! ## The property -/

/-- An update of `u` to version `v` is not above every version received
before the notification at hand. -/
def Stale (u : υ) (v : ℤ) (s : Documents υ δ) : Prop :=
  ∃ n ∈ s.received.dropLast, ∃ v' x', n.update? = some (u, v', x') ∧ v ≤ v'

/-- The step does not go on with a stale `didChange` of `u`. -/
def IgnoresStale (u : υ) (s s' : Documents υ δ) : Prop :=
  ∀ v x, (s.pc = .staleLookup u v x ∨ ∃ t, s.pc = .staleRead t u v x) → Stale u v s →
    ∀ v' x', s'.pc ≠ .opening u v' x'

/-- The version a state of `u` holds does not decrease in the step. -/
def NeverBack (u : υ) (s s' : Documents υ δ) : Prop :=
  ∀ t, s.Owned u t → (s.heap t).version ≤ (s'.heap t).version

/-- No handler is at work and every worker of `u` has returned. -/
def Settled (u : υ) (s : Documents υ δ) : Prop :=
  s.pc = .idle ∧ ∀ w ∈ s.pool, w.uri = u → w.phase = .gone ∨ ∃ t, w.phase = .done t

/-- Once an update of `u` is received, the document's state holds the
greatest version received, with the contents sent with it. -/
def HoldsNewest (u : υ) (s : Documents υ δ) : Prop :=
  ∀ n ∈ s.received, ∀ v x, n.update? = some (u, v, x) →
    ∃ t, s.tus u = some t ∧ v ≤ (s.heap t).version ∧
      ∃ m ∈ s.received, m.update? = some (u, (s.heap t).version, (s.heap t).contents)

/-- Whatever step comes next keeps stale changes out and does not go
back, and a settled document holds its newest text. -/
def Converges (diagnose : Text → δ) (ok : Documents υ δ → Action υ → Prop) (u : υ)
    (s : Documents υ δ) : Prop :=
  (∀ a s', ok s a → step diagnose s a = some s' → IgnoresStale u s s' ∧ NeverBack u s s') ∧
    (Settled u s → HoldsNewest u s)

/-- Only `didOpen` and `didChange` of `u` are received. -/
def OnlyUpdates (u : υ) (_ : Documents υ δ) (a : Action υ) : Prop := a ≠ .receive (.didClose u)

/-- Versions of `u` are numbers an `int` holds, none negative; a stale
`didChange` is checked once a worker of at least its version has stored;
and no worker stores behind one of a greater version. -/
def InTurn (u : υ) (s : Documents υ δ) : Action υ → Prop
  | .receive n => ∀ v x, n.update? = some (u, v, x) → 0 ≤ v ∧ v < 2 ^ 31
  | .dispatch => ∀ t v x, s.pc = .staleRead t u v x → Stale u v s →
      ∃ w ∈ s.pool, w.uri = u ∧ (∃ t', w.phase.stored? = some t') ∧ v ≤ w.version
  | .reparse i => ∀ w, s.pool[i]? = some w → w.uri = u → ∀ w' ∈ s.pool, w'.uri = u →
      ∀ t', w'.phase.stored? = some t' → w'.version ≤ w.version
  | _ => True

/-! ## The invariant -/

structure Turns (u : υ) (s : Documents υ δ) : Prop extends Unclosed u s where
  nonneg : ∀ n ∈ s.received, ∀ v x, n.update? = some (u, v, x) → 0 ≤ v
  /-- The state holds the greatest version stored. -/
  top : ∀ w ∈ s.pool, w.uri = u → ∀ t, w.phase.stored? = some t → w.version ≤ (s.heap t).version
  /-- Served updates are at most as new as some worker. -/
  covered : ∀ n ∈ s.served, ∀ v x, n.update? = some (u, v, x) →
    ∃ w ∈ s.pool, w.uri = u ∧ v ≤ w.version
  present : ∀ w ∈ s.pool, w.uri = u → w.phase ≠ .gone

/-- A worker's version is a version received. -/
theorem Turns.nonneg_of_mem (ht : Turns u s) (hsrc : s.Sourced) {w : Worker υ} (hw : w ∈ s.pool)
    (hu : w.uri = u) : 0 ≤ w.version := by
  obtain ⟨n, hn, v', hv', hup⟩ := hsrc.workers w hw
  have hmem := mem_received_of_mem_served hn
  rw [hu] at hup
  rw [← hv', ht.fits n hmem v' _ hup]
  exact ht.nonneg n hmem v' _ hup

/-- Where there is a worker of `u`, the table holds its unit. -/
theorem Turns.tus_of_mem (ht : Turns u s) (hwf : s.WF diagnose) {w : Worker υ} (hw : w ∈ s.pool)
    (hu : w.uri = u) : s.tus u = some w.home :=
  ht.single _ (hu ▸ hwf.home w hw)

/-- The version held is not above that of a worker about to store. -/
theorem Turns.version_le (ht : Turns u s) (hsrc : s.Sourced) (hwf : s.WF diagnose)
    {w : Worker υ} (hw : w ∈ s.pool) (hu : w.uri = u) (hp : w.phase.tu? = some t)
    (hturn : ∀ w' ∈ s.pool, w'.uri = u → ∀ t', w'.phase.stored? = some t' →
      w'.version ≤ w.version) : (s.heap t).version ≤ w.version := by
  have hunit := hwf.held w hw t hp
  rcases hwf.stored t hunit.1 with ⟨hv, -⟩ | ⟨y, hy, hst, hv, -⟩
  · have := ht.nonneg_of_mem hsrc hw hu
    omega
  · rw [hv]
    refine hturn y hy ?_ t hst
    rw [← (hwf.held y hy t (Phase.tu?_of_stored? hst)).2, hunit.2, hu]

theorem StepCase.neverBack (h : StepCase diagnose s a s') (hsrc : s.Sourced)
    (hwf : s.WF diagnose) (hturn : InTurn u s a) (ht : Turns u s) : NeverBack u s s' := by
  intro t hown
  rcases h.heap_eq hown.1 with ⟨hv, -⟩ | ⟨i, w, rfl, hw, hp, -, hres⟩
  · rw [hv]
  · have hmem := List.mem_of_getElem? hw
    have htu : w.phase.tu? = some t := by
      rw [hp]
      rfl
    have hu : w.uri = u := by rw [← (hwf.held w hmem t htu).2, hown.2]
    rw [hres.1]
    exact ht.version_le hsrc hwf hmem hu htu fun w' hw' hu' t' hst' => hturn w hw hu w' hw' hu' t' hst'

/-- A stale `didChange` finds its document, and a version at least its
own there. -/
theorem Turns.ignoresStale (ht : Turns u s) (hsrc : s.Sourced) (hwf : s.WF diagnose)
    (hturn : InTurn u s a) (h : StepCase diagnose s a s') : IgnoresStale u s s' := by
  intro v x hpc hstale v' x' hpc'
  have hserved : s.served = s.received.dropLast := by
    rw [served, if_neg]
    rcases hpc with hpc | ⟨t, hpc⟩ <;> simp [hpc]
  cases h with
  | receive n hidle => rcases hpc with hpc | ⟨t, hpc⟩ <;> simp [hidle] at hpc
  | @staleAbsent u' v₀ x₀ hpc₀ htus =>
    obtain ⟨rfl, -, -⟩ := Pc.opening.inj hpc'
    obtain ⟨n, hn, w₀, y₀, hup, -⟩ := hstale
    obtain ⟨w, hw, hwu, -⟩ := ht.covered n (hserved ▸ hn) _ _ hup
    rw [ht.tus_of_mem hwf hw hwu] at htus
    cases htus
  | @accepted u' v₀ x₀ t hpc₀ hnot =>
    obtain ⟨rfl, -, -⟩ := Pc.opening.inj hpc'
    obtain ⟨t', hpc⟩ : ∃ t, s.pc = .staleRead t u' v x := by
      rcases hpc with hpc | hpc
      · rw [hpc₀] at hpc
        cases hpc
      · exact hpc
    obtain ⟨rfl, -, rfl, rfl⟩ := Pc.staleRead.inj (hpc₀.symm.trans hpc)
    obtain ⟨w, hw, hwu, ⟨t₁, hst⟩, hle⟩ := hturn _ _ _ hpc₀ hstale
    have hread : s.Owned u' t := hwf.reads u' t (by rw [hpc₀]; rfl)
    have hunit := ht.single.eq hread (hwu ▸ hwf.held w hw t₁ (Phase.tu?_of_stored? hst))
    have htop := ht.top w hw hwu t₁ hst
    have hpos := ht.nonneg_of_mem hsrc hw hwu
    rw [← hunit] at htop
    exact hnot ⟨hpos.trans htop, hle.trans htop⟩
  | opened => cases hpc'
  | noted => cases hpc'
  | scheduled => cases hpc'
  | gone => rcases hpc with hpc | ⟨t, hpc⟩ <;> exact absurd (hpc.symm.trans hpc') (by simp)
  | found => rcases hpc with hpc | ⟨t, hpc⟩ <;> exact absurd (hpc.symm.trans hpc') (by simp)
  | stored => rcases hpc with hpc | ⟨t, hpc⟩ <;> exact absurd (hpc.symm.trans hpc') (by simp)
  | dropped => rcases hpc with hpc | ⟨t, hpc⟩ <;> exact absurd (hpc.symm.trans hpc') (by simp)
  | passed => rcases hpc with hpc | ⟨t, hpc⟩ <;> exact absurd (hpc.symm.trans hpc') (by simp)
  | published => rcases hpc with hpc | ⟨t, hpc⟩ <;> exact absurd (hpc.symm.trans hpc') (by simp)
  | _ => cases hpc'

theorem StepCase.top (h : StepCase diagnose s a s') (hsrc : s.Sourced) (hwf : s.WF diagnose)
    (hturn : InTurn u s a) (ht : Turns u s) :
    ∀ w ∈ s'.pool, w.uri = u → ∀ t, w.phase.stored? = some t →
      w.version ≤ (s'.heap t).version := by
  intro w hw hu t hst
  rcases h.stored_of_mem hw hst with ⟨w₀, hw₀, hst₀, p, rfl⟩ | ⟨i, w₀, -, -, -, rfl, hres⟩
  · have hown : s.Owned u t := hu ▸ hwf.held w₀ hw₀ t (Phase.tu?_of_stored? hst₀)
    exact (ht.top w₀ hw₀ hu t hst₀).trans (h.neverBack hsrc hwf hturn ht t hown)
  · exact hres.1.ge

/-- A handler that returns leaves a worker behind, or has found one as
new as its update. -/
theorem Turns.covered_last (ht : Turns u s) (hsrc : s.Sourced) (hwf : s.WF diagnose)
    (h : StepCase diagnose s a s') (hpc : s.pc ≠ .idle) (hidle : s'.pc = .idle)
    {n : Notification υ} (hn : s.received.getLast? = some n) {v : ℤ} {x : Text}
    (hup : n.update? = some (u, v, x)) :
    ∃ w, (w ∈ s.pool ∨ w ∈ s'.pool) ∧ w.uri = u ∧ v ≤ w.version := by
  obtain ⟨n', hn', hserves⟩ := hsrc.serving hpc
  obtain rfl : n = n' := Option.some.inj (hn.symm.trans hn')
  have hmem : n ∈ s.received := List.mem_of_getLast? hn
  cases h with
  | receive m => exact absurd hidle (start_ne_idle m)
  | @ignored u' v' x' t hpc' hstale =>
    rw [hpc'] at hserves
    obtain rfl : n = .didChange u' v' x' := hserves
    obtain ⟨rfl, rfl, rfl⟩ : u' = u ∧ v' = v ∧ x' = x := by simpa [Notification.update?] using hup
    have hown : s.Owned u' t := hwf.reads u' t (by rw [hpc']; rfl)
    rcases hwf.stored t hown.1 with ⟨hv, -⟩ | ⟨y, hy, hst, hv, -⟩
    · omega
    · refine ⟨y, .inl hy, ?_, hv ▸ hstale.2⟩
      rw [← (hwf.held y hy t (Phase.tu?_of_stored? hst)).2, hown.2]
  | @enqueued u' v' x' home hpc' =>
    rw [hpc'] at hserves
    obtain ⟨v₀, hv₀, hup₀⟩ := hserves
    obtain ⟨rfl, rfl, rfl⟩ : u' = u ∧ v₀ = v ∧ x' = x := by
      rw [hup₀] at hup
      simpa using hup
    refine ⟨⟨u', v', x', home, .queued⟩, .inr (by simp), rfl, ?_⟩
    rw [← hv₀, ht.fits n hmem v₀ x' hup]
  | erased hpc' =>
    rw [hpc'] at hserves
    obtain rfl : n = .didClose _ := hserves
    cases hup
  | gone => exact absurd hidle hpc
  | found => exact absurd hidle hpc
  | stored => exact absurd hidle hpc
  | dropped => exact absurd hidle hpc
  | passed => exact absurd hidle hpc
  | published => exact absurd hidle hpc
  | _ => simp at hidle

theorem StepCase.covered (h : StepCase diagnose s a s') (hsrc : s.Sourced) (hwf : s.WF diagnose)
    (ht : Turns u s) :
    ∀ n ∈ s'.served, ∀ v x, n.update? = some (u, v, x) →
      ∃ w ∈ s'.pool, w.uri = u ∧ v ≤ w.version := by
  intro n hn v x hup
  have hkeep : ∀ {w : Worker υ}, w ∈ s.pool → w.uri = u → v ≤ w.version →
      ∃ w ∈ s'.pool, w.uri = u ∧ v ≤ w.version := by
    intro w hw hu hle
    obtain ⟨i, hi⟩ := List.getElem?_of_mem hw
    obtain ⟨p, hp, -⟩ := h.getElem?_pool hi
    exact ⟨_, List.mem_of_getElem? hp, hu, hle⟩
  rcases h.mem_served hn with hn | ⟨hpc, hidle, hlast⟩
  · obtain ⟨w, hw, hu, hle⟩ := ht.covered n hn v x hup
    exact hkeep hw hu hle
  · obtain ⟨w, hw | hw, hu, hle⟩ := ht.covered_last hsrc hwf h hpc hidle hlast hup
    · exact hkeep hw hu hle
    · exact ⟨w, hw, hu, hle⟩

theorem StepCase.turns (h : StepCase diagnose s a s') (hsrc : s.Sourced) (hwf : s.WF diagnose)
    (honly : OnlyUpdates u s a) (hturn : InTurn u s a) (ht : Turns u s) : Turns u s' := by
  refine ⟨h.unclosed hsrc ht.toUnclosed honly ?_, ?_, h.top hsrc hwf hturn ht,
    h.covered hsrc hwf ht, ?_⟩
  · rintro n v x rfl hup
    obtain ⟨h1, h2⟩ := hturn v x hup
    exact ⟨by omega, h2⟩
  · intro n hn v x hup
    rcases h.received_eq with heq | ⟨m, rfl, -, heq, -⟩
    · exact ht.nonneg n (heq ▸ hn) v x hup
    · rw [heq] at hn
      rcases List.mem_append.1 hn with hn | hn
      · exact ht.nonneg n hn v x hup
      · obtain rfl := List.mem_singleton.1 hn
        exact (hturn v x hup).1
  · intro w hw hu hgone
    rcases h.mem_pool hw with hw | ⟨w₀, p, hadv, rfl⟩ | ⟨m, u', v, x, -, -, rfl⟩
    · exact ht.present w hw hu hgone
    · cases hadv with
      | gone hw₀ _ htus =>
        have hmem := List.mem_of_getElem? hw₀
        rw [hu, ht.tus_of_mem hwf hmem hu] at htus
        cases htus
      | _ => cases hgone
    · cases hgone

theorem turns_initial [Inhabited υ] (u : υ) :
    Turns u (initial : Documents υ δ) where
  toUnclosed := unclosed_initial u
  nonneg _ h := by cases h
  top _ h := by cases h
  covered _ h := by cases h
  present _ h := by cases h

theorem Turns.holdsNewest (ht : Turns u s) (hsrc : s.Sourced) (hwf : s.WF diagnose)
    (hset : Settled u s) : HoldsNewest u s := by
  intro n hn v x hup
  have hserved : n ∈ s.served := by rwa [served, if_pos hset.1]
  obtain ⟨w, hw, hu, hle⟩ := ht.covered n hserved v x hup
  have htus := ht.tus_of_mem hwf hw hu
  have hown := hwf.tus u _ htus
  obtain ⟨t, hdone⟩ := (hset.2 w hw hu).resolve_left (ht.present w hw hu)
  have hst : w.phase.stored? = some t := by
    rw [hdone]
    rfl
  obtain rfl := ht.single.eq hown (hu ▸ hwf.held w hw t (Phase.tu?_of_stored? hst))
  refine ⟨_, htus, hle.trans (ht.top w hw hu _ hst), ?_⟩
  -- what the document holds was stored by a worker, from a notification
  rcases hwf.stored _ hown.1 with ⟨-, hnone⟩ | ⟨y, hy, hyst, hv, hc, -⟩
  · exact absurd hst (hnone w hw)
  · obtain ⟨m, hm, v', hv', hmup⟩ := hsrc.workers y hy
    have hmem := mem_received_of_mem_served hm
    have hyu : y.uri = u := by rw [← (hwf.held y hy _ (Phase.tu?_of_stored? hyst)).2, hown.2]
    rw [hyu] at hmup
    refine ⟨m, hmem, ?_⟩
    rw [hv, hc, ← hv', ht.fits m hmem v' _ hmup]
    exact hmup

/-- **A document converges to its newest text.** In every run of
`didOpen` and `didChange` on a document, whatever the order of the
workers' sections, in which versions are nonnegative `int`s, workers
store in the order of their versions, and a stale `didChange` is checked
behind a worker of at least its version. -/
theorem converges_of_inTurn [Inhabited υ] {diagnose : Text → δ} {u : υ} {s : Documents υ δ}
    (h : Reach (step diagnose) initial (fun s a => OnlyUpdates u s a ∧ InTurn u s a) s) :
    Converges diagnose (fun s a => OnlyUpdates u s a ∧ InTurn u s a) u s := by
  have ht : Turns u s :=
    h.inv (turns_initial u) fun s a s' hs ht hok hst =>
      (step_cases hst).turns (sourced_of_reach hs) (wf_of_reach hs) hok.1 hok.2 ht
  have hsrc := sourced_of_reach h
  have hwf := wf_of_reach h
  refine ⟨fun a s' hok hst => ?_, ht.holdsNewest hsrc hwf⟩
  have hcase := step_cases hst
  exact ⟨ht.ignoresStale hsrc hwf hok.2 hcase, hcase.neverBack hsrc hwf hok.2 ht⟩

theorem converges_of_inTurn_openedOnce :
    ∃ s : Documents Text Text, run (step id) openedOnce initial = some s ∧
      Settled "a".toList s ∧ (s.heap 0).contents = "x".toList ∧
      Converges id (fun s a => OnlyUpdates "a".toList s a ∧ InTurn "a".toList s a) "a".toList s := by
  refine ⟨_, rfl, ⟨rfl, ?_⟩, rfl, converges_of_inTurn (Reach.init.follows openedOnce ?_)⟩
  · intro w hw _
    obtain rfl := List.mem_singleton.1 hw
    exact .inr ⟨0, rfl⟩
  · refine ⟨⟨by simp [OnlyUpdates], ?_⟩, _, rfl, ?_⟩
    · intro v x h
      simp only [Notification.update?, Option.some.injEq, Prod.mk.injEq] at h
      omega
    · refine ⟨⟨by simp [OnlyUpdates], fun _ _ _ h => by cases h⟩, _, rfl,
        ⟨by simp [OnlyUpdates], fun _ _ _ h => by cases h⟩, _, rfl,
        ⟨by simp [OnlyUpdates], fun _ _ _ h => by cases h⟩, _, rfl,
        ⟨by simp [OnlyUpdates], fun _ _ _ h => by cases h⟩, _, rfl,
        ⟨by simp [OnlyUpdates], trivial⟩, _, rfl, ⟨by simp [OnlyUpdates], ?_⟩, _, rfl,
        ⟨by simp [OnlyUpdates], trivial⟩, _, rfl, ⟨by simp [OnlyUpdates], trivial⟩, _, rfl, rfl⟩
      intro w hw _ w' hw' _ t hst
      obtain rfl := List.mem_singleton.1 hw'
      cases hst

/-- The worker of version 1 stores behind the worker of version 2. -/
def storedBack : List (Action Text) :=
  [.receive (.didOpen "a".toList 1 "x".toList), .dispatch, .dispatch, .dispatch, .dispatch,
    .receive (.didChange "a".toList 2 "y".toList), .dispatch, .dispatch, .dispatch, .dispatch,
    .dispatch, .dispatch, .lookup 0, .lookup 1, .reparse 1, .reparse 0, .check 0, .check 1,
    .publish 1]

/-- Every worker has returned, and the document holds the older text. -/
theorem not_converges_storedBack :
    ∃ s : Documents Text Text, Reach (step id) initial (OnlyUpdates "a".toList) s ∧
      (s.heap 0).contents = "x".toList ∧
      ¬ Converges id (OnlyUpdates "a".toList) "a".toList s := by
  obtain ⟨s, hs⟩ : ∃ s, run (step id) storedBack (initial : Documents Text Text) = some s :=
    ⟨_, rfl⟩
  have hset : Settled "a".toList s := by
    obtain rfl := Option.some.inj hs
    refine ⟨rfl, fun w hw _ => ?_⟩
    have hphase : w.phase = .done 0 := by
      rcases List.mem_cons.1 hw with rfl | hw
      · rfl
      · obtain rfl := List.mem_singleton.1 hw
        rfl
    exact .inr ⟨0, hphase⟩
  have hstate : s.tus "a".toList = some 0 ∧ (s.heap 0).version = 1 := by
    obtain rfl := Option.some.inj hs
    exact ⟨rfl, rfl⟩
  have hmem : .didChange "a".toList 2 "y".toList ∈ s.received := by
    obtain rfl := Option.some.inj hs
    decide +kernel
  refine ⟨s, Reach.init.run (fun s a ha => ?_) hs, ?_, fun h => ?_⟩
  · rintro rfl
    simp [storedBack] at ha
  · obtain rfl := Option.some.inj hs
    rfl
  · obtain ⟨t, htus, hle, -⟩ := h.2 hset _ hmem _ _ rfl
    obtain rfl : 0 = t := by simpa using hstate.1.symm.trans htus
    rw [hstate.2] at hle
    omega

end Documents

end LSP

end Nslc
