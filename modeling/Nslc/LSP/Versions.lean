import Mathlib
import Nslc.LSP.Workers
/-!
# LSP — published versions

Diagnostics go out in the order of versions, each with the diagnostics
of its own text, as long as a worker publishes only what it has stored
itself. Between its stale check and its publication a newer update can
be received, reparsed and published, and between its reparse and its
publication an older worker can store over it; the worker then tags the
other's diagnostics with its own version.
-/

namespace Nslc

namespace LSP

namespace Documents

open Interleave

variable {υ δ : Type} [DecidableEq υ] {diagnose : Text → δ} {s s' : Documents υ δ} {a : Action υ}
  {u : υ} {t : ℕ}

/-! ## Versions and messages -/

/-- What fits into the source's `int`. -/
def FitsInt (v : ℤ) : Prop := -2 ^ 31 ≤ v ∧ v < 2 ^ 31

theorem toInt_of_fitsInt {v : ℤ} (h : FitsInt v) : toInt v = v := by
  obtain ⟨h1, h2⟩ := h
  unfold toInt
  exact Int.bmod_eq_of_le (by omega) (by omega)

/-- The messages published for `u`, in order. -/
def messagesOf (s : Documents υ δ) (u : υ) : List (Message υ δ) :=
  s.log.filterMap fun
    | .received _ => none
    | .published m => if m.uri = u then some m else none

theorem StepCase.messagesOf_eq (h : StepCase diagnose s a s') (u : υ) :
    s'.messagesOf u = s.messagesOf u ∨
      (∃ v, s.pc = .closePublish u v ∧ s'.messagesOf u = s.messagesOf u ++ [⟨u, v, none, none⟩]) ∨
      ∃ i w t, a = .publish i ∧ s.pool[i]? = some w ∧ w.uri = u ∧ w.phase = .checked t ∧
        s'.messagesOf u = s.messagesOf u ++ [⟨u, w.version, (s.heap t).result, some i⟩] := by
  cases h with
  | receive n => exact .inl (by simp [messagesOf])
  | opened => exact .inl (by simp [messagesOf])
  | noted => exact .inl (by simp [messagesOf, setUnit])
  | scheduled => exact .inl (by simp [messagesOf])
  | @closePublished u' v hpc =>
    by_cases hu : u' = u
    · obtain rfl := hu
      exact .inr (.inl ⟨v, hpc, by simp [messagesOf]⟩)
    · exact .inl (by simp [messagesOf, hu])
  | @published i w t hw hp =>
    by_cases hu : w.uri = u
    · exact .inr (.inr ⟨i, w, t, rfl, hw, hu, hp, by simp [messagesOf, hu]⟩)
    · exact .inl (by simp [messagesOf, hu])
  | _ => exact .inl rfl

/-- Updates of `u` in the order of their versions. -/
def Ascending (u : υ) (ns : List (Notification υ)) : Prop :=
  ns.Pairwise fun m n => ∀ v x v' x', m.update? = some (u, v, x) → n.update? = some (u, v', x') →
    v < v'

/-- The document is open and its versions increase. -/
def Increasing (u : υ) (s : Documents υ δ) : Action υ → Prop
  | .receive n => n ≠ .didClose u ∧ ∀ v x, n.update? = some (u, v, x) →
      ∀ m ∈ s.received, ∀ v' x', m.update? = some (u, v', x') → v' < v
  | _ => True

/-- A worker of `u` publishes while the document still holds the version
it has stored, and versions fit into an `int`. -/
def PublishesOwn (u : υ) (s : Documents υ δ) : Action υ → Prop
  | .receive n => ∀ v x, n.update? = some (u, v, x) → FitsInt v
  | .publish i => ∀ w t, s.pool[i]? = some w → w.uri = u → w.phase = .checked t →
      (s.heap t).version = w.version
  | _ => True

/-- Messages for `u` carry versions that do not go back, each with the
diagnostics of the text received with that version. -/
def InOrder (diagnose : Text → δ) (u : υ) (s : Documents υ δ) : Prop :=
  (s.messagesOf u).Pairwise (fun m m' => m.version ≤ m'.version) ∧
    ∀ m ∈ s.messagesOf u, ∃ n ∈ s.received, ∃ x, n.update? = some (u, m.version, x) ∧
      m.diagnostics = some (diagnose x)

/-! ## The invariant -/

/-- The document is not closed, and its versions are kept as they are. -/
structure Unclosed (u : υ) (s : Documents υ δ) : Prop where
  noClose : .didClose u ∉ s.received
  fits : ∀ n ∈ s.received, ∀ v x, n.update? = some (u, v, x) → toInt v = v
  single : s.Single u

theorem StepCase.unclosed (h : StepCase diagnose s a s') (hsrc : s.Sourced) (hu : Unclosed u s)
    (hclose : a ≠ .receive (.didClose u))
    (hfits : ∀ n v x, a = .receive n → n.update? = some (u, v, x) → FitsInt v) :
    Unclosed u s' := by
  have hrec : .didClose u ∉ s'.received ∧
      ∀ n ∈ s'.received, ∀ v x, n.update? = some (u, v, x) → toInt v = v := by
    rcases h.received_eq with heq | ⟨n, rfl, -, heq, -⟩
    · rw [heq]
      exact ⟨hu.noClose, hu.fits⟩
    · rw [heq]
      refine ⟨?_, ?_⟩
      · simp only [List.mem_append, List.mem_singleton, not_or]
        exact ⟨hu.noClose, fun he => hclose (he ▸ rfl)⟩
      · intro m hm v x hup
        rcases List.mem_append.1 hm with hm | hm
        · exact hu.fits m hm v x hup
        · obtain rfl := List.mem_singleton.1 hm
          exact toInt_of_fitsInt (hfits m v x rfl hup)
  exact ⟨hrec.1, hrec.2, h.single hsrc hrec.1 hu.single⟩

omit [DecidableEq υ] in
theorem unclosed_initial [Inhabited υ] (u : υ) : Unclosed u (initial : Documents υ δ) :=
  ⟨by simp [received, initial], by simp [received, initial], single_initial u⟩

/-- An unclosed document whose versions increase. -/
structure Feed (u : υ) (s : Documents υ δ) : Prop extends Unclosed u s where
  ascending : Ascending u s.received

theorem StepCase.feed (h : StepCase diagnose s a s') (hsrc : s.Sourced) (hf : Feed u s)
    (hinc : Increasing u s a) (hown : PublishesOwn u s a) : Feed u s' := by
  refine ⟨h.unclosed hsrc hf.toUnclosed ?_ ?_, ?_⟩
  · rintro rfl
    exact hinc.1 rfl
  · rintro n v x rfl hup
    exact hown v x hup
  · rcases h.received_eq with heq | ⟨n, rfl, -, heq, -⟩
    · rw [heq]
      exact hf.ascending
    · rw [heq]
      refine List.pairwise_append.2 ⟨hf.ascending, List.pairwise_singleton _ _, ?_⟩
      intro m hm n' hn' v x v' x' hup hup'
      obtain rfl := List.mem_singleton.1 hn'
      exact hinc.2 v' x' hup' m hm v x hup

/-- The update at hand is newer than every worker of its URI. -/
theorem Feed.lt_of_serving (hf : Feed u s) (hsrc : s.Sourced) {v : ℤ} {x : Text}
    (hpc : s.pc ≠ .idle) (hserves : ∀ n, s.pc.Serves n → n.Updates u v x) {w : Worker υ}
    (hw : w ∈ s.pool) (hu : w.uri = u) : w.version < v := by
  obtain ⟨n, hn, hs⟩ := hsrc.serving hpc
  obtain ⟨v', rfl, hup⟩ := hserves n hs
  obtain ⟨m, hm, v₀, hv₀, hup₀⟩ := hsrc.workers w hw
  rw [served, if_neg hpc] at hm
  obtain ⟨pre, hpre⟩ := List.getLast?_eq_some_iff.1 hn
  rw [hpre, List.dropLast_concat] at hm
  have hmem : m ∈ s.received := hpre ▸ List.mem_append_left _ hm
  have hnmem : n ∈ s.received := List.mem_of_getLast? hn
  rw [hu] at hup₀
  have hasc := hf.ascending
  rw [hpre] at hasc
  have hlt : v₀ < v' := (List.pairwise_append.1 hasc).2.2 m hm n (by simp) _ _ _ _ hup₀ hup
  rw [hf.fits n hnmem _ _ hup, ← hv₀, hf.fits m hmem _ _ hup₀]
  exact hlt

/-- Workers of `u` stand in the pool in the order of their versions. -/
def Lined (u : υ) (s : Documents υ δ) : Prop :=
  (s.pool.map fun w => (w.uri, w.version)).Pairwise fun k k' => k.1 = u → k'.1 = u → k.2 < k'.2

theorem StepCase.keys_eq (h : StepCase diagnose s a s') :
    (s'.pool.map fun w => (w.uri, w.version)) = (s.pool.map fun w => (w.uri, w.version)) ∨
      ∃ home u v x, s.pc = .enqueueing home u v x ∧
        (s'.pool.map fun w => (w.uri, w.version)) =
          (s.pool.map fun w => (w.uri, w.version)) ++ [(u, v)] := by
  have hset : ∀ {i : ℕ} {w : Worker υ} {p : Phase}, s.pool[i]? = some w →
      ((s.pool.set i { w with phase := p }).map fun w => (w.uri, w.version)) =
        (s.pool.map fun w => (w.uri, w.version)) := by
    intro i w p hw
    rw [List.map_set]
    refine List.ext_getElem? fun j => ?_
    by_cases hij : i = j
    · obtain rfl := hij
      obtain ⟨hlt, heq⟩ := List.getElem?_eq_some_iff.1 hw
      rw [List.getElem?_set_self (by simpa using hlt), List.getElem?_map, hw]
      rfl
    · rw [List.getElem?_set_ne hij]
  cases h with
  | opened => exact .inl (by simp)
  | noted => exact .inl (by simp [setUnit])
  | scheduled => exact .inl (by simp)
  | @enqueued u v x home hpc => exact .inr ⟨home, u, v, x, hpc, by simp⟩
  | gone hw => exact .inl (hset hw)
  | found hw => exact .inl (hset hw)
  | stored hw => exact .inl (hset hw)
  | dropped hw => exact .inl (hset hw)
  | passed hw => exact .inl (hset hw)
  | published hw => exact .inl (hset hw)
  | _ => exact .inl rfl

theorem StepCase.lined (h : StepCase diagnose s a s') (hsrc : s.Sourced) (hf : Feed u s)
    (hl : Lined u s) : Lined u s' := by
  rcases h.keys_eq with heq | ⟨home, u', v, x, hpc, heq⟩
  · unfold Lined
    rw [heq]
    exact hl
  · unfold Lined
    rw [heq]
    refine List.pairwise_append.2 ⟨hl, List.pairwise_singleton _ _, ?_⟩
    intro k hk k' hk' hu hu'
    obtain rfl := List.mem_singleton.1 hk'
    obtain rfl : u' = u := hu'
    obtain ⟨w, hw, rfl⟩ := List.mem_map.1 hk
    refine hf.lt_of_serving (x := x) hsrc (by rw [hpc]; simp) (fun n hn => ?_) hw hu
    rw [hpc] at hn
    exact hn

omit [DecidableEq υ] in
/-- Two workers of `u` of one version are one. -/
theorem Lined.eq (hl : Lined u s) {w w' : Worker υ} (hw : w ∈ s.pool) (hw' : w' ∈ s.pool)
    (hu : w.uri = u) (hu' : w'.uri = u) (hv : w.version = w'.version) : w = w' := by
  unfold Lined at hl
  rw [List.pairwise_map, List.pairwise_iff_getElem] at hl
  obtain ⟨i, hi, rfl⟩ := List.getElem_of_mem hw
  obtain ⟨j, hj, rfl⟩ := List.getElem_of_mem hw'
  rcases Nat.lt_trichotomy i j with hij | rfl | hij
  · exact absurd hv (ne_of_lt (hl i j hi hj hij hu hu'))
  · rfl
  · exact absurd hv (ne_of_gt (hl j i hj hi hij hu' hu))

/-- A worker behind its stale check, overtaken by a newer one of its
document, finds another version in the document. -/
def Overtaken (u : υ) (s : Documents υ δ) : Prop :=
  ∀ w ∈ s.pool, ∀ x ∈ s.pool, w.uri = u → x.uri = u → ∀ t t', w.phase = .checked t →
    x.phase.stored? = some t' → w.version < x.version → (s.heap t).version ≠ w.version

theorem StepCase.overtaken (h : StepCase diagnose s a s') (hwf : s.WF diagnose) (hf : Feed u s)
    (hl : Lined u s) (ho : Overtaken u s) : Overtaken u s' := by
  intro w hw x hx hu hxu t t' hp hst hlt
  -- a worker that stores into the document of `w` has another version
  have hstore : w ∈ s.pool → ∀ {i : ℕ} {w₀ : Worker υ}, s.pool[i]? = some w₀ → w₀.phase = .found t →
      w₀.version ≠ w.version := by
    intro hw i w₀ hw₀ hp₀ hv
    have huri : w₀.uri = u := by
      rw [← (hwf.held w₀ (List.mem_of_getElem? hw₀) t (by rw [hp₀]; rfl)).2,
        (hwf.held w hw t (by rw [hp]; rfl)).2, hu]
    have := hl.eq (List.mem_of_getElem? hw₀) hw huri hu hv
    rw [this, hp] at hp₀
    cases hp₀
  rcases h.mem_pool hw with hmem | ⟨w₀, p, hadv, rfl⟩ | ⟨m, u', v, y, -, -, rfl⟩
  · have htw : s.Owned u t := hu ▸ hwf.held w hmem t (by rw [hp]; rfl)
    rcases h.heap_eq htw.1 with ⟨hv, -⟩ | ⟨i, w₀, -, hw₀, hp₀, -, hres⟩
    · rw [hv]
      rcases h.stored_of_mem hx hst with ⟨x₀, hx₀, hst₀, q, rfl⟩ | ⟨i, x₀, rfl, hx₀, hp₀, rfl, -⟩
      · exact ho w hmem x₀ hx₀ hu hxu t t' hp hst₀ hlt
      · -- `x` has just stored, into the one unit of `u`
        have hx₀' : s.Owned u t' :=
          hxu ▸ hwf.held x₀ (List.mem_of_getElem? hx₀) t' (by rw [hp₀]; rfl)
        obtain rfl := hf.single.eq htw hx₀'
        cases h with
        | @stored _ w₁ t₁ hw₁ hp₁ =>
          obtain rfl : x₀ = w₁ := Option.some.inj (hx₀.symm.trans hw₁)
          obtain rfl : t = t₁ := by simpa [hp₀] using hp₁
          rw [← hv]
          show (Function.update s.heap t _ t).version ≠ w.version
          rw [Function.update_self]
          exact hstore hmem hx₀ hp₀
    · rw [hres.1]
      exact hstore hmem hw₀ hp₀
  · cases hadv with
    | @passed i _ _ hw₀ hp₀ hcheck =>
      obtain rfl := Phase.checked.inj hp
      -- every worker's version has been noted, so none is newer
      have hx₀ : ∃ x₀ ∈ s.pool, x₀.uri = u ∧ x₀.version = x.version := by
        rcases h.stored_of_mem hx hst with ⟨x₀, hx₀, -, q, rfl⟩ | ⟨j, x₀, -, hx₀, -, rfl, -⟩
        · exact ⟨x₀, hx₀, hxu, rfl⟩
        · exact ⟨x₀, List.mem_of_getElem? hx₀, hxu, rfl⟩
      obtain ⟨x₀, hx₀, hxu₀, hxv⟩ := hx₀
      have hmem := List.mem_of_getElem? hw₀
      have hunit := hf.single.eq (hu ▸ hwf.held w₀ hmem _ (by rw [hp₀]; rfl) : s.Owned u _)
        (hxu₀ ▸ hwf.home x₀ hx₀)
      have hnoted := hwf.noted x₀ hx₀
      rw [← hunit, hxv] at hnoted
      exact absurd (Int.lt_of_lt_of_le hlt hnoted) hcheck
    | _ => cases hp
  · cases hp

/-- Each message of `u` is a worker's, with the diagnostics of its text. -/
def Tagged (diagnose : Text → δ) (u : υ) (s : Documents υ δ) : Prop :=
  ∀ m ∈ s.messagesOf u, ∃ w ∈ s.pool, w.uri = u ∧ w.version = m.version ∧
    (∃ t, w.phase.stored? = some t) ∧ m.diagnostics = some (diagnose w.contents)

omit [DecidableEq υ] in
/-- What a worker of `u` publishes from a document that holds its version
are the diagnostics of its text. -/
theorem result_of_own (hwf : s.WF diagnose) (hl : Lined u s) {w : Worker υ} (hw : w ∈ s.pool)
    (hu : w.uri = u) (hp : w.phase.stored? = some t)
    (hown : (s.heap t).version = w.version) : (s.heap t).result = some (diagnose w.contents) := by
  have hunit := hwf.held w hw t (Phase.tu?_of_stored? hp)
  rcases hwf.stored t hunit.1 with ⟨-, hnone⟩ | ⟨y, hy, hst, hv, -, hr⟩
  · exact absurd hp (hnone w hw)
  · have hyu : y.uri = u := by
      rw [← (hwf.held y hy t (Phase.tu?_of_stored? hst)).2, hunit.2, hu]
    rw [hr, hl.eq hy hw hyu hu (hv.symm.trans hown)]

theorem StepCase.tagged (h : StepCase diagnose s a s') (hsrc : s.Sourced) (hwf : s.WF diagnose)
    (hf : Feed u s) (hl : Lined u s) (hown : PublishesOwn u s a) (ht : Tagged diagnose u s) :
    Tagged diagnose u s' := by
  have hkeep : ∀ w ∈ s.pool, ∀ t, w.phase.stored? = some t →
      ∃ p, { w with phase := p } ∈ s'.pool ∧ p.stored? = some t := by
    intro w hw t hst
    obtain ⟨i, hi⟩ := List.getElem?_of_mem hw
    obtain ⟨p, hp, hkept⟩ := h.getElem?_pool hi
    exact ⟨p, List.mem_of_getElem? hp, hkept.stored t hst⟩
  have hold : ∀ m ∈ s.messagesOf u, ∃ w ∈ s'.pool, w.uri = u ∧ w.version = m.version ∧
      (∃ t, w.phase.stored? = some t) ∧ m.diagnostics = some (diagnose w.contents) := by
    intro m hm
    obtain ⟨w, hw, hu, hv, ⟨t, hst⟩, hd⟩ := ht m hm
    obtain ⟨p, hp, hst'⟩ := hkeep w hw t hst
    exact ⟨_, hp, hu, hv, ⟨t, hst'⟩, hd⟩
  intro m hm
  rcases h.messagesOf_eq u with heq | ⟨v, hpc, heq⟩ | ⟨i, w, t, rfl, hw, hu, hp, heq⟩
  · exact hold m (heq ▸ hm)
  · -- `u` is not being closed
    obtain ⟨n, hn, hserves⟩ := hsrc.serving (by rw [hpc]; simp)
    rw [hpc] at hserves
    obtain rfl : n = .didClose u := hserves
    exact absurd (List.mem_of_getLast? hn) hf.noClose
  · rw [heq] at hm
    rcases List.mem_append.1 hm with hm | hm
    · exact hold m hm
    · obtain rfl := List.mem_singleton.1 hm
      have hmem := List.mem_of_getElem? hw
      obtain ⟨p, hp', hst'⟩ := hkeep w hmem t (by rw [hp]; rfl)
      have hres : (s.heap t).result = some (diagnose w.contents) :=
        result_of_own hwf hl hmem hu (by rw [hp]; rfl) (hown w t hw hu hp)
      exact ⟨_, hp', hu, rfl, ⟨t, hst'⟩, hres⟩

/-- Everything together. -/
structure Publishing (diagnose : Text → δ) (u : υ) (s : Documents υ δ) : Prop where
  feed : Feed u s
  lined : Lined u s
  overtaken : Overtaken u s
  tagged : Tagged diagnose u s
  ordered : (s.messagesOf u).Pairwise fun m m' => m.version ≤ m'.version

theorem StepCase.publishing (h : StepCase diagnose s a s') (hsrc : s.Sourced)
    (hwf : s.WF diagnose) (hinc : Increasing u s a) (hown : PublishesOwn u s a)
    (hp : Publishing diagnose u s) : Publishing diagnose u s' where
  feed := h.feed hsrc hp.feed hinc hown
  lined := h.lined hsrc hp.feed hp.lined
  overtaken := h.overtaken hwf hp.feed hp.lined hp.overtaken
  tagged := h.tagged hsrc hwf hp.feed hp.lined hown hp.tagged
  ordered := by
    rcases h.messagesOf_eq u with heq | ⟨v, hpc, heq⟩ | ⟨i, w, t, rfl, hw, hu, hph, heq⟩
    · rw [heq]
      exact hp.ordered
    · obtain ⟨n, hn, hserves⟩ := hsrc.serving (by rw [hpc]; simp)
      rw [hpc] at hserves
      obtain rfl : n = .didClose u := hserves
      exact absurd (List.mem_of_getLast? hn) hp.feed.noClose
    · rw [heq]
      refine List.pairwise_append.2 ⟨hp.ordered, List.pairwise_singleton _ _, ?_⟩
      intro m hm m' hm'
      obtain rfl := List.mem_singleton.1 hm'
      obtain ⟨x, hx, hxu, hxv, ⟨t', hst⟩, -⟩ := hp.tagged m hm
      -- a newer message would mean that `w` was overtaken
      by_contra hgt
      have hlt : w.version < x.version := by
        rw [hxv]
        exact Int.not_le.1 hgt
      exact hp.overtaken w (List.mem_of_getElem? hw) x hx hu hxu t t' hph hst hlt
        (hown w t hw hu hph)

theorem publishing_initial [Inhabited υ] (u : υ) :
    Publishing diagnose u (initial : Documents υ δ) where
  feed := ⟨unclosed_initial u, List.Pairwise.nil⟩
  lined := List.Pairwise.nil
  overtaken _ h := by cases h
  tagged _ h := by cases h
  ordered := List.Pairwise.nil

/-- **Published versions.** In every run over an open document whose
versions increase, whatever the order of the workers' sections, the
messages are in order and true to their versions in every state reached,
if workers publish only while the document holds what they stored and
versions fit into an `int`. -/
theorem inOrder_of_publishesOwn [Inhabited υ] {diagnose : Text → δ} {u : υ}
    {s : Documents υ δ}
    (h : Reach (step diagnose) initial (fun s a => Increasing u s a ∧ PublishesOwn u s a) s) :
    InOrder diagnose u s := by
  have hp : Publishing diagnose u s :=
    h.inv (publishing_initial u) fun s a s' hs hp hok hst =>
      (step_cases hst).publishing (sourced_of_reach hs) (wf_of_reach hs) hok.1 hok.2 hp
  refine ⟨hp.ordered, fun m hm => ?_⟩
  obtain ⟨w, hw, hu, hv, -, hd⟩ := hp.tagged m hm
  obtain ⟨n, hn, v', hv', hup⟩ := (sourced_of_reach h).workers w hw
  have hmem : n ∈ s.received := mem_received_of_mem_served hn
  rw [hu] at hup
  refine ⟨n, hmem, w.contents, ?_, hd⟩
  rw [← hv, ← hv', hp.feed.fits n hmem v' w.contents hup]
  exact hup

/-- A document opened, and its worker's four sections. -/
def openedOnce : List (Action Text) :=
  [.receive (.didOpen "a".toList 1 "x".toList), .dispatch, .dispatch, .dispatch, .dispatch,
    .lookup 0, .reparse 0, .check 0, .publish 0]

theorem inOrder_of_publishesOwn_openedOnce :
    ∃ s : Documents Text Text, run (step id) openedOnce initial = some s ∧
      s.messagesOf "a".toList = [⟨"a".toList, 1, some "x".toList, some 0⟩] ∧
      InOrder id "a".toList s := by
  refine ⟨_, rfl, by decide +kernel,
    inOrder_of_publishesOwn (Reach.init.follows openedOnce ?_)⟩
  refine ⟨⟨by simp [Increasing, received, initial], ?_⟩, _, rfl, ?_⟩
  · intro v x h
    simp only [Notification.update?, Option.some.injEq, Prod.mk.injEq] at h
    rw [FitsInt, ← h.2.1]
    decide
  · refine ⟨⟨trivial, trivial⟩, _, rfl, ⟨trivial, trivial⟩, _, rfl, ⟨trivial, trivial⟩, _, rfl,
      ⟨trivial, trivial⟩, _, rfl, ⟨trivial, trivial⟩, _, rfl, ⟨trivial, trivial⟩, _, rfl,
      ⟨trivial, trivial⟩, _, rfl, ⟨trivial, ?_⟩, _, rfl, rfl⟩
    rintro w t hw - hp
    obtain rfl := Option.some.inj hw
    obtain rfl := Phase.checked.inj hp
    rfl

/-- The worker of version 1 is overtaken between its stale check and its
publication. -/
def overtakenRun : List (Action Text) :=
  [.receive (.didOpen "a".toList 1 "x".toList), .dispatch, .dispatch, .dispatch, .dispatch,
    .lookup 0, .reparse 0, .check 0,
    .receive (.didChange "a".toList 2 "y".toList), .dispatch, .dispatch, .dispatch, .dispatch,
    .dispatch, .dispatch, .lookup 1, .reparse 1, .check 1, .publish 1, .publish 0]

/-- Version 1 goes out behind version 2, with the diagnostics of 2. -/
theorem not_inOrder_overtakenRun :
    ∃ s : Documents Text Text,
      Reach (step id) initial (fun s a => Increasing "a".toList s a) s ∧
      s.messagesOf "a".toList = [⟨"a".toList, 2, some "y".toList, some 1⟩,
        ⟨"a".toList, 1, some "y".toList, some 0⟩] ∧
      ¬ InOrder id "a".toList s := by
  obtain ⟨s, hs⟩ : ∃ s, run (step id) overtakenRun (initial : Documents Text Text) = some s :=
    ⟨_, rfl⟩
  have hlog : s.messagesOf "a".toList = [⟨"a".toList, 2, some "y".toList, some 1⟩,
      ⟨"a".toList, 1, some "y".toList, some 0⟩] := by
    obtain rfl := Option.some.inj hs
    decide +kernel
  refine ⟨s, Reach.init.follows overtakenRun ?_, hlog, fun h => ?_⟩
  · obtain rfl := Option.some.inj hs
    refine ⟨by simp [Increasing, received, initial], _, rfl, trivial, _, rfl, trivial, _, rfl,
      trivial, _, rfl, trivial, _, rfl, trivial, _, rfl, trivial, _, rfl, trivial, _, rfl,
      ⟨by simp, ?_⟩, _, rfl, trivial, _, rfl, trivial, _, rfl, trivial, _, rfl, trivial, _, rfl,
      trivial, _, rfl, trivial, _, rfl, trivial, _, rfl, trivial, _, rfl, trivial, _, rfl,
      trivial, _, rfl, trivial, _, rfl, rfl⟩
    intro v x hv m hm v' x' hv'
    obtain rfl := List.mem_singleton.1 hm
    simp only [Notification.update?, Option.some.injEq, Prod.mk.injEq] at hv hv'
    omega
  · have hord := h.1
    rw [hlog] at hord
    simp at hord

end Documents

end LSP

end Nslc
