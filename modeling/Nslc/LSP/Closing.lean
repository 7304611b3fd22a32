import Mathlib
import Nslc.LSP.Workers
/-!
# LSP — closing and reopening a document

`didClose` takes the unit out of the table and cancels nothing. A worker
still queued looks its URI up again and finds the next document's unit;
one that has found its unit goes on to publish. Closing ends a document
where workers look up and publish before their document is closed, and
changes come for open documents only.
-/

namespace Nslc

namespace LSP

namespace Documents

open Interleave

variable {υ δ : Type} [DecidableEq υ] {diagnose : Text → δ} {s s' : Documents υ δ} {a : Action υ}
  {u : υ} {t : ℕ}

/-! ## The property -/

/-- Whether `u` is closed: the last closing message of `u` has no
`didOpen` behind it. -/
def closeStep (u : υ) (closed : Bool) : Event υ δ → Bool
  | .published m => if m.uri = u ∧ m.sender = none then true else closed
  | .received (.didOpen u' _ _) => if u' = u then false else closed
  | .received _ => closed

def closedSince (u : υ) (log : List (Event υ δ)) : Bool := log.foldl (closeStep u) false

/-- What a step may do about `u`: publish only while `u` is open, with
the publishing worker's own document in the table; store only into the
worker's own document; and ignore a change only for a version of the
same document. -/
structure Apart (u : υ) (s : Documents υ δ) (a : Action υ) (s' : Documents υ δ) : Prop where
  publishes : ∀ i w, a = .publish i → s.pool[i]? = some w → w.uri = u →
    closedSince u s.log = false ∧ s.tus u = some w.home
  stores : ∀ i w t, a = .reparse i → s.pool[i]? = some w → w.uri = u → w.phase = .found t →
    t = w.home
  ignores : ∀ t v x, a = .dispatch → s.pc = .staleRead t u v x → s'.pc = .idle →
    s.tus u = some t ∧ ∃ w ∈ s.pool, w.home = t ∧ v ≤ w.version

/-- A change of `u` comes while `u` is open; a worker of `u` looks up
while the table has no later document of `u`; and it publishes while its
document is in the table and no closing message has gone out. -/
def BeforeClosing (u : υ) (s : Documents υ δ) : Action υ → Prop
  | .receive n => ∀ v x, n = .didChange u v x → s.tus u ≠ none
  | .lookup i => ∀ w t, s.pool[i]? = some w → w.uri = u → s.tus u = some t → t = w.home
  | .publish i => ∀ w t, s.pool[i]? = some w → w.uri = u → w.phase = .checked t →
      s.tus u = some t ∧ s.pc ≠ .closeErase u
  | _ => True

/-! ## The invariant -/

/-- The handler at hand updates `u`. -/
def Pc.updates (u : υ) : Pc υ → Prop
  | .staleLookup u' _ _ | .staleRead _ u' _ _ | .opening u' _ _ | .updating u' _ _
  | .scheduling _ u' _ _ | .enqueueing _ u' _ _ => u' = u
  | _ => False

structure Closing (u : υ) (s : Documents υ δ) : Prop where
  /-- Workers of `u` work in their own document. -/
  home : ∀ w ∈ s.pool, w.uri = u → ∀ t, w.phase.tu? = some t → t = w.home
  /-- Where `u` is closed, it is out of the table, or about to be. -/
  closed : closedSince u s.log = true →
    s.pc = .closeErase u ∨ s.tus u = none ∧ ¬ Pc.updates u s.pc
  /-- The unit a change is checked against is the one in the table. -/
  current : ∀ t v x, s.pc = .staleRead t u v x → s.tus u = some t

theorem closedSince_append (log : List (Event υ δ)) (e : Event υ δ) :
    closedSince u (log ++ [e]) = closeStep u (closedSince u log) e := by
  simp [closedSince]

theorem StepCase.home_eq (h : StepCase diagnose s a s') (hb : BeforeClosing u s a)
    (hc : Closing u s) : ∀ w ∈ s'.pool, w.uri = u → ∀ t, w.phase.tu? = some t → t = w.home := by
  intro w hw hu t ht
  rcases h.held hw ht with ⟨w₀, hw₀, ht₀, p, rfl⟩ | ⟨i, w₀, rfl, hw₀, htus, rfl⟩
  · exact hc.home w₀ hw₀ hu t ht₀
  · exact hb w₀ t hw₀ hu (hu ▸ htus)

theorem StepCase.current (h : StepCase diagnose s a s') (hc : Closing u s) :
    ∀ t v x, s'.pc = .staleRead t u v x → s'.tus u = some t := by
  intro t v x hpc
  cases h with
  | receive n => cases n <;> cases hpc
  | stalePresent hpc₀ htus =>
    obtain ⟨rfl, rfl, -, -⟩ := Pc.staleRead.inj hpc
    exact htus
  | gone => exact hc.current t v x hpc
  | found => exact hc.current t v x hpc
  | stored => exact hc.current t v x hpc
  | dropped => exact hc.current t v x hpc
  | passed => exact hc.current t v x hpc
  | published => exact hc.current t v x hpc
  | _ => cases hpc

theorem tus_ensure_of_ne {u' : υ} (h : u ≠ u') : (s.ensure u').tus u = s.tus u := by
  unfold ensure
  split
  · rfl
  · exact Function.update_of_ne h _ _

theorem StepCase.closed (h : StepCase diagnose s a s') (hb : BeforeClosing u s a)
    (hc : Closing u s) (hcl : closedSince u s'.log = true) :
    s'.pc = .closeErase u ∨ s'.tus u = none ∧ ¬ Pc.updates u s'.pc := by
  -- an update handler at work is one of another URI
  have hother : ∀ {u' : υ} {pc : Pc υ}, s.pc = pc → closedSince u s.log = true →
      pc ≠ .closeErase u → (Pc.updates u pc ↔ u' = u) → u ≠ u' ∧ s.tus u = none := by
    intro u' pc hpc hlog hne hiff
    rcases hc.closed hlog with h | ⟨htus, hnot⟩
    · exact absurd (hpc.symm.trans h) hne
    · rw [hpc, hiff] at hnot
      exact ⟨fun he => hnot he.symm, htus⟩
  have hkeep : closedSince u s.log = true → s.pc = s'.pc → s.tus = s'.tus →
      s'.pc = .closeErase u ∨ s'.tus u = none ∧ ¬ Pc.updates u s'.pc := by
    intro hlog hpc htus
    rw [← hpc, ← htus]
    exact hc.closed hlog
  cases h with
  | receive n hidle =>
    rw [closedSince_append] at hcl
    right
    cases n with
    | didOpen u' v x =>
      simp only [closeStep] at hcl
      split_ifs at hcl with hu
      refine ⟨?_, hu⟩
      exact ((hc.closed hcl).resolve_left (by rw [hidle]; simp)).1
    | didChange u' v x =>
      have htus := ((hc.closed hcl).resolve_left (by rw [hidle]; simp)).1
      refine ⟨htus, fun hu => ?_⟩
      obtain rfl : u' = u := hu
      exact hb v x rfl htus
    | didClose u' =>
      exact ⟨((hc.closed hcl).resolve_left (by rw [hidle]; simp)).1, id⟩
  | staleAbsent hpc =>
    obtain ⟨hne, htus⟩ := hother hpc hcl (by simp) Iff.rfl
    exact .inr ⟨htus, fun hu => hne hu.symm⟩
  | stalePresent hpc =>
    obtain ⟨hne, htus⟩ := hother hpc hcl (by simp) Iff.rfl
    exact .inr ⟨htus, fun hu => hne hu.symm⟩
  | ignored hpc =>
    obtain ⟨hne, htus⟩ := hother hpc hcl (by simp) Iff.rfl
    exact .inr ⟨htus, id⟩
  | accepted hpc =>
    obtain ⟨hne, htus⟩ := hother hpc hcl (by simp) Iff.rfl
    exact .inr ⟨htus, fun hu => hne hu.symm⟩
  | opened hpc =>
    obtain ⟨hne, htus⟩ := hother hpc (by simpa using hcl) (by simp) Iff.rfl
    exact .inr ⟨(tus_ensure_of_ne hne).trans htus, fun hu => hne hu.symm⟩
  | noted hpc =>
    obtain ⟨hne, htus⟩ := hother hpc (by simpa [setUnit] using hcl) (by simp) Iff.rfl
    exact .inr ⟨(tus_ensure_of_ne hne).trans htus, fun hu => hne hu.symm⟩
  | scheduled hpc =>
    obtain ⟨hne, htus⟩ := hother hpc (by simpa using hcl) (by simp) Iff.rfl
    exact .inr ⟨(tus_ensure_of_ne hne).trans htus, fun hu => hne hu.symm⟩
  | enqueued hpc =>
    obtain ⟨hne, htus⟩ := hother hpc hcl (by simp) Iff.rfl
    exact .inr ⟨htus, id⟩
  | closeAbsent hpc =>
    refine .inr ⟨((hc.closed hcl).resolve_left (by rw [hpc]; simp)).1, id⟩
  | closePresent hpc =>
    refine .inr ⟨((hc.closed hcl).resolve_left (by rw [hpc]; simp)).1, id⟩
  | closeRead hpc =>
    refine .inr ⟨((hc.closed hcl).resolve_left (by rw [hpc]; simp)).1, id⟩
  | @closePublished u' v hpc =>
    by_cases hu : u' = u
    · exact .inl (hu ▸ rfl)
    · rw [closedSince_append] at hcl
      simp only [closeStep, hu, false_and, if_false] at hcl
      exact .inr ⟨((hc.closed hcl).resolve_left (by rw [hpc]; simp)).1, id⟩
  | @erased u' hpc =>
    by_cases hu : u = u'
    · exact .inr ⟨by rw [hu]; exact Function.update_self _ _ _, id⟩
    · have htus := ((hc.closed hcl).resolve_left (by
        rw [hpc]
        exact fun he => hu (Pc.closeErase.inj he).symm)).1
      exact .inr ⟨(Function.update_of_ne hu _ _).trans htus, id⟩
  | published =>
    rw [closedSince_append] at hcl
    simp only [closeStep, reduceCtorEq, and_false, if_false] at hcl
    exact hkeep hcl rfl rfl
  | gone => exact hkeep hcl rfl rfl
  | found => exact hkeep hcl rfl rfl
  | stored => exact hkeep hcl rfl rfl
  | dropped => exact hkeep hcl rfl rfl
  | passed => exact hkeep hcl rfl rfl

theorem closing_initial [Inhabited υ] (u : υ) : Closing u (initial : Documents υ δ) where
  home _ h := by cases h
  closed h := by cases h
  current _ _ _ h := by cases h

/-- Open, reparse and publish: every section before the publication. -/
def beforePublishing : List (Action Text) :=
  [.receive (.didOpen "a".toList 1 "x".toList), .dispatch, .dispatch, .dispatch, .dispatch,
    .lookup 0, .reparse 0, .check 0]

/-- The document is closed between its worker's stale check and its
publication. -/
def closedRun : List (Action Text) :=
  beforePublishing ++
    [.receive (.didClose "a".toList), .dispatch, .dispatch, .dispatch, .dispatch]

end Documents

end LSP

end Nslc
