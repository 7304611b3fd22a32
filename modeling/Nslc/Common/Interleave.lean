import Mathlib
/-!
# Interleaved runs

Threads that share a state take atomic steps in any order: a label names
the thread and its step, `step s a` is the state behind it, and `none`
where the thread cannot take it. A run is any sequence of such steps.
`Reach` is the states reached by runs whose every step meets a
condition on the state before it, and `Ends` says that no run from a
state goes on for ever with the steps of a kind.
-/

namespace Nslc

namespace Interleave

variable {σ α : Type*} (step : σ → α → Option σ)

/-- States that runs from `init` reach, every step allowed by `ok`. -/
inductive Reach (init : σ) (ok : σ → α → Prop) : σ → Prop
  | init : Reach init ok init
  | step {s t : σ} {a : α} : Reach init ok s → ok s a → step s a = some t → Reach init ok t

/-- The state behind the steps `as`. -/
def run : List α → σ → Option σ
  | [], s => some s
  | a :: as, s => (step s a).bind (run as)

/-- The steps `as`, each allowed by `ok`, lead from `s` to `t`. -/
def Follows (ok : σ → α → Prop) : List α → σ → σ → Prop
  | [], s, t => s = t
  | a :: as, s, t => ok s a ∧ ∃ u, step s a = some u ∧ Follows ok as u t

/-- Every run from `s` whose labels are among `among` comes to an end. -/
def Ends (among : α → Prop) (s : σ) : Prop :=
  Acc (fun t s => ∃ a, among a ∧ step s a = some t) s

variable {step} {init s t : σ} {ok ok' : σ → α → Prop}

/-- **The invariant rule.** -/
theorem Reach.inv {P : σ → Prop} (h : Reach step init ok s) (h0 : P init)
    (hstep : ∀ s a t, Reach step init ok s → P s → ok s a → step s a = some t → P t) : P s := by
  induction h with
  | init => exact h0
  | step hs hok hst ih => exact hstep _ _ _ hs ih hok hst

theorem Reach.mono (h : Reach step init ok s) (hle : ∀ s a, ok s a → ok' s a) :
    Reach step init ok' s :=
  h.inv .init fun _ _ _ _ ih hok hst => .step ih (hle _ _ hok) hst

theorem Reach.follows (h : Reach step init ok s) (as : List α) (hf : Follows step ok as s t) :
    Reach step init ok t := by
  induction as generalizing s with
  | nil =>
    obtain rfl : s = t := hf
    exact h
  | cons a as ih =>
    obtain ⟨hok, u, hu, hrest⟩ := hf
    exact ih (h.step hok hu) hrest

/-- Steps that are allowed wherever they are taken. -/
theorem Reach.run (h : Reach step init ok s) {as : List α} (hok : ∀ s, ∀ a ∈ as, ok s a)
    (hrun : run step as s = some t) : Reach step init ok t := by
  induction as generalizing s with
  | nil =>
    obtain rfl := Option.some.inj hrun
    exact h
  | cons a as ih =>
    simp only [Interleave.run, Option.bind_eq_some_iff] at hrun
    obtain ⟨u, hu, hrest⟩ := hrun
    exact ih (h.step (hok s a (by simp)) hu) (fun s b hb => hok s b (by simp [hb])) hrest

/-- A rank that every step lowers. -/
theorem ends_of_rank {among : α → Prop} (rank : σ → ℕ × ℕ)
    (hrank : ∀ s a t, among a → step s a = some t →
      Prod.Lex (· < ·) (· < ·) (rank t) (rank s)) (s : σ) : Ends step among s := by
  have hwf : WellFounded (Prod.Lex (· < ·) (· < ·) : ℕ × ℕ → ℕ × ℕ → Prop) :=
    WellFounded.prod_lex wellFounded_lt wellFounded_lt
  refine (Subrelation.wf (fun {t s} h => ?_) (InvImage.wf rank hwf)).apply s
  obtain ⟨a, ha, hst⟩ := h
  exact hrank s a t ha hst

end Interleave

end Nslc
