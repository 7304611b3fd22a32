import Mathlib
/-!
# Runs of a partial step function

A machine is a partial function `step : σ → Option σ`, halted where it
answers `none`. `runUpto step n s` takes up to `n` steps from `s` and
stays where the machine halts. The rules below are the ones a
development over such a machine uses: an invariant kept by every step
whose source meets a guard, a relation two machines keep in lockstep,
and a measure that makes a machine halt, with the measure of a machine
that works off a stack of counters of bounded height.
-/

namespace Nslc

namespace Run

variable {σ τ : Type*} {step : σ → Option σ} {step' : τ → Option τ}

/-- Up to `n` steps from `s`, stopping where the machine halts. -/
def runUpto (step : σ → Option σ) : ℕ → σ → σ
  | 0, s => s
  | n + 1, s =>
    match step s with
    | none => s
    | some t => runUpto step n t

@[simp] theorem runUpto_zero (s : σ) : runUpto step 0 s = s := rfl

theorem runUpto_succ_of_some {s t : σ} (h : step s = some t) (n : ℕ) :
    runUpto step (n + 1) s = runUpto step n t := by
  simp only [runUpto, h]

theorem runUpto_of_none {s : σ} (h : step s = none) (n : ℕ) : runUpto step n s = s := by
  cases n with
  | zero => rfl
  | succ n => simp only [runUpto, h]

/-- A longer run is a shorter one continued. -/
theorem runUpto_add (m n : ℕ) (s : σ) :
    runUpto step (m + n) s = runUpto step n (runUpto step m s) := by
  induction m generalizing s with
  | zero => simp
  | succ m ih =>
    cases h : step s with
    | none => rw [runUpto_of_none h, runUpto_of_none h, runUpto_of_none h]
    | some t =>
      rw [Nat.succ_add, runUpto_succ_of_some h, runUpto_succ_of_some h, ih]

/-- The last step of a run. -/
theorem runUpto_succ (n : ℕ) (s : σ) :
    runUpto step (n + 1) s = (step (runUpto step n s)).getD (runUpto step n s) := by
  rw [runUpto_add]
  cases h : step (runUpto step n s) with
  | none => rw [runUpto_of_none h]; rfl
  | some t => rw [runUpto_succ_of_some h]; rfl

/-- Behind the step at which it halts, a machine stays where it is. -/
theorem runUpto_of_halted {s : σ} {n : ℕ} (h : step (runUpto step n s) = none) (k : ℕ) :
    ∃ m ≤ n, runUpto step k s = runUpto step m s := by
  rcases Nat.le_total k n with hk | hk
  · exact ⟨k, hk, rfl⟩
  · obtain ⟨j, rfl⟩ := Nat.exists_eq_add_of_le hk
    exact ⟨n, Nat.le_refl _, by rw [runUpto_add, runUpto_of_none h]⟩

/-- **The invariant rule.** What holds at the start and is kept by every
step taken from a state meeting the guard `G` holds along a run whose
states all meet `G`. -/
theorem runUpto_inv {P G : σ → Prop} {s : σ} {n : ℕ}
    (hstep : ∀ s t, P s → G s → step s = some t → P t)
    (hG : ∀ k < n, G (runUpto step k s)) (h0 : P s) : P (runUpto step n s) := by
  induction n with
  | zero => exact h0
  | succ n ih =>
    have hP : P (runUpto step n s) := ih fun k hk => hG k (by omega)
    rw [runUpto_succ]
    cases h : step (runUpto step n s) with
    | none => exact hP
    | some t => exact hstep _ t hP (hG n (by omega)) h

/-- **The lockstep rule.** Two machines that halt together and keep `R`
across a pair of steps, taken from states meeting `G` on the left, keep
`R` along runs of one length. -/
theorem runUpto_rel {R : σ → τ → Prop} {G : σ → Prop} {s : σ} {t : τ} {n : ℕ}
    (hhalt : ∀ s t, R s t → (step s = none ↔ step' t = none))
    (hstep : ∀ s t s' t', R s t → G s → step s = some s' → step' t = some t' → R s' t')
    (hG : ∀ k < n, G (runUpto step k s)) (h0 : R s t) :
    R (runUpto step n s) (runUpto step' n t) := by
  induction n with
  | zero => exact h0
  | succ n ih =>
    have hR : R (runUpto step n s) (runUpto step' n t) := ih fun k hk => hG k (by omega)
    rw [runUpto_succ, runUpto_succ]
    cases h : step (runUpto step n s) with
    | none =>
      rw [(hhalt _ _ hR).1 h]
      exact hR
    | some s' =>
      cases h' : step' (runUpto step' n t) with
      | none => exact absurd ((hhalt _ _ hR).2 h') (by simp [h])
      | some t' => exact hstep _ _ _ _ hR (hG n (by omega)) h h'

/-- **The measure rule.** A machine whose steps lower a measure, as long
as an invariant holds that they keep, halts within that many steps. -/
theorem exists_halted_of_measure {P : σ → Prop} {μ : σ → ℕ} {s : σ}
    (hstep : ∀ s t, P s → step s = some t → P t)
    (hμ : ∀ s t, P s → step s = some t → μ t < μ s) (h0 : P s) :
    ∃ n ≤ μ s, step (runUpto step n s) = none := by
  induction hm : μ s using Nat.strong_induction_on generalizing s with
  | _ m ih =>
    cases h : step s with
    | none => exact ⟨0, Nat.zero_le _, h⟩
    | some t =>
      have hlt : μ t < m := hm ▸ hμ s t h0 h
      obtain ⟨n, hn, hhalt⟩ := ih (μ t) hlt (hstep s t h0 h) rfl
      refine ⟨n + 1, by omega, ?_⟩
      rw [runUpto_succ_of_some h]
      exact hhalt

/-! ## A bounded stack of counters

A machine that counts the top of a stack down, may push a counter below
`B` whenever it does, and keeps the stack lower than `D`. -/

/-- The measure of the stack `r :: rs`, innermost counter first: a unit
of an outer counter is worth more than a whole inner one. -/
def stackWeight (B D : ℕ) : List ℕ → ℕ
  | [] => 0
  | r :: rs => (r + 1) * B ^ (D - rs.length) + stackWeight B D rs

variable {B D r r' q : ℕ} {rs : List ℕ}

theorem stackWeight_pop (hB : 0 < B) : stackWeight B D rs < stackWeight B D (r :: rs) := by
  have hpos : 0 < (r + 1) * B ^ (D - rs.length) := Nat.mul_pos (by omega) (Nat.pow_pos hB)
  simp only [stackWeight]
  omega

theorem stackWeight_count (hB : 0 < B) (h : r' < r) :
    stackWeight B D (r' :: rs) < stackWeight B D (r :: rs) := by
  have hlt : (r' + 1) * B ^ (D - rs.length) < (r + 1) * B ^ (D - rs.length) :=
    Nat.mul_lt_mul_of_pos_right (by omega) (Nat.pow_pos hB)
  simp only [stackWeight]
  omega

theorem stackWeight_push (hq : q + 1 < B) (h : r' < r) (hD : rs.length < D) :
    stackWeight B D (q :: r' :: rs) < stackWeight B D (r :: rs) := by
  obtain ⟨d, hd⟩ : ∃ d, D - rs.length = d + 1 := ⟨D - rs.length - 1, by omega⟩
  have hd' : D - (rs.length + 1) = d := by omega
  have hpow : 0 < B ^ d := Nat.pow_pos (by omega)
  -- the pushed counter is worth less than the unit that was counted off
  have hinner : (q + 1) * B ^ d < B ^ (d + 1) := by
    rw [Nat.pow_succ, Nat.mul_comm (B ^ d)]
    exact Nat.mul_lt_mul_of_pos_right hq hpow
  have houter : (r' + 1) * B ^ (d + 1) + B ^ (d + 1) ≤ (r + 1) * B ^ (d + 1) := by
    rw [← Nat.succ_mul]
    exact Nat.mul_le_mul_right _ (by omega)
  simp only [stackWeight, List.length_cons, hd, hd']
  omega

end Run

end Nslc
