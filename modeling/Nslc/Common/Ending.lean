import Nslc.Common.Descent
/-!
# Rules of a recursive-descent parser that end

A rule that recurses or loops spins where it has used up the iterations
it was given. How many are enough is told by a size of the state: a rule
`Ends` on the states up to a size, and takes so much off a state for the
value it returns. `Below` compares two rules that were given different
numbers of iterations.
-/

namespace Nslc

namespace Descent

variable {σ ε α β : Type} {p : Rule σ ε α} {f : α → Rule σ ε β}

/-! ## The outcomes of a sequence -/

theorem bind_of_ok {s s₁ : σ} {a : α} {notes : List ε} (h : p s = .ok a s₁ notes) :
    (p >>= f) s = (f a s₁).after notes := by
  change Rule.bind p f s = _
  simp [Rule.bind, h]

theorem bind_of_fail {s s₁ : σ} {notes : List ε} (h : p s = .fail s₁ notes) :
    (p >>= f) s = .fail s₁ notes := by
  change Rule.bind p f s = _
  simp [Rule.bind, h]

theorem bind_of_spin {s : σ} (h : p s = .spin) : (p >>= f) s = .spin := by
  change Rule.bind p f s = _
  simp [Rule.bind, h]

theorem bind_eq_ok {s s' : σ} {b : β} {notes : List ε} (h : (p >>= f) s = .ok b s' notes) :
    ∃ a s₁ first more, p s = .ok a s₁ first ∧ f a s₁ = .ok b s' more ∧ notes = first ++ more := by
  cases hp : p s with
  | ok a s₁ first =>
    rw [bind_of_ok hp] at h
    cases hf : f a s₁ with
    | ok b' s₂ more =>
      rw [hf] at h
      obtain ⟨rfl, rfl, rfl⟩ := Outcome.ok.inj h
      exact ⟨a, s₁, first, more, rfl, hf, rfl⟩
    | fail s₂ more =>
      rw [hf] at h
      cases h
    | spin =>
      rw [hf] at h
      cases h
  | fail s₁ first =>
    rw [bind_of_fail hp] at h
    cases h
  | spin =>
    rw [bind_of_spin hp] at h
    cases h

theorem bind_eq_spin {s : σ} (h : (p >>= f) s = .spin) :
    p s = .spin ∨ ∃ a s₁ first, p s = .ok a s₁ first ∧ f a s₁ = .spin := by
  cases hp : p s with
  | ok a s₁ first =>
    rw [bind_of_ok hp] at h
    cases hf : f a s₁ with
    | ok b' s₂ more =>
      rw [hf] at h
      cases h
    | fail s₂ more =>
      rw [hf] at h
      cases h
    | spin => exact .inr ⟨a, s₁, first, rfl, hf⟩
  | fail s₁ first =>
    rw [bind_of_fail hp] at h
    cases h
  | spin => exact .inl rfl

/-! ## Size -/

variable (size : σ → ℕ)

/-- On a state of size at most `n` the rule does not spin, and with a
value it takes so much off the state. -/
structure Ends (n : ℕ) (p : Rule σ ε α) (taken : α → ℕ) : Prop where
  halts : ∀ s, size s ≤ n → p s ≠ .spin
  ok : ∀ s a s' notes, size s ≤ n → p s = .ok a s' notes → size s' + taken a ≤ size s

variable {size} {taken : α → ℕ} {taken' : β → ℕ} {n m : ℕ}

theorem ends_pure {a : α} (h : taken a = 0) : Ends size n (pure a : Rule σ ε α) taken := by
  refine ⟨fun s _ hspin => (by cases hspin), fun s b s' notes _ heq => ?_⟩
  obtain ⟨rfl, rfl, -⟩ := Outcome.ok.inj heq
  rw [h]
  exact le_rfl

theorem ends_note (e : ε) : Ends size n (Rule.note e : Rule σ ε Unit) fun _ => 0 := by
  refine ⟨fun s _ hspin => (by cases hspin), fun s b s' notes _ heq => ?_⟩
  obtain ⟨-, rfl, -⟩ := Outcome.ok.inj heq
  exact le_rfl

/-- **Sequence.** The second rule is run on what the first has left. -/
theorem Ends.bind (hp : Ends size n p taken)
    (hf : ∀ a, taken a ≤ n → Ends size (n - taken a) (f a) fun b => taken' b - taken a) :
    Ends size n (p >>= f) taken' := by
  constructor
  · intro s hs hspin
    rcases bind_eq_spin hspin with hps | ⟨a, s₁, first, hps, hfs⟩
    · exact hp.halts s hs hps
    · have hfirst := hp.ok s a s₁ first hs hps
      exact (hf a (by omega)).halts s₁ (by omega) hfs
  · intro s b s' notes hs heq
    obtain ⟨a, s₁, first, more, hps, hfs, -⟩ := bind_eq_ok heq
    have hfirst := hp.ok s a s₁ first hs hps
    have hmore := (hf a (by omega)).ok s₁ b s' more (by omega) hfs
    omega

/-- **Consequence.** -/
theorem Ends.mono (hp : Ends size n p taken) (h : m ≤ n) {less : α → ℕ}
    (hless : ∀ a, less a ≤ taken a) : Ends size m p less := by
  refine ⟨fun s hs => hp.halts s (hs.trans h), fun s a s' notes hs heq => ?_⟩
  have htaken := hp.ok s a s' notes (hs.trans h) heq
  have := hless a
  omega

/-- **Loop.** An iteration that goes on takes something, so one more than
the size of the state are enough. -/
theorem ends_loop {step : α → Rule σ ε (α ⊕ β)}
    (hstep : ∀ a, Ends size n (step a) fun r => if r.isLeft then 1 else 0) {iterations : ℕ}
    (h : n < iterations) (a : α) : Ends size n (Rule.loop step iterations a) fun _ => 0 := by
  induction iterations generalizing a n with
  | zero => exact absurd h (Nat.not_lt_zero n)
  | succ k ih =>
    refine (hstep a).bind fun r htaken => ?_
    cases r with
    | inl a' =>
      have hone : 1 ≤ n := htaken
      have hgo := ih (fun a => (hstep a).mono (Nat.sub_le n 1) fun _ => le_rfl) (by omega) a'
      exact hgo.mono le_rfl fun _ => Nat.zero_le _
    | inr b => exact ends_pure rfl

/-- After a turn that has taken and changed nothing there is no end. -/
theorem loop_spins {step : α → Rule σ ε (α ⊕ β)} {a : α} {s : σ} {notes : List ε}
    (h : step a s = .ok (.inl a) s notes) (n : ℕ) : Rule.loop step n a s = .spin := by
  induction n with
  | zero => rfl
  | succ n ih =>
    rw [Rule.loop, bind_of_ok h]
    change (Rule.loop step n a s).after notes = .spin
    rw [ih]
    rfl

/-! ## More iterations -/

/-- Where `p` does not spin, `q` does the same. -/
def Rule.Below (p q : Rule σ ε α) : Prop := ∀ s, p s ≠ .spin → q s = p s

theorem Rule.Below.refl (p : Rule σ ε α) : p.Below p := fun _ _ => rfl

theorem below_of_spinning (q : Rule σ ε α) : (Rule.spinning : Rule σ ε α).Below q :=
  fun _ h => absurd rfl h

theorem Rule.Below.bind {q : Rule σ ε α} {g : α → Rule σ ε β} (hpq : p.Below q)
    (hfg : ∀ a, (f a).Below (g a)) : (p >>= f).Below (q >>= g) := by
  intro s hspin
  cases hp : p s with
  | ok a s₁ first =>
    have hq : q s = .ok a s₁ first := (hpq s (by simp [hp])).trans hp
    have hf : f a s₁ ≠ .spin := fun hf => hspin (by rw [bind_of_ok hp, hf]; rfl)
    rw [bind_of_ok hp, bind_of_ok hq, hfg a s₁ hf]
  | fail s₁ first =>
    have hq : q s = .fail s₁ first := (hpq s (by simp [hp])).trans hp
    rw [bind_of_fail hp, bind_of_fail hq]
  | spin => exact absurd (bind_of_spin hp) hspin

theorem below_loop {step step' : α → Rule σ ε (α ⊕ β)} (hstep : ∀ a, (step a).Below (step' a))
    (h : n ≤ m) (a : α) : (Rule.loop step n a).Below (Rule.loop step' m a) := by
  induction n generalizing m a with
  | zero => exact below_of_spinning _
  | succ n ih =>
    obtain ⟨m, rfl⟩ := Nat.exists_eq_add_of_lt h
    refine (hstep a).bind fun r => ?_
    cases r with
    | inl a' => exact ih (by omega) a'
    | inr b => exact Rule.Below.refl _

end Descent

end Nslc
