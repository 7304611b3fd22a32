import Nslc.Common.Ending
/-!
# Rules that answer

A rule that is given iterations `Answers` on a state if, from some number
of iterations on, it has one value there, makes no note and leaves one
state behind. How many it takes is not said, so sequences and loops go
together without counting.
-/

namespace Nslc

namespace Descent

variable {σ ε α β : Type}

theorem Outcome.after_nil (o : Outcome σ ε α) : o.after [] = o := by cases o <;> rfl

theorem Rule.bind_assoc {γ : Type} (p : Rule σ ε α) (f : α → Rule σ ε β) (g : β → Rule σ ε γ) :
    (p >>= f) >>= g = p >>= fun a => f a >>= g := by
  funext s
  cases hp : p s with
  | ok a s₁ first =>
    rw [bind_of_ok hp]
    cases hf : f a s₁ with
    | ok b s₂ more =>
      have hpf : (p >>= f) s = .ok b s₂ (first ++ more) := by rw [bind_of_ok hp, hf, Outcome.after]
      rw [bind_of_ok hpf, bind_of_ok hf]
      cases g b s₂ <;> simp [Outcome.after]
    | fail s₂ more =>
      have hpf : (p >>= f) s = .fail s₂ (first ++ more) := by rw [bind_of_ok hp, hf, Outcome.after]
      rw [bind_of_fail hpf, bind_of_fail hf, Outcome.after]
    | spin =>
      have hpf : (p >>= f) s = .spin := by rw [bind_of_ok hp, hf, Outcome.after]
      rw [bind_of_spin hpf, bind_of_spin hf, Outcome.after]
  | fail s₁ first => rw [bind_of_fail (bind_of_fail hp), bind_of_fail hp]
  | spin => rw [bind_of_spin (bind_of_spin hp), bind_of_spin hp]

/-- The value and the state behind it meet the condition. -/
def Answers (p : ℕ → Rule σ ε α) (s : σ) (post : α → σ → Prop) : Prop :=
  ∃ a s', post a s' ∧ ∃ least, ∀ n, least ≤ n → p n s = .ok a s' []

variable {p : ℕ → Rule σ ε α} {s : σ} {post : α → σ → Prop}

theorem answers_of_eq {a : α} {s' : σ} (h : ∀ n, p n s = .ok a s' []) (hpost : post a s') :
    Answers p s post :=
  ⟨a, s', hpost, 0, fun n _ => h n⟩

theorem answers_pure {a : α} (h : post a s) : Answers (fun _ => (pure a : Rule σ ε α)) s post :=
  answers_of_eq (fun _ => rfl) h

/-- **Sequence.** -/
theorem Answers.bind {f : ℕ → α → Rule σ ε β} {post' : β → σ → Prop} (hp : Answers p s post)
    (hf : ∀ a s', post a s' → Answers (fun n => f n a) s' post') :
    Answers (fun n => p n >>= f n) s post' := by
  obtain ⟨a, s₁, hpost, least, heq⟩ := hp
  obtain ⟨b, s', hpost', least', heq'⟩ := hf a s₁ hpost
  refine ⟨b, s', hpost', max least least', fun n hn => ?_⟩
  have hfirst := heq n (le_of_max_le_left hn)
  have hrest := heq' n (le_of_max_le_right hn)
  exact (bind_of_ok hfirst).trans ((Outcome.after_nil _).trans hrest)

/-- **Consequence.** -/
theorem Answers.mono {post' : α → σ → Prop} (hp : Answers p s post)
    (h : ∀ a s', post a s' → post' a s') : Answers p s post' := by
  obtain ⟨a, s', hpost, heq⟩ := hp
  exact ⟨a, s', h a s' hpost, heq⟩

/-- One iteration more is needed for the recursion. -/
theorem Answers.of_succ (h : Answers (fun n => p (n + 1)) s post) : Answers p s post := by
  obtain ⟨a, s', hpost, least, heq⟩ := h
  refine ⟨a, s', hpost, least + 1, fun n hn => ?_⟩
  obtain ⟨k, rfl⟩ : ∃ k, n = k + 1 := ⟨n - 1, by omega⟩
  exact heq k (by omega)

/-! ## Loops -/

variable {step : ℕ → α → Rule σ ε (α ⊕ β)} {a : α} {done : β → σ → Prop}

/-- A loop answers, whether its own iterations or those of its step run
ahead. -/
def LoopAnswers (step : ℕ → α → Rule σ ε (α ⊕ β)) (a : α) (s : σ) (done : β → σ → Prop) : Prop :=
  ∃ b s', done b s' ∧ ∃ least, ∀ n k, least ≤ n → least ≤ k →
    Rule.loop (step n) k a s = .ok b s' []

theorem LoopAnswers.answers (h : LoopAnswers step a s done) :
    Answers (fun n => Rule.loop (step n) n a) s done := by
  obtain ⟨b, s', hdone, least, heq⟩ := h
  exact ⟨b, s', hdone, least, fun n hn => heq n n hn hn⟩

/-- **An iteration that goes on.** -/
theorem loopAnswers_inl
    (h : Answers (fun n => step n a) s fun r s₁ => ∃ a', r = .inl a' ∧ LoopAnswers step a' s₁ done) :
    LoopAnswers step a s done := by
  obtain ⟨_, s₁, ⟨a', rfl, b, s', hdone, least', heq'⟩, least, heq⟩ := h
  refine ⟨b, s', hdone, max least least' + 1, fun n k hn hk => ?_⟩
  obtain ⟨m, rfl⟩ : ∃ m, k = m + 1 := ⟨k - 1, by omega⟩
  have hstep := heq n (by omega)
  have hrest := heq' n m (by omega) (by omega)
  rw [Rule.loop, bind_of_ok hstep]
  exact (Outcome.after_nil _).trans hrest

/-- **The last iteration.** -/
theorem loopAnswers_inr
    (h : Answers (fun n => step n a) s fun r s₁ => ∃ b, r = .inr b ∧ done b s₁) :
    LoopAnswers step a s done := by
  obtain ⟨_, s', ⟨b, rfl, hdone⟩, least, heq⟩ := h
  refine ⟨b, s', hdone, least + 1, fun n k hn hk => ?_⟩
  obtain ⟨m, rfl⟩ : ∃ m, k = m + 1 := ⟨k - 1, by omega⟩
  rw [Rule.loop, bind_of_ok (heq n (by omega))]
  rfl

end Descent

end Nslc
