import Nslc.Common.Ending
/-!
# What a rule leaves behind

`Ensures` is the triple of a rule on states: from a state that meets the
first condition, value and state meet the second in a run without bad
notes.
-/

namespace Nslc

namespace Descent

variable {σ ε α β ω : Type} (v : View σ ε ω)

def Ensures (pre : σ → Prop) (p : Rule σ ε α) (post : α → σ → Prop) : Prop :=
  ∀ s a s' notes, pre s → p s = .ok a s' notes → v.Clean notes → post a s'

variable {v} {pre : σ → Prop} {p : Rule σ ε α} {post : α → σ → Prop}

theorem ensures_pure {a : α} (h : ∀ s, pre s → post a s) :
    Ensures v pre (pure a : Rule σ ε α) post := by
  intro s b s' notes hs heq _
  obtain ⟨rfl, rfl, -⟩ := Outcome.ok.inj heq
  exact h s hs

theorem ensures_spinning : Ensures v pre (Rule.spinning : Rule σ ε α) post :=
  fun _ _ _ _ _ heq => by cases heq

/-- **Sequence.** -/
theorem Ensures.bind {f : α → Rule σ ε β} {post' : β → σ → Prop} (hp : Ensures v pre p post)
    (hf : ∀ a, Ensures v (post a) (f a) post') : Ensures v pre (p >>= f) post' := by
  intro s b s' notes hs heq hclean
  obtain ⟨a, s₁, first, more, hps, hfs, rfl⟩ := bind_eq_ok heq
  obtain ⟨hfirst, hmore⟩ := View.clean_append.1 hclean
  exact hf a s₁ b s' more (hp s a s₁ first hs hps hfirst) hfs hmore

/-- **Consequence.** -/
theorem Ensures.mono {pre' : σ → Prop} {post' : α → σ → Prop} (hp : Ensures v pre p post)
    (hpre : ∀ s, pre' s → pre s) (hpost : ∀ a s, post a s → post' a s) :
    Ensures v pre' p post' :=
  fun s a s' notes hs heq hclean => hpost a s' (hp s a s' notes (hpre s hs) heq hclean)

/-- What is not about the state stays. -/
theorem ensures_of_fact {fact : Prop} (h : fact → Ensures v pre p post) :
    Ensures v (fun s => fact ∧ pre s) p post :=
  fun s a s' notes hs heq hclean => h hs.1 s a s' notes hs.2 heq hclean

/-- A rule with nothing said of it. -/
theorem ensures_true (p : Rule σ ε α) : Ensures v pre p fun _ _ => True :=
  fun _ _ _ _ _ _ _ => trivial

/-- Behind a rule of which nothing is said. -/
theorem ensures_then {f : α → Rule σ ε β} {post : β → σ → Prop}
    (hf : ∀ a, Ensures v (fun _ => True) (f a) post) : Ensures v pre (p >>= f) post :=
  (ensures_true p).bind hf

/-- **Loop.** -/
theorem ensures_loop {step : α → Rule σ ε (α ⊕ β)} (inv : α → σ → Prop) {post : β → σ → Prop}
    (hstep : ∀ a, Ensures v (inv a) (step a) fun r s =>
      match r with
      | .inl a' => inv a' s
      | .inr b => post b s) (n : ℕ) (a : α) : Ensures v (inv a) (Rule.loop step n a) post := by
  induction n generalizing a with
  | zero => exact ensures_spinning
  | succ n ih =>
    refine (hstep a).bind fun r => ?_
    cases r with
    | inl a' => exact ih a'
    | inr b => exact ensures_pure fun _ h => h

/-- Behind a bad note there is nothing left to show. -/
theorem ensures_reject {e : ε} (hbad : v.bad e) {q : Rule σ ε α} :
    Ensures v pre (Rule.note e >>= fun _ => q) post := by
  intro s a s' notes _ heq hclean
  obtain ⟨u, s₁, first, more, hnote, -, rfl⟩ := bind_eq_ok heq
  have hfirst : [e] = first := (Outcome.ok.inj hnote).2.2
  exact absurd hbad (hclean e (by simp [← hfirst]))

end Descent

end Nslc
