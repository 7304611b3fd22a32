import Mathlib
/-!
# Rules of a recursive-descent parser

A rule works on a state and answers with a value, with nothing, or not
at all: `spin` stands for a rule that ran out of the iterations it was
given. In the first two cases it has notes to hand on, which add up.

`Reads` is the triple of a rule: what has been read before it, and what
its value says of all that has been read by then. It is about runs
without bad notes; a rule that answers with nothing makes one.
-/

namespace Nslc

namespace Descent

inductive Outcome (σ ε α : Type) where
  | ok (a : α) (s : σ) (notes : List ε)
  | fail (s : σ) (notes : List ε)
  | spin
  deriving DecidableEq, Repr

def Rule (σ ε α : Type) := σ → Outcome σ ε α

variable {σ ε α β ω : Type}

/-- Notes made before. -/
def Outcome.after (notes : List ε) : Outcome σ ε α → Outcome σ ε α
  | .ok a s more => .ok a s (notes ++ more)
  | .fail s more => .fail s (notes ++ more)
  | .spin => .spin

namespace Rule

protected def pure (a : α) : Rule σ ε α := fun s => .ok a s []

protected def bind (p : Rule σ ε α) (f : α → Rule σ ε β) : Rule σ ε β := fun s =>
  match p s with
  | .ok a s notes => (f a s).after notes
  | .fail s notes => .fail s notes
  | .spin => .spin

instance : Monad (Rule σ ε) where
  pure := Rule.pure
  bind := Rule.bind

def failed : Rule σ ε α := fun s => .fail s []

def spinning : Rule σ ε α := fun _ => .spin

def note (e : ε) : Rule σ ε Unit := fun s => .ok () s [e]

/-- Go on where a rule had nothing to return. -/
def attempt (p : Rule σ ε α) : Rule σ ε (Option α) := fun s =>
  match p s with
  | .ok a s notes => .ok (some a) s notes
  | .fail s notes => .ok none s notes
  | .spin => .spin

/-- Up to `n` iterations; an iteration goes on with `inl` and leaves the
loop with `inr`. -/
def loop (step : α → Rule σ ε (α ⊕ β)) : ℕ → α → Rule σ ε β
  | 0, _ => spinning
  | n + 1, a => do
    match ← step a with
    | .inl a => loop step n a
    | .inr b => return b

end Rule

/-! ## What a rule reads -/

/-- The words a state has before it, and the notes that are bad. -/
structure View (σ ε ω : Type) where
  words : σ → List ω
  bad : ε → Prop

namespace View

variable (v : View σ ε ω)

def Clean (notes : List ε) : Prop := ∀ e ∈ notes, ¬ v.bad e

variable {v}

theorem clean_append {notes more : List ε} :
    v.Clean (notes ++ more) ↔ v.Clean notes ∧ v.Clean more := by
  simp [Clean, or_imp, forall_and]

end View

variable (v : View σ ε ω)

/-- Having read `pre`, the rule answers with a value that meets `post`
with all that has been read by then. -/
structure Reads (p : Rule σ ε α) (pre : List ω) (post : α → List ω → Prop) : Prop where
  ok : ∀ s a s' notes, p s = .ok a s' notes → v.Clean notes →
    ∃ ws, v.words s = ws ++ v.words s' ∧ post a (pre ++ ws)
  fail : ∀ s s' notes, p s = .fail s' notes → ¬ v.Clean notes

variable {v} {p : Rule σ ε α} {pre : List ω} {post : α → List ω → Prop}

theorem reads_pure {a : α} (h : post a pre) : Reads v (pure a : Rule σ ε α) pre post := by
  refine ⟨fun s b s' notes heq _ => ?_, fun s s' notes heq => by cases heq⟩
  obtain ⟨rfl, rfl, -⟩ := Outcome.ok.inj heq
  exact ⟨[], rfl, by rwa [List.append_nil]⟩

/-- **Sequence.** -/
theorem reads_bind {f : α → Rule σ ε β} {mid : α → List ω → Prop} {post : β → List ω → Prop}
    (hp : Reads v p pre mid) (hf : ∀ a ws, mid a ws → Reads v (f a) ws post) :
    Reads v (p >>= f) pre post := by
  have hstep : ∀ s o, (p >>= f) s = o → (∃ a s₁ notes, p s = .ok a s₁ notes ∧
      (f a s₁).after notes = o) ∨ (∃ s₁ notes, p s = .fail s₁ notes ∧ o = .fail s₁ notes) ∨
      o = .spin := by
    rintro s o rfl
    change _ ∨ _ ∨ Rule.bind p f s = .spin
    cases hps : p s with
    | ok a s₁ notes =>
      refine .inl ⟨a, s₁, notes, rfl, ?_⟩
      change _ = Rule.bind p f s
      simp [Rule.bind, hps]
    | fail s₁ notes =>
      refine .inr (.inl ⟨s₁, notes, rfl, ?_⟩)
      change Rule.bind p f s = _
      simp [Rule.bind, hps]
    | spin => exact .inr (.inr (by simp [Rule.bind, hps]))
  constructor
  · intro s b s' notes heq hc
    rcases hstep s _ heq with ⟨a, s₁, first, hps, hf'⟩ | ⟨s₁, first, -, h⟩ | h
    · cases hfs : f a s₁ with
      | ok b' s₂ more =>
        rw [hfs] at hf'
        obtain ⟨rfl, rfl, rfl⟩ := Outcome.ok.inj hf'
        obtain ⟨hc₁, hc₂⟩ := View.clean_append.1 hc
        obtain ⟨ws, hws, hmid⟩ := hp.ok s a s₁ first hps hc₁
        obtain ⟨us, hus, hpost⟩ := (hf a _ hmid).ok s₁ b' s₂ more hfs hc₂
        exact ⟨ws ++ us, by rw [hws, hus, List.append_assoc], by rwa [← List.append_assoc]⟩
      | fail s₂ more =>
        rw [hfs] at hf'
        cases hf'
      | spin =>
        rw [hfs] at hf'
        cases hf'
    · cases h
    · cases h
  · intro s s' notes heq hc
    rcases hstep s _ heq with ⟨a, s₁, first, hps, hf'⟩ | ⟨s₁, first, hps, h⟩ | h
    · cases hfs : f a s₁ with
      | ok b' s₂ more =>
        rw [hfs] at hf'
        cases hf'
      | fail s₂ more =>
        rw [hfs] at hf'
        obtain ⟨rfl, rfl⟩ := Outcome.fail.inj hf'
        obtain ⟨hc₁, hc₂⟩ := View.clean_append.1 hc
        obtain ⟨ws, -, hmid⟩ := hp.ok s a s₁ first hps hc₁
        exact (hf a _ hmid).fail s₁ s₂ more hfs hc₂
      | spin =>
        rw [hfs] at hf'
        cases hf'
    · obtain ⟨rfl, rfl⟩ := Outcome.fail.inj h
      exact hp.fail s s' notes hps hc
    · cases h

variable (v) in
/-- The rule reads the words of its value. -/
def Yields (p : Rule σ ε α) (words : α → List ω) : Prop :=
  ∀ pre, Reads v p pre fun a ws => ws = pre ++ words a

theorem Yields.bind {words : α → List ω} {f : α → Rule σ ε β} {post : β → List ω → Prop}
    (hp : Yields v p words) (hf : ∀ a, Reads v (f a) (pre ++ words a) post) :
    Reads v (p >>= f) pre post := by
  refine reads_bind (hp pre) ?_
  rintro a ws rfl
  exact hf a

/-- **Consequence.** -/
theorem Reads.mono {post' : α → List ω → Prop} (hp : Reads v p pre post)
    (h : ∀ a ws, post a ws → post' a ws) : Reads v p pre post' := by
  refine ⟨fun s a s' notes heq hc => ?_, hp.fail⟩
  obtain ⟨ws, hws, hpost⟩ := hp.ok s a s' notes heq hc
  exact ⟨ws, hws, h a _ hpost⟩

theorem reads_spinning : Reads v (Rule.spinning : Rule σ ε α) pre post :=
  ⟨(fun _ _ _ _ heq => by cases heq), (fun _ _ _ heq => by cases heq)⟩

/-- **Loop.** The invariant holds of what has been read before each
iteration. -/
theorem reads_loop {step : α → Rule σ ε (α ⊕ β)} (inv : α → List ω → Prop)
    {post : β → List ω → Prop} (hstep : ∀ a ws, inv a ws →
      Reads v (step a) ws fun r us => (∀ a', r = .inl a' → inv a' us) ∧
        ∀ b, r = .inr b → post b us) (n : ℕ) {a : α} {pre : List ω} (h : inv a pre) :
    Reads v (Rule.loop step n a) pre post := by
  induction n generalizing a pre with
  | zero => exact reads_spinning
  | succ n ih =>
    refine reads_bind (hstep a pre h) fun r ws hr => ?_
    cases r with
    | inl a' => exact ih (hr.1 a' rfl)
    | inr b => exact reads_pure (hr.2 b rfl)

/-- A rule that is attempted in a clean run succeeds. -/
theorem reads_attempt (hp : Reads v p pre post) :
    Reads v p.attempt pre fun o ws => ∃ a, o = some a ∧ post a ws := by
  constructor
  · intro s o s' notes heq hc
    unfold Rule.attempt at heq
    split at heq
    · rename_i a s₁ first hps
      obtain ⟨rfl, rfl, rfl⟩ := Outcome.ok.inj heq
      obtain ⟨ws, hws, hpost⟩ := hp.ok s a s₁ first hps hc
      exact ⟨ws, hws, a, rfl, hpost⟩
    · rename_i s₁ first hps
      obtain ⟨-, rfl, rfl⟩ := Outcome.ok.inj heq
      exact absurd hc (hp.fail s s₁ first hps)
    · cases heq
  · intro s s' notes heq
    unfold Rule.attempt at heq
    split at heq <;> cases heq

/-- A bad note, and nothing is left to show. -/
theorem reads_reject {e : ε} (hbad : v.bad e) {q : Rule σ ε α} :
    Reads v (Rule.note e >>= fun _ => q) pre post := by
  have hnote : ∀ s, (Rule.note e >>= fun _ => q) s = (q s).after [e] := fun _ => rfl
  have hclean : ∀ more : List ε, ¬ v.Clean ([e] ++ more) := fun more hc =>
    hc e (by simp) hbad
  constructor
  · intro s a s' notes heq hc
    rw [hnote] at heq
    cases hq : q s with
    | ok b s₁ more =>
      rw [hq] at heq
      obtain ⟨rfl, rfl, rfl⟩ := Outcome.ok.inj heq
      exact absurd hc (hclean more)
    | fail s₁ more =>
      rw [hq] at heq
      cases heq
    | spin =>
      rw [hq] at heq
      cases heq
  · intro s s' notes heq
    rw [hnote] at heq
    cases hq : q s with
    | ok b s₁ more =>
      rw [hq] at heq
      cases heq
    | fail s₁ more =>
      rw [hq] at heq
      obtain ⟨rfl, rfl⟩ := Outcome.fail.inj heq
      exact hclean more
    | spin =>
      rw [hq] at heq
      cases heq

/-- Other notes change nothing. -/
theorem reads_note {e : ε} {post : Unit → List ω → Prop} (h : post () pre) :
    Reads v (Rule.note e : Rule σ ε Unit) pre post := by
  refine ⟨fun s a s' notes heq _ => ?_, fun s s' notes heq => by cases heq⟩
  obtain ⟨-, rfl, -⟩ := Outcome.ok.inj heq
  exact ⟨[], rfl, by rwa [List.append_nil]⟩

end Descent

end Nslc
