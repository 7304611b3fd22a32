import Mathlib
/-!
# Ordered assignments and simultaneous equations

A list of assignments in which every value read is there before it is
read and no target is assigned twice settles to the one environment that
satisfies all of them at once. So two such orders of the same
assignments settle to the same environment.
-/

namespace Nslc

variable {V B : Type} [DecidableEq V]

/-- `target` becomes a function of the values of `reads`. -/
structure Assign (V B : Type) where
  target : V
  reads : List V
  value : List B → B

namespace Assign

def run (σ : V → B) (a : Assign V B) : V → B :=
  Function.update σ a.target (a.value (a.reads.map σ))

/-- The environment satisfies the assignment as an equation. -/
def Holds (σ : V → B) (a : Assign V B) : Prop := σ a.target = a.value (a.reads.map σ)

/-- Behind the values `known`, every read is known and every target new. -/
def Ordered (known : List V) : List (Assign V B) → Prop
  | [] => True
  | a :: as => (∀ v ∈ a.reads, v ∈ known) ∧ a.target ∉ known ∧ Ordered (a.target :: known) as

end Assign

open Assign

/-- All assignments in order. -/
def settle (σ : V → B) (as : List (Assign V B)) : V → B := as.foldl Assign.run σ

variable {known : List V} {as bs : List (Assign V B)} {σ τ : V → B} {v : V}

/-- What is known stays. -/
theorem settle_known (h : Ordered known as) (hv : v ∈ known) : settle σ as v = σ v := by
  induction as generalizing known σ with
  | nil => rfl
  | cons a as ih =>
    obtain ⟨-, hnew, hrest⟩ := h
    have hne : v ≠ a.target := fun he => hnew (he ▸ hv)
    exact (ih hrest (by simp [hv])).trans (Function.update_of_ne hne _ _)

/-- **The settled environment satisfies every assignment.** -/
theorem settle_holds (h : Ordered known as) : ∀ a ∈ as, a.Holds (settle σ as) := by
  induction as generalizing known σ with
  | nil => simp
  | cons a as ih =>
    obtain ⟨hreads, hnew, hrest⟩ := h
    intro b hb
    rcases List.mem_cons.1 hb with rfl | hb
    · have htarget : settle (b.run σ) as b.target = b.value (b.reads.map σ) :=
        (settle_known hrest (by simp)).trans (Function.update_self _ _ _)
      have hsame : b.reads.map (settle (b.run σ) as) = b.reads.map σ := by
        refine List.map_congr_left fun v hv => ?_
        have hk := hreads v hv
        have hne : v ≠ b.target := fun he => hnew (he ▸ hk)
        exact (settle_known hrest (by simp [hk])).trans (Function.update_of_ne hne _ _)
      show settle (b.run σ) as b.target = b.value (b.reads.map (settle (b.run σ) as))
      rw [hsame]
      exact htarget
    · exact ih hrest b hb

/-- **It is the only one.** -/
theorem settle_unique (h : Ordered known as) (hτ : ∀ a ∈ as, a.Holds τ)
    (hknown : ∀ v ∈ known, τ v = σ v) :
    ∀ v ∈ known ++ as.map target, settle σ as v = τ v := by
  induction as generalizing known σ with
  | nil =>
    intro v hv
    exact (hknown v (by simpa using hv)).symm
  | cons a as ih =>
    obtain ⟨hreads, hnew, hrest⟩ := h
    have hstep : ∀ v ∈ a.target :: known, τ v = a.run σ v := by
      intro v hv
      by_cases he : v = a.target
      · subst he
        have hmap : a.reads.map τ = a.reads.map σ :=
          List.map_congr_left fun v hv => hknown v (hreads v hv)
        rw [hτ a (by simp), hmap, run, Function.update_self]
      · rcases List.mem_cons.1 hv with hv | hv
        · exact absurd hv he
        · exact (hknown v hv).trans (Function.update_of_ne he _ _).symm
    intro v hv
    refine ih hrest (fun b hb => hτ b (by simp [hb])) hstep v ?_
    simp only [List.map_cons, List.mem_append, List.mem_cons] at hv ⊢
    tauto

/-- Two orders of the same assignments settle to the same environment. -/
theorem settle_perm (hp : as.Perm bs) (ha : Ordered [] as) (hb : Ordered [] bs) :
    ∀ v ∈ as.map target, settle σ as v = settle σ bs v := by
  intro v hv
  refine settle_unique ha (fun a h => ?_) (by simp) v (by simpa using hv)
  exact settle_holds hb a (hp.mem_iff.1 h)

end Nslc
