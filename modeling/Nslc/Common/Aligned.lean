import Mathlib
/-!
# Two lists made part by part

Each part adds to both lists, and no more to the second than to the
first. If the lists agree position by position then so do the parts.
-/

namespace Nslc

namespace Aligned

variable {α β ι : Type} {R : α → β → Prop} {f : ι → List α} {g : ι → List β} {is : List ι}

theorem length_flatMap_le (hle : ∀ i ∈ is, (g i).length ≤ (f i).length) :
    (is.flatMap g).length ≤ (is.flatMap f).length := by
  induction is with
  | nil => simp
  | cons i is ih =>
    have hhead := hle i (by simp)
    have htail := ih fun j hj => hle j (by simp [hj])
    simp only [List.flatMap_cons, List.length_append]
    omega

/-- Lists that agree and begin with parts of one length. -/
theorem forall₂_of_append {as as' : List α} {bs bs' : List β} (hlen : as.length = bs.length)
    (h : List.Forall₂ R (as ++ as') (bs ++ bs')) : List.Forall₂ R as bs ∧ List.Forall₂ R as' bs' := by
  have htake := List.forall₂_take_append _ bs bs' h
  have hdrop := List.forall₂_drop_append _ bs bs' h
  rw [← hlen] at htake hdrop
  rw [List.take_left] at htake
  rw [List.drop_left] at hdrop
  exact ⟨htake, hdrop⟩

/-- **Agreement part by part.** -/
theorem forall₂_flatMap_iff (hle : ∀ i ∈ is, (g i).length ≤ (f i).length) :
    List.Forall₂ R (is.flatMap f) (is.flatMap g) ↔ ∀ i ∈ is, List.Forall₂ R (f i) (g i) := by
  induction is with
  | nil => simp
  | cons i is ih =>
    have hhead := hle i (by simp)
    have htail : ∀ j ∈ is, (g j).length ≤ (f j).length := fun j hj => hle j (by simp [hj])
    rw [List.flatMap_cons, List.flatMap_cons, List.forall_mem_cons, ← ih htail]
    constructor
    · intro h
      -- the rest of the second list is not longer either, so no part is shorter
      have hsum := h.length_eq
      have hrest := length_flatMap_le htail
      simp only [List.length_append] at hsum
      exact forall₂_of_append (by omega) h
    · rintro ⟨hi, his⟩
      exact List.rel_append hi his

/-- The parts that have something. -/
def filled (ls : List (List α)) : List (List α) := ls.filter fun l => !l.isEmpty

@[simp] theorem filled_nil : filled ([] : List (List α)) = [] := rfl

@[simp] theorem filled_append (ls ks : List (List α)) : filled (ls ++ ks) = filled ls ++ filled ks :=
  List.filter_append ..

theorem filled_cons (l : List α) (ls : List (List α)) : filled (l :: ls) = filled [l] ++ filled ls :=
  filled_append [l] ls

theorem flatten_filled (ls : List (List α)) : (filled ls).flatten = ls.flatten := by
  induction ls with
  | nil => rfl
  | cons l ls ih =>
    cases l with
    | nil => simpa [filled] using ih
    | cons a l => simpa [filled] using ih

theorem forall₂_flatten {ls : List (List α)} {ks : List (List β)}
    (h : List.Forall₂ (List.Forall₂ R) ls ks) : List.Forall₂ R ls.flatten ks.flatten := by
  induction h with
  | nil => exact .nil
  | cons hl _ ih => exact List.rel_append hl ih

/-- **Agreement of the parts that have something.** -/
theorem forall₂_filled_iff (hle : ∀ i ∈ is, (g i).length ≤ (f i).length) :
    List.Forall₂ (List.Forall₂ R) (filled (is.map f)) (filled (is.map g)) ↔
      ∀ i ∈ is, List.Forall₂ R (f i) (g i) := by
  constructor
  · intro h
    have hflat := forall₂_flatten h
    rw [flatten_filled, flatten_filled, ← List.flatMap_def, ← List.flatMap_def] at hflat
    exact (forall₂_flatMap_iff hle).1 hflat
  · intro h
    clear hle
    induction is with
    | nil => exact .nil
    | cons i is ih =>
      have hi := h i (by simp)
      have his := ih fun j hj => h j (by simp [hj])
      rw [List.map_cons, List.map_cons, filled_cons, filled_cons (g i)]
      refine List.rel_append ?_ his
      cases hf : f i with
      | nil =>
        rw [hf, List.forall₂_nil_left_iff] at hi
        rw [hi]
        exact .nil
      | cons a as =>
        rw [hf] at hi
        cases hg : g i with
        | nil =>
          rw [hg] at hi
          cases hi
        | cons b bs =>
          rw [hg] at hi
          exact .cons hi .nil

end Aligned

end Nslc
