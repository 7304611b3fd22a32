import Mathlib
/-!
# Two selections from one list

A list falls into a part that is looked at and the rest. What one test
selects from the part is, with multiplicities, what another selects from
the whole exactly if no item is missed and none is selected in error.
-/

namespace Nslc

open Classical in
/-- What is selected from a part is what is selected from the whole
exactly where the part has all of it. -/
theorem filter_perm_filter_iff {α : Type*} {whole part rest : List α}
    (h : whole.Perm (part ++ rest)) (f g : α → Prop) :
    (part.filter f).Perm (whole.filter g) ↔
      ∀ u ∈ whole, (f u → g u → u ∉ rest) ∧ (f u → ¬ g u → u ∉ part) ∧ (g u → f u) := by
  have hcount : ∀ (l : List α) (p : α → Prop) (u : α),
      (l.filter p).count u = if p u then l.count u else 0 := by
    intro l p u
    split
    · exact List.count_filter (by simpa)
    · refine List.count_eq_zero.2 fun hmem => ?_
      have := (List.mem_filter.1 hmem).2
      simp_all
  have hwhole : ∀ u, whole.count u = part.count u + rest.count u := fun u => by
    rw [h.count_eq, List.count_append]
  rw [List.perm_iff_count]
  constructor
  · intro heq u hu
    have hu' := heq u
    rw [hcount, hcount] at hu'
    have hpos : 0 < whole.count u := List.count_pos_iff.2 hu
    have hsum := hwhole u
    refine ⟨fun hf hg hmem => ?_, fun hf hg hmem => ?_, fun hg => ?_⟩
    · have := List.count_pos_iff.2 hmem
      rw [if_pos hf, if_pos hg] at hu'
      omega
    · have := List.count_pos_iff.2 hmem
      rw [if_pos hf, if_neg hg] at hu'
      omega
    · by_contra hf
      rw [if_neg hf, if_pos hg] at hu'
      omega
  · intro hall u
    rw [hcount, hcount]
    have hsum := hwhole u
    by_cases hu : u ∈ whole
    · obtain ⟨hboth, hpart, himp⟩ := hall u hu
      by_cases hf : f u
      · rw [if_pos hf]
        by_cases hg : g u
        · have := List.count_eq_zero.2 (hboth hf hg)
          rw [if_pos hg]
          omega
        · have := List.count_eq_zero.2 (hpart hf hg)
          rw [if_neg hg]
          omega
      · rw [if_neg hf, if_neg (mt himp hf)]
    · have := List.count_eq_zero.2 hu
      split <;> split <;> omega

end Nslc
