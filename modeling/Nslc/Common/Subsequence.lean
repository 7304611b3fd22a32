import Mathlib
/-!
# Longest common subsequences

The length of a longest common subsequence of two lists, by what it is
and not by how it is found, and how it follows from the lists without
their last items.
-/

namespace Nslc

variable {α : Type*}

/-- `n` is the length of a longest common subsequence. -/
structure IsLongest (n : ℕ) (a b : List α) : Prop where
  attained : ∃ c : List α, c.Sublist a ∧ c.Sublist b ∧ c.length = n
  bound : ∀ c : List α, c.Sublist a → c.Sublist b → c.length ≤ n

namespace IsLongest

theorem unique {m n : ℕ} {a b : List α} (hm : IsLongest m a b) (hn : IsLongest n a b) :
    m = n := by
  obtain ⟨c, hca, hcb, rfl⟩ := hm.attained
  obtain ⟨d, hda, hdb, rfl⟩ := hn.attained
  exact Nat.le_antisymm (hn.bound c hca hcb) (hm.bound d hda hdb)

theorem nil_left (b : List α) : IsLongest 0 [] b where
  attained := ⟨[], List.nil_sublist _, List.nil_sublist _, rfl⟩
  bound c hc _ := by rw [List.sublist_nil.1 hc, List.length_nil]

theorem nil_right (a : List α) : IsLongest 0 a [] where
  attained := ⟨[], List.nil_sublist _, List.nil_sublist _, rfl⟩
  bound c _ hc := by rw [List.sublist_nil.1 hc, List.length_nil]

/-- A subsequence either leaves the last item out or ends with it. -/
theorem sublist_concat {c a : List α} {x : α} (h : c.Sublist (a ++ [x])) :
    c.Sublist a ∨ ∃ d, c = d ++ [x] ∧ d.Sublist a := by
  obtain ⟨d, e, rfl, hd, he⟩ := List.sublist_append_iff.1 h
  obtain rfl | rfl := List.sublist_singleton.1 he
  · exact .inl (by rwa [List.append_nil])
  · exact .inr ⟨d, rfl, hd⟩

theorem sublist_of_concat {d a : List α} {x z : α} (h : (d ++ [z]).Sublist (a ++ [x])) :
    d.Sublist a := by
  obtain hshort | ⟨e, he, hsub⟩ := sublist_concat h
  · exact (List.sublist_append_left d [z]).trans hshort
  · rwa [(List.append_inj' he rfl).1]

/-- The same last item belongs to a longest one. -/
theorem concat_same {n : ℕ} {a b : List α} (h : IsLongest n a b) (x : α) :
    IsLongest (n + 1) (a ++ [x]) (b ++ [x]) where
  attained := by
    obtain ⟨c, hca, hcb, rfl⟩ := h.attained
    exact ⟨c ++ [x], hca.append_right [x], hcb.append_right [x], by simp⟩
  bound c hca hcb := by
    obtain rfl | ⟨d, z, rfl⟩ := List.eq_nil_or_concat' c
    · exact Nat.zero_le _
    · have hd := h.bound d (sublist_of_concat hca) (sublist_of_concat hcb)
      rw [List.length_append, List.length_singleton]
      omega

/-- Of two different last items a longest one leaves one out. -/
theorem concat_ne {m n : ℕ} {a b : List α} {x y : α} (hne : x ≠ y)
    (hm : IsLongest m a (b ++ [y])) (hn : IsLongest n (a ++ [x]) b) :
    IsLongest (max m n) (a ++ [x]) (b ++ [y]) where
  attained := by
    obtain hle | hle := Nat.le_total m n
    · obtain ⟨c, hca, hcb, hlen⟩ := hn.attained
      exact ⟨c, hca, hcb.trans (List.sublist_append_left b [y]), by omega⟩
    · obtain ⟨c, hca, hcb, hlen⟩ := hm.attained
      exact ⟨c, hca.trans (List.sublist_append_left a [x]), hcb, by omega⟩
  bound c hca hcb := by
    obtain hshort | ⟨d, rfl, -⟩ := sublist_concat hca
    · exact (hm.bound c hshort hcb).trans (Nat.le_max_left m n)
    · obtain hshort | ⟨e, he, -⟩ := sublist_concat hcb
      · exact (hn.bound _ hca hshort).trans (Nat.le_max_right m n)
      · exact absurd (List.singleton_injective (List.append_inj' he rfl).2) hne

end IsLongest

end Nslc
