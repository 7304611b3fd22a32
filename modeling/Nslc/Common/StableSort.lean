import Mathlib
/-!
# Stable sorting by a key

A list sorted by a key that may tie: nothing is lost, the keys ascend,
and items of one key keep their order.
-/

namespace Nslc

namespace StableSort

variable {α κ : Type*} [LinearOrder κ] (key : α → κ)

/-- **`after` is `before` sorted stably** by `key`. -/
structure StablySorted (before after : List α) : Prop where
  perm : after.Perm before
  sorted : after.Pairwise fun a b => key a ≤ key b
  stable : ∀ k, (after.filter fun a => key a = k) = before.filter fun a => key a = k

/-- A comparison of keys. -/
def keyLe (a b : α) : Bool := decide (key a ≤ key b)

theorem keyLe_trans (a b c : α) (hab : keyLe key a b = true) (hbc : keyLe key b c = true) :
    keyLe key a c = true :=
  decide_eq_true ((of_decide_eq_true hab).trans (of_decide_eq_true hbc))

theorem keyLe_total (a b : α) : (keyLe key a b || keyLe key b a) = true := by
  rw [keyLe, keyLe, ← Bool.decide_or]
  exact decide_eq_true (le_total (key a) (key b))

/-- Merge sort is stable. -/
theorem stablySorted_mergeSort (l : List α) :
    StablySorted key l (l.mergeSort (keyLe key)) where
  perm := List.mergeSort_perm l (keyLe key)
  sorted := (List.pairwise_mergeSort (keyLe_trans key) (keyLe_total key) l).imp
    fun h => of_decide_eq_true h
  stable := by
    intro k
    -- the items of one key are in order, so sorting keeps them
    have hties : (l.filter fun a => key a = k).Pairwise fun a b => keyLe key a b = true := by
      refine List.pairwise_of_forall_mem_list fun a ha b hb => ?_
      have hak : key a = k := by simpa using (List.mem_filter.1 ha).2
      have hbk : key b = k := by simpa using (List.mem_filter.1 hb).2
      exact decide_eq_true (by rw [hak, hbk])
    have hsub : (l.filter fun a => key a = k).Sublist (l.mergeSort (keyLe key)) :=
      List.sublist_mergeSort (keyLe_trans key) (keyLe_total key) hties List.filter_sublist
    have hfilter := hsub.filter fun a => decide (key a = k)
    rw [List.filter_filter] at hfilter
    simp only [Bool.and_self] at hfilter
    exact (hfilter.eq_of_length ((List.mergeSort_perm l (keyLe key)).filter _).length_eq.symm).symm

end StableSort

end Nslc
