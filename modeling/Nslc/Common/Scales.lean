import Mathlib
/-!
# Two scales over one list

Each item of a list has a positive size on two scales. An offset on one
scale is rounded down to the items that fit under it and read off on the
other. At the bounds between the items the two readings are inverse to
each other.
-/

namespace Nslc

namespace Scales

variable {α : Type*} (v w : α → ℕ)

/-- The size of a list on a scale. -/
def extent (l : List α) : ℕ := (l.map w).sum

/-- The items that fit under a limit, from the front. -/
def within : ℕ → List α → List α
  | _, [] => []
  | limit, a :: as => if w a ≤ limit then a :: within (limit - w a) as else []

/-- An offset on the scale `v`, rounded down and read off on `w`. -/
def across (limit : ℕ) (l : List α) : ℕ := extent w (within v limit l)

@[simp] theorem extent_nil : extent w ([] : List α) = 0 := rfl

@[simp] theorem extent_cons (a : α) (as : List α) :
    extent w (a :: as) = w a + extent w as := by
  simp [extent]

@[simp] theorem extent_append (l m : List α) :
    extent w (l ++ m) = extent w l + extent w m := by
  simp [extent]

variable {v w}

theorem extent_mono {l m : List α} (h : l <+: m) : extent w l ≤ extent w m := by
  obtain ⟨rest, rfl⟩ := h
  rw [extent_append]
  exact Nat.le_add_right _ _

theorem within_isPrefix (limit : ℕ) (l : List α) : within w limit l <+: l := by
  induction l generalizing limit with
  | nil => exact List.prefix_rfl
  | cons a as ih =>
    rw [within]
    split
    · exact (List.cons_prefix_cons).2 ⟨rfl, ih _⟩
    · exact List.nil_prefix

theorem extent_within_le (limit : ℕ) (l : List α) : extent w (within w limit l) ≤ limit := by
  induction l generalizing limit with
  | nil => exact Nat.zero_le _
  | cons a as ih =>
    rw [within]
    split
    · rename_i hle
      have := ih (limit - w a)
      rw [extent_cons]
      omega
    · exact Nat.zero_le _

theorem within_mono {limit limit' : ℕ} (h : limit ≤ limit') (l : List α) :
    within w limit l <+: within w limit' l := by
  induction l generalizing limit limit' with
  | nil => exact List.prefix_rfl
  | cons a as ih =>
    rw [within, within]
    by_cases hle : w a ≤ limit
    · rw [if_pos hle, if_pos (hle.trans h)]
      exact (List.cons_prefix_cons).2 ⟨rfl, ih (by omega)⟩
    · rw [if_neg hle]
      exact List.nil_prefix

/-- Exactly the items that make up the limit fit under it. -/
theorem within_extent (hpos : ∀ a, 0 < w a) {p l : List α} (h : p <+: l) :
    within w (extent w p) l = p := by
  induction p generalizing l with
  | nil =>
    cases l with
    | nil => rfl
    | cons a as =>
      have := hpos a
      rw [extent_nil, within, if_neg (by omega)]
  | cons a p ih =>
    obtain ⟨rest, rfl⟩ := h
    rw [List.cons_append, extent_cons, within, if_pos (Nat.le_add_right _ _),
      Nat.add_sub_cancel_left, ih (List.prefix_append p rest)]

/-- Inside an item only the items before it fit. -/
theorem within_extent_add {a : α} {k : ℕ} (hk : k < w a) (p rest : List α) :
    within w (extent w p + k) (p ++ a :: rest) = p := by
  induction p with
  | nil => rw [List.nil_append, extent_nil, within, if_neg (by omega)]
  | cons b p ih =>
    have hsub : w b + extent w p + k - w b = extent w p + k := by omega
    rw [List.cons_append, extent_cons, within, if_pos (by omega), hsub, ih]

/-- What a list begins with fits, and the rest takes what is left. -/
theorem within_append (p : List α) (k : ℕ) (l : List α) :
    within w (extent w p + k) (p ++ l) = p ++ within w k l := by
  induction p with
  | nil => rw [List.nil_append, extent_nil, Nat.zero_add, List.nil_append]
  | cons a p ih =>
    have hsub : w a + extent w p + k - w a = extent w p + k := by omega
    rw [List.cons_append, extent_cons, within, if_pos (by omega), hsub, ih, List.cons_append]

/-- A limit inside a list does not see what follows the list. -/
theorem within_append_of_le (hpos : ∀ a, 0 < w a) {limit : ℕ} {l : List α}
    (h : limit ≤ extent w l) (m : List α) : within w limit (l ++ m) = within w limit l := by
  induction l generalizing limit with
  | nil =>
    obtain rfl : limit = 0 := Nat.le_zero.1 h
    cases m with
    | nil => rfl
    | cons a as =>
      have := hpos a
      rw [List.nil_append, within, within, if_neg (by omega)]
  | cons a as ih =>
    rw [extent_cons] at h
    rw [List.cons_append, within, within, ih (by omega)]

theorem within_eq_self {limit : ℕ} {l : List α} (h : extent w l ≤ limit) :
    within w limit l = l := by
  obtain ⟨k, rfl⟩ := Nat.exists_eq_add_of_le h
  have := within_append (w := w) l k []
  rwa [List.append_nil, within, List.append_nil] at this

/-- What does not fit any more: nothing, as all fits, or an item that
reaches beyond the limit. -/
theorem within_maximal (limit : ℕ) (l : List α) :
    within w limit l = l ∨
      ∃ a, within w limit l ++ [a] <+: l ∧ limit < extent w (within w limit l) + w a := by
  induction l generalizing limit with
  | nil => exact .inl rfl
  | cons b bs ih =>
    rw [within]
    by_cases hle : w b ≤ limit
    · rw [if_pos hle]
      obtain heq | ⟨a, hpre, hlt⟩ := ih (limit - w b)
      · exact .inl (by rw [heq])
      · refine .inr ⟨a, (List.cons_prefix_cons).2 ⟨rfl, hpre⟩, ?_⟩
        rw [extent_cons]
        omega
    · rw [if_neg hle]
      refine .inr ⟨b, (List.cons_prefix_cons).2 ⟨rfl, List.nil_prefix⟩, ?_⟩
      rw [extent_nil]
      omega

/-! ## From one scale to the other -/

theorem across_le (limit : ℕ) (l : List α) : across v w limit l ≤ extent w l :=
  extent_mono (within_isPrefix limit l)

theorem across_mono {limit limit' : ℕ} (h : limit ≤ limit') (l : List α) :
    across v w limit l ≤ across v w limit' l :=
  extent_mono (within_mono h l)

theorem across_extent (hpos : ∀ a, 0 < v a) {p l : List α} (h : p <+: l) :
    across v w (extent v p) l = extent w p := by
  rw [across, within_extent hpos h]

/-- Items of the same sizes. -/
theorem across_congr {β : Type*} {v' w' : β → ℕ} {l : List α} {m : List β}
    (h : List.Forall₂ (fun a b => v a = v' b ∧ w a = w' b) l m) (limit : ℕ) :
    across v w limit l = across v' w' limit m := by
  unfold across
  induction h generalizing limit with
  | nil => rfl
  | cons hab _ ih =>
    rw [within, within, hab.1]
    split
    · rw [extent_cons, extent_cons, hab.2, ih]
    · rfl

/-- **The round trip** from a bound between two items. -/
theorem across_across (hv : ∀ a, 0 < v a) (hw : ∀ a, 0 < w a) {p l : List α} (h : p <+: l) :
    across w v (across v w (extent v p) l) l = extent v p := by
  rw [across_extent hv h, across_extent hw h]

/-- The round trip from anywhere rounds down. -/
theorem across_across_eq (hv : ∀ a, 0 < v a) (limit : ℕ) (l : List α) :
    across v w (across w v limit l) l = extent w (within w limit l) := by
  rw [across, across, within_extent hv (within_isPrefix limit l)]

/-- It stays where it is except beyond the end and inside an item. -/
theorem extent_within_eq_iff (limit : ℕ) (l : List α) :
    extent w (within w limit l) = limit ↔
      ¬ (extent w l < limit ∨ ∃ p a, p ++ [a] <+: l ∧ extent w p < limit ∧
        limit < extent w p + w a) := by
  have hle := extent_within_le (w := w) limit l
  constructor
  · rintro heq (hlt | ⟨p, a, hpre, hlow, hhigh⟩)
    · have := extent_mono (w := w) (within_isPrefix (w := w) limit l)
      omega
    · obtain hsub | hsub := List.prefix_or_prefix_of_prefix hpre (within_isPrefix (w := w) limit l)
      · have := extent_mono (w := w) hsub
        rw [extent_append, extent_cons, extent_nil] at this
        omega
      · obtain hshort | hfull := List.prefix_concat_iff.1 hsub |>.symm
        · have := extent_mono (w := w) hshort
          omega
        · rw [hfull, extent_append, extent_cons, extent_nil] at heq
          omega
  · intro hno
    by_contra hne
    obtain hall | ⟨a, hpre, hlt⟩ := within_maximal (w := w) limit l
    · rw [hall] at hle hne
      exact hno (.inl (by omega))
    · exact hno (.inr ⟨_, a, hpre, by omega, hlt⟩)

end Scales

end Nslc
