import Mathlib
/-!
# Matching brackets

Items of a list open or close something, or neither. An opener and a
closer match where what stands between them is balanced; some openers and
closers match nothing. A stack of the open positions, popped at each
closer and left alone where it is empty, finds the matching pairs and
nothing else (`stackPairs_perm`).
-/

namespace Nslc

inductive Bracket where
  | opener
  | closer
  | other
  deriving DecidableEq, Repr

namespace Bracket

variable {α : Type*} (kind : α → Bracket)

/-- The depth behind the items, from depth `d` on; none where a closer
has no opener. -/
def climb (d : ℕ) (l : List α) : Option ℕ :=
  match l with
  | [] => some d
  | a :: as =>
    match kind a with
    | .opener => climb (d + 1) as
    | .closer => if d = 0 then none else climb (d - 1) as
    | .other => climb d as

/-- Every opener has its closer, and every closer its opener. -/
def Balanced (l : List α) : Prop := climb kind 0 l = some 0

instance (l : List α) : Decidable (Balanced kind l) := inferInstanceAs (Decidable (_ = _))

/-- The item at `i` opens what the one at `j` closes. -/
def Matches (l : List α) (i j : ℕ) : Prop :=
  i < j ∧ l[i]?.map kind = some .opener ∧ l[j]?.map kind = some .closer ∧
    Balanced kind ((l.take j).drop (i + 1))

instance (l : List α) (i j : ℕ) : Decidable (Matches kind l i j) :=
  inferInstanceAs (Decidable (_ ∧ _))

/-- The pairs of a list. -/
def pairs (l : List α) : List (ℕ × ℕ) :=
  (List.range l.length ×ˢ List.range l.length).filter fun p => Matches kind l p.1 p.2

/-- The pairs a stack finds, `k` being the position of the first item. -/
def stackPairs (stack : List ℕ) (k : ℕ) (l : List α) : List (ℕ × ℕ) :=
  match l with
  | [] => []
  | a :: as =>
    match kind a with
    | .opener => stackPairs (k :: stack) (k + 1) as
    | .closer => (stack.head?.map (·, k)).toList ++ stackPairs stack.tail (k + 1) as
    | .other => stackPairs stack (k + 1) as

variable {kind}

theorem climb_append (d : ℕ) (l m : List α) :
    climb kind d (l ++ m) = (climb kind d l).bind fun e => climb kind e m := by
  induction l generalizing d with
  | nil => rfl
  | cons a as ih =>
    rw [List.cons_append, climb, climb]
    cases kind a with
    | opener => exact ih (d + 1)
    | closer =>
      by_cases hd : d = 0
      · simp only [if_pos hd, Option.bind_none]
      · simp only [if_neg hd]
        exact ih (d - 1)
    | other => exact ih d

theorem mem_pairs {l : List α} {i j : ℕ} : (i, j) ∈ pairs kind l ↔ Matches kind l i j := by
  rw [pairs, List.mem_filter, List.mem_product, List.mem_range, List.mem_range, decide_eq_true_eq]
  refine ⟨fun h => h.2, fun h => ⟨?_, h⟩⟩
  obtain ⟨hlt, -, hclose, -⟩ := h
  have hj : j < l.length := by
    by_contra hge
    rw [List.getElem?_eq_none (by omega)] at hclose
    cases hclose
  exact ⟨by omega, hj⟩

/-! ## The stack -/

/-- What the stack holds behind the items of `p`: at depth `n` the opener
that stands `n` openers outside of the innermost. -/
def Opened (kind : α → Bracket) (p : List α) (stack : List ℕ) : Prop :=
  ∀ n i, stack[n]? = some i ↔
    p[i]?.map kind = some .opener ∧ climb kind 0 (p.drop (i + 1)) = some n

theorem opened_nil : Opened kind ([] : List α) [] := by
  intro n i
  simp

/-- The last item is looked at with the depth in front of it. -/
theorem climb_drop_concat {p : List α} (a : α) {i : ℕ} (h : i < p.length) :
    climb kind 0 ((p ++ [a]).drop (i + 1)) =
      (climb kind 0 (p.drop (i + 1))).bind fun d => climb kind d [a] := by
  rw [List.drop_append_of_le_length (by omega), climb_append]

/-- Of the positions of `p` and the one behind, an opener is either the
last item or stands in `p`. -/
theorem opener_concat_iff {p : List α} {a : α} {i : ℕ} :
    (p ++ [a])[i]?.map kind = some .opener ↔
      p[i]?.map kind = some .opener ∨ i = p.length ∧ kind a = .opener := by
  rcases Nat.lt_trichotomy i p.length with h | h | h
  · rw [List.getElem?_append_left h]
    constructor
    · exact Or.inl
    · rintro (hopen | ⟨rfl, -⟩)
      · exact hopen
      · omega
  · subst h
    simp
  · rw [List.getElem?_eq_none (by simp; omega), List.getElem?_eq_none (by omega)]
    constructor
    · intro hnone
      cases hnone
    · rintro (hnone | ⟨rfl, -⟩)
      · cases hnone
      · omega

theorem lt_of_opener {p : List α} {i : ℕ} (h : p[i]?.map kind = some .opener) : i < p.length := by
  by_contra hge
  rw [List.getElem?_eq_none (by omega)] at h
  cases h

theorem Opened.other {p : List α} {stack : List ℕ} (h : Opened kind p stack) {a : α}
    (ha : kind a = .other) : Opened kind (p ++ [a]) stack := by
  intro n i
  rw [h n i, opener_concat_iff, ha]
  constructor
  · rintro ⟨hopen, hclimb⟩
    refine ⟨.inl hopen, ?_⟩
    rw [climb_drop_concat a (lt_of_opener hopen), hclimb, Option.bind_some, climb, ha]
    rfl
  · rintro ⟨hopen | ⟨-, hfalse⟩, hclimb⟩
    · rw [climb_drop_concat a (lt_of_opener hopen)] at hclimb
      obtain ⟨d, hd, hlast⟩ := Option.bind_eq_some_iff.1 hclimb
      rw [climb, ha] at hlast
      exact ⟨hopen, hd.trans hlast⟩
    · cases hfalse

theorem Opened.opener {p : List α} {stack : List ℕ} (h : Opened kind p stack) {a : α}
    (ha : kind a = .opener) : Opened kind (p ++ [a]) (p.length :: stack) := by
  intro n i
  rw [opener_concat_iff]
  cases n with
  | zero =>
    rw [List.getElem?_cons_zero, Option.some.injEq]
    constructor
    · rintro rfl
      exact ⟨.inr ⟨rfl, ha⟩, by simp [climb]⟩
    · rintro ⟨hopen | ⟨rfl, -⟩, hclimb⟩
      · -- behind an opener of `p` the new one is open as well
        rw [climb_drop_concat a (lt_of_opener hopen)] at hclimb
        obtain ⟨d, -, hlast⟩ := Option.bind_eq_some_iff.1 hclimb
        rw [climb, ha] at hlast
        have hdepth : d + 1 = 0 := Option.some.inj hlast
        omega
      · rfl
  | succ n =>
    rw [List.getElem?_cons_succ, h n i]
    constructor
    · rintro ⟨hopen, hclimb⟩
      refine ⟨.inl hopen, ?_⟩
      rw [climb_drop_concat a (lt_of_opener hopen), hclimb, Option.bind_some, climb, ha]
      rfl
    · rintro ⟨hopen | ⟨rfl, -⟩, hclimb⟩
      · rw [climb_drop_concat a (lt_of_opener hopen)] at hclimb
        obtain ⟨d, hd, hlast⟩ := Option.bind_eq_some_iff.1 hclimb
        rw [climb, ha] at hlast
        have hdepth : d + 1 = n + 1 := Option.some.inj hlast
        obtain rfl : d = n := by omega
        exact ⟨hopen, hd⟩
      · simp [climb] at hclimb

theorem Opened.closer {p : List α} {stack : List ℕ} (h : Opened kind p stack) {a : α}
    (ha : kind a = .closer) : Opened kind (p ++ [a]) stack.tail := by
  intro n i
  rw [List.getElem?_tail, h (n + 1) i, opener_concat_iff, ha]
  constructor
  · rintro ⟨hopen, hclimb⟩
    refine ⟨.inl hopen, ?_⟩
    rw [climb_drop_concat a (lt_of_opener hopen), hclimb, Option.bind_some, climb, ha]
    rfl
  · rintro ⟨hopen | ⟨-, hfalse⟩, hclimb⟩
    · rw [climb_drop_concat a (lt_of_opener hopen)] at hclimb
      obtain ⟨d, hd, hlast⟩ := Option.bind_eq_some_iff.1 hclimb
      simp only [climb, ha] at hlast
      split at hlast
      · cases hlast
      · have hdepth : d - 1 = n := Option.some.inj hlast
        obtain rfl : d = n + 1 := by omega
        exact ⟨hopen, hd⟩
    · cases hfalse

/-- **A closer matches** what is on top of the stack. -/
theorem Opened.matches_iff {p : List α} {stack : List ℕ} (h : Opened kind p stack) {a : α}
    (ha : kind a = .closer) (as : List α) (i : ℕ) :
    Matches kind (p ++ a :: as) i p.length ↔ stack.head? = some i := by
  rw [List.head?_eq_getElem?, h 0 i, Matches, List.take_left]
  constructor
  · rintro ⟨hlt, hopen, -, hbalanced⟩
    rw [List.getElem?_append_left hlt] at hopen
    exact ⟨hopen, hbalanced⟩
  · rintro ⟨hopen, hbalanced⟩
    have hlt := lt_of_opener hopen
    refine ⟨hlt, ?_, ?_, hbalanced⟩
    · rw [List.getElem?_append_left hlt]
      exact hopen
    · rw [List.getElem?_append_right le_rfl]
      simp [ha]

/-- Nothing else matches. -/
theorem not_matches {p as : List α} {a : α} (ha : kind a ≠ .closer) (i : ℕ) :
    ¬ Matches kind (p ++ a :: as) i p.length := by
  rintro ⟨-, -, hclose, -⟩
  rw [List.getElem?_append_right le_rfl] at hclose
  simp only [Nat.sub_self, List.getElem?_cons_zero, Option.map_some, Option.some.injEq] at hclose
  exact ha hclose

/-- Of the closers from `k` on, the first or a later one. -/
theorem matches_from_iff {p as : List α} {a : α} {i j : ℕ} :
    (Matches kind (p ++ a :: as) i j ∧ p.length ≤ j) ↔
      (Matches kind (p ++ a :: as) i p.length ∧ j = p.length) ∨
        (Matches kind ((p ++ [a]) ++ as) i j ∧ (p ++ [a]).length ≤ j) := by
  rw [List.append_assoc, List.singleton_append, List.length_append, List.length_singleton]
  constructor
  · rintro ⟨hmatch, hle⟩
    rcases Nat.eq_or_lt_of_le hle with rfl | hlt
    · exact .inl ⟨hmatch, rfl⟩
    · exact .inr ⟨hmatch, hlt⟩
  · rintro (⟨hmatch, rfl⟩ | ⟨hmatch, hlt⟩)
    · exact ⟨hmatch, le_rfl⟩
    · exact ⟨hmatch, by omega⟩

theorem mem_stackPairs (l : List α) {p : List α} {stack : List ℕ} (h : Opened kind p stack)
    {i j : ℕ} :
    (i, j) ∈ stackPairs kind stack p.length l ↔ Matches kind (p ++ l) i j ∧ p.length ≤ j := by
  induction l generalizing p stack with
  | nil =>
    simp only [stackPairs, List.not_mem_nil, false_iff, not_and]
    rintro ⟨-, -, hclose, -⟩ hle
    rw [List.append_nil, List.getElem?_eq_none hle] at hclose
    cases hclose
  | cons a as ih =>
    have hlen : (p ++ [a]).length = p.length + 1 := by simp
    rw [matches_from_iff, stackPairs]
    cases ha : kind a with
    | opener =>
      rw [← ih (h.opener ha), hlen]
      simp [not_matches (show kind a ≠ .closer by simp [ha])]
    | closer =>
      rw [h.matches_iff ha, ← ih (h.closer ha), hlen]
      cases stack with
      | nil => simp
      | cons top stack => simp [eq_comm]
    | other =>
      rw [← ih (h.other ha), hlen]
      simp [not_matches (show kind a ≠ .closer by simp [ha])]

theorem stackPairs_sorted (stack : List ℕ) (k : ℕ) (l : List α) :
    (stackPairs kind stack k l).Pairwise (fun x y => x.2 < y.2) ∧
      ∀ x ∈ stackPairs kind stack k l, k ≤ x.2 := by
  induction l generalizing stack k with
  | nil => simp [stackPairs]
  | cons a as ih =>
    have hnext : ∀ stack, (stackPairs kind stack (k + 1) as).Pairwise (fun x y => x.2 < y.2) ∧
        ∀ x ∈ stackPairs kind stack (k + 1) as, k ≤ x.2 := fun stack =>
      ⟨(ih stack (k + 1)).1, fun x hx => by
        have := (ih stack (k + 1)).2 x hx
        omega⟩
    rw [stackPairs]
    cases kind a with
    | opener => exact hnext _
    | other => exact hnext _
    | closer =>
      cases stack with
      | nil => exact hnext []
      | cons i stack =>
        refine ⟨List.pairwise_cons.2 ⟨fun x hx => ?_, (hnext stack).1⟩, ?_⟩
        · have := (ih stack (k + 1)).2 x hx
          show k < x.2
          omega
        · intro x hx
          rcases List.mem_cons.1 hx with rfl | hx
          · exact le_rfl
          · exact (hnext stack).2 x hx

/-- **The stack finds the pairs.** -/
theorem stackPairs_perm (l : List α) : (stackPairs kind [] 0 l).Perm (pairs kind l) := by
  have hnodup : (stackPairs kind [] 0 l).Nodup :=
    (stackPairs_sorted [] 0 l).1.imp fun hlt heq => by
      rw [heq] at hlt
      exact lt_irrefl _ hlt
  have hpairs : (pairs kind l).Nodup :=
    (List.nodup_range.product List.nodup_range).filter _
  refine (List.perm_ext_iff_of_nodup hnodup hpairs).2 fun ⟨i, j⟩ => ?_
  rw [mem_pairs]
  have h : (i, j) ∈ stackPairs kind [] 0 l ↔ Matches kind ([] ++ l) i j ∧ 0 ≤ j :=
    mem_stackPairs l opened_nil
  simpa using h

end Bracket

end Nslc
