import Mathlib
/-!
# Depth-first search

A search for a node along the edges of a graph, with one list of the
nodes seen so far for the whole search. The recursion is given by its
depth; on a finite graph a depth of one more than the nodes not seen is
enough, since every call but the last sees a new one. The search finds
the target exactly if it can be reached.
-/

namespace Nslc

namespace Search

variable {α : Type}

/-- Try one node after another, until one of them leads to the target. -/
def anyOf (visit : α → List α → Option (Bool × List α)) : List α → List α → Option (Bool × List α)
  | [], seen => some (false, seen)
  | y :: ys, seen =>
    match visit y seen with
    | none => none
    | some (true, seen) => some (true, seen)
    | some (false, seen) => anyOf visit ys seen

/-- What is tried in turn ends if every node does, with more seen. -/
theorem anyOf_total {visit : α → List α → Option (Bool × List α)} (ok : List α → Prop)
    (hmono : ∀ {s s' : List α}, s ⊆ s' → ok s → ok s') (ys : List α)
    (hvisit : ∀ y ∈ ys, ∀ s, ok s → ∃ r, visit y s = some r ∧ s ⊆ r.2) {seen : List α}
    (hok : ok seen) : ∃ r, anyOf visit ys seen = some r ∧ seen ⊆ r.2 := by
  induction ys generalizing seen with
  | nil => exact ⟨_, rfl, List.Subset.refl seen⟩
  | cons y ys ih =>
    obtain ⟨⟨found, seen'⟩, hy, hsub⟩ := hvisit y (by simp) seen hok
    cases found with
    | true => exact ⟨_, by simp only [anyOf, hy], hsub⟩
    | false =>
      obtain ⟨r, hr, hsub'⟩ := ih (fun z hz => hvisit z (by simp [hz])) (hmono hsub hok)
      exact ⟨r, by simp only [anyOf, hy, hr], List.Subset.trans hsub hsub'⟩

theorem anyOf_true {visit : α → List α → Option (Bool × List α)} {ys seen seen' : List α}
    (h : anyOf visit ys seen = some (true, seen')) :
    ∃ y ∈ ys, ∃ s s', visit y s = some (true, s') := by
  induction ys generalizing seen with
  | nil => cases h
  | cons y ys ih =>
    rw [anyOf] at h
    split at h
    · cases h
    · exact ⟨y, by simp, _, _, ‹_›⟩
    · obtain ⟨z, hz, hfound⟩ := ih h
      exact ⟨z, by simp [hz], hfound⟩

variable [DecidableEq α]

/-- Whether the target is found, and the nodes seen; `none` out of depth. -/
def reaches (succ : α → List α) (target : α) : ℕ → α → List α → Option (Bool × List α)
  | 0, _, _ => none
  | n + 1, x, seen =>
    if x = target then some (true, seen)
    else if x ∈ seen then some (false, seen)
    else anyOf (reaches succ target n) (succ x) (x :: seen)

variable {succ : α → List α} {target : α}

/-- An edge of the graph. -/
def Edge (succ : α → List α) (x y : α) : Prop := y ∈ succ x

/-! ## Depth -/

/-- The nodes of `nodes` that are still to be seen. -/
def unseen (nodes seen : List α) : ℕ := (nodes.toFinset \ seen.toFinset).card

theorem unseen_mono {nodes seen seen' : List α} (h : seen ⊆ seen') :
    unseen nodes seen' ≤ unseen nodes seen := by
  refine Finset.card_le_card (Finset.sdiff_subset_sdiff (subset_refl _) ?_)
  intro x hx
  rw [List.mem_toFinset] at hx ⊢
  exact h hx

theorem unseen_cons {nodes seen : List α} {x : α} (hx : x ∈ nodes) (hn : x ∉ seen) :
    unseen nodes (x :: seen) < unseen nodes seen := by
  refine Finset.card_lt_card ⟨Finset.sdiff_subset_sdiff (subset_refl _) ?_, fun hsub => ?_⟩
  · intro y hy
    rw [List.mem_toFinset] at hy ⊢
    exact List.mem_cons_of_mem x hy
  · have hmem : x ∈ nodes.toFinset \ seen.toFinset := by simp [hx, hn]
    simpa using hsub hmem

/-- **The search ends** on a finite graph, however its edges run. -/
theorem reaches_total {nodes : List α} (hclosed : ∀ x ∈ nodes, ∀ y ∈ succ x, y ∈ nodes) (n : ℕ)
    {x : α} (hx : x ∈ nodes) {seen : List α} (hn : unseen nodes seen < n) :
    ∃ r, reaches succ target n x seen = some r ∧ seen ⊆ r.2 := by
  induction n generalizing x seen with
  | zero => omega
  | succ n ih =>
    rw [reaches]
    by_cases htarget : x = target
    · exact ⟨_, if_pos htarget, List.Subset.refl seen⟩
    rw [if_neg htarget]
    by_cases hseen : x ∈ seen
    · exact ⟨_, if_pos hseen, List.Subset.refl seen⟩
    rw [if_neg hseen]
    have hless : unseen nodes (x :: seen) < n := by
      have := unseen_cons hx hseen
      omega
    obtain ⟨r, hr, hsub⟩ := anyOf_total (fun s => unseen nodes s < n)
      (fun hsub hs => (unseen_mono hsub).trans_lt hs) (succ x)
      (fun y hy s hs => ih (hclosed x hx y hy) hs) hless
    exact ⟨r, hr, fun y hy => hsub (List.mem_cons_of_mem x hy)⟩

/-! ## What a search finds -/

/-- What is found can be reached. -/
theorem reachable_of_reaches {n : ℕ} {x : α} {seen seen' : List α}
    (h : reaches succ target n x seen = some (true, seen')) :
    Relation.ReflTransGen (Edge succ) x target := by
  induction n generalizing x seen seen' with
  | zero => cases h
  | succ n ih =>
    rw [reaches] at h
    split at h
    · rename_i hx
      rw [hx]
    · split at h
      · cases h
      · obtain ⟨y, hy, s, s', hfound⟩ := anyOf_true h
        exact .head hy (ih hfound)

/-- Behind a search without success: what it saw is not the target, and
all edges from there lead to what was seen. -/
structure Exhausted (succ : α → List α) (target : α) (seen seen' : List α) : Prop where
  subset : seen ⊆ seen'
  closed : ∀ y ∈ seen', y ∉ seen → y ≠ target ∧ ∀ z ∈ succ y, z ∈ seen'

theorem Exhausted.trans {s₁ s₂ s₃ : List α} (h : Exhausted succ target s₁ s₂)
    (h' : Exhausted succ target s₂ s₃) : Exhausted succ target s₁ s₃ where
  subset := List.Subset.trans h.subset h'.subset
  closed := by
    intro y hy hn
    by_cases hmid : y ∈ s₂
    · obtain ⟨hne, hsucc⟩ := h.closed y hmid hn
      exact ⟨hne, fun z hz => h'.subset (hsucc z hz)⟩
    · exact h'.closed y hy hmid

theorem anyOf_false {visit : α → List α → Option (Bool × List α)}
    (hvisit : ∀ y s s', visit y s = some (false, s') → Exhausted succ target s s' ∧ y ∈ s')
    {ys seen seen' : List α} (h : anyOf visit ys seen = some (false, seen')) :
    Exhausted succ target seen seen' ∧ ∀ y ∈ ys, y ∈ seen' := by
  induction ys generalizing seen with
  | nil =>
    obtain rfl : seen = seen' := (Prod.mk.inj (Option.some.inj h)).2
    exact ⟨⟨List.Subset.refl seen, fun y hy hn => absurd hy hn⟩, by simp⟩
  | cons y ys ih =>
    rw [anyOf] at h
    split at h
    · cases h
    · cases h
    · rename_i mid hmid
      obtain ⟨hy, hmem⟩ := hvisit y seen mid hmid
      obtain ⟨hys, hall⟩ := ih h
      refine ⟨hy.trans hys, fun z hz => ?_⟩
      rcases List.mem_cons.1 hz with rfl | hz
      · exact hys.subset hmem
      · exact hall z hz

theorem exhausted_of_reaches {n : ℕ} {x : α} {seen seen' : List α}
    (h : reaches succ target n x seen = some (false, seen')) :
    Exhausted succ target seen seen' ∧ x ∈ seen' := by
  induction n generalizing x seen seen' with
  | zero => cases h
  | succ n ih =>
    rw [reaches] at h
    split at h
    · cases h
    rename_i hne
    split at h
    · rename_i hseen
      obtain rfl : seen = seen' := (Prod.mk.inj (Option.some.inj h)).2
      exact ⟨⟨List.Subset.refl seen, fun y hy hn => absurd hy hn⟩, hseen⟩
    · obtain ⟨hex, hsucc⟩ := anyOf_false (fun y s s' => ih) h
      have hx : x ∈ seen' := hex.subset (by simp)
      refine ⟨⟨fun y hy => hex.subset (by simp [hy]), fun y hy hn => ?_⟩, hx⟩
      -- the node itself is new as well, and its edges were all tried
      by_cases hyx : y = x
      · subst hyx
        exact ⟨hne, hsucc⟩
      · exact hex.closed y hy (by simp [hyx, hn])

/-- **A search from scratch finds the target exactly if it is
reachable.** -/
theorem reaches_iff {nodes : List α} (hclosed : ∀ x ∈ nodes, ∀ y ∈ succ x, y ∈ nodes) {n : ℕ}
    {x : α} (hx : x ∈ nodes) (hn : nodes.length < n) :
    ∃ found seen, reaches succ target n x [] = some (found, seen) ∧
      (found = true ↔ Relation.ReflTransGen (Edge succ) x target) := by
  have hdepth : unseen nodes [] < n := by
    have := List.toFinset_card_le nodes
    simp only [unseen, List.toFinset_nil, Finset.sdiff_empty]
    omega
  obtain ⟨⟨found, seen⟩, hr, -⟩ := reaches_total hclosed n hx hdepth
  refine ⟨found, seen, hr, ?_⟩
  cases found with
  | true => exact iff_of_true rfl (reachable_of_reaches hr)
  | false =>
    obtain ⟨hex, hmem⟩ := exhausted_of_reaches hr
    refine iff_of_false (by simp) fun hpath => ?_
    have hseen : ∀ y, Relation.ReflTransGen (Edge succ) x y → y ∈ seen := by
      intro y hy
      induction hy with
      | refl => exact hmem
      | tail _ hedge ih => exact (hex.closed _ ih (by simp)).2 _ hedge
    exact (hex.closed target (hseen target hpath) (by simp)).1 rfl

end Search

end Nslc
