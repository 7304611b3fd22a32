import Mathlib
/-!
# Separators

Texts joined by a separator come apart again where the separator is not
in the part before it, or not in the part behind it; lines that each end
with a terminator come apart into the lines.
-/

namespace Nslc

namespace Separators

variable {χ : Type} {sep : χ} {a a' b b' : List χ}

theorem append_cons_left (ha : sep ∉ a) (ha' : sep ∉ a') (h : a ++ sep :: b = a' ++ sep :: b') :
    a = a' ∧ b = b' := by
  induction a generalizing a' with
  | nil =>
    cases a' with
    | nil => exact ⟨rfl, (List.cons.inj h).2⟩
    | cons c cs =>
      have hc : sep = c := (List.cons.inj h).1
      exact absurd (hc ▸ List.mem_cons_self) ha'
  | cons c cs ih =>
    cases a' with
    | nil =>
      have hc : c = sep := (List.cons.inj h).1
      exact absurd (hc ▸ List.mem_cons_self) ha
    | cons c' cs' =>
      obtain ⟨rfl, hrest⟩ := List.cons.inj h
      obtain ⟨rfl, hb⟩ := ih (fun hm => ha (List.mem_cons_of_mem c hm))
        (fun hm => ha' (List.mem_cons_of_mem c hm)) hrest
      exact ⟨rfl, hb⟩

/-- From the right end. -/
theorem append_cons_right (hb : sep ∉ b) (hb' : sep ∉ b') (h : a ++ sep :: b = a' ++ sep :: b') :
    a = a' ∧ b = b' := by
  have hreverse : b.reverse ++ sep :: a.reverse = b'.reverse ++ sep :: a'.reverse := by
    simpa using congrArg List.reverse h
  obtain ⟨hfirst, hsecond⟩ := append_cons_left (fun hm => hb (List.mem_reverse.1 hm))
    (fun hm => hb' (List.mem_reverse.1 hm)) hreverse
  exact ⟨List.reverse_injective hsecond, List.reverse_injective hfirst⟩

/-- Lines with a terminator come apart. -/
theorem map_eq_of_flatMap_eq {α β : Type} {line : α → List χ} {line' : β → List χ} {as : List α}
    {bs : List β} (hline : ∀ x ∈ as, sep ∉ line x) (hline' : ∀ y ∈ bs, sep ∉ line' y)
    (h : (as.flatMap fun x => line x ++ [sep]) = bs.flatMap fun y => line' y ++ [sep]) :
    as.map line = bs.map line' := by
  induction as generalizing bs with
  | nil =>
    cases bs with
    | nil => rfl
    | cons y ys => simp at h
  | cons x xs ih =>
    cases bs with
    | nil => simp at h
    | cons y ys =>
      simp only [List.flatMap_cons, List.append_assoc, List.singleton_append] at h
      obtain ⟨hhead, htail⟩ := append_cons_left (hline x List.mem_cons_self)
        (hline' y List.mem_cons_self) h
      rw [List.map_cons, List.map_cons, hhead, ih (fun z hz => hline z (List.mem_cons_of_mem x hz))
        (fun z hz => hline' z (List.mem_cons_of_mem y hz)) htail]

end Separators

end Nslc
