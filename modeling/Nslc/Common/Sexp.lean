import Nslc.Common.Lines
/-!
# Trees as nested parentheses

A tree of heads is written one node a line, indented by its depth, each
child behind a newline and the closing parenthesis behind the last. The
text determines the tree as soon as a head can be told from what follows
it, whatever the heads are.
-/

namespace Nslc

inductive Sexp (α : Type) where
  | node (head : α) (kids : List (Sexp α))

namespace Sexp

variable {α : Type}

/-- A tree is shown by its children. -/
@[elab_as_elim]
theorem parts {motive : Sexp α → Prop}
    (node : ∀ head kids, (∀ k ∈ kids, motive k) → motive (node head kids)) (t : Sexp α) :
    motive t :=
  Sexp.rec node (fun _ h => absurd h List.not_mem_nil)
    (fun _ _ hk ih k hmem => by
      obtain rfl | hmem := List.mem_cons.1 hmem
      · exact hk
      · exact ih k hmem) t

mutual

/-- The text of a tree at a depth. -/
def render (text : α → Text) : Sexp α → ℕ → Text
  | node head kids, depth =>
    List.replicate (2 * depth) ' ' ++
      '(' :: (text head ++ (renderAll text kids (depth + 1) ++ [')']))

def renderAll (text : α → Text) : List (Sexp α) → ℕ → Text
  | [], _ => []
  | k :: ks, depth => '\n' :: (render text k depth ++ renderAll text ks depth)

end

mutual

/-- Every head of the tree is so. -/
def Forall (p : α → Prop) : Sexp α → Prop
  | node head kids => p head ∧ ForallAll p kids

def ForallAll (p : α → Prop) : List (Sexp α) → Prop
  | [] => True
  | k :: ks => Forall p k ∧ ForallAll p ks

end

theorem forallAll_iff {p : α → Prop} {ks : List (Sexp α)} :
    ForallAll p ks ↔ ∀ k ∈ ks, Forall p k := by
  induction ks with
  | nil => simp [ForallAll]
  | cons k ks ih => simp [ForallAll, ih]

/-- What follows a head. -/
def Stops (r : Text) : Prop := ∃ s, r = ')' :: s ∨ r = '\n' :: s

/-- A head can be told from what follows it. -/
def Tells (text : α → Text) (p : α → Prop) : Prop :=
  ∀ h h' r r', p h → p h' → Stops r → Stops r' → text h ++ r = text h' ++ r' → h = h' ∧ r = r'

theorem stops_renderAll (text : α → Text) (ks : List (Sexp α)) (depth : ℕ) (r : Text) :
    Stops (renderAll text ks depth ++ ')' :: r) := by
  cases ks with
  | nil => exact ⟨r, Or.inl rfl⟩
  | cons k ks => exact ⟨_, Or.inr rfl⟩

/-- A tree can be told from what follows it. -/
theorem render_cancel {text : α → Text} {p : α → Prop} (htells : Tells text p) (t : Sexp α) :
    ∀ (t' : Sexp α) (depth : ℕ) (r r' : Text), t.Forall p → t'.Forall p →
      render text t depth ++ r = render text t' depth ++ r' → t = t' ∧ r = r' := by
  induction t using parts with
  | node head kids ih =>
    rintro ⟨head', kids'⟩ depth r r' ⟨hp, hkids⟩ ⟨hp', hkids'⟩ h
    simp only [render, List.append_assoc, List.cons_append, List.append_cancel_left_eq,
      List.cons.injEq, true_and, List.nil_append] at h
    obtain ⟨rfl, hrest⟩ := htells _ _ _ _ hp hp' (stops_renderAll text kids _ r)
      (stops_renderAll text kids' _ r') h
    -- the children are read off one after the other
    have hall : ∀ ks ks' : List (Sexp α), (∀ k ∈ ks, k ∈ kids) → ForallAll p ks →
        ForallAll p ks' → renderAll text ks (depth + 1) ++ ')' :: r =
          renderAll text ks' (depth + 1) ++ ')' :: r' → ks = ks' ∧ r = r' := by
      intro ks
      induction ks with
      | nil =>
        intro ks' _ _ _ heq
        cases ks' with
        | nil => exact ⟨rfl, by simpa [renderAll] using heq⟩
        | cons k' ks' => simp [renderAll] at heq
      | cons k ks ihks =>
        intro ks' hmem hks hks' heq
        cases ks' with
        | nil => simp [renderAll] at heq
        | cons k' ks' =>
          simp only [renderAll, List.cons_append, List.append_assoc, List.cons.injEq,
            true_and] at heq
          obtain ⟨rfl, hrest⟩ := ih k (hmem k (by simp)) k' (depth + 1) _ _ hks.1 hks'.1 heq
          obtain ⟨rfl, hr⟩ := ihks ks' (fun j hj => hmem j (by simp [hj])) hks.2 hks'.2 hrest
          exact ⟨rfl, hr⟩
    obtain ⟨rfl, hr⟩ := hall kids kids' (fun _ h => h) hkids hkids' hrest
    exact ⟨rfl, hr⟩

/-- **The text of a tree determines it.** -/
theorem render_injective {text : α → Text} {p : α → Prop} (htells : Tells text p)
    {t t' : Sexp α} {depth : ℕ} (ht : t.Forall p) (ht' : t'.Forall p)
    (h : render text t depth = render text t' depth) : t = t' :=
  (render_cancel htells t t' depth [] [] ht ht' (by rw [h])).1

end Sexp

end Nslc
