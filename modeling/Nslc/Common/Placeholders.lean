import Mathlib
/-!
# Placeholders in a text

A placeholder is a name between two marks. A text is scanned from the
left for placeholders, and the placeholders of one name are replaced by a
value, each mark read once. Replacing leaves the placeholders of the
other names where no mark is shared by placeholders of different names
(`Untangled`), and leaves none of its own.
-/

namespace Nslc

/-- What placeholders look like: the mark around them, and what a name
starts with and goes on with. -/
structure Placeholders (α : Type) where
  mark : α
  first : α → Bool
  rest : α → Bool
  first_rest : ∀ {a}, first a = true → rest a = true
  rest_mark : rest mark = false

namespace Placeholders

variable {α : Type} {σ : Placeholders α} {x y v r s t : List α}

/-- A name: it is not empty, and its first letter may start one. -/
def isName (σ : Placeholders α) : List α → Bool
  | [] => false
  | a :: x => σ.first a && x.all σ.rest

/-- A text that begins with the placeholder of `x`. -/
def Opens (σ : Placeholders α) (x s : List α) : Prop := ∃ b, s = σ.mark :: (x ++ σ.mark :: b)

/-- The placeholder of `x` stands in the text. -/
def Occurs (σ : Placeholders α) (x t : List α) : Prop := ∃ s, s <:+ t ∧ σ.Opens x s

/-- No mark belongs to placeholders of two names. -/
def Untangled (σ : Placeholders α) (t : List α) : Prop :=
  ∀ x y s b, σ.isName x = true → σ.isName y = true → s <:+ t →
    s = σ.mark :: (x ++ σ.mark :: (y ++ σ.mark :: b)) → x = y

theorem all_rest_of_isName (h : σ.isName x = true) : ∀ c ∈ x, σ.rest c = true := by
  cases x with
  | nil => cases h
  | cons a x =>
    simp only [isName, Bool.and_eq_true, List.all_eq_true] at h
    rintro c (_ | ⟨_, hc⟩)
    · exact σ.first_rest h.1
    · exact h.2 c hc

theorem mark_notMem_of_isName (h : σ.isName x = true) : σ.mark ∉ x := by
  intro hm
  have := all_rest_of_isName h _ hm
  rw [σ.rest_mark] at this
  cases this

/-- A nonempty beginning of a name is one. -/
theorem isName_of_append {a b : List α} (h : σ.isName (a ++ b) = true) (ha : a ≠ []) :
    σ.isName a = true := by
  cases a with
  | nil => exact absurd rfl ha
  | cons c a =>
    simp only [List.cons_append, isName, Bool.and_eq_true, List.all_append] at h ⊢
    exact ⟨h.1, h.2.1⟩

theorem occurs_cons_of_occurs {c : α} (h : σ.Occurs x t) : σ.Occurs x (c :: t) := by
  obtain ⟨s, hs, ho⟩ := h
  exact ⟨s, hs.trans (List.suffix_cons c t), ho⟩

/-- A value that goes in for a placeholder: it has no mark, and no name
begins with it. -/
structure IsValue (σ : Placeholders α) (r : List α) : Prop where
  mark_notMem : σ.mark ∉ r
  not_first : ∃ a b, r = a :: b ∧ σ.first a = false

theorem not_isName_append (hr : σ.IsValue r) (b : List α) : σ.isName (r ++ b) = false := by
  obtain ⟨a, c, rfl, ha⟩ := hr.not_first
  simp [isName, ha]

theorem suffix_of_mark_notMem {m : α} {a b s : List α} (ha : m ∉ a) (h : m :: s <:+ a ++ b) :
    m :: s <:+ b := by
  obtain ⟨p, hp⟩ := h
  rcases List.append_eq_append_iff.1 hp with ⟨q, hq, hb⟩ | ⟨q, rfl, rfl⟩
  · cases q with
    | nil => exact ⟨[], hb⟩
    | cons d q =>
      obtain ⟨rfl, -⟩ := List.cons.inj hb
      exact absurd (hq ▸ List.mem_append_right p List.mem_cons_self) ha
  · exact ⟨q, rfl⟩

variable [DecidableEq α]

/-! ## Scanning -/

/-- The placeholder a text begins with. -/
def opening (σ : Placeholders α) (s : List α) : Option (List α) :=
  match s with
  | [] => none
  | c :: cs =>
    if c = σ.mark ∧ σ.isName (cs.takeWhile σ.rest) ∧ (cs.dropWhile σ.rest).head? = some σ.mark then
      some (cs.takeWhile σ.rest)
    else none

/-- The placeholders from the left, none overlapping the one before it;
the first argument counts what is left of the last one. -/
def scanFrom (σ : Placeholders α) : ℕ → List α → List (List α)
  | _, [] => []
  | n + 1, _ :: cs => σ.scanFrom n cs
  | 0, c :: cs =>
    match σ.opening (c :: cs) with
    | some x => x :: σ.scanFrom (x.length + 1) cs
    | none => σ.scanFrom 0 cs

def scan (σ : Placeholders α) (t : List α) : List (List α) := σ.scanFrom 0 t

theorem opening_eq_some_iff : σ.opening s = some x ↔ σ.isName x = true ∧ σ.Opens x s := by
  constructor
  · intro h
    cases s with
    | nil => cases h
    | cons c cs =>
      rw [opening] at h
      split at h
      · next hc =>
        obtain ⟨rfl, hname, hmark⟩ := hc
        obtain rfl := Option.some.inj h
        refine ⟨hname, (cs.dropWhile σ.rest).tail, ?_⟩
        have hrest : cs.dropWhile σ.rest = σ.mark :: (cs.dropWhile σ.rest).tail := by
          cases hd : cs.dropWhile σ.rest with
          | nil => rw [hd] at hmark; cases hmark
          | cons d ds => rw [hd] at hmark; rw [Option.some.inj hmark]; rfl
        rw [← hrest, List.takeWhile_append_dropWhile]
      · cases h
  · rintro ⟨hname, b, rfl⟩
    have htake : (x ++ σ.mark :: b).takeWhile σ.rest = x := by
      rw [List.takeWhile_append_of_pos (all_rest_of_isName hname), List.takeWhile_cons,
        σ.rest_mark]
      simp
    have hdrop : (x ++ σ.mark :: b).dropWhile σ.rest = σ.mark :: b := by
      rw [List.dropWhile_append_of_pos (all_rest_of_isName hname), List.dropWhile_cons,
        σ.rest_mark]
      simp
    rw [opening, htake, hdrop, if_pos ⟨rfl, hname, rfl⟩]

/-- A scan finds nothing exactly where nothing stands. -/
theorem scan_eq_nil_iff :
    σ.scan t = [] ↔ ∀ x, σ.isName x = true → ¬ σ.Occurs x t := by
  have hnone : ∀ t : List α, σ.scanFrom 0 t = [] → ∀ x, σ.isName x = true → ¬ σ.Occurs x t := by
    intro t
    induction t with
    | nil =>
      rintro - x - ⟨s, hs, b, hb⟩
      rw [List.suffix_nil.1 hs] at hb
      cases hb
    | cons c cs ih =>
      intro h x hx
      rw [scanFrom] at h
      split at h
      · cases h
      · next hopen =>
        rintro ⟨s, hs, ho⟩
        rcases List.suffix_cons_iff.1 hs with rfl | hs
        · rw [opening_eq_some_iff.2 ⟨hx, ho⟩] at hopen
          cases hopen
        · exact ih h x hx ⟨s, hs, ho⟩
  refine ⟨hnone t, fun h => ?_⟩
  have hsome : ∀ n (t : List α), (∀ x, σ.isName x = true → ¬ σ.Occurs x t) →
      σ.scanFrom n t = [] := by
    intro n t
    induction t generalizing n with
    | nil => intro _; cases n <;> rfl
    | cons c cs ih =>
      intro h
      have hcs : ∀ x, σ.isName x = true → ¬ σ.Occurs x cs :=
        fun x hx ho => h x hx (occurs_cons_of_occurs ho)
      cases n with
      | succ n => exact ih n hcs
      | zero =>
        rw [scanFrom]
        split
        · next x hopen =>
          obtain ⟨hx, ho⟩ := opening_eq_some_iff.1 hopen
          exact absurd ⟨_, List.suffix_refl _, ho⟩ (h x hx)
        · exact ih 0 hcs
  exact hsome 0 t h

/-- The names of all placeholders, overlapping ones too. -/
def names (σ : Placeholders α) (t : List α) : List (List α) := t.tails.filterMap σ.opening

theorem mem_names_iff : x ∈ σ.names t ↔ σ.isName x = true ∧ σ.Occurs x t := by
  simp only [names, List.mem_filterMap, List.mem_tails, opening_eq_some_iff]
  exact ⟨fun ⟨s, hs, hx, ho⟩ => ⟨hx, s, hs, ho⟩, fun ⟨hx, s, hs, ho⟩ => ⟨s, hs, hx, ho⟩⟩

/-- Placeholders of one name only are not tangled. -/
theorem untangled_of_names (h : ∀ x ∈ σ.names t, x = v) : σ.Untangled t := by
  rintro x y s b hx hy hs rfl
  have hys : σ.mark :: (y ++ σ.mark :: b) <:+ t := (List.suffix_append (σ.mark :: x) _).trans hs
  rw [h x (mem_names_iff.2 ⟨hx, _, hs, _, rfl⟩), h y (mem_names_iff.2 ⟨hy, _, hys, b, rfl⟩)]

/-! ## Replacing -/

/-- The placeholders of `v` replaced by `r`, from the left. -/
def replaceFrom (σ : Placeholders α) (v r : List α) : ℕ → List α → List α
  | _, [] => []
  | n + 1, _ :: cs => σ.replaceFrom v r n cs
  | 0, c :: cs =>
    if (σ.mark :: (v ++ [σ.mark])).isPrefixOf (c :: cs) then
      r ++ σ.replaceFrom v r (v.length + 1) cs
    else c :: σ.replaceFrom v r 0 cs

def replace (σ : Placeholders α) (v r t : List α) : List α := σ.replaceFrom v r 0 t

theorem replaceFrom_eq_drop (n : ℕ) (t : List α) :
    σ.replaceFrom v r n t = σ.replace v r (t.drop n) := by
  induction t generalizing n with
  | nil => cases n <;> rfl
  | cons c cs ih =>
    cases n with
    | zero => rfl
    | succ n => exact ih n

theorem isPrefixOf_iff_opens : (σ.mark :: (v ++ [σ.mark])).isPrefixOf s = true ↔ σ.Opens v s := by
  rw [List.isPrefixOf_iff_prefix]
  constructor
  · rintro ⟨b, rfl⟩
    exact ⟨b, by simp⟩
  · rintro ⟨b, rfl⟩
    exact ⟨b, by simp⟩

theorem replace_opens (b : List α) :
    σ.replace v r (σ.mark :: (v ++ σ.mark :: b)) = r ++ σ.replace v r b := by
  have hopens : σ.Opens v (σ.mark :: (v ++ σ.mark :: b)) := ⟨b, rfl⟩
  rw [replace, replaceFrom, if_pos (isPrefixOf_iff_opens.2 hopens), replaceFrom_eq_drop]
  simp

theorem replace_cons {c : α} {cs : List α} (h : ¬ σ.Opens v (c :: cs)) :
    σ.replace v r (c :: cs) = c :: σ.replace v r cs := by
  rw [replace, replaceFrom, if_neg (isPrefixOf_iff_opens.not.2 h)]
  rfl

/-- What a text was before replacing, up to the first mark: the same, or a
placeholder of `v` stood in it. -/
theorem of_replace_eq (hr : σ.IsValue r) {cs b : List α} (hx : σ.mark ∉ x)
    (h : σ.replace v r cs = x ++ σ.mark :: b) :
    (∃ b', cs = x ++ σ.mark :: b' ∧ σ.replace v r b' = b ∧ ¬ σ.Opens v (σ.mark :: b')) ∨
      ∃ a x' b', x = a ++ (r ++ x') ∧ cs = a ++ σ.mark :: (v ++ σ.mark :: b') := by
  induction cs generalizing x with
  | nil =>
    have hnil : ([] : List α) = x ++ σ.mark :: b := h
    simp at hnil
  | cons c cs ih =>
    by_cases ho : σ.Opens v (c :: cs)
    · obtain ⟨b', hb'⟩ := ho
      rw [hb', replace_opens] at h
      right
      rcases List.append_eq_append_iff.1 h with ⟨x', rfl, -⟩ | ⟨m, rfl, hm⟩
      · exact ⟨[], x', b', rfl, hb'⟩
      · -- the value has no mark, so it ends before the first one
        cases m with
        | nil => exact ⟨[], [], b', by simp, hb'⟩
        | cons d m =>
          obtain ⟨rfl, -⟩ := List.cons.inj hm
          exact absurd (List.mem_append_right x List.mem_cons_self) hr.mark_notMem
    · rw [replace_cons ho] at h
      cases x with
      | nil =>
        obtain ⟨rfl, hb⟩ := List.cons.inj h
        exact .inl ⟨cs, rfl, hb, ho⟩
      | cons d x =>
        obtain ⟨rfl, hrest⟩ := List.cons.inj h
        have hx' : σ.mark ∉ x := fun hm => hx (List.mem_cons_of_mem _ hm)
        rcases ih hx' hrest with ⟨b', rfl, hb', hno⟩ | ⟨a, x', b', rfl, rfl⟩
        · exact .inl ⟨b', rfl, hb', hno⟩
        · exact .inr ⟨c :: a, x', b', rfl, rfl⟩

/-- A mark behind replacing is a mark of the text that opens no
placeholder of `v`. -/
theorem mark_suffix_replace (hr : σ.IsValue r) {s' : List α}
    (hs : σ.mark :: s' <:+ σ.replace v r t) :
    ∃ cs, σ.mark :: cs <:+ t ∧ s' = σ.replace v r cs ∧ ¬ σ.Opens v (σ.mark :: cs) := by
  induction hn : t.length using Nat.strong_induction_on generalizing t with
  | _ n ih =>
    cases t with
    | nil => exact absurd (List.suffix_nil.1 hs) (List.cons_ne_nil _ _)
    | cons c cs =>
      by_cases ho : σ.Opens v (c :: cs)
      · obtain ⟨b, hb⟩ := ho
        have hlen : b.length < n := by
          rw [← hn, hb]
          simp only [List.length_cons, List.length_append]
          omega
        have hsuffix : b <:+ c :: cs := ⟨σ.mark :: (v ++ [σ.mark]), by rw [hb]; simp⟩
        rw [hb, replace_opens] at hs
        obtain ⟨cs', hcs', hrest⟩ := ih _ hlen (suffix_of_mark_notMem hr.mark_notMem hs) rfl
        exact ⟨cs', hcs'.trans hsuffix, hrest⟩
      · rw [replace_cons ho] at hs
        rcases List.suffix_cons_iff.1 hs with heq | hs
        · obtain ⟨rfl, rfl⟩ := List.cons.inj heq
          exact ⟨cs, List.suffix_refl _, rfl, ho⟩
        · have hlen : cs.length < n := by
            rw [← hn, List.length_cons]
            omega
          obtain ⟨cs', hcs', hrest⟩ := ih _ hlen hs rfl
          exact ⟨cs', hcs'.trans (List.suffix_cons c cs), hrest⟩

omit [DecidableEq α] in
/-- A name with the value in it had a mark of `v` in its placeholder. -/
theorem absurd_of_tangled (hr : σ.IsValue r) (ht : σ.Untangled t) (hv : σ.isName v = true)
    (hx : σ.isName x = true) {a x' b cs : List α} (hxa : x = a ++ (r ++ x'))
    (hcs : cs = a ++ σ.mark :: (v ++ σ.mark :: b)) (hs : σ.mark :: cs <:+ t)
    (ho : ¬ σ.Opens v (σ.mark :: cs)) : False := by
  cases a with
  | nil =>
    rw [hxa, List.nil_append, not_isName_append hr] at hx
    cases hx
  | cons d a =>
    have ha : σ.isName (d :: a) = true := isName_of_append (hxa ▸ hx) (List.cons_ne_nil _ _)
    have heq : d :: a = v := ht _ _ _ b ha hv hs (by rw [hcs])
    exact ho ⟨_, by rw [hcs, heq]⟩

/-- **Replacing leaves no placeholder of its own and adds none.** -/
theorem occurs_of_replace (hr : σ.IsValue r) (ht : σ.Untangled t) (hv : σ.isName v = true)
    (hx : σ.isName x = true) (h : σ.Occurs x (σ.replace v r t)) : σ.Occurs x t ∧ x ≠ v := by
  obtain ⟨s, hs, b, rfl⟩ := h
  obtain ⟨cs, hcs, heq, ho⟩ := mark_suffix_replace hr hs
  rcases of_replace_eq hr (mark_notMem_of_isName hx) heq.symm with
    ⟨b', rfl, -, -⟩ | ⟨a, x', b', hxa, hcsa⟩
  · refine ⟨⟨_, hcs, b', rfl⟩, ?_⟩
    rintro rfl
    exact ho ⟨b', rfl⟩
  · exact (absurd_of_tangled hr ht hv hx hxa hcsa hcs ho).elim

/-- Replacing keeps the placeholders of different names apart. -/
theorem untangled_replace (hr : σ.IsValue r) (ht : σ.Untangled t) (hv : σ.isName v = true) :
    σ.Untangled (σ.replace v r t) := by
  intro x y s b hx hy hs hsb
  subst hsb
  obtain ⟨cs, hcs, heq, ho⟩ := mark_suffix_replace hr hs
  rcases of_replace_eq hr (mark_notMem_of_isName hx) heq.symm with
    ⟨b', rfl, hb', ho'⟩ | ⟨a, x', b', hxa, hcsa⟩
  · have hsuffix : σ.mark :: b' <:+ t := (List.suffix_append (σ.mark :: x) _).trans hcs
    rcases of_replace_eq hr (mark_notMem_of_isName hy) hb' with
      ⟨b'', rfl, -, -⟩ | ⟨a, y', b'', hya, hba⟩
    · exact ht x y _ b'' hx hy hcs rfl
    · exact (absurd_of_tangled hr ht hv hy hya hba hsuffix ho').elim
  · exact (absurd_of_tangled hr ht hv hx hxa hcsa hcs ho).elim

end Placeholders

end Nslc
