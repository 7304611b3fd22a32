import Mathlib.Data.List.Chain
import Mathlib.Logic.Relation
import Nslc.Preprocess.Expander
/-!
# Preprocessor — chains of macros

What an expansion leaves in place. Every piece of the result stood in the
text or in a macro's body, and a macro is named by it only where the
bodies nest too deep, for which an error is reported (`expand_snd`,
`expand_error_iff`). The pieces are joined and not read again: two of
them may join to a name that neither of them was, and `JoinsNoMacro`
excludes that this is a macro's.
-/

namespace Nslc

namespace Preprocess

namespace MacroExpander

/-! ## What is left -/

/-- The pieces an expansion leaves, in order. -/
@[grind =] def leaves (m : MacroTable) : ℕ → Text → List Piece
  | 0, text => pieces text
  | levels + 1, text => (pieces text).flatMap fun p =>
      match p.macro? m with
      | none => [p]
      | some d => leaves m levels d.body

/-- No piece of the text names a macro. -/
def MacroFree (m : MacroTable) (t : Text) : Prop := ∀ p ∈ pieces t, p.macro? m = none

instance (m : MacroTable) (t : Text) : Decidable (MacroFree m t) :=
  inferInstanceAs (Decidable (∀ p ∈ pieces t, p.macro? m = none))

/-- **No macro's name is formed by joining**: a name in the result that
was not a piece before names no macro. -/
def JoinsNoMacro (m : MacroTable) (t : Text) : Prop :=
  ∀ p ∈ pieces (expand m t 0).1, p ∉ leaves m kMaxExpansionDepth t → p.macro? m = none

/-! ## References -/

/-- A piece of the one's body names the other. -/
def Refers (m : MacroTable) (d e : MacroDef) : Prop := ∃ p ∈ pieces d.body, p.macro? m = some e

/-- The references form no cycle, and a chain of them is shorter than
`kMaxExpansionDepth`. -/
structure Acyclic (m : MacroTable) : Prop where
  acyclic : ∀ d, ¬ Relation.TransGen (Refers m) d d
  short : ∀ ds, List.IsChain (Refers m) ds → (∀ d ∈ ds, m.lookup d.name = some d) →
    ds.length ≤ kMaxExpansionDepth

/-- A cycle of references is reached from the text. -/
def ReachesCycle (m : MacroTable) (t : Text) : Prop :=
  ∃ p ∈ pieces t, ∃ d e, p.macro? m = some d ∧ Relation.ReflTransGen (Refers m) d e ∧
    Relation.TransGen (Refers m) e e

/-- A chain of `n` macros begins in the text. -/
@[grind =] def Opens (m : MacroTable) : ℕ → Text → Prop
  | 0, _ => True
  | n + 1, text => ∃ p ∈ pieces text, ∃ d, p.macro? m = some d ∧ Opens m n d.body

variable {m : MacroTable} {delta levels n : ℕ} {t : Text} {p : Piece} {d e : MacroDef}

/-! ## Result and errors -/

/-- The result is what is left, joined. -/
theorem expandImpl_fst (m : MacroTable) (delta levels : ℕ) (t : Text) :
    (expandImpl m delta levels t).1 = (leaves m levels t).flatMap Piece.text := by
  induction levels generalizing t with
  | zero =>
    rw [expandImpl_eq, gather_fst, leaves]
    refine List.flatMap_congr fun p _ => ?_
    rw [expandPiece]
    split <;> rfl
  | succ levels ih =>
    rw [expandImpl_eq, gather_fst, leaves, List.flatMap_assoc]
    refine List.flatMap_congr fun p _ => ?_
    cases hm : p.macro? m with
    | none => simp [expandPiece, hm]
    | some d =>
      simp only [expandPiece, hm]
      exact ih d.body

/-- The errors are those for the macros that are left. -/
theorem expandImpl_snd (m : MacroTable) (delta levels : ℕ) (t : Text) :
    (expandImpl m delta levels t).2 = (leaves m levels t).flatMap fun p =>
      (p.macro? m).toList.map fun d => recursiveExpansion delta d.name := by
  induction levels generalizing t with
  | zero =>
    rw [expandImpl_eq, gather_snd, leaves]
    refine List.flatMap_congr fun p _ => ?_
    rw [expandPiece]
    split
    · next h => simp [h]
    · next d h => simp [h]
  | succ levels ih =>
    rw [expandImpl_eq, gather_snd, leaves, List.flatMap_assoc]
    refine List.flatMap_congr fun p _ => ?_
    cases hm : p.macro? m with
    | none => simp [expandPiece, hm]
    | some d =>
      simp only [expandPiece, hm]
      exact ih d.body

/-- A macro is left where a chain is too long. -/
theorem exists_macro_left_iff :
    (∃ p ∈ leaves m levels t, ∃ d, p.macro? m = some d) ↔ Opens m (levels + 1) t := by
  induction levels generalizing t with
  | zero =>
    constructor
    · rintro ⟨p, hp, d, hd⟩
      exact ⟨p, hp, d, hd, trivial⟩
    · rintro ⟨p, hp, d, hd, -⟩
      exact ⟨p, hp, d, hd⟩
  | succ levels ih =>
    simp only [leaves, List.mem_flatMap]
    constructor
    · rintro ⟨q, ⟨p, hp, hq⟩, e, he⟩
      cases hm : p.macro? m with
      | none =>
        rw [hm, List.mem_singleton] at hq
        rw [hq, hm] at he
        cases he
      | some d =>
        rw [hm] at hq
        exact ⟨p, hp, d, hm, ih.1 ⟨q, hq, e, he⟩⟩
    · rintro ⟨p, hp, d, hm, hopen⟩
      obtain ⟨q, hq, e, he⟩ := ih.2 hopen
      exact ⟨q, ⟨p, hp, by rwa [hm]⟩, e, he⟩

theorem mem_expandImpl_snd {f : Finding} (h : f ∈ (expandImpl m delta levels t).2) :
    ∃ name, f = recursiveExpansion delta name := by
  rw [expandImpl_snd, List.mem_flatMap] at h
  obtain ⟨p, -, hf⟩ := h
  obtain ⟨d, -, rfl⟩ := List.mem_map.1 hf
  exact ⟨d.name, rfl⟩

/-- **Errors of an expansion**: there is one exactly where a chain is
longer than the bodies may nest. -/
theorem expandImpl_error_iff :
    (∃ name, recursiveExpansion delta name ∈ (expandImpl m delta levels t).2) ↔
      Opens m (levels + 1) t := by
  rw [← exists_macro_left_iff]
  constructor
  · rintro ⟨name, h⟩
    rw [expandImpl_snd, List.mem_flatMap] at h
    obtain ⟨p, hp, hf⟩ := h
    obtain ⟨d, hd, -⟩ := List.mem_map.1 hf
    exact ⟨p, hp, d, by simpa using hd⟩
  · rintro ⟨p, hp, d, hd⟩
    refine ⟨d.name, ?_⟩
    rw [expandImpl_snd, List.mem_flatMap]
    exact ⟨p, hp, by simp [hd]⟩

theorem expandImpl_snd_eq_nil_iff :
    (expandImpl m delta levels t).2 = [] ↔ ¬ Opens m (levels + 1) t := by
  rw [List.eq_nil_iff_forall_not_mem]
  constructor
  · intro h hopen
    obtain ⟨name, hname⟩ := expandImpl_error_iff.2 hopen
    exact h _ hname
  · intro h f hf
    obtain ⟨name, rfl⟩ := mem_expandImpl_snd hf
    exact h (expandImpl_error_iff.1 ⟨name, hf⟩)

/-- Nothing depends on the use site but where the errors are reported. -/
theorem expand_fst_zero (m : MacroTable) (delta : ℕ) (t : Text) :
    (expand m t delta).1 = (expand m t 0).1 := by
  rw [expand, expand, expandImpl_fst, expandImpl_fst]

/-! ## Chains -/

theorem lookup_of_macro? (h : p.macro? m = some d) : m.lookup d.name = some d := by
  obtain ⟨name, -, hname⟩ := Option.bind_eq_some_iff.1 h
  have hsame : d.name = name := by
    have := List.find?_some hname
    simpa using this
  rw [hsame]
  exact hname

/-- A chain that begins in the text, as a list. -/
theorem exists_chain_of_opens (h : Opens m n t) :
    ∃ ds : List MacroDef, ds.length = n ∧ List.IsChain (Refers m) ds ∧
      (∀ d ∈ ds, m.lookup d.name = some d) ∧
      ∀ d ∈ ds.head?, ∃ p ∈ pieces t, p.macro? m = some d := by
  induction n generalizing t with
  | zero => exact ⟨[], rfl, .nil, by simp, by simp⟩
  | succ n ih =>
    obtain ⟨p, hp, d, hd, hopen⟩ := h
    obtain ⟨ds, hlen, hchain, htable, hhead⟩ := ih hopen
    refine ⟨d :: ds, by rw [List.length_cons, hlen], ?_, ?_, ?_⟩
    · cases ds with
      | nil => exact .singleton d
      | cons e es => exact .cons_cons (hhead e rfl) hchain
    · intro e he
      rcases List.mem_cons.1 he with rfl | he
      · exact lookup_of_macro? hd
      · exact htable e he
    · intro e he
      obtain rfl : d = e := by simpa using he
      exact ⟨p, hp, hd⟩

/-- **Short chains are expanded without an error.** -/
theorem Acyclic.not_opens (h : Acyclic m) (t : Text) : ¬ Opens m (kMaxExpansionDepth + 1) t := by
  intro hopen
  obtain ⟨ds, hlen, hchain, htable, -⟩ := exists_chain_of_opens hopen
  have hle := h.short ds hchain htable
  omega

/-- A table whose bodies name no macros. -/
theorem acyclic_of_macroFree (h : ∀ d ∈ m, MacroFree m d.body) : Acyclic m := by
  have hnone : ∀ d e, m.lookup d.name = some d → ¬ Refers m d e := by
    rintro d e hd ⟨p, hp, he⟩
    rw [h d (List.mem_of_find?_eq_some hd) p hp] at he
    cases he
  constructor
  · intro d hcycle
    obtain ⟨e, hde, -⟩ := Relation.TransGen.head'_iff.1 hcycle
    obtain ⟨b, -, p, -, hd⟩ := Relation.TransGen.tail'_iff.1 hcycle
    exact hnone d e (lookup_of_macro? hd) hde
  · intro ds hchain htable
    cases ds with
    | nil => exact Nat.zero_le _
    | cons d ds =>
      cases ds with
      | nil => exact Nat.succ_le_of_lt (by decide)
      | cons e es =>
        exact absurd (List.isChain_cons_cons.1 hchain).1 (hnone d e (htable d (by simp)))

/-- From a cycle chains of every length begin. -/
theorem opens_of_cycle (h : Relation.TransGen (Refers m) e e) (n : ℕ) : Opens m n e.body := by
  induction n generalizing e with
  | zero => trivial
  | succ n ih =>
    obtain ⟨d, hed, hde⟩ := Relation.TransGen.head'_iff.1 h
    have hcycle : Relation.TransGen (Refers m) d d := .tail' hde hed
    obtain ⟨p, hp, hd⟩ := hed
    exact ⟨p, hp, d, hd, ih hcycle⟩

theorem opens_of_reaches (h : Relation.ReflTransGen (Refers m) d e)
    (hcycle : Relation.TransGen (Refers m) e e) (n : ℕ) : Opens m n d.body := by
  induction h using Relation.ReflTransGen.head_induction_on generalizing n with
  | refl => exact opens_of_cycle hcycle n
  | head hab _ ih =>
    cases n with
    | zero => trivial
    | succ n =>
      obtain ⟨p, hp, hd⟩ := hab
      exact ⟨p, hp, _, hd, ih n⟩

/-- **A cycle that is reached is an error.** -/
theorem error_of_reachesCycle (h : ReachesCycle m t) (delta : ℕ) :
    ∃ name, recursiveExpansion delta name ∈ (expand m t delta).2 := by
  obtain ⟨p, hp, d, e, hd, hde, hcycle⟩ := h
  exact expandImpl_error_iff.2 ⟨p, hp, d, hd, opens_of_reaches hde hcycle _⟩

/-! ## The result read again -/

theorem leaves_macroFree (h : ¬ Opens m (kMaxExpansionDepth + 1) t) :
    ∀ p ∈ leaves m kMaxExpansionDepth t, p.macro? m = none := by
  intro p hp
  by_contra hne
  obtain ⟨d, hd⟩ := Option.ne_none_iff_exists'.1 hne
  exact h (exists_macro_left_iff.1 ⟨p, hp, d, hd⟩)

/-- **An expansion without errors is complete** exactly if no macro's
name is formed by joining. -/
theorem macroFree_expand_iff (h : ¬ Opens m (kMaxExpansionDepth + 1) t) :
    MacroFree m (expand m t 0).1 ↔ JoinsNoMacro m t := by
  constructor
  · intro hfree p hp _
    exact hfree p hp
  · intro hjoin p hp
    by_cases hleft : p ∈ leaves m kMaxExpansionDepth t
    · exact leaves_macroFree h p hleft
    · exact hjoin p hp hleft

/-! ## Reading a text without macros -/

section Suffixes

variable {c : Char} {cs r : Text}

theorem isIdentBody_of_isIdentStart (h : isIdentStart c = true) : isIdentBody c = true := by
  rw [isIdentBody, h, Bool.true_or]

theorem ne_of_isIdentStart (h : isIdentStart c = true) : c ≠ '"' ∧ c ≠ '%' := by
  constructor
  all_goals
    rintro rfl
    exact absurd h (by decide)

@[simp] theorem macroFree_nil (m : MacroTable) : MacroFree m [] := by
  intro p hp
  cases hp

/-- A word is read whole. -/
theorem macroFree_word (hs : isIdentStart c = true) :
    MacroFree m (c :: cs) ↔
      m.lookup (c :: cs.takeWhile isIdentBody) = none ∧ MacroFree m (cs.dropWhile isIdentBody) := by
  obtain ⟨hquote, hpercent⟩ := ne_of_isIdentStart hs
  have hcut : cutPiece c cs = (.word (c :: cs.takeWhile isIdentBody), cs.dropWhile isIdentBody) := by
    rw [cutPiece, if_neg hquote, if_neg hpercent, if_pos hs]
  simp only [MacroFree, pieces_cons, hcut, List.forall_mem_cons]
  rfl

/-- **The signs around a name** do not change which names are read: what
is free of macros behind a byte is free of them with it. -/
theorem macroFree_cons (hquote : c ≠ '"') (hs : isIdentStart c = false) :
    MacroFree m (c :: cs) ↔ MacroFree m cs := by
  induction hn : cs.length using Nat.strong_induction_on generalizing c cs with
  | _ n ih =>
    have hbyte : cutPiece c cs = (.byte c, cs) → (MacroFree m (c :: cs) ↔ MacroFree m cs) := by
      intro hcut
      have hnone : Piece.macro? m (.byte c) = none := rfl
      simp only [MacroFree, pieces_cons, hcut, List.forall_mem_cons, hnone, true_and]
    by_cases hpercent : c = '%'
    · subst hpercent
      by_cases href : (cs.head?.any isIdentStart) = true ∧
          (cs.dropWhile isIdentBody).head? = some '%'
      · obtain ⟨d, ds, rfl⟩ : ∃ d ds, cs = d :: ds := by
          cases cs with
          | nil => cases href.1
          | cons d ds => exact ⟨d, ds, rfl⟩
        have hd : isIdentStart d = true := by simpa using href.1
        have hbody := isIdentBody_of_isIdentStart hd
        obtain ⟨r, hr⟩ : ∃ r, (d :: ds).dropWhile isIdentBody = '%' :: r :=
          ⟨_, List.eq_cons_of_mem_head? (by simpa using href.2)⟩
        have hcut : cutPiece '%' (d :: ds) = (.ref ((d :: ds).takeWhile isIdentBody), r) := by
          rw [cutPiece, if_neg (by decide), if_pos rfl, if_pos href, hr, List.tail_cons]
        have htake : (d :: ds).takeWhile isIdentBody = d :: ds.takeWhile isIdentBody := by
          simp [hbody]
        have hdrop : ds.dropWhile isIdentBody = '%' :: r := by
          rw [← hr]
          simp [hbody]
        have hlen : r.length < n := by
          have hle := length_dropWhile_le isIdentBody ds
          rw [hdrop] at hle
          simp only [List.length_cons] at hle hn
          omega
        rw [macroFree_word hd, hdrop, ih r.length hlen hquote hs rfl]
        simp only [MacroFree, pieces_cons, hcut, List.forall_mem_cons, htake]
        rfl
      · refine hbyte ?_
        rw [cutPiece, if_neg (by decide), if_pos rfl, if_neg href]
    · refine hbyte ?_
      rw [cutPiece, if_neg hquote, if_neg hpercent, if_neg (by simp [hs])]

/-- Free of macros, or in the middle of a name. -/
def Aligned (m : MacroTable) (r : Text) : Prop :=
  MacroFree m r ∨ ∃ c, r.head? = some c ∧ isIdentBody c = true

theorem Aligned.macroFree (h : Aligned m (c :: cs)) (hc : isIdentBody c = false) :
    MacroFree m (c :: cs) := by
  rcases h with h | ⟨d, hd, hbody⟩
  · exact h
  · obtain rfl : c = d := Option.some.inj hd
    rw [hc] at hbody
    cases hbody

theorem macroFree_dropWhile (h : MacroFree m (c :: cs)) (hs : isIdentStart c = true) :
    MacroFree m (cs.dropWhile isIdentBody) := ((macroFree_word hs).1 h).2

/-- **Reading on outside string literals** leads into a name, or to a text
free of macros. -/
theorem aligned_of_append {a : Text} (h : MacroFree m (a ++ r)) (ha : '"' ∉ a) : Aligned m r := by
  induction hn : a.length using Nat.strong_induction_on generalizing a with
  | _ n ih =>
    cases a with
    | nil => exact .inl h
    | cons c cs =>
      rw [List.length_cons] at hn
      have hquote : c ≠ '"' := by
        rintro rfl
        exact ha (by simp)
      have hrest : '"' ∉ cs := fun hmem => ha (by simp [hmem])
      rw [List.cons_append] at h
      by_cases hs : isIdentStart c = true
      · by_cases hall : ∀ e ∈ cs, isIdentBody e = true
        · -- the word goes on up to `r`, and may go on in it
          cases r with
          | nil => exact .inl (macroFree_nil m)
          | cons d ds =>
            by_cases hd : isIdentBody d = true
            · exact .inr ⟨d, rfl, hd⟩
            · have := macroFree_dropWhile h hs
              rw [List.dropWhile_append_of_pos hall, List.dropWhile_cons_of_neg hd] at this
              exact .inl this
        · have hdrop : (cs ++ r).dropWhile isIdentBody = cs.dropWhile isIdentBody ++ r := by
            rw [List.dropWhile_append, if_neg]
            simpa [List.isEmpty_iff, List.dropWhile_eq_nil_iff] using hall
          have htail := macroFree_dropWhile h hs
          rw [hdrop] at htail
          have hle := length_dropWhile_le isIdentBody cs
          refine ih _ (by omega) htail ?_ rfl
          exact fun hmem => hrest ((List.dropWhile_suffix _).subset hmem)
      · rw [Bool.not_eq_true] at hs
        exact ih _ (by omega) ((macroFree_cons hquote hs).1 h) hrest rfl

end Suffixes

end MacroExpander

end Preprocess

end Nslc
