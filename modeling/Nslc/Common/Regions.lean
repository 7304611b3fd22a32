import Nslc.Common.Comments
/-!
# Regions of a text

An automaton that reads a text byte by byte and knows whether it stands
in code, in a string literal or in a comment. A region carries over from
one piece of text to the next, so what lies outside strings and comments
is defined for a text that is written piece by piece. The cuts of
strings and comments follow it.
-/

namespace Nslc

inductive Region where
  | code
  /-- Behind a `/` of the code, which may open a comment. -/
  | slash
  | string
  /-- Behind a backslash in a string. -/
  | escape
  | lineComment
  | block
  /-- Behind a `*` of a block comment, which may close it. -/
  | star
  deriving DecidableEq, Repr

namespace Region

/-- The region behind the byte `c`. -/
def next (r : Region) (c : Char) : Region :=
  match r with
  | code => if c = '"' then string else if c = '/' then slash else code
  | slash =>
    if c = '"' then string else if c = '/' then lineComment else if c = '*' then block else code
  | string => if c = '"' then code else if c = '\\' then escape else if c = '\n' then code else string
  | escape => string
  | lineComment => if c = '\n' then code else lineComment
  | block => if c = '*' then star else block
  | star => if c = '/' then code else if c = '*' then star else block

/-- The region behind the text `t`. -/
def scan (r : Region) (t : Text) : Region := t.foldl next r

/-- Outside strings and comments. -/
def isOutside : Region → Bool
  | code | slash => true
  | _ => false

@[simp] theorem scan_nil (r : Region) : r.scan [] = r := rfl

@[simp] theorem scan_cons (r : Region) (c : Char) (t : Text) : r.scan (c :: t) = (r.next c).scan t :=
  rfl

theorem scan_append (r : Region) (a b : Text) : r.scan (a ++ b) = (r.scan a).scan b :=
  List.foldl_append

/-- Behind a `/` that opens no comment the region is that of code. -/
theorem next_slash {c : Char} (h₁ : c ≠ '/') (h₂ : c ≠ '*') : slash.next c = code.next c := by
  simp [next, h₁, h₂]

theorem scan_slash {t : Text} (hne : t ≠ []) (h₁ : t.head? ≠ some '/') (h₂ : t.head? ≠ some '*') :
    slash.scan t = code.scan t := by
  cases t with
  | nil => exact absurd rfl hne
  | cons c cs =>
    simp only [List.head?_cons, ne_eq, Option.some.injEq] at h₁ h₂
    rw [scan_cons, scan_cons, next_slash h₁ h₂]

/-- A line comment goes on to the newline. -/
theorem scan_lineComment {t : Text} (h : '\n' ∉ t) : lineComment.scan t = lineComment := by
  induction t with
  | nil => rfl
  | cons c cs ih =>
    have hc : c ≠ '\n' := fun he => h (by simp [he])
    rw [scan_cons, next, if_neg hc]
    exact ih fun hmem => h (by simp [hmem])

end Region

/-! ## The cuts -/

/-- The cut loses nothing. -/
theorem takeString_append (t : Text) : (takeString t).1 ++ (takeString t).2 = t := by
  fun_induction takeString t <;> simp_all

/-- The region stays inside a string or comment in front of every byte
of `t`. -/
def Region.StaysInside (r : Region) (t : Text) : Prop :=
  ∀ a b, t = a ++ b → b ≠ [] → (r.scan a).isOutside = false

theorem staysInside_nil (r : Region) : r.StaysInside [] := by
  intro a b h hne
  exact absurd (List.append_eq_nil_iff.1 h.symm).2 hne

theorem staysInside_cons {r : Region} {c : Char} {t : Text} (hr : r.isOutside = false)
    (h : (r.next c).StaysInside t) : r.StaysInside (c :: t) := by
  intro a b heq hne
  cases a with
  | nil => exact hr
  | cons d ds =>
    obtain ⟨rfl, rfl⟩ := List.cons.inj heq
    exact h ds b rfl hne

/-- **The string cut.** Inside it the region is that of a string; behind
it the string is closed, or the text is at its end. -/
theorem scan_takeString {t : Text} (hnl : '\n' ∉ t) :
    Region.string.StaysInside (takeString t).1 ∧
      (Region.string.scan (takeString t).1 = .code ∨
        (takeString t).2 = [] ∧ (Region.string.scan (takeString t).1).isOutside = false) := by
  fun_induction takeString t with
  | case1 => exact ⟨staysInside_nil _, .inr ⟨rfl, rfl⟩⟩
  | case2 cs => exact ⟨staysInside_cons rfl (staysInside_nil _), .inl rfl⟩
  | case3 hq => exact ⟨staysInside_cons rfl (staysInside_nil _), .inr ⟨rfl, rfl⟩⟩
  | case4 hq d ds ih =>
    obtain ⟨hin, hend⟩ := ih fun h => hnl (by simp [h])
    exact ⟨staysInside_cons rfl (staysInside_cons rfl hin), hend⟩
  | case5 c cs hq hb ih =>
    obtain ⟨hin, hend⟩ := ih fun h => hnl (by simp [h])
    have hc : c ≠ '\n' := fun he => hnl (by simp [he])
    have hnext : Region.string.next c = .string := by simp [Region.next, hq, hb, hc]
    refine ⟨staysInside_cons rfl ?_, ?_⟩
    · rw [hnext]
      exact hin
    · rw [Region.scan_cons, hnext]
      exact hend

/-- Inside a block comment, with no closing mark just begun. -/
def Region.InBlock (r : Region) (t : Text) : Prop :=
  r = .block ∨ r = .star ∧ t.head? ≠ some '/'

theorem Region.InBlock.isOutside {r : Region} {t : Text} (h : r.InBlock t) : r.isOutside = false := by
  rcases h with rfl | ⟨rfl, -⟩ <;> rfl

/-- The byte in front of a text without a closing mark there. -/
theorem Region.InBlock.next {r : Region} {c : Char} {t : Text} (h : r.InBlock (c :: t))
    (hclose : ¬ (c = '*' ∧ t.head? = some '/')) : (r.next c).InBlock t := by
  by_cases hc : c = '*'
  · have hnext : r.next c = .star := by
      rcases h with rfl | ⟨rfl, -⟩ <;> simp [Region.next, hc]
    exact .inr ⟨hnext, fun hd => hclose ⟨hc, hd⟩⟩
  · refine .inl ?_
    rcases h with rfl | ⟨rfl, hd⟩
    · simp [Region.next, hc]
    · have hs : c ≠ '/' := by simpa using hd
      simp [Region.next, hc, hs]

/-- **The block comment cut**: a closed comment leads back to the code,
an open one goes on behind the last byte. -/
theorem scan_takeBlock {r : Region} {t : Text} (h : r.InBlock t) :
    r.StaysInside (takeBlock t).copied ∧
      ((takeBlock t).closed = true → r.scan (takeBlock t).copied = .code) ∧
      ((takeBlock t).closed = false → r.StaysInside t ∧ (r.scan t).isOutside = false) := by
  fun_induction takeBlock t generalizing r with
  | case1 => exact ⟨staysInside_nil _, by simp, fun _ => ⟨staysInside_nil _, h.isOutside⟩⟩
  | case2 c =>
    have hnext := h.next (by simp)
    exact ⟨staysInside_nil _, by simp, fun _ =>
      ⟨staysInside_cons h.isOutside (staysInside_nil _), hnext.isOutside⟩⟩
  | case3 c d ds hcd =>
    obtain ⟨rfl, rfl⟩ := hcd
    have hnext : r.next '*' = .star := by rcases h with rfl | ⟨rfl, -⟩ <;> rfl
    refine ⟨staysInside_cons h.isOutside (staysInside_cons ?_ (staysInside_nil _)), ?_, by simp⟩
    · rw [hnext]
      rfl
    · intro _
      rw [Region.scan_cons, hnext]
      rfl
  | case4 c d ds hcd ih =>
    obtain ⟨hin, hclosed, hopen⟩ := ih (h.next (by simpa using hcd))
    refine ⟨staysInside_cons h.isOutside hin, hclosed, fun ho => ?_⟩
    exact ⟨staysInside_cons h.isOutside (hopen ho).1, (hopen ho).2⟩

end Nslc
