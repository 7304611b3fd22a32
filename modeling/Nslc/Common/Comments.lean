import Nslc.Common.Lines
/-!
# Strings, comments and blanks

The cuts of a string literal and of a block comment, and `Trivia`: a
text made of blanks, line comments and block comments only, given the
text that stands behind it. A line comment without its newline and a
block comment without its closing mark are comments only at the end of
the whole text.
-/

namespace Nslc

/-- After an opening quote: the bytes through the closing quote, and the
rest. A backslash takes the next byte with it. -/
def takeString : Text → Text × Text
  | [] => ([], [])
  | c :: cs =>
    if c = '"' then ([c], cs)
    else if c = '\\' then
      match cs with
      | [] => ([c], [])
      | d :: ds => (c :: d :: (takeString ds).1, (takeString ds).2)
    else (c :: (takeString cs).1, (takeString cs).2)

/-- A block comment after its opening: the bytes through the closing
mark and the rest. An unclosed comment stops in front of the text's last
byte, which the callers treat each in their own way. -/
structure BlockComment where
  copied : Text
  closed : Bool
  rest : Text

def takeBlock : Text → BlockComment
  | [] => ⟨[], false, []⟩
  | c :: cs =>
    match cs with
    | [] => ⟨[], false, [c]⟩
    | d :: ds =>
      if c = '*' ∧ d = '/' then ⟨[c, d], true, ds⟩
      else
        let r := takeBlock cs
        ⟨c :: r.copied, r.closed, r.rest⟩

/-- The cut loses nothing. -/
theorem takeBlock_append (t : Text) : (takeBlock t).copied ++ (takeBlock t).rest = t := by
  fun_induction takeBlock t with
  | case1 => rfl
  | case2 c => rfl
  | case3 c d ds h => rfl
  | case4 c d ds h ih => exact congrArg (c :: ·) ih

/-- The text has no closing mark inside. -/
def NoClose (t : Text) : Prop := ¬ ['*', '/'] <:+: t

theorem noClose_nil : NoClose [] := by simp [NoClose]

theorem noClose_single (c : Char) : NoClose [c] := by
  intro h
  have := h.length_le
  simp at this

/-- A mark that does not begin a text stands in its tail. -/
theorem NoClose.cons {c d : Char} {t : Text} (h : NoClose (d :: t)) (hcd : ¬ (c = '*' ∧ d = '/')) :
    NoClose (c :: d :: t) := by
  intro hin
  rcases List.infix_cons_iff.1 hin with hp | hin
  · obtain ⟨r, hr⟩ := hp
    simp only [List.cons_append, List.nil_append, List.cons.injEq] at hr
    exact hcd ⟨hr.1.symm, hr.2.1.symm⟩
  · exact h hin

/-- **The block comment cut.** It ends behind the first closing mark. -/
theorem takeBlock_of_closed {t : Text} (h : (takeBlock t).closed = true) :
    ∃ body, NoClose body ∧ (takeBlock t).copied = body ++ ['*', '/'] := by
  fun_induction takeBlock t with
  | case1 => exact absurd h (by simp)
  | case2 c => exact absurd h (by simp)
  | case3 c d ds hcd =>
    obtain ⟨rfl, rfl⟩ := hcd
    exact ⟨[], noClose_nil, rfl⟩
  | case4 c d ds hcd ih =>
    obtain ⟨body, hbody, heq⟩ := ih h
    refine ⟨c :: body, ?_, by simp [heq]⟩
    cases body with
    | nil => exact noClose_single c
    | cons b bs =>
      -- the second byte of the text is the first of the body
      have happ : (takeBlock (d :: ds)).copied ++ (takeBlock (d :: ds)).rest = d :: ds :=
        takeBlock_append _
      rw [heq] at happ
      obtain rfl : b = d := (List.cons.inj happ).1
      exact hbody.cons hcd

/-- Without a closing mark all but the last byte is taken. -/
theorem takeBlock_of_open {t : Text} (h : (takeBlock t).closed = false) :
    NoClose t ∧ (takeBlock t).rest.length ≤ 1 := by
  fun_induction takeBlock t with
  | case1 => exact ⟨noClose_nil, by simp⟩
  | case2 c => exact ⟨noClose_single c, by simp⟩
  | case3 c d ds hcd => exact absurd h (by simp)
  | case4 c d ds hcd ih => exact ⟨(ih h).1.cons hcd, (ih h).2⟩

/-- Blanks between tokens. -/
def isBlank (c : Char) : Bool := c == ' ' || c == '\t' || c == '\r' || c == '\n'

/-- Blanks and comments, with `after` behind them. -/
inductive Trivia (after : Text) : Text → Prop
  | nil : Trivia after []
  | blank {c : Char} {t : Text} : isBlank c = true → Trivia after t → Trivia after (c :: t)
  | lineComment {body t : Text} : '\n' ∉ body → Trivia after ('\n' :: t) →
      Trivia after ('/' :: '/' :: (body ++ '\n' :: t))
  | lastLineComment {body : Text} : '\n' ∉ body → after = [] → Trivia after ('/' :: '/' :: body)
  | blockComment {body t : Text} : NoClose body → Trivia after t →
      Trivia after ('/' :: '*' :: (body ++ '*' :: '/' :: t))
  | openComment {body : Text} : NoClose body → after = [] → Trivia after ('/' :: '*' :: body)

end Nslc
