import Nslc.Lex.Directives
/-!
# Pieces of a text

A text cut into comments, strings and single bytes outside of them. The
lexer cuts where they do: it skips over blanks and comments
(`pieces_skipUpto`), and a token that is no directive is one string or
single bytes (`pieces_token`).
-/

namespace Nslc

namespace Lex

inductive Piece where
  | char (c : Char)
  | lineComment (text : Text)
  | blockComment (text : Text) (closed : Bool)
  | string (text : Text) (closed : Bool)
  deriving DecidableEq, Repr

def Piece.text : Piece → Text
  | .char c => [c]
  | .lineComment text | .blockComment text _ | .string text _ => text

/-- The piece a text begins with, and the text behind it. -/
def cutPiece (c : Char) (cs : Text) : Piece × Text :=
  if c = '/' ∧ cs.head? = some '/' then
    (.lineComment (c :: '/' :: cs.tail.takeWhile (· ≠ '\n')), cs.tail.dropWhile (· ≠ '\n'))
  else if c = '/' ∧ cs.head? = some '*' then
    let b := takeBlock cs.tail
    -- an unterminated comment is consumed to the end of the buffer
    if b.closed then (.blockComment (c :: '*' :: b.copied) true, b.rest)
    else (.blockComment (c :: cs) false, [])
  else if c = '"' then
    let r := stringBody cs
    (.string (c :: cs.take r.1) r.2, cs.drop r.1)
  else (.char c, cs)

/-- Every piece takes a byte, so that the length of the text is fuel
enough. -/
def piecesUpto : ℕ → Text → List Piece
  | 0, _ => []
  | _ + 1, [] => []
  | fuel + 1, c :: cs => (cutPiece c cs).1 :: piecesUpto fuel (cutPiece c cs).2

def pieces (t : Text) : List Piece := piecesUpto t.length t

/-- The cuts by cases. -/
inductive Cut : Text → Piece → Text → Prop
  | lineComment (ds : Text) :
      Cut ('/' :: '/' :: ds) (.lineComment ('/' :: '/' :: ds.takeWhile (· ≠ '\n')))
        (ds.dropWhile (· ≠ '\n'))
  | closedComment (ds : Text) : (takeBlock ds).closed = true →
      Cut ('/' :: '*' :: ds) (.blockComment ('/' :: '*' :: (takeBlock ds).copied) true)
        (takeBlock ds).rest
  | openComment (ds : Text) : (takeBlock ds).closed = false →
      Cut ('/' :: '*' :: ds) (.blockComment ('/' :: '*' :: ds) false) []
  | string (cs : Text) :
      Cut ('"' :: cs) (.string ('"' :: cs.take (stringBody cs).1) (stringBody cs).2)
        (cs.drop (stringBody cs).1)
  | char (c : Char) (cs : Text) : c ≠ '"' →
      (c = '/' → cs.head? ≠ some '/' ∧ cs.head? ≠ some '*') → Cut (c :: cs) (.char c) cs

theorem cut_cutPiece (c : Char) (cs : Text) :
    Cut (c :: cs) (cutPiece c cs).1 (cutPiece c cs).2 := by
  by_cases hline : c = '/' ∧ cs.head? = some '/'
  · obtain ⟨rfl, hhead⟩ := hline
    obtain ⟨ds, rfl⟩ := List.head?_eq_some_iff.1 hhead
    exact .lineComment ds
  · by_cases hblock : c = '/' ∧ cs.head? = some '*'
    · obtain ⟨rfl, hhead⟩ := hblock
      obtain ⟨ds, rfl⟩ := List.head?_eq_some_iff.1 hhead
      cases hclosed : (takeBlock ds).closed with
      | true =>
        have heq : cutPiece '/' ('*' :: ds) =
            (.blockComment ('/' :: '*' :: (takeBlock ds).copied) true, (takeBlock ds).rest) := by
          simp [cutPiece, hclosed]
        rw [heq]
        exact .closedComment ds hclosed
      | false =>
        have heq : cutPiece '/' ('*' :: ds) = (.blockComment ('/' :: '*' :: ds) false, []) := by
          simp [cutPiece, hclosed]
        rw [heq]
        exact .openComment ds hclosed
    · by_cases hquote : c = '"'
      · subst hquote
        exact .string cs
      · have heq : cutPiece c cs = (.char c, cs) := by
          rw [cutPiece, if_neg hline, if_neg hblock, if_neg hquote]
        rw [heq]
        exact .char c cs hquote fun hc => ⟨fun h => hline ⟨hc, h⟩, fun h => hblock ⟨hc, h⟩⟩

/-- **The cut loses nothing.** -/
theorem Cut.append {t rest : Text} {p : Piece} (h : Cut t p rest) : p.text ++ rest = t := by
  cases h with
  | lineComment ds =>
    simp only [Piece.text, List.cons_append, List.takeWhile_append_dropWhile]
  | closedComment ds hclosed => exact congrArg (fun t => '/' :: '*' :: t) (takeBlock_append ds)
  | openComment ds hopen => exact List.append_nil _
  | string cs => simp only [Piece.text, List.cons_append, List.take_append_drop]
  | char c cs hquote hslash => rfl

theorem Cut.length_text_pos {t rest : Text} {p : Piece} (h : Cut t p rest) :
    0 < p.text.length := by
  cases h <;> simp [Piece.text]

theorem length_cutPiece_lt (c : Char) (cs : Text) : (cutPiece c cs).2.length < (c :: cs).length := by
  have happ := congrArg List.length (cut_cutPiece c cs).append
  have hpos := (cut_cutPiece c cs).length_text_pos
  rw [List.length_append] at happ
  omega

theorem piecesUpto_eq {fuel fuel' : ℕ} {t : Text} (h : t.length ≤ fuel) (h' : t.length ≤ fuel') :
    piecesUpto fuel t = piecesUpto fuel' t := by
  induction fuel generalizing t fuel' with
  | zero =>
    obtain rfl : t = [] := List.length_eq_zero_iff.1 (by omega)
    cases fuel' <;> rfl
  | succ fuel ih =>
    cases t with
    | nil => cases fuel' <;> rfl
    | cons c cs =>
      have hlt := length_cutPiece_lt c cs
      obtain ⟨fuel', rfl⟩ : ∃ k, fuel' = k + 1 := Nat.exists_eq_succ_of_ne_zero (by
        rw [List.length_cons] at h'
        omega)
      exact congrArg _ (ih (by omega) (by omega))

@[simp] theorem pieces_nil : pieces [] = [] := rfl

theorem pieces_cons (c : Char) (cs : Text) :
    pieces (c :: cs) = (cutPiece c cs).1 :: pieces (cutPiece c cs).2 := by
  have hlt := length_cutPiece_lt c cs
  rw [pieces, List.length_cons, piecesUpto, pieces]
  exact congrArg _ (piecesUpto_eq (by rw [List.length_cons] at hlt; omega) le_rfl)

/-- **The pieces are the text.** -/
theorem flatMap_pieces (t : Text) : (pieces t).flatMap Piece.text = t := by
  induction hn : t.length using Nat.strong_induction_on generalizing t with
  | _ n ih =>
    cases t with
    | nil => rfl
    | cons c cs =>
      rw [pieces_cons, List.flatMap_cons, ih _ (hn ▸ length_cutPiece_lt c cs) _ rfl]
      exact (cut_cutPiece c cs).append

theorem pieces_eq_nil {t : Text} : pieces t = [] ↔ t = [] := by
  cases t with
  | nil => simp
  | cons c cs => simp [pieces_cons]

/-! ## The lexer's cuts -/

/-- Between tokens. -/
def Piece.isGap : Piece → Bool
  | .char c => isBlank c
  | .lineComment _ | .blockComment _ _ => true
  | .string _ _ => false

theorem pieces_char {c : Char} {cs : Text} (hquote : c ≠ '"')
    (hslash : c = '/' → cs.head? ≠ some '/' ∧ cs.head? ≠ some '*') :
    pieces (c :: cs) = .char c :: pieces cs := by
  have hcut : cutPiece c cs = (.char c, cs) := by
    rw [cutPiece, if_neg fun h => (hslash h.1).1 h.2, if_neg fun h => (hslash h.1).2 h.2,
      if_neg hquote]
  rw [pieces_cons, hcut]

/-- **What the lexer skips** are blanks and comments. -/
theorem pieces_skipUpto (fuel : ℕ) (t : Text) (a : Bool) :
    ∃ gap, pieces t = gap ++ pieces (skipUpto fuel t a).1 ∧ ∀ p ∈ gap, p.isGap = true := by
  induction fuel generalizing t a with
  | zero => exact ⟨[], rfl, by simp⟩
  | succ fuel ih =>
    cases t with
    | nil => exact ⟨[], rfl, by simp⟩
    | cons c cs =>
      -- one piece, and what is skipped behind it
      have hpiece : ∀ (p : Piece) (rest : Text) (b : Bool), p.isGap = true →
          pieces (c :: cs) = p :: pieces rest → ∃ gap,
            pieces (c :: cs) = gap ++ pieces (skipUpto fuel rest b).1 ∧
              ∀ p ∈ gap, p.isGap = true := by
        intro p rest b hp heq
        obtain ⟨gap, hgap, hall⟩ := ih rest b
        exact ⟨p :: gap, by rw [heq, hgap]; rfl, List.forall_mem_cons.2 ⟨hp, hall⟩⟩
      rw [skipUpto]
      split
      · next hc =>
        refine hpiece (.char c) cs true (by simp [Piece.isGap, hc, isBlank]) ?_
        exact pieces_char (by rw [hc]; decide) fun h => absurd (hc.symm.trans h) (by decide)
      · split
        · next hblank =>
          refine hpiece (.char c) cs a hblank ?_
          refine pieces_char ?_ ?_
          · rintro rfl
            exact absurd hblank (by decide)
          · rintro rfl
            exact absurd hblank (by decide)
        · split
          · next hline =>
            refine hpiece (.lineComment (c :: '/' :: cs.tail.takeWhile (· ≠ '\n'))) _ a rfl ?_
            rw [pieces_cons, cutPiece, if_pos hline]
          · next hline =>
            split
            · next hblock =>
              dsimp only
              by_cases hclosed : (takeBlock cs.tail).closed = true
              · rw [if_pos hclosed]
                refine hpiece (.blockComment (c :: '*' :: (takeBlock cs.tail).copied) true) _ _
                  rfl ?_
                simp [pieces_cons, cutPiece, hblock, hclosed]
              · rw [if_neg hclosed]
                refine ⟨[.blockComment (c :: cs) false], ?_, by simp [Piece.isGap]⟩
                simp [pieces_cons, cutPiece, hblock, hclosed]
            · exact ⟨[], rfl, by simp⟩

theorem pieces_plain {x : Text} (r : Text) (h : ∀ c ∈ x, isPlain c = true) :
    pieces (x ++ r) = x.map Piece.char ++ pieces r := by
  induction x with
  | nil => rfl
  | cons c cs ih =>
    have hc := h c List.mem_cons_self
    simp only [isPlain, Bool.and_eq_true, bne_iff_ne, ne_eq] at hc
    have htail := ih fun d hd => h d (List.mem_cons_of_mem _ hd)
    rw [List.cons_append, pieces_char hc.1.2 fun hslash => absurd hslash hc.1.1, htail]
    rfl

/-- **A token that is no directive** is one string, or single bytes. -/
theorem pieces_token {t : Text} {a : Bool} (ht : t ≠ []) (hfront : TokenFront t)
    (hnot : ¬ (a = true ∧ isLineDirective t = true)) :
    pieces t =
      (if t.head? = some '"' then
        [.string (t.take (scanToken a t).length) ((scanToken a t).kind == .stringLit)]
      else (t.take (scanToken a t).length).map Piece.char) ++
        pieces (t.drop (scanToken a t).length) := by
  cases t with
  | nil => exact absurd rfl ht
  | cons c cs =>
    obtain ⟨hblank, hcomment⟩ := hfront c cs rfl
    have hplain : ∀ n, c ≠ '"' → (∀ d ∈ (c :: cs).take n, isPlain d = true) →
        pieces (c :: cs) =
          (if (c :: cs).head? = some '"' then
            [.string ((c :: cs).take n) ((scanToken a (c :: cs)).kind == .stringLit)]
          else ((c :: cs).take n).map Piece.char) ++ pieces ((c :: cs).drop n) := by
      intro n hquote h
      rw [if_neg (by simpa using hquote), ← pieces_plain _ h, List.take_append_drop]
    have hnot' : ¬ (a = true ∧ c = '#' ∧ isLineDirective (c :: cs) = true) :=
      fun h => hnot ⟨h.1, h.2.2⟩
    have hscan : scanToken a (c :: cs) =
        if isIdentStart c || c == '_' then scanIdentifierOrKeyword (c :: cs)
        else if isDecDigit c then scanNumber (c :: cs)
        else if c = '"' then scanString (c :: cs)
        else scanPunctuation c cs.head? := by
      simp only [scanToken, if_neg hnot']
    by_cases hident : (isIdentStart c || c == '_') = true
    · rw [if_pos hident] at hscan
      refine hplain _ ?_ ?_
      · rintro rfl
        exact absurd hident (by decide)
      · rw [hscan, scanIdentifierOrKeyword, List.tail_cons, Nat.add_comm 1, List.take_succ_cons]
        refine List.forall_mem_cons.2 ⟨isPlain_of_isIdentBody ?_, isPlain_identUpto _ cs⟩
        rcases Bool.or_eq_true_iff.1 hident with hc | hc
        · simp [isIdentBody, hc]
        · simp [isIdentBody, hc]
    rw [if_neg hident] at hscan
    by_cases hdigit : isDecDigit c = true
    · rw [if_pos hdigit] at hscan
      refine hplain _ ?_ ?_
      · rintro rfl
        exact absurd hdigit (by decide)
      · rw [hscan]
        exact isPlain_scanNumber (c :: cs)
    rw [if_neg hdigit] at hscan
    by_cases hquote : c = '"'
    · subst hquote
      have hlength : (scanToken a ('"' :: cs)).length = (stringBody cs).1 + 1 := by
        rw [hscan, if_pos rfl]
        exact Nat.add_comm _ _
      have hkind : ((scanToken a ('"' :: cs)).kind == .stringLit) = (stringBody cs).2 := by
        have hone : ∀ b : Bool,
            ((if b = true then TokenKind.stringLit else .unknown) == .stringLit) = b := by decide
        rw [hscan, if_pos rfl]
        exact hone _
      have hcut : cutPiece '"' cs =
          (.string ('"' :: cs.take (stringBody cs).1) (stringBody cs).2,
            cs.drop (stringBody cs).1) := by
        simp [cutPiece]
      rw [List.head?_cons, if_pos rfl, hlength, hkind, List.take_succ_cons,
        List.drop_succ_cons, pieces_cons, hcut]
      rfl
    rw [if_neg hquote] at hscan
    by_cases hslash : c = '/'
    · -- not the first byte of a comment
      subst hslash
      have hlength : (scanToken a ('/' :: cs)).length = 1 := by
        rw [hscan]
        rfl
      rw [if_neg (by simp), hlength, pieces_char hquote fun _ =>
        ⟨fun h => hcomment ⟨rfl, .inl h⟩, fun h => hcomment ⟨rfl, .inr h⟩⟩]
      rfl
    have hfirst : isPlain c = true := by
      have hnewline : c ≠ '\n' := by
        rintro rfl
        exact absurd hblank (by decide)
      simp [isPlain, hslash, hquote, hnewline]
    refine hplain _ hquote ?_
    rw [hscan]
    rcases scanPunctuation_length c cs.head? with hlen | ⟨hlen, -, d, hd, hsecond⟩
    · rw [hlen]
      simpa using hfirst
    · rw [hlen]
      obtain ⟨ds, rfl⟩ := List.head?_eq_some_iff.1 hd
      simpa using ⟨hfirst, hsecond⟩

end Lex

end Nslc
