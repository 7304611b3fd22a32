import Nslc.Lex.Lexer
import Nslc.Preprocess.Calculation
/-!
# Preprocessor — macros named like the tail of a number

The expander reads identifiers, not numbers: the letters of `0xFF` or
`1e5` are a run of their own, which is looked up as a macro. A literal is
left alone whatever the bodies of the macros are exactly when no such
run is the name of one (`keepsLiterals_iff`).
-/

namespace Nslc

namespace Preprocess

namespace MacroExpander

/-! ## Where a token can begin -/

/-- Whether the bytes read so far leave a string literal open. -/
inductive Quotes where
  | outside
  | inside
  /-- Behind a backslash in a string. -/
  | escaped
  deriving DecidableEq, Repr

def Quotes.next (q : Quotes) (c : Char) : Quotes :=
  match q with
  | .outside => if c = '"' then .inside else .outside
  | .inside => if c = '"' then .outside else if c = '\\' then .escaped else .inside
  | .escaped => .inside

def Quotes.scan (q : Quotes) (t : Text) : Quotes := t.foldl Quotes.next q

/-- A token can begin behind `pre`: no string is open and no identifier
or number goes on. -/
structure TokenStart (pre : Text) : Prop where
  outside : Quotes.outside.scan pre = .outside
  stopped : ∀ c, pre.getLast? = some c → isIdentBody c = false

/-- `lit` is the number the evaluator or the lexer reads off the text
`lit ++ post`. -/
def ReadsNumber (lit post : Text) : Prop :=
  (Evaluator.startsNumber (lit ++ post) = true ∧ (Evaluator.numberToken (lit ++ post)).text = lit) ∨
    ((∃ c, (lit ++ post).head? = some c ∧ isDigit c = true) ∧
      (lit ++ post).take (Lex.scanNumber (lit ++ post)).length = lit)

/-- The number literal `lit` of the text `t`, between `pre` and `post`. -/
structure LiteralAt (t pre lit post : Text) : Prop where
  text : t = pre ++ lit ++ post
  start : TokenStart pre
  number : ReadsNumber lit post

/-! ## Pieces on both sides of a token's start -/

theorem scan_takeString {cs : Text} (rest : Text) (h : Quotes.inside.scan cs = .outside) :
    takeString (cs ++ rest) = ((takeString cs).1, (takeString cs).2 ++ rest) ∧
      Quotes.outside.scan (takeString cs).2 = .outside := by
  fun_induction takeString cs with
  | case1 => cases h
  | case2 cs =>
    refine ⟨?_, h⟩
    rw [List.cons_append]
    unfold takeString
    rfl
  | case3 => cases h
  | case4 =>
    next d ds hq ih =>
    have hin := ih h
    refine ⟨?_, hin.2⟩
    simp [takeString, hin.1]
  | case5 c cs hq hb ih =>
    have hstep : Quotes.inside.scan cs = .outside := by
      have hnext : Quotes.inside.next c = .inside := by simp [Quotes.next, hq, hb]
      simpa [Quotes.scan, hnext] using h
    have hin := ih hstep
    refine ⟨?_, hin.2⟩
    rw [List.cons_append, takeString_cons hq hb]
    simp only [hin.1]

/-- An identifier run that ends before the token's start. -/
theorem run_append {cs : Text} {c : Char} (rest : Text)
    (hlast : ∀ d, (c :: cs).getLast? = some d → isIdentBody d = false)
    (hc : isIdentBody c = true) :
    (cs ++ rest).takeWhile isIdentBody = cs.takeWhile isIdentBody ∧
      (cs ++ rest).dropWhile isIdentBody = cs.dropWhile isIdentBody ++ rest := by
  have hne : cs ≠ [] := by
    rintro rfl
    rw [hlast c rfl] at hc
    cases hc
  have hmem : cs.getLast hne ∈ cs := List.getLast_mem hne
  have hstop : isIdentBody (cs.getLast hne) = false := by
    apply hlast
    rw [List.getLast?_cons, List.getLast?_eq_some_getLast hne]
    rfl
  exact takeWhile_append_stop hmem hstop

theorem quotes_dropWhile {cs : Text} (h : Quotes.outside.scan cs = .outside) :
    Quotes.outside.scan (cs.dropWhile isIdentBody) = .outside := by
  induction cs with
  | nil => exact h
  | cons c cs ih =>
    by_cases hc : isIdentBody c = true
    · rw [List.dropWhile_cons_of_pos hc]
      apply ih
      have hq : c ≠ '"' := by
        rintro rfl
        exact absurd hc (by decide)
      have hnext : Quotes.outside.next c = .outside := by simp [Quotes.next, hq]
      simpa [Quotes.scan, hnext] using h
    · rw [List.dropWhile_cons_of_neg hc]
      exact h

/-- The last byte of what follows an identifier run. -/
theorem last_of_suffix {a b : Text} (hsuf : b <:+ a)
    (hlast : ∀ d, a.getLast? = some d → isIdentBody d = false) :
    ∀ d, b.getLast? = some d → isIdentBody d = false := by
  intro d hd
  obtain ⟨x, rfl⟩ := hsuf
  apply hlast
  rw [List.getLast?_append, hd]
  rfl

/-- The first piece is not changed by what stands behind a token's
start, and leaves a token's start. -/
theorem cutPiece_append {c : Char} {cs rest : Text} (h : TokenStart (c :: cs))
    (hrest : ∀ d, rest.head? = some d → isIdentStart d = false) :
    cutPiece c (cs ++ rest) = ((cutPiece c cs).1, (cutPiece c cs).2 ++ rest) ∧
      TokenStart (cutPiece c cs).2 := by
  obtain ⟨hout, hlast⟩ := h
  have hcs : ∀ d, cs.getLast? = some d → isIdentBody d = false :=
    last_of_suffix (List.suffix_cons c cs) hlast
  by_cases hq : c = '"'
  · have hin : Quotes.inside.scan cs = .outside := by
      rw [hq] at hout
      exact hout
    obtain ⟨htake, hquiet⟩ := scan_takeString rest hin
    simp only [cutPiece, if_pos hq, htake]
    refine ⟨trivial, hquiet, last_of_suffix ?_ hcs⟩
    exact ⟨(takeString cs).1, takeString_append cs⟩
  · have hquiet : Quotes.outside.scan cs = .outside := by
      have hnext : Quotes.outside.next c = .outside := by simp [Quotes.next, hq]
      simpa [Quotes.scan, hnext] using hout
    by_cases hp : c = '%'
    · cases cs with
      | nil =>
        have hno : ¬ ((rest.head?.any isIdentStart) = true ∧
            (rest.dropWhile isIdentBody).head? = some '%') := by
          rintro ⟨hstart, -⟩
          cases hh : rest.head? with
          | none => simp [hh] at hstart
          | some d => simp [hh, hrest d hh] at hstart
        simp only [cutPiece, if_neg hq, if_pos hp, List.nil_append, if_neg hno]
        exact ⟨by simp, hquiet, hcs⟩
      | cons d ds =>
        by_cases hd : isIdentStart d = true
        · obtain ⟨htake, hdrop⟩ := run_append rest hcs (isIdentBody_of_isIdentStart hd)
          have hrun := isIdentBody_of_isIdentStart hd
          have hdrop' : (d :: ds ++ rest).dropWhile isIdentBody =
              (d :: ds).dropWhile isIdentBody ++ rest := by
            rw [List.cons_append, List.dropWhile_cons_of_pos hrun, List.dropWhile_cons_of_pos hrun,
              hdrop]
          have htake' : (d :: ds ++ rest).takeWhile isIdentBody = (d :: ds).takeWhile isIdentBody := by
            rw [List.cons_append, List.takeWhile_cons_of_pos hrun, List.takeWhile_cons_of_pos hrun,
              htake]
          have hne : (d :: ds).dropWhile isIdentBody ≠ [] := by
            intro hnil
            have hall : ∀ x ∈ d :: ds, isIdentBody x = true := by simpa using hnil
            have hlst := hall _ (List.getLast_mem (List.cons_ne_nil d ds))
            rw [hcs _ (List.getLast?_eq_some_getLast (List.cons_ne_nil d ds))] at hlst
            cases hlst
          obtain ⟨e, es, he⟩ := List.exists_cons_of_ne_nil hne
          simp only [cutPiece, if_neg hq, if_pos hp, hdrop', htake', he]
          by_cases he' : e = '%'
          · have hcond : ((d :: ds ++ rest).head?.any isIdentStart) = true ∧
                (e :: es ++ rest).head? = some '%' := by simp [hd, he']
            have hcond' : ((d :: ds).head?.any isIdentStart) = true ∧ (e :: es).head? = some '%' := by
              simp [hd, he']
            rw [if_pos hcond, if_pos hcond']
            have hdropq := quotes_dropWhile hquiet
            rw [he] at hdropq
            have hnext : Quotes.outside.next e = .outside := by simp [Quotes.next, he']
            have hlst := last_of_suffix (List.dropWhile_suffix isIdentBody) hcs
            rw [he] at hlst
            exact ⟨rfl, by simpa [Quotes.scan, hnext] using hdropq,
              last_of_suffix (List.suffix_cons e es) hlst⟩
          · have hcond : ¬ (((d :: ds ++ rest).head?.any isIdentStart) = true ∧
                (e :: es ++ rest).head? = some '%') := by simp [he']
            have hcond' : ¬ (((d :: ds).head?.any isIdentStart) = true ∧
                (e :: es).head? = some '%') := by simp [he']
            rw [if_neg hcond, if_neg hcond']
            exact ⟨rfl, hquiet, hcs⟩
        · have hcond : ¬ (((d :: ds ++ rest).head?.any isIdentStart) = true ∧
              ((d :: ds ++ rest).dropWhile isIdentBody).head? = some '%') := by simp [hd]
          have hcond' : ¬ (((d :: ds).head?.any isIdentStart) = true ∧
              ((d :: ds).dropWhile isIdentBody).head? = some '%') := by simp [hd]
          simp only [cutPiece, if_neg hq, if_pos hp, if_neg hcond, if_neg hcond']
          exact ⟨trivial, hquiet, hcs⟩
    · by_cases hs : isIdentStart c = true
      · obtain ⟨htake, hdrop⟩ := run_append rest hlast (isIdentBody_of_isIdentStart hs)
        simp only [cutPiece, if_neg hq, if_neg hp, if_pos hs, htake, hdrop]
        exact ⟨trivial, quotes_dropWhile hquiet, last_of_suffix (List.dropWhile_suffix isIdentBody) hcs⟩
      · simp only [cutPiece, if_neg hq, if_neg hp, if_neg hs]
        exact ⟨trivial, hquiet, hcs⟩

/-- **A token's start is a piece's start.** -/
theorem pieces_append {pre rest : Text} (h : TokenStart pre)
    (hrest : ∀ d, rest.head? = some d → isIdentStart d = false) :
    pieces (pre ++ rest) = pieces pre ++ pieces rest := by
  induction hn : pre.length using Nat.strong_induction_on generalizing pre with
  | _ n ih =>
    cases pre with
    | nil => rfl
    | cons c cs =>
      obtain ⟨hcut, hnext⟩ := cutPiece_append h hrest
      have hlen := cutPiece_length c cs
      rw [List.length_cons] at hn
      rw [List.cons_append, pieces_cons, pieces_cons, hcut, ih _ (by omega) hnext rfl]
      rfl

/-! ## Pieces that begin in a literal -/

/-- The pieces that begin among the first `n` bytes. -/
def within : ℕ → List Piece → List Piece
  | 0, _ => []
  | _ + 1, [] => []
  | n + 1, p :: ps => p :: within (n + 1 - p.text.length) ps

/-- The pieces that begin in the literal; the last may go on behind it. -/
def literalPieces (lit post : Text) : List Piece := within lit.length (pieces (lit ++ post))

theorem text_ne_nil {t : Text} : ∀ p ∈ pieces t, p.text ≠ [] := by
  induction h : t.length using Nat.strong_induction_on generalizing t with
  | _ n ih =>
    cases t with
    | nil => exact fun p hp => absurd hp List.not_mem_nil
    | cons c cs =>
      intro p hp
      rw [pieces_cons, List.mem_cons] at hp
      rw [List.length_cons] at h
      have hlen := cutPiece_length c cs
      rcases hp with rfl | hp
      · unfold cutPiece
        split_ifs <;> simp [Piece.text]
      · exact ih _ (by omega) rfl p hp

/-- The pieces are cut in two behind the bytes. -/
theorem within_append (n : ℕ) (ps : List Piece) : ∃ qs, ps = within n ps ++ qs := by
  induction ps generalizing n with
  | nil => cases n <;> exact ⟨[], rfl⟩
  | cons p ps ih =>
    cases n with
    | zero => exact ⟨p :: ps, rfl⟩
    | succ n =>
      obtain ⟨qs, hqs⟩ := ih (n + 1 - p.text.length)
      exact ⟨qs, by rw [within, List.cons_append, ← hqs]⟩

/-- They cover the bytes. -/
theorem length_within {n : ℕ} {ps : List Piece} (h : n ≤ (ps.flatMap Piece.text).length) :
    n ≤ ((within n ps).flatMap Piece.text).length := by
  induction ps generalizing n with
  | nil =>
    rw [List.flatMap_nil, List.length_nil, Nat.le_zero] at h
    rw [h]
    exact Nat.zero_le _
  | cons p ps ih =>
    cases n with
    | zero => exact Nat.zero_le _
    | succ n =>
      rw [List.flatMap_cons, List.length_append] at h
      have hin := ih (n := n + 1 - p.text.length) (by omega)
      rw [within, List.flatMap_cons, List.length_append]
      omega

/-- Each of them begins among the bytes. -/
theorem length_before {n : ℕ} {ps as bs : List Piece} {p : Piece} (h : within n ps = as ++ p :: bs) :
    (as.flatMap Piece.text).length < n := by
  induction ps generalizing n as with
  | nil => cases n <;> simp [within] at h
  | cons q qs ih =>
    cases n with
    | zero => simp [within] at h
    | succ n =>
      rw [within] at h
      cases as with
      | nil => simp
      | cons a as =>
        obtain ⟨rfl, htail⟩ := List.cons.inj h
        have hin := ih htail
        rw [List.flatMap_cons, List.length_append]
        omega

/-! ## What is put in for a literal -/

variable {m : MacroTable} {delta : ℕ}

/-- The text put in for a list of pieces. -/
def putIn (m : MacroTable) (delta : ℕ) (ps : List Piece) : Text :=
  ps.flatMap fun p => (expandPiece m delta kMaxExpansionDepth p).1

theorem expand_fst (t : Text) : (expand m t delta).1 = putIn m delta (pieces t) := by
  rw [expand, expandImpl_eq, gather_fst]
  rfl

theorem putIn_of_none {ps : List Piece} (h : ∀ p ∈ ps, p.macro? m = none) :
    putIn m delta ps = ps.flatMap Piece.text := by
  unfold putIn
  exact List.flatMap_congr fun p hp => congrArg Prod.fst (expandPiece_of_none (h p hp))

/-- The literal stands in the expansion, behind the expansion of what is
in front of it. -/
def LeavesLiteral (m : MacroTable) (delta : ℕ) (pre lit post : Text) : Prop :=
  ∃ out, (expand m (pre ++ lit ++ post) delta).1 = (expand m pre delta).1 ++ lit ++ out

theorem isIdentStart_of_number {lit post : Text} (h : ReadsNumber lit post) :
    ∀ d, (lit ++ post).head? = some d → isIdentStart d = false := by
  intro d hd
  have hcase : isDigit d = true ∨ d = '.' := by
    rcases h with ⟨hs, -⟩ | ⟨⟨c, hc, hdig⟩, -⟩
    · cases ht : lit ++ post with
      | nil =>
        rw [ht] at hd
        cases hd
      | cons e es =>
        rw [ht] at hd hs
        obtain rfl := Option.some.inj hd
        simp only [Evaluator.startsNumber, Bool.or_eq_true, Bool.and_eq_true, beq_iff_eq] at hs
        exact hs.imp id And.left
    · rw [hd] at hc
      obtain rfl := Option.some.inj hc
      exact .inl hdig
  by_contra hstart
  rw [Bool.not_eq_false] at hstart
  rcases hcase with hdig | rfl
  · simp only [isDigit, isIdentStart, Bool.and_eq_true, Bool.or_eq_true, decide_eq_true_eq,
      beq_iff_eq] at hdig hstart
    have h9 : d ≤ '9' := hdig.2
    rcases hstart with (⟨hA, -⟩ | ⟨ha, -⟩) | rfl
    · exact absurd (hA.trans h9) (by decide)
    · exact absurd (ha.trans h9) (by decide)
    · exact absurd h9 (by decide)
  · exact absurd hstart (by decide)

section Literal

variable {t pre lit post : Text}

theorem LiteralAt.putIn_eq (h : LiteralAt t pre lit post) (m : MacroTable) (delta : ℕ) :
    (expand m (pre ++ lit ++ post) delta).1 =
      (expand m pre delta).1 ++ putIn m delta (pieces (lit ++ post)) := by
  rw [expand_fst, expand_fst, List.append_assoc,
    pieces_append h.start (isIdentStart_of_number h.number)]
  exact List.flatMap_append

/-- Where none of its pieces is a macro the literal stays. -/
theorem LiteralAt.leaves (h : LiteralAt t pre lit post)
    (hfree : ∀ p ∈ literalPieces lit post, p.macro? m = none) :
    LeavesLiteral m delta pre lit post := by
  obtain ⟨qs, hqs⟩ := within_append lit.length (pieces (lit ++ post))
  have htext := flatMap_text_pieces (lit ++ post)
  have hcover : lit.length ≤ ((literalPieces lit post).flatMap Piece.text).length := by
    apply length_within
    rw [htext, List.length_append]
    omega
  have hprefix : lit <+: (literalPieces lit post).flatMap Piece.text := by
    apply List.prefix_of_prefix_length_le _ _ hcover
    · exact lit ++ post
    · exact List.prefix_append lit post
    · conv_rhs => rw [← htext, hqs, List.flatMap_append]
      exact List.prefix_append _ _
  obtain ⟨u, hu⟩ := hprefix
  refine ⟨u ++ putIn m delta qs, ?_⟩
  have hsplit : putIn m delta (pieces (lit ++ post)) =
      putIn m delta (literalPieces lit post) ++ putIn m delta qs := by
    conv_lhs => rw [hqs]
    exact List.flatMap_append
  rw [h.putIn_eq, hsplit, putIn_of_none hfree, ← hu]
  simp

/-- Macros whose bodies no literal contains. -/
def dollars (names : List Text) : MacroTable := names.map fun n => ⟨n, ['$'], none⟩

theorem lookup_dollars {names : List Text} {n : Text} (hn : n ∈ names) :
    (dollars names).lookup n = some ⟨n, ['$'], none⟩ := by
  cases hl : (dollars names).lookup n with
  | none =>
    rw [MacroTable.lookup, List.find?_eq_none] at hl
    exact absurd (by simp) (hl ⟨n, ['$'], none⟩ (List.mem_map_of_mem hn))
  | some d =>
    have hname : d.name = n := by simpa using List.find?_some hl
    obtain ⟨k, -, rfl⟩ := List.mem_map.1 (List.mem_of_find?_eq_some hl)
    rw [← hname]

theorem defined_dollars {names : List Text} {n : Text} :
    (dollars names).defined n = true ↔ n ∈ names := by
  constructor
  · intro h
    obtain ⟨d, hd⟩ := Option.isSome_iff_exists.1 h
    have hname : d.name = n := by simpa using List.find?_some hd
    obtain ⟨k, hk, rfl⟩ := List.mem_map.1 (List.mem_of_find?_eq_some hd)
    rwa [← hname]
  · intro h
    rw [MacroTable.defined, lookup_dollars h]
    rfl

theorem head_of_name {t : Text} {p : Piece} {n : Text} (hp : p ∈ pieces t) (hn : p.name? = some n) :
    ∃ c cs, p.text = c :: cs ∧ c ≠ '$' := by
  induction h : t.length using Nat.strong_induction_on generalizing t with
  | _ k ih =>
    cases t with
    | nil => exact absurd hp List.not_mem_nil
    | cons c cs =>
      rw [pieces_cons, List.mem_cons] at hp
      rw [List.length_cons] at h
      have hlen := cutPiece_length c cs
      rcases hp with rfl | hp
      · unfold cutPiece at hn ⊢
        split_ifs at hn ⊢ with hq hpc href hs
        · cases hn
        · exact ⟨'%', _, rfl, by decide⟩
        · cases hn
        · refine ⟨c, _, rfl, ?_⟩
          rintro rfl
          exact absurd hs (by decide)
        · cases hn
      · exact ih _ (by omega) hp rfl

/-- With these bodies a literal keeps none of its runs that is a macro. -/
theorem LiteralAt.not_leaves (h : LiteralAt t pre lit post) {names : List Text} {p : Piece} {n : Text}
    (hp : p ∈ literalPieces lit post) (hn : p.name? = some n) (hmem : n ∈ names) :
    ¬ LeavesLiteral (dollars names) delta pre lit post := by
  -- the first such piece; the ones before it stay
  have hex : ∃ as p bs, literalPieces lit post = as ++ p :: bs ∧ (∃ n ∈ names, p.name? = some n) ∧
      ∀ q ∈ as, ∀ n, q.name? = some n → n ∉ names := by
    have hsome : ∃ q ∈ literalPieces lit post, (q.name?.any fun n => decide (n ∈ names)) = true :=
      ⟨p, hp, by simp [hn, hmem]⟩
    obtain ⟨q, hq⟩ := Option.isSome_iff_exists.1 (List.find?_isSome.2 hsome)
    obtain ⟨hqn, as, bs, hsplit, has⟩ := List.find?_eq_some_iff_append.1 hq
    refine ⟨as, q, bs, hsplit, ?_, ?_⟩
    · cases hname : q.name? with
      | none => simp [hname] at hqn
      | some k => exact ⟨k, by simpa [hname] using hqn, rfl⟩
    · intro r hr k hk hkn
      have hno := has r hr
      simp [hk, hkn] at hno
  obtain ⟨as, q, bs, hsplit, ⟨k, hk, hqk⟩, has⟩ := hex
  obtain ⟨qs, hqs⟩ := within_append lit.length (pieces (lit ++ post))
  have hwhole : pieces (lit ++ post) = as ++ (q :: bs ++ qs) := by
    rw [hqs]
    have : within lit.length (pieces (lit ++ post)) = as ++ q :: bs := hsplit
    rw [this, List.append_assoc]
  have hshort : (as.flatMap Piece.text).length < lit.length := length_before hsplit
  have hq : (expandPiece (dollars names) delta kMaxExpansionDepth q).1 = ['$'] := by
    have hmac : q.macro? (dollars names) = some ⟨k, ['$'], none⟩ := by
      rw [Piece.macro?, hqk]
      exact lookup_dollars hk
    show (expandPiece (dollars names) delta (255 + 1) q).1 = _
    rw [expandPiece, hmac]
    rfl
  have hbefore : putIn (dollars names) delta as = as.flatMap Piece.text := by
    apply putIn_of_none
    intro r hr
    cases hrn : r.name? with
    | none => rw [Piece.macro?, hrn]; rfl
    | some j =>
      have hno : j ∉ names := has r hr j hrn
      rw [Piece.macro?, hrn]
      show (dollars names).lookup j = none
      by_contra hsome
      have hdef : (dollars names).defined j = true := by
        rw [MacroTable.defined, Option.isSome_iff_ne_none]
        exact hsome
      exact hno (defined_dollars.1 hdef)
  rintro ⟨out, hout⟩
  rw [h.putIn_eq, hwhole, List.append_assoc, List.append_cancel_left_eq, putIn, List.flatMap_append,
    List.cons_append, List.flatMap_cons, hq] at hout
  have hpre : putIn (dollars names) delta as = _ := hbefore
  rw [putIn] at hpre
  rw [hpre] at hout
  -- at the first byte of the piece the two sides differ
  obtain ⟨c, cs, hqtext, hc⟩ := head_of_name (t := lit ++ post) (p := q) (n := k)
    (by rw [hwhole]; simp) hqk
  have htext := flatMap_text_pieces (lit ++ post)
  rw [hwhole, List.flatMap_append, List.cons_append, List.flatMap_cons, hqtext] at htext
  have hleft := congrArg (fun t => t[(as.flatMap Piece.text).length]?) hout
  have hright := congrArg (fun t => t[(as.flatMap Piece.text).length]?) htext
  simp only [List.cons_append, List.getElem?_append_right le_rfl, Nat.sub_self, List.getElem?_cons_zero,
    List.getElem?_append_left hshort] at hleft hright
  rw [← hleft] at hright
  exact hc (Option.some.inj hright)

end Literal

/-! ## Literals of a text -/

/-- The expansion leaves every number literal of the text as it is. -/
def KeepsLiterals (m : MacroTable) (t : Text) : Prop :=
  ∀ pre lit post delta, LiteralAt t pre lit post → LeavesLiteral m delta pre lit post

/-- No letter run of a literal of the text is one of the names. -/
def TailsFree (names : List Text) (t : Text) : Prop :=
  ∀ pre lit post, LiteralAt t pre lit post →
    ∀ p ∈ literalPieces lit post, ∀ n, p.name? = some n → n ∉ names

/-- **Literals are kept** by every table that defines the names, exactly
when no letter run of a literal is one of them. -/
theorem keepsLiterals_iff (names : List Text) (t : Text) :
    (∀ m : MacroTable, (∀ n, m.defined n = true ↔ n ∈ names) → KeepsLiterals m t) ↔
      TailsFree names t := by
  constructor
  · intro h pre lit post hlit p hp n hn hmem
    exact hlit.not_leaves hp hn hmem (h (dollars names) (fun n => defined_dollars) pre lit post 0 hlit)
  · intro h m hm pre lit post delta hlit
    apply hlit.leaves
    intro p hp
    cases hn : p.name? with
    | none => rw [Piece.macro?, hn]; rfl
    | some n =>
      rw [Piece.macro?, hn]
      show m.lookup n = none
      by_contra hsome
      have hdef : m.defined n = true := by
        rw [MacroTable.defined, Option.isSome_iff_ne_none]
        exact hsome
      exact h pre lit post hlit p hp n hn ((hm n).1 hdef)

/-- `xFF` as a macro. -/
def tailMacro : MacroTable := [⟨"xFF".toList, "1".toList, none⟩]

/-- The literal `0xFF` becomes `01`. -/
theorem not_keepsLiterals_tailMacro : ¬ KeepsLiterals tailMacro "0xFF".toList := by
  intro h
  have hlit : LiteralAt "0xFF".toList [] "0xFF".toList [] :=
    ⟨rfl, ⟨rfl, fun c hc => by cases hc⟩, .inl ⟨by decide, by decide⟩⟩
  obtain ⟨out, hout⟩ := h _ _ _ 0 hlit
  have hexp : expand tailMacro "0xFF".toList 0 = ("01".toList, []) := by decide +kernel
  have hlen := congrArg List.length hout
  rw [List.append_nil, List.nil_append, hexp] at hlen
  simp [List.length_append] at hlen
  omega

end MacroExpander

end Preprocess

end Nslc
