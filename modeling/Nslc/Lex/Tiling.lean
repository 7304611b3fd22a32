import Nslc.Lex.Lexer
/-!
# The lexer tiles its input

Whatever is peeked at, `next` hands out one and the same sequence of
tokens. It ends at an empty token behind the last byte; before that every
token is a nonempty slice of the buffer, each stands behind the one
before it, and the bytes between two of them are blanks and comments.
-/

namespace Nslc

namespace Lex

/-! ## Scanners take bytes, and only such as are there -/

theorem identUpto_le (fuel : ℕ) (t : Text) : identUpto fuel t ≤ t.length := by
  induction fuel generalizing t with
  | zero => exact Nat.zero_le _
  | succ fuel ih =>
    cases t with
    | nil => exact Nat.zero_le _
    | cons c cs =>
      simp only [identUpto, List.length_cons]
      split
      · have := ih cs
        omega
      · split
        · rename_i h
          -- the reference and its closing `%` are there
          have hrest := ih (cs.dropWhile isIdentBody).tail
          have hlen : (cs.takeWhile isIdentBody).length + (cs.dropWhile isIdentBody).length =
              cs.length := by
            rw [← List.length_append, List.takeWhile_append_dropWhile]
          have hpos : 0 < (cs.dropWhile isIdentBody).length := by
            rw [List.length_pos_iff]
            intro hnil
            simp [hnil] at h
          rw [List.length_tail] at hrest
          omega
        · exact Nat.zero_le _

theorem stringBody_le (t : Text) : (stringBody t).1 ≤ t.length := by
  fun_induction stringBody t <;> simp only [List.length_cons, List.length_nil] at * <;> omega

theorem consumeValueRun_le (base : ℕ) (t : Text) (flags : NumFlags) :
    (consumeValueRun base t flags).1 ≤ t.length := by
  induction t generalizing flags with
  | nil => exact Nat.zero_le _
  | cons c cs ih =>
    simp only [consumeValueRun, List.length_cons]
    split
    · have := ih flags
      simp only
      omega
    · split
      · rename_i set _
        have := ih (set flags)
        simp only
        omega
      · split
        · have := ih flags
          simp only
          omega
        · exact Nat.zero_le _

theorem length_takeWhile_pos {p : Char → Bool} {c : Char} {cs : Text} (h : p c = true) :
    0 < ((c :: cs).takeWhile p).length := by
  simp [h]

/-- The scan takes at least a byte and no more than there are. -/
def Scan.Fits (s : Scan) (t : Text) : Prop := 0 < s.length ∧ s.length ≤ t.length

theorem scanDecimal_fits {c : Char} {cs : Text} (h : isDecDigit c = true) :
    (scanDecimal (c :: cs)).Fits (c :: cs) := by
  have hpos : 0 < ((c :: cs).takeWhile isDecRun).length :=
    length_takeWhile_pos (by simp [isDecRun, h])
  have hlen : ((c :: cs).takeWhile isDecRun).length + ((c :: cs).dropWhile isDecRun).length =
      (c :: cs).length := by
    rw [← List.length_append, List.takeWhile_append_dropWhile]
  simp only [scanDecimal]
  split
  · rename_i d digits heq
    rw [heq, List.length_cons, List.length_cons] at hlen
    split
    · unfold scanVerilog
      split
      · have := (List.takeWhile_prefix isDecRun (l := digits)).length_le
        exact ⟨by simp only; omega, by simp only; omega⟩
      · rename_i base _ _
        have := consumeValueRun_le base digits .plain
        exact ⟨by simp only; omega, by simp only; omega⟩
    · exact ⟨hpos, by simp only; omega⟩
  · exact ⟨hpos, by simp only; omega⟩

theorem scanNumber_fits {c : Char} {cs : Text} (h : isDecDigit c = true) :
    (scanNumber (c :: cs)).Fits (c :: cs) := by
  have hstyle : ∀ kind base p digits, (scanCStyle kind base digits).Fits ('0' :: p :: digits) := by
    intro kind base p digits
    have := consumeValueRun_le base digits .plain
    exact ⟨by simp only [scanCStyle]; omega, by simp only [scanCStyle, List.length_cons]; omega⟩
  unfold scanNumber
  split
  · rename_i p digits heq
    split
    · rw [heq]
      exact hstyle _ _ _ _
    · split
      · rw [heq]
        exact hstyle _ _ _ _
      · exact scanDecimal_fits h
  · exact scanDecimal_fits h

theorem emit2If_fits (c : Char) (cs : Text) (second : Char) (two one : TokenKind) :
    (emit2If cs.head? second two one).Fits (c :: cs) := by
  unfold emit2If
  split
  · rename_i h
    cases cs with
    | nil => simp at h
    | cons d ds => exact ⟨by simp, by simp⟩
  · exact ⟨by simp [emit1], by simp [emit1]⟩

theorem scanPunctuation_fits (c : Char) (cs : Text) :
    (scanPunctuation c cs.head?).Fits (c :: cs) := by
  have h1 : ∀ kind, (emit1 kind).Fits (c :: cs) := fun kind => ⟨by simp [emit1], by simp [emit1]⟩
  have h2 : ∀ kind second, cs.head? = some second → (⟨kind, 2, .plain⟩ : Scan).Fits (c :: cs) := by
    intro kind second h
    cases cs with
    | nil => simp at h
    | cons d ds => exact ⟨by simp, by simp⟩
  unfold scanPunctuation
  split
  case h_13 =>
    split
    · exact h2 _ _ ‹_›
    · exact emit2If_fits _ _ _ _ _
  case h_14 =>
    split
    · exact h2 _ _ ‹_›
    · exact emit2If_fits _ _ _ _ _
  all_goals first | exact h1 _ | exact emit2If_fits _ _ _ _ _

/-- **Every scanner moves on**, and not beyond the end. -/
theorem scanToken_fits (atStart : Bool) {t : Text} (ht : t ≠ []) : (scanToken atStart t).Fits t := by
  cases t with
  | nil => exact absurd rfl ht
  | cons c cs =>
    simp only [scanToken]
    split
    · rename_i h
      refine ⟨length_takeWhile_pos ?_, (List.takeWhile_prefix _).length_le⟩
      simp [h.2.1]
    · split
      · have := identUpto_le (c :: cs).length cs
        exact ⟨by simp [scanIdentifierOrKeyword], by
          simp only [scanIdentifierOrKeyword, List.tail_cons, List.length_cons] at *; omega⟩
      · split
        · exact scanNumber_fits ‹_›
        · split
          · have := stringBody_le cs
            exact ⟨by simp [scanString], by
              simp only [scanString, List.tail_cons, List.length_cons]; omega⟩
          · exact scanPunctuation_fits c cs

/-! ## No token but the last is `eof` -/

/-- The kinds of tokens that are no directive. -/
def TokenKind.ordinary (k : TokenKind) : Bool := k != .eof && k != .lineDirective

theorem classifyKeyword_ordinary (ident : Text) : (classifyKeyword ident).ordinary = true := by
  have hset : ∀ p ∈ keywordSet, p.2.ordinary = true := by decide
  unfold classifyKeyword
  cases h : keywordSet.find? fun p => p.1 = ident with
  | none => rfl
  | some p => exact hset p (List.mem_of_find?_eq_some h)

theorem scanNumber_ordinary (t : Text) : (scanNumber t).kind.ordinary = true := by
  have hdec : ∀ t, (scanDecimal t).kind.ordinary = true := by
    intro t
    simp only [scanDecimal]
    split
    · split
      · rename_i kind base heq
        have hkind : kind.ordinary = true := by
          unfold radixFromChar at heq
          split_ifs at heq
          all_goals obtain ⟨rfl, -⟩ := Prod.mk.inj (Option.some.inj heq); rfl
        unfold scanVerilog
        split <;> exact hkind
      · rfl
    · rfl
  unfold scanNumber
  split
  · split
    · rfl
    · split
      · rfl
      · exact hdec _
  · exact hdec _

theorem scanPunctuation_ordinary (c : Char) (next : Option Char) :
    (scanPunctuation c next).kind.ordinary = true := by
  have h2 : ∀ second two one, TokenKind.ordinary two = true → TokenKind.ordinary one = true →
      (emit2If next second two one).kind.ordinary = true := by
    intro second two one htwo hone
    unfold emit2If
    split
    · exact htwo
    · exact hone
  unfold scanPunctuation
  split
  case h_13 =>
    split
    · rfl
    · exact h2 _ _ _ rfl rfl
  case h_14 =>
    split
    · rfl
    · exact h2 _ _ _ rfl rfl
  all_goals first | exact h2 _ _ _ rfl rfl | rfl

/-- **What a scanner finds is a directive** exactly where a line begins
with one. -/
theorem scanToken_kind (atStart : Bool) {t : Text} (ht : t ≠ []) :
    (atStart = true ∧ isLineDirective t = true ∧
        scanToken atStart t =
          ⟨.lineDirective, (t.takeWhile (· ≠ '\n')).length, .plain⟩) ∨
      ¬ (atStart = true ∧ isLineDirective t = true) ∧
        (scanToken atStart t).kind.ordinary = true := by
  cases t with
  | nil => exact absurd rfl ht
  | cons c cs =>
    simp only [scanToken]
    split
    · next h => exact .inl ⟨h.1, h.2.2, rfl⟩
    · next h =>
      refine .inr ⟨?_, ?_⟩
      · rintro ⟨hstart, hd⟩
        refine h ⟨hstart, ?_, hd⟩
        by_contra hc
        simp [isLineDirective, Ne.symm hc] at hd
      split
      · simp only [scanIdentifierOrKeyword]
        split
        · unfold classifyUnderscoreName
          split
          · rfl
          · split <;> rfl
        · exact classifyKeyword_ordinary _
      · split
        · exact scanNumber_ordinary _
        · split
          · simp only [scanString]
            split <;> rfl
          · exact scanPunctuation_ordinary _ _

theorem scanToken_ne_eof (atStart : Bool) {t : Text} (ht : t ≠ []) :
    (scanToken atStart t).kind ≠ .eof := by
  rcases scanToken_kind atStart ht with ⟨-, -, h⟩ | ⟨-, h⟩
  · rw [h]
    simp
  · intro he
    rw [he] at h
    cases h

/-! ## What is skipped -/

/-- Nothing skipped is left in front. -/
theorem skipUpto_head_ne (fuel : ℕ) (t : Text) (atStart : Bool) (h : t.length < fuel) :
    (skipUpto fuel t atStart).1.head? ≠ some '\n' := by
  induction fuel generalizing t atStart with
  | zero => exact absurd h (Nat.not_lt_zero _)
  | succ fuel ih =>
    cases t with
    | nil => simp [skipUpto]
    | cons c cs =>
      simp only [List.length_cons] at h
      have htail : cs.tail.length ≤ cs.length := by simp
      simp only [skipUpto]
      split
      · exact ih _ _ (by omega)
      split
      · exact ih _ _ (by omega)
      split
      · have := (List.dropWhile_suffix (· ≠ '\n') (l := cs.tail)).length_le
        exact ih _ _ (by omega)
      split
      · have hlen := congrArg List.length (takeBlock_append cs.tail)
        rw [List.length_append] at hlen
        split_ifs
        · exact ih _ _ (by omega)
        · simp
      · rename_i hc _ _ _
        simpa using hc

/-- **Only blanks and comments are skipped.** -/
theorem skipUpto_trivia (fuel : ℕ) (t : Text) (atStart : Bool) (h : t.length < fuel) :
    ∃ gap, t = gap ++ (skipUpto fuel t atStart).1 ∧ Trivia (skipUpto fuel t atStart).1 gap := by
  induction fuel generalizing t atStart with
  | zero => exact absurd h (Nat.not_lt_zero _)
  | succ fuel ih =>
    cases t with
    | nil => exact ⟨[], rfl, .nil⟩
    | cons c cs =>
      simp only [List.length_cons] at h
      simp only [skipUpto]
      split
      · rename_i hc
        obtain ⟨gap, hcs, hgap⟩ := ih cs true (by omega)
        refine ⟨c :: gap, congrArg (c :: ·) hcs, .blank ?_ hgap⟩
        simp [isBlank, hc]
      split
      · rename_i hc
        obtain ⟨gap, hcs, hgap⟩ := ih cs atStart (by omega)
        exact ⟨c :: gap, congrArg (c :: ·) hcs, .blank hc hgap⟩
      split
      · rename_i hc
        obtain ⟨rfl, hhead⟩ := hc
        obtain ⟨ds, rfl⟩ : ∃ ds, cs = '/' :: ds := by
          cases cs with
          | nil => simp at hhead
          | cons d ds => exact ⟨ds, by simpa using hhead⟩
        -- the comment ends in front of the newline, or at the end of the text
        have hsplit : ds.takeWhile (· ≠ '\n') ++ ds.dropWhile (· ≠ '\n') = ds :=
          List.takeWhile_append_dropWhile
        have hbody : '\n' ∉ ds.takeWhile (· ≠ '\n') := by
          intro hmem
          have := List.mem_takeWhile_imp hmem
          simp at this
        have hlt : (ds.dropWhile (· ≠ '\n')).length ≤ ds.length :=
          (List.dropWhile_suffix _).length_le
        obtain ⟨gap, hcs, hgap⟩ := ih (ds.dropWhile (· ≠ '\n')) atStart (by
          simp only [List.length_cons] at h
          omega)
        simp only [List.tail_cons]
        refine ⟨'/' :: '/' :: (ds.takeWhile (· ≠ '\n') ++ gap), ?_, ?_⟩
        · rw [List.cons_append, List.cons_append, List.append_assoc, ← hcs, hsplit]
        · cases gap with
          | nil =>
            rw [List.append_nil]
            cases hd : ds.dropWhile (· ≠ '\n') with
            | nil =>
              refine .lastLineComment hbody ?_
              rw [hd] at hcs
              simpa using hcs.symm
            | cons e es =>
              -- a newline is skipped with the comment
              have he : e = '\n' := by
                have := List.head?_dropWhile_not (· ≠ '\n') ds
                rw [hd] at this
                simpa using this
              rw [List.nil_append] at hcs
              refine absurd ?_ (skipUpto_head_ne fuel (ds.dropWhile (· ≠ '\n')) atStart (by
                simp only [List.length_cons] at h
                omega))
              rw [← hcs, hd, he]
              rfl
          | cons e es =>
            have he : e = '\n' := by
              have := List.head?_dropWhile_not (· ≠ '\n') ds
              rw [hcs] at this
              simpa using this
            subst he
            exact .lineComment hbody hgap
      split
      · rename_i hc
        obtain ⟨rfl, hhead⟩ := hc
        obtain ⟨ds, rfl⟩ : ∃ ds, cs = '*' :: ds := by
          cases cs with
          | nil => simp at hhead
          | cons d ds => exact ⟨ds, by simpa using hhead⟩
        simp only [List.tail_cons]
        have happ := takeBlock_append ds
        by_cases hclosed : (takeBlock ds).closed = true
        · simp only [hclosed, if_true]
          obtain ⟨body, hbody, hcopied⟩ := takeBlock_of_closed hclosed
          rw [hcopied] at happ
          have hlt : (takeBlock ds).rest.length ≤ ds.length := by
            have hlen := congrArg List.length happ
            rw [List.length_append] at hlen
            omega
          obtain ⟨gap, hcs, hgap⟩ := ih (takeBlock ds).rest _ (by
            simp only [List.length_cons] at h
            omega)
          refine ⟨'/' :: '*' :: (body ++ '*' :: '/' :: gap), ?_, .blockComment hbody hgap⟩
          simp only [List.cons_append, List.append_assoc]
          rw [← hcs]
          simpa using happ.symm
        · simp only [hclosed]
          obtain ⟨hno, -⟩ := takeBlock_of_open (by simpa using hclosed)
          exact ⟨'/' :: '*' :: ds, by simp, .openComment hno rfl⟩
      · exact ⟨[], rfl, .nil⟩

/-! ## One token -/

/-- The text at `pos`, as tokens with blanks and comments in front of
each, and at last the token `eof` behind all of it. -/
inductive Tiled : ℕ → Text → List Token → Token → Prop
  | eof {pos : ℕ} {gap : Text} : Trivia [] gap →
      Tiled pos gap [] ⟨.eof, pos + gap.length, pos + gap.length, [], .plain⟩
  | token {pos : ℕ} {gap text rest : Text} {tok eof : Token} {toks : List Token} :
      Trivia (text ++ rest) gap → text ≠ [] → tok.kind ≠ .eof →
      tok.begin_ = pos + gap.length → tok.end_ = pos + gap.length + text.length →
      tok.spelling = text → Tiled (pos + gap.length + text.length) rest toks eof →
      Tiled pos (gap ++ (text ++ rest)) (tok :: toks) eof

/-- **What `nextImpl` does**: at the end it answers `eof`; before it, a
token of the text behind blanks and comments, and moves behind that. -/
theorem nextImpl_cases (lx : Lexer) (hcur : lx.cur ≤ lx.buf.length) :
    (Trivia [] (lx.buf.drop lx.cur) ∧
        lx.nextImpl.1 = ⟨.eof, lx.buf.length, lx.buf.length, [], .plain⟩ ∧
        lx.nextImpl.2.cur = lx.buf.length) ∨
      ∃ gap text rest, lx.buf.drop lx.cur = gap ++ (text ++ rest) ∧ Trivia (text ++ rest) gap ∧
        text ≠ [] ∧ lx.nextImpl.1.kind ≠ .eof ∧
        lx.nextImpl.1.begin_ = lx.cur + gap.length ∧
        lx.nextImpl.1.end_ = lx.cur + gap.length + text.length ∧
        lx.nextImpl.1.spelling = text ∧
        lx.nextImpl.2.cur = lx.cur + gap.length + text.length := by
  obtain ⟨gap, hsplit, hgap⟩ :=
    skipUpto_trivia ((lx.buf.drop lx.cur).length + 1) (lx.buf.drop lx.cur) lx.atLineStart
      (Nat.lt_succ_self _)
  change lx.buf.drop lx.cur =
    gap ++ (skipWhitespaceAndComments (lx.buf.drop lx.cur) lx.atLineStart).1 at hsplit
  change Trivia (skipWhitespaceAndComments (lx.buf.drop lx.cur) lx.atLineStart).1 gap at hgap
  simp only [Lexer.nextImpl]
  generalize skipWhitespaceAndComments (lx.buf.drop lx.cur) lx.atLineStart = r at hsplit hgap ⊢
  by_cases hr : r.1 = []
  · refine .inl ⟨?_, by simp [hr], by simp [hr]⟩
    rw [hsplit, hr, List.append_nil, ← hr]
    exact hgap
  · obtain ⟨hpos, hle⟩ := scanToken_fits r.2 hr
    have hlen : lx.buf.length - lx.cur = gap.length + r.1.length := by
      rw [← List.length_drop, hsplit, List.length_append]
    -- the token begins where the skipping stopped
    have hbegin : lx.buf.length - r.1.length = lx.cur + gap.length := by omega
    have hdrop : lx.buf.drop (lx.cur + gap.length) = r.1 := by
      rw [← List.drop_drop, hsplit, List.drop_left]
    refine .inr ⟨gap, r.1.take (scanToken r.2 r.1).length, r.1.drop (scanToken r.2 r.1).length,
      by rw [List.take_append_drop, hsplit], by rw [List.take_append_drop]; exact hgap, ?_, ?_⟩
    · intro hnil
      have := congrArg List.length hnil
      rw [List.length_take, List.length_nil] at this
      omega
    · rw [if_neg hr, List.length_take, Nat.min_eq_left hle]
      simp only [hbegin, hdrop]
      exact ⟨scanToken_ne_eof _ hr, trivial, trivial, trivial, trivial⟩

theorem nextImpl_buf (lx : Lexer) : lx.nextImpl.2.buf = lx.buf := by
  simp only [Lexer.nextImpl]
  split <;> rfl

theorem nextImpl_peekCache (lx : Lexer) : lx.nextImpl.2.peekCache = lx.peekCache := by
  simp only [Lexer.nextImpl]
  split <;> rfl

/-- What is cached does not matter to it. -/
theorem nextImpl_withCache (lx : Lexer) (ts : List Token) :
    ({ lx with peekCache := ts } : Lexer).nextImpl =
      (lx.nextImpl.1, { lx.nextImpl.2 with peekCache := ts }) := by
  simp only [Lexer.nextImpl]
  split <;> rfl

/-! ## The sequence of tokens -/

/-- The next `k` tokens of the buffer. -/
def Lexer.pull : ℕ → Lexer → List Token
  | 0, _ => []
  | k + 1, lx => lx.nextImpl.1 :: Lexer.pull k lx.nextImpl.2

theorem pull_withCache (k : ℕ) (lx : Lexer) (ts : List Token) :
    Lexer.pull k { lx with peekCache := ts } = Lexer.pull k lx := by
  induction k generalizing lx with
  | zero => rfl
  | succ k ih =>
    simp only [Lexer.pull, nextImpl_withCache]
    rw [ih]

theorem take_pull {j k : ℕ} (h : j ≤ k) (lx : Lexer) :
    (Lexer.pull k lx).take j = Lexer.pull j lx := by
  induction j generalizing k lx with
  | zero => rfl
  | succ j ih =>
    obtain ⟨k, rfl⟩ : ∃ m, k = m + 1 := ⟨k - 1, by omega⟩
    simp only [Lexer.pull, List.take_succ_cons]
    rw [ih (by omega)]

/-- **The buffer is tiled** by the tokens pulled from it: finitely many,
and then `eof` again and again. -/
theorem exists_tiled (lx : Lexer) (hcur : lx.cur ≤ lx.buf.length) :
    ∃ toks eof, Tiled lx.cur (lx.buf.drop lx.cur) toks eof ∧
      ∀ k, Lexer.pull k lx = (toks ++ List.replicate k eof).take k := by
  induction hn : lx.buf.length - lx.cur using Nat.strong_induction_on generalizing lx with
  | _ n ih =>
    rcases nextImpl_cases lx hcur with ⟨htriv, htok, hend⟩ |
      ⟨gap, text, rest, hsplit, htriv, hne, hkind, hb, he, hs, hend⟩
    · -- at the end the lexer stays where it is
      have heof : ∀ (k : ℕ) (ly : Lexer), ly.cur = ly.buf.length →
          Lexer.pull k ly =
            List.replicate k ⟨.eof, ly.buf.length, ly.buf.length, [], .plain⟩ := by
        intro k
        induction k with
        | zero => exact fun _ _ => rfl
        | succ k ihk =>
          intro ly hly
          have hnil : ly.buf.drop ly.cur = [] := List.drop_eq_nil_of_le (by omega)
          rcases nextImpl_cases ly (by omega) with ⟨-, hty, hey⟩ | ⟨g, t, r, hgt, -, hne, -⟩
          · rw [Lexer.pull, hty, ihk _ (by rw [hey, nextImpl_buf]), nextImpl_buf]
            rfl
          · rw [hnil] at hgt
            simp [hne] at hgt
      have hlen : lx.cur + (lx.buf.drop lx.cur).length = lx.buf.length := by
        rw [List.length_drop]
        omega
      refine ⟨[], _, .eof htriv, fun k => ?_⟩
      rw [hlen, List.nil_append]
      cases k with
      | zero => rfl
      | succ k =>
        rw [Lexer.pull, htok, heof k _ (by rw [hend, nextImpl_buf]), nextImpl_buf]
        simp [List.replicate_succ]
    · have hlen := congrArg List.length hsplit
      simp only [List.length_drop, List.length_append] at hlen
      have htext : 0 < text.length := List.length_pos_iff.2 hne
      have hdrop : lx.nextImpl.2.buf.drop lx.nextImpl.2.cur = rest := by
        rw [nextImpl_buf, hend, Nat.add_assoc, ← List.drop_drop, hsplit,
          ← List.append_assoc, ← List.length_append, List.drop_left]
      obtain ⟨toks, eof, htiled, hpull⟩ := ih (lx.buf.length - lx.nextImpl.2.cur) (by omega)
        lx.nextImpl.2 (by rw [nextImpl_buf]; omega) (by rw [nextImpl_buf])
      rw [hdrop, hend] at htiled
      refine ⟨lx.nextImpl.1 :: toks, eof, ?_, fun k => ?_⟩
      · rw [hsplit]
        exact .token htriv hne hkind hb he hs htiled
      · cases k with
        | zero => rfl
        | succ k =>
          have hlast : ((toks ++ List.replicate k eof) ++ [eof]).take k =
              (toks ++ List.replicate k eof).take k := by
            refine List.take_append_of_le_length ?_
            rw [List.length_append, List.length_replicate]
            omega
          rw [Lexer.pull, hpull k, List.cons_append, List.take_succ_cons, List.replicate_succ',
            ← List.append_assoc, hlast]

/-! ## Calls -/

/-- A call of the interface. -/
inductive Call where
  | next
  | peek (n : ℤ)

/-- The tokens the `next` calls among `calls` return, in order. -/
def Lexer.nexts : List Call → Lexer → List Token
  | [], _ => []
  | .next :: calls, lx => lx.next.1 :: Lexer.nexts calls lx.next.2
  | .peek n :: calls, lx => Lexer.nexts calls (lx.peek n).2

def Call.isNext : Call → Bool
  | .next => true
  | .peek _ => false

/-- The tokens `k` calls of `next` have still to return. -/
def Lexer.stream (k : ℕ) (lx : Lexer) : List Token := (lx.peekCache ++ Lexer.pull k lx).take k

theorem stream_succ (k : ℕ) (lx : Lexer) :
    Lexer.stream (k + 1) lx = lx.next.1 :: Lexer.stream k lx.next.2 := by
  unfold Lexer.stream Lexer.next
  cases h : lx.peekCache with
  | nil => simp [Lexer.pull, nextImpl_peekCache, h]
  | cons t ts =>
    simp only [List.cons_append, List.take_succ_cons, pull_withCache]
    congr 1
    rw [List.take_append, List.take_append, take_pull (by omega), take_pull (by omega)]

/-- Caching one more token does not change them. -/
theorem stream_push (k : ℕ) (lx : Lexer) :
    Lexer.stream k { lx.nextImpl.2 with peekCache := lx.nextImpl.2.peekCache ++ [lx.nextImpl.1] } =
      Lexer.stream k lx := by
  have hpull : [lx.nextImpl.1] ++ Lexer.pull k lx.nextImpl.2 = Lexer.pull (k + 1) lx := rfl
  unfold Lexer.stream
  rw [pull_withCache, nextImpl_peekCache, List.append_assoc, hpull, List.take_append,
    List.take_append, take_pull (by omega), take_pull (by omega)]

theorem stream_fillUpto (k n fuel : ℕ) (lx : Lexer) :
    Lexer.stream k (lx.fillUpto n fuel) = Lexer.stream k lx := by
  induction fuel generalizing lx with
  | zero => rfl
  | succ fuel ih =>
    simp only [Lexer.fillUpto]
    split
    · rw [ih, stream_push]
    · rfl

/-- **Peeking changes nothing** about what `next` returns. -/
theorem nexts_eq_stream (calls : List Call) (lx : Lexer) :
    Lexer.nexts calls lx = Lexer.stream (calls.countP Call.isNext) lx := by
  induction calls generalizing lx with
  | nil => simp [Lexer.nexts, Lexer.stream]
  | cons c calls ih =>
    cases c with
    | next =>
      rw [Lexer.nexts, ih, List.countP_cons_of_pos (by rfl), stream_succ]
    | peek n =>
      rw [Lexer.nexts, ih, List.countP_cons_of_neg (by simp [Call.isNext])]
      exact stream_fillUpto _ _ _ _

/-! ## The tiling -/

/-- The bytes of `buf` from `a` up to `b`. -/
def slice (buf : Text) (a b : ℕ) : Text := (buf.drop a).take (b - a)

/-- The tokens `toks`, and `eof` behind them, tile the buffer from `pos`
on. -/
structure Tiles (buf : Text) (pos : ℕ) (toks : List Token) (eof : Token) : Prop where
  eof_kind : eof.kind = .eof
  eof_range : eof.begin_ = buf.length ∧ eof.end_ = buf.length
  not_eof : ∀ t ∈ toks, t.kind ≠ .eof
  nonempty : ∀ t ∈ toks, t.begin_ < t.end_
  spelling : ∀ t ∈ toks ++ [eof], t.spelling = slice buf t.begin_ t.end_
  start : ∀ t ∈ toks ++ [eof], pos ≤ t.begin_
  ordered : (toks ++ [eof]).Pairwise fun t u => t.end_ ≤ u.begin_
  /-- From the start, or the end of a token, to the begin of the next. -/
  gaps : ∀ g ∈ List.zip (pos :: toks.map Token.end_) ((toks ++ [eof]).map Token.begin_),
    g.1 ≤ g.2 ∧ Trivia (buf.drop g.2) (slice buf g.1 g.2)

theorem slice_of_drop {buf a b : Text} {pos : ℕ} (h : buf.drop pos = a ++ b) :
    slice buf pos (pos + a.length) = a := by
  rw [slice, h, Nat.add_sub_cancel_left, List.take_left]

theorem Tiled.tiles {buf t : Text} {pos : ℕ} {toks : List Token} {eof : Token}
    (h : Tiled pos t toks eof) (hbuf : buf.drop pos = t) (hpos : pos ≤ buf.length) :
    Tiles buf pos toks eof := by
  induction h with
  | @eof pos gap htriv =>
    have hlen : pos + gap.length = buf.length := by
      rw [← hbuf, List.length_drop]
      omega
    have hdrop : buf.drop buf.length = [] := List.drop_length
    rw [hlen]
    refine ⟨rfl, ⟨rfl, rfl⟩, by simp, by simp, ?_, ?_, List.pairwise_singleton _ _, ?_⟩
    · intro u hu
      obtain rfl := List.mem_singleton.1 hu
      simp [slice]
    · intro u hu
      obtain rfl := List.mem_singleton.1 hu
      exact hpos
    · intro g hg
      obtain rfl := List.mem_singleton.1 hg
      refine ⟨hpos, ?_⟩
      rw [hdrop, ← hlen, slice_of_drop (a := gap) (b := []) (by simpa using hbuf)]
      exact htriv
  | @token pos gap text rest tok eof toks htriv hne hkind hb he hs _ ih =>
    have hlen := congrArg List.length hbuf
    simp only [List.length_drop, List.length_append] at hlen
    have htext : 0 < text.length := List.length_pos_iff.2 hne
    have hmid : buf.drop (pos + gap.length) = text ++ rest := by
      rw [← List.drop_drop, hbuf, List.drop_left]
    have hrest : buf.drop (pos + gap.length + text.length) = rest := by
      rw [← List.drop_drop, hmid, List.drop_left]
    have ih := ih hrest (by omega)
    refine ⟨ih.eof_kind, ih.eof_range, ?_, ?_, ?_, ?_, ?_, ?_⟩
    · exact List.forall_mem_cons.2 ⟨hkind, ih.not_eof⟩
    · exact List.forall_mem_cons.2 ⟨by omega, ih.nonempty⟩
    · refine List.forall_mem_cons.2 ⟨?_, ih.spelling⟩
      rw [hs, hb, he, slice_of_drop hmid]
    · refine List.forall_mem_cons.2 ⟨by omega, fun u hu => ?_⟩
      have := ih.start u hu
      omega
    · refine List.pairwise_cons.2 ⟨fun u hu => ?_, ih.ordered⟩
      have := ih.start u hu
      omega
    · rw [List.cons_append, List.map_cons, List.map_cons, List.zip_cons_cons, he]
      refine List.forall_mem_cons.2 ⟨?_, ih.gaps⟩
      refine ⟨by simp only; omega, ?_⟩
      simp only [hb]
      rw [hmid, slice_of_drop hbuf]
      exact htriv

end Lex

end Nslc
