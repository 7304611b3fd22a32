import Nslc.Preprocess.Arithmetic
/-!
# Preprocessor — integer expressions are read by the grammar

The evaluator run on the text of an expression tree computes the tree's
value (`evaluate_text`). The proof follows the tree: a level of the
ladder that has read the left operands of a chain stands in its loop
with their value, and the loop ends at a byte that is none of its
operators.
-/

namespace Nslc

namespace Preprocess

namespace Evaluator

variable {L : LongDouble} {α β : Type}

/-! ## Running the monad -/

section Monad

variable {f : α → Eval β} {x : Eval α} {s s' : Parser} {a : α} {h : Halt}

theorem bind_ok (hx : x s = .ok (a, s')) : (x >>= f) s = f a s' := by
  show (x s).bind (fun r => f r.1 r.2) = _
  rw [hx]
  rfl

theorem bind_error (hx : x s = .error h) : (x >>= f) s = .error h := by
  show (x s).bind (fun r => f r.1 r.2) = _
  rw [hx]
  rfl

@[simp] theorem skipWS_bind (f : Unit → Eval β) (s : Parser) :
    (skipWS >>= f) s = f () s.skipBlanks := rfl

@[simp] theorem advance_bind (n : ℕ) (f : Unit → Eval β) (s : Parser) :
    (advance n >>= f) s = f () (s.advance n) := rfl

@[simp] theorem remaining_bind (f : Text → Eval β) (s : Parser) :
    (remaining >>= f) s = f s.rest s := rfl

@[simp] theorem position_bind (f : ℕ → Eval β) (s : Parser) :
    (position >>= f) s = f s.pos s := rfl

@[simp] theorem pure_apply (a : α) (s : Parser) : (pure a : Eval α) s = .ok (a, s) := rfl

theorem liftM_apply (y : Except Halt α) (s : Parser) :
    (liftM y : Eval α) s = y.bind fun a => .ok (a, s) := rfl

end Monad

/-! ## Blanks -/

/-- A text without the blanks in front. -/
def skip (t : Text) : Text := t.dropWhile isBlank

theorem skipBlanks_rest (s : Parser) : s.skipBlanks.rest = skip s.rest :=
  drop_length_takeWhile isBlank s.rest

theorem skip_blanks (ws : Blanks) (t : Text) : skip (ws.1 ++ t) = skip t :=
  List.dropWhile_append_of_pos (List.all_eq_true.1 ws.2)

@[simp] theorem skip_skip (t : Text) : skip (skip t) = skip t := List.dropWhile_idempotent _ _

theorem skip_cons {c : Char} {t : Text} (h : isBlank c = false) : skip (c :: t) = c :: t :=
  List.dropWhile_cons_of_neg (by simp [h])

/-! ## What has been read -/

namespace Parser

/-- An error flag is set only with a report. -/
def Honest (s : Parser) : Prop := s.errored = true → ∃ f ∈ s.reports, f.severity = .error

@[simp] theorem errored_skipBlanks (s : Parser) : s.skipBlanks.errored = s.errored := rfl

@[simp] theorem reports_skipBlanks (s : Parser) : s.skipBlanks.reports = s.reports := rfl

@[simp] theorem errored_advance (s : Parser) (n : ℕ) : (s.advance n).errored = s.errored := rfl

@[simp] theorem reports_advance (s : Parser) (n : ℕ) : (s.advance n).reports = s.reports := rfl

@[simp] theorem rest_advance (s : Parser) (n : ℕ) : (s.advance n).rest = s.rest.drop n := rfl

end Parser

/-- Between `s` and `s'` an expression has been read, `rest` follows, and
`zero` says whether a division by zero was met: without one nothing has
been reported. -/
structure After (s s' : Parser) (rest : Text) (zero : Bool) : Prop where
  rest : skip s'.rest = skip rest
  errored : s'.errored = (s.errored || zero)
  reports : zero = false → s'.reports = s.reports
  honest : s.Honest → s'.Honest

section After

variable {s s₁ s₂ : Parser} {r₁ r₂ : Text} {z₁ z₂ : Bool}

theorem After.trans (h₁ : After s s₁ r₁ z₁) (h₂ : After s₁ s₂ r₂ z₂) :
    After s s₂ r₂ (z₁ || z₂) := by
  refine ⟨h₂.rest, ?_, ?_, fun h => h₂.honest (h₁.honest h)⟩
  · rw [h₂.errored, h₁.errored, Bool.or_assoc]
  · intro hz
    rw [Bool.or_eq_false_iff] at hz
    rw [h₂.reports hz.2, h₁.reports hz.1]

/-- Moving on reports nothing. -/
theorem After.moved (hr : skip s₁.rest = skip r₁) (he : s₁.errored = s.errored)
    (hp : s₁.reports = s.reports) : After s s₁ r₁ false := by
  refine ⟨hr, by rw [he, Bool.or_false], fun _ => hp, ?_⟩
  intro h
  unfold Parser.Honest at *
  rwa [he, hp]

theorem After.congr_rest (h : After s s₁ r₁ z₁) (hr : skip r₁ = skip r₂) : After s s₁ r₂ z₁ :=
  ⟨h.rest.trans hr, h.errored, h.reports, h.honest⟩

theorem honest_report (s : Parser) (message : Text) (pos : ℕ) (h : s.Honest) :
    (s.report message pos).Honest := by
  unfold Parser.report
  split_ifs with he
  · exact h
  · intro _
    exact ⟨_, List.mem_append_right _ (List.mem_singleton_self _), rfl⟩

/-- A report sets the flag and moves nothing. -/
theorem After.reported (message : Text) (pos : ℕ) :
    After s (s.report message pos) s.rest true := by
  refine ⟨?_, ?_, fun h => Bool.noConfusion h, honest_report s message pos⟩
  · unfold Parser.report
    split_ifs <;> rfl
  · unfold Parser.report
    split_ifs with he <;> simp [he]

end After

/-- The run `x`, started at `s` in front of `e` and `rest`, goes on as
`next` with the value of `e`, or is undefined with it. -/
structure Continues (x : Except Halt (PPValue L × Parser)) (e : Expr) (s : Parser) (rest : Text)
    (next : PPValue L → Parser → Except Halt (PPValue L × Parser)) : Prop where
  error : ∀ h, e.code = .error h → x = .error h
  ok : ∀ v, e.code = .ok v → ∃ s', After s s' rest e.codeByZero ∧ x = next (.int v) s'

/-- The value is the result. -/
def done (v : PPValue L) (s : Parser) : Except Halt (PPValue L × Parser) := .ok (v, s)

section Continues

variable {s : Parser} {rest rest' : Text} {e : Expr}

theorem Continues.bind {x : Eval (PPValue L)} {f : PPValue L → Eval (PPValue L)}
    (h : Continues (x s) e s rest done) : Continues ((x >>= f) s) e s rest f := by
  constructor
  · intro w hw
    exact bind_error (h.error w hw)
  · intro v hv
    obtain ⟨s', hs', hx⟩ := h.ok v hv
    exact ⟨s', hs', bind_ok hx⟩

end Continues

/-! ## Numbers -/

/-- What follows does not continue a number. -/
def Stop (t : Text) : Prop := ∀ c, t.head? = some c → isIdentBody c = false ∧ c ≠ '.'

theorem takeWhile_append_head {p : Char → Bool} {x t : Text} (hx : ∀ c ∈ x, p c = true)
    (ht : ∀ c, t.head? = some c → p c = false) : (x ++ t).takeWhile p = x := by
  rw [List.takeWhile_append_of_pos hx]
  cases t with
  | nil => simp
  | cons c cs => rw [List.takeWhile_cons_of_neg (by simp [ht c rfl]), List.append_nil]

theorem isIdentBody_of_isDigit {c : Char} (h : isDigit c = true) : isIdentBody c = true := by
  rw [isIdentBody, h, Bool.or_true]

theorem isIdentBody_of_digit {r : Radix} {c : Char} (h : r.isDigit c = true ∨ c = '_') :
    isIdentBody c = true := by
  rcases h with h | rfl
  · obtain ⟨d, hd⟩ := Option.isSome_iff_exists.1 h
    cases r with
    | dec =>
      simp only [Radix.digitValue, Option.ite_none_right_eq_some] at hd
      exact isIdentBody_of_isDigit hd.1
    | hex =>
      simp only [Radix.digitValue, hexDigitValue] at hd
      split_ifs at hd with hdec hlow hup
      · exact isIdentBody_of_isDigit hdec
      · have hstart : isIdentStart c = true := by
          have hz : c ≤ 'z' := hlow.2.trans (by decide)
          simp [isIdentStart, hlow.1, hz]
        exact isIdentBody_of_isIdentStart hstart
      · have hstart : isIdentStart c = true := by
          have hz : c ≤ 'Z' := hup.2.trans (by decide)
          simp [isIdentStart, hup.1, hz]
        exact isIdentBody_of_isIdentStart hstart
    | bin =>
      simp only [Radix.digitValue, Option.ite_none_right_eq_some] at hd
      rw [isBinDigit, Bool.or_eq_true, beq_iff_eq, beq_iff_eq] at hd
      rcases hd.1 with rfl | rfl <;> decide
  · decide

namespace Literal

variable (k : Literal)

theorem run_digits : ∀ c ∈ k.run, k.radix.isDigit c = true ∨ c = '_' := by
  intro c hc
  rcases List.mem_cons.1 hc with rfl | htail
  · exact .inl k.head_digit
  · exact k.tail_digit htail

theorem isIdentBody_run : ∀ c ∈ k.run, isIdentBody c = true :=
  fun c hc => isIdentBody_of_digit (k.run_digits c hc)

/-- The digits a base consumes. -/
theorem digitsOf_run {p : Char → Bool} {rest : Text} (hstop : Stop rest)
    (hp : ∀ c, p c = k.radix.isDigit c) (hid : ∀ c, p c = true → isIdentBody c = true) :
    digitsOf p (k.run ++ rest) = k.run := by
  apply takeWhile_append_head
  · intro c hc
    rw [Bool.or_eq_true, hp, beq_iff_eq]
    exact k.run_digits c hc
  · intro c hc
    have hno := (hstop c hc).1
    rw [Bool.or_eq_false_iff]
    constructor
    · by_contra hyes
      rw [Bool.not_eq_false] at hyes
      rw [hid c hyes] at hno
      cases hno
    · by_contra hyes
      rw [Bool.not_eq_false, beq_iff_eq] at hyes
      rw [hyes] at hno
      exact absurd hno (by decide)

end Literal

theorem isDigit_dec (c : Char) : isDigit c = Radix.dec.isDigit c := by
  rw [Radix.isDigit, Radix.digitValue]
  cases isDigit c <;> rfl

theorem isHexDigit_hex (c : Char) : isHexDigit c = Radix.hex.isDigit c := by
  simp only [Radix.isDigit, Radix.digitValue, hexDigitValue, isHexDigit]
  split_ifs <;> simp_all

theorem isBinDigit_bin (c : Char) : isBinDigit c = Radix.bin.isDigit c := by
  rw [Radix.isDigit, Radix.digitValue]
  cases isBinDigit c <;> rfl

/-- **A literal is one number token.** -/
theorem numberToken_literal (k : Literal) {rest : Text} (hstop : Stop rest) :
    numberToken (k.text ++ rest) = ⟨some k.radix, k.text⟩ := by
  have hid : ∀ r : Radix, ∀ c, r.isDigit c = true → isIdentBody c = true :=
    fun r c h => isIdentBody_of_digit (.inl h)
  obtain ⟨r, head, tail, hhead, htail⟩ := k
  cases r with
  | dec =>
    have hrun := Literal.digitsOf_run ⟨.dec, head, tail, hhead, htail⟩ hstop isDigit_dec
      (fun c hc => isIdentBody_of_isDigit hc)
    have hfrac : fractionOf rest = [] := by
      cases rest with
      | nil => rfl
      | cons c cs => rw [fractionOf, if_neg (hstop c rfl).2]
    have hexp : exponentOf rest = [] := by
      cases rest with
      | nil => rfl
      | cons c cs =>
        have hno := (hstop c rfl).1
        rw [exponentOf, if_neg]
        rintro (rfl | rfl) <;> exact absurd hno (by decide)
    have hdec : decimalToken (head :: tail ++ rest) = ⟨some .dec, head :: tail⟩ := by
      have hrun' : digitsOf isDigit (head :: tail ++ rest) = head :: tail := hrun
      rw [decimalToken, hrun', List.drop_left, hfrac]
      simp only [List.append_nil]
      rw [List.drop_left, hexp]
      simp
    show numberToken (head :: tail ++ rest) = ⟨some .dec, head :: tail⟩
    unfold numberToken
    split
    · next c d ds heq =>
      have hsecond : (tail ++ rest).head? = some d := by
        rw [List.cons_append, List.cons.injEq] at heq
        rw [heq.2]
        rfl
      have hd : isDigit d = true ∨ d = '_' ∨ isIdentBody d = false := by
        cases tail with
        | nil => exact .inr (.inr (hstop d hsecond).1)
        | cons t ts =>
          obtain rfl : t = d := Option.some.inj hsecond
          rcases Literal.tail_digit ⟨.dec, head, t :: ts, hhead, htail⟩ (c := t) (by simp) with h | h
          · exact .inl ((isDigit_dec t).trans h)
          · exact .inr (.inl h)
      have hno : ∀ x : Char, x ∈ ['x', 'X', 'b', 'B'] → d ≠ x := by
        rintro x hx rfl
        have hcases : d = 'x' ∨ d = 'X' ∨ d = 'b' ∨ d = 'B' := by simpa using hx
        rcases hcases with rfl | rfl | rfl | rfl <;> exact absurd hd (by decide)
      rw [if_neg (fun h => h.2.elim (hno _ (by simp)) (hno _ (by simp))),
        if_neg (fun h => h.2.elim (hno _ (by simp)) (hno _ (by simp))), hdec]
    · exact hdec
  | hex =>
    have hrun := Literal.digitsOf_run ⟨.hex, head, tail, hhead, htail⟩ hstop isHexDigit_hex
      (fun c hc => hid .hex c ((isHexDigit_hex c).symm.trans hc))
    show numberToken ('0' :: 'x' :: (head :: tail ++ rest)) = ⟨some .hex, '0' :: 'x' :: head :: tail⟩
    rw [numberToken, if_pos (by decide)]
    exact congrArg (fun t => (⟨some .hex, '0' :: 'x' :: t⟩ : NumberToken)) hrun
  | bin =>
    have hrun := Literal.digitsOf_run ⟨.bin, head, tail, hhead, htail⟩ hstop isBinDigit_bin
      (fun c hc => hid .bin c ((isBinDigit_bin c).symm.trans hc))
    show numberToken ('0' :: 'b' :: (head :: tail ++ rest)) = ⟨some .bin, '0' :: 'b' :: head :: tail⟩
    rw [numberToken, if_neg (by decide), if_pos (by decide)]
    exact congrArg (fun t => (⟨some .bin, '0' :: 'b' :: t⟩ : NumberToken)) hrun

theorem digits_literal (k : Literal) : (⟨some k.radix, k.text⟩ : NumberToken).digits = k.digits := by
  obtain ⟨r, head, tail, hhead, htail⟩ := k
  cases r <;> simp [NumberToken.digits, Literal.text, Literal.digits, Radix.lead]

theorem valueFrom_eq {r : Radix} {ds : Text} (hds : ∀ c ∈ ds, r.isDigit c = true) (v : ℤ) :
    r.valueFrom v ds =
      (ds.foldlM (fun v c => r.push v ((r.digitValue c).getD 0)) v).bind fun w => .ok (some w) := by
  induction ds generalizing v with
  | nil => rfl
  | cons c cs ih =>
    obtain ⟨d, hd⟩ := Option.isSome_iff_exists.1 (hds c (by simp))
    rw [Radix.valueFrom, hd, List.foldlM_cons, hd, Option.getD_some]
    show (r.push v d).bind (fun w => r.valueFrom w cs) = _
    cases hp : r.push v d with
    | error h => rfl
    | ok w => exact ih (fun c hc => hds c (by simp [hc])) w

/-- **Reading a literal.** -/
theorem parseNumber_literal (k : Literal) {rest : Text} (hstop : Stop rest) {s : Parser}
    (hs : s.rest = k.text ++ rest) :
    (parseNumber : Eval (PPValue L)) s =
      k.code.bind fun v => .ok (.int v, s.advance k.text.length) := by
  have htoken := numberToken_literal k hstop
  have hvalue := valueFrom_eq k.digits_isDigit 0
  unfold parseNumber
  simp only [position_bind, remaining_bind, hs, htoken, advance_bind]
  show (liftM (k.radix.valueFrom 0 (NumberToken.digits ⟨some k.radix, k.text⟩)) >>= _ : Eval _) _ = _
  rw [digits_literal, hvalue]
  cases hc : k.code with
  | error h =>
    apply bind_error
    rw [liftM_apply]
    have hfold : k.digits.foldlM (fun v c => k.radix.push v ((k.radix.digitValue c).getD 0)) 0 =
      .error h := hc
    rw [hfold]
    rfl
  | ok v =>
    have hfold : k.digits.foldlM (fun v c => k.radix.push v ((k.radix.digitValue c).getD 0)) 0 =
      .ok v := hc
    rw [hfold]
    rfl

/-! ## Operators -/

/-- The operators of the loop of rung `j + 1`. -/
def opOf : ℕ → Text → Option (BinOp × ℕ)
  | 0 => multiplicativeOp
  | 1 => additiveOp
  | 2 => relationalOp
  | 3 => equalityOp
  | 4 => andOp
  | _ => orOp

/-- The levels of the ladder, the tightest first. -/
def rungOf (primary : Eval (PPValue L)) (n : ℕ) : ℕ → Eval (PPValue L)
  | 0 => parseUnary primary n
  | r + 1 => climb (opOf r) (rungOf primary n r) n

/-- The text can stand behind an operator without changing it. -/
def OperandStart (t : Text) : Prop := ∀ c, t.head? = some c → c ≠ '=' ∧ c ≠ '<' ∧ c ≠ '>'

/-- An operator is read back by its own level. -/
theorem opOf_text (op : BinOp) {t : Text} (ht : OperandStart t) :
    opOf (op.rung - 1) (op.text ++ t) = some (op, op.text.length) := by
  cases t with
  | nil => cases op <;> decide
  | cons c cs =>
    obtain ⟨h₁, h₂, h₃⟩ := ht c rfl
    cases op <;>
      simp [BinOp.rung, BinOp.text, opOf, multiplicativeOp, additiveOp, relationalOp, equalityOp,
        andOp, orOp, List.cons_prefix_cons, h₁.symm, h₂.symm, h₃.symm]

/-- And by no tighter one. -/
theorem opOf_text_tighter (op : BinOp) (t : Text) {j : ℕ} (hj : j < op.rung - 1) :
    opOf j (op.text ++ t) = none := by
  cases op <;> simp only [BinOp.rung] at hj <;> interval_cases j <;>
    simp [BinOp.text, opOf, multiplicativeOp, additiveOp, relationalOp, equalityOp, andOp,
      List.cons_prefix_cons]

theorem isBlank_op (op : BinOp) : ∃ c cs, op.text = c :: cs ∧ isBlank c = false ∧
    isIdentBody c = false ∧ c ≠ '.' := by
  cases op <;> exact ⟨_, _, rfl, by decide, by decide, by decide⟩

theorem stop_blanks {ws : Blanks} {c : Char} {cs : Text} (hid : isIdentBody c = false)
    (hdot : c ≠ '.') : Stop (ws.1 ++ c :: cs) := by
  obtain ⟨ws, hws⟩ := ws
  intro d hd
  cases ws with
  | nil =>
    obtain rfl := Option.some.inj hd
    exact ⟨hid, hdot⟩
  | cons b bs =>
    obtain rfl := Option.some.inj hd
    have hb := List.all_eq_true.1 hws b (by simp)
    simp only [isBlank, Bool.or_eq_true, beq_iff_eq] at hb
    rcases hb with ((rfl | rfl) | rfl) | rfl <;> decide

/-- What may follow an operand of rung `r`: no number goes on, and no
tighter operator. -/
structure Follows (r : ℕ) (rest : Text) : Prop where
  stop : Stop rest
  ops : ∀ j < r, opOf j (skip rest) = none

theorem Follows.mono {r r' : ℕ} {rest : Text} (h : Follows r rest) (hr : r' ≤ r) :
    Follows r' rest := ⟨h.stop, fun j hj => h.ops j (by omega)⟩

theorem follows_op (op : BinOp) (ws : Blanks) (t : Text) :
    Follows (op.rung - 1) (ws.1 ++ op.text ++ t) := by
  obtain ⟨c, cs, hop, hblank, hid, hdot⟩ := isBlank_op op
  constructor
  · rw [hop, List.append_assoc]
    exact stop_blanks hid hdot
  · intro j hj
    have hskip : skip (ws.1 ++ op.text ++ t) = op.text ++ t := by
      rw [List.append_assoc, skip_blanks, hop]
      exact skip_cons hblank
    rw [hskip]
    exact opOf_text_tighter op t hj

theorem opOf_closing (j : ℕ) (t : Text) : opOf j (')' :: t) = none := by
  unfold opOf
  split <;> simp [multiplicativeOp, additiveOp, relationalOp, equalityOp, andOp, orOp,
    List.cons_prefix_cons]

theorem opOf_nil (j : ℕ) : opOf j [] = none := by
  unfold opOf
  split <;> decide

theorem follows_closing (r : ℕ) (ws : Blanks) (t : Text) : Follows r (ws.1 ++ ')' :: t) := by
  refine ⟨stop_blanks (by decide) (by decide), ?_⟩
  intro j _
  rw [skip_blanks, skip_cons (by decide)]
  exact opOf_closing j t

theorem follows_end (r : ℕ) (ws : Blanks) : Follows r ws.1 := by
  have hskip : skip ws.1 = [] := by
    have := skip_blanks ws []
    rwa [List.append_nil] at this
  constructor
  · obtain ⟨ws, hws⟩ := ws
    intro c hc
    have hb := List.all_eq_true.1 hws c (List.mem_of_mem_head? hc)
    simp only [isBlank, Bool.or_eq_true, beq_iff_eq] at hb
    rcases hb with ((rfl | rfl) | rfl) | rfl <;> decide
  · intro j _
    rw [hskip]
    exact opOf_nil j

/-! ## The start of an expression -/

/-- A byte an expression can start with. -/
def isStart (c : Char) : Bool :=
  isDigit c || c == '(' || (unaryOp c).isSome

theorem isBlank_of_isDigit {c : Char} (h : isDigit c = true) : isBlank c = false := by
  by_contra hb
  simp only [Bool.not_eq_false, isBlank, Bool.or_eq_true, beq_iff_eq] at hb
  rcases hb with ((rfl | rfl) | rfl) | rfl <;> exact absurd h (by decide)

theorem isStart_plain {c : Char} (h : isStart c = true) :
    isBlank c = false ∧ c ≠ '=' ∧ c ≠ '<' ∧ c ≠ '>' := by
  simp only [isStart, Bool.or_eq_true, beq_iff_eq] at h
  rcases h with (h | rfl) | h
  · refine ⟨isBlank_of_isDigit h, ?_, ?_, ?_⟩ <;> rintro rfl <;> exact absurd h (by decide)
  · decide
  · unfold unaryOp at h
    split_ifs at h with h₁ h₂ h₃ h₄
    · rw [h₁]
      decide
    · rw [h₂]
      decide
    · rw [h₃]
      decide
    · rw [h₄]
      decide
    · exact absurd h (by decide)

theorem unaryOp_char (op : UnOp) : unaryOp op.char = some op := by cases op <;> decide

theorem Literal.text_start (k : Literal) : ∃ c cs, k.text = c :: cs ∧ isDigit c = true := by
  obtain ⟨r, head, tail, hhead, htail⟩ := k
  cases r with
  | dec => exact ⟨head, tail, rfl, (isDigit_dec head).trans hhead⟩
  | hex => exact ⟨'0', 'x' :: head :: tail, rfl, by decide⟩
  | bin => exact ⟨'0', 'b' :: head :: tail, rfl, by decide⟩

theorem Expr.text_start (e : Expr) :
    ∃ ws : Blanks, ∃ c cs, e.text = ws.1 ++ c :: cs ∧ isStart c = true := by
  induction e with
  | number ws k =>
    obtain ⟨c, cs, hk, hc⟩ := k.text_start
    exact ⟨ws, c, cs, by rw [Expr.text, hk], by simp [isStart, hc]⟩
  | unary ws op e ih => exact ⟨ws, op.char, e.text, rfl, by simp [isStart, unaryOp_char]⟩
  | binary l ws op r ihl ihr =>
    obtain ⟨ws', c, cs, hl, hc⟩ := ihl
    refine ⟨ws', c, cs ++ ws.1 ++ op.text ++ r.text, ?_, hc⟩
    rw [Expr.text, hl]
    simp
  | paren ws e ws' ih =>
    exact ⟨ws, '(', e.text ++ ws'.1 ++ [')'], by simp [Expr.text], by decide⟩

theorem Expr.rung_le (e : Expr) : e.rung ≤ 6 := by
  cases e with
  | binary l ws op r => cases op <;> simp [rung, BinOp.rung]
  | _ => exact Nat.zero_le 6

/-- Every node has a byte of its own. -/
theorem Expr.size_le_length (e : Expr) : e.size ≤ e.text.length := by
  induction e with
  | number ws k =>
    obtain ⟨c, cs, hk, -⟩ := k.text_start
    simp only [size, text, hk, List.length_append, List.length_cons]
    omega
  | unary ws op e ih =>
    simp only [size, text, List.length_append, List.length_cons]
    omega
  | binary l ws op r ihl ihr =>
    have hop : 1 ≤ op.text.length := by cases op <;> decide
    simp only [size, text, List.length_append]
    omega
  | paren ws e ws' ih =>
    simp only [size, text, List.length_append, List.length_cons]
    omega

theorem Expr.operandStart (e : Expr) (rest : Text) : OperandStart (e.text ++ rest) := by
  obtain ⟨ws, c, cs, he, hc⟩ := e.text_start
  obtain ⟨ws, hws⟩ := ws
  intro d hd
  rw [he] at hd
  cases ws with
  | nil =>
    obtain rfl := Option.some.inj hd
    exact (isStart_plain hc).2
  | cons b bs =>
    obtain rfl := Option.some.inj hd
    have hb := List.all_eq_true.1 hws b (by simp)
    simp only [isBlank, Bool.or_eq_true, beq_iff_eq] at hb
    rcases hb with ((rfl | rfl) | rfl) | rfl <;> decide

/-! ## The ladder -/

section Ladder

variable {s : Parser} {operand : Eval (PPValue L)} {n r : ℕ} {v : PPValue L}

/-- The loop ends at a byte that is none of its operators. -/
theorem ladder_stop (h : opOf r (skip s.rest) = none) :
    ladder (opOf r) operand (n + 1) v s = .ok (v, s.skipBlanks) := by
  simp only [ladder, skipWS_bind, remaining_bind, skipBlanks_rest, h, pure_apply]

theorem ladder_step {op : BinOp} {t : Text} (hs : skip s.rest = op.text ++ t)
    (h : opOf r (op.text ++ t) = some (op, op.text.length)) :
    ladder (opOf r) operand (n + 1) v s =
      (operand >>= fun b => applyBinary op (s.skipBlanks.advance op.text.length).pos v b >>= fun w =>
        ladder (opOf r) operand n w) (s.skipBlanks.advance op.text.length) := by
  simp only [ladder, skipWS_bind, remaining_bind, skipBlanks_rest, hs, h, advance_bind,
    position_bind]

theorem applyBinary_ints (op : BinOp) (pos : ℕ) (a b : ℤ) (s : Parser) :
    applyBinary op pos (.int a : PPValue L) (.int b) s =
      (BinOp.code op a b).bind fun v => .ok (.int v,
        if BinOp.byZero op b then s.report (op.zeroMessage.getD []) pos else s) := by
  have hzero : PPValue.dividesByZero op (.int a : PPValue L) (.int b) = BinOp.byZero op b := rfl
  unfold applyBinary BinOp.code
  rw [hzero]
  split_ifs with hz
  · rfl
  · rw [liftM_apply]
    show ((op.onInts a b).map PPValue.int).bind _ = _
    cases op.onInts a b <;> rfl

end Ladder

/-! ## Unary operators and primaries -/

section Primary

variable {s : Parser} {primary : Eval (PPValue L)} {K : Context L} {n : ℕ} {c : Char} {cs : Text}

theorem parseUnary_primary (hs : skip s.rest = c :: cs) (hc : unaryOp c = none) :
    parseUnary primary (n + 1) s = primary s.skipBlanks := by
  simp only [parseUnary, skipWS_bind, remaining_bind, skipBlanks_rest, hs, List.head?_cons, hc]

theorem parseUnary_op {op : UnOp} (hs : skip s.rest = op.char :: cs) :
    parseUnary primary (n + 1) s =
      (parseUnary primary n >>= fun v => liftM (PPValue.unary op v)) (s.skipBlanks.advance 1) := by
  simp only [parseUnary, skipWS_bind, remaining_bind, skipBlanks_rest, hs, List.head?_cons,
    unaryOp_char, advance_bind]

theorem unary_int (op : UnOp) (a : ℤ) :
    PPValue.unary op (.int a : PPValue L) = (op.onInt a).map .int := by
  cases op with
  | plus => rfl
  | neg => rfl
  | not =>
    show Except.ok (PPValue.int (ofBool (!(a != 0)))) = .ok (.int (ofBool (a == 0)))
    rw [bne, Bool.not_not]
  | compl => rfl

theorem unaryOp_of_isDigit (h : isDigit c = true) : unaryOp c = none := by
  unfold unaryOp
  split_ifs with h₁ h₂ h₃ h₄
  · exact absurd h (h₁ ▸ by decide)
  · exact absurd h (h₂ ▸ by decide)
  · exact absurd h (h₃ ▸ by decide)
  · exact absurd h (h₄ ▸ by decide)
  · rfl

theorem parsePrimary_number (hs : skip s.rest = c :: cs) (hc : isDigit c = true) :
    parsePrimary K n s = parseNumber s.skipBlanks := by
  have hparen : c ≠ '(' := by
    rintro rfl
    exact absurd hc (by decide)
  have hpercent : c ≠ '%' := by
    rintro rfl
    exact absurd hc (by decide)
  have hnum : startsNumber (c :: cs) = true := by simp [startsNumber, hc]
  simp only [parsePrimary, skipWS_bind, remaining_bind, skipBlanks_rest, hs, List.head?_cons,
    if_neg hparen, if_neg hpercent, hnum, if_true]

theorem parsePrimary_paren (hs : skip s.rest = '(' :: cs) :
    parsePrimary K n s = parseParens K s.skipBlanks := by
  simp only [parsePrimary, skipWS_bind, remaining_bind, skipBlanks_rest, hs, List.head?_cons,
    if_true]

/-- What the parentheses do behind their expression. -/
theorem parseParens_close {s' : Parser} {v : PPValue L} (hv : K.expression (s.advance 1) = .ok (v, s'))
    (hclose : skip s'.rest = ')' :: cs) :
    parseParens K s = .ok (v, s'.skipBlanks.advance 1) := by
  have hrest : (s'.skipBlanks).rest.head? = some ')' := by rw [skipBlanks_rest, hclose]; rfl
  unfold parseParens
  rw [advance_bind, bind_ok hv, skipWS_bind, remaining_bind, hrest, if_neg (by simp)]
  rfl

theorem parseParens_error {w : Halt} (hv : K.expression (s.advance 1) = .error w) :
    parseParens K s = .error w := by
  unfold parseParens
  rw [advance_bind, bind_error hv]

end Primary

/-! ## Every level reads its expressions -/

section Reading

variable (macros : MacroTable) (body : Text → Except Halt (PPValue L × List Finding))

/-- The primaries of a parser that may nest `n` parentheses. -/
def contextAt (n : ℕ) : Context L := ⟨macros, parseLogicalOr macros body n, body⟩

/-- Its levels. -/
def levelAt (n r : ℕ) : Eval (PPValue L) :=
  rungOf (parsePrimary (contextAt macros body n) (n + 1)) (n + 1) r

theorem parseLogicalOr_eq (n : ℕ) : parseLogicalOr macros body (n + 1) = levelAt macros body n 6 := rfl

/-- The level reads the expression. -/
def ReadsAt (n r : ℕ) (e : Expr) : Prop :=
  ∀ s rest, skip s.rest = skip (e.text ++ rest) → Follows r rest →
    Continues (levelAt macros body n r s) e s rest done

/-- The level reads the expression as the start of a chain, and stands
in its loop. -/
def ChainsAt (n q : ℕ) (e : Expr) : Prop :=
  ∀ s rest, skip s.rest = skip (e.text ++ rest) → Follows q rest →
    ∃ m, n + 1 ≤ m + e.size ∧ Continues (levelAt macros body n (q + 1) s) e s rest
      (ladder (opOf q) (levelAt macros body n q) m)

/-- The unary level reads the expression with `k` operators to spare. -/
def UnaryReads (n k : ℕ) (e : Expr) : Prop :=
  ∀ s rest, skip s.rest = skip (e.text ++ rest) → Stop rest →
    Continues (parseUnary (parsePrimary (contextAt macros body n) (n + 1)) k s) e s rest done

/-- The three readings of an expression of the parser's size. -/
structure Reading (n : ℕ) (e : Expr) : Prop where
  reads : ∀ r, e.rung ≤ r → ReadsAt macros body n r e
  chains : ∀ q, e.rung ≤ q + 1 → ChainsAt macros body n q e
  unary : e.rung = 0 → ∀ k, e.size < k → UnaryReads macros body n k e

variable {macros body} {n r q : ℕ} {e : Expr}

theorem ReadsAt.chains (h : ReadsAt macros body n q e) : ChainsAt macros body n q e := by
  intro s rest hs hf
  exact ⟨n + 1, by omega, (h s rest hs hf).bind⟩

/-- At the end of a chain. -/
theorem ChainsAt.reads (hn : e.size ≤ n) (h : ChainsAt macros body n q e) :
    ReadsAt macros body n (q + 1) e := by
  intro s rest hs hf
  obtain ⟨m, hm, hc⟩ := h s rest hs (hf.mono (by omega))
  refine ⟨hc.error, ?_⟩
  intro v hv
  obtain ⟨s', hs', hx⟩ := hc.ok v hv
  obtain ⟨k, rfl⟩ : ∃ k, m = k + 1 := ⟨m - 1, by omega⟩
  have hstop : opOf q (skip s'.rest) = none := by
    rw [hs'.rest]
    exact hf.ops q (by omega)
  refine ⟨s'.skipBlanks, ?_, ?_⟩
  · have hmove : After s' s'.skipBlanks rest false :=
      After.moved (by rw [skipBlanks_rest, skip_skip, hs'.rest]) rfl rfl
    simpa using hs'.trans hmove
  · rw [hx, ladder_stop hstop]
    rfl

/-- A level reads what a tighter one does. -/
theorem ReadsAt.mono (hn : e.size ≤ n) (h : ReadsAt macros body n q e) (hr : q ≤ r) :
    ReadsAt macros body n r e := by
  induction r, hr using Nat.le_induction with
  | base => exact h
  | succ r _ ih => exact ih.chains.reads hn

theorem reading_of_unary (hn : e.size ≤ n) (h0 : e.rung = 0)
    (h : ∀ k, e.size < k → UnaryReads macros body n k e) :
    Reading macros body n e := by
  have hread : ReadsAt macros body n 0 e := fun s rest hs hf => h (n + 1) (by omega) s rest hs hf.stop
  exact ⟨fun r _ => hread.mono hn (by omega), fun q _ => (hread.mono hn (by omega)).chains, fun _ => h⟩

theorem unaryReads_number (ws : Blanks) (k : Literal) {j : ℕ} (hj : 1 < j) :
    UnaryReads macros body n j (.number ws k) := by
  intro s rest hs hstop
  obtain ⟨c, cs, hk, hc⟩ := k.text_start
  obtain ⟨i, rfl⟩ : ∃ i, j = i + 1 := ⟨j - 1, by omega⟩
  have hskip : skip s.rest = c :: (cs ++ rest) := by
    rw [hs, Expr.text, List.append_assoc, skip_blanks, hk]
    exact skip_cons (isBlank_of_isDigit hc)
  have hskip' : skip s.skipBlanks.rest = c :: (cs ++ rest) := by rw [skipBlanks_rest, skip_skip, hskip]
  have hrest : s.skipBlanks.skipBlanks.rest = k.text ++ rest := by
    rw [skipBlanks_rest, hskip', hk]
    rfl
  have hrun : parseUnary (parsePrimary (contextAt macros body n) (n + 1)) (i + 1) s =
      k.code.bind fun v => .ok (.int v, s.skipBlanks.skipBlanks.advance k.text.length) := by
    rw [parseUnary_primary hskip (unaryOp_of_isDigit hc), parsePrimary_number hskip' hc,
      parseNumber_literal k hstop hrest]
  constructor
  · intro w hw
    have hw' : k.code = .error w := hw
    rw [hrun, hw']
    rfl
  · intro v hv
    have hv' : k.code = .ok v := hv
    refine ⟨s.skipBlanks.skipBlanks.advance k.text.length, After.moved ?_ rfl rfl, ?_⟩
    · rw [Parser.rest_advance, hrest, List.drop_left]
    · rw [hrun, hv']
      rfl

theorem unaryReads_unary (ws : Blanks) (op : UnOp)
    (h : ∀ j, e.size < j → UnaryReads macros body n j e) {j : ℕ} (hj : e.size + 1 < j) :
    UnaryReads macros body n j (.unary ws op e) := by
  intro s rest hs hstop
  obtain ⟨i, rfl⟩ : ∃ i, j = i + 1 := ⟨j - 1, by omega⟩
  have hplain : isBlank op.char = false := by cases op <;> decide
  have hskip : skip s.rest = op.char :: (e.text ++ rest) := by
    rw [hs, Expr.text, List.append_assoc, skip_blanks]
    exact skip_cons hplain
  have hrest : (s.skipBlanks.advance 1).rest = e.text ++ rest := by
    rw [Parser.rest_advance, skipBlanks_rest, hskip]
    rfl
  have hin := h i (by omega) (s.skipBlanks.advance 1) rest (by rw [hrest]) hstop
  have hcode : (Expr.unary ws op e).code = e.code.bind op.onInt := rfl
  rw [parseUnary_op hskip]
  constructor
  · intro w hw
    rw [hcode] at hw
    cases he : e.code with
    | error w' =>
      rw [he] at hw
      cases hw
      exact bind_error (hin.error _ he)
    | ok v =>
      rw [he] at hw
      have hop : op.onInt v = .error w := hw
      obtain ⟨s', hs', hx⟩ := hin.ok v he
      rw [bind_ok hx, liftM_apply, unary_int, hop]
      rfl
  · intro v hv
    rw [hcode] at hv
    cases he : e.code with
    | error w' =>
      rw [he] at hv
      cases hv
    | ok a =>
      rw [he] at hv
      have hop : op.onInt a = .ok v := hv
      obtain ⟨s', hs', hx⟩ := hin.ok a he
      refine ⟨s', ⟨hs'.rest, hs'.errored, hs'.reports, hs'.honest⟩, ?_⟩
      rw [bind_ok hx, liftM_apply, unary_int, hop]
      rfl

theorem unaryReads_paren (ws ws' : Blanks) (hn : 1 ≤ n)
    (h : ReadsAt macros body (n - 1) 6 e) {j : ℕ} (hj : 1 ≤ j) :
    UnaryReads macros body n j (.paren ws e ws') := by
  intro s rest hs hstop
  obtain ⟨i, rfl⟩ : ∃ i, j = i + 1 := ⟨j - 1, by omega⟩
  have hskip : skip s.rest = '(' :: (e.text ++ (ws'.1 ++ ')' :: rest)) := by
    rw [hs, Expr.text]
    simp only [List.append_assoc, List.cons_append, List.nil_append]
    rw [skip_blanks]
    exact skip_cons (by decide)
  have hskip' : skip s.skipBlanks.rest = '(' :: (e.text ++ (ws'.1 ++ ')' :: rest)) := by
    rw [skipBlanks_rest, skip_skip, hskip]
  have hrest : (s.skipBlanks.skipBlanks.advance 1).rest = e.text ++ (ws'.1 ++ ')' :: rest) := by
    rw [Parser.rest_advance, skipBlanks_rest, hskip']
    rfl
  have hexpr : (contextAt macros body n).expression = levelAt macros body (n - 1) 6 := by
    obtain ⟨m, rfl⟩ : ∃ m, n = m + 1 := ⟨n - 1, by omega⟩
    rfl
  have hin := h (s.skipBlanks.skipBlanks.advance 1) (ws'.1 ++ ')' :: rest) (by rw [hrest])
    (follows_closing 6 ws' rest)
  rw [parseUnary_primary hskip (by decide), parsePrimary_paren hskip']
  constructor
  · intro w hw
    have hw' : e.code = .error w := hw
    exact parseParens_error (by rw [hexpr]; exact hin.error w hw')
  · intro v hv
    have hv' : e.code = .ok v := hv
    obtain ⟨s', hs', hx⟩ := hin.ok v hv'
    have hclose : skip s'.rest = ')' :: rest := by
      rw [hs'.rest, skip_blanks]
      exact skip_cons (by decide)
    refine ⟨s'.skipBlanks.advance 1, ?_, parseParens_close (by rw [hexpr]; exact hx) hclose⟩
    have hmove : After s' (s'.skipBlanks.advance 1) rest false := by
      refine After.moved ?_ rfl rfl
      rw [Parser.rest_advance, skipBlanks_rest, hclose]
      rfl
    have hall := hs'.trans hmove
    rw [Bool.or_false] at hall
    exact ⟨hall.rest, hall.errored, hall.reports, hall.honest⟩

/-- The loop takes an operator and stands in front of its operand. -/
theorem enters_operand {s s₁ : Parser} {rest : Text} {z : Bool} {r : Expr} (ws : Blanks)
    (op : BinOp) (h : After s s₁ (ws.1 ++ op.text ++ (r.text ++ rest)) z) :
    ∃ s₂, After s s₂ (r.text ++ rest) z ∧
      ∀ (operand : Eval (PPValue L)) (k : ℕ) (a : PPValue L),
        ladder (opOf (op.rung - 1)) operand (k + 1) a s₁ =
          (operand >>= fun b => applyBinary op s₂.pos a b >>= fun w =>
            ladder (opOf (op.rung - 1)) operand k w) s₂ := by
  obtain ⟨c, cs, hop, hblank, -, -⟩ := isBlank_op op
  have hskip : skip s₁.rest = op.text ++ (r.text ++ rest) := by
    rw [h.rest, List.append_assoc, skip_blanks, hop]
    exact skip_cons hblank
  refine ⟨s₁.skipBlanks.advance op.text.length, ?_,
    fun operand k a => ladder_step hskip (opOf_text op (r.operandStart rest))⟩
  have hmove : After s₁ (s₁.skipBlanks.advance op.text.length) (r.text ++ rest) false := by
    refine After.moved ?_ rfl rfl
    rw [Parser.rest_advance, skipBlanks_rest, hskip, List.drop_left]
  simpa using h.trans hmove

/-- **A chain takes one more operand.** -/
theorem chainsAt_binary {l r : Expr} (ws : Blanks) (op : BinOp)
    (hl : ChainsAt macros body n (op.rung - 1) l) (hr : ReadsAt macros body n (op.rung - 1) r)
    (hn : (Expr.binary l ws op r).size ≤ n) :
    ChainsAt macros body n (op.rung - 1) (.binary l ws op r) := by
  intro s rest hs hf
  have htext : (Expr.binary l ws op r).text ++ rest = l.text ++ (ws.1 ++ op.text ++ (r.text ++ rest)) := by
    simp [Expr.text]
  have hsize : (Expr.binary l ws op r).size = l.size + r.size + 1 := rfl
  rw [htext] at hs
  obtain ⟨m, hm, hc⟩ := hl s _ hs (follows_op op ws (r.text ++ rest))
  obtain ⟨k, rfl⟩ : ∃ k, m = k + 1 := ⟨m - 1, by omega⟩
  have hcode : (Expr.binary l ws op r).code =
      l.code.bind fun a => r.code.bind fun b => BinOp.code op a b := rfl
  refine ⟨k, by omega, ?_, ?_⟩
  · intro w hw
    rw [hcode] at hw
    cases hlc : l.code with
    | error w' =>
      rw [hlc] at hw
      cases hw
      exact hc.error _ hlc
    | ok a =>
      obtain ⟨s₁, hs₁, hx⟩ := hc.ok a hlc
      obtain ⟨s₂, hs₂, hstep⟩ := enters_operand (L := L) ws op hs₁
      have hin := hr s₂ rest hs₂.rest hf
      rw [hlc] at hw
      have hw' : (r.code.bind fun b => BinOp.code op a b) = .error w := hw
      rw [hx, hstep]
      cases hrc : r.code with
      | error w' =>
        rw [hrc] at hw'
        cases hw'
        exact bind_error (hin.error _ hrc)
      | ok b =>
        rw [hrc] at hw'
        have hop : BinOp.code op a b = .error w := hw'
        obtain ⟨s₃, hs₃, hy⟩ := hin.ok b hrc
        rw [bind_ok hy]
        apply bind_error
        rw [applyBinary_ints, hop]
        rfl
  · intro v hv
    rw [hcode] at hv
    cases hlc : l.code with
    | error w' =>
      rw [hlc] at hv
      cases hv
    | ok a =>
      obtain ⟨s₁, hs₁, hx⟩ := hc.ok a hlc
      obtain ⟨s₂, hs₂, hstep⟩ := enters_operand (L := L) ws op hs₁
      have hin := hr s₂ rest hs₂.rest hf
      rw [hlc] at hv
      have hv' : (r.code.bind fun b => BinOp.code op a b) = .ok v := hv
      cases hrc : r.code with
      | error w' =>
        rw [hrc] at hv'
        cases hv'
      | ok b =>
        rw [hrc] at hv'
        have hop : BinOp.code op a b = .ok v := hv'
        obtain ⟨s₃, hs₃, hy⟩ := hin.ok b hrc
        have hzero : (Expr.binary l ws op r).codeByZero =
            (l.codeByZero || r.codeByZero || BinOp.byZero op b) := by
          simp only [Expr.codeByZero, hrc]
          rfl
        have happly : applyBinary op s₂.pos (.int a : PPValue L) (.int b) s₃ = .ok (.int v,
            if BinOp.byZero op b then s₃.report (op.zeroMessage.getD []) s₂.pos else s₃) := by
          rw [applyBinary_ints, hop]
          rfl
        refine ⟨if BinOp.byZero op b then s₃.report (op.zeroMessage.getD []) s₂.pos else s₃, ?_, ?_⟩
        · rw [hzero]
          have hread : After s s₃ rest (l.codeByZero || r.codeByZero) := hs₂.trans hs₃
          cases hz : BinOp.byZero op b with
          | false => simpa [hz] using hread
          | true =>
            have hrep : After s₃ (s₃.report (op.zeroMessage.getD []) s₂.pos) rest true :=
              (After.reported _ _).congr_rest hs₃.rest
            simpa [hz] using hread.trans hrep
        · rw [hx, hstep, bind_ok hy, bind_ok happly]

/-- **Every expression is read**, by its own level and the looser ones. -/
theorem reading {e : Expr} (hd : e.Derived) {n : ℕ} (hn : e.size ≤ n) :
    Reading macros body n e := by
  induction e generalizing n with
  | number ws k =>
    exact reading_of_unary hn rfl fun j hj => unaryReads_number ws k hj
  | unary ws op e ih =>
    have hsize : (Expr.unary ws op e).size = e.size + 1 := rfl
    have hin := ih hd.2 (n := n) (by omega)
    exact reading_of_unary hn rfl fun j hj => unaryReads_unary ws op (hin.unary hd.1) hj
  | binary l ws op r ihl ihr =>
    obtain ⟨hlr, hrr, hld, hrd⟩ := hd
    have hsize : (Expr.binary l ws op r).size = l.size + r.size + 1 := rfl
    have hrung : op.rung = op.rung - 1 + 1 := by cases op <;> rfl
    have hl := (ihl hld (n := n) (by omega)).chains (op.rung - 1) (by omega)
    have hr := (ihr hrd (n := n) (by omega)).reads (op.rung - 1) (by omega)
    have hchain := chainsAt_binary ws op hl hr hn
    have hread := hchain.reads hn
    have hself : (Expr.binary l ws op r).rung = op.rung := rfl
    refine ⟨fun q hq => hread.mono hn (by omega), ?_, fun h0 => by omega⟩
    intro q hq
    rcases Nat.lt_or_ge (op.rung - 1) q with hlt | hge
    · exact (hread.mono hn (by omega)).chains
    · obtain rfl : q = op.rung - 1 := by omega
      exact hchain
  | paren ws e ws' ih =>
    have hsize : (Expr.paren ws e ws').size = e.size + 1 := rfl
    have hin := (ih hd (n := n - 1) (by omega)).reads 6 e.rung_le
    exact reading_of_unary hn rfl fun j hj => unaryReads_paren ws ws' (by omega) hin (by omega)

end Reading

/-! ## Whole texts -/

section Whole

variable (macros : MacroTable) {e : Expr}

/-- Whether an error is among the findings. -/
def reportsError (fs : List Finding) : Prop := ∃ f ∈ fs, f.severity = .error

/-- The parser of a text that is an expression, behind its last byte. -/
theorem parseTop_text (body : Text → Except Halt (PPValue L × List Finding)) (hd : e.Derived)
    (tail : Blanks) {n : ℕ} (hn : e.size ≤ n) {s : Parser} (hs : s.rest = e.text ++ tail.1) :
    (∀ h, e.code = .error h → parseTop macros body (n + 1) s = .error h) ∧
      ∀ v, e.code = .ok v → ∃ s', After s s' [] e.codeByZero ∧
        parseTop macros body (n + 1) s = .ok (.int v, s') := by
  have hnil : skip tail.1 = [] := by
    have := skip_blanks tail []
    rwa [List.append_nil] at this
  have hin := (reading hd hn : Reading macros body n e).reads 6 e.rung_le s.skipBlanks tail.1
    (by rw [skipBlanks_rest, skip_skip, hs]) (follows_end 6 tail)
  constructor
  · intro h hh
    simp only [parseTop, skipWS_bind, parseLogicalOr_eq]
    exact bind_error (hin.error h hh)
  · intro v hv
    obtain ⟨s', hs', hx⟩ := hin.ok v hv
    have hrest : s'.skipBlanks.rest = [] := by rw [skipBlanks_rest, hs'.rest, hnil]
    refine ⟨s'.skipBlanks, ?_, ?_⟩
    · have hmove : After s' s'.skipBlanks [] false := After.moved (by rw [hrest]) rfl rfl
      have hall := hs'.trans hmove
      rw [Bool.or_false] at hall
      exact ⟨hall.rest, hall.errored, hall.reports, hall.honest⟩
    · simp only [parseTop, skipWS_bind, parseLogicalOr_eq]
      rw [bind_ok hx]
      simp only [skipWS_bind, remaining_bind, hrest, ne_eq, not_true_eq_false, if_false, pure_apply]

/-- **An expression's text evaluates to its value**, and an error is
reported exactly where it divides by zero. -/
theorem evaluate_text (hd : e.Derived) (tail : Blanks) (depth : ℕ) :
    (∀ h, e.code = .error h → evaluate L macros (depth + 1) (e.text ++ tail.1) = .error h) ∧
      ∀ v, e.code = .ok v → ∃ fs, evaluate L macros (depth + 1) (e.text ++ tail.1) = .ok (.int v, fs) ∧
        (e.codeByZero = true → reportsError fs) ∧ (e.codeByZero = false → fs = []) := by
  have hn : e.size ≤ (e.text ++ tail.1).length := by
    have := e.size_le_length
    rw [List.length_append]
    omega
  obtain ⟨herr, hok⟩ := parseTop_text macros (evaluate L macros depth) hd tail hn
    (s := ⟨e.text ++ tail.1, 0, false, []⟩) rfl
  have hrun : evaluate L macros (depth + 1) (e.text ++ tail.1) =
      (parseTop macros (evaluate L macros depth) ((e.text ++ tail.1).length + 1)
        ⟨e.text ++ tail.1, 0, false, []⟩).bind fun r => .ok (r.1, r.2.reports) := rfl
  constructor
  · intro h hh
    rw [hrun, herr h hh]
    rfl
  · intro v hv
    obtain ⟨s', hs', hx⟩ := hok v hv
    refine ⟨s'.reports, by rw [hrun, hx]; rfl, ?_, fun hz => hs'.reports hz⟩
    intro hz
    exact hs'.honest (fun h => absurd h Bool.false_ne_true) (by rw [hs'.errored, hz, Bool.or_true])

end Whole

end Evaluator

end Preprocess

end Nslc
