import Nslc.Preprocess.Reading
/-!
# Preprocessor — compile-time integer arithmetic

Two results about whole evaluations. An integer expression evaluates to
the value the grammar gives it (`byGrammar_iff`), and its arithmetic is
exact where every intermediate value fits `int64_t`
(`arithmeticExact_iff`); `INT64_MIN % -1`, whose quotient does not fit,
is undefined behaviour though its value is zero.
-/

namespace Nslc

namespace Preprocess

namespace Evaluator

open MacroExpander (pieces Piece.macro? expand)

variable {L : LongDouble} {α β : Type}

/-! ## A set flag means a reported error -/

/-- Every parser function keeps its parser honest. -/
def Keeps (x : Eval α) : Prop := ∀ s a s', x s = .ok (a, s') → s.Honest → s'.Honest

section Keeps

variable {x : Eval α} {f : α → Eval β}

theorem keeps_bind (hx : Keeps x) (hf : ∀ a, Keeps (f a)) : Keeps (x >>= f) := by
  intro s b s' h hs
  cases hxs : x s with
  | error w =>
    rw [bind_error hxs] at h
    cases h
  | ok r =>
    obtain ⟨a, s₁⟩ := r
    rw [bind_ok hxs] at h
    exact hf a s₁ b s' h (hx s a s₁ hxs hs)

theorem keeps_of_apply (g : Parser → α × Parser) (hx : ∀ s, x s = .ok (g s))
    (hg : ∀ s, s.Honest → (g s).2.Honest) : Keeps x := by
  intro s a s' h hs
  have heq := (hx s).symm.trans h
  have hg' := hg s hs
  rw [Except.ok.inj heq] at hg'
  exact hg'

theorem keeps_pure (a : α) : Keeps (pure a : Eval α) :=
  keeps_of_apply (fun s => (a, s)) (fun _ => rfl) fun _ h => h

theorem keeps_skipWS : Keeps skipWS :=
  keeps_of_apply (fun s => ((), s.skipBlanks)) (fun _ => rfl) fun _ h => h

theorem keeps_advance (n : ℕ) : Keeps (advance n) :=
  keeps_of_apply (fun s => ((), s.advance n)) (fun _ => rfl) fun _ h => h

theorem keeps_remaining : Keeps remaining :=
  keeps_of_apply (fun s => (s.rest, s)) (fun _ => rfl) fun _ h => h

theorem keeps_position : Keeps position :=
  keeps_of_apply (fun s => (s.pos, s)) (fun _ => rfl) fun _ h => h

theorem keeps_get : Keeps (get : Eval Parser) :=
  keeps_of_apply (fun s => (s, s)) (fun _ => rfl) fun _ h => h

theorem keeps_push (fs : List Finding) : Keeps (push fs) := by
  refine keeps_of_apply (fun s => ((), s.push fs)) (fun _ => rfl) fun s h he => ?_
  obtain ⟨f, hf, hsev⟩ := h he
  exact ⟨f, List.mem_append_left _ hf, hsev⟩

theorem keeps_report (message : Text) (pos : ℕ) :
    Keeps (modify fun p => p.report message pos : Eval Unit) :=
  keeps_of_apply (fun s => ((), s.report message pos)) (fun _ => rfl)
    fun s h => honest_report s message pos h

theorem keeps_reportZero (message : Text) (pos : ℕ) :
    Keeps (reportZero message pos : Eval (PPValue L)) :=
  keeps_bind (keeps_report message pos) fun _ => keeps_pure _

theorem keeps_halt (h : Halt) : Keeps (halt h : Eval α) := by
  intro s a s' heq
  cases heq

theorem keeps_liftM (y : Except Halt α) : Keeps (liftM y : Eval α) := by
  intro s a s' h hs
  rw [liftM_apply] at h
  cases y with
  | error w => cases h
  | ok b =>
    obtain ⟨-, rfl⟩ := Prod.mk.inj (Except.ok.inj h)
    exact hs

theorem keeps_takeBytes (p : Char → Bool) : Keeps (takeBytes p) :=
  keeps_bind keeps_remaining fun _ => keeps_bind (keeps_advance _) fun _ => keeps_pure _

end Keeps

section Functions

variable {operand primary : Eval (PPValue L)} {op? : Text → Option (BinOp × ℕ)} {K : Context L}

theorem keeps_ladder (h : Keeps operand) (n : ℕ) (v : PPValue L) :
    Keeps (ladder op? operand n v) := by
  induction n generalizing v with
  | zero => exact keeps_halt _
  | succ n ih =>
    refine keeps_bind keeps_skipWS fun _ => keeps_bind keeps_remaining fun t => ?_
    split
    · exact keeps_pure v
    · refine keeps_bind (keeps_advance _) fun _ => keeps_bind keeps_position fun pos =>
        keeps_bind h fun r => keeps_bind ?_ fun w => ih w
      unfold applyBinary
      split
      · exact keeps_reportZero _ pos
      · exact keeps_liftM _

theorem keeps_climb (h : Keeps operand) (n : ℕ) : Keeps (climb op? operand n) :=
  keeps_bind h fun v => keeps_ladder h n v

theorem keeps_parseUnary (h : Keeps primary) (n : ℕ) : Keeps (parseUnary primary n) := by
  induction n with
  | zero => exact keeps_halt _
  | succ n ih =>
    refine keeps_bind keeps_skipWS fun _ => keeps_bind keeps_remaining fun t => ?_
    split
    · exact keeps_bind keeps_position fun pos => keeps_reportZero _ pos
    · split
      · exact h
      · exact keeps_bind (keeps_advance 1) fun _ => keeps_bind ih fun v => keeps_liftM _

theorem keeps_parseNumber : Keeps (parseNumber : Eval (PPValue L)) := by
  refine keeps_bind keeps_position fun pos => keeps_bind keeps_remaining fun t =>
    keeps_bind (keeps_advance _) fun _ => ?_
  dsimp only
  split
  · split
    · exact keeps_pure _
    · exact keeps_reportZero _ pos
  · refine keeps_bind (keeps_liftM _) fun v => ?_
    split
    · exact keeps_pure _
    · exact keeps_reportZero _ pos

theorem keeps_parsePercentMacroRef : Keeps (parsePercentMacroRef K) := by
  refine keeps_bind keeps_position fun pos => keeps_bind (keeps_advance 1) fun _ =>
    keeps_bind (keeps_takeBytes _) fun name => ?_
  split
  · exact keeps_reportZero _ pos
  · refine keeps_bind keeps_remaining fun t => ?_
    split
    · exact keeps_reportZero _ pos
    · refine keeps_bind (keeps_advance 1) fun _ => ?_
      split
      · exact keeps_bind (keeps_push _) fun _ => keeps_pure _
      · exact keeps_bind (keeps_push _) fun _ => keeps_bind (keeps_liftM _) fun r =>
          keeps_bind (keeps_push _) fun _ => keeps_pure _

theorem keeps_parseArgs (h : Keeps operand) (n : ℕ) : Keeps (parseArgs operand n) := by
  induction n with
  | zero => exact keeps_halt _
  | succ n ih =>
    refine keeps_bind h fun v => keeps_bind keeps_skipWS fun _ => keeps_bind keeps_remaining fun t => ?_
    split
    · exact keeps_bind (keeps_advance 1) fun _ => keeps_bind ih fun vs => keeps_pure _
    · exact keeps_pure _

theorem keeps_callArgs (h : Keeps operand) (n : ℕ) : Keeps (callArgs operand n) := by
  refine keeps_bind keeps_remaining fun t => ?_
  split
  · exact keeps_pure _
  · exact keeps_parseArgs h n

theorem keeps_parseHelperCall (h : Keeps K.expression) (n begin : ℕ) (name : Text) :
    Keeps (parseHelperCall K n begin name) := by
  unfold parseHelperCall
  split
  · exact keeps_bind (keeps_report _ _) fun _ => keeps_bind keeps_remaining fun t =>
      keeps_bind (keeps_advance _) fun _ => keeps_pure _
  · refine keeps_bind (keeps_advance 1) fun _ => keeps_bind keeps_skipWS fun _ =>
      keeps_bind (keeps_callArgs h n) fun args => keeps_bind keeps_skipWS fun _ =>
        keeps_bind keeps_remaining fun t => ?_
    split
    · exact keeps_bind keeps_position fun pos => keeps_reportZero _ pos
    · refine keeps_bind (keeps_advance 1) fun _ => ?_
      split
      · exact keeps_reportZero _ _
      · exact keeps_bind (keeps_push _) fun _ => keeps_pure _

theorem keeps_parseName (begin : ℕ) (name : Text) : Keeps (parseName K begin name) := by
  unfold parseName
  split
  · exact keeps_reportZero _ _
  · split
    · exact keeps_reportZero _ _
    · refine keeps_bind keeps_get fun p => ?_
      split
      · exact keeps_pure _
      · exact keeps_reportZero _ _

theorem keeps_parseIdentOrHelper (h : Keeps K.expression) (n : ℕ) :
    Keeps (parseIdentOrHelper K n) := by
  refine keeps_bind keeps_position fun pos => keeps_bind (keeps_takeBytes _) fun name =>
    keeps_bind keeps_skipWS fun _ => keeps_bind keeps_remaining fun t => ?_
  split
  · exact keeps_parseHelperCall h n pos name
  · exact keeps_parseName pos name

theorem keeps_parseParens (h : Keeps K.expression) : Keeps (parseParens K) := by
  refine keeps_bind (keeps_advance 1) fun _ => keeps_bind h fun v =>
    keeps_bind keeps_skipWS fun _ => keeps_bind keeps_remaining fun t => ?_
  split
  · exact keeps_bind keeps_position fun pos => keeps_bind (keeps_report _ pos) fun _ => keeps_pure _
  · exact keeps_bind (keeps_advance 1) fun _ => keeps_pure _

theorem keeps_parsePrimary (h : Keeps K.expression) (n : ℕ) : Keeps (parsePrimary K n) := by
  refine keeps_bind keeps_skipWS fun _ => keeps_bind keeps_remaining fun t => ?_
  split
  · exact keeps_bind keeps_position fun pos => keeps_reportZero _ pos
  · split_ifs
    · exact keeps_parseParens h
    · exact keeps_parsePercentMacroRef
    · exact keeps_parseNumber
    · exact keeps_parseIdentOrHelper h n
    · exact keeps_bind keeps_position fun pos => keeps_bind (keeps_reportZero _ pos) fun v =>
        keeps_bind (keeps_advance 1) fun _ => keeps_pure _

theorem keeps_parseLogicalOr (macros : MacroTable)
    (body : Text → Except Halt (PPValue L × List Finding)) (n : ℕ) :
    Keeps (parseLogicalOr macros body n) := by
  induction n with
  | zero => exact keeps_halt _
  | succ n ih =>
    have hprimary : Keeps (parsePrimary ⟨macros, parseLogicalOr macros body n, body⟩ (n + 1)) :=
      keeps_parsePrimary ih (n + 1)
    exact keeps_climb (keeps_climb (keeps_climb (keeps_climb (keeps_climb
      (keeps_climb (keeps_parseUnary hprimary _) _) _) _) _) _) _

end Functions

/-! ## Trailing characters -/

/-- What the parser of the text has not read when the expression ends. -/
def unconsumed (L : LongDouble) (macros : MacroTable) (depth : ℕ) (text : Text) : Except Halt Text := do
  let r ← (parseLogicalOr macros (evaluate L macros depth) (text.length + 1)).run
    (Parser.skipBlanks ⟨text, 0, false, []⟩)
  return r.2.skipBlanks.rest

/-- **Unread characters are an error.** -/
theorem reportsError_of_unconsumed {macros : MacroTable} {depth : ℕ} {text rest : Text}
    (h : unconsumed L macros depth text = .ok rest) (hne : rest ≠ []) :
    ∃ v fs, evaluate L macros (depth + 1) text = .ok (v, fs) ∧ reportsError fs := by
  have hun : unconsumed L macros depth text =
      ((parseLogicalOr macros (evaluate L macros depth) (text.length + 1))
        (Parser.skipBlanks ⟨text, 0, false, []⟩)).bind fun r => .ok r.2.skipBlanks.rest := rfl
  have hev : evaluate L macros (depth + 1) text =
      (parseTop macros (evaluate L macros depth) (text.length + 1) ⟨text, 0, false, []⟩).bind
        fun r => .ok (r.1, r.2.reports) := rfl
  cases hrun : (parseLogicalOr macros (evaluate L macros depth) (text.length + 1))
      (Parser.skipBlanks ⟨text, 0, false, []⟩) with
  | error w =>
    rw [hun, hrun] at h
    cases h
  | ok r =>
    obtain ⟨v, s'⟩ := r
    rw [hun, hrun] at h
    have hrest : s'.skipBlanks.rest ≠ [] := by
      rw [Except.ok.inj h]
      exact hne
    have hhonest : s'.Honest :=
      keeps_parseLogicalOr macros _ _ _ v s' hrun fun hf => absurd hf Bool.false_ne_true
    have htop : parseTop macros (evaluate L macros depth) (text.length + 1) ⟨text, 0, false, []⟩ =
        .ok (v, s'.skipBlanks.report
          "unexpected trailing characters in compile-time expression".toList s'.skipBlanks.pos) := by
      simp only [parseTop, skipWS_bind]
      rw [bind_ok hrun]
      simp only [skipWS_bind, remaining_bind, if_pos hrest, position_bind]
      rfl
    refine ⟨v, _, by rw [hev, htop]; rfl, ?_⟩
    refine honest_report _ _ _ hhonest ?_
    unfold Parser.report
    split_ifs with he
    · exact he
    · rfl

/-! ## Evaluation by the grammar -/

/-- The text of the expression evaluates to the expression's value
without a report, and where characters are left over an error is
reported. -/
structure ByGrammar (L : LongDouble) (macros : MacroTable) (text : Text) (e : Expr) : Prop where
  value : ∀ depth, parse L macros (depth + 1) text = .ok (.int e.exact, [])
  trailing : ∀ depth text rest, unconsumed L macros depth text = .ok rest → rest ≠ [] →
    ∃ v fs, evaluate L macros (depth + 1) text = .ok (v, fs) ∧ reportsError fs

section Claims

variable {macros : MacroTable} {e : Expr} {tail : Blanks} {t : Text}

/-- `parse` of a text, its macros expanded without an error. -/
theorem parse_of_expand {t' : Text} (h : expand macros t 0 = (t', [])) (depth : ℕ) :
    parse L macros depth t = evaluate L macros depth t' := by
  have hp : parse L macros depth t = (evaluate L macros depth (expand macros t 0).1).bind fun r =>
      .ok (r.1, (expand macros t 0).2 ++ r.2) := rfl
  rw [hp, h]
  cases evaluate L macros depth t' <;> rfl

/-- **Compile-time expressions evaluate by the grammar**, but for the
remainder of the least integer by minus one. -/
theorem byGrammar_iff (hd : e.Derived) (hfree : ∀ p ∈ pieces (e.text ++ tail.1), p.macro? macros = none)
    (hzero : e.dividesByZero = false) (hfit : e.Fits) :
    ByGrammar L macros (e.text ++ tail.1) e ↔ ¬ e.LeastMod := by
  have hexp : MacroExpander.expand macros (e.text ++ tail.1) 0 = (e.text ++ tail.1, []) :=
    MacroExpander.expand_of_macroFree hfree
  constructor
  · intro h hm
    obtain ⟨w, hw⟩ := Expr.code_of_leastMod hfit hm
    have hval := h.value 0
    rw [parse_of_expand hexp, (evaluate_text (L := L) macros hd tail 0).1 w hw] at hval
    cases hval
  · intro hm
    obtain ⟨hcode, hz⟩ := Expr.code_of_fits hfit hm
    refine ⟨fun depth => ?_, fun depth text rest h hne => reportsError_of_unconsumed h hne⟩
    obtain ⟨fs, hrun, -, hquiet⟩ := (evaluate_text (L := L) macros hd tail depth).2 _ hcode
    rw [parse_of_expand hexp, hrun, hquiet (hz.trans hzero)]

/-- Rational numbers in the place of `long double`. -/
def ratReals : LongDouble where
  Real := ℚ
  ofInt := fun z => z
  trunc := fun q => some (if 0 ≤ q then ⌊q⌋ else ⌈q⌉)
  add := (· + ·)
  sub := (· - ·)
  mul := (· * ·)
  div := (· / ·)
  fmod := fun a b => a - b * ⌊a / b⌋
  neg := (- ·)
  eq := fun a b => decide (a = b)
  lt := fun a b => decide (a < b)
  le := fun a b => decide (a ≤ b)
  stold := fun _ => none
  format := fun q => (toString q).toList
  pow := fun a _ => a
  fabs := fun a => |a|
  unary := fun _ a => a

def noBlanks : Blanks := ⟨[], rfl⟩

def oneBlank : Blanks := ⟨[' '], by decide⟩

def one : Literal := ⟨.dec, '1', [], by decide, rfl⟩

def two : Literal := ⟨.dec, '2', [], by decide, rfl⟩

/-- `INT64_MAX`. -/
def greatest : Literal := ⟨.dec, '9', "223372036854775807".toList, by decide, by decide +kernel⟩

/-- `1 - 2 * -1`. -/
def difference : Expr :=
  .binary (.number noBlanks one) oneBlank .sub
    (.binary (.number oneBlank two) oneBlank .mul (.unary oneBlank .neg (.number noBlanks one)))

theorem byGrammar_difference : ByGrammar ratReals [] "1 - 2 * -1".toList difference := by
  have htext : difference.text ++ noBlanks.1 = "1 - 2 * -1".toList := by decide
  rw [← htext]
  exact (byGrammar_iff (by decide) (by decide) (by decide) (by decide)).2 (by decide)

/-- `(-9223372036854775807 - 1) % -1`. -/
def leastModulo : Expr :=
  .binary
    (.paren noBlanks
      (.binary (.unary noBlanks .neg (.number noBlanks greatest)) oneBlank .sub
        (.number oneBlank one))
      noBlanks)
    oneBlank .mod (.unary oneBlank .neg (.number noBlanks one))

/-- Every intermediate value fits and nothing is divided by zero, yet
the evaluation is undefined. -/
theorem not_byGrammar_leastModulo :
    leastModulo.Derived ∧ leastModulo.dividesByZero = false ∧ leastModulo.Fits ∧
      ¬ ByGrammar ratReals [] "(-9223372036854775807 - 1) % -1".toList leastModulo := by
  refine ⟨by decide +kernel, by decide +kernel, by decide +kernel, ?_⟩
  intro h
  have htext : leastModulo.text ++ noBlanks.1 = "(-9223372036854775807 - 1) % -1".toList := by decide +kernel
  have hexp : expand [] (leastModulo.text ++ noBlanks.1) 0 = (leastModulo.text ++ noBlanks.1, []) :=
    MacroExpander.expand_of_macroFree (by decide +kernel)
  have hval := h.value 0
  rw [← htext, parse_of_expand hexp,
    (evaluate_text [] (by decide +kernel) noBlanks 0).1 .undefinedBehaviour (by decide +kernel)] at hval
  cases hval

/-! ## Exact arithmetic -/

/-- The run reports an error or gives the mathematical value. -/
def GivesExactly (run : Except Halt (PPValue L × List Finding)) (e : Expr) : Prop :=
  ∃ v fs, run = .ok (v, fs) ∧ (reportsError fs ∨ v = .int e.exact)

/-- The text, which writes the expression, evaluates exactly, and so do
the expression's parts. -/
def ArithmeticExact (L : LongDouble) (macros : MacroTable) (text : Text) (e : Expr) : Prop :=
  ∀ depth, GivesExactly (parse L macros (depth + 1) text) e ∧
    ∀ p ∈ e.parts, GivesExactly (evaluate L macros (depth + 1) p.text) p

theorem derived_of_mem_parts (hd : e.Derived) : ∀ p ∈ e.parts, p.Derived := by
  induction e with
  | number ws k =>
    intro p hp
    obtain rfl := List.mem_singleton.1 hp
    exact hd
  | unary ws op e ih =>
    intro p hp
    rcases List.mem_cons.1 hp with rfl | hin
    · exact hd
    · exact ih hd.2 p hin
  | binary l ws op r ihl ihr =>
    intro p hp
    rcases List.mem_cons.1 hp with rfl | hin
    · exact hd
    · rcases List.mem_append.1 hin with hin | hin
      · exact ihl hd.2.2.1 p hin
      · exact ihr hd.2.2.2 p hin
  | paren ws e ws' ih =>
    intro p hp
    rcases List.mem_cons.1 hp with rfl | hin
    · exact hd
    · exact ih hd p hin

/-- An evaluation is exact iff the evaluator's value of the tree is. -/
theorem givesExactly_iff (hd : e.Derived) (tail : Blanks) (depth : ℕ) :
    GivesExactly (evaluate L macros (depth + 1) (e.text ++ tail.1)) e ↔ e.CodeExact := by
  obtain ⟨herr, hok⟩ := evaluate_text (L := L) macros hd tail depth
  constructor
  · rintro ⟨v, fs, hrun, hex⟩
    cases hc : e.code with
    | error w =>
      rw [herr w hc] at hrun
      cases hrun
    | ok a =>
      obtain ⟨fs', hrun', -, hquiet⟩ := hok a hc
      obtain ⟨rfl, rfl⟩ := Prod.mk.inj (Except.ok.inj (hrun.symm.trans hrun'))
      refine ⟨a, hc, ?_⟩
      cases hz : e.codeByZero with
      | true => exact .inl rfl
      | false =>
        refine .inr (PPValue.int.inj (hex.resolve_left ?_))
        rintro ⟨f, hf, -⟩
        rw [hquiet hz] at hf
        exact absurd hf List.not_mem_nil
  · rintro ⟨a, hc, hex⟩
    obtain ⟨fs, hrun, hrep, -⟩ := hok a hc
    exact ⟨_, fs, hrun, hex.imp hrep fun h => by rw [h]⟩

/-- **Exact or diagnosed.** The arithmetic of a text is exact iff every
intermediate value fits and `INT64_MIN % -1` does not occur. -/
theorem arithmeticExact_iff (hd : e.Derived) (ht : expand macros t 0 = (e.text ++ tail.1, [])) :
    ArithmeticExact L macros t e ↔ e.Fits ∧ ¬ e.LeastMod := by
  have hnil : ∀ p : Expr, p.text ++ (⟨[], rfl⟩ : Blanks).1 = p.text := fun p => List.append_nil _
  constructor
  · intro h
    apply Expr.fits_of_codeExact
    intro p hp
    have hpart := (h 0).2 p hp
    rw [← hnil p] at hpart
    exact (givesExactly_iff (derived_of_mem_parts hd p hp) _ 0).1 hpart
  · rintro ⟨hfit, hm⟩ depth
    have hpart : ∀ p ∈ e.parts, p.CodeExact := by
      intro p hp
      have hsub := Expr.parts_trans hp
      obtain ⟨hcode, -⟩ := Expr.code_of_fits (e := p) (fun q hq => hfit q (hsub hq))
        (fun ⟨q, hq, hl⟩ => hm ⟨q, hsub hq, hl⟩)
      exact ⟨_, hcode, .inr rfl⟩
    constructor
    · rw [parse_of_expand ht]
      exact (givesExactly_iff hd tail depth).2 (hpart e e.mem_parts_self)
    · intro p hp
      have hiff : GivesExactly (evaluate L macros (depth + 1) (p.text ++ [])) p ↔ p.CodeExact :=
        givesExactly_iff (derived_of_mem_parts hd p hp) ⟨[], rfl⟩ depth
      have hex := hiff.2 (hpart p hp)
      rwa [hnil p] at hex

theorem arithmeticExact_difference :
    ArithmeticExact ratReals [] "1 - 2 * -1".toList difference :=
  (arithmeticExact_iff (e := difference) (by decide)
    (MacroExpander.expand_of_macroFree (t := difference.text ++ noBlanks.1) (by decide))).2
    ⟨by decide, by decide⟩

/-- `0xFFFFFFFFFFFFFFFF`. -/
def allOnes : Expr :=
  .number noBlanks ⟨.hex, 'F', "FFFFFFFFFFFFFFF".toList, by decide, by decide +kernel⟩

/-- The literal evaluates to `-1` and nothing is reported. -/
theorem not_arithmeticExact_allOnes :
    parse ratReals [] 1 "0xFFFFFFFFFFFFFFFF".toList = .ok (.int (-1), []) ∧
      ¬ ArithmeticExact ratReals [] "0xFFFFFFFFFFFFFFFF".toList allOnes := by
  have hexp : expand [] "0xFFFFFFFFFFFFFFFF".toList 0 = (allOnes.text ++ noBlanks.1, []) :=
    MacroExpander.expand_of_macroFree (by decide +kernel)
  obtain ⟨fs, hrun, -, hquiet⟩ := (evaluate_text (L := ratReals) (e := allOnes) [] (by decide +kernel)
    noBlanks 0).2 (-1) (by decide +kernel)
  rw [hquiet (by decide +kernel), ← parse_of_expand hexp] at hrun
  refine ⟨hrun, fun h => ?_⟩
  obtain ⟨v, fs', hrun', hex⟩ := (h 0).1
  obtain ⟨rfl, rfl⟩ := Prod.mk.inj (Except.ok.inj (hrun.symm.trans hrun'))
  rcases hex with ⟨f, hf, -⟩ | hv
  · exact absurd hf List.not_mem_nil
  · exact absurd (PPValue.int.inj hv) (by decide +kernel)

end Claims

end Evaluator

end Preprocess

end Nslc
