import Nslc.Lower.Widths
import Nslc.Sema.Literals
/-!
# The value of a number literal

The lowering has three readers for one spelling: `parseNumericLiteral`
for literals in expressions, `resolveWidth` for widths and depths, and
`resolveDecimalLiteral` for initialisers, bounds, counts and parameters.
The last two read unsized decimal digits and nothing else, not even a
separator, and take one or zero for the rest. `LiteralPlace` lists the
places of a literal, `Used` what it is to be used there with its value,
and `ReadAt` where it is.
-/

namespace Nslc

namespace ASTToMLIR

open AST Nslc.Lex Sema

/-! ## Literals and their places -/

/-- The number a literal stands for. -/
def litValue (f : NumberForm) : ℕ := runValue f.radix.base f.run

/-- The literal as an expression; the parser keeps the radix of the
token. -/
def litExpr (f : NumberForm) : Expr := .literal (Sema.Radix.lit f.radix) f.text

def statedWidth : NumberForm → Option ℕ
  | .sized width _ _ _ => some (runValue 10 width)
  | _ => none

/-- Decimal digits without a separator. -/
def isPlain : NumberForm → Bool
  | .decimal digits => !digits.contains '_'
  | _ => false

/-- The places of a literal outside of expressions. -/
inductive LiteralPlace where
  | regInit
  | portWidth
  | regWidth
  | memWidth
  | memDepth
  | sliceHigh
  | sliceLow
  | repeatCount
  | paramInt
  | generateLower
  | generateUpper
  deriving DecidableEq, Repr

/-- The literal `e` of the value `v` is used with that value: the op the
place makes carries it. -/
def Used (e : Expr) (v : ℕ) : LiteralPlace → Prop
  | .regInit => ∀ (ctx : Enclosing) (b : Visitor) (loc : Loc) (name : Ident) (width : Option Expr),
      ∃ n type, (visitDecl ctx b (.reg loc name width (some e))).2 =
        [.value n type (.reg name (some v))]
  | .portWidth => ∀ (ctx : Enclosing) (b : Visitor) (p : PortDecl), p.width = some e →
      (dataName? (.port p)).isSome → emittedType (visitDecl ctx b (.port p)).2 = some (.bits v)
  | .regWidth => ∀ (ctx : Enclosing) (b : Visitor) (loc : Loc) (name : Ident) (init : Option Expr),
      emittedType (visitDecl ctx b (.reg loc name (some e) init)).2 = some (.bits v)
  | .memWidth => ∀ (ctx : Enclosing) (b : Visitor) (loc : Loc) (name : Ident) (depth : Expr)
      (init : List Expr),
      ∃ k, emittedType (visitDecl ctx b (.mem loc name depth e init)).2 = some (.mem k v)
  | .memDepth => ∀ (ctx : Enclosing) (b : Visitor) (loc : Loc) (name : Ident) (width : Expr)
      (init : List Expr),
      ∃ w, emittedType (visitDecl ctx b (.mem loc name e width init)).2 = some (.mem v w)
  | .sliceHigh => ∀ (b : Visitor) (n : ℕ) (hint : Option Ty) (loc : Loc) (sub : Expr),
      (lowerExpr b n none sub).value.isSome →
      ∃ m type x, (lowerExpr b n hint (.slice loc sub e none)).ops =
        (lowerExpr b n none sub).ops ++ [.value m type (.extract x v)]
  | .sliceLow => ∀ (b : Visitor) (n : ℕ) (hint : Option Ty) (loc : Loc) (sub hi : Expr),
      (lowerExpr b n none sub).value.isSome →
      ∀ m type x (l : ℤ), (lowerExpr b n hint (.slice loc sub hi (some e))).ops =
        (lowerExpr b n none sub).ops ++ [.value m type (.extract x l)] → l = v
  | .repeatCount => ∀ (b : Visitor) (n : ℕ) (hint : Option Ty) (body : Expr) (y : Value) (k : ℕ),
      (lowerExpr b n none body).value = some y → y.type = .bits k → 0 < v →
      ∃ m type x, (lowerExpr b n hint (.repeat e body)).ops =
        (lowerExpr b n none body).ops ++ [.value m type (.repeat x v)]
  | .paramInt => ∀ (b : Visitor) (p : TopLevelParamDecl), p.name ≠ [] → p.kind = .int →
      p.init = some e → (visitParam b p).2 = [.paramInt p.name v]
  | .generateLower => ∀ (ctx : Enclosing) (flat : Bool) (b : Visitor) (loc : Loc) (var : Ident)
      (cond step : Expr) (body : Stmt), ∃ upper amount name ops,
      (visitStmt ctx flat b (.generate loc var e cond step body)).2 =
        [.structuralGenerate v upper amount name ops]
  | .generateUpper => ∀ (ctx : Enclosing) (flat : Bool) (b : Visitor) (loc : Loc) (var : Ident)
      (init lhs step : Expr) (op : BinaryOp) (body : Stmt), ∃ lower amount name ops,
      (visitStmt ctx flat b (.generate loc var init (.binary op lhs e) step body)).2 =
        [.structuralGenerate lower v amount name ops]

/-- `parseNumericLiteral` gives the value, and the width that is stated. -/
def Parsed (f : NumberForm) : Prop :=
  parseNumericLiteral (Sema.Radix.lit f.radix) f.text = some ⟨litValue f, statedWidth f⟩

/-! ## Where the value is kept -/

/-- A literal of the grammar that is parsed: any but a `0b` one, a stated
width within 32 bits and not zero. -/
def Parses : NumberForm → Prop
  | .decimal _ => True
  | .cStyle r _ _ => r ≠ .bin
  | .sized width _ _ _ => 0 < runValue 10 width ∧ runValue 10 width < 2 ^ 32

/-- A literal that is read at the place. -/
def ReadAt (f : NumberForm) : LiteralPlace → Prop
  | .regInit => f.radix = .dec ∧ (isPlain f = true ∨ litValue f = 0)
  | .portWidth | .regWidth | .memWidth | .memDepth =>
    litValue f = 1 ∨ isPlain f = true ∧ 0 < litValue f ∧ litValue f < 2 ^ 32
  | .sliceHigh | .sliceLow | .repeatCount | .paramInt | .generateLower | .generateUpper =>
    isPlain f = true ∨ litValue f = 0

/-! ## Digits -/

theorem wrap64_of_lt {v : ℕ} (h : v < 2 ^ 63) : wrap64 v = v :=
  Int.bmod_eq_of_le_mul_two (by omega) (by omega)

theorem wrap64_push (v : ℤ) (base d : ℕ) :
    wrap64 (wrap64 v * base + d) = wrap64 (v * base + d) := by
  unfold wrap64
  rw [← Int.bmod_add_bmod, Int.bmod_mul_bmod, Int.bmod_add_bmod]

theorem toNat_le {c d : Char} (h : c ≤ d) : c.toNat ≤ d.toNat := h

/-- A digit of a radix has a value below the base. -/
theorem litDigit?_of_digit {r : Radix} {c : Char} (h : r.digit c = true) :
    litDigit? c = some ((hexDigit? c).getD 0) ∧ (hexDigit? c).getD 0 < r.base := by
  have hdec : ∀ {d : Char}, '0' ≤ c → c ≤ d → d ≤ '9' →
      litDigit? c = some ((hexDigit? c).getD 0) ∧ (hexDigit? c).getD 0 ≤ d.toNat - '0'.toNat := by
    intro d hlo hhi hd
    have hrange : '0' ≤ c ∧ c ≤ '9' := ⟨hlo, hhi.trans hd⟩
    have hval : (hexDigit? c).getD 0 = c.toNat - '0'.toNat := by simp [hexDigit?, hrange]
    have hle := toNat_le hhi
    rw [hval]
    refine ⟨by simp [litDigit?, isDecimal, hrange], ?_⟩
    omega
  cases r with
  | bin =>
    have hbin : c = '0' ∨ c = '1' := by simpa [Radix.digit] using h
    rcases hbin with rfl | rfl <;> decide
  | oct =>
    have hoct : '0' ≤ c ∧ c ≤ '7' := by simpa [Radix.digit] using h
    have hval := hdec hoct.1 hoct.2 (by decide)
    exact ⟨hval.1, lt_of_le_of_lt hval.2 (by decide)⟩
  | dec =>
    have hd := (isDecDigit_iff c).1 h
    have hval := hdec hd.1 hd.2 (le_refl _)
    exact ⟨hval.1, lt_of_le_of_lt hval.2 (by decide)⟩
  | hex =>
    have hhex : (('0' ≤ c ∧ c ≤ '9') ∨ ('a' ≤ c ∧ c ≤ 'f')) ∨ ('A' ≤ c ∧ c ≤ 'F') := by
      simpa [Radix.digit, isHexDigit, isDecDigit] using h
    rcases hhex with (hd | ha) | hA
    · have hval := hdec hd.1 hd.2 (le_refl _)
      exact ⟨hval.1, lt_of_le_of_lt hval.2 (by decide)⟩
    · have hd : ¬ ('0' ≤ c ∧ c ≤ '9') := fun hd => absurd (ha.1.trans hd.2) (by decide)
      have hle := toNat_le ha.2
      have hval : (hexDigit? c).getD 0 = c.toNat - 'a'.toNat + 10 := by
        simp [hexDigit?, hd, ha, Nat.add_comm]
      rw [hval]
      refine ⟨by simp [litDigit?, isDecimal, hd, ha], ?_⟩
      show c.toNat - 97 + 10 < 16
      have h102 : c.toNat ≤ 102 := hle
      omega
    · have hd : ¬ ('0' ≤ c ∧ c ≤ '9') := fun hd => absurd (hA.1.trans hd.2) (by decide)
      have ha : ¬ ('a' ≤ c ∧ c ≤ 'f') := fun ha => absurd (ha.1.trans hA.2) (by decide)
      have hle := toNat_le hA.2
      have hval : (hexDigit? c).getD 0 = c.toNat - 'A'.toNat + 10 := by
        simp [hexDigit?, hd, ha, hA, Nat.add_comm]
      rw [hval]
      refine ⟨by simp [litDigit?, isDecimal, hd, ha, hA], ?_⟩
      show c.toNat - 65 + 10 < 16
      have h70 : c.toNat ≤ 70 := hle
      omega

theorem litBase_lit (r : Radix) : litBase (Sema.Radix.lit r) = r.base := by
  cases r <;> rfl

/-- Without markers a run is of digits and separators. -/
theorem digit_of_unmarked {r : Radix} {run : Text} (hm : marked run = false)
    (h : ∀ c ∈ run, r.inRun c = true) : ∀ c ∈ run, c ≠ '_' → r.digit c = true := by
  intro c hc hsep
  have hflag : (markerFlag c).isSome = false := by
    have hall := List.any_eq_false.1 hm c hc
    simpa using hall
  have hin := h c hc
  simpa [Radix.inRun, Radix.valueDigit, hflag, hsep] using hin

/-- The loop of `parseNumericLiteral`, over digits from the value `v`
on. -/
theorem valueDigits_run {r : Radix} {run : Text} (h : ∀ c ∈ run, c ≠ '_' → r.digit c = true)
    (v : ℕ) :
    valueDigits r.base (wrap64 v) run =
      some (wrap64 ((runDigits run).foldl (fun v c => v * r.base + (hexDigit? c).getD 0) v : ℕ)) := by
  induction run generalizing v with
  | nil => rfl
  | cons c cs ih =>
    have htail : ∀ d ∈ cs, d ≠ '_' → r.digit d = true := fun d hd => h d (by simp [hd])
    rw [valueDigits]
    by_cases hc : c = '_'
    · have hdigits : runDigits (c :: cs) = runDigits cs := by simp [runDigits, hc]
      rw [if_pos hc, hdigits]
      exact ih htail v
    · have hdigits : runDigits (c :: cs) = c :: runDigits cs := by simp [runDigits, hc]
      obtain ⟨hdig, hlt⟩ := litDigit?_of_digit (h c (by simp) hc)
      rw [if_neg hc, hdig, hdigits, List.foldl_cons]
      simp only [hlt, if_true]
      rw [wrap64_push]
      have hstep := ih htail (v * r.base + (hexDigit? c).getD 0)
      rw [Nat.cast_add, Nat.cast_mul] at hstep
      exact hstep

theorem explicitWidth_run {width : Text} (h : ∀ c ∈ width, isDecRun c = true) (v : ℕ) :
    explicitWidth (v % 2 ^ 32) width =
      some ((runDigits width).foldl (fun v c => v * 10 + (hexDigit? c).getD 0) v % 2 ^ 32) := by
  induction width generalizing v with
  | nil => rfl
  | cons c cs ih =>
    have htail : ∀ d ∈ cs, isDecRun d = true := fun d hd => h d (by simp [hd])
    rw [explicitWidth]
    by_cases hc : c = '_'
    · have hdigits : runDigits (c :: cs) = runDigits cs := by simp [runDigits, hc]
      rw [if_pos hc, hdigits]
      exact ih htail v
    · have hdigits : runDigits (c :: cs) = c :: runDigits cs := by simp [runDigits, hc]
      have hdec := isDecDigit_of_isDecRun (h c (by simp)) hc
      have hval : (hexDigit? c).getD 0 = c.toNat - '0'.toNat := by
        simp [hexDigit?, (isDecDigit_iff c).1 hdec]
      have hmod : (v % 2 ^ 32 * 10 + (c.toNat - '0'.toNat)) % 2 ^ 32 =
          (v * 10 + (c.toNat - '0'.toNat)) % 2 ^ 32 := by omega
      rw [if_neg hc, if_pos (show isDecimal c = true from hdec), hdigits, List.foldl_cons, hval, hmod]
      exact ih htail _

/-! ## `parseNumericLiteral` -/

section Forms

variable {anyCase : Bool} {f : NumberForm}

theorem valueDigits_litValue {r : Radix} {run : Text} (hm : marked run = false)
    (h : ∀ c ∈ run, r.inRun c = true) (hv : runValue r.base run < 2 ^ 63) :
    valueDigits r.base 0 run = some (runValue r.base run : ℤ) := by
  have hrun := valueDigits_run (digit_of_unmarked hm h) 0
  rw [show wrap64 ((0 : ℕ) : ℤ) = 0 from rfl] at hrun
  rw [hrun]
  exact congrArg some (wrap64_of_lt hv)

theorem skipBase_letter {r : Radix} {c : Char} (h : RadixLetter anyCase r.letter c) (run : Text) :
    skipBase (c :: run) = run := by
  rcases radixLetter_cases h with rfl | rfl <;> cases r <;> rfl

theorem split_quote {width : Text} (h : ValueRun .dec width) (rest : Text) :
    (width ++ '\'' :: rest).takeWhile (fun c => decide (c ≠ '\'')) = width ∧
      (width ++ '\'' :: rest).dropWhile (fun c => decide (c ≠ '\'')) = '\'' :: rest := by
  have hplain : ∀ d ∈ width, decide (d ≠ '\'') = true := by
    intro d hd
    rw [decide_eq_true_iff]
    rintro rfl
    exact quote_not_mem h hd
  constructor
  · rw [List.takeWhile_append_of_pos hplain]
    simp
  · rw [List.dropWhile_append_of_pos hplain]
    simp

theorem parsed_decimal {digits : Text} (h : ValueRun .dec digits)
    (hv : runValue 10 digits < 2 ^ 63) :
    parseNumericLiteral .decimal digits = some ⟨runValue 10 digits, none⟩ := by
  have hne : digits ≠ [] := by
    obtain ⟨c, cs, rfl, -⟩ := h
    exact List.cons_ne_nil _ _
  have hm : marked digits = false := by
    rw [marked, List.any_eq_false]
    intro c hc
    have hrun := isDecRun_of_mem h c hc
    by_cases hsep : c = '_'
    · subst hsep
      decide
    · have hd := (isDecDigit_iff c).1 (isDecDigit_of_isDecRun hrun hsep)
      have hne : ∀ d : Char, '9' < d → c ≠ d := fun d hlt heq => absurd (heq ▸ hd.2) (not_le.2 hlt)
      simp [markerFlag, hne 'Z' (by decide), hne 'z' (by decide), hne 'X' (by decide),
        hne 'x' (by decide), hne 'U' (by decide), hne 'u' (by decide)]
  have hvalue := valueDigits_litValue (r := .dec) hm (inRun_of_mem h) hv
  rw [parseNumericLiteral, if_neg (by simp [hne]), if_neg (quote_not_mem h)]
  show (valueDigits Radix.dec.base 0 digits).map _ = _
  rw [hvalue]
  rfl

theorem parsed_cStyleHex {c : Char} (hc : c = 'x' ∨ c = 'X') {run : Text} (h : ValueRun .hex run)
    (hm : marked run = false) (hv : runValue 16 run < 2 ^ 63) :
    parseNumericLiteral .hex ('0' :: c :: run) = some ⟨runValue 16 run, none⟩ := by
  have hquote : '\'' ∉ '0' :: c :: run := by
    intro hmem
    rcases List.mem_cons.1 hmem with hmem | hmem
    · exact absurd hmem (by decide)
    rcases List.mem_cons.1 hmem with hmem | hmem
    · rcases hc with rfl | rfl <;> exact absurd hmem (by decide)
    · exact absurd (inRun_of_mem h _ hmem) (by decide)
  have hvalue := valueDigits_litValue (r := .hex) hm (inRun_of_mem h) hv
  rw [parseNumericLiteral, if_neg (by simp), if_neg hquote]
  -- the prefix counts as two digits zero
  have hfront : valueDigits 16 0 ('0' :: c :: run) = valueDigits 16 0 run := by
    have hzero : wrap64 (0 * (16 : ℕ) + (0 : ℕ)) = 0 := wrap64_of_lt (v := 0) (by omega)
    have h0 : litDigit? '0' = some 0 := by decide
    have hx : litDigit? 'x' = some 0 ∧ litDigit? 'X' = some 0 := by decide
    have hskip : ∀ d cs, litDigit? d = some 0 → d ≠ '_' →
        valueDigits 16 0 (d :: cs) = valueDigits 16 0 cs := by
      intro d cs hd hsep
      rw [valueDigits, if_neg hsep, hd]
      simp only [Nat.ofNat_pos, if_true, hzero]
    rw [hskip _ _ h0 (by decide)]
    rcases hc with rfl | rfl
    · exact hskip _ _ hx.1 (by decide)
    · exact hskip _ _ hx.2 (by decide)
  show (valueDigits 16 0 ('0' :: c :: run)).map _ = _
  rw [hfront]
  show (valueDigits Radix.hex.base 0 run).map _ = _
  rw [hvalue]
  rfl

/-- The letter of `0b` is a digit of base 16, and none of base 2. -/
theorem parsed_cStyleBin {c : Char} (hc : c = 'b' ∨ c = 'B') {run : Text} (h : ValueRun .bin run) :
    parseNumericLiteral .binary ('0' :: c :: run) = none := by
  have hquote : '\'' ∉ '0' :: c :: run := by
    intro hmem
    rcases List.mem_cons.1 hmem with hmem | hmem
    · exact absurd hmem (by decide)
    rcases List.mem_cons.1 hmem with hmem | hmem
    · rcases hc with rfl | rfl <;> exact absurd hmem (by decide)
    · exact absurd (inRun_of_mem h _ hmem) (by decide)
  rw [parseNumericLiteral, if_neg (by simp), if_neg hquote]
  rcases hc with rfl | rfl <;> rfl

theorem parsed_sized {width run : Text} {r : Radix} {c : Char} (hwidth : ValueRun .dec width)
    (hc : RadixLetter anyCase r.letter c) (h : ValueRun r run) (hm : marked run = false)
    (hv : runValue r.base run < 2 ^ 63) :
    parseNumericLiteral (Sema.Radix.lit r) (width ++ '\'' :: c :: run) =
      some ⟨runValue r.base run,
        some (if runValue 10 width % 2 ^ 32 = 0 then 1 else runValue 10 width % 2 ^ 32)⟩ := by
  obtain ⟨htake, hdrop⟩ := split_quote hwidth (c :: run)
  have hkind : Sema.Radix.lit r ≠ .string := by cases r <;> decide
  have hw := explicitWidth_run (isDecRun_of_mem hwidth) 0
  have hvalue := valueDigits_litValue hm (inRun_of_mem h) hv
  rw [parseNumericLiteral, if_neg (by simp [hkind]), if_pos (by simp), htake, hdrop]
  rw [Nat.zero_mod] at hw
  rw [hw]
  simp only [List.tail_cons, skipBase_letter hc, litBase_lit, hvalue]
  rfl

/-- **When `parseNumericLiteral` succeeds** with value and width. -/
theorem parsed_iff (hf : f.Derived anyCase) (hm : marked f.run = false) (hv : litValue f < 2 ^ 63) :
    Parsed f ↔ Parses f := by
  cases f with
  | decimal digits => exact iff_of_true (parsed_decimal hf hv) trivial
  | cStyle r c run =>
    obtain ⟨⟨l, hl, hc⟩, hrun⟩ := hf
    cases r with
    | bin =>
      obtain rfl := Option.some.inj hl
      refine iff_of_false ?_ (fun h => h rfl)
      show ¬ parseNumericLiteral .binary ('0' :: c :: run) = _
      rw [parsed_cStyleBin (radixLetter_cases hc) hrun]
      exact Option.some_ne_none _ ∘ Eq.symm
    | hex =>
      obtain rfl := Option.some.inj hl
      exact iff_of_true (parsed_cStyleHex (radixLetter_cases hc) hrun hm hv) (by simp [Parses])
    | oct => cases hl
    | dec => cases hl
  | sized width r c run =>
    obtain ⟨hwidth, hc, hrun⟩ := hf
    show parseNumericLiteral (Sema.Radix.lit r) (width ++ '\'' :: c :: run) = _ ↔ _
    rw [parsed_sized hwidth hc hrun hm hv]
    simp only [litValue, NumberForm.radix, NumberForm.run, statedWidth, Parses, Option.some.injEq,
      ParsedNumericLiteral.mk.injEq, true_and]
    split <;> omega

/-! ## The other readers -/

theorem decimalDigits_plain {digits : Text} (h : ∀ c ∈ digits, isDecDigit c = true) (v : ℕ) :
    decimalDigits (wrap64 v) digits =
      some (wrap64 (digits.foldl (fun v c => v * 10 + (hexDigit? c).getD 0) v : ℕ)) := by
  induction digits generalizing v with
  | nil => rfl
  | cons c cs ih =>
    have hc := h c (by simp)
    have hval : (hexDigit? c).getD 0 = c.toNat - '0'.toNat := by
      simp [hexDigit?, (isDecDigit_iff c).1 hc]
    rw [decimalDigits, if_pos (show isDecimal c = true from hc), List.foldl_cons, hval]
    rw [show wrap64 (wrap64 v * 10 + ((c.toNat - '0'.toNat : ℕ) : ℤ)) =
      wrap64 (v * 10 + ((c.toNat - '0'.toNat : ℕ) : ℤ)) from wrap64_push v 10 _]
    have hstep := ih (fun d hd => h d (by simp [hd])) (v * 10 + (c.toNat - '0'.toNat))
    rw [Nat.cast_add, Nat.cast_mul] at hstep
    exact hstep

/-- Anything else than a decimal digit ends it. -/
theorem decimalDigits_other {s : Text} (h : ∃ c ∈ s, isDecDigit c = false) (v : ℤ) :
    decimalDigits v s = none := by
  induction s generalizing v with
  | nil =>
    obtain ⟨c, hc, -⟩ := h
    cases hc
  | cons c cs ih =>
    rw [decimalDigits]
    split
    · next hdec =>
      obtain ⟨d, hd, hnot⟩ := h
      refine ih ⟨d, (List.mem_cons.1 hd).resolve_left ?_, hnot⟩ _
      rintro rfl
      rw [show isDecDigit d = true from hdec] at hnot
      cases hnot
    · rfl

theorem widthDigits_other {s : Text} (h : ∃ c ∈ s, isDecDigit c = false) (v : ℕ) :
    widthDigits v s = none := by
  induction s generalizing v with
  | nil =>
    obtain ⟨c, hc, -⟩ := h
    cases hc
  | cons c cs ih =>
    rw [widthDigits]
    split
    · next hdec =>
      obtain ⟨d, hd, hnot⟩ := h
      refine ih ⟨d, (List.mem_cons.1 hd).resolve_left ?_, hnot⟩ _
      rintro rfl
      rw [show isDecDigit d = true from hdec] at hnot
      cases hnot
    · rfl

theorem widthDigits_plain {digits : Text} (h : ∀ c ∈ digits, isDecDigit c = true) (v : ℕ) :
    widthDigits (v % 2 ^ 32) digits =
      some (digits.foldl (fun v c => v * 10 + (hexDigit? c).getD 0) v % 2 ^ 32) := by
  induction digits generalizing v with
  | nil => rfl
  | cons c cs ih =>
    have hc := h c (by simp)
    have hval : (hexDigit? c).getD 0 = c.toNat - '0'.toNat := by
      simp [hexDigit?, (isDecDigit_iff c).1 hc]
    have hmod : (v % 2 ^ 32 * 10 + (c.toNat - '0'.toNat)) % 2 ^ 32 =
        (v * 10 + (c.toNat - '0'.toNat)) % 2 ^ 32 := by omega
    rw [widthDigits, if_pos (show isDecimal c = true from hc), List.foldl_cons, hval, hmod]
    exact ih (fun d hd => h d (by simp [hd])) _

/-- A plain literal is its digits. -/
theorem plain_cases (hf : f.Derived anyCase) (hp : isPlain f = true) :
    ∃ digits, f = .decimal digits ∧ (∀ c ∈ digits, isDecDigit c = true) ∧ runDigits digits = digits := by
  cases f with
  | decimal digits =>
    have hsep : '_' ∉ digits := by simpa [isPlain] using hp
    refine ⟨digits, rfl, fun c hc => ?_, ?_⟩
    · refine isDecDigit_of_isDecRun (isDecRun_of_mem hf c hc) ?_
      rintro rfl
      exact hsep hc
    · rw [runDigits, List.filter_eq_self]
      intro c hc
      simp only [ne_eq, decide_eq_true_eq]
      rintro rfl
      exact hsep hc
  | cStyle r c run => cases hp
  | sized width r c run => cases hp

/-- Any other decimal literal has a byte that is no digit. -/
theorem other_byte (hf : f.Derived anyCase) (hp : isPlain f = false) (hr : f.radix = .dec) :
    ∃ c ∈ f.text, isDecDigit c = false := by
  cases f with
  | decimal digits =>
    refine ⟨'_', ?_, by decide⟩
    show '_' ∈ digits
    simpa [isPlain] using hp
  | cStyle r c run =>
    obtain ⟨⟨l, hl, -⟩, -⟩ := hf
    obtain rfl : r = .dec := hr
    cases hl
  | sized width r c run => exact ⟨'\'', by simp [NumberForm.text], by decide⟩

/-- A decimal literal read in 64 bits. -/
theorem resolveDecimalLiteral_litExpr (hf : f.Derived anyCase) (hv : litValue f < 2 ^ 63) :
    resolveDecimalLiteral (some (litExpr f)) = if isPlain f then (litValue f : ℤ) else 0 := by
  cases hp : isPlain f with
  | true =>
    obtain ⟨digits, rfl, hdigits, hself⟩ := plain_cases hf hp
    have hplain := decimalDigits_plain hdigits 0
    rw [show wrap64 ((0 : ℕ) : ℤ) = 0 from wrap64_of_lt (by omega)] at hplain
    show (decimalDigits 0 digits).getD 0 = ((litValue (.decimal digits) : ℕ) : ℤ)
    have hval : litValue (.decimal digits) =
        digits.foldl (fun v c => v * 10 + (hexDigit? c).getD 0) 0 := by
      show runValue 10 digits = _
      rw [runValue, hself]
    rw [hplain, Option.getD_some, ← hval, wrap64_of_lt hv]
  | false =>
    by_cases hr : f.radix = .dec
    · have hkind : litExpr f = .literal .decimal f.text := by rw [litExpr, hr]; rfl
      rw [hkind]
      show (decimalDigits 0 f.text).getD 0 = 0
      rw [decimalDigits_other (other_byte hf hp hr)]
      rfl
    · have hkind : Sema.Radix.lit f.radix ≠ .decimal := by
        revert hr
        cases f.radix <;> decide
      unfold litExpr resolveDecimalLiteral
      split
      · next spelling heq => exact absurd (Expr.literal.inj (Option.some.inj heq)).1 hkind
      · rfl

theorem resolveWidth_decimal (spelling : Text) :
    resolveWidth (some (.literal .decimal spelling)) =
      (widthDigits 0 spelling).elim 1 fun v => if v = 0 then 1 else v := by
  cases h : widthDigits 0 spelling with
  | none => simp only [resolveWidth, h, Option.elim_none]
  | some v => simp only [resolveWidth, h, Option.elim_some]

/-- A width read in 32 bits. -/
theorem resolveWidth_litExpr (hf : f.Derived anyCase) :
    resolveWidth (some (litExpr f)) =
      if isPlain f ∧ litValue f % 2 ^ 32 ≠ 0 then litValue f % 2 ^ 32 else 1 := by
  cases hp : isPlain f with
  | true =>
    obtain ⟨digits, rfl, hdigits, hself⟩ := plain_cases hf hp
    have hplain := widthDigits_plain hdigits 0
    rw [Nat.zero_mod] at hplain
    have hval : litValue (.decimal digits) =
        digits.foldl (fun v c => v * 10 + (hexDigit? c).getD 0) 0 := by
      show runValue 10 digits = _
      rw [runValue, hself]
    refine (resolveWidth_decimal digits).trans ?_
    rw [hplain, ← hval, Option.elim_some]
    simp only [true_and, ne_eq, ite_not]
  | false =>
    simp only [Bool.false_eq_true, false_and, if_false]
    by_cases hr : f.radix = .dec
    · have hkind : litExpr f = .literal .decimal f.text := by rw [litExpr, hr]; rfl
      rw [hkind, resolveWidth_decimal, widthDigits_other (other_byte hf hp hr), Option.elim_none]
    · have hkind : Sema.Radix.lit f.radix ≠ .decimal := by
        revert hr
        cases f.radix <;> decide
      unfold litExpr resolveWidth
      split
      · next spelling heq => exact absurd (Expr.literal.inj (Option.some.inj heq)).1 hkind
      · rfl

theorem regInit_litExpr (f : NumberForm) :
    regInit (some (litExpr f)) =
      if f.radix = .dec then some (resolveDecimalLiteral (some (litExpr f))) else none := by
  by_cases hr : f.radix = .dec
  · have hkind : litExpr f = .literal .decimal f.text := by rw [litExpr, hr]; rfl
    rw [if_pos hr, hkind]
    rfl
  · have hkind : Sema.Radix.lit f.radix ≠ .decimal := by
      revert hr
      cases f.radix <;> decide
    rw [if_neg hr]
    unfold litExpr regInit
    split
    · next spelling heq => exact absurd (Expr.literal.inj (Option.some.inj heq)).1 hkind
    · rfl

theorem readDecimal_iff (hf : f.Derived anyCase) (hv : litValue f < 2 ^ 63) :
    resolveDecimalLiteral (some (litExpr f)) = litValue f ↔ isPlain f = true ∨ litValue f = 0 := by
  rw [resolveDecimalLiteral_litExpr hf hv]
  cases isPlain f <;> simp
  omega

theorem readWidth_iff (hf : f.Derived anyCase) :
    resolveWidth (some (litExpr f)) = litValue f ↔
      litValue f = 1 ∨ isPlain f = true ∧ 0 < litValue f ∧ litValue f < 2 ^ 32 := by
  rw [resolveWidth_litExpr hf]
  split
  · next h =>
    obtain ⟨hp, hne⟩ := h
    simp only [hp, true_and]
    omega
  · next h =>
    rw [not_and, not_not] at h
    constructor
    · intro hone
      exact .inl hone.symm
    · rintro (hone | ⟨hp, hlo, hhi⟩)
      · exact hone.symm
      · have hzero := h hp
        omega

end Forms

/-! ## The places -/

/-- What the code takes the literal for at a place. -/
def reading (e : Expr) : LiteralPlace → Option ℤ
  | .regInit => regInit (some e)
  | .portWidth | .regWidth | .memWidth | .memDepth => some (resolveWidth (some e))
  | _ => some (resolveDecimalLiteral (some e))

variable {anyCase : Bool} {f : NumberForm}

theorem reading_iff (hf : f.Derived anyCase) (hv : litValue f < 2 ^ 63) (place : LiteralPlace) :
    reading (litExpr f) place = some (litValue f : ℤ) ↔ ReadAt f place := by
  have hdec := readDecimal_iff hf hv
  have hwidth := readWidth_iff hf
  rw [← Nat.cast_inj (R := ℤ), ← Option.some.injEq] at hwidth
  have hsome := hdec
  rw [← Option.some.injEq] at hsome
  cases place with
  | regInit =>
    show regInit (some (litExpr f)) = _ ↔ f.radix = .dec ∧ _
    rw [regInit_litExpr]
    split
    · next hr => simp only [hr, true_and, hsome]
    · next hr => simp [hr]
  | portWidth => exact hwidth
  | regWidth => exact hwidth
  | memWidth => exact hwidth
  | memDepth => exact hwidth
  | sliceHigh => exact hsome
  | sliceLow => exact hsome
  | repeatCount => exact hsome
  | paramInt => exact hsome
  | generateLower => exact hsome
  | generateUpper => exact hsome

/-- A one-bit value, for the places that need one. -/
def bitLiteral : Expr := .literal .decimal ['1']

theorem lowerExpr_bitLiteral :
    (lowerExpr .start 0 none bitLiteral).value = some ⟨0, 0, .bits 1⟩ := by
  decide +kernel

theorem ops_slice {b : Visitor} {n : ℕ} {hint : Option Ty} {loc : Loc} {sub hi : Expr}
    {lo : Option Expr} {v : Value} (hsub : (lowerExpr b n none sub).value = some v)
    (h : ¬ resolveDecimalLiteral (some hi) <
      if lo.isSome then resolveDecimalLiteral lo else resolveDecimalLiteral (some hi)) :
    (lowerExpr b n hint (.slice loc sub hi lo)).ops = (lowerExpr b n none sub).ops ++
      [.value (lowerExpr b n none sub).next
        (.bits ((resolveDecimalLiteral (some hi) -
          (if lo.isSome then resolveDecimalLiteral lo else resolveDecimalLiteral (some hi)) + 1).toNat
            % 2 ^ 32))
        (.extract (b.operand v)
          (if lo.isSome then resolveDecimalLiteral lo else resolveDecimalLiteral (some hi)))] := by
  rw [lowerExpr, Out.andThen, hsub]
  simp only [h, if_false]
  rfl

theorem ops_repeat {b : Visitor} {n : ℕ} {hint : Option Ty} {count body : Expr} {y : Value} {k : ℕ}
    (hbody : (lowerExpr b n none body).value = some y) (hy : y.type = .bits k)
    (h : ¬ repeatCount b count < 1) :
    (lowerExpr b n hint (.repeat count body)).ops = (lowerExpr b n none body).ops ++
      [.value (lowerExpr b n none body).next (.bits ((repeatCount b count).toNat * k % 2 ^ 32))
        (.repeat (b.operand y) (repeatCount b count))] := by
  rw [lowerExpr, if_neg h, Out.andThen, hbody]
  simp only [hy]
  rfl

/-- **The op carries what the code reads.** -/
theorem used_iff_reading (hf : f.Derived anyCase) (hv : litValue f < 2 ^ 63)
    (place : LiteralPlace) :
    Used (litExpr f) (litValue f) place ↔ reading (litExpr f) place = some (litValue f : ℤ) := by
  have hdec : ∀ v : ℤ, some v = some (litValue f : ℤ) ↔ v = litValue f := fun v => Option.some_inj
  have hwidth : ∀ w : ℕ, some (w : ℤ) = some (litValue f : ℤ) ↔ w = litValue f := fun w => by
    rw [Option.some_inj, Nat.cast_inj]
  cases place with
  | regInit =>
    constructor
    · intro h
      obtain ⟨n, type, hop⟩ := h ⟨[], []⟩ .start 0 [] none
      have hinit : regInit (some (litExpr f)) = some (litValue f : ℤ) := by
        simp only [visitDecl, Visitor.define, List.cons.injEq, Op.value.injEq, ValueOp.reg.injEq] at hop
        exact hop.1.2.2.2
      exact hinit
    · intro h ctx b loc name width
      refine ⟨b.next, .bits (resolveWidth width), ?_⟩
      show [Op.value b.next _ (.reg name (regInit (some (litExpr f))))] = _
      rw [show regInit (some (litExpr f)) = some (litValue f : ℤ) from h]
  | portWidth =>
    rw [reading, hwidth]
    constructor
    · intro h
      have hop := h ⟨[], []⟩ .start ⟨0, .input, [], some (litExpr f), [], []⟩ rfl rfl
      simpa [visitDecl, visitPort, Visitor.define, emittedType] using hop
    · intro h ctx b p hp hdata
      rw [← h, ← hp]
      obtain ⟨name, hname⟩ := Option.isSome_iff_exists.1 hdata
      unfold dataName? at hname
      simp only [visitDecl, visitPort]
      cases hd : p.direction <;> simp [hd] at hname <;> rfl
  | regWidth =>
    rw [reading, hwidth]
    constructor
    · intro h
      have hop := h ⟨[], []⟩ .start 0 [] none
      simpa [visitDecl, Visitor.define, emittedType] using hop
    · intro h ctx b loc name init
      rw [← h]
      rfl
  | memWidth =>
    rw [reading, hwidth]
    constructor
    · intro h
      obtain ⟨k, hop⟩ := h ⟨[], []⟩ .start 0 [] bitLiteral []
      have hmem : Ty.mem _ (resolveWidth (some (litExpr f))) = .mem k (litValue f) :=
        Option.some.inj hop
      exact (Ty.mem.inj hmem).2
    · intro h ctx b loc name depth init
      rw [← h]
      exact ⟨_, rfl⟩
  | memDepth =>
    rw [reading, hwidth]
    constructor
    · intro h
      obtain ⟨w, hop⟩ := h ⟨[], []⟩ .start 0 [] bitLiteral []
      have hmem : Ty.mem (resolveWidth (some (litExpr f))) _ = .mem (litValue f) w :=
        Option.some.inj hop
      exact (Ty.mem.inj hmem).1
    · intro h ctx b loc name width init
      rw [← h]
      exact ⟨_, rfl⟩
  | sliceHigh =>
    rw [reading, hdec]
    · constructor
      · intro h
        obtain ⟨m, type, x, hop⟩ := h .start 0 none 0 bitLiteral (by rw [lowerExpr_bitLiteral]; rfl)
        rw [ops_slice lowerExpr_bitLiteral (by simp)] at hop
        have heq := List.append_cancel_left hop
        simp only [List.cons.injEq, Op.value.injEq, ValueOp.extract.injEq] at heq
        exact heq.1.2.2.2
      · intro h b n hint loc sub hsub
        obtain ⟨v, hv⟩ := Option.isSome_iff_exists.1 hsub
        exact ⟨_, _, _, by rw [ops_slice hv (by simp), ← h]; rfl⟩
    all_goals simp
  | sliceLow =>
    rw [reading, hdec]
    · constructor
      · intro h
        have hop := @ops_slice .start 0 none 0 bitLiteral (litExpr f) (some (litExpr f)) _
          lowerExpr_bitLiteral (lt_irrefl _)
        exact h .start 0 none 0 bitLiteral (litExpr f) (by rw [lowerExpr_bitLiteral]; rfl) _ _ _ _ hop
      · intro h b n hint loc sub hi hsub m type x l hop
        obtain ⟨v, hv⟩ := Option.isSome_iff_exists.1 hsub
        by_cases hlt : resolveDecimalLiteral (some hi) < resolveDecimalLiteral (some (litExpr f))
        · rw [lowerExpr, Out.andThen, hv] at hop
          simp [hlt, Out.fail] at hop
        · rw [ops_slice hv hlt] at hop
          have heq := List.append_cancel_left hop
          simp only [List.cons.injEq, Op.value.injEq, ValueOp.extract.injEq] at heq
          exact heq.1.2.2.2.symm.trans h
    all_goals simp
  | repeatCount =>
    rw [reading, hdec]
    · have hread := resolveDecimalLiteral_litExpr hf hv
      constructor
      · intro h
        by_cases hzero : litValue f = 0
        · rw [hread, hzero]
          simp
        obtain ⟨m, type, x, hop⟩ := h .start 0 none bitLiteral ⟨0, 0, .bits 1⟩ 1 lowerExpr_bitLiteral rfl
          (Nat.pos_of_ne_zero hzero)
        by_cases hlt : repeatCount .start (litExpr f) < 1
        · rw [lowerExpr, if_pos hlt] at hop
          have hnil := congrArg List.length hop
          simp [Out.fail] at hnil
        · rw [ops_repeat lowerExpr_bitLiteral rfl hlt] at hop
          have heq := List.append_cancel_left hop
          simp only [List.cons.injEq, Op.value.injEq, ValueOp.repeat.injEq] at heq
          exact heq.1.2.2.2
      · intro h b n hint body y k hbody hy hpos
        have hcount : repeatCount b (litExpr f) = litValue f := h
        have hops := @ops_repeat b n hint _ _ _ _ hbody hy (by rw [hcount]; omega)
        rw [hcount] at hops
        exact ⟨_, _, _, hops⟩
    all_goals simp
  | paramInt =>
    rw [reading, hdec]
    · constructor
      · intro h
        have hop := h .start ⟨0, .int, ['n'], some (litExpr f)⟩ (by simp) rfl rfl
        simpa [visitParam] using hop
      · rintro h b p hname hkind hinit
        rw [← h, ← hinit]
        simp [visitParam, hname, hkind]
    all_goals simp
  | generateLower =>
    rw [reading, hdec]
    · constructor
      · intro h
        obtain ⟨upper, amount, name, ops, hop⟩ := h ⟨[], []⟩ false .start 0 [] bitLiteral bitLiteral .empty
        simp only [visitStmt, List.cons.injEq, Op.structuralGenerate.injEq] at hop
        exact hop.1.1
      · intro h ctx flat b loc var cond step body
        rw [← h]
        exact ⟨_, _, _, _, rfl⟩
    all_goals simp
  | generateUpper =>
    rw [reading, hdec]
    · constructor
      · intro h
        obtain ⟨lower, amount, name, ops, hop⟩ :=
          h ⟨[], []⟩ false .start 0 [] bitLiteral bitLiteral bitLiteral .less .empty
        simp only [visitStmt, List.cons.injEq, Op.structuralGenerate.injEq] at hop
        exact hop.1.2.1
      · intro h ctx flat b loc var init lhs step op body
        rw [← h]
        exact ⟨_, _, _, _, rfl⟩
    all_goals simp

/-- **Where a number literal keeps its value**: in `parseNumericLiteral`
and place by place. -/
theorem literal_value_iff (hf : f.Derived anyCase) (hm : marked f.run = false)
    (hv : litValue f < 2 ^ 63) :
    (Parsed f ↔ Parses f) ∧ ∀ place, Used (litExpr f) (litValue f) place ↔ ReadAt f place :=
  ⟨parsed_iff hf hm hv, fun place => (used_iff_reading hf hv place).trans (reading_iff hf hv place)⟩

/-- `8`. -/
def eight : NumberForm := .decimal ['8']

/-- It is parsed, and read as an initial value, a depth and a bound. -/
theorem literal_value_eight :
    Parsed eight ∧ Used (litExpr eight) 8 .regInit ∧ Used (litExpr eight) 8 .memDepth ∧
      Used (litExpr eight) 8 .generateUpper := by
  have hderived : eight.Derived false := ⟨'8', [], rfl, by decide, by simp⟩
  have h := literal_value_iff hderived (by decide) (by decide)
  refine ⟨h.1.2 trivial, (h.2 .regInit).2 ⟨rfl, .inl rfl⟩, (h.2 .memDepth).2 (.inr ?_),
    (h.2 .generateUpper).2 (.inl rfl)⟩
  exact ⟨rfl, by decide, by decide⟩

/-- `0b10`. -/
def cStyleTwo : NumberForm := .cStyle .bin 'b' ['1', '0']

/-- `0x10`. -/
def cStyleSixteen : NumberForm := .cStyle .hex 'x' ['1', '0']

/-- `0b10` is not parsed; `0x10` gives a register no initial value, a
port one bit and a parameter the value zero. -/
theorem literal_value_lost :
    cStyleTwo.Derived false ∧ cStyleSixteen.Derived false ∧ litValue cStyleSixteen = 16 ∧
      ¬ Parsed cStyleTwo ∧ regInit (some (litExpr cStyleSixteen)) = none ∧
      resolveWidth (some (litExpr cStyleSixteen)) = 1 ∧
      ¬ Used (litExpr cStyleSixteen) 16 .regInit ∧ ¬ Used (litExpr cStyleSixteen) 16 .portWidth ∧
      ¬ Used (litExpr cStyleSixteen) 16 .paramInt := by
  have htwo : parseNumericLiteral .binary cStyleTwo.text = none := by decide +kernel
  refine ⟨⟨⟨'b', rfl, .inl rfl⟩, ⟨'1', ['0'], rfl, by decide, ?_⟩⟩,
    ⟨⟨'x', rfl, .inl rfl⟩, ⟨'1', ['0'], rfl, by decide, ?_⟩⟩, by decide, ?_, rfl, rfl, ?_, ?_, ?_⟩
  · exact List.all_eq_true.1 (by decide)
  · exact List.all_eq_true.1 (by decide)
  · intro h
    exact absurd (htwo.symm.trans h) (by simp)
  · intro h
    obtain ⟨n, type, hop⟩ := h ⟨[], []⟩ .start 0 [] none
    simp [visitDecl, Visitor.define, regInit, litExpr, cStyleSixteen, Sema.Radix.lit,
      NumberForm.radix] at hop
  · intro h
    have hop := h ⟨[], []⟩ .start ⟨0, .input, [], some (litExpr cStyleSixteen), [], []⟩ rfl rfl
    exact absurd hop (by decide)
  · intro h
    have hop := h .start ⟨0, .int, ['n'], some (litExpr cStyleSixteen)⟩ (by simp) rfl rfl
    simp [visitParam, resolveDecimalLiteral, litExpr, cStyleSixteen, Sema.Radix.lit,
      NumberForm.radix] at hop

end ASTToMLIR

end Nslc
