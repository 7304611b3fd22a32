import Nslc.Lex.Numbers
import Nslc.Parse.Expr
import Nslc.Sema.Types
/-!
# Sema — widths of number literals

`literalType` gets a literal's whole spelling. Its digit loops run over
the radix prefix as well and give zero at a byte that is no digit, so a
sized literal loses its width unless it is binary, and `0b` counts the
prefix among the digits; values are kept in 64 bits. `NumberForm` is a
literal of the grammar taken apart, `NumberForm.width` the width it
states or needs, and `literalType_iff` says for each form when the pass
infers it.
-/

namespace Nslc

namespace Sema

open AST Nslc.Lex

/-! ## Literals taken apart -/

/-- The three forms of `number_literal`. -/
inductive NumberForm where
  | decimal (digits : Text)
  | cStyle (radix : Radix) (letter : Char) (run : Text)
  | sized (width : Text) (radix : Radix) (letter : Char) (run : Text)

def Radix.lit : Radix → Lit
  | .bin => .binary
  | .oct => .octal
  | .dec => .decimal
  | .hex => .hex

/-- The parser keeps the radix of the token. -/
theorem litOf_kind (r : Radix) : Parse.litOf r.kind = some (Radix.lit r) := by
  cases r <;> rfl

/-- The digits and markers of a run, without separators. -/
def runDigits (run : Text) : Text := run.filter (· ≠ '_')

/-- The number a run of digits stands for. -/
def runValue (base : ℕ) (run : Text) : ℕ :=
  (runDigits run).foldl (fun v c => v * base + (hexDigit? c).getD 0) 0

/-- The digits from the first that is not zero. -/
def significant (run : Text) : Text := (runDigits run).dropWhile (· = '0')

def marked (run : Text) : Bool := run.any fun c => (markerFlag c).isSome

/-- The fewest bits, one at least, that represent `v`. -/
def leastWidth (v : ℕ) : ℕ := max 1 v.size

namespace NumberForm

def text : NumberForm → Text
  | .decimal digits => digits
  | .cStyle _ letter run => '0' :: letter :: run
  | .sized width _ letter run => width ++ '\'' :: letter :: run

def radix : NumberForm → Radix
  | .decimal _ => .dec
  | .cStyle r _ _ => r
  | .sized _ r _ _ => r

def run : NumberForm → Text
  | .decimal digits => digits
  | .cStyle _ _ run => run
  | .sized _ _ _ run => run

/-- The parts are those of a literal. -/
def Derived (anyCase : Bool) : NumberForm → Prop
  | .decimal digits => ValueRun .dec digits
  | .cStyle r letter run => (∃ l, r.cLetter? = some l ∧ RadixLetter anyCase l letter) ∧ ValueRun r run
  | .sized width r letter run =>
    ValueRun .dec width ∧ RadixLetter anyCase r.letter letter ∧ ValueRun r run

/-- The width of the literal: the stated one; the number of binary
digits; the least one for a decimal value; whole digits for a
hexadecimal one, a marker being a digit that is not zero. -/
def width : NumberForm → ℕ
  | .decimal digits => leastWidth (runValue 10 digits)
  | .cStyle .bin _ run => (runDigits run).length
  | .cStyle _ _ run =>
    if marked run then 4 * max 1 (significant run).length
    else (leastWidth (runValue 16 run) + 3) / 4 * 4
  | .sized width _ _ _ => runValue 10 width

/-- **Where the pass infers it.** A decimal or hexadecimal value within
64 bits, with a marker a single digit; no `0b` literal; of the sized
ones the binary within 64 bits, and an octal, decimal or hexadecimal one
that states the very width the pass takes for zero. (A binary one whose
width is a multiple of `2 ^ 64` is given its number of digits.) -/
def Inferable : NumberForm → Prop
  | .decimal digits => runValue 10 digits < 2 ^ 64
  | .cStyle .bin _ _ => False
  | .cStyle _ _ run =>
    if marked run then (significant run).length ≤ 1 else runValue 16 run < 2 ^ 64
  | .sized width .bin _ run =>
    if runValue 10 width % 2 ^ 64 = 0 then runValue 10 width = (runDigits run).length
    else runValue 10 width < 2 ^ 64
  | .sized width .oct _ _ => runValue 10 width = 3
  | .sized width .dec _ _ => runValue 10 width = 1
  | .sized width .hex _ _ => runValue 10 width = 4

/-- The forms are the literals of the grammar. -/
theorem numberLiteral_iff {anyCase : Bool} {r : Radix} {run u : Text} :
    NumberLiteral anyCase r run u ↔
      ∃ f : NumberForm, f.Derived anyCase ∧ f.radix = r ∧ f.run = run ∧ f.text = u := by
  constructor
  · intro h
    cases h with
    | decimal hrun => exact ⟨.decimal _, hrun, rfl, rfl, rfl⟩
    | cStyle hl hc hrun => exact ⟨.cStyle _ _ _, ⟨⟨_, hl, hc⟩, hrun⟩, rfl, rfl, rfl⟩
    | verilog hwidth hc hrun => exact ⟨.sized _ _ _ _, ⟨hwidth, hc, hrun⟩, rfl, rfl, rfl⟩
  · rintro ⟨f, hf, rfl, rfl, rfl⟩
    cases f with
    | decimal digits => exact .decimal hf
    | cStyle r letter run =>
      obtain ⟨⟨l, hl, hc⟩, hrun⟩ := hf
      exact .cStyle hl hc hrun
    | sized width r letter run =>
      obtain ⟨hwidth, hc, hrun⟩ := hf
      exact .verilog hwidth hc hrun

end NumberForm

/-! ## The digit loops -/

section Digits

variable {base : ℕ} {digit? : Char → Option ℕ} {s : Text}

/-- A byte that is neither a digit nor a separator makes zero of the
whole. -/
theorem parseDigits_eq_zero (h : ∃ c ∈ s, c ≠ '_' ∧ digit? c = none) (v : ℕ) :
    parseDigits base digit? v s = 0 := by
  induction s generalizing v with
  | nil =>
    obtain ⟨c, hc, -⟩ := h
    cases hc
  | cons c cs ih =>
    rw [parseDigits]
    obtain ⟨d, hd, hsep, hnone⟩ := h
    by_cases hc : c = '_'
    · rw [if_pos hc]
      refine ih ⟨d, ?_, hsep, hnone⟩ v
      exact (List.mem_cons.1 hd).resolve_left fun hdc => hsep (hdc.trans hc)
    · rw [if_neg hc]
      cases hdig : digit? c with
      | none => rfl
      | some n =>
        refine ih ⟨d, ?_, hsep, hnone⟩ _
        refine (List.mem_cons.1 hd).resolve_left ?_
        rintro rfl
        rw [hnone] at hdig
        cases hdig

/-- Of digits and separators it makes the value, in 64 bits. -/
theorem parseDigits_eq_value
    (h : ∀ c ∈ s, c ≠ '_' → digit? c = some ((hexDigit? c).getD 0)) (v : ℕ) :
    parseDigits base digit? (v % 2 ^ 64) s =
      (runDigits s).foldl (fun v c => v * base + (hexDigit? c).getD 0) v % 2 ^ 64 := by
  induction s generalizing v with
  | nil => rfl
  | cons c cs ih =>
    have htail : ∀ d ∈ cs, d ≠ '_' → digit? d = some ((hexDigit? d).getD 0) :=
      fun d hd => h d (by simp [hd])
    rw [parseDigits]
    by_cases hc : c = '_'
    · have hdigits : runDigits (c :: cs) = runDigits cs := by simp [runDigits, hc]
      rw [if_pos hc, hdigits]
      exact ih htail v
    · have hdigits : runDigits (c :: cs) = c :: runDigits cs := by simp [runDigits, hc]
      rw [if_neg hc, h c (by simp) hc, hdigits, List.foldl_cons]
      have hmod : (v % 2 ^ 64 * base + (hexDigit? c).getD 0) % 2 ^ 64 =
          (v * base + (hexDigit? c).getD 0) % 2 ^ 64 := by
        rw [Nat.add_mod, Nat.mod_mul_mod, ← Nat.add_mod]
      show parseDigits base digit? ((v % 2 ^ 64 * base + (hexDigit? c).getD 0) % 2 ^ 64) cs = _
      rw [hmod]
      exact ih htail _

end Digits

theorem isDecDigit_iff (c : Char) : isDecDigit c = true ↔ '0' ≤ c ∧ c ≤ '9' := by
  simp [isDecDigit]

theorem decimalDigit?_of_isDecDigit {c : Char} (h : isDecDigit c = true) :
    decimalDigit? c = some ((hexDigit? c).getD 0) ∧ hexDigit? c = some ((hexDigit? c).getD 0) := by
  have hc := (isDecDigit_iff c).1 h
  simp [decimalDigit?, hexDigit?, hc]

/-- A byte of a decimal run is a digit or a separator. -/
theorem isDecDigit_of_isDecRun {c : Char} (h : isDecRun c = true) (hsep : c ≠ '_') :
    isDecDigit c = true := by
  simpa [isDecRun, hsep] using h

theorem parseDecimal_run {run : Text} (h : ValueRun .dec run) :
    parseDecimal run = runValue 10 run % 2 ^ 64 := by
  have hdigits : ∀ c ∈ run, c ≠ '_' → decimalDigit? c = some ((hexDigit? c).getD 0) := by
    intro c hc hsep
    exact (decimalDigit?_of_isDecDigit (isDecDigit_of_isDecRun (isDecRun_of_mem h c hc) hsep)).1
  exact parseDigits_eq_value hdigits 0

/-- No byte of a decimal run is an apostrophe. -/
theorem quote_not_mem {run : Text} (h : ValueRun .dec run) : '\'' ∉ run := by
  intro hmem
  exact absurd (isDecRun_of_mem h _ hmem) (by decide)

theorem parseDecimal_sized (width rest : Text) : parseDecimal (width ++ '\'' :: rest) = 0 :=
  parseDigits_eq_zero ⟨'\'', by simp, by decide, by decide⟩ 0

/-- A sized literal does not begin with `0x`. -/
theorem sized_ne_radixed {width rest cs : Text} {c : Char} (h : ValueRun .dec width)
    (hc : isDecRun c = false) (hquote : c ≠ '\'') : width ++ '\'' :: rest ≠ '0' :: c :: cs := by
  intro heq
  have hall := isDecRun_of_mem h
  cases width with
  | nil => exact absurd (List.cons.inj heq).1 (by decide)
  | cons d width =>
    obtain ⟨-, heq⟩ := List.cons.inj heq
    cases width with
    | nil => exact hquote (List.cons.inj heq).1.symm
    | cons e width =>
      obtain ⟨rfl, -⟩ := List.cons.inj heq
      rw [hall e (by simp)] at hc
      cases hc

theorem parseHex_sized {width : Text} (h : ValueRun .dec width) (rest : Text) :
    parseHex (width ++ '\'' :: rest) = 0 := by
  unfold parseHex
  split
  · next cs heq => exact absurd heq (sized_ne_radixed h (by decide) (by decide))
  · next cs heq => exact absurd heq (sized_ne_radixed h (by decide) (by decide))
  · exact parseDigits_eq_zero ⟨'\'', by simp, by decide, by decide⟩ 0

theorem parseOctal_sized {width : Text} (h : ValueRun .dec width) (rest : Text) :
    parseOctal (width ++ '\'' :: rest) = 0 := by
  unfold parseOctal
  split
  · next cs heq => exact absurd heq (sized_ne_radixed h (by decide) (by decide))
  · next cs heq => exact absurd heq (sized_ne_radixed h (by decide) (by decide))
  · exact parseDigits_eq_zero ⟨'\'', by simp, by decide, by decide⟩ 0

/-! ## Values -/

theorem minBits_eq (v : ℕ) : minBits v = leastWidth v := by
  unfold minBits leastWidth
  by_cases hv : v = 0
  · simp [hv]
  · have hle : v.size ≤ v.log2 + 1 := Nat.size_le.2 Nat.lt_log2_self
    have hlt : v.log2 < v.size := by
      rw [Nat.lt_size]
      exact Nat.log2_self_le hv
    rw [if_neg hv]
    omega

/-- **The least width**, at least one. -/
theorem leastWidth_le_iff {v n : ℕ} (hn : 0 < n) : leastWidth v ≤ n ↔ v < 2 ^ n := by
  rw [← Nat.size_le, leastWidth]
  omega

theorem leastWidth_pos (v : ℕ) : 0 < leastWidth v := by
  unfold leastWidth
  omega

/-- Kept in 64 bits a value has its width exactly if it fits them. -/
theorem leastWidth_mod_le (v : ℕ) : leastWidth (v % 2 ^ 64) ≤ 64 :=
  (leastWidth_le_iff (by omega)).2 (Nat.mod_lt _ (by omega))

theorem leastWidth_gt {v : ℕ} (h : ¬ v < 2 ^ 64) : 64 < leastWidth v := by
  by_contra hle
  exact h ((leastWidth_le_iff (by omega)).1 (by omega))

theorem leastWidth_mod_eq_iff (v : ℕ) : leastWidth (v % 2 ^ 64) = leastWidth v ↔ v < 2 ^ 64 := by
  constructor
  · intro h
    by_contra hge
    have hle := leastWidth_mod_le v
    have hgt := leastWidth_gt hge
    omega
  · intro h
    rw [Nat.mod_eq_of_lt h]

/-- The same of widths rounded up to whole hexadecimal digits. -/
theorem hexWidth_mod_eq_iff (v : ℕ) :
    (leastWidth (v % 2 ^ 64) + 3) / 4 * 4 = (leastWidth v + 3) / 4 * 4 ↔ v < 2 ^ 64 := by
  constructor
  · intro h
    by_contra hge
    have hle := leastWidth_mod_le v
    have hgt := leastWidth_gt hge
    omega
  · intro h
    rw [Nat.mod_eq_of_lt h]

theorem literalType_decimal (s : Text) :
    literalType 0 .decimal s = .bitVector (leastWidth (parseDecimal s)) := by
  simp [literalType, widen, minBits_eq]

theorem literalType_hex (s : Text) :
    literalType 0 .hex s = .bitVector ((leastWidth (parseHex s) + 3) / 4 * 4) := by
  simp [literalType, widen, minBits_eq]

theorem literalType_octal (s : Text) :
    literalType 0 .octal s = .bitVector ((leastWidth (parseOctal s) + 2) / 3 * 3) := by
  simp [literalType, widen, minBits_eq]

theorem leastWidth_zero : leastWidth 0 = 1 := rfl

theorem bitVector_eq_iff {m n : ℕ} : Ty.bitVector m = .bitVector n ↔ m = n := by simp

/-! ## The forms -/

variable {anyCase : Bool}

theorem literalType_decimalForm {digits : Text} (h : ValueRun .dec digits) :
    literalType 0 .decimal digits = .bitVector (leastWidth (runValue 10 digits)) ↔
      runValue 10 digits < 2 ^ 64 := by
  rw [literalType_decimal, parseDecimal_run h, bitVector_eq_iff]
  exact leastWidth_mod_eq_iff _

theorem hexDigit?_of_isHexDigit {c : Char} (h : isHexDigit c = true) :
    hexDigit? c = some ((hexDigit? c).getD 0) := by
  simp only [isHexDigit, Bool.or_eq_true, Bool.and_eq_true, decide_eq_true_eq] at h
  rcases h with (hd | ha) | hA
  · exact (decimalDigit?_of_isDecDigit hd).2
  · have hd : ¬ ('0' ≤ c ∧ c ≤ '9') := by
      rintro ⟨-, hle⟩
      exact absurd (ha.1.trans hle) (by decide)
    simp [hexDigit?, hd, ha]
  · have hd : ¬ ('0' ≤ c ∧ c ≤ '9') := by
      rintro ⟨-, hle⟩
      exact absurd (hA.1.trans hle) (by decide)
    have ha : ¬ ('a' ≤ c ∧ c ≤ 'f') := by
      rintro ⟨hle, -⟩
      exact absurd (hle.trans hA.2) (by decide)
    simp [hexDigit?, hd, ha, hA]

/-- What a hexadecimal run holds. -/
theorem hexDigit?_of_inRun {c : Char} (h : Radix.hex.inRun c = true) (hsep : c ≠ '_') :
    (hexDigit? c = some ((hexDigit? c).getD 0) ∧ (markerFlag c).isSome = false) ∨
      (hexDigit? c = none ∧ (markerFlag c).isSome = true) := by
  cases hm : (markerFlag c).isSome with
  | true =>
    refine .inr ⟨?_, rfl⟩
    obtain ⟨set, hset⟩ := Option.isSome_iff_exists.1 hm
    unfold markerFlag at hset
    split_ifs at hset with hz hx hu
    · rcases hz with rfl | rfl <;> decide
    · rcases hx with rfl | rfl <;> decide
    · rcases hu with rfl | rfl <;> decide
  | false =>
    refine .inl ⟨hexDigit?_of_isHexDigit ?_, rfl⟩
    simpa [Radix.inRun, Radix.valueDigit, Radix.digit, hm, hsep] using h

theorem parseHex_prefixed {c : Char} (hc : c = 'x' ∨ c = 'X') {run : Text}
    (h : ValueRun .hex run) :
    parseHex ('0' :: c :: run) = if marked run then 0 else runValue 16 run % 2 ^ 64 := by
  have hparse : parseHex ('0' :: c :: run) = parseDigits 16 hexDigit? 0 run := by
    rcases hc with rfl | rfl <;> rfl
  rw [hparse]
  by_cases hm : marked run = true
  · rw [if_pos hm]
    obtain ⟨d, hd, hflag⟩ := List.any_eq_true.1 hm
    have hsep : d ≠ '_' := by
      rintro rfl
      exact absurd hflag (by decide)
    refine parseDigits_eq_zero ⟨d, hd, hsep, ?_⟩ 0
    rcases hexDigit?_of_inRun (inRun_of_mem h d hd) hsep with ⟨-, hnone⟩ | ⟨hnone, -⟩
    · rw [hflag] at hnone
      cases hnone
    · exact hnone
  · rw [if_neg hm]
    refine parseDigits_eq_value ?_ 0
    intro d hd hsep
    rcases hexDigit?_of_inRun (inRun_of_mem h d hd) hsep with ⟨hsome, -⟩ | ⟨-, hflag⟩
    · exact hsome
    · exact absurd (List.any_eq_true.2 ⟨d, hd, hflag⟩) hm

theorem literalType_hexForm {c : Char} (hc : c = 'x' ∨ c = 'X') {run : Text}
    (h : ValueRun .hex run) :
    literalType 0 .hex ('0' :: c :: run) =
        .bitVector (if marked run then 4 * max 1 (significant run).length
          else (leastWidth (runValue 16 run) + 3) / 4 * 4) ↔
      if marked run then (significant run).length ≤ 1 else runValue 16 run < 2 ^ 64 := by
  rw [literalType_hex, parseHex_prefixed hc h, bitVector_eq_iff]
  split_ifs
  · rw [leastWidth_zero]
    omega
  · exact hexWidth_mod_eq_iff _

theorem runDigits_length (run : Text) : (runDigits run).length = run.countP (· ≠ '_') := by
  rw [runDigits, List.countP_eq_length_filter]

theorem runDigits_pos {r : Radix} {run : Text} (h : ValueRun r run) :
    0 < (runDigits run).length := by
  obtain ⟨c, cs, rfl, hc, -⟩ := h
  have hsep : c ≠ '_' := by
    rintro rfl
    cases r <;> exact absurd hc (by decide)
  simp [runDigits, hsep]

/-- Without an apostrophe every byte counts, `0b` too. -/
theorem literalType_binaryForm {c : Char} (hc : c = 'b' ∨ c = 'B') {run : Text}
    (h : ValueRun .bin run) :
    literalType 0 .binary ('0' :: c :: run) = .bitVector ((runDigits run).length + 2) := by
  have hquote : '\'' ∉ '0' :: c :: run := by
    intro hmem
    rcases List.mem_cons.1 hmem with hmem | hmem
    · exact absurd hmem (by decide)
    rcases List.mem_cons.1 hmem with hmem | hmem
    · rcases hc with rfl | rfl <;> exact absurd hmem (by decide)
    · exact absurd (inRun_of_mem h _ hmem) (by decide)
  have hdrop : ('0' :: c :: run).dropWhile (· ≠ '\'') = [] := by
    rw [List.dropWhile_eq_nil_iff]
    intro d hd
    simp only [ne_eq, decide_eq_true_eq]
    rintro rfl
    exact hquote hd
  have hcount : ('0' :: c :: run).countP (· ≠ '_') = (runDigits run).length + 2 := by
    rw [runDigits_length]
    rcases hc with rfl | rfl <;> simp
  rw [literalType, bitVector_eq_iff, binaryWidth, hdrop]
  simp only [hcount]
  rw [if_neg (by omega)]

theorem literalType_sizedBinary {c : Char} (hc : c = 'b' ∨ c = 'B') {width run : Text}
    (hwidth : ValueRun .dec width) (h : ValueRun .bin run) :
    literalType 0 .binary (width ++ '\'' :: c :: run) =
      .bitVector (if runValue 10 width % 2 ^ 64 = 0 then (runDigits run).length
        else runValue 10 width % 2 ^ 64) := by
  have hplain : ∀ d ∈ width, decide (d ≠ '\'') = true := by
    intro d hd
    rw [decide_eq_true_iff]
    rintro rfl
    exact quote_not_mem hwidth hd
  have hdrop : (width ++ '\'' :: c :: run).dropWhile (fun d => decide (d ≠ '\'')) =
      '\'' :: c :: run := by
    rw [List.dropWhile_append_of_pos hplain]
    simp
  have htake : (width ++ '\'' :: c :: run).takeWhile (fun d => decide (d ≠ '\'')) = width := by
    rw [List.takeWhile_append_of_pos hplain]
    simp
  have hpos := runDigits_pos h
  rw [literalType, bitVector_eq_iff, binaryWidth, hdrop]
  simp only [htake, parseDecimal_run hwidth]
  by_cases hzero : runValue 10 width % 2 ^ 64 = 0
  · rw [if_pos hzero, if_neg (not_not.2 hzero)]
    rcases hc with rfl | rfl
    · show (if run.countP _ = 0 then 1 else run.countP _) = _
      rw [← runDigits_length, if_neg (by omega)]
    · show (if run.countP _ = 0 then 1 else run.countP _) = _
      rw [← runDigits_length, if_neg (by omega)]
  · rw [if_neg hzero, if_pos hzero]

/-- A letter the grammar has, or its capital. -/
theorem radixLetter_cases {l c : Char} (h : RadixLetter anyCase l c) : c = l ∨ c = l.toUpper := by
  rcases h with h | ⟨-, h⟩
  · exact .inl h
  · exact .inr h

theorem literalType_sizedForm {c : Char} {r : Radix} {width run : Text}
    (hwidth : ValueRun .dec width) (hc : RadixLetter anyCase r.letter c) (h : ValueRun r run) :
    literalType 0 (Radix.lit r) (width ++ '\'' :: c :: run) = .bitVector (runValue 10 width) ↔
      (NumberForm.sized width r c run).Inferable := by
  cases r with
  | bin =>
    show literalType 0 .binary _ = _ ↔ if _ then _ else _
    rw [literalType_sizedBinary (radixLetter_cases hc) hwidth h, bitVector_eq_iff]
    split_ifs <;> omega
  | oct =>
    show literalType 0 .octal _ = _ ↔ runValue 10 width = 3
    rw [literalType_octal, parseOctal_sized hwidth, bitVector_eq_iff, leastWidth_zero]
    omega
  | dec =>
    show literalType 0 .decimal _ = _ ↔ runValue 10 width = 1
    rw [literalType_decimal, parseDecimal_sized, bitVector_eq_iff, leastWidth_zero]
    omega
  | hex =>
    show literalType 0 .hex _ = _ ↔ runValue 10 width = 4
    rw [literalType_hex, parseHex_sized hwidth, bitVector_eq_iff, leastWidth_zero]
    omega

/-- **Where the inferred width follows the literal.** For every literal
of the grammar, outside of any context, the pass infers the literal's
width exactly if the form is inferable. -/
theorem literalType_iff (f : NumberForm) (hf : f.Derived anyCase) :
    literalType 0 (Radix.lit f.radix) f.text = .bitVector f.width ↔ f.Inferable := by
  cases f with
  | decimal digits => exact literalType_decimalForm hf
  | cStyle r c run =>
    obtain ⟨⟨l, hl, hc⟩, hrun⟩ := hf
    cases r with
    | bin =>
      obtain rfl := Option.some.inj hl
      show literalType 0 .binary ('0' :: c :: run) = .bitVector (runDigits run).length ↔ False
      rw [literalType_binaryForm (radixLetter_cases hc) hrun, bitVector_eq_iff, iff_false]
      omega
    | hex =>
      obtain rfl := Option.some.inj hl
      exact literalType_hexForm (radixLetter_cases hc) hrun
    | oct => cases hl
    | dec => cases hl
  | sized width r c run =>
    obtain ⟨hwidth, hc, hrun⟩ := hf
    exact literalType_sizedForm hwidth hc hrun

/-- `5'b1_0101`. -/
def fiveBits : NumberForm := .sized ['5'] .bin 'b' "1_0101".toList

theorem derived_fiveBits : fiveBits.Derived false := by
  refine ⟨⟨'5', [], rfl, by decide, by simp⟩, .inl rfl, ⟨'1', "_0101".toList, rfl, by decide, ?_⟩⟩
  exact List.all_eq_true.1 (by decide)

theorem literalType_iff_fiveBits :
    literalType 0 (Radix.lit fiveBits.radix) fiveBits.text = .bitVector fiveBits.width :=
  (literalType_iff fiveBits derived_fiveBits).2 (by
    show if runValue 10 ['5'] % 2 ^ 64 = 0 then
      runValue 10 ['5'] = (runDigits "1_0101".toList).length else runValue 10 ['5'] < 2 ^ 64
    decide)

/-- `16'hFFFF`. -/
def sixteenBits : NumberForm := .sized ['1', '6'] .hex 'h' "FFFF".toList

/-- It states sixteen bits and is given four. -/
theorem not_inferred_sixteenBits :
    sixteenBits.Derived false ∧ sixteenBits.width = 16 ∧
      literalType 0 (Radix.lit sixteenBits.radix) sixteenBits.text = .bitVector 4 ∧
      literalType 0 (Radix.lit sixteenBits.radix) sixteenBits.text ≠
        .bitVector sixteenBits.width := by
  refine ⟨?_, by decide, by decide, by decide⟩
  refine ⟨⟨'1', ['6'], rfl, by decide, ?_⟩, .inl rfl, ⟨'F', "FFF".toList, rfl, by decide, ?_⟩⟩
  · exact List.all_eq_true.1 (by decide)
  · exact List.all_eq_true.1 (by decide)

end Sema

end Nslc
