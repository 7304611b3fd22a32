import Nslc.Lex.Lexer
/-!
# The lexer — number literals

`NumberLiteral` is the grammar's `number_literal`, with the digits of a
run restricted to its radix and the markers `Z`, `X` and `U` kept out of
decimal runs. The grammar writes its radix letters small; the scanner
also takes the capitals, and `anyCase` says which of the two is meant.

Behind a radix letter the scanner takes whatever digits, markers and
separators follow, also none. `scansLiteral_iff` says where that is the
longest literal: exactly where a digit or a marker of the radix follows
the letter.
-/

namespace Nslc

namespace Lex

/-! ## The grammar -/

inductive Radix where
  | bin
  | oct
  | dec
  | hex
  deriving DecidableEq, Repr

namespace Radix

/-- `radix_char`. -/
def letter : Radix → Char
  | .bin => 'b'
  | .oct => 'o'
  | .dec => 'd'
  | .hex => 'h'

/-- `c_radix_char`. -/
def cLetter? : Radix → Option Char
  | .bin => some 'b'
  | .hex => some 'x'
  | _ => none

def kind : Radix → TokenKind
  | .bin => .binaryLit
  | .oct => .octalLit
  | .dec => .decimalLit
  | .hex => .hexLit

def digit (r : Radix) (c : Char) : Bool :=
  match r with
  | .bin => c == '0' || c == '1'
  | .oct => '0' ≤ c && c ≤ '7'
  | .dec => isDecDigit c
  | .hex => isHexDigit c

/-- `value_digit`: a digit, or a marker where the radix has them. -/
def valueDigit (r : Radix) (c : Char) : Bool :=
  r.digit c || (r != .dec && (markerFlag c).isSome)

/-- What a value run goes on with. -/
def inRun (r : Radix) (c : Char) : Bool := r.valueDigit c || c == '_'

end Radix

/-- `value_run`; of decimal digits, `decimal_integer`. -/
def ValueRun (r : Radix) (run : Text) : Prop :=
  ∃ c cs, run = c :: cs ∧ r.valueDigit c = true ∧ ∀ d ∈ cs, r.inRun d = true

/-- The letter `l` of the grammar, or with `anyCase` its capital. -/
def RadixLetter (anyCase : Bool) (l c : Char) : Prop := c = l ∨ anyCase = true ∧ c = l.toUpper

/-- `number_literal`: its radix, its value run, its text. -/
inductive NumberLiteral (anyCase : Bool) : Radix → Text → Text → Prop
  | decimal {t : Text} : ValueRun .dec t → NumberLiteral anyCase .dec t t
  | cStyle {r : Radix} {l c : Char} {run : Text} : r.cLetter? = some l → RadixLetter anyCase l c →
      ValueRun r run → NumberLiteral anyCase r run ('0' :: c :: run)
  | verilog {r : Radix} {c : Char} {width run : Text} : ValueRun .dec width →
      RadixLetter anyCase r.letter c → ValueRun r run →
      NumberLiteral anyCase r run (width ++ '\'' :: c :: run)

/-- The markers of a run. -/
def markersOf (run : Text) : NumFlags where
  hasZ := run.any fun c => c == 'Z' || c == 'z'
  hasX := run.any fun c => c == 'X' || c == 'x'
  hasU := run.any fun c => c == 'U' || c == 'u'

/-- What was scanned is the longest literal that `t` begins with, of its
radix and with its markers. -/
structure ScansLiteral (anyCase : Bool) (t : Text) (s : Scan) : Prop where
  derives : ∃ r run, NumberLiteral anyCase r run (t.take s.length) ∧ s.kind = r.kind ∧
    s.flags = markersOf run
  longest : ∀ u, u <+: t → (∃ r run, NumberLiteral anyCase r run u) → u.length ≤ s.length

/-! ## The radix prefix -/

/-- The radix a letter stands for behind an apostrophe, in either case. -/
def verilogRadix? (c : Char) : Option Radix :=
  if c = 'b' ∨ c = 'B' then some .bin
  else if c = 'o' ∨ c = 'O' then some .oct
  else if c = 'd' ∨ c = 'D' then some .dec
  else if c = 'h' ∨ c = 'H' then some .hex
  else none

def cRadix? (c : Char) : Option Radix :=
  if c = 'x' ∨ c = 'X' then some .hex else if c = 'b' ∨ c = 'B' then some .bin else none

/-- The bytes `pre` end with the letter `c` of the radix `r`. -/
inductive RadixPrefix : Text → Char → Radix → Prop
  | cStyle {c : Char} {r : Radix} : cRadix? c = some r → RadixPrefix ['0', c] c r
  | verilog {width : Text} {c : Char} {r : Radix} : (∀ d ∈ width, isDecRun d = true) →
      verilogRadix? c = some r → RadixPrefix (width ++ ['\'', c]) c r

/-- A radix prefix is followed by a digit or a marker of its radix, and
its letter is one of the grammar's. -/
def RunFollows (anyCase : Bool) (t : Text) : Prop :=
  ∀ pre c r rest, RadixPrefix pre c r → t = pre ++ rest →
    (anyCase = true ∨ c.isLower = true) ∧ (rest.head?.map r.valueDigit).getD false = true

/-! ## Value runs -/

theorem Radix.inRun_dec (c : Char) : Radix.dec.inRun c = isDecRun c := by
  simp [Radix.inRun, Radix.valueDigit, Radix.digit, isDecRun]

theorem inRun_of_mem {r : Radix} {run : Text} (h : ValueRun r run) : ∀ c ∈ run, r.inRun c = true := by
  obtain ⟨c, cs, rfl, hc, hcs⟩ := h
  intro d hd
  rcases List.mem_cons.1 hd with rfl | hd
  · simp [Radix.inRun, hc]
  · exact hcs d hd

theorem isDecRun_of_mem {run : Text} (h : ValueRun .dec run) : ∀ c ∈ run, isDecRun c = true := by
  intro c hc
  rw [← Radix.inRun_dec]
  exact inRun_of_mem h c hc

/-- The bytes the scanner takes behind a radix letter. -/
def takenRun (r : Radix) (rest : Text) : Text := rest.takeWhile r.inRun

theorem valueRun_takenRun {r : Radix} {rest : Text}
    (h : (rest.head?.map r.valueDigit).getD false = true) : ValueRun r (takenRun r rest) := by
  cases rest with
  | nil => simp at h
  | cons c cs =>
    have hc : r.valueDigit c = true := by simpa using h
    have hin : r.inRun c = true := by simp [Radix.inRun, hc]
    refine ⟨c, cs.takeWhile r.inRun, by simp [takenRun, hin], hc, ?_⟩
    intro d hd
    exact List.mem_takeWhile_imp hd

/-- A run at the start of `rest` is among the bytes taken. -/
theorem length_le_takenRun {r : Radix} {run more : Text} (h : ValueRun r run) :
    run.length ≤ (takenRun r (run ++ more)).length := by
  rw [takenRun, List.takeWhile_append_of_pos (inRun_of_mem h), List.length_append]
  exact Nat.le_add_right _ _

def NumFlags.or (f g : NumFlags) : NumFlags := ⟨f.hasZ || g.hasZ, f.hasX || g.hasX, f.hasU || g.hasU⟩

theorem markersOf_cons (c : Char) (cs : Text) :
    markersOf (c :: cs) = (markersOf [c]).or (markersOf cs) := by
  simp [markersOf, NumFlags.or]

theorem NumFlags.or_assoc (f g h : NumFlags) : (f.or g).or h = f.or (g.or h) := by
  simp [NumFlags.or, Bool.or_assoc]

theorem NumFlags.or_plain (f : NumFlags) : f.or .plain = f := by simp [NumFlags.or, NumFlags.plain]

theorem NumFlags.plain_or (f : NumFlags) : NumFlags.plain.or f = f := by
  simp [NumFlags.or, NumFlags.plain]

/-- A marker sets its flag; what is no marker has none. -/
theorem markerFlag_cases (c : Char) :
    (∃ set, markerFlag c = some set ∧ ∀ f, set f = f.or (markersOf [c])) ∨
      (markerFlag c = none ∧ markersOf [c] = .plain) := by
  unfold markerFlag
  by_cases hz : c = 'Z' ∨ c = 'z'
  · refine .inl ⟨_, if_pos hz, ?_⟩
    rintro ⟨z, x, u⟩
    rcases hz with rfl | rfl <;> simp [NumFlags.or, markersOf]
  rw [if_neg hz]
  by_cases hx : c = 'X' ∨ c = 'x'
  · refine .inl ⟨_, if_pos hx, ?_⟩
    rintro ⟨z, x, u⟩
    rcases hx with rfl | rfl <;> simp [NumFlags.or, markersOf]
  rw [if_neg hx]
  by_cases hu : c = 'U' ∨ c = 'u'
  · refine .inl ⟨_, if_pos hu, ?_⟩
    rintro ⟨z, x, u⟩
    rcases hu with rfl | rfl <;> simp [NumFlags.or, markersOf]
  rw [if_neg hu]
  refine .inr ⟨rfl, ?_⟩
  rw [not_or] at hz hx hu
  simp [markersOf, NumFlags.plain, hz, hx, hu]

/-- The base `consumeValueRun` is called with. -/
def Radix.base : Radix → ℕ
  | .bin => 2
  | .oct => 8
  | .dec => 10
  | .hex => 16

theorem baseDigit_base {r : Radix} (h : r ≠ .dec) (c : Char) : baseDigit r.base c = r.digit c := by
  cases r with
  | dec => exact absurd rfl h
  | _ => simp [baseDigit, Radix.base, Radix.digit]

theorem markersOf_separator : markersOf ['_'] = .plain := by decide

/-- **The loop takes the run**, and notes its markers. -/
theorem consumeValueRun_eq {r : Radix} (h : r ≠ .dec) (t : Text) : ∀ flags,
    consumeValueRun r.base t flags =
      ((takenRun r t).length, flags.or (markersOf (takenRun r t))) := by
  induction t with
  | nil =>
    intro flags
    exact Prod.ext rfl (NumFlags.or_plain flags).symm
  | cons c cs ih =>
    intro flags
    have htaken : r.inRun c = true → takenRun r (c :: cs) = c :: takenRun r cs := by
      intro hin
      simp [takenRun, hin]
    by_cases hsep : c = '_'
    · subst hsep
      rw [htaken (by simp [Radix.inRun]), markersOf_cons, markersOf_separator, NumFlags.plain_or]
      simp [consumeValueRun, ih, Nat.add_comm]
    · rw [consumeValueRun, if_neg hsep]
      rcases markerFlag_cases c with ⟨set, hset, hor⟩ | ⟨hnone, hplain⟩
      · rw [htaken (by simp [Radix.inRun, Radix.valueDigit, hset, h]), markersOf_cons,
          ← NumFlags.or_assoc, ← hor]
        simp [hset, ih, Nat.add_comm]
      · simp only [hnone, baseDigit_base h]
        by_cases hdig : r.digit c = true
        · rw [if_pos hdig, htaken (by simp [Radix.inRun, Radix.valueDigit, hdig]), markersOf_cons,
            hplain, NumFlags.plain_or]
          simp [ih, Nat.add_comm]
        · have hout : takenRun r (c :: cs) = [] := by
            simp [takenRun, Radix.inRun, Radix.valueDigit, hdig, hnone, hsep]
          rw [if_neg hdig, hout]
          exact Prod.ext rfl (NumFlags.or_plain flags).symm

theorem markersOf_dec {run : Text} (h : ∀ c ∈ run, isDecRun c = true) : markersOf run = .plain := by
  induction run with
  | nil => rfl
  | cons c cs ih =>
    rw [markersOf_cons, ih fun d hd => h d (by simp [hd]), NumFlags.or_plain]
    rcases markerFlag_cases c with ⟨set, hset, -⟩ | ⟨-, hplain⟩
    · exfalso
      have hc := h c (by simp)
      unfold markerFlag at hset
      split_ifs at hset with hz hx hu
      · rcases hz with rfl | rfl <;> exact absurd hc (by decide)
      · rcases hx with rfl | rfl <;> exact absurd hc (by decide)
      · rcases hu with rfl | rfl <;> exact absurd hc (by decide)
    · exact hplain

/-! ## What is scanned -/

theorem takeWhile_width {width : Text} (h : ∀ d ∈ width, isDecRun d = true) (rest : Text) :
    (width ++ '\'' :: rest).takeWhile isDecRun = width ∧
      (width ++ '\'' :: rest).dropWhile isDecRun = '\'' :: rest := by
  have hstop : isDecRun '\'' = false := by decide
  rw [List.takeWhile_append_of_pos h, List.dropWhile_append_of_pos h]
  simp [hstop]

theorem isDecRun_of_cRadix {c : Char} {r : Radix} (h : cRadix? c = some r) :
    isDecRun c = false ∧ c ≠ '\'' := by
  unfold cRadix? at h
  split_ifs at h with hx hb
  · rcases hx with rfl | rfl <;> decide
  · rcases hb with rfl | rfl <;> decide

/-- A text has one radix prefix at most. -/
theorem RadixPrefix.unique {pre pre' rest rest' : Text} {c c' : Char} {r r' : Radix}
    (h : RadixPrefix pre c r) (h' : RadixPrefix pre' c' r') (heq : pre ++ rest = pre' ++ rest') :
    pre = pre' ∧ c = c' ∧ r = r' ∧ rest = rest' := by
  -- `0x` is no width and an apostrophe
  have hmixed : ∀ {c c' : Char} {r : Radix} {width rest rest' : Text}, cRadix? c = some r →
      (∀ d ∈ width, isDecRun d = true) →
      '0' :: c :: rest = width ++ '\'' :: c' :: rest' → False := by
    intro c c' r width rest rest' hc hwidth heq
    obtain ⟨hrun, hquote⟩ := isDecRun_of_cRadix hc
    cases width with
    | nil =>
      obtain ⟨hzero, -⟩ := List.cons.inj heq
      exact absurd hzero (by decide)
    | cons d width =>
      obtain ⟨-, heq⟩ := List.cons.inj heq
      cases width with
      | nil => exact hquote (List.cons.inj heq).1
      | cons e width =>
        obtain ⟨rfl, -⟩ := List.cons.inj heq
        rw [hwidth c (by simp)] at hrun
        cases hrun
  cases h with
  | cStyle hc =>
    cases h' with
    | cStyle hc' =>
      obtain ⟨-, htail⟩ := List.cons.inj heq
      obtain ⟨rfl, hrest⟩ := List.cons.inj htail
      obtain rfl := Option.some.inj (hc.symm.trans hc')
      exact ⟨rfl, rfl, rfl, hrest⟩
    | verilog hwidth' hc' =>
      rw [List.append_assoc] at heq
      exact absurd heq fun heq => hmixed hc hwidth' heq
  | verilog hwidth hc =>
    cases h' with
    | cStyle hc' =>
      rw [List.append_assoc] at heq
      exact absurd heq.symm fun heq => hmixed hc' hwidth heq
    | @verilog width' _ _ hwidth' hc' =>
      rw [List.append_assoc, List.append_assoc] at heq
      have htake := (takeWhile_width hwidth (c :: rest)).1
      have hdrop := (takeWhile_width hwidth (c :: rest)).2
      rw [show width' ++ (['\'', c'] ++ rest') = width' ++ '\'' :: c' :: rest' from rfl] at heq
      rw [show _ ++ '\'' :: c :: rest = _ from heq, (takeWhile_width hwidth' _).1] at htake
      rw [show _ ++ '\'' :: c :: rest = _ from heq, (takeWhile_width hwidth' _).2] at hdrop
      obtain ⟨-, hdrop⟩ := List.cons.inj hdrop
      obtain ⟨rfl, hrest⟩ := List.cons.inj hdrop
      rw [hc] at hc'
      exact ⟨by rw [htake], rfl, Option.some.inj hc', hrest.symm⟩

theorem radixFromChar_eq (c : Char) :
    radixFromChar c = (verilogRadix? c).map fun r => (r.kind, r.base) := by
  unfold radixFromChar verilogRadix?
  split_ifs <;> rfl

theorem scanVerilog_eq (width : ℕ) (r : Radix) (digits : Text) :
    scanVerilog width r.kind r.base digits =
      ⟨r.kind, width + 2 + (takenRun r digits).length, markersOf (takenRun r digits)⟩ := by
  by_cases hdec : r = .dec
  · subst hdec
    have htaken : takenRun .dec digits = digits.takeWhile isDecRun := by
      rw [takenRun, funext Radix.inRun_dec]
    have hbase : Radix.dec.base = 10 := rfl
    rw [scanVerilog, if_pos hbase, htaken, markersOf_dec fun c hc => List.mem_takeWhile_imp hc]
  · have hbase : r.base ≠ 10 := by
      cases r with
      | dec => exact absurd rfl hdec
      | _ => decide
    rw [scanVerilog, if_neg hbase, consumeValueRun_eq hdec, NumFlags.plain_or]

theorem scanCStyle_eq {r : Radix} (h : r ≠ .dec) (digits : Text) :
    scanCStyle r.kind r.base digits =
      ⟨r.kind, 2 + (takenRun r digits).length, markersOf (takenRun r digits)⟩ := by
  rw [scanCStyle, consumeValueRun_eq h, NumFlags.plain_or]

/-- Off the C prefixes, the scanner reads a decimal first. -/
theorem scanNumber_eq_decimal {t : Text} (h : ∀ c rest, t = '0' :: c :: rest → cRadix? c = none) :
    scanNumber t = scanDecimal t := by
  unfold scanNumber
  split
  · rename_i c rest
    have hc := h c rest rfl
    unfold cRadix? at hc
    split_ifs at hc with hx hb
    rw [if_neg hx, if_neg hb]
  · rfl

theorem scanNumber_of_prefixed {t pre rest : Text} {c : Char} {r : Radix} (h : RadixPrefix pre c r)
    (ht : t = pre ++ rest) :
    scanNumber t =
      ⟨r.kind, pre.length + (takenRun r rest).length, markersOf (takenRun r rest)⟩ := by
  subst ht
  cases h with
  | cStyle hc =>
    unfold cRadix? at hc
    split_ifs at hc with hx hb
    · obtain rfl := Option.some.inj hc
      show (if c = 'x' ∨ c = 'X' then scanCStyle .hexLit 16 rest else _) = _
      rw [if_pos hx]
      exact scanCStyle_eq (r := .hex) (by decide) rest
    · obtain rfl := Option.some.inj hc
      show (if c = 'x' ∨ c = 'X' then _ else
        if c = 'b' ∨ c = 'B' then scanCStyle .binaryLit 2 rest else _) = _
      rw [if_neg hx, if_pos hb]
      exact scanCStyle_eq (r := .bin) (by decide) rest
  | @verilog width _ _ hwidth hc =>
    rw [List.append_assoc]
    have hdecimal : scanNumber (width ++ (['\'', c] ++ rest)) =
        scanDecimal (width ++ (['\'', c] ++ rest)) := by
      refine scanNumber_eq_decimal ?_
      intro d more heq
      by_contra hsome
      obtain ⟨r', hr'⟩ := Option.ne_none_iff_exists'.1 hsome
      have hassoc : (width ++ ['\'', c]) ++ rest = ['0', d] ++ more := by
        rw [List.append_assoc]
        exact heq
      obtain ⟨hpre, rfl, -⟩ := (RadixPrefix.verilog hwidth hc).unique (.cStyle hr') hassoc
      obtain ⟨-, hquote⟩ := isDecRun_of_cRadix hr'
      have hlast := congrArg List.dropLast hpre
      have hw : width ++ ['\''] = ['0'] := by simpa using hlast
      cases width with
      | nil => exact absurd hw (by decide)
      | cons w width => simp at hw
    obtain ⟨htake, hdrop⟩ := takeWhile_width hwidth (c :: rest)
    rw [hdecimal, show width ++ (['\'', c] ++ rest) = width ++ '\'' :: c :: rest from rfl,
      scanDecimal, htake, hdrop]
    simp only [radixFromChar_eq, hc, Option.map_some, scanVerilog_eq, List.length_append,
      List.length_cons, List.length_nil]

theorem scanNumber_of_bare {t : Text}
    (h : ∀ pre c r rest, RadixPrefix pre c r → t ≠ pre ++ rest) :
    scanNumber t = ⟨.decimalLit, (takenRun .dec t).length, .plain⟩ := by
  have htaken : takenRun .dec t = t.takeWhile isDecRun := by
    rw [takenRun, funext Radix.inRun_dec]
  have hdecimal : scanNumber t = scanDecimal t := by
    refine scanNumber_eq_decimal ?_
    intro c rest ht
    by_contra hsome
    obtain ⟨r, hr⟩ := Option.ne_none_iff_exists'.1 hsome
    exact h _ c r rest (.cStyle hr) ht
  rw [hdecimal, scanDecimal, htaken]
  split
  · rename_i c digits hdrop
    have hnone : verilogRadix? c = none := by
      by_contra hsome
      obtain ⟨r, hr⟩ := Option.ne_none_iff_exists'.1 hsome
      refine h (t.takeWhile isDecRun ++ ['\'', c]) c r digits
        (.verilog (fun d hd => List.mem_takeWhile_imp hd) hr) ?_
      rw [List.append_assoc]
      exact (List.takeWhile_append_dropWhile (p := isDecRun) (l := t)).symm.trans (by rw [hdrop]; rfl)
    simp [radixFromChar_eq, hnone]
  · rfl

/-! ## The longest literal -/

section Longest

variable {anyCase : Bool} {t u pre rest run : Text} {c : Char} {r : Radix}

/-- A literal is a run of decimal digits, or has a radix prefix with a
letter of the grammar and its run behind it. -/
theorem NumberLiteral.cases (h : NumberLiteral anyCase r run u) :
    (∀ d ∈ u, isDecRun d = true) ∨
      ∃ pre c, RadixPrefix pre c r ∧ u = pre ++ run ∧ (anyCase = true ∨ c.isLower = true) ∧
        ValueRun r run := by
  have hletter : ∀ l c : Char, l.isLower = true → RadixLetter anyCase l c →
      anyCase = true ∨ c.isLower = true := by
    rintro l c hl (rfl | ⟨hany, -⟩)
    · exact .inr hl
    · exact .inl hany
  cases h with
  | decimal hrun => exact .inl (isDecRun_of_mem hrun)
  | @cStyle _ l c _ hl hc hrun =>
    refine .inr ⟨['0', c], c, .cStyle ?_, rfl, ?_, hrun⟩
    · cases r with
      | bin =>
        obtain rfl := Option.some.inj hl
        rcases hc with rfl | ⟨-, rfl⟩ <;> rfl
      | hex =>
        obtain rfl := Option.some.inj hl
        rcases hc with rfl | ⟨-, rfl⟩ <;> rfl
      | oct => cases hl
      | dec => cases hl
    · refine hletter l c ?_ hc
      cases r with
      | bin => exact Option.some.inj hl ▸ rfl
      | hex => exact Option.some.inj hl ▸ rfl
      | oct => cases hl
      | dec => cases hl
  | @verilog _ c width _ hwidth hc hrun =>
    refine .inr ⟨width ++ ['\'', c], c, .verilog (isDecRun_of_mem hwidth) ?_, ?_, ?_, hrun⟩
    · rcases hc with rfl | ⟨-, rfl⟩ <;> cases r <;> rfl
    · rw [List.append_assoc]
      rfl
    · refine hletter r.letter c ?_ hc
      cases r <;> rfl

/-- A radix prefix holds a byte that is not of a decimal run. -/
theorem RadixPrefix.exists_not_decRun (h : RadixPrefix pre c r) :
    ∃ d ∈ pre, isDecRun d = false := by
  cases h with
  | cStyle hc => exact ⟨c, by simp, (isDecRun_of_cRadix hc).1⟩
  | verilog _ _ => exact ⟨'\'', by simp, by decide⟩

/-- The prefix with a run behind it is a literal. -/
theorem RadixPrefix.literal (h : RadixPrefix pre c r)
    (hdigit : ((pre ++ rest).head?.map isDecDigit).getD false = true)
    (hcase : anyCase = true ∨ c.isLower = true) (hrun : ValueRun r run) :
    NumberLiteral anyCase r run (pre ++ run) := by
  cases h with
  | cStyle hc =>
    unfold cRadix? at hc
    split_ifs at hc with hx hb
    · obtain rfl := Option.some.inj hc
      refine .cStyle rfl ?_ hrun
      rcases hx with rfl | rfl
      · exact .inl rfl
      · exact .inr ⟨hcase.resolve_right (by decide), rfl⟩
    · obtain rfl := Option.some.inj hc
      refine .cStyle rfl ?_ hrun
      rcases hb with rfl | rfl
      · exact .inl rfl
      · exact .inr ⟨hcase.resolve_right (by decide), rfl⟩
  | @verilog width _ _ hwidth hc =>
    have hletter : RadixLetter anyCase r.letter c := by
      unfold verilogRadix? at hc
      split_ifs at hc with h h h h
      all_goals
        obtain rfl := Option.some.inj hc
        rcases h with rfl | rfl
        · exact .inl rfl
        · exact .inr ⟨hcase.resolve_right (by decide), rfl⟩
    have hdec : ValueRun .dec width := by
      cases width with
      | nil =>
        have hquote : isDecDigit '\'' = true := by simpa using hdigit
        exact absurd hquote (by decide)
      | cons d width =>
        refine ⟨d, width, rfl, ?_, ?_⟩
        · simpa [Radix.valueDigit, Radix.digit] using hdigit
        · intro e he
          rw [Radix.inRun_dec]
          exact hwidth e (by simp [he])
    rw [List.append_assoc]
    exact .verilog hdec hletter hrun

/-- A run of decimal digits at the start of `t` is no longer than the one
taken. -/
theorem length_le_of_decRun (hu : u <+: t) (h : ∀ d ∈ u, isDecRun d = true) :
    u.length ≤ (takenRun .dec t).length := by
  obtain ⟨more, rfl⟩ := hu
  have hin : ∀ d ∈ u, Radix.dec.inRun d = true := by
    intro d hd
    rw [Radix.inRun_dec]
    exact h d hd
  rw [takenRun, List.takeWhile_append_of_pos hin, List.length_append]
  exact Nat.le_add_right _ _

/-- A run of decimal digits ends before the prefix does. -/
theorem RadixPrefix.length_decRun_lt (h : RadixPrefix pre c r) (hu : u <+: pre ++ rest)
    (hdec : ∀ d ∈ u, isDecRun d = true) : u.length < pre.length := by
  by_contra hlen
  have hpre : pre <+: u := by
    refine List.prefix_of_prefix_length_le (List.prefix_append pre rest) hu ?_
    omega
  obtain ⟨d, hd, hnot⟩ := h.exists_not_decRun
  rw [hdec d (hpre.subset hd)] at hnot
  cases hnot

theorem take_taken (r : Radix) (rest : Text) :
    rest.take (takenRun r rest).length = takenRun r rest :=
  (List.prefix_iff_eq_take.1 (List.takeWhile_prefix r.inRun)).symm

theorem take_prefix_taken (r : Radix) (pre rest : Text) :
    (pre ++ rest).take (pre.length + (takenRun r rest).length) = pre ++ takenRun r rest := by
  rw [List.take_append, List.take_of_length_le (by omega), Nat.add_sub_cancel_left, take_taken]

theorem scansLiteral_of_prefix (hpre : RadixPrefix pre c r)
    (hdigit : ((pre ++ rest).head?.map isDecDigit).getD false = true)
    (hcase : anyCase = true ∨ c.isLower = true)
    (hnext : (rest.head?.map r.valueDigit).getD false = true) :
    ScansLiteral anyCase (pre ++ rest) (scanNumber (pre ++ rest)) := by
  rw [scanNumber_of_prefixed hpre rfl]
  refine ⟨⟨r, takenRun r rest, ?_, rfl, rfl⟩, ?_⟩
  · rw [take_prefix_taken]
    exact hpre.literal hdigit hcase (valueRun_takenRun hnext)
  · rintro u hu ⟨r', run, hlit⟩
    rcases hlit.cases with hdec | ⟨pre', c', hpre', rfl, -, hrun⟩
    · have hlt := hpre.length_decRun_lt hu hdec
      show u.length ≤ pre.length + _
      omega
    · obtain ⟨more, hmore⟩ := hu
      rw [List.append_assoc] at hmore
      obtain ⟨rfl, -, rfl, rfl⟩ := hpre'.unique hpre hmore
      have hle : run.length ≤ (takenRun r' (run ++ more)).length := length_le_takenRun hrun
      rw [List.length_append]
      show pre'.length + run.length ≤ pre'.length + _
      omega

theorem runFollows_of_scansLiteral (hpre : RadixPrefix pre c r)
    (h : ScansLiteral anyCase (pre ++ rest) (scanNumber (pre ++ rest))) :
    (anyCase = true ∨ c.isLower = true) ∧ (rest.head?.map r.valueDigit).getD false = true := by
  obtain ⟨r', run, hlit, -, -⟩ := h.derives
  rw [scanNumber_of_prefixed hpre rfl, take_prefix_taken] at hlit
  rcases hlit.cases with hdec | ⟨pre', c', hpre', heq, hcase, hrun⟩
  · obtain ⟨d, hd, hnot⟩ := hpre.exists_not_decRun
    rw [hdec d (by simp [hd])] at hnot
    cases hnot
  · obtain ⟨rfl, rfl, rfl, rfl⟩ := hpre.unique hpre' heq
    refine ⟨hcase, ?_⟩
    obtain ⟨d, ds, hds, hd, -⟩ := hrun
    obtain ⟨more, hmore⟩ : takenRun r rest <+: rest := List.takeWhile_prefix _
    rw [← hmore, hds]
    simpa using hd

/-- Without a radix prefix the scanner takes the decimal digits. -/
theorem scansLiteral_of_no_prefix (hdigit : (t.head?.map isDecDigit).getD false = true)
    (h : ∀ pre c r rest, RadixPrefix pre c r → t ≠ pre ++ rest) :
    ScansLiteral anyCase t (scanNumber t) := by
  rw [scanNumber_of_bare h]
  have hvalue : (t.head?.map Radix.dec.valueDigit).getD false = true := by
    cases t with
    | nil => simp at hdigit
    | cons d ds => simpa [Radix.valueDigit, Radix.digit] using hdigit
  refine ⟨⟨.dec, takenRun .dec t, ?_, rfl, ?_⟩, ?_⟩
  · rw [take_taken]
    exact .decimal (valueRun_takenRun hvalue)
  · exact (markersOf_dec (isDecRun_of_mem (valueRun_takenRun hvalue))).symm
  · rintro u hu ⟨r', run, hlit⟩
    rcases hlit.cases with hdec | ⟨pre', c', hpre', rfl, -, -⟩
    · exact length_le_of_decRun hu hdec
    · obtain ⟨more, hmore⟩ := hu
      rw [List.append_assoc] at hmore
      exact absurd hmore.symm (h pre' c' r' _ hpre')

/-- **Where the scanner follows the grammar.** At every position that
holds a digit it takes the longest literal, of its radix and with its
markers, exactly if a radix prefix there has a letter of the grammar and
a digit or marker of its radix behind it. -/
theorem scansLiteral_iff (anyCase : Bool) (buf : Text) (cur : ℕ)
    (hdigit : ((buf.drop cur).head?.map isDecDigit).getD false = true) :
    ScansLiteral anyCase (buf.drop cur) (scanNumber (buf.drop cur)) ↔
      RunFollows anyCase (buf.drop cur) := by
  generalize buf.drop cur = t at hdigit
  constructor
  · intro h pre c r rest hpre ht
    subst ht
    exact runFollows_of_scansLiteral hpre h
  · intro h
    by_cases hpre : ∃ pre c r rest, RadixPrefix pre c r ∧ t = pre ++ rest
    · obtain ⟨pre, c, r, rest, hpre, rfl⟩ := hpre
      obtain ⟨hcase, hnext⟩ := h pre c r rest hpre rfl
      exact scansLiteral_of_prefix hpre hdigit hcase hnext
    · refine scansLiteral_of_no_prefix hdigit ?_
      intro pre c r rest hp heq
      exact hpre ⟨pre, c, r, rest, hp, heq⟩

theorem scansLiteral_iff_sized :
    ScansLiteral false ("8'hZ_1;".toList.drop 0) (scanNumber ("8'hZ_1;".toList.drop 0)) := by
  refine (scansLiteral_iff false "8'hZ_1;".toList 0 (by decide)).2 ?_
  intro pre c r rest hpre heq
  have hwidth : ∀ d ∈ ['8'], isDecRun d = true := by
    intro d hd
    rw [List.mem_singleton.1 hd]
    decide
  have hsized : RadixPrefix (['8'] ++ ['\'', 'h']) 'h' .hex := .verilog hwidth (by decide)
  have hsplit : (['8'] ++ ['\'', 'h']) ++ "Z_1;".toList = pre ++ rest := by
    rw [← heq]
    decide
  obtain ⟨-, rfl, rfl, rfl⟩ := hsized.unique hpre hsplit
  decide

/-- `0x` alone is a literal for the scanner, and for the grammar in
neither reading. -/
theorem not_scansLiteral_emptyRun :
    ¬ ScansLiteral false "0x;".toList (scanNumber "0x;".toList) ∧
      ¬ ScansLiteral true "0x;".toList (scanNumber "0x;".toList) := by
  have hprefix : RadixPrefix "0x".toList 'x' .hex := .cStyle (by decide)
  have hboth : ∀ anyCase, ¬ ScansLiteral anyCase "0x;".toList (scanNumber "0x;".toList) := by
    intro anyCase h
    have hsplit : ScansLiteral anyCase ("0x".toList ++ [';']) (scanNumber ("0x".toList ++ [';'])) :=
      h
    obtain ⟨-, hnext⟩ := runFollows_of_scansLiteral hprefix hsplit
    exact absurd hnext (by decide)
  exact ⟨hboth false, hboth true⟩

end Longest

end Lex

end Nslc
