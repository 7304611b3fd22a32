import Nslc.Preprocess.Evaluator
/-!
# Preprocessor — integer expressions

The integer expressions of the compile-time grammar as trees, with the
blanks between their tokens, and three readings of a tree: its text, its
mathematical value, and the value the evaluator computes for it.
-/

namespace Nslc

namespace Preprocess

namespace Evaluator

/-! ## Trees -/

/-- Blanks in front of a token. -/
abbrev Blanks := { t : Text // t.all isBlank = true }

def Radix.base : Radix → ℤ
  | .dec => 10
  | .hex => 16
  | .bin => 2

def Radix.lead : Radix → Text
  | .dec => []
  | .hex => "0x".toList
  | .bin => "0b".toList

def Radix.isDigit (r : Radix) (c : Char) : Bool := (r.digitValue c).isSome

/-- An integer literal: a digit, then digits and separators. -/
structure Literal where
  radix : Radix
  head : Char
  tail : Text
  head_digit : radix.isDigit head = true
  tail_digits : (tail.all fun c => radix.isDigit c || c == '_') = true

namespace Literal

def run (k : Literal) : Text := k.head :: k.tail

def text (k : Literal) : Text := k.radix.lead ++ k.run

/-- The digits, without separators. -/
def digits (k : Literal) : Text := k.run.filter (· ≠ '_')

/-- The number the literal writes. -/
def exact (k : Literal) : ℤ :=
  k.digits.foldl (fun v c => v * k.radix.base + (k.radix.digitValue c).getD 0) 0

/-- What the evaluator accumulates. -/
def code (k : Literal) : Except Halt ℤ :=
  k.digits.foldlM (fun v c => k.radix.push v ((k.radix.digitValue c).getD 0)) 0

end Literal

/-- How loosely an operator binds. -/
def BinOp.rung : BinOp → ℕ
  | .mul | .div | .mod => 1
  | .add | .sub => 2
  | .le | .ge | .lt | .gt => 3
  | .eq | .ne => 4
  | .land => 5
  | .lor => 6

def BinOp.text : BinOp → Text
  | .lor => "||".toList
  | .land => "&&".toList
  | .eq => "==".toList
  | .ne => "!=".toList
  | .le => "<=".toList
  | .ge => ">=".toList
  | .lt => "<".toList
  | .gt => ">".toList
  | .add => "+".toList
  | .sub => "-".toList
  | .mul => "*".toList
  | .div => "/".toList
  | .mod => "%".toList

def UnOp.char : UnOp → Char
  | .plus => '+'
  | .neg => '-'
  | .not => '!'
  | .compl => '~'

/-- An expression with the blanks in front of its tokens. -/
inductive Expr where
  | number (ws : Blanks) (k : Literal)
  | unary (ws : Blanks) (op : UnOp) (e : Expr)
  | binary (l : Expr) (ws : Blanks) (op : BinOp) (r : Expr)
  | paren (ws : Blanks) (e : Expr) (ws' : Blanks)

namespace Expr

def text : Expr → Text
  | .number ws k => ws.1 ++ k.text
  | .unary ws op e => ws.1 ++ UnOp.char op :: e.text
  | .binary l ws op r => l.text ++ ws.1 ++ BinOp.text op ++ r.text
  | .paren ws e ws' => ws.1 ++ '(' :: e.text ++ ws'.1 ++ [')']

def rung : Expr → ℕ
  | .binary _ _ op _ => BinOp.rung op
  | _ => 0

/-- Derived by the grammar: each level is left-associative over the
next, and a unary operator stands over a unary expression. -/
def Derived : Expr → Prop
  | .number _ _ => True
  | .unary _ _ e => e.rung = 0 ∧ e.Derived
  | .binary l _ op r =>
    l.rung ≤ BinOp.rung op ∧ r.rung < BinOp.rung op ∧ l.Derived ∧ r.Derived
  | .paren _ e _ => e.Derived

instance decidableDerived : ∀ e : Expr, Decidable e.Derived
  | .number _ _ => .isTrue trivial
  | .unary _ _ e =>
    have := decidableDerived e
    inferInstanceAs (Decidable (_ ∧ _))
  | .binary l _ _ r =>
    have := decidableDerived l
    have := decidableDerived r
    inferInstanceAs (Decidable (_ ∧ _ ∧ _ ∧ _))
  | .paren _ e _ => decidableDerived e

/-- Nodes of the tree. -/
def size : Expr → ℕ
  | .number _ _ => 1
  | .unary _ _ e => e.size + 1
  | .binary l _ _ r => l.size + r.size + 1
  | .paren _ e _ => e.size + 1

/-- The subexpressions, the expression itself included. -/
@[grind =] def parts : Expr → List Expr
  | .number ws k => [.number ws k]
  | .unary ws op e => .unary ws op e :: e.parts
  | .binary l ws op r => .binary l ws op r :: (l.parts ++ r.parts)
  | .paren ws e ws' => .paren ws e ws' :: e.parts

end Expr

/-! ## The mathematical value -/

/-- An operator over unbounded integers; a quotient by zero is zero. -/
def BinOp.exact (op : BinOp) (a b : ℤ) : ℤ :=
  match op with
  | .lor => ofBool (a != 0 || b != 0)
  | .land => ofBool (a != 0 && b != 0)
  | .eq => ofBool (a == b)
  | .ne => ofBool (a != b)
  | .le => ofBool (a ≤ b)
  | .ge => ofBool (b ≤ a)
  | .lt => ofBool (a < b)
  | .gt => ofBool (b < a)
  | .add => a + b
  | .sub => a - b
  | .mul => a * b
  | .div => if b = 0 then 0 else a.tdiv b
  | .mod => if b = 0 then 0 else a.tmod b

def UnOp.exact (op : UnOp) (a : ℤ) : ℤ :=
  match op with
  | .plus => a
  | .neg => -a
  | .not => ofBool (a == 0)
  | .compl => -a - 1

/-- A division or modulo by zero. -/
def BinOp.byZero (op : BinOp) (b : ℤ) : Bool := op.zeroMessage.isSome && b == 0

namespace Expr

@[grind =] def exact : Expr → ℤ
  | .number _ k => k.exact
  | .unary _ op e => UnOp.exact op e.exact
  | .binary l _ op r => BinOp.exact op l.exact r.exact
  | .paren _ e _ => e.exact

/-- Whether a division or modulo by zero occurs. -/
@[grind =] def dividesByZero : Expr → Bool
  | .number _ _ => false
  | .unary _ _ e => e.dividesByZero
  | .binary l _ op r => l.dividesByZero || r.dividesByZero || BinOp.byZero op r.exact
  | .paren _ e _ => e.dividesByZero

/-- Every intermediate value is one of `int64_t`. -/
def Fits (e : Expr) : Prop := ∀ h ∈ e.parts, FitsInt64 h.exact

instance (e : Expr) : Decidable e.Fits := inferInstanceAs (Decidable (∀ h ∈ e.parts, _))

/-- The expression divides the least integer by minus one, for the
remainder. -/
@[grind =] def IsLeastMod : Expr → Prop
  | .binary l _ op r => op = .mod ∧ l.exact = int64Min ∧ r.exact = -1
  | _ => False

instance : ∀ e : Expr, Decidable e.IsLeastMod
  | .binary _ _ _ _ => inferInstanceAs (Decidable (_ ∧ _ ∧ _))
  | .number _ _ | .unary _ _ _ | .paren _ _ _ => .isFalse id

/-- `INT64_MIN % -1` occurs. -/
def LeastMod (e : Expr) : Prop := ∃ h ∈ e.parts, h.IsLeastMod

instance (e : Expr) : Decidable e.LeastMod := inferInstanceAs (Decidable (∃ h ∈ e.parts, _))

end Expr

/-! ## The value the evaluator computes -/

/-- An operator as a level of the ladder applies it to integers. -/
def BinOp.code (op : BinOp) (a b : ℤ) : Except Halt ℤ :=
  if BinOp.byZero op b then .ok 0 else op.onInts a b

namespace Expr

@[grind =] def code : Expr → Except Halt ℤ
  | .number _ k => k.code
  | .unary _ op e => e.code.bind op.onInt
  | .binary l _ op r => l.code.bind fun a => r.code.bind fun b => BinOp.code op a b
  | .paren _ e _ => e.code

/-- Whether the evaluator divides by zero. -/
@[grind =] def codeByZero : Expr → Bool
  | .number _ _ => false
  | .unary _ _ e => e.codeByZero
  | .binary l _ op r =>
    l.codeByZero || r.codeByZero || (r.code.toOption.map (BinOp.byZero op)).getD false
  | .paren _ e _ => e.codeByZero

end Expr

/-! ## Exact or undefined -/

section Exact

theorem fitsInt64_ofBool (b : Bool) : FitsInt64 (ofBool b) := by
  cases b <;> decide

theorem checked_of_fits {z : ℤ} (h : FitsInt64 z) : checked z = .ok z := if_pos h

theorem checked_of_not {z : ℤ} (h : ¬ FitsInt64 z) : checked z = .error .undefinedBehaviour :=
  if_neg h

theorem tmod_fits {a b : ℤ} (ha : FitsInt64 a) : FitsInt64 (a.tmod b) := by
  have habs : (a.tmod b).natAbs ≤ a.natAbs := by
    rw [Int.natAbs_tmod]
    exact Nat.mod_le _ _
  unfold FitsInt64 int64Min int64Max at *
  rcases lt_or_ge a 0 with hneg | hpos
  · have hle : a.tmod b ≤ 0 := by
      have := Int.tmod_nonneg b (show 0 ≤ -a by omega)
      rw [Int.neg_tmod] at this
      omega
    omega
  · have hge : 0 ≤ a.tmod b := Int.tmod_nonneg b hpos
    omega

theorem compl_fits {a : ℤ} (ha : FitsInt64 a) : FitsInt64 (-a - 1) := by
  unfold FitsInt64 int64Min int64Max at *
  omega

/-- **An operator is exact or undefined.** On values of `int64_t` it
gives the mathematical value where that fits, `INT64_MIN % -1` apart,
and is undefined otherwise. -/
theorem BinOp.code_eq (op : BinOp) {a b : ℤ} (ha : FitsInt64 a) :
    BinOp.code op a b =
      if FitsInt64 (BinOp.exact op a b) ∧ ¬ (op = .mod ∧ a = int64Min ∧ b = -1) then
        .ok (BinOp.exact op a b)
      else .error .undefinedBehaviour := by
  have hbool : ∀ c : Bool, FitsInt64 (ofBool c) := fitsInt64_ofBool
  cases op with
  | add | sub | mul => simp [BinOp.code, BinOp.byZero, BinOp.zeroMessage, BinOp.onInts, BinOp.exact, checked]
  | div =>
    by_cases hz : b = 0
    · simp [BinOp.code, BinOp.byZero, BinOp.zeroMessage, BinOp.exact, hz, show FitsInt64 0 by decide]
    · simp [BinOp.code, BinOp.byZero, BinOp.zeroMessage, BinOp.onInts, BinOp.exact, hz, checked]
  | mod =>
    by_cases hz : b = 0
    · simp [BinOp.code, BinOp.byZero, BinOp.zeroMessage, BinOp.exact, hz, show FitsInt64 0 by decide]
    · have hfits : FitsInt64 (a.tmod b) := tmod_fits ha
      by_cases hmin : a = int64Min ∧ b = -1
      · simp [BinOp.code, BinOp.byZero, BinOp.zeroMessage, BinOp.onInts, hmin]
      · simp [BinOp.code, BinOp.byZero, BinOp.zeroMessage, BinOp.onInts, BinOp.exact, hz, hmin, hfits]
  | _ => simp [BinOp.code, BinOp.byZero, BinOp.zeroMessage, BinOp.onInts, BinOp.exact, hbool]

theorem UnOp.onInt_eq (op : UnOp) {a : ℤ} (ha : FitsInt64 a) :
    op.onInt a =
      if FitsInt64 (UnOp.exact op a) then .ok (UnOp.exact op a) else .error .undefinedBehaviour := by
  cases op with
  | plus => simp [UnOp.onInt, UnOp.exact, ha]
  | neg => rfl
  | not => simp [UnOp.onInt, UnOp.exact, fitsInt64_ofBool]
  | compl => simp [UnOp.onInt, UnOp.exact, compl_fits ha]

end Exact

/-! ## Literals -/

section Literals

variable {r : Radix} {c : Char} {d : ℤ}

theorem digit_bounds (h : isDigit c = true) :
    0 ≤ ((c.toNat - '0'.toNat : ℕ) : ℤ) ∧ ((c.toNat - '0'.toNat : ℕ) : ℤ) < 10 := by
  rw [isDigit, Bool.and_eq_true, decide_eq_true_eq, decide_eq_true_eq] at h
  have hle : c.toNat ≤ '9'.toNat := h.2
  have h9 : '9'.toNat = 57 := rfl
  have h0 : '0'.toNat = 48 := rfl
  omega

theorem digitValue_bounds (h : r.digitValue c = some d) : 0 ≤ d ∧ d < r.base := by
  have h0 : '0'.toNat = 48 := rfl
  have h1 : '1'.toNat = 49 := rfl
  cases r with
  | dec =>
    simp only [Radix.digitValue, Option.ite_none_right_eq_some, Option.some.injEq] at h
    obtain ⟨hd, rfl⟩ := h
    exact digit_bounds hd
  | hex =>
    have hf : 'f'.toNat = 102 := rfl
    have hF : 'F'.toNat = 70 := rfl
    have ha : 'a'.toNat = 97 := rfl
    have hA : 'A'.toNat = 65 := rfl
    simp only [Radix.digitValue, hexDigitValue] at h
    simp only [Radix.base]
    split_ifs at h with hd hlow hup
    · obtain rfl := Option.some.inj h
      have := digit_bounds hd
      omega
    · obtain rfl := Option.some.inj h
      have hle : c.toNat ≤ 'f'.toNat := hlow.2
      omega
    · obtain rfl := Option.some.inj h
      have hle : c.toNat ≤ 'F'.toNat := hup.2
      omega
  | bin =>
    simp only [Radix.digitValue, Option.ite_none_right_eq_some, Option.some.injEq] at h
    obtain ⟨hd, rfl⟩ := h
    rw [isBinDigit, Bool.or_eq_true, beq_iff_eq, beq_iff_eq] at hd
    simp only [Radix.base]
    rcases hd with rfl | rfl <;> omega

/-- The number read on from `v`. -/
def Radix.exactFrom (r : Radix) (v : ℤ) (ds : Text) : ℤ :=
  ds.foldl (fun v c => v * r.base + (r.digitValue c).getD 0) v

theorem le_exactFrom {ds : Text} (hds : ∀ c ∈ ds, r.isDigit c = true) {v : ℤ} (hv : 0 ≤ v) :
    v ≤ r.exactFrom v ds := by
  induction ds generalizing v with
  | nil => exact le_rfl
  | cons c cs ih =>
    obtain ⟨d, hd⟩ := Option.isSome_iff_exists.1 (hds c (by simp))
    have hb := digitValue_bounds hd
    have hstep : v ≤ v * r.base + (r.digitValue c).getD 0 := by
      rw [hd, Option.getD_some]
      cases r <;> simp only [Radix.base] <;> omega
    exact hstep.trans (ih (fun c hc => hds c (by simp [hc])) (by omega))

/-- Decimal digits accumulate exactly, or leave `int64_t`. -/
theorem foldlM_dec {ds : Text} (hds : ∀ c ∈ ds, Radix.dec.isDigit c = true) {v : ℤ} (hv : 0 ≤ v)
    (hfit : FitsInt64 v) :
    ds.foldlM (fun v c => Radix.dec.push v ((Radix.dec.digitValue c).getD 0)) v =
      checked (Radix.dec.exactFrom v ds) := by
  induction ds generalizing v with
  | nil => exact (checked_of_fits hfit).symm
  | cons c cs ih =>
    obtain ⟨d, hd⟩ := Option.isSome_iff_exists.1 (hds c (by simp))
    have hb := digitValue_bounds hd
    have hcs : ∀ c ∈ cs, Radix.dec.isDigit c = true := fun c hc => hds c (by simp [hc])
    have hexact : Radix.dec.exactFrom v (c :: cs) = Radix.dec.exactFrom (v * 10 + d) cs := by
      simp [Radix.exactFrom, hd, Radix.base]
    have hle := le_exactFrom hcs (v := v * 10 + d) (by omega)
    rw [hexact, List.foldlM_cons, hd, Option.getD_some, Radix.push]
    by_cases h10 : FitsInt64 (v * 10)
    · rw [checked_of_fits h10]
      by_cases hnext : FitsInt64 (v * 10 + d)
      · show (checked (v * 10 + d)).bind _ = _
        rw [checked_of_fits hnext]
        exact ih hcs (by omega) hnext
      · show (checked (v * 10 + d)).bind _ = _
        rw [checked_of_not hnext, checked_of_not]
        · rfl
        · unfold FitsInt64 int64Min int64Max at *
          omega
    · rw [checked_of_not h10, checked_of_not]
      · rfl
      · unfold FitsInt64 int64Min int64Max at *
        omega

/-- The free bits of a shifted value take the digit. -/
theorem shiftLeft_wrap64 {n : ℕ} (hn : n = 1 ∨ n = 4) {v : ℤ} (hv : 0 ≤ v) (hv' : v < 2 ^ 64)
    (hd : 0 ≤ d) (hd' : d < 2 ^ n) :
    ((shiftLeft (wrap64 v) n).bind fun w => .ok (w + d)) =
      if v * 2 ^ n + d < 2 ^ 64 then .ok (wrap64 (v * 2 ^ n + d))
      else .error .undefinedBehaviour := by
  unfold shiftLeft
  by_cases h : v * 2 ^ n + d < 2 ^ 64
  · have hw : wrap64 v = v := by
      unfold wrap64
      rcases hn with rfl | rfl <;> omega
    have hsum : wrap64 (v * 2 ^ n) + d = wrap64 (v * 2 ^ n + d) := by
      unfold wrap64
      rcases hn with rfl | rfl <;> omega
    have hshift : 0 ≤ v ∧ v * 2 ^ n < 2 ^ 64 := by
      rcases hn with rfl | rfl <;> omega
    rw [if_pos h, hw, if_pos hshift, ← hsum]
    rfl
  · have hno : ¬ (0 ≤ wrap64 v ∧ wrap64 v * 2 ^ n < 2 ^ 64) := by
      unfold wrap64
      rcases hn with rfl | rfl <;> omega
    rw [if_neg h, if_neg hno]
    rfl

theorem push_wrap64 {r : Radix} (hr : r ≠ .dec) {v d : ℤ} (hv : 0 ≤ v) (hv' : v < 2 ^ 64)
    (hd : 0 ≤ d) (hd' : d < r.base) :
    r.push (wrap64 v) d =
      if v * r.base + d < 2 ^ 64 then .ok (wrap64 (v * r.base + d))
      else .error .undefinedBehaviour := by
  cases r with
  | dec => exact absurd rfl hr
  | hex => exact shiftLeft_wrap64 (.inr rfl) hv hv' hd hd'
  | bin => exact shiftLeft_wrap64 (.inl rfl) hv hv' hd hd'

/-- Hex and binary digits accumulate modulo `2 ^ 64`, or the shift is
undefined. -/
theorem foldlM_shift (hr : r ≠ .dec) {ds : Text} (hds : ∀ c ∈ ds, r.isDigit c = true) {v : ℤ}
    (hv : 0 ≤ v) (hv' : v < 2 ^ 64) :
    ds.foldlM (fun v c => r.push v ((r.digitValue c).getD 0)) (wrap64 v) =
      if r.exactFrom v ds < 2 ^ 64 then .ok (wrap64 (r.exactFrom v ds))
      else .error .undefinedBehaviour := by
  induction ds generalizing v with
  | nil => exact (if_pos hv').symm
  | cons c cs ih =>
    obtain ⟨d, hd⟩ := Option.isSome_iff_exists.1 (hds c (by simp))
    have hb := digitValue_bounds hd
    have hcs : ∀ c ∈ cs, r.isDigit c = true := fun c hc => hds c (by simp [hc])
    have hexact : r.exactFrom v (c :: cs) = r.exactFrom (v * r.base + d) cs := by
      simp [Radix.exactFrom, hd]
    have hpos : 0 ≤ v * r.base + d := by
      cases r <;> simp only [Radix.base] <;> omega
    have hle := le_exactFrom hcs hpos
    rw [hexact, List.foldlM_cons, hd, Option.getD_some, push_wrap64 hr hv hv' hb.1 hb.2]
    by_cases hlt : v * r.base + d < 2 ^ 64
    · rw [if_pos hlt]
      exact ih hcs hpos hlt
    · rw [if_neg hlt, if_neg (by omega)]
      rfl

namespace Literal

variable (k : Literal)

theorem tail_digit {c : Char} (hc : c ∈ k.tail) : k.radix.isDigit c = true ∨ c = '_' := by
  have h := List.all_eq_true.1 k.tail_digits c hc
  rwa [Bool.or_eq_true, beq_iff_eq] at h

theorem digits_isDigit : ∀ c ∈ k.digits, k.radix.isDigit c = true := by
  intro c hc
  obtain ⟨hmem, hne⟩ := List.mem_filter.1 hc
  rcases List.mem_cons.1 hmem with rfl | htail
  · exact k.head_digit
  · exact (k.tail_digit htail).resolve_right (by simpa using hne)

theorem exact_nonneg : 0 ≤ k.exact := le_exactFrom k.digits_isDigit le_rfl

theorem code_eq :
    k.code = if k.radix = .dec then checked k.exact
      else if k.exact < 2 ^ 64 then .ok (wrap64 k.exact) else .error .undefinedBehaviour := by
  by_cases hr : k.radix = .dec
  · have hds := k.digits_isDigit
    rw [if_pos hr, code, exact]
    rw [hr] at hds ⊢
    exact foldlM_dec hds le_rfl (by decide)
  · rw [if_neg hr, code]
    exact foldlM_shift hr k.digits_isDigit le_rfl (by decide)

/-- **A literal that fits is read exactly.** -/
theorem code_of_fits (h : FitsInt64 k.exact) : k.code = .ok k.exact := by
  have hnn := k.exact_nonneg
  rw [code_eq]
  split_ifs with hr hlt
  · exact checked_of_fits h
  · have : wrap64 k.exact = k.exact := by
      unfold FitsInt64 int64Min int64Max at h
      unfold wrap64
      omega
    rw [this]
  · unfold FitsInt64 int64Min int64Max at h
    omega

/-- And only such a literal is. -/
theorem fits_of_code (h : k.code = .ok k.exact) : FitsInt64 k.exact := by
  have hnn := k.exact_nonneg
  rw [code_eq] at h
  split_ifs at h with hr hlt
  · unfold checked at h
    split_ifs at h with hfit
    exact hfit
  · have hw := Except.ok.inj h
    unfold wrap64 at hw
    unfold FitsInt64 int64Min int64Max
    omega

end Literal

end Literals

/-! ## Expressions -/

namespace Expr

theorem mem_parts_self (e : Expr) : e ∈ e.parts := by
  cases e <;> simp [parts]

/-- Parts of a part are parts. -/
theorem parts_trans {e p : Expr} (h : p ∈ e.parts) : p.parts ⊆ e.parts := by
  induction e with
  | number ws k =>
    obtain rfl := List.mem_singleton.1 h
    exact List.Subset.refl _
  | unary ws op e ih =>
    rcases List.mem_cons.1 h with rfl | hin
    · exact List.Subset.refl _
    · exact List.Subset.trans (ih hin) (List.subset_cons_self _ _)
  | binary l ws op r ihl ihr =>
    rcases List.mem_cons.1 h with rfl | hin
    · exact List.Subset.refl _
    · refine List.Subset.trans ?_ (List.subset_cons_self _ _)
      rcases List.mem_append.1 hin with hin | hin
      · exact List.Subset.trans (ihl hin) (List.subset_append_left _ _)
      · exact List.Subset.trans (ihr hin) (List.subset_append_right _ _)
  | paren ws e ws' ih =>
    rcases List.mem_cons.1 h with rfl | hin
    · exact List.Subset.refl _
    · exact List.Subset.trans (ih hin) (List.subset_cons_self _ _)

theorem Fits.self {e : Expr} (h : e.Fits) : FitsInt64 e.exact := h e e.mem_parts_self

theorem fits_unary {ws : Blanks} {op : UnOp} {e : Expr} :
    (Expr.unary ws op e).Fits ↔ FitsInt64 (UnOp.exact op e.exact) ∧ e.Fits := by
  simp [Fits, parts, exact]

theorem fits_binary {l r : Expr} {ws : Blanks} {op : BinOp} :
    (Expr.binary l ws op r).Fits ↔
      FitsInt64 (BinOp.exact op l.exact r.exact) ∧ l.Fits ∧ r.Fits := by
  simp [Fits, parts, exact, or_imp, forall_and]

theorem fits_paren {ws ws' : Blanks} {e : Expr} : (Expr.paren ws e ws').Fits ↔ e.Fits := by
  simp only [Fits, parts, List.mem_cons, forall_eq_or_imp, exact]
  exact ⟨fun h => h.2, fun h => ⟨h e e.mem_parts_self, h⟩⟩

theorem leastMod_unary {ws : Blanks} {op : UnOp} {e : Expr} :
    (Expr.unary ws op e).LeastMod ↔ e.LeastMod := by
  simp [LeastMod, parts, IsLeastMod]

theorem leastMod_binary {l r : Expr} {ws : Blanks} {op : BinOp} :
    (Expr.binary l ws op r).LeastMod ↔
      (op = .mod ∧ l.exact = int64Min ∧ r.exact = -1) ∨ l.LeastMod ∨ r.LeastMod := by
  simp [LeastMod, parts, IsLeastMod, or_and_right, exists_or]

theorem leastMod_paren {ws ws' : Blanks} {e : Expr} :
    (Expr.paren ws e ws').LeastMod ↔ e.LeastMod := by
  simp [LeastMod, parts, IsLeastMod]

/-- **Where everything fits** the evaluator computes the mathematical
value and divides by zero where the expression does, unless it takes the
remainder of the least integer by minus one. -/
theorem code_of_fits {e : Expr} (h : e.Fits) (hm : ¬ e.LeastMod) :
    e.code = .ok e.exact ∧ e.codeByZero = e.dividesByZero := by
  induction e with
  | number ws k => exact ⟨k.code_of_fits h.self, rfl⟩
  | unary ws op e ih =>
    obtain ⟨hop, he⟩ := fits_unary.1 h
    obtain ⟨hcode, hzero⟩ := ih he (fun hl => hm (leastMod_unary.2 hl))
    refine ⟨?_, hzero⟩
    show e.code.bind op.onInt = _
    rw [hcode]
    show op.onInt e.exact = _
    rw [UnOp.onInt_eq op he.self, if_pos hop]
    rfl
  | binary l ws op r ihl ihr =>
    obtain ⟨hop, hl, hr⟩ := fits_binary.1 h
    rw [leastMod_binary, not_or, not_or] at hm
    obtain ⟨hlcode, hlzero⟩ := ihl hl hm.2.1
    obtain ⟨hrcode, hrzero⟩ := ihr hr hm.2.2
    constructor
    · show l.code.bind (fun a => r.code.bind fun b => BinOp.code op a b) = _
      rw [hlcode, hrcode]
      show BinOp.code op l.exact r.exact = _
      rw [BinOp.code_eq op hl.self, if_pos ⟨hop, hm.1⟩]
      rfl
    · simp only [codeByZero, dividesByZero, hlzero, hrzero, hrcode]
      rfl
  | paren ws e ws' ih => exact ih (fits_paren.1 h) (fun hl => hm (leastMod_paren.2 hl))

/-- The remainder of the least integer by minus one is undefined. -/
theorem code_of_leastMod {e : Expr} (h : e.Fits) (hm : e.LeastMod) : ∃ w, e.code = .error w := by
  induction e with
  | number ws k =>
    obtain ⟨p, hp, hl⟩ := hm
    obtain rfl := List.mem_singleton.1 hp
    exact hl.elim
  | unary ws op e ih =>
    obtain ⟨w, hw⟩ := ih (fits_unary.1 h).2 (leastMod_unary.1 hm)
    refine ⟨w, ?_⟩
    show e.code.bind op.onInt = _
    rw [hw]
    rfl
  | binary l ws op r ihl ihr =>
    obtain ⟨hop, hl, hr⟩ := fits_binary.1 h
    show ∃ w, l.code.bind (fun a => r.code.bind fun b => BinOp.code op a b) = .error w
    by_cases hml : l.LeastMod
    · obtain ⟨w, hw⟩ := ihl hl hml
      refine ⟨w, ?_⟩
      rw [hw]
      rfl
    · by_cases hmr : r.LeastMod
      · obtain ⟨w, hw⟩ := ihr hr hmr
        refine ⟨w, ?_⟩
        rw [(code_of_fits hl hml).1, hw]
        rfl
      · have hroot := ((leastMod_binary.1 hm).resolve_right (not_or.2 ⟨hml, hmr⟩))
        refine ⟨.undefinedBehaviour, ?_⟩
        rw [(code_of_fits hl hml).1, (code_of_fits hr hmr).1]
        show BinOp.code op l.exact r.exact = _
        rw [BinOp.code_eq op hl.self, if_neg (fun hc => hc.2 hroot)]
  | paren ws e ws' ih => exact ih (fits_paren.1 h) (leastMod_paren.1 hm)

/-- A value the evaluator computes is exact, or a division by zero was
met on the way. -/
def CodeExact (e : Expr) : Prop := ∃ v, e.code = .ok v ∧ (e.codeByZero = true ∨ v = e.exact)

/-- **Exact throughout** means that everything fits. -/
theorem fits_of_codeExact {e : Expr} (h : ∀ p ∈ e.parts, p.CodeExact) : e.Fits ∧ ¬ e.LeastMod := by
  induction e with
  | number ws k =>
    obtain ⟨v, hv, hex⟩ := h _ (mem_parts_self _)
    obtain rfl : v = k.exact := hex.resolve_left Bool.false_ne_true
    have hfit : FitsInt64 k.exact := k.fits_of_code hv
    refine ⟨?_, ?_⟩
    · intro p hp
      obtain rfl := List.mem_singleton.1 hp
      exact hfit
    · rintro ⟨p, hp, hl⟩
      obtain rfl := List.mem_singleton.1 hp
      exact hl
  | unary ws op e ih =>
    obtain ⟨he, hme⟩ := ih fun p hp => h p (List.mem_cons_of_mem _ hp)
    obtain ⟨v, hv, -⟩ := h _ (mem_parts_self _)
    refine ⟨fits_unary.2 ⟨?_, he⟩, fun hl => hme (leastMod_unary.1 hl)⟩
    have hop : e.code.bind op.onInt = .ok v := hv
    rw [(code_of_fits he hme).1] at hop
    have hop' : op.onInt e.exact = .ok v := hop
    rw [UnOp.onInt_eq op he.self] at hop'
    by_contra hnot
    rw [if_neg hnot] at hop'
    cases hop'
  | binary l ws op r ihl ihr =>
    obtain ⟨hl, hml⟩ := ihl fun p hp => h p (List.mem_cons_of_mem _ (List.mem_append_left _ hp))
    obtain ⟨hr, hmr⟩ := ihr fun p hp => h p (List.mem_cons_of_mem _ (List.mem_append_right _ hp))
    obtain ⟨v, hv, -⟩ := h _ (mem_parts_self _)
    have hop : l.code.bind (fun a => r.code.bind fun b => BinOp.code op a b) = .ok v := hv
    rw [(code_of_fits hl hml).1, (code_of_fits hr hmr).1] at hop
    have hop' : BinOp.code op l.exact r.exact = .ok v := hop
    rw [BinOp.code_eq op hl.self] at hop'
    have hcond : FitsInt64 (BinOp.exact op l.exact r.exact) ∧
        ¬ (op = .mod ∧ l.exact = int64Min ∧ r.exact = -1) := by
      by_contra hnot
      rw [if_neg hnot] at hop'
      cases hop'
    refine ⟨fits_binary.2 ⟨hcond.1, hl, hr⟩, ?_⟩
    rw [leastMod_binary, not_or, not_or]
    exact ⟨hcond.2, hml, hmr⟩
  | paren ws e ws' ih =>
    obtain ⟨he, hme⟩ := ih fun p hp => h p (List.mem_cons_of_mem _ hp)
    exact ⟨fits_paren.2 he, fun hl => hme (leastMod_paren.1 hl)⟩

end Expr

end Evaluator

end Preprocess

end Nslc
