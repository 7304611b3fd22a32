import Mathlib
/-!
# Bit vectors with their width

A value of a netlist is a bit vector whose width is part of the value.
Operators of two operands work at the width of the first; on operands of
one width, which is all a typed netlist has, nothing is cut or padded.
The lemmas at the end are the encodings of some operators through
others: a complement as an exclusive or with ones, a sign extension as
copies of the top bit put in front.
-/

namespace Nslc

structure Bits where
  width : ℕ
  bits : BitVec width
  deriving DecidableEq, Repr

namespace Bits

/-- The bits of `x` cut or zero-padded to width `w`. -/
def cut (x : Bits) (w : ℕ) : BitVec w := x.bits.setWidth w

@[simp] theorem cut_width (x : Bits) : x.cut x.width = x.bits := by simp [Bits.cut]

@[simp] theorem width_mk (w : ℕ) (b : BitVec w) : (Bits.mk w b).width = w := rfl

/-- The `w`-bit value of a number. -/
def const (w n : ℕ) : Bits := ⟨w, BitVec.ofNat w n⟩

def ones (w : ℕ) : Bits := ⟨w, BitVec.allOnes w⟩

def ofBool (b : Bool) : Bits := ⟨1, BitVec.ofBool b⟩

/-- A condition holds if some bit is set. -/
def isTrue (x : Bits) : Bool := x.bits != 0

@[simp] theorem isTrue_ofBool (b : Bool) : (ofBool b).isTrue = b := by cases b <;> rfl

/-- A one-bit value is the truth value it stands for. -/
theorem eq_ofBool {x : Bits} (h : x.width = 1) : x = ofBool x.isTrue := by
  obtain ⟨w, b⟩ := x
  obtain rfl : w = 1 := h
  have hb : b = 0#1 ∨ b = 1#1 := by
    have := b.isLt
    rcases (show b.toNat = 0 ∨ b.toNat = 1 by omega) with h | h
    · exact .inl (BitVec.eq_of_toNat_eq (by simpa using h))
    · exact .inr (BitVec.eq_of_toNat_eq (by simpa using h))
  rcases hb with rfl | rfl <;> rfl

theorem isTrue_eq_false_iff {x : Bits} : x.isTrue = false ↔ x.bits = 0 := by
  simp [isTrue]

/-! ## Operators -/

section Operators

variable (x y : Bits)

/-- An operator at the width of its first operand. -/
def map₂ (f : ∀ {w : ℕ}, BitVec w → BitVec w → BitVec w) : Bits := ⟨x.width, f x.bits (y.cut x.width)⟩

/-- A comparison at the width of its first operand. -/
def test₂ (p : ∀ {w : ℕ}, BitVec w → BitVec w → Bool) : Bits :=
  ofBool (p x.bits (y.cut x.width))

def map (f : ∀ {w : ℕ}, BitVec w → BitVec w) : Bits := ⟨x.width, f x.bits⟩

/-- Whether an odd number of bits is set. -/
def parity : Bits := ofBool ((List.range x.width).foldl (fun b i => b ^^ x.bits.getLsbD i) false)

def signExtend (w : ℕ) : Bits := ⟨w, x.bits.signExtend w⟩

def zeroExtend (w : ℕ) : Bits := ⟨w, x.bits.setWidth w⟩

/-- The `w` bits from bit `low` on. -/
def extract (low w : ℕ) : Bits := ⟨w, x.bits.extractLsb' low w⟩

/-- `n` copies side by side. -/
def replicate (n : ℕ) : Bits := ⟨x.width * n, x.bits.replicate n⟩

/-- `x` on the left, that is in the upper bits. -/
def append : Bits := ⟨x.width + y.width, x.bits ++ y.bits⟩

end Operators

/-- All operands side by side, the first in the upper bits. -/
def concat : List Bits → Bits
  | [] => ⟨0, 0#0⟩
  | x :: xs => x.append (concat xs)

/-- The choice by a condition, at the width of the first alternative. -/
def mux (c x y : Bits) : Bits := ⟨x.width, if c.isTrue then x.bits else y.cut x.width⟩

section Widths

variable (x y : Bits)

@[simp] theorem width_const (w n : ℕ) : (const w n).width = w := rfl

@[simp] theorem width_ones (w : ℕ) : (ones w).width = w := rfl

@[simp] theorem width_ofBool (b : Bool) : (ofBool b).width = 1 := rfl

@[simp] theorem width_map₂ (f : ∀ {w : ℕ}, BitVec w → BitVec w → BitVec w) :
    (x.map₂ y f).width = x.width := rfl

@[simp] theorem width_test₂ (p : ∀ {w : ℕ}, BitVec w → BitVec w → Bool) :
    (x.test₂ y p).width = 1 := rfl

@[simp] theorem width_map (f : ∀ {w : ℕ}, BitVec w → BitVec w) : (x.map f).width = x.width := rfl

@[simp] theorem width_parity : x.parity.width = 1 := rfl

@[simp] theorem width_signExtend (w : ℕ) : (x.signExtend w).width = w := rfl

@[simp] theorem width_zeroExtend (w : ℕ) : (x.zeroExtend w).width = w := rfl

@[simp] theorem width_extract (low w : ℕ) : (x.extract low w).width = w := rfl

@[simp] theorem width_replicate (n : ℕ) : (x.replicate n).width = x.width * n := rfl

@[simp] theorem width_append : (x.append y).width = x.width + y.width := rfl

@[simp] theorem width_concat (xs : List Bits) :
    (concat xs).width = (xs.map Bits.width).sum := by
  induction xs with
  | nil => rfl
  | cons x xs ih => simp [concat, ih]

@[simp] theorem width_mux (c : Bits) : (mux c x y).width = x.width := rfl

end Widths

/-- Between alternatives of one width. -/
theorem mux_eq {c x y : Bits} (h : y.width = x.width) : mux c x y = if c.isTrue then x else y := by
  obtain ⟨w, x⟩ := x
  obtain ⟨v, y⟩ := y
  obtain rfl : v = w := h
  unfold mux
  split <;> simp [Bits.cut]

/-! ## Encodings -/

theorem not_eq_xor_ones (x : Bits) :
    x.map₂ (ones x.width) (· ^^^ ·) = x.map (~~~ ·) := by
  simp only [map₂, map, Bits.cut, ones, BitVec.setWidth_eq]
  congr 1
  exact BitVec.xor_allOnes

theorem neg_eq_zero_sub (x : Bits) : (const x.width 0).map₂ x (· - ·) = x.map (- ·) := by
  simp only [map₂, map, const, cut_width, width_mk]
  congr 1

theorem eq_zero_test (x : Bits) : x.test₂ (const x.width 0) (· == ·) = ofBool (!x.isTrue) := by
  simp [test₂, const, isTrue, Bits.cut, bne]

theorem ne_zero_test (x : Bits) : x.test₂ (const x.width 0) (· != ·) = ofBool x.isTrue := by
  simp [test₂, const, isTrue, Bits.cut]

/-- Whether all bits are set. -/
def allSet (x : Bits) : Bool := (List.range x.width).all fun i => x.bits.getLsbD i

/-- Whether some bit is set. -/
def anySet (x : Bits) : Bool := (List.range x.width).any fun i => x.bits.getLsbD i

theorem eq_ones_test (x : Bits) : x.test₂ (ones x.width) (· == ·) = ofBool x.allSet := by
  have h : (x.bits == BitVec.allOnes x.width) = x.allSet := by
    rw [Bool.eq_iff_iff, beq_iff_eq]
    simp only [allSet, List.all_eq_true, List.mem_range]
    constructor
    · intro he i hi
      simp [he, hi]
    · intro hall
      refine BitVec.eq_of_getLsbD_eq fun i hi => ?_
      simp [hall i hi, hi]
  simp [test₂, ones, Bits.cut, h]

theorem isTrue_eq_anySet (x : Bits) : x.isTrue = x.anySet := by
  rw [Bool.eq_iff_iff]
  simp only [isTrue, anySet, bne_iff_ne, ne_eq, List.any_eq_true, List.mem_range]
  constructor
  · intro hne
    by_contra hnone
    refine hne (BitVec.eq_of_getLsbD_eq fun i hi => ?_)
    simp only [not_exists, not_and, Bool.not_eq_true] at hnone
    simpa using hnone i hi
  · rintro ⟨i, hi, hbit⟩ he
    simp [he] at hbit

theorem append_ext {x y z : Bits} (hw : x.width + y.width = z.width)
    (hb : ∀ i < z.width, (x.bits ++ y.bits).getLsbD i = z.bits.getLsbD i) : x.append y = z := by
  obtain ⟨w, z⟩ := z
  obtain rfl : x.width + y.width = w := hw
  unfold append
  congr 1
  exact BitVec.eq_of_getLsbD_eq hb

/-- A sign extension puts copies of the top bit in front. -/
theorem append_replicate_msb {x : Bits} {w : ℕ} (h : x.width < w) :
    ((x.extract (x.width - 1) 1).replicate (w - x.width)).append x = x.signExtend w := by
  refine append_ext ?_ ?_
  · simp only [width_replicate, width_extract, width_signExtend]
    omega
  · intro i hi
    rw [BitVec.getLsbD_append]
    simp only [width_signExtend] at hi
    simp only [signExtend, BitVec.getLsbD_signExtend, hi, decide_true, Bool.true_and]
    split
    · rfl
    · rename_i hge
      have hmod : (i - x.width) % 1 = 0 := Nat.mod_one _
      simp only [replicate, extract, BitVec.getLsbD_replicate, BitVec.getLsbD_extractLsb', hmod,
        BitVec.msb_eq_getLsbD_last]
      have hlt : i - x.width < w - x.width := by omega
      simp [hlt]

/-- A zero extension puts zeros in front. -/
theorem append_zeros {x : Bits} {w : ℕ} (h : x.width < w) :
    (const (w - x.width) 0).append x = x.zeroExtend w := by
  refine append_ext ?_ ?_
  · simp only [width_const, width_zeroExtend]
    omega
  · intro i hi
    rw [BitVec.getLsbD_append]
    simp only [width_zeroExtend] at hi
    simp only [zeroExtend, BitVec.getLsbD_setWidth, hi, decide_true, Bool.true_and]
    split
    · rfl
    · rename_i hge
      rw [BitVec.getLsbD_of_ge x.bits i (by omega)]
      simp [const]

theorem signExtend_width (x : Bits) : x.signExtend x.width = x := by
  simp [signExtend]

theorem zeroExtend_eq {x : Bits} {w : ℕ} (h : x.width = w) : x.zeroExtend w = x := by
  subst h
  simp [zeroExtend]

theorem concat_pair (x y : Bits) : concat [x, y] = x.append y := by
  have hempty : y.append ⟨0, 0#0⟩ = y := by
    refine append_ext rfl fun i _ => ?_
    rw [BitVec.getLsbD_append]
    simp
  show x.append (y.append ⟨0, 0#0⟩) = x.append y
  rw [hempty]

theorem eq_of_width_zero {x y : Bits} (hx : x.width = 0) (hy : y.width = 0) : x = y := by
  obtain ⟨w, x⟩ := x
  obtain ⟨v, y⟩ := y
  obtain rfl : w = 0 := hx
  obtain rfl : v = 0 := hy
  congr 1
  exact BitVec.eq_of_getLsbD_eq fun i hi => absurd hi (by omega)

end Bits

end Nslc
