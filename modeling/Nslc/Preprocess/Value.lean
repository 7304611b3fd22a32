import Nslc.Preprocess.Splice
/-!
# Preprocessor — values and helpers of compile-time expressions

`PPValue` is a 64-bit integer or a `long double`. The integer operations
are those of C++17 on `int64_t`: a result that does not fit is undefined
behaviour, and so is a division whose quotient does not fit; nothing is
said of a run beyond it. What the platform's `long double` computes is a
parameter.
-/

namespace Nslc

namespace Preprocess

namespace Evaluator

/-- The platform's `long double` and the functions of its `<math.h>`. -/
structure LongDouble where
  Real : Type
  ofInt : ℤ → Real
  /-- `truncl`; `none` for a NaN or an infinity. -/
  trunc : Real → Option ℤ
  add : Real → Real → Real
  sub : Real → Real → Real
  mul : Real → Real → Real
  div : Real → Real → Real
  fmod : Real → Real → Real
  neg : Real → Real
  eq : Real → Real → Bool
  lt : Real → Real → Bool
  le : Real → Real → Bool
  /-- `std::stold`; `none` where it throws. -/
  stold : Text → Option Real
  /-- `printf` with `%.17Lg`. -/
  format : Real → Text
  pow : Real → Real → Real
  fabs : Real → Real
  /-- The functions of one argument, under the helper's name. -/
  unary : Text → Real → Real

/-- Why an evaluation gives no value: the program's behaviour is
undefined from here on, or sub-parsers nest deeper than allowed for. -/
inductive Halt where
  | undefinedBehaviour
  | outOfFuel
  deriving DecidableEq, Repr

inductive PPValue (L : LongDouble) where
  | int (v : ℤ)
  | real (r : L.Real)

/-! ## `int64_t` -/

def int64Min : ℤ := -(2 ^ 63)

def int64Max : ℤ := 2 ^ 63 - 1

/-- Whether the value is one of `int64_t`. -/
def FitsInt64 (z : ℤ) : Prop := int64Min ≤ z ∧ z ≤ int64Max

instance (z : ℤ) : Decidable (FitsInt64 z) := inferInstanceAs (Decidable (_ ∧ _))

/-- The result of a signed operation. -/
def checked (z : ℤ) : Except Halt ℤ :=
  if FitsInt64 z then .ok z else .error .undefinedBehaviour

/-- The `int64_t` of the same bits. -/
def wrap64 (z : ℤ) : ℤ := (z + 2 ^ 63) % 2 ^ 64 - 2 ^ 63

/-- `v << bits`: defined where `v` is not negative and the result fits
the unsigned type; it is then converted. -/
def shiftLeft (v : ℤ) (bits : ℕ) : Except Halt ℤ :=
  if 0 ≤ v ∧ v * 2 ^ bits < 2 ^ 64 then .ok (wrap64 (v * 2 ^ bits)) else .error .undefinedBehaviour

/-! ## Operators -/

inductive BinOp where
  | lor | land | eq | ne | le | ge | lt | gt | add | sub | mul | div | mod
  deriving DecidableEq, Repr

inductive UnOp where
  | plus | neg | not | compl
  deriving DecidableEq, Repr

/-- `1` or `0`. -/
def ofBool (b : Bool) : ℤ := if b then 1 else 0

/-- An operator on two integers; the divisor is not zero. -/
def BinOp.onInts (op : BinOp) (a b : ℤ) : Except Halt ℤ :=
  match op with
  | .lor => .ok (ofBool (a != 0 || b != 0))
  | .land => .ok (ofBool (a != 0 && b != 0))
  | .eq => .ok (ofBool (a == b))
  | .ne => .ok (ofBool (a != b))
  | .le => .ok (ofBool (a ≤ b))
  | .ge => .ok (ofBool (b ≤ a))
  | .lt => .ok (ofBool (a < b))
  | .gt => .ok (ofBool (b < a))
  | .add => checked (a + b)
  | .sub => checked (a - b)
  | .mul => checked (a * b)
  | .div => checked (a.tdiv b)
  | .mod =>
    -- undefined with the quotient, though the remainder would fit
    if a = int64Min ∧ b = -1 then .error .undefinedBehaviour else .ok (a.tmod b)

def UnOp.onInt (op : UnOp) (a : ℤ) : Except Halt ℤ :=
  match op with
  | .plus => .ok a
  | .neg => checked (-a)
  | .not => .ok (ofBool (a == 0))
  | .compl => .ok (-a - 1)

/-- What a division by zero is reported as. -/
def BinOp.zeroMessage : BinOp → Option Text
  | .div => some "compile-time division by zero".toList
  | .mod => some "compile-time modulo by zero".toList
  | _ => none

namespace PPValue

variable {L : LongDouble}

/-- `toInt`: reals are truncated and clamped. -/
def toInt : PPValue L → ℤ
  | .int v => v
  | .real r =>
    match L.trunc r with
    | none => 0
    | some t => if int64Max < t then int64Max else if t < int64Min then int64Min else t

def toReal : PPValue L → L.Real
  | .int v => L.ofInt v
  | .real r => r

def isTruthy : PPValue L → Bool
  | .int v => v != 0
  | .real r => !L.eq r (L.ofInt 0)

/-- Whether a rendered real would be read as a float, or is not a number. -/
def marksReal (c : Char) : Bool := c == '.' || c == 'e' || c == 'E' || c == 'n' || c == 'i'

def render : PPValue L → Text
  | .int v => (if v < 0 then ['-'] else []) ++ Nat.toDigits 10 v.natAbs
  | .real r => if (L.format r).any marksReal then L.format r else L.format r ++ ".0".toList

/-- An operator with a real on one side. -/
def realBinary (op : BinOp) (a b : PPValue L) : PPValue L :=
  match op with
  | .lor => .int (ofBool (a.isTruthy || b.isTruthy))
  | .land => .int (ofBool (a.isTruthy && b.isTruthy))
  | .eq => .int (ofBool (L.eq a.toReal b.toReal))
  | .ne => .int (ofBool (!L.eq a.toReal b.toReal))
  | .le => .int (ofBool (L.le a.toReal b.toReal))
  | .ge => .int (ofBool (L.le b.toReal a.toReal))
  | .lt => .int (ofBool (L.lt a.toReal b.toReal))
  | .gt => .int (ofBool (L.lt b.toReal a.toReal))
  | .add => .real (L.add a.toReal b.toReal)
  | .sub => .real (L.sub a.toReal b.toReal)
  | .mul => .real (L.mul a.toReal b.toReal)
  | .div => .real (L.div a.toReal b.toReal)
  | .mod => .real (L.fmod a.toReal b.toReal)

/-- Whether the operator divides by zero here. -/
def dividesByZero (op : BinOp) (a b : PPValue L) : Bool :=
  op.zeroMessage.isSome &&
    match a, b with
    | .int _, .int y => y == 0
    | _, _ => L.eq b.toReal (L.ofInt 0)

/-- An operator of the ladder whose divisor is not zero. -/
def binary (op : BinOp) (a b : PPValue L) : Except Halt (PPValue L) :=
  match a, b with
  | .int x, .int y => (op.onInts x y).map .int
  | _, _ => .ok (realBinary op a b)

def unary (op : UnOp) (a : PPValue L) : Except Halt (PPValue L) :=
  match op, a with
  | .plus, a => .ok a
  | .neg, .real r => .ok (.real (L.neg r))
  | .not, a => .ok (.int (ofBool (!a.isTruthy)))
  -- the complement is taken of the truncated value
  | .compl, a => .ok (.int (-a.toInt - 1))
  | op, .int v => (op.onInt v).map .int

end PPValue

/-! ## Helpers -/

/-- The arguments a helper takes (`HelperSet.def`); `none` for a name
outside the closed set. -/
def helperArity (name : Text) : Option ℕ :=
  if lookupHelper name then
    some (if name = "_pow".toList ∨ name = "_min".toList ∨ name = "_max".toList then 2 else 1)
  else none

namespace HelperEvaluator

variable {L : LongDouble}

/-- A helper's value and what it reports, at the call. -/
abbrev Result (L : LongDouble) := PPValue L × Option (Severity × Text)

/-- A function of one real argument. -/
def evalReal (name : Text) (a : PPValue L) : Result L := (.real (L.unary name a.toReal), none)

/-- A function with a domain: outside it an error is reported and the
value is zero. -/
def evalDomain (name : Text) (inside : L.Real → Bool) (message : String) (a : PPValue L) : Result L :=
  if inside a.toReal then evalReal name a
  else (.int 0, some (.error, ("helper '" ++ String.ofList name ++ "' domain error: " ++ message).toList))

/-- A result that is an infinity or a NaN is warned about. -/
def evalRange (name : Text) (r : L.Real) : Result L :=
  (.real r, if (L.trunc r).isSome then none
    else some (.warning, ("helper '" ++ String.ofList name ++ "' result exceeds long-double range").toList))

def evalAbs : PPValue L → Result L
  | .int v => (.int (if v = int64Min then int64Max else if v < 0 then -v else v), none)
  | .real r => (.real (L.fabs r), none)

def evalMin (a b : PPValue L) : Result L :=
  match a, b with
  | .int x, .int y => (.int (if x < y then x else y), none)
  | _, _ => (.real (if L.lt a.toReal b.toReal then a.toReal else b.toReal), none)

def evalMax (a b : PPValue L) : Result L :=
  match a, b with
  | .int x, .int y => (.int (if y < x then x else y), none)
  | _, _ => (.real (if L.lt b.toReal a.toReal then a.toReal else b.toReal), none)

/-- `invoke`, on as many arguments as the helper takes. -/
def invoke (name : Text) (a b : PPValue L) : Result L :=
  let zero := L.ofInt 0
  let one := L.ofInt 1
  if name = "_int".toList then (.int a.toInt, none)
  else if name = "_real".toList then (.real a.toReal, none)
  else if name = "_pow".toList then evalRange name (L.pow a.toReal b.toReal)
  else if name = "_sqrt".toList then
    evalDomain name (fun v => !L.lt v zero) "argument must be non-negative" a
  else if name = "_asin".toList ∨ name = "_acos".toList then
    evalDomain name (fun v => !(L.lt v (L.neg one) || L.lt one v)) "argument must be in [-1, 1]" a
  else if name = "_log".toList ∨ name = "_log10".toList then
    evalDomain name (fun v => !L.le v zero) "argument must be positive" a
  else if name = "_exp".toList then evalRange name (L.unary name a.toReal)
  else if name = "_abs".toList then evalAbs a
  else if name = "_min".toList then evalMin a b
  else if name = "_max".toList then evalMax a b
  else evalReal name a

end HelperEvaluator

end Evaluator

end Preprocess

end Nslc
