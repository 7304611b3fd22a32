import Nslc.Common.Bits
/-!
# The `nsl` dialect — ops, verifiers, meaning of the expression ops

The part of the dialect a module body is made of: ports, storage,
expression ops, transfers and action blocks. An SSA value carries the
width of its `!nsl.bits` type. `Expr.verify` is what the dialect
verifiers and traits check of one expression op, and `Expr.den` is the
value the op stands for.
-/

namespace Nslc

namespace Dialect

/-- An SSA result of an `nsl` op of type `!nsl.bits<width>`. -/
structure Val where
  id : ℕ
  width : ℕ
  deriving DecidableEq, Repr

inductive BinOp where
  | add | sub | mul | and | or | xor | shl | shr
  | eq | ne | lt | le | gt | ge
  | land | lor
  deriving DecidableEq, Repr

inductive UnOp where
  | not | neg | lnot | reduceAnd | reduceOr | reduceXor
  deriving DecidableEq, Repr

/-- The ops that compute one value from their operands. -/
inductive Expr where
  /-- The attribute is the 64-bit pattern of the value. -/
  | constant (value : ℕ)
  | bin (k : BinOp) (lhs rhs : Val)
  | un (k : UnOp) (operand : Val)
  | signExtend (operand : Val)
  | zeroExtend (operand : Val)
  | mux (cond thenValue elseValue : Val)
  | concat (operands : List Val)
  | extract (operand : Val) (lowBit : ℕ)
  | repeat (operand : Val) (count : ℕ)
  deriving DecidableEq, Repr

namespace Expr

def operands : Expr → List Val
  | constant _ => []
  | bin _ a b => [a, b]
  | un _ a | signExtend a | zeroExtend a | extract a _ | .repeat a _ => [a]
  | mux c t e => [c, t, e]
  | concat vs => vs

end Expr

/-! ## Verifiers -/

namespace BinOp

/-- Comparisons and the logical operators give one bit. -/
def isPredicate : BinOp → Bool
  | eq | ne | lt | le | gt | ge | land | lor => true
  | _ => false

/-- The operands share a type; the result has it too, or one bit. The
logical operators take one-bit operands. -/
def verify (k : BinOp) (res lhs rhs : ℕ) : Bool :=
  lhs == rhs && (if k.isPredicate then res == 1 else res == lhs) &&
    match k with
    | land | lor => lhs == 1
    | _ => true

end BinOp

@[grind =] def UnOp.verify (k : UnOp) (res operand : ℕ) : Bool :=
  match k with
  | not | neg => res == operand
  | lnot => res == 1 && operand == 1
  | reduceAnd | reduceOr | reduceXor => res == 1

/-- What is checked of an expression op with result width `res`. -/
@[grind =] def Expr.verify (res : ℕ) : Expr → Bool
  | constant value => decide (value < 2 ^ 64) && (64 ≤ res || decide (value < 2 ^ res))
  | bin k a b => k.verify res a.width b.width
  | un k a => k.verify res a.width
  | signExtend a | zeroExtend a => a.width ≤ res
  | mux c t e => c.width == 1 && t.width == e.width && res == t.width
  | concat vs => !vs.isEmpty && (vs.map Val.width).sum == res
  | extract a lowBit => lowBit + res ≤ a.width
  | .repeat a count => 1 ≤ count && a.width * count == res

/-! ## Meaning -/

def BinOp.den : BinOp → Bits → Bits → Bits
  | add, x, y => x.map₂ y (· + ·)
  | sub, x, y => x.map₂ y (· - ·)
  | mul, x, y => x.map₂ y (· * ·)
  | and, x, y => x.map₂ y (· &&& ·)
  | or, x, y => x.map₂ y (· ||| ·)
  | xor, x, y => x.map₂ y (· ^^^ ·)
  | shl, x, y => x.map₂ y (· <<< ·)
  | shr, x, y => x.map₂ y (· >>> ·)
  | eq, x, y => x.test₂ y (· == ·)
  | ne, x, y => x.test₂ y (· != ·)
  | lt, x, y => x.test₂ y BitVec.ult
  | le, x, y => x.test₂ y BitVec.ule
  | gt, x, y => x.test₂ y fun a b => b.ult a
  | ge, x, y => x.test₂ y fun a b => b.ule a
  | land, x, y => .ofBool (x.isTrue && y.isTrue)
  | lor, x, y => .ofBool (x.isTrue || y.isTrue)

def UnOp.den : UnOp → Bits → Bits
  | not, x => x.map (~~~ ·)
  | neg, x => x.map (- ·)
  | lnot, x => .ofBool (!x.isTrue)
  | reduceAnd, x => .ofBool x.allSet
  | reduceOr, x => .ofBool x.anySet
  | reduceXor, x => x.parity

/-- The value of an expression op with result width `res` on operand
values `xs`, in the order of `operands`. -/
@[grind =] def Expr.den (res : ℕ) (e : Expr) (xs : List Bits) : Bits :=
  match e, xs with
  | constant value, _ => .const res value
  | bin k _ _, [x, y] => k.den x y
  | un k _, [x] => k.den x
  | signExtend _, [x] => x.signExtend res
  | zeroExtend _, [x] => x.zeroExtend res
  | mux _ _ _, [c, t, e] => if c.isTrue then t else e
  | concat _, xs => .concat xs
  | extract _ lowBit, [x] => x.extract lowBit res
  | .repeat _ count, [x] => x.replicate count
  | _, _ => .const res 0

/-! ## Module bodies -/

inductive Op where
  | inputPort (res : Val) (name : String)
  | outputPort (res : Val) (name : String)
  | inoutPort (res : Val) (name : String)
  /-- `init` is the reset value, zero where the attribute is absent. -/
  | reg (res : Val) (name : String) (init : ℕ)
  | wire (res : Val) (name : String)
  | expr (res : Val) (e : Expr)
  | transfer (dst src : Val)
  | clockedTransfer (dst src : Val)
  | ifOp (cond : Val) (thenRegion elseRegion : List Op)
  | alt (body : List Op)
  | any (body : List Op)
  | case (cond : Val) (body : List Op)
  | default (body : List Op)
  | parallel (body : List Op)
  | func (symName : String) (body : List Op)
  | seq (body : List Op)
  | call (callee : String)
  /-- Declarations and simulation ops a module lowering passes over
  without touching a driver (`nsl.mem`, `nsl.proc`, `nsl.func_in`,
  `nsl.sim_display`, ...). -/
  | inert (mnemonic : String)
  /-- Any other op of the dialect (`nsl.while`, `nsl.incdec`, ...). -/
  | other (mnemonic : String)
  deriving Repr

/-- The operands an op reads, its destination apart. -/
def Op.reads : Op → List Val
  | expr _ e => e.operands
  | transfer _ src | clockedTransfer _ src => [src]
  | ifOp cond _ _ | case cond _ => [cond]
  | _ => []

def Op.isSeq : Op → Bool
  | seq _ => true
  | _ => false

/-- A case of `nsl.alt` or `nsl.any`, or its default. -/
def Op.isCase : Op → Bool
  | case _ _ | default _ => true
  | _ => false

mutual

/-- The op with those nested in it. -/
@[grind =] def Op.within (op : Op) : List Op :=
  op :: match op with
    | ifOp _ thenRegion elseRegion => Op.withins thenRegion ++ Op.withins elseRegion
    | alt body | any body | case _ body | default body | parallel body | func _ body
    | seq body => Op.withins body
    | _ => []

def Op.withins : List Op → List Op
  | [] => []
  | op :: ops => Op.within op ++ Op.withins ops

end

/-- The verifier of one op, for the results `regs` of the `nsl.reg`s. No
other op has such a result, and cases stand directly in `nsl.alt` and
`nsl.any`. Ops outside the combinational part of the dialect are left
out. -/
@[grind =] def Op.verify (regs : List Val) : Op → Bool
  | inputPort res _ | outputPort res _ | inoutPort res _ | wire res _ => decide (res ∉ regs)
  | expr res e => e.verify res.width && decide (res ∉ regs)
  | transfer dst src => dst.width == src.width
  | clockedTransfer dst src => dst.width == src.width && decide (dst ∈ regs)
  | ifOp _ thenRegion elseRegion => !thenRegion.any isCase && !elseRegion.any isCase
  | alt body | any body => body.any isCase
  | case _ body | default body | parallel body | func _ body => !body.any isCase
  | reg _ _ _ | call _ | inert _ => true
  | seq _ | other _ => false

/-- The result of a port op. -/
def Op.portResult? : Op → Option Val
  | inputPort res _ | outputPort res _ | inoutPort res _ => some res
  | _ => none

end Dialect

end Nslc
