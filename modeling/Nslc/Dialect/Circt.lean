import Nslc.Dialect.Ops
/-!
# CIRCT values

The values the lowering builds: the ops of the `comb`, `hw` and `seq`
dialects it emits, each with an identity of its own. A value still naming
an `nsl` result (`nsl`) has that result's `!nsl.bits` type, the others
have an integer type; erasing the `nsl` op leaves a null operand in its
place. A value is given by the tree of the ops that compute it, so that
its meaning is a recursion.
-/

namespace Nslc

namespace Circt

open Dialect (Val)

inductive ICmpPredicate where
  | eq | ne | ult | ule | ugt | uge
  deriving DecidableEq, Repr

/-- The emitted ops with one result. -/
inductive CombOp where
  | constant (width value : ℕ)
  | allOnes (width : ℕ)
  | add | sub | mul | and | or | xor | shl | shrU
  | icmp (p : ICmpPredicate)
  | parity
  | extract (lowBit width : ℕ)
  | replicate (width : ℕ)
  | concat (width : ℕ)
  | mux
  /-- `hw.wire`. -/
  | wire (name : String)
  deriving DecidableEq, Repr

inductive Value where
  /-- A block argument of the `hw.module`. -/
  | arg (name : String) (width : ℕ)
  /-- The result of register number `index`. -/
  | reg (index width : ℕ)
  /-- A result of an `nsl` op. -/
  | nsl (v : Val)
  /-- An operand whose use was dropped. -/
  | null
  | op (id : ℕ) (k : CombOp) (args : List Value)

mutual

/-- Whether two values are the same SSA value: every op of the trees
carries its identity. -/
def Value.same : Value → Value → Bool
  | .arg n w, .arg n' w' => n == n' && w == w'
  | .reg i w, .reg i' w' => i == i' && w == w'
  | .nsl v, .nsl v' => v == v'
  | .op i k args, .op i' k' args' => i == i' && k == k' && Value.sameAll args args'
  | _, _ => false

def Value.sameAll : List Value → List Value → Bool
  | [], [] => true
  | v :: vs, v' :: vs' => v.same v' && Value.sameAll vs vs'
  | _, _ => false

end

mutual

theorem Value.eq_of_same : ∀ {a b : Value}, a.same b = true → a = b
  | .arg n w, b, h => by cases b <;> simp_all [Value.same]
  | .reg i w, b, h => by cases b <;> simp_all [Value.same]
  | .nsl v, b, h => by cases b <;> simp_all [Value.same]
  | .null, b, h => by cases b <;> simp_all [Value.same]
  | .op i k args, b, h => by
    cases b with
    | op i' k' args' =>
      simp only [Value.same, Bool.and_eq_true, beq_iff_eq] at h
      rw [h.1.1, h.1.2, Value.eq_of_sameAll h.2]
    | _ => simp [Value.same] at h

theorem Value.eq_of_sameAll : ∀ {as bs : List Value}, Value.sameAll as bs = true → as = bs
  | [], bs, h => by cases bs <;> simp_all [Value.sameAll]
  | a :: as, bs, h => by
    cases bs with
    | nil => simp [Value.sameAll] at h
    | cons b bs =>
      simp only [Value.sameAll, Bool.and_eq_true] at h
      rw [Value.eq_of_same h.1, Value.eq_of_sameAll h.2]

end

@[simp] theorem Value.same_reg (i w i' w' : ℕ) :
    (Value.reg i w).same (.reg i' w') = (i == i' && w == w') := by simp [Value.same]

/-! ## Types -/

/-- `iN`, or the `!nsl.bits<N>` of a value not yet converted. -/
structure Ty where
  width : ℕ
  isInt : Bool
  deriving DecidableEq, Repr

/-- The result type the op builders infer from the operand types. -/
@[grind =] def CombOp.ty : CombOp → List Ty → Ty
  | constant w _, [] | allOnes w, [] => ⟨w, true⟩
  | add, [t, _] | sub, [t, _] | mul, [t, _] | and, [t, _] | or, [t, _] | xor, [t, _]
  | shl, [t, _] | shrU, [t, _] => t
  | icmp _, [_, _] | parity, [_] => ⟨1, true⟩
  | extract _ w, [_] | replicate w, [_] | concat w, _ => ⟨w, true⟩
  | mux, [_, t, _] | wire _, [t] => t
  | _, _ => ⟨0, true⟩

mutual

def Value.ty : Value → Ty
  | .arg _ w | .reg _ w => ⟨w, true⟩
  | .nsl v => ⟨v.width, false⟩
  | .null => ⟨0, true⟩
  | .op _ k args => k.ty (Value.tys args)

def Value.tys : List Value → List Ty
  | [] => []
  | v :: vs => v.ty :: Value.tys vs

end

def Value.width (v : Value) : ℕ := v.ty.width

/-! ## Meaning -/

/-- What is given to a cycle: the inputs and the current values of the
registers. -/
structure Valuation where
  arg : String → (w : ℕ) → BitVec w
  reg : ℕ → (w : ℕ) → BitVec w

def ICmpPredicate.test (p : ICmpPredicate) {w : ℕ} (a b : BitVec w) : Bool :=
  match p with
  | eq => a == b
  | ne => a != b
  | ult => a.ult b
  | ule => a.ule b
  | ugt => b.ult a
  | uge => b.ule a

def CombOp.den : CombOp → List Bits → Bits
  | constant w n, [] => .const w n
  | allOnes w, [] => .ones w
  | add, [x, y] => x.map₂ y (· + ·)
  | sub, [x, y] => x.map₂ y (· - ·)
  | mul, [x, y] => x.map₂ y (· * ·)
  | and, [x, y] => x.map₂ y (· &&& ·)
  | or, [x, y] => x.map₂ y (· ||| ·)
  | xor, [x, y] => x.map₂ y (· ^^^ ·)
  | shl, [x, y] => x.map₂ y (· <<< ·)
  | shrU, [x, y] => x.map₂ y (· >>> ·)
  | icmp p, [x, y] => x.test₂ y p.test
  | parity, [x] => x.parity
  | extract low w, [x] => x.extract low w
  | replicate w, [x] => (x.replicate (w / x.width)).zeroExtend w
  | concat w, xs => (Bits.concat xs).zeroExtend w
  | mux, [c, x, y] => .mux c x y
  | wire _, [x] => x
  | _, _ => .const 0 0

theorem CombOp.width_den (k : CombOp) {xs : List Bits} {ts : List Ty}
    (h : xs.map Bits.width = ts.map Ty.width) : (k.den xs).width = (k.ty ts).width := by
  have hlen := congrArg List.length h
  simp only [List.length_map] at hlen
  match xs, ts, hlen with
  | [], [], _ => cases k <;> rfl
  | [x], [t], _ =>
    simp only [List.map_cons, List.map_nil, List.cons.injEq, and_true] at h
    cases k <;> simp [den, ty, h]
  | [x, y], [t, u], _ =>
    simp only [List.map_cons, List.map_nil, List.cons.injEq, and_true] at h
    cases k <;> simp [den, ty, h]
  | [x, y, z], [t, u, v], _ =>
    simp only [List.map_cons, List.map_nil, List.cons.injEq, and_true] at h
    cases k <;> simp [den, ty, h]
  | x :: y :: z :: z' :: xs, t :: u :: v :: v' :: ts, _ => cases k <;> simp [den, ty]

mutual

/-- The value computed in a cycle. An `nsl` result and a null operand
have none; zero stands for it. -/
def Value.eval (ρ : Valuation) : Value → Bits
  | .arg name w => ⟨w, ρ.arg name w⟩
  | .reg i w => ⟨w, ρ.reg i w⟩
  | .nsl v => .const v.width 0
  | .null => .const 0 0
  | .op _ k args => k.den (Value.evals ρ args)

def Value.evals (ρ : Valuation) : List Value → List Bits
  | [] => []
  | v :: vs => v.eval ρ :: Value.evals ρ vs

end

mutual

/-- A value has the width of its type. -/
theorem Value.width_eval (ρ : Valuation) : ∀ v : Value, (v.eval ρ).width = v.width
  | .arg _ _ | .reg _ _ | .nsl _ | .null => rfl
  | .op _ k args => by
    simp only [Value.eval, Value.width, Value.ty]
    exact k.width_den (Value.widths_evals ρ args)

theorem Value.widths_evals (ρ : Valuation) :
    ∀ vs : List Value, (Value.evals ρ vs).map Bits.width = (Value.tys vs).map Ty.width
  | [] => rfl
  | v :: vs => by
    simp only [Value.evals, Value.tys, List.map_cons, List.cons.injEq]
    exact ⟨Value.width_eval ρ v, Value.widths_evals ρ vs⟩

end

/-! ## Values that are still open -/

mutual

/-- Whether `p` holds of one of the values, computed by no op, that the
value is computed from. -/
def Value.anyLeaf (p : Value → Bool) : Value → Bool
  | .arg name w => p (.arg name w)
  | .reg i w => p (.reg i w)
  | .nsl v => p (.nsl v)
  | .null => p .null
  | .op _ _ args => Value.anyLeafs p args

def Value.anyLeafs (p : Value → Bool) : List Value → Bool
  | [] => false
  | v :: vs => v.anyLeaf p || Value.anyLeafs p vs

end

theorem Value.anyLeafs_eq_any (p : Value → Bool) (vs : List Value) :
    Value.anyLeafs p vs = vs.any (Value.anyLeaf p) := by
  induction vs with
  | nil => rfl
  | cons v vs ih => simp [Value.anyLeafs, ih]

mutual

/-- The value when the uses of the `nsl` results are dropped. -/
def Value.dropUses : Value → Value
  | .nsl _ => .null
  | .op id k args => .op id k (Value.dropAllUses args)
  | v => v

def Value.dropAllUses : List Value → List Value
  | [] => []
  | v :: vs => v.dropUses :: Value.dropAllUses vs

end

namespace Value

def isNsl (q : Val → Bool) : Value → Bool
  | .nsl v => q v
  | _ => false

def isNull : Value → Bool
  | .null => true
  | _ => false

/-- An `nsl` result satisfying `q` is among the operands it is computed
from. -/
def mentions (q : Val → Bool) (v : Value) : Bool := v.anyLeaf (isNsl q)

/-- A null operand is among those it is computed from. -/
def hasNull (v : Value) : Bool := v.anyLeaf isNull

/-- Computed from an `nsl` result or a null operand. -/
def isOpen (v : Value) : Bool := v.anyLeaf fun u => isNsl (fun _ => true) u || u.isNull

end Value

mutual

/-- Dropping the uses leaves a null operand in every open value. -/
theorem Value.hasNull_dropUses : ∀ v : Value, v.dropUses.hasNull = v.isOpen
  | .arg _ _ | .reg _ _ | .nsl _ | .null => rfl
  | .op _ _ args => Value.anyNull_dropAllUses args

theorem Value.anyNull_dropAllUses : ∀ vs : List Value,
    Value.anyLeafs isNull (Value.dropAllUses vs) =
      Value.anyLeafs (fun u => isNsl (fun _ => true) u || u.isNull) vs
  | [] => rfl
  | v :: vs => by
    simp only [Value.dropAllUses, Value.anyLeafs]
    rw [Value.anyNull_dropAllUses vs]
    exact congrArg (· || _) (Value.hasNull_dropUses v)

end

mutual

/-- A closed value loses nothing. -/
theorem Value.dropUses_of_closed : ∀ v : Value, v.isOpen = false → v.dropUses = v
  | .arg _ _, _ | .reg _ _, _ | .null, _ => rfl
  | .nsl _, h => absurd h (by simp [Value.isOpen, Value.anyLeaf, Value.isNsl])
  | .op _ _ args, h => by
    simp only [Value.dropUses]
    rw [Value.dropAllUses_of_closed args h]

theorem Value.dropAllUses_of_closed : ∀ vs : List Value,
    Value.anyLeafs (fun u => isNsl (fun _ => true) u || u.isNull) vs = false →
      Value.dropAllUses vs = vs
  | [], _ => rfl
  | v :: vs, h => by
    simp only [Value.anyLeafs, Bool.or_eq_false_iff] at h
    simp only [Value.dropAllUses]
    rw [Value.dropUses_of_closed v h.1, Value.dropAllUses_of_closed vs h.2]

end

mutual

theorem Value.anyLeaf_mono {p q : Value → Bool} (h : ∀ u, p u = true → q u = true) :
    ∀ v : Value, v.anyLeaf p = true → v.anyLeaf q = true
  | .arg _ _, hv | .reg _ _, hv | .nsl _, hv | .null, hv => h _ hv
  | .op _ _ args, hv => Value.anyLeafs_mono h args hv

theorem Value.anyLeafs_mono {p q : Value → Bool} (h : ∀ u, p u = true → q u = true) :
    ∀ vs : List Value, Value.anyLeafs p vs = true → Value.anyLeafs q vs = true
  | [], hv => hv
  | v :: vs, hv => by
    simp only [Value.anyLeafs, Bool.or_eq_true] at hv ⊢
    exact hv.imp (Value.anyLeaf_mono h v) (Value.anyLeafs_mono h vs)

end

/-- A closed value mentions no `nsl` result. -/
theorem Value.mentions_of_closed {v : Value} (h : v.isOpen = false) (q : Val → Bool) :
    v.mentions q = false := by
  rw [← Bool.not_eq_true] at h ⊢
  refine fun hm => h (Value.anyLeaf_mono (fun u hu => ?_) v hm)
  cases u <;> simp_all [Value.isNsl]

/-- The value can be computed, and is `b`. -/
def Value.Denotes (ρ : Valuation) (x : Value) (b : Bits) : Prop :=
  x.hasNull = false ∧ x.eval ρ = b

end Circt

end Nslc
