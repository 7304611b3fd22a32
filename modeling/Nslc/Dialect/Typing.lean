import Nslc.Dialect.Circt
/-!
# Typed CIRCT values

What the verifiers of the `comb` and `hw` dialects ask of one op: the
operand widths agree, the condition of a mux is one bit, extraction and
replication stay within their operand. A value is typed if every op it is
computed by is, and nothing in it is an `nsl` result or a null operand.
-/

namespace Nslc

namespace Circt

open Dialect (Val)

/-- The verifier of one op on operands of the given types. -/
@[grind =] def CombOp.verify : CombOp → List Ty → Bool
  | constant _ _, [] | allOnes _, [] => true
  | add, [t, u] | sub, [t, u] | mul, [t, u] | and, [t, u] | or, [t, u] | xor, [t, u]
  | shl, [t, u] | shrU, [t, u] | icmp _, [t, u] => t.width == u.width
  | parity, [_] | wire _, [_] => true
  | extract lowBit w, [t] => lowBit + w ≤ t.width
  | replicate w, [t] => w % t.width == 0
  | concat w, ts => (ts.map Ty.width).sum == w
  | mux, [c, t, u] => c.width == 1 && t.width == u.width
  | _, _ => false

mutual

def Value.typed : Value → Bool
  | .arg _ _ | .reg _ _ => true
  | .nsl _ | .null => false
  | .op _ k args => k.verify (Value.tys args) && Value.allTyped args

def Value.allTyped : List Value → Bool
  | [] => true
  | v :: vs => v.typed && Value.allTyped vs

end

theorem Value.allTyped_iff {vs : List Value} :
    Value.allTyped vs = true ↔ ∀ v ∈ vs, v.typed = true := by
  induction vs with
  | nil => simp [Value.allTyped]
  | cons v vs ih => simp [Value.allTyped, ih]

theorem Value.tys_eq_map (vs : List Value) : Value.tys vs = vs.map Value.ty := by
  induction vs with
  | nil => rfl
  | cons v vs ih => simp [Value.tys, ih]

theorem Value.typed_op {i : ℕ} {k : CombOp} {args : List Value} :
    (Value.op i k args).typed = true ↔
      k.verify (args.map Value.ty) = true ∧ ∀ v ∈ args, v.typed = true := by
  rw [Value.typed, Bool.and_eq_true, Value.tys_eq_map, Value.allTyped_iff]

mutual

/-- A typed value is closed. -/
theorem Value.isOpen_of_typed : ∀ v : Value, v.typed = true → v.isOpen = false
  | .arg _ _, _ | .reg _ _, _ => rfl
  | .nsl _, h | .null, h => by simp [Value.typed] at h
  | .op _ k args, h => by
    rw [Value.typed, Bool.and_eq_true] at h
    exact Value.anyLeafs_of_typed args h.2

theorem Value.anyLeafs_of_typed : ∀ vs : List Value, Value.allTyped vs = true →
    Value.anyLeafs (fun u => isNsl (fun _ => true) u || u.isNull) vs = false
  | [], _ => rfl
  | v :: vs, h => by
    rw [Value.allTyped, Bool.and_eq_true] at h
    rw [Value.anyLeafs, Bool.or_eq_false_iff]
    exact ⟨Value.isOpen_of_typed v h.1, Value.anyLeafs_of_typed vs h.2⟩

end

mutual

/-- Dropping uses types nothing. -/
theorem Value.typed_of_dropUses : ∀ v : Value, v.dropUses.typed = true → v.typed = true
  | .arg _ _, _ | .reg _ _, _ => rfl
  | .nsl _, h | .null, h => by simp [Value.dropUses, Value.typed] at h
  | .op _ k args, h => by
    rw [Value.dropUses, Value.typed, Bool.and_eq_true] at h
    have hargs := Value.allTyped_of_dropAllUses args h.2
    rw [Value.dropAllUses_of_closed args (Value.anyLeafs_of_typed args hargs)] at h
    rw [Value.typed, Bool.and_eq_true]
    exact h

theorem Value.allTyped_of_dropAllUses : ∀ vs : List Value,
    Value.allTyped (Value.dropAllUses vs) = true → Value.allTyped vs = true
  | [], _ => rfl
  | v :: vs, h => by
    rw [Value.dropAllUses, Value.allTyped, Bool.and_eq_true] at h
    rw [Value.allTyped, Bool.and_eq_true]
    exact ⟨Value.typed_of_dropUses v h.1, Value.allTyped_of_dropAllUses vs h.2⟩

end

/-- A typed value loses nothing with the `nsl` ops. -/
theorem Value.dropUses_of_typed {v : Value} (h : v.typed = true) : v.dropUses = v :=
  Value.dropUses_of_closed v (Value.isOpen_of_typed v h)

end Circt

end Nslc
