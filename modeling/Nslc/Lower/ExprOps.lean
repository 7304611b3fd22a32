import Nslc.Lower.Module
/-!
# Expression ops — value, width and openness of what they become

`lowerBitOp_eval` is the specification of the lowering of one expression
op: on verified operands of the right widths the emitted ops compute the
op's own value. Emitting touches nothing but the body.
-/

namespace Nslc

namespace Lower

open Dialect Circt

variable {ctx ctx' ctx'' : Ctx} {ρ : Valuation} {w : ℕ} {e : Expr} {x : Value}

/-! ## Emitting -/

/-- The tables the walk keeps are the same. -/
structure SameTables (ctx ctx' : Ctx) : Prop where
  valueMap : ctx'.valueMap = ctx.valueMap
  outputPortValues : ctx'.outputPortValues = ctx.outputPortValues
  outputAssignments : ctx'.outputAssignments = ctx.outputAssignments
  regs : ctx'.regs = ctx.regs
  wires : ctx'.wires = ctx.wires

theorem SameTables.refl (ctx : Ctx) : SameTables ctx ctx := ⟨rfl, rfl, rfl, rfl, rfl⟩

theorem SameTables.trans (h : SameTables ctx ctx') (h' : SameTables ctx' ctx'') :
    SameTables ctx ctx'' :=
  ⟨h'.valueMap.trans h.valueMap, h'.outputPortValues.trans h.outputPortValues,
    h'.outputAssignments.trans h.outputAssignments, h'.regs.trans h.regs, h'.wires.trans h.wires⟩

theorem sameTables_emit (ctx : Ctx) (k : CombOp) (args : List Value) :
    SameTables ctx (ctx.emit k args).2 := ⟨rfl, rfl, rfl, rfl, rfl⟩

theorem sameTables_observe (ctx : Ctx) (vs : List Val) : SameTables ctx (ctx.observe vs) :=
  ⟨rfl, rfl, rfl, rfl, rfl⟩

theorem SameTables.lookupValue (h : SameTables ctx ctx') (v : Val) :
    ctx'.lookupValue v = ctx.lookupValue v := by
  simp only [Ctx.lookupValue, h.valueMap]

@[simp] theorem lookupValue_emit (ctx : Ctx) (k : CombOp) (args : List Value) (v : Val) :
    (ctx.emit k args).2.lookupValue v = ctx.lookupValue v := rfl

@[simp] theorem lookupValue_observe (ctx : Ctx) (vs : List Val) (v : Val) :
    (ctx.observe vs).lookupValue v = ctx.lookupValue v := rfl

theorem emit_fst (ctx : Ctx) (k : CombOp) (args : List Value) :
    (ctx.emit k args).1 = .op ctx.body.length k args := rfl

@[simp] theorem eval_emit (ctx : Ctx) (k : CombOp) (args : List Value) :
    ((ctx.emit k args).1).eval ρ = k.den (Value.evals ρ args) := rfl

@[simp] theorem anyLeaf_emit (ctx : Ctx) (k : CombOp) (args : List Value) (p : Value → Bool) :
    ((ctx.emit k args).1).anyLeaf p = Value.anyLeafs p args := rfl

@[simp] theorem width_emit (ctx : Ctx) (k : CombOp) (args : List Value) :
    ((ctx.emit k args).1).width = (k.ty (Value.tys args)).width := rfl

theorem evals_eq_map (ρ : Valuation) (vs : List Value) :
    Value.evals ρ vs = vs.map (Value.eval ρ) := by
  induction vs with
  | nil => rfl
  | cons v vs ih => simp [Value.evals, ih]

theorem eq_of_ok {r : Value × Ctx} (h : (Except.ok r : Except LowerError _) = .ok (x, ctx')) :
    x = r.1 ∧ ctx' = r.2 := by
  obtain rfl := Except.ok.inj h
  exact ⟨rfl, rfl⟩

/-! ## Expression ops -/

/-- The operands have the widths of the results they stand for. -/
def OperandsTyped (ctx : Ctx) (vs : List Val) : Prop :=
  ∀ v ∈ vs, (ctx.lookupValue v).width = v.width

/-- What is known of the value `x` an expression op becomes. -/
structure Lowered (ctx : Ctx) (w : ℕ) (e : Expr) (x : Value) (ctx' : Ctx) : Prop where
  tables : SameTables ctx ctx'
  leaves : ∀ p, x.anyLeaf p = (e.operands.map ctx.lookupValue).any (Value.anyLeaf p)
  eval : e.verify w = true → OperandsTyped ctx e.operands → ∀ ρ : Valuation,
    x.eval ρ = e.den w (e.operands.map fun v => (ctx.lookupValue v).eval ρ)

/-- An op of one `comb` op on its operands. -/
theorem lowered_emit {k : CombOp}
    (hden : e.verify w = true → OperandsTyped ctx e.operands → ∀ ρ : Valuation,
      k.den (e.operands.map fun v => (ctx.lookupValue v).eval ρ) =
        e.den w (e.operands.map fun v => (ctx.lookupValue v).eval ρ)) :
    Lowered ctx w e (ctx.emit k (e.operands.map ctx.lookupValue)).1
      (ctx.emit k (e.operands.map ctx.lookupValue)).2 where
  tables := sameTables_emit _ _ _
  leaves := fun p => by rw [anyLeaf_emit, Value.anyLeafs_eq_any]
  eval := fun hv ht ρ => by
    rw [eval_emit, evals_eq_map, List.map_map]
    exact hden hv ht ρ

/-- On one bit the logical operators are the bitwise ones. -/
theorem den_arithOpFor {k : BinOp} {x y : Bits} (hxy : x.width = y.width)
    (h1 : k = .land ∨ k = .lor → x.width = 1) : (arithOpFor k).den [x, y] = k.den x y := by
  have hlogic : x.width = 1 → ∃ a b, x = .ofBool a ∧ y = .ofBool b := fun hx =>
    ⟨_, _, Bits.eq_ofBool hx, Bits.eq_ofBool (hxy ▸ hx)⟩
  cases k with
  | land =>
    obtain ⟨a, b, rfl, rfl⟩ := hlogic (h1 (.inl rfl))
    cases a <;> cases b <;> rfl
  | lor =>
    obtain ⟨a, b, rfl, rfl⟩ := hlogic (h1 (.inr rfl))
    cases a <;> cases b <;> rfl
  | _ => rfl

theorem lowered_bin (ctx : Ctx) (w : ℕ) (k : BinOp) (a b : Val) :
    Lowered ctx w (.bin k a b) (lowerArithOp ctx k a b).1 (lowerArithOp ctx k a b).2 := by
  refine lowered_emit fun hv ht ρ => ?_
  have ha := ht a (by simp [Expr.operands])
  have hb := ht b (by simp [Expr.operands])
  simp only [Expr.verify, BinOp.verify, Bool.and_eq_true, beq_iff_eq] at hv
  refine den_arithOpFor ?_ ?_
  · rw [Value.width_eval, Value.width_eval, ha, hb]
    exact hv.1.1
  · intro hk
    rw [Value.width_eval, ha]
    rcases hk with rfl | rfl <;> exact of_decide_eq_true hv.2

theorem lowered_un (ctx : Ctx) (w : ℕ) (k : UnOp) (a : Val) :
    Lowered ctx w (.un k a) (lowerUnary ctx k (ctx.lookupValue a)).1
      (lowerUnary ctx k (ctx.lookupValue a)).2 := by
  -- a constant is emitted in front of the op, except for the parity
  have hlow : ∀ (c k' : CombOp) (args : List Value),
      (∀ p, Value.anyLeafs p args = (ctx.lookupValue a).anyLeaf p) →
      (∀ ρ, k'.den (Value.evals ρ args) = k.den ((ctx.lookupValue a).eval ρ)) →
      Lowered ctx w (.un k a) ((ctx.emit c []).2.emit k' args).1
        ((ctx.emit c []).2.emit k' args).2 := by
    intro c k' args hleaf hden
    refine ⟨(sameTables_emit _ _ _).trans (sameTables_emit _ _ _), fun p => ?_, fun _ _ ρ => ?_⟩
    · simp [Expr.operands, hleaf]
    · exact hden ρ
  have hwidth : ∀ ρ, ((ctx.lookupValue a).eval ρ).width = (ctx.lookupValue a).width :=
    fun ρ => Value.width_eval ρ _
  cases k with
  | reduceXor => exact lowered_emit fun _ _ ρ => rfl
  | not =>
    refine hlow _ _ _ (fun p => by simp [Value.anyLeafs]) fun ρ => ?_
    have := Bits.not_eq_xor_ones ((ctx.lookupValue a).eval ρ)
    rw [hwidth ρ] at this
    exact this
  | neg =>
    refine hlow _ _ _ (fun p => by simp [Value.anyLeafs]) fun ρ => ?_
    have := Bits.neg_eq_zero_sub ((ctx.lookupValue a).eval ρ)
    rw [hwidth ρ] at this
    exact this
  | lnot =>
    refine hlow _ _ _ (fun p => by simp [Value.anyLeafs]) fun ρ => ?_
    have := Bits.eq_zero_test ((ctx.lookupValue a).eval ρ)
    rw [hwidth ρ] at this
    exact this
  | reduceAnd =>
    refine hlow _ _ _ (fun p => by simp [Value.anyLeafs]) fun ρ => ?_
    have := Bits.eq_ones_test ((ctx.lookupValue a).eval ρ)
    rw [hwidth ρ] at this
    exact this
  | reduceOr =>
    refine hlow _ _ _ (fun p => by simp [Value.anyLeafs]) fun ρ => ?_
    have := Bits.ne_zero_test ((ctx.lookupValue a).eval ρ)
    rw [hwidth ρ, Bits.isTrue_eq_anySet] at this
    exact this

theorem lowered_signExtend {a : Val} (h : lowerBitOp ctx w (.signExtend a) = .ok (x, ctx')) :
    Lowered ctx w (.signExtend a) x ctx' := by
  simp only [lowerBitOp] at h
  split at h
  · split at h
    · rename_i hw
      obtain ⟨hx, hctx⟩ := eq_of_ok h
      rw [hx, hctx]
      refine ⟨.refl _, fun p => by simp [Expr.operands], fun _ _ ρ => ?_⟩
      simp only [Expr.operands, List.map_cons, List.map_nil, Expr.den]
      have := Bits.signExtend_width ((ctx.lookupValue a).eval ρ)
      rw [Value.width_eval, ← hw] at this
      exact this.symm
    · rename_i hne
      obtain ⟨rfl, rfl⟩ := eq_of_ok h
      refine ⟨(sameTables_emit _ _ _).trans ((sameTables_emit _ _ _).trans (sameTables_emit _ _ _)),
        fun p => by simp [Expr.operands, Value.anyLeafs], fun hv ht ρ => ?_⟩
      have ha := ht a (by simp [Expr.operands])
      simp only [Expr.verify, decide_eq_true_eq] at hv
      generalize hb : (ctx.lookupValue a).eval ρ = b
      have hbw : b.width = (ctx.lookupValue a).width := by rw [← hb, Value.width_eval]
      have hlt : b.width < w := by omega
      have hpad : ((b.extract (b.width - 1) 1).replicate (w - b.width)).width = w - b.width := by
        simp
      simp only [Value.evals, eval_emit, hb, CombOp.den, Expr.operands, List.map_cons, List.map_nil,
        Expr.den, ← hbw, Bits.width_extract, Nat.div_one]
      rw [Bits.concat_pair, Bits.zeroExtend_eq hpad, Bits.append_replicate_msb hlt]
      exact Bits.zeroExtend_eq rfl
  · exact absurd h (by simp)

theorem lowered_zeroExtend {a : Val} (h : lowerBitOp ctx w (.zeroExtend a) = .ok (x, ctx')) :
    Lowered ctx w (.zeroExtend a) x ctx' := by
  simp only [lowerBitOp] at h
  split at h
  · split at h
    · rename_i hw
      obtain ⟨hx, hctx⟩ := eq_of_ok h
      rw [hx, hctx]
      refine ⟨.refl _, fun p => by simp [Expr.operands], fun _ _ ρ => ?_⟩
      have hbw := Value.width_eval ρ (ctx.lookupValue a)
      rw [← hw] at hbw
      exact (Bits.zeroExtend_eq hbw).symm
    · rename_i hne
      obtain ⟨rfl, rfl⟩ := eq_of_ok h
      refine ⟨(sameTables_emit _ _ _).trans (sameTables_emit _ _ _),
        fun p => by simp [Expr.operands, Value.anyLeafs], fun hv ht ρ => ?_⟩
      have ha := ht a (by simp [Expr.operands])
      simp only [Expr.verify, decide_eq_true_eq] at hv
      generalize hb : (ctx.lookupValue a).eval ρ = b
      have hbw : b.width = (ctx.lookupValue a).width := by rw [← hb, Value.width_eval]
      have hlt : b.width < w := by omega
      simp only [Value.evals, eval_emit, hb, CombOp.den, Expr.operands, List.map_cons, List.map_nil,
        Expr.den, ← hbw]
      rw [Bits.concat_pair, Bits.append_zeros hlt]
      exact Bits.zeroExtend_eq rfl
  · exact absurd h (by simp)

theorem widths_of_typed (ρ : Valuation) {vs : List Val} (h : OperandsTyped ctx vs) :
    (vs.map fun v => (ctx.lookupValue v).eval ρ).map Bits.width = vs.map Val.width := by
  rw [List.map_map]
  refine List.map_congr_left fun v hv => ?_
  rw [Function.comp_apply, Value.width_eval]
  exact h v hv

theorem lowered_repeat {a : Val} {n : ℕ} (h : lowerBitOp ctx w (.repeat a n) = .ok (x, ctx')) :
    Lowered ctx w (.repeat a n) x ctx' := by
  simp only [lowerBitOp] at h
  split at h
  · obtain ⟨rfl, rfl⟩ := eq_of_ok h
    refine lowered_emit fun hv ht ρ => ?_
    have ha := ht a (by simp [Expr.operands])
    generalize hb : (ctx.lookupValue a).eval ρ = b
    have hbw : b.width = (ctx.lookupValue a).width := by rw [← hb, Value.width_eval]
    simp only [CombOp.den, Expr.operands, List.map_cons, List.map_nil, hb, ← hbw, Expr.den]
    rcases Nat.eq_zero_or_pos b.width with h0 | hpos
    · exact Bits.eq_of_width_zero (by simp [h0]) (by simp [h0])
    · rw [Nat.mul_div_cancel_left n hpos]
      exact Bits.zeroExtend_eq rfl
  · exact absurd h (by simp)

/-- **What an expression op becomes.** -/
theorem lowerBitOp_lowered (h : lowerBitOp ctx w e = .ok (x, ctx')) : Lowered ctx w e x ctx' := by
  cases e with
  | constant value =>
    obtain ⟨rfl, rfl⟩ := eq_of_ok h
    exact lowered_emit fun _ _ _ => rfl
  | bin k a b =>
    obtain ⟨rfl, rfl⟩ := eq_of_ok h
    exact lowered_bin ctx w k a b
  | un k a =>
    simp only [lowerBitOp] at h
    split at h
    · obtain ⟨rfl, rfl⟩ := eq_of_ok h
      exact lowered_un ctx w k a
    · exact absurd h (by simp)
  | signExtend a => exact lowered_signExtend h
  | zeroExtend a => exact lowered_zeroExtend h
  | mux c t f =>
    obtain ⟨rfl, rfl⟩ := eq_of_ok h
    refine lowered_emit fun hv ht ρ => ?_
    have ht' := ht t (by simp [Expr.operands])
    have hf' := ht f (by simp [Expr.operands])
    simp only [Expr.verify, Bool.and_eq_true, beq_iff_eq] at hv
    refine Bits.mux_eq ?_
    rw [Value.width_eval, Value.width_eval, ht', hf', hv.1.2]
  | concat vs =>
    obtain ⟨rfl, rfl⟩ := eq_of_ok h
    refine lowered_emit fun hv ht ρ => ?_
    simp only [Expr.verify, Bool.and_eq_true, beq_iff_eq] at hv
    refine Bits.zeroExtend_eq ?_
    rw [Bits.width_concat, widths_of_typed ρ ht]
    exact hv.2
  | extract a low =>
    obtain ⟨rfl, rfl⟩ := eq_of_ok h
    exact lowered_emit fun _ _ _ => rfl
  | «repeat» a n => exact lowered_repeat h

/-! ## Widths -/

theorem width_binDen {k : BinOp} {w : ℕ} {x y : Bits} (h : k.verify w x.width y.width = true) :
    (k.den x y).width = w := by
  simp only [BinOp.verify, Bool.and_eq_true] at h
  cases k <;> simp_all [BinOp.isPredicate, BinOp.den]

theorem width_unDen {k : UnOp} {w : ℕ} {x : Bits} (h : k.verify w x.width = true) :
    (k.den x).width = w := by
  cases k <;> simp_all [UnOp.verify, UnOp.den]

/-- A verified expression op has its result's width. -/
theorem width_exprDen {xs : List Bits} (hv : e.verify w = true)
    (hw : xs.map Bits.width = e.operands.map Val.width) : (e.den w xs).width = w := by
  cases e with
  | constant value => rfl
  | bin k a b =>
    obtain ⟨x, y, rfl⟩ := List.length_eq_two.1 (by simpa [Expr.operands] using congrArg List.length hw)
    simp only [Expr.operands, List.map_cons, List.map_nil, List.cons.injEq, and_true] at hw
    exact width_binDen (by rw [hw.1, hw.2]; exact hv)
  | un k a =>
    obtain ⟨x, rfl⟩ := List.length_eq_one_iff.1 (by simpa [Expr.operands] using congrArg List.length hw)
    simp only [Expr.operands, List.map_cons, List.map_nil, List.cons.injEq, and_true] at hw
    exact width_unDen (by rw [hw]; exact hv)
  | signExtend a =>
    obtain ⟨x, rfl⟩ := List.length_eq_one_iff.1 (by simpa [Expr.operands] using congrArg List.length hw)
    rfl
  | zeroExtend a =>
    obtain ⟨x, rfl⟩ := List.length_eq_one_iff.1 (by simpa [Expr.operands] using congrArg List.length hw)
    rfl
  | mux c t f =>
    obtain ⟨x, y, z, rfl⟩ :=
      List.length_eq_three.1 (by simpa [Expr.operands] using congrArg List.length hw)
    simp only [Expr.operands, List.map_cons, List.map_nil, List.cons.injEq, and_true] at hw
    simp only [Expr.verify, Bool.and_eq_true, beq_iff_eq] at hv
    simp only [Expr.den]
    split
    · rw [hw.2.1, hv.2]
    · rw [hw.2.2, hv.2, hv.1.2]
  | concat vs =>
    simp only [Expr.verify, Bool.and_eq_true, beq_iff_eq] at hv
    simp only [Expr.operands] at hw
    simp [Expr.den, hw, hv.2]
  | extract a low =>
    obtain ⟨x, rfl⟩ := List.length_eq_one_iff.1 (by simpa [Expr.operands] using congrArg List.length hw)
    rfl
  | «repeat» a n =>
    obtain ⟨x, rfl⟩ := List.length_eq_one_iff.1 (by simpa [Expr.operands] using congrArg List.length hw)
    simp only [Expr.operands, List.map_cons, List.map_nil, List.cons.injEq, and_true] at hw
    simp only [Expr.verify, Bool.and_eq_true, beq_iff_eq] at hv
    simp [Expr.den, hw, hv.2]

/-- What an expression op becomes has its result's width. -/
theorem Lowered.width (h : Lowered ctx w e x ctx') (hv : e.verify w = true)
    (ht : OperandsTyped ctx e.operands) : x.width = w := by
  have ρ : Valuation := ⟨fun _ _ => 0, fun _ _ => 0⟩
  rw [← Value.width_eval ρ, h.eval hv ht]
  exact width_exprDen hv (widths_of_typed ρ ht)

end Lower

end Nslc
