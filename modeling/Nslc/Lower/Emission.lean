import Nslc.Dialect.Typing
import Nslc.Lower.Progress
import Nslc.Lower.Flow
/-!
# Emitting ops

The body of the module under construction only grows, so an op that is
not typed stays. An expression op over typed operands of the right widths
becomes typed ops; over an operand without a value it fails, or emits an
op that is not typed.
-/

namespace Nslc

namespace Lower

open Dialect Circt

variable {ctx ctx' ctx'' : Ctx} {gate covered : Option Value} {x c g : Value}

/-! ## The body only grows -/

def Grows (ctx ctx' : Ctx) : Prop := ctx.body <+: ctx'.body

theorem Grows.refl (ctx : Ctx) : Grows ctx ctx := List.prefix_refl _

theorem Grows.trans (h : Grows ctx ctx') (h' : Grows ctx' ctx'') : Grows ctx ctx'' :=
  List.IsPrefix.trans h h'

theorem grows_emit (ctx : Ctx) (k : CombOp) (args : List Value) : Grows ctx (ctx.emit k args).2 :=
  List.prefix_append _ _

theorem grows_andConds (ctx : Ctx) (gate : Option Value) (x : Value) :
    Grows ctx (andConds ctx gate x).2 := by
  cases gate with
  | none => exact .refl ctx
  | some g => exact grows_emit _ _ _

theorem grows_gatedWrite (ctx : Ctx) (gate : Option Value) (x : Value) (prev : Option Value)
    (w : ℕ) : Grows ctx (gatedWrite ctx gate x prev w).2 := by
  cases gate with
  | none => exact .refl ctx
  | some g =>
    cases prev with
    | none => exact (grows_emit _ _ _).trans (grows_emit _ _ _)
    | some p => exact grows_emit _ _ _

theorem grows_lowerUnary (ctx : Ctx) (k : UnOp) (a : Value) :
    Grows ctx (lowerUnary ctx k a).2 := by
  cases k <;> first | exact grows_emit _ _ _ | exact (grows_emit _ _ _).trans (grows_emit _ _ _)

theorem grows_lowerBitOp {w : ℕ} {e : Expr} (h : lowerBitOp ctx w e = .ok (x, ctx')) :
    Grows ctx ctx' := by
  cases e with
  | un k a =>
    simp only [lowerBitOp] at h
    split at h
    · obtain ⟨-, rfl⟩ := eq_of_ok h
      exact grows_lowerUnary _ _ _
    · cases h
  | signExtend a =>
    simp only [lowerBitOp] at h
    split at h
    · split at h
      · obtain ⟨-, rfl⟩ := eq_of_ok h
        exact .refl _
      · obtain ⟨-, rfl⟩ := eq_of_ok h
        exact (grows_emit _ _ _).trans ((grows_emit _ _ _).trans (grows_emit _ _ _))
    · cases h
  | zeroExtend a =>
    simp only [lowerBitOp] at h
    split at h
    · split at h
      · obtain ⟨-, rfl⟩ := eq_of_ok h
        exact .refl _
      · obtain ⟨-, rfl⟩ := eq_of_ok h
        exact (grows_emit _ _ _).trans (grows_emit _ _ _)
    · cases h
  | «repeat» a n =>
    simp only [lowerBitOp] at h
    split at h
    · obtain ⟨-, rfl⟩ := eq_of_ok h
      exact grows_emit _ _ _
    · cases h
  | _ =>
    obtain ⟨-, rfl⟩ := eq_of_ok h
    exact grows_emit _ _ _

theorem grows_lowerExprOp {res : Val} {e : Expr} (h : lowerExprOp ctx res e = .ok ctx') :
    Grows ctx ctx' := by
  obtain ⟨⟨x, mid⟩, hlow, hout⟩ := bind_eq_ok h
  obtain rfl := Except.ok.inj hout
  exact Grows.trans (grows_lowerBitOp hlow) (List.prefix_refl _)

theorem grows_lowerTransferOp {dst src : Val} (h : lowerTransferOp ctx dst src gate = .ok ctx') :
    Grows ctx ctx' := by
  simp only [lowerTransferOp] at h
  split at h
  · split at h
    · cases h
    · obtain rfl := Except.ok.inj h
      exact grows_gatedWrite _ _ _ _ _
  · split at h
    · cases h
    · obtain rfl := Except.ok.inj h
      exact grows_gatedWrite _ _ _ _ _

theorem grows_lowerClockedTransferOp {dst src : Val}
    (h : lowerClockedTransferOp ctx dst src gate = .ok ctx') : Grows ctx ctx' := by
  simp only [lowerClockedTransferOp] at h
  split at h
  · cases h
  · obtain rfl := Except.ok.inj h
    exact grows_gatedWrite _ _ _ _ _

theorem grows_ifGates {r : Value × Value × Ctx} (h : ifGates ctx c gate = .ok r) :
    Grows ctx r.2.2 := by
  simp only [ifGates] at h
  split at h
  · obtain rfl := Except.ok.inj h
    exact (grows_andConds _ _ _).trans
      ((grows_emit _ _ _).trans ((grows_emit _ _ _).trans (grows_andConds _ _ _)))
  · cases h

theorem grows_notCovered (ctx : Ctx) (c : Value) : Grows ctx (notCovered ctx c).2 :=
  (grows_emit _ _ _).trans (grows_emit _ _ _)

theorem grows_caseGate (ctx : Ctx) (c : Value) (gate covered : Option Value) :
    Grows ctx (caseGate ctx c gate covered).2 := by
  cases covered with
  | none => exact (grows_emit _ _ _).trans ((grows_emit _ _ _).trans (grows_andConds _ _ _))
  | some k =>
    exact (grows_notCovered _ _).trans ((grows_emit _ _ _).trans (grows_andConds _ _ _))

theorem grows_coverCase (ctx : Ctx) (c : Value) (covered : Option Value) :
    Grows ctx (coverCase ctx c covered).2 := by
  cases covered with
  | none => exact .refl ctx
  | some k => exact grows_emit _ _ _

theorem grows_defaultGate (ctx : Ctx) (gate covered : Option Value) :
    Grows ctx (defaultGate ctx gate covered).2 := by
  cases covered with
  | none => exact .refl ctx
  | some k => exact (grows_notCovered _ _).trans (grows_andConds _ _ _)

theorem grows_accumulateAny {target src : Val} {b : Bool} {accums : List AnyTargetAccum}
    {r : Ctx × List AnyTargetAccum} (h : accumulateAny ctx target src b c accums = .ok r) :
    Grows ctx r.1 := by
  simp only [accumulateAny] at h
  split at h
  · split at h
    · obtain rfl := Except.ok.inj h
      exact (grows_emit _ _ _).trans (grows_emit _ _ _)
    · obtain rfl := Except.ok.inj h
      exact (grows_emit _ _ _).trans ((grows_emit _ _ _).trans (grows_emit _ _ _))
  · cases h

theorem grows_joinPrior (ctx : Ctx) (prior : Option Value) (x : Value) :
    Grows ctx (joinPrior ctx prior x).2 := by
  cases prior with
  | none => exact .refl ctx
  | some p => exact grows_emit _ _ _

theorem grows_applyAccum {a : AnyTargetAccum} (h : applyAccum ctx a = .ok ctx') :
    Grows ctx ctx' := by
  simp only [applyAccum] at h
  split at h
  · split at h
    · cases h
    · obtain rfl := Except.ok.inj h
      exact grows_emit _ _ _
  · split at h
    · obtain rfl := Except.ok.inj h
      exact grows_joinPrior _ _ _
    · split at h
      · cases h
      · obtain rfl := Except.ok.inj h
        exact grows_joinPrior _ _ _

/-- A fold of steps that grow the body. -/
theorem grows_foldlM {α : Type} {f : Ctx → α → Except LowerError Ctx}
    (hf : ∀ ctx a ctx', f ctx a = .ok ctx' → Grows ctx ctx') (as : List α) {ctx : Ctx}
    (h : as.foldlM f ctx = .ok ctx') : Grows ctx ctx' := by
  induction as generalizing ctx with
  | nil =>
    obtain rfl := Except.ok.inj h
    exact .refl _
  | cons a as ih =>
    rw [List.foldlM_cons] at h
    obtain ⟨mid, ha, hrest⟩ := bind_eq_ok h
    exact (hf ctx a mid ha).trans (ih hrest)

theorem grows_lowerCallOp (ctx : Ctx) (callee : String) (gate : Option Value) :
    Grows ctx (lowerCallOp ctx callee gate) := by
  cases gate with
  | none => exact (grows_emit _ _ _).trans (grows_emit _ _ _)
  | some g => exact grows_emit _ _ _

/-! The walk, with what a step returns taken apart. -/

theorem lowerControlOp_ifOp (cond : Val) (thenRegion elseRegion : List Op) (ctx : Ctx)
    (gate : Option Value) :
    lowerControlOp (.ifOp cond thenRegion elseRegion) ctx gate =
      ifGates (ctx.observe [cond]) (ctx.lookupValue cond) gate >>= fun r =>
        lowerControlOps thenRegion r.2.2 (some r.1) >>= fun ctx =>
          lowerControlOps elseRegion ctx (some r.2.1) := by
  rw [lowerControlOp]
  rfl

theorem lowerControlOp_any (body : List Op) (ctx : Ctx) (gate : Option Value) :
    lowerControlOp (.any body) ctx gate =
      lowerAnyChildren body ctx gate none [] >>= fun r => r.2.foldlM applyAccum r.1 := by
  rw [lowerControlOp]

theorem lowerAltChildren_case (cond : Val) (body children : List Op) (ctx : Ctx)
    (gate covered : Option Value) :
    lowerAltChildren (.case cond body :: children) ctx gate covered =
      lowerControlOps body
          (caseGate (ctx.observe [cond]) (ctx.lookupValue cond) gate covered).2
          (some (caseGate (ctx.observe [cond]) (ctx.lookupValue cond) gate covered).1) >>=
        fun ctx' => lowerAltChildren children (coverCase ctx' (ctx.lookupValue cond) covered).2 gate
          (some (coverCase ctx' (ctx.lookupValue cond) covered).1) := by
  rw [lowerAltChildren]
  rfl

theorem lowerAltChildren_default (body children : List Op) (ctx : Ctx)
    (gate covered : Option Value) :
    lowerAltChildren (.default body :: children) ctx gate covered =
      lowerControlOps body (defaultGate ctx gate covered).2 (defaultGate ctx gate covered).1 >>=
        fun ctx => lowerAltChildren children ctx gate covered := by
  rw [lowerAltChildren]

theorem lowerAnyChildren_case (cond : Val) (body children : List Op) (ctx : Ctx)
    (gate one : Option Value) (accums : List AnyTargetAccum) :
    lowerAnyChildren (.case cond body :: children) ctx gate one accums =
      accumulateAnyCaseBody body (andConds (ctx.observe [cond]) gate (ctx.lookupValue cond)).2
          (andConds (ctx.observe [cond]) gate (ctx.lookupValue cond)).1 accums >>= fun r =>
        lowerAnyChildren children r.1 gate one r.2 := by
  rw [lowerAnyChildren]
  rfl

/-- The gate of a default of `nsl.any`. -/
def anyDefaultGate (ctx : Ctx) (gate one : Option Value) : Value × Ctx :=
  match gate.or one with
  | some g => (g, ctx)
  | none => ctx.emit (.constant 1 1) []

theorem lowerAnyChildren_default (body children : List Op) (ctx : Ctx)
    (gate one : Option Value) (accums : List AnyTargetAccum) :
    lowerAnyChildren (.default body :: children) ctx gate one accums =
      accumulateAnyCaseBody body (anyDefaultGate ctx gate one).2 (anyDefaultGate ctx gate one).1
          accums >>= fun r =>
        lowerAnyChildren children r.1 gate
          (if gate.isSome then one else some (anyDefaultGate ctx gate one).1) r.2 := by
  rw [lowerAnyChildren]
  rfl

theorem grows_anyDefaultGate (ctx : Ctx) (gate one : Option Value) :
    Grows ctx (anyDefaultGate ctx gate one).2 := by
  unfold anyDefaultGate
  split
  · exact .refl _
  · exact grows_emit _ _ _

theorem accumulateAnyCaseBody_transfer (dst src : Val) (ops : List Op) (ctx : Ctx) (c : Value)
    (accums : List AnyTargetAccum) :
    accumulateAnyCaseBody (.transfer dst src :: ops) ctx c accums =
      accumulateAny (ctx.observe [src]) dst src false c accums >>= fun r =>
        accumulateAnyCaseBody ops r.1 c r.2 := by
  rw [accumulateAnyCaseBody]

theorem accumulateAnyCaseBody_clockedTransfer (dst src : Val) (ops : List Op) (ctx : Ctx)
    (c : Value) (accums : List AnyTargetAccum) :
    accumulateAnyCaseBody (.clockedTransfer dst src :: ops) ctx c accums =
      accumulateAny (ctx.observe [src]) dst src true c accums >>= fun r =>
        accumulateAnyCaseBody ops r.1 c r.2 := by
  rw [accumulateAnyCaseBody]

mutual

/-- **Nothing emitted is ever taken back.** -/
theorem grows_lowerControlOp (op : Op) {ctx ctx' : Ctx} {gate : Option Value}
    (h : lowerControlOp op ctx gate = .ok ctx') : Grows ctx ctx' := by
  cases op with
  | expr res e =>
    rw [lowerControlOp] at h
    show Grows (ctx.observe e.operands) ctx'
    exact grows_lowerExprOp h
  | transfer dst src =>
    rw [lowerControlOp] at h
    show Grows (ctx.observe [src]) ctx'
    exact grows_lowerTransferOp h
  | clockedTransfer dst src =>
    rw [lowerControlOp] at h
    show Grows (ctx.observe [src]) ctx'
    exact grows_lowerClockedTransferOp h
  | ifOp cond thenRegion elseRegion =>
    rw [lowerControlOp_ifOp] at h
    obtain ⟨r, hgates, hrest⟩ := bind_eq_ok h
    obtain ⟨mid, hthen, helse⟩ := bind_eq_ok hrest
    show Grows (ctx.observe [cond]) ctx'
    exact (grows_ifGates hgates).trans ((grows_lowerControlOps thenRegion hthen).trans
      (grows_lowerControlOps elseRegion helse))
  | alt body =>
    rw [lowerControlOp] at h
    exact grows_lowerAltChildren body h
  | any body =>
    rw [lowerControlOp_any] at h
    obtain ⟨r, hbody, hrest⟩ := bind_eq_ok h
    exact (grows_lowerAnyChildren body hbody).trans
      (grows_foldlM (fun _ _ _ => grows_applyAccum) r.2 hrest)
  | call callee =>
    rw [lowerControlOp] at h
    obtain rfl := Except.ok.inj h
    exact grows_lowerCallOp ctx callee gate
  | parallel body =>
    rw [lowerControlOp] at h
    exact grows_lowerControlOps body h
  | func name body =>
    rw [lowerControlOp] at h
    exact grows_lowerControlOps body h
  | case cond body => simp [lowerControlOp] at h
  | default body => simp [lowerControlOp] at h
  | seq body => simp [lowerControlOp] at h
  | other mnemonic => simp [lowerControlOp] at h
  | _ =>
    simp only [lowerControlOp, Except.ok.injEq] at h
    exact h ▸ .refl _

theorem grows_lowerControlOps (ops : List Op) {ctx ctx' : Ctx} {gate : Option Value}
    (h : lowerControlOps ops ctx gate = .ok ctx') : Grows ctx ctx' := by
  cases ops with
  | nil =>
    rw [lowerControlOps] at h
    obtain rfl := Except.ok.inj h
    exact .refl _
  | cons op ops =>
    rw [lowerControlOps] at h
    obtain ⟨mid, hop, hrest⟩ := bind_eq_ok h
    exact (grows_lowerControlOp op hop).trans (grows_lowerControlOps ops hrest)

theorem grows_lowerAltChildren (children : List Op) {ctx ctx' : Ctx}
    {gate covered : Option Value} (h : lowerAltChildren children ctx gate covered = .ok ctx') :
    Grows ctx ctx' := by
  cases children with
  | nil =>
    rw [lowerAltChildren] at h
    obtain rfl := Except.ok.inj h
    exact .refl _
  | cons child children =>
    cases child with
    | case cond body =>
      rw [lowerAltChildren_case] at h
      obtain ⟨mid, hbody, hrest⟩ := bind_eq_ok h
      have hg : Grows ctx (caseGate (ctx.observe [cond]) (ctx.lookupValue cond) gate covered).2 :=
        grows_caseGate (ctx.observe [cond]) _ gate covered
      exact hg.trans ((grows_lowerControlOps body hbody).trans
        ((grows_coverCase mid _ covered).trans (grows_lowerAltChildren children hrest)))
    | default body =>
      rw [lowerAltChildren_default] at h
      obtain ⟨mid, hbody, hrest⟩ := bind_eq_ok h
      exact (grows_defaultGate ctx gate covered).trans ((grows_lowerControlOps body hbody).trans
        (grows_lowerAltChildren children hrest))
    | _ =>
      simp only [lowerAltChildren] at h
      exact grows_lowerAltChildren children h

theorem grows_lowerAnyChildren (children : List Op) {ctx : Ctx} {gate one : Option Value}
    {accums : List AnyTargetAccum} {r : Ctx × List AnyTargetAccum}
    (h : lowerAnyChildren children ctx gate one accums = .ok r) : Grows ctx r.1 := by
  cases children with
  | nil =>
    rw [lowerAnyChildren] at h
    obtain rfl := Except.ok.inj h
    exact .refl _
  | cons child children =>
    cases child with
    | case cond body =>
      rw [lowerAnyChildren_case] at h
      obtain ⟨mid, hbody, hrest⟩ := bind_eq_ok h
      have hg : Grows ctx (andConds (ctx.observe [cond]) gate (ctx.lookupValue cond)).2 :=
        grows_andConds (ctx.observe [cond]) gate _
      exact hg.trans ((grows_accumulateAnyCaseBody body hbody).trans
        (grows_lowerAnyChildren children hrest))
    | default body =>
      rw [lowerAnyChildren_default] at h
      obtain ⟨mid, hbody, hrest⟩ := bind_eq_ok h
      exact (grows_anyDefaultGate ctx gate one).trans ((grows_accumulateAnyCaseBody body hbody).trans
        (grows_lowerAnyChildren children hrest))
    | _ =>
      simp only [lowerAnyChildren] at h
      exact grows_lowerAnyChildren children h

theorem grows_accumulateAnyCaseBody (ops : List Op) {ctx : Ctx} {caseCond : Value}
    {accums : List AnyTargetAccum} {r : Ctx × List AnyTargetAccum}
    (h : accumulateAnyCaseBody ops ctx caseCond accums = .ok r) : Grows ctx r.1 := by
  cases ops with
  | nil =>
    rw [accumulateAnyCaseBody] at h
    obtain rfl := Except.ok.inj h
    exact .refl _
  | cons op ops =>
    cases op with
    | transfer dst src =>
      rw [accumulateAnyCaseBody_transfer] at h
      obtain ⟨mid, hacc, hrest⟩ := bind_eq_ok h
      show Grows (ctx.observe [src]) r.1
      exact (grows_accumulateAny hacc).trans (grows_accumulateAnyCaseBody ops hrest)
    | clockedTransfer dst src =>
      rw [accumulateAnyCaseBody_clockedTransfer] at h
      obtain ⟨mid, hacc, hrest⟩ := bind_eq_ok h
      show Grows (ctx.observe [src]) r.1
      exact (grows_accumulateAny hacc).trans (grows_accumulateAnyCaseBody ops hrest)
    | _ =>
      simp only [accumulateAnyCaseBody] at h
      obtain ⟨mid, hop, hrest⟩ := bind_eq_ok h
      exact (grows_lowerControlOp _ hop).trans (grows_accumulateAnyCaseBody ops hrest)

end

/-! ## Typed and untyped ops -/

def isWire : Value → Bool
  | .op _ (.wire _) _ => true
  | _ => false

/-- A typed op. The only `hw.wire`s of the walk are those of calls, which
are one bit. -/
def sound (y : Value) : Bool := y.typed && (!isWire y || y.width == 1)

/-- An op was emitted that is not sound. -/
def Spoiled (ctx : Ctx) : Prop := ∃ y ∈ ctx.body, sound y = false

theorem Spoiled.mono (h : Spoiled ctx) (hg : Grows ctx ctx') : Spoiled ctx' := by
  obtain ⟨y, hy, ht⟩ := h
  exact ⟨y, hg.subset hy, ht⟩

/-- Only typed ops are added to the body, and no `hw.wire`. -/
structure Adds (ctx ctx' : Ctx) : Prop where
  tables : SameTables ctx ctx'
  clocked : ctx'.clocked = ctx.clocked
  body : ∃ new, ctx'.body = ctx.body ++ new ∧ ∀ y ∈ new, y.typed = true ∧ isWire y = false

theorem Adds.refl (ctx : Ctx) : Adds ctx ctx := ⟨.refl ctx, rfl, [], by simp, by simp⟩

theorem Adds.trans (h : Adds ctx ctx') (h' : Adds ctx' ctx'') : Adds ctx ctx'' := by
  obtain ⟨new, hnew, htyped⟩ := h.body
  obtain ⟨new', hnew', htyped'⟩ := h'.body
  refine ⟨h.tables.trans h'.tables, h'.clocked.trans h.clocked, new ++ new', ?_, fun y hy => ?_⟩
  · rw [hnew', hnew, List.append_assoc]
  · exact (List.mem_append.1 hy).elim (htyped y) (htyped' y)

theorem adds_observe (ctx : Ctx) (vs : List Val) : Adds ctx (ctx.observe vs) :=
  ⟨sameTables_observe ctx vs, rfl, [], by simp [Ctx.observe], by simp⟩

theorem adds_queue (ctx : Ctx) (v : Val) : Adds ctx (ctx.queue v) :=
  ⟨sameTables_queue ctx v, rfl, [], by simp [Ctx.queue], by simp⟩

section Emit

variable {k : CombOp} {args : List Value}

theorem adds_emit (ctx : Ctx) (hk : ∀ name, k ≠ .wire name)
    (h : (Value.op ctx.body.length k args).typed = true) : Adds ctx (ctx.emit k args).2 := by
  refine ⟨sameTables_emit ctx k args, rfl, [.op ctx.body.length k args], rfl, fun y hy => ?_⟩
  rw [List.mem_singleton.1 hy]
  refine ⟨h, ?_⟩
  cases k with
  | wire name => exact absurd rfl (hk name)
  | _ => rfl

theorem spoiled_emit (ctx : Ctx) (h : (Value.op ctx.body.length k args).typed = false) :
    Spoiled (ctx.emit k args).2 :=
  ⟨_, List.mem_append_right _ (List.mem_singleton_self _), by simp [sound, h]⟩

end Emit

theorem untyped_of_mem {i : ℕ} {k : CombOp} {args : List Value} {y : Value} (hy : y ∈ args)
    (h : y.typed = false) : (Value.op i k args).typed = false := by
  rw [← Bool.not_eq_true, Value.typed_op]
  rintro ⟨-, hall⟩
  rw [hall y hy] at h
  cases h

theorem untyped_of_verify {i : ℕ} {k : CombOp} {args : List Value}
    (h : k.verify (args.map Value.ty) = false) : (Value.op i k args).typed = false := by
  rw [← Bool.not_eq_true, Value.typed_op, h]
  simp

theorem isInt_of_typed {y : Value} (h : y.typed = true) : y.ty.isInt = true :=
  isInt_of_closed y (Value.isOpen_of_typed y h)

/-! ## Expression ops -/

/-- An op on typed operands. -/
theorem typed_emit {k : CombOp} {args : List Value} (hv : k.verify (args.map Value.ty) = true)
    (h : ∀ y ∈ args, y.typed = true) : ((ctx.emit k args).1).typed = true :=
  Value.typed_op.2 ⟨hv, h⟩

theorem width_eq_ty (y : Value) : y.ty.width = y.width := rfl

/-- What becomes of an expression op on typed operands. -/
structure TypedResult (ctx : Ctx) (w : ℕ) (r : Value × Ctx) : Prop where
  adds : Adds ctx r.2
  typed : r.1.typed = true
  width : r.1.width = w

theorem typedResult_emit {w : ℕ} {k : CombOp} {args : List Value} (hk : ∀ name, k ≠ .wire name)
    (hv : k.verify (args.map Value.ty) = true) (h : ∀ y ∈ args, y.typed = true)
    (hw : (k.ty (args.map Value.ty)).width = w) : TypedResult ctx w (ctx.emit k args) :=
  ⟨adds_emit ctx hk (Value.typed_op.2 ⟨hv, h⟩), Value.typed_op.2 ⟨hv, h⟩, by
    rw [width_emit, Value.tys_eq_map]
    exact hw⟩

/-- Behind ops that are typed themselves. -/
theorem TypedResult.before {w : ℕ} {r : Value × Ctx} (h : Adds ctx ctx')
    (hr : TypedResult ctx' w r) : TypedResult ctx w r :=
  ⟨h.trans hr.adds, hr.typed, hr.width⟩

theorem typedResult_bin {w : ℕ} {k : BinOp} {a b : Value} (hv : k.verify w a.width b.width = true)
    (ha : a.typed = true) (hb : b.typed = true) :
    TypedResult ctx w (ctx.emit (arithOpFor k) [a, b]) := by
  simp only [BinOp.verify, Bool.and_eq_true, beq_iff_eq] at hv
  obtain ⟨⟨hab, hw⟩, hlogic⟩ := hv
  refine typedResult_emit (fun name => ?_) ?_ (by simp [ha, hb]) ?_
  · cases k <;> simp [arithOpFor]
  · cases k <;> simpa [arithOpFor, CombOp.verify, width_eq_ty] using hab
  · cases k <;> simp_all [arithOpFor, CombOp.ty, BinOp.isPredicate, width_eq_ty]

theorem typedResult_un {w : ℕ} {k : UnOp} {a : Value} (hv : k.verify w a.width = true)
    (ha : a.typed = true) : TypedResult ctx w (lowerUnary ctx k a) := by
  have hzero : Adds ctx (ctx.emit (.constant a.width 0) []).2 :=
    adds_emit ctx (by simp) rfl
  have hones : Adds ctx (ctx.emit (.allOnes a.width) []).2 := adds_emit ctx (by simp) rfl
  have hz : ((ctx.emit (.constant a.width 0) []).1).typed = true := rfl
  have ho : ((ctx.emit (.allOnes a.width) []).1).typed = true := rfl
  have hzw : ((ctx.emit (.constant a.width 0) []).1).ty.width = a.ty.width := rfl
  have how : ((ctx.emit (.allOnes a.width) []).1).ty.width = a.ty.width := rfl
  cases k with
  | not =>
    refine (typedResult_emit (by simp) ?_ (by simp [ha, ho]) ?_).before hones
    · simp [CombOp.verify, how]
    · exact (show w = a.width by simpa [UnOp.verify] using hv).symm
  | neg =>
    refine (typedResult_emit (by simp) ?_ (by simp [ha, hz]) ?_).before hzero
    · simp [CombOp.verify, hzw]
    · exact (show w = a.width by simpa [UnOp.verify] using hv).symm
  | lnot =>
    refine (typedResult_emit (by simp) ?_ (by simp [ha, hz]) ?_).before hzero
    · simp [CombOp.verify, hzw]
    · simp only [UnOp.verify, Bool.and_eq_true, beq_iff_eq] at hv
      simp [CombOp.ty, hv.1]
  | reduceAnd =>
    refine (typedResult_emit (by simp) ?_ (by simp [ha, ho]) ?_).before hones
    · simp [CombOp.verify, how]
    · exact (show w = 1 by simpa [UnOp.verify] using hv).symm
  | reduceOr =>
    refine (typedResult_emit (by simp) ?_ (by simp [ha, hz]) ?_).before hzero
    · simp [CombOp.verify, hzw]
    · exact (show w = 1 by simpa [UnOp.verify] using hv).symm
  | reduceXor =>
    refine typedResult_emit (by simp) rfl (by simp [ha]) ?_
    exact (show w = 1 by simpa [UnOp.verify] using hv).symm

/-- The operands have typed values. -/
def OperandsReady (ctx : Ctx) (vs : List Val) : Prop :=
  ∀ v ∈ vs, (ctx.lookupValue v).typed = true ∧ (ctx.lookupValue v).width = v.width

theorem OperandsReady.typed {vs : List Val} (h : OperandsReady ctx vs) : OperandsTyped ctx vs :=
  fun v hv => (h v hv).2

theorem sum_widths {vs : List Val} (h : OperandsReady ctx vs) :
    (((vs.map ctx.lookupValue).map Value.ty).map Ty.width).sum = (vs.map Val.width).sum := by
  rw [List.map_map, List.map_map]
  refine congrArg List.sum (List.map_congr_left fun v hv => ?_)
  exact (h v hv).2

theorem lowerBitOp_signExtend {w : ℕ} {a : Val} (hs : Expr.signed w (.signExtend a) = true)
    (hv : a.width ≤ w) (ha : (ctx.lookupValue a).typed = true)
    (hw : (ctx.lookupValue a).width = a.width) :
    ∃ r, lowerBitOp ctx w (.signExtend a) = .ok r ∧ TypedResult ctx w r := by
  simp only [lowerBitOp, isInt_of_typed ha, if_true]
  split
  · rename_i heq
    exact ⟨_, rfl, .refl ctx, ha, heq.symm⟩
  · rename_i hne
    refine ⟨_, rfl, ?_⟩
    have hpos : 0 < a.width := by
      simp only [Expr.signed, Bool.or_eq_true, bne_iff_ne, beq_iff_eq] at hs
      omega
    set y := ctx.lookupValue a
    have hmsb : TypedResult ctx 1 (ctx.emit (.extract (y.width - 1) 1) [y]) := by
      refine typedResult_emit (by simp) ?_ (by simp [ha]) rfl
      exact decide_eq_true (show y.width - 1 + 1 ≤ y.width by omega)
    have hrep : TypedResult ctx (w - y.width)
        ((ctx.emit (.extract (y.width - 1) 1) [y]).2.emit (.replicate (w - y.width))
          [(ctx.emit (.extract (y.width - 1) 1) [y]).1]) := by
      refine .before hmsb.adds (typedResult_emit (by simp) ?_ (by simp [hmsb.typed]) rfl)
      simp only [List.map_cons, List.map_nil, CombOp.verify, width_eq_ty, hmsb.width]
      simp [Nat.mod_one]
    refine .before hrep.adds (typedResult_emit (by simp) ?_ (by simp [ha, hrep.typed]) rfl)
    simp only [List.map_cons, List.map_nil, CombOp.verify, List.sum_cons, List.sum_nil,
      width_eq_ty, hrep.width, beq_iff_eq]
    omega

theorem lowerBitOp_zeroExtend {w : ℕ} {a : Val} (hv : a.width ≤ w)
    (ha : (ctx.lookupValue a).typed = true) (hw : (ctx.lookupValue a).width = a.width) :
    ∃ r, lowerBitOp ctx w (.zeroExtend a) = .ok r ∧ TypedResult ctx w r := by
  simp only [lowerBitOp, isInt_of_typed ha, if_true]
  split
  · rename_i heq
    exact ⟨_, rfl, .refl ctx, ha, heq.symm⟩
  · refine ⟨_, rfl, ?_⟩
    set y := ctx.lookupValue a
    have hzero : TypedResult ctx (w - y.width) (ctx.emit (.constant (w - y.width) 0) []) :=
      typedResult_emit (by simp) rfl (by simp) rfl
    refine .before hzero.adds (typedResult_emit (by simp) ?_ (by simp [ha, hzero.typed]) rfl)
    simp only [List.map_cons, List.map_nil, CombOp.verify, List.sum_cons, List.sum_nil,
      width_eq_ty, hzero.width, beq_iff_eq]
    omega

/-- **An expression op on typed operands becomes typed ops.** -/
theorem lowerBitOp_typed {w : ℕ} {e : Expr} (hv : e.verify w = true) (hs : Expr.signed w e = true)
    (h : OperandsReady ctx e.operands) :
    ∃ r, lowerBitOp ctx w e = .ok r ∧ TypedResult ctx w r := by
  cases e with
  | constant value => exact ⟨_, rfl, typedResult_emit (by simp) rfl (by simp) rfl⟩
  | bin k a b =>
    have ha := h a (by simp [Expr.operands])
    have hb := h b (by simp [Expr.operands])
    refine ⟨_, rfl, typedResult_bin ?_ ha.1 hb.1⟩
    rw [ha.2, hb.2]
    exact hv
  | un k a =>
    have ha := h a (by simp [Expr.operands])
    refine ⟨_, ?_, typedResult_un (k := k) ?_ ha.1⟩
    · exact if_pos (.inr (isInt_of_typed ha.1))
    · rw [ha.2]
      exact hv
  | signExtend a =>
    have ha := h a (by simp [Expr.operands])
    exact lowerBitOp_signExtend hs (of_decide_eq_true hv) ha.1 ha.2
  | zeroExtend a =>
    have ha := h a (by simp [Expr.operands])
    exact lowerBitOp_zeroExtend (of_decide_eq_true hv) ha.1 ha.2
  | mux c t f =>
    have hc := h c (by simp [Expr.operands])
    have ht := h t (by simp [Expr.operands])
    have hf := h f (by simp [Expr.operands])
    simp only [Expr.verify, Bool.and_eq_true, beq_iff_eq] at hv
    refine ⟨_, rfl, typedResult_emit (by simp) ?_ (by simp [hc.1, ht.1, hf.1]) ?_⟩
    · simp [CombOp.verify, width_eq_ty, hc.2, ht.2, hf.2, hv.1.1, hv.1.2]
    · simp [CombOp.ty, width_eq_ty, ht.2, hv.2]
  | concat vs =>
    simp only [Expr.verify, Bool.and_eq_true, beq_iff_eq] at hv
    refine ⟨_, rfl, typedResult_emit (by simp) ?_ ?_ rfl⟩
    · simp only [CombOp.verify, beq_iff_eq]
      exact (sum_widths h).trans hv.2
    · intro y hy
      obtain ⟨v, hv', rfl⟩ := List.mem_map.1 hy
      exact (h v hv').1
  | extract a lowBit =>
    have ha := h a (by simp [Expr.operands])
    refine ⟨_, rfl, typedResult_emit (by simp) ?_ (by simp [ha.1]) rfl⟩
    simp only [List.map_cons, List.map_nil, CombOp.verify, width_eq_ty, ha.2]
    exact hv
  | «repeat» a count =>
    have ha := h a (by simp [Expr.operands])
    simp only [Expr.verify, Bool.and_eq_true, decide_eq_true_eq, beq_iff_eq] at hv
    refine ⟨_, if_pos (isInt_of_typed ha.1), ?_⟩
    refine typedResult_emit (by simp) ?_ (by simp [ha.1]) ?_
    · simp [CombOp.verify, width_eq_ty]
    · simpa [CombOp.ty, ha.2] using hv.2

/-- An op with an operand that is not typed, emitted somewhere. -/
theorem spoiled_of_operand (ctx : Ctx) (k : CombOp) {args : List Value} {y : Value} (hy : y ∈ args)
    (h : y.typed = false) : Spoiled (ctx.emit k args).2 :=
  spoiled_emit ctx (untyped_of_mem hy h)

theorem spoiled_lowerUnary (ctx : Ctx) (k : UnOp) {a : Value} (h : a.typed = false) :
    Spoiled (lowerUnary ctx k a).2 := by
  cases k <;> exact spoiled_of_operand _ _ (y := a) (by simp) h

/-- **An operand without a value spoils what an expression op becomes.** -/
theorem lowerBitOp_spoils {w : ℕ} {e : Expr} {v : Val} (hv : v ∈ e.operands)
    (h : (ctx.lookupValue v).typed = false) (hint : (ctx.lookupValue v).ty.isInt = false)
    {r : Value × Ctx} (hok : lowerBitOp ctx w e = .ok r) : Spoiled r.2 := by
  have hmem : ctx.lookupValue v ∈ e.operands.map ctx.lookupValue := List.mem_map_of_mem hv
  cases e with
  | constant value => simp [Expr.operands] at hv
  | un k a =>
    obtain rfl : v = a := by simpa [Expr.operands] using hv
    simp only [lowerBitOp] at hok
    split at hok
    · obtain rfl := Except.ok.inj hok
      exact spoiled_lowerUnary ctx k h
    · cases hok
  | signExtend a =>
    obtain rfl : v = a := by simpa [Expr.operands] using hv
    simp [lowerBitOp, hint] at hok
  | zeroExtend a =>
    obtain rfl : v = a := by simpa [Expr.operands] using hv
    simp [lowerBitOp, hint] at hok
  | «repeat» a count =>
    obtain rfl : v = a := by simpa [Expr.operands] using hv
    simp [lowerBitOp, hint] at hok
  | _ =>
    obtain rfl := Except.ok.inj hok
    exact spoiled_of_operand _ _ hmem h

/-- The sign of a value without bits. -/
theorem lowerBitOp_unsigned {w : ℕ} {e : Expr} (hs : Expr.signed w e = false)
    (h : OperandsReady ctx e.operands) {r : Value × Ctx} (hok : lowerBitOp ctx w e = .ok r) :
    Spoiled r.2 := by
  cases e with
  | signExtend a =>
    simp only [Expr.signed, Bool.or_eq_false_iff, bne_eq_false_iff_eq, beq_eq_false_iff_ne] at hs
    have hw := (h a (by simp [Expr.operands])).2
    simp only [lowerBitOp] at hok
    split at hok
    · rw [if_neg (by omega)] at hok
      obtain rfl := Except.ok.inj hok
      refine Spoiled.mono ?_ ((grows_emit _ _ _).trans (grows_emit _ _ _))
      refine spoiled_emit ctx (untyped_of_verify ?_)
      exact decide_eq_false (by
        rw [width_eq_ty]
        omega)
    · cases hok
  | _ => cases hs

end Lower

end Nslc
