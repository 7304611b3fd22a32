import Nslc.Lower.Visitor
/-!
# The width a literal takes

A literal that states no width takes the one of the hint it is lowered
with. The right operand of an operator has the type of the left one as
its hint, the left operand has the hint of its context: the destination
in a transfer, one bit in a condition or case. So a literal on the right
adapts to what it is combined with, and a literal on the left to the
context. The ops of an expression with operands of one width pass their
verifiers exactly if, wherever a literal leads a left operand, its width
suits the right one (`led`).
-/

namespace Nslc

namespace ASTToMLIR

open AST

/-! ## The verifiers -/

/-- `ConstantOp::verify`: no bit of the 64 is set above the width. -/
def constantFits (value : ℤ) (width : ℕ) : Bool :=
  let raw := (value % 2 ^ 64).toNat
  if width = 0 then raw = 0 else decide (64 ≤ width) || decide (raw < 2 ^ width)

/-- `ConstantOp::verify` and the traits `SameTypeOperands` and
`SameOperandsAndResultType`, for operands of the given types. -/
def Op.verify (τ : Operand → Option Ty) : Op → Bool
  | .value _ type (.constant v) => type.width?.any (constantFits v)
  | .value _ _ (.binary _ lhs rhs) => τ lhs == τ rhs
  | .value _ _ (.mux _ thenV elseV) => τ thenV == τ elseV
  | .transfer dst src | .clockedTransfer dst src => τ dst == τ src
  | _ => true

def Verified (τ : Operand → Option Ty) (ops : List Op) : Prop := ∀ op ∈ ops, op.verify τ = true

/-- `τ` gives the types of the values found by name and of the results of
`ops`. -/
structure Types (τ : Operand → Option Ty) (b : Visitor) (ops : List Op) : Prop where
  names : ∀ name v, b.nameTable name = some v → τ (b.operand v) = some v.type
  results : ∀ i type op, Op.value i type op ∈ ops → τ (.own i) = some type

/-! ## What decides the type of an expression -/

/-- A type of its own, or a literal that takes the width of the hint. -/
inductive Lead where
  | known (type : Ty)
  | free (value : ℤ)
  deriving DecidableEq, Repr

/-- The width of such a literal. -/
def chosen (hint : Option Ty) (value : ℤ) : ℕ :=
  (hint.bind Ty.width?).getD (minUnsignedWidth value)

def Lead.under (hint : Option Ty) : Lead → Ty
  | known type => type
  | free value => .bits (chosen hint value)

/-- The operators there is an op for. -/
def isLowered : BinaryOp → Bool
  | .div | .mod => false
  | _ => true

/-- The operators with a result of the type of the operands. -/
def keepsType : BinaryOp → Bool
  | .add | .sub | .mul | .bitAnd | .bitOr | .bitXor | .shiftLeft | .shiftRight => true
  | _ => false

def binaryLead (op : BinaryOp) (k : Lead) : Option Lead :=
  if keepsType op then some k else if isLowered op then some (.known (.bits 1)) else none

def keepsOperand : UnaryOp → Bool
  | .plus | .neg | .bitNot => true
  | _ => false

/-- The type of the last member of a path. -/
def memberType (b : Visitor) (cur : Ty) (fields : List (Ident × Ty)) : List Ident → Option Ty
  | [] => some cur
  | member :: path =>
    match fields.findIdx? (fun f => f.1 = member) with
    | none => none
    | some i =>
      let type := ((fields[i]?).map Prod.snd).getD (.bits 1)
      match type with
      | .struct name =>
        match b.structTable name with
        | none => none
        | some nested => memberType b type nested path
      | _ => memberType b type fields path

mutual

/-- What decides the type: the leftmost operand, through the operators
that keep the type. `none` where there is no value. -/
def lead (b : Visitor) (e : Expr) : Option Lead :=
  match e with
  | .literal kind spelling =>
    (parseNumericLiteral kind spelling).map fun p =>
      match p.width with
      | some w => .known (.bits w)
      | none => .free p.value
  | .identifier _ name =>
    match name with
    | [leaf] =>
      if b.controlTable leaf then none else (b.nameTable leaf).map fun v => .known v.type
    | _ => none
  | .binary op lhs rhs => (lead b lhs).bind fun k => (lead b rhs).bind fun _ => binaryLead op k
  | .unary op sub =>
    (lead b sub).bind fun k => some (if keepsOperand op then k else .known (.bits 1))
  | .signExtend width sub | .zeroExtend width sub =>
    (lead b sub).bind fun _ => some (.known (.bits (resolveWidth (some width))))
  | .conditional cond thenE elseE =>
    (lead b cond).bind fun _ => (lead b thenE).bind fun k => (lead b elseE).bind fun _ => some k
  | .slice _ sub hi lo =>
    (lead b sub).bind fun _ =>
      let h := resolveDecimalLiteral (some hi)
      let l := if lo.isSome then resolveDecimalLiteral lo else h
      if h < l then none else some (.known (.bits ((h - l + 1).toNat % 2 ^ 32)))
  | .concat parts =>
    (leadAll b parts).bind fun types =>
      if types = [] then none
      else some (.known (.bits ((types.map fun t => t.width?.getD 0).sum % 2 ^ 32)))
  | .structCast typeName sub memberPath =>
    (lead b sub).bind fun _ =>
      if memberPath = [] then some (.known (.struct typeName))
      else
        (b.structTable typeName).bind fun fields =>
          (memberType b (.struct typeName) fields memberPath).map .known
  | .fieldAccess obj field =>
    (lead b obj).bind fun k =>
      match k.under none with
      | .struct name =>
        (b.structTable name).bind fun fields =>
          (fields.findIdx? fun f => f.1 = field).map fun i =>
            .known (((fields[i]?).map Prod.snd).getD (.bits 1))
      | _ => none
  | .repeat count body =>
    if repeatCount b count < 1 then none
    else
      (lead b body).bind fun k =>
        match k.under none with
        | .bits w => some (.known (.bits ((repeatCount b count).toNat * w % 2 ^ 32)))
        | _ => none
  | .call _ _ _ | .incDec _ _ _ | .systemVar _ => none

/-- The types of the parts of a concatenation. -/
def leadAll (b : Visitor) (es : List Expr) : Option (List Ty) :=
  match es with
  | [] => some []
  | e :: es =>
    (lead b e).bind fun k =>
      if (k.under none).width? = none then none
      else (leadAll b es).map (k.under none :: ·)

end

/-! ## Operands of one width -/

/-- A type of the width, or a literal that fits it. -/
def Lead.fits (w : ℕ) : Lead → Bool
  | known type => type == .bits w
  | free value => constantFits value w

/-- All that an operator combines in the expression has the width `w`, and
the literals that state no width fit it. -/
def suits (b : Visitor) (w : ℕ) : Expr → Bool
  | .binary op lhs rhs =>
    if keepsType op then suits b w lhs && suits b w rhs
    else (lead b (.binary op lhs rhs)).all (Lead.fits w)
  | .unary op sub =>
    if keepsOperand op then suits b w sub else (lead b (.unary op sub)).all (Lead.fits w)
  | .conditional _ thenE elseE => suits b w thenE && suits b w elseE
  | e => (lead b e).all (Lead.fits w)

mutual

/-- **Operands of one width**: at every operator there is a width that
both operands suit, so the two branches of a conditional. -/
def Combined (b : Visitor) (e : Expr) : Prop :=
  match e with
  | .binary _ lhs rhs =>
    Combined b lhs ∧ Combined b rhs ∧ ∃ w, suits b w lhs = true ∧ suits b w rhs = true
  | .conditional cond thenE elseE =>
    Combined b cond ∧ Combined b thenE ∧ Combined b elseE ∧
      ∃ w, suits b w thenE = true ∧ suits b w elseE = true
  | .unary _ sub | .signExtend _ sub | .zeroExtend _ sub | .slice _ sub _ _
  | .structCast _ sub _ | .fieldAccess sub _ | .repeat _ sub => Combined b sub
  | .concat parts => CombinedAll b parts
  | _ => True

def CombinedAll (b : Visitor) (es : List Expr) : Prop :=
  match es with
  | [] => True
  | e :: es => Combined b e ∧ CombinedAll b es

end

/-! ## The condition -/

/-- A literal that leads the left operand has a width the right one
suits. -/
def Lead.meets (b : Visitor) (hint : Option Ty) (rhs : Expr) : Lead → Bool
  | known _ => true
  | free value => (lead b rhs).isNone || suits b (chosen hint value) rhs

mutual

/-- **Literals are led right**: each fits the width it takes, and one that
leads a left operand under the hint suits the right operand. -/
def led (b : Visitor) (hint : Option Ty) (e : Expr) : Bool :=
  match e with
  | .literal kind spelling =>
    (parseNumericLiteral kind spelling).all fun p =>
      constantFits p.value (p.width.getD (chosen hint p.value))
  | .binary op lhs rhs =>
    led b hint lhs && (lead b lhs).all fun k =>
      led b (some (k.under hint)) rhs && (!isLowered op || k.meets b hint rhs)
  | .unary _ sub => led b hint sub
  | .signExtend width sub | .zeroExtend width sub =>
    led b (some (.bits (resolveWidth (some width)))) sub
  | .conditional cond thenE elseE =>
    led b (some (.bits 1)) cond && (lead b cond).all fun _ =>
      led b hint thenE && (lead b thenE).all fun k =>
        led b (some (k.under hint)) elseE && k.meets b hint elseE
  | .slice _ sub _ _ | .structCast _ sub _ | .fieldAccess sub _ => led b none sub
  | .concat parts => ledAll b parts
  | .repeat count body => decide (repeatCount b count < 1) || led b none body
  | _ => true

/-- The parts of a concatenation, up to one without a width. -/
def ledAll (b : Visitor) (es : List Expr) : Bool :=
  match es with
  | [] => true
  | e :: es =>
    led b none e && (lead b e).all fun k => (k.under none).width? == none || ledAll b es

end

/-- Where expressions stand: under the hint of a context, which is one bit
for a condition or case, or on the sides of a transfer. -/
inductive Site where
  | expr (hint : Option Ty) (e : Expr)
  | transfer (op : TransferOp) (lhs rhs : Expr)

namespace Site

variable (b : Visitor)

def ops : Site → List Op
  | expr hint e => (lowerExpr b b.next hint e).ops
  | transfer op lhs rhs => (visitStmt ⟨[], []⟩ false b (.transfer 0 op lhs rhs)).2

def Combined : Site → Prop
  | expr _ e => ASTToMLIR.Combined b e
  | transfer _ lhs rhs =>
    ASTToMLIR.Combined b lhs ∧ ASTToMLIR.Combined b rhs ∧
      ∃ w, suits b w lhs = true ∧ suits b w rhs = true

def led : Site → Bool
  | expr hint e => ASTToMLIR.led b hint e
  | transfer _ lhs rhs =>
    ASTToMLIR.led b none lhs && (lead b lhs).all fun k =>
      ASTToMLIR.led b (some (k.under none)) rhs && k.meets b none rhs

end Site

/-! ## The type of a result -/

section Values

variable {b : Visitor}

theorem Out.andThen_value {α β : Type} (o : Out α) (f : α → ℕ → Out β) :
    (o.andThen f).value = o.value.bind fun a => (f a o.next).value := by
  unfold Out.andThen
  cases o.value <;> rfl

theorem Out.andThen_ops {α β : Type} (o : Out α) (f : α → ℕ → Out β) :
    (o.andThen f).ops = o.ops ++ (o.value.map fun a => (f a o.next).ops).getD [] := by
  unfold Out.andThen
  cases o.value with
  | none => exact (List.append_nil _).symm
  | some a => rfl

theorem lowerMembers_type (n : ℕ) (cur : Value) (fields : List (Ident × Ty)) (path : List Ident) :
    (lowerMembers b n cur fields path).value.map Value.type =
      memberType b cur.type fields path := by
  induction path generalizing n cur fields with
  | nil => rfl
  | cons member path ih =>
    rw [lowerMembers, memberType]
    cases fields.findIdx? fun f => f.1 = member with
    | none => rfl
    | some i =>
      simp only [Out.andThen_value, emitValue, Option.bind_some]
      cases ((fields[i]?).map Prod.snd).getD (.bits 1) with
      | bits w => exact ih _ _ _
      | mem depth w => exact ih _ _ _
      | struct name =>
        simp only
        cases b.structTable name with
        | none => rfl
        | some nested => exact ih _ _ _

theorem binaryType?_under (op : BinaryOp) (hint : Option Ty) (k : Lead) :
    binaryType? op (k.under hint) = (binaryLead op k).map (Lead.under hint) := by
  cases op <;> rfl

theorem unaryType_under (op : UnaryOp) (hint : Option Ty) (k : Lead) :
    unaryType op (k.under hint) =
      (if keepsOperand op then k else .known (.bits 1) : Lead).under hint := by
  cases op <;> rfl

/-- One expression after another, each of the type its lead gives. -/
theorem andThen_type {α β γ δ ε κ : Type} {o : Out α} {t : α → δ} {k? : Option κ} {s : κ → δ}
    (ho : o.value.map t = k?.map s) {f : α → ℕ → Out β} {g : β → ε} {r : κ → Option γ} {u : γ → ε}
    (hf : ∀ a k n, t a = s k → (f a n).value.map g = (r k).map u) :
    (o.andThen f).value.map g = (k?.bind r).map u := by
  rw [Out.andThen_value]
  cases ha : o.value with
  | none =>
    rw [ha] at ho
    rw [Option.map_eq_none_iff.1 ho.symm]
    rfl
  | some a =>
    rw [ha] at ho
    obtain ⟨k, rfl, htype⟩ := Option.map_eq_some_iff.1 ho.symm
    exact hf a k _ htype.symm

mutual

/-- **The type of a result** is that of what leads the expression, under
the hint. -/
theorem lowerExpr_type (n : ℕ) (hint : Option Ty) (e : Expr) :
    (lowerExpr b n hint e).value.map Value.type = (lead b e).map (Lead.under hint) := by
  cases e with
  | literal kind spelling =>
    simp only [lowerExpr, lead]
    cases parseNumericLiteral kind spelling with
    | none => rfl
    | some p =>
      obtain ⟨value, width⟩ := p
      cases width <;> rfl
  | identifier loc name =>
    simp only [lowerExpr, lead]
    match name with
    | [] => rfl
    | [leaf] =>
      simp only
      split
      · rfl
      · cases b.nameTable leaf <;> rfl
    | _ :: _ :: _ => rfl
  | binary op lhs rhs =>
    simp only [lowerExpr, lead]
    refine andThen_type (lowerExpr_type n hint lhs) fun l k n hl => ?_
    refine andThen_type (lowerExpr_type n (some l.type) rhs) fun r _ n _ => ?_
    rw [hl, ← binaryType?_under]
    cases binaryType? op (k.under hint) <;> rfl
  | unary op sub =>
    simp only [lowerExpr, lead]
    refine andThen_type (lowerExpr_type n hint sub) fun v k n hv => ?_
    cases op <;> simp [Out.pure, emitValue, unaryType, keepsOperand, hv, Lead.under]
  | signExtend width sub =>
    simp only [lowerExpr, lead]
    exact andThen_type (lowerExpr_type n _ sub) fun v k n hv => rfl
  | zeroExtend width sub =>
    simp only [lowerExpr, lead]
    exact andThen_type (lowerExpr_type n _ sub) fun v k n hv => rfl
  | conditional cond thenE elseE =>
    simp only [lowerExpr, lead]
    refine andThen_type (lowerExpr_type n _ cond) fun c _ n _ => ?_
    refine andThen_type (lowerExpr_type n hint thenE) fun t k n ht => ?_
    exact andThen_type (lowerExpr_type n _ elseE) fun e _ n _ => congrArg some ht
  | slice loc sub hi lo =>
    simp only [lowerExpr, lead]
    refine andThen_type (lowerExpr_type n none sub) fun v k n hv => ?_
    generalize (if lo.isSome then resolveDecimalLiteral lo else resolveDecimalLiteral (some hi)) = l
    split <;> rfl
  | concat parts =>
    simp only [lowerExpr, lead]
    refine andThen_type (lowerAll_type n parts) fun vs types n hvs => ?_
    obtain rfl : vs.map Value.type = types := hvs
    simp only [List.map_eq_nil_iff, List.map_map, Function.comp_def]
    split <;> rfl
  | structCast typeName sub memberPath =>
    simp only [lowerExpr, lead]
    refine andThen_type (lowerExpr_type n none sub) fun v k n hv => ?_
    split
    · rfl
    · cases b.structTable typeName with
      | none => rfl
      | some fields =>
        simp only [Out.andThen_value, emitValue, Option.bind_some]
        rw [lowerMembers_type]
        cases memberType b (.struct typeName) fields memberPath <;> rfl
  | fieldAccess obj field =>
    simp only [lowerExpr, lead]
    refine andThen_type (lowerExpr_type n none obj) fun v k n hv => ?_
    rw [hv]
    cases k.under none with
    | bits w => rfl
    | mem depth w => rfl
    | struct name =>
      simp only
      cases b.structTable name with
      | none => rfl
      | some fields =>
        simp only [Option.bind_some]
        cases fields.findIdx? fun f => f.1 = field <;> rfl
  | «repeat» count body =>
    simp only [lowerExpr, lead]
    split
    · rfl
    · refine andThen_type (lowerExpr_type n none body) fun v k n hv => ?_
      rw [hv]
      cases k.under none <;> rfl
  | call _ _ _ | incDec _ _ _ | systemVar _ => rfl

theorem lowerAll_type (n : ℕ) (es : List Expr) :
    (lowerAll b n true es).value.map (List.map Value.type) = (leadAll b es).map id := by
  cases es with
  | nil => rfl
  | cons e es =>
    simp only [lowerAll, leadAll]
    refine andThen_type (lowerExpr_type n none e) fun v k n hv => ?_
    simp only [hv, true_and]
    split
    · rfl
    · have hes := lowerAll_type n es
      rw [Out.andThen_value]
      cases hvs : (lowerAll b n true es).value with
      | none =>
        rw [hvs] at hes
        rw [Option.map_eq_none_iff.1 hes.symm]
        rfl
      | some vs =>
        rw [hvs] at hes
        obtain ⟨types, htypes, heq⟩ := Option.map_eq_some_iff.1 hes.symm
        obtain rfl : types = vs.map Value.type := heq
        rw [htypes, ← hv]
        rfl

end

/-! ## Where a result comes from -/

/-- Found by name, or the result of one of the ops. -/
def Found (b : Visitor) (ops : List Op) (v : Value) : Prop :=
  (∃ name, b.nameTable name = some v) ∨
    v.home = b.home ∧ ∃ op, Op.value v.index v.type op ∈ ops

variable {τ : Operand → Option Ty} {ops : List Op} {v : Value}

theorem Types.mono (h : Types τ b ops) {ops' : List Op} (hsub : ops' ⊆ ops) : Types τ b ops' :=
  ⟨h.names, fun i type op hop => h.results i type op (hsub hop)⟩

theorem Types.operand (h : Types τ b ops) (hv : Found b ops v) : τ (b.operand v) = some v.type := by
  rcases hv with ⟨name, hname⟩ | ⟨hhome, op, hop⟩
  · exact h.names name v hname
  · rw [Visitor.operand, if_pos hhome]
    exact h.results v.index v.type op hop

theorem Out.andThen_eq_some {α β : Type} {o : Out α} {f : α → ℕ → Out β} {w : β}
    (h : (o.andThen f).value = some w) :
    ∃ a, o.value = some a ∧ (f a o.next).value = some w ∧
      (o.andThen f).ops = o.ops ++ (f a o.next).ops := by
  rw [Out.andThen_value] at h
  obtain ⟨a, ha, hw⟩ := Option.bind_eq_some_iff.1 h
  refine ⟨a, ha, hw, ?_⟩
  rw [Out.andThen_ops, ha]
  rfl

/-- What is found in the last step is found. -/
theorem found_andThen {α : Type} {o : Out α} {f : α → ℕ → Out Value}
    (hf : ∀ a, o.value = some a → (f a o.next).value = some v → Found b (f a o.next).ops v)
    (h : (o.andThen f).value = some v) : Found b (o.andThen f).ops v := by
  obtain ⟨a, ha, hv, hops⟩ := Out.andThen_eq_some h
  rw [hops]
  exact (hf a ha hv).imp_right fun ⟨hhome, op, hop⟩ => ⟨hhome, op, List.mem_append_right _ hop⟩

theorem found_emitValue {n : ℕ} {type : Ty} {op : ValueOp}
    (h : (emitValue b n type op).value = some v) : Found b (emitValue b n type op).ops v := by
  obtain rfl := Option.some.inj h
  exact .inr ⟨rfl, op, List.mem_singleton_self _⟩

/-- Every member of a path is the result of an op. -/
theorem found_lowerMembers (n : ℕ) (type : Ty) (op : ValueOp) (fields : List (Ident × Ty))
    (path : List Ident)
    (h : ((emitValue b n type op).andThen fun cur n =>
      lowerMembers b n cur fields path).value = some v) :
    Found b ((emitValue b n type op).andThen fun cur n => lowerMembers b n cur fields path).ops v := by
  induction path generalizing n type op fields with
  | nil => exact found_emitValue h
  | cons member path ih =>
    refine found_andThen (fun cur _ h => ?_) h
    revert h
    rw [lowerMembers]
    cases fields.findIdx? fun f => f.1 = member with
    | none => exact fun h => nomatch h
    | some i =>
      simp only
      cases ((fields[i]?).map Prod.snd).getD (.bits 1) with
      | bits w => exact ih _ _ _ _
      | mem depth w => exact ih _ _ _ _
      | struct name =>
        simp only
        cases b.structTable name with
        | none => exact fun h => nomatch (Out.andThen_eq_some h).choose_spec.2.1
        | some nested => exact ih _ _ _ _

theorem lowerExpr_found (n : ℕ) (hint : Option Ty) (e : Expr)
    (h : (lowerExpr b n hint e).value = some v) : Found b (lowerExpr b n hint e).ops v := by
  cases e with
  | literal kind spelling =>
    simp only [lowerExpr] at h ⊢
    revert h
    cases parseNumericLiteral kind spelling with
    | none => exact fun h => nomatch h
    | some p => exact found_emitValue
  | identifier loc name =>
    simp only [lowerExpr] at h ⊢
    match name, h with
    | [leaf], h =>
      simp only at h ⊢
      split at h
      · cases h
      · exact .inl ⟨leaf, h⟩
  | binary op lhs rhs =>
    simp only [lowerExpr] at h ⊢
    refine found_andThen (fun l _ h => found_andThen (fun r _ h => ?_) h) h
    revert h
    cases binaryType? op l.type with
    | none => exact fun h => nomatch h
    | some type => exact found_emitValue
  | unary op sub =>
    simp only [lowerExpr] at h ⊢
    by_cases hop : op = .plus
    · -- the operand itself
      simp only [hop, if_true] at h ⊢
      obtain ⟨u, hu, hv, hops⟩ := Out.andThen_eq_some h
      rw [hops]
      exact (lowerExpr_found n hint sub (hu.trans hv)).imp_right fun ⟨hhome, op, hop⟩ =>
        ⟨hhome, op, List.mem_append_left _ hop⟩
    · simp only [hop, if_false] at h ⊢
      exact found_andThen (fun u _ => found_emitValue) h
  | signExtend width sub =>
    simp only [lowerExpr] at h ⊢
    exact found_andThen (fun u _ => found_emitValue) h
  | zeroExtend width sub =>
    simp only [lowerExpr] at h ⊢
    exact found_andThen (fun u _ => found_emitValue) h
  | conditional cond thenE elseE =>
    simp only [lowerExpr] at h ⊢
    exact found_andThen (fun c _ h => found_andThen (fun t _ h =>
      found_andThen (fun e _ => found_emitValue) h) h) h
  | slice loc sub hi lo =>
    simp only [lowerExpr] at h ⊢
    refine found_andThen (fun u _ h => ?_) h
    revert h
    generalize (if lo.isSome then resolveDecimalLiteral lo else resolveDecimalLiteral (some hi)) = l
    split
    · exact fun h => nomatch h
    · exact found_emitValue
  | concat parts =>
    simp only [lowerExpr] at h ⊢
    refine found_andThen (fun vs _ h => ?_) h
    revert h
    split
    · exact fun h => nomatch h
    · exact found_emitValue
  | structCast typeName sub memberPath =>
    simp only [lowerExpr] at h ⊢
    refine found_andThen (fun u _ h => ?_) h
    revert h
    split
    · exact found_emitValue
    · cases b.structTable typeName with
      | none => exact fun h => nomatch h
      | some fields => exact found_lowerMembers _ _ _ _ _
  | fieldAccess obj field =>
    simp only [lowerExpr] at h ⊢
    refine found_andThen (fun u _ h => ?_) h
    revert h
    cases u.type with
    | bits w => exact fun h => nomatch h
    | mem depth w => exact fun h => nomatch h
    | struct name =>
      simp only
      cases b.structTable name with
      | none => exact fun h => nomatch h
      | some fields =>
        simp only
        cases fields.findIdx? fun f => f.1 = field with
        | none => exact fun h => nomatch h
        | some i => exact found_emitValue
  | «repeat» count body =>
    simp only [lowerExpr] at h ⊢
    revert h
    split
    · exact fun h => nomatch h
    · refine found_andThen fun u _ h => ?_
      revert h
      cases u.type with
      | bits w => exact found_emitValue
      | mem depth w => exact fun h => nomatch h
      | struct name => exact fun h => nomatch h
  | call _ _ _ | incDec _ _ _ | systemVar _ => cases h

/-! ## Widths that suit -/

/-- An operator that keeps the type is led by its left operand. -/
theorem lead_binary {op : BinaryOp} {lhs rhs : Expr} {k : Lead}
    (hk : lead b (.binary op lhs rhs) = some k) :
    ∃ kl kr, lead b lhs = some kl ∧ lead b rhs = some kr ∧ binaryLead op kl = some k := by
  rw [lead] at hk
  obtain ⟨kl, hkl, hk⟩ := Option.bind_eq_some_iff.1 hk
  obtain ⟨kr, hkr, hk⟩ := Option.bind_eq_some_iff.1 hk
  exact ⟨kl, kr, hkl, hkr, hk⟩

theorem lead_conditional {cond thenE elseE : Expr} {k : Lead}
    (hk : lead b (.conditional cond thenE elseE) = some k) :
    (∃ kc, lead b cond = some kc) ∧ lead b thenE = some k ∧ ∃ ke, lead b elseE = some ke := by
  rw [lead] at hk
  obtain ⟨kc, hkc, hk⟩ := Option.bind_eq_some_iff.1 hk
  obtain ⟨kt, hkt, hk⟩ := Option.bind_eq_some_iff.1 hk
  obtain ⟨ke, hke, hk⟩ := Option.bind_eq_some_iff.1 hk
  exact ⟨⟨kc, hkc⟩, hkt.trans hk, ke, hke⟩

theorem lead_unary {op : UnaryOp} {sub : Expr} {k : Lead} (hop : keepsOperand op = true)
    (hk : lead b (.unary op sub) = some k) : lead b sub = some k := by
  rw [lead] at hk
  obtain ⟨ks, hks, hk⟩ := Option.bind_eq_some_iff.1 hk
  rw [if_pos hop] at hk
  exact hks.trans hk

theorem fits_of_all {w : ℕ} {e : Expr} {k : Lead} (h : (lead b e).all (Lead.fits w) = true)
    (hk : lead b e = some k) : k.fits w = true := by
  rw [hk] at h
  exact h

theorem eq_of_fits {w : ℕ} {type : Ty} (h : (Lead.known type).fits w = true) : type = .bits w := by
  simpa [Lead.fits] using h

/-- What decides the type is among what has the width. -/
theorem suits_of_known {w : ℕ} (e : Expr) {type : Ty} (hw : suits b w e = true)
    (hk : lead b e = some (.known type)) : type = .bits w := by
  cases e with
  | binary op lhs rhs =>
    rw [suits] at hw
    by_cases hop : keepsType op = true
    · rw [if_pos hop, Bool.and_eq_true] at hw
      obtain ⟨kl, kr, hkl, -, hk⟩ := lead_binary hk
      rw [binaryLead, if_pos hop] at hk
      exact suits_of_known lhs hw.1 (hkl.trans hk)
    · rw [if_neg hop] at hw
      exact eq_of_fits (fits_of_all hw hk)
  | unary op sub =>
    rw [suits] at hw
    by_cases hop : keepsOperand op = true
    · rw [if_pos hop] at hw
      exact suits_of_known sub hw (lead_unary hop hk)
    · rw [if_neg hop] at hw
      exact eq_of_fits (fits_of_all hw hk)
  | conditional cond thenE elseE =>
    rw [suits, Bool.and_eq_true] at hw
    exact suits_of_known thenE hw.1 (lead_conditional hk).2.1
  | _ => exact eq_of_fits (fits_of_all hw hk)

/-- Under a hint of the width an expression gets that width if it suits
it. -/
theorem under_of_suits {w : ℕ} {e : Expr} {k : Lead} (hw : suits b w e = true)
    (hk : lead b e = some k) : k.under (some (.bits w)) = .bits w := by
  cases k with
  | known type => exact suits_of_known e hw hk
  | free value => rfl

/-- Its type is its own. -/
def isLeaf : Expr → Bool
  | .literal _ _ | .conditional _ _ _ => false
  | .binary op _ _ => !keepsType op
  | .unary op _ => !keepsOperand op
  | _ => true

theorem lead_of_leaf {e : Expr} (he : isLeaf e = true) {k : Lead} (hk : lead b e = some k) :
    ∃ type, k = .known type := by
  cases e with
  | literal kind spelling => cases he
  | conditional cond thenE elseE => cases he
  | identifier loc name =>
    simp only [lead] at hk
    match name, hk with
    | [leaf], hk =>
      simp only at hk
      split at hk
      · cases hk
      · obtain ⟨v, -, rfl⟩ := Option.map_eq_some_iff.1 hk
        exact ⟨v.type, rfl⟩
  | binary op lhs rhs =>
    obtain ⟨kl, kr, -, -, hk⟩ := lead_binary hk
    have hop : ¬ keepsType op = true := by simpa [isLeaf] using he
    rw [binaryLead, if_neg hop] at hk
    split at hk
    · exact ⟨.bits 1, (Option.some.inj hk).symm⟩
    · cases hk
  | unary op sub =>
    have hop : ¬ keepsOperand op = true := by simpa [isLeaf] using he
    rw [lead] at hk
    obtain ⟨ks, -, hk⟩ := Option.bind_eq_some_iff.1 hk
    rw [if_neg hop] at hk
    exact ⟨.bits 1, (Option.some.inj hk).symm⟩
  | signExtend width sub | zeroExtend width sub =>
    rw [lead] at hk
    obtain ⟨ks, -, hk⟩ := Option.bind_eq_some_iff.1 hk
    exact ⟨_, (Option.some.inj hk).symm⟩
  | slice loc sub hi lo =>
    simp only [lead] at hk
    obtain ⟨ks, -, hk⟩ := Option.bind_eq_some_iff.1 hk
    generalize (if lo.isSome then resolveDecimalLiteral lo else resolveDecimalLiteral (some hi)) = l
      at hk
    split at hk
    · cases hk
    · exact ⟨_, (Option.some.inj hk).symm⟩
  | concat parts =>
    rw [lead] at hk
    obtain ⟨types, -, hk⟩ := Option.bind_eq_some_iff.1 hk
    split at hk
    · cases hk
    · exact ⟨_, (Option.some.inj hk).symm⟩
  | structCast typeName sub memberPath =>
    rw [lead] at hk
    obtain ⟨ks, -, hk⟩ := Option.bind_eq_some_iff.1 hk
    split at hk
    · exact ⟨_, (Option.some.inj hk).symm⟩
    · obtain ⟨fields, -, hk⟩ := Option.bind_eq_some_iff.1 hk
      obtain ⟨type, -, rfl⟩ := Option.map_eq_some_iff.1 hk
      exact ⟨type, rfl⟩
  | fieldAccess obj field =>
    rw [lead] at hk
    obtain ⟨ks, -, hk⟩ := Option.bind_eq_some_iff.1 hk
    split at hk
    · obtain ⟨fields, -, hk⟩ := Option.bind_eq_some_iff.1 hk
      obtain ⟨i, -, rfl⟩ := Option.map_eq_some_iff.1 hk
      exact ⟨_, rfl⟩
    · cases hk
  | «repeat» count body =>
    rw [lead] at hk
    split at hk
    · cases hk
    · obtain ⟨ks, -, hk⟩ := Option.bind_eq_some_iff.1 hk
      split at hk
      · exact ⟨_, (Option.some.inj hk).symm⟩
      · cases hk
  | call _ _ _ | incDec _ _ _ | systemVar _ =>
    rw [lead] at hk
    cases hk

/-- A leaf suits the width of its type only. -/
theorem suits_leaf {e : Expr} (he : isLeaf e = true) (w : ℕ) :
    suits b w e = (lead b e).all (Lead.fits w) := by
  cases e with
  | literal kind spelling => cases he
  | conditional cond thenE elseE => cases he
  | binary op lhs rhs =>
    have hop : ¬ keepsType op = true := by simpa [isLeaf] using he
    rw [suits, if_neg hop]
  | unary op sub =>
    have hop : ¬ keepsOperand op = true := by simpa [isLeaf] using he
    rw [suits, if_neg hop]
  | _ => rfl

theorem suits_of_leaf {hint : Option Ty} {w : ℕ} {e : Expr} (he : isLeaf e = true) {k : Lead}
    (hk : lead b e = some k) (hw : k.under hint = .bits w) : suits b w e = true := by
  obtain ⟨type, rfl⟩ := lead_of_leaf he hk
  rw [suits_leaf he, hk]
  simpa [Lead.fits, Lead.under] using hw

/-- The left operand of an operator decides the width. -/
theorem suits_pair {hint : Option Ty} {w : ℕ} {lhs rhs : Expr} {k kr : Lead}
    (hcommon : ∃ w, suits b w lhs = true ∧ suits b w rhs = true) (hk : lead b lhs = some k)
    (hkr : lead b rhs = some kr) (hmeets : k.meets b hint rhs = true)
    (hw : k.under hint = .bits w) : suits b w rhs = true := by
  cases k with
  | known type =>
    obtain ⟨w', hl, hr⟩ := hcommon
    have htype : type = .bits w' := suits_of_known lhs hl hk
    have heq : Ty.bits w' = .bits w := htype.symm.trans hw
    rw [← Ty.bits.inj heq]
    exact hr
  | free value =>
    rw [Lead.meets, hkr] at hmeets
    rw [← Ty.bits.inj hw]
    simpa using hmeets

/-- An expression that is led right and has a value suits the width it
gets. -/
theorem suits_of_led {hint : Option Ty} {w : ℕ} (e : Expr) {k : Lead} (hc : Combined b e)
    (hled : led b hint e = true) (hk : lead b e = some k) (hw : k.under hint = .bits w) :
    suits b w e = true := by
  cases e with
  | literal kind spelling =>
    show (lead b (.literal kind spelling)).all (Lead.fits w) = true
    simp only [lead, led] at hk hled ⊢
    cases hp : parseNumericLiteral kind spelling with
    | none => rfl
    | some p =>
      rw [hp] at hk hled
      obtain ⟨value, width⟩ := p
      cases width with
      | some u =>
        obtain rfl := Option.some.inj hk
        simpa [Lead.fits, Lead.under] using hw
      | none =>
        obtain rfl := Option.some.inj hk
        obtain rfl := Ty.bits.inj hw
        exact hled
  | binary op lhs rhs =>
    by_cases hop : keepsType op = true
    · obtain ⟨kl, kr, hkl, hkr, hkop⟩ := lead_binary hk
      rw [binaryLead, if_pos hop] at hkop
      obtain ⟨hcl, hcr, hcommon⟩ := hc
      have hlow : isLowered op = true := by
        cases op <;> first | rfl | cases hop
      rw [led, Bool.and_eq_true, hkl.trans hkop] at hled
      simp only [Option.all_some, hlow, Bool.not_true, Bool.false_or, Bool.and_eq_true] at hled
      rw [suits, if_pos hop, Bool.and_eq_true]
      exact ⟨suits_of_led lhs hcl hled.1 (hkl.trans hkop) hw,
        suits_pair hcommon (hkl.trans hkop) hkr hled.2.2 hw⟩
    · exact suits_of_leaf (by simpa [isLeaf] using hop) hk hw
  | unary op sub =>
    by_cases hop : keepsOperand op = true
    · rw [suits, if_pos hop]
      rw [led] at hled
      exact suits_of_led sub hc hled (lead_unary hop hk) hw
    · exact suits_of_leaf (by simpa [isLeaf] using hop) hk hw
  | conditional cond thenE elseE =>
    obtain ⟨⟨kc, hkc⟩, hkt, ke, hke⟩ := lead_conditional hk
    obtain ⟨-, hct, hce, hcommon⟩ := hc
    rw [led, hkc, hkt] at hled
    simp only [Option.all_some, Bool.and_eq_true] at hled
    rw [suits, Bool.and_eq_true]
    exact ⟨suits_of_led thenE hct hled.2.1 hkt hw, suits_pair hcommon hkt hke hled.2.2.2 hw⟩
  | _ => exact suits_of_leaf rfl hk hw

/-! ## The verdict -/

theorem verified_append {ops ops' : List Op} :
    Verified τ (ops ++ ops') ↔ Verified τ ops ∧ Verified τ ops' := List.forall_mem_append

theorem verified_singleton {op : Op} : Verified τ [op] ↔ op.verify τ = true := by
  simp [Verified]

theorem Types.first {α β : Type} {o : Out α} {f : α → ℕ → Out β}
    (h : Types τ b (o.andThen f).ops) : Types τ b o.ops := by
  refine h.mono ?_
  rw [Out.andThen_ops]
  exact List.subset_append_left _ _

theorem Types.then {α β : Type} {o : Out α} {f : α → ℕ → Out β} {a : α} (ha : o.value = some a)
    (h : Types τ b (o.andThen f).ops) : Types τ b (f a o.next).ops := by
  refine h.mono ?_
  rw [Out.andThen_ops, ha]
  exact List.subset_append_right _ _

/-- Ops that are not verified against anything. -/
theorem verified_andThen_plain {α β : Type} {o : Out α} {f : α → ℕ → Out β}
    (hf : ∀ a n, Verified τ (f a n).ops) : Verified τ (o.andThen f).ops ↔ Verified τ o.ops := by
  rw [Out.andThen_ops, verified_append]
  cases o.value with
  | none => simp [Verified]
  | some a => simp [hf a o.next]

/-- An expression and what is done with its value. -/
theorem verified_andThen {α : Type} {o : Out Value} {f : Value → ℕ → Out α} {k? : Option Lead}
    {hint : Option Ty} (ho : o.value.map Value.type = k?.map (Lead.under hint)) {p : Bool}
    (hp : Verified τ o.ops ↔ p = true) {q : Lead → Bool}
    (hq : ∀ v k, p = true → o.value = some v → k? = some k → v.type = k.under hint →
      (Verified τ (f v o.next).ops ↔ q k = true)) :
    Verified τ (o.andThen f).ops ↔ (p && k?.all q) = true := by
  rw [Out.andThen_ops, verified_append, Bool.and_eq_true, hp]
  refine and_congr_right fun hpt => ?_
  cases hv : o.value with
  | none =>
    rw [hv] at ho
    rw [Option.map_eq_none_iff.1 ho.symm]
    simp [Verified]
  | some v =>
    rw [hv] at ho
    obtain ⟨k, rfl, htype⟩ := Option.map_eq_some_iff.1 ho.symm
    exact hq v k hpt hv rfl htype.symm

/-- The right operand gets the type of the left one exactly if what leads
the left one has a width it suits. -/
theorem meets_iff {hint : Option Ty} {lhs rhs : Expr} {k kr : Lead} (hk : lead b lhs = some k)
    (hkr : lead b rhs = some kr) (hcommon : ∃ w, suits b w lhs = true ∧ suits b w rhs = true)
    (hcr : Combined b rhs) (hr : led b (some (k.under hint)) rhs = true) :
    kr.under (some (k.under hint)) = k.under hint ↔ k.meets b hint rhs = true := by
  cases k with
  | known type =>
    obtain ⟨w, hl, hw⟩ := hcommon
    have htype : type = .bits w := suits_of_known lhs hl hk
    refine iff_of_true ?_ rfl
    show kr.under (some type) = type
    rw [htype]
    exact under_of_suits hw hkr
  | free value =>
    rw [Lead.meets, hkr]
    constructor
    · intro heq
      exact suits_of_led rhs hcr hr hkr heq
    · intro hw
      exact under_of_suits (by simpa using hw) hkr

/-- Two operands and an op that asks for one type, if there is one. -/
theorem verified_operands (emits : Bool) {n : ℕ} {hint : Option Ty} {lhs rhs : Expr}
    {f : Value → Value → ℕ → Out Value}
    (hlhs : ∀ n hint, Types τ b (lowerExpr b n hint lhs).ops →
      (Verified τ (lowerExpr b n hint lhs).ops ↔ led b hint lhs = true))
    (hrhs : ∀ n hint, Types τ b (lowerExpr b n hint rhs).ops →
      (Verified τ (lowerExpr b n hint rhs).ops ↔ led b hint rhs = true))
    (hcr : Combined b rhs)
    (hcommon : ∃ w, suits b w lhs = true ∧ suits b w rhs = true)
    (hf : ∀ l r n, (Verified τ (f l r n).ops ↔
      (emits = true → τ (b.operand l) = τ (b.operand r))))
    (ht : Types τ b ((lowerExpr b n hint lhs).andThen fun l n =>
      (lowerExpr b n (some l.type) rhs).andThen fun r n => f l r n).ops) :
    Verified τ ((lowerExpr b n hint lhs).andThen fun l n =>
      (lowerExpr b n (some l.type) rhs).andThen fun r n => f l r n).ops ↔
    (led b hint lhs && (lead b lhs).all fun k =>
      led b (some (k.under hint)) rhs && (!emits || k.meets b hint rhs)) = true := by
  refine verified_andThen (lowerExpr_type n hint lhs) (hlhs n hint ht.first) fun l k hl hlv hk htl => ?_
  have ht' := ht.then hlv
  have hfound : τ (b.operand l) = some l.type := ht.first.operand (lowerExpr_found n hint lhs hlv)
  rw [← htl]
  have hall := verified_andThen (f := fun r n => f l r n) (q := fun kr =>
      !emits || decide (kr.under (some l.type) = l.type))
    (lowerExpr_type _ (some l.type) rhs) (hrhs _ _ ht'.first) fun r kr _ hrv _ htr => ?_
  · rw [hall, Bool.and_eq_true, Bool.and_eq_true]
    refine and_congr_right fun hr => ?_
    cases hkr : lead b rhs with
    | none => cases k <;> simp [Lead.meets, hkr]
    | some kr =>
      rw [htl] at hr ⊢
      simp only [Option.all_some, Bool.or_eq_true, decide_eq_true_eq]
      rw [meets_iff hk hkr hcommon hcr hr]
  · have hfound' : τ (b.operand r) = some r.type := ht'.first.operand (lowerExpr_found _ _ rhs hrv)
    rw [hf, hfound, hfound', htr, Option.some.injEq]
    cases emits <;> simp [eq_comm]

theorem verified_lowerMembers (n : ℕ) (cur : Value) (fields : List (Ident × Ty))
    (path : List Ident) : Verified τ (lowerMembers b n cur fields path).ops := by
  induction path generalizing n cur fields with
  | nil => simp [lowerMembers, Out.pure, Verified]
  | cons member path ih =>
    rw [lowerMembers]
    cases fields.findIdx? fun f => f.1 = member with
    | none => simp [Out.fail, Verified]
    | some i =>
      refine (verified_andThen_plain fun v n => ?_).2 (verified_singleton.2 rfl)
      cases ((fields[i]?).map Prod.snd).getD (.bits 1) with
      | bits w => exact ih _ _ _
      | mem depth w => exact ih _ _ _
      | struct name =>
        simp only
        cases b.structTable name with
        | none => simp [Out.fail, Verified]
        | some nested => exact ih _ _ _

theorem verified_fail {α : Type} (n : ℕ) : Verified τ (Out.fail n : Out α).ops := by
  simp [Out.fail, Verified]

mutual

/-- **The ops of an expression pass their verifiers exactly if its
literals are led right.** -/
theorem verified_lowerExpr (e : Expr) (hc : Combined b e) (n : ℕ) (hint : Option Ty)
    (ht : Types τ b (lowerExpr b n hint e).ops) :
    Verified τ (lowerExpr b n hint e).ops ↔ led b hint e = true := by
  cases e with
  | literal kind spelling =>
    simp only [lowerExpr, led]
    cases parseNumericLiteral kind spelling with
    | none => simp [Out.fail, Verified]
    | some p => exact verified_singleton.trans (by simp [Op.verify, Ty.width?, chosen])
  | identifier loc name =>
    simp only [lowerExpr, led]
    refine iff_of_true ?_ trivial
    match name with
    | [] => exact verified_fail n
    | [leaf] =>
      simp only
      split
      · exact verified_singleton.2 rfl
      · simp [Verified]
    | _ :: _ :: _ => exact verified_fail n
  | binary op lhs rhs =>
    obtain ⟨hcl, hcr, hcommon⟩ := hc
    simp only [lowerExpr, led] at ht ⊢
    refine verified_operands _ (fun n hint => verified_lowerExpr lhs hcl n hint)
      (fun n hint => verified_lowerExpr rhs hcr n hint) hcr hcommon (fun l r n => ?_) ht
    have hlow : binaryType? op l.type = none ↔ isLowered op = false := by cases op <;> simp [binaryType?, isLowered]
    cases htype : binaryType? op l.type with
    | none => simp [hlow.1 htype, verified_fail]
    | some type =>
      have hemits : isLowered op = true := by
        rw [← Bool.not_eq_false, ← hlow, htype]
        simp
      exact verified_singleton.trans (by simp [Op.verify, hemits])
  | unary op sub =>
    simp only [lowerExpr, led] at ht ⊢
    refine (verified_andThen_plain fun v n => ?_).trans (verified_lowerExpr sub hc n hint ht.first)
    split
    · simp [Out.pure, Verified]
    · exact verified_singleton.2 rfl
  | signExtend width sub =>
    simp only [lowerExpr, led] at ht ⊢
    exact (verified_andThen_plain fun v n => verified_singleton.2 rfl).trans
      (verified_lowerExpr sub hc n _ ht.first)
  | zeroExtend width sub =>
    simp only [lowerExpr, led] at ht ⊢
    exact (verified_andThen_plain fun v n => verified_singleton.2 rfl).trans
      (verified_lowerExpr sub hc n _ ht.first)
  | conditional cond thenE elseE =>
    obtain ⟨hcc, hct, hce, hcommon⟩ := hc
    simp only [lowerExpr, led] at ht ⊢
    refine verified_andThen (lowerExpr_type n _ cond) (verified_lowerExpr cond hcc n _ ht.first)
      fun c kc _ hcv _ _ => ?_
    have hpair := verified_operands true (n := (lowerExpr b n (some (.bits 1)) cond).next)
      (f := fun t e n => emitValue b n t.type (.mux (b.operand c) (b.operand t) (b.operand e)))
      (fun n hint => verified_lowerExpr thenE hct n hint)
      (fun n hint => verified_lowerExpr elseE hce n hint) hce hcommon
      (fun l r n => verified_singleton.trans (by simp [Op.verify])) (ht.then hcv)
    simpa using hpair
  | slice loc sub hi lo =>
    simp only [lowerExpr, led] at ht ⊢
    refine (verified_andThen_plain fun v n => ?_).trans (verified_lowerExpr sub hc n _ ht.first)
    generalize (if lo.isSome then resolveDecimalLiteral lo else resolveDecimalLiteral (some hi)) = l
    split
    · exact verified_fail n
    · exact verified_singleton.2 rfl
  | concat parts =>
    simp only [lowerExpr, led] at ht ⊢
    refine (verified_andThen_plain fun vs n => ?_).trans (verified_lowerAll parts hc n ht.first)
    split
    · exact verified_fail n
    · exact verified_singleton.2 rfl
  | structCast typeName sub memberPath =>
    simp only [lowerExpr, led] at ht ⊢
    refine (verified_andThen_plain fun v n => ?_).trans (verified_lowerExpr sub hc n _ ht.first)
    split
    · exact verified_singleton.2 rfl
    · cases b.structTable typeName with
      | none => exact verified_fail n
      | some fields =>
        exact (verified_andThen_plain fun cur n => verified_lowerMembers n cur fields memberPath).2
          (verified_singleton.2 rfl)
  | fieldAccess obj field =>
    simp only [lowerExpr, led] at ht ⊢
    refine (verified_andThen_plain fun v n => ?_).trans (verified_lowerExpr obj hc n _ ht.first)
    cases v.type with
    | bits w => exact verified_fail n
    | mem depth w => exact verified_fail n
    | struct name =>
      simp only
      cases b.structTable name with
      | none => exact verified_fail n
      | some fields =>
        simp only
        cases fields.findIdx? fun f => f.1 = field with
        | none => exact verified_fail n
        | some i => exact verified_singleton.2 rfl
  | «repeat» count body =>
    simp only [lowerExpr, led] at ht ⊢
    by_cases hcount : repeatCount b count < 1
    · rw [if_pos hcount]
      exact iff_of_true (verified_fail n) (by simp [hcount])
    · rw [if_neg hcount] at ht ⊢
      refine (verified_andThen_plain fun v n => ?_).trans
        ((verified_lowerExpr body hc n _ ht.first).trans (by simp [hcount]))
      cases v.type with
      | bits w => exact verified_singleton.2 rfl
      | mem depth w => exact verified_fail n
      | struct name => exact verified_fail n
  | call _ _ _ | incDec _ _ _ | systemVar _ => exact iff_of_true (verified_fail n) rfl

theorem verified_lowerAll (es : List Expr) (hc : CombinedAll b es) (n : ℕ)
    (ht : Types τ b (lowerAll b n true es).ops) :
    Verified τ (lowerAll b n true es).ops ↔ ledAll b es = true := by
  cases es with
  | nil => exact iff_of_true (by simp [lowerAll, Out.pure, Verified]) rfl
  | cons e es =>
    obtain ⟨hce, hces⟩ := hc
    simp only [lowerAll, ledAll] at ht ⊢
    refine verified_andThen (lowerExpr_type n none e) (verified_lowerExpr e hce n none ht.first)
      fun v k _ hv _ htype => ?_
    have ht' := ht.then hv
    rw [htype] at ht' ⊢
    by_cases hw : (k.under none).width? = none
    · simp [hw, verified_fail]
    · simp only [true_and, if_neg hw] at ht' ⊢
      have hb : ((k.under none).width? == none) = false := beq_eq_false_iff_ne.2 hw
      rw [hb, Bool.false_or]
      exact (verified_andThen_plain fun vs n => by simp [Out.pure, Verified]).trans
        (verified_lowerAll es hces _ ht'.first)

end

/-! ## Transfers -/

theorem lowerMembers_next (m n : ℕ) (cur : Value) (fields : List (Ident × Ty)) (path : List Ident) :
    lowerMembers { b with next := m } n cur fields path = lowerMembers b n cur fields path := by
  induction path generalizing n cur fields with
  | nil => rfl
  | cons member path ih =>
    simp only [lowerMembers, ih]
    rfl

mutual

/-- Numbers are handed through, so the visitor's own does not matter. -/
theorem lowerExpr_next (m n : ℕ) (hint : Option Ty) (e : Expr) :
    lowerExpr { b with next := m } n hint e = lowerExpr b n hint e := by
  cases e with
  | literal kind spelling =>
    simp only [lowerExpr]
    rfl
  | identifier loc name => simp only [lowerExpr]
  | binary op lhs rhs =>
    simp only [lowerExpr, lowerExpr_next m _ _ lhs, lowerExpr_next m _ _ rhs]
    rfl
  | unary op sub | signExtend width sub | zeroExtend width sub | slice loc sub hi lo
  | fieldAccess sub field | «repeat» count sub =>
    simp only [lowerExpr, lowerExpr_next m _ _ sub]
    rfl
  | structCast typeName sub memberPath =>
    simp only [lowerExpr, lowerExpr_next m _ _ sub, lowerMembers_next]
    rfl
  | conditional cond thenE elseE =>
    simp only [lowerExpr, lowerExpr_next m _ _ cond, lowerExpr_next m _ _ thenE,
      lowerExpr_next m _ _ elseE]
    rfl
  | concat parts =>
    simp only [lowerExpr, lowerAll_next m _ _ parts]
    rfl
  | call _ _ _ | incDec _ _ _ | systemVar _ => rfl

theorem lowerAll_next (m n : ℕ) (bitsOnly : Bool) (es : List Expr) :
    lowerAll { b with next := m } n bitsOnly es = lowerAll b n bitsOnly es := by
  cases es with
  | nil => rfl
  | cons e es => simp only [lowerAll, lowerExpr_next m _ _ e, lowerAll_next m _ _ es]

end

/-- The sides of a transfer as an expression would have them. -/
def transferOut (b : Visitor) (op : TransferOp) (lhs rhs : Expr) : Out Value :=
  (lowerExpr b b.next none lhs).andThen fun l n =>
    (lowerExpr b n (some l.type) rhs).andThen fun r n =>
      ⟨[match op with
        | .regColonEq => .clockedTransfer (b.operand l) (b.operand r)
        | .wireEq => .transfer (b.operand l) (b.operand r)], none, n⟩

theorem ops_transfer (op : TransferOp) (lhs rhs : Expr) :
    (Site.transfer op lhs rhs).ops b = (transferOut b op lhs rhs).ops := by
  simp only [Site.ops, visitStmt, Visitor.withValue, transferOut, Out.andThen_ops]
  cases (lowerExpr b b.next none lhs).value with
  | none => simp
  | some l =>
    simp only [lowerExpr_next, Option.map_some, Option.getD_some]
    cases (lowerExpr b (lowerExpr b b.next none lhs).next (some l.type) rhs).value with
    | none => simp
    | some r => cases op <;> rfl

/-- **Literals adapt** to the context they are lowered in: with operands of
one width the emitted ops pass their verifiers exactly if the literals
that lead a left operand take the width of the right one. -/
theorem site_verified_iff (site : Site) (hc : site.Combined b) (ht : Types τ b (site.ops b)) :
    Verified τ (site.ops b) ↔ site.led b = true := by
  cases site with
  | expr hint e => exact verified_lowerExpr e hc b.next hint ht
  | transfer op lhs rhs =>
    obtain ⟨hcl, hcr, hcommon⟩ := hc
    rw [ops_transfer] at ht ⊢
    have hoperands := verified_operands true (fun n hint => verified_lowerExpr lhs hcl n hint)
      (fun n hint => verified_lowerExpr rhs hcr n hint) hcr hcommon
      (fun l r n => by cases op <;> exact verified_singleton.trans (by simp [Op.verify])) ht
    exact hoperands.trans (by simp [Site.led])

end Values

/-! ## Literals on the left -/

/-- A module with `reg a[4];`. -/
def withRegister : Visitor := (Visitor.start.define "a".toList (.bits 4) (.reg "a".toList none)).1

def three : Expr := .literal .decimal "3".toList

def regA : Expr := .identifier 0 ["a".toList]

/-- The register and results of the given widths. -/
def widthsOwn (bits : ℕ → ℕ) : Operand → Option Ty
  | .own i => some (.bits (bits i))
  | .foreign _ _ => none

theorem types_withRegister {bits : ℕ → ℕ} (hreg : bits 0 = 4) {ops : List Op}
    (hops : ∀ i type op, Op.value i type op ∈ ops → type = .bits (bits i)) :
    Types (widthsOwn bits) withRegister ops where
  names := by
    intro name v hv
    by_cases hname : name = "a".toList
    · subst hname
      obtain rfl : (⟨0, 0, .bits 4⟩ : Value) = v := Option.some.inj hv
      show some (Ty.bits (bits 0)) = _
      rw [hreg]
    · have hnone : withRegister.nameTable name = none := Function.update_of_ne hname _ _
      rw [hnone] at hv
      cases hv
  results := fun i type op hop => congrArg some (hops i type op hop).symm

theorem parse_three : parseNumericLiteral .decimal "3".toList = some ⟨3, none⟩ := by decide +kernel

/-- `a == 3` as a condition, and `a := 3 + a`. -/
theorem verified_literalAdapts :
    Verified (widthsOwn fun i => if i = 2 then 1 else 4)
        ((Site.expr (some (.bits 1)) (.binary .equal regA three)).ops withRegister) ∧
      Verified (widthsOwn fun _ => 4)
        ((Site.transfer .regColonEq regA (.binary .add three regA)).ops withRegister) := by
  have hequal : (Site.expr (some (.bits 1)) (.binary .equal regA three)).ops withRegister =
      [.value 1 (.bits 4) (.constant 3), .value 2 (.bits 1) (.binary .equal (.own 0) (.own 1))] := by
    simp only [Site.ops, three, regA, lowerExpr, parse_three]
    rfl
  have hadd : (Site.transfer .regColonEq regA (.binary .add three regA)).ops withRegister =
      [.value 1 (.bits 4) (.constant 3), .value 2 (.bits 4) (.binary .add (.own 1) (.own 0)),
        .clockedTransfer (.own 0) (.own 2)] := by
    simp only [Site.ops, visitStmt, three, regA, lowerExpr, parse_three]
    rfl
  constructor
  · have hc : (Site.expr (some (.bits 1)) (.binary .equal regA three)).Combined withRegister :=
      ⟨trivial, trivial, 4, by decide +kernel, by decide +kernel⟩
    refine (site_verified_iff _ hc ?_).2 (by decide +kernel)
    rw [hequal]
    refine types_withRegister rfl fun i type op hop => ?_
    simp at hop
    rcases hop with ⟨rfl, rfl, -⟩ | ⟨rfl, rfl, -⟩ <;> rfl
  · have hc : (Site.transfer .regColonEq regA (.binary .add three regA)).Combined withRegister :=
      ⟨trivial, ⟨trivial, trivial, 4, by decide +kernel, by decide +kernel⟩, 4, by decide +kernel,
        by decide +kernel⟩
    refine (site_verified_iff _ hc ?_).2 (by decide +kernel)
    rw [hadd]
    refine types_withRegister rfl fun i type op hop => ?_
    simp at hop
    rcases hop with ⟨rfl, rfl, -⟩ | ⟨rfl, rfl, -⟩ <;> rfl

/-- `3 == a` as a condition: the literal gets one bit. -/
theorem not_verified_literalLeads :
    (Site.expr (some (.bits 1)) (.binary .equal three regA)).Combined withRegister ∧
      ∀ τ, ¬ Verified τ ((Site.expr (some (.bits 1)) (.binary .equal three regA)).ops withRegister) := by
  refine ⟨⟨trivial, trivial, 4, by decide +kernel, by decide +kernel⟩, fun τ h => ?_⟩
  have hops : (Site.expr (some (.bits 1)) (.binary .equal three regA)).ops withRegister =
      [.value 1 (.bits 1) (.constant 3), .value 2 (.bits 1) (.binary .equal (.own 1) (.own 0))] := by
    simp only [Site.ops, three, regA, lowerExpr, parse_three]
    rfl
  rw [hops] at h
  have hconst : (Ty.bits 1).width?.any (constantFits 3) = true := h _ List.mem_cons_self
  exact absurd hconst (by decide +kernel)

end ASTToMLIR

end Nslc
