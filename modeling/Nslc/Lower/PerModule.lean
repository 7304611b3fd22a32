import Nslc.Lower.Isolation
/-!
# Lowering is per module

Two runs of the visitor over the same module, one of them without what
other modules left in the tables. They emit the same ops as long as no
leaked name is read: first the expressions, then the statements and
declarations by one induction, then the items of the unit.
-/

namespace Nslc

namespace ASTToMLIR

open AST

/-! ## Two runs in step -/

/-- What stays the same along a module: the numbers of the two modules,
and the structs and parameters, which the runs share. -/
structure Frame where
  home : ℕ
  home' : ℕ
  structs : Ident → Option (List (Ident × Ty))
  params : Ident → Option ℤ

variable {F : Frame} {L L' : Leak} {A B : Visitor} {ctx : Enclosing}

/-- The same result, each in its own module. -/
structure SameValue (F : Frame) (v w : Value) : Prop where
  home : v.home = F.home
  home' : w.home = F.home'
  index : v.index = w.index
  type : v.type = w.type

/-- The tables agree on every name that did not leak. A control name is
looked up first, so its value does not matter. -/
structure Agree (F : Frame) (L : Leak) (A B : Visitor) : Prop where
  home : A.home = F.home
  home' : B.home = F.home'
  structs : A.structTable = F.structs
  structs' : B.structTable = F.structs
  params : A.paramTable = F.params
  params' : B.paramTable = F.params
  next : A.next = B.next
  control : ∀ x, L.control x = false → A.controlTable x = B.controlTable x
  value : ∀ x, L.control x = false → L.value x = false → A.controlTable x = false →
    Option.Rel (SameValue F) (A.nameTable x) (B.nameTable x)

theorem Agree.with_next (h : Agree F L A B) (n : ℕ) :
    Agree F L { A with next := n } { B with next := n } :=
  ⟨h.home, h.home', h.structs, h.structs', h.params, h.params', rfl, h.control, h.value⟩

/-- Fewer names leaked. -/
def Leak.le (L L' : Leak) : Prop :=
  (∀ x, L'.control x = false → L.control x = false) ∧
    ∀ x, L'.control x = false → L'.value x = false → L.value x = false

theorem Agree.mono (h : Agree F L A B) (hle : L.le L') : Agree F L' A B :=
  ⟨h.home, h.home', h.structs, h.structs', h.params, h.params', h.next,
    fun x hx => h.control x (hle.1 x hx),
    fun x hx hv => h.value x (hle.1 x hx) (hle.2 x hx hv)⟩

theorem Agree.isOwn (h : Agree F L A B) {v w : Value} (hv : SameValue F v w) :
    (A.operand v).isOwn = true := by
  rw [Visitor.operand, if_pos (hv.home.trans h.home.symm)]
  rfl

theorem Agree.operand (h : Agree F L A B) {v w : Value} (hv : SameValue F v w) :
    A.operand v = B.operand w := by
  rw [Visitor.operand, Visitor.operand, if_pos (hv.home.trans h.home.symm),
    if_pos (hv.home'.trans h.home'.symm), hv.index]

theorem Agree.operands (h : Agree F L A B) {vs ws : List Value}
    (hvs : List.Forall₂ (SameValue F) vs ws) :
    vs.map A.operand = ws.map B.operand ∧ (vs.map A.operand).all Operand.isOwn = true := by
  induction hvs with
  | nil => exact ⟨rfl, rfl⟩
  | cons hv _ ih =>
    refine ⟨?_, ?_⟩
    · rw [List.map_cons, List.map_cons, h.operand hv, ih.1]
    · rw [List.map_cons, List.all_cons, h.isOwn hv, ih.2, Bool.and_true]

/-! ## Expressions -/

/-- Two lowerings of an expression that emit the same ops. -/
structure SameOut {α : Type} (R : α → α → Prop) (o o' : Out α) : Prop where
  ops : o.ops = o'.ops
  own : Op.allOwn o.ops = true
  value : Option.Rel R o.value o'.value
  next : o.next = o'.next

section Out

variable {α β : Type} {R : α → α → Prop} {S : β → β → Prop}

theorem SameOut.fail (n : ℕ) : SameOut R (Out.fail n) (Out.fail n) := ⟨rfl, rfl, .none, rfl⟩

theorem SameOut.pure (n : ℕ) {a a' : α} (h : R a a') : SameOut R (Out.pure n a) (Out.pure n a') :=
  ⟨rfl, rfl, .some h, rfl⟩

theorem SameOut.andThen {o o' : Out α} {f f' : α → ℕ → Out β} (h : SameOut R o o')
    (hf : ∀ a a' n, R a a' → SameOut S (f a n) (f' a' n)) :
    SameOut S (o.andThen f) (o'.andThen f') := by
  obtain ⟨ops, value, next⟩ := o
  obtain ⟨ops', value', next'⟩ := o'
  obtain ⟨hops, hown, hvalue, hnext⟩ := h
  simp only at hops hown hvalue hnext
  subst hops hnext
  cases hvalue with
  | none => exact ⟨rfl, hown, .none, rfl⟩
  | some ha =>
    have hrest := hf _ _ next ha
    refine ⟨?_, ?_, hrest.value, hrest.next⟩
    · show ops ++ _ = ops ++ _
      rw [hrest.ops]
    · show Op.allOwn (ops ++ _) = true
      rw [Op.allOwn_append, hown, hrest.own]
      rfl

theorem SameOut.both {o o' : Out α} {f f' : ℕ → Out β} (h : SameOut R o o')
    (hf : ∀ n, SameOut S (f n) (f' n)) :
    SameOut (fun p q => R p.1 q.1 ∧ S p.2 q.2) (o.both f) (o'.both f') := by
  obtain ⟨ops, value, next⟩ := o
  obtain ⟨ops', value', next'⟩ := o'
  obtain ⟨hops, hown, hvalue, hnext⟩ := h
  simp only at hops hown hvalue hnext
  subst hops hnext
  have hrest := hf next
  refine ⟨?_, ?_, ?_, hrest.next⟩
  · show ops ++ _ = ops ++ _
    rw [hrest.ops]
  · show Op.allOwn (ops ++ _) = true
    rw [Op.allOwn_append, hown, hrest.own]
    rfl
  · show Option.Rel _ (value.bind _) (value'.bind _)
    cases hvalue with
    | none => exact .none
    | some ha =>
      have hvalue := hrest.value
      show Option.Rel _ (Option.map _ (f next).value) (Option.map _ (f' next).value)
      revert hvalue
      generalize (f next).value = c, (f' next).value = c'
      intro hvalue
      cases hvalue with
      | none => exact .none
      | some hc => exact .some ⟨ha, hc⟩

end Out

theorem emitValue_same (h : Agree F L A B) (n : ℕ) (type : Ty) {op op' : ValueOp}
    (hop : op = op') (hown : op.operands.all Operand.isOwn = true) :
    SameOut (SameValue F) (emitValue A n type op) (emitValue B n type op') := by
  subst hop
  refine ⟨rfl, ?_, .some ⟨h.home, h.home', rfl, rfl⟩, rfl⟩
  simp only [emitValue, Op.allOwn, Op.own, hown, Bool.and_true]

/-- An op with one operand. -/
theorem emitUnary_same (h : Agree F L A B) (n : ℕ) (type : Ty) (f : Operand → ValueOp)
    (hf : ∀ o, (f o).operands = [o]) {v w : Value} (hv : SameValue F v w) :
    SameOut (SameValue F) (emitValue A n type (f (A.operand v)))
      (emitValue B n type (f (B.operand w))) := by
  apply emitValue_same h n type
  · rw [h.operand hv]
  · rw [hf, List.all_cons, h.isOwn hv]
    rfl

theorem lowerMembers_same (h : Agree F L A B) (path : List Ident) (n : ℕ) {v w : Value}
    (hv : SameValue F v w) (fields : List (Ident × Ty)) :
    SameOut (SameValue F) (lowerMembers A n v fields path) (lowerMembers B n w fields path) := by
  induction path generalizing n v w fields with
  | nil => exact .pure n hv
  | cons member path ih =>
    rw [lowerMembers, lowerMembers]
    cases fields.findIdx? (fun f => f.1 = member) with
    | none => exact .fail n
    | some i =>
      refine (emitUnary_same h n _ (.field · i) (fun _ => rfl) hv).andThen
        fun v' w' n hv' => ?_
      cases ((fields[i]?).map Prod.snd).getD (.bits 1) with
      | bits width => exact ih n hv' fields
      | mem depth width => exact ih n hv' fields
      | struct name =>
        simp only [h.structs, h.structs']
        cases F.structs name with
        | none => exact .fail n
        | some nested => exact ih n hv' nested

theorem Leak.unread_append {xs ys : List Ident} :
    L.unread (xs ++ ys) = true ↔ L.unread xs = true ∧ L.unread ys = true := by
  simp only [Leak.unread, List.all_append, Bool.and_eq_true]

theorem repeatCount_eq (h : Agree F L A B) (count : Expr) :
    repeatCount A count = repeatCount B count := by
  unfold repeatCount
  split
  · rfl
  · rw [h.params, h.params']
  · rfl

/-- A single name: the control set and the values agree on it. -/
theorem lowerName_same (h : Agree F L A B) (n : ℕ) (hint : Option Ty) (loc : Loc) {x : Ident}
    (hx : L.unread [x] = true) :
    SameOut (SameValue F) (lowerExpr A n hint (.identifier loc [x]))
      (lowerExpr B n hint (.identifier loc [x])) := by
  simp only [Leak.unread, List.all_cons, List.all_nil, Bool.and_true, Bool.and_eq_true,
    Bool.not_eq_true'] at hx
  obtain ⟨hcontrol, hvalue⟩ := hx
  simp only [lowerExpr, ← h.control x hcontrol]
  cases hA : A.controlTable x with
  | true => exact ⟨rfl, rfl, .none, rfl⟩
  | false => exact ⟨rfl, rfl, h.value x hcontrol hvalue hA, rfl⟩

mutual

theorem lowerExpr_same (h : Agree F L A B) (n : ℕ) (hint : Option Ty) (e : Expr)
    (he : L.unread (exprReads e) = true) :
    SameOut (SameValue F) (lowerExpr A n hint e) (lowerExpr B n hint e) := by
  cases e with
  | literal kind spelling =>
    simp only [lowerExpr]
    cases parseNumericLiteral kind spelling with
    | none => exact .fail n
    | some p => exact emitValue_same h n _ rfl rfl
  | identifier loc name =>
    match name with
    | [] => exact .fail n
    | [x] => exact lowerName_same h n hint loc he
    | _ :: _ :: _ => exact .fail n
  | binary op lhs rhs =>
    obtain ⟨hl, hr⟩ := Leak.unread_append.1 he
    simp only [lowerExpr]
    refine (lowerExpr_same h n hint lhs hl).andThen fun l l' n hll => ?_
    rw [hll.type]
    refine (lowerExpr_same h n _ rhs hr).andThen fun r r' n hrr => ?_
    cases binaryType? op l'.type with
    | none => exact .fail n
    | some type =>
      apply emitValue_same h n type
      · rw [h.operand hll, h.operand hrr]
      · simp only [ValueOp.operands, List.all_cons, List.all_nil, h.isOwn hll, h.isOwn hrr,
          Bool.and_true]
  | unary op sub =>
    simp only [lowerExpr]
    refine (lowerExpr_same h n hint sub he).andThen fun v w n hv => ?_
    rw [hv.type]
    by_cases hop : op = .plus
    · rw [if_pos hop, if_pos hop]
      exact .pure n hv
    · rw [if_neg hop, if_neg hop]
      exact emitUnary_same h n _ (.unary op) (fun _ => rfl) hv
  | signExtend width sub =>
    simp only [lowerExpr]
    exact (lowerExpr_same h n _ sub he).andThen fun v w n hv =>
      emitUnary_same h n _ .signExtend (fun _ => rfl) hv
  | zeroExtend width sub =>
    simp only [lowerExpr]
    exact (lowerExpr_same h n _ sub he).andThen fun v w n hv =>
      emitUnary_same h n _ .zeroExtend (fun _ => rfl) hv
  | conditional cond thenE elseE =>
    obtain ⟨hct, he'⟩ := Leak.unread_append.1 he
    obtain ⟨hc, ht⟩ := Leak.unread_append.1 hct
    simp only [lowerExpr]
    refine (lowerExpr_same h n _ cond hc).andThen fun c c' n hcc => ?_
    refine (lowerExpr_same h n hint thenE ht).andThen fun t t' n htt => ?_
    rw [htt.type]
    refine (lowerExpr_same h n _ elseE he').andThen fun e e' n hee => ?_
    apply emitValue_same h n
    · rw [h.operand hcc, h.operand htt, h.operand hee]
    · simp only [ValueOp.operands, List.all_cons, List.all_nil, h.isOwn hcc, h.isOwn htt,
        h.isOwn hee, Bool.and_true]
  | slice loc sub hi lo =>
    simp only [lowerExpr]
    refine (lowerExpr_same h n none sub he).andThen fun v w n hv => ?_
    by_cases hlt : resolveDecimalLiteral (some hi) <
        if lo.isSome then resolveDecimalLiteral lo else resolveDecimalLiteral (some hi)
    · rw [if_pos hlt, if_pos hlt]
      exact .fail n
    · rw [if_neg hlt, if_neg hlt]
      exact emitUnary_same h n _ (.extract · _) (fun _ => rfl) hv
  | concat parts =>
    simp only [lowerExpr]
    refine (lowerAll_same h n true parts he).andThen fun vs ws n hvs => ?_
    have hnil : vs = [] ↔ ws = [] := by
      cases hvs with
      | nil => exact Iff.rfl
      | cons hv hvs => exact ⟨(nomatch ·), (nomatch ·)⟩
    have hwidths : (vs.map fun v => v.type.width?.getD 0) = ws.map fun w => w.type.width?.getD 0 := by
      clear hnil
      induction hvs with
      | nil => rfl
      | cons hv _ ih => rw [List.map_cons, List.map_cons, hv.type, ih]
    obtain ⟨hops, hown⟩ := h.operands hvs
    simp only [hnil, hwidths]
    split
    · exact .fail n
    · exact emitValue_same h n _ (by rw [hops]) hown
  | structCast typeName sub memberPath =>
    simp only [lowerExpr]
    refine (lowerExpr_same h n none sub he).andThen fun v w n hv => ?_
    have hcast := fun n => emitUnary_same h n (.struct typeName) .structCast (fun _ => rfl) hv
    simp only [h.structs, h.structs']
    split
    · exact hcast n
    · cases F.structs typeName with
      | none => exact .fail n
      | some fields =>
        exact (hcast n).andThen fun v' w' n hv' => lowerMembers_same h memberPath n hv' fields
  | fieldAccess obj field =>
    simp only [lowerExpr]
    refine (lowerExpr_same h n none obj he).andThen fun v w n hv => ?_
    rw [hv.type]
    cases w.type with
    | bits width => exact .fail n
    | mem depth width => exact .fail n
    | struct name =>
      simp only [h.structs, h.structs']
      cases F.structs name with
      | none => exact .fail n
      | some fields =>
        simp only
        cases fields.findIdx? (fun f => f.1 = field) with
        | none => exact .fail n
        | some i => exact emitUnary_same h n _ (.field · i) (fun _ => rfl) hv
  | «repeat» count body =>
    simp only [lowerExpr, repeatCount_eq h]
    split
    · exact .fail n
    · refine (lowerExpr_same h n none body he).andThen fun v w n hv => ?_
      rw [hv.type]
      cases w.type with
      | bits width => exact emitUnary_same h n _ (.repeat · _) (fun _ => rfl) hv
      | mem depth width => exact .fail n
      | struct name => exact .fail n
  | call loc target args => exact .fail n
  | incDec target op isPrefix => exact .fail n
  | systemVar var => exact .fail n

theorem lowerAll_same (h : Agree F L A B) (n : ℕ) (bitsOnly : Bool) (es : List Expr)
    (hes : L.unread (exprsReads es) = true) :
    SameOut (List.Forall₂ (SameValue F)) (lowerAll A n bitsOnly es) (lowerAll B n bitsOnly es) := by
  cases es with
  | nil => exact .pure n .nil
  | cons e es =>
    obtain ⟨he, hes⟩ := Leak.unread_append.1 hes
    simp only [lowerAll]
    refine (lowerExpr_same h n none e he).andThen fun v w n hv => ?_
    rw [hv.type]
    split
    · exact .fail n
    · exact (lowerAll_same h n bitsOnly es hes).andThen fun vs ws n hvs => .pure n (.cons hv hvs)

end

/-! ## Declarations -/

/-- Two visits that emit the same ops and leave the runs in step. -/
structure Lock (F : Frame) (L : Leak) (r r' : Visitor × List Op) : Prop where
  ops : r.2 = r'.2
  own : Op.allOwn r.2 = true
  agree : Agree F L r.1 r'.1

theorem Lock.nothing (h : Agree F L A B) : Lock F L (A, []) (B, []) := ⟨rfl, rfl, h⟩

theorem Lock.emit (h : Agree F L A B) {op : Op} (hop : op.own = true) :
    Lock F L (A, [op]) (B, [op]) := by
  refine ⟨rfl, ?_, h⟩
  simp only [Op.allOwn, hop, Bool.and_true]

theorem Lock.mono {r r' : Visitor × List Op} (h : Lock F L r r') (hle : L.le L') :
    Lock F L' r r' := ⟨h.ops, h.own, h.agree.mono hle⟩

/-- The ops of a visit inside an op. -/
theorem Lock.wrap {r r' : Visitor × List Op} (h : Lock F L r r') (f : List Op → Op)
    (hf : ∀ ops, Op.allOwn ops = true → (f ops).own = true) :
    Lock F L (r.1, [f r.2]) (r'.1, [f r'.2]) := by
  refine ⟨?_, ?_, h.agree⟩
  · rw [h.ops]
  · simp only [Op.allOwn, hf _ h.own, Bool.and_true]

/-- One visit behind another. -/
theorem Lock.append {r r' s s' : Visitor × List Op} (h : Lock F L r r') (hs : Lock F L' s s') :
    Lock F L' (s.1, r.2 ++ s.2) (s'.1, r'.2 ++ s'.2) := by
  refine ⟨?_, ?_, hs.agree⟩
  · rw [h.ops, hs.ops]
  · rw [Op.allOwn_append, h.own, hs.own]
    rfl

theorem withValue_lock {α : Type} {R : α → α → Prop} (h : Agree F L A B) {o o' : Out α}
    {k k' : α → Visitor → Visitor × List Op} (ho : SameOut R o o')
    (hk : ∀ a a' A' B', R a a' → Agree F L A' B' → Lock F L (k a A') (k' a' B')) :
    Lock F L (A.withValue o k) (B.withValue o' k') := by
  obtain ⟨ops, value, next⟩ := o
  obtain ⟨ops', value', next'⟩ := o'
  obtain ⟨hops, hown, hvalue, hnext⟩ := ho
  simp only at hops hown hvalue hnext
  subst hops hnext
  cases hvalue with
  | none => exact ⟨rfl, hown, h.with_next next⟩
  | some ha =>
    have hrest := hk _ _ _ _ ha (h.with_next next)
    refine ⟨?_, ?_, hrest.agree⟩
    · show ops ++ _ = ops ++ _
      rw [hrest.ops]
    · show Op.allOwn (ops ++ _) = true
      rw [Op.allOwn_append, hown, hrest.own]
      rfl

/-! ### Entering names -/

theorem Leak.minus_le (L : Leak) (controls values : List Ident) : (L.minus controls values).le L := by
  refine ⟨fun x hx => ?_, fun x _ hv => ?_⟩
  · simp only [minus, hx, Bool.false_and]
  · simp only [minus, hv, Bool.false_and]

theorem Leak.minus_nil (L : Leak) : L.minus [] [] = L := by
  simp only [minus, List.contains_nil, Bool.not_false, Bool.and_true]

/-- A declaration that enters no name. -/
theorem Lock.minus_nil {r r' : Visitor × List Op} (h : Lock F L r r') :
    Lock F (L.minus [] []) r r' := by
  rw [Leak.minus_nil]
  exact h

theorem Leak.minus_cons (L : Leak) (x : Ident) (xs : List Ident) :
    (L.minus [x] []).minus xs [] = L.minus (x :: xs) [] := by
  simp only [minus, List.contains_cons, List.contains_nil, Bool.not_false, Bool.and_true,
    Bool.not_or, Bool.or_false, Bool.and_assoc]

theorem Leak.control_minus {L : Leak} {x y : Ident} (hxy : y ≠ x) :
    (L.minus [x] []).control y = L.control y ∧ (L.minus [x] []).value y = L.value y := by
  simp [minus, hxy]

theorem nameControl_agree (h : Agree F L A B) (x : Ident) :
    Agree F (L.minus [x] []) (A.nameControl x) (B.nameControl x) := by
  refine ⟨h.home, h.home', h.structs, h.structs', h.params, h.params', h.next, fun y hy => ?_,
    fun y hy hv hc => ?_⟩
  · rw [Visitor.nameControl, Visitor.nameControl]
    by_cases hyx : y = x
    · subst hyx
      simp only [Function.update_self]
    · rw [(Leak.control_minus hyx).1] at hy
      simp only [Function.update_of_ne hyx]
      exact h.control y hy
  · have hyx : y ≠ x := by
      rintro rfl
      simp [Visitor.nameControl] at hc
    rw [(Leak.control_minus hyx).1] at hy
    rw [(Leak.control_minus hyx).2] at hv
    simp only [Visitor.nameControl, Function.update_of_ne hyx] at hc
    exact h.value y hy hv hc

theorem nameControls_agree (xs : List Ident) (h : Agree F L A B) :
    Agree F (L.minus xs []) (xs.foldl Visitor.nameControl A) (xs.foldl Visitor.nameControl B) := by
  induction xs generalizing L A B with
  | nil =>
    rw [Leak.minus_nil]
    exact h
  | cons x xs ih =>
    rw [← Leak.minus_cons]
    exact ih (nameControl_agree h x)

theorem define_lock (h : Agree F L A B) (x : Ident) (type : Ty) {op : ValueOp}
    (hop : op.operands = []) :
    Lock F (L.minus [] [x]) (A.define x type op) (B.define x type op) := by
  refine ⟨?_, ?_, h.home, h.home', h.structs, h.structs', h.params, h.params', ?_, fun y hy => ?_,
    fun y hy hv hc => ?_⟩
  · simp only [Visitor.define, h.next]
  · simp only [Visitor.define, Op.allOwn, Op.own, hop, List.all_nil, Bool.and_true]
  · simp only [Visitor.define, Visitor.nameValue, h.next]
  · simp only [Leak.minus, List.contains_nil, Bool.not_false, Bool.and_true] at hy
    exact h.control y hy
  · simp only [Leak.minus, List.contains_nil, Bool.not_false, Bool.and_true] at hy
    simp only [Visitor.define, Visitor.nameValue]
    by_cases hyx : y = x
    · subst hyx
      simp only [Function.update_self]
      exact .some ⟨h.home, h.home', h.next, rfl⟩
    · simp only [Function.update_of_ne hyx]
      have hv' : L.value y = false := by simpa [Leak.minus, hyx] using hv
      exact h.value y hy hv' hc

theorem visitPort_lock (h : Agree F L A B) (ctx : Enclosing) (p : PortDecl) :
    Lock F (declLeak ctx L (.port p)) (visitPort A p) (visitPort B p) := by
  cases hd : p.direction <;> simp only [visitPort, declLeak, declControls, declValues, hd]
  case funcIn | funcOut | funcSelf => exact Lock.emit (nameControl_agree h p.name) rfl
  case input | output | inout => exact define_lock h p.name _ rfl
  case wire => exact (Lock.nothing h).minus_nil

theorem visitPorts_lock (ctx : Enclosing) (ps : List PortDecl) (h : Agree F L A B) :
    Lock F (declsLeak ctx L (ps.map .port)) (visitPorts A ps) (visitPorts B ps) := by
  induction ps generalizing L A B with
  | nil => exact Lock.nothing h
  | cons p ps ih =>
    have hp := visitPort_lock h ctx p
    exact hp.append (ih hp.agree)

theorem declsLeak_le (ctx : Enclosing) (ds : List Decl) (L : Leak) : (declsLeak ctx L ds).le L := by
  induction ds generalizing L with
  | nil => exact ⟨fun _ h => h, fun _ _ h => h⟩
  | cons d ds ih =>
    obtain ⟨hc, hv⟩ := ih (declLeak ctx L d)
    obtain ⟨hc', hv'⟩ := L.minus_le (declControls ctx d) (declValues d)
    exact ⟨fun x hx => hc x (hc' x hx), fun x hx hvx => hv x (hc' x hx) (hv' x hx hvx)⟩

/-! ## Statements -/

section Values

variable {k k' : Value → Visitor → Visitor × List Op}

/-- Go on with the value of an expression. -/
theorem withExpr_lock (h : Agree F L A B) (hint : Option Ty) {e : Expr}
    (he : L.unread (exprReads e) = true)
    (hk : ∀ v w A' B', SameValue F v w → Agree F L A' B' → Lock F L (k v A') (k' w B')) :
    Lock F L (A.withValue (lowerExpr A A.next hint e) k)
      (B.withValue (lowerExpr B B.next hint e) k') := by
  rw [← h.next]
  exact withValue_lock h (lowerExpr_same h A.next hint e he) hk

end Values

/-- The declarations and items of a block: the declarations are in place
for the items, not behind the block. -/
theorem block_lock {decls : List Decl} {r r' s s' : Visitor × List Op}
    (hr : Lock F (declsLeak ctx L decls) r r') (hs : Lock F (declsLeak ctx L decls) s s') :
    Lock F L (s.1, r.2 ++ s.2) (s'.1, r'.2 ++ s'.2) :=
  (hr.append hs).mono (declsLeak_le ctx decls L)

/-- The cases of an `alt` or `any`, with whether one was emitted. -/
structure CasesLock (F : Frame) (L : Leak) (r r' : Visitor × List Op × Bool) : Prop where
  lock : Lock F L (r.1, r.2.1) (r'.1, r'.2.1)
  emitted : r.2.2 = r'.2.2

/-- An `alt` or `any`, from its cases and its `else`. -/
theorem alternatives_lock {r r' : Visitor × List Op × Bool} {s s' : Visitor × List Op}
    (hr : CasesLock F L r r') (hs : Lock F L s s') (f : List Op → Op)
    (hf : ∀ ops, Op.allOwn ops = true → (f ops).own = true) (hasElse : Bool) :
    Lock F L (s.1, if r.2.2 || hasElse then [f (r.2.1 ++ s.2)] else [])
      (s'.1, if r'.2.2 || hasElse then [f (r'.2.1 ++ s'.2)] else []) := by
  rw [← hr.emitted]
  split
  · exact (hr.lock.append hs).wrap f hf
  · exact Lock.nothing hs.agree

mutual

theorem visitStmt_lock (ctx : Enclosing) (flat : Bool) (s : Stmt) {L : Leak} {A B : Visitor}
    (h : Agree F L A B)
    (hs : stmtSafe ctx L s = true) :
    Lock F L (visitStmt ctx flat A s) (visitStmt ctx flat B s) := by
  cases s with
  | transfer loc op lhs rhs =>
    obtain ⟨hl, hr⟩ := Leak.unread_append.1 hs
    simp only [visitStmt]
    refine withExpr_lock h none hl fun l l' A B hll h => ?_
    rw [hll.type]
    refine withExpr_lock h _ hr fun r r' A B hrr h => ?_
    rw [← h.operand hll, ← h.operand hrr]
    have hown : ((A.operand l).isOwn && (A.operand r).isOwn) = true := by
      rw [h.isOwn hll, h.isOwn hrr]
      rfl
    cases op with
    | wireEq => exact Lock.emit h hown
    | regColonEq => exact Lock.emit h hown
  | controlCall loc target args =>
    simp only [visitStmt]
    rw [← h.next]
    refine withValue_lock h (lowerAll_same h A.next false args hs) fun vs ws A B hvs h => ?_
    obtain ⟨hops, hown⟩ := h.operands hvs
    rw [← hops]
    exact Lock.emit h hown
  | bareFinish loc => exact Lock.emit h rfl
  | systemTask name args =>
    simp only [visitStmt, visitSystemTask]
    by_cases hfinish : name = "_finish".toList
    · rw [if_pos hfinish, if_pos hfinish]
      exact Lock.emit h rfl
    · rw [if_neg hfinish, if_neg hfinish]
      split
      · exact Lock.emit h rfl
      · exact Lock.nothing h
  | initBlock items =>
    exact (visitStmts_lock ctx items h hs).wrap .simInit fun ops h => h
  | delayTask count => exact Lock.emit h rfl
  | parallel items decls =>
    obtain ⟨hdecls, hitems⟩ := Bool.and_eq_true_iff.1 hs
    have hd := visitDecls_lock ctx decls h hdecls
    have hblock := block_lock hd (visitStmts_lock ctx items hd.agree hitems)
    cases flat with
    | true => exact hblock
    | false => exact hblock.wrap .parallel fun ops h => h
  | seq items decls =>
    obtain ⟨hdecls, hitems⟩ := Bool.and_eq_true_iff.1 hs
    have hd := visitDecls_lock ctx decls h hdecls
    have hblock := block_lock hd (visitStmts_lock ctx items hd.agree hitems)
    exact hblock.wrap .seq fun ops h => h
  | alt cases elseCase =>
    obtain ⟨hcases, helse⟩ := Bool.and_eq_true_iff.1 hs
    have hc := visitCases_lock ctx cases h hcases
    exact alternatives_lock hc (visitElse_lock ctx elseCase hc.lock.agree helse) .alt
      (fun ops h => h) _
  | any cases elseCase =>
    obtain ⟨hcases, helse⟩ := Bool.and_eq_true_iff.1 hs
    have hc := visitCases_lock ctx cases h hcases
    exact alternatives_lock hc (visitElse_lock ctx elseCase hc.lock.agree helse) .any
      (fun ops h => h) _
  | «while» cond items =>
    obtain ⟨hcond, hitems⟩ := Bool.and_eq_true_iff.1 hs
    simp only [visitStmt]
    refine withExpr_lock h _ hcond fun c c' A B hcc h => ?_
    rw [← h.operand hcc]
    exact (visitStmts_lock ctx items h hitems).wrap (.while (A.operand c)) fun ops hops =>
      Bool.and_eq_true_iff.2 ⟨h.isOwn hcc, hops⟩
  | «for» init cond step items =>
    simp only [stmtSafe, Bool.and_eq_true] at hs
    obtain ⟨⟨⟨hinit, hcond⟩, hstep⟩, hitems⟩ := hs
    simp only [visitStmt]
    cases ht : initTarget init with
    | none => exact Lock.nothing h
    | some target =>
      rw [ht] at hinit
      simp only
      rw [← h.next]
      refine withValue_lock h ((lowerExpr_same h A.next none target hinit).both fun n =>
        lowerExpr_same h n _ cond hcond) fun v w A B hvw h => ?_
      obtain ⟨hv, hw⟩ := hvw
      cases step with
      | none =>
        simp only
        rw [← h.operand hv, ← h.operand hw]
        refine (visitStmts_lock ctx items h hitems).wrap
          (.for (A.operand v.1) (A.operand v.2) none) fun ops hops => ?_
        simp only [Op.own, h.isOwn hv, h.isOwn hw, hops, Option.toList_none, List.all_nil,
          Bool.and_true]
      | some step =>
        simp only
        simp only [Option.bind_some] at hstep
        cases hloop : loopTarget step with
        | none => exact Lock.nothing h
        | some target =>
          rw [hloop] at hstep
          refine withExpr_lock h none hstep fun t t' A B htt h => ?_
          rw [← h.operand hv, ← h.operand hw, ← h.operand htt]
          refine (visitStmts_lock ctx items h hitems).wrap
            (.for (A.operand v.1) (A.operand v.2) (some (A.operand t))) fun ops hops => ?_
          simp only [Op.own, h.isOwn hv, h.isOwn hw, h.isOwn htt, hops, Option.toList_some,
            List.all_cons, List.all_nil, Bool.and_true]
  | «if» cond thenBr elseBr =>
    simp only [stmtSafe, Bool.and_eq_true] at hs
    obtain ⟨⟨hcond, hthen⟩, helse⟩ := hs
    simp only [visitStmt]
    refine withExpr_lock h _ hcond fun c c' A B hcc h => ?_
    have ht := visitStmt_lock ctx true thenBr h hthen
    have he := visitBranch_lock ctx elseBr ht.agree helse
    rw [← h.operand hcc, ht.ops]
    refine he.wrap (.ifOp (A.operand c) _) fun ops hops => ?_
    simp only [Op.own, h.isOwn hcc, ← ht.ops, ht.own, hops, Bool.and_true]
  | generate loc init initValue cond step body =>
    simp only [visitStmt, h.params, h.params']
    exact (visitStmt_lock ctx true body h hs).wrap (.structuralGenerate _ _ _ _) fun ops h => h
  | incDec target op isPrefix => exact Lock.nothing h
  | «return» loc value => exact Lock.nothing h
  | empty => exact Lock.nothing h
  | labeled label body => exact Lock.nothing h
  | goto target => exact Lock.nothing h

theorem visitStmts_lock (ctx : Enclosing) (ss : List Stmt) {L : Leak} {A B : Visitor}
    (h : Agree F L A B)
    (hs : stmtsSafe ctx L ss = true) : Lock F L (visitStmts ctx A ss) (visitStmts ctx B ss) := by
  cases ss with
  | nil => exact Lock.nothing h
  | cons s ss =>
    obtain ⟨hs, hss⟩ := Bool.and_eq_true_iff.1 hs
    have hone := visitStmt_lock ctx false s h hs
    exact hone.append (visitStmts_lock ctx ss hone.agree hss)

theorem visitBranch_lock (ctx : Enclosing) (s : Option Stmt) {L : Leak} {A B : Visitor}
    (h : Agree F L A B)
    (hs : stmtSafe? ctx L s = true) : Lock F L (visitBranch ctx A s) (visitBranch ctx B s) := by
  cases s with
  | none => exact Lock.nothing h
  | some s => exact visitStmt_lock ctx true s h hs

theorem visitElse_lock (ctx : Enclosing) (s : Option Stmt) {L : Leak} {A B : Visitor}
    (h : Agree F L A B)
    (hs : stmtSafe? ctx L s = true) : Lock F L (visitElse ctx A s) (visitElse ctx B s) := by
  cases s with
  | none => exact Lock.nothing h
  | some s => exact (visitStmt_lock ctx true s h hs).wrap .default fun ops h => h

theorem visitCases_lock (ctx : Enclosing) (cs : List CondCase) {L : Leak} {A B : Visitor}
    (h : Agree F L A B)
    (hs : casesSafe ctx L cs = true) :
    CasesLock F L (visitCases ctx A cs) (visitCases ctx B cs) := by
  cases cs with
  | nil => exact ⟨Lock.nothing h, rfl⟩
  | cons c cs =>
    obtain ⟨cond, body⟩ := c
    simp only [casesSafe, Bool.and_eq_true] at hs
    obtain ⟨⟨hcond, hbody⟩, hcases⟩ := hs
    have hout := lowerExpr_same h A.next (some (.bits 1)) cond hcond
    simp only [visitCases, ← h.next]
    generalize lowerExpr A A.next (some (.bits 1)) cond = o at hout ⊢
    generalize lowerExpr B A.next (some (.bits 1)) cond = o' at hout ⊢
    obtain ⟨ops, value, next⟩ := o
    obtain ⟨ops', value', next'⟩ := o'
    obtain ⟨hops, hown, hvalue, hnext⟩ := hout
    simp only at hops hown hvalue hnext
    subst hops hnext
    have hcond : Lock F L ({ A with next := next }, ops) ({ B with next := next }, ops) :=
      ⟨rfl, hown, h.with_next next⟩
    cases hvalue with
    | none =>
      have hrest := visitCases_lock ctx cs hcond.agree hcases
      exact ⟨hcond.append hrest.lock, hrest.emitted⟩
    | some hc =>
      have hone := visitStmt_lock ctx true body hcond.agree hbody
      have hrest := visitCases_lock ctx cs hone.agree hcases
      simp only
      rw [← h.operand hc]
      have hcase := hone.wrap (.case (A.operand _)) fun ops hops =>
        Bool.and_eq_true_iff.2 ⟨h.isOwn hc, hops⟩
      exact ⟨hcond.append (hcase.append hrest.lock), rfl⟩

theorem visitDecl_lock (ctx : Enclosing) (d : Decl) {L : Leak} {A B : Visitor}
    (h : Agree F L A B)
    (hd : declSafe ctx L d = true) :
    Lock F (declLeak ctx L d) (visitDecl ctx A d) (visitDecl ctx B d) := by
  cases d with
  | port p => exact visitPort_lock h ctx p
  | reg loc name width init => exact define_lock h name _ rfl
  | wire loc name width => exact define_lock h name _ rfl
  | «variable» loc name width => exact define_lock h name _ rfl
  | mem loc name depth width init => exact define_lock h name _ rfl
  | funcSelf loc name dummyArgs returnTerminal => exact Lock.emit (nameControl_agree h name) rfl
  | procName loc name regArgs =>
    simp only [visitDecl, declLeak, declControls, declValues]
    split
    · exact Lock.nothing (nameControl_agree h name)
    · exact (Lock.nothing h).minus_nil
  | stateName loc names => exact Lock.nothing (nameControls_agree _ h)
  | structInst loc typeName instanceName kind arraySize init =>
    cases kind with
    | reg => exact define_lock h instanceName _ rfl
    | wire => exact (Lock.nothing h).minus_nil
  | funcDefn loc name body =>
    exact ((visitStmt_lock ctx true body h hd).wrap (.func (flatName name))
      fun ops h => h).minus_nil
  | procDefn loc name body =>
    exact ((visitStmt_lock _ true body h hd).wrap (.proc name) fun ops h => h).minus_nil
  | stateDefn loc name body =>
    exact ((visitStmt_lock ctx true body h hd).wrap (.state name) fun ops h => h).minus_nil
  | firstState target => exact (Lock.emit h rfl).minus_nil
  | integer loc name => exact (Lock.nothing h).minus_nil
  | submodule loc templateName instances paramAssigns => exact (Lock.nothing h).minus_nil
  | topLevelParam p => cases hd
  | struct loc name members => cases hd
  | declare name modifier clockName resetName headerParams ports => cases hd
  | module loc name internals actions funcs procs => cases hd

theorem visitDecls_lock (ctx : Enclosing) (ds : List Decl) {L : Leak} {A B : Visitor}
    (h : Agree F L A B)
    (hd : declsSafe ctx L ds = true) :
    Lock F (declsLeak ctx L ds) (visitDecls ctx A ds) (visitDecls ctx B ds) := by
  cases ds with
  | nil => exact Lock.nothing h
  | cons d ds =>
    obtain ⟨hd, hds⟩ := Bool.and_eq_true_iff.1 hd
    have hone := visitDecl_lock ctx d h hd
    exact hone.append (visitDecls_lock ctx ds hone.agree hds)

end

/-! ## Modules -/

/-- The structs and parameters the visitor knows. -/
def SameCatalog (A B : Visitor) : Prop :=
  A.structTable = B.structTable ∧ A.paramTable = B.paramTable

/-- No names but those of structs and parameters. -/
def Nameless (b : Visitor) : Prop :=
  (∀ x, b.controlTable x = false) ∧ ∀ x, b.nameTable x = none

/-- At the start of a module everything in the tables leaked. -/
theorem agree_of_nameless (hcat : SameCatalog A B) (hB : Nameless B) :
    Agree ⟨A.modules + 1, B.modules + 1, A.structTable, A.paramTable⟩ (.of A)
      { A with modules := A.modules + 1, home := A.modules + 1, next := 0 }
      { B with modules := B.modules + 1, home := B.modules + 1, next := 0 } := by
  refine ⟨rfl, rfl, rfl, hcat.1.symm, rfl, hcat.2.symm, rfl, fun x hx => ?_, fun x _ hx _ => ?_⟩
  · show A.controlTable x = B.controlTable x
    rw [hB.1 x]
    exact hx
  · show Option.Rel _ (A.nameTable x) (B.nameTable x)
    have hA : A.nameTable x = none := by simpa [Leak.of] using hx
    rw [hB.2 x, hA]
    exact .none

theorem Agree.drained (h : Agree F L A B) (name : Ident) :
    Agree F L { A with pending := Function.update A.pending name [] }
      { B with pending := Function.update B.pending name [] } :=
  ⟨h.home, h.home', h.structs, h.structs', h.params, h.params', h.next, h.control, h.value⟩

/-- A module behind two states that know the same structs, parameters and
terminals, the second without any other name. -/
theorem module_lock {loc : Loc} {name : Ident} {internals funcs procs : List Decl}
    {actions : List Stmt} (hcat : SameCatalog A B) (hB : Nameless B)
    (hpending : A.pending name = B.pending name)
    (hsafe : moduleSafe (.of A) (A.pending name) internals actions funcs procs = true) :
    (visitDecl ⟨[], []⟩ A (.module loc name internals actions funcs procs)).2 =
        (visitDecl ⟨[], []⟩ B (.module loc name internals actions funcs procs)).2 ∧
      Op.allOwn (visitDecl ⟨[], []⟩ A (.module loc name internals actions funcs procs)).2 = true ∧
      SameCatalog (visitDecl ⟨[], []⟩ A (.module loc name internals actions funcs procs)).1 A := by
  simp only [moduleSafe, Bool.and_eq_true] at hsafe
  obtain ⟨⟨⟨hinternals, hfuncs⟩, hprocs⟩, hactions⟩ := hsafe
  have h₀ := visitPorts_lock ⟨procBodies procs, []⟩ (A.pending name) (agree_of_nameless hcat hB)
  have h₁ := visitDecls_lock _ internals (h₀.agree.drained name) hinternals
  have h₂ := visitDecls_lock _ funcs h₁.agree hfuncs
  have h₃ := visitDecls_lock _ procs h₂.agree hprocs
  have h₄ := visitStmts_lock _ actions h₃.agree hactions
  have hall := ((((h₀.append h₁).append h₂).append h₃).append h₄).wrap (.module name) fun ops h => h
  simp only [visitDecl, ← hpending]
  exact ⟨hall.ops, hall.own, h₄.agree.structs, h₄.agree.params⟩

/-! ## Units -/

theorem visitDecls_append (ctx : Enclosing) (b : Visitor) (ds ds' : List Decl) :
    (visitDecls ctx b (ds ++ ds')).1 = (visitDecls ctx (visitDecls ctx b ds).1 ds').1 := by
  induction ds generalizing b with
  | nil => rfl
  | cons d ds ih => exact ih _

theorem stateAfter_append (pre : List Decl) (d : Decl) :
    stateAfter (pre ++ [d]) = (visitDecl ⟨[], []⟩ (stateAfter pre) d).1 :=
  visitDecls_append _ _ pre [d]

theorem declaredPorts_append (name : Ident) (ds ds' : List Decl) :
    declaredPorts name (ds ++ ds') = declaredPorts name ds ++ declaredPorts name ds' :=
  List.flatMap_append

/-- Neither a struct, a parameter nor a `declare` enters a name, and only
a `declare` parks terminals. -/
theorem visitDecls_quiet (ctx : Enclosing) {ds : List Decl} {b : Visitor}
    (hds : ∀ d ∈ ds, isCatalog d = true ∨ isDeclare d = true) (hb : Nameless b) (name : Ident) :
    Nameless (visitDecls ctx b ds).1 ∧
      (visitDecls ctx b ds).1.pending name = b.pending name ++ declaredPorts name ds := by
  induction ds generalizing b with
  | nil => exact ⟨hb, (List.append_nil _).symm⟩
  | cons d ds ih =>
    have hone : Nameless (visitDecl ctx b d).1 ∧
        (visitDecl ctx b d).1.pending name = b.pending name ++ declaredPorts name [d] := by
      rcases hds d List.mem_cons_self with hd | hd
      · cases d <;> simp only [isCatalog, Bool.false_eq_true] at hd
        · simp only [visitDecl, visitParam]
          refine ⟨?_, ?_⟩ <;> split
          · exact hb
          · split <;> exact hb
          · exact (List.append_nil _).symm
          · split <;> exact (List.append_nil _).symm
        · exact ⟨hb, (List.append_nil _).symm⟩
      · cases d <;> simp only [isDeclare, Bool.false_eq_true] at hd
        next n modifier clockName resetName headerParams ports =>
        refine ⟨hb, ?_⟩
        simp only [visitDecl, declaredPorts, List.flatMap_cons, List.flatMap_nil, List.append_nil]
        by_cases hn : name = n
        · subst hn
          rw [Function.update_self, if_pos rfl]
        · rw [Function.update_of_ne hn, if_neg (Ne.symm hn), List.append_nil]
    obtain ⟨hnames, hpending⟩ := ih (fun d hd => hds d (List.mem_cons_of_mem _ hd)) hone.1
    refine ⟨hnames, ?_⟩
    have hsplit := declaredPorts_append name [d] ds
    rw [List.singleton_append] at hsplit
    rw [visitDecls]
    simp only [hpending, hone.2, List.append_assoc, hsplit]

theorem visitDecl_catalog (ctx : Enclosing) {d : Decl} (hd : isCatalog d = true)
    (h : SameCatalog A B) : SameCatalog (visitDecl ctx A d).1 (visitDecl ctx B d).1 := by
  obtain ⟨hs, hp⟩ := h
  cases d <;> simp only [isCatalog, Bool.false_eq_true] at hd
  · simp only [visitDecl, visitParam]
    split
    · exact ⟨hs, hp⟩
    · split
      · exact ⟨hs, congrArg (Function.update · _ _) hp⟩
      · exact ⟨hs, hp⟩
  · exact ⟨congrArg (Function.update · _ _) hs, hp⟩

theorem visitDecls_declares (ctx : Enclosing) {ds : List Decl} {b : Visitor}
    (hds : ∀ d ∈ ds, isDeclare d = true) : SameCatalog (visitDecls ctx b ds).1 b := by
  induction ds generalizing b with
  | nil => exact ⟨rfl, rfl⟩
  | cons d ds ih =>
    have hd := hds d List.mem_cons_self
    cases d <;> simp only [isDeclare, Bool.false_eq_true] at hd
    exact ih fun d hd => hds d (List.mem_cons_of_mem _ hd)

theorem isDeclare_of_declaredBy {name : Ident} {d : Decl} (h : declaredBy name d = true) :
    isDeclare d = true := by
  cases d <;> simp only [declaredBy, Bool.false_eq_true] at h
  rfl

theorem declaredPorts_catalog (name : Ident) (ds : List Decl) :
    declaredPorts name (ds.filter isCatalog) = [] := by
  refine List.flatMap_eq_nil_iff.2 fun d hd => ?_
  have hcat := (List.mem_filter.1 hd).2
  cases d <;> simp only [isCatalog, Bool.false_eq_true] at hcat <;> rfl

theorem declaredPorts_filter (name : Ident) (ds : List Decl) :
    declaredPorts name (ds.filter (declaredBy name)) = declaredPorts name ds := by
  induction ds with
  | nil => rfl
  | cons d ds ih =>
    rw [List.filter_cons]
    cases hd : declaredBy name d with
    | true =>
      rw [if_pos rfl]
      exact congrArg (_ ++ ·) ih
    | false =>
      rw [if_neg Bool.false_ne_true, ih]
      have hnone : declaredPorts name [d] = [] := by
        cases d <;> try rfl
        simp only [declaredBy, decide_eq_false_iff_not] at hd
        simp [declaredPorts, hd]
      have hsplit := declaredPorts_append name [d] ds
      rw [hnone] at hsplit
      exact hsplit.symm

/-- The state behind a module's context: it knows no names, and the
module's terminals are parked. -/
theorem stateAfter_moduleContext (name : Ident) (pre post : List Decl) :
    Nameless (stateAfter (moduleContext name pre post)) ∧
      (stateAfter (moduleContext name pre post)).pending name = declaredPorts name (pre ++ post) ∧
      SameCatalog (stateAfter (moduleContext name pre post))
        (stateAfter (pre.filter isCatalog)) := by
  have hquiet : ∀ d ∈ moduleContext name pre post, isCatalog d = true ∨ isDeclare d = true := by
    intro d hd
    rcases List.mem_append.1 hd with hd | hd
    · exact .inl (List.mem_filter.1 hd).2
    · exact .inr (isDeclare_of_declaredBy (List.mem_filter.1 hd).2)
  obtain ⟨hnames, hpending⟩ := visitDecls_quiet ⟨[], []⟩ (b := Visitor.start) hquiet
    ⟨fun _ => rfl, fun _ => rfl⟩ name
  refine ⟨hnames, ?_, ?_⟩
  · refine hpending.trans ?_
    rw [moduleContext, declaredPorts_append, declaredPorts_catalog, declaredPorts_filter]
    rfl
  · rw [stateAfter, moduleContext, visitDecls_append]
    exact visitDecls_declares _ fun d hd => isDeclare_of_declaredBy (List.mem_filter.1 hd).2

theorem SameCatalog.symm (h : SameCatalog A B) : SameCatalog B A := ⟨h.1.symm, h.2.symm⟩

theorem SameCatalog.trans {C : Visitor} (h : SameCatalog A B) (h' : SameCatalog B C) :
    SameCatalog A C := ⟨h.1.trans h'.1, h.2.trans h'.2⟩

/-- A module with nothing leaked is lowered as it is behind its context. -/
theorem module_isolated {loc : Loc} {name : Ident} {internals funcs procs : List Decl}
    {actions : List Stmt} {pre post : List Decl}
    (hcat : SameCatalog (stateAfter pre) (stateAfter (pre.filter isCatalog)))
    (h : Unleaked pre (.module loc name internals actions funcs procs) post) :
    itemOps pre (.module loc name internals actions funcs procs) =
        itemOps (moduleContext name pre post) (.module loc name internals actions funcs procs) ∧
      Op.allOwn (itemOps pre (.module loc name internals actions funcs procs)) = true ∧
      SameCatalog (stateAfter (pre ++ [.module loc name internals actions funcs procs]))
        (stateAfter pre) := by
  obtain ⟨hpending, hsafe⟩ := h
  obtain ⟨hnames, hparked, hcontext⟩ := stateAfter_moduleContext name pre post
  rw [stateAfter_append]
  exact module_lock (hcat.trans hcontext.symm) hnames (hpending.trans hparked.symm) hsafe

/-- One item: the structs and parameters known behind it are those of the
items before it and its own. -/
theorem sameCatalog_step {pre post : List Decl} {d : Decl} (h : Unleaked pre d post)
    (hcat : SameCatalog (stateAfter pre) (stateAfter (pre.filter isCatalog))) :
    SameCatalog (stateAfter (pre ++ [d])) (stateAfter ((pre ++ [d]).filter isCatalog)) := by
  have hcatalog : isCatalog d = true →
      SameCatalog (stateAfter (pre ++ [d])) (stateAfter ((pre ++ [d]).filter isCatalog)) := by
    intro hd
    rw [List.filter_append, List.filter_singleton, hd, cond_true, stateAfter_append,
      stateAfter_append]
    exact visitDecl_catalog _ hd hcat
  have hother : isCatalog d = false → SameCatalog (stateAfter (pre ++ [d])) (stateAfter pre) →
      SameCatalog (stateAfter (pre ++ [d])) (stateAfter ((pre ++ [d]).filter isCatalog)) := by
    intro hd hsame
    rw [List.filter_append, List.filter_singleton, hd, cond_false, List.append_nil]
    exact hsame.trans hcat
  cases d with
  | topLevelParam p => exact hcatalog rfl
  | struct loc name members => exact hcatalog rfl
  | declare name modifier clockName resetName headerParams ports =>
    refine hother rfl ?_
    rw [stateAfter_append]
    exact ⟨rfl, rfl⟩
  | module loc name internals actions funcs procs =>
    exact hother rfl (module_isolated hcat h).2.2
  | _ => exact h.elim

/-- Along a unit: every item is reached with the structs and parameters
before it. -/
theorem unleakedFrom_split (pre mid : List Decl) {d : Decl} {post : List Decl}
    (hcat : SameCatalog (stateAfter pre) (stateAfter (pre.filter isCatalog)))
    (h : UnleakedFrom pre (mid ++ d :: post)) :
    Unleaked (pre ++ mid) d post ∧
      SameCatalog (stateAfter (pre ++ mid)) (stateAfter ((pre ++ mid).filter isCatalog)) := by
  induction mid generalizing pre with
  | nil =>
    rw [List.append_nil]
    exact ⟨h.1, hcat⟩
  | cons m mid ih =>
    have hrest := ih _ (sameCatalog_step h.1 hcat) h.2
    rwa [List.append_assoc] at hrest

/-- `declare a { func_in go; } module a { reg x; x := 1; }
module b { reg x; wire y; y = x; }`: both modules have an `x` of their
own. -/
def sharedRegUnit : CompilationUnit :=
  [.declare ['a'] .none [] [] [] [⟨12, .funcIn, ['g', 'o'], none, [], []⟩],
    .module 26 ['a'] [.reg 41 ['x'] none none]
      [.transfer 44 .regColonEq (.identifier 44 [['x']]) (.literal .decimal ['1'])] [] [],
    .module 54 ['b'] [.reg 69 ['x'] none none, .wire 77 ['y'] none]
      [.transfer 80 .wireEq (.identifier 80 [['y']]) (.identifier 84 [['x']])] [] []]

/-- `module a { func_self x; } module b { reg x; wire y; y = x; }`: the
register of the second module has the name of a control terminal of the
first. -/
def controlRegUnit : CompilationUnit :=
  [.module 0 ['a'] [.funcSelf 21 ['x'] [] []] [] [] [],
    .module 26 ['b'] [.reg 41 ['x'] none none, .wire 49 ['y'] none]
      [.transfer 52 .wireEq (.identifier 52 [['y']]) (.identifier 56 [['x']])] [] []]

end ASTToMLIR

end Nslc
