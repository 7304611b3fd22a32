import Nslc.Lower.Emission
/-!
# The lowering follows the flow

Step by step the lowering of a module does what the flow of values says.
As long as the walk goes on, every emitted op is typed, a result that has
a value is mapped to a typed value for it, and any other result is mapped
to nothing but an `nsl` result. Where the flow is reported, so is the
module; where it is spoiled, an op is emitted that is not typed, unless
the lowering fails.
-/

namespace Nslc

namespace Lower

open Dialect Circt

variable {D : Type}

/-! ## What values stand for -/

section Means

variable (R : Value → D → Prop)

/-- A typed value of the width `w` for `d`. -/
structure Stands (w : ℕ) (x : Value) (d : D) : Prop where
  typed : x.typed = true
  width : x.width = w
  rel : R x d

/-- Where there is no value, the lowering has an `nsl` result. -/
def Means (w : ℕ) (x : Value) : Option D → Prop
  | some d => Stands R w x d
  | none => ∃ u, x = .nsl u

def GateMeans : Option Value → Option (Cond D) → Prop
  | none, none => True
  | some g, some c => Means R c.width g c.value
  | _, _ => False

def DriverMeans (w : ℕ) : Option Value → Option (Option D) → Prop
  | none, none => True
  | some x, some d => Means R w x d
  | _, _ => False

end Means

/-- The emitted ops compute what the algebra says. -/
structure Interprets (A : Algebra D) (R : Value → D → Prop) : Prop where
  input : ∀ name w, R (.arg name w) (A.input name w)
  reg : ∀ i w, R (.reg i w) (A.reg i w)
  const : ∀ i w n, R (.op i (.constant w n) []) (A.const w n)
  both : ∀ {i x y d e}, R x d → R y e → R (.op i .and [x, y]) (A.both d e)
  join : ∀ {i x y d e}, R x d → R y e → R (.op i .or [x, y]) (A.join d e)
  isZero : ∀ {i j x d}, R x d →
    R (.op i (.icmp .eq) [x, .op j (.constant x.width 0) []]) (A.isZero x.width d)
  select : ∀ {i g x y b d e}, g.typed = true → g.width = 1 → R g b → R x d → R y e →
    x.width = y.width → R (.op i .mux [g, x, y]) (A.select b d e)
  wire : ∀ {i name x d}, R x d → R (.op i (.wire name) [x]) d
  expr : ∀ {ctx w e r ds}, Expr.verify w e = true → lowerBitOp ctx w e = .ok r →
    OperandsTyped ctx e.operands →
    List.Forall₂ (fun v d => R (ctx.lookupValue v) d) e.operands ds → R r.1 (A.expr w e ds)
  /-- The lowering does not guard the bodies of functions. -/
  enter : ∀ name, A.enter name = none

section

variable {R : Value → D → Prop} {w : ℕ} {x g : Value} {od : Option D}

theorem Means.untyped (h : Means R w x none) : x.typed = false := by
  obtain ⟨u, rfl⟩ := h
  rfl

theorem Means.notInt (h : Means R w x none) : x.ty.isInt = false := by
  obtain ⟨u, rfl⟩ := h
  rfl

/-- A value, or none at all. -/
theorem Means.cases (h : Means R w x od) : (∃ d, od = some d ∧ Stands R w x d) ∨
    od = none ∧ x.typed = false ∧ x.ty.isInt = false := by
  cases od with
  | some d => exact .inl ⟨d, rfl, h⟩
  | none => exact .inr ⟨rfl, h.untyped, h.notInt⟩

/-- A condition of one bit, or one that types no gate. -/
theorem Means.bit_cases {c : Cond D} (h : Means R c.width g c.value) :
    (∃ d, c.bit? = some d ∧ Stands R 1 g d) ∨
      c.bit? = none ∧ (g.typed = false ∨ g.width ≠ 1) := by
  unfold Cond.bit?
  by_cases hw : c.width = 1
  · rw [if_pos hw]
    rw [hw] at h
    exact h.cases.imp_right fun ⟨hnone, hu, _⟩ => ⟨hnone, .inl hu⟩
  · rw [if_neg hw]
    refine .inr ⟨rfl, ?_⟩
    rcases h.cases with ⟨d, -, hs⟩ | ⟨-, hu, -⟩
    · exact .inr (hs.width ▸ hw)
    · exact .inl hu

/-- A mux whose condition is no bit. -/
theorem untyped_mux {i : ℕ} {y z : Value} (h : g.typed = false ∨ g.width ≠ 1) :
    (Value.op i .mux [g, y, z]).typed = false := by
  rcases h with h | h
  · exact untyped_of_mem (by simp) h
  · refine untyped_of_verify ?_
    simp [CombOp.verify, width_eq_ty, h]

end

/-! ## Agreement -/

section Agrees

variable {α β α' β' : Type}

/-- What a step of the lowering does where the flow gives `c`; `π` is the
context in what it returns. -/
def Agrees (π : β → Ctx) (P : α → β → Prop) (c : Except Flaw α) (r : Except LowerError β) : Prop :=
  match c with
  | .ok a => ∃ b, r = .ok b ∧ P a b
  | .error .reported => ∃ message, r = .error (.diag message)
  | .error .spoiled => ∀ b, r = .ok b → Spoiled (π b)

variable {π : β → Ctx} {P : α → β → Prop} {π' : β' → Ctx} {P' : α' → β' → Prop}
  {c : Except Flaw α} {r : Except LowerError β}

theorem Agrees.bind {c' : α → Except Flaw α'} {r' : β → Except LowerError β'}
    (h : Agrees π P c r) (hok : ∀ a b, P a b → Agrees π' P' (c' a) (r' b))
    (hgrows : ∀ b b', r' b = .ok b' → Grows (π b) (π' b')) :
    Agrees π' P' (c >>= c') (r >>= r') := by
  match c, h with
  | .ok a, ⟨b, hr, hp⟩ =>
    subst hr
    exact hok a b hp
  | .error .reported, ⟨message, hr⟩ =>
    subst hr
    exact ⟨message, rfl⟩
  | .error .spoiled, h =>
    intro b' hb'
    obtain ⟨b, hr, hrest⟩ := bind_eq_ok hb'
    exact (h b hr).mono (hgrows b b' hrest)

theorem Agrees.imp {Q : α → β → Prop} (h : Agrees π P c r) (hpq : ∀ a b, P a b → Q a b) :
    Agrees π Q c r := by
  match c, h with
  | .ok a, ⟨b, hr, hp⟩ => exact ⟨b, hr, hpq a b hp⟩
  | .error .reported, h => exact h
  | .error .spoiled, h => exact h

theorem agrees_ok {a : α} {b : β} (h : P a b) : Agrees π P (.ok a) (.ok b) := ⟨b, rfl, h⟩

theorem agrees_spoiled {b : β} (h : Spoiled (π b)) : Agrees π P (.error .spoiled) (.ok b) := by
  rintro b' hb
  obtain rfl := Except.ok.inj hb
  exact h

theorem agrees_failed {e : LowerError} : Agrees π P (.error .spoiled) (.error e) := by
  rintro b' hb
  cases hb

/-- A step of the flow that only repacks what it has. -/
theorem Agrees.map {f : α → α'} {b : β} {b' : β'} (h : Agrees π P c (.ok b))
    (hp : ∀ a, P a b → P' (f a) b') (hgrows : Grows (π b) (π' b')) :
    Agrees π' P' (c >>= fun a => pure (f a)) (.ok b') := by
  match c, h with
  | .ok a, ⟨b₁, hb, hpa⟩ =>
    obtain rfl := Except.ok.inj hb
    exact agrees_ok (hp a hpa)
  | .error .reported, ⟨message, hb⟩ => cases hb
  | .error .spoiled, h => exact agrees_spoiled ((h b rfl).mono hgrows)

/-- Behind a step of the lowering that cannot fail. -/
theorem Agrees.next {b : β} {c' : α → Except Flaw α'} {r' : Except LowerError β'}
    (h : Agrees π P c (.ok b)) (hok : ∀ a, P a b → Agrees π' P' (c' a) r')
    (hgrows : ∀ b', r' = .ok b' → Grows (π b) (π' b')) : Agrees π' P' (c >>= c') r' := by
  match c, h with
  | .ok a, ⟨b₁, hb, hpa⟩ =>
    obtain rfl := Except.ok.inj hb
    exact hok a hpa
  | .error .reported, ⟨message, hb⟩ => cases hb
  | .error .spoiled, h => exact fun b' hb' => (h b rfl).mono (hgrows b' hb')

end Agrees

/-! ## Guards -/

section Guards

variable {A : Algebra D} {R : Value → D → Prop} {ctx : Ctx} {gate : Option (Cond D)}
  {gv : Option Value} {c : Cond D} {x : Value}

/-- What a step that makes a gate returns. -/
def MakesGate (R : Value → D → Prop) (ctx : Ctx) (c : Cond D) (r : Value × Ctx) : Prop :=
  Means R c.width r.1 c.value ∧ Adds ctx r.2

variable (ctx) in
theorem agrees_narrow (hA : Interprets A R) (hg : GateMeans R gv gate)
    (hc : Means R c.width x c.value) :
    Agrees Prod.snd (MakesGate R ctx) (narrow A gate c) (.ok (andConds ctx gv x)) := by
  match gate, gv, hg with
  | none, none, _ => exact agrees_ok ⟨hc, .refl ctx⟩
  | some g, some y, hg =>
    simp only [narrow, andConds]
    rcases Means.cases hg with ⟨d, hd, hs⟩ | ⟨hnone, hu, -⟩
    · rcases hc.cases with ⟨e, he, ht⟩ | ⟨hnone, hu, -⟩
      · simp only [hd, he]
        by_cases hw : g.width = c.width
        · have hverify : CombOp.verify .and ([y, x].map Value.ty) = true := by
            simp [CombOp.verify, width_eq_ty, hs.width, ht.width, hw]
          have hr : TypedResult ctx c.width (ctx.emit .and [y, x]) :=
            typedResult_emit (by simp) hverify (by simp [hs.typed, ht.typed]) (hs.width.trans hw)
          rw [if_pos hw]
          exact agrees_ok ⟨⟨hr.typed, hr.width, hA.both hs.rel ht.rel⟩, hr.adds⟩
        · rw [if_neg hw]
          refine agrees_spoiled (spoiled_emit ctx (untyped_of_verify ?_))
          simp [CombOp.verify, width_eq_ty, hs.width, ht.width, hw]
      · simp only [hd, hnone]
        exact agrees_spoiled (spoiled_of_operand ctx .and (y := x) (by simp) hu)
    · simp only [hnone]
      exact agrees_spoiled (spoiled_of_operand ctx .and (y := y) (by simp) hu)

theorem means_bit {d : D} (h : Stands R 1 x d) : Means R (Cond.bit d).width x (Cond.bit d).value := h

/-- The test of a value against zero. -/
def isZeroOp (ctx : Ctx) (x : Value) : Value × Ctx :=
  (ctx.emit (.constant x.width 0) []).2.emit (.icmp .eq)
    [x, (ctx.emit (.constant x.width 0) []).1]

theorem grows_isZeroOp (ctx : Ctx) (x : Value) : Grows ctx (isZeroOp ctx x).2 :=
  (grows_emit _ _ _).trans (grows_emit _ _ _)

theorem notCovered_eq (ctx : Ctx) {c : Value} (h : c.width = 1) :
    notCovered ctx c = isZeroOp ctx c := by
  rw [isZeroOp, h]
  rfl

theorem makesGate_isZeroOp (hA : Interprets A R) {w : ℕ} {d : D} (h : Stands R w x d) :
    MakesGate R ctx (.bit (A.isZero w d)) (isZeroOp ctx x) := by
  have hr : TypedResult ctx 1 (isZeroOp ctx x) := by
    refine .before (adds_emit ctx (by simp) rfl) (typedResult_emit (by simp) ?_ ?_ rfl)
    · simp [CombOp.verify, width_eq_ty, Value.tys, CombOp.ty]
    · intro y hy
      rcases List.mem_cons.1 hy with rfl | hy
      · exact h.typed
      · rw [List.mem_singleton.1 hy]
        rfl
  refine ⟨⟨hr.typed, hr.width, ?_⟩, hr.adds⟩
  rw [← h.width]
  exact hA.isZero h.rel

theorem ifGates_eq {x : Value} (h : x.ty.isInt = true) (ctx : Ctx) (gv : Option Value) :
    ifGates ctx x gv = (Except.ok (andConds ctx gv x) >>= fun r =>
      Except.ok (andConds (isZeroOp r.2 x).2 gv (isZeroOp r.2 x).1) >>= fun r' =>
        Except.ok (r.1, r'.1, r'.2)) := by
  simp only [ifGates, h, if_true]
  rfl

theorem agrees_ifGates (hA : Interprets A R) (hg : GateMeans R gv gate) {sc : Scope D}
    {cond : Val} (hc : Means R cond.width x (sc.vals cond)) :
    Agrees (fun r : Value × Value × Ctx => r.2.2)
      (fun gs r => Means R gs.1.width r.1 gs.1.value ∧ Means R gs.2.width r.2.1 gs.2.value ∧
        Adds ctx r.2.2) (flowIf A sc gate cond) (ifGates ctx x gv) := by
  unfold flowIf
  rcases hc.cases with ⟨d, hd, hs⟩ | ⟨hnone, -, hint⟩
  · simp only [hd]
    rw [ifGates_eq (isInt_of_typed hs.typed)]
    refine Agrees.bind (agrees_narrow _ (c := ⟨cond.width, some d⟩) hA hg hs)
      (fun thenGate r hthen => ?_) fun r r' hr => ?_
    · have hzero : MakesGate R r.2 _ (isZeroOp r.2 x) := makesGate_isZeroOp hA hs
      refine Agrees.bind (agrees_narrow _ hA hg hzero.1) (fun elseGate r' helse => ?_) fun r' b hb => ?_
      · exact agrees_ok ⟨hthen.1, helse.1, hthen.2.trans (hzero.2.trans helse.2)⟩
      · obtain rfl := Except.ok.inj hb
        exact .refl _
    · obtain rfl := Except.ok.inj hr
      exact (grows_isZeroOp _ _).trans (grows_andConds _ _ _)
  · simp only [hnone, ifGates, hint]
    exact agrees_failed

/-! ## The cases of `nsl.alt` -/

def CoveredMeans (R : Value → D → Prop) : Option Value → Option D → Prop
  | none, none => True
  | some c, some d => Stands R 1 c d
  | _, _ => False

/-- The test that no earlier case fired. -/
def uncoveredOp (ctx : Ctx) : Option Value → Value × Ctx
  | none => ctx.emit (.constant 1 1) []
  | some c => notCovered ctx c

theorem caseGate_eq (ctx : Ctx) (x : Value) (gv cv : Option Value) :
    caseGate ctx x gv cv =
      andConds ((uncoveredOp ctx cv).2.emit .and [(uncoveredOp ctx cv).1, x]).2 gv
        ((uncoveredOp ctx cv).2.emit .and [(uncoveredOp ctx cv).1, x]).1 := by
  cases cv <;> rfl

variable {cv : Option Value} {covered : Option D}

theorem makesGate_const (hA : Interprets A R) :
    MakesGate R ctx (.bit (A.const 1 1)) (ctx.emit (.constant 1 1) []) :=
  ⟨⟨rfl, rfl, hA.const _ _ _⟩, adds_emit ctx (by simp) rfl⟩

theorem makesGate_uncoveredOp (hA : Interprets A R) (hcov : CoveredMeans R cv covered) :
    MakesGate R ctx (.bit (uncovered A covered)) (uncoveredOp ctx cv) := by
  match cv, covered, hcov with
  | none, none, _ => exact makesGate_const hA
  | some c, some d, hs =>
    rw [uncoveredOp, notCovered_eq ctx hs.width]
    exact makesGate_isZeroOp hA hs

/-- The conjunction of two bits. -/
theorem makesGate_and (hA : Interprets A R) {y : Value} {d e : D} (hx : Stands R 1 x d)
    (hy : Stands R 1 y e) :
    MakesGate R ctx (.bit (A.both d e)) (ctx.emit .and [x, y]) := by
  have hverify : CombOp.verify .and ([x, y].map Value.ty) = true := by
    simp [CombOp.verify, width_eq_ty, hx.width, hy.width]
  have hr : TypedResult ctx 1 (ctx.emit .and [x, y]) :=
    typedResult_emit (by simp) hverify (by simp [hx.typed, hy.typed]) hx.width
  exact ⟨⟨hr.typed, hr.width, hA.both hx.rel hy.rel⟩, hr.adds⟩

variable (ctx) in
theorem agrees_caseGate (hA : Interprets A R) (hg : GateMeans R gv gate)
    (hcov : CoveredMeans R cv covered) {sc : Scope D} {cond : Val}
    (hc : Means R cond.width x (sc.vals cond)) :
    Agrees Prod.snd (fun fd r => MakesGate R ctx fd.1 r ∧ Stands R 1 x fd.2)
      (flowCase A sc gate covered cond) (.ok (caseGate ctx x gv cv)) := by
  have hu : MakesGate R ctx (.bit (uncovered A covered)) (uncoveredOp ctx cv) :=
    makesGate_uncoveredOp hA hcov
  rw [flowCase, caseGate_eq]
  rcases Means.bit_cases (c := ⟨cond.width, sc.vals cond⟩) hc with ⟨d, hd, hs⟩ | ⟨hnone, hbad⟩
  · simp only [hd]
    have hand : MakesGate R (uncoveredOp ctx cv).2 _ _ := makesGate_and hA hu.1 hs
    have hnarrow := agrees_narrow
      ((uncoveredOp ctx cv).2.emit .and [(uncoveredOp ctx cv).1, x]).2 hA hg hand.1
    exact hnarrow.map (fun fires hr => ⟨⟨hr.1, hu.2.trans (hand.2.trans hr.2)⟩, hs⟩) (.refl _)
  · simp only [hnone]
    refine agrees_spoiled (Spoiled.mono ?_ (grows_andConds _ _ _))
    rcases hbad with hbad | hbad
    · exact spoiled_of_operand _ _ (y := x) (by simp) hbad
    · refine spoiled_emit _ (untyped_of_verify ?_)
      have hw : (uncoveredOp ctx cv).1.width = 1 := hu.1.width
      simp [CombOp.verify, width_eq_ty, hw, Ne.symm hbad]

theorem covers_coverCase (hA : Interprets A R) (hcov : CoveredMeans R cv covered) {d : D}
    (hs : Stands R 1 x d) :
    Stands R 1 (coverCase ctx x cv).1 (cover A covered d) ∧ Adds ctx (coverCase ctx x cv).2 := by
  match cv, covered, hcov with
  | none, none, _ => exact ⟨hs, .refl ctx⟩
  | some c, some e, hc =>
    have hverify : CombOp.verify .or ([c, x].map Value.ty) = true := by
      simp [CombOp.verify, width_eq_ty, hs.width, hc.width]
    have hr : TypedResult ctx 1 (ctx.emit .or [c, x]) :=
      typedResult_emit (by simp) hverify (by simp [hs.typed, hc.typed]) hc.width
    exact ⟨⟨hr.typed, hr.width, hA.join hc.rel hs.rel⟩, hr.adds⟩

variable (ctx) in
theorem agrees_defaultGate (hA : Interprets A R) (hg : GateMeans R gv gate)
    (hcov : CoveredMeans R cv covered) :
    Agrees Prod.snd (fun fires r => GateMeans R r.1 fires ∧ Adds ctx r.2)
      (flowDefault A gate covered) (.ok (defaultGate ctx gv cv)) := by
  match cv, covered, hcov with
  | none, none, _ => exact agrees_ok ⟨hg, .refl ctx⟩
  | some c, some d, hs =>
    simp only [flowDefault, defaultGate, notCovered_eq ctx hs.width]
    have hzero : MakesGate R ctx (.bit (A.isZero 1 d)) (isZeroOp ctx c) := makesGate_isZeroOp hA hs
    have hnarrow := agrees_narrow (isZeroOp ctx c).2 hA hg hzero.1
    exact hnarrow.map (fun fires hr => ⟨hr.1, hzero.2.trans hr.2⟩) (.refl _)

end Guards

end Lower

end Nslc
