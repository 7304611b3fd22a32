import Nslc.Lower.InStep
import Nslc.Lower.Order
/-!
# What the finished module delivers

At the end of a walk in step with the flow the wires, outputs and
registers get their drivers. If every driver has a value, the module is
typed throughout and its drivers are those of the flow; otherwise some
driver is an `nsl` result, and the module is not typed.
-/

namespace Nslc

namespace Lower

open Dialect Circt

variable {D : Type}

/-! ## Verified modules -/

namespace NslModule

variable (m : NslModule)

/-- The registers, nested ones included. -/
def regsWithin : List Val := (Op.withins m.body).filterMap regResult?

/-- The width of an output port, by its op or else by the declare. -/
def outWidth (name : String) : ℕ :=
  ((m.outs.find? fun q => q.2 = name).map fun q => q.1.width).getD
    (((m.outputPorts.find? fun p => p.1 = name).map Prod.snd).getD 0)

end NslModule

def inputResult? : Op → Option (Val × String)
  | .inputPort res name | .inoutPort res name => some (res, name)
  | _ => none

/-- **Verified modules**: every op passes its verifier, results are
distinct, and the ports have the widths the paired declare gives them. -/
structure VerifiedModule (m : NslModule) : Prop where
  ops : VerifiedOps m.regsWithin m.body
  cases_placed : m.body.any Op.isCase = false
  regs_nodup : m.regsWithin.Nodup
  wires_nodup : m.wireResults.Nodup
  inputs : ∀ q ∈ m.body.filterMap inputResult?,
    (m.inputPorts.find? fun p => p.1 = q.2).all (fun p => p.2 == q.1.width) = true
  outputs : ∀ q ∈ m.outs, ∀ p ∈ m.outputPorts, p.1 = q.2 → p.2 = q.1.width
  outs_nodup : (m.outs.map Prod.snd).Nodup
  outputs_nodup : (m.outputPorts.map Prod.fst).Nodup

instance (m : NslModule) : Decidable (VerifiedModule m) :=
  decidable_of_iff
    ((∀ op ∈ Op.withins m.body, op.verify m.regsWithin = true) ∧ m.body.any Op.isCase = false ∧
      m.regsWithin.Nodup ∧ m.wireResults.Nodup ∧
      (∀ q ∈ m.body.filterMap inputResult?,
        (m.inputPorts.find? fun p => p.1 = q.2).all (fun p => p.2 == q.1.width) = true) ∧
      (∀ q ∈ m.outs, ∀ p ∈ m.outputPorts, p.1 = q.2 → p.2 = q.1.width) ∧
      (m.outs.map Prod.snd).Nodup ∧ (m.outputPorts.map Prod.fst).Nodup)
    ⟨fun ⟨h₁, h₂, h₃, h₄, h₅, h₆, h₇, h₈⟩ => ⟨h₁, h₂, h₃, h₄, h₅, h₆, h₇, h₈⟩,
      fun h => ⟨h.1, h.2, h.3, h.4, h.5, h.6, h.7, h.8⟩⟩

theorem sublist_withins (ops : List Op) : ops.Sublist (Op.withins ops) := by
  induction ops with
  | nil => exact .slnil
  | cons op ops ih =>
    have hself : [op].Sublist (Op.within op) := by
      rw [List.singleton_sublist]
      cases op <;> simp [Op.within]
    rw [Op.withins]
    exact hself.append ih

section Modules

variable {A : Algebra D} {R : Value → D → Prop} {m : NslModule}

theorem regResults_sublist (m : NslModule) : m.regResults.Sublist m.regsWithin :=
  (sublist_withins m.body).filterMap _

theorem outWidth_portName (hm : VerifiedModule m) {v : Val} (hv : portName m.outs v ≠ "") :
    m.outWidth (portName m.outs v) = v.width := by
  unfold portName at hv ⊢
  cases hf : m.outs.find? fun p => decide (p.1 = v) with
  | none => simp [hf] at hv
  | some q =>
    have hq : q.1 = v := by simpa using List.find?_some hf
    have hfind := find?_of_nodup Prod.snd hm.outs_nodup (List.mem_of_find?_eq_some hf)
    simp [NslModule.outWidth, hfind, hq]

theorem outWidth_output (hm : VerifiedModule m) {p : String × ℕ} (hp : p ∈ m.outputPorts) :
    m.outWidth p.1 = p.2 := by
  unfold NslModule.outWidth
  cases hf : m.outs.find? fun q => decide (q.2 = p.1) with
  | some q =>
    have hq : q.2 = p.1 := by simpa using List.find?_some hf
    exact (hm.outputs q (List.mem_of_find?_eq_some hf) p hp hq.symm).symm
  | none => simp [find?_of_nodup Prod.fst hm.outputs_nodup hp]

/-- The setting in which the module's walk begins. -/
def VerifiedModule.setting (hm : VerifiedModule m) : Setting where
  outs := m.outs
  outWidth := m.outWidth
  regs := m.regsWithin
  clocked := m.declare.isSome
  madeRegs := []
  madeWires := []
  sized := fun _ => outWidth_portName hm

/-! ## Ports -/

theorem clean_initial (hm : VerifiedModule m) :
    Clean R hm.setting (Scope.empty : Scope D) { Ctx.initial m with outputPortValues := m.outs } where
  clocked := rfl
  madeRegs := rfl
  madeWires := rfl
  body := by simp [Ctx.initial]
  ports := rfl
  vals := fun v => ⟨v, rfl⟩
  outDriver := fun _ => trivial
  wireList := rfl
  wireDriver := fun _ => trivial
  wires_apart := by simp [Scope.empty]
  regList := rfl
  regs_nodup := List.nodup_nil
  reg := by simp [Scope.empty]
  pending := fun _ _ _ => rfl
  calls := .nil

theorem agrees_scanPort (hA : Interprets A R) (hm : VerifiedModule m) {sc : Scope D} {ctx : Ctx}
    (h : Clean R hm.setting sc { ctx with outputPortValues := m.outs }) {op : Op}
    (hv : op.verify m.regsWithin = true)
    (hin : ∀ q, inputResult? op = some q →
      (m.inputPorts.find? fun p => p.1 = q.2).all (fun p => p.2 == q.1.width) = true) :
    Agrees id (fun sc ctx' => Clean R hm.setting sc { ctx' with outputPortValues := m.outs } ∧
        ctx'.outputPortValues = ctx.outputPortValues ++ (outResult? op).toList)
      (flowPort A m sc op) (scanPort m ctx op) := by
  -- inputs and inouts alike
  have hport : ∀ {res : Val} {name : String} {r : Except LowerError Ctx} (e : LowerError),
      (∃ msg, e = .diag msg) → (m.lookupInputArg name = none → r = .error e) →
      (∀ x, m.lookupInputArg name = some x → r = .ok (ctx.recordValueMapping res x)) →
      res ∉ m.regsWithin →
      (m.inputPorts.find? fun p => p.1 = name).all (fun p => p.2 == res.width) = true →
      Agrees id (fun sc ctx' => Clean R hm.setting sc { ctx' with outputPortValues := m.outs } ∧
          ctx'.outputPortValues = ctx.outputPortValues ++ [])
        (flowPort A m sc (.inputPort res name)) r := by
    rintro res name r _ ⟨msg, rfl⟩ hnone hsome hres hw
    simp only [NslModule.lookupInputArg] at hnone hsome
    simp only [flowPort]
    cases hf : m.inputPorts.find? fun p => decide (p.1 = name) with
    | none =>
      rw [hnone (by rw [hf]; rfl)]
      exact ⟨msg, rfl⟩
    | some p =>
      rw [hsome (.arg p.1 p.2) (by rw [hf]; rfl)]
      have hwidth : p.2 = res.width := by simpa [hf] using hw
      have hx : Means R res.width (.arg p.1 p.2) (some (A.input p.1 p.2)) :=
        ⟨rfl, hwidth, hA.input _ _⟩
      exact agrees_ok ⟨h.define hres hx, (List.append_nil _).symm⟩
  cases op with
  | inputPort res name =>
    exact hport (missingPort "input_port" name) ⟨_, rfl⟩ (fun h => by simp only [scanPort, h])
      (fun x h => by simp only [scanPort, h]) (by simpa [Op.verify] using hv) (hin (res, name) rfl)
  | inoutPort res name =>
    exact hport (missingPort "inout_port" name) ⟨_, rfl⟩ (fun h => by simp only [scanPort, h])
      (fun x h => by simp only [scanPort, h]) (by simpa [Op.verify] using hv) (hin (res, name) rfl)
  | outputPort res name => exact agrees_ok ⟨h, rfl⟩
  | _ => exact agrees_ok ⟨h, (List.append_nil _).symm⟩

theorem agrees_scan (hA : Interprets A R) (hm : VerifiedModule m) (ops : List Op) {sc : Scope D}
    {ctx : Ctx} (h : Clean R hm.setting sc { ctx with outputPortValues := m.outs })
    (hv : ∀ op ∈ ops, op.verify m.regsWithin = true)
    (hin : ∀ q ∈ ops.filterMap inputResult?,
      (m.inputPorts.find? fun p => p.1 = q.2).all (fun p => p.2 == q.1.width) = true) :
    Agrees id (fun sc ctx' => Clean R hm.setting sc { ctx' with outputPortValues := m.outs } ∧
        ctx'.outputPortValues = ctx.outputPortValues ++ ops.filterMap outResult?)
      (ops.foldlM (flowPort A m) sc) (ops.foldlM (scanPort m) ctx) := by
  induction ops generalizing sc ctx with
  | nil => exact agrees_ok ⟨h, (List.append_nil _).symm⟩
  | cons op ops ih =>
    rw [List.foldlM_cons, List.foldlM_cons]
    have hop := agrees_scanPort hA hm h (hv op (by simp)) fun q hq =>
      hin q (by simp [hq])
    refine hop.bind (fun sc' ctx' h' => ?_) fun ctx' ctx'' hok => ?_
    · refine (ih h'.1 (fun o ho => hv o (by simp [ho])) fun q hq => hin q ?_).imp ?_
      · rw [List.filterMap_cons]
        split
        · exact hq
        · exact List.mem_cons_of_mem _ hq
      · rintro sc'' ctx'' ⟨h'', hports⟩
        refine ⟨h'', ?_⟩
        rw [hports, h'.2]
        cases hr : outResult? op <;> simp [hr]
    · refine grows_foldlM (fun c o c' hc => ?_) ops hok
      unfold scanPort at hc
      split at hc
      · split at hc
        · cases hc
        · obtain rfl := Except.ok.inj hc
          exact List.prefix_refl _
      · split at hc
        · cases hc
        · obtain rfl := Except.ok.inj hc
          exact List.prefix_refl _
      · obtain rfl := Except.ok.inj hc
        exact List.prefix_refl _
      · obtain rfl := Except.ok.inj hc
        exact .refl _

/-- **The walk over a module.** -/
theorem agrees_walk (hA : Interprets A R) (hm : VerifiedModule m) :
    Agrees id (Clean R (hm.setting.after m.body))
      (m.body.foldlM (flowPort A m) .empty >>=
        m.body.foldlM (flowBodyOp A m.outs m.declare.isSome)) (walkModule m) := by
  have hops : ∀ op ∈ m.body, op.verify m.regsWithin = true :=
    fun op hop => hm.ops op ((sublist_withins m.body).subset hop)
  refine (agrees_scan hA hm m.body (clean_initial hm) hops hm.inputs).bind (fun sc ctx h => ?_)
    fun ctx ctx' hok => grows_foldlM (fun _ _ _ => grows_lowerBodyOp) m.body hok
  have hclean : Clean R hm.setting sc ctx := by
    have hports : ctx.outputPortValues = m.outs := h.2
    have hctx := h.1
    rwa [← hports] at hctx
  have hsub := regResults_sublist m
  exact agrees_body hA m.body hclean hm.ops hsub.subset (hm.regs_nodup.sublist hsub)

end Modules

/-! ## Wires, outputs and registers -/

section Finish

variable {A : Algebra D} {R : Value → D → Prop} {m : NslModule} {ctx : Ctx}

/-- The value itself, or an `hw.wire` that carries it. -/
inductive Wired (x : Value) : Value → Prop
  | self : Wired x x
  | wire {y : Value} (i : ℕ) (name : String) : Wired x y → Wired x (.op i (.wire name) [y])

theorem Wired.trans {x y z : Value} (h : Wired x y) (h' : Wired y z) : Wired x z := by
  induction h' with
  | self => exact h
  | wire i name _ ih => exact .wire i name ih

theorem Wired.stands (hA : Interprets A R) {w : ℕ} {x y : Value} {d : D} (h : Wired x y)
    (hx : Stands R w x d) : Stands R w y d := by
  induction h with
  | self => exact hx
  | wire i name _ ih =>
    exact ⟨Value.typed_op.2 ⟨rfl, by simp [ih.typed]⟩, ih.width, hA.wire ih.rel⟩

theorem Wired.untyped {x y : Value} (h : Wired x y) (hx : x.typed = false) : y.typed = false := by
  induction h with
  | self => exact hx
  | wire i name _ ih => exact untyped_of_mem (List.mem_singleton_self _) ih

theorem finaliseWire_assignment (ctx : Ctx) (w : WireInfo) (name : String) :
    Option.Rel Wired (ctx.outputAssignment? name)
      ((finaliseWire ctx w).2.outputAssignment? name) := by
  unfold finaliseWire
  cases w.pendingDriver with
  | none =>
    simp only [Ctx.outputAssignment?, Ctx.recordValueMapping, Ctx.emit, Option.any_none,
      Bool.false_eq_true, if_false, List.map_id']
    cases (ctx.outputAssignments.find? fun p => decide (p.1 = name)).map Prod.snd with
    | none => exact .none
    | some x => exact .some .self
  | some y =>
    simp only [Ctx.outputAssignment?, Ctx.recordValueMapping, Ctx.emit, Option.any_some]
    rw [find?_map_assign (fun x => x.same y)]
    cases (ctx.outputAssignments.find? fun p => decide (p.1 = name)).map Prod.snd with
    | none => exact .none
    | some x =>
      refine .some ?_
      simp only
      split
      · -- the assignment captured the wire's driver
        rename_i hsame
        obtain rfl := Value.eq_of_same hsame
        exact .wire _ _ .self
      · exact .self

theorem finaliseWires_assignment (ws : List WireInfo) (ctx : Ctx) (name : String) :
    Option.Rel Wired (ctx.outputAssignment? name)
      ((finaliseWires ctx ws).2.outputAssignment? name) := by
  induction ws generalizing ctx with
  | nil =>
    simp only [finaliseWires]
    cases ctx.outputAssignment? name with
    | none => exact .none
    | some x => exact .some .self
  | cons w ws ih =>
    have hstep := finaliseWire_assignment ctx w name
    have hrest := ih (finaliseWire ctx w).2
    simp only [finaliseWires]
    generalize (finaliseWire ctx w).2.outputAssignment? name = mid at hstep hrest
    generalize ctx.outputAssignment? name = first at hstep
    cases hstep with
    | none => exact hrest
    | some hxy =>
      generalize (finaliseWires (finaliseWire ctx w).2 ws).2.outputAssignment? name = last at hrest
      cases hrest with
      | some hyz => exact .some (hxy.trans hyz)

/-- The `hw.wire` of a driver. -/
def WireOf (q : String × Value) (y : Value) : Prop := ∃ i, y = .op i (.wire q.1) [q.2]

theorem finaliseWires_body (ws : List WireInfo) (ctx : Ctx) :
    ∃ new, (finaliseWires ctx ws).2.body = ctx.body ++ new ∧
      List.Forall₂ WireOf (finaliseWires ctx ws).1 (new.filter isWire) ∧
      ∀ y ∈ new, isWire y = false → y.typed = true := by
  induction ws generalizing ctx with
  | nil => exact ⟨[], by simp [finaliseWires], .nil, by simp⟩
  | cons w ws ih =>
    obtain ⟨new, hbody, hwires, htyped⟩ := ih (finaliseWire ctx w).2
    have hstep : ∃ pre, (finaliseWire ctx w).2.body = ctx.body ++ pre ∧
        List.Forall₂ WireOf [(w.name, (finaliseWire ctx w).1)] (pre.filter isWire) ∧
        ∀ y ∈ pre, isWire y = false → y.typed = true := by
      unfold finaliseWire
      cases w.pendingDriver with
      | some d => exact ⟨[_], rfl, .cons ⟨_, rfl⟩ .nil, by simp [isWire]⟩
      | none =>
        refine ⟨[_, _], List.append_assoc _ _ _, .cons ⟨_, rfl⟩ .nil, ?_⟩
        simp [isWire, Value.typed, CombOp.verify, Value.tys, Value.allTyped]
    obtain ⟨pre, hpre, hwire, hpreTyped⟩ := hstep
    refine ⟨pre ++ new, ?_, ?_, ?_⟩
    · simp only [finaliseWires]
      rw [hbody, hpre, List.append_assoc]
    · rw [List.filter_append]
      exact List.rel_append hwire hwires
    · intro y hy
      exact (List.mem_append.1 hy).elim (hpreTyped y) (htyped y)

theorem outputOperands_body (ps : List (String × ℕ)) (ctx : Ctx) :
    ∃ new, (outputOperands ctx ps).2.body = ctx.body ++ new ∧
      ∀ y ∈ new, y.typed = true ∧ isWire y = false := by
  induction ps generalizing ctx with
  | nil => exact ⟨[], by simp [outputOperands], by simp⟩
  | cons p ps ih =>
    obtain ⟨new, hbody, htyped⟩ := ih (outputOperand ctx p).2
    have hstep : ∃ pre, (outputOperand ctx p).2.body = ctx.body ++ pre ∧
        ∀ y ∈ pre, y.typed = true ∧ isWire y = false := by
      unfold outputOperand
      split
      · exact ⟨[], (List.append_nil _).symm, by simp⟩
      · exact ⟨[_], rfl, by simp [Value.typed, CombOp.verify, Value.tys, Value.allTyped, isWire]⟩
    obtain ⟨pre, hpre, hpreTyped⟩ := hstep
    refine ⟨pre ++ new, ?_, ?_⟩
    · simp only [outputOperands]
      rw [hbody, hpre, List.append_assoc]
    · intro y hy
      exact (List.mem_append.1 hy).elim (hpreTyped y) (htyped y)

theorem outputOperands_values (ps : List (String × ℕ)) (ctx : Ctx) :
    List.Forall₂ (fun p q => q.1 = p.1 ∧
        (∀ x, ctx.outputAssignment? p.1 = some x → q.2 = x) ∧
        (ctx.outputAssignment? p.1 = none → ∃ i, q.2 = .op i (.constant p.2 0) []))
      ps (outputOperands ctx ps).1 := by
  induction ps generalizing ctx with
  | nil => exact .nil
  | cons p ps ih =>
    have hsame : ∀ name, (outputOperand ctx p).2.outputAssignment? name =
        ctx.outputAssignment? name := by
      intro name
      unfold outputOperand
      split <;> rfl
    refine .cons ⟨rfl, fun x hx => by simp [hx], fun hn => ?_⟩ ((ih (outputOperand ctx p).2).imp fun p' q hq => ?_)
    · simp only [hn]
      exact ⟨_, rfl⟩
    · rwa [hsame] at hq

/-! ## The parts of the finished module -/

/-- The `hw.wire`s of the calls; those of the `nsl.wire`s come last. -/
def HWModule.callWires (hw : HWModule) : List Value :=
  (hw.body.filter isWire).take ((hw.body.filter isWire).length - hw.wires.length)

theorem assemble_body (m : NslModule) (ctx : Ctx) :
    ∃ wires consts, (assemble m ctx).body = ctx.body ++ wires ++ consts ∧
      List.Forall₂ WireOf (assemble m ctx).wires (wires.filter isWire) ∧
      (∀ y ∈ wires, isWire y = false → y.typed = true) ∧
      ∀ y ∈ consts, y.typed = true ∧ isWire y = false := by
  obtain ⟨wires, hw, hof, hwt⟩ := finaliseWires_body ctx.wires ctx
  obtain ⟨consts, hc, hct⟩ := outputOperands_body m.outputPorts (finaliseWires ctx ctx.wires).2
  refine ⟨wires, consts, ?_, hof, hwt, hct⟩
  rw [assemble, hc, hw]

theorem assemble_callWires (m : NslModule) (ctx : Ctx) :
    (assemble m ctx).callWires = ctx.body.filter isWire := by
  obtain ⟨wires, consts, hbody, hof, -, hct⟩ := assemble_body m ctx
  have hconsts : consts.filter isWire = [] := by
    rw [List.filter_eq_nil_iff]
    intro y hy
    simp [(hct y hy).2]
  have hlen := hof.length_eq
  rw [HWModule.callWires, hbody, List.filter_append, List.filter_append, hconsts, List.append_nil,
    List.length_append, hlen, Nat.add_sub_cancel, List.take_left]

/-- **Typed modules**: every op is typed, so nothing in it is an `nsl`
result or a null operand, the gates of calls are one bit, and the outputs
and registers get values of their widths. -/
structure HWModule.Typed (m : NslModule) (hw : HWModule) : Prop where
  body : ∀ y ∈ hw.body, y.typed = true
  outputs : List.Forall₂ (fun p q => q.2.typed = true ∧ q.2.width = p.2) m.outputPorts hw.outputs
  regs : List.Forall₂ (fun v r => r.2.2.typed = true ∧ r.2.2.width = v.width) m.regResults hw.regs
  calls : ∀ y ∈ hw.callWires, y.width = 1

namespace Scope

variable (A : Algebra D) (sc : Scope D)

/-- What an output carries: zero if it has no driver. -/
def outValue (p : String × ℕ) : D := (sc.outDriver p.1).join.getD (A.const p.2 0)

def wireValue (v : Val) : D := (sc.wireDriver v).join.getD (A.const v.width 0)

def regValue (v : Val) : D := (sc.regDriver v).getD (A.const v.width 0)

end Scope

/-- The module has the values of the flow. -/
structure Delivers (A : Algebra D) (R : Value → D → Prop) (m : NslModule) (sc : Scope D)
    (hw : HWModule) : Prop where
  body : ∀ y ∈ hw.body, y.typed = true
  outputs : List.Forall₂ (fun p q => q.1 = p.1 ∧ Stands R p.2 q.2 (sc.outValue A p))
    m.outputPorts hw.outputs
  wires : List.Forall₂ (fun v q => Stands R v.width q.2 (sc.wireValue A v)) m.wireResults hw.wires
  regs : List.Forall₂ (fun v r => Stands R v.width r.2.2 (sc.regValue A v)) m.regResults hw.regs
  calls : List.Forall₂ (CallWire R) sc.calls hw.callWires

theorem Delivers.typed {sc : Scope D} {hw : HWModule} (h : Delivers A R m sc hw) : hw.Typed m where
  body := h.body
  outputs := h.outputs.imp fun _ _ hq => ⟨hq.2.typed, hq.2.width⟩
  regs := h.regs.imp fun _ _ hr => ⟨hr.typed, hr.width⟩
  calls := by
    refine forall_right_of_forall₂ (h.calls.imp ?_)
    rintro c y ⟨i, g, rfl, hs⟩
    exact hs.width

theorem dropAllUses_eq_map (vs : List Value) : Value.dropAllUses vs = vs.map Value.dropUses := by
  induction vs with
  | nil => rfl
  | cons v vs ih => rw [Value.dropAllUses, ih, List.map_cons]

theorem isWire_dropUses (y : Value) : isWire y.dropUses = isWire y := by
  cases y with
  | op i k args => cases k <;> rfl
  | _ => rfl

/-! ## Finishing -/

theorem callWires_dropUses (hw : HWModule) :
    hw.dropUses.callWires = hw.callWires.map Value.dropUses := by
  have hfilter : hw.dropUses.body.filter isWire = (hw.body.filter isWire).map Value.dropUses := by
    simp only [HWModule.dropUses, dropAllUses_eq_map, List.filter_map]
    congr 1
    exact List.filter_congr fun y _ => isWire_dropUses y
  have hlen : hw.dropUses.wires.length = hw.wires.length := by simp [HWModule.dropUses]
  rw [HWModule.callWires, HWModule.callWires, hfilter, hlen, List.length_map, List.map_take]

theorem map_eq_self {α : Type} {f : α → α} {xs : List α} (h : ∀ a ∈ xs, f a = a) : xs.map f = xs :=
  (List.map_congr_left h).trans (List.map_id' xs)

theorem dropUses_eq_self {hw : HWModule} (hb : ∀ y ∈ hw.body, y.typed = true)
    (ho : ∀ q ∈ hw.outputs, q.2.typed = true) (hwires : ∀ q ∈ hw.wires, q.2.typed = true)
    (hr : ∀ r ∈ hw.regs, r.2.2.typed = true) : hw.dropUses = hw := by
  obtain ⟨outputs, wires, regs, body⟩ := hw
  simp only [HWModule.dropUses, dropAllUses_eq_map, HWModule.mk.injEq]
  refine ⟨map_eq_self fun q hq => ?_, map_eq_self fun q hq => ?_, map_eq_self fun r hr' => ?_,
    map_eq_self fun y hy => Value.dropUses_of_typed (hb y hy)⟩
  · rw [Value.dropUses_of_typed (ho q hq)]
  · rw [Value.dropUses_of_typed (hwires q hq)]
  · rw [Value.dropUses_of_typed (hr r hr')]

/-- A driver that has a value, or the zero put where there is none. -/
theorem stands_driver (hA : Interprets A R) {w : ℕ} {ox : Option Value} {od : Option (Option D)}
    {x : Value} (h : DriverMeans R w ox od) (hsome : od ≠ some none)
    (hx : ∀ y, ox = some y → Wired y x)
    (hnone : ox = none → ∃ i, x = .op i (.constant w 0) []) :
    Stands R w x (od.join.getD (A.const w 0)) := by
  match ox, od, h with
  | none, none, _ =>
    obtain ⟨i, rfl⟩ := hnone rfl
    exact ⟨rfl, rfl, hA.const _ _ _⟩
  | some y, some (some d), h => exact (hx y rfl).stands hA h
  | some y, some none, _ => exact absurd rfl hsome

theorem finaliseWires_values (ws : List WireInfo) (ctx : Ctx) :
    List.Forall₂ (fun w q => (∀ y, w.pendingDriver = some y → q.2 = y) ∧
        (w.pendingDriver = none → ∃ i, q.2 = .op i (.constant w.origResult.width 0) []))
      ws (finaliseWires ctx ws).1 := by
  induction ws generalizing ctx with
  | nil => exact .nil
  | cons w ws ih => exact .cons (finaliseWire_driver ctx w) (ih (finaliseWire ctx w).2)

theorem settled_iff {sc : Scope D} :
    sc.settled m = true ↔ (∀ p ∈ m.outputPorts, sc.outDriver p.1 ≠ some none) ∧
      (∀ v ∈ sc.wires, sc.wireDriver v ≠ some none) ∧ ∀ v ∈ sc.regs, sc.regDriver v ≠ none := by
  have hany : ∀ o : Option (Option D), (!o.any Option.isNone) = true ↔ o ≠ some none := by
    rintro (_ | _ | d) <;> simp
  simp only [Scope.settled, Bool.and_eq_true, List.all_eq_true, hany, Option.isSome_iff_ne_none,
    and_assoc]

section Driven

variable {sc : Scope D}

/-- **With every driver settled, the module is typed and has the values
of the flow.** -/
theorem finish_delivers (hA : Interprets A R) (hm : VerifiedModule m)
    (h : Clean R (hm.setting.after m.body) sc ctx) (hs : sc.settled m = true) :
    ∃ hw, finishModule m ctx = .ok hw ∧ Delivers A R m sc hw := by
  obtain ⟨hout, hwire, hreg⟩ := settled_iff.1 hs
  have hregs : sc.regs = m.regResults := h.madeRegs
  have hwires : sc.wires = m.wireResults := h.madeWires
  have houtputs : List.Forall₂ (fun p q => q.1 = p.1 ∧ Stands R p.2 q.2 (sc.outValue A p))
      m.outputPorts (assemble m ctx).outputs := by
    have hvals := outputOperands_values m.outputPorts (finaliseWires ctx ctx.wires).2
    refine ((List.forall₂_and_left _ _).2 ⟨fun p hp => hp, hvals⟩).imp ?_
    rintro p q ⟨hp, hname, hsome, hnone⟩
    have hd := h.outDriver p.1
    have hrel := finaliseWires_assignment ctx.wires ctx p.1
    have hw : (hm.setting.after m.body).outWidth p.1 = p.2 := outWidth_output hm hp
    rw [hw] at hd
    refine ⟨hname, stands_driver hA hd (hout p hp) (fun y hy => ?_) fun hn => hnone ?_⟩
    · rw [hy] at hrel
      generalize hz : (finaliseWires ctx ctx.wires).2.outputAssignment? p.1 = oz at hrel
      cases hrel with
      | some hyz => exact hsome _ hz ▸ hyz
    · rw [hn] at hrel
      generalize (finaliseWires ctx ctx.wires).2.outputAssignment? p.1 = oz at hrel
      cases hrel
      rfl
  have hwireVals : List.Forall₂ (fun v q => Stands R v.width q.2 (sc.wireValue A v))
      m.wireResults (assemble m ctx).wires := by
    have hlist : m.wireResults = ctx.wires.map WireInfo.origResult := by rw [h.wireList, hwires]
    rw [hlist, List.forall₂_map_left_iff]
    refine ((List.forall₂_and_left _ _).2
      ⟨fun w hw => hw, finaliseWires_values ctx.wires ctx⟩).imp ?_
    rintro w q ⟨hw, hsome, hnone⟩
    have hfind : ctx.wireInfo? w.origResult = some w :=
      find?_of_nodup WireInfo.origResult (hlist ▸ hm.wires_nodup) hw
    have hd := h.wireDriver w.origResult
    rw [hfind] at hd
    have hmem : w.origResult ∈ sc.wires := by
      rw [← h.wireList]
      exact List.mem_map_of_mem hw
    refine stands_driver hA hd (hwire _ hmem) (fun y hy => ?_) fun hn => hnone hn
    rw [hsome y hy]
    exact .self
  have hregVals : List.Forall₂ (fun v r => Stands R v.width r.2.2 (sc.regValue A v))
      m.regResults (assemble m ctx).regs := by
    have hlen : ctx.regs.length = m.regResults.length := by rw [h.regList, hregs]
    rw [assemble_regs, List.forall₂_iff_get]
    refine ⟨by simp [hlen], fun i h₁ h₂ => ?_⟩
    set v := m.regResults.get ⟨i, h₁⟩ with hv
    have hi : sc.regs[i]? = some v := by
      rw [hregs]
      exact List.getElem?_eq_getElem h₁
    obtain ⟨-, -, r, hr, -, hnext⟩ := h.reg i v hi
    have hi' : i < ctx.regs.length := hlen ▸ h₁
    have hr' : ctx.regs[i] = r := Option.some.inj ((List.getElem?_eq_getElem hi').symm.trans hr)
    obtain ⟨d, hd⟩ := Option.ne_none_iff_exists'.1 (hreg v (List.mem_of_getElem? hi))
    rw [hd] at hnext
    have hstands : Stands R v.width r.pendingNext d := hnext
    simpa [hr', Scope.regValue, hd] using hstands
  have hbody : ∀ y ∈ (assemble m ctx).body, y.typed = true := by
    obtain ⟨wires, consts, heq, hof, hwt, hct⟩ := assemble_body m ctx
    have hdriver := forall_right_of_forall₂ (hwireVals.imp fun _ _ hq => hq.typed)
    have hall : ∀ y ∈ wires.filter isWire, y.typed = true := by
      refine forall_right_of_forall₂
        (((List.forall₂_and_left _ _).2 ⟨fun q hq => hq, hof⟩).imp ?_)
      rintro q y ⟨hq, i, rfl⟩
      exact Value.typed_op.2 ⟨rfl, by simpa using hdriver q hq⟩
    intro y hy
    rw [heq, List.append_assoc] at hy
    rcases List.mem_append.1 hy with hy | hy
    · exact (Bool.and_eq_true_iff.1 (h.body y hy)).1
    · rcases List.mem_append.1 hy with hy | hy
      · by_cases hw : isWire y = true
        · exact hall y (List.mem_filter.2 ⟨hy, hw⟩)
        · exact hwt y hy (Bool.eq_false_of_not_eq_true hw)
      · exact (hct y hy).1
  have ho := forall_right_of_forall₂ (houtputs.imp fun _ _ hq => hq.2.typed)
  have hr := forall_right_of_forall₂ (hregVals.imp fun _ _ hq => hq.typed)
  have hfinish : finishModule m ctx = .ok (assemble m ctx).dropUses :=
    finishModule_closed (fun y hy => Value.isOpen_of_typed y (hbody y hy))
      (fun q hq => Value.isOpen_of_typed _ (ho q hq))
      fun r hr' => Value.isOpen_of_typed _ (hr r hr')
  rw [dropUses_eq_self hbody ho (forall_right_of_forall₂ (hwireVals.imp fun _ _ hq => hq.typed))
    hr] at hfinish
  refine ⟨assemble m ctx, hfinish, hbody, houtputs, hwireVals, hregVals, ?_⟩
  rw [assemble_callWires]
  exact h.calls

/-- **A spoiled walk gives no typed module.** -/
theorem finish_spoiled {hw : HWModule} (h : Spoiled ctx) (hok : finishModule m ctx = .ok hw) :
    ¬ hw.Typed m := by
  intro ht
  obtain rfl := finishModule_ok hok
  obtain ⟨y, hy, hbad⟩ := h
  obtain ⟨wires, consts, heq, -⟩ := assemble_body m ctx
  have hmem : y.dropUses ∈ (assemble m ctx).dropUses.body := by
    simp only [HWModule.dropUses, dropAllUses_eq_map]
    refine List.mem_map_of_mem ?_
    rw [heq]
    simp [hy]
  have htyped := Value.typed_of_dropUses y (ht.body _ hmem)
  simp only [sound, htyped, Bool.true_and, Bool.or_eq_false_iff, Bool.not_eq_false',
    beq_eq_false_iff_ne] at hbad
  refine hbad.2 ?_
  have hcall : y.dropUses ∈ (assemble m ctx).dropUses.callWires := by
    rw [callWires_dropUses, assemble_callWires]
    exact List.mem_map_of_mem (List.mem_filter.2 ⟨hy, hbad.1⟩)
  rw [← Value.dropUses_of_typed htyped]
  exact ht.calls _ hcall

theorem exists_of_forall₂ {α β : Type} {P : α → β → Prop} {as : List α} {bs : List β}
    (h : List.Forall₂ P as bs) : ∀ a ∈ as, ∃ b ∈ bs, P a b := by
  induction h with
  | nil => simp
  | @cons a b as bs hab _ ih =>
    refine List.forall_mem_cons.2 ⟨⟨b, by simp, hab⟩, fun a' ha' => ?_⟩
    obtain ⟨b', hb', hab'⟩ := ih a' ha'
    exact ⟨b', List.mem_cons_of_mem _ hb', hab'⟩

/-- A driver without a value is typed in no way. -/
theorem untyped_driver {w : ℕ} {x : Value} {ox : Option Value}
    (h : DriverMeans R w ox (some none)) (hx : ∀ y, ox = some y → Wired y x) : x.typed = false := by
  match ox, h with
  | some y, h =>
    have hnone : Means R w y none := h
    exact (hx y rfl).untyped hnone.untyped

/-- **Nor does a driver without a value.** -/
theorem finish_unsettled (hm : VerifiedModule m) (h : Clean R (hm.setting.after m.body) sc ctx)
    {hw : HWModule} (hs : sc.settled m = false) (hok : finishModule m ctx = .ok hw) :
    ¬ hw.Typed m := by
  intro ht
  obtain rfl := finishModule_ok hok
  have hregs : sc.regs = m.regResults := h.madeRegs
  have key : sc.settled m = true := by
    refine settled_iff.2 ⟨?_, ?_, ?_⟩
    · have hvals := outputOperands_values m.outputPorts (finaliseWires ctx ctx.wires).2
      have htyped := ht.outputs
      simp only [HWModule.dropUses, List.forall₂_map_right_iff] at htyped
      intro p hp hnone
      obtain ⟨q, -, ⟨-, hsome, -⟩, hq, -⟩ :=
        exists_of_forall₂ (List.Forall₂.mp (fun _ _ hv ht => And.intro hv ht) hvals htyped) p hp
      have hd := h.outDriver p.1
      rw [hnone] at hd
      have hrel := finaliseWires_assignment ctx.wires ctx p.1
      have hbad : q.2.typed = false := by
        refine untyped_driver hd fun y hy => ?_
        rw [hy] at hrel
        generalize hz : (finaliseWires ctx ctx.wires).2.outputAssignment? p.1 = oz at hrel
        cases hrel with
        | some hyz => exact hsome _ hz ▸ hyz
      rw [Value.typed_of_dropUses _ hq] at hbad
      cases hbad
    · intro v hv hnone
      obtain ⟨w, hw⟩ := Option.isSome_iff_exists.1 ((h.mem_wires v).2 hv)
      have hmem : w ∈ ctx.wires := List.mem_of_find?_eq_some hw
      have hd := h.wireDriver v
      rw [hw, hnone] at hd
      obtain ⟨wires, consts, heq, hof, -⟩ := assemble_body m ctx
      obtain ⟨q, hq, hsome, -⟩ := exists_of_forall₂ (finaliseWires_values ctx.wires ctx) w hmem
      -- the op of the wire has the driver as its operand
      obtain ⟨y, hy, i, rfl⟩ := exists_of_forall₂ hof q hq
      have hbad : q.2.typed = false := untyped_driver hd fun y hy => hsome y hy ▸ .self
      have hbody : (Value.op i (.wire q.1) [q.2]).dropUses ∈ (assemble m ctx).dropUses.body := by
        simp only [HWModule.dropUses, dropAllUses_eq_map]
        refine List.mem_map_of_mem ?_
        rw [heq]
        simp [(List.mem_filter.1 hy).1]
      have hop := Value.typed_of_dropUses _ (ht.body _ hbody)
      rw [(Value.typed_op.1 hop).2 q.2 (by simp)] at hbad
      cases hbad
    · have htyped := ht.regs
      rw [← hregs] at htyped
      simp only [HWModule.dropUses, assemble_regs, List.forall₂_map_right_iff] at htyped
      rw [List.forall₂_iff_get] at htyped
      intro v hv hnone
      obtain ⟨i, hi⟩ := List.mem_iff_getElem?.1 hv
      obtain ⟨-, -, r, hr, -, hnext⟩ := h.reg i v hi
      rw [hnone] at hnext
      have h₁ := (List.getElem?_eq_some_iff.1 hi).1
      have h₂ := (List.getElem?_eq_some_iff.1 hr).1
      have hget := (htyped.2 i h₁ h₂).1
      have hr' : ctx.regs.get ⟨i, h₂⟩ = r := (List.getElem?_eq_some_iff.1 hr).2
      rw [hr'] at hget
      have hbad := hnext.untyped
      rw [Value.typed_of_dropUses _ hget] at hbad
      cases hbad
  rw [hs] at key
  cases key

end Driven

end Finish

end Lower

end Nslc
