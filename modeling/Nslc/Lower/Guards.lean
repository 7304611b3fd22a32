import Nslc.Lower.Simulation
/-!
# Guarded writes — whole modules

The simulation over the port scan and the module body, then what is left
of it when the wires are materialised and the `nsl` ops erased: the
driver of every output, wire and register is related to what the writes
of the reference amount to. With bit vectors that gives its value, with
truth values whether it was left with a null operand.
-/

namespace Nslc

namespace Lower

open Dialect Circt

variable {D : Type}

/-! ## Modules of guarded writes -/

namespace NslModule

def regResults (m : NslModule) : List Val := m.body.filterMap regResult?

def wireResults (m : NslModule) : List Val := m.body.filterMap wireResult?

/-- The declared width of an output. -/
def outputWidth (m : NslModule) (name : String) : ℕ :=
  ((m.outputPorts.find? fun p => p.1 = name).map Prod.snd).getD 0

end NslModule

/-- One op of the module: ports as declared, registers apart from ports
and wires, and the rest within the fragment. A sequential `nsl.func` is
not lowered here. -/
def guardedBodyOp (m : NslModule) : Op → Bool
  | .inputPort res name | .inoutPort res name =>
    (m.inputPorts.find? fun p => p.1 = name).all (fun p => p.2 == res.width) &&
      decide (res ∉ m.regResults)
  | .outputPort res name =>
    (m.outputPorts.find? fun p => p.1 = name).any fun p => p.2 == res.width
  | .wire res _ => decide (res ∉ m.regResults)
  | .func _ body => body.any Op.isSeq || guardedOps m.regResults body
  | op => guardedOp m.regResults op

/-- Modules of the fragment. Every register and wire is declared once,
directly in the module. -/
structure GuardedModule (m : NslModule) : Prop where
  ops : ∀ op ∈ m.body, guardedBodyOp m op = true
  regs_nodup : m.regResults.Nodup
  wires_nodup : m.wireResults.Nodup
  outputs_nodup : (m.outputPorts.map Prod.fst).Nodup

instance (m : NslModule) : Decidable (GuardedModule m) :=
  decidable_of_iff
    ((∀ op ∈ m.body, guardedBodyOp m op = true) ∧ m.regResults.Nodup ∧ m.wireResults.Nodup ∧
      (m.outputPorts.map Prod.fst).Nodup)
    ⟨fun h => ⟨h.1, h.2.1, h.2.2.1, h.2.2.2⟩, fun h => ⟨h.1, h.2, h.3, h.4⟩⟩

/-! ## The walk over a module -/

section Walk

variable {A : Domain D} {R : Value → D → Prop} {G : Value → Guards D → Prop}
  {C : Value → List D → Prop} {outWidth : String → ℕ} {regs : List Val} {ctx ctx' : Ctx}
  {st : RefState D} {m : NslModule}

theorem sim_initial (hR : Respects A R G C) (m : NslModule) :
    Sim A R outWidth regs (Ctx.initial m) .initial where
  lookup := fun v => hR.unresolved v
  typed := fun _ => rfl
  mapped := fun _ h => absurd h (by simp [Ctx.initial])
  outs := rfl
  outs_width := fun _ h => absurd rfl h
  output := fun _ => .none
  wireList := rfl
  wire := fun _ => .none
  regList := rfl
  reg := fun i v h => absurd h (by simp [RefState.initial])
  pending := fun v _ _ i w => by simp [Ctx.lookupValue, Ctx.initial]
  regs_nodup := List.nodup_nil
  regWrites := fun w hw => absurd hw (by simp [RefState.initial])

/-- A port joins the outputs. -/
theorem Sim.addOutput (h : Sim A R outWidth regs ctx st) {res : Val} {name : String}
    (hw : res.width = outWidth name) :
    Sim A R outWidth regs
      { ctx with outputPortValues := ctx.outputPortValues ++ [(res, name)] }
      { st with outs := st.outs ++ [(res, name)] } where
  lookup := h.lookup
  typed := h.typed
  mapped := h.mapped
  outs := by simp only [h.outs]
  outs_width := fun v hne => by
    simp only [RefState.outName, List.find?_append] at hne ⊢
    have hv := h.outs_width v
    unfold RefState.outName at hv
    cases hf : st.outs.find? fun p => p.1 = v with
    | some p =>
      rw [hf] at hne hv
      exact hv hne
    | none =>
      rw [hf] at hne
      by_cases he : res = v
      · subst he
        simpa using hw
      · exact absurd hne (by simp [he])
  output := h.output
  wireList := h.wireList
  wire := h.wire
  regList := h.regList
  reg := h.reg
  pending := h.pending
  regs_nodup := h.regs_nodup
  regWrites := h.regWrites

/-- Ports of the module. -/
theorem sim_scanPort (hR : Respects A R G C)
    (h : Sim A R m.outputWidth m.regResults ctx st) {op : Op}
    (hop : guardedBodyOp m op = true) (hok : scanPort m ctx op = .ok ctx') :
    Sim A R m.outputWidth m.regResults ctx' (execPort A m st op) := by
  -- both kinds of input are mapped to the block argument of their name
  have hin : ∀ (res : Val) (name : String),
      (m.inputPorts.find? fun p => p.1 = name).all (fun p => p.2 == res.width) = true →
      res ∉ m.regResults →
      (∀ p, (m.inputPorts.find? fun p => p.1 = name) = some p →
        scanPort m ctx op = .ok (ctx.recordValueMapping res (.arg p.1 p.2)) ∧
          execPort A m st op = st.define res (A.input p.1 p.2)) →
      ((m.inputPorts.find? fun p => p.1 = name) = none → ∃ e, scanPort m ctx op = .error e) →
      Sim A R m.outputWidth m.regResults ctx' (execPort A m st op) := by
    intro res name hw hres hsome hnone
    cases hf : m.inputPorts.find? fun p => p.1 = name with
    | none =>
      obtain ⟨e, he⟩ := hnone hf
      rw [he] at hok
      exact absurd hok (by simp)
    | some p =>
      obtain ⟨hscan, hexec⟩ := hsome p hf
      rw [hf] at hw
      rw [hscan] at hok
      obtain rfl := Except.ok.inj hok
      rw [hexec]
      exact h.define (hR.arg p.1 p.2) (show p.2 = res.width by simpa using hw) hres
  cases op with
  | inputPort res name =>
    simp only [guardedBodyOp, Bool.and_eq_true, decide_eq_true_eq] at hop
    refine hin res name hop.1 hop.2 (fun p hp => ?_) (fun hp => ?_)
    · simp [scanPort, execPort, NslModule.lookupInputArg, hp]
    · simp [scanPort, NslModule.lookupInputArg, hp]
  | inoutPort res name =>
    simp only [guardedBodyOp, Bool.and_eq_true, decide_eq_true_eq] at hop
    refine hin res name hop.1 hop.2 (fun p hp => ?_) (fun hp => ?_)
    · simp [scanPort, execPort, NslModule.lookupInputArg, hp]
    · simp [scanPort, NslModule.lookupInputArg, hp]
  | outputPort res name =>
    obtain rfl := Except.ok.inj hok
    refine h.addOutput ?_
    simp only [guardedBodyOp] at hop
    unfold NslModule.outputWidth
    cases hf : m.outputPorts.find? fun p => p.1 = name with
    | none => simp [hf] at hop
    | some p =>
      rw [hf] at hop
      simpa using (by simpa using hop : p.2 = res.width).symm
  | _ => exact (Except.ok.inj hok) ▸ h

/-- A register joins with its own value for its next one. -/
theorem Sim.addReg (hR : Respects A R G C) (h : Sim A R outWidth regs ctx st) {res : Val}
    (hmem : res ∈ regs) (hnew : res ∉ st.regs) (name : String) (init : ℕ) :
    Sim A R outWidth regs
      (({ ctx with
          regs := ctx.regs ++
            [⟨name, init, .reg ctx.regs.length res.width, .reg ctx.regs.length res.width⟩] } :
          Ctx).recordValueMapping res (.reg ctx.regs.length res.width))
      (({ st with regs := st.regs ++ [res] } : RefState D).define res
        (A.reg st.regs.length res.width)) where
  lookup := fun u => by
    by_cases hu : u = res
    · subst hu
      simpa [Ctx.lookupValue, Ctx.recordValueMapping, RefState.read, RefState.define, h.regList]
        using hR.reg st.regs.length u.width
    · simpa [Ctx.lookupValue, Ctx.recordValueMapping, RefState.read, RefState.define, hu]
        using h.lookup u
  typed := fun u => by
    by_cases hu : u = res
    · subst hu
      simp [Ctx.lookupValue, Ctx.recordValueMapping, Value.width, Value.ty]
    · simpa [Ctx.lookupValue, Ctx.recordValueMapping, hu] using h.typed u
  mapped := fun u => by
    by_cases hu : u = res
    · simp [RefState.define, hu]
    · simpa [Ctx.recordValueMapping, RefState.define, hu] using h.mapped u
  outs := h.outs
  outs_width := h.outs_width
  output := h.output
  wireList := h.wireList
  wire := h.wire
  regList := by simp [Ctx.recordValueMapping, RefState.define, h.regList]
  reg := fun i u hi => by
    simp only [RefState.define] at hi
    rcases Nat.lt_or_ge i st.regs.length with hlt | hge
    · rw [List.getElem?_append_left hlt] at hi
      obtain ⟨hu, hmap, r, hr, hrest⟩ := h.reg i u hi
      have hne : u ≠ res := fun he => hnew (he ▸ List.mem_of_getElem? hi)
      refine ⟨hu, by simpa [Ctx.recordValueMapping, hne] using hmap, r, ?_, hrest⟩
      simp only [Ctx.recordValueMapping]
      rwa [List.getElem?_append_left (h.regList ▸ hlt)]
    · have hi' : i = st.regs.length := by
        have := (List.getElem?_eq_some_iff.1 hi).1
        simp only [List.length_append, List.length_singleton] at this
        omega
      subst hi'
      obtain rfl : res = u := by simpa using hi
      have hnone : st.writesTo (.reg res) = [] := by
        unfold RefState.writesTo
        rw [List.filter_eq_nil_iff]
        intro w hw hw'
        exact hnew (h.regWrites w hw res (by simpa using hw'))
      refine ⟨hmem, by simp [Ctx.recordValueMapping, h.regList], ?_⟩
      refine ⟨⟨name, init, .reg ctx.regs.length res.width, .reg ctx.regs.length res.width⟩, ?_, ?_, ?_⟩
      · simp [Ctx.recordValueMapping, ← h.regList]
      · rw [h.regList]
      · have hown : R (.reg ctx.regs.length res.width) (A.reg st.regs.length res.width) := by
          rw [h.regList]
          exact hR.reg _ _
        simp only [RefState.define, RefState.writesTo] at hnone ⊢
        rw [hnone]
        exact .some ⟨hown, rfl⟩
  pending := fun u hu hn => by
    simp only [RefState.define, List.mem_append, List.mem_singleton, not_or] at hn
    simpa [Ctx.lookupValue, Ctx.recordValueMapping, hn.2] using h.pending u hu hn.1
  regs_nodup := by
    simp only [RefState.define]
    refine List.nodup_append.2 ⟨h.regs_nodup, by simp, ?_⟩
    rintro a ha b hb rfl
    exact hnew (List.mem_singleton.1 hb ▸ ha)
  regWrites := fun w hw v hv => by
    simp only [RefState.define, List.mem_append]
    exact .inl (h.regWrites w hw v hv)

/-- A wire joins without a driver. -/
theorem Sim.addWire (h : Sim A R outWidth regs ctx st) (res : Val) (name : String) :
    Sim A R outWidth regs { ctx with wires := ctx.wires ++ [⟨name, res, none⟩] }
      { st with wires := st.wires ++ [res] } where
  lookup := h.lookup
  typed := h.typed
  mapped := h.mapped
  outs := h.outs
  outs_width := h.outs_width
  output := h.output
  wireList := by simp [h.wireList]
  wire := fun v => by
    have hv : DriverRel R v.width ((ctx.wireInfo? v).bind WireInfo.pendingDriver)
      (drive A (A.zero v.width) none (st.writesTo (.wire v))) := h.wire v
    have hsame : (({ ctx with wires := ctx.wires ++ [⟨name, res, none⟩] } : Ctx).wireInfo? v).bind
        WireInfo.pendingDriver = (ctx.wireInfo? v).bind WireInfo.pendingDriver := by
      simp only [Ctx.wireInfo?, List.find?_append]
      cases ctx.wires.find? fun w => w.origResult = v with
      | some w => rfl
      | none => by_cases he : res = v <;> simp [he]
    rw [hsame]
    exact hv
  regList := h.regList
  reg := h.reg
  pending := h.pending
  regs_nodup := h.regs_nodup
  regWrites := h.regWrites

/-- One op directly in the module. -/
theorem sim_bodyOp (hR : Respects A R G C) (h : Sim A R outWidth m.regResults ctx st) {op : Op}
    (hop : guardedBodyOp m op = true) (hreg : ∀ res, regResult? op = some res → res ∈ m.regResults)
    (hnew : ∀ res, regResult? op = some res → res ∉ st.regs)
    (hok : lowerBodyOp ctx op = .ok ctx') :
    Sim A R outWidth m.regResults ctx' (execBodyOp A st op) := by
  have hg : GateRel G none ([] : Guards D) := ⟨fun h => absurd h (by simp), rfl⟩
  cases op with
  | reg res name init =>
    simp only [lowerBodyOp, lowerRegOp] at hok
    split at hok
    · obtain rfl := Except.ok.inj hok
      refine Sim.sameTables ?_ (sameTables_queue _ _)
      exact h.addReg hR (hreg res rfl) (hnew res rfl) name init
    · exact absurd hok (by simp)
  | wire res name =>
    obtain rfl := Except.ok.inj hok
    exact (h.addWire res name).sameTables (sameTables_queue _ _)
  | func symName body =>
    simp only [lowerBodyOp] at hok
    simp only [execBodyOp]
    split at hok
    · rename_i hseq
      rw [if_pos hseq]
      exact (Except.ok.inj hok) ▸ h
    · rename_i hseq
      rw [if_neg hseq]
      simp only [guardedBodyOp, hseq, Bool.false_or] at hop
      exact sim_controlOp hR _ h hg hop hok
  | inputPort res name => exact (Except.ok.inj hok) ▸ h
  | outputPort res name => exact (Except.ok.inj hok) ▸ h
  | inoutPort res name => exact (Except.ok.inj hok) ▸ h
  | _ => exact sim_controlOp hR _ h hg hop hok

theorem sim_bodyOps (hR : Respects A R G C) (ops : List Op) {ctx ctx' : Ctx} {st : RefState D}
    (h : Sim A R outWidth m.regResults ctx st) (hops : ∀ op ∈ ops, guardedBodyOp m op = true)
    (hreg : ∀ res ∈ ops.filterMap regResult?, res ∈ m.regResults)
    (hnodup : (st.regs ++ ops.filterMap regResult?).Nodup)
    (hok : lowerBodyOps ops ctx = .ok ctx') :
    Sim A R outWidth m.regResults ctx' (ops.foldl (execBodyOp A) st) := by
  induction ops generalizing ctx st with
  | nil => exact (Except.ok.inj hok) ▸ h
  | cons op ops ih =>
    obtain ⟨ctx₁, hop, hok⟩ := bind_eq_ok (by simpa only [lowerBodyOps, List.foldlM_cons] using hok)
    have hmem : ∀ res, regResult? op = some res → res ∈ (op :: ops).filterMap regResult? :=
      fun res hres => List.mem_filterMap.2 ⟨op, by simp, hres⟩
    have h₁ := sim_bodyOp hR h (hops op (by simp)) (fun res hres => hreg res (hmem res hres))
      (fun res hres hin => (List.nodup_append.1 hnodup).2.2 res hin res (hmem res hres) rfl) hop
    refine ih h₁ (fun op' h' => hops op' (by simp [h'])) ?_ ?_ hok
    · intro res hres
      obtain ⟨op', hop', hres'⟩ := List.mem_filterMap.1 hres
      exact hreg res (List.mem_filterMap.2 ⟨op', by simp [hop'], hres'⟩)
    · rw [(execBodyOp_storage A st op).1, List.append_assoc]
      cases hr : regResult? op <;> simpa [List.filterMap_cons, hr] using hnodup

theorem sim_scanPorts (hR : Respects A R G C) (ops : List Op) {ctx ctx' : Ctx} {st : RefState D}
    (h : Sim A R m.outputWidth m.regResults ctx st)
    (hops : ∀ op ∈ ops, guardedBodyOp m op = true) (hok : ops.foldlM (scanPort m) ctx = .ok ctx') :
    Sim A R m.outputWidth m.regResults ctx' (ops.foldl (execPort A m) st) := by
  induction ops generalizing ctx st with
  | nil => exact (Except.ok.inj hok) ▸ h
  | cons op ops ih =>
    obtain ⟨ctx₁, hop, hok⟩ := bind_eq_ok (by simpa only [List.foldlM_cons] using hok)
    exact ih (sim_scanPort hR h (hops op (by simp)) hop) (fun op' h' => hops op' (by simp [h'])) hok

theorem scanned_storage (A : Domain D) (m : NslModule) :
    (m.body.foldl (execPort A m) .initial).regs = [] ∧
      (m.body.foldl (execPort A m) .initial).wires = [] := by
  refine List.foldlRecOn m.body (execPort A m)
    (motive := fun st : RefState D => st.regs = [] ∧ st.wires = []) ⟨rfl, rfl⟩ ?_
  intro st hst op _
  obtain ⟨hr, hw⟩ := sameStorage_execPort A m st op
  exact ⟨hr.trans hst.1, hw.trans hst.2⟩

theorem execModule_storage (A : Domain D) (m : NslModule) :
    (execModule A m).regs = m.regResults ∧ (execModule A m).wires = m.wireResults := by
  obtain ⟨hr, hw⟩ := execBodyOps_storage A m.body (m.body.foldl (execPort A m) .initial)
  obtain ⟨hr', hw'⟩ := scanned_storage A m
  rw [hr', List.nil_append] at hr
  rw [hw', List.nil_append] at hw
  exact ⟨hr, hw⟩

/-- **The walk over a module follows the reference.** -/
theorem sim_walkModule (hR : Respects A R G C) (hm : GuardedModule m)
    (hok : walkModule m = .ok ctx) : Sim A R m.outputWidth m.regResults ctx (execModule A m) := by
  obtain ⟨ctx₁, hscan, hbody⟩ := bind_eq_ok hok
  have h₁ := sim_scanPorts hR m.body (sim_initial hR m) hm.ops hscan
  refine sim_bodyOps hR m.body h₁ hm.ops (fun _ h => h) ?_ hbody
  rw [(scanned_storage A m).1]
  exact hm.regs_nodup

end Walk

/-! ## Finishing the module -/

section Finish

variable {A : Domain D} {R : Value → D → Prop} {G : Value → Guards D → Prop}
  {C : Value → List D → Prop} {ctx : Ctx} {m : NslModule}

/-- Every driver of the module is related to what the reference has for
its target. -/
structure Drives (A : Domain D) (P : Value → D → Prop) (m : NslModule) (hw : HWModule) : Prop where
  outputs : List.Forall₂ (fun p q => q.1 = p.1 ∧ P q.2 ((execModule A m).outputDriver A p))
    m.outputPorts hw.outputs
  wires : List.Forall₂ (fun v q => P q.2 ((execModule A m).wireDriver A v)) m.wireResults hw.wires
  regs : List.Forall₂ (fun v r => P r.2.2 ((execModule A m).regDriver A v.1 v.2))
    m.regResults.zipIdx hw.regs

/-- A driver, or the zero put where there is none. -/
theorem DriverRel.getD {w : ℕ} {x : Value} {ox : Option Value} {d : Option D} {z : D}
    (h : DriverRel R w ox d) (hx : ∀ y, ox = some y → x = y) (hz : ox = none → R x z) :
    R x (d.getD z) := by
  cases h with
  | some hxd => exact hx _ rfl ▸ hxd.1
  | none => exact hz rfl

/-- Assignments that captured `x` moved to `y`. -/
theorem find?_map_assign (c : Value → Bool) (y : Value) (name : String)
    (xs : List (String × Value)) :
    ((xs.map fun p => if c p.2 then (p.1, y) else p).find? fun p => p.1 = name).map Prod.snd =
      ((xs.find? fun p => p.1 = name).map Prod.snd).map fun x => if c x then y else x := by
  induction xs with
  | nil => rfl
  | cons p xs ih =>
    have hfst : (if c p.2 then (p.1, y) else p).1 = p.1 := by split <;> rfl
    by_cases hp : p.1 = name
    · by_cases hc : c p.2 <;> simp [hp, hc]
    · simp only [List.map_cons, List.find?_cons, hfst, hp, decide_false]
      exact ih

theorem finaliseWire_output (hR : RespectsOps A R G C) (ctx : Ctx) (w : WireInfo) {name : String}
    {width : ℕ} {d : Option D} (h : DriverRel R width (ctx.outputAssignment? name) d) :
    DriverRel R width ((finaliseWire ctx w).2.outputAssignment? name) d := by
  unfold finaliseWire
  cases hp : w.pendingDriver with
  | none =>
    unfold Ctx.outputAssignment? at h
    simpa [Ctx.outputAssignment?, Ctx.recordValueMapping, Ctx.emit] using h
  | some y =>
    simp only [Ctx.outputAssignment?, Ctx.recordValueMapping, Ctx.emit, Option.any_some]
    rw [find?_map_assign (fun x => x.same y)]
    change DriverRel R width ((ctx.outputAssignment? name).map _) d
    generalize ctx.outputAssignment? name = assigned at h
    cases h with
    | none => exact .none
    | some hx =>
      refine .some ?_
      simp only
      split
      · -- the assignment is the wire's driver itself
        rename_i hsame
        obtain rfl := Value.eq_of_same hsame
        exact ⟨hR.wire _ _ _ _ hx.1, hx.2⟩
      · exact hx

theorem finaliseWire_regs (ctx : Ctx) (w : WireInfo) :
    (finaliseWire ctx w).2.regs = ctx.regs ∧ (finaliseWire ctx w).2.queued = ctx.queued := by
  unfold finaliseWire
  cases w.pendingDriver <;> exact ⟨rfl, rfl⟩

theorem finaliseWire_driver (ctx : Ctx) (w : WireInfo) :
    (∀ y, w.pendingDriver = some y → (finaliseWire ctx w).1 = y) ∧
      (w.pendingDriver = none →
        ∃ i, (finaliseWire ctx w).1 = .op i (.constant w.origResult.width 0) []) := by
  unfold finaliseWire
  cases w.pendingDriver with
  | some y => exact ⟨fun _ h => Option.some.inj h, fun h => absurd h (by simp)⟩
  | none => exact ⟨fun _ h => absurd h (by simp), fun _ => ⟨_, rfl⟩⟩

theorem finaliseWires_spec (hR : RespectsOps A R G C) (ws : List WireInfo) (ctx : Ctx) :
    (finaliseWires ctx ws).2.regs = ctx.regs ∧
    (∀ {name width d}, DriverRel R width (ctx.outputAssignment? name) d →
      DriverRel R width ((finaliseWires ctx ws).2.outputAssignment? name) d) ∧
    List.Forall₂ (fun w q => ∀ {d : Option D} {width},
        DriverRel R width w.pendingDriver d → R q.2 (d.getD (A.zero w.origResult.width)))
      ws (finaliseWires ctx ws).1 := by
  induction ws generalizing ctx with
  | nil => exact ⟨rfl, fun h => h, .nil⟩
  | cons w ws ih =>
    obtain ⟨hregs, hout, hdrv⟩ := ih (finaliseWire ctx w).2
    obtain ⟨hsome, hnone⟩ := finaliseWire_driver ctx w
    refine ⟨hregs.trans (finaliseWire_regs ctx w).1,
      fun h => hout (finaliseWire_output hR ctx w h), .cons ?_ hdrv⟩
    intro d width h
    refine h.getD hsome fun hn => ?_
    obtain ⟨i, hi⟩ := hnone hn
    exact hi ▸ hR.zero i _

theorem outputOperands_spec (hR : RespectsOps A R G C) (ps : List (String × ℕ)) (ctx : Ctx) :
    (outputOperands ctx ps).2.regs = ctx.regs ∧
    List.Forall₂ (fun p q => q.1 = p.1 ∧ ∀ {d : Option D} {width},
        DriverRel R width (ctx.outputAssignment? p.1) d → R q.2 (d.getD (A.zero p.2)))
      ps (outputOperands ctx ps).1 := by
  induction ps generalizing ctx with
  | nil => exact ⟨rfl, .nil⟩
  | cons p ps ih =>
    obtain ⟨hregs, hout⟩ := ih (outputOperand ctx p).2
    have hsame : (outputOperand ctx p).2.regs = ctx.regs ∧
        (outputOperand ctx p).2.outputAssignments = ctx.outputAssignments := by
      unfold outputOperand
      split <;> exact ⟨rfl, rfl⟩
    refine ⟨hregs.trans hsame.1, .cons ⟨rfl, ?_⟩ ?_⟩
    · intro d width h
      refine h.getD ?_ ?_
      · intro y hy
        simp [hy]
      · intro hn
        simp only [hn]
        exact hR.zero _ _
    · refine hout.imp ?_
      intro p' q hq
      simpa only [Ctx.outputAssignment?, hsame.2] using hq

theorem find?_of_nodup {α β : Type} [DecidableEq β] (f : α → β) {xs : List α} {a : α}
    (hn : (xs.map f).Nodup) (ha : a ∈ xs) : (xs.find? fun x => f x = f a) = some a := by
  induction xs with
  | nil => exact absurd ha (by simp)
  | cons x xs ih =>
    obtain ⟨hx, hn⟩ := List.nodup_cons.1 hn
    rcases List.mem_cons.1 ha with rfl | ha
    · simp
    · have hne : f x ≠ f a := fun he => hx (he ▸ List.mem_map_of_mem ha)
      rw [List.find?_cons_of_neg (by simpa using hne)]
      exact ih hn ha

theorem outputWidth_eq (hm : GuardedModule m) {p : String × ℕ} (hp : p ∈ m.outputPorts) :
    m.outputWidth p.1 = p.2 := by
  unfold NslModule.outputWidth
  rw [find?_of_nodup Prod.fst hm.outputs_nodup hp]
  rfl

/-- What `finishModule` puts together before the `nsl` ops are erased. -/
def assemble (m : NslModule) (ctx : Ctx) : HWModule :=
  let wires := finaliseWires ctx ctx.wires
  let outputs := outputOperands wires.2 m.outputPorts
  { outputs := outputs.1
    wires := wires.1
    regs := outputs.2.regs.map fun r => (r.name, r.init, r.pendingNext)
    body := outputs.2.body }

/-- The same with the uses dropped. -/
def HWModule.dropUses (hw : HWModule) : HWModule where
  outputs := hw.outputs.map fun p => (p.1, p.2.dropUses)
  wires := hw.wires.map fun p => (p.1, p.2.dropUses)
  regs := hw.regs.map fun r => (r.1, r.2.1, r.2.2.dropUses)
  body := Value.dropAllUses hw.body

theorem finishModule_ok {hw : HWModule} (h : finishModule m ctx = .ok hw) :
    hw = (assemble m ctx).dropUses := by
  unfold finishModule eraseOps at h
  simp only at h
  split at h
  · exact absurd h (by simp)
  · exact (Except.ok.inj h).symm

/-- **The drivers of the module are related to the reference.** -/
theorem drives_assemble (hR : Respects A R G C) (hm : GuardedModule m)
    (hok : walkModule m = .ok ctx) : Drives A R m (assemble m ctx) := by
  have h := sim_walkModule hR hm hok
  obtain ⟨hstreg, hstwire⟩ := execModule_storage A m
  obtain ⟨hregs, hassign, hwires⟩ := finaliseWires_spec hR.toRespectsOps ctx.wires ctx
  obtain ⟨hregs', houts⟩ := outputOperands_spec hR.toRespectsOps m.outputPorts (finaliseWires ctx ctx.wires).2
  refine ⟨?_, ?_, ?_⟩
  · refine ((List.forall₂_and_left _ _).2 ⟨fun p hp => hp, houts⟩).imp ?_
    rintro p q ⟨hp, hname, hq⟩
    have hdrv := hassign (h.output p.1)
    rw [outputWidth_eq hm hp] at hdrv
    exact ⟨hname, hq hdrv⟩
  · have hlist : m.wireResults = ctx.wires.map WireInfo.origResult := by rw [h.wireList, hstwire]
    rw [hlist, List.forall₂_map_left_iff]
    refine ((List.forall₂_and_left _ _).2 ⟨fun w hw => hw, hwires⟩).imp ?_
    rintro w q ⟨hw, hq⟩
    have hfind : ctx.wireInfo? w.origResult = some w :=
      find?_of_nodup WireInfo.origResult (hlist ▸ hm.wires_nodup) hw
    have hdrv := h.wire w.origResult
    rw [hfind] at hdrv
    exact hq hdrv
  · have hlen : ctx.regs.length = m.regResults.length := by rw [h.regList, hstreg]
    have hregs'' : (assemble m ctx).regs = ctx.regs.map fun r => (r.name, r.init, r.pendingNext) := by
      simp only [assemble, hregs', hregs]
    rw [hregs'', List.forall₂_iff_get]
    refine ⟨by simp [hlen], fun i h₁ h₂ => ?_⟩
    have hi : i < m.regResults.length := by simpa using h₁
    have hget : (execModule A m).regs[i]? = some m.regResults[i] := by
      rw [hstreg, List.getElem?_eq_getElem hi]
    obtain ⟨-, -, r, hr, -, hdrv⟩ := h.reg i _ hget
    have hi' : i < ctx.regs.length := hlen ▸ hi
    have hr' : ctx.regs[i] = r := by
      rw [List.getElem?_eq_getElem hi'] at hr
      exact Option.some.inj hr
    simp only [List.get_eq_getElem, List.getElem_zipIdx, List.getElem_map, hr', Nat.zero_add]
    exact hdrv.getD (fun _ hy => Option.some.inj hy) (fun hn => absurd hn (by simp))

end Finish

end Lower

end Nslc
