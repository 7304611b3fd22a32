import Nslc.Lower.Lockstep
/-!
# A clean context

The invariant of the walk. The context of the lowering is clean for what
the flow of values has at that point: every emitted op is sound, every
result is mapped to what it has, and the drivers of outputs, wires and
registers agree. Each of the tables is written in one place here.
-/

namespace Nslc

namespace Lower

open Dialect Circt

variable {D : Type}

/-- The `hw.wire` of a call, driven by the guard of the call. -/
def CallWire (R : Value → D → Prop) (c : String × D) (y : Value) : Prop :=
  ∃ i g, y = .op i (.wire (c.1 ++ "_valid")) [g] ∧ Stands R 1 g c.2

/-- What stays the same within one op of a module. -/
structure Setting where
  outs : List (Val × String)
  outWidth : String → ℕ
  /-- The results of the `nsl.reg`s. -/
  regs : List Val
  clocked : Bool
  /-- The registers and wires the module has declared so far. -/
  madeRegs : List Val
  madeWires : List Val
  /-- The width of a port is that of its result. -/
  sized : ∀ v, portName outs v ≠ "" → outWidth (portName outs v) = v.width

structure Clean (R : Value → D → Prop) (S : Setting) (sc : Scope D) (ctx : Ctx) : Prop where
  clocked : ctx.clocked = S.clocked
  madeRegs : sc.regs = S.madeRegs
  madeWires : sc.wires = S.madeWires
  body : ∀ y ∈ ctx.body, sound y = true
  ports : ctx.outputPortValues = S.outs
  vals : ∀ v, Means R v.width (ctx.lookupValue v) (sc.vals v)
  outDriver : ∀ name, DriverMeans R (S.outWidth name) (ctx.outputAssignment? name) (sc.outDriver name)
  wireList : ctx.wires.map WireInfo.origResult = sc.wires
  wireDriver : ∀ v, DriverMeans R v.width ((ctx.wireInfo? v).bind WireInfo.pendingDriver)
    (sc.wireDriver v)
  wires_apart : ∀ v ∈ sc.wires, v ∉ S.regs
  regList : ctx.regs.length = sc.regs.length
  regs_nodup : sc.regs.Nodup
  reg : ∀ i v, sc.regs[i]? = some v → v ∈ S.regs ∧ ctx.valueMap v = some (.reg i v.width) ∧
    ∃ r, ctx.regs[i]? = some r ∧ r.defaultPrev = .reg i v.width ∧
      Means R v.width r.pendingNext (sc.regDriver v)
  /-- A register whose op is still to come is not mapped. -/
  pending : ∀ v ∈ S.regs, v ∉ sc.regs → ctx.valueMap v = none
  calls : List.Forall₂ (CallWire R) sc.calls (ctx.body.filter isWire)

section Tables

variable {R : Value → D → Prop} {S : Setting} {sc : Scope D} {ctx ctx' : Ctx} {x : Value} {d : Option D}

theorem sound_of_typed {y : Value} (ht : y.typed = true) (hw : isWire y = false) :
    sound y = true := by
  simp [sound, ht, hw]

/-- Sound ops may be added. -/
theorem Clean.adds (h : Clean R S sc ctx) (ha : Adds ctx ctx') :
    Clean R S sc ctx' := by
  obtain ⟨new, hbody, hnew⟩ := ha.body
  have hs := ha.tables
  have hwires : new.filter isWire = [] := by
    rw [List.filter_eq_nil_iff]
    intro y hy
    simp [(hnew y hy).2]
  refine
    { clocked := ha.clocked.trans h.clocked
      madeRegs := h.madeRegs
      madeWires := h.madeWires
      body := ?_
      ports := by rw [hs.outputPortValues, h.ports]
      vals := fun v => by rw [hs.lookupValue]; exact h.vals v
      outDriver := fun name => by
        simp only [Ctx.outputAssignment?, hs.outputAssignments]
        exact h.outDriver name
      wireList := by rw [hs.wires, h.wireList]
      wireDriver := fun v => by
        simp only [Ctx.wireInfo?, hs.wires]
        exact h.wireDriver v
      wires_apart := h.wires_apart
      regList := by rw [hs.regs, h.regList]
      regs_nodup := h.regs_nodup
      reg := fun i v hi => by
        rw [hs.valueMap, hs.regs]
        exact h.reg i v hi
      pending := fun v hv hn => by rw [hs.valueMap]; exact h.pending v hv hn
      calls := ?_ }
  · intro y hy
    rw [hbody] at hy
    rcases List.mem_append.1 hy with hy | hy
    · exact h.body y hy
    · exact sound_of_typed (hnew y hy).1 (hnew y hy).2
  · rw [hbody, List.filter_append, hwires, List.append_nil]
    exact h.calls

/-- A result gets what it has. -/
theorem Clean.define (h : Clean R S sc ctx) {v : Val} (hv : v ∉ S.regs)
    (hx : Means R v.width x d) :
    Clean R S (sc.define v d) (ctx.recordValueMapping v x) :=
  { h with
    vals := fun u => by
      by_cases hu : u = v
      · subst hu
        simpa [Ctx.lookupValue, Ctx.recordValueMapping, Scope.define] using hx
      · simpa [Ctx.lookupValue, Ctx.recordValueMapping, Scope.define, hu] using h.vals u
    reg := fun i u hi => by
      obtain ⟨hreg, hmap, hrest⟩ := h.reg i u hi
      have hne : u ≠ v := fun he => hv (he ▸ hreg)
      exact ⟨hreg, by simpa [Ctx.recordValueMapping, hne] using hmap, hrest⟩
    pending := fun u hu hn => by
      have hne : u ≠ v := fun he => hv (he ▸ hu)
      simpa [Ctx.recordValueMapping, hne] using h.pending u hu hn }

theorem Clean.assignOutput (h : Clean R S sc ctx) {name : String}
    (hx : Means R (S.outWidth name) x d) :
    Clean R S (sc.driveOut name d) (ctx.assignOutput name x) :=
  { h with
    outDriver := fun n => by
      rw [outputAssignment?_assignOutput]
      simp only [Scope.driveOut]
      by_cases hn : n = name
      · subst hn
        rw [if_pos rfl, if_pos rfl]
        exact hx
      · simpa only [if_neg hn] using h.outDriver n }

theorem Clean.mem_wires (h : Clean R S sc ctx) (v : Val) :
    (ctx.wireInfo? v).isSome ↔ v ∈ sc.wires := by
  rw [← h.wireList]
  simp [Ctx.wireInfo?, List.find?_isSome]

theorem Clean.driveWire (h : Clean R S sc ctx) {dst : Val}
    (hdst : dst ∈ sc.wires) (hx : Means R dst.width x d) :
    Clean R S (sc.driveWire dst d) (ctx.driveWire dst x) := by
  have hdef := h.define (h.wires_apart dst hdst) hx
  obtain ⟨w, hw⟩ := Option.isSome_iff_exists.1 ((h.mem_wires dst).2 hdst)
  exact
    { hdef with
      wireList := by
        refine Eq.trans ?_ h.wireList
        exact map_updateFirst (by simp) _
      wireDriver := fun v => by
        rw [wireInfo?_driveWire]
        simp only [Scope.driveWire, Scope.define]
        by_cases hv : v = dst
        · subst hv
          rw [if_pos rfl, if_pos rfl, hw]
          exact hx
        · simpa only [if_neg hv] using h.wireDriver v }

theorem Clean.same_defaultPrev (h : Clean R S sc ctx) {j : ℕ} {dst : Val}
    (hj : sc.regs[j]? = some dst) :
    ∀ i r, ctx.regs[i]? = some r → r.defaultPrev.same (.reg j dst.width) = decide (i = j) := by
  refine Lower.same_defaultPrev h.regList (fun i v hi => ?_) hj
  obtain ⟨-, -, r, hr, hprev, -⟩ := h.reg i v hi
  exact ⟨r, hr, hprev⟩

/-- The register behind a result. -/
theorem Clean.regInfo (h : Clean R S sc ctx) {dst : Val} (hdst : dst ∈ sc.regs) :
    ∃ j r, sc.regs[j]? = some dst ∧ ctx.lookupValue dst = .reg j dst.width ∧
      ctx.regInfo? (.reg j dst.width) = some r ∧
        Means R dst.width r.pendingNext (sc.regDriver dst) := by
  obtain ⟨j, hj⟩ := List.mem_iff_getElem?.1 hdst
  obtain ⟨-, hmap, r, hr, -, hnext⟩ := h.reg j dst hj
  refine ⟨j, r, hj, by simp [Ctx.lookupValue, hmap], ?_, hnext⟩
  rw [Ctx.regInfo?, find?_eq_getElem? (h.same_defaultPrev hj), hr]

/-- There is none before the op of the register. -/
theorem Clean.no_regInfo (h : Clean R S sc ctx) {dst : Val} (hr : dst ∈ S.regs)
    (hdst : dst ∉ sc.regs) : ctx.regInfo? (ctx.lookupValue dst) = none := by
  have hnsl : ctx.lookupValue dst = .nsl dst := by
    rw [Ctx.lookupValue, h.pending dst hr hdst]
    rfl
  rw [Ctx.regInfo?, List.find?_eq_none, hnsl]
  intro r hmem hsame
  obtain ⟨i, hi⟩ := List.mem_iff_getElem?.1 hmem
  have hlt : i < sc.regs.length := h.regList ▸ (List.getElem?_eq_some_iff.1 hi).1
  obtain ⟨-, -, r', hr', hprev, -⟩ := h.reg i sc.regs[i] (List.getElem?_eq_getElem hlt)
  obtain rfl : r' = r := Option.some.inj (hr'.symm.trans hi)
  have heq := Value.eq_of_same hsame
  rw [hprev] at heq
  cases heq

theorem Clean.driveReg (h : Clean R S sc ctx) {dst : Val} {j : ℕ}
    (hj : sc.regs[j]? = some dst) (hx : Means R dst.width x d) :
    Clean R S (sc.driveReg dst d) (ctx.driveReg (.reg j dst.width) x) :=
  { h with
    regList := (length_updateFirst _).trans h.regList
    reg := fun i v hi => by
      obtain ⟨hreg, hmap, r, hr, hprev, hnext⟩ := h.reg i v hi
      refine ⟨hreg, hmap, ?_⟩
      simp only [Ctx.driveReg, getElem?_updateFirst (h.same_defaultPrev hj), Scope.driveReg]
      by_cases hij : i = j
      · subst hij
        obtain rfl : v = dst := Option.some.inj (hi.symm.trans hj)
        rw [if_pos rfl, if_pos rfl, hr]
        exact ⟨{ r with pendingNext := x }, rfl, hprev, hx⟩
      · have hne : v ≠ dst := by
          rintro rfl
          exact hij ((List.getElem?_inj (List.getElem?_eq_some_iff.1 hi).1 h.regs_nodup).1
            (hi.trans hj.symm))
        rw [if_neg hij, if_neg hne]
        exact ⟨r, hr, hprev, hnext⟩ }

theorem Clean.portName (h : Clean R S sc ctx) (v : Val) :
    ctx.getOutputPortName v = Lower.portName S.outs v := by
  rw [Ctx.getOutputPortName, h.ports]
  rfl

end Tables

/-! ## Writes -/

section Writes

variable {A : Algebra D} {R : Value → D → Prop} {ctx : Ctx} {gate : Option (Cond D)}
  {gv : Option Value} {x y g : Value} {w : ℕ}

theorem stands_mux (hA : Interprets A R) {b d e : D} (hg : Stands R 1 g b) (hx : Stands R w x d)
    (hy : Stands R w y e) :
    Stands R w (ctx.emit .mux [g, x, y]).1 (A.select b d e) ∧
      Adds ctx (ctx.emit .mux [g, x, y]).2 := by
  have hverify : CombOp.verify .mux ([g, x, y].map Value.ty) = true := by
    simp [CombOp.verify, width_eq_ty, hg.width, hx.width, hy.width]
  have hr : TypedResult ctx w (ctx.emit .mux [g, x, y]) :=
    typedResult_emit (by simp) hverify (by simp [hg.typed, hx.typed, hy.typed]) hx.width
  refine ⟨⟨hr.typed, hr.width, ?_⟩, hr.adds⟩
  exact hA.select hg.typed hg.width hg.rel hx.rel hy.rel (hx.width.trans hy.width.symm)

/-- What a gated write falls back to. -/
def fallback (ctx : Ctx) (prev : Option Value) (w : ℕ) : Value × Ctx :=
  match prev with
  | some p => (p, ctx)
  | none => ctx.emit (.constant w 0) []

theorem gatedWrite_some (ctx : Ctx) (g x : Value) (prev : Option Value) (w : ℕ) :
    gatedWrite ctx (some g) x prev w =
      (fallback ctx prev w).2.emit .mux [g, x, (fallback ctx prev w).1] := by
  cases prev <;> rfl

theorem means_fallback (hA : Interprets A R) {pv : Option Value} {prev : Option (Option D)}
    (hp : DriverMeans R w pv prev) {w' : ℕ} (hw : pv = none → w' = w) :
    Means R w (fallback ctx pv w').1 (prev.getD (some (A.const w 0))) ∧
      Adds ctx (fallback ctx pv w').2 := by
  match pv, prev, hp with
  | none, none, _ =>
    obtain rfl := hw rfl
    exact ⟨⟨rfl, rfl, hA.const _ _ _⟩, adds_emit ctx (by simp) rfl⟩
  | some p, some pd, hp => exact ⟨hp, .refl ctx⟩

/-- What a step that makes a driver returns. -/
def MakesDriver (R : Value → D → Prop) (w : ℕ) (ctx : Ctx) (d : Option D) (r : Value × Ctx) : Prop :=
  Means R w r.1 d ∧ Adds ctx r.2

theorem agrees_gatedWrite (hA : Interprets A R) (hg : GateMeans R gv gate) {src : Option D}
    (hx : Means R w x src) {pv : Option Value} {prev : Option (Option D)}
    (hp : DriverMeans R w pv prev) {w' : ℕ} (hw : pv = none → src.isSome → w' = w) :
    Agrees Prod.snd (MakesDriver R w ctx) (flowWrite A gate src prev w)
      (.ok (gatedWrite ctx gv x pv w')) := by
  match gate, gv, hg with
  | none, none, _ => exact agrees_ok ⟨hx, .refl ctx⟩
  | some c, some g, hg =>
    rw [gatedWrite_some]
    simp only [flowWrite]
    rcases Means.bit_cases hg with ⟨b, hb, hgs⟩ | ⟨hnone, hbad⟩
    · rcases hx.cases with ⟨d, rfl, hxs⟩ | ⟨rfl, hu, -⟩
      · have hback : Means R w (fallback ctx pv w').1 _ ∧ Adds ctx _ :=
          means_fallback hA hp fun hpv => hw hpv rfl
        rcases hback.1.cases with ⟨e, he, hps⟩ | ⟨hnone, hu, -⟩
        · have hmux : Stands R w ((fallback ctx pv w').2.emit .mux _).1 _ ∧ Adds _ _ :=
            stands_mux hA hgs hxs hps
          simp only [hb, he]
          exact agrees_ok ⟨hmux.1, hback.2.trans hmux.2⟩
        · simp only [hb, hnone]
          exact agrees_spoiled (spoiled_of_operand _ _ (by simp) hu)
      · simp only [hb]
        exact agrees_spoiled (spoiled_of_operand _ _ (y := x) (by simp) hu)
    · simp only [hnone]
      exact agrees_spoiled (spoiled_emit _ (untyped_mux hbad))

/-- The fallback of an output takes its width from a value. -/
theorem flowWrite_of_cast (hg : GateMeans R gv gate) {src : Option D} (hx : Means R w x src)
    {prev : Option (Option D)} (h : gv.isSome = true ∧ x.ty.isInt = false) :
    flowWrite A gate src prev w = .error .spoiled := by
  rcases hx.cases with ⟨d, -, hs⟩ | ⟨rfl, -, -⟩
  · rw [isInt_of_typed hs.typed] at h
    exact absurd h.2 (by simp)
  · match gate, gv, hg with
    | none, none, _ => exact absurd h.1 (by simp)
    | some c, some g, _ =>
      simp only [flowWrite]
      cases c.bit? <;> rfl

end Writes

/-! ## Statements -/

section Statements

variable {A : Algebra D} {R : Value → D → Prop} {S : Setting} {sc : Scope D} {ctx : Ctx}
  {gate : Option (Cond D)} {gv : Option Value}

theorem mapM_vals (h : Clean R S sc ctx) (vs : List Val) :
    (∃ ds, vs.mapM sc.vals = some ds ∧ OperandsReady ctx vs ∧
      List.Forall₂ (fun v d => R (ctx.lookupValue v) d) vs ds) ∨
    vs.mapM sc.vals = none ∧ ∃ v ∈ vs, (ctx.lookupValue v).typed = false ∧
      (ctx.lookupValue v).ty.isInt = false := by
  induction vs with
  | nil => exact .inl ⟨[], rfl, by simp [OperandsReady], .nil⟩
  | cons v vs ih =>
    rcases (h.vals v).cases with ⟨d, hd, hs⟩ | ⟨hnone, hu, hint⟩
    · rcases ih with ⟨ds, hds, hready, hrel⟩ | ⟨hnone, u, hmem, hu⟩
      · refine .inl ⟨d :: ds, by simp [hd, hds], ?_, .cons hs.rel hrel⟩
        exact List.forall_mem_cons.2 ⟨⟨hs.typed, hs.width⟩, hready⟩
      · exact .inr ⟨by simp [hd, hnone], u, by simp [hmem], hu⟩
    · exact .inr ⟨by simp [hnone], v, by simp, hu, hint⟩

theorem agrees_expr (hA : Interprets A R) (h : Clean R S sc ctx) {res : Val}
    {e : Expr} (hv : e.verify res.width = true) (hres : res ∉ S.regs) :
    Agrees id (Clean R S) (flowExpr A sc res e) (lowerExprOp ctx res e) := by
  unfold flowExpr lowerExprOp
  rcases mapM_vals h e.operands with ⟨ds, hds, hready, hrel⟩ | ⟨hnone, v, hmem, hu, hint⟩
  · simp only [hds]
    by_cases hs : Expr.signed res.width e = true
    · obtain ⟨r, hr, htyped⟩ := lowerBitOp_typed hv hs hready
      rw [if_pos hs, hr]
      refine agrees_ok (Clean.adds (Clean.define (h.adds htyped.adds) hres ?_) (adds_queue _ _))
      exact ⟨htyped.typed, htyped.width, hA.expr hv hr hready.typed hrel⟩
    · rw [if_neg hs]
      intro ctx' hok
      obtain ⟨r, hr, hout⟩ := bind_eq_ok hok
      obtain rfl := Except.ok.inj hout
      exact lowerBitOp_unsigned (by simpa using hs) hready hr
  · simp only [hnone]
    intro ctx' hok
    obtain ⟨r, hr, hout⟩ := bind_eq_ok hok
    obtain rfl := Except.ok.inj hout
    exact lowerBitOp_spoils hmem hu hint hr

theorem agrees_transfer (hA : Interprets A R) (h : Clean R S sc ctx)
    (hg : GateMeans R gv gate) {dst src : Val} (hw : dst.width = src.width) :
    Agrees id (Clean R S) (flowTransfer A S.outs sc gate dst src)
      (lowerTransferOp ctx dst src gv) := by
  have hx : Means R dst.width (ctx.lookupValue src) (sc.vals src) := by
    rw [hw]
    exact h.vals src
  unfold flowTransfer lowerTransferOp
  simp only [h.portName]
  by_cases hout : portName S.outs dst ≠ ""
  · rw [if_pos hout, if_pos hout]
    have hp := h.outDriver (portName S.outs dst)
    rw [S.sized dst hout] at hp
    split
    · rename_i hcast
      simp only [Bool.and_eq_true, Bool.not_eq_true'] at hcast
      rw [flowWrite_of_cast hg hx ⟨hcast.1.1, hcast.2⟩]
      exact agrees_failed
    · refine Agrees.map (agrees_gatedWrite hA hg hx hp fun _ hsome => ?_) (fun d hd => ?_) (.refl _)
      · rcases hx.cases with ⟨d, -, hs⟩ | ⟨hnone, -⟩
        · exact hs.width
        · rw [hnone] at hsome
          cases hsome
      · refine (h.adds hd.2).assignOutput ?_
        rw [S.sized dst hout]
        exact hd.1
  · rw [if_neg hout, if_neg hout]
    by_cases hmem : dst ∈ sc.wires
    · rw [if_pos hmem]
      obtain ⟨wi, hwi⟩ := Option.isSome_iff_exists.1 ((h.mem_wires dst).2 hmem)
      have hp := h.wireDriver dst
      simp only [hwi, Option.bind_some] at hp ⊢
      exact Agrees.map (agrees_gatedWrite hA hg hx hp fun _ _ => rfl)
        (fun d hd => (h.adds hd.2).driveWire hmem hd.1) (.refl _)
    · have hnone : ctx.wireInfo? dst = none := by
        rw [← Option.not_isSome_iff_eq_none, h.mem_wires]
        exact hmem
      rw [if_neg hmem, hnone]
      exact ⟨_, rfl⟩

theorem agrees_clocked (hA : Interprets A R) (h : Clean R S sc ctx)
    (hg : GateMeans R gv gate) {dst src : Val} (hw : dst.width = src.width) (hdst : dst ∈ S.regs) :
    Agrees id (Clean R S) (flowClocked A sc gate dst src)
      (lowerClockedTransferOp ctx dst src gv) := by
  have hx : Means R dst.width (ctx.lookupValue src) (sc.vals src) := by
    rw [hw]
    exact h.vals src
  unfold flowClocked lowerClockedTransferOp
  by_cases hmem : dst ∈ sc.regs
  · obtain ⟨j, r, hj, hlook, hinfo, hnext⟩ := h.regInfo hmem
    simp only [hlook, hinfo, if_pos hmem]
    have hp : DriverMeans R dst.width (some r.pendingNext) (some (sc.regDriver dst)) := hnext
    exact Agrees.map (agrees_gatedWrite hA hg hx hp fun hnone => (nomatch hnone))
      (fun d hd => (h.adds hd.2).driveReg hj hd.1) (.refl _)
  · simp only [if_neg hmem, h.no_regInfo hdst hmem]
    exact ⟨_, rfl⟩

theorem agrees_call (hA : Interprets A R) (h : Clean R S sc ctx)
    (hg : GateMeans R gv gate) (callee : String) :
    Agrees id (Clean R S) (flowCall A sc gate callee)
      (.ok (lowerCallOp ctx callee gv)) := by
  -- the wire itself, once its guard is there
  have hwire : ∀ {ctx g d}, Clean R S sc ctx → Stands R 1 g d →
      Clean R S (sc.addCall callee d)
        (ctx.emit (.wire (callee ++ "_valid")) [g]).2 := by
    intro ctx g d h hs
    have hverify : CombOp.verify (.wire (callee ++ "_valid")) ([g].map Value.ty) = true := rfl
    refine { h with body := ?_, calls := ?_ }
    · intro y hy
      rcases List.mem_append.1 hy with hy | hy
      · exact h.body y hy
      · rw [List.mem_singleton.1 hy, sound, Value.typed_op.2 ⟨hverify, by simp [hs.typed]⟩]
        simpa [Value.width, Value.ty, CombOp.ty, Value.tys] using .inr hs.width
    · simp only [Ctx.emit, List.filter_append]
      refine List.rel_append h.calls ?_
      exact .cons ⟨ctx.body.length, g, rfl, hs⟩ .nil
  cases gate with
  | none =>
    cases gv with
    | none =>
      have hone : MakesGate R ctx (.bit (A.const 1 1)) (ctx.emit (.constant 1 1) []) :=
        makesGate_const hA
      exact agrees_ok (hwire (h.adds hone.2) hone.1)
    | some g => exact hg.elim
  | some c =>
    cases gv with
    | none => exact hg.elim
    | some g =>
      simp only [flowCall]
      rcases Means.bit_cases hg with ⟨d, hd, hs⟩ | ⟨hnone, hbad⟩
      · simp only [hd]
        exact agrees_ok (hwire h hs)
      · simp only [hnone]
        refine agrees_spoiled ⟨_, List.mem_append_right _ (List.mem_singleton_self _), ?_⟩
        rcases hbad with hbad | hbad
        · rw [sound, untyped_of_mem (List.mem_singleton_self g) hbad]
          rfl
        · simpa [sound, isWire, Value.width, Value.ty, CombOp.ty, Value.tys] using fun _ => hbad

end Statements

/-! ## `nsl.any` -/

section Pairs

variable {α β : Type} {S : α → β → Prop} {p : α → Bool} {q : β → Bool} {as : List α} {bs : List β}

theorem find?_rel (h : List.Forall₂ S as bs) (hpq : ∀ a b, S a b → p a = q b) :
    Option.Rel S (as.find? p) (bs.find? q) := by
  induction h with
  | nil => exact .none
  | @cons a b as bs hab _ ih =>
    rw [List.find?_cons, List.find?_cons, hpq a b hab]
    cases q b with
    | true => exact .some hab
    | false => exact ih

theorem updateFirst_rel (h : List.Forall₂ S as bs) (hpq : ∀ a b, S a b → p a = q b) {f : α → α}
    {g : β → β} (hfg : ∀ a b, as.find? p = some a → S a b → S (f a) (g b)) :
    List.Forall₂ S (updateFirst p f as) (updateFirst q g bs) := by
  induction h with
  | nil => exact .nil
  | @cons a b as bs hab hrest ih =>
    rw [updateFirst, updateFirst, hpq a b hab]
    by_cases hq : q b = true
    · rw [if_pos hq, if_pos hq]
      refine .cons (hfg a b ?_ hab) hrest
      rw [List.find?_cons, hpq a b hab, hq]
    · rw [if_neg hq, if_neg hq]
      refine .cons hab (ih fun a' b' hfind => hfg a' b' ?_)
      rw [List.find?_cons, hpq a b hab, Bool.eq_false_of_not_eq_true hq]
      exact hfind

end Pairs

/-- What is gathered for one target, in the lowering and in the flow. -/
structure GatherMeans (R : Value → D → Prop) (regs : List Val) (a : AnyTargetAccum)
    (b : Gathered D) : Prop where
  target : a.target = b.target
  isClocked : a.isClocked = b.isClocked
  reg : b.isClocked = true → b.target ∈ regs
  value : Stands R b.target.width a.orAccum b.value

section Any

variable {A : Algebra D} {R : Value → D → Prop} {S : Setting} {sc : Scope D} {ctx : Ctx} {c : Cond D}
  {g : Value}

theorem stands_or (hA : Interprets A R) {w : ℕ} {x y : Value} {d e : D} (hx : Stands R w x d)
    (hy : Stands R w y e) :
    Stands R w (ctx.emit .or [x, y]).1 (A.join d e) ∧ Adds ctx (ctx.emit .or [x, y]).2 := by
  have hverify : CombOp.verify .or ([x, y].map Value.ty) = true := by
    simp [CombOp.verify, width_eq_ty, hx.width, hy.width]
  have hr : TypedResult ctx w (ctx.emit .or [x, y]) :=
    typedResult_emit (by simp) hverify (by simp [hx.typed, hy.typed]) hx.width
  exact ⟨⟨hr.typed, hr.width, hA.join hx.rel hy.rel⟩, hr.adds⟩

/-- The value of a write, or zero. -/
def envelopeOp (ctx : Ctx) (g x : Value) : Value × Ctx :=
  (ctx.emit (.constant x.width 0) []).2.emit .mux [g, x, (ctx.emit (.constant x.width 0) []).1]

theorem stands_envelopeOp (hA : Interprets A R) {w : ℕ} {x : Value} {b d : D}
    (hg : Stands R 1 g b) (hx : Stands R w x d) :
    Stands R w (envelopeOp ctx g x).1 (A.select b d (A.const w 0)) ∧
      Adds ctx (envelopeOp ctx g x).2 := by
  have hzero : Stands R w (ctx.emit (.constant x.width 0) []).1 (A.const w 0) := by
    rw [← hx.width]
    exact ⟨rfl, rfl, hA.const _ _ _⟩
  have hmux : Stands R w ((ctx.emit (.constant x.width 0) []).2.emit .mux _).1 _ ∧ Adds _ _ :=
    stands_mux hA hg hx hzero
  exact ⟨hmux.1, (adds_emit ctx (by simp) rfl).trans hmux.2⟩

theorem accumulateAny_eq {target src : Val} {b : Bool} {accums : List AnyTargetAccum}
    (h : (ctx.lookupValue src).ty.isInt = true) :
    accumulateAny ctx target src b g accums =
      match accums.find? fun a => a.target = target && a.isClocked == b with
      | none => .ok ((envelopeOp ctx g (ctx.lookupValue src)).2,
          accums ++ [⟨target, b, (envelopeOp ctx g (ctx.lookupValue src)).1⟩])
      | some a =>
        let e := envelopeOp ctx g (ctx.lookupValue src)
        .ok ((e.2.emit .or [a.orAccum, e.1]).2,
          updateFirst (fun a => a.target = target && a.isClocked == b)
            (fun a' => { a' with orAccum := (e.2.emit .or [a.orAccum, e.1]).1 }) accums) := by
  simp only [accumulateAny, h, if_true]
  rfl

theorem agrees_gather (hA : Interprets A R) (h : Clean R S sc ctx)
    (hg : Means R c.width g c.value) {target src : Val} {b : Bool} (hw : target.width = src.width)
    (hreg : b = true → target ∈ S.regs) {accums : List AnyTargetAccum} {accs : List (Gathered D)}
    (ha : List.Forall₂ (GatherMeans R S.regs) accums accs) :
    Agrees Prod.fst (fun accs r => Adds ctx r.1 ∧ List.Forall₂ (GatherMeans R S.regs) r.2 accs)
      (gather A sc c target src b accs) (accumulateAny ctx target src b g accums) := by
  have hx : Means R target.width (ctx.lookupValue src) (sc.vals src) := by
    rw [hw]
    exact h.vals src
  unfold gather
  rcases hx.cases with ⟨d, hd, hs⟩ | ⟨hnone, -, hint⟩
  · rw [accumulateAny_eq (isInt_of_typed hs.typed)]
    rcases Means.bit_cases hg with ⟨bit, hb, hgs⟩ | ⟨hnone, hbad⟩
    · have henv : Stands R target.width (envelopeOp ctx g _).1 _ ∧ Adds ctx _ :=
        stands_envelopeOp hA hgs hs
      rw [hw] at henv
      simp only [hb, hd]
      have hpq : ∀ (a : AnyTargetAccum) (a' : Gathered D), GatherMeans R S.regs a a' →
          (decide (a.target = target) && a.isClocked == b) =
            (decide (a'.target = target) && a'.isClocked == b) := by
        intro a a' haa
        rw [haa.target, haa.isClocked]
      have hfind := find?_rel ha hpq
      generalize hfa : accums.find? _ = fa at hfind ⊢
      generalize hfb : accs.find? _ = fb at hfind ⊢
      cases hfind with
      | none =>
        refine agrees_ok ⟨henv.2, List.rel_append ha (.cons ⟨rfl, rfl, hreg, ?_⟩ .nil)⟩
        exact hw ▸ henv.1
      | @some a a' haa =>
        set e := envelopeOp ctx g (ctx.lookupValue src) with he
        have hjoin : ∀ b₁ : Gathered D, decide (b₁.target = target) = true →
            GatherMeans R S.regs a b₁ →
            Stands R b₁.target.width (e.2.emit .or [a.orAccum, e.1]).1
                (A.join b₁.value (A.select bit d (A.const src.width 0))) ∧
              Adds e.2 (e.2.emit .or [a.orAccum, e.1]).2 := by
          intro b₁ ht hab
          have hwidth : b₁.target.width = src.width := by rw [of_decide_eq_true ht, hw]
          have hval := hab.value
          rw [hwidth] at hval ⊢
          exact stands_or hA hval henv.1
        have hfound := List.find?_some hfa
        have htarget : decide (a.target = target) = true := (Bool.and_eq_true_iff.1 hfound).1
        refine agrees_ok ⟨henv.2.trans (hjoin a' (haa.target ▸ htarget) haa).2,
          updateFirst_rel ha hpq fun a₁ b₁ hf₁ hab => ?_⟩
        obtain rfl : a = a₁ := Option.some.inj (hfa.symm.trans hf₁)
        have hb₁ : decide (b₁.target = target) = true := hab.target ▸ htarget
        exact ⟨hab.target, hab.isClocked, hab.reg, (hjoin b₁ hb₁ hab).1⟩
    · simp only [hnone]
      have hbad : Spoiled (envelopeOp ctx g (ctx.lookupValue src)).2 :=
        spoiled_emit _ (untyped_mux hbad)
      intro r hr
      split at hr
      · obtain rfl := Except.ok.inj hr
        exact hbad
      · obtain rfl := Except.ok.inj hr
        exact hbad.mono (grows_emit _ _ _)
  · simp only [hnone, accumulateAny, hint]
    cases c.bit? <;> exact agrees_failed

theorem agrees_joinPrior (hA : Interprets A R) {w : ℕ} {x : Value} {d : D} (hx : Stands R w x d)
    {pv : Option Value} {prev : Option (Option D)} (hp : DriverMeans R w pv prev) :
    Agrees Prod.snd (MakesDriver R w ctx) (flowJoin A prev d) (.ok (joinPrior ctx pv x)) := by
  match pv, prev, hp with
  | none, none, _ => exact agrees_ok ⟨hx, .refl ctx⟩
  | some p, some (some e), hp => exact agrees_ok (stands_or hA hp hx)
  | some p, some none, hp =>
    have hnone : Means R w p none := hp
    exact agrees_spoiled (spoiled_of_operand ctx .or (y := p) (by simp) hnone.untyped)

theorem agrees_applyAccum (hA : Interprets A R)
    (h : Clean R S sc ctx) {a : AnyTargetAccum} {b : Gathered D}
    (hab : GatherMeans R S.regs a b) :
    Agrees id (Clean R S) (applyGathered A S.outs sc b) (applyAccum ctx a) := by
  unfold applyGathered applyAccum
  simp only [hab.target, hab.isClocked, h.portName]
  by_cases hclk : b.isClocked = true
  · rw [if_pos hclk, if_pos hclk]
    by_cases hmem : b.target ∈ sc.regs
    · obtain ⟨j, r, hj, hlook, hinfo, hnext⟩ := h.regInfo hmem
      have hp : DriverMeans R b.target.width (some r.pendingNext) (some (sc.regDriver b.target)) :=
        hnext
      simp only [hlook, hinfo, if_pos hmem]
      exact Agrees.map (agrees_joinPrior hA hab.value hp)
        (fun d hd => (h.adds hd.2).driveReg hj hd.1) (.refl _)
    · simp only [if_neg hmem, h.no_regInfo (hab.reg hclk) hmem]
      exact ⟨_, rfl⟩
  · rw [if_neg hclk, if_neg hclk]
    by_cases hport : portName S.outs b.target ≠ ""
    · have hp := h.outDriver (portName S.outs b.target)
      rw [S.sized b.target hport] at hp
      rw [if_pos hport, if_pos hport]
      refine Agrees.map (agrees_joinPrior hA hab.value hp) (fun d hd => ?_) (.refl _)
      refine (h.adds hd.2).assignOutput ?_
      rw [S.sized b.target hport]
      exact hd.1
    · rw [if_neg hport, if_neg hport]
      by_cases hmem : b.target ∈ sc.wires
      · obtain ⟨wi, hwi⟩ := Option.isSome_iff_exists.1 ((h.mem_wires b.target).2 hmem)
        have hp := h.wireDriver b.target
        simp only [hwi, Option.bind_some, if_pos hmem] at hp ⊢
        exact Agrees.map (agrees_joinPrior hA hab.value hp)
          (fun d hd => (h.adds hd.2).driveWire hmem hd.1) (.refl _)
      · have hnone : ctx.wireInfo? b.target = none := by
          rw [← Option.not_isSome_iff_eq_none, h.mem_wires]
          exact hmem
        simp only [if_neg hmem, hnone]
        exact ⟨_, rfl⟩

theorem agrees_applyAccums (hA : Interprets A R)
    {accums : List AnyTargetAccum} {accs : List (Gathered D)}
    (hacc : List.Forall₂ (GatherMeans R S.regs) accums accs) {sc : Scope D} {ctx : Ctx}
    (h : Clean R S sc ctx) :
    Agrees id (Clean R S) (accs.foldlM (applyGathered A S.outs) sc)
      (accums.foldlM applyAccum ctx) := by
  induction hacc generalizing sc ctx with
  | nil => exact agrees_ok h
  | @cons a b as bs hab _ ih =>
    rw [List.foldlM_cons, List.foldlM_cons]
    refine Agrees.bind (agrees_applyAccum hA h hab) (fun sc ctx h => ih h) fun ctx ctx' hok => ?_
    exact grows_foldlM (fun _ _ _ => grows_applyAccum) as hok

end Any

end Lower

end Nslc
