import Mathlib
import Nslc.Lower.ExprOps
import Nslc.Lower.Reference
/-!
# Guarded writes — the lowering follows the reference

A relation between CIRCT values and the values of a domain that the
emitted ops respect (`Respects`) is kept by the walk: after any prefix of
a body, every mapped result, every pending driver of an output, a wire
or a register is related to what the reference has for it (`Sim`). The
step lemma is by the op, the run lemma by recursion on the body.
-/

namespace Nslc

namespace Lower

open Dialect Circt

variable {D : Type}

/-! ## Bodies of guarded writes -/

mutual

/-- Verified ops of the fragment: expression ops, transfers to wires and
outputs, clocked transfers to the registers `regs`, and the blocks
`nsl.parallel`, `nsl.if`, `nsl.alt` and combinational `nsl.func`, with
one-bit conditions. Registers are results of their own op only. -/
def guardedOp (regs : List Val) : Op → Bool
  | .expr res e => e.verify res.width && decide (res ∉ regs)
  | .transfer dst src => dst.width == src.width && decide (dst ∉ regs)
  | .clockedTransfer dst src => dst.width == src.width && decide (dst ∈ regs)
  | .ifOp cond thenRegion elseRegion =>
    cond.width == 1 && guardedOps regs thenRegion && guardedOps regs elseRegion
  | .alt body => guardedAlt regs body
  | .parallel body | .func _ body => guardedOps regs body
  | .inputPort _ _ | .outputPort _ _ | .inoutPort _ _ | .reg _ _ _ | .wire _ _ | .inert _
  | .call _ => true
  | _ => false

def guardedOps (regs : List Val) : List Op → Bool
  | [] => true
  | op :: ops => guardedOp regs op && guardedOps regs ops

/-- Cases, defaults, and the expression ops of their conditions. -/
def guardedAlt (regs : List Val) : List Op → Bool
  | [] => true
  | .case cond body :: children =>
    cond.width == 1 && guardedOps regs body && guardedAlt regs children
  | .default body :: children => guardedOps regs body && guardedAlt regs children
  | .expr res e :: children => e.verify res.width && guardedAlt regs children
  | _ :: _ => false

end

/-! ## Relations the emitted ops respect -/

/-- `R` relates values, `G` gates to the guards they stand for, `C` what
`coveredSoFar` is to the conditions covered; the emitted ops respect it. -/
structure RespectsOps (A : Domain D) (R : Value → D → Prop) (G : Value → Guards D → Prop)
    (C : Value → List D → Prop) : Prop where
  arg : ∀ name w, R (.arg name w) (A.input name w)
  reg : ∀ i w, R (.reg i w) (A.reg i w)
  zero : ∀ i w, R (.op i (.constant w 0) []) (A.zero w)
  wire : ∀ i name x d, R x d → R (.op i (.wire name) [x]) d
  expr : ∀ ctx w e x ctx' ds, Lowered ctx w e x ctx' → e.verify w = true →
    OperandsTyped ctx e.operands →
    List.Forall₂ (fun v d => R (ctx.lookupValue v) d) e.operands ds → R x (A.expr w e ds)
  holds : ∀ c d, R c d → c.width = 1 → G c [(d, true)]
  fails : ∀ i j c d, R c d → c.width = 1 →
    G (.op i (.icmp .eq) [c, .op j (.constant c.width 0) []]) [(d, false)]
  and : ∀ i g gs h hs, G g gs → G h hs → G (.op i .and [g, h]) (hs ++ gs)
  one : ∀ i, G (.op i (.constant 1 1) []) []
  cover : ∀ c d, R c d → c.width = 1 → C c [d]
  or : ∀ i c ds x d, C c ds → R x d → x.width = 1 → C (.op i .or [c, x]) (ds ++ [d])
  uncovered : ∀ i j c ds, C c ds →
    G (.op i (.icmp .eq) [c, .op j (.constant 1 0) []]) (ds.map (·, false))
  guarded : ∀ i g gs x d p e, G g gs → R x d → R p e → p.width = x.width →
    R (.op i .mux [g, x, p]) (A.guarded gs d e)

/-- The same where values may be left unresolved. -/
structure Respects (A : Domain D) (R : Value → D → Prop) (G : Value → Guards D → Prop)
    (C : Value → List D → Prop) : Prop extends RespectsOps A R G C where
  unresolved : ∀ v, R (.nsl v) (A.unresolved v)
  direct : ∀ v d, R (.nsl v) (A.direct d)

/-- A gate stands for guards, no gate for none. -/
def GateFor (G : Value → Guards D → Prop) (gate : Option Value) (gs : Guards D) : Prop :=
  match gate with
  | none => gs = []
  | some g => G g gs

/-- Where a gate stands for at least one guard. -/
def GateRel (G : Value → Guards D → Prop) (gate : Option Value) (gs : Guards D) : Prop :=
  (gate.isSome → gs ≠ []) ∧ GateFor G gate gs

def CoverRel (C : Value → List D → Prop) (covered : Option Value) (ds : List D) : Prop :=
  match covered with
  | none => ds = []
  | some c => C c ds

/-- A pending driver of width `w`. -/
def DriverRel (R : Value → D → Prop) (w : ℕ) : Option Value → Option D → Prop :=
  Option.Rel fun x d => R x d ∧ x.width = w

/-! ## The invariant -/

structure Sim (A : Domain D) (R : Value → D → Prop) (outWidth : String → ℕ) (regs : List Val)
    (ctx : Ctx) (st : RefState D) : Prop where
  lookup : ∀ v, R (ctx.lookupValue v) (st.read A v)
  typed : ∀ v, (ctx.lookupValue v).width = v.width
  mapped : ∀ v, (ctx.valueMap v).isSome → (st.vals v).isSome
  outs : ctx.outputPortValues = st.outs
  outs_width : ∀ v, st.outName v ≠ "" → v.width = outWidth (st.outName v)
  output : ∀ name, DriverRel R (outWidth name) (ctx.outputAssignment? name)
    (drive A (A.zero (outWidth name)) none (st.writesTo (.output name)))
  wireList : ctx.wires.map WireInfo.origResult = st.wires
  wire : ∀ v, DriverRel R v.width ((ctx.wireInfo? v).bind WireInfo.pendingDriver)
    (drive A (A.zero v.width) none (st.writesTo (.wire v)))
  regList : ctx.regs.length = st.regs.length
  reg : ∀ i v, st.regs[i]? = some v → v ∈ regs ∧ ctx.valueMap v = some (.reg i v.width) ∧
    ∃ r, ctx.regs[i]? = some r ∧ r.defaultPrev = .reg i v.width ∧
      DriverRel R v.width (some r.pendingNext)
        (drive A (A.reg i v.width) (some (A.reg i v.width)) (st.writesTo (.reg v)))
  /-- A register whose op is still to come is not mapped to one. -/
  pending : ∀ v ∈ regs, v ∉ st.regs → ∀ i w, ctx.lookupValue v ≠ .reg i w
  regs_nodup : st.regs.Nodup
  regWrites : ∀ w ∈ st.writes, ∀ v, w.target = .reg v → v ∈ st.regs

variable {A : Domain D} {R : Value → D → Prop} {G : Value → Guards D → Prop}
  {C : Value → List D → Prop} {outWidth : String → ℕ} {regs : List Val} {ctx ctx' : Ctx}
  {st : RefState D} {gate covered : Option Value} {gs : Guards D}

/-- Emitting ops changes nothing. -/
theorem Sim.sameTables (h : Sim A R outWidth regs ctx st) (hs : SameTables ctx ctx') :
    Sim A R outWidth regs ctx' st where
  lookup := fun v => by rw [hs.lookupValue]; exact h.lookup v
  typed := fun v => by rw [hs.lookupValue]; exact h.typed v
  mapped := fun v => by rw [hs.valueMap]; exact h.mapped v
  outs := by rw [hs.outputPortValues, h.outs]
  outs_width := h.outs_width
  output := fun name => by
    simp only [Ctx.outputAssignment?, hs.outputAssignments]
    exact h.output name
  wireList := by rw [hs.wires, h.wireList]
  wire := fun v => by
    simp only [Ctx.wireInfo?, hs.wires]
    exact h.wire v
  regList := by rw [hs.regs, h.regList]
  reg := fun i v hi => by
    rw [hs.valueMap, hs.regs]
    exact h.reg i v hi
  pending := fun v hv hn => by rw [hs.lookupValue]; exact h.pending v hv hn
  regs_nodup := h.regs_nodup
  regWrites := h.regWrites

theorem drive_append (idle : D) (prev : Option D) (ws : List (Write D)) (w : Write D) :
    drive A idle prev (ws ++ [w]) = some (if w.guards.isEmpty then w.value
      else A.guarded w.guards w.value ((drive A idle prev ws).getD idle)) := by
  simp [drive]

/-! ## The tables -/

section Tables

variable {α : Type} {p q : α → Bool} {f : α → α}

theorem find?_updateFirst_of_imp (hf : ∀ a, p a = true → q (f a) = true) (hpq : ∀ a, q a = p a)
    (xs : List α) : (updateFirst p f xs).find? q = (xs.find? p).map f := by
  induction xs with
  | nil => rfl
  | cons a as ih =>
    by_cases ha : p a = true
    · simp [updateFirst, ha, hf a ha]
    · have hq : q a = false := by simpa [hpq] using ha
      simp [updateFirst, ha, hq, ih]

theorem find?_updateFirst_of_disjoint (hpq : ∀ a, p a = true → q a = false ∧ q (f a) = false)
    (xs : List α) : (updateFirst p f xs).find? q = xs.find? q := by
  induction xs with
  | nil => rfl
  | cons a as ih =>
    by_cases ha : p a = true
    · simp [updateFirst, ha, hpq a ha]
    · simp [updateFirst, ha, List.find?_cons, ih]

theorem map_updateFirst {β : Type} {g : α → β} (hg : ∀ a, g (f a) = g a) (xs : List α) :
    (updateFirst p f xs).map g = xs.map g := by
  induction xs with
  | nil => rfl
  | cons a as ih =>
    by_cases ha : p a = true
    · simp [updateFirst, ha, hg]
    · simp [updateFirst, ha, ih]

/-- Where `p` holds at index `j` only. -/
theorem find?_eq_getElem? {xs : List α} {j : ℕ}
    (h : ∀ i a, xs[i]? = some a → p a = decide (i = j)) : xs.find? p = xs[j]? := by
  induction xs generalizing j with
  | nil => simp
  | cons a as ih =>
    have ha := h 0 a rfl
    cases j with
    | zero => simp [ha]
    | succ j =>
      have hrest : ∀ i b, as[i]? = some b → p b = decide (i = j) := by
        intro i b hb
        simpa using h (i + 1) b (by simpa using hb)
      simp [ha, ih hrest]

theorem getElem?_updateFirst {xs : List α} {j : ℕ}
    (h : ∀ i a, xs[i]? = some a → p a = decide (i = j)) (i : ℕ) :
    (updateFirst p f xs)[i]? = if i = j then xs[j]?.map f else xs[i]? := by
  induction xs generalizing i j with
  | nil => simp [updateFirst]
  | cons a as ih =>
    have ha := h 0 a rfl
    cases j with
    | zero =>
      have ha' : p a = true := by simpa using ha
      cases i with
      | zero => simp [updateFirst, ha']
      | succ i => simp [updateFirst, ha']
    | succ j =>
      have ha' : p a = false := by simpa using ha
      have hrest : ∀ i b, as[i]? = some b → p b = decide (i = j) := by
        intro i b hb
        simpa using h (i + 1) b (by simpa using hb)
      cases i with
      | zero => simp [updateFirst, ha']
      | succ i => simp [updateFirst, ha', ih hrest]

theorem length_updateFirst (xs : List α) : (updateFirst p f xs).length = xs.length := by
  induction xs with
  | nil => rfl
  | cons a as ih => by_cases ha : p a = true <;> simp [updateFirst, ha, ih]

end Tables

@[simp] theorem outputAssignment?_assignOutput (ctx : Ctx) (name n : String) (x : Value) :
    (ctx.assignOutput name x).outputAssignment? n =
      if n = name then some x else ctx.outputAssignment? n := by
  unfold Ctx.assignOutput
  by_cases hn : n = name
  · subst hn
    rw [if_pos rfl]
    unfold Ctx.outputAssignment?
    by_cases hsome : ((ctx.outputAssignments.find? fun p => p.1 = n).map Prod.snd).isSome = true
    · simp only [if_pos hsome]
      rw [find?_updateFirst_of_imp (by simp) (fun _ => rfl)]
      cases hf : ctx.outputAssignments.find? fun p => p.1 = n with
      | none => simp [hf] at hsome
      | some p => simp
    · simp only [if_neg hsome]
      have hnone : (ctx.outputAssignments.find? fun p => p.1 = n) = none := by
        rw [Option.isSome_map, Bool.not_eq_true, Option.isSome_eq_false_iff,
          Option.isNone_iff_eq_none] at hsome
        exact hsome
      simp [List.find?_append, hnone]
  · have hn' : name ≠ n := fun h => hn h.symm
    rw [if_neg hn]
    unfold Ctx.outputAssignment?
    split
    · rw [find?_updateFirst_of_disjoint]
      intro a ha
      have : a.1 = name := by simpa using ha
      simp [this, hn']
    · simp [List.find?_append, hn']

@[simp] theorem wireInfo?_driveWire (ctx : Ctx) (v u : Val) (x : Value) :
    (ctx.driveWire v x).wireInfo? u =
      if u = v then (ctx.wireInfo? v).map fun w => { w with pendingDriver := some x }
      else ctx.wireInfo? u := by
  unfold Ctx.driveWire Ctx.wireInfo? Ctx.recordValueMapping
  by_cases hu : u = v
  · subst hu
    rw [if_pos rfl]
    exact find?_updateFirst_of_imp (by simp) (fun _ => rfl) _
  · have hu' : v ≠ u := fun h => hu h.symm
    rw [if_neg hu]
    refine find?_updateFirst_of_disjoint ?_ _
    intro a ha
    have : a.origResult = v := by simpa using ha
    simp [this, hu']

theorem writesTo_addWrite (st : RefState D) (w : Write D) (t : Target) :
    (st.addWrite w).writesTo t = if w.target = t then st.writesTo t ++ [w] else st.writesTo t := by
  unfold RefState.writesTo RefState.addWrite
  rw [List.filter_append]
  split
  · rename_i h
    simp [h]
  · rename_i h
    simp [h]

theorem wireInfo?_isSome_iff (h : ctx.wires.map WireInfo.origResult = st.wires) (v : Val) :
    (ctx.wireInfo? v).isSome ↔ v ∈ st.wires := by
  rw [← h]
  simp [Ctx.wireInfo?, List.find?_isSome]

/-! ## Writes -/

theorem gatedWrite_sameTables (ctx : Ctx) (gate : Option Value) (x : Value) (prev : Option Value)
    (w : ℕ) : SameTables ctx (gatedWrite ctx gate x prev w).2 := by
  unfold gatedWrite
  split
  · exact .refl _
  · split
    · exact sameTables_emit _ _ _
    · exact (sameTables_emit _ _ _).trans (sameTables_emit _ _ _)

/-- A write under a gate is the write under the guards it stands for. -/
theorem gatedWrite_rel (hR : RespectsOps A R G C) (hg : GateRel G gate gs) {x : Value} {d : D}
    {w zw : ℕ} (hx : R x d) (hw : x.width = w) {prev : Option Value} {prevD : Option D}
    (hp : DriverRel R w prev prevD) {idle : D} (hz : prev = none → zw = w ∧ idle = A.zero w)
    (ctx : Ctx) :
    DriverRel R w (some (gatedWrite ctx gate x prev zw).1)
      (some (if gs.isEmpty then d else A.guarded gs d (prevD.getD idle))) := by
  refine .some ?_
  unfold gatedWrite
  cases gate with
  | none =>
    obtain rfl : gs = [] := hg.2
    exact ⟨hx, hw⟩
  | some g =>
    obtain ⟨hne, hG⟩ := hg
    have hgs : gs.isEmpty = false := by simpa using hne rfl
    simp only [hgs, Bool.false_eq_true, if_false]
    cases hp with
    | some hpe => exact ⟨hR.guarded _ _ _ _ _ _ _ hG hx hpe.1 (by rw [hpe.2, hw]), hw⟩
    | none =>
      obtain ⟨rfl, rfl⟩ := hz rfl
      exact ⟨hR.guarded _ _ _ _ _ _ _ hG hx (hR.zero _ _) hw.symm, hw⟩

/-- A result mapped to the value the reference has for it. -/
theorem Sim.define (h : Sim A R outWidth regs ctx st) {v : Val} {x : Value} {d : D} (hx : R x d)
    (hw : x.width = v.width) (hv : v ∉ regs) :
    Sim A R outWidth regs (ctx.recordValueMapping v x) (st.define v d) where
  lookup := fun u => by
    by_cases hu : u = v
    · subst hu
      simpa [Ctx.lookupValue, Ctx.recordValueMapping, RefState.read, RefState.define] using hx
    · have := h.lookup u
      simpa [Ctx.lookupValue, Ctx.recordValueMapping, RefState.read, RefState.define, hu] using this
  typed := fun u => by
    by_cases hu : u = v
    · subst hu
      simpa [Ctx.lookupValue, Ctx.recordValueMapping] using hw
    · have := h.typed u
      simpa [Ctx.lookupValue, Ctx.recordValueMapping, hu] using this
  mapped := fun u => by
    by_cases hu : u = v
    · simp [RefState.define, hu]
    · simpa [Ctx.recordValueMapping, RefState.define, hu] using h.mapped u
  outs := h.outs
  outs_width := h.outs_width
  output := h.output
  wireList := h.wireList
  wire := h.wire
  regList := h.regList
  reg := fun i u hu => by
    obtain ⟨hmem, hmap, hr⟩ := h.reg i u hu
    have hne : u ≠ v := fun he => hv (he ▸ hmem)
    exact ⟨hmem, by simpa [Ctx.recordValueMapping, hne] using hmap, hr⟩
  pending := fun u hu hn => by
    have hne : u ≠ v := fun he => hv (he ▸ hu)
    simpa [Ctx.lookupValue, Ctx.recordValueMapping, hne] using h.pending u hu hn
  regs_nodup := h.regs_nodup
  regWrites := h.regWrites

theorem sameTables_queue (ctx : Ctx) (v : Val) : SameTables ctx (ctx.queue v) :=
  ⟨rfl, rfl, rfl, rfl, rfl⟩

/-- The operands of an op, related one by one. -/
theorem Sim.operands (h : Sim A R outWidth regs ctx st) (vs : List Val) :
    List.Forall₂ (fun v d => R (ctx.lookupValue v) d) vs (vs.map (st.read A)) := by
  rw [List.forall₂_map_right_iff, List.forall₂_same]
  exact fun v _ => h.lookup v

theorem sim_exprOp (hR : Respects A R G C) (h : Sim A R outWidth regs ctx st) {res : Val} {e : Expr}
    (hv : e.verify res.width = true) (hres : res ∉ regs)
    (hok : lowerExprOp ctx res e = .ok ctx') :
    Sim A R outWidth regs ctx' (st.define res (st.exprOp A res e)) := by
  unfold lowerExprOp at hok
  cases hb : lowerBitOp ctx res.width e with
  | error err => simp [hb, bind, Except.bind] at hok
  | ok r =>
    obtain ⟨x, ctx''⟩ := r
    have hlow := lowerBitOp_lowered hb
    have htyped : OperandsTyped ctx e.operands := fun v _ => h.typed v
    obtain rfl : (ctx''.recordValueMapping res x).queue res = ctx' := by
      simpa [hb, bind, Except.bind, pure, Except.pure] using hok
    refine Sim.sameTables ?_ (sameTables_queue _ _)
    exact (h.sameTables hlow.tables).define
      (hR.expr _ _ _ _ _ _ hlow hv htyped (h.operands e.operands)) (hlow.width hv htyped) hres

/-! ## Transfers -/

theorem outName_eq (h : Sim A R outWidth regs ctx st) (v : Val) :
    ctx.getOutputPortName v = st.outName v := by
  unfold Ctx.getOutputPortName RefState.outName
  rw [h.outs]

/-- A write to an output. -/
theorem Sim.writeOutput (h : Sim A R outWidth regs ctx st) {name : String} {x : Value}
    {w : Write D} (ht : w.target = .output name)
    (hx : DriverRel R (outWidth name) (some x) (drive A (A.zero (outWidth name)) none (st.writesTo (.output name) ++ [w]))) :
    Sim A R outWidth regs (ctx.assignOutput name x) (st.addWrite w) where
  lookup := h.lookup
  typed := h.typed
  mapped := h.mapped
  outs := h.outs
  outs_width := h.outs_width
  output := fun n => by
    rw [outputAssignment?_assignOutput, writesTo_addWrite, ht]
    by_cases hn : n = name
    · subst hn
      simpa using hx
    · have : Target.output name ≠ .output n := fun he => hn (Target.output.inj he).symm
      rw [if_neg hn, if_neg this]
      exact h.output n
  wireList := h.wireList
  wire := fun v => by
    rw [writesTo_addWrite, if_neg (by simp [ht])]
    exact h.wire v
  regList := h.regList
  reg := fun i v hi => by
    rw [writesTo_addWrite, if_neg (by simp [ht])]
    exact h.reg i v hi
  pending := h.pending
  regs_nodup := h.regs_nodup
  regWrites := fun u hu v hv => by
    rcases List.mem_append.1 hu with hu | hu
    · exact h.regWrites u hu v hv
    · rw [List.mem_singleton.1 hu, ht] at hv
      exact absurd hv (by simp)

/-- A write to a wire, before reads of the wire see it. -/
theorem Sim.writeWire (h : Sim A R outWidth regs ctx st) {dst : Val} {x : Value} {w : Write D}
    (ht : w.target = .wire dst) (hdst : dst ∉ regs) (hmem : dst ∈ st.wires) {d : D} (hx : R x d)
    (hw : x.width = dst.width) (hd : drive A (A.zero dst.width) none (st.writesTo (.wire dst) ++ [w]) = some d) :
    Sim A R outWidth regs (ctx.driveWire dst x) ((st.addWrite w).define dst d) := by
  have hlist : Sim A R outWidth regs
      { ctx with
        wires := updateFirst (fun w => w.origResult = dst)
          (fun w => { w with pendingDriver := some x }) ctx.wires } (st.addWrite w) :=
    { lookup := h.lookup
      typed := h.typed
      mapped := h.mapped
      outs := h.outs
      outs_width := h.outs_width
      output := fun n => by
        rw [writesTo_addWrite, if_neg (by simp [ht])]
        exact h.output n
      wireList := by
        refine Eq.trans ?_ h.wireList
        apply map_updateFirst
        exact fun _ => rfl
      wire := fun v => by
        have hinfo := wireInfo?_driveWire ctx dst v x
        simp only [Ctx.driveWire, Ctx.recordValueMapping, Ctx.wireInfo?] at hinfo
        simp only [Ctx.wireInfo?]
        rw [hinfo, writesTo_addWrite, ht]
        by_cases hv : v = dst
        · subst hv
          have hsome := (wireInfo?_isSome_iff h.wireList v).2 hmem
          obtain ⟨wi, hwi⟩ := Option.isSome_iff_exists.1 hsome
          simp only [Ctx.wireInfo?] at hwi
          rw [if_pos rfl, if_pos rfl, hwi, hd]
          exact .some ⟨hx, hw⟩
        · have : Target.wire dst ≠ .wire v := fun he => hv (Target.wire.inj he).symm
          rw [if_neg hv, if_neg this]
          exact h.wire v
      regList := h.regList
      reg := fun i v hi => by
        rw [writesTo_addWrite, if_neg (by simp [ht])]
        exact h.reg i v hi
      pending := h.pending
      regs_nodup := h.regs_nodup
      regWrites := fun u hu v hv => by
        rcases List.mem_append.1 hu with hu | hu
        · exact h.regWrites u hu v hv
        · rw [List.mem_singleton.1 hu, ht] at hv
          exact absurd hv (by simp) }
  exact hlist.define hx hw hdst

theorem sim_transfer (hR : Respects A R G C) (h : Sim A R outWidth regs ctx st) {dst src : Val}
    (hw : dst.width = src.width) (hdst : dst ∉ regs) (hg : GateRel G gate gs)
    (hok : lowerTransferOp ctx dst src gate = .ok ctx') :
    Sim A R outWidth regs ctx' (st.transfer A dst src gs) := by
  have hx := h.lookup src
  have hxw := h.typed src
  unfold lowerTransferOp at hok
  simp only [outName_eq h] at hok
  unfold RefState.transfer
  by_cases ho : st.outName dst ≠ ""
  · rw [if_pos ho] at hok ⊢
    split at hok
    · exact absurd hok (by simp)
    · have how := h.outs_width dst ho
      obtain rfl := (Except.ok.inj hok)
      refine (h.sameTables (gatedWrite_sameTables ctx gate _ _ _)).writeOutput rfl ?_
      rw [drive_append]
      have hxw' : (ctx.lookupValue src).width = outWidth (st.outName dst) := by
        rw [hxw, ← hw, how]
      simpa only [how] using
        gatedWrite_rel hR.toRespectsOps hg hx hxw' (h.output (st.outName dst)) (fun _ => ⟨hxw', rfl⟩) ctx
  · rw [if_neg ho] at hok ⊢
    split at hok
    · exact absurd hok (by simp)
    · rename_i wi hwi
      have hmem : dst ∈ st.wires := (wireInfo?_isSome_iff h.wireList dst).1 (by simp [hwi])
      have hwire := h.wire dst
      simp only [hwi, Option.bind_some] at hwire
      obtain rfl := (Except.ok.inj hok)
      rw [if_pos hmem]
      have hrel := gatedWrite_rel hR.toRespectsOps hg hx (by rw [hxw, hw]) hwire (fun _ => ⟨rfl, rfl⟩) ctx
      simp only [RefState.wireDriver, writesTo_addWrite, if_true, drive_append, Option.getD_some]
      cases hrel with
      | some hrel =>
        exact (h.sameTables (gatedWrite_sameTables ctx gate _ _ _)).writeWire rfl hdst hmem hrel.1
          hrel.2 (drive_append _ _ _ _)

/-- Which of the registers a mapped register's value belongs to. -/
theorem same_defaultPrev {infos : List RegInfo} {regs : List Val}
    (hlen : infos.length = regs.length)
    (hreg : ∀ (i : ℕ) (v : Val), regs[i]? = some v →
      ∃ r, infos[i]? = some r ∧ r.defaultPrev = .reg i v.width)
    {j : ℕ} {dst : Val} (hj : regs[j]? = some dst) :
    ∀ i r, infos[i]? = some r → r.defaultPrev.same (.reg j dst.width) = decide (i = j) := by
  intro i r hr
  have hi : i < regs.length := by
    rw [← hlen]
    exact (List.getElem?_eq_some_iff.1 hr).1
  obtain ⟨r', hr', hprev⟩ := hreg i regs[i] (List.getElem?_eq_getElem hi)
  obtain rfl : r = r' := Option.some.inj (hr.symm.trans hr')
  rw [hprev, Value.same_reg]
  by_cases hij : i = j
  · subst hij
    have : regs[i] = dst := by
      rw [List.getElem?_eq_getElem hi] at hj
      exact Option.some.inj hj
    simp [this]
  · simp [hij]

theorem Sim.same_defaultPrev (h : Sim A R outWidth regs ctx st) {j : ℕ} {dst : Val}
    (hj : st.regs[j]? = some dst) :
    ∀ i r, ctx.regs[i]? = some r → r.defaultPrev.same (.reg j dst.width) = decide (i = j) := by
  refine Lower.same_defaultPrev h.regList (fun i v hi => ?_) hj
  obtain ⟨-, -, r, hr, hprev, -⟩ := h.reg i v hi
  exact ⟨r, hr, hprev⟩

/-- A write to a register. -/
theorem Sim.writeReg (h : Sim A R outWidth regs ctx st) {dst : Val} {j : ℕ}
    (hj : st.regs[j]? = some dst) {x : Value} {w : Write D} (ht : w.target = .reg dst)
    (hx : DriverRel R dst.width (some x)
      (drive A (A.reg j dst.width) (some (A.reg j dst.width)) (st.writesTo (.reg dst) ++ [w]))) :
    Sim A R outWidth regs (ctx.driveReg (.reg j dst.width) x) (st.addWrite w) where
  lookup := h.lookup
  typed := h.typed
  mapped := h.mapped
  outs := h.outs
  outs_width := h.outs_width
  output := fun n => by
    rw [writesTo_addWrite, if_neg (by simp [ht])]
    exact h.output n
  wireList := h.wireList
  wire := fun v => by
    rw [writesTo_addWrite, if_neg (by simp [ht])]
    exact h.wire v
  regList := (length_updateFirst _).trans h.regList
  reg := fun i v hi => by
    obtain ⟨hmem, hmap, r, hr, hprev, hnext⟩ := h.reg i v hi
    refine ⟨hmem, hmap, ?_⟩
    simp only [Ctx.driveReg, getElem?_updateFirst (h.same_defaultPrev hj)]
    rw [writesTo_addWrite, ht]
    by_cases hij : i = j
    · subst hij
      obtain rfl : v = dst := Option.some.inj (hi.symm.trans hj)
      rw [if_pos rfl, if_pos rfl, hr]
      exact ⟨{ r with pendingNext := x }, rfl, hprev, hx⟩
    · have hne : Target.reg dst ≠ .reg v := by
        intro he
        obtain rfl := Target.reg.inj he
        exact hij ((List.getElem?_inj (List.getElem?_eq_some_iff.1 hi).1 h.regs_nodup).1
          (hi.trans hj.symm))
      rw [if_neg hij, if_neg hne]
      exact ⟨r, hr, hprev, hnext⟩
  pending := h.pending
  regs_nodup := h.regs_nodup
  regWrites := fun u hu v hv => by
    rcases List.mem_append.1 hu with hu | hu
    · exact h.regWrites u hu v hv
    · rw [List.mem_singleton.1 hu, ht] at hv
      obtain rfl := Target.reg.inj hv
      exact List.mem_of_getElem? hj

theorem sim_clockedTransfer (hR : Respects A R G C) (h : Sim A R outWidth regs ctx st)
    {dst src : Val} (hw : dst.width = src.width) (hdst : dst ∈ regs) (hg : GateRel G gate gs)
    (hok : lowerClockedTransferOp ctx dst src gate = .ok ctx') :
    Sim A R outWidth regs ctx' (st.clockedTransfer A dst src gs) := by
  unfold lowerClockedTransferOp at hok
  simp only at hok
  split at hok
  · exact absurd hok (by simp)
  · rename_i r hr
    obtain rfl := Except.ok.inj hok
    -- the register found is `dst` itself
    obtain ⟨i, hi⟩ := List.mem_iff_getElem?.1 (List.mem_of_find?_eq_some hr)
    have hilt : i < st.regs.length := by
      rw [← h.regList]
      exact (List.getElem?_eq_some_iff.1 hi).1
    obtain ⟨-, -, r', hr', hprev, -⟩ := h.reg i st.regs[i] (List.getElem?_eq_getElem hilt)
    obtain rfl : r = r' := Option.some.inj (hi.symm.trans hr')
    have hsame : r.defaultPrev = ctx.lookupValue dst := by
      unfold Ctx.regInfo? at hr
      exact Value.eq_of_same (by simpa using List.find?_some hr)
    have hin : dst ∈ st.regs := by
      by_contra hn
      exact h.pending dst hdst hn i _ (hsame.symm.trans hprev)
    obtain ⟨j, hj⟩ := List.mem_iff_getElem?.1 hin
    obtain ⟨-, hmap, r'', hr'', -, hnext⟩ := h.reg j dst hj
    have hlook : ctx.lookupValue dst = .reg j dst.width := by simp [Ctx.lookupValue, hmap]
    have hfound : ctx.regInfo? (.reg j dst.width) = ctx.regs[j]? :=
      find?_eq_getElem? (h.same_defaultPrev hj)
    rw [hlook, hfound, hr''] at hr
    obtain rfl := Option.some.inj hr
    rw [hlook]
    refine (h.sameTables (gatedWrite_sameTables ctx gate _ _ _)).writeReg hj rfl ?_
    rw [drive_append]
    exact gatedWrite_rel hR.toRespectsOps hg (h.lookup src) (by rw [h.typed, hw]) hnext (by simp) ctx

/-! ## Gates -/

theorem andConds_sameTables (ctx : Ctx) (gate : Option Value) (x : Value) :
    SameTables ctx (andConds ctx gate x).2 := by
  unfold andConds
  split
  · exact .refl _
  · exact sameTables_emit _ _ _

/-- Guards put in front of those of the enclosing gate. -/
theorem andConds_rel (hR : RespectsOps A R G C) (hg : GateFor G gate gs) {x : Value} {hs : Guards D}
    (hx : G x hs) (ctx : Ctx) : G (andConds ctx gate x).1 (hs ++ gs) := by
  unfold andConds
  cases gate with
  | none =>
    obtain rfl : gs = [] := hg
    simpa using hx
  | some g => exact hR.and _ _ _ _ _ hg hx

theorem ifGates_rel (hR : RespectsOps A R G C) (hg : GateFor G gate gs) {c : Value} {d : D}
    (hc : R c d) (hw : c.width = 1) {thenCond elseCond : Value}
    (hok : ifGates ctx c gate = .ok (thenCond, elseCond, ctx')) :
    SameTables ctx ctx' ∧ GateRel G (some thenCond) ((d, true) :: gs) ∧
      GateRel G (some elseCond) ((d, false) :: gs) := by
  unfold ifGates at hok
  simp only at hok
  split at hok
  · have h := Except.ok.inj hok
    simp only [Prod.ext_iff] at h
    obtain ⟨rfl, rfl, rfl⟩ := h
    refine ⟨?_, ⟨fun _ => by simp, ?_⟩, ⟨fun _ => by simp, ?_⟩⟩
    · exact (((andConds_sameTables _ _ _).trans (sameTables_emit _ _ _)).trans
        (sameTables_emit _ _ _)).trans (andConds_sameTables _ _ _)
    · exact andConds_rel hR hg (hR.holds c d hc hw) ctx
    · exact andConds_rel hR hg (hR.fails _ _ c d hc hw) _
  · exact absurd hok (by simp)

theorem caseGate_sameTables (ctx : Ctx) (c : Value) (gate covered : Option Value) :
    SameTables ctx (caseGate ctx c gate covered).2 := by
  unfold caseGate notCovered
  cases covered with
  | none =>
    exact ((sameTables_emit _ _ _).trans (sameTables_emit _ _ _)).trans (andConds_sameTables _ _ _)
  | some k =>
    exact (((sameTables_emit _ _ _).trans (sameTables_emit _ _ _)).trans
      (sameTables_emit _ _ _)).trans (andConds_sameTables _ _ _)

theorem caseGate_rel (hR : RespectsOps A R G C) (hg : GateFor G gate gs) {ds : List D}
    (hcov : CoverRel C covered ds) {c : Value} {d : D} (hc : R c d) (hw : c.width = 1) (ctx : Ctx) :
    GateRel G (some (caseGate ctx c gate covered).1) (caseGuards d ds ++ gs) := by
  refine ⟨fun _ => by simp [caseGuards], ?_⟩
  unfold caseGate notCovered
  have hthis := hR.holds c d hc hw
  cases covered with
  | none =>
    obtain rfl : ds = [] := hcov
    exact andConds_rel hR hg (hR.and _ _ _ _ _ (hR.one _) hthis) _
  | some k => exact andConds_rel hR hg (hR.and _ _ _ _ _ (hR.uncovered _ _ _ _ hcov) hthis) _

theorem coverCase_sameTables (ctx : Ctx) (c : Value) (covered : Option Value) :
    SameTables ctx (coverCase ctx c covered).2 := by
  unfold coverCase
  split
  · exact .refl _
  · exact sameTables_emit _ _ _

theorem coverCase_rel (hR : RespectsOps A R G C) {ds : List D} (hcov : CoverRel C covered ds)
    {c : Value} {d : D} (hc : R c d) (hw : c.width = 1) (ctx : Ctx) :
    CoverRel C (some (coverCase ctx c covered).1) (ds ++ [d]) := by
  unfold coverCase
  cases covered with
  | none =>
    obtain rfl : ds = [] := hcov
    exact hR.cover c d hc hw
  | some k => exact hR.or _ _ _ _ _ hcov hc hw

theorem defaultGate_sameTables (ctx : Ctx) (gate covered : Option Value) :
    SameTables ctx (defaultGate ctx gate covered).2 := by
  unfold defaultGate notCovered
  cases covered with
  | none => exact .refl _
  | some k =>
    exact ((sameTables_emit _ _ _).trans (sameTables_emit _ _ _)).trans (andConds_sameTables _ _ _)

theorem defaultGate_for (hR : RespectsOps A R G C) (hg : GateFor G gate gs) {ds : List D}
    (hcov : CoverRel C covered ds) (ctx : Ctx) :
    GateFor G (defaultGate ctx gate covered).1 (defaultGuards ds ++ gs) := by
  unfold defaultGate notCovered
  cases covered with
  | none =>
    obtain rfl : ds = [] := hcov
    exact hg
  | some k => exact andConds_rel hR hg (hR.uncovered _ _ _ _ hcov) _

theorem defaultGate_rel (hR : RespectsOps A R G C) (hg : GateRel G gate gs) {ds : List D}
    (hcov : CoverRel C covered ds) (hne : covered.isSome → ds ≠ []) (ctx : Ctx) :
    GateRel G (defaultGate ctx gate covered).1 (defaultGuards ds ++ gs) := by
  refine ⟨?_, defaultGate_for hR hg.2 hcov ctx⟩
  cases covered with
  | none =>
    obtain rfl : ds = [] := hcov
    exact hg.1
  | some k =>
    intro _
    simpa [defaultGuards] using fun h => absurd h (hne rfl)

/-! ## The walk -/

theorem bind_eq_ok {ε α β : Type} {x : Except ε α} {f : α → Except ε β} {b : β}
    (h : x >>= f = .ok b) : ∃ a, x = .ok a ∧ f a = .ok b := by
  cases x with
  | error e => exact absurd h (by simp [bind, Except.bind])
  | ok a => exact ⟨a, rfl, h⟩

/-- An expression op directly in `nsl.alt`, which is not lowered. -/
theorem Sim.direct (hR : Respects A R G C) (h : Sim A R outWidth regs ctx st) {res : Val} {d : D}
    (hnew : (st.vals res).isSome = false) :
    Sim A R outWidth regs ctx (st.define res (A.direct d)) where
  lookup := fun u => by
    by_cases hu : u = res
    · subst hu
      have hnone : ctx.valueMap u = none := by
        by_contra hne
        rw [h.mapped u (Option.isSome_iff_ne_none.2 hne)] at hnew
        exact absurd hnew (by simp)
      simpa [Ctx.lookupValue, hnone, RefState.read, RefState.define] using hR.direct u d
    · simpa [RefState.read, RefState.define, hu] using h.lookup u
  typed := h.typed
  mapped := fun u hu => by
    by_cases he : u = res
    · simp [RefState.define, he]
    · simpa [RefState.define, he] using h.mapped u hu
  outs := h.outs
  outs_width := h.outs_width
  output := h.output
  wireList := h.wireList
  wire := h.wire
  regList := h.regList
  reg := h.reg
  pending := h.pending
  regs_nodup := h.regs_nodup
  regWrites := h.regWrites

mutual

/-- **One op**, with what is nested in it. -/
theorem sim_controlOp (hR : Respects A R G C) (op : Op) {ctx ctx' : Ctx} {st : RefState D}
    {gate : Option Value} {gs : Guards D} (h : Sim A R outWidth regs ctx st)
    (hg : GateRel G gate gs) (hop : guardedOp regs op = true)
    (hok : lowerControlOp op ctx gate = .ok ctx') :
    Sim A R outWidth regs ctx' (execOp A op st gs) := by
  cases op with
  | expr res e =>
    simp only [guardedOp, Bool.and_eq_true, decide_eq_true_eq] at hop
    exact sim_exprOp hR (h.sameTables (sameTables_observe _ _)) hop.1 hop.2 hok
  | transfer dst src =>
    simp only [guardedOp, Bool.and_eq_true, beq_iff_eq, decide_eq_true_eq] at hop
    exact sim_transfer hR (h.sameTables (sameTables_observe _ _)) hop.1 hop.2 hg hok
  | clockedTransfer dst src =>
    simp only [guardedOp, Bool.and_eq_true, beq_iff_eq, decide_eq_true_eq] at hop
    exact sim_clockedTransfer hR (h.sameTables (sameTables_observe _ _)) hop.1 hop.2 hg hok
  | ifOp cond thenRegion elseRegion =>
    simp only [guardedOp, Bool.and_eq_true, beq_iff_eq] at hop
    simp only [lowerControlOp] at hok
    obtain ⟨⟨thenCond, elseCond, ctx₁⟩, hgates, hok⟩ := bind_eq_ok hok
    obtain ⟨ctx₂, hthen, helse⟩ := bind_eq_ok hok
    have hc := h.lookup cond
    have hcw : (ctx.lookupValue cond).width = 1 := (h.typed cond).trans hop.1.1
    obtain ⟨htab, hgt, hge⟩ := ifGates_rel hR.toRespectsOps hg.2 hc hcw hgates
    have h₁ := h.sameTables ((sameTables_observe ctx [cond]).trans htab)
    have h₂ := sim_controlOps hR thenRegion h₁ hgt hop.1.2 hthen
    exact sim_controlOps hR elseRegion h₂ hge hop.2 helse
  | alt body =>
    have hcov : CoverRel C none ([] : List D) := rfl
    exact sim_altChildren hR body h hg hcov (by simp) hop hok
  | parallel body => exact sim_controlOps hR body h hg hop hok
  | func symName body => exact sim_controlOps hR body h hg hop hok
  | call callee =>
    obtain rfl := Except.ok.inj hok
    refine h.sameTables ?_
    unfold lowerCallOp
    split
    · exact sameTables_emit _ _ _
    · exact (sameTables_emit _ _ _).trans (sameTables_emit _ _ _)
  | inputPort res name => exact (Except.ok.inj hok) ▸ h
  | outputPort res name => exact (Except.ok.inj hok) ▸ h
  | inoutPort res name => exact (Except.ok.inj hok) ▸ h
  | reg res name init => exact (Except.ok.inj hok) ▸ h
  | wire res name => exact (Except.ok.inj hok) ▸ h
  | inert mnemonic => exact (Except.ok.inj hok) ▸ h
  | any body => exact absurd hop (by simp [guardedOp])
  | case cond body => exact absurd hop (by simp [guardedOp])
  | default body => exact absurd hop (by simp [guardedOp])
  | seq body => exact absurd hop (by simp [guardedOp])
  | other mnemonic => exact absurd hop (by simp [guardedOp])

theorem sim_controlOps (hR : Respects A R G C) (ops : List Op) {ctx ctx' : Ctx} {st : RefState D}
    {gate : Option Value} {gs : Guards D} (h : Sim A R outWidth regs ctx st)
    (hg : GateRel G gate gs) (hops : guardedOps regs ops = true)
    (hok : lowerControlOps ops ctx gate = .ok ctx') :
    Sim A R outWidth regs ctx' (execOps A ops st gs) := by
  cases ops with
  | nil => exact (Except.ok.inj hok) ▸ h
  | cons op ops =>
    simp only [guardedOps, Bool.and_eq_true] at hops
    simp only [lowerControlOps] at hok
    obtain ⟨ctx₁, hop, hok⟩ := bind_eq_ok hok
    exact sim_controlOps hR ops (sim_controlOp hR op h hg hops.1 hop) hg hops.2 hok

theorem sim_altChildren (hR : Respects A R G C) (children : List Op) {ctx ctx' : Ctx}
    {st : RefState D} {gate covered : Option Value} {gs : Guards D} {ds : List D}
    (h : Sim A R outWidth regs ctx st) (hg : GateRel G gate gs) (hcov : CoverRel C covered ds)
    (hne : covered.isSome → ds ≠ []) (hch : guardedAlt regs children = true)
    (hok : lowerAltChildren children ctx gate covered = .ok ctx') :
    Sim A R outWidth regs ctx' (execAlt A children st gs ds) := by
  cases children with
  | nil => exact (Except.ok.inj hok) ▸ h
  | cons child children =>
    cases child with
    | case cond body =>
      simp only [guardedAlt, Bool.and_eq_true, beq_iff_eq] at hch
      simp only [lowerAltChildren] at hok
      obtain ⟨ctx₁, hbody, hok⟩ := bind_eq_ok hok
      have hc := h.lookup cond
      have hcw : (ctx.lookupValue cond).width = 1 := (h.typed cond).trans hch.1.1
      have h₁ := h.sameTables ((sameTables_observe ctx [cond]).trans
        (caseGate_sameTables (ctx.observe [cond]) (ctx.lookupValue cond) gate covered))
      have h₂ := sim_controlOps hR body h₁ (caseGate_rel hR.toRespectsOps hg.2 hcov hc hcw _) hch.1.2 hbody
      exact sim_altChildren hR children (h₂.sameTables (coverCase_sameTables _ _ _)) hg
        (coverCase_rel hR.toRespectsOps hcov hc hcw _) (by simp) hch.2 hok
    | default body =>
      simp only [guardedAlt, Bool.and_eq_true] at hch
      simp only [lowerAltChildren] at hok
      obtain ⟨ctx₁, hbody, hok⟩ := bind_eq_ok hok
      have h₁ := h.sameTables (defaultGate_sameTables ctx gate covered)
      have h₂ := sim_controlOps hR body h₁ (defaultGate_rel hR.toRespectsOps hg hcov hne _) hch.1 hbody
      exact sim_altChildren hR children h₂ hg hcov hne hch.2 hok
    | expr res e =>
      simp only [guardedAlt, Bool.and_eq_true] at hch
      simp only [lowerAltChildren] at hok
      simp only [execAlt]
      split
      · exact sim_altChildren hR children h hg hcov hne hch.2 hok
      · rename_i hnew
        exact sim_altChildren hR children (h.direct hR (by simpa using hnew)) hg hcov hne hch.2 hok
    | _ => exact absurd hch (by simp [guardedAlt])

end

end Lower

end Nslc
