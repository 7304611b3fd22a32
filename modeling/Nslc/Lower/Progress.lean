import Nslc.Lower.Acts
import Nslc.Lower.GuardedWrites
/-!
# In order, the lowering goes through

Along a body in order every value the walk looks up is there and closed,
so no step fails, and every result is mapped once, to a value that never
changes after. The invariant (`Follows`) is relative to an environment
that satisfies the equations of the body: what the context holds is what
the environment says.
-/

namespace Nslc

namespace Lower

open Dialect Circt

/-! ## Closed values -/

section Closed

variable (ρ : Valuation)

def ClosedRel (x : Value) (b : Bits) : Prop := x.isOpen = false ∧ x.eval ρ = b

def ClosedGate (x : Value) (gs : Guards Bits) : Prop :=
  x.isOpen = false ∧ x.eval ρ = .ofBool gs.hold

def ClosedCover (x : Value) (ds : List Bits) : Prop :=
  x.isOpen = false ∧ x.eval ρ = .ofBool (ds.any Bits.isTrue)

theorem respectsOps_closed (ν : Val → Bits) :
    RespectsOps (bitsDomain ρ ν) (ClosedRel ρ) (ClosedGate ρ) (ClosedCover ρ) where
  arg := fun _ _ => ⟨rfl, rfl⟩
  reg := fun _ _ => ⟨rfl, rfl⟩
  zero := fun _ _ => ⟨rfl, rfl⟩
  wire := fun i name x d hx => by
    have hc : (Value.op i (.wire name) [x]).isOpen = false := by simp [hx.1]
    exact ⟨hc, (respects_bits ρ ν).wire i name x d (fun _ => hx.2) hc⟩
  expr := fun ctx w e x ctx' ds hlow hv ht hds => by
    have hx : x.isOpen = (e.operands.map ctx.lookupValue).any Value.isOpen := hlow.leaves _
    have hc : x.isOpen = false := by
      rw [hx, List.any_map, List.any_eq_false]
      have hall : ∀ v ∈ e.operands, (ctx.lookupValue v).isOpen = false :=
        ((List.forall₂_and_left _ _).1 (hds.imp fun v d h => ⟨h.1, h⟩)).1
      exact fun v hv => by simp [hall v hv]
    exact ⟨hc, (respects_bits ρ ν).expr ctx w e x ctx' ds hlow hv ht
      (hds.imp fun _ _ h => fun _ => h.2) hc⟩
  holds := fun c d hc hw => ⟨hc.1, (respects_bits ρ ν).holds c d (fun _ => hc.2) hw hc.1⟩
  fails := fun i j c d hc hw => by
    have ho : (Value.op i (.icmp .eq) [c, .op j (.constant c.width 0) []]).isOpen = false := by
      simp [hc.1]
    exact ⟨ho, (respects_bits ρ ν).fails i j c d (fun _ => hc.2) hw ho⟩
  and := fun i g gs h hs hg hh => by
    have ho : (Value.op i .and [g, h]).isOpen = false := by simp [hg.1, hh.1]
    exact ⟨ho, (respects_bits ρ ν).and i g gs h hs (fun _ => hg.2) (fun _ => hh.2) ho⟩
  one := fun _ => ⟨rfl, rfl⟩
  cover := fun c d hc hw => ⟨hc.1, (respects_bits ρ ν).cover c d (fun _ => hc.2) hw hc.1⟩
  or := fun i c ds x d hc hx hw => by
    have ho : (Value.op i .or [c, x]).isOpen = false := by simp [hc.1, hx.1]
    exact ⟨ho, (respects_bits ρ ν).or i c ds x d (fun _ => hc.2) (fun _ => hx.2) hw ho⟩
  uncovered := fun i j c ds hc => by
    have ho : (Value.op i (.icmp .eq) [c, .op j (.constant 1 0) []]).isOpen = false := by
      simp [hc.1]
    exact ⟨ho, (respects_bits ρ ν).uncovered i j c ds (fun _ => hc.2) ho⟩
  guarded := fun i g gs x d p e hg hx hp hw => by
    have ho : (Value.op i .mux [g, x, p]).isOpen = false := by simp [hg.1, hx.1, hp.1]
    exact ⟨ho, (respects_bits ρ ν).guarded i g gs x d p e (fun _ => hg.2) (fun _ => hx.2)
      (fun _ => hp.2) hw ho⟩

end Closed

/-- The builders give an integer type on integer operands. -/
theorem isInt_ty (k : CombOp) {ts : List Ty} (h : ∀ t ∈ ts, t.isInt = true) :
    (k.ty ts).isInt = true := by
  unfold CombOp.ty
  split <;> first | rfl | exact h _ (by simp)

mutual

/-- A closed value has an integer type. -/
theorem isInt_of_closed : ∀ x : Value, x.isOpen = false → x.ty.isInt = true
  | .arg _ _, _ | .reg _ _, _ | .null, _ => rfl
  | .nsl _, h => absurd h (by simp [Value.isOpen, Value.anyLeaf, Value.isNsl])
  | .op _ k args, h => isInt_ty k (isInt_of_closeds args (by simpa using h))

theorem isInt_of_closeds : ∀ xs : List Value, (∀ x ∈ xs, x.isOpen = false) →
    ∀ t ∈ Value.tys xs, t.isInt = true
  | [], _, t, ht => absurd ht (by simp [Value.tys])
  | x :: xs, h, t, ht => by
    rcases List.mem_cons.1 ht with rfl | ht
    · exact isInt_of_closed x (h x (by simp))
    · exact isInt_of_closeds xs (fun y hy => h y (by simp [hy])) t ht

end

/-! ## Emitting closed ops -/

section Emits

variable {ctx ctx' ctx'' : Ctx} {gate covered : Option Value} {x g c : Value}

/-- Only the body grows, by closed ops. -/
structure Emits (ctx ctx' : Ctx) : Prop where
  tables : SameTables ctx ctx'
  reads : ctx'.reads = ctx.reads
  clocked : ctx'.clocked = ctx.clocked
  body : (∀ x ∈ ctx.body, x.isOpen = false) → ∀ x ∈ ctx'.body, x.isOpen = false

theorem Emits.refl (ctx : Ctx) : Emits ctx ctx := ⟨.refl ctx, rfl, rfl, fun h => h⟩

theorem Emits.trans (h : Emits ctx ctx') (h' : Emits ctx' ctx'') : Emits ctx ctx'' :=
  ⟨h.tables.trans h'.tables, h'.reads.trans h.reads, h'.clocked.trans h.clocked,
    fun hb => h'.body (h.body hb)⟩

@[simp] theorem isOpen_emit (ctx : Ctx) (k : CombOp) (args : List Value) :
    ((ctx.emit k args).1).isOpen = args.any Value.isOpen := isOpen_op _ _ _

theorem emits_emit (ctx : Ctx) (k : CombOp) {args : List Value}
    (h : ∀ x ∈ args, x.isOpen = false) : Emits ctx (ctx.emit k args).2 where
  tables := sameTables_emit _ _ _
  reads := rfl
  clocked := rfl
  body := fun hb x hx => by
    rcases List.mem_append.1 hx with hx | hx
    · exact hb x hx
    · rw [List.mem_singleton.1 hx, isOpen_op]
      simpa using h

/-- The gate, if there is one, is closed. -/
def ClosedOption (gate : Option Value) : Prop := ∀ g, gate = some g → g.isOpen = false

theorem andConds_emits (hg : ClosedOption gate) (hx : x.isOpen = false) (ctx : Ctx) :
    Emits ctx (andConds ctx gate x).2 ∧ (andConds ctx gate x).1.isOpen = false := by
  cases gate with
  | none => exact ⟨.refl _, hx⟩
  | some g =>
    have hg' := hg g rfl
    refine ⟨emits_emit _ _ (by simp [hg', hx]), ?_⟩
    simp [andConds, hg', hx]

theorem ifGates_emits (hg : ClosedOption gate) (hc : c.isOpen = false) (ctx : Ctx) :
    ∃ thenCond elseCond ctx', ifGates ctx c gate = .ok (thenCond, elseCond, ctx') ∧
      Emits ctx ctx' := by
  unfold ifGates
  simp only [isInt_of_closed c hc, if_true]
  refine ⟨_, _, _, rfl, ?_⟩
  refine (andConds_emits hg hc ctx).1.trans ?_
  refine (emits_emit _ _ (by simp)).trans ((emits_emit _ _ ?_).trans (andConds_emits hg ?_ _).1)
  · simp [hc]
  · simp [hc]

theorem notCovered_emits (hc : c.isOpen = false) (ctx : Ctx) :
    Emits ctx (notCovered ctx c).2 ∧ (notCovered ctx c).1.isOpen = false := by
  refine ⟨(emits_emit _ _ (by simp)).trans (emits_emit _ _ ?_), ?_⟩
  · simp [hc]
  · simp [notCovered, hc]

theorem caseGate_emits (hg : ClosedOption gate) (hv : ClosedOption covered)
    (hc : c.isOpen = false) (ctx : Ctx) : Emits ctx (caseGate ctx c gate covered).2 := by
  unfold caseGate
  cases covered with
  | none =>
    refine (emits_emit _ _ (by simp)).trans ((emits_emit _ _ ?_).trans (andConds_emits hg ?_ _).1)
    · simp [hc]
    · simp [hc]
  | some k =>
    have hk := hv k rfl
    refine (notCovered_emits hk ctx).1.trans
      ((emits_emit _ _ ?_).trans (andConds_emits hg ?_ _).1)
    · simp [hk, hc]
    · simp [hk, hc]

theorem coverCase_emits (hv : ClosedOption covered) (hc : c.isOpen = false) (ctx : Ctx) :
    Emits ctx (coverCase ctx c covered).2 := by
  cases covered with
  | none => exact .refl _
  | some k => exact emits_emit _ _ (by simp [hv k rfl, hc])

theorem defaultGate_emits (hg : ClosedOption gate) (hv : ClosedOption covered) (ctx : Ctx) :
    Emits ctx (defaultGate ctx gate covered).2 := by
  cases covered with
  | none => exact .refl _
  | some k =>
    have hk := notCovered_emits (hv k rfl) ctx
    exact hk.1.trans (andConds_emits hg hk.2 _).1

theorem gatedWrite_emits (hg : ClosedOption gate) (hx : x.isOpen = false) {prev : Option Value}
    (hp : ClosedOption prev) (w : ℕ) (ctx : Ctx) : Emits ctx (gatedWrite ctx gate x prev w).2 := by
  unfold gatedWrite
  cases gate with
  | none => exact .refl _
  | some g =>
    have hg' := hg g rfl
    cases prev with
    | some p => exact emits_emit _ _ (by simp [hg', hx, hp p rfl])
    | none =>
      exact (emits_emit _ _ (by simp)).trans (emits_emit _ _ (by simp [hg', hx]))

theorem lowerUnary_emits (k : UnOp) (hx : x.isOpen = false) (ctx : Ctx) :
    Emits ctx (lowerUnary ctx k x).2 := by
  have hconst : ∀ (c k' : CombOp) (args : List Value), (∀ y ∈ args, y.isOpen = false) →
      Emits ctx ((ctx.emit c []).2.emit k' args).2 := fun c k' args h =>
    (emits_emit ctx c (by simp)).trans (emits_emit _ k' h)
  cases k with
  | reduceXor => exact emits_emit _ _ (by simp [hx])
  | _ => exact hconst _ _ _ (by simp [hx])

/-- An expression op on closed operands is lowered. -/
theorem lowerBitOp_emits {e : Expr} (w : ℕ)
    (h : ∀ v ∈ e.operands, (ctx.lookupValue v).isOpen = false) :
    ∃ x ctx', lowerBitOp ctx w e = .ok (x, ctx') ∧ Emits ctx ctx' := by
  have hargs : ∀ y ∈ e.operands.map ctx.lookupValue, y.isOpen = false := by
    simpa using h
  have hint : ∀ v ∈ e.operands, (ctx.lookupValue v).ty.isInt = true :=
    fun v hv => isInt_of_closed _ (h v hv)
  cases e with
  | constant value => exact ⟨_, _, rfl, emits_emit _ _ hargs⟩
  | bin k a b => exact ⟨_, _, rfl, emits_emit _ _ hargs⟩
  | un k a =>
    simp only [lowerBitOp, hint a (by simp [Expr.operands]), or_true, if_true]
    exact ⟨_, _, rfl, lowerUnary_emits k (h a (by simp [Expr.operands])) ctx⟩
  | signExtend a =>
    have ha := h a (by simp [Expr.operands])
    simp only [lowerBitOp, hint a (by simp [Expr.operands]), if_true]
    split
    · exact ⟨_, _, rfl, .refl _⟩
    · refine ⟨_, _, rfl, (emits_emit _ _ (by simp [ha])).trans ((emits_emit _ _ ?_).trans
        (emits_emit _ _ ?_))⟩ <;> simp [ha]
  | zeroExtend a =>
    have ha := h a (by simp [Expr.operands])
    simp only [lowerBitOp, hint a (by simp [Expr.operands]), if_true]
    split
    · exact ⟨_, _, rfl, .refl _⟩
    · exact ⟨_, _, rfl, (emits_emit _ _ (by simp)).trans (emits_emit _ _ (by simp [ha]))⟩
  | mux c t f => exact ⟨_, _, rfl, emits_emit _ _ hargs⟩
  | concat vs => exact ⟨_, _, rfl, emits_emit _ _ hargs⟩
  | extract a low => exact ⟨_, _, rfl, emits_emit _ _ hargs⟩
  | «repeat» a n =>
    simp only [lowerBitOp, hint a (by simp [Expr.operands]), if_true]
    exact ⟨_, _, rfl, emits_emit _ _ hargs⟩

end Emits

/-! ## The invariant -/

/-- The context after accesses `done`, which left `k` known, holds what
the environment `E` says. -/
structure Follows (ρ : Valuation) (E : Val → Bits) (outs : List (Val × String)) (clk : Bool)
    (done : List Act) (k : Known) (ctx : Ctx) : Prop where
  vals : ∀ v ∈ k.vals, ∃ x, ctx.valueMap v = some x ∧ ClosedRel ρ x (E v) ∧ x.width = v.width
  ports : ctx.outputPortValues = outs
  inner : ∀ v ∈ k.vals, portName outs v = ""
  named : ∀ v ∈ k.outs, portName outs v ≠ ""
  driven : ∀ v ∈ k.outs, ∃ x, ctx.outputAssignment? (portName outs v) = some x ∧ ClosedRel ρ x (E v)
  undriven : ∀ name, (∀ v ∈ k.outs, portName outs v ≠ name) → ctx.outputAssignment? name = none
  wireList : ctx.wires.map WireInfo.origResult = k.wires
  wires_nodup : k.wires.Nodup
  drivers : ∀ w ∈ ctx.wires,
    w.pendingDriver = if w.origResult ∈ k.vals then ctx.valueMap w.origResult else none
  regList : ctx.regs.length = k.regs.length
  regs_nodup : k.regs.Nodup
  regs_apart : ∀ v ∈ k.regs, v ∉ k.wires
  reg : ∀ i v, k.regs[i]? = some v → v ∈ k.vals ∧ ctx.valueMap v = some (.reg i v.width) ∧
    ∃ r, ctx.regs[i]? = some r ∧ r.defaultPrev = .reg i v.width ∧
      ClosedRel ρ r.pendingNext (nextValue E v done) ∧ r.pendingNext.width = v.width
  body : ∀ x ∈ ctx.body, x.isOpen = false
  reads : ∀ p ∈ ctx.reads, p.1 ∈ k.vals ∧ ctx.valueMap p.1 = some p.2
  clocked : ctx.clocked = clk

section Walk

variable {ρ : Valuation} {E : Val → Bits} {outs : List (Val × String)} {clk : Bool} {done : List Act}
  {k k' : Known} {ctx ctx' : Ctx} {gate : Option Value} {gs : Guards Val}

theorem Follows.lookup (h : Follows ρ E outs clk done k ctx) {v : Val} (hv : v ∈ k.vals) :
    ClosedRel ρ (ctx.lookupValue v) (E v) ∧ (ctx.lookupValue v).width = v.width := by
  obtain ⟨x, hx, hrel, hw⟩ := h.vals v hv
  simp only [Ctx.lookupValue, hx, Option.getD_some]
  exact ⟨hrel, hw⟩

theorem Follows.emits (h : Follows ρ E outs clk done k ctx) (he : Emits ctx ctx') :
    Follows ρ E outs clk done k ctx' where
  vals := fun v hv => by rw [he.tables.valueMap]; exact h.vals v hv
  ports := by rw [he.tables.outputPortValues, h.ports]
  inner := h.inner
  named := h.named
  driven := fun v hv => by
    simp only [Ctx.outputAssignment?, he.tables.outputAssignments]
    exact h.driven v hv
  undriven := fun name hn => by
    simp only [Ctx.outputAssignment?, he.tables.outputAssignments]
    exact h.undriven name hn
  wireList := by rw [he.tables.wires, h.wireList]
  wires_nodup := h.wires_nodup
  drivers := by rw [he.tables.wires, he.tables.valueMap]; exact h.drivers
  regList := by rw [he.tables.regs, h.regList]
  regs_nodup := h.regs_nodup
  regs_apart := h.regs_apart
  reg := by rw [he.tables.valueMap, he.tables.regs]; exact h.reg
  body := he.body h.body
  reads := by rw [he.tables.valueMap, he.reads]; exact h.reads
  clocked := he.clocked.trans h.clocked

/-- A read of known values. -/
theorem Follows.observe (h : Follows ρ E outs clk done k ctx) {vs : List Val}
    (hvs : ∀ v ∈ vs, v ∈ k.vals) : Follows ρ E outs clk done k (ctx.observe vs) where
  vals := h.vals
  ports := h.ports
  inner := h.inner
  named := h.named
  driven := h.driven
  undriven := h.undriven
  wireList := h.wireList
  wires_nodup := h.wires_nodup
  drivers := h.drivers
  regList := h.regList
  regs_nodup := h.regs_nodup
  regs_apart := h.regs_apart
  reg := h.reg
  body := h.body
  reads := fun p hp => by
    rcases List.mem_append.1 hp with hp | hp
    · exact h.reads p hp
    · obtain ⟨v, hv, rfl⟩ := List.mem_map.1 hp
      obtain ⟨x, hx, -⟩ := h.vals v (hvs v hv)
      refine ⟨hvs v hv, ?_⟩
      simp only [Ctx.lookupValue, Ctx.observe, hx, Option.getD_some]
  clocked := h.clocked

/-- Accesses that leave every register alone. -/
theorem Follows.silent (h : Follows ρ E outs clk done k ctx) {as : List Act}
    (has : ∀ a ∈ as, ∀ r ∈ k.regs, ∀ b, a.next E r b = b) :
    Follows ρ E outs clk (done ++ as) k ctx := by
  refine { h with reg := fun i v hi => ?_ }
  obtain ⟨hv, hmap, r, hr, hprev, hnext⟩ := h.reg i v hi
  refine ⟨hv, hmap, r, hr, hprev, ?_⟩
  have hmem := List.mem_of_getElem? hi
  have hsame : nextValue E v (done ++ as) = nextValue E v done := by
    unfold nextValue
    rw [List.foldl_append]
    generalize done.foldl (Act.next E v) (E v) = b
    induction as with
    | nil => rfl
    | cons a as ih =>
      rw [List.foldl_cons, has a (by simp) v hmem]
      exact ih fun a' ha' => has a' (by simp [ha'])
  rw [hsame]
  exact hnext

theorem emits_queue (ctx : Ctx) (v : Val) : Emits ctx (ctx.queue v) :=
  ⟨sameTables_queue ctx v, rfl, rfl, fun h => h⟩

theorem fresh_iff {v : Val} :
    k.fresh outs v = true ↔ (v ∉ k.vals ∧ v ∉ k.wires) ∧ portName outs v = "" := by
  simp [Known.fresh]

/-- A new result with its value. -/
theorem Follows.define (h : Follows ρ E outs clk done k ctx) {res : Val} {x : Value}
    (hfresh : k.fresh outs res = true) (hx : ClosedRel ρ x (E res)) (hw : x.width = res.width) :
    Follows ρ E outs clk done { k with vals := res :: k.vals } (ctx.recordValueMapping res x) := by
  obtain ⟨⟨hvals, hwires⟩, hname⟩ := fresh_iff.1 hfresh
  have hmap : ∀ v ∈ k.vals, (ctx.recordValueMapping res x).valueMap v = ctx.valueMap v := by
    intro v hv
    have hne : v ≠ res := fun he => hvals (he ▸ hv)
    simp [Ctx.recordValueMapping, hne]
  refine { h with vals := ?_, inner := ?_, drivers := ?_, reg := ?_, reads := ?_ }
  · intro v hv
    rcases List.mem_cons.1 hv with rfl | hv
    · exact ⟨x, by simp [Ctx.recordValueMapping], hx, hw⟩
    · rw [hmap v hv]
      exact h.vals v hv
  · intro v hv
    rcases List.mem_cons.1 hv with rfl | hv
    · exact hname
    · exact h.inner v hv
  · intro w hmem
    have hw' : w.origResult ∈ k.wires := by
      rw [← h.wireList]
      exact List.mem_map_of_mem hmem
    have hne : w.origResult ≠ res := fun he => hwires (he ▸ hw')
    rw [h.drivers w hmem]
    simp [Ctx.recordValueMapping, hne]
  · intro i v hi
    obtain ⟨hv, hm, hr⟩ := h.reg i v hi
    exact ⟨by simp [hv], (hmap v hv).trans hm, hr⟩
  · intro p hp
    obtain ⟨hv, hm⟩ := h.reads p hp
    exact ⟨by simp [hv], (hmap p.1 hv).trans hm⟩

/-- The transfer to a wire. -/
theorem Follows.driveWire (h : Follows ρ E outs clk done k ctx) {dst : Val} {x : Value}
    (hdst : dst ∈ k.wires) (hnew : dst ∉ k.vals) (hname : portName outs dst = "")
    (hx : ClosedRel ρ x (E dst)) (hw : x.width = dst.width) :
    Follows ρ E outs clk done { k with vals := dst :: k.vals } (ctx.driveWire dst x) := by
  have hmap : ∀ v ∈ k.vals, (ctx.driveWire dst x).valueMap v = ctx.valueMap v := by
    intro v hv
    have hne : v ≠ dst := fun he => hnew (he ▸ hv)
    simp [Ctx.driveWire, Ctx.recordValueMapping, hne]
  have hlist : (ctx.driveWire dst x).wires.map WireInfo.origResult = k.wires := by
    refine Eq.trans ?_ h.wireList
    apply map_updateFirst
    exact fun _ => rfl
  refine { h with vals := ?_, inner := ?_, wireList := hlist, drivers := ?_, reg := ?_, reads := ?_ }
  · intro v hv
    rcases List.mem_cons.1 hv with rfl | hv
    · exact ⟨x, by simp [Ctx.driveWire, Ctx.recordValueMapping], hx, hw⟩
    · rw [hmap v hv]
      exact h.vals v hv
  · intro v hv
    rcases List.mem_cons.1 hv with rfl | hv
    · exact hname
    · exact h.inner v hv
  · intro w hmem
    have hfind : (ctx.driveWire dst x).wireInfo? w.origResult = some w :=
      find?_of_nodup WireInfo.origResult (hlist ▸ h.wires_nodup) hmem
    rw [wireInfo?_driveWire] at hfind
    by_cases he : w.origResult = dst
    · rw [if_pos he] at hfind
      obtain ⟨w', -, hw'⟩ := Option.map_eq_some_iff.1 hfind
      rw [← hw'] at he ⊢
      simp only at he
      simp [he, Ctx.driveWire, Ctx.recordValueMapping]
    · rw [if_neg he] at hfind
      have hold := h.drivers w (List.mem_of_find?_eq_some hfind)
      rw [hold]
      simp [he, Ctx.driveWire, Ctx.recordValueMapping]
  · intro i v hi
    obtain ⟨hv, hm, hr⟩ := h.reg i v hi
    exact ⟨by simp [hv], (hmap v hv).trans hm, hr⟩
  · intro p hp
    obtain ⟨hv, hm⟩ := h.reads p hp
    exact ⟨by simp [hv], (hmap p.1 hv).trans hm⟩

/-- The transfer to an output port. -/
theorem Follows.assignOutput (h : Follows ρ E outs clk done k ctx) {dst : Val} {x : Value}
    (hnames : ∀ u v, portName outs u ≠ "" → portName outs u = portName outs v → u = v)
    (hnew : dst ∉ k.outs) (hname : portName outs dst ≠ "") (hx : ClosedRel ρ x (E dst)) :
    Follows ρ E outs clk done { k with outs := dst :: k.outs }
      (ctx.assignOutput (portName outs dst) x) := by
  refine { h with named := ?_, driven := ?_, undriven := ?_ }
  · intro v hv
    rcases List.mem_cons.1 hv with rfl | hv
    · exact hname
    · exact h.named v hv
  · intro v hv
    rw [outputAssignment?_assignOutput]
    by_cases he : v = dst
    · subst he
      exact ⟨x, by simp, hx⟩
    · have hv' : v ∈ k.outs := by simpa [he] using hv
      have hne : portName outs v ≠ portName outs dst :=
        fun hn => he (hnames v dst (h.named v hv') hn)
      rw [if_neg hne]
      exact h.driven v hv'
  · intro name hn
    have hdst := hn dst (by simp)
    rw [outputAssignment?_assignOutput, if_neg (fun he => hdst he.symm)]
    exact h.undriven name fun v hv => hn v (by simp [hv])

theorem nextValue_append (E : Val → Bits) (r : Val) (as : List Act) (a : Act) :
    nextValue E r (as ++ [a]) = a.next E r (nextValue E r as) := by
  simp [nextValue]

theorem Follows.same_defaultPrev (h : Follows ρ E outs clk done k ctx) {j : ℕ} {dst : Val}
    (hj : k.regs[j]? = some dst) :
    ∀ i r, ctx.regs[i]? = some r → r.defaultPrev.same (.reg j dst.width) = decide (i = j) := by
  refine Lower.same_defaultPrev h.regList (fun i v hi => ?_) hj
  obtain ⟨-, -, r, hr, hprev, -⟩ := h.reg i v hi
  exact ⟨r, hr, hprev⟩

/-- A register's next value replaced by an access to it. -/
theorem Follows.driveReg (h : Follows ρ E outs clk done k ctx) {dst : Val} {j : ℕ} {x : Value} {a : Act}
    (hj : k.regs[j]? = some dst) (hother : ∀ r b, r ≠ dst → a.next E r b = b)
    (hx : ClosedRel ρ x (a.next E dst (nextValue E dst done))) (hw : x.width = dst.width) :
    Follows ρ E outs clk (done ++ [a]) k (ctx.driveReg (.reg j dst.width) x) := by
  refine { h with regList := (length_updateFirst _).trans h.regList, reg := fun i v hi => ?_ }
  obtain ⟨hv, hmap, r, hr, hprev, hnext⟩ := h.reg i v hi
  refine ⟨hv, hmap, ?_⟩
  simp only [Ctx.driveReg, getElem?_updateFirst (h.same_defaultPrev hj), nextValue_append]
  by_cases hij : i = j
  · subst hij
    obtain rfl : v = dst := Option.some.inj (hi.symm.trans hj)
    rw [if_pos rfl, hr]
    exact ⟨{ r with pendingNext := x }, rfl, hprev, hx, hw⟩
  · have hne : v ≠ dst := by
      rintro rfl
      exact hij ((List.getElem?_inj (List.getElem?_eq_some_iff.1 hi).1 h.regs_nodup).1
        (hi.trans hj.symm))
    rw [if_neg hij, hother v _ hne]
    exact ⟨r, hr, hprev, hnext⟩

/-- The register a known result stands for. -/
theorem Follows.regInfo (h : Follows ρ E outs clk done k ctx) {dst : Val} (hdst : dst ∈ k.regs) :
    ∃ j r, k.regs[j]? = some dst ∧ ctx.lookupValue dst = .reg j dst.width ∧
      ctx.regInfo? (.reg j dst.width) = some r ∧
      ClosedRel ρ r.pendingNext (nextValue E dst done) ∧ r.pendingNext.width = dst.width := by
  obtain ⟨j, hj⟩ := List.mem_iff_getElem?.1 hdst
  obtain ⟨-, hmap, r, hr, -, hnext⟩ := h.reg j dst hj
  refine ⟨j, r, hj, by simp [Ctx.lookupValue, hmap], ?_, hnext⟩
  exact (find?_eq_getElem? (h.same_defaultPrev hj)).trans hr

/-! ## Accesses -/

/-- A gate that stands for guards over known values. -/
def GateHolds (ρ : Valuation) (E : Val → Bits) (gate : Option Value) (gs : Guards Val) : Prop :=
  GateFor (ClosedGate ρ) gate (Guards.values E gs)

theorem GateHolds.closed (h : GateHolds ρ E gate gs) : ClosedOption gate := by
  rintro g rfl
  exact h.1

theorem gatedWrite_closed (hg : GateHolds ρ E gate gs) {x p : Value} {b c : Bits}
    (hx : ClosedRel ρ x b) (hp : ClosedRel ρ p c) (hw : p.width = x.width) (w : ℕ) (ctx : Ctx) :
    ClosedRel ρ (gatedWrite ctx gate x (some p) w).1
      (if (Guards.values E gs).hold then b else c) ∧
      (gatedWrite ctx gate x (some p) w).1.width = x.width := by
  cases gate with
  | none =>
    have : Guards.values E gs = [] := hg
    rw [this]
    exact ⟨hx, rfl⟩
  | some g =>
    exact ⟨(respectsOps_closed ρ fun _ => .const 0 0).guarded _ g _ x b p c hg hx hp hw, rfl⟩

theorem follows_expr (h : Follows ρ E outs clk done k ctx) {res : Val} {e : Expr}
    (hk : k.step outs (.define res e) = some k')
    (heq : E res = e.den res.width (e.operands.map E)) :
    ∃ ctx', lowerExprOp (ctx.observe e.operands) res e = .ok ctx' ∧
      Follows ρ E outs clk (done ++ [.define res e]) k' ctx' := by
  simp only [Known.step, Option.ite_none_right_eq_some, Bool.and_eq_true, decide_eq_true_eq,
    Option.some.injEq] at hk
  obtain ⟨⟨⟨hfresh, hv⟩, hops⟩, rfl⟩ := hk
  have h₁ := h.observe hops
  obtain ⟨x, ctx', hok, hem⟩ := lowerBitOp_emits (e := e) res.width
    fun v hv => (h₁.lookup (hops v hv)).1.1
  have hlow := lowerBitOp_lowered hok
  have htyped : OperandsTyped (ctx.observe e.operands) e.operands :=
    fun v hv => (h₁.lookup (hops v hv)).2
  have hvals : List.Forall₂ (fun v d => ClosedRel ρ ((ctx.observe e.operands).lookupValue v) d)
      e.operands (e.operands.map E) := by
    rw [List.forall₂_map_right_iff, List.forall₂_same]
    exact fun v hv => (h₁.lookup (hops v hv)).1
  have hx := (respectsOps_closed ρ fun _ => .const 0 0).expr _ _ _ _ _ _ hlow hv htyped hvals
  refine ⟨(ctx'.recordValueMapping res x).queue res, ?_, ?_⟩
  · simp [lowerExprOp, hok, bind, Except.bind, pure, Except.pure]
  · refine Follows.emits ?_ (emits_queue _ _)
    refine Follows.silent ?_ (by simp [Act.next])
    exact (h₁.emits hem).define hfresh (heq ▸ hx) (hlow.width hv htyped)

theorem follows_transfer (h : Follows ρ E outs clk done k ctx) {dst src : Val}
    (hnames : ∀ u v, portName outs u ≠ "" → portName outs u = portName outs v → u = v)
    (hk : k.step outs (.drive dst src) = some k') (heq : E dst = E src) :
    ∃ ctx', lowerTransferOp (ctx.observe [src]) dst src none = .ok ctx' ∧
      Follows ρ E outs clk (done ++ [.drive dst src]) k' ctx' := by
  simp only [Known.step] at hk
  split at hk
  · rename_i hsrc
    have h₁ : Follows ρ E outs clk done k (ctx.observe [src]) := h.observe (by simpa using hsrc.2)
    obtain ⟨hx, hw⟩ := h₁.lookup hsrc.2
    have hname : (ctx.observe [src]).getOutputPortName dst = portName outs dst := by
      simp only [Ctx.getOutputPortName, portName, h₁.ports]
    simp only [lowerTransferOp, hname, gatedWrite, Option.isSome_none, Bool.false_and,
      Bool.false_eq_true, if_false]
    split at hk
    · rename_i hout
      simp only [Option.ite_none_right_eq_some, Option.some.injEq] at hk
      obtain ⟨hnew, rfl⟩ := hk
      rw [if_pos hout]
      refine ⟨_, rfl, Follows.silent ?_ (by simp [Act.next])⟩
      exact h₁.assignOutput hnames hnew hout (heq ▸ hx)
    · rename_i hout
      simp only [Option.ite_none_right_eq_some, Option.some.injEq] at hk
      obtain ⟨⟨hmem, hnew⟩, rfl⟩ := hk
      rw [if_neg hout]
      have hmem' : dst ∈ (ctx.observe [src]).wires.map WireInfo.origResult := h₁.wireList ▸ hmem
      have hsome : ((ctx.observe [src]).wireInfo? dst).isSome := by
        simpa [Ctx.wireInfo?, List.find?_isSome] using hmem'
      obtain ⟨w, hwi⟩ := Option.isSome_iff_exists.1 hsome
      simp only [hwi]
      refine ⟨_, rfl, Follows.silent ?_ (by simp [Act.next])⟩
      exact h₁.driveWire hmem hnew (by simpa using hout) (heq ▸ hx) (hw.trans hsrc.1.symm)
  · exact absurd hk (by simp)

theorem follows_clocked (h : Follows ρ E outs clk done k ctx) {dst src : Val}
    (hg : GateHolds ρ E gate gs) (hk : k.step outs (.clocked dst src gs) = some k') :
    ∃ ctx', lowerClockedTransferOp (ctx.observe [src]) dst src gate = .ok ctx' ∧
      Follows ρ E outs clk (done ++ [.clocked dst src gs]) k' ctx' := by
  simp only [Known.step, Option.ite_none_right_eq_some, Option.some.injEq] at hk
  obtain ⟨⟨hdst, hsrc, hw, -⟩, rfl⟩ := hk
  have h₁ : Follows ρ E outs clk done k (ctx.observe [src]) := h.observe (by simpa using hsrc)
  obtain ⟨hx, hxw⟩ := h₁.lookup hsrc
  obtain ⟨j, r, hj, hlook, hinfo, hnext, hnw⟩ := h₁.regInfo hdst
  have hcl := gatedWrite_closed hg hx hnext (by rw [hnw, hxw, hw]) 0 (ctx.observe [src])
  refine ⟨_, by simp only [lowerClockedTransferOp, hlook, hinfo]; rfl, ?_⟩
  refine (h₁.emits (gatedWrite_emits hg.closed hx.1 ?_ 0 _)).driveReg hj ?_ ?_ ?_
  · rintro p hp
    obtain rfl := Option.some.inj hp
    exact hnext.1
  · intro v b hv
    simp only [Act.next]
    rw [if_neg (fun hc => hv hc.1.symm)]
  · simpa [Act.next] using hcl.1
  · rw [hcl.2, hxw, hw]

/-! ## `nsl.any` -/

/-- What is gathered for a register, in the context and in the list of
accesses. -/
structure TermsRel (ρ : Valuation) (E : Val → Bits) (k : Known) (a : AnyTargetAccum) (b : AnyTerms) :
    Prop where
  target : a.target = b.target
  clocked : a.isClocked = true
  reg : b.target ∈ k.regs
  terms : b.terms ≠ []
  value : ClosedRel ρ a.orAccum (joinValue E b.terms)
  width : a.orAccum.width = b.target.width

theorem TermsRel.mono {a : AnyTargetAccum} {b : AnyTerms} (h : TermsRel ρ E k a b)
    (hk : ∀ v ∈ k.regs, v ∈ k'.regs) : TermsRel ρ E k' a b :=
  { h with reg := hk _ h.reg }

theorem joinValue_append (E : Val → Bits) {ts : List (Guards Val × Val)} (h : ts ≠ [])
    (t : Guards Val × Val) :
    joinValue E (ts ++ [t]) = (joinValue E ts).map₂ (termValue E t) (· ||| ·) := by
  cases ts with
  | nil => exact absurd rfl h
  | cons t' ts => simp [joinValue]

theorem closedRel_or {x y : Value} {b c : Bits} (hx : ClosedRel ρ x b) (hy : ClosedRel ρ y c)
    (i : ℕ) : ClosedRel ρ (.op i .or [x, y]) (b.map₂ c (· ||| ·)) :=
  ⟨by simp [hx.1, hy.1], by simp [CombOp.den, hx.2, hy.2]⟩

/-- One more write to a register gathered already. -/
theorem updateFirst_terms {accums : List AnyTargetAccum} {accs : List AnyTerms}
    (h : List.Forall₂ (TermsRel ρ E k) accums accs) {dst : Val} {a : AnyTargetAccum}
    (hfind : (accums.find? fun a => a.target = dst && a.isClocked == true) = some a)
    {t : Guards Val × Val} {x : Value} (hx : ClosedRel ρ x (termValue E t)) (i : ℕ) :
    List.Forall₂ (TermsRel ρ E k)
      (updateFirst (fun a => a.target = dst && a.isClocked == true)
        (fun a' => { a' with orAccum := .op i .or [a.orAccum, x] }) accums)
      (updateFirst (fun b => b.target = dst) (fun b => { b with terms := b.terms ++ [t] }) accs) := by
  induction h with
  | nil => exact absurd hfind (by simp)
  | @cons a' b' as bs hab hrest ih =>
    by_cases hd : b'.target = dst
    · subst hd
      have hp : (decide (a'.target = b'.target) && a'.isClocked == true) = true := by
        simp [hab.target, hab.clocked]
      simp only [List.find?_cons, hp] at hfind
      obtain rfl := Option.some.inj hfind
      simp only [updateFirst, hp, if_true, decide_true]
      refine .cons ⟨hab.target, hab.clocked, hab.reg, by simp, ?_, hab.width⟩ hrest
      rw [joinValue_append E hab.terms]
      exact closedRel_or hab.value hx i
    · have hp : (decide (a'.target = dst) && a'.isClocked == true) = false := by
        simp [hab.target, hd]
      simp only [List.find?_cons, hp] at hfind
      simp only [updateFirst, hp, hd, decide_false]
      exact .cons hab (ih hfind)

theorem find?_terms {accums : List AnyTargetAccum} {accs : List AnyTerms}
    (h : List.Forall₂ (TermsRel ρ E k) accums accs) (dst : Val) :
    (accums.find? fun a => a.target = dst && a.isClocked == true).isSome =
      (accs.find? fun b => b.target = dst).isSome := by
  induction h with
  | nil => rfl
  | cons hab hrest ih =>
    simp only [List.find?_cons, hab.target, hab.clocked, beq_self_eq_true, Bool.and_true]
    split
    · rfl
    · exact ih

theorem follows_gather (h : Follows ρ E outs clk done k ctx) {dst src : Val} {caseCond : Value}
    (hg : ClosedGate ρ caseCond (Guards.values E gs)) {accums : List AnyTargetAccum}
    {accs : List AnyTerms} (ha : List.Forall₂ (TermsRel ρ E k) accums accs)
    (hk : k.step outs (.gather dst src) = some k') :
    ∃ ctx' accums', accumulateAny (ctx.observe [src]) dst src true caseCond accums =
        .ok (ctx', accums') ∧ Follows ρ E outs clk (done ++ [.gather dst src]) k' ctx' ∧
      List.Forall₂ (TermsRel ρ E k') accums' (addTerm dst (gs, src) accs) := by
  simp only [Known.step, Option.ite_none_right_eq_some, Option.some.injEq] at hk
  obtain ⟨⟨hdst, hsrc, hw⟩, rfl⟩ := hk
  have h₁ : Follows ρ E outs clk done k (ctx.observe [src]) := h.observe (by simpa using hsrc)
  obtain ⟨hx, hxw⟩ := h₁.lookup hsrc
  set c₁ := ctx.observe [src] with hc₁
  have hR := respectsOps_closed ρ fun _ => .const 0 0
  -- the envelope of this write
  set z := (c₁.emit (.constant (c₁.lookupValue src).width 0) []) with hz
  set env := z.2.emit .mux [caseCond, c₁.lookupValue src, z.1] with henv
  have henvRel : ClosedRel ρ env.1 (termValue E (gs, src)) := by
    have := hR.guarded z.2.body.length caseCond _ _ _ z.1 _ hg hx (hR.zero _ _) rfl
    rw [hxw] at this
    exact this
  have hem : Emits c₁ env.2 :=
    (emits_emit _ _ (by simp)).trans (emits_emit _ _ (by simp [hz, hg.1, hx.1]))
  have hwidth : env.1.width = dst.width := hxw.trans hw.symm
  have hfind := find?_terms ha dst
  unfold accumulateAny addTerm
  simp only [isInt_of_closed _ hx.1, if_true]
  cases hf : accums.find? fun a => decide (a.target = dst) && a.isClocked == true with
  | none =>
    rw [hf] at hfind
    refine ⟨env.2, accums ++ [⟨dst, true, env.1⟩], by simp only [← hz, ← henv], ?_, ?_⟩
    · exact Follows.silent (h₁.emits hem) (by simp [Act.next])
    · rw [if_neg (by simp [← hfind])]
      refine List.rel_append ha (.cons ⟨rfl, rfl, hdst, by simp, henvRel, hwidth⟩ .nil)
  | some a =>
    rw [hf] at hfind
    refine ⟨(env.2.emit .or [a.orAccum, env.1]).2, _, rfl, ?_, ?_⟩
    · have hclosed : ∀ a' ∈ accums, a'.orAccum.isOpen = false :=
        ((List.forall₂_and_left _ _).1 (ha.imp fun _ _ hab => ⟨hab.value.1, hab⟩)).1
      have ha' := hclosed a (List.mem_of_find?_eq_some hf)
      refine Follows.silent (h₁.emits (hem.trans (emits_emit _ _ ?_))) (by simp [Act.next])
      simp [ha', henvRel.1]
    · rw [if_pos (by simp [← hfind])]
      exact updateFirst_terms ha hf henvRel _

/-- What was gathered is joined to the registers. -/
theorem follows_joins {accums : List AnyTargetAccum} {accs : List AnyTerms}
    (ha : List.Forall₂ (TermsRel ρ E k) accums accs) {done : List Act} {ctx : Ctx}
    (h : Follows ρ E outs clk done k ctx) :
    ∃ ctx', accums.foldlM applyAccum ctx = .ok ctx' ∧
      Follows ρ E outs clk (done ++ accs.map fun b => .join b.target b.terms) k ctx' := by
  induction ha generalizing done ctx with
  | nil => exact ⟨ctx, rfl, by simpa using h⟩
  | @cons a b as bs hab _ ih =>
    obtain ⟨j, r, hj, hlook, hinfo, hnext, hnw⟩ := h.regInfo hab.reg
    have hval := closedRel_or hnext hab.value ctx.body.length
    have happly : applyAccum ctx a = .ok ((ctx.emit .or [r.pendingNext, a.orAccum]).2.driveReg
        (.reg j b.target.width) (.op ctx.body.length .or [r.pendingNext, a.orAccum])) := by
      simp only [applyAccum, hab.clocked, if_true, hab.target, hlook, hinfo]
      rfl
    have h₁ : Follows ρ E outs clk (done ++ [.join b.target b.terms]) k
        ((ctx.emit .or [r.pendingNext, a.orAccum]).2.driveReg
          (.reg j b.target.width) (.op ctx.body.length .or [r.pendingNext, a.orAccum])) := by
      refine (h.emits (emits_emit _ _ ?_)).driveReg hj ?_ ?_ hnw
      · simp [hnext.1, hab.value.1]
      · intro v c hv
        simp only [Act.next]
        rw [if_neg (fun hc => hv hc.symm)]
      · simpa [Act.next] using hval
    obtain ⟨ctx', hok, h'⟩ := ih h₁
    refine ⟨ctx', ?_, by simpa using h'⟩
    rw [List.foldlM_cons, happly]
    exact hok

/-! ## The walk -/

theorem steps_append {as bs : List Act} (h : k.steps outs (as ++ bs) = some k') :
    ∃ k₁, k.steps outs as = some k₁ ∧ k₁.steps outs bs = some k' := by
  unfold Known.steps at h ⊢
  rw [List.foldlM_append] at h
  exact Option.bind_eq_some_iff.1 h

theorem steps_cons {a : Act} {as : List Act} (h : k.steps outs (a :: as) = some k') :
    ∃ k₁, k.step outs a = some k₁ ∧ k₁.steps outs as = some k' := by
  unfold Known.steps at h ⊢
  rw [List.foldlM_cons] at h
  exact Option.bind_eq_some_iff.1 h

theorem step_decls {a : Act} (h : k.step outs a = some k') :
    k'.regs = k.regs ++ a.reg?.toList ∧ k'.wires = k.wires ++ a.wire?.toList := by
  unfold Known.step at h
  repeat' split at h
  all_goals
    first
    | obtain rfl := Option.some.inj h
      simp [Act.reg?, Act.wire?]
    | exact absurd h (by simp)

/-- The registers and wires known are those declared. -/
theorem steps_decls {as : List Act} (h : k.steps outs as = some k') :
    k'.regs = k.regs ++ as.filterMap Act.reg? ∧ k'.wires = k.wires ++ as.filterMap Act.wire? := by
  induction as generalizing k with
  | nil =>
    obtain rfl := Option.some.inj h
    simp
  | cons a as ih =>
    obtain ⟨k₁, ha, has⟩ := steps_cons h
    obtain ⟨hr, hw⟩ := ih has
    obtain ⟨hr₁, hw₁⟩ := step_decls ha
    rw [hr, hw, hr₁, hw₁]
    constructor
    · cases he : a.reg? <;> simp [he]
    · cases he : a.wire? <;> simp [he]

theorem step_test {cond : Val} (h : k.step outs (.test cond) = some k') :
    k' = k ∧ cond ∈ k.vals ∧ cond.width = 1 := by
  simp only [Known.step, Option.ite_none_right_eq_some, Option.some.injEq] at h
  exact ⟨h.2.symm, h.1⟩

theorem steps_joins {accs : List AnyTerms}
    (h : k.steps outs (accs.map fun b => .join b.target b.terms) = some k') : k' = k := by
  induction accs with
  | nil => exact (Option.some.inj h).symm
  | cons b bs ih =>
    obtain ⟨k₁, hb, hbs⟩ := steps_cons h
    simp only [Known.step, Option.ite_none_right_eq_some, Option.some.injEq] at hb
    obtain ⟨-, rfl⟩ := hb
    exact ih hbs

/-- The equation of an access, if it has one, holds. -/
def Act.Settled (ρ : Valuation) (E : Val → Bits) (a : Act) : Prop :=
  ∀ eq, a.assign? ρ = some eq → eq.Holds E

@[simp] theorem values_cons (E : Val → Bits) (g : Val × Bool) (gs : Guards Val) :
    Guards.values E (g :: gs) = (E g.1, g.2) :: Guards.values E gs := rfl

theorem values_caseGuards (E : Val → Bits) (cond : Val) (covered : List Val) (gs : Guards Val) :
    Guards.values E (caseGuards cond covered ++ gs) =
      caseGuards (E cond) (covered.map E) ++ Guards.values E gs := by
  simp [Guards.values, caseGuards]

theorem values_defaultGuards (E : Val → Bits) (covered : List Val) (gs : Guards Val) :
    Guards.values E (defaultGuards covered ++ gs) =
      defaultGuards (covered.map E) ++ Guards.values E gs := by
  simp [Guards.values, defaultGuards]

mutual

/-- **One op in order is lowered**, with what is nested in it. -/
theorem follows_op (hnames : ∀ u v, portName outs u ≠ "" → portName outs u = portName outs v → u = v)
    (op : Op) {top : Bool} {done : List Act} {k k' : Known} {ctx : Ctx} {gate : Option Value}
    {gs : Guards Val} (h : Follows ρ E outs clk done k ctx) (hg : GateHolds ρ E gate gs)
    (htop : top = true → gate = none) (hk : k.steps outs (acts top gs op) = some k')
    (heq : ∀ a ∈ acts top gs op, a.Settled ρ E) :
    ∃ ctx', lowerControlOp op ctx gate = .ok ctx' ∧
      Follows ρ E outs clk (done ++ acts top gs op) k' ctx' := by
  have hR := respectsOps_closed ρ fun _ => Bits.const 0 0
  cases op with
  | expr res e =>
    simp only [acts] at hk heq ⊢
    obtain ⟨k₁, hk₁, hnil⟩ := steps_cons hk
    obtain rfl := Option.some.inj hnil
    exact follows_expr h hk₁ (heq (.define res e) (by simp) _ rfl)
  | transfer dst src =>
    cases top with
    | false =>
      obtain ⟨k₁, hk, -⟩ := steps_cons hk
      exact absurd hk (by simp [Known.step])
    | true =>
      obtain rfl := htop rfl
      simp only [acts, if_true] at hk heq ⊢
      obtain ⟨k₁, hk₁, hnil⟩ := steps_cons hk
      obtain rfl := Option.some.inj hnil
      exact follows_transfer h hnames hk₁ (heq (.drive dst src) (by simp) _ rfl)
  | clockedTransfer dst src =>
    simp only [acts] at hk heq ⊢
    obtain ⟨k₁, hk₁, hnil⟩ := steps_cons hk
    obtain rfl := Option.some.inj hnil
    exact follows_clocked h hg hk₁
  | ifOp cond thenRegion elseRegion =>
    simp only [acts] at hk heq ⊢
    obtain ⟨k₁, hk, hrest⟩ := steps_cons hk
    obtain ⟨rfl, hcond, hcw⟩ := step_test hk
    obtain ⟨k₂, hthen, helse⟩ := steps_append hrest
    have h₁ : Follows ρ E outs clk done k₁ (ctx.observe [cond]) := h.observe (by simpa using hcond)
    obtain ⟨hc, hw⟩ := h₁.lookup hcond
    obtain ⟨thenCond, elseCond, ctx₁, hok, hem⟩ := ifGates_emits hg.closed hc.1 (ctx.observe [cond])
    obtain ⟨-, hgt, hge⟩ := ifGates_rel hR hg hc (hw.trans hcw) hok
    have h₂ : Follows ρ E outs clk (done ++ [.test cond]) k₁ ctx₁ :=
      (h₁.emits hem).silent (by simp [Act.next])
    have hgt' : GateHolds ρ E (some thenCond) ((cond, true) :: gs) := hgt.2
    have hge' : GateHolds ρ E (some elseCond) ((cond, false) :: gs) := hge.2
    obtain ⟨ctx₂, hok₂, h₃⟩ := follows_ops hnames thenRegion h₂ hgt' (by simp) hthen
      (fun a ha => heq a (by simp [ha]))
    obtain ⟨ctx₃, hok₃, h₄⟩ := follows_ops hnames elseRegion h₃ hge' (by simp) helse
      (fun a ha => heq a (by simp [ha]))
    refine ⟨ctx₃, ?_, by simpa using h₄⟩
    simp only [lowerControlOp, hok, bind, Except.bind, hok₂]
    exact hok₃
  | alt body =>
    have hcov : CoverRel (ClosedCover ρ) none (([] : List Val).map E) := rfl
    exact follows_alt hnames body h hg hcov hk heq
  | any body =>
    simp only [acts] at hk heq ⊢
    obtain ⟨k₁, hbody, hjoin⟩ := steps_append hk
    have hone : ∀ o : Value, none = some o → ClosedGate ρ o [] := by simp
    obtain ⟨ctx₁, accums, hok, h₁, ha⟩ := follows_any hnames body h hg hone .nil
      hbody (fun a ha => heq a (by simp [ha]))
    obtain rfl := steps_joins hjoin
    obtain ⟨ctx₂, hok₂, h₂⟩ := follows_joins ha h₁
    refine ⟨ctx₂, ?_, by simpa using h₂⟩
    simp only [lowerControlOp, hok, bind, Except.bind]
    exact hok₂
  | parallel body => exact follows_ops hnames body h hg htop hk heq
  | func symName body => exact follows_ops hnames body h hg htop hk heq
  | call callee =>
    obtain rfl := Option.some.inj hk
    refine ⟨_, rfl, Follows.emits (by simpa [acts] using h) ?_⟩
    unfold lowerCallOp
    split
    · rename_i g
      exact emits_emit _ _ (by simp [hg.1])
    · exact (emits_emit _ _ (by simp)).trans (emits_emit _ _ (by simp))
  | case cond body => exact absurd hk (by simp [acts, Known.steps, Known.step])
  | default body => exact absurd hk (by simp [acts, Known.steps, Known.step])
  | seq body => exact absurd hk (by simp [acts, Known.steps, Known.step])
  | other mnemonic => exact absurd hk (by simp [acts, Known.steps, Known.step])
  | _ =>
    obtain rfl := Option.some.inj hk
    exact ⟨ctx, rfl, by simpa [acts] using h⟩

theorem follows_ops
    (hnames : ∀ u v, portName outs u ≠ "" → portName outs u = portName outs v → u = v)
    (ops : List Op) {top : Bool} {done : List Act} {k k' : Known} {ctx : Ctx} {gate : Option Value}
    {gs : Guards Val} (h : Follows ρ E outs clk done k ctx) (hg : GateHolds ρ E gate gs)
    (htop : top = true → gate = none) (hk : k.steps outs (actsAll top gs ops) = some k')
    (heq : ∀ a ∈ actsAll top gs ops, a.Settled ρ E) :
    ∃ ctx', lowerControlOps ops ctx gate = .ok ctx' ∧
      Follows ρ E outs clk (done ++ actsAll top gs ops) k' ctx' := by
  cases ops with
  | nil =>
    obtain rfl := Option.some.inj hk
    exact ⟨ctx, rfl, by simpa [actsAll] using h⟩
  | cons op ops =>
    simp only [actsAll] at hk heq ⊢
    obtain ⟨k₁, hop, hrest⟩ := steps_append hk
    obtain ⟨ctx₁, hok₁, h₁⟩ := follows_op hnames op h hg htop hop (fun a ha => heq a (by simp [ha]))
    obtain ⟨ctx₂, hok₂, h₂⟩ := follows_ops hnames ops h₁ hg htop hrest
      (fun a ha => heq a (by simp [ha]))
    refine ⟨ctx₂, ?_, by simpa using h₂⟩
    simp only [lowerControlOps, hok₁, bind, Except.bind]
    exact hok₂

theorem follows_alt
    (hnames : ∀ u v, portName outs u ≠ "" → portName outs u = portName outs v → u = v)
    (children : List Op) {done : List Act} {k k' : Known} {ctx : Ctx}
    {gate covered : Option Value} {gs : Guards Val} {cs : List Val}
    (h : Follows ρ E outs clk done k ctx) (hg : GateHolds ρ E gate gs)
    (hcov : CoverRel (ClosedCover ρ) covered (cs.map E))
    (hk : k.steps outs (actsAlt gs cs children) = some k')
    (heq : ∀ a ∈ actsAlt gs cs children, a.Settled ρ E) :
    ∃ ctx', lowerAltChildren children ctx gate covered = .ok ctx' ∧
      Follows ρ E outs clk (done ++ actsAlt gs cs children) k' ctx' := by
  have hR := respectsOps_closed ρ fun _ => Bits.const 0 0
  have hcovc : ClosedOption covered := by
    rintro c rfl
    exact hcov.1
  cases children with
  | nil =>
    obtain rfl := Option.some.inj hk
    exact ⟨ctx, rfl, by simpa [actsAlt] using h⟩
  | cons child children =>
    cases child with
    | case cond body =>
      simp only [actsAlt] at hk heq ⊢
      obtain ⟨k₁, hk, hrest⟩ := steps_cons hk
      obtain ⟨rfl, hcond, hcw⟩ := step_test hk
      obtain ⟨k₂, hbody, hrest⟩ := steps_append hrest
      have h₁ : Follows ρ E outs clk done k₁ (ctx.observe [cond]) := h.observe (by simpa using hcond)
      obtain ⟨hc, hw⟩ := h₁.lookup hcond
      have h₂ : Follows ρ E outs clk (done ++ [.test cond]) k₁ _ :=
        (h₁.emits (caseGate_emits hg.closed hcovc hc.1 _)).silent (by simp [Act.next])
      have hgate : GateHolds ρ E
          (some (caseGate (ctx.observe [cond]) ((ctx.observe [cond]).lookupValue cond) gate
            covered).1) (caseGuards cond cs ++ gs) := by
        unfold GateHolds
        rw [values_caseGuards]
        exact (caseGate_rel hR hg hcov hc (hw.trans hcw) _).2
      obtain ⟨ctx₂, hok₂, h₃⟩ := follows_ops hnames body h₂ hgate (by simp) hbody
        (fun a ha => heq a (by simp [ha]))
      have hcov' : CoverRel (ClosedCover ρ)
          (some (coverCase ctx₂ ((ctx.observe [cond]).lookupValue cond) covered).1)
          ((cs ++ [cond]).map E) := by
        rw [List.map_append]
        exact coverCase_rel hR hcov hc (hw.trans hcw) _
      obtain ⟨ctx₃, hok₃, h₄⟩ := follows_alt hnames children
        (h₃.emits (coverCase_emits hcovc hc.1 _)) hg hcov' hrest (fun a ha => heq a (by simp [ha]))
      refine ⟨ctx₃, ?_, by simpa using h₄⟩
      simp only [lowerAltChildren, hok₂, bind, Except.bind]
      exact hok₃
    | default body =>
      simp only [actsAlt] at hk heq ⊢
      obtain ⟨k₁, hbody, hrest⟩ := steps_append hk
      have hgate : GateHolds ρ E (defaultGate ctx gate covered).1 (defaultGuards cs ++ gs) := by
        unfold GateHolds
        rw [values_defaultGuards]
        exact defaultGate_for hR hg hcov _
      obtain ⟨ctx₁, hok₁, h₁⟩ := follows_ops hnames body
        (h.emits (defaultGate_emits hg.closed hcovc _)) hgate (by simp) hbody
        (fun a ha => heq a (by simp [ha]))
      obtain ⟨ctx₂, hok₂, h₂⟩ := follows_alt hnames children h₁ hg hcov hrest
        (fun a ha => heq a (by simp [ha]))
      refine ⟨ctx₂, ?_, by simpa using h₂⟩
      simp only [lowerAltChildren, hok₁, bind, Except.bind]
      exact hok₂
    | _ => exact follows_alt hnames children h hg hcov hk heq

theorem follows_any
    (hnames : ∀ u v, portName outs u ≠ "" → portName outs u = portName outs v → u = v)
    (children : List Op) {done : List Act} {k k' : Known} {ctx : Ctx}
    {gate one : Option Value} {gs : Guards Val} {accums : List AnyTargetAccum}
    {accs : List AnyTerms} (h : Follows ρ E outs clk done k ctx) (hg : GateHolds ρ E gate gs)
    (hone : ∀ o, one = some o → ClosedGate ρ o [])
    (ha : List.Forall₂ (TermsRel ρ E k) accums accs)
    (hk : k.steps outs (actsAny gs accs children).1 = some k')
    (heq : ∀ a ∈ (actsAny gs accs children).1, a.Settled ρ E) :
    ∃ ctx' accums', lowerAnyChildren children ctx gate one accums = .ok (ctx', accums') ∧
      Follows ρ E outs clk (done ++ (actsAny gs accs children).1) k' ctx' ∧
      List.Forall₂ (TermsRel ρ E k') accums' (actsAny gs accs children).2 := by
  have hR := respectsOps_closed ρ fun _ => Bits.const 0 0
  cases children with
  | nil =>
    obtain rfl := Option.some.inj hk
    exact ⟨ctx, accums, rfl, by simpa [actsAny] using h, ha⟩
  | cons child children =>
    cases child with
    | case cond body =>
      simp only [actsAny] at hk heq ⊢
      obtain ⟨k₁, hk, hrest⟩ := steps_cons hk
      obtain ⟨rfl, hcond, hcw⟩ := step_test hk
      obtain ⟨k₂, hbody, hrest⟩ := steps_append hrest
      have h₁ : Follows ρ E outs clk done k₁ (ctx.observe [cond]) := h.observe (by simpa using hcond)
      obtain ⟨hc, hw⟩ := h₁.lookup hcond
      have h₂ : Follows ρ E outs clk (done ++ [.test cond]) k₁ _ :=
        (h₁.emits (andConds_emits hg.closed hc.1 _).1).silent (by simp [Act.next])
      have hgate : ClosedGate ρ
          (andConds (ctx.observe [cond]) gate ((ctx.observe [cond]).lookupValue cond)).1
          (Guards.values E ((cond, true) :: gs)) :=
        andConds_rel hR hg (hR.holds _ _ hc (hw.trans hcw)) _
      obtain ⟨ctx₂, accums₂, hok₂, h₃, ha₂⟩ := follows_anyBody hnames body h₂ hgate ha hbody
        (fun a ha => heq a (by simp [ha]))
      obtain ⟨ctx₃, accums₃, hok₃, h₄, ha₃⟩ := follows_any hnames children h₃ hg hone ha₂ hrest
        (fun a ha => heq a (by simp [ha]))
      refine ⟨ctx₃, accums₃, ?_, by simpa using h₄, ha₃⟩
      simp only [lowerAnyChildren, hok₂, bind, Except.bind]
      exact hok₃
    | default body =>
      simp only [actsAny] at hk heq ⊢
      obtain ⟨k₁, hbody, hrest⟩ := steps_append hk
      -- the gate of the default is the enclosing one, or the constant one
      have hcond : ∃ gated ctx₁ one', ClosedGate ρ gated (Guards.values E gs) ∧
          Emits ctx ctx₁ ∧ (∀ o, one' = some o → ClosedGate ρ o []) ∧
          lowerAnyChildren (.default body :: children) ctx gate one accums =
            (accumulateAnyCaseBody body ctx₁ gated accums >>= fun r =>
              lowerAnyChildren children r.1 gate one' r.2) := by
        cases gate with
        | some g => exact ⟨g, ctx, one, hg, .refl _, hone, by simp only [lowerAnyChildren]; rfl⟩
        | none =>
          have hgs : Guards.values E gs = [] := hg
          rw [hgs]
          cases one with
          | some o =>
            exact ⟨o, ctx, some o, hone o rfl, .refl _, hone, by simp only [lowerAnyChildren]; rfl⟩
          | none =>
            refine ⟨(ctx.emit (.constant 1 1) []).1, (ctx.emit (.constant 1 1) []).2,
              some (ctx.emit (.constant 1 1) []).1, hR.one _, emits_emit ctx _ (by simp), ?_, ?_⟩
            · rintro o ho
              obtain rfl := Option.some.inj ho
              exact hR.one _
            · simp only [lowerAnyChildren]
              rfl
      obtain ⟨gated, ctx₁, one', hgate, hem, hone', hlow⟩ := hcond
      obtain ⟨ctx₂, accums₂, hok₂, h₃, ha₂⟩ := follows_anyBody hnames body (h.emits hem) hgate ha
        hbody (fun a ha => heq a (by simp [ha]))
      obtain ⟨ctx₃, accums₃, hok₃, h₄, ha₃⟩ := follows_any hnames children h₃ hg hone' ha₂ hrest
        (fun a ha => heq a (by simp [ha]))
      refine ⟨ctx₃, accums₃, ?_, by simpa using h₄, ha₃⟩
      rw [hlow, hok₂]
      exact hok₃
    | _ => exact follows_any hnames children h hg hone ha hk heq

theorem follows_anyBody
    (hnames : ∀ u v, portName outs u ≠ "" → portName outs u = portName outs v → u = v)
    (ops : List Op) {done : List Act} {k k' : Known} {ctx : Ctx} {caseCond : Value}
    {gs : Guards Val} {accums : List AnyTargetAccum} {accs : List AnyTerms}
    (h : Follows ρ E outs clk done k ctx) (hg : ClosedGate ρ caseCond (Guards.values E gs))
    (ha : List.Forall₂ (TermsRel ρ E k) accums accs)
    (hk : k.steps outs (actsAnyBody gs accs ops).1 = some k')
    (heq : ∀ a ∈ (actsAnyBody gs accs ops).1, a.Settled ρ E) :
    ∃ ctx' accums', accumulateAnyCaseBody ops ctx caseCond accums = .ok (ctx', accums') ∧
      Follows ρ E outs clk (done ++ (actsAnyBody gs accs ops).1) k' ctx' ∧
      List.Forall₂ (TermsRel ρ E k') accums' (actsAnyBody gs accs ops).2 := by
  cases ops with
  | nil =>
    obtain rfl := Option.some.inj hk
    exact ⟨ctx, accums, rfl, by simpa [actsAnyBody] using h, ha⟩
  | cons op ops =>
    -- ops other than direct transfers are lowered under the case's gate
    have hother : (∀ dst src, op ≠ .transfer dst src) → (∀ dst src, op ≠ .clockedTransfer dst src) →
        ∃ ctx' accums', accumulateAnyCaseBody (op :: ops) ctx caseCond accums = .ok (ctx', accums') ∧
          Follows ρ E outs clk (done ++ (actsAnyBody gs accs (op :: ops)).1) k' ctx' ∧
          List.Forall₂ (TermsRel ρ E k') accums' (actsAnyBody gs accs (op :: ops)).2 := by
      intro ht hc
      have hacts : actsAnyBody gs accs (op :: ops) =
          (acts false gs op ++ (actsAnyBody gs accs ops).1, (actsAnyBody gs accs ops).2) := by
        cases op <;> first | rfl | exact absurd rfl (ht _ _) | exact absurd rfl (hc _ _)
      rw [hacts] at hk heq ⊢
      obtain ⟨k₁, hop, hrest⟩ := steps_append hk
      have hg' : GateHolds ρ E (some caseCond) gs := hg
      obtain ⟨ctx₁, hok₁, h₁⟩ := follows_op hnames op h hg' (by simp) hop
        (fun a ha => heq a (by simp [ha]))
      have ha' := ha.imp fun _ _ hab => hab.mono fun v hv => by rw [(steps_decls hop).1]; simp [hv]
      obtain ⟨ctx₂, accums₂, hok₂, h₂, ha₂⟩ := follows_anyBody hnames ops h₁ hg ha' hrest
        (fun a ha => heq a (by simp [ha]))
      refine ⟨ctx₂, accums₂, ?_, by simpa using h₂, ha₂⟩
      have hlow : accumulateAnyCaseBody (op :: ops) ctx caseCond accums =
          (lowerControlOp op ctx (some caseCond) >>= fun c =>
            accumulateAnyCaseBody ops c caseCond accums) := by
        cases op <;> first | rfl | exact absurd rfl (ht _ _) | exact absurd rfl (hc _ _)
      rw [hlow, hok₁]
      exact hok₂
    cases op with
    | transfer dst src =>
      obtain ⟨k₁, hk₁, -⟩ := steps_cons hk
      exact absurd hk₁ (by simp [Known.step])
    | clockedTransfer dst src =>
      simp only [actsAnyBody] at hk heq ⊢
      obtain ⟨k₁, hk₁, hrest⟩ := steps_cons hk
      obtain ⟨ctx₁, accums₁, hok₁, h₁, ha₁⟩ := follows_gather h hg ha hk₁
      obtain ⟨ctx₂, accums₂, hok₂, h₂, ha₂⟩ := follows_anyBody hnames ops h₁ hg ha₁ hrest
        (fun a ha => heq a (by simp [ha]))
      refine ⟨ctx₂, accums₂, ?_, by simpa using h₂, ha₂⟩
      simp only [accumulateAnyCaseBody, hok₁, bind, Except.bind]
      exact hok₂
    | _ => exact hother (by simp) (by simp)

end

end Walk

end Lower

end Nslc
