import Mathlib
import Nslc.Lower.Guards
/-!
# Guarded writes — values of the drivers

The simulation is used twice. Over bit vectors it gives the value of
every closed driver: the last write whose guards hold. Over truth values
it says which drivers are closed: a read of an output port, or of a wire
before its first write, leaves the `nsl` result in the driver, and
erasing its op leaves a null operand there.
-/

namespace Nslc

namespace Lower

open Dialect Circt

/-! ## Bit vectors -/

section Values

variable (ρ : Valuation) (ν : Val → Bits)

/-- A closed value has the value of the reference. -/
def ValueRel (x : Value) (b : Bits) : Prop := x.isOpen = false → x.eval ρ = b

/-- A closed gate is one bit, whether the guards hold. -/
def ValueGate (x : Value) (gs : Guards Bits) : Prop :=
  x.isOpen = false → x.eval ρ = .ofBool (Guards.hold gs)

def ValueCover (x : Value) (ds : List Bits) : Prop :=
  x.isOpen = false → x.eval ρ = .ofBool (ds.any Bits.isTrue)

@[simp] theorem isOpen_op (i : ℕ) (k : CombOp) (args : List Value) :
    (Value.op i k args).isOpen = args.any Value.isOpen := by
  unfold Value.isOpen
  simp only [Value.anyLeaf, Value.anyLeafs_eq_any]

@[simp] theorem eval_op (i : ℕ) (k : CombOp) (args : List Value) :
    (Value.op i k args).eval ρ = k.den (args.map (Value.eval ρ)) := by
  simp only [Value.eval, evals_eq_map]

theorem Guards.hold_append (gs hs : Guards Bits) :
    Guards.hold (gs ++ hs) = (Guards.hold gs && Guards.hold hs) := List.all_append

theorem Guards.hold_fails (ds : List Bits) :
    Guards.hold (ds.map (·, false)) = !ds.any Bits.isTrue := by
  induction ds with
  | nil => rfl
  | cons d ds ih =>
    simp only [Guards.hold, List.map_cons, List.all_cons, List.any_cons] at ih ⊢
    rw [ih]
    cases d.isTrue <;> rfl

theorem den_and_ofBool (a b : Bool) : CombOp.and.den [.ofBool a, .ofBool b] = .ofBool (a && b) := by
  cases a <;> cases b <;> rfl

theorem den_or_ofBool (a b : Bool) : CombOp.or.den [.ofBool a, .ofBool b] = .ofBool (a || b) := by
  cases a <;> cases b <;> rfl

/-- The test against zero is the negation. -/
theorem den_eq_zero (x : Bits) : (CombOp.icmp .eq).den [x, .const x.width 0] = .ofBool (!x.isTrue) :=
  x.eq_zero_test

theorem eval_one_bit {c : Value} (hw : c.width = 1) : c.eval ρ = .ofBool (c.eval ρ).isTrue :=
  Bits.eq_ofBool (by rw [Value.width_eval, hw])

theorem map_eq_of_forall₂ {α β : Type} {f : α → β} {as : List α} {bs : List β}
    (h : List.Forall₂ (fun a b => f a = b) as bs) : as.map f = bs := by
  induction h with
  | nil => rfl
  | cons hab _ ih => rw [List.map_cons, hab, ih]

theorem respects_bits :
    Respects (bitsDomain ρ ν) (ValueRel ρ) (ValueGate ρ) (ValueCover ρ) where
  arg := fun _ _ _ => rfl
  reg := fun _ _ _ => rfl
  unresolved := fun _ h => absurd h (by simp [Value.isOpen, Value.anyLeaf, Value.isNsl])
  direct := fun _ _ h => absurd h (by simp [Value.isOpen, Value.anyLeaf, Value.isNsl])
  zero := fun _ _ _ => rfl
  wire := fun i name x d hx h => by
    simpa [CombOp.den] using hx (by simpa using h)
  expr := fun ctx w e x ctx' ds hlow hv ht hds h => by
    have hclosed : ∀ v ∈ e.operands, (ctx.lookupValue v).isOpen = false := by
      intro v hv'
      have hall : (e.operands.map ctx.lookupValue).any Value.isOpen = false :=
        (hlow.leaves _).symm.trans h
      simp only [List.any_map, List.any_eq_false, Function.comp_apply, Bool.not_eq_true] at hall
      exact hall v hv'
    rw [hlow.eval hv ht ρ]
    refine congrArg (e.den w) (map_eq_of_forall₂ ?_)
    exact ((List.forall₂_and_left _ _).2 ⟨hclosed, hds⟩).imp fun v d hvd => hvd.2 hvd.1
  holds := fun c d hc hw h => by
    rw [eval_one_bit ρ hw, hc h]
    simp [Guards.hold]
  fails := fun i j c d hc hw h => by
    have hc' := hc (by simpa using h)
    rw [eval_op]
    simp only [List.map_cons, List.map_nil, eval_op]
    have := den_eq_zero (c.eval ρ)
    rw [Value.width_eval] at this
    refine this.trans ?_
    simp [Guards.hold, hc']
  and := fun i g gs h hs hg hh ho => by
    have ho' : g.isOpen = false ∧ h.isOpen = false := by simpa using ho
    simp only [eval_op, List.map_cons, List.map_nil, hg ho'.1, hh ho'.2]
    rw [den_and_ofBool, Guards.hold_append, Bool.and_comm]
  one := fun _ _ => rfl
  cover := fun c d hc hw h => by
    rw [eval_one_bit ρ hw, hc h]
    simp
  or := fun i c ds x d hc hx hw ho => by
    have ho' : c.isOpen = false ∧ x.isOpen = false := by simpa using ho
    simp only [eval_op, List.map_cons, List.map_nil, hc ho'.1]
    rw [eval_one_bit ρ hw, hx ho'.2, den_or_ofBool]
    simp
  uncovered := fun i j c ds hc ho => by
    have hc' := hc (by simpa using ho)
    simp only [eval_op, List.map_cons, List.map_nil, hc']
    refine (den_eq_zero (.ofBool _)).trans ?_
    rw [Bits.isTrue_ofBool, Guards.hold_fails]
  guarded := fun i g gs x d p e hg hx hp hw ho => by
    have ho' : g.isOpen = false ∧ x.isOpen = false ∧ p.isOpen = false := by simpa using ho
    simp only [eval_op, List.map_cons, List.map_nil, CombOp.den]
    rw [Bits.mux_eq (by rw [Value.width_eval, Value.width_eval, hw]), hg ho'.1, hx ho'.2.1,
      hp ho'.2.2, Bits.isTrue_ofBool]
    rfl

end Values

/-! ## Truth values -/

/-- The value is open exactly when the reference says so. -/
def OpenRel (x : Value) (o : Bool) : Prop := x.isOpen = o

theorem respects_open :
    Respects openDomain OpenRel (fun x gs => x.isOpen = gs.any Prod.fst)
      (fun x ds => x.isOpen = ds.any id) where
  arg := fun _ _ => rfl
  reg := fun _ _ => rfl
  unresolved := fun _ => rfl
  direct := fun _ _ => rfl
  zero := fun _ _ => rfl
  wire := fun i name x d hx => by
    simpa [OpenRel] using hx
  expr := fun ctx w e x ctx' ds hlow hv ht hds => by
    have hx : x.isOpen = (e.operands.map ctx.lookupValue).any Value.isOpen := hlow.leaves _
    have hops : e.operands.map (fun v => (ctx.lookupValue v).isOpen) = ds := map_eq_of_forall₂ hds
    show x.isOpen = ds.any id
    rw [hx, ← hops, List.any_map, List.any_map]
    rfl
  holds := fun c d hc _ => by simpa [OpenRel] using hc
  fails := fun i j c d hc _ => by simpa [OpenRel] using hc
  and := fun i g gs h hs hg hh => by simp [hg, hh, Bool.or_comm]
  one := fun _ => rfl
  cover := fun c d hc _ => by simpa [OpenRel] using hc
  or := fun i c ds x d hc hx _ => by
    unfold OpenRel at hx
    simp [hc, hx]
  uncovered := fun i j c ds hc => by
    simp only [isOpen_op, List.any_cons, List.any_nil, Bool.or_false, hc, List.any_map]
    rfl
  guarded := fun i g gs x d p e hg hx hp _ => by
    unfold OpenRel at hx hp ⊢
    simp [hg, hx, hp, openDomain, Bool.or_assoc]

/-! ## The last write whose guards hold -/

/-- One write is its value where it happens, what was there elsewhere. -/
theorem write_eq (ρ : Valuation) (ν : Val → Bits) (w : Write Bits) (prev : Bits) :
    (if w.guards.isEmpty then w.value else (bitsDomain ρ ν).guarded w.guards w.value prev) =
      if w.fires then w.value else prev := by
  unfold Write.fires
  cases hg : w.guards with
  | nil => rfl
  | cons g gs => rfl

/-- Over bit vectors the writes to a target amount to the last that
happens. -/
theorem drive_eq_lastWrite (ρ : Valuation) (ν : Val → Bits) (ws : List (Write Bits)) (t : Target)
    (idle : Bits) (prev : Option Bits) :
    (drive (bitsDomain ρ ν) idle prev (ws.filter fun w => w.target = t)).getD idle =
      lastWrite ws t (prev.getD idle) := by
  induction ws using List.reverseRecOn with
  | nil => rfl
  | append_singleton ws w ih =>
    unfold lastWrite at ih ⊢
    by_cases ht : w.target = t
    · have hlast : ([w].filter fun w => w.target = t) = [w] := by simp [ht]
      rw [List.filter_append, hlast, drive_append, Option.getD_some, write_eq, ih]
      by_cases hf : w.fires = true
      · simp [List.filter_append, ht, hf]
      · simp [List.filter_append, hf]
    · simp [List.filter_append, ht, ih]

/-! ## The drivers of a module -/

/-- **Every driver is the last write whose guards hold**, zero for an
output or a wire without one, the current value for a register. -/
structure GuardedWrites (m : NslModule) (hw : HWModule) (ρ : Valuation) (ν : Val → Bits) :
    Prop where
  outputs : List.Forall₂
    (fun p q => q.1 = p.1 ∧ Value.Denotes ρ q.2
      (lastWrite (execModule (bitsDomain ρ ν) m).writes (.output p.1) (.const p.2 0)))
    m.outputPorts hw.outputs
  wires : List.Forall₂
    (fun v q => Value.Denotes ρ q.2
      (lastWrite (execModule (bitsDomain ρ ν) m).writes (.wire v) (.const v.width 0)))
    m.wireResults hw.wires
  regs : List.Forall₂
    (fun v r => Value.Denotes ρ r.2.2
      (lastWrite (execModule (bitsDomain ρ ν) m).writes (.reg v.1) ⟨v.1.width, ρ.reg v.2 v.1.width⟩))
    m.regResults.zipIdx hw.regs

/-- No write that survives in a driver depends, through its source, its
guards or the expressions they are computed from, on the value of an
output port, on a wire read before its first write, or on an expression
op directly in an `nsl.alt`. -/
structure Resolved (m : NslModule) : Prop where
  outputs : ∀ p ∈ m.outputPorts, (execModule openDomain m).outputDriver openDomain p = false
  wires : ∀ v ∈ m.wireResults, (execModule openDomain m).wireDriver openDomain v = false
  regs : ∀ v ∈ m.regResults.zipIdx,
    (execModule openDomain m).regDriver openDomain v.1 v.2 = false

instance (m : NslModule) : Decidable (Resolved m) :=
  decidable_of_iff
    ((∀ p ∈ m.outputPorts, (execModule openDomain m).outputDriver openDomain p = false) ∧
      (∀ v ∈ m.wireResults, (execModule openDomain m).wireDriver openDomain v = false) ∧
      ∀ v ∈ m.regResults.zipIdx, (execModule openDomain m).regDriver openDomain v.1 v.2 = false)
    ⟨fun h => ⟨h.1, h.2.1, h.2.2⟩, fun h => ⟨h.1, h.2, h.3⟩⟩

section Drivers

variable {m : NslModule} {hw : HWModule} {ρ : Valuation} {ν : Val → Bits}

theorem outputDriver_eq_lastWrite (st : RefState Bits) (p : String × ℕ) :
    st.outputDriver (bitsDomain ρ ν) p = lastWrite st.writes (.output p.1) (.const p.2 0) :=
  drive_eq_lastWrite ρ ν _ _ _ none

theorem wireDriver_eq_lastWrite (st : RefState Bits) (v : Val) :
    st.wireDriver (bitsDomain ρ ν) v = lastWrite st.writes (.wire v) (.const v.width 0) :=
  drive_eq_lastWrite ρ ν _ _ _ none

theorem regDriver_eq_lastWrite (st : RefState Bits) (v : Val) (i : ℕ) :
    st.regDriver (bitsDomain ρ ν) v i =
      lastWrite st.writes (.reg v) ⟨v.width, ρ.reg i v.width⟩ :=
  drive_eq_lastWrite ρ ν _ _ _ (some _)

/-- A driver whose uses were dropped can be computed exactly if it was
closed, and then has the value of the reference. -/
theorem denotes_dropUses_iff {x : Value} {b : Bits} (hx : ValueRel ρ x b) :
    Value.Denotes ρ x.dropUses b ↔ x.isOpen = false := by
  rw [Value.Denotes, Value.hasNull_dropUses]
  refine ⟨fun h => h.1, fun ho => ⟨ho, ?_⟩⟩
  rw [Value.dropUses_of_closed x ho]
  exact hx ho

theorem denote_all_iff {α β : Type} {as : List α} {bs : List β} {driver : β → Value}
    {b : α → Bits} {o : α → Bool}
    (hval : List.Forall₂ (fun a q => ValueRel ρ (driver q) (b a)) as bs)
    (hopen : List.Forall₂ (fun a q => OpenRel (driver q) (o a)) as bs) :
    List.Forall₂ (fun a q => Value.Denotes ρ (driver q).dropUses (b a)) as bs ↔
      ∀ a ∈ as, o a = false := by
  induction hval with
  | nil => simp
  | cons hx _ ih =>
    obtain ⟨hox, hopen⟩ := List.forall₂_cons.1 hopen
    rw [List.forall₂_cons, List.forall_mem_cons, ih hopen, denotes_dropUses_iff hx, hox]

/-- The module without its `nsl` ops has the drivers of the reference
exactly if they are all closed. -/
theorem guardedWrites_dropUses_iff {pre : HWModule}
    (hval : Drives (bitsDomain ρ ν) (ValueRel ρ) m pre) (hopen : Drives openDomain OpenRel m pre) :
    GuardedWrites m pre.dropUses ρ ν ↔ Resolved m := by
  have hout := denote_all_iff (hval.outputs.imp fun _ _ h => h.2) (hopen.outputs.imp fun _ _ h => h.2)
  have hwire := denote_all_iff hval.wires hopen.wires
  have hreg := denote_all_iff hval.regs hopen.regs
  simp only [outputDriver_eq_lastWrite, wireDriver_eq_lastWrite, regDriver_eq_lastWrite] at hout hwire hreg
  have hnames : List.Forall₂ (fun p q => q.1 = p.1) m.outputPorts pre.outputs :=
    hval.outputs.imp fun _ _ h => h.1
  constructor
  · rintro ⟨ho, hw, hr⟩
    simp only [HWModule.dropUses, List.forall₂_map_right_iff] at ho hw hr
    exact ⟨hout.1 (ho.imp fun _ _ h => h.2), hwire.1 hw, hreg.1 hr⟩
  · rintro ⟨ho, hw, hr⟩
    refine ⟨?_, ?_, ?_⟩ <;> simp only [HWModule.dropUses, List.forall₂_map_right_iff]
    · exact List.Forall₂.mp (fun _ _ hname h => ⟨hname, h⟩) hnames (hout.2 ho)
    · exact hwire.2 hw
    · exact hreg.2 hr

/-- **Guarded writes lower to the right driver exactly in resolved
modules.** -/
theorem lowerOneModule_guardedWrites (hm : GuardedModule m) (h : lowerOneModule m = .ok hw) :
    (∀ ρ ν, GuardedWrites m hw ρ ν) ↔ Resolved m := by
  obtain ⟨ctx, hwalk, hfin⟩ := bind_eq_ok h
  obtain rfl := finishModule_ok hfin
  have key : ∀ ρ ν, GuardedWrites m (assemble m ctx).dropUses ρ ν ↔ Resolved m := fun ρ ν =>
    guardedWrites_dropUses_iff (drives_assemble (respects_bits ρ ν) hm hwalk)
      (drives_assemble respects_open hm hwalk)
  exact ⟨fun h => (key ⟨fun _ _ => 0, fun _ _ => 0⟩ fun _ => .const 0 0).1 (h _ _),
    fun h ρ ν => (key ρ ν).2 h⟩

/-- A register, a wire and an output written under nested guards:
```
if (a) alt { b : r := a;  else : r := b; } else w = b;
q = w;
```
-/
def nestedWrites : NslModule where
  symName := "m"
  declare := some ⟨[("a", 1), ("b", 1)], [("q", 1)], none⟩
  body :=
    [ .inputPort ⟨0, 1⟩ "a", .inputPort ⟨1, 1⟩ "b", .outputPort ⟨2, 1⟩ "q",
      .reg ⟨3, 1⟩ "r" 0, .wire ⟨4, 1⟩ "w",
      .ifOp ⟨0, 1⟩
        [.alt [ .case ⟨1, 1⟩ [.clockedTransfer ⟨3, 1⟩ ⟨0, 1⟩],
                .default [.clockedTransfer ⟨3, 1⟩ ⟨1, 1⟩] ]]
        [.transfer ⟨4, 1⟩ ⟨1, 1⟩],
      .transfer ⟨2, 1⟩ ⟨4, 1⟩ ]

theorem guardedWrites_nestedWrites :
    ∃ hw, GuardedModule nestedWrites ∧ lowerOneModule nestedWrites = .ok hw ∧
      Resolved nestedWrites ∧ ∀ ρ ν, GuardedWrites nestedWrites hw ρ ν := by
  have hm : GuardedModule nestedWrites := by decide +kernel
  have hr : Resolved nestedWrites := by decide +kernel
  have hok : (lowerOneModule nestedWrites).toOption.isSome = true := by decide +kernel
  cases h : lowerOneModule nestedWrites with
  | error e => simp [h, Except.toOption] at hok
  | ok hw => exact ⟨hw, hm, rfl, hr, (lowerOneModule_guardedWrites hm h).2 hr⟩

/-- A wire read before it is written: `q = w; w = a;` -/
def readBeforeWrite : NslModule where
  symName := "m"
  declare := some ⟨[("a", 1)], [("q", 1)], none⟩
  body :=
    [ .inputPort ⟨0, 1⟩ "a", .outputPort ⟨1, 1⟩ "q", .wire ⟨2, 1⟩ "w",
      .transfer ⟨1, 1⟩ ⟨2, 1⟩, .transfer ⟨2, 1⟩ ⟨0, 1⟩ ]

/-- Its output is left with a null operand. -/
theorem not_guardedWrites_readBeforeWrite :
    ∃ hw, GuardedModule readBeforeWrite ∧ lowerOneModule readBeforeWrite = .ok hw ∧
      ∀ ρ ν, ¬ GuardedWrites readBeforeWrite hw ρ ν := by
  refine ⟨⟨[("q", .null)], [("w", .arg "a" 1)], [], [.op 0 (.wire "w") [.arg "a" 1]]⟩,
    by decide +kernel, rfl, fun ρ ν h => ?_⟩
  obtain ⟨ho, -, -⟩ := h
  cases ho with
  | cons hq _ => exact absurd hq.2.1 (by decide)

end Drivers

end Lower

end Nslc
