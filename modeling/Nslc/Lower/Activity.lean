import Nslc.Lower.TypeSafety
import Nslc.Lower.GuardedWrites
/-!
# Calls and the functions they drive

A function takes part in a cycle if it is called there, or activated
through its `func_in` terminal. The meaning of a module has the body of a
function guarded by its activity (`Called`). The lowering inlines the
bodies without a guard and gives every call a wire of its own, so the
calls drive the functions of a module exactly if it is `Steady`: bodies of
idle functions make no difference, and the calls of a function hold
together.
-/

namespace Nslc

namespace Lower

open Dialect Circt

/-! ## Meaning -/

/-- Bit vectors in a cycle. `enter` guards the bodies of functions. -/
def bitsAlgebra (ρ : Valuation) (enter : String → Option Bits) : Algebra Bits where
  input := fun name w => ⟨w, ρ.arg name w⟩
  reg := fun i w => ⟨w, ρ.reg i w⟩
  expr := fun w e xs => e.den w xs
  const := .const
  both := fun x y => x.map₂ y (· &&& ·)
  join := fun x y => x.map₂ y (· ||| ·)
  isZero := fun _ x => .ofBool !x.isTrue
  select := fun c x y => if c.isTrue then x else y
  enter := enter

/-- Every body taken as it stands. -/
def eager (ρ : Valuation) : Algebra Bits := bitsAlgebra ρ fun _ => none

/-- The body of a function under its activity. -/
def gated (ρ : Valuation) (active : String → Bool) : Algebra Bits :=
  bitsAlgebra ρ fun f => some (.ofBool (active f))

/-- A call of `f` happens. -/
def Scope.calledIn (sc : Scope Bits) (f : String) : Prop := ∃ c ∈ sc.calls, c.1 = f ∧ c.2.isTrue = true

/-- **The meaning of a module with functions.** In a cycle with the given
inputs and registers, a function is active if its terminal is or a call
of it happens, and its body runs if it is active. -/
structure Called (m : NslModule) (ρ : Valuation) (terminal active : String → Bool)
    (sc : Scope Bits) : Prop where
  flow : flowModule (gated ρ active) m = .ok sc
  active_iff : ∀ f, active f = true ↔ terminal f = true ∨ sc.calledIn f

theorem interprets_eager (ρ : Valuation) : Interprets (eager ρ) fun x b => x.eval ρ = b where
  input := fun _ _ => rfl
  reg := fun _ _ => rfl
  const := fun _ _ _ => rfl
  both := by
    rintro i x y _ _ rfl rfl
    rfl
  join := by
    rintro i x y _ _ rfl rfl
    rfl
  isZero := by
    rintro i j x _ rfl
    rw [eval_op]
    change (CombOp.icmp .eq).den [x.eval ρ, .const x.width 0] = _
    rw [← Value.width_eval ρ x]
    exact den_eq_zero _
  select := by
    rintro i g x y _ _ _ - - rfl rfl rfl hw
    rw [eval_op]
    refine Bits.mux_eq ?_
    rw [Value.width_eval, Value.width_eval, hw]
  wire := by
    rintro i name x _ rfl
    rfl
  expr := by
    intro ctx w e r ds hv hok ht hops
    have hlow : Lowered ctx w e r.1 r.2 := lowerBitOp_lowered hok
    rw [hlow.eval hv ht ρ, map_eq_of_forall₂ hops]
    rfl
  enter := fun _ => rfl

/-! ## The property and its condition -/

/-- A wire named `<f>_valid`. -/
def Value.isValidOf (f : String) : Value → Bool
  | .op _ (.wire name) _ => name == f ++ "_valid"
  | _ => false

/-- What the lowered module should do in a cycle. -/
structure DrivesCalled (m : NslModule) (ρ : Valuation) (sc : Scope Bits) (hw : HWModule) : Prop where
  valid : ∀ y ∈ hw.callWires, ∀ f, Value.isValidOf f y = true →
    ((y.eval ρ).isTrue = true ↔ sc.calledIn f)
  outputs : List.Forall₂ (fun p q => q.2.eval ρ = sc.outValue (eager ρ) p) m.outputPorts hw.outputs
  wires : List.Forall₂ (fun v q => q.2.eval ρ = sc.wireValue (eager ρ) v) m.wireResults hw.wires
  regs : List.Forall₂ (fun v r => r.2.2.eval ρ = sc.regValue (eager ρ) v) m.regResults hw.regs

/-- **Calls drive functions**, in every cycle of the lowered module. -/
def CallsDrive (m : NslModule) : Prop :=
  ∀ hw, lowerOneModule m = .ok hw → hw.Typed m → ∀ ρ terminal active sc,
    Called m ρ terminal active sc → DrivesCalled m ρ sc hw

/-- Running every body gives what running the active ones gives. -/
structure SameOutcome (m : NslModule) (ρ : Valuation) (sc₀ sc : Scope Bits) : Prop where
  calls : ∀ c ∈ sc₀.calls, (c.2.isTrue = true ↔ sc.calledIn c.1)
  outputs : ∀ p ∈ m.outputPorts, sc₀.outValue (eager ρ) p = sc.outValue (eager ρ) p
  wires : ∀ v ∈ m.wireResults, sc₀.wireValue (eager ρ) v = sc.wireValue (eager ρ) v
  regs : ∀ v ∈ m.regResults, sc₀.regValue (eager ρ) v = sc.regValue (eager ρ) v

/-- **Steady modules**: in every cycle the bodies of idle functions would
change nothing, and the calls of a function hold together. -/
def Steady (m : NslModule) : Prop :=
  ∀ ρ terminal active sc, Called m ρ terminal active sc →
    ∀ sc₀, flowModule (eager ρ) m = .ok sc₀ → SameOutcome m ρ sc₀ sc

section

variable {m : NslModule} {ρ : Valuation} {sc sc₀ : Scope Bits} {hw : HWModule}

theorem append_valid_inj {f g : String} (h : f ++ "_valid" = g ++ "_valid") : f = g := by
  have hl := congrArg String.toList h
  rw [String.toList_append, String.toList_append] at hl
  exact String.toList_inj.1 (List.append_cancel_right hl)

theorem isValidOf_callWire {f : String} {c : String × Bits} {y : Value}
    (h : CallWire (fun x b => x.eval ρ = b) c y) :
    y.eval ρ = c.2 ∧ (Value.isValidOf f y = true ↔ c.1 = f) := by
  obtain ⟨i, g, rfl, hs⟩ := h
  refine ⟨hs.rel, ?_⟩
  simp only [Value.isValidOf, beq_iff_eq]
  exact ⟨append_valid_inj, fun heq => by rw [heq]⟩

/-- The two relations together, at one element of the left. -/
theorem exists_of_forall₂_both {α β : Type} {P Q : α → β → Prop} {as : List α} {bs : List β}
    (h : List.Forall₂ P as bs) (h' : List.Forall₂ Q as bs) : ∀ a ∈ as, ∃ b, P a b ∧ Q a b := by
  intro a ha
  obtain ⟨b, -, hb⟩ :=
    exists_of_forall₂ (List.Forall₂.mp (fun _ _ hp hq => And.intro hp hq) h h') a ha
  exact ⟨b, hb⟩

theorem sameOutcome_of_drives (hd : Delivers (eager ρ) (fun x b => x.eval ρ = b) m sc₀ hw)
    (h : DrivesCalled m ρ sc hw) : SameOutcome m ρ sc₀ sc where
  calls := fun c hc => by
    obtain ⟨y, hy, hcall⟩ := exists_of_forall₂ hd.calls c hc
    obtain ⟨heval, hvalid⟩ := isValidOf_callWire (f := c.1) hcall
    rw [← heval]
    exact h.valid y hy c.1 (hvalid.2 rfl)
  outputs := fun p hp => by
    obtain ⟨q, ⟨-, hq⟩, hq'⟩ := exists_of_forall₂_both hd.outputs h.outputs p hp
    exact hq.rel.symm.trans hq'
  wires := fun v hv => by
    obtain ⟨q, hq, hq'⟩ := exists_of_forall₂_both hd.wires h.wires v hv
    exact hq.rel.symm.trans hq'
  regs := fun v hv => by
    obtain ⟨r, hr, hr'⟩ := exists_of_forall₂_both hd.regs h.regs v hv
    exact hr.rel.symm.trans hr'

theorem drives_of_sameOutcome (hd : Delivers (eager ρ) (fun x b => x.eval ρ = b) m sc₀ hw)
    (h : SameOutcome m ρ sc₀ sc) : DrivesCalled m ρ sc hw where
  valid := fun y hy f hf => by
    obtain ⟨c, hc, hcall⟩ := exists_of_forall₂ (List.Forall₂.flip hd.calls) y hy
    obtain ⟨heval, hvalid⟩ := isValidOf_callWire (f := f) hcall
    rw [heval, ← hvalid.1 hf]
    exact h.calls c hc
  outputs := by
    refine ((List.forall₂_and_left _ _).2 ⟨h.outputs, hd.outputs⟩).imp fun p q hq => ?_
    exact hq.2.2.rel.trans hq.1
  wires := by
    refine ((List.forall₂_and_left _ _).2 ⟨h.wires, hd.wires⟩).imp fun v q hq => ?_
    exact hq.2.rel.trans hq.1
  regs := by
    refine ((List.forall₂_and_left _ _).2 ⟨h.regs, hd.regs⟩).imp fun v r hr => ?_
    exact hr.2.rel.trans hr.1

/-- A typed module comes from a flow without flaw. -/
theorem flow_of_typed (hm : VerifiedModule m) (hok : lowerOneModule m = .ok hw)
    (ht : hw.Typed m) (ρ : Valuation) : ∃ sc₀, flowModule (eager ρ) m = .ok sc₀ := by
  cases hf : flowModule (eager ρ) m with
  | ok sc₀ => exact ⟨sc₀, rfl⟩
  | error flaw =>
    cases flaw with
    | reported =>
      obtain ⟨message, herr⟩ := lowerOneModule_reported (interprets_eager ρ) hm hf
      rw [hok] at herr
      cases herr
    | spoiled => exact absurd ht (lowerOneModule_spoiled (interprets_eager ρ) hm hf hok)

end

/-- A register that is loaded by a function, `func load buf := din;`. -/
def bufferLoad (body : List Op) : NslModule where
  symName := "m"
  declare := some ⟨[("req", 1), ("din", 4)], [], none⟩
  body :=
    [.inputPort ⟨0, 1⟩ "req", .inputPort ⟨1, 4⟩ "din", .reg ⟨2, 4⟩ "buf" 0,
      .func "load" [.clockedTransfer ⟨2, 4⟩ ⟨1, 4⟩]] ++ body

theorem flow_alwaysCalled {ρ : Valuation} {enter : String → Option Bits} {sc : Scope Bits}
    (h : flowModule (bitsAlgebra ρ enter) (bufferLoad [.call "load"]) = .ok sc) :
    sc.calls = [("load", .const 1 1)] ∧
      sc.regDriver ⟨2, 4⟩ = some (if ((enter "load").map Bits.isTrue).getD true = true then
        ⟨4, ρ.arg "din" 4⟩ else ⟨4, ρ.reg 0 4⟩) := by
  cases he : enter "load" with
  | none =>
    simp [flowModule, bufferLoad, flowPort, flowBodyOp, flowOp, flowOps, NslModule.inputPorts,
      Declare.inputPorts, bind, Except.bind, pure, Except.pure, Scope.addReg, flowCall, flowEnter,
      bitsAlgebra, flowClocked, Scope.empty, Scope.define, Scope.driveReg, flowWrite,
      Scope.addCall, Scope.settled, NslModule.outputPorts, Op.isSeq, he] at h
    subst h
    simp
  | some d =>
    simp [flowModule, bufferLoad, flowPort, flowBodyOp, flowOp, flowOps, NslModule.inputPorts,
      Declare.inputPorts, bind, Except.bind, pure, Except.pure, Scope.addReg, flowCall, flowEnter,
      bitsAlgebra, narrow, flowClocked, Scope.empty, Scope.define, Scope.driveReg, flowWrite,
      Cond.bit?, Cond.bit, Scope.addCall, Scope.settled, NslModule.outputPorts, Op.isSeq, he] at h
    subst h
    simp

/-- A cycle without a request. -/
def noRequest : Valuation where
  arg := fun name w => if name = "din" then BitVec.ofNat w 5 else 0
  reg := fun _ _ => 0

end Lower

end Nslc
