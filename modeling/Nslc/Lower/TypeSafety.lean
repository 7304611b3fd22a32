import Nslc.Lower.Delivery
/-!
# Type safety of the lowering

A verified module should either be reported or come out typed, and be
reported only where a transfer goes to something that is no storage. The
lowering relies on more than the verifier checks: that a condition is one
bit, that whatever is read has a value by then, and that storage stands
directly in the module. Without values the flow of a module says exactly
whether it keeps to that, and `lowerOneModule_safe` is that this is what
the lowering needs.
-/

namespace Nslc

namespace Lower

open Dialect Circt

/-- No values at all, only whether there are any. -/
def units : Algebra Unit where
  input := fun _ _ => ()
  reg := fun _ _ => ()
  expr := fun _ _ _ => ()
  const := fun _ _ => ()
  both := fun _ _ => ()
  join := fun _ _ => ()
  isZero := fun _ _ => ()
  select := fun _ _ _ => ()
  enter := fun _ => none

theorem interprets_units : Interprets units fun _ _ => True := by
  constructor <;> simp [units]

def destination? : Op → Option Val
  | .transfer dst _ | .clockedTransfer dst _ => some dst
  | _ => none

namespace NslModule

variable (m : NslModule)

/-- The outputs, wires and registers, nested ones included. -/
def storage : List Val :=
  m.outs.map Prod.fst ++ (Op.withins m.body).filterMap wireResult? ++ m.regsWithin

def DestinationsDeclared : Prop := ∀ dst ∈ (Op.withins m.body).filterMap destination?, dst ∈ m.storage

instance : Decidable m.DestinationsDeclared := inferInstanceAs (Decidable (∀ dst ∈ _, _))

/-- What ends the flow of values through the module. -/
def flaw? : Option Flaw :=
  match flowModule units m with
  | .ok _ => none
  | .error flaw => some flaw

/-- **Modules the lowering is made for.** Nothing is needed that has no
value, conditions are one bit, and destinations that are declared are
declared directly in the module, before the transfer. -/
structure Fits : Prop where
  unspoiled : m.flaw? ≠ some .spoiled
  unreported : m.DestinationsDeclared → m.flaw? ≠ some .reported

end NslModule

/-- **Type safety**: the result is typed, a failure is a report, and
there is none if every destination is declared. -/
structure Safe (m : NslModule) : Prop where
  typed : ∀ hw, lowerOneModule m = .ok hw → hw.Typed m
  reports : ∀ e, lowerOneModule m = .error e → ∃ message, e = .diag message
  complete : m.DestinationsDeclared → ∃ hw, lowerOneModule m = .ok hw

section Module

variable {D : Type} {A : Algebra D} {R : Value → D → Prop} {m : NslModule}

theorem lowerOneModule_of_walk {ctx : Ctx} (h : walkModule m = .ok ctx) :
    lowerOneModule m = finishModule m ctx := by
  rw [lowerOneModule, h]
  rfl

/-- The flow through a module, before its drivers are looked at. -/
theorem flowModule_eq (A : Algebra D) (m : NslModule) :
    flowModule A m =
      (m.body.foldlM (flowPort A m) .empty >>=
        m.body.foldlM (flowBodyOp A m.outs m.declare.isSome)) >>= fun sc =>
          if sc.settled m then .ok sc else .error .spoiled := by
  rw [flowModule, bind_assoc]

/-- **A module whose values flow comes out with them.** -/
theorem lowerOneModule_delivers (hA : Interprets A R) (hm : VerifiedModule m) {sc : Scope D}
    (h : flowModule A m = .ok sc) : ∃ hw, lowerOneModule m = .ok hw ∧ Delivers A R m sc hw := by
  have hwalk := agrees_walk hA hm
  rw [flowModule_eq] at h
  obtain ⟨sc', hflow, hsettled⟩ := bind_eq_ok h
  rw [hflow] at hwalk
  obtain ⟨ctx, hctx, hclean⟩ := hwalk
  split at hsettled
  · rename_i hs
    obtain rfl := Except.ok.inj hsettled
    rw [lowerOneModule_of_walk hctx]
    exact finish_delivers hA hm hclean hs
  · cases hsettled

theorem lowerOneModule_reported (hA : Interprets A R) (hm : VerifiedModule m)
    (h : flowModule A m = .error .reported) :
    ∃ message, lowerOneModule m = .error (.diag message) := by
  have hwalk := agrees_walk hA hm
  rw [flowModule_eq] at h
  generalize m.body.foldlM (flowPort A m) .empty >>= _ = flow at h hwalk
  cases flow with
  | ok sc =>
    simp only [bind, Except.bind] at h
    split at h <;> cases h
  | error flaw =>
    obtain rfl := Except.error.inj h
    obtain ⟨message, hctx⟩ := hwalk
    refine ⟨message, ?_⟩
    rw [lowerOneModule, hctx]
    rfl

theorem lowerOneModule_spoiled (hA : Interprets A R) (hm : VerifiedModule m)
    (h : flowModule A m = .error .spoiled) {hw : HWModule} (hok : lowerOneModule m = .ok hw) :
    ¬ hw.Typed m := by
  have hwalk := agrees_walk hA hm
  rw [flowModule_eq] at h
  obtain ⟨ctx, hctx, hfinish⟩ := bind_eq_ok hok
  generalize m.body.foldlM (flowPort A m) .empty >>= _ = flow at h hwalk
  cases flow with
  | ok sc =>
    obtain ⟨ctx', hctx', hclean⟩ := hwalk
    obtain rfl : ctx = ctx' := Except.ok.inj (hctx.symm.trans hctx')
    simp only [bind, Except.bind] at h
    split at h
    · cases h
    · rename_i hs
      exact finish_unsettled hm hclean (Bool.eq_false_of_not_eq_true hs) hfinish
  | error flaw =>
    obtain rfl := Except.error.inj h
    exact finish_spoiled (hwalk ctx hctx) hfinish

theorem flaw?_eq_none_iff : m.flaw? = none ↔ ∃ sc, flowModule units m = .ok sc := by
  unfold NslModule.flaw?
  cases flowModule units m <;> simp

theorem flaw?_eq_some_iff {flaw : Flaw} :
    m.flaw? = some flaw ↔ flowModule units m = .error flaw := by
  unfold NslModule.flaw?
  cases flowModule units m <;> simp

/-- A safe module with its destinations declared has no flaw. -/
theorem flaw?_of_safe (hm : VerifiedModule m) (hdst : m.DestinationsDeclared) (h : Safe m) :
    m.flaw? = none := by
  obtain ⟨hw, hok⟩ := h.complete hdst
  rcases hf : m.flaw? with _ | _ | _
  · rfl
  · obtain ⟨message, herr⟩ := lowerOneModule_reported interprets_units hm (flaw?_eq_some_iff.1 hf)
    rw [hok] at herr
    cases herr
  · exact absurd (h.typed hw hok)
      (lowerOneModule_spoiled interprets_units hm (flaw?_eq_some_iff.1 hf) hok)

theorem safe_of_fits (hm : VerifiedModule m) (h : m.Fits) : Safe m := by
  rcases hf : m.flaw? with _ | _ | _
  · obtain ⟨sc, hsc⟩ := flaw?_eq_none_iff.1 hf
    obtain ⟨hw, hok, hdel⟩ := lowerOneModule_delivers interprets_units hm hsc
    refine ⟨fun hw' hok' => ?_, fun e he => ?_, fun _ => ⟨hw, hok⟩⟩
    · obtain rfl : hw = hw' := Except.ok.inj (hok.symm.trans hok')
      exact hdel.typed
    · rw [hok] at he
      cases he
  · obtain ⟨message, herr⟩ := lowerOneModule_reported interprets_units hm (flaw?_eq_some_iff.1 hf)
    refine ⟨fun hw hok => ?_, fun e he => ⟨message, ?_⟩, fun hdst => absurd hf (h.unreported hdst)⟩
    · rw [herr] at hok
      cases hok
    · rw [herr] at he
      exact (Except.error.inj he).symm
  · exact absurd hf h.unspoiled

/-- A register written in one branch of an `nsl.if`, and a call. -/
def guardedRegister : NslModule where
  symName := "m"
  declare := some ⟨[("c", 1), ("d", 4)], [("q", 4)], none⟩
  body :=
    [.inputPort ⟨0, 1⟩ "c", .inputPort ⟨1, 4⟩ "d", .outputPort ⟨2, 4⟩ "q", .reg ⟨3, 4⟩ "r" 0,
      .ifOp ⟨0, 1⟩ [.clockedTransfer ⟨3, 4⟩ ⟨1, 4⟩, .call "f"] [], .transfer ⟨2, 4⟩ ⟨3, 4⟩]

/-- A condition of eight bits: the transfer becomes a mux on it. -/
def wideCondition : NslModule where
  symName := "m"
  declare := some ⟨[("c", 8), ("d", 4)], [("q", 4)], none⟩
  body :=
    [.inputPort ⟨0, 8⟩ "c", .inputPort ⟨1, 4⟩ "d", .outputPort ⟨2, 4⟩ "q",
      .ifOp ⟨0, 8⟩ [.transfer ⟨2, 4⟩ ⟨1, 4⟩] []]

/-- A wire declared in a function: it is no destination. -/
def wireInFunc : NslModule where
  symName := "m"
  declare := some ⟨[("d", 4)], [("q", 4)], none⟩
  body :=
    [.inputPort ⟨0, 4⟩ "d", .outputPort ⟨1, 4⟩ "q",
      .func "f" [.wire ⟨2, 4⟩ "w", .transfer ⟨2, 4⟩ ⟨0, 4⟩, .transfer ⟨1, 4⟩ ⟨2, 4⟩]]

end Module

end Lower

end Nslc
