import Nslc.Lower.Module
/-!
# Procs to state machines

`lowerNSLProcsToFSMMachines`, which runs behind the lowering of the
modules: every `nsl.proc` of the unit becomes an `fsm.machine` at top
level, and so does every function with one `nsl.seq`. The states of a
machine are created first; the sink and the placeholders of called procs
join while the state bodies are lowered, and the proc is erased at the
end with all that is in it.
-/

namespace Nslc

namespace FSM

open Dialect Lower

/-! ## Procs -/

inductive StateBodyOp where
  | goto (target : String)
  | finish
  | finishMethod
  | call (callee : String)
  | other (mnemonic : String)
  deriving DecidableEq, Repr

structure StateOp where
  symName : String
  body : List StateBodyOp
  deriving DecidableEq, Repr

inductive ProcBodyOp where
  | firstState (target : String)
  | state (s : StateOp)
  /-- Any other op standing directly in the proc. -/
  | other (op : Op)

namespace ProcBodyOp

def state? : ProcBodyOp → Option StateOp
  | state s => some s
  | _ => none

def firstState? : ProcBodyOp → Option String
  | firstState target => some target
  | _ => none

end ProcBodyOp

structure ProcOp where
  symName : String
  body : List ProcBodyOp

namespace ProcOp

variable (p : ProcOp)

def states : List StateOp := p.body.filterMap ProcBodyOp.state?

def stateNames : List String := p.states.map StateOp.symName

def firstStates : List String := p.body.filterMap ProcBodyOp.firstState?

/-- The ops of all state bodies, in order. -/
def actions : List StateBodyOp := p.states.flatMap StateOp.body

/-- `ProcOp::verify`, and the proc as a symbol table of its states. -/
def verify : Bool :=
  p.symName != "" && decide p.stateNames.Nodup && decide (p.firstStates.length ≤ 1)

end ProcOp

/-! ## Machines -/

structure FsmState where
  symName : String
  transitions : List String
  deriving DecidableEq, Repr

structure MachineOp where
  symName : String
  initialState : String
  states : List FsmState
  deriving DecidableEq, Repr

def MachineOp.stateNames (m : MachineOp) : List String := m.states.map FsmState.symName

structure MachineBuilder where
  states : List FsmState
  /-- Where the state op of a name stands in the machine. -/
  stateMap : String → Option ℕ
  hasSink : Bool
  crossMachinePlaceholders : List String

def sinkName : String := "__sink__"

/-- The state standing for the initial state of a called proc. -/
def placeholderName (callee : String) : String := callee ++ "_initial_state"

namespace MachineBuilder

variable (mb : MachineBuilder)

/-- A state at the end of the machine, under which its name is found
from now on. -/
def createState (name : String) : MachineBuilder :=
  { mb with
    states := mb.states ++ [⟨name, []⟩]
    stateMap := fun n => if n = name then some mb.states.length else mb.stateMap n }

def createTransition (i : ℕ) (target : String) : MachineBuilder :=
  { mb with
    states := mb.states.modify i fun s => { s with transitions := s.transitions ++ [target] } }

def ensureSinkState : MachineBuilder :=
  if mb.hasSink && (mb.stateMap sinkName).isSome then mb
  else { mb.createState sinkName with hasSink := true }

def ensureCrossMachinePlaceholder (callee : String) : MachineBuilder :=
  if mb.crossMachinePlaceholders.contains (placeholderName callee) then mb
  else
    { mb.createState (placeholderName callee) with
      crossMachinePlaceholders := mb.crossMachinePlaceholders ++ [placeholderName callee] }

end MachineBuilder

/-! ## One proc -/

def deferredStateOp (mnemonic : String) : String :=
  "M6 round-1 deferral: state body op '" ++ mnemonic ++
    "' is not yet lowered into the fsm.state output region (only goto / finish / call / " ++
    "finish_method are handled at this round). Move the assignment outside the nsl.state " ++
    "body or split the proc into single-state machines whose drivers live in the module body."

section Proc

variable (isProcTarget : String → Bool)

/-- One op of the body of the state whose machine state stands at `i`. -/
def lowerStateBodyOp (i : ℕ) (mb : MachineBuilder) : StateBodyOp → Except String MachineBuilder
  | .goto target => .ok (mb.createTransition i target)
  | .finish | .finishMethod => .ok (mb.ensureSinkState.createTransition i sinkName)
  | .call callee =>
    if isProcTarget callee then
      .ok ((mb.ensureCrossMachinePlaceholder callee).createTransition i (placeholderName callee))
    -- left for a later phase, which the proc does not live to see
    else .ok mb
  | .other mnemonic => .error (deferredStateOp mnemonic)

def lowerStateBody (mb : MachineBuilder) (s : StateOp) : Except String MachineBuilder :=
  match mb.stateMap s.symName with
  | none => .ok mb
  | some i => s.body.foldlM (lowerStateBodyOp isProcTarget i) mb

/-- The target of the first `nsl.first_state`, else the first state. -/
def initialStateName (p : ProcOp) : String :=
  let first := p.firstStates.headD ""
  if first = "" then p.stateNames.headD "" else first

def lowerOneProc (p : ProcOp) : Except String MachineOp :=
  if initialStateName p = "" then
    .error ("nsl.proc has no nsl.state children and no nsl.first_state declaration; " ++
      "cannot lower to fsm.machine")
  else do
    let shells := p.stateNames.foldl MachineBuilder.createState ⟨[], fun _ => none, false, []⟩
    let mb ← p.states.foldlM (lowerStateBody isProcTarget) shells
    return ⟨p.symName, initialStateName p, mb.states⟩

end Proc

/-! ## Functions with a sequence -/

def seqBody? : Op → Option (List Op)
  | .seq body => some body
  | _ => none

def isGoto : Op → Bool
  | .other mnemonic => mnemonic == "nsl.goto"
  | _ => false

def binMnemonic : BinOp → String
  | .add => "add"
  | .sub => "sub"
  | .mul => "mul"
  | .and => "and"
  | .or => "or"
  | .xor => "xor"
  | .shl => "shl"
  | .shr => "shr"
  | .eq => "eq"
  | .ne => "ne"
  | .lt => "lt"
  | .le => "le"
  | .gt => "gt"
  | .ge => "ge"
  | .land => "land"
  | .lor => "lor"

def unMnemonic : UnOp → String
  | .not => "not"
  | .neg => "neg"
  | .lnot => "lnot"
  | .reduceAnd => "reduce_and"
  | .reduceOr => "reduce_or"
  | .reduceXor => "reduce_xor"

def exprMnemonic : Expr → String
  | .constant _ => "constant"
  | .bin k _ _ => binMnemonic k
  | .un k _ => unMnemonic k
  | .signExtend _ => "sign_extend"
  | .zeroExtend _ => "zero_extend"
  | .mux _ _ _ => "mux"
  | .concat _ => "concat"
  | .extract _ _ => "extract"
  | .repeat _ _ => "repeat"

/-- The name an error message gives to an op. -/
def opName : Op → String
  | .inputPort _ _ => "nsl.input_port"
  | .outputPort _ _ => "nsl.output_port"
  | .inoutPort _ _ => "nsl.inout_port"
  | .reg _ _ _ => "nsl.reg"
  | .wire _ _ => "nsl.wire"
  | .expr _ e => "nsl." ++ exprMnemonic e
  | .transfer _ _ => "nsl.transfer"
  | .clockedTransfer _ _ => "nsl.clocked_transfer"
  | .ifOp _ _ _ => "nsl.if"
  | .alt _ => "nsl.alt"
  | .any _ => "nsl.any"
  | .case _ _ => "nsl.case"
  | .default _ => "nsl.default"
  | .parallel _ => "nsl.parallel"
  | .func _ _ => "nsl.func"
  | .seq _ => "nsl.seq"
  | .call _ => "nsl.call"
  | .inert mnemonic | .other mnemonic => mnemonic

def deferredSeqOp (op : Op) : String :=
  "M6 round-1 deferral: nsl.seq body op '" ++ opName op ++
    "' is not yet lowered (only nsl.goto fall-through transitions are emitted at this round; " ++
    "label-to-state resolution + leaf-op carry-over into the fsm.state output region land in " ++
    "M7). Hoist the operation outside the seq, or split the func into a comb-only form."

def seqName (i : ℕ) : String := "seq_" ++ toString i

/-- The states of a sequence of `n` gotos, each falling through to the
next. -/
def seqStates (n : ℕ) : List FsmState :=
  (List.range (n + 1)).map fun i => ⟨seqName i, if i < n then [seqName (i + 1)] else []⟩

/-- A function without a sequence is left alone. -/
def lowerOneFuncSeq (name : String) (body : List Op) : Except String (Option MachineOp) :=
  match body.filterMap seqBody? with
  | [] => .ok none
  | [ops] =>
    match ops.find? fun op => !isGoto op with
    | some op => .error (deferredSeqOp op)
    | none => .ok (some ⟨name, seqName 0, seqStates ops.length⟩)
  | _ => .error "Phase-5 lowering supports at most one nsl.seq per nsl.func body"

/-! ## Units -/

/-- A module of the unit. Its procs are listed apart from the body, which
has them as ops the lowering of the module passes over. -/
structure UnitModule where
  nsl : NslModule
  procs : List ProcOp

namespace UnitModule

variable (m : UnitModule)

def symName : String := m.nsl.symName

def procNames : List String := m.procs.map ProcOp.symName

def func? : Op → Option (String × List Op)
  | .func name body => some (name, body)
  | _ => none

def funcs : List (String × List Op) := m.nsl.body.filterMap func?

end UnitModule

/-- A proc not yet lowered, or a machine already there, has the name. -/
def isProcTarget (procs : List ProcOp) (machines : List String) (callee : String) : Bool :=
  procs.any (fun p => p.symName == callee) || machines.contains callee

/-- The procs in order, behind the machines of those before them. -/
def lowerProcs : List ProcOp → List MachineOp → Except String (List MachineOp)
  | [], machines => .ok machines
  | p :: procs, machines => do
    -- the proc is still in place while its machine is being built
    let names := machines.map MachineOp.symName ++ [p.symName]
    let m ← lowerOneProc (isProcTarget (p :: procs) names) p
    lowerProcs procs (machines ++ [m])

/-- The machines of the procs and those of the sequences. -/
structure Machines where
  procs : List MachineOp
  seqs : List MachineOp

def lowerNSLProcsToFSMMachines (u : List UnitModule) : Except String Machines := do
  let procs ← lowerProcs (u.flatMap UnitModule.procs) []
  let seqs ← (u.flatMap UnitModule.funcs).mapM fun f => lowerOneFuncSeq f.1 f.2
  return ⟨procs, seqs.reduceOption⟩

end FSM

end Nslc
