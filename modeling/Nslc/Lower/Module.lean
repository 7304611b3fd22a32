import Nslc.Dialect.Circt
/-!
# Lowering one module to `hw`

`lowerOneModule` of the CIRCT patterns: one forward walk over the body
that maps every `nsl` result to the CIRCT value computing it, and keeps
for every output port, wire and register the driver the writes so far
amount to. A write under guards becomes a `comb.mux` in front of the
previous driver. At the end the wires are materialised, the registers
get their next value, and the `nsl` ops are erased.

The walk is a function of the body to `Except`: a failed
`mlir::cast<IntegerType>` and an op destroyed while its result is in use
stop the compiler, an `emitError` fails the pass.
-/

namespace Nslc

namespace Lower

open Dialect Circt

/-! ## The lowering context -/

inductive LowerError where
  /-- `mlir::cast` to an integer type of a value that has none. -/
  | castFailed
  /-- An erased op whose result is still an operand somewhere. -/
  | destroyedWithUses
  | diag (message : String)
  deriving DecidableEq, Repr

structure RegInfo where
  name : String
  init : ℕ
  /-- The register's own result. -/
  defaultPrev : Value
  pendingNext : Value

structure WireInfo where
  name : String
  origResult : Val
  /-- The running driver; `none` before the first write. -/
  pendingDriver : Option Value

structure Ctx where
  valueMap : Val → Option Value
  outputPortValues : List (Val × String)
  outputAssignments : List (String × Value)
  regs : List RegInfo
  wires : List WireInfo
  /-- Clock and reset ports exist, which takes a paired declare. -/
  clocked : Bool
  /-- The ops emitted into the `hw.module`, in order. -/
  body : List Value
  /-- Results of the ops queued in `pendingErase`. -/
  queued : List Val
  /-- What each operand read so far was resolved to; nothing below looks
  at it. -/
  reads : List (Val × Value)

/-- The first element satisfying `p` updated. -/
def updateFirst {α : Type} (p : α → Bool) (f : α → α) : List α → List α
  | [] => []
  | x :: xs => if p x then f x :: xs else x :: updateFirst p f xs

namespace Ctx

/-- `lookupValue`: an unmapped result stands for itself. -/
def lookupValue (ctx : Ctx) (v : Val) : Value := (ctx.valueMap v).getD (.nsl v)

def recordValueMapping (ctx : Ctx) (v : Val) (x : Value) : Ctx :=
  { ctx with valueMap := fun u => if u = v then some x else ctx.valueMap u }

/-- A new op at the end of the body, told apart by its position. -/
def emit (ctx : Ctx) (k : CombOp) (args : List Value) : Value × Ctx :=
  (.op ctx.body.length k args,
    { ctx with body := ctx.body ++ [.op ctx.body.length k args] })

def queue (ctx : Ctx) (v : Val) : Ctx := { ctx with queued := ctx.queued ++ [v] }

def observe (ctx : Ctx) (vs : List Val) : Ctx :=
  { ctx with reads := ctx.reads ++ vs.map fun v => (v, ctx.lookupValue v) }

/-- The name of the output port `v` is, empty if it is none. -/
def getOutputPortName (ctx : Ctx) (v : Val) : String :=
  ((ctx.outputPortValues.find? fun p => p.1 = v).map Prod.snd).getD ""

def outputAssignment? (ctx : Ctx) (name : String) : Option Value :=
  (ctx.outputAssignments.find? fun p => p.1 = name).map Prod.snd

/-- Replaces the assignment of a port, or appends one. -/
def assignOutput (ctx : Ctx) (name : String) (x : Value) : Ctx :=
  { ctx with
    outputAssignments :=
      if (ctx.outputAssignment? name).isSome then
        updateFirst (fun p => p.1 = name) (fun p => (p.1, x)) ctx.outputAssignments
      else ctx.outputAssignments ++ [(name, x)] }

def wireInfo? (ctx : Ctx) (v : Val) : Option WireInfo :=
  ctx.wires.find? fun w => w.origResult = v

/-- The wire's running driver, which reads of the wire now see. -/
def driveWire (ctx : Ctx) (v : Val) (x : Value) : Ctx :=
  let wires := updateFirst (fun w => w.origResult = v)
    (fun w => { w with pendingDriver := some x }) ctx.wires
  ({ ctx with wires := wires } : Ctx).recordValueMapping v x

def regInfo? (ctx : Ctx) (dst : Value) : Option RegInfo :=
  ctx.regs.find? fun r => r.defaultPrev.same dst

def driveReg (ctx : Ctx) (dst x : Value) : Ctx :=
  { ctx with
    regs := updateFirst (fun r => r.defaultPrev.same dst)
      (fun r => { r with pendingNext := x }) ctx.regs }

end Ctx

/-! ## Expression ops -/

/-- The `comb` op of a binary op. -/
def arithOpFor : BinOp → CombOp
  | .add => .add
  | .sub => .sub
  | .mul => .mul
  | .and | .land => .and
  | .or | .lor => .or
  | .xor => .xor
  | .shl => .shl
  | .shr => .shrU
  | .eq => .icmp .eq
  | .ne => .icmp .ne
  | .lt => .icmp .ult
  | .le => .icmp .ule
  | .gt => .icmp .ugt
  | .ge => .icmp .uge

def lowerArithOp (ctx : Ctx) (k : BinOp) (lhs rhs : Val) : Value × Ctx :=
  ctx.emit (arithOpFor k) [ctx.lookupValue lhs, ctx.lookupValue rhs]

/-- The unary ops: one `comb` op on the operand and a constant of its
width, or the parity. -/
def lowerUnary (ctx : Ctx) (k : UnOp) (a : Value) : Value × Ctx :=
  let zero := ctx.emit (.constant a.width 0) []
  let ones := ctx.emit (.allOnes a.width) []
  match k with
  | .not => ones.2.emit .xor [a, ones.1]
  | .neg => zero.2.emit .sub [zero.1, a]
  | .lnot => zero.2.emit (.icmp .eq) [a, zero.1]
  | .reduceAnd => ones.2.emit (.icmp .eq) [a, ones.1]
  | .reduceOr => zero.2.emit (.icmp .ne) [a, zero.1]
  | .reduceXor => ctx.emit .parity [a]

/-- `lowerBitOp` and the lowering of constants; `res` is the width of
the result. -/
@[grind =] def lowerBitOp (ctx : Ctx) (res : ℕ) (e : Expr) : Except LowerError (Value × Ctx) :=
  match e with
  | .constant value => .ok (ctx.emit (.constant res value) [])
  | .bin k lhs rhs => .ok (lowerArithOp ctx k lhs rhs)
  | .un k operand =>
    let a := ctx.lookupValue operand
    -- the parity is built without asking for the operand's width
    if k = .reduceXor ∨ a.ty.isInt then .ok (lowerUnary ctx k a) else .error .castFailed
  | .signExtend operand =>
    let a := ctx.lookupValue operand
    if a.ty.isInt then
      if res = a.width then .ok (a, ctx)
      else
        let (msb, ctx) := ctx.emit (.extract (a.width - 1) 1) [a]
        let (rep, ctx) := ctx.emit (.replicate (res - a.width)) [msb]
        .ok (ctx.emit (.concat res) [rep, a])
    else .error .castFailed
  | .zeroExtend operand =>
    let a := ctx.lookupValue operand
    if a.ty.isInt then
      if res = a.width then .ok (a, ctx)
      else
        let (zeros, ctx) := ctx.emit (.constant (res - a.width) 0) []
        .ok (ctx.emit (.concat res) [zeros, a])
    else .error .castFailed
  | .mux cond thenValue elseValue =>
    .ok (ctx.emit .mux
      [ctx.lookupValue cond, ctx.lookupValue thenValue, ctx.lookupValue elseValue])
  | .concat operands => .ok (ctx.emit (.concat res) (operands.map ctx.lookupValue))
  | .extract operand lowBit => .ok (ctx.emit (.extract lowBit res) [ctx.lookupValue operand])
  | .repeat operand count =>
    let a := ctx.lookupValue operand
    if a.ty.isInt then .ok (ctx.emit (.replicate (a.width * count)) [a])
    else .error .castFailed

/-- An expression op: its result is mapped and the op queued. -/
def lowerExprOp (ctx : Ctx) (res : Val) (e : Expr) : Except LowerError Ctx := do
  let (x, ctx) ← lowerBitOp ctx res.width e
  return (ctx.recordValueMapping res x).queue res

/-! ## Transfers -/

/-- The driver after a write of `x` under `gate`; a first write under a
gate falls back to zero, of width `width`. -/
def gatedWrite (ctx : Ctx) (gate : Option Value) (x : Value) (prev : Option Value) (width : ℕ) :
    Value × Ctx :=
  match gate with
  | none => (x, ctx)
  | some g =>
    match prev with
    | some p => ctx.emit .mux [g, x, p]
    | none =>
      let (z, ctx) := ctx.emit (.constant width 0) []
      ctx.emit .mux [g, x, z]

def lowerTransferOp (ctx : Ctx) (dst src : Val) (gate : Option Value) : Except LowerError Ctx :=
  let outName := ctx.getOutputPortName dst
  let x := ctx.lookupValue src
  if outName ≠ "" then
    -- the fallback takes its width from the source's integer type
    if gate.isSome && (ctx.outputAssignment? outName).isNone && !x.ty.isInt then
      .error .castFailed
    else
      let (driver, ctx) := gatedWrite ctx gate x (ctx.outputAssignment? outName) x.width
      .ok (ctx.assignOutput outName driver)
  else
    match ctx.wireInfo? dst with
    | none => .error (.diag "transfer destination not a recognised output port or wire")
    | some w =>
      let (driver, ctx) := gatedWrite ctx gate x w.pendingDriver dst.width
      .ok (ctx.driveWire dst driver)

def lowerClockedTransferOp (ctx : Ctx) (dst src : Val) (gate : Option Value) :
    Except LowerError Ctx :=
  let x := ctx.lookupValue src
  let dstMapped := ctx.lookupValue dst
  match ctx.regInfo? dstMapped with
  | none => .error (.diag "clocked_transfer destination is not a known nsl.reg")
  | some r =>
    let (next, ctx) := gatedWrite ctx gate x (some r.pendingNext) 0
    .ok (ctx.driveReg dstMapped next)

/-! ## Guards -/

/-- `condGate AND extraCond`. -/
def andConds (ctx : Ctx) (condGate : Option Value) (extraCond : Value) : Value × Ctx :=
  match condGate with
  | none => (extraCond, ctx)
  | some g => ctx.emit .and [g, extraCond]

/-- The gates of the two branches of `nsl.if`. -/
def ifGates (ctx : Ctx) (cond : Value) (gate : Option Value) :
    Except LowerError (Value × Value × Ctx) :=
  let (thenCond, ctx) := andConds ctx gate cond
  if cond.ty.isInt then
    let (z, ctx) := ctx.emit (.constant cond.width 0) []
    let (notCond, ctx) := ctx.emit (.icmp .eq) [cond, z]
    let (elseCond, ctx) := andConds ctx gate notCond
    .ok (thenCond, elseCond, ctx)
  else .error .castFailed

/-- No earlier case of an `nsl.alt` fired. -/
def notCovered (ctx : Ctx) (covered : Value) : Value × Ctx :=
  let (z, ctx) := ctx.emit (.constant 1 0) []
  ctx.emit (.icmp .eq) [covered, z]

/-- The gate of a case of `nsl.alt` behind cases covering `covered`. -/
def caseGate (ctx : Ctx) (cond : Value) (gate covered : Option Value) : Value × Ctx :=
  let (uncovered, ctx) :=
    match covered with
    | none => ctx.emit (.constant 1 1) []
    | some c => notCovered ctx c
  let (fires, ctx) := ctx.emit .and [uncovered, cond]
  andConds ctx gate fires

/-- `coveredSoFar` behind a case. -/
def coverCase (ctx : Ctx) (cond : Value) (covered : Option Value) : Value × Ctx :=
  match covered with
  | none => (cond, ctx)
  | some c => ctx.emit .or [c, cond]

/-- The gate of the default of `nsl.alt`. -/
def defaultGate (ctx : Ctx) (gate covered : Option Value) : Option Value × Ctx :=
  match covered with
  | none => (gate, ctx)
  | some c =>
    let (notCov, ctx) := notCovered ctx c
    let (gated, ctx) := andConds ctx gate notCov
    (some gated, ctx)

/-! ## `nsl.any` -/

/-- One target of an `nsl.any` with the writes gathered for it. -/
structure AnyTargetAccum where
  target : Val
  isClocked : Bool
  orAccum : Value

/-- A write of `src` to `target` in a case that fires under `caseCond`:
its value or zero, joined to what the other cases write there. -/
def accumulateAny (ctx : Ctx) (target src : Val) (isClocked : Bool) (caseCond : Value)
    (accums : List AnyTargetAccum) : Except LowerError (Ctx × List AnyTargetAccum) :=
  let x := ctx.lookupValue src
  if x.ty.isInt then
    let (z, ctx) := ctx.emit (.constant x.width 0) []
    let (envelope, ctx) := ctx.emit .mux [caseCond, x, z]
    let isTarget : AnyTargetAccum → Bool := fun a => a.target = target && a.isClocked == isClocked
    match accums.find? isTarget with
    | none => .ok (ctx, accums ++ [⟨target, isClocked, envelope⟩])
    | some a =>
      let (joined, ctx) := ctx.emit .or [a.orAccum, envelope]
      .ok (ctx, updateFirst isTarget (fun a => { a with orAccum := joined }) accums)
  else .error .castFailed

/-- The gathered value joined to the previous driver. -/
def joinPrior (ctx : Ctx) (prior : Option Value) (x : Value) : Value × Ctx :=
  match prior with
  | none => (x, ctx)
  | some p => ctx.emit .or [p, x]

def applyAccum (ctx : Ctx) (a : AnyTargetAccum) : Except LowerError Ctx :=
  if a.isClocked then
    let dstMapped := ctx.lookupValue a.target
    match ctx.regInfo? dstMapped with
    | none => .error (.diag "any-case clocked_transfer target is not a known nsl.reg")
    | some r =>
      let (next, ctx) := ctx.emit .or [r.pendingNext, a.orAccum]
      .ok (ctx.driveReg dstMapped next)
  else if ctx.getOutputPortName a.target ≠ "" then
    let outName := ctx.getOutputPortName a.target
    let (x, ctx) := joinPrior ctx (ctx.outputAssignment? outName) a.orAccum
    .ok (ctx.assignOutput outName x)
  else
    match ctx.wireInfo? a.target with
    | none => .error (.diag "any-case transfer target not a recognised port or wire")
    | some w =>
      let (x, ctx) := joinPrior ctx w.pendingDriver a.orAccum
      .ok (ctx.driveWire a.target x)

/-! ## The walk -/

/-- `<callee>_valid`, driven by the gate of the call. -/
def lowerCallOp (ctx : Ctx) (callee : String) (gate : Option Value) : Ctx :=
  match gate with
  | some g => (ctx.emit (.wire (callee ++ "_valid")) [g]).2
  | none =>
    let (one, ctx) := ctx.emit (.constant 1 1) []
    (ctx.emit (.wire (callee ++ "_valid")) [one]).2

def unhandledOp (mnemonic : String) : LowerError :=
  .diag ("unhandled nsl op in lowerControlOp dispatch: '" ++ mnemonic ++
    "'; add a case to the switch or lower it earlier in lowerBodyOps")

mutual

/-- `lowerControlOp`, under the gate of the enclosing guards. -/
@[grind =] def lowerControlOp (op : Op) (ctx : Ctx) (gate : Option Value) : Except LowerError Ctx :=
  match op with
  | .inputPort _ _ | .outputPort _ _ | .inoutPort _ _ => .ok ctx
  | .expr res e => lowerExprOp (ctx.observe e.operands) res e
  | .transfer dst src => lowerTransferOp (ctx.observe [src]) dst src gate
  | .clockedTransfer dst src => lowerClockedTransferOp (ctx.observe [src]) dst src gate
  | .ifOp cond thenRegion elseRegion => do
    let ctx := ctx.observe [cond]
    let (thenCond, elseCond, ctx) ← ifGates ctx (ctx.lookupValue cond) gate
    let ctx ← lowerControlOps thenRegion ctx (some thenCond)
    lowerControlOps elseRegion ctx (some elseCond)
  | .alt body => lowerAltChildren body ctx gate none
  | .any body => do
    let (ctx, accums) ← lowerAnyChildren body ctx gate none []
    accums.foldlM applyAccum ctx
  | .call callee => .ok (lowerCallOp ctx callee gate)
  | .parallel body | .func _ body => lowerControlOps body ctx gate
  -- nested storage is skipped: it "should already have been visited at the outer body walk"
  | .reg _ _ _ | .wire _ _ | .inert _ => .ok ctx
  | .case _ _ => .error (unhandledOp "nsl.case")
  | .default _ => .error (unhandledOp "nsl.default")
  | .seq _ => .error (unhandledOp "nsl.seq")
  | .other mnemonic => .error (unhandledOp mnemonic)

def lowerControlOps (ops : List Op) (ctx : Ctx) (gate : Option Value) : Except LowerError Ctx :=
  match ops with
  | [] => .ok ctx
  | op :: ops => do
    let ctx ← lowerControlOp op ctx gate
    lowerControlOps ops ctx gate

/-- The children of `nsl.alt`. Only cases and defaults are lowered: an
expression op among them stays as it is. -/
def lowerAltChildren (children : List Op) (ctx : Ctx) (gate covered : Option Value) :
    Except LowerError Ctx :=
  match children with
  | [] => .ok ctx
  | .case cond body :: children => do
    let ctx := ctx.observe [cond]
    let caseCond := ctx.lookupValue cond
    let (gated, ctx) := caseGate ctx caseCond gate covered
    let ctx ← lowerControlOps body ctx (some gated)
    let (covered, ctx) := coverCase ctx caseCond covered
    lowerAltChildren children ctx gate (some covered)
  | .default body :: children => do
    let (gated, ctx) := defaultGate ctx gate covered
    let ctx ← lowerControlOps body ctx gated
    lowerAltChildren children ctx gate covered
  | _ :: children => lowerAltChildren children ctx gate covered

/-- The children of `nsl.any`, cases and defaults only; `one` is the
constant a default without a gate fires on, once it is there. -/
def lowerAnyChildren (children : List Op) (ctx : Ctx) (gate one : Option Value)
    (accums : List AnyTargetAccum) : Except LowerError (Ctx × List AnyTargetAccum) :=
  match children with
  | [] => .ok (ctx, accums)
  | .case cond body :: children => do
    let ctx := ctx.observe [cond]
    let (gated, ctx) := andConds ctx gate (ctx.lookupValue cond)
    let (ctx, accums) ← accumulateAnyCaseBody body ctx gated accums
    lowerAnyChildren children ctx gate one accums
  | .default body :: children => do
    let (gated, ctx) :=
      match gate.or one with
      | some g => (g, ctx)
      | none => ctx.emit (.constant 1 1) []
    let (ctx, accums) ← accumulateAnyCaseBody body ctx gated accums
    lowerAnyChildren children ctx gate (if gate.isSome then one else some gated) accums
  | _ :: children => lowerAnyChildren children ctx gate one accums

def accumulateAnyCaseBody (ops : List Op) (ctx : Ctx) (caseCond : Value)
    (accums : List AnyTargetAccum) : Except LowerError (Ctx × List AnyTargetAccum) :=
  match ops with
  | [] => .ok (ctx, accums)
  | .transfer dst src :: ops => do
    let (ctx, accums) ← accumulateAny (ctx.observe [src]) dst src false caseCond accums
    accumulateAnyCaseBody ops ctx caseCond accums
  | .clockedTransfer dst src :: ops => do
    let (ctx, accums) ← accumulateAny (ctx.observe [src]) dst src true caseCond accums
    accumulateAnyCaseBody ops ctx caseCond accums
  | op :: ops => do
    let ctx ← lowerControlOp op ctx (some caseCond)
    accumulateAnyCaseBody ops ctx caseCond accums

end

/-! ## Module bodies -/

def lowerRegOp (ctx : Ctx) (res : Val) (name : String) (init : ℕ) : Except LowerError Ctx :=
  if ctx.clocked then
    let own : Value := .reg ctx.regs.length res.width
    let ctx : Ctx := { ctx with regs := ctx.regs ++ [⟨name, init, own, own⟩] }
    .ok ((ctx.recordValueMapping res own).queue res)
  else
    .error (.diag ("no-interface module requires implicit clk + rst_n ports for nsl.reg lowering, "
      ++ "but they were not constructed"))

def lowerWireOp (ctx : Ctx) (res : Val) (name : String) : Ctx :=
  ({ ctx with wires := ctx.wires ++ [⟨name, res, none⟩] } : Ctx).queue res

/-- One op directly in the module. -/
@[grind =] def lowerBodyOp (ctx : Ctx) (op : Op) : Except LowerError Ctx :=
  match op with
  | .inputPort _ _ | .outputPort _ _ | .inoutPort _ _ => .ok ctx
  | .reg res name init => lowerRegOp ctx res name init
  | .wire res name => .ok (lowerWireOp ctx res name)
  | .func symName body =>
    -- a sequential body is left to the lowering of procs
    if body.any Op.isSeq then .ok ctx
    else lowerControlOp (.func symName body) ctx none
  | op => lowerControlOp op ctx none

def lowerBodyOps (ops : List Op) (ctx : Ctx) : Except LowerError Ctx := ops.foldlM lowerBodyOp ctx

/-! ## Modules -/

/-- The declare paired with a module: its ports with their widths, and
the clock and reset an `interface` clause names. -/
structure Declare where
  /-- Inputs and inouts, in order. -/
  inputs : List (String × ℕ)
  outputs : List (String × ℕ)
  interface : Option (String × String)

structure NslModule where
  symName : String
  declare : Option Declare
  body : List Op

/-- The inputs of the `hw.module`: the declared ones, then clock and
reset. -/
def Declare.inputPorts (d : Declare) : List (String × ℕ) :=
  d.inputs ++
    match d.interface with
    | some (clk, rst) => [(clk, 1), (rst, 1)]
    | none => [("m_clock", 1), ("p_reset", 1)]

namespace NslModule

def inputPorts (m : NslModule) : List (String × ℕ) := (m.declare.map Declare.inputPorts).getD []

def outputPorts (m : NslModule) : List (String × ℕ) := (m.declare.map Declare.outputs).getD []

def lookupInputArg (m : NslModule) (name : String) : Option Value :=
  (m.inputPorts.find? fun p => p.1 = name).map fun p => .arg p.1 p.2

end NslModule

def missingPort (kind name : String) : LowerError :=
  .diag ("in-module nsl." ++ kind ++ " \"" ++ name ++ "\" not in paired declare's port list")

/-- The pre-scan of one op: port mappings. -/
def scanPort (m : NslModule) (ctx : Ctx) (op : Op) : Except LowerError Ctx :=
  match op with
  | .inputPort res name =>
    match m.lookupInputArg name with
    | none => .error (missingPort "input_port" name)
    | some x => .ok (ctx.recordValueMapping res x)
  | .inoutPort res name =>
    match m.lookupInputArg name with
    | none => .error (missingPort "inout_port" name)
    | some x => .ok (ctx.recordValueMapping res x)
  | .outputPort res name =>
    .ok { ctx with outputPortValues := ctx.outputPortValues ++ [(res, name)] }
  | _ => .ok ctx

def Ctx.initial (m : NslModule) : Ctx where
  valueMap := fun _ => none
  outputPortValues := []
  outputAssignments := []
  regs := []
  wires := []
  clocked := m.declare.isSome
  body := []
  queued := []
  reads := []

/-- The port scan and the walk over the body. -/
def walkModule (m : NslModule) : Except LowerError Ctx := do
  let ctx ← m.body.foldlM (scanPort m) (Ctx.initial m)
  lowerBodyOps m.body ctx

/-- One `hw.wire` with its driver; assignments that captured the driver
are moved to the wire's result. -/
def finaliseWire (ctx : Ctx) (w : WireInfo) : Value × Ctx :=
  let (driver, ctx) :=
    match w.pendingDriver with
    | some d => (d, ctx)
    | none => ctx.emit (.constant w.origResult.width 0) []
  let (wire, ctx) := ctx.emit (.wire w.name) [driver]
  let assignments := ctx.outputAssignments.map fun p =>
    if w.pendingDriver.any p.2.same then (p.1, wire) else p
  (driver, ({ ctx with outputAssignments := assignments } : Ctx).recordValueMapping w.origResult wire)

/-- The wires in order, with their drivers. -/
def finaliseWires (ctx : Ctx) : List WireInfo → List (String × Value) × Ctx
  | [] => ([], ctx)
  | w :: ws =>
    let (driver, ctx) := finaliseWire ctx w
    let (drivers, ctx) := finaliseWires ctx ws
    ((w.name, driver) :: drivers, ctx)

structure HWModule where
  /-- The operands of `hw.output`. -/
  outputs : List (String × Value)
  /-- The inputs of the `hw.wire`s. -/
  wires : List (String × Value)
  /-- Name, reset value and next value of the registers. -/
  regs : List (String × ℕ × Value)
  body : List Value

/-- The driver `hw.output` gets for a port. -/
def outputOperand (ctx : Ctx) (p : String × ℕ) : Value × Ctx :=
  match ctx.outputAssignment? p.1 with
  | some x => (x, ctx)
  | none => ctx.emit (.constant p.2 0) []

/-- The operands for the ports in order. -/
def outputOperands (ctx : Ctx) : List (String × ℕ) → List (String × Value) × Ctx
  | [] => ([], ctx)
  | p :: ps =>
    let (x, ctx) := outputOperand ctx p
    let (xs, ctx) := outputOperands ctx ps
    ((p.1, x) :: xs, ctx)

/-- The module when the uses of the queued ops are dropped and the ops
erased. An op that is erased with its container without having been
queued must have no use left. -/
def eraseOps (m : NslModule) (hw : HWModule) (queued : List Val) : Except LowerError HWModule :=
  let gone := queued ++ m.body.filterMap Op.portResult?
  let live := hw.body ++ hw.outputs.map Prod.snd ++ hw.regs.map fun r => r.2.2
  if live.any (Value.mentions fun v => v ∉ gone) then .error .destroyedWithUses
  else .ok
    { outputs := hw.outputs.map fun p => (p.1, p.2.dropUses)
      wires := hw.wires.map fun p => (p.1, p.2.dropUses)
      regs := hw.regs.map fun r => (r.1, r.2.1, r.2.2.dropUses)
      body := Value.dropAllUses hw.body }

/-- Wires, registers, `hw.output`, and the erasure of the `nsl` ops. -/
def finishModule (m : NslModule) (ctx : Ctx) : Except LowerError HWModule :=
  let (wires, ctx) := finaliseWires ctx ctx.wires
  let (outputs, ctx) := outputOperands ctx m.outputPorts
  eraseOps m
    { outputs := outputs
      wires := wires
      regs := ctx.regs.map fun r => (r.name, r.init, r.pendingNext)
      body := ctx.body } ctx.queued

def lowerOneModule (m : NslModule) : Except LowerError HWModule := do
  let ctx ← walkModule m
  finishModule m ctx

end Lower

end Nslc
