import Nslc.Lower.Acts
/-!
# The flow of values through a body

What each op of a body needs and gives, in the order of the source and in
its terms. A result has a value once it is an input, a register, the
result of an expression op over values, or a wire that was written with a
value. The walk is over any algebra of values, so that it can be read
twice: without values it says which bodies are in order, and over bit
vectors it is their meaning.

Two things end a walk. A transfer to something that is no storage of the
module is reported. A place where a value is needed and there is none, or
where a condition of more than one bit guards something, spoils the body.
-/

namespace Nslc

namespace Lower

open Dialect Circt

/-- Values and the few operations the guards use. -/
structure Algebra (D : Type) where
  input : String → ℕ → D
  reg : ℕ → ℕ → D
  /-- An expression op with the width of its result. -/
  expr : ℕ → Expr → List D → D
  const : ℕ → ℕ → D
  /-- Conditions that both hold. -/
  both : D → D → D
  /-- Bitwise, of conditions and of values. -/
  join : D → D → D
  /-- A value of the given width is zero. -/
  isZero : ℕ → D → D
  select : D → D → D → D
  /-- What the body of a function is guarded by, if anything. -/
  enter : String → Option D

inductive Flaw where
  | reported
  | spoiled
  deriving DecidableEq, Repr

/-- A condition; one that has no value guards nothing. -/
structure Cond (D : Type) where
  width : ℕ
  value : Option D

/-- What there is at a point of the walk. Drivers are `none` before the
first write, and `some none` where the write had no value. -/
structure Scope (D : Type) where
  vals : Val → Option D
  wires : List Val
  regs : List Val
  outDriver : String → Option (Option D)
  wireDriver : Val → Option (Option D)
  regDriver : Val → Option D
  /-- Callees with the guard of the call. -/
  calls : List (String × D)

variable {D : Type}

namespace Cond

def bit (d : D) : Cond D := ⟨1, some d⟩

/-- The value of a one-bit condition. -/
def bit? (c : Cond D) : Option D := if c.width = 1 then c.value else none

end Cond

namespace Scope

variable (sc : Scope D)

def define (v : Val) (d : Option D) : Scope D :=
  { sc with vals := fun u => if u = v then d else sc.vals u }

def driveOut (name : String) (d : Option D) : Scope D :=
  { sc with outDriver := fun n => if n = name then some d else sc.outDriver n }

/-- Reads of the wire see what it was given last. -/
def driveWire (v : Val) (d : Option D) : Scope D :=
  { sc with wireDriver := fun u => if u = v then some d else sc.wireDriver u }.define v d

def driveReg (v : Val) (d : Option D) : Scope D :=
  { sc with regDriver := fun u => if u = v then d else sc.regDriver u }

def addCall (callee : String) (d : D) : Scope D := { sc with calls := sc.calls ++ [(callee, d)] }

end Scope

/-! ## Values, guards and writes -/

section Walk

variable (A : Algebra D) (outs : List (Val × String))

/-- A sign has to be there to be extended. -/
def Expr.signed (res : ℕ) : Expr → Bool
  | .signExtend a => a.width != 0 || res == 0
  | _ => true

def flowExpr (sc : Scope D) (res : Val) (e : Expr) : Except Flaw (Scope D) :=
  match e.operands.mapM sc.vals with
  | some ds =>
    if Expr.signed res.width e then .ok (sc.define res (some (A.expr res.width e ds)))
    else .error .spoiled
  | none => .error .spoiled

/-- What a driver becomes under a guard: without one whatever is
written, else a value over a value. -/
def flowWrite (gate : Option (Cond D)) (src : Option D) (prev : Option (Option D)) (w : ℕ) :
    Except Flaw (Option D) :=
  match gate with
  | none => .ok src
  | some c =>
    match c.bit?, src, prev.getD (some (A.const w 0)) with
    | some g, some x, some p => .ok (some (A.select g x p))
    | _, _, _ => .error .spoiled

def flowTransfer (sc : Scope D) (gate : Option (Cond D)) (dst src : Val) :
    Except Flaw (Scope D) :=
  if portName outs dst ≠ "" then do
    let d ← flowWrite A gate (sc.vals src) (sc.outDriver (portName outs dst)) dst.width
    return sc.driveOut (portName outs dst) d
  else if dst ∈ sc.wires then do
    let d ← flowWrite A gate (sc.vals src) (sc.wireDriver dst) dst.width
    return sc.driveWire dst d
  else .error .reported

def flowClocked (sc : Scope D) (gate : Option (Cond D)) (dst src : Val) :
    Except Flaw (Scope D) :=
  if dst ∈ sc.regs then do
    let d ← flowWrite A gate (sc.vals src) (some (sc.regDriver dst)) dst.width
    return sc.driveReg dst d
  else .error .reported

/-- A guard inside the one there is; both are then one bit. -/
def narrow (gate : Option (Cond D)) (c : Cond D) : Except Flaw (Cond D) :=
  match gate with
  | none => .ok c
  | some g =>
    match g.value, c.value with
    | some x, some y => if g.width = c.width then .ok ⟨c.width, some (A.both x y)⟩ else .error .spoiled
    | _, _ => .error .spoiled

/-- The guards of the two branches of `nsl.if`. -/
def flowIf (sc : Scope D) (gate : Option (Cond D)) (cond : Val) :
    Except Flaw (Cond D × Cond D) :=
  match sc.vals cond with
  | none => .error .spoiled
  | some d => do
    let thenGate ← narrow A gate ⟨cond.width, some d⟩
    let elseGate ← narrow A gate (.bit (A.isZero cond.width d))
    return (thenGate, elseGate)

/-- No earlier case covers the cycle. -/
def uncovered (covered : Option D) : D :=
  (covered.map (A.isZero 1)).getD (A.const 1 1)

/-- The guard of a case of `nsl.alt`, and its condition. -/
def flowCase (sc : Scope D) (gate : Option (Cond D)) (covered : Option D) (cond : Val) :
    Except Flaw (Cond D × D) :=
  match (Cond.mk cond.width (sc.vals cond)).bit? with
  | none => .error .spoiled
  | some d => do
    let fires ← narrow A gate (.bit (A.both (uncovered A covered) d))
    return (fires, d)

def cover (covered : Option D) (d : D) : D := (covered.map (A.join · d)).getD d

def flowDefault (gate : Option (Cond D)) (covered : Option D) : Except Flaw (Option (Cond D)) :=
  match covered with
  | none => .ok gate
  | some c => do
    let g ← narrow A gate (.bit (A.isZero 1 c))
    return some g

def flowCall (sc : Scope D) (gate : Option (Cond D)) (callee : String) : Except Flaw (Scope D) :=
  match gate with
  | none => .ok (sc.addCall callee (A.const 1 1))
  | some c =>
    match c.bit? with
    | none => .error .spoiled
    | some g => .ok (sc.addCall callee g)

/-! ## `nsl.any` -/

/-- What the cases of an `nsl.any` write to one target. -/
structure Gathered (D : Type) where
  target : Val
  isClocked : Bool
  value : D

def gather (sc : Scope D) (c : Cond D) (target src : Val) (isClocked : Bool)
    (accs : List (Gathered D)) : Except Flaw (List (Gathered D)) :=
  match c.bit?, sc.vals src with
  | some g, some x =>
    let envelope := A.select g x (A.const src.width 0)
    let isTarget : Gathered D → Bool := fun a => a.target = target && a.isClocked == isClocked
    match accs.find? isTarget with
    | none => .ok (accs ++ [⟨target, isClocked, envelope⟩])
    | some _ =>
      .ok (updateFirst isTarget (fun a => { a with value := A.join a.value envelope }) accs)
  | _, _ => .error .spoiled

/-- The gathered value joined to what was there. -/
def flowJoin (prev : Option (Option D)) (x : D) : Except Flaw (Option D) :=
  match prev with
  | none => .ok (some x)
  | some (some p) => .ok (some (A.join p x))
  | some none => .error .spoiled

def applyGathered (sc : Scope D) (a : Gathered D) : Except Flaw (Scope D) :=
  if a.isClocked then
    if a.target ∈ sc.regs then do
      let d ← flowJoin A (some (sc.regDriver a.target)) a.value
      return sc.driveReg a.target d
    else .error .reported
  else if portName outs a.target ≠ "" then do
    let d ← flowJoin A (sc.outDriver (portName outs a.target)) a.value
    return sc.driveOut (portName outs a.target) d
  else if a.target ∈ sc.wires then do
    let d ← flowJoin A (sc.wireDriver a.target) a.value
    return sc.driveWire a.target d
  else .error .reported

/-- The guard of the body of a function. -/
def flowEnter (gate : Option (Cond D)) (name : String) : Except Flaw (Option (Cond D)) :=
  match A.enter name with
  | none => .ok gate
  | some d => do
    let g ← narrow A gate (.bit d)
    return some g

/-! ## The walk -/

mutual

@[grind =] def flowOp (op : Op) (sc : Scope D) (gate : Option (Cond D)) : Except Flaw (Scope D) :=
  match op with
  | .inputPort _ _ | .outputPort _ _ | .inoutPort _ _ | .reg _ _ _ | .wire _ _ | .inert _ => .ok sc
  | .expr res e => flowExpr A sc res e
  | .transfer dst src => flowTransfer A outs sc gate dst src
  | .clockedTransfer dst src => flowClocked A sc gate dst src
  | .ifOp cond thenRegion elseRegion => do
    let (thenGate, elseGate) ← flowIf A sc gate cond
    let sc ← flowOps thenRegion sc (some thenGate)
    flowOps elseRegion sc (some elseGate)
  | .alt body => flowAlt body sc gate none
  | .any body => do
    let (sc, accs) ← flowAny body sc gate []
    accs.foldlM (applyGathered A outs) sc
  | .call callee => flowCall A sc gate callee
  | .parallel body => flowOps body sc gate
  | .func name body => do
    let gate ← flowEnter A gate name
    flowOps body sc gate
  | .case _ _ | .default _ | .seq _ | .other _ => .error .reported

def flowOps (ops : List Op) (sc : Scope D) (gate : Option (Cond D)) : Except Flaw (Scope D) :=
  match ops with
  | [] => .ok sc
  | op :: ops => do
    let sc ← flowOp op sc gate
    flowOps ops sc gate

/-- The children of `nsl.alt` behind cases that cover `covered`. -/
def flowAlt (children : List Op) (sc : Scope D) (gate : Option (Cond D)) (covered : Option D) :
    Except Flaw (Scope D) :=
  match children with
  | [] => .ok sc
  | .case cond body :: children => do
    let (fires, d) ← flowCase A sc gate covered cond
    let sc ← flowOps body sc (some fires)
    flowAlt children sc gate (some (cover A covered d))
  | .default body :: children => do
    let fires ← flowDefault A gate covered
    let sc ← flowOps body sc fires
    flowAlt children sc gate covered
  | _ :: children => flowAlt children sc gate covered

@[grind =] def flowAny (children : List Op) (sc : Scope D) (gate : Option (Cond D))
    (accs : List (Gathered D)) : Except Flaw (Scope D × List (Gathered D)) :=
  match children with
  | [] => .ok (sc, accs)
  | .case cond body :: children => do
    let fires ← narrow A gate ⟨cond.width, sc.vals cond⟩
    let (sc, accs) ← flowAnyBody body sc fires accs
    flowAny children sc gate accs
  | .default body :: children => do
    let (sc, accs) ← flowAnyBody body sc (gate.getD (.bit (A.const 1 1))) accs
    flowAny children sc gate accs
  | _ :: children => flowAny children sc gate accs

def flowAnyBody (ops : List Op) (sc : Scope D) (c : Cond D) (accs : List (Gathered D)) :
    Except Flaw (Scope D × List (Gathered D)) :=
  match ops with
  | [] => .ok (sc, accs)
  | .transfer dst src :: ops => do
    let accs ← gather A sc c dst src false accs
    flowAnyBody ops sc c accs
  | .clockedTransfer dst src :: ops => do
    let accs ← gather A sc c dst src true accs
    flowAnyBody ops sc c accs
  | op :: ops => do
    let sc ← flowOp op sc (some c)
    flowAnyBody ops sc c accs

end

/-! ## Modules -/

/-- A register starts with its own value. -/
def Scope.addReg (sc : Scope D) (res : Val) : Scope D :=
  let own := some (A.reg sc.regs.length res.width)
  ({ sc with regs := sc.regs ++ [res] } : Scope D).driveReg res own |>.define res own

/-- One op directly in the module; a register needs a clock. -/
def flowBodyOp (clocked : Bool) (sc : Scope D) (op : Op) : Except Flaw (Scope D) :=
  match op with
  | .reg res _ _ =>
    if clocked then .ok (sc.addReg A res) else .error .reported
  | .wire res _ => .ok { sc with wires := sc.wires ++ [res] }
  | .func name body => if body.any Op.isSeq then .ok sc else flowOp A outs (.func name body) sc none
  | op => flowOp A outs op sc none

/-- The inputs of the module. -/
def flowPort (m : NslModule) (sc : Scope D) (op : Op) : Except Flaw (Scope D) :=
  match op with
  | .inputPort res name | .inoutPort res name =>
    match m.inputPorts.find? fun p => p.1 = name with
    | none => .error .reported
    | some p => .ok (sc.define res (some (A.input p.1 p.2)))
  | _ => .ok sc

def Scope.empty : Scope D := ⟨fun _ => none, [], [], fun _ => none, fun _ => none, fun _ => none, []⟩

/-- Every driver has a value in the end. -/
def Scope.settled (sc : Scope D) (m : NslModule) : Bool :=
  (m.outputPorts.all fun p => !(sc.outDriver p.1).any Option.isNone) &&
    (sc.wires.all fun v => !(sc.wireDriver v).any Option.isNone) &&
      sc.regs.all fun v => (sc.regDriver v).isSome

def flowModule (m : NslModule) : Except Flaw (Scope D) := do
  let sc ← m.body.foldlM (flowPort A m) .empty
  let sc ← m.body.foldlM (flowBodyOp A m.outs m.declare.isSome) sc
  if sc.settled m then .ok sc else .error .spoiled

end Walk

end Lower

end Nslc
