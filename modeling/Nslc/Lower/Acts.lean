import Nslc.Common.Settle
import Nslc.Lower.Guards
/-!
# A body as one list of accesses

NSL statements are concurrent. What a body says, order apart, is an
equation for every expression op and every transfer, and for every
register the writes to it with the guards they stand under. `acts` lists
them in the order of the walk; `Known.step` checks along the list that
whatever is read has its value already, and that wires and outputs are
driven once and unconditionally.
-/

namespace Nslc

namespace Lower

open Dialect Circt

inductive Act where
  | input (res : Val) (name : String) (width : ℕ)
  /-- `index` is the register's number. -/
  | reg (res : Val) (index : ℕ)
  | wire (res : Val)
  | define (res : Val) (e : Expr)
  /-- An unconditional transfer. -/
  | drive (dst src : Val)
  /-- A transfer under guards. -/
  | conditional (dst : Val)
  /-- A read of the condition of `nsl.if` or `nsl.case`. -/
  | test (cond : Val)
  | clocked (dst src : Val) (guards : Guards Val)
  /-- A read of the source of a clocked transfer in `nsl.any`. -/
  | gather (dst src : Val)
  /-- What the cases of an `nsl.any` write to a register. -/
  | join (dst : Val) (terms : List (Guards Val × Val))
  /-- An op the walk reports an error for. -/
  | unhandled
  deriving DecidableEq, Repr

/-- The register an access declares. -/
def Act.reg? : Act → Option Val
  | .reg res _ => some res
  | _ => none

def Act.wire? : Act → Option Val
  | .wire res => some res
  | _ => none

/-- Declarations stand directly in the module. -/
def Act.isDecl : Act → Bool
  | .input _ _ _ | .reg _ _ | .wire _ => true
  | _ => false

/-- The writes gathered for one register of an `nsl.any`. -/
structure AnyTerms where
  target : Val
  terms : List (Guards Val × Val)
  deriving DecidableEq, Repr

def addTerm (dst : Val) (term : Guards Val × Val) (accs : List AnyTerms) : List AnyTerms :=
  if (accs.find? fun a => a.target = dst).isSome then
    updateFirst (fun a => a.target = dst) (fun a => { a with terms := a.terms ++ [term] }) accs
  else accs ++ [⟨dst, [term]⟩]

mutual

/-- The accesses of an op under guards; `top` is off inside `nsl.if`,
`nsl.alt` and `nsl.any`. -/
def acts (top : Bool) (gs : Guards Val) : Op → List Act
  | .expr res e => [.define res e]
  | .transfer dst src => if top then [.drive dst src] else [.conditional dst]
  | .clockedTransfer dst src => [.clocked dst src gs]
  | .ifOp cond thenRegion elseRegion =>
    .test cond :: (actsAll false ((cond, true) :: gs) thenRegion ++
      actsAll false ((cond, false) :: gs) elseRegion)
  | .alt body => actsAlt gs [] body
  | .any body =>
    (actsAny gs [] body).1 ++ (actsAny gs [] body).2.map fun a => .join a.target a.terms
  | .parallel body | .func _ body => actsAll top gs body
  | .inputPort _ _ | .outputPort _ _ | .inoutPort _ _ | .reg _ _ _ | .wire _ _ | .inert _
  | .call _ => []
  | .case _ _ | .default _ | .seq _ | .other _ => [.unhandled]

def actsAll (top : Bool) (gs : Guards Val) : List Op → List Act
  | [] => []
  | op :: ops => acts top gs op ++ actsAll top gs ops

/-- The children of `nsl.alt` behind cases with conditions `covered`. -/
def actsAlt (gs : Guards Val) (covered : List Val) : List Op → List Act
  | [] => []
  | .case cond body :: children =>
    .test cond :: (actsAll false (caseGuards cond covered ++ gs) body ++
      actsAlt gs (covered ++ [cond]) children)
  | .default body :: children =>
    actsAll false (defaultGuards covered ++ gs) body ++ actsAlt gs covered children
  | _ :: children => actsAlt gs covered children

def actsAny (gs : Guards Val) (accs : List AnyTerms) : List Op → List Act × List AnyTerms
  | [] => ([], accs)
  | .case cond body :: children =>
    let (here, accs) := actsAnyBody ((cond, true) :: gs) accs body
    let (rest, accs) := actsAny gs accs children
    (.test cond :: (here ++ rest), accs)
  | .default body :: children =>
    let (here, accs) := actsAnyBody gs accs body
    let (rest, accs) := actsAny gs accs children
    (here ++ rest, accs)
  | _ :: children => actsAny gs accs children

def actsAnyBody (gs : Guards Val) (accs : List AnyTerms) : List Op → List Act × List AnyTerms
  | [] => ([], accs)
  | .transfer dst _ :: ops =>
    let (rest, accs) := actsAnyBody gs accs ops
    (.conditional dst :: rest, accs)
  | .clockedTransfer dst src :: ops =>
    let (rest, accs) := actsAnyBody gs (addTerm dst (gs, src) accs) ops
    (.gather dst src :: rest, accs)
  | op :: ops =>
    let (rest, accs) := actsAnyBody gs accs ops
    (acts false gs op ++ rest, accs)

end

/-- One op directly in the module; registers are numbered by their place
in `regs`. -/
def bodyActs (regs : List Val) : Op → List Act
  | .reg res _ _ => [.reg res (regs.idxOf res)]
  | .wire res _ => [.wire res]
  | .func symName body => if body.any Op.isSeq then [] else acts true [] (.func symName body)
  | op => acts true [] op

def outResult? : Op → Option (Val × String)
  | .outputPort res name => some (res, name)
  | _ => none

namespace NslModule

variable (m : NslModule)

def portActs : Op → List Act
  | .inputPort res name | .inoutPort res name =>
    match m.inputPorts.find? fun p => p.1 = name with
    | none => [.unhandled]
    | some p => [.input res p.1 p.2]
  | _ => []

/-- The accesses of the module: inputs, then the body. -/
def acts : List Act := m.body.flatMap m.portActs ++ m.body.flatMap (bodyActs m.regResults)

/-- The results of the output ports with their names. -/
def outs : List (Val × String) := m.body.filterMap outResult?

end NslModule

/-! ## Order -/

/-- What there is at a point of the walk. -/
structure Known where
  /-- Results with a value. -/
  vals : List Val
  wires : List Val
  /-- Output ports that are driven. -/
  outs : List Val
  regs : List Val
  deriving DecidableEq, Repr

/-- The name of an output port, empty for other results. -/
def portName (outs : List (Val × String)) (v : Val) : String :=
  ((outs.find? fun p => p.1 = v).map Prod.snd).getD ""

namespace Known

def empty : Known := ⟨[], [], [], []⟩

/-- No op before had this result. -/
def fresh (outs : List (Val × String)) (k : Known) (v : Val) : Bool :=
  decide (v ∉ k.vals) && decide (v ∉ k.wires) && portName outs v == ""

/-- One access: what it reads is known, what it gives is new. -/
def step (outs : List (Val × String)) (k : Known) : Act → Option Known
  | .input res _ w =>
    if k.fresh outs res && w == res.width then some { k with vals := res :: k.vals } else none
  | .reg res index =>
    if k.fresh outs res && index == k.regs.length then
      some { k with vals := res :: k.vals, regs := k.regs ++ [res] }
    else none
  | .wire res => if k.fresh outs res then some { k with wires := k.wires ++ [res] } else none
  | .define res e =>
    if k.fresh outs res && e.verify res.width && decide (∀ v ∈ e.operands, v ∈ k.vals) then
      some { k with vals := res :: k.vals }
    else none
  | .drive dst src =>
    if dst.width = src.width ∧ src ∈ k.vals then
      if portName outs dst ≠ "" then
        if dst ∉ k.outs then some { k with outs := dst :: k.outs } else none
      else if dst ∈ k.wires ∧ dst ∉ k.vals then some { k with vals := dst :: k.vals }
      else none
    else none
  | .test cond => if cond ∈ k.vals ∧ cond.width = 1 then some k else none
  | .clocked dst src gs =>
    if dst ∈ k.regs ∧ src ∈ k.vals ∧ dst.width = src.width ∧ ∀ g ∈ gs, g.1 ∈ k.vals then some k
    else none
  | .gather dst src =>
    if dst ∈ k.regs ∧ src ∈ k.vals ∧ dst.width = src.width then some k else none
  | .join dst terms =>
    if dst ∈ k.regs ∧ ∀ t ∈ terms, t.2 ∈ k.vals ∧ ∀ g ∈ t.1, g.1 ∈ k.vals then some k else none
  | .conditional _ | .unhandled => none

/-- A list of accesses. -/
def steps (outs : List (Val × String)) (k : Known) (as : List Act) : Option Known :=
  as.foldlM (step outs) k

end Known

/-- **Bodies in order**: every wire and output has at most one transfer,
an unconditional one, and whatever is read, an output port never, has
its value from an op before. -/
structure InOrder (m : NslModule) : Prop where
  steps : (Known.empty.steps m.outs m.acts).isSome
  ports_nodup : (m.outs.map Prod.snd).Nodup
  clocked : m.regResults ≠ [] → m.declare.isSome

instance (m : NslModule) : Decidable (InOrder m) :=
  decidable_of_iff
    ((Known.empty.steps m.outs m.acts).isSome ∧ (m.outs.map Prod.snd).Nodup ∧
      (m.regResults ≠ [] → m.declare.isSome))
    ⟨fun h => ⟨h.1, h.2.1, h.2.2⟩, fun h => ⟨h.1, h.2, h.3⟩⟩

/-! ## Meaning -/

/-- The equation an access stands for. -/
def Act.assign? (ρ : Valuation) : Act → Option (Assign Val Bits)
  | .input res name w => some ⟨res, [], fun _ => ⟨w, ρ.arg name w⟩⟩
  | .reg res index => some ⟨res, [], fun _ => ⟨res.width, ρ.reg index res.width⟩⟩
  | .define res e => some ⟨res, e.operands, e.den res.width⟩
  | .drive dst src => some ⟨dst, [src], fun bs => bs.headD (.const 0 0)⟩
  | _ => none

/-- The result an access gives a value. -/
def Act.target? : Act → Option Val
  | .input res _ _ | .reg res _ | .define res _ => some res
  | .drive dst _ => some dst
  | _ => none

theorem Act.target?_eq (ρ : Valuation) (a : Act) : a.target? = (a.assign? ρ).map Assign.target := by
  cases a <;> rfl

/-- Guards with the values of an environment. -/
def Guards.values (E : Val → Bits) (gs : Guards Val) : Guards Bits := gs.map fun g => (E g.1, g.2)

/-- A write of `nsl.any`: its value, zero where its case does not fire. -/
def termValue (E : Val → Bits) (t : Guards Val × Val) : Bits :=
  if Guards.hold (Guards.values E t.1) then E t.2 else .const t.2.width 0

def joinValue (E : Val → Bits) : List (Guards Val × Val) → Bits
  | [] => .const 0 0
  | t :: ts => ts.foldl (fun b t => b.map₂ (termValue E t) (· ||| ·)) (termValue E t)

/-- The next value of register `r` after one more access. -/
def Act.next (E : Val → Bits) (r : Val) (b : Bits) : Act → Bits
  | .reg res _ => if res = r then E r else b
  | .clocked dst src gs =>
    if dst = r ∧ Guards.hold (Guards.values E gs) = true then E src else b
  | .join dst terms => if dst = r then b.map₂ (joinValue E terms) (· ||| ·) else b
  | _ => b

/-- The next value of a register: its own, changed by the writes in
order. -/
def nextValue (E : Val → Bits) (r : Val) (as : List Act) : Bits :=
  as.foldl (Act.next E r) (E r)

namespace NslModule

variable (m : NslModule)

/-- The equations of the module. -/
def equations (ρ : Valuation) : List (Assign Val Bits) :=
  m.acts.filterMap (Act.assign? ρ)

/-- **The values of a cycle**: those that satisfy all equations. -/
def cycle (ρ : Valuation) : Val → Bits := settle (fun _ => .const 0 0) (m.equations ρ)

/-- The results that get a value. -/
def targets : List Val := m.acts.filterMap Act.target?

/-- What an output carries in a cycle: zero if it has no transfer. -/
def outputValue (ρ : Valuation) (p : String × ℕ) : Bits :=
  ((m.targets.find? fun v => portName m.outs v = p.1 ∧ p.1 ≠ "").map (m.cycle ρ)).getD (.const p.2 0)

end NslModule

end Lower

end Nslc
