import Nslc.Lower.Module
/-!
# Guarded writes — the reference

What a body means, independently of the lowering: a walk in source order
that collects every write with its target, the whole chain of its guards
and the value written. The walk is over an arbitrary domain of values
(`Domain`), since it is used twice: with bit vectors it gives the
reference value of every target, and with truth values it says which
values depend on something that is never resolved.
-/

namespace Nslc

namespace Lower

open Dialect Circt

/-- Where a write goes; registers and wires are named by their result. -/
inductive Target where
  | output (name : String)
  | wire (v : Val)
  | reg (v : Val)
  deriving DecidableEq, Repr

/-- Conditions with the truth value each must have. -/
abbrev Guards (D : Type) := List (D × Bool)

structure Write (D : Type) where
  target : Target
  /-- Innermost guard first; empty for an unconditional write. -/
  guards : Guards D
  value : D

/-- A domain to interpret bodies in. -/
structure Domain (D : Type) where
  input : String → ℕ → D
  reg : ℕ → ℕ → D
  /-- A read of an output port, or of a wire before its first write. -/
  unresolved : Val → D
  /-- An expression op with the width of its result. -/
  expr : ℕ → Expr → List D → D
  /-- An expression op standing directly in an `nsl.alt`. -/
  direct : D → D
  zero : ℕ → D
  /-- A value written under guards over a previous one. -/
  guarded : Guards D → D → D → D

variable {D : Type}

/-- What some writes to one target amount to, over what was there and
`idle` where nothing was. -/
def drive (A : Domain D) (idle : D) (prev : Option D) (ws : List (Write D)) : Option D :=
  ws.foldl (fun prev w =>
    some (if w.guards.isEmpty then w.value
      else A.guarded w.guards w.value (prev.getD idle))) prev

structure RefState (D : Type) where
  vals : Val → Option D
  outs : List (Val × String)
  wires : List Val
  regs : List Val
  writes : List (Write D)

namespace RefState

variable (A : Domain D) (st : RefState D)

def read (v : Val) : D := (st.vals v).getD (A.unresolved v)

def define (v : Val) (d : D) : RefState D :=
  { st with vals := fun u => if u = v then some d else st.vals u }

def addWrite (w : Write D) : RefState D := { st with writes := st.writes ++ [w] }

def writesTo (t : Target) : List (Write D) := st.writes.filter fun w => w.target = t

/-- What the writes to an output amount to. -/
def outputDriver (p : String × ℕ) : D :=
  (drive A (A.zero p.2) none (st.writesTo (.output p.1))).getD (A.zero p.2)

def wireDriver (v : Val) : D :=
  (drive A (A.zero v.width) none (st.writesTo (.wire v))).getD (A.zero v.width)

/-- A register without a write keeps its value; `i` is its number. -/
def regDriver (v : Val) (i : ℕ) : D :=
  (drive A (A.reg i v.width) (some (A.reg i v.width)) (st.writesTo (.reg v))).getD
    (A.reg i v.width)

def outName (v : Val) : String := ((st.outs.find? fun p => p.1 = v).map Prod.snd).getD ""

/-- A transfer under guards. What a wire carries so far is what reads
of it behind this point see. -/
def transfer (dst src : Val) (gs : Guards D) : RefState D :=
  if st.outName dst ≠ "" then
    st.addWrite ⟨.output (st.outName dst), gs, st.read A src⟩
  else if dst ∈ st.wires then
    let st := st.addWrite ⟨.wire dst, gs, st.read A src⟩
    st.define dst (st.wireDriver A dst)
  else st

def clockedTransfer (dst src : Val) (gs : Guards D) : RefState D :=
  st.addWrite ⟨.reg dst, gs, st.read A src⟩

/-- The result of an expression op. -/
def exprOp (res : Val) (e : Expr) : D := A.expr res.width e (e.operands.map (st.read A))

end RefState

/-! ## The walk -/

/-- The guards of a case with condition `d` behind cases with conditions
`covered`: its own and none of the earlier ones. -/
def caseGuards (d : D) (covered : List D) : Guards D := (d, true) :: covered.map (·, false)

/-- The guards of a default: none of the conditions before it. -/
def defaultGuards (covered : List D) : Guards D := covered.map (·, false)

mutual

def execOp (A : Domain D) (op : Op) (st : RefState D) (gs : Guards D) : RefState D :=
  match op with
  | .expr res e => st.define res (st.exprOp A res e)
  | .transfer dst src => st.transfer A dst src gs
  | .clockedTransfer dst src => st.clockedTransfer A dst src gs
  | .ifOp cond thenRegion elseRegion =>
    let d := st.read A cond
    execOps A elseRegion (execOps A thenRegion st ((d, true) :: gs)) ((d, false) :: gs)
  | .alt body => execAlt A body st gs []
  | .parallel body | .func _ body => execOps A body st gs
  | _ => st

def execOps (A : Domain D) (ops : List Op) (st : RefState D) (gs : Guards D) : RefState D :=
  match ops with
  | [] => st
  | op :: ops => execOps A ops (execOp A op st gs) gs

/-- The children of `nsl.alt` behind cases with conditions `covered`. -/
def execAlt (A : Domain D) (children : List Op) (st : RefState D) (gs : Guards D)
    (covered : List D) : RefState D :=
  match children with
  | [] => st
  | .case cond body :: children =>
    let d := st.read A cond
    execAlt A children (execOps A body st (caseGuards d covered ++ gs)) gs (covered ++ [d])
  | .default body :: children =>
    execAlt A children (execOps A body st (defaultGuards covered ++ gs)) gs covered
  | .expr res e :: children =>
    -- a result is defined once
    let st := if (st.vals res).isSome then st else st.define res (A.direct (st.exprOp A res e))
    execAlt A children st gs covered
  | _ :: children => execAlt A children st gs covered

end

/-- One op directly in the module. -/
def execBodyOp (A : Domain D) (st : RefState D) (op : Op) : RefState D :=
  match op with
  | .reg res _ _ =>
    ({ st with regs := st.regs ++ [res] } : RefState D).define res (A.reg st.regs.length res.width)
  | .wire res _ => { st with wires := st.wires ++ [res] }
  | .func symName body =>
    if body.any Op.isSeq then st else execOp A (.func symName body) st []
  | op => execOp A op st []

/-- The ports of the module. -/
def execPort (A : Domain D) (m : NslModule) (st : RefState D) (op : Op) : RefState D :=
  match op with
  | .inputPort res name | .inoutPort res name =>
    match m.inputPorts.find? fun p => p.1 = name with
    | none => st
    | some p => st.define res (A.input p.1 p.2)
  | .outputPort res name => { st with outs := st.outs ++ [(res, name)] }
  | _ => st

/-- Registers, wires and outputs are the same. -/
structure SameStorage (st st' : RefState D) : Prop where
  regs : st'.regs = st.regs
  wires : st'.wires = st.wires
  outs : st'.outs = st.outs

theorem SameStorage.refl (st : RefState D) : SameStorage st st := ⟨rfl, rfl, rfl⟩

theorem SameStorage.trans {st st' st'' : RefState D} (h : SameStorage st st')
    (h' : SameStorage st' st'') : SameStorage st st'' :=
  ⟨h'.regs.trans h.regs, h'.wires.trans h.wires, h'.outs.trans h.outs⟩

theorem sameStorage_transfer (A : Domain D) (st : RefState D) (dst src : Val) (gs : Guards D) :
    SameStorage st (st.transfer A dst src gs) := by
  unfold RefState.transfer
  split
  · exact ⟨rfl, rfl, rfl⟩
  · split
    · exact ⟨rfl, rfl, rfl⟩
    · exact .refl st

mutual

/-- Storage is declared directly in the module only. -/
theorem sameStorage_execOp (A : Domain D) (op : Op) (st : RefState D) (gs : Guards D) :
    SameStorage st (execOp A op st gs) := by
  cases op with
  | expr res e => exact ⟨rfl, rfl, rfl⟩
  | transfer dst src => exact sameStorage_transfer A st dst src gs
  | clockedTransfer dst src => exact ⟨rfl, rfl, rfl⟩
  | ifOp cond thenRegion elseRegion =>
    exact (sameStorage_execOps A thenRegion st _).trans (sameStorage_execOps A elseRegion _ _)
  | alt body => exact sameStorage_execAlt A body st gs []
  | parallel body => exact sameStorage_execOps A body st gs
  | func symName body => exact sameStorage_execOps A body st gs
  | _ => exact .refl st

theorem sameStorage_execOps (A : Domain D) (ops : List Op) (st : RefState D) (gs : Guards D) :
    SameStorage st (execOps A ops st gs) := by
  cases ops with
  | nil => exact .refl st
  | cons op ops => exact (sameStorage_execOp A op st gs).trans (sameStorage_execOps A ops _ gs)

theorem sameStorage_execAlt (A : Domain D) (children : List Op) (st : RefState D) (gs : Guards D)
    (covered : List D) : SameStorage st (execAlt A children st gs covered) := by
  cases children with
  | nil => exact .refl st
  | cons child children =>
    cases child with
    | case cond body =>
      exact (sameStorage_execOps A body st _).trans (sameStorage_execAlt A children _ gs _)
    | default body =>
      exact (sameStorage_execOps A body st _).trans (sameStorage_execAlt A children _ gs _)
    | expr res e =>
      refine SameStorage.trans ?_ (sameStorage_execAlt A children _ gs covered)
      split
      · exact .refl st
      · exact ⟨rfl, rfl, rfl⟩
    | _ => exact sameStorage_execAlt A children st gs covered

end

def RefState.initial : RefState D := ⟨fun _ => none, [], [], [], []⟩

def regResult? : Op → Option Val
  | .reg res _ _ => some res
  | _ => none

def wireResult? : Op → Option Val
  | .wire res _ => some res
  | _ => none

theorem execBodyOp_storage (A : Domain D) (st : RefState D) (op : Op) :
    (execBodyOp A st op).regs = st.regs ++ (regResult? op).toList ∧
      (execBodyOp A st op).wires = st.wires ++ (wireResult? op).toList := by
  have hsame : ∀ {st' : RefState D}, SameStorage st st' →
      st'.regs = st.regs ++ [] ∧ st'.wires = st.wires ++ [] := fun h => by
    simp [h.regs, h.wires]
  cases op with
  | reg res name init => exact ⟨rfl, (List.append_nil _).symm⟩
  | wire res name => exact ⟨(List.append_nil _).symm, rfl⟩
  | func symName body =>
    simp only [execBodyOp]
    split
    · exact hsame (.refl st)
    · exact hsame (sameStorage_execOp A (.func symName body) st [])
  | _ => exact hsame (sameStorage_execOp A _ st [])

/-- The registers and wires of a module are the results of their ops. -/
theorem execBodyOps_storage (A : Domain D) (ops : List Op) (st : RefState D) :
    (ops.foldl (execBodyOp A) st).regs = st.regs ++ ops.filterMap regResult? ∧
      (ops.foldl (execBodyOp A) st).wires = st.wires ++ ops.filterMap wireResult? := by
  induction ops generalizing st with
  | nil => simp
  | cons op ops ih =>
    obtain ⟨hr, hw⟩ := ih (execBodyOp A st op)
    obtain ⟨hr', hw'⟩ := execBodyOp_storage A st op
    rw [List.foldl_cons, hr, hw, hr', hw']
    constructor
    · cases h : regResult? op <;> simp [h]
    · cases h : wireResult? op <;> simp [h]

theorem sameStorage_execPort (A : Domain D) (m : NslModule) (st : RefState D) (op : Op) :
    (execPort A m st op).regs = st.regs ∧ (execPort A m st op).wires = st.wires := by
  cases op with
  | inputPort res name => simp only [execPort]; split <;> exact ⟨rfl, rfl⟩
  | inoutPort res name => simp only [execPort]; split <;> exact ⟨rfl, rfl⟩
  | _ => exact ⟨rfl, rfl⟩

def execModule (A : Domain D) (m : NslModule) : RefState D :=
  m.body.foldl (execBodyOp A) (m.body.foldl (execPort A m) .initial)

/-! ## The values of a cycle -/

/-- All guards hold. -/
def Guards.hold (gs : Guards Bits) : Bool := gs.all fun g => g.1.isTrue == g.2

/-- Bit vectors, in a cycle with the given inputs and register values;
`ν` gives values to reads that are not resolved. -/
def bitsDomain (ρ : Valuation) (ν : Val → Bits) : Domain Bits where
  input := fun name w => ⟨w, ρ.arg name w⟩
  reg := fun i w => ⟨w, ρ.reg i w⟩
  unresolved := ν
  expr := Expr.den
  direct := id
  zero := fun w => .const w 0
  guarded := fun gs x prev => if gs.hold then x else prev

/-- The write happens: its whole chain of guards holds. -/
def Write.fires (w : Write Bits) : Bool := Guards.hold w.guards

/-- **The reference value of a target**: the value of the last write that
happens, or what is there without one. -/
def lastWrite (ws : List (Write Bits)) (t : Target) (idle : Bits) : Bits :=
  (((ws.filter fun w => w.target = t ∧ w.fires).getLast?).map Write.value).getD idle

/-! ## What is resolved -/

/-- Truth values: whether a value depends on an output port's or an
unwritten wire's value, or on an expression op directly in `nsl.alt`. An
unconditional write forgets what was there before. -/
def openDomain : Domain Bool where
  input := fun _ _ => false
  reg := fun _ _ => false
  unresolved := fun _ => true
  expr := fun _ _ ds => ds.any id
  direct := fun _ => true
  zero := fun _ => false
  guarded := fun gs x prev => gs.any Prod.fst || x || prev

end Lower

end Nslc
