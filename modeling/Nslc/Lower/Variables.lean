import Mathlib.Data.List.Basic
import Mathlib.Data.List.Nodup
import Mathlib.Data.Int.Notation
/-!
# Variables to wires, arrays of submodules to instances

The structural passes in slots 3 and 4. `NSLExpandVariablesPass` gives
every whole-width write of an `nsl.variable` a wire of its own and rewires
the uses behind it; `NSLExplodeSubmodArrayPass` replaces an array of
submodules by its instances.

One walk carries the current version through the whole region of the
variable. It is post-order, so an op is visited behind what is in it, and
it enters the functions of the module one after the other without going
back to the version it came with.
-/

namespace Nslc

namespace Variables

/-! ## Modules -/

/-- The result of an op, or the op itself where it is told apart from
others. -/
inductive Value where
  | source (n : ℕ)
  /-- The wire of a version of a variable. -/
  | version (v : Value) (k : ℕ)
  /-- An instance of an array of submodules. -/
  | replica (a : Value) (k : ℕ)
  deriving DecidableEq, Repr

/-- What may stand in a module or in a function. -/
inductive Op where
  | variable (result : Value) (name : String)
  | wire (result : Value) (name : String)
  /-- `nsl.transfer` and `nsl.clocked_transfer`. -/
  | transfer (clocked : Bool) (dst src : Value)
  | ifOp (cond : Value) (thenBody elseBody : List Op)
  /-- Any other op, with its `name` or `sym_name`. -/
  | op (mnemonic : String) (name : Option String) (results operands : List Value)
    (body : List Op)

/-- What stands in a module. Functions and submodules stand nowhere else. -/
inductive Item where
  | func (symName : String) (body : List Op)
  | submodule (self : Value) (symName templateRef : String) (arraySize : Option ℤ)
  | op (o : Op)

namespace Op

def results : Op → List Value
  | .variable result _ | .wire result _ => [result]
  | .transfer _ _ _ | .ifOp _ _ _ => []
  | .op _ _ results _ _ => results

def isVariable (v : Value) : Op → Bool
  | .variable result _ => result = v
  | _ => false

end Op

/-! ## Uses -/

section Uses

variable (v : Value)

mutual

/-- The uses of `v` in the order of the walk, `true` for a write that gets
a wire: the destination of a transfer standing directly in a module or a
function. -/
def usesOp (direct : Bool) (o : Op) : List Bool :=
  match o with
  | .variable _ _ | .wire _ _ => []
  | .transfer _ dst src =>
    (if dst = v then [direct] else []) ++ (if src = v then [false] else [])
  | .ifOp cond thenBody elseBody =>
    usesOps false thenBody ++ usesOps false elseBody ++ (if cond = v then [false] else [])
  | .op _ _ _ operands body =>
    usesOps false body ++ (operands.filter (· = v)).map fun _ => false

def usesOps (direct : Bool) (os : List Op) : List Bool :=
  match os with
  | [] => []
  | o :: os => usesOp direct o ++ usesOps direct os

end

def usesItem : Item → List Bool
  | .func _ body => usesOps v true body
  | .submodule _ _ _ _ => []
  | .op o => usesOp v true o

def usesItems (is : List Item) : List Bool := is.flatMap (usesItem v)

end Uses

/-! ## Expansion of a variable -/

section Expand

variable (v : Value) (baseName : String)

/-- `currentValue` after `versionIndex` versions: the wire of the last
one. -/
def currentValue (versionIndex : ℕ) : Value :=
  match versionIndex with
  | 0 => v
  | k + 1 => .version v k

def remap (versionIndex : ℕ) (x : Value) : Value :=
  if x = v then currentValue v versionIndex else x

def wireName (versionIndex : ℕ) : String :=
  if 0 < versionIndex then baseName ++ "_" ++ toString versionIndex else baseName

mutual

/-- The op with its uses rewired, behind the wire it writes, and the
number of versions so far. `direct` says that its parent may hold wires. -/
def visitOp (direct : Bool) (k : ℕ) (o : Op) : List Op × ℕ :=
  match o with
  | .variable result name => ([.variable result name], k)
  | .wire result name => ([.wire result name], k)
  | .transfer clocked dst src =>
    -- the destination is rewired first, so the source sees the new wire
    if dst = v ∧ direct = true then
      ([.wire (.version v k) (wireName baseName k),
        .transfer clocked (.version v k) (remap v (k + 1) src)], k + 1)
    else ([.transfer clocked (remap v k dst) (remap v k src)], k)
  | .ifOp cond thenBody elseBody =>
    let t := visitOps false k thenBody
    let e := visitOps false t.2 elseBody
    ([.ifOp (remap v e.2 cond) t.1 e.1], e.2)
  | .op mnemonic name results operands body =>
    let b := visitOps false k body
    ([.op mnemonic name results (operands.map (remap v b.2)) b.1], b.2)

def visitOps (direct : Bool) (k : ℕ) (os : List Op) : List Op × ℕ :=
  match os with
  | [] => ([], k)
  | o :: os =>
    let r := visitOp direct k o
    let rs := visitOps direct r.2 os
    (r.1 ++ rs.1, rs.2)

end

def visitItem (k : ℕ) : Item → List Item × ℕ
  | .func symName body =>
    let b := visitOps v baseName true k body
    ([.func symName b.1], b.2)
  | .submodule self symName templateRef arraySize =>
    ([.submodule self symName templateRef arraySize], k)
  | .op o =>
    let r := visitOp v baseName true k o
    (r.1.map .op, r.2)

def visitItems (k : ℕ) : List Item → List Item × ℕ
  | [] => ([], k)
  | i :: is =>
    let r := visitItem v baseName k i
    let rs := visitItems r.2 is
    (r.1 ++ rs.1, rs.2)

def Item.isVariable : Item → Bool
  | .op o => o.isVariable v
  | _ => false

/-- A variable of the module: its region is the module's. It goes where no
use is left. -/
def expandInModule (m : List Item) : List Item :=
  let out := (visitItems v baseName 0 m).1
  if (usesItems v out).isEmpty then out.filter fun i => !i.isVariable v else out

/-- A variable of a function. -/
def expandInFunc (body : List Op) : List Op :=
  let out := (visitOps v baseName true 0 body).1
  if (usesOps v true out).isEmpty then out.filter fun o => !o.isVariable v else out

/-- The function whose variable it is; nothing happens to the others. -/
def expandFunc : Item → Item
  | .func symName body =>
    .func symName (if body.any (Op.isVariable v) then expandInFunc v baseName body else body)
  | .submodule self symName templateRef arraySize =>
    .submodule self symName templateRef arraySize
  | .op o => .op o

/-- `expandOne`. A variable standing anywhere else is left alone. -/
def expandOne (m : List Item) : List Item :=
  if m.any (Item.isVariable v) then expandInModule v baseName m
  else m.map (expandFunc v baseName)

end Expand

def Op.variable? : Op → Option (Value × String)
  | .variable result name => some (result, name)
  | _ => none

/-- The variables an item brings, in source order. -/
def Item.variablesIn : Item → List (Value × String)
  | .func _ body => body.filterMap Op.variable?
  | .submodule _ _ _ _ => []
  | .op o => o.variable?.toList

def collectVariables (m : List Item) : List (Value × String) := m.flatMap Item.variablesIn

def expandVariables (m : List Item) : List Item :=
  (collectVariables m).foldl (fun m x => expandOne x.1 x.2 m) m

/-! ## Explosion of arrays -/

def negativeSize : String := "array_size is negative — refusing to expand"

def instanceName (baseName : String) (k : ℕ) : String := baseName ++ "_" ++ toString k

def explodeItem : Item → List Item
  | .submodule self symName templateRef (some size) =>
    if size < 0 then [.submodule self symName templateRef (some size)]
    else (List.range size.toNat).map fun k =>
      .submodule (.replica self k) (instanceName symName k) templateRef none
  | .submodule self symName templateRef none => [.submodule self symName templateRef none]
  | .func symName body => [.func symName body]
  | .op o => [.op o]

/-- What is reported on an array that stays. -/
def explodeError : Item → Option String
  | .submodule _ _ _ (some size) => if size < 0 then some negativeSize else none
  | _ => none

/-- `NSLExplodeSubmodArrayPass`: the module and what it reports. -/
def explodeSubmodArrays (m : List Item) : List Item × List String :=
  (m.flatMap explodeItem, m.filterMap explodeError)

end Variables

end Nslc
