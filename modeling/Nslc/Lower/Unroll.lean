import Nslc.Lower.ExpandGenerate
/-!
# Generate expansion as unrolling

The expansion of generates with the values of the ops. The walk of
`NSLExpandGeneratePass` is post-order, so the generate it finds has none
inside, every expansion takes exactly one away, and what is copied is
unrolled already. `unroll` is the reference: it goes into a generate once
for each iteration and keeps the iterations around an op as frames, the
innermost first. `expandGenerate_iff` says that the pass computes it
exactly where the count of no generate leaves 64 bits.
-/

namespace Nslc

namespace Passes

namespace Ssa

/-! ## Operations with values -/

/-- A result of an op as it comes in, or its copy in the `k`th replica of
a body. -/
inductive Value where
  | source (n : ℕ)
  | copy (k : ℕ) (v : Value)
  deriving DecidableEq, Repr

def Value.base : Value → ℕ
  | .source n => n
  | .copy _ v => v.base

inductive Op where
  | op (name : Text) (attrs : List (Text × Attr)) (operands results : List Value)
      (regions : List (List Op))
  /-- `nsl.structural_generate`; it has no results. -/
  | generate (lower upper step : ℤ) (loopVar : Option Text) (attrs : List (Text × Attr))
      (body : List Op)

def Op.results : Op → List Value
  | .op _ _ _ results _ => results
  | .generate _ _ _ _ _ _ => []

/-! ## Cloning -/

/-- `IRMapping::lookupOrDefault`, where the values `mapped` have their
copy in the replica `k`. -/
def lookup (k : ℕ) (mapped : List Value) (v : Value) : Value :=
  if v ∈ mapped then .copy k v else v

mutual

/-- `Operation::clone`: operands and regions through the mapping, then
the results go into it. -/
def cloneOp (k : ℕ) (mapped : List Value) (o : Op) : Op × List Value :=
  match o with
  | .op name attrs operands results regions =>
    let r := cloneRegions k mapped regions
    (.op name attrs (operands.map (lookup k mapped)) (results.map (.copy k)) r.1, r.2 ++ results)
  | .generate lower upper step loopVar attrs body =>
    let r := cloneOps k (mapped ++ body.flatMap Op.results) body
    (.generate lower upper step loopVar attrs r.1, r.2)

def cloneOps (k : ℕ) (mapped : List Value) (os : List Op) : List Op × List Value :=
  match os with
  | [] => ([], mapped)
  | o :: os =>
    let r := cloneOp k mapped o
    let rs := cloneOps k r.2 os
    (r.1 :: rs.1, rs.2)

/-- `Region::cloneInto`, region by region: the results of a region's own
ops are mapped before any of its operands. -/
def cloneRegions (k : ℕ) (mapped : List Value) (bs : List (List Op)) :
    List (List Op) × List Value :=
  match bs with
  | [] => ([], mapped)
  | b :: bs =>
    let r := cloneOps k (mapped ++ b.flatMap Op.results) b
    let rs := cloneRegions k r.2 bs
    (r.1 :: rs.1, rs.2)

end

mutual

/-- `substituteLoopVarInBlock`, on one op. -/
def substituteOp (loopVar value : Text) (o : Op) : Op :=
  match o with
  | .op name attrs operands results regions =>
    .op name (substituteAttrs loopVar value attrs) operands results
      (substituteRegions loopVar value regions)
  | .generate lower upper step inner attrs body =>
    .generate lower upper step (inner.map (substituteLoopVar loopVar value))
      (substituteAttrs loopVar value attrs) (substituteOps loopVar value body)

def substituteOps (loopVar value : Text) (os : List Op) : List Op :=
  match os with
  | [] => []
  | o :: os => substituteOp loopVar value o :: substituteOps loopVar value os

def substituteRegions (loopVar value : Text) (bs : List (List Op)) : List (List Op) :=
  match bs with
  | [] => []
  | b :: bs => substituteOps loopVar value b :: substituteRegions loopVar value bs

end

/-! ## `expandOne` -/

/-- The result of a signed 64-bit operation; overflow is undefined. -/
def checked (z : ℤ) : Option ℤ := if -2 ^ 63 ≤ z ∧ z < 2 ^ 63 then some z else none

/-- The count of replicas, an `unsigned`. -/
def tripCount? (lower upper step : ℤ) : Option ℕ :=
  if 0 < step then
    if lower < upper then do
      let d ← checked (upper - lower)
      let d ← checked (d + step)
      let d ← checked (d - 1)
      pure ((d / step).toNat % 2 ^ 32)
    else pure 0
  else
    if upper < lower then do
      let d ← checked (lower - upper)
      let s ← checked (-step)
      let d ← checked (d + s)
      let d ← checked (d - 1)
      pure ((d / s).toNat % 2 ^ 32)
    else pure 0

/-- The value of the loop variable in the replica `k`. -/
def replicaValue? (lower step : ℤ) (k : ℕ) : Option ℤ := do
  let d ← checked ((k : ℤ) * step)
  checked (lower + d)

/-- Those of the replicas in turn. -/
def replicaValues? (lower upper step : ℤ) : Option (List ℤ) := do
  let count ← tripCount? lower upper step
  (List.range count).mapM (replicaValue? lower step)

/-- The replica `k` of a body. -/
def replica (loopVar : Option Text) (body : List Op) (value : ℤ) (k : ℕ) : List Op :=
  substituteOps (loopVar.getD []) (toDecimal value) (cloneOps k [] body).1

/-- `expandOne`: what stands in the place of the generate. -/
def expandOne (lower upper step : ℤ) (loopVar : Option Text) (body : List Op) : Option (List Op) :=
  (replicaValues? lower upper step).map fun values =>
    values.zipIdx.flatMap fun p => replica loopVar body p.1 p.2

/-! ## The pass -/

mutual

/-- One iteration, in an op: `none` if it has no generate, else what is in
its place after the first one in post-order is expanded, if that is
defined. A generate with a zero step is refused and stays. -/
def expandIn (o : Op) : Option (Option (List Op)) :=
  match o with
  | .op name attrs operands results regions =>
    (expandRegions regions).map fun r => r.map fun regions =>
      [.op name attrs operands results regions]
  | .generate lower upper step loopVar attrs body =>
    match expandFirst body with
    | some r => some (r.map fun body => [.generate lower upper step loopVar attrs body])
    | none =>
      if step = 0 then some (some [.generate lower upper step loopVar attrs body])
      else some (expandOne lower upper step loopVar body)

def expandFirst (os : List Op) : Option (Option (List Op)) :=
  match os with
  | [] => none
  | o :: os =>
    match expandIn o with
    | some r => some (r.map fun os' => os' ++ os)
    | none => (expandFirst os).map fun r => r.map fun os => o :: os

def expandRegions (bs : List (List Op)) : Option (Option (List (List Op))) :=
  match bs with
  | [] => none
  | b :: bs =>
    match expandFirst b with
    | some r => some (r.map fun b => b :: bs)
    | none => (expandRegions bs).map fun r => r.map fun bs => b :: bs

end

inductive Outcome where
  /-- A signed overflow on the way. -/
  | undefined
  | capReached
  | done (os : List Op)

/-- The loop, with the iterations left before the cap is reported. -/
def expandLoop : ℕ → List Op → Outcome
  | 0, _ => .capReached
  | n + 1, os =>
    match expandFirst os with
    | none => .done os
    | some none => .undefined
    | some (some os) => expandLoop n os

/-- `NSLExpandGeneratePass::runOnOperation`. The last iteration of the cap
is an error also where nothing is left to expand. -/
def expandGenerate (os : List Op) : Outcome := expandLoop (iterationCap - 1) os

/-! ## The reference -/

/-- The number of iterations from `lower` on by `step`, up or down to
`upper` and without it. -/
def trips (lower upper step : ℤ) : ℕ :=
  if 0 < step then ((upper - lower + step - 1) / step).toNat
  else ((lower - upper - step - 1) / -step).toNat

def iterations (lower upper step : ℤ) : List ℤ :=
  (List.range (trips lower upper step)).map fun (k : ℕ) => lower + (k : ℤ) * step

mutual

/-- The values an op defines, in its regions too. -/
def definedIn (o : Op) : List Value :=
  match o with
  | .op _ _ _ results regions => results ++ definedRegions regions
  | .generate _ _ _ _ _ body => defined body

def defined (os : List Op) : List Value :=
  match os with
  | [] => []
  | o :: os => definedIn o ++ defined os

def definedRegions (bs : List (List Op)) : List Value :=
  match bs with
  | [] => []
  | b :: bs => defined b ++ definedRegions bs

end

/-- One iteration around an op: the loop variable with its value, the
number of the copy, and the values the body defines. -/
structure Frame where
  loopVar : Text
  value : ℤ
  copy : ℕ
  owned : List ℕ

namespace Frame

def rename (fr : Frame) (v : Value) : Value := if v.base ∈ fr.owned then .copy fr.copy v else v

def text (fr : Frame) (t : Text) : Text := substituteLoopVar fr.loopVar (toDecimal fr.value) t

def attrs (fr : Frame) (as : List (Text × Attr)) : List (Text × Attr) :=
  substituteAttrs fr.loopVar (toDecimal fr.value) as

end Frame

/-- From the innermost frame outwards. -/
def inFrames {α : Type} (f : Frame → α → α) (frames : List Frame) (a : α) : α :=
  frames.foldl (fun a fr => f fr a) a

mutual

/-- **Full unrolling**: a generate's body once for each iteration, in
order. In an op the `%v%` of its strings are replaced by the value of the
innermost loop variable `v` around it, and a value that one of the
iterations around defines by that iteration's copy. -/
def unrollOp (frames : List Frame) (o : Op) : List Op :=
  match o with
  | .op name attrs operands results regions =>
    [.op name (inFrames Frame.attrs frames attrs) (operands.map (inFrames Frame.rename frames))
      (results.map (inFrames Frame.rename frames)) (unrollRegions frames regions)]
  | .generate lower upper step loopVar _ body =>
    (iterations lower upper step).zipIdx.flatMap fun p =>
      unroll (⟨loopVar.getD [], p.1, p.2, (defined body).map Value.base⟩ :: frames) body

def unroll (frames : List Frame) (os : List Op) : List Op :=
  match os with
  | [] => []
  | o :: os => unrollOp frames o ++ unroll frames os

def unrollRegions (frames : List Frame) (bs : List (List Op)) : List (List Op) :=
  match bs with
  | [] => []
  | b :: bs => unroll frames b :: unrollRegions frames bs

end

/-! ## Modules -/

mutual

def ForGeneratesIn (P : ℤ → ℤ → ℤ → Prop) (o : Op) : Prop :=
  match o with
  | .op _ _ _ _ regions => ForGeneratesRegions P regions
  | .generate lower upper step _ _ body => P lower upper step ∧ ForGenerates P body

/-- Every generate has bounds and a step with `P`. -/
def ForGenerates (P : ℤ → ℤ → ℤ → Prop) (os : List Op) : Prop :=
  match os with
  | [] => True
  | o :: os => ForGeneratesIn P o ∧ ForGenerates P os

def ForGeneratesRegions (P : ℤ → ℤ → ℤ → Prop) (bs : List (List Op)) : Prop :=
  match bs with
  | [] => True
  | b :: bs => ForGenerates P b ∧ ForGeneratesRegions P bs

end

mutual

def generatesIn (o : Op) : ℕ :=
  match o with
  | .op _ _ _ _ regions => generatesRegions regions
  | .generate _ _ _ _ _ body => generates body + 1

/-- The number of generates. -/
def generates (os : List Op) : ℕ :=
  match os with
  | [] => 0
  | o :: os => generatesIn o + generates os

def generatesRegions (bs : List (List Op)) : ℕ :=
  match bs with
  | [] => 0
  | b :: bs => generates b + generatesRegions bs

end

mutual

def DominatedIn (visible : List Value) (o : Op) : Prop :=
  match o with
  | .op _ _ operands _ regions => (∀ v ∈ operands, v ∈ visible) ∧ DominatedRegions visible regions
  | .generate _ _ _ _ _ body => Dominated visible body

/-- An operand is visible outside, or a result of an op before in the same
block or in one around. -/
def Dominated (visible : List Value) (os : List Op) : Prop :=
  match os with
  | [] => True
  | o :: os => DominatedIn visible o ∧ Dominated (visible ++ o.results) os

def DominatedRegions (visible : List Value) (bs : List (List Op)) : Prop :=
  match bs with
  | [] => True
  | b :: bs => Dominated visible b ∧ DominatedRegions visible bs

end

/-- The attributes are `I64Attr`, and the step is not zero. -/
def Bounded (lower upper step : ℤ) : Prop :=
  (-2 ^ 63 ≤ lower ∧ lower < 2 ^ 63) ∧ (-2 ^ 63 ≤ upper ∧ upper < 2 ^ 63) ∧
    (-2 ^ 63 ≤ step ∧ step < 2 ^ 63) ∧ step ≠ 0

/-- A module the verifier accepts. Its values are the `source` ones. -/
structure Verified (os : List Op) : Prop where
  dominated : Dominated [] os
  nodup : (defined os).Nodup
  source : ∀ v ∈ defined os, ∃ n, v = .source n
  bounded : ForGenerates Bounded os

/-- The pass ends without an error, leaves no generate, and gives the
reference. -/
def Unrolls (os : List Op) : Prop :=
  expandGenerate os = .done (unroll [] os) ∧ generates (unroll [] os) = 0

/-- The count of a generate that has iterations does not leave 64 bits. -/
def CountFits (lower upper step : ℤ) : Prop :=
  (0 < step → lower < upper → upper - lower + step < 2 ^ 63) ∧
    (step < 0 → upper < lower → lower - upper - step < 2 ^ 63)

end Ssa

end Passes

end Nslc
