import Nslc.Basic.Source
import Nslc.Common.Placeholders
/-!
# Generate expansion and residue detection

`NSLExpandGeneratePass` replaces the first `nsl.structural_generate` it
finds by copies of its body, over and over, and writes the loop
variable's value for `%X%` in the string attributes of a copy.
`NSLCheckSemanticsPass` looks for a `%X%` that is left, in string
attributes and in flat symbol references. Ops are kept with the
attributes they hold immediately; operands play no part.
-/

namespace Nslc

namespace Passes

/-! ## Operations -/

inductive Attr where
  /-- `StringAttr` -/
  | str (value : Text)
  /-- `FlatSymbolRefAttr` -/
  | sym (value : Text)
  /-- Any other kind: neither pass looks into it. -/
  | other
  deriving DecidableEq, Repr

inductive Operation where
  | op (name : Text) (attrs : List (Text × Attr)) (blocks : List (List Operation))
  /-- `nsl.structural_generate`, with the attributes it holds besides its
  bounds, the loop variable among them. -/
  | generate (lower upper step : ℤ) (loopVar : Option Text) (attrs : List (Text × Attr))
      (body : List Operation)

/-- A builtin module. -/
structure Module where
  attrs : List (Text × Attr)
  body : List Operation

/-! ## The marks -/

def isLetter (c : Char) : Bool := ('A' ≤ c && c ≤ 'Z') || ('a' ≤ c && c ≤ 'z') || c = '_'

/-- The expression of `residueRegex`. -/
def splices : Placeholders Char where
  mark := '%'
  first := isLetter
  rest c := isLetter c || ('0' ≤ c && c ≤ '9')
  first_rest h := by rw [h]; rfl
  rest_mark := by decide

/-! ## NSLExpandGeneratePass -/

/-- `std::to_string`. -/
def toDecimal (z : ℤ) : Text :=
  if z < 0 then '-' :: Nat.toDigits 10 z.natAbs else Nat.toDigits 10 z.toNat

/-- `substituteLoopVar`. -/
def substituteLoopVar (loopVar value text : Text) : Text :=
  if loopVar = [] then text else splices.replace loopVar value text

def substituteAttr (loopVar value : Text) : Attr → Attr
  | .str text => .str (substituteLoopVar loopVar value text)
  | a => a

def substituteAttrs (loopVar value : Text) (attrs : List (Text × Attr)) : List (Text × Attr) :=
  attrs.map fun a => (a.1, substituteAttr loopVar value a.2)

mutual

/-- `substituteLoopVarInBlock`, on one operation. -/
def substituteOp (loopVar value : Text) (o : Operation) : Operation :=
  match o with
  | .op name attrs blocks =>
    .op name (substituteAttrs loopVar value attrs) (substituteBlocks loopVar value blocks)
  | .generate lower upper step inner attrs body =>
    .generate lower upper step (inner.map (substituteLoopVar loopVar value))
      (substituteAttrs loopVar value attrs) (substituteOps loopVar value body)

def substituteOps (loopVar value : Text) (os : List Operation) : List Operation :=
  match os with
  | [] => []
  | o :: os => substituteOp loopVar value o :: substituteOps loopVar value os

def substituteBlocks (loopVar value : Text) (bs : List (List Operation)) :
    List (List Operation) :=
  match bs with
  | [] => []
  | b :: bs => substituteOps loopVar value b :: substituteBlocks loopVar value bs

end

/-- The number of copies, as with Python's `range`, in 32 bits. -/
def tripCount (lower upper step : ℤ) : ℕ :=
  if 0 < step then
    if lower < upper then ((upper - lower + step - 1) / step).toNat % 2 ^ 32 else 0
  else if upper < lower then ((lower - upper + -step - 1) / -step).toNat % 2 ^ 32 else 0

/-- The copies of a body, the loop variable read in turn. -/
def copies (lower step : ℤ) (loopVar : Option Text) (count : ℕ) (body : List Operation) :
    List Operation :=
  (List.range count).flatMap fun (k : ℕ) =>
    substituteOps (loopVar.getD []) (toDecimal (lower + (k : ℤ) * step)) body

mutual

/-- `expandOne` of the first generate, the generates inside an operation
before itself; `none` where there is none. A step of zero is refused and
the generate stays. -/
def expandIn (o : Operation) : Option (List Operation) :=
  match o with
  | .op name attrs blocks => (expandBlocks blocks).map fun bs => [.op name attrs bs]
  | .generate lower upper step loopVar attrs body =>
    match expandFirst body with
    | some body => some [.generate lower upper step loopVar attrs body]
    | none =>
      if step = 0 then some [.generate lower upper step loopVar attrs body]
      else some (copies lower step loopVar (tripCount lower upper step) body)

def expandFirst (os : List Operation) : Option (List Operation) :=
  match os with
  | [] => none
  | o :: os =>
    match expandIn o with
    | some os' => some (os' ++ os)
    | none => (expandFirst os).map (o :: ·)

def expandBlocks (bs : List (List Operation)) : Option (List (List Operation)) :=
  match bs with
  | [] => none
  | b :: bs =>
    match expandFirst b with
    | some b' => some (b' :: bs)
    | none => (expandBlocks bs).map (b :: ·)

end

/-- `kIterationCap`. -/
def iterationCap : ℕ := 65536

/-- The loop of the pass with the iterations it has left before the cap
is reported; `none` where it is. -/
def expandLoop : ℕ → List Operation → Option (List Operation)
  | 0, _ => none
  | n + 1, os =>
    match expandFirst os with
    | none => some os
    | some os' => expandLoop n os'

/-- The pass on a module. The last iteration of the cap is an error also
where nothing is left to expand. -/
def expandGenerate (m : Module) : Option Module :=
  (expandLoop (iterationCap - 1) m.body).map fun body => ⟨m.attrs, body⟩

/-! ## NSLCheckSemanticsPass -/

/-- `scanStringForResidue`: the names reported. -/
def scanStringForResidue (text : Text) : List Text := splices.scan text

/-- `scanOpAttrsForResidue`. -/
def scanOpAttrsForResidue (attrs : List (Text × Attr)) : List Text :=
  attrs.flatMap fun a =>
    match a.2 with
    | .str text => scanStringForResidue text
    | .sym text => scanStringForResidue text
    | .other => []

/-- The loop variable is an attribute as well. -/
def loopVarAttr (loopVar : Option Text) : List (Text × Attr) :=
  (loopVar.map fun v => ("loop_var".toList, Attr.str v)).toList

mutual

/-- The residue of an operation, that of the operations in it first. -/
def opResidue (o : Operation) : List Text :=
  match o with
  | .op _ attrs blocks => blocksResidue blocks ++ scanOpAttrsForResidue attrs
  | .generate _ _ _ loopVar attrs body =>
    opsResidue body ++ scanOpAttrsForResidue (loopVarAttr loopVar ++ attrs)

def opsResidue (os : List Operation) : List Text :=
  match os with
  | [] => []
  | o :: os => opResidue o ++ opsResidue os

def blocksResidue (bs : List (List Operation)) : List Text :=
  match bs with
  | [] => []
  | b :: bs => opsResidue b ++ blocksResidue bs

end

/-- The splices reported as unresolved on a module. -/
def residue (m : Module) : List Text := opsResidue m.body ++ scanOpAttrsForResidue m.attrs

/-- Both passes: where the first one fails the second one does not run. -/
def spliceReports (m : Module) : List Text :=
  match expandGenerate m with
  | none => []
  | some m' => residue m'

end Passes

end Nslc
