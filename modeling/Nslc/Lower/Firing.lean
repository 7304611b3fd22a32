import Nslc.Lower.Activity
/-!
# The cases of `any`

In an `any` all matching cases fire. A register that a firing case writes
should get the bitwise or of the sources of the firing cases, and what no
firing case writes should stay as it is. The lowering gathers the firing
sources of a target and joins them to the driver that was there. Of a
register that is its own value at first, so the property holds exactly if
the registers written hold no bit that no firing case sets (`Masked`).
-/

namespace Nslc

/-! ## The bitwise or of several values -/

namespace Bits

def bit (x : Bits) (i : ℕ) : Bool := x.bits.getLsbD i

/-- The bitwise or of values, over one that is there already. -/
def orOnto (x : Bits) (xs : List Bits) : Bits := xs.foldl (fun x y => x.map₂ y (· ||| ·)) x

def orAll (w : ℕ) (xs : List Bits) : Bits := (const w 0).orOnto xs

variable {x y : Bits} {w : ℕ} {xs : List Bits}

theorem ext_bit (hw : x.width = y.width) (h : ∀ i, x.bit i = y.bit i) : x = y := by
  obtain ⟨w, x⟩ := x
  obtain ⟨v, y⟩ := y
  obtain rfl : w = v := hw
  have heq : x = y := BitVec.eq_of_getLsbD_eq fun i _ => h i
  rw [heq]

@[simp] theorem bit_const_zero (w i : ℕ) : (const w 0).bit i = false := by
  simp [bit, const]

theorem bit_or (hw : x.width = y.width) (i : ℕ) :
    (x.map₂ y (· ||| ·)).bit i = (x.bit i || y.bit i) := by
  obtain ⟨w, x⟩ := x
  obtain ⟨v, y⟩ := y
  obtain rfl : w = v := hw
  simp [bit, map₂, cut]

@[simp] theorem width_orOnto (x : Bits) (xs : List Bits) : (x.orOnto xs).width = x.width := by
  induction xs generalizing x with
  | nil => rfl
  | cons y xs ih => exact ih _

/-- A bit is set if it is set somewhere. -/
theorem bit_orOnto (h : ∀ y ∈ xs, y.width = x.width) (i : ℕ) :
    (x.orOnto xs).bit i = (x.bit i || xs.any (·.bit i)) := by
  induction xs generalizing x with
  | nil => simp [orOnto]
  | cons y xs ih =>
    obtain ⟨hy, hxs⟩ := List.forall_mem_cons.1 h
    have hrest : ((x.map₂ y (· ||| ·)).orOnto xs).bit i =
        ((x.map₂ y (· ||| ·)).bit i || xs.any (·.bit i)) := ih hxs
    have hcons : x.orOnto (y :: xs) = (x.map₂ y (· ||| ·)).orOnto xs := rfl
    rw [hcons, hrest, bit_or hy.symm, List.any_cons, Bool.or_assoc]

/-- Nothing is left of the value that was there exactly if its bits are
among those of the others. -/
theorem orOnto_eq_orAll_iff (hx : x.width = w) (h : ∀ y ∈ xs, y.width = w) :
    x.orOnto xs = orAll w xs ↔ ∀ i, x.bit i = true → ∃ y ∈ xs, y.bit i = true := by
  have honto : ∀ i, (x.orOnto xs).bit i = (x.bit i || xs.any (·.bit i)) :=
    bit_orOnto (by simpa only [hx] using h)
  have hall : ∀ i, (orAll w xs).bit i = xs.any (·.bit i) := by
    intro i
    rw [orAll, bit_orOnto (by simpa using h), bit_const_zero, Bool.false_or]
  constructor
  · intro heq i hi
    have hany : xs.any (·.bit i) = true := by
      rw [← hall, ← heq, honto, hi, Bool.true_or]
    exact List.any_eq_true.1 hany
  · intro hbits
    refine ext_bit (by rw [width_orOnto, orAll, width_orOnto, hx, width_const]) fun i => ?_
    rw [honto, hall]
    cases hi : x.bit i with
    | false => rw [Bool.false_or]
    | true => rw [Bool.true_or, List.any_eq_true.2 (hbits i hi)]

/-- A single source is written as it is. -/
theorem orAll_singleton (hx : x.width = w) : orAll w [x] = x := by
  have hw : (const w 0).width = x.width := hx.symm
  refine ext_bit hw fun i => ?_
  rw [orAll, bit_orOnto (by simpa using hx)]
  simp

end Bits

namespace Lower

open Dialect Circt

variable {D : Type}

/-! ## What the cases write -/

/-- A transfer directly in a case, with what it has in a cycle. -/
structure CaseWrite (D : Type) where
  target : Val
  isClocked : Bool
  /-- The width of the source. -/
  width : ℕ
  fires : D
  source : D
  deriving DecidableEq, Repr

section Walk

variable (A : Algebra D) (outs : List (Val × String))

def caseWrite (sc : Scope D) (c : Cond D) (target src : Val) (isClocked : Bool) :
    Except Flaw (CaseWrite D) :=
  match c.bit?, sc.vals src with
  | some g, some x => .ok ⟨target, isClocked, src.width, g, x⟩
  | _, _ => .error .spoiled

def bodyWrites (ops : List Op) (sc : Scope D) (c : Cond D) :
    Except Flaw (Scope D × List (CaseWrite D)) :=
  match ops with
  | [] => .ok (sc, [])
  | .transfer dst src :: ops => do
    let w ← caseWrite sc c dst src false
    let (sc, ws) ← bodyWrites ops sc c
    return (sc, w :: ws)
  | .clockedTransfer dst src :: ops => do
    let w ← caseWrite sc c dst src true
    let (sc, ws) ← bodyWrites ops sc c
    return (sc, w :: ws)
  | op :: ops => do
    let sc ← flowOp A outs op sc (some c)
    bodyWrites ops sc c

/-- The transfers of the cases in the order of the source. Each case has
the surrounding guard and its condition; none knows of the others. -/
def flowWrites (children : List Op) (sc : Scope D) (gate : Option (Cond D)) :
    Except Flaw (Scope D × List (CaseWrite D)) :=
  match children with
  | [] => .ok (sc, [])
  | .case cond body :: children => do
    let fires ← narrow A gate ⟨cond.width, sc.vals cond⟩
    let (sc, ws) ← bodyWrites A outs body sc fires
    let (sc, rest) ← flowWrites children sc gate
    return (sc, ws ++ rest)
  | _ :: children => flowWrites children sc gate

def caseWrites (children : List Op) (sc : Scope D) (gate : Option (Cond D)) : List (CaseWrite D) :=
  match flowWrites A outs children sc gate with
  | .ok r => r.2
  | .error _ => []

end Walk

/-! ## Registers, wires and outputs -/

/-- What has a driver. -/
inductive Place where
  | reg (v : Val)
  | wire (v : Val)
  | out (name : String)
  deriving DecidableEq, Repr

/-- What a transfer to `dst` drives. -/
def placeOf (outs : List (Val × String)) (dst : Val) (isClocked : Bool) : Place :=
  if isClocked then .reg dst
  else if portName outs dst ≠ "" then .out (portName outs dst)
  else .wire dst

def Place.width (S : Setting) : Place → ℕ
  | reg v | wire v => v.width
  | out name => S.outWidth name

/-- A register is there once its op was walked over. -/
def Place.IsMade (S : Setting) : Place → Prop
  | reg v => v ∈ S.madeRegs
  | wire _ | out _ => True

def Scope.driver (sc : Scope D) : Place → Option (Option D)
  | .reg v => some (sc.regDriver v)
  | .wire v => sc.wireDriver v
  | .out name => sc.outDriver name

def Scope.drive (sc : Scope D) (p : Place) (d : Option D) : Scope D :=
  match p with
  | .reg v => sc.driveReg v d
  | .wire v => sc.driveWire v d
  | .out name => sc.driveOut name d

def Ctx.driver (ctx : Ctx) : Place → Option Value
  | .reg v => (ctx.regInfo? (ctx.lookupValue v)).map RegInfo.pendingNext
  | .wire v => (ctx.wireInfo? v).bind WireInfo.pendingDriver
  | .out name => ctx.outputAssignment? name

/-- What a place would get if the module ended here: zero if nothing
drives it, and no value if its driver has none. -/
def Ctx.heldAt (ctx : Ctx) (S : Setting) (ρ : Valuation) (p : Place) : Option Bits :=
  match ctx.driver p with
  | none => some (.const (p.width S) 0)
  | some x => if x.typed then some (x.eval ρ) else none

/-- What an op drives itself. -/
def drives? (outs : List (Val × String)) : Op → Option Place
  | .transfer dst _ => some (placeOf outs dst false)
  | .clockedTransfer dst _ => some (placeOf outs dst true)
  | _ => none

def isTransfer : Op → Bool
  | .transfer _ _ | .clockedTransfer _ _ => true
  | _ => false

/-- What stands in the cases but for their direct transfers. -/
def nested : List Op → List Op
  | [] => []
  | .case _ body :: children => Op.withins (body.filter fun o => !isTransfer o) ++ nested children
  | _ :: children => nested children

/-- Only direct transfers of the cases write the place. -/
def Place.Direct (outs : List (Val × String)) (body : List Op) (p : Place) : Prop :=
  ∀ o ∈ nested body, drives? outs o ≠ some p

/-- The sources of the firing cases for a place. -/
def firing (outs : List (Val × String)) (ws : List (CaseWrite Bits)) (p : Place) : List Bits :=
  (ws.filter fun w => placeOf outs w.target w.isClocked == p && w.fires.isTrue).map CaseWrite.source

/-! ## The property and its condition -/

/-- **All matching cases fire**, in a cycle: from `ctx` the lowering of
the `any` led to `ctx'`. -/
structure FiresAll (S : Setting) (body : List Op) (ρ : Valuation) (ws : List (CaseWrite Bits))
    (ctx ctx' : Ctx) : Prop where
  fires : ∀ v ∈ S.madeRegs, Place.Direct S.outs body (.reg v) → firing S.outs ws (.reg v) ≠ [] →
    ctx'.heldAt S ρ (.reg v) = some (.orAll v.width (firing S.outs ws (.reg v)))
  idle : ∀ p : Place, p.IsMade S → p.Direct S.outs body → firing S.outs ws p = [] →
    ctx'.heldAt S ρ p = ctx.heldAt S ρ p

/-- **Nothing shines through**: a bit that is set in what a register
written by a firing case would get is set in one of the sources. -/
def Masked (S : Setting) (body : List Op) (ρ : Valuation) (ws : List (CaseWrite Bits))
    (ctx : Ctx) : Prop :=
  ∀ v ∈ S.madeRegs, Place.Direct S.outs body (.reg v) → firing S.outs ws (.reg v) ≠ [] →
    ∃ x, ctx.heldAt S ρ (.reg v) = some x ∧
      ∀ i, x.bit i = true → ∃ y ∈ firing S.outs ws (.reg v), y.bit i = true

/-! ## The cases one by one -/

section Gathering

variable (A : Algebra D) (outs : List (Val × String))

/-- What a case contributes: its source or zero. -/
def CaseWrite.envelope (w : CaseWrite D) : D := A.select w.fires w.source (A.const w.width 0)

def CaseWrite.addTo (accs : List (Gathered D)) (w : CaseWrite D) : List (Gathered D) :=
  let isTarget : Gathered D → Bool := fun a => a.target = w.target && a.isClocked == w.isClocked
  match accs.find? isTarget with
  | none => accs ++ [⟨w.target, w.isClocked, w.envelope A⟩]
  | some _ => updateFirst isTarget (fun a => { a with value := A.join a.value (w.envelope A) }) accs

theorem gather_eq (sc : Scope D) (c : Cond D) (target src : Val) (isClocked : Bool)
    (accs : List (Gathered D)) :
    gather A sc c target src isClocked accs =
      caseWrite sc c target src isClocked >>= fun w => .ok (w.addTo A accs) := by
  unfold gather caseWrite
  cases c.bit? with
  | none => rfl
  | some g =>
    cases sc.vals src with
    | none => rfl
    | some x =>
      cases hf : accs.find? fun a => decide (a.target = target) && a.isClocked == isClocked with
      | none => simp only [CaseWrite.addTo, bind, Except.bind, hf]; rfl
      | some a => simp only [CaseWrite.addTo, bind, Except.bind, hf]; rfl

theorem flowAnyBody_eq (ops : List Op) (sc : Scope D) (c : Cond D) (accs : List (Gathered D)) :
    flowAnyBody A outs ops sc c accs =
      bodyWrites A outs ops sc c >>= fun r =>
        .ok (r.1, r.2.foldl (CaseWrite.addTo A) accs) := by
  induction ops generalizing sc accs with
  | nil => rw [flowAnyBody, bodyWrites]; rfl
  | cons op ops ih =>
    cases op with
    | transfer dst src =>
      rw [flowAnyBody, bodyWrites, gather_eq]
      simp only [bind_assoc, ih]
      rfl
    | clockedTransfer dst src =>
      rw [flowAnyBody, bodyWrites, gather_eq]
      simp only [bind_assoc, ih]
      rfl
    | _ =>
      simp only [flowAnyBody, bodyWrites, ih, bind_assoc]

def isDefault : Op → Bool
  | .default _ => true
  | _ => false

theorem flowAny_eq (children : List Op) (hd : ∀ o ∈ children, isDefault o = false) (sc : Scope D)
    (gate : Option (Cond D)) (accs : List (Gathered D)) :
    flowAny A outs children sc gate accs =
      flowWrites A outs children sc gate >>= fun r =>
        .ok (r.1, r.2.foldl (CaseWrite.addTo A) accs) := by
  induction children generalizing sc accs with
  | nil => rw [flowAny, flowWrites]; rfl
  | cons child children ih =>
    obtain ⟨hchild, hrest⟩ := List.forall_mem_cons.1 hd
    cases child with
    | case cond body =>
      rw [flowAny, flowWrites]
      simp only [flowAnyBody_eq, ih hrest, bind_assoc]
      refine congrArg _ (funext fun fires => congrArg _ (funext fun r => ?_))
      show (flowWrites A outs children r.1 gate >>= fun r' => _) = _
      refine congrArg _ (funext fun r' => ?_)
      show _ = Except.ok (r'.1, (r.2 ++ r'.2).foldl (CaseWrite.addTo A) accs)
      rw [List.foldl_append]
    | default body => cases hchild
    | _ =>
      simp only [flowAny, flowWrites]
      exact ih hrest sc accs

/-- An `any` gathers what its cases write and then drives the targets. -/
theorem flowOp_any_eq (body : List Op) (hd : ∀ o ∈ body, isDefault o = false) (sc : Scope D)
    (gate : Option (Cond D)) :
    flowOp A outs (.any body) sc gate =
      flowWrites A outs body sc gate >>= fun r =>
        (r.2.foldl (CaseWrite.addTo A) []).foldlM (applyGathered A outs) r.1 := by
  rw [flowOp_any, flowAny_eq A outs body hd, bind_assoc]
  rfl

end Gathering

/-! ## What no transfer drives -/

section Frame

variable {A : Algebra D} {outs : List (Val × String)} {p : Place} {sc sc' : Scope D}
  {gate : Option (Cond D)}

@[simp] theorem driver_define (sc : Scope D) (v : Val) (d : Option D) (p : Place) :
    (sc.define v d).driver p = sc.driver p := by
  cases p <;> rfl

@[simp] theorem driver_drive (sc : Scope D) (q : Place) (d : Option D) (p : Place) :
    (sc.drive q d).driver p = if p = q then some d else sc.driver p := by
  cases q <;> cases p <;>
    simp [Scope.driver, Scope.drive, Scope.driveReg, Scope.driveWire, Scope.driveOut, Scope.define]
  case reg.reg v u => split <;> rfl

/-- Written under a guard or not, a transfer drives its target. -/
theorem flowTransfer_drives {dst src : Val} (h : flowTransfer A outs sc gate dst src = .ok sc') :
    ∃ d, sc' = sc.drive (placeOf outs dst false) d := by
  unfold flowTransfer at h
  split at h
  case isTrue hport =>
    obtain ⟨d, -, h⟩ := bind_eq_ok h
    obtain rfl := Except.ok.inj h
    exact ⟨d, by simp [placeOf, hport, Scope.drive]⟩
  case isFalse hport =>
    split at h
    case isTrue hwire =>
      obtain ⟨d, -, h⟩ := bind_eq_ok h
      obtain rfl := Except.ok.inj h
      exact ⟨d, by simp [placeOf, not_not.1 hport, Scope.drive]⟩
    case isFalse => cases h

variable (outs) in
theorem flowClocked_drives {dst src : Val} (h : flowClocked A sc gate dst src = .ok sc') :
    ∃ d, sc' = sc.drive (placeOf outs dst true) d := by
  unfold flowClocked at h
  split at h
  · obtain ⟨d, -, h⟩ := bind_eq_ok h
    obtain rfl := Except.ok.inj h
    exact ⟨d, rfl⟩
  · cases h

/-- What is gathered for a target is joined to its driver. -/
theorem applyGathered_drives {a : Gathered D} (h : applyGathered A outs sc a = .ok sc') :
    ∃ d, flowJoin A (sc.driver (placeOf outs a.target a.isClocked)) a.value = .ok d ∧
      sc' = sc.drive (placeOf outs a.target a.isClocked) d := by
  unfold applyGathered at h
  split at h
  case isTrue hclocked =>
    split at h
    · obtain ⟨d, hd, h⟩ := bind_eq_ok h
      obtain rfl := Except.ok.inj h
      refine ⟨d, ?_⟩
      rw [hclocked]
      exact ⟨hd, rfl⟩
    · cases h
  case isFalse hclocked =>
    rw [Bool.not_eq_true] at hclocked
    split at h
    case isTrue hport =>
      obtain ⟨d, hd, h⟩ := bind_eq_ok h
      obtain rfl := Except.ok.inj h
      have hplace : placeOf outs a.target a.isClocked = .out (portName outs a.target) := by
        simp [placeOf, hclocked, hport]
      rw [hplace]
      exact ⟨d, hd, rfl⟩
    case isFalse hport =>
      split at h
      case isTrue hwire =>
        obtain ⟨d, hd, h⟩ := bind_eq_ok h
        obtain rfl := Except.ok.inj h
        have hplace : placeOf outs a.target a.isClocked = .wire a.target := by
          simp [placeOf, hclocked, not_not.1 hport]
        rw [hplace]
        exact ⟨d, hd, rfl⟩
      case isFalse => cases h

/-- Nothing gathered is for the place. -/
def NotGathered (outs : List (Val × String)) (p : Place) (accs : List (Gathered D)) : Prop :=
  ∀ a ∈ accs, placeOf outs a.target a.isClocked ≠ p

theorem mem_updateFirst {α : Type} {q : α → Bool} {f : α → α} {xs : List α} {y : α}
    (h : y ∈ updateFirst q f xs) : y ∈ xs ∨ ∃ x ∈ xs, y = f x := by
  induction xs with
  | nil => cases h
  | cons x xs ih =>
    rw [updateFirst] at h
    split at h
    · rcases List.mem_cons.1 h with rfl | h
      · exact .inr ⟨x, by simp, rfl⟩
      · exact .inl (List.mem_cons_of_mem _ h)
    · rcases List.mem_cons.1 h with rfl | h
      · exact .inl (by simp)
      · rcases ih h with h | ⟨z, hz, rfl⟩
        · exact .inl (List.mem_cons_of_mem _ h)
        · exact .inr ⟨z, List.mem_cons_of_mem _ hz, rfl⟩

/-- The targets are those of the writes. -/
theorem mem_addTo {w : CaseWrite D} {accs : List (Gathered D)} {a : Gathered D}
    (h : a ∈ w.addTo A accs) : a.target = w.target ∧ a.isClocked = w.isClocked ∨
      ∃ b ∈ accs, b.target = a.target ∧ b.isClocked = a.isClocked := by
  simp only [CaseWrite.addTo] at h
  split at h
  · rcases List.mem_append.1 h with h | h
    · exact .inr ⟨a, h, rfl, rfl⟩
    · rw [List.mem_singleton.1 h]
      exact .inl ⟨rfl, rfl⟩
  · rcases mem_updateFirst h with h | ⟨b, hb, rfl⟩
    · exact .inr ⟨a, h, rfl, rfl⟩
    · exact .inr ⟨b, hb, rfl, rfl⟩

theorem caseWrite_target {c : Cond D} {target src : Val} {isClocked : Bool} {w : CaseWrite D}
    (h : caseWrite sc c target src isClocked = .ok w) :
    w.target = target ∧ w.isClocked = isClocked ∧ w.width = src.width ∧
      sc.vals src = some w.source := by
  unfold caseWrite at h
  split at h
  case h_1 g x hg hx =>
    obtain rfl := Except.ok.inj h
    exact ⟨rfl, rfl, rfl, hx⟩
  case h_2 => cases h

theorem notGathered_gather {c : Cond D} {target src : Val} {isClocked : Bool}
    {accs accs' : List (Gathered D)} (h : gather A sc c target src isClocked accs = .ok accs')
    (hp : placeOf outs target isClocked ≠ p) (ha : NotGathered outs p accs) :
    NotGathered outs p accs' := by
  rw [gather_eq] at h
  obtain ⟨w, hw, h⟩ := bind_eq_ok h
  obtain rfl := Except.ok.inj h
  obtain ⟨rfl, rfl, -⟩ := caseWrite_target hw
  intro a hmem
  rcases mem_addTo hmem with ⟨htarget, hclocked⟩ | ⟨b, hb, htarget, hclocked⟩
  · rw [htarget, hclocked]
    exact hp
  · rw [← htarget, ← hclocked]
    exact ha b hb

theorem driver_foldlM_applyGathered {accs : List (Gathered D)} (ha : NotGathered outs p accs)
    (h : accs.foldlM (applyGathered A outs) sc = .ok sc') : sc'.driver p = sc.driver p := by
  induction accs generalizing sc with
  | nil =>
    obtain rfl := Except.ok.inj h
    rfl
  | cons a accs ih =>
    obtain ⟨hhead, htail⟩ := List.forall_mem_cons.1 ha
    rw [List.foldlM_cons] at h
    obtain ⟨mid, hmid, h⟩ := bind_eq_ok h
    obtain ⟨d, -, rfl⟩ := applyGathered_drives hmid
    rw [ih htail h, driver_drive, if_neg (Ne.symm hhead)]

mutual

/-- **An op without a transfer to a place leaves its driver**, whatever
it guards. -/
theorem driver_flowOp (op : Op) (hp : ∀ o ∈ Op.within op, drives? outs o ≠ some p)
    {sc sc' : Scope D} {gate : Option (Cond D)} (h : flowOp A outs op sc gate = .ok sc') :
    sc'.driver p = sc.driver p := by
  cases op with
  | expr res e =>
    rw [flowOp, flowExpr] at h
    split at h
    · split at h
      · obtain rfl := Except.ok.inj h
        exact driver_define sc res _ p
      · cases h
    · cases h
  | transfer dst src =>
    rw [flowOp] at h
    obtain ⟨d, rfl⟩ := flowTransfer_drives h
    have hne : placeOf outs dst false ≠ p :=
      fun heq => hp (.transfer dst src) (by simp [Op.within]) (congrArg some heq)
    rw [driver_drive, if_neg (Ne.symm hne)]
  | clockedTransfer dst src =>
    rw [flowOp] at h
    obtain ⟨d, rfl⟩ := flowClocked_drives outs h
    have hne : placeOf outs dst true ≠ p :=
      fun heq => hp (.clockedTransfer dst src) (by simp [Op.within]) (congrArg some heq)
    rw [driver_drive, if_neg (Ne.symm hne)]
  | ifOp cond thenRegion elseRegion =>
    rw [flowOp_ifOp] at h
    obtain ⟨gs, -, h⟩ := bind_eq_ok h
    obtain ⟨mid, hthen, helse⟩ := bind_eq_ok h
    rw [driver_flowOps elseRegion (fun o ho => hp o (by rw [Op.within]; simp [ho])) helse]
    exact driver_flowOps thenRegion (fun o ho => hp o (by rw [Op.within]; simp [ho])) hthen
  | alt body =>
    rw [flowOp] at h
    exact driver_flowAlt body (fun o ho => hp o (by rw [Op.within]; simp [ho])) h
  | any body =>
    rw [flowOp_any] at h
    obtain ⟨r, hr, h⟩ := bind_eq_ok h
    obtain ⟨hdriver, haccs⟩ := driver_flowAny body
      (fun o ho => hp o (by rw [Op.within]; simp [ho])) (fun a ha => absurd ha (by simp)) hr
    rw [driver_foldlM_applyGathered haccs h, hdriver]
  | call callee =>
    rw [flowOp] at h
    have hcall : ∃ d, sc' = sc.addCall callee d := by
      unfold flowCall at h
      split at h
      · exact ⟨_, (Except.ok.inj h).symm⟩
      · split at h
        · cases h
        · exact ⟨_, (Except.ok.inj h).symm⟩
    obtain ⟨d, rfl⟩ := hcall
    cases p <;> rfl
  | parallel body =>
    rw [flowOp] at h
    exact driver_flowOps body (fun o ho => hp o (by rw [Op.within]; simp [ho])) h
  | func name body =>
    rw [flowOp] at h
    obtain ⟨g, -, h⟩ := bind_eq_ok h
    exact driver_flowOps body (fun o ho => hp o (by rw [Op.within]; simp [ho])) h
  | case _ _ | default _ | seq _ | other _ =>
    rw [flowOp] at h
    cases h
  | _ =>
    rw [flowOp] at h
    obtain rfl := Except.ok.inj h
    rfl

theorem driver_flowOps (ops : List Op) (hp : ∀ o ∈ Op.withins ops, drives? outs o ≠ some p)
    {sc sc' : Scope D} {gate : Option (Cond D)} (h : flowOps A outs ops sc gate = .ok sc') :
    sc'.driver p = sc.driver p := by
  cases ops with
  | nil =>
    rw [flowOps] at h
    obtain rfl := Except.ok.inj h
    rfl
  | cons op ops =>
    rw [flowOps] at h
    obtain ⟨mid, hmid, h⟩ := bind_eq_ok h
    rw [driver_flowOps ops (fun o ho => hp o (by rw [Op.withins]; simp [ho])) h]
    exact driver_flowOp op (fun o ho => hp o (by rw [Op.withins]; simp [ho])) hmid

theorem driver_flowAlt (children : List Op)
    (hp : ∀ o ∈ Op.withins children, drives? outs o ≠ some p) {sc sc' : Scope D}
    {gate : Option (Cond D)} {covered : Option D}
    (h : flowAlt A outs children sc gate covered = .ok sc') : sc'.driver p = sc.driver p := by
  cases children with
  | nil =>
    rw [flowAlt] at h
    obtain rfl := Except.ok.inj h
    rfl
  | cons child children =>
    have hrest : ∀ o ∈ Op.withins children, drives? outs o ≠ some p :=
      fun o ho => hp o (by rw [Op.withins]; simp [ho])
    have hchild : ∀ o ∈ Op.within child, drives? outs o ≠ some p :=
      fun o ho => hp o (by rw [Op.withins]; simp [ho])
    cases child with
    | case cond body =>
      rw [flowAlt_case] at h
      obtain ⟨fd, -, h⟩ := bind_eq_ok h
      obtain ⟨mid, hmid, h⟩ := bind_eq_ok h
      rw [driver_flowAlt children hrest h]
      exact driver_flowOps body (fun o ho => hchild o (by rw [Op.within]; simp [ho])) hmid
    | default body =>
      rw [flowAlt] at h
      obtain ⟨fires, -, h⟩ := bind_eq_ok h
      obtain ⟨mid, hmid, h⟩ := bind_eq_ok h
      rw [driver_flowAlt children hrest h]
      exact driver_flowOps body (fun o ho => hchild o (by rw [Op.within]; simp [ho])) hmid
    | _ =>
      rw [flowAlt] at h
      · exact driver_flowAlt children hrest h
      all_goals simp

theorem driver_flowAny (children : List Op)
    (hp : ∀ o ∈ Op.withins children, drives? outs o ≠ some p) {sc : Scope D}
    {gate : Option (Cond D)} {accs : List (Gathered D)} (ha : NotGathered outs p accs)
    {r : Scope D × List (Gathered D)} (h : flowAny A outs children sc gate accs = .ok r) :
    r.1.driver p = sc.driver p ∧ NotGathered outs p r.2 := by
  cases children with
  | nil =>
    rw [flowAny] at h
    obtain rfl := Except.ok.inj h
    exact ⟨rfl, ha⟩
  | cons child children =>
    have hrest : ∀ o ∈ Op.withins children, drives? outs o ≠ some p :=
      fun o ho => hp o (by rw [Op.withins]; simp [ho])
    have hchild : ∀ o ∈ Op.within child, drives? outs o ≠ some p :=
      fun o ho => hp o (by rw [Op.withins]; simp [ho])
    cases child with
    | case cond body =>
      rw [flowAny_case] at h
      obtain ⟨fires, -, h⟩ := bind_eq_ok h
      obtain ⟨mid, hmid, h⟩ := bind_eq_ok h
      obtain ⟨hdriver, haccs⟩ := driver_flowAnyBody body
        (fun o ho => hchild o (by rw [Op.within]; simp [ho])) ha hmid
      obtain ⟨hdriver', haccs'⟩ := driver_flowAny children hrest haccs h
      exact ⟨hdriver'.trans hdriver, haccs'⟩
    | default body =>
      rw [flowAny_default] at h
      obtain ⟨mid, hmid, h⟩ := bind_eq_ok h
      obtain ⟨hdriver, haccs⟩ := driver_flowAnyBody body
        (fun o ho => hchild o (by rw [Op.within]; simp [ho])) ha hmid
      obtain ⟨hdriver', haccs'⟩ := driver_flowAny children hrest haccs h
      exact ⟨hdriver'.trans hdriver, haccs'⟩
    | _ =>
      rw [flowAny] at h
      · exact driver_flowAny children hrest ha h
      all_goals simp

theorem driver_flowAnyBody (ops : List Op)
    (hp : ∀ o ∈ Op.withins ops, drives? outs o ≠ some p) {sc : Scope D} {c : Cond D}
    {accs : List (Gathered D)} (ha : NotGathered outs p accs)
    {r : Scope D × List (Gathered D)} (h : flowAnyBody A outs ops sc c accs = .ok r) :
    r.1.driver p = sc.driver p ∧ NotGathered outs p r.2 := by
  cases ops with
  | nil =>
    rw [flowAnyBody] at h
    obtain rfl := Except.ok.inj h
    exact ⟨rfl, ha⟩
  | cons op ops =>
    have hrest : ∀ o ∈ Op.withins ops, drives? outs o ≠ some p :=
      fun o ho => hp o (by rw [Op.withins]; simp [ho])
    have hop : ∀ o ∈ Op.within op, drives? outs o ≠ some p :=
      fun o ho => hp o (by rw [Op.withins]; simp [ho])
    cases op with
    | transfer dst src =>
      rw [flowAnyBody] at h
      obtain ⟨accs', haccs, h⟩ := bind_eq_ok h
      have hne : placeOf outs dst false ≠ p :=
        fun heq => hop (.transfer dst src) (by simp [Op.within]) (congrArg some heq)
      exact driver_flowAnyBody ops hrest (notGathered_gather haccs hne ha) h
    | clockedTransfer dst src =>
      rw [flowAnyBody] at h
      obtain ⟨accs', haccs, h⟩ := bind_eq_ok h
      have hne : placeOf outs dst true ≠ p :=
        fun heq => hop (.clockedTransfer dst src) (by simp [Op.within]) (congrArg some heq)
      exact driver_flowAnyBody ops hrest (notGathered_gather haccs hne ha) h
    | _ =>
      simp only [flowAnyBody] at h
      obtain ⟨mid, hmid, h⟩ := bind_eq_ok h
      obtain ⟨hdriver, haccs⟩ := driver_flowAnyBody ops hrest ha h
      exact ⟨hdriver.trans (driver_flowOp _ hop hmid), haccs⟩

end

/-- So do the cases of an `any` outside their direct transfers. -/
theorem driver_bodyWrites (ops : List Op)
    (hp : ∀ o ∈ Op.withins (ops.filter fun o => !isTransfer o), drives? outs o ≠ some p)
    {sc : Scope D} {c : Cond D} {r : Scope D × List (CaseWrite D)}
    (h : bodyWrites A outs ops sc c = .ok r) : r.1.driver p = sc.driver p := by
  induction ops generalizing sc r with
  | nil =>
    obtain rfl := Except.ok.inj h
    rfl
  | cons op ops ih =>
    cases op with
    | transfer dst src =>
      rw [bodyWrites] at h
      obtain ⟨w, -, h⟩ := bind_eq_ok h
      obtain ⟨r', hr', h⟩ := bind_eq_ok h
      obtain rfl := Except.ok.inj h
      exact ih (r := r') hp hr'
    | clockedTransfer dst src =>
      rw [bodyWrites] at h
      obtain ⟨w, -, h⟩ := bind_eq_ok h
      obtain ⟨r', hr', h⟩ := bind_eq_ok h
      obtain rfl := Except.ok.inj h
      exact ih (r := r') hp hr'
    | _ =>
      simp only [bodyWrites] at h
      obtain ⟨mid, hmid, h⟩ := bind_eq_ok h
      rw [List.filter_cons_of_pos rfl, Op.withins, List.forall_mem_append] at hp
      rw [ih hp.2 h, driver_flowOp _ hp.1 hmid]

theorem driver_flowWrites (children : List Op) (hp : p.Direct outs children) {sc : Scope D}
    {gate : Option (Cond D)} {r : Scope D × List (CaseWrite D)}
    (h : flowWrites A outs children sc gate = .ok r) : r.1.driver p = sc.driver p := by
  induction children generalizing sc r with
  | nil =>
    obtain rfl := Except.ok.inj h
    rfl
  | cons child children ih =>
    cases child with
    | case cond body =>
      rw [flowWrites] at h
      obtain ⟨fires, -, h⟩ := bind_eq_ok h
      obtain ⟨mid, hmid, h⟩ := bind_eq_ok h
      obtain ⟨r', hr', h⟩ := bind_eq_ok h
      obtain rfl := Except.ok.inj h
      rw [Place.Direct, nested, List.forall_mem_append] at hp
      exact (ih hp.2 hr').trans (driver_bodyWrites body hp.1 hmid)
    | _ =>
      simp only [flowWrites] at h
      exact ih hp h

end Frame

/-! ## The driver of a place -/

section Held

variable {ρ : Valuation} {S : Setting} {sc sc' : Scope Bits} {ctx : Ctx} {p : Place}

/-- What a place would get in the flow if the module ended here. -/
def Scope.held (sc : Scope Bits) (S : Setting) (p : Place) : Option Bits :=
  match sc.driver p with
  | none => some (.const (p.width S) 0)
  | some d => d

theorem width_placeOf (S : Setting) (dst : Val) (isClocked : Bool) :
    (placeOf S.outs dst isClocked).width S = dst.width := by
  unfold placeOf
  split
  · rfl
  · split
    · exact S.sized dst ‹_›
    · rfl

theorem Clean.driver {D : Type} {R : Value → D → Prop} {sc : Scope D} (h : Clean R S sc ctx)
    (hp : p.IsMade S) : DriverMeans R (p.width S) (ctx.driver p) (sc.driver p) := by
  cases p with
  | wire v => exact h.wireDriver v
  | out name => exact h.outDriver name
  | reg v =>
    have hv : v ∈ sc.regs := by
      rw [h.madeRegs]
      exact hp
    obtain ⟨j, r, -, hlookup, hinfo, hnext⟩ := h.regInfo hv
    show DriverMeans R v.width ((ctx.regInfo? (ctx.lookupValue v)).map RegInfo.pendingNext) _
    rw [hlookup, hinfo]
    exact hnext

theorem Stands.width_eval {w : ℕ} {x : Value} {d : Bits}
    (h : Stands (fun x b => x.eval ρ = b) w x d) : d.width = w := by
  have heval : x.eval ρ = d := h.rel
  rw [← heval, Value.width_eval, h.width]

/-- The lowering holds what the flow holds. -/
theorem Clean.heldAt (h : Clean (fun x b => x.eval ρ = b) S sc ctx) (hp : p.IsMade S) :
    ctx.heldAt S ρ p = sc.held S p ∧ ∀ x, sc.held S p = some x → x.width = p.width S := by
  have hdriver := h.driver hp
  unfold Ctx.heldAt Scope.held
  match ctx.driver p, sc.driver p, hdriver with
  | none, none, _ => exact ⟨rfl, fun x hx => by obtain rfl := Option.some.inj hx; rfl⟩
  | some x, some none, hx =>
    have hmeans : Means (fun x b => x.eval ρ = b) (p.width S) x none := hx
    have hu : x.typed = false := hmeans.untyped
    simp [hu]
  | some x, some (some d), hx =>
    have hs : Stands (fun x b => x.eval ρ = b) (p.width S) x d := hx
    have heval : x.eval ρ = d := hs.rel
    refine ⟨by simp [hs.typed, heval], fun y hy => ?_⟩
    obtain rfl := Option.some.inj hy
    exact hs.width_eval

/-- What is gathered for a target, of its width. -/
def Gathered.Sized (a : Gathered Bits) : Prop := a.value.width = a.target.width

theorem held_applyGathered {a : Gathered Bits} (ha : a.Sized)
    (h : applyGathered (eager ρ) S.outs sc a = .ok sc') (p : Place) :
    sc'.held S p = (sc.held S p).map fun x =>
      if placeOf S.outs a.target a.isClocked = p then x.map₂ a.value (· ||| ·) else x := by
  obtain ⟨d, hd, rfl⟩ := applyGathered_drives h
  by_cases hp : placeOf S.outs a.target a.isClocked = p
  · have hw : p.width S = a.value.width := by rw [← hp, width_placeOf, ha]
    rw [hp] at hd
    simp only [hp, if_true, Scope.held, driver_drive]
    match hdriver : sc.driver p, hd with
    | none, hd =>
      obtain rfl := Except.ok.inj hd
      -- zero joined to what was gathered
      have hzero : (Bits.const (p.width S) 0).map₂ a.value (· ||| ·) = a.value := by
        have hwidth : (Bits.const (p.width S) 0).width = a.value.width := hw
        refine Bits.ext_bit hwidth fun i => ?_
        rw [Bits.bit_or hwidth, Bits.bit_const_zero, Bool.false_or]
      simp only [Option.map_some, hzero]
    | some (some x), hd =>
      obtain rfl := Except.ok.inj hd
      rfl
    | some none, hd => cases hd
  · have hne : ¬ p = placeOf S.outs a.target a.isClocked := fun heq => hp heq.symm
    simp only [hp, if_false, Scope.held, driver_drive, hne]
    exact Option.map_id'.symm

/-- The values gathered for a place are joined to what it held. -/
theorem held_foldlM_applyGathered {accs : List (Gathered Bits)} (ha : ∀ a ∈ accs, a.Sized)
    (h : accs.foldlM (applyGathered (eager ρ) S.outs) sc = .ok sc') (p : Place) :
    sc'.held S p = (sc.held S p).map fun x =>
      x.orOnto ((accs.filter fun a => placeOf S.outs a.target a.isClocked == p).map
        Gathered.value) := by
  induction accs generalizing sc with
  | nil =>
    obtain rfl := Except.ok.inj h
    exact Option.map_id'.symm
  | cons a accs ih =>
    obtain ⟨hhead, htail⟩ := List.forall_mem_cons.1 ha
    rw [List.foldlM_cons] at h
    obtain ⟨mid, hmid, h⟩ := bind_eq_ok h
    rw [ih htail h, held_applyGathered hhead hmid, Option.map_map]
    refine congrArg (Option.map · _) (funext fun x => ?_)
    by_cases hp : placeOf S.outs a.target a.isClocked = p
    · rw [List.filter_cons_of_pos (by simpa using hp)]
      simp only [Function.comp_apply, hp, if_true]
      rfl
    · rw [List.filter_cons_of_neg (by simpa using hp)]
      simp only [Function.comp_apply, hp, if_false]

/-! ## What is gathered -/

/-- A transfer whose source has its width and that of the target. -/
def CaseWrite.Sized (w : CaseWrite Bits) : Prop :=
  w.source.width = w.width ∧ w.width = w.target.width

theorem width_envelope {w : CaseWrite Bits} (hw : w.Sized) :
    (w.envelope (eager ρ)).width = w.target.width := by
  simp only [CaseWrite.envelope, eager, bitsAlgebra]
  split
  · rw [hw.1, hw.2]
  · exact hw.2

/-- A case that does not fire contributes zero. -/
theorem bit_envelope (w : CaseWrite Bits) (i : ℕ) :
    (w.envelope (eager ρ)).bit i = (w.fires.isTrue && w.source.bit i) := by
  simp only [CaseWrite.envelope, eager, bitsAlgebra]
  cases w.fires.isTrue with
  | true => rw [Bool.true_and]; rfl
  | false => rw [Bool.false_and]; exact Bits.bit_const_zero _ _

theorem updateFirst_of_find? {α : Type} {q : α → Bool} {f : α → α} {xs : List α} {x : α}
    (h : xs.find? q = some x) :
    ∃ l₁ l₂, xs = l₁ ++ x :: l₂ ∧ updateFirst q f xs = l₁ ++ f x :: l₂ := by
  induction xs with
  | nil => cases h
  | cons y xs ih =>
    by_cases hy : q y = true
    · rw [List.find?_cons_of_pos hy] at h
      obtain rfl := Option.some.inj h
      exact ⟨[], xs, rfl, by simp [updateFirst, hy]⟩
    · rw [List.find?_cons_of_neg hy] at h
      obtain ⟨l₁, l₂, rfl, hup⟩ := ih h
      exact ⟨y :: l₁, l₂, rfl, by simp [updateFirst, hy, hup]⟩

/-- Some value for the place has the bit set. -/
def SetIn (outs : List (Val × String)) (p : Place) (i : ℕ) (a : Gathered Bits) : Prop :=
  placeOf outs a.target a.isClocked = p ∧ a.value.bit i = true

theorem sized_addTo {w : CaseWrite Bits} (hw : w.Sized) {accs : List (Gathered Bits)}
    (ha : ∀ a ∈ accs, a.Sized) : ∀ a ∈ w.addTo (eager ρ) accs, a.Sized := by
  intro a hmem
  simp only [CaseWrite.addTo] at hmem
  split at hmem
  · rcases List.mem_append.1 hmem with hmem | hmem
    · exact ha a hmem
    · rw [List.mem_singleton.1 hmem]
      exact width_envelope hw
  · rcases mem_updateFirst hmem with hmem | ⟨b, hb, rfl⟩
    · exact ha a hmem
    · exact ha b hb

theorem setIn_addTo {w : CaseWrite Bits} (hw : w.Sized) {accs : List (Gathered Bits)}
    (ha : ∀ a ∈ accs, a.Sized) (outs : List (Val × String)) (p : Place) (i : ℕ) :
    (∃ a ∈ w.addTo (eager ρ) accs, SetIn outs p i a) ↔
      (∃ a ∈ accs, SetIn outs p i a) ∨
        placeOf outs w.target w.isClocked = p ∧ w.fires.isTrue = true ∧ w.source.bit i = true := by
  have henv : (w.envelope (eager ρ)).bit i = true ↔
      w.fires.isTrue = true ∧ w.source.bit i = true := by
    rw [bit_envelope, Bool.and_eq_true]
  simp only [CaseWrite.addTo]
  cases hf : accs.find? fun a => decide (a.target = w.target) && a.isClocked == w.isClocked with
  | none =>
    simp only [List.mem_append, List.mem_singleton]
    rw [← henv]
    constructor
    · rintro ⟨a, ha | rfl, hset⟩
      · exact .inl ⟨a, ha, hset⟩
      · exact .inr hset
    · rintro (⟨a, ha, hset⟩ | hset)
      · exact ⟨a, .inl ha, hset⟩
      · exact ⟨_, .inr rfl, hset⟩
  | some b =>
    obtain ⟨htarget, hclocked⟩ : b.target = w.target ∧ b.isClocked = w.isClocked := by
      simpa using List.find?_some hf
    obtain ⟨l₁, l₂, hsplit, hup⟩ := updateFirst_of_find? (f := fun a : Gathered Bits =>
      { a with value := (eager ρ).join a.value (w.envelope (eager ρ)) }) hf
    simp only [hup]
    rw [hsplit]
    have hbw : b.value.width = (w.envelope (eager ρ)).width := by
      rw [width_envelope hw, ← htarget]
      exact ha b (List.mem_of_find?_eq_some hf)
    have hjoin : SetIn outs p i { b with value := (eager ρ).join b.value (w.envelope (eager ρ)) } ↔
        SetIn outs p i b ∨
          placeOf outs w.target w.isClocked = p ∧ w.fires.isTrue = true ∧ w.source.bit i = true := by
      have hor : ((eager ρ).join b.value (w.envelope (eager ρ))).bit i =
          (b.value.bit i || (w.envelope (eager ρ)).bit i) := Bits.bit_or hbw i
      simp only [SetIn, hor, Bool.or_eq_true, henv, htarget, hclocked, and_or_left]
    simp only [List.mem_append, List.mem_cons, or_and_right, exists_or, exists_eq_left, hjoin]
    have hmove : ∀ a b c d : Prop, (a ∨ (b ∨ d) ∨ c) ↔ ((a ∨ b ∨ c) ∨ d) := by
      intro a b c d
      tauto
    exact hmove _ _ _ _

theorem gathered_foldl {ws : List (CaseWrite Bits)} (hw : ∀ w ∈ ws, w.Sized)
    {accs : List (Gathered Bits)} (ha : ∀ a ∈ accs, a.Sized) (outs : List (Val × String))
    (p : Place) (i : ℕ) :
    (∀ a ∈ ws.foldl (CaseWrite.addTo (eager ρ)) accs, a.Sized) ∧
      ((∃ a ∈ ws.foldl (CaseWrite.addTo (eager ρ)) accs, SetIn outs p i a) ↔
        (∃ a ∈ accs, SetIn outs p i a) ∨ ∃ y ∈ firing outs ws p, y.bit i = true) := by
  induction ws generalizing accs with
  | nil => exact ⟨ha, by simp [firing]⟩
  | cons w ws ih =>
    obtain ⟨hhead, htail⟩ := List.forall_mem_cons.1 hw
    obtain ⟨hsized, hset⟩ := ih htail (sized_addTo (ρ := ρ) hhead ha)
    refine ⟨hsized, ?_⟩
    rw [List.foldl_cons, hset, setIn_addTo hhead ha, or_assoc]
    refine or_congr_right ?_
    simp only [firing, List.mem_map, List.mem_filter, List.mem_cons, Bool.and_eq_true, beq_iff_eq]
    constructor
    · rintro (⟨hp, hfires, hbit⟩ | ⟨y, ⟨u, ⟨hmem, hu⟩, rfl⟩, hbit⟩)
      · exact ⟨_, ⟨w, ⟨.inl rfl, hp, hfires⟩, rfl⟩, hbit⟩
      · exact ⟨_, ⟨u, ⟨.inr hmem, hu⟩, rfl⟩, hbit⟩
    · rintro ⟨y, ⟨u, ⟨rfl | hmem, hp, hfires⟩, rfl⟩, hbit⟩
      · exact .inl ⟨hp, hfires, hbit⟩
      · exact .inr ⟨_, ⟨u, ⟨hmem, hp, hfires⟩, rfl⟩, hbit⟩

/-! ## One `any` -/

variable {ctx' : Ctx} {body : List Op} {gate : Option (Cond Bits)} {gv : Option Value}

theorem caseWrite_sized (h : Clean (fun x b => x.eval ρ = b) S sc ctx) {c : Cond Bits}
    {target src : Val} {isClocked : Bool} (hw : target.width = src.width) {w : CaseWrite Bits}
    (hwrite : caseWrite sc c target src isClocked = .ok w) : w.Sized := by
  obtain ⟨rfl, -, hwidth, hsource⟩ := caseWrite_target hwrite
  have hvals := h.vals src
  rw [hsource] at hvals
  have hs : Stands (fun x b => x.eval ρ = b) src.width (ctx.lookupValue src) w.source := hvals
  exact ⟨hs.width_eval.trans hwidth.symm, hwidth.trans hw.symm⟩

/-- The walk over a case stays in step with the lowering of its ops, so
the sources have the widths of their transfers. -/
theorem sized_bodyWrites (ops : List Op) (hv : VerifiedOps S.regs ops)
    (h : Clean (fun x b => x.eval ρ = b) S sc ctx) {c : Cond Bits} {g : Value}
    (hg : Means (fun x b => x.eval ρ = b) c.width g c.value) {r : Scope Bits × List (CaseWrite Bits)}
    (hr : bodyWrites (eager ρ) S.outs ops sc c = .ok r) :
    (∃ ctx', Clean (fun x b => x.eval ρ = b) S r.1 ctx') ∧ ∀ w ∈ r.2, w.Sized := by
  induction ops generalizing sc ctx r with
  | nil =>
    obtain rfl := Except.ok.inj hr
    exact ⟨⟨ctx, h⟩, by simp⟩
  | cons op ops ih =>
    obtain ⟨hop, hops⟩ := verifiedOps_cons.1 hv
    have hself := verified_self hop
    cases op with
    | transfer dst src =>
      rw [bodyWrites] at hr
      obtain ⟨w, hw, hr⟩ := bind_eq_ok hr
      obtain ⟨r', hr', hr⟩ := bind_eq_ok hr
      obtain rfl := Except.ok.inj hr
      obtain ⟨hclean, hsized⟩ := ih hops h hr'
      simp only [Op.verify, beq_iff_eq] at hself
      exact ⟨hclean, List.forall_mem_cons.2 ⟨caseWrite_sized h hself hw, hsized⟩⟩
    | clockedTransfer dst src =>
      rw [bodyWrites] at hr
      obtain ⟨w, hw, hr⟩ := bind_eq_ok hr
      obtain ⟨r', hr', hr⟩ := bind_eq_ok hr
      obtain rfl := Except.ok.inj hr
      obtain ⟨hclean, hsized⟩ := ih hops h hr'
      simp only [Op.verify, Bool.and_eq_true, beq_iff_eq] at hself
      exact ⟨hclean, List.forall_mem_cons.2 ⟨caseWrite_sized h hself.1 hw, hsized⟩⟩
    | _ =>
      simp only [bodyWrites] at hr
      obtain ⟨mid, hmid, hr⟩ := bind_eq_ok hr
      have hgate : GateMeans (fun x b => x.eval ρ = b) (some g) (some c) := hg
      have hagree := agrees_op (interprets_eager ρ) _ hop h hgate
      rw [hmid] at hagree
      obtain ⟨ctx', -, hclean⟩ := hagree
      exact ih hops hclean hr

theorem sized_flowWrites (children : List Op) (hv : VerifiedOps S.regs children)
    (h : Clean (fun x b => x.eval ρ = b) S sc ctx)
    (hg : GateMeans (fun x b => x.eval ρ = b) gv gate) {r : Scope Bits × List (CaseWrite Bits)}
    (hr : flowWrites (eager ρ) S.outs children sc gate = .ok r) : ∀ w ∈ r.2, w.Sized := by
  induction children generalizing sc ctx r with
  | nil =>
    obtain rfl := Except.ok.inj hr
    simp
  | cons child children ih =>
    obtain ⟨hchild, hchildren⟩ := verifiedOps_cons.1 hv
    cases child with
    | case cond body =>
      have hbody : VerifiedOps S.regs body :=
        verified_body (fun o ho => by rw [Op.within]; simp [ho]) hchild
      rw [flowWrites] at hr
      obtain ⟨fires, hfires, hr⟩ := bind_eq_ok hr
      obtain ⟨mid, hmid, hr⟩ := bind_eq_ok hr
      obtain ⟨r', hr', hr⟩ := bind_eq_ok hr
      obtain rfl := Except.ok.inj hr
      have hnarrow := agrees_narrow (c := ⟨cond.width, sc.vals cond⟩) ctx (interprets_eager ρ) hg
        (h.vals cond)
      rw [hfires] at hnarrow
      obtain ⟨g, -, hgate⟩ := hnarrow
      obtain ⟨⟨ctx', hclean⟩, hsized⟩ := sized_bodyWrites body hbody (h.adds hgate.2) hgate.1 hmid
      intro w hw
      rcases List.mem_append.1 hw with hw | hw
      · exact hsized w hw
      · exact ih hchildren hclean hr' w hw
    | _ =>
      simp only [flowWrites] at hr
      exact ih hchildren h hr

/-- Where the lowering comes through sound, the flow did. -/
theorem Agrees.flow_ok {α β : Type} {π : β → Ctx} {P : α → β → Prop} {c : Except Flaw α}
    {r : Except LowerError β} {b : β} (h : Agrees π P c r) (hr : r = .ok b)
    (hs : ¬ Spoiled (π b)) : ∃ a, c = .ok a ∧ P a b := by
  subst hr
  match c, h with
  | .ok a, ⟨b', hb, hp⟩ =>
    obtain rfl := Except.ok.inj hb
    exact ⟨a, rfl, hp⟩
  | .error .reported, ⟨message, hb⟩ => cases hb
  | .error .spoiled, h => exact absurd (h b rfl) hs

/-- **What an `any` does to a place**: the sources of the firing cases are
joined to what it would get anyway. -/
theorem held_any (hd : ∀ o ∈ body, isDefault o = false)
    (hv : ∀ o ∈ Op.within (.any body), o.verify S.regs = true)
    (hg : GateMeans (fun x b => x.eval ρ = b) gv gate)
    (h : Clean (fun x b => x.eval ρ = b) S sc ctx)
    (hok : lowerControlOp (.any body) ctx gv = .ok ctx') (hs : ¬ Spoiled ctx')
    (hp : p.IsMade S) (hdirect : p.Direct S.outs body) :
    (∀ y ∈ firing S.outs (caseWrites (eager ρ) S.outs body sc gate) p, y.width = p.width S) ∧
      (∀ x, ctx.heldAt S ρ p = some x → x.width = p.width S) ∧
      ctx'.heldAt S ρ p = (ctx.heldAt S ρ p).map fun x =>
        x.orOnto (firing S.outs (caseWrites (eager ρ) S.outs body sc gate) p) := by
  have hbody : VerifiedOps S.regs body :=
    verified_body (fun o ho => by rw [Op.within]; simp [ho]) hv
  obtain ⟨sc', hflow, hclean'⟩ := (agrees_op (interprets_eager ρ) (.any body) hv h hg).flow_ok hok hs
  rw [flowOp_any_eq _ _ _ hd] at hflow
  obtain ⟨r, hr, happly⟩ := bind_eq_ok hflow
  have hcases : caseWrites (eager ρ) S.outs body sc gate = r.2 := by
    rw [caseWrites, hr]
  have hsized : ∀ w ∈ r.2, w.Sized := sized_flowWrites body hbody h hg hr
  have hfiring : ∀ y ∈ firing S.outs r.2 p, y.width = p.width S := by
    intro y hy
    simp only [firing, List.mem_map, List.mem_filter, Bool.and_eq_true, beq_iff_eq] at hy
    obtain ⟨w, ⟨hmem, hplace, -⟩, rfl⟩ := hy
    rw [← hplace, width_placeOf, (hsized w hmem).1, (hsized w hmem).2]
  obtain ⟨hheld, hwidth⟩ := h.heldAt hp
  obtain ⟨hheld', -⟩ := hclean'.heldAt hp
  rw [hcases, hheld]
  refine ⟨hfiring, hwidth, ?_⟩
  have hnone : ∀ a ∈ ([] : List (Gathered Bits)), a.Sized := by simp
  have hgathered := fun i => gathered_foldl (ρ := ρ) hsized hnone S.outs p i
  have hmid : r.1.held S p = sc.held S p := by
    rw [Scope.held, Scope.held, driver_flowWrites body hdirect hr]
  rw [hheld', held_foldlM_applyGathered (hgathered 0).1 happly, hmid]
  cases hx : sc.held S p with
  | none => rfl
  | some x =>
    -- the gathered values and the firing sources have the same bits
    have hxw : x.width = p.width S := hwidth x hx
    refine congrArg some (Bits.ext_bit (by simp) fun i => ?_)
    rw [Bits.bit_orOnto, Bits.bit_orOnto (by simpa only [hxw] using hfiring)]
    · refine congrArg (x.bit i || ·) (Bool.eq_iff_iff.2 ?_)
      have hset := (hgathered i).2
      simp only [List.any_map, List.any_filter, List.any_eq_true, Function.comp_apply,
        Bool.and_eq_true, beq_iff_eq] at hset ⊢
      simpa [SetIn] using hset
    · intro y hy
      simp only [List.mem_map, List.mem_filter, beq_iff_eq] at hy
      obtain ⟨a, ⟨hmem, hplace⟩, rfl⟩ := hy
      rw [hxw, ← hplace, width_placeOf]
      exact (hgathered i).1 a hmem

/-- **The cases of an `any` fire as they should exactly where nothing
shines through**: a bit of a register that no firing case sets is one
that the `any` cannot clear. -/
theorem firesAll_iff (hd : ∀ o ∈ body, isDefault o = false)
    (hv : ∀ o ∈ Op.within (.any body), o.verify S.regs = true)
    (hg : GateMeans (fun x b => x.eval ρ = b) gv gate)
    (h : Clean (fun x b => x.eval ρ = b) S sc ctx)
    (hok : lowerControlOp (.any body) ctx gv = .ok ctx') (hs : ¬ Spoiled ctx') :
    FiresAll S body ρ (caseWrites (eager ρ) S.outs body sc gate) ctx ctx' ↔
      Masked S body ρ (caseWrites (eager ρ) S.outs body sc gate) ctx := by
  constructor
  · intro hfires v hv' hdirect hne
    obtain ⟨hsources, hwidth, hheld⟩ := held_any (p := .reg v) hd hv hg h hok hs hv' hdirect
    have hnext := hfires.fires v hv' hdirect hne
    rw [hheld] at hnext
    obtain ⟨x, hx, hor⟩ := Option.map_eq_some_iff.1 hnext
    exact ⟨x, hx, (Bits.orOnto_eq_orAll_iff (hwidth x hx) hsources).1 hor⟩
  · intro hmasked
    refine ⟨fun v hv' hdirect hne => ?_, fun p hp hdirect hnone => ?_⟩
    · obtain ⟨hsources, hwidth, hheld⟩ := held_any (p := .reg v) hd hv hg h hok hs hv' hdirect
      obtain ⟨x, hx, hbits⟩ := hmasked v hv' hdirect hne
      rw [hheld, hx, Option.map_some]
      exact congrArg some ((Bits.orOnto_eq_orAll_iff (hwidth x hx) hsources).2 hbits)
    · obtain ⟨-, -, hheld⟩ := held_any hd hv hg h hok hs hp hdirect
      rw [hheld, hnone]
      exact Option.map_id'

end Held

/-- A register `reg q[2]` with inputs to load it, before
`any { c: q := d; }`. -/
def beforeAny : NslModule where
  symName := "m"
  declare := some ⟨[("c", 1), ("d", 2)], [], none⟩
  body := [.inputPort ⟨0, 1⟩ "c", .inputPort ⟨1, 2⟩ "d", .reg ⟨2, 2⟩ "q" 0]

def loadCase : List Op := [.case ⟨0, 1⟩ [.clockedTransfer ⟨2, 2⟩ ⟨1, 2⟩]]

/-- The case fires with `d` at `0b10`. -/
def loadCycle (old : ℕ) : Valuation where
  arg := fun name w => BitVec.ofNat w (if name = "d" then 2 else 1)
  reg := fun _ w => BitVec.ofNat w old

theorem eq_ok_of_toOption {ε α : Type} {x : Except ε α} {a : α} (h : x.toOption = some a) :
    x = .ok a := by
  cases x with
  | error e => cases h
  | ok b => exact congrArg Except.ok (Option.some.inj h)

theorem heldAt_of_driver {ctx : Ctx} {S : Setting} {ρ : Valuation} {p : Place} {b : Bits}
    (h : (ctx.driver p).map (fun x => (x.typed, x.eval ρ)) = some (true, b)) :
    ctx.heldAt S ρ p = some b := by
  obtain ⟨x, hx, hb⟩ := Option.map_eq_some_iff.1 h
  obtain ⟨htyped, heval⟩ := Prod.mk.inj hb
  rw [Ctx.heldAt, hx]
  simp only [htyped, heval, if_true]

/-- The run up to the `any` and through it: the register has its old value
before, and after it the one with the bits of `d` set. -/
theorem run_loadCase (hm : VerifiedModule beforeAny) (old : Fin 2) :
    ∃ sc ctx ctx', Clean (fun x b => x.eval (loadCycle old) = b)
        (hm.setting.after beforeAny.body) sc ctx ∧
      lowerControlOp (.any loadCase) ctx none = .ok ctx' ∧ ¬ Spoiled ctx' ∧
      caseWrites (eager (loadCycle old)) beforeAny.outs loadCase sc none =
        [⟨⟨2, 2⟩, true, 2, .const 1 1, .const 2 2⟩] ∧
      ∀ S, ctx.heldAt S (loadCycle old) (.reg ⟨2, 2⟩) = some (.const 2 old) ∧
        ctx'.heldAt S (loadCycle old) (.reg ⟨2, 2⟩) = some (.const 2 (2 + old)) := by
  have hflow : ∀ old : Fin 2, ((beforeAny.body.foldlM (flowPort (eager (loadCycle old)) beforeAny)
      .empty >>= beforeAny.body.foldlM (flowBodyOp (eager (loadCycle old)) beforeAny.outs
        beforeAny.declare.isSome)).toOption.map fun sc =>
          caseWrites (eager (loadCycle old)) beforeAny.outs loadCase sc none) =
      some [⟨⟨2, 2⟩, true, 2, .const 1 1, .const 2 2⟩] := by decide +kernel
  have hbefore : ∀ old : Fin 2, ((walkModule beforeAny).toOption.map fun ctx =>
      (ctx.driver (.reg ⟨2, 2⟩)).map fun x => (x.typed, x.eval (loadCycle old))) =
      some (some (true, .const 2 old)) := by decide +kernel
  have hafter : ∀ old : Fin 2, ((walkModule beforeAny >>= fun ctx =>
      lowerControlOp (.any loadCase) ctx none).toOption.map fun ctx =>
        (ctx.body.all sound, (ctx.driver (.reg ⟨2, 2⟩)).map fun x =>
          (x.typed, x.eval (loadCycle old)))) =
      some (true, some (true, .const 2 (2 + old))) := by decide +kernel
  have hwalk := agrees_walk (interprets_eager (loadCycle old)) hm
  obtain ⟨sc, hsc, hcases⟩ := Option.map_eq_some_iff.1 (hflow old)
  obtain ⟨ctx', hctx', hend⟩ := Option.map_eq_some_iff.1 (hafter old)
  obtain ⟨hsound, hnew⟩ := Prod.mk.inj hend
  rw [eq_ok_of_toOption hsc] at hwalk
  obtain ⟨ctx, hctx, hclean⟩ := hwalk
  have hany := eq_ok_of_toOption hctx'
  have hold := hbefore old
  rw [hctx] at hany hold
  refine ⟨sc, ctx, ctx', hclean, hany, ?_, hcases, fun S => ⟨?_, heldAt_of_driver hnew⟩⟩
  · rintro ⟨y, hy, hbad⟩
    rw [List.all_eq_true.1 hsound y hy] at hbad
    cases hbad
  · exact heldAt_of_driver (Option.some.inj hold)

/-- A register at zero is loaded as it should. -/
theorem firesAll_cleared : ∃ (hm : VerifiedModule beforeAny) (sc : Scope Bits) (ctx ctx' : Ctx),
    lowerControlOp (.any loadCase) ctx none = .ok ctx' ∧
      FiresAll (hm.setting.after beforeAny.body) loadCase (loadCycle 0)
        (caseWrites (eager (loadCycle 0)) beforeAny.outs loadCase sc none) ctx ctx' ∧
      ctx'.heldAt (hm.setting.after beforeAny.body) (loadCycle 0) (.reg ⟨2, 2⟩) =
        some (.const 2 2) := by
  have hm : VerifiedModule beforeAny := by decide +kernel
  have hverify : ∀ o ∈ Op.within (.any loadCase), o.verify beforeAny.regsWithin = true := by
    decide +kernel
  obtain ⟨sc, ctx, ctx', hclean, hany, hs, hcases, hheld⟩ := run_loadCase hm 0
  obtain ⟨hbefore, hafter⟩ := hheld (hm.setting.after beforeAny.body)
  refine ⟨hm, sc, ctx, ctx', hany, ?_, hafter⟩
  have hgate : GateMeans (fun x b => x.eval (loadCycle 0) = b) none none := trivial
  refine (firesAll_iff (by decide +kernel) hverify hgate hclean hany hs).2 ?_
  intro v hv _ _
  obtain rfl : ⟨2, 2⟩ = v := by simpa [Setting.after, VerifiedModule.setting, beforeAny,
    regResult?] using hv
  refine ⟨_, hbefore, fun i hi => ?_⟩
  have hzero : (Bits.const 2 0).bit i = false := Bits.bit_const_zero 2 i
  rw [Fin.val_zero, hzero] at hi
  cases hi

/-- An old bit stays where `0b10` is loaded over `0b01`. -/
theorem not_firesAll_oldBit : ∃ (hm : VerifiedModule beforeAny) (sc : Scope Bits) (ctx ctx' : Ctx),
    Clean (fun x b => x.eval (loadCycle 1) = b) (hm.setting.after beforeAny.body) sc ctx ∧
      lowerControlOp (.any loadCase) ctx none = .ok ctx' ∧ ¬ Spoiled ctx' ∧
      ¬ FiresAll (hm.setting.after beforeAny.body) loadCase (loadCycle 1)
        (caseWrites (eager (loadCycle 1)) beforeAny.outs loadCase sc none) ctx ctx' := by
  have hm : VerifiedModule beforeAny := by decide +kernel
  obtain ⟨sc, ctx, ctx', hclean, hany, hs, hcases, hheld⟩ := run_loadCase hm 1
  refine ⟨hm, sc, ctx, ctx', hclean, hany, hs, fun h => ?_⟩
  have hsources : firing beforeAny.outs (caseWrites (eager (loadCycle 1)) beforeAny.outs loadCase sc
      none) (.reg ⟨2, 2⟩) = [.const 2 2] := by
    rw [show caseWrites (eager (loadCycle 1)) beforeAny.outs loadCase sc none = _ from hcases]
    decide
  have hmade : (⟨2, 2⟩ : Val) ∈ (hm.setting.after beforeAny.body).madeRegs := by
    simp [Setting.after, VerifiedModule.setting, beforeAny, regResult?]
  have hdirect : Place.Direct (hm.setting.after beforeAny.body).outs loadCase (.reg ⟨2, 2⟩) := by
    intro o ho
    simp [nested, loadCase, isTransfer, Op.withins] at ho
  have hnext := h.fires ⟨2, 2⟩ hmade hdirect (by
    show firing beforeAny.outs _ _ ≠ []
    rw [hsources]
    simp)
  rw [show firing (hm.setting.after beforeAny.body).outs _ _ = _ from hsources] at hnext
  have hor := ((hheld (hm.setting.after beforeAny.body)).2.symm.trans hnext)
  exact absurd (Option.some.inj hor) (by decide)

end Lower

end Nslc
