import Nslc.Lower.Splices
import Nslc.Lower.Unroll
/-!
# The expansion is the unrolling

In two steps. `expandAll` expands a body before it is copied; the loop of
the pass computes it, one generate in each iteration. And a copy made
through the mapping is the body with the values it defines renamed,
since what an op in the body reads is defined before it or outside. So a
frame of the reference and a replica of the pass are the same.
-/

namespace Nslc

namespace Passes

namespace Ssa

/-! ## From the inside out -/

mutual

/-- Every generate of an op expanded, those in a body before the body is
copied; `none` where a count is undefined. -/
def expandAllIn (o : Op) : Option (List Op) :=
  match o with
  | .op name attrs operands results regions =>
    (expandAllRegions regions).map fun regions => [.op name attrs operands results regions]
  | .generate lower upper step loopVar _ body =>
    (expandAll body).bind fun body => expandOne lower upper step loopVar body

def expandAll (os : List Op) : Option (List Op) :=
  match os with
  | [] => some []
  | o :: os => (expandAllIn o).bind fun head => (expandAll os).map fun tail => head ++ tail

def expandAllRegions (bs : List (List Op)) : Option (List (List Op)) :=
  match bs with
  | [] => some []
  | b :: bs => (expandAll b).bind fun b => (expandAllRegions bs).map fun bs => b :: bs

end

variable {P : ℤ → ℤ → ℤ → Prop}

theorem generates_append (os os' : List Op) : generates (os ++ os') = generates os + generates os' := by
  induction os with
  | nil => simp [generates]
  | cons o os ih =>
    simp only [List.cons_append, generates, ih]
    omega

theorem generates_flatMap_eq_zero {β : Type} {ks : List β} {f : β → List Op}
    (h : ∀ k ∈ ks, generates (f k) = 0) : generates (ks.flatMap f) = 0 := by
  induction ks with
  | nil => rfl
  | cons k ks ih =>
    rw [List.flatMap_cons, generates_append, h k List.mem_cons_self,
      ih fun k hk => h k (List.mem_cons_of_mem _ hk)]

theorem forGenerates_append {os os' : List Op} :
    ForGenerates P (os ++ os') ↔ ForGenerates P os ∧ ForGenerates P os' := by
  induction os with
  | nil => simp [ForGenerates]
  | cons o os ih => simp only [List.cons_append, ForGenerates, ih, and_assoc]

theorem expandAll_append (os os' : List Op) :
    expandAll (os ++ os') =
      (expandAll os).bind fun head => (expandAll os').map fun tail => head ++ tail := by
  induction os with
  | nil => simp [expandAll]
  | cons o os ih =>
    rw [List.cons_append, expandAll, expandAll, ih]
    cases expandAllIn o with
    | none => rfl
    | some head =>
      cases expandAll os with
      | none => rfl
      | some tail => cases expandAll os' <;> simp

mutual

/-- Without generates there is nothing to expand. -/
theorem expandAllIn_of_generates (o : Op) (h : generatesIn o = 0) : expandAllIn o = some [o] := by
  cases o with
  | op name attrs operands results regions =>
    rw [expandAllIn, expandAllRegions_of_generates regions h]
    rfl
  | generate lower upper step loopVar attrs body => cases h

theorem expandAll_of_generates (os : List Op) (h : generates os = 0) : expandAll os = some os := by
  cases os with
  | nil => rfl
  | cons o os =>
    have hzero : generatesIn o = 0 ∧ generates os = 0 := Nat.add_eq_zero_iff.1 h
    rw [expandAll, expandAllIn_of_generates o hzero.1, expandAll_of_generates os hzero.2]
    rfl

theorem expandAllRegions_of_generates (bs : List (List Op)) (h : generatesRegions bs = 0) :
    expandAllRegions bs = some bs := by
  cases bs with
  | nil => rfl
  | cons b bs =>
    have hzero : generates b = 0 ∧ generatesRegions bs = 0 := Nat.add_eq_zero_iff.1 h
    rw [expandAllRegions, expandAll_of_generates b hzero.1, expandAllRegions_of_generates bs hzero.2]
    rfl

end

mutual

theorem forGeneratesIn_of_generates (o : Op) (h : generatesIn o = 0) : ForGeneratesIn P o := by
  cases o with
  | op name attrs operands results regions => exact forGeneratesRegions_of_generates regions h
  | generate lower upper step loopVar attrs body => cases h

theorem forGenerates_of_generates (os : List Op) (h : generates os = 0) : ForGenerates P os := by
  cases os with
  | nil => trivial
  | cons o os =>
    have hzero : generatesIn o = 0 ∧ generates os = 0 := Nat.add_eq_zero_iff.1 h
    exact ⟨forGeneratesIn_of_generates o hzero.1, forGenerates_of_generates os hzero.2⟩

theorem forGeneratesRegions_of_generates (bs : List (List Op)) (h : generatesRegions bs = 0) :
    ForGeneratesRegions P bs := by
  cases bs with
  | nil => trivial
  | cons b bs =>
    have hzero : generates b = 0 ∧ generatesRegions bs = 0 := Nat.add_eq_zero_iff.1 h
    exact ⟨forGenerates_of_generates b hzero.1, forGeneratesRegions_of_generates bs hzero.2⟩

end

mutual

theorem generatesIn_clone (k : ℕ) (mapped : List Value) (o : Op) :
    generatesIn (cloneOp k mapped o).1 = generatesIn o := by
  cases o with
  | op name attrs operands results regions => exact generatesRegions_clone k mapped regions
  | generate lower upper step loopVar attrs body =>
    exact congrArg (· + 1) (generates_clone k _ body)

theorem generates_clone (k : ℕ) (mapped : List Value) (os : List Op) :
    generates (cloneOps k mapped os).1 = generates os := by
  cases os with
  | nil => rfl
  | cons o os => exact congrArg₂ (· + ·) (generatesIn_clone k mapped o) (generates_clone k _ os)

theorem generatesRegions_clone (k : ℕ) (mapped : List Value) (bs : List (List Op)) :
    generatesRegions (cloneRegions k mapped bs).1 = generatesRegions bs := by
  cases bs with
  | nil => rfl
  | cons b bs =>
    exact congrArg₂ (· + ·) (generates_clone k _ b) (generatesRegions_clone k _ bs)

end

mutual

theorem generatesIn_substitute (v r : Text) (o : Op) :
    generatesIn (substituteOp v r o) = generatesIn o := by
  cases o with
  | op name attrs operands results regions => exact generatesRegions_substitute v r regions
  | generate lower upper step loopVar attrs body =>
    exact congrArg (· + 1) (generates_substitute v r body)

theorem generates_substitute (v r : Text) (os : List Op) :
    generates (substituteOps v r os) = generates os := by
  cases os with
  | nil => rfl
  | cons o os =>
    exact congrArg₂ (· + ·) (generatesIn_substitute v r o) (generates_substitute v r os)

theorem generatesRegions_substitute (v r : Text) (bs : List (List Op)) :
    generatesRegions (substituteRegions v r bs) = generatesRegions bs := by
  cases bs with
  | nil => rfl
  | cons b bs =>
    exact congrArg₂ (· + ·) (generates_substitute v r b) (generatesRegions_substitute v r bs)

end

/-- The replicas of a body without generates have none. -/
theorem generates_expandOne {lower upper step : ℤ} {loopVar : Option Text} {body os : List Op}
    (hb : generates body = 0) (h : expandOne lower upper step loopVar body = some os) :
    generates os = 0 := by
  obtain ⟨values, -, rfl⟩ := Option.map_eq_some_iff.1 h
  refine generates_flatMap_eq_zero fun p _ => ?_
  rw [replica, generates_substitute, generates_clone, hb]

/-! ## One iteration of the loop -/

/-- No step is zero. -/
def Steps (_ _ step : ℤ) : Prop := step ≠ 0

/-- What an iteration makes of `os`: the full expansion is the same, and
one generate is gone. -/
structure Advances (os os' : List Op) : Prop where
  expandAll : expandAll os' = expandAll os
  generates : generates os' + 1 = generates os
  steps : ForGenerates Steps os'

structure AdvancesRegions (bs bs' : List (List Op)) : Prop where
  expandAll : expandAllRegions bs' = expandAllRegions bs
  generates : generatesRegions bs' + 1 = generatesRegions bs
  steps : ForGeneratesRegions Steps bs'

theorem advances_generate {lower upper step : ℤ} {loopVar : Option Text} {attrs : List (Text × Attr)}
    {body os : List Op} (hb : generates body = 0)
    (h : expandOne lower upper step loopVar body = some os) :
    Advances [.generate lower upper step loopVar attrs body] os := by
  have hzero := generates_expandOne hb h
  refine ⟨?_, ?_, forGenerates_of_generates os hzero⟩
  · rw [expandAll_of_generates os hzero]
    simp [expandAll, expandAllIn, expandAll_of_generates body hb, h]
  · rw [hzero]
    simp [generates, generatesIn, hb]

mutual

theorem expandIn_spec (o : Op) (ho : ForGeneratesIn Steps o) :
    (expandIn o = none → generatesIn o = 0) ∧
      (expandIn o = some none → expandAllIn o = none) ∧
      ∀ os, expandIn o = some (some os) → Advances [o] os := by
  cases o with
  | op name attrs operands results regions =>
    obtain ⟨hnone, hundef, hsome⟩ := expandRegions_spec regions ho
    rw [expandIn]
    cases hr : expandRegions regions with
    | none => exact ⟨fun _ => hnone hr, fun h => (nomatch h), fun os h => nomatch h⟩
    | some r =>
      cases r with
      | none =>
        refine ⟨fun h => (nomatch h), fun _ => ?_, fun os h => nomatch h⟩
        rw [expandAllIn, hundef hr]
        rfl
      | some bs =>
        refine ⟨fun h => (nomatch h), fun h => (nomatch h), fun os h => ?_⟩
        obtain rfl := Option.some.inj (Option.some.inj h)
        have hbs := hsome bs hr
        refine ⟨?_, ?_, hbs.steps, trivial⟩
        · simp only [expandAll, expandAllIn, hbs.expandAll]
        · exact hbs.generates
  | generate lower upper step loopVar attrs body =>
    obtain ⟨hstep, hbody⟩ := ho
    obtain ⟨hnone, hundef, hsome⟩ := expandFirst_spec body hbody
    rw [expandIn]
    cases hf : expandFirst body with
    | none =>
      simp only [if_neg hstep]
      have hzero := hnone hf
      refine ⟨fun h => (nomatch h), fun h => ?_, fun os h => ?_⟩
      · rw [expandAllIn, expandAll_of_generates body hzero]
        exact Option.some.inj h
      · exact advances_generate hzero (Option.some.inj h)
    | some r =>
      cases r with
      | none =>
        refine ⟨fun h => (nomatch h), fun _ => ?_, fun os h => nomatch h⟩
        rw [expandAllIn, hundef hf]
        rfl
      | some body' =>
        refine ⟨fun h => (nomatch h), fun h => (nomatch h), fun os h => ?_⟩
        obtain rfl := Option.some.inj (Option.some.inj h)
        have hb := hsome body' hf
        refine ⟨?_, ?_, ⟨hstep, hb.steps⟩, trivial⟩
        · simp only [expandAll, expandAllIn, hb.expandAll]
        · have hone := hb.generates
          simp only [generates, generatesIn]
          omega

theorem expandFirst_spec (os : List Op) (ho : ForGenerates Steps os) :
    (expandFirst os = none → generates os = 0) ∧
      (expandFirst os = some none → expandAll os = none) ∧
      ∀ os', expandFirst os = some (some os') → Advances os os' := by
  cases os with
  | nil => exact ⟨fun _ => rfl, fun h => (nomatch h), fun os' h => nomatch h⟩
  | cons o os =>
    obtain ⟨hnone, hundef, hsome⟩ := expandIn_spec o ho.1
    rw [expandFirst]
    cases hi : expandIn o with
    | some r =>
      cases r with
      | none =>
        refine ⟨fun h => (nomatch h), fun _ => ?_, fun os' h => nomatch h⟩
        rw [expandAll, hundef hi]
        rfl
      | some head =>
        refine ⟨fun h => (nomatch h), fun h => (nomatch h), fun os' h => ?_⟩
        obtain rfl := Option.some.inj (Option.some.inj h)
        have hh := hsome head hi
        refine ⟨?_, ?_, forGenerates_append.2 ⟨hh.steps, ho.2⟩⟩
        · rw [expandAll_append, hh.expandAll, ← expandAll_append]
          rfl
        · have hone := hh.generates
          rw [generates_append]
          simp only [generates] at hone ⊢
          omega
    | none =>
      obtain ⟨hnone', hundef', hsome'⟩ := expandFirst_spec os ho.2
      have hzero := hnone hi
      cases hf : expandFirst os with
      | none =>
        refine ⟨fun _ => ?_, fun h => (nomatch h), fun os' h => nomatch h⟩
        rw [generates, hzero, hnone' hf]
      | some r =>
        cases r with
        | none =>
          refine ⟨fun h => (nomatch h), fun _ => ?_, fun os' h => nomatch h⟩
          rw [expandAll, hundef' hf, expandAllIn_of_generates o hzero]
          rfl
        | some tail =>
          refine ⟨fun h => (nomatch h), fun h => (nomatch h), fun os' h => ?_⟩
          obtain rfl := Option.some.inj (Option.some.inj h)
          have ht := hsome' tail hf
          refine ⟨?_, ?_, ho.1, ht.steps⟩
          · rw [expandAll, ht.expandAll, ← expandAll]
          · have hone := ht.generates
            simp only [generates]
            omega

theorem expandRegions_spec (bs : List (List Op)) (hb : ForGeneratesRegions Steps bs) :
    (expandRegions bs = none → generatesRegions bs = 0) ∧
      (expandRegions bs = some none → expandAllRegions bs = none) ∧
      ∀ bs', expandRegions bs = some (some bs') → AdvancesRegions bs bs' := by
  cases bs with
  | nil => exact ⟨fun _ => rfl, fun h => (nomatch h), fun bs' h => nomatch h⟩
  | cons b bs =>
    obtain ⟨hnone, hundef, hsome⟩ := expandFirst_spec b hb.1
    rw [expandRegions]
    cases hf : expandFirst b with
    | some r =>
      cases r with
      | none =>
        refine ⟨fun h => (nomatch h), fun _ => ?_, fun bs' h => nomatch h⟩
        rw [expandAllRegions, hundef hf]
        rfl
      | some b' =>
        refine ⟨fun h => (nomatch h), fun h => (nomatch h), fun bs' h => ?_⟩
        obtain rfl := Option.some.inj (Option.some.inj h)
        have hh := hsome b' hf
        refine ⟨?_, ?_, hh.steps, hb.2⟩
        · rw [expandAllRegions, hh.expandAll, ← expandAllRegions]
        · have hone := hh.generates
          simp only [generatesRegions]
          omega
    | none =>
      obtain ⟨hnone', hundef', hsome'⟩ := expandRegions_spec bs hb.2
      have hzero := hnone hf
      cases hr : expandRegions bs with
      | none =>
        refine ⟨fun _ => ?_, fun h => (nomatch h), fun bs' h => nomatch h⟩
        rw [generatesRegions, hzero, hnone' hr]
      | some r =>
        cases r with
        | none =>
          refine ⟨fun h => (nomatch h), fun _ => ?_, fun bs' h => nomatch h⟩
          rw [expandAllRegions, hundef' hr, expandAll_of_generates b hzero]
          rfl
        | some tail =>
          refine ⟨fun h => (nomatch h), fun h => (nomatch h), fun bs' h => ?_⟩
          obtain rfl := Option.some.inj (Option.some.inj h)
          have ht := hsome' tail hr
          refine ⟨?_, ?_, hb.1, ht.steps⟩
          · rw [expandAllRegions, ht.expandAll, ← expandAllRegions]
          · have hone := ht.generates
            simp only [generatesRegions]
            omega

end

/-- **The run.** Below the cap the loop computes the full expansion. -/
theorem expandLoop_eq {n : ℕ} {os : List Op} (ho : ForGenerates Steps os) (hn : generates os < n) :
    expandLoop n os =
      match expandAll os with
      | none => .undefined
      | some os => .done os := by
  induction n generalizing os with
  | zero => omega
  | succ n ih =>
    obtain ⟨hnone, hundef, hsome⟩ := expandFirst_spec os ho
    rw [expandLoop]
    cases hf : expandFirst os with
    | none => rw [expandAll_of_generates os (hnone hf)]
    | some r =>
      cases r with
      | none => rw [hundef hf]
      | some os' =>
        have hstep := hsome os' hf
        have hone := hstep.generates
        show expandLoop n os' = _
        rw [ih hstep.steps (by omega), hstep.expandAll]

/-! ## Counts -/

section Counts

variable {lower upper step : ℤ}

theorem checked_eq_some {z : ℤ} (hlo : -2 ^ 63 ≤ z) (hhi : z < 2 ^ 63) : checked z = some z :=
  if_pos ⟨hlo, hhi⟩

theorem checked_eq_none {z : ℤ} (h : 2 ^ 63 ≤ z) : checked z = none :=
  if_neg fun hz => by omega

theorem trips_up (hs : 0 < step) : trips lower upper step = ((upper - lower + step - 1) / step).toNat :=
  if_pos hs

theorem trips_down (hs : step < 0) :
    trips lower upper step = ((lower - upper - step - 1) / -step).toNat :=
  if_neg (by omega)

/-- An iteration lies before the bound. -/
theorem lt_trips_iff (h : step ≠ 0) (k : ℕ) :
    k < trips lower upper step ↔
      if 0 < step then lower + (k : ℤ) * step < upper else upper < lower + (k : ℤ) * step := by
  rcases lt_or_gt_of_ne h with hs | hs
  · rw [trips_down hs, if_neg (by omega), Int.lt_toNat, Int.lt_iff_add_one_le,
      Int.le_ediv_iff_mul_le (by omega)]
    constructor
    · intro hle
      linarith
    · intro hlt
      linarith
  · rw [trips_up hs, if_pos hs, Int.lt_toNat, Int.lt_iff_add_one_le, Int.le_ediv_iff_mul_le hs]
    constructor
    · intro hle
      linarith
    · intro hlt
      linarith

theorem trips_eq_zero_up (hs : 0 < step) (h : ¬ lower < upper) : trips lower upper step = 0 := by
  by_contra hne
  have hzero := (lt_trips_iff (by omega) 0).1 (Nat.pos_of_ne_zero hne)
  rw [if_pos hs] at hzero
  simp only [Nat.cast_zero, zero_mul, add_zero] at hzero
  exact h hzero

theorem trips_eq_zero_down (hs : step < 0) (h : ¬ upper < lower) : trips lower upper step = 0 := by
  by_contra hne
  have hzero := (lt_trips_iff (by omega) 0).1 (Nat.pos_of_ne_zero hne)
  rw [if_neg (by omega)] at hzero
  simp only [Nat.cast_zero, zero_mul, add_zero] at hzero
  exact h hzero

/-- Where it does not overflow the count is that of the iterations, in 32
bits. -/
theorem tripCount?_of_fits (hb : Bounded lower upper step) (hf : CountFits lower upper step) :
    tripCount? lower upper step = some (trips lower upper step % 2 ^ 32) := by
  obtain ⟨hl, hu, hs, hne⟩ := hb
  unfold tripCount?
  by_cases hpos : 0 < step
  · rw [if_pos hpos]
    by_cases hlt : lower < upper
    · have hfit := hf.1 hpos hlt
      rw [if_pos hlt, checked_eq_some (by omega) (by omega)]
      simp only [Option.bind_eq_bind, Option.bind_some]
      rw [checked_eq_some (by omega) (by omega)]
      simp only [Option.bind_some]
      rw [checked_eq_some (by omega) (by omega), trips_up hpos]
      rfl
    · rw [if_neg hlt, trips_eq_zero_up hpos hlt]
      rfl
  · have hneg : step < 0 := by omega
    rw [if_neg hpos]
    by_cases hlt : upper < lower
    · have hfit := hf.2 hneg hlt
      rw [if_pos hlt, checked_eq_some (by omega) (by omega)]
      simp only [Option.bind_eq_bind, Option.bind_some]
      rw [checked_eq_some (by omega) (by omega)]
      simp only [Option.bind_some]
      rw [checked_eq_some (by omega) (by omega)]
      simp only [Option.bind_some]
      rw [checked_eq_some (by omega) (by omega), trips_down hneg]
      simp only [Option.bind_some, sub_eq_add_neg]
      rfl
    · rw [if_neg hlt, trips_eq_zero_down hneg hlt]
      rfl

theorem tripCount?_of_not_fits (hb : Bounded lower upper step) (hf : ¬ CountFits lower upper step) :
    tripCount? lower upper step = none := by
  obtain ⟨hl, hu, hs, hne⟩ := hb
  unfold tripCount?
  by_cases hpos : 0 < step
  · have hbig : lower < upper ∧ 2 ^ 63 ≤ upper - lower + step := by
      by_contra hnot
      refine hf ⟨fun _ hlt => ?_, fun hneg => by omega⟩
      omega
    rw [if_pos hpos, if_pos hbig.1]
    by_cases hd : upper - lower < 2 ^ 63
    · rw [checked_eq_some (by omega) hd]
      simp only [Option.bind_eq_bind, Option.bind_some]
      rw [checked_eq_none hbig.2]
      rfl
    · rw [checked_eq_none (by omega)]
      rfl
  · have hneg : step < 0 := by omega
    have hbig : upper < lower ∧ 2 ^ 63 ≤ lower - upper - step := by
      by_contra hnot
      refine hf ⟨fun hpos' => by omega, fun _ hlt => ?_⟩
      omega
    rw [if_neg hpos, if_pos hbig.1]
    by_cases hd : lower - upper < 2 ^ 63
    · rw [checked_eq_some (by omega) hd]
      simp only [Option.bind_eq_bind, Option.bind_some]
      by_cases hm : -step < 2 ^ 63
      · rw [checked_eq_some (by omega) hm]
        simp only [Option.bind_some]
        rw [checked_eq_none (by omega)]
        rfl
      · rw [checked_eq_none (by omega)]
        rfl
    · rw [checked_eq_none (by omega)]
      rfl

/-- The loop variable stays within its bounds. -/
theorem replicaValue?_eq (hb : Bounded lower upper step) (hf : CountFits lower upper step) {k : ℕ}
    (hk : k < trips lower upper step) :
    replicaValue? lower step k = some (lower + (k : ℤ) * step) := by
  obtain ⟨hl, hu, hs, hne⟩ := hb
  have hbefore := (lt_trips_iff hne k).1 hk
  unfold replicaValue?
  by_cases hpos : 0 < step
  · rw [if_pos hpos] at hbefore
    have hnonneg : 0 ≤ (k : ℤ) * step := mul_nonneg (by omega) (by omega)
    have hfit := hf.1 hpos (by omega)
    rw [checked_eq_some (by omega) (by omega)]
    simp only [Option.bind_eq_bind, Option.bind_some]
    exact checked_eq_some (by omega) (by omega)
  · have hneg : step < 0 := by omega
    rw [if_neg hpos] at hbefore
    have hnonpos : (k : ℤ) * step ≤ 0 := mul_nonpos_of_nonneg_of_nonpos (by omega) (by omega)
    have hfit := hf.2 hneg (by omega)
    rw [checked_eq_some (by omega) (by omega)]
    simp only [Option.bind_eq_bind, Option.bind_some]
    exact checked_eq_some (by omega) (by omega)

theorem mapM_eq_some {α β : Type} {f : α → Option β} {g : α → β} {as : List α}
    (h : ∀ a ∈ as, f a = some (g a)) : as.mapM f = some (as.map g) := by
  induction as with
  | nil => rfl
  | cons a as ih =>
    rw [List.mapM_cons, h a (by simp), ih fun b hb => h b (by simp [hb])]
    rfl

/-- **The replicas are the iterations**, if the count fits. -/
theorem replicaValues?_of_fits (hb : Bounded lower upper step) (hf : CountFits lower upper step)
    (ht : trips lower upper step < 2 ^ 32) :
    replicaValues? lower upper step = some (iterations lower upper step) := by
  rw [replicaValues?, tripCount?_of_fits hb hf, Nat.mod_eq_of_lt ht]
  exact mapM_eq_some fun k hk => replicaValue?_eq hb hf (List.mem_range.1 hk)

theorem replicaValues?_of_not_fits (hb : Bounded lower upper step)
    (hf : ¬ CountFits lower upper step) : replicaValues? lower upper step = none := by
  rw [replicaValues?, tripCount?_of_not_fits hb hf]
  rfl

end Counts

/-! ## Renaming values -/

mutual

def mapValuesIn (f : Value → Value) (o : Op) : Op :=
  match o with
  | .op name attrs operands results regions =>
    .op name attrs (operands.map f) (results.map f) (mapValuesRegions f regions)
  | .generate lower upper step loopVar attrs body =>
    .generate lower upper step loopVar attrs (mapValues f body)

/-- Every value in place of which `f` has another one. -/
def mapValues (f : Value → Value) (os : List Op) : List Op :=
  match os with
  | [] => []
  | o :: os => mapValuesIn f o :: mapValues f os

def mapValuesRegions (f : Value → Value) (bs : List (List Op)) : List (List Op) :=
  match bs with
  | [] => []
  | b :: bs => mapValues f b :: mapValuesRegions f bs

end

/-- A copy renames what the body defines. -/
def renameOwned (owned : List ℕ) (k : ℕ) (v : Value) : Value :=
  if v.base ∈ owned then .copy k v else v

theorem base_renameOwned (owned : List ℕ) (k : ℕ) (v : Value) : (renameOwned owned k v).base = v.base := by
  unfold renameOwned
  split <;> rfl

/-- The mapping, when the values `visible` may be read and the body's own
bases are `owned`: it holds only values of the body, and all that are
visible. -/
structure MappingAt (owned : List ℕ) (visible mapped : List Value) : Prop where
  own : ∀ v ∈ mapped, v.base ∈ owned
  seen : ∀ v ∈ visible, v.base ∈ owned → v ∈ mapped

theorem MappingAt.lookup {owned : List ℕ} {visible mapped : List Value}
    (h : MappingAt owned visible mapped) (k : ℕ) {v : Value} (hv : v ∈ visible) :
    Ssa.lookup k mapped v = renameOwned owned k v := by
  unfold Ssa.lookup renameOwned
  by_cases hb : v.base ∈ owned
  · rw [if_pos (h.seen v hv hb), if_pos hb]
  · rw [if_neg fun hm => hb (h.own v hm), if_neg hb]

/-- More values of the body may be mapped. -/
theorem MappingAt.append {owned : List ℕ} {visible mapped vs : List Value}
    (h : MappingAt owned visible mapped) (hvs : ∀ v ∈ vs, v.base ∈ owned) :
    MappingAt owned visible (mapped ++ vs) where
  own := fun v hv => (List.mem_append.1 hv).elim (h.own v) (hvs v)
  seen := fun v hv hb => List.mem_append_left _ (h.seen v hv hb)

theorem mem_defined_of_results {o : Op} {v : Value} (h : v ∈ o.results) : v ∈ definedIn o := by
  cases o with
  | op name attrs operands results regions => exact List.mem_append_left _ h
  | generate lower upper step loopVar attrs body => cases h

theorem mem_defined_of_flatMap {os : List Op} {v : Value} (h : v ∈ os.flatMap Op.results) :
    v ∈ defined os := by
  induction os with
  | nil => cases h
  | cons o os ih =>
    rw [List.flatMap_cons] at h
    rcases List.mem_append.1 h with h | h
    · exact List.mem_append_left _ (mem_defined_of_results h)
    · exact List.mem_append_right _ (ih h)

section Clone

variable {owned : List ℕ} (k : ℕ)

mutual

/-- Cloning an op goes on with a mapping in which its results are. -/
theorem cloneOp_eq {visible mapped : List Value} (o : Op) (hm : MappingAt owned visible mapped)
    (hd : DominatedIn visible o) (ho : ∀ v ∈ definedIn o, v.base ∈ owned) :
    (cloneOp k mapped o).1 = mapValuesIn (renameOwned owned k) o ∧
      MappingAt owned (visible ++ o.results) (cloneOp k mapped o).2 := by
  cases o with
  | op name attrs operands results regions =>
    obtain ⟨hops, hregions⟩ := hd
    have hresults : ∀ v ∈ results, v.base ∈ owned := fun v hv => ho v (List.mem_append_left _ hv)
    obtain ⟨heq, hnext⟩ := cloneRegions_eq regions hm hregions
      (fun v hv => ho v (List.mem_append_right _ hv))
    refine ⟨?_, ?_⟩
    · have hoperands : operands.map (lookup k mapped) = operands.map (renameOwned owned k) :=
        List.map_congr_left fun v hv => hm.lookup k (hops v hv)
      have hcopies : results.map (.copy k) = results.map (renameOwned owned k) :=
        List.map_congr_left fun v hv => (if_pos (hresults v hv)).symm
      rw [cloneOp, mapValuesIn, hoperands, hcopies, heq]
    · refine ⟨(hnext.append hresults).own, fun v hv hb => ?_⟩
      rcases List.mem_append.1 hv with hv | hv
      · exact List.mem_append_left _ (hnext.seen v hv hb)
      · exact List.mem_append_right _ hv
  | generate lower upper step loopVar attrs body =>
    have hpre := hm.append (fun v hv => ho v (mem_defined_of_flatMap hv))
    obtain ⟨heq, hnext⟩ := cloneOps_eq body hpre hd ho
    refine ⟨by rw [cloneOp, mapValuesIn, heq], hnext.own, fun v hv hb => ?_⟩
    rw [Op.results, List.append_nil] at hv
    exact hnext.seen v hv hb

theorem cloneOps_eq {visible mapped : List Value} (os : List Op) (hm : MappingAt owned visible mapped)
    (hd : Dominated visible os) (ho : ∀ v ∈ defined os, v.base ∈ owned) :
    (cloneOps k mapped os).1 = mapValues (renameOwned owned k) os ∧
      MappingAt owned visible (cloneOps k mapped os).2 := by
  cases os with
  | nil => exact ⟨rfl, hm⟩
  | cons o os =>
    obtain ⟨heq, hnext⟩ := cloneOp_eq o hm hd.1 (fun v hv => ho v (List.mem_append_left _ hv))
    obtain ⟨heq', hnext'⟩ := cloneOps_eq os hnext hd.2 (fun v hv => ho v (List.mem_append_right _ hv))
    refine ⟨by rw [cloneOps, mapValues, heq, heq'], hnext'.own, fun v hv hb => ?_⟩
    exact hnext'.seen v (List.mem_append_left _ hv) hb

theorem cloneRegions_eq {visible mapped : List Value} (bs : List (List Op))
    (hm : MappingAt owned visible mapped) (hd : DominatedRegions visible bs)
    (ho : ∀ v ∈ definedRegions bs, v.base ∈ owned) :
    (cloneRegions k mapped bs).1 = mapValuesRegions (renameOwned owned k) bs ∧
      MappingAt owned visible (cloneRegions k mapped bs).2 := by
  cases bs with
  | nil => exact ⟨rfl, hm⟩
  | cons b bs =>
    have hb : ∀ v ∈ defined b, v.base ∈ owned := fun v hv => ho v (List.mem_append_left _ hv)
    obtain ⟨heq, hnext⟩ := cloneOps_eq b (hm.append fun v hv => hb v (mem_defined_of_flatMap hv)) hd.1 hb
    obtain ⟨heq', hnext'⟩ := cloneRegions_eq bs hnext hd.2 (fun v hv => ho v (List.mem_append_right _ hv))
    exact ⟨by rw [cloneRegions, mapValuesRegions, heq, heq'], hnext'⟩

end

end Clone

/-! ## What a frame does to ops -/

namespace Frame

/-- A copy in the frame: values renamed, then the loop variable
substituted. -/
def apply (fr : Frame) (os : List Op) : List Op :=
  substituteOps fr.loopVar (toDecimal fr.value) (mapValues fr.rename os)

end Frame

theorem mapValues_append (f : Value → Value) (os os' : List Op) :
    mapValues f (os ++ os') = mapValues f os ++ mapValues f os' := by
  induction os with
  | nil => rfl
  | cons o os ih => rw [List.cons_append, mapValues, ih, mapValues, List.cons_append]

theorem substituteOps_append (v r : Text) (os os' : List Op) :
    substituteOps v r (os ++ os') = substituteOps v r os ++ substituteOps v r os' := by
  induction os with
  | nil => rfl
  | cons o os ih => rw [List.cons_append, substituteOps, ih, substituteOps, List.cons_append]

theorem inFrames_append (frames : List Frame) (os os' : List Op) :
    inFrames Frame.apply frames (os ++ os') =
      inFrames Frame.apply frames os ++ inFrames Frame.apply frames os' := by
  induction frames generalizing os os' with
  | nil => rfl
  | cons fr frames ih =>
    show inFrames Frame.apply frames (fr.apply (os ++ os')) = _
    rw [Frame.apply, mapValues_append, substituteOps_append]
    exact ih _ _

theorem inFrames_nil (frames : List Frame) : inFrames Frame.apply frames ([] : List Op) = [] := by
  induction frames with
  | nil => rfl
  | cons fr frames ih => exact ih

theorem inFrames_flatMap {β : Type} (frames : List Frame) (ks : List β) (f : β → List Op) :
    inFrames Frame.apply frames (ks.flatMap f) =
      ks.flatMap fun b => inFrames Frame.apply frames (f b) := by
  induction ks with
  | nil => exact inFrames_nil frames
  | cons b ks ih => rw [List.flatMap_cons, List.flatMap_cons, inFrames_append, ih]

theorem applyRegions_eq (fr : Frame) (bs : List (List Op)) :
    substituteRegions fr.loopVar (toDecimal fr.value) (mapValuesRegions fr.rename bs) =
      bs.map fr.apply := by
  induction bs with
  | nil => rfl
  | cons b bs ih => rw [mapValuesRegions, substituteRegions, ih, List.map_cons, Frame.apply]

/-- On an op the frames act part by part. -/
theorem inFrames_op (frames : List Frame) (name : Text) (attrs : List (Text × Attr))
    (operands results : List Value) (regions : List (List Op)) :
    inFrames Frame.apply frames [.op name attrs operands results regions] =
      [.op name (inFrames Frame.attrs frames attrs) (operands.map (inFrames Frame.rename frames))
        (results.map (inFrames Frame.rename frames))
        (regions.map (inFrames Frame.apply frames))] := by
  induction frames generalizing attrs operands results regions with
  | nil =>
    have hid : ∀ {α : Type} (f : Frame → α → α), inFrames f [] = id := fun f => rfl
    simp only [hid, List.map_id, id]
  | cons fr frames ih =>
    show inFrames Frame.apply frames (fr.apply [.op name attrs operands results regions]) = _
    have hone : fr.apply [.op name attrs operands results regions] =
        [.op name (fr.attrs attrs) (operands.map fr.rename) (results.map fr.rename)
          (regions.map fr.apply)] := by
      rw [Frame.apply, mapValues, mapValues, mapValuesIn, substituteOps, substituteOps, substituteOp,
        applyRegions_eq]
      rfl
    rw [hone, ih]
    simp only [List.map_map]
    rfl

/-! ## Visibility -/

theorem dominated_append {visible : List Value} {os os' : List Op} :
    Dominated visible (os ++ os') ↔
      Dominated visible os ∧ Dominated (visible ++ os.flatMap Op.results) os' := by
  induction os generalizing visible with
  | nil => simp [Dominated]
  | cons o os ih => simp only [List.cons_append, Dominated, ih, List.flatMap_cons, and_assoc,
      List.append_assoc]

mutual

/-- More may be visible. -/
theorem dominatedIn_mono {visible visible' : List Value} (h : visible ⊆ visible') (o : Op)
    (hd : DominatedIn visible o) : DominatedIn visible' o := by
  cases o with
  | op name attrs operands results regions =>
    exact ⟨fun v hv => h (hd.1 v hv), dominatedRegions_mono h regions hd.2⟩
  | generate lower upper step loopVar attrs body => exact dominated_mono h body hd

theorem dominated_mono {visible visible' : List Value} (h : visible ⊆ visible') (os : List Op)
    (hd : Dominated visible os) : Dominated visible' os := by
  cases os with
  | nil => trivial
  | cons o os =>
    refine ⟨dominatedIn_mono h o hd.1, dominated_mono ?_ os hd.2⟩
    exact List.append_subset.2 ⟨fun v hv => List.mem_append_left _ (h hv), List.subset_append_right _ _⟩

theorem dominatedRegions_mono {visible visible' : List Value} (h : visible ⊆ visible')
    (bs : List (List Op)) (hd : DominatedRegions visible bs) : DominatedRegions visible' bs := by
  cases bs with
  | nil => trivial
  | cons b bs => exact ⟨dominated_mono h b hd.1, dominatedRegions_mono h bs hd.2⟩

end

theorem results_mapValuesIn (f : Value → Value) (o : Op) :
    (mapValuesIn f o).results = o.results.map f := by
  cases o <;> rfl

mutual

theorem dominatedIn_mapValues (f : Value → Value) {visible : List Value} (o : Op)
    (hd : DominatedIn visible o) : DominatedIn (visible.map f) (mapValuesIn f o) := by
  cases o with
  | op name attrs operands results regions =>
    refine ⟨fun v hv => ?_, dominatedRegions_mapValues f regions hd.2⟩
    obtain ⟨u, hu, rfl⟩ := List.mem_map.1 hv
    exact List.mem_map_of_mem (hd.1 u hu)
  | generate lower upper step loopVar attrs body => exact dominated_mapValues f body hd

theorem dominated_mapValues (f : Value → Value) {visible : List Value} (os : List Op)
    (hd : Dominated visible os) : Dominated (visible.map f) (mapValues f os) := by
  cases os with
  | nil => trivial
  | cons o os =>
    refine ⟨dominatedIn_mapValues f o hd.1, ?_⟩
    rw [results_mapValuesIn, ← List.map_append]
    exact dominated_mapValues f os hd.2

theorem dominatedRegions_mapValues (f : Value → Value) {visible : List Value} (bs : List (List Op))
    (hd : DominatedRegions visible bs) :
    DominatedRegions (visible.map f) (mapValuesRegions f bs) := by
  cases bs with
  | nil => trivial
  | cons b bs => exact ⟨dominated_mapValues f b hd.1, dominatedRegions_mapValues f bs hd.2⟩

end

theorem results_substituteOp (v r : Text) (o : Op) : (substituteOp v r o).results = o.results := by
  cases o <;> rfl

mutual

/-- Substitution leaves the values. -/
theorem dominatedIn_substitute (v r : Text) {visible : List Value} (o : Op)
    (hd : DominatedIn visible o) : DominatedIn visible (substituteOp v r o) := by
  cases o with
  | op name attrs operands results regions =>
    exact ⟨hd.1, dominatedRegions_substitute v r regions hd.2⟩
  | generate lower upper step loopVar attrs body => exact dominated_substitute v r body hd

theorem dominated_substitute (v r : Text) {visible : List Value} (os : List Op)
    (hd : Dominated visible os) : Dominated visible (substituteOps v r os) := by
  cases os with
  | nil => trivial
  | cons o os =>
    refine ⟨dominatedIn_substitute v r o hd.1, ?_⟩
    rw [results_substituteOp]
    exact dominated_substitute v r os hd.2

theorem dominatedRegions_substitute (v r : Text) {visible : List Value} (bs : List (List Op))
    (hd : DominatedRegions visible bs) : DominatedRegions visible (substituteRegions v r bs) := by
  cases bs with
  | nil => trivial
  | cons b bs => exact ⟨dominated_substitute v r b hd.1, dominatedRegions_substitute v r bs hd.2⟩

end

mutual

theorem definedIn_mapValues (f : Value → Value) (o : Op) :
    definedIn (mapValuesIn f o) = (definedIn o).map f := by
  cases o with
  | op name attrs operands results regions =>
    simp only [mapValuesIn, definedIn, List.map_append, definedRegions_mapValues f regions]
  | generate lower upper step loopVar attrs body => exact defined_mapValues f body

theorem defined_mapValues (f : Value → Value) (os : List Op) :
    defined (mapValues f os) = (defined os).map f := by
  cases os with
  | nil => rfl
  | cons o os =>
    simp only [mapValues, defined, List.map_append, definedIn_mapValues f o, defined_mapValues f os]

theorem definedRegions_mapValues (f : Value → Value) (bs : List (List Op)) :
    definedRegions (mapValuesRegions f bs) = (definedRegions bs).map f := by
  cases bs with
  | nil => rfl
  | cons b bs =>
    simp only [mapValuesRegions, definedRegions, List.map_append, defined_mapValues f b,
      definedRegions_mapValues f bs]

end

mutual

theorem definedIn_substitute (v r : Text) (o : Op) : definedIn (substituteOp v r o) = definedIn o := by
  cases o with
  | op name attrs operands results regions =>
    simp only [substituteOp, definedIn, definedRegions_substitute v r regions]
  | generate lower upper step loopVar attrs body => exact defined_substitute v r body

theorem defined_substitute (v r : Text) (os : List Op) :
    defined (substituteOps v r os) = defined os := by
  cases os with
  | nil => rfl
  | cons o os =>
    simp only [substituteOps, defined, definedIn_substitute v r o, defined_substitute v r os]

theorem definedRegions_substitute (v r : Text) (bs : List (List Op)) :
    definedRegions (substituteRegions v r bs) = definedRegions bs := by
  cases bs with
  | nil => rfl
  | cons b bs =>
    simp only [substituteRegions, definedRegions, defined_substitute v r b,
      definedRegions_substitute v r bs]

end

theorem defined_append (os os' : List Op) : defined (os ++ os') = defined os ++ defined os' := by
  induction os with
  | nil => rfl
  | cons o os ih => rw [List.cons_append, defined, ih, defined, List.append_assoc]

theorem dominated_flatMap {β : Type} {visible : List Value} {ks : List β} {f : β → List Op}
    (h : ∀ k ∈ ks, Dominated visible (f k)) : Dominated visible (ks.flatMap f) := by
  induction ks with
  | nil => trivial
  | cons k ks ih =>
    rw [List.flatMap_cons, dominated_append]
    refine ⟨h k List.mem_cons_self, dominated_mono (List.subset_append_left _ _) _ ?_⟩
    exact ih fun k hk => h k (List.mem_cons_of_mem _ hk)

/-! ## The full expansion is the reference -/

/-- No visible value is one of those. -/
def Apart (visible vs : List Value) : Prop := ∀ v ∈ visible, v.base ∉ vs.map Value.base

/-- What comes out of `os`, whose bases are distinct and apart from the
visible ones. -/
structure Unrolled (visible : List Value) (os os' : List Op) : Prop where
  dominated : Dominated visible os'
  owned : ∀ v ∈ defined os', v.base ∈ (defined os).map Value.base
  nodup : (defined os').Nodup
  results : os.flatMap Op.results ⊆ os'.flatMap Op.results
  unroll : ∀ frames, unroll frames os = inFrames Frame.apply frames os'

structure UnrolledRegions (visible : List Value) (bs bs' : List (List Op)) : Prop where
  dominated : DominatedRegions visible bs'
  owned : ∀ v ∈ definedRegions bs', v.base ∈ (definedRegions bs).map Value.base
  nodup : (definedRegions bs').Nodup
  unroll : ∀ frames, unrollRegions frames bs = bs'.map (inFrames Frame.apply frames)

/-- Bounds and trip count of a generate. -/
def Ready (lower upper step : ℤ) : Prop :=
  Bounded lower upper step ∧ trips lower upper step < 2 ^ 32

/-- **A replica is a frame's copy** of a body in which values are visible
where they are read. -/
theorem replica_eq_apply {visible : List Value} {body : List Op} {owned : List ℕ}
    (hd : Dominated visible body) (ha : ∀ v ∈ visible, v.base ∉ owned)
    (ho : ∀ v ∈ defined body, v.base ∈ owned) (loopVar : Option Text) (value : ℤ) (k : ℕ) :
    replica loopVar body value k = Frame.apply ⟨loopVar.getD [], value, k, owned⟩ body := by
  have hm : MappingAt owned visible [] :=
    ⟨fun v hv => (nomatch hv), fun v hv hb => absurd hb (ha v hv)⟩
  rw [replica, (cloneOps_eq k body hm hd ho).1]
  rfl

theorem dominated_apply {visible : List Value} {body : List Op} {fr : Frame}
    (hd : Dominated visible body) (ha : ∀ v ∈ visible, v.base ∉ fr.owned) :
    Dominated visible (fr.apply body) := by
  have hfix : visible.map fr.rename = visible :=
    (List.map_congr_left fun v hv => if_neg (ha v hv)).trans (List.map_id visible)
  have hmap := dominated_mapValues fr.rename body hd
  rw [hfix] at hmap
  exact dominated_substitute _ _ _ hmap

theorem defined_flatMap {β : Type} (ks : List β) (f : β → List Op) :
    defined (ks.flatMap f) = ks.flatMap fun k => defined (f k) := by
  induction ks with
  | nil => rfl
  | cons k ks ih => rw [List.flatMap_cons, defined_append, ih, List.flatMap_cons]

theorem defined_apply (fr : Frame) (body : List Op) :
    defined (fr.apply body) = (defined body).map fr.rename := by
  rw [Frame.apply, defined_substitute, defined_mapValues]

/-- Copies in different replicas define different values. -/
theorem nodup_replicas {owned : List ℕ} {body : List Op} (loopVar : Text) (values : List ℤ)
    (ho : ∀ v ∈ defined body, v.base ∈ owned) (hn : (defined body).Nodup) :
    (defined (values.zipIdx.flatMap fun p =>
      Frame.apply ⟨loopVar, p.1, p.2, owned⟩ body)).Nodup := by
  have hcopy : ∀ p : ℤ × ℕ, defined (Frame.apply ⟨loopVar, p.1, p.2, owned⟩ body) =
      (defined body).map (Value.copy p.2) := by
    intro p
    rw [defined_apply]
    exact List.map_congr_left fun v hv => if_pos (ho v hv)
  rw [defined_flatMap, List.nodup_flatMap]
  refine ⟨fun p _ => ?_, ?_⟩
  · rw [hcopy p]
    exact hn.map fun u v h => (Value.copy.inj h).2
  · have hnum : values.zipIdx.Pairwise fun p q => p.2 ≠ q.2 := by
      rw [← List.pairwise_map (f := Prod.snd), List.zipIdx_map_snd]
      exact List.nodup_range'
    refine hnum.imp fun {p q} hne => ?_
    show List.Disjoint (defined _) (defined _)
    rw [hcopy p, hcopy q]
    intro v hp hq
    obtain ⟨u, -, rfl⟩ := List.mem_map.1 hp
    obtain ⟨u', -, heq⟩ := List.mem_map.1 hq
    exact hne (Value.copy.inj heq).1.symm

theorem unrolled_generate {visible : List Value} {lower upper step : ℤ} {loopVar : Option Text}
    {attrs : List (Text × Attr)} {body body' os' : List Op} (hr : Ready lower upper step)
    (ha : Apart visible (defined body)) (hb : Unrolled visible body body')
    (he : expandOne lower upper step loopVar body' = some os') :
    Unrolled visible [.generate lower upper step loopVar attrs body] os' := by
  obtain ⟨values, hvalues, rfl⟩ := Option.map_eq_some_iff.1 he
  have hiter : values = iterations lower upper step := by
    by_cases hf : CountFits lower upper step
    · rw [replicaValues?_of_fits hr.1 hf hr.2] at hvalues
      exact (Option.some.inj hvalues).symm
    · rw [replicaValues?_of_not_fits hr.1 hf] at hvalues
      cases hvalues
  have hcopy : ∀ p : ℤ × ℕ, replica loopVar body' p.1 p.2 =
      Frame.apply ⟨loopVar.getD [], p.1, p.2, (defined body).map Value.base⟩ body' := fun p =>
    replica_eq_apply hb.dominated ha hb.owned loopVar p.1 p.2
  simp only [hcopy]
  refine ⟨?_, ?_, nodup_replicas _ _ hb.owned hb.nodup, ?_, ?_⟩
  · exact dominated_flatMap fun p _ => dominated_apply hb.dominated ha
  · intro v hv
    rw [defined_flatMap] at hv
    obtain ⟨p, -, hv⟩ := List.mem_flatMap.1 hv
    rw [defined_apply] at hv
    obtain ⟨u, hu, rfl⟩ := List.mem_map.1 hv
    have hbase := hb.owned u hu
    simp only [defined, definedIn, List.append_nil]
    rw [show (Frame.rename _ u).base = u.base from base_renameOwned _ _ u]
    exact hbase
  · simp [Op.results]
  · intro frames
    simp only [Ssa.unroll, unrollOp, List.append_nil, inFrames_flatMap, hiter]
    congr 1
    funext p
    exact hb.unroll _

mutual

theorem expandAllIn_spec {visible : List Value} (o : Op) (hd : DominatedIn visible o)
    (hn : ((definedIn o).map Value.base).Nodup) (ha : Apart visible (definedIn o))
    (hr : ForGeneratesIn Ready o) {os' : List Op} (he : expandAllIn o = some os') :
    Unrolled visible [o] os' := by
  cases o with
  | op name attrs operands results regions =>
    obtain ⟨bs, hbs, rfl⟩ := Option.map_eq_some_iff.1 he
    rw [definedIn, List.map_append, List.nodup_append] at hn
    have happ : Apart visible (definedRegions regions) := fun v hv hmem => by
      refine ha v hv ?_
      rw [definedIn, List.map_append]
      exact List.mem_append_right _ hmem
    have hreg := expandAllRegions_spec regions hd.2 hn.2.1 happ hr hbs
    refine ⟨⟨⟨hd.1, hreg.dominated⟩, trivial⟩, fun v hv => ?_, ?_, by simp [Op.results],
      fun frames => ?_⟩
    · simp only [defined, definedIn, List.append_nil, List.map_append] at hv ⊢
      rcases List.mem_append.1 hv with hv | hv
      · exact List.mem_append_left _ (List.mem_map_of_mem hv)
      · exact List.mem_append_right _ (hreg.owned v hv)
    · simp only [defined, definedIn, List.append_nil]
      refine List.nodup_append.2 ⟨List.Nodup.of_map _ hn.1, hreg.nodup, ?_⟩
      rintro v hv _ hv' rfl
      exact hn.2.2 _ (List.mem_map_of_mem hv) _ (hreg.owned v hv') rfl
    · rw [inFrames_op]
      simp only [unroll, unrollOp, hreg.unroll frames, List.append_nil]
  | generate lower upper step loopVar attrs body =>
    obtain ⟨body', hbody, he⟩ := Option.bind_eq_some_iff.1 he
    exact unrolled_generate hr.1 ha (expandAll_spec body hd hn ha hr.2 hbody) he

theorem expandAll_spec {visible : List Value} (os : List Op) (hd : Dominated visible os)
    (hn : ((defined os).map Value.base).Nodup) (ha : Apart visible (defined os))
    (hr : ForGenerates Ready os) {os' : List Op} (he : expandAll os = some os') :
    Unrolled visible os os' := by
  cases os with
  | nil =>
    obtain rfl := Option.some.inj he
    exact ⟨trivial, fun v hv => (nomatch hv), List.nodup_nil, List.Subset.refl _,
      fun frames => (inFrames_nil frames).symm⟩
  | cons o os =>
    obtain ⟨head, hhead, he⟩ := Option.bind_eq_some_iff.1 he
    obtain ⟨tail, htail, rfl⟩ := Option.map_eq_some_iff.1 he
    simp only [defined, List.map_append] at hn ha ⊢
    obtain ⟨hn₁, hn₂, hdisj⟩ := List.nodup_append.1 hn
    have ha₁ : Apart visible (definedIn o) := fun v hv hmem => by
      refine ha v hv ?_
      rw [List.map_append]
      exact List.mem_append_left _ hmem
    have ha₂ : Apart (visible ++ o.results) (defined os) := fun v hv hmem => by
      rcases List.mem_append.1 hv with hv | hv
      · refine ha v hv ?_
        rw [List.map_append]
        exact List.mem_append_right _ hmem
      · exact hdisj _ (List.mem_map_of_mem (mem_defined_of_results hv)) _ hmem rfl
    have h₁ := expandAllIn_spec o hd.1 hn₁ ha₁ hr.1 hhead
    have h₂ := expandAll_spec os hd.2 hn₂ ha₂ hr.2 htail
    have hown₁ : ∀ v ∈ defined head, v.base ∈ (definedIn o).map Value.base := by
      simpa [defined] using h₁.owned
    refine ⟨dominated_append.2 ⟨h₁.dominated, ?_⟩, fun v hv => ?_, ?_, ?_, fun frames => ?_⟩
    · refine dominated_mono ?_ tail h₂.dominated
      refine List.append_subset.2 ⟨List.subset_append_left _ _, fun v hv => ?_⟩
      refine List.mem_append_right _ (h₁.results ?_)
      simpa using hv
    · rw [defined_append] at hv
      rw [defined, List.map_append]
      rcases List.mem_append.1 hv with hv | hv
      · exact List.mem_append_left _ (hown₁ v hv)
      · exact List.mem_append_right _ (h₂.owned v hv)
    · rw [defined_append]
      refine List.nodup_append.2 ⟨h₁.nodup, h₂.nodup, ?_⟩
      rintro v hv _ hv' rfl
      exact hdisj _ (hown₁ v hv) _ (h₂.owned v hv') rfl
    · rw [List.flatMap_cons, List.flatMap_append]
      refine List.append_subset.2 ⟨fun v hv => List.mem_append_left _ (h₁.results ?_), fun v hv => ?_⟩
      · simpa using hv
      · exact List.mem_append_right _ (h₂.results hv)
    · have hone := h₁.unroll frames
      rw [unroll, unroll, List.append_nil] at hone
      rw [unroll, inFrames_append, hone, h₂.unroll frames]

theorem expandAllRegions_spec {visible : List Value} (bs : List (List Op))
    (hd : DominatedRegions visible bs) (hn : ((definedRegions bs).map Value.base).Nodup)
    (ha : Apart visible (definedRegions bs)) (hr : ForGeneratesRegions Ready bs)
    {bs' : List (List Op)} (he : expandAllRegions bs = some bs') :
    UnrolledRegions visible bs bs' := by
  cases bs with
  | nil =>
    obtain rfl := Option.some.inj he
    exact ⟨trivial, fun v hv => (nomatch hv), List.nodup_nil, fun frames => rfl⟩
  | cons b bs =>
    obtain ⟨head, hhead, he⟩ := Option.bind_eq_some_iff.1 he
    obtain ⟨tail, htail, rfl⟩ := Option.map_eq_some_iff.1 he
    simp only [definedRegions, List.map_append] at hn ha
    obtain ⟨hn₁, hn₂, hdisj⟩ := List.nodup_append.1 hn
    have ha₁ : Apart visible (defined b) := fun v hv hmem => by
      refine ha v hv ?_
      rw [List.map_append]
      exact List.mem_append_left _ hmem
    have ha₂ : Apart visible (definedRegions bs) := fun v hv hmem => by
      refine ha v hv ?_
      rw [List.map_append]
      exact List.mem_append_right _ hmem
    have h₁ := expandAll_spec b hd.1 hn₁ ha₁ hr.1 hhead
    have h₂ := expandAllRegions_spec bs hd.2 hn₂ ha₂ hr.2 htail
    refine ⟨⟨h₁.dominated, h₂.dominated⟩, fun v hv => ?_, ?_, fun frames => ?_⟩
    · rw [definedRegions] at hv ⊢
      rw [List.map_append]
      rcases List.mem_append.1 hv with hv | hv
      · exact List.mem_append_left _ (h₁.owned v hv)
      · exact List.mem_append_right _ (h₂.owned v hv)
    · rw [definedRegions]
      refine List.nodup_append.2 ⟨h₁.nodup, h₂.nodup, ?_⟩
      rintro v hv _ hv' rfl
      exact hdisj _ (h₁.owned v hv) _ (h₂.owned v hv') rfl
    · rw [unrollRegions, h₁.unroll frames, h₂.unroll frames, List.map_cons]

end

/-! ## When the expansion is defined -/

mutual

theorem forGeneratesIn_mono {Q : ℤ → ℤ → ℤ → Prop} (h : ∀ l u s, P l u s → Q l u s) (o : Op)
    (hp : ForGeneratesIn P o) : ForGeneratesIn Q o := by
  cases o with
  | op name attrs operands results regions => exact forGeneratesRegions_mono h regions hp
  | generate lower upper step loopVar attrs body =>
    exact ⟨h _ _ _ hp.1, forGenerates_mono h body hp.2⟩

theorem forGenerates_mono {Q : ℤ → ℤ → ℤ → Prop} (h : ∀ l u s, P l u s → Q l u s) (os : List Op)
    (hp : ForGenerates P os) : ForGenerates Q os := by
  cases os with
  | nil => trivial
  | cons o os => exact ⟨forGeneratesIn_mono h o hp.1, forGenerates_mono h os hp.2⟩

theorem forGeneratesRegions_mono {Q : ℤ → ℤ → ℤ → Prop} (h : ∀ l u s, P l u s → Q l u s)
    (bs : List (List Op)) (hp : ForGeneratesRegions P bs) : ForGeneratesRegions Q bs := by
  cases bs with
  | nil => trivial
  | cons b bs => exact ⟨forGenerates_mono h b hp.1, forGeneratesRegions_mono h bs hp.2⟩

end

mutual

theorem forGeneratesIn_and {Q : ℤ → ℤ → ℤ → Prop} (o : Op) (hp : ForGeneratesIn P o)
    (hq : ForGeneratesIn Q o) : ForGeneratesIn (fun l u s => P l u s ∧ Q l u s) o := by
  cases o with
  | op name attrs operands results regions => exact forGeneratesRegions_and regions hp hq
  | generate lower upper step loopVar attrs body =>
    exact ⟨⟨hp.1, hq.1⟩, forGenerates_and body hp.2 hq.2⟩

theorem forGenerates_and {Q : ℤ → ℤ → ℤ → Prop} (os : List Op) (hp : ForGenerates P os)
    (hq : ForGenerates Q os) : ForGenerates (fun l u s => P l u s ∧ Q l u s) os := by
  cases os with
  | nil => trivial
  | cons o os => exact ⟨forGeneratesIn_and o hp.1 hq.1, forGenerates_and os hp.2 hq.2⟩

theorem forGeneratesRegions_and {Q : ℤ → ℤ → ℤ → Prop} (bs : List (List Op))
    (hp : ForGeneratesRegions P bs) (hq : ForGeneratesRegions Q bs) :
    ForGeneratesRegions (fun l u s => P l u s ∧ Q l u s) bs := by
  cases bs with
  | nil => trivial
  | cons b bs => exact ⟨forGenerates_and b hp.1 hq.1, forGeneratesRegions_and bs hp.2 hq.2⟩

end

mutual

/-- Every generate is counted, also one in a body that gets no copy. -/
theorem expandAllIn_isSome (o : Op) (hr : ForGeneratesIn Ready o) :
    (expandAllIn o).isSome ↔ ForGeneratesIn CountFits o := by
  cases o with
  | op name attrs operands results regions =>
    rw [expandAllIn, Option.isSome_map]
    exact expandAllRegions_isSome regions hr
  | generate lower upper step loopVar attrs body =>
    have hbody := expandAll_isSome body hr.2
    rw [expandAllIn, ForGeneratesIn, ← hbody]
    cases expandAll body with
    | none => simp
    | some body' =>
      simp only [Option.bind_some, Option.isSome_some, and_true]
      rw [expandOne, Option.isSome_map]
      by_cases hf : CountFits lower upper step
      · rw [replicaValues?_of_fits hr.1.1 hf hr.1.2]
        simp [hf]
      · rw [replicaValues?_of_not_fits hr.1.1 hf]
        simp [hf]

theorem expandAll_isSome (os : List Op) (hr : ForGenerates Ready os) :
    (expandAll os).isSome ↔ ForGenerates CountFits os := by
  cases os with
  | nil => exact iff_of_true rfl trivial
  | cons o os =>
    rw [expandAll, ForGenerates, ← expandAllIn_isSome o hr.1, ← expandAll_isSome os hr.2]
    cases expandAllIn o <;> cases expandAll os <;> simp

theorem expandAllRegions_isSome (bs : List (List Op)) (hr : ForGeneratesRegions Ready bs) :
    (expandAllRegions bs).isSome ↔ ForGeneratesRegions CountFits bs := by
  cases bs with
  | nil => exact iff_of_true rfl trivial
  | cons b bs =>
    rw [expandAllRegions, ForGeneratesRegions, ← expandAll_isSome b hr.1,
      ← expandAllRegions_isSome bs hr.2]
    cases expandAll b <;> cases expandAllRegions bs <;> simp

end

mutual

/-- The reference has no generates. -/
theorem generates_unrollOp (frames : List Frame) (o : Op) : generates (unrollOp frames o) = 0 := by
  cases o with
  | op name attrs operands results regions =>
    simp only [unrollOp, generates, generatesIn, generatesRegions_unroll frames regions]
  | generate lower upper step loopVar attrs body =>
    exact generates_flatMap_eq_zero fun p _ => generates_unroll _ body

theorem generates_unroll (frames : List Frame) (os : List Op) : generates (unroll frames os) = 0 := by
  cases os with
  | nil => rfl
  | cons o os =>
    rw [unroll, generates_append, generates_unrollOp frames o, generates_unroll frames os]

theorem generatesRegions_unroll (frames : List Frame) (bs : List (List Op)) :
    generatesRegions (unrollRegions frames bs) = 0 := by
  cases bs with
  | nil => rfl
  | cons b bs =>
    rw [unrollRegions, generatesRegions, generates_unroll frames b, generatesRegions_unroll frames bs]

end

/-! ## Verified modules -/

section Verified

variable {os : List Op}

theorem Verified.nodup_base (hv : Verified os) : ((defined os).map Value.base).Nodup := by
  refine hv.nodup.map_on fun u hu v hw heq => ?_
  obtain ⟨m, rfl⟩ := hv.source u hu
  obtain ⟨n, rfl⟩ := hv.source v hw
  exact congrArg Value.source heq

theorem Verified.unrolled (hv : Verified os)
    (ht : ForGenerates (fun lower upper step => trips lower upper step < 2 ^ 32) os)
    {os' : List Op} (he : expandAll os = some os') : Unrolled [] os os' :=
  expandAll_spec os hv.dominated hv.nodup_base (fun _ hv => nomatch hv)
    (forGenerates_and os hv.bounded ht) he

/-- The reference is well formed: every value is defined once, and before
it is read. -/
theorem Verified.unroll (hv : Verified os)
    (ht : ForGenerates (fun lower upper step => trips lower upper step < 2 ^ 32) os)
    (hf : ForGenerates CountFits os) :
    Dominated [] (Ssa.unroll [] os) ∧ (defined (Ssa.unroll [] os)).Nodup := by
  have hsome := (expandAll_isSome os (forGenerates_and os hv.bounded ht)).2 hf
  obtain ⟨os', he⟩ := Option.isSome_iff_exists.1 hsome
  have hu := hv.unrolled ht he
  rw [hu.unroll []]
  exact ⟨hu.dominated, hu.nodup⟩

/-- **Expansion is full unrolling**, exactly where no count leaves 64
bits. -/
theorem expandGenerate_iff (hv : Verified os) (hn : generates os < 65535)
    (ht : ForGenerates (fun lower upper step => trips lower upper step < 2 ^ 32) os) :
    Unrolls os ↔ ForGenerates CountFits os := by
  have hready := forGenerates_and os hv.bounded ht
  have hsteps : ForGenerates Steps os := forGenerates_mono (fun _ _ _ h => h.2.2.2) os hv.bounded
  have hloop : expandGenerate os = _ := expandLoop_eq hsteps hn
  rw [← expandAll_isSome os hready, Unrolls, hloop]
  cases he : expandAll os with
  | none => simp
  | some os' =>
    have hu := hv.unrolled ht he
    have heq : Ssa.unroll [] os = os' := hu.unroll []
    have hzero := generates_unroll [] os
    simp only [Option.isSome_some, heq, true_and, iff_true]
    rwa [heq] at hzero

end Verified

/-! ## Shadowed loop variables -/

theorem substituteLoopVar_of_not_occurs {w r t : Text} (h : ¬ splices.Occurs w t) :
    substituteLoopVar w r t = t := by
  unfold substituteLoopVar
  split
  · rfl
  · induction t with
    | nil => rfl
    | cons c t ih =>
      have hopens : ¬ splices.Opens w (c :: t) := fun ho => h ⟨_, List.suffix_refl _, ho⟩
      rw [Placeholders.replace_cons hopens, ih fun ho => h (Placeholders.occurs_cons_of_occurs ho)]

/-- In `%v%` no other variable has a splice. -/
theorem not_occurs_splice {v w : Text} (hv : '%' ∉ v) (hne : w ≠ v) :
    ¬ splices.Occurs w ('%' :: (v ++ ['%'])) := by
  rintro ⟨s, hs, b, rfl⟩
  have hzero : v.count '%' = 0 := List.count_eq_zero.2 hv
  rcases List.suffix_cons_iff.1 hs with heq | hs
  · have htail : w ++ '%' :: b = v ++ ['%'] := (List.cons.inj heq).2
    have hcount := congrArg (List.count '%') htail
    simp only [List.count_append, List.count_cons_self, List.count_nil, hzero] at hcount
    have hw : '%' ∉ w := List.count_eq_zero.1 (by omega)
    have htake : ∀ u rest : Text, '%' ∉ u →
        (u ++ '%' :: rest).takeWhile (fun c => decide (c ≠ '%')) = u := by
      intro u rest hu
      rw [List.takeWhile_append_of_pos]
      · simp
      · intro c hc
        rw [decide_eq_true_iff]
        rintro rfl
        exact hu hc
    have hsame := congrArg (List.takeWhile fun c => decide (c ≠ '%')) htail
    rw [htake w b hw, htake v [] hv] at hsame
    exact hne hsame
  · -- the rest has one mark only
    have hle := hs.sublist.count_le '%'
    simp only [splices, List.count_cons_self, List.count_append, List.count_nil, hzero] at hle
    omega

theorem inFrames_text_fixed {t : Text} {frames : List Frame}
    (h : ∀ fr ∈ frames, ¬ splices.Occurs fr.loopVar t) : inFrames Frame.text frames t = t := by
  induction frames with
  | nil => rfl
  | cons fr frames ih =>
    show inFrames Frame.text frames (fr.text t) = t
    rw [Frame.text, substituteLoopVar_of_not_occurs (h fr List.mem_cons_self)]
    exact ih fun f hf => h f (List.mem_cons_of_mem _ hf)

/-- **The innermost variable wins.** A `%v%` becomes the value of the
first frame of that name, which the frames around it leave. -/
theorem inFrames_text_splice {v : Text} {fr : Frame} {inner outer : List Frame}
    (hv : splices.isName v = true) (hi : ∀ f ∈ inner, f.loopVar ≠ v) (hfr : fr.loopVar = v) :
    inFrames Frame.text (inner ++ fr :: outer) ('%' :: (v ++ ['%'])) = toDecimal fr.value := by
  have hmark : '%' ∉ v := Placeholders.mark_notMem_of_isName hv
  have hne : v ≠ [] := by
    rintro rfl
    cases hv
  have hinner : inFrames Frame.text inner ('%' :: (v ++ ['%'])) = '%' :: (v ++ ['%']) :=
    inFrames_text_fixed fun f hf => not_occurs_splice hmark (hi f hf)
  have hone : fr.text ('%' :: (v ++ ['%'])) = toDecimal fr.value := by
    rw [Frame.text, hfr, substituteLoopVar, if_neg hne]
    have hopen := Placeholders.replace_opens (σ := splices) (v := v) (r := toDecimal fr.value) []
    exact hopen.trans (List.append_nil _)
  rw [inFrames, List.foldl_append, List.foldl_cons]
  rw [show List.foldl (fun a f => Frame.text f a) ('%' :: (v ++ ['%'])) inner = _ from hinner, hone]
  refine inFrames_text_fixed fun f _ => ?_
  rintro ⟨s, hs, b, rfl⟩
  exact (toDecimal_isValue fr.value).mark_notMem (hs.subset List.mem_cons_self)

/-! ## Modules with loops -/

/-- Two generates over `i`, one inside the other, and a value of the outer
body that the inner one reads. -/
def shadowed : List Op :=
  [.generate 0 2 1 (some ['i']) []
    [.op "nsl.constant".toList [] [] [.source 0] [],
      .generate 5 4 (-1) (some ['i']) []
        [.op "nsl.func".toList [("name".toList, .str "f%i%".toList)] [.source 0] [] []]]]

example : unroll [] shadowed =
    [.op "nsl.constant".toList [] [] [.copy 0 (.source 0)] [],
      .op "nsl.func".toList [("name".toList, .str "f5".toList)] [.copy 0 (.source 0)] [] [],
      .op "nsl.constant".toList [] [] [.copy 1 (.source 0)] [],
      .op "nsl.func".toList [("name".toList, .str "f5".toList)] [.copy 1 (.source 0)] [] []] := by
  rfl

/-- It is unrolled. -/
theorem expandGenerate_shadowed : Unrolls shadowed := by
  refine (expandGenerate_iff ⟨?_, by decide, ?_, ?_⟩ (by decide) ?_).2 ?_
  · refine ⟨⟨⟨fun v hv => (nomatch hv), trivial⟩, ⟨⟨fun v hv => ?_, trivial⟩, trivial⟩, trivial⟩, trivial⟩
    exact hv
  · intro v hv
    exact ⟨0, List.mem_singleton.1 hv⟩
  · refine ⟨⟨?_, trivial, ⟨?_, trivial, trivial⟩, trivial⟩, trivial⟩ <;> unfold Bounded <;> decide
  · refine ⟨⟨?_, trivial, ⟨?_, trivial, trivial⟩, trivial⟩, trivial⟩ <;> decide
  · refine ⟨⟨?_, trivial, ⟨?_, trivial, trivial⟩, trivial⟩, trivial⟩ <;> unfold CountFits <;> decide

/-- One iteration with the largest step there is. -/
def longStride : List Op :=
  [.generate 0 2 (2 ^ 63 - 1) (some ['i']) [] [.op "nsl.finish".toList [] [] [] []]]

/-- Its count overflows. -/
theorem not_unrolls_longStride :
    Verified longStride ∧ generates longStride < 65535 ∧
      ForGenerates (fun lower upper step => trips lower upper step < 2 ^ 32) longStride ∧
      ¬ Unrolls longStride := by
  refine ⟨⟨⟨⟨⟨fun v hv => (nomatch hv), trivial⟩, trivial⟩, trivial⟩, by decide,
    fun v hv => (nomatch hv), ⟨?_, trivial, trivial⟩, trivial⟩, by decide,
    ⟨⟨by decide, trivial, trivial⟩, trivial⟩, ?_⟩
  · unfold Bounded
    decide
  · rintro ⟨hdone, -⟩
    have hundef : expandGenerate longStride = .undefined := by rfl
    rw [hundef] at hdone
    cases hdone

end Ssa

end Passes

end Nslc
