import Mathlib.Data.Nat.Digits.Defs
import Nslc.Lower.Visible
import Nslc.Lower.Hoisting
/-!
# Names the passes make up

A version wire is named after its variable and a submodule of an array
after the array, each with a number; a placeholder state is named after
the proc it stands for. No pass looks the name up first. Two numbered
names differ as soon as their bases or their numbers do
(`numbered_inj`), so nothing the structural passes make up meets anything
else they make up; `freshNames_iff` is what is left.
-/

namespace Nslc

namespace Variables

open FSM

/-! ## Names -/

mutual

/-- The names declared by an op and in its regions. A proc is a scope of
its own. -/
def declaredOp (o : Op) : List String :=
  match o with
  | .variable _ name | .wire _ name => [name]
  | .transfer _ _ _ => []
  | .ifOp _ thenBody elseBody => declaredOps thenBody ++ declaredOps elseBody
  | .op mnemonic name _ _ body =>
    name.toList ++ (if mnemonic = "nsl.proc" then [] else declaredOps body)

def declaredOps (os : List Op) : List String :=
  match os with
  | [] => []
  | o :: os => declaredOp o ++ declaredOps os

end

def declaredItem : Item → List String
  | .func symName body => symName :: declaredOps body
  | .submodule _ symName _ _ => [symName]
  | .op o => declaredOp o

def declaredNames (m : List Item) : List String := m.flatMap declaredItem

/-- The name of an op no source declares. The wire of the first version
takes the name of its variable over. -/
def inventedName? (result : Value) (name : String) : Option String :=
  match result with
  | .version _ (_ + 1) | .replica _ _ => some name
  | .version _ 0 | .source _ => none

def inventedOp? : Op → Option String
  | .wire result name => inventedName? result name
  | _ => none

def Item.invented : Item → List String
  | .func _ body => body.filterMap inventedOp?
  | .submodule self symName _ _ => (inventedName? self symName).toList
  | .op o => (inventedOp? o).toList

def inventedNames (m : List Item) : List String := m.flatMap Item.invented

/-- Slots 3 and 4 of the pipeline. -/
def structuralPasses (m : List Item) : List Item := (explodeSubmodArrays (expandVariables m)).1

/-- **Generated names are fresh**: in every module what the passes make up
meets neither itself nor a declared name, and in every machine the states
have distinct names. -/
structure FreshNames (ms : List (List Item)) (out : Machines) : Prop where
  modules : ∀ m ∈ ms, (declaredNames m ++ inventedNames (structuralPasses m)).Nodup
  machines : ∀ machine ∈ out.procs ++ out.seqs, machine.stateNames.Nodup

/-! ## Numbers behind a name -/

def numbered (base : String) (k : ℕ) : String := base ++ "_" ++ toString k

/-- The uses in a function the variable stands in. -/
def funcUses (v : Value) : Item → List Bool
  | .func _ body => if body.any (Op.isVariable v) then usesOps v true body else []
  | _ => []

/-- The uses in the region of a variable. -/
def regionUses (v : Value) (m : List Item) : List Bool :=
  if m.any (Item.isVariable v) then usesItems v m else m.flatMap (funcUses v)

/-- How many wires a variable gets. -/
def versionCount (v : Value) (m : List Item) : ℕ := (regionUses v m).count true

def Item.array? : Item → Option (String × ℕ)
  | .submodule _ symName _ (some size) => some (symName, size.toNat)
  | _ => none

/-- The bases of numbered names with their numbers: every variable with
`1`, `2`, … below the count of its wires, every array with its indices. -/
def numberings (m : List Item) : List (String × List ℕ) :=
  (collectVariables m).map (fun x => (x.2, List.range' 1 (versionCount x.1 m - 1))) ++
    (m.filterMap Item.array?).map fun a => (a.1, List.range a.2)

/-- No declared name is the base of a numbered name with one of its
numbers. -/
def NumbersApart (m : List Item) : Prop :=
  ∀ x ∈ numberings m, ∀ k ∈ x.2, numbered x.1 k ∉ declaredNames m

/-- No state of the proc has the name of a placeholder or of the sink the
proc needs. -/
def StatesApart (isProc : String → Bool) (p : ProcOp) : Prop :=
  (∀ callee, .call callee ∈ p.actions → isProc callee = true →
    placeholderName callee ∉ p.stateNames) ∧
  (.finish ∈ p.actions ∨ .finishMethod ∈ p.actions → sinkName ∉ p.stateNames)

/-! ## Two numbered names -/

theorem digits_injective : Function.Injective (Nat.toDigits 10) := fun m n h => by
  have hval := congrArg (fun cs => Nat.ofDigitChars 10 cs 0) h
  simpa [Nat.ofDigitChars_toDigits] using hval

theorem toString_injective : Function.Injective (toString : ℕ → String) := fun m n h => by
  have hchars := congrArg String.toList h
  have hrepr : ∀ k : ℕ, (toString k).toList = Nat.toDigits 10 k := fun k => String.toList_ofList
  rw [hrepr, hrepr] at hchars
  exact digits_injective hchars

theorem underscore_notMem_toString (k : ℕ) : '_' ∉ (toString k).toList := by
  have hrepr : (toString k).toList = Nat.toDigits 10 k := String.toList_ofList
  rw [hrepr]
  intro hmem
  exact absurd (Nat.isDigit_of_mem_toDigits (by decide) (by decide) hmem) (by decide)

/-- What stands before and behind the last occurrence of an element. -/
theorem append_cons_last_inj {α : Type} {a : α} {xs ys us vs : List α} (hus : a ∉ us)
    (hvs : a ∉ vs) (h : xs ++ a :: us = ys ++ a :: vs) : xs = ys ∧ us = vs := by
  obtain ⟨cs, hys, htail⟩ | ⟨cs, hxs, htail⟩ := List.append_eq_append_iff.1 h
  · cases cs with
    | nil => exact ⟨by simp [hys], (List.cons.inj htail).2⟩
    | cons c cs =>
      obtain ⟨-, hrest⟩ := List.cons.inj htail
      exact absurd (hrest ▸ List.mem_append_right cs List.mem_cons_self) hus
  · cases cs with
    | nil => exact ⟨by simp [hxs], (List.cons.inj htail).2.symm⟩
    | cons c cs =>
      obtain ⟨-, hrest⟩ := List.cons.inj htail
      exact absurd (hrest ▸ List.mem_append_right cs List.mem_cons_self) hvs

/-- **Numbered names tell their base and their number.** -/
theorem numbered_inj {a b : String} {j k : ℕ} (h : numbered a j = numbered b k) :
    a = b ∧ j = k := by
  have hchars := congrArg String.toList h
  simp only [numbered, String.toList_append, List.append_assoc] at hchars
  obtain ⟨hbase, hnum⟩ := append_cons_last_inj (underscore_notMem_toString j)
    (underscore_notMem_toString k) hchars
  exact ⟨String.toList_inj.1 hbase, toString_injective (String.toList_inj.1 hnum)⟩

/-! ## The wires of one variable -/

section Wires

variable {v : Value} {baseName : String}

def newName? (baseName : String) : ℕ → Option String
  | 0 => none
  | k + 1 => some (numbered baseName (k + 1))

/-- The names made up for `n` versions behind the first `k`. -/
def newNames (baseName : String) (k n : ℕ) : List String :=
  (List.range' k n).filterMap (newName? baseName)

theorem newNames_add (k m n : ℕ) :
    newNames baseName k (m + n) = newNames baseName k m ++ newNames baseName (k + m) n := by
  rw [newNames, newNames, newNames, ← List.filterMap_append, List.range'_append_1]

theorem newNames_zero (n : ℕ) :
    newNames baseName 0 n = (List.range' 1 (n - 1)).map (numbered baseName) := by
  cases n with
  | zero => rfl
  | succ n =>
    rw [newNames, List.range'_succ, List.filterMap_cons_none rfl, Nat.add_sub_cancel,
      ← List.filterMap_eq_map]
    refine List.filterMap_congr fun k hk => ?_
    obtain ⟨k, rfl⟩ : ∃ j, k = j + 1 := ⟨k - 1, by have := (List.mem_range'_1.1 hk).1; omega⟩
    rfl

theorem inventedName?_version (k : ℕ) :
    inventedName? (.version v k) (wireName baseName k) = newName? baseName k := by
  cases k with
  | zero => rfl
  | succ k => simp [inventedName?, wireName, newName?, numbered]

theorem invented_visitOp (k : ℕ) (o : Op) :
    (visitOp v baseName true k o).1.filterMap inventedOp? =
      (inventedOp? o).toList ++ newNames baseName k ((usesOp v true o).count true) := by
  by_cases hv : Versions v true o
  · obtain ⟨-, clocked, src, rfl⟩ := hv
    have hcount : (usesOp v true (.transfer clocked v src)).count true = 1 := by
      rw [usesOp_versions]
      split <;> simp
    rw [visitOp_versions, hcount]
    simp only [List.filterMap_cons, List.filterMap_nil, inventedOp?, inventedName?_version,
      newNames, List.range'_one, Option.toList_none, List.nil_append]
  · have hno : true ∉ usesOp v true o := fun hm => by
      rw [usesOp_of_not_versions hv] at hm
      exact absurd (usesOp_nested o true hm) (by decide)
    rw [visitOp_eq_rewire k o hv, List.count_eq_zero_of_not_mem hno]
    rw [newNames, List.range'_zero, List.filterMap_nil, List.append_nil]
    cases o with
    | wire result name =>
      simp only [rewireOp, List.filterMap_cons, List.filterMap_nil, inventedOp?]
      cases inventedName? result name <;> rfl
    | _ => rfl

/-- **The names a walk makes up** are the old ones and one for each
version behind the first. -/
theorem invented_visitOps (k : ℕ) (os : List Op) :
    ((visitOps v baseName true k os).1.filterMap inventedOp?).Perm
      (os.filterMap inventedOp? ++ newNames baseName k ((usesOps v true os).count true)) := by
  induction os generalizing k with
  | nil => simp [visitOps, usesOps, newNames]
  | cons o os ih =>
    have hcons : (o :: os).filterMap inventedOp? =
        (inventedOp? o).toList ++ os.filterMap inventedOp? := by
      rw [List.filterMap_cons]
      cases inventedOp? o <;> rfl
    rw [visitOps, List.filterMap_append, invented_visitOp, usesOps, List.count_append,
      newNames_add, hcons, List.append_assoc, List.append_assoc]
    refine List.Perm.append_left _ ?_
    refine ((ih _).append_left _).trans ?_
    rw [visitOp_snd]
    exact List.perm_append_comm_assoc _ _ _

theorem inventedNames_cons (i : Item) (m : List Item) :
    inventedNames (i :: m) = i.invented ++ inventedNames m := rfl

theorem inventedNames_append (as bs : List Item) :
    inventedNames (as ++ bs) = inventedNames as ++ inventedNames bs := List.flatMap_append

theorem invented_ops (os : List Op) :
    inventedNames (os.map .op) = os.filterMap inventedOp? := by
  induction os with
  | nil => rfl
  | cons o os ih =>
    rw [List.map_cons, inventedNames_cons, ih, List.filterMap_cons, Item.invented]
    cases inventedOp? o <;> rfl

theorem visitItem_snd (k : ℕ) (i : Item) :
    (visitItem v baseName k i).2 = k + (usesItem v i).count true := by
  cases i with
  | func _ body => exact visitOps_snd k body
  | submodule => rfl
  | op o => exact visitOp_snd k o

theorem invented_visitItem (k : ℕ) (i : Item) :
    (inventedNames (visitItem v baseName k i).1).Perm
      (i.invented ++ newNames baseName k ((usesItem v i).count true)) := by
  cases i with
  | func _ body =>
    simpa [visitItem, inventedNames, Item.invented, usesItem] using
      invented_visitOps (v := v) k body
  | submodule => simp [visitItem, inventedNames, usesItem, newNames]
  | op o =>
    rw [visitItem, invented_ops, invented_visitOp]
    exact List.Perm.refl _

theorem invented_visitItems (k : ℕ) (m : List Item) :
    (inventedNames (visitItems v baseName k m).1).Perm
      (inventedNames m ++ newNames baseName k ((usesItems v m).count true)) := by
  induction m generalizing k with
  | nil => simp [visitItems, inventedNames, usesItems, newNames]
  | cons i m ih =>
    have huses : usesItems v (i :: m) = usesItem v i ++ usesItems v m := rfl
    rw [visitItems, inventedNames_append, huses, List.count_append, newNames_add]
    refine ((invented_visitItem k i).append (ih _)).trans ?_
    rw [visitItem_snd, inventedNames_cons, List.append_assoc, List.append_assoc]
    exact (List.perm_append_comm_assoc _ _ _).append_left _

theorem invented_filter (os : List Op) :
    (os.filter fun o => !o.isVariable v).filterMap inventedOp? = os.filterMap inventedOp? := by
  rw [List.filterMap_filter]
  refine List.filterMap_congr fun o _ => ?_
  cases o <;> simp [inventedOp?, Op.isVariable]

theorem inventedNames_filter (m : List Item) :
    inventedNames (m.filter fun i => !i.isVariable v) = inventedNames m := by
  induction m with
  | nil => rfl
  | cons i m ih =>
    rw [List.filter_cons]
    split
    · rw [inventedNames_cons, ih, inventedNames_cons]
    · rename_i hv
      have hnone : i.invented = [] := by
        cases i with
        | op o => cases o <;> simp_all [Item.isVariable, Op.isVariable, Item.invented, inventedOp?]
        | func => exact absurd rfl hv
        | submodule => exact absurd rfl hv
      rw [ih, inventedNames_cons, hnone, List.nil_append]

theorem invented_expandInFunc (body : List Op) :
    ((expandInFunc v baseName body).filterMap inventedOp?).Perm
      (body.filterMap inventedOp? ++ newNames baseName 0 ((usesOps v true body).count true)) := by
  rw [expandInFunc]
  split
  · rw [invented_filter]
    exact invented_visitOps 0 body
  · exact invented_visitOps 0 body

end Wires

/-! ## The variables that are left -/

section Left

variable {u v : Value} {baseName : String}

theorem variables_visitOp (k : ℕ) (o : Op) :
    (visitOp v baseName true k o).1.filterMap Op.variable? = o.variable?.toList := by
  by_cases hv : Versions v true o
  · obtain ⟨-, clocked, src, rfl⟩ := hv
    rw [visitOp_versions]
    rfl
  · rw [visitOp_eq_rewire k o hv]
    cases o <;> rfl

theorem variables_visitOps (k : ℕ) (os : List Op) :
    (visitOps v baseName true k os).1.filterMap Op.variable? = os.filterMap Op.variable? := by
  induction os generalizing k with
  | nil => rfl
  | cons o os ih =>
    rw [visitOps, List.filterMap_append, variables_visitOp, ih, List.filterMap_cons]
    cases o.variable? <;> rfl

theorem collectVariables_cons (i : Item) (m : List Item) :
    collectVariables (i :: m) = i.variablesIn ++ collectVariables m := rfl

theorem collectVariables_append (as bs : List Item) :
    collectVariables (as ++ bs) = collectVariables as ++ collectVariables bs := List.flatMap_append

theorem collectVariables_ops (os : List Op) :
    collectVariables (os.map .op) = os.filterMap Op.variable? := by
  induction os with
  | nil => rfl
  | cons o os ih =>
    rw [List.map_cons, collectVariables_cons, ih, List.filterMap_cons, Item.variablesIn]
    cases o.variable? <;> rfl

theorem collectVariables_visit (k : ℕ) (m : List Item) :
    collectVariables (visitItems v baseName k m).1 = collectVariables m := by
  induction m generalizing k with
  | nil => rfl
  | cons i m ih =>
    rw [visitItems, collectVariables_append, ih, collectVariables_cons]
    congr 1
    cases i with
    | func _ body =>
      simpa [visitItem, collectVariables, Item.variablesIn] using
        variables_visitOps (v := v) k body
    | submodule => rfl
    | op o =>
      rw [visitItem, collectVariables_ops, variables_visitOp]
      rfl

theorem variables_expandInFunc (body : List Op) :
    ((expandInFunc v baseName body).filterMap Op.variable?).Sublist
      (body.filterMap Op.variable?) := by
  rw [← variables_visitOps (v := v) 0 body, expandInFunc]
  split
  · exact List.filter_sublist.filterMap _
  · exact List.Sublist.refl _

theorem collectVariables_map (m : List Item) :
    (collectVariables (m.map (expandFunc v baseName))).Sublist (collectVariables m) := by
  induction m with
  | nil => exact .slnil
  | cons i m ih =>
    rw [List.map_cons, collectVariables_cons, collectVariables_cons]
    refine List.Sublist.append ?_ ih
    cases i with
    | func _ body =>
      simp only [expandFunc, Item.variablesIn]
      split
      · exact variables_expandInFunc body
      · exact List.Sublist.refl _
    | submodule => exact List.Sublist.refl _
    | op o => exact List.Sublist.refl _

theorem collectVariables_filter (p : Item → Bool) (m : List Item) :
    (collectVariables (m.filter p)).Sublist (collectVariables m) := by
  induction m with
  | nil => exact .slnil
  | cons i m ih =>
    rw [List.filter_cons, collectVariables_cons]
    split
    · exact List.Sublist.append (List.Sublist.refl _) ih
    · exact ih.trans (List.sublist_append_right _ _)

theorem collectVariables_expandOne (m : List Item) :
    (collectVariables (expandOne v baseName m)).Sublist (collectVariables m) := by
  rw [expandOne]
  split
  · rw [← collectVariables_visit (v := v) 0 m, expandInModule]
    split
    · exact collectVariables_filter _ _
    · exact List.Sublist.refl _
  · exact collectVariables_map m

/-! ## The wires of the others -/

theorem funcUses_visit (hu : ¬ Family v u) (k : ℕ) (m : List Item) :
    (visitItems v baseName k m).1.flatMap (funcUses u) = m.flatMap (funcUses u) := by
  induction m generalizing k with
  | nil => rfl
  | cons i m ih =>
    rw [visitItems, List.flatMap_append, ih, List.flatMap_cons]
    congr 1
    cases i with
    | func _ body =>
      simp only [visitItem, funcUses, List.flatMap_cons, List.flatMap_nil, List.append_nil,
        any_isVariable_visitOps, usesOps_visit hu]
    | submodule => rfl
    | op o => simp [visitItem, funcUses]

theorem funcUses_map (hu : ¬ Family v u) (m : List Item) :
    (m.map (expandFunc v baseName)).flatMap (funcUses u) = m.flatMap (funcUses u) := by
  rw [List.flatMap_map]
  refine List.flatMap_congr fun i _ => ?_
  cases i with
  | func _ body =>
    simp only [expandFunc, funcUses]
    split
    · rw [any_isVariable_expandInFunc fun he => hu (.inl he), usesOps_expandInFunc hu]
    · rfl
  | submodule => rfl
  | op o => rfl

theorem funcUses_filter (m : List Item) :
    (m.filter fun i => !i.isVariable v).flatMap (funcUses u) = m.flatMap (funcUses u) := by
  induction m with
  | nil => rfl
  | cons i m ih =>
    rw [List.filter_cons]
    split
    · rw [List.flatMap_cons, List.flatMap_cons, ih]
    · rename_i hv
      cases i with
      | func => exact absurd rfl hv
      | submodule => exact absurd rfl hv
      | op o => exact ih

theorem usesItems_eq_placedUses (w : Value) (i : ℕ) (m : List Item) :
    usesItems w m = (placedUses w i m).map Use.versions := by
  induction m generalizing i with
  | nil => rfl
  | cons it m ih =>
    have hcons : usesItems w (it :: m) = usesItem w it ++ usesItems w m := rfl
    have hmap : ∀ (p : Option ℕ) (us : List Bool),
        (us.map (Use.mk p)).map Use.versions = us := fun p us => by
      rw [List.map_map]
      exact List.map_id us
    cases it with
    | func _ body => rw [hcons, ih (i + 1), placedUses, List.map_append, hmap, usesItem]
    | submodule => exact ih i
    | op o => rw [hcons, ih i, placedUses, List.map_append, hmap, usesItem]

/-- **The expansion of one variable leaves the count of another.** -/
theorem versionCount_expandOne (hu : ¬ Family v u) (m : List Item) :
    versionCount u (expandOne v baseName m) = versionCount u m := by
  have huses : usesItems u (expandOne v baseName m) = usesItems u m := by
    rw [usesItems_eq_placedUses u 0, placedUses_expandOne hu, ← usesItems_eq_placedUses]
  have hfuncs : (expandOne v baseName m).flatMap (funcUses u) = m.flatMap (funcUses u) := by
    rw [expandOne]
    split
    · rw [expandInModule]
      split
      · rw [funcUses_filter, funcUses_visit hu]
      · exact funcUses_visit hu 0 m
    · exact funcUses_map hu m
  rw [versionCount, versionCount, regionUses, regionUses,
    any_isVariable_expandOne fun he => hu (.inl he), huses, hfuncs]

end Left

/-! ## Everything the passes make up -/

section All

variable {v : Value} {baseName : String}

/-- Where no function has the variable, nothing happens. -/
theorem expandFunc_absent (m : List Item) (h : v ∉ (collectVariables m).map Prod.fst) :
    m.map (expandFunc v baseName) = m ∧ m.flatMap (funcUses v) = [] := by
  have hitem : ∀ i ∈ m, expandFunc v baseName i = i ∧ funcUses v i = [] := by
    intro i hi
    cases i with
    | func _ body =>
      have hnone : body.any (Op.isVariable v) = false := by
        rw [Bool.eq_false_iff]
        intro hany
        obtain ⟨x, hx, hxv⟩ := List.mem_map.1 (any_isVariable_collected hany)
        exact h (List.mem_map.2 ⟨x, List.mem_flatMap.2 ⟨_, hi, hx⟩, hxv⟩)
      exact ⟨by simp [expandFunc, hnone], by simp [funcUses, hnone]⟩
    | submodule => exact ⟨rfl, rfl⟩
    | op o => exact ⟨rfl, rfl⟩
  refine ⟨?_, List.flatMap_eq_nil_iff.2 fun i hi => (hitem i hi).2⟩
  exact (List.map_congr_left fun i hi => (hitem i hi).1).trans (List.map_id _)

theorem invented_map (m : List Item) (hnd : ((collectVariables m).map Prod.fst).Nodup) :
    (inventedNames (m.map (expandFunc v baseName))).Perm
      (inventedNames m ++ newNames baseName 0 ((m.flatMap (funcUses v)).count true)) := by
  induction m with
  | nil => simp [inventedNames, newNames]
  | cons i m ih =>
    rw [collectVariables_cons, List.map_append] at hnd
    have hrest := ih hnd.of_append_right
    have hskip : funcUses v i = [] → expandFunc v baseName i = i →
        (inventedNames ((i :: m).map (expandFunc v baseName))).Perm
          (inventedNames (i :: m) ++ newNames baseName 0
            (((i :: m).flatMap (funcUses v)).count true)) := fun huse hexp => by
      rw [List.map_cons, inventedNames_cons, inventedNames_cons, List.flatMap_cons, huse, hexp,
        List.nil_append, List.append_assoc]
      exact hrest.append_left _
    cases i with
    | func name body =>
      cases hany : body.any (Op.isVariable v) with
      | false => exact hskip (by simp [funcUses, hany]) (by simp [expandFunc, hany])
      | true =>
        have habsent : v ∉ (collectVariables m).map Prod.fst := fun hm =>
          (List.nodup_append.1 hnd).2.2 v (any_isVariable_collected hany) v hm rfl
        obtain ⟨hmap, huses⟩ := expandFunc_absent m habsent
        rw [List.map_cons, hmap, List.flatMap_cons, huses, List.append_nil, inventedNames_cons,
          inventedNames_cons]
        simp only [expandFunc, funcUses, hany, if_true, Item.invented]
        refine ((invented_expandInFunc body).append_right _).trans ?_
        rw [List.append_assoc, List.append_assoc]
        exact List.perm_append_comm.append_left _
    | submodule => exact hskip rfl rfl
    | op o => exact hskip rfl rfl

/-- **What the expansion of one variable makes up.** -/
theorem invented_expandOne (m : List Item) (hnd : ((collectVariables m).map Prod.fst).Nodup) :
    (inventedNames (expandOne v baseName m)).Perm
      (inventedNames m ++ newNames baseName 0 (versionCount v m)) := by
  rw [expandOne, versionCount, regionUses]
  split
  · rw [expandInModule]
    split
    · rw [inventedNames_filter]
      exact invented_visitItems 0 m
    · exact invented_visitItems 0 m
  · exact invented_map m hnd

theorem invented_foldl (vs : List (Value × String)) (m : List Item) (h : Pending vs m)
    (hnd : ((collectVariables m).map Prod.fst).Nodup) :
    (inventedNames (vs.foldl (fun m x => expandOne x.1 x.2 m) m)).Perm
      (inventedNames m ++ vs.flatMap fun x => newNames x.2 0 (versionCount x.1 m)) := by
  induction vs generalizing m with
  | nil => simp
  | cons x vs ih =>
    have hnd' : ((collectVariables (expandOne x.1 x.2 m)).map Prod.fst).Nodup :=
      hnd.sublist ((collectVariables_expandOne m).map _)
    have hcounts : (vs.flatMap fun y => newNames y.2 0 (versionCount y.1 (expandOne x.1 x.2 m))) =
        vs.flatMap fun y => newNames y.2 0 (versionCount y.1 m) :=
      List.flatMap_congr fun y hy => by
        rw [versionCount_expandOne fun hf => h.apart hy _ (.inl rfl) hf]
    rw [List.foldl_cons, List.flatMap_cons]
    refine (ih _ h.step hnd').trans ?_
    rw [hcounts, ← List.append_assoc]
    exact (invented_expandOne m hnd).append_right _

/-! ## Submodules -/

def Item.isSubmodule : Item → Bool
  | .submodule _ _ _ _ => true
  | _ => false

theorem submodules_visit (k : ℕ) (m : List Item) :
    (visitItems v baseName k m).1.filter Item.isSubmodule = m.filter Item.isSubmodule := by
  induction m generalizing k with
  | nil => rfl
  | cons i m ih =>
    have hcons : (i :: m).filter Item.isSubmodule =
        [i].filter Item.isSubmodule ++ m.filter Item.isSubmodule := by
      rw [← List.filter_append, List.singleton_append]
    rw [visitItems, List.filter_append, ih, hcons]
    congr 1
    cases i with
    | func => rfl
    | submodule => rfl
    | op o =>
      refine List.filter_eq_nil_iff.2 fun i hi => ?_
      obtain ⟨o', -, rfl⟩ := List.mem_map.1 hi
      exact Bool.false_ne_true

theorem submodules_map (m : List Item) :
    (m.map (expandFunc v baseName)).filter Item.isSubmodule = m.filter Item.isSubmodule := by
  induction m with
  | nil => rfl
  | cons i m ih =>
    cases i with
    | func => exact ih
    | submodule =>
      rw [List.map_cons, List.filter_cons_of_pos (a := expandFunc _ _ _) rfl, ih,
        List.filter_cons_of_pos rfl]
      rfl
    | op => exact ih

theorem submodules_filter (m : List Item) :
    (m.filter fun i => !i.isVariable v).filter Item.isSubmodule = m.filter Item.isSubmodule := by
  rw [List.filter_filter]
  refine List.filter_congr fun i _ => ?_
  cases i <;> simp [Item.isSubmodule, Item.isVariable]

theorem submodules_expandVariables (m : List Item) :
    (expandVariables m).filter Item.isSubmodule = m.filter Item.isSubmodule := by
  rw [expandVariables]
  generalize collectVariables m = vs
  induction vs generalizing m with
  | nil => rfl
  | cons x vs ih =>
    rw [List.foldl_cons, ih, expandOne]
    split
    · rw [expandInModule]
      split
      · rw [submodules_filter, submodules_visit]
      · exact submodules_visit 0 m
    · exact submodules_map m

theorem array?_filter (m : List Item) :
    (m.filter Item.isSubmodule).filterMap Item.array? = m.filterMap Item.array? := by
  rw [List.filterMap_filter]
  refine List.filterMap_congr fun i _ => ?_
  cases i <;> simp [Item.isSubmodule, Item.array?]

/-- **What the explosion of the arrays makes up.** -/
theorem invented_explode (m : List Item)
    (hself : ∀ self name template size, .submodule self name template size ∈ m →
      ∃ n, self = .source n) :
    (inventedNames (m.flatMap explodeItem)).Perm
      (inventedNames m ++ (m.filterMap Item.array?).flatMap fun a =>
        (List.range a.2).map (numbered a.1)) := by
  induction m with
  | nil => exact List.Perm.refl _
  | cons i m ih =>
    have hrest := ih fun self name template size hm => hself self name template size (by simp [hm])
    rw [List.flatMap_cons, inventedNames_append, inventedNames_cons, List.append_assoc]
    have hsame : explodeItem i = [i] → i.array? = none →
        (inventedNames (explodeItem i) ++ inventedNames (m.flatMap explodeItem)).Perm
          (i.invented ++ (inventedNames m ++ ((i :: m).filterMap Item.array?).flatMap fun a =>
            (List.range a.2).map (numbered a.1))) := fun hex harr => by
      have hone : inventedNames [i] = i.invented := List.append_nil _
      rw [hex, List.filterMap_cons_none harr, hone]
      exact hrest.append_left _
    cases i with
    | func => exact hsame rfl rfl
    | op => exact hsame rfl rfl
    | submodule self name template size =>
      cases size with
      | none => exact hsame rfl rfl
      | some size =>
        obtain ⟨n, rfl⟩ := hself self name template (some size) (by simp)
        have hnames : inventedNames (explodeItem (.submodule (.source n) name template (some size))) =
            (List.range size.toNat).map (numbered name) := by
          rw [explodeItem]
          split
          · rename_i hneg
            rw [Int.toNat_of_nonpos hneg.le]
            rfl
          · rw [inventedNames, List.flatMap_map, List.map_eq_flatMap]
            rfl
        have harr : (Item.submodule (.source n) name template (some size) :: m).filterMap Item.array? =
            (name, size.toNat) :: m.filterMap Item.array? := rfl
        rw [hnames, harr, List.flatMap_cons]
        refine (hrest.append_left _).trans ?_
        exact List.perm_append_comm_assoc _ _ _

end All

/-! ## The structural passes -/

theorem inventedName?_source {x : Value} (h : ∃ n, x = .source n) (name : String) :
    inventedName? x name = none := by
  obtain ⟨n, rfl⟩ := h
  rfl

theorem invented_sourceOps (os : List Op) (h : ∀ x ∈ definedOps os, ∃ n, x = .source n) :
    os.filterMap inventedOp? = [] := by
  induction os with
  | nil => rfl
  | cons o os ih =>
    have hrest := ih fun x hx => h x (List.mem_append_right (definedOp o) hx)
    rw [List.filterMap_cons, hrest]
    cases o with
    | wire result name =>
      rw [inventedOp?, inventedName?_source (h result (by simp [definedOps, definedOp])) name]
    | _ => rfl

/-- A verified module has no made up name yet. -/
theorem Verified.invented {m : List Item} (h : Verified m) : inventedNames m = [] := by
  refine List.flatMap_eq_nil_iff.2 fun i hi => ?_
  have hsource : ∀ x ∈ definedItem i, ∃ n, x = .source n := fun x hx =>
    h.source x (List.mem_flatMap.2 ⟨i, hi, hx⟩)
  cases i with
  | func _ body => exact invented_sourceOps body hsource
  | submodule self name _ _ =>
    rw [Item.invented, inventedName?_source (hsource self (by simp [definedItem])) name]
    rfl
  | op o =>
    have hone := invented_sourceOps [o] fun x hx => hsource x (by
      simpa [definedOps, definedItem] using hx)
    rw [List.filterMap_cons] at hone
    rw [Item.invented]
    cases ho : inventedOp? o with
    | none => rfl
    | some name => simp [ho] at hone

/-- **What the structural passes make up**: each base with its numbers. -/
theorem invented_structuralPasses {m : List Item} (h : Verified m) :
    (inventedNames (structuralPasses m)).Perm
      ((numberings m).flatMap fun x => x.2.map (numbered x.1)) := by
  have hnd : ((collectVariables m).map Prod.fst).Nodup := h.nodup.sublist (collected_sublist m)
  have hself : ∀ self name template size, .submodule self name template size ∈ expandVariables m →
      ∃ n, self = .source n := fun self name template size hm => by
    have hmem : .submodule self name template size ∈ (expandVariables m).filter Item.isSubmodule :=
      List.mem_filter.2 ⟨hm, rfl⟩
    rw [submodules_expandVariables] at hmem
    exact h.source self (List.mem_flatMap.2 ⟨_, List.mem_of_mem_filter hmem, by simp [definedItem]⟩)
  have hvars := invented_foldl _ m h.pending hnd
  rw [h.invented, List.nil_append] at hvars
  refine (invented_explode _ hself).trans ((List.Perm.append_right _ hvars).trans ?_)
  rw [← array?_filter, submodules_expandVariables, array?_filter, numberings, List.flatMap_append,
    List.flatMap_map, List.flatMap_map]
  refine List.Perm.of_eq (congrArg (· ++ _) ?_)
  exact List.flatMap_congr fun x _ => newNames_zero _

/-- The bases an item brings. -/
def Item.bases (i : Item) : List String :=
  i.variablesIn.map Prod.snd ++ i.array?.toList.map Prod.fst

theorem bases_ops (os : List Op) :
    ((os.filterMap Op.variable?).map Prod.snd).Sublist (declaredOps os) := by
  induction os with
  | nil => exact .slnil
  | cons o os ih =>
    cases o with
    | «variable» result name => exact ih.cons_cons name
    | wire => exact ih.cons _
    | transfer => exact ih
    | ifOp => exact ih.trans (List.sublist_append_right _ _)
    | op => exact ih.trans (List.sublist_append_right _ _)

theorem bases_sublist (i : Item) : i.bases.Sublist (declaredItem i) := by
  cases i with
  | func name body =>
    simpa [Item.bases, Item.variablesIn, Item.array?, declaredItem] using
      (bases_ops body).trans (List.sublist_cons_self name _)
  | submodule self name template size =>
    cases size <;> simp [Item.bases, Item.variablesIn, Item.array?, declaredItem]
  | op o => cases o <;> simp [Item.bases, Item.variablesIn, Item.array?, declaredItem, declaredOp,
      Op.variable?]

/-- Distinct declarations have distinct bases. -/
theorem nodup_bases {m : List Item} (h : (declaredNames m).Nodup) :
    ((numberings m).map Prod.fst).Nodup := by
  have hsub : (m.flatMap Item.bases).Sublist (declaredNames m) := by
    clear h
    induction m with
    | nil => exact .slnil
    | cons i m ih => exact (bases_sublist i).append ih
  have hperm : ((m.flatMap fun i => i.variablesIn.map Prod.snd) ++
      m.flatMap fun i => i.array?.toList.map Prod.fst).Perm (m.flatMap Item.bases) :=
    List.flatMap_append_perm m _ _
  have hbases : (numberings m).map Prod.fst =
      (m.flatMap fun i => i.variablesIn.map Prod.snd) ++
        m.flatMap fun i => i.array?.toList.map Prod.fst := by
    rw [numberings, List.map_append, List.map_map, List.map_map, collectVariables,
      ← List.map_flatMap, ← List.map_flatMap, List.filterMap_eq_flatMap_toList]
    rfl
  rw [hbases]
  exact hperm.nodup_iff.2 (h.sublist hsub)

theorem numbers_nodup {m : List Item} {x : String × List ℕ} (hx : x ∈ numberings m) :
    x.2.Nodup := by
  rw [numberings, List.mem_append, List.mem_map, List.mem_map] at hx
  obtain ⟨y, -, rfl⟩ | ⟨a, -, rfl⟩ := hx
  · exact List.nodup_range'
  · exact List.nodup_range

/-- **Made up names never meet each other.** -/
theorem nodup_numbered {m : List Item} (h : (declaredNames m).Nodup) :
    ((numberings m).flatMap fun x => x.2.map (numbered x.1)).Nodup := by
  have hbases := nodup_bases h
  refine List.nodup_flatMap.2 ⟨fun x hx => ?_, ?_⟩
  · exact (numbers_nodup hx).map fun j k hjk => (numbered_inj hjk).2
  · refine (List.pairwise_map.1 hbases).imp fun hne => List.disjoint_left.2 fun n hn hn' => ?_
    obtain ⟨j, -, rfl⟩ := List.mem_map.1 hn
    obtain ⟨k, -, hjk⟩ := List.mem_map.1 hn'
    exact hne (numbered_inj hjk).1.symm

theorem nodup_structuralPasses_iff {m : List Item} (h : Verified m)
    (hnames : (declaredNames m).Nodup) :
    (declaredNames m ++ inventedNames (structuralPasses m)).Nodup ↔ NumbersApart m := by
  have hperm := invented_structuralPasses h
  rw [(hperm.append_left (declaredNames m)).nodup_iff, List.nodup_append]
  constructor
  · rintro ⟨-, -, hdis⟩ x hx k hk hm
    exact hdis _ hm _ (List.mem_flatMap.2 ⟨x, hx, List.mem_map_of_mem hk⟩) rfl
  · refine fun hapart => ⟨hnames, nodup_numbered hnames, fun a ha b hb hab => ?_⟩
    obtain ⟨x, hx, hk⟩ := List.mem_flatMap.1 hb
    obtain ⟨k, hmem, rfl⟩ := List.mem_map.1 hk
    exact hapart x hx k hmem (hab ▸ ha)

/-! ## The machines -/

theorem nodup_seqStates (n : ℕ) : ((seqStates n).map FsmState.symName).Nodup := by
  rw [seqStates, List.map_map]
  refine List.nodup_range.map fun j k hjk => ?_
  exact toString_injective ((String.append_right_inj _).1 hjk)

theorem nodup_seqMachine {f : String × List Dialect.Op} {m : Option MachineOp}
    (h : IsSeqMachine f m) : ∀ machine ∈ m, machine.stateNames.Nodup := by
  rintro machine rfl
  unfold IsSeqMachine lowerOneFuncSeq at h
  split at h
  · cases h
  · split at h
    · cases h
    · obtain rfl := Option.some.inj (Except.ok.inj h)
      exact nodup_seqStates _
  · cases h

/-- What a proc needs beside its states, spelt out. -/
theorem statesApart_iff (isProc : String → Bool) (p : ProcOp) :
    (∀ n ∈ p.neededNames isProc, n ∉ p.stateNames) ↔ StatesApart isProc p := by
  have hmem : ∀ n, n ∈ p.neededNames isProc ↔
      (∃ callee, .call callee ∈ p.actions ∧ isProc callee = true ∧ n = placeholderName callee) ∨
        ((.finish ∈ p.actions ∨ .finishMethod ∈ p.actions) ∧ n = sinkName) := by
    intro n
    rw [ProcOp.neededNames, neededStates, List.mem_filterMap]
    constructor
    · rintro ⟨op, hop, hn⟩
      cases op with
      | finish => exact .inr ⟨.inl hop, (Option.some.inj hn).symm⟩
      | finishMethod => exact .inr ⟨.inr hop, (Option.some.inj hn).symm⟩
      | call callee =>
        rw [neededState] at hn
        split at hn
        · exact .inl ⟨callee, hop, ‹_›, (Option.some.inj hn).symm⟩
        · cases hn
      | goto => cases hn
      | other => cases hn
    · rintro (⟨callee, hop, hproc, rfl⟩ | ⟨hop | hop, rfl⟩)
      · exact ⟨_, hop, by rw [neededState, if_pos hproc]⟩
      · exact ⟨_, hop, rfl⟩
      · exact ⟨_, hop, rfl⟩
  constructor
  · refine fun h => ⟨fun callee hop hproc => h _ ?_, fun hop => h _ ?_⟩
    · exact (hmem _).2 (.inl ⟨callee, hop, hproc, rfl⟩)
    · exact (hmem _).2 (.inr ⟨hop, rfl⟩)
  · rintro ⟨hcalls, hsink⟩ n hn
    obtain ⟨callee, hop, hproc, rfl⟩ | ⟨hop, rfl⟩ := (hmem n).1 hn
    · exact hcalls callee hop hproc
    · exact hsink hop

/-- A property of the second list that the first one decides. -/
theorem forall_mem_iff_of_forall₂ {α β : Type} {R : α → β → Prop} {P : α → Prop} {Q : β → Prop}
    {as : List α} {bs : List β} (h : List.Forall₂ R as bs)
    (hPQ : ∀ a ∈ as, ∀ b, R a b → (Q b ↔ P a)) : (∀ b ∈ bs, Q b) ↔ ∀ a ∈ as, P a := by
  induction h with
  | nil => simp
  | @cons a b as bs hab _ ih =>
    rw [List.forall_mem_cons, List.forall_mem_cons, hPQ a (by simp) b hab,
      ih fun c hc => hPQ c (by simp [hc])]

theorem nodup_machines_iff {u : List UnitModule} {out : Machines}
    (hv : ∀ p ∈ unitProcs u, p.verify = true) (h : lowerNSLProcsToFSMMachines u = .ok out) :
    (∀ machine ∈ out.procs ++ out.seqs, machine.stateNames.Nodup) ↔
      ∀ p ∈ unitProcs u, StatesApart (procNamed u) p := by
  obtain ⟨hprocs, seqs, hseqs, hout⟩ := lowerNSLProcs_eq_ok_iff.1 h
  have hseq : ∀ machine ∈ out.seqs, machine.stateNames.Nodup := by
    intro machine hm
    rw [hout, List.reduceOption_mem_iff] at hm
    have hall := (forall_mem_iff_of_forall₂ hseqs (P := fun _ => True) fun f _ m hf =>
      iff_of_true (nodup_seqMachine hf) trivial).2 fun _ _ => trivial
    exact hall _ hm machine rfl
  have hproc : (∀ machine ∈ out.procs, machine.stateNames.Nodup) ↔
      ∀ p ∈ unitProcs u, StatesApart (procNamed u) p := by
    refine forall_mem_iff_of_forall₂ hprocs fun p hmem m hm => ?_
    have hnd : p.stateNames.Nodup := by
      have hverify := hv p hmem
      simp only [ProcOp.verify, Bool.and_eq_true, decide_eq_true_eq] at hverify
      exact hverify.1.2
    rw [(lowerOneProc_shape hm).distinct_iff hnd, statesApart_iff]
  rw [← hproc]
  exact ⟨fun hall machine hm => hall machine (List.mem_append_left _ hm), fun hall machine hm =>
    (List.mem_append.1 hm).elim (hall machine) (hseq machine)⟩

/-- **Generated names are fresh exactly where no declared name looks like
one.** -/
theorem freshNames_iff (ms : List (List Item)) (u : List UnitModule) (out : Machines)
    (hv : ∀ m ∈ ms, Verified m ∧ (declaredNames m).Nodup)
    (hp : ∀ p ∈ unitProcs u, p.verify = true) (h : lowerNSLProcsToFSMMachines u = .ok out) :
    FreshNames ms out ↔
      (∀ m ∈ ms, NumbersApart m) ∧ ∀ p ∈ unitProcs u, StatesApart (procNamed u) p := by
  rw [← nodup_machines_iff hp h]
  have hmods : (∀ m ∈ ms, (declaredNames m ++ inventedNames (structuralPasses m)).Nodup) ↔
      ∀ m ∈ ms, NumbersApart m :=
    forall₂_congr fun m hm => nodup_structuralPasses_iff (hv m hm).1 (hv m hm).2
  rw [← hmods]
  exact ⟨fun hf => ⟨hf.modules, hf.machines⟩, fun hf => ⟨hf.1, hf.2⟩⟩

/-- A function writing its variable twice, beside a register. -/
def writtenTwice (reg : String) : List Item :=
  [.op (.op "nsl.reg" (some reg) [.source 1] [] []),
    .func "f" [.variable (.source 0) "v", .transfer false (.source 0) (.source 1),
      .transfer false (.source 0) (.source 1)]]

theorem verified_writtenTwice (reg : String) : Verified (writtenTwice reg) where
  visible := by
    simp [writtenTwice, Visible, ScopedItems, ScopedOp, ScopedOps, bind, Op.results]
  nodup := by
    have hdefs : definedItems (writtenTwice reg) = [.source 1, .source 0] := rfl
    rw [hdefs]
    decide
  source x hx := by
    have : x = .source 1 ∨ x = .source 0 := by
      simpa [writtenTwice, definedItems, definedItem, definedOps, definedOp] using hx
    obtain rfl | rfl := this
    · exact ⟨1, rfl⟩
    · exact ⟨0, rfl⟩

/-- A register `r`, and a proc that calls itself from its state `s`. -/
theorem freshNames_writtenTwice :
    ∃ out, lowerNSLProcsToFSMMachines (oneStateUnit [.call "p", .goto "s"]) = .ok out ∧
      FreshNames [writtenTwice "r"] out := by
  have hlower : lowerNSLProcsToFSMMachines (oneStateUnit [.call "p", .goto "s"]) = .ok
      ⟨[⟨"p", "s", [⟨"s", ["p_initial_state", "s"]⟩, ⟨"p_initial_state", []⟩]⟩], []⟩ := by rfl
  have hv : ∀ m ∈ [writtenTwice "r"], Verified m ∧ (declaredNames m).Nodup := by
    intro m hm
    obtain rfl := List.mem_singleton.1 hm
    exact ⟨verified_writtenTwice "r", by decide⟩
  refine ⟨_, hlower, (freshNames_iff _ _ _ hv (by decide) hlower).2 ⟨fun m hm => ?_, fun p hp => ?_⟩⟩
  · obtain rfl := List.mem_singleton.1 hm
    intro x hx k hk
    obtain rfl : x = ("v", [1]) := List.mem_singleton.1 hx
    obtain rfl : k = 1 := List.mem_singleton.1 hk
    decide
  · obtain rfl := List.mem_singleton.1 hp
    refine ⟨fun callee hcall _ => ?_, fun hfinish => ?_⟩
    · obtain rfl : callee = "p" := by
        simpa [ProcOp.actions, ProcOp.states, ProcBodyOp.state?] using hcall
      decide
    · simp [ProcOp.actions, ProcOp.states, ProcBodyOp.state?] at hfinish

/-- The wire of the second version meets the register `v_1`. -/
theorem not_freshNames_writtenTwice :
    Verified (writtenTwice "v_1") ∧ (declaredNames (writtenTwice "v_1")).Nodup ∧
      lowerNSLProcsToFSMMachines [] = .ok ⟨[], []⟩ ∧
      ¬ FreshNames [writtenTwice "v_1"] ⟨[], []⟩ := by
  refine ⟨verified_writtenTwice _, by decide, rfl, fun h => ?_⟩
  have hmeets : ¬ (declaredNames (writtenTwice "v_1") ++
      inventedNames (structuralPasses (writtenTwice "v_1"))).Nodup := by decide
  exact hmeets (h.modules _ (by simp))

end Variables

end Nslc
