import Mathlib.Data.List.Induction
import Mathlib.Data.List.Pairwise
import Nslc.Lower.Visible
/-!
# Variables in sequence, wires at once

A variable of a function is assigned again and again; its wires have one
value each. A run of the function is a list of steps, one for each op on
a path through its `nsl.if`s and `nsl.alt`s, and a wire has the value of
the last transfer into it on that path, whether it comes before or after
the op that reads the wire. `keepsSequence_iff` says when a reader finds
in its wire what the variable had at that point.
-/

namespace Nslc

namespace Variables

/-! ## Steps -/

/-- An op on a path, or the way a condition goes. -/
inductive Step where
  | eval (results operands : List Value)
  | transfer (direct : Bool) (dst src : Value)
  | test (cond : Value) (holds : Bool)
  deriving DecidableEq, Repr

namespace Step

def reads : Step → List Value
  | eval _ operands => operands
  | transfer _ _ src => [src]
  | test cond _ => [cond]

def writes? : Step → Option Value
  | transfer _ dst _ => some dst
  | eval _ _ | test _ _ => none

/-- The op stands directly in the function. -/
def isDirect : Step → Bool
  | transfer direct _ _ => direct
  | eval _ _ | test _ _ => false

end Step

/-- One path behind another. -/
def seqPaths (as bs : List (List Step)) : List (List Step) :=
  as.flatMap fun p => bs.map (p ++ ·)

mutual

/-- The paths through an op. An op that has a region and is no `nsl.if` or
`nsl.alt` has none: what it does is not a sequence of steps. -/
def pathsOp (direct : Bool) (o : Op) : List (List Step) :=
  match o with
  | .variable _ _ | .wire _ _ => [[]]
  | .transfer _ dst src => [[.transfer direct dst src]]
  | .ifOp cond thenBody elseBody =>
    (pathsOps false thenBody).map (.test cond true :: ·) ++
      (pathsOps false elseBody).map (.test cond false :: ·)
  | .op mnemonic _ results operands body =>
    if mnemonic = "nsl.alt" then casePaths body
    else if body.isEmpty then [[.eval results operands]]
    else []

def pathsOps (direct : Bool) (os : List Op) : List (List Step) :=
  match os with
  | [] => [[]]
  | o :: os => seqPaths (pathsOp direct o) (pathsOps direct os)

/-- The children of an `nsl.alt`: the first case whose condition holds, or
the default, which has none. -/
def casePaths (os : List Op) : List (List Step) :=
  match os with
  | [] => [[]]
  | .op _ _ _ (cond :: _) body :: os =>
    (pathsOps false body).map (.test cond true :: ·) ++
      (casePaths os).map (.test cond false :: ·)
  | .op _ _ _ [] body :: os => seqPaths (pathsOps false body) (casePaths os)
  | .variable _ _ :: os | .wire _ _ :: os | .transfer _ _ _ :: os | .ifOp _ _ _ :: os =>
    casePaths os

end

/-! ## Sequential runs -/

/-- A meaning of the ops: what each result is of the operands, and which
values a condition holds at. -/
structure Interp (α : Type) where
  value : Value → List α → α
  truth : α → Bool

section Runs

variable {α : Type} (I : Interp α) (vars : List Value) (A : Value → α)

/-- The value of an operand: that of the moment for a variable, and the
only one there is for anything else. -/
def read (σ : Value → α) (x : Value) : α := if x ∈ vars then σ x else A x

/-- The variables after a step. -/
def after (σ : Value → α) : Step → Value → α
  | .transfer _ dst src => Function.update σ dst (read vars A σ src)
  | .eval _ _ | .test _ _ => σ

/-- **A sequential run**: every op computes its results of what it reads,
every condition goes the way it holds. -/
def Runs (σ : Value → α) : List Step → Prop
  | [] => True
  | .eval results operands :: π =>
    (∀ r ∈ results, A r = I.value r (operands.map (read vars A σ))) ∧
      Runs (after vars A σ (.eval results operands)) π
  | .transfer direct dst src :: π => Runs (after vars A σ (.transfer direct dst src)) π
  | .test cond holds :: π =>
    I.truth (read vars A σ cond) = holds ∧ Runs (after vars A σ (.test cond holds)) π

/-- What the steps read, in order. -/
def readings (σ : Value → α) : List Step → List (List α)
  | [] => []
  | s :: π => s.reads.map (read vars A σ) :: readings (after vars A σ s) π

end Runs

/-! ## Wires with one value -/

/-- The sources of the transfers into `w`. -/
def drivers (w : Value) (π : List Step) : List Value :=
  π.filterMap fun s =>
    match s with
    | .transfer _ dst src => if dst = w then some src else none
    | .eval _ _ | .test _ _ => none

/-- **A concurrent run**: every value is the only one there is, and the
wires of the variables have the value of the last transfer into them. -/
structure Settled {α : Type} (I : Interp α) (vars : List Value) (A : Value → α) (π : List Step) :
    Prop where
  evals : ∀ results operands, .eval results operands ∈ π →
    ∀ r ∈ results, A r = I.value r (operands.map A)
  tests : ∀ cond holds, .test cond holds ∈ π → I.truth (A cond) = holds
  wires : ∀ v ∈ vars, ∀ w, Family v w → ∀ x, (drivers w π).getLast? = some x → A w = A x

/-- Which step is the last to write `w`, with the steps counted from `i`. -/
def lastWriter (w : Value) (i : ℕ) : List Step → Option ℕ
  | [] => none
  | s :: π => (lastWriter w (i + 1) π).or (if s.writes? = some w then some i else none)

/-- Where a step reads `v`, the run `π'` has a wire in the place of it, and
the last transfer into that wire is the last write of `v` before the
step. -/
def SeesLastWrite (v : Value) (π π' : List Step) : Prop :=
  ∀ (p : ℕ) s s' w, π[p]? = some s → π'[p]? = some s' → (v, w) ∈ s.reads.zip s'.reads →
    lastWriter w 0 π' = lastWriter v 0 (π.take p)

/-- **Sequential meaning is preserved**: path by path every reader sees
the last write before it, and wherever the wires settle, the function
runs in sequence with the same values read. -/
structure KeepsSequence (vars : List Value) (body body' : List Op) : Prop where
  writes : List.Forall₂ (fun π π' => ∀ v ∈ vars, SeesLastWrite v π π')
    (pathsOps true body) (pathsOps true body')
  values : ∀ (α : Type) (I : Interp α) (A : Value → α),
    List.Forall₂ (fun π π' => Settled I vars A π' →
      Runs I vars A A π ∧ readings vars A A π = π'.map fun s => s.reads.map A)
      (pathsOps true body) (pathsOps true body')

/-! ## What goes wrong -/

/-- The next write of `v`, if any, stands directly in the function. -/
def NextDirect (v : Value) : List Step → Prop
  | [] => True
  | s :: π => if s.writes? = some v then s.isDirect = true else NextDirect v π

/-- No step that reads `v` writes it, and the next write behind it stands
directly in the function. -/
def WritesApart (v : Value) : List Step → Prop
  | [] => True
  | s :: π => (v ∈ s.reads → s.writes? ≠ some v ∧ NextDirect v π) ∧ WritesApart v π

/-! ## The run of the output -/

def Step.rename (f : Value → Value) : Step → Step
  | .eval results operands => .eval results (operands.map f)
  | .transfer direct dst src => .transfer direct (f dst) (f src)
  | .test cond holds => .test (f cond) holds

/-- The current version of every variable, where `versions` counts those
of each so far. -/
def remapAll (vars : List Value) (versions : Value → ℕ) (x : Value) : Value :=
  if x ∈ vars then currentValue x (versions x) else x

def count (versions : Value → ℕ) (v : Value) : Value → ℕ :=
  Function.update versions v (versions v + 1)

/-- The steps of the output on the same path. -/
def versioned (vars : List Value) (versions : Value → ℕ) : List Step → List Step
  | [] => []
  | .transfer direct dst src :: π =>
    if dst ∈ vars ∧ direct = true then
      .transfer direct (.version dst (versions dst)) (remapAll vars (count versions dst) src) ::
        versioned vars (count versions dst) π
    else .transfer direct (remapAll vars versions dst) (remapAll vars versions src) ::
      versioned vars versions π
  | .eval results operands :: π =>
    .eval results (operands.map (remapAll vars versions)) :: versioned vars versions π
  | .test cond holds :: π =>
    .test (remapAll vars versions cond) holds :: versioned vars versions π

section Paths

variable {v : Value} {baseName : String}

theorem map_seqPaths {f g h : List Step → List Step} (as bs : List (List Step))
    (hf : ∀ p ∈ as, ∀ q, f (p ++ q) = g p ++ h q) :
    (seqPaths as bs).map f = seqPaths (as.map g) (bs.map h) := by
  rw [seqPaths, List.map_flatMap, seqPaths, List.flatMap_map]
  refine List.flatMap_congr fun p hp => ?_
  rw [List.map_map, List.map_map]
  exact List.map_congr_left fun q _ => hf p hp q

theorem seqPaths_nil_left (bs : List (List Step)) : seqPaths [[]] bs = bs := by
  simp [seqPaths]

theorem seqPaths_map_rename (f : Value → Value) (as bs : List (List Step)) :
    (seqPaths as bs).map (List.map (Step.rename f)) =
      seqPaths (as.map (List.map (Step.rename f))) (bs.map (List.map (Step.rename f))) :=
  map_seqPaths as bs fun _ _ _ => List.map_append

mutual

theorem pathsOp_rewire (k : ℕ) (direct : Bool) (o : Op) :
    pathsOp direct (rewireOp v k o) =
      (pathsOp direct o).map (List.map (Step.rename (remap v k))) := by
  match o with
  | .variable _ _ | .wire _ _ | .transfer _ _ _ => rfl
  | .ifOp cond t e =>
    simp only [rewireOp, pathsOp, pathsOps_rewire k false t, pathsOps_rewire k false e,
      List.map_append, List.map_map]
    rfl
  | .op mnemonic _ results operands body =>
    have hempty : (rewireOps v k body).isEmpty = body.isEmpty := by cases body <;> rfl
    simp only [rewireOp, pathsOp, casePaths_rewire k body, hempty]
    split
    · rfl
    · split
      · rfl
      · rfl

theorem pathsOps_rewire (k : ℕ) (direct : Bool) (os : List Op) :
    pathsOps direct (rewireOps v k os) =
      (pathsOps direct os).map (List.map (Step.rename (remap v k))) := by
  match os with
  | [] => rfl
  | o :: os =>
    simp only [rewireOps, pathsOps, pathsOp_rewire k direct o, pathsOps_rewire k direct os,
      seqPaths_map_rename]

theorem casePaths_rewire (k : ℕ) (os : List Op) :
    casePaths (rewireOps v k os) = (casePaths os).map (List.map (Step.rename (remap v k))) := by
  match os with
  | [] => rfl
  | .op _ _ _ (cond :: _) body :: os =>
    simp only [rewireOps, rewireOp, casePaths, List.map_cons, pathsOps_rewire k false body,
      casePaths_rewire k os, List.map_append, List.map_map]
    rfl
  | .op _ _ _ [] body :: os =>
    simp only [rewireOps, rewireOp, casePaths, List.map_nil, pathsOps_rewire k false body,
      casePaths_rewire k os, seqPaths_map_rename]
  | .variable _ _ :: os | .wire _ _ :: os | .transfer _ _ _ :: os | .ifOp _ _ _ :: os =>
    simp only [rewireOps, rewireOp, casePaths, casePaths_rewire k os]

end

theorem mem_seqPaths {P : Step → Prop} {as bs : List (List Step)}
    (ha : ∀ π ∈ as, ∀ s ∈ π, P s) (hb : ∀ π ∈ bs, ∀ s ∈ π, P s) :
    ∀ π ∈ seqPaths as bs, ∀ s ∈ π, P s := by
  intro π hπ s hs
  obtain ⟨p, hp, hq⟩ := List.mem_flatMap.1 hπ
  obtain ⟨q, hmem, rfl⟩ := List.mem_map.1 hq
  exact (List.mem_append.1 hs).elim (ha p hp s) (hb q hmem s)

theorem mem_cons_paths {P : Step → Prop} {as : List (List Step)} {t : Step} (ht : P t)
    (ha : ∀ π ∈ as, ∀ s ∈ π, P s) : ∀ π ∈ as.map (t :: ·), ∀ s ∈ π, P s := by
  intro π hπ s hs
  obtain ⟨p, hp, rfl⟩ := List.mem_map.1 hπ
  obtain rfl | hs := List.mem_cons.1 hs
  · exact ht
  · exact ha p hp s hs

mutual

theorem pathsOp_nested (o : Op) : ∀ π ∈ pathsOp false o, ∀ s ∈ π, s.isDirect = false := by
  match o with
  | .variable _ _ | .wire _ _ => simp [pathsOp]
  | .transfer _ _ _ => simp [pathsOp, Step.isDirect]
  | .ifOp cond t e =>
    intro π hπ
    obtain hπ | hπ := List.mem_append.1 hπ
    · exact mem_cons_paths (P := fun s => s.isDirect = false) rfl (pathsOps_nested t) π hπ
    · exact mem_cons_paths (P := fun s => s.isDirect = false) rfl (pathsOps_nested e) π hπ
  | .op mnemonic _ _ _ body =>
    intro π hπ
    rw [pathsOp] at hπ
    split at hπ
    · exact casePaths_nested body π hπ
    · split at hπ
      · obtain rfl := List.mem_singleton.1 hπ
        simp [Step.isDirect]
      · cases hπ

theorem pathsOps_nested (os : List Op) : ∀ π ∈ pathsOps false os, ∀ s ∈ π, s.isDirect = false := by
  match os with
  | [] => simp [pathsOps]
  | o :: os => exact mem_seqPaths (pathsOp_nested o) (pathsOps_nested os)

theorem casePaths_nested (os : List Op) : ∀ π ∈ casePaths os, ∀ s ∈ π, s.isDirect = false := by
  match os with
  | [] => simp [casePaths]
  | .op _ _ _ (cond :: _) body :: os =>
    intro π hπ
    obtain hπ | hπ := List.mem_append.1 hπ
    · exact mem_cons_paths (P := fun s => s.isDirect = false) rfl (pathsOps_nested body) π hπ
    · exact mem_cons_paths (P := fun s => s.isDirect = false) rfl (casePaths_nested os) π hπ
  | .op _ _ _ [] body :: os => exact mem_seqPaths (pathsOps_nested body) (casePaths_nested os)
  | .variable _ _ :: os | .wire _ _ :: os | .transfer _ _ _ :: os | .ifOp _ _ _ :: os =>
    exact casePaths_nested os

end

/-- An op that gets no wire writes the variable nowhere directly. -/
theorem pathsOp_not_versions {o : Op} (h : ¬ Versions v true o) :
    ∀ π ∈ pathsOp true o, ∀ s ∈ π, s.isDirect = true → s.writes? ≠ some v := by
  have hnested : ∀ o', pathsOp true o' = pathsOp false o' →
      ∀ π ∈ pathsOp true o', ∀ s ∈ π, s.isDirect = true → s.writes? ≠ some v := by
    intro o' heq π hπ s hs hd
    rw [heq] at hπ
    rw [pathsOp_nested o' π hπ s hs] at hd
    cases hd
  cases o with
  | transfer clocked dst src =>
    intro π hπ s hs _ hw
    obtain rfl := List.mem_singleton.1 hπ
    obtain rfl := List.mem_singleton.1 hs
    exact h ⟨rfl, clocked, src, by rw [Option.some.inj hw]⟩
  | _ => exact hnested _ rfl

theorem remapAll_single (versions : Value → ℕ) (x : Value) :
    remapAll [v] versions x = remap v (versions v) x := by
  by_cases hx : x = v
  · subst hx
    simp [remapAll, remap]
  · simp [remapAll, remap, hx]

/-- Steps without a wire are rewired as they are. -/
theorem versioned_append (versions : Value → ℕ) (π ρ : List Step)
    (h : ∀ s ∈ π, s.isDirect = true → s.writes? ≠ some v) :
    versioned [v] versions (π ++ ρ) =
      π.map (Step.rename (remap v (versions v))) ++ versioned [v] versions ρ := by
  induction π with
  | nil => rfl
  | cons s π ih =>
    have hrest := ih fun t ht => h t (by simp [ht])
    cases s with
    | eval results operands =>
      have hmap : operands.map (remapAll [v] versions) =
          operands.map (remap v (versions v)) :=
        List.map_congr_left fun x _ => remapAll_single versions x
      simp only [List.cons_append, versioned, hrest, List.map_cons, Step.rename, hmap]
    | transfer direct dst src =>
      have hno : ¬ (dst ∈ [v] ∧ direct = true) := fun hd =>
        h (.transfer direct dst src) (by simp) hd.2 (congrArg some (List.mem_singleton.1 hd.1))
      simp only [List.cons_append, versioned, hrest, List.map_cons, Step.rename, remapAll_single,
        if_neg hno]
    | test cond holds =>
      simp only [List.cons_append, versioned, hrest, List.map_cons, Step.rename,
        remapAll_single]

theorem versioned_congr {vars : List Value} {m n : Value → ℕ} (h : ∀ v ∈ vars, m v = n v)
    (π : List Step) : versioned vars m π = versioned vars n π := by
  have hremap : ∀ {m n : Value → ℕ}, (∀ v ∈ vars, m v = n v) → ∀ x,
      remapAll vars m x = remapAll vars n x := fun {m n} h x => by
    rw [remapAll, remapAll]
    split
    · rw [h x ‹_›]
    · rfl
  induction π generalizing m n with
  | nil => rfl
  | cons s π ih =>
    cases s with
    | eval =>
      rw [versioned, versioned, ih h, List.map_congr_left fun x _ => hremap h x]
    | test => simp only [versioned, ih h, hremap h]
    | transfer direct dst src =>
      have hcount : ∀ v ∈ vars, count m dst v = count n dst v := fun v hv => by
        by_cases hd : v = dst
        · subst hd
          simp [count, h v hv]
        · simp [count, hd, h v hv]
      simp only [versioned]
      split
      · rename_i hd
        rw [h dst hd.1, ih hcount, hremap hcount]
      · rw [ih h, hremap h, hremap h]

/-- **The paths of the output are those of the input**, with the wires. -/
theorem pathsOps_visit (k : ℕ) (os : List Op) :
    pathsOps true (visitOps v baseName true k os).1 =
      (pathsOps true os).map (versioned [v] fun _ => k) := by
  induction os generalizing k with
  | nil => rfl
  | cons o os ih =>
    by_cases hv : Versions v true o
    · obtain ⟨-, clocked, src, rfl⟩ := hv
      simp only [visitOps, visitOp_versions, List.cons_append, List.nil_append, pathsOps, pathsOp,
        seqPaths_nil_left, ih]
      rw [map_seqPaths (g := fun _ => [.transfer true (.version v k) (remap v (k + 1) src)])
        (h := versioned [v] fun _ => k + 1)]
      · rfl
      · intro p hp q
        obtain rfl := List.mem_singleton.1 hp
        have hcount : ∀ u ∈ [v], count (fun _ => k) v u = (fun _ => k + 1) u := fun u hu => by
          obtain rfl := List.mem_singleton.1 hu
          simp [count]
        simp only [List.cons_append, List.nil_append, versioned, List.mem_singleton, and_self,
          if_true, remapAll_single]
        rw [versioned_congr hcount]
        simp [count]
    · simp only [visitOps, visitOp_eq_rewire k o hv, List.cons_append, List.nil_append, pathsOps,
        pathsOp_rewire, ih]
      refine (map_seqPaths _ _ fun p hp q => ?_).symm
      exact versioned_append _ p q (pathsOp_not_versions hv p hp)

theorem pathsOps_filter (os : List Op) :
    pathsOps true (os.filter fun o => !o.isVariable v) = pathsOps true os := by
  induction os with
  | nil => rfl
  | cons o os ih =>
    cases ho : o.isVariable v with
    | true =>
      obtain ⟨name, rfl⟩ := isVariable_iff.1 ho
      rw [List.filter_cons_of_neg (by simp [ho]), ih, pathsOps, pathsOp, seqPaths_nil_left]
    | false => rw [List.filter_cons_of_pos (by simp [ho]), pathsOps, pathsOps, ih]

theorem pathsOps_expandInFunc (body : List Op) :
    pathsOps true (expandInFunc v baseName body) =
      (pathsOps true body).map (versioned [v] fun _ => 0) := by
  rw [expandInFunc]
  split
  · rw [pathsOps_filter, pathsOps_visit]
  · exact pathsOps_visit 0 body

end Paths

/-! ## All variables of a function -/

section Fold

variable {v : Value} {vs : List Value}

theorem currentValue_notMem (hv : v ∉ vs) (hver : ∀ j, .version v j ∉ vs) (k : ℕ) :
    currentValue v k ∉ vs := by
  cases k with
  | zero => exact hv
  | succ k => exact hver k

theorem remapAll_cons (hv : v ∉ vs) (hver : ∀ j, .version v j ∉ vs) (versions : Value → ℕ)
    (x : Value) :
    remapAll (v :: vs) versions x = remapAll vs versions (remapAll [v] versions x) := by
  by_cases hx : x = v
  · subst hx
    have hone : remapAll [x] versions x = currentValue x (versions x) := by simp [remapAll]
    rw [hone, remapAll, remapAll, if_pos List.mem_cons_self,
      if_neg (currentValue_notMem hv hver _)]
  · have hone : remapAll [v] versions x = x := by simp [remapAll, hx]
    rw [hone, remapAll, remapAll]
    simp [hx]

/-- **One variable after the other, or all of them at once.** -/
theorem versioned_cons (hv : v ∉ vs) (hver : ∀ j, .version v j ∉ vs) (versions : Value → ℕ)
    (π : List Step) :
    versioned (v :: vs) versions π = versioned vs versions (versioned [v] versions π) := by
  induction π generalizing versions with
  | nil => rfl
  | cons s π ih =>
    cases s with
    | eval results operands =>
      simp only [versioned, ih, List.map_map]
      rw [List.map_congr_left fun x _ => remapAll_cons hv hver versions x]
      rfl
    | test cond holds => simp only [versioned, ih, remapAll_cons hv hver]
    | transfer direct dst src =>
      by_cases hd : dst = v ∧ direct = true
      · obtain ⟨rfl, rfl⟩ := hd
        have hsame : ∀ u ∈ vs, count versions dst u = versions u := fun u hu => by
          have hne : u ≠ dst := fun he => hv (he ▸ hu)
          simp [count, hne]
        have hsrc : remapAll vs versions = remapAll vs (count versions dst) := funext fun x => by
          rw [remapAll, remapAll]
          split
          · rw [hsame x ‹_›]
          · rfl
        have hwire : remapAll vs versions (.version dst (versions dst)) =
            .version dst (versions dst) := if_neg (hver _)
        simp only [versioned, List.mem_cons, true_or, and_self, if_true, hver, false_and, if_false,
          ih, remapAll_cons hv hver, hwire]
        rw [hsrc, versioned_congr hsame]
      · have hone : ¬ (dst ∈ [v] ∧ direct = true) := fun h => hd ⟨List.mem_singleton.1 h.1, h.2⟩
        by_cases hdst : dst ∈ vs ∧ direct = true
        · have hne : dst ≠ v := fun he => hv (he ▸ hdst.1)
          have hmem : dst ∈ v :: vs ∧ direct = true := ⟨List.mem_cons_of_mem v hdst.1, hdst.2⟩
          have hkeep : remapAll [v] versions dst = dst := by simp [remapAll, hne]
          have hcount : ∀ u ∈ [v], count versions dst u = versions u := fun u hu => by
            obtain rfl := List.mem_singleton.1 hu
            simp [count, Ne.symm hne]
          have hsrc : remapAll [v] versions src = remapAll [v] (count versions dst) src := by
            rw [remapAll_single, remapAll_single, hcount v List.mem_cons_self]
          simp only [versioned, if_neg hone, if_pos hmem, hkeep, if_pos hdst, ih,
            remapAll_cons hv hver, hsrc]
          rw [versioned_congr hcount]
        · have hmem : ¬ (dst ∈ v :: vs ∧ direct = true) := by
            rintro ⟨hm, hdir⟩
            obtain rfl | hm := List.mem_cons.1 hm
            · exact hd ⟨rfl, hdir⟩
            · exact hdst ⟨hm, hdir⟩
          have hout : ¬ (remapAll [v] versions dst ∈ vs ∧ direct = true) := by
            rintro ⟨hm, hdir⟩
            have hne : dst ≠ v := fun he => hd ⟨he, hdir⟩
            exact hdst ⟨by simpa [remapAll, hne] using hm, hdir⟩
          simp only [versioned, if_neg hone, if_neg hmem, if_neg hout, ih, remapAll_cons hv hver]

theorem versioned_nil (versions : Value → ℕ) (π : List Step) : versioned [] versions π = π := by
  induction π generalizing versions with
  | nil => rfl
  | cons s π ih =>
    have hid : remapAll [] versions = id := funext fun x => by simp [remapAll]
    cases s <;> simp [versioned, hid, ih]

end Fold

/-! ## Which write a reader sees -/

/-- All values of a run come from the source. -/
def FromSource (π : List Step) : Prop :=
  ∀ s ∈ π, (∀ x ∈ s.reads, ∃ n, x = .source n) ∧ ∀ x ∈ s.writes?, ∃ n, x = .source n

section Writers

variable {vars : List Value} {v w : Value}

theorem currentValue_inj {u : Value} (hv : ∃ n, v = .source n) (hu : ∃ n, u = .source n)
    {j k : ℕ} (h : currentValue v j = currentValue u k) : v = u ∧ j = k := by
  obtain ⟨a, rfl⟩ := hv
  obtain ⟨b, rfl⟩ := hu
  cases j <;> cases k <;> simp_all [currentValue]

theorem lastWriter_append (i : ℕ) (π ρ : List Step) :
    lastWriter w i (π ++ ρ) = (lastWriter w (i + π.length) ρ).or (lastWriter w i π) := by
  induction π generalizing i with
  | nil => simp [lastWriter]
  | cons s π ih =>
    have hlen : i + 1 + π.length = i + (s :: π).length := by
      rw [List.length_cons]
      omega
    rw [List.cons_append, lastWriter, ih, lastWriter, hlen, Option.or_assoc]

theorem lastWriter_bounds {i q : ℕ} {π : List Step} (h : lastWriter w i π = some q) :
    i ≤ q ∧ q < i + π.length := by
  induction π generalizing i q with
  | nil => cases h
  | cons s π ih =>
    rw [lastWriter] at h
    rw [List.length_cons]
    cases hrest : lastWriter w (i + 1) π with
    | some q' =>
      rw [hrest, Option.some_or, Option.some.injEq] at h
      have := ih hrest
      omega
    | none =>
      rw [hrest, Option.none_or] at h
      split at h
      · have := Option.some.inj h
        omega
      · cases h

theorem lastWriter_eq_none_iff {i : ℕ} {π : List Step} :
    lastWriter w i π = none ↔ ∀ s ∈ π, s.writes? ≠ some w := by
  induction π generalizing i with
  | nil => simp [lastWriter]
  | cons s π ih =>
    rw [lastWriter, Option.or_eq_none_iff, ih, List.forall_mem_cons, and_comm]
    refine and_congr_left fun _ => ?_
    split <;> simp_all

/-- The wire the step itself reads `v` from: a step that makes a wire for
`v` reads that one. -/
def versionAt (v : Value) (versions : Value → ℕ) (s : Step) : ℕ :=
  if s.writes? = some v ∧ s.isDirect = true then versions v + 1 else versions v

/-- The versions after a step. -/
def stepVersions (vars : List Value) (versions : Value → ℕ) : Step → Value → ℕ
  | .transfer direct dst _ =>
    if dst ∈ vars ∧ direct = true then count versions dst else versions
  | .eval _ _ | .test _ _ => versions

/-- The output step in the place of a step. -/
def versionedStep (vars : List Value) (versions : Value → ℕ) (s : Step) : Step :=
  match s with
  | .transfer direct dst src =>
    if dst ∈ vars ∧ direct = true then
      .transfer direct (.version dst (versions dst)) (remapAll vars (count versions dst) src)
    else .transfer direct (remapAll vars versions dst) (remapAll vars versions src)
  | .eval results operands => .eval results (operands.map (remapAll vars versions))
  | .test cond holds => .test (remapAll vars versions cond) holds

theorem versioned_step (versions : Value → ℕ) (s : Step) (π : List Step) :
    versioned vars versions (s :: π) =
      versionedStep vars versions s :: versioned vars (stepVersions vars versions s) π := by
  cases s with
  | eval => rfl
  | test => rfl
  | transfer direct dst src =>
    simp only [versioned, versionedStep, stepVersions]
    split <;> rfl

variable (vars) in
theorem reads_versionedStep (versions : Value → ℕ) (s : Step) :
    (versionedStep vars versions s).reads =
      s.reads.map (remapAll vars (stepVersions vars versions s)) := by
  cases s with
  | eval => rfl
  | test => rfl
  | transfer direct dst src =>
    simp only [versionedStep, stepVersions]
    split <;> rfl

theorem stepVersions_apply (hv : v ∈ vars) (versions : Value → ℕ) (s : Step) :
    stepVersions vars versions s v = versionAt v versions s := by
  cases s with
  | eval => simp [stepVersions, versionAt, Step.writes?]
  | test => simp [stepVersions, versionAt, Step.writes?]
  | transfer direct dst src =>
    by_cases hd : dst = v
    · subst hd
      by_cases hdir : direct = true
      · simp [stepVersions, versionAt, Step.writes?, Step.isDirect, hdir, hv, count]
      · simp [stepVersions, versionAt, Step.writes?, Step.isDirect, hdir]
    · have hne : v ≠ dst := fun he => hd he.symm
      simp only [stepVersions, versionAt, Step.writes?, Option.some.injEq, hd, false_and, if_false]
      split <;> simp [count, hne]

/-- What a step of the output writes. -/
theorem writes_versionedStep (versions : Value → ℕ) (s : Step) :
    (versionedStep vars versions s).writes? =
      s.writes?.map fun x => remapAll vars (stepVersions vars versions s) x := by
  cases s with
  | eval => rfl
  | test => rfl
  | transfer direct dst src =>
    by_cases hd : dst ∈ vars ∧ direct = true
    · simp [versionedStep, stepVersions, Step.writes?, hd, remapAll, count, currentValue]
    · simp [versionedStep, stepVersions, Step.writes?, hd]

theorem remapAll_eq_currentValue_iff (hvars : ∀ u ∈ vars, ∃ n, u = .source n) (hv : v ∈ vars)
    {x : Value} (hx : ∃ n, x = .source n) (versions : Value → ℕ) (j : ℕ) :
    remapAll vars versions x = currentValue v j ↔ x = v ∧ versions v = j := by
  rw [remapAll]
  split
  · constructor
    · intro h
      obtain ⟨rfl, hj⟩ := currentValue_inj hx (hvars v hv) h
      exact ⟨rfl, hj⟩
    · rintro ⟨rfl, rfl⟩
      rfl
  · rename_i hno
    refine iff_of_false (fun h => ?_) fun h => hno (h.1 ▸ hv)
    obtain ⟨rfl, -⟩ := currentValue_inj (j := 0) hx (hvars v hv) h
    exact hno hv

theorem le_versionAt (versions : Value → ℕ) (s : Step) : versions v ≤ versionAt v versions s := by
  rw [versionAt]
  split <;> omega

theorem versioned_append_steps (versions : Value → ℕ) (π ρ : List Step) :
    versioned vars versions (π ++ ρ) = versioned vars versions π ++
      versioned vars (π.foldl (stepVersions vars) versions) ρ := by
  induction π generalizing versions with
  | nil => rfl
  | cons s π ih => rw [List.cons_append, versioned_step, versioned_step, ih]; rfl

variable (vars) in
theorem length_versioned (versions : Value → ℕ) (π : List Step) :
    (versioned vars versions π).length = π.length := by
  induction π generalizing versions with
  | nil => rfl
  | cons s π ih => rw [versioned_step, List.length_cons, ih, List.length_cons]

theorem writesApart_iff (π : List Step) :
    WritesApart v π ↔ ∀ before s after, π = before ++ s :: after → v ∈ s.reads →
      s.writes? ≠ some v ∧ NextDirect v after := by
  induction π with
  | nil => simp [WritesApart]
  | cons s π ih =>
    rw [WritesApart, ih, forall_split_cons]

theorem seesLastWrite_iff_split (π π' : List Step) :
    SeesLastWrite v π π' ↔ ∀ before s after, π = before ++ s :: after → ∀ s' w,
      π'[before.length]? = some s' → (v, w) ∈ s.reads.zip s'.reads →
        lastWriter w 0 π' = lastWriter v 0 before := by
  constructor
  · rintro h before s after rfl s' w hs' hw
    have hsplit := h before.length s s' w (by simp) hs' hw
    rwa [List.take_left] at hsplit
  · intro h p s s' w hs hs' hw
    obtain ⟨hp, hget⟩ := List.getElem?_eq_some_iff.1 hs
    have hsplit : π = π.take p ++ s :: π.drop (p + 1) := by
      rw [← hget, ← List.drop_eq_getElem_cons hp, List.take_append_drop]
    have hlen : (π.take p).length = p := by
      rw [List.length_take]
      omega
    exact h _ s _ hsplit s' w (by rw [hlen]; exact hs') hw

theorem mem_zip_map {α β : Type} {f : α → β} {xs : List α} {x : α} {y : β} :
    (x, y) ∈ xs.zip (xs.map f) ↔ x ∈ xs ∧ y = f x := by
  have hzip : xs.zip (xs.map f) = xs.map fun a => (a, f a) := by
    induction xs with
    | nil => rfl
    | cons a xs ih => rw [List.map_cons, List.zip_cons_cons, ih, List.map_cons]
  rw [hzip, List.mem_map]
  constructor
  · rintro ⟨a, ha, he⟩
    obtain ⟨rfl, rfl⟩ := Prod.mk.inj he
    exact ⟨ha, rfl⟩
  · rintro ⟨hx, rfl⟩
    exact ⟨x, hx, rfl⟩

section OneVariable

variable (hvars : ∀ u ∈ vars, ∃ n, u = .source n) (hv : v ∈ vars)

include hvars hv

theorem writes_currentValue_iff (versions : Value → ℕ) {s : Step}
    (hs : ∀ x ∈ s.writes?, ∃ n, x = .source n) (j : ℕ) :
    (versionedStep vars versions s).writes? = some (currentValue v j) ↔
      s.writes? = some v ∧ versionAt v versions s = j := by
  rw [writes_versionedStep, ← stepVersions_apply hv]
  cases hw : s.writes? with
  | none => simp
  | some x =>
    rw [Option.map_some, Option.some.injEq, Option.some.injEq]
    exact remapAll_eq_currentValue_iff hvars hv (hs x hw) _ j

/-- Earlier versions are not written again. -/
theorem older_notWritten {j : ℕ} (versions : Value → ℕ) (π : List Step) (hπ : FromSource π)
    (hj : j < versions v) : ∀ t ∈ versioned vars versions π, t.writes? ≠ some (currentValue v j) := by
  induction π generalizing versions with
  | nil => simp [versioned]
  | cons s π ih =>
    have hle := le_versionAt versions s (v := v)
    rw [versioned_step, List.forall_mem_cons]
    refine ⟨fun h => ?_, ih _ (fun t ht => hπ t (by simp [ht])) ?_⟩
    · have := ((writes_currentValue_iff hvars hv versions (hπ s (by simp)).2 j).1 h).2
      omega
    · rw [stepVersions_apply hv]
      omega

/-- The current version is written again unless the next write makes a
wire of its own. -/
theorem current_notWritten_iff (versions : Value → ℕ) (π : List Step) (hπ : FromSource π) :
    (∀ t ∈ versioned vars versions π, t.writes? ≠ some (currentValue v (versions v))) ↔
      NextDirect v π := by
  induction π generalizing versions with
  | nil => simp [versioned, NextDirect]
  | cons s π ih =>
    have hrest : FromSource π := fun t ht => hπ t (by simp [ht])
    have hhead := writes_currentValue_iff hvars hv versions (hπ s (by simp)).2 (versions v)
    rw [versioned_step, List.forall_mem_cons, NextDirect, ne_eq, hhead]
    have hat := stepVersions_apply hv versions s
    split
    · rename_i hw
      cases hd : s.isDirect with
      | true =>
        have hnew : versionAt v versions s = versions v + 1 := by simp [versionAt, hw, hd]
        refine iff_of_true ⟨fun h => by omega, ?_⟩ rfl
        exact older_notWritten hvars hv _ π hrest (by omega)
      | false =>
        have hsame : versionAt v versions s = versions v := by simp [versionAt, hd]
        exact iff_of_false (fun h => h.1 ⟨hw, hsame⟩) (by simp)
    · rename_i hw
      have hsame : versionAt v versions s = versions v := by simp [versionAt, hw]
      rw [← ih (stepVersions vars versions s) hrest, hat, hsame]
      simp [hw]

/-- The last write so far is the last transfer into the current version. -/
theorem lastWriter_current (versions : Value → ℕ) (π : List Step) (hπ : FromSource π) :
    lastWriter (currentValue v (π.foldl (stepVersions vars) versions v)) 0
      (versioned vars versions π) = lastWriter v 0 π := by
  induction π using List.reverseRecOn with
  | nil => rfl
  | append_singleton π s ih =>
    have hbefore : FromSource π := fun t ht => hπ t (by simp [ht])
    set later := π.foldl (stepVersions vars) versions with hlater
    have hfold : (π ++ [s]).foldl (stepVersions vars) versions = stepVersions vars later s := by
      rw [List.foldl_append, ← hlater]
      rfl
    have hhead := writes_currentValue_iff hvars hv later (hπ s (by simp)).2 (versionAt v later s)
    rw [hfold, versioned_append_steps, lastWriter_append, lastWriter_append, ← hlater,
      stepVersions_apply hv, length_versioned]
    simp only [versioned_step, versioned, lastWriter, Option.none_or, hhead, and_true]
    by_cases hw : s.writes? = some v
    · simp [hw]
    · have hsame : versionAt v later s = later v := by simp [versionAt, hw]
      rw [if_neg hw, Option.none_or, Option.none_or, hsame, ih hbefore]

/-- **A reader sees the last write before it** exactly where it does not
write the variable itself and the next write makes a wire of its own. -/
theorem seesLastWrite_iff (versions : Value → ℕ) (π : List Step) (hπ : FromSource π) :
    SeesLastWrite v π (versioned vars versions π) ↔ WritesApart v π := by
  rw [seesLastWrite_iff_split, writesApart_iff]
  refine forall_congr' fun before => forall_congr' fun s => forall_congr' fun rest => ?_
  refine forall_congr' fun hsplit => ?_
  subst hsplit
  have hbefore : FromSource before := fun t ht => hπ t (by simp [ht])
  have hrest : FromSource rest := fun t ht => hπ t (by simp [ht])
  set later := before.foldl (stepVersions vars) versions with hlater
  have hout : versioned vars versions (before ++ s :: rest) = versioned vars versions before ++
      versionedStep vars later s :: versioned vars (stepVersions vars later s) rest := by
    rw [versioned_append_steps, versioned_step]
  have hlen := length_versioned vars versions before
  have hget : (versioned vars versions (before ++ s :: rest))[before.length]? =
      some (versionedStep vars later s) := by
    rw [hout, List.getElem?_append_right (by omega), hlen, Nat.sub_self, List.getElem?_cons_zero]
  have hat : stepVersions vars later s v = versionAt v later s := stepVersions_apply hv later s
  -- what the reader finds in the output, and when it is written from here on
  have hwire : remapAll vars (stepVersions vars later s) v =
      currentValue v (versionAt v later s) := by
    rw [remapAll, if_pos hv, hat]
  have hagain : lastWriter (currentValue v (versionAt v later s)) before.length
      (versionedStep vars later s :: versioned vars (stepVersions vars later s) rest) = none ↔
        s.writes? ≠ some v ∧ NextDirect v rest := by
    rw [lastWriter_eq_none_iff, List.forall_mem_cons, ne_eq,
      writes_currentValue_iff hvars hv later (hπ s (by simp)).2, ← hat,
      current_notWritten_iff hvars hv _ rest hrest]
    simp [hat]
  have hlast : lastWriter (currentValue v (versionAt v later s)) 0
      (versioned vars versions (before ++ s :: rest)) =
        (lastWriter (currentValue v (versionAt v later s)) before.length
          (versionedStep vars later s :: versioned vars (stepVersions vars later s) rest)).or
          (lastWriter (currentValue v (versionAt v later s)) 0 (versioned vars versions before)) := by
    rw [hout, lastWriter_append, hlen, Nat.zero_add]
  constructor
  · intro h hread
    have heq := h _ _ hget (by
      rw [reads_versionedStep]
      exact mem_zip_map.2 ⟨hread, rfl⟩)
    rw [hwire, hlast] at heq
    rw [← hagain]
    cases hnext : lastWriter (currentValue v (versionAt v later s)) before.length
      (versionedStep vars later s :: versioned vars (stepVersions vars later s) rest) with
    | none => rfl
    | some q =>
      rw [hnext, Option.some_or] at heq
      have hle := (lastWriter_bounds hnext).1
      have hlt := (lastWriter_bounds heq.symm).2
      omega
  · intro h s' w hs' hw
    obtain rfl := Option.some.inj (hget.symm.trans hs')
    rw [reads_versionedStep] at hw
    obtain ⟨hread, rfl⟩ := mem_zip_map.1 hw
    have hapart := h hread
    have hsame : versionAt v later s = later v := by simp [versionAt, hapart.1]
    rw [hwire, hlast, hagain.2 hapart, Option.none_or, hsame]
    exact lastWriter_current hvars hv versions before hbefore

end OneVariable

/-! ## What a reader reads -/

theorem drivers_cons (s : Step) (π : List Step) :
    drivers w (s :: π) = drivers w [s] ++ drivers w π := by
  rw [← List.singleton_append, drivers, List.filterMap_append]
  rfl

theorem drivers_single (direct : Bool) (src : Value) : drivers w [.transfer direct w src] = [src] := by
  simp [drivers]

theorem drivers_eq_nil_iff {π : List Step} :
    drivers w π = [] ↔ ∀ s ∈ π, s.writes? ≠ some w := by
  rw [drivers, List.filterMap_eq_nil_iff]
  refine forall₂_congr fun s _ => ?_
  cases s <;> simp [Step.writes?]

section Values

variable {α : Type} {I : Interp α} {A : Value → α}

theorem Settled.tail {s : Step} {π : List Step} (h : Settled I vars A (s :: π)) :
    Settled I vars A π where
  evals results operands hs := h.evals results operands (by simp [hs])
  tests cond holds hs := h.tests cond holds (by simp [hs])
  wires v hv w hw x hx := h.wires v hv w hw x (by
    rw [drivers_cons, List.getLast?_append, hx, Option.some_or])

theorem after_of_writes {σ : Value → α} {s : Step} (hs : s.writes? = some v) :
    ∃ x, s.reads = [x] ∧ after vars A σ s v = read vars A σ x := by
  cases s with
  | transfer direct dst src =>
    obtain rfl := Option.some.inj hs
    exact ⟨src, rfl, by simp [after]⟩
  | eval => cases hs
  | test => cases hs

theorem after_of_not_writes {σ : Value → α} {s : Step} (hs : s.writes? ≠ some v) :
    after vars A σ s v = σ v := by
  cases s with
  | transfer direct dst src =>
    have hne : v ≠ dst := fun he => hs (congrArg some he.symm)
    simp [after, hne]
  | eval => rfl
  | test => rfl

variable (hvars : ∀ u ∈ vars, ∃ n, u = .source n)

include hvars

/-- **Where the wires settle, the function runs in sequence**: a variable
that is not written again has the value of its wire. -/
theorem runs_of_settled (versions : Value → ℕ) (σ : Value → α) (π : List Step)
    (hπ : FromSource π) (hapart : ∀ v ∈ vars, WritesApart v π)
    (hset : Settled I vars A (versioned vars versions π))
    (hinv : ∀ v ∈ vars, drivers (currentValue v (versions v)) (versioned vars versions π) = [] →
      A (currentValue v (versions v)) = σ v) :
    Runs I vars A σ π ∧
      readings vars A σ π = (versioned vars versions π).map fun s => s.reads.map A := by
  induction π generalizing versions σ with
  | nil => exact ⟨trivial, rfl⟩
  | cons s π ih =>
    have hrest : FromSource π := fun t ht => hπ t (by simp [ht])
    rw [versioned_step] at hset hinv ⊢
    have hwrites := fun v (hv : v ∈ vars) =>
      writes_currentValue_iff hvars hv versions (hπ s (by simp)).2
    -- what the step reads
    have hread : ∀ x ∈ s.reads,
        read vars A σ x = A (remapAll vars (stepVersions vars versions s) x) := by
      intro x hx
      rw [read, remapAll]
      split
      · rename_i hv
        have hap := (hapart x hv).1 hx
        have hsame : versionAt x versions s = versions x := by simp [versionAt, hap.1]
        rw [stepVersions_apply hv, hsame]
        refine (hinv x hv (drivers_eq_nil_iff.2 ?_)).symm
        rw [List.forall_mem_cons, ne_eq, hwrites x hv]
        refine ⟨fun h => hap.1 h.1, ?_⟩
        have hnext := (current_notWritten_iff hvars hv (stepVersions vars versions s) π hrest).2 hap.2
        rwa [stepVersions_apply hv, hsame] at hnext
      · rfl
    have hreads : s.reads.map (read vars A σ) =
        (versionedStep vars versions s).reads.map A := by
      rw [reads_versionedStep, List.map_map]
      exact List.map_congr_left fun x hx => hread x hx
    have hrun := ih (stepVersions vars versions s) (after vars A σ s) hrest
      (fun v hv => (hapart v hv).2) hset.tail fun v hv hnil => by
        rw [stepVersions_apply hv] at hnil ⊢
        by_cases hw : s.writes? = some v
        · -- the step itself is the last transfer into the wire
          obtain ⟨x, hx, hval⟩ := after_of_writes (A := A) (σ := σ) hw
          rw [hval, hread x (by rw [hx]; exact List.mem_cons_self)]
          refine hset.wires v hv _ (family_currentValue v _) _ ?_
          have hout := (hwrites v hv _).2 ⟨hw, rfl⟩
          have hsrc := reads_versionedStep vars versions s
          rw [hx, List.map_cons, List.map_nil] at hsrc
          rw [drivers_cons, hnil, List.append_nil]
          cases hs : versionedStep vars versions s with
          | transfer direct dst src =>
            rw [hs] at hout hsrc
            obtain rfl := Option.some.inj hout
            rw [drivers_single, ← (List.cons.inj hsrc).1]
            rfl
          | eval => rw [hs] at hout; cases hout
          | test => rw [hs] at hout; cases hout
        · have hsame : versionAt v versions s = versions v := by simp [versionAt, hw]
          rw [hsame] at hnil ⊢
          rw [after_of_not_writes hw]
          refine hinv v hv ?_
          rw [drivers_cons, hnil, List.append_nil, drivers_eq_nil_iff, List.forall_mem_singleton,
            ne_eq, hwrites v hv]
          exact fun h => hw h.1
    refine ⟨?_, by rw [readings, List.map_cons, hreads, hrun.2]⟩
    cases s with
    | transfer => exact hrun.1
    | eval results operands =>
      refine ⟨fun r hr => ?_, hrun.1⟩
      have heval := hset.evals results _ List.mem_cons_self r hr
      rw [heval]
      exact congrArg _ hreads.symm
    | test cond holds =>
      refine ⟨?_, hrun.1⟩
      rw [hread cond List.mem_cons_self]
      exact hset.tests _ holds List.mem_cons_self

end Values

end Writers

/-! ## Functions of a module -/

def Item.func? : Item → Option (String × List Op)
  | .func symName body => some (symName, body)
  | .submodule _ _ _ _ | .op _ => none

/-- The functions, in order. -/
def funcs (m : List Item) : List (String × List Op) := m.filterMap Item.func?

/-- The variables of a function. -/
def variablesOf (body : List Op) : List Value := (body.filterMap Op.variable?).map Prod.fst

section Funcs

variable {v : Value} {baseName name : String} {body : List Op}

mutual

theorem rewireOp_unused {direct : Bool} (k : ℕ) (o : Op) (h : usesOp v direct o = []) :
    rewireOp v k o = o := by
  match o with
  | .variable _ _ | .wire _ _ => rfl
  | .transfer _ dst src =>
    have hdst : dst ≠ v := fun he => by simp [usesOp, he] at h
    have hsrc : src ≠ v := fun he => by simp [usesOp, he] at h
    rw [rewireOp, remap, remap, if_neg hdst, if_neg hsrc]
  | .ifOp cond t e =>
    simp only [usesOp, List.append_eq_nil_iff] at h
    have hcond : cond ≠ v := fun he => by simp [he] at h
    rw [rewireOp, rewireOps_unused k t h.1.1, rewireOps_unused k e h.1.2, remap, if_neg hcond]
  | .op _ _ _ operands body =>
    simp only [usesOp, List.append_eq_nil_iff, List.map_eq_nil_iff, List.filter_eq_nil_iff,
      decide_eq_true_eq] at h
    rw [rewireOp, rewireOps_unused k body h.1]
    congr 1
    exact (List.map_congr_left fun x hx => if_neg (h.2 x hx)).trans (List.map_id _)

theorem rewireOps_unused {direct : Bool} (k : ℕ) (os : List Op) (h : usesOps v direct os = []) :
    rewireOps v k os = os := by
  match os with
  | [] => rfl
  | o :: os =>
    obtain ⟨ho, hos⟩ := List.append_eq_nil_iff.1 h
    rw [rewireOps, rewireOp_unused k o ho, rewireOps_unused k os hos]

end

/-- A function that does not use the variable stays as it is. -/
theorem visitOps_unused (k : ℕ) (os : List Op) (h : usesOps v true os = []) :
    visitOps v baseName true k os = (os, k) := by
  induction os generalizing k with
  | nil => rfl
  | cons o os ih =>
    obtain ⟨ho, hos⟩ := List.append_eq_nil_iff.1 h
    have hno : ¬ Versions v true o := by
      rintro ⟨-, clocked, src, rfl⟩
      simp [usesOp] at ho
    rw [visitOps, visitOp_eq_rewire k o hno, rewireOp_unused k o ho, ih k hos]
    rfl

theorem funcs_append (as bs : List Item) : funcs (as ++ bs) = funcs as ++ funcs bs :=
  List.filterMap_append

theorem funcs_ops (os : List Op) : funcs (os.map .op) = [] := by
  rw [funcs, List.filterMap_eq_nil_iff]
  intro i hi
  obtain ⟨o, -, rfl⟩ := List.mem_map.1 hi
  rfl

theorem funcs_visit (j k : ℕ) (m : List Item) (h : (funcs m)[j]? = some (name, body))
    (hunused : usesOps v true body = []) :
    (funcs (visitItems v baseName k m).1)[j]? = some (name, body) := by
  induction m generalizing j k with
  | nil => cases h
  | cons i m ih =>
    rw [visitItems, funcs_append]
    cases i with
    | func name' body' =>
      cases j with
      | zero =>
        obtain ⟨rfl, rfl⟩ := Prod.mk.inj (Option.some.inj h)
        rw [visitItem, visitOps_unused k _ hunused]
        rfl
      | succ j => exact ih j _ h
    | submodule => exact ih j _ h
    | op o =>
      rw [visitItem, funcs_ops, List.nil_append]
      exact ih j _ h

theorem funcs_filter (m : List Item) : funcs (m.filter fun i => !i.isVariable v) = funcs m := by
  rw [funcs, funcs, List.filterMap_filter]
  refine List.filterMap_congr fun i _ => ?_
  cases i <;> simp [Item.isVariable, Item.func?]

variable (baseName) in
/-- What the expansion of a variable makes of a function that uses none of
the module's. -/
theorem funcs_expandOne {j : ℕ} {m : List Item} (h : (funcs m)[j]? = some (name, body))
    (hown : m.any (Item.isVariable v) = true → usesOps v true body = []) :
    (funcs (expandOne v baseName m))[j]? = some (name,
      if m.any (Item.isVariable v) = false ∧ body.any (Op.isVariable v) = true then
        expandInFunc v baseName body
      else body) := by
  rw [expandOne]
  split
  · rename_i hany
    rw [if_neg (by simp [hany]), expandInModule]
    split
    · rw [funcs_filter]
      exact funcs_visit j 0 m h (hown hany)
    · exact funcs_visit j 0 m h (hown hany)
  · rename_i hany
    have hmap : funcs (m.map (expandFunc v baseName)) = (funcs m).map fun f =>
        (f.1, if f.2.any (Op.isVariable v) then expandInFunc v baseName f.2 else f.2) := by
      clear h hown hany
      induction m with
      | nil => rfl
      | cons i m ih =>
        rw [funcs] at ih ⊢
        cases i with
        | func => simp only [List.map_cons, expandFunc, funcs, List.filterMap_cons, Item.func?, ih]
        | submodule => exact ih
        | op => exact ih
    rw [hmap, List.getElem?_map, h]
    simp [Bool.not_eq_true _ ▸ hany]

/-- Whether the variable is one of the function and none of the module. -/
def isOwn (m : List Item) (body : List Op) (v : Value) : Bool :=
  !m.any (Item.isVariable v) && body.any (Op.isVariable v)

/-- **A function behind all expansions** has the paths it had, with the
wires of its variables. -/
theorem paths_foldl (vs : List (Value × String)) (j : ℕ) (m : List Item) (body : List Op)
    (hin : (funcs m)[j]? = some (name, body)) (hnd : (vs.map Prod.fst).Nodup)
    (hsource : ∀ x ∈ vs, ∃ n, x.1 = .source n)
    (hown : ∀ x ∈ vs, m.any (Item.isVariable x.1) = true → usesOps x.1 true body = []) :
    ∃ body', (funcs (vs.foldl (fun m x => expandOne x.1 x.2 m) m))[j]? = some (name, body') ∧
      pathsOps true body' = (pathsOps true body).map
        (versioned ((vs.filter fun x => isOwn m body x.1).map Prod.fst) fun _ => 0) := by
  induction vs generalizing m body with
  | nil =>
    refine ⟨body, hin, ?_⟩
    rw [List.filter_nil, List.map_nil, List.map_congr_left fun π _ => versioned_nil _ π, List.map_id']
  | cons x vs ih =>
    have hstep := funcs_expandOne x.2 hin (hown x (by simp))
    have hne : ∀ y ∈ vs, y.1 ≠ x.1 := fun y hy he =>
      (List.nodup_cons.1 hnd).1 (List.mem_map.2 ⟨y, hy, he⟩)
    have hapart : ∀ y ∈ vs, ¬ Family x.1 y.1 := fun y hy hf => by
      obtain ⟨a, ha⟩ := hsource x (by simp)
      obtain ⟨b, hb⟩ := hsource y (by simp [hy])
      rw [ha, hb] at hf
      have hab := family_source hf (.inl rfl)
      exact hne y hy (by rw [ha, hb, hab])
    set body₁ := if m.any (Item.isVariable x.1) = false ∧ body.any (Op.isVariable x.1) = true then
      expandInFunc x.1 x.2 body else body with hbody
    have huses : ∀ y ∈ vs, usesOps y.1 true body₁ = usesOps y.1 true body := fun y hy => by
      rw [hbody]
      split
      · exact usesOps_expandInFunc (hapart y hy) body
      · rfl
    have hvars : ∀ y ∈ vs, isOwn (expandOne x.1 x.2 m) body₁ y.1 = isOwn m body y.1 := fun y hy => by
      have hany : body₁.any (Op.isVariable y.1) = body.any (Op.isVariable y.1) := by
        rw [hbody]
        split
        · exact any_isVariable_expandInFunc (hne y hy) body
        · rfl
      rw [isOwn, isOwn, any_isVariable_expandOne (hne y hy), hany]
    obtain ⟨body', hout, hpaths⟩ := ih (expandOne x.1 x.2 m) body₁ hstep
      (List.nodup_cons.1 hnd).2 (fun y hy => hsource y (by simp [hy])) fun y hy hany => by
        rw [any_isVariable_expandOne (hne y hy)] at hany
        rw [huses y hy, hown y (by simp [hy]) hany]
    refine ⟨body', hout, ?_⟩
    have hfilter : vs.filter (fun y => isOwn (expandOne x.1 x.2 m) body₁ y.1) =
        vs.filter fun y => isOwn m body y.1 := List.filter_congr fun y hy => hvars y hy
    rw [hpaths, hfilter]
    have hlater : ∀ w, Family x.1 w → w ∉ (vs.filter fun y => isOwn m body y.1).map Prod.fst := by
      intro w hw hmem
      obtain ⟨y, hy, rfl⟩ := List.mem_map.1 hmem
      exact hapart y (List.mem_of_mem_filter hy) hw
    cases howned : isOwn m body x.1 with
    | true =>
      rw [isOwn, Bool.and_eq_true, Bool.not_eq_true'] at howned
      have hb : body₁ = expandInFunc x.1 x.2 body := if_pos howned
      rw [List.filter_cons_of_pos (by simp [isOwn, howned]), List.map_cons, hb,
        pathsOps_expandInFunc, List.map_map]
      refine List.map_congr_left fun π _ => ?_
      exact (versioned_cons (hlater _ (.inl rfl)) (fun j => hlater _ (.inr ⟨j, rfl⟩)) _ π).symm
    | false =>
      have hb : body₁ = body := if_neg fun h => by simp [isOwn, h.1, h.2] at howned
      rw [List.filter_cons_of_neg (by simp [howned]), hb]

end Funcs

/-! ## Values of a verified module -/

/-- The step mentions values of the source only. -/
def Step.Source (s : Step) : Prop :=
  (∀ x ∈ s.reads, ∃ n, x = .source n) ∧ ∀ x ∈ s.writes?, ∃ n, x = .source n

section Source

variable {direct : Bool}

theorem bind_source {env : Value → Prop} (henv : ∀ x, env x → ∃ n, x = .source n)
    {rs : List Value} (hrs : ∀ x ∈ rs, ∃ n, x = .source n) :
    ∀ x, bind rs env x → ∃ n, x = .source n :=
  fun x hx => hx.elim (hrs x) (henv x)

theorem results_source {o : Op} (h : ∀ x ∈ definedOp o, ∃ n, x = .source n) :
    ∀ x ∈ o.results, ∃ n, x = .source n := by
  intro x hx
  refine h x ?_
  cases o <;> simp_all [definedOp, Op.results]

mutual

theorem source_pathsOp {env : Value → Prop} (henv : ∀ x, env x → ∃ n, x = .source n)
    (direct : Bool) (o : Op) (hin : ScopedOp (fun _ => True) env o)
    (hdef : ∀ x ∈ definedOp o, ∃ n, x = .source n) :
    ∀ π ∈ pathsOp direct o, ∀ s ∈ π, s.Source := by
  match o with
  | .variable _ _ | .wire _ _ => simp [pathsOp]
  | .transfer _ dst src =>
    intro π hπ s hs
    obtain rfl := List.mem_singleton.1 hπ
    obtain rfl := List.mem_singleton.1 hs
    refine ⟨fun x hx => ?_, fun x hx => ?_⟩
    · obtain rfl := List.mem_singleton.1 hx
      exact henv _ (hin.2 trivial)
    · obtain rfl := Option.some.inj hx
      exact henv _ (hin.1 trivial)
  | .ifOp cond t e =>
    have htest : ∀ b, (Step.test cond b).Source := fun b => ⟨fun x hx => by
      obtain rfl := List.mem_singleton.1 hx
      exact henv _ (hin.1 trivial), fun x hx => nomatch hx⟩
    intro π hπ
    obtain hπ | hπ := List.mem_append.1 hπ
    · exact mem_cons_paths (htest true) (source_pathsOps henv false t hin.2.1 fun x hx =>
        hdef x (by simp [definedOp, hx])) π hπ
    · exact mem_cons_paths (htest false) (source_pathsOps henv false e hin.2.2 fun x hx =>
        hdef x (by simp [definedOp, hx])) π hπ
  | .op mnemonic _ results operands body =>
    have hbody : ∀ x ∈ definedOps body, ∃ n, x = .source n := fun x hx =>
      hdef x (by simp [definedOp, hx])
    intro π hπ
    rw [pathsOp] at hπ
    split at hπ
    · exact source_casePaths henv body hin.2 hbody π hπ
    · split at hπ
      · intro s hs
        obtain rfl := List.mem_singleton.1 hπ
        obtain rfl := List.mem_singleton.1 hs
        exact ⟨fun x hx => henv x (hin.1 x hx trivial), fun x hx => nomatch hx⟩
      · cases hπ

theorem source_pathsOps {env : Value → Prop} (henv : ∀ x, env x → ∃ n, x = .source n)
    (direct : Bool) (os : List Op) (hin : ScopedOps (fun _ => True) env os)
    (hdef : ∀ x ∈ definedOps os, ∃ n, x = .source n) :
    ∀ π ∈ pathsOps direct os, ∀ s ∈ π, s.Source := by
  match os with
  | [] => simp [pathsOps]
  | o :: os =>
    have ho : ∀ x ∈ definedOp o, ∃ n, x = .source n := fun x hx => hdef x (by simp [definedOps, hx])
    exact mem_seqPaths (source_pathsOp henv direct o hin.1 ho)
      (source_pathsOps (bind_source henv (results_source ho)) direct os hin.2 fun x hx =>
        hdef x (by simp [definedOps, hx]))

theorem source_casePaths {env : Value → Prop} (henv : ∀ x, env x → ∃ n, x = .source n)
    (os : List Op) (hin : ScopedOps (fun _ => True) env os)
    (hdef : ∀ x ∈ definedOps os, ∃ n, x = .source n) :
    ∀ π ∈ casePaths os, ∀ s ∈ π, s.Source := by
  match os with
  | [] => simp [casePaths]
  | .op _ _ results (cond :: _) body :: os =>
    have htest : ∀ b, (Step.test cond b).Source := fun b => ⟨fun x hx => by
      obtain rfl := List.mem_singleton.1 hx
      exact henv _ (hin.1.1 _ List.mem_cons_self trivial), fun x hx => nomatch hx⟩
    have hres : ∀ x ∈ results, ∃ n, x = .source n := fun x hx =>
      hdef x (by simp [definedOps, definedOp, hx])
    intro π hπ
    obtain hπ | hπ := List.mem_append.1 hπ
    · exact mem_cons_paths (htest true) (source_pathsOps henv false body hin.1.2 fun x hx =>
        hdef x (by simp [definedOps, definedOp, hx])) π hπ
    · exact mem_cons_paths (htest false) (source_casePaths (bind_source henv hres) os hin.2
        fun x hx => hdef x (by simp [definedOps, hx])) π hπ
  | .op _ _ results [] body :: os =>
    have hres : ∀ x ∈ results, ∃ n, x = .source n := fun x hx =>
      hdef x (by simp [definedOps, definedOp, hx])
    exact mem_seqPaths (source_pathsOps henv false body hin.1.2 fun x hx =>
        hdef x (by simp [definedOps, definedOp, hx]))
      (source_casePaths (bind_source henv hres) os hin.2 fun x hx =>
        hdef x (by simp [definedOps, hx]))
  | .variable result _ :: os | .wire result _ :: os =>
    have hres : ∀ x ∈ [result], ∃ n, x = .source n := fun x hx =>
      hdef x (by
        rw [definedOps, definedOp]
        exact List.mem_append_left _ hx)
    exact source_casePaths (bind_source henv hres) os hin.2 fun x hx =>
      hdef x (by simp [definedOps, hx])
  | .transfer _ _ _ :: os | .ifOp _ _ _ :: os =>
    exact source_casePaths (bind_source henv (by simp [Op.results])) os hin.2 fun x hx =>
      hdef x (by simp [definedOps, hx])

end

/-- The paths of every function of a verified module. -/
theorem Verified.fromSource {m : List Item} (h : Verified m) {name : String} {body : List Op}
    (hf : .func name body ∈ m) : ∀ π ∈ pathsOps true body, FromSource π := by
  have hbody : ∀ (m : List Item) (env : Value → Prop), (∀ x, env x → ∃ n, x = .source n) →
      (∀ x ∈ definedItems m, ∃ n, x = .source n) → ScopedItems (fun _ => True) env m →
      .func name body ∈ m → ∀ π ∈ pathsOps true body, ∀ s ∈ π, s.Source := by
    intro m
    induction m with
    | nil => intro _ _ _ _ hf; cases hf
    | cons i m ih =>
      intro env henv hdef hin hf
      have hrest : ∀ x ∈ definedItems m, ∃ n, x = .source n := fun x hx =>
        hdef x (List.mem_append_right (definedItem i) hx)
      have hi : ∀ x ∈ definedItem i, ∃ n, x = .source n := fun x hx =>
        hdef x (List.mem_append_left (definedItems m) hx)
      cases i with
      | func name' body' =>
        obtain he | hf := List.mem_cons.1 hf
        · obtain ⟨rfl, rfl⟩ := Item.func.inj he
          exact source_pathsOps henv true _ hin.1 hi
        · exact ih env henv hrest hin.2 hf
      | submodule =>
        obtain he | hf := List.mem_cons.1 hf
        · cases he
        · exact ih env henv hrest hin hf
      | op o =>
        obtain he | hf := List.mem_cons.1 hf
        · cases he
        · exact ih _ (bind_source henv (results_source hi)) hrest hin.2 hf
  exact hbody m _ (fun x hx => hx.elim) h.source h.visible hf

end Source

theorem versioned_mem_congr {vars vars' : List Value} (h : ∀ x, x ∈ vars ↔ x ∈ vars')
    (versions : Value → ℕ) (π : List Step) :
    versioned vars versions π = versioned vars' versions π := by
  have hremap : ∀ versions, remapAll vars versions = remapAll vars' versions := fun versions =>
    funext fun x => by simp only [remapAll, h]
  induction π generalizing versions with
  | nil => rfl
  | cons s π ih => cases s <;> simp only [versioned, hremap, h, ih]

theorem mem_variablesOf {v : Value} {body : List Op} :
    v ∈ variablesOf body ↔ body.any (Op.isVariable v) = true := by
  refine ⟨fun h => ?_, any_isVariable_collected⟩
  obtain ⟨x, hx, rfl⟩ := List.mem_map.1 h
  obtain ⟨o, ho, hox⟩ := List.mem_filterMap.1 hx
  refine List.any_eq_true.2 ⟨o, ho, ?_⟩
  cases o with
  | «variable» result name =>
    obtain rfl := Option.some.inj hox
    simp [Op.isVariable]
  | _ => cases hox

/-- A variable of a function is none of the module. -/
theorem Verified.own {m : List Item} (h : Verified m) {name : String} {body : List Op}
    (hf : .func name body ∈ m) {v : Value} (hv : v ∈ variablesOf body) :
    m.any (Item.isVariable v) = false := by
  rw [Bool.eq_false_iff]
  intro hany
  obtain ⟨n, hn⟩ := (any_isVariable_iff v m).1 hany
  have hpair := (List.nodup_flatMap.1 h.nodup).2
  have : Std.Symm (Function.onFun List.Disjoint definedItem) := ⟨fun _ _ hd _ ha hb => hd hb ha⟩
  have hdis := hpair.forall hn hf (by simp)
  refine hdis (List.mem_singleton_self v) ?_
  have hsub := collected_ops body
  exact hsub.subset hv

/-- The body of a function over a register, a variable and a condition. -/
def sequenceUnit (body : List Op) : List Item :=
  [.op (.op "nsl.reg" (some "r") [.source 0] [] []), .op (.op "nsl.input_port" (some "c") [.source 1] [] []),
    .func "f" (.variable (.source 2) "v" :: body)]

/-- `v = r; r := v; v = r; if (c) v = r;` -/
def writtenApart : List Op :=
  [.transfer false (.source 2) (.source 0), .transfer true (.source 0) (.source 2),
    .transfer false (.source 2) (.source 0),
    .ifOp (.source 1) [.transfer false (.source 2) (.source 0)] []]

/-- `v = r; r := v; if (c) v = r;` -/
def writtenAgain : List Op :=
  [.transfer false (.source 2) (.source 0), .transfer true (.source 0) (.source 2),
    .ifOp (.source 1) [.transfer false (.source 2) (.source 1)] []]

theorem verified_sequenceUnit {body : List Op} (h : body = writtenApart ∨ body = writtenAgain) :
    Verified (sequenceUnit body) := by
  obtain rfl | rfl := h
  all_goals
    refine ⟨?_, by decide, fun x hx => ?_⟩
    · simp [sequenceUnit, writtenApart, writtenAgain, Visible, ScopedItems, ScopedOp, ScopedOps,
        bind, Op.results]
    · have : x = .source 0 ∨ x = .source 1 ∨ x = .source 2 := by
        simpa [sequenceUnit, writtenApart, writtenAgain, definedItems, definedItem, definedOps,
          definedOp] using hx
      obtain rfl | rfl | rfl := this
      · exact ⟨0, rfl⟩
      · exact ⟨1, rfl⟩
      · exact ⟨2, rfl⟩

end Variables

end Nslc
