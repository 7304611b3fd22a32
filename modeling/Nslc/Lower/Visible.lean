import Nslc.Lower.Variables
/-!
# Wires in sight of their uses

A value is visible behind the op that defines it, in the block of that op
and in what is nested there. The expansion of a variable moves uses from
the variable to wires, and a wire made in a function is visible in that
function only. `visible_expandVariables_iff` says for which modules every
operand stays visible.
-/

namespace Nslc

namespace Variables

/-! ## Visibility -/

/-- The values visible behind an op. -/
def bind (results : List Value) (env : Value → Prop) : Value → Prop :=
  fun x => x ∈ results ∨ env x

section Scoped

variable (care : Value → Prop)

mutual

/-- Where `env` is visible, every operand in `care` is visible at its use. -/
def ScopedOp (env : Value → Prop) (o : Op) : Prop :=
  match o with
  | .variable _ _ | .wire _ _ => True
  | .transfer _ dst src => (care dst → env dst) ∧ (care src → env src)
  | .ifOp cond thenBody elseBody =>
    (care cond → env cond) ∧ ScopedOps env thenBody ∧ ScopedOps env elseBody
  | .op _ _ _ operands body => (∀ x ∈ operands, care x → env x) ∧ ScopedOps env body

def ScopedOps (env : Value → Prop) (os : List Op) : Prop :=
  match os with
  | [] => True
  | o :: os => ScopedOp env o ∧ ScopedOps (bind o.results env) os

end

def ScopedItems (env : Value → Prop) : List Item → Prop
  | [] => True
  | .func _ body :: is => ScopedOps care env body ∧ ScopedItems env is
  | .submodule _ _ _ _ :: is => ScopedItems env is
  | .op o :: is => ScopedOp care env o ∧ ScopedItems (bind o.results env) is

end Scoped

mutual

/-- The values defined by an op and in its regions. -/
def definedOp (o : Op) : List Value :=
  match o with
  | .variable result _ | .wire result _ => [result]
  | .transfer _ _ _ => []
  | .ifOp _ thenBody elseBody => definedOps thenBody ++ definedOps elseBody
  | .op _ _ results _ body => results ++ definedOps body

def definedOps (os : List Op) : List Value :=
  match os with
  | [] => []
  | o :: os => definedOp o ++ definedOps os

end

def definedItem : Item → List Value
  | .func _ body => definedOps body
  | .submodule self _ _ _ => [self]
  | .op o => definedOp o

def definedItems (m : List Item) : List Value := m.flatMap definedItem

/-- Every operand is visible at its use. -/
def Visible (m : List Item) : Prop := ScopedItems (fun _ => True) (fun _ => False) m

/-- What the verifier has checked of a module: dominance, and that every
value is defined once. -/
structure Verified (m : List Item) : Prop where
  visible : Visible m
  nodup : (definedItems m).Nodup
  source : ∀ x ∈ definedItems m, ∃ n, x = .source n

/-! ## Uses and where they stand -/

/-- A use of a variable: in which function of the module, and whether it
is a write that gets a wire. -/
structure Use where
  func : Option ℕ
  versions : Bool
  deriving DecidableEq, Repr

/-- The uses in the order of the walk, with the functions counted from
`i`. -/
def placedUses (v : Value) (i : ℕ) : List Item → List Use
  | [] => []
  | .func _ body :: is => (usesOps v true body).map (Use.mk (some i)) ++ placedUses v (i + 1) is
  | .submodule _ _ _ _ :: is => placedUses v i is
  | .op o :: is => (usesOp v true o).map (Use.mk none) ++ placedUses v i is

/-- Every use finds the last wire made before it in sight: that wire stands
directly in the module, or in the function of the use. -/
def WiresInSight (v : Value) (m : List Item) : Prop :=
  ∀ before w between u after, placedUses v 0 m = before ++ w :: (between ++ u :: after) →
    w.versions = true → u.versions = false → (∀ x ∈ between, x.versions = false) →
    w.func = none ∨ w.func = u.func

/-! ## Scoping, value by value -/

section Basics

variable {care : Value → Prop}

theorem bind_congr {env env' : Value → Prop} (rs : List Value) (h : ∀ x, care x → (env x ↔ env' x)) :
    ∀ x, care x → (bind rs env x ↔ bind rs env' x) :=
  fun x hx => or_congr_right (h x hx)

mutual

theorem scopedOp_congr {env env' : Value → Prop} (h : ∀ x, care x → (env x ↔ env' x)) (o : Op) :
    ScopedOp care env o ↔ ScopedOp care env' o := by
  match o with
  | .variable _ _ | .wire _ _ => exact Iff.rfl
  | .transfer _ dst src =>
    exact and_congr (imp_congr_right (h dst)) (imp_congr_right (h src))
  | .ifOp cond t e =>
    exact and_congr (imp_congr_right (h cond)) (and_congr (scopedOps_congr h t)
      (scopedOps_congr h e))
  | .op _ _ _ operands body =>
    exact and_congr (forall₂_congr fun x _ => imp_congr_right (h x)) (scopedOps_congr h body)

theorem scopedOps_congr {env env' : Value → Prop} (h : ∀ x, care x → (env x ↔ env' x)) (os : List Op) :
    ScopedOps care env os ↔ ScopedOps care env' os := by
  match os with
  | [] => exact Iff.rfl
  | o :: os =>
    exact and_congr (scopedOp_congr h o) (scopedOps_congr (bind_congr o.results h) os)

end

/-- The environment behind a block. -/
def bindOps (os : List Op) (env : Value → Prop) : Value → Prop :=
  os.foldl (fun env o => bind o.results env) env

theorem bindOps_append (as bs : List Op) (env : Value → Prop) :
    bindOps (as ++ bs) env = bindOps bs (bindOps as env) := List.foldl_append

theorem bindOps_iff (os : List Op) (env : Value → Prop) (x : Value) :
    bindOps os env x ↔ (∃ o ∈ os, x ∈ o.results) ∨ env x := by
  induction os generalizing env with
  | nil => simp [bindOps]
  | cons o os ih =>
    show bindOps os (bind o.results env) x ↔ _
    rw [ih]
    simp [bind, or_assoc, or_comm]

theorem scopedOps_append (as bs : List Op) (env : Value → Prop) :
    ScopedOps care env (as ++ bs) ↔ ScopedOps care env as ∧ ScopedOps care (bindOps as env) bs := by
  induction as generalizing env with
  | nil => simp [ScopedOps, bindOps]
  | cons o as ih =>
    show ScopedOp care env o ∧ ScopedOps care (bind o.results env) (as ++ bs) ↔
      (ScopedOp care env o ∧ ScopedOps care (bind o.results env) as) ∧
        ScopedOps care (bindOps as (bind o.results env)) bs
    rw [ih, and_assoc]

mutual

theorem scopedOp_forall (env : Value → Prop) (o : Op) :
    ScopedOp care env o ↔ ∀ x, care x → ScopedOp (· = x) env o := by
  match o with
  | .variable _ _ | .wire _ _ => simp [ScopedOp]
  | .transfer _ dst src =>
    simp only [ScopedOp]
    exact ⟨fun h x hx => ⟨fun he => h.1 (he ▸ hx), fun he => h.2 (he ▸ hx)⟩,
      fun h => ⟨fun hc => (h dst hc).1 rfl, fun hc => (h src hc).2 rfl⟩⟩
  | .ifOp cond t e =>
    simp only [ScopedOp, scopedOps_forall env t, scopedOps_forall env e]
    exact ⟨fun h x hx => ⟨fun he => h.1 (he ▸ hx), h.2.1 x hx, h.2.2 x hx⟩,
      fun h => ⟨fun hc => (h cond hc).1 rfl, fun x hx => (h x hx).2.1, fun x hx => (h x hx).2.2⟩⟩
  | .op _ _ _ operands body =>
    simp only [ScopedOp, scopedOps_forall env body]
    exact ⟨fun h x hx => ⟨fun y hy he => h.1 y hy (he ▸ hx), h.2 x hx⟩,
      fun h => ⟨fun y hy hc => (h y hc).1 y hy rfl, fun x hx => (h x hx).2⟩⟩

theorem scopedOps_forall (env : Value → Prop) (os : List Op) :
    ScopedOps care env os ↔ ∀ x, care x → ScopedOps (· = x) env os := by
  match os with
  | [] => simp [ScopedOps]
  | o :: os =>
    simp only [ScopedOps, scopedOp_forall env o, scopedOps_forall (bind o.results env) os]
    exact ⟨fun h x hx => ⟨h.1 x hx, h.2 x hx⟩, fun h => ⟨fun x hx => (h x hx).1,
      fun x hx => (h x hx).2⟩⟩

end

theorem scopedItems_forall (env : Value → Prop) (m : List Item) :
    ScopedItems care env m ↔ ∀ x, care x → ScopedItems (· = x) env m := by
  induction m generalizing env with
  | nil => simp [ScopedItems]
  | cons i m ih =>
    cases i with
    | func _ body =>
      have hbody : ScopedOps care env body ↔ ∀ x, care x → ScopedOps (· = x) env body :=
        scopedOps_forall env body
      simp only [ScopedItems, hbody, ih env]
      exact ⟨fun h x hx => ⟨h.1 x hx, h.2 x hx⟩, fun h => ⟨fun x hx => (h x hx).1,
        fun x hx => (h x hx).2⟩⟩
    | submodule => exact ih env
    | op o =>
      have hop : ScopedOp care env o ↔ ∀ x, care x → ScopedOp (· = x) env o :=
        scopedOp_forall env o
      simp only [ScopedItems, hop, ih (bind o.results env)]
      exact ⟨fun h x hx => ⟨h.1 x hx, h.2 x hx⟩, fun h => ⟨fun x hx => (h x hx).1,
        fun x hx => (h x hx).2⟩⟩

end Basics

/-! ## What a visit does to one op -/

section Visit

variable (v : Value)

mutual

/-- Every use of the variable moved to its version `k`. -/
def rewireOp (k : ℕ) (o : Op) : Op :=
  match o with
  | .variable result name => .variable result name
  | .wire result name => .wire result name
  | .transfer clocked dst src => .transfer clocked (remap v k dst) (remap v k src)
  | .ifOp cond thenBody elseBody =>
    .ifOp (remap v k cond) (rewireOps k thenBody) (rewireOps k elseBody)
  | .op mnemonic name results operands body =>
    .op mnemonic name results (operands.map (remap v k)) (rewireOps k body)

def rewireOps (k : ℕ) (os : List Op) : List Op :=
  match os with
  | [] => []
  | o :: os => rewireOp k o :: rewireOps k os

end

/-- The op writes the variable as a whole, where a wire may stand. -/
def Versions (direct : Bool) (o : Op) : Prop :=
  direct = true ∧ ∃ clocked src, o = .transfer clocked v src

variable {v} {baseName : String}

theorem not_versions_nested (o : Op) : ¬ Versions v false o := fun h => nomatch h.1

mutual

theorem visitOp_eq_rewire {direct : Bool} (k : ℕ) (o : Op) (h : ¬ Versions v direct o) :
    visitOp v baseName direct k o = ([rewireOp v k o], k) := by
  match o with
  | .variable _ _ | .wire _ _ => rfl
  | .transfer clocked dst src =>
    have hno : ¬ (dst = v ∧ direct = true) := fun hd => h ⟨hd.2, clocked, src, by rw [hd.1]⟩
    rw [visitOp, if_neg hno, rewireOp]
  | .ifOp cond t e =>
    simp only [visitOp, rewireOp, visitOps_eq_rewire k t, visitOps_eq_rewire k e]
  | .op _ _ _ _ body =>
    simp only [visitOp, rewireOp, visitOps_eq_rewire k body]

/-- Nested ops get no version of their own. -/
theorem visitOps_eq_rewire (k : ℕ) (os : List Op) :
    visitOps v baseName false k os = (rewireOps v k os, k) := by
  match os with
  | [] => rfl
  | o :: os =>
    simp only [visitOps, rewireOps, visitOp_eq_rewire k o (not_versions_nested o),
      visitOps_eq_rewire k os, List.cons_append, List.nil_append]

end

theorem visitOp_versions (k : ℕ) (clocked : Bool) (src : Value) :
    visitOp v baseName true k (.transfer clocked v src) =
      ([.wire (.version v k) (wireName baseName k),
        .transfer clocked (.version v k) (remap v (k + 1) src)], k + 1) :=
  if_pos ⟨rfl, rfl⟩

theorem results_rewireOp (k : ℕ) (o : Op) : (rewireOp v k o).results = o.results := by
  cases o <;> rfl

theorem usesOp_of_not_versions {direct : Bool} {o : Op} (h : ¬ Versions v direct o) :
    usesOp v direct o = usesOp v false o := by
  cases direct with
  | false => rfl
  | true =>
    cases o with
    | transfer clocked dst src =>
      have hdst : dst ≠ v := fun hd => h ⟨rfl, clocked, src, by rw [hd]⟩
      simp only [usesOp, if_neg hdst]
    | _ => rfl

mutual

theorem usesOp_nested (o : Op) : ∀ u ∈ usesOp v false o, u = false := by
  match o with
  | .variable _ _ | .wire _ _ => simp [usesOp]
  | .transfer _ dst src =>
    intro u hu
    simp only [usesOp, List.mem_append] at hu
    obtain hu | hu := hu <;> split at hu <;> simp_all
  | .ifOp cond t e =>
    intro u hu
    simp only [usesOp, List.mem_append] at hu
    obtain (hu | hu) | hu := hu
    · exact usesOps_nested t u hu
    · exact usesOps_nested e u hu
    · split at hu <;> simp_all
  | .op _ _ _ operands body =>
    intro u hu
    simp only [usesOp, List.mem_append, List.mem_map] at hu
    obtain hu | ⟨x, -, rfl⟩ := hu
    · exact usesOps_nested body u hu
    · rfl

theorem usesOps_nested (os : List Op) : ∀ u ∈ usesOps v false os, u = false := by
  match os with
  | [] => simp [usesOps]
  | o :: os =>
    intro u hu
    obtain hu | hu := List.mem_append.1 hu
    · exact usesOp_nested o u hu
    · exact usesOps_nested os u hu

end

end Visit

/-! ## Values the variable has nothing to do with -/

/-- The variable and the wires made for it. -/
def Family (v : Value) (x : Value) : Prop := x = v ∨ ∃ k, x = .version v k

theorem family_currentValue (v : Value) (k : ℕ) : Family v (currentValue v k) := by
  cases k with
  | zero => exact .inl rfl
  | succ k => exact .inr ⟨k, rfl⟩

section Other

variable {v : Value} {baseName : String} {care : Value → Prop}

theorem care_remap (hcare : ∀ x, care x → ¬ Family v x) (k : ℕ) (x : Value) (env : Value → Prop) :
    (care (remap v k x) → env (remap v k x)) ↔ (care x → env x) := by
  by_cases hx : x = v
  · subst hx
    refine iff_of_true (fun hc => ?_) fun hc => absurd (.inl rfl) (hcare x hc)
    rw [remap, if_pos rfl] at hc
    exact absurd (family_currentValue x k) (hcare _ hc)
  · rw [remap, if_neg hx]

mutual

theorem scopedOp_rewire_other (hcare : ∀ x, care x → ¬ Family v x) (k : ℕ) (env : Value → Prop)
    (o : Op) : ScopedOp care env (rewireOp v k o) ↔ ScopedOp care env o := by
  match o with
  | .variable _ _ | .wire _ _ => exact Iff.rfl
  | .transfer _ dst src =>
    exact and_congr (care_remap hcare k dst env) (care_remap hcare k src env)
  | .ifOp cond t e =>
    exact and_congr (care_remap hcare k cond env)
      (and_congr (scopedOps_rewire_other hcare k env t) (scopedOps_rewire_other hcare k env e))
  | .op _ _ _ operands body =>
    refine and_congr ?_ (scopedOps_rewire_other hcare k env body)
    rw [List.forall_mem_map]
    exact forall₂_congr fun x _ => care_remap hcare k x env

theorem scopedOps_rewire_other (hcare : ∀ x, care x → ¬ Family v x) (k : ℕ) (env : Value → Prop)
    (os : List Op) : ScopedOps care env (rewireOps v k os) ↔ ScopedOps care env os := by
  match os with
  | [] => exact Iff.rfl
  | o :: os =>
    simp only [rewireOps, ScopedOps, results_rewireOp]
    exact and_congr (scopedOp_rewire_other hcare k env o)
      (scopedOps_rewire_other hcare k (bind o.results env) os)

end

theorem bind_version (hcare : ∀ x, care x → ¬ Family v x) (k : ℕ) (env : Value → Prop) :
    ∀ x, care x → (bind [.version v k] env x ↔ env x) := by
  intro x hx
  have hne : x ≠ .version v k := fun he => hcare x hx (.inr ⟨k, he⟩)
  simp [bind, hne]

variable (baseName) in
/-- **A visit changes nothing for other values.** -/
theorem scopedOp_visit_other (hcare : ∀ x, care x → ¬ Family v x) (direct : Bool) (k : ℕ)
    (env : Value → Prop) (o : Op) :
    (ScopedOps care env (visitOp v baseName direct k o).1 ↔ ScopedOp care env o) ∧
      ∀ x, care x → (bindOps (visitOp v baseName direct k o).1 env x ↔ bind o.results env x) := by
  by_cases hv : Versions v direct o
  · obtain ⟨rfl, clocked, src, rfl⟩ := hv
    rw [visitOp_versions]
    have hver : ¬ care (.version v k) := fun hc => hcare _ hc (.inr ⟨k, rfl⟩)
    have hself : ¬ care v := fun hc => hcare _ hc (.inl rfl)
    refine ⟨?_, fun x hx => ?_⟩
    · have hsrc := care_remap hcare (k + 1) src env
      have hwire := scopedOp_congr (bind_version hcare k env) (.transfer clocked v src)
      simp only [ScopedOps, ScopedOp, hver, hself, false_imp_iff, true_and, and_true,
        Op.results] at hwire ⊢
      rw [← hsrc]
      exact imp_congr_right fun hc => bind_version hcare k env _ hc
    · show bind [] (bind [.version v k] env) x ↔ bind [] env x
      simpa [bind] using bind_version hcare k env x hx
  · rw [visitOp_eq_rewire k o hv]
    refine ⟨?_, fun x _ => ?_⟩
    · simp only [ScopedOps, and_true]
      exact scopedOp_rewire_other hcare k env o
    · show bind (rewireOp v k o).results env x ↔ bind o.results env x
      rw [results_rewireOp]

theorem scopedOps_visit_other (hcare : ∀ x, care x → ¬ Family v x) (k : ℕ) (env : Value → Prop)
    (os : List Op) :
    ScopedOps care env (visitOps v baseName true k os).1 ↔ ScopedOps care env os := by
  induction os generalizing k env with
  | nil => exact Iff.rfl
  | cons o os ih =>
    obtain ⟨hop, hbind⟩ := scopedOp_visit_other baseName hcare true k env o
    simp only [visitOps, scopedOps_append, hop, ScopedOps]
    refine and_congr_right fun _ => ?_
    rw [ih, scopedOps_congr hbind]

theorem scopedItems_congr {env env' : Value → Prop} (h : ∀ x, care x → (env x ↔ env' x))
    (m : List Item) : ScopedItems care env m ↔ ScopedItems care env' m := by
  induction m generalizing env env' with
  | nil => exact Iff.rfl
  | cons i m ih =>
    cases i with
    | func _ body => exact and_congr (scopedOps_congr h body) (ih h)
    | submodule => exact ih h
    | op o => exact and_congr (scopedOp_congr h o) (ih (bind_congr o.results h))

/-- Ops standing directly in the module. -/
theorem scopedItems_ops (os : List Op) (env : Value → Prop) (m : List Item) :
    ScopedItems care env (os.map .op ++ m) ↔
      ScopedOps care env os ∧ ScopedItems care (bindOps os env) m := by
  induction os generalizing env with
  | nil => simp [ScopedOps, bindOps]
  | cons o os ih =>
    show ScopedOp care env o ∧ ScopedItems care (bind o.results env) (os.map .op ++ m) ↔
      (ScopedOp care env o ∧ ScopedOps care (bind o.results env) os) ∧
        ScopedItems care (bindOps os (bind o.results env)) m
    rw [ih, and_assoc]

theorem scopedItems_visit_other (hcare : ∀ x, care x → ¬ Family v x) (k : ℕ)
    (env : Value → Prop) (m : List Item) :
    ScopedItems care env (visitItems v baseName k m).1 ↔ ScopedItems care env m := by
  induction m generalizing k env with
  | nil => exact Iff.rfl
  | cons i m ih =>
    cases i with
    | func _ body =>
      exact and_congr (scopedOps_visit_other hcare k env body) (ih _ env)
    | submodule => exact ih k env
    | op o =>
      obtain ⟨hop, hbind⟩ := scopedOp_visit_other baseName hcare true k env o
      show ScopedItems care env ((visitOp v baseName true k o).1.map .op ++ _) ↔ _
      rw [scopedItems_ops, hop, ScopedItems, ih, scopedItems_congr hbind]

end Other

/-! ## The current version -/

/-- Uses of one function or op, of which those before the first wire see
the version they come with. -/
def SeenBody (h : Prop) : List Bool → Prop
  | [] => True
  | true :: us => SeenBody True us
  | false :: us => h ∧ SeenBody h us

theorem seenBody_append (h : Prop) (as bs : List Bool) :
    SeenBody h (as ++ bs) ↔ SeenBody h as ∧ SeenBody (h ∨ true ∈ as) bs := by
  induction as generalizing h with
  | nil => simp [SeenBody]
  | cons a as ih =>
    cases a with
    | true => simp [SeenBody, ih]
    | false => simp [SeenBody, ih, and_assoc]

theorem seenBody_reads {h : Prop} {us : List Bool} (hus : ∀ u ∈ us, u = false) :
    SeenBody h us ↔ (us ≠ [] → h) := by
  induction us with
  | nil => simp [SeenBody]
  | cons u us ih =>
    obtain rfl := hus u (by simp)
    rw [SeenBody, ih fun x hx => hus x (by simp [hx])]
    exact ⟨fun ⟨hh, _⟩ _ => hh, fun hh => ⟨hh (by simp), fun _ => hh (by simp)⟩⟩

theorem seenBody_of_true (us : List Bool) : SeenBody True us := by
  induction us with
  | nil => trivial
  | cons u us ih =>
    cases u with
    | true => exact ih
    | false => exact ⟨trivial, ih⟩

/-- The walk stands at version `k` of `v`, which is visible where `h`
holds. `vis` is what is visible in the output and `env` in the input. -/
structure Tracks (v : Value) (k : ℕ) (vis env : Value → Prop) (h : Prop) : Prop where
  start : k = 0 → h ∧ (vis v ↔ env v)
  current : 0 < k → (vis (currentValue v k) ↔ h)
  unborn : ∀ j, k ≤ j → ¬ vis (.version v j)
  source : ∀ j, ¬ env (.version v j)

section Tracking

variable {v : Value} {baseName : String} {k : ℕ} {vis env : Value → Prop} {h : Prop}

theorem Tracks.bind (ht : Tracks v k vis env h) {rs : List Value}
    (hrs : ∀ j, .version v j ∉ rs) : Tracks v k (bind rs vis) (bind rs env) h where
  start hk := ⟨(ht.start hk).1, or_congr_right (ht.start hk).2⟩
  current hk := by
    cases k with
    | zero => exact absurd hk (by omega)
    | succ k => exact (or_iff_right (hrs k)).trans (ht.current hk)
  unborn j hj := by
    rintro (hm | hv)
    · exact hrs j hm
    · exact ht.unborn j hj hv
  source j := by
    rintro (hm | he)
    · exact hrs j hm
    · exact ht.source j he

theorem Tracks.version (ht : Tracks v k vis env h) :
    Tracks v (k + 1) (Variables.bind [.version v k] vis) env True where
  start hk := absurd hk (by omega)
  current _ := iff_of_true (.inl List.mem_cons_self) trivial
  unborn j hj := by
    rintro (hm | hv)
    · have : j = k := by simpa using hm
      omega
    · exact ht.unborn j (by omega) hv
  source := ht.source

/-- A use of the variable in the input sees the current version where that
is visible. -/
theorem Tracks.visible_iff (ht : Tracks v k vis env h) (hv : env v) :
    vis (currentValue v k) ↔ h := by
  cases k with
  | zero => exact iff_of_true ((ht.start rfl).2.2 hv) (ht.start rfl).1
  | succ k => exact ht.current (by omega)

theorem Tracks.remap (ht : Tracks v k vis env h) {x : Value} (hx : Family v x → env x) :
    (Family v (remap v k x) → vis (remap v k x)) ↔ (x = v → h) := by
  by_cases hxv : x = v
  · subst hxv
    rw [Variables.remap, if_pos rfl]
    simp only [family_currentValue, forall_const]
    exact ht.visible_iff (hx (.inl rfl))
  · rw [Variables.remap, if_neg hxv]
    refine iff_of_true (fun hf => ?_) fun he => absurd he hxv
    obtain rfl | ⟨j, rfl⟩ := hf
    · exact absurd rfl hxv
    · exact absurd (hx (.inr ⟨j, rfl⟩)) (ht.source j)

theorem append_ne_nil_imp {α : Type} (as bs : List α) (p : Prop) :
    (as ++ bs ≠ [] → p) ↔ (as ≠ [] → p) ∧ (bs ≠ [] → p) := by
  cases as <;> cases bs <;> simp

theorem single_ne_nil_imp (c : Prop) [Decidable c] (p : Prop) :
    ((if c then [false] else []) ≠ [] → p) ↔ (c → p) := by
  split <;> simp_all

mutual

/-- Where only the current version is in play, it has to be visible as soon
as there is a use. -/
theorem scopedOp_rewire {vis env : Value → Prop} (ht : Tracks v k vis env h) (o : Op)
    (hin : ScopedOp (Family v) env o) (hfresh : ∀ j, .version v j ∉ definedOp o) :
    ScopedOp (Family v) vis (rewireOp v k o) ↔ (usesOp v false o ≠ [] → h) := by
  match o with
  | .variable _ _ | .wire _ _ => simp [rewireOp, ScopedOp, usesOp]
  | .transfer _ dst src =>
    rw [usesOp, append_ne_nil_imp, single_ne_nil_imp, single_ne_nil_imp]
    exact and_congr (ht.remap hin.1) (ht.remap hin.2)
  | .ifOp cond t e =>
    rw [usesOp, append_ne_nil_imp, append_ne_nil_imp, single_ne_nil_imp]
    have ht' := scopedOps_rewire ht t hin.2.1 fun j hj => hfresh j (by simp [definedOp, hj])
    have he' := scopedOps_rewire ht e hin.2.2 fun j hj => hfresh j (by simp [definedOp, hj])
    exact (and_congr (ht.remap hin.1) (and_congr ht' he')).trans and_comm
  | .op _ _ results operands body =>
    rw [usesOp, append_ne_nil_imp]
    have hbody := scopedOps_rewire ht body hin.2 fun j hj => hfresh j (by simp [definedOp, hj])
    refine (and_congr ?_ hbody).trans and_comm
    rw [List.forall_mem_map]
    refine (forall₂_congr fun x hx => ht.remap (hin.1 x hx)).trans ⟨fun hall hne => ?_, fun hh x hx
      he => hh ?_⟩
    · obtain ⟨x, hx⟩ := List.exists_mem_of_ne_nil _ (List.map_eq_nil_iff.not.1 hne)
      obtain ⟨hx, he⟩ := List.mem_filter.1 hx
      exact hall x hx (by simpa using he)
    · exact List.map_eq_nil_iff.not.2 (List.ne_nil_of_mem (List.mem_filter.2 ⟨hx, by simpa using he⟩))

theorem scopedOps_rewire {vis env : Value → Prop} (ht : Tracks v k vis env h) (os : List Op)
    (hin : ScopedOps (Family v) env os) (hfresh : ∀ j, .version v j ∉ definedOps os) :
    ScopedOps (Family v) vis (rewireOps v k os) ↔ (usesOps v false os ≠ [] → h) := by
  match os with
  | [] => simp [rewireOps, ScopedOps, usesOps]
  | o :: os =>
    rw [usesOps, append_ne_nil_imp]
    have hop := scopedOp_rewire ht o hin.1 fun j hj => hfresh j (by simp [definedOps, hj])
    have hrs : ∀ j, .version v j ∉ o.results := fun j hj => hfresh j (by
      cases o <;> simp_all [definedOps, definedOp, Op.results])
    have hrest := scopedOps_rewire (ht.bind hrs) os hin.2 fun j hj =>
      hfresh j (by simp [definedOps, hj])
    simp only [rewireOps, ScopedOps, results_rewireOp]
    exact and_congr hop hrest

end

theorem usesOp_versions (clocked : Bool) (src : Value) :
    usesOp v true (.transfer clocked v src) = true :: (if src = v then [false] else []) := by
  simp [usesOp]

theorem results_fresh {o : Op} (h : ∀ j, .version v j ∉ definedOp o) :
    ∀ j, .version v j ∉ o.results := by
  intro j hj
  refine h j ?_
  cases o <;> simp_all [definedOp, Op.results]

theorem visitOp_snd (k : ℕ) (o : Op) :
    (visitOp v baseName true k o).2 = k + (usesOp v true o).count true := by
  by_cases hv : Versions v true o
  · obtain ⟨-, clocked, src, rfl⟩ := hv
    rw [visitOp_versions, usesOp_versions]
    split <;> simp
  · have hno : true ∉ usesOp v true o := fun hm => by
      rw [usesOp_of_not_versions hv] at hm
      exact absurd (usesOp_nested o true hm) (by decide)
    rw [visitOp_eq_rewire k o hv, List.count_eq_zero_of_not_mem hno]
    rfl

theorem visitOps_snd (k : ℕ) (os : List Op) :
    (visitOps v baseName true k os).2 = k + (usesOps v true os).count true := by
  induction os generalizing k with
  | nil => rfl
  | cons o os ih => rw [visitOps, ih, visitOp_snd, usesOps, List.count_append, Nat.add_assoc]

/-- One op standing directly in a module or a function. -/
theorem visitOp_spec (ht : Tracks v k vis env h) (o : Op) (hin : ScopedOp (Family v) env o)
    (hfresh : ∀ j, .version v j ∉ definedOp o) :
    (ScopedOps (Family v) vis (visitOp v baseName true k o).1 ↔ SeenBody h (usesOp v true o)) ∧
      Tracks v (visitOp v baseName true k o).2 (bindOps (visitOp v baseName true k o).1 vis)
        (bind o.results env) (h ∨ true ∈ usesOp v true o) := by
  have hrs := results_fresh hfresh
  by_cases hv : Versions v true o
  · obtain ⟨-, clocked, src, rfl⟩ := hv
    rw [visitOp_versions, usesOp_versions]
    have hnew := ht.version
    refine ⟨?_, ?_⟩
    · have hsrc := hnew.remap (x := src) fun hf => hin.2 hf
      have hdst : Variables.bind [.version v k] vis (.version v k) := .inl List.mem_cons_self
      refine iff_of_true ⟨trivial, ⟨⟨fun _ => hdst, hsrc.2 fun _ => trivial⟩, trivial⟩⟩ ?_
      exact seenBody_of_true _
    · show Tracks v (k + 1) (Variables.bind [] (Variables.bind [.version v k] vis))
        (Variables.bind [] env) _
      simpa using hnew.bind (by simp)
  · have huse := usesOp_of_not_versions hv
    have hno : true ∉ usesOp v true o := fun hm => by
      rw [huse] at hm
      exact absurd (usesOp_nested o true hm) (by decide)
    rw [visitOp_eq_rewire k o hv, or_iff_left hno |> propext]
    refine ⟨?_, ?_⟩
    · rw [huse, seenBody_reads (usesOp_nested o), ← scopedOp_rewire ht o hin hfresh]
      simp only [ScopedOps, and_true]
    · show Tracks v k (Variables.bind (rewireOp v k o).results vis) _ h
      rw [results_rewireOp]
      exact ht.bind hrs

variable (baseName) in
/-- **The ops of a function**, and the ops of the module between two
functions. -/
theorem visitOps_spec (os : List Op) (k : ℕ) (vis env : Value → Prop) (h : Prop)
    (ht : Tracks v k vis env h) (hin : ScopedOps (Family v) env os)
    (hfresh : ∀ j, .version v j ∉ definedOps os) :
    ScopedOps (Family v) vis (visitOps v baseName true k os).1 ↔
      SeenBody h (usesOps v true os) := by
  induction os generalizing k vis env h with
  | nil => simp [visitOps, usesOps, ScopedOps, SeenBody]
  | cons o os ih =>
    obtain ⟨hop, htr⟩ := visitOp_spec ht o hin.1 fun j hj =>
      hfresh j (by simp [definedOps, hj])
    have hrest := ih _ _ _ _ htr hin.2 fun j hj => hfresh j (by simp [definedOps, hj])
    rw [visitOps, usesOps, scopedOps_append, hop, hrest, seenBody_append]

/-! ## Over the items of a module -/

/-- The current version stands in the function `home`, or is visible in the
whole module. -/
def SeenFrom (home : Option ℕ) : List Use → Prop
  | [] => True
  | u :: us =>
    if u.versions then SeenFrom u.func us
    else (home = none ∨ home = u.func) ∧ SeenFrom home us

theorem seenFrom_map (home p : Option ℕ) (us : List Bool) (rest : List Use) :
    SeenFrom home (us.map (Use.mk p) ++ rest) ↔
      SeenBody (home = none ∨ home = p) us ∧ SeenFrom (if true ∈ us then p else home) rest := by
  induction us generalizing home with
  | nil => simp [SeenBody]
  | cons u us ih =>
    cases u with
    | true => simp [SeenFrom, SeenBody, ih]
    | false => simp [SeenFrom, SeenBody, ih, and_assoc]

/-- After a function the module sees what it saw before, and not the wires
of that function. -/
theorem Tracks.leave (ht : Tracks v k vis env h) (n : ℕ) :
    Tracks v (k + n) vis env (if n = 0 then h else False) where
  start hk := by
    obtain ⟨rfl, rfl⟩ : k = 0 ∧ n = 0 := by omega
    simpa using ht.start rfl
  current hk := by
    cases n with
    | zero => simpa using ht.current hk
    | succ n => exact iff_of_false (ht.unborn (k + n) (by omega)) (by simp)
  unborn j hj := ht.unborn j (by omega)
  source := ht.source

variable (baseName) in
theorem visitItems_spec (m : List Item) (i k : ℕ) (home : Option ℕ) (vis env : Value → Prop)
    (hhome : ∀ j, home = some j → j < i) (ht : Tracks v k vis env (home = none))
    (hin : ScopedItems (Family v) env m) (hfresh : ∀ j, .version v j ∉ definedItems m) :
    ScopedItems (Family v) vis (visitItems v baseName k m).1 ↔
      SeenFrom home (placedUses v i m) := by
  induction m generalizing i k home vis env with
  | nil => simp [visitItems, placedUses, ScopedItems, SeenFrom]
  | cons it m ih =>
    have hfresh' : ∀ j, .version v j ∉ definedItem it := fun j hj =>
      hfresh j (by simp [definedItems, hj])
    have hrest : ∀ j, .version v j ∉ definedItems m := fun j hj =>
      hfresh j (List.mem_append_right (definedItem it) hj)
    cases it with
    | func name body =>
      have hbody := visitOps_spec baseName body k vis env _ ht hin.1 hfresh'
      have hne : home ≠ some i := fun he => absurd (hhome i he) (by omega)
      show ScopedOps (Family v) vis (visitOps v baseName true k body).1 ∧ _ ↔ _
      rw [placedUses, seenFrom_map, hbody, or_iff_left hne |> propext]
      refine and_congr_right fun _ => ?_
      have hmem : (usesOps v true body).count true = 0 ↔ true ∉ usesOps v true body :=
        List.count_eq_zero
      refine ih (i + 1) _ _ vis env (fun j hj => ?_) ?_ hin.2 hrest
      · split at hj
        · obtain rfl := Option.some.inj hj
          omega
        · have := hhome j hj
          omega
      · have hleave := ht.leave ((usesOps v true body).count true)
        show Tracks v (visitOps v baseName true k body).2 vis env _
        rw [visitOps_snd]
        by_cases hm : true ∈ usesOps v true body
        · simpa [hm, hmem] using hleave
        · simpa [hm, hmem] using hleave
    | submodule => exact ih i k home vis env hhome ht hin hrest
    | op o =>
      obtain ⟨hop, htr⟩ := visitOp_spec ht o hin.1 hfresh'
      show ScopedItems (Family v) vis ((visitOp v baseName true k o).1.map .op ++ _) ↔ _
      rw [scopedItems_ops, placedUses, seenFrom_map, hop, or_self]
      refine and_congr_right fun _ => ?_
      refine ih i _ _ _ _ (fun j hj => ?_) ?_ hin.2 hrest
      · split at hj
        · exact absurd hj (by simp)
        · exact hhome j hj
      · show Tracks v (visitOp v baseName true k o).2 _ _ _
        by_cases hm : true ∈ usesOp v true o
        · simpa [hm] using htr
        · simpa [hm] using htr

end Tracking

/-! ## Wires in sight -/

theorem forall_split_cons {α : Type} {P : List α → α → List α → Prop} (x : α) (xs : List α) :
    (∀ before y after, x :: xs = before ++ y :: after → P before y after) ↔
      P [] x xs ∧ ∀ before y after, xs = before ++ y :: after → P (x :: before) y after := by
  constructor
  · refine fun h => ⟨h [] x xs rfl, fun before y after he => h (x :: before) y after ?_⟩
    rw [he, List.cons_append]
  · rintro ⟨hx, hxs⟩ before y after he
    cases before with
    | nil =>
      obtain ⟨rfl, rfl⟩ := List.cons.inj he
      exact hx
    | cons z before =>
      obtain ⟨rfl, htail⟩ := List.cons.inj he
      exact hxs before y after htail

/-- The uses before the next wire are in the home of the last one. -/
def SeesHome (home : Option ℕ) (us : List Use) : Prop :=
  ∀ between u after, us = between ++ u :: after → u.versions = false →
    (∀ x ∈ between, x.versions = false) → home = none ∨ home = u.func

theorem seesHome_nil (home : Option ℕ) : SeesHome home [] := by
  intro between u after he
  simp at he

theorem seesHome_cons (home : Option ℕ) (u : Use) (us : List Use) :
    SeesHome home (u :: us) ↔
      (u.versions = false → (home = none ∨ home = u.func) ∧ SeesHome home us) := by
  rw [SeesHome, forall_split_cons]
  cases hu : u.versions with
  | true => simp [hu]
  | false => simp [hu, SeesHome]

theorem seenFrom_iff (home : Option ℕ) (us : List Use) :
    SeenFrom home us ↔ SeesHome home us ∧
      ∀ before w after, us = before ++ w :: after → w.versions = true → SeesHome w.func after := by
  induction us generalizing home with
  | nil => simp [SeenFrom, seesHome_nil]
  | cons u us ih =>
    rw [SeenFrom, forall_split_cons, seesHome_cons]
    cases hu : u.versions with
    | true => simp [ih]
    | false => simp [ih, and_assoc]

theorem seenFrom_placedUses_iff (v : Value) (m : List Item) :
    SeenFrom none (placedUses v 0 m) ↔ WiresInSight v m := by
  rw [seenFrom_iff]
  constructor
  · rintro ⟨-, h⟩ before w between u after he hw hu hbetween
    exact h before w _ he hw between u after rfl hu hbetween
  · refine fun h => ⟨fun _ _ _ _ _ _ => .inl rfl, fun before w after he hw between u rest hr hu hb => ?_⟩
    exact h before w between u rest (hr ▸ he) hw hu hb

/-! ## Variables that go -/

section Erase

variable {v : Value} {care : Value → Prop}

mutual

theorem scopedOp_unused {direct : Bool} (env : Value → Prop) (o : Op)
    (h : usesOp v direct o = []) : ScopedOp (· = v) env o := by
  match o with
  | .variable _ _ | .wire _ _ => trivial
  | .transfer _ dst src =>
    simp only [usesOp, List.append_eq_nil_iff] at h
    exact ⟨fun hd => absurd h.1 (by simp [hd]), fun hs => absurd h.2 (by simp [hs])⟩
  | .ifOp cond t e =>
    simp only [usesOp, List.append_eq_nil_iff] at h
    exact ⟨fun hc => absurd h.2 (by simp [hc]), scopedOps_unused env t h.1.1,
      scopedOps_unused env e h.1.2⟩
  | .op _ _ _ operands body =>
    simp only [usesOp, List.append_eq_nil_iff, List.map_eq_nil_iff, List.filter_eq_nil_iff] at h
    exact ⟨fun x hx he => absurd he (by simpa using h.2 x hx), scopedOps_unused env body h.1⟩

theorem scopedOps_unused {direct : Bool} (env : Value → Prop) (os : List Op)
    (h : usesOps v direct os = []) : ScopedOps (· = v) env os := by
  match os with
  | [] => trivial
  | o :: os =>
    obtain ⟨ho, hos⟩ := List.append_eq_nil_iff.1 h
    exact ⟨scopedOp_unused env o ho, scopedOps_unused _ os hos⟩

end

theorem scopedItems_unused (env : Value → Prop) (m : List Item) (h : usesItems v m = []) :
    ScopedItems (· = v) env m := by
  induction m generalizing env with
  | nil => trivial
  | cons i m ih =>
    obtain ⟨hi, hm⟩ := List.append_eq_nil_iff.1 h
    cases i with
    | func _ body => exact ⟨scopedOps_unused env body hi, ih env hm⟩
    | submodule => exact ih env hm
    | op o => exact ⟨scopedOp_unused env o hi, ih _ hm⟩

theorem bind_self (hcare : ¬ care v) (env : Value → Prop) :
    ∀ x, care x → (bind [v] env x ↔ env x) := by
  intro x hx
  have hne : x ≠ v := fun he => hcare (he ▸ hx)
  simp [bind, hne]

theorem isVariable_iff {o : Op} : o.isVariable v = true ↔ ∃ name, o = .variable v name := by
  cases o <;> simp [Op.isVariable]

theorem scopedOps_filter (hcare : ¬ care v) (env : Value → Prop) (os : List Op) :
    ScopedOps care env (os.filter fun o => !o.isVariable v) ↔ ScopedOps care env os := by
  induction os generalizing env with
  | nil => exact Iff.rfl
  | cons o os ih =>
    cases ho : o.isVariable v with
    | true =>
      obtain ⟨name, rfl⟩ := isVariable_iff.1 ho
      rw [List.filter_cons_of_neg (by simp [ho]), ih, ScopedOps]
      exact (scopedOps_congr (bind_self hcare env) os).symm.trans (iff_of_eq (true_and _)).symm
    | false =>
      rw [List.filter_cons_of_pos (by simp [ho])]
      exact and_congr_right fun _ => ih _

theorem scopedItems_filter (hcare : ¬ care v) (env : Value → Prop) (m : List Item) :
    ScopedItems care env (m.filter fun i => !i.isVariable v) ↔ ScopedItems care env m := by
  induction m generalizing env with
  | nil => exact Iff.rfl
  | cons i m ih =>
    cases i with
    | func _ body =>
      rw [List.filter_cons_of_pos rfl]
      exact and_congr_right fun _ => ih env
    | submodule =>
      rw [List.filter_cons_of_pos rfl]
      exact ih env
    | op o =>
      cases ho : o.isVariable v with
      | true =>
        obtain ⟨name, rfl⟩ := isVariable_iff.1 ho
        rw [List.filter_cons_of_neg (by simp [Item.isVariable, ho]), ih, ScopedItems]
        exact (scopedItems_congr (bind_self hcare env) m).symm.trans (iff_of_eq (true_and _)).symm
      | false =>
        rw [List.filter_cons_of_pos (by simp [Item.isVariable, ho])]
        exact and_congr_right fun _ => ih _

theorem usesOps_filter {direct : Bool} {os : List Op} (p : Op → Bool)
    (h : usesOps v direct os = []) : usesOps v direct (os.filter p) = [] := by
  induction os with
  | nil => rfl
  | cons o os ih =>
    obtain ⟨ho, hos⟩ := List.append_eq_nil_iff.1 h
    rw [List.filter_cons]
    split
    · rw [usesOps, ho, ih hos, List.nil_append]
    · exact ih hos

/-- An unused variable is not missed. -/
theorem scopedOps_erase (env : Value → Prop) (os : List Op) (h : usesOps v true os = []) :
    ScopedOps care env (os.filter fun o => !o.isVariable v) ↔ ScopedOps care env os := by
  rw [scopedOps_forall, scopedOps_forall env os]
  refine forall₂_congr fun x _ => ?_
  by_cases hx : x = v
  · subst hx
    exact iff_of_true (scopedOps_unused env _ (usesOps_filter _ h))
      (scopedOps_unused env os h)
  · exact scopedOps_filter (fun he => hx he.symm) env os

theorem scopedItems_erase (env : Value → Prop) (m : List Item) (h : usesItems v m = []) :
    ScopedItems care env (m.filter fun i => !i.isVariable v) ↔ ScopedItems care env m := by
  rw [scopedItems_forall, scopedItems_forall env m]
  refine forall₂_congr fun x _ => ?_
  by_cases hx : x = v
  · subst hx
    refine iff_of_true (scopedItems_unused env _ ?_) (scopedItems_unused env m h)
    rw [usesItems, List.flatMap_eq_nil_iff] at h ⊢
    exact fun i hi => h i (List.mem_of_mem_filter hi)
  · exact scopedItems_filter (fun he => hx he.symm) env m

end Erase

/-! ## One variable -/

section One

variable {v : Value} {baseName : String} {care : Value → Prop}

theorem scopedItems_expandInModule (env : Value → Prop) (m : List Item) :
    ScopedItems care env (expandInModule v baseName m) ↔
      ScopedItems care env (visitItems v baseName 0 m).1 := by
  rw [expandInModule]
  split
  · exact scopedItems_erase env _ (List.isEmpty_iff.1 ‹_›)
  · exact Iff.rfl

theorem scopedOps_expandInFunc (env : Value → Prop) (body : List Op) :
    ScopedOps care env (expandInFunc v baseName body) ↔
      ScopedOps care env (visitOps v baseName true 0 body).1 := by
  rw [expandInFunc]
  split
  · exact scopedOps_erase env _ (List.isEmpty_iff.1 ‹_›)
  · exact Iff.rfl

theorem scopedItems_map_other (hcare : ∀ x, care x → ¬ Family v x) (env : Value → Prop)
    (m : List Item) :
    ScopedItems care env (m.map (expandFunc v baseName)) ↔ ScopedItems care env m := by
  induction m generalizing env with
  | nil => exact Iff.rfl
  | cons i m ih =>
    cases i with
    | func _ body =>
      refine and_congr ?_ (ih env)
      split
      · rw [scopedOps_expandInFunc, scopedOps_visit_other hcare]
      · exact Iff.rfl
    | submodule => exact ih env
    | op o => exact and_congr_right fun _ => ih _

/-- **Nothing else is touched.** -/
theorem scopedItems_expandOne_other (hcare : ∀ x, care x → ¬ Family v x) (env : Value → Prop)
    (m : List Item) :
    ScopedItems care env (expandOne v baseName m) ↔ ScopedItems care env m := by
  rw [expandOne]
  split
  · rw [scopedItems_expandInModule, scopedItems_visit_other hcare]
  · exact scopedItems_map_other hcare env m

theorem tracks_start {env : Value → Prop} (h : ∀ j, ¬ env (.version v j)) :
    Tracks v 0 env env True where
  start _ := ⟨trivial, Iff.rfl⟩
  current hk := absurd hk (by omega)
  unborn j _ := h j
  source := h

/-- A variable of a function stays in sight with all its wires. -/
theorem scopedItems_map_family (env : Value → Prop) (henv : ∀ j, ¬ env (.version v j))
    (m : List Item) (hin : ScopedItems (Family v) env m)
    (hfresh : ∀ j, .version v j ∉ definedItems m) :
    ScopedItems (Family v) env (m.map (expandFunc v baseName)) := by
  induction m generalizing env with
  | nil => trivial
  | cons i m ih =>
    have hi : ∀ j, .version v j ∉ definedItem i := fun j hj =>
      hfresh j (List.mem_append_left (definedItems m) hj)
    have hrest : ∀ j, .version v j ∉ definedItems m := fun j hj =>
      hfresh j (List.mem_append_right (definedItem i) hj)
    cases i with
    | func _ body =>
      refine ⟨?_, ih env henv hin.2 hrest⟩
      split
      · rw [scopedOps_expandInFunc, visitOps_spec _ body 0 env env True (tracks_start henv) hin.1 hi]
        exact seenBody_of_true _
      · exact hin.1
    | submodule => exact ih env henv hin hrest
    | op o =>
      refine ⟨hin.1, ih _ ?_ hin.2 hrest⟩
      rintro j (hm | he)
      · exact results_fresh hi j hm
      · exact henv j he

theorem not_version_empty (v : Value) : ∀ j, ¬ (fun _ => False : Value → Prop) (.version v j) :=
  fun _ h => h

/-- **One variable of the module**: its wires are in sight of its uses or
they are not. -/
theorem scopedItems_expandOne (m : List Item) (hin : ScopedItems (Family v) (fun _ => False) m)
    (hfresh : ∀ j, .version v j ∉ definedItems m) :
    ScopedItems (Family v) (fun _ => False) (expandOne v baseName m) ↔
      (m.any (Item.isVariable v) = true → WiresInSight v m) := by
  rw [expandOne]
  split
  · rename_i hany
    have hstart : Tracks v 0 (fun _ => False) (fun _ => False) ((none : Option ℕ) = none) := by
      simpa using tracks_start (not_version_empty v)
    have hspec := visitItems_spec baseName m 0 0 none _ _ (fun j hj => by simp at hj)
      hstart hin hfresh
    rw [scopedItems_expandInModule, hspec, seenFrom_placedUses_iff, hany]
    simp
  · rename_i hany
    refine iff_of_true ?_ fun h => absurd h hany
    exact scopedItems_map_family _ (not_version_empty v) m hin hfresh

end One

/-! ## The other variables -/

section Others

variable {u v : Value} {baseName : String}

theorem remap_eq_iff (hu : ¬ Family v u) (k : ℕ) (x : Value) : remap v k x = u ↔ x = u := by
  by_cases hx : x = v
  · subst hx
    rw [remap, if_pos rfl]
    refine iff_of_false (fun he => hu (he ▸ family_currentValue x k)) fun he => hu (.inl he.symm)
  · rw [remap, if_neg hx]

mutual

theorem usesOp_rewire (hu : ¬ Family v u) (direct : Bool) (k : ℕ) (o : Op) :
    usesOp u direct (rewireOp v k o) = usesOp u direct o := by
  match o with
  | .variable _ _ | .wire _ _ => rfl
  | .transfer _ dst src => simp only [rewireOp, usesOp, remap_eq_iff hu]
  | .ifOp cond t e =>
    simp only [rewireOp, usesOp, remap_eq_iff hu, usesOps_rewire hu false k t,
      usesOps_rewire hu false k e]
  | .op _ _ _ operands body =>
    simp only [rewireOp, usesOp, usesOps_rewire hu false k body]
    congr 1
    induction operands with
    | nil => rfl
    | cons x xs ih =>
      rw [List.map_cons, List.filter_cons, List.filter_cons]
      simp only [remap_eq_iff hu, decide_eq_true_eq]
      split
      · simp [ih]
      · exact ih

theorem usesOps_rewire (hu : ¬ Family v u) (direct : Bool) (k : ℕ) (os : List Op) :
    usesOps u direct (rewireOps v k os) = usesOps u direct os := by
  match os with
  | [] => rfl
  | o :: os =>
    simp only [rewireOps, usesOps, usesOp_rewire hu direct k o, usesOps_rewire hu direct k os]

end

theorem usesOps_append (w : Value) (direct : Bool) (as bs : List Op) :
    usesOps w direct (as ++ bs) = usesOps w direct as ++ usesOps w direct bs := by
  induction as with
  | nil => rfl
  | cons o as ih => simp only [List.cons_append, usesOps, ih, List.append_assoc]

theorem usesOp_visit (hu : ¬ Family v u) (k : ℕ) (o : Op) :
    usesOps u true (visitOp v baseName true k o).1 = usesOp u true o := by
  by_cases hv : Versions v true o
  · obtain ⟨-, clocked, src, rfl⟩ := hv
    have hself : v ≠ u := fun he => hu (.inl he.symm)
    have hver : Value.version v k ≠ u := fun he => hu (.inr ⟨k, he.symm⟩)
    rw [visitOp_versions]
    simp only [usesOps, usesOp, if_neg hself, if_neg hver, remap_eq_iff hu, List.nil_append,
      List.append_nil]
  · rw [visitOp_eq_rewire k o hv]
    simp only [usesOps, usesOp_rewire hu, List.append_nil]

theorem usesOps_visit (hu : ¬ Family v u) (k : ℕ) (os : List Op) :
    usesOps u true (visitOps v baseName true k os).1 = usesOps u true os := by
  induction os generalizing k with
  | nil => rfl
  | cons o os ih => simp only [visitOps, usesOps_append, usesOp_visit hu, ih, usesOps]

theorem placedUses_ops (w : Value) (i : ℕ) (os : List Op) (m : List Item) :
    placedUses w i (os.map .op ++ m) =
      (usesOps w true os).map (Use.mk none) ++ placedUses w i m := by
  induction os with
  | nil => rfl
  | cons o os ih => simp [placedUses, usesOps, ih]

theorem placedUses_visit (hu : ¬ Family v u) (i k : ℕ) (m : List Item) :
    placedUses u i (visitItems v baseName k m).1 = placedUses u i m := by
  induction m generalizing i k with
  | nil => rfl
  | cons it m ih =>
    cases it with
    | func _ body =>
      show (usesOps u true (visitOps v baseName true k body).1).map (Use.mk (some i)) ++
        placedUses u (i + 1) (visitItems v baseName (visitOps v baseName true k body).2 m).1 = _
      rw [usesOps_visit hu, ih, placedUses]
    | submodule => exact ih i k
    | op o =>
      show placedUses u i ((visitOp v baseName true k o).1.map .op ++ _) = _
      rw [placedUses_ops, usesOp_visit hu, ih, placedUses]

theorem usesOps_filter_variable (w : Value) (os : List Op) :
    usesOps w true (os.filter fun o => !o.isVariable v) = usesOps w true os := by
  induction os with
  | nil => rfl
  | cons o os ih =>
    cases ho : o.isVariable v with
    | true =>
      obtain ⟨name, rfl⟩ := isVariable_iff.1 ho
      rw [List.filter_cons_of_neg (by simp [ho]), ih]
      rfl
    | false => rw [List.filter_cons_of_pos (by simp [ho]), usesOps, usesOps, ih]

theorem placedUses_filter_variable (w : Value) (i : ℕ) (m : List Item) :
    placedUses w i (m.filter fun it => !it.isVariable v) = placedUses w i m := by
  induction m generalizing i with
  | nil => rfl
  | cons it m ih =>
    cases it with
    | func _ body => rw [List.filter_cons_of_pos rfl, placedUses, placedUses, ih]
    | submodule => rw [List.filter_cons_of_pos rfl, placedUses, placedUses, ih]
    | op o =>
      cases ho : o.isVariable v with
      | true =>
        obtain ⟨name, rfl⟩ := isVariable_iff.1 ho
        rw [List.filter_cons_of_neg (by simp [Item.isVariable, ho]), ih]
        rfl
      | false =>
        rw [List.filter_cons_of_pos (by simp [Item.isVariable, ho]), placedUses, placedUses, ih]

theorem usesOps_expandInFunc (hu : ¬ Family v u) (body : List Op) :
    usesOps u true (expandInFunc v baseName body) = usesOps u true body := by
  rw [expandInFunc]
  split
  · rw [usesOps_filter_variable, usesOps_visit hu]
  · exact usesOps_visit hu 0 body

theorem placedUses_map (hu : ¬ Family v u) (i : ℕ) (m : List Item) :
    placedUses u i (m.map (expandFunc v baseName)) = placedUses u i m := by
  induction m generalizing i with
  | nil => rfl
  | cons it m ih =>
    cases it with
    | func _ body =>
      simp only [List.map_cons, expandFunc, placedUses, ih]
      split
      · rw [usesOps_expandInFunc hu]
      · rfl
    | submodule => exact ih i
    | op o => simp only [List.map_cons, expandFunc, placedUses, ih]

/-- **The uses of one variable survive the expansion of another.** -/
theorem placedUses_expandOne (hu : ¬ Family v u) (i : ℕ) (m : List Item) :
    placedUses u i (expandOne v baseName m) = placedUses u i m := by
  rw [expandOne]
  split
  · rw [expandInModule]
    split
    · rw [placedUses_filter_variable, placedUses_visit hu]
    · exact placedUses_visit hu i 0 m
  · exact placedUses_map hu i m

theorem wiresInSight_expandOne (hu : ¬ Family v u) (m : List Item) :
    WiresInSight u (expandOne v baseName m) ↔ WiresInSight u m := by
  rw [WiresInSight, WiresInSight, placedUses_expandOne hu]

mutual

theorem definedOp_rewire (k : ℕ) (o : Op) : definedOp (rewireOp v k o) = definedOp o := by
  match o with
  | .variable _ _ | .wire _ _ | .transfer _ _ _ => rfl
  | .ifOp _ t e => simp only [rewireOp, definedOp, definedOps_rewire k t, definedOps_rewire k e]
  | .op _ _ _ _ body => simp only [rewireOp, definedOp, definedOps_rewire k body]

theorem definedOps_rewire (k : ℕ) (os : List Op) : definedOps (rewireOps v k os) = definedOps os := by
  match os with
  | [] => rfl
  | o :: os => simp only [rewireOps, definedOps, definedOp_rewire k o, definedOps_rewire k os]

end

theorem definedOps_append (as bs : List Op) :
    definedOps (as ++ bs) = definedOps as ++ definedOps bs := by
  induction as with
  | nil => rfl
  | cons o as ih => simp only [List.cons_append, definedOps, ih, List.append_assoc]

/-- A visit defines the wires of the variable and nothing else. -/
theorem mem_definedOp_visit (k : ℕ) (o : Op) {x : Value}
    (hx : x ∈ definedOps (visitOp v baseName true k o).1) : x ∈ definedOp o ∨ Family v x := by
  by_cases hv : Versions v true o
  · obtain ⟨-, clocked, src, rfl⟩ := hv
    rw [visitOp_versions] at hx
    exact .inr (.inr ⟨k, by simpa [definedOps, definedOp] using hx⟩)
  · rw [visitOp_eq_rewire k o hv] at hx
    exact .inl (by simpa [definedOps, definedOp_rewire] using hx)

variable (baseName) in
theorem mem_definedOps_visit (k : ℕ) (os : List Op) {x : Value}
    (hx : x ∈ definedOps (visitOps v baseName true k os).1) : x ∈ definedOps os ∨ Family v x := by
  induction os generalizing k with
  | nil => exact .inl hx
  | cons o os ih =>
    rw [visitOps, definedOps_append] at hx
    rw [definedOps, List.mem_append, or_assoc]
    obtain hx | hx := List.mem_append.1 hx
    · exact (mem_definedOp_visit k o hx).imp_right .inr
    · exact .inr (ih _ hx)

theorem definedItems_ops (os : List Op) : definedItems (os.map .op) = definedOps os := by
  induction os with
  | nil => rfl
  | cons o os ih =>
    rw [definedItems] at ih
    rw [List.map_cons, definedItems, List.flatMap_cons, ih]
    rfl

variable (baseName) in
theorem mem_definedItems_visit (k : ℕ) (m : List Item) {x : Value}
    (hx : x ∈ definedItems (visitItems v baseName k m).1) : x ∈ definedItems m ∨ Family v x := by
  induction m generalizing k with
  | nil => exact .inl hx
  | cons it m ih =>
    rw [visitItems, definedItems, List.flatMap_append, List.mem_append] at hx
    rw [definedItems, List.flatMap_cons, List.mem_append, or_assoc]
    obtain hx | hx := hx
    · refine Or.imp_right .inr ?_
      cases it with
      | func _ body =>
        exact mem_definedOps_visit _ k body (by simpa [visitItem, definedItem] using hx)
      | submodule => exact .inl (by simpa [visitItem] using hx)
      | op o =>
        rw [← definedItems, visitItem, definedItems_ops] at hx
        exact mem_definedOp_visit k o hx
    · exact .inr (ih _ hx)

theorem definedOps_filter_subset (p : Op → Bool) (os : List Op) :
    definedOps (os.filter p) ⊆ definedOps os := by
  induction os with
  | nil => exact fun _ hx => hx
  | cons o os ih =>
    rw [List.filter_cons]
    split
    · exact List.append_subset.2 ⟨List.subset_append_left _ _,
        List.Subset.trans ih (List.subset_append_right _ _)⟩
    · exact List.Subset.trans ih (List.subset_append_right _ _)

theorem mem_definedItems_expandOne (m : List Item) {x : Value}
    (hx : x ∈ definedItems (expandOne v baseName m)) : x ∈ definedItems m ∨ Family v x := by
  rw [expandOne] at hx
  split at hx
  · refine mem_definedItems_visit baseName 0 m ?_
    rw [expandInModule] at hx
    split at hx
    · obtain ⟨i, hi, hxi⟩ := List.mem_flatMap.1 hx
      exact List.mem_flatMap.2 ⟨i, List.mem_of_mem_filter hi, hxi⟩
    · exact hx
  · obtain ⟨it, hit, hxi⟩ := List.mem_flatMap.1 hx
    obtain ⟨i, hi, rfl⟩ := List.mem_map.1 hit
    refine Or.imp_left (fun h => List.mem_flatMap.2 ⟨i, hi, h⟩) ?_
    cases i with
    | func _ body =>
      simp only [expandFunc, definedItem] at hxi
      split at hxi
      · refine mem_definedOps_visit baseName 0 body ?_
        rw [expandInFunc] at hxi
        split at hxi
        · exact definedOps_filter_subset _ _ hxi
        · exact hxi
      · exact .inl hxi
    | submodule => exact .inl hxi
    | op o => exact .inl hxi

theorem isVariable_visitOp (k : ℕ) (o : Op) :
    (visitOp v baseName true k o).1.any (Op.isVariable u) = o.isVariable u := by
  by_cases hv : Versions v true o
  · obtain ⟨-, clocked, src, rfl⟩ := hv
    rw [visitOp_versions]
    rfl
  · rw [visitOp_eq_rewire k o hv]
    cases o <;> simp [rewireOp, Op.isVariable]

theorem any_isVariable_visitOps (k : ℕ) (os : List Op) :
    (visitOps v baseName true k os).1.any (Op.isVariable u) = os.any (Op.isVariable u) := by
  induction os generalizing k with
  | nil => rfl
  | cons o os ih => simp only [visitOps, List.any_append, isVariable_visitOp, ih, List.any_cons]

theorem any_isVariable_filter (huv : u ≠ v) (os : List Op) :
    (os.filter fun o => !o.isVariable v).any (Op.isVariable u) = os.any (Op.isVariable u) := by
  rw [List.any_filter]
  congr 1
  funext o
  cases o with
  | «variable» result name =>
    by_cases hr : result = u
    · simp [Op.isVariable, hr, huv]
    · simp [Op.isVariable, hr]
  | _ => rfl

theorem any_isVariable_expandInFunc (huv : u ≠ v) (body : List Op) :
    (expandInFunc v baseName body).any (Op.isVariable u) = body.any (Op.isVariable u) := by
  rw [expandInFunc]
  split
  · rw [any_isVariable_filter huv, any_isVariable_visitOps]
  · exact any_isVariable_visitOps 0 body

theorem isVariable_visitItem (k : ℕ) (i : Item) :
    (visitItem v baseName k i).1.any (Item.isVariable u) = i.isVariable u := by
  cases i with
  | func => rfl
  | submodule => rfl
  | op o =>
    rw [visitItem, List.any_map]
    exact isVariable_visitOp k o

theorem any_isVariable_visit (k : ℕ) (m : List Item) :
    (visitItems v baseName k m).1.any (Item.isVariable u) = m.any (Item.isVariable u) := by
  induction m generalizing k with
  | nil => rfl
  | cons i m ih => simp only [visitItems, List.any_append, isVariable_visitItem, ih, List.any_cons]

theorem anyItem_isVariable_filter (huv : u ≠ v) (m : List Item) :
    (m.filter fun i => !i.isVariable v).any (Item.isVariable u) = m.any (Item.isVariable u) := by
  rw [List.any_filter]
  congr 1
  funext i
  cases i with
  | func => rfl
  | submodule => rfl
  | op o =>
    have hone := any_isVariable_filter huv [o]
    cases hv : o.isVariable v <;> simp_all [Item.isVariable]

/-- The variables of the module stay where they are, but for the expanded
one. -/
theorem any_isVariable_expandOne (huv : u ≠ v) (m : List Item) :
    (expandOne v baseName m).any (Item.isVariable u) = m.any (Item.isVariable u) := by
  rw [expandOne]
  split
  · rw [expandInModule]
    split
    · rw [anyItem_isVariable_filter huv, any_isVariable_visit]
    · exact any_isVariable_visit 0 m
  · rw [List.any_map]
    congr 1
    funext i
    cases i <;> rfl

end Others

/-! ## All variables -/

theorem family_source {a b : ℕ} {x : Value} (ha : Family (.source a) x)
    (hb : Family (.source b) x) : a = b := by
  obtain rfl | ⟨j, rfl⟩ := ha
  · obtain he | ⟨k, he⟩ := hb
    · exact Value.source.inj he
    · cases he
  · obtain he | ⟨k, he⟩ := hb
    · cases he
    · exact Value.source.inj (Value.version.inj he).1

/-- What holds of the variables still to be expanded. -/
structure Pending (vs : List (Value × String)) (m : List Item) : Prop where
  nodup : (vs.map Prod.fst).Nodup
  source : ∀ x ∈ vs, ∃ n, x.1 = .source n
  inScope : ∀ x ∈ vs, ScopedItems (Family x.1) (fun _ => False) m
  fresh : ∀ x ∈ vs, ∀ j, .version x.1 j ∉ definedItems m

theorem Pending.apart {x : Value × String} {vs : List (Value × String)} {m : List Item}
    (h : Pending (x :: vs) m) {y : Value × String} (hy : y ∈ vs) (z : Value) :
    Family y.1 z → ¬ Family x.1 z := by
  intro hyz hxz
  obtain ⟨a, ha⟩ := h.source x (by simp)
  obtain ⟨b, hb⟩ := h.source y (by simp [hy])
  rw [ha] at hxz
  rw [hb] at hyz
  have hmem : x.1 ∈ vs.map Prod.fst := by
    rw [ha, family_source hxz hyz, ← hb]
    exact List.mem_map_of_mem hy
  exact (List.nodup_cons.1 h.nodup).1 hmem

theorem Pending.step {x : Value × String} {vs : List (Value × String)} {m : List Item}
    (h : Pending (x :: vs) m) : Pending vs (expandOne x.1 x.2 m) where
  nodup := (List.nodup_cons.1 h.nodup).2
  source y hy := h.source y (by simp [hy])
  inScope y hy := (scopedItems_expandOne_other (h.apart hy) _ m).2 (h.inScope y (by simp [hy]))
  fresh y hy j hj := by
    obtain hm | hf := mem_definedItems_expandOne m hj
    · exact h.fresh y (by simp [hy]) j hm
    · exact h.apart hy _ (.inr ⟨j, rfl⟩) hf

theorem scopedItems_foldl_other {care : Value → Prop} (vs : List (Value × String)) (m : List Item)
    (hcare : ∀ x ∈ vs, ∀ y, care y → ¬ Family x.1 y) :
    ScopedItems care (fun _ => False) (vs.foldl (fun m x => expandOne x.1 x.2 m) m) ↔
      ScopedItems care (fun _ => False) m := by
  induction vs generalizing m with
  | nil => exact Iff.rfl
  | cons x vs ih =>
    rw [List.foldl_cons, ih _ fun y hy => hcare y (by simp [hy]),
      scopedItems_expandOne_other (hcare x (by simp))]

/-- **Each variable by itself.** -/
theorem scopedItems_foldl (vs : List (Value × String)) (m : List Item) (h : Pending vs m)
    (x : Value × String) (hx : x ∈ vs) :
    ScopedItems (Family x.1) (fun _ => False) (vs.foldl (fun m x => expandOne x.1 x.2 m) m) ↔
      (m.any (Item.isVariable x.1) = true → WiresInSight x.1 m) := by
  induction vs generalizing m with
  | nil => simp at hx
  | cons y vs ih =>
    rw [List.foldl_cons]
    obtain rfl | hmem := List.mem_cons.1 hx
    · have hapart : ∀ z ∈ vs, ∀ w, Family x.1 w → ¬ Family z.1 w := fun z hz w hw hzw =>
        h.apart hz w hzw hw
      rw [scopedItems_foldl_other vs _ hapart,
        scopedItems_expandOne m (h.inScope x (by simp)) (h.fresh x (by simp))]
    · have hself : ¬ Family y.1 x.1 := h.apart hmem _ (.inl rfl)
      rw [ih _ h.step hmem, wiresInSight_expandOne hself,
        any_isVariable_expandOne fun he => hself (.inl he)]

theorem any_isVariable_collected {v : Value} {body : List Op} (h : body.any (Op.isVariable v) = true) :
    v ∈ (body.filterMap Op.variable?).map Prod.fst := by
  obtain ⟨o, ho, hv⟩ := List.any_eq_true.1 h
  obtain ⟨name, rfl⟩ := isVariable_iff.1 hv
  exact List.mem_map.2 ⟨(v, name), List.mem_filterMap.2 ⟨_, ho, rfl⟩, rfl⟩

theorem collected_ops (os : List Op) :
    ((os.filterMap Op.variable?).map Prod.fst).Sublist (definedOps os) := by
  induction os with
  | nil => exact .slnil
  | cons o os ih =>
    cases o with
    | «variable» result name => exact ih.cons_cons result
    | wire => exact ih.cons _
    | transfer => exact ih
    | ifOp => exact ih.trans (List.sublist_append_right _ _)
    | op => exact ih.trans (List.sublist_append_right _ _)

theorem collected_sublist (m : List Item) :
    ((collectVariables m).map Prod.fst).Sublist (definedItems m) := by
  induction m with
  | nil => exact .slnil
  | cons i m ih =>
    rw [collectVariables, List.flatMap_cons, List.map_append]
    refine List.Sublist.append ?_ ih
    cases i with
    | func _ body => exact collected_ops body
    | submodule => exact List.nil_sublist _
    | op o => cases o <;> simp [Item.variablesIn, Op.variable?, definedItem, definedOp]

theorem any_isVariable_iff (v : Value) (m : List Item) :
    m.any (Item.isVariable v) = true ↔ ∃ name, .op (.variable v name) ∈ m := by
  rw [List.any_eq_true]
  constructor
  · rintro ⟨i, hi, hv⟩
    cases i with
    | op o =>
      obtain ⟨name, rfl⟩ := isVariable_iff.1 hv
      exact ⟨name, hi⟩
    | func => cases hv
    | submodule => cases hv
  · rintro ⟨name, hm⟩
    exact ⟨_, hm, by simp [Item.isVariable, Op.isVariable]⟩

theorem Verified.pending {m : List Item} (h : Verified m) : Pending (collectVariables m) m where
  nodup := h.nodup.sublist (collected_sublist m)
  source x hx := h.source _ ((collected_sublist m).subset (List.mem_map_of_mem hx))
  inScope _ _ := (scopedItems_forall _ m).2 fun y _ => (scopedItems_forall _ m).1 h.visible y trivial
  fresh _ _ j hj := by
    obtain ⟨n, hn⟩ := h.source _ hj
    cases hn

/-- **Every operand is visible at its use** exactly where every use of a
variable of the module has the last wire before it in sight. -/
theorem visible_expandVariables_iff (m : List Item) (h : Verified m) :
    Visible (expandVariables m) ↔ ∀ v name, .op (.variable v name) ∈ m → WiresInSight v m := by
  have hcollect : ∀ v name, .op (.variable v name) ∈ m → (v, name) ∈ collectVariables m :=
    fun v name hm => List.mem_flatMap.2 ⟨_, hm, by simp [Item.variablesIn, Op.variable?]⟩
  have hall : ∀ care : Value → Prop, ScopedItems care (fun _ => False) m := fun care =>
    (scopedItems_forall _ m).2 fun y _ => (scopedItems_forall _ m).1 h.visible y trivial
  constructor
  · intro hvis v name hm
    refine (scopedItems_foldl _ m h.pending _ (hcollect v name hm)).1 ?_
      ((any_isVariable_iff v m).2 ⟨name, hm⟩)
    exact (scopedItems_forall _ _).2 fun y _ => (scopedItems_forall _ _).1 hvis y trivial
  · refine fun hsight => (scopedItems_forall _ _).2 fun y _ => ?_
    by_cases hy : ∃ x ∈ collectVariables m, Family x.1 y
    · obtain ⟨x, hx, hxy⟩ := hy
      have hfam := (scopedItems_foldl _ m h.pending x hx).2 fun hany => by
        obtain ⟨name, hm⟩ := (any_isVariable_iff x.1 m).1 hany
        exact hsight x.1 name hm
      exact (scopedItems_forall _ _).1 hfam y hxy
    · refine (scopedItems_foldl_other _ m fun x hx z hz hf => hy ⟨x, hx, ?_⟩).2 (hall _)
      obtain rfl : z = y := hz
      exact hf

/-- Between two functions the module may write the variable itself. -/
def twoFunctions (between : List Item) : List Item :=
  [.op (.variable (.source 0) "v"), .op (.op "nsl.reg" (some "r") [.source 1] [] []),
    .func "f" [.transfer false (.source 0) (.source 1)]] ++
  between ++ [.func "g" [.transfer true (.source 1) (.source 0)]]

def moduleWrite : List Item := [.op (.transfer false (.source 0) (.source 1))]

theorem verified_twoFunctions (between : List Item) (h : between = [] ∨ between = moduleWrite) :
    Verified (twoFunctions between) := by
  obtain rfl | rfl := h
  all_goals
    refine ⟨?_, by decide, fun x hx => ?_⟩
    · simp [twoFunctions, moduleWrite, Visible, ScopedItems, ScopedOp, ScopedOps, bind, Op.results]
    · have : x = .source 0 ∨ x = .source 1 := by
        simpa [twoFunctions, moduleWrite, definedItems, definedItem, definedOps, definedOp] using hx
      obtain rfl | rfl := this
      · exact ⟨0, rfl⟩
      · exact ⟨1, rfl⟩

/-- With a write of the module in between, `g` reads the wire of the
module. -/
theorem visible_moduleWrite : Visible (expandVariables (twoFunctions moduleWrite)) := by
  refine (visible_expandVariables_iff _ (verified_twoFunctions _ (.inr rfl))).2 fun v name hm => ?_
  obtain ⟨rfl, -⟩ : v = .source 0 ∧ name = "v" := by simpa [twoFunctions, moduleWrite] using hm
  refine (seenFrom_placedUses_iff _ _).1 ?_
  have huses : placedUses (.source 0) 0 (twoFunctions moduleWrite) =
      [⟨some 0, true⟩, ⟨none, true⟩, ⟨some 1, false⟩] := by decide
  simp [huses, SeenFrom]

/-- Without it the wire stands in `f`, and `g` reads it. -/
theorem not_visible_twoFunctions :
    Verified (twoFunctions []) ∧ ¬ Visible (expandVariables (twoFunctions [])) := by
  refine ⟨verified_twoFunctions _ (.inl rfl), fun h => ?_⟩
  have hout : expandVariables (twoFunctions []) =
      [.op (.op "nsl.reg" (some "r") [.source 1] [] []),
        .func "f" [.wire (.version (.source 0) 0) "v",
          .transfer false (.version (.source 0) 0) (.source 1)],
        .func "g" [.transfer true (.source 1) (.version (.source 0) 0)]] := by rfl
  rw [hout] at h
  simp [Visible, ScopedItems, ScopedOp, ScopedOps, bind, Op.results] at h

end Variables

end Nslc
