import Nslc.Lower.Order
/-!
# Permuting statements

Statements of a block, at any depth, are put in another order. The
equations of the module stay the same up to order, so if both orders can
be lowered in order, and every register gets its writes in the same
sequence, the two circuits compute the same outputs and next values.
-/

namespace Nslc

namespace Lower

open Dialect Circt

/-! ## Permutations at any depth -/

/-- The blocks whose statements are concurrent, as contexts. The
children of `nsl.alt` and `nsl.any` stay where they are. -/
inductive Block : (List Op → Op) → Prop
  | parallel : Block Op.parallel
  | func (symName : String) : Block (Op.func symName)
  | thenRegion (cond : Val) (elseRegion : List Op) : Block fun b => .ifOp cond b elseRegion
  | elseRegion (cond : Val) (thenRegion : List Op) : Block fun b => .ifOp cond thenRegion b
  | altCase (xs : List Op) (cond : Val) (ys : List Op) :
    Block fun b => .alt (xs ++ .case cond b :: ys)
  | altDefault (xs ys : List Op) : Block fun b => .alt (xs ++ .default b :: ys)
  | anyCase (xs : List Op) (cond : Val) (ys : List Op) :
    Block fun b => .any (xs ++ .case cond b :: ys)
  | anyDefault (xs ys : List Op) : Block fun b => .any (xs ++ .default b :: ys)

/-- The statements of one block in another order. -/
inductive PermIn : List Op → List Op → Prop
  | here {as bs : List Op} : as.Perm bs → PermIn as bs
  | block {C : List Op → Op} {as bs : List Op} (pre post : List Op) :
    Block C → PermIn as bs → PermIn (pre ++ C as :: post) (pre ++ C bs :: post)

/-- Accesses without an equation of their own. -/
def Act.isQuiet : Act → Bool
  | .test _ | .clocked _ _ _ | .gather _ _ | .join _ _ | .conditional _ | .unhandled => true
  | _ => false

section Quiet

variable {β : Type} {f : Act → Option β}

theorem actsAll_eq_flatMap (top : Bool) (gs : Guards Val) (ops : List Op) :
    actsAll top gs ops = ops.flatMap (acts top gs) := by
  induction ops with
  | nil => rfl
  | cons op ops ih => rw [actsAll, ih, List.flatMap_cons]

theorem quiet_joins (hf : ∀ a, a.isQuiet = true → f a = none) (accs : List AnyTerms) :
    (accs.map fun b => Act.join b.target b.terms).filterMap f = [] := by
  rw [List.filterMap_map, List.filterMap_eq_nil_iff]
  exact fun b _ => hf (.join b.target b.terms) rfl

/-- In a case of `nsl.any` the gathered writes have no equation. -/
theorem quiet_actsAnyBody (hf : ∀ a, a.isQuiet = true → f a = none) (gs : Guards Val)
    (accs : List AnyTerms) (ops : List Op) :
    (actsAnyBody gs accs ops).1.filterMap f = (actsAll false gs ops).filterMap f := by
  induction ops generalizing accs with
  | nil => rfl
  | cons op ops ih =>
    cases op with
    | transfer dst src =>
      simp [actsAnyBody, actsAll, acts, hf (.conditional dst) rfl, ih]
    | clockedTransfer dst src =>
      simp [actsAnyBody, actsAll, acts, hf (.gather dst src) rfl, hf (.clocked dst src gs) rfl, ih]
    | _ => simp only [actsAnyBody, actsAll, List.filterMap_append, ih]

theorem quiet_actsAny (hf : ∀ a, a.isQuiet = true → f a = none) (gs : Guards Val)
    (accs accs' : List AnyTerms) (children : List Op) :
    (actsAny gs accs children).1.filterMap f = (actsAny gs accs' children).1.filterMap f := by
  induction children generalizing accs accs' with
  | nil => rfl
  | cons child children ih =>
    cases child with
    | case cond body =>
      simp only [actsAny, List.filterMap_cons, hf (.test cond) rfl, List.filterMap_append,
        quiet_actsAnyBody hf]
      rw [ih]
    | default body =>
      simp only [actsAny, List.filterMap_append, quiet_actsAnyBody hf]
      rw [ih]
    | _ => exact ih _ _

/-- The equations of statements `b`, with others around them. -/
def Around (f : Act → Option β) (F : List Op → List β) : Prop :=
  ∃ P Q top gs, ∀ b, F b = P ++ (actsAll top gs b).filterMap f ++ Q

theorem Around.surround {F : List Op → List β} (h : Around f F) (P Q : List β) :
    Around f fun b => P ++ F b ++ Q := by
  obtain ⟨P', Q', top, gs, h⟩ := h
  exact ⟨P ++ P', Q' ++ Q, top, gs, fun b => by simp [h b]⟩

theorem around_self (f : Act → Option β) (top : Bool) (gs : Guards Val) :
    Around f fun b => (actsAll top gs b).filterMap f :=
  ⟨[], [], top, gs, fun b => by simp⟩

theorem Around.congr {F F' : List Op → List β} (h : Around f F) (he : ∀ b, F' b = F b) :
    Around f F' := by
  rwa [show F' = F from funext he]

/-- Children of `nsl.alt` in front of the block. -/
theorem around_alt (hf : ∀ a, a.isQuiet = true → f a = none) {gs : Guards Val}
    {tail : List Op → List Op}
    (h : ∀ covered, Around f fun b => (actsAlt gs covered (tail b)).filterMap f) (xs : List Op) :
    ∀ covered, Around f fun b => (actsAlt gs covered (xs ++ tail b)).filterMap f := by
  induction xs with
  | nil => exact h
  | cons x xs ih =>
    intro covered
    cases x with
    | case c body =>
      refine ((ih (covered ++ [c])).surround
        ((actsAll false (caseGuards c covered ++ gs) body).filterMap f) []).congr fun b => ?_
      simp [actsAlt, hf (.test c) rfl]
    | default body =>
      refine ((ih covered).surround
        ((actsAll false (defaultGuards covered ++ gs) body).filterMap f) []).congr fun b => ?_
      simp [actsAlt]
    | _ => exact ih covered

theorem around_any (hf : ∀ a, a.isQuiet = true → f a = none) {gs : Guards Val}
    {tail : List Op → List Op}
    (h : ∀ accs, Around f fun b => (actsAny gs accs (tail b)).1.filterMap f) (xs : List Op) :
    ∀ accs, Around f fun b => (actsAny gs accs (xs ++ tail b)).1.filterMap f := by
  induction xs with
  | nil => exact h
  | cons x xs ih =>
    intro accs
    cases x with
    | case c body =>
      refine ((ih (actsAnyBody ((c, true) :: gs) accs body).2).surround
        ((actsAnyBody ((c, true) :: gs) accs body).1.filterMap f) []).congr fun b => ?_
      simp [actsAny, hf (.test c) rfl]
    | default body =>
      refine ((ih (actsAnyBody gs accs body).2).surround
        ((actsAnyBody gs accs body).1.filterMap f) []).congr fun b => ?_
      simp [actsAny]
    | _ => exact ih accs

/-- The equations of a block are those of its statements, with others
around them. -/
theorem around_block (hf : ∀ a, a.isQuiet = true → f a = none) {C : List Op → Op} (hC : Block C)
    (top : Bool) (gs : Guards Val) : Around f fun b => (acts top gs (C b)).filterMap f := by
  have hjoined : ∀ {F : List Op → List Op},
      (∀ accs, Around f fun b => (actsAny gs accs (F b)).1.filterMap f) →
      Around f fun b => (acts top gs (.any (F b))).filterMap f := fun {F} h => by
    refine (h []).congr fun b => ?_
    simp only [acts, List.filterMap_append, quiet_joins hf, List.append_nil]
  cases hC with
  | parallel => exact (around_self f top gs).congr fun b => by simp only [acts]
  | func symName => exact (around_self f top gs).congr fun b => by simp only [acts]
  | thenRegion cond elseRegion =>
    refine ((around_self f false ((cond, true) :: gs)).surround []
      ((actsAll false ((cond, false) :: gs) elseRegion).filterMap f)).congr fun b => ?_
    simp [acts, hf (.test cond) rfl]
  | elseRegion cond thenRegion =>
    refine ((around_self f false ((cond, false) :: gs)).surround
      ((actsAll false ((cond, true) :: gs) thenRegion).filterMap f) []).congr fun b => ?_
    simp [acts, hf (.test cond) rfl]
  | altCase xs cond ys =>
    have htail : ∀ covered, Around f fun b =>
        (actsAlt gs covered (.case cond b :: ys)).filterMap f := fun covered => by
      refine ((around_self f false (caseGuards cond covered ++ gs)).surround []
        ((actsAlt gs (covered ++ [cond]) ys).filterMap f)).congr fun b => ?_
      simp [actsAlt, hf (.test cond) rfl]
    exact (around_alt hf htail xs []).congr fun b => by simp only [acts]
  | altDefault xs ys =>
    have htail : ∀ covered, Around f fun b =>
        (actsAlt gs covered (.default b :: ys)).filterMap f := fun covered => by
      refine ((around_self f false (defaultGuards covered ++ gs)).surround []
        ((actsAlt gs covered ys).filterMap f)).congr fun b => ?_
      simp [actsAlt]
    exact (around_alt hf htail xs []).congr fun b => by simp only [acts]
  | anyCase xs cond ys =>
    refine hjoined (around_any hf (fun accs => ?_) xs)
    refine ((around_self f false ((cond, true) :: gs)).surround []
      ((actsAny gs [] ys).1.filterMap f)).congr fun b => ?_
    simp only [actsAny, List.filterMap_cons, hf (.test cond) rfl, List.filterMap_append,
      quiet_actsAnyBody hf, List.nil_append]
    rw [quiet_actsAny hf gs _ []]
  | anyDefault xs ys =>
    refine hjoined (around_any hf (fun accs => ?_) xs)
    refine ((around_self f false gs).surround []
      ((actsAny gs [] ys).1.filterMap f)).congr fun b => ?_
    simp only [actsAny, List.filterMap_append, quiet_actsAnyBody hf, List.nil_append]
    rw [quiet_actsAny hf gs _ []]

theorem Around.perm {F : List Op → List β} (h : Around f F) {as bs : List Op}
    (hp : ∀ top gs, ((actsAll top gs as).filterMap f).Perm ((actsAll top gs bs).filterMap f)) :
    (F as).Perm (F bs) := by
  obtain ⟨P, Q, top, gs, h⟩ := h
  rw [h as, h bs]
  exact ((hp top gs).append_left P).append_right Q

/-- Permuted statements have the same equations. -/
theorem permIn_acts (hf : ∀ a, a.isQuiet = true → f a = none) {as bs : List Op} (h : PermIn as bs)
    (top : Bool) (gs : Guards Val) :
    ((actsAll top gs as).filterMap f).Perm ((actsAll top gs bs).filterMap f) := by
  induction h generalizing top gs with
  | here hp =>
    rw [actsAll_eq_flatMap, actsAll_eq_flatMap]
    exact (hp.flatMap_right _).filterMap f
  | block pre post hC _ ih =>
    simp only [actsAll_eq_flatMap, List.flatMap_append, List.flatMap_cons, List.filterMap_append]
    refine List.Perm.append_left _ (List.Perm.append_right _ ?_)
    exact (around_block hf hC top gs).perm ih

end Quiet

/-! ## Modules -/

theorem block_isSeq {C : List Op → Op} (hC : Block C) (b : List Op) : (C b).isSeq = false := by
  cases hC <;> rfl

theorem permIn_isSeq {as bs : List Op} (h : PermIn as bs) : as.any Op.isSeq = bs.any Op.isSeq := by
  induction h with
  | here hp => exact hp.any_eq
  | block pre post hC _ _ => simp [block_isSeq hC]

/-- The writes to register `r`. -/
def Act.writes (r : Val) : Act → Bool
  | .reg res _ => res = r
  | .clocked dst _ _ | .join dst _ => dst = r
  | _ => false

/-- **The same module with statements permuted**: declarations stay in
order, and so do the writes to each register. -/
structure Permuted (m m' : NslModule) : Prop where
  declare : m'.declare = m.declare
  body : PermIn m.body m'.body
  outs : m'.outs = m.outs
  regs : m'.regResults = m.regResults
  writes : ∀ r, m'.acts.filter (Act.writes r) = m.acts.filter (Act.writes r)

section Modules

variable {m m' : NslModule} {ρ : Valuation}

theorem quiet_assign? (ρ : Valuation) : ∀ a : Act, a.isQuiet = true → a.assign? ρ = none := by
  intro a ha
  cases a <;> simp_all [Act.isQuiet, Act.assign?]

theorem perm_bodyActs {β : Type} {f : Act → Option β} (hf : ∀ a, a.isQuiet = true → f a = none)
    (regs : List Val) {as bs : List Op} (h : PermIn as bs) :
    ((as.flatMap (bodyActs regs)).filterMap f).Perm ((bs.flatMap (bodyActs regs)).filterMap f) := by
  cases h with
  | here hp => exact (hp.flatMap_right _).filterMap f
  | block pre post hC hp =>
    simp only [List.flatMap_append, List.flatMap_cons, List.filterMap_append]
    refine List.Perm.append_left _ (List.Perm.append_right _ ?_)
    have hin := (around_block hf hC true []).perm fun top gs => permIn_acts hf hp top gs
    cases hC with
    | func symName =>
      simp only [bodyActs, permIn_isSeq hp]
      split
      · exact .refl _
      · exact hin
    | _ => exact hin

theorem perm_portActs (hd : m'.declare = m.declare) {as bs : List Op} (h : PermIn as bs) :
    (as.flatMap m.portActs).Perm (bs.flatMap m'.portActs) := by
  have hsame : m'.portActs = m.portActs := by
    funext op
    simp only [NslModule.portActs, NslModule.inputPorts, hd]
  rw [hsame]
  cases h with
  | here hp => exact hp.flatMap_right _
  | block pre post hC hp =>
    rename_i C _ _
    have hnone : ∀ b, m.portActs (C b) = [] := fun b => by cases hC <;> rfl
    simp [hnone]

/-- **The equations are the same.** -/
theorem perm_equations (h : Permuted m m') (ρ : Valuation) :
    (m.equations ρ).Perm (m'.equations ρ) := by
  unfold NslModule.equations NslModule.acts
  rw [List.filterMap_append, List.filterMap_append, h.regs]
  exact ((perm_portActs h.declare h.body).filterMap _).append
    (perm_bodyActs (quiet_assign? ρ) _ h.body)

theorem equations_ordered (hm : InOrder m) (ρ : Valuation) :
    Assign.Ordered [] (m.equations ρ) := by
  obtain ⟨k, hk⟩ := Option.isSome_iff_exists.1 hm.steps
  have hap : Known.empty.Apart m.outs := ⟨by simp [Known.empty], by simp [Known.empty]⟩
  exact (steps_ordered ρ hk hap (fun v => (by simp [Known.empty] : v ∈ ([] : List Val) ↔ _))).2.1

theorem targets_eq (m : NslModule) (ρ : Valuation) :
    m.targets = (m.equations ρ).map Assign.target := by
  unfold NslModule.targets NslModule.equations
  rw [List.map_filterMap]
  congr 1
  funext a
  exact Act.target?_eq ρ a

/-- The two orders have the same cycle. -/
theorem cycle_eq (h : Permuted m m') (hm : InOrder m) (hm' : InOrder m') (ρ : Valuation) :
    ∀ v ∈ m.targets, m.cycle ρ v = m'.cycle ρ v := by
  rw [targets_eq m ρ]
  exact settle_perm (perm_equations h ρ) (equations_ordered hm ρ) (equations_ordered hm' ρ)

/-- The values a write to a register reads. -/
def Act.inputs : Act → List Val
  | .reg res _ => [res]
  | .clocked dst src gs => dst :: src :: gs.map Prod.fst
  | .join dst terms => dst :: terms.flatMap fun t => t.2 :: t.1.map Prod.fst
  | _ => []

theorem values_congr {E E' : Val → Bits} {gs : Guards Val} (h : ∀ g ∈ gs, E g.1 = E' g.1) :
    Guards.values E gs = Guards.values E' gs :=
  List.map_congr_left fun g hg => by rw [h g hg]

theorem termValue_congr {E E' : Val → Bits} {t : Guards Val × Val} (hsrc : E t.2 = E' t.2)
    (h : ∀ g ∈ t.1, E g.1 = E' g.1) : termValue E t = termValue E' t := by
  unfold termValue
  rw [values_congr h, hsrc]

theorem joinValue_congr {E E' : Val → Bits} {ts : List (Guards Val × Val)}
    (h : ∀ t ∈ ts, termValue E t = termValue E' t) : joinValue E ts = joinValue E' ts := by
  cases ts with
  | nil => rfl
  | cons t ts =>
    simp only [joinValue]
    rw [h t (by simp)]
    generalize termValue E' t = b
    have hts : ∀ t' ∈ ts, termValue E t' = termValue E' t' := fun t' ht' => h t' (by simp [ht'])
    clear h
    induction ts generalizing b with
    | nil => rfl
    | cons t' ts ih =>
      rw [List.foldl_cons, List.foldl_cons, hts t' (by simp)]
      exact ih _ fun t'' h'' => hts t'' (by simp [h''])

theorem next_congr {E E' : Val → Bits} {a : Act} (h : ∀ v ∈ a.inputs, E v = E' v) (r : Val)
    (b : Bits) : a.next E r b = a.next E' r b := by
  cases a with
  | reg res index =>
    simp only [Act.next]
    split
    · rename_i he
      exact he ▸ h res (by simp [Act.inputs])
    · rfl
  | clocked dst src gs =>
    have hgs : Guards.values E gs = Guards.values E' gs := by
      refine values_congr fun g hg => h g.1 ?_
      simp only [Act.inputs, List.mem_cons]
      exact .inr (.inr (List.mem_map_of_mem hg))
    simp only [Act.next, hgs, h src (by simp [Act.inputs])]
  | join dst terms =>
    have hts : joinValue E terms = joinValue E' terms := by
      refine joinValue_congr fun t ht => termValue_congr ?_ fun g hg => ?_
      · refine h t.2 ?_
        simp only [Act.inputs, List.mem_cons, List.mem_flatMap]
        exact .inr ⟨t, ht, .inl rfl⟩
      · refine h g.1 ?_
        simp only [Act.inputs, List.mem_cons, List.mem_flatMap]
        exact .inr ⟨t, ht, .inr (List.mem_map_of_mem hg)⟩
    simp only [Act.next, hts]
  | _ => rfl

theorem nextValue_filter (E : Val → Bits) (r : Val) (as : List Act) :
    nextValue E r as = nextValue E r (as.filter (Act.writes r)) := by
  unfold nextValue
  generalize E r = b
  induction as generalizing b with
  | nil => rfl
  | cons a as ih =>
    by_cases ha : a.writes r = true
    · rw [List.filter_cons_of_pos ha]
      exact ih _
    · rw [List.filter_cons_of_neg ha, List.foldl_cons]
      have hsame : a.next E r b = b := by
        cases a <;> simp_all [Act.writes, Act.next]
      rw [hsame]
      exact ih b

theorem nextValue_congr {E E' : Val → Bits} {r : Val} {as : List Act} (hr : E r = E' r)
    (h : ∀ a ∈ as, ∀ v ∈ a.inputs, E v = E' v) : nextValue E r as = nextValue E' r as := by
  unfold nextValue
  rw [hr]
  generalize E' r = b
  induction as generalizing b with
  | nil => rfl
  | cons a as ih =>
    rw [List.foldl_cons, List.foldl_cons, next_congr (h a (by simp))]
    exact ih (fun a' ha' => h a' (by simp [ha'])) _

theorem step_inputs {outs : List (Val × String)} {a : Act} {k k' : Known}
    (h : k.step outs a = some k') (hk : ∀ v ∈ k.regs, v ∈ k.vals) :
    (∀ v ∈ k.vals, v ∈ k'.vals) ∧ (∀ v ∈ k'.regs, v ∈ k'.vals) ∧ ∀ v ∈ a.inputs, v ∈ k'.vals := by
  cases a with
  | reg res index =>
    simp only [Known.step, Option.ite_none_right_eq_some, Option.some.injEq] at h
    obtain ⟨-, rfl⟩ := h
    refine ⟨fun v hv => by simp [hv], fun v hv => ?_, by simp [Act.inputs]⟩
    rcases List.mem_append.1 hv with hv | hv
    · exact List.mem_cons_of_mem _ (hk v hv)
    · simp [List.mem_singleton.1 hv]
  | clocked dst src gs =>
    simp only [Known.step, Option.ite_none_right_eq_some, Option.some.injEq] at h
    obtain ⟨⟨hdst, hsrc, -, hgs⟩, rfl⟩ := h
    refine ⟨fun _ hv => hv, hk, fun v hv => ?_⟩
    simp only [Act.inputs, List.mem_cons, List.mem_map] at hv
    obtain rfl | rfl | ⟨g, hg, rfl⟩ := hv
    · exact hk _ hdst
    · exact hsrc
    · exact hgs g hg
  | join dst terms =>
    simp only [Known.step, Option.ite_none_right_eq_some, Option.some.injEq] at h
    obtain ⟨⟨hdst, hts⟩, rfl⟩ := h
    refine ⟨fun _ hv => hv, hk, fun v hv => ?_⟩
    simp only [Act.inputs, List.mem_cons, List.mem_flatMap, List.mem_map] at hv
    obtain rfl | ⟨t, ht, rfl | ⟨g, hg, rfl⟩⟩ := hv
    · exact hk _ hdst
    · exact (hts t ht).1
    · exact (hts t ht).2 g hg
  | _ =>
    simp only [Known.step] at h
    repeat' split at h
    all_goals
      first
      | obtain rfl := Option.some.inj h
        exact ⟨fun v hv => by simp [hv], fun v hv => by simp [hk v hv], by simp [Act.inputs]⟩
      | exact absurd h (by simp)

/-- What the writes read has a value. -/
theorem inputs_known {outs : List (Val × String)} {as : List Act} {k k' : Known}
    (h : k.steps outs as = some k') (hk : ∀ v ∈ k.regs, v ∈ k.vals) :
    (∀ v ∈ k.vals, v ∈ k'.vals) ∧ (∀ v ∈ k'.regs, v ∈ k'.vals) ∧
      ∀ a ∈ as, ∀ v ∈ a.inputs, v ∈ k'.vals := by
  induction as generalizing k with
  | nil =>
    obtain rfl := Option.some.inj h
    exact ⟨fun _ hv => hv, hk, by simp⟩
  | cons a as ih =>
    obtain ⟨k₁, ha, has⟩ := steps_cons h
    obtain ⟨hmono, hk₁, hin⟩ := step_inputs ha hk
    obtain ⟨hmono', hregs, hins⟩ := ih has hk₁
    refine ⟨fun v hv => hmono' v (hmono v hv), hregs, fun b hb v hv => ?_⟩
    rcases List.mem_cons.1 hb with rfl | hb
    · exact hmono' v (hin v hv)
    · exact hins b hb v hv

/-- Next values are the same in both orders. -/
theorem nextValue_eq (h : Permuted m m') (hm : InOrder m) (hm' : InOrder m') (ρ : Valuation)
    {r : Val} (hr : r ∈ m.regResults) :
    nextValue (m.cycle ρ) r m.acts = nextValue (m'.cycle ρ) r m'.acts := by
  obtain ⟨k, hk⟩ := Option.isSome_iff_exists.1 hm.steps
  have hap : Known.empty.Apart m.outs := ⟨by simp [Known.empty], by simp [Known.empty]⟩
  obtain ⟨-, -, hall⟩ := steps_ordered ρ hk hap
    (fun v => (by simp [Known.empty] : v ∈ ([] : List Val) ↔ _))
  obtain ⟨-, hregs, hins⟩ := inputs_known hk (by simp [Known.empty])
  -- everything read is a target, where the cycles agree
  have hval : ∀ v ∈ k.vals, m.cycle ρ v = m'.cycle ρ v := by
    intro v hv
    refine cycle_eq h hm hm' ρ v ?_
    rw [targets_eq m ρ]
    simpa [NslModule.equations] using (hall v).1 (.inl hv)
  have hr' : r ∈ k.regs := by
    rw [(steps_decls hk).1, (moduleActs_decls m).1]
    simpa [Known.empty] using hr
  rw [nextValue_filter, nextValue_filter (m'.cycle ρ), h.writes r]
  refine nextValue_congr (hval r (hregs r hr')) fun a ha v hv => hval v ?_
  exact hins a (List.mem_of_mem_filter ha) v hv

theorem find?_perm {α : Type} {p : α → Bool} {as bs : List α} (hp : as.Perm bs)
    (huniq : ∀ a ∈ as, ∀ b ∈ as, p a = true → p b = true → a = b) : as.find? p = bs.find? p := by
  cases ha : as.find? p with
  | none =>
    symm
    rw [List.find?_eq_none] at ha ⊢
    exact fun b hb => ha b (hp.mem_iff.2 hb)
  | some a =>
    have hpa := List.find?_some ha
    have hma := List.mem_of_find?_eq_some ha
    cases hb : bs.find? p with
    | none => exact absurd hpa (List.find?_eq_none.1 hb a (hp.mem_iff.1 hma))
    | some b =>
      rw [huniq a hma b (hp.mem_iff.2 (List.mem_of_find?_eq_some hb)) hpa (List.find?_some hb)]

/-- Outputs are the same in both orders. -/
theorem outputValue_eq (h : Permuted m m') (hm : InOrder m) (hm' : InOrder m') (ρ : Valuation)
    (p : String × ℕ) : m.outputValue ρ p = m'.outputValue ρ p := by
  have hperm : m.targets.Perm m'.targets := by
    rw [targets_eq m ρ, targets_eq m' ρ]
    exact (perm_equations h ρ).map _
  have hfind : (m.targets.find? fun v => portName m.outs v = p.1 ∧ p.1 ≠ "") =
      m'.targets.find? fun v => portName m.outs v = p.1 ∧ p.1 ≠ "" := by
    refine find?_perm hperm fun u _ v _ hu hv => ?_
    simp only [decide_eq_true_eq] at hu hv
    exact portName_injective hm.ports_nodup u v (hu.1 ▸ hu.2) (hu.1.trans hv.1.symm)
  unfold NslModule.outputValue
  rw [h.outs, ← hfind]
  cases hf : m.targets.find? fun v => decide (portName m.outs v = p.1 ∧ p.1 ≠ "") with
  | none => rfl
  | some v =>
    simp only [Option.map_some, Option.getD_some]
    exact cycle_eq h hm hm' ρ v (List.mem_of_find?_eq_some hf)

/-- Two circuits that compute the same outputs and next values. -/
structure SameCircuit (hw hw' : HWModule) : Prop where
  outputs : List.Forall₂ (fun q q' => q.1 = q'.1 ∧ ∀ ρ, ∃ b, Value.Denotes ρ q.2 b ∧
    Value.Denotes ρ q'.2 b) hw.outputs hw'.outputs
  regs : List.Forall₂ (fun r r' => ∀ ρ, ∃ b, Value.Denotes ρ r.2.2 b ∧ Value.Denotes ρ r'.2.2 b)
    hw.regs hw'.regs

theorem forall₂_join {α β γ : Type} {P : α → β → Prop} {Q : α → γ → Prop} {as : List α}
    {bs : List β} {cs : List γ} (hP : List.Forall₂ P as bs) (hQ : List.Forall₂ Q as cs) :
    List.Forall₂ (fun b c => ∃ a ∈ as, P a b ∧ Q a c) bs cs := by
  induction hP generalizing cs with
  | nil =>
    cases hQ
    exact .nil
  | @cons a b as bs hab _ ih =>
    cases hQ with
    | cons hac hQ =>
      refine .cons ⟨a, by simp, hab, hac⟩ ((ih hQ).imp ?_)
      rintro b' c' ⟨a', ha', h'⟩
      exact ⟨a', by simp [ha'], h'⟩

theorem forall₂_forall {ι α β : Type} [Inhabited ι] {P : ι → α → β → Prop} {as : List α}
    {bs : List β} (h : ∀ i, List.Forall₂ (P i) as bs) :
    List.Forall₂ (fun a b => ∀ i, P i a b) as bs := by
  rw [List.forall₂_iff_get]
  refine ⟨(h default).length_eq, fun j h₁ h₂ i => ?_⟩
  exact (List.forall₂_iff_get.1 (h i)).2 j h₁ h₂

instance : Inhabited Valuation := ⟨⟨fun _ _ => 0, fun _ _ => 0⟩⟩

theorem sameCircuit {hw hw' : HWModule} (h : Permuted m m') (hm : InOrder m) (hm' : InOrder m')
    (hc : ∀ ρ, Computes m hw ρ) (hc' : ∀ ρ, Computes m' hw' ρ) : SameCircuit hw hw' := by
  have hports : m'.outputPorts = m.outputPorts := by
    simp only [NslModule.outputPorts, h.declare]
  constructor
  · have ho := forall₂_forall fun ρ => (hc ρ).outputs
    have ho' := forall₂_forall fun ρ => (hc' ρ).outputs
    rw [hports] at ho'
    refine (forall₂_join ho ho').imp ?_
    rintro q q' ⟨p, -, hq, hq'⟩
    refine ⟨(hq default).1.trans (hq' default).1.symm, fun ρ => ⟨_, (hq ρ).2, ?_⟩⟩
    rw [outputValue_eq h hm hm' ρ p]
    exact (hq' ρ).2
  · have hr := forall₂_forall fun ρ => (hc ρ).regs
    have hr' := forall₂_forall fun ρ => (hc' ρ).regs
    rw [h.regs] at hr'
    refine (forall₂_join hr hr').imp ?_
    rintro r r' ⟨v, hv, hq, hq'⟩
    refine fun ρ => ⟨_, hq ρ, ?_⟩
    rw [nextValue_eq h hm hm' ρ hv]
    exact hq' ρ

/-- The declarations of a module with inputs `a` and `b`, an output `q`,
a register `r` and a wire `w`. -/
def wireDecls : List Op :=
  [ .inputPort ⟨0, 1⟩ "a", .inputPort ⟨1, 1⟩ "b", .outputPort ⟨2, 1⟩ "q", .reg ⟨3, 1⟩ "r" 0,
    .wire ⟨4, 1⟩ "w" ]

/-- `w = a; q = w;` and then the given statements, in one block. -/
def wireModule (statements : List Op) : NslModule where
  symName := "m"
  declare := some ⟨[("a", 1), ("b", 1)], [("q", 1)], none⟩
  body := wireDecls ++
    [.parallel (.transfer ⟨4, 1⟩ ⟨0, 1⟩ :: .transfer ⟨2, 1⟩ ⟨4, 1⟩ :: statements)]

theorem permIn_wireModule {as bs : List Op} (h : as.Perm bs) :
    PermIn (wireModule as).body (wireModule bs).body :=
  .block wireDecls [] .parallel (.here (.cons _ (.cons _ h)))

/-- The module has one register, with next value `x`. -/
def nextIs (x : Value) : Except LowerError HWModule → Bool
  | .ok hw => hw.regs.map (fun r => r.2.2.same x) == [true]
  | .error _ => false

theorem eq_of_nextIs {x : Value} {res : Except LowerError HWModule} (h : nextIs x res = true) :
    ∃ hw name init, res = .ok hw ∧ hw.regs = [(name, init, x)] := by
  cases res with
  | error e => exact absurd h (by simp [nextIs])
  | ok hw =>
    simp only [nextIs, beq_iff_eq] at h
    obtain ⟨r, hr, hx⟩ := List.map_eq_singleton_iff.1 h
    exact ⟨hw, r.1, r.2.1, rfl, by rw [hr, ← Value.eq_of_same hx]⟩

end Modules

end Lower

end Nslc
