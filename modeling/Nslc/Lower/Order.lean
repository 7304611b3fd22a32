import Mathlib
import Nslc.Lower.Progress
/-!
# Statement order

For a module in order the lowering succeeds and computes the values of
the cycle, that is the one solution of the equations of the body
(`lowerOneModule_cycle`). A read of a wire therefore sees what the wire
carries at the end of the walk, and two orders of the same statements
give circuits that compute the same, as long as each register gets its
writes in the same order.
-/

namespace Nslc

namespace Lower

open Dialect Circt

/-! ## Equations in order -/

section Equations

variable {outs : List (Val × String)} {k k' : Known}

/-- Output ports are kept apart from the results that may be read. -/
structure Known.Apart (outs : List (Val × String)) (k : Known) : Prop where
  inner : ∀ v ∈ k.vals, portName outs v = ""
  named : ∀ v ∈ k.outs, portName outs v ≠ ""

/-- What one access adds to what is known. -/
theorem step_target (ρ : Valuation) {a : Act} (h : k.step outs a = some k')
    (hk : k.Apart outs) :
    match a.assign? ρ with
    | none => k'.vals = k.vals ∧ k'.outs = k.outs
    | some eq => (∀ v ∈ eq.reads, v ∈ k.vals) ∧ (eq.target ∉ k.vals ∧ eq.target ∉ k.outs) ∧
        (portName outs eq.target = "" ∧ k'.vals = eq.target :: k.vals ∧ k'.outs = k.outs ∨
          portName outs eq.target ≠ "" ∧ k'.vals = k.vals ∧ k'.outs = eq.target :: k.outs) := by
  have hfresh : ∀ {v : Val}, k.fresh outs v = true →
      (v ∉ k.vals ∧ v ∉ k.outs) ∧ portName outs v = "" := by
    intro v hv
    obtain ⟨⟨hvals, -⟩, hname⟩ := fresh_iff.1 hv
    exact ⟨⟨hvals, fun hmem => hk.named v hmem hname⟩, hname⟩
  cases a with
  | input res name w =>
    simp only [Known.step, Option.ite_none_right_eq_some, Bool.and_eq_true, Option.some.injEq] at h
    obtain ⟨⟨hf, -⟩, rfl⟩ := h
    obtain ⟨hnew, hname⟩ := hfresh hf
    exact ⟨by simp, hnew, .inl ⟨hname, rfl, rfl⟩⟩
  | reg res index =>
    simp only [Known.step, Option.ite_none_right_eq_some, Bool.and_eq_true, Option.some.injEq] at h
    obtain ⟨⟨hf, -⟩, rfl⟩ := h
    obtain ⟨hnew, hname⟩ := hfresh hf
    exact ⟨by simp, hnew, .inl ⟨hname, rfl, rfl⟩⟩
  | define res e =>
    simp only [Known.step, Option.ite_none_right_eq_some, Bool.and_eq_true, decide_eq_true_eq,
      Option.some.injEq] at h
    obtain ⟨⟨⟨hf, -⟩, hops⟩, rfl⟩ := h
    obtain ⟨hnew, hname⟩ := hfresh hf
    exact ⟨hops, hnew, .inl ⟨hname, rfl, rfl⟩⟩
  | drive dst src =>
    simp only [Known.step] at h
    split at h
    · rename_i hsrc
      split at h
      · rename_i hout
        simp only [Option.ite_none_right_eq_some, Option.some.injEq] at h
        obtain ⟨hnew, rfl⟩ := h
        exact ⟨by simpa using hsrc.2, ⟨fun hmem => hout (hk.inner dst hmem), hnew⟩,
          .inr ⟨hout, rfl, rfl⟩⟩
      · rename_i hout
        simp only [Option.ite_none_right_eq_some, Option.some.injEq] at h
        obtain ⟨⟨-, hnew⟩, rfl⟩ := h
        have hname : portName outs dst = "" := by simpa using hout
        exact ⟨by simpa using hsrc.2, ⟨hnew, fun hmem => hk.named dst hmem hname⟩,
          .inl ⟨hname, rfl, rfl⟩⟩
    · exact absurd h (by simp)
  | wire res =>
    simp only [Known.step, Option.ite_none_right_eq_some, Option.some.injEq] at h
    obtain ⟨-, rfl⟩ := h
    exact ⟨rfl, rfl⟩
  | conditional dst => exact absurd h (by simp [Known.step])
  | unhandled => exact absurd h (by simp [Known.step])
  | _ =>
    simp only [Known.step, Option.ite_none_right_eq_some, Option.some.injEq] at h
    obtain ⟨-, rfl⟩ := h
    exact ⟨rfl, rfl⟩

theorem step_apart {a : Act} (h : k.step outs a = some k') (hk : k.Apart outs) : k'.Apart outs := by
  have ht := step_target ⟨fun _ _ => 0, fun _ _ => 0⟩ h hk
  split at ht
  · rename_i hnone
    exact ⟨ht.1 ▸ hk.inner, ht.2 ▸ hk.named⟩
  · obtain ⟨-, -, ⟨hn, hv, ho⟩ | ⟨hn, hv, ho⟩⟩ := ht
    · refine ⟨?_, ho ▸ hk.named⟩
      rw [hv]
      exact List.forall_mem_cons.2 ⟨hn, hk.inner⟩
    · refine ⟨hv ▸ hk.inner, ?_⟩
      rw [ho]
      exact List.forall_mem_cons.2 ⟨hn, hk.named⟩

/-- **A body in order gives equations in order.** -/
theorem steps_ordered (ρ : Valuation) {as : List Act} {k k' : Known}
    (h : k.steps outs as = some k') (hk : k.Apart outs) {known : List Val}
    (hknown : ∀ v, v ∈ known ↔ v ∈ k.vals ∨ v ∈ k.outs) :
    k'.Apart outs ∧ Assign.Ordered known (as.filterMap (Act.assign? ρ)) ∧
      ∀ v, v ∈ k'.vals ∨ v ∈ k'.outs ↔
        v ∈ known ∨ v ∈ (as.filterMap (Act.assign? ρ)).map Assign.target := by
  induction as generalizing k known with
  | nil =>
    obtain rfl := Option.some.inj h
    exact ⟨hk, trivial, fun v => by simp [hknown]⟩
  | cons a as ih =>
    obtain ⟨k₁, ha, has⟩ := steps_cons h
    have ht := step_target ρ ha hk
    split at ht
    · rename_i hnone
      rw [List.filterMap_cons_none hnone]
      exact ih has (step_apart ha hk) fun v => by rw [hknown, ht.1, ht.2]
    · rename_i eq hsome
      rw [List.filterMap_cons_some hsome]
      obtain ⟨hreads, hnew, hcases⟩ := ht
      have hknown₁ : ∀ v, v ∈ eq.target :: known ↔ v ∈ k₁.vals ∨ v ∈ k₁.outs := by
        intro v
        rcases hcases with ⟨-, hv, ho⟩ | ⟨-, hv, ho⟩
        · rw [hv, ho, List.mem_cons, List.mem_cons, hknown]
          tauto
        · rw [hv, ho, List.mem_cons, List.mem_cons, hknown]
          tauto
      obtain ⟨hap, hord, hall⟩ := ih has (step_apart ha hk) hknown₁
      refine ⟨hap, ⟨fun v hv => (hknown v).2 (.inl (hreads v hv)), ?_, hord⟩, fun v => ?_⟩
      · rw [hknown]
        rintro (hm | hm)
        · exact hnew.1 hm
        · exact hnew.2 hm
      · rw [hall, List.map_cons, List.mem_cons, List.mem_cons]
        tauto

end Equations

/-! ## Declarations -/

section Declarations

variable {β : Type} {f : Act → Option β}

mutual

/-- Nothing is declared in a nested position. -/
theorem decl_acts (hf : ∀ a, a.isDecl = false → f a = none) (op : Op) {top : Bool}
    {gs : Guards Val} : (acts top gs op).filterMap f = [] := by
  cases op with
  | expr res e => simp [acts, hf (.define res e) rfl]
  | transfer dst src =>
    cases top with
    | true => simp [acts, hf (.drive dst src) rfl]
    | false => simp [acts, hf (.conditional dst) rfl]
  | clockedTransfer dst src => simp [acts, hf (.clocked dst src gs) rfl]
  | ifOp cond thenRegion elseRegion =>
    simp [acts, hf (.test cond) rfl, decl_actsAll hf thenRegion,
      decl_actsAll hf elseRegion]
  | alt body => exact decl_actsAlt hf body
  | any body =>
    have hjoin : ∀ accs : List AnyTerms,
        (accs.map fun b => Act.join b.target b.terms).filterMap f = [] := by
      intro accs
      rw [List.filterMap_map, List.filterMap_eq_nil_iff]
      exact fun b _ => hf (.join b.target b.terms) rfl
    simp only [acts, List.filterMap_append, decl_actsAny hf body, hjoin, List.append_nil]
  | parallel body => exact decl_actsAll hf body
  | func symName body => exact decl_actsAll hf body
  | case cond body => simp [acts, hf .unhandled rfl]
  | default body => simp [acts, hf .unhandled rfl]
  | seq body => simp [acts, hf .unhandled rfl]
  | other mnemonic => simp [acts, hf .unhandled rfl]
  | _ => rfl

theorem decl_actsAll (hf : ∀ a, a.isDecl = false → f a = none) (ops : List Op) {top : Bool}
    {gs : Guards Val} : (actsAll top gs ops).filterMap f = [] := by
  cases ops with
  | nil => rfl
  | cons op ops => simp [actsAll, decl_acts hf op, decl_actsAll hf ops]

theorem decl_actsAlt (hf : ∀ a, a.isDecl = false → f a = none) (children : List Op)
    {gs : Guards Val} {covered : List Val} : (actsAlt gs covered children).filterMap f = [] := by
  cases children with
  | nil => rfl
  | cons child children =>
    cases child with
    | case cond body =>
      simp [actsAlt, hf (.test cond) rfl, decl_actsAll hf body,
        decl_actsAlt hf children]
    | default body => simp [actsAlt, decl_actsAll hf body, decl_actsAlt hf children]
    | _ => exact decl_actsAlt hf children

theorem decl_actsAny (hf : ∀ a, a.isDecl = false → f a = none) (children : List Op)
    {gs : Guards Val} {accs : List AnyTerms} : (actsAny gs accs children).1.filterMap f = [] := by
  cases children with
  | nil => rfl
  | cons child children =>
    cases child with
    | case cond body =>
      simp [actsAny, hf (.test cond) rfl, decl_actsAnyBody hf body,
        decl_actsAny hf children]
    | default body => simp [actsAny, decl_actsAnyBody hf body, decl_actsAny hf children]
    | _ => exact decl_actsAny hf children

theorem decl_actsAnyBody (hf : ∀ a, a.isDecl = false → f a = none) (ops : List Op)
    {gs : Guards Val} {accs : List AnyTerms} : (actsAnyBody gs accs ops).1.filterMap f = [] := by
  cases ops with
  | nil => rfl
  | cons op ops =>
    cases op with
    | transfer dst src =>
      simp [actsAnyBody, hf (.conditional dst) rfl, decl_actsAnyBody hf ops]
    | clockedTransfer dst src =>
      simp [actsAnyBody, hf (.gather dst src) rfl, decl_actsAnyBody hf ops]
    | _ =>
      simp only [actsAnyBody, List.filterMap_append, decl_actsAnyBody hf ops, List.append_nil]
      exact decl_acts hf _

end

/-- So the declarations of a module are those of its own ops. -/
theorem decl_moduleActs (m : NslModule) (hf : ∀ a, a.isDecl = false → f a = none)
    (hin : ∀ res name w, f (.input res name w) = none) {g : Op → Option β}
    (hreg : ∀ res name init,
      f (.reg res (m.regResults.idxOf res)) = g (.reg res name init))
    (hwire : ∀ res name, f (.wire res) = g (.wire res name))
    (hg : ∀ op, regResult? op = none → wireResult? op = none → g op = none) :
    m.acts.filterMap f = m.body.filterMap g := by
  have hport : ∀ op, (m.portActs op).filterMap f = [] := by
    intro op
    cases op with
    | inputPort res name => simp only [NslModule.portActs]; split <;> simp [hin, hf .unhandled rfl]
    | inoutPort res name => simp only [NslModule.portActs]; split <;> simp [hin, hf .unhandled rfl]
    | _ => rfl
  have hbody : ∀ op, (bodyActs m.regResults op).filterMap f = (g op).toList := by
    intro op
    cases op with
    | reg res name init => cases hr : g (.reg res name init) <;> simp [bodyActs, hreg res name init, hr]
    | wire res name => cases hr : g (.wire res name) <;> simp [bodyActs, hwire res name, hr]
    | func symName body =>
      rw [hg _ rfl rfl]
      simp only [bodyActs]
      split
      · rfl
      · exact decl_acts hf _
    | _ =>
      rw [hg _ rfl rfl]
      exact decl_acts hf _
  have hflat : ∀ (h : Op → List Act) (g : Op → Option β), (∀ op, (h op).filterMap f = (g op).toList) →
      ∀ ops : List Op, (ops.flatMap h).filterMap f = ops.filterMap g := by
    intro h g hh ops
    induction ops with
    | nil => rfl
    | cons op ops ih =>
      rw [List.flatMap_cons, List.filterMap_append, hh, ih]
      cases hr : g op <;> simp [hr]
  unfold NslModule.acts
  rw [List.filterMap_append, hflat _ (fun _ => none) hport, hflat _ g hbody]
  simp

theorem moduleActs_decls (m : NslModule) :
    m.acts.filterMap Act.reg? = m.regResults ∧ m.acts.filterMap Act.wire? = m.wireResults := by
  constructor
  · refine decl_moduleActs m ?_ ?_ ?_ ?_ ?_
    · intro a ha
      cases a <;> simp_all [Act.isDecl, Act.reg?]
    · intro res name w
      rfl
    · intro res name init
      rfl
    · intro res name
      rfl
    · intro op hr _
      exact hr
  · refine decl_moduleActs m ?_ ?_ ?_ ?_ ?_
    · intro a ha
      cases a <;> simp_all [Act.isDecl, Act.wire?]
    · intro res name w
      rfl
    · intro res name init
      rfl
    · intro res name
      rfl
    · intro op _ hw
      exact hw

end Declarations

/-! ## Modules -/

section Modules

variable {m : NslModule} {ρ : Valuation} {E : Val → Bits} {clk : Bool} {done : List Act}
  {k k' : Known} {ctx : Ctx}

theorem follows_initial (m : NslModule) :
    Follows ρ E m.outs m.declare.isSome [] .empty
      { Ctx.initial m with outputPortValues := m.outs } where
  vals := by simp [Known.empty]
  ports := rfl
  inner := by simp [Known.empty]
  named := by simp [Known.empty]
  driven := by simp [Known.empty]
  undriven := fun _ _ => rfl
  wireList := rfl
  wires_nodup := List.nodup_nil
  drivers := by simp [Ctx.initial]
  regList := rfl
  regs_nodup := List.nodup_nil
  regs_apart := by simp [Known.empty]
  reg := by simp [Known.empty]
  body := by simp [Ctx.initial]
  reads := by simp [Ctx.initial]
  clocked := rfl

/-- The ports, with the outputs put in beforehand. -/
theorem follows_scan (ops : List Op) {done : List Act} {k k' : Known} {ctx : Ctx}
    (h : Follows ρ E m.outs clk done k { ctx with outputPortValues := m.outs })
    (hk : k.steps m.outs (ops.flatMap m.portActs) = some k')
    (heq : ∀ a ∈ ops.flatMap m.portActs, a.Settled ρ E) :
    ∃ ctx', ops.foldlM (scanPort m) ctx = .ok ctx' ∧
      Follows ρ E m.outs clk (done ++ ops.flatMap m.portActs) k'
        { ctx' with outputPortValues := m.outs } ∧
      ctx'.outputPortValues = ctx.outputPortValues ++ ops.filterMap outResult? := by
  induction ops generalizing done k ctx with
  | nil =>
    obtain rfl := Option.some.inj hk
    exact ⟨ctx, rfl, by simpa using h, by simp⟩
  | cons op ops ih =>
    rw [List.flatMap_cons] at hk heq ⊢
    obtain ⟨k₁, hop, hrest⟩ := steps_append hk
    have hrestEq : ∀ a ∈ ops.flatMap m.portActs, a.Settled ρ E :=
      fun a ha => heq a (List.mem_append.2 (.inr ha))
    -- one port, then the others
    have hstep : ∃ ctx₁, scanPort m ctx op = .ok ctx₁ ∧
        Follows ρ E m.outs clk (done ++ m.portActs op) k₁ { ctx₁ with outputPortValues := m.outs } ∧
        ctx₁.outputPortValues = ctx.outputPortValues ++ (outResult? op).toList := by
      have hin : ∀ (res : Val) (name : String),
          ((m.inputPorts.find? fun p => p.1 = name) = none → m.portActs op = [.unhandled]) →
          (∀ p, (m.inputPorts.find? fun p => p.1 = name) = some p →
            m.portActs op = [.input res p.1 p.2] ∧
              scanPort m ctx op = .ok (ctx.recordValueMapping res (.arg p.1 p.2))) →
          outResult? op = none →
          ∃ ctx₁, scanPort m ctx op = .ok ctx₁ ∧
            Follows ρ E m.outs clk (done ++ m.portActs op) k₁
              { ctx₁ with outputPortValues := m.outs } ∧
            ctx₁.outputPortValues = ctx.outputPortValues ++ (outResult? op).toList := by
        intro res name hnone hsome hout
        cases hf : m.inputPorts.find? fun p => p.1 = name with
        | none =>
          rw [hnone hf] at hop
          exact absurd hop (by simp [Known.steps, Known.step])
        | some p =>
          obtain ⟨hacts, hscan⟩ := hsome p hf
          have heq' := heq (.input res p.1 p.2) (by simp [hacts]) _ rfl
          rw [hacts] at hop ⊢
          obtain ⟨k₂, hk₂, hnil⟩ := steps_cons hop
          obtain rfl := Option.some.inj hnil
          simp only [Known.step, Option.ite_none_right_eq_some, Bool.and_eq_true, beq_iff_eq,
            Option.some.injEq] at hk₂
          obtain ⟨⟨hfresh, hw⟩, rfl⟩ := hk₂
          refine ⟨_, hscan, ?_, by simp [hout, Ctx.recordValueMapping]⟩
          refine Follows.silent ?_ (by simp [Act.next])
          exact h.define hfresh ⟨rfl, heq'.symm⟩ hw
      cases op with
      | inputPort res name =>
        refine hin res name (fun hp => ?_) (fun p hp => ?_) rfl
        · simp [NslModule.portActs, hp]
        · simp [NslModule.portActs, scanPort, NslModule.lookupInputArg, hp]
      | inoutPort res name =>
        refine hin res name (fun hp => ?_) (fun p hp => ?_) rfl
        · simp [NslModule.portActs, hp]
        · simp [NslModule.portActs, scanPort, NslModule.lookupInputArg, hp]
      | outputPort res name =>
        obtain rfl := Option.some.inj hop
        exact ⟨_, rfl, by simpa [NslModule.portActs] using h, rfl⟩
      | _ =>
        obtain rfl := Option.some.inj hop
        exact ⟨ctx, rfl, by simpa [NslModule.portActs] using h, by simp [outResult?]⟩
    obtain ⟨ctx₁, hok₁, h₁, ho₁⟩ := hstep
    obtain ⟨ctx₂, hok₂, h₂, ho₂⟩ := ih h₁ hrest hrestEq
    refine ⟨ctx₂, ?_, by simpa using h₂, ?_⟩
    · rw [List.foldlM_cons, hok₁]
      exact hok₂
    · rw [ho₂, ho₁]
      cases hr : outResult? op <;> simp [hr]

/-- A register joins with its own value. -/
theorem Follows.addReg (h : Follows ρ E m.outs clk done k ctx) {res : Val}
    (hfresh : k.fresh m.outs res = true) (name : String) (init index : ℕ)
    (hE : E res = ⟨res.width, ρ.reg ctx.regs.length res.width⟩) :
    Follows ρ E m.outs clk (done ++ [.reg res index])
      { k with vals := res :: k.vals, regs := k.regs ++ [res] }
      (({ ctx with
          regs := ctx.regs ++
            [⟨name, init, .reg ctx.regs.length res.width, .reg ctx.regs.length res.width⟩] } :
          Ctx).recordValueMapping res (.reg ctx.regs.length res.width)) := by
  obtain ⟨⟨hvals, hwires⟩, -⟩ := fresh_iff.1 hfresh
  have hnew : res ∉ k.regs := fun hmem => by
    obtain ⟨i, hi⟩ := List.mem_iff_getElem?.1 hmem
    exact hvals (h.reg i res hi).1
  have h₁ := h.define hfresh (x := .reg ctx.regs.length res.width) ⟨rfl, hE.symm⟩ rfl
  refine { h₁ with regList := ?_, regs_nodup := ?_, regs_apart := ?_, reg := ?_ }
  · simp [Ctx.recordValueMapping, h.regList]
  · refine List.nodup_append.2 ⟨h.regs_nodup, by simp, ?_⟩
    rintro a ha b hb rfl
    exact hnew (List.mem_singleton.1 hb ▸ ha)
  · intro v hv
    rcases List.mem_append.1 hv with hv | hv
    · exact h.regs_apart v hv
    · exact List.mem_singleton.1 hv ▸ hwires
  · intro i v hi
    rw [nextValue_append]
    rcases Nat.lt_or_ge i k.regs.length with hlt | hge
    · rw [List.getElem?_append_left hlt] at hi
      obtain ⟨hv, hmap, r, hr, hprev, hnext⟩ := h₁.reg i v hi
      have hne : res ≠ v := fun he => hnew (he ▸ List.mem_of_getElem? hi)
      refine ⟨hv, hmap, r, ?_, hprev, by simpa [Act.next, hne] using hnext⟩
      have hr' : ctx.regs[i]? = some r := hr
      simp only [Ctx.recordValueMapping]
      rwa [List.getElem?_append_left (h.regList ▸ hlt)]
    · have hi' : i = k.regs.length := by
        have := (List.getElem?_eq_some_iff.1 hi).1
        simp only [List.length_append, List.length_singleton] at this
        omega
      subst hi'
      obtain rfl : res = v := by simpa using hi
      refine ⟨by simp, by simp [Ctx.recordValueMapping, h.regList], ?_⟩
      refine ⟨⟨name, init, .reg ctx.regs.length res.width, .reg ctx.regs.length res.width⟩,
        ?_, ?_, ⟨rfl, ?_⟩, rfl⟩
      · simp [Ctx.recordValueMapping, ← h.regList]
      · rw [h.regList]
      · simp [Act.next, hE, Value.eval]

theorem Follows.addWire (h : Follows ρ E m.outs clk done k ctx) {res : Val}
    (hfresh : k.fresh m.outs res = true) (name : String) :
    Follows ρ E m.outs clk (done ++ [.wire res]) { k with wires := k.wires ++ [res] }
      { ctx with wires := ctx.wires ++ [⟨name, res, none⟩] } := by
  obtain ⟨⟨hvals, hwires⟩, -⟩ := fresh_iff.1 hfresh
  refine Follows.silent ?_ (by simp [Act.next])
  refine { h with wireList := ?_, wires_nodup := ?_, drivers := ?_, regs_apart := ?_ }
  · simp [h.wireList]
  · refine List.nodup_append.2 ⟨h.wires_nodup, by simp, ?_⟩
    rintro a ha b hb rfl
    exact hwires (List.mem_singleton.1 hb ▸ ha)
  · intro w hw
    rcases List.mem_append.1 hw with hw | hw
    · exact h.drivers w hw
    · rw [List.mem_singleton.1 hw]
      simp [hvals]
  · intro v hv hmem
    obtain ⟨i, hi⟩ := List.mem_iff_getElem?.1 hv
    rcases List.mem_append.1 hmem with hmem | hmem
    · exact h.regs_apart v hv hmem
    · exact hvals (List.mem_singleton.1 hmem ▸ (h.reg i v hi).1)

/-- One op directly in the module. -/
theorem follows_bodyOp
    (hnames : ∀ u v, portName m.outs u ≠ "" → portName m.outs u = portName m.outs v → u = v)
    (op : Op) (h : Follows ρ E m.outs clk done k ctx) (hk : k.steps m.outs (bodyActs m.regResults op) = some k')
    (heq : ∀ a ∈ bodyActs m.regResults op, a.Settled ρ E)
    (hclk : (regResult? op).isSome → clk = true) :
    ∃ ctx', lowerBodyOp ctx op = .ok ctx' ∧
      Follows ρ E m.outs clk (done ++ bodyActs m.regResults op) k' ctx' := by
  have hg : GateHolds ρ E none [] := rfl
  have htop : true = true → (none : Option Value) = none := fun _ => rfl
  cases op with
  | reg res name init =>
    obtain ⟨k₁, hk₁, hnil⟩ := steps_cons hk
    obtain rfl := Option.some.inj hnil
    simp only [Known.step, Option.ite_none_right_eq_some, Bool.and_eq_true, beq_iff_eq,
      Option.some.injEq] at hk₁
    obtain ⟨⟨hfresh, hidx⟩, rfl⟩ := hk₁
    have hE := heq (.reg res (m.regResults.idxOf res)) (by simp [bodyActs]) _ rfl
    simp only [Assign.Holds, hidx, ← h.regList] at hE
    simp only [lowerBodyOp, lowerRegOp]
    rw [if_pos (h.clocked.trans (hclk rfl))]
    exact ⟨_, rfl, (h.addReg hfresh name init _ hE).emits (emits_queue _ _)⟩
  | wire res name =>
    obtain ⟨k₁, hk₁, hnil⟩ := steps_cons hk
    obtain rfl := Option.some.inj hnil
    simp only [Known.step, Option.ite_none_right_eq_some, Option.some.injEq] at hk₁
    obtain ⟨hfresh, rfl⟩ := hk₁
    exact ⟨_, rfl, (h.addWire hfresh name).emits (emits_queue _ _)⟩
  | func symName body =>
    simp only [bodyActs] at hk heq ⊢
    simp only [lowerBodyOp]
    split at hk
    · rename_i hseq
      obtain rfl := Option.some.inj hk
      simp only [hseq, if_true]
      exact ⟨ctx, rfl, by simpa using h⟩
    · rename_i hseq
      rw [if_neg hseq] at heq ⊢
      rw [if_neg hseq]
      exact follows_op hnames _ h hg htop hk heq
  | inputPort res name =>
    obtain rfl := Option.some.inj hk
    exact ⟨ctx, rfl, by simpa [bodyActs, acts] using h⟩
  | outputPort res name =>
    obtain rfl := Option.some.inj hk
    exact ⟨ctx, rfl, by simpa [bodyActs, acts] using h⟩
  | inoutPort res name =>
    obtain rfl := Option.some.inj hk
    exact ⟨ctx, rfl, by simpa [bodyActs, acts] using h⟩
  | _ => exact follows_op hnames _ h hg htop hk heq

theorem follows_body
    (hnames : ∀ u v, portName m.outs u ≠ "" → portName m.outs u = portName m.outs v → u = v)
    (ops : List Op) {done : List Act} {k k' : Known} {ctx : Ctx}
    (h : Follows ρ E m.outs clk done k ctx)
    (hk : k.steps m.outs (ops.flatMap (bodyActs m.regResults)) = some k')
    (heq : ∀ a ∈ ops.flatMap (bodyActs m.regResults), a.Settled ρ E)
    (hclk : ops.filterMap regResult? ≠ [] → clk = true) :
    ∃ ctx', lowerBodyOps ops ctx = .ok ctx' ∧
      Follows ρ E m.outs clk (done ++ ops.flatMap (bodyActs m.regResults)) k' ctx' := by
  induction ops generalizing done k ctx with
  | nil =>
    obtain rfl := Option.some.inj hk
    exact ⟨ctx, rfl, by simpa using h⟩
  | cons op ops ih =>
    rw [List.flatMap_cons] at hk heq ⊢
    obtain ⟨k₁, hop, hrest⟩ := steps_append hk
    obtain ⟨ctx₁, hok₁, h₁⟩ := follows_bodyOp hnames op h hop
      (fun a ha => heq a (List.mem_append.2 (.inl ha))) (fun hr => hclk (by
        obtain ⟨res, hres⟩ := Option.isSome_iff_exists.1 hr
        simp [hres]))
    obtain ⟨ctx₂, hok₂, h₂⟩ := ih h₁ hrest (fun a ha => heq a (List.mem_append.2 (.inr ha)))
      (fun hr => hclk (by
        cases hres : regResult? op with
        | none => simpa [hres] using hr
        | some res => simp [hres]))
    refine ⟨ctx₂, ?_, by simpa using h₂⟩
    simp only [lowerBodyOps, List.foldlM_cons, hok₁, bind, Except.bind]
    exact hok₂

theorem portName_injective {outs : List (Val × String)} (h : (outs.map Prod.snd).Nodup) (u v : Val)
    (hu : portName outs u ≠ "") (he : portName outs u = portName outs v) : u = v := by
  have hmem : ∀ w, portName outs w ≠ "" → (w, portName outs w) ∈ outs := by
    intro w hw
    unfold portName at hw ⊢
    cases hf : outs.find? fun p => p.1 = w with
    | none => simp [hf] at hw
    | some p =>
      have hp : p.1 = w := by simpa using List.find?_some hf
      have hin := List.mem_of_find?_eq_some hf
      simpa [← hp] using hin
  have hu' := hmem u hu
  have hv' := hmem v (he ▸ hu)
  exact congrArg Prod.fst (List.inj_on_of_nodup_map h hu' hv' he)

/-- **The walk over a module in order.** -/
theorem follows_walk (hm : InOrder m) :
    ∃ ctx k, walkModule m = .ok ctx ∧ Known.empty.steps m.outs m.acts = some k ∧
      ∀ ρ, Follows ρ (m.cycle ρ) m.outs m.declare.isSome m.acts k ctx := by
  obtain ⟨k, hk⟩ := Option.isSome_iff_exists.1 hm.steps
  have hnames := portName_injective hm.ports_nodup
  obtain ⟨k₁, hports, hbody⟩ := steps_append hk
  have hap : Known.empty.Apart m.outs := ⟨by simp [Known.empty], by simp [Known.empty]⟩
  -- for every valuation; the context is the same since the walk is a function
  have key : ∀ ρ, ∃ ctx, walkModule m = .ok ctx ∧
      Follows ρ (m.cycle ρ) m.outs m.declare.isSome m.acts k ctx := by
    intro ρ
    obtain ⟨-, hord, -⟩ := steps_ordered ρ hk hap (fun v => (by simp [Known.empty] : v ∈ ([] : List Val) ↔ _))
    have hsettled : ∀ a ∈ m.acts, a.Settled ρ (m.cycle ρ) := fun a ha eq he =>
      settle_holds hord eq (List.mem_filterMap.2 ⟨a, ha, he⟩)
    obtain ⟨ctx₁, hscan, h₁, houts⟩ := follows_scan m.body (follows_initial m) hports
      (fun a ha => hsettled a (List.mem_append.2 (.inl ha)))
    have hctx₁ : { ctx₁ with outputPortValues := m.outs } = ctx₁ := by
      have : ctx₁.outputPortValues = m.outs := by
        simpa [Ctx.initial, NslModule.outs] using houts
      rw [← this]
    rw [hctx₁] at h₁
    obtain ⟨ctx₂, hlow, h₂⟩ := follows_body hnames m.body h₁ hbody
      (fun a ha => hsettled a (List.mem_append.2 (.inr ha))) hm.clocked
    refine ⟨ctx₂, ?_, by simpa [NslModule.acts] using h₂⟩
    simp only [walkModule, hscan, bind, Except.bind]
    exact hlow
  obtain ⟨ctx, hok, -⟩ := key ⟨fun _ _ => 0, fun _ _ => 0⟩
  refine ⟨ctx, k, hok, hk, fun ρ => ?_⟩
  obtain ⟨ctx', hok', h'⟩ := key ρ
  obtain rfl : ctx = ctx' := Except.ok.inj (hok.symm.trans hok')
  exact h'

/-! ## The finished module -/

theorem finaliseWires_closed (ws : List WireInfo) (ctx : Ctx)
    (hb : ∀ x ∈ ctx.body, x.isOpen = false) (hw : ∀ w ∈ ws, ClosedOption w.pendingDriver) :
    ∀ x ∈ (finaliseWires ctx ws).2.body, x.isOpen = false := by
  induction ws generalizing ctx with
  | nil => exact hb
  | cons w ws ih =>
    refine ih (finaliseWire ctx w).2 ?_ fun w' h' => hw w' (by simp [h'])
    unfold finaliseWire
    cases hp : w.pendingDriver with
    | some d =>
      exact (emits_emit ctx (.wire w.name) (by simpa using hw w (by simp) d hp)).body hb
    | none =>
      exact ((emits_emit ctx (.constant w.origResult.width 0) (by simp)).trans
        (emits_emit _ (.wire w.name) (by simp))).body hb

theorem outputOperands_closed (ps : List (String × ℕ)) (ctx : Ctx)
    (hb : ∀ x ∈ ctx.body, x.isOpen = false) :
    ∀ x ∈ (outputOperands ctx ps).2.body, x.isOpen = false := by
  induction ps generalizing ctx with
  | nil => exact hb
  | cons p ps ih =>
    refine ih (outputOperand ctx p).2 ?_
    unfold outputOperand
    split
    · exact hb
    · exact (emits_emit ctx (.constant p.2 0) (by simp)).body hb

/-- The driver of every output and register has its value in the cycle. -/
structure Computes (m : NslModule) (hw : HWModule) (ρ : Valuation) : Prop where
  outputs : List.Forall₂ (fun p q => q.1 = p.1 ∧ Value.Denotes ρ q.2 (m.outputValue ρ p))
    m.outputPorts hw.outputs
  regs : List.Forall₂ (fun v r => Value.Denotes ρ r.2.2 (nextValue (m.cycle ρ) v m.acts))
    m.regResults hw.regs

/-- Every value read for a wire is what drives the wire in the end. -/
def ReadsCarried (m : NslModule) (ctx : Ctx) (hw : HWModule) : Prop :=
  List.Forall₂ (fun v q => ∀ x, (v, x) ∈ ctx.reads →
    ∀ ρ, ∃ b, Value.Denotes ρ x b ∧ Value.Denotes ρ q.2 b) m.wireResults hw.wires

theorem denotes_of_closed {x : Value} {b : Bits} (h : ClosedRel ρ x b) : Value.Denotes ρ x b := by
  refine ⟨?_, h.2⟩
  have hd := Value.hasNull_dropUses x
  rwa [Value.dropUses_of_closed x h.1, h.1] at hd

/-- The outputs that are driven are the targets with a port's name. -/
theorem mem_outs_iff (hk : Known.empty.steps m.outs m.acts = some k) (v : Val) :
    v ∈ k.outs ↔ v ∈ m.targets ∧ portName m.outs v ≠ "" := by
  have hap : Known.empty.Apart m.outs := ⟨by simp [Known.empty], by simp [Known.empty]⟩
  obtain ⟨hap', -, hall⟩ := steps_ordered ⟨fun _ _ => 0, fun _ _ => 0⟩ hk hap
    (fun v => (by simp [Known.empty] : v ∈ ([] : List Val) ↔ _))
  have hv := hall v
  rw [List.map_filterMap] at hv
  simp only [← Act.target?_eq] at hv
  constructor
  · intro hmem
    exact ⟨by simpa [NslModule.targets] using hv.1 (.inr hmem), hap'.named v hmem⟩
  · rintro ⟨ht, hn⟩
    rcases hv.2 (.inr ht) with hmem | hmem
    · exact absurd (hap'.inner v hmem) hn
    · exact hmem

/-- What is assigned to an output at the end of the walk. -/
theorem output_rel (h : Follows ρ (m.cycle ρ) m.outs clk done k ctx)
    (hk : Known.empty.steps m.outs m.acts = some k) (p : String × ℕ) :
    ∃ w, DriverRel (ClosedRel ρ) w (ctx.outputAssignment? p.1)
      ((m.targets.find? fun v => portName m.outs v = p.1 ∧ p.1 ≠ "").map (m.cycle ρ)) := by
  cases hf : m.targets.find? fun v => decide (portName m.outs v = p.1 ∧ p.1 ≠ "") with
  | some v =>
    have hv : portName m.outs v = p.1 ∧ p.1 ≠ "" := by simpa using List.find?_some hf
    have hmem := (mem_outs_iff hk v).2 ⟨List.mem_of_find?_eq_some hf, hv.1 ▸ hv.2⟩
    obtain ⟨x, hx, hrel⟩ := h.driven v hmem
    rw [← hv.1, hx]
    exact ⟨x.width, .some ⟨hrel, rfl⟩⟩
  | none =>
    have hnone : ctx.outputAssignment? p.1 = none := by
      refine h.undriven p.1 fun v hv hn => ?_
      obtain ⟨ht, hne⟩ := (mem_outs_iff hk v).1 hv
      have := List.find?_eq_none.1 hf v ht
      exact this (by simpa [hn] using hn ▸ hne)
    rw [hnone]
    exact ⟨0, .none⟩

theorem finaliseWires_drivers (ws : List WireInfo) (ctx : Ctx) :
    List.Forall₂ (fun w q => ∀ y, w.pendingDriver = some y → q.2 = y) ws
      (finaliseWires ctx ws).1 := by
  induction ws generalizing ctx with
  | nil => exact .nil
  | cons w ws ih => exact .cons (finaliseWire_driver ctx w).1 (ih (finaliseWire ctx w).2)

theorem forall_right_of_forall₂ {α β : Type} {P : β → Prop} {as : List α} {bs : List β}
    (h : List.Forall₂ (fun _ b => P b) as bs) : ∀ b ∈ bs, P b := by
  induction h with
  | nil => simp
  | cons hb _ ih => exact List.forall_mem_cons.2 ⟨hb, ih⟩

/-- With every part closed, erasing the `nsl` ops changes nothing. -/
theorem finishModule_closed (hb : ∀ x ∈ (assemble m ctx).body, x.isOpen = false)
    (ho : ∀ q ∈ (assemble m ctx).outputs, q.2.isOpen = false)
    (hr : ∀ r ∈ (assemble m ctx).regs, r.2.2.isOpen = false) :
    finishModule m ctx = .ok (assemble m ctx).dropUses := by
  have hlive : ∀ gone : List Val, ((assemble m ctx).body ++ (assemble m ctx).outputs.map Prod.snd ++
      (assemble m ctx).regs.map fun r => r.2.2).any (Value.mentions fun v => v ∉ gone) = false := by
    intro gone
    rw [List.any_eq_false]
    intro x hx
    rw [Bool.not_eq_true]
    apply Value.mentions_of_closed
    simp only [List.mem_append, List.mem_map] at hx
    obtain (hx | ⟨q, hq, rfl⟩) | ⟨r, hr', rfl⟩ := hx
    · exact hb x hx
    · exact ho q hq
    · exact hr r hr'
  unfold finishModule eraseOps
  simp only
  rw [if_neg (by rw [Bool.not_eq_true]; exact hlive _)]
  rfl

theorem assemble_regs (m : NslModule) (ctx : Ctx) :
    (assemble m ctx).regs = ctx.regs.map fun r => (r.name, r.init, r.pendingNext) := by
  have hR := respectsOps_closed ⟨fun _ _ => 0, fun _ _ => 0⟩ fun _ => Bits.const 0 0
  have hw := (finaliseWires_spec hR ctx.wires ctx).1
  have ho := (outputOperands_spec hR m.outputPorts (finaliseWires ctx ctx.wires).2).1
  simp only [assemble, ho, hw]

/-- **In order, the lowering computes the cycle.** -/
theorem lowerOneModule_cycle (hm : InOrder m) :
    ∃ ctx hw, walkModule m = .ok ctx ∧ lowerOneModule m = .ok hw ∧ ReadsCarried m ctx hw ∧
      ∀ ρ, Computes m hw ρ := by
  obtain ⟨ctx, k, hwalk, hk, hfol⟩ := follows_walk hm
  have hregs : k.regs = m.regResults := by
    rw [(steps_decls hk).1, (moduleActs_decls m).1]
    rfl
  have hwires : k.wires = m.wireResults := by
    rw [(steps_decls hk).2, (moduleActs_decls m).2]
    rfl
  have hout : ∀ ρ, List.Forall₂ (fun p q => q.1 = p.1 ∧ ClosedRel ρ q.2 (m.outputValue ρ p))
      m.outputPorts (assemble m ctx).outputs := by
    intro ρ
    have hR := respectsOps_closed ρ fun _ => Bits.const 0 0
    obtain ⟨-, hassign, -⟩ := finaliseWires_spec hR ctx.wires ctx
    obtain ⟨-, houts⟩ := outputOperands_spec hR m.outputPorts (finaliseWires ctx ctx.wires).2
    refine houts.imp fun p q hq => ⟨hq.1, ?_⟩
    obtain ⟨w, hrel⟩ := output_rel (hfol ρ) hk p
    exact hq.2 (hassign hrel)
  have hreg : ∀ ρ, List.Forall₂ (fun v r => ClosedRel ρ r.2.2 (nextValue (m.cycle ρ) v m.acts))
      m.regResults (assemble m ctx).regs := by
    intro ρ
    have h := hfol ρ
    have hlen : ctx.regs.length = m.regResults.length := by rw [h.regList, hregs]
    rw [assemble_regs, List.forall₂_iff_get]
    refine ⟨by simp [hlen], fun i h₁ h₂ => ?_⟩
    obtain ⟨-, -, r, hr, -, hnext, -⟩ := h.reg i (m.regResults.get ⟨i, h₁⟩)
      (by rw [hregs]; exact List.getElem?_eq_getElem h₁)
    have hi : i < ctx.regs.length := hlen ▸ h₁
    have hr' : ctx.regs[i] = r := Option.some.inj ((List.getElem?_eq_getElem hi).symm.trans hr)
    simpa [hr'] using hnext
  have hclosed : finishModule m ctx = .ok (assemble m ctx).dropUses := by
    have h := hfol ⟨fun _ _ => 0, fun _ _ => 0⟩
    refine finishModule_closed ?_ ?_ ?_
    · refine outputOperands_closed _ _ (finaliseWires_closed _ _ h.body ?_)
      intro w hw x hx
      rw [h.drivers w hw] at hx
      split at hx
      · rename_i hv
        obtain ⟨y, hy, hrel, -⟩ := h.vals _ hv
        obtain rfl : y = x := Option.some.inj (hy.symm.trans hx)
        exact hrel.1
      · exact absurd hx (by simp)
    · exact forall_right_of_forall₂ ((hout ⟨fun _ _ => 0, fun _ _ => 0⟩).imp fun _ _ hq => hq.2.1)
    · exact forall_right_of_forall₂ ((hreg ⟨fun _ _ => 0, fun _ _ => 0⟩).imp fun _ _ hr => hr.1)
  refine ⟨ctx, (assemble m ctx).dropUses, hwalk, ?_, ?_, fun ρ => ⟨?_, ?_⟩⟩
  · simp only [lowerOneModule, hwalk, bind, Except.bind]
    exact hclosed
  · -- the value read is the wire's driver
    have h₀ := hfol ⟨fun _ _ => 0, fun _ _ => 0⟩
    unfold ReadsCarried
    simp only [HWModule.dropUses, List.forall₂_map_right_iff]
    rw [← hwires, ← h₀.wireList, List.forall₂_map_left_iff]
    refine ((List.forall₂_and_left _ _).2 ⟨fun w hw => hw, finaliseWires_drivers ctx.wires ctx⟩).imp ?_
    rintro w q ⟨hw, hq⟩ x hx ρ
    obtain ⟨hv, hmap⟩ := h₀.reads _ hx
    obtain rfl : q.2 = x := hq x (by rw [h₀.drivers w hw, if_pos hv]; exact hmap)
    obtain ⟨y, hy, hrel, -⟩ := (hfol ρ).vals _ hv
    obtain rfl : y = q.2 := Option.some.inj (hy.symm.trans hmap)
    rw [Value.dropUses_of_closed _ hrel.1]
    exact ⟨_, denotes_of_closed hrel, denotes_of_closed hrel⟩
  · simp only [HWModule.dropUses, List.forall₂_map_right_iff]
    refine (hout ρ).imp fun p q hq => ⟨hq.1, ?_⟩
    rw [Value.dropUses_of_closed _ hq.2.1]
    exact denotes_of_closed hq.2
  · simp only [HWModule.dropUses, List.forall₂_map_right_iff]
    refine (hreg ρ).imp fun v r hr => ?_
    rw [Value.dropUses_of_closed _ hr.1]
    exact denotes_of_closed hr

end Modules

end Lower

end Nslc
