import Nslc.Lower.Clean
/-!
# The walk in step with the flow

On verified ops the lowering follows the flow of values through every
nesting of guards (`agrees_op`), so a whole module either comes out sound,
or is reported where the flow is, or is spoiled where the flow is.
-/

namespace Nslc

namespace Lower

open Dialect Circt

variable {D : Type}

/-! ## The walk of the flow, with what a step gives taken apart -/

section Equations

variable (A : Algebra D) (outs : List (Val × String))

theorem flowOp_ifOp (cond : Val) (thenRegion elseRegion : List Op) (sc : Scope D)
    (gate : Option (Cond D)) :
    flowOp A outs (.ifOp cond thenRegion elseRegion) sc gate =
      flowIf A sc gate cond >>= fun gs =>
        flowOps A outs thenRegion sc (some gs.1) >>= fun sc =>
          flowOps A outs elseRegion sc (some gs.2) := by
  rw [flowOp]

theorem flowOp_any (body : List Op) (sc : Scope D) (gate : Option (Cond D)) :
    flowOp A outs (.any body) sc gate =
      flowAny A outs body sc gate [] >>= fun r => r.2.foldlM (applyGathered A outs) r.1 := by
  rw [flowOp]

theorem flowAlt_case (cond : Val) (body children : List Op) (sc : Scope D)
    (gate : Option (Cond D)) (covered : Option D) :
    flowAlt A outs (.case cond body :: children) sc gate covered =
      flowCase A sc gate covered cond >>= fun fd =>
        flowOps A outs body sc (some fd.1) >>= fun sc =>
          flowAlt A outs children sc gate (some (cover A covered fd.2)) := by
  rw [flowAlt]

theorem flowAny_case (cond : Val) (body children : List Op) (sc : Scope D)
    (gate : Option (Cond D)) (accs : List (Gathered D)) :
    flowAny A outs (.case cond body :: children) sc gate accs =
      narrow A gate ⟨cond.width, sc.vals cond⟩ >>= fun fires =>
        flowAnyBody A outs body sc fires accs >>= fun r =>
          flowAny A outs children r.1 gate r.2 := by
  rw [flowAny]

theorem flowAny_default (body children : List Op) (sc : Scope D)
    (gate : Option (Cond D)) (accs : List (Gathered D)) :
    flowAny A outs (.default body :: children) sc gate accs =
      flowAnyBody A outs body sc (gate.getD (.bit (A.const 1 1))) accs >>= fun r =>
        flowAny A outs children r.1 gate r.2 := by
  rw [flowAny]

end Equations

/-! ## Verified ops -/

section Verified

variable {regs : List Val}

def VerifiedOps (regs : List Val) (ops : List Op) : Prop :=
  ∀ op ∈ Op.withins ops, op.verify regs = true

theorem verifiedOps_cons {op : Op} {ops : List Op} :
    VerifiedOps regs (op :: ops) ↔
      (∀ o ∈ Op.within op, o.verify regs = true) ∧ VerifiedOps regs ops := by
  simp only [VerifiedOps, Op.withins, List.forall_mem_append]

/-- The op itself is verified, and so is what is nested in it. -/
theorem verified_self {op : Op} (h : ∀ o ∈ Op.within op, o.verify regs = true) :
    op.verify regs = true :=
  h op (by cases op <;> simp [Op.within])

theorem verified_body {op : Op} {body : List Op} (hsub : ∀ o ∈ Op.withins body, o ∈ Op.within op)
    (h : ∀ o ∈ Op.within op, o.verify regs = true) : VerifiedOps regs body :=
  fun o ho => h o (hsub o ho)

end Verified

section Walk

variable {A : Algebra D} {R : Value → D → Prop} {S : Setting}

theorem makesGate_anyDefault {ctx : Ctx} (hA : Interprets A R) {gv : Option Value}
    {gate : Option (Cond D)} (hg : GateMeans R gv gate) {one : Option Value}
    (hone : ∀ o, one = some o → Stands R 1 o (A.const 1 1)) :
    MakesGate R ctx (gate.getD (.bit (A.const 1 1))) (anyDefaultGate ctx gv one) := by
  match gate, gv, hg with
  | some c, some g, hg => exact ⟨hg, .refl ctx⟩
  | none, none, _ =>
    cases one with
    | some o => exact ⟨hone o rfl, .refl ctx⟩
    | none => exact makesGate_const hA

mutual

/-- **One op**, under the gate of the enclosing guards. -/
theorem agrees_op (hA : Interprets A R) (op : Op)
    (hv : ∀ o ∈ Op.within op, o.verify S.regs = true) {sc : Scope D} {ctx : Ctx}
    (h : Clean R S sc ctx) {gate : Option (Cond D)} {gv : Option Value}
    (hg : GateMeans R gv gate) :
    Agrees id (Clean R S) (flowOp A S.outs op sc gate)
      (lowerControlOp op ctx gv) := by
  have hself := verified_self hv
  cases op with
  | expr res e =>
    simp only [Op.verify, Bool.and_eq_true, decide_eq_true_eq] at hself
    rw [flowOp, lowerControlOp]
    exact agrees_expr hA (h.adds (adds_observe ctx e.operands)) hself.1 hself.2
  | transfer dst src =>
    simp only [Op.verify, beq_iff_eq] at hself
    rw [flowOp, lowerControlOp]
    exact agrees_transfer hA (h.adds (adds_observe ctx [src])) hg hself
  | clockedTransfer dst src =>
    simp only [Op.verify, Bool.and_eq_true, beq_iff_eq, decide_eq_true_eq] at hself
    rw [flowOp, lowerControlOp]
    exact agrees_clocked hA (h.adds (adds_observe ctx [src])) hg hself.1 hself.2
  | ifOp cond thenRegion elseRegion =>
    have hthen : VerifiedOps S.regs thenRegion :=
      verified_body (fun o ho => by rw [Op.within]; simp [ho]) hv
    have helse : VerifiedOps S.regs elseRegion :=
      verified_body (fun o ho => by rw [Op.within]; simp [ho]) hv
    rw [flowOp_ifOp, lowerControlOp_ifOp]
    refine (agrees_ifGates hA hg (h.vals cond)).bind (fun gs r hgs => ?_) fun r ctx' hok => ?_
    · have hadds := (adds_observe ctx [cond]).trans hgs.2.2
      have hthenGate : GateMeans R (some r.1) (some gs.1) := hgs.1
      have helseGate : GateMeans R (some r.2.1) (some gs.2) := hgs.2.1
      exact (agrees_ops hA thenRegion hthen (h.adds hadds) hthenGate).bind
        (fun sc' ctx' h' => agrees_ops hA elseRegion helse h' helseGate)
        fun ctx' ctx'' hok => grows_lowerControlOps elseRegion hok
    · obtain ⟨mid, hthen, helse⟩ := bind_eq_ok hok
      exact (grows_lowerControlOps thenRegion hthen).trans (grows_lowerControlOps elseRegion helse)
  | alt body =>
    have hbody : VerifiedOps S.regs body :=
      verified_body (fun o ho => by rw [Op.within]; simp [ho]) hv
    rw [flowOp, lowerControlOp]
    exact agrees_alt hA body hbody h hg trivial
  | any body =>
    have hbody : VerifiedOps S.regs body :=
      verified_body (fun o ho => by rw [Op.within]; simp [ho]) hv
    rw [flowOp_any, lowerControlOp_any]
    refine (agrees_any hA body hbody h hg (by simp) .nil).bind (fun r s hrs => ?_)
      fun s ctx' hok => grows_foldlM (fun _ _ _ => grows_applyAccum) s.2 hok
    exact agrees_applyAccums hA hrs.2 hrs.1
  | call callee =>
    rw [flowOp, lowerControlOp]
    exact agrees_call hA h hg callee
  | parallel body =>
    have hbody : VerifiedOps S.regs body :=
      verified_body (fun o ho => by rw [Op.within]; simp [ho]) hv
    rw [flowOp, lowerControlOp]
    exact agrees_ops hA body hbody h hg
  | func name body =>
    have hbody : VerifiedOps S.regs body :=
      verified_body (fun o ho => by rw [Op.within]; simp [ho]) hv
    rw [flowOp, lowerControlOp, flowEnter, hA.enter]
    exact agrees_ops hA body hbody h hg
  | case cond body =>
    rw [flowOp, lowerControlOp]
    exact ⟨_, rfl⟩
  | default body =>
    rw [flowOp, lowerControlOp]
    exact ⟨_, rfl⟩
  | seq body => simp [Op.verify] at hself
  | other mnemonic => simp [Op.verify] at hself
  | _ =>
    rw [flowOp, lowerControlOp]
    exact agrees_ok h

theorem agrees_ops (hA : Interprets A R) (ops : List Op)
    (hv : VerifiedOps S.regs ops) {sc : Scope D} {ctx : Ctx}
    (h : Clean R S sc ctx) {gate : Option (Cond D)} {gv : Option Value}
    (hg : GateMeans R gv gate) :
    Agrees id (Clean R S) (flowOps A S.outs ops sc gate)
      (lowerControlOps ops ctx gv) := by
  cases ops with
  | nil =>
    rw [flowOps, lowerControlOps]
    exact agrees_ok h
  | cons op ops =>
    obtain ⟨hop, hops⟩ := verifiedOps_cons.1 hv
    rw [flowOps, lowerControlOps]
    exact (agrees_op hA op hop h hg).bind
      (fun sc' ctx' h' => agrees_ops hA ops hops h' hg)
      fun ctx' ctx'' hok => grows_lowerControlOps ops hok

/-- The children of `nsl.alt`. -/
theorem agrees_alt (hA : Interprets A R) (children : List Op)
    (hv : VerifiedOps S.regs children) {sc : Scope D} {ctx : Ctx}
    (h : Clean R S sc ctx) {gate : Option (Cond D)} {gv : Option Value}
    (hg : GateMeans R gv gate) {covered : Option D} {cv : Option Value}
    (hcov : CoveredMeans R cv covered) :
    Agrees id (Clean R S) (flowAlt A S.outs children sc gate covered)
      (lowerAltChildren children ctx gv cv) := by
  cases children with
  | nil =>
    rw [flowAlt, lowerAltChildren]
    exact agrees_ok h
  | cons child children =>
    obtain ⟨hchild, hchildren⟩ := verifiedOps_cons.1 hv
    cases child with
    | case cond body =>
      have hbody : VerifiedOps S.regs body :=
        verified_body (fun o ho => by rw [Op.within]; simp [ho]) hchild
      rw [flowAlt_case, lowerAltChildren_case]
      refine (agrees_caseGate (ctx.observe [cond]) hA hg hcov (h.vals cond)).next (fun fd hfd => ?_) fun ctx' hok => ?_
      · have hadds := (adds_observe ctx [cond]).trans hfd.1.2
        have hfires : GateMeans R (some _) (some fd.1) := hfd.1.1
        refine (agrees_ops hA body hbody (h.adds hadds) hfires).bind (fun sc' ctx' h' => ?_)
          fun ctx' ctx'' hok => ?_
        · have hcover : Stands R 1 (coverCase ctx' _ cv).1 _ ∧ Adds ctx' _ :=
            covers_coverCase hA hcov hfd.2
          exact agrees_alt hA children hchildren (h'.adds hcover.2) hg hcover.1
        · exact (grows_coverCase _ _ _).trans (grows_lowerAltChildren children hok)
      · obtain ⟨mid, hb, hrest⟩ := bind_eq_ok hok
        exact (grows_lowerControlOps body hb).trans
          ((grows_coverCase _ _ _).trans (grows_lowerAltChildren children hrest))
    | default body =>
      have hbody : VerifiedOps S.regs body :=
        verified_body (fun o ho => by rw [Op.within]; simp [ho]) hchild
      rw [flowAlt, lowerAltChildren_default]
      refine (agrees_defaultGate ctx hA hg hcov).next (fun fires hfires => ?_) fun ctx' hok => ?_
      · exact (agrees_ops hA body hbody (h.adds hfires.2) hfires.1).bind
          (fun sc' ctx' h' => agrees_alt hA children hchildren h' hg hcov)
          fun ctx' ctx'' hok => grows_lowerAltChildren children hok
      · obtain ⟨mid, hb, hrest⟩ := bind_eq_ok hok
        exact (grows_lowerControlOps body hb).trans (grows_lowerAltChildren children hrest)
    | _ =>
      simp only [flowAlt, lowerAltChildren]
      exact agrees_alt hA children hchildren h hg hcov

/-- The children of `nsl.any`. -/
theorem agrees_any (hA : Interprets A R) (children : List Op)
    (hv : VerifiedOps S.regs children) {sc : Scope D} {ctx : Ctx}
    (h : Clean R S sc ctx) {gate : Option (Cond D)} {gv : Option Value}
    (hg : GateMeans R gv gate) {one : Option Value}
    (hone : ∀ o, one = some o → Stands R 1 o (A.const 1 1)) {accs : List (Gathered D)}
    {accums : List AnyTargetAccum} (ha : List.Forall₂ (GatherMeans R S.regs) accums accs) :
    Agrees Prod.fst (fun r s => Clean R S r.1 s.1 ∧
        List.Forall₂ (GatherMeans R S.regs) s.2 r.2)
      (flowAny A S.outs children sc gate accs) (lowerAnyChildren children ctx gv one accums) := by
  cases children with
  | nil =>
    rw [flowAny, lowerAnyChildren]
    exact agrees_ok ⟨h, ha⟩
  | cons child children =>
    obtain ⟨hchild, hchildren⟩ := verifiedOps_cons.1 hv
    cases child with
    | case cond body =>
      have hbody : VerifiedOps S.regs body :=
        verified_body (fun o ho => by rw [Op.within]; simp [ho]) hchild
      rw [flowAny_case, lowerAnyChildren_case]
      have hnarrow := agrees_narrow (c := ⟨cond.width, sc.vals cond⟩) (ctx.observe [cond]) hA hg
        (h.vals cond)
      refine hnarrow.next (fun fires hfires => ?_) fun s hok => ?_
      · have hadds := (adds_observe ctx [cond]).trans hfires.2
        exact (agrees_anyBody hA body hbody (h.adds hadds) hfires.1 ha).bind
          (fun r s hrs => agrees_any hA children hchildren hrs.1 hg hone hrs.2)
          fun s s' hok => grows_lowerAnyChildren children hok
      · obtain ⟨mid, hb, hrest⟩ := bind_eq_ok hok
        exact (grows_accumulateAnyCaseBody body hb).trans (grows_lowerAnyChildren children hrest)
    | default body =>
      have hbody : VerifiedOps S.regs body :=
        verified_body (fun o ho => by rw [Op.within]; simp [ho]) hchild
      rw [flowAny_default, lowerAnyChildren_default]
      have hgate : MakesGate R ctx _ (anyDefaultGate ctx gv one) := makesGate_anyDefault hA hg hone
      refine (agrees_anyBody hA body hbody (h.adds hgate.2) hgate.1 ha).bind
        (fun r s hrs => ?_) fun s s' hok => grows_lowerAnyChildren children hok
      refine agrees_any hA children hchildren hrs.1 hg (fun o ho => ?_) hrs.2
      match gate, gv, hg with
      | some c, some g, _ => exact hone o ho
      | none, none, _ =>
        obtain rfl := Option.some.inj ho
        exact hgate.1
    | _ =>
      simp only [flowAny, lowerAnyChildren]
      exact agrees_any hA children hchildren h hg hone ha

theorem agrees_anyBody (hA : Interprets A R) (ops : List Op)
    (hv : VerifiedOps S.regs ops) {sc : Scope D} {ctx : Ctx}
    (h : Clean R S sc ctx) {c : Cond D} {g : Value}
    (hg : Means R c.width g c.value) {accs : List (Gathered D)}
    {accums : List AnyTargetAccum} (ha : List.Forall₂ (GatherMeans R S.regs) accums accs) :
    Agrees Prod.fst (fun r s => Clean R S r.1 s.1 ∧
        List.Forall₂ (GatherMeans R S.regs) s.2 r.2)
      (flowAnyBody A S.outs ops sc c accs) (accumulateAnyCaseBody ops ctx g accums) := by
  cases ops with
  | nil =>
    rw [flowAnyBody, accumulateAnyCaseBody]
    exact agrees_ok ⟨h, ha⟩
  | cons op ops =>
    obtain ⟨hop, hops⟩ := verifiedOps_cons.1 hv
    have hself := verified_self hop
    cases op with
    | transfer dst src =>
      simp only [Op.verify, beq_iff_eq] at hself
      rw [flowAnyBody, accumulateAnyCaseBody_transfer]
      have h₁ := h.adds (adds_observe ctx [src])
      have hgather := agrees_gather (b := false) hA h₁ hg hself (by simp) ha
      refine hgather.bind (fun accs' r hr => ?_)
        fun r s hok => grows_accumulateAnyCaseBody ops hok
      exact agrees_anyBody hA ops hops (h₁.adds hr.1) hg hr.2
    | clockedTransfer dst src =>
      simp only [Op.verify, Bool.and_eq_true, beq_iff_eq, decide_eq_true_eq] at hself
      rw [flowAnyBody, accumulateAnyCaseBody_clockedTransfer]
      have h₁ := h.adds (adds_observe ctx [src])
      refine (agrees_gather hA h₁ hg hself.1 (fun _ => hself.2) ha).bind (fun accs' r hr => ?_)
        fun r s hok => grows_accumulateAnyCaseBody ops hok
      exact agrees_anyBody hA ops hops (h₁.adds hr.1) hg hr.2
    | _ =>
      simp only [flowAnyBody, accumulateAnyCaseBody]
      have hgate : GateMeans R (some g) (some c) := hg
      exact (agrees_op hA _ hop h hgate).bind
        (fun sc' ctx' h' => agrees_anyBody hA ops hops h' hg ha)
        fun ctx' s hok => grows_accumulateAnyCaseBody ops hok

end

end Walk

/-! ## Modules -/

section Module

variable {A : Algebra D} {R : Value → D → Prop} {m : NslModule} {S : Setting} {sc : Scope D}
  {ctx : Ctx}

/-- The setting behind ops of the module. -/
def Setting.after (S : Setting) (ops : List Op) : Setting :=
  { S with
    madeRegs := S.madeRegs ++ ops.filterMap regResult?
    madeWires := S.madeWires ++ ops.filterMap wireResult? }

theorem Setting.after_cons (S : Setting) (op : Op) (ops : List Op) :
    S.after (op :: ops) = (S.after [op]).after ops := by
  unfold Setting.after
  cases hr : regResult? op <;> cases hw : wireResult? op <;> simp [hr, hw]

theorem Setting.after_plain {op : Op} (hr : regResult? op = none) (hw : wireResult? op = none) :
    S.after [op] = S := by
  unfold Setting.after
  simp [hr, hw]

theorem agrees_reg (hA : Interprets A R) (h : Clean R S sc ctx) {res : Val} (hres : res ∈ S.regs)
    (hnew : res ∉ S.madeRegs) (name : String) (init : ℕ) :
    Agrees id (Clean R (S.after [.reg res name init]))
      (flowBodyOp A S.outs S.clocked sc (.reg res name init))
      (lowerBodyOp ctx (.reg res name init)) := by
  simp only [flowBodyOp, lowerBodyOp, lowerRegOp]
  by_cases hclk : S.clocked = true
  · rw [if_pos hclk, if_pos (h.clocked.trans hclk)]
    have hown : Means R res.width (.reg ctx.regs.length res.width)
        (some (A.reg sc.regs.length res.width)) := by
      rw [h.regList]
      exact ⟨rfl, rfl, hA.reg _ _⟩
    have hnew' : res ∉ sc.regs := by
      rw [h.madeRegs]
      exact hnew
    refine agrees_ok (Clean.adds ?_ (adds_queue _ _))
    exact
      { h with
        madeRegs := congrArg (· ++ [res]) h.madeRegs
        madeWires := h.madeWires.trans (List.append_nil _).symm
        vals := fun v => by
          by_cases hv : v = res
          · subst hv
            simpa [Ctx.lookupValue, Ctx.recordValueMapping, Scope.addReg, Scope.define] using hown
          · simpa [Ctx.lookupValue, Ctx.recordValueMapping, Scope.addReg, Scope.define,
              Scope.driveReg, hv] using h.vals v
        regList := by
          simp [Ctx.recordValueMapping, Scope.addReg, Scope.define, Scope.driveReg, h.regList]
        regs_nodup := by
          refine List.nodup_append.2 ⟨h.regs_nodup, by simp, ?_⟩
          rintro a ha b hb rfl
          exact hnew' (List.mem_singleton.1 hb ▸ ha)
        reg := fun i v hi => by
          rcases Nat.lt_or_ge i sc.regs.length with hlt | hge
          · have hi' : sc.regs[i]? = some v := (List.getElem?_append_left hlt).symm.trans hi
            obtain ⟨hreg, hmap, r, hr, hprev, hnext⟩ := h.reg i v hi'
            have hne : v ≠ res := fun he => hnew' (he ▸ List.mem_of_getElem? hi')
            refine ⟨hreg, by simpa [Ctx.recordValueMapping, hne] using hmap, r, ?_, hprev, ?_⟩
            · simp only [Ctx.recordValueMapping]
              rwa [List.getElem?_append_left (h.regList ▸ hlt)]
            · simpa [Scope.addReg, Scope.define, Scope.driveReg, hne] using hnext
          · have hlen := (List.getElem?_eq_some_iff.1 hi).1
            simp only [Scope.addReg, Scope.define, Scope.driveReg, List.length_append,
              List.length_singleton] at hlen
            obtain rfl : i = sc.regs.length := by omega
            obtain rfl : res = v := by
              simpa [Scope.addReg, Scope.define, Scope.driveReg] using hi
            refine ⟨hres, by simp [Ctx.recordValueMapping, h.regList], ?_⟩
            refine ⟨⟨name, init, .reg ctx.regs.length res.width, .reg ctx.regs.length res.width⟩,
              ?_, by rw [h.regList], ?_⟩
            · simp [Ctx.recordValueMapping, ← h.regList]
            · simpa [Scope.addReg, Scope.define, Scope.driveReg] using hown
        pending := fun v hv hn => by
          have hn' : v ∉ sc.regs ∧ v ≠ res := by
            simpa [Scope.addReg, Scope.define, Scope.driveReg] using hn
          simpa [Ctx.recordValueMapping, hn'.2] using h.pending v hv hn'.1 }
  · rw [if_neg hclk, if_neg (by rw [h.clocked]; exact hclk)]
    exact ⟨_, rfl⟩

theorem clean_addWire (h : Clean R S sc ctx) {res : Val} (hres : res ∉ S.regs) (name : String) :
    Clean R (S.after [.wire res name]) { sc with wires := sc.wires ++ [res] }
      { ctx with wires := ctx.wires ++ [⟨name, res, none⟩] } :=
  { h with
    madeRegs := h.madeRegs.trans (List.append_nil _).symm
    madeWires := by simp [Setting.after, wireResult?, h.madeWires]
    wireList := by simp [h.wireList]
    wireDriver := fun v => by
      have hd := h.wireDriver v
      simp only [Ctx.wireInfo?, List.find?_append] at hd ⊢
      cases hf : ctx.wires.find? fun w => decide (w.origResult = v) with
      | some w =>
        rw [hf] at hd
        exact hd
      | none =>
        rw [hf] at hd
        by_cases hv : res = v
        · simpa [hv] using hd
        · simpa [hv] using hd
    wires_apart := fun v hv => by
      rcases List.mem_append.1 hv with hv | hv
      · exact h.wires_apart v hv
      · rw [List.mem_singleton.1 hv]
        exact hres }

theorem grows_lowerBodyOp {ctx ctx' : Ctx} {op : Op} (h : lowerBodyOp ctx op = .ok ctx') :
    Grows ctx ctx' := by
  cases op with
  | reg res name init =>
    simp only [lowerBodyOp, lowerRegOp] at h
    split at h
    · obtain rfl := Except.ok.inj h
      exact List.prefix_refl _
    · cases h
  | wire res name =>
    obtain rfl := Except.ok.inj h
    exact List.prefix_refl _
  | func symName body =>
    simp only [lowerBodyOp] at h
    split at h
    · obtain rfl := Except.ok.inj h
      exact .refl _
    · exact grows_lowerControlOp _ h
  | inputPort res name | outputPort res name | inoutPort res name =>
    obtain rfl := Except.ok.inj h
    exact .refl _
  | _ => exact grows_lowerControlOp _ h

/-- One op directly in the module. -/
theorem agrees_bodyOp (hA : Interprets A R) (h : Clean R S sc ctx) {op : Op}
    (hv : ∀ o ∈ Op.within op, o.verify S.regs = true)
    (hreg : ∀ res, regResult? op = some res → res ∈ S.regs ∧ res ∉ S.madeRegs) :
    Agrees id (Clean R (S.after [op])) (flowBodyOp A S.outs S.clocked sc op)
      (lowerBodyOp ctx op) := by
  have hself := verified_self hv
  have hgate : GateMeans R none none := trivial
  cases op with
  | reg res name init => exact agrees_reg hA h (hreg res rfl).1 (hreg res rfl).2 name init
  | wire res name =>
    have hres : res ∉ S.regs := by simpa [Op.verify] using hself
    exact agrees_ok ((clean_addWire h hres name).adds (adds_queue _ _))
  | func symName body =>
    rw [Setting.after_plain rfl rfl]
    simp only [flowBodyOp, lowerBodyOp]
    split
    · exact agrees_ok h
    · exact agrees_op hA _ hv h hgate
  | inputPort res name | outputPort res name | inoutPort res name =>
    rw [Setting.after_plain rfl rfl]
    simp only [flowBodyOp, flowOp, lowerBodyOp]
    exact agrees_ok h
  | _ =>
    rw [Setting.after_plain rfl rfl]
    exact agrees_op hA _ hv h hgate

/-- **The body of a module.** -/
theorem agrees_body (hA : Interprets A R) (ops : List Op) {S : Setting} {sc : Scope D} {ctx : Ctx}
    (h : Clean R S sc ctx) (hv : VerifiedOps S.regs ops)
    (hregs : ∀ res ∈ ops.filterMap regResult?, res ∈ S.regs)
    (hnodup : (S.madeRegs ++ ops.filterMap regResult?).Nodup) :
    Agrees id (Clean R (S.after ops)) (ops.foldlM (flowBodyOp A S.outs S.clocked) sc)
      (lowerBodyOps ops ctx) := by
  induction ops generalizing S sc ctx with
  | nil =>
    have hafter : S.after [] = S := by simp [Setting.after]
    rw [hafter]
    exact agrees_ok h
  | cons op ops ih =>
    obtain ⟨hop, hops⟩ := verifiedOps_cons.1 hv
    rw [List.foldlM_cons, lowerBodyOps, List.foldlM_cons, Setting.after_cons]
    have hreg : ∀ res, regResult? op = some res → res ∈ S.regs ∧ res ∉ S.madeRegs := by
      intro res hres
      rw [List.filterMap_cons_some hres] at hregs hnodup
      refine ⟨hregs res (by simp), fun hmem => ?_⟩
      exact (List.nodup_append.1 hnodup).2.2 res hmem res (by simp) rfl
    refine (agrees_bodyOp hA h hop hreg).bind (fun sc' ctx' h' => ih h' hops ?_ ?_)
      fun ctx' ctx'' hok => grows_foldlM (fun _ _ _ => grows_lowerBodyOp) ops hok
    · intro res hres
      refine hregs res ?_
      rw [List.filterMap_cons]
      split
      · exact hres
      · exact List.mem_cons_of_mem _ hres
    · have : (S.after [op]).madeRegs ++ ops.filterMap regResult? =
          S.madeRegs ++ (op :: ops).filterMap regResult? := by
        unfold Setting.after
        cases hr : regResult? op <;> simp [hr]
      rw [this]
      exact hnodup

end Module

end Lower

end Nslc
