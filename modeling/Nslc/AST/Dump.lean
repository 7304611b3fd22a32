import Nslc.AST.Recast
/-!
# AST — what the dump determines

Where no node leaves open which of its optional parts it has, the dump
determines the unit up to locations, and where one does there is another
unit with the same dump.
-/

namespace Nslc

namespace AST

/-! ## Lists told apart by kind -/

def treeKind : Tree → NodeKind
  | .node h _ => h.kind

/-- Two lists one after the other come apart where the kinds of the one
are not those of the other. -/
theorem append_inj_of_kinds (p : NodeKind → Bool) {l r l' r' : List Tree}
    (hl : ∀ t ∈ l, p (treeKind t) = true) (hr : ∀ t ∈ r, p (treeKind t) = false)
    (hl' : ∀ t ∈ l', p (treeKind t) = true) (hr' : ∀ t ∈ r', p (treeKind t) = false)
    (h : l ++ r = l' ++ r') : l = l' ∧ r = r' := by
  have hfilter : ∀ {l r : List Tree}, (∀ t ∈ l, p (treeKind t) = true) →
      (∀ t ∈ r, p (treeKind t) = false) → (l ++ r).filter (fun t => p (treeKind t)) = l := by
    intro l r hl hr
    rw [List.filter_append, List.filter_eq_self.2 hl,
      List.filter_eq_nil_iff.2 fun t ht => by simp [hr t ht], List.append_nil]
  have heq : l = l' := by rw [← hfilter hl hr, h, hfilter hl' hr']
  subst heq
  exact ⟨rfl, List.append_cancel_left h⟩

theorem mem_stmtTrees {t : Tree} {ss : List Stmt} (h : t ∈ stmtTrees ss) :
    ∃ s ∈ ss, t = stmtTree s := by
  induction ss with
  | nil => exact absurd h List.not_mem_nil
  | cons s ss ih =>
    obtain rfl | h := List.mem_cons.1 h
    · exact ⟨s, by simp, rfl⟩
    · obtain ⟨r, hr, rfl⟩ := ih h
      exact ⟨r, by simp [hr], rfl⟩

theorem mem_declTrees {t : Tree} {ds : List Decl} (h : t ∈ declTrees ds) :
    ∃ d ∈ ds, t = declTree d := by
  induction ds with
  | nil => exact absurd h List.not_mem_nil
  | cons d ds ih =>
    obtain rfl | h := List.mem_cons.1 h
    · exact ⟨d, by simp, rfl⟩
    · obtain ⟨e, he, rfl⟩ := ih h
      exact ⟨e, by simp [he], rfl⟩

theorem isStmt_stmtTree (s : Stmt) : (treeKind (stmtTree s)).isStmt = true := by
  cases s <;> rfl

theorem isStmt_declTree (d : Decl) : (treeKind (declTree d)).isStmt = false := by
  cases d <;> rfl

theorem isStmt_stmtTrees (ss : List Stmt) : ∀ t ∈ stmtTrees ss, (treeKind t).isStmt = true := by
  intro t ht
  obtain ⟨s, -, rfl⟩ := mem_stmtTrees ht
  exact isStmt_stmtTree s

theorem isStmt_declTrees (ds : List Decl) : ∀ t ∈ declTrees ds, (treeKind t).isStmt = false := by
  intro t ht
  obtain ⟨d, -, rfl⟩ := mem_declTrees ht
  exact isStmt_declTree d

/-- Declarations and then statements. -/
theorem block_inj {ds ds' : List Decl} {ss ss' : List Stmt}
    (h : declTrees ds ++ stmtTrees ss = declTrees ds' ++ stmtTrees ss') :
    declTrees ds = declTrees ds' ∧ stmtTrees ss = stmtTrees ss' :=
  append_inj_of_kinds (fun k => !k.isStmt) (fun t ht => by simp [isStmt_declTrees ds t ht])
    (fun t ht => by simp [isStmt_stmtTrees ss t ht])
    (fun t ht => by simp [isStmt_declTrees ds' t ht])
    (fun t ht => by simp [isStmt_stmtTrees ss' t ht]) h

theorem kind_caseTrees (cs : List CondCase) : ∀ t ∈ caseTrees cs, treeKind t = .condCase := by
  induction cs with
  | nil => simp [caseTrees]
  | cons c cs ih =>
    obtain ⟨cond, body⟩ := c
    intro t ht
    obtain rfl | ht := List.mem_cons.1 ht
    · rfl
    · exact ih t ht

theorem kind_elseTrees (s : Option Stmt) : ∀ t ∈ elseTrees s, treeKind t = .elseCase := by
  cases s with
  | none => simp [elseTrees]
  | some s => simp [elseTrees, treeKind]

theorem cases_inj {cs cs' : List CondCase} {s s' : Option Stmt}
    (h : caseTrees cs ++ elseTrees s = caseTrees cs' ++ elseTrees s') :
    caseTrees cs = caseTrees cs' ∧ elseTrees s = elseTrees s' :=
  append_inj_of_kinds (· == .condCase) (fun t ht => by simp [kind_caseTrees cs t ht])
    (fun t ht => by simp [kind_elseTrees s t ht]) (fun t ht => by simp [kind_caseTrees cs' t ht])
    (fun t ht => by simp [kind_elseTrees s' t ht]) h

/-- The kinds among the internals of a module. -/
def NodeKind.isInternal (k : NodeKind) : Bool :=
  !(k.isStmt || k == .funcDefn || k == .procDefn || k == .stateDefn)

/-- The four lists of a module come apart. -/
theorem module_inj {is is' : List Decl} {as as' : List Stmt} {fs fs' ps ps' : List Decl}
    (hi : ∀ d ∈ is, d.isInternal) (hf : ∀ d ∈ fs, d.isFunc) (hp : ∀ d ∈ ps, d.isProc)
    (hi' : ∀ d ∈ is', d.isInternal) (hf' : ∀ d ∈ fs', d.isFunc) (hp' : ∀ d ∈ ps', d.isProc)
    (h : declTrees is ++ (stmtTrees as ++ (declTrees fs ++ declTrees ps)) =
      declTrees is' ++ (stmtTrees as' ++ (declTrees fs' ++ declTrees ps'))) :
    declTrees is = declTrees is' ∧ stmtTrees as = stmtTrees as' ∧
      declTrees fs = declTrees fs' ∧ declTrees ps = declTrees ps' := by
  have hinternal : ∀ {ds : List Decl}, (∀ d ∈ ds, d.isInternal) →
      ∀ t ∈ declTrees ds, (treeKind t).isInternal = true := by
    intro ds hds t ht
    obtain ⟨d, hd, rfl⟩ := mem_declTrees ht
    have := hds d hd
    cases d <;> first | rfl | simp [Decl.isInternal] at this
  have hfunc : ∀ {ds : List Decl}, (∀ d ∈ ds, d.isFunc) →
      ∀ t ∈ declTrees ds, treeKind t = .funcDefn := by
    intro ds hds t ht
    obtain ⟨d, hd, rfl⟩ := mem_declTrees ht
    have := hds d hd
    cases d <;> first | rfl | simp [Decl.isFunc] at this
  have hproc : ∀ {ds : List Decl}, (∀ d ∈ ds, d.isProc) →
      ∀ t ∈ declTrees ds, treeKind t = .procDefn ∨ treeKind t = .stateDefn := by
    intro ds hds t ht
    obtain ⟨d, hd, rfl⟩ := mem_declTrees ht
    have := hds d hd
    cases d <;> first | exact Or.inl rfl | exact Or.inr rfl | simp [Decl.isProc] at this
  have hrest : ∀ {as : List Stmt} {fs ps : List Decl}, (∀ d ∈ fs, d.isFunc) →
      (∀ d ∈ ps, d.isProc) → ∀ t ∈ stmtTrees as ++ (declTrees fs ++ declTrees ps),
        (treeKind t).isInternal = false := by
    intro as fs ps hf hp t ht
    rcases List.mem_append.1 ht with ht | ht
    · simp [NodeKind.isInternal, isStmt_stmtTrees as t ht]
    · rcases List.mem_append.1 ht with ht | ht
      · rw [hfunc hf t ht]; rfl
      · obtain hk | hk := hproc hp t ht <;> rw [hk] <;> rfl
  have hdecls : ∀ {fs ps : List Decl}, ∀ t ∈ declTrees fs ++ declTrees ps,
      (treeKind t).isStmt = false := by
    intro fs ps t ht
    rcases List.mem_append.1 ht with ht | ht
    · exact isStmt_declTrees fs t ht
    · exact isStmt_declTrees ps t ht
  obtain ⟨h₁, h⟩ := append_inj_of_kinds NodeKind.isInternal (hinternal hi) (hrest hf hp)
    (hinternal hi') (hrest hf' hp') h
  obtain ⟨h₂, h⟩ := append_inj_of_kinds NodeKind.isStmt (isStmt_stmtTrees as) hdecls
    (isStmt_stmtTrees as') hdecls h
  have hnot : ∀ {ps : List Decl}, (∀ d ∈ ps, d.isProc) → ∀ t ∈ declTrees ps,
      (treeKind t == .funcDefn) = false := by
    intro ps hp t ht
    obtain hk | hk := hproc hp t ht <;> rw [hk] <;> rfl
  obtain ⟨h₃, h₄⟩ := append_inj_of_kinds (· == .funcDefn) (fun t ht => by simp [hfunc hf t ht])
    (hnot hp) (fun t ht => by simp [hfunc hf' t ht]) (hnot hp') h
  exact ⟨h₁, h₂, h₃, h₄⟩

/-! ## Lists of records -/

theorem map_bare_eq {α : Type} {tree : α → Tree} {bare : α → α}
    (h : ∀ a b, tree a = tree b → bare a = bare b) :
    ∀ as bs : List α, as.map tree = bs.map tree → as.map bare = bs.map bare
  | [], [], _ => rfl
  | a :: as, b :: bs, heq => by
    simp only [List.map_cons, List.cons.injEq] at heq
    rw [List.map_cons, List.map_cons, h a b heq.1, map_bare_eq h as bs heq.2]

theorem portDecl_eq (p q : PortDecl) (h : portTree p = portTree q) : p.bare = q.bare := by
  simp only [portTree, Sexp.node.injEq, Head.mk.injEq, List.cons.injEq, emitField_inj,
    true_and] at h
  obtain ⟨⟨hdirection, hname, hfields⟩, hwidth⟩ := h
  obtain ⟨hreturn, hargs⟩ := terminal_fields_inj hfields
  simp only [PortDecl.bare, Direction.text_injective hdirection, hname, hargs, hreturn,
    bareExpr?_eq _ _ hwidth]

theorem paramDecl_eq (p q : TopLevelParamDecl) (h : paramTree p = paramTree q) :
    p.bare = q.bare := by
  simp only [paramTree, Sexp.node.injEq, Head.mk.injEq, List.cons.injEq, emitField_inj,
    true_and, and_true] at h
  simp only [TopLevelParamDecl.bare, ParamKind.text_injective h.1.1, h.1.2,
    bareExpr?_eq _ _ h.2]

theorem structMember_eq (m n : StructMember) (h : memberTree m = memberTree n) :
    m.bare = n.bare := by
  simp only [memberTree, Sexp.node.injEq, Head.mk.injEq, List.cons.injEq, emitField_inj,
    true_and, and_true] at h
  simp only [StructMember.bare, h.1, bareExpr?_eq _ _ h.2]

theorem instance_eq (i j : Instance) (h : instanceTree i = instanceTree j) : i.bare = j.bare := by
  simp only [instanceTree, Sexp.node.injEq, Head.mk.injEq, List.cons.injEq, emitField_inj,
    true_and, and_true] at h
  simp only [Instance.bare, h.1, bareExpr?_eq _ _ h.2]

theorem paramAssign_eq (a b : ParamAssign) (h : assignTree a = assignTree b) :
    a.bare = b.bare := by
  simp only [assignTree, Sexp.node.injEq, Head.mk.injEq, List.cons.injEq, emitField_inj,
    true_and, and_true] at h
  simp only [ParamAssign.bare, h.1, bare_eq _ _ h.2]

theorem declare_inj {ps ps' : List TopLevelParamDecl} {qs qs' : List PortDecl}
    (h : ps.map paramTree ++ qs.map portTree = ps'.map paramTree ++ qs'.map portTree) :
    ps.map paramTree = ps'.map paramTree ∧ qs.map portTree = qs'.map portTree := by
  have hparam : ∀ (ps : List TopLevelParamDecl), ∀ t ∈ ps.map paramTree,
      (treeKind t == .topLevelParamDecl) = true := by
    intro ps t ht
    obtain ⟨p, -, rfl⟩ := List.mem_map.1 ht
    rfl
  have hport : ∀ (qs : List PortDecl), ∀ t ∈ qs.map portTree,
      (treeKind t == .topLevelParamDecl) = false := by
    intro qs t ht
    obtain ⟨q, -, rfl⟩ := List.mem_map.1 ht
    rfl
  exact append_inj_of_kinds (· == .topLevelParamDecl) (hparam ps) (hport qs) (hparam ps')
    (hport qs') h

theorem submodule_inj {is is' : List Instance} {as as' : List ParamAssign}
    (h : is.map instanceTree ++ as.map assignTree = is'.map instanceTree ++ as'.map assignTree) :
    is.map instanceTree = is'.map instanceTree ∧ as.map assignTree = as'.map assignTree := by
  have hinst : ∀ (is : List Instance), ∀ t ∈ is.map instanceTree,
      (treeKind t == .inst) = true := by
    intro is t ht
    obtain ⟨i, -, rfl⟩ := List.mem_map.1 ht
    rfl
  have hassign : ∀ (as : List ParamAssign), ∀ t ∈ as.map assignTree,
      (treeKind t == .inst) = false := by
    intro as t ht
    obtain ⟨a, -, rfl⟩ := List.mem_map.1 ht
    rfl
  exact append_inj_of_kinds (· == .inst) (hinst is) (hassign as) (hinst is') (hassign as') h

/-! ## A settled tree is determined -/

mutual

/-- A settled statement's tree determines it up to locations. -/
theorem recast_eq : ∀ s t : Stmt, s.Every Stmt.Settled Decl.Settled →
    s.Every Stmt.Shaped Decl.Shaped → t.Every Stmt.Shaped Decl.Shaped →
      stmtTree s = stmtTree t → s.recast false = t.recast false
  | .transfer _ op lhs rhs, t, _, _, _, h => by
    cases t <;> simp only [stmtTree, Sexp.node.injEq, Head.mk.injEq, reduceCtorEq, false_and] at h
    case transfer =>
      simp only [List.cons.injEq, emitField_inj, true_and, and_true] at h
      rw [Stmt.recast, Stmt.recast, TransferOp.text_injective h.1, bare_eq _ _ h.2.1,
        bare_eq _ _ h.2.2]
  | .incDec target op isPrefix, t, _, _, _, h => by
    cases t <;> simp only [stmtTree, Sexp.node.injEq, Head.mk.injEq, reduceCtorEq, false_and] at h
    case incDec =>
      simp only [List.cons.injEq, emitField_inj, true_and, and_true] at h
      rw [Stmt.recast, Stmt.recast, IncDecOp.text_injective h.1.1, boolText_injective h.1.2,
        bare_eq _ _ h.2]
  | .controlCall _ target args, t, _, _, _, h => by
    cases t <;> simp only [stmtTree, Sexp.node.injEq, Head.mk.injEq, reduceCtorEq, false_and] at h
    case controlCall =>
      simp only [List.cons.injEq, Field.mk.injEq, Value.parts.injEq, true_and, and_true] at h
      rw [Stmt.recast, Stmt.recast, h.1, bareExprs_eq _ _ h.2]
  | .bareFinish _, t, _, _, _, h => by
    cases t <;> simp only [stmtTree, Sexp.node.injEq, Head.mk.injEq, reduceCtorEq, false_and] at h
    case bareFinish => rfl
  | .systemTask name args, t, _, _, _, h => by
    cases t <;> simp only [stmtTree, Sexp.node.injEq, Head.mk.injEq, reduceCtorEq, false_and] at h
    case systemTask =>
      simp only [List.cons.injEq, emitField_inj, true_and, and_true] at h
      rw [Stmt.recast, Stmt.recast, h.1, bareExprs_eq _ _ h.2]
  | .return _ value, t, _, _, _, h => by
    cases t <;> simp only [stmtTree, Sexp.node.injEq, Head.mk.injEq, reduceCtorEq, false_and] at h
    case «return» => rw [Stmt.recast, Stmt.recast, bareExpr?_eq _ _ h.2]
  | .empty, t, _, _, _, h => by
    cases t <;> simp only [stmtTree, Sexp.node.injEq, Head.mk.injEq, reduceCtorEq, false_and] at h
    case empty => rfl
  | .labeled label body, t, hs, hp, hq, h => by
    cases t <;> simp only [stmtTree, Sexp.node.injEq, Head.mk.injEq, reduceCtorEq, false_and] at h
    case labeled label' body' =>
      simp only [List.cons.injEq, emitField_inj, true_and, and_true] at h
      rw [Stmt.recast, Stmt.recast, h.1, recastStmt?_eq body body' hs.2 hp.2 hq.2 h.2]
  | .goto target, t, _, _, _, h => by
    cases t <;> simp only [stmtTree, Sexp.node.injEq, Head.mk.injEq, reduceCtorEq, false_and] at h
    case goto =>
      simp only [List.cons.injEq, emitField_inj, true_and, and_true] at h
      rw [h]
  | .initBlock items, t, hs, hp, hq, h => by
    cases t <;> simp only [stmtTree, Sexp.node.injEq, Head.mk.injEq, reduceCtorEq, false_and] at h
    case initBlock items' =>
      rw [Stmt.recast, Stmt.recast, recastStmts_eq items items' hs.2 hp.2 hq.2 h.2]
  | .delayTask count, t, _, _, _, h => by
    cases t <;> simp only [stmtTree, Sexp.node.injEq, Head.mk.injEq, reduceCtorEq, false_and] at h
    case delayTask =>
      simp only [List.cons.injEq, true_and, and_true] at h
      rw [Stmt.recast, Stmt.recast, bare_eq _ _ h]
  | .parallel items decls, t, hs, hp, hq, h => by
    cases t <;> simp only [stmtTree, Sexp.node.injEq, Head.mk.injEq, reduceCtorEq, false_and] at h
    case parallel items' decls' =>
      obtain ⟨hdecls, hitems⟩ := block_inj h.2
      rw [Stmt.recast, Stmt.recast, recastStmts_eq items items' hs.2.1 hp.2.1 hq.2.1 hitems,
        recastDecls_eq decls decls' hs.2.2 hp.2.2 hq.2.2 hdecls]
  | .alt cases elseCase, t, hs, hp, hq, h => by
    cases t <;> simp only [stmtTree, Sexp.node.injEq, Head.mk.injEq, reduceCtorEq, false_and] at h
    case alt cases' elseCase' =>
      obtain ⟨hcases, helse⟩ := cases_inj h.2
      rw [Stmt.recast, Stmt.recast, recastCases_eq cases cases' hs.2.1 hp.2.1 hq.2.1 hcases,
        recastElse_eq elseCase elseCase' hs.2.2 hp.2.2 hq.2.2 helse]
  | .any cases elseCase, t, hs, hp, hq, h => by
    cases t <;> simp only [stmtTree, Sexp.node.injEq, Head.mk.injEq, reduceCtorEq, false_and] at h
    case any cases' elseCase' =>
      obtain ⟨hcases, helse⟩ := cases_inj h.2
      rw [Stmt.recast, Stmt.recast, recastCases_eq cases cases' hs.2.1 hp.2.1 hq.2.1 hcases,
        recastElse_eq elseCase elseCase' hs.2.2 hp.2.2 hq.2.2 helse]
  | .seq items decls, t, hs, hp, hq, h => by
    cases t <;> simp only [stmtTree, Sexp.node.injEq, Head.mk.injEq, reduceCtorEq, false_and] at h
    case seq items' decls' =>
      obtain ⟨hdecls, hitems⟩ := block_inj h.2
      rw [Stmt.recast, Stmt.recast, recastStmts_eq items items' hs.2.1 hp.2.1 hq.2.1 hitems,
        recastDecls_eq decls decls' hs.2.2 hp.2.2 hq.2.2 hdecls]
  | .while cond items, t, hs, hp, hq, h => by
    cases t <;> simp only [stmtTree, Sexp.node.injEq, Head.mk.injEq, reduceCtorEq, false_and] at h
    case «while» cond' items' =>
      simp only [List.cons.injEq, true_and] at h
      rw [Stmt.recast, Stmt.recast, bare_eq _ _ h.1,
        recastStmts_eq items items' hs.2 hp.2 hq.2 h.2]
  | .for init cond (some step) items, t, hs, _, _, h => by
    obtain ⟨⟨hstep, -⟩, -⟩ := hs
    exact absurd hstep (by simp)
  | .for init cond none items, t, hs, hp, hq, h => by
    cases t <;> simp only [stmtTree, Sexp.node.injEq, Head.mk.injEq, reduceCtorEq, false_and] at h
    case «for» init' cond' step' items' =>
      simp only [List.cons.injEq, true_and] at h
      obtain ⟨hinit, hcond, hrest⟩ := h
      have hinit := recast_eq init init' hs.2.1 hp.2.1 hq.2.1 hinit
      cases step' with
      | none =>
        have hitems := recastStmts_eq items items' hs.2.2.2 hp.2.2.2 hq.2.2.2 hrest
        simp only [Stmt.recast, recastStmt?, hinit, bare_eq _ _ hcond, hitems]
      | some step' =>
        -- a step would be the first item, and that is none
        cases items with
        | nil => simp [stmtTree?, stmtTrees] at hrest
        | cons s ss =>
          simp only [stmtTree?, stmtTrees, List.nil_append, List.singleton_append,
            List.cons.injEq] at hrest
          have hsame := recast_eq s step' hs.2.2.2.1 hp.2.2.2.1 hq.2.2.1 hrest.1
          have hstep : step'.isStep = true := hq.1 step' rfl
          have hno : s.isStep = false := hs.1.2 s rfl
          rw [← isStep_recast false, hsame, isStep_recast, hstep] at hno
          exact absurd hno (by simp)
  | .if cond thenBr elseBr, t, hs, hp, hq, h => by
    cases t <;> simp only [stmtTree, Sexp.node.injEq, Head.mk.injEq, reduceCtorEq, false_and] at h
    case «if» cond' thenBr' elseBr' =>
      simp only [List.cons.injEq, true_and] at h
      rw [Stmt.recast, Stmt.recast, bare_eq _ _ h.1,
        recast_eq thenBr thenBr' hs.2.1 hp.2.1 hq.2.1 h.2.1,
        recastStmt?_eq elseBr elseBr' hs.2.2 hp.2.2 hq.2.2 h.2.2]
  | .generate _ init initValue cond step body, t, hs, hp, hq, h => by
    cases t <;> simp only [stmtTree, Sexp.node.injEq, Head.mk.injEq, reduceCtorEq, false_and] at h
    case generate loc' init' initValue' cond' step' body' =>
      simp only [List.cons.injEq, emitField_inj, true_and, and_true] at h
      rw [Stmt.recast, Stmt.recast, h.1, bare_eq _ _ h.2.1, bare_eq _ _ h.2.2.1,
        bare_eq _ _ h.2.2.2.1, recast_eq body body' hs.2 hp.2 hq.2 h.2.2.2.2]

theorem recastStmts_eq : ∀ ss ts : List Stmt, EveryStmt Stmt.Settled Decl.Settled ss →
    EveryStmt Stmt.Shaped Decl.Shaped ss → EveryStmt Stmt.Shaped Decl.Shaped ts →
      stmtTrees ss = stmtTrees ts → recastStmts false ss = recastStmts false ts
  | [], [], _, _, _, _ => rfl
  | s :: ss, t :: ts, hs, hp, hq, h => by
    simp only [stmtTrees, List.cons.injEq] at h
    rw [recastStmts, recastStmts, recast_eq s t hs.1 hp.1 hq.1 h.1,
      recastStmts_eq ss ts hs.2 hp.2 hq.2 h.2]

theorem recastStmt?_eq : ∀ s t : Option Stmt, EveryStmt? Stmt.Settled Decl.Settled s →
    EveryStmt? Stmt.Shaped Decl.Shaped s → EveryStmt? Stmt.Shaped Decl.Shaped t →
      stmtTree? s = stmtTree? t → recastStmt? false s = recastStmt? false t
  | none, none, _, _, _, _ => rfl
  | some s, some t, hs, hp, hq, h => by
    simp only [stmtTree?, List.cons.injEq, and_true] at h
    rw [recastStmt?, recastStmt?, recast_eq s t hs hp hq h]

theorem recastElse_eq : ∀ s t : Option Stmt, EveryStmt? Stmt.Settled Decl.Settled s →
    EveryStmt? Stmt.Shaped Decl.Shaped s → EveryStmt? Stmt.Shaped Decl.Shaped t →
      elseTrees s = elseTrees t → recastStmt? false s = recastStmt? false t
  | none, none, _, _, _, _ => rfl
  | some s, some t, hs, hp, hq, h => by
    simp only [elseTrees, List.cons.injEq, Sexp.node.injEq, true_and, and_true] at h
    rw [recastStmt?, recastStmt?, recast_eq s t hs hp hq h]

theorem recastCases_eq : ∀ cs es : List CondCase, EveryCase Stmt.Settled Decl.Settled cs →
    EveryCase Stmt.Shaped Decl.Shaped cs → EveryCase Stmt.Shaped Decl.Shaped es →
      caseTrees cs = caseTrees es → recastCases false cs = recastCases false es
  | [], [], _, _, _, _ => rfl
  | [], .mk _ _ :: _, _, _, _, h => absurd h (by simp [caseTrees])
  | .mk _ _ :: _, [], _, _, _, h => absurd h (by simp [caseTrees])
  | .mk cond body :: cs, .mk cond' body' :: es, hs, hp, hq, h => by
    simp only [caseTrees, List.cons.injEq, Sexp.node.injEq, true_and, and_true] at h
    rw [recastCases, recastCases, bare_eq _ _ h.1.1, recast_eq body body' hs.1 hp.1 hq.1 h.1.2,
      recastCases_eq cs es hs.2 hp.2 hq.2 h.2]

theorem recastDecl_eq : ∀ d e : Decl, d.Every Stmt.Settled Decl.Settled →
    d.Every Stmt.Shaped Decl.Shaped → e.Every Stmt.Shaped Decl.Shaped →
      declTree d = declTree e → d.recast false = e.recast false
  | .topLevelParam p, e, _, _, hq, h => by
    cases e
    case topLevelParam q => rw [Decl.recast, Decl.recast, paramDecl_eq p q h]
    all_goals exact absurd (congrArg treeKind h) (by simp [declTree, paramTree, portTree, treeKind])
  | .struct _ name members, e, _, _, _, h => by
    cases e <;> simp only [declTree, paramTree, portTree, Sexp.node.injEq, Head.mk.injEq,
      reduceCtorEq, false_and] at h
    case struct loc' name' members' =>
      simp only [List.cons.injEq, emitField_inj, true_and, and_true] at h
      rw [Decl.recast, Decl.recast, h.1, map_bare_eq structMember_eq _ _ h.2]
  | .declare name modifier clockName resetName headerParams ports, e, hs, hp, hq, h => by
    cases e <;> simp only [declTree, paramTree, portTree, Sexp.node.injEq, Head.mk.injEq,
      reduceCtorEq, false_and] at h
    case declare name' modifier' clockName' resetName' headerParams' ports' =>
      obtain ⟨hname, hmodifier⟩ := declare_fields_inj h.1.2
      obtain ⟨hparams, hports⟩ := declare_inj h.2
      -- without a modifier there is no clock and no reset
      have hnone : modifier = .none := hs.1
      obtain ⟨hclock, hreset⟩ := hp.1 hnone
      obtain ⟨hclock', hreset'⟩ := hq.1 (hmodifier ▸ hnone)
      simp only [Decl.recast, hname, hmodifier, hclock, hreset, hclock', hreset',
        map_bare_eq paramDecl_eq _ _ hparams, map_bare_eq portDecl_eq _ _ hports]
  | .module _ name internals actions funcs procs, e, hs, hp, hq, h => by
    cases e <;> simp only [declTree, paramTree, portTree, Sexp.node.injEq, Head.mk.injEq,
      reduceCtorEq, false_and] at h
    case module loc' name' internals' actions' funcs' procs' =>
      simp only [List.cons.injEq, emitField_inj, true_and, and_true] at h
      obtain ⟨hi, ha, hf, hpr⟩ := module_inj hp.1.1 hp.1.2.1 hp.1.2.2 hq.1.1 hq.1.2.1 hq.1.2.2 h.2
      rw [Decl.recast, Decl.recast, h.1,
        recastDecls_eq internals internals' hs.2.1 hp.2.1 hq.2.1 hi,
        recastStmts_eq actions actions' hs.2.2.1 hp.2.2.1 hq.2.2.1 ha,
        recastDecls_eq funcs funcs' hs.2.2.2.1 hp.2.2.2.1 hq.2.2.2.1 hf,
        recastDecls_eq procs procs' hs.2.2.2.2 hp.2.2.2.2 hq.2.2.2.2 hpr]
  | .port p, e, _, _, hq, h => by
    cases e
    case port q => rw [Decl.recast, Decl.recast, portDecl_eq p q h]
    all_goals exact absurd (congrArg treeKind h) (by simp [declTree, paramTree, portTree, treeKind])
  | .reg _ name width init, e, hs, _, hq, h => by
    cases e <;> simp only [declTree, paramTree, portTree, Sexp.node.injEq, Head.mk.injEq,
      reduceCtorEq, false_and] at h
    case reg loc' name' width' init' =>
      simp only [List.cons.injEq, emitField_inj, true_and, and_true] at h
      have hboth : width.isSome = init.isSome := hs.1
      -- no part or two, so that each is where it was
      have hparts : exprTree? width = exprTree? width' ∧ exprTree? init = exprTree? init' := by
        cases width <;> cases init <;> cases width' <;> cases init' <;>
          simp_all [exprTree?]
      simp only [Decl.recast, h.1, bareExpr?_eq _ _ hparts.1, bareExpr?_eq _ _ hparts.2]
  | .wire _ name width, e, _, _, _, h => by
    cases e <;> simp only [declTree, paramTree, portTree, Sexp.node.injEq, Head.mk.injEq,
      reduceCtorEq, false_and] at h
    case wire =>
      simp only [List.cons.injEq, emitField_inj, true_and, and_true] at h
      rw [Decl.recast, Decl.recast, h.1, bareExpr?_eq _ _ h.2]
  | .variable _ name width, e, _, _, _, h => by
    cases e <;> simp only [declTree, paramTree, portTree, Sexp.node.injEq, Head.mk.injEq,
      reduceCtorEq, false_and] at h
    case «variable» =>
      simp only [List.cons.injEq, emitField_inj, true_and, and_true] at h
      rw [Decl.recast, Decl.recast, h.1, bareExpr?_eq _ _ h.2]
  | .integer _ name, e, _, _, _, h => by
    cases e <;> simp only [declTree, paramTree, portTree, Sexp.node.injEq, Head.mk.injEq,
      reduceCtorEq, false_and] at h
    case integer =>
      simp only [List.cons.injEq, emitField_inj, true_and, and_true] at h
      rw [Decl.recast, Decl.recast, h]
  | .mem _ name depth width init, e, _, _, _, h => by
    cases e <;> simp only [declTree, paramTree, portTree, Sexp.node.injEq, Head.mk.injEq,
      reduceCtorEq, false_and] at h
    case mem =>
      simp only [List.cons.injEq, emitField_inj, true_and, and_true] at h
      rw [Decl.recast, Decl.recast, h.1, bare_eq _ _ h.2.1, bare_eq _ _ h.2.2.1,
        bareExprs_eq _ _ h.2.2.2]
  | .funcSelf _ name dummyArgs returnTerminal, e, _, _, _, h => by
    cases e <;> simp only [declTree, paramTree, portTree, Sexp.node.injEq, Head.mk.injEq,
      reduceCtorEq, false_and] at h
    case funcSelf =>
      simp only [List.cons.injEq, emitField_inj, true_and, and_true] at h
      obtain ⟨hreturn, hargs⟩ := terminal_fields_inj h.2
      rw [Decl.recast, Decl.recast, h.1, hreturn, hargs]
  | .procName _ name regArgs, e, _, _, _, h => by
    cases e <;> simp only [declTree, paramTree, portTree, Sexp.node.injEq, Head.mk.injEq,
      reduceCtorEq, false_and] at h
    case procName =>
      simp only [List.cons.injEq, emitField_inj, true_and, and_true] at h
      rw [Decl.recast, Decl.recast, h.1, emitNames_inj h.2]
  | .stateName _ names, e, _, _, _, h => by
    cases e <;> simp only [declTree, paramTree, portTree, Sexp.node.injEq, Head.mk.injEq,
      reduceCtorEq, false_and] at h
    case stateName =>
      simp only [List.cons.injEq, Field.mk.injEq, Value.list.injEq, true_and, and_true] at h
      rw [Decl.recast, Decl.recast, h]
  | .firstState target, e, _, _, _, h => by
    cases e <;> simp only [declTree, paramTree, portTree, Sexp.node.injEq, Head.mk.injEq,
      reduceCtorEq, false_and] at h
    case firstState =>
      simp only [List.cons.injEq, emitField_inj, true_and, and_true] at h
      rw [h]
  | .submodule _ templateName instances paramAssigns, e, _, _, _, h => by
    cases e <;> simp only [declTree, paramTree, portTree, Sexp.node.injEq, Head.mk.injEq,
      reduceCtorEq, false_and] at h
    case submodule =>
      simp only [List.cons.injEq, emitField_inj, true_and, and_true] at h
      obtain ⟨hinstances, hassigns⟩ := submodule_inj h.2
      rw [Decl.recast, Decl.recast, h.1, map_bare_eq instance_eq _ _ hinstances,
        map_bare_eq paramAssign_eq _ _ hassigns]
  | .structInst _ typeName instanceName kind arraySize init, e, hs, _, hq, h => by
    cases e <;> simp only [declTree, paramTree, portTree, Sexp.node.injEq, Head.mk.injEq,
      reduceCtorEq, false_and] at h
    case structInst loc' typeName' instanceName' kind' arraySize' init' =>
      simp only [List.cons.injEq, emitField_inj, true_and, and_true] at h
      obtain ⟨⟨htype, hinst, hkind⟩, hparts⟩ := h
      obtain ⟨hsize, hinit⟩ : arraySize = none ∧ init = [] := hs.1
      subst hsize hinit
      have hnone : arraySize' = none ∧ init' = [] := by
        cases arraySize' <;> cases init' <;> simp_all [exprTree?, exprTrees]
      simp only [Decl.recast, htype, hinst, StorageKind.text_injective hkind, hnone.1, hnone.2]
  | .funcDefn _ name body, e, hs, hp, hq, h => by
    cases e <;> simp only [declTree, paramTree, portTree, Sexp.node.injEq, Head.mk.injEq,
      reduceCtorEq, false_and] at h
    case funcDefn loc' name' body' =>
      simp only [List.cons.injEq, Field.mk.injEq, Value.parts.injEq, true_and, and_true] at h
      rw [Decl.recast, Decl.recast, h.1, recast_eq body body' hs.2 hp.2 hq.2 h.2]
  | .procDefn _ name body, e, hs, hp, hq, h => by
    cases e <;> simp only [declTree, paramTree, portTree, Sexp.node.injEq, Head.mk.injEq,
      reduceCtorEq, false_and] at h
    case procDefn loc' name' body' =>
      simp only [List.cons.injEq, emitField_inj, true_and, and_true] at h
      rw [Decl.recast, Decl.recast, h.1, recast_eq body body' hs.2 hp.2 hq.2 h.2]
  | .stateDefn _ name body, e, hs, hp, hq, h => by
    cases e <;> simp only [declTree, paramTree, portTree, Sexp.node.injEq, Head.mk.injEq,
      reduceCtorEq, false_and] at h
    case stateDefn loc' name' body' =>
      simp only [List.cons.injEq, emitField_inj, true_and, and_true] at h
      rw [Decl.recast, Decl.recast, h.1, recast_eq body body' hs.2 hp.2 hq.2 h.2]

theorem recastDecls_eq : ∀ ds es : List Decl, EveryDecl Stmt.Settled Decl.Settled ds →
    EveryDecl Stmt.Shaped Decl.Shaped ds → EveryDecl Stmt.Shaped Decl.Shaped es →
      declTrees ds = declTrees es → recastDecls false ds = recastDecls false es
  | [], [], _, _, _, _ => rfl
  | d :: ds, e :: es, hs, hp, hq, h => by
    simp only [declTrees, List.cons.injEq] at h
    rw [recastDecls, recastDecls, recastDecl_eq d e hs.1 hp.1 hq.1 h.1,
      recastDecls_eq ds es hs.2 hp.2 hq.2 h.2]

end

/-! ## The dump of a unit -/

/-- The dump of a parsed unit determines its tree. -/
theorem unitTree_eq {cu cu' : CompilationUnit} (h : Parsed cu) (h' : Parsed cu')
    (heq : print cu = print cu') : unitTree cu = unitTree cu' :=
  Sexp.render_injective tells_head h.good h'.good (List.append_cancel_right heq)

theorem unitTree_recast (other : Bool) (cu : CompilationUnit) :
    unitTree (recastDecls other cu) = unitTree cu := by
  rw [unitTree, unitTree, declTrees_recast]

/-- The other unit is one the parser makes, with the same dump. -/
theorem Parsed.otherUnit {cu : CompilationUnit} (h : Parsed cu) : Parsed (otherUnit cu) :=
  ⟨by rw [AST.otherUnit, unitTree_recast]; exact h.good, shaped_recastDecls true cu h.shaped⟩

theorem print_otherUnit (cu : CompilationUnit) : print (otherUnit cu) = print cu := by
  rw [print, otherUnit, unitTree_recast, print]

/-- **The dump of a unit determines it up to locations exactly when
nothing in the unit is left open.** -/
theorem dump_determines_iff {cu : CompilationUnit} (h : Parsed cu) :
    (∀ cu', Parsed cu' → print cu' = print cu → eraseLocs cu' = eraseLocs cu) ↔ Settled cu := by
  constructor
  · intro hall
    exact settledDecls_of_fixed cu (hall _ h.otherUnit (print_otherUnit cu))
  · intro hs cu' h' heq
    have htree := unitTree_eq h h' heq.symm
    simp only [unitTree, Sexp.node.injEq, true_and] at htree
    exact (recastDecls_eq cu cu' hs h.shaped h'.shaped htree).symm

/-- The literal `8`. -/
def eight : Expr := .literal .decimal ['8']

/-- A module with one reg. -/
def regUnit (width init : Option Expr) : CompilationUnit :=
  [.module 0 "m".toList [.reg 0 "x".toList width init] [] [] []]

theorem nameLike_of_all {x : Text} (h : (!x.isEmpty && x.all fun c => !isSeparator c) = true) :
    NameLike x := by
  simp only [Bool.and_eq_true, Bool.not_eq_true', List.isEmpty_eq_false_iff,
    List.all_eq_true] at h
  exact h

theorem spellingLike_of_all {t : Text} (h : (t.all fun c => !isStop c && c != '"') = true) :
    SpellingLike t := by
  refine Or.inl fun c hc => ?_
  simpa using List.all_eq_true.1 h c hc

theorem good_emitField {f : FieldName} {t : Text} (hf : f ≠ .value) (ht : NameLike t) :
    (emitField f t).Good :=
  ⟨hf, by simpa using ht⟩

theorem good_eight : (exprTree eight).Forall Head.Good := by
  have hflags : literalFlags .decimal ['8'] = 0 := by decide
  refine ⟨?_, trivial⟩
  simp only [hflags, if_true, emitNonempty]
  intro f hf
  simp only [List.mem_cons, List.not_mem_nil, or_false] at hf
  obtain rfl | rfl := hf
  · exact good_emitField (by decide) (nameLike_of_all (by decide))
  · exact ⟨rfl, spellingLike_of_all (by decide)⟩

theorem parsed_regUnit {width init : Option Expr}
    (hw : Sexp.ForallAll Head.Good (exprTree? width))
    (hi : Sexp.ForallAll Head.Good (exprTree? init)) : Parsed (regUnit width init) := by
  have hname : ∀ {x : Text} {k : NodeKind}, NameLike x → Head.Good ⟨k, [emitField .name x]⟩ := by
    intro x k hx f hf
    obtain rfl := List.mem_singleton.1 hf
    exact good_emitField (by decide) hx
  have hparts : Sexp.ForallAll Head.Good (exprTree? width ++ exprTree? init) := by
    rw [Sexp.forallAll_iff] at hw hi ⊢
    intro t ht
    exact (List.mem_append.1 ht).elim (hw t) (hi t)
  refine ⟨?_, ?_⟩
  · refine ⟨fun f hf => absurd hf List.not_mem_nil, ⟨hname (nameLike_of_all (by decide)), ?_⟩,
      trivial⟩
    exact ⟨⟨hname (nameLike_of_all (by decide)), hparts⟩, trivial⟩
  · refine ⟨⟨⟨?_, by simp, by simp⟩, ⟨⟨trivial, trivial⟩, trivial⟩, trivial, trivial, trivial⟩,
      trivial⟩
    intro d hd
    obtain rfl := List.mem_singleton.1 hd
    rfl

/-- The dump of `reg x[8] = 8;` can be read back. -/
theorem dump_determines_of_both :
    Parsed (regUnit (some eight) (some eight)) ∧
      ∀ cu', Parsed cu' → print cu' = print (regUnit (some eight) (some eight)) →
        eraseLocs cu' = eraseLocs (regUnit (some eight) (some eight)) := by
  have hp : Parsed (regUnit (some eight) (some eight)) :=
    parsed_regUnit ⟨good_eight, trivial⟩ ⟨good_eight, trivial⟩
  refine ⟨hp, (dump_determines_iff hp).2 ?_⟩
  exact ⟨⟨trivial, ⟨⟨rfl, trivial⟩, trivial⟩, trivial, trivial, trivial⟩, trivial⟩

/-- `reg x[8];` and `reg x = 8;` have one dump. -/
theorem dump_of_width_or_init :
    ¬ ∀ cu cu' : CompilationUnit, Parsed cu → Parsed cu' → print cu = print cu' →
      eraseLocs cu = eraseLocs cu' := by
  intro h
  have hwidth : Parsed (regUnit (some eight) none) := parsed_regUnit ⟨good_eight, trivial⟩ trivial
  have hinit : Parsed (regUnit none (some eight)) := parsed_regUnit trivial ⟨good_eight, trivial⟩
  have heq := h _ _ hwidth hinit rfl
  simp [eraseLocs, regUnit, recastDecls, Decl.recast, bareExpr?] at heq

end AST

end Nslc
