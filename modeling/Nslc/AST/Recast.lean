import Nslc.AST.Roles
/-!
# AST — every part in its other role

Recasting a unit keeps its tree and the shapes of the parser's rules, and
changes the unit unless nothing in it is left open.
-/

namespace Nslc

namespace AST

/-! ## The other roles have the same tree -/

@[simp] theorem portTree_bare (p : PortDecl) : portTree p.bare = portTree p := by
  simp only [portTree, PortDecl.bare, exprTree?_bare]

@[simp] theorem paramTree_bare (p : TopLevelParamDecl) : paramTree p.bare = paramTree p := by
  simp only [paramTree, TopLevelParamDecl.bare, exprTree?_bare]

@[simp] theorem memberTree_bare (m : StructMember) : memberTree m.bare = memberTree m := by
  simp only [memberTree, StructMember.bare, exprTree?_bare]

@[simp] theorem instanceTree_bare (i : Instance) : instanceTree i.bare = instanceTree i := by
  simp only [instanceTree, Instance.bare, exprTree?_bare]

@[simp] theorem assignTree_bare (a : ParamAssign) : assignTree a.bare = assignTree a := by
  simp only [assignTree, ParamAssign.bare, exprTree_bare]

theorem trees_otherReg (p : Option Expr × Option Expr) :
    exprTree? (otherReg p).1 ++ exprTree? (otherReg p).2 = exprTree? p.1 ++ exprTree? p.2 := by
  obtain ⟨_ | e, _ | f⟩ := p <;> rfl

theorem trees_otherInst (p : Option Expr × List Expr) :
    exprTree? (otherInst p).1 ++ exprTrees (otherInst p).2 = exprTree? p.1 ++ exprTrees p.2 := by
  obtain ⟨_ | e, _ | ⟨f, fs⟩⟩ := p <;> rfl

theorem trees_otherFor (p : Option Stmt × List Stmt) :
    stmtTree? (otherFor p).1 ++ stmtTrees (otherFor p).2 = stmtTree? p.1 ++ stmtTrees p.2 := by
  obtain ⟨_ | s, _ | ⟨t, ts⟩⟩ := p
  · rfl
  · simp only [otherFor]
    split <;> rfl
  · rfl
  · rfl

mutual

theorem stmtTree_recast (other : Bool) : ∀ s : Stmt, stmtTree (s.recast other) = stmtTree s
  | .transfer _ _ _ _ => by simp only [Stmt.recast, stmtTree, exprTree_bare]
  | .incDec _ _ _ => by simp only [Stmt.recast, stmtTree, exprTree_bare]
  | .controlCall _ _ _ => by simp only [Stmt.recast, stmtTree, exprTrees_bare]
  | .bareFinish _ | .empty | .goto _ => rfl
  | .systemTask _ _ => by simp only [Stmt.recast, stmtTree, exprTrees_bare]
  | .return _ _ => by simp only [Stmt.recast, stmtTree, exprTree?_bare]
  | .labeled _ body => by simp only [Stmt.recast, stmtTree, stmtTree?_recast other body]
  | .initBlock items => by simp only [Stmt.recast, stmtTree, stmtTrees_recast other items]
  | .delayTask _ => by simp only [Stmt.recast, stmtTree, exprTree_bare]
  | .parallel items decls => by
    simp only [Stmt.recast, stmtTree, stmtTrees_recast other items, declTrees_recast other decls]
  | .alt cases elseCase => by
    simp only [Stmt.recast, stmtTree, caseTrees_recast other cases,
      elseTrees_recast other elseCase]
  | .any cases elseCase => by
    simp only [Stmt.recast, stmtTree, caseTrees_recast other cases,
      elseTrees_recast other elseCase]
  | .seq items decls => by
    simp only [Stmt.recast, stmtTree, stmtTrees_recast other items, declTrees_recast other decls]
  | .while _ items => by
    simp only [Stmt.recast, stmtTree, exprTree_bare, stmtTrees_recast other items]
  | .for init cond step items => by
    have hparts := trees_otherFor (recastStmt? other step, recastStmts other items)
    have hstep := stmtTree?_recast other step
    have hitems := stmtTrees_recast other items
    simp only [Stmt.recast, stmtTree, stmtTree_recast other init, exprTree_bare]
    split
    · simp only [hparts, hstep, hitems]
    · simp only [hstep, hitems]
  | .if _ thenBr elseBr => by
    simp only [Stmt.recast, stmtTree, exprTree_bare, stmtTree_recast other thenBr,
      stmtTree?_recast other elseBr]
  | .generate _ _ _ _ _ body => by
    simp only [Stmt.recast, stmtTree, exprTree_bare, stmtTree_recast other body]

theorem stmtTrees_recast (other : Bool) :
    ∀ ss : List Stmt, stmtTrees (recastStmts other ss) = stmtTrees ss
  | [] => rfl
  | s :: ss => by
    simp only [recastStmts, stmtTrees, stmtTree_recast other s, stmtTrees_recast other ss]

theorem stmtTree?_recast (other : Bool) :
    ∀ s : Option Stmt, stmtTree? (recastStmt? other s) = stmtTree? s
  | none => rfl
  | some s => by simp only [recastStmt?, stmtTree?, stmtTree_recast other s]

theorem elseTrees_recast (other : Bool) :
    ∀ s : Option Stmt, elseTrees (recastStmt? other s) = elseTrees s
  | none => rfl
  | some s => by simp only [recastStmt?, elseTrees, stmtTree_recast other s]

theorem caseTrees_recast (other : Bool) :
    ∀ cs : List CondCase, caseTrees (recastCases other cs) = caseTrees cs
  | [] => rfl
  | .mk _ body :: cs => by
    simp only [recastCases, caseTrees, exprTree_bare, stmtTree_recast other body,
      caseTrees_recast other cs]

theorem declTree_recast (other : Bool) : ∀ d : Decl, declTree (d.recast other) = declTree d
  | .topLevelParam p => by simp only [Decl.recast, declTree, paramTree_bare]
  | .struct _ _ members => by
    simp only [Decl.recast, declTree, List.map_map, Function.comp_def, memberTree_bare]
  | .declare _ _ _ _ headerParams ports => by
    simp only [Decl.recast, declTree, List.map_map, Function.comp_def, paramTree_bare,
      portTree_bare]
  | .module _ _ internals actions funcs procs => by
    simp only [Decl.recast, declTree, declTrees_recast other internals,
      stmtTrees_recast other actions, declTrees_recast other funcs, declTrees_recast other procs]
  | .port p => by simp only [Decl.recast, declTree, portTree_bare]
  | .reg _ _ width init => by
    have hparts := trees_otherReg (bareExpr? width, bareExpr? init)
    simp only [Decl.recast, declTree]
    split
    · simp only [hparts, exprTree?_bare]
    · simp only [exprTree?_bare]
  | .wire _ _ _ | .variable _ _ _ => by simp only [Decl.recast, declTree, exprTree?_bare]
  | .integer _ _ | .funcSelf _ _ _ _ | .procName _ _ _ | .stateName _ _ | .firstState _ => rfl
  | .mem _ _ _ _ _ => by simp only [Decl.recast, declTree, exprTree_bare, exprTrees_bare]
  | .submodule _ _ _ _ => by
    simp only [Decl.recast, declTree, List.map_map, Function.comp_def, instanceTree_bare,
      assignTree_bare]
  | .structInst _ _ _ _ arraySize init => by
    have hparts := trees_otherInst (bareExpr? arraySize, bareExprs init)
    simp only [Decl.recast, declTree]
    split
    · simp only [hparts, exprTree?_bare, exprTrees_bare]
    · simp only [exprTree?_bare, exprTrees_bare]
  | .funcDefn _ _ body | .procDefn _ _ body | .stateDefn _ _ body => by
    simp only [Decl.recast, declTree, stmtTree_recast other body]

theorem declTrees_recast (other : Bool) :
    ∀ ds : List Decl, declTrees (recastDecls other ds) = declTrees ds
  | [] => rfl
  | d :: ds => by
    simp only [recastDecls, declTrees, declTree_recast other d, declTrees_recast other ds]

end

/-! ## The other roles keep the shapes -/

theorem isStep_recast (other : Bool) (s : Stmt) : (s.recast other).isStep = s.isStep := by
  cases s with
  | transfer loc op lhs rhs =>
    cases lhs with
    | identifier loc' name => obtain _ | ⟨x, _ | ⟨y, ys⟩⟩ := name <;> cases op <;> rfl
    | _ => cases op <;> rfl
  | incDec target op isPrefix =>
    cases target with
    | identifier loc name => obtain _ | ⟨x, _ | ⟨y, ys⟩⟩ := name <;> rfl
    | _ => rfl
  | _ => rfl

theorem isInternal_recast (other : Bool) (d : Decl) :
    (d.recast other).isInternal = d.isInternal := by
  cases d <;> rfl

theorem isFunc_recast (other : Bool) (d : Decl) : (d.recast other).isFunc = d.isFunc := by
  cases d <;> rfl

theorem isProc_recast (other : Bool) (d : Decl) : (d.recast other).isProc = d.isProc := by
  cases d <;> rfl

theorem recastDecls_eq_map (other : Bool) (ds : List Decl) :
    recastDecls other ds = ds.map (Decl.recast other) := by
  induction ds with
  | nil => rfl
  | cons d ds ih => rw [recastDecls, ih, List.map_cons]

theorem forall_recastDecls {other : Bool} {ds : List Decl} {p : Decl → Bool}
    (hp : ∀ d : Decl, p (d.recast other) = p d) (h : ∀ d ∈ ds, p d) :
    ∀ d ∈ recastDecls other ds, p d := by
  intro d hd
  rw [recastDecls_eq_map] at hd
  obtain ⟨e, he, rfl⟩ := List.mem_map.1 hd
  rw [hp]
  exact h e he

theorem shaped_otherFor (p : Option Stmt × List Stmt) (hshape : ∀ s ∈ p.1, s.isStep)
    (hstep : EveryStmt? Stmt.Shaped Decl.Shaped p.1)
    (hitems : EveryStmt Stmt.Shaped Decl.Shaped p.2) :
    (∀ s ∈ (otherFor p).1, s.isStep) ∧ EveryStmt? Stmt.Shaped Decl.Shaped (otherFor p).1 ∧
      EveryStmt Stmt.Shaped Decl.Shaped (otherFor p).2 := by
  obtain ⟨_ | s, _ | ⟨t, ts⟩⟩ := p
  · exact ⟨hshape, hstep, hitems⟩
  · simp only [otherFor]
    split
    · rename_i ht
      exact ⟨by simpa using ht, hitems.1, hitems.2⟩
    · exact ⟨hshape, hstep, hitems⟩
  · exact ⟨by simp [otherFor], trivial, hstep, hitems⟩
  · exact ⟨by simp [otherFor], trivial, hstep, hitems⟩

mutual

theorem shaped_recast (other : Bool) : ∀ s : Stmt, s.Every Stmt.Shaped Decl.Shaped →
    (s.recast other).Every Stmt.Shaped Decl.Shaped
  | .transfer .., _ | .incDec .., _ | .controlCall .., _ | .bareFinish _, _ | .systemTask .., _
  | .return .., _ | .empty, _ | .goto _, _ | .delayTask _, _ => ⟨trivial, trivial⟩
  | .labeled _ body, h => ⟨trivial, shaped_recastStmt? other body h.2⟩
  | .initBlock items, h => ⟨trivial, shaped_recastStmts other items h.2⟩
  | .parallel items decls, h | .seq items decls, h =>
    ⟨trivial, shaped_recastStmts other items h.2.1, shaped_recastDecls other decls h.2.2⟩
  | .alt cases elseCase, h | .any cases elseCase, h =>
    ⟨trivial, shaped_recastCases other cases h.2.1, shaped_recastStmt? other elseCase h.2.2⟩
  | .while _ items, h => ⟨trivial, shaped_recastStmts other items h.2⟩
  | .for init cond step items, h => by
    have hinit := shaped_recast other init h.2.1
    have hstep := shaped_recastStmt? other step h.2.2.1
    have hitems := shaped_recastStmts other items h.2.2.2
    have hshape : ∀ s ∈ recastStmt? other step, s.isStep := by
      cases step with
      | none => simp [recastStmt?]
      | some s => simpa [recastStmt?, isStep_recast, Stmt.Shaped] using h.1
    cases other with
    | false => exact ⟨hshape, hinit, hstep, hitems⟩
    | true =>
      obtain ⟨hshape, hstep, hitems⟩ := shaped_otherFor (_, _) hshape hstep hitems
      exact ⟨hshape, hinit, hstep, hitems⟩
  | .if _ thenBr elseBr, h =>
    ⟨trivial, shaped_recast other thenBr h.2.1, shaped_recastStmt? other elseBr h.2.2⟩
  | .generate _ _ _ _ _ body, h => ⟨trivial, shaped_recast other body h.2⟩

theorem shaped_recastStmts (other : Bool) : ∀ ss : List Stmt,
    EveryStmt Stmt.Shaped Decl.Shaped ss →
      EveryStmt Stmt.Shaped Decl.Shaped (recastStmts other ss)
  | [], _ => trivial
  | s :: ss, h => ⟨shaped_recast other s h.1, shaped_recastStmts other ss h.2⟩

theorem shaped_recastStmt? (other : Bool) : ∀ s : Option Stmt,
    EveryStmt? Stmt.Shaped Decl.Shaped s →
      EveryStmt? Stmt.Shaped Decl.Shaped (recastStmt? other s)
  | none, _ => trivial
  | some s, h => shaped_recast other s h

theorem shaped_recastCases (other : Bool) : ∀ cs : List CondCase,
    EveryCase Stmt.Shaped Decl.Shaped cs →
      EveryCase Stmt.Shaped Decl.Shaped (recastCases other cs)
  | [], _ => trivial
  | .mk _ body :: cs, h => ⟨shaped_recast other body h.1, shaped_recastCases other cs h.2⟩

theorem shaped_recastDecl (other : Bool) : ∀ d : Decl, d.Every Stmt.Shaped Decl.Shaped →
    (d.recast other).Every Stmt.Shaped Decl.Shaped
  | .topLevelParam _, _ | .struct .., _ | .port _, _ | .reg .., _ | .wire .., _
  | .variable .., _ | .integer .., _ | .mem .., _ | .funcSelf .., _ | .procName .., _
  | .stateName .., _ | .firstState _, _ | .submodule .., _ | .structInst .., _ =>
    ⟨trivial, trivial⟩
  | .declare _ modifier _ _ _ _, h => by
    refine ⟨fun hm => ?_, trivial⟩
    obtain ⟨hc, hr⟩ := h.1 hm
    subst hc hr
    cases other <;> simp [otherClock, hm]
  | .module _ _ internals actions funcs procs, h =>
    ⟨⟨forall_recastDecls (isInternal_recast other) h.1.1,
      forall_recastDecls (isFunc_recast other) h.1.2.1,
      forall_recastDecls (isProc_recast other) h.1.2.2⟩,
      shaped_recastDecls other internals h.2.1, shaped_recastStmts other actions h.2.2.1,
      shaped_recastDecls other funcs h.2.2.2.1, shaped_recastDecls other procs h.2.2.2.2⟩
  | .funcDefn _ _ body, h | .procDefn _ _ body, h | .stateDefn _ _ body, h =>
    ⟨trivial, shaped_recast other body h.2⟩

theorem shaped_recastDecls (other : Bool) : ∀ ds : List Decl,
    EveryDecl Stmt.Shaped Decl.Shaped ds →
      EveryDecl Stmt.Shaped Decl.Shaped (recastDecls other ds)
  | [], _ => trivial
  | d :: ds, h => ⟨shaped_recastDecl other d h.1, shaped_recastDecls other ds h.2⟩

end

/-! ## Only what is settled is its own other -/

mutual

theorem settled_of_fixed : ∀ s : Stmt, (s.recast true).recast false = s.recast false →
    s.Every Stmt.Settled Decl.Settled
  | .transfer .., _ | .incDec .., _ | .controlCall .., _ | .bareFinish _, _ | .systemTask .., _
  | .return .., _ | .empty, _ | .goto _, _ | .delayTask _, _ => ⟨trivial, trivial⟩
  | .labeled _ body, h => by
    simp only [Stmt.recast, Stmt.labeled.injEq, true_and] at h
    exact ⟨trivial, settledStmt?_of_fixed body h⟩
  | .initBlock items, h => by
    simp only [Stmt.recast, Stmt.initBlock.injEq] at h
    exact ⟨trivial, settledStmts_of_fixed items h⟩
  | .parallel items decls, h => by
    simp only [Stmt.recast, Stmt.parallel.injEq] at h
    exact ⟨trivial, settledStmts_of_fixed items h.1, settledDecls_of_fixed decls h.2⟩
  | .alt cases elseCase, h => by
    simp only [Stmt.recast, Stmt.alt.injEq] at h
    exact ⟨trivial, settledCases_of_fixed cases h.1, settledStmt?_of_fixed elseCase h.2⟩
  | .any cases elseCase, h => by
    simp only [Stmt.recast, Stmt.any.injEq] at h
    exact ⟨trivial, settledCases_of_fixed cases h.1, settledStmt?_of_fixed elseCase h.2⟩
  | .seq items decls, h => by
    simp only [Stmt.recast, Stmt.seq.injEq] at h
    exact ⟨trivial, settledStmts_of_fixed items h.1, settledDecls_of_fixed decls h.2⟩
  | .while _ items, h => by
    simp only [Stmt.recast, Stmt.while.injEq] at h
    exact ⟨trivial, settledStmts_of_fixed items h.2⟩
  | .for init cond (some s) items, h => by
    simp [Stmt.recast, recastStmt?, otherFor] at h
  | .for init cond none [], h => by
    simp only [Stmt.recast, Stmt.for.injEq] at h
    exact ⟨⟨rfl, by simp⟩, settled_of_fixed init h.1, trivial, trivial⟩
  | .for init cond none (t :: ts), h => by
    by_cases ht : t.isStep = true
    · simp [Stmt.recast, recastStmt?, recastStmts, otherFor, isStep_recast, ht] at h
    · simp only [Stmt.recast, recastStmt?, recastStmts, otherFor, isStep_recast, ht, if_true,
        Bool.false_eq_true, if_false, Stmt.for.injEq, List.cons.injEq, true_and] at h
      refine ⟨⟨rfl, by simpa using ht⟩, settled_of_fixed init h.1, trivial, ?_⟩
      exact ⟨settled_of_fixed t h.2.2.1, settledStmts_of_fixed ts h.2.2.2⟩
  | .if _ thenBr elseBr, h => by
    simp only [Stmt.recast, Stmt.if.injEq] at h
    exact ⟨trivial, settled_of_fixed thenBr h.2.1, settledStmt?_of_fixed elseBr h.2.2⟩
  | .generate _ _ _ _ _ body, h => by
    simp only [Stmt.recast, Stmt.generate.injEq] at h
    exact ⟨trivial, settled_of_fixed body h.2.2.2.2.2⟩

theorem settledStmts_of_fixed : ∀ ss : List Stmt,
    recastStmts false (recastStmts true ss) = recastStmts false ss →
      EveryStmt Stmt.Settled Decl.Settled ss
  | [], _ => trivial
  | s :: ss, h => by
    simp only [recastStmts, List.cons.injEq] at h
    exact ⟨settled_of_fixed s h.1, settledStmts_of_fixed ss h.2⟩

theorem settledStmt?_of_fixed : ∀ s : Option Stmt,
    recastStmt? false (recastStmt? true s) = recastStmt? false s →
      EveryStmt? Stmt.Settled Decl.Settled s
  | none, _ => trivial
  | some s, h => by
    simp only [recastStmt?, Option.some.injEq] at h
    exact settled_of_fixed s h

theorem settledCases_of_fixed : ∀ cs : List CondCase,
    recastCases false (recastCases true cs) = recastCases false cs →
      EveryCase Stmt.Settled Decl.Settled cs
  | [], _ => trivial
  | .mk _ body :: cs, h => by
    simp only [recastCases, List.cons.injEq, CondCase.mk.injEq] at h
    exact ⟨settled_of_fixed body h.1.2, settledCases_of_fixed cs h.2⟩

theorem settledDecl_of_fixed : ∀ d : Decl, (d.recast true).recast false = d.recast false →
    d.Every Stmt.Settled Decl.Settled
  | .topLevelParam _, _ | .struct .., _ | .port _, _ | .wire .., _ | .variable .., _
  | .integer .., _ | .mem .., _ | .funcSelf .., _ | .procName .., _ | .stateName .., _
  | .firstState _, _ | .submodule .., _ => ⟨trivial, trivial⟩
  | .declare _ modifier clockName _ _ _, h => by
    refine ⟨?_, trivial⟩
    simp only [Decl.recast, Decl.declare.injEq, if_true, Bool.false_eq_true, if_false] at h
    by_contra hopen
    have hm : ¬ modifier = .none := hopen
    have hclock := h.2.2.1
    unfold otherClock at hclock
    rw [if_neg hm] at hclock
    split at hclock
    · simp_all
    · simp_all
  | .reg _ _ width init, h => by
    refine ⟨?_, trivial⟩
    cases width <;> cases init <;>
      simp_all [Decl.recast, bareExpr?, otherReg, Decl.Settled]
  | .structInst _ _ _ _ arraySize init, h => by
    refine ⟨?_, trivial⟩
    cases arraySize <;> cases init <;>
      simp_all [Decl.recast, bareExpr?, bareExprs, otherInst, Decl.Settled]
  | .module _ _ internals actions funcs procs, h => by
    simp only [Decl.recast, Decl.module.injEq, true_and] at h
    exact ⟨trivial, settledDecls_of_fixed internals h.1, settledStmts_of_fixed actions h.2.1,
      settledDecls_of_fixed funcs h.2.2.1, settledDecls_of_fixed procs h.2.2.2⟩
  | .funcDefn _ _ body, h => by
    simp only [Decl.recast, Decl.funcDefn.injEq, true_and] at h
    exact ⟨trivial, settled_of_fixed body h⟩
  | .procDefn _ _ body, h => by
    simp only [Decl.recast, Decl.procDefn.injEq, true_and] at h
    exact ⟨trivial, settled_of_fixed body h⟩
  | .stateDefn _ _ body, h => by
    simp only [Decl.recast, Decl.stateDefn.injEq, true_and] at h
    exact ⟨trivial, settled_of_fixed body h⟩

theorem settledDecls_of_fixed : ∀ ds : List Decl,
    recastDecls false (recastDecls true ds) = recastDecls false ds →
      EveryDecl Stmt.Settled Decl.Settled ds
  | [], _ => trivial
  | d :: ds, h => by
    simp only [recastDecls, List.cons.injEq] at h
    exact ⟨settledDecl_of_fixed d h.1, settledDecls_of_fixed ds h.2⟩

end

end AST

end Nslc
