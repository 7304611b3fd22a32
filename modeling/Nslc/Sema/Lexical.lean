import Nslc.Sema.Scoping
/-!
# Sema — resolution is lexical scoping

The walker against the reference. A stretch of the walk is described by
the bindings the reference has for it (`Logs`): what it reports and what
it records follow from them, and stretches compose. Statements leave the
scope stack as they find it (`Step`); declarations leave the environment
the reference threads on (`Runs`).
-/

namespace Nslc

namespace Sema

open AST SymbolTable

/-! ## The log of a stretch -/

/-- An unresolved use is noted once. -/
def noteUnresolved (reported : List Ident) (b : Binding) : List Ident :=
  if b.target.isSome || reported.contains b.use.name then reported else reported ++ [b.use.name]

/-- From `w` to `w'` the walk has gone over the uses of `bs`. -/
structure Logs (w w' : Walker) (bs : List Binding) : Prop where
  reported : w'.reportedUnresolved = bs.foldl noteUnresolved w.reportedUnresolved
  resolutions : w'.resolutions = w.resolutions ++ bs.filterMap Binding.resolution?
  diags : unresolvedIn w.diags = w.reportedUnresolved →
    unresolvedIn w'.diags = w'.reportedUnresolved

/-- Nothing but the table has changed. -/
theorem Logs.of_table (w : Walker) (t : SymbolTable) : Logs w { w with table := t } [] :=
  ⟨rfl, (List.append_nil _).symm, id⟩

theorem Logs.refl (w : Walker) : Logs w w [] := Logs.of_table w w.table

theorem Logs.trans {w w' w'' : Walker} {bs cs : List Binding} (h : Logs w w' bs)
    (h' : Logs w' w'' cs) : Logs w w'' (bs ++ cs) := by
  refine ⟨?_, ?_, fun hd => h'.diags (h.diags hd)⟩
  · rw [h'.reported, h.reported, List.foldl_append]
  · rw [h'.resolutions, h.resolutions, List.filterMap_append, List.append_assoc]

/-- A duplicate declaration is no unresolved name. -/
theorem Logs.of_duplicate (w : Walker) (loc : Loc) (name : Ident) :
    Logs w (w.report loc (.duplicateDeclaration name)) [] := by
  refine ⟨rfl, (List.append_nil _).symm, fun hd => ?_⟩
  have happ : unresolvedIn (w.diags ++ [⟨loc, .duplicateDeclaration name⟩]) = unresolvedIn w.diags := by
    simp [unresolvedIn]
  exact happ.trans hd

theorem Logs.of_unresolved (w : Walker) (u : Use) (inExpr : Bool) :
    Logs w (w.reportUnresolved u) [⟨u, inExpr, none⟩] := by
  by_cases hu : w.reportedUnresolved.contains u.name = true
  · rw [Walker.reportUnresolved, if_pos hu]
    refine ⟨?_, ?_, id⟩
    · simp only [List.foldl_cons, List.foldl_nil, noteUnresolved, hu, Bool.or_true, if_true]
    · simp [Binding.resolution?]
  · rw [Walker.reportUnresolved, if_neg hu]
    refine ⟨?_, ?_, fun hd => ?_⟩
    · simp only [List.foldl_cons, List.foldl_nil, noteUnresolved, Option.isSome_none,
        Bool.false_or, if_neg hu]
    · simp [Walker.report, Binding.resolution?]
    · simp only [Walker.report, unresolvedIn, List.filterMap_append, List.filterMap_cons,
        List.filterMap_nil]
      rw [← hd]
      rfl

/-! ## What a lookup finds -/

/-- The open scopes and the environment agree on all names but the hidden
ones. -/
structure Sees (scopes env : List Scope) (hidden : List Ident) : Prop where
  open_ : scopes ≠ []
  agree : ∀ x, x ∉ hidden → findIn scopes x = findIn env x

theorem Sees.refl {scopes : List Scope} (h : scopes ≠ []) : Sees scopes scopes [] :=
  ⟨h, fun _ _ => rfl⟩

theorem lookup_eq_findIn {t : SymbolTable} (h : t.scopes ≠ []) (x : Ident) :
    t.lookup x = findIn t.scopes x := by
  have hne : t.scopes.isEmpty = false := by simpa using h
  rw [SymbolTable.lookup, hne]
  cases findIn t.scopes x <;> rfl

theorem findIn_cons (s : Scope) (ss : List Scope) (x : Ident) :
    findIn (s :: ss) x = (s.lookupLocal x).or (findIn ss x) := by
  rw [findIn, List.findSome?_cons]
  cases s.lookupLocal x <;> rfl

@[simp] theorem findIn_fresh (kind : ScopeKind) (ss : List Scope) (x : Ident) :
    findIn (⟨kind, []⟩ :: ss) x = findIn ss x := by
  rw [findIn_cons]
  rfl

/-- A scope on both sides. -/
theorem Sees.cons {scopes env : List Scope} {hidden : List Ident} (h : Sees scopes env hidden)
    (s : Scope) : Sees (s :: scopes) (s :: env) (hidden.filter fun x => (s.lookupLocal x).isNone) := by
  refine ⟨List.cons_ne_nil _ _, fun x hx => ?_⟩
  rw [findIn_cons, findIn_cons]
  cases hs : s.lookupLocal x with
  | some sym => rfl
  | none =>
    have hx' : x ∉ hidden := by
      intro hmem
      exact hx (List.mem_filter.2 ⟨hmem, by rw [hs]; rfl⟩)
    rw [h.agree x hx']

/-- A fresh scope of the walk, which the reference does not have. -/
theorem Sees.enter {w : Walker} {env : List Scope} {hidden : List Ident}
    (h : Sees w.table.scopes env hidden) (kind : ScopeKind) :
    Sees (w.enterScope kind).table.scopes env hidden := by
  refine ⟨List.cons_ne_nil _ _, fun x hx => ?_⟩
  exact (findIn_fresh kind _ x).trans (h.agree x hx)

/-- In a block the walk has a fresh scope where the reference has the
declared names. -/
theorem Sees.block {scopes env : List Scope} {hidden : List Ident} (h : Sees scopes env hidden)
    (decls : List Decl) :
    Sees (⟨.seqOrParallel, []⟩ :: scopes) (blockScope decls :: env) (hiddenIn hidden decls) := by
  refine ⟨List.cons_ne_nil _ _, fun x hx => ?_⟩
  have hparts : x ∉ hidden ∧ x ∉ (decls.flatMap blockSymbols).map Symbol.name := by
    simpa [hiddenIn, List.mem_append] using hx
  have hnone : (blockScope decls).lookupLocal x = none := by
    rw [Scope.lookupLocal, List.find?_eq_none]
    intro sym hsym
    have hne : sym.name ≠ x := by
      intro heq
      exact hparts.2 (List.mem_map.2 ⟨sym, hsym, heq⟩)
    simpa using hne
  rw [findIn_fresh, findIn_cons, hnone, h.agree x hparts.1]
  rfl

/-! ## Statements -/

/-- A stretch of the walk that leaves the open scopes as they were. -/
structure Step (w w' : Walker) (bs : List Binding) : Prop where
  scopes : w'.table.scopes = w.table.scopes
  logs : Logs w w' bs

theorem Step.refl (w : Walker) : Step w w [] := ⟨rfl, Logs.refl w⟩

theorem Step.trans {w w' w'' : Walker} {bs cs : List Binding} (h : Step w w' bs)
    (h' : Step w' w'' cs) : Step w w'' (bs ++ cs) :=
  ⟨h'.scopes.trans h.scopes, h.logs.trans h'.logs⟩

/-- A stretch between the opening and the closing of a scope. -/
theorem Step.leave {w w₁ w' : Walker} {bs : List Binding} {s : Scope} (h : Step w₁ w' bs)
    (hs : w₁.table.scopes = s :: w.table.scopes) (hl : Logs w w₁ []) :
    Step w w'.leaveScope bs := by
  have hw' : w'.table.scopes = s :: w.table.scopes := h.scopes.trans hs
  refine ⟨?_, ?_⟩
  · simp only [Walker.leaveScope, SymbolTable.leaveScope, hw']
  · have hlogs := (hl.trans h.logs).trans (Logs.of_table w' w'.table.leaveScope)
    rw [List.nil_append, List.append_nil] at hlogs
    exact hlogs

theorem Step.bracket {w w' : Walker} {bs : List Binding} {kind : ScopeKind}
    (h : Step (w.enterScope kind) w' bs) : Step w w'.leaveScope bs :=
  h.leave rfl (Logs.of_table w _)

section Uses

variable {env : List Scope} {hidden : List Ident}

theorem resolveName_step {w : Walker} {u : Use} (hw : Sees w.table.scopes env hidden)
    (hu : u.name ∉ hidden) : Step w (w.resolveName u) [bind env false u] := by
  have hfind : w.table.lookup u.name = findIn env u.name := by
    rw [lookup_eq_findIn hw.open_, hw.agree _ hu]
  rw [Walker.resolveName, hfind, bind]
  cases findIn env u.name with
  | some sym => exact ⟨rfl, ⟨rfl, (List.append_nil _).symm, id⟩⟩
  | none => exact ⟨by simp only [Walker.reportUnresolved]; split <;> rfl,
      Logs.of_unresolved w u false⟩

theorem resolveAndRecord_step {w : Walker} {u : Use} (hw : Sees w.table.scopes env hidden)
    (hu : u.name ∉ hidden) : Step w (w.resolveAndRecord u) [bind env true u] := by
  have hfind : w.table.lookup u.name = findIn env u.name := by
    rw [lookup_eq_findIn hw.open_, hw.agree _ hu]
  rw [Walker.resolveAndRecord, hfind, bind]
  cases findIn env u.name with
  | some sym => exact ⟨rfl, ⟨rfl, rfl, id⟩⟩
  | none => exact ⟨by simp only [Walker.reportUnresolved]; split <;> rfl,
      Logs.of_unresolved w u true⟩

theorem Step.sees {w w' : Walker} {bs : List Binding} (h : Step w w' bs)
    (hw : Sees w.table.scopes env hidden) : Sees w'.table.scopes env hidden := by
  rw [h.scopes]
  exact hw

@[simp] theorem usesClear_nil : usesClear hidden [] = true := rfl

@[simp] theorem usesClear_cons (u : Use) (us : List Use) :
    usesClear hidden (u :: us) = true ↔ u.name ∉ hidden ∧ usesClear hidden us = true := by
  simp [usesClear]

@[simp] theorem usesClear_append (us vs : List Use) :
    usesClear hidden (us ++ vs) = true ↔ usesClear hidden us = true ∧ usesClear hidden vs = true := by
  simp [usesClear]

@[simp] theorem bindAll_nil (env : List Scope) : bindAll env [] = [] := rfl

theorem bindAll_append (env : List Scope) (us vs : List Use) :
    bindAll env (us ++ vs) = bindAll env us ++ bindAll env vs := List.map_append

/-- `Step.trans` for the uses of two parts. -/
theorem Step.andThen {w w' w'' : Walker} {us vs : List Use} (h : Step w w' (bindAll env us))
    (h' : Step w' w'' (bindAll env vs)) : Step w w'' (bindAll env (us ++ vs)) := by
  rw [bindAll_append]
  exact h.trans h'

mutual

theorem visitExpr_step (e : Expr) {w : Walker} (hw : Sees w.table.scopes env hidden)
    (hc : usesClear hidden (exprUses e) = true) :
    Step w (w.visitExpr e) (bindAll env (exprUses e)) := by
  cases e with
  | literal kind spelling => exact Step.refl w
  | systemVar var => exact Step.refl w
  | identifier loc name =>
    cases name with
    | nil => exact Step.refl w
    | cons head tail =>
      have hhead : head ∉ hidden := ((usesClear_cons _ _).1 hc).1
      exact resolveAndRecord_step hw hhead
  | unary op sub => exact visitExpr_step sub hw hc
  | fieldAccess obj field => exact visitExpr_step obj hw hc
  | structCast typeName sub memberPath => exact visitExpr_step sub hw hc
  | incDec target op isPrefix => exact visitExpr_step target hw hc
  | concat parts => exact visitExprs_step parts hw hc
  | binary op lhs rhs =>
    obtain ⟨hl, hr⟩ := (usesClear_append _ _).1 hc
    have hlhs := visitExpr_step lhs hw hl
    have hrhs := visitExpr_step rhs (hlhs.sees hw) hr
    exact hlhs.andThen hrhs
  | «repeat» count body =>
    obtain ⟨hl, hr⟩ := (usesClear_append _ _).1 hc
    have hlhs := visitExpr_step count hw hl
    have hrhs := visitExpr_step body (hlhs.sees hw) hr
    exact hlhs.andThen hrhs
  | signExtend width sub =>
    obtain ⟨hl, hr⟩ := (usesClear_append _ _).1 hc
    have hlhs := visitExpr_step width hw hl
    have hrhs := visitExpr_step sub (hlhs.sees hw) hr
    exact hlhs.andThen hrhs
  | zeroExtend width sub =>
    obtain ⟨hl, hr⟩ := (usesClear_append _ _).1 hc
    have hlhs := visitExpr_step width hw hl
    have hrhs := visitExpr_step sub (hlhs.sees hw) hr
    exact hlhs.andThen hrhs
  | conditional cond thenE elseE =>
    obtain ⟨hct, he⟩ := (usesClear_append _ _).1 hc
    obtain ⟨hcond, ht⟩ := (usesClear_append _ _).1 hct
    have h₁ := visitExpr_step cond hw hcond
    have h₂ := h₁.andThen (visitExpr_step thenE (h₁.sees hw) ht)
    exact h₂.andThen (visitExpr_step elseE (h₂.sees hw) he)
  | slice loc sub hi lo =>
    obtain ⟨hsh, hlo⟩ := (usesClear_append _ _).1 hc
    obtain ⟨hsub, hhi⟩ := (usesClear_append _ _).1 hsh
    have h₁ := visitExpr_step sub hw hsub
    have h₂ := h₁.andThen (visitExpr_step hi (h₁.sees hw) hhi)
    exact h₂.andThen (visitExpr?_step lo (h₂.sees hw) hlo)
  | call loc target args =>
    -- only a target of one part is looked up
    cases target with
    | nil => exact visitExprs_step args hw hc
    | cons name rest =>
      cases rest with
      | nil =>
        obtain ⟨hname, hargs⟩ := (usesClear_cons _ _).1 hc
        have h₁ := resolveAndRecord_step hw hname
        exact h₁.trans (visitExprs_step args (h₁.sees hw) hargs)
      | cons part rest => exact visitExprs_step args hw hc

theorem visitExprs_step (es : List Expr) {w : Walker} (hw : Sees w.table.scopes env hidden)
    (hc : usesClear hidden (exprsUses es) = true) :
    Step w (w.visitExprs es) (bindAll env (exprsUses es)) := by
  cases es with
  | nil => exact Step.refl w
  | cons e es =>
    obtain ⟨he, hes⟩ := (usesClear_append _ _).1 hc
    have h₁ := visitExpr_step e hw he
    have h₂ := visitExprs_step es (h₁.sees hw) hes
    exact h₁.andThen h₂

theorem visitExpr?_step (e : Option Expr) {w : Walker} (hw : Sees w.table.scopes env hidden)
    (hc : usesClear hidden (exprUses? e) = true) :
    Step w (w.visitExpr? e) (bindAll env (exprUses? e)) := by
  cases e with
  | none => exact Step.refl w
  | some e => exact visitExpr_step e hw hc

end

/-! ### Uses that are nowhere -/

@[simp] theorem bindAll_eq_nil {us : List Use} : bindAll env us = [] ↔ us = [] := List.map_eq_nil_iff

mutual

/-- Whether a statement uses any name does not depend on the
environment. -/
theorem stmtBindings_eq_nil (s : Stmt) {env env' : List Scope} (h : stmtBindings env s = []) :
    stmtBindings env' s = [] := by
  cases s with
  | transfer loc op lhs rhs => simpa [stmtBindings] using h
  | incDec target op isPrefix => simpa [stmtBindings] using h
  | controlCall loc target args =>
    cases target with
    | nil => simpa [stmtBindings] using h
    | cons name rest =>
      cases rest with
      | nil => simp [stmtBindings] at h
      | cons part rest => simpa [stmtBindings] using h
  | bareFinish loc => rfl
  | empty => rfl
  | goto target => rfl
  | systemTask name args => simpa [stmtBindings] using h
  | «return» loc value => simpa [stmtBindings] using h
  | labeled label body => exact stmtBindings?_eq_nil body h
  | initBlock items => exact stmtsBindings_eq_nil items h
  | delayTask count => simpa [stmtBindings] using h
  | parallel items decls =>
    obtain ⟨hd, hi⟩ := List.append_eq_nil_iff.1 h
    exact List.append_eq_nil_iff.2
      ⟨declsBindings_eq_nil decls hd, stmtsBindings_eq_nil items hi⟩
  | seq items decls =>
    obtain ⟨hd, hi⟩ := List.append_eq_nil_iff.1 h
    exact List.append_eq_nil_iff.2
      ⟨declsBindings_eq_nil decls hd, stmtsBindings_eq_nil items hi⟩
  | alt cases elseCase =>
    obtain ⟨hc, he⟩ := List.append_eq_nil_iff.1 h
    exact List.append_eq_nil_iff.2
      ⟨casesBindings_eq_nil cases hc, stmtBindings?_eq_nil elseCase he⟩
  | any cases elseCase =>
    obtain ⟨hc, he⟩ := List.append_eq_nil_iff.1 h
    exact List.append_eq_nil_iff.2
      ⟨casesBindings_eq_nil cases hc, stmtBindings?_eq_nil elseCase he⟩
  | «while» cond items =>
    simp only [stmtBindings, List.append_eq_nil_iff, bindAll_eq_nil] at h ⊢
    exact ⟨h.1, stmtsBindings_eq_nil items h.2⟩
  | «for» init cond step items =>
    simp only [stmtBindings, List.append_eq_nil_iff, bindAll_eq_nil] at h ⊢
    obtain ⟨⟨⟨hinit, hcond⟩, hstep⟩, hitems⟩ := h
    exact ⟨⟨⟨stmtBindings_eq_nil init hinit, hcond⟩, stmtBindings?_eq_nil step hstep⟩,
      stmtsBindings_eq_nil items hitems⟩
  | «if» cond thenBr elseBr =>
    simp only [stmtBindings, List.append_eq_nil_iff, bindAll_eq_nil] at h ⊢
    obtain ⟨⟨hcond, hthen⟩, helse⟩ := h
    exact ⟨⟨hcond, stmtBindings_eq_nil thenBr hthen⟩, stmtBindings?_eq_nil elseBr helse⟩
  | generate loc init initValue cond step body =>
    simp only [stmtBindings, List.append_eq_nil_iff, bindAll_eq_nil] at h ⊢
    exact ⟨h.1, stmtBindings_eq_nil body h.2⟩

theorem stmtsBindings_eq_nil (ss : List Stmt) {env env' : List Scope}
    (h : stmtsBindings env ss = []) : stmtsBindings env' ss = [] := by
  cases ss with
  | nil => rfl
  | cons s ss =>
    obtain ⟨hs, hss⟩ := List.append_eq_nil_iff.1 h
    exact List.append_eq_nil_iff.2 ⟨stmtBindings_eq_nil s hs, stmtsBindings_eq_nil ss hss⟩

theorem stmtBindings?_eq_nil (s : Option Stmt) {env env' : List Scope}
    (h : stmtBindings? env s = []) : stmtBindings? env' s = [] := by
  cases s with
  | none => rfl
  | some s => exact stmtBindings_eq_nil s h

theorem casesBindings_eq_nil (cs : List CondCase) {env env' : List Scope}
    (h : casesBindings env cs = []) : casesBindings env' cs = [] := by
  cases cs with
  | nil => rfl
  | cons c cs =>
    cases c with
    | mk cond body =>
      simp only [casesBindings, List.append_eq_nil_iff, bindAll_eq_nil] at h ⊢
      obtain ⟨⟨hcond, hbody⟩, hcs⟩ := h
      exact ⟨⟨hcond, stmtBindings_eq_nil body hbody⟩, casesBindings_eq_nil cs hcs⟩

theorem declBindings_eq_nil (d : Decl) {env env' : List Scope} (h : declBindings env d = []) :
    declBindings env' d = [] := by
  cases d
  case funcDefn loc name body => exact stmtBindings_eq_nil body h
  case procDefn loc name body => exact stmtBindings_eq_nil body h
  case stateDefn loc name body => exact stmtBindings_eq_nil body h
  all_goals simpa [declBindings] using h

theorem declsBindings_eq_nil (ds : List Decl) {env env' : List Scope}
    (h : declsBindings env ds = []) : declsBindings env' ds = [] := by
  cases ds with
  | nil => rfl
  | cons d ds =>
    obtain ⟨hd, hds⟩ := List.append_eq_nil_iff.1 h
    exact List.append_eq_nil_iff.2 ⟨declBindings_eq_nil d hd, declsBindings_eq_nil ds hds⟩

end

/-! ### The statements of the walk -/

/-- The walk over the items of a block, which skips the declarations. -/
theorem block_step {w w' : Walker} {items : List Stmt} {decls : List Decl}
    (hd : (declsBindings [] decls).isEmpty = true)
    (h : Step (w.enterScope .seqOrParallel) w' (stmtsBindings (blockScope decls :: env) items)) :
    Step w w'.leaveScope (declsBindings (blockScope decls :: env) decls ++
      stmtsBindings (blockScope decls :: env) items) := by
  rw [declsBindings_eq_nil decls (List.isEmpty_iff.1 hd), List.nil_append]
  exact h.bracket

theorem scopes_declareLoopVar (w : Walker) (loc : Loc) (init : Ident) :
    ((w.enterScope .seqOrParallel).declareLoopVar loc init).table.scopes =
      loopScope loc init :: w.table.scopes := by
  by_cases hinit : init = []
  · simp [Walker.declareLoopVar, loopScope, hinit, Walker.enterScope, SymbolTable.enterScope]
  · simp [Walker.declareLoopVar, loopScope, hinit, Walker.enterScope, SymbolTable.enterScope,
      SymbolTable.declare, Scope.insert, Scope.lookupLocal]

theorem logs_declareLoopVar (w : Walker) (loc : Loc) (init : Ident) :
    Logs w ((w.enterScope .seqOrParallel).declareLoopVar loc init) [] := by
  unfold Walker.declareLoopVar
  split
  · exact Logs.of_table w _
  · split
    · exact Logs.of_table w _
    · exact Logs.of_table w _

end Uses

mutual

/-- **A statement that is clear is walked as the reference reads it.** -/
theorem visitStmt_step (s : Stmt) {w : Walker} {env : List Scope} {hidden : List Ident}
    (hw : Sees w.table.scopes env hidden) (hc : clear hidden s = true) :
    Step w (w.visitStmt s) (stmtBindings env s) := by
  cases s with
  | transfer loc op lhs rhs =>
    obtain ⟨hl, hr⟩ := (usesClear_append _ _).1 hc
    have hlhs := visitExpr_step lhs hw hl
    exact hlhs.andThen (visitExpr_step rhs (hlhs.sees hw) hr)
  | incDec target op isPrefix => exact visitExpr_step target hw hc
  | controlCall loc target args =>
    cases target with
    | nil => exact visitExprs_step args hw hc
    | cons name rest =>
      cases rest with
      | nil =>
        obtain ⟨hname, hargs⟩ := (usesClear_cons _ _).1 hc
        have h₁ := resolveName_step hw hname
        exact h₁.trans (visitExprs_step args (h₁.sees hw) hargs)
      | cons part rest => exact visitExprs_step args hw hc
  | bareFinish loc => exact Step.refl w
  | empty => exact Step.refl w
  | goto target => exact Step.refl w
  | systemTask name args => exact visitExprs_step args hw hc
  | «return» loc value => exact visitExpr?_step value hw hc
  | labeled label body => exact visitStmt?_step body hw hc
  | initBlock items => exact (visitStmts_step items (hw.enter _) hc).bracket
  | delayTask count => exact visitExpr_step count hw hc
  | parallel items decls =>
    obtain ⟨hd, hi⟩ := Bool.and_eq_true_iff.1 hc
    exact block_step hd (visitStmts_step items (hw.block decls) hi)
  | seq items decls =>
    obtain ⟨hd, hi⟩ := Bool.and_eq_true_iff.1 hc
    exact block_step hd (visitStmts_step items (hw.block decls) hi)
  | alt cases elseCase =>
    obtain ⟨hcs, he⟩ := Bool.and_eq_true_iff.1 hc
    have hcases := visitCases_step cases (hw.enter .seqOrParallel) hcs
    exact (hcases.trans (visitStmt?_step elseCase (hcases.sees (hw.enter _)) he)).bracket
  | any cases elseCase =>
    obtain ⟨hcs, he⟩ := Bool.and_eq_true_iff.1 hc
    have hcases := visitCases_step cases (hw.enter .seqOrParallel) hcs
    exact (hcases.trans (visitStmt?_step elseCase (hcases.sees (hw.enter _)) he)).bracket
  | «while» cond items =>
    obtain ⟨hcond, hitems⟩ := Bool.and_eq_true_iff.1 hc
    have h₁ := visitExpr_step cond (hw.enter .seqOrParallel) hcond
    exact (h₁.trans (visitStmts_step items (h₁.sees (hw.enter _)) hitems)).bracket
  | «for» init cond step items =>
    simp only [clear, Bool.and_eq_true] at hc
    obtain ⟨⟨⟨hinit, hcond⟩, hstep⟩, hitems⟩ := hc
    have hw' := hw.enter .seqOrParallel
    have h₁ := visitStmt_step init hw' hinit
    have h₂ := h₁.trans (visitExpr_step cond (h₁.sees hw') hcond)
    have h₃ := h₂.trans (visitStmt?_step step (h₂.sees hw') hstep)
    exact (h₃.trans (visitStmts_step items (h₃.sees hw') hitems)).bracket
  | «if» cond thenBr elseBr =>
    simp only [clear, Bool.and_eq_true] at hc
    obtain ⟨⟨hcond, hthen⟩, helse⟩ := hc
    have h₁ := visitExpr_step cond hw hcond
    have h₂ := h₁.trans (visitStmt_step thenBr (h₁.sees hw) hthen)
    exact h₂.trans (visitStmt?_step elseBr (h₂.sees hw) helse)
  | generate loc init initValue cond step body =>
    simp only [clear, Bool.and_eq_true] at hc
    obtain ⟨⟨hinit, huses⟩, hbody⟩ := hc
    obtain ⟨hcond, hstep⟩ := (usesClear_append _ _).1 huses
    have hscopes := scopes_declareLoopVar w loc init
    have hw' : Sees ((w.enterScope .seqOrParallel).declareLoopVar loc init).table.scopes
        (loopScope loc init :: env) (hiddenUnder hidden loc init) := by
      rw [hscopes]
      exact hw.cons (loopScope loc init)
    have h₁ := visitExpr_step cond hw' hcond
    have h₂ := h₁.andThen (visitExpr_step step (h₁.sees hw') hstep)
    have h₃ := h₂.trans (visitStmt_step body (h₂.sees hw') hbody)
    have hnil : bindAll env (exprUses initValue) = [] := by simpa using hinit
    rw [stmtBindings, hnil, List.nil_append]
    exact h₃.leave hscopes (logs_declareLoopVar w loc init)

theorem visitStmts_step (ss : List Stmt) {w : Walker} {env : List Scope} {hidden : List Ident}
    (hw : Sees w.table.scopes env hidden) (hc : clearAll hidden ss = true) :
    Step w (w.visitStmts ss) (stmtsBindings env ss) := by
  cases ss with
  | nil => exact Step.refl w
  | cons s ss =>
    obtain ⟨hs, hss⟩ := Bool.and_eq_true_iff.1 hc
    have h₁ := visitStmt_step s hw hs
    exact h₁.trans (visitStmts_step ss (h₁.sees hw) hss)

theorem visitStmt?_step (s : Option Stmt) {w : Walker} {env : List Scope} {hidden : List Ident}
    (hw : Sees w.table.scopes env hidden) (hc : clear? hidden s = true) :
    Step w (w.visitStmt? s) (stmtBindings? env s) := by
  cases s with
  | none => exact Step.refl w
  | some s => exact visitStmt_step s hw hc

theorem visitCases_step (cs : List CondCase) {w : Walker} {env : List Scope} {hidden : List Ident}
    (hw : Sees w.table.scopes env hidden) (hc : clearCases hidden cs = true) :
    Step w (w.visitCases cs) (casesBindings env cs) := by
  cases cs with
  | nil => exact Step.refl w
  | cons c cs =>
    cases c with
    | mk cond body =>
      simp only [clearCases, Bool.and_eq_true] at hc
      obtain ⟨⟨hcond, hbody⟩, hcs⟩ := hc
      have h₁ := visitExpr_step cond hw hcond
      have h₂ := h₁.trans (visitStmt_step body (h₁.sees hw) hbody)
      exact h₂.trans (visitCases_step cs (h₂.sees hw) hcs)

end

/-! ## Declarations -/

/-- A stretch of the walk that leaves the environment of `r` and has gone
over its bindings; it declares in the innermost scope only. -/
structure Runs (w w' : Walker) (r : List Scope × List Binding) : Prop where
  scopes : w'.table.scopes = r.1
  kinds : r.1.map Scope.kind = w.table.scopes.map Scope.kind
  outer : r.1.tail = w.table.scopes.tail
  logs : Logs w w' r.2

theorem Runs.trans {w w' w'' : Walker} {r rs : List Scope × List Binding} (h : Runs w w' r)
    (h' : Runs w' w'' rs) : Runs w w'' (rs.1, r.2 ++ rs.2) := by
  refine ⟨h'.scopes, ?_, ?_, h.logs.trans h'.logs⟩
  · show rs.1.map Scope.kind = w.table.scopes.map Scope.kind
    rw [h'.kinds, h.scopes, h.kinds]
  · show rs.1.tail = w.table.scopes.tail
    rw [h'.outer, h.scopes, h.outer]

theorem Runs.of_step {w w' : Walker} {bs : List Binding} (h : Step w w' bs) :
    Runs w w' (w.table.scopes, bs) := ⟨h.scopes, rfl, rfl, h.logs⟩

theorem Runs.kinds_eq {w w' : Walker} {r : List Scope × List Binding} (h : Runs w w' r) :
    w'.table.scopes.map Scope.kind = w.table.scopes.map Scope.kind := by
  rw [h.scopes, h.kinds]

theorem Runs.open_ {w w' : Walker} {r : List Scope × List Binding} (h : Runs w w' r)
    (hw : w.table.scopes ≠ []) : w'.table.scopes ≠ [] := by
  intro hnil
  have hmap := h.kinds_eq
  rw [hnil] at hmap
  exact hw (List.map_eq_nil_iff.1 hmap.symm)

@[simp] theorem usesClear_nothing (us : List Use) : usesClear [] us = true := by
  simp [usesClear]

/-- What one declaration does to the innermost scope. -/
theorem declare_of_insert {t : SymbolTable} {s : Scope} {ss : List Scope}
    (h : t.scopes = s :: ss) (sym : Symbol) :
    t.declare sym = (s.insert sym).map fun s' => { t with scopes := s' :: ss } := by
  simp only [SymbolTable.declare, h]

theorem kind_insert {s s' : Scope} {sym : Symbol} (h : s.insert sym = some s') :
    s'.kind = s.kind := by
  unfold Scope.insert at h
  split at h
  · cases h
  · obtain rfl := Option.some.inj h
    rfl

theorem declareThen_runs {w : Walker} (hw : w.table.scopes ≠ []) (sym : Symbol)
    (exprs : List Expr) :
    Runs w (w.declareThen sym exprs) (declareIn w.table.scopes sym exprs) := by
  obtain ⟨s, ss, hs⟩ := List.exists_cons_of_ne_nil hw
  rw [Walker.declareThen, declare_of_insert hs, hs, declareIn]
  cases hins : s.insert sym with
  | none =>
    simp only [Option.map_none]
    exact ⟨hs, by rw [hs], by rw [hs], Logs.of_duplicate w _ _⟩
  | some s' =>
    simp only [Option.map_some]
    have hstep := visitExprs_step (w := { w with table := ⟨s' :: ss, w.table.retired⟩ }) exprs
      (Sees.refl (List.cons_ne_nil s' ss)) (usesClear_nothing _)
    refine ⟨hstep.scopes, ?_, ?_, (Logs.of_table w _).trans hstep.logs⟩
    · rw [hs, List.map_cons, List.map_cons, kind_insert hins]
    · rw [hs]
      rfl

theorem addSymbol_runs {w : Walker} {s : Scope} {ss : List Scope} (hs : w.table.scopes = s :: ss)
    {sym : Symbol} {s' : Scope} (hins : s.insert sym = some s') :
    Runs w { w with table := { w.table with scopes := s' :: ss } }
      (addSymbol w.table.scopes sym, []) := by
  refine ⟨?_, ?_, ?_, Logs.of_table w _⟩
  · simp only [addSymbol, hs, hins, Option.getD_some]
  · simp only [addSymbol, hs, hins, Option.getD_some, List.map_cons, kind_insert hins]
  · simp only [addSymbol, hs, List.tail_cons]

theorem addSymbol_refused {env ss : List Scope} {s : Scope} {sym : Symbol} (hs : env = s :: ss)
    (hins : s.insert sym = none) : addSymbol env sym = env := by
  simp only [addSymbol, hs, hins, Option.getD_none]

theorem declTopLevelParam_runs {w : Walker} (hw : w.table.scopes ≠ []) (p : TopLevelParamDecl) :
    Runs w (w.declTopLevelParam p) (paramBindings w.table.scopes p) := by
  obtain ⟨s, ss, hs⟩ := List.exists_cons_of_ne_nil hw
  rw [Walker.declTopLevelParam, declare_of_insert hs, paramBindings]
  cases hins : s.insert ⟨.integer, p.name, p.loc, none⟩ with
  | none =>
    have hdup : Runs w (w.report p.loc (.duplicateDeclaration p.name)) (w.table.scopes, []) :=
      ⟨rfl, rfl, rfl, Logs.of_duplicate w _ _⟩
    rw [addSymbol_refused hs hins]
    exact hdup.trans (Runs.of_step
      (visitExpr?_step p.init (Sees.refl (hdup.open_ hw)) (usesClear_nothing _)))
  | some s' =>
    have hadd := addSymbol_runs hs hins
    have hinit := Runs.of_step
      (visitExpr?_step p.init (Sees.refl (hadd.open_ hw)) (usesClear_nothing _))
    rw [hadd.scopes] at hinit
    exact hadd.trans hinit

theorem declPort_runs {w : Walker} (hw : w.table.scopes ≠ []) (p : PortDecl) :
    Runs w (w.declPort p) (portBindings w.table.scopes p) := declareThen_runs hw _ _

/-- A list of declarations, from one. -/
theorem foldl_runs {α : Type} {visit : Walker → α → Walker}
    {f : List Scope → α → List Scope × List Binding}
    (h : ∀ (w : Walker) (a : α), w.table.scopes ≠ [] → Runs w (visit w a) (f w.table.scopes a))
    (as : List α) {w : Walker} (hw : w.table.scopes ≠ []) :
    Runs w (as.foldl visit w) (threadAll f w.table.scopes as) := by
  induction as generalizing w with
  | nil => exact Runs.of_step (Step.refl w)
  | cons a as ih =>
    have ha := h w a hw
    have has := ih (ha.open_ hw)
    rw [ha.scopes] at has
    exact ha.trans has

theorem declTerminals_runs {w : Walker} (hw : w.table.scopes ≠ [])
    (d : List TopLevelParamDecl × List PortDecl) :
    Runs w (w.declTerminals d) (terminalBindings w.table.scopes d) := by
  have hparams := foldl_runs (fun w p hw => declTopLevelParam_runs hw p) d.1 hw
  have hports := foldl_runs (fun w p hw => declPort_runs hw p) d.2 (hparams.open_ hw)
  rw [hparams.scopes] at hports
  exact hparams.trans hports

theorem declInstances_runs (loc : Loc) (instances : List Instance) {w : Walker}
    (hw : w.table.scopes ≠ []) :
    Runs w (w.declInstances loc instances)
      (threadAll (fun env i => declareIn env ⟨.submodule, Instance.name i, loc, some .bit⟩
        (Instance.arraySize i).toList) w.table.scopes instances) := by
  induction instances generalizing w with
  | nil => exact Runs.of_step (Step.refl w)
  | cons i is ih =>
    have hi := declareThen_runs hw ⟨.submodule, i.name, loc, some .bit⟩ i.arraySize.toList
    have his := ih (hi.open_ hw)
    rw [hi.scopes] at his
    exact hi.trans his

theorem declareMissing_runs {w : Walker} (hw : w.table.scopes ≠ []) (sym : Symbol) :
    Runs w (w.declareMissing sym) (addMissing w.table.scopes sym, []) := by
  obtain ⟨s, ss, hs⟩ := List.exists_cons_of_ne_nil hw
  rw [Walker.declareMissing, lookup_eq_findIn hw, addMissing]
  cases findIn w.table.scopes sym.name with
  | some found => exact Runs.of_step (Step.refl w)
  | none =>
    rw [declare_of_insert hs]
    cases hins : s.insert sym with
    | none =>
      have hsame := addSymbol_refused hs hins
      simp only [Option.isSome_none, Bool.false_eq_true, if_false, hsame]
      exact Runs.of_step (Step.refl w)
    | some s' => exact addSymbol_runs hs hins

/-! ### State names -/

/-- Where declarations are visited the innermost scope is a module's, or
no module is open. -/
def ModuleTop (kinds : List ScopeKind) : Prop :=
  kinds.head? = some .module ∨ (kinds ≠ [] ∧ .module ∉ kinds)

theorem ModuleTop.open_ {scopes : List Scope} (h : ModuleTop (scopes.map Scope.kind)) :
    scopes ≠ [] := by
  rintro rfl
  rcases h with h | ⟨h, -⟩
  · cases h
  · exact h rfl

/-- So a state name goes to the innermost scope. -/
theorem declareInScope_module {t : SymbolTable} (h : ModuleTop (t.scopes.map Scope.kind))
    (sym : Symbol) : t.declareInScope .module sym = t.declare sym := by
  obtain ⟨s, ss, hs⟩ := List.exists_cons_of_ne_nil h.open_
  rw [SymbolTable.declareInScope, hs]
  rw [hs] at h
  rcases h with hhead | ⟨-, hnone⟩
  · have hkind : s.kind = .module := Option.some.inj hhead
    have hany : ((s :: ss).any fun s => s.kind = .module) = true := by simp [hkind]
    rw [if_pos hany, insertInScope, if_pos hkind, declare_of_insert hs, Option.map_map]
    rfl
  · have hany : ((s :: ss).any fun s => s.kind = .module) = false := by
      rw [List.any_eq_false]
      intro s' hs' hk
      exact hnone (List.mem_map.2 ⟨s', hs', by simpa using hk⟩)
    rw [hany]
    rfl

theorem declStateNames_runs (loc : Loc) (names : List Ident) {w : Walker}
    (hw : ModuleTop (w.table.scopes.map Scope.kind)) :
    Runs w (w.declStateNames loc names)
      (threadAll (fun env name => declareIn env ⟨.state, name, loc, some .bit⟩ [])
        w.table.scopes names) := by
  induction names generalizing w with
  | nil => exact Runs.of_step (Step.refl w)
  | cons name names ih =>
    have hone := declareThen_runs hw.open_ ⟨.state, name, loc, some .bit⟩ []
    have hrest := ih (w := w.declareThen ⟨.state, name, loc, some .bit⟩ [])
      (by rw [hone.kinds_eq]; exact hw)
    rw [hone.scopes] at hrest
    have heq : w.declStateNames loc (name :: names) =
        (w.declareThen ⟨.state, name, loc, some .bit⟩ []).declStateNames loc names := by
      rw [Walker.declStateNames, declareInScope_module hw, Walker.declareThen]
      cases w.table.declare ⟨.state, name, loc, some .bit⟩ <;> rfl
    rw [heq]
    exact hone.trans hrest

/-! ### The items of a unit -/

theorem ModuleTop.of_runs {w w' : Walker} {r : List Scope × List Binding} (h : Runs w w' r)
    (hw : ModuleTop (w.table.scopes.map Scope.kind)) :
    ModuleTop (w'.table.scopes.map Scope.kind) := by
  rw [h.kinds_eq]
  exact hw

/-- A scope that is opened, filled and closed. -/
theorem Runs.bracket {w w' : Walker} {r : List Scope × List Binding} {kind : ScopeKind}
    (h : Runs (w.enterScope kind) w' r) : Step w w'.leaveScope r.2 := by
  have hopen : w'.table.scopes ≠ [] := h.open_ (List.cons_ne_nil _ _)
  obtain ⟨s, ss, hs⟩ := List.exists_cons_of_ne_nil hopen
  have houter : ss = w.table.scopes := by
    have htail := h.outer
    rw [← h.scopes, hs] at htail
    exact htail
  refine ⟨?_, ?_⟩
  · simp only [Walker.leaveScope, SymbolTable.leaveScope, hs, houter]
  · have hlogs := ((Logs.of_table w _).trans h.logs).trans (Logs.of_table w' w'.table.leaveScope)
    rw [List.nil_append, List.append_nil] at hlogs
    exact hlogs

/-- The body of a definition. -/
theorem body_runs {w : Walker} (hw : w.table.scopes ≠ []) (kind : ScopeKind) {body : Stmt}
    (hc : clear [] body = true) :
    Runs w ((w.enterScope kind).visitStmt body).leaveScope
      (w.table.scopes, stmtBindings w.table.scopes body) :=
  Runs.of_step (visitStmt_step body ((Sees.refl hw).enter kind) hc).bracket

/-- A definition: its name where it is missing, then its body. -/
theorem defn_runs {w : Walker} (hw : w.table.scopes ≠ []) (sym : Symbol) (kind : ScopeKind)
    {body : Stmt} (hc : clear [] body = true) :
    Runs w ((((w.declareMissing sym).enterScope kind).visitStmt body).leaveScope)
      (addMissing w.table.scopes sym, stmtBindings (addMissing w.table.scopes sym) body) := by
  have hname := declareMissing_runs hw sym
  have hbody := body_runs (hname.open_ hw) kind hc
  rw [hname.scopes] at hbody
  exact hname.trans hbody

mutual

theorem visitDecl_runs (cu : CompilationUnit) (d : Decl) {w : Walker}
    (hw : ModuleTop (w.table.scopes.map Scope.kind)) (hc : itemClear d = true) :
    Runs w (w.visitDecl cu d) (itemBindings cu w.table.scopes d) := by
  have hopen : w.table.scopes ≠ [] := hw.open_
  cases d with
  | topLevelParam p => exact declTopLevelParam_runs hopen p
  | struct loc name members => exact declareThen_runs hopen _ _
  | declare name modifier clockName resetName headerParams ports =>
    have hterminals := declTerminals_runs (w := w.enterScope .declare) (List.cons_ne_nil _ _)
      (headerParams, ports)
    exact Runs.of_step hterminals.bracket
  | module loc name internals actions funcs procs =>
    simp only [itemClear, Bool.and_eq_true] at hc
    obtain ⟨⟨⟨hinternals, hfuncs⟩, hprocs⟩, hactions⟩ := hc
    have htop : ModuleTop ((w.enterScope .module).table.scopes.map Scope.kind) := .inl rfl
    -- whatever the terminals are, the rest of the module goes on from them
    have hrest : ∀ {w₀ : Walker} {r : List Scope × List Binding},
        Runs (w.enterScope .module) w₀ r →
        Step w ((((w₀.visitDecls cu internals).visitDecls cu funcs).visitDecls cu
            procs).visitStmts actions).leaveScope
          (r.2 ++ (itemsBindings cu r.1 internals).2 ++
            (itemsBindings cu (itemsBindings cu r.1 internals).1 funcs).2 ++
            (itemsBindings cu (itemsBindings cu (itemsBindings cu r.1 internals).1 funcs).1
              procs).2 ++
            stmtsBindings (itemsBindings cu (itemsBindings cu (itemsBindings cu r.1
              internals).1 funcs).1 procs).1 actions) := by
      intro w₀ r h₀
      have h₁ := visitDecls_runs cu internals (htop.of_runs h₀) hinternals
      have h₂ := visitDecls_runs cu funcs ((htop.of_runs h₀).of_runs h₁) hfuncs
      have h₃ := visitDecls_runs cu procs (((htop.of_runs h₀).of_runs h₁).of_runs h₂) hprocs
      have hopen₃ := h₃.open_ (h₂.open_ (h₁.open_ (h₀.open_ htop.open_)))
      have h₄ := Runs.of_step (visitStmts_step actions (Sees.refl hopen₃) hactions)
      rw [h₃.scopes, h₂.scopes, h₁.scopes, h₀.scopes] at h₄
      rw [h₂.scopes, h₁.scopes, h₀.scopes] at h₃
      rw [h₁.scopes, h₀.scopes] at h₂
      rw [h₀.scopes] at h₁
      exact ((((h₀.trans h₁).trans h₂).trans h₃).trans h₄).bracket
    rw [Walker.visitDecl, itemBindings]
    cases declareOf cu name with
    | some d => exact Runs.of_step (hrest (declTerminals_runs htop.open_ d))
    | none => exact Runs.of_step (hrest (Runs.of_step (Step.refl (w.enterScope .module))))
  | port p => exact declPort_runs hopen p
  | reg loc name width init => exact declareThen_runs hopen _ _
  | wire loc name width => exact declareThen_runs hopen _ _
  | «variable» loc name width => exact declareThen_runs hopen _ _
  | integer loc name => exact declareThen_runs hopen _ _
  | mem loc name depth width init => exact declareThen_runs hopen _ _
  | funcSelf loc name dummyArgs returnTerminal => exact declareThen_runs hopen _ _
  | procName loc name regArgs => exact declareThen_runs hopen _ _
  | stateName loc names => exact declStateNames_runs loc names hw
  | firstState target => exact Runs.of_step (Step.refl w)
  | submodule loc templateName instances paramAssigns =>
    have hinst := declInstances_runs loc instances hopen
    have hvals := Runs.of_step (visitExprs_step (paramAssigns.map ParamAssign.value)
      (Sees.refl (hinst.open_ hopen)) (usesClear_nothing _))
    rw [hinst.scopes] at hvals
    exact hinst.trans hvals
  | structInst loc typeName instanceName kind arraySize init => exact declareThen_runs hopen _ _
  | funcDefn loc name body =>
    -- a dotted name is not declared
    cases name with
    | nil => exact body_runs hopen .function hc
    | cons x rest =>
      cases rest with
      | nil => exact defn_runs hopen ⟨.funcIn, x, loc, some .bit⟩ .function hc
      | cons part rest => exact body_runs hopen .function hc
  | procDefn loc name body => exact defn_runs hopen ⟨.proc, name, loc, some .bit⟩ .proc hc
  | stateDefn loc name body => exact body_runs hopen .seqOrParallel hc

theorem visitDecls_runs (cu : CompilationUnit) (ds : List Decl) {w : Walker}
    (hw : ModuleTop (w.table.scopes.map Scope.kind)) (hc : itemsClear ds = true) :
    Runs w (w.visitDecls cu ds) (itemsBindings cu w.table.scopes ds) := by
  cases ds with
  | nil => exact Runs.of_step (Step.refl w)
  | cons d ds =>
    obtain ⟨hd, hds⟩ := Bool.and_eq_true_iff.1 hc
    have hone := visitDecl_runs cu d hw hd
    have hrest := visitDecls_runs cu ds (hw.of_runs hone) hds
    rw [hone.scopes] at hrest
    exact hone.trans hrest

end

/-! ## The whole pass -/

theorem run_logs {cu : CompilationUnit} (hc : itemsClear cu = true) :
    Logs ⟨⟨[], []⟩, [], [], []⟩ (runResolutionPass cu) (unitBindings cu) := by
  have htop : ModuleTop [ScopeKind.global] := .inr ⟨List.cons_ne_nil _ _, by simp⟩
  have hrun := visitDecls_runs cu cu
    (w := Walker.enterScope ⟨⟨[], []⟩, [], [], []⟩ .global) htop hc
  exact hrun.bracket.logs

/-- The names noted along a list of bindings. -/
theorem mem_foldl_noteUnresolved (bs : List Binding) (reported : List Ident) (x : Ident) :
    x ∈ bs.foldl noteUnresolved reported ↔
      x ∈ reported ∨ ∃ b ∈ bs, b.use.name = x ∧ b.target = none := by
  induction bs generalizing reported with
  | nil => simp
  | cons b bs ih =>
    rw [List.foldl_cons, ih]
    rw [noteUnresolved]
    split
    · next hb =>
      simp only [List.exists_mem_cons_iff]
      constructor
      · rintro (h | h)
        · exact .inl h
        · exact .inr (.inr h)
      · rintro (h | ⟨rfl, hnone⟩ | h)
        · exact .inl h
        · exact .inl (by simpa [hnone] using hb)
        · exact .inr h
    · next hb =>
      have hnone : b.target = none := by
        cases ht : b.target with
        | none => rfl
        | some sym => simp [ht] at hb
      simp only [List.mem_append, List.mem_singleton, List.exists_mem_cons_iff, hnone, and_true]
      tauto

theorem nodup_foldl_noteUnresolved (bs : List Binding) {reported : List Ident}
    (h : reported.Nodup) : (bs.foldl noteUnresolved reported).Nodup := by
  induction bs generalizing reported with
  | nil => exact h
  | cons b bs ih =>
    rw [List.foldl_cons]
    apply ih
    rw [noteUnresolved]
    split
    · exact h
    · next hb =>
      rw [List.nodup_append]
      refine ⟨h, List.nodup_singleton _, ?_⟩
      rintro a ha c hc rfl
      rw [List.mem_singleton] at hc
      have hmem : reported.contains b.use.name = true := List.contains_iff_mem.2 (hc ▸ ha)
      exact hb (by rw [hmem, Bool.or_true])

/-- **Name resolution is lexical scoping**, in a unit where no use depends
on what the pass leaves out. -/
theorem lexicallyScoped_of_clear (cu : CompilationUnit) (hc : itemsClear cu = true) :
    LexicallyScoped cu := by
  have hlogs := run_logs hc
  have hreports : unresolvedIn (runResolutionPass cu).diags =
      (unitBindings cu).foldl noteUnresolved [] := (hlogs.diags rfl).trans hlogs.reported
  refine ⟨fun x => ?_, ?_, hlogs.resolutions⟩
  · rw [hreports, mem_foldl_noteUnresolved]
    simp
  · rw [hreports]
    exact nodup_foldl_noteUnresolved _ List.nodup_nil

/-- `module m { reg r; func f { r := q; } }`: `q` is reported, `r` is
bound to the register. -/
def moduleRegUnit : CompilationUnit :=
  [.module 0 ['m'] [.reg 15 ['r'] none none] []
    [.funcDefn 18 [['f']] (.parallel
      [.transfer 27 .regColonEq (.identifier 27 [['r']]) (.identifier 32 [['q']])] [])] []]

theorem lexicallyScoped_moduleRegUnit :
    itemsClear moduleRegUnit = true ∧ LexicallyScoped moduleRegUnit :=
  ⟨by decide +kernel, lexicallyScoped_of_clear moduleRegUnit (by decide +kernel)⟩

/-- `module m { func f { reg r; r := 1; } }`: the register is declared in
the block that writes it. -/
def blockRegUnit : CompilationUnit :=
  [.module 0 ['m'] [] []
    [.funcDefn 11 [['f']] (.parallel
      [.transfer 27 .regColonEq (.identifier 27 [['r']]) (.literal .decimal ['1'])]
      [.reg 24 ['r'] none none])] []]

theorem not_lexicallyScoped_blockRegUnit : ¬ LexicallyScoped blockRegUnit := by
  intro h
  have hreported : ['r'] ∈ unresolvedIn (runResolutionPass blockRegUnit).diags := by
    decide +kernel
  have hbound : ¬ ∃ b ∈ unitBindings blockRegUnit, b.use.name = ['r'] ∧ b.target = none := by
    decide +kernel
  exact hbound ((h.reported_iff ['r']).1 hreported)

end Sema

end Nslc
