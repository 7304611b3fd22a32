import Nslc.Sema.Checkers
import Nslc.Sema.Lexical
/-!
# Sema — verdicts about one module

What the checkers report inside a module, against the unit that keeps
only the structs, the module's `declare` and the module. Types are
inferred while the scopes are open, so of the other items only what they
put in the file's scope shows in them. Kinds, owners of states and
return terminals are looked up in tables of the whole unit: a module is
judged alone where these tables answer alike for the names its checks
ask for.
-/

namespace Nslc

namespace Sema

open AST SymbolTable

/-! ## What the walk does to the open scopes -/

section Scopes

theorem table_reportUnresolved (w : Walker) (u : Use) :
    (w.reportUnresolved u).table = w.table := by
  unfold Walker.reportUnresolved
  split <;> rfl

theorem table_resolveName (w : Walker) (u : Use) : (w.resolveName u).table = w.table := by
  unfold Walker.resolveName
  split
  · rfl
  · exact table_reportUnresolved w u

theorem table_resolveAndRecord (w : Walker) (u : Use) :
    (w.resolveAndRecord u).table = w.table := by
  unfold Walker.resolveAndRecord
  split
  · rfl
  · exact table_reportUnresolved w u

mutual

@[simp] theorem table_visitExpr (e : Expr) (w : Walker) : (w.visitExpr e).table = w.table := by
  cases e with
  | literal kind spelling => rfl
  | systemVar var => rfl
  | identifier loc name =>
    cases name with
    | nil => rfl
    | cons x rest => exact table_resolveAndRecord w _
  | unary op sub => exact table_visitExpr sub w
  | binary op lhs rhs => simp only [Walker.visitExpr, table_visitExpr rhs, table_visitExpr lhs]
  | conditional cond thenE elseE =>
    simp only [Walker.visitExpr, table_visitExpr elseE, table_visitExpr thenE,
      table_visitExpr cond]
  | concat parts => exact table_visitExprs parts w
  | «repeat» count body =>
    simp only [Walker.visitExpr, table_visitExpr body, table_visitExpr count]
  | signExtend width sub =>
    simp only [Walker.visitExpr, table_visitExpr sub, table_visitExpr width]
  | zeroExtend width sub =>
    simp only [Walker.visitExpr, table_visitExpr sub, table_visitExpr width]
  | slice loc sub hi lo =>
    simp only [Walker.visitExpr, table_visitExpr? lo, table_visitExpr hi, table_visitExpr sub]
  | fieldAccess obj field => exact table_visitExpr obj w
  | call loc target args =>
    rcases target with _ | ⟨x, _ | ⟨y, rest⟩⟩
    · exact table_visitExprs args w
    · exact (table_visitExprs args _).trans (table_resolveAndRecord w _)
    · exact table_visitExprs args w
  | structCast typeName sub memberPath => exact table_visitExpr sub w
  | incDec target op isPrefix => exact table_visitExpr target w

@[simp] theorem table_visitExprs (es : List Expr) (w : Walker) :
    (w.visitExprs es).table = w.table := by
  cases es with
  | nil => rfl
  | cons e es => exact (table_visitExprs es _).trans (table_visitExpr e w)

@[simp] theorem table_visitExpr? (e : Option Expr) (w : Walker) :
    (w.visitExpr? e).table = w.table := by
  cases e with
  | none => rfl
  | some e => exact table_visitExpr e w

end

/-- A scope that is opened and closed again. -/
theorem scopes_leaveScope {w w' : Walker} (s : Scope)
    (h : w'.table.scopes = s :: w.table.scopes) :
    w'.leaveScope.table.scopes = w.table.scopes := by
  simp only [Walker.leaveScope, SymbolTable.leaveScope, h]

mutual

/-- **A statement leaves the open scopes as they were.** -/
theorem scopes_visitStmt (s : Stmt) (w : Walker) :
    (w.visitStmt s).table.scopes = w.table.scopes := by
  cases s with
  | transfer loc op lhs rhs => simp only [Walker.visitStmt, table_visitExpr]
  | incDec target op isPrefix => simp only [Walker.visitStmt, table_visitExpr]
  | controlCall loc target args =>
    rcases target with _ | ⟨x, _ | ⟨y, rest⟩⟩
    · simp only [Walker.visitStmt, table_visitExprs]
    · simp only [Walker.visitStmt, table_visitExprs, table_resolveName]
    · simp only [Walker.visitStmt, table_visitExprs]
  | bareFinish loc => rfl
  | empty => rfl
  | goto target => rfl
  | systemTask name args => simp only [Walker.visitStmt, table_visitExprs]
  | «return» loc value => simp only [Walker.visitStmt, table_visitExpr?]
  | labeled label body => exact scopes_visitStmt? body w
  | initBlock items => exact scopes_leaveScope _ (scopes_visitStmts items _)
  | delayTask count => simp only [Walker.visitStmt, table_visitExpr]
  | parallel items decls => exact scopes_leaveScope _ (scopes_visitStmts items _)
  | seq items decls => exact scopes_leaveScope _ (scopes_visitStmts items _)
  | alt cases elseCase =>
    exact scopes_leaveScope _ ((scopes_visitStmt? elseCase _).trans (scopes_visitCases cases _))
  | any cases elseCase =>
    exact scopes_leaveScope _ ((scopes_visitStmt? elseCase _).trans (scopes_visitCases cases _))
  | «while» cond items =>
    refine scopes_leaveScope ⟨.seqOrParallel, []⟩ ((scopes_visitStmts items _).trans ?_)
    rw [table_visitExpr]
    rfl
  | «for» init cond step items =>
    refine scopes_leaveScope ⟨.seqOrParallel, []⟩ ((scopes_visitStmts items _).trans ?_)
    rw [scopes_visitStmt? step, table_visitExpr, scopes_visitStmt init]
    rfl
  | «if» cond thenBr elseBr =>
    simp only [Walker.visitStmt, scopes_visitStmt? elseBr, scopes_visitStmt thenBr,
      table_visitExpr]
  | generate loc init initValue cond step body =>
    refine scopes_leaveScope (loopScope loc init) ((scopes_visitStmt body _).trans ?_)
    rw [table_visitExpr, table_visitExpr]
    exact scopes_declareLoopVar w loc init

theorem scopes_visitStmts (ss : List Stmt) (w : Walker) :
    (w.visitStmts ss).table.scopes = w.table.scopes := by
  cases ss with
  | nil => rfl
  | cons s ss => exact (scopes_visitStmts ss _).trans (scopes_visitStmt s w)

theorem scopes_visitStmt? (s : Option Stmt) (w : Walker) :
    (w.visitStmt? s).table.scopes = w.table.scopes := by
  cases s with
  | none => rfl
  | some s => exact scopes_visitStmt s w

theorem scopes_visitCases (cs : List CondCase) (w : Walker) :
    (w.visitCases cs).table.scopes = w.table.scopes := by
  cases cs with
  | nil => rfl
  | cons c cs =>
    obtain ⟨cond, body⟩ := c
    refine (scopes_visitCases cs _).trans ((scopes_visitStmt body _).trans ?_)
    rw [table_visitExpr]

end

/-! ### Declarations -/

@[simp] theorem declareIn_fst (env : List Scope) (sym : Symbol) (exprs : List Expr) :
    (declareIn env sym exprs).1 = addSymbol env sym := by
  cases env with
  | nil => rfl
  | cons s ss =>
    rw [declareIn, addSymbol]
    cases s.insert sym <;> rfl

/-- `ss` with another innermost scope of the same kind. -/
def Topped (s : Scope) (ss env : List Scope) : Prop := ∃ s', env = s' :: ss ∧ s'.kind = s.kind

theorem topped_addSymbol (s : Scope) (ss : List Scope) (sym : Symbol) :
    Topped s ss (addSymbol (s :: ss) sym) := by
  refine ⟨(s.insert sym).getD s, rfl, ?_⟩
  cases h : s.insert sym with
  | none => rfl
  | some s' => exact kind_insert h

theorem topped_addMissing (s : Scope) (ss : List Scope) (sym : Symbol) :
    Topped s ss (addMissing (s :: ss) sym) := by
  unfold addMissing
  split
  · exact ⟨s, rfl, rfl⟩
  · exact topped_addSymbol s ss sym

theorem topped_threadAll {α : Type} {f : List Scope → α → List Scope × List Binding}
    {ss : List Scope} (hf : ∀ s a, Topped s ss (f (s :: ss) a).1) (as : List α) (s : Scope) :
    Topped s ss (threadAll f (s :: ss) as).1 := by
  induction as generalizing s with
  | nil => exact ⟨s, rfl, rfl⟩
  | cons a as ih =>
    obtain ⟨s', hs', hkind⟩ := hf s a
    obtain ⟨s'', hs'', hkind'⟩ := ih s'
    refine ⟨s'', ?_, hkind'.trans hkind⟩
    simp only [threadAll, hs', hs'']

theorem topped_terminals (s : Scope) (ss : List Scope)
    (d : List TopLevelParamDecl × List PortDecl) :
    Topped s ss (terminalBindings (s :: ss) d).1 := by
  obtain ⟨s', hs', hkind⟩ :=
    topped_threadAll (f := paramBindings) (fun s p => topped_addSymbol s ss _) d.1 s
  have hport : ∀ s p, Topped s ss (portBindings (s :: ss) p).1 := by
    intro s p
    rw [portBindings, declareIn_fst]
    exact topped_addSymbol s ss _
  obtain ⟨s'', hs'', hkind'⟩ := topped_threadAll hport d.2 s'
  refine ⟨s'', ?_, hkind'.trans hkind⟩
  simp only [terminalBindings, hs', hs'']

/-- **A declaration touches the innermost scope only.** -/
theorem topped_itemBindings (cu : CompilationUnit) (d : Decl) (s : Scope) (ss : List Scope) :
    Topped s ss (itemBindings cu (s :: ss) d).1 := by
  cases d with
  | topLevelParam p => exact topped_addSymbol s ss _
  | declare name modifier clockName resetName headerParams ports => exact ⟨s, rfl, rfl⟩
  | module loc name internals actions funcs procs => exact ⟨s, rfl, rfl⟩
  | port p =>
    rw [itemBindings, portBindings, declareIn_fst]
    exact topped_addSymbol s ss _
  | stateName loc names =>
    exact topped_threadAll (fun s x => by rw [declareIn_fst]; exact topped_addSymbol s ss _)
      names s
  | firstState target => exact ⟨s, rfl, rfl⟩
  | submodule loc templateName instances paramAssigns =>
    exact topped_threadAll (fun s x => by rw [declareIn_fst]; exact topped_addSymbol s ss _)
      instances s
  | funcDefn loc name body =>
    rcases name with _ | ⟨x, _ | ⟨y, rest⟩⟩
    · exact ⟨s, rfl, rfl⟩
    · exact topped_addMissing s ss _
    · exact ⟨s, rfl, rfl⟩
  | procDefn loc name body => exact topped_addMissing s ss _
  | stateDefn loc name body => exact ⟨s, rfl, rfl⟩
  | _ =>
    rw [itemBindings, declareIn_fst]
    exact topped_addSymbol s ss _

theorem topped_itemsBindings (cu : CompilationUnit) (ds : List Decl) (s : Scope)
    (ss : List Scope) : Topped s ss (itemsBindings cu (s :: ss) ds).1 := by
  induction ds generalizing s with
  | nil => exact ⟨s, by rw [itemsBindings], rfl⟩
  | cons d ds ih =>
    obtain ⟨s', hs', hkind⟩ := topped_itemBindings cu d s ss
    obtain ⟨s'', hs'', hkind'⟩ := ih s'
    refine ⟨s'', ?_, hkind'.trans hkind⟩
    simp only [itemsBindings, hs', hs'']

theorem Topped.moduleTop {s : Scope} {ss env : List Scope} (h : Topped s ss env)
    (hs : ModuleTop ((s :: ss).map Scope.kind)) : ModuleTop (env.map Scope.kind) := by
  obtain ⟨s', rfl, hkind⟩ := h
  rw [List.map_cons, hkind]
  exact hs

theorem scopes_body (w : Walker) (kind : ScopeKind) (body : Stmt) :
    ((w.enterScope kind).visitStmt body).leaveScope.table.scopes = w.table.scopes :=
  scopes_leaveScope ⟨kind, []⟩ (scopes_visitStmt body _)

theorem moduleTop_module (ss : List Scope) :
    ModuleTop (((⟨.module, []⟩ : Scope) :: ss).map Scope.kind) := Or.inl rfl

/-- A module's scope with its terminals. -/
theorem topped_enterTerminals (cu : CompilationUnit) (w : Walker) (name : Ident) :
    Topped ⟨.module, []⟩ w.table.scopes (enterTerminals cu w name).table.scopes := by
  unfold enterTerminals
  cases declareOf cu name with
  | none => exact ⟨⟨.module, []⟩, rfl, rfl⟩
  | some d =>
    have hruns := declTerminals_runs (w := w.enterScope .module) (List.cons_ne_nil _ _) d
    rw [hruns.scopes]
    exact topped_terminals ⟨.module, []⟩ w.table.scopes d

mutual

/-- The declarations of a module stay in its scope. -/
theorem topped_visitDecls (cu : CompilationUnit) (ds : List Decl) {w : Walker} {ss : List Scope}
    (hw : Topped ⟨.module, []⟩ ss w.table.scopes) :
    Topped ⟨.module, []⟩ ss (w.visitDecls cu ds).table.scopes := by
  rw [scopes_visitDecls cu ds (hw.moduleTop (moduleTop_module ss))]
  obtain ⟨s, hs, hkind⟩ := hw
  obtain ⟨s', hs', hkind'⟩ := topped_itemsBindings cu ds s ss
  exact ⟨s', by rw [hs, hs'], hkind'.trans hkind⟩

/-- The scopes a declaration leaves are those of the reference, whether
or not its names are bound as there. -/
theorem scopes_visitDecl (cu : CompilationUnit) (d : Decl) {w : Walker}
    (hw : ModuleTop (w.table.scopes.map Scope.kind)) :
    (w.visitDecl cu d).table.scopes = (itemBindings cu w.table.scopes d).1 := by
  have hopen : w.table.scopes ≠ [] := hw.open_
  cases d with
  | topLevelParam p => exact (declTopLevelParam_runs hopen p).scopes
  | struct loc name members => exact (declareThen_runs hopen _ _).scopes
  | declare name modifier clockName resetName headerParams ports =>
    exact (declTerminals_runs (w := w.enterScope .declare) (List.cons_ne_nil _ _)
      (headerParams, ports)).bracket.scopes
  | module loc name internals actions funcs procs =>
    have hterminals : Topped ⟨.module, []⟩ w.table.scopes
        (enterTerminals cu w name).table.scopes := topped_enterTerminals cu w name
    obtain ⟨s, hs, -⟩ := topped_visitDecls cu procs (topped_visitDecls cu funcs
      (topped_visitDecls cu internals hterminals))
    exact scopes_leaveScope s ((scopes_visitStmts actions _).trans hs)
  | port p => exact (declPort_runs hopen p).scopes
  | reg loc name width init => exact (declareThen_runs hopen _ _).scopes
  | wire loc name width => exact (declareThen_runs hopen _ _).scopes
  | «variable» loc name width => exact (declareThen_runs hopen _ _).scopes
  | integer loc name => exact (declareThen_runs hopen _ _).scopes
  | mem loc name depth width init => exact (declareThen_runs hopen _ _).scopes
  | funcSelf loc name dummyArgs returnTerminal => exact (declareThen_runs hopen _ _).scopes
  | procName loc name regArgs => exact (declareThen_runs hopen _ _).scopes
  | stateName loc names => exact (declStateNames_runs loc names hw).scopes
  | firstState target => rfl
  | submodule loc templateName instances paramAssigns =>
    rw [Walker.visitDecl, table_visitExprs]
    exact (declInstances_runs loc instances hopen).scopes
  | structInst loc typeName instanceName kind arraySize init =>
    exact (declareThen_runs hopen _ _).scopes
  | funcDefn loc name body =>
    refine (scopes_body _ .function body).trans ?_
    rcases name with _ | ⟨x, _ | ⟨y, rest⟩⟩
    · rfl
    · exact (declareMissing_runs hopen _).scopes
    · rfl
  | procDefn loc name body =>
    exact (scopes_body _ .proc body).trans (declareMissing_runs hopen _).scopes
  | stateDefn loc name body => exact scopes_body w .seqOrParallel body

theorem scopes_visitDecls (cu : CompilationUnit) (ds : List Decl) {w : Walker}
    (hw : ModuleTop (w.table.scopes.map Scope.kind)) :
    (w.visitDecls cu ds).table.scopes = (itemsBindings cu w.table.scopes ds).1 := by
  cases ds with
  | nil => rw [Walker.visitDecls, itemsBindings]
  | cons d ds =>
    have hd := scopes_visitDecl cu d hw
    have htop : ModuleTop ((w.visitDecl cu d).table.scopes.map Scope.kind) := by
      obtain ⟨s, ss, hs⟩ := List.exists_cons_of_ne_nil hw.open_
      rw [hd, hs]
      rw [hs] at hw
      exact (topped_itemBindings cu d s ss).moduleTop hw
    rw [Walker.visitDecls, scopes_visitDecls cu ds htop, hd]
    simp only [itemsBindings]

end

/-- The same innermost scope above different ones. -/
def Alike (outer outer' env env' : List Scope) : Prop := ∃ m, env = m :: outer ∧ env' = m :: outer'

variable {outer outer' : List Scope}

theorem Alike.addSymbol {env env' : List Scope} (h : Alike outer outer' env env') (sym : Symbol) :
    Alike outer outer' (addSymbol env sym) (addSymbol env' sym) := by
  obtain ⟨m, rfl, rfl⟩ := h
  exact ⟨(m.insert sym).getD m, rfl, rfl⟩

theorem Alike.findIn {env env' : List Scope} (h : Alike outer outer' env env') {x : Ident}
    (hx : findIn outer x = findIn outer' x) : findIn env x = findIn env' x := by
  obtain ⟨m, rfl, rfl⟩ := h
  rw [findIn_cons, findIn_cons, hx]

theorem Alike.addMissing {env env' : List Scope} (h : Alike outer outer' env env') (sym : Symbol)
    (hsym : SymbolTable.findIn outer sym.name = SymbolTable.findIn outer' sym.name) :
    Alike outer outer' (addMissing env sym) (addMissing env' sym) := by
  unfold Sema.addMissing
  rw [h.findIn hsym]
  split
  · exact h
  · exact h.addSymbol sym

theorem Alike.threadAll {α : Type} {f : List Scope → α → List Scope × List Binding}
    (hf : ∀ env env' a, Alike outer outer' env env' → Alike outer outer' (f env a).1 (f env' a).1)
    (as : List α) {env env' : List Scope} (h : Alike outer outer' env env') :
    Alike outer outer' (threadAll f env as).1 (threadAll f env' as).1 := by
  induction as generalizing env env' with
  | nil => exact h
  | cons a as ih => exact ih (hf env env' a h)

theorem Alike.declareIn {env env' : List Scope} (h : Alike outer outer' env env') (sym : Symbol)
    (exprs : List Expr) :
    Alike outer outer' (declareIn env sym exprs).1 (declareIn env' sym exprs).1 := by
  rw [declareIn_fst, declareIn_fst]
  exact h.addSymbol sym

theorem Alike.terminals {env env' : List Scope} (h : Alike outer outer' env env')
    (d : List TopLevelParamDecl × List PortDecl) :
    Alike outer outer' (terminalBindings env d).1 (terminalBindings env' d).1 := by
  have hparams : Alike outer outer' (Sema.threadAll paramBindings env d.1).1
      (Sema.threadAll paramBindings env' d.1).1 :=
    Alike.threadAll (fun _ _ p hd => hd.addSymbol _) d.1 h
  exact Alike.threadAll (f := portBindings) (fun _ _ p hd => hd.declareIn _ _) d.2 hparams

/-- The name a definition declares where it is missing. -/
def definedNames : Decl → List Ident
  | .funcDefn _ [x] _ => [x]
  | .procDefn _ x _ => [x]
  | _ => []

theorem Alike.item (cu cu' : CompilationUnit) (d : Decl) {env env' : List Scope}
    (h : Alike outer outer' env env')
    (hd : ∀ x ∈ definedNames d, SymbolTable.findIn outer x = SymbolTable.findIn outer' x) :
    Alike outer outer' (itemBindings cu env d).1 (itemBindings cu' env' d).1 := by
  cases d with
  | topLevelParam p => exact h.addSymbol _
  | declare name modifier clockName resetName headerParams ports => exact h
  | module loc name internals actions funcs procs => exact h
  | stateName loc names =>
    simp only [itemBindings]
    refine Alike.threadAll ?_ names h
    intro _ _ _ henv
    exact henv.declareIn _ _
  | firstState target => exact h
  | submodule loc templateName instances paramAssigns =>
    simp only [itemBindings]
    refine Alike.threadAll ?_ instances h
    intro _ _ _ henv
    exact henv.declareIn _ _
  | funcDefn loc name body =>
    rcases name with _ | ⟨x, _ | ⟨y, rest⟩⟩
    · exact h
    · exact h.addMissing _ (hd x (List.mem_singleton_self x))
    · exact h
  | procDefn loc name body => exact h.addMissing _ (hd name (List.mem_singleton_self name))
  | stateDefn loc name body => exact h
  | _ => exact h.declareIn _ _

end Scopes

/-! ## Types depend on the names of an expression -/

mutual

/-- The names the type of an expression may depend on. -/
def exprNames (e : Expr) : List Ident :=
  match e with
  | .identifier _ (x :: _) => [x]
  | .unary _ sub => exprNames sub
  | .binary _ lhs rhs => exprNames lhs ++ exprNames rhs
  | .conditional _ thenE _ => exprNames thenE
  | .concat parts => exprsNames parts
  | .repeat _ body => exprNames body
  | .fieldAccess obj _ => exprNames obj
  | .structCast typeName _ _ => [typeName]
  | .incDec target _ _ => exprNames target
  | _ => []

def exprsNames (es : List Expr) : List Ident :=
  match es with
  | [] => []
  | e :: es => exprNames e ++ exprsNames es

end

section Congr

variable {find find' : Ident → Option Symbol} {context : ℕ}

mutual

theorem exprType_congr (e : Expr) (h : ∀ x ∈ exprNames e, find x = find' x) :
    exprType find context e = exprType find' context e := by
  cases e with
  | identifier loc name =>
    rcases name with _ | ⟨x, _ | ⟨y, rest⟩⟩
    · rfl
    · simp only [exprType, h x (List.mem_singleton_self x)]
    · simp only [exprType, h x (List.mem_singleton_self x)]
  | unary op sub => simp only [exprType, exprType_congr sub h]
  | binary op lhs rhs =>
    have hl := exprType_congr lhs fun x hx => h x (List.mem_append_left _ hx)
    have hr := exprType_congr rhs fun x hx => h x (List.mem_append_right _ hx)
    simp only [exprType, hl, hr]
  | conditional cond thenE elseE => simp only [exprType, exprType_congr thenE h]
  | concat parts => simp only [exprType, exprTypes_congr parts h]
  | «repeat» count body => simp only [exprType, exprType_congr body h]
  | fieldAccess obj field => simp only [exprType, exprType_congr obj h]
  | structCast typeName sub memberPath =>
    simp only [exprType, h typeName (List.mem_singleton_self typeName)]
  | incDec target op isPrefix => simp only [exprType, exprType_congr target h]
  | _ => simp only [exprType]

theorem exprTypes_congr (es : List Expr) (h : ∀ x ∈ exprsNames es, find x = find' x) :
    exprTypes find context es = exprTypes find' context es := by
  cases es with
  | nil => simp only [exprTypes]
  | cons e es =>
    have he := exprType_congr e fun x hx => h x (List.mem_append_left _ hx)
    have hes := exprTypes_congr es fun x hx => h x (List.mem_append_right _ hx)
    simp only [exprTypes, he, hes]

end

end Congr

/-- The names in the value of a return. -/
def Return.names (r : Return) : List Ident := r.value.elim [] exprNames

theorem findIn_append {outer outer' : List Scope} {x : Ident}
    (h : findIn outer x = findIn outer' x) (inner : List Scope) :
    findIn (inner ++ outer) x = findIn (inner ++ outer') x := by
  induction inner with
  | nil => exact h
  | cons s ss ih => rw [List.cons_append, List.cons_append, findIn_cons, findIn_cons, ih]

theorem Return.type_congr {outer outer' : List Scope} (r : Return)
    (h : ∀ x ∈ r.names, findIn outer x = findIn outer' x) : r.type outer = r.type outer' := by
  cases hv : r.value with
  | none => simp only [Return.type, hv, Option.map_none]
  | some e =>
    have hnames : ∀ x ∈ exprNames e, findIn (r.inner ++ outer) x = findIn (r.inner ++ outer') x := by
      intro x hx
      refine findIn_append (h x ?_) r.inner
      rw [Return.names, hv]
      exact hx
    simp only [Return.type, hv, Option.map_some, exprType_congr e hnames]

/-! ## What the checks of an item ask for -/

/-- The names looked up among the closed scopes. -/
def visitNames (v : Visit) : List Ident :=
  (match v with
    | .stmt (.transfer _ _ lhs _) _ => [headIdentifier lhs]
    | .stmt (.controlCall _ (head :: _ :: _) _) _ => [head]
    | _ => []) ++ (visitSlices v).map fun u => headIdentifier u.sub

def flatNames (d : Decl) : List Ident := (walkDecl d 0).flatMap visitNames

/-- The funcs of an item, by name. -/
def funcNames : Decl → List ScopedName
  | .module _ _ _ _ funcs _ =>
    funcs.filterMap fun f =>
      match f with
      | .funcDefn _ name _ => some name
      | _ => none
  | _ => []

def returnNames : Decl → List Ident
  | .funcDefn _ _ body => (stmtReturns [] body).flatMap Return.names
  | _ => []

/-- The names looked up while the scopes are open, beyond those of the
item itself: of definitions, and in what its funcs return. -/
def fileNames : Decl → List Ident
  | .module _ _ internals _ funcs _ =>
    internals.flatMap definedNames ++ funcs.flatMap fun f => definedNames f ++ returnNames f
  | _ => []

/-- The scopes the pass has open when it reaches what stands behind
`pre`. -/
def fileScopes (cu pre : CompilationUnit) : List Scope :=
  (startWalker.visitDecls cu pre).table.scopes

/-- **The tables of two units answer alike what the checks of `d` ask**,
`d` standing behind `pre` and `pre'` in them. -/
structure AnswersAlike (cu pre cu' pre' : CompilationUnit) (d : Decl) : Prop where
  kinds : ∀ x ∈ flatNames d, (tablesOf cu).kindOf x = (tablesOf cu').kindOf x
  owners : ∀ u ∈ itemStateUses d, (tablesOf cu).owner u.name = (tablesOf cu').owner u.name
  terminals : ∀ f ∈ funcNames d, returnTerminal (tablesOf cu) f = returnTerminal (tablesOf cu') f
  file : ∀ x ∈ fileNames d, findIn (fileScopes cu pre) x = findIn (fileScopes cu' pre') x

/-! ## Each check by what it asks for -/

section Checks

variable {t t' : Tables}

theorem targetKind_congr {lhs : Expr}
    (h : t.kindOf (headIdentifier lhs) = t'.kindOf (headIdentifier lhs)) :
    targetKind t lhs = targetKind t' lhs := by
  rw [targetKind, targetKind, h]

variable {v : Visit} (h : ∀ x ∈ visitNames v, t.kindOf x = t'.kindOf x)
include h

theorem s03_congr : s03 t v = s03 t' v := by
  cases v with
  | decl d ctx => rfl
  | stmt s ctx =>
    cases s with
    | transfer loc op lhs rhs =>
      simp only [s03, targetKind_congr (h _ (List.mem_append_left _ (List.mem_singleton_self _)))]
    | _ => rfl

theorem s12_congr : s12 t v = s12 t' v := by
  cases v with
  | decl d ctx => rfl
  | stmt s ctx =>
    cases s with
    | transfer loc op lhs rhs =>
      simp only [s12, targetKind_congr (h _ (List.mem_append_left _ (List.mem_singleton_self _)))]
    | _ => rfl

theorem s15_congr : s15 t v = s15 t' v := by
  refine List.flatMap_congr fun u hu => ?_
  have hhead : headIdentifier u.sub ∈ visitNames v :=
    List.mem_append_right _ (List.mem_map.2 ⟨u, hu, rfl⟩)
  rw [walkSliceCheck, walkSliceCheck, targetKind_congr (h _ hhead)]

theorem s21_congr : s21 t v = s21 t' v := by
  cases v with
  | decl d ctx => rfl
  | stmt s ctx =>
    cases s with
    | controlCall loc target args =>
      rcases target with _ | ⟨head, _ | ⟨part, rest⟩⟩
      · rfl
      · rfl
      · simp only [s21, h head (List.mem_append_left _ (List.mem_singleton_self _))]
    | _ => rfl

end Checks

/-! ## A module in two units -/

section TwoUnits

variable (cu cu' : CompilationUnit) {outer outer' : List Scope}

/-- Two walkers in the same module: its scope is the same, what is
around it need not be. -/
structure InModule (outer outer' : List Scope) (w w' : Walker) : Prop where
  topped : Topped ⟨.module, []⟩ outer w.table.scopes
  topped' : Topped ⟨.module, []⟩ outer' w'.table.scopes
  alike : Alike outer outer' w.table.scopes w'.table.scopes

theorem topped_visitDecl (cu : CompilationUnit) (d : Decl) {w : Walker} {ss : List Scope}
    (hw : Topped ⟨.module, []⟩ ss w.table.scopes) :
    Topped ⟨.module, []⟩ ss (w.visitDecl cu d).table.scopes := by
  rw [scopes_visitDecl cu d (hw.moduleTop (moduleTop_module ss))]
  obtain ⟨s, hs, hkind⟩ := hw
  obtain ⟨s', hs', hkind'⟩ := topped_itemBindings cu d s ss
  exact ⟨s', by rw [hs, hs'], hkind'.trans hkind⟩

theorem InModule.visitDecl {w w' : Walker} (h : InModule outer outer' w w') (d : Decl)
    (hd : ∀ x ∈ definedNames d, findIn outer x = findIn outer' x) :
    InModule outer outer' (w.visitDecl cu d) (w'.visitDecl cu' d) := by
  refine ⟨topped_visitDecl cu d h.topped, topped_visitDecl cu' d h.topped', ?_⟩
  rw [scopes_visitDecl cu d (h.topped.moduleTop (moduleTop_module outer)),
    scopes_visitDecl cu' d (h.topped'.moduleTop (moduleTop_module outer'))]
  exact Alike.item cu cu' d h.alike hd

theorem InModule.visitDecls (ds : List Decl) {w w' : Walker} (h : InModule outer outer' w w')
    (hds : ∀ x ∈ ds.flatMap definedNames, findIn outer x = findIn outer' x) :
    InModule outer outer' (w.visitDecls cu ds) (w'.visitDecls cu' ds) := by
  induction ds generalizing w w' with
  | nil => simpa only [Walker.visitDecls] using h
  | cons d ds ih =>
    rw [Walker.visitDecls, Walker.visitDecls]
    refine ih (h.visitDecl cu cu' d fun x hx => hds x ?_) fun x hx => hds x ?_
    · exact List.mem_flatMap.2 ⟨d, List.mem_cons_self, hx⟩
    · obtain ⟨d', hd', hx'⟩ := List.mem_flatMap.1 hx
      exact List.mem_flatMap.2 ⟨d', List.mem_cons_of_mem d hd', hx'⟩

theorem InModule.enterFunc {w w' : Walker} (h : InModule outer outer' w w') (loc : Loc)
    (name : ScopedName) (body : Stmt)
    (hd : ∀ x ∈ definedNames (.funcDefn loc name body), findIn outer x = findIn outer' x) :
    Alike outer outer' (enterFunc w loc name).table.scopes (enterFunc w' loc name).table.scopes := by
  have hopen : w.table.scopes ≠ [] := (h.topped.moduleTop (moduleTop_module outer)).open_
  have hopen' : w'.table.scopes ≠ [] := (h.topped'.moduleTop (moduleTop_module outer')).open_
  rcases name with _ | ⟨x, _ | ⟨y, rest⟩⟩
  · exact h.alike
  · simp only [Sema.enterFunc]
    rw [(declareMissing_runs hopen _).scopes, (declareMissing_runs hopen' _).scopes]
    exact h.alike.addMissing _ (hd x (List.mem_singleton_self x))
  · exact h.alike

variable {t t' : Tables}

theorem s22_congr {name : ScopedName} {body : Stmt} {env env' : List Scope}
    (hterm : returnTerminal t name = returnTerminal t' name)
    (hnames : ∀ r ∈ stmtReturns [] body, ∀ x ∈ r.names, findIn env x = findIn env' x) :
    s22 t ⟨name, body, env⟩ = s22 t' ⟨name, body, env'⟩ := by
  rw [s22, s22, hterm]
  refine List.flatMap_congr fun r hr => ?_
  simp only [s22Return, r.type_congr (hnames r hr)]

/-- The returns of a module's funcs are judged alike where the tables and
the file's scope answer alike. -/
theorem openFuncs_congr (ds : List Decl) {w w' : Walker} (h : InModule outer outer' w w')
    (hfile : ∀ x ∈ ds.flatMap (fun f => definedNames f ++ returnNames f),
      findIn outer x = findIn outer' x)
    (hterm : ∀ loc name body, Decl.funcDefn loc name body ∈ ds →
      returnTerminal t name = returnTerminal t' name) :
    (openFuncs cu w ds).flatMap (s22 t) = (openFuncs cu' w' ds).flatMap (s22 t') := by
  induction ds generalizing w w' with
  | nil => rfl
  | cons d ds ih =>
    have hd : ∀ x ∈ definedNames d ++ returnNames d, findIn outer x = findIn outer' x := by
      intro x hx
      exact hfile x (List.mem_flatMap.2 ⟨d, List.mem_cons_self, hx⟩)
    have hstep : InModule outer outer' (w.visitDecl cu d) (w'.visitDecl cu' d) :=
      h.visitDecl cu cu' d fun x hx => hd x (List.mem_append_left _ hx)
    have hrest := ih hstep
      (fun x hx => by
        obtain ⟨d', hd', hx'⟩ := List.mem_flatMap.1 hx
        exact hfile x (List.mem_flatMap.2 ⟨d', List.mem_cons_of_mem d hd', hx'⟩))
      (fun loc name body hmem => hterm loc name body (List.mem_cons_of_mem d hmem))
    cases d with
    | funcDefn loc name body =>
      have henter := h.enterFunc loc name body fun x hx => hd x (List.mem_append_left _ hx)
      have hreturns : ∀ r ∈ stmtReturns [] body, ∀ x ∈ r.names,
          findIn (⟨.function, []⟩ :: (enterFunc w loc name).table.scopes) x =
            findIn (⟨.function, []⟩ :: (enterFunc w' loc name).table.scopes) x := by
        intro r hr x hx
        rw [findIn_fresh, findIn_fresh]
        refine henter.findIn (hd x (List.mem_append_right _ ?_))
        exact List.mem_flatMap.2 ⟨r, hr, hx⟩
      have hone := s22_congr (hterm loc name body List.mem_cons_self) hreturns
      simp only [openFuncs, List.flatMap_cons, hone, hrest]
    | _ => exact hrest

theorem inModule_enterTerminals {name : Ident} (hdeclare : declareOf cu name = declareOf cu' name)
    (w w' : Walker) :
    InModule w.table.scopes w'.table.scopes (enterTerminals cu w name)
      (enterTerminals cu' w' name) := by
  refine ⟨topped_enterTerminals cu w name, topped_enterTerminals cu' w' name, ?_⟩
  unfold enterTerminals
  rw [hdeclare]
  cases declareOf cu' name with
  | none => exact ⟨⟨.module, []⟩, rfl, rfl⟩
  | some d =>
    have hruns := declTerminals_runs (w := w.enterScope .module) (List.cons_ne_nil _ _) d
    have hruns' := declTerminals_runs (w := w'.enterScope .module) (List.cons_ne_nil _ _) d
    simp only [hruns.scopes, hruns'.scopes]
    exact Alike.terminals ⟨⟨.module, []⟩, rfl, rfl⟩ d

end TwoUnits

/-- **An item is judged by the answers to what its checks ask.** -/
theorem itemVerdicts_congr {cu pre cu' pre' : CompilationUnit} {loc : Loc} {name : Ident}
    {internals : List Decl} {actions : List Stmt} {funcs procs : List Decl}
    (hdeclare : declareOf cu name = declareOf cu' name)
    (h : AnswersAlike cu pre cu' pre' (.module loc name internals actions funcs procs)) :
    verdictsIn cu pre (.module loc name internals actions funcs procs) =
      verdictsIn cu' pre' (.module loc name internals actions funcs procs) := by
  have hkinds : ∀ v ∈ walkDecl (.module loc name internals actions funcs procs) 0,
      ∀ x ∈ visitNames v, (tablesOf cu).kindOf x = (tablesOf cu').kindOf x := by
    intro v hv x hx
    exact h.kinds x (List.mem_flatMap.2 ⟨v, hv, hx⟩)
  have hinternals := (inModule_enterTerminals cu cu' hdeclare (startWalker.visitDecls cu pre)
    (startWalker.visitDecls cu' pre')).visitDecls cu cu' internals
    fun x hx => h.file x (List.mem_append_left _ hx)
  have hfuncs := openFuncs_congr cu cu' funcs hinternals
    (fun x hx => h.file x (List.mem_append_right _ hx))
    (fun loc name body hmem => h.terminals name (List.mem_filterMap.2 ⟨_, hmem, rfl⟩))
  have hstates : (itemStateUses (.module loc name internals actions funcs procs)).flatMap
      (s11 (tablesOf cu)) = (itemStateUses (.module loc name internals actions funcs procs)).flatMap
        (s11 (tablesOf cu')) := by
    refine List.flatMap_congr fun u hu => ?_
    simp only [s11, h.owners u hu]
  simp only [verdictsIn, itemVerdicts, itemFuncs, hstates, hfuncs,
    List.flatMap_congr fun v hv => s03_congr (hkinds v hv),
    List.flatMap_congr fun v hv => s12_congr (hkinds v hv),
    List.flatMap_congr fun v hv => s15_congr (hkinds v hv),
    List.flatMap_congr fun v hv => s21_congr (hkinds v hv)]

/-! ## The run and its items -/

theorem walkUnit_eq (cu : CompilationUnit) : walkUnit cu = cu.flatMap fun d => walkDecl d 0 := by
  have hwalk : ∀ ds : List Decl, walkDecls ds 0 = ds.flatMap fun d => walkDecl d 0 := by
    intro ds
    induction ds with
    | nil => simp only [walkDecls, List.flatMap_nil]
    | cons d ds ih => simp only [walkDecls, List.flatMap_cons, ih]
  exact hwalk cu

theorem mem_itemsFrom (cu : CompilationUnit) (ds : List Decl) (w w' : Walker) (d : Decl) :
    (w', d) ∈ itemsFrom cu w ds ↔
      ∃ pre post, ds = pre ++ d :: post ∧ w' = w.visitDecls cu pre := by
  induction ds generalizing w with
  | nil => simp [itemsFrom]
  | cons e es ih =>
    rw [itemsFrom, List.mem_cons, ih]
    constructor
    · rintro (heq | ⟨pre, post, rfl, rfl⟩)
      · obtain ⟨rfl, rfl⟩ := Prod.mk.inj heq
        exact ⟨[], es, rfl, by rw [Walker.visitDecls]⟩
      · exact ⟨e :: pre, post, rfl, by rw [Walker.visitDecls]⟩
    · rintro ⟨pre, post, heq, rfl⟩
      cases pre with
      | nil =>
        obtain ⟨rfl, rfl⟩ := List.cons.inj heq
        exact Or.inl (by rw [Walker.visitDecls])
      | cons e' pre =>
        obtain ⟨rfl, rfl⟩ := List.cons.inj heq
        exact Or.inr ⟨pre, post, rfl, by rw [Walker.visitDecls]⟩

/-- **A run reports what is reported inside the items.** -/
theorem mem_checkUnit (cu : CompilationUnit) (v : Verdict) :
    v ∈ checkUnit cu ↔ ∃ pre d post, cu = pre ++ d :: post ∧ v ∈ verdictsIn cu pre d := by
  have hwalk : ∀ f : Visit → List Verdict, v ∈ (walkUnit cu).flatMap f ↔
      ∃ d ∈ cu, v ∈ (walkDecl d 0).flatMap f := by
    intro f
    rw [walkUnit_eq, List.flatMap_assoc, List.mem_flatMap]
  have hsplit : ∀ P : Decl → Prop, (∃ d ∈ cu, P d) ↔ ∃ pre d post, cu = pre ++ d :: post ∧ P d := by
    intro P
    constructor
    · rintro ⟨d, hd, hP⟩
      obtain ⟨pre, post, hcu⟩ := List.append_of_mem hd
      exact ⟨pre, d, post, hcu, hP⟩
    · rintro ⟨pre, d, post, hcu, hP⟩
      exact ⟨d, by rw [hcu]; exact List.mem_append_right _ List.mem_cons_self, hP⟩
  have hstates : v ∈ (cu.flatMap itemStateUses).flatMap (s11 (tablesOf cu)) ↔
      ∃ d ∈ cu, v ∈ (itemStateUses d).flatMap (s11 (tablesOf cu)) := by
    rw [List.flatMap_assoc, List.mem_flatMap]
  have hfuncs : v ∈ ((itemsFrom cu startWalker cu).flatMap fun i => itemFuncs cu i.1 i.2).flatMap
      (s22 (tablesOf cu)) ↔ ∃ pre d post, cu = pre ++ d :: post ∧
        v ∈ (itemFuncs cu (startWalker.visitDecls cu pre) d).flatMap (s22 (tablesOf cu)) := by
    rw [List.flatMap_assoc, List.mem_flatMap]
    constructor
    · rintro ⟨⟨w, d⟩, hmem, hv⟩
      obtain ⟨pre, post, hcu, rfl⟩ := (mem_itemsFrom cu cu startWalker w d).1 hmem
      exact ⟨pre, d, post, hcu, hv⟩
    · rintro ⟨pre, d, post, hcu, hv⟩
      exact ⟨_, (mem_itemsFrom cu cu startWalker _ d).2 ⟨pre, post, hcu, rfl⟩, hv⟩
  simp only [checkUnit, verdictsIn, itemVerdicts, List.mem_append, hwalk, hstates, hfuncs, hsplit,
    and_or_left, exists_or]

/-! ## The module alone -/

def isDeclareOf (name : Ident) : Decl → Bool
  | .declare n _ _ _ _ _ => n = name
  | _ => false

/-- A struct, or a `declare` of the module. -/
def keptFor (name : Ident) : Decl → Bool
  | .struct _ _ _ => true
  | d => isDeclareOf name d

/-- The unit of the structs, the module's `declare` and the module. -/
def alone (pre : CompilationUnit) (name : Ident) (m : Decl) (post : CompilationUnit) :
    CompilationUnit :=
  pre.filter (keptFor name) ++ m :: post.filter (keptFor name)

/-- What is reported inside the `declare` of a module and inside the
module. -/
def verdictsAbout (cu pre : CompilationUnit) (name : Ident) (m : Decl) : List Verdict :=
  (cu.filter (isDeclareOf name)).flatMap (itemVerdicts cu startWalker) ++ verdictsIn cu pre m

/-- Nothing is checked in a `declare`. -/
theorem itemVerdicts_declare (cu : CompilationUnit) (w : Walker) {name : Ident} {d : Decl}
    (hd : isDeclareOf name d = true) : itemVerdicts cu w d = [] := by
  cases d with
  | declare n modifier clockName resetName headerParams ports =>
    simp [itemVerdicts, walkDecl, itemStateUses, itemFuncs, s03, s12, s15, s21, s22Outside,
      visitSlices, List.flatMap_map]
  | _ => cases hd

theorem verdictsAbout_eq (cu pre : CompilationUnit) (name : Ident) (m : Decl) :
    verdictsAbout cu pre name m = verdictsIn cu pre m := by
  have hnil : (cu.filter (isDeclareOf name)).flatMap (itemVerdicts cu startWalker) = [] := by
    rw [List.flatMap_eq_nil_iff]
    intro d hd
    exact itemVerdicts_declare cu startWalker (List.mem_filter.1 hd).2
  rw [verdictsAbout, hnil, List.nil_append]

/-- The terminals found so far, behind one more item. -/
def findDeclare (name : Ident) (found : Option (List TopLevelParamDecl × List PortDecl))
    (d : Decl) : Option (List TopLevelParamDecl × List PortDecl) :=
  match d with
  | .declare n _ _ _ headerParams ports =>
    if n = name ∧ n ≠ [] then some (headerParams, ports) else found
  | _ => found

theorem declareOf_eq_foldl (cu : CompilationUnit) (name : Ident) :
    declareOf cu name = cu.foldl (findDeclare name) none := rfl

theorem foldl_findDeclare_filter (name : Ident) (ds : List Decl)
    (found : Option (List TopLevelParamDecl × List PortDecl)) :
    (ds.filter (keptFor name)).foldl (findDeclare name) found =
      ds.foldl (findDeclare name) found := by
  induction ds generalizing found with
  | nil => rfl
  | cons d ds ih =>
    by_cases hd : keptFor name d = true
    · rw [List.filter_cons_of_pos hd, List.foldl_cons, List.foldl_cons, ih]
    · have hskip : findDeclare name found d = found := by
        cases d with
        | declare n modifier clockName resetName headerParams ports =>
          have hne : n ≠ name := by simpa [keptFor, isDeclareOf] using hd
          simp only [findDeclare, hne, false_and, if_false]
        | _ => rfl
      rw [List.filter_cons_of_neg hd, List.foldl_cons, hskip, ih]

theorem declareOf_alone (pre : CompilationUnit) (name : Ident) (m : Decl)
    (post : CompilationUnit) :
    declareOf (pre ++ m :: post) name = declareOf (alone pre name m post) name := by
  simp only [declareOf_eq_foldl, alone, List.foldl_append, List.foldl_cons,
    foldl_findDeclare_filter]

theorem verdictsAbout_eq_alone {pre post : CompilationUnit} {loc : Loc} {name : Ident}
    {internals : List Decl} {actions : List Stmt} {funcs procs : List Decl}
    (h : AnswersAlike (pre ++ .module loc name internals actions funcs procs :: post) pre
      (alone pre name (.module loc name internals actions funcs procs) post)
      (pre.filter (keptFor name)) (.module loc name internals actions funcs procs)) :
    verdictsAbout (pre ++ .module loc name internals actions funcs procs :: post) pre name
        (.module loc name internals actions funcs procs) =
      verdictsAbout (alone pre name (.module loc name internals actions funcs procs) post)
        (pre.filter (keptFor name)) name (.module loc name internals actions funcs procs) := by
  rw [verdictsAbout_eq, verdictsAbout_eq]
  exact itemVerdicts_congr (declareOf_alone pre name _ post) h

/-- A module that declares `r` and transfers one to it. -/
def counterModule (name : Text) (r : Decl) (op : TransferOp) : Decl :=
  .module 0 name [r] [.transfer 20 op (.identifier 20 ["r".toList]) (.literal .decimal ['1'])] [] []

def regModule : Decl := counterModule ['a'] (.reg 10 "r".toList none none) .regColonEq

def wireModule : Decl := counterModule ['b'] (.wire 40 "r".toList none) .wireEq

end Sema

end Nslc
