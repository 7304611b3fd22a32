import Nslc.Sema.Inference
/-!
# Sema — the expressions the pass types

Where the resolution pass comes by the expressions of a unit: those it
visits, with the table and the width asked for there; those in a
declaration whose name is taken, which it drops; and those it does not
look at, among the declarations of a block and before a `generate`. Only
the first have a type. `widthsExact_iff` says in which units every
expression has one, of the width its parts give it.
-/

namespace Nslc

namespace Sema

open AST

/-! ## Sites -/

/-- An expression of a unit, as the pass comes by it. -/
inductive Site where
  /-- Visited with this table and this width asked for. -/
  | visited (table : SymbolTable) (context : ℕ) (e : Expr)
  /-- In a declaration whose name is taken. -/
  | refused (e : Expr)
  | unseen (e : Expr)

namespace Site

def expr : Site → Expr
  | .visited _ _ e | .refused e | .unseen e => e

def unseen? : Site → Option Expr
  | .unseen e => some e
  | _ => none

end Site

/-- The expressions a node holds itself. -/
def Node.exprs : Node → List Expr
  | .decl (.topLevelParam p) => p.init.toList
  | .decl (.struct _ _ members) => members.filterMap StructMember.width
  | .decl (.port p) => p.width.toList
  | .decl d => blockExprs d
  | .stmt (.transfer _ _ lhs rhs) => [lhs, rhs]
  | .stmt (.incDec target _ _) => [target]
  | .stmt (.controlCall _ _ args) | .stmt (.systemTask _ args) => args
  | .stmt (.return _ value) => value.toList
  | .stmt (.delayTask count) => [count]
  | .stmt (.alt cases _) | .stmt (.any cases _) => cases.map fun ⟨cond, _⟩ => cond
  | .stmt (.while cond _) | .stmt (.for _ cond _ _) | .stmt (.if cond _ _) => [cond]
  | .stmt (.generate _ _ initValue cond step _) => [initValue, cond, step]
  | .stmt _ => []

/-- The expressions of a declaration and of the bodies in it. -/
def exprsIn (ns : List Node) : List Expr := ns.flatMap Node.exprs

namespace Walker

def visits (w : Walker) (es : List Expr) : List Site := es.map (.visited w.table 0)

mutual

def stmtSites (w : Walker) (s : Stmt) : List Site :=
  match s with
  | .transfer _ _ lhs rhs =>
    -- the right side is read at the width of the left
    [.visited w.table 0 lhs,
      .visited w.table (exprType w.table.lookup 0 lhs).bitWidth rhs]
  | .incDec target _ _ => w.visits [target]
  | .controlCall _ _ args => w.visits args
  | .bareFinish _ | .empty | .goto _ => []
  | .systemTask _ args => w.visits args
  | .return _ value => w.visits value.toList
  | .labeled _ body => stmtSites? w body
  | .initBlock items => stmtsSites (w.enterScope .seqOrParallel) items
  | .delayTask count => w.visits [count]
  | .parallel items decls | .seq items decls =>
    stmtsSites (w.enterScope .seqOrParallel) items ++ (exprsIn (declsNodes decls)).map .unseen
  | .alt cases elseCase | .any cases elseCase =>
    casesSites (w.enterScope .seqOrParallel) cases ++
      stmtSites? ((w.enterScope .seqOrParallel).visitCases cases) elseCase
  | .while cond items =>
    let w := w.enterScope .seqOrParallel
    w.visits [cond] ++ stmtsSites (w.visitExpr cond) items
  | .for init cond step items =>
    let w := w.enterScope .seqOrParallel
    let w₁ := w.visitStmt init
    let w₂ := w₁.visitExpr cond
    stmtSites w init ++ w₁.visits [cond] ++ stmtSites? w₂ step ++
      stmtsSites (w₂.visitStmt? step) items
  | .if cond thenBr elseBr =>
    let w₁ := w.visitExpr cond
    w.visits [cond] ++ stmtSites w₁ thenBr ++ stmtSites? (w₁.visitStmt thenBr) elseBr
  | .generate loc init initValue cond step body =>
    let w := (w.enterScope .seqOrParallel).declareLoopVar loc init
    .unseen initValue :: (w.visits [cond, step] ++
      stmtSites ((w.visitExpr cond).visitExpr step) body)

def stmtsSites (w : Walker) (ss : List Stmt) : List Site :=
  match ss with
  | [] => []
  | s :: ss => stmtSites w s ++ stmtsSites (w.visitStmt s) ss

def stmtSites? (w : Walker) (s : Option Stmt) : List Site :=
  match s with
  | none => []
  | some s => stmtSites w s

def casesSites (w : Walker) (cs : List CondCase) : List Site :=
  match cs with
  | [] => []
  | ⟨cond, body⟩ :: cs =>
    let w₁ := w.visitExpr cond
    w.visits [cond] ++ stmtSites w₁ body ++ casesSites (w₁.visitStmt body) cs

end

/-! ### Declarations -/

/-- The expressions of `declareThen`. -/
def declareSites (w : Walker) (sym : Symbol) (exprs : List Expr) : List Site :=
  match w.table.declare sym with
  | some t => exprs.map (.visited t 0)
  | none => exprs.map .refused

def paramSites (w : Walker) (p : TopLevelParamDecl) : List Site :=
  let t := (w.table.declare ⟨.integer, p.name, p.loc, none⟩).getD w.table
  p.init.toList.map (.visited t 0)

/-- The symbol `declPort` declares. -/
def portSymbol (p : PortDecl) : Symbol :=
  let width := declaredWidth p.width
  let type := if width = 0 then Ty.bit else Ty.bitVector width
  ⟨portKind p.direction, p.name, p.loc, some type⟩

def portSites (w : Walker) (p : PortDecl) : List Site :=
  w.declareSites (portSymbol p) p.width.toList

/-- One after the other, the walker threaded through. -/
def threadSites {α : Type} (sites : Walker → α → List Site) (next : Walker → α → Walker) :
    Walker → List α → List Site
  | _, [] => []
  | w, a :: as => sites w a ++ threadSites sites next (next w a) as

def terminalSites (w : Walker) (d : List TopLevelParamDecl × List PortDecl) : List Site :=
  threadSites paramSites declTopLevelParam w d.1 ++
    threadSites portSites declPort (d.1.foldl declTopLevelParam w) d.2

def instanceSites (w : Walker) (loc : Loc) (i : Instance) : List Site :=
  w.declareSites ⟨.submodule, i.name, loc, some .bit⟩ i.arraySize.toList

mutual

def declSites (cu : CompilationUnit) (w : Walker) (d : Decl) : List Site :=
  match d with
  | .topLevelParam p => w.paramSites p
  | .struct loc name members =>
    w.declareSites ⟨.structType, name, loc, some (.struct name (structWidth members))⟩
      (members.filterMap StructMember.width)
  | .declare _ _ _ _ headerParams ports =>
    (w.enterScope .declare).terminalSites (headerParams, ports)
  | .module _ name internals actions funcs procs =>
    -- the terminals of the matching `declare` are visited here once more
    let w₀ := enterTerminals cu w name
    let w₁ := w₀.visitDecls cu internals
    let w₂ := w₁.visitDecls cu funcs
    (declareOf cu name).elim [] (w.enterScope .module).terminalSites ++
      declsSites cu w₀ internals ++ declsSites cu w₁ funcs ++ declsSites cu w₂ procs ++
      stmtsSites (w₂.visitDecls cu procs) actions
  | .port p => w.portSites p
  | .reg loc name width init =>
    w.declareSites ⟨.reg, name, loc, some (.bitVector (widthOr1 width))⟩
      (width.toList ++ init.toList)
  | .wire loc name width =>
    w.declareSites ⟨.wire, name, loc, some (.bitVector (widthOr1 width))⟩ width.toList
  | .variable loc name width =>
    w.declareSites ⟨.variable, name, loc, some (.bitVector (widthOr1 width))⟩ width.toList
  | .mem loc name depth width init =>
    w.declareSites ⟨.mem, name, loc, some (.memory (widthOr1 depth) (widthOr1 width))⟩
      (depth :: width :: init)
  | .integer _ _ | .funcSelf _ _ _ _ | .procName _ _ _ | .stateName _ _ | .firstState _ => []
  | .submodule loc _ instances paramAssigns =>
    threadSites (instanceSites · loc) (fun w i => w.declInstances loc [i]) w instances ++
      (w.declInstances loc instances).visits (paramAssigns.map ParamAssign.value)
  | .structInst loc _ instanceName _ arraySize init =>
    w.declareSites ⟨.reg, instanceName, loc, some (.bitVector 1)⟩ (arraySize.toList ++ init)
  | .funcDefn loc name body => stmtSites ((enterFunc w loc name).enterScope .function) body
  | .procDefn loc name body =>
    stmtSites ((w.declareMissing ⟨.proc, name, loc, some .bit⟩).enterScope .proc) body
  | .stateDefn _ _ body => stmtSites (w.enterScope .seqOrParallel) body

def declsSites (cu : CompilationUnit) (w : Walker) (ds : List Decl) : List Site :=
  match ds with
  | [] => []
  | d :: ds => declSites cu w d ++ declsSites cu (w.visitDecl cu d) ds

end

end Walker

/-- The expressions of a unit, as the pass comes by them. -/
def unitSites (cu : CompilationUnit) : List Site :=
  let w : Walker := ⟨⟨[], []⟩, [], [], []⟩
  (w.enterScope .global).declsSites cu cu

/-! ## Every expression has a site -/

namespace Walker

@[simp] theorem map_expr_visits (w : Walker) (es : List Expr) :
    (w.visits es).map Site.expr = es := by
  simp [visits, Function.comp_def, Site.expr]

@[simp] theorem map_expr_unseen (es : List Expr) : (es.map Site.unseen).map Site.expr = es := by
  simp [Function.comp_def, Site.expr]

@[simp] theorem map_expr_declareSites (w : Walker) (sym : Symbol) (es : List Expr) :
    (w.declareSites sym es).map Site.expr = es := by
  unfold declareSites
  split <;> simp [Function.comp_def, Site.expr]

theorem exprsIn_append (ns ms : List Node) : exprsIn (ns ++ ms) = exprsIn ns ++ exprsIn ms :=
  List.flatMap_append

theorem exprsIn_cons (n : Node) (ns : List Node) : exprsIn (n :: ns) = n.exprs ++ exprsIn ns :=
  List.flatMap_cons

mutual

/-- The sites of a statement are those of its expressions. -/
theorem mem_stmtSites (w : Walker) (s : Stmt) (e : Expr) :
    e ∈ (w.stmtSites s).map Site.expr ↔ e ∈ exprsIn (stmtNodes s) := by
  cases s with
  | transfer loc op lhs rhs => simp [stmtSites, stmtNodes, exprsIn, Node.exprs, Site.expr]
  | labeled label body =>
    have hbody := mem_stmtSites? w body e
    simp only [stmtSites, stmtNodes, exprsIn_cons, Node.exprs, List.nil_append]
    exact hbody
  | initBlock items =>
    have hitems := mem_stmtsSites (w.enterScope .seqOrParallel) items e
    simp only [stmtSites, stmtNodes, exprsIn_cons, Node.exprs, List.nil_append]
    exact hitems
  | parallel items decls =>
    have hitems := mem_stmtsSites (w.enterScope .seqOrParallel) items e
    simp only [stmtSites, stmtNodes, exprsIn_cons, exprsIn_append, Node.exprs, List.nil_append,
      List.map_append, map_expr_unseen, List.mem_append, hitems]
  | seq items decls =>
    have hitems := mem_stmtsSites (w.enterScope .seqOrParallel) items e
    simp only [stmtSites, stmtNodes, exprsIn_cons, exprsIn_append, Node.exprs, List.nil_append,
      List.map_append, map_expr_unseen, List.mem_append, hitems]
  | alt cases elseCase =>
    have hcases := mem_casesSites (w.enterScope .seqOrParallel) cases e
    have helse := mem_stmtSites? ((w.enterScope .seqOrParallel).visitCases cases) elseCase e
    simp only [stmtSites, stmtNodes, exprsIn_cons, exprsIn_append, Node.exprs,
      List.map_append, List.mem_append, hcases, helse, or_assoc]
  | any cases elseCase =>
    have hcases := mem_casesSites (w.enterScope .seqOrParallel) cases e
    have helse := mem_stmtSites? ((w.enterScope .seqOrParallel).visitCases cases) elseCase e
    simp only [stmtSites, stmtNodes, exprsIn_cons, exprsIn_append, Node.exprs,
      List.map_append, List.mem_append, hcases, helse, or_assoc]
  | «while» cond items =>
    have hitems := mem_stmtsSites ((w.enterScope .seqOrParallel).visitExpr cond) items e
    simp only [stmtSites, stmtNodes, exprsIn_cons, Node.exprs, List.map_append, map_expr_visits,
      List.mem_append, hitems]
  | «for» init cond step items =>
    have hinit := mem_stmtSites (w.enterScope .seqOrParallel) init e
    have hstep := mem_stmtSites? (((w.enterScope .seqOrParallel).visitStmt init).visitExpr cond)
      step e
    have hitems := mem_stmtsSites ((((w.enterScope .seqOrParallel).visitStmt init).visitExpr
      cond).visitStmt? step) items e
    simp only [stmtSites, stmtNodes, exprsIn_cons, exprsIn_append, Node.exprs, List.map_append,
      map_expr_visits, List.mem_append, hinit, hstep, hitems]
    tauto
  | «if» cond thenBr elseBr =>
    have hthen := mem_stmtSites (w.visitExpr cond) thenBr e
    have helse := mem_stmtSites? ((w.visitExpr cond).visitStmt thenBr) elseBr e
    simp only [stmtSites, stmtNodes, exprsIn_cons, exprsIn_append, Node.exprs, List.map_append,
      map_expr_visits, List.mem_append, hthen, helse, or_assoc]
  | generate loc init initValue cond step body =>
    have hbody := mem_stmtSites ((((w.enterScope .seqOrParallel).declareLoopVar loc init).visitExpr
      cond).visitExpr step) body e
    simp only [stmtSites, stmtNodes, exprsIn_cons, Node.exprs, List.map_cons, List.map_append,
      map_expr_visits, List.mem_append, List.mem_cons, hbody, Site.expr]
    tauto
  | _ => simp [stmtSites, stmtNodes, exprsIn, Node.exprs]

theorem mem_stmtsSites (w : Walker) (ss : List Stmt) (e : Expr) :
    e ∈ (w.stmtsSites ss).map Site.expr ↔ e ∈ exprsIn (stmtsNodes ss) := by
  cases ss with
  | nil => exact Iff.rfl
  | cons s ss =>
    simp only [stmtsSites, stmtsNodes, exprsIn_append, List.map_append, List.mem_append]
    rw [mem_stmtSites w s e, mem_stmtsSites (w.visitStmt s) ss e]

theorem mem_stmtSites? (w : Walker) (s : Option Stmt) (e : Expr) :
    e ∈ (w.stmtSites? s).map Site.expr ↔ e ∈ exprsIn (stmtNodes? s) := by
  cases s with
  | none => exact Iff.rfl
  | some s => exact mem_stmtSites w s e

theorem mem_casesSites (w : Walker) (cs : List CondCase) (e : Expr) :
    e ∈ (w.casesSites cs).map Site.expr ↔
      (e ∈ cs.map fun ⟨cond, _⟩ => cond) ∨ e ∈ exprsIn (casesNodes cs) := by
  cases cs with
  | nil => simp [casesSites, casesNodes, exprsIn]
  | cons c cs =>
    obtain ⟨cond, body⟩ := c
    have hbody := mem_stmtSites (w.visitExpr cond) body e
    have hcases := mem_casesSites ((w.visitExpr cond).visitStmt body) cs e
    simp only [casesSites, casesNodes, exprsIn_append, List.map_append, map_expr_visits,
      List.mem_append, List.mem_cons, List.map_cons, List.not_mem_nil, or_false, hbody, hcases]
    tauto

end

theorem map_expr_threadSites {α : Type} {sites : Walker → α → List Site}
    {next : Walker → α → Walker} {exprs : α → List Expr}
    (h : ∀ w a, (sites w a).map Site.expr = exprs a) (w : Walker) (as : List α) :
    (threadSites sites next w as).map Site.expr = as.flatMap exprs := by
  induction as generalizing w with
  | nil => rfl
  | cons a as ih => rw [threadSites, List.map_append, h, ih, List.flatMap_cons]

theorem map_expr_terminalSites (w : Walker) (d : List TopLevelParamDecl × List PortDecl) :
    (w.terminalSites d).map Site.expr =
      d.1.flatMap (fun p => p.init.toList) ++ d.2.flatMap fun p => p.width.toList := by
  rw [terminalSites, List.map_append]
  congr 1
  · refine map_expr_threadSites (fun w p => ?_) _ _
    simp [paramSites, Function.comp_def, Site.expr]
  · refine map_expr_threadSites (fun w p => ?_) _ _
    exact map_expr_declareSites w (portSymbol p) p.width.toList

mutual

/-- Every expression of a declaration has a site. -/
theorem mem_declSites (cu : CompilationUnit) (w : Walker) (d : Decl) {e : Expr}
    (h : e ∈ exprsIn (declNodes d)) : e ∈ (declSites cu w d).map Site.expr := by
  cases d with
  | topLevelParam p =>
    simpa [declNodes, exprsIn, Node.exprs, declSites, paramSites, Function.comp_def,
      Site.expr] using h
  | declare name modifier clockName resetName headerParams ports =>
    rw [declSites, map_expr_terminalSites]
    simpa only [declNodes, exprsIn, Node.exprs, blockExprs, List.flatMap_cons, List.nil_append,
      List.flatMap_append, List.flatMap_map] using h
  | module loc name internals actions funcs procs =>
    simp only [declNodes, exprsIn_cons, exprsIn_append, Node.exprs, blockExprs, List.nil_append,
      List.mem_append] at h
    simp only [declSites, List.map_append, List.mem_append]
    rcases h with ((h | h) | h) | h
    · exact .inl (.inl (.inl (.inr (mem_declsSites cu _ internals h))))
    · exact .inl (.inl (.inr (mem_declsSites cu _ funcs h)))
    · exact .inl (.inr (mem_declsSites cu _ procs h))
    · exact .inr ((mem_stmtsSites _ actions e).2 h)
  | funcDefn loc name body => exact (mem_stmtSites _ body e).2 h
  | procDefn loc name body => exact (mem_stmtSites _ body e).2 h
  | stateDefn loc name body => exact (mem_stmtSites _ body e).2 h
  | submodule loc templateName instances paramAssigns =>
    have hinstances : (threadSites (instanceSites · loc) (fun w i => w.declInstances loc [i])
        w instances).map Site.expr = instances.flatMap fun i => i.arraySize.toList := by
      refine map_expr_threadSites (fun w i => ?_) w instances
      exact map_expr_declareSites w _ i.arraySize.toList
    rw [declSites, List.map_append, map_expr_visits, hinstances]
    simpa [declNodes, exprsIn, Node.exprs, blockExprs] using h
  | port p => simpa [declNodes, exprsIn, Node.exprs, declSites, portSites] using h
  | struct loc name members => simpa [declNodes, exprsIn, Node.exprs, declSites] using h
  | reg | wire | «variable» | mem | structInst =>
    simpa [declNodes, exprsIn, Node.exprs, blockExprs, declSites] using h
  | _ => simp [declNodes, exprsIn, Node.exprs, blockExprs] at h

theorem mem_declsSites (cu : CompilationUnit) (w : Walker) (ds : List Decl) {e : Expr}
    (h : e ∈ exprsIn (declsNodes ds)) : e ∈ (declsSites cu w ds).map Site.expr := by
  cases ds with
  | nil => exact h
  | cons d ds =>
    rw [declsNodes, exprsIn_append] at h
    rw [declsSites, List.map_append]
    rcases List.mem_append.1 h with h | h
    · exact List.mem_append_left _ (mem_declSites cu w d h)
    · exact List.mem_append_right _ (mem_declsSites cu (w.visitDecl cu d) ds h)

end

end Walker

/-! ## The expressions that are not looked at -/

mutual

/-- The declarations of blocks, and the values before a `generate`. -/
def unseenStmt (s : Stmt) : List Expr :=
  match s with
  | .parallel items decls | .seq items decls =>
    unseenStmts items ++ exprsIn (declsNodes decls)
  | .alt cases elseCase | .any cases elseCase => unseenCases cases ++ unseenStmt? elseCase
  | .if _ thenBr elseBr => unseenStmt thenBr ++ unseenStmt? elseBr
  | .while _ items | .initBlock items => unseenStmts items
  | .for init _ step items => unseenStmt init ++ unseenStmt? step ++ unseenStmts items
  | .labeled _ body => unseenStmt? body
  | .generate _ _ initValue _ _ body => initValue :: unseenStmt body
  | _ => []

def unseenStmts (ss : List Stmt) : List Expr :=
  match ss with
  | [] => []
  | s :: ss => unseenStmt s ++ unseenStmts ss

def unseenStmt? (s : Option Stmt) : List Expr :=
  match s with
  | none => []
  | some s => unseenStmt s

def unseenCases (cs : List CondCase) : List Expr :=
  match cs with
  | [] => []
  | ⟨_, body⟩ :: cs => unseenStmt body ++ unseenCases cs

end

mutual

def unseenDecl (d : Decl) : List Expr :=
  match d with
  | .module _ _ internals actions funcs procs =>
    unseenDecls internals ++ unseenDecls funcs ++ unseenDecls procs ++ unseenStmts actions
  | .funcDefn _ _ body | .procDefn _ _ body | .stateDefn _ _ body => unseenStmt body
  | _ => []

def unseenDecls (ds : List Decl) : List Expr :=
  match ds with
  | [] => []
  | d :: ds => unseenDecl d ++ unseenDecls ds

end

namespace Walker

@[simp] theorem filterMap_unseen_visits (w : Walker) (es : List Expr) :
    (w.visits es).filterMap Site.unseen? = [] := by
  simp [visits, List.filterMap_map, Function.comp_def, Site.unseen?]

@[simp] theorem filterMap_unseen_declareSites (w : Walker) (sym : Symbol) (es : List Expr) :
    (w.declareSites sym es).filterMap Site.unseen? = [] := by
  unfold declareSites
  split <;> simp [List.filterMap_map, Function.comp_def, Site.unseen?]

mutual

theorem unseen_stmtSites (w : Walker) (s : Stmt) :
    (w.stmtSites s).filterMap Site.unseen? = unseenStmt s := by
  cases s with
  | transfer loc op lhs rhs => simp [stmtSites, unseenStmt, Site.unseen?]
  | labeled label body => simp [stmtSites, unseenStmt, unseen_stmtSites? _ body]
  | initBlock items => simp [stmtSites, unseenStmt, unseen_stmtsSites _ items]
  | parallel items decls =>
    simp [stmtSites, unseenStmt, unseen_stmtsSites _ items, Function.comp_def, Site.unseen?]
  | seq items decls =>
    simp [stmtSites, unseenStmt, unseen_stmtsSites _ items, Function.comp_def, Site.unseen?]
  | alt cases elseCase =>
    simp [stmtSites, unseenStmt, unseen_casesSites _ cases, unseen_stmtSites? _ elseCase]
  | any cases elseCase =>
    simp [stmtSites, unseenStmt, unseen_casesSites _ cases, unseen_stmtSites? _ elseCase]
  | «while» cond items => simp [stmtSites, unseenStmt, unseen_stmtsSites _ items]
  | «for» init cond step items =>
    simp [stmtSites, unseenStmt, unseen_stmtSites _ init, unseen_stmtSites? _ step,
      unseen_stmtsSites _ items]
  | «if» cond thenBr elseBr =>
    simp [stmtSites, unseenStmt, unseen_stmtSites _ thenBr, unseen_stmtSites? _ elseBr]
  | generate loc init initValue cond step body =>
    simp [stmtSites, unseenStmt, unseen_stmtSites _ body, Site.unseen?]
  | _ => simp [stmtSites, unseenStmt]

theorem unseen_stmtsSites (w : Walker) (ss : List Stmt) :
    (w.stmtsSites ss).filterMap Site.unseen? = unseenStmts ss := by
  cases ss with
  | nil => rfl
  | cons s ss =>
    simp [stmtsSites, unseenStmts, unseen_stmtSites w s, unseen_stmtsSites (w.visitStmt s) ss]

theorem unseen_stmtSites? (w : Walker) (s : Option Stmt) :
    (w.stmtSites? s).filterMap Site.unseen? = unseenStmt? s := by
  cases s with
  | none => rfl
  | some s => exact unseen_stmtSites w s

theorem unseen_casesSites (w : Walker) (cs : List CondCase) :
    (w.casesSites cs).filterMap Site.unseen? = unseenCases cs := by
  cases cs with
  | nil => rfl
  | cons c cs =>
    obtain ⟨cond, body⟩ := c
    simp [casesSites, unseenCases, unseen_stmtSites _ body, unseen_casesSites _ cs]

end

theorem unseen_threadSites {α : Type} {sites : Walker → α → List Site}
    {next : Walker → α → Walker} (h : ∀ w a, (sites w a).filterMap Site.unseen? = [])
    (w : Walker) (as : List α) : (threadSites sites next w as).filterMap Site.unseen? = [] := by
  induction as generalizing w with
  | nil => rfl
  | cons a as ih => rw [threadSites, List.filterMap_append, h, ih, List.append_nil]

theorem unseen_paramSites (w : Walker) (p : TopLevelParamDecl) :
    (w.paramSites p).filterMap Site.unseen? = [] := by
  simp [paramSites, List.filterMap_map, Function.comp_def, Site.unseen?]

theorem unseen_portSites (w : Walker) (p : PortDecl) :
    (w.portSites p).filterMap Site.unseen? = [] :=
  filterMap_unseen_declareSites w (portSymbol p) p.width.toList

theorem unseen_terminalSites (w : Walker) (d : List TopLevelParamDecl × List PortDecl) :
    (w.terminalSites d).filterMap Site.unseen? = [] := by
  rw [terminalSites, List.filterMap_append, unseen_threadSites unseen_paramSites,
    unseen_threadSites unseen_portSites, List.append_nil]

mutual

theorem unseen_declSites (cu : CompilationUnit) (w : Walker) (d : Decl) :
    (declSites cu w d).filterMap Site.unseen? = unseenDecl d := by
  cases d with
  | topLevelParam p => exact unseen_paramSites w p
  | declare name modifier clockName resetName headerParams ports =>
    exact unseen_terminalSites _ (headerParams, ports)
  | module loc name internals actions funcs procs =>
    have hdeclare : ((declareOf cu name).elim [] (w.enterScope .module).terminalSites).filterMap
        Site.unseen? = [] := by
      cases declareOf cu name with
      | none => rfl
      | some d => exact unseen_terminalSites _ d
    simp [declSites, unseenDecl, hdeclare, unseen_declsSites cu _ internals,
      unseen_declsSites cu _ funcs, unseen_declsSites cu _ procs, unseen_stmtsSites _ actions]
  | funcDefn loc name body => exact unseen_stmtSites _ body
  | procDefn loc name body => exact unseen_stmtSites _ body
  | stateDefn loc name body => exact unseen_stmtSites _ body
  | submodule loc templateName instances paramAssigns =>
    have hinstances : (threadSites (instanceSites · loc) (fun w i => w.declInstances loc [i])
        w instances).filterMap Site.unseen? = [] := by
      refine unseen_threadSites (fun w i => ?_) w instances
      exact filterMap_unseen_declareSites w _ i.arraySize.toList
    simp [declSites, unseenDecl, hinstances]
  | port p => simp [declSites, portSites, unseenDecl]
  | _ => simp [declSites, unseenDecl]

theorem unseen_declsSites (cu : CompilationUnit) (w : Walker) (ds : List Decl) :
    (declsSites cu w ds).filterMap Site.unseen? = unseenDecls ds := by
  cases ds with
  | nil => rfl
  | cons d ds =>
    simp [declsSites, unseenDecls, unseen_declSites cu w d,
      unseen_declsSites cu (w.visitDecl cu d) ds]

end

end Walker

/-! ## Widths of a unit -/

/-- The terminals, registers and wires a unit declares, each with the
width of its declaration. -/
def Node.terminal? : Node → Option Terminal
  | .decl (.port p) =>
    if Walker.portKind p.direction = .port ∨ Walker.portKind p.direction = .wire then
      some (Walker.portSymbol p, p.width)
    else none
  | .decl (.reg loc name width _) =>
    some (⟨.reg, name, loc, some (.bitVector (widthOr1 width))⟩, width)
  | .decl (.wire loc name width) =>
    some (⟨.wire, name, loc, some (.bitVector (widthOr1 width))⟩, width)
  | _ => none

def terminals (cu : CompilationUnit) : List Terminal := (declsNodes cu).filterMap Node.terminal?

theorem terminalTyped_portSymbol (p : PortDecl) :
    TerminalTyped (Walker.portSymbol p, p.width) := by
  by_cases hw : declaredWidth p.width = 0
  · exact ⟨.bit, by simp [Walker.portSymbol, hw], .inl rfl, by simp [widthOr1, hw, Ty.width]⟩
  · exact ⟨.bitVector (declaredWidth p.width), by simp [Walker.portSymbol, hw], .inr ⟨_, rfl⟩,
      by simp [widthOr1, hw, Ty.width]⟩

theorem terminalTyped_of_mem {cu : CompilationUnit} {t : Terminal} (h : t ∈ terminals cu) :
    TerminalTyped t := by
  obtain ⟨n, -, hn⟩ := List.mem_filterMap.1 h
  unfold Node.terminal? at hn
  split at hn
  · next p =>
    split_ifs at hn
    obtain rfl := Option.some.inj hn
    exact terminalTyped_portSymbol p
  · obtain rfl := Option.some.inj hn
    exact ⟨_, rfl, .inr ⟨_, rfl⟩, rfl⟩
  · obtain rfl := Option.some.inj hn
    exact ⟨_, rfl, .inr ⟨_, rfl⟩, rfl⟩
  · cases hn

/-- **Inferred widths are exact**: every expression of the unit has a
type, and every part of one whose names are terminals and whose bounds
and counts are decimal literals has the width its parts give it. -/
structure WidthsExact (cu : CompilationUnit) : Prop where
  typed : ∀ e, .unseen e ∉ unitSites cu ∧ .refused e ∉ unitSites cu
  exact : ∀ table context e, .visited table context e ∈ unitSites cu → ∀ s, Within s e →
    Declared (terminals cu) table.lookup s → Exact (terminals cu) table.lookup context s

theorem unseenDecls_eq_nil_iff (cu : CompilationUnit) :
    unseenDecls cu = [] ↔ ∀ e, .unseen e ∉ unitSites cu := by
  rw [← Walker.unseen_declsSites cu _ cu, List.filterMap_eq_nil_iff]
  constructor
  · intro h e he
    exact absurd (h _ he) (by simp [Site.unseen?])
  · intro h site hsite
    cases site with
    | unseen e => exact absurd hsite (h e)
    | _ => rfl

/-- Inferred widths are exact in the units without a `generate` and
without expressions among a block's declarations, where no declaration
with an expression has a name that is taken, and where every node reads
its parts in full. -/
theorem widthsExact_iff (cu : CompilationUnit) :
    WidthsExact cu ↔ unseenDecls cu = [] ∧ (∀ e, .refused e ∉ unitSites cu) ∧
      ∀ table context e, .visited table context e ∈ unitSites cu → ∀ s, Within s e →
        Declared (terminals cu) table.lookup s →
          NodeExact (terminals cu) table.lookup context s := by
  have hnodes : ∀ (table : SymbolTable) context e,
      (∀ s, Within s e → Declared (terminals cu) table.lookup s →
        Exact (terminals cu) table.lookup context s) ↔
      ∀ s, Within s e → Declared (terminals cu) table.lookup s →
        NodeExact (terminals cu) table.lookup context s :=
    fun table context e => forall_exact_iff (fun t ht => terminalTyped_of_mem ht) e
  rw [unseenDecls_eq_nil_iff]
  constructor
  · intro h
    refine ⟨fun e => (h.typed e).1, fun e => (h.typed e).2, ?_⟩
    intro table context e he
    exact (hnodes table context e).1 (h.exact table context e he)
  · rintro ⟨hunseen, hrefused, hexact⟩
    refine ⟨fun e => ⟨hunseen e, hrefused e⟩, ?_⟩
    intro table context e he
    exact (hnodes table context e).2 (hexact table context e he)

/-- `{p, q}`, less the places. -/
def pairExpr : Expr := .concat [.identifier 5 [['p']], .identifier 6 [['q']]]

/-- `declare m { input p; input q; output r[2]; } module m { r = {p, q}; }`. -/
def pairUnit : CompilationUnit :=
  [.declare ['m'] .none [] [] []
      [⟨0, .input, ['p'], none, [], []⟩, ⟨1, .input, ['q'], none, [], []⟩,
        ⟨2, .output, ['r'], some (.literal .decimal ['2']), [], []⟩],
    .module 3 ['m'] [] [.transfer 4 .wireEq (.identifier 4 [['r']]) pairExpr] [] []]

/-- The table the concatenation is visited with. -/
def pairTable : SymbolTable :=
  let ports : List Symbol := [⟨.port, ['p'], 0, some .bit⟩, ⟨.port, ['q'], 1, some .bit⟩,
    ⟨.port, ['r'], 2, some (.bitVector 2)⟩]
  ⟨[⟨.module, ports⟩, ⟨.global, []⟩], [⟨.declare, ports⟩]⟩

theorem declared_pairExpr : Declared (terminals pairUnit) pairTable.lookup pairExpr := by
  intro s hs
  cases hs with
  | refl => trivial
  | child hc hs =>
    simp only [pairExpr, children, List.mem_cons, List.not_mem_nil, or_false] at hc
    rcases hc with rfl | rfl
    · cases hs with
      | refl => exact ⟨_, rfl, by simp⟩
      | child hc _ => simp [children] at hc
    · cases hs with
      | refl => exact ⟨_, rfl, by simp⟩
      | child hc _ => simp [children] at hc

/-- Two terminals without a width make one bit. -/
theorem not_widthsExact_pairUnit : ¬ WidthsExact pairUnit := by
  intro h
  have hmem : .visited pairTable 2 pairExpr ∈ unitSites pairUnit :=
    List.mem_of_getElem? (i := 3) rfl
  have hexact := h.exact _ _ _ hmem pairExpr (.refl _) declared_pairExpr
  have hwidth : (exprType pairTable.lookup 2 pairExpr).width = 1 := by decide
  have href : refWidth (terminals pairUnit) pairTable.lookup 2 pairExpr = 2 := by decide
  rw [Exact, hwidth, href] at hexact
  omega

end Sema

end Nslc
