import Nslc.AST.Heads
/-!
# AST — the roles the dump drops

The dump drops which of its optional parts a node has: one part of a reg
may be its width or its initialiser, the first child of a struct instance
its size or an initial value, the third child of a loop its step or its
first item. It drops the clock and the reset of a `declare` as well. An
expression it determines up to locations.
-/

namespace Nslc

namespace AST

/-! ## Trees without locations -/

mutual

def Expr.bare : Expr → Expr
  | .literal kind spelling => .literal kind spelling
  | .identifier _ name => .identifier 0 name
  | .systemVar var => .systemVar var
  | .unary op sub => .unary op sub.bare
  | .binary op lhs rhs => .binary op lhs.bare rhs.bare
  | .conditional cond thenE elseE => .conditional cond.bare thenE.bare elseE.bare
  | .concat parts => .concat (bareExprs parts)
  | .repeat count body => .repeat count.bare body.bare
  | .signExtend width sub => .signExtend width.bare sub.bare
  | .zeroExtend width sub => .zeroExtend width.bare sub.bare
  | .slice _ sub hi lo => .slice 0 sub.bare hi.bare (bareExpr? lo)
  | .fieldAccess obj field => .fieldAccess obj.bare field
  | .call _ target args => .call 0 target (bareExprs args)
  | .structCast typeName sub memberPath => .structCast typeName sub.bare memberPath
  | .incDec target op isPrefix => .incDec target.bare op isPrefix

def bareExprs : List Expr → List Expr
  | [] => []
  | e :: es => e.bare :: bareExprs es

def bareExpr? : Option Expr → Option Expr
  | none => none
  | some e => some e.bare

end

def PortDecl.bare (p : PortDecl) : PortDecl := { p with loc := 0, width := bareExpr? p.width }

def TopLevelParamDecl.bare (p : TopLevelParamDecl) : TopLevelParamDecl :=
  { p with loc := 0, init := bareExpr? p.init }

def StructMember.bare (m : StructMember) : StructMember := { m with width := bareExpr? m.width }

def Instance.bare (i : Instance) : Instance := { i with arraySize := bareExpr? i.arraySize }

def ParamAssign.bare (a : ParamAssign) : ParamAssign := { a with value := a.value.bare }

/-! ## The parts whose role is not printed -/

/-- The statements a `for` may step by: a block, `++` and `--` on a name,
`:=` to a name. -/
def Stmt.isStep : Stmt → Bool
  | .parallel _ _ => true
  | .incDec (.identifier _ [_]) _ _ => true
  | .transfer _ .regColonEq (.identifier _ [_]) _ => true
  | _ => false

/-- A reg's width for its initialiser and the other way round, where only
one of them is there. -/
def otherReg : Option Expr × Option Expr → Option Expr × Option Expr
  | (some e, none) => (none, some e)
  | (none, some e) => (some e, none)
  | p => p

/-- The size of a struct instance for its first initial value, and the
other way round. -/
def otherInst : Option Expr × List Expr → Option Expr × List Expr
  | (some e, es) => (none, e :: es)
  | (none, e :: es) => (some e, es)
  | (none, []) => (none, [])

/-- The step of a loop for its first item, and the other way round where
the item can be a step. -/
def otherFor : Option Stmt × List Stmt → Option Stmt × List Stmt
  | (some s, ss) => (none, s :: ss)
  | (none, s :: ss) => if s.isStep then (some s, ss) else (none, s :: ss)
  | (none, []) => (none, [])

/-- Another clock, where a modifier can name one. -/
def otherClock (modifier : Modifier) (clockName : Ident) : Ident :=
  if modifier = .none then clockName else if clockName = [] then ['c'] else []

mutual

/-- The tree without locations; with `other`, every part whose role is
not printed in its other role. -/
def Stmt.recast (other : Bool) : Stmt → Stmt
  | .transfer _ op lhs rhs => .transfer 0 op lhs.bare rhs.bare
  | .incDec target op isPrefix => .incDec target.bare op isPrefix
  | .controlCall _ target args => .controlCall 0 target (bareExprs args)
  | .bareFinish _ => .bareFinish 0
  | .systemTask name args => .systemTask name (bareExprs args)
  | .return _ value => .return 0 (bareExpr? value)
  | .empty => .empty
  | .labeled label body => .labeled label (recastStmt? other body)
  | .goto target => .goto target
  | .initBlock items => .initBlock (recastStmts other items)
  | .delayTask count => .delayTask count.bare
  | .parallel items decls => .parallel (recastStmts other items) (recastDecls other decls)
  | .alt cases elseCase => .alt (recastCases other cases) (recastStmt? other elseCase)
  | .any cases elseCase => .any (recastCases other cases) (recastStmt? other elseCase)
  | .seq items decls => .seq (recastStmts other items) (recastDecls other decls)
  | .while cond items => .while cond.bare (recastStmts other items)
  | .for init cond step items =>
    let parts := (recastStmt? other step, recastStmts other items)
    let parts := if other then otherFor parts else parts
    .for (init.recast other) cond.bare parts.1 parts.2
  | .if cond thenBr elseBr =>
    .if cond.bare (thenBr.recast other) (recastStmt? other elseBr)
  | .generate _ init initValue cond step body =>
    .generate 0 init initValue.bare cond.bare step.bare (body.recast other)

def recastStmts (other : Bool) : List Stmt → List Stmt
  | [] => []
  | s :: ss => s.recast other :: recastStmts other ss

def recastStmt? (other : Bool) : Option Stmt → Option Stmt
  | none => none
  | some s => some (s.recast other)

def recastCases (other : Bool) : List CondCase → List CondCase
  | [] => []
  | .mk cond body :: cs => .mk cond.bare (body.recast other) :: recastCases other cs

def Decl.recast (other : Bool) : Decl → Decl
  | .topLevelParam p => .topLevelParam p.bare
  | .struct _ name members => .struct 0 name (members.map StructMember.bare)
  | .declare name modifier clockName resetName headerParams ports =>
    .declare name modifier (if other then otherClock modifier clockName else clockName) resetName
      (headerParams.map TopLevelParamDecl.bare) (ports.map PortDecl.bare)
  | .module _ name internals actions funcs procs =>
    .module 0 name (recastDecls other internals) (recastStmts other actions)
      (recastDecls other funcs) (recastDecls other procs)
  | .port p => .port p.bare
  | .reg _ name width init =>
    let parts := (bareExpr? width, bareExpr? init)
    let parts := if other then otherReg parts else parts
    .reg 0 name parts.1 parts.2
  | .wire _ name width => .wire 0 name (bareExpr? width)
  | .variable _ name width => .variable 0 name (bareExpr? width)
  | .integer _ name => .integer 0 name
  | .mem _ name depth width init => .mem 0 name depth.bare width.bare (bareExprs init)
  | .funcSelf _ name dummyArgs returnTerminal => .funcSelf 0 name dummyArgs returnTerminal
  | .procName _ name regArgs => .procName 0 name regArgs
  | .stateName _ names => .stateName 0 names
  | .firstState target => .firstState target
  | .submodule _ templateName instances paramAssigns =>
    .submodule 0 templateName (instances.map Instance.bare) (paramAssigns.map ParamAssign.bare)
  | .structInst _ typeName instanceName kind arraySize init =>
    let parts := (bareExpr? arraySize, bareExprs init)
    let parts := if other then otherInst parts else parts
    .structInst 0 typeName instanceName kind parts.1 parts.2
  | .funcDefn _ name body => .funcDefn 0 name (body.recast other)
  | .procDefn _ name body => .procDefn 0 name (body.recast other)
  | .stateDefn _ name body => .stateDefn 0 name (body.recast other)

def recastDecls (other : Bool) : List Decl → List Decl
  | [] => []
  | d :: ds => d.recast other :: recastDecls other ds

end

/-- **The unit up to locations.** -/
def eraseLocs (cu : CompilationUnit) : CompilationUnit := recastDecls false cu

/-- The unit with every part in its other role. -/
def otherUnit (cu : CompilationUnit) : CompilationUnit := recastDecls true cu

/-! ## Conditions on every node -/

def Decl.isInternal : Decl → Bool
  | .topLevelParam _ | .struct .. | .declare .. | .module .. | .port _ | .funcDefn ..
  | .procDefn .. | .stateDefn .. => false
  | _ => true

def Decl.isFunc : Decl → Bool
  | .funcDefn .. => true
  | _ => false

def Decl.isProc : Decl → Bool
  | .procDefn .. | .stateDefn .. => true
  | _ => false

mutual

/-- Every statement and declaration in a statement is so. -/
def Stmt.Every (p : Stmt → Prop) (q : Decl → Prop) (s : Stmt) : Prop :=
  p s ∧
    match s with
    | .labeled _ body => EveryStmt? p q body
    | .initBlock items => EveryStmt p q items
    | .parallel items decls => EveryStmt p q items ∧ EveryDecl p q decls
    | .alt cases elseCase => EveryCase p q cases ∧ EveryStmt? p q elseCase
    | .any cases elseCase => EveryCase p q cases ∧ EveryStmt? p q elseCase
    | .seq items decls => EveryStmt p q items ∧ EveryDecl p q decls
    | .while _ items => EveryStmt p q items
    | .for init _ step items => init.Every p q ∧ EveryStmt? p q step ∧ EveryStmt p q items
    | .if _ thenBr elseBr => thenBr.Every p q ∧ EveryStmt? p q elseBr
    | .generate _ _ _ _ _ body => body.Every p q
    | _ => True

def EveryStmt (p : Stmt → Prop) (q : Decl → Prop) : List Stmt → Prop
  | [] => True
  | s :: ss => s.Every p q ∧ EveryStmt p q ss

def EveryStmt? (p : Stmt → Prop) (q : Decl → Prop) : Option Stmt → Prop
  | none => True
  | some s => s.Every p q

def EveryCase (p : Stmt → Prop) (q : Decl → Prop) : List CondCase → Prop
  | [] => True
  | .mk _ body :: cs => body.Every p q ∧ EveryCase p q cs

def Decl.Every (p : Stmt → Prop) (q : Decl → Prop) (d : Decl) : Prop :=
  q d ∧
    match d with
    | .module _ _ internals actions funcs procs =>
      EveryDecl p q internals ∧ EveryStmt p q actions ∧ EveryDecl p q funcs ∧ EveryDecl p q procs
    | .funcDefn _ _ body => body.Every p q
    | .procDefn _ _ body => body.Every p q
    | .stateDefn _ _ body => body.Every p q
    | _ => True

def EveryDecl (p : Stmt → Prop) (q : Decl → Prop) : List Decl → Prop
  | [] => True
  | d :: ds => d.Every p q ∧ EveryDecl p q ds

end

/-- A loop steps by what a loop can step by. -/
def Stmt.Shaped : Stmt → Prop
  | .for _ _ step _ => ∀ s ∈ step, s.isStep
  | _ => True

/-- The lists of a module hold what the parser puts there, and only a
modifier names a clock. -/
def Decl.Shaped : Decl → Prop
  | .module _ _ internals _ funcs procs =>
    (∀ d ∈ internals, d.isInternal) ∧ (∀ d ∈ funcs, d.isFunc) ∧ ∀ d ∈ procs, d.isProc
  | .declare _ modifier clockName resetName _ _ =>
    modifier = .none → clockName = [] ∧ resetName = []
  | _ => True

/-- A unit as the parser makes them: names and literals are tokens, and
the nodes have the shapes of its rules. -/
structure Parsed (cu : CompilationUnit) : Prop where
  good : (unitTree cu).Forall Head.Good
  shaped : EveryDecl Stmt.Shaped Decl.Shaped cu

/-- **No loop leaves open whether it has a step.** -/
def Stmt.Settled : Stmt → Prop
  | .for _ _ step items => step = none ∧ ∀ s ∈ items.head?, s.isStep = false
  | _ => True

/-- **A declaration leaves nothing open**: a reg has both of width and
initialiser or neither, a struct instance neither size nor initial
values, and a `declare` no modifier. -/
def Decl.Settled : Decl → Prop
  | .reg _ _ width init => width.isSome = init.isSome
  | .structInst _ _ _ _ arraySize init => arraySize = none ∧ init = []
  | .declare _ modifier _ _ _ _ => modifier = .none
  | _ => True

/-- No node of the unit leaves anything open. -/
def Settled (cu : CompilationUnit) : Prop := EveryDecl Stmt.Settled Decl.Settled cu

/-! ## Names of enumerators -/

theorem ParamKind.text_injective {a b : ParamKind} (h : a.text = b.text) : a = b := by
  revert h; cases a <;> cases b <;> decide

theorem Modifier.text_injective {a b : Modifier} (h : a.text = b.text) : a = b := by
  revert h; cases a <;> cases b <;> decide

theorem Direction.text_injective {a b : Direction} (h : a.text = b.text) : a = b := by
  revert h; cases a <;> cases b <;> decide

theorem StorageKind.text_injective {a b : StorageKind} (h : a.text = b.text) : a = b := by
  revert h; cases a <;> cases b <;> decide

theorem TransferOp.text_injective {a b : TransferOp} (h : a.text = b.text) : a = b := by
  revert h; cases a <;> cases b <;> decide

theorem IncDecOp.text_injective {a b : IncDecOp} (h : a.text = b.text) : a = b := by
  revert h; cases a <;> cases b <;> decide

theorem Lit.text_injective {a b : Lit} (h : a.text = b.text) : a = b := by
  revert h; cases a <;> cases b <;> decide

theorem SystemVar.text_injective {a b : SystemVar} (h : a.text = b.text) : a = b := by
  revert h; cases a <;> cases b <;> decide

theorem UnaryOp.text_injective {a b : UnaryOp} (h : a.text = b.text) : a = b := by
  revert h; cases a <;> cases b <;> decide

theorem BinaryOp.text_injective {a b : BinaryOp} (h : a.text = b.text) : a = b := by
  revert h; cases a <;> cases b <;> decide

theorem boolText_injective {a b : Bool} (h : boolText a = boolText b) : a = b := by
  revert h; cases a <;> cases b <;> decide

@[simp] theorem emitField_inj {f : FieldName} {t t' : Text} :
    emitField f t = emitField f t' ↔ t = t' := by
  simp [emitField]

theorem emitNames_inj {f : FieldName} {ns ns' : List Text} (h : emitNames f ns = emitNames f ns') :
    ns = ns' := by
  unfold emitNames at h
  split_ifs at h with h₁ h₂ h₂ <;> simp_all

/-- The return terminal is told from the dummy arguments. -/
theorem terminal_fields_inj {r r' : Text} {ns ns' : List Text}
    (h : emitNonempty .returnTerminal r ++ emitNames .dummyArgs ns =
      emitNonempty .returnTerminal r' ++ emitNames .dummyArgs ns') : r = r' ∧ ns = ns' := by
  unfold emitNonempty emitNames at h
  split_ifs at h <;> simp_all [emitField]

theorem declare_fields_inj {x x' : Text} {m m' : Modifier}
    (h : emitNonempty .name x ++ [emitField .modifier m.text] =
      emitNonempty .name x' ++ [emitField .modifier m'.text]) : x = x' ∧ m = m' := by
  have hm : m.text = m'.text := by
    unfold emitNonempty at h
    split_ifs at h <;> simp_all [emitField]
  refine ⟨?_, Modifier.text_injective hm⟩
  unfold emitNonempty at h
  split_ifs at h <;> simp_all [emitField]

/-! ## Expressions -/

mutual

theorem exprTree_bare : ∀ e : Expr, exprTree e.bare = exprTree e
  | .literal .. | .identifier .. | .systemVar _ => rfl
  | .unary _ sub => by simp only [Expr.bare, exprTree, exprTree_bare sub]
  | .binary _ lhs rhs => by simp only [Expr.bare, exprTree, exprTree_bare lhs, exprTree_bare rhs]
  | .conditional cond thenE elseE => by
    simp only [Expr.bare, exprTree, exprTree_bare cond, exprTree_bare thenE, exprTree_bare elseE]
  | .concat parts => by simp only [Expr.bare, exprTree, exprTrees_bare parts]
  | .repeat count body => by
    simp only [Expr.bare, exprTree, exprTree_bare count, exprTree_bare body]
  | .signExtend width sub => by
    simp only [Expr.bare, exprTree, exprTree_bare width, exprTree_bare sub]
  | .zeroExtend width sub => by
    simp only [Expr.bare, exprTree, exprTree_bare width, exprTree_bare sub]
  | .slice _ sub hi lo => by
    simp only [Expr.bare, exprTree, exprTree_bare sub, exprTree_bare hi, exprTree?_bare lo]
  | .fieldAccess obj _ => by simp only [Expr.bare, exprTree, exprTree_bare obj]
  | .call _ _ args => by simp only [Expr.bare, exprTree, exprTrees_bare args]
  | .structCast _ sub _ => by simp only [Expr.bare, exprTree, exprTree_bare sub]
  | .incDec target _ _ => by simp only [Expr.bare, exprTree, exprTree_bare target]

theorem exprTrees_bare : ∀ es : List Expr, exprTrees (bareExprs es) = exprTrees es
  | [] => rfl
  | e :: es => by simp only [bareExprs, exprTrees, exprTree_bare e, exprTrees_bare es]

theorem exprTree?_bare : ∀ e : Option Expr, exprTree? (bareExpr? e) = exprTree? e
  | none => rfl
  | some e => by simp only [bareExpr?, exprTree?, exprTree_bare e]

end

mutual

/-- An expression's tree determines it up to locations. -/
theorem bare_eq : ∀ (e f : Expr), exprTree e = exprTree f → e.bare = f.bare
  | .literal kind spelling, f, h => by
    cases f <;> simp only [exprTree, Sexp.node.injEq, Head.mk.injEq, reduceCtorEq, false_and] at h
    case literal kind' spelling' =>
      simp only [List.cons.injEq, emitField_inj, Field.mk.injEq, Value.spelling.injEq, true_and] at h
      rw [Expr.bare, Expr.bare, Lit.text_injective h.1.1, h.1.2.1]
  | .identifier _ name, f, h => by
    cases f <;> simp only [exprTree, Sexp.node.injEq, Head.mk.injEq, reduceCtorEq, false_and] at h
    case identifier loc' name' =>
      simp only [List.cons.injEq, Field.mk.injEq, Value.parts.injEq, true_and, and_true] at h
      rw [Expr.bare, Expr.bare, h]
  | .systemVar var, f, h => by
    cases f <;> simp only [exprTree, Sexp.node.injEq, Head.mk.injEq, reduceCtorEq, false_and] at h
    case systemVar var' =>
      simp only [List.cons.injEq, emitField_inj, true_and, and_true] at h
      rw [SystemVar.text_injective h]
  | .unary op sub, f, h => by
    cases f <;> simp only [exprTree, Sexp.node.injEq, Head.mk.injEq, reduceCtorEq, false_and] at h
    case unary op' sub' =>
      simp only [List.cons.injEq, emitField_inj, true_and, and_true] at h
      rw [Expr.bare, Expr.bare, UnaryOp.text_injective h.1, bare_eq sub sub' h.2]
  | .binary op lhs rhs, f, h => by
    cases f <;> simp only [exprTree, Sexp.node.injEq, Head.mk.injEq, reduceCtorEq, false_and] at h
    case binary op' lhs' rhs' =>
      simp only [List.cons.injEq, emitField_inj, true_and, and_true] at h
      rw [Expr.bare, Expr.bare, BinaryOp.text_injective h.1, bare_eq lhs lhs' h.2.1,
        bare_eq rhs rhs' h.2.2]
  | .conditional cond thenE elseE, f, h => by
    cases f <;> simp only [exprTree, Sexp.node.injEq, Head.mk.injEq, reduceCtorEq, false_and] at h
    case conditional cond' thenE' elseE' =>
      simp only [List.cons.injEq, true_and, and_true] at h
      rw [Expr.bare, Expr.bare, bare_eq cond cond' h.1, bare_eq thenE thenE' h.2.1,
        bare_eq elseE elseE' h.2.2]
  | .concat parts, f, h => by
    cases f <;> simp only [exprTree, Sexp.node.injEq, Head.mk.injEq, reduceCtorEq, false_and] at h
    case concat parts' => rw [Expr.bare, Expr.bare, bareExprs_eq parts parts' h.2]
  | .repeat count body, f, h => by
    cases f <;> simp only [exprTree, Sexp.node.injEq, Head.mk.injEq, reduceCtorEq, false_and] at h
    case «repeat» count' body' =>
      simp only [List.cons.injEq, true_and, and_true] at h
      rw [Expr.bare, Expr.bare, bare_eq count count' h.1, bare_eq body body' h.2]
  | .signExtend width sub, f, h => by
    cases f <;> simp only [exprTree, Sexp.node.injEq, Head.mk.injEq, reduceCtorEq, false_and] at h
    case signExtend width' sub' =>
      simp only [List.cons.injEq, true_and, and_true] at h
      rw [Expr.bare, Expr.bare, bare_eq width width' h.1, bare_eq sub sub' h.2]
  | .zeroExtend width sub, f, h => by
    cases f <;> simp only [exprTree, Sexp.node.injEq, Head.mk.injEq, reduceCtorEq, false_and] at h
    case zeroExtend width' sub' =>
      simp only [List.cons.injEq, true_and, and_true] at h
      rw [Expr.bare, Expr.bare, bare_eq width width' h.1, bare_eq sub sub' h.2]
  | .slice _ sub hi lo, f, h => by
    cases f <;> simp only [exprTree, Sexp.node.injEq, Head.mk.injEq, reduceCtorEq, false_and] at h
    case slice loc' sub' hi' lo' =>
      simp only [List.cons.injEq, true_and] at h
      rw [Expr.bare, Expr.bare, bare_eq sub sub' h.1, bare_eq hi hi' h.2.1,
        bareExpr?_eq lo lo' h.2.2]
  | .fieldAccess obj field, f, h => by
    cases f <;> simp only [exprTree, Sexp.node.injEq, Head.mk.injEq, reduceCtorEq, false_and] at h
    case fieldAccess obj' field' =>
      simp only [List.cons.injEq, emitField_inj, true_and, and_true] at h
      rw [Expr.bare, Expr.bare, h.1, bare_eq obj obj' h.2]
  | .call _ target args, f, h => by
    cases f <;> simp only [exprTree, Sexp.node.injEq, Head.mk.injEq, reduceCtorEq, false_and] at h
    case call loc' target' args' =>
      simp only [List.cons.injEq, Field.mk.injEq, Value.parts.injEq, true_and, and_true] at h
      rw [Expr.bare, Expr.bare, h.1, bareExprs_eq args args' h.2]
  | .structCast typeName sub memberPath, f, h => by
    cases f <;> simp only [exprTree, Sexp.node.injEq, Head.mk.injEq, reduceCtorEq, false_and] at h
    case structCast typeName' sub' memberPath' =>
      simp only [List.cons.injEq, emitField_inj, true_and, and_true] at h
      rw [Expr.bare, Expr.bare, h.1.1, emitNames_inj h.1.2, bare_eq sub sub' h.2]
  | .incDec target op isPrefix, f, h => by
    cases f <;> simp only [exprTree, Sexp.node.injEq, Head.mk.injEq, reduceCtorEq, false_and] at h
    case incDec target' op' isPrefix' =>
      simp only [List.cons.injEq, emitField_inj, true_and, and_true] at h
      rw [Expr.bare, Expr.bare, IncDecOp.text_injective h.1.1, boolText_injective h.1.2,
        bare_eq target target' h.2]

theorem bareExprs_eq : ∀ (es fs : List Expr), exprTrees es = exprTrees fs →
    bareExprs es = bareExprs fs
  | [], [], _ => rfl
  | e :: es, f :: fs, h => by
    simp only [exprTrees, List.cons.injEq] at h
    rw [bareExprs, bareExprs, bare_eq e f h.1, bareExprs_eq es fs h.2]

theorem bareExpr?_eq : ∀ (e f : Option Expr), exprTree? e = exprTree? f →
    bareExpr? e = bareExpr? f
  | none, none, _ => rfl
  | some e, some f, h => by
    simp only [exprTree?, List.cons.injEq, and_true] at h
    rw [bareExpr?, bareExpr?, bare_eq e f h]

end

end AST

end Nslc
