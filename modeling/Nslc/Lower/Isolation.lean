import Nslc.Lower.Visitor
import Nslc.Sema.Resolution
/-!
# Lowering one module at a time

The visitor keeps its tables for as long as it lives, so a name that an
earlier module declared is still found in a later one. Two runs of a
module are compared, one behind the items in front of it and one behind
the structs, the parameters and its own `declare` only. They stay in step
as long as the module reads no name that leaked from an earlier one
(`stmtSafe`), and its terminals were parked when it is visited.
-/

namespace Nslc

namespace ASTToMLIR

open AST

/-! ## Ops that use values of their own module -/

def Operand.isOwn : Operand → Bool
  | .own _ => true
  | .foreign _ _ => false

def ValueOp.operands : ValueOp → List Operand
  | .port _ _ | .reg _ _ | .wire _ | .variable _ | .mem _ | .constant _ => []
  | .binary _ lhs rhs => [lhs, rhs]
  | .unary _ operand | .signExtend operand | .zeroExtend operand | .extract operand _
  | .repeat operand _ | .structCast operand | .field operand _ => [operand]
  | .mux cond thenV elseV => [cond, thenV, elseV]
  | .concat operands => operands

mutual

/-- No operand of the op or of the ops in it is foreign. -/
def Op.own (op : Op) : Bool :=
  match op with
  | .value _ _ op => op.operands.all Operand.isOwn
  | .transfer dst src | .clockedTransfer dst src => dst.isOwn && src.isOwn
  | .call _ args => args.all Operand.isOwn
  | .simInit body | .parallel body | .seq body | .alt body | .any body | .default body
  | .structuralGenerate _ _ _ _ body | .func _ body | .proc _ body | .state _ body
  | .declare _ _ _ body | .module _ body => Op.allOwn body
  | .case cond body | .while cond body => cond.isOwn && Op.allOwn body
  | .ifOp cond thenRegion elseRegion =>
    cond.isOwn && Op.allOwn thenRegion && Op.allOwn elseRegion
  | .for init cond step body =>
    init.isOwn && cond.isOwn && step.toList.all Operand.isOwn && Op.allOwn body
  | .terminal _ _ | .fireProbe _ | .finish | .simDelay _ | .simFinish _ | .simDisplay _
  | .firstState _ | .struct _ _ | .paramInt _ _ | .paramStr _ _ => true

def Op.allOwn (ops : List Op) : Bool :=
  match ops with
  | [] => true
  | op :: ops => op.own && Op.allOwn ops

end

@[simp] theorem Op.allOwn_append (ops ops' : List Op) :
    Op.allOwn (ops ++ ops') = (Op.allOwn ops && Op.allOwn ops') := by
  induction ops with
  | nil => rfl
  | cons op ops ih => simp [Op.allOwn, ih, Bool.and_assoc]

/-! ## What is asked of the lowering -/

/-- The visitor behind the items `pre` of a unit. -/
def stateAfter (pre : List Decl) : Visitor := (visitDecls ⟨[], []⟩ Visitor.start pre).1

/-- The ops of an item behind `pre`. -/
def itemOps (pre : List Decl) (d : Decl) : List Op := (visitDecl ⟨[], []⟩ (stateAfter pre) d).2

def moduleName? : Decl → Option Ident
  | .module _ name _ _ _ _ => some name
  | _ => none

/-- The terminals of a `declare` of that name. -/
def declaredBy (name : Ident) : Decl → Bool
  | .declare n _ _ _ _ _ => n = name
  | _ => false

/-- Structs and parameters. -/
def isCatalog : Decl → Bool
  | .topLevelParam _ | .struct _ _ _ => true
  | _ => false

def isDeclare : Decl → Bool
  | .declare _ _ _ _ _ _ => true
  | _ => false

/-- What the lowering of the module `name` may depend on besides itself:
the structs and parameters before it and its `declare`, wherever it
stands. -/
def moduleContext (name : Ident) (pre post : List Decl) : List Decl :=
  pre.filter isCatalog ++ (pre ++ post).filter (declaredBy name)

/-- **Lowering is per module.** A module is lowered as it is behind its
own context alone, uses only values of its own, and a `declare` is
lowered as it is alone. -/
structure LoweredPerModule (cu : CompilationUnit) : Prop where
  module : ∀ pre d post name, cu = pre ++ d :: post → moduleName? d = some name →
    itemOps pre d = itemOps (moduleContext name pre post) d
  own : ∀ pre d post name, cu = pre ++ d :: post → moduleName? d = some name →
    Op.allOwn (itemOps pre d) = true
  declare : ∀ pre d post, cu = pre ++ d :: post → isDeclare d = true →
    itemOps pre d = itemOps [] d

/-! ## Names that leak -/

/-- The names found in the tables that the module did not declare. -/
structure Leak where
  control : Ident → Bool
  value : Ident → Bool

namespace Leak

/-- No control of the list is found for the wrong reason any more, and no
value of it. -/
def minus (L : Leak) (controls values : List Ident) : Leak where
  control x := L.control x && !controls.contains x
  value x := L.value x && !controls.contains x && !values.contains x

/-- None of the names leaked. -/
def unread (L : Leak) (xs : List Ident) : Bool := xs.all fun x => !L.control x && !L.value x

/-- Everything the visitor's tables hold. -/
def of (b : Visitor) : Leak := ⟨b.controlTable, fun x => (b.nameTable x).isSome⟩

end Leak

mutual

/-- The names lowering an expression looks up. -/
def exprReads (e : Expr) : List Ident :=
  match e with
  | .identifier _ [leaf] => [leaf]
  | .unary _ sub => exprReads sub
  | .binary _ lhs rhs => exprReads lhs ++ exprReads rhs
  | .conditional cond thenE elseE => exprReads cond ++ exprReads thenE ++ exprReads elseE
  | .concat parts => exprsReads parts
  | .repeat _ body => exprReads body
  | .signExtend _ sub => exprReads sub
  | .zeroExtend _ sub => exprReads sub
  | .slice _ sub _ _ => exprReads sub
  | .fieldAccess obj _ => exprReads obj
  | .structCast _ sub _ => exprReads sub
  | _ => []

def exprsReads (es : List Expr) : List Ident :=
  match es with
  | [] => []
  | e :: es => exprReads e ++ exprsReads es

end

/-- The control names a declaration enters. -/
def declControls (ctx : Enclosing) : Decl → List Ident
  | .port p =>
    match p.direction with
    | .funcIn | .funcOut | .funcSelf => [p.name]
    | _ => []
  | .funcSelf _ name _ _ => [name]
  | .procName _ name _ => if ctx.procs.contains name then [name] else []
  | .stateName _ names => names.filter ctx.states.contains
  | _ => []

/-- The value names a declaration enters. -/
def declValues : Decl → List Ident
  | .port p =>
    match p.direction with
    | .input | .output | .inout => [p.name]
    | _ => []
  | .reg _ name _ _ | .wire _ name _ | .variable _ name _ | .mem _ name _ _ _ => [name]
  | .structInst _ _ instanceName kind _ _ => if kind = .reg then [instanceName] else []
  | _ => []

def declLeak (ctx : Enclosing) (L : Leak) (d : Decl) : Leak :=
  L.minus (declControls ctx d) (declValues d)

def declsLeak (ctx : Enclosing) (L : Leak) (ds : List Decl) : Leak := ds.foldl (declLeak ctx) L

mutual

/-- No leaked name is read by the statement. A declaration in a block is
in place for the rest of the block. -/
def stmtSafe (ctx : Enclosing) (L : Leak) (s : Stmt) : Bool :=
  match s with
  | .transfer _ _ lhs rhs => L.unread (exprReads lhs ++ exprReads rhs)
  | .controlCall _ _ args => L.unread (exprsReads args)
  | .initBlock items => stmtsSafe ctx L items
  | .parallel items decls | .seq items decls =>
    declsSafe ctx L decls && stmtsSafe ctx (declsLeak ctx L decls) items
  | .alt cases elseCase | .any cases elseCase =>
    casesSafe ctx L cases && stmtSafe? ctx L elseCase
  | .while cond items => L.unread (exprReads cond) && stmtsSafe ctx L items
  | .for init cond step items =>
    (initTarget init).all (fun target => L.unread (exprReads target)) &&
      L.unread (exprReads cond) &&
      (step.bind loopTarget).all (fun target => L.unread (exprReads target)) &&
      stmtsSafe ctx L items
  | .if cond thenBr elseBr =>
    L.unread (exprReads cond) && stmtSafe ctx L thenBr && stmtSafe? ctx L elseBr
  | .generate _ _ _ _ _ body => stmtSafe ctx L body
  | .incDec _ _ _ | .return _ _ | .empty | .labeled _ _ | .goto _ | .bareFinish _
  | .systemTask _ _ | .delayTask _ => true

def stmtsSafe (ctx : Enclosing) (L : Leak) (ss : List Stmt) : Bool :=
  match ss with
  | [] => true
  | s :: ss => stmtSafe ctx L s && stmtsSafe ctx L ss

def stmtSafe? (ctx : Enclosing) (L : Leak) (s : Option Stmt) : Bool :=
  match s with
  | none => true
  | some s => stmtSafe ctx L s

def casesSafe (ctx : Enclosing) (L : Leak) (cs : List CondCase) : Bool :=
  match cs with
  | [] => true
  | ⟨cond, body⟩ :: cs => L.unread (exprReads cond) && stmtSafe ctx L body && casesSafe ctx L cs

/-- The items of a unit do not stand inside a module. -/
def declSafe (ctx : Enclosing) (L : Leak) (d : Decl) : Bool :=
  match d with
  | .topLevelParam _ | .struct _ _ _ | .declare _ _ _ _ _ _ | .module _ _ _ _ _ _ => false
  | .funcDefn _ _ body | .stateDefn _ _ body => stmtSafe ctx L body
  | .procDefn _ _ body => stmtSafe { ctx with states := stateBodies body } L body
  | _ => true

def declsSafe (ctx : Enclosing) (L : Leak) (ds : List Decl) : Bool :=
  match ds with
  | [] => true
  | d :: ds => declSafe ctx L d && declsSafe ctx (declLeak ctx L d) ds

end

/-- The terminals of a module are declared first, then its internals;
the bodies and actions see them. -/
def moduleSafe (L : Leak) (ports : List PortDecl) (internals : List Decl) (actions : List Stmt)
    (funcs procs : List Decl) : Bool :=
  let ctx : Enclosing := ⟨procBodies procs, []⟩
  let L := declsLeak ctx L (ports.map .port)
  declsSafe ctx L internals &&
    declsSafe ctx (declsLeak ctx L internals) funcs &&
    declsSafe ctx (declsLeak ctx (declsLeak ctx L internals) funcs) procs &&
    stmtsSafe ctx (declsLeak ctx (declsLeak ctx (declsLeak ctx L internals) funcs) procs) actions

/-- The terminals the unit declares for the module `name`. -/
def declaredPorts (name : Ident) (ds : List Decl) : List PortDecl :=
  ds.flatMap fun d =>
    match d with
    | .declare n _ _ _ _ ports => if n = name then parkedPorts ports else []
    | _ => []

/-- Behind `pre`, the item does not read what leaked from there: a module
finds its terminals parked and reads no name of another one. -/
def Unleaked (pre : List Decl) (d : Decl) (post : List Decl) : Prop :=
  match d with
  | .topLevelParam _ | .struct _ _ _ | .declare _ _ _ _ _ _ => True
  | .module _ name internals actions funcs procs =>
    (stateAfter pre).pending name = declaredPorts name (pre ++ post) ∧
      moduleSafe (.of (stateAfter pre)) ((stateAfter pre).pending name) internals actions funcs
        procs = true
  -- nothing else is an item of a unit
  | _ => False

def UnleakedFrom : List Decl → List Decl → Prop
  | _, [] => True
  | pre, d :: post => Unleaked pre d post ∧ UnleakedFrom (pre ++ [d]) post

/-- Nothing leaks between the modules of a unit. -/
def UnleakedUnit (cu : CompilationUnit) : Prop := UnleakedFrom [] cu

end ASTToMLIR

end Nslc
