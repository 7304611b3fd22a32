import Nslc.Basic.Source
/-!
# AST — the syntax tree

The node kinds of `NodeKind.def` with their fields. A pointer the parser
may leave null is an `Option`; the others it always fills. Expressions
hold no statements; statements and declarations nest in each other,
since a parallel or seq block keeps the declarations among its items in
a list of their own.
-/

namespace Nslc

namespace AST

abbrev Ident := Text

/-- The parts of a dotted name. -/
abbrev ScopedName := List Ident

/-- The begin of a node's source range. -/
abbrev Loc := ℕ

/-! ## Expressions -/

inductive Lit where
  | decimal
  | hex
  | binary
  | octal
  | string
  deriving DecidableEq, Repr

inductive SystemVar where
  | random
  | time
  deriving DecidableEq, Repr

inductive UnaryOp where
  | plus
  | neg
  | bitNot
  | logicalNot
  | reduceAnd
  | reduceOr
  | reduceXor
  deriving DecidableEq, Repr

inductive BinaryOp where
  | add
  | sub
  | mul
  | div
  | mod
  | bitAnd
  | bitOr
  | bitXor
  | shiftLeft
  | shiftRight
  | equal
  | notEqual
  | less
  | lessEqual
  | greater
  | greaterEqual
  | logicalAnd
  | logicalOr
  deriving DecidableEq, Repr

inductive IncDecOp where
  | inc
  | dec
  deriving DecidableEq, Repr

inductive Expr where
  | literal (kind : Lit) (spelling : Text)
  | identifier (loc : Loc) (name : ScopedName)
  | systemVar (var : SystemVar)
  | unary (op : UnaryOp) (sub : Expr)
  | binary (op : BinaryOp) (lhs rhs : Expr)
  | conditional (cond thenE elseE : Expr)
  | concat (parts : List Expr)
  | repeat (count body : Expr)
  | signExtend (width sub : Expr)
  | zeroExtend (width sub : Expr)
  /-- `sub[hi:lo]`, or `sub[hi]` without `lo`. -/
  | slice (loc : Loc) (sub hi : Expr) (lo : Option Expr)
  | fieldAccess (obj : Expr) (field : Ident)
  | call (loc : Loc) (target : ScopedName) (args : List Expr)
  | structCast (typeName : Ident) (sub : Expr) (memberPath : List Ident)
  | incDec (target : Expr) (op : IncDecOp) (isPrefix : Bool)

/-! ## Statements and declarations -/

inductive TransferOp where
  /-- `=` -/
  | wireEq
  /-- `:=` -/
  | regColonEq
  deriving DecidableEq, Repr

inductive Direction where
  | input
  | output
  | inout
  | funcIn
  | funcOut
  | wire
  | funcSelf
  deriving DecidableEq, Repr

inductive Modifier where
  | none
  | interface
  | simulation
  deriving DecidableEq, Repr

inductive ParamKind where
  | int
  | str
  deriving DecidableEq, Repr

inductive StorageKind where
  | reg
  | wire
  deriving DecidableEq, Repr

/-- A terminal of a `declare` block. -/
structure PortDecl where
  loc : Loc
  direction : Direction
  name : Ident
  width : Option Expr
  dummyArgs : List Ident
  /-- Empty where there is none. -/
  returnTerminal : Ident

structure StructMember where
  name : Ident
  width : Option Expr

structure Instance where
  name : Ident
  arraySize : Option Expr

structure ParamAssign where
  name : Ident
  value : Expr

structure TopLevelParamDecl where
  loc : Loc
  kind : ParamKind
  name : Ident
  init : Option Expr

mutual

inductive Stmt where
  | transfer (loc : Loc) (op : TransferOp) (lhs rhs : Expr)
  | incDec (target : Expr) (op : IncDecOp) (isPrefix : Bool)
  | controlCall (loc : Loc) (target : ScopedName) (args : List Expr)
  | bareFinish (loc : Loc)
  | systemTask (name : Ident) (args : List Expr)
  | return (loc : Loc) (value : Option Expr)
  | empty
  | labeled (label : Ident) (body : Option Stmt)
  | goto (target : Ident)
  | initBlock (items : List Stmt)
  | delayTask (count : Expr)
  | parallel (items : List Stmt) (decls : List Decl)
  | alt (cases : List CondCase) (elseCase : Option Stmt)
  | any (cases : List CondCase) (elseCase : Option Stmt)
  | seq (items : List Stmt) (decls : List Decl)
  | while (cond : Expr) (items : List Stmt)
  /-- The enumeration form has no `step`. -/
  | for (init : Stmt) (cond : Expr) (step : Option Stmt) (items : List Stmt)
  | if (cond : Expr) (thenBr : Stmt) (elseBr : Option Stmt)
  | generate (loc : Loc) (init : Ident) (initValue cond step : Expr) (body : Stmt)

inductive CondCase where
  | mk (cond : Expr) (body : Stmt)

inductive Decl where
  | topLevelParam (p : TopLevelParamDecl)
  | struct (loc : Loc) (name : Ident) (members : List StructMember)
  | declare (name : Ident) (modifier : Modifier) (clockName resetName : Ident)
      (headerParams : List TopLevelParamDecl) (ports : List PortDecl)
  | module (loc : Loc) (name : Ident) (internals : List Decl) (actions : List Stmt)
      (funcs procs : List Decl)
  | port (p : PortDecl)
  | reg (loc : Loc) (name : Ident) (width init : Option Expr)
  | wire (loc : Loc) (name : Ident) (width : Option Expr)
  | variable (loc : Loc) (name : Ident) (width : Option Expr)
  | integer (loc : Loc) (name : Ident)
  | mem (loc : Loc) (name : Ident) (depth width : Expr) (init : List Expr)
  | funcSelf (loc : Loc) (name : Ident) (dummyArgs : List Ident) (returnTerminal : Ident)
  | procName (loc : Loc) (name : Ident) (regArgs : List Ident)
  | stateName (loc : Loc) (names : List Ident)
  | firstState (target : Ident)
  | submodule (loc : Loc) (templateName : Ident) (instances : List Instance)
      (paramAssigns : List ParamAssign)
  | structInst (loc : Loc) (typeName instanceName : Ident) (kind : StorageKind)
      (arraySize : Option Expr) (init : List Expr)
  | funcDefn (loc : Loc) (name : ScopedName) (body : Stmt)
  | procDefn (loc : Loc) (name : Ident) (body : Stmt)
  | stateDefn (loc : Loc) (name : Ident) (body : Stmt)

end

/-- `CompilationUnit::items`. -/
abbrev CompilationUnit := List Decl

end AST

end Nslc
