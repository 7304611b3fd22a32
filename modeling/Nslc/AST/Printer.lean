import Nslc.AST.Syntax
import Nslc.Common.Sexp
import Nslc.Lex.Lexer
/-!
# AST — the printer

`Printer.cpp`, without the `loc=` field of a node: a node is a head, its
kind and fields, over its children. Children stand in their order with
nothing that says which role a child has, and a child that is not there
leaves no trace.
-/

namespace Nslc

namespace AST

/-! ## Heads -/

/-- The kinds of `NodeKind.def`, and the wrappers the printer makes up. -/
inductive NodeKind where
  | compilationUnit
  | structDecl
  | topLevelParamDecl
  | declareBlock
  | portDecl
  | moduleBlock
  | regDecl
  | wireDecl
  | variableDecl
  | integerDecl
  | memDecl
  | funcSelfDecl
  | procNameDecl
  | stateNameDecl
  | firstStateDecl
  | submoduleDecl
  | structInstDecl
  | funcDefn
  | procDefn
  | stateDefn
  | transferStmt
  | incDecStmt
  | controlCallStmt
  | bareFinishStmt
  | systemTaskStmt
  | returnStmt
  | emptyStmt
  | labeledStmt
  | gotoStmt
  | initBlockStmt
  | delayTaskStmt
  | parallelBlock
  | altBlock
  | anyBlock
  | seqBlock
  | whileBlock
  | forBlock
  | ifStmt
  | structuralGenerate
  | literalExpr
  | identifierExpr
  | systemVarExpr
  | unaryExpr
  | binaryExpr
  | conditionalExpr
  | concatExpr
  | repeatExpr
  | signExtendExpr
  | zeroExtendExpr
  | sliceExpr
  | fieldAccessExpr
  | callExpr
  | structCastExpr
  | incDecExpr
  | structMember
  | inst
  | paramAssign
  | condCase
  | elseCase
  deriving DecidableEq, Repr

namespace NodeKind

def name : NodeKind → String
  | compilationUnit => "CompilationUnit"
  | structDecl => "StructDecl"
  | topLevelParamDecl => "TopLevelParamDecl"
  | declareBlock => "DeclareBlock"
  | portDecl => "PortDecl"
  | moduleBlock => "ModuleBlock"
  | regDecl => "RegDecl"
  | wireDecl => "WireDecl"
  | variableDecl => "VariableDecl"
  | integerDecl => "IntegerDecl"
  | memDecl => "MemDecl"
  | funcSelfDecl => "FuncSelfDecl"
  | procNameDecl => "ProcNameDecl"
  | stateNameDecl => "StateNameDecl"
  | firstStateDecl => "FirstStateDecl"
  | submoduleDecl => "SubmoduleDecl"
  | structInstDecl => "StructInstDecl"
  | funcDefn => "FuncDefn"
  | procDefn => "ProcDefn"
  | stateDefn => "StateDefn"
  | transferStmt => "TransferStmt"
  | incDecStmt => "IncDecStmt"
  | controlCallStmt => "ControlCallStmt"
  | bareFinishStmt => "BareFinishStmt"
  | systemTaskStmt => "SystemTaskStmt"
  | returnStmt => "ReturnStmt"
  | emptyStmt => "EmptyStmt"
  | labeledStmt => "LabeledStmt"
  | gotoStmt => "GotoStmt"
  | initBlockStmt => "InitBlockStmt"
  | delayTaskStmt => "DelayTaskStmt"
  | parallelBlock => "ParallelBlock"
  | altBlock => "AltBlock"
  | anyBlock => "AnyBlock"
  | seqBlock => "SeqBlock"
  | whileBlock => "WhileBlock"
  | forBlock => "ForBlock"
  | ifStmt => "IfStmt"
  | structuralGenerate => "StructuralGenerate"
  | literalExpr => "LiteralExpr"
  | identifierExpr => "IdentifierExpr"
  | systemVarExpr => "SystemVarExpr"
  | unaryExpr => "UnaryExpr"
  | binaryExpr => "BinaryExpr"
  | conditionalExpr => "ConditionalExpr"
  | concatExpr => "ConcatExpr"
  | repeatExpr => "RepeatExpr"
  | signExtendExpr => "SignExtendExpr"
  | zeroExtendExpr => "ZeroExtendExpr"
  | sliceExpr => "SliceExpr"
  | fieldAccessExpr => "FieldAccessExpr"
  | callExpr => "CallExpr"
  | structCastExpr => "StructCastExpr"
  | incDecExpr => "IncDecExpr"
  | structMember => "<StructMember>"
  | inst => "<Instance>"
  | paramAssign => "<ParamAssign>"
  | condCase => "<CondCase>"
  | elseCase => "<ElseCase>"

/-- The kinds below `Stmt`. -/
def isStmt : NodeKind → Bool
  | transferStmt | incDecStmt | controlCallStmt | bareFinishStmt | systemTaskStmt | returnStmt
  | emptyStmt | labeledStmt | gotoStmt | initBlockStmt | delayTaskStmt | parallelBlock | altBlock
  | anyBlock | seqBlock | whileBlock | forBlock | ifStmt | structuralGenerate => true
  | _ => false

end NodeKind

/-- The names of the fields. -/
inductive FieldName where
  | name
  | kind
  | modifier
  | direction
  | returnTerminal
  | dummyArgs
  | regArgs
  | names
  | target
  | templateName
  | typeName
  | instanceName
  | storage
  | op
  | isPrefix
  | label
  | init
  | value
  | flags
  | var
  | field
  | memberPath
  deriving DecidableEq, Repr

def FieldName.text : FieldName → String
  | name => "name"
  | kind => "kind"
  | modifier => "modifier"
  | direction => "direction"
  | returnTerminal => "returnTerminal"
  | dummyArgs => "dummyArgs"
  | regArgs => "regArgs"
  | names => "names"
  | target => "target"
  | templateName => "templateName"
  | typeName => "typeName"
  | instanceName => "instanceName"
  | storage => "storage"
  | op => "op"
  | isPrefix => "prefix"
  | label => "label"
  | init => "init"
  | value => "value"
  | flags => "flags"
  | var => "var"
  | field => "field"
  | memberPath => "memberPath"

/-- The value of a field: a name in its parts, a list of names, or the
spelling of a literal. -/
inductive Value where
  | parts (parts : List Text)
  | list (names : List Text)
  | spelling (t : Text)
  deriving DecidableEq

def Value.text : Value → Text
  | parts ps => List.intercalate ['.'] ps
  | list ns => '[' :: (List.intercalate [','] ns ++ [']'])
  | spelling t => t

structure Field where
  name : FieldName
  value : Value
  deriving DecidableEq

/-- `emitField`, `emitScopedName` and `emitNameList`. -/
def Field.text (f : Field) : Text :=
  ' ' :: ' ' :: (f.name.text.toList ++ '=' :: f.value.text)

structure Head where
  kind : NodeKind
  fields : List Field

/-- `emitOpen`, behind the parenthesis. -/
def Head.text (h : Head) : Text := h.kind.name.toList ++ (h.fields.map Field.text).flatten

abbrev Tree := Sexp Head

/-- A field of one name. -/
def emitField (f : FieldName) (t : Text) : Field := ⟨f, .parts [t]⟩

/-- A field printed where its name is not empty. -/
def emitNonempty (f : FieldName) (t : Text) : List Field :=
  if t = [] then [] else [emitField f t]

/-- A list of names printed where it is not empty. -/
def emitNames (f : FieldName) (names : List Text) : List Field :=
  if names = [] then [] else [⟨f, .list names⟩]

/-! ## The names of enumerators -/

def ParamKind.text : ParamKind → Text
  | int => "Int".toList
  | str => "Str".toList

def Modifier.text : Modifier → Text
  | none => "None".toList
  | interface => "Interface".toList
  | simulation => "Simulation".toList

def Direction.text : Direction → Text
  | input => "Input".toList
  | output => "Output".toList
  | inout => "Inout".toList
  | funcIn => "FuncIn".toList
  | funcOut => "FuncOut".toList
  | wire => "Wire".toList
  | funcSelf => "FuncSelf".toList

def StorageKind.text : StorageKind → Text
  | reg => "Reg".toList
  | wire => "Wire".toList

def TransferOp.text : TransferOp → Text
  | wireEq => "WireEq".toList
  | regColonEq => "RegColonEq".toList

def IncDecOp.text : IncDecOp → Text
  | inc => "Inc".toList
  | dec => "Dec".toList

def Lit.text : Lit → Text
  | decimal => "Decimal".toList
  | hex => "Hex".toList
  | binary => "Binary".toList
  | octal => "Octal".toList
  | string => "String".toList

def SystemVar.text : SystemVar → Text
  | random => "Random".toList
  | time => "Time".toList

def UnaryOp.text : UnaryOp → Text
  | neg => "Neg".toList
  | plus => "Plus".toList
  | bitNot => "BitNot".toList
  | logicalNot => "LogicalNot".toList
  | reduceAnd => "ReduceAnd".toList
  | reduceOr => "ReduceOr".toList
  | reduceXor => "ReduceXor".toList

def BinaryOp.text : BinaryOp → Text
  | add => "Add".toList
  | sub => "Sub".toList
  | mul => "Mul".toList
  | div => "Div".toList
  | mod => "Mod".toList
  | bitAnd => "BitAnd".toList
  | bitOr => "BitOr".toList
  | bitXor => "BitXor".toList
  | shiftLeft => "ShiftLeft".toList
  | shiftRight => "ShiftRight".toList
  | equal => "Equal".toList
  | notEqual => "NotEqual".toList
  | less => "Less".toList
  | lessEqual => "LessEqual".toList
  | greater => "Greater".toList
  | greaterEqual => "GreaterEqual".toList
  | logicalAnd => "LogicalAnd".toList
  | logicalOr => "LogicalOr".toList

def boolText (b : Bool) : Text := if b then "true".toList else "false".toList

/-- The token's flags as a number: the lexer reads them off the spelling. -/
def literalFlags (kind : Lit) (spelling : Text) : ℕ :=
  if kind = .string then 0
  else
    let flags := (Lex.scanNumber spelling).flags
    flags.hasZ.toNat + 2 * flags.hasX.toNat + 4 * flags.hasU.toNat

/-! ## Expressions -/

mutual

def exprTree : Expr → Tree
  | .literal kind spelling =>
    .node ⟨.literalExpr, emitField .kind kind.text :: ⟨.value, .spelling spelling⟩ ::
      emitNonempty .flags
        (if literalFlags kind spelling = 0 then [] else Nat.toDigits 10 (literalFlags kind spelling))⟩
      []
  | .identifier _ name => .node ⟨.identifierExpr, [⟨.name, .parts name⟩]⟩ []
  | .systemVar var => .node ⟨.systemVarExpr, [emitField .var var.text]⟩ []
  | .unary op sub => .node ⟨.unaryExpr, [emitField .op op.text]⟩ [exprTree sub]
  | .binary op lhs rhs =>
    .node ⟨.binaryExpr, [emitField .op op.text]⟩ [exprTree lhs, exprTree rhs]
  | .conditional cond thenE elseE =>
    .node ⟨.conditionalExpr, []⟩ [exprTree cond, exprTree thenE, exprTree elseE]
  | .concat parts => .node ⟨.concatExpr, []⟩ (exprTrees parts)
  | .repeat count body => .node ⟨.repeatExpr, []⟩ [exprTree count, exprTree body]
  | .signExtend width sub => .node ⟨.signExtendExpr, []⟩ [exprTree width, exprTree sub]
  | .zeroExtend width sub => .node ⟨.zeroExtendExpr, []⟩ [exprTree width, exprTree sub]
  | .slice _ sub hi lo => .node ⟨.sliceExpr, []⟩ (exprTree sub :: exprTree hi :: exprTree? lo)
  | .fieldAccess obj field =>
    .node ⟨.fieldAccessExpr, [emitField .field field]⟩ [exprTree obj]
  | .call _ target args => .node ⟨.callExpr, [⟨.target, .parts target⟩]⟩ (exprTrees args)
  | .structCast typeName sub memberPath =>
    .node ⟨.structCastExpr, emitField .typeName typeName :: emitNames .memberPath memberPath⟩
      [exprTree sub]
  | .incDec target op isPrefix =>
    .node ⟨.incDecExpr, [emitField .op op.text, emitField .isPrefix (boolText isPrefix)]⟩
      [exprTree target]

def exprTrees : List Expr → List Tree
  | [] => []
  | e :: es => exprTree e :: exprTrees es

def exprTree? : Option Expr → List Tree
  | none => []
  | some e => [exprTree e]

end

/-! ## Statements and declarations -/

def portTree (p : PortDecl) : Tree :=
  .node ⟨.portDecl, emitField .direction p.direction.text :: emitField .name p.name ::
    (emitNonempty .returnTerminal p.returnTerminal ++ emitNames .dummyArgs p.dummyArgs)⟩
    (exprTree? p.width)

def paramTree (p : TopLevelParamDecl) : Tree :=
  .node ⟨.topLevelParamDecl, [emitField .kind p.kind.text, emitField .name p.name]⟩
    (exprTree? p.init)

def memberTree (m : StructMember) : Tree :=
  .node ⟨.structMember, [emitField .name m.name]⟩ (exprTree? m.width)

def instanceTree (i : Instance) : Tree :=
  .node ⟨.inst, [emitField .name i.name]⟩ (exprTree? i.arraySize)

def assignTree (a : ParamAssign) : Tree :=
  .node ⟨.paramAssign, [emitField .name a.name]⟩ [exprTree a.value]

mutual

def stmtTree : Stmt → Tree
  | .transfer _ op lhs rhs =>
    .node ⟨.transferStmt, [emitField .op op.text]⟩ [exprTree lhs, exprTree rhs]
  | .incDec target op isPrefix =>
    .node ⟨.incDecStmt, [emitField .op op.text, emitField .isPrefix (boolText isPrefix)]⟩
      [exprTree target]
  | .controlCall _ target args =>
    .node ⟨.controlCallStmt, [⟨.target, .parts target⟩]⟩ (exprTrees args)
  | .bareFinish _ => .node ⟨.bareFinishStmt, []⟩ []
  | .systemTask name args => .node ⟨.systemTaskStmt, [emitField .name name]⟩ (exprTrees args)
  | .return _ value => .node ⟨.returnStmt, []⟩ (exprTree? value)
  | .empty => .node ⟨.emptyStmt, []⟩ []
  | .labeled label body => .node ⟨.labeledStmt, [emitField .label label]⟩ (stmtTree? body)
  | .goto target => .node ⟨.gotoStmt, [emitField .target target]⟩ []
  | .initBlock items => .node ⟨.initBlockStmt, []⟩ (stmtTrees items)
  | .delayTask count => .node ⟨.delayTaskStmt, []⟩ [exprTree count]
  | .parallel items decls => .node ⟨.parallelBlock, []⟩ (declTrees decls ++ stmtTrees items)
  | .alt cases elseCase => .node ⟨.altBlock, []⟩ (caseTrees cases ++ elseTrees elseCase)
  | .any cases elseCase => .node ⟨.anyBlock, []⟩ (caseTrees cases ++ elseTrees elseCase)
  | .seq items decls => .node ⟨.seqBlock, []⟩ (declTrees decls ++ stmtTrees items)
  | .while cond items => .node ⟨.whileBlock, []⟩ (exprTree cond :: stmtTrees items)
  | .for init cond step items =>
    .node ⟨.forBlock, []⟩ (stmtTree init :: exprTree cond :: (stmtTree? step ++ stmtTrees items))
  | .if cond thenBr elseBr =>
    .node ⟨.ifStmt, []⟩ (exprTree cond :: stmtTree thenBr :: stmtTree? elseBr)
  | .generate _ init initValue cond step body =>
    .node ⟨.structuralGenerate, [emitField .init init]⟩
      [exprTree initValue, exprTree cond, exprTree step, stmtTree body]

def stmtTrees : List Stmt → List Tree
  | [] => []
  | s :: ss => stmtTree s :: stmtTrees ss

def stmtTree? : Option Stmt → List Tree
  | none => []
  | some s => [stmtTree s]

def caseTrees : List CondCase → List Tree
  | [] => []
  | .mk cond body :: cs =>
    .node ⟨.condCase, []⟩ [exprTree cond, stmtTree body] :: caseTrees cs

def elseTrees : Option Stmt → List Tree
  | none => []
  | some s => [.node ⟨.elseCase, []⟩ [stmtTree s]]

def declTree : Decl → Tree
  | .topLevelParam p => paramTree p
  | .struct _ name members =>
    .node ⟨.structDecl, [emitField .name name]⟩ (members.map memberTree)
  | .declare name modifier _ _ headerParams ports =>
    .node ⟨.declareBlock, emitNonempty .name name ++ [emitField .modifier modifier.text]⟩
      (headerParams.map paramTree ++ ports.map portTree)
  | .module _ name internals actions funcs procs =>
    .node ⟨.moduleBlock, [emitField .name name]⟩
      (declTrees internals ++ (stmtTrees actions ++ (declTrees funcs ++ declTrees procs)))
  | .port p => portTree p
  | .reg _ name width init =>
    .node ⟨.regDecl, [emitField .name name]⟩ (exprTree? width ++ exprTree? init)
  | .wire _ name width => .node ⟨.wireDecl, [emitField .name name]⟩ (exprTree? width)
  | .variable _ name width => .node ⟨.variableDecl, [emitField .name name]⟩ (exprTree? width)
  | .integer _ name => .node ⟨.integerDecl, [emitField .name name]⟩ []
  | .mem _ name depth width init =>
    .node ⟨.memDecl, [emitField .name name]⟩ (exprTree depth :: exprTree width :: exprTrees init)
  | .funcSelf _ name dummyArgs returnTerminal =>
    .node ⟨.funcSelfDecl, emitField .name name ::
      (emitNonempty .returnTerminal returnTerminal ++ emitNames .dummyArgs dummyArgs)⟩ []
  | .procName _ name regArgs =>
    .node ⟨.procNameDecl, emitField .name name :: emitNames .regArgs regArgs⟩ []
  | .stateName _ names => .node ⟨.stateNameDecl, [⟨.names, .list names⟩]⟩ []
  | .firstState target => .node ⟨.firstStateDecl, [emitField .target target]⟩ []
  | .submodule _ templateName instances paramAssigns =>
    .node ⟨.submoduleDecl, [emitField .templateName templateName]⟩
      (instances.map instanceTree ++ paramAssigns.map assignTree)
  | .structInst _ typeName instanceName kind arraySize init =>
    .node ⟨.structInstDecl, [emitField .typeName typeName, emitField .instanceName instanceName,
      emitField .storage kind.text]⟩ (exprTree? arraySize ++ exprTrees init)
  | .funcDefn _ name body => .node ⟨.funcDefn, [⟨.name, .parts name⟩]⟩ [stmtTree body]
  | .procDefn _ name body => .node ⟨.procDefn, [emitField .name name]⟩ [stmtTree body]
  | .stateDefn _ name body => .node ⟨.stateDefn, [emitField .name name]⟩ [stmtTree body]

def declTrees : List Decl → List Tree
  | [] => []
  | d :: ds => declTree d :: declTrees ds

end

def unitTree (cu : CompilationUnit) : Tree := .node ⟨.compilationUnit, []⟩ (declTrees cu)

/-- `print`, the `loc=` fields left out. -/
def print (cu : CompilationUnit) : Text := Sexp.render Head.text (unitTree cu) 0 ++ ['\n']

end AST

end Nslc
