import Nslc.AST.Syntax
/-!
# Lowering the syntax tree to `nsl` ops

`ASTToMLIR`: one visitor over the compilation unit, which keeps a table
of values by name, a set of control names, the struct and parameter
catalogs and the terminals parked by a `declare` for its module, all for
as long as it lives. An expression that cannot be lowered gives no
value, and what needs the value is dropped; ops emitted before that stay.

Ops are told apart by a number within their module. An operand is a
value of the module being emitted or of another one.
-/

namespace Nslc

namespace ASTToMLIR

open AST

/-! ## Literals -/

/-- Signed 64-bit arithmetic. -/
def wrap64 (v : ℤ) : ℤ := Int.bmod v (2 ^ 64)

/-- `unquoteStringLiteral`. -/
def unquoteStringLiteral (spelling : Text) : Text :=
  if 2 ≤ spelling.length ∧ spelling.head? = some '"' ∧ spelling.getLast? = some '"' then
    spelling.tail.dropLast
  else spelling

def isDecimal (c : Char) : Bool := '0' ≤ c && c ≤ '9'

/-- The loop of `resolveWidth`, in 32 bits. -/
def widthDigits : ℕ → Text → Option ℕ
  | v, [] => some v
  | v, c :: cs =>
    if isDecimal c then widthDigits ((v * 10 + (c.toNat - '0'.toNat)) % 2 ^ 32) cs else none

/-- What is not a decimal literal of digits only is one. -/
def resolveWidth (width : Option Expr) : ℕ :=
  match width with
  | some (.literal .decimal spelling) =>
    match widthDigits 0 spelling with
    | none => 1
    | some v => if v = 0 then 1 else v
  | _ => 1

/-- The loop of `resolveDecimalLiteral`. -/
def decimalDigits : ℤ → Text → Option ℤ
  | v, [] => some v
  | v, c :: cs =>
    if isDecimal c then decimalDigits (wrap64 (v * 10 + (c.toNat - '0'.toNat : ℕ))) cs else none

def resolveDecimalLiteral (e : Option Expr) : ℤ :=
  match e with
  | some (.literal .decimal spelling) => (decimalDigits 0 spelling).getD 0
  | _ => 0

/-- The width in front of the apostrophe, separators skipped. -/
def explicitWidth : ℕ → Text → Option ℕ
  | v, [] => some v
  | v, c :: cs =>
    if c = '_' then explicitWidth v cs
    else if isDecimal c then explicitWidth ((v * 10 + (c.toNat - '0'.toNat)) % 2 ^ 32) cs
    else none

def litBase : Lit → ℕ
  | .decimal => 10
  | .binary => 2
  | .hex => 16
  | .octal => 8
  | .string => 0

/-- A digit of any base; the markers `z`, `x` and `u` count as zero. -/
def litDigit? (c : Char) : Option ℕ :=
  if isDecimal c then some (c.toNat - '0'.toNat)
  else if 'a' ≤ c ∧ c ≤ 'f' then some (c.toNat - 'a'.toNat + 10)
  else if 'A' ≤ c ∧ c ≤ 'F' then some (c.toNat - 'A'.toNat + 10)
  else if c ∈ ['z', 'Z', 'x', 'X', 'u', 'U'] then some 0
  else none

def valueDigits (base : ℕ) : ℤ → Text → Option ℤ
  | v, [] => some v
  | v, c :: cs =>
    if c = '_' then valueDigits base v cs
    else
      match litDigit? c with
      | none => none
      | some d => if d < base then valueDigits base (wrap64 (v * base + d)) cs else none

/-- The base letter behind the apostrophe. -/
def skipBase (s : Text) : Text :=
  match s with
  | [] => []
  | c :: cs => if c ∈ ['d', 'b', 'h', 'o', 'D', 'B', 'H', 'O'] then cs else c :: cs

/-- The value, and the width where the literal states one. -/
structure ParsedNumericLiteral where
  value : ℤ
  width : Option ℕ
  deriving DecidableEq, Repr

def parseNumericLiteral (kind : Lit) (spelling : Text) : Option ParsedNumericLiteral :=
  if spelling = [] ∨ kind = .string then none
  else if '\'' ∈ spelling then
    match explicitWidth 0 (spelling.takeWhile (· ≠ '\'')) with
    | none => none
    | some w =>
      (valueDigits (litBase kind) 0 (skipBase (spelling.dropWhile (· ≠ '\'')).tail)).map
        fun v => ⟨v, some (if w = 0 then 1 else w)⟩
  else (valueDigits (litBase kind) 0 spelling).map fun v => ⟨v, none⟩

/-- The smallest width that holds the value, at least one. -/
def minUnsignedWidth (value : ℤ) : ℕ := if value ≤ 0 then 1 else Nat.size value.toNat

/-! ## Ops -/

inductive Ty where
  | bits (width : ℕ)
  | struct (name : Ident)
  | mem (depth width : ℕ)
  deriving DecidableEq, Repr

def Ty.width? : Ty → Option ℕ
  | .bits w => some w
  | _ => none

/-- An SSA result: the module it was emitted in, counted along the run,
and its number there. -/
structure Value where
  home : ℕ
  index : ℕ
  type : Ty
  deriving DecidableEq, Repr

/-- An operand as it stands in a module's body. -/
inductive Operand where
  | own (index : ℕ)
  | foreign (home index : ℕ)
  deriving DecidableEq, Repr

/-- The ops with a result. -/
inductive ValueOp where
  | port (direction : Direction) (name : Ident)
  | reg (name : Ident) (init : Option ℤ)
  | wire (name : Ident)
  | variable (name : Ident)
  | mem (name : Ident)
  | constant (value : ℤ)
  | binary (op : BinaryOp) (lhs rhs : Operand)
  | unary (op : UnaryOp) (operand : Operand)
  | signExtend (operand : Operand)
  | zeroExtend (operand : Operand)
  | mux (cond thenV elseV : Operand)
  | extract (operand : Operand) (lowBit : ℤ)
  | concat (operands : List Operand)
  | repeat (operand : Operand) (count : ℤ)
  | structCast (operand : Operand)
  | field (operand : Operand) (index : ℕ)
  deriving DecidableEq, Repr

inductive Op where
  | value (index : ℕ) (type : Ty) (op : ValueOp)
  /-- `nsl.func_in`, `nsl.func_out` and `nsl.func_self`. -/
  | terminal (direction : Direction) (name : Ident)
  | fireProbe (target : Ident)
  | transfer (dst src : Operand)
  | clockedTransfer (dst src : Operand)
  | call (callee : Text) (args : List Operand)
  | finish
  | simInit (body : List Op)
  | simDelay (cycles : ℤ)
  | simFinish (message : Text)
  | simDisplay (format : Text)
  | parallel (body : List Op)
  | seq (body : List Op)
  | alt (body : List Op)
  | any (body : List Op)
  | case (cond : Operand) (body : List Op)
  | default (body : List Op)
  | ifOp (cond : Operand) (thenRegion elseRegion : List Op)
  | while (cond : Operand) (body : List Op)
  | for (init cond : Operand) (step : Option Operand) (body : List Op)
  | structuralGenerate (lower upper step : ℤ) (loopVar : Option Ident) (body : List Op)
  | func (name : Text) (body : List Op)
  | proc (name : Ident) (body : List Op)
  | state (name : Ident) (body : List Op)
  | firstState (target : Ident)
  | struct (name : Ident) (fields : List (Ident × Ty))
  | paramInt (name : Ident) (value : ℤ)
  | paramStr (name : Ident) (value : Text)
  | declare (name : Ident) (clock reset : Option Ident) (body : List Op)
  | module (name : Ident) (body : List Op)
  deriving Repr

/-! ## The visitor's state -/

structure Visitor where
  nameTable : Ident → Option Value
  controlTable : Ident → Bool
  structTable : Ident → Option (List (Ident × Ty))
  paramTable : Ident → Option ℤ
  /-- `pendingControlTerminals_`. -/
  pending : Ident → List PortDecl
  /-- Modules emitted so far. -/
  modules : ℕ
  /-- The module being emitted. -/
  home : ℕ
  /-- The number of the next result in it. -/
  next : ℕ

namespace Visitor

def start : Visitor :=
  ⟨fun _ => none, fun _ => false, fun _ => none, fun _ => none, fun _ => [], 0, 0, 0⟩

def operand (b : Visitor) (v : Value) : Operand :=
  if v.home = b.home then .own v.index else .foreign v.home v.index

def nameValue (b : Visitor) (name : Ident) (v : Value) : Visitor :=
  { b with nameTable := Function.update b.nameTable name (some v) }

def nameControl (b : Visitor) (name : Ident) : Visitor :=
  { b with controlTable := Function.update b.controlTable name true }

end Visitor

/-! ## Expressions -/

/-- What lowering an expression leaves: the ops emitted, the result where
there is one, and the next number. -/
structure Out (α : Type) where
  ops : List Op
  value : Option α
  next : ℕ

namespace Out

variable {α β : Type}

/-- Nothing emitted and no result. -/
def fail (n : ℕ) : Out α := ⟨[], none, n⟩

def pure (n : ℕ) (a : α) : Out α := ⟨[], some a, n⟩

/-- Go on with the result; without one the rest is not lowered. -/
def andThen (o : Out α) (f : α → ℕ → Out β) : Out β :=
  match o.value with
  | none => ⟨o.ops, none, o.next⟩
  | some a => ⟨o.ops ++ (f a o.next).ops, (f a o.next).value, (f a o.next).next⟩

end Out

/-- Emit an op with a result. -/
def emitValue (b : Visitor) (n : ℕ) (type : Ty) (op : ValueOp) : Out Value :=
  ⟨[.value n type op], some ⟨b.home, n, type⟩, n + 1⟩

/-- The result type of a binary op: that of the operands, or one bit;
`none` where there is no op. -/
def binaryType? (op : BinaryOp) (type : Ty) : Option Ty :=
  match op with
  | .div | .mod => none
  | .equal | .notEqual | .less | .lessEqual | .greater | .greaterEqual | .logicalAnd
  | .logicalOr => some (.bits 1)
  | _ => some type

def unaryType (op : UnaryOp) (type : Ty) : Ty :=
  match op with
  | .plus | .neg | .bitNot => type
  | _ => .bits 1

/-- The chain of `nsl.field` along a member path. -/
def lowerMembers (b : Visitor) (n : ℕ) (cur : Value) (fields : List (Ident × Ty)) :
    List Ident → Out Value
  | [] => .pure n cur
  | member :: path =>
    match fields.findIdx? (fun f => f.1 = member) with
    | none => .fail n
    | some i =>
      let type := ((fields[i]?).map Prod.snd).getD (.bits 1)
      (emitValue b n type (.field (b.operand cur) i)).andThen fun v n =>
        match type with
        | .struct name =>
          match b.structTable name with
          | none => .fail n
          | some nested => lowerMembers b n v nested path
        | _ => lowerMembers b n v fields path

/-- The count of a `RepeatExpr`: a decimal literal or a parameter. -/
@[grind =] def repeatCount (b : Visitor) (count : Expr) : ℤ :=
  match count with
  | .literal _ _ => resolveDecimalLiteral (some count)
  | .identifier _ [name] => (b.paramTable name).getD 0
  | _ => 0

mutual

@[grind =] def lowerExpr (b : Visitor) (n : ℕ) (hint : Option Ty) (e : Expr) : Out Value :=
  match e with
  | .literal kind spelling =>
    match parseNumericLiteral kind spelling with
    | none => .fail n
    | some p =>
      let width := p.width.getD ((hint.bind Ty.width?).getD (minUnsignedWidth p.value))
      emitValue b n (.bits width) (.constant p.value)
  | .identifier _ name =>
    match name with
    | [leaf] =>
      if b.controlTable leaf then ⟨[.fireProbe leaf], none, n⟩
      else ⟨[], b.nameTable leaf, n⟩
    | _ => .fail n
  | .binary op lhs rhs =>
    (lowerExpr b n hint lhs).andThen fun l n =>
      (lowerExpr b n (some l.type) rhs).andThen fun r n =>
        match binaryType? op l.type with
        | none => .fail n
        | some type => emitValue b n type (.binary op (b.operand l) (b.operand r))
  | .unary op sub =>
    (lowerExpr b n hint sub).andThen fun v n =>
      if op = .plus then .pure n v
      else emitValue b n (unaryType op v.type) (.unary op (b.operand v))
  | .signExtend width sub =>
    let type := Ty.bits (resolveWidth (some width))
    (lowerExpr b n (some type) sub).andThen fun v n =>
      emitValue b n type (.signExtend (b.operand v))
  | .zeroExtend width sub =>
    let type := Ty.bits (resolveWidth (some width))
    (lowerExpr b n (some type) sub).andThen fun v n =>
      emitValue b n type (.zeroExtend (b.operand v))
  | .conditional cond thenE elseE =>
    (lowerExpr b n (some (.bits 1)) cond).andThen fun c n =>
      (lowerExpr b n hint thenE).andThen fun t n =>
        (lowerExpr b n (some t.type) elseE).andThen fun e n =>
          emitValue b n t.type (.mux (b.operand c) (b.operand t) (b.operand e))
  | .slice _ sub hi lo =>
    (lowerExpr b n none sub).andThen fun v n =>
      let h := resolveDecimalLiteral (some hi)
      let l := if lo.isSome then resolveDecimalLiteral lo else h
      if h < l then .fail n
      else emitValue b n (.bits ((h - l + 1).toNat % 2 ^ 32)) (.extract (b.operand v) l)
  | .concat parts =>
    (lowerAll b n true parts).andThen fun vs n =>
      if vs = [] then .fail n
      else
        let width := (vs.map fun v => v.type.width?.getD 0).sum % 2 ^ 32
        emitValue b n (.bits width) (.concat (vs.map b.operand))
  | .structCast typeName sub memberPath =>
    (lowerExpr b n none sub).andThen fun v n =>
      if memberPath = [] then emitValue b n (.struct typeName) (.structCast (b.operand v))
      else
        match b.structTable typeName with
        | none => .fail n
        | some fields =>
          (emitValue b n (.struct typeName) (.structCast (b.operand v))).andThen fun cur n =>
            lowerMembers b n cur fields memberPath
  | .fieldAccess obj field =>
    (lowerExpr b n none obj).andThen fun v n =>
      match v.type with
      | .struct name =>
        match b.structTable name with
        | none => .fail n
        | some fields =>
          match fields.findIdx? (fun f => f.1 = field) with
          | none => .fail n
          | some i =>
            emitValue b n (((fields[i]?).map Prod.snd).getD (.bits 1)) (.field (b.operand v) i)
      | _ => .fail n
  | .repeat count body =>
    if repeatCount b count < 1 then .fail n
    else
      (lowerExpr b n none body).andThen fun v n =>
        match v.type with
        | .bits w =>
          let width := (repeatCount b count).toNat * w % 2 ^ 32
          emitValue b n (.bits width) (.repeat (b.operand v) (repeatCount b count))
        | _ => .fail n
  -- calls, increments and system variables have no lowering
  | .call _ _ _ | .incDec _ _ _ | .systemVar _ => .fail n

/-- The parts of a concatenation, which must have a bit type, or the
arguments of a call. -/
def lowerAll (b : Visitor) (n : ℕ) (bitsOnly : Bool) (es : List Expr) : Out (List Value) :=
  match es with
  | [] => .pure n []
  | e :: es =>
    (lowerExpr b n none e).andThen fun v n =>
      if bitsOnly ∧ v.type.width? = none then .fail n
      else (lowerAll b n bitsOnly es).andThen fun vs n => .pure n (v :: vs)

end

/-! ## Declarations -/

/-- An op with a result that is found by name from here on. -/
def Visitor.define (b : Visitor) (name : Ident) (type : Ty) (op : ValueOp) :
    Visitor × List Op :=
  ({ b with next := b.next + 1 }.nameValue name ⟨b.home, b.next, type⟩, [.value b.next type op])

/-- `visit(PortDecl)`. -/
def visitPort (b : Visitor) (p : PortDecl) : Visitor × List Op :=
  match p.direction with
  | .funcIn | .funcOut | .funcSelf => (b.nameControl p.name, [.terminal p.direction p.name])
  | .input | .output | .inout =>
    b.define p.name (.bits (resolveWidth p.width)) (.port p.direction p.name)
  -- there is no op for a wire of a `declare`
  | .wire => (b, [])

def visitPorts : Visitor → List PortDecl → Visitor × List Op
  | b, [] => (b, [])
  | b, p :: ps =>
    let r := visitPort b p
    let rs := visitPorts r.1 ps
    (rs.1, r.2 ++ rs.2)

/-- The data terminals in the body of an `nsl.declare`. -/
def declarePorts : ℕ → List PortDecl → List Op
  | _, [] => []
  | n, p :: ps =>
    match p.direction with
    | .input | .output | .inout =>
      .value n (.bits (resolveWidth p.width)) (.port p.direction p.name) ::
        declarePorts (n + 1) ps
    | _ => declarePorts n ps

/-- The terminals a `declare` parks for its module. -/
def parkedPorts (ports : List PortDecl) : List PortDecl :=
  ports.filter fun p => p.direction ≠ .wire

def structFields (members : List StructMember) : List (Ident × Ty) :=
  members.map fun m => (m.name, .bits (resolveWidth m.width))

/-- Only a decimal literal is kept as the initial value of a register. -/
def regInit : Option Expr → Option ℤ
  | some (.literal .decimal spelling) =>
    some (resolveDecimalLiteral (some (.literal .decimal spelling)))
  | _ => none

/-- The text of a string literal. -/
def stringLiteral : Option Expr → Text
  | some (.literal .string spelling) => unquoteStringLiteral spelling
  | _ => []

def visitParam (b : Visitor) (p : TopLevelParamDecl) : Visitor × List Op :=
  if p.name = [] then (b, [])
  else
    match p.kind with
    | .int =>
      let value := resolveDecimalLiteral p.init
      ({ b with paramTable := Function.update b.paramTable p.name (some value) },
        [.paramInt p.name value])
    | .str => (b, [.paramStr p.name (stringLiteral p.init)])

/-- `name.name` -/
def flatName (name : ScopedName) : Text := List.intercalate ['.'] name

/-! ## Statements -/

/-- `currentModule_` and `currentProc_`, as far as they are read: the
names of the module's procs and of the proc's states with a body. -/
structure Enclosing where
  procs : List Ident
  states : List Ident

def procBodies (procs : List Decl) : List Ident :=
  procs.filterMap fun d =>
    match d with
    | .procDefn _ name _ => some name
    | _ => none

/-- The states among the declarations of a proc's outermost block. -/
def stateBodies : Stmt → List Ident
  | .parallel _ decls =>
    decls.filterMap fun d =>
      match d with
      | .stateDefn _ name _ => some name
      | _ => none
  | _ => []

/-- Go on with what an expression gives; without it the ops emitted so
far stay and the rest is not lowered. -/
def Visitor.withValue {α : Type} (b : Visitor) (o : Out α)
    (k : α → Visitor → Visitor × List Op) : Visitor × List Op :=
  match o.value with
  | none => ({ b with next := o.next }, o.ops)
  | some a =>
    let r := k a { b with next := o.next }
    (r.1, o.ops ++ r.2)

/-- Two expressions, the second lowered also where the first gives
nothing. -/
def Out.both {α β : Type} (o : Out α) (f : ℕ → Out β) : Out (α × β) :=
  let o' := f o.next
  ⟨o.ops ++ o'.ops, o.value.bind fun a => o'.value.map fun c => (a, c), o'.next⟩

/-- The loop variable an init or step statement names. -/
def loopTarget : Stmt → Option Expr
  | .transfer _ _ lhs _ => some lhs
  | .incDec target _ _ => some target
  | _ => none

def initTarget : Stmt → Option Expr
  | .transfer _ _ lhs _ => some lhs
  | _ => none

def resolveBound (params : Ident → Option ℤ) (e : Expr) (fallback : ℤ) : ℤ :=
  match e with
  | .literal _ _ => resolveDecimalLiteral (some e)
  | .identifier _ [name] => (params name).getD fallback
  | _ => fallback

/-- The bound a condition compares with, or the condition itself. -/
def upperBound (params : Ident → Option ℤ) : Expr → ℤ
  | .binary _ _ rhs => resolveBound params rhs 0
  | e => resolveBound params e 0

def stepAmount (params : Ident → Option ℤ) : Expr → ℤ
  | .binary _ _ rhs =>
    let step := resolveBound params rhs 1
    if step = 0 then 1 else step
  | _ => 1

def visitSystemTask (b : Visitor) (name : Ident) (args : List Expr) : Visitor × List Op :=
  if name = "_finish".toList then (b, [.simFinish (stringLiteral args.head?)])
  else if name = "_display".toList then (b, [.simDisplay (stringLiteral args.head?)])
  else (b, [])

mutual

/-- `accept`, or `lowerActionBody` with `flat`: there the items of a
parallel block stand without an op of their own. -/
@[grind =]
def visitStmt (ctx : Enclosing) (flat : Bool) (b : Visitor) (s : Stmt) : Visitor × List Op :=
  match s with
  | .transfer _ op lhs rhs =>
    b.withValue (lowerExpr b b.next none lhs) fun l b =>
      b.withValue (lowerExpr b b.next (some l.type) rhs) fun r b =>
        match op with
        | .regColonEq => (b, [.clockedTransfer (b.operand l) (b.operand r)])
        | .wireEq => (b, [.transfer (b.operand l) (b.operand r)])
  | .controlCall _ target args =>
    b.withValue (lowerAll b b.next false args) fun vs b =>
      (b, [.call (flatName target) (vs.map b.operand)])
  | .bareFinish _ => (b, [.finish])
  | .systemTask name args => visitSystemTask b name args
  | .initBlock items =>
    let r := visitStmts ctx b items
    (r.1, [.simInit r.2])
  | .delayTask count => (b, [.simDelay (resolveDecimalLiteral (some count))])
  | .parallel items decls =>
    let r := visitDecls ctx b decls
    let rs := visitStmts ctx r.1 items
    (rs.1, if flat then r.2 ++ rs.2 else [.parallel (r.2 ++ rs.2)])
  | .seq items decls =>
    let r := visitDecls ctx b decls
    let rs := visitStmts ctx r.1 items
    (rs.1, [.seq (r.2 ++ rs.2)])
  | .alt cases elseCase =>
    let r := visitCases ctx b cases
    let rs := visitElse ctx r.1 elseCase
    (rs.1, if r.2.2 || elseCase.isSome then [.alt (r.2.1 ++ rs.2)] else [])
  | .any cases elseCase =>
    let r := visitCases ctx b cases
    let rs := visitElse ctx r.1 elseCase
    (rs.1, if r.2.2 || elseCase.isSome then [.any (r.2.1 ++ rs.2)] else [])
  | .while cond items =>
    b.withValue (lowerExpr b b.next (some (.bits 1)) cond) fun c b =>
      let r := visitStmts ctx b items
      (r.1, [.while (b.operand c) r.2])
  | .for init cond step items =>
    match initTarget init with
    | none => (b, [])
    | some target =>
      b.withValue ((lowerExpr b b.next none target).both fun n =>
          lowerExpr b n (some (.bits 1)) cond) fun v b =>
        match step with
        | none =>
          let r := visitStmts ctx b items
          (r.1, [.for (b.operand v.1) (b.operand v.2) none r.2])
        | some step =>
          match loopTarget step with
          | none => (b, [])
          | some target =>
            b.withValue (lowerExpr b b.next none target) fun s b =>
              let r := visitStmts ctx b items
              (r.1, [.for (b.operand v.1) (b.operand v.2) (some (b.operand s)) r.2])
  | .if cond thenBr elseBr =>
    b.withValue (lowerExpr b b.next (some (.bits 1)) cond) fun c b =>
      let r := visitStmt ctx true b thenBr
      let rs := visitBranch ctx r.1 elseBr
      (rs.1, [.ifOp (b.operand c) r.2 rs.2])
  | .generate _ init initValue cond step body =>
    let r := visitStmt ctx true b body
    (r.1, [.structuralGenerate (resolveBound b.paramTable initValue 0)
      (upperBound b.paramTable cond) (stepAmount b.paramTable step)
      (if init = [] then none else some init) r.2])
  -- no lowering
  | .incDec _ _ _ | .return _ _ | .empty | .labeled _ _ | .goto _ => (b, [])

def visitStmts (ctx : Enclosing) (b : Visitor) (ss : List Stmt) : Visitor × List Op :=
  match ss with
  | [] => (b, [])
  | s :: ss =>
    let r := visitStmt ctx false b s
    let rs := visitStmts ctx r.1 ss
    (rs.1, r.2 ++ rs.2)

/-- The branch of an `if` that may be missing. -/
def visitBranch (ctx : Enclosing) (b : Visitor) (s : Option Stmt) : Visitor × List Op :=
  match s with
  | none => (b, [])
  | some s => visitStmt ctx true b s

/-- The `else` of an `alt` or `any`. -/
def visitElse (ctx : Enclosing) (b : Visitor) (s : Option Stmt) : Visitor × List Op :=
  match s with
  | none => (b, [])
  | some s =>
    let r := visitStmt ctx true b s
    (r.1, [.default r.2])

/-- The cases of an `alt` or `any`, and whether one was emitted; a case
whose condition gives nothing is left out. -/
def visitCases (ctx : Enclosing) (b : Visitor) (cs : List CondCase) :
    Visitor × List Op × Bool :=
  match cs with
  | [] => (b, [], false)
  | ⟨cond, body⟩ :: cs =>
    let o := lowerExpr b b.next (some (.bits 1)) cond
    match o.value with
    | none =>
      let rs := visitCases ctx { b with next := o.next } cs
      (rs.1, o.ops ++ rs.2.1, rs.2.2)
    | some c =>
      let r := visitStmt ctx true { b with next := o.next } body
      let rs := visitCases ctx r.1 cs
      (rs.1, o.ops ++ .case (b.operand c) r.2 :: rs.2.1, true)

@[grind =] def visitDecl (ctx : Enclosing) (b : Visitor) (d : Decl) : Visitor × List Op :=
  match d with
  | .topLevelParam p => visitParam b p
  | .struct _ name members =>
    ({ b with structTable := Function.update b.structTable name (some (structFields members)) },
      [.struct name (structFields members)])
  | .declare name modifier clockName resetName _ ports =>
    ({ b with pending := Function.update b.pending name (b.pending name ++ parkedPorts ports) },
      [.declare name
        (if modifier = .interface ∧ clockName ≠ [] then some clockName else none)
        (if modifier = .interface ∧ resetName ≠ [] then some resetName else none)
        (declarePorts 0 ports)])
  | .module _ name internals actions funcs procs =>
    let ctx := { ctx with procs := procBodies procs }
    let home := b.modules + 1
    let r := visitPorts { b with modules := home, home := home, next := 0 } (b.pending name)
    let r₁ := visitDecls ctx { r.1 with pending := Function.update r.1.pending name [] } internals
    let r₂ := visitDecls ctx r₁.1 funcs
    let r₃ := visitDecls ctx r₂.1 procs
    let r₄ := visitStmts ctx r₃.1 actions
    ({ r₄.1 with home := b.home, next := b.next },
      [.module name (r.2 ++ r₁.2 ++ r₂.2 ++ r₃.2 ++ r₄.2)])
  | .port p => visitPort b p
  | .reg _ name width init => b.define name (.bits (resolveWidth width)) (.reg name (regInit init))
  | .wire _ name width => b.define name (.bits (resolveWidth width)) (.wire name)
  | .variable _ name width => b.define name (.bits (resolveWidth width)) (.variable name)
  | .mem _ name depth width _ =>
    b.define name (.mem (resolveWidth (some depth)) (resolveWidth (some width))) (.mem name)
  | .funcSelf _ name _ _ => (b.nameControl name, [.terminal .funcSelf name])
  | .procName _ name _ => (if ctx.procs.contains name then b.nameControl name else b, [])
  | .stateName _ names =>
    ((names.filter ctx.states.contains).foldl Visitor.nameControl b, [])
  | .firstState target => (b, [.firstState target])
  -- a wire of a struct type has no op
  | .structInst _ typeName instanceName kind _ _ =>
    match kind with
    | .reg => b.define instanceName (.struct typeName) (.reg instanceName none)
    | .wire => (b, [])
  | .funcDefn _ name body =>
    let r := visitStmt ctx true b body
    (r.1, [.func (flatName name) r.2])
  | .procDefn _ name body =>
    let r := visitStmt { ctx with states := stateBodies body } true b body
    (r.1, [.proc name r.2])
  | .stateDefn _ name body =>
    let r := visitStmt ctx true b body
    (r.1, [.state name r.2])
  | .integer _ _ | .submodule _ _ _ _ => (b, [])

def visitDecls (ctx : Enclosing) (b : Visitor) (ds : List Decl) : Visitor × List Op :=
  match ds with
  | [] => (b, [])
  | d :: ds =>
    let r := visitDecl ctx b d
    let rs := visitDecls ctx r.1 ds
    (rs.1, r.2 ++ rs.2)

end

/-- `ASTToMLIR::lower`. -/
def lower (cu : CompilationUnit) : List Op := (visitDecls ⟨[], []⟩ Visitor.start cu).2

end ASTToMLIR

end Nslc
