import Nslc.Parse.Tokens
/-!
# Parse — expressions

The Pratt parser of `ParseExpr.cpp`. It returns the tree of what it has
read, with the grouping parentheses; `toExpr` is the node the source
builds of it. The loops and the recursion take a number of iterations.
-/

namespace Nslc

namespace Parse

open AST Nslc.Lex Descent

/-- What an expression is read as. A location is the number of the token
a node begins with; where there is none the node begins as its first
part does. -/
inductive ExprTree where
  | literal (loc : Loc) (lit : Lit) (spelling : Text)
  /-- A name of several parts is only read at the head of a statement. -/
  | name (loc : Loc) (head : Ident) (path : List Ident)
  | systemVar (loc : Loc) (var : SystemVar)
  | paren (e : ExprTree)
  /-- `(T)(e).m.n` -/
  | structCast (loc : Loc) (typeName : Ident) (e : ExprTree) (first : Ident) (path : List Ident)
  /-- `{ a, b }`, or `.{ a, b }`. -/
  | concat (loc : Loc) (dotted : Bool) (parts : List ExprTree)
  | unary (loc : Loc) (op : UnaryOp) (e : ExprTree)
  | preIncDec (loc : Loc) (op : IncDecOp) (e : ExprTree)
  | ifElse (loc : Loc) (cond thenE elseE : ExprTree)
  | bit (e hi : ExprTree)
  | slice (e hi lo : ExprTree)
  | field (e : ExprTree) (name : Ident)
  | call (e : ExprTree) (args : List ExprTree)
  | repeat (count body : ExprTree)
  | signExtend (width e : ExprTree)
  | zeroExtend (width e : ExprTree)
  | postIncDec (op : IncDecOp) (e : ExprTree)
  | ternary (cond thenE elseE : ExprTree)
  | binary (op : BinaryOp) (lhs rhs : ExprTree)

/-- The null pointer a missing `else` leaves, behind the report on it: a
literal without a spelling, which no token has. -/
def ExprTree.null : ExprTree := .literal 0 .decimal []

/-! ## The precedence table -/

def litOf : TokenKind → Option Lit
  | .decimalLit => some .decimal
  | .hexLit => some .hex
  | .binaryLit => some .binary
  | .octalLit => some .octal
  | .stringLit => some .string
  | _ => none

def unaryOf : TokenKind → Option UnaryOp
  | .minus => some .neg
  | .plus => some .plus
  | .tilde => some .bitNot
  | .logicalNot => some .logicalNot
  | .amp => some .reduceAnd
  | .pipe => some .reduceOr
  | .caret => some .reduceXor
  | _ => none

def binaryOf : TokenKind → Option BinaryOp
  | .plus => some .add
  | .minus => some .sub
  | .star => some .mul
  | .slash => some .div
  | .percent => some .mod
  | .amp => some .bitAnd
  | .pipe => some .bitOr
  | .caret => some .bitXor
  | .shiftLeft => some .shiftLeft
  | .shiftRight => some .shiftRight
  | .equal => some .equal
  | .notEqual => some .notEqual
  | .less => some .less
  | .lessEqual => some .lessEqual
  | .greater => some .greater
  | .greaterEqual => some .greaterEqual
  | .logicalAnd => some .logicalAnd
  | .logicalOr => some .logicalOr
  | _ => none

def incDecOf : TokenKind → Option IncDecOp
  | .plusPlus => some .inc
  | .minusMinus => some .dec
  | _ => none

namespace PrecLevel

def conditional : ℕ := 5
def logicalOr : ℕ := 10
def multiplicative : ℕ := 100

end PrecLevel

/-- `ledPrec`, `none` for a token that is no infix. Only `?` associates
to the right. -/
def ledPrec : TokenKind → Option ℕ
  | .question => some PrecLevel.conditional
  | .logicalOr => some PrecLevel.logicalOr
  | .logicalAnd => some 20
  | .pipe => some 30
  | .caret => some 40
  | .amp => some 50
  | .equal | .notEqual => some 60
  | .less | .lessEqual | .greater | .greaterEqual => some 70
  | .shiftLeft | .shiftRight => some 80
  | .plus | .minus => some 90
  | .star | .slash | .percent | .hashSignExtend | .apostropheZeroExtend =>
    some PrecLevel.multiplicative
  | .plusPlus | .minusMinus => some 110
  | _ => none

/-! ## The parser -/

section Rules

-- `parseExprAtPrecedence` one level of recursion down, and the
-- iterations of a loop
variable (self : ℕ → Rule ExprTree) (fuel : ℕ)

/-- Behind `(` at the token `idx`: a struct cast if `T ) (` follows. -/
def parenOrCast (idx : ℕ) : Rule ExprTree := do
  match ← acceptAll [(· == .identifier), (· == .rparen), (· == .lparen)] with
  | some (t :: _) =>
    let e ← self 0
    let _ ← expect .rparen "')' after struct-cast expression"
    let _ ← expect .dot "'.' after struct-cast — member access required"
    let first ← identifierLike "expected member name after '.'"
    let path ← moreOf .dot (identifierLike "expected member name after '.'") fuel
    return .structCast idx t.spelling e first.tok.spelling (path.map (·.tok.spelling))
  | _ =>
    let e ← self 0
    let _ ← expect .rparen "')' after expression"
    return .paren e

/-- Behind `if` at the token `idx`. -/
def ifExpr (idx : ℕ) : Rule ExprTree := do
  let _ ← expect .lparen "'(' after 'if'"
  let cond ← self 0
  let _ ← expect .rparen "')' after if-condition"
  let thenE ← self PrecLevel.logicalOr
  if ← accept .else_ then
    let elseE ← self PrecLevel.logicalOr
    return .ifElse idx cond thenE elseE
  else
    Rule.note ⟨true, idx, "conditional expression requires an 'else' branch (S14)"⟩
    return .ifElse idx cond thenE .null

/-- The cases of `parseNudExpr`. -/
def nudCase (t : At) : Option (Rule ExprTree) :=
  match t.tok.kind with
  | .identifier | .label => (nameCase t).map fun p => do
    let t ← p
    return .name t.idx t.tok.spelling []
  | .systemFunction =>
    some (pure (.systemVar t.idx (if t.tok.spelling = "_time".toList then .time else .random)))
  | .lparen => some (parenOrCast self fuel t.idx)
  | .lbrace => some do
    let parts ← listUpTo .rbrace (self 0) (self 0) "'\x7d' after concat expression" fuel
    return .concat t.idx false parts
  | .dotLbrace => some do
    let parts ← listUpTo .rbrace (self 0) (self 0) "'\x7d' after .\x7b...\x7d concat" fuel
    return .concat t.idx true parts
  | .if_ => some (ifExpr self t.idx)
  | k =>
    match litOf k, unaryOf k, incDecOf k with
    | some lit, _, _ => some (pure (.literal t.idx lit t.tok.spelling))
    | none, some op, _ => some do
      let e ← self PrecLevel.multiplicative
      return .unary t.idx op e
    | none, none, some op => some do
      let e ← self PrecLevel.multiplicative
      return .preIncDec t.idx op e
    | none, none, none => none

def parseNudExpr : Rule ExprTree := onNext (nudCase self fuel) (reject "expected expression")

/-- One turn of `parsePostfix`. -/
def postfixCase (head : ExprTree) (t : At) : Option (Rule (ExprTree ⊕ ExprTree)) :=
  match t.tok.kind with
  | .lbracket => some do
    let hi ← self 0
    if ← accept .colon then
      let lo ← self 0
      let _ ← expect .rbracket "']' after slice"
      return .inl (.slice head hi lo)
    else
      let _ ← expect .rbracket "']' after slice"
      return .inl (.bit head hi)
  | .dot => some do
    let field ← identifierLike "expected field name after '.'"
    return .inl (.field head field.tok.spelling)
  | .lparen => some do
    let args ← listUpTo .rparen (self 0) (self 0) "')' after argument list" fuel
    return .inl (.call head args)
  | _ => none

def parsePostfix (head : ExprTree) : Rule ExprTree :=
  Rule.loop (fun head => onNext (postfixCase self fuel head) (pure (.inr head))) fuel head

/-- `<count> { <body> }`. -/
def repeatTail (lhs : ExprTree) : Rule ExprTree := do
  if ← accept .lbrace then
    let body ← self 0
    let _ ← expect .rbrace "'\x7d' after repeat-expression body"
    return .repeat lhs body
  else return lhs

/-- What follows an infix of the given precedence. -/
def ledRule (lhs : ExprTree) (k : TokenKind) (prec : ℕ) : Option (Rule ExprTree) :=
  match k with
  | .hashSignExtend => some do
    let e ← parseNudExpr self fuel
    let e ← parsePostfix self fuel e
    return .signExtend lhs e
  | .apostropheZeroExtend => some do
    let _ ← expect .lparen "'(' after zero-extend ''"
    let e ← self 0
    let _ ← expect .rparen "')' after zero-extend expression"
    return .zeroExtend lhs e
  | .plusPlus => some (pure (.postIncDec .inc lhs))
  | .minusMinus => some (pure (.postIncDec .dec lhs))
  | .question => some do
    let thenE ← self PrecLevel.conditional
    let _ ← expect .colon "':' in ternary expression"
    let elseE ← self PrecLevel.conditional
    return .ternary lhs thenE elseE
  | k => (binaryOf k).map fun op => do
    let rhs ← self (prec + 1)
    return .binary op lhs rhs

/-- One turn of the Pratt loop. -/
def ledCase (floor : ℕ) (lhs : ExprTree) (t : At) : Option (Rule (ExprTree ⊕ ExprTree)) :=
  match ledPrec t.tok.kind with
  | none => none
  | some prec =>
    if prec < floor then none
    else (ledRule self fuel lhs t.tok.kind prec).map fun p => do
      let e ← p
      return .inl e

end Rules

/-- `parseExprAtPrecedence`. -/
def exprAt : ℕ → ℕ → Rule ExprTree
  | 0, _ => Rule.spinning
  | fuel + 1, floor => do
    let lhs ← parseNudExpr (exprAt fuel) fuel
    let lhs ← parsePostfix (exprAt fuel) fuel lhs
    let lhs ← repeatTail (exprAt fuel) lhs
    Rule.loop (fun lhs => onNext (ledCase (exprAt fuel) fuel floor lhs) (pure (.inr lhs))) fuel lhs

def parseExpr (fuel : ℕ) : Rule ExprTree := exprAt fuel 0

/-! ## Words -/

def UnaryOp.kind : UnaryOp → TokenKind
  | .neg => .minus
  | .plus => .plus
  | .bitNot => .tilde
  | .logicalNot => .logicalNot
  | .reduceAnd => .amp
  | .reduceOr => .pipe
  | .reduceXor => .caret

def BinaryOp.kind : BinaryOp → TokenKind
  | .add => .plus
  | .sub => .minus
  | .mul => .star
  | .div => .slash
  | .mod => .percent
  | .bitAnd => .amp
  | .bitOr => .pipe
  | .bitXor => .caret
  | .shiftLeft => .shiftLeft
  | .shiftRight => .shiftRight
  | .equal => .equal
  | .notEqual => .notEqual
  | .less => .less
  | .lessEqual => .lessEqual
  | .greater => .greater
  | .greaterEqual => .greaterEqual
  | .logicalAnd => .logicalAnd
  | .logicalOr => .logicalOr

def IncDecOp.kind : IncDecOp → TokenKind
  | .inc => .plusPlus
  | .dec => .minusMinus

/-- `.m.n` -/
def pathWords (path : List Ident) : List Word := path.flatMap fun m => [.sym .dot, .name m]

def nameWords : ScopedName → List Word
  | [] => []
  | x :: path => .name x :: pathWords path

namespace ExprTree

/-- The name that is called: nothing unless the callee is an
identifier. -/
def callee : ExprTree → ScopedName
  | .name _ x path => x :: path
  | .paren e => e.callee
  | _ => []

mutual

/-- The words a tree was read from. In its core there are no grouping
parentheses and no callees but identifiers, `.{` is written `{`, and a
conditional with `if`. -/
def layout (full : Bool) : ExprTree → List Word
  | .literal _ lit x => [.literal lit x]
  | .name _ x path => nameWords (x :: path)
  | .systemVar _ var => [.systemVar var]
  | .paren e =>
    if full then .sym .lparen :: (e.layout full ++ [.sym .rparen]) else e.layout full
  | .structCast _ t e first path =>
    [.sym .lparen, .name t, .sym .rparen, .sym .lparen] ++ (e.layout full ++
      ([.sym .rparen] ++ pathWords (first :: path)))
  | .concat _ dotted parts =>
    .sym (if full && dotted then .dotLbrace else .lbrace) :: (listLayout full parts ++
      [.sym .rbrace])
  | .unary _ op e => .sym (UnaryOp.kind op) :: e.layout full
  | .preIncDec _ op e => .sym (IncDecOp.kind op) :: e.layout full
  | .ifElse _ c a b =>
    [.sym .if_, .sym .lparen] ++ (c.layout full ++ (.sym .rparen :: (a.layout full ++
      (.sym .else_ :: b.layout full))))
  | .bit e hi => e.layout full ++ (.sym .lbracket :: (hi.layout full ++ [.sym .rbracket]))
  | .slice e hi lo =>
    e.layout full ++ (.sym .lbracket :: (hi.layout full ++ (.sym .colon :: (lo.layout full ++
      [.sym .rbracket]))))
  | .field e x => e.layout full ++ [.sym .dot, .name x]
  | .call e args =>
    (if full then e.layout full else nameWords e.callee) ++
      (.sym .lparen :: (listLayout full args ++ [.sym .rparen]))
  | .repeat count body =>
    count.layout full ++ (.sym .lbrace :: (body.layout full ++ [.sym .rbrace]))
  | .signExtend width e => width.layout full ++ (.sym .hashSignExtend :: e.layout full)
  | .zeroExtend width e =>
    width.layout full ++ ([.sym .apostropheZeroExtend, .sym .lparen] ++ (e.layout full ++
      [.sym .rparen]))
  | .postIncDec op e => e.layout full ++ [.sym (IncDecOp.kind op)]
  | .ternary c a b =>
    if full then
      c.layout full ++ (.sym .question :: (a.layout full ++ (.sym .colon :: b.layout full)))
    else
      [.sym .if_, .sym .lparen] ++ (c.layout full ++ (.sym .rparen :: (a.layout full ++
        (.sym .else_ :: b.layout full))))
  | .binary op l r => l.layout full ++ (.sym (BinaryOp.kind op) :: r.layout full)

/-- Separated by commas. -/
def listLayout (full : Bool) : List ExprTree → List Word
  | [] => []
  | e :: es => e.layout full ++ moreLayout full es

def moreLayout (full : Bool) : List ExprTree → List Word
  | [] => []
  | e :: es => .sym .comma :: (e.layout full ++ moreLayout full es)

end

def words (t : ExprTree) : List Word := t.layout true

def core (t : ExprTree) : List Word := t.layout false

/-! ## The node -/

/-- `loc().begin()`. A grouped expression is the node inside. -/
def begin : ExprTree → Loc
  | .literal loc _ _ | .name loc _ _ | .systemVar loc _ | .structCast loc _ _ _ _
  | .concat loc _ _ | .unary loc _ _ | .preIncDec loc _ _ | .ifElse loc _ _ _ => loc
  | .paren e | .bit e _ | .slice e _ _ | .field e _ | .call e _ | .repeat e _ | .signExtend e _
  | .zeroExtend e _ | .postIncDec _ e | .ternary e _ _ | .binary _ e _ => e.begin

/-- What a call takes over from its head. -/
def targetOf : Expr → ScopedName
  | .identifier _ parts => parts
  | _ => []

mutual

/-- The node that is built of what was read. -/
def toExpr : ExprTree → Expr
  | .literal _ lit x => .literal lit x
  | .name loc x path => .identifier loc (x :: path)
  | .systemVar _ var => .systemVar var
  | .paren e => e.toExpr
  | .structCast _ t e first path => .structCast t e.toExpr (first :: path)
  | .concat _ _ parts => .concat (toExprs parts)
  | .unary _ op e => .unary op e.toExpr
  | .preIncDec _ op e => .incDec e.toExpr op true
  | .ifElse _ c a b => .conditional c.toExpr a.toExpr b.toExpr
  | .bit e hi => .slice e.begin e.toExpr hi.toExpr none
  | .slice e hi lo => .slice e.begin e.toExpr hi.toExpr (some lo.toExpr)
  | .field e x => .fieldAccess e.toExpr x
  | .call e args => .call e.begin (targetOf e.toExpr) (toExprs args)
  | .repeat count body => .repeat count.toExpr body.toExpr
  | .signExtend width e => .signExtend width.toExpr e.toExpr
  | .zeroExtend width e => .zeroExtend width.toExpr e.toExpr
  | .postIncDec op e => .incDec e.toExpr op false
  | .ternary c a b => .conditional c.toExpr a.toExpr b.toExpr
  | .binary op l r => .binary op l.toExpr r.toExpr

def toExprs : List ExprTree → List Expr
  | [] => []
  | e :: es => e.toExpr :: toExprs es

end

theorem toExprs_eq_map (es : List ExprTree) : toExprs es = es.map toExpr := by
  induction es with
  | nil => rfl
  | cons e es ih => rw [toExprs, ih, List.map_cons]

end ExprTree

/-! ## A tree has the words that were read -/

theorem ExprTree.moreLayout_eq (es : List ExprTree) :
    moreLayout true es = es.flatMap fun e => .sym .comma :: e.words := by
  induction es with
  | nil => rfl
  | cons e es ih => simp [moreLayout, ih, words]

theorem ExprTree.listLayout_eq (es : List ExprTree) : listLayout true es = commaWords words es := by
  cases es with
  | nil => rfl
  | cons e es => rw [listLayout, commaWords, moreLayout_eq, words]

theorem wordsOf_of_litOf {t : Tok} {lit : Lit} (h : litOf t.kind = some lit) :
    wordsOf [t] = [.literal lit t.spelling] := by
  unfold litOf at h
  split at h <;> simp_all [wordsOf, Tok.word]

theorem wordsOf_of_unaryOf {t : Tok} {op : UnaryOp} (h : unaryOf t.kind = some op) :
    wordsOf [t] = [.sym (UnaryOp.kind op)] := by
  unfold unaryOf at h
  split at h <;> (rename_i hk; cases h <;> simp [wordsOf, Tok.word, hk, UnaryOp.kind])

theorem wordsOf_of_incDecOf {t : Tok} {op : IncDecOp} (h : incDecOf t.kind = some op) :
    wordsOf [t] = [.sym (IncDecOp.kind op)] := by
  unfold incDecOf at h
  split at h <;> (rename_i hk; cases h <;> simp [wordsOf, Tok.word, hk, IncDecOp.kind])

theorem wordsOf_of_binaryOf {t : Tok} {op : BinaryOp} (h : binaryOf t.kind = some op) :
    wordsOf [t] = [.sym (BinaryOp.kind op)] := by
  unfold binaryOf at h
  split at h <;> (rename_i hk; cases h <;> simp [wordsOf, Tok.word, hk, BinaryOp.kind])

section Reads

variable {self : ℕ → Rule ExprTree} (hself : ∀ floor, Yields view (self floor) ExprTree.words)
  (fuel : ℕ)

include hself

theorem reads_parenOrCast (idx : ℕ) {pre : List Word} :
    Reads view (parenOrCast self fuel idx) (pre ++ [.sym .lparen]) fun e ws =>
      ws = pre ++ e.words := by
  refine reads_bind (reads_acceptAll _) ?_
  rintro (_ | ts) ws ⟨hsome, hnone⟩
  · obtain rfl := hnone rfl
    refine (hself 0).bind fun e => ?_
    refine (yields_expect rfl _).bind fun _ => reads_pure ?_
    simp [ExprTree.words, ExprTree.layout]
  · obtain ⟨hall, rfl⟩ := hsome ts rfl
    -- three tests, three tokens
    obtain _ | ⟨ht, _ | ⟨hr, _ | ⟨hl, _ | _⟩⟩⟩ := hall
    rename_i t r l
    have hwords : wordsOf [t, r, l] = [.name t.spelling, .sym .rparen, .sym .lparen] := by
      have ht' : t.kind = .identifier := by simpa using ht
      have hr' : r.kind = .rparen := by simpa using hr
      have hl' : l.kind = .lparen := by simpa using hl
      simp [wordsOf, Tok.word, ht', hr', hl']
    rw [hwords]
    refine (hself 0).bind fun e => ?_
    refine (yields_expect rfl _).bind fun _ => ?_
    refine (yields_expect rfl _).bind fun _ => ?_
    refine (yields_identifierLike _).bind fun first => ?_
    refine (yields_moreOf rfl (yields_identifierLike _) fuel).bind fun path => reads_pure ?_
    simp [ExprTree.words, ExprTree.layout, pathWords, List.flatMap_map]

theorem reads_ifExpr (idx : ℕ) {pre : List Word} :
    Reads view (ifExpr self idx) (pre ++ [.sym .if_]) fun e ws => ws = pre ++ e.words := by
  refine (yields_expect rfl _).bind fun _ => ?_
  refine (hself 0).bind fun c => ?_
  refine (yields_expect rfl _).bind fun _ => ?_
  refine (hself _).bind fun a => ?_
  refine (yields_accept rfl).bind fun b => ?_
  cases b with
  | true =>
    refine (hself _).bind fun b => reads_pure ?_
    simp [ExprTree.words, ExprTree.layout]
  | false => exact reads_reject rfl

theorem reads_nudCase {t : At} {p : Rule ExprTree} (hp : nudCase self fuel t = some p)
    {pre : List Word} :
    Reads view p (pre ++ wordsOf [t.tok]) fun e ws => ws = pre ++ e.words := by
  have hname : ∀ q, ((nameCase t).map fun p => do
      let t ← p
      return ExprTree.name t.idx t.tok.spelling []) = some q →
      Reads view q (pre ++ wordsOf [t.tok]) fun e ws => ws = pre ++ e.words := by
    intro q hq
    obtain ⟨r, hr, rfl⟩ := Option.map_eq_some_iff.1 hq
    refine reads_bind (reads_nameCase hr) ?_
    rintro t' ws rfl
    exact reads_pure (by simp [ExprTree.words, ExprTree.layout, nameWords, pathWords])
  unfold nudCase at hp
  split at hp
  · exact hname p hp
  · exact hname p hp
  · rename_i hk
    obtain rfl := Option.some.inj hp
    exact reads_pure (by simp [ExprTree.words, ExprTree.layout, wordsOf, Tok.word, hk])
  · rename_i hk
    obtain rfl := Option.some.inj hp
    rw [wordsOf_of_kind hk rfl]
    exact reads_parenOrCast hself fuel t.idx
  · rename_i hk
    obtain rfl := Option.some.inj hp
    rw [wordsOf_of_kind hk rfl]
    refine (yields_listUpTo rfl (hself 0) (hself 0) _ fuel).bind fun parts => reads_pure ?_
    simp [ExprTree.words, ExprTree.layout, ExprTree.listLayout_eq]
  · rename_i hk
    obtain rfl := Option.some.inj hp
    rw [wordsOf_of_kind hk rfl]
    refine (yields_listUpTo rfl (hself 0) (hself 0) _ fuel).bind fun parts => reads_pure ?_
    simp [ExprTree.words, ExprTree.layout, ExprTree.listLayout_eq]
  · rename_i hk
    obtain rfl := Option.some.inj hp
    rw [wordsOf_of_kind hk rfl]
    exact reads_ifExpr hself t.idx
  · split at hp
    · rename_i hlit
      obtain rfl := Option.some.inj hp
      rw [wordsOf_of_litOf hlit]
      exact reads_pure rfl
    · rename_i hop
      obtain rfl := Option.some.inj hp
      rw [wordsOf_of_unaryOf hop]
      exact (hself _).bind fun e => reads_pure (by simp [ExprTree.words, ExprTree.layout])
    · rename_i hop
      obtain rfl := Option.some.inj hp
      rw [wordsOf_of_incDecOf hop]
      exact (hself _).bind fun e => reads_pure (by simp [ExprTree.words, ExprTree.layout])
    · cases hp

theorem yields_parseNudExpr : Yields view (parseNudExpr self fuel) ExprTree.words :=
  fun _ => reads_onNext (fun _ _ hp => reads_nudCase hself fuel hp) (reads_rejected _)

theorem reads_postfixCase {head : ExprTree} {t : At} {p : Rule (ExprTree ⊕ ExprTree)}
    (hp : postfixCase self fuel head t = some p) {pre : List Word} :
    Reads view p (pre ++ head.words ++ wordsOf [t.tok]) fun r ws =>
      ∃ e, r = .inl e ∧ ws = pre ++ e.words := by
  unfold postfixCase at hp
  split at hp
  · rename_i hk
    obtain rfl := Option.some.inj hp
    rw [wordsOf_of_kind hk rfl]
    refine (hself 0).bind fun hi => ?_
    refine (yields_accept rfl).bind fun b => ?_
    cases b with
    | true =>
      refine (hself 0).bind fun lo => ?_
      refine (yields_expect rfl _).bind fun _ => reads_pure ⟨_, rfl, ?_⟩
      simp [ExprTree.words, ExprTree.layout]
    | false =>
      refine (yields_expect rfl _).bind fun _ => reads_pure ⟨_, rfl, ?_⟩
      simp [ExprTree.words, ExprTree.layout]
  · rename_i hk
    obtain rfl := Option.some.inj hp
    rw [wordsOf_of_kind hk rfl]
    refine (yields_identifierLike _).bind fun x => reads_pure ⟨_, rfl, ?_⟩
    simp [ExprTree.words, ExprTree.layout]
  · rename_i hk
    obtain rfl := Option.some.inj hp
    rw [wordsOf_of_kind hk rfl]
    refine (yields_listUpTo rfl (hself 0) (hself 0) _ fuel).bind fun args => reads_pure ⟨_, rfl, ?_⟩
    simp [ExprTree.words, ExprTree.layout, ExprTree.listLayout_eq]
  · cases hp

/-- A head grows by what is read behind it. -/
theorem reads_parsePostfix (head : ExprTree) {pre : List Word} :
    Reads view (parsePostfix self fuel head) (pre ++ head.words) fun e ws =>
      ws = pre ++ e.words := by
  refine reads_loop (fun e ws => ws = pre ++ e.words) ?_ fuel rfl
  rintro e ws rfl
  refine reads_onNext (fun t p hp => ?_) (reads_pure ⟨nofun, fun e' h => Sum.inr.inj h ▸ rfl⟩)
  refine (reads_postfixCase hself fuel hp).mono ?_
  rintro _ ws ⟨e', rfl, rfl⟩
  exact ⟨fun e'' h => Sum.inl.inj h ▸ rfl, nofun⟩

theorem reads_repeatTail (lhs : ExprTree) {pre : List Word} :
    Reads view (repeatTail self lhs) (pre ++ lhs.words) fun e ws => ws = pre ++ e.words := by
  refine (yields_accept rfl).bind fun b => ?_
  cases b with
  | true =>
    refine (hself 0).bind fun body => ?_
    refine (yields_expect rfl _).bind fun _ => reads_pure ?_
    simp [ExprTree.words, ExprTree.layout]
  | false => exact reads_pure (by simp)

theorem reads_ledRule {lhs : ExprTree} {t : Tok} {prec : ℕ} {p : Rule ExprTree}
    (hp : ledRule self fuel lhs t.kind prec = some p) {pre : List Word} :
    Reads view p (pre ++ lhs.words ++ wordsOf [t]) fun e ws => ws = pre ++ e.words := by
  unfold ledRule at hp
  split at hp
  · rename_i hk
    obtain rfl := Option.some.inj hp
    rw [wordsOf_of_kind hk rfl]
    refine (yields_parseNudExpr hself fuel).bind fun e => ?_
    refine reads_bind (reads_parsePostfix hself fuel e) ?_
    rintro e' ws rfl
    exact reads_pure (by simp [ExprTree.words, ExprTree.layout])
  · rename_i hk
    obtain rfl := Option.some.inj hp
    rw [wordsOf_of_kind hk rfl]
    refine (yields_expect rfl _).bind fun _ => ?_
    refine (hself 0).bind fun e => ?_
    refine (yields_expect rfl _).bind fun _ => reads_pure ?_
    simp [ExprTree.words, ExprTree.layout]
  · rename_i hk
    obtain rfl := Option.some.inj hp
    rw [wordsOf_of_kind hk rfl]
    exact reads_pure (by simp [ExprTree.words, ExprTree.layout, IncDecOp.kind])
  · rename_i hk
    obtain rfl := Option.some.inj hp
    rw [wordsOf_of_kind hk rfl]
    exact reads_pure (by simp [ExprTree.words, ExprTree.layout, IncDecOp.kind])
  · rename_i hk
    obtain rfl := Option.some.inj hp
    rw [wordsOf_of_kind hk rfl]
    refine (hself _).bind fun a => ?_
    refine (yields_expect rfl _).bind fun _ => ?_
    refine (hself _).bind fun b => reads_pure ?_
    simp [ExprTree.words, ExprTree.layout]
  · obtain ⟨op, hop, rfl⟩ := Option.map_eq_some_iff.1 hp
    rw [wordsOf_of_binaryOf hop]
    refine (hself _).bind fun r => reads_pure ?_
    simp [ExprTree.words, ExprTree.layout]

theorem reads_ledCase {floor : ℕ} {lhs : ExprTree} {t : At} {p : Rule (ExprTree ⊕ ExprTree)}
    (hp : ledCase self fuel floor lhs t = some p) {pre : List Word} :
    Reads view p (pre ++ lhs.words ++ wordsOf [t.tok]) fun r ws =>
      ∃ e, r = .inl e ∧ ws = pre ++ e.words := by
  unfold ledCase at hp
  split at hp
  · cases hp
  · split_ifs at hp
    obtain ⟨q, hq, rfl⟩ := Option.map_eq_some_iff.1 hp
    refine reads_bind (reads_ledRule hself fuel hq) ?_
    rintro e ws rfl
    exact reads_pure ⟨e, rfl, rfl⟩

end Reads

theorem yields_exprAt (fuel floor : ℕ) : Yields view (exprAt fuel floor) ExprTree.words := by
  induction fuel generalizing floor with
  | zero => exact fun _ => reads_spinning
  | succ fuel ih =>
    intro pre
    refine (yields_parseNudExpr ih fuel).bind fun head => ?_
    refine reads_bind (reads_parsePostfix ih fuel head) ?_
    rintro head' ws rfl
    refine reads_bind (reads_repeatTail ih head') ?_
    rintro lhs ws rfl
    refine reads_loop (fun e ws => ws = pre ++ e.words) ?_ fuel rfl
    rintro e ws rfl
    refine reads_onNext (fun t p hp => ?_) (reads_pure ⟨nofun, fun e' h => Sum.inr.inj h ▸ rfl⟩)
    refine (reads_ledCase ih fuel hp).mono ?_
    rintro _ ws ⟨e', rfl, rfl⟩
    exact ⟨fun e'' h => Sum.inl.inj h ▸ rfl, nofun⟩

/-- **What `parseExpr` reads without an error has the words of its
tree.** -/
theorem yields_parseExpr (fuel : ℕ) : Yields view (parseExpr fuel) ExprTree.words :=
  yields_exprAt fuel 0

end Parse

end Nslc
