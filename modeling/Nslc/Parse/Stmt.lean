import Nslc.Parse.Decl
/-!
# Parse — statements

The parsers of `ParseStmt.cpp`, from the first token of a statement on.
The tree of a block keeps its items in the order in which they were
read; a node of the syntax tree keeps statements and declarations apart,
or keeps no declarations at all.
-/

namespace Nslc

namespace Parse

open AST Nslc.Lex Descent

mutual

inductive StmtTree where
  | transfer (lhs : ExprTree) (op : TransferOp) (rhs : ExprTree)
  | preIncDec (op : IncDecOp) (target : ExprTree)
  | postIncDec (target : ExprTree) (op : IncDecOp)
  | controlCall (loc : Loc) (head : Ident) (path : List Ident) (args : List ExprTree)
  | bareFinish (loc : Loc) (spelling : Text)
  | systemTask (name : Ident) (args : List ExprTree)
  | return (loc : Loc) (value : Option ExprTree)
  | empty
  | labeled (label : Ident)
  | goto (target : Ident)
  | initBlock (items : List ItemTree)
  | delayTask (count : ExprTree)
  | parallel (items : List ItemTree)
  | alt (cases : List ItemTree)
  | any (cases : List ItemTree)
  | seq (items : List ItemTree)
  | while (cond : ExprTree) (items : List ItemTree)
  /-- `for (init, last) { .. }` -/
  | forEnum (init : StmtTree) (last : ExprTree) (items : List ItemTree)
  | for (init : StmtTree) (cond : ExprTree) (step : StmtTree) (items : List ItemTree)
  /-- `x := e` in the header of a `for`. -/
  | forAssign (loc : Loc) (x : Ident) (e : ExprTree)
  | forPre (op : IncDecOp) (loc : Loc) (x : Ident)
  | forPost (loc : Loc) (x : Ident) (op : IncDecOp)
  | ifThen (cond : ExprTree) (thenBr : StmtTree)
  | ifElse (cond : ExprTree) (thenBr elseBr : StmtTree)
  | generate (loc : Loc) (init : Ident) (initValue cond : ExprTree) (stepName : Ident)
      (step : ExprTree) (body : StmtTree)

/-- An item of a block, or a case of `alt` and `any`. -/
inductive ItemTree where
  | labels (first : Ident) (more : List Ident)
  | decl (d : InternalTree)
  | state (loc : Loc) (name : Ident) (body : StmtTree)
  | stmt (s : StmtTree)
  | case (cond : ExprTree) (body : StmtTree)
  | elseCase (body : StmtTree)
  /-- An `else:` whose statement was not parsed. -/
  | lostElse

end

/-! ## Rules -/

def isInternalDeclStart (k : TokenKind) : Bool :=
  [TokenKind.wire, .reg, .funcSelf, .procName, .stateName, .firstState, .mem, .integer,
    .variable_].contains k

def isLValueStart (k : TokenKind) : Bool :=
  k == .identifier || k == .label || k == .dotLbrace || k == .plusPlus || k == .minusMinus

def consume : Rule Unit := onNext (fun _ => some (pure ())) (pure ())

/-- A part of a dotted name, behind the dot at the token `idx`. -/
def memberPart (idx : ℕ) (t : Tok) : Rule Ident := do
  if t.kind = .label then
    warning (idx + 1) labelWarning
    return t.spelling
  else return t.spelling

/-- The further parts of a name. A dot is only taken with a part behind
it. -/
def scopedPath (fuel : ℕ) : Rule (List Ident) :=
  Rule.loop (fun path => do
    let idx ← position
    match ← acceptAll [(· == .dot), isMemberName] with
    | some [_, t] =>
      let x ← memberPart idx t
      return .inl (path ++ [x])
    | _ => return .inr path) fuel []

def parseScopedName (fuel : ℕ) : Rule (At × List Ident) := do
  let first ← identifierLike "expected identifier"
  let path ← scopedPath fuel
  return (first, path)

/-- The items of a block up to where the loop is left. A rule that
returns an item has consumed a token, so that it does not matter where
an iteration began unless the rule fails. -/
def itemLoop {α : Type} (leave : Rule Bool) (item : Rule α) (recover : ℕ → Rule Bool) (fuel : ℕ) :
    Rule (List α) :=
  Rule.loop (fun items => do
    if ← leave then return .inr items
    else
      let start ← position
      match ← item.attempt with
      | some i => return .inl (items ++ [i])
      | none =>
        if ← recover start then return .inl items
        else return .inr items) fuel []

def isBlockEnd (k : TokenKind) : Bool := k == .rbrace || k == .eof

def blockEnd : Rule Bool := do
  consumeLineMarkers
  let k ← peekKind
  return isBlockEnd k

/-- Where a rule failed: go on unless the block ends here. -/
def recover (set : TokenSet) (_ : ℕ) : Rule Bool := do
  skipUntil set
  if isBlockEnd (← peekKind) then return false
  else
    let _ ← accept .semicolon
    return true

/-- A parallel block consumes a token where nothing else did. -/
def recoverParallel (set : TokenSet) (start : ℕ) : Rule Bool := do
  skipUntil set
  if isBlockEnd (← peekKind) then return false
  else
    let _ ← accept .semicolon
    if (← position) = start && !isBlockEnd (← peekKind) then
      consume
      return true
    else return true

/-- A module and a `seq` leave tokens of an outer set where they are. -/
def recoverIn (items set : TokenSet) (_ : ℕ) : Rule Bool := do
  skipUntil set
  let k ← peekKind
  if k == .eof || !items.contains k then return false
  else
    let _ ← accept .semicolon
    return true

section Rules

-- statements one level of recursion down, under the recovery sets pushed
-- so far
variable (self : TokenSet → Rule StmtTree) (fuel : ℕ) (set : TokenSet)

def argumentList : Rule (List ExprTree) :=
  listUpTo .rparen (parseExpr fuel) (parseExpr fuel) "')' after argument list" fuel

/-- Behind the left-hand side of a transfer. -/
def transferCase (lhs : ExprTree) (t : At) : Option (Rule StmtTree) :=
  let rhs (op : TransferOp) : Rule StmtTree := do
    let e ← parseExpr fuel
    let _ ← expect .semicolon "';' after transfer"
    return .transfer lhs op e
  match t.tok.kind with
  | .assign => some (rhs .wireEq)
  | .assignSeq => some (rhs .regColonEq)
  | _ => none

/-- Behind a name and its selects. -/
def lvalueCase (lhs : ExprTree) (t : At) : Option (Rule StmtTree) :=
  match incDecOf t.tok.kind with
  | some op => some do
    let _ ← expect .semicolon "';' after postfix increment/decrement"
    return .postIncDec lhs op
  | none => transferCase fuel lhs t

/-- From the name at the head of a statement on. -/
def namedStatement : Rule StmtTree := do
  let (x, path) ← parseScopedName fuel
  if ← accept .lparen then
    let args ← argumentList fuel
    let _ ← expect .semicolon "';' after control-terminal call"
    return .controlCall x.idx x.tok.spelling path args
  else
    let lhs ← parsePostfix (exprAt fuel) fuel (.name x.idx x.tok.spelling path)
    onNext (lvalueCase fuel lhs) (reject "expected '=' / ':=' or '(' after LHS")

/-- `++x;` and `--x;` -/
def prefixCase (t : At) : Option (Rule StmtTree) :=
  (incDecOf t.tok.kind).map fun op => do
    let e ← parseNudExpr (exprAt fuel) fuel
    let target ← parsePostfix (exprAt fuel) fuel e
    let _ ← expect .semicolon "';' after prefix increment/decrement"
    return .preIncDec op target

def isName (k : TokenKind) : Bool := k == .identifier || k == .label

def parseLValueLedStatement : Rule StmtTree :=
  onNext (prefixCase fuel) do
    let idx ← position
    match ← acceptAll [isName, (· == .colon)] with
    | some [t, _] =>
      if t.kind = .label then
        warning idx labelWarning
        return .labeled t.spelling
      else return .labeled t.spelling
    | _ =>
      if isName (← peekKind) then namedStatement fuel
      else
        let lhs ← parseExpr fuel
        onNext (transferCase fuel lhs) (reject "expected '=' or ':=' after LHS")

/-- `parseStateDefn`, behind `state` at the token `idx`. -/
def parseStateDefn (idx : ℕ) : Rule ItemTree := do
  let x ← expect .identifier "state name"
  let body ← self set
  return .state idx x.tok.spelling body

def parallelItem : Rule ItemTree :=
  onNext (fun t => if t.tok.kind = .state then some (parseStateDefn self set t.idx) else none) do
    if isInternalDeclStart (← peekKind) then
      let d ← parseInternalDecl (parseExpr fuel) fuel
      return .decl d
    else
      let s ← self set
      return .stmt s

/-- Behind `label_name`. -/
def labelNames : Rule ItemTree := do
  let (first, more) ← declarators fuel (nameDeclarator "label_name identifier")
    (nameDeclarator "label_name identifier after ','") "';' after label_name declaration"
  return .labels first more

/-- An item of `seq`, `while` and `for`. -/
def seqItem : Rule ItemTree :=
  onNext (fun t => if t.tok.kind = .labelName then some (labelNames fuel) else none) do
    if isInternalDeclStart (← peekKind) then
      let d ← parseInternalDecl (parseExpr fuel) fuel
      return .decl d
    else
      let s ← self set
      return .stmt s

/-- An item of `_init`. -/
def initItem : Rule ItemTree := do
  let s ← self set
  return .stmt s

/-- A case of `alt` and `any`. -/
def caseItem (what : String) : Rule ItemTree := do
  if ← accept .else_ then
    let _ ← expect .colon "':' after 'else'"
    match ← (self set).attempt with
    | some s => return .elseCase s
    | none =>
      let _ ← recover set 0
      return .lostElse
  else
    let cond ← parseExpr fuel
    let _ ← expect .colon what
    let body ← self set
    return .case cond body

/-- Behind `{`. -/
def parseParallelBlock : Rule StmtTree := do
  let items ← itemLoop blockEnd (parallelItem self fuel set) (recoverParallel set) fuel
  let _ ← expect .rbrace "'\x7d' to close parallel block"
  return .parallel items

/-- Behind `alt`. -/
def parseAltBlock : Rule StmtTree := do
  let _ ← expect .lbrace "'\x7b' after 'alt'"
  let cases ← itemLoop blockEnd (caseItem self fuel set "':' after alt-case condition")
    (recover set) fuel
  let _ ← expect .rbrace "'\x7d' to close 'alt' block"
  return .alt cases

/-- Behind `any`. -/
def parseAnyBlock : Rule StmtTree := do
  let _ ← expect .lbrace "'\x7b' after 'any'"
  let cases ← itemLoop blockEnd (caseItem self fuel set "':' after any-case condition")
    (recover set) fuel
  let _ ← expect .rbrace "'\x7d' to close 'any' block"
  return .any cases

/-- Behind `seq`. -/
def parseSeqBlock : Rule StmtTree := do
  let _ ← expect .lbrace "'\x7b' after 'seq'"
  let items ← itemLoop blockEnd (seqItem self fuel (set ++ kSeqItem))
    (recoverIn kSeqItem (set ++ kSeqItem)) fuel
  let _ ← expect .rbrace "'\x7d' to close 'seq' block"
  return .seq items

/-- Behind `while`. -/
def parseWhileBlock : Rule StmtTree := do
  let _ ← expect .lparen "'(' after 'while'"
  let cond ← parseExpr fuel
  let _ ← expect .rparen "')' after while-condition"
  let _ ← expect .lbrace "'\x7b' to begin 'while' body"
  let items ← itemLoop blockEnd (seqItem self fuel set) (recover set) fuel
  let _ ← expect .rbrace "'\x7d' to close 'while' body"
  return .while cond items

/-- A block in the header of a `for`. -/
def forBlockCase (t : At) : Option (Rule StmtTree) :=
  if t.tok.kind = .lbrace then some (parseParallelBlock self fuel set) else none

def forInit : Rule StmtTree :=
  onNext (forBlockCase self fuel set) do
    let x ← expect .identifier "for-init identifier"
    let _ ← expect .assignSeq "':=' in for-init"
    let e ← parseExpr fuel
    return .forAssign x.idx x.tok.spelling e

/-- A step other than a block. -/
def singleForStep : Rule StmtTree :=
  onNext (fun t => (incDecOf t.tok.kind).map fun op => do
    let x ← expect .identifier "identifier after prefix increment/decrement"
    return .forPre op x.idx x.tok.spelling) do
      let x ← expect .identifier "for-step identifier"
      onNext (fun t => (incDecOf t.tok.kind).map fun op =>
        pure (.forPost x.idx x.tok.spelling op)) do
          let _ ← expect .assignSeq "':=' in for-step"
          let e ← parseExpr fuel
          return .forAssign x.idx x.tok.spelling e

def forStep : Rule StmtTree := onNext (forBlockCase self fuel set) (singleForStep fuel)

/-- The body of a `for`, from the `)` of its header on. -/
def forBody : Rule (List ItemTree) := do
  let _ ← expect .rparen "')' after for-header"
  let _ ← expect .lbrace "'\x7b' to begin 'for' body"
  let items ← itemLoop blockEnd (seqItem self fuel set) (recover set) fuel
  let _ ← expect .rbrace "'\x7d' to close 'for' body"
  return items

/-- Behind `for`. -/
def parseForBlock : Rule StmtTree := do
  let _ ← expect .lparen "'(' after 'for'"
  let init ← forInit self fuel set
  if ← accept .comma then
    let last ← parseExpr fuel
    let items ← forBody self fuel set
    return .forEnum init last items
  else if ← accept .semicolon then
    let cond ← parseExpr fuel
    let _ ← expect .semicolon "';' between for-cond and for-step"
    let step ← forStep self fuel set
    let items ← forBody self fuel set
    return .for init cond step items
  else reject "expected ',' (enum-form for) or ';' (C-form for)"

/-- Behind `if`. -/
def parseIfStatement : Rule StmtTree := do
  let _ ← expect .lparen "'(' after 'if'"
  let cond ← parseExpr fuel
  let _ ← expect .rparen "')' after if-condition"
  let thenBr ← self set
  if ← accept .else_ then
    let elseBr ← self set
    return .ifElse cond thenBr elseBr
  else return .ifThen cond thenBr

/-- Behind `generate` at the token `idx`. -/
def parseStructuralGenerate (idx : ℕ) : Rule StmtTree := do
  let _ ← expect .lparen "'(' after 'generate'"
  let x ← expect .identifier "generate-init identifier"
  let _ ← expect .assign "'=' in generate-init"
  let init ← parseExpr fuel
  let _ ← expect .semicolon "';' between generate-init and cond"
  let cond ← parseExpr fuel
  let _ ← expect .semicolon "';' between generate-cond and step"
  let y ← expect .identifier "generate-step identifier"
  let _ ← expect .assign "'=' in generate-step"
  let step ← parseExpr fuel
  let _ ← expect .rparen "')' after generate-header"
  let body ← self set
  return .generate idx x.tok.spelling init cond y.tok.spelling step body

/-- Behind `return` at the token `idx`. -/
def parseReturnStatement (idx : ℕ) : Rule StmtTree := do
  if ← accept .semicolon then return .return idx none
  else
    let e ← parseExpr fuel
    let _ ← expect .semicolon "';' after 'return'"
    return .return idx (some e)

/-- Behind `goto`. -/
def parseGotoStatement : Rule StmtTree := do
  let x ← expect .identifier "goto target identifier"
  let _ ← expect .semicolon "';' after 'goto'"
  return .goto x.tok.spelling

/-- Behind `_init`. -/
def parseInitBlock : Rule StmtTree := do
  let _ ← expect .lbrace "'\x7b' after '_init'"
  let items ← itemLoop blockEnd (initItem self set) (recover set) fuel
  let _ ← expect .rbrace "'\x7d' to close '_init' block"
  return .initBlock items

/-- Behind `_delay`. -/
def parseDelayTask : Rule StmtTree := do
  let _ ← expect .lparen "'(' after '_delay'"
  let count ← parseExpr fuel
  let _ ← expect .rparen "')' after '_delay' argument"
  let _ ← expect .semicolon "';' after '_delay(...)'"
  return .delayTask count

/-- Behind the name of a system task. -/
def parseSystemTaskStatement (name : Text) : Rule StmtTree :=
  if name = "_init".toList then parseInitBlock self fuel set
  else if name = "_delay".toList then parseDelayTask fuel
  else do
    let _ ← expect .lparen "'(' after system task"
    let args ← argumentList fuel
    let _ ← expect .semicolon "';' after system-task call"
    return .systemTask name args

def stmtCase (t : At) : Option (Rule StmtTree) :=
  match t.tok.kind with
  | .lbrace => some (parseParallelBlock self fuel set)
  | .alt => some (parseAltBlock self fuel set)
  | .any => some (parseAnyBlock self fuel set)
  | .seq => some (parseSeqBlock self fuel set)
  | .while_ => some (parseWhileBlock self fuel set)
  | .for_ => some (parseForBlock self fuel set)
  | .if_ => some (parseIfStatement self fuel set)
  | .generate => some (parseStructuralGenerate self fuel set t.idx)
  | .return_ => some (parseReturnStatement fuel t.idx)
  | .goto_ => some parseGotoStatement
  | .finish => some do
    let _ ← expect .semicolon "';' after 'finish'"
    return .bareFinish t.idx t.tok.spelling
  | .systemTask => some (parseSystemTaskStatement self fuel set t.tok.spelling)
  | .semicolon => some (pure .empty)
  | _ => none

end Rules

@[grind =] def parseActionStatement : ℕ → TokenSet → Rule StmtTree
  | 0, _ => Rule.spinning
  | fuel + 1, set =>
    onNext (stmtCase (parseActionStatement fuel) fuel set) do
      if isLValueStart (← peekKind) then parseLValueLedStatement fuel
      else reject "expected action statement"

/-! ## Words -/

def TransferOp.kind : TransferOp → TokenKind
  | .wireEq => .assign
  | .regColonEq => .assignSeq

def argsWords (args : List ExprTree) : List Word :=
  .sym .lparen :: (commaWords ExprTree.words args ++ [.sym .rparen])

@[grind =] def valueWords : Option ExprTree → List Word
  | none => []
  | some e => e.words

mutual

@[grind =] def StmtTree.words : StmtTree → List Word
  | .transfer lhs op rhs =>
    lhs.words ++ (.sym (TransferOp.kind op) :: (rhs.words ++ [.sym .semicolon]))
  | .preIncDec op target => .sym (IncDecOp.kind op) :: (target.words ++ [.sym .semicolon])
  | .postIncDec target op => target.words ++ [.sym (IncDecOp.kind op), .sym .semicolon]
  | .controlCall _ x path args => nameWords (x :: path) ++ (argsWords args ++ [.sym .semicolon])
  | .bareFinish _ x => [.name x, .sym .semicolon]
  | .systemTask x args => .systemTask x :: (argsWords args ++ [.sym .semicolon])
  | .return _ value => .sym .return_ :: (valueWords value ++ [.sym .semicolon])
  | .empty => [.sym .semicolon]
  | .labeled x => [.name x, .sym .colon]
  | .goto x => [.sym .goto_, .name x, .sym .semicolon]
  | .initBlock items =>
    [.systemTask "_init".toList, .sym .lbrace] ++ (itemsWords items ++ [.sym .rbrace])
  | .delayTask count =>
    [.systemTask "_delay".toList, .sym .lparen] ++ (count.words ++ [.sym .rparen, .sym .semicolon])
  | .parallel items => .sym .lbrace :: (itemsWords items ++ [.sym .rbrace])
  | .alt cases => [.sym .alt, .sym .lbrace] ++ (itemsWords cases ++ [.sym .rbrace])
  | .any cases => [.sym .any, .sym .lbrace] ++ (itemsWords cases ++ [.sym .rbrace])
  | .seq items => [.sym .seq, .sym .lbrace] ++ (itemsWords items ++ [.sym .rbrace])
  | .while cond items =>
    [.sym .while_, .sym .lparen] ++ (cond.words ++ ([.sym .rparen, .sym .lbrace] ++
      (itemsWords items ++ [.sym .rbrace])))
  | .forEnum init last items =>
    [.sym .for_, .sym .lparen] ++ (init.words ++ (.sym .comma :: (last.words ++
      ([.sym .rparen, .sym .lbrace] ++ (itemsWords items ++ [.sym .rbrace])))))
  | .for init cond step items =>
    [.sym .for_, .sym .lparen] ++ (init.words ++ (.sym .semicolon :: (cond.words ++
      (.sym .semicolon :: (step.words ++ ([.sym .rparen, .sym .lbrace] ++
        (itemsWords items ++ [.sym .rbrace])))))))
  | .forAssign _ x e => [.name x, .sym .assignSeq] ++ e.words
  | .forPre op _ x => [.sym (IncDecOp.kind op), .name x]
  | .forPost _ x op => [.name x, .sym (IncDecOp.kind op)]
  | .ifThen cond thenBr =>
    [.sym .if_, .sym .lparen] ++ (cond.words ++ (.sym .rparen :: thenBr.words))
  | .ifElse cond thenBr elseBr =>
    [.sym .if_, .sym .lparen] ++ (cond.words ++ (.sym .rparen :: (thenBr.words ++
      (.sym .else_ :: elseBr.words))))
  | .generate _ x init cond y step body =>
    [.sym .generate, .sym .lparen, .name x, .sym .assign] ++ (init.words ++ (.sym .semicolon ::
      (cond.words ++ ([.sym .semicolon, .name y, .sym .assign] ++ (step.words ++
        (.sym .rparen :: body.words))))))

@[grind =] def ItemTree.words : ItemTree → List Word
  | .labels first more => .sym .labelName :: listWords (fun x => [.name x]) first more
  | .decl d => d.words
  | .state _ x body => [.sym .state, .name x] ++ body.words
  | .stmt s => s.words
  | .case cond body => cond.words ++ (.sym .colon :: body.words)
  | .elseCase body => [.sym .else_, .sym .colon] ++ body.words
  | .lostElse => [.sym .else_, .sym .colon]

@[grind =] def itemsWords : List ItemTree → List Word
  | [] => []
  | i :: is => i.words ++ itemsWords is

end

theorem itemsWords_eq (items : List ItemTree) : itemsWords items = items.flatMap ItemTree.words := by
  induction items with
  | nil => rfl
  | cons i is ih => rw [itemsWords, ih, List.flatMap_cons]

/-! ## A tree has the words that were read -/

theorem yields_itemLoop {α : Type} {leave : Rule Bool} {item : Rule α} {words : α → List Word}
    (hleave : Yields view leave fun _ => []) (hitem : Yields view item words)
    (recover : ℕ → Rule Bool) (fuel : ℕ) :
    Yields view (itemLoop leave item recover fuel) fun items => items.flatMap words := by
  intro pre
  refine reads_loop (fun items ws => ws = pre ++ items.flatMap words) ?_ fuel (by simp)
  rintro items ws rfl
  refine hleave.bind fun b => ?_
  cases b with
  | true => exact reads_pure ⟨nofun, fun items' h => Sum.inr.inj h ▸ by simp⟩
  | false =>
    refine yields_position.bind fun start => ?_
    refine reads_bind (reads_attempt (hitem _)) ?_
    rintro _ ws ⟨i, rfl, rfl⟩
    refine reads_pure ⟨fun items' h => ?_, nofun⟩
    obtain rfl := Sum.inl.inj h
    simp

theorem yields_blockEnd : Yields view blockEnd fun _ => [] := by
  intro pre
  refine yields_consumeLineMarkers.bind fun _ => ?_
  exact (yields_peekAhead 0).bind fun k => reads_pure (by simp)

theorem reads_memberPart (idx : ℕ) (t : Tok) {pre : List Word} :
    Reads view (memberPart idx t) pre fun x ws => x = t.spelling ∧ ws = pre := by
  unfold memberPart
  split_ifs
  · exact (yields_warning _ _).bind fun _ => reads_pure ⟨rfl, List.append_nil _⟩
  · exact reads_pure ⟨rfl, rfl⟩

theorem yields_scopedPath (fuel : ℕ) : Yields view (scopedPath fuel) pathWords := by
  intro pre
  refine reads_loop (fun path ws => ws = pre ++ pathWords path) ?_ fuel (by simp [pathWords])
  rintro path ws rfl
  refine yields_position.bind fun idx => ?_
  refine reads_bind (reads_acceptAll _) ?_
  rintro (_ | ts) ws ⟨hsome, hnone⟩
  · obtain rfl := hnone rfl
    exact reads_pure ⟨fun path' h => absurd h Sum.inr_ne_inl, fun path' h => Sum.inr.inj h ▸ by simp⟩
  · obtain ⟨hall, rfl⟩ := hsome ts rfl
    -- two tests, two tokens
    obtain _ | ⟨hd, _ | ⟨ht, _ | _⟩⟩ := hall
    rename_i d t
    refine reads_bind (reads_memberPart idx t) ?_
    rintro x ws ⟨rfl, rfl⟩
    refine reads_pure ⟨fun path' h => ?_, fun path' h => absurd h Sum.inl_ne_inr⟩
    obtain rfl := Sum.inl.inj h
    rw [wordsOf_cons, wordsOf_of_kind (by simpa using hd) (k := .dot) rfl,
      wordsOf_of_isMemberName ht]
    simp [pathWords]

theorem yields_parseScopedName (fuel : ℕ) :
    Yields view (parseScopedName fuel) fun r => nameWords (r.1.tok.spelling :: r.2) := by
  intro pre
  refine (yields_identifierLike _).bind fun first => ?_
  refine (yields_scopedPath fuel).bind fun path => reads_pure ?_
  simp [nameWords]

section Reads

variable (fuel : ℕ) {pre : List Word}

theorem yields_argumentList :
    Yields view (argumentList fuel) fun args => commaWords ExprTree.words args ++ [.sym .rparen] :=
  yields_listUpTo rfl (yields_parseExpr fuel) (yields_parseExpr fuel) _ fuel

theorem reads_transferCase {lhs : ExprTree} {t : At} {p : Rule StmtTree}
    (hp : transferCase fuel lhs t = some p) :
    Reads view p (pre ++ lhs.words ++ wordsOf [t.tok]) fun s ws => ws = pre ++ s.words := by
  have hrhs : ∀ op, wordsOf [t.tok] = [.sym (TransferOp.kind op)] →
      Reads view (do
        let e ← parseExpr fuel
        let _ ← expect .semicolon "';' after transfer"
        return .transfer lhs op e : Rule StmtTree) (pre ++ lhs.words ++ wordsOf [t.tok])
        fun s ws => ws = pre ++ s.words := by
    intro op hop
    rw [hop]
    refine (yields_parseExpr fuel).bind fun e => ?_
    refine (yields_expect rfl _).bind fun _ => reads_pure ?_
    simp [StmtTree.words]
  unfold transferCase at hp
  dsimp only at hp
  split at hp
  · rename_i hk
    obtain rfl := Option.some.inj hp
    exact hrhs .wireEq (wordsOf_of_kind hk rfl)
  · rename_i hk
    obtain rfl := Option.some.inj hp
    exact hrhs .regColonEq (wordsOf_of_kind hk rfl)
  · cases hp

theorem reads_lvalueCase {lhs : ExprTree} {t : At} {p : Rule StmtTree}
    (hp : lvalueCase fuel lhs t = some p) :
    Reads view p (pre ++ lhs.words ++ wordsOf [t.tok]) fun s ws => ws = pre ++ s.words := by
  unfold lvalueCase at hp
  split at hp
  · rename_i op hop
    obtain rfl := Option.some.inj hp
    rw [wordsOf_of_incDecOf hop]
    refine (yields_expect rfl _).bind fun _ => reads_pure ?_
    simp [StmtTree.words]
  · exact reads_transferCase fuel hp

theorem yields_namedStatement : Yields view (namedStatement fuel) StmtTree.words := by
  intro pre
  refine (yields_parseScopedName fuel).bind fun r => ?_
  obtain ⟨x, path⟩ := r
  refine (yields_accept rfl).bind fun b => ?_
  cases b with
  | true =>
    refine (yields_argumentList fuel).bind fun args => ?_
    refine (yields_expect rfl _).bind fun _ => reads_pure ?_
    simp [StmtTree.words, argsWords]
  | false =>
    have hhead : pre ++ nameWords (x.tok.spelling :: path) ++ (if false then [.sym .lparen] else [])
        = pre ++ (ExprTree.name x.idx x.tok.spelling path).words := by
      simp [ExprTree.words, ExprTree.layout]
    rw [hhead]
    refine reads_bind (reads_parsePostfix (yields_exprAt fuel) fuel _) ?_
    rintro lhs ws rfl
    exact reads_onNext (fun t p hp => reads_lvalueCase fuel hp) (reads_rejected _)

theorem reads_prefixCase {t : At} {p : Rule StmtTree} (hp : prefixCase fuel t = some p) :
    Reads view p (pre ++ wordsOf [t.tok]) fun s ws => ws = pre ++ s.words := by
  obtain ⟨op, hop, rfl⟩ := Option.map_eq_some_iff.1 hp
  rw [wordsOf_of_incDecOf hop]
  refine (yields_parseNudExpr (yields_exprAt fuel) fuel).bind fun e => ?_
  refine reads_bind (reads_parsePostfix (yields_exprAt fuel) fuel e) ?_
  rintro target ws rfl
  refine (yields_expect rfl _).bind fun _ => reads_pure ?_
  simp [StmtTree.words]

theorem yields_parseLValueLedStatement :
    Yields view (parseLValueLedStatement fuel) StmtTree.words := by
  intro pre
  refine reads_onNext (fun t p hp => reads_prefixCase fuel hp) ?_
  refine yields_position.bind fun idx => ?_
  refine reads_bind (reads_acceptAll _) ?_
  rintro (_ | ts) ws ⟨hsome, hnone⟩
  · obtain rfl := hnone rfl
    refine (yields_peekAhead 0).bind fun k => ?_
    split_ifs
    · exact (yields_namedStatement fuel _).mono fun s ws hws => by simpa using hws
    · refine (yields_parseExpr fuel).bind fun lhs => ?_
      simp only [List.append_nil]
      exact reads_onNext (fun t p hp => reads_transferCase fuel hp) (reads_rejected _)
  · obtain ⟨hall, rfl⟩ := hsome ts rfl
    obtain _ | ⟨ht, _ | ⟨hc, _ | _⟩⟩ := hall
    rename_i t c
    have hname : isMemberName t.kind = true := by
      rcases (by simpa [isName] using ht : t.kind = .identifier ∨ t.kind = .label) with h | h <;>
        simp [isMemberName, h]
    rw [wordsOf_cons, wordsOf_of_isMemberName hname, wordsOf_of_kind (by simpa using hc)
      (k := .colon) rfl]
    dsimp only
    split_ifs
    · exact (yields_warning _ _).bind fun _ => reads_pure (by simp [StmtTree.words])
    · exact reads_pure (by simp [StmtTree.words])

theorem reads_parseReturnStatement (idx : ℕ) :
    Reads view (parseReturnStatement fuel idx) (pre ++ [.sym .return_]) fun s ws =>
      ws = pre ++ s.words := by
  refine (yields_accept rfl).bind fun b => ?_
  cases b with
  | true => exact reads_pure (by simp [StmtTree.words, valueWords])
  | false =>
    refine (yields_parseExpr fuel).bind fun e => ?_
    refine (yields_expect rfl _).bind fun _ => reads_pure ?_
    simp [StmtTree.words, valueWords]

theorem reads_parseGotoStatement :
    Reads view parseGotoStatement (pre ++ [.sym .goto_]) fun s ws => ws = pre ++ s.words := by
  refine (yields_expectName _).bind fun x => ?_
  refine (yields_expect rfl _).bind fun _ => reads_pure ?_
  simp [StmtTree.words]

theorem reads_parseDelayTask :
    Reads view (parseDelayTask fuel) (pre ++ [.systemTask "_delay".toList]) fun s ws =>
      ws = pre ++ s.words := by
  refine (yields_expect rfl _).bind fun _ => ?_
  refine (yields_parseExpr fuel).bind fun count => ?_
  refine (yields_expect rfl _).bind fun _ => ?_
  refine (yields_expect rfl _).bind fun _ => reads_pure ?_
  simp [StmtTree.words]

theorem yields_singleForStep : Yields view (singleForStep fuel) StmtTree.words := by
  refine fun pre => reads_onNext (fun t p hp => ?_) ?_
  · obtain ⟨op, hop, rfl⟩ := Option.map_eq_some_iff.1 hp
    rw [wordsOf_of_incDecOf hop]
    exact (yields_expectName _).bind fun x => reads_pure (by simp [StmtTree.words])
  · refine (yields_expectName _).bind fun x => ?_
    refine reads_onNext (fun t p hp => ?_) ?_
    · obtain ⟨op, hop, rfl⟩ := Option.map_eq_some_iff.1 hp
      rw [wordsOf_of_incDecOf hop]
      exact reads_pure (by simp [StmtTree.words])
    · refine (yields_expect rfl _).bind fun _ => ?_
      exact (yields_parseExpr fuel).bind fun e => reads_pure (by simp [StmtTree.words])

end Reads

section Blocks

variable {self : TokenSet → Rule StmtTree} (hself : ∀ set, Yields view (self set) StmtTree.words)
  (fuel : ℕ) (set : TokenSet) {pre : List Word}

theorem yields_declItem :
    Yields view (do
      let d ← parseInternalDecl (parseExpr fuel) fuel
      return .decl d : Rule ItemTree) ItemTree.words := by
  intro pre
  exact (yields_parseInternalDecl (yields_parseExpr fuel) fuel).bind fun d =>
    reads_pure (by simp [ItemTree.words])

theorem reads_labelNames :
    Reads view (labelNames fuel) (pre ++ [.sym .labelName]) fun i ws => ws = pre ++ i.words := by
  refine (yields_declarators fuel (yields_nameDeclarator _) (yields_nameDeclarator _) _).bind
    fun ds => reads_pure ?_
  simp [ItemTree.words]

include hself

theorem yields_initItem : Yields view (initItem self set) ItemTree.words := by
  intro pre
  exact (hself set).bind fun s => reads_pure (by simp [ItemTree.words])

theorem reads_parseStateDefn (idx : ℕ) :
    Reads view (parseStateDefn self set idx) (pre ++ [.sym .state]) fun i ws =>
      ws = pre ++ i.words := by
  refine (yields_expectName _).bind fun x => ?_
  exact (hself set).bind fun body => reads_pure (by simp [ItemTree.words])

theorem yields_parallelItem : Yields view (parallelItem self fuel set) ItemTree.words := by
  refine fun pre => reads_onNext (fun t p hp => ?_) ?_
  · split_ifs at hp with hk
    obtain rfl := Option.some.inj hp
    rw [wordsOf_of_kind hk rfl]
    exact reads_parseStateDefn hself set t.idx
  · refine (yields_peekAhead 0).bind fun k => ?_
    rw [List.append_nil]
    split_ifs
    · exact yields_declItem fuel pre
    · exact yields_initItem hself set pre

theorem yields_seqItem : Yields view (seqItem self fuel set) ItemTree.words := by
  refine fun pre => reads_onNext (fun t p hp => ?_) ?_
  · split_ifs at hp with hk
    obtain rfl := Option.some.inj hp
    rw [wordsOf_of_kind hk rfl]
    exact reads_labelNames fuel
  · refine (yields_peekAhead 0).bind fun k => ?_
    rw [List.append_nil]
    split_ifs
    · exact yields_declItem fuel pre
    · exact yields_initItem hself set pre

theorem yields_caseItem (what : String) :
    Yields view (caseItem self fuel set what) ItemTree.words := by
  intro pre
  refine (yields_accept rfl).bind fun b => ?_
  cases b with
  | true =>
    refine (yields_expect rfl _).bind fun _ => ?_
    refine reads_bind (reads_attempt (hself set _)) ?_
    rintro _ ws ⟨s, rfl, rfl⟩
    exact reads_pure (by simp [ItemTree.words])
  | false =>
    refine (yields_parseExpr fuel).bind fun cond => ?_
    refine (yields_expect rfl _).bind fun _ => ?_
    exact (hself set).bind fun body => reads_pure (by simp [ItemTree.words])

omit hself in
/-- The items of a block. -/
theorem yields_blockItems {item : Rule ItemTree} (hitem : Yields view item ItemTree.words)
    (recover : ℕ → Rule Bool) : Yields view (itemLoop blockEnd item recover fuel) itemsWords := by
  intro pre
  exact (yields_itemLoop yields_blockEnd hitem recover fuel pre).mono fun items ws hws =>
    by rwa [itemsWords_eq]

theorem reads_parseParallelBlock :
    Reads view (parseParallelBlock self fuel set) (pre ++ [.sym .lbrace]) fun s ws =>
      ws = pre ++ s.words := by
  refine (yields_blockItems fuel (yields_parallelItem hself fuel set) _).bind fun items => ?_
  refine (yields_expect rfl _).bind fun _ => reads_pure ?_
  simp [StmtTree.words]

theorem reads_parseAltBlock :
    Reads view (parseAltBlock self fuel set) (pre ++ [.sym .alt]) fun s ws =>
      ws = pre ++ s.words := by
  refine (yields_expect rfl _).bind fun _ => ?_
  refine (yields_blockItems fuel (yields_caseItem hself fuel set _) _).bind fun cases => ?_
  refine (yields_expect rfl _).bind fun _ => reads_pure ?_
  simp [StmtTree.words]

theorem reads_parseAnyBlock :
    Reads view (parseAnyBlock self fuel set) (pre ++ [.sym .any]) fun s ws =>
      ws = pre ++ s.words := by
  refine (yields_expect rfl _).bind fun _ => ?_
  refine (yields_blockItems fuel (yields_caseItem hself fuel set _) _).bind fun cases => ?_
  refine (yields_expect rfl _).bind fun _ => reads_pure ?_
  simp [StmtTree.words]

theorem reads_parseSeqBlock :
    Reads view (parseSeqBlock self fuel set) (pre ++ [.sym .seq]) fun s ws =>
      ws = pre ++ s.words := by
  refine (yields_expect rfl _).bind fun _ => ?_
  refine (yields_blockItems fuel (yields_seqItem hself fuel _) _).bind fun items => ?_
  refine (yields_expect rfl _).bind fun _ => reads_pure ?_
  simp [StmtTree.words]

theorem reads_parseWhileBlock :
    Reads view (parseWhileBlock self fuel set) (pre ++ [.sym .while_]) fun s ws =>
      ws = pre ++ s.words := by
  refine (yields_expect rfl _).bind fun _ => ?_
  refine (yields_parseExpr fuel).bind fun cond => ?_
  refine (yields_expect rfl _).bind fun _ => ?_
  refine (yields_expect rfl _).bind fun _ => ?_
  refine (yields_blockItems fuel (yields_seqItem hself fuel _) _).bind fun items => ?_
  refine (yields_expect rfl _).bind fun _ => reads_pure ?_
  simp [StmtTree.words]

theorem reads_forBlockCase {t : At} {p : Rule StmtTree}
    (hp : forBlockCase self fuel set t = some p) :
    Reads view p (pre ++ wordsOf [t.tok]) fun s ws => ws = pre ++ s.words := by
  unfold forBlockCase at hp
  split_ifs at hp with hk
  obtain rfl := Option.some.inj hp
  rw [wordsOf_of_kind hk rfl]
  exact reads_parseParallelBlock hself fuel set

theorem yields_forInit : Yields view (forInit self fuel set) StmtTree.words := by
  refine fun pre => reads_onNext (fun t p hp => reads_forBlockCase hself fuel set hp) ?_
  refine (yields_expectName _).bind fun x => ?_
  refine (yields_expect rfl _).bind fun _ => ?_
  exact (yields_parseExpr fuel).bind fun e => reads_pure (by simp [StmtTree.words])

theorem yields_forStep : Yields view (forStep self fuel set) StmtTree.words :=
  fun pre => reads_onNext (fun _ _ hp => reads_forBlockCase hself fuel set hp)
    (yields_singleForStep fuel pre)

theorem yields_forBody :
    Yields view (forBody self fuel set) fun items =>
      [.sym .rparen, .sym .lbrace] ++ (itemsWords items ++ [.sym .rbrace]) := by
  intro pre
  refine (yields_expect rfl _).bind fun _ => ?_
  refine (yields_expect rfl _).bind fun _ => ?_
  refine (yields_blockItems fuel (yields_seqItem hself fuel _) _).bind fun items => ?_
  exact (yields_expect rfl _).bind fun _ => reads_pure (by simp)

theorem reads_parseForBlock :
    Reads view (parseForBlock self fuel set) (pre ++ [.sym .for_]) fun s ws =>
      ws = pre ++ s.words := by
  refine (yields_expect rfl _).bind fun _ => ?_
  refine (yields_forInit hself fuel set).bind fun init => ?_
  refine (yields_accept rfl).bind fun comma => ?_
  cases comma with
  | true =>
    refine (yields_parseExpr fuel).bind fun last => ?_
    refine (yields_forBody hself fuel set).bind fun items => reads_pure ?_
    simp [StmtTree.words]
  | false =>
    refine (yields_accept rfl).bind fun semicolon => ?_
    cases semicolon with
    | true =>
      refine (yields_parseExpr fuel).bind fun cond => ?_
      refine (yields_expect rfl _).bind fun _ => ?_
      refine (yields_forStep hself fuel set).bind fun step => ?_
      refine (yields_forBody hself fuel set).bind fun items => reads_pure ?_
      simp [StmtTree.words]
    | false => exact reads_rejected _

theorem reads_parseIfStatement :
    Reads view (parseIfStatement self fuel set) (pre ++ [.sym .if_]) fun s ws =>
      ws = pre ++ s.words := by
  refine (yields_expect rfl _).bind fun _ => ?_
  refine (yields_parseExpr fuel).bind fun cond => ?_
  refine (yields_expect rfl _).bind fun _ => ?_
  refine (hself set).bind fun thenBr => ?_
  refine (yields_accept rfl).bind fun b => ?_
  cases b with
  | true => exact (hself set).bind fun elseBr => reads_pure (by simp [StmtTree.words])
  | false => exact reads_pure (by simp [StmtTree.words])

theorem reads_parseStructuralGenerate (idx : ℕ) :
    Reads view (parseStructuralGenerate self fuel set idx) (pre ++ [.sym .generate]) fun s ws =>
      ws = pre ++ s.words := by
  refine (yields_expect rfl _).bind fun _ => ?_
  refine (yields_expectName _).bind fun x => ?_
  refine (yields_expect rfl _).bind fun _ => ?_
  refine (yields_parseExpr fuel).bind fun init => ?_
  refine (yields_expect rfl _).bind fun _ => ?_
  refine (yields_parseExpr fuel).bind fun cond => ?_
  refine (yields_expect rfl _).bind fun _ => ?_
  refine (yields_expectName _).bind fun y => ?_
  refine (yields_expect rfl _).bind fun _ => ?_
  refine (yields_parseExpr fuel).bind fun step => ?_
  refine (yields_expect rfl _).bind fun _ => ?_
  exact (hself set).bind fun body => reads_pure (by simp [StmtTree.words])

theorem reads_parseInitBlock :
    Reads view (parseInitBlock self fuel set) (pre ++ [.systemTask "_init".toList]) fun s ws =>
      ws = pre ++ s.words := by
  refine (yields_expect rfl _).bind fun _ => ?_
  refine (yields_blockItems fuel (yields_initItem hself set) _).bind fun items => ?_
  refine (yields_expect rfl _).bind fun _ => reads_pure ?_
  simp [StmtTree.words]

theorem reads_parseSystemTaskStatement (name : Text) :
    Reads view (parseSystemTaskStatement self fuel set name) (pre ++ [.systemTask name])
      fun s ws => ws = pre ++ s.words := by
  unfold parseSystemTaskStatement
  split_ifs with hinit hdelay
  · rw [hinit]
    exact reads_parseInitBlock hself fuel set
  · rw [hdelay]
    exact reads_parseDelayTask fuel
  · refine (yields_expect rfl _).bind fun _ => ?_
    refine (yields_argumentList fuel).bind fun args => ?_
    refine (yields_expect rfl _).bind fun _ => reads_pure ?_
    simp [StmtTree.words, argsWords]

theorem reads_stmtCase {t : At} {p : Rule StmtTree} (hp : stmtCase self fuel set t = some p) :
    Reads view p (pre ++ wordsOf [t.tok]) fun s ws => ws = pre ++ s.words := by
  unfold stmtCase at hp
  split at hp <;> rename_i hk <;> first | cases hp; done | obtain rfl := Option.some.inj hp
  · rw [wordsOf_of_kind hk rfl]
    exact reads_parseParallelBlock hself fuel set
  · rw [wordsOf_of_kind hk rfl]
    exact reads_parseAltBlock hself fuel set
  · rw [wordsOf_of_kind hk rfl]
    exact reads_parseAnyBlock hself fuel set
  · rw [wordsOf_of_kind hk rfl]
    exact reads_parseSeqBlock hself fuel set
  · rw [wordsOf_of_kind hk rfl]
    exact reads_parseWhileBlock hself fuel set
  · rw [wordsOf_of_kind hk rfl]
    exact reads_parseForBlock hself fuel set
  · rw [wordsOf_of_kind hk rfl]
    exact reads_parseIfStatement hself fuel set
  · rw [wordsOf_of_kind hk rfl]
    exact reads_parseStructuralGenerate hself fuel set t.idx
  · rw [wordsOf_of_kind hk rfl]
    exact reads_parseReturnStatement fuel t.idx
  · rw [wordsOf_of_kind hk rfl]
    exact reads_parseGotoStatement
  · rw [wordsOf_of_isMemberName (by simp [isMemberName, hk])]
    exact (yields_expect rfl _).bind fun _ => reads_pure (by simp [StmtTree.words])
  · have hword : wordsOf [t.tok] = [.systemTask t.tok.spelling] := by
      simp [wordsOf, Tok.word, hk]
    rw [hword]
    exact reads_parseSystemTaskStatement hself fuel set t.tok.spelling
  · rw [wordsOf_of_kind hk rfl]
    exact reads_pure (by simp [StmtTree.words])

end Blocks

/-- **What `parseActionStatement` reads without an error has the words
of its tree.** -/
theorem yields_parseActionStatement (fuel : ℕ) (set : TokenSet) :
    Yields view (parseActionStatement fuel set) StmtTree.words := by
  induction fuel generalizing set with
  | zero => exact fun _ => reads_spinning
  | succ fuel ih =>
    refine fun pre => reads_onNext (fun _ _ hp => reads_stmtCase ih fuel set hp) ?_
    refine (yields_peekAhead 0).bind fun k => ?_
    rw [List.append_nil]
    split_ifs
    · exact yields_parseLValueLedStatement fuel pre
    · exact reads_rejected _

end Parse

end Nslc
