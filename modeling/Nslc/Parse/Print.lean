import Nslc.Parse.Expr
/-!
# Parse — what the node of an expression says of its words

`print` writes a node out again, and the text is the core of the tree
the node was built from: a node without its locations therefore tells
the words apart up to what the core leaves out.
-/

namespace Nslc

namespace Parse

open AST Nslc.Lex Descent

mutual

/-- A node without its locations. -/
def eraseLocs : Expr → Expr
  | .literal lit x => .literal lit x
  | .identifier _ name => .identifier 0 name
  | .systemVar var => .systemVar var
  | .unary op e => .unary op (eraseLocs e)
  | .binary op l r => .binary op (eraseLocs l) (eraseLocs r)
  | .conditional c a b => .conditional (eraseLocs c) (eraseLocs a) (eraseLocs b)
  | .concat parts => .concat (eraseLocsList parts)
  | .repeat count body => .repeat (eraseLocs count) (eraseLocs body)
  | .signExtend width e => .signExtend (eraseLocs width) (eraseLocs e)
  | .zeroExtend width e => .zeroExtend (eraseLocs width) (eraseLocs e)
  | .slice _ e hi lo => .slice 0 (eraseLocs e) (eraseLocs hi) (eraseLocsOpt lo)
  | .fieldAccess e field => .fieldAccess (eraseLocs e) field
  | .call _ target args => .call 0 target (eraseLocsList args)
  | .structCast t e path => .structCast t (eraseLocs e) path
  | .incDec e op isPrefix => .incDec (eraseLocs e) op isPrefix

def eraseLocsList : List Expr → List Expr
  | [] => []
  | e :: es => eraseLocs e :: eraseLocsList es

def eraseLocsOpt : Option Expr → Option Expr
  | none => none
  | some e => some (eraseLocs e)

end

mutual

/-- A node as words. -/
def print : Expr → List Word
  | .literal lit x => [.literal lit x]
  | .identifier _ name => nameWords name
  | .systemVar var => [.systemVar var]
  | .unary op e => .sym (UnaryOp.kind op) :: print e
  | .binary op l r => print l ++ (.sym (BinaryOp.kind op) :: print r)
  | .conditional c a b =>
    [.sym .if_, .sym .lparen] ++ (print c ++ (.sym .rparen :: (print a ++
      (.sym .else_ :: print b))))
  | .concat parts => .sym .lbrace :: (printList parts ++ [.sym .rbrace])
  | .repeat count body => print count ++ (.sym .lbrace :: (print body ++ [.sym .rbrace]))
  | .signExtend width e => print width ++ (.sym .hashSignExtend :: print e)
  | .zeroExtend width e =>
    print width ++ ([.sym .apostropheZeroExtend, .sym .lparen] ++ (print e ++ [.sym .rparen]))
  | .slice _ e hi lo =>
    print e ++ (.sym .lbracket :: (print hi ++ (printLow lo ++ [.sym .rbracket])))
  | .fieldAccess e field => print e ++ [.sym .dot, .name field]
  | .call _ target args =>
    nameWords target ++ (.sym .lparen :: (printList args ++ [.sym .rparen]))
  | .structCast t e path =>
    [.sym .lparen, .name t, .sym .rparen, .sym .lparen] ++ (print e ++
      ([.sym .rparen] ++ pathWords path))
  | .incDec e op true => .sym (IncDecOp.kind op) :: print e
  | .incDec e op false => print e ++ [.sym (IncDecOp.kind op)]

def printList : List Expr → List Word
  | [] => []
  | e :: es => print e ++ printMore es

def printMore : List Expr → List Word
  | [] => []
  | e :: es => .sym .comma :: (print e ++ printMore es)

/-- The `:lo` of a slice. -/
def printLow : Option Expr → List Word
  | none => []
  | some e => .sym .colon :: print e

end

mutual

theorem print_eraseLocs (e : Expr) : print (eraseLocs e) = print e := by
  cases e with
  | literal lit x => rfl
  | identifier loc name => rfl
  | systemVar var => rfl
  | unary op e => simp only [eraseLocs, print, print_eraseLocs e]
  | binary op l r => simp only [eraseLocs, print, print_eraseLocs l, print_eraseLocs r]
  | conditional c a b =>
    simp only [eraseLocs, print, print_eraseLocs c, print_eraseLocs a, print_eraseLocs b]
  | concat parts => simp only [eraseLocs, print, printList_eraseLocs parts]
  | «repeat» count body =>
    simp only [eraseLocs, print, print_eraseLocs count, print_eraseLocs body]
  | signExtend width e => simp only [eraseLocs, print, print_eraseLocs width, print_eraseLocs e]
  | zeroExtend width e => simp only [eraseLocs, print, print_eraseLocs width, print_eraseLocs e]
  | slice loc e hi lo =>
    simp only [eraseLocs, print, print_eraseLocs e, print_eraseLocs hi, printLow_eraseLocs lo]
  | fieldAccess e field => simp only [eraseLocs, print, print_eraseLocs e]
  | call loc target args => simp only [eraseLocs, print, printList_eraseLocs args]
  | structCast t e path => simp only [eraseLocs, print, print_eraseLocs e]
  | incDec e op isPrefix =>
    cases isPrefix <;> simp only [eraseLocs, print, print_eraseLocs e]

theorem printList_eraseLocs (es : List Expr) : printList (eraseLocsList es) = printList es := by
  cases es with
  | nil => rfl
  | cons e es => simp only [eraseLocsList, printList, print_eraseLocs e, printMore_eraseLocs es]

theorem printMore_eraseLocs (es : List Expr) : printMore (eraseLocsList es) = printMore es := by
  cases es with
  | nil => rfl
  | cons e es => simp only [eraseLocsList, printMore, print_eraseLocs e, printMore_eraseLocs es]

theorem printLow_eraseLocs (lo : Option Expr) : printLow (eraseLocsOpt lo) = printLow lo := by
  cases lo with
  | none => rfl
  | some e => simp only [eraseLocsOpt, printLow, print_eraseLocs e]

end

/-! ## A node written out -/

theorem targetOf_toExpr (t : ExprTree) : ExprTree.targetOf t.toExpr = t.callee := by
  cases t with
  | paren e =>
    simp only [ExprTree.toExpr, ExprTree.callee]
    exact targetOf_toExpr e
  | _ => rfl

mutual

theorem print_toExpr (t : ExprTree) : print t.toExpr = t.layout false := by
  cases t with
  | literal loc lit x => rfl
  | name loc x path => rfl
  | systemVar loc var => rfl
  | paren e => simp [ExprTree.toExpr, ExprTree.layout, print_toExpr e]
  | structCast loc t e first path => simp [ExprTree.toExpr, ExprTree.layout, print, print_toExpr e]
  | concat loc dotted parts =>
    simp [ExprTree.toExpr, ExprTree.layout, print, printList_toExprs parts]
  | unary loc op e => simp [ExprTree.toExpr, ExprTree.layout, print, print_toExpr e]
  | preIncDec loc op e => simp [ExprTree.toExpr, ExprTree.layout, print, print_toExpr e]
  | ifElse loc c a b =>
    simp [ExprTree.toExpr, ExprTree.layout, print, print_toExpr c, print_toExpr a, print_toExpr b]
  | bit e hi =>
    simp [ExprTree.toExpr, ExprTree.layout, print, printLow, print_toExpr e, print_toExpr hi]
  | slice e hi lo =>
    simp [ExprTree.toExpr, ExprTree.layout, print, printLow, print_toExpr e, print_toExpr hi,
      print_toExpr lo]
  | field e x => simp [ExprTree.toExpr, ExprTree.layout, print, print_toExpr e]
  | call e args =>
    simp [ExprTree.toExpr, ExprTree.layout, print, targetOf_toExpr, printList_toExprs args]
  | «repeat» count body =>
    simp [ExprTree.toExpr, ExprTree.layout, print, print_toExpr count, print_toExpr body]
  | signExtend width e =>
    simp [ExprTree.toExpr, ExprTree.layout, print, print_toExpr width, print_toExpr e]
  | zeroExtend width e =>
    simp [ExprTree.toExpr, ExprTree.layout, print, print_toExpr width, print_toExpr e]
  | postIncDec op e => simp [ExprTree.toExpr, ExprTree.layout, print, print_toExpr e]
  | ternary c a b =>
    simp [ExprTree.toExpr, ExprTree.layout, print, print_toExpr c, print_toExpr a, print_toExpr b]
  | binary op l r =>
    simp [ExprTree.toExpr, ExprTree.layout, print, print_toExpr l, print_toExpr r]

theorem printList_toExprs (es : List ExprTree) :
    printList (ExprTree.toExprs es) = ExprTree.listLayout false es := by
  cases es with
  | nil => rfl
  | cons e es =>
    simp [ExprTree.toExprs, ExprTree.listLayout, printList, print_toExpr e, printMore_toExprs es]

theorem printMore_toExprs (es : List ExprTree) :
    printMore (ExprTree.toExprs es) = ExprTree.moreLayout false es := by
  cases es with
  | nil => rfl
  | cons e es =>
    simp [ExprTree.toExprs, ExprTree.moreLayout, printMore, print_toExpr e, printMore_toExprs es]

end

/-! ## Accepted expressions -/

/-- `parseExpr` reads the tokens `ts` in front of others and reports no
error. -/
def Accepts (ts rest : List Tok) (pos : ℕ) (t : ExprTree) : Prop :=
  ∃ fuel notes, parseExpr fuel ⟨ts ++ rest, pos⟩ = .ok t ⟨rest, pos + ts.length⟩ notes ∧
    view.Clean notes

theorem Accepts.words_eq {ts rest : List Tok} {pos : ℕ} {t : ExprTree}
    (h : Accepts ts rest pos t) : t.words = wordsOf ts := by
  obtain ⟨fuel, notes, hparse, hclean⟩ := h
  exact words_eq_of_yields (yields_parseExpr fuel) hparse hclean

-- one node for `c ? a : b` and `if (c) a else b`, and for `.{a}` and `{a}`
example (c a b : ExprTree) (loc : Loc) :
    (ExprTree.ternary c a b).toExpr = (ExprTree.ifElse loc c a b).toExpr := rfl

example (parts : List ExprTree) (loc : Loc) :
    (ExprTree.concat loc true parts).toExpr = (ExprTree.concat loc false parts).toExpr := rfl

/-- `f.exe(a, b)` where `f` is the name given. -/
def dottedCall (f : Text) : List Tok :=
  [⟨.identifier, f⟩, ⟨.dot, ['.']⟩, ⟨.identifier, "exe".toList⟩, ⟨.lparen, ['(']⟩,
    ⟨.identifier, ['a']⟩, ⟨.comma, [',']⟩, ⟨.identifier, ['b']⟩, ⟨.rparen, [')']⟩]

end Parse

end Nslc
