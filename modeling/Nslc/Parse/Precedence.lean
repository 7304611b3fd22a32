import Nslc.Common.Ensures
import Nslc.Parse.Ending
/-!
# Parse — the trees of the Pratt parser

Which trees `parseExpr` returns is said without the parser: `fits` bounds
the precedences below a node, and `absorbs` tells which token an operand
that is still open at the right end of a tree would have gone on with. A
tree that is returned fits, and its last operand stops in front of the
next token.
-/

namespace Nslc

namespace Parse

open AST Nslc.Lex Descent

/-! ## Trees that fit -/

/-- The tokens that go on with a postfix form. -/
def isPostfix : TokenKind → Bool
  | .lbracket | .dot | .lparen => true
  | _ => false

/-- An infix that a rule of this floor takes. -/
def binds (floor : ℕ) (k : TokenKind) : Bool :=
  match ledPrec k with
  | none => false
  | some prec => decide (floor ≤ prec)

def BinaryOp.prec (op : BinaryOp) : ℕ := (ledPrec (BinaryOp.kind op)).getD 0

namespace ExprTree

/-- Read by the rules of operands and postfix forms alone. -/
def isHead : ExprTree → Bool
  | .repeat _ _ | .signExtend _ _ | .zeroExtend _ _ | .postIncDec _ _ | .ternary _ _ _
  | .binary _ _ _ => false
  | _ => true

/-- An operand read with a floor takes the token, unless something
inside it has. -/
def takes (floor : ℕ) (e : ExprTree) (k : TokenKind) : Bool :=
  binds floor k || (e.isHead && (isPostfix k || k == .lbrace))

/-- An operand at the right end of the tree takes the token. -/
def absorbs : ExprTree → TokenKind → Bool
  | .structCast _ _ _ _ _, k => k == .dot
  | .unary _ _ e, k | .preIncDec _ _ e, k =>
    absorbs e k || e.takes PrecLevel.multiplicative k
  | .ifElse _ _ _ b, k => absorbs b k || b.takes PrecLevel.logicalOr k
  | .signExtend _ e, k => absorbs e k || isPostfix k
  | .ternary _ _ b, k => absorbs b k || b.takes PrecLevel.conditional k
  | .binary op _ r, k => absorbs r k || r.takes (BinaryOp.prec op + 1) k
  | _, _ => false

/-- The rule of this floor goes on behind the tree. -/
def goesOn (floor : ℕ) (e : ExprTree) (k : TokenKind) : Bool := absorbs e k || e.takes floor k

mutual

/-- A tree that the rule of this floor may return. -/
def fits (floor : ℕ) : ExprTree → Bool
  | .literal _ _ _ | .systemVar _ _ => true
  | .name _ _ path => path.isEmpty
  | .paren e | .structCast _ _ e _ _ => fits 0 e
  | .concat _ _ parts => allFit parts
  | .unary _ _ e | .preIncDec _ _ e => fits PrecLevel.multiplicative e
  | .ifElse _ c a b => fits 0 c && fits PrecLevel.logicalOr a && fits PrecLevel.logicalOr b
  | .bit e hi => e.isHead && fits 0 e && !e.absorbs .lbracket && fits 0 hi
  | .slice e hi lo => e.isHead && fits 0 e && !e.absorbs .lbracket && fits 0 hi && fits 0 lo
  | .field e _ => e.isHead && fits 0 e && !e.absorbs .dot
  | .call e args => e.isHead && fits 0 e && !e.absorbs .lparen && allFit args
  | .repeat count body => count.isHead && fits 0 count && !count.absorbs .lbrace && fits 0 body
  | .signExtend width e =>
    binds floor .hashSignExtend && fits floor width && !width.absorbs .hashSignExtend &&
      e.isHead && fits 0 e
  | .zeroExtend width e =>
    binds floor .apostropheZeroExtend && fits floor width &&
      !width.absorbs .apostropheZeroExtend && fits 0 e
  | .postIncDec op e =>
    binds floor (IncDecOp.kind op) && fits floor e && !e.absorbs (IncDecOp.kind op)
  | .ternary c a b =>
    binds floor .question && fits floor c && !c.absorbs .question &&
      fits PrecLevel.conditional a && fits PrecLevel.conditional b
  | .binary op l r =>
    binds floor (BinaryOp.kind op) && fits floor l && !l.absorbs (BinaryOp.kind op) &&
      fits (BinaryOp.prec op + 1) r

def allFit : List ExprTree → Bool
  | [] => true
  | e :: es => fits 0 e && allFit es

end

theorem allFit_iff {es : List ExprTree} : allFit es = true ↔ ∀ e ∈ es, e.fits 0 = true := by
  induction es with
  | nil => simp [allFit]
  | cons e es ih => simp [allFit, ih]

/-- The floor is about infixes only. -/
theorem fits_of_isHead {e : ExprTree} (h : e.isHead = true) (floor : ℕ) :
    e.fits floor = e.fits 0 := by
  cases e <;> first | rfl | cases h

end ExprTree

open ExprTree

/-! ## The rules on tokens -/

section Tokens

variable {α : Type} {pre : State → Prop} {post : α → State → Prop}

theorem ensures_onNext {cases : At → Option (Rule α)} {otherwise : Rule α}
    (hcases : ∀ s t p, pre s → s.kindAt 0 = t.tok.kind → cases t = some p →
      Ensures view (fun _ => True) p post)
    (hother : Ensures view (fun s => pre s ∧
      (s.kindAt 0 = .eof ∨ ∃ t, s.kindAt 0 = t.tok.kind ∧ cases t = none)) otherwise post) :
    Ensures view pre (onNext cases otherwise) post := by
  rintro ⟨rest, pos⟩ a s' notes hs heq hclean
  cases rest with
  | nil => exact hother _ a s' notes ⟨hs, .inl rfl⟩ heq hclean
  | cons t ts =>
    simp only [onNext] at heq
    split at heq
    · rename_i p hp
      exact hcases _ _ p hs rfl hp _ a s' notes trivial heq hclean
    · rename_i hnone
      exact hother _ a s' notes ⟨hs, .inr ⟨_, rfl, hnone⟩⟩ heq hclean

theorem ensures_rejected (text : String) : Ensures view pre (reject text : Rule α) post :=
  fun _ _ _ _ _ heq => by cases heq

theorem ensures_accept (k : TokenKind) (hk : k ≠ .eof) :
    Ensures view pre (accept k) fun b s =>
      (b = true → ∃ s₀, pre s₀ ∧ s₀.kindAt 0 = k) ∧ (b = false → pre s ∧ s.kindAt 0 ≠ k) := by
  refine ensures_onNext (fun s t p hs ht hp => ?_)
    (ensures_pure fun s hs => ⟨fun h => (by cases h), fun _ => ⟨hs.1, ?_⟩⟩)
  · split_ifs at hp with hkind
    obtain rfl := Option.some.inj hp
    exact ensures_pure fun _ _ => ⟨fun _ => ⟨s, hs, ht.trans hkind⟩, fun h => (by cases h)⟩
  · rcases hs.2 with heof | ⟨t, ht, hnone⟩
    · rw [heof]
      exact hk.symm
    · split_ifs at hnone with hkind
      rw [ht]
      exact hkind

theorem ensures_moreOf {sep : TokenKind} (hsep : sep ≠ .eof) {p : Rule α} {good : α → Prop}
    (hp : Ensures view (fun _ => True) p fun a _ => good a) (fuel : ℕ) :
    Ensures view (fun _ => True) (moreOf sep p fuel) fun as s =>
      (∀ a ∈ as, good a) ∧ s.kindAt 0 ≠ sep := by
  refine (ensures_loop (fun as _ => (∀ a ∈ as, good a) ∧ True) (fun as => ?_) fuel []).mono
    (fun _ _ => by simp) fun _ _ h => h
  refine ensures_of_fact fun hgood => (ensures_accept sep hsep).bind fun b => ?_
  cases b with
  | true =>
    refine (hp.mono (fun _ _ => trivial) fun _ _ h => h).bind fun a => ?_
    refine ensures_pure fun s ha => ⟨fun a' ha' => ?_, trivial⟩
    rcases List.mem_append.1 ha' with h | h
    · exact hgood a' h
    · exact List.mem_singleton.1 h ▸ ha
  | false => exact ensures_pure fun s hs => ⟨hgood, (hs.2 rfl).2⟩

/-- No further separator is left behind a list. -/
theorem ensures_moreOf_sep {sep : TokenKind} (hsep : sep ≠ .eof) (p : Rule α) (fuel : ℕ) :
    Ensures view (fun _ => True) (moreOf sep p fuel) fun _ s => s.kindAt 0 ≠ sep := by
  have hp : Ensures view (fun _ => True) p fun a _ => (fun _ => True) a := ensures_true p
  exact (ensures_moreOf hsep hp fuel).mono (fun _ h => h) fun _ _ h => h.2

theorem ensures_listUpTo {close : TokenKind} {p : Rule α} {good : α → Prop} {what : String}
    (hp : Ensures view (fun _ => True) p fun a _ => good a) (fuel : ℕ) :
    Ensures view (fun _ => True) (listUpTo close p p what fuel) fun as _ => ∀ a ∈ as, good a := by
  refine ensures_then fun b => ?_
  cases b with
  | true => exact ensures_pure fun _ _ a ha => by cases ha
  | false =>
    refine (hp.mono (fun _ h => h) fun a _ h => And.intro h trivial).bind fun first => ?_
    refine ensures_of_fact fun hfirst => ?_
    refine (ensures_moreOf (by decide) hp fuel).bind fun rest => ?_
    refine ensures_of_fact fun hrest => ensures_then fun _ => ensures_pure fun _ _ a ha => ?_
    rcases List.mem_cons.1 ha with rfl | h
    · exact hfirst
    · exact hrest a h

end Tokens

/-! ## What is returned fits -/

/-- Nothing that follows is taken by what has been read. -/
def Read (e : ExprTree) (s : State) : Prop := e.absorbs (s.kindAt 0) = false

section Rules

variable {self : ℕ → Rule ExprTree} (hself : ∀ floor, Ensures view (fun _ => True) (self floor)
  fun e s => e.fits floor = true ∧ e.goesOn floor (s.kindAt 0) = false) (fuel : ℕ)

include hself

/-- A rule in whose place only the tree matters. -/
theorem ensures_self (floor : ℕ) :
    Ensures view (fun _ => True) (self floor) fun e _ => e.fits floor = true ∧ True :=
  (hself floor).mono (fun _ h => h) fun _ _ h => ⟨h.1, trivial⟩

theorem ensures_parenOrCast (idx : ℕ) :
    Ensures view (fun _ => True) (parenOrCast self fuel idx) fun e s =>
      (e.isHead = true ∧ e.fits 0 = true) ∧ Read e s := by
  refine ensures_then fun o => ?_
  have hparen : Ensures view (fun _ => True) (do
      let e ← self 0
      let _ ← expect .rparen "')' after expression"
      return ExprTree.paren e) fun e s => (e.isHead = true ∧ e.fits 0 = true) ∧ Read e s := by
    refine (ensures_self hself 0).bind fun e => ensures_of_fact fun he => ensures_then fun _ => ?_
    exact ensures_pure fun s _ => ⟨⟨rfl, he⟩, rfl⟩
  rcases o with _ | _ | ⟨t, ts⟩
  · exact hparen
  · exact hparen
  · refine (ensures_self hself 0).bind fun e => ensures_of_fact fun he => ?_
    refine ensures_then fun _ => ensures_then fun _ => ensures_then fun first => ?_
    refine (ensures_moreOf_sep (by decide) _ fuel).bind fun path => ?_
    exact ensures_pure fun s hs => ⟨⟨rfl, he⟩, by simpa [Read, absorbs] using hs⟩

theorem ensures_ifExpr (idx : ℕ) :
    Ensures view (fun _ => True) (ifExpr self idx) fun e s =>
      (e.isHead = true ∧ e.fits 0 = true) ∧ Read e s := by
  refine ensures_then fun _ => (ensures_self hself 0).bind fun c => ensures_of_fact fun hc => ?_
  refine ensures_then fun _ => (ensures_self hself _).bind fun a => ensures_of_fact fun ha => ?_
  refine ensures_then fun b => ?_
  cases b with
  | true =>
    refine (hself _).bind fun b => ensures_of_fact fun hb => ensures_pure fun s hs => ?_
    refine ⟨⟨rfl, ?_⟩, ?_⟩
    · simp [fits, hc, ha, hb]
    · simpa [Read, absorbs, goesOn] using hs
  | false => exact ensures_reject rfl

theorem ensures_nudCase {t : At} {p : Rule ExprTree} (hp : nudCase self fuel t = some p) :
    Ensures view (fun _ => True) p fun e s =>
      (e.isHead = true ∧ e.fits 0 = true) ∧ Read e s := by
  have hname : ∀ q, ((nameCase t).map fun p => do
      let t ← p
      return ExprTree.name t.idx t.tok.spelling []) = some q →
      Ensures view (fun _ => True) q fun e s =>
        (e.isHead = true ∧ e.fits 0 = true) ∧ Read e s := by
    intro q hq
    obtain ⟨r, -, rfl⟩ := Option.map_eq_some_iff.1 hq
    exact ensures_then fun _ => ensures_pure fun s _ => ⟨⟨rfl, rfl⟩, rfl⟩
  have hconcat : ∀ dotted what close, Ensures view (fun _ => True) (do
      let parts ← listUpTo close (self 0) (self 0) what fuel
      return ExprTree.concat t.idx dotted parts) fun e s =>
        (e.isHead = true ∧ e.fits 0 = true) ∧ Read e s := by
    intro dotted what close
    have hone := (hself 0).mono (fun _ h => h) fun _ _ h => h.1
    refine (ensures_listUpTo hone fuel).bind fun parts => ensures_pure fun s hparts => ?_
    exact ⟨⟨rfl, allFit_iff.2 hparts⟩, rfl⟩
  unfold nudCase at hp
  split at hp
  · exact hname p hp
  · exact hname p hp
  · obtain rfl := Option.some.inj hp
    exact ensures_pure fun s _ => ⟨⟨rfl, rfl⟩, rfl⟩
  · obtain rfl := Option.some.inj hp
    exact ensures_parenOrCast hself fuel t.idx
  · obtain rfl := Option.some.inj hp
    exact hconcat _ _ _
  · obtain rfl := Option.some.inj hp
    exact hconcat _ _ _
  · obtain rfl := Option.some.inj hp
    exact ensures_ifExpr hself t.idx
  · split at hp
    · obtain rfl := Option.some.inj hp
      exact ensures_pure fun s _ => ⟨⟨rfl, rfl⟩, rfl⟩
    · obtain rfl := Option.some.inj hp
      exact (hself _).bind fun e => ensures_pure fun s hs => ⟨⟨rfl, hs.1⟩, hs.2⟩
    · obtain rfl := Option.some.inj hp
      exact (hself _).bind fun e => ensures_pure fun s hs => ⟨⟨rfl, hs.1⟩, hs.2⟩
    · cases hp

theorem ensures_parseNudExpr : Ensures view (fun _ => True) (parseNudExpr self fuel) fun e s =>
    (e.isHead = true ∧ e.fits 0 = true) ∧ Read e s :=
  ensures_onNext (fun _ _ _ _ _ hp => ensures_nudCase hself fuel hp) (ensures_rejected _)

theorem ensures_postfixCase {head : ExprTree} (hhead : head.isHead = true ∧ head.fits 0 = true)
    {t : At} (hread : head.absorbs t.tok.kind = false) {p : Rule (ExprTree ⊕ ExprTree)}
    (hp : postfixCase self fuel head t = some p) :
    Ensures view (fun _ => True) p fun r s =>
      ∃ e, r = .inl e ∧ (e.isHead = true ∧ e.fits 0 = true) ∧ Read e s := by
  unfold postfixCase at hp
  split at hp
  · rename_i hk
    rw [hk] at hread
    obtain rfl := Option.some.inj hp
    refine (ensures_self hself 0).bind fun hi => ensures_of_fact fun hhi => ensures_then fun b => ?_
    cases b with
    | true =>
      refine (ensures_self hself 0).bind fun lo => ensures_of_fact fun hlo => ?_
      refine ensures_then fun _ => ensures_pure fun s _ => ⟨_, rfl, ⟨rfl, ?_⟩, rfl⟩
      simp [fits, hhead, hread, hhi, hlo]
    | false =>
      refine ensures_then fun _ => ensures_pure fun s _ => ⟨_, rfl, ⟨rfl, ?_⟩, rfl⟩
      simp [fits, hhead, hread, hhi]
  · rename_i hk
    rw [hk] at hread
    obtain rfl := Option.some.inj hp
    refine ensures_then fun _ => ensures_pure fun s _ => ⟨_, rfl, ⟨rfl, ?_⟩, rfl⟩
    simp [fits, hhead, hread]
  · rename_i hk
    rw [hk] at hread
    obtain rfl := Option.some.inj hp
    have hone := (hself 0).mono (fun _ h => h) fun _ _ h => h.1
    refine (ensures_listUpTo hone fuel).bind fun args => ensures_pure fun s hargs => ?_
    refine ⟨_, rfl, ⟨rfl, ?_⟩, rfl⟩
    simp [fits, hhead, hread, allFit_iff.2 hargs]
  · cases hp

/-- Behind an operand with its postfix forms there is no further one. -/
theorem ensures_parsePostfix (head : ExprTree) :
    Ensures view (fun s => (head.isHead = true ∧ head.fits 0 = true) ∧ Read head s)
      (parsePostfix self fuel head) fun e s =>
        (e.isHead = true ∧ e.fits 0 = true) ∧ Read e s ∧ isPostfix (s.kindAt 0) = false := by
  refine ensures_loop (fun e s => (e.isHead = true ∧ e.fits 0 = true) ∧ Read e s) (fun e => ?_)
    fuel head
  refine ensures_onNext (fun s t p hs ht hp => ?_) (ensures_pure fun s hs => ?_)
  · obtain ⟨he, hread⟩ := hs
    have hcase := ensures_postfixCase hself fuel he (ht ▸ hread) hp
    refine hcase.mono (fun _ h => h) ?_
    rintro _ s' ⟨e', rfl, he'⟩
    exact he'
  · obtain ⟨⟨he, hread⟩, hnext⟩ := hs
    refine ⟨he, hread, ?_⟩
    rcases hnext with heof | ⟨t, ht, hnone⟩
    · rw [heof]
      rfl
    · rw [ht]
      unfold postfixCase at hnone
      split at hnone
      · cases hnone
      · cases hnone
      · cases hnone
      · unfold isPostfix
        split <;> first | rfl | simp_all

/-- Nothing that follows is taken by what has been read, with its own
postfix forms. -/
def Ready (e : ExprTree) (s : State) : Prop :=
  Read e s ∧ (e.isHead = true → isPostfix (s.kindAt 0) = false ∧ s.kindAt 0 ≠ .lbrace)

theorem ensures_repeatTail (lhs : ExprTree) :
    Ensures view (fun s => (lhs.isHead = true ∧ lhs.fits 0 = true) ∧ Read lhs s ∧
      isPostfix (s.kindAt 0) = false) (repeatTail self lhs) fun e s =>
        (∀ floor, e.fits floor = true) ∧ Ready e s := by
  refine ensures_of_fact fun hlhs => (ensures_accept _ (by decide)).bind fun b => ?_
  cases b with
  | true =>
    intro s e s' notes hs heq hclean
    obtain ⟨s₀, ⟨hread, -⟩, hbrace⟩ := hs.1 rfl
    have hopen : lhs.absorbs .lbrace = false := hbrace ▸ hread
    have hbody : Ensures view (fun _ => True) (do
        let body ← self 0
        let _ ← expect .rbrace "'\x7d' after repeat-expression body"
        return ExprTree.repeat lhs body) fun e s => (∀ floor, e.fits floor = true) ∧ Ready e s := by
      refine (ensures_self hself 0).bind fun body => ensures_of_fact fun hbody => ?_
      refine ensures_then fun _ => ensures_pure fun s _ => ⟨fun floor => ?_, rfl, fun h => by cases h⟩
      simp [fits, hlhs, hopen, hbody]
    exact hbody s e s' notes trivial heq hclean
  | false =>
    refine ensures_pure fun s hs => ?_
    obtain ⟨⟨hread, hpost⟩, hbrace⟩ := hs.2 rfl
    exact ⟨fun floor => (fits_of_isHead hlhs.1 floor).trans hlhs.2, hread, fun _ => ⟨hpost, hbrace⟩⟩

/-- An infix form fits where its left side does and leaves the infix to
it. -/
theorem ensures_ledRule {floor : ℕ} {lhs : ExprTree} (hfits : lhs.fits floor = true) {t : Tok}
    {prec : ℕ} (hprec : ledPrec t.kind = some prec) (hfloor : floor ≤ prec)
    (hread : lhs.absorbs t.kind = false) {p : Rule ExprTree}
    (hp : ledRule self fuel lhs t.kind prec = some p) :
    Ensures view (fun _ => True) p fun e s => e.fits floor = true ∧ Ready e s := by
  have hbinds : binds floor t.kind = true := by simp [binds, hprec, hfloor]
  unfold ledRule at hp
  split at hp
  · rename_i hk
    rw [hk] at hread hbinds
    obtain rfl := Option.some.inj hp
    refine (ensures_parseNudExpr hself fuel).bind fun e => ?_
    refine (ensures_parsePostfix hself fuel e).bind fun e' => ensures_pure fun s hs => ?_
    obtain ⟨⟨hhead, hfits'⟩, hlast, hpost⟩ := hs
    refine ⟨by simp [fits, hbinds, hfits, hread, hhead, hfits'], ?_, fun h => by cases h⟩
    show (absorbs e' (s.kindAt 0) || isPostfix (s.kindAt 0)) = false
    rw [hpost, Bool.or_false]
    exact hlast
  · rename_i hk
    rw [hk] at hread hbinds
    obtain rfl := Option.some.inj hp
    refine ensures_then fun _ => (ensures_self hself 0).bind fun e => ensures_of_fact fun he => ?_
    refine ensures_then fun _ => ensures_pure fun s _ => ⟨?_, rfl, fun h => by cases h⟩
    simp [fits, hbinds, hfits, hread, he]
  · rename_i hk
    rw [hk] at hread hbinds
    obtain rfl := Option.some.inj hp
    refine ensures_pure fun s _ => ⟨?_, rfl, fun h => by cases h⟩
    simp [fits, IncDecOp.kind, hbinds, hfits, hread]
  · rename_i hk
    rw [hk] at hread hbinds
    obtain rfl := Option.some.inj hp
    refine ensures_pure fun s _ => ⟨?_, rfl, fun h => by cases h⟩
    simp [fits, IncDecOp.kind, hbinds, hfits, hread]
  · rename_i hk
    rw [hk] at hread hbinds
    obtain rfl := Option.some.inj hp
    refine (ensures_self hself _).bind fun a => ensures_of_fact fun ha => ensures_then fun _ => ?_
    refine (hself _).bind fun b => ensures_of_fact fun hb => ensures_pure fun s hs => ?_
    exact ⟨by simp [fits, hbinds, hfits, hread, ha, hb], hs, fun h => by cases h⟩
  · obtain ⟨op, hop, rfl⟩ := Option.map_eq_some_iff.1 hp
    have hk : t.kind = BinaryOp.kind op := by
      unfold binaryOf at hop
      split at hop <;> first | (rename_i hk; cases hop; exact hk) | cases hop
    rw [hk] at hread hbinds hprec
    have hopPrec : BinaryOp.prec op = prec := by simp [BinaryOp.prec, hprec]
    refine (hself _).bind fun r => ensures_of_fact fun hr => ensures_pure fun s hs => ?_
    refine ⟨by simp [fits, hbinds, hfits, hread, hopPrec, hr], ?_, fun h => by cases h⟩
    show (absorbs r (s.kindAt 0) || r.takes (BinaryOp.prec op + 1) (s.kindAt 0)) = false
    rw [hopPrec]
    exact hs

end Rules

/-- Every infix has a rule. -/
theorem ledRule_isSome (self : ℕ → Rule ExprTree) (fuel : ℕ) (lhs : ExprTree) {k : TokenKind}
    {prec : ℕ} (h : ledPrec k = some prec) : (ledRule self fuel lhs k prec).isSome = true := by
  unfold ledPrec at h
  split at h <;> first | rfl | cases h

theorem ensures_exprAt (fuel floor : ℕ) :
    Ensures view (fun _ => True) (exprAt fuel floor) fun e s =>
      e.fits floor = true ∧ e.goesOn floor (s.kindAt 0) = false := by
  induction fuel generalizing floor with
  | zero => exact ensures_spinning
  | succ fuel ih =>
    refine (ensures_parseNudExpr ih fuel).bind fun head => ?_
    refine (ensures_parsePostfix ih fuel head).bind fun head' => ?_
    refine (ensures_repeatTail ih head').bind fun lhs => ?_
    refine (ensures_loop (fun e s => e.fits floor = true ∧ Ready e s) (fun e => ?_) fuel lhs).mono
      (fun s h => ⟨h.1 floor, h.2⟩) fun _ _ h => h
    refine ensures_onNext (fun s t p hs ht hp => ?_) (ensures_pure fun s hs => ?_)
    · obtain ⟨hfits, hread, -⟩ := hs
      unfold ledCase at hp
      split at hp
      · cases hp
      · rename_i prec hprec
        split_ifs at hp with hfloor
        obtain ⟨q, hq, rfl⟩ := Option.map_eq_some_iff.1 hp
        have hrule := ensures_ledRule ih fuel hfits hprec (Nat.le_of_not_lt hfloor) (ht ▸ hread) hq
        exact hrule.bind fun e' => ensures_pure fun _ h => h
    · -- the loop ends on a token that is no infix or one below the floor
      obtain ⟨⟨hfits, hread, hown⟩, hnext⟩ := hs
      have hbinds : binds floor (s.kindAt 0) = false := by
        rcases hnext with heof | ⟨t, ht, hnone⟩
        · rw [heof]
          rfl
        · rw [ht, binds]
          unfold ledCase at hnone
          revert hnone
          cases hprec : ledPrec t.tok.kind with
          | none => exact fun _ => rfl
          | some prec =>
            intro hnone
            dsimp only at hnone ⊢
            split_ifs at hnone with hfloor
            · simpa using hfloor
            · have hrule := ledRule_isSome (exprAt fuel) fuel e hprec
              rw [Option.map_eq_none_iff] at hnone
              rw [hnone] at hrule
              cases hrule
      refine ⟨hfits, ?_⟩
      have hread' : e.absorbs (s.kindAt 0) = false := hread
      rw [goesOn, takes, hread', hbinds]
      cases hhead : e.isHead with
      | false => rfl
      | true =>
        obtain ⟨hpost, hbrace⟩ := hown hhead
        simp [hpost, hbrace]

/-- **What `parseExpr` returns without an error fits**: below every
operator there are only forms that bind closer, operators of one
precedence are grouped to the left, and the expression goes on as far as
it can. -/
theorem fits_of_parseExpr {fuel : ℕ} {s s' : State} {t : ExprTree} {notes : List Report}
    (h : parseExpr fuel s = .ok t s' notes) (hclean : view.Clean notes) :
    t.fits 0 = true ∧ t.goesOn 0 (s'.kindAt 0) = false :=
  ensures_exprAt fuel 0 s t s' notes trivial h hclean

/-- `a - b - c * d ; `, with the statement's end left. -/
theorem fits_of_parseExpr_minus :
    let t : ExprTree := .binary .sub (.binary .sub (.name 0 ['a'] []) (.name 2 ['b'] []))
      (.binary .mul (.name 4 ['c'] []) (.name 6 ['d'] []))
    t.fits 0 = true ∧ t.goesOn 0 .semicolon = false :=
  @fits_of_parseExpr 8
    ⟨[⟨.identifier, ['a']⟩, ⟨.minus, []⟩, ⟨.identifier, ['b']⟩, ⟨.minus, []⟩,
      ⟨.identifier, ['c']⟩, ⟨.star, []⟩, ⟨.identifier, ['d']⟩, ⟨.semicolon, []⟩], 0⟩
    ⟨[⟨.semicolon, []⟩], 7⟩ _ [] rfl (by simp [View.Clean])

end Parse

end Nslc
