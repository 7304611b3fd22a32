import Nslc.Parse.Written
/-!
# Parse — the trees are read back

The tokens of a tree that fits are read as that tree, with new locations.
The left end of a tree is read before the loops that build it, so it is
said of a tree what the loops behind it come to: `HeadBack` for postfix
forms, `SpineBack` for infix forms.
-/

namespace Nslc

namespace Parse

open AST Nslc.Lex Descent ExprTree

section Written

-- what the fixed tokens are spelled like
variable (text : TokenKind → Text) {post : ExprTree → State → Prop}

/-! ## What a tree is read as -/

/-- The tree, and what is left behind it. -/
def Back (e : ExprTree) (rest : List Tok) (a : ExprTree) (s : State) : Prop :=
  a.bare = e.bare ∧ Left rest s

def postfixStep (n : ℕ) (head : ExprTree) : Rule (ExprTree ⊕ ExprTree) :=
  onNext (postfixCase (exprAt n) n head) (pure (.inr head))

def ledStep (floor n : ℕ) (lhs : ExprTree) : Rule (ExprTree ⊕ ExprTree) :=
  onNext (ledCase (exprAt n) n floor lhs) (pure (.inr lhs))

/-- An operand with its postfix forms. -/
def headRule (n : ℕ) : Rule ExprTree := do
  let head ← parseNudExpr (exprAt n) n
  parsePostfix (exprAt n) n head

theorem exprAt_succ (n floor : ℕ) :
    exprAt (n + 1) floor = headRule n >>= fun lhs => repeatTail (exprAt n) lhs >>= fun lhs =>
      Rule.loop (ledStep floor n) n lhs := by
  rw [headRule, Rule.bind_assoc]
  rfl

def ReadBack (e : ExprTree) : Prop :=
  ∀ floor rest pos, e.fits floor = true → e.uncast = true →
    e.goesOn floor (nextKind rest) = false →
    Answers (fun n => exprAt n floor) ⟨e.tokens text ++ rest, pos⟩ (Back e rest)

/-- What the loop over postfix forms comes to behind the tree is what
the operand comes to. -/
def HeadBack (e : ExprTree) : Prop :=
  ∀ rest pos (post : ExprTree → State → Prop), e.isHead = true → e.fits 0 = true →
    e.uncast = true → e.absorbs (nextKind rest) = false →
    (e.looksCast = true → nextKind rest ≠ .lparen) →
    (∀ head s, Back e rest head s → LoopAnswers postfixStep head s post) →
    Answers headRule ⟨e.tokens text ++ rest, pos⟩ post

/-- What the loop over infixes comes to behind the tree is what the
expression comes to. -/
def SpineBack (e : ExprTree) : Prop :=
  ∀ floor rest pos (post : ExprTree → State → Prop), e.fits floor = true → e.uncast = true →
    e.absorbs (nextKind rest) = false →
    (e.isHead = true → isPostfix (nextKind rest) = false ∧ nextKind rest ≠ .lbrace) →
    (∀ lhs s, Back e rest lhs s → LoopAnswers (ledStep floor) lhs s post) →
    Answers (fun n => exprAt n floor) ⟨e.tokens text ++ rest, pos⟩ post

/-! ## The loops -/

theorem loopAnswers_postfix_done {head : ExprTree} {rest : List Tok} {pos : ℕ}
    (hnext : isPostfix (nextKind rest) = false) (h : post head ⟨rest, pos⟩) :
    LoopAnswers postfixStep head ⟨rest, pos⟩ post := by
  refine loopAnswers_inr (answers_onNext_other (fun n t us ht => ?_) (answers_pure ⟨head, rfl, h⟩))
  rw [ht] at hnext
  have hkind : isPostfix t.kind = false := hnext
  unfold postfixCase
  split
  · rename_i hk
    rw [show t.kind = .lbracket from hk] at hkind
    cases hkind
  · rename_i hk
    rw [show t.kind = .dot from hk] at hkind
    cases hkind
  · rename_i hk
    rw [show t.kind = .lparen from hk] at hkind
    cases hkind
  · rfl

theorem loopAnswers_led_done {floor : ℕ} {lhs : ExprTree} {rest : List Tok} {pos : ℕ}
    (hnext : binds floor (nextKind rest) = false) (h : post lhs ⟨rest, pos⟩) :
    LoopAnswers (ledStep floor) lhs ⟨rest, pos⟩ post := by
  refine loopAnswers_inr (answers_onNext_other (fun n t us ht => ?_) (answers_pure ⟨lhs, rfl, h⟩))
  rw [ht] at hnext
  have hkind : binds floor t.kind = false := hnext
  unfold ledCase
  unfold binds at hkind
  split at hkind
  · rename_i hprec
    rw [hprec]
  · rename_i prec hprec
    simp only [hprec]
    rw [if_pos (by simpa using hkind)]

/-- An infix that binds is taken, and the loop goes on. -/
theorem loopAnswers_led {floor : ℕ} {lhs e : ExprTree} {t : Tok} {ts rest : List Tok} {pos prec : ℕ}
    (hprec : ledPrec t.kind = some prec) (hbinds : binds floor t.kind = true) {p : ℕ → Rule ExprTree}
    (hp : ∀ n, ledRule (exprAt n) n lhs t.kind prec = some (p n))
    (hread : Answers p ⟨ts, pos + 1⟩ (Back e rest))
    (hloop : ∀ lhs s, Back e rest lhs s → LoopAnswers (ledStep floor) lhs s post) :
    LoopAnswers (ledStep floor) lhs ⟨t :: ts, pos⟩ post := by
  have hfloor : ¬ prec < floor := by
    simp only [binds, hprec, decide_eq_true_eq] at hbinds
    omega
  have hcase : ∀ n, ledCase (exprAt n) n floor lhs ⟨t, pos⟩ = some (p n >>= fun e => pure (.inl e)) := by
    intro n
    simp only [ledCase, hprec, if_neg hfloor, hp n]
    rfl
  refine loopAnswers_inl (answers_onNext hcase (hread.bind fun a s hs => ?_))
  exact answers_pure ⟨a, rfl, hloop a s hs⟩

theorem readBack_of_spineBack {e : ExprTree} (h : SpineBack text e) : ReadBack text e := by
  intro floor rest pos hfits huncast hgoes
  simp only [goesOn, takes, Bool.or_eq_false_iff, Bool.and_eq_false_iff] at hgoes
  obtain ⟨habsorbs, hbinds, hown⟩ := hgoes
  refine h floor rest pos _ hfits huncast habsorbs (fun hhead => ?_) ?_
  · rcases hown with hno | ⟨hpost, hbrace⟩
    · rw [hhead] at hno
      cases hno
    · exact ⟨hpost, by simpa using hbrace⟩
  · rintro lhs _ ⟨hlhs, pos', rfl⟩
    exact loopAnswers_led_done hbinds ⟨hlhs, pos', rfl⟩

theorem spineBack_of_headBack {e : ExprTree} (hhead : e.isHead = true) (h : HeadBack text e) :
    SpineBack text e := by
  intro floor rest pos post hfits huncast habsorbs hown hloop
  obtain ⟨hpost, hbrace⟩ := hown hhead
  rw [fits_of_isHead hhead] at hfits
  have hcast : e.looksCast = true → nextKind rest ≠ .lparen := fun _ hk => by
    rw [hk] at hpost
    cases hpost
  have hread := h rest pos (Back e rest) hhead hfits huncast habsorbs hcast
    fun head _ hs => by
      obtain ⟨hbare, pos', rfl⟩ := hs
      exact loopAnswers_postfix_done hpost ⟨hbare, pos', rfl⟩
  refine Answers.of_succ ?_
  simp only [exprAt_succ]
  refine hread.bind ?_
  rintro lhs _ ⟨hlhs, pos₁, rfl⟩
  -- no `{` follows, so the operand is no count
  have hrepeat : Answers (fun n => repeatTail (exprAt n) lhs) ⟨rest, pos₁⟩ (Back e rest) := by
    refine (answers_accept_other hbrace).bind ?_
    rintro _ _ ⟨rfl, hs⟩
    exact answers_pure ⟨hlhs, hs⟩
  exact hrepeat.bind fun lhs' s hs => (hloop lhs' s hs).answers

/-! ## The forms -/

/-- An operand that has no postfix form itself. -/
theorem headBack_of_nud {e : ExprTree}
    (h : ∀ rest pos, e.fits 0 = true → e.uncast = true → e.absorbs (nextKind rest) = false →
      (e.looksCast = true → nextKind rest ≠ .lparen) →
      Answers (fun n => parseNudExpr (exprAt n) n) ⟨e.tokens text ++ rest, pos⟩ (Back e rest)) :
    HeadBack text e := by
  intro rest pos post _ hfits huncast habsorbs hcast hloop
  exact (h rest pos hfits huncast habsorbs hcast).bind fun head s hs => (hloop head s hs).answers

theorem headBack_literal (loc : Loc) (lit : Lit) (x : Text) :
    HeadBack text (.literal loc lit x) := by
  refine headBack_of_nud text fun rest pos _ _ _ _ => ?_
  refine answers_onNext (p := fun _ => pure (.literal pos lit x)) (fun n => ?_)
    (answers_pure ⟨rfl, _, rfl⟩)
  cases lit <;> rfl

theorem headBack_systemVar (loc : Loc) (var : SystemVar) : HeadBack text (.systemVar loc var) := by
  refine headBack_of_nud text fun rest pos _ _ _ _ => ?_
  cases var with
  | time =>
    exact answers_onNext (p := fun _ => pure (.systemVar pos .time)) (fun _ => rfl)
      (answers_pure ⟨rfl, _, rfl⟩)
  | random =>
    refine answers_onNext (p := fun _ => pure (.systemVar pos .random)) (fun _ => ?_)
      (answers_pure ⟨rfl, _, rfl⟩)
    simp [nudCase, Word.tok]

theorem headBack_name (loc : Loc) (x : Ident) (path : List Ident) :
    HeadBack text (.name loc x path) := by
  refine headBack_of_nud text fun rest pos hfits _ _ _ => ?_
  obtain rfl : path = [] := List.isEmpty_iff.1 hfits
  exact answers_onNext (p := fun _ => pure (.name pos x [])) (fun _ => rfl)
    (answers_pure ⟨rfl, _, rfl⟩)

theorem headBack_paren {e : ExprTree} (h : ReadBack text e) : HeadBack text (.paren e) := by
  refine headBack_of_nud text fun rest pos hfits huncast _ hcast => ?_
  have htokens : (ExprTree.paren e).tokens text ++ rest =
      ⟨.lparen, text .lparen⟩ :: (e.tokens text ++ ⟨.rparen, text .rparen⟩ :: rest) := by
    simp [tokens, words, layout, Word.tok]
  rw [htokens]
  refine answers_onNext (fun _ => rfl) ?_
  -- the look-ahead for a cast fails, and the operand is read
  refine (answers_acceptAll_other (leading_eq_none text hcast)).bind ?_
  rintro _ _ ⟨rfl, pos₁, rfl⟩
  refine (h 0 _ pos₁ hfits huncast (goesOn_of_closes rfl 0 e)).bind ?_
  rintro a _ ⟨ha, pos₂, rfl⟩
  refine (answers_expect _ _ _).bind ?_
  rintro _ _ hs
  exact answers_pure ⟨by simp [bare, ha], hs⟩

theorem spellings_eq {as : List At} {path : List Ident}
    (h : List.Forall₂ (fun (a : At) m => a.tok.spelling = m) as path) :
    as.map (fun a => a.tok.spelling) = path := by
  induction h with
  | nil => rfl
  | cons h _ ih => rw [List.map_cons, h, ih]

theorem headBack_structCast (loc : Loc) (t : Ident) {e : ExprTree} (first : Ident)
    (path : List Ident) (h : ReadBack text e) : HeadBack text (.structCast loc t e first path) := by
  refine headBack_of_nud text fun rest pos hfits huncast habsorbs _ => ?_
  have htokens : (ExprTree.structCast loc t e first path).tokens text ++ rest =
      ⟨.lparen, text .lparen⟩ :: ⟨.identifier, t⟩ :: ⟨.rparen, text .rparen⟩ ::
        ⟨.lparen, text .lparen⟩ :: (e.tokens text ++ ⟨.rparen, text .rparen⟩ :: ⟨.dot, text .dot⟩ ::
          ⟨.identifier, first⟩ :: (pathTokens text path ++ rest)) := by
    simp [tokens, words, layout, Word.tok, pathTokens, pathWords]
  have hdot : nextKind rest ≠ .dot := by simpa [absorbs] using habsorbs
  rw [htokens]
  refine answers_onNext (fun _ => rfl) ?_
  refine (@answers_acceptAll _ _ _ [_, _, _] rfl).bind ?_
  rintro _ _ ⟨rfl, pos₁, rfl⟩
  refine (h 0 _ pos₁ hfits huncast (goesOn_of_closes rfl 0 e)).bind ?_
  rintro a _ ⟨ha, pos₂, rfl⟩
  refine (answers_expect _ _ _).bind ?_
  rintro _ _ ⟨pos₃, rfl⟩
  refine (answers_expect _ _ _).bind ?_
  rintro _ _ ⟨pos₄, rfl⟩
  refine (answers_identifierLike first _).bind ?_
  rintro b _ ⟨hb, pos₅, rfl⟩
  rw [pathTokens_eq]
  have hmore := @answers_moreOf At Ident rest pos₅ ⟨.dot, text .dot⟩
    (fun _ => identifierLike "expected member name after '.'") (fun m => [⟨.identifier, m⟩])
    (fun a m => a.tok.spelling = m) (fun _ => True) path trivial trivial hdot
    fun m _ ts pos _ => answers_identifierLike m _
  refine hmore.bind ?_
  rintro as _ ⟨has, hs⟩
  exact answers_pure ⟨by simp [bare, ha, hb, spellings_eq has], hs⟩

/-- The items of a list are read in front of a token that closes. -/
theorem answers_item {es : List ExprTree} (hes : ∀ e ∈ es, ReadBack text e)
    (hfits : allFit es = true) (huncast : allUncast es = true) :
    ∀ e ∈ es, ∀ ts pos, closes (nextKind ts) = true →
      Answers (fun n => exprAt n 0) ⟨e.tokens text ++ ts, pos⟩
        fun a s => a.bare = e.bare ∧ Left ts s :=
  fun e he ts pos hclose => hes e he 0 ts pos (allFit_iff.1 hfits e he)
    (allUncast_iff.1 huncast e he) (goesOn_of_closes hclose 0 e)

theorem headBack_concat (loc : Loc) (dotted : Bool) {parts : List ExprTree}
    (h : ∀ e ∈ parts, ReadBack text e) : HeadBack text (.concat loc dotted parts) := by
  refine headBack_of_nud text fun rest pos hfits huncast _ _ => ?_
  have hlist := fun what pos => @answers_listUpTo text ⟨.rbrace, text .rbrace⟩ ⟨rfl, by simp⟩ rest pos
    _ parts (answers_item text h hfits huncast) what
  cases dotted with
  | true =>
    have htokens : (ExprTree.concat loc true parts).tokens text ++ rest =
        ⟨.dotLbrace, text .dotLbrace⟩ ::
          (listTokens text parts ++ ⟨.rbrace, text .rbrace⟩ :: rest) := by
      simp [tokens, words, layout, Word.tok, listTokens]
    rw [htokens]
    refine answers_onNext (fun _ => rfl) ((hlist _ _).bind ?_)
    rintro as s ⟨has, hs⟩
    exact answers_pure ⟨by simp [bare, has], hs⟩
  | false =>
    have htokens : (ExprTree.concat loc false parts).tokens text ++ rest =
        ⟨.lbrace, text .lbrace⟩ ::
          (listTokens text parts ++ ⟨.rbrace, text .rbrace⟩ :: rest) := by
      simp [tokens, words, layout, Word.tok, listTokens]
    rw [htokens]
    refine answers_onNext (fun _ => rfl) ((hlist _ _).bind ?_)
    rintro as s ⟨has, hs⟩
    exact answers_pure ⟨by simp [bare, has], hs⟩

theorem headBack_unary (loc : Loc) (op : UnaryOp) {e : ExprTree} (h : ReadBack text e) :
    HeadBack text (.unary loc op e) := by
  refine headBack_of_nud text fun rest pos hfits huncast habsorbs _ => ?_
  refine answers_onNext (p := fun n => do
    let e ← exprAt n PrecLevel.multiplicative
    return .unary pos op e) (fun n => by cases op <;> rfl) ?_
  refine (h _ _ _ hfits huncast habsorbs).bind ?_
  rintro a s ⟨ha, hs⟩
  exact answers_pure ⟨by simp [bare, ha], hs⟩

theorem headBack_preIncDec (loc : Loc) (op : IncDecOp) {e : ExprTree} (h : ReadBack text e) :
    HeadBack text (.preIncDec loc op e) := by
  refine headBack_of_nud text fun rest pos hfits huncast habsorbs _ => ?_
  refine answers_onNext (p := fun n => do
    let e ← exprAt n PrecLevel.multiplicative
    return .preIncDec pos op e) (fun n => by cases op <;> rfl) ?_
  refine (h _ _ _ hfits huncast habsorbs).bind ?_
  rintro a s ⟨ha, hs⟩
  exact answers_pure ⟨by simp [bare, ha], hs⟩

theorem headBack_ifElse (loc : Loc) {c a b : ExprTree} (hc : ReadBack text c)
    (ha : ReadBack text a) (hb : ReadBack text b) : HeadBack text (.ifElse loc c a b) := by
  refine headBack_of_nud text fun rest pos hfits huncast habsorbs _ => ?_
  simp only [fits, uncast, Bool.and_eq_true] at hfits huncast
  obtain ⟨⟨hfc, hfa⟩, hfb⟩ := hfits
  obtain ⟨⟨huc, hua⟩, hub⟩ := huncast
  have htokens : (ExprTree.ifElse loc c a b).tokens text ++ rest =
      ⟨.if_, text .if_⟩ :: ⟨.lparen, text .lparen⟩ :: (c.tokens text ++ ⟨.rparen, text .rparen⟩ ::
        (a.tokens text ++ ⟨.else_, text .else_⟩ :: (b.tokens text ++ rest))) := by
    simp [tokens, words, layout, Word.tok]
  rw [htokens]
  refine answers_onNext (fun _ => rfl) ?_
  refine (answers_expect _ _ _).bind ?_
  rintro _ _ ⟨pos₁, rfl⟩
  refine (hc 0 _ pos₁ hfc huc (goesOn_of_closes rfl 0 c)).bind ?_
  rintro c' _ ⟨hc', pos₂, rfl⟩
  refine (answers_expect _ _ _).bind ?_
  rintro _ _ ⟨pos₃, rfl⟩
  refine (ha _ _ pos₃ hfa hua (goesOn_of_closes rfl _ a)).bind ?_
  rintro a' _ ⟨ha', pos₄, rfl⟩
  refine (answers_accept _ _).bind ?_
  rintro _ _ ⟨rfl, pos₅, rfl⟩
  refine (hb _ _ pos₅ hfb hub habsorbs).bind ?_
  rintro b' s ⟨hb', hs⟩
  exact answers_pure ⟨by simp [bare, hc', ha', hb'], hs⟩

/-- A postfix form: its operand is read, then one turn of the loop. -/
theorem headBack_of_postfix {e e' : ExprTree} (t : Tok) (write : List Tok)
    (htokens : e'.tokens text = e.tokens text ++ t :: write) (he : HeadBack text e)
    (hinner : e'.fits 0 = true → e'.uncast = true →
      (e.isHead = true ∧ e.fits 0 = true ∧ e.absorbs t.kind = false) ∧ e.uncast = true ∧
        (e.looksCast = true → t.kind ≠ .lparen))
    (hturn : e'.fits 0 = true → e'.uncast = true → ∀ head rest pos, head.bare = e.bare →
      Answers (fun n => postfixStep n head) ⟨t :: (write ++ rest), pos⟩ fun r s =>
        ∃ a, r = .inl a ∧ Back e' rest a s) :
    HeadBack text e' := by
  intro rest pos post _ hfits huncast _ _ hloop
  obtain ⟨⟨hhead, hfits', habsorbs⟩, huncast', hcast⟩ := hinner hfits huncast
  rw [htokens, List.append_assoc, List.cons_append]
  refine he _ pos post hhead hfits' huncast' habsorbs hcast ?_
  rintro head _ ⟨hbare, pos₁, rfl⟩
  refine loopAnswers_inl ((hturn hfits huncast head rest pos₁ hbare).mono ?_)
  rintro _ s ⟨a, rfl, hs⟩
  exact ⟨a, rfl, hloop a s hs⟩

theorem headBack_bit {e hi : ExprTree} (he : HeadBack text e) (hhi : ReadBack text hi) :
    HeadBack text (.bit e hi) := by
  refine headBack_of_postfix text ⟨.lbracket, text .lbracket⟩
    (hi.tokens text ++ [⟨.rbracket, text .rbracket⟩])
    (by simp [tokens, words, layout, Word.tok]) he (fun hfits huncast => ?_)
    fun hfits huncast head rest pos hbare => ?_
  · simp only [fits, Bool.and_eq_true, Bool.not_eq_true'] at hfits
    exact ⟨⟨hfits.1.1.1, hfits.1.1.2, hfits.1.2⟩, (uncast_bit_iff.1 huncast).1, fun _ => by simp⟩
  · simp only [fits, Bool.and_eq_true] at hfits
    rw [List.append_assoc, List.singleton_append]
    refine answers_onNext (fun _ => rfl) ?_
    refine (hhi 0 _ _ hfits.2 (uncast_bit_iff.1 huncast).2 (goesOn_of_closes rfl 0 hi)).bind ?_
    rintro hi' _ ⟨hhi', pos₁, rfl⟩
    -- a `]` and no `:` behind the first bound
    refine (answers_accept_other (by simp)).bind ?_
    rintro _ _ ⟨rfl, pos₂, rfl⟩
    refine (answers_expect _ _ _).bind ?_
    rintro _ s hs
    exact answers_pure ⟨_, rfl, by simp [bare, hbare, hhi'], hs⟩

theorem headBack_slice {e hi lo : ExprTree} (he : HeadBack text e) (hhi : ReadBack text hi)
    (hlo : ReadBack text lo) : HeadBack text (.slice e hi lo) := by
  refine headBack_of_postfix text ⟨.lbracket, text .lbracket⟩
    (hi.tokens text ++ ⟨.colon, text .colon⟩ ::
      (lo.tokens text ++ [⟨.rbracket, text .rbracket⟩]))
    (by simp [tokens, words, layout, Word.tok]) he (fun hfits huncast => ?_)
    fun hfits huncast head rest pos hbare => ?_
  · simp only [fits, uncast, Bool.and_eq_true, Bool.not_eq_true'] at hfits huncast
    exact ⟨⟨hfits.1.1.1.1, hfits.1.1.1.2, hfits.1.1.2⟩, huncast.1.1, fun _ => by simp⟩
  · simp only [fits, uncast, Bool.and_eq_true] at hfits huncast
    rw [List.append_assoc, List.cons_append, List.append_assoc, List.singleton_append]
    refine answers_onNext (fun _ => rfl) ?_
    refine (hhi 0 _ _ hfits.1.2 huncast.1.2 (goesOn_of_closes rfl 0 hi)).bind ?_
    rintro hi' _ ⟨hhi', pos₁, rfl⟩
    refine (answers_accept _ _).bind ?_
    rintro _ _ ⟨rfl, pos₂, rfl⟩
    refine (hlo 0 _ _ hfits.2 huncast.2 (goesOn_of_closes rfl 0 lo)).bind ?_
    rintro lo' _ ⟨hlo', pos₃, rfl⟩
    refine (answers_expect _ _ _).bind ?_
    rintro _ s hs
    exact answers_pure ⟨_, rfl, by simp [bare, hbare, hhi', hlo'], hs⟩

theorem headBack_field {e : ExprTree} (x : Ident) (he : HeadBack text e) :
    HeadBack text (.field e x) := by
  refine headBack_of_postfix text ⟨.dot, text .dot⟩ [⟨.identifier, x⟩]
    (by simp [tokens, words, layout, Word.tok]) he (fun hfits huncast => ?_)
    fun _ _ head rest pos hbare => ?_
  · simp only [fits, uncast, Bool.and_eq_true, Bool.not_eq_true'] at hfits huncast
    exact ⟨⟨hfits.1.1, hfits.1.2, hfits.2⟩, huncast, fun _ => by simp⟩
  · refine answers_onNext (fun _ => rfl) ?_
    refine (answers_identifierLike x _).bind ?_
    rintro a s ⟨ha, hs⟩
    exact answers_pure ⟨_, rfl, by simp [bare, hbare, ha], hs⟩

theorem headBack_call {e : ExprTree} {args : List ExprTree} (he : HeadBack text e)
    (hargs : ∀ u ∈ args, ReadBack text u) : HeadBack text (.call e args) := by
  refine headBack_of_postfix text ⟨.lparen, text .lparen⟩
    (listTokens text args ++ [⟨.rparen, text .rparen⟩])
    (by simp [tokens, words, layout, Word.tok, listTokens]) he (fun hfits huncast => ?_)
    fun hfits huncast head rest pos hbare => ?_
  · simp only [fits, uncast, Bool.and_eq_true, Bool.not_eq_true'] at hfits huncast
    refine ⟨⟨hfits.1.1.1, hfits.1.1.2, hfits.1.2⟩, huncast.1.2, fun hcast => ?_⟩
    rw [hcast] at huncast
    exact absurd huncast.1.1 (by decide)
  · simp only [fits, uncast, Bool.and_eq_true] at hfits huncast
    rw [List.append_assoc, List.singleton_append]
    refine answers_onNext (fun _ => rfl) ?_
    have hlist := @answers_listUpTo text ⟨.rparen, text .rparen⟩ ⟨rfl, by simp⟩ rest (pos + 1)
      _ args (answers_item text hargs hfits.2 huncast.2) "')' after argument list"
    refine hlist.bind ?_
    rintro as s ⟨has, hs⟩
    exact answers_pure ⟨_, rfl, by simp [bare, hbare, has], hs⟩

/-- An infix form: its left side is read, then one turn of the loop. -/
theorem spineBack_of_led {e e' : ExprTree} (t : Tok) (write : List Tok) (prec : ℕ)
    (htokens : e'.tokens text = e.tokens text ++ t :: write) (he : SpineBack text e)
    (hprec : ledPrec t.kind = some prec)
    (hown : isPostfix t.kind = false ∧ t.kind ≠ .lbrace)
    (hinner : ∀ floor, e'.fits floor = true →
      e.fits floor = true ∧ binds floor t.kind = true ∧ e.absorbs t.kind = false)
    (huncast : e'.uncast = true → e.uncast = true)
    (hturn : ∀ floor, e'.fits floor = true → e'.uncast = true → ∀ lhs rest pos,
      lhs.bare = e.bare → e'.absorbs (nextKind rest) = false → ∃ p : ℕ → Rule ExprTree,
        (∀ n, ledRule (exprAt n) n lhs t.kind prec = some (p n)) ∧
          Answers p ⟨write ++ rest, pos⟩ (Back e' rest)) :
    SpineBack text e' := by
  intro floor rest pos post hfits hcast habsorbs _ hloop
  obtain ⟨hfits', hbinds, habsorbs'⟩ := hinner floor hfits
  rw [htokens, List.append_assoc, List.cons_append]
  refine he floor _ pos post hfits' (huncast hcast) habsorbs' (fun _ => hown) ?_
  rintro lhs _ ⟨hbare, pos₁, rfl⟩
  obtain ⟨p, hp, hread⟩ := hturn floor hfits hcast lhs rest (pos₁ + 1) hbare habsorbs
  exact loopAnswers_led hprec hbinds hp hread hloop

theorem spineBack_repeat {count body : ExprTree} (hcount : HeadBack text count)
    (hbody : ReadBack text body) : SpineBack text (.repeat count body) := by
  intro floor rest pos post hfits huncast _ _ hloop
  simp only [fits, uncast, Bool.and_eq_true, Bool.not_eq_true'] at hfits huncast
  obtain ⟨⟨⟨hhead, hfits₀⟩, habsorbs⟩, hfits₁⟩ := hfits
  have htokens : (ExprTree.repeat count body).tokens text ++ rest =
      count.tokens text ++ ⟨.lbrace, text .lbrace⟩ ::
        (body.tokens text ++ ⟨.rbrace, text .rbrace⟩ :: rest) := by
    simp [tokens, words, layout, Word.tok]
  have hread := hcount (⟨.lbrace, text .lbrace⟩ :: (body.tokens text ++ ⟨.rbrace, text .rbrace⟩ :: rest))
    pos (Back count _) hhead hfits₀ huncast.1 habsorbs (fun _ => by simp)
    fun head _ hs => by
      obtain ⟨hbare, pos', rfl⟩ := hs
      exact loopAnswers_postfix_done rfl ⟨hbare, pos', rfl⟩
  rw [htokens]
  refine Answers.of_succ ?_
  simp only [exprAt_succ]
  refine hread.bind ?_
  rintro lhs _ ⟨hlhs, pos₁, rfl⟩
  have hrepeat : Answers (fun n => repeatTail (exprAt n) lhs)
      ⟨⟨.lbrace, text .lbrace⟩ :: (body.tokens text ++ ⟨.rbrace, text .rbrace⟩ :: rest), pos₁⟩
      (Back (.repeat count body) rest) := by
    refine (answers_accept _ _).bind ?_
    rintro _ _ ⟨rfl, pos₂, rfl⟩
    refine (hbody 0 _ _ hfits₁ huncast.2 (goesOn_of_closes rfl 0 body)).bind ?_
    rintro body' _ ⟨hbody', pos₃, rfl⟩
    refine (answers_expect _ _ _).bind ?_
    rintro _ s hs
    exact answers_pure ⟨by simp [bare, hlhs, hbody'], hs⟩
  exact hrepeat.bind fun lhs' s hs => (hloop lhs' s hs).answers

theorem spineBack_signExtend {width e : ExprTree} (hwidth : SpineBack text width)
    (he : HeadBack text e) : SpineBack text (.signExtend width e) := by
  refine spineBack_of_led text ⟨.hashSignExtend, text .hashSignExtend⟩
    (e.tokens text) PrecLevel.multiplicative (by simp [tokens, words, layout, Word.tok]) hwidth rfl
    (by simp [isPostfix]) (fun floor hfits => ?_) (fun h => ?_)
    fun floor hfits huncast lhs rest pos hbare habsorbs =>
      ⟨fun n => headRule n >>= fun e => pure (.signExtend lhs e), fun n => ?_, ?_⟩
  · simp only [fits, Bool.and_eq_true, Bool.not_eq_true'] at hfits
    exact ⟨hfits.1.1.1.2, hfits.1.1.1.1, hfits.1.1.2⟩
  · simp only [uncast, Bool.and_eq_true] at h
    exact h.1
  · exact congrArg some (Rule.bind_assoc _ _ _).symm
  · simp only [fits, uncast, Bool.and_eq_true] at hfits huncast
    simp only [absorbs, Bool.or_eq_false_iff] at habsorbs
    -- only an operand with its postfix forms is read here
    have hread := he rest pos (Back e rest) hfits.1.2 hfits.2 huncast.2 habsorbs.1
      (fun _ hk => by rw [hk] at habsorbs; exact absurd habsorbs.2 (by decide))
      fun head _ hs => by
        obtain ⟨hbare, pos', rfl⟩ := hs
        exact loopAnswers_postfix_done habsorbs.2 ⟨hbare, pos', rfl⟩
    refine hread.bind ?_
    rintro a s ⟨ha, hs⟩
    exact answers_pure ⟨by simp [bare, hbare, ha], hs⟩

theorem spineBack_zeroExtend {width e : ExprTree} (hwidth : SpineBack text width)
    (he : ReadBack text e) : SpineBack text (.zeroExtend width e) := by
  refine spineBack_of_led text ⟨.apostropheZeroExtend, text .apostropheZeroExtend⟩
    (⟨.lparen, text .lparen⟩ :: (e.tokens text ++ [⟨.rparen, text .rparen⟩])) PrecLevel.multiplicative
    (by simp [tokens, words, layout, Word.tok]) hwidth rfl (by simp [isPostfix])
    (fun floor hfits => ?_) (fun h => ?_)
    fun floor hfits huncast lhs rest pos hbare _ => ⟨_, fun n => rfl, ?_⟩
  · simp only [fits, Bool.and_eq_true, Bool.not_eq_true'] at hfits
    exact ⟨hfits.1.1.2, hfits.1.1.1, hfits.1.2⟩
  · simp only [uncast, Bool.and_eq_true] at h
    exact h.1
  · simp only [fits, uncast, Bool.and_eq_true] at hfits huncast
    rw [List.cons_append, List.append_assoc, List.singleton_append]
    refine (answers_expect _ _ _).bind ?_
    rintro _ _ ⟨pos₁, rfl⟩
    refine (he 0 _ _ hfits.2 huncast.2 (goesOn_of_closes rfl 0 e)).bind ?_
    rintro a _ ⟨ha, pos₂, rfl⟩
    refine (answers_expect _ _ _).bind ?_
    rintro _ s hs
    exact answers_pure ⟨by simp [bare, hbare, ha], hs⟩

theorem spineBack_postIncDec (op : IncDecOp) {e : ExprTree} (he : SpineBack text e) :
    SpineBack text (.postIncDec op e) := by
  refine spineBack_of_led text ⟨IncDecOp.kind op, text (IncDecOp.kind op)⟩ []
    110 (by simp [tokens, words, layout, Word.tok]) he (by cases op <;> rfl)
    (by cases op <;> simp [isPostfix, IncDecOp.kind]) (fun floor hfits => ?_) (fun h => h)
    fun floor _ _ lhs rest pos hbare _ =>
      ⟨fun _ => pure (.postIncDec op lhs), fun n => by cases op <;> rfl, ?_⟩
  · simp only [fits, Bool.and_eq_true, Bool.not_eq_true'] at hfits
    exact ⟨hfits.1.2, hfits.1.1, hfits.2⟩
  · exact answers_pure ⟨by simp [bare, hbare], pos, rfl⟩

theorem spineBack_ternary {c a b : ExprTree} (hc : SpineBack text c) (ha : ReadBack text a)
    (hb : ReadBack text b) : SpineBack text (.ternary c a b) := by
  refine spineBack_of_led text ⟨.question, text .question⟩
    (a.tokens text ++ ⟨.colon, text .colon⟩ :: b.tokens text) PrecLevel.conditional
    (by simp [tokens, words, layout, Word.tok]) hc rfl (by simp [isPostfix])
    (fun floor hfits => ?_) (fun h => ?_)
    fun floor hfits huncast lhs rest pos hbare habsorbs => ⟨_, fun n => rfl, ?_⟩
  · simp only [fits, Bool.and_eq_true, Bool.not_eq_true'] at hfits
    exact ⟨hfits.1.1.1.2, hfits.1.1.1.1, hfits.1.1.2⟩
  · simp only [uncast, Bool.and_eq_true] at h
    exact h.1.1
  · simp only [fits, uncast, Bool.and_eq_true] at hfits huncast
    rw [List.append_assoc, List.cons_append]
    refine (ha _ _ _ hfits.1.2 huncast.1.2 (goesOn_of_closes rfl _ a)).bind ?_
    rintro a' _ ⟨ha', pos₁, rfl⟩
    refine (answers_expect _ _ _).bind ?_
    rintro _ _ ⟨pos₂, rfl⟩
    refine (hb _ _ _ hfits.2 huncast.2 habsorbs).bind ?_
    rintro b' s ⟨hb', hs⟩
    exact answers_pure ⟨by simp [bare, hbare, ha', hb'], hs⟩

theorem spineBack_binary (op : BinaryOp) {l r : ExprTree} (hl : SpineBack text l)
    (hr : ReadBack text r) : SpineBack text (.binary op l r) := by
  refine spineBack_of_led text ⟨BinaryOp.kind op, text (BinaryOp.kind op)⟩
    (r.tokens text) (BinaryOp.prec op)
    (by simp [tokens, words, layout, Word.tok]) hl (by cases op <;> rfl)
    (by cases op <;> simp [isPostfix, BinaryOp.kind]) (fun floor hfits => ?_) (fun h => ?_)
    fun floor hfits huncast lhs rest pos hbare habsorbs =>
      ⟨fun n => do
        let rhs ← exprAt n (BinaryOp.prec op + 1)
        return .binary op lhs rhs, fun n => by cases op <;> rfl, ?_⟩
  · simp only [fits, Bool.and_eq_true, Bool.not_eq_true'] at hfits
    exact ⟨hfits.1.1.2, hfits.1.1.1, hfits.1.2⟩
  · simp only [uncast, Bool.and_eq_true] at h
    exact h.1
  · simp only [fits, uncast, Bool.and_eq_true] at hfits huncast
    -- the floor of the right side is one above the operator's level
    refine (hr _ _ _ hfits.2 huncast.2 habsorbs).bind ?_
    rintro r' s ⟨hr', hs⟩
    exact answers_pure ⟨by rw [bare_binary, bare_binary, hbare, hr'], hs⟩

/-! ## Every tree -/

theorem headBack_of_not_head {e : ExprTree} (h : e.isHead = false) : HeadBack text e := by
  intro rest pos post hhead
  rw [h] at hhead
  cases hhead

/-- By induction on the tree: what is read behind an infix or inside
brackets is smaller, and so is the left end. -/
theorem headBack_and_spineBack (e : ExprTree) : HeadBack text e ∧ SpineBack text e := by
  induction hn : sizeOf e using Nat.strong_induction_on generalizing e with
  | _ n ih =>
    subst hn
    have hback : ∀ u : ExprTree, sizeOf u < sizeOf e → ReadBack text u :=
      fun u hu => readBack_of_spineBack text (ih _ hu u rfl).2
    have hhead : e.isHead = true → HeadBack text e → HeadBack text e ∧ SpineBack text e :=
      fun h hread => ⟨hread, spineBack_of_headBack text h hread⟩
    cases e with
    | literal loc lit x => exact hhead rfl (headBack_literal text loc lit x)
    | name loc x path => exact hhead rfl (headBack_name text loc x path)
    | systemVar loc var => exact hhead rfl (headBack_systemVar text loc var)
    | paren e => exact hhead rfl (headBack_paren text (hback e (by simp)))
    | structCast loc t e first path =>
      exact hhead rfl (headBack_structCast text loc t first path (hback e (by simp; omega)))
    | concat loc dotted parts =>
      refine hhead rfl (headBack_concat text loc dotted fun u hu => hback u ?_)
      have := List.sizeOf_lt_of_mem hu
      simp only [ExprTree.concat.sizeOf_spec]
      omega
    | unary loc op e => exact hhead rfl (headBack_unary text loc op (hback e (by simp)))
    | preIncDec loc op e =>
      exact hhead rfl (headBack_preIncDec text loc op (hback e (by simp)))
    | ifElse loc c a b =>
      exact hhead rfl (headBack_ifElse text loc (hback c (by simp; omega))
        (hback a (by simp; omega)) (hback b (by simp)))
    | bit e hi =>
      exact hhead rfl (headBack_bit text (ih _ (by simp; omega) e rfl).1 (hback hi (by simp)))
    | slice e hi lo =>
      exact hhead rfl (headBack_slice text (ih _ (by simp; omega) e rfl).1
        (hback hi (by simp; omega)) (hback lo (by simp)))
    | field e x => exact hhead rfl (headBack_field text x (ih _ (by simp; omega) e rfl).1)
    | call e args =>
      refine hhead rfl (headBack_call text (ih _ (by simp; omega) e rfl).1 fun u hu => hback u ?_)
      have := List.sizeOf_lt_of_mem hu
      simp only [ExprTree.call.sizeOf_spec]
      omega
    | «repeat» count body =>
      exact ⟨headBack_of_not_head text rfl, spineBack_repeat text (ih _ (by simp; omega) count rfl).1
        (hback body (by simp))⟩
    | signExtend width e =>
      exact ⟨headBack_of_not_head text rfl, spineBack_signExtend text
        (ih _ (by simp; omega) width rfl).2 (ih _ (by simp) e rfl).1⟩
    | zeroExtend width e =>
      exact ⟨headBack_of_not_head text rfl, spineBack_zeroExtend text
        (ih _ (by simp; omega) width rfl).2 (hback e (by simp))⟩
    | postIncDec op e =>
      exact ⟨headBack_of_not_head text rfl, spineBack_postIncDec text op
        (ih _ (by simp) e rfl).2⟩
    | ternary c a b =>
      exact ⟨headBack_of_not_head text rfl, spineBack_ternary text
        (ih _ (by simp; omega) c rfl).2 (hback a (by simp; omega)) (hback b (by simp))⟩
    | binary op l r =>
      exact ⟨headBack_of_not_head text rfl, spineBack_binary text op
        (ih _ (by simp; omega) l rfl).2 (hback r (by simp))⟩

/-- **A tree that fits is read back from its tokens**, in front of every
sequence of tokens that it does not go on with, without a note and up to
locations. -/
theorem parseExpr_tokens {e : ExprTree} {rest : List Tok} (hfits : e.fits 0 = true)
    (huncast : e.uncast = true) (hnext : e.goesOn 0 (nextKind rest) = false) (pos : ℕ) :
    ∃ a pos', a.bare = e.bare ∧ ∀ fuel, (e.tokens text ++ rest).length < fuel →
      parseExpr fuel ⟨e.tokens text ++ rest, pos⟩ = .ok a ⟨rest, pos'⟩ [] := by
  have hread := readBack_of_spineBack text (headBack_and_spineBack text e).2
  obtain ⟨a, _, ⟨ha, pos', rfl⟩, least, heq⟩ := hread 0 rest pos hfits huncast hnext
  refine ⟨a, pos', ha, fun fuel hfuel => ?_⟩
  -- iterations that are enough for the tokens do as well as those that
  -- are enough for the tree
  have hspin := (ends_exprAt 0 hfuel).halts ⟨e.tokens text ++ rest, pos⟩ le_rfl
  have hmore := below_exprAt 0 (le_max_right least fuel) ⟨e.tokens text ++ rest, pos⟩ hspin
  exact hmore.symm.trans (heq _ (le_max_left least fuel))

/-- **No two trees that fit have the same tokens**, up to locations. -/
theorem bare_eq_of_tokens_eq {e u : ExprTree} {rest : List Tok} (he : e.fits 0 = true)
    (hu : u.fits 0 = true) (hecast : e.uncast = true) (hucast : u.uncast = true)
    (henext : e.goesOn 0 (nextKind rest) = false) (hunext : u.goesOn 0 (nextKind rest) = false)
    (htokens : e.tokens text = u.tokens text) : e.bare = u.bare := by
  have hread := fun t => readBack_of_spineBack text (headBack_and_spineBack text t).2
  obtain ⟨a, s, ⟨ha, -⟩, least, heq⟩ := hread e 0 rest 0 he hecast henext
  obtain ⟨b, s', ⟨hb, -⟩, least', heq'⟩ := hread u 0 rest 0 hu hucast hunext
  have hfirst := heq _ (le_max_left least least')
  have hsecond := heq' _ (le_max_right least least')
  rw [← htokens] at hsecond
  obtain ⟨rfl, -, -⟩ := Outcome.ok.inj (hfirst.symm.trans hsecond)
  exact ha.symm.trans hb

end Written

section Witnesses

/-- `-a + b * (c - d[0])`, in front of a `;`. -/
def mixed : ExprTree :=
  .binary .add (.unary 0 .neg (.name 1 ['a'] []))
    (.binary .mul (.name 3 ['b'] []) (.paren (.binary .sub (.name 6 ['c'] [])
      (.bit (.name 8 ['d'] []) (.literal 10 .decimal ['0'])))))

theorem parseExpr_tokens_mixed :
    ∃ a pos', a.bare = mixed.bare ∧ ∀ fuel, 14 < fuel →
      parseExpr fuel ⟨mixed.tokens (fun _ => []) ++ [⟨.semicolon, []⟩], 0⟩ =
        .ok a ⟨[⟨.semicolon, []⟩], pos'⟩ [] :=
  @parseExpr_tokens (fun _ => []) mixed [⟨.semicolon, []⟩] (by decide) (by decide) (by decide) 0

/-- The same tokens, read in another place. -/
theorem bare_eq_of_tokens_eq_mixed :
    mixed.bare = (ExprTree.binary .add (.unary 7 .neg (.name 8 ['a'] []))
      (.binary .mul (.name 9 ['b'] []) (.paren (.binary .sub (.name 10 ['c'] [])
        (.bit (.name 11 ['d'] []) (.literal 12 .decimal ['0'])))))).bare :=
  @bare_eq_of_tokens_eq (fun _ => []) _ _ [⟨.semicolon, []⟩] (by decide) (by decide) (by decide)
    (by decide) (by decide) (by decide) rfl

end Witnesses

end Parse

end Nslc
