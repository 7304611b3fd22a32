import Nslc.Common.Answers
import Nslc.Parse.Precedence
/-!
# Parse — the tokens of a tree

A tree is written as tokens, and is compared with another one up to its
locations. What its front looks like and what cannot follow it decide how
the rules on tokens and on lists answer on it.
-/

namespace Nslc

namespace Parse

open AST Nslc.Lex Descent

/-! ## Trees without locations -/

namespace ExprTree

mutual

def bare : ExprTree → ExprTree
  | .literal _ lit x => .literal 0 lit x
  | .name _ x path => .name 0 x path
  | .systemVar _ var => .systemVar 0 var
  | .paren e => .paren e.bare
  | .structCast _ t e first path => .structCast 0 t e.bare first path
  | .concat _ dotted parts => .concat 0 dotted (bareList parts)
  | .unary _ op e => .unary 0 op e.bare
  | .preIncDec _ op e => .preIncDec 0 op e.bare
  | .ifElse _ c a b => .ifElse 0 c.bare a.bare b.bare
  | .bit e hi => .bit e.bare hi.bare
  | .slice e hi lo => .slice e.bare hi.bare lo.bare
  | .field e x => .field e.bare x
  | .call e args => .call e.bare (bareList args)
  | .repeat count body => .repeat count.bare body.bare
  | .signExtend width e => .signExtend width.bare e.bare
  | .zeroExtend width e => .zeroExtend width.bare e.bare
  | .postIncDec op e => .postIncDec op e.bare
  | .ternary c a b => .ternary c.bare a.bare b.bare
  | .binary op l r => .binary op l.bare r.bare

def bareList : List ExprTree → List ExprTree
  | [] => []
  | e :: es => e.bare :: bareList es

end

theorem bareList_eq_of_forall₂ {es us : List ExprTree}
    (h : List.Forall₂ (fun e u => e.bare = u.bare) es us) : bareList es = bareList us := by
  induction h with
  | nil => rfl
  | cons h _ ih => rw [bareList, bareList, h, ih]

theorem bare_binary (op : BinaryOp) (l r : ExprTree) :
    (ExprTree.binary op l r).bare = .binary op l.bare r.bare := by
  simp only [bare]

/-- Behind a name in parentheses a `(` makes a struct cast of it. -/
def looksCast : ExprTree → Bool
  | .paren (.name _ _ _) => true
  | _ => false

mutual

/-- No name in parentheses is called. -/
def uncast : ExprTree → Bool
  | .literal _ _ _ | .name _ _ _ | .systemVar _ _ => true
  | .paren e | .structCast _ _ e _ _ | .unary _ _ e | .preIncDec _ _ e | .field e _
  | .postIncDec _ e => uncast e
  | .concat _ _ parts => allUncast parts
  | .ifElse _ c a b | .slice c a b | .ternary c a b => uncast c && uncast a && uncast b
  | .bit e u | .repeat e u | .signExtend e u | .zeroExtend e u | .binary _ e u =>
    uncast e && uncast u
  | .call e args => !e.looksCast && uncast e && allUncast args

def allUncast : List ExprTree → Bool
  | [] => true
  | e :: es => uncast e && allUncast es

end

theorem uncast_bit_iff {e u : ExprTree} :
    (ExprTree.bit e u).uncast = true ↔ e.uncast = true ∧ u.uncast = true := by
  simp only [uncast, Bool.and_eq_true]

theorem allUncast_iff {es : List ExprTree} : allUncast es = true ↔ ∀ e ∈ es, e.uncast = true := by
  induction es with
  | nil => simp [allUncast]
  | cons e es ih => simp [allUncast, ih]

end ExprTree

open ExprTree

/-! ## Tokens of a tree -/

def Lit.kind : Lit → TokenKind
  | .decimal => .decimalLit
  | .hex => .hexLit
  | .binary => .binaryLit
  | .octal => .octalLit
  | .string => .stringLit

section Written

-- what the fixed tokens are spelled like
variable (text : TokenKind → Text)

def Word.tok : Word → Tok
  | .name x => ⟨.identifier, x⟩
  | .literal lit x => ⟨Lit.kind lit, x⟩
  | .systemVar .time => ⟨.systemFunction, "_time".toList⟩
  | .systemVar .random => ⟨.systemFunction, "_random".toList⟩
  | .systemTask x => ⟨.systemTask, x⟩
  | .sym k => ⟨k, text k⟩

def ExprTree.tokens (e : ExprTree) : List Tok := e.words.map (Word.tok text)

def pathTokens (path : List Ident) : List Tok := (pathWords path).map (Word.tok text)

def listTokens (es : List ExprTree) : List Tok := (listLayout true es).map (Word.tok text)

theorem pathTokens_eq (path : List Ident) :
    pathTokens text path = path.flatMap fun m => ⟨.dot, text .dot⟩ :: [⟨.identifier, m⟩] := by
  simp [pathTokens, pathWords, List.map_flatMap, Word.tok]

theorem listTokens_cons (e : ExprTree) (es : List ExprTree) :
    listTokens text (e :: es) =
      e.tokens text ++ es.flatMap fun u => ⟨.comma, text .comma⟩ :: u.tokens text := by
  simp [listTokens, listLayout_eq, commaWords, tokens, List.map_flatMap, Word.tok]

end Written

/-- The kind of the next token. -/
def nextKind (ts : List Tok) : TokenKind := (ts.head?.map Tok.kind).getD .eof

@[simp] theorem nextKind_cons (t : Tok) (ts : List Tok) : nextKind (t :: ts) = t.kind := rfl

/-- Only so much is left. -/
def Left (rest : List Tok) (s : State) : Prop := ∃ pos, s = ⟨rest, pos⟩

/-! ## Closing tokens -/

/-- No expression goes on with it. -/
def closes : TokenKind → Bool
  | .rparen | .rbracket | .rbrace | .colon | .comma | .else_ => true
  | _ => false

theorem binds_of_closes {k : TokenKind} (h : closes k = true) (floor : ℕ) :
    binds floor k = false := by
  cases k <;> first | rfl | cases h

theorem isPostfix_of_closes {k : TokenKind} (h : closes k = true) :
    isPostfix k = false ∧ (k == .lbrace) = false ∧ (k == .dot) = false := by
  cases k <;> first | exact ⟨rfl, rfl, rfl⟩ | cases h

theorem takes_of_closes {k : TokenKind} (h : closes k = true) (floor : ℕ) (e : ExprTree) :
    e.takes floor k = false := by
  obtain ⟨hpost, hbrace, -⟩ := isPostfix_of_closes h
  simp [takes, binds_of_closes h, hpost, hbrace]

theorem absorbs_of_closes {k : TokenKind} (h : closes k = true) (e : ExprTree) :
    e.absorbs k = false := by
  obtain ⟨hpost, -, hdot⟩ := isPostfix_of_closes h
  induction e, k using absorbs.induct with
  | case1 => simpa [absorbs] using hdot
  | case2 _ _ _ _ ih | case3 _ _ _ _ ih | case4 _ _ _ _ _ ih | case6 _ _ _ _ ih | case7 _ _ _ _ ih =>
    simp [absorbs, ih h hpost hdot, takes_of_closes h]
  | case5 _ _ _ ih => simp [absorbs, ih h hpost hdot, hpost]
  | case8 => simp_all [absorbs]

theorem goesOn_of_closes {k : TokenKind} (h : closes k = true) (floor : ℕ) (e : ExprTree) :
    e.goesOn floor k = false := by
  simp [goesOn, absorbs_of_closes h, takes_of_closes h]

/-! ## The rules on tokens -/

section Rules

variable {α β : Type} {post : α → State → Prop} {t : Tok} {ts rest : List Tok} {pos : ℕ}

theorem answers_onNext {cases : ℕ → At → Option (Rule α)} {other p : ℕ → Rule α}
    (hcase : ∀ n, cases n ⟨t, pos⟩ = some (p n)) (hp : Answers p ⟨ts, pos + 1⟩ post) :
    Answers (fun n => onNext (cases n) (other n)) ⟨t :: ts, pos⟩ post := by
  obtain ⟨a, s', hpost, least, heq⟩ := hp
  refine ⟨a, s', hpost, least, fun n hn => ?_⟩
  simp only [onNext, hcase n]
  exact heq n hn

theorem answers_onNext_other {cases : ℕ → At → Option (Rule α)} {other : ℕ → Rule α}
    (hnone : ∀ n t us, ts = t :: us → cases n ⟨t, pos⟩ = none)
    (hp : Answers other ⟨ts, pos⟩ post) :
    Answers (fun n => onNext (cases n) (other n)) ⟨ts, pos⟩ post := by
  obtain ⟨a, s', hpost, least, heq⟩ := hp
  refine ⟨a, s', hpost, least, fun n hn => ?_⟩
  cases ts with
  | nil => exact heq n hn
  | cons t us =>
    simp only [onNext, hnone n t us rfl]
    exact heq n hn

theorem answers_accept (k : TokenKind) (x : Text) :
    Answers (fun _ => accept k) ⟨⟨k, x⟩ :: ts, pos⟩ fun b s => b = true ∧ Left ts s :=
  answers_onNext (fun _ => if_pos rfl) (answers_pure ⟨rfl, _, rfl⟩)

theorem answers_accept_other {k : TokenKind} (h : nextKind ts ≠ k) :
    Answers (fun _ => accept k) ⟨ts, pos⟩ fun b s => b = false ∧ Left ts s := by
  refine answers_onNext_other (fun _ t us hts => ?_) (answers_pure ⟨rfl, _, rfl⟩)
  rw [hts] at h
  exact if_neg h

theorem answers_expect (k : TokenKind) (x : Text) (what : String) :
    Answers (fun _ => expect k what) ⟨⟨k, x⟩ :: ts, pos⟩ fun _ s => Left ts s :=
  answers_onNext (fun _ => if_pos rfl) (answers_pure ⟨_, rfl⟩)

theorem answers_identifierLike (x : Ident) (otherwise : String) :
    Answers (fun _ => identifierLike otherwise) ⟨⟨.identifier, x⟩ :: ts, pos⟩ fun a s =>
      a.tok.spelling = x ∧ Left ts s :=
  answers_onNext (fun _ => rfl) (answers_pure ⟨rfl, _, rfl⟩)

theorem answers_acceptAll {tests : List (TokenKind → Bool)} {us : List Tok}
    (h : leading tests ts = some us) : Answers (fun _ => acceptAll tests) ⟨ts, pos⟩ fun o s =>
      o = some us ∧ Left (ts.drop us.length) s :=
  ⟨some us, _, ⟨rfl, pos + us.length, rfl⟩, 0, fun n _ => by simp only [acceptAll, h]; rfl⟩

theorem answers_acceptAll_other {tests : List (TokenKind → Bool)} (h : leading tests ts = none) :
    Answers (fun _ => acceptAll tests) ⟨ts, pos⟩ fun o s => o = none ∧ Left ts s :=
  ⟨none, _, ⟨rfl, pos, rfl⟩, 0, fun n _ => by simp only [acceptAll, h]⟩

/-- Items behind separators are read, if each is read in front of what
follows it. -/
theorem answers_moreOf {sep : Tok} {p : ℕ → Rule α} {write : β → List Tok} {like : α → β → Prop}
    {follows : TokenKind → Prop} {items : List β} (hsep : follows sep.kind)
    (hrest : follows (nextKind rest)) (hnext : nextKind rest ≠ sep.kind)
    (hp : ∀ b ∈ items, ∀ ts pos, follows (nextKind ts) →
      Answers p ⟨write b ++ ts, pos⟩ fun a s => like a b ∧ Left ts s) :
    Answers (fun n => moreOf sep.kind (p n) n)
      ⟨(items.flatMap fun b => sep :: write b) ++ rest, pos⟩
      fun as s => List.Forall₂ like as items ∧ Left rest s := by
  -- the items read so far are collected in front
  suffices hloop : ∀ (acc : List α) (pos : ℕ), LoopAnswers (fun n as => do
      if ← accept sep.kind then
        let a ← p n
        return .inl (as ++ [a])
      else return .inr as) acc ⟨(items.flatMap fun b => sep :: write b) ++ rest, pos⟩
      fun as s => (∃ more, as = acc ++ more ∧ List.Forall₂ like more items) ∧ Left rest s by
    refine (hloop [] pos).answers.mono ?_
    rintro _ s ⟨⟨more, rfl, hmore⟩, hs⟩
    exact ⟨hmore, hs⟩
  induction items with
  | nil =>
    intro acc pos
    refine loopAnswers_inr ((answers_accept_other hnext).bind ?_)
    rintro _ _ ⟨rfl, pos', rfl⟩
    exact answers_pure ⟨acc, rfl, ⟨[], by simp, .nil⟩, pos', rfl⟩
  | cons b bs ih =>
    intro acc pos
    have hfollows : follows (nextKind ((bs.flatMap fun b => sep :: write b) ++ rest)) := by
      cases bs with
      | nil => exact hrest
      | cons b' bs => exact hsep
    rw [List.flatMap_cons, List.append_assoc, List.cons_append]
    refine loopAnswers_inl ((answers_accept _ _).bind ?_)
    rintro _ _ ⟨rfl, pos', rfl⟩
    refine (hp b List.mem_cons_self _ pos' hfollows).bind ?_
    rintro a _ ⟨ha, pos'', rfl⟩
    refine answers_pure ⟨acc ++ [a], rfl, ?_⟩
    obtain ⟨as, s', ⟨⟨more, rfl, hmore⟩, hs'⟩, heq⟩ :=
      ih (fun b' hb' => hp b' (List.mem_cons_of_mem b hb')) (acc ++ [a]) pos''
    exact ⟨_, s', ⟨⟨a :: more, by simp, .cons ha hmore⟩, hs'⟩, heq⟩

end Rules

/-! ## The front of a tree -/

/-- In front of a tree no token closes anything, and behind a name in
front there is no `)`, if anything. -/
def Front (e : ExprTree) (ws : List Word) : Prop :=
  ∃ w us, ws = w :: us ∧ (∀ k, w = .sym k → closes k = false ∧ k ≠ .identifier) ∧
    ∀ x, w = .name x →
      (us = [] ∧ ∃ loc, e = .name loc x []) ∨ ∃ u vs, us = u :: vs ∧ u ≠ .sym .rparen

theorem front_sym {e : ExprTree} {k : TokenKind} (h : closes k = false ∧ k ≠ .identifier)
    (us : List Word) :
    Front e (.sym k :: us) :=
  ⟨_, us, rfl, fun _ hk => Word.sym.inj hk ▸ h, fun _ hx => by cases hx⟩

theorem Front.append {e e' : ExprTree} {ws : List Word} (h : Front e ws) {w : Word}
    (hw : w ≠ .sym .rparen) (us : List Word) : Front e' (ws ++ w :: us) := by
  obtain ⟨w₀, us₀, rfl, hk, hx⟩ := h
  refine ⟨w₀, us₀ ++ w :: us, rfl, hk, fun x hw₀ => .inr ?_⟩
  rcases hx x hw₀ with ⟨rfl, -⟩ | ⟨u, vs, rfl, hu⟩
  · exact ⟨w, us, rfl, hw⟩
  · exact ⟨u, _, rfl, hu⟩

theorem front : ∀ e : ExprTree, Front e e.words
  | .literal _ _ _ => ⟨_, _, rfl, by simp, by simp⟩
  | .systemVar _ _ => ⟨_, _, rfl, by simp, by simp⟩
  | .name loc x path => by
    refine ⟨_, _, rfl, by simp, fun y hy => ?_⟩
    obtain rfl := Word.name.inj hy
    cases path with
    | nil => exact .inl ⟨rfl, loc, rfl⟩
    | cons m path => exact .inr ⟨_, _, rfl, by simp⟩
  | .paren _ => front_sym (by decide) _
  | .structCast _ _ _ _ _ => front_sym (by decide) _
  | .concat _ dotted _ => by cases dotted <;> exact front_sym (by decide) _
  | .unary _ op _ => by cases op <;> exact front_sym (by decide) _
  | .preIncDec _ op _ => by cases op <;> exact front_sym (by decide) _
  | .ifElse _ _ _ _ => front_sym (by decide) _
  | .bit e _ => (front e).append (by decide) _
  | .slice e _ _ => (front e).append (by decide) _
  | .field e _ => (front e).append (by decide) _
  | .call e _ => (front e).append (by decide) _
  | .repeat count _ => (front count).append (by decide) _
  | .signExtend width _ => (front width).append (by decide) _
  | .zeroExtend width _ => (front width).append (by decide) _
  | .postIncDec op e => (front e).append (by cases op <;> decide) _
  | .ternary c _ _ => (front c).append (by decide) _
  | .binary op l _ => (front l).append (by cases op <;> decide) _

section Written

variable (text : TokenKind → Text) {post : ExprTree → State → Prop}

theorem closes_tok {w : Word} (h : ∀ k, w = .sym k → closes k = false ∧ k ≠ .identifier) :
    closes (w.tok text).kind = false := by
  cases w with
  | sym k => exact (h k rfl).1
  | literal lit _ => cases lit <;> rfl
  | systemVar var => cases var <;> rfl
  | _ => rfl

theorem exists_tokens (e : ExprTree) :
    ∃ t ts, e.tokens text = t :: ts ∧ closes t.kind = false := by
  obtain ⟨w, us, heq, hk, -⟩ := front e
  exact ⟨w.tok text, us.map (Word.tok text), by rw [tokens, heq, List.map_cons], closes_tok text hk⟩

theorem eq_name_of_kind {w : Word} (hk : ∀ k, w = .sym k → closes k = false ∧ k ≠ .identifier)
    (h : (w.tok text).kind = .identifier) : ∃ x, w = .name x := by
  cases w with
  | name x => exact ⟨x, rfl⟩
  | sym k => exact absurd h (hk k rfl).2
  | literal lit _ => cases lit <;> cases h
  | systemVar var => cases var <;> cases h
  | _ => cases h

theorem eq_sym_of_kind {w : Word} (h : (w.tok text).kind = .rparen) : w = .sym .rparen := by
  cases w with
  | sym k => exact congrArg Word.sym h
  | literal lit _ => cases lit <;> cases h
  | systemVar var => cases var <;> cases h
  | _ => cases h

/-- Behind `(` and a tree nothing looks like a struct cast but a name. -/
theorem leading_eq_none {e : ExprTree} {c : Tok} {rest : List Tok}
    (h : (ExprTree.paren e).looksCast = true → nextKind rest ≠ .lparen) :
    leading [(· == .identifier), (· == .rparen), (· == .lparen)] (e.tokens text ++ c :: rest) =
      none := by
  obtain ⟨w, us, heq, hk, hname⟩ := front e
  rw [tokens, heq, List.map_cons, List.cons_append]
  by_cases hw : (w.tok text).kind = .identifier
  · obtain ⟨x, rfl⟩ := eq_name_of_kind text hk hw
    rcases hname x rfl with ⟨rfl, loc, rfl⟩ | ⟨u, vs, rfl, hu⟩
    · have hnext : nextKind rest ≠ .lparen := h rfl
      cases rest with
      | nil => simp [leading]
      | cons t ts =>
        have ht : t.kind ≠ .lparen := hnext
        simp [leading, ht]
    · -- the second token is no `)`, whatever stands behind the tree
      have hu' : (u.tok text).kind ≠ .rparen := fun hk => hu (eq_sym_of_kind text hk)
      simp [leading, hu']
  · simp [leading, hw]

theorem answers_listUpTo {c : Tok} (hc : closes c.kind = true ∧ c.kind ≠ .comma) {rest : List Tok}
    {pos : ℕ} {p : ℕ → Rule ExprTree} {es : List ExprTree}
    (hp : ∀ e ∈ es, ∀ ts pos, closes (nextKind ts) = true →
      Answers p ⟨e.tokens text ++ ts, pos⟩ fun a s => a.bare = e.bare ∧ Left ts s)
    (what : String) :
    Answers (fun n => listUpTo c.kind (p n) (p n) what n) ⟨listTokens text es ++ c :: rest, pos⟩
      fun as s => bareList as = bareList es ∧ Left rest s := by
  cases es with
  | nil =>
    refine (answers_accept _ _).bind ?_
    rintro _ _ ⟨rfl, pos', rfl⟩
    exact answers_pure ⟨rfl, pos', rfl⟩
  | cons e es =>
    obtain ⟨t, ts, ht, hclose⟩ := exists_tokens text e
    have hother : t.kind ≠ c.kind := fun h => by simp [h, hc.1] at hclose
    have hnext : nextKind (listTokens text (e :: es) ++ c :: rest) ≠ c.kind := by
      rw [listTokens_cons, ht]
      exact hother
    refine (answers_accept_other hnext).bind ?_
    rintro _ _ ⟨rfl, pos', rfl⟩
    rw [listTokens_cons, List.append_assoc]
    have hfollows : closes (nextKind ((es.flatMap fun u => ⟨.comma, text .comma⟩ :: u.tokens text) ++
        c :: rest)) = true := by
      cases es with
      | nil => exact hc.1
      | cons u us => rfl
    refine (hp e List.mem_cons_self _ pos' hfollows).bind ?_
    rintro a _ ⟨ha, pos₁, rfl⟩
    have hmore := @answers_moreOf ExprTree ExprTree (c :: rest) pos₁ ⟨.comma, text .comma⟩ p
      (tokens text) (fun a u => a.bare = u.bare) (fun k => closes k = true) es rfl hc.1 hc.2
      fun u hu => hp u (List.mem_cons_of_mem e hu)
    refine hmore.bind ?_
    rintro as _ ⟨has, pos₂, rfl⟩
    refine (answers_expect _ _ what).bind ?_
    rintro _ _ ⟨pos₃, rfl⟩
    refine answers_pure ⟨?_, pos₃, rfl⟩
    rw [bareList, bareList, ha, bareList_eq_of_forall₂ has]

end Written

end Parse

end Nslc
