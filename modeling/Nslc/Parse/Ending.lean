import Nslc.Common.Ending
import Nslc.Parse.Expr
/-!
# Parse — the parser of expressions ends

Every recursion of `parseExprAtPrecedence` and every turn of its loops
comes behind a token that was consumed, so a number of iterations above
the number of tokens is enough, whatever the tokens are.
-/

namespace Nslc

namespace Parse

open AST Nslc.Lex Descent

/-- The number of tokens left. -/
def State.left (s : State) : ℕ := s.rest.length

variable {α : Type} {n : ℕ} {taken : α → ℕ}

theorem left_drop_one {s : State} {t : Tok} {ts : List Tok} (h : s.rest = t :: ts) :
    (s.drop 1).left + 1 = s.left := by
  simp [State.left, State.drop, h]

theorem onNext_eq (cases : At → Option (Rule α)) (otherwise : Rule α) (s : State) :
    onNext cases otherwise s = otherwise s ∨ ∃ t ts p, s.rest = t :: ts ∧
      cases ⟨t, s.pos⟩ = some p ∧ onNext cases otherwise s = p (s.drop 1) := by
  unfold onNext
  split
  · exact .inl rfl
  · rename_i t ts hrest
    split
    · rename_i p hp
      exact .inr ⟨t, ts, p, hrest, hp, rfl⟩
    · exact .inl rfl

/-! ## The rules on tokens -/

theorem ends_onNext {cases : At → Option (Rule α)} {otherwise : Rule α}
    (hcases : ∀ t p, cases t = some p → 1 ≤ n →
      Ends State.left (n - 1) p fun a => taken a - 1)
    (hother : Ends State.left n otherwise taken) :
    Ends State.left n (onNext cases otherwise) taken := by
  constructor
  · intro s hs
    rcases onNext_eq cases otherwise s with h | ⟨t, ts, p, hrest, hp, h⟩
    · rw [h]
      exact hother.halts s hs
    · have hdrop := left_drop_one hrest
      rw [h]
      exact (hcases _ p hp (by omega)).halts _ (by omega)
  · intro s a s' notes hs heq
    rcases onNext_eq cases otherwise s with h | ⟨t, ts, p, hrest, hp, h⟩
    · exact hother.ok s a s' notes hs (h ▸ heq)
    · have hdrop := left_drop_one hrest
      have htaken := (hcases _ p hp (by omega)).ok _ a s' notes (by omega) (h ▸ heq)
      omega

theorem ends_reject (text : String) : Ends State.left n (reject text : Rule α) taken :=
  ⟨fun _ _ hspin => (by cases hspin), fun _ _ _ _ _ heq => by cases heq⟩

theorem ends_accept (k : TokenKind) :
    Ends State.left n (accept k) fun b => if b then 1 else 0 := by
  refine ends_onNext (fun t p hp _ => ?_) (ends_pure rfl)
  split_ifs at hp
  obtain rfl := Option.some.inj hp
  exact ends_pure rfl

theorem ends_expect (k : TokenKind) (what : String) :
    Ends State.left n (expect k what) fun _ => 1 := by
  refine ends_onNext (fun t p hp _ => ?_) (ends_reject _)
  split_ifs at hp
  obtain rfl := Option.some.inj hp
  exact ends_pure rfl

theorem ends_nameCase {t : At} {p : Rule At} (hp : nameCase t = some p) :
    Ends State.left n p fun _ => 0 := by
  unfold nameCase at hp
  split at hp
  · obtain rfl := Option.some.inj hp
    exact ends_pure rfl
  · obtain rfl := Option.some.inj hp
    exact (ends_note _).bind fun _ _ => ends_pure rfl
  · cases hp

theorem ends_identifierLike (text : String) :
    Ends State.left n (identifierLike text) fun _ => 1 :=
  ends_onNext (fun _ _ hp _ => ends_nameCase hp) (ends_reject _)

theorem ends_acceptAll (tests : List (TokenKind → Bool)) :
    Ends State.left n (acceptAll tests) fun _ => 0 := by
  constructor
  · intro s _ hspin
    unfold acceptAll at hspin
    split at hspin <;> cases hspin
  · intro s a s' notes _ heq
    unfold acceptAll at heq
    split at heq
    all_goals
      obtain ⟨-, rfl, -⟩ := Outcome.ok.inj heq
      simp [State.left, State.drop]

theorem ends_moreOf {sep : TokenKind} {p : Rule α} {fuel : ℕ}
    (hp : Ends State.left (n - 1) p fun _ => 0) (h : n < fuel) :
    Ends State.left n (moreOf sep p fuel) fun _ => 0 := by
  refine ends_loop (fun as => ?_) h []
  refine (ends_accept sep).bind fun b _ => ?_
  cases b with
  | true =>
    refine hp.bind fun a _ => ends_pure ?_
    rfl
  | false => exact ends_pure rfl

theorem ends_listUpTo {close : TokenKind} {one next : Rule α} {what : String} {fuel : ℕ}
    (hone : Ends State.left n one fun _ => 0) (hnext : Ends State.left n next fun _ => 0)
    (h : n < fuel) : Ends State.left n (listUpTo close one next what fuel) fun _ => 0 := by
  refine (ends_accept close).bind fun b _ => ?_
  cases b with
  | true => exact ends_pure rfl
  | false =>
    refine hone.bind fun first _ => ?_
    refine (ends_moreOf (hnext.mono (Nat.sub_le n 1) fun _ => le_rfl) h).bind fun rest _ => ?_
    refine (ends_expect close what).bind fun _ _ => ends_pure ?_
    rfl

/-! ## The rules of expressions -/

section Rules

-- `self` ends on fewer than `fuel` tokens
variable {self : ℕ → Rule ExprTree} {fuel : ℕ}
  (hself : ∀ floor, ∀ n < fuel, Ends State.left n (self floor) fun _ => 0) (h : n < fuel)

include hself h

theorem ends_parenOrCast (idx : ℕ) :
    Ends State.left n (parenOrCast self fuel idx) fun _ => 0 := by
  refine (ends_acceptAll _).bind fun o _ => ?_
  split
  · refine (hself 0 n h).bind fun e _ => ?_
    refine (ends_expect _ _).bind fun _ _ => ?_
    refine (ends_expect _ _).bind fun _ _ => ?_
    refine (ends_identifierLike _).bind fun first _ => ?_
    have hmember := (@ends_identifierLike (n - 0 - 1 - 1 - 1 - 1)
      "expected member name after '.'").mono le_rfl fun _ => Nat.zero_le 1
    exact (ends_moreOf hmember (by omega)).bind fun path _ => ends_pure rfl
  · refine (hself 0 n h).bind fun e _ => ?_
    exact (ends_expect _ _).bind fun _ _ => ends_pure rfl

theorem ends_ifExpr (idx : ℕ) : Ends State.left n (ifExpr self idx) fun _ => 0 := by
  refine (ends_expect _ _).bind fun _ _ => ?_
  refine (hself 0 _ (by omega)).bind fun c _ => ?_
  refine (ends_expect _ _).bind fun _ _ => ?_
  refine (hself _ _ (by omega)).bind fun a _ => ?_
  refine (ends_accept _).bind fun b _ => ?_
  cases b with
  | true => exact (hself _ _ (by omega)).bind fun b _ => ends_pure rfl
  | false => exact (ends_note _).bind fun _ _ => ends_pure rfl

theorem ends_nudCase {t : At} {p : Rule ExprTree} (hp : nudCase self fuel t = some p) :
    Ends State.left n p fun _ => 0 := by
  have hname : ∀ q, ((nameCase t).map fun p => do
      let t ← p
      return ExprTree.name t.idx t.tok.spelling []) = some q →
      Ends State.left n q fun _ => 0 := by
    intro q hq
    obtain ⟨r, hr, rfl⟩ := Option.map_eq_some_iff.1 hq
    exact (ends_nameCase hr).bind fun _ _ => ends_pure rfl
  unfold nudCase at hp
  split at hp
  · exact hname p hp
  · exact hname p hp
  · obtain rfl := Option.some.inj hp
    exact ends_pure rfl
  · obtain rfl := Option.some.inj hp
    exact ends_parenOrCast hself h t.idx
  · obtain rfl := Option.some.inj hp
    exact (ends_listUpTo (hself 0 n h) (hself 0 n h) h).bind fun _ _ => ends_pure rfl
  · obtain rfl := Option.some.inj hp
    exact (ends_listUpTo (hself 0 n h) (hself 0 n h) h).bind fun _ _ => ends_pure rfl
  · obtain rfl := Option.some.inj hp
    exact ends_ifExpr hself h t.idx
  · split at hp
    · obtain rfl := Option.some.inj hp
      exact ends_pure rfl
    · obtain rfl := Option.some.inj hp
      exact (hself _ n h).bind fun _ _ => ends_pure rfl
    · obtain rfl := Option.some.inj hp
      exact (hself _ n h).bind fun _ _ => ends_pure rfl
    · cases hp

omit h in
/-- Reading an operand takes a token, so here one token more than
`self` is given may be left. -/
theorem ends_parseNudExpr (h : n ≤ fuel) :
    Ends State.left n (parseNudExpr self fuel) fun _ => 1 := by
  refine ends_onNext (fun t p hp hone => ?_) (ends_reject _)
  exact (ends_nudCase hself (by omega) hp).mono le_rfl fun _ => le_rfl

theorem ends_postfixCase {head : ExprTree} {t : At} {p : Rule (ExprTree ⊕ ExprTree)}
    (hp : postfixCase self fuel head t = some p) : Ends State.left n p fun _ => 0 := by
  unfold postfixCase at hp
  split at hp
  · obtain rfl := Option.some.inj hp
    refine (hself 0 n h).bind fun hi _ => ?_
    refine (ends_accept _).bind fun b _ => ?_
    cases b with
    | true =>
      refine (hself 0 _ (by omega)).bind fun lo _ => ?_
      exact (ends_expect _ _).bind fun _ _ => ends_pure rfl
    | false => exact (ends_expect _ _).bind fun _ _ => ends_pure rfl
  · obtain rfl := Option.some.inj hp
    exact (ends_identifierLike _).bind fun _ _ => ends_pure rfl
  · obtain rfl := Option.some.inj hp
    exact (ends_listUpTo (hself 0 n h) (hself 0 n h) h).bind fun _ _ => ends_pure rfl
  · cases hp

theorem ends_parsePostfix (head : ExprTree) :
    Ends State.left n (parsePostfix self fuel head) fun _ => 0 := by
  refine ends_loop (fun head => ends_onNext (fun t p hp hone => ?_) (ends_pure rfl)) h head
  exact (ends_postfixCase hself (by omega) hp).mono le_rfl fun r => by cases r <;> simp

theorem ends_repeatTail (lhs : ExprTree) :
    Ends State.left n (repeatTail self lhs) fun _ => 0 := by
  refine (ends_accept _).bind fun b _ => ?_
  cases b with
  | true =>
    refine (hself 0 _ (by omega)).bind fun body _ => ?_
    exact (ends_expect _ _).bind fun _ _ => ends_pure rfl
  | false => exact ends_pure rfl

theorem ends_ledRule {lhs : ExprTree} {k : TokenKind} {prec : ℕ} {p : Rule ExprTree}
    (hp : ledRule self fuel lhs k prec = some p) : Ends State.left n p fun _ => 0 := by
  unfold ledRule at hp
  split at hp
  · obtain rfl := Option.some.inj hp
    refine (ends_parseNudExpr hself h.le).bind fun e _ => ?_
    exact (ends_parsePostfix hself (by omega) e).bind fun _ _ => ends_pure rfl
  · obtain rfl := Option.some.inj hp
    refine (ends_expect _ _).bind fun _ _ => ?_
    refine (hself 0 _ (by omega)).bind fun e _ => ?_
    exact (ends_expect _ _).bind fun _ _ => ends_pure rfl
  · obtain rfl := Option.some.inj hp
    exact ends_pure rfl
  · obtain rfl := Option.some.inj hp
    exact ends_pure rfl
  · obtain rfl := Option.some.inj hp
    refine (hself _ n h).bind fun a _ => ?_
    refine (ends_expect _ _).bind fun _ _ => ?_
    exact (hself _ _ (by omega)).bind fun b _ => ends_pure rfl
  · obtain ⟨op, -, rfl⟩ := Option.map_eq_some_iff.1 hp
    exact (hself _ n h).bind fun _ _ => ends_pure rfl

theorem ends_ledCase {floor : ℕ} {lhs : ExprTree} {t : At} {p : Rule (ExprTree ⊕ ExprTree)}
    (hp : ledCase self fuel floor lhs t = some p) : Ends State.left n p fun _ => 0 := by
  unfold ledCase at hp
  split at hp
  · cases hp
  · split_ifs at hp
    obtain ⟨q, hq, rfl⟩ := Option.map_eq_some_iff.1 hp
    exact (ends_ledRule hself h hq).bind fun _ _ => ends_pure rfl

end Rules

/-- With more iterations than there are tokens an expression takes at
least a token or is refused. -/
theorem ends_exprAt {fuel : ℕ} (floor : ℕ) (h : n < fuel) :
    Ends State.left n (exprAt fuel floor) fun _ => 1 := by
  induction fuel generalizing floor n with
  | zero => exact absurd h (Nat.not_lt_zero n)
  | succ fuel ih =>
    have hself : ∀ floor, ∀ m < fuel, Ends State.left m (exprAt fuel floor) fun _ => 0 :=
      fun floor m hm => (ih floor hm).mono le_rfl fun _ => Nat.zero_le 1
    refine (ends_parseNudExpr hself (by omega)).bind fun head hone => ?_
    refine (ends_parsePostfix hself (by omega) head).bind fun head' _ => ?_
    refine (ends_repeatTail hself (by omega) head').bind fun lhs _ => ?_
    refine ends_loop (fun lhs => ends_onNext (fun t p hp hone => ?_) (ends_pure rfl)) (by omega)
      lhs
    exact (ends_ledCase hself (by omega) hp).mono le_rfl fun r => by cases r <;> simp

/-! ## The number of iterations does not matter -/

theorem below_onNext {cases cases' : At → Option (Rule α)} {other other' : Rule α}
    (hcases : ∀ t, Option.Rel Rule.Below (cases t) (cases' t)) (hother : other.Below other') :
    (onNext cases other).Below (onNext cases' other') := by
  rintro ⟨rest, pos⟩ hspin
  cases rest with
  | nil => exact hother _ hspin
  | cons t ts =>
    have hrel := hcases ⟨t, pos⟩
    simp only [onNext] at hspin ⊢
    generalize cases ⟨t, pos⟩ = o at hrel hspin
    generalize cases' ⟨t, pos⟩ = o' at hrel
    cases hrel with
    | some hp => exact hp _ hspin
    | none => exact hother _ hspin

theorem below_moreOf {sep : TokenKind} {p q : Rule α} {fuel fuel' : ℕ} (hp : p.Below q)
    (h : fuel ≤ fuel') : (moreOf sep p fuel).Below (moreOf sep q fuel') := by
  refine below_loop (fun as => (Rule.Below.refl _).bind fun b => ?_) h []
  cases b with
  | true => exact hp.bind fun a => Rule.Below.refl _
  | false => exact Rule.Below.refl _

theorem below_listUpTo {close : TokenKind} {p q : Rule α} {what : String} {fuel fuel' : ℕ}
    (hp : p.Below q) (h : fuel ≤ fuel') :
    (listUpTo close p p what fuel).Below (listUpTo close q q what fuel') := by
  refine (Rule.Below.refl _).bind fun b => ?_
  cases b with
  | true => exact Rule.Below.refl _
  | false =>
    exact hp.bind fun first => (below_moreOf hp h).bind fun rest => Rule.Below.refl _

section Below

variable {self self' : ℕ → Rule ExprTree} {fuel fuel' : ℕ}
  (hself : ∀ floor, (self floor).Below (self' floor)) (h : fuel ≤ fuel')

include hself

theorem below_ifExpr (idx : ℕ) : (ifExpr self idx).Below (ifExpr self' idx) := by
  refine (Rule.Below.refl _).bind fun _ => (hself 0).bind fun c => ?_
  refine (Rule.Below.refl _).bind fun _ => (hself _).bind fun a => ?_
  refine (Rule.Below.refl _).bind fun b => ?_
  cases b with
  | true => exact (hself _).bind fun _ => Rule.Below.refl _
  | false => exact Rule.Below.refl _

theorem below_repeatTail (lhs : ExprTree) :
    (repeatTail self lhs).Below (repeatTail self' lhs) := by
  refine (Rule.Below.refl _).bind fun b => ?_
  cases b with
  | true => exact (hself 0).bind fun _ => Rule.Below.refl _
  | false => exact Rule.Below.refl _

include h

theorem below_parenOrCast (idx : ℕ) :
    (parenOrCast self fuel idx).Below (parenOrCast self' fuel' idx) := by
  refine (Rule.Below.refl _).bind fun o => ?_
  rcases o with _ | _ | ⟨t, ts⟩
  · exact (hself 0).bind fun _ => Rule.Below.refl _
  · exact (hself 0).bind fun _ => Rule.Below.refl _
  · refine (hself 0).bind fun e => (Rule.Below.refl _).bind fun _ => ?_
    refine (Rule.Below.refl _).bind fun _ => (Rule.Below.refl _).bind fun first => ?_
    exact (below_moreOf (Rule.Below.refl _) h).bind fun _ => Rule.Below.refl _

theorem below_nudCase (t : At) :
    Option.Rel Rule.Below (nudCase self fuel t) (nudCase self' fuel' t) := by
  have hrefl : ∀ o : Option (Rule ExprTree), Option.Rel Rule.Below o o := fun o => by
    cases o with
    | none => exact .none
    | some p => exact .some (Rule.Below.refl p)
  unfold nudCase
  generalize t.tok.kind = k
  split
  · exact hrefl _
  · exact hrefl _
  · exact hrefl _
  · exact .some (below_parenOrCast hself h t.idx)
  · exact .some ((below_listUpTo (hself 0) h).bind fun _ => Rule.Below.refl _)
  · exact .some ((below_listUpTo (hself 0) h).bind fun _ => Rule.Below.refl _)
  · exact .some (below_ifExpr hself t.idx)
  · split
    · exact hrefl _
    · exact .some ((hself _).bind fun _ => Rule.Below.refl _)
    · exact .some ((hself _).bind fun _ => Rule.Below.refl _)
    · exact hrefl _

theorem below_parseNudExpr : (parseNudExpr self fuel).Below (parseNudExpr self' fuel') :=
  below_onNext (below_nudCase hself h) (Rule.Below.refl _)

theorem below_postfixCase (head : ExprTree) (t : At) :
    Option.Rel Rule.Below (postfixCase self fuel head t) (postfixCase self' fuel' head t) := by
  unfold postfixCase
  generalize t.tok.kind = k
  split
  · refine .some ((hself 0).bind fun hi => (Rule.Below.refl _).bind fun b => ?_)
    cases b with
    | true => exact (hself 0).bind fun _ => Rule.Below.refl _
    | false => exact Rule.Below.refl _
  · exact .some (Rule.Below.refl _)
  · exact .some ((below_listUpTo (hself 0) h).bind fun _ => Rule.Below.refl _)
  · exact .none

theorem below_parsePostfix (head : ExprTree) :
    (parsePostfix self fuel head).Below (parsePostfix self' fuel' head) :=
  below_loop (fun head => below_onNext (below_postfixCase hself h head) (Rule.Below.refl _)) h
    head

theorem below_ledCase (floor : ℕ) (lhs : ExprTree) (t : At) :
    Option.Rel Rule.Below (ledCase self fuel floor lhs t) (ledCase self' fuel' floor lhs t) := by
  have hrule : ∀ prec, Option.Rel Rule.Below (ledRule self fuel lhs t.tok.kind prec)
      (ledRule self' fuel' lhs t.tok.kind prec) := by
    intro prec
    unfold ledRule
    generalize t.tok.kind = k
    split
    · refine .some ((below_parseNudExpr hself h).bind fun e => ?_)
      exact (below_parsePostfix hself h e).bind fun _ => Rule.Below.refl _
    · refine .some ((Rule.Below.refl _).bind fun _ => ?_)
      exact (hself 0).bind fun _ => Rule.Below.refl _
    · exact .some (Rule.Below.refl _)
    · exact .some (Rule.Below.refl _)
    · refine .some ((hself _).bind fun a => (Rule.Below.refl _).bind fun _ => ?_)
      exact (hself _).bind fun _ => Rule.Below.refl _
    · cases binaryOf k with
      | none => exact .none
      | some op => exact .some ((hself _).bind fun _ => Rule.Below.refl _)
  unfold ledCase
  cases ledPrec t.tok.kind with
  | none => exact .none
  | some prec =>
    simp only
    split_ifs
    · exact .none
    · have hled := hrule prec
      generalize ledRule self fuel lhs t.tok.kind prec = o at hled ⊢
      generalize ledRule self' fuel' lhs t.tok.kind prec = o' at hled ⊢
      cases hled with
      | none => exact .none
      | some hp => exact .some (hp.bind fun _ => Rule.Below.refl _)

end Below

theorem below_exprAt {fuel fuel' : ℕ} (floor : ℕ) (h : fuel ≤ fuel') :
    (exprAt fuel floor).Below (exprAt fuel' floor) := by
  induction fuel generalizing floor fuel' with
  | zero => exact below_of_spinning _
  | succ fuel ih =>
    obtain ⟨fuel', rfl⟩ : ∃ k, fuel' = k + 1 := ⟨fuel' - 1, by omega⟩
    have hle : fuel ≤ fuel' := by omega
    have hself : ∀ floor, (exprAt fuel floor).Below (exprAt fuel' floor) := fun floor => ih floor hle
    refine (below_parseNudExpr hself hle).bind fun head => ?_
    refine (below_parsePostfix hself hle head).bind fun head' => ?_
    refine (below_repeatTail hself head').bind fun lhs => ?_
    exact below_loop (fun lhs => below_onNext (below_ledCase hself hle floor lhs)
      (Rule.Below.refl _)) hle lhs

/-- **Reading an expression ends**: on every sequence of tokens, well
formed or not, there is one outcome for all numbers of iterations above
the number of tokens, and a tree takes at least one token. -/
theorem parseExpr_ends (ts : List Tok) (pos : ℕ) :
    ∃ o, o ≠ .spin ∧ (∀ fuel, ts.length < fuel → parseExpr fuel ⟨ts, pos⟩ = o) ∧
      ∀ t s notes, o = .ok t s notes → s.rest.length < ts.length := by
  have hends := ends_exprAt 0 (Nat.lt_succ_self ts.length)
  have hspin := hends.halts ⟨ts, pos⟩ le_rfl
  refine ⟨parseExpr (ts.length + 1) ⟨ts, pos⟩, hspin, fun fuel h => ?_, fun t s notes heq => ?_⟩
  · exact below_exprAt 0 h ⟨ts, pos⟩ hspin
  · exact hends.ok ⟨ts, pos⟩ t s notes le_rfl heq

end Parse

end Nslc
