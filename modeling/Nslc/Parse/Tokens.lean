import Nslc.AST.Syntax
import Nslc.Common.Descent
import Nslc.Lex.Token
/-!
# Parse — tokens and the rules on them

The parser looks at the kinds of tokens and takes over the spellings of
names, literals and the names of system tasks. What it can tell tokens
apart by is a `Word`. A location is the number of a token. Line markers
are no words: the parser drops them between the items of a block, and
takes them nowhere else.
-/

namespace Nslc

namespace Parse

open AST Nslc.Lex Descent

structure Tok where
  kind : TokenKind
  spelling : Text
  deriving DecidableEq, Repr

inductive Word where
  /-- An identifier, or one of the keywords that may stand for one. -/
  | name (spelling : Text)
  | literal (lit : Lit) (spelling : Text)
  | systemVar (var : SystemVar)
  | systemTask (spelling : Text)
  | sym (kind : TokenKind)
  deriving DecidableEq, Repr

def Tok.word (t : Tok) : Word :=
  match t.kind with
  | .identifier | .label | .invoke | .finish => .name t.spelling
  | .decimalLit => .literal .decimal t.spelling
  | .hexLit => .literal .hex t.spelling
  | .binaryLit => .literal .binary t.spelling
  | .octalLit => .literal .octal t.spelling
  | .stringLit => .literal .string t.spelling
  | .systemFunction => .systemVar (if t.spelling = "_time".toList then .time else .random)
  | .systemTask => .systemTask t.spelling
  | k => .sym k

def wordsOf (ts : List Tok) : List Word := (ts.filter (·.kind ≠ .lineDirective)).map Tok.word

@[simp] theorem wordsOf_nil : wordsOf [] = [] := rfl

@[simp] theorem wordsOf_append (ts us : List Tok) : wordsOf (ts ++ us) = wordsOf ts ++ wordsOf us := by
  simp [wordsOf]

theorem wordsOf_cons (t : Tok) (ts : List Tok) : wordsOf (t :: ts) = wordsOf [t] ++ wordsOf ts :=
  wordsOf_append [t] ts

/-- The tokens still to be read, behind which there is the end of the
file, and the number of those read. -/
structure State where
  rest : List Tok
  pos : ℕ
  deriving DecidableEq, Repr

/-- A report, at the token it names. -/
structure Report where
  isError : Bool
  tok : ℕ
  text : String
  deriving DecidableEq, Repr

abbrev Rule (α : Type) := Descent.Rule State Report α

/-- A token that was consumed, with its number. -/
structure At where
  tok : Tok
  idx : ℕ

/-! ## Rules -/

def State.kindAt (s : State) (n : ℕ) : TokenKind := (s.rest[n]?.map Tok.kind).getD .eof

def peekAhead (n : ℕ) : Rule TokenKind := fun s => .ok (s.kindAt n) s []

def peekKind : Rule TokenKind := peekAhead 0

/-- The number of the next token. -/
def position : Rule ℕ := fun s => .ok s.pos s []

def warning (idx : ℕ) (text : String) : Rule Unit := Rule.note ⟨false, idx, text⟩

/-- Report at the next token and return nothing. -/
def reject {α : Type} (text : String) : Rule α := fun s =>
  (Rule.note ⟨true, s.pos, text⟩ >>= fun _ => Rule.failed) s

/-- Consume a number of tokens. -/
def State.drop (s : State) (n : ℕ) : State := ⟨s.rest.drop n, s.pos + n⟩

/-- Switch on the next token: where there is a case for it, consume it
and go on with the case. -/
def onNext {α : Type} (cases : At → Option (Rule α)) (otherwise : Rule α) : Rule α := fun s =>
  match s.rest with
  | [] => otherwise s
  | t :: _ =>
    match cases ⟨t, s.pos⟩ with
    | some p => p (s.drop 1)
    | none => otherwise s

/-- `check` and `consume`. -/
def accept (k : TokenKind) : Rule Bool :=
  onNext (fun t => if t.tok.kind = k then some (pure true) else none) (pure false)

def expect (k : TokenKind) (what : String) : Rule At :=
  onNext (fun t => if t.tok.kind = k then some (pure t) else none) (reject ("expected " ++ what))

def labelWarning : String := "'label' is reserved; using as identifier (parser-note N10)"

/-- An identifier, or `label` with a warning. -/
def nameCase (t : At) : Option (Rule At) :=
  match t.tok.kind with
  | .identifier => some (pure t)
  | .label => some do
    warning t.idx labelWarning
    return t
  | _ => none

/-- `consumeIdentifierLike`, with the report its caller makes. -/
def identifierLike (otherwise : String) : Rule At := onNext nameCase (reject otherwise)

def expectIdentifierAllowLabel (what : String) : Rule At := identifierLike ("expected " ++ what)

/-- What a rule returns behind each further separator. -/
def moreOf {α : Type} (sep : TokenKind) (p : Rule α) (fuel : ℕ) : Rule (List α) :=
  Rule.loop (fun as => do
    if ← accept sep then
      let a ← p
      return .inl (as ++ [a])
    else return .inr as) fuel []

/-- What stands between commas up to the closing token. -/
def listUpTo {α : Type} (close : TokenKind) (one next : Rule α) (what : String) (fuel : ℕ) :
    Rule (List α) := do
  if ← accept close then return []
  else
    let first ← one
    let rest ← moreOf .comma next fuel
    let _ ← expect close what
    return first :: rest

/-- The first tokens, one for each test, if they pass. -/
def leading : List (TokenKind → Bool) → List Tok → Option (List Tok)
  | [], _ => some []
  | _ :: _, [] => none
  | test :: tests, t :: ts => if test t.kind then (leading tests ts).map (t :: ·) else none

/-- Look ahead, and consume the tokens if they pass. -/
def acceptAll (tests : List (TokenKind → Bool)) : Rule (Option (List Tok)) := fun s =>
  match leading tests s.rest with
  | some ts => .ok (some ts) (s.drop ts.length) []
  | none => .ok none s []

/-- Consume tokens as long as they are of the kinds. -/
def dropTokens (drops : TokenKind → Bool) : Rule (List Tok) := fun s =>
  let ts := s.rest.takeWhile fun t => drops t.kind
  .ok ts (s.drop ts.length) []

def consumeLineMarkers : Rule Unit := do
  let _ ← dropTokens fun k => k == .lineDirective

/-! ## Recovery -/

abbrev TokenSet := List TokenKind

def skipUntil (set : TokenSet) : Rule Unit := do
  let _ ← dropTokens fun k => !(k == .eof || set.contains k)

def kModuleItem : TokenSet :=
  [.semicolon, .rbrace, .func, .function, .proc, .state, .wire, .reg, .mem, .integer, .variable_,
    .procName, .stateName, .firstState, .funcSelf]

def kSeqItem : TokenSet := [.semicolon, .rbrace, .if_, .for_, .while_, .goto_, .return_]

/-! ## What they read -/

/-- Errors are bad notes; warnings are not. -/
def view : View State Report Word where
  words s := wordsOf s.rest
  bad r := r.isError = true

variable {α : Type} {pre : List Word} {post : α → List Word → Prop}

theorem view_words_drop (s : State) (n : ℕ) :
    view.words s = wordsOf (s.rest.take n) ++ view.words (s.drop n) := by
  show wordsOf s.rest = _ ++ wordsOf (s.rest.drop n)
  rw [← wordsOf_append, List.take_append_drop]

/-- The tokens a rule has consumed. -/
theorem words_eq_of_yields {p : Rule α} {words : α → List Word} (hp : Yields view p words)
    {ts rest : List Tok} {pos pos' : ℕ} {a : α} {notes : List Report}
    (h : p ⟨ts ++ rest, pos⟩ = .ok a ⟨rest, pos'⟩ notes) (hclean : view.Clean notes) :
    words a = wordsOf ts := by
  obtain ⟨ws, hws, hread⟩ := (hp []).ok _ a _ notes h hclean
  have hsplit : wordsOf ts ++ wordsOf rest = ws ++ wordsOf rest := by
    rw [← wordsOf_append]
    exact hws
  rw [List.append_cancel_right hsplit]
  simpa using hread.symm

theorem reads_rejected (text : String) : Reads view (reject text : Rule α) pre post := by
  have hbad : ∀ s : State, Reads view
      (Rule.note ⟨true, s.pos, text⟩ >>= fun _ => Rule.failed : Rule α) pre post :=
    fun s => reads_reject rfl
  exact ⟨fun s => (hbad s).ok s, fun s => (hbad s).fail s⟩

theorem reads_onNext {cases : At → Option (Rule α)} {otherwise : Rule α}
    (hcases : ∀ t p, cases t = some p → Reads view p (pre ++ wordsOf [t.tok]) post)
    (hother : Reads view otherwise pre post) : Reads view (onNext cases otherwise) pre post := by
  have hstep : ∀ s : State, onNext cases otherwise s = otherwise s ∨
      ∃ t ts p, s.rest = t :: ts ∧ cases ⟨t, s.pos⟩ = some p ∧
        onNext cases otherwise s = p (s.drop 1) := by
    intro s
    unfold onNext
    split
    · exact .inl rfl
    · rename_i t ts hrest
      split
      · rename_i p hp
        exact .inr ⟨t, ts, p, hrest, hp, rfl⟩
      · exact .inl rfl
  constructor
  · intro s a s' notes heq hc
    rcases hstep s with h | ⟨t, ts, p, hrest, hp, h⟩
    · exact hother.ok s a s' notes (h ▸ heq) hc
    · obtain ⟨ws, hws, hpost⟩ := (hcases _ p hp).ok _ a s' notes (h ▸ heq) hc
      refine ⟨wordsOf [t] ++ ws, ?_, by simpa using hpost⟩
      rw [view_words_drop s 1, hws, hrest]
      simp
  · intro s s' notes heq
    rcases hstep s with h | ⟨t, ts, p, hrest, hp, h⟩
    · exact hother.fail s s' notes (h ▸ heq)
    · exact (hcases _ p hp).fail _ s' notes (h ▸ heq)

theorem yields_peekAhead (n : ℕ) : Yields view (peekAhead n) fun _ => [] := by
  refine fun pre => ⟨fun s a s' notes heq _ => ?_, fun s s' notes heq => by cases heq⟩
  obtain ⟨rfl, rfl, -⟩ := Outcome.ok.inj heq
  exact ⟨[], rfl, rfl⟩

theorem yields_position : Yields view position fun _ => [] := by
  refine fun pre => ⟨fun s a s' notes heq _ => ?_, fun s s' notes heq => by cases heq⟩
  obtain ⟨rfl, rfl, -⟩ := Outcome.ok.inj heq
  exact ⟨[], rfl, rfl⟩

theorem yields_warning (idx : ℕ) (text : String) : Yields view (warning idx text) fun _ => [] :=
  fun _ => reads_note (List.append_nil _).symm

/-- The kinds whose tokens are all alike. -/
def isFixed : TokenKind → Bool
  | .identifier | .label | .invoke | .finish | .decimalLit | .hexLit | .binaryLit | .octalLit
  | .stringLit | .systemFunction | .systemTask | .lineDirective => false
  | _ => true

theorem wordsOf_of_kind {t : Tok} {k : TokenKind} (hk : t.kind = k) (hfix : isFixed k = true) :
    wordsOf [t] = [.sym k] := by
  subst hk
  have hmarker : t.kind ≠ .lineDirective := fun hk => by simp [hk, isFixed] at hfix
  have hword : t.word = .sym t.kind := by
    unfold Tok.word
    split <;> simp_all [isFixed]
  simp [wordsOf, hmarker, hword]

/-- The kinds of tokens that may stand where a part of a name does. -/
def isMemberName (k : TokenKind) : Bool :=
  k == .identifier || k == .label || k == .invoke || k == .finish

theorem wordsOf_of_isMemberName {t : Tok} (h : isMemberName t.kind = true) :
    wordsOf [t] = [.name t.spelling] := by
  have hkinds : t.kind = .identifier ∨ t.kind = .label ∨ t.kind = .invoke ∨ t.kind = .finish := by
    simpa [isMemberName, or_assoc] using h
  rcases hkinds with h | h | h | h <;> simp [wordsOf, Tok.word, h]

theorem yields_accept {k : TokenKind} (hk : isFixed k = true) :
    Yields view (accept k) fun b => if b then [.sym k] else [] := by
  refine fun pre => reads_onNext (fun t p hp => ?_) (reads_pure (by simp))
  split_ifs at hp with h
  obtain rfl := Option.some.inj hp
  rw [wordsOf_of_kind h hk]
  exact reads_pure rfl

theorem yields_expect {k : TokenKind} (hk : isFixed k = true) (what : String) :
    Yields view (expect k what) fun _ => [.sym k] := by
  refine fun pre => reads_onNext (fun t p hp => ?_) (reads_rejected _)
  split_ifs at hp with h
  obtain rfl := Option.some.inj hp
  rw [wordsOf_of_kind h hk]
  exact reads_pure rfl

theorem yields_expectName (what : String) :
    Yields view (expect .identifier what) fun t => [.name t.tok.spelling] := by
  refine fun pre => reads_onNext (fun t p hp => ?_) (reads_rejected _)
  split_ifs at hp with h
  obtain rfl := Option.some.inj hp
  rw [wordsOf_of_isMemberName (by simp [isMemberName, h])]
  exact reads_pure rfl

theorem reads_nameCase {t : At} {p : Rule At} (hp : nameCase t = some p) :
    Reads view p (pre ++ wordsOf [t.tok]) fun t' ws => ws = pre ++ [.name t'.tok.spelling] := by
  have hrule : isMemberName t.tok.kind = true ∧
      (p = pure t ∨ p = do warning t.idx labelWarning; return t) := by
    unfold nameCase at hp
    split at hp
    · rename_i hkind
      exact ⟨by simp [isMemberName, hkind], .inl (Option.some.inj hp).symm⟩
    · rename_i hkind
      exact ⟨by simp [isMemberName, hkind], .inr (Option.some.inj hp).symm⟩
    · cases hp
  obtain ⟨hname, rfl | rfl⟩ := hrule
  · rw [wordsOf_of_isMemberName hname]
    exact reads_pure rfl
  · rw [wordsOf_of_isMemberName hname]
    exact (yields_warning _ _).bind fun _ => reads_pure (List.append_nil _)

theorem yields_identifierLike (text : String) :
    Yields view (identifierLike text) fun t => [.name t.tok.spelling] :=
  fun _ => reads_onNext (fun _ _ hp => reads_nameCase hp) (reads_rejected _)

/-- Every further value brings a separator. -/
theorem yields_moreOf {sep : TokenKind} (hsep : isFixed sep = true) {p : Rule α}
    {words : α → List Word} (hp : Yields view p words) (fuel : ℕ) :
    Yields view (moreOf sep p fuel) fun as => as.flatMap fun a => .sym sep :: words a := by
  intro pre
  refine reads_loop (fun as ws => ws = pre ++ as.flatMap fun a => .sym sep :: words a) ?_ fuel
    (by simp)
  rintro as ws rfl
  refine (yields_accept hsep).bind fun b => ?_
  cases b with
  | true =>
    refine hp.bind fun a => reads_pure ⟨fun as' h => ?_, nofun⟩
    obtain rfl := Sum.inl.inj h
    simp
  | false => exact reads_pure ⟨nofun, fun as' h => Sum.inr.inj h ▸ by simp⟩

/-- Separated by commas. -/
def commaWords (words : α → List Word) : List α → List Word
  | [] => []
  | a :: as => words a ++ as.flatMap fun a => .sym .comma :: words a

theorem yields_listUpTo {close : TokenKind} (hclose : isFixed close = true) {one next : Rule α}
    {words : α → List Word} (hone : Yields view one words) (hnext : Yields view next words)
    (what : String) (fuel : ℕ) :
    Yields view (listUpTo close one next what fuel) fun as =>
      commaWords words as ++ [.sym close] := by
  intro pre
  refine (yields_accept hclose).bind fun b => ?_
  cases b with
  | true => exact reads_pure (by simp [commaWords])
  | false =>
    refine hone.bind fun first => ?_
    refine (yields_moreOf rfl hnext fuel).bind fun rest => ?_
    refine (yields_expect hclose what).bind fun _ => reads_pure ?_
    simp [commaWords]

theorem reads_dropTokens (drops : TokenKind → Bool) :
    Reads view (dropTokens drops) pre fun ts ws =>
      (∀ t ∈ ts, drops t.kind = true) ∧ ws = pre ++ wordsOf ts := by
  refine ⟨fun s a s' notes heq _ => ?_, fun s s' notes heq => by cases heq⟩
  obtain ⟨rfl, rfl, -⟩ := Outcome.ok.inj heq
  refine ⟨_, view_words_drop s _, fun t ht => ?_, ?_⟩
  · exact List.mem_takeWhile_imp (p := fun t : Tok => drops t.kind) ht
  · have hprefix := List.takeWhile_prefix (fun t : Tok => drops t.kind) (l := s.rest)
    rw [← List.prefix_iff_eq_take.1 hprefix]

theorem leading_spec {tests : List (TokenKind → Bool)} {ts us : List Tok}
    (h : leading tests ts = some us) :
    List.Forall₂ (fun test t => test t.kind = true) tests us ∧ us = ts.take us.length := by
  induction tests, ts using leading.induct generalizing us with
  | case1 ts =>
    obtain rfl := Option.some.inj h
    exact ⟨.nil, rfl⟩
  | case2 test tests => cases h
  | case3 test tests t ts hpass ih =>
    rw [leading, if_pos hpass, Option.map_eq_some_iff] at h
    obtain ⟨vs, hvs, rfl⟩ := h
    obtain ⟨hall, htake⟩ := ih hvs
    exact ⟨.cons hpass hall, by rw [List.length_cons, List.take_succ_cons, ← htake]⟩
  | case4 test tests t ts hpass =>
    rw [leading, if_neg hpass] at h
    cases h

theorem reads_acceptAll (tests : List (TokenKind → Bool)) :
    Reads view (acceptAll tests) pre fun o ws =>
      (∀ ts, o = some ts → List.Forall₂ (fun test t => test t.kind = true) tests ts ∧
        ws = pre ++ wordsOf ts) ∧ (o = none → ws = pre) := by
  constructor
  · intro s a s' notes heq _
    unfold acceptAll at heq
    split at heq
    · rename_i ts hts
      obtain ⟨rfl, rfl, -⟩ := Outcome.ok.inj heq
      obtain ⟨hall, htake⟩ := leading_spec hts
      refine ⟨wordsOf ts, ?_, fun us h => ?_, nofun⟩
      · rw [view_words_drop s ts.length, ← htake]
      · obtain rfl := Option.some.inj h
        exact ⟨hall, rfl⟩
    · obtain ⟨rfl, rfl, -⟩ := Outcome.ok.inj heq
      exact ⟨[], rfl, nofun, fun _ => by simp⟩
  · intro s s' notes heq
    unfold acceptAll at heq
    split at heq <;> cases heq

theorem yields_consumeLineMarkers : Yields view consumeLineMarkers fun _ => [] := by
  refine fun pre => reads_bind (reads_dropTokens _) ?_
  rintro ts ws ⟨hmarkers, rfl⟩
  have hnone : wordsOf ts = [] := by
    simpa [wordsOf, List.filter_eq_nil_iff] using hmarkers
  exact reads_pure (by rw [hnone])

end Parse

end Nslc
