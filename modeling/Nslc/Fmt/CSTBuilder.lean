import Nslc.Lex.Tiling
/-!
# Fmt — the concrete syntax the parser reports

`CSTBuilder` takes the events of a parse. What `serialize` writes is made
of the spans of the recorded tokens and of the source between them, so
the buffer comes back however many of its tokens the parser has recorded,
and in whatever way it brackets its nodes.
-/

namespace Nslc

namespace Fmt

open Nslc.Lex

structure Frame where
  kindName : Text
  start : ℕ
  /-- Set by the matching `endNode`. -/
  stop? : Option ℕ
  deriving DecidableEq, Repr

structure CSTBuilder where
  src : Text
  openStack : List Frame
  completedNodes : List Frame
  tokens : List Token
  deriving DecidableEq, Repr

namespace CSTBuilder

def new (src : Text) : CSTBuilder := ⟨src, [], [], []⟩

def beginNode (b : CSTBuilder) (kindName : Text) (start : ℕ) : CSTBuilder :=
  { b with openStack := ⟨kindName, start, none⟩ :: b.openStack }

def recordToken (b : CSTBuilder) (tok : Token) : CSTBuilder :=
  { b with tokens := b.tokens ++ [tok] }

/-- An `endNode` with nothing open is let pass. -/
def endNode (b : CSTBuilder) (stop : ℕ) : CSTBuilder :=
  match b.openStack with
  | [] => b
  | f :: fs =>
    { b with openStack := fs, completedNodes := b.completedNodes ++ [{ f with stop? := some stop }] }

/-- One token of `serialize`, with the cursor before it. -/
def serializeToken (src : Text) (cursor : ℕ) (t : Token) : Text :=
  (if cursor < t.begin_ ∧ t.begin_ ≤ src.length then slice src cursor t.begin_ else []) ++
    if t.begin_ < t.end_ ∧ t.end_ ≤ src.length then slice src t.begin_ t.end_ else []

/-- The loop of `serialize`. -/
def serializeFrom (src : Text) : ℕ → List Token → Text
  | cursor, [] => if cursor < src.length then src.drop cursor else []
  | cursor, t :: ts => serializeToken src cursor t ++ serializeFrom src t.end_ ts

def serialize (b : CSTBuilder) : Text := serializeFrom b.src 0 b.tokens

/-! ## Events -/

inductive Event where
  | beginNode (kindName : Text) (start : ℕ)
  | recordToken (tok : Token)
  | endNode (stop : ℕ)
  deriving DecidableEq, Repr

def handle (b : CSTBuilder) : Event → CSTBuilder
  | .beginNode kindName start => b.beginNode kindName start
  | .recordToken tok => b.recordToken tok
  | .endNode stop => b.endNode stop

def run (b : CSTBuilder) (es : List Event) : CSTBuilder := es.foldl handle b

def Event.token? : Event → Option Token
  | .recordToken tok => some tok
  | _ => none

theorem handle_src (b : CSTBuilder) (e : Event) : (b.handle e).src = b.src := by
  cases e with
  | beginNode => rfl
  | recordToken => rfl
  | endNode stop =>
    simp only [handle, endNode]
    split <;> rfl

theorem handle_tokens (b : CSTBuilder) (e : Event) :
    (b.handle e).tokens = b.tokens ++ e.token?.toList := by
  cases e with
  | beginNode => simp [handle, beginNode, Event.token?]
  | recordToken => rfl
  | endNode stop =>
    simp only [handle, endNode, Event.token?, Option.toList_none, List.append_nil]
    split <;> rfl

/-- **Only the recorded tokens count.** -/
theorem run_spec (b : CSTBuilder) (es : List Event) :
    (b.run es).src = b.src ∧ (b.run es).tokens = b.tokens ++ es.filterMap Event.token? := by
  induction es generalizing b with
  | nil => exact ⟨rfl, by simp [run]⟩
  | cons e es ih =>
    obtain ⟨hsrc, htokens⟩ := ih (b.handle e)
    refine ⟨hsrc.trans (handle_src b e), ?_⟩
    have hrun : b.run (e :: es) = (b.handle e).run es := rfl
    rw [hrun, htokens, handle_tokens, List.append_assoc]
    cases htok : e.token? with
    | none => simp [List.filterMap_cons_none htok]
    | some tok => simp [List.filterMap_cons_some htok]

/-! ## The source comes back -/

/-- Spans one behind the other, inside the buffer. -/
structure InOrder (src : Text) (cursor : ℕ) (ts : List Token) : Prop where
  start : ∀ t ∈ ts, cursor ≤ t.begin_
  span : ∀ t ∈ ts, t.begin_ ≤ t.end_ ∧ t.end_ ≤ src.length
  ordered : ts.Pairwise fun t u => t.end_ ≤ u.begin_

theorem InOrder.tail {src : Text} {cursor : ℕ} {t : Token} {ts : List Token}
    (h : InOrder src cursor (t :: ts)) : InOrder src t.end_ ts where
  start := (List.pairwise_cons.1 h.ordered).1
  span u hu := h.span u (List.mem_cons_of_mem t hu)
  ordered := (List.pairwise_cons.1 h.ordered).2

theorem InOrder.sublist {src : Text} {cursor : ℕ} {ts us : List Token}
    (h : InOrder src cursor ts) (hsub : us.Sublist ts) : InOrder src cursor us where
  start t ht := h.start t (hsub.subset ht)
  span t ht := h.span t (hsub.subset ht)
  ordered := h.ordered.sublist hsub

theorem slice_append {src : Text} {a b c : ℕ} (hab : a ≤ b) (hbc : b ≤ c) :
    slice src a b ++ slice src b c = slice src a c := by
  have hdrop : src.drop b = (src.drop a).drop (b - a) := by
    rw [List.drop_drop, Nat.add_sub_cancel' hab]
  have hwidth : c - a = (b - a) + (c - b) := by omega
  rw [slice, slice, slice, hdrop, hwidth, List.take_add]

theorem slice_self (src : Text) (a : ℕ) : slice src a a = [] := by simp [slice]

theorem serializeToken_eq {src : Text} {cursor : ℕ} {t : Token} (hstart : cursor ≤ t.begin_)
    (hspan : t.begin_ ≤ t.end_ ∧ t.end_ ≤ src.length) :
    serializeToken src cursor t = slice src cursor t.end_ := by
  -- the gap before the token, empty where it follows at once
  have hgap : (if cursor < t.begin_ ∧ t.begin_ ≤ src.length then slice src cursor t.begin_
      else []) = slice src cursor t.begin_ := by
    split_ifs with h
    · rfl
    · have heq : cursor = t.begin_ := by omega
      rw [heq, slice_self]
  have htoken : (if t.begin_ < t.end_ ∧ t.end_ ≤ src.length then slice src t.begin_ t.end_
      else []) = slice src t.begin_ t.end_ := by
    split_ifs with h
    · rfl
    · have heq : t.begin_ = t.end_ := by omega
      rw [heq, slice_self]
  rw [serializeToken, hgap, htoken, slice_append hstart hspan.1]

theorem serializeFrom_eq {src : Text} {cursor : ℕ} {ts : List Token}
    (h : InOrder src cursor ts) (hcursor : cursor ≤ src.length) :
    serializeFrom src cursor ts = src.drop cursor := by
  induction ts generalizing cursor with
  | nil =>
    rw [serializeFrom]
    split_ifs with hlt
    · rfl
    · rw [List.drop_of_length_le (by omega)]
  | cons t ts ih =>
    have hstart := h.start t List.mem_cons_self
    have hspan := h.span t List.mem_cons_self
    rw [serializeFrom, serializeToken_eq hstart hspan, ih h.tail hspan.2]
    have hdrop : src.drop t.end_ = (src.drop cursor).drop (t.end_ - cursor) := by
      rw [List.drop_drop, Nat.add_sub_cancel' (hstart.trans hspan.1)]
    rw [slice, hdrop, List.take_append_drop]

/-- Tokens that `next` returns stand in order, with those at the end of
the buffer. -/
theorem inOrder_pull (buf : Text) (k : ℕ) : InOrder buf 0 (Lexer.pull k (Lexer.new buf)) := by
  obtain ⟨toks, eof, htiled, hpull⟩ := exists_tiled (Lexer.new buf) (Nat.zero_le _)
  have htiles : Tiles buf 0 toks eof := htiled.tiles rfl (Nat.zero_le _)
  obtain ⟨hbegin, hend⟩ := htiles.eof_range
  have hlast : ∀ t ∈ toks, t.end_ ≤ buf.length := by
    intro t ht
    have hpair := (List.pairwise_append.1 htiles.ordered).2.2 t ht eof (by simp)
    omega
  have hall : InOrder buf 0 (toks ++ List.replicate k eof) := by
    refine ⟨fun t _ => Nat.zero_le _, fun t ht => ?_, ?_⟩
    · rcases List.mem_append.1 ht with ht | ht
      · exact ⟨(htiles.nonempty t ht).le, hlast t ht⟩
      · obtain rfl := List.eq_of_mem_replicate ht
        exact ⟨by omega, by omega⟩
    · refine List.pairwise_append.2 ⟨(List.pairwise_append.1 htiles.ordered).1, ?_, ?_⟩
      · exact List.pairwise_replicate.2 (.inr (by omega))
      · intro t ht u hu
        obtain rfl := List.eq_of_mem_replicate hu
        have := hlast t ht
        omega
  have htake : Lexer.pull k (Lexer.new buf) = (toks ++ List.replicate k eof).take k := hpull k
  rw [htake]
  exact hall.sublist (List.take_sublist _ _)

/-- **The buffer comes back byte for byte**, whichever of its tokens are
recorded and whatever nodes are begun and ended between them. -/
theorem serialize_run (buf : Text) (k : ℕ) (es : List Event)
    (h : (es.filterMap Event.token?).Sublist (Lexer.pull k (Lexer.new buf))) :
    ((new buf).run es).serialize = buf := by
  obtain ⟨hsrc, htokens⟩ := run_spec (new buf) es
  rw [serialize, hsrc, htokens]
  exact serializeFrom_eq ((inOrder_pull buf k).sublist h) (Nat.zero_le _)

/-- A comment, two blanks, and a parser that records every other
token. -/
theorem serialize_run_comment :
    ((new "a/**/  ;b".toList).run [.beginNode [] 0,
      .recordToken ⟨.identifier, 0, 1, "a".toList, .plain⟩,
      .recordToken ⟨.identifier, 8, 9, "b".toList, .plain⟩, .endNode 9]).serialize =
        "a/**/  ;b".toList :=
  serialize_run _ 3 _ (by decide +kernel)

end CSTBuilder

end Fmt

end Nslc
