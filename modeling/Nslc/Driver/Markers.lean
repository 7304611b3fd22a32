import Nslc.Driver.Location
import Nslc.Lex.Directives
import Nslc.Preprocess.LineMap
/-!
# Driver — line markers, written and read back

A marker is written by the preprocessor and read twice: the lexer makes
a token of it, and the replay an override of the line map. The three do
not ask the same. The replay wants `#line` and a blank at the begin of a
line and takes a name up to the first quote; the lexer takes blanks and
comments in front and a tab behind, but nothing inside a comment or a
string. `markersRoundTrip_iff` says for which runs every marker is read
as it was written and no other is.
-/

namespace Nslc

namespace Driver

open Preprocess

/-! ## Markers of a run -/

/-- The marker the next step of a run without errors writes: the line
and the file it is written for. -/
def marker? (env : Env) (s : State) : Option (ℕ × Text) :=
  match s.includeStack with
  | [] => none
  | f :: fs =>
    match readLine (s.sm.getBuffer f.fid) f.cursor with
    | none => fs.head?.map fun outer => (outer.physicalLine, s.sm.getPath outer.fid)
    | some l =>
      match isEmitting f.condStack, lineDirective l with
      | true, .line operand =>
        match parseLineOperand (splice env.expr s.macros operand f.loc).1 with
        | .ok n path _ => some (n, path.getD [])
        | _ => none
      | true, .incl filename isAngle =>
        (env.resolve filename isAngle (s.sm.getPath f.fid)).map fun path => (1, path)
      | _, _ => none

/-- The lexer takes the bytes from `o` to `e` for a line directive. -/
def TokenAt (out : Text) (o e : ℕ) : Prop :=
  ∃ k, ∃ tok ∈ Lex.Lexer.pull k (Lex.Lexer.new out),
    tok.kind = .lineDirective ∧ tok.begin_ = o ∧ tok.end_ = e

/-- The replay reads the line that begins at `o` as a marker for line
`n` of `p`, and registers it behind that line. -/
def Replayed (b : Buffer) (o n : ℕ) (p : Text) : Prop :=
  ∃ ls l rs, splitLines b.bytes = ls ++ l :: rs ∧ bytesLength ls = o ∧
    (∃ m, parseMarker l.body = some (m, p) ∧ m % 2 ^ 32 = n) ∧
    ⟨o + l.bytes.length, n, p⟩ ∈ b.lineOverrides

/-- An override recorded on a file. -/
def Recorded (sm : SourceManager) (fid : FileID) (d : LineDirective) : Prop :=
  ∃ b, sm.buffer? fid = some b ∧ d ∈ b.lineOverrides

/-- The marker written by step `i` for line `m` of `p` is one token, is
replayed as that, and if a `#line` asked for it, that is recorded on the
file of the `#line` too. -/
structure MarkerKept (env : Env) (s : State) (b : Buffer) (i m : ℕ) (p : Text) : Prop where
  token : TokenAt b.bytes (runState env i s).output.length
    ((runState env i s).output.length + (markerBody m p).length)
  replayed : Replayed b (runState env i s).output.length m p
  recorded : ∀ fid off, activeLine? env (runState env i s) = some (fid, off) →
    Recorded (runState env (i + 1) s).sm fid ⟨off, m, p⟩

/-- **Markers round-trip** in the runs on a file that succeed: those that
are written are read back, and the lexer sees no others than the replay. -/
structure MarkersRoundTrip (env : Env) (path : Text) (s : State) : Prop where
  kept : ∀ n b, (runState env n s).succeeded = true →
    replay (runState env n s).sm path (runState env n s).output = some b →
      ∀ i m p, marker? env (runState env i s) = some (m, p) → MarkerKept env s b i m p
  known : ∀ n b, (runState env n s).succeeded = true →
    replay (runState env n s).sm path (runState env n s).output = some b →
      ∀ o e, TokenAt b.bytes o e → ∃ m p, Replayed b o m p

/-! ## What a step writes -/

section Steps

variable {env : Env} {s t : State} {m : ℕ} {p : Text}

/-- **A marker is written** by the step it is announced for. -/
theorem output_of_marker? (hstep : step env s = some t) (hab : t.aborted = none)
    (herr : hasError t.diags = false) (hm : marker? env s = some (m, p)) :
    t.output = s.output ++ lineMarker m p ∧
      ∀ fid off, activeLine? env s = some (fid, off) → Recorded t.sm fid ⟨off, m % 2 ^ 32, p⟩ := by
  obtain ⟨f, fs, hrun, hst, hcase⟩ := step_cases hstep
  rcases hcase with ⟨hr, rfl⟩ | ⟨l, hr, rfl⟩
  · have hnone : ∀ fid off, activeLine? env s = some (fid, off) → False := by
      intro fid off h
      simp [activeLine?, hrun, hst, hr] at h
    refine ⟨?_, fun fid off h => absurd h (hnone fid off)⟩
    simp only [marker?, hst, hr] at hm
    cases fs with
    | nil => cases hm
    | cons outer fs =>
      obtain ⟨rfl, rfl⟩ := Prod.mk.inj (Option.some.inj hm)
      unfold stepEof at hab ⊢
      simp only at hab ⊢
      split at hab
      · exact absurd hab (by simp [State.abort])
      · next sm hpop =>
        have hbuf := (files_popIncludeFrame hpop).1
        have hpath : sm.getPath outer.fid = s.sm.getPath outer.fid := by
          simp only [SourceManager.getPath, SourceManager.buffer?, hbuf, State.addDiags]
        rw [hpath]
        rfl
  · simp only [marker?, hst, hr] at hm
    rcases stepLine_cases env s f fs l with ⟨h, herr'⟩ | ⟨n, q, h⟩ | ⟨q, sm, inner, h⟩ | h
    · -- a line that neither registers nor opens has failed
      have hmoves : movesLocation f l = true := by
        unfold movesLocation
        split at hm
        · next he hd => simp [he, hd]
        · next he hd => simp [he, hd]
        · cases hm
      rw [herr' hmoves] at herr
      cases herr
    · obtain ⟨o, hd, trailing, hop⟩ := h.operand
      simp only [h.emitting, hd, hop] at hm
      obtain ⟨rfl, rfl⟩ := Prod.mk.inj (Option.some.inj hm)
      refine ⟨h.output_eq, ?_⟩
      intro fid off hactive
      simp only [activeLine?, hrun, hst, hr, hd, h.emitting, hop] at hactive
      obtain ⟨rfl, rfl⟩ := Prod.mk.inj (Option.some.inj hactive)
      obtain ⟨b, hb, -, hbuf, -⟩ := files_addLineDirective h.sm_eq
      refine ⟨{ b with lineOverrides := b.lineOverrides ++
        [⟨(f.advance l).cursor, n % 2 ^ 32, q.getD []⟩] }, ?_, by simp⟩
      have hreg : f.fid ≠ 0 ∧ s.sm.buffers[f.fid - 1]? = some b := by
        unfold SourceManager.buffer? at hb
        split at hb
        · cases hb
        · exact ⟨‹_›, hb⟩
      have hlt : f.fid - 1 < s.sm.buffers.length := (List.getElem?_eq_some_iff.1 hreg.2).1
      simp [SourceManager.buffer?, hbuf, hreg.1, hlt]
    · obtain ⟨filename, isAngle, hd, -, hres⟩ := h.operand
      simp only [h.emitting, hd, hres, Option.map_some] at hm
      obtain ⟨rfl, rfl⟩ := Prod.mk.inj (Option.some.inj hm)
      refine ⟨?_, ?_⟩
      · rw [h.output_eq, getPath_of_loadFile h.loaded]
      · intro fid off hactive
        simp [activeLine?, hrun, hst, hr, hd] at hactive
    · exact absurd hab h.aborted_ne

theorem marker?_step (hm : marker? env s = some (m, p)) (hab : s.aborted = none) :
    ∃ t, step env s = some t := by
  refine Option.ne_none_iff_exists'.1 fun hnone => ?_
  rcases step_eq_none_iff.1 hnone with h | h
  · exact h hab
  · simp [marker?, h] at hm

/-- Where a marker stands in the output of a successful run. -/
theorem output_eq_of_marker? {n i : ℕ} (hrun : (runState env n s).succeeded = true)
    (hm : marker? env (runState env i s) = some (m, p)) :
    (∃ rest, (runState env n s).output =
        (runState env i s).output ++ (lineMarker m p ++ rest)) ∧
      ∀ fid off, activeLine? env (runState env i s) = some (fid, off) →
        Recorded (runState env (i + 1) s).sm fid ⟨off, m % 2 ^ 32, p⟩ := by
  have hfin : (runState env n s).includeStack = [] := by
    simp only [State.succeeded, State.finished, Bool.and_eq_true, List.isEmpty_iff] at hrun
    exact hrun.1.2
  have hlt : i < n := by
    by_contra hge
    have hhalt : step env (runState env n s) = none :=
      step_eq_none_iff.2 (.inr hfin)
    obtain ⟨j, rfl⟩ := Nat.exists_eq_add_of_le (Nat.not_lt.1 hge)
    have hsame : runState env (n + j) s = runState env n s := by
      rw [runState, Run.runUpto_add]
      exact Run.runUpto_of_none hhalt j
    rw [hsame, marker?, hfin] at hm
    cases hm
  obtain ⟨hab, -⟩ := clean_of_succeeded hlt.le hrun
  obtain ⟨hab', herr'⟩ := clean_of_succeeded (show i + 1 ≤ n from hlt) hrun
  obtain ⟨t, ht⟩ := marker?_step hm hab
  have hnext : runState env (i + 1) s = t := by
    rw [runState_succ, ht, Option.getD_some]
  rw [hnext] at hab' herr' ⊢
  obtain ⟨hout, hrec⟩ := output_of_marker? ht hab' herr' hm
  obtain ⟨hab'', -⟩ := clean_of_succeeded (Nat.le_refl n) hrun
  obtain ⟨rest, hrest⟩ := (runState_grows (show i + 1 ≤ n from hlt) hab'').output
  refine ⟨⟨rest, ?_⟩, hrec⟩
  rw [← hrest, hnext, hout, List.append_assoc]

end Steps

/-! ## What the replay registers -/

theorem replayLines_some {path out : Text} {bs : List Buffer}
    {inc : List (SourceLocation × FileID)} {ls : List Line} (off : ℕ) (ov : List LineDirective)
    {sm : SourceManager}
    (h : replayLines ⟨bs ++ [⟨path, out, ov⟩], inc⟩ (bs.length + 1) off ls = some sm) :
    sm = ⟨bs ++ [⟨path, out, ov ++ markersFrom off ls⟩], inc⟩ := by
  induction ls generalizing off ov with
  | nil =>
    rw [markersFrom, List.append_nil]
    exact (Option.some.inj h).symm
  | cons l ls ih =>
    simp only [replayLines, markersFrom] at h ⊢
    cases hm : parseMarker l.body with
    | none =>
      simp only [hm] at h
      exact ih _ _ h
    | some np =>
      obtain ⟨n, p⟩ := np
      simp only [hm] at h ⊢
      split_ifs at h
      split at h
      · cases h
      · next sm' hadd =>
        obtain ⟨b, hb, -, hbuf, hinc⟩ := files_addLineDirective hadd
        have hlast : b = ⟨path, out, ov⟩ := by
          simpa [SourceManager.buffer?] using hb.symm
        obtain ⟨buffers, frames⟩ := sm'
        simp only at hbuf hinc
        subst hlast hbuf hinc
        have hset : (bs ++ [(⟨path, out, ov⟩ : Buffer)]).set (bs.length + 1 - 1)
            ⟨path, out, ov ++ [⟨off + l.bytes.length, n % 2 ^ 32, p⟩]⟩ =
            bs ++ [⟨path, out, ov ++ [⟨off + l.bytes.length, n % 2 ^ 32, p⟩]⟩] := by
          simp
        rw [hset] at h
        rw [ih _ _ h, List.append_assoc]
        rfl

/-- The replay keeps the text and registers its markers. -/
theorem replay_some {sm : SourceManager} {path out : Text} {b : Buffer}
    (h : replay sm path out = some b) : b = ⟨path, out, markersFrom 0 (splitLines out)⟩ := by
  unfold replay SourceManager.addBufferInMemory at h
  split_ifs at h with hroom
  simp only at h
  obtain ⟨sm', hlines, hbuf⟩ := Option.bind_eq_some_iff.1 h
  rw [replayLines_some 0 [] hlines] at hbuf
  simpa [SourceManager.buffer?] using hbuf.symm

/-! ## Lines by their begin -/

/-- The first line goes on to the newline. -/
theorem body_eq_takeWhile {t : Text} {l : Line} {rs : List Line} (h : splitLines t = l :: rs) :
    l.body = t.takeWhile (· ≠ '\n') := by
  have hnl : '\n' ∉ l.body := body_no_newline_of_mem (t := t) (by rw [h]; simp)
  have hbody : ∀ c ∈ l.body, decide (c ≠ '\n') = true := by
    intro c hc
    simp only [ne_eq, decide_eq_true_eq]
    rintro rfl
    exact hnl hc
  have hflat : t = l.bytes ++ (rs.map Line.bytes).flatten := by
    rw [← flatten_splitLines t, h]
    simp
  rw [hflat, Line.bytes, List.append_assoc, List.takeWhile_append_of_pos hbody]
  cases hn : l.newline with
  | true => simp [Line.term, hn]
  | false =>
    cases rs with
    | nil => simp [Line.term, hn]
    | cons k ks =>
      rw [newline_of_cons_cons h] at hn
      cases hn

/-- A line begins where whole lines end, and goes on to the newline. -/
theorem line_of_splitLines {t : Text} {ls rs : List Line} {l : Line}
    (h : splitLines t = ls ++ l :: rs) :
    AtLineStart (t.take (bytesLength ls)) ∧
      l.body = (t.drop (bytesLength ls)).takeWhile (· ≠ '\n') := by
  induction ls generalizing t with
  | nil => exact ⟨.inl rfl, body_eq_takeWhile h⟩
  | cons k ls ih =>
    rw [List.cons_append] at h
    obtain ⟨hstart, hbody⟩ := ih (splitLines_drop_of_cons h)
    have hn : k.newline = true := by
      cases ls with
      | nil => exact newline_of_cons_cons h
      | cons j js => exact newline_of_cons_cons h
    have hsplit : t = k.bytes ++ t.drop k.bytes.length := by
      have hflat : t = k.bytes ++ ((ls ++ l :: rs).map Line.bytes).flatten := by
        rw [← flatten_splitLines t, h]
        simp
      conv_rhs => rw [hflat, List.drop_left]
      exact hflat
    rw [bytesLength_cons]
    refine ⟨?_, by rw [← List.drop_drop, hbody]⟩
    rw [hsplit, List.take_length_add_append]
    refine .inr ?_
    rcases hstart with hnil | hlast
    · rw [hnil, List.append_nil, Line.bytes, Line.term, if_pos hn]
      simp
    · rw [List.getLast?_append, hlast]
      rfl

/-- Where a line begins, the cut has one. -/
theorem exists_line_at {t : Text} {o : ℕ} (h : AtLineStart (t.take o)) (ho : o < t.length) :
    ∃ ls l rs, splitLines t = ls ++ l :: rs ∧ bytesLength ls = o ∧
      l.body = (t.drop o).takeWhile (· ≠ '\n') := by
  have hne : t.drop o ≠ [] := by
    intro hnil
    have := congrArg List.length hnil
    rw [List.length_drop, List.length_nil] at this
    omega
  have hlen : bytesLength (splitLines (t.take o)) = o := by
    rw [bytesLength_splitLines, List.length_take]
    omega
  obtain ⟨l, rs, hl⟩ : ∃ l rs, splitLines (t.drop o) = l :: rs :=
    List.exists_cons_of_ne_nil fun he => hne (splitLines_eq_nil.1 he)
  have hsplit : splitLines t = splitLines (t.take o) ++ l :: rs := by
    rw [← hl, ← splitLines_append h, List.take_append_drop]
  refine ⟨_, l, rs, hsplit, hlen, ?_⟩
  have := (line_of_splitLines hsplit).2
  rwa [hlen] at this

/-! ## Lexer and replay on a text -/

/-- The replay reads the lines that the lexer would take for directives
and that have one blank behind the word. -/
theorem parseMarker_isSome_iff {t : Text} :
    (parseMarker t).isSome = true ↔ Lex.isLineDirective t = true ∧ t[5]? = some ' ' := by
  have hblank : (fun d : Char => d == ' ' || d == '\t') = isWS := rfl
  have hdig : ∀ v : Text, v.takeWhile isDigit ≠ [] ↔ (v.head?.map isDigit).getD false = true := by
    intro v
    cases v with
    | nil => simp
    | cons c cs => cases h : isDigit c <;> simp [h]
  constructor
  · intro h
    unfold parseMarker at h
    split at h
    · next hword =>
      obtain ⟨u, rfl⟩ := List.isPrefixOf_iff_prefix.1 hword
      have hdrop : ("#line ".toList ++ u).drop 6 = u := rfl
      simp only [hdrop] at h
      split at h
      · cases h
      · next hne =>
        refine ⟨?_, rfl⟩
        have hhead := (hdig _).1 hne
        have hskip : (' ' :: u).dropWhile isWS = u.dropWhile isWS := rfl
        change Lex.isLineDirective ("#line".toList ++ ' ' :: u) = true
        simp only [Lex.isLineDirective, Bool.and_eq_true]
        refine ⟨List.isPrefixOf_iff_prefix.2 (List.prefix_append _ _), ?_⟩
        have hdrop' : ("#line".toList ++ ' ' :: u).drop 5 = ' ' :: u := rfl
        simp only [hdrop', hblank, hskip]
        exact hhead
    · cases h
  · rintro ⟨h, hfive⟩
    simp only [Lex.isLineDirective, Bool.and_eq_true] at h
    obtain ⟨hword, hrest⟩ := h
    obtain ⟨u, rfl⟩ := List.isPrefixOf_iff_prefix.1 hword
    obtain ⟨v, rfl⟩ : ∃ v, u = ' ' :: v := by
      cases u with
      | nil => cases hfive
      | cons c v => exact ⟨v, congrArg (· :: v) (Option.some.inj hfive)⟩
    have hdrop : ("#line".toList ++ ' ' :: v).drop 5 = ' ' :: v := rfl
    have hskip : (' ' :: v).dropWhile isWS = v.dropWhile isWS := rfl
    simp only [hdrop, hblank, hskip, Bool.and_eq_true] at hrest
    have hne : (v.dropWhile isWS).takeWhile isDigit ≠ [] := (hdig _).2 hrest.2
    change (parseMarker ("#line ".toList ++ v)).isSome = true
    unfold parseMarker
    rw [if_pos (List.isPrefixOf_iff_prefix.2 (List.prefix_append _ _))]
    have hdrop' : ("#line ".toList ++ v).drop 6 = v := rfl
    simp only [hdrop']
    rw [if_neg hne]
    split
    · rfl
    · split <;> rfl

/-- The name of a marker stands between quotes, or is missing. -/
theorem quotable_of_parseMarker {t p : Text} {n : ℕ} (hnl : '\n' ∉ t)
    (h : parseMarker t = some (n, p)) : Quotable p := by
  have hempty : Quotable [] := ⟨by simp, by simp⟩
  unfold parseMarker at h
  split at h
  · simp only at h
    split at h
    · cases h
    · split at h
      · obtain ⟨-, rfl⟩ := Prod.mk.inj (Option.some.inj h)
        exact hempty
      · next c cs hrest =>
        split at h
        · obtain ⟨-, rfl⟩ := Prod.mk.inj (Option.some.inj h)
          refine ⟨?_, ?_⟩
          · intro hq
            have := List.mem_takeWhile_imp hq
            simp at this
          · intro hn
            have hcs : '\n' ∈ c :: cs :=
              List.mem_cons_of_mem _ ((List.takeWhile_prefix _).subset hn)
            rw [← hrest] at hcs
            have hsuffix := ((List.dropWhile_suffix isWS).trans (List.dropWhile_suffix isDigit)).trans
              ((List.dropWhile_suffix isWS).trans (List.drop_suffix 6 t))
            exact hnl (hsuffix.subset hcs)
        · obtain ⟨-, rfl⟩ := Prod.mk.inj (Option.some.inj h)
          exact hempty
  · cases h

section Text

variable {out : Text} {o e : ℕ}

theorem tokenAt_iff : TokenAt out o e ↔
    Lex.DirectiveAt ⟨.code, true⟩ out o ∧
      e = o + ((out.drop o).takeWhile (· ≠ '\n')).length := by
  have hmarks : (Lex.Lexer.new out).MarksAt o ↔ Lex.DirectiveAt ⟨.code, true⟩ out o := by
    constructor
    · rintro ⟨o', rfl, h⟩
      have hzero : (Lex.Lexer.new out).cur + o' = o' := Nat.zero_add o'
      rw [hzero]
      exact h
    · intro h
      exact ⟨o, (Nat.zero_add o).symm, h⟩
  rw [← hmarks, ← Lex.mem_pull_directive_iff _ (Nat.zero_le _)]
  constructor
  · rintro ⟨k, tok, htok, hkind, rfl, rfl⟩
    refine ⟨⟨k, tok, htok, hkind, rfl⟩, ?_⟩
    exact Lex.end_of_directive _ (Nat.zero_le _) htok hkind
  · rintro ⟨⟨k, tok, htok, hkind, rfl⟩, rfl⟩
    refine ⟨k, tok, htok, hkind, rfl, ?_⟩
    exact Lex.end_of_directive _ (Nat.zero_le _) htok hkind

/-- A marker that is read is registered. -/
theorem mem_markersFrom_of_line {ls rs : List Line} {l : Line} {m : ℕ} {p : Text}
    (h : parseMarker l.body = some (m, p)) :
    ⟨bytesLength ls + l.bytes.length, m % 2 ^ 32, p⟩ ∈ markersFrom 0 (ls ++ l :: rs) := by
  rw [markersFrom_append, Nat.zero_add]
  simp [markersFrom, h]

variable {b : Buffer} {n : ℕ} {p : Text}

/-- The replay reads the lines that begin at a line start, up to the
newline. -/
theorem replayed_iff (hb : b.lineOverrides = markersFrom 0 (splitLines b.bytes)) :
    Replayed b o n p ↔ AtLineStart (b.bytes.take o) ∧
      ∃ m, parseMarker ((b.bytes.drop o).takeWhile (· ≠ '\n')) = some (m, p) ∧
        m % 2 ^ 32 = n := by
  constructor
  · rintro ⟨ls, l, rs, hsplit, rfl, ⟨m, hm, hmod⟩, -⟩
    obtain ⟨hstart, hbody⟩ := line_of_splitLines hsplit
    exact ⟨hstart, m, by rw [← hbody, hm], hmod⟩
  · rintro ⟨hstart, m, hm, rfl⟩
    have ho : o < b.bytes.length := by
      by_contra hge
      rw [List.drop_eq_nil_of_le (Nat.not_lt.1 hge)] at hm
      cases hm
    obtain ⟨ls, l, rs, hsplit, rfl, hbody⟩ := exists_line_at hstart ho
    rw [← hbody] at hm
    refine ⟨ls, l, rs, hsplit, rfl, ⟨m, hm, rfl⟩, ?_⟩
    rw [hb, hsplit]
    exact mem_markersFrom_of_line hm

theorem Replayed.lt (h : Replayed b o n p) : n < 2 ^ 32 := by
  obtain ⟨-, -, -, -, -, ⟨m, -, rfl⟩, -⟩ := h
  exact Nat.mod_lt _ (by decide)

theorem Replayed.quotable (h : Replayed b o n p) : Quotable p := by
  obtain ⟨ls, l, rs, hsplit, -, ⟨m, hm, -⟩, -⟩ := h
  refine quotable_of_parseMarker ?_ hm
  exact body_no_newline_of_mem (t := b.bytes) (by rw [hsplit]; simp)

/-- **Where the lexer sees a directive**, the replay reads a marker if the
directive begins its line and has a blank, not a tab, behind the word. -/
theorem exists_replayed_iff (hb : b.lineOverrides = markersFrom 0 (splitLines b.bytes))
    (hd : Lex.isLineDirective (b.bytes.drop o) = true) :
    (∃ n p, Replayed b o n p) ↔
      AtLineStart (b.bytes.take o) ∧ (b.bytes.drop o)[5]? = some ' ' := by
  have hfive : ((b.bytes.drop o).takeWhile (· ≠ '\n'))[5]? = some ' ' ↔
      (b.bytes.drop o)[5]? = some ' ' := by
    have hword : "#line".toList.isPrefixOf (b.bytes.drop o) = true := by
      simp only [Lex.isLineDirective, Bool.and_eq_true] at hd
      exact hd.1
    obtain ⟨u, hu⟩ := List.isPrefixOf_iff_prefix.1 hword
    rw [← hu]
    have htake : ("#line".toList ++ u).takeWhile (· ≠ '\n') =
        "#line".toList ++ u.takeWhile (· ≠ '\n') := rfl
    have hat : ∀ v : Text, ("#line".toList ++ v)[5]? = v.head? := fun v => by
      cases v <;> rfl
    rw [htake, hat, hat]
    cases u with
    | nil => rfl
    | cons c cs =>
      by_cases hc : c = '\n'
      · simp [hc]
      · simp [hc]
  have hsome := parseMarker_isSome_iff (t := (b.bytes.drop o).takeWhile (· ≠ '\n'))
  rw [Lex.isLineDirective_takeWhile, hfive] at hsome
  constructor
  · rintro ⟨n, p, h⟩
    obtain ⟨hstart, m, hm, -⟩ := (replayed_iff hb).1 h
    exact ⟨hstart, (hsome.1 (by rw [hm]; rfl)).2⟩
  · rintro ⟨hstart, h⟩
    obtain ⟨⟨m, p⟩, hm⟩ := Option.isSome_iff_exists.1 (hsome.2 ⟨hd, h⟩)
    exact ⟨m % 2 ^ 32, p, (replayed_iff hb).2 ⟨hstart, m, hm, rfl⟩⟩

theorem takeWhile_lineMarker (m : ℕ) (hp : Quotable p) (rest : Text) :
    (lineMarker m p ++ rest).takeWhile (· ≠ '\n') = markerBody m p := by
  have hbody : ∀ c ∈ markerBody m p, decide (c ≠ '\n') = true := by
    intro c hc
    simp only [ne_eq, decide_eq_true_eq]
    rintro rfl
    exact newline_not_mem_markerBody m hp hc
  rw [lineMarker_eq, List.append_assoc, List.takeWhile_append_of_pos hbody]
  simp

theorem isLineDirective_lineMarker (m : ℕ) (hp : Quotable p) (rest : Text) :
    Lex.isLineDirective (lineMarker m p ++ rest) = true := by
  rw [← Lex.isLineDirective_takeWhile, takeWhile_lineMarker m hp]
  refine (parseMarker_isSome_iff.1 ?_).1
  rw [parseMarker_markerBody m hp]
  rfl

end Text

/-! ## The round trip -/

/-- What a marker for line `m` of `p` needs of the text in front of it. -/
structure MarkerFits (out : Text) (m : ℕ) (p : Text) : Prop where
  number : m < 2 ^ 32
  name : Quotable p
  lineStart : AtLineStart out
  code : Lex.Mode.read ⟨.code, true⟩ out.length out = ⟨.code, true⟩

/-- Every directive of the text begins its line, with a blank behind the
word. -/
def PlainDirectives (t : Text) : Prop :=
  ∀ o, Lex.DirectiveAt ⟨.code, true⟩ t o →
    AtLineStart (t.take o) ∧ (t.drop o)[5]? = some ' '

section RoundTrip

variable {b : Buffer} {pre rest p : Text} {m : ℕ}

/-- **A marker is read back** by the lexer and by the replay exactly if it
fits where it is written. -/
theorem read_back_iff (hb : b.lineOverrides = markersFrom 0 (splitLines b.bytes))
    (hout : b.bytes = pre ++ (lineMarker m p ++ rest)) :
    (TokenAt b.bytes pre.length (pre.length + (markerBody m p).length) ∧
      Replayed b pre.length m p) ↔ MarkerFits pre m p := by
  have hdrop : b.bytes.drop pre.length = lineMarker m p ++ rest := by
    rw [hout, List.drop_left]
  have htake : b.bytes.take pre.length = pre := by
    rw [hout, List.take_left]
  constructor
  · rintro ⟨htok, hrep⟩
    have hstart := ((replayed_iff hb).1 hrep).1
    rw [htake] at hstart
    refine ⟨hrep.lt, hrep.quotable, hstart, ?_⟩
    have hread := (tokenAt_iff.1 htok).1.1
    rwa [hout, Lex.read_append_of_atLineStart hstart] at hread
  · rintro ⟨hlt, hp, hstart, hread⟩
    have hbody := takeWhile_lineMarker m hp rest
    refine ⟨tokenAt_iff.2 ⟨⟨?_, ?_⟩, ?_⟩, (replayed_iff hb).2 ⟨?_, m, ?_, ?_⟩⟩
    · rw [hout, Lex.read_append_of_atLineStart hstart, hread]
    · rw [hdrop, isLineDirective_lineMarker m hp]
    · rw [hdrop, hbody]
    · rw [htake]
      exact hstart
    · rw [hdrop, hbody, parseMarker_markerBody m hp, Nat.mod_eq_of_lt hlt]
    · exact Nat.mod_eq_of_lt hlt

/-- **Line markers round-trip exactly if** each is written at the begin of
a line, in code where no token stands in front, for a line below `2 ^ 32`
of a file whose name has no quote and no newline, and no other text of
the output looks like a marker to the lexer alone. -/
theorem markersRoundTrip_iff (env : Env) (path : Text) (s : State) :
    MarkersRoundTrip env path s ↔
      ∀ n b, (runState env n s).succeeded = true →
        replay (runState env n s).sm path (runState env n s).output = some b →
          (∀ i m p, marker? env (runState env i s) = some (m, p) →
            MarkerFits (runState env i s).output m p) ∧ PlainDirectives b.bytes := by
  constructor
  · intro h n b hrun hreplay
    have hb : b.lineOverrides = markersFrom 0 (splitLines b.bytes) := by
      rw [replay_some hreplay]
    refine ⟨?_, ?_⟩
    · intro i m p hm
      obtain ⟨⟨rest, hout⟩, -⟩ := output_eq_of_marker? hrun hm
      have hbytes : b.bytes = (runState env i s).output ++ (lineMarker m p ++ rest) := by
        rw [replay_some hreplay, hout]
      have hkept := h.kept n b hrun hreplay i m p hm
      exact (read_back_iff hb hbytes).1 ⟨hkept.token, hkept.replayed⟩
    · intro o hd
      exact (exists_replayed_iff hb hd.2).1 (h.known n b hrun hreplay o _ (tokenAt_iff.2 ⟨hd, rfl⟩))
  · intro h
    constructor
    · intro n b hrun hreplay i m p hm
      have hb : b.lineOverrides = markersFrom 0 (splitLines b.bytes) := by
        rw [replay_some hreplay]
      obtain ⟨⟨rest, hout⟩, hrec⟩ := output_eq_of_marker? hrun hm
      have hbytes : b.bytes = (runState env i s).output ++ (lineMarker m p ++ rest) := by
        rw [replay_some hreplay, hout]
      have hfits := (h n b hrun hreplay).1 i m p hm
      obtain ⟨htok, hrep⟩ := (read_back_iff hb hbytes).2 hfits
      refine ⟨htok, hrep, ?_⟩
      intro fid off hactive
      have := hrec fid off hactive
      rwa [Nat.mod_eq_of_lt hfits.number] at this
    · intro n b hrun hreplay o e htok
      have hb : b.lineOverrides = markersFrom 0 (splitLines b.bytes) := by
        rw [replay_some hreplay]
      have hd := (tokenAt_iff.1 htok).1
      exact (exists_replayed_iff hb hd.2).2 ((h n b hrun hreplay).2 o hd)

end RoundTrip

/-- An included file whose last line has no newline. -/
def unterminatedFile : SourceText := ⟨"x".toList, by decide⟩

/-- The run that includes it. -/
def unterminatedRun (i : ℕ) : State :=
  runState (includeEnv unterminatedFile) i (initial "f.nsl".toList includingFile [])

/-- The marker for the end of the file is glued to its last line, and
read by nobody. -/
theorem not_markersRoundTrip_includingFile :
    ¬ MarkersRoundTrip (includeEnv unterminatedFile) "f.nsl".toList
      (initial "f.nsl".toList includingFile []) := by
  intro h
  have hrun : (unterminatedRun 6).succeeded = true := by decide +kernel
  have hreplay : replay (unterminatedRun 6).sm "f.nsl".toList (unterminatedRun 6).output =
      some ⟨"f.nsl".toList, (unterminatedRun 6).output,
        markersFrom 0 (splitLines (unterminatedRun 6).output)⟩ :=
    replay_eq (by decide +kernel) (by decide +kernel)
  have hkept := h.kept 6 _ hrun hreplay 2 2 "f.nsl".toList (by decide +kernel)
  exact absurd ((replayed_iff rfl).1 hkept.replayed).1 (by decide +kernel)

end Driver

end Nslc
