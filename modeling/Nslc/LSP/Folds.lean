import Nslc.Common.Brackets
import Nslc.Lex.Pieces
import Nslc.LSP.Folding
/-!
# LSP — the ranges that fold

The ranges of a text are its pairs of braces and its closed block
comments, each where it spans more than one line. The walk of
`buildFoldingRanges` finds them as long as it cuts the text as the lexer
does and counts its lines: it goes on behind the line of an unterminated
string, it takes an unterminated comment for a closed one and reads its
last byte, and it does not count an escaped newline.
-/

namespace Nslc

namespace Lex.Piece

def bracket : Piece → Bracket
  | .char c => if c = '{' then .opener else if c = '}' then .closer else .other
  | _ => .other

def isClosedComment : Piece → Bool
  | .blockComment _ closed => closed
  | _ => false

/-- A string over more than one line. -/
def escapesLine : Piece → Bool
  | .string text _ => text.contains '\n'
  | _ => false

/-- The newlines the walk counts in a piece. -/
def counted : Piece → ℕ
  | .char c => if c = '\n' then 1 else 0
  | .blockComment text _ => text.count '\n'
  | _ => 0

end Lex.Piece

namespace LSP

open Nslc.Lex

/-! ## The ranges of a text -/

/-- What may fold: from in front of the piece `opens` to in front of the
piece `closes`. -/
structure Span where
  opens : ℕ
  closes : ℕ
  isComment : Bool

/-- A pair of matching braces. -/
def pairSpan (p : ℕ × ℕ) : Span := ⟨p.1, p.2, false⟩

/-- A block comment, whose closing mark has no newline. -/
def commentSpan (i : ℕ) : Span := ⟨i, i + 1, true⟩

/-- The pairs of matching braces and the closed block comments. -/
def spans (ps : List Piece) : List Span :=
  (Bracket.pairs Piece.bracket ps).map pairSpan ++
    (ps.findIdxs Piece.isClosedComment).map commentSpan

/-- The range of a span that goes over more than one line, the line in
front of each piece being given. -/
def Span.record? (line : ℕ → ℕ) (s : Span) : Option FoldingRecord :=
  if line s.opens < line s.closes then some ⟨line s.opens, line s.closes, s.isComment⟩ else none

/-- The newlines in front of a piece. -/
def lineOf (ps : List Piece) (k : ℕ) : ℕ := ((ps.take k).flatMap Piece.text).count '\n'

/-- The folding ranges of a text. -/
def foldingRanges (source : Text) : List FoldingRecord :=
  (spans (pieces source)).filterMap (Span.record? (lineOf (pieces source)))

/-- **Folding ranges are exact**: the array has the ranges of the text,
in the order of their lines. -/
def FoldsExactly (source : Text) : Prop :=
  ∃ rs : List FoldingRecord, buildFoldingRanges source = .array (rs.map FoldingRecord.toJson) ∧
    rs.Perm (foldingRanges source) ∧ rs.Pairwise fun r r' => r.le r'

/-! ## The condition -/

/-- Every block comment is closed, and every string but one that ends
the text. -/
def terminated : List Piece → Bool
  | [] => true
  | .blockComment _ closed :: ps => closed && terminated ps
  | .string _ closed :: ps => (closed || ps.isEmpty) && terminated ps
  | _ :: ps => terminated ps

/-- No string in front of the piece `k` has an escaped newline. -/
def Unescaped (ps : List Piece) (k : ℕ) : Prop := ∀ p ∈ ps.take k, p.escapesLine = false

instance (ps : List Piece) (k : ℕ) : Decidable (Unescaped ps k) :=
  inferInstanceAs (Decidable (∀ p ∈ ps.take k, p.escapesLine = false))

/-! ## The walk over pieces -/

/-- The line the walk has in front of a piece. -/
def countedOf (ps : List Piece) (k : ℕ) : ℕ := ((ps.take k).map Piece.counted).sum

/-- The records of the walk, the open braces being those of the pieces in
`stack`. -/
def emitted (line : ℕ → ℕ) (stack : List ℕ) (k : ℕ) (ps : List Piece) : List FoldingRecord :=
  match ps with
  | [] => []
  | p :: ps =>
    match p.bracket with
    | .opener => emitted line (k :: stack) (k + 1) ps
    | .closer =>
      (stack.head?.bind fun i => (pairSpan (i, k)).record? line).toList ++
        emitted line stack.tail (k + 1) ps
    | .other =>
      (if p.isClosedComment then (commentSpan k).record? line else none).toList ++
        emitted line stack (k + 1) ps

/-! ### One turn and one piece -/

theorem skipBlock_of_closed {t : Text} (h : (takeBlock t).closed = true) (line : ℕ) :
    Scan.skipBlock line t =
      (line + (takeBlock t).copied.count '\n', (takeBlock t).rest) := by
  fun_induction takeBlock t generalizing line with
  | case1 => cases h
  | case2 c => cases h
  | case3 c d ds hcd =>
    obtain ⟨rfl, rfl⟩ := hcd
    rfl
  | case4 c d ds hcd ih =>
    have hstep : Scan.skipBlock line (c :: d :: ds) =
        Scan.skipBlock (if c = '\n' then line + 1 else line) (d :: ds) := by
      rw [Scan.skipBlock]
      intro hc
      exact fun hd => hcd ⟨hc, hd⟩
    rw [hstep, ih h, List.count_cons]
    by_cases hc : c = '\n'
    · simp only [hc, if_pos, beq_self_eq_true]
      rw [Nat.add_assoc, Nat.add_comm 1]
    · simp [hc]

/-- A string ends as the lexer has it, where it is closed or ends the
text. -/
theorem skipString_of_ended {t : Text}
    (h : (stringBody t).2 = true ∨ t.drop (stringBody t).1 = []) (line : ℕ) :
    Scan.skipString line t = (line, t.drop (stringBody t).1) := by
  fun_induction stringBody t with
  | case1 => rfl
  | case2 cs => simp [Scan.skipString]
  | case3 cs hq => simp at h
  | case4 hq hn => rfl
  | case5 hq hn d ds ih =>
    rw [Nat.add_comm 2] at h ⊢
    exact ih h
  | case6 c cs hquote hnewline hback ih =>
    rw [Nat.add_comm 1] at h ⊢
    have hskip : Scan.skipString line (c :: cs) = Scan.skipString line cs := by
      rw [Scan.skipString]
      · rw [if_neg hnewline]
      · exact fun d ds hc _ => hback hc
      · exact hquote
    rw [hskip, ih h, List.drop_succ_cons]

theorem step_char {s : Scan} {c : Char} {cs : Text} (h : s.rest = c :: cs) (hquote : c ≠ '"')
    (hslash : c = '/' → cs.head? ≠ some '/' ∧ cs.head? ≠ some '*') :
    s.step false =
      if c = '\n' then { s with rest := cs, line := s.line + 1 }
      else if c = '{' then { s with rest := cs, braceStack := s.line :: s.braceStack }
      else if c = '}' then
        { s with
          rest := cs
          braceStack := s.braceStack.tail
          records := match s.braceStack with
            | [] => s.records
            | startLine :: _ => Scan.fold s.records startLine s.line false
          interrupted := false }
      else { s with rest := cs } := by
  unfold Scan.step
  rw [h]
  split <;> simp_all
  cases s.braceStack <;> rfl

theorem fold_eq (records : List FoldingRecord) (a b : ℕ) (isComment : Bool) :
    Scan.fold records a b isComment = records ++ Scan.fold [] a b isComment := by
  unfold Scan.fold
  split <;> simp

/-- The walker behind a piece. -/
structure Takes (s s' : Scan) (p : Piece) (rest : Text) : Prop where
  rest : s'.rest = rest
  line : s'.line = s.line + p.counted
  braceStack : s'.braceStack =
    match p.bracket with
    | .opener => s.line :: s.braceStack
    | .closer => s.braceStack.tail
    | .other => s.braceStack
  records : s'.records = s.records ++
    match p.bracket with
    | .opener => []
    | .closer => (s.braceStack.head?.map fun l => Scan.fold [] l s.line false).getD []
    | .other => if p.isClosedComment then Scan.fold [] s.line s'.line true else []

/-- **One turn takes a piece**, if it is none that ends too early. -/
theorem step_takes {s : Scan} {t rest : Text} {p : Piece} (hrest : s.rest = t)
    (h : Cut t p rest) (hterm : terminated (p :: pieces rest) = true) :
    Takes s (s.step false) p rest := by
  cases h with
  | lineComment ds =>
    have hstep : s.step false = { s with rest := ds.dropWhile (· ≠ '\n') } := by
      rw [Scan.step, hrest]
      rfl
    rw [hstep]
    exact ⟨rfl, rfl, rfl, (List.append_nil _).symm⟩
  | closedComment ds hclosed =>
    have hblock := skipBlock_of_closed hclosed s.line
    have hstep : s.step false =
        { s with
          rest := (takeBlock ds).rest
          line := s.line + (takeBlock ds).copied.count '\n'
          records := Scan.fold s.records s.line
            (s.line + (takeBlock ds).copied.count '\n') true } := by
      rw [Scan.step, hrest]
      simp only [hblock]
    have hcounted : (Piece.blockComment ('/' :: '*' :: (takeBlock ds).copied) true).counted =
        (takeBlock ds).copied.count '\n' := by
      simp [Piece.counted]
    rw [hstep]
    exact ⟨rfl, by rw [hcounted], rfl, fold_eq _ _ _ _⟩
  | openComment ds hopen => cases hterm
  | string cs =>
    have hended : (stringBody cs).2 = true ∨ cs.drop (stringBody cs).1 = [] := by
      rw [terminated, Bool.and_eq_true, Bool.or_eq_true, List.isEmpty_iff, pieces_eq_nil] at hterm
      exact hterm.1
    have hstep : s.step false = { s with rest := cs.drop (stringBody cs).1 } := by
      rw [Scan.step, hrest]
      simp only [skipString_of_ended hended]
    rw [hstep]
    exact ⟨rfl, rfl, rfl, (List.append_nil _).symm⟩
  | char c cs hquote hslash =>
    rw [step_char hrest hquote hslash]
    split
    · rename_i hc
      subst hc
      exact ⟨rfl, rfl, rfl, (List.append_nil _).symm⟩
    · rename_i hnewline
      have hcounted : (Piece.char c).counted = 0 := if_neg hnewline
      split
      · rename_i hc
        subst hc
        exact ⟨rfl, rfl, rfl, (List.append_nil _).symm⟩
      · rename_i hopen
        split
        · rename_i hc
          subst hc
          refine ⟨rfl, rfl, rfl, ?_⟩
          show _ = s.records ++ (s.braceStack.head?.map _).getD []
          cases s.braceStack with
          | nil => exact (List.append_nil _).symm
          | cons l ls => exact fold_eq _ _ _ _
        · rename_i hclose
          have hother : (Piece.char c).bracket = .other := by
            rw [Piece.bracket, if_neg hopen, if_neg hclose]
          refine ⟨rfl, by rw [hcounted]; rfl, by rw [hother], ?_⟩
          rw [hother]
          exact (List.append_nil _).symm

/-! ### The whole walk -/

theorem countedOf_concat {whole pre ps : List Piece} {p : Piece} (h : whole = pre ++ p :: ps) :
    countedOf whole (pre.length + 1) = countedOf whole pre.length + p.counted := by
  have htake : whole.take (pre.length + 1) = pre ++ [p] := by
    rw [h, List.take_length_add_append]
    rfl
  have htake' : whole.take pre.length = pre := by simp [h]
  rw [countedOf, countedOf, htake, htake', List.map_append, List.sum_append]
  simp

theorem record?_toList (line : ℕ → ℕ) (s : Span) :
    (s.record? line).toList = Scan.fold [] (line s.opens) (line s.closes) s.isComment := by
  unfold Span.record? Scan.fold
  split <;> rfl

/-- **The walk over a terminated text** leaves the records of its
pieces. -/
theorem records_finish {whole pre : List Piece} {stack : List ℕ} {s : Scan}
    (hwhole : whole = pre ++ pieces s.rest) (hterm : terminated (pieces s.rest) = true)
    (hline : s.line = countedOf whole pre.length)
    (hstack : s.braceStack = stack.map (countedOf whole)) :
    s.finish.records =
      s.records ++ emitted (countedOf whole) stack pre.length (pieces s.rest) := by
  induction hn : s.rest.length using Nat.strong_induction_on generalizing s pre stack with
  | _ n ih =>
    cases hrest : s.rest with
    | nil => rw [Scan.finish_of_rest_nil hrest, pieces_nil, emitted, List.append_nil]
    | cons c cs =>
      have hcut := cut_cutPiece c cs
      rw [hrest, pieces_cons] at hterm hwhole
      have htakes := step_takes hrest hcut hterm
      have hcount := countedOf_concat hwhole
      have hrest' : terminated (pieces (cutPiece c cs).2) = true := by
        revert hterm
        cases (cutPiece c cs).1 <;> simp +contextual [terminated]
      have hlt := length_cutPiece_lt c cs
      -- the rest of the walk, from the stack the piece leaves
      have hgo : ∀ stack', (s.step false).braceStack = stack'.map (countedOf whole) →
          s.finish.records = (s.step false).records ++
            emitted (countedOf whole) stack' (pre.length + 1) (pieces (cutPiece c cs).2) := by
        intro stack' hstack'
        have hlen : (pre ++ [(cutPiece c cs).1]).length = pre.length + 1 := by simp
        have hsplit : whole = (pre ++ [(cutPiece c cs).1]) ++ pieces (s.step false).rest := by
          rw [htakes.rest, hwhole, List.append_assoc, List.singleton_append]
        have hgo := ih _ (by rw [← hn, htakes.rest, hrest]; exact hlt) hsplit
          (by rw [htakes.rest]; exact hrest')
          (by rw [htakes.line, hline, hlen, hcount]) hstack' rfl
        rw [Scan.finish_step, htakes.rest, hlen] at hgo
        exact hgo
      have hrecords := htakes.records
      have hbraces := htakes.braceStack
      have hlines : (s.step false).line = countedOf whole (pre.length + 1) := by
        rw [htakes.line, hline, hcount]
      rw [pieces_cons, emitted]
      cases hbracket : (cutPiece c cs).1.bracket with
      | opener =>
        simp only [hbracket, List.append_nil] at hrecords hbraces ⊢
        rw [hgo (pre.length :: stack) (by rw [hbraces, hline, hstack]; rfl), hrecords]
      | closer =>
        simp only [hbracket] at hrecords hbraces ⊢
        rw [hgo stack.tail (by rw [hbraces, hstack, List.map_tail]), hrecords, hstack, hline,
          List.append_assoc]
        cases stack with
        | nil => rfl
        | cons i stack => simp [record?_toList, pairSpan]
      | other =>
        simp only [hbracket] at hrecords hbraces ⊢
        rw [hgo stack (by rw [hbraces, hstack]), hrecords, hlines, hline, List.append_assoc]
        cases (cutPiece c cs).1.isClosedComment with
        | true => simp [record?_toList, commentSpan]
        | false => rfl

/-! ### The records are the ranges -/

theorem emitted_perm (line : ℕ → ℕ) (stack : List ℕ) (k : ℕ) (ps : List Piece) :
    (emitted line stack k ps).Perm
      (((Bracket.stackPairs Piece.bracket stack k ps).map pairSpan ++
        (ps.findIdxs Piece.isClosedComment k).map commentSpan).filterMap
          (Span.record? line)) := by
  induction ps generalizing stack k with
  | nil => exact List.Perm.refl _
  | cons p ps ih =>
    rw [emitted, Bracket.stackPairs, List.findIdxs_cons]
    cases hbracket : p.bracket with
    | opener =>
      have hno : p.isClosedComment = false := by
        cases p <;> simp_all [Piece.bracket, Piece.isClosedComment]
      rw [hno]
      exact ih _ _
    | closer =>
      have hno : p.isClosedComment = false := by
        cases p <;> simp_all [Piece.bracket, Piece.isClosedComment]
      rw [hno]
      cases stack with
      | nil => exact ih _ _
      | cons i stack =>
        simp only [List.head?_cons, Option.bind_some, Option.map_some, Option.toList_some,
          List.map_cons, List.cons_append, List.filterMap_cons, List.tail_cons, Bool.false_eq_true,
          if_false]
        cases (pairSpan (i, k)).record? line with
        | none => exact ih _ _
        | some r => exact (ih _ _).cons r
    | other =>
      cases p.isClosedComment with
      | false => exact ih _ _
      | true =>
        have hgo := ih stack (k + 1)
        simp only [if_true, List.map_cons, List.filterMap_append, List.filterMap_cons] at hgo ⊢
        cases (commentSpan k).record? line with
        | none => exact hgo
        | some r => exact (hgo.cons r).trans List.perm_middle.symm

theorem records_perm {source : Text} (h : terminated (pieces source) = true) :
    (Scan.start source).finish.records.Perm
      ((spans (pieces source)).filterMap (Span.record? (countedOf (pieces source)))) := by
  have hrecords := @records_finish (pieces source) [] [] (Scan.start source) rfl h rfl rfl
  rw [hrecords]
  refine (emitted_perm _ [] 0 _).trans (List.Perm.filterMap _ ?_)
  exact ((Bracket.stackPairs_perm _).map _).append_right _

/-! ## Lines that are not counted -/

/-- The newlines the walk does not count in a piece. -/
def uncounted : Piece → ℕ
  | .string text _ | .lineComment text => text.count '\n'
  | _ => 0

def uncountedOf (ps : List Piece) (k : ℕ) : ℕ := ((ps.take k).map uncounted).sum

theorem lineOf_eq (ps : List Piece) (k : ℕ) : lineOf ps k = countedOf ps k + uncountedOf ps k := by
  rw [lineOf, countedOf, uncountedOf]
  induction ps.take k with
  | nil => rfl
  | cons p ps ih =>
    have hone : p.text.count '\n' = p.counted + uncounted p := by
      cases p with
      | char c =>
        show [c].count '\n' = (if c = '\n' then 1 else 0) + 0
        rw [List.count_singleton]
        simp
      | lineComment text => exact (Nat.zero_add _).symm
      | blockComment text closed => rfl
      | string text closed => exact (Nat.zero_add _).symm
    rw [List.flatMap_cons, List.count_append, ih, hone, List.map_cons, List.map_cons,
      List.sum_cons, List.sum_cons]
    omega

theorem uncountedOf_mono (ps : List Piece) : Monotone (uncountedOf ps) := by
  intro k k' h
  rw [uncountedOf, uncountedOf]
  have hsub : (ps.take k).Sublist (ps.take k') := (List.take_prefix_take_left h).sublist
  exact (hsub.map uncounted).sum_le_sum fun _ _ => Nat.zero_le _

/-- A line comment ends in front of the newline. -/
theorem not_mem_of_lineComment {t text : Text} (h : Piece.lineComment text ∈ pieces t) :
    '\n' ∉ text := by
  induction hn : t.length using Nat.strong_induction_on generalizing t with
  | _ n ih =>
    cases t with
    | nil => cases h
    | cons c cs =>
      rw [pieces_cons] at h
      rcases List.mem_cons.1 h with heq | h
      · have hcut := cut_cutPiece c cs
        rw [← heq] at hcut
        cases hcut with
        | lineComment ds =>
          intro hmem
          simp only [List.mem_cons, Char.reduceEq, false_or] at hmem
          have := List.mem_takeWhile_imp hmem
          simp at this
      · exact ih _ (hn ▸ length_cutPiece_lt c cs) h rfl

theorem uncountedOf_eq_zero (source : Text) (k : ℕ) :
    uncountedOf (pieces source) k = 0 ↔ Unescaped (pieces source) k := by
  rw [uncountedOf, List.sum_eq_zero_iff, Unescaped]
  simp only [List.mem_map, forall_exists_index, and_imp, forall_apply_eq_imp_iff₂]
  refine forall₂_congr fun p hp => ?_
  cases p with
  | char c => simp [uncounted, Piece.escapesLine]
  | blockComment text closed => simp [uncounted, Piece.escapesLine]
  | lineComment text =>
    have := not_mem_of_lineComment (List.mem_of_mem_take hp)
    simp [uncounted, Piece.escapesLine, List.count_eq_zero, this]
  | string text closed => simp [uncounted, Piece.escapesLine, List.count_eq_zero]

/-! ## Two counts of lines -/

section Counts

variable {line counted extra : ℕ → ℕ}

/-- The last lines of the ranges, added up. -/
theorem sum_endLine (f : ℕ → ℕ) (ss : List Span) :
    ((ss.filterMap (Span.record? f)).map FoldingRecord.endLine).sum =
      (ss.map fun s => if f s.opens < f s.closes then f s.closes else 0).sum := by
  induction ss with
  | nil => rfl
  | cons s ss ih =>
    rw [List.filterMap_cons, List.map_cons, List.sum_cons, ← ih, Span.record?]
    split
    · rename_i hnone
      split at hnone
      · cases hnone
      · rename_i hlt
        rw [if_neg hlt, Nat.zero_add]
    · rename_i r hsome
      split at hsome
      · rename_i hlt
        obtain rfl := Option.some.inj hsome
        rw [if_pos hlt, List.map_cons, List.sum_cons]
      · cases hsome

/-- **A count that falls behind** gives the same ranges only as long as it
has not. -/
theorem records_perm_iff (hline : ∀ k, line k = counted k + extra k) (hmono : Monotone extra)
    {ss : List Span} (hss : ∀ s ∈ ss, s.opens ≤ s.closes) :
    (ss.filterMap (Span.record? counted)).Perm (ss.filterMap (Span.record? line)) ↔
      ∀ s ∈ ss, line s.opens < line s.closes → extra s.closes = 0 := by
  constructor
  · intro hperm s hs hlt
    by_contra hne
    have hsum := (hperm.map FoldingRecord.endLine).sum_eq
    rw [sum_endLine, sum_endLine] at hsum
    refine absurd hsum (Nat.ne_of_lt (List.sum_lt_sum _ _ ?_ ⟨s, hs, ?_⟩))
    · intro s hs
      have hle := hmono (hss s hs)
      have hopens := hline s.opens
      have hcloses := hline s.closes
      split <;> split <;> omega
    · have hcloses := hline s.closes
      rw [if_pos hlt]
      split <;> omega
  · intro h
    have hsame : ss.filterMap (Span.record? counted) = ss.filterMap (Span.record? line) := by
      refine List.filterMap_congr fun s hs => ?_
      have hle := hmono (hss s hs)
      have hopens := hline s.opens
      have hcloses := hline s.closes
      by_cases hlt : line s.opens < line s.closes
      · have hzero := h s hs hlt
        have ho : counted s.opens = line s.opens := by omega
        have hc : counted s.closes = line s.closes := by omega
        rw [Span.record?, Span.record?, ho, hc]
      · rw [Span.record?, Span.record?, if_neg hlt, if_neg (by omega)]
    rw [hsame]

end Counts

/-! ## The array -/

theorem toJson_injective : Function.Injective FoldingRecord.toJson := by
  rintro ⟨a, b, isComment⟩ ⟨a', b', isComment'⟩ h
  cases isComment <;> cases isComment' <;> simp_all [FoldingRecord.toJson]

theorem le_trans (r s t : FoldingRecord) (h : r.le s = true) (h' : s.le t = true) :
    r.le t = true := by
  simp only [FoldingRecord.le, Bool.or_eq_true, Bool.and_eq_true, decide_eq_true_eq,
    beq_iff_eq] at *
  omega

theorem le_total (r s : FoldingRecord) : (r.le s || s.le r) = true := by
  simp only [FoldingRecord.le, Bool.or_eq_true, Bool.and_eq_true, decide_eq_true_eq, beq_iff_eq]
  omega

/-- The sort leaves only the question which records there are. -/
theorem foldsExactly_iff_perm (source : Text) :
    FoldsExactly source ↔ (Scan.start source).finish.records.Perm (foldingRanges source) := by
  have hsort := List.mergeSort_perm (Scan.start source).finish.records FoldingRecord.le
  constructor
  · rintro ⟨rs, hrs, hperm, -⟩
    have hmap := List.map_injective_iff.2 toJson_injective (Json.array.inj hrs)
    rw [← hmap] at hperm
    exact hsort.symm.trans hperm
  · exact fun h => ⟨_, rfl, hsort.trans h, List.pairwise_mergeSort le_trans le_total _⟩

theorem opens_le_closes {ps : List Piece} {s : Span} (h : s ∈ spans ps) : s.opens ≤ s.closes := by
  rcases List.mem_append.1 h with h | h
  · obtain ⟨⟨i, j⟩, hmem, rfl⟩ := List.mem_map.1 h
    exact (Bracket.mem_pairs.1 hmem).1.le
  · obtain ⟨i, -, rfl⟩ := List.mem_map.1 h
    exact Nat.le_succ i

/-- A closed string with an escaped newline. -/
example : ¬ FoldsExactly "\"\\\n\"\n\x7b\n\x7d".toList := by
  rw [foldsExactly_iff_perm]
  decide +kernel

/-- An unterminated comment whose last byte closes a brace. -/
example : ¬ FoldsExactly "\x7b\n/*\x7d".toList := by
  rw [foldsExactly_iff_perm]
  decide +kernel

end LSP

end Nslc
