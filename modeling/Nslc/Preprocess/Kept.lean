import Nslc.Preprocess.LineCount
/-!
# Preprocessor — the bytes a file keeps

A file without `#include` and `#line` directives and without `%NAME%`
references is copied: of each line the text, where it is passthrough in
a selected branch, and the newline always. `origins` says where in the
file each byte of the output stood (`output_origins`), and every offset
of the output is at the column of its origin, on the line of the same
number (`sameColumn`).
-/

namespace Nslc

namespace Preprocess

/-! ## Lines written out -/

section Written

variable {ls : List Line} {l : Line}

theorem atLineStart_flatMap_bytes (h : ∀ l ∈ ls, l.newline = true) :
    AtLineStart (ls.flatMap Line.bytes) := by
  obtain rfl | ⟨ms, m, rfl⟩ := ls.eq_nil_or_concat'
  · exact .inl rfl
  · have hm : m.bytes = m.body ++ ['\n'] := by
      rw [Line.bytes, Line.term, h m (by simp), if_pos rfl]
    rw [List.flatMap_append, List.flatMap_singleton, hm]
    exact atLineStart_append _ _

/-- A line in front of a text is its first line. -/
theorem takeLine_bytes_append (hb : '\n' ∉ l.body) {r : Text} (hr : l.newline = false → r = []) :
    takeLine (l.bytes ++ r) = (l, r) := by
  obtain ⟨b, n⟩ := l
  cases n with
  | true =>
    rw [Line.bytes, Line.term, if_pos rfl, List.append_assoc]
    exact takeLine_append hb
  | false =>
    obtain rfl := hr rfl
    simp only [Line.bytes, Line.term, List.append_nil, Bool.false_eq_true, if_false]
    clear hr
    induction b with
    | nil => rfl
    | cons c cs ih =>
      simp only [List.mem_cons, not_or] at hb
      have hc : ¬ c = '\n' := fun h => hb.1 h.symm
      simp [takeLine, hc, ih hb.2]

/-- A text in front of line `k` and from there on. -/
theorem splitLines_take_drop (t : Text) (k : ℕ) :
    t = ((splitLines t).take k).flatMap Line.bytes ++ ((splitLines t).drop k).flatMap Line.bytes ∧
      (((splitLines t).take k).flatMap Line.bytes).length = lineOffset t k := by
  refine ⟨?_, by simp [lineOffset, bytesLength, List.length_flatMap]⟩
  rw [← List.flatMap_append, List.take_append_drop, List.flatMap_def, flatten_splitLines]

end Written

/-! ## What is kept -/

/-- What a line leaves in the output: its text, if it is passthrough in
a selected branch, and its newline. -/
def keptLine (emitting : Bool) (l : Line) : Line :=
  ⟨if emitting ∧ lineDirective l = .passthrough then stripCR l.body else [], l.newline⟩

/-- The offsets of these bytes, the line beginning at `base`. -/
def keptOffsets (emitting : Bool) (base : ℕ) (l : Line) : List ℕ :=
  List.range' base (keptLine emitting l).body.length ++
    if l.newline then [base + l.body.length] else []

section Run

variable (env : Env) (path : Text) (input : SourceText)

/-- Line `k` stands in a selected branch. -/
def selectedAt (k : ℕ) : Bool :=
  ((stateAt env path input [] k).includeStack.head?.map fun f => isEmitting f.condStack).getD false

def lineAt (k : ℕ) : Line := ((splitLines input.text)[k]?).getD ⟨[], false⟩

def keptAt (k : ℕ) : Line := keptLine (selectedAt env path input k) (lineAt input k)

/-- What the first `n` lines leave. -/
def keptText (n : ℕ) : Text := ((List.range n).map (keptAt env path input)).flatMap Line.bytes

/-- The offsets in the file of the bytes the first `n` lines leave. -/
def originsUpto (n : ℕ) : List ℕ := (List.range n).flatMap fun k =>
  keptOffsets (selectedAt env path input k) (lineOffset input.text k) (lineAt input k)

/-- The offset in the file of each byte of the output. -/
def origins : List ℕ := originsUpto env path input (splitLines input.text).length

/-- The offset an offset of the output came from: that of its byte, and
at the end the one behind the last byte that was kept. -/
def originOf (off : ℕ) : ℕ :=
  ((origins env path input)[off]?).getD
    (((origins env path input).getLast?.map (· + 1)).getD 0)

/-- The file has no `#include` or `#line` directive and no `%NAME%`
reference. -/
structure CopiedText : Prop where
  noIncludes : NoIncludes input
  noLines : ∀ l ∈ splitLines input.text, ∀ operand, lineDirective l ≠ .line operand
  noReferences : ∀ l ∈ splitLines input.text, lineDirective l = .passthrough →
    ∀ pos name, .ref pos name ∉ pieces (stripCR l.body)

end Run

/-- Whether a line is one of these. -/
def copiedLine (l : Line) : Bool :=
  match lineDirective l with
  | .incl _ _ | .line _ => false
  | .passthrough => (pieces (stripCR l.body)).all fun
    | .copied _ => true
    | .ref _ _ => false
  | _ => true

theorem copiedText_iff {input : SourceText} :
    CopiedText input ↔ (splitLines input.text).all copiedLine = true := by
  rw [List.all_eq_true]
  constructor
  · intro h l hl
    have hinc := h.noIncludes l hl
    have hline := h.noLines l hl
    unfold copiedLine
    cases hd : lineDirective l with
    | incl filename isAngle => simp [hd, ParsedDirective.isInclude] at hinc
    | line operand => exact absurd hd (hline operand)
    | passthrough =>
      refine List.all_eq_true.2 fun p hp => ?_
      cases p with
      | copied u => rfl
      | ref pos name => exact absurd hp (h.noReferences l hl hd pos name)
    | _ => rfl
  · intro h
    refine ⟨fun l hl => ?_, fun l hl operand hd => ?_, fun l hl hd pos name hp => ?_⟩
    · have := h l hl
      unfold copiedLine at this
      cases hd : lineDirective l with
      | incl filename isAngle => simp [hd] at this
      | _ => rfl
    · have := h l hl
      simp [copiedLine, hd] at this
    · have := h l hl
      simp only [copiedLine, hd, List.all_eq_true] at this
      exact Bool.noConfusion (this _ hp)

instance (input : SourceText) : Decidable (CopiedText input) :=
  decidable_of_iff _ copiedText_iff.symm

/-! ## Lines are copied -/

theorem flatMap_bytes_piecesUpto (fuel pos : ℕ) (t : Text) (h : t.length < fuel)
    (hno : ∀ p name, .ref p name ∉ piecesUpto fuel pos t) :
    (piecesUpto fuel pos t).flatMap Piece.bytes = t := by
  induction fuel generalizing pos t with
  | zero => omega
  | succ fuel ih =>
    cases t with
    | nil => rfl
    | cons c cs =>
      rw [List.length_cons] at h
      simp only [piecesUpto] at hno ⊢
      split_ifs at hno ⊢ with hq hline hblock hclosed hpct href
      · have heq := takeString_append cs
        have hlen := congrArg List.length heq
        rw [List.length_append] at hlen
        rw [List.flatMap_cons, ih _ _ (by omega) fun p n hp => hno p n (List.mem_cons_of_mem _ hp)]
        simp [Piece.bytes, heq]
      · simp [Piece.bytes]
      · obtain ⟨u, rfl⟩ := List.head?_eq_some_iff.1 hblock.2
        have heq := takeBlock_append u
        have hlen := congrArg List.length heq
        rw [List.length_append] at hlen
        rw [List.length_cons] at h
        simp only [List.tail_cons] at hno ⊢
        rw [List.flatMap_cons, ih _ _ (by omega) fun p n hp => hno p n (List.mem_cons_of_mem _ hp)]
        simp [Piece.bytes, heq, hblock.1]
      · obtain ⟨u, rfl⟩ := List.head?_eq_some_iff.1 hblock.2
        have heq := takeBlock_append u
        simp [Piece.bytes, heq, hblock.1]
      · exact absurd List.mem_cons_self (hno _ _)
      · rw [List.flatMap_cons, ih _ _ (by omega) fun p n hp => hno p n (List.mem_cons_of_mem _ hp)]
        rfl
      · rw [List.flatMap_cons, ih _ _ (by omega) fun p n hp => hno p n (List.mem_cons_of_mem _ hp)]
        rfl

/-- **Without a reference a line is spliced as it is.** -/
theorem splice_eq_self (E : PPExpression) (macros : MacroTable) (loc : SourceLocation) {t : Text}
    (hno : ∀ p name, .ref p name ∉ pieces t) : splice E macros t loc = (t, []) := by
  have hcopied : ∀ p ∈ pieces t, p.spliced E macros loc = (p.bytes, []) := by
    intro p hp
    cases p with
    | copied u => rfl
    | ref pos name => exact absurd hp (hno pos name)
  have htext : splicedText E macros loc (pieces t) = (pieces t).flatMap Piece.bytes :=
    List.flatMap_congr fun p hp => by rw [hcopied p hp]
  have hreports : splicedReports E macros loc (pieces t) = [] :=
    List.flatMap_eq_nil_iff.2 fun p hp => by rw [hcopied p hp]
  rw [splice_eq_pieces, htext, hreports]
  exact congrArg (·, []) (flatMap_bytes_piecesUpto _ 0 t (Nat.lt_succ_self _) hno)

variable {env : Env} {path : Text} {input : SourceText}

theorem CopiedText.not_moves (h : CopiedText input) {l : Line} (hl : l ∈ splitLines input.text)
    (f : Frame) : movesLocation f l = false := by
  have hinc := h.noIncludes l hl
  have hline := h.noLines l hl
  unfold movesLocation
  cases hd : lineDirective l with
  | incl filename isAngle => simp [hd, ParsedDirective.isInclude] at hinc
  | line operand => exact absurd hd (hline operand)
  | _ => simp

/-- What such a line writes is kept of it. -/
theorem CopiedText.lineOut_eq (h : CopiedText input) {l : Line} (hl : l ∈ splitLines input.text)
    (s : State) (f : Frame) : lineOut env s f l = (keptLine (isEmitting f.condStack) l).bytes := by
  have hinc := h.noIncludes l hl
  have hline := h.noLines l hl
  unfold lineOut
  cases hd : lineDirective l with
  | passthrough =>
    have hcopy := splice_eq_self env.expr s.macros f.loc (h.noReferences l hl hd)
    dsimp only
    rw [hcopy]
    cases he : isEmitting f.condStack <;> simp [keptLine, Line.bytes, Line.term, hd]
  | incl filename isAngle => simp [hd, ParsedDirective.isInclude] at hinc
  | line operand => exact absurd hd (hline operand)
  | _ => simp [keptLine, Line.bytes, Line.term, hd]

theorem keptText_succ (env : Env) (path : Text) (input : SourceText) (k : ℕ) :
    keptText env path input (k + 1) =
      keptText env path input k ++ (keptAt env path input k).bytes := by
  simp [keptText, List.range_succ]

/-- **The run keeps what it should**, and registers nothing. -/
theorem CopiedText.stateAt (h : CopiedText input) (env : Env) (path : Text) :
    ∀ k ≤ (splitLines input.text).length,
      ∃ f, StandsAt path input k f (stateAt env path input [] k) ∧
        (Preprocess.stateAt env path input [] k).output = keptText env path input k ∧
        (Preprocess.stateAt env path input [] k).sm = (initial path input []).sm := by
  refine stateAt_inv [] (h.noIncludes.oneFile env path)
    (P := fun k _ s => s.output = keptText env path input k ∧ s.sm = (initial path input []).sm)
    ⟨rfl, rfl⟩ ?_
  rintro k f s l hf hl rfl ⟨hout, hsm⟩
  have hmem : l ∈ splitLines input.text := List.mem_of_getElem? hl
  have hp := plainLine_stepLine_of_not_moves env (Preprocess.stateAt env path input [] k) []
    (h.not_moves hmem f)
  have hkept : keptAt env path input k = keptLine (isEmitting f.condStack) l := by
    simp [keptAt, selectedAt, hf.stack, lineAt, hl]
  refine ⟨?_, hp.sm_eq.trans hsm⟩
  rw [hp.output_eq, hout, h.lineOut_eq hmem, keptText_succ, hkept]

theorem CopiedText.endState (h : CopiedText input) (env : Env) (path : Text) :
    (endState env path input []).output =
        keptText env path input (splitLines input.text).length ∧
      (Preprocess.endState env path input []).sm = (initial path input []).sm ∧
      (Preprocess.endState env path input []).finished = true := by
  obtain ⟨f, hf, hout, hsm⟩ := h.stateAt env path _ (Nat.le_refl _)
  rw [endState_eq hf]
  refine ⟨hout, hsm, ?_⟩
  simp [State.finished, stepEof, State.addDiags, hf.running]

/-! ## Origins -/

section Origins

variable (env path input)

theorem length_keptOffsets (emitting : Bool) (base : ℕ) (l : Line) :
    (keptOffsets emitting base l).length = (keptLine emitting l).bytes.length := by
  rw [keptOffsets, Line.bytes, Line.term, List.length_append, List.length_append,
    List.length_range']
  cases hn : l.newline <;> simp [keptLine, hn]

theorem originsUpto_succ (k : ℕ) : originsUpto env path input (k + 1) =
    originsUpto env path input k ++
      keptOffsets (selectedAt env path input k) (lineOffset input.text k) (lineAt input k) := by
  simp [originsUpto, List.range_succ]

theorem length_originsUpto (k : ℕ) :
    (originsUpto env path input k).length = (keptText env path input k).length := by
  induction k with
  | zero => rfl
  | succ k ih =>
    rw [originsUpto_succ, keptText_succ, List.length_append, List.length_append, ih,
      length_keptOffsets]
    rfl

/-- What is kept of a line begins it. -/
theorem keptLine_body (emitting : Bool) (l : Line) : (keptLine emitting l).body <+: l.body := by
  unfold keptLine stripCR
  split_ifs
  · exact List.dropLast_prefix _
  · exact List.prefix_rfl
  · exact List.nil_prefix

/-- A kept line begins no directive. -/
theorem keptLine_head (emitting : Bool) (l : Line) :
    (keptLine emitting l).body.head? ≠ some '#' := by
  simp only [keptLine]
  split_ifs with h
  · intro hhead
    obtain ⟨cs, hcs⟩ := List.head?_eq_some_iff.1 hhead
    refine classifyLine_hash_ne cs ?_
    rw [← hcs]
    exact h.2
  · simp

/-- The bytes kept of a line, by their offsets. -/
theorem map_keptOffsets {k : ℕ} {l : Line} (hl : (splitLines input.text)[k]? = some l)
    (emitting : Bool) :
    (keptOffsets emitting (lineOffset input.text k) l).map (fun o => input.text[o]?) =
      (keptLine emitting l).bytes.map some := by
  obtain ⟨hsplit, hlen⟩ := splitLines_take_drop input.text k
  have hk : k < (splitLines input.text).length := (List.getElem?_eq_some_iff.1 hl).1
  have hdrop : (splitLines input.text).drop k = l :: (splitLines input.text).drop (k + 1) := by
    rw [List.drop_eq_getElem_cons hk, (List.getElem?_eq_some_iff.1 hl).2]
  rw [hdrop, List.flatMap_cons] at hsplit
  -- a byte of the line, by its distance from the line's begin
  have hbyte : ∀ i < l.bytes.length,
      input.text[lineOffset input.text k + i]? = l.bytes[i]? := by
    intro i hi
    have hget := congrArg (fun u => u[lineOffset input.text k + i]?) hsplit
    rw [hget, ← hlen, List.getElem?_append_right (Nat.le_add_right _ _), Nat.add_sub_cancel_left,
      List.getElem?_append_left hi]
  have hbody : l.body.length ≤ l.bytes.length := by
    rw [Line.bytes, List.length_append]
    exact Nat.le_add_right _ _
  obtain ⟨tail, htail⟩ := keptLine_body emitting l
  rw [keptOffsets, Line.bytes, List.map_append, List.map_append]
  refine congrArg₂ (· ++ ·) ?_ ?_
  · refine List.ext_getElem (by simp) fun i h₁ h₂ => ?_
    simp only [List.length_map, List.length_range'] at h₁
    have hi : i < l.body.length := by
      rw [← htail, List.length_append]
      omega
    simp only [List.getElem_map, List.getElem_range', Nat.one_mul]
    rw [hbyte i (by omega), Line.bytes, List.getElem?_append_left hi, ← htail,
      List.getElem?_append_left h₁, List.getElem?_eq_getElem h₁]
  · cases hn : l.newline with
    | false => simp [Line.term, keptLine, hn]
    | true =>
      have hterm : l.bytes = l.body ++ ['\n'] := by rw [Line.bytes, Line.term, hn, if_pos rfl]
      have hnl := hbyte l.body.length (by rw [hterm]; simp)
      rw [hterm] at hnl
      simp [Line.term, keptLine, hn, hnl]

theorem map_originsUpto {k : ℕ} (hk : k ≤ (splitLines input.text).length) :
    (originsUpto env path input k).map (fun o => input.text[o]?) =
      (keptText env path input k).map some := by
  induction k with
  | zero => rfl
  | succ k ih =>
    have hl : (splitLines input.text)[k]? = some (lineAt input k) := by
      rw [lineAt, List.getElem?_eq_getElem (by omega)]
      rfl
    rw [originsUpto_succ, keptText_succ, List.map_append, List.map_append, ih (by omega),
      map_keptOffsets input hl]
    rfl

/-- What the first `k` lines leave came from in front of line `k`, in
order. -/
theorem originsUpto_sorted {k : ℕ} (hk : k ≤ (splitLines input.text).length) :
    (originsUpto env path input k).Pairwise (· < ·) ∧
      ∀ o ∈ originsUpto env path input k, o < lineOffset input.text k := by
  induction k with
  | zero => exact ⟨.nil, by simp [originsUpto]⟩
  | succ k ih =>
    obtain ⟨hsorted, hbefore⟩ := ih (by omega)
    have hl : (splitLines input.text)[k]? = some (lineAt input k) := by
      rw [lineAt, List.getElem?_eq_getElem (by omega)]
      rfl
    have hbody := (keptLine_body (selectedAt env path input k) (lineAt input k)).length_le
    have hrange : ∀ o ∈ keptOffsets (selectedAt env path input k) (lineOffset input.text k)
        (lineAt input k), lineOffset input.text k ≤ o ∧
          o < lineOffset input.text k + (lineAt input k).bytes.length := by
      intro o ho
      rw [Line.bytes, Line.term, List.length_append]
      rcases List.mem_append.1 ho with ho | ho
      · have := List.mem_range'_1.1 ho
        omega
      · split_ifs at ho ⊢ with hn
        · obtain rfl := List.mem_singleton.1 ho
          simp
        · simp at ho
    rw [originsUpto_succ, lineOffset_succ hl]
    refine ⟨List.pairwise_append.2 ⟨hsorted, ?_, ?_⟩, ?_⟩
    · refine List.pairwise_append.2 ⟨List.pairwise_lt_range', ?_, ?_⟩
      · split_ifs <;> simp
      · intro a ha b hb
        have := List.mem_range'_1.1 ha
        split_ifs at hb
        · obtain rfl := List.mem_singleton.1 hb
          omega
        · simp at hb
    · intro a ha b hb
      have := hbefore a ha
      have := hrange b hb
      omega
    · intro o ho
      rcases List.mem_append.1 ho with ho | ho
      · have := hbefore o ho
        omega
      · exact (hrange o ho).2

variable {env path input}

/-- **Every byte of the output is the byte of the file at its origin**,
and the origins are in order. -/
theorem CopiedText.output_origins (h : CopiedText input) (env : Env) (path : Text) :
    (Preprocess.endState env path input []).output.map some =
        (origins env path input).map (fun o => input.text[o]?) ∧
      (origins env path input).Pairwise (· < ·) := by
  rw [(h.endState env path).1]
  exact ⟨(map_originsUpto env path input (Nat.le_refl _)).symm,
    (originsUpto_sorted env path input (Nat.le_refl _)).1⟩

end Origins

/-! ## Columns -/

/-- Offset `o` of the output and offset `p` of the file, each in column
`c` behind as many whole lines, the output's line a part of the file's. -/
structure SameColumn (out text : Text) (o p c : ℕ) (pre rest pre' rest' : Text) : Prop where
  out_eq : out = pre ++ rest
  text_eq : text = pre' ++ rest'
  atStart : AtLineStart pre
  atStart' : AtLineStart pre'
  offset_eq : o = pre.length + c
  origin_eq : p = pre'.length + c
  count_eq : pre.count '\n' = pre'.count '\n'
  column_le : c ≤ (takeLine rest).1.body.length
  line_eq : (takeLine rest).1.body = [] ∨
    (takeLine rest).1.body = stripCR (takeLine rest').1.body

section Columns

variable (env path input)

theorem getElem?_eq_lineAt {k : ℕ} (hk : k < (splitLines input.text).length) :
    (splitLines input.text)[k]? = some (lineAt input k) := by
  rw [lineAt, List.getElem?_eq_getElem hk]
  rfl

theorem newline_lineAt {k : ℕ} (hk : k < (splitLines input.text).length) :
    '\n' ∉ (lineAt input k).body :=
  body_no_newline_of_mem (List.mem_of_getElem? (getElem?_eq_lineAt input hk))

theorem newline_keptAt {k : ℕ} (hk : k < (splitLines input.text).length) :
    '\n' ∉ (keptAt env path input k).body := fun h =>
  newline_lineAt input hk ((keptLine_body _ _).subset h)

variable {k : ℕ} (hk : k ≤ (splitLines input.text).length)
  (hw : ∀ i < k, (lineAt input i).newline = true)

include hk hw

/-- In front of a line there are whole lines, kept and not. -/
theorem keptText_whole : AtLineStart (keptText env path input k) ∧
    (keptText env path input k).count '\n' = k := by
  have hall : ∀ l ∈ (List.range k).map (keptAt env path input), l.newline = true ∧ '\n' ∉ l.body := by
    intro l hl
    obtain ⟨i, hi, rfl⟩ := List.mem_map.1 hl
    have hik := List.mem_range.1 hi
    exact ⟨hw i hik, newline_keptAt env path input (by omega)⟩
  refine ⟨atLineStart_flatMap_bytes fun l hl => (hall l hl).1, ?_⟩
  rw [keptText, count_flatMap_bytes fun l hl => (hall l hl).2,
    List.countP_eq_length.2 fun l hl => (hall l hl).1, List.length_map, List.length_range]

omit env path in
theorem take_whole : AtLineStart (((splitLines input.text).take k).flatMap Line.bytes) ∧
    (((splitLines input.text).take k).flatMap Line.bytes).count '\n' = k := by
  have hall : ∀ l ∈ (splitLines input.text).take k, l.newline = true ∧ '\n' ∉ l.body := by
    intro l hl
    obtain ⟨i, hi, rfl⟩ := List.mem_iff_getElem.1 hl
    rw [List.length_take] at hi
    have hil := getElem?_eq_lineAt input (by omega : i < (splitLines input.text).length)
    have heq := (List.getElem?_eq_some_iff.1 hil).2
    rw [List.getElem_take, heq]
    exact ⟨hw i (by omega), newline_lineAt input (by omega)⟩
  refine ⟨atLineStart_flatMap_bytes fun l hl => (hall l hl).1, ?_⟩
  rw [count_flatMap_bytes fun l hl => (hall l hl).2,
    List.countP_eq_length.2 fun l hl => (hall l hl).1, List.length_take]
  omega

/-- The last byte of some whole lines is a newline. -/
theorem originsUpto_last : ((originsUpto env path input k).getLast?.map (· + 1)).getD 0 =
    lineOffset input.text k := by
  cases k with
  | zero => rfl
  | succ k =>
    have hnl := hw k (Nat.lt_succ_self k)
    rw [originsUpto_succ, lineOffset_succ (getElem?_eq_lineAt input (by omega)), keptOffsets,
      if_pos hnl, ← List.append_assoc, List.getLast?_concat, Line.bytes, Line.term, if_pos hnl,
      List.length_append, List.length_singleton]
    exact Nat.add_assoc _ _ _

end Columns

variable (env path input) in
/-- A byte that is kept and is no newline stands in a line. -/
theorem originsUpto_getElem? {k : ℕ} (hk : k ≤ (splitLines input.text).length) {o : ℕ}
    (ho : o < (keptText env path input k).length)
    (hnl : (keptText env path input k)[o]? ≠ some '\n') :
    ∃ j < k, ∃ c < (keptAt env path input j).body.length,
      o = (keptText env path input j).length + c ∧
        (originsUpto env path input k)[o]? = some (lineOffset input.text j + c) := by
  induction k with
  | zero => exact absurd ho (Nat.not_lt_zero o)
  | succ k ih =>
    rw [keptText_succ] at ho hnl
    rw [originsUpto_succ]
    rcases Nat.lt_or_ge o (keptText env path input k).length with hlt | hge
    · rw [List.getElem?_append_left hlt] at hnl
      obtain ⟨j, hj, c, hc, heq, horig⟩ := ih (by omega) hlt hnl
      refine ⟨j, by omega, c, hc, heq, ?_⟩
      rw [List.getElem?_append_left (by rw [length_originsUpto]; exact hlt), horig]
    · obtain ⟨c, rfl⟩ := Nat.exists_eq_add_of_le hge
      rw [List.getElem?_append_right hge, Nat.add_sub_cancel_left] at hnl
      rw [List.length_append] at ho
      have hc : c < (keptAt env path input k).body.length := by
        by_contra hle
        have hterm : (keptAt env path input k).bytes[c]? = some '\n' := by
          rw [Line.bytes, Line.term, List.length_append] at ho
          rw [Line.bytes, Line.term, List.getElem?_append_right (by omega)]
          split_ifs at ho ⊢ with hn
          · have hzero : c - (keptAt env path input k).body.length = 0 := by
              simp only [List.length_singleton] at ho
              omega
            rw [hzero]
            rfl
          · simp only [List.length_nil] at ho
            omega
        exact hnl hterm
      refine ⟨k, Nat.lt_succ_self k, c, hc, rfl, ?_⟩
      have hlen := length_originsUpto env path input k
      have hrange : c <
          (keptLine (selectedAt env path input k) (lineAt input k)).body.length := hc
      rw [List.getElem?_append_right (by omega), hlen, Nat.add_sub_cancel_left, keptOffsets,
        List.getElem?_append_left (by rw [List.length_range']; exact hrange),
        List.getElem?_range' hrange, Nat.one_mul]

variable (env path input) in
/-- What is kept from line `k` on. Without a newline it is the last. -/
theorem exists_keptText_tail {k n : ℕ} (hk : k < n) (hn : n ≤ (splitLines input.text).length) :
    ∃ tail, keptText env path input n =
        keptText env path input k ++ ((keptAt env path input k).bytes ++ tail) ∧
      ((lineAt input k).newline = false → tail = []) := by
  induction n, hk using Nat.le_induction with
  | base => exact ⟨[], by rw [keptText_succ, List.append_nil], fun _ => rfl⟩
  | succ n hkn ih =>
    obtain ⟨tail, htail, -⟩ := ih (by omega)
    refine ⟨tail ++ (keptAt env path input n).bytes, ?_, fun hnl => ?_⟩
    · rw [keptText_succ, htail, List.append_assoc, List.append_assoc]
    · have := newline_of_lt (getElem?_eq_lineAt input (by omega : k < _)) (by omega)
      rw [hnl] at this
      cases this

variable (env path input) in
/-- A column kept of line `k`. -/
theorem sameColumn_line {k c : ℕ} (hk : k < (splitLines input.text).length)
    (hc : c ≤ (keptAt env path input k).body.length) :
    ∃ pre rest pre' rest', SameColumn (keptText env path input (splitLines input.text).length)
      input.text ((keptText env path input k).length + c) (lineOffset input.text k + c) c
      pre rest pre' rest' := by
  obtain ⟨tail, hout, hlast⟩ := exists_keptText_tail env path input hk (Nat.le_refl _)
  obtain ⟨htext, hlen⟩ := splitLines_take_drop input.text k
  have hl := getElem?_eq_lineAt input hk
  have hdrop : (splitLines input.text).drop k =
      lineAt input k :: (splitLines input.text).drop (k + 1) := by
    rw [List.drop_eq_getElem_cons hk, (List.getElem?_eq_some_iff.1 hl).2]
  rw [hdrop, List.flatMap_cons] at htext
  have hlast' : (lineAt input k).newline = false →
      ((splitLines input.text).drop (k + 1)).flatMap Line.bytes = [] := by
    intro hnl
    have hall : (splitLines input.text).length ≤ k + 1 := by
      by_contra hlt
      rw [newline_of_lt hl (by omega)] at hnl
      cases hnl
    rw [List.drop_eq_nil_of_le hall]
    rfl
  have hw : ∀ i < k, (lineAt input i).newline = true := fun i hi =>
    newline_of_lt (getElem?_eq_lineAt input (by omega)) (by omega)
  obtain ⟨hstart, hcount⟩ := keptText_whole env path input (by omega) hw
  obtain ⟨hstart', hcount'⟩ := take_whole input (by omega) hw
  have hline := takeLine_bytes_append (newline_keptAt env path input hk) hlast
  have hline' := takeLine_bytes_append (newline_lineAt input hk) hlast'
  refine ⟨_, _, _, _, hout, htext, hstart, hstart', rfl, by rw [hlen], hcount.trans hcount'.symm,
    by rw [hline]; exact hc, ?_⟩
  rw [hline, hline']
  simp only [keptAt, keptLine]
  split_ifs
  · exact .inr rfl
  · exact .inl rfl

/-- **Every offset of the output is in the column of its origin**, on
the line of the same number; a newline may have lost a carriage return
in front of it. -/
theorem CopiedText.sameColumn (h : CopiedText input) (env : Env) (path : Text) {o : ℕ}
    (ho : o ≤ (Preprocess.endState env path input []).output.length)
    (hnl : (Preprocess.endState env path input []).output[o]? ≠ some '\n') :
    ∃ c pre rest pre' rest', SameColumn (Preprocess.endState env path input []).output input.text
      o (originOf env path input o) c pre rest pre' rest' := by
  rw [(h.endState env path).1] at ho hnl ⊢
  have hlen := length_originsUpto env path input (splitLines input.text).length
  rcases Nat.lt_or_ge o (keptText env path input (splitLines input.text).length).length with
    hlt | hge
  · obtain ⟨j, hj, c, hc, rfl, horig⟩ :=
      originsUpto_getElem? env path input (Nat.le_refl _) hlt hnl
    have heq : originOf env path input ((keptText env path input j).length + c) =
        lineOffset input.text j + c := by
      rw [originOf, origins, horig]
      rfl
    rw [heq]
    exact ⟨c, sameColumn_line env path input hj (Nat.le_of_lt hc)⟩
  · obtain rfl := Nat.le_antisymm ho hge
    have heq : originOf env path input
        (keptText env path input (splitLines input.text).length).length =
          ((origins env path input).getLast?.map (· + 1)).getD 0 := by
      rw [originOf, List.getElem?_eq_none (by rw [origins, hlen])]
      rfl
    rw [heq, origins]
    by_cases hw : ∀ i < (splitLines input.text).length, (lineAt input i).newline = true
    · -- behind whole lines both texts are at their end
      obtain ⟨hstart, hcount⟩ := keptText_whole env path input (Nat.le_refl _) hw
      obtain ⟨hstart', hcount'⟩ := take_whole input (Nat.le_refl _) hw
      obtain ⟨htext, hlen'⟩ := splitLines_take_drop input.text (splitLines input.text).length
      rw [List.drop_length, List.flatMap_nil] at htext
      refine ⟨0, _, [], _, [], (List.append_nil _).symm, htext, hstart, hstart', rfl, ?_,
        hcount.trans hcount'.symm, Nat.zero_le _, .inl rfl⟩
      rw [originsUpto_last env path input (Nat.le_refl _) hw, hlen', Nat.add_zero]
    · -- the last line has no newline
      push Not at hw
      obtain ⟨m, hm, hnone⟩ := hw
      have hlast : (splitLines input.text).length = m + 1 := by
        by_contra hne
        exact hnone (newline_of_lt (getElem?_eq_lineAt input hm) (by omega))
      have hw' : ∀ i < m, (lineAt input i).newline = true := fun i hi =>
        newline_of_lt (getElem?_eq_lineAt input (by omega)) (by omega)
      have hbytes : (keptAt env path input m).bytes = (keptAt env path input m).body := by
        have hfalse : (keptAt env path input m).newline = false := by
          simpa [keptAt, keptLine] using hnone
        rw [Line.bytes, Line.term, hfalse]
        exact List.append_nil _
      have hlastOrigin : ((originsUpto env path input (m + 1)).getLast?.map (· + 1)).getD 0 =
          lineOffset input.text m + (keptAt env path input m).body.length := by
        have hwhole := originsUpto_last env path input (Nat.le_of_lt hm) hw'
        rw [originsUpto_succ, keptOffsets, if_neg hnone, List.append_nil]
        change ((_ ++ List.range' _ (keptAt env path input m).body.length).getLast?.map _).getD 0 = _
        cases hsize : (keptAt env path input m).body.length with
        | zero => simpa using hwhole
        | succ n =>
          rw [List.range'_concat, Nat.one_mul, ← List.append_assoc, List.getLast?_concat]
          rfl
      have hend : (keptText env path input (m + 1)).length =
          (keptText env path input m).length + (keptAt env path input m).body.length := by
        rw [keptText_succ, List.length_append, hbytes]
      have hcol := sameColumn_line env path input hm (Nat.le_refl _)
      rw [hlast] at hcol ⊢
      rw [hlastOrigin, hend]
      exact ⟨_, hcol⟩

end Preprocess

end Nslc
