import Nslc.Basic.Source
/-!
# Fmt — directives and fragments

`DirectiveSplitter::split` cuts a buffer into directive lines, which the
formatter hands through as they are, and the fragments between them. Two
scans do it: one looks for a line that starts with `#`, the other for the
end of a directive over its continuations. `Sliced` says what a cut is,
without either scan.
-/

namespace Nslc

namespace Fmt

inductive Opcode where
  | include
  | define
  | undef
  | ifdef
  | ifndef
  | if
  | else
  | endif
  | line
  deriving DecidableEq, Repr

inductive SliceKind where
  | directive (opcode : Opcode)
  | nslFragment
  deriving DecidableEq, Repr

/-- A slice and the offset it begins at. -/
structure Slice where
  kind : SliceKind
  first : ℕ
  rawText : Text
  deriving DecidableEq, Repr

def kOpcodeTable : List (Text × Opcode) :=
  [("include".toList, .include), ("define".toList, .define), ("ifdef".toList, .ifdef),
    ("ifndef".toList, .ifndef), ("endif".toList, .endif), ("if".toList, .if),
    ("else".toList, .else), ("undef".toList, .undef), ("line".toList, .line)]

def isHorizontal (c : Char) : Bool := c = ' ' || c = '\t'

def skipHorizontal (t : Text) : Text := t.dropWhile isHorizontal

/-- Behind the letters of an opcode. -/
def isBoundary : Text → Bool
  | [] => true
  | c :: _ => c = ' ' || c = '\t' || c = '\n' || c = '\r'

/-- The entry of the table that stands in front. -/
def opcodeAt (t : Text) : Option (Text × Opcode) :=
  kOpcodeTable.find? fun e => e.1.isPrefixOf t && isBoundary (t.drop e.1.length)

/-- `decodeOpcode`: the opcode, where there is one, and what is left
behind it. -/
def decodeOpcode (t : Text) : Option Opcode × Text :=
  match opcodeAt (skipHorizontal t) with
  | some e => (some e.2, (skipHorizontal t).drop e.1.length)
  | none => (none, skipHorizontal t)

/-- The length of the line break in front, zero where there is none. -/
def lineBreak : Text → ℕ
  | [] => 0
  | c :: cs =>
    if c = '\r' then if cs.head? = some '\n' then 2 else 1
    else if c = '\n' then 1
    else 0

/-- `findDirectiveLineEnd`, as a length; `skip` counts the characters of
a continuation still to be passed over. -/
def directiveLineEnd : ℕ → Text → ℕ
  | _, [] => 0
  | skip + 1, _ :: cs => 1 + directiveLineEnd skip cs
  | 0, c :: cs =>
    if c = '\\' ∧ lineBreak cs ≠ 0 then 1 + directiveLineEnd (lineBreak cs) cs
    else if lineBreak (c :: cs) ≠ 0 then lineBreak (c :: cs)
    else 1 + directiveLineEnd 0 cs

/-- The length of a line with its break. -/
def lineLength : Text → ℕ
  | [] => 0
  | c :: cs => if lineBreak (c :: cs) ≠ 0 then lineBreak (c :: cs) else 1 + lineLength cs

/-- The first character that is not blank is `#`. -/
def isDirective (t : Text) : Bool := (skipHorizontal t).head? = some '#'

theorem lineLength_pos {t : Text} (h : t ≠ []) : 0 < lineLength t := by
  cases t with
  | nil => exact absurd rfl h
  | cons c cs =>
    rw [lineLength]
    split_ifs <;> omega

/-- `findNextDirectiveStart`, as a length. -/
def nextDirectiveStart (t : Text) : ℕ :=
  if _ : t = [] then 0
  else if isDirective t then 0
  else lineLength t + nextDirectiveStart (t.drop (lineLength t))
termination_by t.length
decreasing_by
  have hline := lineLength_pos ‹_›
  have hlength := List.length_pos_iff.2 ‹_›
  simp only [List.length_drop]
  omega

/-- The opcode of the directive in front and its length. -/
def directiveOf (t : Text) : Option Opcode × ℕ :=
  let (opcode, behind) := decodeOpcode ((skipHorizontal t).drop 1)
  (opcode, t.length - behind.length + directiveLineEnd 0 behind)

/-! ## Lines -/

theorem lineBreak_le (t : Text) : lineBreak t ≤ t.length := by
  cases t with
  | nil => exact le_rfl
  | cons c cs =>
    rw [lineBreak, List.length_cons]
    split_ifs with _ hlf
    · have hne : cs ≠ [] := fun h => by simp [h] at hlf
      have := List.length_pos_iff.2 hne
      omega
    · omega
    · omega
    · omega

/-- No break begins with such a character. -/
def isPlain (c : Char) : Bool := c ≠ '\n' && c ≠ '\r'

theorem lineBreak_eq_zero_iff {c : Char} {cs : Text} :
    lineBreak (c :: cs) = 0 ↔ isPlain c = true := by
  rw [lineBreak]
  split_ifs <;> simp_all [isPlain]

/-- Characters that neither break a line nor continue one are passed
over. -/
theorem directiveLineEnd_append {a : Text} (h : ∀ c ∈ a, isPlain c = true ∧ c ≠ '\\') (b : Text) :
    directiveLineEnd 0 (a ++ b) = a.length + directiveLineEnd 0 b := by
  induction a with
  | nil => simp
  | cons c cs ih =>
    obtain ⟨hplain, hslash⟩ := h c List.mem_cons_self
    rw [List.cons_append, directiveLineEnd, if_neg fun hc => hslash hc.1,
      lineBreak_eq_zero_iff.2 hplain, if_neg (by simp),
      ih fun c' hc' => h c' (List.mem_cons_of_mem _ hc'), List.length_cons]
    omega

theorem isPlain_of_isHorizontal {c : Char} (h : isHorizontal c = true) :
    isPlain c = true ∧ c ≠ '\\' := by
  simp only [isHorizontal, Bool.or_eq_true, decide_eq_true_eq] at h
  rcases h with rfl | rfl <;> decide

theorem isPlain_of_mem_kOpcodeTable {e : Text × Opcode} (he : e ∈ kOpcodeTable) :
    ∀ c ∈ e.1, isPlain c = true ∧ c ≠ '\\' := by
  have hall : (kOpcodeTable.all fun e => e.1.all fun c => isPlain c && c ≠ '\\') = true := by
    decide +kernel
  intro c hc
  simpa using List.all_eq_true.1 (List.all_eq_true.1 hall e he) c hc

/-- In front of what `decodeOpcode` leaves there are blanks and
letters. -/
theorem decodeOpcode_spec (t : Text) :
    ∃ a, t = a ++ (decodeOpcode t).2 ∧ ∀ c ∈ a, isPlain c = true ∧ c ≠ '\\' := by
  have hblank : t = t.takeWhile isHorizontal ++ skipHorizontal t :=
    List.takeWhile_append_dropWhile.symm
  have hplain : ∀ c ∈ t.takeWhile isHorizontal, isPlain c = true ∧ c ≠ '\\' :=
    fun c hc => isPlain_of_isHorizontal (List.mem_takeWhile_imp hc)
  unfold decodeOpcode
  cases hop : opcodeAt (skipHorizontal t) with
  | none => exact ⟨_, hblank, hplain⟩
  | some e =>
    have hmem : e ∈ kOpcodeTable := List.mem_of_find?_eq_some hop
    have htest := List.find?_some hop
    simp only [Bool.and_eq_true, List.isPrefixOf_iff_prefix] at htest
    obtain ⟨u, hu⟩ := htest.1
    refine ⟨t.takeWhile isHorizontal ++ e.1, ?_, fun c hc => ?_⟩
    · simp only
      rw [← hu, List.drop_left, List.append_assoc, hu]
      exact hblank
    · rcases List.mem_append.1 hc with hc | hc
      · exact hplain c hc
      · exact isPlain_of_mem_kOpcodeTable hmem c hc

theorem isDirective_iff {t : Text} :
    isDirective t = true ↔
      ∃ blanks cs, t = blanks ++ '#' :: cs ∧ ∀ c ∈ blanks, isHorizontal c = true := by
  rw [isDirective, decide_eq_true_iff, List.head?_eq_some_iff]
  constructor
  · rintro ⟨cs, hcs⟩
    refine ⟨t.takeWhile isHorizontal, cs, ?_, fun c hc => List.mem_takeWhile_imp hc⟩
    rw [← hcs]
    exact List.takeWhile_append_dropWhile.symm
  · rintro ⟨blanks, cs, rfl, hblanks⟩
    refine ⟨cs, ?_⟩
    rw [skipHorizontal, List.dropWhile_append_of_pos hblanks]
    rfl

theorem isDirective_append {b u : Text} (h : isDirective b = true) :
    isDirective (b ++ u) = true := by
  obtain ⟨blanks, cs, rfl, hblanks⟩ := isDirective_iff.1 h
  exact isDirective_iff.2 ⟨blanks, cs ++ u, by simp, hblanks⟩

/-- The line goes on behind its blanks and `#`. -/
theorem directiveLineEnd_hash {blanks : Text} (h : ∀ c ∈ blanks, isHorizontal c = true)
    (cs : Text) :
    directiveLineEnd 0 (blanks ++ '#' :: cs) = blanks.length + 1 + directiveLineEnd 0 cs := by
  have hplain : ∀ c ∈ blanks ++ ['#'], isPlain c = true ∧ c ≠ '\\' := by
    intro c hc
    rcases List.mem_append.1 hc with hc | hc
    · exact isPlain_of_isHorizontal (h c hc)
    · rw [List.mem_singleton.1 hc]
      decide
  have hend := directiveLineEnd_append hplain cs
  rw [List.append_assoc, List.singleton_append] at hend
  rw [hend, List.length_append, List.length_singleton]

/-- **The two scans agree**: what is passed over for the opcode neither
ends nor continues the line. -/
theorem directiveOf_length {t : Text} (h : isDirective t = true) :
    (directiveOf t).2 = directiveLineEnd 0 t := by
  obtain ⟨blanks, cs, rfl, hblanks⟩ := isDirective_iff.1 h
  have hskip : skipHorizontal (blanks ++ '#' :: cs) = '#' :: cs := by
    rw [skipHorizontal, List.dropWhile_append_of_pos hblanks]
    rfl
  obtain ⟨a, ha, hplain⟩ := decodeOpcode_spec cs
  have hend : directiveLineEnd 0 cs = a.length + directiveLineEnd 0 (decodeOpcode cs).2 := by
    conv_lhs => rw [ha]
    exact directiveLineEnd_append hplain _
  have hlength := congrArg List.length ha
  rw [List.length_append] at hlength
  rw [directiveOf, hskip, List.drop_one, List.tail_cons, directiveLineEnd_hash hblanks, hend]
  simp only [List.length_append, List.length_cons]
  omega

/-- A directive stays one up to the end of its line. -/
theorem isDirective_take {t : Text} (h : isDirective t = true) :
    isDirective (t.take (directiveLineEnd 0 t)) = true := by
  obtain ⟨blanks, cs, rfl, hblanks⟩ := isDirective_iff.1 h
  refine isDirective_iff.2 ⟨blanks, cs.take (directiveLineEnd 0 cs), ?_, hblanks⟩
  rw [directiveLineEnd_hash hblanks, Nat.add_assoc, List.take_append, Nat.add_sub_cancel_left,
    List.take_of_length_le (by omega), Nat.add_comm 1, List.take_succ_cons]

theorem directiveLineEnd_pos {c : Char} {cs : Text} : 0 < directiveLineEnd 0 (c :: cs) := by
  rw [directiveLineEnd]
  split_ifs <;> omega

theorem directiveLineEnd_le (skip : ℕ) (t : Text) : directiveLineEnd skip t ≤ t.length := by
  induction t generalizing skip with
  | nil => simp [directiveLineEnd]
  | cons c cs ih =>
    cases skip with
    | succ skip =>
      have := ih skip
      simp only [directiveLineEnd, List.length_cons]
      omega
    | zero =>
      have hbreak := lineBreak_le (c :: cs)
      have hgo := ih (lineBreak cs)
      have hnext := ih 0
      rw [directiveLineEnd]
      simp only [List.length_cons] at hbreak ⊢
      split_ifs <;> omega

theorem directiveOf_pos {t : Text} (h : isDirective t = true) : 0 < (directiveOf t).2 := by
  rw [directiveOf_length h]
  cases t with
  | nil => cases h
  | cons c cs => exact directiveLineEnd_pos

/-- What stands in front of the next directive. -/
theorem isDirective_drop {t : Text} (h : t.drop (nextDirectiveStart t) ≠ []) :
    isDirective (t.drop (nextDirectiveStart t)) = true := by
  induction t using nextDirectiveStart.induct with
  | case1 => simp at h
  | case2 t hne hd =>
    rw [nextDirectiveStart, dif_neg hne, if_pos hd]
    exact hd
  | case3 t hne hd ih =>
    rw [nextDirectiveStart, dif_neg hne, if_neg hd] at h ⊢
    rw [← List.drop_drop] at h ⊢
    exact ih h

/-- The loop of `split`. -/
def splitFrom (pos : ℕ) (t : Text) : List Slice :=
  let n := nextDirectiveStart t
  let fragment := if n = 0 then [] else [⟨.nslFragment, pos, t.take n⟩]
  let rest := t.drop n
  if _ : rest = [] then fragment
  else
    let d := directiveOf rest
    fragment ++ ⟨.directive (d.1.getD .include), pos + n, rest.take d.2⟩ ::
      splitFrom (pos + n + d.2) (rest.drop d.2)
termination_by t.length
decreasing_by
  have hne : t.drop (nextDirectiveStart t) ≠ [] := ‹_›
  have hpos := directiveOf_pos (isDirective_drop hne)
  have hlength := List.length_pos_iff.2 hne
  simp only [List.length_drop] at hlength ⊢
  omega

def split (sourceBuffer : Text) : List Slice := splitFrom 0 sourceBuffer

/-! ## What a cut is -/

/-- A line starts between the two. -/
def LineStart (before after : Text) : Prop :=
  before = [] ∨ before.getLast? = some '\n' ∨
    (before.getLast? = some '\r' ∧ after.head? ≠ some '\n')

/-- In front of `rest`, the text is one line: it ends with the first
break that no backslash stands before, or with the buffer. -/
inductive LogicalLine (rest : Text) : Text → Prop where
  | bufferEnd (h : rest = []) : LogicalLine rest []
  | lf : LogicalLine rest ['\n']
  | crlf : LogicalLine rest ['\r', '\n']
  | cr (h : rest.head? ≠ some '\n') : LogicalLine rest ['\r']
  | continued {b t : Text} (hb : b = ['\n'] ∨ b = ['\r', '\n'] ∨ (b = ['\r'] ∧
      (t ++ rest).head? ≠ some '\n')) (h : LogicalLine rest t) :
      LogicalLine rest ('\\' :: (b ++ t))
  | plain {c : Char} {t : Text} (hc : isPlain c = true)
      (hslash : c = '\\' → lineBreak (t ++ rest) = 0) (h : LogicalLine rest t) :
      LogicalLine rest (c :: t)

/-- No line of the fragment starts a directive. -/
def Undirected (fragment : Text) : Prop :=
  ∀ a b, fragment = a ++ b → LineStart a b → isDirective b = false

/-- The slices of a text behind another one: fragments and directive
lines, where each directive stands on one logical line of its own and a
fragment goes up to the next one or to the end. -/
inductive Sliced : Text → Text → List Slice → Prop where
  | nil {before : Text} : Sliced before [] []
  | last {before raw : Text} (hraw : raw ≠ []) (hfree : Undirected raw) :
      Sliced before raw [⟨.nslFragment, before.length, raw⟩]
  | directive {before raw rest : Text} {opcode : Opcode} {ss : List Slice}
      (hraw : isDirective raw = true) (hstart : LineStart before (raw ++ rest))
      (hline : LogicalLine rest raw) (h : Sliced (before ++ raw) rest ss) :
      Sliced before (raw ++ rest) (⟨.directive opcode, before.length, raw⟩ :: ss)
  | fragment {before raw line rest : Text} {opcode : Opcode} {ss : List Slice} (hraw : raw ≠ [])
      (hfree : Undirected raw) (hline : isDirective line = true)
      (hstart : LineStart (before ++ raw) (line ++ rest)) (hend : LogicalLine rest line)
      (h : Sliced (before ++ raw ++ line) rest ss) :
      Sliced before (raw ++ (line ++ rest)) (⟨.nslFragment, before.length, raw⟩ ::
        ⟨.directive opcode, (before ++ raw).length, line⟩ :: ss)

/-! ## Line starts -/

theorem lineBreak_cases (t : Text) :
    lineBreak t = 0 ∨ (∃ us, t = '\n' :: us ∧ lineBreak t = 1) ∨
      (∃ us, t = '\r' :: '\n' :: us ∧ lineBreak t = 2) ∨
      ∃ us, t = '\r' :: us ∧ us.head? ≠ some '\n' ∧ lineBreak t = 1 := by
  rcases t with _ | ⟨c, cs⟩
  · exact .inl rfl
  · rw [lineBreak]
    split_ifs with hr hhead hn
    · obtain ⟨us, rfl⟩ := List.head?_eq_some_iff.1 hhead
      exact .inr (.inr (.inl ⟨us, by rw [hr], rfl⟩))
    · exact .inr (.inr (.inr ⟨cs, by rw [hr], hhead, rfl⟩))
    · exact .inr (.inl ⟨cs, by rw [hn], rfl⟩)
    · exact .inl rfl

theorem lineStart_append {before a b : Text} (ha : a ≠ []) :
    LineStart (before ++ a) b ↔ LineStart a b := by
  have hlast : (before ++ a).getLast? = a.getLast? := by
    rw [List.getLast?_append]
    obtain ⟨x, hx⟩ := Option.ne_none_iff_exists'.1 (mt List.getLast?_eq_none_iff.1 ha)
    rw [hx]
    rfl
  rw [LineStart, LineStart, hlast]
  simp [ha]

/-- A line is plain characters and its break. -/
theorem lineLength_spec (t : Text) :
    ∃ body brk, t.take (lineLength t) = body ++ brk ∧ (∀ c ∈ body, isPlain c = true) ∧
      ((brk = [] ∧ t.drop (lineLength t) = []) ∨ brk = ['\n'] ∨ brk = ['\r', '\n'] ∨
        (brk = ['\r'] ∧ (t.drop (lineLength t)).head? ≠ some '\n')) := by
  induction t with
  | nil => exact ⟨[], [], rfl, by simp, .inl ⟨rfl, rfl⟩⟩
  | cons c cs ih =>
    rcases lineBreak_cases (c :: cs) with h | ⟨us, hus, h⟩ | ⟨us, hus, h⟩ | ⟨us, hus, hhead, h⟩
    · obtain ⟨body, brk, htake, hplain, hbrk⟩ := ih
      have hlength : lineLength (c :: cs) = lineLength cs + 1 := by
        rw [lineLength, if_neg (by simp [h])]
        omega
      refine ⟨c :: body, brk, ?_, fun x hx => ?_, ?_⟩
      · rw [hlength, List.take_succ_cons, htake]
        rfl
      · rcases List.mem_cons.1 hx with rfl | hx
        · exact lineBreak_eq_zero_iff.1 h
        · exact hplain x hx
      · rw [hlength, List.drop_succ_cons]
        exact hbrk
    · refine ⟨[], ['\n'], ?_, by simp, .inr (.inl rfl)⟩
      rw [lineLength, if_pos (by omega), h, hus]
      rfl
    · refine ⟨[], ['\r', '\n'], ?_, by simp, .inr (.inr (.inl rfl))⟩
      rw [lineLength, if_pos (by omega), h, hus]
      rfl
    · refine ⟨[], ['\r'], ?_, by simp, .inr (.inr (.inr ⟨rfl, ?_⟩))⟩
      · rw [lineLength, if_pos (by omega), h, hus]
        rfl
      · rw [lineLength, if_pos (by omega), h, hus]
        exact hhead

/-- Within a line no other one starts. -/
theorem not_lineStart_of_line {a b line : Text} (hline : line = a ++ b) (ha : a ≠ [])
    (hb : b ≠ []) {body brk : Text} (hsplit : line = body ++ brk)
    (hplain : ∀ c ∈ body, isPlain c = true)
    (hbrk : brk = [] ∨ brk = ['\n'] ∨ brk = ['\r', '\n'] ∨ brk = ['\r']) (u : Text) :
    ¬ LineStart a (b ++ u) := by
  obtain ⟨front, x, rfl⟩ : ∃ front x, a = front ++ [x] :=
    ⟨a.dropLast, a.getLast ha, (List.dropLast_append_getLast ha).symm⟩
  have heq : body ++ brk = front ++ (x :: b) := by
    rw [← hsplit, hline, List.append_assoc, List.singleton_append]
  have hcases : isPlain x = true ∨ ∃ more, brk = more ++ (x :: b) := by
    rcases List.append_eq_append_iff.1 heq with ⟨more, -, hmore⟩ | ⟨more, hmore, hx⟩
    · exact .inr ⟨more, hmore⟩
    · cases more with
      | nil => exact .inr ⟨[], by simpa using hx.symm⟩
      | cons y ys =>
        obtain ⟨rfl, -⟩ := List.cons.inj hx
        exact .inl (hplain x (by simp [hmore]))
  rcases hcases with hx | ⟨more, hmore⟩
  · simp only [isPlain, Bool.and_eq_true, decide_eq_true_eq] at hx
    rintro (h | h | ⟨h, -⟩)
    · simp at h
    · exact hx.1 (by simpa using h)
    · exact hx.2 (by simpa using h)
  · -- two characters of a break: the first is a CR in front of its LF
    have hlength : 2 ≤ (x :: b).length := by
      have := List.length_pos_iff.2 hb
      simp only [List.length_cons]
      omega
    have hcrlf : more = [] ∧ x = '\r' ∧ b = ['\n'] := by
      rcases hbrk with rfl | rfl | rfl | rfl
      · simp at hmore
      · have := congrArg List.length hmore
        simp only [List.length_append, List.length_singleton] at this
        omega
      · cases more with
        | nil =>
          obtain ⟨rfl, rfl⟩ := List.cons.inj hmore
          exact ⟨rfl, rfl, rfl⟩
        | cons y ys =>
          have := congrArg List.length hmore
          simp only [List.length_append, List.length_cons, List.length_nil] at this hlength
          omega
      · have := congrArg List.length hmore
        simp only [List.length_append, List.length_singleton] at this
        omega
    obtain ⟨-, rfl, rfl⟩ := hcrlf
    rintro (h | h | ⟨-, h⟩)
    · simp at h
    · simp at h
    · simp at h

/-- **What stands in front of the next directive starts none.** -/
theorem undirected_take (t : Text) : Undirected (t.take (nextDirectiveStart t)) := by
  induction t using nextDirectiveStart.induct with
  | case1 =>
    rintro a b hab -
    have hb : b = [] := by simp_all
    rw [hb]
    rfl
  | case2 t hne hd =>
    rw [nextDirectiveStart, dif_neg hne, if_pos hd]
    rintro a b hab -
    have hb : b = [] := by simp_all
    rw [hb]
    rfl
  | case3 t hne hd ih =>
    rw [nextDirectiveStart, dif_neg hne, if_neg hd, List.take_add]
    obtain ⟨body, brk, hline, hplain, hbrk⟩ := lineLength_spec t
    have hbrk' : brk = [] ∨ brk = ['\n'] ∨ brk = ['\r', '\n'] ∨ brk = ['\r'] := by tauto
    generalize htail : (t.drop (lineLength t)).take
      (nextDirectiveStart (t.drop (lineLength t))) = tail at ih ⊢
    have hnext : isDirective tail = false := ih [] tail rfl (.inl rfl)
    intro a b hab hstart
    rcases List.append_eq_append_iff.1 hab with ⟨c, rfl, hb⟩ | ⟨c, hline', rfl⟩
    · by_cases hc : c = []
      · subst hc
        rw [← show tail = b by simpa using hb]
        exact hnext
      · exact ih c b hb ((lineStart_append hc).1 hstart)
    · by_cases hc : c = []
      · subst hc
        exact hnext
      · by_cases ha : a = []
        · -- the line itself starts no directive, nor does a part of it
          subst ha
          by_contra hdir
          refine hd ?_
          have hfront : t = (c ++ tail) ++ t.drop (lineLength t +
              nextDirectiveStart (t.drop (lineLength t))) := by
            rw [← List.nil_append c, ← hline', ← htail, ← List.take_add, List.take_append_drop]
          rw [hfront]
          exact isDirective_append (by simpa using hdir)
        · exact absurd hstart (not_lineStart_of_line hline' ha hc hline hplain hbrk' tail)

/-! ## The cut of `split` -/

theorem directiveLineEnd_skip {skip : ℕ} {t : Text} (h : skip ≤ t.length) :
    directiveLineEnd skip t = skip + directiveLineEnd 0 (t.drop skip) := by
  induction skip generalizing t with
  | zero => simp
  | succ skip ih =>
    cases t with
    | nil => simp at h
    | cons c cs =>
      rw [directiveLineEnd, ih (by simpa using h), List.drop_succ_cons]
      omega

/-- **A directive ends with its logical line.** -/
theorem logicalLine_take (t : Text) :
    LogicalLine (t.drop (directiveLineEnd 0 t)) (t.take (directiveLineEnd 0 t)) := by
  induction hn : t.length using Nat.strong_induction_on generalizing t with
  | _ n ih =>
    rcases t with _ | ⟨c, cs⟩
    · exact .bufferEnd rfl
    · simp only [List.length_cons] at hn
      rw [directiveLineEnd]
      split_ifs with hslash hbreak
      · -- a continuation: the backslash, the break, and the line goes on
        have hle := lineBreak_le cs
        have hgo := ih (cs.drop (lineBreak cs)).length
          (by simp only [List.length_drop]; omega) (cs.drop (lineBreak cs)) rfl
        rw [directiveLineEnd_skip hle, Nat.add_comm 1, List.take_succ_cons, List.drop_succ_cons,
          List.take_add, ← List.drop_drop, hslash.1]
        refine .continued ?_ hgo
        rw [List.take_append_drop]
        rcases lineBreak_cases cs with h | ⟨us, rfl, h⟩ | ⟨us, rfl, h⟩ | ⟨us, rfl, hhead, h⟩
        · exact absurd h hslash.2
        · exact .inl (by rw [h]; rfl)
        · exact .inr (.inl (by rw [h]; rfl))
        · refine .inr (.inr ⟨by rw [h]; rfl, ?_⟩)
          rw [h]
          exact hhead
      · rcases lineBreak_cases (c :: cs) with h | ⟨us, hus, h⟩ | ⟨us, hus, h⟩ | ⟨us, hus, hhead, h⟩
        · exact absurd h hbreak
        · rw [h, hus]
          exact .lf
        · rw [h, hus]
          exact .crlf
        · rw [h, hus]
          exact .cr hhead
      · have hgo := ih cs.length (by omega) cs rfl
        rw [Nat.add_comm 1, List.take_succ_cons, List.drop_succ_cons]
        refine .plain (lineBreak_eq_zero_iff.1 (by simpa using hbreak)) (fun hc => ?_) hgo
        rw [List.take_append_drop]
        by_contra hne
        exact hslash ⟨hc, hne⟩

/-- Behind a logical line a line starts. -/
theorem LogicalLine.lineStart {rest raw : Text} (h : LogicalLine rest raw) (hrest : rest ≠ []) :
    raw ≠ [] ∧ LineStart raw rest := by
  induction h with
  | bufferEnd h => exact absurd h hrest
  | lf => exact ⟨by simp, .inr (.inl rfl)⟩
  | crlf => exact ⟨by simp, .inr (.inl rfl)⟩
  | cr h => exact ⟨by simp, .inr (.inr ⟨rfl, h⟩)⟩
  | @continued b t hb h ih =>
    refine ⟨by simp, ?_⟩
    rw [← List.cons_append]
    exact (lineStart_append ih.1).2 ih.2
  | @plain c t hc hslash h ih =>
    refine ⟨by simp, ?_⟩
    rw [← List.singleton_append]
    exact (lineStart_append ih.1).2 ih.2

/-- A line starts behind the lines that are passed over. -/
theorem lineStart_take {t : Text} (h : t.drop (nextDirectiveStart t) ≠ [])
    (hpos : nextDirectiveStart t ≠ 0) :
    LineStart (t.take (nextDirectiveStart t)) (t.drop (nextDirectiveStart t)) := by
  induction t using nextDirectiveStart.induct with
  | case1 => simp at h
  | case2 t hne hd => simp [nextDirectiveStart, hne, hd] at hpos
  | case3 t hne hd ih =>
    rw [nextDirectiveStart, dif_neg hne, if_neg hd] at h ⊢
    rw [← List.drop_drop] at h
    rw [List.take_add, ← List.drop_drop]
    by_cases hzero : nextDirectiveStart (t.drop (lineLength t)) = 0
    · rw [hzero, List.drop_zero] at h
      rw [hzero, List.take_zero, List.append_nil, List.drop_zero]
      obtain ⟨body, brk, hline, -, hbrk⟩ := lineLength_spec t
      rw [hline]
      rcases hbrk with ⟨-, hnil⟩ | rfl | rfl | ⟨rfl, hhead⟩
      · exact absurd hnil h
      · exact .inr (.inl (by simp))
      · exact .inr (.inl (by simp))
      · exact .inr (.inr ⟨by simp, hhead⟩)
    · have hne' : (t.drop (lineLength t)).take (nextDirectiveStart (t.drop (lineLength t))) ≠ [] := by
        intro hnil
        rcases List.take_eq_nil_iff.1 hnil with hz | hnil'
        · exact hzero hz
        · rw [hnil'] at h
          simp at h
      exact (lineStart_append hne').2 (ih h hzero)

theorem sliced_splitFrom (before t : Text) (hstart : t ≠ [] → LineStart before t) :
    Sliced before t (splitFrom before.length t) := by
  induction hn : t.length using Nat.strong_induction_on generalizing before t with
  | _ n ih =>
    rw [splitFrom]
    set k := nextDirectiveStart t with hk
    have hfree : Undirected (t.take k) := undirected_take t
    by_cases hrest : t.drop k = []
    · -- the last fragment, if there is one
      have hall : t.take k = t := by
        conv_rhs => rw [← List.take_append_drop k t, hrest, List.append_nil]
      simp only [hrest, dite_true]
      by_cases hzero : k = 0
      · rw [if_pos hzero]
        rw [hzero, List.take_zero] at hall
        rw [← hall]
        exact .nil
      · rw [if_neg hzero, hall]
        rw [hall] at hfree
        refine .last (fun hnil => hzero ?_) hfree
        rw [hk, hnil, nextDirectiveStart]
        simp
    · have hdir : isDirective (t.drop k) = true := isDirective_drop hrest
      have hpos := directiveOf_pos hdir
      have hlength := List.length_pos_iff.2 hrest
      simp only [hrest, dite_false]
      set rest := t.drop k with hrestdef
      set d := (directiveOf rest).2 with hd
      have hend : LogicalLine (rest.drop d) (rest.take d) := by
        rw [hd, directiveOf_length hdir]
        exact logicalLine_take rest
      have hline : isDirective (rest.take d) = true := by
        rw [hd, directiveOf_length hdir]
        exact isDirective_take hdir
      have hgo : ∀ front : Text, front.length = before.length + k →
          Sliced (front ++ rest.take d) (rest.drop d)
            (splitFrom (before.length + k + d) (rest.drop d)) := by
        intro front hfront
        have hlen : (front ++ rest.take d).length = before.length + k + d := by
          have hdle : d ≤ rest.length := by
            rw [hd, directiveOf_length hdir]
            exact directiveLineEnd_le 0 rest
          rw [List.length_append, hfront, List.length_take, Nat.min_eq_left hdle]
        rw [← hlen]
        refine ih (rest.drop d).length ?_ _ _ (fun hne => ?_) rfl
        · simp only [hrestdef, List.length_drop] at hlength ⊢
          omega
        · obtain ⟨hraw, hls⟩ := hend.lineStart hne
          exact (lineStart_append hraw).2 hls
      have hsplit : t = t.take k ++ (rest.take d ++ rest.drop d) := by
        rw [List.take_append_drop, hrestdef, List.take_append_drop]
      by_cases hzero : k = 0
      · rw [if_pos hzero, List.nil_append]
        have ht : t = rest.take d ++ rest.drop d := by
          rw [List.take_append_drop, hrestdef, hzero, List.drop_zero]
        have hstart' := hstart (fun hnil => hrest (by rw [hrestdef, hnil, List.drop_nil]))
        conv_lhs => rw [ht]
        rw [ht] at hstart'
        have hnext := hgo before (by omega)
        rw [hzero, Nat.add_zero] at hnext ⊢
        exact .directive hline hstart' hend hnext
      · rw [if_neg hzero]
        have hraw : t.take k ≠ [] := fun hnil => by
          rcases List.take_eq_nil_iff.1 hnil with hz | hnil'
          · exact hzero hz
          · exact hrest (by rw [hrestdef, hnil', List.drop_nil])
        have hkle : (before ++ t.take k).length = before.length + k := by
          simp only [hrestdef, List.length_drop] at hlength
          rw [List.length_append, List.length_take, Nat.min_eq_left (by omega)]
        have hls : LineStart (before ++ t.take k) (rest.take d ++ rest.drop d) := by
          rw [List.take_append_drop]
          exact (lineStart_append hraw).2 (lineStart_take hrest hzero)
        have hnext := hgo (before ++ t.take k) hkle
        rw [← hkle] at hnext ⊢
        conv_lhs => rw [hsplit]
        exact .fragment hraw hfree hline hls hend hnext

end Fmt

end Nslc
