import Mathlib
import Nslc.Preprocess.Conditional
import Nslc.Preprocess.Verbatim
/-!
# Preprocessor — one output line for each input line

A file without `#include` directives keeps its lines: each becomes its
spliced text, a `#line` its canonical form, and every other line an
empty one. `image` is what a line becomes and `nthLine` a line of the
output. Each branch of the loop ends its line as the input does, but
`emitLineDirective` always writes a newline: a `#line` that ends the
file without one adds a line.
-/

namespace Nslc

/-- The line of `t` behind `k` newlines. -/
def nthLine : ℕ → Text → Text
  | 0, t => t.takeWhile (· ≠ '\n')
  | k + 1, t => nthLine k ((t.dropWhile (· ≠ '\n')).drop 1)

section NthLine

variable {b r : Text}

theorem takeWhile_ne_newline (hb : '\n' ∉ b) :
    (b ++ r).takeWhile (fun c => decide (c ≠ '\n')) = b ++ r.takeWhile (fun c => decide (c ≠ '\n')) :=
  List.takeWhile_append_of_pos fun c hc => by
    have : c ≠ '\n' := fun h => hb (h ▸ hc)
    simpa using this

theorem nthLine_zero_append (hb : '\n' ∉ b) (hr : r = [] ∨ r.head? = some '\n') :
    nthLine 0 (b ++ r) = b := by
  rw [nthLine, takeWhile_ne_newline hb]
  rcases hr with rfl | hr
  · simp
  · obtain ⟨t, rfl⟩ := List.head?_eq_some_iff.1 hr
    simp

theorem nthLine_succ_append (hb : '\n' ∉ b) (k : ℕ) :
    nthLine (k + 1) (b ++ '\n' :: r) = nthLine k r := by
  rw [nthLine, List.dropWhile_append_of_pos]
  · simp
  · intro c hc
    have : c ≠ '\n' := fun h => hb (h ▸ hc)
    simpa using this

/-- Lines written one after another, all but the last with a newline,
are read back. -/
theorem nthLine_flatMap_bytes {ls : List Line} (hbody : ∀ l ∈ ls, '\n' ∉ l.body)
    (hnl : ls.IsChain fun l _ => l.newline = true) {k : ℕ} {l : Line} (hl : ls[k]? = some l) :
    nthLine k (ls.flatMap Line.bytes) = l.body := by
  induction ls generalizing k with
  | nil => simp at hl
  | cons m ms ih =>
    have hm : '\n' ∉ m.body := hbody m (by simp)
    rw [List.flatMap_cons]
    cases k with
    | zero =>
      obtain rfl : m = l := by simpa using hl
      rw [Line.bytes, List.append_assoc]
      refine nthLine_zero_append hm ?_
      -- without its newline the line is the last
      cases hn : m.newline with
      | true => simp [Line.term, hn]
      | false =>
        cases ms with
        | nil => simp [Line.term, hn]
        | cons n ns =>
          have := (List.isChain_cons_cons.1 hnl).1
          simp [hn] at this
    | succ k =>
      obtain ⟨n, ns, rfl⟩ : ∃ n ns, ms = n :: ns := by
        cases ms with
        | nil => simp at hl
        | cons n ns => exact ⟨n, ns, rfl⟩
      obtain ⟨hnewline, hrest⟩ := List.isChain_cons_cons.1 hnl
      have hterm : m.bytes = m.body ++ ['\n'] := by simp [Line.bytes, Line.term, hnewline]
      rw [hterm, List.append_assoc, List.singleton_append, nthLine_succ_append hm]
      exact ih (fun l hl => hbody l (by simp [hl])) hrest (by simpa using hl)

theorem count_flatMap_bytes {ls : List Line} (hbody : ∀ l ∈ ls, '\n' ∉ l.body) :
    (ls.flatMap Line.bytes).count '\n' = ls.countP fun l => l.newline := by
  induction ls with
  | nil => rfl
  | cons l ls ih =>
    have hl : l.body.count '\n' = 0 := List.count_eq_zero.2 (hbody l (by simp))
    rw [List.flatMap_cons, List.count_append, ih fun m hm => hbody m (by simp [hm]), Line.bytes,
      List.count_append, hl, List.countP_cons]
    cases hn : l.newline <;> simp [Line.term, hn, Nat.add_comm]

/-- Only the last line can be without its newline. -/
theorem newline_of_lt {t : Text} {k : ℕ} {l : Line} (hl : (splitLines t)[k]? = some l)
    (hk : k + 1 < (splitLines t).length) : l.newline = true := by
  have hk' : k < (splitLines t).length := by omega
  have hdrop := splitLines_drop_lineOffset t k
  rw [List.drop_eq_getElem_cons hk', List.drop_eq_getElem_cons hk] at hdrop
  have := newline_of_cons_cons hdrop
  rwa [(List.getElem?_eq_some_iff.1 hl).2] at this

end NthLine

/-- Of two tests, one implied by the other, equally many indices pass
exactly where they agree. -/
theorem countP_range_eq_iff {p q : ℕ → Bool} (n : ℕ) (h : ∀ k < n, p k = true → q k = true) :
    (List.range n).countP q = (List.range n).countP p ↔ ∀ k < n, q k = p k := by
  induction n with
  | zero => simp
  | succ n ih =>
    have hle : (List.range n).countP p ≤ (List.range n).countP q :=
      List.countP_mono_left fun k hk hp => h k (by have := List.mem_range.1 hk; omega) hp
    have ih' := ih fun k hk => h k (by omega)
    have hn := h n (by omega)
    simp only [List.range_succ, List.countP_append, List.countP_singleton]
    constructor
    · intro heq k hk
      cases hp : p n <;> cases hq : q n <;> simp only [hp, hq] at heq hn
      · rcases Nat.lt_succ_iff_lt_or_eq.1 hk with hk | rfl
        · exact ih'.1 (by simpa using heq) k hk
        · rw [hp, hq]
      · simp at heq
        omega
      · simp at hn
      · rcases Nat.lt_succ_iff_lt_or_eq.1 hk with hk | rfl
        · exact ih'.1 (by simpa using heq) k hk
        · rw [hp, hq]
    · intro hall
      rw [ih'.2 fun k hk => hall k (by omega), hall n (by omega)]

namespace Preprocess

/-! ## No newline is spliced in -/

/-- The bytes of the line that a piece is made of. -/
def Piece.bytes : Piece → Text
  | .copied t => t
  | .ref _ name => name

theorem mem_of_mem_piecesUpto (fuel : ℕ) : ∀ (pos : ℕ) (t : Text), ∀ p ∈ piecesUpto fuel pos t,
    ∀ c ∈ p.bytes, c ∈ t := by
  induction fuel with
  | zero =>
    intro pos t p hp
    simp [piecesUpto] at hp
  | succ fuel ih =>
    intro pos t p hp c hc
    cases t with
    | nil => simp [piecesUpto] at hp
    | cons a t =>
      -- what a cut of the rest holds, the rest holds
      have hrest : ∀ (pos : ℕ) (u : Text), u <:+ t → p ∈ piecesUpto fuel pos u → c ∈ a :: t :=
        fun pos u hu hmem => List.mem_cons_of_mem a (hu.subset (ih pos u p hmem c hc))
      simp only [piecesUpto] at hp
      split_ifs at hp with hq hline hblock hclosed hpct href
      · rcases List.mem_cons.1 hp with rfl | hp
        · have heq := takeString_append t
          simp only [Piece.bytes, List.mem_cons] at hc ⊢
          rcases hc with hc | hc
          · exact .inl hc
          · exact .inr (by rw [← heq]; exact List.mem_append_left _ hc)
        · exact hrest _ _ ⟨_, takeString_append t⟩ hp
      · obtain rfl := List.mem_singleton.1 hp
        exact hc
      · obtain ⟨u, rfl⟩ := List.head?_eq_some_iff.1 hblock.2
        have heq := takeBlock_append u
        rcases List.mem_cons.1 hp with rfl | hp
        · simp only [Piece.bytes, List.mem_cons, List.tail_cons] at hc ⊢
          rcases hc with rfl | rfl | hc
          · exact .inl hblock.1.symm
          · exact .inr (.inl rfl)
          · exact .inr (.inr (by rw [← heq]; exact List.mem_append_left _ hc))
        · have hsuf : (takeBlock u).rest <:+ u := ⟨_, heq⟩
          exact hrest _ _ (hsuf.trans (List.suffix_cons _ _)) hp
      · obtain ⟨u, rfl⟩ := List.head?_eq_some_iff.1 hblock.2
        have heq := takeBlock_append u
        obtain rfl := List.mem_singleton.1 hp
        simp only [Piece.bytes, List.cons_append, List.tail_cons, heq] at hc
        rw [hblock.1]
        exact hc
      · rcases List.mem_cons.1 hp with rfl | hp
        · exact List.mem_cons_of_mem a ((List.takeWhile_prefix _).subset hc)
        · exact hrest _ _ ((List.tail_suffix _).trans (List.dropWhile_suffix _)) hp
      · rcases List.mem_cons.1 hp with rfl | hp
        · exact List.mem_cons.2 (.inl (by simpa [Piece.bytes] using hc))
        · exact hrest _ _ (List.suffix_refl _) hp
      · rcases List.mem_cons.1 hp with rfl | hp
        · exact List.mem_cons.2 (.inl (by simpa [Piece.bytes] using hc))
        · exact hrest _ _ (List.suffix_refl _) hp

/-- No macro body holds a newline. -/
def OneLineBodies (macros : MacroTable) : Prop := ∀ d ∈ macros, '\n' ∉ d.body

/-- Rendered values hold no newline. -/
def RendersOnOneLine (E : PPExpression) : Prop := ∀ v, '\n' ∉ E.render v

variable {E : PPExpression} {macros : MacroTable} {loc : SourceLocation}

theorem newline_spliceRef (hE : RendersOnOneLine E) (hm : OneLineBodies macros) (pos : ℕ)
    {name : Text} (hname : '\n' ∉ name) : '\n' ∉ (spliceRef E macros loc pos name).1 := by
  unfold spliceRef
  cases hd : macros.lookup name with
  | none => simpa using hname
  | some d =>
    have hbody : '\n' ∉ d.body := hm d (lookup_mem hd)
    simp only [spliceBody]
    split_ifs with hred
    · cases E.reduceDefineBody macros d.body with
      | mk v fs =>
        cases v with
        | none => exact hbody
        | some v => exact hE v
    · exact hbody

theorem newline_splice (hE : RendersOnOneLine E) (hm : OneLineBodies macros) {line : Text}
    (hline : '\n' ∉ line) : '\n' ∉ (splice E macros line loc).1 := by
  rw [splice_eq_pieces]
  simp only [splicedText, List.mem_flatMap, not_exists, not_and]
  intro p hp
  have hbytes : '\n' ∉ p.bytes := fun h =>
    hline (mem_of_mem_piecesUpto _ _ _ p hp _ h)
  cases p with
  | copied t => exact hbytes
  | ref pos name => exact newline_spliceRef hE hm pos hbytes

/-! ## Bodies stay on one line -/

theorem mem_of_mem_dropEndWhile {p : Char → Bool} {t : Text} {c : Char}
    (h : c ∈ dropEndWhile p t) : c ∈ t := by
  simp only [dropEndWhile, List.mem_reverse] at h
  exact List.mem_reverse.1 ((List.dropWhile_suffix _).subset h)

theorem mem_of_mem_stripCR {t : Text} {c : Char} (h : c ∈ stripCR t) : c ∈ t := by
  unfold stripCR at h
  split_ifs at h
  · exact (List.dropLast_sublist t).subset h
  · exact h

/-- A defined body is cut out of its line. -/
theorem mem_of_classifyLine_define {line name body : Text}
    (h : classifyLine line = .define name body) {c : Char} (hc : c ∈ body) : c ∈ line := by
  cases line with
  | nil => simp [classifyLine] at h
  | cons a t =>
    simp only [classifyLine] at h
    split_ifs at h with ha hkw
    simp only [directiveOf] at h
    split_ifs at h
    · simp only [includeOperand] at h
      split at h
      · cases h
      · split_ifs at h
    · simp only [defineOperand, ParsedDirective.define.injEq] at h
      obtain ⟨-, rfl⟩ := h
      have hcut := mem_of_mem_dropEndWhile hc
      have hdrop := (List.drop_suffix _ _).subset ((List.dropWhile_suffix _).subset hcut)
      have hrest := (List.drop_suffix _ _).subset ((List.dropWhile_suffix _).subset hdrop)
      exact List.mem_cons_of_mem a ((List.dropWhile_suffix _).subset hrest)

theorem OneLineBodies.redefine (hm : OneLineBodies macros) (name : Text) {body : Text}
    (hbody : '\n' ∉ body) (l : Option SourceLocation) :
    OneLineBodies (macros.redefine name body l) := by
  intro d hd
  unfold MacroTable.redefine at hd
  split_ifs at hd
  · obtain ⟨e, he, rfl⟩ := List.mem_map.1 hd
    split_ifs
    · exact hbody
    · exact hm e he
  · rcases List.mem_append.1 hd with hd | hd
    · exact hm d hd
    · obtain rfl := List.mem_singleton.1 hd
      exact hbody

theorem OneLineBodies.predefine (hm : OneLineBodies macros) (name : Text) {body : Text}
    (hbody : '\n' ∉ body) : OneLineBodies (macros.predefine name body) := by
  intro d hd
  unfold MacroTable.predefine at hd
  split_ifs at hd
  · exact hm d hd
  · rcases List.mem_append.1 hd with hd | hd
    · exact hm d hd
    · obtain rfl := List.mem_singleton.1 hd
      exact hbody

theorem oneLineBodies_initial (path : Text) (input : SourceText)
    {predefined : List (Text × Text)} (hpre : ∀ d ∈ predefined, '\n' ∉ d.2) :
    OneLineBodies (initial path input predefined).macros := by
  have hfold : ∀ (ds : List (Text × Text)) (m : MacroTable), (∀ d ∈ ds, '\n' ∉ d.2) →
      OneLineBodies m → OneLineBodies (ds.foldl (fun m d => m.predefine d.1 d.2) m) := by
    intro ds
    induction ds with
    | nil => exact fun m _ hm => hm
    | cons d ds ih =>
      intro m hds hm
      exact ih _ (fun e he => hds e (by simp [he])) (hm.predefine d.1 (hds d (by simp)))
  exact hfold predefined [] hpre (by simp [OneLineBodies])

variable {env : Env} {s : State} {f : Frame} {fs : List Frame} {l : Line}

theorem macros_handleLine (E : PPExpression) (s : State) (fid : FileID) (operand : Text)
    (loc : SourceLocation) (lineEnd : ℕ) :
    (handleLine E s fid operand loc lineEnd).macros = s.macros := by
  simp only [handleLine]
  split
  · rfl
  · rfl
  · split_ifs <;> first | rfl | (split <;> rfl)

theorem macros_handleInclude (env : Env) (s : State) (fid : FileID) (filename : Text)
    (isAngle : Bool) (loc : SourceLocation) :
    (handleInclude env s fid filename isAngle loc).macros = s.macros := by
  unfold handleInclude
  split
  · rfl
  · split
    · rfl
    · split
      · rfl
      · unfold openInclude
        split <;> rfl

/-- The tables a line can leave behind. -/
theorem macros_stepLine (env : Env) (s : State) (f : Frame) (fs : List Frame) (l : Line) :
    (stepLine env s f fs l).macros = s.macros ∨
      (∃ name body, lineDirective l = .define name body ∧
        (stepLine env s f fs l).macros = s.macros.redefine name body (some f.loc)) ∨
      ∃ name, (stepLine env s f fs l).macros = s.macros.undef name := by
  unfold stepLine dispatch
  cases hd : lineDirective l with
  | passthrough =>
    dsimp only
    split_ifs <;> exact .inl rfl
  | define name body =>
    dsimp only
    split_ifs
    · simp only [handleDefine]
      split_ifs
      · exact .inl rfl
      · split <;> exact .inr (.inl ⟨name, body, rfl, rfl⟩)
    · exact .inl rfl
  | undef name =>
    dsimp only
    split_ifs
    · simp only [handleUndef]
      split_ifs
      · exact .inl rfl
      · exact .inr (.inr ⟨name, rfl⟩)
    · exact .inl rfl
  | line operand =>
    dsimp only
    split_ifs
    · exact .inl (macros_handleLine _ _ _ _ _ _)
    · exact .inl rfl
  | incl filename isAngle =>
    dsimp only
    split_ifs
    · exact .inl (macros_handleInclude _ _ _ _ _ _)
    · exact .inl rfl
  | unknown name =>
    dsimp only
    split_ifs <;> exact .inl rfl
  | _ => exact .inl rfl

theorem oneLineBodies_stepLine (hm : OneLineBodies s.macros) (hl : '\n' ∉ l.body) :
    OneLineBodies (stepLine env s f fs l).macros := by
  rcases macros_stepLine env s f fs l with h | ⟨name, body, hd, h⟩ | ⟨name, h⟩
  · rw [h]
    exact hm
  · rw [h]
    refine hm.redefine name (fun hc => hl ?_) _
    exact mem_of_mem_stripCR (mem_of_classifyLine_define hd hc)
  · rw [h]
    exact fun d hd => hm d (List.mem_filter.1 hd).1

/-! ## The image of a line -/

/-- What a line of frame `f` becomes: spliced text, the canonical form of
a `#line`, and nothing for any other line. -/
def image (env : Env) (s : State) (f : Frame) (l : Line) : Text :=
  if isEmitting f.condStack then
    match lineDirective l with
    | .passthrough => (splice env.expr s.macros (stripCR l.body) f.loc).1
    | .line operand =>
      match parseLineOperand (splice env.expr s.macros operand f.loc).1 with
      | .ok lineNo path _ => (lineMarker lineNo (path.getD [])).dropLast
      | _ => []
    | _ => []
  else []

/-- The line written for a line: its image, ended as the line is or by
the marker's own newline. -/
def outLine (env : Env) (s : State) (f : Frame) (l : Line) : Line :=
  ⟨image env s f l, l.newline || movesLocation f l⟩

theorem lineMarker_dropLast (n : ℕ) (p : Text) :
    lineMarker n p = (lineMarker n p).dropLast ++ ['\n'] := by
  unfold lineMarker
  rw [List.dropLast_concat]

theorem newline_lineMarker (n : ℕ) {p : Text} (hp : '\n' ∉ p) :
    '\n' ∉ (lineMarker n p).dropLast := by
  have hdigits : '\n' ∉ Nat.toDigits 10 (n % 2 ^ 32) := fun h =>
    absurd (isDigit_of_mem_toDigits h) (by decide)
  unfold lineMarker
  rw [List.dropLast_concat]
  generalize Nat.toDigits 10 (n % 2 ^ 32) = digits at hdigits ⊢
  split_ifs with he
  · simp [hdigits]
  · simp [hdigits, hp]

theorem newline_parseLineOperand {t : Text} (ht : '\n' ∉ t) {n : ℕ} {p : Option Text} {b : Bool}
    (h : parseLineOperand t = .ok n p b) : '\n' ∉ p.getD [] := by
  simp only [parseLineOperand] at h
  split_ifs at h
  split at h
  · simp only [LineOperand.ok.injEq] at h
    simp [← h.2.1]
  · rename_i c cs hrest
    split_ifs at h with hq hclosed
    · simp only [LineOperand.ok.injEq] at h
      rw [← h.2.1]
      intro hmem
      have hcs : '\n' ∈ c :: cs := List.mem_cons_of_mem c ((List.takeWhile_prefix _).subset hmem)
      rw [← hrest] at hcs
      have hdrop := (List.dropWhile_suffix _).subset ((List.dropWhile_suffix _).subset hcs)
      exact ht ((List.dropWhile_suffix _).subset hdrop)
    · simp only [LineOperand.ok.injEq] at h
      simp [← h.2.1]

/-- The operand of a `#line` is cut out of its line. -/
theorem mem_of_classifyLine_line {line operand : Text} (h : classifyLine line = .line operand)
    {c : Char} (hc : c ∈ operand) : c ∈ line := by
  cases line with
  | nil => simp [classifyLine] at h
  | cons a t =>
    simp only [classifyLine] at h
    split_ifs at h with ha hkw
    simp only [directiveOf] at h
    split_ifs at h
    · simp only [includeOperand] at h
      split at h
      · cases h
      · split_ifs at h
    · simp only [defineOperand, reduceCtorEq] at h
    · simp only [ParsedDirective.line.injEq] at h
      subst h
      have hrest := (List.dropWhile_suffix _).subset (mem_of_mem_dropEndWhile hc)
      exact List.mem_cons_of_mem a
        ((List.dropWhile_suffix _).subset ((List.drop_suffix _ _).subset hrest))

/-- An image is one line. -/
theorem newline_image (hE : RendersOnOneLine env.expr) (hm : OneLineBodies s.macros)
    (hl : '\n' ∉ l.body) : '\n' ∉ image env s f l := by
  have hstrip : '\n' ∉ stripCR l.body := fun h => hl (mem_of_mem_stripCR h)
  unfold image
  split_ifs
  · cases hd : lineDirective l with
    | passthrough => exact newline_splice hE hm hstrip
    | line operand =>
      have hop : '\n' ∉ operand := fun h => hstrip (mem_of_classifyLine_line hd h)
      have hspliced : '\n' ∉ (splice env.expr s.macros operand f.loc).1 :=
        newline_splice hE hm hop
      dsimp only
      split
      · rename_i n p b hparse
        exact newline_lineMarker n (newline_parseLineOperand hspliced hparse)
      · simp
    | _ => simp
  · simp

def ParsedDirective.isInclude : ParsedDirective → Bool
  | .incl _ _ => true
  | _ => false

/-- A line that reports no error writes its image. -/
theorem output_stepLine (hno : (lineDirective l).isInclude = false)
    (hab : (stepLine env s f fs l).aborted = none)
    (herr : hasError (stepLine env s f fs l).diags = false) :
    (stepLine env s f fs l).output = s.output ++ (outLine env s f l).bytes := by
  rcases stepLine_cases env s f fs l with ⟨h, hmoves⟩ | ⟨n, p, h⟩ | ⟨p, sm, inner, h⟩ | h
  · have hm : movesLocation f l = false := by
      by_contra hne
      rw [hmoves (by simpa using hne)] at herr
      cases herr
    rw [h.output_eq]
    congr 1
    simp only [outLine, Line.bytes, hm, Bool.or_false, Line.term, lineOut, image]
    simp only [movesLocation, Bool.and_eq_false_iff] at hm
    cases hd : lineDirective l with
    | passthrough => split_ifs <;> simp_all
    | line o =>
      have he : isEmitting f.condStack = false := by simpa [hd] using hm
      simp [he]
    | incl filename isAngle => simp [hd, ParsedDirective.isInclude] at hno
    | _ => simp
  · obtain ⟨o, hd, trailing, hparse⟩ := h.operand
    rw [h.output_eq]
    congr 1
    simp only [outLine, Line.bytes, Line.term, image, movesLocation, hd, h.emitting, hparse,
      Bool.and_self, Bool.or_true, if_true]
    exact lineMarker_dropLast n _
  · obtain ⟨filename, isAngle, hd, -⟩ := h.operand
    simp [hd, ParsedDirective.isInclude] at hno
  · exact absurd hab h.aborted_ne

/-! ## The run -/

section Run

variable {path : Text} {input : SourceText} {predefined : List (Text × Text)}

/-- The line written for line `k` of the file. -/
def outLineAt (env : Env) (path : Text) (input : SourceText) (predefined : List (Text × Text))
    (k : ℕ) : Line :=
  ((stateAt env path input predefined k).includeStack.head?.bind fun f =>
    (splitLines input.text)[k]?.map (outLine env (stateAt env path input predefined k) f)).getD
      ⟨[], false⟩

/-- The image of line `k` of the file. -/
def imageAt (env : Env) (path : Text) (input : SourceText) (predefined : List (Text × Text))
    (k : ℕ) : Text :=
  (outLineAt env path input predefined k).body

/-- **Lines are kept**: as many newlines as in the file, and every line
of the output is the image of its line. -/
def LinesKept (env : Env) (path : Text) (input : SourceText) (predefined : List (Text × Text)) :
    Prop :=
  (endState env path input predefined).output.count '\n' = input.text.count '\n' ∧
    ∀ k < (splitLines input.text).length,
      nthLine k (endState env path input predefined).output = imageAt env path input predefined k

/-- The file ends, without a newline, in a `#line` of a selected branch. -/
def EndsInLineDirective (env : Env) (path : Text) (input : SourceText)
    (predefined : List (Text × Text)) : Prop :=
  ∃ k l f o, (splitLines input.text)[k]? = some l ∧ l.newline = false ∧ lineDirective l = .line o ∧
    (stateAt env path input predefined k).includeStack = [f] ∧ isEmitting f.condStack = true

/-- No line is an `#include`. -/
def NoIncludes (input : SourceText) : Prop :=
  ∀ l ∈ splitLines input.text, (lineDirective l).isInclude = false

theorem NoIncludes.oneFile (h : NoIncludes input) (env : Env) (path : Text) :
    OneFile env path input := by
  intro l hl filename isAngle hd
  have := h l hl
  simp [hd, ParsedDirective.isInclude] at this

theorem outLineAt_eq {k : ℕ} (hf : (stateAt env path input predefined k).includeStack = [f])
    (hl : (splitLines input.text)[k]? = some l) :
    outLineAt env path input predefined k =
      outLine env (stateAt env path input predefined k) f l := by
  simp [outLineAt, hf, hl]

/-- Where the run stands at line `k`, the lines before it are written,
each with an image of one line. -/
theorem output_stateAt (hE : RendersOnOneLine env.expr) (hpre : ∀ d ∈ predefined, '\n' ∉ d.2)
    (hno : NoIncludes input)
    (hok : (endState env path input predefined).succeeded = true) :
    ∀ k ≤ (splitLines input.text).length,
      ∃ f, StandsAt path input k f (stateAt env path input predefined k) ∧
        OneLineBodies (stateAt env path input predefined k).macros ∧
        (stateAt env path input predefined k).output =
          ((List.range k).map (outLineAt env path input predefined)).flatMap Line.bytes ∧
        ∀ i < k, '\n' ∉ (outLineAt env path input predefined i).body := by
  refine stateAt_inv predefined (hno.oneFile env path) (P := fun k f s => OneLineBodies s.macros ∧
    s.output = ((List.range k).map (outLineAt env path input predefined)).flatMap Line.bytes ∧
      ∀ i < k, '\n' ∉ (outLineAt env path input predefined i).body) ?_ ?_
  · exact ⟨oneLineBodies_initial path input hpre, rfl, fun i hi => absurd hi (Nat.not_lt_zero i)⟩
  · rintro k f s l hf hl rfl ⟨hm, hout, himages⟩
    have hmem : l ∈ splitLines input.text := List.mem_of_getElem? hl
    have hbody : '\n' ∉ l.body := body_no_newline_of_mem hmem
    have hk : k < (splitLines input.text).length := (List.getElem?_eq_some_iff.1 hl).1
    have heq := outLineAt_eq hf.stack hl
    obtain ⟨hnext, -⟩ := stateAt_succ (hno.oneFile env path) hf hl
    have hclean := clean_of_succeeded (Nat.le_succ_of_le hk) hok
    change (stateAt env path input predefined (k + 1)).aborted = none ∧ _ at hclean
    change _ ∧ hasError (stateAt env path input predefined (k + 1)).diags = false at hclean
    rw [hnext] at hclean
    refine ⟨oneLineBodies_stepLine hm hbody, ?_, ?_⟩
    · rw [output_stepLine (hno l hmem) hclean.1 hclean.2, hout, List.range_succ, List.map_append,
        List.flatMap_append, List.map_singleton, List.flatMap_singleton, heq]
    · intro i hi
      rcases Nat.lt_succ_iff_lt_or_eq.1 hi with hi | rfl
      · exact himages i hi
      · rw [heq]
        exact newline_image hE hm hbody

theorem movesLocation_iff (hno : (lineDirective l).isInclude = false) :
    movesLocation f l = true ↔ isEmitting f.condStack = true ∧ ∃ o, lineDirective l = .line o := by
  unfold movesLocation
  rw [Bool.and_eq_true]
  refine and_congr_right fun _ => ?_
  cases hd : lineDirective l with
  | incl filename isAngle => simp [hd, ParsedDirective.isInclude] at hno
  | _ => simp

/-- The newlines of a file, counted line by line. -/
theorem count_newline_splitLines (t : Text) :
    t.count '\n' = (List.range (splitLines t).length).countP fun k =>
      ((splitLines t)[k]?.getD ⟨[], false⟩).newline := by
  have hlines : splitLines t =
      (List.range (splitLines t).length).map fun k => (splitLines t)[k]?.getD ⟨[], false⟩ := by
    refine List.ext_getElem (by simp) fun k h₁ h₂ => ?_
    simp [List.getElem?_eq_getElem h₁]
  conv_lhs => rw [← flatten_splitLines t, ← List.flatMap_def]
  rw [count_flatMap_bytes fun l hl => body_no_newline_of_mem hl]
  conv_lhs => rw [hlines]
  rw [List.countP_map]
  rfl

section Kept

variable (hE : RendersOnOneLine env.expr) (hpre : ∀ d ∈ predefined, '\n' ∉ d.2)
  (hno : NoIncludes input) (hok : (endState env path input predefined).succeeded = true)

include hE hpre hno hok

/-- What the file has on line `k`, and how the line written for it ends. -/
theorem newline_outLineAt {k : ℕ} (hk : k < (splitLines input.text).length) :
    ∃ l f, (splitLines input.text)[k]? = some l ∧
      (stateAt env path input predefined k).includeStack = [f] ∧
      (outLineAt env path input predefined k).newline = (l.newline || movesLocation f l) := by
  obtain ⟨f, hf, -⟩ := output_stateAt hE hpre hno hok k (Nat.le_of_lt hk)
  have hl := List.getElem?_eq_getElem hk
  refine ⟨_, f, hl, hf.stack, ?_⟩
  rw [outLineAt_eq hf.stack hl]
  rfl

/-- The output is the lines written, none of which holds a newline of
its own. -/
theorem output_endState :
    (endState env path input predefined).output =
        ((List.range (splitLines input.text).length).map
          (outLineAt env path input predefined)).flatMap Line.bytes ∧
      ∀ l ∈ (List.range (splitLines input.text).length).map (outLineAt env path input predefined),
        '\n' ∉ l.body := by
  obtain ⟨g, hg, -, hout, himages⟩ := output_stateAt hE hpre hno hok _ (Nat.le_refl _)
  refine ⟨?_, ?_⟩
  · rw [endState_eq hg, ← hout]
    rfl
  · intro l hl
    obtain ⟨k, hk, rfl⟩ := List.mem_map.1 hl
    exact himages k (List.mem_range.1 hk)

/-- Every line of the output is the image of its line. -/
theorem nthLine_endState {k : ℕ} (hk : k < (splitLines input.text).length) :
    nthLine k (endState env path input predefined).output =
      imageAt env path input predefined k := by
  obtain ⟨hout, hbody⟩ := output_endState hE hpre hno hok
  rw [hout]
  refine nthLine_flatMap_bytes hbody ?_ (by simp [hk])
  rw [List.isChain_iff_getElem]
  intro i hi
  simp only [List.length_map, List.length_range] at hi
  obtain ⟨l, f, hl, -, heq⟩ := newline_outLineAt hE hpre hno hok (by omega : i < _)
  simp [heq, newline_of_lt hl hi]

/-- **Lines are kept, but for a `#line` at the end.** A file without
`#include` directives that is preprocessed without an error keeps its
lines exactly where it does not end, without a newline, in a `#line` of
a selected branch. -/
theorem linesKept_iff :
    LinesKept env path input predefined ↔ ¬ EndsInLineDirective env path input predefined := by
  obtain ⟨hout, hbody⟩ := output_endState hE hpre hno hok
  have hline := fun k => newline_outLineAt hE hpre hno hok (k := k)
  have hcount : (endState env path input predefined).output.count '\n' =
      (List.range (splitLines input.text).length).countP fun k =>
        (outLineAt env path input predefined k).newline := by
    rw [hout, count_flatMap_bytes hbody, List.countP_map]
    rfl
  rw [LinesKept, hcount, count_newline_splitLines,
    and_iff_left fun k hk => nthLine_endState hE hpre hno hok hk, countP_range_eq_iff]
  · constructor
    · rintro hagree ⟨k, l, f, o, hl, hnl, hd, hf, he⟩
      have hk : k < (splitLines input.text).length := (List.getElem?_eq_some_iff.1 hl).1
      obtain ⟨l', f', hl', hf', heq⟩ := hline k hk
      obtain rfl : l = l' := Option.some.inj (hl.symm.trans hl')
      obtain rfl : f = f' := by simpa using hf.symm.trans hf'
      have hmoves := (movesLocation_iff (hno l (List.mem_of_getElem? hl))).2 ⟨he, o, hd⟩
      have := hagree k hk
      simp [heq, hl, hnl, hmoves] at this
    · intro hends k hk
      obtain ⟨l, f, hl, hf, heq⟩ := hline k hk
      cases hnl : l.newline with
      | true => simp [heq, hl, hnl]
      | false =>
        have hmoves : movesLocation f l = false := by
          by_contra hne
          obtain ⟨he, o, hd⟩ :=
            (movesLocation_iff (hno l (List.mem_of_getElem? hl))).1 (by simpa using hne)
          exact hends ⟨k, l, f, o, hl, hnl, hd, hf, he⟩
        simp [heq, hl, hnl, hmoves]
  · intro k hk hnewline
    obtain ⟨l, f, hl, -, heq⟩ := hline k hk
    have : l.newline = true := by simpa [hl] using hnewline
    simp [heq, this]

end Kept

theorem rendersOnOneLine_bareEnv : RendersOnOneLine bareEnv.expr := by
  intro v h
  exact absurd (isDigit_of_mem_toDigits h) (by decide)

/-- A file that ends in passthrough text. -/
def relinedFile : SourceText := ⟨"#define A 1\nx = %A%;\n#line 7\ny".toList, by decide⟩

theorem linesKept_relinedFile :
    (endState bareEnv "f.nsl".toList relinedFile []).output = "\nx = 1;\n#line 7\ny".toList ∧
      LinesKept bareEnv "f.nsl".toList relinedFile [] := by
  refine ⟨by decide +kernel, ?_⟩
  refine (linesKept_iff rendersOnOneLine_bareEnv (by simp) (by unfold NoIncludes; decide +kernel)
    (by decide +kernel)).2 ?_
  rintro ⟨k, l, f, o, hl, hnl, hd, -⟩
  have hlast : ∀ l ∈ splitLines relinedFile.text, l.newline = false →
      lineDirective l = .passthrough := by
    decide +kernel
  rw [hlast l (List.mem_of_getElem? hl) hnl] at hd
  cases hd

/-- A file that ends in a `#line`. -/
def endsInLineFile : SourceText := ⟨"x\n#line 7".toList, by decide⟩

/-- A line is added. -/
theorem not_linesKept_endsInLineFile :
    (endState bareEnv "f.nsl".toList endsInLineFile []).succeeded = true ∧
      NoIncludes endsInLineFile ∧
      (endState bareEnv "f.nsl".toList endsInLineFile []).output = "x\n#line 7\n".toList ∧
      ¬ LinesKept bareEnv "f.nsl".toList endsInLineFile [] := by
  refine ⟨by decide +kernel, by unfold NoIncludes; decide +kernel, by decide +kernel, fun h => ?_⟩
  exact absurd h.1 (by decide +kernel)

end Run

end Preprocess

end Nslc
