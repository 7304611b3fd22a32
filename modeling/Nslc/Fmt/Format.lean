import Nslc.Fmt.DirectiveSplitter
/-!
# Fmt — the formatter

`format_buffer` goes through the slices of a buffer: directives and blank
fragments are handed through, the others are laid out on their own, and
one that does not parse refuses the whole buffer. At the end the line
breaks are made alike and the buffer is given one last newline. How a
fragment is parsed, planned and rendered is a parameter here.
-/

namespace Nslc

namespace Fmt

/-- `FormatResult`. The text of a refusal is empty. -/
inductive FormatResult (Diagnostic : Type) where
  | success (formattedText : Text)
  | refused (diagnostics : List Diagnostic)
  deriving DecidableEq, Repr

/-! ## The end of the text -/

/-- CR LF and CR become LF; `afterCr` stands for a CR that was just
passed. -/
def normalizeFrom : Bool → Text → Text
  | _, [] => []
  | afterCr, c :: cs =>
    if afterCr ∧ c = '\n' then normalizeFrom false cs
    else if c = '\r' then '\n' :: normalizeFrom true cs
    else c :: normalizeFrom false cs

def normalizeBreaks (t : Text) : Text := normalizeFrom false t

/-- One newline is left of several, from the back. -/
def popNewlines : Text → Text
  | '\n' :: '\n' :: cs => popNewlines ('\n' :: cs)
  | t => t

/-- The text ends with one newline, if there is any text. -/
def endWithNewline (t : Text) : Text :=
  if t = [] then []
  else
    match popNewlines t.reverse with
    | '\n' :: cs => ('\n' :: cs).reverse
    | cs => ('\n' :: cs).reverse

/-- What is done to the assembled output. -/
def finish (t : Text) : Text := endWithNewline (normalizeBreaks t)

/-- No CR, and one newline at the end. -/
def Finished (t : Text) : Prop :=
  '\r' ∉ t ∧ (t = [] ∨ ∃ body, t = body ++ ['\n'] ∧ body.getLast? ≠ some '\n')

theorem not_mem_normalizeFrom (afterCr : Bool) (t : Text) : '\r' ∉ normalizeFrom afterCr t := by
  induction t generalizing afterCr with
  | nil => simp [normalizeFrom]
  | cons c cs ih =>
    rw [normalizeFrom]
    split_ifs with hlf hcr
    · exact ih false
    · simpa using ih true
    · simpa [Ne.symm hcr] using ih false

theorem normalizeFrom_of_not_mem {t : Text} (h : '\r' ∉ t) : normalizeFrom false t = t := by
  induction t with
  | nil => rfl
  | cons c cs ih =>
    have hc : c ≠ '\r' := fun hc => h (hc ▸ List.mem_cons_self)
    rw [normalizeFrom, if_neg (by simp), if_neg hc, ih fun hm => h (List.mem_cons_of_mem c hm)]

theorem popNewlines_subset (t : Text) : popNewlines t ⊆ t := by
  induction t using popNewlines.induct with
  | case1 cs ih =>
    rw [popNewlines]
    exact fun c hc => List.mem_cons_of_mem _ (ih hc)
  | case2 t h =>
    rw [popNewlines]
    · exact List.Subset.refl t
    · exact h

/-- Behind the newline in front there is no other one. -/
theorem popNewlines_spec (t : Text) {cs : Text} (h : popNewlines t = '\n' :: cs) :
    cs.head? ≠ some '\n' := by
  induction t using popNewlines.induct with
  | case1 us ih =>
    rw [popNewlines] at h
    exact ih h
  | case2 t hnot =>
    rw [popNewlines] at h
    · intro hhead
      obtain ⟨us, rfl⟩ := List.head?_eq_some_iff.1 hhead
      exact hnot us h
    · exact hnot

theorem endWithNewline_finished {t : Text} (h : '\r' ∉ t) : Finished (endWithNewline t) := by
  rw [endWithNewline]
  split_ifs with hnil
  · exact ⟨by simp, .inl rfl⟩
  · have hsub : ∀ c ∈ popNewlines t.reverse, c ∈ t := fun c hc =>
      List.mem_reverse.1 (popNewlines_subset _ hc)
    split
    · rename_i cs heq
      rw [heq] at hsub
      refine ⟨fun hm => h (hsub _ (List.mem_reverse.1 hm)), .inr ⟨cs.reverse, by simp, ?_⟩⟩
      rw [List.getLast?_reverse]
      exact popNewlines_spec _ heq
    · rename_i cs hcs
      refine ⟨fun hm => ?_, .inr ⟨(popNewlines t.reverse).reverse, by simp, ?_⟩⟩
      · rcases List.mem_cons.1 (List.mem_reverse.1 hm) with hc | hc
        · cases hc
        · exact h (hsub _ hc)
      · rw [List.getLast?_reverse]
        intro hhead
        obtain ⟨us, hus⟩ := List.head?_eq_some_iff.1 hhead
        exact hcs us hus

theorem finish_finished (t : Text) : Finished (finish t) :=
  endWithNewline_finished (not_mem_normalizeFrom false t)

/-- A finished text is left alone. -/
theorem finish_of_finished {t : Text} (h : Finished t) : finish t = t := by
  obtain ⟨hcr, hend⟩ := h
  rw [finish, normalizeBreaks, normalizeFrom_of_not_mem hcr, endWithNewline]
  rcases hend with rfl | ⟨body, rfl, hbody⟩
  · rfl
  · rw [if_neg (by simp)]
    have hpop : popNewlines (body ++ ['\n']).reverse = '\n' :: body.reverse := by
      rw [List.reverse_append, List.reverse_singleton, List.singleton_append]
      rw [popNewlines]
      intro us hus
      have hhead : body.reverse = '\n' :: us := (List.cons.inj hus).2
      rw [List.getLast?_eq_head?_reverse, hhead] at hbody
      exact hbody rfl
    rw [hpop]
    simp

/-! ## The slices -/

section Layout

-- parser, planner and renderer: the text of a fragment and the line it
-- begins on
variable {Diagnostic : Type} (layout : Text → ℕ → Except (List Diagnostic) Text)

/-- No character but blanks and breaks. -/
def onlyWhitespace (t : Text) : Bool := t.all fun c => isHorizontal c || !isPlain c

/-- Handed through as it is. -/
def Slice.passes (s : Slice) : Bool :=
  match s.kind with
  | .directive _ => true
  | .nslFragment => onlyWhitespace s.rawText

def fragmentStartLine (sourceBuffer : Text) (s : Slice) : ℕ :=
  1 + (sourceBuffer.take s.first).count '\n'

def formatSlice (sourceBuffer : Text) (s : Slice) : Except (List Diagnostic) Text :=
  if s.passes then .ok s.rawText else layout s.rawText (fragmentStartLine sourceBuffer s)

/-- The loop over the slices, with the output so far. -/
def formatSlices (sourceBuffer : Text) : Text → List Slice → FormatResult Diagnostic
  | out, [] => .success (finish out)
  | out, s :: ss =>
    match formatSlice layout sourceBuffer s with
    | .ok piece => formatSlices sourceBuffer (out ++ piece) ss
    | .error ds => .refused ds

def formatBuffer (sourceBuffer : Text) : FormatResult Diagnostic :=
  if sourceBuffer = [] then .success []
  else formatSlices layout sourceBuffer [] (split sourceBuffer)

/-- A slice and what stands for it in the output. -/
def Formatted (sourceBuffer : Text) (s : Slice) (piece : Text) : Prop :=
  formatSlice layout sourceBuffer s = .ok piece

/-- What a run over the slices comes to. -/
theorem formatSlices_spec (sourceBuffer out : Text) (ss : List Slice) :
    (∃ pieces, List.Forall₂ (Formatted layout sourceBuffer) ss pieces ∧
      formatSlices layout sourceBuffer out ss = .success (finish (out ++ pieces.flatten))) ∨
    ∃ before s after ds, ss = before ++ s :: after ∧
      (∀ u ∈ before, ∃ piece, Formatted layout sourceBuffer u piece) ∧
      formatSlice layout sourceBuffer s = .error ds ∧
      formatSlices layout sourceBuffer out ss = .refused ds := by
  induction ss generalizing out with
  | nil => exact .inl ⟨[], .nil, by simp [formatSlices]⟩
  | cons s ss ih =>
    cases hs : formatSlice layout sourceBuffer s with
    | ok piece =>
      have hstep : formatSlices layout sourceBuffer out (s :: ss) =
          formatSlices layout sourceBuffer (out ++ piece) ss := by
        rw [formatSlices, hs]
      rw [hstep]
      rcases ih (out ++ piece) with ⟨pieces, hall, heq⟩ | ⟨before, u, after, ds, rfl, hb, hu, heq⟩
      · refine .inl ⟨piece :: pieces, .cons hs hall, ?_⟩
        rw [heq, List.flatten_cons, List.append_assoc]
      · refine .inr ⟨s :: before, u, after, ds, rfl, fun v hv => ?_, hu, heq⟩
        rcases List.mem_cons.1 hv with rfl | hv
        · exact ⟨piece, hs⟩
        · exact hb v hv
    | error ds =>
      refine .inr ⟨[], s, ss, ds, rfl, by simp, hs, ?_⟩
      rw [formatSlices, hs]

end Layout

end Fmt

end Nslc
