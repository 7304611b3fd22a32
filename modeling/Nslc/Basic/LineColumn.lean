import Nslc.Basic.VirtualLocation
/-!
# Source files — lines and columns

Every offset of a buffer stands in the first line behind some whole
lines. There the line map counts the newlines of what is in front, and
`getLine` answers the line.
-/

namespace Nslc

/-- `SourceManager::getLine`: the line an offset stands in, without its
newline. -/
def getLine (bytes : Text) (off : ℕ) : Text :=
  let lineStart := (lineOffsets bytes).getD (lineIdx bytes off) 0
  let lineEnd :=
    match (lineOffsets bytes)[lineIdx bytes off + 1]? with
    | some next => next - 1
    | none => bytes.length
  (bytes.drop lineStart).take (lineEnd - lineStart)

/-- Column `c` lies in the first line of `rest`. Behind the last line
there is no other one. -/
def InFirstLine (rest : Text) (c : ℕ) : Prop :=
  (takeLine rest).1.newline = true → c ≤ (takeLine rest).1.body.length

variable {pre rest : Text} {c : ℕ}

theorem newline_takeLine (t : Text) : '\n' ∉ (takeLine t).1.body := by
  induction t with
  | nil => simp [takeLine]
  | cons a as ih =>
    by_cases ha : a = '\n'
    · simp [takeLine, ha]
    · simp only [takeLine, ha, if_false, List.mem_cons, not_or]
      exact ⟨fun h => ha h.symm, ih⟩

/-- The line starts of a text, one line at a time. -/
theorem lineStartsFrom_takeLine (off : ℕ) (t : Text) :
    lineStartsFrom off t =
      if (takeLine t).1.newline then
        (off + (takeLine t).1.body.length + 1) ::
          lineStartsFrom (off + (takeLine t).1.body.length + 1) (takeLine t).2
      else [] := by
  induction t generalizing off with
  | nil => rfl
  | cons a as ih =>
    by_cases ha : a = '\n'
    · simp [takeLine, lineStartsFrom, ha]
    · have hoff : off + ((takeLine as).1.body.length + 1) + 1 =
          off + 1 + (takeLine as).1.body.length + 1 := by omega
      simp only [takeLine, lineStartsFrom, ha, if_false, List.length_cons, hoff]
      exact ih (off + 1)

theorem length_lineStartsFrom (off : ℕ) (t : Text) :
    (lineStartsFrom off t).length = t.count '\n' := by
  induction t generalizing off with
  | nil => rfl
  | cons a as ih =>
    by_cases ha : a = '\n'
    · simp [lineStartsFrom, ha, ih]
    · simp [lineStartsFrom, ha, ih]

/-- Whole lines in front: their starts, and the start of what follows. -/
theorem lineOffsets_append (h : AtLineStart pre) (rest : Text) :
    ∃ starts, starts.length = pre.count '\n' ∧
      lineOffsets (pre ++ rest) = starts ++ pre.length :: lineStartsFrom pre.length rest := by
  rw [lineOffsets, lineStartsFrom_append, Nat.zero_add]
  obtain rfl | hlast := h
  · exact ⟨[], rfl, rfl⟩
  · obtain ⟨q, rfl⟩ := List.getLast?_eq_some_iff.1 hlast
    refine ⟨0 :: lineStartsFrom 0 q, ?_, ?_⟩
    · rw [List.length_cons, length_lineStartsFrom, List.count_append, List.count_singleton_self]
    · rw [lineStartsFrom_append, Nat.zero_add, List.length_append, List.length_singleton,
        List.cons_append, List.append_assoc]
      rfl

/-- The part of a line in front of a column holds no newline. -/
theorem newline_take (h : InFirstLine rest c) : '\n' ∉ rest.take c := by
  intro hmem
  have hbytes := takeLine_bytes rest
  cases hn : (takeLine rest).1.newline with
  | true =>
    rw [Line.bytes, List.append_assoc] at hbytes
    rw [← hbytes, List.take_append_of_le_length (h hn)] at hmem
    exact newline_takeLine rest (List.mem_of_mem_take hmem)
  | false =>
    rw [takeLine_snd_of_newline_false hn, List.append_nil, Line.bytes, Line.term, hn] at hbytes
    have hrest : (takeLine rest).1.body = rest := by simpa using hbytes
    refine newline_takeLine rest ?_
    rw [hrest]
    exact List.mem_of_mem_take hmem

/-- **The line of an offset** is as many as there are newlines in front. -/
theorem lineIdx_append (h : InFirstLine rest c) :
    lineIdx (pre ++ rest) (pre.length + c) = pre.count '\n' := by
  rw [lineIdx_eq_count, List.take_length_add_append, List.count_append,
    List.count_eq_zero.2 (newline_take h), Nat.add_zero]

theorem getLineCol_append (hpre : AtLineStart pre) (h : InFirstLine rest c) :
    getLineCol (pre ++ rest) (pre.length + c) = (pre.count '\n' + 1, c + 1) := by
  obtain ⟨starts, hlen, hstarts⟩ := lineOffsets_append hpre rest
  have hstart : (lineOffsets (pre ++ rest)).getD (pre.count '\n') 0 = pre.length := by
    rw [hstarts, ← hlen]
    simp
  rw [getLineCol, lineIdx_append h, hstart, Nat.add_sub_cancel_left]

/-- **The text of a line.** -/
theorem getLine_append (hpre : AtLineStart pre) (h : InFirstLine rest c) :
    getLine (pre ++ rest) (pre.length + c) = (takeLine rest).1.body := by
  obtain ⟨starts, hlen, hstarts⟩ := lineOffsets_append hpre rest
  have hstart : (lineOffsets (pre ++ rest)).getD (pre.count '\n') 0 = pre.length := by
    rw [hstarts, ← hlen]
    simp
  have hnext : (lineOffsets (pre ++ rest))[pre.count '\n' + 1]? =
      (lineStartsFrom pre.length rest).head? := by
    rw [hstarts, ← hlen, List.getElem?_append_right (by omega), Nat.add_sub_cancel_left,
      List.getElem?_cons_succ, List.head?_eq_getElem?]
  have hbytes := takeLine_bytes rest
  simp only [getLine, lineIdx_append h, hstart, hnext, List.drop_left]
  rw [lineStartsFrom_takeLine]
  cases hn : (takeLine rest).1.newline with
  | true =>
    have hsize : pre.length + (takeLine rest).1.body.length + 1 - 1 - pre.length =
        (takeLine rest).1.body.length := by omega
    rw [Line.bytes, List.append_assoc] at hbytes
    simp only [if_true, List.head?_cons, hsize]
    exact (List.prefix_iff_eq_take.1 ⟨_, hbytes⟩).symm
  | false =>
    rw [takeLine_snd_of_newline_false hn, List.append_nil, Line.bytes, Line.term, hn] at hbytes
    have hrest : (takeLine rest).1.body = rest := by simpa using hbytes
    simp [hrest]

end Nslc
