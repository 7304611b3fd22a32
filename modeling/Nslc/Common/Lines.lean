import Mathlib
/-!
# Text cut into lines

A text is a list of characters, a line its characters up to a newline
together with whether that newline was there. `takeLine` reads one line
and `splitLines` all of them; the lemmas say that the second is the
first iterated, that the bytes come back by concatenation, and where in
the text each line begins.
-/

namespace Nslc

/-- A text, one character a byte. -/
abbrev Text := List Char

theorem drop_length_takeWhile (p : Char → Bool) (t : Text) :
    t.drop (t.takeWhile p).length = t.dropWhile p := by
  induction t with
  | nil => rfl
  | cons c cs ih =>
    by_cases hc : p c = true
    · simp [hc, ih]
    · simp [hc]

/-- One line of a text: the characters before the newline, and whether
the newline was there (it is missing only at the end of a text). -/
structure Line where
  body : Text
  newline : Bool
  deriving DecidableEq, Repr

namespace Line

/-- The line's terminator. -/
def term (l : Line) : Text := if l.newline then ['\n'] else []

/-- The line's bytes, terminator included. -/
def bytes (l : Line) : Text := l.body ++ l.term

end Line

/-- The first line of a text and what follows it. -/
def takeLine : Text → Line × Text
  | [] => (⟨[], false⟩, [])
  | c :: cs =>
    if c = '\n' then (⟨[], true⟩, cs)
    else (⟨c :: (takeLine cs).1.body, (takeLine cs).1.newline⟩, (takeLine cs).2)

/-- All lines of a text. -/
def splitLines : Text → List Line
  | [] => []
  | c :: cs =>
    if c = '\n' then ⟨[], true⟩ :: splitLines cs
    else
      match splitLines cs with
      | [] => [⟨[c], false⟩]
      | l :: ls => ⟨c :: l.body, l.newline⟩ :: ls

@[simp] theorem splitLines_nil : splitLines [] = [] := rfl

theorem takeLine_bytes (t : Text) : (takeLine t).1.bytes ++ (takeLine t).2 = t := by
  induction t with
  | nil => rfl
  | cons c cs ih =>
    by_cases h : c = '\n'
    · simp [takeLine, h, Line.bytes, Line.term]
    · have ih' := ih
      simp only [Line.bytes, Line.term, List.append_assoc] at ih'
      simp [takeLine, h, Line.bytes, Line.term, ih']

theorem takeLine_snd_of_newline_false {t : Text} (h : (takeLine t).1.newline = false) :
    (takeLine t).2 = [] := by
  induction t with
  | nil => rfl
  | cons c cs ih =>
    by_cases hc : c = '\n'
    · simp [takeLine, hc] at h
    · simp only [takeLine, hc, if_false] at h ⊢
      exact ih h

/-- **Reading lines one at a time.** A text that is not empty splits into
its first line and the lines of the rest. -/
theorem splitLines_eq_takeLine {t : Text} (h : t ≠ []) :
    splitLines t = (takeLine t).1 :: splitLines (takeLine t).2 := by
  induction t with
  | nil => exact absurd rfl h
  | cons c cs ih =>
    by_cases hc : c = '\n'
    · simp [splitLines, takeLine, hc]
    · simp only [splitLines, takeLine, hc, if_false]
      cases cs with
      | nil => simp [takeLine]
      | cons d ds => rw [ih (by simp)]

theorem splitLines_eq_nil {t : Text} : splitLines t = [] ↔ t = [] := by
  constructor
  · intro h
    by_contra hne
    simp [splitLines_eq_takeLine hne] at h
  · rintro rfl
    rfl

theorem takeLine_snd_length_lt {t : Text} (h : t ≠ []) :
    (takeLine t).2.length < t.length := by
  cases t with
  | nil => exact absurd rfl h
  | cons c cs =>
    by_cases hc : c = '\n'
    · simp [takeLine, hc]
    · have := congrArg List.length (takeLine_bytes cs)
      simp only [List.length_append] at this
      simp only [takeLine, hc, if_false, List.length_cons]
      omega

/-- A line read in front of a text: the cut after the line's newline
leaves the following text alone. -/
theorem takeLine_append {b t : Text} (h : '\n' ∉ b) :
    takeLine (b ++ '\n' :: t) = (⟨b, true⟩, t) := by
  induction b with
  | nil => simp [takeLine]
  | cons c cs ih =>
    have hc : c ≠ '\n' := fun he => h (by simp [he])
    simp [takeLine, hc, ih (fun hm => h (by simp [hm]))]

/-! ## Where lines begin -/

section Offsets

variable {t : Text} {l : Line} {ls : List Line}

/-- Behind the first line stand the others. -/
theorem splitLines_drop_of_cons (h : splitLines t = l :: ls) :
    splitLines (t.drop l.bytes.length) = ls := by
  have hne : t ≠ [] := fun he => by simp [he] at h
  rw [splitLines_eq_takeLine hne] at h
  obtain ⟨hl, hls⟩ := List.cons.inj h
  have hdrop := @List.drop_left Char l.bytes (takeLine t).2
  rw [← hl, takeLine_bytes] at hdrop
  rw [← hl, hdrop, hls]

/-- A line has its newline, or a byte before the end of the text. -/
theorem bytes_length_pos_of_cons (h : splitLines t = l :: ls) :
    0 < l.bytes.length ∧ l.bytes.length ≤ t.length := by
  have hne : t ≠ [] := fun he => by simp [he] at h
  rw [splitLines_eq_takeLine hne] at h
  have hl := (List.cons.inj h).1
  have hb := congrArg List.length (takeLine_bytes t)
  have hlt := takeLine_snd_length_lt hne
  rw [hl, List.length_append] at hb
  omega

/-- Only the last line can be without its newline. -/
theorem newline_of_cons_cons {k : Line} (h : splitLines t = l :: k :: ls) : l.newline = true := by
  have hne : t ≠ [] := fun he => by simp [he] at h
  rw [splitLines_eq_takeLine hne] at h
  obtain ⟨hl, hls⟩ := List.cons.inj h
  by_contra hn
  rw [← hl, Bool.not_eq_true] at hn
  rw [takeLine_snd_of_newline_false hn] at hls
  exact absurd hls (by simp)

/-- The number of bytes of some lines. -/
def bytesLength (ls : List Line) : ℕ := (ls.map fun l => l.bytes.length).sum

@[simp] theorem bytesLength_nil : bytesLength [] = 0 := rfl

@[simp] theorem bytesLength_cons (l : Line) (ls : List Line) :
    bytesLength (l :: ls) = l.bytes.length + bytesLength ls := by simp [bytesLength]

@[simp] theorem bytesLength_append (ls ks : List Line) :
    bytesLength (ls ++ ks) = bytesLength ls + bytesLength ks := by simp [bytesLength]

/-- The lines' bytes are the text. -/
theorem flatten_splitLines (t : Text) : ((splitLines t).map Line.bytes).flatten = t := by
  induction t with
  | nil => rfl
  | cons c cs ih =>
    by_cases hc : c = '\n'
    · simp [splitLines, hc, Line.bytes, Line.term, ih]
    · cases hs : splitLines cs with
      | nil =>
        rw [splitLines_eq_nil] at hs
        simp [splitLines, hc, hs, Line.bytes, Line.term]
      | cons l ls =>
        rw [hs] at ih
        simp only [List.map_cons, List.flatten_cons, Line.bytes, List.append_assoc] at ih
        simp [splitLines, hc, hs, Line.bytes, Line.term] at ih ⊢
        exact ih

theorem bytesLength_splitLines (t : Text) : bytesLength (splitLines t) = t.length := by
  have := congrArg List.length (flatten_splitLines t)
  rw [List.length_flatten, List.map_map] at this
  exact this

theorem bytes_pos_of_mem (h : l ∈ splitLines t) : 0 < l.bytes.length := by
  induction t generalizing l with
  | nil => exact absurd h (by simp)
  | cons c cs ih =>
    by_cases hc : c = '\n'
    · simp only [splitLines, hc, if_true, List.mem_cons] at h
      rcases h with rfl | h
      · simp [Line.bytes, Line.term]
      · exact ih h
    · simp only [splitLines, hc, if_false] at h
      split at h
      · obtain rfl := List.mem_singleton.1 h
        simp [Line.bytes]
      · rename_i k ks hs
        rcases List.mem_cons.1 h with rfl | h
        · simp [Line.bytes]
        · exact ih (by simp [hs, h])

theorem body_no_newline_of_mem (h : l ∈ splitLines t) : '\n' ∉ l.body := by
  induction t generalizing l with
  | nil => exact absurd h (by simp)
  | cons c cs ih =>
    by_cases hc : c = '\n'
    · simp only [splitLines, hc, if_true, List.mem_cons] at h
      rcases h with rfl | h
      · simp
      · exact ih h
    · simp only [splitLines, hc, if_false] at h
      split at h
      · obtain rfl := List.mem_singleton.1 h
        simpa using fun he => hc he.symm
      · rename_i k ks hs
        rcases List.mem_cons.1 h with rfl | h
        · have hk : '\n' ∉ k.body := ih (by simp [hs])
          simpa [hk] using fun he => hc he.symm
        · exact ih (by simp [hs, h])

/-- The offset at which line `i` begins. -/
def lineOffset (t : Text) (i : ℕ) : ℕ := bytesLength ((splitLines t).take i)

@[simp] theorem lineOffset_zero (t : Text) : lineOffset t 0 = 0 := rfl

theorem lineOffset_succ {i : ℕ} (h : (splitLines t)[i]? = some l) :
    lineOffset t (i + 1) = lineOffset t i + l.bytes.length := by
  simp [lineOffset, List.take_add_one, h]

/-- From the offset of line `i` on, the text has the lines from `i` on. -/
theorem splitLines_drop_lineOffset (t : Text) (i : ℕ) :
    splitLines (t.drop (lineOffset t i)) = (splitLines t).drop i := by
  induction i with
  | zero => rfl
  | succ i ih =>
    cases hl : (splitLines t)[i]? with
    | none =>
      have hle : (splitLines t).length ≤ i := List.getElem?_eq_none_iff.1 hl
      have hoff : lineOffset t (i + 1) = lineOffset t i := by
        simp [lineOffset, List.take_add_one, hl]
      rw [hoff, ih, List.drop_eq_nil_of_le hle, List.drop_eq_nil_of_le (by omega)]
    | some l =>
      have hcons : splitLines (t.drop (lineOffset t i)) = l :: (splitLines t).drop (i + 1) := by
        rw [ih]
        exact List.drop_eq_getElem?_toList_append.trans (by simp [hl])
      rw [lineOffset_succ hl, ← List.drop_drop]
      exact splitLines_drop_of_cons hcons

/-- Later lines begin later. -/
theorem lineOffset_lt {i j : ℕ} (hij : i < j) (hj : j ≤ (splitLines t).length) :
    lineOffset t i < lineOffset t j := by
  induction j with
  | zero => omega
  | succ j ih =>
    have hl : (splitLines t)[j]? = some (splitLines t)[j] := List.getElem?_eq_getElem (by omega)
    have hcons : splitLines (t.drop (lineOffset t j)) =
        (splitLines t)[j] :: (splitLines t).drop (j + 1) := by
      rw [splitLines_drop_lineOffset]
      exact List.drop_eq_getElem_cons (by omega)
    have hpos := (bytes_length_pos_of_cons hcons).1
    rw [lineOffset_succ hl]
    rcases Nat.lt_or_ge i j with h | h
    · have := ih h (by omega)
      omega
    · obtain rfl : i = j := by omega
      omega

theorem lineOffset_lt_iff {i j : ℕ} (hi : i ≤ (splitLines t).length)
    (hj : j ≤ (splitLines t).length) : lineOffset t i < lineOffset t j ↔ i < j := by
  constructor
  · intro h
    by_contra hge
    rcases Nat.lt_or_ge j i with hlt | hle
    · have := lineOffset_lt hlt hi
      omega
    · obtain rfl : i = j := by omega
      omega
  · exact fun h => lineOffset_lt h hj

/-- Every line begins inside the text. -/
theorem lineOffset_le_length {i : ℕ} (hi : i ≤ (splitLines t).length) :
    lineOffset t i ≤ t.length := by
  cases i with
  | zero => simp
  | succ i =>
    have hl : (splitLines t)[i]? = some (splitLines t)[i] := List.getElem?_eq_getElem (by omega)
    have hcons : splitLines (t.drop (lineOffset t i)) =
        (splitLines t)[i] :: (splitLines t).drop (i + 1) := by
      rw [splitLines_drop_lineOffset]
      exact List.drop_eq_getElem_cons (by omega)
    obtain ⟨hpos, hle⟩ := bytes_length_pos_of_cons hcons
    rw [List.length_drop] at hle
    rw [lineOffset_succ hl]
    omega

/-- A character that ends no line stands in front of the first line. -/
theorem splitLines_cons_of_ne {c : Char} (hc : c ≠ '\n') (h : splitLines t = l :: ls) :
    splitLines (c :: t) = ⟨c :: l.body, l.newline⟩ :: ls := by
  simp [splitLines, hc, h]

/-- The text ends where a line ends. -/
def AtLineStart (t : Text) : Prop := t = [] ∨ t.getLast? = some '\n'

instance (t : Text) : Decidable (AtLineStart t) := inferInstanceAs (Decidable (_ ∨ _))

/-- Text behind the end of a line is cut on its own. -/
theorem splitLines_append {r : Text} (h : AtLineStart t) :
    splitLines (t ++ r) = splitLines t ++ splitLines r := by
  induction t with
  | nil => rfl
  | cons c cs ih =>
    have hlast : (c :: cs).getLast? = some '\n' := by
      rcases h with h | h
      · exact absurd h (by simp)
      · exact h
    by_cases hc : c = '\n'
    · have hcs : AtLineStart cs := by
        cases cs with
        | nil => exact .inl rfl
        | cons d ds => exact .inr (by simpa [List.getLast?_cons_cons] using hlast)
      simp [splitLines, hc, ih hcs]
    · cases cs with
      | nil => exact absurd (by simpa using hlast) hc
      | cons d ds =>
        have hcs : AtLineStart (d :: ds) :=
          .inr (by simpa [List.getLast?_cons_cons] using hlast)
        obtain ⟨k, ks, hk⟩ : ∃ k ks, splitLines (d :: ds) = k :: ks :=
          List.exists_cons_of_ne_nil (fun he => absurd (splitLines_eq_nil.1 he) (by simp))
        have ih' := ih hcs
        rw [hk] at ih'
        rw [splitLines_cons_of_ne hc hk, List.cons_append, splitLines_cons_of_ne hc ih']
        rfl

theorem atLineStart_append (t : Text) (b : Text) : AtLineStart (t ++ (b ++ ['\n'])) :=
  .inr (by simp)

/-- One more whole line. -/
theorem splitLines_append_line {b : Text} (h : AtLineStart t) (hb : '\n' ∉ b) :
    splitLines (t ++ (b ++ ['\n'])) = splitLines t ++ [⟨b, true⟩] := by
  have hline : splitLines (b ++ ['\n']) = [⟨b, true⟩] := by
    rw [splitLines_eq_takeLine (by simp), takeLine_append hb]
    rfl
  rw [splitLines_append h, hline]

/-- At the end of a line, every line has its newline. -/
theorem newline_of_atLineStart (h : AtLineStart t) : ∀ l ∈ splitLines t, l.newline = true := by
  induction t with
  | nil => exact fun l hl => absurd hl (by simp)
  | cons c cs ih =>
    have hlast : (c :: cs).getLast? = some '\n' := by
      rcases h with h | h
      · exact absurd h (by simp)
      · exact h
    have hcs : c ≠ '\n' ∨ cs ≠ [] → AtLineStart cs := by
      intro hne
      cases cs with
      | nil =>
        rcases hne with hne | hne
        · exact absurd (by simpa using hlast) hne
        · exact absurd rfl hne
      | cons d ds => exact .inr (by simpa [List.getLast?_cons_cons] using hlast)
    intro l hl
    by_cases hc : c = '\n'
    · simp only [splitLines, hc, if_true, List.mem_cons] at hl
      rcases hl with rfl | hl
      · rfl
      · refine ih (hcs (.inr ?_)) l hl
        rintro rfl
        exact absurd hl (by simp)
    · have ih' := ih (hcs (.inl hc))
      simp only [splitLines, hc, if_false] at hl
      split at hl
      · rename_i hs
        rw [splitLines_eq_nil] at hs
        subst hs
        exact absurd (by simpa using hlast) hc
      · rename_i k ks hs
        rw [hs] at ih'
        rcases List.mem_cons.1 hl with rfl | hl
        · exact ih' k (by simp)
        · exact ih' l (by simp [hl])

end Offsets

end Nslc
