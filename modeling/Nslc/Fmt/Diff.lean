import Nslc.Common.Lines
import Nslc.Common.Subsequence
/-!
# Unified diffs

The diff of two texts, line by line: a table of the lengths of longest
common subsequences, an edit script walked back through it, and the
script cut into hunks around its changes. A script is cut into hunks and
gaps of context, and what a hunk says of its place in both texts is read
off what stands before it.
-/

namespace Nslc

namespace Fmt

/-- The loop of `splitLines`, with the line begun. -/
def splitLinesFrom (current : Text) : Text → List Text
  | [] => if current = [] then [] else [current]
  | c :: cs =>
    if c = '\n' then current :: splitLinesFrom [] cs
    else splitLinesFrom (current ++ [c]) cs

/-- `splitLines`: without the newlines, and without an empty last line. -/
def splitLines (text : Text) : List Text := splitLinesFrom [] text

/-! ## The table -/

/-- `LCSTable`: the cells of one row after another. -/
structure LCSTable where
  n : ℕ
  m : ℕ
  data : List ℕ

namespace LCSTable

/-- The table of zeros. -/
def zeros (n m : ℕ) : LCSTable := ⟨n, m, List.replicate ((n + 1) * (m + 1)) 0⟩

/-- `LCSTable::at`. -/
def entry (L : LCSTable) (i j : ℕ) : ℕ := L.data.getD (i * (L.m + 1) + j) 0

def setEntry (L : LCSTable) (i j v : ℕ) : LCSTable :=
  { L with data := L.data.set (i * (L.m + 1) + j) v }

end LCSTable

/-- The cell of row `i` and column `j`. -/
def fillCell (a b : List Text) (L : LCSTable) (i j : ℕ) : LCSTable :=
  if a[i - 1]? = b[j - 1]? then L.setEntry i j (L.entry (i - 1) (j - 1) + 1)
  else L.setEntry i j (max (L.entry (i - 1) j) (L.entry i (j - 1)))

/-- The row `i`. -/
def fillRow (a b : List Text) (L : LCSTable) (i : ℕ) : LCSTable :=
  (List.range' 1 L.m).foldl (fun L j => fillCell a b L i j) L

/-- `fillLCS`. -/
def fillLCS (L : LCSTable) (a b : List Text) : LCSTable :=
  (List.range' 1 L.n).foldl (fillRow a b) L

/-! ## The edit script -/

inductive EditKind where
  | context
  | removed
  | added
  deriving DecidableEq, Repr

structure Edit where
  kind : EditKind
  text : Text
  deriving DecidableEq, Repr

/-- The loops of `traceDiff`, from row `i` and column `j` back. -/
def traceBack (L : LCSTable) (a b : List Text) : ℕ → ℕ → List Edit
  | 0, 0 => []
  | i + 1, 0 => ⟨.removed, a.getD i []⟩ :: traceBack L a b i 0
  | 0, j + 1 => ⟨.added, b.getD j []⟩ :: traceBack L a b 0 j
  | i + 1, j + 1 =>
    if a[i]? = b[j]? then ⟨.context, a.getD i []⟩ :: traceBack L a b i j
    -- On a tie the added line comes first, and last once reversed.
    else if L.entry i (j + 1) > L.entry (i + 1) j then
      ⟨.removed, a.getD i []⟩ :: traceBack L a b i (j + 1)
    else ⟨.added, b.getD j []⟩ :: traceBack L a b (i + 1) j
termination_by i j => i + j

/-- `traceDiff`. -/
def traceDiff (L : LCSTable) (a b : List Text) : List Edit := (traceBack L a b L.n L.m).reverse

/-- The edit script of two lists of lines. -/
def editScript (oldLines newLines : List Text) : List Edit :=
  traceDiff (fillLCS (.zeros oldLines.length newLines.length) oldLines newLines) oldLines newLines

/-! ## Hunks -/

def kContextLines : ℕ := 3

/-- A hunk; the starts count from one. -/
structure Hunk where
  oldStart : ℕ
  oldCount : ℕ
  newStart : ℕ
  newCount : ℕ
  edits : List Edit
  deriving DecidableEq, Repr

/-- `oldLineAt` and `newLineAt`, from the line numbers before an edit on. -/
def lineCursors (o n : ℕ) : List Edit → List (ℕ × ℕ)
  | [] => [(o, n)]
  | e :: es =>
    (o, n) :: match e.kind with
      | .context => lineCursors (o + 1) (n + 1) es
      | .removed => lineCursors (o + 1) n es
      | .added => lineCursors o (n + 1) es

/-- `changeIdx`. -/
def changeIdx (edits : List Edit) : List ℕ :=
  (List.range edits.length).filter fun i => edits[i]?.any fun e => e.kind ≠ .context

/-- The hunk of the changes from `groupStart` to `groupEnd`. -/
def makeHunk (edits : List Edit) (groupStart groupEnd : ℕ) : Hunk :=
  let lineAt := lineCursors 1 1 edits
  let lo := if groupStart ≥ kContextLines then groupStart - kContextLines else 0
  let hi := min (groupEnd + kContextLines + 1) edits.length
  { oldStart := (lineAt.getD lo (0, 0)).1
    oldCount := (lineAt.getD hi (0, 0)).1 - (lineAt.getD lo (0, 0)).1
    newStart := (lineAt.getD lo (0, 0)).2
    newCount := (lineAt.getD hi (0, 0)).2 - (lineAt.getD lo (0, 0)).2
    edits := (edits.drop lo).take (hi - lo) }

/-- The loop over the changes, with the group begun. -/
def groupLoop (edits : List Edit) (groupStart groupEnd : ℕ) : List ℕ → List Hunk
  | [] => [makeHunk edits groupStart groupEnd]
  | k :: ks =>
    if k - groupEnd ≤ 2 * kContextLines then groupLoop edits groupStart k ks
    else makeHunk edits groupStart groupEnd :: groupLoop edits k k ks

/-- `groupIntoHunks`. -/
def groupIntoHunks (edits : List Edit) : List Hunk :=
  match changeIdx edits with
  | [] => []
  | k :: ks => groupLoop edits k k ks

namespace Hunk

def oldStartReported (h : Hunk) : ℕ := if h.oldCount = 0 then h.oldStart - 1 else h.oldStart

def newStartReported (h : Hunk) : ℕ := if h.newCount = 0 then h.newStart - 1 else h.newStart

end Hunk

def EditKind.sign : EditKind → Char
  | .context => ' '
  | .removed => '-'
  | .added => '+'

/-- `emitHunk`. -/
def emitHunk (h : Hunk) : Text :=
  "@@ -".toList ++ Nat.toDigits 10 h.oldStartReported ++ [','] ++ Nat.toDigits 10 h.oldCount ++
    " +".toList ++ Nat.toDigits 10 h.newStartReported ++ [','] ++ Nat.toDigits 10 h.newCount ++
    " @@\n".toList ++ h.edits.flatMap fun e => e.kind.sign :: (e.text ++ ['\n'])

def fileHeader (oldName newName : Text) : Text :=
  "--- ".toList ++ oldName ++ "\n+++ ".toList ++ newName ++ ['\n']

/-- `computeUnifiedDiff`. -/
def computeUnifiedDiff (oldText newText oldName newName : Text) : Text :=
  if oldText = newText then []
  else
    let hunks := groupIntoHunks (editScript (splitLines oldText) (splitLines newText))
    if hunks = [] then fileHeader oldName newName
    else fileHeader oldName newName ++ hunks.flatMap emitHunk

/-! ## What a diff says -/

def Edit.isContext (e : Edit) : Bool := e.kind = .context

/-- The lines of an edit script that the old text has. -/
def oldSide (es : List Edit) : List Text :=
  (es.filter fun e => e.kind ≠ .added).map Edit.text

/-- The lines of an edit script that the new text has. -/
def newSide (es : List Edit) : List Text :=
  (es.filter fun e => e.kind ≠ .removed).map Edit.text

/-- The lines in front of a hunk, by its header. -/
def linesBefore (start count : ℕ) : ℕ := if count = 0 then start else start - 1

/-- The hunks applied to the lines from number `pos` on: the lines in
front of a hunk stay, its old side has to be there. -/
def applyHunks (pos : ℕ) (rest : List Text) : List Hunk → Option (List Text)
  | [] => some rest
  | h :: hs =>
    let begin := linesBefore h.oldStartReported h.oldCount
    if pos ≤ begin ∧ begin - pos ≤ rest.length ∧
        oldSide h.edits <+: rest.drop (begin - pos) ∧ h.oldCount = (oldSide h.edits).length then
      (applyHunks (begin + h.oldCount) (rest.drop (begin - pos + h.oldCount)) hs).map fun tail =>
        rest.take (begin - pos) ++ newSide h.edits ++ tail
    else none

/-- A hunk is right about two lists of lines. -/
structure HunkRight (oldLines newLines : List Text) (h : Hunk) : Prop where
  oldStart_pos : 1 ≤ h.oldStart
  newStart_pos : 1 ≤ h.newStart
  oldCount_eq : h.oldCount = (oldSide h.edits).length
  newCount_eq : h.newCount = (newSide h.edits).length
  oldLines_eq : (oldLines.drop (h.oldStart - 1)).take h.oldCount = oldSide h.edits
  newLines_eq : (newLines.drop (h.newStart - 1)).take h.newCount = newSide h.edits
  changed : ∃ e ∈ h.edits, e.kind ≠ .context
  leading : (h.edits.takeWhile Edit.isContext).length ≤ 3
  trailing : (h.edits.reverse.takeWhile Edit.isContext).length ≤ 3

/-- The one hunk ends before the other begins, in both texts. -/
def Hunk.Before (h h' : Hunk) : Prop :=
  h.oldStart + h.oldCount ≤ h'.oldStart ∧ h.newStart + h.newCount ≤ h'.newStart

/-- The hunks of two texts. -/
def hunksOf (oldText newText : Text) : List Hunk :=
  groupIntoHunks (editScript (splitLines oldText) (splitLines newText))

/-- **A unified diff is correct and minimal.** -/
structure DiffRight (oldText newText oldName newName : Text) : Prop where
  empty_iff : computeUnifiedDiff oldText newText oldName newName = [] ↔ oldText = newText
  shown : oldText ≠ newText → computeUnifiedDiff oldText newText oldName newName =
    fileHeader oldName newName ++ (hunksOf oldText newText).flatMap emitHunk
  right : ∀ h ∈ hunksOf oldText newText, HunkRight (splitLines oldText) (splitLines newText) h
  ordered : (hunksOf oldText newText).Pairwise Hunk.Before
  applies : applyHunks 0 (splitLines oldText) (hunksOf oldText newText) =
    some (splitLines newText)
  minimal : IsLongest
    ((editScript (splitLines oldText) (splitLines newText)).filter Edit.isContext).length
    (splitLines oldText) (splitLines newText)

/-! ## The table is right -/

/-- The cells filled before row `i` and column `j`. -/
def Done (i j i' j' : ℕ) : Prop := i' = 0 ∨ j' = 0 ∨ i' < i ∨ (i' = i ∧ j' < j)

/-- A table of the right size whose cells are right up to one. -/
structure Filled (a b : List Text) (L : LCSTable) (i j : ℕ) : Prop where
  n_eq : L.n = a.length
  m_eq : L.m = b.length
  size : L.data.length = (a.length + 1) * (b.length + 1)
  cells : ∀ i' ≤ a.length, ∀ j' ≤ b.length, Done i j i' j' →
    IsLongest (L.entry i' j') (a.take i') (b.take j')

namespace LCSTable

/-- Two cells of a table have different places. -/
theorem index_injective {m i j i' j' : ℕ} (hj : j ≤ m) (hj' : j' ≤ m)
    (h : i * (m + 1) + j = i' * (m + 1) + j') : i = i' ∧ j = j' := by
  have hdiv : ∀ k l : ℕ, l ≤ m → (k * (m + 1) + l) / (m + 1) = k := fun k l hl => by
    rw [Nat.mul_comm, Nat.mul_add_div (Nat.succ_pos m), Nat.div_eq_of_lt (by omega), Nat.add_zero]
  have hi : i = i' := by
    rw [← hdiv i j hj, h, hdiv i' j' hj']
  subst hi
  exact ⟨rfl, by omega⟩

theorem index_lt {n m i j : ℕ} (hi : i ≤ n) (hj : j ≤ m) :
    i * (m + 1) + j < (n + 1) * (m + 1) := by
  have : i * (m + 1) ≤ n * (m + 1) := Nat.mul_le_mul_right _ hi
  rw [Nat.add_mul, Nat.one_mul]
  omega

theorem entry_setEntry_self {L : LCSTable} {i j : ℕ} (v : ℕ)
    (h : i * (L.m + 1) + j < L.data.length) : (L.setEntry i j v).entry i j = v := by
  simp [entry, setEntry, h]

theorem entry_setEntry_ne {L : LCSTable} {i j i' j' : ℕ} (v : ℕ) (hj : j ≤ L.m) (hj' : j' ≤ L.m)
    (h : ¬ (i' = i ∧ j' = j)) : (L.setEntry i j v).entry i' j' = L.entry i' j' := by
  have hne : i * (L.m + 1) + j ≠ i' * (L.m + 1) + j' := fun heq =>
    h ((index_injective hj hj' heq).imp Eq.symm Eq.symm)
  simp [entry, setEntry, List.getD_eq_getElem?_getD, List.getElem?_set_ne hne]

end LCSTable

theorem filled_zeros (a b : List Text) :
    Filled a b (.zeros a.length b.length) 1 1 where
  n_eq := rfl
  m_eq := rfl
  size := List.length_replicate
  cells i' hi j' hj hdone := by
    have hzero : (LCSTable.zeros a.length b.length).entry i' j' = 0 := by
      simp only [LCSTable.entry, LCSTable.zeros, List.getD_eq_getElem?_getD,
        List.getElem?_replicate]
      split <;> rfl
    rw [hzero]
    rcases hdone with rfl | rfl | hlt | ⟨rfl, hlt⟩
    · exact IsLongest.nil_left _
    · exact IsLongest.nil_right _
    · obtain rfl : i' = 0 := by omega
      exact IsLongest.nil_left _
    · obtain rfl : j' = 0 := by omega
      exact IsLongest.nil_right _

/-- **One cell** is right if those before it are. -/
theorem filled_fillCell {a b : List Text} {L : LCSTable} {i j : ℕ} (hi : i < a.length)
    (hj : j < b.length) (h : Filled a b L (i + 1) (j + 1)) :
    Filled a b (fillCell a b L (i + 1) (j + 1)) (i + 1) (j + 2) := by
  have hat : (i + 1) * (L.m + 1) + (j + 1) < L.data.length := by
    rw [h.size, h.m_eq]
    exact LCSTable.index_lt hi hj
  have hai : a.take (i + 1) = a.take i ++ [a[i]] := List.take_succ_eq_append_getElem hi
  have hbj : b.take (j + 1) = b.take j ++ [b[j]] := List.take_succ_eq_append_getElem hj
  obtain ⟨v, hv, hlongest⟩ : ∃ v, fillCell a b L (i + 1) (j + 1) = L.setEntry (i + 1) (j + 1) v ∧
      IsLongest v (a.take (i + 1)) (b.take (j + 1)) := by
    unfold fillCell
    simp only [Nat.add_sub_cancel, List.getElem?_eq_getElem hi, List.getElem?_eq_getElem hj,
      Option.some.injEq]
    rw [hai, hbj]
    by_cases heq : a[i] = b[j]
    · have hdiag := h.cells i (by omega) j (by omega) (by unfold Done; omega)
      refine ⟨_, if_pos heq, ?_⟩
      rw [heq]
      exact hdiag.concat_same _
    · have hup := h.cells i (by omega) (j + 1) (by omega) (by unfold Done; omega)
      have hleft := h.cells (i + 1) (by omega) j (by omega) (by unfold Done; omega)
      rw [hbj] at hup
      rw [hai] at hleft
      exact ⟨_, if_neg heq, hup.concat_ne heq hleft⟩
  rw [hv]
  refine ⟨h.n_eq, h.m_eq, (List.length_set).trans h.size, ?_⟩
  intro i' hi' j' hj' hdone
  by_cases hhere : i' = i + 1 ∧ j' = j + 1
  · obtain ⟨rfl, rfl⟩ := hhere
    rw [LCSTable.entry_setEntry_self v hat]
    exact hlongest
  · rw [LCSTable.entry_setEntry_ne v (h.m_eq ▸ hj) (h.m_eq ▸ hj') hhere]
    exact h.cells i' hi' j' hj' (by unfold Done at hdone ⊢; omega)

/-- **One row.** -/
theorem filled_fillRow {a b : List Text} {L : LCSTable} {i : ℕ} (hi : i < a.length)
    (h : Filled a b L (i + 1) 1) : Filled a b (fillRow a b L (i + 1)) (i + 2) 1 := by
  have hcells : ∀ k ≤ b.length, Filled a b
      ((List.range' 1 k).foldl (fun L j => fillCell a b L (i + 1) j) L) (i + 1) (k + 1) := by
    intro k
    induction k with
    | zero => exact fun _ => h
    | succ k ih =>
      intro hk
      rw [List.range'_1_concat, List.foldl_append, Nat.add_comm 1 k]
      exact filled_fillCell hi hk (ih (by omega))
  have hrow := hcells b.length le_rfl
  rw [← h.m_eq] at hrow
  refine ⟨hrow.n_eq, hrow.m_eq, hrow.size, fun i' hi' j' hj' hdone => ?_⟩
  refine hrow.cells i' hi' j' hj' ?_
  rw [h.m_eq]
  unfold Done at hdone ⊢
  omega

/-- **The whole table.** -/
theorem filled_fillLCS (a b : List Text) :
    Filled a b (fillLCS (.zeros a.length b.length) a b) (a.length + 1) 1 := by
  have hrows : ∀ k ≤ a.length, Filled a b
      ((List.range' 1 k).foldl (fillRow a b) (.zeros a.length b.length)) (k + 1) 1 := by
    intro k
    induction k with
    | zero => exact fun _ => filled_zeros a b
    | succ k ih =>
      intro hk
      rw [List.range'_1_concat, List.foldl_append, Nat.add_comm 1 k]
      exact filled_fillRow hk (ih (by omega))
  exact hrows a.length le_rfl

/-! ## The edit script -/

/-- A table all of whose cells are right. -/
def Complete (a b : List Text) (L : LCSTable) : Prop :=
  ∀ i ≤ a.length, ∀ j ≤ b.length, IsLongest (L.entry i j) (a.take i) (b.take j)

theorem complete_fillLCS (a b : List Text) :
    Complete a b (fillLCS (.zeros a.length b.length) a b) := fun i hi j hj =>
  (filled_fillLCS a b).cells i hi j hj (by unfold Done; omega)

@[simp] theorem oldSide_nil : oldSide [] = [] := rfl

@[simp] theorem newSide_nil : newSide [] = [] := rfl

@[simp] theorem oldSide_append (es fs : List Edit) :
    oldSide (es ++ fs) = oldSide es ++ oldSide fs := by
  simp [oldSide]

@[simp] theorem newSide_append (es fs : List Edit) :
    newSide (es ++ fs) = newSide es ++ newSide fs := by
  simp [newSide]

/-- The lines kept by a script. -/
def keptCount (es : List Edit) : ℕ := (es.filter Edit.isContext).length

theorem getD_concat {a : List Text} {i : ℕ} (hi : i < a.length) :
    a.take i ++ [a.getD i []] = a.take (i + 1) := by
  rw [List.take_succ_eq_append_getElem hi, List.getD_eq_getElem a [] hi]

section
variable {es : List Edit} {t : Text}

theorem oldSide_reverse_cons (e : Edit) :
    oldSide (e :: es).reverse = oldSide es.reverse ++ oldSide [e] := by
  rw [List.reverse_cons, oldSide_append]

theorem newSide_reverse_cons (e : Edit) :
    newSide (e :: es).reverse = newSide es.reverse ++ newSide [e] := by
  rw [List.reverse_cons, newSide_append]

theorem keptCount_context : keptCount (⟨.context, t⟩ :: es) = keptCount es + 1 := rfl

theorem keptCount_removed : keptCount (⟨.removed, t⟩ :: es) = keptCount es := rfl

theorem keptCount_added : keptCount (⟨.added, t⟩ :: es) = keptCount es := rfl

end

/-- Where the lines differ, the table has the better of its neighbours. -/
theorem Complete.longest_of_ne {a b : List Text} {L : LCSTable} (hL : Complete a b L) {i j : ℕ}
    (hi : i < a.length) (hj : j < b.length) (hne : a[i]? ≠ b[j]?) :
    IsLongest (max (L.entry i (j + 1)) (L.entry (i + 1) j)) (a.take (i + 1))
      (b.take (j + 1)) := by
  have hup := hL i (by omega) (j + 1) hj
  have hleft := hL (i + 1) hi j (by omega)
  rw [List.getElem?_eq_getElem hi, List.getElem?_eq_getElem hj] at hne
  rw [List.take_succ_eq_append_getElem hi] at hleft ⊢
  rw [List.take_succ_eq_append_getElem hj] at hup ⊢
  exact hup.concat_ne (fun h => hne (congrArg some h)) hleft

/-- **The walk back** has both texts on its sides and keeps as many lines
as any common subsequence has. -/
theorem traceBack_right {a b : List Text} {L : LCSTable} (hL : Complete a b L) (i j : ℕ)
    (hi : i ≤ a.length) (hj : j ≤ b.length) :
    oldSide (traceBack L a b i j).reverse = a.take i ∧
      newSide (traceBack L a b i j).reverse = b.take j ∧
      IsLongest (keptCount (traceBack L a b i j)) (a.take i) (b.take j) := by
  fun_induction traceBack L a b i j with
  | case1 => exact ⟨rfl, rfl, IsLongest.nil_left _⟩
  | case2 i ih =>
    obtain ⟨hold, hnew, hkept⟩ := ih (by omega) hj
    refine ⟨?_, ?_, ?_⟩
    · rw [oldSide_reverse_cons, hold]
      exact getD_concat hi
    · rw [newSide_reverse_cons, hnew]
      rfl
    · rw [keptCount_removed, hkept.unique (IsLongest.nil_right _)]
      exact IsLongest.nil_right _
  | case3 j ih =>
    obtain ⟨hold, hnew, hkept⟩ := ih hi (by omega)
    refine ⟨?_, ?_, ?_⟩
    · rw [oldSide_reverse_cons, hold]
      rfl
    · rw [newSide_reverse_cons, hnew]
      exact getD_concat hj
    · rw [keptCount_added, hkept.unique (IsLongest.nil_left _)]
      exact IsLongest.nil_left _
  | case4 i j heq ih =>
    obtain ⟨hold, hnew, hkept⟩ := ih (by omega) (by omega)
    have hline : a.getD i [] = b.getD j [] := by
      rw [List.getD_eq_getElem?_getD, heq, List.getD_eq_getElem?_getD]
    refine ⟨?_, ?_, ?_⟩
    · rw [oldSide_reverse_cons, hold]
      exact getD_concat hi
    · rw [newSide_reverse_cons, hnew, hline]
      exact getD_concat hj
    · rw [keptCount_context, ← getD_concat hi, ← getD_concat hj, hline]
      exact hkept.concat_same _
  | case5 i j hne hgt ih =>
    obtain ⟨hold, hnew, hkept⟩ := ih (by omega) hj
    have hup := hkept.unique (hL i (by omega) (j + 1) hj)
    refine ⟨?_, ?_, ?_⟩
    · rw [oldSide_reverse_cons, hold]
      exact getD_concat hi
    · rw [newSide_reverse_cons, hnew]
      exact List.append_nil _
    · have hlongest := hL.longest_of_ne hi hj hne
      rw [Nat.max_eq_left (Nat.le_of_lt hgt)] at hlongest
      rw [keptCount_removed, hup]
      exact hlongest
  | case6 i j hne hle ih =>
    obtain ⟨hold, hnew, hkept⟩ := ih hi (by omega)
    have hleft := hkept.unique (hL (i + 1) hi j (by omega))
    refine ⟨?_, ?_, ?_⟩
    · rw [oldSide_reverse_cons, hold]
      exact List.append_nil _
    · rw [newSide_reverse_cons, hnew]
      exact getD_concat hj
    · have hlongest := hL.longest_of_ne hi hj hne
      rw [Nat.max_eq_right (Nat.le_of_not_lt hle)] at hlongest
      rw [keptCount_added, hleft]
      exact hlongest

theorem keptCount_reverse (es : List Edit) : keptCount es.reverse = keptCount es := by
  rw [keptCount, List.filter_reverse, List.length_reverse, keptCount]

/-- **The edit script** leads from the one text to the other and keeps as
much of it as possible. -/
theorem editScript_right (a b : List Text) :
    oldSide (editScript a b) = a ∧ newSide (editScript a b) = b ∧
      IsLongest (keptCount (editScript a b)) a b := by
  have hfilled := filled_fillLCS a b
  obtain ⟨hold, hnew, hkept⟩ :=
    traceBack_right (complete_fillLCS a b) a.length b.length le_rfl le_rfl
  rw [List.take_length] at hold hkept
  rw [List.take_length] at hnew hkept
  rw [editScript, traceDiff, hfilled.n_eq, hfilled.m_eq, keptCount_reverse]
  exact ⟨hold, hnew, hkept⟩

end Fmt

end Nslc
