import Nslc.Fmt.Diff
/-!
# The hunks of a diff

An edit script is cut into hunks and gaps of context. What a hunk's
header says follows from what stands in front of it, and so does that
applying the hunks leads from the one text to the other. The grouping of
the changes makes such a cut: after the context behind one group the next
change is still more than three lines away.
-/

namespace Nslc

namespace Fmt

/-! ## Hunks and gaps -/

/-- A script cut into gaps of context and hunks, from given line numbers
on. -/
inductive Cut : ℕ → ℕ → List Edit → List Hunk → Prop where
  | gap {o n : ℕ} {es : List Edit} (hgap : ∀ e ∈ es, e.isContext) : Cut o n es []
  | hunk {o n : ℕ} {gap rest : List Edit} {h : Hunk} {hs : List Hunk}
      (hgap : ∀ e ∈ gap, e.isContext) (oldStart_eq : h.oldStart = o + gap.length)
      (newStart_eq : h.newStart = n + gap.length)
      (oldCount_eq : h.oldCount = (oldSide h.edits).length)
      (newCount_eq : h.newCount = (newSide h.edits).length)
      (changed : ∃ e ∈ h.edits, e.kind ≠ .context)
      (leading : (h.edits.takeWhile Edit.isContext).length ≤ 3)
      (trailing : (h.edits.reverse.takeWhile Edit.isContext).length ≤ 3)
      (rest_cut : Cut (h.oldStart + h.oldCount) (h.newStart + h.newCount) rest hs) :
      Cut o n (gap ++ h.edits ++ rest) (h :: hs)

/-- Context is the same on both sides. -/
theorem sides_of_context {es : List Edit} (h : ∀ e ∈ es, e.isContext) :
    oldSide es = es.map Edit.text ∧ newSide es = es.map Edit.text := by
  have hkind : ∀ e ∈ es, e.kind = .context := fun e he => by simpa [Edit.isContext] using h e he
  refine ⟨?_, ?_⟩
  · rw [oldSide, List.filter_eq_self.2 fun e he => by simp [hkind e he]]
  · rw [newSide, List.filter_eq_self.2 fun e he => by simp [hkind e he]]

namespace Cut

/-- Every hunk begins where the cut does or later. -/
theorem start_le {o n : ℕ} {es : List Edit} {hs : List Hunk} (h : Cut o n es hs) :
    ∀ g ∈ hs, o ≤ g.oldStart ∧ n ≤ g.newStart := by
  induction h with
  | gap => exact fun g hg => absurd hg List.not_mem_nil
  | hunk hgap hold hnew _ _ _ _ _ _ ih =>
    intro g hg
    obtain rfl | hg := List.mem_cons.1 hg
    · exact ⟨by omega, by omega⟩
    · have := ih g hg
      exact ⟨by omega, by omega⟩

theorem ordered {o n : ℕ} {es : List Edit} {hs : List Hunk} (h : Cut o n es hs) :
    hs.Pairwise Hunk.Before := by
  induction h with
  | gap => exact List.Pairwise.nil
  | hunk _ _ _ _ _ _ _ _ hrest ih => exact List.pairwise_cons.2 ⟨hrest.start_le, ih⟩

/-- Each hunk is right about the texts the script is about. -/
theorem right {o n : ℕ} {es : List Edit} {hs : List Hunk} (h : Cut o n es hs)
    (oldFront newFront : List Text) (ho : o = oldFront.length + 1)
    (hn : n = newFront.length + 1) :
    ∀ g ∈ hs, HunkRight (oldFront ++ oldSide es) (newFront ++ newSide es) g := by
  induction h generalizing oldFront newFront with
  | gap => exact fun g hg => absurd hg List.not_mem_nil
  | @hunk o n gap rest h hs hgap hold hnew hoc hnc hchanged hleading htrailing _ ih =>
    obtain ⟨holdGap, hnewGap⟩ := sides_of_context hgap
    have holdLen : (oldSide gap).length = gap.length := by rw [holdGap, List.length_map]
    have hnewLen : (newSide gap).length = gap.length := by rw [hnewGap, List.length_map]
    have holdSplit : oldFront ++ oldSide (gap ++ h.edits ++ rest) =
        (oldFront ++ oldSide gap) ++ (oldSide h.edits ++ oldSide rest) := by simp
    have hnewSplit : newFront ++ newSide (gap ++ h.edits ++ rest) =
        (newFront ++ newSide gap) ++ (newSide h.edits ++ newSide rest) := by simp
    have holdAt : h.oldStart - 1 = (oldFront ++ oldSide gap).length := by
      rw [List.length_append, holdLen]
      omega
    have hnewAt : h.newStart - 1 = (newFront ++ newSide gap).length := by
      rw [List.length_append, hnewLen]
      omega
    intro g hg
    obtain rfl | hg := List.mem_cons.1 hg
    · refine ⟨by omega, by omega, hoc, hnc, ?_, ?_, hchanged, hleading, htrailing⟩
      · rw [holdSplit, holdAt, List.drop_left, hoc, List.take_left]
      · rw [hnewSplit, hnewAt, List.drop_left, hnc, List.take_left]
    · have htail := ih (oldFront ++ oldSide gap ++ oldSide h.edits) (newFront ++ newSide gap ++ newSide h.edits)
        (by simp only [List.length_append, holdLen]; omega)
        (by simp only [List.length_append, hnewLen]; omega) g hg
      rwa [holdSplit, hnewSplit, ← List.append_assoc, ← List.append_assoc (newFront ++ _)]

/-- The reported start and the count tell the lines in front. -/
theorem linesBefore_oldStartReported (h : Hunk) :
    linesBefore h.oldStartReported h.oldCount = h.oldStart - 1 := by
  unfold linesBefore Hunk.oldStartReported
  split <;> rfl

/-- **The hunks lead from the old side to the new one.** -/
theorem applies {o n : ℕ} {es : List Edit} {hs : List Hunk} (h : Cut o n es hs) (ho : 1 ≤ o) :
    applyHunks (o - 1) (oldSide es) hs = some (newSide es) := by
  induction h with
  | gap hgap =>
    obtain ⟨hold, hnew⟩ := sides_of_context hgap
    rw [applyHunks, hold, hnew]
  | @hunk o n gap rest h hs hgap hold hnew hoc hnc _ _ _ _ ih =>
    obtain ⟨holdGap, hnewGap⟩ := sides_of_context hgap
    have holdLen : (oldSide gap).length = gap.length := by rw [holdGap, List.length_map]
    have hskip : h.oldStart - 1 - (o - 1) = (oldSide gap).length := by omega
    have hnext : h.oldStart - 1 + h.oldCount = h.oldStart + h.oldCount - 1 := by omega
    have hsplit : oldSide (gap ++ h.edits ++ rest) =
        oldSide gap ++ (oldSide h.edits ++ oldSide rest) := by simp
    rw [applyHunks, linesBefore_oldStartReported, hskip, hsplit]
    simp only [List.drop_left, List.take_left]
    rw [if_pos ⟨by omega, by simp, List.prefix_append _ _, hoc⟩, hoc, ← List.drop_drop,
      List.drop_left, List.drop_left, ← hoc, hnext, ih (by omega)]
    simp [holdGap, hnewGap]

end Cut

/-! ## Grouping -/

/-- The line numbers before an edit count the lines in front of it. -/
theorem lineCursors_getD (o n : ℕ) (es : List Edit) (i : ℕ) (hi : i ≤ es.length) :
    (lineCursors o n es).getD i (0, 0) =
      (o + (oldSide (es.take i)).length, n + (newSide (es.take i)).length) := by
  induction es generalizing o n i with
  | nil =>
    obtain rfl : i = 0 := by simpa using hi
    rfl
  | cons e es ih =>
    cases i with
    | zero => rfl
    | succ i =>
      have hi' : i ≤ es.length := by simpa using hi
      obtain ⟨kind, text⟩ := e
      rw [lineCursors, List.getD_cons_succ, List.take_succ_cons]
      cases kind with
      | context =>
        rw [ih _ _ i hi']
        exact Prod.ext (Nat.add_right_comm _ _ _) (Nat.add_right_comm _ _ _)
      | removed =>
        rw [ih _ _ i hi']
        exact Prod.ext (Nat.add_right_comm _ _ _) rfl
      | added =>
        rw [ih _ _ i hi']
        exact Prod.ext rfl (Nat.add_right_comm _ _ _)

/-- The edit at an index is a change. -/
def ChangeAt (es : List Edit) (i : ℕ) : Prop := ∃ e, es[i]? = some e ∧ e.kind ≠ .context

theorem mem_changeIdx {es : List Edit} {i : ℕ} : i ∈ changeIdx es ↔ ChangeAt es i := by
  rw [changeIdx, List.mem_filter, List.mem_range, ChangeAt]
  constructor
  · rintro ⟨-, h⟩
    obtain ⟨e, he, hkind⟩ := (Option.any_eq_true _ _).1 h
    exact ⟨e, he, by simpa using hkind⟩
  · rintro ⟨e, he, hkind⟩
    exact ⟨(List.getElem?_eq_some_iff.1 he).1, by simp [he, hkind]⟩

theorem changeIdx_sorted (es : List Edit) : (changeIdx es).Pairwise (· < ·) :=
  List.pairwise_lt_range.filter _

theorem length_takeWhile_le {p : Edit → Bool} {es : List Edit} {k : ℕ} {e : Edit}
    (h : es[k]? = some e) (hp : p e = false) : (es.takeWhile p).length ≤ k := by
  induction es generalizing k with
  | nil => cases h
  | cons f es ih =>
    rw [List.takeWhile_cons]
    split
    · rename_i hf
      cases k with
      | zero =>
        obtain rfl : f = e := by simpa using h
        rw [hp] at hf
        cases hf
      | succ k =>
        have := ih (k := k) (by simpa using h)
        rw [List.length_cons]
        omega
    · exact Nat.zero_le _

/-- A stretch of a script without changes is context. -/
theorem context_of_no_change (es : List Edit) (lo hi : ℕ)
    (h : ∀ i, lo ≤ i → i < hi → ¬ ChangeAt es i) :
    ∀ e ∈ (es.drop lo).take (hi - lo), e.isContext := by
  intro e he
  obtain ⟨i, hi'⟩ := List.mem_iff_getElem?.1 he
  rw [List.getElem?_take] at hi'
  split at hi'
  · rename_i hlt
    rw [List.getElem?_drop] at hi'
    by_contra hno
    exact h (lo + i) (by omega) (by omega) ⟨e, hi', by simpa [Edit.isContext] using hno⟩
  · cases hi'

/-- The cut of a stretch into what is before an index and what is not. -/
theorem drop_eq_append {es : List Edit} {i j : ℕ} (h : i ≤ j) :
    es.drop i = (es.drop i).take (j - i) ++ es.drop j := by
  have hsum : j = i + (j - i) := by omega
  conv_rhs => rw [hsum]
  rw [Nat.add_sub_cancel_left, ← List.drop_drop, List.take_append_drop]

theorem take_eq_append {es : List Edit} {i j : ℕ} (h : i ≤ j) :
    es.take j = es.take i ++ (es.drop i).take (j - i) := by
  have hsum : j = i + (j - i) := by omega
  conv_lhs => rw [hsum, List.take_add]

/-- What the hunk of a group is. -/
theorem makeHunk_eq {es : List Edit} {groupStart groupEnd lo hi : ℕ}
    (hlo : lo = groupStart - 3) (hhi : hi = min (groupEnd + 4) es.length) (hle : lo ≤ hi) :
    makeHunk es groupStart groupEnd =
      { oldStart := 1 + (oldSide (es.take lo)).length
        oldCount := (oldSide ((es.drop lo).take (hi - lo))).length
        newStart := 1 + (newSide (es.take lo)).length
        newCount := (newSide ((es.drop lo).take (hi - lo))).length
        edits := (es.drop lo).take (hi - lo) } := by
  have hlo' : (if groupStart ≥ kContextLines then groupStart - kContextLines else 0) = lo := by
    unfold kContextLines
    split <;> omega
  have hhi' : min (groupEnd + kContextLines + 1) es.length = hi := hhi.symm
  have hlen : hi ≤ es.length := by omega
  unfold makeHunk
  simp only [hlo', hhi', lineCursors_getD 1 1 es lo (by omega), lineCursors_getD 1 1 es hi hlen]
  rw [take_eq_append hle, oldSide_append, newSide_append, List.length_append, List.length_append]
  congr 1 <;> omega

/-- **The hunk of one group**, in front of those of the later groups. -/
theorem cut_makeHunk {es : List Edit} {front groupStart groupEnd hi : ℕ} {hs : List Hunk}
    (hfront : front ≤ groupStart - 3) (hle : groupStart ≤ groupEnd)
    (hstart : ChangeAt es groupStart) (hend : ChangeAt es groupEnd)
    (hno : ∀ i, front ≤ i → i < groupStart → ¬ ChangeAt es i)
    (hhi : hi = min (groupEnd + 4) es.length)
    (hrest : Cut (1 + (oldSide (es.take hi)).length) (1 + (newSide (es.take hi)).length)
      (es.drop hi) hs) :
    Cut (1 + (oldSide (es.take front)).length) (1 + (newSide (es.take front)).length)
      (es.drop front) (makeHunk es groupStart groupEnd :: hs) := by
  obtain ⟨e, he, hekind⟩ := hstart
  obtain ⟨f, hf, hfkind⟩ := hend
  have hlen : groupEnd < es.length := (List.getElem?_eq_some_iff.1 hf).1
  obtain ⟨lo, hlo⟩ : ∃ lo, lo = groupStart - 3 := ⟨_, rfl⟩
  have hmk := makeHunk_eq hlo hhi (by omega)
  have hgap : ∀ e ∈ (es.drop front).take (lo - front), e.isContext :=
    context_of_no_change es front lo fun i h1 h2 => hno i h1 (by omega)
  obtain ⟨holdGap, hnewGap⟩ := sides_of_context hgap
  -- The first change of the group stands among the first four edits, the last among the last.
  have hfirst : ((es.drop lo).take (hi - lo))[groupStart - lo]? = some e := by
    rw [List.getElem?_take_of_lt (by omega), List.getElem?_drop, ← he]
    congr 1
    omega
  have hlast : ((es.drop lo).take (hi - lo)).reverse[hi - 1 - groupEnd]? = some f := by
    have hbody : ((es.drop lo).take (hi - lo)).length = hi - lo := by
      rw [List.length_take, List.length_drop]
      omega
    rw [List.getElem?_reverse (by omega), hbody, List.getElem?_take_of_lt (by omega),
      List.getElem?_drop, ← hf]
    congr 1
    omega
  have hdrop : es.drop front = (es.drop front).take (lo - front) ++
      (es.drop lo).take (hi - lo) ++ es.drop hi := by
    rw [List.append_assoc, ← drop_eq_append (by omega), ← drop_eq_append (by omega)]
  have hgapLen : ((es.drop front).take (lo - front)).length = lo - front := by
    rw [List.length_take, List.length_drop]
    omega
  have hedits : (makeHunk es groupStart groupEnd).edits = (es.drop lo).take (hi - lo) := by
    rw [hmk]
  rw [hdrop, ← hedits]
  refine Cut.hunk hgap ?_ ?_ (by rw [hmk]) (by rw [hmk]) ?_ ?_ ?_ ?_ <;> rw [hmk] <;> simp only
  · rw [take_eq_append (i := front) (j := lo) (by omega), oldSide_append, holdGap,
      List.length_append, List.length_map, Nat.add_assoc]
  · rw [take_eq_append (i := front) (j := lo) (by omega), newSide_append, hnewGap,
      List.length_append, List.length_map, Nat.add_assoc]
  · exact ⟨e, List.mem_of_getElem? hfirst, hekind⟩
  · exact (length_takeWhile_le hfirst (by simp [Edit.isContext, hekind])).trans (by omega)
  · exact (length_takeWhile_le hlast (by simp [Edit.isContext, hfkind])).trans (by omega)
  · rw [take_eq_append (i := lo) (j := hi) (by omega), oldSide_append, newSide_append,
      List.length_append, List.length_append, ← Nat.add_assoc, ← Nat.add_assoc] at hrest
    exact hrest

/-- **The groups** cut the rest of a script. -/
theorem cut_groupLoop {es : List Edit} (ks : List ℕ) (front groupStart groupEnd : ℕ)
    (hfront : front ≤ groupStart - 3) (hle : groupStart ≤ groupEnd)
    (hstart : ChangeAt es groupStart) (hend : ChangeAt es groupEnd)
    (hsorted : (groupEnd :: ks).Pairwise (· < ·)) (hks : ∀ k ∈ ks, ChangeAt es k)
    (honly : ∀ i, front ≤ i → ChangeAt es i → groupStart ≤ i ∧ (i ≤ groupEnd ∨ i ∈ ks)) :
    Cut (1 + (oldSide (es.take front)).length) (1 + (newSide (es.take front)).length)
      (es.drop front) (groupLoop es groupStart groupEnd ks) := by
  have hno : ∀ i, front ≤ i → i < groupStart → ¬ ChangeAt es i := fun i h1 h2 h3 => by
    have := (honly i h1 h3).1
    omega
  induction ks generalizing front groupStart groupEnd with
  | nil =>
    refine cut_makeHunk hfront hle hstart hend hno rfl (.gap ?_)
    have htail := context_of_no_change es (min (groupEnd + 4) es.length) es.length
      fun i h1 h2 h3 => by
        have := (honly i (by omega) h3).2
        simp only [List.not_mem_nil, or_false] at this
        omega
    rwa [List.take_of_length_le (by rw [List.length_drop])] at htail
  | cons k ks ih =>
    have hk : ChangeAt es k := hks k List.mem_cons_self
    obtain ⟨hlt, hsorted'⟩ := List.pairwise_cons.1 hsorted
    have hkend : groupEnd < k := hlt k List.mem_cons_self
    have hks' : ∀ k' ∈ ks, ChangeAt es k' := fun k' h => hks k' (List.mem_cons_of_mem _ h)
    rw [groupLoop]
    split
    · refine ih front groupStart k hfront (by omega) hstart hk hsorted' hks' ?_ hno
      intro i h1 h2
      obtain ⟨h3, h4⟩ := honly i h1 h2
      refine ⟨h3, ?_⟩
      obtain h4 | h4 := h4
      · exact .inl (by omega)
      · obtain rfl | h4 := List.mem_cons.1 h4
        · exact .inl le_rfl
        · exact .inr h4
    · rename_i hgap
      have hfar : 6 < k - groupEnd := Nat.lt_of_not_le hgap
      have hklen : k < es.length := by
        obtain ⟨e, he, -⟩ := hk
        exact (List.getElem?_eq_some_iff.1 he).1
      -- Behind the group's context the next change is still more than three lines away.
      have hlater : ∀ i, min (groupEnd + 4) es.length ≤ i → ChangeAt es i →
          k ≤ i ∧ (i ≤ k ∨ i ∈ ks) := by
        intro i h1 h2
        obtain ⟨-, h4⟩ := honly i (by omega) h2
        obtain h4 | h4 := h4
        · omega
        · obtain rfl | h4 := List.mem_cons.1 h4
          · exact ⟨le_rfl, .inl le_rfl⟩
          · exact ⟨Nat.le_of_lt ((List.pairwise_cons.1 hsorted').1 i h4), .inr h4⟩
      refine cut_makeHunk hfront hle hstart hend hno rfl ?_
      refine ih _ k k (by omega) le_rfl hk hk hsorted' hks' hlater fun i h1 h2 h3 => ?_
      have := (hlater i h1 h3).1
      omega

/-- **The hunks of a script** cut it, changes into the hunks and the rest
into the gaps. -/
theorem cut_groupIntoHunks (es : List Edit) : Cut 1 1 es (groupIntoHunks es) := by
  have hmem : ∀ i, ChangeAt es i → i ∈ changeIdx es := fun i => mem_changeIdx.2
  have hchange : ∀ i ∈ changeIdx es, ChangeAt es i := fun i => mem_changeIdx.1
  have hsorted := changeIdx_sorted es
  rw [groupIntoHunks]
  generalize changeIdx es = ks at hmem hchange hsorted
  cases ks with
  | nil =>
    have hall := context_of_no_change es 0 es.length
      fun i _ _ h => absurd (hmem i h) List.not_mem_nil
    rw [List.drop_zero, Nat.sub_zero, List.take_length] at hall
    exact .gap hall
  | cons k ks =>
    refine cut_groupLoop ks 0 k k (Nat.zero_le _) le_rfl (hchange k List.mem_cons_self)
      (hchange k List.mem_cons_self) hsorted
      (fun k' h => hchange k' (List.mem_cons_of_mem _ h)) fun i _ h => ?_
    obtain rfl | hi := List.mem_cons.1 (hmem i h)
    · exact ⟨le_rfl, .inl le_rfl⟩
    · exact ⟨Nat.le_of_lt ((List.pairwise_cons.1 hsorted).1 i hi), .inr hi⟩

/-! ## The diff -/

theorem fileHeader_ne_nil (oldName newName : Text) : fileHeader oldName newName ≠ [] := by
  unfold fileHeader
  simp

example : (groupIntoHunks (editScript ["a".toList, "b".toList] ["b".toList, "c".toList])) =
    [⟨1, 2, 1, 2, [⟨.removed, "a".toList⟩, ⟨.context, "b".toList⟩, ⟨.added, "c".toList⟩]⟩] := by
  decide +kernel

end Fmt

end Nslc
