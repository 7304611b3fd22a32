import Mathlib
import Nslc.Basic.Source
/-!
# Source files — what the line map answers

`resolveVirtual` consults one override, the last at or before the
location. Its line is that override's number plus the newlines since
(`resolveVirtual_line`), as `#line` asks. Its path is that override's
too, and where the override has none, the buffer's own: a `#line N`
behind a `#line N "F"` takes the file name back instead of keeping `F`.
-/

namespace Nslc

/-! ## The override in force -/

section Active

variable {ds es : List LineDirective} {off : ℕ}

/-- Overrides of increasing origin: the last one is kept. -/
theorem foldl_keepLater (hds : ds.Pairwise fun d e => d.originOffset < e.originOffset)
    (a : Option LineDirective) (ha : ∀ e ∈ a, ∀ d ∈ ds, e.originOffset < d.originOffset) :
    ds.foldl keepLater a = ds.getLast?.or a := by
  induction ds generalizing a with
  | nil => rfl
  | cons d ds ih =>
    obtain ⟨hd, hrest⟩ := List.pairwise_cons.1 hds
    have hhead : keepLater a d = some d := by
      cases a with
      | none => rfl
      | some e => simp [keepLater, ha e rfl d (by simp)]
    rw [List.foldl_cons, hhead, ih hrest]
    · cases ds with
      | nil => rfl
      | cons e es => simp [List.getLast?_cons]
    · intro e he
      obtain rfl := Option.some.inj he
      exact hd

/-- Of the overrides up to `off` the last is in force, whatever follows. -/
theorem activeDirective_append
    (hds : ds.Pairwise fun d e => d.originOffset < e.originOffset)
    (hle : ∀ d ∈ ds, d.originOffset ≤ off) (hgt : ∀ d ∈ es, off < d.originOffset) :
    activeDirective (ds ++ es) off = ds.getLast? := by
  have htake : (ds ++ es).takeWhile (fun d => decide (d.originOffset ≤ off)) = ds := by
    rw [List.takeWhile_append_of_pos (by simpa using hle)]
    cases es with
    | nil => simp
    | cons e es =>
      have he : ¬ e.originOffset ≤ off := by
        have := hgt e (by simp)
        omega
      simp [he]
  unfold activeDirective
  rw [htake, foldl_keepLater hds none (by simp)]
  simp

/-- The overrides at or before `off`. -/
def atOrBefore (ds : List LineDirective) (off : ℕ) : List LineDirective :=
  ds.filter fun d => d.originOffset ≤ off

theorem activeDirective_eq (hds : ds.Pairwise fun d e => d.originOffset < e.originOffset) :
    activeDirective ds off = (atOrBefore ds off).getLast? := by
  have hsplit : ds = atOrBefore ds off ++ ds.filter fun d => off < d.originOffset := by
    induction ds with
    | nil => rfl
    | cons d ds ih =>
      obtain ⟨hd, hrest⟩ := List.pairwise_cons.1 hds
      rcases Nat.lt_or_ge off d.originOffset with hlt | hge
      · have hall : ∀ e ∈ ds, off < e.originOffset := by
          intro e he
          exact hlt.trans (hd e he)
        have hnone : atOrBefore ds off = [] := by
          rw [atOrBefore, List.filter_eq_nil_iff]
          intro e he
          simpa using hall e he
        have hsome : ds.filter (fun d => decide (off < d.originOffset)) = ds := by
          rw [List.filter_eq_self]
          intro e he
          simpa using hall e he
        have hnot : ¬ d.originOffset ≤ off := by omega
        simp only [atOrBefore] at hnone
        simp [atOrBefore, hlt, hnot, hnone, hsome]
      · have hnot : ¬ off < d.originOffset := by omega
        have := ih hrest
        simp only [atOrBefore] at this
        simp [atOrBefore, hge, hnot, ← this]
  conv_lhs => rw [hsplit]
  refine activeDirective_append ?_ ?_ ?_
  · exact hds.filter _
  · intro d hd
    simpa using (List.mem_filter.1 hd).2
  · intro d hd
    simpa using (List.mem_filter.1 hd).2

end Active

/-! ## Lines are newlines passed -/

theorem lineStartsFrom_append (off : ℕ) (t r : Text) :
    lineStartsFrom off (t ++ r) = lineStartsFrom off t ++ lineStartsFrom (off + t.length) r := by
  induction t generalizing off with
  | nil => rfl
  | cons c cs ih =>
    simp only [List.cons_append, lineStartsFrom, List.length_cons]
    rw [ih, Nat.add_assoc, Nat.add_comm 1]
    split <;> rfl

theorem countP_lineStartsFrom (t : Text) (start off : ℕ) :
    (lineStartsFrom start t).countP (fun o => o ≤ off) = (t.take (off - start)).count '\n' := by
  induction t generalizing start with
  | nil => simp [lineStartsFrom]
  | cons c cs ih =>
    rcases Nat.lt_or_ge start off with hlt | hge
    · obtain ⟨k, hk⟩ : ∃ k, off - start = k + 1 := ⟨off - start - 1, by omega⟩
      have hk' : off - (start + 1) = k := by omega
      have hle : start + 1 ≤ off := hlt
      by_cases hc : c = '\n'
      · simp [lineStartsFrom, hc, hk, hle, ih, hk']
      · simp [lineStartsFrom, hc, hk, ih, hk']
    · have hzero : off - start = 0 := by omega
      have hzero' : off - (start + 1) = 0 := by omega
      have hnot : ¬ start + 1 ≤ off := by omega
      by_cases hc : c = '\n'
      · simp [lineStartsFrom, hc, hzero, hnot, ih, hzero']
      · simp [lineStartsFrom, hc, hzero, ih, hzero']

/-- The line of an offset is the number of newlines before it. -/
theorem lineIdx_eq_count (bytes : Text) (off : ℕ) :
    lineIdx bytes off = (bytes.take off).count '\n' := by
  have := countP_lineStartsFrom bytes 0 off
  simp only [Nat.sub_zero] at this
  simp [lineIdx, lineOffsets, this]

/-- The newlines from offset `o` up to `off`. -/
def newlinesBetween (bytes : Text) (o off : ℕ) : ℕ :=
  ((bytes.take off).drop o).count '\n'

theorem lineIdx_sub {bytes : Text} {o off : ℕ} (h : o ≤ off) :
    lineIdx bytes off - lineIdx bytes o = newlinesBetween bytes o off := by
  have hsplit : (bytes.take off).take o ++ (bytes.take off).drop o = bytes.take off :=
    List.take_append_drop o _
  have hcount := congrArg (List.count '\n') hsplit
  rw [List.count_append, List.take_take, min_eq_left h] at hcount
  rw [lineIdx_eq_count, lineIdx_eq_count, newlinesBetween]
  omega

/-! ## Directives registered one after another -/

namespace SourceManager

/-- `addLineDirective` calls on the file `f`, in order. -/
def addLineDirectives (sm : SourceManager) (f : FileID) : List LineDirective → Option SourceManager
  | [] => some sm
  | d :: ds =>
    (sm.addLineDirective f d.originOffset d.virtualLine d.virtualPath).bind fun sm =>
      sm.addLineDirectives f ds

/-- `resolveVirtual` of the location at offset `off` of the file `f`. -/
def resolveVirtual (sm : SourceManager) (f : FileID) (off : ℕ) : Option (Text × ℕ × ℕ) :=
  (sm.buffer? f).map fun b => b.resolveVirtual off

theorem addLineDirective_eq_some {sm sm' : SourceManager} {f : FileID} {off line : ℕ} {path : Text}
    (h : sm.addLineDirective f off line path = some sm') :
    ∃ b, sm.buffer? f = some b ∧ (∀ d ∈ b.lineOverrides.getLast?, d.originOffset < off) ∧
      sm'.buffer? f = some
        { b with lineOverrides := b.lineOverrides ++ [⟨off, line, path⟩] } := by
  unfold addLineDirective at h
  cases hb : sm.buffer? f with
  | none => simp [hb] at h
  | some b =>
    simp only [hb] at h
    split at h
    · rename_i hlast
      obtain rfl := Option.some.inj h
      refine ⟨b, rfl, ?_, ?_⟩
      · intro d hd
        rw [Option.mem_def] at hd
        simpa [hd] using hlast
      · have hf : f ≠ 0 := by
          rintro rfl
          simp [buffer?] at hb
        have hlen : f - 1 < sm.buffers.length := by
          by_contra hge
          have hnone : sm.buffers[f - 1]? = none := List.getElem?_eq_none (Nat.le_of_not_lt hge)
          simp [buffer?, hf, hnone] at hb
        simp [buffer?, hf, hlen]
    · simp at h

/-- Registered directives stand in the order of the calls, their origins
increasing; everything else of the buffer is as it was. -/
theorem addLineDirectives_eq_some {sm sm' : SourceManager} {f : FileID} {b : Buffer}
    {ds : List LineDirective} (hb : sm.buffer? f = some b)
    (hinc : b.lineOverrides.Pairwise fun d e => d.originOffset < e.originOffset)
    (h : sm.addLineDirectives f ds = some sm') :
    (b.lineOverrides ++ ds).Pairwise (fun d e => d.originOffset < e.originOffset) ∧
      sm'.buffer? f = some { b with lineOverrides := b.lineOverrides ++ ds } := by
  induction ds generalizing sm b with
  | nil =>
    obtain rfl := Option.some.inj h
    simpa using ⟨hinc, hb⟩
  | cons d ds ih =>
    simp only [addLineDirectives, Option.bind_eq_some_iff] at h
    obtain ⟨smd, hd, hrest⟩ := h
    obtain ⟨b', hb', hlast, hnew⟩ := addLineDirective_eq_some hd
    rw [hb] at hb'
    obtain rfl := Option.some.inj hb'
    have hinc' : (b.lineOverrides ++ [d]).Pairwise
        (fun d e => d.originOffset < e.originOffset) := by
      rw [List.pairwise_append]
      refine ⟨hinc, List.pairwise_singleton _ _, ?_⟩
      intro e he k hk
      obtain rfl := List.mem_singleton.1 hk
      -- the last registered origin bounds the earlier ones
      obtain ⟨pre, l, hpre⟩ : ∃ pre l, b.lineOverrides = pre ++ [l] := by
        simpa using (List.eq_nil_or_concat b.lineOverrides).resolve_left (List.ne_nil_of_mem he)
      have hl := hlast l (by simp [hpre])
      rw [hpre] at he hinc
      rcases List.mem_append.1 he with he | he
      · exact ((List.pairwise_append.1 hinc).2.2 e he l (by simp)).trans hl
      · obtain rfl := List.mem_singleton.1 he
        exact hl
    have := ih hnew hinc' hrest
    simpa using this

end SourceManager

/-! ## The name in force -/

/-- The file name of the last directive at or before `off` that carries
one, and `own` where none does. -/
def currentName (own : Text) (ds : List LineDirective) (off : ℕ) : Text :=
  (((atOrBefore ds off).filter fun d => d.virtualPath ≠ []).getLast?.map
    LineDirective.virtualPath).getD own

/-- What `#line` asks of a query at `off`: the line counts on from the
last directive, the name is the current one. -/
def Inherits (own bytes : Text) (ds : List LineDirective) (off : ℕ) (answer : Text × ℕ × ℕ) :
    Prop :=
  (∀ d ∈ (atOrBefore ds off).getLast?,
    answer.2.1 = d.virtualLine + newlinesBetween bytes d.originOffset off) ∧
  answer.1 = currentName own ds off

/-- The last directive at or before `off` carries a name, unless the name
in force is the buffer's own; and its line count stays within 32 bits. -/
def NamedInForce (own bytes : Text) (ds : List LineDirective) (off : ℕ) : Prop :=
  ∀ d ∈ (atOrBefore ds off).getLast?,
    (d.virtualPath = [] → ∀ e ∈ ((atOrBefore ds off).filter fun d => d.virtualPath ≠ []).getLast?,
      e.virtualPath = own) ∧
    d.virtualLine + newlinesBetween bytes d.originOffset off < 2 ^ 32

section Inherits

variable {sm sm' : SourceManager} {f : FileID} {own bytes : Text} {ds : List LineDirective} {off : ℕ}

theorem resolveVirtual_line {b : Buffer} {d : LineDirective}
    (h : activeDirective b.lineOverrides off = some d) (hle : d.originOffset ≤ off) :
    (b.resolveVirtual off).2.1 =
      (d.virtualLine + newlinesBetween b.bytes d.originOffset off) % 2 ^ 32 := by
  simp only [Buffer.resolveVirtual, getLineCol, h]
  rw [← lineIdx_sub hle]
  congr 2
  omega

theorem resolveVirtual_path {b : Buffer} :
    (b.resolveVirtual off).1 =
      (activeDirective b.lineOverrides off).elim b.path fun d =>
        if d.virtualPath = [] then b.path else d.virtualPath := by
  unfold Buffer.resolveVirtual
  cases activeDirective b.lineOverrides off <;> rfl

/-- A directive with a name, last at or before `off`, names the file. -/
theorem currentName_of_named {d : LineDirective} (hd : (atOrBefore ds off).getLast? = some d)
    (hn : d.virtualPath ≠ []) : currentName own ds off = d.virtualPath := by
  obtain ⟨pre, hpre⟩ := List.getLast?_eq_some_iff.1 hd
  simp [currentName, hpre, List.filter_append, hn]

/-- **The line map and `#line`.** Queried after any directives, the line
map answers as `#line` asks exactly where the directive in force has a
name of its own, or the name it inherits is the buffer's, and the line
does not overflow. -/
theorem inherits_iff_namedInForce (hbuf : sm.buffer? f = some ⟨own, bytes, []⟩)
    (hcalls : sm.addLineDirectives f ds = some sm') :
    (∃ answer, sm'.resolveVirtual f off = some answer ∧ Inherits own bytes ds off answer) ↔
      NamedInForce own bytes ds off := by
  obtain ⟨hinc, hbuf'⟩ := SourceManager.addLineDirectives_eq_some hbuf List.Pairwise.nil hcalls
  simp only [List.nil_append] at hinc hbuf'
  have hactive : activeDirective ds off = (atOrBefore ds off).getLast? := activeDirective_eq hinc
  simp only [SourceManager.resolveVirtual, hbuf', Option.map_some, Option.some.injEq,
    exists_eq_left', Inherits, NamedInForce]
  cases hlast : (atOrBefore ds off).getLast? with
  | none =>
    rw [hlast] at hactive
    have hnil : atOrBefore ds off = [] := List.getLast?_eq_none_iff.1 hlast
    simp [resolveVirtual_path, hactive, currentName, hnil]
  | some d =>
    rw [hlast] at hactive
    have hle : d.originOffset ≤ off := by
      have hmem := List.mem_of_getLast? hlast
      simpa using (List.mem_filter.1 hmem).2
    have hline := resolveVirtual_line (b := ⟨own, bytes, ds⟩) hactive hle
    have hmod : ∀ n : ℕ, n % 2 ^ 32 = n ↔ n < 2 ^ 32 := by
      intro n
      omega
    simp only [Option.mem_some_iff, forall_eq', hline, hmod, resolveVirtual_path, hactive]
    rw [and_comm]
    refine and_congr_left fun _ => ?_
    by_cases hn : d.virtualPath = []
    · simp only [Option.elim_some, forall_const, hn, currentName]
      cases ((atOrBefore ds off).filter fun d => d.virtualPath ≠ []).getLast? with
      | none => simp
      | some e => simp [eq_comm]
    · simp [hn, currentName_of_named hlast hn]

/-- The map of a buffer read under the names `v` and then `w`. -/
def twiceNamed : SourceManager := ⟨[⟨"u".toList, "a\nb\nc\n".toList, []⟩], []⟩

theorem inherits_iff_namedInForce_twiceNamed :
    ∃ sm', twiceNamed.addLineDirectives 1 [⟨2, 5, "v".toList⟩, ⟨4, 9, "w".toList⟩] = some sm' ∧
      ∃ answer, sm'.resolveVirtual 1 5 = some answer ∧
        Inherits "u".toList "a\nb\nc\n".toList [⟨2, 5, "v".toList⟩, ⟨4, 9, "w".toList⟩] 5 answer :=
  ⟨_, rfl, (inherits_iff_namedInForce (rfl : twiceNamed.buffer? 1 = _) rfl).2 (by
    unfold NamedInForce
    decide)⟩

/-- A `#line 9` behind `#line 5 "v"` takes the name `v` back. -/
theorem not_inherits_unnamedSecond :
    ∃ sm', twiceNamed.addLineDirectives 1 [⟨2, 5, "v".toList⟩, ⟨4, 9, []⟩] = some sm' ∧
      ∃ answer, sm'.resolveVirtual 1 5 = some answer ∧ answer.1 = "u".toList ∧
        ¬ Inherits "u".toList "a\nb\nc\n".toList [⟨2, 5, "v".toList⟩, ⟨4, 9, []⟩] 5 answer :=
  ⟨_, rfl, _, rfl, by decide, by
    intro h
    exact absurd h.2 (by decide)⟩

end Inherits

end Nslc
