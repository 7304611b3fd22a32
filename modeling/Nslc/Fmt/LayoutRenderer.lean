import Nslc.Fmt.Doc
/-!
# The layout renderer

`LayoutRenderer.cpp`: the width of a document on one line within a
budget, the test whether it fits, and the walk that writes it. What the
walk writes lays the document out whatever the width. The column it
keeps is the true one until a line is broken at a negative indentation,
which writes no character and sets the column below zero; without such a
break every group is flat exactly when it fits.
-/

namespace Nslc

namespace Fmt

open DocPtr

/-! ## The three recursions -/

def emitIndent (out : Text) (columnIndent indentSpaces : ℤ) : Text :=
  if indentSpaces < 0 then out ++ List.replicate columnIndent.toNat '\t'
  else out ++ List.replicate columnIndent.toNat ' '

def DocPtr.isNull : DocPtr → Bool
  | .null => true
  | _ => false

mutual

/-- The width of a document on one line, or -1 where it will not fit. -/
def flatWidth : DocPtr → ℤ → ℤ
  | .null, _ => 0
  | .text t, _ => t.length
  | .line isHard, _ => if isHard then -1 else 1
  | .nest _ inner, budget => flatWidth inner budget
  | .group inner, budget => flatWidth inner budget
  | .concat items, budget => flatWidthItems items budget 0
  | .align inner, budget => flatWidth inner budget
  | .comment t _ _, _ => t.length

/-- The loop over the items, from a running total on. -/
def flatWidthItems : List DocPtr → ℤ → ℤ → ℤ
  | [], _, total => total
  | item :: items, budget, total =>
    if item.isNull then flatWidthItems items budget total
    else
      let w := flatWidth item (budget - total)
      if w < 0 ∨ total + w > budget then -1 else flatWidthItems items budget (total + w)

end

def fits (d : DocPtr) (budget : ℤ) : Bool :=
  let w := flatWidth d budget
  decide (0 ≤ w ∧ w ≤ budget)

/-- The text written so far, and the column the renderer keeps. -/
structure Emitted where
  out : Text
  column : ℤ

mutual

def renderInto (maxWidth indentSpaces : ℤ) : DocPtr → ℤ → Bool → Emitted → Emitted
  | .null, _, _, e => e
  | .text t, _, _, e => ⟨e.out ++ t, e.column + t.length⟩
  | .line isHard, indent, flatMode, e =>
    if flatMode && !isHard then ⟨e.out ++ [' '], e.column + 1⟩
    else ⟨emitIndent (e.out ++ ['\n']) indent indentSpaces, indent⟩
  | .nest n inner, indent, flatMode, e =>
    let newIndent := indent + n
    renderInto maxWidth indentSpaces inner newIndent flatMode e
  | .group inner, indent, _, e =>
    let budget := maxWidth - e.column
    let innerFlat := fits inner budget
    renderInto maxWidth indentSpaces inner indent innerFlat e
  | .concat items, indent, flatMode, e =>
    renderItems maxWidth indentSpaces items indent flatMode e
  | .align inner, _, flatMode, e =>
    renderInto maxWidth indentSpaces inner e.column flatMode e
  | .comment t _ _, _, _, e => ⟨e.out ++ t, e.column + t.length⟩

def renderItems (maxWidth indentSpaces : ℤ) : List DocPtr → ℤ → Bool → Emitted → Emitted
  | [], _, _, e => e
  | item :: items, indent, flatMode, e =>
    renderItems maxWidth indentSpaces items indent flatMode
      (renderInto maxWidth indentSpaces item indent flatMode e)

end

/-- `render`: the top of a document is never flat. -/
def render (doc : DocPtr) (maxLineLength indentSpaces : ℤ) : Text :=
  (renderInto maxLineLength indentSpaces doc 0 false ⟨[], 0⟩).out

/-! ## The calls of a run -/

/-- A call of `renderInto`. -/
structure Call where
  doc : DocPtr
  indent : ℤ
  flatMode : Bool
  before : Emitted

variable (maxWidth indentSpaces : ℤ)

namespace Call

def top (doc : DocPtr) : Call := ⟨doc, 0, false, ⟨[], 0⟩⟩

def result (c : Call) : Emitted :=
  renderInto maxWidth indentSpaces c.doc c.indent c.flatMode c.before

/-- The calls a call makes, itself and those made inside it. -/
inductive Makes : Call → Call → Prop where
  | self (c : Call) : Makes c c
  | nest {n : ℤ} {inner : DocPtr} {indent : ℤ} {flatMode : Bool} {e : Emitted} {c : Call}
      (h : Makes ⟨inner, indent + n, flatMode, e⟩ c) :
      Makes ⟨.nest n inner, indent, flatMode, e⟩ c
  | group {inner : DocPtr} {indent : ℤ} {flatMode : Bool} {e : Emitted} {c : Call}
      (h : Makes ⟨inner, indent, fits inner (maxWidth - e.column), e⟩ c) :
      Makes ⟨.group inner, indent, flatMode, e⟩ c
  | align {inner : DocPtr} {indent : ℤ} {flatMode : Bool} {e : Emitted} {c : Call}
      (h : Makes ⟨inner, e.column, flatMode, e⟩ c) :
      Makes ⟨.align inner, indent, flatMode, e⟩ c
  | concat {front back : List DocPtr} {item : DocPtr} {indent : ℤ} {flatMode : Bool}
      {e : Emitted} {c : Call}
      (h : Makes ⟨item, indent, flatMode,
        renderItems maxWidth indentSpaces front indent flatMode e⟩ c) :
      Makes ⟨.concat (front ++ item :: back), indent, flatMode, e⟩ c

end Call

/-- **What the renderer is for**: it writes the leaves of a document in
order; the column is that of the text at the beginning and at the end of
every call; a group is flat when it has no hard break and fits in the
columns left; and a flat group writes its text on one line, as does every
group inside it. -/
structure LaidOut (d : DocPtr) : Prop where
  leaves : d.Lays indentSpaces (render d maxWidth indentSpaces)
  tracked : ∀ c, Call.Makes maxWidth indentSpaces (.top d) c →
    c.before.column = columnOf c.before.out ∧
      (c.result maxWidth indentSpaces).column = columnOf (c.result maxWidth indentSpaces).out
  flat_iff : ∀ c inner, Call.Makes maxWidth indentSpaces (.top d) c → c.doc = .group inner →
    (fits inner (maxWidth - c.before.column) = true ↔
      inner.hasHardBreak = false ∧
        (inner.flatText.length : ℤ) ≤ maxWidth - columnOf c.before.out)
  flat : ∀ c inner, Call.Makes maxWidth indentSpaces (.top d) c → c.doc = .group inner →
    fits inner (maxWidth - c.before.column) = true →
      (c.result maxWidth indentSpaces).out = c.before.out ++ inner.flatText ∧
        '\n' ∉ inner.flatText ∧
        (c.result maxWidth indentSpaces).column = c.before.column + inner.flatText.length ∧
        ∀ c' inner', Call.Makes maxWidth indentSpaces c c' → c'.doc = .group inner' →
          fits inner' (maxWidth - c'.before.column) = true

/-! ## When a document fits -/

/-- On one line a document is as wide as its text, unless it has a hard
break or is wider than the budget. -/
theorem flatWidth_spec (d : DocPtr) : ∀ budget : ℤ,
    (d.hasHardBreak = true → flatWidth d budget < 0) ∧
      (d.hasHardBreak = false → flatWidth d budget = d.flatText.length ∨
        flatWidth d budget < 0 ∧ budget < d.flatText.length) := by
  induction d using parts with
  | null => simp [hasHardBreak, flatWidth, flatText]
  | text t => simp [hasHardBreak, flatWidth, flatText]
  | line h => cases h <;> simp [hasHardBreak, flatWidth, flatText]
  | nest n inner ih => simpa only [hasHardBreak, flatWidth, flatText] using ih
  | group inner ih => simpa only [hasHardBreak, flatWidth, flatText] using ih
  | align inner ih => simpa only [hasHardBreak, flatWidth, flatText] using ih
  | comment t l r => simp [hasHardBreak, flatWidth, flatText]
  | concat items ih =>
    intro budget
    -- the loop over the items, from any running total on
    have hloop : ∀ total : ℤ,
        (anyHardBreak items = true → flatWidthItems items budget total < 0) ∧
          (anyHardBreak items = false →
            flatWidthItems items budget total = total + (flatTexts items).length ∨
              flatWidthItems items budget total < 0 ∧
                budget < total + (flatTexts items).length) := by
      induction items with
      | nil => simp [anyHardBreak, flatWidthItems, flatTexts]
      | cons d ds ihds =>
        intro total
        have hrest := ihds fun e he => ih e (by simp [he])
        obtain ⟨hhard, hsoft⟩ := ih d (by simp) (budget - total)
        rw [anyHardBreak, flatWidthItems, flatTexts, List.length_append, Nat.cast_add]
        by_cases hnull : d.isNull = true
        · have hd : d = .null := by cases d <;> simp_all [DocPtr.isNull]
          subst hd
          have := hrest total
          simpa [hnull, hasHardBreak, flatText] using this
        · simp only [hnull, Bool.false_eq_true, if_false]
          cases hb : d.hasHardBreak with
          | true =>
            have hneg := hhard hb
            simp only [hneg, true_or, if_true]
            simp
          | false =>
            obtain ⟨hrhard, hrsoft⟩ := hrest (total + flatWidth d (budget - total))
            simp only [Bool.false_or]
            have hlen : (0 : ℤ) ≤ (flatTexts ds).length := by omega
            split
            · rename_i hover
              refine ⟨fun _ => by omega, fun _ => Or.inr ⟨by omega, ?_⟩⟩
              have := hsoft hb
              omega
            · rename_i hin
              have hw : flatWidth d (budget - total) = d.flatText.length := by
                have := hsoft hb
                omega
              rw [hw] at hrhard hrsoft ⊢
              refine ⟨hrhard, fun hsafe => ?_⟩
              have := hrsoft hsafe
              omega
    simpa [hasHardBreak, flatWidth, flatText] using hloop 0

/-- **A document fits when it has no hard break and its text on one line
is no longer than the budget.** -/
theorem fits_iff (d : DocPtr) (budget : ℤ) :
    fits d budget = true ↔ d.hasHardBreak = false ∧ (d.flatText.length : ℤ) ≤ budget := by
  obtain ⟨hhard, hsoft⟩ := flatWidth_spec d budget
  rw [fits, decide_eq_true_iff]
  cases hb : d.hasHardBreak with
  | true =>
    have := hhard hb
    simp only [Bool.true_eq_false, false_and, iff_false]
    omega
  | false =>
    have := hsoft hb
    simp only [true_and]
    omega

/-! ## A flat document is its text on one line -/

/-- Where a document without hard breaks fits, flat rendering writes its
text on one line. -/
theorem renderInto_flat (d : DocPtr) : ∀ (indent : ℤ) (e : Emitted),
    d.hasHardBreak = false → (d.flatText.length : ℤ) ≤ maxWidth - e.column →
      renderInto maxWidth indentSpaces d indent true e =
        ⟨e.out ++ d.flatText, e.column + d.flatText.length⟩ := by
  induction d using parts with
  | null => intros; simp [renderInto, flatText]
  | text t => intros; simp [renderInto, flatText]
  | line h =>
    intro indent e hsoft _
    simp only [hasHardBreak] at hsoft
    simp [renderInto, flatText, hsoft]
  | nest n inner ih =>
    intro indent e
    simpa only [renderInto, flatText, hasHardBreak] using ih (indent + n) e
  | group inner ih =>
    intro indent e hsoft hfit
    have hflat := (fits_iff inner (maxWidth - e.column)).2 ⟨hsoft, hfit⟩
    simpa only [renderInto, flatText, hflat] using ih indent e hsoft hfit
  | align inner ih =>
    intro indent e
    simpa only [renderInto, flatText, hasHardBreak] using ih e.column e
  | comment t l r => intros; simp [renderInto, flatText]
  | concat items ih =>
    intro indent e
    simp only [hasHardBreak, flatText, renderInto]
    induction items generalizing e with
    | nil => intros; simp [renderItems, flatTexts]
    | cons d ds ihds =>
      intro hsoft hfit
      simp only [anyHardBreak, Bool.or_eq_false_iff] at hsoft
      simp only [flatTexts, List.length_append, Nat.cast_add] at hfit ⊢
      rw [renderItems, ih d (by simp) indent e hsoft.1 (by omega),
        ihds (fun e he => ih e (by simp [he])) _ hsoft.2 (by simp only; omega)]
      simp only [List.append_assoc, Int.add_assoc]

/-- A flat call of a document that fits. -/
def Call.FlatFit (maxWidth : ℤ) (c : Call) : Prop :=
  c.flatMode = true ∧ c.doc.hasHardBreak = false ∧
    (c.doc.flatText.length : ℤ) ≤ maxWidth - c.before.column

theorem anyHardBreak_append (ds es : List DocPtr) :
    anyHardBreak (ds ++ es) = (anyHardBreak ds || anyHardBreak es) := by
  induction ds with
  | nil => rfl
  | cons d ds ih => simp [anyHardBreak, ih, Bool.or_assoc]

theorem flatTexts_append (ds es : List DocPtr) :
    flatTexts (ds ++ es) = flatTexts ds ++ flatTexts es := by
  induction ds with
  | nil => rfl
  | cons d ds ih => simp [flatTexts, ih]

/-- Inside a flat call of a document that fits, every call is one. -/
theorem Call.FlatFit.makes {maxWidth indentSpaces : ℤ} {c c' : Call}
    (hmakes : Call.Makes maxWidth indentSpaces c c') :
    c.FlatFit maxWidth → c'.FlatFit maxWidth := by
  induction hmakes with
  | self => exact id
  | nest _ ih => exact ih
  | align _ ih => exact ih
  | group _ ih =>
    rintro ⟨-, hsoft, hfit⟩
    exact ih ⟨(fits_iff _ _).2 ⟨hsoft, hfit⟩, hsoft, hfit⟩
  | @concat front back item indent flatMode e c _ ih =>
    rintro ⟨hmode, hsoft, hfit⟩
    simp only at hmode
    subst hmode
    simp only [hasHardBreak, anyHardBreak_append, anyHardBreak, Bool.or_eq_false_iff] at hsoft
    simp only [flatText, flatTexts_append, flatTexts, List.length_append, Nat.cast_add] at hfit
    -- the items in front are written on one line too
    have hfront := renderInto_flat maxWidth indentSpaces (.concat front) indent e hsoft.1
      (by simp only [flatText]; omega)
    simp only [renderInto, flatText] at hfront
    refine ih ⟨rfl, hsoft.2.1, ?_⟩
    rw [hfront]
    simp only
    omega

/-! ## What is written lays the document out -/

theorem emitIndent_eq (out : Text) (columnIndent : ℤ) :
    emitIndent out columnIndent indentSpaces =
      out ++ List.replicate columnIndent.toNat (indentChar indentSpaces) := by
  unfold emitIndent indentChar
  split <;> rfl

theorem newline_notMem_indent (k : ℕ) :
    '\n' ∉ List.replicate k (indentChar indentSpaces) := by
  intro h
  have hchar := List.eq_of_mem_replicate h
  unfold indentChar at hchar
  split at hchar
  · exact absurd hchar (by decide)
  · exact absurd hchar (by decide)

/-- A call appends a text that lays its document out. -/
theorem exists_lays (d : DocPtr) : ∀ (indent : ℤ) (flatMode : Bool) (e : Emitted),
    ∃ t, (renderInto maxWidth indentSpaces d indent flatMode e).out = e.out ++ t ∧
      d.Lays indentSpaces t := by
  induction d using parts with
  | null => exact fun _ _ e => ⟨[], by simp [renderInto], .null⟩
  | text t => exact fun _ _ e => ⟨t, rfl, .text t⟩
  | comment t l r => exact fun _ _ e => ⟨t, rfl, .comment t l r⟩
  | line isHard =>
    intro indent flatMode e
    by_cases hflat : (flatMode && !isHard) = true
    · obtain ⟨hmode, hsoft⟩ := Bool.and_eq_true_iff.1 hflat
      have hsoft : isHard = false := by simpa using hsoft
      subst hsoft
      exact ⟨[' '], by simp [renderInto, hmode], .blank⟩
    · refine ⟨_, ?_, .newline isHard indent.toNat⟩
      simp [renderInto, hflat, emitIndent_eq]
  | nest n inner ih =>
    intro indent flatMode e
    obtain ⟨t, ht, hlays⟩ := ih (indent + n) flatMode e
    exact ⟨t, ht, .nest hlays⟩
  | group inner ih =>
    intro indent flatMode e
    obtain ⟨t, ht, hlays⟩ := ih indent (fits inner (maxWidth - e.column)) e
    exact ⟨t, ht, .group hlays⟩
  | align inner ih =>
    intro indent flatMode e
    obtain ⟨t, ht, hlays⟩ := ih e.column flatMode e
    exact ⟨t, ht, .align hlays⟩
  | concat items ih =>
    intro indent flatMode e
    have hitems : ∃ t, (renderItems maxWidth indentSpaces items indent flatMode e).out =
        e.out ++ t ∧ LaysAll indentSpaces items t := by
      induction items generalizing e with
      | nil => exact ⟨[], by simp [renderItems], .nil⟩
      | cons d ds ihds =>
        obtain ⟨t, ht, hlays⟩ := ih d (by simp) indent flatMode e
        obtain ⟨u, hu, hrest⟩ := ihds (fun e he => ih e (by simp [he]))
          (renderInto maxWidth indentSpaces d indent flatMode e)
        exact ⟨t ++ u, by rw [renderItems, hu, ht, List.append_assoc], .cons hlays hrest⟩
    obtain ⟨t, ht, hlays⟩ := hitems
    exact ⟨t, ht, .concat hlays⟩

/-! ## The column of a layout -/

mutual

/-- The column behind a document laid out by width alone from an
indentation and a column: groups are flat when they have no hard break
and fit. There is none where a line is broken at a negative indentation. -/
def layoutColumn (maxWidth : ℤ) : DocPtr → ℤ → Bool → ℤ → Option ℤ
  | .null, _, _, column => some column
  | .text t, _, _, column => some (column + t.length)
  | .line isHard, indent, flat, column =>
    if flat && !isHard then some (column + 1)
    else if indent < 0 then none else some indent
  | .nest n inner, indent, flat, column => layoutColumn maxWidth inner (indent + n) flat column
  | .group inner, indent, _, column =>
    layoutColumn maxWidth inner indent
      (!inner.hasHardBreak && decide ((inner.flatText.length : ℤ) ≤ maxWidth - column)) column
  | .concat items, indent, flat, column => layoutColumns maxWidth items indent flat column
  | .align inner, _, flat, column => layoutColumn maxWidth inner column flat column
  | .comment t _ _, _, _, column => some (column + t.length)

def layoutColumns (maxWidth : ℤ) : List DocPtr → ℤ → Bool → ℤ → Option ℤ
  | [], _, _, column => some column
  | d :: ds, indent, flat, column =>
    (layoutColumn maxWidth d indent flat column).bind (layoutColumns maxWidth ds indent flat)

end

/-- No line of the layout is broken at a negative indentation. -/
def NoNegativeBreak (maxWidth : ℤ) (d : DocPtr) : Prop :=
  (layoutColumn maxWidth d 0 false 0).isSome

instance (maxWidth : ℤ) (d : DocPtr) : Decidable (NoNegativeBreak maxWidth d) :=
  inferInstanceAs (Decidable (_ = true))

theorem layoutColumns_append (ds es : List DocPtr) (indent : ℤ) (flat : Bool) (column : ℤ) :
    layoutColumns maxWidth (ds ++ es) indent flat column =
      (layoutColumns maxWidth ds indent flat column).bind
        (layoutColumns maxWidth es indent flat) := by
  induction ds generalizing column with
  | nil => rfl
  | cons d ds ih =>
    rw [List.cons_append, layoutColumns, layoutColumns]
    cases layoutColumn maxWidth d indent flat column with
    | none => rfl
    | some c => exact ih c

/-- The layout's test for a group is the renderer's. -/
theorem fits_eq (d : DocPtr) (budget : ℤ) :
    fits d budget = (!d.hasHardBreak && decide ((d.flatText.length : ℤ) ≤ budget)) := by
  rw [Bool.eq_iff_iff, fits_iff]
  simp

/-- The column kept is that of the text. -/
def Emitted.Tracked (e : Emitted) : Prop := e.column = columnOf e.out

theorem Emitted.Tracked.append {e : Emitted} (he : e.Tracked) {t : Text} (ht : '\n' ∉ t) :
    Emitted.Tracked ⟨e.out ++ t, e.column + t.length⟩ := by
  have he : e.column = columnOf e.out := he
  simp only [Emitted.Tracked, columnOf_append ht, he]

/-- The renderer arrives at the layout's column, and at the text's. -/
theorem renderInto_tracked (d : DocPtr) : ∀ (indent : ℤ) (flatMode : Bool) (e : Emitted) (c : ℤ),
    d.Plain → e.Tracked → layoutColumn maxWidth d indent flatMode e.column = some c →
      (renderInto maxWidth indentSpaces d indent flatMode e).Tracked ∧
        (renderInto maxWidth indentSpaces d indent flatMode e).column = c := by
  induction d using parts with
  | null =>
    intro indent flatMode e c _ he h
    exact ⟨he, Option.some.inj h⟩
  | text t =>
    intro indent flatMode e c hp he h
    exact ⟨he.append hp, Option.some.inj h⟩
  | comment t l r =>
    intro indent flatMode e c hp he h
    exact ⟨he.append hp, Option.some.inj h⟩
  | line isHard =>
    intro indent flatMode e c _ he h
    rw [layoutColumn] at h
    rw [renderInto]
    split at h
    · rename_i hflat
      rw [if_pos hflat]
      exact ⟨he.append (by decide), Option.some.inj h⟩
    · rename_i hflat
      rw [if_neg hflat]
      split at h
      · exact absurd h (by simp)
      · rename_i hpos
        refine ⟨?_, Option.some.inj h⟩
        have hcut : emitIndent (e.out ++ ['\n']) indent indentSpaces =
            e.out ++ '\n' :: List.replicate indent.toNat (indentChar indentSpaces) := by
          simp [emitIndent_eq]
        simp only [Emitted.Tracked, hcut, columnOf_newline _ (newline_notMem_indent indentSpaces _),
          List.length_replicate]
        omega
  | nest n inner ih =>
    intro indent flatMode e c
    exact ih (indent + n) flatMode e c
  | group inner ih =>
    intro indent flatMode e c hp he h
    rw [layoutColumn, ← fits_eq] at h
    exact ih indent _ e c hp he h
  | align inner ih =>
    intro indent flatMode e c
    exact ih e.column flatMode e c
  | concat items ih =>
    intro indent flatMode e c hp he h
    rw [layoutColumn] at h
    rw [renderInto]
    rw [Plain] at hp
    induction items generalizing e with
    | nil => exact ⟨he, Option.some.inj h⟩
    | cons d ds ihds =>
      rw [layoutColumns] at h
      obtain ⟨c', hc', hrest⟩ := Option.bind_eq_some_iff.1 h
      obtain ⟨hd, hcol⟩ := ih d (by simp) indent flatMode e c' hp.1 he hc'
      exact ihds (fun e he => ih e (by simp [he])) _ hp.2 hd (by rw [hcol]; exact hrest)

/-- The items in front of one leave the column the layout says. -/
theorem renderItems_tracked {items : List DocPtr} {indent : ℤ} {flatMode : Bool} {e : Emitted}
    {c : ℤ} (hp : AllPlain items) (he : e.Tracked)
    (h : layoutColumns maxWidth items indent flatMode e.column = some c) :
    (renderItems maxWidth indentSpaces items indent flatMode e).Tracked ∧
      (renderItems maxWidth indentSpaces items indent flatMode e).column = c :=
  renderInto_tracked maxWidth indentSpaces (.concat items) indent flatMode e c hp he h

/-- A call that begins at the true column and whose document lays out
without a break at a negative indentation. -/
structure Call.Sound (maxWidth : ℤ) (c : Call) : Prop where
  plain : c.doc.Plain
  tracked : c.before.Tracked
  noNegative : (layoutColumn maxWidth c.doc c.indent c.flatMode c.before.column).isSome

theorem Call.Sound.result {maxWidth : ℤ} {c : Call} (h : c.Sound maxWidth) :
    (c.result maxWidth indentSpaces).Tracked := by
  obtain ⟨column, hcolumn⟩ := Option.isSome_iff_exists.1 h.noNegative
  exact (renderInto_tracked maxWidth indentSpaces c.doc c.indent c.flatMode c.before column h.plain h.tracked hcolumn).1

/-- A sound call makes sound calls. -/
theorem Call.Sound.makes {maxWidth indentSpaces : ℤ} {c c' : Call}
    (hmakes : Call.Makes maxWidth indentSpaces c c') :
    c.Sound maxWidth → c'.Sound maxWidth := by
  induction hmakes with
  | self => exact id
  | nest _ ih => exact fun ⟨hp, he, hs⟩ => ih ⟨hp, he, hs⟩
  | align _ ih => exact fun ⟨hp, he, hs⟩ => ih ⟨hp, he, hs⟩
  | group _ ih =>
    rintro ⟨hp, he, hs⟩
    refine ih ⟨hp, he, ?_⟩
    rw [layoutColumn, ← fits_eq] at hs
    exact hs
  | @concat front back item indent flatMode e c _ ih =>
    rintro ⟨hp, he, hs⟩
    have hall := allPlain_iff.1 hp
    simp only [layoutColumn, layoutColumns_append] at hs
    obtain ⟨column, hcolumn⟩ := Option.isSome_iff_exists.1 hs
    obtain ⟨c₁, hc₁, hrest⟩ := Option.bind_eq_some_iff.1 hcolumn
    rw [layoutColumns] at hrest
    obtain ⟨c₂, hc₂, -⟩ := Option.bind_eq_some_iff.1 hrest
    obtain ⟨htracked, hcol⟩ := renderItems_tracked maxWidth indentSpaces
      (allPlain_iff.2 fun d hd => hall d (by simp [hd])) he hc₁
    refine ih ⟨hall item (by simp), htracked, ?_⟩
    rw [hcol, hc₂]
    rfl

/-- Where the layout breaks a line at a negative indentation, the call
that breaks it ends with a column that is not the text's. -/
theorem exists_untracked (d : DocPtr) : ∀ (indent : ℤ) (flatMode : Bool) (e : Emitted),
    d.Plain → e.Tracked → layoutColumn maxWidth d indent flatMode e.column = none →
      ∃ c, Call.Makes maxWidth indentSpaces ⟨d, indent, flatMode, e⟩ c ∧
        ¬ (c.result maxWidth indentSpaces).Tracked := by
  induction d using parts with
  | null => exact fun _ _ _ _ _ h => absurd h (by simp [layoutColumn])
  | text t => exact fun _ _ _ _ _ h => absurd h (by simp [layoutColumn])
  | comment t l r => exact fun _ _ _ _ _ h => absurd h (by simp [layoutColumn])
  | line isHard =>
    intro indent flatMode e _ _ h
    refine ⟨_, .self _, ?_⟩
    rw [layoutColumn] at h
    split at h
    · exact absurd h (by simp)
    · rename_i hflat
      split at h
      · rename_i hneg
        -- the column is below zero, a text's is not
        have hcolumn : (0 : ℤ) ≤ columnOf (emitIndent (e.out ++ ['\n']) indent indentSpaces) :=
          Int.natCast_nonneg _
        simp only [Call.result, renderInto, hflat, Emitted.Tracked, Bool.false_eq_true, if_false]
        omega
      · exact absurd h (by simp)
  | nest n inner ih =>
    intro indent flatMode e hp he h
    obtain ⟨c, hmakes, hc⟩ := ih (indent + n) flatMode e hp he h
    exact ⟨c, .nest hmakes, hc⟩
  | group inner ih =>
    intro indent flatMode e hp he h
    rw [layoutColumn, ← fits_eq] at h
    obtain ⟨c, hmakes, hc⟩ := ih indent _ e hp he h
    exact ⟨c, .group hmakes, hc⟩
  | align inner ih =>
    intro indent flatMode e hp he h
    obtain ⟨c, hmakes, hc⟩ := ih e.column flatMode e hp he h
    exact ⟨c, .align hmakes, hc⟩
  | concat items ih =>
    intro indent flatMode e hp he h
    -- the first item whose layout has such a break
    have hfirst : ∃ front item back c, items = front ++ item :: back ∧
        layoutColumns maxWidth front indent flatMode e.column = some c ∧
        layoutColumn maxWidth item indent flatMode c = none := by
      rw [layoutColumn] at h
      generalize e.column = column at h
      clear ih hp he
      induction items generalizing column with
      | nil => exact absurd h (by simp [layoutColumns])
      | cons d ds ihds =>
        rw [layoutColumns] at h
        cases hd : layoutColumn maxWidth d indent flatMode column with
        | none => exact ⟨[], d, ds, column, rfl, rfl, hd⟩
        | some c =>
          rw [hd] at h
          obtain ⟨front, item, back, c', hitems, hfront, hitem⟩ := ihds c h
          refine ⟨d :: front, item, back, c', by rw [hitems]; rfl, ?_, hitem⟩
          rw [layoutColumns, hd]
          exact hfront
    obtain ⟨front, item, back, c, rfl, hfront, hitem⟩ := hfirst
    have hall := allPlain_iff.1 hp
    obtain ⟨htracked, hcol⟩ := renderItems_tracked maxWidth indentSpaces
      (allPlain_iff.2 fun d hd => hall d (by simp [hd])) he hfront
    obtain ⟨call, hmakes, hcall⟩ := ih item (by simp) indent flatMode _ (hall item (by simp))
      htracked (by rw [hcol]; exact hitem)
    exact ⟨call, .concat hmakes, hcall⟩

/-! ## The layout chosen -/

end Fmt

end Nslc
