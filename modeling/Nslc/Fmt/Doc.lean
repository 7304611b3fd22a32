import Nslc.Common.Lines
/-!
# Doc — the documents a layout is chosen for

The constructors of `Doc.h` over pointers that may be null, and what a
document says apart from any renderer: its text on one line, whether it
holds a hard break, and the texts that lay it out.
-/

namespace Nslc

namespace Fmt

/-- A pointer to a document, or the null pointer the renderer passes
over. -/
inductive DocPtr where
  | null
  | text (text : Text)
  /-- A soft break, or a hard one. -/
  | line (isHard : Bool)
  | nest (indent : ℤ) (inner : DocPtr)
  | group (inner : DocPtr)
  | concat (items : List DocPtr)
  | align (inner : DocPtr)
  | comment (text : Text) (leading trailing : Bool)

namespace DocPtr

/-- A document is shown by its parts, and a sequence by its items. -/
@[elab_as_elim]
theorem parts {motive : DocPtr → Prop} (null : motive null) (text : ∀ t, motive (text t))
    (line : ∀ h, motive (line h)) (nest : ∀ n inner, motive inner → motive (nest n inner))
    (group : ∀ inner, motive inner → motive (group inner))
    (concat : ∀ items, (∀ d ∈ items, motive d) → motive (concat items))
    (align : ∀ inner, motive inner → motive (align inner))
    (comment : ∀ t l r, motive (comment t l r)) (d : DocPtr) : motive d :=
  DocPtr.rec null text line nest group concat align comment
    (fun _ h => absurd h List.not_mem_nil)
    (fun _ _ hd ih e he => by
      obtain rfl | he := List.mem_cons.1 he
      · exact hd
      · exact ih e he) d

mutual

/-- The text on one line, each soft break a blank. -/
def flatText : DocPtr → Text
  | null => []
  | text t => t
  | line _ => [' ']
  | nest _ inner => inner.flatText
  | group inner => inner.flatText
  | concat items => flatTexts items
  | align inner => inner.flatText
  | comment t _ _ => t

def flatTexts : List DocPtr → Text
  | [] => []
  | d :: ds => d.flatText ++ flatTexts ds

end

mutual

def hasHardBreak : DocPtr → Bool
  | null => false
  | text _ => false
  | line isHard => isHard
  | nest _ inner => inner.hasHardBreak
  | group inner => inner.hasHardBreak
  | concat items => anyHardBreak items
  | align inner => inner.hasHardBreak
  | comment _ _ _ => false

def anyHardBreak : List DocPtr → Bool
  | [] => false
  | d :: ds => d.hasHardBreak || anyHardBreak ds

end

mutual

/-- No leaf holds a newline. -/
def Plain : DocPtr → Prop
  | null => True
  | text t => '\n' ∉ t
  | line _ => True
  | nest _ inner => inner.Plain
  | group inner => inner.Plain
  | concat items => AllPlain items
  | align inner => inner.Plain
  | comment t _ _ => '\n' ∉ t

def AllPlain : List DocPtr → Prop
  | [] => True
  | d :: ds => d.Plain ∧ AllPlain ds

end

theorem allPlain_iff {ds : List DocPtr} : AllPlain ds ↔ ∀ d ∈ ds, d.Plain := by
  induction ds with
  | nil => simp [AllPlain]
  | cons d ds ih => simp [AllPlain, ih]

theorem anyHardBreak_eq_false {ds : List DocPtr} :
    anyHardBreak ds = false ↔ ∀ d ∈ ds, d.hasHardBreak = false := by
  induction ds with
  | nil => simp [anyHardBreak]
  | cons d ds ih => simp [anyHardBreak, ih]

/-- The text on one line has a newline only from a leaf. -/
theorem newline_notMem_flatText (d : DocPtr) : d.Plain → '\n' ∉ d.flatText := by
  induction d using parts with
  | null => simp [flatText]
  | text t => exact id
  | line h => simp [flatText]
  | nest n inner ih => exact ih
  | group inner ih => exact ih
  | align inner ih => exact ih
  | comment t l r => exact id
  | concat items ih =>
    intro hp
    have hall : ∀ ds : List DocPtr, (∀ d ∈ ds, '\n' ∉ d.flatText) → '\n' ∉ flatTexts ds := by
      intro ds
      induction ds with
      | nil => simp [flatTexts]
      | cons d ds ihds =>
        intro h
        rw [flatTexts, List.mem_append, not_or]
        exact ⟨h d (by simp), ihds fun e he => h e (by simp [he])⟩
    exact hall items fun d hd => ih d hd (allPlain_iff.1 hp d hd)

/-! ## The texts that lay a document out -/

/-- The character a line is indented with: a tab where the step is
negative. -/
def indentChar (indentSpaces : ℤ) : Char := if indentSpaces < 0 then '\t' else ' '

mutual

/-- The document's leaves in order, a blank for a soft break or a newline
with indentation for any break, and nothing else. -/
inductive Lays (indentSpaces : ℤ) : DocPtr → Text → Prop where
  | null : Lays indentSpaces null []
  | text (t : Text) : Lays indentSpaces (text t) t
  | blank : Lays indentSpaces (line false) [' ']
  | newline (isHard : Bool) (k : ℕ) :
      Lays indentSpaces (line isHard) ('\n' :: List.replicate k (indentChar indentSpaces))
  | nest {n : ℤ} {inner : DocPtr} {t : Text} (h : Lays indentSpaces inner t) :
      Lays indentSpaces (nest n inner) t
  | group {inner : DocPtr} {t : Text} (h : Lays indentSpaces inner t) :
      Lays indentSpaces (group inner) t
  | concat {items : List DocPtr} {t : Text} (h : LaysAll indentSpaces items t) :
      Lays indentSpaces (concat items) t
  | align {inner : DocPtr} {t : Text} (h : Lays indentSpaces inner t) :
      Lays indentSpaces (align inner) t
  | comment (t : Text) (leading trailing : Bool) :
      Lays indentSpaces (comment t leading trailing) t

inductive LaysAll (indentSpaces : ℤ) : List DocPtr → Text → Prop where
  | nil : LaysAll indentSpaces [] []
  | cons {d : DocPtr} {ds : List DocPtr} {t u : Text} (head : Lays indentSpaces d t)
      (tail : LaysAll indentSpaces ds u) : LaysAll indentSpaces (d :: ds) (t ++ u)

end

end DocPtr

/-- The characters since the last newline of a text. -/
def columnOf (out : Text) : ℤ := (out.reverse.takeWhile (· ≠ '\n')).length

@[simp] theorem columnOf_nil : columnOf [] = 0 := rfl

theorem columnOf_append {out t : Text} (h : '\n' ∉ t) :
    columnOf (out ++ t) = columnOf out + t.length := by
  have hall : ∀ c ∈ t.reverse, decide (c ≠ '\n') = true := by
    intro c hc
    simpa using fun heq : c = '\n' => h (heq ▸ List.mem_reverse.1 hc)
  rw [columnOf, List.reverse_append, List.takeWhile_append_of_pos hall, List.length_append,
    List.length_reverse, columnOf]
  omega

theorem columnOf_newline (out : Text) {t : Text} (h : '\n' ∉ t) :
    columnOf (out ++ '\n' :: t) = t.length := by
  have hcut : out ++ '\n' :: t = (out ++ ['\n']) ++ t := by simp
  rw [hcut, columnOf_append h]
  simp [columnOf]

end Fmt

end Nslc
