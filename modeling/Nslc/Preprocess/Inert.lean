import Nslc.Preprocess.Reports
import Mathlib
/-!
# Preprocessor — text that is not selected

Two runs over files that differ in a region of lines no branch selects.
The runs stay in lockstep: line by line they write the same output, keep
the same macro table and open the same files (`Twin`), and inside the
region their conditional stacks differ only by conditionals opened in
the region itself. What can differ is what the region's nested openers
report: their conditions are evaluated although nothing is selected.
-/

namespace Nslc

namespace Preprocess

namespace Inert

open Nesting (Mark)

/-! ## Reading marks where nothing is selected -/

/-- The frame of a conditional opened on line `i` of the root file, in
text that is not selected. -/
def offFrame (i : ℕ) : CondFrame := ⟨false, false, true, ⟨1, i + 1, 0⟩⟩

/-- The conditionals opened in the region, by line, behind a line `i`
with the given mark. -/
def posStep (i : ℕ) (ps : List ℕ) : Option Mark → List ℕ
  | some .opener => i :: ps
  | some .endif => ps.tail
  | _ => ps

/-- The conditionals opened in the region and still open behind its lines
`ls`, the first of which is line `i`. -/
def openPositions : ℕ → List ℕ → List Line → List ℕ
  | _, ps, [] => ps
  | i, ps, l :: ls => openPositions (i + 1) (posStep i ps (lineDirective l).mark?) ls

/-- A mark under `n` conditionals opened in the region and the outer
conditionals `st`. -/
def baseStep (n : ℕ) (st : List CondFrame) : Mark → ℕ × List CondFrame
  | .opener => (n + 1, st)
  | .els => if n = 0 then (0, (handleElse ⟨0, 0, 0⟩ st).1) else (n, st)
  | .endif => if n = 0 then (0, st.tail) else (n - 1, st)

/-- The outer conditionals behind the marks. -/
def baseAfter : ℕ → List CondFrame → List Mark → List CondFrame
  | _, st, [] => st
  | n, st, m :: ms => baseAfter (baseStep n st m).1 (baseStep n st m).2 ms

/-- Reading the marks under the outer conditionals `st` never comes to a
selected branch; `n` conditionals were opened on the way. -/
def StaysOff : ℕ → List CondFrame → List Mark → Prop
  | _, st, [] => isEmitting st = false
  | n, st, m :: ms =>
    isEmitting st = false ∧ StaysOff (baseStep n st m).1 (baseStep n st m).2 ms

/-- A line's mark, if it has one. -/
def lineStep (n : ℕ) (st : List CondFrame) : Option Mark → ℕ × List CondFrame
  | none => (n, st)
  | some m => baseStep n st m

instance (n : ℕ) (st : List CondFrame) (ms : List Mark) : Decidable (StaysOff n st ms) :=
  go n st ms
where
  go : (n : ℕ) → (st : List CondFrame) → (ms : List Mark) → Decidable (StaysOff n st ms)
    | _, st, [] => inferInstanceAs (Decidable (isEmitting st = false))
    | n, st, m :: ms =>
      have := go (baseStep n st m).1 (baseStep n st m).2 ms
      inferInstanceAs (Decidable (_ ∧ _))

theorem StaysOff.isEmitting {n : ℕ} {st : List CondFrame} {ms : List Mark}
    (h : StaysOff n st ms) : isEmitting st = false := by
  cases ms with
  | nil => exact h
  | cons m ms => exact h.1

/-- The stack inside the region: the conditionals opened in it, in front
of the outer ones. -/
def regionStack (ps : List ℕ) (st : List CondFrame) : List CondFrame := ps.map offFrame ++ st

theorem isEmitting_regionStack {ps : List ℕ} {st : List CondFrame} (h : isEmitting st = false) :
    isEmitting (regionStack ps st) = false := by
  cases ps with
  | nil => exact h
  | cons p ps => rfl

theorem handleElse_fst (loc loc' : SourceLocation) (st : List CondFrame) :
    (handleElse loc st).1 = (handleElse loc' st).1 := by
  cases st with
  | nil => rfl
  | cons cf rest => rfl

theorem pushCondFrame_off {st : List CondFrame} (h : isEmitting st = false) (b : Bool) (i : ℕ) :
    pushCondFrame st b ⟨1, i + 1, 0⟩ = offFrame i :: st := by
  simp [pushCondFrame, h, offFrame]

/-- What the openers of unselected text report. -/
def openerReports (E : PPExpression) (macros : MacroTable) (loc : SourceLocation) :
    ParsedDirective → List Diag
  | .ifdef name | .ifndef name =>
    if name = [] then [⟨.error, some loc, .ifdefMissingIdent, none⟩] else []
  | .ifExpr e => (E.parse macros e).2.map (Finding.diag (some loc))
  | _ => []

theorem posStep_length (i : ℕ) (ps : List ℕ) (st : List CondFrame) (m : Option Mark) :
    (posStep i ps m).length = (lineStep ps.length st m).1 := by
  match m with
  | none => rfl
  | some .opener => rfl
  | some .els => cases ps <;> simp [posStep, lineStep, baseStep]
  | some .endif => cases ps <;> simp [posStep, lineStep, baseStep]

theorem condMarks_cons (l : Line) (ls : List Line) :
    condMarks (l :: ls) = (lineDirective l).mark?.toList ++ condMarks ls := by
  cases h : (lineDirective l).mark? <;> simp [condMarks, h]

theorem staysOff_cons {n : ℕ} {st : List CondFrame} {l : Line} {ls : List Line}
    (h : StaysOff n st (condMarks (l :: ls))) :
    StaysOff (lineStep n st (lineDirective l).mark?).1 (lineStep n st (lineDirective l).mark?).2
      (condMarks ls) := by
  rw [condMarks_cons] at h
  cases hm : (lineDirective l).mark? with
  | none => simpa [hm, lineStep] using h
  | some m =>
    rw [hm] at h
    exact h.2

theorem baseAfter_cons (n : ℕ) (st : List CondFrame) (l : Line) (ls : List Line) :
    baseAfter n st (condMarks (l :: ls)) =
      baseAfter (lineStep n st (lineDirective l).mark?).1
        (lineStep n st (lineDirective l).mark?).2 (condMarks ls) := by
  rw [condMarks_cons]
  cases hm : (lineDirective l).mark? with
  | none => rfl
  | some m => rfl

/-- **One line of unselected text.** Whatever the directive, its effect
on the conditionals is its mark's, and only an opener can report. -/
theorem condStep_off (E : PPExpression) (macros : MacroTable) (d : ParsedDirective)
    (ps : List ℕ) {st : List CondFrame} (i : ℕ) (h : isEmitting st = false) :
    condStep E macros ⟨1, i + 1, 0⟩ d (regionStack ps st) =
      (regionStack (posStep i ps d.mark?) (lineStep ps.length st d.mark?).2,
        openerReports E macros ⟨1, i + 1, 0⟩ d) := by
  have hpush : ∀ b, pushCondFrame (regionStack ps st) b ⟨1, i + 1, 0⟩ =
      regionStack (i :: ps) st := fun b => pushCondFrame_off (isEmitting_regionStack h) b i
  have hifdef : ∀ name negate, handleIfdef macros name negate ⟨1, i + 1, 0⟩ (regionStack ps st) =
      (regionStack (i :: ps) st,
        if name = [] then [⟨.error, some ⟨1, i + 1, 0⟩, .ifdefMissingIdent, none⟩] else []) := by
    intro name negate
    unfold handleIfdef
    split <;> simp [hpush]
  cases d with
  | ifdef name => exact hifdef name false
  | ifndef name => exact hifdef name true
  | ifExpr e => simp [condStep, handleIf, hpush, openerReports, posStep, lineStep, baseStep,
      ParsedDirective.mark?]
  | els =>
    cases ps with
    | nil =>
      cases st with
      | nil => exact absurd h (by simp [isEmitting])
      | cons cf rest =>
        simp only [condStep, regionStack, List.map_nil, List.nil_append, posStep, lineStep, baseStep,
          ParsedDirective.mark?, openerReports, List.length_nil, if_true]
        refine Prod.ext (handleElse_fst _ _ _) ?_
        simp only [handleElse]
        split
        · rfl
        · split <;> rfl
    | cons p ps => rfl
  | endif =>
    cases ps with
    | nil =>
      cases st with
      | nil => exact absurd h (by simp [isEmitting])
      | cons cf rest => rfl
    | cons p ps => rfl
  | _ => rfl

/-! ## Two files -/

/-- `input'` is `input` with the lines `old` replaced by as many lines
`new` with the same terminators and the same conditional nesting: the
same marks in the same order, and the same lines left open at the end. -/
structure Replacement (input input' : SourceText) where
  pre : List Line
  old : List Line
  new : List Line
  post : List Line
  lines_eq : splitLines input.text = pre ++ (old ++ post)
  lines_eq' : splitLines input'.text = pre ++ (new ++ post)
  newline_eq : old.map Line.newline = new.map Line.newline
  marks_eq : condMarks old = condMarks new
  open_eq : openPositions pre.length [] old = openPositions pre.length [] new

variable {input input' : SourceText} {env : Env} {path : Text} {predefined : List (Text × Text)}

namespace Replacement

variable (r : Replacement input input')

theorem length_eq : r.old.length = r.new.length := by
  simpa using congrArg List.length r.newline_eq

theorem splitLines_length (r : Replacement input input') :
    (splitLines input'.text).length = (splitLines input.text).length := by
  simp [r.lines_eq, r.lines_eq', r.length_eq]

/-- Line `i` of the root file stands in the region. -/
def Inside (i : ℕ) : Prop := r.pre.length ≤ i ∧ i < r.pre.length + r.old.length

instance (i : ℕ) : Decidable (r.Inside i) := inferInstanceAs (Decidable (_ ∧ _))

/-- A location on a line of the region. -/
def InRegion (l : SourceLocation) : Prop :=
  l.file = 1 ∧ r.pre.length < l.line ∧ l.line ≤ r.pre.length + r.old.length

instance (l : SourceLocation) : Decidable (r.InRegion l) := inferInstanceAs (Decidable (_ ∧ _))

/-- Outside the region the files have the same lines. -/
theorem getElem?_of_not_inside {i : ℕ} (h : ¬ r.Inside i) :
    (splitLines input'.text)[i]? = (splitLines input.text)[i]? := by
  rw [r.lines_eq, r.lines_eq']
  rcases Nat.lt_or_ge i r.pre.length with hi | hi
  · rw [List.getElem?_append_left hi, List.getElem?_append_left hi]
  · have hge : r.old.length ≤ i - r.pre.length := by
      by_contra hlt
      exact h ⟨hi, by omega⟩
    rw [List.getElem?_append_right hi, List.getElem?_append_right hi,
      List.getElem?_append_right hge, List.getElem?_append_right (by rw [← r.length_eq]; exact hge),
      r.length_eq]

theorem getElem?_old {i : ℕ} (h : r.Inside i) :
    (splitLines input.text)[i]? = r.old[i - r.pre.length]? := by
  rw [r.lines_eq, List.getElem?_append_right h.1,
    List.getElem?_append_left (by have := h.1; have := h.2; omega)]

theorem getElem?_new {i : ℕ} (h : r.Inside i) :
    (splitLines input'.text)[i]? = r.new[i - r.pre.length]? := by
  rw [r.lines_eq', List.getElem?_append_right h.1,
    List.getElem?_append_left (by rw [← r.length_eq]; have := h.1; have := h.2; omega)]

end Replacement

/-- The region is not selected in the run on `input`: wherever the run
stands before its first line, reading its marks comes to no selected
branch. -/
def Unselected (env : Env) (path : Text) (predefined : List (Text × Text))
    (r : Replacement input input') : Prop :=
  ∀ k f fs, (runState env k (initial path input predefined)).includeStack = f :: fs →
    f.fid = 1 → f.physicalLine = r.pre.length + 1 → StaysOff 0 f.condStack (condMarks r.old)

/-! ## Twin states -/

/-- Frames of the two runs. Frames of other files are equal; frames of
the root file stand at the same line, with equal conditionals unless
the line is inside the region, where they become equal at its end. -/
inductive TwinFrame (r : Replacement input input') : Frame → Frame → Prop
  | other {f : Frame} : f.fid ≠ 1 → TwinFrame r f f
  | same {i : ℕ} {st : List CondFrame} : i ≤ (splitLines input.text).length →
      ¬ (r.pre.length < i ∧ i < r.pre.length + r.old.length) →
      TwinFrame r ⟨1, lineOffset input.text i, i + 1, st⟩ ⟨1, lineOffset input'.text i, i + 1, st⟩
  | inside {j : ℕ} {ps ps' : List ℕ} {st st' : List CondFrame} : 0 < j → j < r.old.length →
      StaysOff ps.length st (condMarks (r.old.drop j)) →
      StaysOff ps'.length st' (condMarks (r.new.drop j)) →
      openPositions (r.pre.length + j) ps (r.old.drop j) =
        openPositions (r.pre.length + j) ps' (r.new.drop j) →
      baseAfter ps.length st (condMarks (r.old.drop j)) =
        baseAfter ps'.length st' (condMarks (r.new.drop j)) →
      TwinFrame r
        ⟨1, lineOffset input.text (r.pre.length + j), r.pre.length + j + 1, regionStack ps st⟩
        ⟨1, lineOffset input'.text (r.pre.length + j), r.pre.length + j + 1, regionStack ps' st'⟩

/-- Overrides of the root file, at the ends of the same lines. -/
def TwinOverride (input input' : SourceText) (d d' : LineDirective) : Prop :=
  ∃ j ≤ (splitLines input.text).length,
    d.originOffset = lineOffset input.text j ∧ d'.originOffset = lineOffset input'.text j

/-- The registered files: the root file first, the others equal. -/
def TwinFiles (path : Text) (input input' : SourceText) (sm sm' : SourceManager) : Prop :=
  ∃ ov ov' rest, sm.buffers = ⟨path, input.text, ov⟩ :: rest ∧
    sm'.buffers = ⟨path, input'.text, ov'⟩ :: rest ∧
    List.Forall₂ (TwinOverride input input') ov ov' ∧ sm.includeStack = sm'.includeStack

/-- A report of a nested opener of the region. -/
def regional (r : Replacement input input') (d : Diag) : Bool :=
  match d.loc, d.message with
  | some l, .ifdefMissingIdent => r.InRegion l
  | some l, .expr _ => r.InRegion l
  | _, _ => false

/-- States of the two runs after the same number of steps. -/
structure Twin (path : Text) (r : Replacement input input') (s s' : State) : Prop where
  files : TwinFiles path input input' s.sm s'.sm
  stack : List.Forall₂ (TwinFrame r) s.includeStack s'.includeStack
  macros : s'.macros = s.macros
  macrosOutside : ∀ m ∈ s.macros, ∀ l, m.definingLoc = some l → ¬ r.InRegion l
  output : s'.output = s.output
  aborted : s'.aborted = s.aborted
  diags : s'.diags.filter (fun d => !regional r d) = s.diags.filter fun d => !regional r d

variable {r : Replacement input input'} {s s' : State}

namespace Twin

theorem emit (h : Twin path r s s') (t : Text) : Twin path r (s.emit t) (s'.emit t) :=
  ⟨h.files, h.stack, h.macros, h.macrosOutside, by simp [State.emit, h.output], h.aborted, h.diags⟩

theorem addDiags (h : Twin path r s s') (ds : List Diag) :
    Twin path r (s.addDiags ds) (s'.addDiags ds) :=
  ⟨h.files, h.stack, h.macros, h.macrosOutside, h.output, h.aborted,
    by simp [State.addDiags, h.diags]⟩

theorem report (h : Twin path r s s') (loc : SourceLocation) (m : Message) :
    Twin path r (s.report loc m) (s'.report loc m) := h.addDiags _

theorem abort (h : Twin path r s s') (a : Abort) : Twin path r (s.abort a) (s'.abort a) :=
  ⟨h.files, h.stack, h.macros, h.macrosOutside, h.output, rfl, h.diags⟩

theorem withStack (h : Twin path r s s') {fs fs' : List Frame}
    (hfs : List.Forall₂ (TwinFrame r) fs fs') :
    Twin path r { s with includeStack := fs } { s' with includeStack := fs' } :=
  ⟨h.files, hfs, h.macros, h.macrosOutside, h.output, h.aborted, h.diags⟩

theorem withFiles (h : Twin path r s s') {sm sm' : SourceManager}
    (hsm : TwinFiles path input input' sm sm') :
    Twin path r { s with sm := sm } { s' with sm := sm' } :=
  ⟨hsm, h.stack, h.macros, h.macrosOutside, h.output, h.aborted, h.diags⟩

theorem withMacros (h : Twin path r s s') {m : MacroTable}
    (hm : ∀ d ∈ m, ∀ l, d.definingLoc = some l → ¬ r.InRegion l) :
    Twin path r { s with macros := m } { s' with macros := m } :=
  ⟨h.files, h.stack, rfl, hm, h.output, h.aborted, h.diags⟩

end Twin

/-! ## Files -/

theorem forall₂_getLast? {α β : Type} {R : α → β → Prop} {xs : List α} {ys : List β}
    (h : List.Forall₂ R xs ys) : Option.Rel R xs.getLast? ys.getLast? := by
  induction h with
  | nil => exact .none
  | cons hab hrest ih =>
    cases hrest with
    | nil => exact .some hab
    | cons _ _ => simpa [List.getLast?_cons_cons] using ih

namespace TwinFiles

variable {sm sm' : SourceManager}

theorem getPath_eq (h : TwinFiles path input input' sm sm') (fid : FileID) :
    sm'.getPath fid = sm.getPath fid := by
  obtain ⟨ov, ov', rest, hb, hb', -, -⟩ := h
  unfold SourceManager.getPath SourceManager.buffer?
  rw [hb, hb']
  match fid with
  | 0 => rfl
  | 1 => rfl
  | n + 2 => simp

theorem getBuffer_root (h : TwinFiles path input input' sm sm') :
    sm.getBuffer 1 = input.text ∧ sm'.getBuffer 1 = input'.text := by
  obtain ⟨ov, ov', rest, hb, hb', -, -⟩ := h
  simp [SourceManager.getBuffer, SourceManager.buffer?, hb, hb']

theorem buffer?_other (h : TwinFiles path input input' sm sm') {fid : FileID} (hf : fid ≠ 1) :
    sm'.buffer? fid = sm.buffer? fid := by
  obtain ⟨ov, ov', rest, hb, hb', -, -⟩ := h
  unfold SourceManager.buffer?
  rw [hb, hb']
  match fid with
  | 0 => rfl
  | 1 => exact absurd rfl hf
  | n + 2 => simp

theorem findFileIDByPath_eq (h : TwinFiles path input input' sm sm') (p : Text) :
    sm'.findFileIDByPath p = sm.findFileIDByPath p := by
  obtain ⟨ov, ov', rest, hb, hb', -, -⟩ := h
  simp [SourceManager.findFileIDByPath, hb, hb', List.findIdx?_cons]

/-- An override at the end of the same line is accepted in both runs or
in neither. -/
theorem addLineDirective_root (h : TwinFiles path input input' sm sm') {j : ℕ}
    (hj : j ≤ (splitLines input.text).length)
    (hlen : (splitLines input'.text).length = (splitLines input.text).length) (n : ℕ) (p : Text) :
    Option.Rel (TwinFiles path input input')
      (sm.addLineDirective 1 (lineOffset input.text j) n p)
      (sm'.addLineDirective 1 (lineOffset input'.text j) n p) := by
  obtain ⟨ov, ov', rest, hb, hb', hov, hinc⟩ := h
  have hlast : (ov.getLast?.all fun d => decide (d.originOffset < lineOffset input.text j)) =
      (ov'.getLast?.all fun d => decide (d.originOffset < lineOffset input'.text j)) := by
    -- the last overrides stand at the end of one line, and lines keep their order
    cases hl : ov.getLast? with
    | none =>
      have hrel := forall₂_getLast? hov
      rw [hl] at hrel
      cases hl' : ov'.getLast? with
      | none => rfl
      | some d' => rw [hl'] at hrel; cases hrel
    | some d =>
      have hrel := forall₂_getLast? hov
      rw [hl] at hrel
      cases hl' : ov'.getLast? with
      | none => rw [hl'] at hrel; cases hrel
      | some d' =>
        rw [hl'] at hrel
        cases hrel with
        | some hd =>
          obtain ⟨j', hj', hd, hd'⟩ := hd
          rw [Option.all_some, Option.all_some, hd, hd', decide_eq_decide,
            lineOffset_lt_iff hj' hj,
            lineOffset_lt_iff (by rw [hlen]; exact hj') (by rw [hlen]; exact hj)]
  unfold SourceManager.addLineDirective SourceManager.buffer?
  rw [hb, hb']
  simp only [Nat.sub_self, List.getElem?_cons_zero, Nat.one_ne_zero, if_false]
  rw [hlast]
  split
  · refine .some ⟨_, _, rest, rfl, rfl, ?_, hinc⟩
    exact List.rel_append hov (.cons ⟨j, hj, rfl, rfl⟩ .nil)
  · exact .none

theorem addLineDirective_other (h : TwinFiles path input input' sm sm') {fid : ℕ}
    (hf : fid ≠ 1) (off n : ℕ) (p : Text) :
    Option.Rel (TwinFiles path input input') (sm.addLineDirective fid off n p)
      (sm'.addLineDirective fid off n p) := by
  unfold SourceManager.addLineDirective
  rw [h.buffer?_other hf]
  obtain ⟨ov, ov', rest, hb, hb', hov, hinc⟩ := h
  cases hbuf : sm.buffer? fid with
  | none => exact .none
  | some b =>
    simp only
    split
    · obtain ⟨k, hk⟩ : ∃ k, fid - 1 = k + 1 := by
        refine ⟨fid - 2, ?_⟩
        have : fid ≠ 0 := by
          rintro rfl
          simp [SourceManager.buffer?] at hbuf
        omega
      refine .some ⟨ov, ov', rest.set k
        { b with lineOverrides := b.lineOverrides ++ [⟨off, n, p⟩] }, ?_, ?_, hov, hinc⟩
      · rw [hb, hk, List.set_cons_succ]
      · rw [hb', hk, List.set_cons_succ]
    · exact .none

/-- Loading a file gives the same answer in both runs. -/
theorem loadFile (h : TwinFiles path input input' sm sm') (env : Env) (p : Text) :
    (loadFile env sm p = .cannotOpen ∧ loadFile env sm' p = .cannotOpen) ∨
      (loadFile env sm p = .exhausted ∧ loadFile env sm' p = .exhausted) ∨
      ∃ sm₁ sm₁' fid, loadFile env sm p = .ok sm₁ fid ∧ loadFile env sm' p = .ok sm₁' fid ∧
        TwinFiles path input input' sm₁ sm₁' := by
  unfold Preprocess.loadFile
  rw [h.findFileIDByPath_eq]
  cases hfind : sm.findFileIDByPath p with
  | some fid => exact .inr (.inr ⟨sm, sm', fid, rfl, rfl, h⟩)
  | none =>
    cases hfile : env.files p with
    | none => exact .inl ⟨rfl, rfl⟩
    | some t =>
      obtain ⟨ov, ov', rest, hb, hb', hov, hinc⟩ := h
      have hlen : sm'.buffers.length = sm.buffers.length := by rw [hb, hb']; rfl
      by_cases hroom : sm.buffers.length < 255
      · simp only [SourceManager.addBufferInMemory, hlen, hroom, if_true]
        refine .inr (.inr ⟨_, _, _, rfl, rfl, ov, ov', rest ++ [⟨p, t.text, []⟩], ?_, ?_, hov, hinc⟩)
        · simp [hb]
        · simp [hb']
      · simp only [SourceManager.addBufferInMemory, hlen, hroom, if_false]
        exact .inr (.inl ⟨trivial, trivial⟩)

end TwinFiles

/-! ## Lines both files have -/

theorem twin_passLine (h : Twin path r s s') (E : PPExpression) (text : Text)
    (loc : SourceLocation) (term : Text) :
    Twin path r (passLine E s text loc term) (passLine E s' text loc term) := by
  unfold passLine
  rw [h.macros]
  exact (h.addDiags _).emit _

theorem twin_handleDefine (h : Twin path r s s') (name body : Text) {loc : SourceLocation}
    (hloc : ¬ r.InRegion loc) :
    Twin path r (handleDefine s name body loc) (handleDefine s' name body loc) := by
  unfold handleDefine
  rw [h.macros]
  split
  · exact h.report _ _
  · have hm : ∀ d ∈ s.macros.redefine name body (some loc), ∀ l, d.definingLoc = some l →
        ¬ r.InRegion l := by
      intro d hd l hl
      rcases mem_redefine hd with rfl | ⟨hold, -⟩
      · obtain rfl := Option.some.inj hl
        exact hloc
      · exact h.macrosOutside d hold l hl
    split
    · exact h.withMacros hm
    · exact (h.withMacros hm).addDiags _

theorem twin_handleUndef (h : Twin path r s s') (name : Text) (loc : SourceLocation) :
    Twin path r (handleUndef s name loc) (handleUndef s' name loc) := by
  unfold handleUndef
  rw [h.macros]
  split
  · exact h.report _ _
  · exact h.withMacros fun d hd => h.macrosOutside d (List.mem_of_mem_filter hd)

/-- Where a `#line` of the two runs puts its override: at the same
offset of another file, or at the end of the same line of the root. -/
def TwinEnd (input input' : SourceText) (fid : FileID) (off off' : ℕ) : Prop :=
  (fid ≠ 1 ∧ off = off') ∨ (fid = 1 ∧ ∃ j ≤ (splitLines input.text).length,
    off = lineOffset input.text j ∧ off' = lineOffset input'.text j)

theorem twin_handleLine (h : Twin path r s s') (E : PPExpression) {fid : FileID} (operand : Text)
    (loc : SourceLocation) {off off' : ℕ} (hoff : TwinEnd input input' fid off off') :
    Twin path r (handleLine E s fid operand loc off) (handleLine E s' fid operand loc off') := by
  have hbig : kMaxOffset ≤ off ↔ kMaxOffset ≤ off' := by
    rcases hoff with ⟨-, rfl⟩ | ⟨-, j, hj, rfl, rfl⟩
    · rfl
    · have h1 := lineOffset_le_length hj
      have h2 := lineOffset_le_length (t := input'.text) (i := j) (by
        rw [r.splitLines_length]
        exact hj)
      have := input.length_lt
      have := input'.length_lt
      constructor <;> intro <;> omega
  have hadd : ∀ n p, Option.Rel (TwinFiles path input input') (s.sm.addLineDirective fid off n p)
      (s'.sm.addLineDirective fid off' n p) := by
    intro n p
    rcases hoff with ⟨hf, rfl⟩ | ⟨rfl, j, hj, rfl, rfl⟩
    · exact h.files.addLineDirective_other hf off n p
    · exact h.files.addLineDirective_root hj r.splitLines_length n p
  simp only [handleLine, h.macros]
  have hsplice := h.addDiags (splice E s.macros operand loc).2
  split
  · exact hsplice.report _ _
  · exact hsplice.report _ _
  · rename_i lineNo p trailing _
    have htrail : Twin path r
        (if trailing then (s.addDiags (splice E s.macros operand loc).2).report loc .lineTrailing
          else s.addDiags (splice E s.macros operand loc).2)
        (if trailing then (s'.addDiags (splice E s.macros operand loc).2).report loc .lineTrailing
          else s'.addDiags (splice E s.macros operand loc).2) := by
      split
      · exact hsplice.report _ _
      · exact hsplice
    have hsm : ∀ t : State, t = (if trailing then
        (s.addDiags (splice E s.macros operand loc).2).report loc .lineTrailing
        else s.addDiags (splice E s.macros operand loc).2) → t.sm = s.sm := by
      rintro t rfl
      cases trailing <;> rfl
    have hsm' : ∀ t : State, t = (if trailing then
        (s'.addDiags (splice E s.macros operand loc).2).report loc .lineTrailing
        else s'.addDiags (splice E s.macros operand loc).2) → t.sm = s'.sm := by
      rintro t rfl
      cases trailing <;> rfl
    by_cases hb : kMaxOffset ≤ off
    · rw [if_pos hb, if_pos (hbig.1 hb)]
      exact htrail.abort _
    · rw [if_neg hb, if_neg (fun hx => hb (hbig.2 hx)), hsm _ rfl, hsm' _ rfl]
      have hrel := hadd (lineNo % 2 ^ 32) (p.getD [])
      cases h1 : s.sm.addLineDirective fid off (lineNo % 2 ^ 32) (p.getD []) with
      | none =>
        rw [h1] at hrel
        cases h2 : s'.sm.addLineDirective fid off' (lineNo % 2 ^ 32) (p.getD []) with
        | none => exact htrail.abort _
        | some sm' =>
          rw [h2] at hrel
          cases hrel
      | some sm =>
        rw [h1] at hrel
        cases h2 : s'.sm.addLineDirective fid off' (lineNo % 2 ^ 32) (p.getD []) with
        | none =>
          rw [h2] at hrel
          cases hrel
        | some sm' =>
          rw [h2] at hrel
          cases hrel with
          | some hfiles => exact (htrail.withFiles hfiles).emit _

theorem twinFrame_fid {f f' : Frame} (h : TwinFrame r f f') : f'.fid = f.fid := by
  cases h <;> rfl

/-- A frame that opens a file, before its first line. -/
theorem twinFrame_open (r : Replacement input input') (fid : FileID) :
    TwinFrame r ⟨fid, 0, 1, []⟩ ⟨fid, 0, 1, []⟩ := by
  by_cases hf : fid = 1
  · subst hf
    exact .same (Nat.zero_le _) (by omega)
  · exact .other hf

theorem includeTrace_eq (h : Twin path r s s') (p : Text) :
    includeTrace s' p = includeTrace s p := by
  simp only [includeTrace, List.map_reverse]
  congr 3
  have hpath : ∀ fid, s'.sm.getPath fid = s.sm.getPath fid := h.files.getPath_eq
  have hstack := h.stack
  generalize s.includeStack = fs at hstack
  generalize s'.includeStack = fs' at hstack
  induction hstack with
  | nil => rfl
  | cons hf _ ih => rw [List.map_cons, List.map_cons, ih, twinFrame_fid hf, hpath]

theorem twin_handleInclude (h : Twin path r s s') (env : Env) (fid : FileID) (filename : Text)
    (isAngle : Bool) (loc : SourceLocation) :
    Twin path r (handleInclude env s fid filename isAngle loc)
      (handleInclude env s' fid filename isAngle loc) := by
  unfold handleInclude
  rw [h.files.getPath_eq, h.stack.length_eq.symm]
  split
  · exact h.report _ _
  · split
    · exact h.report _ _
    · rename_i p _
      rw [includeTrace_eq h]
      split
      · exact h.report _ _
      · unfold openInclude
        rcases h.files.loadFile env p with ⟨h1, h2⟩ | ⟨h1, h2⟩ | ⟨sm, sm', inner, h1, h2, hf⟩
        · rw [h1, h2]
          exact h.report _ _
        · rw [h1, h2]
          exact h.abort _
        · rw [h1, h2]
          have hpush : TwinFiles path input input' (sm.pushIncludeFrame loc inner)
              (sm'.pushIncludeFrame loc inner) := by
            obtain ⟨ov, ov', rest, hb, hb', hov, hinc⟩ := hf
            exact ⟨ov, ov', rest, hb, hb', hov, by simp [SourceManager.pushIncludeFrame, hinc]⟩
          simp only [hf.getPath_eq]
          exact ((h.withFiles hpush).withStack (.cons (twinFrame_open r inner) h.stack)).emit _

/-- **A line both files have.** The two runs read it in frames with the
same conditionals, and stay twins. -/
theorem twin_stepLine (h : Twin path r s s') (env : Env) {f f' : Frame} {fs fs' : List Frame}
    {l : Line} (hfs : List.Forall₂ (TwinFrame r) fs fs') (hloc : f'.loc = f.loc)
    (hout : ¬ r.InRegion f.loc) (hcond : f'.condStack = f.condStack)
    (hnext : TwinFrame r (f.next env s l) (f'.next env s' l))
    (hend : TwinEnd input input' f.fid (f.advance l).cursor (f'.advance l).cursor) :
    Twin path r (stepLine env s f fs l) (stepLine env s' f' fs' l) := by
  have hstack := h.withStack (.cons hnext hfs)
  have hfid : f'.fid = f.fid := congrArg SourceLocation.file hloc
  have hr : condStep env.expr s'.macros f'.loc (lineDirective l) f'.condStack =
      condStep env.expr s.macros f.loc (lineDirective l) f.condStack := by
    rw [h.macros, hloc, hcond]
  unfold stepLine dispatch
  rw [hr, hcond, hloc, hfid]
  cases lineDirective l with
  | passthrough =>
    simp only
    split
    · exact twin_passLine hstack _ _ _ _
    · exact hstack.emit _
  | define name body =>
    simp only
    split
    · exact (twin_handleDefine hstack name body hout).emit _
    · exact hstack.emit _
  | undef name =>
    simp only
    split
    · exact (twin_handleUndef hstack name _).emit _
    · exact hstack.emit _
  | line operand =>
    simp only
    split
    · exact twin_handleLine hstack _ operand _ hend
    · exact hstack.emit _
  | incl filename isAngle =>
    simp only
    split
    · exact twin_handleInclude hstack env _ filename isAngle _
    · exact hstack.emit _
  | unknown name =>
    simp only
    split
    · exact (hstack.report _ _).emit _
    · exact hstack.emit _
  | _ => exact (hstack.addDiags _).emit _

/-! ## Lines of the region -/

/-- Unselected text writes its terminator and reports through its
openers; nothing else happens. -/
theorem stepLine_off (env : Env) (s : State) {f : Frame} (fs : List Frame) (l : Line)
    (h : isEmitting f.condStack = false) :
    stepLine env s f fs l =
      (({ s with includeStack := f.next env s l :: fs } : State).addDiags
        (condStep env.expr s.macros f.loc (lineDirective l) f.condStack).2).emit l.term := by
  have hnone : ∀ t : State, t.addDiags [] = t := fun t => by simp [State.addDiags]
  unfold stepLine dispatch
  cases lineDirective l <;> simp [h, condStep, hnone]

theorem openerReports_regional {E : PPExpression} {macros : MacroTable} {d : ParsedDirective}
    {i : ℕ} (hi : r.Inside i) :
    ∀ e ∈ openerReports E macros ⟨1, i + 1, 0⟩ d, regional r e = true := by
  have hin : ∀ delta, r.InRegion ⟨1, i + 1, delta⟩ := by
    intro delta
    have := hi.1
    have := hi.2
    exact ⟨rfl, by simp only; omega, by simp only; omega⟩
  intro e he
  cases d with
  | ifdef name | ifndef name =>
    simp only [openerReports] at he
    split at he
    · obtain rfl := List.mem_singleton.1 he
      simpa [regional] using hin 0
    · exact absurd he (by simp)
  | ifExpr x =>
    obtain ⟨fd, -, rfl⟩ := List.mem_map.1 he
    simpa [regional, Finding.diag, locAt] using hin (0 + fd.delta)
  | _ => exact absurd he (by simp [openerReports])

theorem filter_regional_append {ds es : List Diag} (h : ∀ e ∈ es, regional r e = true) :
    (ds ++ es).filter (fun d => !regional r d) = ds.filter fun d => !regional r d := by
  rw [List.filter_append]
  have : es.filter (fun d => !regional r d) = [] := by
    rw [List.filter_eq_nil_iff]
    intro e he
    simp [h e he]
  rw [this, List.append_nil]

/-- **A line of the region.** Both runs read their own line, stay
unselected, and stay twins. -/
theorem twin_regionLine (h : Twin path r s s') (env : Env) {j : ℕ} {ps ps' : List ℕ}
    {st st' : List CondFrame} {fs fs' : List Frame} {l l' : Line}
    (hfs : List.Forall₂ (TwinFrame r) fs fs') (hl : r.old[j]? = some l) (hl' : r.new[j]? = some l')
    (hoff : StaysOff ps.length st (condMarks (r.old.drop j)))
    (hoff' : StaysOff ps'.length st' (condMarks (r.new.drop j)))
    (hopen : openPositions (r.pre.length + j) ps (r.old.drop j) =
      openPositions (r.pre.length + j) ps' (r.new.drop j))
    (hbase : baseAfter ps.length st (condMarks (r.old.drop j)) =
      baseAfter ps'.length st' (condMarks (r.new.drop j))) :
    Twin path r
      (stepLine env s
        ⟨1, lineOffset input.text (r.pre.length + j), r.pre.length + j + 1, regionStack ps st⟩ fs l)
      (stepLine env s'
        ⟨1, lineOffset input'.text (r.pre.length + j), r.pre.length + j + 1, regionStack ps' st'⟩
        fs' l') := by
  have hj : j < r.old.length := by
    by_contra hge
    rw [List.getElem?_eq_none (by omega)] at hl
    exact absurd hl (by simp)
  have hin : r.Inside (r.pre.length + j) := ⟨by omega, by omega⟩
  have hdrop : r.old.drop j = l :: r.old.drop (j + 1) :=
    List.drop_eq_getElem?_toList_append.trans (by simp [hl])
  have hdrop' : r.new.drop j = l' :: r.new.drop (j + 1) :=
    List.drop_eq_getElem?_toList_append.trans (by simp [hl'])
  have hterm : l'.term = l.term := by
    have := congrArg (·[j]?) r.newline_eq
    simp only [List.getElem?_map, hl, hl', Option.map_some, Option.some.injEq] at this
    simp [Line.term, this]
  have hcur : lineOffset input.text (r.pre.length + j) + l.bytes.length =
      lineOffset input.text (r.pre.length + (j + 1)) :=
    (lineOffset_succ (by rw [r.getElem?_old hin, Nat.add_sub_cancel_left, hl])).symm
  have hcur' : lineOffset input'.text (r.pre.length + j) + l'.bytes.length =
      lineOffset input'.text (r.pre.length + (j + 1)) :=
    (lineOffset_succ (by rw [r.getElem?_new hin, Nat.add_sub_cancel_left, hl'])).symm
  rw [hdrop] at hoff hopen hbase
  rw [hdrop'] at hoff' hopen hbase
  have hoff1 := staysOff_cons hoff
  have hoff1' := staysOff_cons hoff'
  rw [← posStep_length (r.pre.length + j)] at hoff1 hoff1'
  rw [baseAfter_cons, baseAfter_cons, ← posStep_length (r.pre.length + j),
    ← posStep_length (r.pre.length + j)] at hbase
  rw [stepLine_off env s fs l (isEmitting_regionStack hoff.isEmitting),
    stepLine_off env s' fs' l' (isEmitting_regionStack hoff'.isEmitting), hterm]
  have hc := condStep_off env.expr s.macros (lineDirective l) ps (r.pre.length + j)
    hoff.isEmitting
  have hc' := condStep_off env.expr s'.macros (lineDirective l') ps' (r.pre.length + j)
    hoff'.isEmitting
  have hnext : TwinFrame r
      (Frame.next env s ⟨1, lineOffset input.text (r.pre.length + j), r.pre.length + j + 1,
        regionStack ps st⟩ l)
      (Frame.next env s' ⟨1, lineOffset input'.text (r.pre.length + j), r.pre.length + j + 1,
        regionStack ps' st'⟩ l') := by
    simp only [Frame.next, Frame.advance, Frame.loc, hc, hc', hcur, hcur']
    rcases Nat.lt_or_ge (j + 1) r.old.length with hlt | hge
    · exact .inside (by omega) hlt hoff1 hoff1' hopen hbase
    · -- behind the last line of the region nothing of it is left
      rw [List.drop_eq_nil_of_le hge] at hopen hbase
      rw [List.drop_eq_nil_of_le (by rw [← r.length_eq]; exact hge)] at hopen hbase
      simp only [openPositions] at hopen
      simp only [condMarks, List.filterMap_nil, baseAfter] at hbase
      rw [hopen, hbase]
      refine .same ?_ (by omega)
      rw [r.lines_eq]
      simp only [List.length_append]
      omega
  refine ⟨h.files, .cons hnext hfs, h.macros, h.macrosOutside, ?_, h.aborted, ?_⟩
  · simp [State.emit, State.addDiags, h.output]
  · simp only [State.emit, State.addDiags, Frame.loc, hc, hc']
    rw [filter_regional_append (openerReports_regional hin),
      filter_regional_append (openerReports_regional hin), h.diags]

/-! ## One step of both runs -/

theorem readLine_lineOffset (t : Text) (i : ℕ) :
    readLine t (lineOffset t i) = (splitLines t)[i]? := by
  rw [readLine_eq_head, splitLines_drop_lineOffset, List.head?_drop]

/-- The region is not selected if the state stands before it. -/
def OffAtRegion (r : Replacement input input') (s : State) : Prop :=
  ∀ f fs, s.includeStack = f :: fs → f.fid = 1 → f.physicalLine = r.pre.length + 1 →
    StaysOff 0 f.condStack (condMarks r.old)

/-- What the innermost frames of twin states are about to do: end
together, read a common line, or read a line of the region each. -/
theorem twinFrame_cases (env : Env) (h : Twin path r s s') (hoff : OffAtRegion r s)
    {f f' : Frame} {fs : List Frame} (hst : s.includeStack = f :: fs) (hf : TwinFrame r f f') :
    (readLine (s.sm.getBuffer f.fid) f.cursor = none ∧
        readLine (s'.sm.getBuffer f'.fid) f'.cursor = none ∧ ¬ r.InRegion f.loc ∧
        f'.condStack = f.condStack) ∨
      (∃ l, readLine (s.sm.getBuffer f.fid) f.cursor = some l ∧
        readLine (s'.sm.getBuffer f'.fid) f'.cursor = some l ∧ f'.loc = f.loc ∧
        ¬ r.InRegion f.loc ∧ f'.condStack = f.condStack ∧
        TwinFrame r (f.next env s l) (f'.next env s' l) ∧
        TwinEnd input input' f.fid (f.advance l).cursor (f'.advance l).cursor) ∨
      ∃ j ps ps' st st' l l', r.old[j]? = some l ∧ r.new[j]? = some l' ∧
        readLine (s.sm.getBuffer f.fid) f.cursor = some l ∧
        readLine (s'.sm.getBuffer f'.fid) f'.cursor = some l' ∧
        StaysOff ps.length st (condMarks (r.old.drop j)) ∧
        StaysOff ps'.length st' (condMarks (r.new.drop j)) ∧
        openPositions (r.pre.length + j) ps (r.old.drop j) =
          openPositions (r.pre.length + j) ps' (r.new.drop j) ∧
        baseAfter ps.length st (condMarks (r.old.drop j)) =
          baseAfter ps'.length st' (condMarks (r.new.drop j)) ∧
        f = ⟨1, lineOffset input.text (r.pre.length + j), r.pre.length + j + 1,
          regionStack ps st⟩ ∧
        f' = ⟨1, lineOffset input'.text (r.pre.length + j), r.pre.length + j + 1,
          regionStack ps' st'⟩ := by
  have hlines : ∀ j, j < r.old.length → ∃ l l', r.old[j]? = some l ∧ r.new[j]? = some l' ∧
      readLine (s.sm.getBuffer 1) (lineOffset input.text (r.pre.length + j)) = some l ∧
      readLine (s'.sm.getBuffer 1) (lineOffset input'.text (r.pre.length + j)) = some l' := by
    intro j hj
    have hin : r.Inside (r.pre.length + j) := ⟨by omega, by omega⟩
    obtain ⟨l, hl⟩ : ∃ l, r.old[j]? = some l := ⟨_, List.getElem?_eq_getElem hj⟩
    obtain ⟨l', hl'⟩ : ∃ l', r.new[j]? = some l' :=
      ⟨_, List.getElem?_eq_getElem (by rw [← r.length_eq]; exact hj)⟩
    refine ⟨l, l', hl, hl', ?_, ?_⟩
    · rw [h.files.getBuffer_root.1, readLine_lineOffset, r.getElem?_old hin,
        Nat.add_sub_cancel_left, hl]
    · rw [h.files.getBuffer_root.2, readLine_lineOffset, r.getElem?_new hin,
        Nat.add_sub_cancel_left, hl']
  cases hf with
  | other hfid =>
    have hbuf : s'.sm.getBuffer f.fid = s.sm.getBuffer f.fid := by
      simp [SourceManager.getBuffer, h.files.buffer?_other hfid]
    rw [hbuf]
    cases hr : readLine (s.sm.getBuffer f.fid) f.cursor with
    | none => exact .inl ⟨rfl, rfl, fun hin => hfid hin.1, rfl⟩
    | some l =>
      refine .inr (.inl ⟨l, rfl, rfl, rfl, fun hin => hfid hin.1, rfl, ?_, .inl ⟨hfid, rfl⟩⟩)
      have : f.next env s' l = f.next env s l := by simp [Frame.next, h.macros]
      rw [this]
      exact .other hfid
  | @same i st hi hns =>
    by_cases hin : r.Inside i
    · -- the first line of the region
      obtain rfl : i = r.pre.length := by
        have := hin.1
        have := hin.2
        omega
      obtain ⟨l, l', hl, hl', hread, hread'⟩ := hlines 0 (by have := hin.2; omega)
      have hst0 : StaysOff 0 st (condMarks r.old) := hoff _ _ hst rfl rfl
      refine .inr (.inr ⟨0, [], [], st, st, l, l', hl, hl', hread, hread', hst0, ?_, ?_, ?_,
        rfl, rfl⟩)
      · rw [List.drop_zero, ← r.marks_eq]
        exact hst0
      · simpa using r.open_eq
      · simp only [List.drop_zero, r.marks_eq]
    · have hbuf := h.files.getBuffer_root
      have hnot : ¬ r.InRegion ⟨1, i + 1, 0⟩ := by
        rintro ⟨-, h1, h2⟩
        simp only at h1 h2
        exact hin ⟨by omega, by omega⟩
      simp only [hbuf.1, hbuf.2, readLine_lineOffset, r.getElem?_of_not_inside hin]
      cases hl : (splitLines input.text)[i]? with
      | none => exact .inl ⟨rfl, rfl, hnot, trivial⟩
      | some l =>
        have hlt : i < (splitLines input.text).length := by
          by_contra hge
          rw [List.getElem?_eq_none (by omega)] at hl
          exact absurd hl (by simp)
        have hcur := (lineOffset_succ hl).symm
        have hcur' := (lineOffset_succ ((r.getElem?_of_not_inside hin).trans hl)).symm
        refine .inr (.inl ⟨l, rfl, rfl, rfl, hnot, trivial, ?_,
          .inr ⟨rfl, i + 1, by omega, hcur, hcur'⟩⟩)
        simp only [Frame.next, Frame.advance, hcur, hcur', h.macros, Frame.loc]
        refine .same (by omega) ?_
        rintro ⟨h1, h2⟩
        exact hin ⟨by omega, by omega⟩
  | @inside j ps ps' st st' h0 hj hoff1 hoff1' hopen hbase =>
    obtain ⟨l, l', hl, hl', hread, hread'⟩ := hlines j hj
    exact .inr (.inr ⟨j, ps, ps', st, st', l, l', hl, hl', hread, hread', hoff1, hoff1', hopen,
      hbase, rfl, rfl⟩)

theorem twin_stepEof (h : Twin path r s s') {f f' : Frame} {fs fs' : List Frame}
    (hfs : List.Forall₂ (TwinFrame r) fs fs') (hcond : f'.condStack = f.condStack) :
    Twin path r (stepEof s f fs) (stepEof s' f' fs') := by
  unfold stepEof
  rw [hcond]
  have hd := (h.addDiags (f.condStack.reverse.map fun cf =>
    ⟨.error, some cf.openerLoc, .unterminatedIf, none⟩)).withStack hfs
  cases hfs with
  | nil => exact hd
  | @cons outer outer' fs fs' ho hfs =>
    obtain ⟨ov, ov', rest, hb, hb', hov, hinc⟩ := h.files
    have hline : outer'.physicalLine = outer.physicalLine := by cases ho <;> rfl
    simp only [State.addDiags, SourceManager.popIncludeFrame, ← hinc]
    cases hs : s.sm.includeStack with
    | nil => exact hd.abort _
    | cons p inc =>
      have hfiles : TwinFiles path input input' { s.sm with includeStack := inc }
          { s'.sm with includeStack := inc } := ⟨ov, ov', rest, hb, hb', hov, rfl⟩
      simp only [hfiles.getPath_eq, twinFrame_fid ho, hline]
      exact (hd.withFiles hfiles).emit _

/-- **Twins stay twins.** -/
theorem twin_step {t t' : State} (h : Twin path r s s') (hoff : OffAtRegion r s)
    (ht : step env s = some t) (ht' : step env s' = some t') : Twin path r t t' := by
  obtain ⟨f, fs, -, hst, hcase⟩ := step_cases ht
  obtain ⟨f', fs', -, hst', hcase'⟩ := step_cases ht'
  have hstack := h.stack
  rw [hst, hst'] at hstack
  obtain ⟨hf, hfs⟩ := List.forall₂_cons.1 hstack
  rcases twinFrame_cases env h hoff hst hf with ⟨hr, hr', -, hcond⟩ |
    ⟨l, hr, hr', hloc, hout, hcond, hnext, hend⟩ |
    ⟨j, ps, ps', st, st', l, l', hl, hl', hr, hr', ho, ho', hopen, hbase, rfl, rfl⟩
  · rcases hcase with ⟨-, rfl⟩ | ⟨l, hl, -⟩
    · rcases hcase' with ⟨-, rfl⟩ | ⟨l, hl, -⟩
      · exact twin_stepEof h hfs hcond
      · exact absurd (hr'.symm.trans hl) (by simp)
    · exact absurd (hr.symm.trans hl) (by simp)
  · rcases hcase with ⟨hl, -⟩ | ⟨l₁, hl₁, rfl⟩
    · exact absurd (hr.symm.trans hl) (by simp)
    · rcases hcase' with ⟨hl, -⟩ | ⟨l₂, hl₂, rfl⟩
      · exact absurd (hr'.symm.trans hl) (by simp)
      · obtain rfl := Option.some.inj (hr.symm.trans hl₁)
        obtain rfl := Option.some.inj (hr'.symm.trans hl₂)
        exact twin_stepLine h env hfs hloc hout hcond hnext hend
  · rcases hcase with ⟨hx, -⟩ | ⟨l₁, hl₁, rfl⟩
    · exact absurd (hr.symm.trans hx) (by simp)
    · rcases hcase' with ⟨hx, -⟩ | ⟨l₂, hl₂, rfl⟩
      · exact absurd (hr'.symm.trans hx) (by simp)
      · obtain rfl := Option.some.inj (hr.symm.trans hl₁)
        obtain rfl := Option.some.inj (hr'.symm.trans hl₂)
        exact twin_regionLine h env hfs hl hl' ho ho' hopen hbase

theorem twin_halt (h : Twin path r s s') : step env s = none ↔ step env s' = none := by
  rw [step_eq_none_iff, step_eq_none_iff, h.aborted]
  have hlen := h.stack.length_eq
  have : s.includeStack = [] ↔ s'.includeStack = [] := by
    rw [← List.length_eq_zero_iff, ← List.length_eq_zero_iff, hlen]
  rw [this]

theorem twin_initial (path : Text) (r : Replacement input input')
    (predefined : List (Text × Text)) :
    Twin path r (initial path input predefined) (initial path input' predefined) where
  files := ⟨[], [], [], rfl, rfl, .nil, rfl⟩
  stack := .cons (twinFrame_open r 1) .nil
  macros := rfl
  macrosOutside := by
    intro m hm l hl
    rw [definingLoc_initial m hm] at hl
    exact absurd hl (by simp)
  output := rfl
  aborted := rfl
  diags := rfl

/-- **The runs are twins throughout.** -/
theorem twin_run (r : Replacement input input') (h : Unselected env path predefined r) (n : ℕ) :
    Twin path r (runState env n (initial path input predefined))
      (runState env n (initial path input' predefined)) :=
  Run.runUpto_rel (G := OffAtRegion r) (fun _ _ hR => twin_halt hR)
    (fun _ _ _ _ hR hG ht ht' => twin_step hR hG ht ht')
    (fun k _ f fs hst hfid hline => h k f fs hst hfid hline) (twin_initial path r predefined)

/-! ## The region's reports -/

/-- The line about to be read is line `j` of the region, and line `j` of
`ls`, in its place, reports `d` there under the macro table of `s`. -/
def VisitReport (env : Env) (r : Replacement input input') (ls : List Line) (s : State)
    (d : Diag) : Prop :=
  ∃ f fs j l, s.aborted = none ∧ s.includeStack = f :: fs ∧ f.fid = 1 ∧
    f.physicalLine = r.pre.length + j + 1 ∧ ls[j]? = some l ∧
    d ∈ openerReports env.expr s.macros ⟨1, r.pre.length + j + 1, 0⟩ (lineDirective l)

/-- `d` is reported by the lines `ls` in the place of the region within
`n` steps of the run on `input`. -/
def RegionReport (env : Env) (path : Text) (predefined : List (Text × Text))
    (r : Replacement input input') (ls : List Line) (n : ℕ) (d : Diag) : Prop :=
  ∃ k < n, VisitReport env r ls (runState env k (initial path input predefined)) d

theorem not_regional_of_reported {loc : SourceLocation} {macros : MacroTable} {d : Diag}
    (hloc : ¬ r.InRegion loc) (hm : ∀ m ∈ macros, ∀ l, m.definingLoc = some l → ¬ r.InRegion l)
    (h : Reported loc macros d) : regional r d = false := by
  have hline : ∀ l, d.loc = some l → ¬ r.InRegion l := by
    intro l hl hin
    rcases h.located l hl with ⟨h1, h2⟩ | ⟨m, hmem, dl, hdl, h1, h2⟩
    · exact hloc ⟨h1 ▸ hin.1, h2 ▸ hin.2⟩
    · exact hm m hmem dl hdl ⟨h1 ▸ hin.1, h2 ▸ hin.2⟩
  unfold regional
  split
  · rename_i l hl _
    simpa using hline l hl
  · rename_i l _ hl _
    simpa using hline l hl
  · rfl

/-- The reports of a conditional outside the region are not regional. -/
theorem not_regional_condStep {E : PPExpression} {macros : MacroTable} {loc : SourceLocation}
    {d : ParsedDirective} {st : List CondFrame} (hloc : ¬ r.InRegion loc) :
    ∀ e ∈ (condStep E macros loc d st).2, regional r e = false := by
  have hat : ∀ e : Diag, (∃ delta, e.loc = some ⟨loc.file, loc.line, delta⟩) →
      regional r e = false := by
    rintro e ⟨delta, he⟩
    have hno : ¬ r.InRegion ⟨loc.file, loc.line, delta⟩ := fun hin => hloc ⟨hin.1, hin.2⟩
    unfold regional
    rw [he]
    split
    · rename_i l hl _
      obtain rfl := Option.some.inj hl
      simpa using hno
    · rename_i l _ hl _
      obtain rfl := Option.some.inj hl
      simpa using hno
    · rfl
  intro e he
  refine hat e ?_
  cases d with
  | ifdef name | ifndef name =>
    simp only [condStep, handleIfdef] at he
    split at he
    · obtain rfl := List.mem_singleton.1 he
      exact ⟨loc.delta, rfl⟩
    · exact absurd he (by simp)
  | ifExpr x =>
    obtain ⟨fd, -, rfl⟩ := List.mem_map.1 he
    exact ⟨loc.delta + fd.delta, rfl⟩
  | els =>
    simp only [condStep, handleElse] at he
    split at he
    · obtain rfl := List.mem_singleton.1 he
      exact ⟨loc.delta, rfl⟩
    · split at he
      · exact absurd he (by simp)
      · split at he <;> exact absurd he (by simp)
  | endif =>
    simp only [condStep, handleEndif] at he
    split at he
    · obtain rfl := List.mem_singleton.1 he
      exact ⟨loc.delta, rfl⟩
    · exact absurd he (by simp)
  | _ => exact absurd he (by simp [condStep])

/-- Nothing of the region is reported where the innermost frame stands
elsewhere. -/
theorem not_visitReport (env : Env) {ls : List Line} {f : Frame} {fs : List Frame} {d : Diag}
    (hls : ls.length = r.old.length) (hst : s.includeStack = f :: fs) (hout : ¬ r.InRegion f.loc) :
    ¬ VisitReport env r ls s d := by
  rintro ⟨g, gs, j, l, -, hst', hfid, hline, hl, -⟩
  obtain ⟨rfl, -⟩ := List.cons.inj (hst.symm.trans hst')
  have hj : j < ls.length := by
    by_contra hge
    rw [List.getElem?_eq_none (by omega)] at hl
    exact absurd hl (by simp)
  refine hout ⟨hfid, ?_, ?_⟩
  · simp only [Frame.loc]
    omega
  · simp only [Frame.loc]
    omega

/-- Where the innermost frame stands on line `j` of the region, the
report is that of line `j`. -/
theorem visitReport_iff {ls : List Line} {fs : List Frame} {j cur : ℕ} {st : List CondFrame}
    {l : Line} {d : Diag} (hrun : s.aborted = none)
    (hst : s.includeStack = ⟨1, cur, r.pre.length + j + 1, st⟩ :: fs) (hl : ls[j]? = some l) :
    VisitReport env r ls s d ↔
      d ∈ openerReports env.expr s.macros ⟨1, r.pre.length + j + 1, 0⟩ (lineDirective l) := by
  constructor
  · rintro ⟨g, gs, j', l', -, hst', -, hline, hl', hd⟩
    obtain ⟨rfl, -⟩ := List.cons.inj (hst.symm.trans hst')
    obtain rfl : j = j' := by
      simp only at hline
      omega
    obtain rfl := Option.some.inj (hl.symm.trans hl')
    exact hd
  · intro hd
    exact ⟨_, fs, j, l, hrun, hst, rfl, rfl, hl, hd⟩

/-- A line outside the region reports nothing regional. -/
theorem regional_mem_stepLine {f : Frame} {fs : List Frame} {l : Line} {d : Diag}
    (hout : ¬ r.InRegion f.loc)
    (hm : ∀ m ∈ s.macros, ∀ l, m.definingLoc = some l → ¬ r.InRegion l)
    (hd : regional r d = true) : d ∈ (stepLine env s f fs l).diags ↔ d ∈ s.diags := by
  obtain ⟨ds, hall, hds⟩ := stepLine_diags env s f fs l
  rw [hds, List.mem_append, List.mem_append]
  constructor
  · rintro ((h | h) | h)
    · exact h
    · rw [not_regional_of_reported hout hm (hall d h)] at hd
      exact absurd hd (by simp)
    · rw [not_regional_condStep hout d h] at hd
      exact absurd hd (by simp)
  · exact fun h => .inl (.inl h)

theorem regional_mem_stepEof {f : Frame} {fs : List Frame} {d : Diag} (hd : regional r d = true) :
    d ∈ (stepEof s f fs).diags ↔ d ∈ s.diags := by
  have hdiags : (stepEof s f fs).diags = s.diags ++ (f.condStack.reverse.map fun cf =>
      (⟨.error, some cf.openerLoc, .unterminatedIf, none⟩ : Diag)) := by
    unfold stepEof
    cases fs with
    | nil => rfl
    | cons outer fs =>
      simp only [State.addDiags]
      split <;> rfl
  rw [hdiags, List.mem_append]
  constructor
  · rintro (h | h)
    · exact h
    · obtain ⟨cf, -, rfl⟩ := List.mem_map.1 h
      simp [regional] at hd
  · exact .inl

/-- A line of the region reports what its opener does. -/
theorem mem_stepLine_region {j cur : ℕ} {ps : List ℕ} {st : List CondFrame} {fs : List Frame}
    {l : Line} {d : Diag} (hoff : isEmitting st = false) :
    d ∈ (stepLine env s ⟨1, cur, r.pre.length + j + 1, regionStack ps st⟩ fs l).diags ↔
      d ∈ s.diags ∨ d ∈ openerReports env.expr s.macros ⟨1, r.pre.length + j + 1, 0⟩
        (lineDirective l) := by
  rw [stepLine_off env s fs l (isEmitting_regionStack hoff)]
  simp only [State.emit, State.addDiags, Frame.loc, List.mem_append]
  rw [condStep_off env.expr s.macros (lineDirective l) ps (r.pre.length + j) hoff]

/-- **One step's regional reports.** Both runs add what their own line of
the region reports, under the same macro table. -/
theorem regional_mem_step {t t' : State} (h : Twin path r s s') (hoff : OffAtRegion r s)
    (ht : step env s = some t) (ht' : step env s' = some t') {d : Diag}
    (hd : regional r d = true) :
    (d ∈ t.diags ↔ d ∈ s.diags ∨ VisitReport env r r.old s d) ∧
      (d ∈ t'.diags ↔ d ∈ s'.diags ∨ VisitReport env r r.new s d) := by
  obtain ⟨f, fs, hrun, hst, hcase⟩ := step_cases ht
  obtain ⟨f', fs', -, hst', hcase'⟩ := step_cases ht'
  have hstack := h.stack
  rw [hst, hst'] at hstack
  obtain ⟨hf, -⟩ := List.forall₂_cons.1 hstack
  have hm' : ∀ m ∈ s'.macros, ∀ l, m.definingLoc = some l → ¬ r.InRegion l := by
    rw [h.macros]
    exact h.macrosOutside
  rcases twinFrame_cases env h hoff hst hf with ⟨hr, hr', hout, -⟩ |
    ⟨l, hr, hr', hloc, hout, -, -, -⟩ |
    ⟨j, ps, ps', st, st', l, l', hl, hl', hr, hr', ho, ho', -, -, rfl, rfl⟩
  · have hno := not_visitReport env (d := d) rfl hst hout
    have hno' := not_visitReport env (d := d) r.length_eq.symm hst hout
    simp only [hno, hno', or_false]
    rcases hcase with ⟨-, rfl⟩ | ⟨l, hl, -⟩
    · rcases hcase' with ⟨-, rfl⟩ | ⟨l, hl, -⟩
      · exact ⟨regional_mem_stepEof hd, regional_mem_stepEof hd⟩
      · exact absurd (hr'.symm.trans hl) (by simp)
    · exact absurd (hr.symm.trans hl) (by simp)
  · have hno := not_visitReport env (d := d) rfl hst hout
    have hno' := not_visitReport env (d := d) r.length_eq.symm hst hout
    simp only [hno, hno', or_false]
    rcases hcase with ⟨hx, -⟩ | ⟨l₁, hl₁, rfl⟩
    · exact absurd (hr.symm.trans hx) (by simp)
    · rcases hcase' with ⟨hx, -⟩ | ⟨l₂, hl₂, rfl⟩
      · exact absurd (hr'.symm.trans hx) (by simp)
      · exact ⟨regional_mem_stepLine hout h.macrosOutside hd,
          regional_mem_stepLine (by rw [hloc]; exact hout) hm' hd⟩
  · rw [visitReport_iff hrun hst hl, visitReport_iff hrun hst hl']
    rcases hcase with ⟨hx, -⟩ | ⟨l₁, hl₁, rfl⟩
    · exact absurd (hr.symm.trans hx) (by simp)
    · rcases hcase' with ⟨hx, -⟩ | ⟨l₂, hl₂, rfl⟩
      · exact absurd (hr'.symm.trans hx) (by simp)
      · obtain rfl := Option.some.inj (hr.symm.trans hl₁)
        obtain rfl := Option.some.inj (hr'.symm.trans hl₂)
        rw [← h.macros]
        exact ⟨by rw [h.macros]; exact mem_stepLine_region ho.isEmitting,
          mem_stepLine_region ho'.isEmitting⟩

/-- The regional reports of both runs, over `n` steps. -/
theorem regional_mem_run (r : Replacement input input') (h : Unselected env path predefined r)
    (n : ℕ) {d : Diag} (hd : regional r d = true) :
    (d ∈ (runState env n (initial path input predefined)).diags ↔
        RegionReport env path predefined r r.old n d) ∧
      (d ∈ (runState env n (initial path input' predefined)).diags ↔
        RegionReport env path predefined r r.new n d) := by
  have hsucc : ∀ ls n, RegionReport env path predefined r ls (n + 1) d ↔
      RegionReport env path predefined r ls n d ∨
        VisitReport env r ls (runState env n (initial path input predefined)) d := by
    intro ls n
    constructor
    · rintro ⟨k, hk, hv⟩
      rcases Nat.lt_or_ge k n with hlt | hge
      · exact .inl ⟨k, hlt, hv⟩
      · obtain rfl : k = n := by omega
        exact .inr hv
    · rintro (⟨k, hk, hv⟩ | hv)
      · exact ⟨k, by omega, hv⟩
      · exact ⟨n, by omega, hv⟩
  induction n with
  | zero =>
    refine ⟨⟨fun hx => absurd hx (by simp [runState, initial]), ?_⟩,
      ⟨fun hx => absurd hx (by simp [runState, initial]), ?_⟩⟩
    · rintro ⟨k, hk, -⟩
      omega
    · rintro ⟨k, hk, -⟩
      omega
  | succ n ih =>
    have htwin := twin_run r h n
    have hoff : OffAtRegion r (runState env n (initial path input predefined)) := h n
    rw [hsucc, hsucc, runState_succ, runState_succ]
    cases ht : step env (runState env n (initial path input predefined)) with
    | none =>
      -- a halted machine reads no line
      have hno : ∀ ls, ¬ VisitReport env r ls (runState env n (initial path input predefined)) d := by
        rintro ls ⟨f, fs, j, l, hrun, hst, -⟩
        rcases step_eq_none_iff.1 ht with hx | hx
        · exact hx hrun
        · rw [hst] at hx
          exact absurd hx (by simp)
      rw [(twin_halt htwin).1 ht]
      simpa only [Option.getD_none, hno, or_false] using ih
    | some t =>
      cases ht' : step env (runState env n (initial path input' predefined)) with
      | none => exact absurd ((twin_halt htwin).2 ht') (by simp [ht])
      | some t' =>
        obtain ⟨h1, h2⟩ := regional_mem_step htwin hoff ht ht' hd
        rw [Option.getD_some, Option.getD_some, h1, h2, ih.1, ih.2]
        exact ⟨Iff.rfl, Iff.rfl⟩

theorem regional_of_regionReport {r : Replacement input input'} {ls : List Line} {n : ℕ} {d : Diag}
    (hls : ls.length = r.old.length) (h : RegionReport env path predefined r ls n d) :
    regional r d = true := by
  obtain ⟨k, -, f, fs, j, l, -, -, -, -, hl, hd⟩ := h
  have hj : j < ls.length := by
    by_contra hge
    rw [List.getElem?_eq_none (by omega)] at hl
    exact absurd hl (by simp)
  exact openerReports_regional ⟨by omega, by omega⟩ d hd

/-! ## Inertness -/

/-- The two states show the same: output, macro table, set of reported
diagnostics, and whether the run has ended and succeeded. -/
structure Agree (s s' : State) : Prop where
  output : s'.output = s.output
  macros : s'.macros = s.macros
  diags : ∀ d, d ∈ s'.diags ↔ d ∈ s.diags
  finished : s'.finished = s.finished
  succeeded : s'.succeeded = s.succeeded

theorem hasError_congr {ds ds' : List Diag} (h : ∀ d, d ∈ ds' ↔ d ∈ ds) :
    hasError ds' = hasError ds := by
  rw [Bool.eq_iff_iff]
  simp only [hasError, List.any_eq_true]
  constructor
  · rintro ⟨d, hd, he⟩
    exact ⟨d, (h d).1 hd, he⟩
  · rintro ⟨d, hd, he⟩
    exact ⟨d, (h d).2 hd, he⟩

/-- Deciding `OffAtRegion` on a state. -/
def offAtRegion (r : Replacement input input') (s : State) : Bool :=
  match s.includeStack with
  | [] => true
  | f :: _ =>
    f.fid ≠ 1 || f.physicalLine ≠ r.pre.length + 1 ||
      decide (StaysOff 0 f.condStack (condMarks r.old))

/-- A region is unselected if it is so in the states before the halt. -/
theorem unselected_of_halted {n : ℕ}
    (hhalt : step env (runState env n (initial path input predefined)) = none)
    (h : ∀ k ≤ n, offAtRegion r (runState env k (initial path input predefined)) = true) :
    Unselected env path predefined r := by
  intro k f fs hst hfid hline
  obtain ⟨m, hm, hk⟩ := Run.runUpto_of_halted hhalt k
  have hoff := h m hm
  unfold runState at hst hoff
  rw [← hk] at hoff
  simp only [offAtRegion, hst] at hoff
  simpa [hfid, hline] using hoff

/-- Unselected text replaced by other text. -/
def textReplacement : Replacement
    ⟨"#ifdef A\nx\n#endif\n".toList, by decide⟩ ⟨"#ifdef A\n%M%\n#endif\n".toList, by decide⟩ where
  pre := [⟨"#ifdef A".toList, true⟩]
  old := [⟨"x".toList, true⟩]
  new := [⟨"%M%".toList, true⟩]
  post := [⟨"#endif".toList, true⟩]
  lines_eq := by decide
  lines_eq' := by decide
  newline_eq := by decide
  marks_eq := by decide
  open_eq := by decide

/-- A nested opener replaced by one without a name. -/
def openerReplacement : Replacement
    ⟨"#ifdef A\n#ifdef B\n#endif\n#endif\n".toList, by decide⟩
    ⟨"#ifdef A\n#ifdef\n#endif\n#endif\n".toList, by decide⟩ where
  pre := [⟨"#ifdef A".toList, true⟩]
  old := [⟨"#ifdef B".toList, true⟩, ⟨"#endif".toList, true⟩]
  new := [⟨"#ifdef".toList, true⟩, ⟨"#endif".toList, true⟩]
  post := [⟨"#endif".toList, true⟩]
  lines_eq := by decide
  lines_eq' := by decide
  newline_eq := by decide
  marks_eq := by decide
  open_eq := by decide

end Inert

end Preprocess

end Nslc
