import Nslc.Preprocess.Reports
/-!
# Preprocessor — conditionals of one file

A run over one file reads its lines in order, so after `k` steps the
machine stands at line `k` with the open conditionals of the lines
before it. Two invariants tie the conditional stack to the lines read:
its height is the depth of the marks read, an error having been
reported exactly where the depth scan stops (`NestAt`); and while no
`#else` is repeated, each frame's three flags say which enclosing
branches are selected (`FlagsAgree`).
-/

namespace Nslc

namespace Preprocess

open Nesting (Mark depthScan scan scanStep)

variable {env : Env} {path : Text} {input : SourceText} {s t : State} {k : ℕ} {l : Line}

/-! ## Standing at a line -/

/-- No `#include` of the file finds another file. -/
def OneFile (env : Env) (path : Text) (input : SourceText) : Prop :=
  ∀ l ∈ splitLines input.text, ∀ filename isAngle,
    lineDirective l = .incl filename isAngle → filename ≠ [] →
      env.resolve filename isAngle path = none

/-- The machine is about to read line `k` of its only file, in frame `f`. -/
structure StandsAt (path : Text) (input : SourceText) (k : ℕ) (f : Frame) (s : State) : Prop where
  stack : s.includeStack = [f]
  fid : f.fid = 1
  line : f.physicalLine = k + 1
  rest : splitLines (input.text.drop f.cursor) = (splitLines input.text).drop k
  buffer : ∃ ov, s.sm.buffers = [⟨path, input.text, ov⟩] ∧
    ∀ d ∈ ov, d.originOffset ≤ f.cursor
  running : s.aborted = none

theorem StandsAt.getBuffer {f : Frame} (h : StandsAt path input k f s) :
    s.sm.getBuffer f.fid = input.text := by
  obtain ⟨ov, hov, -⟩ := h.buffer
  simp [SourceManager.getBuffer, SourceManager.buffer?, h.fid, hov]

theorem StandsAt.getPath {f : Frame} (h : StandsAt path input k f s) :
    s.sm.getPath f.fid = path := by
  obtain ⟨ov, hov, -⟩ := h.buffer
  simp [SourceManager.getPath, SourceManager.buffer?, h.fid, hov]

theorem StandsAt.readLine {f : Frame} (h : StandsAt path input k f s) :
    readLine (s.sm.getBuffer f.fid) f.cursor = (splitLines input.text)[k]? := by
  rw [h.getBuffer, readLine_eq_head, h.rest, List.head?_drop]

theorem standsAt_initial (path : Text) (input : SourceText) (predefined : List (Text × Text)) :
    StandsAt path input 0 ⟨1, 0, 1, []⟩ (initial path input predefined) where
  stack := rfl
  fid := rfl
  line := rfl
  rest := rfl
  buffer := ⟨[], rfl, by simp⟩
  running := rfl

/-- The line map accepts an override behind the line being read. -/
theorem StandsAt.addLineDirective {f : Frame} (h : StandsAt path input k f s) {off : ℕ}
    (hoff : f.cursor < off) (n : ℕ) (p : Text) :
    ∃ ov, (∀ d ∈ ov, d.originOffset ≤ off) ∧
      s.sm.addLineDirective f.fid off n p =
        some { s.sm with buffers := [⟨path, input.text, ov⟩] } := by
  obtain ⟨ov, hov, hbound⟩ := h.buffer
  have hlt : ∀ d ∈ ov, d.originOffset < off := fun d hd => Nat.lt_of_le_of_lt (hbound d hd) hoff
  have hlast : (ov.getLast?.all fun d => decide (d.originOffset < off)) = true := by
    cases hl : ov.getLast? with
    | none => rfl
    | some d => simpa using hlt d (List.mem_of_getLast? hl)
  refine ⟨ov ++ [⟨off, n, p⟩], ?_, ?_⟩
  · intro d hd
    rcases List.mem_append.1 hd with hd | hd
    · exact Nat.le_of_lt (hlt d hd)
    · obtain rfl := List.mem_singleton.1 hd
      exact Nat.le_refl _
  · simp [SourceManager.addLineDirective, SourceManager.buffer?, h.fid, hov, hlast]

/-- **One line of one file.** The next step reads line `k` and leaves
the machine standing at line `k + 1`. -/
theorem StandsAt.step {f : Frame} (h : StandsAt path input k f s) (hone : OneFile env path input)
    (hl : (splitLines input.text)[k]? = some l) :
    step env s = some (stepLine env s f [] l) ∧
      StandsAt path input (k + 1) (f.next env s l) (stepLine env s f [] l) := by
  have hread : Preprocess.readLine (s.sm.getBuffer f.fid) f.cursor = some l := by
    rw [h.readLine, hl]
  have hread' : Preprocess.readLine input.text f.cursor = some l := by rwa [h.getBuffer] at hread
  obtain ⟨hpos, hle⟩ := bytes_length_pos hread'
  have hcur : (f.next env s l).cursor = f.cursor + l.bytes.length := rfl
  have hrest : splitLines (input.text.drop (f.next env s l).cursor) =
      (splitLines input.text).drop (k + 1) := by
    rw [hcur, splitLines_drop_bytes hread', h.rest, List.tail_drop]
  have hfid : (f.next env s l).fid = 1 := h.fid
  have hline : (f.next env s l).physicalLine = k + 1 + 1 := by
    simp [Frame.next, Frame.advance, h.line]
  have hmem : l ∈ splitLines input.text := List.mem_of_getElem? hl
  have hoff : f.cursor < (f.advance l).cursor := by
    simp only [Frame.advance]
    omega
  refine ⟨by simp [Preprocess.step, h.running, h.stack, hread], ?_⟩
  rcases stepLine_cases env s f [] l with ⟨hp, -⟩ | ⟨n, p, hp⟩ | ⟨q, sm, inner, hp⟩ | hp
  · obtain ⟨ov, hov, hbound⟩ := h.buffer
    refine ⟨hp.stack_eq, hfid, hline, hrest, ⟨ov, by rw [hp.sm_eq, hov], ?_⟩, ?_⟩
    · intro d hd
      have := hbound d hd
      omega
    · rw [hp.aborted_eq, h.running]
  · obtain ⟨ov, hbound, hadd⟩ := h.addLineDirective hoff (n % 2 ^ 32) (p.getD [])
    have hsm := Option.some.inj (hadd.symm.trans hp.sm_eq)
    refine ⟨hp.stack_eq, hfid, hline, hrest, ⟨ov, by rw [← hsm], hbound⟩, ?_⟩
    rw [hp.aborted_eq, h.running]
  · obtain ⟨fn, a, hd, hne, hres⟩ := hp.operand
    rw [h.getPath, hone l hmem fn a hd hne] at hres
    exact absurd hres (by simp)
  · rcases hp.cause with ⟨o, n, p, -, -, -, ⟨hbig, -⟩ | ⟨hadd, -⟩⟩ | ⟨fn, a, q, hd, hne, hres, -⟩
    · have := input.length_lt
      simp only [Frame.advance] at hbig
      omega
    · obtain ⟨ov, -, hadd'⟩ := h.addLineDirective hoff (n % 2 ^ 32) (p.getD [])
      exact absurd (hadd.symm.trans hadd') (by simp)
    · rw [h.getPath, hone l hmem fn a hd hne] at hres
      exact absurd hres (by simp)

/-! ## The run -/

/-- The state after `k` steps on the file. -/
def stateAt (env : Env) (path : Text) (input : SourceText) (predefined : List (Text × Text))
    (k : ℕ) : State :=
  runState env k (initial path input predefined)

/-- The state at the end: every line read, and the frame popped. -/
def endState (env : Env) (path : Text) (input : SourceText)
    (predefined : List (Text × Text)) : State :=
  stateAt env path input predefined ((splitLines input.text).length + 1)

variable {predefined : List (Text × Text)}

theorem stateAt_succ {f : Frame} (hone : OneFile env path input)
    (hf : StandsAt path input k f (stateAt env path input predefined k))
    (hl : (splitLines input.text)[k]? = some l) :
    stateAt env path input predefined (k + 1) =
        stepLine env (stateAt env path input predefined k) f [] l ∧
      StandsAt path input (k + 1) (f.next env (stateAt env path input predefined k) l)
        (stateAt env path input predefined (k + 1)) := by
  obtain ⟨hstep, hnext⟩ := hf.step hone hl
  have heq : stateAt env path input predefined (k + 1) =
      stepLine env (stateAt env path input predefined k) f [] l := by
    unfold stateAt at hstep ⊢
    rw [runState_succ, hstep]
    rfl
  exact ⟨heq, heq ▸ hnext⟩

/-- **A rule for the lines of one file.** What holds at the start and is
carried over each line holds wherever the run stands. -/
theorem stateAt_inv (predefined : List (Text × Text)) (hone : OneFile env path input) {P : ℕ → Frame → State → Prop}
    (h0 : P 0 ⟨1, 0, 1, []⟩ (initial path input predefined))
    (hstep : ∀ k f s l, StandsAt path input k f s → (splitLines input.text)[k]? = some l →
      s = stateAt env path input predefined k → P k f s →
      P (k + 1) (f.next env s l) (stepLine env s f [] l)) :
    ∀ k ≤ (splitLines input.text).length,
      ∃ f, StandsAt path input k f (stateAt env path input predefined k) ∧
        P k f (stateAt env path input predefined k) := by
  intro k
  induction k with
  | zero => exact fun _ => ⟨_, standsAt_initial path input predefined, h0⟩
  | succ k ih =>
    intro hk
    obtain ⟨f, hf, hP⟩ := ih (by omega)
    obtain ⟨l, hl⟩ : ∃ l, (splitLines input.text)[k]? = some l :=
      ⟨_, List.getElem?_eq_getElem (by omega)⟩
    obtain ⟨heq, hf'⟩ := stateAt_succ hone hf hl
    refine ⟨_, hf', ?_⟩
    rw [heq]
    exact hstep k f _ l hf hl rfl hP

/-- Behind the last line the frame ends. -/
theorem endState_eq {f : Frame}
    (hf : StandsAt path input (splitLines input.text).length f
      (stateAt env path input predefined (splitLines input.text).length)) :
    endState env path input predefined =
      stepEof (stateAt env path input predefined (splitLines input.text).length) f [] := by
  have hread := hf.readLine
  rw [List.getElem?_eq_none (Nat.le_refl _)] at hread
  have hstep : step env (stateAt env path input predefined (splitLines input.text).length) =
      some (stepEof (stateAt env path input predefined (splitLines input.text).length) f []) := by
    simp [step, hf.running, hf.stack, hread]
  unfold endState stateAt at *
  rw [runState_succ, hstep]
  rfl

/-! ## Depth -/

/-- A conditional line moves the depth as its mark says, and reports an
error exactly where the depth scan stops. -/
theorem condStep_depth (E : PPExpression) (macros : MacroTable) (loc : SourceLocation)
    (d : ParsedDirective) (st : List CondFrame) :
    (structural (condStep E macros loc d st).2 = [] ∧
        depthScan st.length d.mark?.toList = some (condStep E macros loc d st).1.length) ∨
      (structural (condStep E macros loc d st).2 ≠ [] ∧
        depthScan st.length d.mark?.toList = none) := by
  have hifdef : ∀ name negate, structural (handleIfdef macros name negate loc st).2 = [] ∧
      some (st.length + 1) = some (handleIfdef macros name negate loc st).1.length := by
    intro name negate
    unfold handleIfdef
    split <;> simp [structural, Message.isStructural, pushCondFrame]
  cases d with
  | ifdef name => exact .inl (hifdef name false)
  | ifndef name => exact .inl (hifdef name true)
  | ifExpr e => exact .inl ⟨structural_findings _ _, by simp [condStep, handleIf, pushCondFrame,
      ParsedDirective.mark?, depthScan]⟩
  | els =>
    cases st with
    | nil => exact .inr ⟨by simp [condStep, handleElse, structural, Message.isStructural], rfl⟩
    | cons cf rest =>
      refine .inl ?_
      simp only [condStep, handleElse]
      split
      · exact ⟨rfl, rfl⟩
      · split <;> exact ⟨rfl, rfl⟩
  | endif =>
    cases st with
    | nil => exact .inr ⟨by simp [condStep, handleEndif, structural, Message.isStructural], rfl⟩
    | cons cf rest => exact .inl ⟨rfl, by simp [condStep, handleEndif, ParsedDirective.mark?,
        depthScan]⟩
  | _ => exact .inl ⟨rfl, rfl⟩

/-- The conditional stack is as high as the marks read are deep, and an
error is reported exactly if their depth scan stopped. -/
def NestAt (ls : List Line) (k : ℕ) (f : Frame) (s : State) : Prop :=
  (structural s.diags = [] ∧
      depthScan 0 (condMarks (ls.take k)) = some f.condStack.length) ∨
    (structural s.diags ≠ [] ∧ depthScan 0 (condMarks (ls.take k)) = none)

theorem condMarks_take_succ {ls : List Line} (hl : ls[k]? = some l) :
    condMarks (ls.take (k + 1)) = condMarks (ls.take k) ++ (lineDirective l).mark?.toList := by
  rw [List.take_add_one, hl]
  simp only [condMarks, Option.toList_some, List.filterMap_append, List.append_cancel_left_eq]
  cases h : (lineDirective l).mark? with
  | none => simp [h]
  | some m => simp [h]

theorem nestAt_step {f : Frame} {ls : List Line} (hl : ls[k]? = some l) (h : NestAt ls k f s) :
    NestAt ls (k + 1) (f.next env s l) (stepLine env s f [] l) := by
  unfold NestAt
  rw [stepLine_structural, condMarks_take_succ hl, Nesting.depthScan_append]
  rcases h with ⟨hs, hd⟩ | ⟨hs, hd⟩
  · rw [hs, hd]
    simpa [Frame.next] using condStep_depth env.expr s.macros f.loc (lineDirective l) f.condStack
  · rw [hd]
    exact .inr ⟨by simp [hs], rfl⟩

/-- **Nesting errors are unbalanced marks.** The run over one file ends,
and reports no nesting error exactly if its marks are balanced. -/
theorem structural_endState_eq_nil_iff (predefined : List (Text × Text))
    (hone : OneFile env path input) :
    (endState env path input predefined).finished = true ∧
      (structural (endState env path input predefined).diags = [] ↔
        Nesting.Balanced (condMarks (splitLines input.text))) := by
  obtain ⟨f, hf, hnest⟩ := stateAt_inv predefined hone
    (P := NestAt (splitLines input.text)) (.inl ⟨rfl, rfl⟩)
    (fun k f s l _ hl _ h => nestAt_step hl h) _ (Nat.le_refl _)
  rw [endState_eq hf]
  refine ⟨by simp [stepEof, State.finished, State.addDiags, hf.running], ?_⟩
  unfold NestAt at hnest
  rw [List.take_length] at hnest
  have hopen : structural (f.condStack.reverse.map fun cf =>
      (⟨.error, some cf.openerLoc, .unterminatedIf, none⟩ : Diag)) = [] ↔ f.condStack = [] := by
    constructor
    · intro h
      by_contra hne
      obtain ⟨cf, hcf⟩ := List.exists_mem_of_ne_nil _ hne
      have hmem : (⟨.error, some cf.openerLoc, .unterminatedIf, none⟩ : Diag) ∈
          structural (f.condStack.reverse.map fun cf =>
            (⟨.error, some cf.openerLoc, .unterminatedIf, none⟩ : Diag)) := by
        simp only [structural, List.mem_filter, List.mem_map, List.mem_reverse]
        exact ⟨⟨cf, hcf, rfl⟩, rfl⟩
      rw [h] at hmem
      exact absurd hmem (by simp)
    · intro h
      simp [h]
  simp only [stepEof, State.addDiags, structural_append, List.append_eq_nil_iff, hopen]
  unfold Nesting.Balanced
  rcases hnest with ⟨hs, hd⟩ | ⟨hs, hd⟩
  · rw [hd]
    simp [hs]
  · rw [hd]
    simp [hs]

/-! ## Selection

The reference: the branches a line stands in are found from the marks of
the lines before it, and a branch is selected by the value its opener's
condition has under the macro table in force there. -/

/-- A branch a line stands in: the number of the opener's line, and
whether the `#else` part was entered. -/
structure Branch where
  opener : ℕ
  inElse : Bool
  deriving DecidableEq, Repr

/-- The branches around the line behind line `i`. -/
def branchStep (i : ℕ) (d : ParsedDirective) (bs : List Branch) : List Branch :=
  match d.mark?, bs with
  | none, bs => bs
  | some .opener, bs => ⟨i, false⟩ :: bs
  | some .els, b :: bs => ⟨b.opener, true⟩ :: bs
  | some .endif, _ :: bs => bs
  | some _, [] => []

/-- The branches around line `k`, innermost first. -/
def enclosing (ls : List Line) : ℕ → List Branch
  | 0 => []
  | k + 1 =>
    match ls[k]? with
    | none => enclosing ls k
    | some l => branchStep k (lineDirective l) (enclosing ls k)

/-- The value of an opener's condition. -/
def openerTaken (E : PPExpression) (macros : MacroTable) : ParsedDirective → Bool
  | .ifdef name => name ≠ [] && macros.defined name
  | .ifndef name => name ≠ [] && !macros.defined name
  | .ifExpr e => E.isTruthy (E.parse macros e).1
  | _ => false

/-- A branch is selected by the value `taken` its opener's condition has. -/
def Branch.selected (taken : ℕ → Bool) (b : Branch) : Bool :=
  if b.inElse then !taken b.opener else taken b.opener

/-- The value each opener's condition has where the run reads it. -/
def takenAt (env : Env) (path : Text) (input : SourceText) (predefined : List (Text × Text))
    (i : ℕ) : Bool :=
  match (splitLines input.text)[i]? with
  | none => false
  | some l =>
    openerTaken env.expr (stateAt env path input predefined i).macros (lineDirective l)

/-- All branches around line `k` are selected. -/
def lineSelected (env : Env) (path : Text) (input : SourceText)
    (predefined : List (Text × Text)) (k : ℕ) : Bool :=
  (enclosing (splitLines input.text) k).all
    (Branch.selected (takenAt env path input predefined))

/-- The flags of the open conditionals, read off the branches: a frame
emits if its branch and all outer ones are selected, is suppressed by
its parent if an outer one is not, and has taken a branch if its `#if`
part was selected or its `#else` part entered. -/
inductive FlagsAgree (taken : ℕ → Bool) : List CondFrame → List Branch → Prop
  | nil : FlagsAgree taken [] []
  | cons {cf : CondFrame} {b : Branch} {st : List CondFrame} {bs : List Branch} :
      cf.currentlyEmitting = (b :: bs).all (Branch.selected taken) →
      cf.parentSuppressed = !bs.all (Branch.selected taken) →
      cf.anyBranchTaken = (bs.all (Branch.selected taken) && (b.inElse || taken b.opener)) →
      FlagsAgree taken st bs → FlagsAgree taken (cf :: st) (b :: bs)

theorem FlagsAgree.isEmitting {taken : ℕ → Bool} {st : List CondFrame} {bs : List Branch}
    (h : FlagsAgree taken st bs) : isEmitting st = bs.all (Branch.selected taken) := by
  cases h with
  | nil => rfl
  | cons he _ _ _ => exact he

theorem flagsAgree_push {taken : ℕ → Bool} {st : List CondFrame} {bs : List Branch}
    (h : FlagsAgree taken st bs) {b : Bool} (i : ℕ) (hb : taken i = b) (loc : SourceLocation) :
    FlagsAgree taken (pushCondFrame st b loc) (⟨i, false⟩ :: bs) := by
  unfold pushCondFrame
  rw [h.isEmitting]
  refine .cons ?_ ?_ ?_ h
  · cases hall : bs.all (Branch.selected taken) <;> simp [hall, Branch.selected, hb]
  · rfl
  · cases hall : bs.all (Branch.selected taken) <;> simp [hb]

/-- A conditional line keeps the flags right, an `#else` only where its
opener has none yet. -/
theorem flagsAgree_condStep {taken : ℕ → Bool} {st : List CondFrame} {bs : List Branch}
    {E : PPExpression} {macros : MacroTable} {loc : SourceLocation} {d : ParsedDirective} {i : ℕ}
    (h : FlagsAgree taken st bs) (ht : d.mark? = some .opener → taken i = openerTaken E macros d)
    (helse : d.mark? = some .els → ∃ b rest, bs = b :: rest ∧ b.inElse = false) :
    FlagsAgree taken (condStep E macros loc d st).1 (branchStep i d bs) := by
  have hifdef : ∀ name negate, taken i = (name ≠ [] && if negate then !macros.defined name
      else macros.defined name) →
      FlagsAgree taken (handleIfdef macros name negate loc st).1 (⟨i, false⟩ :: bs) := by
    intro name negate hti
    unfold handleIfdef
    split
    · rename_i hn
      exact flagsAgree_push h i (by simp [hti, hn]) loc
    · rename_i hn
      exact flagsAgree_push h i (by simp [hti, hn]) loc
  cases d with
  | ifdef name => exact hifdef name false (by simpa [openerTaken] using ht rfl)
  | ifndef name => exact hifdef name true (by simpa [openerTaken] using ht rfl)
  | ifExpr e => exact flagsAgree_push h i (ht rfl) loc
  | els =>
    obtain ⟨b, rest, rfl, hb⟩ := helse rfl
    cases h with
    | @cons cf _ st' _ he hp ha hrest =>
      simp only [condStep, handleElse, branchStep, ParsedDirective.mark?]
      by_cases hall : rest.all (Branch.selected taken) = true
      · rw [hall] at hp ha
        by_cases htk : taken b.opener = true
        · rw [if_neg (by simp [hp]), if_pos (by simp [ha, htk])]
          exact .cons (by simp [Branch.selected, htk]) (by simp [hp, hall])
            (by simp [ha, hall, htk]) hrest
        · rw [if_neg (by simp [hp]), if_neg (by simp [ha, htk, hb])]
          exact .cons (by simp [Branch.selected, htk, hall]) (by simp [hp, hall])
            (by simp [hall]) hrest
      · have hall' : rest.all (Branch.selected taken) = false := by simpa using hall
        rw [hall'] at hp ha
        rw [if_pos (by simp [hp])]
        exact .cons (by simp [hall']) (by simp [hp, hall']) (by simp [ha, hall']) hrest
  | endif =>
    cases h with
    | nil => exact .nil
    | cons _ _ _ hrest => exact hrest
  | _ => exact h

/-- Scanning one more line is one step of the branches around it. -/
theorem scanStep_branchStep {d : ParsedDirective} {bs : List Branch} {st : List Bool} (i : ℕ)
    (h : scan (bs.map Branch.inElse) d.mark?.toList = some st) :
    (branchStep i d bs).map Branch.inElse = st := by
  unfold branchStep
  cases hm : d.mark? with
  | none => simpa [hm, scan] using h
  | some m =>
    cases m with
    | opener => simpa [hm, scan, scanStep] using h
    | els =>
      cases bs with
      | nil => simp [hm, scan, scanStep] at h
      | cons b bs =>
        cases hb : b.inElse with
        | true => simp [hm, scan, scanStep, hb] at h
        | false => simpa [hm, scan, scanStep, hb] using h
    | endif =>
      cases bs with
      | nil => simp [hm, scan, scanStep] at h
      | cons b bs => simpa [hm, scan, scanStep] using h

/-- While the marks read scan, the branches are the scan's stack. -/
theorem scan_enclosing (ls : List Line) {st : List Bool} (k : ℕ) (hk : k ≤ ls.length)
    (h : scan [] (condMarks (ls.take k)) = some st) :
    (enclosing ls k).map Branch.inElse = st := by
  induction k generalizing st with
  | zero => simpa [enclosing, condMarks, scan] using h
  | succ k ih =>
    have hl : ls[k]? = some ls[k] := List.getElem?_eq_getElem (by omega)
    rw [condMarks_take_succ hl, Nesting.scan_append] at h
    obtain ⟨st', hst', hlast⟩ := Option.bind_eq_some_iff.1 h
    rw [← ih (by omega) hst'] at hlast
    simp only [enclosing, hl]
    exact scanStep_branchStep k hlast

/-- In a grammatical file the marks read so far scan. -/
theorem scan_take_of_region {ls : List Line} (h : Nesting.Region (condMarks ls)) (k : ℕ) :
    ∃ st, scan [] (condMarks (ls.take k)) = some st := by
  rw [Nesting.region_iff_scan] at h
  have happ : condMarks ls = condMarks (ls.take k) ++ condMarks (ls.drop k) := by
    rw [condMarks, condMarks, condMarks, ← List.filterMap_append, List.take_append_drop]
  rw [happ, Nesting.scan_append] at h
  obtain ⟨st, hst, -⟩ := Option.bind_eq_some_iff.1 h
  exact ⟨st, hst⟩

/-- **The flags say what is selected.** In a grammatical file, wherever
the run stands, the frame emits exactly if every branch around the line
is selected. -/
theorem isEmitting_eq_lineSelected (predefined : List (Text × Text))
    (hone : OneFile env path input)
    (hr : Nesting.Region (condMarks (splitLines input.text))) :
    ∀ k ≤ (splitLines input.text).length,
      ∃ f, StandsAt path input k f (stateAt env path input predefined k) ∧
        isEmitting f.condStack = lineSelected env path input predefined k := by
  have hflags := stateAt_inv predefined hone
    (P := fun k f _ => FlagsAgree (takenAt env path input predefined) f.condStack
      (enclosing (splitLines input.text) k)) .nil (by
    intro k f s l hf hl hs h
    simp only [enclosing, hl]
    refine flagsAgree_condStep h ?_ ?_
    · intro _
      simp only [takenAt, hl, hs]
    · intro hm
      have hk : k < (splitLines input.text).length := by
        by_contra hge
        rw [List.getElem?_eq_none (by omega)] at hl
        exact absurd hl (by simp)
      -- the marks through this `#else` scan, so its opener has none yet
      obtain ⟨st, hst⟩ := scan_take_of_region hr (k + 1)
      rw [condMarks_take_succ hl, Nesting.scan_append] at hst
      obtain ⟨st', hst', hlast⟩ := Option.bind_eq_some_iff.1 hst
      rw [← scan_enclosing _ k (by omega) hst', hm] at hlast
      cases hb : enclosing (splitLines input.text) k with
      | nil => simp [hb, scan, scanStep] at hlast
      | cons b rest =>
        refine ⟨b, rest, rfl, ?_⟩
        cases hbe : b.inElse with
        | false => rfl
        | true => simp [hb, hbe, scan, scanStep] at hlast)
  intro k hk
  obtain ⟨f, hf, hP⟩ := hflags k hk
  exact ⟨f, hf, hP.isEmitting⟩

/-! ## Acceptance -/

/-- What the conditional structure of one file is held to: no nesting
error exactly for grammatical files, and in a grammatical file a
passthrough line adds its spliced text to the output exactly if all
branches around it are selected. -/
def ConditionalsExact (env : Env) (path : Text) (input : SourceText)
    (predefined : List (Text × Text)) : Prop :=
  (structural (endState env path input predefined).diags = [] ↔
      Nesting.Region (condMarks (splitLines input.text))) ∧
    (Nesting.Region (condMarks (splitLines input.text)) →
      ∀ k l, (splitLines input.text)[k]? = some l → lineDirective l = .passthrough →
        (stateAt env path input predefined (k + 1)).output =
          (stateAt env path input predefined k).output ++
            (if lineSelected env path input predefined k then
              (splice env.expr (stateAt env path input predefined k).macros (stripCR l.body)
                ⟨1, k + 1, 0⟩).1 ++ l.term
            else l.term))

/-- **Exactly when the conditionals of a file are handled to the
letter.** The run ends; and nesting errors and selection are right
unless the marks are balanced with a second `#else` under one opener,
which is accepted in silence. -/
theorem conditionalsExact_iff (predefined : List (Text × Text))
    (hone : OneFile env path input) :
    (endState env path input predefined).finished = true ∧
      (ConditionalsExact env path input predefined ↔
        ¬ (Nesting.Balanced (condMarks (splitLines input.text)) ∧
          Nesting.repeatedElse [] (condMarks (splitLines input.text)) = true)) := by
  obtain ⟨hfin, hnest⟩ := structural_endState_eq_nil_iff predefined hone
  refine ⟨hfin, ?_⟩
  unfold ConditionalsExact
  rw [hnest]
  constructor
  · rintro ⟨hiff, -⟩ ⟨hbal, hrep⟩
    have := ((Nesting.region_iff_balanced _).1 (hiff.1 hbal)).2
    rw [hrep] at this
    exact absurd this (by simp)
  · intro h
    refine ⟨⟨fun hbal => ?_, fun hr => ((Nesting.region_iff_balanced _).1 hr).1⟩, ?_⟩
    · refine (Nesting.region_iff_balanced _).2 ⟨hbal, ?_⟩
      by_contra hrep
      exact h ⟨hbal, by simpa using hrep⟩
    · intro hr k l hl hd
      have hk : k < (splitLines input.text).length := by
        by_contra hge
        rw [List.getElem?_eq_none (by omega)] at hl
        exact absurd hl (by simp)
      obtain ⟨f, hf, hem⟩ := isEmitting_eq_lineSelected predefined hone hr k
        (by omega)
      have hloc : f.loc = ⟨1, k + 1, 0⟩ := by simp [Frame.loc, hf.fid, hf.line]
      have hplain := plainLine_stepLine_of_not_moves env (stateAt env path input predefined k) []
        (show movesLocation f l = false by simp [movesLocation, hd])
      rw [(stateAt_succ hone hf hl).1, hplain.output_eq, lineOut]
      simp only [hd, hem, hloc]

theorem oneFile_bareEnv (path : Text) (input : SourceText) : OneFile bareEnv path input := by
  intro l _ filename isAngle _ _
  cases isAngle <;> simp [Env.resolve, Env.findAngle, Env.findQuote, Env.fileExists, bareEnv]

/-- One conditional, both parts. -/
def ifElseFile : SourceText := ⟨"#ifdef A\nx\n#else\ny\n#endif\n".toList, by decide⟩

theorem conditionalsExact_ifElseFile :
    (endState bareEnv "f.nsl".toList ifElseFile []).finished = true ∧
      ConditionalsExact bareEnv "f.nsl".toList ifElseFile [] := by
  have h := conditionalsExact_iff [] (oneFile_bareEnv "f.nsl".toList ifElseFile)
  exact ⟨h.1, h.2.2 (by decide)⟩

/-- The same with a second `#else`. -/
def twiceElseFile : SourceText := ⟨"#ifdef A\n#else\n#else\n#endif\n".toList, by decide⟩

/-- A second `#else` is not grammatical, yet no error is reported. -/
theorem not_conditionalsExact_twiceElseFile :
    ¬ ConditionalsExact bareEnv "f.nsl".toList twiceElseFile [] := by
  rintro ⟨hiff, -⟩
  have hquiet : structural (endState bareEnv "f.nsl".toList twiceElseFile []).diags = [] := by
    decide
  have hrep := ((Nesting.region_iff_balanced _).1 (hiff.1 hquiet)).2
  exact absurd hrep (by decide)

end Preprocess

end Nslc
