import Nslc.Preprocess.Step
/-!
# Preprocessor — what a line reports

A line reports through its conditional (`condStep`), or else only what
`Reported` allows: no nesting error, and a location on the line itself
or on the definition of a macro spliced into it. So the nesting errors
of a run can be read off its conditional lines, and a report can be
traced to the line it is about.
-/

namespace Nslc

namespace Preprocess

/-- The location is on the line of `loc`. -/
def OnLine (loc l : SourceLocation) : Prop := l.file = loc.file ∧ l.line = loc.line

/-- A report a line at `loc` can make besides those of its conditional. -/
structure Reported (loc : SourceLocation) (macros : MacroTable) (d : Diag) : Prop where
  notStructural : d.message.isStructural = false
  located : ∀ l, d.loc = some l →
    OnLine loc l ∨ ∃ m ∈ macros, ∃ dl, m.definingLoc = some dl ∧ OnLine dl l

/-- All of `ds` can be reported by a line at `loc`. -/
def AllReported (loc : SourceLocation) (macros : MacroTable) (ds : List Diag) : Prop :=
  ∀ d ∈ ds, Reported loc macros d

variable {loc : SourceLocation} {macros : MacroTable}

theorem allReported_nil : AllReported loc macros [] := fun _ h => absurd h (by simp)

theorem allReported_append {ds es : List Diag} (hd : AllReported loc macros ds)
    (he : AllReported loc macros es) : AllReported loc macros (ds ++ es) := by
  intro d h
  rcases List.mem_append.1 h with h | h
  · exact hd d h
  · exact he d h

theorem allReported_single {d : Diag} (h : Reported loc macros d) : AllReported loc macros [d] := by
  intro e he
  rw [List.mem_singleton.1 he]
  exact h

/-- A report at a distance from the line's first byte. -/
theorem reported_at {sev : Severity} {delta : ℕ} {m : Message} {prev : Option SourceLocation}
    (h : m.isStructural = false) : Reported loc macros ⟨sev, locAt (some loc) delta, m, prev⟩ where
  notStructural := h
  located := by
    intro l hl
    simp only [locAt, Option.map_some, Option.some.injEq] at hl
    exact .inl ⟨by rw [← hl], by rw [← hl]⟩

theorem reported_here {sev : Severity} {m : Message} {prev : Option SourceLocation}
    (h : m.isStructural = false) : Reported loc macros ⟨sev, some loc, m, prev⟩ where
  notStructural := h
  located := by
    intro l hl
    obtain rfl := Option.some.inj hl
    exact .inl ⟨rfl, rfl⟩

/-! ## Text -/

theorem lookup_mem {name : Text} {d : MacroDef} (h : macros.lookup name = some d) : d ∈ macros :=
  List.mem_of_find?_eq_some h

/-- A redefinition leaves the macros of other names. -/
theorem mem_redefine {name body : Text} {loc : Option SourceLocation}
    {m : MacroDef} (h : m ∈ macros.redefine name body loc) :
    m = ⟨name, body, loc⟩ ∨ m ∈ macros ∧ m.name ≠ name := by
  unfold MacroTable.redefine at h
  split_ifs at h with hdef
  · obtain ⟨d, hd, hm⟩ := List.mem_map.1 h
    split_ifs at hm with hname
    · exact .inl hm.symm
    · subst hm
      exact .inr ⟨hd, hname⟩
  · rcases List.mem_append.1 h with hold | hnew
    · refine .inr ⟨hold, fun hname => hdef ?_⟩
      rw [MacroTable.defined, MacroTable.lookup, List.find?_isSome]
      exact ⟨m, hold, by simpa using hname⟩
    · exact .inl (List.mem_singleton.1 hnew)

/-- A `-D` macro has no location. -/
theorem definingLoc_initial {path : Text} {input : SourceText} {predefined : List (Text × Text)} :
    ∀ m ∈ (initial path input predefined).macros, m.definingLoc = none := by
  have hpre : ∀ (ds : List (Text × Text)) (m : MacroTable), (∀ d ∈ m, d.definingLoc = none) →
      ∀ d ∈ ds.foldl (fun m d => m.predefine d.1 d.2) m, d.definingLoc = none := by
    intro ds
    induction ds with
    | nil => exact fun m hm => hm
    | cons p ds ih =>
      intro m hm
      refine ih _ ?_
      intro d hd
      simp only [MacroTable.predefine] at hd
      split_ifs at hd
      · exact hm d hd
      · rcases List.mem_append.1 hd with hd | hd
        · exact hm d hd
        · rw [List.mem_singleton.1 hd]
  exact hpre predefined [] (by simp)

theorem allReported_findings {d : MacroDef} (hd : d ∈ macros) (fs : List Finding) :
    AllReported loc macros (fs.map (Finding.diag d.definingLoc)) := by
  intro e he
  obtain ⟨f, -, rfl⟩ := List.mem_map.1 he
  refine ⟨rfl, ?_⟩
  intro l hl
  simp only [Finding.diag, locAt, Option.map_eq_some_iff] at hl
  obtain ⟨dl, hdl, rfl⟩ := hl
  exact .inr ⟨d, hd, dl, hdl, rfl, rfl⟩

theorem spliceRef_reported (E : PPExpression) (pos : ℕ) (name : Text) :
    AllReported loc macros (spliceRef E macros loc pos name).2 := by
  unfold spliceRef
  split
  · rename_i d hd
    have hmem := lookup_mem hd
    unfold spliceBody
    split
    · split
      · exact allReported_findings hmem _
      · exact allReported_findings hmem _
    · exact allReported_nil
  · exact allReported_single (reported_at rfl)

theorem spliceUpto_reported (E : PPExpression) :
    ∀ (fuel pos : ℕ) (t : Text), AllReported loc macros (spliceUpto E macros loc fuel pos t).2 := by
  intro fuel
  induction fuel with
  | zero => exact fun _ _ => allReported_nil
  | succ fuel ih =>
    intro pos t
    cases t with
    | nil => exact allReported_nil
    | cons c cs =>
      simp only [spliceUpto]
      split_ifs
      · exact allReported_append allReported_nil (ih _ _)
      · exact allReported_nil
      · exact allReported_append allReported_nil (ih _ _)
      · exact allReported_nil
      · exact allReported_append (spliceRef_reported E _ _) (ih _ _)
      · exact allReported_append allReported_nil (ih _ _)
      · exact allReported_append allReported_nil (ih _ _)

theorem scanForHelper_reported :
    ∀ (fuel pos : ℕ) (prev : Option Char) (t : Text),
      AllReported loc macros (scanForHelperUpto loc fuel pos prev t) := by
  intro fuel
  induction fuel with
  | zero => exact fun _ _ _ => allReported_nil
  | succ fuel ih =>
    intro pos prev t
    cases t with
    | nil => exact allReported_nil
    | cons c cs =>
      simp only [scanForHelperUpto]
      split_ifs
      · exact ih _ _ _
      · exact allReported_nil
      · exact ih _ _ _
      · exact allReported_append (allReported_single (reported_at rfl)) (ih _ _ _)
      · exact allReported_append allReported_nil (ih _ _ _)
      · exact ih _ _ _

theorem scanForFloat_reported :
    ∀ (fuel pos : ℕ) (prev : Option Char) (t : Text),
      AllReported loc macros (scanForFloatUpto loc fuel pos prev t) := by
  intro fuel
  induction fuel with
  | zero => exact fun _ _ _ => allReported_nil
  | succ fuel ih =>
    intro pos prev t
    cases t with
    | nil => exact allReported_nil
    | cons c cs =>
      simp only [scanForFloatUpto]
      split_ifs
      · exact ih _ _ _
      · exact allReported_nil
      · exact ih _ _ _
      · exact allReported_append (allReported_single (reported_at rfl)) (ih _ _ _)
      · exact allReported_append allReported_nil (ih _ _ _)
      · exact ih _ _ _

/-! ## Directives -/

/-- `t` has the reports of `s` and more that a line at `loc` can make. -/
def Reports (loc : SourceLocation) (s t : State) : Prop :=
  ∃ ds, t.diags = s.diags ++ ds ∧ AllReported loc s.macros ds

variable {s t : State}

theorem reports_of_eq (h : t.diags = s.diags) : Reports loc s t :=
  ⟨[], by simpa using h, allReported_nil⟩

theorem reports_report {m : Message} (h : m.isStructural = false) :
    Reports loc s (s.report loc m) :=
  ⟨_, rfl, allReported_single (reported_here h)⟩

theorem passLine_reports (E : PPExpression) (text term : Text) :
    Reports loc s (passLine E s text loc term) :=
  ⟨_, rfl, allReported_append (allReported_append (spliceUpto_reported E _ _ _)
    (scanForHelper_reported _ _ _ _)) (scanForFloat_reported _ _ _ _)⟩

theorem handleDefine_reports (name body : Text) :
    Reports loc s (handleDefine s name body loc) := by
  unfold handleDefine
  split
  · exact reports_report rfl
  · split
    · exact reports_of_eq rfl
    · exact ⟨_, rfl, allReported_single (reported_here rfl)⟩

theorem handleUndef_reports (name : Text) : Reports loc s (handleUndef s name loc) := by
  unfold handleUndef
  split
  · exact reports_report rfl
  · exact reports_of_eq rfl

theorem handleLine_reports (E : PPExpression) (fid : FileID) (operand : Text) (lineEnd : ℕ) :
    Reports loc s (handleLine E s fid operand loc lineEnd) := by
  have hsplice : AllReported loc s.macros (splice E s.macros operand loc).2 :=
    spliceUpto_reported E _ _ _
  have hreport : ∀ m : Message, m.isStructural = false →
      Reports loc s ((s.addDiags (splice E s.macros operand loc).2).report loc m) := by
    intro m hm
    exact ⟨(splice E s.macros operand loc).2 ++ [⟨.error, some loc, m, none⟩], by
      simp [State.report, State.addDiags],
      allReported_append hsplice (allReported_single (reported_here hm))⟩
  simp only [handleLine]
  split
  · exact hreport _ rfl
  · exact hreport _ rfl
  · rename_i lineNo path trailing _
    have htrail : Reports loc s (if trailing then
        (s.addDiags (splice E s.macros operand loc).2).report loc .lineTrailing
        else s.addDiags (splice E s.macros operand loc).2) := by
      split
      · exact hreport _ rfl
      · exact ⟨_, rfl, hsplice⟩
    split
    · exact htrail
    · split
      · exact htrail
      · exact htrail

theorem handleInclude_reports (env : Env) (fid : FileID) (filename : Text) (isAngle : Bool) :
    Reports loc s (handleInclude env s fid filename isAngle loc) := by
  unfold handleInclude
  split
  · exact reports_report rfl
  · split
    · exact reports_report rfl
    · split
      · exact reports_report rfl
      · unfold openInclude
        split
        · exact reports_report rfl
        · exact reports_of_eq rfl
        · exact reports_of_eq rfl

/-- **What a line reports.** Its conditional's reports, behind ones a
line there can make. -/
theorem stepLine_diags (env : Env) (s : State) (f : Frame) (fs : List Frame) (l : Line) :
    ∃ ds, AllReported f.loc s.macros ds ∧ (stepLine env s f fs l).diags = s.diags ++ ds ++
      (condStep env.expr s.macros f.loc (lineDirective l) f.condStack).2 := by
  -- the conditional of a line that is none reports nothing
  have hother : ∀ t : State,
      (condStep env.expr s.macros f.loc (lineDirective l) f.condStack).2 = [] →
      Reports f.loc { s with includeStack := f.next env s l :: fs } t →
      ∃ ds, AllReported f.loc s.macros ds ∧ t.diags = s.diags ++ ds ++
        (condStep env.expr s.macros f.loc (lineDirective l) f.condStack).2 := by
    rintro t hc ⟨ds, hds, hall⟩
    exact ⟨ds, hall, by rw [hds, hc, List.append_nil]⟩
  have hcond : ∀ t : State,
      t.diags = s.diags ++ (condStep env.expr s.macros f.loc (lineDirective l) f.condStack).2 →
      ∃ ds, AllReported f.loc s.macros ds ∧ t.diags = s.diags ++ ds ++
        (condStep env.expr s.macros f.loc (lineDirective l) f.condStack).2 := by
    intro t ht
    exact ⟨[], allReported_nil, by rw [ht, List.append_nil]⟩
  unfold stepLine dispatch
  cases hd : lineDirective l with
  | passthrough =>
    rw [hd] at hother
    refine hother _ rfl ?_
    simp only
    split
    · exact passLine_reports _ _ _
    · exact reports_of_eq rfl
  | define name body =>
    rw [hd] at hother
    refine hother _ rfl ?_
    simp only
    split
    · exact handleDefine_reports name body
    · exact reports_of_eq rfl
  | undef name =>
    rw [hd] at hother
    refine hother _ rfl ?_
    simp only
    split
    · exact handleUndef_reports name
    · exact reports_of_eq rfl
  | line operand =>
    rw [hd] at hother
    refine hother _ rfl ?_
    simp only
    split
    · exact handleLine_reports _ _ _ _
    · exact reports_of_eq rfl
  | incl filename isAngle =>
    rw [hd] at hother
    refine hother _ rfl ?_
    simp only
    split
    · exact handleInclude_reports _ _ _ _
    · exact reports_of_eq rfl
  | unknown name =>
    rw [hd] at hother
    refine hother _ rfl ?_
    simp only
    split
    · exact reports_report rfl
    · exact reports_of_eq rfl
  | _ =>
    rw [hd] at hcond
    exact hcond _ rfl

/-! ## Nesting errors -/

/-- The nesting errors among some diagnostics. -/
def structural (ds : List Diag) : List Diag := ds.filter fun d => d.message.isStructural

@[simp] theorem structural_nil : structural [] = [] := rfl

@[simp] theorem structural_append (ds es : List Diag) :
    structural (ds ++ es) = structural ds ++ structural es := List.filter_append ..

theorem structural_findings (base : Option SourceLocation) (fs : List Finding) :
    structural (fs.map (Finding.diag base)) = [] := by
  simp only [structural, List.filter_eq_nil_iff, List.mem_map]
  rintro d ⟨f, -, rfl⟩
  simp [Finding.diag, Message.isStructural]

/-- **A line's nesting errors are its conditional's.** -/
theorem stepLine_structural (env : Env) (s : State) (f : Frame) (fs : List Frame) (l : Line) :
    structural (stepLine env s f fs l).diags = structural s.diags ++
      structural (condStep env.expr s.macros f.loc (lineDirective l) f.condStack).2 := by
  obtain ⟨ds, hall, hds⟩ := stepLine_diags env s f fs l
  have hnone : structural ds = [] := by
    simp only [structural, List.filter_eq_nil_iff]
    intro d hd
    simp [(hall d hd).notStructural]
  rw [hds, structural_append, structural_append, hnone, List.append_nil]

/-! ## What is written stays -/

/-- `t` has what `s` has reported and written, and possibly more. -/
structure Grows (s t : State) : Prop where
  diags : s.diags <+: t.diags
  output : s.output <+: t.output

theorem Grows.refl (s : State) : Grows s s := ⟨List.prefix_rfl, List.prefix_rfl⟩

theorem Grows.trans {r s t : State} (h : Grows r s) (h' : Grows s t) : Grows r t :=
  ⟨h.diags.trans h'.diags, h.output.trans h'.output⟩

theorem stepLine_output (env : Env) (s : State) (f : Frame) (fs : List Frame) (l : Line) :
    s.output <+: (stepLine env s f fs l).output ∨ (stepLine env s f fs l).aborted ≠ none := by
  rcases stepLine_cases env s f fs l with h | ⟨n, p, h⟩ | ⟨p, sm, inner, h⟩ | h
  · exact .inl ⟨_, h.1.output_eq.symm⟩
  · exact .inl ⟨_, h.output_eq.symm⟩
  · exact .inl ⟨_, h.output_eq.symm⟩
  · exact .inr h.aborted_ne

theorem stepEof_grows (s : State) (f : Frame) (fs : List Frame) : Grows s (stepEof s f fs) := by
  unfold stepEof
  cases fs with
  | nil => exact ⟨⟨_, rfl⟩, List.prefix_rfl⟩
  | cons outer fs =>
    simp only
    split
    · exact ⟨⟨_, rfl⟩, List.prefix_rfl⟩
    · exact ⟨⟨_, rfl⟩, ⟨_, rfl⟩⟩

/-- A step that does not abort takes nothing back. -/
theorem step_grows {env : Env} (h : step env s = some t) (hab : t.aborted = none) : Grows s t := by
  obtain ⟨f, fs, -, -, ⟨-, rfl⟩ | ⟨l, -, rfl⟩⟩ := step_cases h
  · exact stepEof_grows s f fs
  · obtain ⟨ds, -, hds⟩ := stepLine_diags env s f fs l
    rcases stepLine_output env s f fs l with hout | hne
    · exact ⟨⟨_, by rw [hds, List.append_assoc]⟩, hout⟩
    · exact absurd hab hne

theorem hasError_mono {ds es : List Diag} (h : ds <+: es) (he : hasError es = false) :
    hasError ds = false := by
  obtain ⟨r, rfl⟩ := h
  simp only [hasError, List.any_append, Bool.or_eq_false_iff] at he
  exact he.1

/-- An aborted run stays so. -/
theorem running_of_runState {env : Env} {k n : ℕ} (hk : k ≤ n)
    (h : (runState env n s).aborted = none) : (runState env k s).aborted = none := by
  by_contra hne
  obtain ⟨j, rfl⟩ := Nat.exists_eq_add_of_le hk
  have hhalt : step env (Run.runUpto (step env) k s) = none := step_eq_none_iff.2 (.inl hne)
  rw [runState, Run.runUpto_add, Run.runUpto_of_none hhalt] at h
  exact hne h

theorem runState_grows {env : Env} {k n : ℕ} (hk : k ≤ n)
    (h : (runState env n s).aborted = none) : Grows (runState env k s) (runState env n s) := by
  induction n with
  | zero =>
    obtain rfl : k = 0 := by omega
    exact .refl _
  | succ n ih =>
    rcases Nat.lt_or_ge n k with hlt | hle
    · obtain rfl : k = n + 1 := by omega
      exact .refl _
    · have hprev := ih hle (running_of_runState (Nat.le_succ n) h)
      rw [runState_succ] at h ⊢
      cases hs : step env (runState env n s) with
      | none => simpa [hs] using hprev
      | some t =>
        rw [hs, Option.getD_some] at h
        exact hprev.trans (step_grows hs h)

/-- **Along a successful run** nothing has gone wrong so far. -/
theorem clean_of_succeeded {env : Env} {k n : ℕ} (hk : k ≤ n)
    (h : (runState env n s).succeeded = true) :
    (runState env k s).aborted = none ∧ hasError (runState env k s).diags = false := by
  simp only [State.succeeded, State.finished, Bool.and_eq_true, Bool.not_eq_true',
    Option.isNone_iff_eq_none] at h
  exact ⟨running_of_runState hk h.1.1, hasError_mono (runState_grows hk h.1.1).diags h.2⟩

end Preprocess

end Nslc
