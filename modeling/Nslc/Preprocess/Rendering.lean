import Nslc.Basic.Diagnostic
import Nslc.Preprocess.Calculation
import Nslc.Preprocess.LineCount
import Nslc.Preprocess.Verbatim
/-!
# Preprocessor — its reports can be written out

A report carries a location in a file that was read, with one way
around it: the body of a `-D` macro has no location, and what the
evaluator finds wrong with it is reported there. Rendering such a report
stops the program. `everyReportRenders_iff` says that nothing else does:
all reports of a run can be rendered exactly if no line that is spliced
refers to a `-D` macro with a faulty body.
-/

namespace Nslc

namespace Preprocess

/-! ## Reports along a run -/

/-- The diagnostic engine beside a run. -/
structure Engine where
  sites : IncludeSites
  entries : List (Entry Message)

/-- An include recorded for good as its frame is pushed. -/
def sitesAfter (sites : IncludeSites) (sm sm' : SourceManager) : IncludeSites :=
  match sm'.includeStack with
  | [] => sites
  | (loc, inner) :: _ =>
    if sm.includeStack.length < sm'.includeStack.length then sites.record loc inner else sites

/-- What a step from `s` to `t` reports goes through `report` before the
files change; `none` where that aborts. -/
def Engine.after (e : Engine) (s t : State) : Option Engine :=
  ((t.diags.drop s.diags.length).mapM (report s.sm e.sites)).map fun es =>
    ⟨sitesAfter e.sites s.sm t.sm, e.entries ++ es⟩

def engineAt (env : Env) (start : State) : ℕ → Option Engine
  | 0 => some ⟨fun _ => none, []⟩
  | n + 1 => (engineAt env start n).bind fun e =>
    e.after (runState env n start) (runState env (n + 1) start)

/-- A report in a file that is registered. -/
def Located (sm : SourceManager) (d : Diag) : Prop := ∃ l, d.loc = some l ∧ Registered sm l.file

/-- Along the whole run every report is located, `report` passes it on,
and all that was reported can be rendered. -/
def EveryReportRenders (env : Env) (start : State) : Prop :=
  ∀ n, (∀ d ∈ (runState env n start).diags, Located (runState env n start).sm d) ∧
    ∃ e, engineAt env start n = some e ∧
      ∀ fmt, (renderAll (runState env n start).sm fmt Message.text e.entries).isSome

/-! ## The way around -/

/-- The next step splices `text`: a line in a selected branch, or the
operand of a `#line` there. -/
def SplicesNext (s : State) (text : Text) : Prop :=
  s.aborted = none ∧ ∃ f fs l, s.includeStack = f :: fs ∧
    readLine (s.sm.getBuffer f.fid) f.cursor = some l ∧ isEmitting f.condStack = true ∧
    (lineDirective l = .passthrough ∧ text = stripCR l.body ∨ lineDirective l = .line text)

/-- The text refers to a `-D` macro whose body has to be computed and
cannot be. -/
def FailsUnlocated (E : PPExpression) (macros : MacroTable) (text : Text) : Prop :=
  ∃ pos name d, .ref pos name ∈ pieces text ∧ macros.lookup name = some d ∧
    d.definingLoc = none ∧ needsReduction d.body = true ∧ (E.reduceDefineBody macros d.body).2 ≠ []

/-! ## Reports of one line -/

section Placed

variable {ok : FileID → Prop} {loc : SourceLocation}

/-- A report that stands in a file `ok` allows, its note too. -/
structure Placed (ok : FileID → Prop) (d : Diag) : Prop where
  located : ∃ l, d.loc = some l ∧ ok l.file
  previous : ∀ p, d.previous = some p → ok p.file

theorem placed_at (h : ok loc.file) (sev : Severity) (delta : ℕ) (m : Message) :
    Placed ok ⟨sev, locAt (some loc) delta, m, none⟩ where
  located := ⟨_, rfl, h⟩
  previous := by simp

theorem placed_here (h : ok loc.file) (sev : Severity) (m : Message) :
    Placed ok ⟨sev, some loc, m, none⟩ where
  located := ⟨_, rfl, h⟩
  previous := by simp

theorem placed_findings (h : ok loc.file) (fs : List Finding) :
    ∀ d ∈ fs.map (Finding.diag (some loc)), Placed ok d := by
  intro d hd
  obtain ⟨f, -, rfl⟩ := List.mem_map.1 hd
  exact placed_at h f.severity f.delta (.expr f.text)

theorem placed_scanForHelper (h : ok loc.file) :
    ∀ (fuel pos : ℕ) (prev : Option Char) (t : Text),
      ∀ d ∈ scanForHelperUpto loc fuel pos prev t, Placed ok d := by
  intro fuel
  induction fuel with
  | zero =>
    intro pos prev t d hd
    simp [scanForHelperUpto] at hd
  | succ fuel ih =>
    intro pos prev t d hd
    cases t with
    | nil => simp [scanForHelperUpto] at hd
    | cons c cs =>
      simp only [scanForHelperUpto] at hd
      split_ifs at hd
      · exact ih _ _ _ d hd
      · simp at hd
      · exact ih _ _ _ d hd
      · rcases List.mem_append.1 hd with hd | hd
        · rw [List.mem_singleton.1 hd]
          exact placed_at h _ _ _
        · exact ih _ _ _ d hd
      · exact ih _ _ _ d (by simpa using hd)
      · exact ih _ _ _ d hd

theorem placed_scanForFloat (h : ok loc.file) :
    ∀ (fuel pos : ℕ) (prev : Option Char) (t : Text),
      ∀ d ∈ scanForFloatUpto loc fuel pos prev t, Placed ok d := by
  intro fuel
  induction fuel with
  | zero =>
    intro pos prev t d hd
    simp [scanForFloatUpto] at hd
  | succ fuel ih =>
    intro pos prev t d hd
    cases t with
    | nil => simp [scanForFloatUpto] at hd
    | cons c cs =>
      simp only [scanForFloatUpto] at hd
      split_ifs at hd
      · exact ih _ _ _ d hd
      · simp at hd
      · exact ih _ _ _ d hd
      · rcases List.mem_append.1 hd with hd | hd
        · rw [List.mem_singleton.1 hd]
          exact placed_at h _ _ _
        · exact ih _ _ _ d hd
      · exact ih _ _ _ d (by simpa using hd)
      · exact ih _ _ _ d hd

variable {E : PPExpression} {macros : MacroTable} {text : Text}

theorem spliceBody_reports (d : MacroDef) :
    (spliceBody E macros d).2 =
      if needsReduction d.body then
        (E.reduceDefineBody macros d.body).2.map (Finding.diag d.definingLoc)
      else [] := by
  unfold spliceBody
  split_ifs
  · cases h : E.reduceDefineBody macros d.body with
    | mk v fs => cases v <;> rfl
  · rfl

/-- Where no faulty `-D` body is spliced, what splicing reports stands on
the line or where a macro was defined. -/
theorem placed_splice (h : ok loc.file)
    (hmacros : ∀ m ∈ macros, ∀ l, m.definingLoc = some l → ok l.file)
    (hsafe : ¬ FailsUnlocated E macros text) :
    ∀ d ∈ (splice E macros text loc).2, Placed ok d := by
  intro d hd
  rw [splice_eq_pieces] at hd
  obtain ⟨p, hp, hd⟩ := List.mem_flatMap.1 hd
  cases p with
  | copied t => simp [Piece.spliced] at hd
  | ref pos name =>
    simp only [Piece.spliced, spliceRef] at hd
    cases hlook : macros.lookup name with
    | none =>
      rw [hlook] at hd
      rw [List.mem_singleton.1 hd]
      exact placed_at h _ _ _
    | some m =>
      rw [hlook, spliceBody_reports] at hd
      split_ifs at hd with hred
      · cases hloc : m.definingLoc with
        | some l =>
          rw [hloc] at hd
          exact placed_findings (hmacros m (lookup_mem hlook) l hloc) _ d hd
        | none =>
          refine absurd ⟨pos, name, m, hp, hlook, hloc, hred, ?_⟩ hsafe
          intro hnil
          rw [hnil] at hd
          simp at hd
      · simp at hd

/-- A faulty `-D` body that is spliced is reported without a location. -/
theorem exists_unlocated (hfails : FailsUnlocated E macros text) (loc : SourceLocation) :
    ∃ d ∈ (splice E macros text loc).2, d.loc = none := by
  obtain ⟨pos, name, m, hp, hlook, hloc, hred, hne⟩ := hfails
  obtain ⟨f, hf⟩ := List.exists_mem_of_ne_nil _ hne
  refine ⟨Finding.diag none f, ?_, rfl⟩
  rw [splice_eq_pieces]
  refine List.mem_flatMap.2 ⟨_, hp, ?_⟩
  simp only [Piece.spliced, spliceRef, hlook, spliceBody_reports, if_pos hred, hloc]
  exact List.mem_map_of_mem hf

theorem placed_condStep (h : ok loc.file) (d : ParsedDirective) (st : List CondFrame) :
    ∀ e ∈ (condStep E macros loc d st).2, Placed ok e := by
  intro e he
  have hone : ∀ m : Message, e ∈ [(⟨.error, some loc, m, none⟩ : Diag)] → Placed ok e := by
    intro m hm
    rw [List.mem_singleton.1 hm]
    exact placed_here h _ _
  have hifdef : ∀ name negate, e ∈ (handleIfdef macros name negate loc st).2 → Placed ok e := by
    intro name negate hmem
    by_cases hname : name = []
    · rw [handleIfdef, if_pos hname] at hmem
      exact hone _ hmem
    · rw [handleIfdef, if_neg hname] at hmem
      simp at hmem
  cases d with
  | ifdef name => exact hifdef _ _ he
  | ifndef name => exact hifdef _ _ he
  | ifExpr x => exact placed_findings h _ e he
  | els =>
    simp only [condStep, handleElse] at he
    split at he
    · exact hone _ he
    · split_ifs at he <;> simp at he
  | endif =>
    simp only [condStep, handleEndif] at he
    split at he
    · exact hone _ he
    · simp at he
  | _ => simp [condStep] at he

/-- An opener is recorded on its own line. -/
theorem opener_condStep (d : ParsedDirective) (st : List CondFrame) :
    ∀ cf ∈ (condStep E macros loc d st).1,
      cf.openerLoc = loc ∨ ∃ cf' ∈ st, cf.openerLoc = cf'.openerLoc := by
  have hpush : ∀ taken, ∀ cf ∈ pushCondFrame st taken loc,
      cf.openerLoc = loc ∨ ∃ cf' ∈ st, cf.openerLoc = cf'.openerLoc := by
    intro taken cf hcf
    rcases List.mem_cons.1 hcf with rfl | hcf
    · exact .inl rfl
    · exact .inr ⟨cf, hcf, rfl⟩
  intro cf hcf
  have hifdef : ∀ name negate, cf ∈ (handleIfdef macros name negate loc st).1 →
      cf.openerLoc = loc ∨ ∃ cf' ∈ st, cf.openerLoc = cf'.openerLoc := by
    intro name negate hmem
    by_cases hname : name = []
    · rw [handleIfdef, if_pos hname] at hmem
      exact hpush _ cf hmem
    · rw [handleIfdef, if_neg hname] at hmem
      exact hpush _ cf hmem
  cases d with
  | ifdef name => exact hifdef _ _ hcf
  | ifndef name => exact hifdef _ _ hcf
  | ifExpr x => exact hpush _ cf hcf
  | els =>
    simp only [condStep, handleElse] at hcf
    split at hcf
    · simp at hcf
    · rename_i top rest
      have htop : ∀ b a, cf ∈ { top with currentlyEmitting := b, anyBranchTaken := a } :: rest →
          cf.openerLoc = loc ∨ ∃ cf' ∈ top :: rest, cf.openerLoc = cf'.openerLoc := by
        intro b a hmem
        rcases List.mem_cons.1 hmem with rfl | hmem
        · exact .inr ⟨top, by simp, rfl⟩
        · exact .inr ⟨cf, by simp [hmem], rfl⟩
      split_ifs at hcf
      · exact htop _ _ hcf
      · exact htop _ _ hcf
      · exact htop _ _ hcf
  | endif =>
    simp only [condStep, handleEndif] at hcf
    split at hcf
    · simp at hcf
    · exact .inr ⟨cf, by simp [hcf], rfl⟩
  | _ => exact .inr ⟨cf, hcf, rfl⟩

/-- `t` has the reports of `s` and more that are placed. -/
def Adds (ok : FileID → Prop) (s t : State) : Prop :=
  ∃ ds, t.diags = s.diags ++ ds ∧ ∀ d ∈ ds, Placed ok d

variable {s t : State}

theorem adds_of_eq (h : t.diags = s.diags) : Adds ok s t := ⟨[], by simpa using h, by simp⟩

theorem adds_report (h : ok loc.file) (m : Message) : Adds ok s (s.report loc m) := by
  refine ⟨_, rfl, ?_⟩
  intro d hd
  rw [List.mem_singleton.1 hd]
  exact placed_here h _ _

theorem Adds.trans {u : State} (h : Adds ok s t) (h' : Adds ok t u) : Adds ok s u := by
  obtain ⟨ds, hds, hall⟩ := h
  obtain ⟨es, hes, hall'⟩ := h'
  refine ⟨ds ++ es, by rw [hes, hds, List.append_assoc], ?_⟩
  intro d hd
  rcases List.mem_append.1 hd with hd | hd
  · exact hall d hd
  · exact hall' d hd

theorem adds_passLine (h : ok loc.file)
    (hmacros : ∀ m ∈ s.macros, ∀ l, m.definingLoc = some l → ok l.file)
    (hsafe : ¬ FailsUnlocated E s.macros text) (term : Text) :
    Adds ok s (passLine E s text loc term) := by
  refine ⟨_, rfl, ?_⟩
  intro d hd
  rcases List.mem_append.1 hd with hd | hd
  · rcases List.mem_append.1 hd with hd | hd
    · exact placed_splice h hmacros hsafe d hd
    · exact placed_scanForHelper h _ _ _ _ d hd
  · exact placed_scanForFloat h _ _ _ _ d hd

theorem adds_handleDefine (h : ok loc.file)
    (hmacros : ∀ m ∈ s.macros, ∀ l, m.definingLoc = some l → ok l.file) (name body : Text) :
    Adds ok s (handleDefine s name body loc) := by
  unfold handleDefine
  split_ifs
  · exact adds_report h _
  · cases hprev : (s.macros.lookup name).bind MacroDef.definingLoc with
    | none => exact adds_of_eq rfl
    | some prev =>
      refine ⟨_, rfl, ?_⟩
      intro d hd
      rw [List.mem_singleton.1 hd]
      refine ⟨⟨loc, rfl, h⟩, ?_⟩
      intro p hp
      obtain rfl := Option.some.inj hp
      obtain ⟨m, hm, hdef⟩ := Option.bind_eq_some_iff.1 hprev
      exact hmacros m (lookup_mem hm) _ hdef

theorem adds_handleUndef (h : ok loc.file) (name : Text) :
    Adds ok s (handleUndef s name loc) := by
  unfold handleUndef
  split_ifs
  · exact adds_report h _
  · exact adds_of_eq rfl

theorem adds_handleLine (h : ok loc.file)
    (hmacros : ∀ m ∈ s.macros, ∀ l, m.definingLoc = some l → ok l.file)
    (hsafe : ¬ FailsUnlocated E s.macros text) (fid : FileID) (lineEnd : ℕ) :
    Adds ok s (handleLine E s fid text loc lineEnd) := by
  have hsplice : Adds ok s (s.addDiags (splice E s.macros text loc).2) :=
    ⟨_, rfl, placed_splice h hmacros hsafe⟩
  simp only [handleLine]
  split
  · exact hsplice.trans (adds_report h _)
  · exact hsplice.trans (adds_report h _)
  · rename_i lineNo path trailing _
    have htrail : Adds ok s (if trailing then
        (s.addDiags (splice E s.macros text loc).2).report loc .lineTrailing
        else s.addDiags (splice E s.macros text loc).2) := by
      split
      · exact hsplice.trans (adds_report h _)
      · exact hsplice
    split
    · exact htrail.trans (adds_of_eq rfl)
    · split
      · exact htrail.trans (adds_of_eq rfl)
      · exact htrail.trans (adds_of_eq rfl)

theorem adds_handleInclude (h : ok loc.file) (env : Env) (fid : FileID) (filename : Text)
    (isAngle : Bool) : Adds ok s (handleInclude env s fid filename isAngle loc) := by
  unfold handleInclude
  split
  · exact adds_report h _
  · split
    · exact adds_report h _
    · split
      · exact adds_report h _
      · unfold openInclude
        split
        · exact adds_report h _
        · exact adds_of_eq rfl
        · exact adds_of_eq rfl

variable {env : Env} {f : Frame} {fs : List Frame} {l : Line}

/-- **What a line reports is placed**, unless it splices a faulty `-D`
body. -/
theorem adds_stepLine (h : ok f.fid)
    (hmacros : ∀ m ∈ s.macros, ∀ l, m.definingLoc = some l → ok l.file)
    (hsafe : ∀ u, isEmitting f.condStack = true →
      lineDirective l = .passthrough ∧ u = stripCR l.body ∨ lineDirective l = .line u →
      ¬ FailsUnlocated env.expr s.macros u) :
    Adds ok s (stepLine env s f fs l) := by
  have hloc : ok f.loc.file := h
  have hcond : Adds ok s ((({ s with includeStack := f.next env s l :: fs } : State).addDiags
      (condStep env.expr s.macros f.loc (lineDirective l) f.condStack).2).emit l.term) :=
    ⟨_, rfl, placed_condStep hloc _ _⟩
  unfold stepLine dispatch
  cases hd : lineDirective l with
  | passthrough =>
    simp only
    split
    · rename_i he
      exact adds_passLine (s := { s with includeStack := f.next env s l :: fs }) hloc hmacros
        (hsafe _ he (.inl ⟨hd, rfl⟩)) l.term
    · exact adds_of_eq rfl
  | define name body =>
    simp only
    split
    · exact (adds_handleDefine (s := { s with includeStack := f.next env s l :: fs }) hloc hmacros
        name body).trans (adds_of_eq rfl)
    · exact adds_of_eq rfl
  | undef name =>
    simp only
    split
    · exact adds_handleUndef (s := { s with includeStack := f.next env s l :: fs }) hloc name
    · exact adds_of_eq rfl
  | line operand =>
    simp only
    split
    · rename_i he
      exact adds_handleLine (s := { s with includeStack := f.next env s l :: fs }) hloc hmacros
        (hsafe _ he (.inr hd)) _ _
    · exact adds_of_eq rfl
  | incl filename isAngle =>
    simp only
    split
    · exact adds_handleInclude (s := { s with includeStack := f.next env s l :: fs }) hloc _ _ _ _
    · exact adds_of_eq rfl
  | unknown name =>
    simp only
    split
    · exact adds_report (s := { s with includeStack := f.next env s l :: fs }) hloc _
    · exact adds_of_eq rfl
  | _ =>
    rw [hd] at hcond
    exact hcond

end Placed

/-! ## One step -/

section Steps

variable {env : Env} {s t : State} {f : Frame} {fs : List Frame} {l : Line}

/-- A line defines macros at its own location only. -/
theorem mem_macros_stepLine : ∀ m ∈ (stepLine env s f fs l).macros,
    m ∈ s.macros ∨ m.definingLoc = some f.loc := by
  intro m hm
  rcases macros_stepLine env s f fs l with h | ⟨name, body, -, h⟩ | ⟨name, h⟩
  · exact .inl (h ▸ hm)
  · rw [h] at hm
    rcases mem_redefine hm with rfl | ⟨hold, -⟩
    · exact .inr rfl
    · exact .inl hold
  · rw [h] at hm
    exact .inl (List.mem_of_mem_filter hm)

/-- Every location a state holds is in a registered file. -/
structure LocatedState (s : State) : Prop where
  stacked : Stacked s
  macros : ∀ m ∈ s.macros, ∀ loc, m.definingLoc = some loc → Registered s.sm loc.file
  openers : ∀ f ∈ s.includeStack, ∀ cf ∈ f.condStack, Registered s.sm cf.openerLoc.file
  includes : ∀ e ∈ s.sm.includeStack, Registered s.sm e.1.file
  diags : ∀ d ∈ s.diags, Placed (Registered s.sm) d

theorem Placed.mono {ok ok' : FileID → Prop} {d : Diag} (h : Placed ok d)
    (hok : ∀ f, ok f → ok' f) : Placed ok' d where
  located := by
    obtain ⟨loc, hloc, hfile⟩ := h.located
    exact ⟨loc, hloc, hok _ hfile⟩
  previous := fun p hp => hok _ (h.previous p hp)

/-- The diagnostics behind a step. -/
theorem LocatedState.diags_of_adds (h : LocatedState s) (hgrow : FilesGrow s.sm t.sm)
    (hadds : Adds (Registered s.sm) s t) : ∀ d ∈ t.diags, Placed (Registered t.sm) d := by
  obtain ⟨ds, hds, hall⟩ := hadds
  intro d hd
  rw [hds] at hd
  rcases List.mem_append.1 hd with hd | hd
  · exact (h.diags d hd).mono fun _ => hgrow.registered
  · exact (hall d hd).mono fun _ => hgrow.registered

theorem LocatedState.stepLine (h : LocatedState s) (hst : s.includeStack = f :: fs)
    (hadds : Adds (Registered s.sm) s (stepLine env s f fs l)) :
    LocatedState (stepLine env s f fs l) := by
  have hgrow : FilesGrow s.sm (Preprocess.stepLine env s f fs l).sm := filesGrow_stepLine
  have hf : Registered s.sm f.fid := h.stacked.registered f (by simp [hst])
  -- the frame behind the line, and those below it
  have hframes : ∀ g ∈ f.next env s l :: fs, ∀ cf ∈ g.condStack,
      Registered s.sm cf.openerLoc.file := by
    intro g hg cf hcf
    rcases List.mem_cons.1 hg with rfl | hg
    · rcases opener_condStep _ _ cf hcf with heq | ⟨cf', hcf', heq⟩
      · rw [heq]
        exact hf
      · rw [heq]
        exact h.openers f (by simp [hst]) cf' hcf'
    · exact h.openers g (by simp [hst, hg]) cf hcf
  refine ⟨stacked_stepLine h.stacked hst, ?_, ?_, ?_, h.diags_of_adds hgrow hadds⟩
  · intro m hm loc hloc
    rcases mem_macros_stepLine m hm with hm | hm
    · exact hgrow.registered (h.macros m hm loc hloc)
    · obtain rfl := Option.some.inj (hm.symm.trans hloc)
      exact hgrow.registered hf
  · intro g hg cf hcf
    refine hgrow.registered ?_
    rcases stepLine_cases env s f fs l with ⟨hp, -⟩ | ⟨n, p, hp⟩ | ⟨q, sm, inner, hp⟩ | hp
    · exact hframes g (hp.stack_eq ▸ hg) cf hcf
    · exact hframes g (hp.stack_eq ▸ hg) cf hcf
    · rw [hp.stack_eq] at hg
      rcases List.mem_cons.1 hg with rfl | hg
      · simp at hcf
      · exact hframes g hg cf hcf
    · exact hframes g (hp.stack_eq ▸ hg) cf hcf
  · intro e he
    refine hgrow.registered ?_
    rcases stepLine_cases env s f fs l with ⟨hp, -⟩ | ⟨n, p, hp⟩ | ⟨q, sm, inner, hp⟩ | hp
    · exact h.includes e (hp.sm_eq ▸ he)
    · obtain ⟨_, -, -, -, hinc⟩ := files_addLineDirective hp.sm_eq
      exact h.includes e (hinc ▸ he)
    · obtain ⟨hinc, -, -⟩ := files_loadFile hp.loaded
      rw [hp.sm_eq] at he
      rcases List.mem_cons.1 he with rfl | he
      · exact hf
      · exact h.includes e (hinc ▸ he)
    · exact h.includes e (hp.sm_eq ▸ he)

/-- The end of a frame reports its open conditionals. -/
theorem adds_stepEof (h : LocatedState s) (hst : s.includeStack = f :: fs) :
    Adds (Registered s.sm) s (stepEof s f fs) := by
  have hplaced : ∀ d ∈ f.condStack.reverse.map (fun cf =>
      (⟨.error, some cf.openerLoc, .unterminatedIf, none⟩ : Diag)),
      Placed (Registered s.sm) d := by
    intro d hd
    obtain ⟨cf, hcf, rfl⟩ := List.mem_map.1 hd
    exact placed_here (h.openers f (by simp [hst]) cf (by simpa using hcf)) _ _
  unfold Preprocess.stepEof
  cases fs with
  | nil => exact ⟨_, rfl, hplaced⟩
  | cons outer fs =>
    simp only
    split <;> exact ⟨_, rfl, hplaced⟩

theorem LocatedState.stepEof (h : LocatedState s) (hst : s.includeStack = f :: fs) :
    LocatedState (stepEof s f fs) ∧ FilesGrow s.sm (stepEof s f fs).sm := by
  obtain ⟨hsm, hstack, -⟩ := stepEof_cases h.stacked hst
  have hkeep : (Preprocess.stepEof s f fs).sm.buffers = s.sm.buffers ∧
      ∀ e ∈ (Preprocess.stepEof s f fs).sm.includeStack, e ∈ s.sm.includeStack := by
    rcases hsm with ⟨-, hsm⟩ | ⟨-, hpop⟩
    · rw [hsm]
      exact ⟨rfl, fun _ he => he⟩
    · obtain ⟨hbuf, e, he⟩ := files_popIncludeFrame hpop
      exact ⟨hbuf, fun e' he' => by simp [he, he']⟩
  have hgrow : FilesGrow s.sm (Preprocess.stepEof s f fs).sm := by
    refine ⟨by rw [hkeep.1], fun g _ => ?_⟩
    simp only [SourceManager.getBuffer, SourceManager.buffer?, hkeep.1]
  have hmacros : (Preprocess.stepEof s f fs).macros = s.macros := by
    unfold Preprocess.stepEof
    cases fs with
    | nil => rfl
    | cons outer fs =>
      simp only
      split <;> rfl
  refine ⟨⟨stacked_stepEof h.stacked hst, ?_, ?_, ?_,
    h.diags_of_adds hgrow (adds_stepEof h hst)⟩, hgrow⟩
  · intro m hm loc hloc
    exact hgrow.registered (h.macros m (hmacros ▸ hm) loc hloc)
  · intro g hg cf hcf
    rw [hstack] at hg
    exact hgrow.registered (h.openers g (by simp [hst, hg]) cf hcf)
  · intro e he
    exact hgrow.registered (h.includes e (hkeep.2 e he))

/-- **A step keeps every location registered**, and what it reports is
so before it. -/
theorem LocatedState.step (h : LocatedState s) (hstep : step env s = some t)
    (hsafe : ∀ u, SplicesNext s u → ¬ FailsUnlocated env.expr s.macros u) :
    LocatedState t ∧ Adds (Registered s.sm) s t ∧ FilesGrow s.sm t.sm := by
  obtain ⟨f, fs, hab, hst, ⟨-, rfl⟩ | ⟨l, hl, rfl⟩⟩ := step_cases hstep
  · exact ⟨(h.stepEof hst).1, adds_stepEof h hst, (h.stepEof hst).2⟩
  · have hadds : Adds (Registered s.sm) s (Preprocess.stepLine env s f fs l) :=
      adds_stepLine (h.stacked.registered f (by simp [hst])) h.macros fun u he hu =>
        hsafe u ⟨hab, f, fs, l, hst, hl, he, hu⟩
    exact ⟨h.stepLine hst hadds, hadds, filesGrow_stepLine⟩

/-! ## The engine beside the run -/

/-- The engine holds what the state says was reported. -/
structure Engine.Fits (e : Engine) (s : State) : Prop where
  sites : ∀ g loc, e.sites g = some loc → Registered s.sm loc.file
  diags : e.entries.map Entry.diag = s.diags
  notes : ∀ en ∈ e.entries, ∀ loc ∈ en.includedFrom, Registered s.sm loc.file

theorem isSome_buffer?_iff {sm : SourceManager} {f : ℕ} :
    (sm.buffer? f).isSome ↔ Registered sm f := by
  constructor
  · intro h
    obtain ⟨b, hb⟩ := Option.isSome_iff_exists.1 h
    unfold SourceManager.buffer? at hb
    split_ifs at hb with hzero
    obtain ⟨hlt, -⟩ := List.getElem?_eq_some_iff.1 hb
    have hpos : 0 < f := Nat.pos_of_ne_zero hzero
    exact ⟨hpos, by omega⟩
  · intro h
    obtain ⟨b, hb⟩ := buffer?_of_registered h
    rw [hb]
    rfl

theorem sitesAfter_registered {sites : IncludeSites} (ht : LocatedState t)
    (hgrow : FilesGrow s.sm t.sm) (hsites : ∀ g loc, sites g = some loc → Registered s.sm loc.file) :
    ∀ g loc, sitesAfter sites s.sm t.sm g = some loc → Registered t.sm loc.file := by
  intro g loc hg
  have hold : sites g = some loc → Registered t.sm loc.file :=
    fun h => hgrow.registered (hsites g loc h)
  cases hstack : t.sm.includeStack with
  | nil =>
    simp only [sitesAfter, hstack] at hg
    exact hold hg
  | cons top rest =>
    simp only [sitesAfter, hstack] at hg
    by_cases hlt : s.sm.includeStack.length < (top :: rest).length
    · rw [if_pos hlt] at hg
      simp only [IncludeSites.record] at hg
      split_ifs at hg
      · rcases Option.or_eq_some_iff.1 hg with hg | ⟨-, hg⟩
        · exact hold hg
        · obtain rfl := Option.some.inj hg
          exact ht.includes top (by simp [hstack])
      · exact hold hg
    · rw [if_neg hlt] at hg
      exact hold hg

theorem Engine.Fits.after {e : Engine} (he : e.Fits s) (ht : LocatedState t)
    (hadds : Adds (Registered s.sm) s t) (hgrow : FilesGrow s.sm t.sm) :
    ∃ e', e.after s t = some e' ∧ e'.Fits t := by
  obtain ⟨ds, hds, hall⟩ := hadds
  have hloc : ∀ d ∈ ds, ∀ loc, d.loc = some loc → (s.sm.buffer? loc.file).isSome := by
    intro d hd loc hloc
    obtain ⟨loc', hloc', hreg⟩ := (hall d hd).located
    obtain rfl := Option.some.inj (hloc.symm.trans hloc')
    exact isSome_buffer?_iff.2 hreg
  obtain ⟨es, hes, hmap, hsites⟩ := exists_reports e.sites hloc
  refine ⟨⟨sitesAfter e.sites s.sm t.sm, e.entries ++ es⟩, ?_, ?_⟩
  · have hdrop : t.diags.drop s.diags.length = ds := by rw [hds, List.drop_left]
    rw [Engine.after, hdrop, hes, Option.map_some]
  · refine ⟨sitesAfter_registered ht hgrow he.sites, ?_, ?_⟩
    · rw [List.map_append, he.diags, hmap, hds]
    · intro en hen loc hmem
      rcases List.mem_append.1 hen with hen | hen
      · exact hgrow.registered (he.notes en hen loc hmem)
      · obtain ⟨g, hg⟩ := hsites en hen loc hmem
        exact hgrow.registered (he.sites g loc hg)

/-- What is located and fits can be rendered. -/
theorem Engine.Fits.renders {e : Engine} (he : e.Fits s) (h : LocatedState s) (fmt : Format) :
    (renderAll s.sm fmt Message.text e.entries).isSome := by
  have hresolve : ∀ loc, Registered s.sm loc.file → (s.sm.resolve (some loc)).isSome := by
    intro loc hreg
    exact SourceManager.resolve_isSome_iff.2 ⟨loc, rfl, isSome_buffer?_iff.2 hreg⟩
  refine (renderAll_isSome_iff _ _ _).2 ?_
  intro en hen
  have hdiag : Placed (Registered s.sm) en.diag := by
    refine h.diags en.diag ?_
    rw [← he.diags]
    exact List.mem_map_of_mem hen
  constructor
  · obtain ⟨loc, hloc, hreg⟩ := hdiag.located
    rw [hloc]
    exact hresolve loc hreg
  · intro n hn
    rcases List.mem_append.1 hn with hn | hn
    · obtain ⟨loc, hloc, rfl⟩ := List.mem_map.1 hn
      exact hresolve loc (he.notes en hen loc hloc)
    · obtain ⟨loc, hloc, rfl⟩ := List.mem_map.1 hn
      exact hresolve loc (hdiag.previous loc (by simpa using hloc))

/-! ## Whole runs -/

theorem locatedState_initial (path : Text) (input : SourceText)
    (predefined : List (Text × Text)) : LocatedState (initial path input predefined) where
  stacked := stacked_initial path input predefined
  macros := by
    intro m hm loc hloc
    rw [definingLoc_initial m hm] at hloc
    cases hloc
  openers := by
    intro f hf
    rw [List.mem_singleton.1 hf]
    simp
  includes := by simp [initial]
  diags := by simp [initial]

/-- As long as no faulty `-D` body is spliced, all that a run reports is
located and the engine has it. -/
theorem exists_engine {start : State} (hstart : LocatedState start) (hempty : start.diags = [])
    (hsafe : ∀ n u, SplicesNext (runState env n start) u →
      ¬ FailsUnlocated env.expr (runState env n start).macros u) (n : ℕ) :
    LocatedState (runState env n start) ∧
      ∃ e, engineAt env start n = some e ∧ e.Fits (runState env n start) := by
  induction n with
  | zero => exact ⟨hstart, _, rfl, by simp, by simpa [runState] using hempty.symm, by simp⟩
  | succ n ih =>
    obtain ⟨hloc, e, he, hfits⟩ := ih
    cases hs : Preprocess.step env (runState env n start) with
    | none =>
      have hsame : runState env (n + 1) start = runState env n start := by
        rw [runState_succ, hs, Option.getD_none]
      obtain ⟨e', he', hfits'⟩ := hfits.after hloc (adds_of_eq rfl) (.refl _)
      refine ⟨hsame ▸ hloc, e', ?_, hsame ▸ hfits'⟩
      rw [engineAt, he, Option.bind_some, hsame, he']
    | some t =>
      have hnext : runState env (n + 1) start = t := by
        rw [runState_succ, hs, Option.getD_some]
      obtain ⟨ht, hadds, hgrow⟩ := hloc.step hs (hsafe n)
      obtain ⟨e', he', hfits'⟩ := hfits.after ht hadds hgrow
      refine ⟨hnext ▸ ht, e', ?_, hnext ▸ hfits'⟩
      rw [engineAt, he, Option.bind_some, hnext, he']

/-- A step that splices a faulty `-D` body leaves a report without a
location. -/
theorem exists_unlocated_of_step {u : Text} (hnext : SplicesNext s u)
    (hfails : FailsUnlocated env.expr s.macros u) :
    ∃ t, Preprocess.step env s = some t ∧ ∃ d ∈ t.diags, d.loc = none := by
  obtain ⟨hab, f, fs, l, hst, hl, he, hu⟩ := hnext
  obtain ⟨d, hd, hloc⟩ := exists_unlocated hfails f.loc
  refine ⟨Preprocess.stepLine env s f fs l, by simp [Preprocess.step, hab, hst, hl], d, ?_, hloc⟩
  rcases hu with ⟨hdir, rfl⟩ | hdir
  · simp only [Preprocess.stepLine, dispatch, hdir, he, if_true, passLine, State.emit,
      State.addDiags]
    simp [hd]
  · simp only [Preprocess.stepLine, dispatch, hdir, he, if_true, handleLine]
    split
    · simp [State.report, State.addDiags, hd]
    · simp [State.report, State.addDiags, hd]
    · rename_i trailing _
      cases trailing <;> split
      · simp [State.abort, State.addDiags, hd]
      · split <;> simp [State.abort, State.addDiags, State.emit, hd]
      · simp [State.abort, State.report, State.addDiags, hd]
      · split <;> simp [State.abort, State.report, State.addDiags, State.emit, hd]

/-- **Every report of a run can be rendered exactly if no line that is
spliced refers to a `-D` macro whose body cannot be computed.** -/
theorem everyReportRenders_iff (env : Env) (path : Text) (input : SourceText)
    (predefined : List (Text × Text)) :
    EveryReportRenders env (initial path input predefined) ↔
      ∀ n u, SplicesNext (runState env n (initial path input predefined)) u →
        ¬ FailsUnlocated env.expr (runState env n (initial path input predefined)).macros u := by
  constructor
  · intro h n u hnext hfails
    obtain ⟨t, hs, d, hd, hloc⟩ := exists_unlocated_of_step hnext hfails
    have hrun : runState env (n + 1) (initial path input predefined) = t := by
      rw [runState_succ, hs, Option.getD_some]
    obtain ⟨loc, hsome, -⟩ := (h (n + 1)).1 d (by rw [hrun]; exact hd)
    rw [hloc] at hsome
    cases hsome
  · intro hsafe n
    obtain ⟨hloc, e, he, hfits⟩ :=
      exists_engine (locatedState_initial path input predefined) rfl hsafe n
    exact ⟨fun d hd => (hloc.diags d hd).located, e, he, hfits.renders hloc⟩

/-- The evaluator as the line machine calls it, with `depth` parsers
nested at most; `0` where the evaluation has no value. -/
def Evaluator.machineExpr (L : LongDouble) (depth : ℕ) : PPExpression where
  Value := PPValue L
  isTruthy := PPValue.isTruthy
  render := PPValue.render
  parse macros text := (Evaluator.parse L macros depth text).toOption.getD (.int 0, [])
  reduceDefineBody macros body :=
    (Evaluator.reduceDefineBody L macros depth body).toOption.getD (some (.int 0), [])

/-- One file and no include path. -/
def evaluatingEnv : Env := { bareEnv with expr := Evaluator.machineExpr Evaluator.ratReals 3 }

/-- A file that refers to the macro `X`. -/
def spliceFile : SourceText := ⟨"%X%\n".toList, by decide⟩

/-- The run on that file under `-D X=_int(1/0)`. -/
def divisionRun : State := initial "f.nsl".toList spliceFile [("X".toList, "_int(1/0)".toList)]

/-- The division by zero is reported nowhere, and rendering stops. -/
theorem not_everyReportRenders_divisionRun :
    ¬ EveryReportRenders evaluatingEnv divisionRun ∧
      ∃ e, engineAt evaluatingEnv divisionRun 1 = some e ∧
        ∀ fmt, renderAll (runState evaluatingEnv 1 divisionRun).sm fmt Message.text e.entries =
          none := by
  have hlocs : (engineAt evaluatingEnv divisionRun 1).map (fun e => e.entries.map (·.diag.loc)) =
      some [none] := by decide +kernel
  obtain ⟨e, he, hentries⟩ := Option.map_eq_some_iff.1 hlocs
  have hnone : ∀ fmt, renderAll (runState evaluatingEnv 1 divisionRun).sm fmt Message.text
      e.entries = none := by
    intro fmt
    rw [← Option.not_isSome_iff_eq_none, renderAll_isSome_iff]
    intro hall
    obtain ⟨en, hen, hloc⟩ : ∃ en ∈ e.entries, en.diag.loc = none := by
      have hmem : none ∈ e.entries.map (·.diag.loc) := by simp [hentries]
      obtain ⟨en, hen, hloc⟩ := List.mem_map.1 hmem
      exact ⟨en, hen, hloc⟩
    have hres := (hall en hen).1
    rw [hloc] at hres
    cases hres
  refine ⟨fun h => ?_, e, he, hnone⟩
  obtain ⟨-, e', he', hall⟩ := h 1
  obtain rfl := Option.some.inj (he.symm.trans he')
  have hsome := hall .text
  rw [hnone .text] at hsome
  cases hsome

end Steps

end Preprocess

end Nslc
