import Nslc.Preprocess.IncludeSites
import Nslc.Preprocess.LineCount
/-!
# Preprocessor — files opened first and macros defined last

Along a run the records say from where each file was opened first, and
each macro's location was defined by the last step that defined it. So
what is reported leads up the include stack of the step that read the
text, as long as that step read it where its files were opened first.
-/

namespace Nslc

namespace Preprocess

variable {env : Env} {s t : State} {f : Frame} {fs : List Frame} {l : Line}

/-! ## The records along a run -/

theorem sitesAfter_of_le {sites : IncludeSites} {sm sm' : SourceManager}
    (h : sm'.includeStack.length ≤ sm.includeStack.length) : sitesAfter sites sm sm' = sites := by
  unfold sitesAfter
  split
  · rfl
  · rename_i hst
    rw [hst] at h
    rw [hst, if_neg (by omega)]

theorem sitesAfter_of_push {sites : IncludeSites} {sm sm' : SourceManager} {loc : SourceLocation}
    {inner : FileID} (h : sm'.includeStack = (loc, inner) :: sm.includeStack) :
    sitesAfter sites sm sm' = sites.record loc inner := by
  simp [sitesAfter, h]

theorem sites_mono {sites : IncludeSites} {sm sm' : SourceManager} {g : FileID}
    {loc : SourceLocation} (h : sites g = some loc) : sitesAfter sites sm sm' g = some loc := by
  unfold sitesAfter
  cases sm'.includeStack with
  | nil => exact h
  | cons e es =>
    simp only
    split_ifs
    · simp [IncludeSites.record, h]
    · exact h

section Runs

variable (env : Env) (path : Text) (start : State)

/-- Before step `k` the file `q` was opened, the first time from `loc`. -/
def FirstFrom (k : ℕ) (loc : SourceLocation) (q : Text) : Prop :=
  ∃ i < k, opened? env (runState env i start) = some (loc, q) ∧
    ∀ j < i, (opened? env (runState env j start)).map Prod.snd ≠ some q

instance (k : ℕ) (loc : SourceLocation) (q : Text) : Decidable (FirstFrom env start k loc q) :=
  inferInstanceAs (Decidable (∃ i < k, _ ∧ _))

/-- **What the records say** before step `k`. -/
structure Sited (k : ℕ) (sites : IncludeSites) : Prop where
  linked : Linked ((runState env k start).includeStack.map Frame.fid)
    (runState env k start).sm.includeStack
  nodup : (runState env k start).sm.paths.Nodup
  head : (runState env k start).sm.paths.head? = some path
  root : sites 1 = none
  down : ∀ (g : ℕ) loc, sites g = some loc →
    loc.file < g ∧ g ≤ (runState env k start).sm.buffers.length
  recorded : ∀ g : ℕ, Registered (runState env k start).sm g → g ≠ 1 → (sites g).isSome
  loaded : ∀ g : ℕ, Registered (runState env k start).sm g → g ≠ 1 → ∃ i < k,
    (opened? env (runState env i start)).map Prod.snd =
      some ((runState env k start).sm.getPath g)
  first : ∀ loc q, FirstFrom env start k loc q →
    ∃ g : ℕ, (runState env k start).sm.findFileIDByPath q = some g ∧ sites g = some loc

variable {env path start} {k : ℕ} {sites : IncludeSites}

theorem FirstFrom.of_succ {loc : SourceLocation} {q : Text}
    (h : FirstFrom env start (k + 1) loc q) :
    FirstFrom env start k loc q ∨ opened? env (runState env k start) = some (loc, q) ∧
      ∀ j < k, (opened? env (runState env j start)).map Prod.snd ≠ some q := by
  obtain ⟨i, hi, hopen, hfirst⟩ := h
  rcases Nat.lt_or_eq_of_le (Nat.le_of_lt_succ hi) with hlt | rfl
  · exact .inl ⟨i, hlt, hopen, hfirst⟩
  · exact .inr ⟨hopen, hfirst⟩

theorem registered_iff_of_paths {sm sm' : SourceManager} (h : sm'.paths = sm.paths) (g : ℕ) :
    Registered sm' g ↔ Registered sm g := by
  have hlen := congrArg List.length h
  rw [SourceManager.length_paths, SourceManager.length_paths] at hlen
  unfold Registered
  rw [hlen]

theorem prefix_of_eq {sm sm' : SourceManager} (h : sm'.paths = sm.paths) :
    sm.paths <+: sm'.paths := by
  rw [h]

/-- A step that registers nothing and opens nothing for the first time. -/
theorem Sited.keep (h : Sited env path start k sites)
    (hpaths : (runState env (k + 1) start).sm.paths = (runState env k start).sm.paths)
    (hlinked : Linked ((runState env (k + 1) start).includeStack.map Frame.fid)
      (runState env (k + 1) start).sm.includeStack)
    (hold : ∀ q, (opened? env (runState env k start)).map Prod.snd = some q →
      ∃ i < k, (opened? env (runState env i start)).map Prod.snd = some q) :
    Sited env path start (k + 1) sites := by
  have hlen := congrArg List.length hpaths
  rw [SourceManager.length_paths, SourceManager.length_paths] at hlen
  have hpre := prefix_of_eq hpaths
  refine ⟨hlinked, by rw [hpaths]; exact h.nodup, by rw [hpaths]; exact h.head, h.root, ?_, ?_, ?_,
    ?_⟩
  · intro g loc hg
    rw [hlen]
    exact h.down g loc hg
  · intro g hg
    exact h.recorded g ((registered_iff_of_paths hpaths g).1 hg)
  · intro g hg hne
    have hg' := (registered_iff_of_paths hpaths g).1 hg
    obtain ⟨i, hi, hopen⟩ := h.loaded g hg' hne
    refine ⟨i, Nat.lt_succ_of_lt hi, ?_⟩
    rw [SourceManager.getPath_of_grown hpre hg'.1 hg'.2]
    exact hopen
  · intro loc q hfirst
    have hbefore : FirstFrom env start k loc q := by
      rcases hfirst.of_succ with hfirst | ⟨hopen, hno⟩
      · exact hfirst
      · obtain ⟨i, hi, hi'⟩ := hold q (by rw [hopen]; rfl)
        exact absurd hi' (hno i hi)
    obtain ⟨g, hg, hsite⟩ := h.first loc q hbefore
    exact ⟨g, SourceManager.find_of_grown hpre hg, hsite⟩

theorem Sited.getPath_root (h : Sited env path start k sites) :
    (runState env k start).sm.getPath 1 = path := by
  have hhead := h.head
  rw [SourceManager.getPath_eq _ Nat.one_pos, List.head?_eq_getElem?] at *
  rw [hhead]
  rfl

theorem Sited.registered_root (h : Sited env path start k sites) :
    Registered (runState env k start).sm 1 := by
  refine ⟨Nat.one_pos, ?_⟩
  rw [← SourceManager.length_paths]
  have hne : (runState env k start).sm.paths ≠ [] := by
    intro hnil
    have := h.head
    rw [hnil] at this
    cases this
  exact List.length_pos_of_ne_nil hne

/-- A step that registers the file it opens. -/
theorem Sited.open (h : Sited env path start k sites) {loc : SourceLocation} {q : Text}
    (hopen : opened? env (runState env k start) = some (loc, q))
    (hnew : (runState env k start).sm.findFileIDByPath q = none)
    (hreg : Registered (runState env k start).sm loc.file)
    (hpaths : (runState env (k + 1) start).sm.paths = (runState env k start).sm.paths ++ [q])
    (hlinked : Linked ((runState env (k + 1) start).includeStack.map Frame.fid)
      (runState env (k + 1) start).sm.includeStack) :
    Sited env path start (k + 1)
      (sites.record loc ((runState env k start).sm.buffers.length + 1)) := by
  have hlen := congrArg List.length hpaths
  simp only [List.length_append, SourceManager.length_paths, List.length_singleton] at hlen
  have hpre : (runState env k start).sm.paths <+: (runState env (k + 1) start).sm.paths :=
    ⟨[q], hpaths.symm⟩
  -- nothing is recorded yet for the number that is given out
  have hnone : sites ((runState env k start).sm.buffers.length + 1) = none := by
    cases hs : sites ((runState env k start).sm.buffers.length + 1) with
    | none => rfl
    | some l =>
      have := (h.down _ l hs).2
      omega
  have hrec : ∀ g : ℕ, sites.record loc ((runState env k start).sm.buffers.length + 1) g =
      if g = (runState env k start).sm.buffers.length + 1 then some loc else sites g := by
    intro g
    unfold IncludeSites.record
    by_cases hg : g = (runState env k start).sm.buffers.length + 1
    · rw [if_pos hg, if_pos ⟨hg, Nat.succ_ne_zero _⟩, hg, hnone]
      rfl
    · rw [if_neg hg, if_neg fun hc => hg hc.1]
  have hlast : (runState env (k + 1) start).sm.getPath
      ((runState env k start).sm.buffers.length + 1) = q := by
    rw [SourceManager.getPath_eq _ (Nat.succ_pos _), hpaths]
    simp [← SourceManager.length_paths]
  have hcases : ∀ g : ℕ, Registered (runState env (k + 1) start).sm g →
      g = (runState env k start).sm.buffers.length + 1 ∨
        g ≠ (runState env k start).sm.buffers.length + 1 ∧
          Registered (runState env k start).sm g := by
    rintro g ⟨hpos, hle⟩
    by_cases hg : g = (runState env k start).sm.buffers.length + 1
    · exact .inl hg
    · exact .inr ⟨hg, hpos, by omega⟩
  have hnodup : (runState env (k + 1) start).sm.paths.Nodup := by
    rw [hpaths]
    rw [← List.concat_eq_append]
    exact h.nodup.concat (SourceManager.find_eq_none_iff.1 hnew)
  refine ⟨hlinked, hnodup, ?_, ?_, ?_, ?_, ?_, ?_⟩
  · rw [hpaths, List.head?_append, h.head]
    rfl
  · have hroot := h.registered_root
    rw [hrec, if_neg (Nat.ne_of_lt (Nat.lt_succ_of_le hroot.2))]
    exact h.root
  · intro g l hg
    rw [hrec] at hg
    split_ifs at hg with heq
    · obtain rfl := Option.some.inj hg
      refine ⟨?_, by omega⟩
      rw [heq]
      exact Nat.lt_succ_of_le hreg.2
    · obtain ⟨hlt, hle⟩ := h.down g l hg
      exact ⟨hlt, by omega⟩
  · intro g hg hne
    rw [hrec]
    rcases hcases g hg with heq | ⟨hneq, hg'⟩
    · rw [if_pos heq]
      rfl
    · rw [if_neg hneq]
      exact h.recorded g hg' hne
  · intro g hg hne
    rcases hcases g hg with rfl | ⟨-, hg'⟩
    · exact ⟨k, Nat.lt_succ_self k, by rw [hopen, hlast]; rfl⟩
    · obtain ⟨i, hi, hi'⟩ := h.loaded g hg' hne
      refine ⟨i, Nat.lt_succ_of_lt hi, ?_⟩
      rw [SourceManager.getPath_of_grown hpre hg'.1 hg'.2]
      exact hi'
  · intro l p hfirst
    rcases hfirst.of_succ with hfirst | ⟨hopen', -⟩
    · obtain ⟨g, hg, hsite⟩ := h.first l p hfirst
      refine ⟨g, SourceManager.find_of_grown hpre hg, ?_⟩
      have := (h.down g l hsite).2
      rw [hrec, if_neg (by omega)]
      exact hsite
    · rw [hopen] at hopen'
      obtain ⟨rfl, rfl⟩ := Prod.mk.inj (Option.some.inj hopen')
      refine ⟨(runState env k start).sm.buffers.length + 1, ?_, by rw [hrec, if_pos rfl]⟩
      rw [← hlast]
      exact SourceManager.find_getPath hnodup (Nat.succ_pos _) (by omega)

/-- **One step keeps the records**, the root file not being opened
again. -/
theorem Sited.succ (h : Sited env path start k sites) (hstack : Stacked (runState env k start))
    (hroot : (opened? env (runState env k start)).map Prod.snd ≠ some path)
    (hab : (runState env (k + 1) start).aborted = none)
    (herr : hasError (runState env (k + 1) start).diags = false) :
    Sited env path start (k + 1) (sitesAfter sites (runState env k start).sm
      (runState env (k + 1) start).sm) := by
  cases hs : step env (runState env k start) with
  | none =>
    have hsame : runState env (k + 1) start = runState env k start := by
      rw [runState_succ, hs]
      rfl
    have hst : (runState env k start).includeStack = [] := by
      rcases step_eq_none_iff.1 hs with hne | hst
      · rw [hsame] at hab
        exact absurd hab hne
      · exact hst
    rw [sitesAfter_of_le (by rw [hsame])]
    refine h.keep (by rw [hsame]) (by rw [hsame]; exact h.linked) ?_
    intro q hq
    simp [opened?, lineRead?, hst] at hq
  | some t =>
    have hnext : runState env (k + 1) start = t := by
      rw [runState_succ, hs]
      rfl
    rw [hnext] at hab herr
    rcases step_files hstack h.linked hs hab herr with ⟨hno, hkeep⟩ | ⟨loc, q, inner, hopen, hfile⟩
    · have hlinked : Linked ((runState env (k + 1) start).includeStack.map Frame.fid)
          (runState env (k + 1) start).sm.includeStack := by
        rw [hnext]
        rcases hkeep.stack with ⟨hfids, hinc⟩ | ⟨hfids, hinc⟩
        · rw [hfids, hinc]
          exact h.linked
        · rw [hfids, hinc]
          exact h.linked.pop
      have hle : t.sm.includeStack.length ≤ (runState env k start).sm.includeStack.length := by
        rcases hkeep.stack with ⟨-, hinc⟩ | ⟨-, hinc⟩
        · rw [hinc]
        · rw [hinc, List.length_tail]
          omega
      rw [sitesAfter_of_le (by rw [hnext]; exact hle)]
      refine h.keep (by rw [hnext]; exact hkeep.paths) hlinked ?_
      intro q hq
      rw [hno] at hq
      exact absurd hq (by simp)
    · obtain ⟨rest, hrest⟩ := hfile.outer
      have hlinked : Linked ((runState env (k + 1) start).includeStack.map Frame.fid)
          (runState env (k + 1) start).sm.includeStack := by
        have := h.linked
        rw [hrest] at this
        rw [hnext, hfile.fids, hfile.stack, hrest]
        exact .opened rfl this
      rw [hnext, sitesAfter_of_push hfile.stack]
      rcases hfile.registered with ⟨hpaths, hfind⟩ | ⟨hnone, hpaths, rfl⟩
      · -- the file was opened before, and its record stays
        obtain ⟨hpos, hle, hpath⟩ := SourceManager.find_some hfind
        have hne : inner ≠ 1 := by
          rintro rfl
          rw [h.getPath_root] at hpath
          exact hroot (by rw [hopen, hpath]; rfl)
        obtain ⟨l, hl⟩ := Option.isSome_iff_exists.1 (h.recorded inner ⟨hpos, hle⟩ hne)
        have hsame : sites.record loc inner = sites := by
          funext g
          unfold IncludeSites.record
          split_ifs with hg
          · rw [hg.1, hl]
            rfl
          · rfl
        rw [hsame]
        refine h.keep (by rw [hnext]; exact hpaths) hlinked ?_
        intro p hp
        rw [hopen] at hp
        obtain rfl : q = p := Option.some.inj hp
        rw [← hpath]
        exact h.loaded inner ⟨hpos, hle⟩ hne
      · have hreg : Registered (runState env k start).sm loc.file := by
          have hmem : loc.file ∈ (runState env k start).includeStack.map Frame.fid := by
            rw [hrest]
            exact List.mem_cons_self ..
          obtain ⟨f, hf, hfid⟩ := List.mem_map.1 hmem
          rw [← hfid]
          exact hstack.registered f hf
        exact h.open hopen hnone hreg (by rw [hnext]; exact hpaths) hlinked

theorem sited_initial (path : Text) (input : SourceText) (predefined : List (Text × Text)) :
    Sited env path (initial path input predefined) 0 fun _ => none where
  linked := .root
  nodup := List.nodup_singleton path
  head := rfl
  root := rfl
  down := by simp
  recorded := by
    rintro g ⟨hpos, hle⟩ hne
    have : g ≤ 1 := hle
    exact absurd (by omega) hne
  loaded := by
    rintro g ⟨hpos, hle⟩ hne
    have : g ≤ 1 := hle
    exact absurd (by omega) hne
  first := by
    rintro loc q ⟨i, hi, -⟩
    exact absurd hi (Nat.not_lt_zero i)

end Runs

/-! ## Macros and the steps that defined them -/

/-- A macro behind a line was there before and is not defined by it, or is
the one it defines. -/
theorem origin_macros_stepLine (hst : s.includeStack = f :: fs)
    (hr : readLine (s.sm.getBuffer f.fid) f.cursor = some l) :
    ∀ m ∈ (stepLine env s f fs l).macros,
      m ∈ s.macros ∧ (defined? s).map Prod.fst ≠ some m.name ∨
        defined? s = some (m.name, f.loc) ∧ m.definingLoc = some f.loc := by
  intro m hm
  have hread := lineRead?_of_line hst hr
  have hold : (∀ name body, lineDirective l ≠ .define name body) → m ∈ s.macros := by
    intro hne
    rcases macros_stepLine env s f fs l with h | ⟨name, body, hd, -⟩ | ⟨name, h⟩
    · exact h ▸ hm
    · exact absurd hd (hne name body)
    · rw [h] at hm
      exact List.mem_of_mem_filter hm
  simp only [defined?, hread, Option.bind_some]
  cases hd : lineDirective l with
  | define name body =>
    unfold stepLine dispatch at hm
    simp only [hd, handleDefine] at hm ⊢
    by_cases he : isEmitting f.condStack = true
    · rw [if_pos he] at hm ⊢
      by_cases hname : name = []
      · rw [if_pos hname] at hm ⊢
        exact .inl ⟨hm, by simp⟩
      · rw [if_neg hname] at hm ⊢
        have hmem : m ∈ s.macros.redefine name body (some f.loc) := by
          split at hm <;> exact hm
        rcases mem_redefine hmem with rfl | ⟨hold, hne⟩
        · exact .inr ⟨rfl, rfl⟩
        · exact .inl ⟨hold, fun hc => hne (Option.some.inj hc).symm⟩
    · rw [if_neg he] at hm ⊢
      exact .inl ⟨hm, by simp⟩
  | _ => exact .inl ⟨hold (by simp [hd]), by simp⟩

theorem macros_stepEof : (stepEof s f fs).macros = s.macros := by
  unfold stepEof
  cases fs with
  | nil => rfl
  | cons outer fs =>
    simp only
    split <;> rfl

/-! ## Where a report's text was read -/

/-- What a conditional reports is on its line. -/
theorem onLine_condStep {E : PPExpression} {macros : MacroTable} {loc : SourceLocation}
    (d : ParsedDirective) (st : List CondFrame) :
    ∀ e ∈ (condStep E macros loc d st).2, ∀ l, e.loc = some l → OnLine loc l := by
  intro e he
  have hone : ∀ m : Message, e ∈ [(⟨.error, some loc, m, none⟩ : Diag)] →
      ∀ l, e.loc = some l → OnLine loc l := by
    intro m hm l hl
    rw [List.mem_singleton.1 hm] at hl
    obtain rfl := Option.some.inj hl
    exact ⟨rfl, rfl⟩
  have hifdef : ∀ name negate, e ∈ (handleIfdef macros name negate loc st).2 →
      ∀ l, e.loc = some l → OnLine loc l := by
    intro name negate hmem
    by_cases hname : name = []
    · rw [handleIfdef, if_pos hname] at hmem
      exact hone _ hmem
    · rw [handleIfdef, if_neg hname] at hmem
      simp at hmem
  cases d with
  | ifdef name => exact hifdef _ _ he
  | ifndef name => exact hifdef _ _ he
  | ifExpr x =>
    intro l hl
    obtain ⟨f, -, rfl⟩ := List.mem_map.1 he
    simp only [Finding.diag, locAt, Option.map_some, Option.some.injEq] at hl
    rw [← hl]
    exact ⟨rfl, rfl⟩
  | els =>
    simp only [condStep, handleElse] at he
    split at he
    · exact hone _ he
    · split_ifs at he <;> simp at he
  | endif =>
    simp only [condStep, handleEndif] at he
    split at he
    · exact hone _ he
    · simp at he
  | _ => simp [condStep] at he

/-- **Every report of a line** is on the line, or on the definition of a
macro. -/
theorem located_stepLine (env : Env) (s : State) (f : Frame) (fs : List Frame) (l : Line) :
    ∃ ds, (stepLine env s f fs l).diags = s.diags ++ ds ∧
    ∀ d ∈ ds, ∀ loc, d.loc = some loc →
      OnLine f.loc loc ∨ ∃ m ∈ s.macros, ∃ dl, m.definingLoc = some dl ∧ OnLine dl loc := by
  obtain ⟨ds, hall, hds⟩ := stepLine_diags env s f fs l
  refine ⟨_, by rw [hds, List.append_assoc], ?_⟩
  intro d hd loc hloc
  rcases List.mem_append.1 hd with hd | hd
  · exact (hall d hd).located loc hloc
  · exact .inl (onLine_condStep _ _ d hd loc hloc)

section Runs

variable (env : Env) (start : State)

/-- The include sites of the text that is read now, innermost first. -/
def State.openSites (s : State) : List SourceLocation := s.sm.includeStack.map Prod.fst

/-- The text at `l`, which step `k` reports on, was read by step `j`: by
step `k` itself, or as the body of a macro by the last step that defined
it. -/
inductive Origin (k : ℕ) (l : SourceLocation) : ℕ → Prop
  | line {r : Frame × Line} :
      lineRead? (runState env k start) = some r → OnLine r.1.loc l → Origin k l k
  | body {j : ℕ} {m : MacroDef} {dl : SourceLocation} :
      m ∈ (runState env k start).macros → m.definingLoc = some dl → OnLine dl l → j < k →
      defined? (runState env j start) = some (m.name, dl) →
      (∀ i, j < i → i < k → (defined? (runState env i start)).map Prod.fst ≠ some m.name) →
      Origin k l j

/-- The reports of step `k`. -/
def reportsOf (k : ℕ) : List Diag :=
  (runState env (k + 1) start).diags.drop (runState env k start).diags.length

/-- Text that can be reported on is read: text that is copied, the body of
a macro, or what the step reports on itself. -/
def speaks (k : ℕ) : Bool :=
  (lineRead? (runState env k start)).any fun r =>
    isEmitting r.1.condStack &&
        (match lineDirective r.2 with
        | .passthrough | .define _ _ => true
        | _ => false) ||
      decide (reportsOf env start k ≠ [])

end Runs

section Runs

variable {path : Text} {start : State} {k : ℕ} {sites : IncludeSites}

/-! ## The engine beside the records -/

/-- A step that goes well reports on the line it reads and on macros. -/
theorem located_reportsOf (herr : hasError (runState env (k + 1) start).diags = false)
    {d : Diag} (hd : d ∈ reportsOf env start k) :
    ∃ r, lineRead? (runState env k start) = some r ∧ ∀ loc, d.loc = some loc →
      OnLine r.1.loc loc ∨ ∃ m ∈ (runState env k start).macros, ∃ dl,
        m.definingLoc = some dl ∧ OnLine dl loc := by
  have hnone : (runState env (k + 1) start).diags = (runState env k start).diags → False := by
    intro hsame
    rw [reportsOf, hsame, List.drop_length] at hd
    cases hd
  cases hs : step env (runState env k start) with
  | none => exact (hnone (by rw [runState_succ, hs]; rfl)).elim
  | some t =>
    have hnext : runState env (k + 1) start = t := by
      rw [runState_succ, hs]
      rfl
    obtain ⟨f, fs, -, hst, ⟨hr, rfl⟩ | ⟨l, hr, rfl⟩⟩ := step_cases hs
    · -- open conditionals at the end of a file are errors
      refine (hnone ?_).elim
      have hdiags : (stepEof (runState env k start) f fs).diags =
          (runState env k start).diags ++ f.condStack.reverse.map fun cf =>
            ⟨.error, some cf.openerLoc, .unterminatedIf, none⟩ := by
        unfold stepEof
        cases fs with
        | nil => rfl
        | cons outer fs =>
          simp only
          split <;> rfl
      rw [hnext, hdiags] at herr ⊢
      cases hcond : f.condStack.reverse with
      | nil => simp
      | cons cf cfs =>
        rw [hcond] at herr
        simp [hasError] at herr
    · obtain ⟨ds, hds, hall⟩ := located_stepLine env (runState env k start) f fs l
      rw [reportsOf, hnext, hds, List.drop_left] at hd
      exact ⟨(f, l), lineRead?_of_line hst hr, hall d hd⟩

/-- The files open are open by the directives recorded for them, where
each is open by the directive that opened it first. -/
theorem Sited.agrees (h : Sited env path start k sites) (hstack : Stacked (runState env k start))
    (hfirst : ∀ e ∈ (runState env k start).sm.includeStack,
      FirstFrom env start k e.1 ((runState env k start).sm.getPath e.2)) :
    ∀ e ∈ (runState env k start).sm.includeStack, sites e.2 = some e.1 := by
  intro e he
  have hmem : e.2 ∈ (runState env k start).includeStack.dropLast.map Frame.fid := by
    rw [← hstack.lockstep]
    exact List.mem_map_of_mem he
  obtain ⟨f, hf, hfid⟩ := List.mem_map.1 hmem
  obtain ⟨hpos, hle⟩ := hstack.registered f (List.mem_of_mem_dropLast hf)
  rw [hfid] at hpos hle
  obtain ⟨g, hg, hsite⟩ := h.first e.1 _ (hfirst e he)
  rw [SourceManager.find_getPath h.nodup hpos hle] at hg
  obtain rfl := Option.some.inj hg
  exact hsite

/-- Then the records lead up the include stack. -/
theorem Sited.chain (h : Sited env path start k sites)
    (hagree : ∀ e ∈ (runState env k start).sm.includeStack, sites e.2 = some e.1) {f : Frame}
    {fs : List Frame} (hst : (runState env k start).includeStack = f :: fs) :
    Chain sites f.fid (runState env k start).openSites :=
  h.linked.chain h.root hagree f.fid (fs.map Frame.fid) (by rw [hst]; rfl)

/-- Registered paths stay. -/
theorem Sited.paths_grow (h : Sited env path start k sites)
    (hstack : Stacked (runState env k start))
    (hab : (runState env (k + 1) start).aborted = none)
    (herr : hasError (runState env (k + 1) start).diags = false) :
    (runState env k start).sm.paths <+: (runState env (k + 1) start).sm.paths := by
  cases hs : step env (runState env k start) with
  | none =>
    rw [runState_succ, hs]
    exact List.prefix_rfl
  | some t =>
    rw [runState_succ, hs, Option.getD_some] at hab herr ⊢
    rcases step_files hstack h.linked hs hab herr with ⟨-, hkeep⟩ | ⟨loc, q, inner, -, hfile⟩
    · exact prefix_of_eq hkeep.paths
    · rcases hfile.registered with ⟨hpaths, -⟩ | ⟨-, hpaths, -⟩
      · exact prefix_of_eq hpaths
      · exact ⟨[q], hpaths.symm⟩

theorem registered_of_grown {sm sm' : SourceManager} (h : sm.paths <+: sm'.paths) {g : ℕ}
    (hg : Registered sm g) : Registered sm' g := by
  have hlen := h.length_le
  rw [SourceManager.length_paths, SourceManager.length_paths] at hlen
  exact ⟨hg.1, Nat.le_trans hg.2 hlen⟩

variable (env path start) in
/-- **What is remembered** before step `k`: where each file was opened
first, and where each macro was defined last. -/
structure Remembered (k : ℕ) (e : Engine) : Prop where
  engine : engineAt env start k = some e
  sited : Sited env path start k e.sites
  macros : ∀ m ∈ (runState env k start).macros, ∀ dl, m.definingLoc = some dl →
    Registered (runState env k start).sm dl.file ∧ ∃ j < k,
      defined? (runState env j start) = some (m.name, dl) ∧
      (∀ i, j < i → i < k → (defined? (runState env i start)).map Prod.fst ≠ some m.name) ∧
      Chain e.sites dl.file (runState env j start).openSites

theorem speaks_of_defined {name : Text} {loc : SourceLocation}
    (h : defined? (runState env k start) = some (name, loc)) : speaks env start k = true := by
  obtain ⟨r, hr, hdef⟩ := Option.bind_eq_some_iff.1 h
  rw [speaks, hr, Option.any_some]
  split_ifs at hdef with he
  split at hdef
  · rename_i hd
    simp [he, hd]
  · cases hdef

theorem lineRead?_registered (hstack : Stacked (runState env k start)) {r : Frame × Line}
    (hr : lineRead? (runState env k start) = some r) :
    Registered (runState env k start).sm r.1.fid := by
  obtain ⟨fs, hst, -⟩ := lineRead?_eq_some hr
  exact hstack.registered r.1 (by simp [hst])

/-- **One step** whose text was first included where it is read now. -/
theorem Remembered.succ {e : Engine} (h : Remembered env path start k e)
    (hstack : Stacked (runState env k start))
    (hroot : (opened? env (runState env k start)).map Prod.snd ≠ some path)
    (hfirst : speaks env start k = true → ∀ e ∈ (runState env k start).sm.includeStack,
      FirstFrom env start k e.1 ((runState env k start).sm.getPath e.2))
    (hab : (runState env (k + 1) start).aborted = none)
    (herr : hasError (runState env (k + 1) start).diags = false) :
    ∃ e', Remembered env path start (k + 1) e' ∧
      ∀ g loc, e.sites g = some loc → e'.sites g = some loc := by
  have hsited := h.sited.succ hstack hroot hab herr
  have hpre := h.sited.paths_grow hstack hab herr
  have hloc : ∀ d ∈ reportsOf env start k, ∀ loc, d.loc = some loc →
      ((runState env k start).sm.buffer? loc.file).isSome := by
    intro d hd loc hloc
    obtain ⟨r, hr, hall⟩ := located_reportsOf herr hd
    refine isSome_buffer?_iff.2 ?_
    rcases hall loc hloc with ⟨hfile, -⟩ | ⟨m, hm, dl, hdl, hfile, -⟩
    · rw [hfile]
      exact lineRead?_registered hstack hr
    · rw [hfile]
      exact (h.macros m hm dl hdl).1
  obtain ⟨es, hes, -, -⟩ := exists_reports e.sites hloc
  have hmono : ∀ g loc, e.sites g = some loc → sitesAfter e.sites (runState env k start).sm
      (runState env (k + 1) start).sm g = some loc := fun g loc => sites_mono
  have hafter : e.after (runState env k start) (runState env (k + 1) start) =
      some ⟨sitesAfter e.sites (runState env k start).sm (runState env (k + 1) start).sm,
        e.entries ++ es⟩ := by
    simp only [reportsOf] at hes
    rw [Engine.after, hes, Option.map_some]
  refine ⟨_, ⟨by rw [engineAt, h.engine]; exact hafter, hsited, ?_⟩, hmono⟩
  -- a macro that was there before the step and is not defined by it
  have hold : ∀ m ∈ (runState env k start).macros,
      (defined? (runState env k start)).map Prod.fst ≠ some m.name →
      ∀ dl, m.definingLoc = some dl → Registered (runState env (k + 1) start).sm dl.file ∧
        ∃ j < k + 1, defined? (runState env j start) = some (m.name, dl) ∧
          (∀ i, j < i → i < k + 1 →
            (defined? (runState env i start)).map Prod.fst ≠ some m.name) ∧
          Chain (sitesAfter e.sites (runState env k start).sm (runState env (k + 1) start).sm)
            dl.file (runState env j start).openSites := by
    intro m hm hne dl hdl
    obtain ⟨hreg, j, hj, hdef, hlast, hchain⟩ := h.macros m hm dl hdl
    refine ⟨registered_of_grown hpre hreg, j, Nat.lt_succ_of_lt hj, hdef, ?_,
      hchain.mono hmono hsited.root⟩
    intro i hji hik
    rcases Nat.lt_or_eq_of_le (Nat.le_of_lt_succ hik) with hlt | rfl
    · exact hlast i hji hlt
    · exact hne
  intro m hm dl hdl
  cases hs : step env (runState env k start) with
  | none =>
    have hsame : runState env (k + 1) start = runState env k start := by
      rw [runState_succ, hs]
      rfl
    have hst : (runState env k start).includeStack = [] := by
      rcases step_eq_none_iff.1 hs with hne | hst
      · rw [hsame] at hab
        exact absurd hab hne
      · exact hst
    refine hold m (hsame ▸ hm) ?_ dl hdl
    simp [defined?, lineRead?, hst]
  | some t =>
    have hnext : runState env (k + 1) start = t := by
      rw [runState_succ, hs]
      rfl
    obtain ⟨f, fs, -, hst, ⟨hr, rfl⟩ | ⟨l, hr, rfl⟩⟩ := step_cases hs
    · rw [hnext, macros_stepEof] at hm
      refine hold m hm ?_ dl hdl
      simp [defined?, lineRead?_of_eof hst hr]
    · rw [hnext] at hm
      rcases origin_macros_stepLine hst hr m hm with ⟨hm', hne⟩ | ⟨hdef, hloc'⟩
      · exact hold m hm' hne dl hdl
      · obtain rfl := Option.some.inj (hloc'.symm.trans hdl)
        have hchain := h.sited.chain
          (h.sited.agrees hstack (hfirst (speaks_of_defined hdef))) hst
        refine ⟨registered_of_grown hpre (hstack.registered f (by simp [hst])), k,
          Nat.lt_succ_self k, hdef, ?_, hchain.mono hmono hsited.root⟩
        intro i hki hik
        exact absurd hki (by omega)

/-- The macro at a location was defined by one step only. -/
theorem Remembered.origin_chain {e : Engine} (h : Remembered env path start k e)
    (hstack : Stacked (runState env k start))
    (hfirst : ∀ e ∈ (runState env k start).sm.includeStack,
      FirstFrom env start k e.1 ((runState env k start).sm.getPath e.2)) {loc : SourceLocation}
    {j : ℕ} (horigin : Origin env start k loc j) :
    Registered (runState env k start).sm loc.file ∧
      Chain e.sites loc.file (runState env j start).openSites := by
  cases horigin with
  | @line r hr hline =>
    obtain ⟨fs, hst, -⟩ := lineRead?_eq_some hr
    rw [hline.1]
    exact ⟨lineRead?_registered hstack hr, h.sited.chain (h.sited.agrees hstack hfirst) hst⟩
  | @body j m dl hm hdl hline hj hdef hlast =>
    rw [hline.1]
    obtain ⟨hreg, i, hi, hdef', hlast', hchain⟩ := h.macros m hm dl hdl
    refine ⟨hreg, ?_⟩
    rcases Nat.lt_trichotomy i j with hlt | rfl | hgt
    · exact absurd (by rw [hdef]; rfl) (hlast' j hlt hj)
    · exact hchain
    · exact absurd (by rw [hdef']; rfl) (hlast i hgt hi)

theorem Remembered.exists_origin {e : Engine} (h : Remembered env path start k e)
    (herr : hasError (runState env (k + 1) start).diags = false) {d : Diag}
    (hd : d ∈ reportsOf env start k) {loc : SourceLocation} (hloc : d.loc = some loc) :
    ∃ j, Origin env start k loc j := by
  obtain ⟨r, hr, hall⟩ := located_reportsOf herr hd
  rcases hall loc hloc with hline | ⟨m, hm, dl, hdl, hline⟩
  · exact ⟨k, .line hr hline⟩
  · obtain ⟨-, j, hj, hdef, hlast, -⟩ := h.macros m hm dl hdl
    exact ⟨j, .body hm hdl hline hj hdef hlast⟩

theorem speaks_of_report (herr : hasError (runState env (k + 1) start).diags = false) {d : Diag}
    (hd : d ∈ reportsOf env start k) : speaks env start k = true := by
  obtain ⟨r, hr, -⟩ := located_reportsOf herr hd
  have hne : reportsOf env start k ≠ [] := List.ne_nil_of_mem hd
  simp [speaks, hr, hne]

theorem remembered_initial (path : Text) (input : SourceText) (predefined : List (Text × Text)) :
    Remembered env path (initial path input predefined) 0 ⟨fun _ => none, []⟩ where
  engine := rfl
  sited := sited_initial path input predefined
  macros := by
    intro m hm dl hdl
    have hnone := definingLoc_initial m hm
    rw [hnone] at hdl
    cases hdl

end Runs

end Preprocess

end Nslc
