import Nslc.Driver.FileNames
/-!
# Driver — the include notes of a report

A report carries the include sites of the text it is on as long as that
text is read where its file was first included, no `#line` gives it
another file's name, and the markers of the output are read where they
stand. The records keep the first include of a file only: text included
again is reported with the sites of the first time.
-/

namespace Nslc

namespace Driver

open Preprocess

/-! ## Reports on the preprocessed text -/

/-- The preprocessed text registered under `label` behind the files, its
markers replayed. -/
def registerSynth (sm : SourceManager) (label out : Text) : Option (SourceManager × FileID) :=
  match sm.addBufferInMemory label out with
  | none => none
  | some (sm, fid) => (replayLines sm fid 0 (splitLines out)).map fun sm => (sm, fid)

theorem registerSynth_some {sm sm' : SourceManager} {label out : Text} {fid : FileID}
    (h : registerSynth sm label out = some (sm', fid)) :
    sm'.buffers = sm.buffers ++ [⟨label, out, markersFrom 0 (splitLines out)⟩] ∧
      fid = sm.buffers.length + 1 := by
  unfold registerSynth SourceManager.addBufferInMemory at h
  split_ifs at h with hroom
  simp only at h
  obtain ⟨sm'', hlines, heq⟩ := Option.map_eq_some_iff.1 h
  obtain ⟨rfl, rfl⟩ := Prod.mk.inj heq
  rw [replayLines_some 0 [] hlines]
  exact ⟨rfl, rfl⟩

/-- **The notes tell the true include sites**: of what is reported while
the run goes on, and of whatever is reported later on a line that was
copied. -/
structure IncludeNotesTrue (env : Env) (label : Text) (start : State) (n : ℕ) : Prop where
  during : ∀ k < n, ∃ e, engineAt env start k = some e ∧
    ∀ d ∈ reportsOf env start k, d.severity ≠ .note → ∀ l, d.loc = some l →
      (∃ j, Origin env start k l j) ∧ ∀ j, Origin env start k l j →
        report (runState env k start).sm e.sites d =
          some ⟨d, (runState env j start).openSites⟩
  behind : ∃ e, engineAt env start n = some e ∧
    ∀ sm fid, registerSynth (runState env n start).sm label (runState env n start).output =
        some (sm, fid) →
      ∀ k < n, CopiesLine (runState env k start) → ∀ {μ : Type} (d : Diagnostic μ) l,
        d.severity ≠ .note → d.loc = some l → l.file = fid →
        (runState env k start).output.length ≤ sm.offsetOf l →
        sm.offsetOf l < (runState env (k + 1) start).output.length →
        report sm e.sites d = some ⟨d, (runState env k start).openSites⟩

/-- What the `n` steps of a run have to keep to. -/
structure Traceable (env : Env) (path : Text) (start : State) (n : ℕ) : Prop where
  root : ∀ k < n, (opened? env (runState env k start)).map Prod.snd ≠ some path
  first : ∀ k < n, speaks env start k = true →
    ∀ e ∈ (runState env k start).sm.includeStack,
      FirstFrom env start k e.1 ((runState env k start).sm.getPath e.2)
  names : ∀ k < n, namesAt env (runState env n start).sm (runState env k start) = true

variable {env : Env} {fin : SourceManager} {label : Text} {s t : State} {f : Frame}
  {fs : List Frame} {l : Line}

/-! ## Along a successful run -/

section Runs

variable {path : Text} {input : SourceText} {predefined : List (Text × Text)} {n : ℕ}

variable (label) in
/-- The records and the names along a run that keeps to them. -/
theorem remembered_run (hrun : (runState env n (initial path input predefined)).succeeded = true)
    (htrace : Traceable env path (initial path input predefined) n) : ∀ k ≤ n,
    ∃ e, Remembered env path (initial path input predefined) k e ∧
      NamesInv (runState env n (initial path input predefined)).sm label
        (runState env k (initial path input predefined)) := by
  intro k
  induction k with
  | zero => exact fun _ => ⟨_, remembered_initial path input predefined,
      namesInv_initial path input predefined⟩
  | succ k ih =>
    intro hk
    obtain ⟨e, hrem, hinv⟩ := ih (by omega)
    obtain ⟨hab, herr⟩ := clean_of_succeeded hk hrun
    have hstack := stacked_run env path input predefined k
    obtain ⟨e', hrem', -⟩ := hrem.succ hstack (htrace.root k (by omega))
      (htrace.first k (by omega)) hab herr
    refine ⟨e', hrem', ?_⟩
    cases hs : step env (runState env k (initial path input predefined)) with
    | none =>
      rw [runState_succ, hs]
      exact hinv
    | some t =>
      rw [runState_succ, hs, Option.getD_some] at hab herr ⊢
      exact namesInv_step hstack hrem.sited.linked hinv (htrace.names k (by omega)) hs hab herr

/-- What was recorded stays so, and so do the paths. -/
theorem kept_run (hrun : (runState env n (initial path input predefined)).succeeded = true)
    (htrace : Traceable env path (initial path input predefined) n) {k : ℕ} (hk : k ≤ n)
    {e e' : Engine} (he : engineAt env (initial path input predefined) k = some e)
    (he' : engineAt env (initial path input predefined) n = some e') :
    (∀ g loc, e.sites g = some loc → e'.sites g = some loc) ∧
      (runState env k (initial path input predefined)).sm.paths <+:
        (runState env n (initial path input predefined)).sm.paths := by
  have hstep : ∀ m, k ≤ m → m ≤ n → ∀ e₁,
      engineAt env (initial path input predefined) m = some e₁ →
      (∀ g loc, e.sites g = some loc → e₁.sites g = some loc) ∧
        (runState env k (initial path input predefined)).sm.paths <+:
          (runState env m (initial path input predefined)).sm.paths := by
    intro m hkm
    induction m, hkm using Nat.le_induction with
    | base =>
      intro _ e₁ he₁
      obtain rfl := Option.some.inj (he.symm.trans he₁)
      exact ⟨fun _ _ h => h, List.prefix_rfl⟩
    | succ m hkm ih =>
      intro hm e₁ he₁
      rw [engineAt] at he₁
      obtain ⟨e₀, he₀, hafter⟩ := Option.bind_eq_some_iff.1 he₁
      obtain ⟨hmono, hpre⟩ := ih (by omega) e₀ he₀
      obtain ⟨es, -, rfl⟩ := Option.map_eq_some_iff.1 hafter
      obtain ⟨e₂, hrem, -⟩ := remembered_run path hrun htrace m (by omega)
      obtain ⟨hab, herr⟩ := clean_of_succeeded hm hrun
      exact ⟨fun g loc h => sites_mono (hmono g loc h),
        hpre.trans (hrem.sited.paths_grow (stacked_run env path input predefined m) hab herr)⟩
  exact hstep n hk (Nat.le_refl n) e' he'

end Runs

/-! ## What `report` answers -/

section Report

variable {μ : Type} {sm : SourceManager} {sites : IncludeSites} {d : Diagnostic μ}
  {l : SourceLocation} {ls : List SourceLocation}

/-- The notes are the chain of the file the name in force is found for,
and none where it is found for no file. -/
theorem report_eq {b : Buffer} (hsev : d.severity ≠ .note) (hloc : d.loc = some l)
    (hb : sm.buffer? l.file = some b)
    (hsome : ∀ g : ℕ, sm.findFileIDByPath (b.resolveVirtual (sm.offsetOf l)).1 = some g →
      sites.above (sm.buffers.length + 1) g = ls)
    (hnone : sm.findFileIDByPath (b.resolveVirtual (sm.offsetOf l)).1 = none → ls = []) :
    report sm sites d = some ⟨d, ls⟩ := by
  have hres : sm.resolve (some l) = some (b.resolveVirtual (sm.offsetOf l)) := by
    simp [SourceManager.resolve, SourceManager.resolveVirtual, hb]
  unfold report
  rw [if_pos ⟨hsev, by simp [hloc]⟩, hloc, hres, Option.map_some]
  cases hf : sm.findFileIDByPath (b.resolveVirtual (sm.offsetOf l)).1 with
  | none => simp [hnone hf]
  | some g => simp [hsome g hf]

end Report

section Runs

variable {path : Text} {input : SourceText} {predefined : List (Text × Text)} {n : ℕ}

/-- The reports of a step. -/
theorem report_during (hrun : (runState env n (initial path input predefined)).succeeded = true)
    (htrace : Traceable env path (initial path input predefined) n) {k : ℕ} (hk : k < n)
    {e : Engine} (hrem : Remembered env path (initial path input predefined) k e)
    (hinv : NamesInv (runState env n (initial path input predefined)).sm label
      (runState env k (initial path input predefined)))
    (hpre : (runState env k (initial path input predefined)).sm.paths <+:
      (runState env n (initial path input predefined)).sm.paths)
    {d : Diag} (hd : d ∈ reportsOf env (initial path input predefined) k)
    (hsev : d.severity ≠ .note) {l : SourceLocation} (hloc : d.loc = some l) {j : ℕ}
    (horigin : Origin env (initial path input predefined) k l j) :
    report (runState env k (initial path input predefined)).sm e.sites d =
      some ⟨d, (runState env j (initial path input predefined)).openSites⟩ := by
  obtain ⟨-, herr⟩ := clean_of_succeeded (show k + 1 ≤ n from hk) hrun
  have hstack := stacked_run env path input predefined k
  obtain ⟨hreg, hchain⟩ := hrem.origin_chain hstack
    (htrace.first k hk (speaks_of_report herr hd)) horigin
  obtain ⟨b, hb⟩ := buffer?_of_registered hreg
  have hdown := fun g loc h => (hrem.sited.down g loc h).1
  have habove := hchain.above_eq hdown _ (Nat.lt_succ_of_le hreg.2)
  have hown := SourceManager.find_getPath hrem.sited.nodup hreg.1 hreg.2
  rw [getPath_of_buffer? hb] at hown
  rcases hinv.path_eq hb ((runState env k (initial path input predefined)).sm.offsetOf l) with
    hname | ⟨hone, hfree⟩
  · refine report_eq hsev hloc hb ?_ ?_
    · intro g hg
      rw [hname, hown] at hg
      obtain rfl := Option.some.inj hg
      exact habove
    · intro hnone
      rw [hname, hown] at hnone
      cases hnone
  · have hnone := SourceManager.find_none_of_grown hpre hfree
    refine report_eq hsev hloc hb ?_ ?_
    · intro g hg
      rw [hnone] at hg
      cases hg
    · intro _
      rw [hone] at hchain
      exact hchain.eq_nil hrem.sited.root

/-- What the file of a name says about the sites above it: those of file
`f`, or for a name of the root file none. -/
theorem above_of_standsFor {e : Engine} {f : ℕ} {ls : List SourceLocation} {q : Text}
    {sm : SourceManager}
    (hrem : Remembered env path (initial path input predefined) n e)
    (hbuf : sm.paths = (runState env n (initial path input predefined)).sm.paths ++ [label])
    (hlabel : label = path ∨
      (runState env n (initial path input predefined)).sm.findFileIDByPath label = none)
    (hreg : Registered (runState env n (initial path input predefined)).sm f)
    (hchain : Chain e.sites f ls)
    (hstands : StandsFor (runState env n (initial path input predefined)).sm label
      (runState env n (initial path input predefined)).sm f q) :
    (∀ g : ℕ, sm.findFileIDByPath q = some g → e.sites.above (sm.buffers.length + 1) g = ls) ∧
      (sm.findFileIDByPath q = none → ls = []) := by
  have hpre : (runState env n (initial path input predefined)).sm.paths <+: sm.paths :=
    ⟨[label], hbuf.symm⟩
  have hdown := fun g loc h => (hrem.sited.down g loc h).1
  have hle := (registered_of_grown hpre hreg).2
  have hfound : ∀ g : ℕ, (runState env n (initial path input predefined)).sm.findFileIDByPath q =
      some g → sm.findFileIDByPath q = some g := fun g => SourceManager.find_of_grown hpre
  -- the name of the root file: no file, or the root file again
  have hroot : f = 1 → ((runState env n (initial path input predefined)).sm.findFileIDByPath q =
      none ∨ q = path) → (∀ g : ℕ, sm.findFileIDByPath q = some g →
        e.sites.above (sm.buffers.length + 1) g = ls) ∧
      (sm.findFileIDByPath q = none → ls = []) := by
    rintro rfl hq
    obtain rfl : ls = [] := hchain.eq_nil hrem.sited.root
    refine ⟨?_, fun _ => rfl⟩
    intro g hg
    refine IncludeSites.above_of_none ?_ _
    cases hs : e.sites g with
    | none => rfl
    | some loc =>
      exfalso
      obtain ⟨hlt, hle'⟩ := hrem.sited.down g loc hs
      have hpos : 0 < g := Nat.lt_of_le_of_lt (Nat.zero_le _) hlt
      have hpath := (SourceManager.find_some hg).2.2
      rw [SourceManager.getPath_of_grown hpre hpos hle'] at hpath
      have hfind := SourceManager.find_getPath hrem.sited.nodup hpos hle'
      rw [hpath] at hfind
      rcases hq with hnone | rfl
      · rw [hnone] at hfind
        cases hfind
      · -- the root file is the first of its path, and nothing is recorded for it
        have hone := SourceManager.find_getPath hrem.sited.nodup hreg.1 hreg.2
        rw [hrem.sited.getPath_root, hfind] at hone
        obtain rfl := Option.some.inj hone
        rw [hrem.sited.root] at hs
        cases hs
  rcases hstands with hown | ⟨hone, rfl | hfree⟩
  · have hfind : sm.findFileIDByPath q = some f := by
      refine hfound f ?_
      rw [hown]
      exact SourceManager.find_getPath hrem.sited.nodup hreg.1 hreg.2
    refine ⟨?_, ?_⟩
    · intro g hg
      rw [hfind] at hg
      obtain rfl := Option.some.inj hg
      exact hchain.above_eq hdown _ (Nat.lt_succ_of_le hle)
    · intro hnone
      rw [hfind] at hnone
      cases hnone
  · exact hroot hone (hlabel.symm)
  · exact hroot hone (.inl hfree)

/-- What is reported on a copied line. -/
theorem report_behind (hrun : (runState env n (initial path input predefined)).succeeded = true)
    (htrace : Traceable env path (initial path input predefined) n)
    (hlabel : label = path ∨
      (runState env n (initial path input predefined)).sm.findFileIDByPath label = none)
    {e : Engine} (hrem : Remembered env path (initial path input predefined) n e)
    {sm : SourceManager} {fid : FileID}
    (hpp : registerSynth (runState env n (initial path input predefined)).sm label
      (runState env n (initial path input predefined)).output = some (sm, fid))
    {k : ℕ} (hk : k < n) (hcopy : CopiesLine (runState env k (initial path input predefined)))
    {μ : Type} {d : Diagnostic μ} {l : SourceLocation} (hsev : d.severity ≠ .note)
    (hloc : d.loc = some l) (hfile : l.file = fid)
    (hlo : (runState env k (initial path input predefined)).output.length ≤ sm.offsetOf l)
    (hhi : sm.offsetOf l < (runState env (k + 1) (initial path input predefined)).output.length) :
    report sm e.sites d =
      some ⟨d, (runState env k (initial path input predefined)).openSites⟩ := by
  obtain ⟨f, fs, ln, hst, hr, he, hdir⟩ := hcopy
  obtain ⟨ek, hremk, hinvk⟩ := remembered_run label hrun htrace k (by omega)
  obtain ⟨hmono, hpre⟩ := kept_run hrun htrace (Nat.le_of_lt hk) hremk.engine hrem.engine
  have hstack := stacked_run env path input predefined k
  have hspeaks : speaks env (initial path input predefined) k = true := by
    simp [speaks, lineRead?_of_line hst hr, he, hdir]
  have hchain : Chain e.sites f.fid
      (runState env k (initial path input predefined)).openSites :=
    (hremk.sited.chain (hremk.sited.agrees hstack (htrace.first k hk hspeaks)) hst).mono hmono
      hrem.sited.root
  have hregk := hstack.registered f (by simp [hst])
  have hreg := registered_of_grown hpre hregk
  obtain ⟨hat, hstands⟩ := hinvk.shown f fs ln hst hr
  have hstands' := hstands.congr (SourceManager.getPath_of_grown hpre hregk.1 hregk.2)
  -- the text that step `k` wrote
  obtain ⟨hab, -⟩ := clean_of_succeeded (show k + 1 ≤ n from hk) hrun
  have hnext : (runState env (k + 1) (initial path input predefined)).output =
      (runState env k (initial path input predefined)).output ++
        lineOut env (runState env k (initial path input predefined)) f ln := by
    have hm : movesLocation f ln = false := by simp [movesLocation, hdir]
    have hstep : step env (runState env k (initial path input predefined)) =
        some (stepLine env (runState env k (initial path input predefined)) f fs ln) := by
      obtain ⟨hab', -⟩ := clean_of_succeeded (show k ≤ n by omega) hrun
      simp [step, hab', hst, hr]
    rw [runState_succ, hstep, Option.getD_some]
    exact (plainLine_stepLine_of_not_moves env _ fs hm).output_eq
  have hno : ∀ j ∈ splitLines (lineOut env (runState env k (initial path input predefined)) f ln),
      parseMarker j.body = none := by
    have hnames : lineNames env (runState env n (initial path input predefined)).sm
        (runState env k (initial path input predefined)) f fs ln = true := by
      simpa [namesAt, hst, hr, he] using htrace.names k hk
    exact lineOut_noMarker fun _ => hnames
  obtain ⟨habn, -⟩ := clean_of_succeeded (Nat.le_refl n) hrun
  obtain ⟨rest, hrest⟩ := (runState_grows (show k + 1 ≤ n from hk) habn).output
  rw [hnext, List.append_assoc] at hrest
  rw [hnext, List.length_append] at hhi
  obtain ⟨hbuf, rfl⟩ := registerSynth_some hpp
  have hb : sm.buffer? l.file = some ⟨label,
      (runState env n (initial path input predefined)).output,
      markersFrom 0 (splitLines (runState env n (initial path input predefined)).output)⟩ := by
    rw [hfile]
    simp [SourceManager.buffer?, hbuf]
  have hpaths : sm.paths =
      (runState env n (initial path input predefined)).sm.paths ++ [label] := by
    simp [SourceManager.paths, hbuf]
  have hname : ((⟨label, (runState env n (initial path input predefined)).output,
      markersFrom 0 (splitLines (runState env n (initial path input predefined)).output)⟩ :
        Buffer).resolveVirtual (sm.offsetOf l)).1 = (track label (splitLines
          (runState env k (initial path input predefined)).output)).path :=
    path_resolveVirtual_append hat hno hlo hhi
      (congrArg (fun out => markersFrom 0 (splitLines out)) hrest.symm)
  obtain ⟨hsome, hnone⟩ := above_of_standsFor hrem hpaths hlabel hreg hchain hstands'
  refine report_eq hsev hloc hb ?_ ?_
  · rw [hname]
    exact hsome
  · rw [hname]
    exact hnone

/-- **Include notes tell the true sites** along every successful run that
opens no root file again, reads text that can be reported on only where
its files were included first, and keeps to the names of the files. -/
theorem includeNotesTrue_of_traceable
    (hrun : (runState env n (initial path input predefined)).succeeded = true)
    (htrace : Traceable env path (initial path input predefined) n)
    (hlabel : label = path ∨
      (runState env n (initial path input predefined)).sm.findFileIDByPath label = none) :
    IncludeNotesTrue env label (initial path input predefined) n := by
  constructor
  · intro k hk
    obtain ⟨e, hrem, hinv⟩ := remembered_run label hrun htrace k (by omega)
    obtain ⟨en, hremn, -⟩ := remembered_run label hrun htrace n (Nat.le_refl n)
    obtain ⟨-, herr⟩ := clean_of_succeeded (show k + 1 ≤ n from hk) hrun
    have hpre := (kept_run hrun htrace (Nat.le_of_lt hk) hrem.engine hremn.engine).2
    refine ⟨e, hrem.engine, ?_⟩
    intro d hd hsev l hloc
    refine ⟨hrem.exists_origin herr hd hloc, ?_⟩
    intro j horigin
    exact report_during hrun htrace hk hrem hinv hpre hd hsev hloc horigin
  · obtain ⟨e, hrem, -⟩ := remembered_run label hrun htrace n (Nat.le_refl n)
    refine ⟨e, hrem.engine, ?_⟩
    intro sm fid hpp k hk hcopy μ d l hsev hloc hfile hlo hhi
    exact report_behind hrun htrace hlabel hrem hpp hk hcopy hsev hloc hfile hlo hhi

/-- The notes of a report on a copied line, read off the model. -/
theorem IncludeNotesTrue.sites_eq {start : State} (h : IncludeNotesTrue env label start n) {k : ℕ}
    (hk : k < n) (hcopy : CopiesLine (runState env k start)) {d : Diag} {l : SourceLocation}
    {sites : List SourceLocation} (hsev : d.severity ≠ .note) (hloc : d.loc = some l)
    (hplace : (registerSynth (runState env n start).sm label (runState env n start).output).all
      fun p => decide (l.file = p.2 ∧ (runState env k start).output.length ≤ p.1.offsetOf l ∧
        p.1.offsetOf l < (runState env (k + 1) start).output.length))
    (hnotes : ((registerSynth (runState env n start).sm label (runState env n start).output).bind
      fun p => (engineAt env start n).bind fun e =>
        (report p.1 e.sites d).map Entry.includedFrom) = some sites) :
    sites = (runState env k start).openSites := by
  obtain ⟨e, he, hall⟩ := h.behind
  obtain ⟨p, hpp, hnotes⟩ := Option.bind_eq_some_iff.1 hnotes
  rw [hpp, Option.all_some, decide_eq_true_eq] at hplace
  obtain ⟨hfile, hlo, hhi⟩ := hplace
  have hreport := hall p.1 p.2 hpp k hk hcopy d l hsev hloc hfile hlo hhi
  rw [he, Option.bind_some, hreport] at hnotes
  exact (Option.some.inj hnotes).symm

end Runs

/-- A file that is read once, however often it is included. -/
def guardedFile : SourceText := ⟨"#ifndef G\n#define G\ny\n#endif\n".toList, by decide⟩

/-- A file that includes another one twice. -/
def twiceIncludingFile : SourceText := ⟨"#include \"b\"\n#include \"b\"\nx\n".toList, by decide⟩

theorem includeNotesTrue_guardedFile :
    (runState (includeEnv guardedFile) 14
        (initial "f.nsl".toList twiceIncludingFile [])).succeeded = true ∧
      IncludeNotesTrue (includeEnv guardedFile) "f.nsl".toList
        (initial "f.nsl".toList twiceIncludingFile []) 14 := by
  have hrun : (runState (includeEnv guardedFile) 14
      (initial "f.nsl".toList twiceIncludingFile [])).succeeded = true := by decide +kernel
  have htrace : Traceable (includeEnv guardedFile) "f.nsl".toList
      (initial "f.nsl".toList twiceIncludingFile []) 14 :=
    ⟨by decide +kernel, by decide +kernel, by decide +kernel⟩
  exact ⟨hrun, includeNotesTrue_of_traceable hrun htrace (.inl rfl)⟩

/-- A file without a guard. -/
def unguardedFile : SourceText := ⟨"y\n".toList, by decide⟩

/-- Included twice, its text is reported with the first include both
times. -/
theorem not_includeNotesTrue_unguardedFile :
    (runState (includeEnv unguardedFile) 8
        (initial "f.nsl".toList twiceIncludingFile [])).succeeded = true ∧
      ¬ IncludeNotesTrue (includeEnv unguardedFile) "f.nsl".toList
        (initial "f.nsl".toList twiceIncludingFile []) 8 := by
  refine ⟨by decide +kernel, ?_⟩
  intro h
  have hcopy : CopiesLine (runState (includeEnv unguardedFile) 4
      (initial "f.nsl".toList twiceIncludingFile [])) :=
    ⟨⟨2, 0, 1, []⟩, [⟨1, 26, 3, []⟩], ⟨"y".toList, true⟩, by decide +kernel, by decide +kernel,
      by decide +kernel, by decide +kernel⟩
  have hsites : [(⟨1, 1, 0⟩ : SourceLocation)] = (runState (includeEnv unguardedFile) 4
      (initial "f.nsl".toList twiceIncludingFile [])).openSites :=
    h.sites_eq (by decide) hcopy (d := ⟨.error, some ⟨3, 5, 0⟩, .floatOnPassthrough, none⟩)
      (by decide) rfl (by decide +kernel) (by decide +kernel)
  exact absurd hsites (by decide +kernel)

/-- A file that takes the name of one it has included. -/
def renamedFile : SourceText := ⟨"#include \"b\"\n#line 1 \"b\"\nx\n".toList, by decide⟩

/-- Its own text is then reported as included. -/
theorem not_includeNotesTrue_renamedFile :
    (runState (includeEnv emptyFile) 5
        (initial "f.nsl".toList renamedFile [])).succeeded = true ∧
      ¬ IncludeNotesTrue (includeEnv emptyFile) "f.nsl".toList
        (initial "f.nsl".toList renamedFile []) 5 := by
  refine ⟨by decide +kernel, ?_⟩
  intro h
  have hcopy : CopiesLine (runState (includeEnv emptyFile) 3
      (initial "f.nsl".toList renamedFile [])) :=
    ⟨⟨1, 25, 3, []⟩, [], ⟨"x".toList, true⟩, by decide +kernel, by decide +kernel,
      by decide +kernel, by decide +kernel⟩
  have hsites : [(⟨1, 1, 0⟩ : SourceLocation)] = (runState (includeEnv emptyFile) 3
      (initial "f.nsl".toList renamedFile [])).openSites :=
    h.sites_eq (by decide) hcopy (d := ⟨.error, some ⟨3, 4, 0⟩, .floatOnPassthrough, none⟩)
      (by decide) rfl (by decide +kernel) (by decide +kernel)
  exact absurd hsites (by decide +kernel)

end Driver

end Nslc
