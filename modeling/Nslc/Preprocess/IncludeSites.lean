import Nslc.Preprocess.Rendering
/-!
# Preprocessor — the include sites behind a report

A file is recorded with the directive that opened it first, and a report
follows these records up from the file its location names. Where every
open file is open by the directive recorded for it, the records give the
include stack itself, then and whenever they are asked again.
-/

namespace Nslc

/-! ## Chains of recorded includes -/

/-- Following the recorded includes from a file up to the root file,
number one. -/
inductive Chain (sites : IncludeSites) : FileID → List SourceLocation → Prop
  | root : sites 1 = none → Chain sites 1 []
  | site {f : FileID} {loc : SourceLocation} {ls : List SourceLocation} :
      sites f = some loc → Chain sites loc.file ls → Chain sites f (loc :: ls)

section Chains

variable {sites sites' : IncludeSites} {f : FileID} {ls : List SourceLocation}

theorem Chain.mono (h : Chain sites f ls) (hsome : ∀ g l, sites g = some l → sites' g = some l)
    (hroot : sites' 1 = none) : Chain sites' f ls := by
  induction h with
  | root _ => exact .root hroot
  | site hf _ ih => exact .site (hsome _ _ hf) ih

/-- The bounded walk reaches the end of a chain that leads down. -/
theorem Chain.above_eq (h : Chain sites f ls)
    (hdown : ∀ (g : ℕ) l, sites g = some l → l.file < g) :
    ∀ n : ℕ, f < n → sites.above n f = ls := by
  induction h with
  | root hf =>
    intro n hn
    obtain ⟨m, rfl⟩ := Nat.exists_eq_succ_of_ne_zero (Nat.ne_zero_of_lt hn)
    simp [IncludeSites.above, hf]
  | @site f loc ls hf _ ih =>
    intro n hn
    obtain ⟨m, rfl⟩ := Nat.exists_eq_succ_of_ne_zero (Nat.ne_zero_of_lt hn)
    have hlt := hdown f loc hf
    have hzero : f ≠ 0 := Nat.ne_zero_of_lt hlt
    simp only [IncludeSites.above, if_neg hzero, hf, if_neg (Nat.ne_of_lt hlt)]
    rw [ih m (Nat.lt_of_lt_of_le hlt (Nat.le_of_lt_succ hn))]

/-- A file nothing is recorded for has nothing above it. -/
theorem IncludeSites.above_of_none {g : FileID} (h : sites g = none) (n : ℕ) :
    sites.above n g = [] := by
  cases n with
  | zero => rfl
  | succ n => simp [IncludeSites.above, h]

theorem Chain.eq_nil (h : Chain sites f ls) (hf : sites f = none) : ls = [] := by
  cases h with
  | root => rfl
  | site hs _ => rw [hf] at hs; cases hs

/-- An include stack over the files it opened, innermost first. -/
inductive Linked : List FileID → List (SourceLocation × FileID) → Prop
  | closed : Linked [] []
  | root : Linked [1] []
  | opened {f outer : FileID} {rest : List FileID} {loc : SourceLocation}
      {es : List (SourceLocation × FileID)} :
      loc.file = outer → Linked (outer :: rest) es → Linked (f :: outer :: rest) ((loc, f) :: es)

/-- **The records give the stack** where they agree with each of its
entries. -/
theorem Linked.chain {fids : List FileID} {es : List (SourceLocation × FileID)}
    (h : Linked fids es) (hroot : sites 1 = none) (hes : ∀ e ∈ es, sites e.2 = some e.1) :
    ∀ f rest, fids = f :: rest → Chain sites f (es.map Prod.fst) := by
  induction h with
  | closed => exact fun f rest h => absurd h (by simp)
  | root =>
    intro f rest h
    obtain ⟨rfl, -⟩ := List.cons.inj h
    exact .root hroot
  | @opened g outer rest loc es hfile _ ih =>
    intro f rest' h
    obtain ⟨rfl, -⟩ := List.cons.inj h
    have htail : Chain sites outer (es.map Prod.fst) :=
      ih (fun e he => hes e (by simp [he])) outer rest rfl
    exact .site (hes _ (List.mem_cons_self ..)) (by rwa [hfile])

theorem Linked.pop {fids : List FileID} {es : List (SourceLocation × FileID)}
    (h : Linked fids es) : Linked fids.tail es.tail := by
  cases h with
  | closed => exact .closed
  | root => exact .closed
  | opened _ h => exact h

/-- Only the root file is open by no include. -/
theorem Linked.of_single {es : List (SourceLocation × FileID)} (h : Linked [f] es) :
    f = 1 ∧ es = [] := by
  cases h with
  | root => exact ⟨rfl, rfl⟩

end Chains

/-! ## Files by their paths -/

namespace SourceManager

/-- The registered paths, in order. -/
def paths (sm : SourceManager) : List Text := sm.buffers.map Buffer.path

variable {sm sm' : SourceManager} {f : ℕ} {q : Text}

theorem length_paths (sm : SourceManager) : sm.paths.length = sm.buffers.length :=
  List.length_map ..

theorem findFileIDByPath_eq (sm : SourceManager) (q : Text) :
    sm.findFileIDByPath q = (sm.paths.findIdx? fun p => decide (p = q)).map (· + 1) := by
  simp only [findFileIDByPath, paths, List.findIdx?_map, Function.comp_def]

theorem getPath_eq (sm : SourceManager) (hf : 0 < f) :
    sm.getPath f = (sm.paths[f - 1]?).getD [] := by
  have hne : f ≠ 0 := by omega
  simp [getPath, buffer?, paths, hne]

theorem getPath_of_grown (h : sm.paths <+: sm'.paths) (hf : 0 < f)
    (hle : f ≤ sm.buffers.length) : sm'.getPath f = sm.getPath f := by
  rw [← length_paths] at hle
  rw [getPath_eq _ hf, getPath_eq _ hf]
  obtain ⟨r, hr⟩ := h
  rw [← hr, List.getElem?_append_left (Nat.lt_of_lt_of_le (Nat.sub_one_lt_of_lt hf) hle)]

theorem find_of_grown (h : sm.paths <+: sm'.paths) {g : FileID}
    (hg : sm.findFileIDByPath q = some g) : sm'.findFileIDByPath q = some g := by
  obtain ⟨r, hr⟩ := h
  rw [findFileIDByPath_eq, ← hr, List.findIdx?_append]
  rw [findFileIDByPath_eq] at hg
  obtain ⟨i, hi, rfl⟩ := Option.map_eq_some_iff.1 hg
  simp [hi]

theorem find_none_of_grown (h : sm.paths <+: sm'.paths) (hg : sm'.findFileIDByPath q = none) :
    sm.findFileIDByPath q = none := by
  cases hf : sm.findFileIDByPath q with
  | none => rfl
  | some g => rw [find_of_grown h hf] at hg; exact absurd hg (by simp)

theorem find_eq_none_iff : sm.findFileIDByPath q = none ↔ q ∉ sm.paths := by
  rw [findFileIDByPath_eq, Option.map_eq_none_iff, List.findIdx?_eq_none_iff]
  constructor
  · intro h hq
    simpa using h q hq
  · intro h p hp
    simp only [decide_eq_false_iff_not]
    rintro rfl
    exact h hp

/-- A file is found under its own path. -/
theorem find_getPath (hnd : sm.paths.Nodup) (hf : 0 < f) (hle : f ≤ sm.buffers.length) :
    sm.findFileIDByPath (sm.getPath f) = some f := by
  rw [← length_paths] at hle
  have hlt : f - 1 < sm.paths.length := Nat.lt_of_lt_of_le (Nat.sub_one_lt_of_lt hf) hle
  rw [findFileIDByPath_eq, getPath_eq _ hf, List.getElem?_eq_getElem hlt, Option.getD_some]
  have hidx : (sm.paths.findIdx? fun p => decide (p = sm.paths[f - 1])) = some (f - 1) := by
    rw [List.findIdx?_eq_some_iff_getElem]
    refine ⟨hlt, by simp, ?_⟩
    intro j hj
    have hjlt : j < sm.paths.length := Nat.lt_trans hj hlt
    have hne : sm.paths[j] ≠ sm.paths[f - 1] := by
      intro he
      have := (List.Nodup.getElem_inj_iff hnd).1 he
      omega
    simpa using hne
  rw [hidx, Option.map_some, Nat.sub_add_cancel hf]

theorem find_some {g : FileID} (h : sm.findFileIDByPath q = some g) :
    0 < g ∧ g ≤ sm.buffers.length ∧ sm.getPath g = q := by
  rw [findFileIDByPath_eq] at h
  obtain ⟨i, hi, rfl⟩ := Option.map_eq_some_iff.1 h
  obtain ⟨hlt, hp, -⟩ := List.findIdx?_eq_some_iff_getElem.1 hi
  rw [getPath_eq _ (Nat.succ_pos i), ← length_paths]
  refine ⟨Nat.succ_pos i, hlt, ?_⟩
  simpa [List.getElem?_eq_getElem hlt] using hp

end SourceManager

namespace Preprocess

variable {env : Env} {s t : State} {f : Frame} {fs : List Frame} {l : Line}

/-! ## What a step reads, opens and defines -/

/-- The line the next step reads, with its frame. -/
def lineRead? (s : State) : Option (Frame × Line) :=
  match s.includeStack with
  | [] => none
  | f :: _ => (readLine (s.sm.getBuffer f.fid) f.cursor).map fun l => (f, l)

/-- Where the next step includes from, and the path it opens. -/
def opened? (env : Env) (s : State) : Option (SourceLocation × Text) :=
  (lineRead? s).bind fun r =>
    if isEmitting r.1.condStack then
      match lineDirective r.2 with
      | .incl filename isAngle =>
        (env.resolve filename isAngle (s.sm.getPath r.1.fid)).map fun q => (r.1.loc, q)
      | _ => none
    else none

/-- The macro the next step defines, and where. -/
def defined? (s : State) : Option (Text × SourceLocation) :=
  (lineRead? s).bind fun r =>
    if isEmitting r.1.condStack then
      match lineDirective r.2 with
      | .define name _ => if name = [] then none else some (name, r.1.loc)
      | _ => none
    else none

theorem lineRead?_of_line (hst : s.includeStack = f :: fs)
    (hr : readLine (s.sm.getBuffer f.fid) f.cursor = some l) : lineRead? s = some (f, l) := by
  simp [lineRead?, hst, hr]

theorem lineRead?_of_eof (hst : s.includeStack = f :: fs)
    (hr : readLine (s.sm.getBuffer f.fid) f.cursor = none) : lineRead? s = none := by
  simp [lineRead?, hst, hr]

theorem lineRead?_eq_some {r : Frame × Line} (h : lineRead? s = some r) :
    ∃ fs, s.includeStack = r.1 :: fs ∧
      readLine (s.sm.getBuffer r.1.fid) r.1.cursor = some r.2 := by
  unfold lineRead? at h
  split at h
  · exact absurd h (by simp)
  · rename_i f fs hst
    obtain ⟨l, hl, rfl⟩ := Option.map_eq_some_iff.1 h
    exact ⟨fs, hst, hl⟩

/-- The step opens nothing. -/
structure KeepsFiles (s t : State) : Prop where
  paths : t.sm.paths = s.sm.paths
  stack : (t.includeStack.map Frame.fid = s.includeStack.map Frame.fid ∧
      t.sm.includeStack = s.sm.includeStack) ∨
    (t.includeStack.map Frame.fid = (s.includeStack.map Frame.fid).tail ∧
      t.sm.includeStack = s.sm.includeStack.tail)

/-- The step opens file `inner` at path `q` from `loc`, the path registered
already or registered now. -/
structure OpensFile (s t : State) (loc : SourceLocation) (q : Text) (inner : ℕ) : Prop where
  outer : ∃ rest, s.includeStack.map Frame.fid = loc.file :: rest
  fids : t.includeStack.map Frame.fid = inner :: s.includeStack.map Frame.fid
  stack : t.sm.includeStack = (loc, inner) :: s.sm.includeStack
  registered : t.sm.paths = s.sm.paths ∧ s.sm.findFileIDByPath q = some inner ∨
    s.sm.findFileIDByPath q = none ∧ t.sm.paths = s.sm.paths ++ [q] ∧
      inner = s.sm.buffers.length + 1

theorem paths_addLineDirective {sm sm' : SourceManager} {f : ℕ} {off n : ℕ} {p : Text}
    (h : sm.addLineDirective f off n p = some sm') : sm'.paths = sm.paths := by
  obtain ⟨b, hb, -, hbuf, -⟩ := files_addLineDirective h
  have hget : sm.buffers[f - 1]? = some b := by
    unfold SourceManager.buffer? at hb
    split at hb
    · exact absurd hb (by simp)
    · exact hb
  obtain ⟨hlt, rfl⟩ := List.getElem?_eq_some_iff.1 hget
  have hset : (sm.buffers.map Buffer.path).set (f - 1) (sm.buffers[f - 1]).path =
      sm.buffers.map Buffer.path := by
    rw [← List.getElem_map Buffer.path (h := by simpa using hlt), List.set_getElem_self]
  rw [SourceManager.paths, hbuf, List.map_set]
  exact hset

/-- A load finds the path registered, or registers it last. -/
theorem registered_of_loadFile {sm sm' : SourceManager} {q : Text} {inner : ℕ}
    (h : loadFile env sm q = .ok sm' inner) :
    sm' = sm ∧ sm.findFileIDByPath q = some inner ∨
      sm.findFileIDByPath q = none ∧ sm'.paths = sm.paths ++ [q] ∧
        inner = sm.buffers.length + 1 := by
  unfold loadFile at h
  split at h
  · rename_i fid hfid
    obtain ⟨rfl, rfl⟩ := Loaded.ok.inj h
    exact .inl ⟨rfl, hfid⟩
  · rename_i hnone
    split at h
    · exact absurd h (by simp)
    · split at h
      · exact absurd h (by simp)
      · rename_i sm'' fid hadd
        obtain ⟨rfl, rfl⟩ := Loaded.ok.inj h
        unfold SourceManager.addBufferInMemory at hadd
        split at hadd
        · obtain ⟨rfl, rfl⟩ := Prod.mk.inj (Option.some.inj hadd)
          exact .inr ⟨hnone, by simp [SourceManager.paths], rfl⟩
        · exact absurd hadd (by simp)

/-- **What a step does to the files**, nothing going wrong: it opens the
file it says it opens, or none. -/
theorem step_files (h : Stacked s)
    (hlinked : Linked (s.includeStack.map Frame.fid) s.sm.includeStack)
    (hstep : step env s = some t) (hab : t.aborted = none) (herr : hasError t.diags = false) :
    (opened? env s = none ∧ KeepsFiles s t) ∨
      ∃ loc q inner, opened? env s = some (loc, q) ∧ OpensFile s t loc q inner := by
  obtain ⟨f, fs, -, hst, ⟨hr, rfl⟩ | ⟨l, hr, rfl⟩⟩ := step_cases hstep
  · -- the end of a file
    refine .inl ⟨by simp [opened?, lineRead?_of_eof hst hr], ?_⟩
    obtain ⟨hsm, hstack, -⟩ := stepEof_cases h hst
    rcases hsm with ⟨rfl, hsm⟩ | ⟨-, hpop⟩
    · refine ⟨by rw [hsm], .inr ⟨by rw [hstack, hst]; rfl, ?_⟩⟩
      rw [hst] at hlinked
      rw [hsm, (Linked.of_single hlinked).2]
      rfl
    · obtain ⟨hbuf, e, he⟩ := files_popIncludeFrame hpop
      refine ⟨by rw [SourceManager.paths, hbuf]; rfl, .inr ⟨by rw [hstack, hst]; rfl, ?_⟩⟩
      rw [he]
      rfl
  · have hread := lineRead?_of_line hst hr
    have hnone : movesLocation f l = false → opened? env s = none := by
      intro hm
      simp only [opened?, hread, Option.bind_some]
      split_ifs with he
      · simp only [movesLocation, he, Bool.true_and] at hm
        split
        · simp_all
        · rfl
      · rfl
    have hkeep : ∀ u : State, u.sm.paths = s.sm.paths →
        u.includeStack = f.next env s l :: fs → u.sm.includeStack = s.sm.includeStack →
        KeepsFiles s u := by
      intro u hp hs hi
      exact ⟨hp, .inl ⟨by rw [hs, hst]; rfl, hi⟩⟩
    rcases stepLine_cases env s f fs l with ⟨hp, herr'⟩ | ⟨n, p, hp⟩ | ⟨q, sm, inner, hp⟩ | hp
    · refine .inl ⟨hnone ?_, hkeep _ (by rw [hp.sm_eq]) hp.stack_eq (by rw [hp.sm_eq])⟩
      by_contra hne
      rw [herr' (by simpa using hne)] at herr
      exact absurd herr (by simp)
    · obtain ⟨o, hd, -⟩ := hp.operand
      obtain ⟨_, -, -, -, hinc⟩ := files_addLineDirective hp.sm_eq
      refine .inl ⟨?_, hkeep _ (paths_addLineDirective hp.sm_eq) hp.stack_eq hinc⟩
      simp [opened?, hread, hd]
    · obtain ⟨filename, isAngle, hd, -, hres⟩ := hp.operand
      obtain ⟨hinc, -, -⟩ := files_loadFile hp.loaded
      refine .inr ⟨f.loc, q, inner, by simp [opened?, hread, hp.emitting, hd, hres],
        ⟨fs.map Frame.fid, by rw [hst]; rfl⟩, by rw [hp.stack_eq, hst]; rfl, ?_, ?_⟩
      · rw [hp.sm_eq, SourceManager.pushIncludeFrame, hinc]
      · have hpaths : (stepLine env s f fs l).sm.paths = sm.paths := by
          rw [hp.sm_eq]
          rfl
        rw [hpaths]
        rcases registered_of_loadFile hp.loaded with ⟨rfl, hfind⟩ | hnew
        · exact .inl ⟨rfl, hfind⟩
        · exact .inr hnew
    · exact absurd hab hp.aborted_ne

end Preprocess

end Nslc
