import Nslc.Preprocess.FirstIncludes
import Nslc.Driver.Markers
/-!
# Driver — the file a name in force stands for

Behind every marker the output is in a file of some name. While each
step keeps to the names of the files that name is the one of the file
being read, on the line map of the file itself and on that of the
output.
-/

namespace Nslc

namespace Driver

open Preprocess

/-! ## When a step keeps to the names of the files -/

/-- A line of a selected branch: text is no marker, `#line` gives an
included file its own name and the root file one that no file of `fin`
has, and the file of an `#include` has a name that a marker can carry. -/
def lineNames (env : Env) (fin : SourceManager) (s : State) (f : Frame) (fs : List Frame)
    (l : Line) : Bool :=
  match lineDirective l with
  | .passthrough =>
    (splitLines ((splice env.expr s.macros (stripCR l.body) f.loc).1 ++ l.term)).all fun k =>
      (parseMarker k.body).isNone
  | .line o =>
    match parseLineOperand (splice env.expr s.macros o f.loc).1 with
    | .ok _ p _ =>
      decide (Quotable (p.getD [])) &&
        (decide (p.getD [] ≠ []) && decide (p.getD [] = s.sm.getPath f.fid) ||
          fs.isEmpty && (decide (p.getD [] = []) || (fin.findFileIDByPath (p.getD [])).isNone))
    | _ => true
  | .incl filename isAngle =>
    (env.resolve filename isAngle (s.sm.getPath f.fid)).all fun q => decide (Named q)
  | _ => true

/-- The end of a file in front of `outer`: unless that is at its end too,
the marker begins a line and can carry the name. -/
def endNames (s : State) (outer : Frame) (rest : List Frame) : Bool :=
  (readLine (s.sm.getBuffer outer.fid) outer.cursor).isNone ||
    (decide (AtLineStart s.output) && decide (Quotable (s.sm.getPath outer.fid)) &&
      (decide (s.sm.getPath outer.fid ≠ []) || rest.isEmpty))

/-- The step about to be taken keeps to the names of the files. -/
def namesAt (env : Env) (fin : SourceManager) (s : State) : Bool :=
  match s.includeStack with
  | [] => true
  | f :: fs =>
    match readLine (s.sm.getBuffer f.fid) f.cursor with
    | some l => !isEmitting f.condStack || lineNames env fin s f fs l
    | none =>
      match fs with
      | [] => true
      | outer :: rest => endNames s outer rest


/-! ## The names in force -/

/-- `q` stands for file `f`: it is its path or, for the root file, the name
of the output or of no file. -/
def StandsFor (fin : SourceManager) (label : Text) (sm : SourceManager) (f : ℕ) (q : Text) : Prop :=
  q = sm.getPath f ∨ f = 1 ∧ (q = label ∨ fin.findFileIDByPath q = none)

/-- Every override keeps to the names, and where a line is about to be read
the markers lead to its file. -/
structure NamesInv (fin : SourceManager) (label : Text) (s : State) : Prop where
  overrides : ∀ (g : ℕ) b, s.sm.buffer? g = some b → ∀ d ∈ b.lineOverrides,
    d.virtualPath = [] ∨ d.virtualPath = b.path ∨
      g = 1 ∧ fin.findFileIDByPath d.virtualPath = none
  shown : ∀ f fs l, s.includeStack = f :: fs →
    readLine (s.sm.getBuffer f.fid) f.cursor = some l →
      AtLineStart s.output ∧ StandsFor fin label s.sm f.fid (track label (splitLines s.output)).path

variable {env : Env} {fin : SourceManager} {label : Text} {s t : State} {f : Frame}
  {fs : List Frame} {l : Line}

theorem StandsFor.congr {sm sm' : SourceManager} {g : ℕ} {q : Text} (h : StandsFor fin label sm g q)
    (hpath : sm'.getPath g = sm.getPath g) : StandsFor fin label sm' g q := by
  rcases h with h | h
  · exact .inl (by rw [hpath, h])
  · exact .inr h

theorem namesInv_stepEof (hinv : NamesInv fin label s)
    (hlinked : Linked ((f :: fs).map Frame.fid) s.sm.includeStack)
    (hend : ∀ outer rest, fs = outer :: rest → endNames s outer rest = true)
    (hab : (stepEof s f fs).aborted = none) : NamesInv fin label (stepEof s f fs) := by
  cases fs with
  | nil => exact ⟨hinv.overrides, fun _ _ _ h => absurd h (by simp [stepEof])⟩
  | cons outer rest =>
    have hnames := hend outer rest rfl
    unfold stepEof at hab ⊢
    simp only at hab ⊢
    split at hab
    · exact absurd hab (by simp [State.abort])
    · rename_i sm hpop
      have hbuf := (files_popIncludeFrame hpop).1
      have hget : ∀ fid, sm.buffer? fid = s.sm.buffer? fid := fun fid => by
        simp only [SourceManager.buffer?, hbuf, State.addDiags]
      refine ⟨?_, ?_⟩
      · intro g b hg
        exact hinv.overrides g b (by rw [← hget]; exact hg)
      rintro g gs l hg hl
      simp only [State.emit, State.addDiags] at hg hl ⊢
      obtain ⟨rfl, rfl⟩ := List.cons.inj hg
      have hl' : readLine (s.sm.getBuffer outer.fid) outer.cursor = some l := by
        simpa only [SourceManager.getBuffer, hget] using hl
      simp only [endNames, hl', Option.isNone_some, Bool.false_or, Bool.and_eq_true,
        Bool.or_eq_true, decide_eq_true_eq] at hnames
      obtain ⟨⟨hat, hquot⟩, hname⟩ := hnames
      have hpath : sm.getPath outer.fid = s.sm.getPath outer.fid := by
        simp only [SourceManager.getPath, hget]
      refine ⟨atLineStart_lineMarker _ _ _, ?_⟩
      rw [hpath, track_lineMarker label hat _ hquot]
      by_cases hempty : s.sm.getPath outer.fid = []
      · -- only the root file may have no name
        have hroot : outer.fid = 1 := by
          rcases hname with hne | hlast
          · exact absurd hempty hne
          · obtain rfl := List.isEmpty_iff.1 hlast
            have hpop' := hlinked.pop
            exact (Linked.of_single (by simpa using hpop')).1
        rw [if_pos hempty]
        exact .inr ⟨hroot, .inl rfl⟩
      · rw [if_neg hempty]
        exact .inl hpath.symm

/-- Lines that are no markers leave the file as it is. -/
theorem path_track_append (label : Text) (ls ks : List Line)
    (h : ∀ k ∈ ks, parseMarker k.body = none) :
    (track label (ls ++ ks)).path = (track label ls).path := by
  induction ks using List.reverseRecOn with
  | nil => rw [List.append_nil]
  | append_singleton ks k ih =>
    have hk := h k (by simp)
    rw [← List.append_assoc, track_append_singleton, ShownLoc.behind, hk]
    exact ih fun k' hk' => h k' (by simp [hk'])

/-- What a plain line writes holds no marker. -/
theorem lineOut_noMarker
    (hnames : isEmitting f.condStack = true → lineNames env fin s f fs l = true) :
    ∀ k ∈ splitLines (lineOut env s f l), parseMarker k.body = none := by
  have hempty : ∀ k ∈ splitLines ([] : Text), parseMarker k.body = none := by simp
  have hterm : ∀ k ∈ splitLines l.term, parseMarker k.body = none := by
    unfold Line.term
    split
    · intro k hk
      obtain rfl : k = ⟨[], true⟩ := by simpa [splitLines, takeLine] using hk
      rfl
    · exact hempty
  unfold lineOut
  cases hd : lineDirective l with
  | passthrough =>
    by_cases he : isEmitting f.condStack = true
    · have h := hnames he
      simp only [lineNames, hd, List.all_eq_true, Option.isNone_iff_eq_none] at h
      rw [if_pos he]
      exact h
    · rw [if_neg he]
      exact hterm
  | line o =>
    simp only
    split
    · exact hempty
    · exact hterm
  | incl filename isAngle =>
    simp only
    split
    · exact hempty
    · exact hterm
  | _ => exact hterm

theorem atLineStart_lineOut {out : Text} (hn : l.newline = true)
    (hm : movesLocation f l = false) : AtLineStart (out ++ lineOut env s f l) := by
  have hterm : AtLineStart (out ++ l.term) := by
    simpa [Line.term, hn] using atLineStart_append out []
  unfold lineOut
  cases hd : lineDirective l with
  | passthrough =>
    simp only
    split
    · simpa [Line.term, hn] using atLineStart_append out
        (splice env.expr s.macros (stripCR l.body) f.loc).1
    · exact hterm
  | line o =>
    have he : isEmitting f.condStack = false := by simpa [movesLocation, hd] using hm
    simpa [he] using hterm
  | incl filename isAngle =>
    have he : isEmitting f.condStack = false := by simpa [movesLocation, hd] using hm
    simpa [he] using hterm
  | _ => exact hterm

/-- An override registered for `f`, and no other file changed. -/
theorem buffer?_addLineDirective {sm sm' : SourceManager} {f off n : ℕ} {p : Text}
    (h : sm.addLineDirective f off n p = some sm') {g : ℕ} {b : Buffer}
    (hb : sm'.buffer? g = some b) :
    sm.buffer? g = some b ∨ g = f ∧ ∃ b', sm.buffer? f = some b' ∧
      b = { b' with lineOverrides := b'.lineOverrides ++ [⟨off, n, p⟩] } := by
  by_cases hg : g = f
  · obtain ⟨b', hb', -, hnew⟩ := SourceManager.addLineDirective_eq_some h
    rw [hg, hnew] at hb
    exact .inr ⟨hg, b', hb', (Option.some.inj hb).symm⟩
  · obtain ⟨b', hb', -, hbuf, -⟩ := files_addLineDirective h
    refine .inl ?_
    unfold SourceManager.buffer? at hb hb' ⊢
    split_ifs at hb hb' with hg0 hf0
    have hne : f - 1 ≠ g - 1 := fun he =>
      hg (Nat.pred_inj (Nat.pos_of_ne_zero hg0) (Nat.pos_of_ne_zero hf0) he.symm)
    rw [if_neg hg0]
    rw [hbuf, List.getElem?_set_ne hne] at hb
    exact hb

/-- A file that is loaded has no override yet. -/
theorem buffer?_loadFile {sm sm' : SourceManager} {q : Text} {inner g : ℕ}
    (h : loadFile env sm q = .ok sm' inner) {b : Buffer} (hb : sm'.buffer? g = some b) :
    sm.buffer? g = some b ∨ b.lineOverrides = [] := by
  obtain ⟨-, -, rfl | ⟨t, hbuf⟩⟩ := files_loadFile h
  · exact .inl hb
  · unfold SourceManager.buffer? at hb ⊢
    split_ifs at hb with hg0
    rw [if_neg hg0]
    rw [hbuf] at hb
    rcases Nat.lt_or_ge (g - 1) sm.buffers.length with hlt | hge
    · rw [List.getElem?_append_left hlt] at hb
      exact .inl hb
    · rw [List.getElem?_append_right hge] at hb
      have hmem := List.mem_of_getElem? hb
      rw [List.mem_singleton.1 hmem]
      exact .inr rfl

theorem getPath_of_buffer? {sm : SourceManager} {g : ℕ} {b : Buffer}
    (h : sm.buffer? g = some b) : sm.getPath g = b.path := by
  simp [SourceManager.getPath, h]

/-- A line keeps to the names. -/
theorem namesInv_stepLine (hstack : Stacked s) (hst : s.includeStack = f :: fs)
    (hlinked : Linked ((f :: fs).map Frame.fid) s.sm.includeStack)
    (hr : readLine (s.sm.getBuffer f.fid) f.cursor = some l) (hinv : NamesInv fin label s)
    (hnames : isEmitting f.condStack = true → lineNames env fin s f fs l = true)
    (hab : (stepLine env s f fs l).aborted = none)
    (herr : hasError (stepLine env s f fs l).diags = false) :
    NamesInv fin label (stepLine env s f fs l) := by
  obtain ⟨hat, hstands⟩ := hinv.shown f fs l hst hr
  have hroot : fs = [] → f.fid = 1 := by
    rintro rfl
    exact (Linked.of_single hlinked).1
  rcases stepLine_cases env s f fs l with ⟨h, herr'⟩ | ⟨n, p, h⟩ | ⟨q, sm, inner, h⟩ | h
  · have hm : movesLocation f l = false := by
      by_contra hne
      rw [herr' (by simpa using hne)] at herr
      exact absurd herr (by simp)
    refine ⟨by rw [h.sm_eq]; exact hinv.overrides, ?_⟩
    rintro g gs k hg hk
    rw [h.stack_eq] at hg
    obtain ⟨rfl, rfl⟩ := List.cons.inj hg
    rw [h.sm_eq] at hk ⊢
    rw [h.output_eq]
    refine ⟨atLineStart_lineOut (newline_of_readLine_next hr hk) hm, ?_⟩
    rw [splitLines_append hat, path_track_append label _ _ (lineOut_noMarker hnames)]
    exact hstands
  · obtain ⟨o, hd, trailing, hop⟩ := h.operand
    have hline := hnames h.emitting
    simp only [lineNames, hd, hop, Bool.and_eq_true, Bool.or_eq_true, decide_eq_true_eq,
      Option.isNone_iff_eq_none, List.isEmpty_iff] at hline
    obtain ⟨hquot, hname⟩ := hline
    have hpath : (stepLine env s f fs l).sm.getPath f.fid = s.sm.getPath f.fid := by
      have hreg := hstack.registered f (by simp [hst])
      exact SourceManager.getPath_of_grown (prefix_of_eq (paths_addLineDirective h.sm_eq))
        hreg.1 hreg.2
    refine ⟨?_, ?_⟩
    · intro g b hg d hd'
      rcases buffer?_addLineDirective h.sm_eq hg with hold | ⟨rfl, b', hb', rfl⟩
      · exact hinv.overrides g b hold d hd'
      · rcases List.mem_append.1 hd' with hd' | hd'
        · exact hinv.overrides _ b' hb' d hd'
        · rw [List.mem_singleton.1 hd']
          rcases hname with ⟨-, hown⟩ | ⟨hfs, hempty | hfree⟩
          · exact .inr (.inl (by rw [hown, getPath_of_buffer? hb']))
          · exact .inl hempty
          · exact .inr (.inr ⟨hroot hfs, hfree⟩)
    · rintro g gs k hg -
      rw [h.stack_eq] at hg
      obtain ⟨rfl, rfl⟩ := List.cons.inj hg
      rw [h.output_eq]
      refine ⟨atLineStart_lineMarker _ _ _, ?_⟩
      rw [track_lineMarker label hat n hquot]
      have hfid : (f.next env s l).fid = f.fid := rfl
      rw [hfid]
      rcases hname with ⟨hne, hown⟩ | ⟨hfs, hempty | hfree⟩
      · rw [if_neg hne]
        exact .inl (by rw [hpath, hown])
      · rw [if_pos hempty]
        exact .inr ⟨hroot hfs, .inl rfl⟩
      · refine .inr ⟨hroot hfs, ?_⟩
        split_ifs
        · exact .inl rfl
        · exact .inr hfree
  · obtain ⟨filename, isAngle, hd, -, hres⟩ := h.operand
    have hline := hnames h.emitting
    simp only [lineNames, hd, hres, Option.all_some, decide_eq_true_eq] at hline
    have hpath := getPath_of_loadFile h.loaded
    refine ⟨?_, ?_⟩
    · intro g b hg d hd'
      rw [h.sm_eq] at hg
      rcases buffer?_loadFile h.loaded hg with hold | hnone
      · exact hinv.overrides g b hold d hd'
      · rw [hnone] at hd'
        cases hd'
    · rintro g gs k hg -
      rw [h.stack_eq] at hg
      obtain ⟨rfl, rfl⟩ := List.cons.inj hg
      rw [h.output_eq, hpath]
      refine ⟨atLineStart_lineMarker _ _ _, ?_⟩
      rw [track_lineMarker label hat 1 hline.2, if_neg hline.1, h.sm_eq]
      exact .inl hpath.symm
  · exact absurd hab h.aborted_ne

/-- **One step** that keeps to the names. -/
theorem namesInv_step (hstack : Stacked s)
    (hlinked : Linked (s.includeStack.map Frame.fid) s.sm.includeStack)
    (hinv : NamesInv fin label s) (hnames : namesAt env fin s = true)
    (hstep : step env s = some t) (hab : t.aborted = none) (herr : hasError t.diags = false) :
    NamesInv fin label t := by
  obtain ⟨f, fs, -, hst, hcase⟩ := step_cases hstep
  rw [hst] at hlinked
  rcases hcase with ⟨hr, rfl⟩ | ⟨l, hr, rfl⟩
  · refine namesInv_stepEof hinv hlinked ?_ hab
    rintro outer rest rfl
    simpa only [namesAt, hst, hr] using hnames
  · refine namesInv_stepLine hstack hst hlinked hr hinv ?_ hab herr
    intro he
    simpa [namesAt, hst, hr, he] using hnames

theorem namesInv_initial (path : Text) (input : SourceText) (predefined : List (Text × Text)) :
    NamesInv fin label (initial path input predefined) where
  overrides := by
    intro g b hb d hd
    have hmem : b ∈ (initial path input predefined).sm.buffers := by
      unfold SourceManager.buffer? at hb
      split at hb
      · cases hb
      · exact List.mem_of_getElem? hb
    rw [List.mem_singleton.1 hmem] at hd
    cases hd
  shown := by
    rintro f fs l hf -
    obtain ⟨rfl, -⟩ := List.cons.inj hf
    exact ⟨.inl rfl, .inr ⟨rfl, .inl rfl⟩⟩
theorem mem_of_activeDirective {ds : List LineDirective} {off : ℕ} {d : LineDirective}
    (h : activeDirective ds off = some d) : d ∈ ds := by
  have hfold : ∀ (es : List LineDirective) (a : Option LineDirective),
      es.foldl keepLater a = some d → a = some d ∨ d ∈ es := by
    intro es
    induction es with
    | nil => exact fun a ha => .inl ha
    | cons c es ih =>
      intro a ha
      rcases ih _ ha with hc | hmem
      · cases a with
        | none => exact .inr (by simp [Option.some.inj hc])
        | some b =>
          simp only [keepLater] at hc
          split_ifs at hc
          · exact .inr (by simp [Option.some.inj hc])
          · exact .inl hc
      · exact .inr (List.mem_cons_of_mem _ hmem)
  rcases hfold _ none h with hnone | hmem
  · cases hnone
  · exact (List.takeWhile_prefix _).subset hmem

/-- Markers behind a text that holds none begin to count behind it. -/
theorem le_origin_of_noMarker {w rest : Text}
    (hno : ∀ k ∈ splitLines w, parseMarker k.body = none) (off : ℕ) :
    ∀ d ∈ markersFrom off (splitLines (w ++ rest)), off + w.length ≤ d.originOffset := by
  induction hn : w.length using Nat.strong_induction_on generalizing w off with
  | _ n ih =>
    subst hn
    intro d hd
    by_cases hnl : '\n' ∈ w
    · -- the first line of the text is one of its own
      obtain ⟨b, w', rfl, hb⟩ := List.eq_append_cons_of_mem hnl
      have hne : b ++ '\n' :: w' ≠ [] := by simp
      have hlines : splitLines (b ++ '\n' :: w') = ⟨b, true⟩ :: splitLines w' := by
        rw [splitLines_eq_takeLine hne, takeLine_append hb]
      have hlines' : splitLines (b ++ '\n' :: w' ++ rest) =
          ⟨b, true⟩ :: splitLines (w' ++ rest) := by
        rw [List.append_assoc, List.cons_append, splitLines_eq_takeLine (by simp),
          takeLine_append hb]
      rw [hlines] at hno
      have hfirst : parseMarker b = none := hno ⟨b, true⟩ (List.mem_cons_self ..)
      rw [hlines'] at hd
      simp only [markersFrom, hfirst] at hd
      have hlen : (⟨b, true⟩ : Line).bytes.length = b.length + 1 := by
        simp [Line.bytes, Line.term]
      rw [hlen] at hd
      have hlt : w'.length < (b ++ '\n' :: w').length := by
        rw [List.length_append, List.length_cons]
        omega
      have := ih w'.length hlt (fun k hk => hno k (List.mem_cons_of_mem _ hk))
        (off + (b.length + 1)) rfl d hd
      simp only [List.length_append, List.length_cons]
      omega
    · -- the first line goes on behind the text
      cases hlines : splitLines (w ++ rest) with
      | nil =>
        rw [hlines] at hd
        cases hd
      | cons k ks =>
        have hkeep : w.length ≤ k.bytes.length := by
          have hw : ∀ c ∈ w, decide (c ≠ '\n') = true := by
            intro c hc
            simp only [ne_eq, decide_eq_true_eq]
            rintro rfl
            exact hnl hc
          rw [Line.bytes, body_eq_takeWhile hlines, List.takeWhile_append_of_pos hw]
          simp only [List.length_append]
          omega
        have hpos : ∀ j ∈ ks, 0 < j.bytes.length := fun j hj =>
          bytes_pos_of_mem (by rw [hlines]; exact List.mem_cons_of_mem _ hj)
        rw [hlines] at hd
        simp only [markersFrom] at hd
        split at hd
        · have := (mem_markersFrom hd hpos).1
          omega
        · rcases List.mem_cons.1 hd with rfl | hd
          · simp only
            omega
          · have := (mem_markersFrom hd hpos).1
            omega

/-- **Inside a text that holds no marker** the name in force is the one the
markers before it have led to. -/
theorem path_resolveVirtual_append {pre w rest : Text} {off : ℕ} (hpre : AtLineStart pre)
    (hno : ∀ k ∈ splitLines w, parseMarker k.body = none) (hle : pre.length ≤ off)
    (hlt : off < pre.length + w.length) {b : Buffer}
    (hb : b.lineOverrides = markersFrom 0 (splitLines (pre ++ (w ++ rest)))) :
    (b.resolveVirtual off).1 = (track b.path (splitLines pre)).path := by
  have hactive : activeDirective b.lineOverrides off =
      (markersFrom 0 (splitLines pre)).getLast? := by
    rw [hb, splitLines_append hpre, markersFrom_append, Nat.zero_add, bytesLength_splitLines]
    refine activeDirective_append (markersFrom_pairwise 0 fun l hl => bytes_pos_of_mem hl) ?_ ?_
    · intro d hd
      have := (mem_markersFrom hd fun l hl => bytes_pos_of_mem hl).2
      rw [Nat.zero_add, bytesLength_splitLines] at this
      omega
    · intro d hd
      have := le_origin_of_noMarker hno pre.length d hd
      omega
  rw [resolveVirtual_path, hactive]
  rcases track_eq b.path (splitLines pre) with ⟨hlast, ht⟩ | ⟨d, j, hlast, -, -, ht⟩
  · rw [hlast, ht]
    rfl
  · rw [hlast, ht]
    rfl

/-- The name in force anywhere in a file is its path or, in the root file,
that of no file. -/
theorem NamesInv.path_eq (h : NamesInv fin label s) {g : ℕ} {b : Buffer}
    (hb : s.sm.buffer? g = some b) (off : ℕ) :
    (b.resolveVirtual off).1 = b.path ∨
      g = 1 ∧ fin.findFileIDByPath (b.resolveVirtual off).1 = none := by
  rw [resolveVirtual_path]
  cases ha : activeDirective b.lineOverrides off with
  | none => exact .inl rfl
  | some d =>
    simp only [Option.elim_some]
    split_ifs with hempty
    · exact .inl rfl
    · rcases h.overrides g b hb d (mem_of_activeDirective ha) with hnil | hown | hfree
      · exact absurd hnil hempty
      · exact .inl hown
      · exact .inr hfree

end Driver

end Nslc
