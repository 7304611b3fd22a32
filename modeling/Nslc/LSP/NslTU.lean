import Nslc.Driver.Replay
import Nslc.Lex.Directives
import Nslc.LSP.DiagnosticMapper
import Nslc.Preprocess.Kept
import Nslc.Preprocess.Rendering
/-!
# LSP — diagnostics of one document

`runPipeline` preprocesses a document, registers the output as a buffer
of its own, replays the markers in it, and has it lexed, parsed and
checked. What the phases behind the preprocessor report is a parameter:
each report stands at a token of the output.

A document that is copied (`CopiedText`) is published in place
(`publishedInPlace`): a report at a byte of the output is shown where
the editor shows the byte it was copied from.
-/

namespace Nslc

namespace LSP

open Preprocess

/-- A document as the editor has it; its UTF-8 fits a buffer. -/
structure Document where
  text : List Char
  length_lt : (utf8Bytes text).length < kMaxOffset

def Document.contents (doc : Document) : SourceText := ⟨utf8Bytes doc.text, doc.length_lt⟩

def inMemoryPath : Text := "file:///in-memory.nsl".toList

def synthPath : Text := "file:///in-memory.nsl-pp".toList

/-- What the lexer, the parser or Sema reports: it stands at a token,
given by its number, and so do its notes. -/
structure TokenReport where
  severity : Severity
  token : ℕ
  message : String
  notes : List (ℕ × String)

/-- Where token `n` of a text begins; behind the last one the lexer
answers `eof`. -/
def tokenBegin (out : Text) (n : ℕ) : ℕ :=
  (((Lex.Lexer.new out).pull (n + 1)).getLast?.map Lex.Token.begin_).getD 0

/-- A place in the preprocessed text, as a location. -/
def synthLoc (fid : FileID) (out : Text) (n : ℕ) : SourceLocation := ⟨fid, 1, tokenBegin out n⟩

/-- A diagnostic as `diagnostics()` hands it out. -/
def ofEntry (e : Entry Preprocess.Message) : NotedDiagnostic :=
  ⟨e.diag.severity, e.diag.loc, e.diag.message.text, e.notes⟩

/-- A report in the preprocessed text, its own notes behind those of the
engine. -/
def reportToken (sm : SourceManager) (sites : IncludeSites) (fid : FileID) (out : Text)
    (r : TokenReport) : Option NotedDiagnostic :=
  (report sm sites (⟨r.severity, some (synthLoc fid out r.token), r.message, none⟩ :
    Diagnostic String)).map fun e =>
      ⟨r.severity, e.diag.loc, r.message,
        e.notes ++ r.notes.map fun n => ⟨synthLoc fid out n.1, n.2, false⟩⟩

/-- The preprocessor at the end of a document that includes no file. -/
def preprocessed (env : Env) (contents : SourceText) : State :=
  endState env inMemoryPath contents []

/-- `runPipeline`, up to the diagnostics; `front` is what the phases
behind the preprocessor report on its output. -/
def runPipeline (env : Env) (contents : SourceText) (front : Text → List TokenReport) :
    Option (SourceManager × List NotedDiagnostic) :=
  let s := preprocessed env contents
  (engineAt env (initial inMemoryPath contents [])
      ((splitLines contents.text).length + 1)).bind fun e =>
    if s.succeeded then
      (s.sm.addBufferInMemory synthPath s.output).bind fun r =>
        (Driver.replayLines r.1 r.2 0 (splitLines s.output)).bind fun sm =>
          ((front s.output).mapM (reportToken sm e.sites r.2 s.output)).map fun ds =>
            (sm, e.entries.map ofEntry ++ ds)
    else some (s.sm, e.entries.map ofEntry)

/-- What is published for a document. -/
def publishDiagnostics (env : Env) (doc : Document) (front : Text → List TokenReport) :
    Option (List LspDiagnostic) :=
  (runPipeline env doc.contents front).bind fun r => toLspDiagnosticArray r.1 r.2

/-! ## In place -/

/-- A report of one of the phases. -/
inductive PhaseReport where
  | preprocessor (d : Diag)
  | token (r : TokenReport)

/-- All that is reported on a document, in order. Without preprocessed
text the later phases do not run. -/
def phaseReports (env : Env) (doc : Document) (front : Text → List TokenReport) :
    List PhaseReport :=
  let s := preprocessed env doc.contents
  s.diags.map .preprocessor ++ if s.succeeded then (front s.output).map .token else []

/-- The offset of a location in the first buffer. -/
def offsetIn (t : Text) (l : SourceLocation) : ℕ := (lineOffsets t).getD (l.line - 1) 0 + l.delta

/-- **A report is shown in place**: a preprocessor report at its own byte
of the document; any other at the byte its token was copied from, and
behind the last byte kept where the token is `eof`. -/
def ShownInPlace (env : Env) (doc : Document) : PhaseReport → LspDiagnostic → Prop
  | .preprocessor d, m =>
    (∃ l, d.loc = some l ∧ l.file = 1 ∧
      m.range.start = shownAt doc.text (offsetIn doc.contents.text l)) ∧
    m.severity = severityToLsp d.severity ∧ m.message = d.message.text
  | .token r, m =>
    m.range.start = shownAt doc.text (originOf env inMemoryPath doc.contents
      (tokenBegin (preprocessed env doc.contents).output r.token)) ∧
    m.severity = severityToLsp r.severity ∧ m.message = r.message

/-! ## Resolving in the two buffers -/

section Resolve

variable {sm : SourceManager} {doc : Document}

/-- A buffer without overrides answers with its own lines. -/
theorem resolveLoc_physical {l : SourceLocation} {path pre rest : Text} {c : ℕ}
    (hbuf : sm.buffer? l.file = some ⟨path, pre ++ rest, []⟩)
    (hoff : sm.offsetOf l = pre.length + c) (hpre : AtLineStart pre) (hc : InFirstLine rest c) :
    resolveLoc sm l = some ⟨path, pre.count '\n', c, octets (takeLine rest).1.body⟩ := by
  rw [resolveLoc, hbuf, Option.map_some, hoff]
  simp only [Buffer.resolveVirtual, activeDirective, List.takeWhile_nil, List.foldl_nil,
    getLineCol_append hpre hc, getLine_append hpre hc, Nat.add_sub_cancel]

theorem extent_line_lt (doc : Document) {pre rest : List Char} (h : doc.text = pre ++ rest)
    {ds : List Char} (hds : ds <+: (takeLine rest).1.body) :
    Scales.extent utf16Size ds < UInt32.size := by
  have hlt := doc.length_lt
  have hline : ds <+: rest := hds.trans ⟨_, by rw [← List.append_assoc]; exact takeLine_bytes rest⟩
  have hle := (Scales.extent_mono (w := Char.utf8Size) hline)
  have hunits := extent_utf16Size_le ds
  rw [length_utf8Bytes] at hunits
  rw [h, utf8Bytes_append, List.length_append, length_utf8Bytes rest] at hlt
  simp only [kMaxOffset] at hlt
  have : UInt32.size = 2 ^ 32 := rfl
  omega

/-- The column a line of the document gives. -/
theorem byteToUtf16Column_line (doc : Document) {pre rest : List Char}
    (h : doc.text = pre ++ rest) (c : ℕ) :
    (byteToUtf16Column (octets (utf8Bytes (takeLine rest).1.body)) c).toNat =
      Scales.across Char.utf8Size utf16Size c (takeLine rest).1.body := by
  rw [octets_utf8Bytes, byteToUtf16Column_utf8Encode (extent_line_lt doc h List.prefix_rfl)]

/-- **In the document** every byte is resolved to where it is shown. -/
theorem resolveLoc_document (hbuf : sm.buffer? 1 = some ⟨inMemoryPath, doc.contents.text, []⟩)
    {l : SourceLocation} (hl : l.file = 1) :
    ∃ r, resolveLoc sm l = some r ∧
      (⟨r.line, (byteToUtf16Column r.lineText r.byteColumn).toNat⟩ : Position) =
        shownAt doc.text (offsetIn doc.contents.text l) := by
  have hoff : sm.offsetOf l = offsetIn doc.contents.text l := by
    rw [SourceManager.offsetOf, offsetIn, SourceManager.getBuffer, hl, hbuf]
    rfl
  obtain ⟨pre, rest, c, hdoc, hpre, heq, hc⟩ :=
    exists_inFirstLine doc.text (offsetIn doc.contents.text l)
  have hbytes : doc.contents.text = utf8Bytes pre ++ utf8Bytes rest := by
    rw [← utf8Bytes_append, ← hdoc]
    rfl
  have hpre' := atLineStart_utf8Bytes hpre
  rw [← hl, hbytes] at hbuf
  refine ⟨_, resolveLoc_physical hbuf (hoff.trans heq) hpre' hc, ?_⟩
  rw [heq, (takeLine_utf8Bytes rest).1, byteToUtf16Column_line doc hdoc, count_newline_utf8Bytes,
    hdoc, shownAt_append hpre hc]

/-- **In the preprocessed text** a byte is resolved to where the byte it
was copied from is shown. -/
theorem resolveLoc_synth {out : Text} {fid : FileID}
    (hbuf : sm.buffer? fid = some ⟨synthPath, out, []⟩) {o p c : ℕ}
    {pre rest pre' rest' : Text}
    (h : SameColumn out doc.contents.text o p c pre rest pre' rest') :
    ∃ r, resolveLoc sm ⟨fid, 1, o⟩ = some r ∧
      (⟨r.line, (byteToUtf16Column r.lineText r.byteColumn).toNat⟩ : Position) =
        shownAt doc.text p := by
  have hoff : sm.offsetOf ⟨fid, 1, o⟩ = pre.length + c := by
    rw [SourceManager.offsetOf, SourceManager.getBuffer, hbuf, ← h.offset_eq]
    simp [lineOffsets]
  obtain ⟨dpre, drest, hdoc, hpre, hrest⟩ := exists_split h.text_eq h.atStart'
  have hstart : AtLineStart dpre := atLineStart_of_utf8Bytes (hpre ▸ h.atStart')
  obtain ⟨hbody, -, -⟩ := takeLine_utf8Bytes drest
  -- what is kept of the line, in characters
  obtain ⟨ds, hds, hline⟩ : ∃ ds, ds <+: (takeLine drest).1.body ∧
      (takeLine rest).1.body = utf8Bytes ds := by
    obtain hnil | hstrip := h.line_eq
    · exact ⟨[], List.nil_prefix, hnil⟩
    · refine ⟨stripCR (takeLine drest).1.body, ?_, ?_⟩
      · unfold stripCR
        split_ifs
        · exact List.dropLast_prefix _
        · exact List.prefix_rfl
      · rw [hstrip, hrest, hbody, stripCR_utf8Bytes]
  have hcol : c ≤ Scales.extent Char.utf8Size ds := by
    rw [← length_utf8Bytes, ← hline]
    exact h.column_le
  obtain ⟨es, hes⟩ := hds
  have hin : InFirstLine rest c := fun _ => h.column_le
  have hin' : InFirstLine (utf8Bytes drest) c := by
    intro _
    rw [hbody, ← hes, length_utf8Bytes, Scales.extent_append]
    omega
  rw [h.out_eq] at hbuf
  refine ⟨_, resolveLoc_physical (l := ⟨fid, 1, o⟩) hbuf hoff h.atStart hin, ?_⟩
  rw [hline, octets_utf8Bytes,
    byteToUtf16Column_utf8Encode (extent_line_lt doc hdoc ⟨es, hes⟩), h.origin_eq, h.count_eq, hdoc,
    hpre, shownAt_append hstart hin', count_newline_utf8Bytes, ← hes]
  congr 1
  rw [Scales.across, Scales.across, Scales.within_append_of_le Char.utf8Size_pos hcol]

end Resolve

/-! ## Calls over a list -/

section Collect

variable {α β γ : Type*} {R : α → γ → Prop} {g : β → Option γ} {as : List α} {bs : List β}

/-- Calls that all answer, each as it should. -/
theorem exists_mapM (h : List.Forall₂ (fun a b => ∃ c, g b = some c ∧ R a c) as bs) :
    ∃ cs, bs.mapM g = some cs ∧ List.Forall₂ R as cs := by
  induction h with
  | nil => exact ⟨[], rfl, .nil⟩
  | cons hab _ ih =>
    obtain ⟨c, hc, hR⟩ := hab
    obtain ⟨cs, hcs, hall⟩ := ih
    exact ⟨c :: cs, by simp [List.mapM_cons, hc, hcs], .cons hR hall⟩

end Collect

/-! ## The run -/

section Run

variable {env : Env} {doc : Document}

theorem splicesNext_line (h : CopiedText doc.contents) (env : Env) {n : ℕ} {u : Text}
    (hnext : SplicesNext (runState env n (initial inMemoryPath doc.contents [])) u) :
    ∀ pos name, .ref pos name ∉ pieces u := by
  obtain ⟨-, f, fs, l, hstack, hread, -, hline⟩ := hnext
  have hmem : l ∈ splitLines doc.contents.text := by
    rcases Nat.lt_or_ge (splitLines doc.contents.text).length n with hlt | hge
    · -- behind the last line there is no frame
      have hend : ∀ m, (runState env ((splitLines doc.contents.text).length + 1 + m)
          (initial inMemoryPath doc.contents [])).includeStack = [] := by
        intro m
        induction m with
        | zero =>
          have hfin := (h.endState env inMemoryPath).2.2
          rw [State.finished, Bool.and_eq_true, List.isEmpty_iff] at hfin
          exact hfin.2
        | succ m ih =>
          rw [← Nat.add_assoc, runState_succ, step_eq_none_iff.2 (.inr ih)]
          exact ih
      obtain ⟨m, rfl⟩ := Nat.exists_eq_add_of_le hlt
      rw [hend m] at hstack
      cases hstack
    · obtain ⟨g, hg, -, -⟩ := h.stateAt env inMemoryPath n hge
      obtain ⟨rfl, -⟩ := List.cons.inj (hstack.symm.trans hg.stack)
      have hget := hg.readLine.symm.trans hread
      exact List.mem_of_getElem? hget
  obtain ⟨hdir, rfl⟩ | hdir := hline
  · exact h.noReferences l hmem hdir
  · exact absurd hdir (h.noLines l hmem u)

/-- The engine holds what the preprocessor reported, all of it in the
document. -/
theorem exists_entries (h : CopiedText doc.contents) (env : Env) :
    ∃ e, engineAt env (initial inMemoryPath doc.contents [])
        ((splitLines doc.contents.text).length + 1) = some e ∧
      e.Fits (preprocessed env doc.contents) ∧ LocatedState (preprocessed env doc.contents) := by
  have hsafe : ∀ n u, SplicesNext (runState env n (initial inMemoryPath doc.contents [])) u →
      ¬ FailsUnlocated env.expr
        (runState env n (initial inMemoryPath doc.contents [])).macros u := by
    rintro n u hnext ⟨pos, name, d, hmem, -⟩
    exact splicesNext_line h env hnext pos name hmem
  obtain ⟨hloc, e, he, hfits⟩ := exists_engine
    (locatedState_initial inMemoryPath doc.contents []) rfl hsafe
    ((splitLines doc.contents.text).length + 1)
  exact ⟨e, he, hfits, hloc⟩

/-- Only the document is registered before the output is. -/
theorem registered_iff (h : CopiedText doc.contents) (env : Env) (f : FileID) :
    Registered (preprocessed env doc.contents).sm f ↔ f = 1 := by
  rw [preprocessed, (h.endState env inMemoryPath).2.1, Registered]
  constructor
  · rintro ⟨hpos, hle⟩
    exact Nat.le_antisymm hle hpos
  · rintro rfl
    exact ⟨Nat.one_pos, Nat.le_refl 1⟩

/-- A diagnostic whose location is resolved is mapped. -/
theorem exists_toLspDiagnostic {sm : SourceManager} {d : NotedDiagnostic} {l : SourceLocation}
    {r : Resolved} (hloc : d.loc = some l) (hr : resolveLoc sm l = some r)
    (hnotes : ∀ n ∈ d.notes, (sm.buffer? n.loc.file).isSome) :
    ∃ m, toLspDiagnostic sm d = some m ∧
      m.range.start = ⟨r.line, (byteToUtf16Column r.lineText r.byteColumn).toNat⟩ ∧
      m.severity = severityToLsp d.severity ∧ m.message = d.message := by
  have hrelated : (d.notes.mapM (relatedInformation sm)).isSome := by
    rw [mapM_isSome_iff]
    intro n hn
    rw [relatedInformation, Option.isSome_map, resolveLoc, Option.isSome_map]
    exact hnotes n hn
  obtain ⟨related, hmap⟩ := Option.isSome_iff_exists.1 hrelated
  refine ⟨_, by rw [toLspDiagnostic, buildRange, hloc, Option.bind_some, hr, Option.map_some,
    Option.bind_some, hmap, Option.map_some], rfl, rfl, rfl⟩

/-- **A preprocessor report is shown at its byte.** -/
theorem shownInPlace_entry (h : CopiedText doc.contents) {e : Engine}
    (hfits : e.Fits (preprocessed env doc.contents))
    (hlocated : LocatedState (preprocessed env doc.contents)) {sm : SourceManager}
    (hbuf : sm.buffer? 1 = some ⟨inMemoryPath, doc.contents.text, []⟩)
    {en : Entry Preprocess.Message} (hen : en ∈ e.entries) :
    ∃ m, toLspDiagnostic sm (ofEntry en) = some m ∧
      ShownInPlace env doc (.preprocessor en.diag) m := by
  have hdiag : en.diag ∈ (preprocessed env doc.contents).diags := by
    rw [← hfits.diags]
    exact List.mem_map_of_mem hen
  have hplaced := hlocated.diags en.diag hdiag
  obtain ⟨l, hl, hreg⟩ := hplaced.located
  have hfile := (registered_iff h env l.file).1 hreg
  obtain ⟨r, hr, hshown⟩ := resolveLoc_document hbuf hfile
  have hnotes : ∀ n ∈ (ofEntry en).notes, (sm.buffer? n.loc.file).isSome := by
    intro n hn
    have hreg' : Registered (preprocessed env doc.contents).sm n.loc.file := by
      rcases List.mem_append.1 hn with hn | hn
      · obtain ⟨loc, hloc, rfl⟩ := List.mem_map.1 hn
        exact hfits.notes en hen loc hloc
      · obtain ⟨loc, hloc, rfl⟩ := List.mem_map.1 hn
        exact hplaced.previous loc (by simpa using hloc)
    rw [(registered_iff h env _).1 hreg', hbuf]
    rfl
  obtain ⟨m, hm, hstart, hsev, hmsg⟩ := exists_toLspDiagnostic (d := ofEntry en) hl hr hnotes
  exact ⟨m, hm, ⟨l, hl, hfile, hstart.trans hshown⟩, hsev, hmsg⟩

theorem tokenBegin_spec (out : Text) (n : ℕ) :
    tokenBegin out n ≤ out.length ∧ out[tokenBegin out n]? ≠ some '\n' := by
  have hlen : (Lex.Lexer.pull (n + 1) (Lex.Lexer.new out)) ≠ [] := by
    rw [Lex.Lexer.pull]
    exact List.cons_ne_nil _ _
  have hget := List.getLast?_eq_some_getLast hlen
  rw [tokenBegin, hget]
  exact Lex.pull_begin (Lex.Lexer.new out) (Nat.zero_le _) (List.getLast_mem hlen)

/-- **A report at a token is shown at the byte the token was copied
from.** -/
theorem shownInPlace_token (h : CopiedText doc.contents) {e : Engine}
    (hfits : e.Fits (preprocessed env doc.contents)) {sm : SourceManager} {fid : FileID}
    (hbuf : sm.buffer? 1 = some ⟨inMemoryPath, doc.contents.text, []⟩)
    (hsynth : sm.buffer? fid =
      some ⟨synthPath, (preprocessed env doc.contents).output, []⟩) (r : TokenReport) :
    ∃ d, reportToken sm e.sites fid (preprocessed env doc.contents).output r = some d ∧
      ∃ m, toLspDiagnostic sm d = some m ∧ ShownInPlace env doc (.token r) m := by
  obtain ⟨hle, hnl⟩ := tokenBegin_spec (preprocessed env doc.contents).output r.token
  obtain ⟨c, pre, rest, pre', rest', hcol⟩ := h.sameColumn env inMemoryPath hle hnl
  obtain ⟨v, hv, hshown⟩ := resolveLoc_synth hsynth hcol
  have hregistered : ∀ l,
      some (synthLoc fid (preprocessed env doc.contents).output r.token) = some l →
        (sm.buffer? l.file).isSome := by
    intro l hl
    obtain rfl := Option.some.inj hl
    rw [synthLoc, hsynth]
    rfl
  obtain ⟨en, hen, hdiag, hsites⟩ : ∃ en, report sm e.sites
      (⟨r.severity, some (synthLoc fid (preprocessed env doc.contents).output r.token),
        r.message, none⟩ : Diagnostic String) = some en ∧ en.diag = _ ∧
      ∀ l ∈ en.includedFrom, ∃ g, e.sites g = some l := exists_report hregistered
  refine ⟨_, by rw [reportToken, hen, Option.map_some], ?_⟩
  have hnotes : ∀ n ∈ en.notes ++ r.notes.map (fun n =>
      (⟨synthLoc fid (preprocessed env doc.contents).output n.1, n.2, false⟩ : AttachedNote)),
      (sm.buffer? n.loc.file).isSome := by
    intro n hn
    rcases List.mem_append.1 hn with hn | hn
    · rcases List.mem_append.1 hn with hn | hn
      · obtain ⟨loc, hloc, rfl⟩ := List.mem_map.1 hn
        obtain ⟨g, hg⟩ := hsites loc hloc
        rw [(registered_iff h env _).1 (hfits.sites g loc hg), hbuf]
        rfl
      · rw [hdiag] at hn
        cases hn
    · obtain ⟨x, -, rfl⟩ := List.mem_map.1 hn
      rw [synthLoc, hsynth]
      rfl
  obtain ⟨m, hm, hstart, hsev, hmsg⟩ := exists_toLspDiagnostic
    (d := ⟨r.severity, en.diag.loc, r.message, _⟩) (by rw [hdiag]; rfl) hv hnotes
  exact ⟨m, hm, hstart.trans hshown, hsev, hmsg⟩

/-! ## The preprocessed text as a buffer -/

/-- No line of the output is a marker. -/
theorem markersFrom_output (h : CopiedText doc.contents) (env : Env) :
    Driver.markersFrom 0 (splitLines (preprocessed env doc.contents).output) = [] := by
  have hhead : ∀ k ≤ (splitLines doc.contents.text).length,
      ∀ l ∈ splitLines (keptText env inMemoryPath doc.contents k), l.body.head? ≠ some '#' := by
    intro k
    induction k with
    | zero =>
      intro _ l hl
      cases hl
    | succ k ih =>
      intro hk l hl
      have hw : ∀ i < k, (lineAt doc.contents i).newline = true := fun i hi =>
        newline_of_lt (getElem?_eq_lineAt doc.contents (by omega)) (by omega)
      obtain ⟨hstart, -⟩ := keptText_whole env inMemoryPath doc.contents (by omega) hw
      rw [keptText_succ, splitLines_append hstart] at hl
      rcases List.mem_append.1 hl with hl | hl
      · exact ih (by omega) l hl
      · by_cases hne : (keptAt env inMemoryPath doc.contents k).bytes = []
        · rw [hne] at hl
          cases hl
        · have hcut := takeLine_bytes_append (r := [])
            (newline_keptAt env inMemoryPath doc.contents hk) fun _ => rfl
          rw [List.append_nil] at hcut
          rw [splitLines_eq_takeLine hne, hcut, splitLines_nil] at hl
          obtain rfl := List.mem_singleton.1 hl
          exact keptLine_head _ _
  rw [preprocessed, (h.endState env inMemoryPath).1]
  have hnone : ∀ (ls : List Line) (off : ℕ), (∀ l ∈ ls, l.body.head? ≠ some '#') →
      Driver.markersFrom off ls = [] := by
    intro ls
    induction ls with
    | nil => exact fun _ _ => rfl
    | cons l ls ih =>
      intro off hls
      have hmarker : Driver.parseMarker l.body = none := by
        rw [Driver.parseMarker, if_neg]
        intro hpre
        obtain ⟨rest, hrest⟩ := List.isPrefixOf_iff_prefix.1 hpre
        refine hls l List.mem_cons_self ?_
        rw [← hrest]
        rfl
      simp only [Driver.markersFrom, hmarker]
      exact ih _ fun k hk => hls k (List.mem_cons_of_mem l hk)
  exact hnone _ 0 (hhead _ (Nat.le_refl _))

theorem length_output_lt (h : CopiedText doc.contents) (env : Env) :
    (preprocessed env doc.contents).output.length < kMaxOffset := by
  have hle : ∀ k ≤ (splitLines doc.contents.text).length,
      (keptText env inMemoryPath doc.contents k).length ≤ lineOffset doc.contents.text k := by
    intro k
    induction k with
    | zero => exact fun _ => Nat.le_refl _
    | succ k ih =>
      intro hk
      have hbody := (keptLine_body (selectedAt env inMemoryPath doc.contents k)
        (lineAt doc.contents k)).length_le
      have hkept : (keptAt env inMemoryPath doc.contents k).bytes.length ≤
          (lineAt doc.contents k).bytes.length := by
        rw [Line.bytes, Line.bytes, List.length_append, List.length_append]
        exact Nat.add_le_add hbody (Nat.le_refl _)
      rw [keptText_succ, List.length_append, lineOffset_succ (getElem?_eq_lineAt _ hk)]
      have := ih (by omega)
      omega
  rw [preprocessed, (h.endState env inMemoryPath).1]
  have hshort := doc.contents.length_lt
  have := hle _ (Nat.le_refl _)
  have := lineOffset_le_length (Nat.le_refl (splitLines doc.contents.text).length)
  omega

/-- The preprocessed text is registered behind the document, without
overrides. -/
theorem exists_buffers (h : CopiedText doc.contents) (env : Env) :
    ∃ sm sm', (preprocessed env doc.contents).sm.addBufferInMemory synthPath
          (preprocessed env doc.contents).output = some (sm, 2) ∧
      Driver.replayLines sm 2 0 (splitLines (preprocessed env doc.contents).output) = some sm' ∧
      sm'.buffer? 1 = some ⟨inMemoryPath, doc.contents.text, []⟩ ∧
      sm'.buffer? 2 = some ⟨synthPath, (preprocessed env doc.contents).output, []⟩ := by
  have hsize : 0 + bytesLength (splitLines (preprocessed env doc.contents).output) <
      kMaxOffset := by
    rw [bytesLength_splitLines, Nat.zero_add]
    exact length_output_lt h env
  have hreplay : Driver.replayLines
      ⟨[⟨inMemoryPath, doc.contents.text, []⟩] ++
        [⟨synthPath, (preprocessed env doc.contents).output, []⟩], []⟩ 2 0
        (splitLines (preprocessed env doc.contents).output) = some _ :=
    Driver.replayLines_eq 0 (fun l hl => bytes_pos_of_mem hl) hsize [] (by simp)
  rw [markersFrom_output h env, List.append_nil] at hreplay
  refine ⟨_, _, ?_, hreplay, rfl, rfl⟩
  rw [preprocessed, (h.endState env inMemoryPath).2.1]
  rfl

/-- **Diagnostics are published in place.** A document without
`#include` and `#line` directives and without `%NAME%` references is
preprocessed by copying bytes of it, in order; every report of every
phase is published, sorted stably by line, character and severity, and
shown where its byte is. -/
theorem publishedInPlace (env : Env) (doc : Document) (front : Text → List TokenReport)
    (h : CopiedText doc.contents) :
    ((preprocessed env doc.contents).output.map some =
        (origins env inMemoryPath doc.contents).map (fun o => doc.contents.text[o]?) ∧
      (origins env inMemoryPath doc.contents).Pairwise (· < ·)) ∧
    ∃ mapped published, publishDiagnostics env doc front = some published ∧
      StableSort.StablySorted sortKey mapped published ∧
      List.Forall₂ (ShownInPlace env doc) (phaseReports env doc front) mapped := by
  refine ⟨h.output_origins env inMemoryPath, ?_⟩
  obtain ⟨e, he, hfits, hlocated⟩ := exists_entries h env
  have hfirst : (preprocessed env doc.contents).sm.buffer? 1 =
      some ⟨inMemoryPath, doc.contents.text, []⟩ := by
    rw [preprocessed, (h.endState env inMemoryPath).2.1]
    rfl
  -- what the preprocessor reported, in any source manager that has the document
  have hentries : ∀ sm : SourceManager,
      sm.buffer? 1 = some ⟨inMemoryPath, doc.contents.text, []⟩ →
      List.Forall₂ (fun p d => ∃ m, toLspDiagnostic sm d = some m ∧ ShownInPlace env doc p m)
        ((preprocessed env doc.contents).diags.map .preprocessor) (e.entries.map ofEntry) := by
    intro sm hbuf
    rw [← hfits.diags, List.map_map, List.forall₂_map_left_iff, List.forall₂_map_right_iff,
      List.forall₂_same]
    exact fun en hen => shownInPlace_entry h hfits hlocated hbuf hen
  cases hs : (preprocessed env doc.contents).succeeded with
  | true =>
    obtain ⟨sm, sm', hadd, hreplay, hbuf, hsynth⟩ := exists_buffers h env
    -- the reports behind it, at the tokens
    have htokens : List.Forall₂
        (fun p r => ∃ d, reportToken sm' e.sites 2 (preprocessed env doc.contents).output r = some d ∧
          ∃ m, toLspDiagnostic sm' d = some m ∧ ShownInPlace env doc p m)
        ((front (preprocessed env doc.contents).output).map .token)
        (front (preprocessed env doc.contents).output) := by
      rw [List.forall₂_map_left_iff, List.forall₂_same]
      exact fun r _ => shownInPlace_token h hfits hbuf hsynth r
    obtain ⟨ds, hds, hall⟩ := exists_mapM htokens
    obtain ⟨mapped, hmap, hshown⟩ :=
      exists_mapM (List.rel_append (hentries sm' hbuf) hall)
    obtain ⟨published, hpub, hsorted⟩ := toLspDiagnosticArray_eq hmap
    refine ⟨mapped, published, ?_, hsorted, ?_⟩
    · rw [publishDiagnostics, runPipeline]
      simp only [he, Option.bind_some, hs, if_true, hadd, hreplay, hds, Option.map_some, hpub]
    · rw [phaseReports]
      simp only [hs, if_true]
      exact hshown
  | false =>
    obtain ⟨mapped, hmap, hshown⟩ := exists_mapM (hentries _ hfirst)
    obtain ⟨published, hpub, hsorted⟩ := toLspDiagnosticArray_eq hmap
    refine ⟨mapped, published, ?_, hsorted, ?_⟩
    · rw [publishDiagnostics, runPipeline]
      simp only [he, Option.bind_some, hs, Bool.false_eq_true, if_false, hpub]
    · rw [phaseReports]
      simp only [hs, Bool.false_eq_true, if_false, List.append_nil]
      exact hshown

/-- A redefinition, a conditional, and text outside of ASCII. -/
def sampleDocument : Document :=
  ⟨"#define A 1\n#define A 2\n#ifdef A\né = \"ü😀\" x\n#endif\ny".toList, by decide +kernel⟩

/-- An error at the end and one at `x`. -/
def sampleReports : Text → List TokenReport := fun _ =>
  [⟨.error, 7, "expected ';'", []⟩, ⟨.error, 4, "unresolved name 'x' (S01)", []⟩]

theorem publishedInPlace_sampleDocument :
    (preprocessed bareEnv sampleDocument.contents).succeeded = true ∧
    ∃ mapped published, publishDiagnostics bareEnv sampleDocument sampleReports = some published ∧
      StableSort.StablySorted sortKey mapped published ∧
      List.Forall₂ (ShownInPlace bareEnv sampleDocument)
        (phaseReports bareEnv sampleDocument sampleReports) mapped :=
  ⟨by decide +kernel,
    (publishedInPlace bareEnv sampleDocument sampleReports (by decide +kernel)).2⟩

end Run

end LSP

end Nslc
