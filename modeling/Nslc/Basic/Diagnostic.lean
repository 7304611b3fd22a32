import Nslc.Basic.VirtualLocation
/-!
# Diagnostics — the engine and its rendering

`DiagnosticEngine` collects what the phases report and writes it out at
the end. Both `report`, which notes the includes a file came in by, and
`renderAll` look locations up in the source manager, and a location in
a file that is not registered stops the program there: `none` here.
`renderAll_isSome_iff` says when that does not happen.
-/

namespace Nslc

namespace SourceManager

/-- The byte offset of a location: its line's first byte and the
distance from it. -/
def offsetOf (sm : SourceManager) (l : SourceLocation) : ℕ :=
  (lineOffsets (sm.getBuffer l.file)).getD (l.line - 1) 0 + l.delta

/-- `resolveVirtual` of a reported location. The invalid location is in
file `0`, which is never registered. -/
def resolve (sm : SourceManager) : Option SourceLocation → Option (Text × ℕ × ℕ)
  | none => none
  | some l => sm.resolveVirtual l.file (sm.offsetOf l)

theorem resolve_isSome_iff {sm : SourceManager} {loc : Option SourceLocation} :
    (sm.resolve loc).isSome ↔ ∃ l, loc = some l ∧ (sm.buffer? l.file).isSome := by
  cases loc with
  | none => simp [resolve]
  | some l => simp [resolve, resolveVirtual]

end SourceManager

/-! ## The includes a file came in by -/

/-- The include that pulled a file in first (`permanent_include_sites`). -/
abbrev IncludeSites := FileID → Option SourceLocation

namespace IncludeSites

/-- What `pushIncludeFrame` records for good. -/
def record (sites : IncludeSites) (loc : SourceLocation) (included : FileID) : IncludeSites :=
  fun f => if f = included ∧ included ≠ 0 then (sites f).or (some loc) else sites f

/-- `getOriginalIncludeStackFor`, the loop bounded by `n`. -/
def above (sites : IncludeSites) : ℕ → FileID → List SourceLocation
  | 0, _ => []
  | n + 1, cursor =>
    if cursor = 0 then []
    else
      match sites cursor with
      | none => []
      | some site => site :: if site.file = cursor then [] else sites.above n site.file

theorem mem_above {sites : IncludeSites} {n : ℕ} {f : FileID} {l : SourceLocation}
    (h : l ∈ sites.above n f) : ∃ g, sites g = some l := by
  induction n generalizing f with
  | zero => simp [above] at h
  | succ n ih =>
    simp only [above] at h
    split_ifs at h
    · simp at h
    · cases hs : sites f with
      | none => simp [hs] at h
      | some site =>
        simp only [hs] at h
        rcases List.mem_cons.1 h with rfl | h
        · exact ⟨f, hs⟩
        · split_ifs at h
          · simp at h
          · exact ih h

end IncludeSites

/-! ## Reporting -/

variable {μ : Type}

/-- A diagnostic as the engine keeps it, with the include sites noted
behind it. -/
structure Entry (μ : Type) where
  diag : Diagnostic μ
  includedFrom : List SourceLocation

/-- `DiagnosticEngine::report`: an invalid location is not looked up. -/
def report (sm : SourceManager) (sites : IncludeSites) (d : Diagnostic μ) : Option (Entry μ) :=
  if d.severity ≠ .note ∧ d.loc.isSome then
    (sm.resolve d.loc).map fun v =>
      ⟨d, ((sm.findFileIDByPath v.1).map (sites.above (sm.buffers.length + 1))).getD []⟩
  else some ⟨d, []⟩

theorem exists_report {sm : SourceManager} {sites : IncludeSites} {d : Diagnostic μ}
    (h : ∀ l, d.loc = some l → (sm.buffer? l.file).isSome) :
    ∃ e, report sm sites d = some e ∧ e.diag = d ∧
      ∀ l ∈ e.includedFrom, ∃ g, sites g = some l := by
  unfold report
  split_ifs with hv
  · obtain ⟨l, hl⟩ := Option.isSome_iff_exists.1 hv.2
    obtain ⟨v, hres⟩ := Option.isSome_iff_exists.1
      (SourceManager.resolve_isSome_iff.2 ⟨l, hl, h l hl⟩)
    rw [hres, Option.map_some]
    refine ⟨_, rfl, rfl, ?_⟩
    intro site hsite
    cases hf : sm.findFileIDByPath v.1 with
    | none => simp [hf] at hsite
    | some phys =>
      simp only [hf, Option.map_some, Option.getD_some] at hsite
      exact IncludeSites.mem_above hsite
  · exact ⟨_, rfl, rfl, by simp⟩

theorem exists_reports {sm : SourceManager} (sites : IncludeSites) {ds : List (Diagnostic μ)}
    (h : ∀ d ∈ ds, ∀ l, d.loc = some l → (sm.buffer? l.file).isSome) :
    ∃ es, ds.mapM (report sm sites) = some es ∧ es.map Entry.diag = ds ∧
      ∀ e ∈ es, ∀ l ∈ e.includedFrom, ∃ g, sites g = some l := by
  induction ds with
  | nil => exact ⟨[], rfl, rfl, by simp⟩
  | cons d ds ih =>
    have hreport : ∃ e, report sm sites d = some e ∧ e.diag = d ∧
        ∀ l ∈ e.includedFrom, ∃ g, sites g = some l := exists_report (h d (by simp))
    obtain ⟨e, he, hdiag, hsites⟩ := hreport
    obtain ⟨es, hes, hmap, hall⟩ := ih fun d' hd' => h d' (by simp [hd'])
    refine ⟨e :: es, by simp [List.mapM_cons, he, hes], by simp [hdiag, hmap], ?_⟩
    intro e' he'
    rcases List.mem_cons.1 he' with rfl | he'
    · exact hsites
    · exact hall e' he'

/-! ## Rendering -/

inductive Format where
  | text
  | json

def severityName : Severity → String
  | .note => "note"
  | .warning => "warning"
  | .error => "error"

/-- `\u00XX` of a control character. -/
def unicodeEscape (c : Char) : Text :=
  let digit (n : ℕ) : Char := "0123456789abcdef".toList.getD n '0'
  "\\u00".toList ++ [digit (c.toNat / 16), digit (c.toNat % 16)]

def jsonChar (c : Char) : Text :=
  if c = '"' then "\\\"".toList
  else if c = '\\' then "\\\\".toList
  else if c.toNat = 8 then "\\b".toList
  else if c.toNat = 12 then "\\f".toList
  else if c = '\n' then "\\n".toList
  else if c = '\r' then "\\r".toList
  else if c = '\t' then "\\t".toList
  else if c.toNat < 32 then unicodeEscape c
  else [c]

/-- `writeJsonString`. -/
def jsonString (s : String) : String := "\"" ++ String.ofList (s.toList.flatMap jsonChar) ++ "\""

/-- The fields naming a place. -/
def jsonPlace (v : Text × ℕ × ℕ) : String :=
  "\"path\":" ++ jsonString (String.ofList v.1) ++ ",\"line\":" ++ toString v.2.1 ++
    ",\"col\":" ++ toString v.2.2

/-- `writeJsonObject`. -/
def jsonObject (v : Text × ℕ × ℕ) (sev : Severity) (message : String) (isNote : Bool) : String :=
  "\x7b" ++ jsonPlace v ++ ",\"severity\":" ++ jsonString (severityName sev) ++ ",\"message\":" ++
    jsonString message ++
    (if isNote then ",\"included_from\":\x7b" ++ jsonPlace v ++ "\x7d" else "") ++ "\x7d\n"

def textPlace (v : Text × ℕ × ℕ) : String :=
  String.ofList v.1 ++ ":" ++ toString v.2.1 ++ ":" ++ toString v.2.2

/-- `writeTextHeaderLine`. -/
def textHeaderLine (v : Text × ℕ × ℕ) (sev : Severity) (message : String)
    (isIncludeFrom : Bool) : String :=
  if isIncludeFrom then "note: included from " ++ textPlace v ++ "\n"
  else textPlace v ++ ": " ++ severityName sev ++ ": " ++ message ++ "\n"

/-- A note behind a diagnostic. -/
structure AttachedNote where
  loc : SourceLocation
  message : String
  isIncludeFrom : Bool

/-- In the order they are attached. -/
def Entry.notes (e : Entry μ) : List AttachedNote :=
  (e.includedFrom.map fun l => ⟨l, "included from", true⟩) ++
    e.diag.previous.toList.map fun l => ⟨l, "previous definition was here", false⟩

section Render

variable (sm : SourceManager) (fmt : Format) (message : μ → String)

def Format.line (v : Text × ℕ × ℕ) (sev : Severity) (message : String)
    (isNote isIncludeFrom : Bool) : String :=
  match fmt with
  | .text => textHeaderLine v sev message isIncludeFrom
  | .json => jsonObject v sev message isNote

def renderNote (n : AttachedNote) : Option String :=
  (sm.resolve (some n.loc)).map fun v => fmt.line v .note n.message true n.isIncludeFrom

/-- A diagnostic, then its notes. -/
def renderEntry (e : Entry μ) : Option String :=
  (sm.resolve e.diag.loc).bind fun v =>
    (e.notes.mapM (renderNote sm fmt)).map fun ns =>
      fmt.line v e.diag.severity (message e.diag.message) false false ++ String.join ns

/-- The packed bits of a location, which order the output. -/
def rawBits : Option SourceLocation → ℕ
  | none => 0
  | some l => l.file * 2 ^ 24 + sm.offsetOf l

def Severity.rank : Severity → ℕ
  | .note => 0
  | .warning => 1
  | .error => 2

def diagLess (a b : Diagnostic μ) : Bool :=
  if rawBits sm a.loc < rawBits sm b.loc then true
  else if rawBits sm b.loc < rawBits sm a.loc then false
  else a.severity.rank < b.severity.rank

/-- `DiagnosticEngine::renderAll`, behind a stable sort by location and
severity. -/
def renderAll (es : List (Entry μ)) : Option String :=
  ((es.mergeSort fun a b => !diagLess sm b.diag a.diag).mapM (renderEntry sm fmt message)).map
    String.join

theorem mapM_isSome_iff {α β : Type*} {f : α → Option β} {l : List α} :
    (l.mapM f).isSome ↔ ∀ a ∈ l, (f a).isSome := by
  induction l with
  | nil => simp
  | cons a l ih =>
    rw [List.mapM_cons, List.forall_mem_cons, ← ih]
    cases f a with
    | none => simp
    | some b => cases hl : l.mapM f <;> simp

theorem renderEntry_isSome_iff {e : Entry μ} :
    (renderEntry sm fmt message e).isSome ↔
      (sm.resolve e.diag.loc).isSome ∧ ∀ n ∈ e.notes, (sm.resolve (some n.loc)).isSome := by
  have hnotes : (e.notes.mapM (renderNote sm fmt)).isSome ↔
      ∀ n ∈ e.notes, (sm.resolve (some n.loc)).isSome := by
    simp [mapM_isSome_iff, renderNote]
  rw [← hnotes, renderEntry]
  cases sm.resolve e.diag.loc <;> simp

/-- **Rendering reaches no abort** exactly where every diagnostic and
every note stands in a registered file. -/
theorem renderAll_isSome_iff {es : List (Entry μ)} :
    (renderAll sm fmt message es).isSome ↔ ∀ e ∈ es,
      (sm.resolve e.diag.loc).isSome ∧ ∀ n ∈ e.notes, (sm.resolve (some n.loc)).isSome := by
  simp only [renderAll, Option.isSome_map, mapM_isSome_iff, renderEntry_isSome_iff,
    List.mem_mergeSort]

end Render

end Nslc
