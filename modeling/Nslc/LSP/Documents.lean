import Mathlib
import Nslc.Common.Interleave
import Nslc.Common.Lines
/-!
# LSP — documents and the worker pool

`TUScheduler` keeps one `NslTU` for each open URI and reparses it on pool
workers. The dispatch thread and the workers share the table `tus_` and
each document's state; every section under a mutex is one step here, and
so are the two atomic accesses outside of one. The pipeline a reparse
runs is a parameter: a function of the text.

A worker finds its document by URI when it starts, stores its result
without looking at what is there, compares its version with the last one
received, and then publishes what the document holds by then. Sections
of other threads can come between any two of these.
-/

namespace Nslc

namespace LSP

/-- `static_cast<int>` of a 64-bit number. -/
def toInt (v : ℤ) : ℤ := Int.bmod v (2 ^ 32)

variable {υ δ : Type} [DecidableEq υ]

/-- A document's translation unit. `uri` is the URI it was made for,
which the source does not keep. -/
structure NslTU (υ δ : Type) where
  uri : υ
  version : ℤ
  contents : Text
  /-- The pipeline's result; `none` before the first reparse. -/
  result : Option δ
  latestReceived : ℤ

namespace NslTU

def make (u : υ) : NslTU υ δ := ⟨u, -1, [], none, -1⟩

def noteReceived (tu : NslTU υ δ) (version : ℤ) : NslTU υ δ :=
  { tu with latestReceived := max tu.latestReceived version }

/-- `NslTU::reparse` and its `runPipeline`. -/
def reparse (diagnose : Text → δ) (tu : NslTU υ δ) (version : ℤ) (contents : Text) : NslTU υ δ :=
  { tu with version := version, contents := contents, result := some (diagnose contents) }

end NslTU

/-! ## Threads -/

/-- The document notifications, their params well formed. -/
inductive Notification (υ : Type) where
  | didOpen (uri : υ) (version : ℤ) (text : Text)
  | didChange (uri : υ) (version : ℤ) (text : Text)
  | didClose (uri : υ)
  deriving DecidableEq, Repr

/-- Where the dispatch thread stands in a handler: in front of the
section it is about to enter. `home` is the unit its update was noted
in, which the source does not pass on. -/
inductive Pc (υ : Type) where
  | idle
  | staleLookup (uri : υ) (version : ℤ) (text : Text)
  | staleRead (tu : ℕ) (uri : υ) (version : ℤ) (text : Text)
  | opening (uri : υ) (version : ℤ) (text : Text)
  | updating (uri : υ) (version : ℤ) (text : Text)
  | scheduling (home : ℕ) (uri : υ) (version : ℤ) (text : Text)
  | enqueueing (home : ℕ) (uri : υ) (version : ℤ) (text : Text)
  | closeLookup (uri : υ)
  | closeRead (tu : ℕ) (uri : υ)
  | closePublish (uri : υ) (version : ℤ)
  | closeErase (uri : υ)
  deriving DecidableEq, Repr

/-- How far a worker is: `gone` where its URI was closed before it ran,
`done` where it has published or dropped its result. -/
inductive Phase where
  | queued
  | gone
  | found (tu : ℕ)
  | reparsed (tu : ℕ)
  | checked (tu : ℕ)
  | done (tu : ℕ)
  deriving DecidableEq, Repr

/-- The unit a worker has looked up. -/
def Phase.tu? : Phase → Option ℕ
  | .queued | .gone => none
  | .found t | .reparsed t | .checked t | .done t => some t

/-- The unit a worker has stored its result in. -/
def Phase.stored? : Phase → Option ℕ
  | .queued | .gone | .found _ => none
  | .reparsed t | .checked t | .done t => some t

theorem Phase.tu?_of_stored? {p : Phase} {t : ℕ} (h : p.stored? = some t) : p.tu? = some t := by
  cases p <;> first | exact h | cases h

structure Worker (υ : Type) where
  uri : υ
  version : ℤ
  contents : Text
  home : ℕ
  phase : Phase
  deriving DecidableEq, Repr

/-- A `publishDiagnostics` message; `diagnostics` is `none` for an empty
array. `sender` is the worker it comes from, `none` for the message of a
`didClose`. -/
structure Message (υ δ : Type) where
  uri : υ
  version : ℤ
  diagnostics : Option δ
  sender : Option ℕ
  deriving DecidableEq, Repr

/-- What the client sees, in order. -/
inductive Event (υ δ : Type) where
  | received (n : Notification υ)
  | published (m : Message υ δ)
  deriving DecidableEq, Repr

structure Documents (υ δ : Type) where
  /-- `tus_`: the unit of each open URI. -/
  tus : υ → Option ℕ
  /-- Every unit made so far, by its number. -/
  heap : ℕ → NslTU υ δ
  fresh : ℕ
  pc : Pc υ
  pool : List (Worker υ)
  log : List (Event υ δ)

/-! ## Steps -/

inductive Action (υ : Type) where
  | receive (n : Notification υ)
  /-- The dispatch thread's next section. -/
  | dispatch
  | lookup (i : ℕ)
  | reparse (i : ℕ)
  | check (i : ℕ)
  | publish (i : ℕ)
  deriving DecidableEq, Repr

namespace Documents

/-- Where a handler starts. `onDidOpen` narrows the version at once. -/
def start : Notification υ → Pc υ
  | .didOpen u v t => .opening u (toInt v) t
  | .didChange u v t => .staleLookup u v t
  | .didClose u => .closeLookup u

/-- The unit of a URI is made if there is none. -/
def ensure (s : Documents υ δ) (u : υ) : Documents υ δ :=
  match s.tus u with
  | some _ => s
  | none =>
    { s with
      tus := Function.update s.tus u (some s.fresh)
      heap := Function.update s.heap s.fresh (.make u)
      fresh := s.fresh + 1 }

def setUnit (s : Documents υ δ) (t : ℕ) (tu : NslTU υ δ) : Documents υ δ :=
  { s with heap := Function.update s.heap t tu }

def setPhase (s : Documents υ δ) (i : ℕ) (w : Worker υ) (p : Phase) : Documents υ δ :=
  { s with pool := s.pool.set i { w with phase := p } }

/-- The dispatch thread's sections. -/
def dispatch (s : Documents υ δ) : Option (Documents υ δ) :=
  match s.pc with
  | .idle => none
  | .staleLookup u v t =>
    match s.tus u with
    | none => some { s with pc := .opening u (toInt v) t }
    | some tu => some { s with pc := .staleRead tu u v t }
  | .staleRead tu u v t =>
    -- compared as 64-bit numbers; a negative version counts as none
    if 0 ≤ (s.heap tu).version ∧ v ≤ (s.heap tu).version then some { s with pc := .idle }
    else some { s with pc := .opening u (toInt v) t }
  | .opening u v t => some { s.ensure u with pc := .updating u v t }
  | .updating u v t =>
    let s := s.ensure u
    match s.tus u with
    | none => none
    | some tu => some { s.setUnit tu ((s.heap tu).noteReceived v) with pc := .scheduling tu u v t }
  | .scheduling home u v t => some { s.ensure u with pc := .enqueueing home u v t }
  | .enqueueing home u v t =>
    some { s with pool := s.pool ++ [⟨u, v, t, home, .queued⟩], pc := .idle }
  | .closeLookup u =>
    match s.tus u with
    | none => some { s with pc := .closePublish u 0 }
    | some tu => some { s with pc := .closeRead tu u }
  | .closeRead tu u => some { s with pc := .closePublish u (s.heap tu).version }
  | .closePublish u v =>
    some { s with log := s.log ++ [.published ⟨u, v, none, none⟩], pc := .closeErase u }
  | .closeErase u => some { s with tus := Function.update s.tus u none, pc := .idle }

/-- `schedule`'s lambda, section by section, for the worker `i`. -/
def step (diagnose : Text → δ) (s : Documents υ δ) : Action υ → Option (Documents υ δ)
  | .receive n =>
    match s.pc with
    | .idle => some { s with log := s.log ++ [.received n], pc := start n }
    | _ => none
  | .dispatch => s.dispatch
  | .lookup i =>
    s.pool[i]?.bind fun w =>
      match w.phase with
      | .queued =>
        match s.tus w.uri with
        | none => some (s.setPhase i w .gone)
        | some tu => some (s.setPhase i w (.found tu))
      | _ => none
  | .reparse i =>
    s.pool[i]?.bind fun w =>
      match w.phase with
      | .found tu =>
        some ((s.setUnit tu ((s.heap tu).reparse diagnose w.version w.contents)).setPhase i w
          (.reparsed tu))
      | _ => none
  | .check i =>
    s.pool[i]?.bind fun w =>
      match w.phase with
      | .reparsed tu =>
        if w.version < (s.heap tu).latestReceived then some (s.setPhase i w (.done tu))
        else some (s.setPhase i w (.checked tu))
      | _ => none
  | .publish i =>
    s.pool[i]?.bind fun w =>
      match w.phase with
      | .checked tu =>
        some { s.setPhase i w (.done tu) with
          log := s.log ++ [.published ⟨w.uri, w.version, (s.heap tu).result, some i⟩] }
      | _ => none

/-- No document open, no worker. -/
def initial [Inhabited υ] : Documents υ δ :=
  ⟨fun _ => none, fun _ => .make default, 0, .idle, [], []⟩

section Fields

variable (s : Documents υ δ) (u : υ)

@[simp] theorem ensure_pc : (s.ensure u).pc = s.pc := by
  unfold ensure
  split <;> rfl

@[simp] theorem ensure_pool : (s.ensure u).pool = s.pool := by
  unfold ensure
  split <;> rfl

@[simp] theorem ensure_log : (s.ensure u).log = s.log := by
  unfold ensure
  split <;> rfl

theorem ensure_of_some {t : ℕ} (h : s.tus u = some t) : s.ensure u = s := by
  simp [ensure, h]

end Fields

/-! ## What a step can do -/

/-- The steps, each with its guard and the state behind it. -/
inductive StepCase (diagnose : Text → δ) (s : Documents υ δ) : Action υ → Documents υ δ → Prop
  | receive (n : Notification υ) : s.pc = .idle →
      StepCase diagnose s (.receive n) { s with log := s.log ++ [.received n], pc := start n }
  | staleAbsent {u : υ} {v : ℤ} {x : Text} : s.pc = .staleLookup u v x → s.tus u = none →
      StepCase diagnose s .dispatch { s with pc := .opening u (toInt v) x }
  | stalePresent {u : υ} {v : ℤ} {x : Text} {t : ℕ} : s.pc = .staleLookup u v x →
      s.tus u = some t → StepCase diagnose s .dispatch { s with pc := .staleRead t u v x }
  | ignored {u : υ} {v : ℤ} {x : Text} {t : ℕ} : s.pc = .staleRead t u v x →
      0 ≤ (s.heap t).version ∧ v ≤ (s.heap t).version →
      StepCase diagnose s .dispatch { s with pc := .idle }
  | accepted {u : υ} {v : ℤ} {x : Text} {t : ℕ} : s.pc = .staleRead t u v x →
      ¬ (0 ≤ (s.heap t).version ∧ v ≤ (s.heap t).version) →
      StepCase diagnose s .dispatch { s with pc := .opening u (toInt v) x }
  | opened {u : υ} {v : ℤ} {x : Text} : s.pc = .opening u v x →
      StepCase diagnose s .dispatch { s.ensure u with pc := .updating u v x }
  | noted {u : υ} {v : ℤ} {x : Text} {t : ℕ} : s.pc = .updating u v x →
      (s.ensure u).tus u = some t →
      StepCase diagnose s .dispatch
        { (s.ensure u).setUnit t (((s.ensure u).heap t).noteReceived v) with
          pc := .scheduling t u v x }
  | scheduled {u : υ} {v : ℤ} {x : Text} {h : ℕ} : s.pc = .scheduling h u v x →
      StepCase diagnose s .dispatch { s.ensure u with pc := .enqueueing h u v x }
  | enqueued {u : υ} {v : ℤ} {x : Text} {h : ℕ} : s.pc = .enqueueing h u v x →
      StepCase diagnose s .dispatch
        { s with pool := s.pool ++ [⟨u, v, x, h, .queued⟩], pc := .idle }
  | closeAbsent {u : υ} : s.pc = .closeLookup u → s.tus u = none →
      StepCase diagnose s .dispatch { s with pc := .closePublish u 0 }
  | closePresent {u : υ} {t : ℕ} : s.pc = .closeLookup u → s.tus u = some t →
      StepCase diagnose s .dispatch { s with pc := .closeRead t u }
  | closeRead {u : υ} {t : ℕ} : s.pc = .closeRead t u →
      StepCase diagnose s .dispatch { s with pc := .closePublish u (s.heap t).version }
  | closePublished {u : υ} {v : ℤ} : s.pc = .closePublish u v →
      StepCase diagnose s .dispatch
        { s with log := s.log ++ [.published ⟨u, v, none, none⟩], pc := .closeErase u }
  | erased {u : υ} : s.pc = .closeErase u →
      StepCase diagnose s .dispatch { s with tus := Function.update s.tus u none, pc := .idle }
  | gone {i : ℕ} {w : Worker υ} : s.pool[i]? = some w → w.phase = .queued → s.tus w.uri = none →
      StepCase diagnose s (.lookup i) (s.setPhase i w .gone)
  | found {i : ℕ} {w : Worker υ} {t : ℕ} : s.pool[i]? = some w → w.phase = .queued →
      s.tus w.uri = some t → StepCase diagnose s (.lookup i) (s.setPhase i w (.found t))
  | stored {i : ℕ} {w : Worker υ} {t : ℕ} : s.pool[i]? = some w → w.phase = .found t →
      StepCase diagnose s (.reparse i)
        ((s.setUnit t ((s.heap t).reparse diagnose w.version w.contents)).setPhase i w
          (.reparsed t))
  | dropped {i : ℕ} {w : Worker υ} {t : ℕ} : s.pool[i]? = some w → w.phase = .reparsed t →
      w.version < (s.heap t).latestReceived →
      StepCase diagnose s (.check i) (s.setPhase i w (.done t))
  | passed {i : ℕ} {w : Worker υ} {t : ℕ} : s.pool[i]? = some w → w.phase = .reparsed t →
      ¬ w.version < (s.heap t).latestReceived →
      StepCase diagnose s (.check i) (s.setPhase i w (.checked t))
  | published {i : ℕ} {w : Worker υ} {t : ℕ} : s.pool[i]? = some w → w.phase = .checked t →
      StepCase diagnose s (.publish i)
        { s.setPhase i w (.done t) with
          log := s.log ++ [.published ⟨w.uri, w.version, (s.heap t).result, some i⟩] }

theorem dispatch_cases {diagnose : Text → δ} {s t : Documents υ δ} (h : s.dispatch = some t) :
    StepCase diagnose s .dispatch t := by
  unfold dispatch at h
  split at h
  · cases h
  · rename_i u v x hpc
    split at h
    · rename_i htus
      obtain rfl := Option.some.inj h
      exact .staleAbsent hpc htus
    · rename_i tu htus
      obtain rfl := Option.some.inj h
      exact .stalePresent hpc htus
  · rename_i tu u v x hpc
    split_ifs at h with hstale
    · obtain rfl := Option.some.inj h
      exact .ignored hpc hstale
    · obtain rfl := Option.some.inj h
      exact .accepted hpc hstale
  · rename_i u v x hpc
    obtain rfl := Option.some.inj h
    exact .opened hpc
  · rename_i u v x hpc
    dsimp only at h
    split at h
    · cases h
    · rename_i tu htus
      obtain rfl := Option.some.inj h
      exact .noted hpc htus
  · rename_i hpc
    obtain rfl := Option.some.inj h
    exact .scheduled hpc
  · rename_i hpc
    obtain rfl := Option.some.inj h
    exact .enqueued hpc
  · rename_i u hpc
    split at h
    · rename_i htus
      obtain rfl := Option.some.inj h
      exact .closeAbsent hpc htus
    · rename_i tu htus
      obtain rfl := Option.some.inj h
      exact .closePresent hpc htus
  · rename_i hpc
    obtain rfl := Option.some.inj h
    exact .closeRead hpc
  · rename_i hpc
    obtain rfl := Option.some.inj h
    exact .closePublished hpc
  · rename_i hpc
    obtain rfl := Option.some.inj h
    exact .erased hpc

/-- **What a step can do.** -/
theorem step_cases {diagnose : Text → δ} {s t : Documents υ δ} {a : Action υ}
    (h : step diagnose s a = some t) : StepCase diagnose s a t := by
  cases a with
  | receive n =>
    simp only [step] at h
    split at h
    · rename_i hpc
      obtain rfl := Option.some.inj h
      exact .receive n hpc
    · cases h
  | dispatch => exact dispatch_cases h
  | lookup i =>
    simp only [step, Option.bind_eq_some_iff] at h
    obtain ⟨w, hw, h⟩ := h
    split at h
    · rename_i hphase
      split at h
      · rename_i htus
        obtain rfl := Option.some.inj h
        exact .gone hw hphase htus
      · rename_i tu htus
        obtain rfl := Option.some.inj h
        exact .found hw hphase htus
    · cases h
  | reparse i =>
    simp only [step, Option.bind_eq_some_iff] at h
    obtain ⟨w, hw, h⟩ := h
    split at h
    · rename_i tu hphase
      obtain rfl := Option.some.inj h
      exact .stored hw hphase
    · cases h
  | check i =>
    simp only [step, Option.bind_eq_some_iff] at h
    obtain ⟨w, hw, h⟩ := h
    split at h
    · rename_i tu hphase
      split_ifs at h with hlt
      · obtain rfl := Option.some.inj h
        exact .dropped hw hphase hlt
      · obtain rfl := Option.some.inj h
        exact .passed hw hphase hlt
    · cases h
  | publish i =>
    simp only [step, Option.bind_eq_some_iff] at h
    obtain ⟨w, hw, h⟩ := h
    split at h
    · rename_i tu hphase
      obtain rfl := Option.some.inj h
      exact .published hw hphase
    · cases h

end Documents

end LSP

end Nslc
