import Mathlib
import Nslc.LSP.Folding
/-!
# LSP — the server

`NslLSPServer`: the thread that reads and dispatches, the folding
workers, and the documents' pool. The threads share the in-flight table,
the cancellation flags, the documents and the output stream. As with the
documents, every section under a mutex is one step, and so is every turn
of a folding walk.

`run` leaves its loop at `exit` or at the end of the input; it then
cancels every request in the table, joins the folding workers and
returns.
-/

namespace Nslc

namespace LSP

/-- The flag of a request. `id` is the request it was made for, which
the source does not keep. -/
structure CancellationToken where
  id : RequestId
  cancelled : Bool
  deriving DecidableEq, Repr

/-- How far a folding worker is. Once it has taken its id out of the
table it knows what to answer. -/
inductive FoldPhase where
  | walking
  | leaving (cancelled : Bool)
  | answered
  deriving DecidableEq, Repr

structure Folder where
  id : RequestId
  contents : Text
  token : ℕ
  scan : Scan
  phase : FoldPhase
  deriving DecidableEq, Repr

/-- What a folding worker answers. -/
def Folder.body (f : Folder) (cancelled : Bool) : Body :=
  if cancelled then requestCancelled else .result f.scan.folds

/-- The section the dispatch thread is about to enter, outside of the
document handlers. -/
inductive Duty where
  | idle
  | respond (r : Response)
  /-- `onShutdown`, waiting for the pool. -/
  | waiting (id : RequestId)
  /-- `onFoldingRange`: the table, the document, its state, the thread. -/
  | register (id : RequestId) (uri : Text)
  | lookup (id : RequestId) (token : ℕ) (uri : Text)
  | read (id : RequestId) (token : ℕ) (tu : ℕ)
  | spawn (id : RequestId) (token : ℕ) (contents : Text)
  | cancelling (id : RequestId)

/-- Where `run` is. -/
inductive Stage where
  | running
  | draining
  | joining
  | returned
  deriving DecidableEq, Repr

/-- What goes over the wire, and the end of `run`'s loop. `sender` is
the folding worker a response comes from. -/
inductive Wire where
  | received (envelope : Json)
  | drained
  | wrote (r : Response) (sender : Option ℕ)

structure Server (δ : Type) where
  initialized : Bool
  shutdownReceived : Bool
  exited : Bool
  exitCode : ℕ
  stage : Stage
  duty : Duty
  documents : Documents Text δ
  /-- `inflight_`, one entry for an id. -/
  inflight : List (RequestId × ℕ)
  tokens : List CancellationToken
  folders : List Folder
  log : List Wire

inductive ServerAction where
  | receive (envelope : Json)
  | endOfInput
  /-- The dispatch thread's next section. -/
  | serve
  /-- A section of a pool worker. -/
  | pool (a : Action Text)
  | walk (i : ℕ)
  | leave (i : ℕ)
  | answer (i : ℕ)

/-- A pool worker's section, not one of the dispatch thread. -/
def Action.ofWorker {υ : Type} : Action υ → Bool
  | .receive _ | .dispatch => false
  | .lookup _ | .reparse _ | .check _ | .publish _ => true

/-- The task has returned. -/
def Phase.finished : Phase → Bool
  | .gone | .done _ => true
  | .queued | .found _ | .reparsed _ | .checked _ => false

namespace Server

variable {δ : Type}

def initial : Server δ :=
  ⟨false, false, false, 0, .running, .idle, .initial, [], [], [], []⟩

/-- `CancellationToken::cancel`. -/
def cancel (s : Server δ) (token : ℕ) : Server δ :=
  { s with tokens := s.tokens.modify token fun t => { t with cancelled := true } }

/-- `isCancelled`. -/
def isCancelled (s : Server δ) (token : ℕ) : Bool :=
  s.tokens[token]?.any (·.cancelled)

def setFolder (s : Server δ) (i : ℕ) (f : Folder) : Server δ :=
  { s with folders := s.folders.set i f }

/-- The handler an envelope starts, up to its first section. -/
def begin (s : Server δ) : Handler → Server δ
  | .ignored => s
  | .respond r => { s with duty := .respond r }
  | .initialized => { s with initialized := true }
  | .shutdown id => { s with shutdownReceived := true, duty := .waiting id }
  | .exit => { s with exitCode := if s.shutdownReceived then 0 else 1, exited := true }
  | .document n =>
    { s with
      documents := { s.documents with
        log := s.documents.log ++ [.received n], pc := Documents.start n } }
  | .fold id uri => { s with duty := .register id uri }
  | .cancel id => { s with duty := .cancelling id }

/-- The sections of `dispatch` and its handlers. -/
def attend (s : Server δ) : Option (Server δ) :=
  match s.duty with
  | .idle =>
    if s.exited then some { s with stage := .draining, log := s.log ++ [.drained] } else none
  | .respond r => some { s with duty := .idle, log := s.log ++ [.wrote r none] }
  | .waiting id =>
    if s.documents.pool.all (·.phase.finished) then
      some { s with duty := .respond ⟨id, .result .null⟩ }
    else none
  | .register id uri =>
    some { s with
      duty := .lookup id s.tokens.length uri
      inflight := (id, s.tokens.length) :: s.inflight.filter (·.1 ≠ id)
      tokens := s.tokens ++ [⟨id, false⟩] }
  | .lookup id token uri =>
    match s.documents.tus uri with
    | none => some { s with duty := .spawn id token [] }
    | some tu => some { s with duty := .read id token tu }
  | .read id token tu => some { s with duty := .spawn id token (s.documents.heap tu).contents }
  | .spawn id token contents =>
    some { s with
      duty := .idle
      folders := s.folders ++ [⟨id, contents, token, .start contents, .walking⟩] }
  | .cancelling id =>
    match s.inflight.lookup id with
    | none => some { s with duty := .idle }
    | some token => some { s.cancel token with duty := .idle }

/-- The dispatch thread's next section. -/
def serve (s : Server δ) : Option (Server δ) :=
  match s.stage with
  | .running =>
    if s.documents.pc = .idle then s.attend
    else s.documents.dispatch.map fun d => { s with documents := d }
  | .draining =>
    some { s with
      stage := .joining
      tokens := s.tokens.mapIdx fun t token =>
        { token with cancelled := token.cancelled || s.inflight.any (·.2 = t) } }
  | .joining =>
    if s.folders.all (·.phase = .answered) then some { s with stage := .returned } else none
  | .returned => none

/-- The dispatch thread reads the next envelope. -/
def reading (s : Server δ) : Bool :=
  s.stage = .running ∧ s.exited = false ∧ s.documents.pc = .idle ∧ s.duty matches .idle

def step (diagnose : Text → δ) (version : Text) (s : Server δ) :
    ServerAction → Option (Server δ)
  | .receive e =>
    if s.reading then
      some (begin { s with log := s.log ++ [.received e] }
        (dispatch version s.initialized s.shutdownReceived e))
    else none
  | .endOfInput =>
    if s.reading then
      some { s with exitCode := 1, stage := .draining, log := s.log ++ [.drained] }
    else none
  | .serve => s.serve
  | .pool a =>
    if a.ofWorker then
      (Documents.step diagnose s.documents a).map fun d => { s with documents := d }
    else none
  | .walk i =>
    s.folders[i]?.bind fun f =>
      if f.phase = .walking ∧ f.scan.ended = false then
        some (s.setFolder i { f with scan := f.scan.step (s.isCancelled f.token) })
      else none
  | .leave i =>
    s.folders[i]?.bind fun f =>
      if f.phase = .walking ∧ f.scan.ended = true then
        some { s.setFolder i { f with phase := .leaving (s.isCancelled f.token) } with
          inflight := s.inflight.filter (·.1 ≠ f.id) }
      else none
  | .answer i =>
    s.folders[i]?.bind fun f =>
      match f.phase with
      | .leaving cancelled =>
        some { s.setFolder i { f with phase := .answered } with
          log := s.log ++ [.wrote ⟨f.id, f.body cancelled⟩ (some i)] }
      | _ => none

/-! ## What a step can do -/

/-- The steps, each with its guard and the state behind it. -/
inductive StepCase (diagnose : Text → δ) (version : Text) (s : Server δ) :
    ServerAction → Server δ → Prop
  | receive (e : Json) : s.reading = true →
      StepCase diagnose version s (.receive e) (begin { s with log := s.log ++ [.received e] }
        (dispatch version s.initialized s.shutdownReceived e))
  | endOfInput : s.reading = true →
      StepCase diagnose version s .endOfInput
        { s with exitCode := 1, stage := .draining, log := s.log ++ [.drained] }
  | exited : s.stage = .running → s.duty = .idle → s.exited = true →
      StepCase diagnose version s .serve { s with stage := .draining, log := s.log ++ [.drained] }
  | responded {r : Response} : s.stage = .running → s.duty = .respond r →
      StepCase diagnose version s .serve { s with duty := .idle, log := s.log ++ [.wrote r none] }
  | waited {id : RequestId} : s.stage = .running → s.duty = .waiting id →
      s.documents.pool.all (·.phase.finished) = true →
      StepCase diagnose version s .serve { s with duty := .respond ⟨id, .result .null⟩ }
  | registered {id : RequestId} {uri : Text} : s.stage = .running → s.duty = .register id uri →
      StepCase diagnose version s .serve
        { s with
          duty := .lookup id s.tokens.length uri
          inflight := (id, s.tokens.length) :: s.inflight.filter (·.1 ≠ id)
          tokens := s.tokens ++ [⟨id, false⟩] }
  | absent {id : RequestId} {token : ℕ} {uri : Text} : s.stage = .running →
      s.duty = .lookup id token uri → s.documents.tus uri = none →
      StepCase diagnose version s .serve { s with duty := .spawn id token [] }
  | present {id : RequestId} {token : ℕ} {uri : Text} {tu : ℕ} : s.stage = .running →
      s.duty = .lookup id token uri → s.documents.tus uri = some tu →
      StepCase diagnose version s .serve { s with duty := .read id token tu }
  | read {id : RequestId} {token tu : ℕ} : s.stage = .running → s.duty = .read id token tu →
      StepCase diagnose version s .serve
        { s with duty := .spawn id token (s.documents.heap tu).contents }
  | spawned {id : RequestId} {token : ℕ} {contents : Text} : s.stage = .running →
      s.duty = .spawn id token contents →
      StepCase diagnose version s .serve
        { s with
          duty := .idle
          folders := s.folders ++ [⟨id, contents, token, .start contents, .walking⟩] }
  | unknown {id : RequestId} : s.stage = .running → s.duty = .cancelling id →
      StepCase diagnose version s .serve { s with duty := .idle }
  | cancelled {id : RequestId} {token : ℕ} : s.stage = .running → s.duty = .cancelling id →
      s.inflight.lookup id = some token →
      StepCase diagnose version s .serve { s.cancel token with duty := .idle }
  | document {d : Documents Text δ} : s.stage = .running → s.documents.dispatch = some d →
      StepCase diagnose version s .serve { s with documents := d }
  | drain : s.stage = .draining →
      StepCase diagnose version s .serve
        { s with
          stage := .joining
          tokens := s.tokens.mapIdx fun t token =>
            { token with cancelled := token.cancelled || s.inflight.any (·.2 = t) } }
  | joined : s.stage = .joining → s.folders.all (·.phase = .answered) = true →
      StepCase diagnose version s .serve { s with stage := .returned }
  | pool {a : Action Text} {d : Documents Text δ} : a.ofWorker = true →
      Documents.step diagnose s.documents a = some d →
      StepCase diagnose version s (.pool a) { s with documents := d }
  | walked {i : ℕ} {f : Folder} : s.folders[i]? = some f → f.phase = .walking →
      f.scan.ended = false →
      StepCase diagnose version s (.walk i)
        (s.setFolder i { f with scan := f.scan.step (s.isCancelled f.token) })
  | left {i : ℕ} {f : Folder} : s.folders[i]? = some f → f.phase = .walking →
      f.scan.ended = true →
      StepCase diagnose version s (.leave i)
        { s.setFolder i { f with phase := .leaving (s.isCancelled f.token) } with
          inflight := s.inflight.filter (·.1 ≠ f.id) }
  | answered {i : ℕ} {f : Folder} {c : Bool} : s.folders[i]? = some f → f.phase = .leaving c →
      StepCase diagnose version s (.answer i)
        { s.setFolder i { f with phase := .answered } with
          log := s.log ++ [.wrote ⟨f.id, f.body c⟩ (some i)] }

variable {diagnose : Text → δ} {version : Text} {s s' : Server δ}

theorem attend_cases (hrun : s.stage = .running) (h : s.attend = some s') :
    StepCase diagnose version s .serve s' := by
  unfold attend at h
  split at h <;> rename_i hduty
  · split_ifs at h with hex
    obtain rfl := Option.some.inj h
    exact .exited hrun hduty hex
  · obtain rfl := Option.some.inj h
    exact .responded hrun hduty
  · split_ifs at h with hall
    obtain rfl := Option.some.inj h
    exact .waited hrun hduty hall
  · obtain rfl := Option.some.inj h
    exact .registered hrun hduty
  · split at h <;> rename_i htus
    · obtain rfl := Option.some.inj h
      exact .absent hrun hduty htus
    · obtain rfl := Option.some.inj h
      exact .present hrun hduty htus
  · obtain rfl := Option.some.inj h
    exact .read hrun hduty
  · obtain rfl := Option.some.inj h
    exact .spawned hrun hduty
  · split at h <;> rename_i hlook
    · obtain rfl := Option.some.inj h
      exact .unknown hrun hduty
    · obtain rfl := Option.some.inj h
      exact .cancelled hrun hduty hlook

theorem serve_cases (h : s.serve = some s') : StepCase diagnose version s .serve s' := by
  unfold serve at h
  split at h <;> rename_i hstage
  · split_ifs at h with hpc
    · exact attend_cases hstage h
    · obtain ⟨d, hd, rfl⟩ := Option.map_eq_some_iff.1 h
      exact .document hstage hd
  · obtain rfl := Option.some.inj h
    exact .drain hstage
  · split_ifs at h with hall
    obtain rfl := Option.some.inj h
    exact .joined hstage hall
  · cases h

/-- **What a step can do.** -/
theorem step_cases {a : ServerAction} (h : step diagnose version s a = some s') :
    StepCase diagnose version s a s' := by
  cases a with
  | receive e =>
    simp only [step] at h
    split_ifs at h with hr
    obtain rfl := Option.some.inj h
    exact .receive e hr
  | endOfInput =>
    simp only [step] at h
    split_ifs at h with hr
    obtain rfl := Option.some.inj h
    exact .endOfInput hr
  | serve => exact serve_cases h
  | pool a =>
    simp only [step] at h
    split_ifs at h with hw
    obtain ⟨d, hd, rfl⟩ := Option.map_eq_some_iff.1 h
    exact .pool hw hd
  | walk i =>
    simp only [step, Option.bind_eq_some_iff] at h
    obtain ⟨f, hf, h⟩ := h
    split_ifs at h with hw
    obtain rfl := Option.some.inj h
    exact .walked hf hw.1 hw.2
  | leave i =>
    simp only [step, Option.bind_eq_some_iff] at h
    obtain ⟨f, hf, h⟩ := h
    split_ifs at h with hw
    obtain rfl := Option.some.inj h
    exact .left hf hw.1 hw.2
  | answer i =>
    simp only [step, Option.bind_eq_some_iff] at h
    obtain ⟨f, hf, h⟩ := h
    split at h
    · rename_i c hp
      obtain rfl := Option.some.inj h
      exact .answered hf hp
    · cases h

/-! ## The documents of a server -/

/-- A step leaves the documents alone or is a step of theirs. -/
theorem StepCase.documents {a : ServerAction} (h : StepCase diagnose version s a s') :
    s'.documents = s.documents ∨ ∃ b, Documents.step diagnose s.documents b = some s'.documents := by
  cases h with
  | receive e hr =>
    generalize dispatch version s.initialized s.shutdownReceived e = handler
    cases handler with
    | document n =>
      refine .inr ⟨.receive n, ?_⟩
      simp only [reading, decide_eq_true_eq] at hr
      simp [Documents.step, hr.2.2.1, begin]
    | _ => exact .inl rfl
  | document _ hd => exact .inr ⟨.dispatch, hd⟩
  | pool _ hd => exact .inr ⟨_, hd⟩
  | _ => exact .inl rfl

/-- **The server runs the documents.** The documents of a reachable
server are reachable on their own, so what holds in every run of theirs
holds here. -/
theorem reach_documents {ok : Server δ → ServerAction → Prop}
    (h : Interleave.Reach (step diagnose version) initial ok s) :
    Interleave.Reach (Documents.step diagnose) .initial (fun _ _ => True) s.documents := by
  refine h.inv (P := fun s => Interleave.Reach (Documents.step diagnose) .initial
    (fun _ _ => True) s.documents) .init fun s a s' _ ih _ hst => ?_
  rcases (step_cases hst).documents with heq | ⟨b, hb⟩
  · rw [heq]
    exact ih
  · exact ih.step trivial hb

end Server

end LSP

end Nslc
