import Mathlib
import Nslc.LSP.Folders
import Nslc.LSP.Returning
/-!
# LSP — one response for each request

What the client sees of one request id is a request, a response, a
request, and so on: `Account.next` reads the wire along these lines and
stops where a response comes unasked, or cancelled without a reason.
Every run of the server is read to its end, and has answered everything
once `run` returns.

The two lifecycle gates look at the id alone. A notification that
carries one is answered by them, with an error, and an integer that no
`int64_t` holds is no id.
-/

namespace Nslc

namespace LSP

open Interleave

/-! ## Who is owed a response -/

/-- The gates let the method through. -/
def Method.admitted (m : Method) (initialized shutdown : Bool) : Bool :=
  (initialized || m.early) && (!shutdown || m.late)

/-- The id an envelope asks to be answered under. -/
def owed (initialized shutdown : Bool) (envelope : Json) : Option RequestId :=
  envelope.method.bind fun m =>
    if m.notification && m.admitted initialized shutdown then none else envelope.id

/-- The id as JSON has it: any integer, any string. -/
def Json.anyId (envelope : Json) : Option RequestId :=
  match envelope.get "id".toList with
  | some (.integer i) => some (.integer i)
  | some (.string s) => some (.string s)
  | _ => none

/-- A request: an id, and a method that is no notification. -/
def requested (_initialized _shutdown : Bool) (envelope : Json) : Option RequestId :=
  envelope.method.bind fun m => if m.notification then none else envelope.anyId

/-- The id a `$/cancelRequest` names. -/
def cancels (envelope : Json) : Option RequestId :=
  if envelope.method = some .cancelRequest then onCancelRequest envelope.params else none

/-! ## The account of an id -/

/-- `asked`: cancelled since, or drained. -/
inductive Status where
  | settled
  | waiting (asked : Bool)
  deriving DecidableEq, Repr

def Status.ask : Status → Status
  | .settled => .settled
  | .waiting _ => .waiting true

def Status.count : Status → ℕ
  | .settled => 0
  | .waiting _ => 1

structure Account where
  initialized : Bool
  shutdown : Bool
  status : Status
  deriving DecidableEq, Repr

namespace Account

/-- The lifecycle behind an envelope. -/
def live (a : Account) (envelope : Json) : Account :=
  { a with
    initialized := a.initialized || (envelope.method = some .initialized && !a.shutdown)
    shutdown := a.shutdown || (envelope.method = some .shutdown && envelope.id.isSome) }

/-- A request of `k` opens its account and a response settles it. -/
def next (owes : Bool → Bool → Json → Option RequestId) (k : RequestId) (a : Account) :
    Wire → Option Account
  | .received e =>
    if owes a.initialized a.shutdown e = some k then
      match a.status with
      | .settled => some { a.live e with status := .waiting false }
      | .waiting _ => none
    else if cancels e = some k then some { a.live e with status := a.status.ask }
    else some (a.live e)
  | .drained => some { a with status := a.status.ask }
  | .wrote r _ =>
    if r.id = k then
      match a.status with
      | .settled => none
      | .waiting asked =>
        if r.body.isCancelled && !asked then none else some { a with status := .settled }
    else some a

def opened : Account := ⟨false, false, .settled⟩

end Account

/-- What the wire says of the id `k`. -/
def account (owes : Bool → Bool → Json → Option RequestId) (k : RequestId) (log : List Wire) :
    Option Account :=
  log.foldlM (Account.next owes k) .opened

variable {owes : Bool → Bool → Json → Option RequestId} {k : RequestId}

theorem account_append (log : List Wire) (e : Wire) :
    account owes k (log ++ [e]) = (account owes k log).bind fun a => a.next owes k e := by
  simp [account, List.foldlM_append]

namespace Server

variable {δ : Type} {diagnose : Text → δ} {version : Text} {s s' : Server δ} {a : ServerAction}

/-- Every id's account reads to the end, and is settled once `run` has
returned. -/
def AnsweredOnce (owes : Bool → Bool → Json → Option RequestId) (s : Server δ) : Prop :=
  ∀ k, ∃ acc, account owes k s.log = some acc ∧ (s.stage = .returned → acc.status = .settled)

/-- Ids are distinct among the requests in flight. -/
def DistinctIds (owes : Bool → Bool → Json → Option RequestId) (s : Server δ) :
    ServerAction → Prop
  | .receive e => ∀ k acc, account owes k s.log = some acc →
      owes acc.initialized acc.shutdown e = some k → acc.status = .settled
  | _ => True

end Server

/-! ## Dispatch and what is owed -/

/-- The id whose request a handler has taken on. -/
def Handler.taken : Handler → Option RequestId
  | .respond r => some r.id
  | .shutdown id | .fold id _ => some id
  | _ => none

theorem Handler.taken_refuse (id : Option RequestId) (code : ℤ) (message : Text) :
    (Handler.refuse id code message).taken = id := by
  cases id <;> rfl

theorem Handler.taken_ofNotification (n : Option (Notification Text)) :
    (Handler.ofNotification n).taken = none := by
  cases n <;> rfl

theorem taken_handle (version : Text) (m : Method) (id : Option RequestId) (params : Json) :
    (handle version m id params).taken = if m.notification then none else id := by
  cases m with
  | foldingRange =>
    cases id with
    | none => rfl
    | some id =>
      simp only [handle, Method.notification]
      split <;> rfl
  | cancelRequest =>
    simp only [handle, Method.notification]
    split <;> rfl
  | other name => exact Handler.taken_refuse _ _ _
  | didOpen => exact Handler.taken_ofNotification _
  | didChange => exact Handler.taken_ofNotification _
  | didClose => exact Handler.taken_ofNotification _
  | _ => cases id <;> rfl

/-- **The dispatch rule.** An envelope without a method is ignored, one
that a gate stops is refused, and the others are handled. -/
theorem dispatch_induct {P : Handler → Prop} {version : Text} {initialized shutdown : Bool}
    {e : Json} (hnone : e.method = none → P .ignored)
    (hrefused : ∀ m, e.method = some m → m.admitted initialized shutdown = false →
      ∀ code message, code ≠ kRequestCancelled → P (.refuse e.id code message))
    (hhandled : ∀ m, e.method = some m → m.admitted initialized shutdown = true →
      P (handle version m e.id e.params)) :
    P (dispatch version initialized shutdown e) := by
  unfold dispatch
  split
  · rename_i hm
    exact hnone hm
  · rename_i m hm
    split_ifs with h1 h2
    · exact hrefused m hm (by simp_all [Method.admitted]) _ _ (by decide)
    · exact hrefused m hm (by simp_all [Method.admitted]) _ _ (by decide)
    · refine hhandled m hm ?_
      cases initialized <;> cases shutdown <;> simp_all [Method.admitted]

/-- **Dispatch takes on what is owed.** -/
theorem taken_dispatch (version : Text) (initialized shutdown : Bool) (e : Json) :
    (dispatch version initialized shutdown e).taken = owed initialized shutdown e := by
  refine dispatch_induct (P := fun h => h.taken = owed initialized shutdown e) ?_ ?_ ?_
  · intro hm
    simp [owed, hm, Handler.taken]
  · intro m hm hadm code message _
    simp [owed, hm, hadm, Handler.taken_refuse]
  · intro m hm hadm
    simp [owed, hm, hadm, taken_handle]

/-- The lifecycle flags a handler sets. -/
def Handler.initializes : Handler → Bool
  | .initialized => true
  | _ => false

def Handler.shutsDown : Handler → Bool
  | .shutdown _ => true
  | _ => false

/-- What a handler has to do with its envelope: the flags it sets, that
its response is no cancellation, and whose request it cancels. -/
structure Handler.Meets (initialized shutdown : Bool) (e : Json) (h : Handler) : Prop where
  initializes : h.initializes = (e.method = some .initialized && !shutdown)
  shutsDown : h.shutsDown =
    (e.method = some .shutdown && e.id.isSome && !shutdown)
  plain : ∀ r, h = .respond r → r.body.isCancelled = false
  cancels : ∀ k, h = .cancel k → cancels e = some k

variable {version : Text} {initialized shutdown : Bool} {e : Json} {m : Method}

theorem meets_refuse (hm : e.method = some m) (hadm : m.admitted initialized shutdown = false)
    {code : ℤ} (hcode : code ≠ kRequestCancelled) (message : Text) :
    (Handler.refuse e.id code message).Meets initialized shutdown e := by
  have hinit : (e.method = some .initialized && !shutdown : Bool) = false := by
    cases m <;> simp_all [Method.admitted, Method.early, Method.late, Method.dollar]
  have hshut : (e.method = some .shutdown && e.id.isSome && !shutdown : Bool) = false := by
    cases m <;> simp_all [Method.admitted, Method.early, Method.late, Method.dollar]
  cases hid : e.id with
  | none =>
    exact ⟨hinit.symm, hshut.symm, nofun, nofun⟩
  | some id =>
    refine ⟨hinit.symm, hshut.symm, fun r h => ?_, nofun⟩
    obtain rfl := Handler.respond.inj h
    simpa [Body.isCancelled] using hcode

/-- A handler of another method sets no flag. -/
theorem Handler.Meets.of_ne {h : Handler} (hm : e.method = some m) (hinit : m ≠ .initialized)
    (hshut : m ≠ .shutdown) (hflags : h.initializes = false ∧ h.shutsDown = false)
    (hplain : ∀ r, h = .respond r → r.body.isCancelled = false)
    (hcancels : ∀ k, h = .cancel k → LSP.cancels e = some k) :
    h.Meets initialized shutdown e :=
  ⟨by simp [hflags, hm, hinit], by simp [hflags, hm, hshut], hplain, hcancels⟩

theorem meets_ofNotification (hm : e.method = some m) (hinit : m ≠ .initialized)
    (hshut : m ≠ .shutdown) (n : Option (Notification Text)) :
    (Handler.ofNotification n).Meets initialized shutdown e := by
  cases n with
  | none => exact .of_ne hm hinit hshut ⟨rfl, rfl⟩ nofun nofun
  | some n => exact .of_ne hm hinit hshut ⟨rfl, rfl⟩ nofun nofun

theorem meets_handle (hm : e.method = some m) (hadm : m.admitted initialized shutdown = true) :
    (handle version m e.id e.params).Meets initialized shutdown e := by
  cases m with
  | initializeRequest =>
    cases hid : e.id with
    | none => exact .of_ne hm (by simp) (by simp) ⟨rfl, rfl⟩ nofun nofun
    | some id =>
      refine .of_ne hm (by simp) (by simp) ⟨rfl, rfl⟩ (fun r h => ?_) nofun
      obtain rfl := Handler.respond.inj h
      rfl
  | initialized =>
    have hshut : shutdown = false := by
      simpa [Method.admitted, Method.early, Method.late, Method.dollar] using hadm
    exact ⟨by simp [handle, Handler.initializes, hm, hshut],
      by simp [handle, Handler.shutsDown, hm], nofun, nofun⟩
  | shutdown =>
    have hshut : shutdown = false := by
      simpa [Method.admitted, Method.early, Method.late, Method.dollar] using hadm
    cases hid : e.id with
    | none => exact ⟨by simp [handle, Handler.initializes, hm],
        by simp [handle, Handler.shutsDown, hid], nofun, nofun⟩
    | some id => exact ⟨by simp [handle, Handler.initializes, hm],
        by simp [handle, Handler.shutsDown, hm, hid, hshut], nofun, nofun⟩
  | exit => exact .of_ne hm (by simp) (by simp) ⟨rfl, rfl⟩ nofun nofun
  | didOpen => exact meets_ofNotification hm (by simp) (by simp) _
  | didChange => exact meets_ofNotification hm (by simp) (by simp) _
  | didClose => exact meets_ofNotification hm (by simp) (by simp) _
  | foldingRange =>
    cases hid : e.id with
    | none => exact .of_ne hm (by simp) (by simp) ⟨rfl, rfl⟩ nofun nofun
    | some id =>
      simp only [handle]
      split
      · refine .of_ne hm (by simp) (by simp) ⟨rfl, rfl⟩ (fun r h => ?_) nofun
        obtain rfl := Handler.respond.inj h
        rfl
      · exact .of_ne hm (by simp) (by simp) ⟨rfl, rfl⟩ nofun nofun
  | cancelRequest =>
    simp only [handle]
    split
    · exact .of_ne hm (by simp) (by simp) ⟨rfl, rfl⟩ nofun nofun
    · rename_i id hc
      refine .of_ne hm (by simp) (by simp) ⟨rfl, rfl⟩ nofun fun k h => ?_
      obtain rfl := Handler.cancel.inj h
      simp [LSP.cancels, hm, hc]
  | other name =>
    cases hid : e.id with
    | none => exact .of_ne hm (by simp) (by simp) ⟨rfl, rfl⟩ nofun nofun
    | some id =>
      refine .of_ne hm (by simp) (by simp) ⟨rfl, rfl⟩ (fun r h => ?_) nofun
      obtain rfl := Handler.respond.inj h
      rfl

theorem meets_dispatch (version : Text) (initialized shutdown : Bool) (e : Json) :
    (dispatch version initialized shutdown e).Meets initialized shutdown e := by
  refine dispatch_induct (P := fun h => h.Meets initialized shutdown e) ?_ ?_ ?_
  · intro hm
    exact ⟨by simp [Handler.initializes, hm], by simp [Handler.shutsDown, hm], nofun, nofun⟩
  · exact fun m hm hadm code message hcode => meets_refuse hm hadm hcode message
  · exact fun m hm hadm => meets_handle hm hadm

/-! ## Responses to come -/

/-- The id whose request the dispatch thread has at hand. -/
def Duty.taken : Duty → Option RequestId
  | .respond r => some r.id
  | .waiting id | .register id _ | .lookup id _ _ | .read id _ _ | .spawn id _ _ => some id
  | .idle | .cancelling _ => none

/-- The worker has still to answer `k`. -/
def Folder.due (k : RequestId) (f : Folder) : Bool := f.id = k ∧ f.phase ≠ .answered

namespace Server

variable {δ : Type} {diagnose : Text → δ} {s s' : Server δ} {a : ServerAction}

def owing (k : RequestId) (s : Server δ) : ℕ :=
  (if s.duty.taken = some k then 1 else 0) + s.folders.countP (Folder.due k)

theorem countP_set_add {α : Type} {p : α → Bool} {l : List α} {i : ℕ} {x : α} (y : α)
    (h : l[i]? = some x) :
    (l.set i y).countP p + (if p x then 1 else 0) = l.countP p + if p y then 1 else 0 := by
  obtain ⟨hlt, rfl⟩ := List.getElem?_eq_some_iff.1 h
  rw [List.countP_set hlt]
  have hpos : (if p l[i] then 1 else 0) ≤ l.countP p := by
    split_ifs with hp
    · exact List.countP_pos_iff.2 ⟨_, List.getElem_mem hlt, hp⟩
    · exact Nat.zero_le _
  omega

/-- Nothing has asked for `k` to be cancelled. -/
structure Unasked (k : RequestId) (s : Server δ) : Prop where
  running : s.stage = .running
  duty : ∀ t, s.duty.token? = some (k, t) → s.isCancelled t = false
  cancelling : s.duty ≠ .cancelling k
  folders : ∀ f ∈ s.folders, f.due k = true →
    s.isCancelled f.token = false ∧ f.phase ≠ .leaving true

/-- The account of `k` agrees with the server: its lifecycle, whether a
response is still to come, and whether it may be a cancellation. -/
structure Agrees (k : RequestId) (s : Server δ) (acc : Account) : Prop where
  reads : account owed k s.log = some acc
  initialized : acc.initialized = s.initialized
  shutdown : acc.shutdown = s.shutdownReceived
  count : acc.status.count = s.owing k
  unasked : acc.status = .waiting false → s.Unasked k

@[simp] theorem count_ask (st : Status) : st.ask.count = st.count := by cases st <;> rfl

theorem ask_ne (st : Status) : st.ask ≠ .waiting false := by cases st <;> simp [Status.ask]

/-! ## Envelopes -/

theorem begin_initialized (h : Handler) :
    (begin s h).initialized = (s.initialized || h.initializes) := by
  cases h <;> simp [begin, Handler.initializes]

theorem begin_shutdownReceived (h : Handler) :
    (begin s h).shutdownReceived = (s.shutdownReceived || h.shutsDown) := by
  cases h <;> simp [begin, Handler.shutsDown]

theorem begin_duty_taken (h : Handler) (hidle : s.duty = .idle) :
    (begin s h).duty.taken = h.taken := by
  cases h <;> simp [begin, Handler.taken, Duty.taken, hidle]

theorem begin_duty_token (h : Handler) (hidle : s.duty = .idle) :
    (begin s h).duty.token? = none := by
  cases h <;> simp [begin, Duty.token?, hidle]

theorem cancel_of_begin {h : Handler} (hidle : s.duty = .idle)
    (hd : (begin s h).duty = .cancelling k) : h = .cancel k := by
  cases h <;> simp_all [begin]

theorem owing_begin (h : Handler) (hidle : s.duty = .idle) :
    (begin s h).owing k = (if h.taken = some k then 1 else 0) + s.owing k := by
  rw [owing, owing, begin_duty_taken h hidle, begin_folders, hidle]
  simp [Duty.taken]

theorem unasked_begin {h : Handler} (hr : s.reading = true) (hnot : h ≠ .cancel k)
    (hf : ∀ f ∈ s.folders, f.due k = true →
      s.isCancelled f.token = false ∧ f.phase ≠ .leaving true) : Unasked k (begin s h) := by
  have hidle := duty_of_reading hr
  refine ⟨by rw [begin_stage]; exact stage_of_reading hr, ?_, ?_, ?_⟩
  · intro t ht
    rw [begin_duty_token h hidle] at ht
    cases ht
  · exact fun hc => hnot (cancel_of_begin hidle hc)
  · simpa [isCancelled] using hf

theorem Agrees.receive {acc : Account} {e : Json} (hacc : Agrees k s acc) (hr : s.reading = true)
    (hd : DistinctIds owed s (.receive e)) :
    ∃ acc', Agrees k (begin { s with log := s.log ++ [.received e] }
      (dispatch version s.initialized s.shutdownReceived e)) acc' := by
  have hmeets := meets_dispatch version s.initialized s.shutdownReceived e
  have htaken := taken_dispatch version s.initialized s.shutdownReceived e
  generalize dispatch version s.initialized s.shutdownReceived e = handler at hmeets htaken ⊢
  have hidle : ({ s with log := s.log ++ [.received e] } : Server δ).duty = .idle :=
    duty_of_reading (s := s) hr
  have howed : owed acc.initialized acc.shutdown e = handler.taken := by
    rw [htaken, hacc.initialized, hacc.shutdown]
  have hreads : ∀ acc', acc.next owed k (.received e) = some acc' →
      account owed k (begin { s with log := s.log ++ [.received e] } handler).log = some acc' := by
    intro acc' h
    rw [begin_log, account_append, hacc.reads]
    exact h
  have hinit : (acc.live e).initialized =
      (begin { s with log := s.log ++ [.received e] } handler).initialized := by
    rw [begin_initialized, hmeets.initializes]
    simp [Account.live, hacc.initialized, hacc.shutdown]
  have hshut : (acc.live e).shutdown =
      (begin { s with log := s.log ++ [.received e] } handler).shutdownReceived := by
    rw [begin_shutdownReceived, hmeets.shutsDown]
    simp only [Account.live, hacc.shutdown]
    cases s.shutdownReceived <;> simp
  by_cases hk : handler.taken = some k
  · -- a request of `k`: its id is free
    have hset : acc.status = .settled := hd k acc hacc.reads (howed.trans hk)
    have hzero : s.owing k = 0 := by rw [← hacc.count, hset]; rfl
    refine ⟨{ acc.live e with status := .waiting false }, hreads _ ?_, hinit, hshut, ?_,
      fun _ => unasked_begin hr ?_ ?_⟩
    · simp [Account.next, howed, hk, hset]
    · rw [owing_begin handler hidle, if_pos hk]
      show 1 = 1 + s.owing k
      omega
    · rintro rfl
      cases hk
    · intro f hf hdue
      have hcount : s.folders.countP (Folder.due k) = 0 := by
        unfold owing at hzero
        omega
      exact absurd hdue (List.countP_eq_zero.1 hcount f hf)
  · have hcount : acc.status.count =
        (begin { s with log := s.log ++ [.received e] } handler).owing k := by
      rw [owing_begin handler hidle, if_neg hk, zero_add]
      exact hacc.count
    by_cases hc : cancels e = some k
    · refine ⟨{ acc.live e with status := acc.status.ask }, hreads _ ?_, hinit, hshut, ?_,
        fun h => absurd h (ask_ne _)⟩
      · simp [Account.next, howed, hk, hc]
      · exact (count_ask _).trans hcount
    · refine ⟨acc.live e, hreads _ ?_, hinit, hshut, hcount, fun h => unasked_begin hr ?_ ?_⟩
      · simp [Account.next, howed, hk, hc]
      · exact fun heq => hc (hmeets.cancels k heq)
      · exact (hacc.unasked h).folders

/-! ## The other steps -/

theorem Agrees.keep {acc : Account} (hacc : Agrees k s acc) (hlog : s'.log = s.log)
    (hlife : s'.initialized = s.initialized ∧ s'.shutdownReceived = s.shutdownReceived)
    (howing : s'.owing k = s.owing k) (hun : s.Unasked k → s'.Unasked k) : Agrees k s' acc :=
  ⟨by rw [hlog, hacc.reads], by rw [hlife.1, hacc.initialized], by rw [hlife.2, hacc.shutdown],
    by rw [howing, hacc.count], fun h => hun (hacc.unasked h)⟩

theorem Agrees.drained {acc : Account} (hacc : Agrees k s acc)
    (hlog : s'.log = s.log ++ [.drained])
    (hlife : s'.initialized = s.initialized ∧ s'.shutdownReceived = s.shutdownReceived)
    (howing : s'.owing k = s.owing k) : ∃ acc', Agrees k s' acc' := by
  refine ⟨{ acc with status := acc.status.ask }, ?_, ?_, ?_, ?_, fun h => absurd h (ask_ne _)⟩
  · rw [hlog, account_append, hacc.reads]
    rfl
  · rw [hlife.1, ← hacc.initialized]
  · rw [hlife.2, ← hacc.shutdown]
  · rw [howing, ← hacc.count]
    exact count_ask _

/-- A response settles its account: one was to come, and a cancellation
has been asked for. -/
theorem Agrees.wrote {acc : Account} {r : Response} {sender : Option ℕ} (hacc : Agrees k s acc)
    (hlog : s'.log = s.log ++ [.wrote r sender])
    (hlife : s'.initialized = s.initialized ∧ s'.shutdownReceived = s.shutdownReceived)
    (howing : s.owing k = s'.owing k + if r.id = k then 1 else 0)
    (hcan : r.id = k → r.body.isCancelled = true → ¬ s.Unasked k)
    (hun : r.id ≠ k → s.Unasked k → s'.Unasked k) : ∃ acc', Agrees k s' acc' := by
  have hreads : account owed k s'.log = acc.next owed k (.wrote r sender) := by
    rw [hlog, account_append, hacc.reads]
    rfl
  by_cases hid : r.id = k
  · rw [if_pos hid] at howing
    have hcount := hacc.count
    cases hst : acc.status with
    | settled =>
      rw [hst] at hcount
      simp only [Status.count] at hcount
      omega
    | waiting asked =>
      have hzero : s'.owing k = 0 := by
        rw [hst] at hcount
        simp only [Status.count] at hcount
        omega
      have hpass : ¬ (r.body.isCancelled && !asked) = true := by
        intro h
        simp only [Bool.and_eq_true, Bool.not_eq_true'] at h
        exact hcan hid h.1 (hacc.unasked (by rw [hst, h.2]))
      refine ⟨{ acc with status := .settled }, ?_, ?_, ?_, hzero.symm, nofun⟩
      · rw [hreads]
        simp only [Account.next, hid, hst, if_true, if_neg hpass]
      · rw [hlife.1, ← hacc.initialized]
      · rw [hlife.2, ← hacc.shutdown]
  · refine ⟨acc, ?_, by rw [hlife.1, hacc.initialized], by rw [hlife.2, hacc.shutdown], ?_,
      fun h => hun hid (hacc.unasked h)⟩
    · rw [hreads]
      simp [Account.next, hid]
    · rw [hacc.count, howing, if_neg hid, add_zero]

/-- The dispatch thread's responses are no cancellations. -/
def Plain (s : Server δ) : Prop := ∀ r, s.duty = .respond r → r.body.isCancelled = false

theorem StepCase.plain (h : StepCase diagnose version s a s') (hp : Plain s) : Plain s' := by
  intro r hr
  cases h with
  | receive e hread =>
    have hidle := duty_of_reading hread
    have hmeets := meets_dispatch version s.initialized s.shutdownReceived e
    generalize dispatch version s.initialized s.shutdownReceived e = handler at hmeets hr
    cases handler with
    | respond r' => exact hmeets.plain r (by simpa [begin] using hr)
    | _ => simp_all [begin]
  | waited =>
    obtain rfl := Duty.respond.inj hr
    rfl
  | endOfInput => exact hp r hr
  | exited => exact hp r hr
  | document => exact hp r hr
  | drain => exact hp r hr
  | joined => exact hp r hr
  | pool => exact hp r hr
  | walked => exact hp r hr
  | left => exact hp r hr
  | answered => exact hp r hr
  | _ => cases hr

/-- A worker's next state leaves the count to the worker itself. -/
theorem owing_setFolder {i : ℕ} {f f' : Folder} (hf : s.folders[i]? = some f)
    (hduty : s'.duty = s.duty) (hfolders : s'.folders = s.folders.set i f') :
    s'.owing k + (if f.due k then 1 else 0) = s.owing k + if f'.due k then 1 else 0 := by
  have hset := countP_set_add (p := Folder.due k) f' hf
  rw [owing, owing, hduty, hfolders]
  omega

theorem Unasked.setFolder {i : ℕ} {f' : Folder} (hun : s.Unasked k)
    (hsame : s'.stage = s.stage ∧ s'.duty = s.duty ∧ s'.tokens = s.tokens)
    (hfolders : s'.folders = s.folders.set i f')
    (hf' : f'.due k = true → s.isCancelled f'.token = false ∧ f'.phase ≠ .leaving true) :
    s'.Unasked k := by
  obtain ⟨hstage, hduty, htok⟩ := hsame
  have hcan : ∀ t, s'.isCancelled t = s.isCancelled t := fun t => by rw [isCancelled, htok]; rfl
  refine ⟨hstage.trans hun.running, ?_, by rw [hduty]; exact hun.cancelling, ?_⟩
  · intro t ht
    rw [hcan]
    exact hun.duty t (hduty ▸ ht)
  · intro g hg hdue
    rw [hcan]
    rw [hfolders] at hg
    rcases List.mem_or_eq_of_mem_set hg with hg | rfl
    · exact hun.folders g hg hdue
    · exact hf' hdue

/-- A section of the dispatch thread that leaves workers and log alone
goes on with the same request. -/
theorem Agrees.duty {acc : Account} {d : Duty} (hacc : Agrees k s acc)
    (htaken : d.taken = s.duty.taken)
    (htok : ∀ t, d.token? = some (k, t) → s.duty.token? = some (k, t))
    (hcan : d ≠ .cancelling k) : Agrees k { s with duty := d } acc := by
  refine hacc.keep rfl ⟨rfl, rfl⟩ ?_ fun hun => ⟨hun.running, ?_, hcan, hun.folders⟩
  · rw [owing, owing, htaken]
  · exact fun t ht => hun.duty t (htok t ht)

theorem isCancelled_append (t : ℕ) (id : RequestId) :
    ((s.tokens ++ [⟨id, false⟩])[t]?.any (·.cancelled)) = s.isCancelled t := by
  unfold isCancelled
  rcases lt_trichotomy t s.tokens.length with hlt | rfl | hgt
  · rw [List.getElem?_append_left hlt]
  · simp
  · rw [List.getElem?_eq_none (by simp; omega), List.getElem?_eq_none (by omega)]

theorem Agrees.registered {acc : Account} {id : RequestId} {uri : Text} (hacc : Agrees k s acc)
    (hduty : s.duty = .register id uri) :
    Agrees k { s with
      duty := .lookup id s.tokens.length uri
      inflight := (id, s.tokens.length) :: s.inflight.filter (·.1 ≠ id)
      tokens := s.tokens ++ [⟨id, false⟩] } acc := by
  refine hacc.keep rfl ⟨rfl, rfl⟩ ?_ fun hun => ⟨hun.running, ?_, nofun, ?_⟩
  · rw [owing, owing, hduty]
    rfl
  · intro t ht
    obtain ⟨-, rfl⟩ := Prod.mk.inj (Option.some.inj ht)
    simp [isCancelled]
  · intro f hf hdue
    show (s.tokens ++ [⟨id, false⟩])[f.token]?.any (·.cancelled) = false ∧ _
    rw [isCancelled_append]
    exact hun.folders f hf hdue

theorem Agrees.spawned {acc : Account} {id : RequestId} {t : ℕ} {x : Text} (hacc : Agrees k s acc)
    (hduty : s.duty = .spawn id t x) :
    Agrees k { s with
      duty := .idle
      folders := s.folders ++ [⟨id, x, t, .start x, .walking⟩] } acc := by
  refine hacc.keep rfl ⟨rfl, rfl⟩ ?_ fun hun => ⟨hun.running, nofun, nofun, ?_⟩
  · simp only [owing, hduty, Duty.taken, List.countP_append, List.countP_singleton, Folder.due,
      reduceCtorEq, if_false, Option.some.injEq]
    by_cases hid : id = k <;> simp [hid]
    omega
  · intro f hf hdue
    rcases List.mem_append.1 hf with hf | hf
    · exact hun.folders f hf hdue
    · obtain rfl := List.mem_singleton.1 hf
      have hid : id = k := by
        simp only [Folder.due, decide_eq_true_eq] at hdue
        exact hdue.1
      exact ⟨hun.duty t (by rw [hduty, hid]; rfl), by simp⟩

theorem Agrees.cancelled {acc : Account} {id : RequestId} {t : ℕ} (hacc : Agrees k s acc)
    (hk : Kept s) (hduty : s.duty = .cancelling id) (hlook : s.inflight.lookup id = some t) :
    Agrees k { s.cancel t with duty := .idle } acc := by
  refine hacc.keep rfl ⟨rfl, rfl⟩ ?_ fun hun => ⟨hun.running, nofun, nofun, ?_⟩
  · rw [owing, owing, hduty]
    rfl
  · intro f hf hdue
    have hown : s.Owns id t := by
      obtain ⟨l₁, l₂, heq, -⟩ := List.lookup_eq_some_iff.1 hlook
      exact hk.inflight id t (by rw [heq]; simp)
    have hne : t ≠ f.token := by
      -- the worker's token is that of `k`, the cancelled one of `id`
      rintro rfl
      have hid : f.id = k := by
        simp only [Folder.due, decide_eq_true_eq] at hdue
        exact hdue.1
      have : id = f.id := hown.id_eq (hk.folders f hf)
      exact hun.cancelling (by rw [hduty, this, hid])
    have hsame : ({ s.cancel t with duty := .idle } : Server δ).isCancelled f.token =
        s.isCancelled f.token := by
      simp [isCancelled, cancel, hne]
    rw [hsame]
    exact hun.folders f hf hdue

/-- A worker that walks on, or leaves the table, still has to answer. -/
theorem Agrees.setFolder {acc : Account} {i : ℕ} {f f' : Folder} {inflight : List (RequestId × ℕ)}
    (hacc : Agrees k s acc) (hf : s.folders[i]? = some f) (hdue : f'.due k = f.due k)
    (htok : f'.token = f.token)
    (hphase : s.isCancelled f.token = false → f.phase ≠ .leaving true → f'.phase ≠ .leaving true) :
    Agrees k { s.setFolder i f' with inflight := inflight } acc := by
  refine hacc.keep rfl ⟨rfl, rfl⟩ ?_ fun hun => hun.setFolder ⟨rfl, rfl, rfl⟩ rfl fun h => ?_
  · have hcount : ({ s.setFolder i f' with inflight := inflight } : Server δ).owing k +
        (if f.due k then 1 else 0) = s.owing k + if f'.due k then 1 else 0 :=
      owing_setFolder hf rfl rfl
    rw [hdue] at hcount
    omega
  · obtain ⟨hcalm, hp⟩ := hun.folders f (List.mem_of_getElem? hf) (hdue ▸ h)
    exact ⟨htok ▸ hcalm, hphase hcalm hp⟩

theorem Agrees.answered {acc : Account} {i : ℕ} {f : Folder} {c : Bool} (hacc : Agrees k s acc)
    (hf : s.folders[i]? = some f) (hp : f.phase = .leaving c) :
    ∃ acc', Agrees k { s.setFolder i { f with phase := .answered } with
      log := s.log ++ [.wrote ⟨f.id, f.body c⟩ (some i)] } acc' := by
  have hdue : f.due k = (f.id = k : Bool) := by simp [Folder.due, hp]
  refine hacc.wrote rfl ⟨rfl, rfl⟩ ?_ (fun hid hc hun => ?_) fun _ hun =>
    hun.setFolder ⟨rfl, rfl, rfl⟩ rfl (by simp [Folder.due])
  · have hcount : ({ s.setFolder i { f with phase := .answered } with
        log := s.log ++ [.wrote ⟨f.id, f.body c⟩ (some i)] } : Server δ).owing k +
        (if f.due k then 1 else 0) = s.owing k +
          if ({ f with phase := .answered } : Folder).due k then 1 else 0 :=
      owing_setFolder hf rfl rfl
    have hnot : ({ f with phase := .answered } : Folder).due k = false := by simp [Folder.due]
    rw [hdue, hnot] at hcount
    simp only [decide_eq_true_eq, Bool.false_eq_true, if_false, add_zero] at hcount
    exact hcount.symm
  · obtain rfl : c = true := by
      by_contra hne
      simp [Folder.body, hne, Body.isCancelled] at hc
    have hmem := List.mem_of_getElem? hf
    exact (hun.folders f hmem (by simpa [hdue] using hid)).2 hp

theorem StepCase.agrees {acc : Account} (h : StepCase diagnose version s a s') (hk : Kept s)
    (hp : Plain s) (hd : DistinctIds owed s a) (hacc : Agrees k s acc) :
    ∃ acc', Agrees k s' acc' := by
  cases h with
  | receive e hr => exact hacc.receive hr hd
  | endOfInput => exact hacc.drained rfl ⟨rfl, rfl⟩ rfl
  | exited => exact hacc.drained rfl ⟨rfl, rfl⟩ rfl
  | @responded r _ hduty =>
    refine hacc.wrote rfl ⟨rfl, rfl⟩ ?_ (fun _ hc => ?_) fun hid hun =>
      ⟨hun.running, nofun, nofun, hun.folders⟩
    · simp only [owing, hduty, Duty.taken, reduceCtorEq, if_false, Option.some.injEq]
      omega
    · rw [hp r hduty] at hc
      cases hc
  | waited _ hduty => exact ⟨acc, hacc.duty (by rw [hduty]; rfl) nofun nofun⟩
  | registered _ hduty => exact ⟨acc, hacc.registered hduty⟩
  | absent _ hduty =>
    exact ⟨acc, hacc.duty (by rw [hduty]; rfl) (fun t ht => by rw [hduty]; exact ht) nofun⟩
  | present _ hduty =>
    exact ⟨acc, hacc.duty (by rw [hduty]; rfl) (fun t ht => by rw [hduty]; exact ht) nofun⟩
  | read _ hduty =>
    exact ⟨acc, hacc.duty (by rw [hduty]; rfl) (fun t ht => by rw [hduty]; exact ht) nofun⟩
  | spawned _ hduty => exact ⟨acc, hacc.spawned hduty⟩
  | unknown _ hduty => exact ⟨acc, hacc.duty (by rw [hduty]; rfl) nofun nofun⟩
  | cancelled _ hduty hlook => exact ⟨acc, hacc.cancelled hk hduty hlook⟩
  | document => exact ⟨acc, hacc.keep rfl ⟨rfl, rfl⟩ rfl fun hun => ⟨hun.1, hun.2, hun.3, hun.4⟩⟩
  | pool => exact ⟨acc, hacc.keep rfl ⟨rfl, rfl⟩ rfl fun hun => ⟨hun.1, hun.2, hun.3, hun.4⟩⟩
  | drain hst =>
    refine ⟨acc, hacc.keep rfl ⟨rfl, rfl⟩ rfl fun hun => ?_⟩
    exact absurd (hst.symm.trans hun.running) (by simp)
  | joined hst =>
    refine ⟨acc, hacc.keep rfl ⟨rfl, rfl⟩ rfl fun hun => ?_⟩
    exact absurd (hst.symm.trans hun.running) (by simp)
  | @walked i f hf hp hend => exact ⟨acc, hacc.setFolder hf rfl rfl fun _ h => h⟩
  | @left i f hf hp hend =>
    exact ⟨acc, hacc.setFolder hf (by simp [Folder.due, hp]) rfl fun h _ => by simp [h]⟩
  | answered hf hp => exact hacc.answered hf hp

/-! ## Every run -/

theorem plain_of_reach {ok : Server δ → ServerAction → Prop}
    (h : Reach (step diagnose version) initial ok s) : Plain s :=
  h.inv (P := Plain) nofun fun _ _ _ _ hp _ hst => (step_cases hst).plain hp

theorem agrees_initial (k : RequestId) : Agrees k (initial : Server δ) .opened :=
  ⟨rfl, rfl, rfl, rfl, nofun⟩

theorem agrees_of_reach (h : Reach (step diagnose version) initial (DistinctIds owed) s)
    (k : RequestId) : ∃ acc, Agrees k s acc := by
  refine h.inv (P := fun s => ∃ acc, Agrees k s acc) ⟨_, agrees_initial k⟩ ?_
  rintro s a s' hs ⟨acc, hacc⟩ hd hst
  exact (step_cases hst).agrees (kept_of_reach hs) (plain_of_reach hs) hd hacc

/-- Once `run` has returned nobody has a response to come. -/
theorem owing_of_returned (hk : Kept s) (hst : s.stage = .returned) : s.owing k = 0 := by
  have hduty : s.duty = .idle := hk.drained (by rw [hst]; simp)
  have hcount : s.folders.countP (Folder.due k) = 0 := by
    rw [List.countP_eq_zero]
    intro f hf
    simp [Folder.due, hk.returned hst f hf]
  simp [owing, hduty, Duty.taken, hcount]

/-- **Exactly one response.** In every run in which the ids in flight
are distinct, whatever the order of the threads: every envelope that is
owed a response gets one, a cancellation only when it was asked for, and
no other envelope gets any; a list of folds is that of a whole walk; and
`run` returns, with everything answered, unless envelopes come for
ever. -/
theorem answeredOnce_of_distinctIds {diagnose : Text → δ} {version : Text} {s : Server δ}
    (h : Reach (step diagnose version) initial (DistinctIds owed) s) :
    AnsweredOnce owed s ∧ FullFolds s ∧ Returns diagnose version s := by
  refine ⟨fun k => ?_, (kept_of_reach h).full, returns diagnose version s⟩
  obtain ⟨acc, hacc⟩ := agrees_of_reach h k
  refine ⟨acc, hacc.reads, fun hst => ?_⟩
  have hcount := hacc.count
  rw [owing_of_returned (kept_of_reach h) hst] at hcount
  cases hstatus : acc.status with
  | settled => rfl
  | waiting asked =>
    rw [hstatus] at hcount
    cases hcount

/-- `initialized`, one folding request, its worker, and the end of the
input. -/
def foldedOnce : List ServerAction :=
  [.receive (.object [("method".toList, .string "initialized".toList)]),
    .receive (.object [("id".toList, .integer 7),
      ("method".toList, .string "textDocument/foldingRange".toList),
      ("params".toList, .object [])]),
    .serve, .serve, .serve, .leave 0, .answer 0, .endOfInput, .serve, .serve]

theorem answeredOnce_of_distinctIds_foldedOnce :
    ∃ s : Server Text, run (step id []) foldedOnce initial = some s ∧ s.stage = .returned ∧
      s.log[2]? = some (.wrote ⟨.integer 7, .result (buildFoldingRanges [])⟩ (some 0)) ∧
      AnsweredOnce owed s ∧ FullFolds s ∧ Returns id [] s := by
  obtain ⟨s, hs⟩ : ∃ s, run (step id []) foldedOnce (initial : Server Text) = some s := ⟨_, rfl⟩
  have hreach : Reach (step id []) initial (DistinctIds owed) s := by
    refine Reach.init.follows foldedOnce ?_
    obtain rfl := Option.some.inj hs
    refine ⟨?_, _, rfl, ?_, _, rfl, trivial, _, rfl, trivial, _, rfl, trivial, _, rfl, trivial, _,
      rfl, trivial, _, rfl, trivial, _, rfl, trivial, _, rfl, trivial, _, rfl, rfl⟩
    · intro k acc hacc _
      obtain rfl := Option.some.inj hacc
      rfl
    · intro k acc hacc _
      obtain rfl := Option.some.inj hacc
      rfl
  refine ⟨s, hs, ?_, ?_, answeredOnce_of_distinctIds hreach⟩
  · obtain rfl := Option.some.inj hs
    rfl
  · obtain rfl := Option.some.inj hs
    rfl

/-- A `didOpen` that carries an id, before `initialized`. -/
def openedEarly : List ServerAction :=
  [.receive (.object [("id".toList, .integer 1),
      ("method".toList, .string "textDocument/didOpen".toList)]), .serve]

/-- A `shutdown` whose id no `int64_t` holds, and the end of the input. -/
def wideId : List ServerAction :=
  [.receive (.object [("id".toList, .integer (2 ^ 63)),
      ("method".toList, .string "shutdown".toList)]), .endOfInput, .serve, .serve]

/-- The notification is answered, and the request is not. -/
theorem not_answeredOnce_requested :
    (∃ s : Server Text, run (step id []) openedEarly initial = some s ∧
      Reach (step id []) initial (DistinctIds requested) s ∧ ¬ AnsweredOnce requested s) ∧
    ∃ s : Server Text, run (step id []) wideId initial = some s ∧
      Reach (step id []) initial (DistinctIds requested) s ∧ s.stage = .returned ∧
      ¬ AnsweredOnce requested s := by
  have hfirst : ∀ e, DistinctIds requested (initial : Server Text) (.receive e) := by
    intro e k acc hacc _
    obtain rfl := Option.some.inj hacc
    rfl
  constructor
  · obtain ⟨s, hs⟩ : ∃ s, run (step id []) openedEarly (initial : Server Text) = some s := ⟨_, rfl⟩
    refine ⟨s, hs, Reach.init.follows openedEarly ?_, fun h => ?_⟩
    · obtain rfl := Option.some.inj hs
      exact ⟨hfirst _, _, rfl, trivial, _, rfl, rfl⟩
    · obtain ⟨acc, hacc, -⟩ := h (.integer 1)
      obtain rfl := Option.some.inj hs
      cases hacc
  · obtain ⟨s, hs⟩ : ∃ s, run (step id []) wideId (initial : Server Text) = some s := ⟨_, rfl⟩
    have hst : s.stage = .returned := by
      obtain rfl := Option.some.inj hs
      rfl
    refine ⟨s, hs, Reach.init.follows wideId ?_, hst, fun h => ?_⟩
    · obtain rfl := Option.some.inj hs
      exact ⟨hfirst _, _, rfl, trivial, _, rfl, trivial, _, rfl, trivial, _, rfl, rfl⟩
    · obtain ⟨acc, hacc, hset⟩ := h (.integer (2 ^ 63))
      have := hset hst
      obtain rfl := Option.some.inj hs
      obtain rfl := Option.some.inj hacc
      cases this

end Server

end LSP

end Nslc
