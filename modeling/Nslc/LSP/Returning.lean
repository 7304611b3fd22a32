import Mathlib
import Nslc.LSP.Server
/-!
# LSP — `run` returns

Between two envelopes every run of the server comes to an end, and it
ends only where `run` has returned: a section of the dispatch thread
brings it closer to the end of its handler, a section of a worker brings
the worker closer to its own, and someone can always go on.
-/

namespace Nslc

namespace LSP

open Interleave

/-! ## Ranks -/

/-- The sections before the handler's end. -/
def Pc.rank {υ : Type} : Pc υ → ℕ
  | .idle => 0
  | .enqueueing _ _ _ _ | .closeErase _ => 1
  | .scheduling _ _ _ _ | .closePublish _ _ => 2
  | .updating _ _ _ | .closeRead _ _ => 3
  | .opening _ _ _ | .closeLookup _ => 4
  | .staleRead _ _ _ _ => 5
  | .staleLookup _ _ _ => 6

def Duty.rank : Duty → ℕ
  | .idle => 0
  | .respond _ | .spawn _ _ _ | .cancelling _ => 1
  | .waiting _ | .read _ _ _ => 2
  | .lookup _ _ _ => 3
  | .register _ _ => 4

def Stage.rank : Stage → ℕ
  | .returned => 0
  | .joining => 1
  | .draining => 2
  | .running => 3

def Phase.rank : Phase → ℕ
  | .gone | .done _ => 0
  | .checked _ => 1
  | .reparsed _ => 2
  | .found _ => 3
  | .queued => 4

def Folder.rank (f : Folder) : ℕ :=
  match f.phase with
  | .walking => f.scan.rest.length + 2
  | .leaving _ => 1
  | .answered => 0

theorem sum_map_set_add {α : Type} (g : α → ℕ) {l : List α} {i : ℕ} {x : α} (y : α)
    (h : l[i]? = some x) : ((l.set i y).map g).sum + g x = (l.map g).sum + g y := by
  induction l generalizing i with
  | nil => simp at h
  | cons z l ih =>
    cases i with
    | zero =>
      obtain rfl : z = x := by simpa using h
      simp only [List.set_cons_zero, List.map_cons, List.sum_cons]
      omega
    | succ i =>
      have := ih (by simpa using h)
      simp only [List.set_cons_succ, List.map_cons, List.sum_cons]
      omega

/-! ## The documents -/

namespace Documents

variable {υ δ : Type} [DecidableEq υ] {diagnose : Text → δ} {d d' : Documents υ δ} {a : Action υ}

/-- The sections the pool has before it. -/
def load (d : Documents υ δ) : ℕ := (d.pool.map fun w => w.phase.rank).sum

omit [DecidableEq υ] in
theorem load_setPhase_lt {i : ℕ} {w : Worker υ} {p : Phase} (hw : d.pool[i]? = some w)
    (hp : p.rank < w.phase.rank) :
    ((d.pool.set i { w with phase := p }).map fun w => w.phase.rank).sum < d.load := by
  have hsum := sum_map_set_add (fun w : Worker υ => w.phase.rank) { w with phase := p } hw
  dsimp only at hsum
  unfold load
  omega

/-- A worker's section brings it closer to its end. -/
theorem StepCase.load_lt (h : StepCase diagnose d a d') (ha : a.ofWorker = true) :
    d'.pc = d.pc ∧ d'.load < d.load := by
  cases h with
  | gone hw hp => exact ⟨rfl, load_setPhase_lt hw (by rw [hp]; decide)⟩
  | @found i w t hw hp => exact ⟨rfl, load_setPhase_lt hw (by rw [hp]; show 3 < 4; omega)⟩
  | @stored i w t hw hp => exact ⟨rfl, load_setPhase_lt hw (by rw [hp]; show 2 < 3; omega)⟩
  | @dropped i w t hw hp => exact ⟨rfl, load_setPhase_lt hw (by rw [hp]; show 0 < 2; omega)⟩
  | @passed i w t hw hp => exact ⟨rfl, load_setPhase_lt hw (by rw [hp]; show 1 < 2; omega)⟩
  | @published i w t hw hp => exact ⟨rfl, load_setPhase_lt hw (by rw [hp]; show 0 < 1; omega)⟩
  | receive => cases ha
  | _ => cases ha

/-- A section of a handler brings it closer to its end. -/
theorem rank_dispatch_lt (diagnose : Text → δ) (h : d.dispatch = some d') :
    d'.pc.rank < d.pc.rank := by
  have hcase : StepCase diagnose d .dispatch d' := dispatch_cases h
  cases hcase <;> simp_all [Pc.rank]

theorem exists_tus_ensure (d : Documents υ δ) (u : υ) : ∃ t, (d.ensure u).tus u = some t := by
  cases h : d.tus u with
  | none => exact ⟨d.fresh, by simp [ensure, h]⟩
  | some t => exact ⟨t, by rw [ensure_of_some d u h, h]⟩

theorem isSome_dispatch (h : d.pc ≠ .idle) : d.dispatch.isSome := by
  unfold dispatch
  split
  · exact absurd (by assumption) h
  · split <;> rfl
  · split_ifs <;> rfl
  · rfl
  · rename_i u v x hpc
    obtain ⟨t, ht⟩ := d.exists_tus_ensure u
    simp [ht]
  · rfl
  · rfl
  · split <;> rfl
  · rfl
  · rfl
  · rfl

/-- A worker that has not returned can go on. -/
theorem exists_step_of_worker (diagnose : Text → δ) {i : ℕ} {w : Worker υ}
    (hw : d.pool[i]? = some w) (hp : w.phase.finished = false) :
    ∃ a, a.ofWorker = true ∧ (step diagnose d a).isSome := by
  cases hphase : w.phase with
  | queued =>
    refine ⟨.lookup i, rfl, ?_⟩
    cases htus : d.tus w.uri <;> simp [step, hw, hphase, htus]
  | found t => exact ⟨.reparse i, rfl, by simp [step, hw, hphase]⟩
  | reparsed t =>
    refine ⟨.check i, rfl, ?_⟩
    by_cases hlt : w.version < (d.heap t).latestReceived <;> simp [step, hw, hphase, hlt]
  | checked t => exact ⟨.publish i, rfl, by simp [step, hw, hphase]⟩
  | gone =>
    rw [hphase] at hp
    cases hp
  | done t =>
    rw [hphase] at hp
    cases hp

end Documents

/-! ## The server -/

/-- Every action but the arrival of an envelope. -/
def ServerAction.Quiet : ServerAction → Prop
  | .receive _ => False
  | _ => True

namespace Server

variable {δ : Type} {diagnose : Text → δ} {version : Text} {s s' : Server δ} {a : ServerAction}

/-- What `run` and its handlers have before them. -/
def rank (s : Server δ) : ℕ := s.stage.rank + s.duty.rank + s.documents.pc.rank

/-- What the workers have before them. -/
def load (s : Server δ) : ℕ := s.documents.load + (s.folders.map Folder.rank).sum

theorem load_setFolder_lt {i : ℕ} {f f' : Folder} (hf : s.folders[i]? = some f)
    (hrank : f'.rank < f.rank) : (s.setFolder i f').load < s.load := by
  have hsum := sum_map_set_add Folder.rank f' hf
  simp only [load, setFolder]
  omega

/-- **A step that reads no envelope comes closer to the end.** -/
theorem StepCase.rank_lt (h : StepCase diagnose version s a s') (hq : a.Quiet) :
    Prod.Lex (· < ·) (· < ·) (s'.rank, s'.load) (s.rank, s.load) := by
  have hthread : s'.rank < s.rank → Prod.Lex (· < ·) (· < ·) (s'.rank, s'.load) (s.rank, s.load) :=
    fun hlt => .left _ _ hlt
  have hworker : s'.rank = s.rank → s'.load < s.load →
      Prod.Lex (· < ·) (· < ·) (s'.rank, s'.load) (s.rank, s.load) := by
    intro heq hlt
    rw [heq]
    exact .right _ hlt
  cases h with
  | receive => exact hq.elim
  | endOfInput hr =>
    have : s.stage = .running := by
      simp only [reading, decide_eq_true_eq] at hr
      exact hr.1
    exact hthread (by simp only [rank, this, Stage.rank]; omega)
  | exited hst => exact hthread (by simp only [rank, hst, Stage.rank]; omega)
  | document hst hd =>
    have := Documents.rank_dispatch_lt diagnose hd
    exact hthread (by simp only [rank]; omega)
  | drain hst => exact hthread (by simp only [rank, hst, Stage.rank]; omega)
  | joined hst => exact hthread (by simp only [rank, hst, Stage.rank]; omega)
  | pool hw hd =>
    obtain ⟨hpc, hlt⟩ := (Documents.step_cases hd).load_lt hw
    refine hworker (by simp only [rank, hpc]) ?_
    simp only [load]
    omega
  | @walked i f hf hp hend =>
    have hrest : f.scan.rest ≠ [] := by
      intro h
      simp [Scan.ended, h] at hend
    have := Scan.length_step_lt (s.isCancelled f.token) hrest
    exact hworker rfl (load_setFolder_lt hf (by simp only [Folder.rank, hp]; omega))
  | left hf hp => exact hworker rfl (load_setFolder_lt hf (by simp [Folder.rank, hp]))
  | answered hf hp => exact hworker rfl (load_setFolder_lt hf (by simp [Folder.rank, hp]))
  | responded _ hduty => exact hthread (by simp only [rank, hduty, Duty.rank]; omega)
  | waited _ hduty => exact hthread (by simp only [rank, hduty, Duty.rank]; omega)
  | registered _ hduty => exact hthread (by simp only [rank, hduty, Duty.rank]; omega)
  | absent _ hduty => exact hthread (by simp only [rank, hduty, Duty.rank]; omega)
  | present _ hduty => exact hthread (by simp only [rank, hduty, Duty.rank]; omega)
  | read _ hduty => exact hthread (by simp only [rank, hduty, Duty.rank]; omega)
  | spawned _ hduty => exact hthread (by simp only [rank, hduty, Duty.rank]; omega)
  | unknown _ hduty => exact hthread (by simp only [rank, hduty, Duty.rank]; omega)
  | cancelled _ hduty => exact hthread (by simp only [rank, hduty, Duty.rank, cancel]; omega)

theorem exists_step_of_folder (diagnose : Text → δ) (version : Text) {i : ℕ} {f : Folder}
    (hf : s.folders[i]? = some f) (hp : f.phase ≠ .answered) :
    ∃ a : ServerAction, a.Quiet ∧ (step diagnose version s a).isSome := by
  cases hphase : f.phase with
  | walking =>
    cases hend : f.scan.ended with
    | false => exact ⟨.walk i, trivial, by simp [step, hf, hphase, hend]⟩
    | true => exact ⟨.leave i, trivial, by simp [step, hf, hphase, hend]⟩
  | leaving c => exact ⟨.answer i, trivial, by simp [step, hf, hphase]⟩
  | answered => exact absurd hphase hp

/-- The handler at hand can go on, or waits for a pool worker that can. -/
theorem exists_step_of_running (diagnose : Text → δ) (version : Text)
    (hst : s.stage = .running) :
    ∃ a : ServerAction, a.Quiet ∧ (step diagnose version s a).isSome := by
  by_cases hpc : s.documents.pc = .idle
  · cases hduty : s.duty with
    | idle =>
      cases hex : s.exited with
      | true => exact ⟨.serve, trivial, by simp [step, serve, attend, hst, hpc, hduty, hex]⟩
      | false => exact ⟨.endOfInput, trivial, by simp [step, reading, hst, hpc, hduty, hex]⟩
    | waiting id =>
      by_cases hall : s.documents.pool.all (·.phase.finished) = true
      · exact ⟨.serve, trivial, by simp [step, serve, attend, hst, hpc, hduty, hall]⟩
      · simp only [List.all_eq_true, not_forall] at hall
        obtain ⟨w, hw, hfin⟩ := hall
        obtain ⟨i, hi⟩ := List.mem_iff_getElem?.1 hw
        obtain ⟨a, ha, hsome⟩ :=
          Documents.exists_step_of_worker diagnose hi (by simpa using hfin)
        exact ⟨.pool a, trivial, by simpa [step, ha] using hsome⟩
    | lookup id t uri =>
      refine ⟨.serve, trivial, ?_⟩
      cases htus : s.documents.tus uri <;> simp [step, serve, attend, hst, hpc, hduty, htus]
    | cancelling id =>
      refine ⟨.serve, trivial, ?_⟩
      cases hl : s.inflight.lookup id <;> simp [step, serve, attend, hst, hpc, hduty, hl]
    | _ => exact ⟨.serve, trivial, by simp [step, serve, attend, hst, hpc, hduty]⟩
  · have hsome := Documents.isSome_dispatch hpc
    exact ⟨.serve, trivial, by simpa [step, serve, hst, hpc] using hsome⟩

/-- **Someone can always go on** until `run` has returned. -/
theorem exists_step (diagnose : Text → δ) (version : Text) (hst : s.stage ≠ .returned) :
    ∃ a : ServerAction, a.Quiet ∧ (step diagnose version s a).isSome := by
  cases hstage : s.stage with
  | running => exact exists_step_of_running diagnose version hstage
  | draining => exact ⟨.serve, trivial, by simp [step, serve, hstage]⟩
  | joining =>
    by_cases hall : s.folders.all (·.phase = .answered) = true
    · exact ⟨.serve, trivial, by simp only [step, serve, hstage, hall, if_true, Option.isSome_some]⟩
    · simp only [List.all_eq_true, not_forall] at hall
      obtain ⟨f, hf, hp⟩ := hall
      obtain ⟨i, hi⟩ := List.mem_iff_getElem?.1 hf
      exact exists_step_of_folder diagnose version hi (by simpa using hp)
  | returned => exact absurd hstage hst

/-- No run goes on for ever without another envelope, and it stops only
where `run` has returned. -/
def Returns (diagnose : Text → δ) (version : Text) (s : Server δ) : Prop :=
  Ends (step diagnose version) ServerAction.Quiet s ∧
    (s.stage ≠ .returned → ∃ a : ServerAction, a.Quiet ∧ (step diagnose version s a).isSome)

theorem returns (diagnose : Text → δ) (version : Text) (s : Server δ) :
    Returns diagnose version s := by
  refine ⟨ends_of_rank (fun s => (s.rank, s.load)) ?_ s, exists_step diagnose version⟩
  intro s a s' hq hst
  exact (step_cases hst).rank_lt hq

end Server

end LSP

end Nslc
