import Nslc.Lower.FSM
import Nslc.Lower.Simulation
/-!
# What becomes of a proc

A machine keeps what its proc does when every op of the proc has a
counterpart in it. Building one only ever appends states: first those of
the proc, then a sink and placeholders as the bodies ask for them. As
long as no state of the proc has the name of one of these, the
transitions of a state are those its body asks for; calls of anything but
a proc and ops beside the states are dropped.
-/

namespace Nslc

namespace FSM

open Dialect Lower

theorem sinkName_ne_placeholderName (callee : String) : sinkName ≠ placeholderName callee := by
  intro h
  have hlast := congrArg (fun s => s.toList.getLast?) h
  simp [sinkName, placeholderName] at hlast

/-! ## What the bodies ask for -/

section Asked

variable (isProc : String → Bool)

/-- The state an op needs beside those of the proc. -/
def neededState : StateBodyOp → Option String
  | .finish | .finishMethod => some sinkName
  | .call callee => if isProc callee then some (placeholderName callee) else none
  | _ => none

/-- The transition an op becomes, if any. -/
def transitionTo : StateBodyOp → Option String
  | .goto target => some target
  | .finish | .finishMethod => some sinkName
  | .call callee => if isProc callee then some (placeholderName callee) else none
  | .other _ => none

def neededStates (ops : List StateBodyOp) : List String := ops.filterMap (neededState isProc)

end Asked

/-! ## Building a machine -/

def MachineBuilder.transitionsAt (mb : MachineBuilder) (i : ℕ) : List String :=
  ((mb.states[i]?).map FsmState.transitions).getD []

def MachineBuilder.names (mb : MachineBuilder) : List String := mb.states.map FsmState.symName

section Builder

variable {isProc : String → Bool} {mb mb' : MachineBuilder} {i : ℕ}

@[simp] theorem names_createState (name : String) :
    (mb.createState name).names = mb.names ++ [name] := by
  simp [MachineBuilder.names, MachineBuilder.createState]

@[simp] theorem names_createTransition (target : String) :
    (mb.createTransition i target).names = mb.names := by
  refine List.ext_getElem? fun j => ?_
  simp only [MachineBuilder.names, MachineBuilder.createTransition, List.getElem?_map,
    List.getElem?_modify]
  cases mb.states[j]? with
  | none => rfl
  | some s => by_cases h : i = j <;> simp [h]

theorem transitionsAt_createState (name : String) (j : ℕ) :
    (mb.createState name).transitionsAt j = mb.transitionsAt j := by
  simp only [MachineBuilder.transitionsAt, MachineBuilder.createState]
  rcases Nat.lt_trichotomy j mb.states.length with h | h | h
  · rw [List.getElem?_append_left h]
  · subst h
    simp
  · rw [List.getElem?_eq_none (by simp; omega), List.getElem?_eq_none (by omega)]

theorem transitionsAt_createTransition (target : String) (hi : i < mb.names.length) (j : ℕ) :
    (mb.createTransition i target).transitionsAt j =
      mb.transitionsAt j ++ if i = j then [target] else [] := by
  have hi' : i < mb.states.length := by simpa [MachineBuilder.names] using hi
  simp only [MachineBuilder.transitionsAt, MachineBuilder.createTransition, List.getElem?_modify]
  by_cases h : i = j
  · subst h
    simp [List.getElem?_eq_getElem hi']
  · simp [h]

/-- Names are found inside the machine, those of `own` all of them. -/
structure Mapped (own : List String) (mb : MachineBuilder) : Prop where
  lt : ∀ n j, mb.stateMap n = some j → j < mb.names.length
  own : ∀ n ∈ own, (mb.stateMap n).isSome

/-- The states behind those of the proc are the ones asked for so far,
each once. -/
structure Built (isProc : String → Bool) (own : List String) (done : List StateBodyOp)
    (mb : MachineBuilder) : Prop where
  names : ∃ extra, mb.names = own ++ extra ∧ extra.Nodup ∧
    ∀ n, n ∈ extra ↔ n ∈ neededStates isProc done
  sink : mb.hasSink = true ↔ sinkName ∈ neededStates isProc done
  sinkMapped : mb.hasSink = true → (mb.stateMap sinkName).isSome
  mapped : Mapped own mb
  placeholders : ∀ n, n ∈ mb.crossMachinePlaceholders ↔
    n ≠ sinkName ∧ n ∈ neededStates isProc done

variable {own : List String} {done : List StateBodyOp}

theorem Mapped.createState (h : Mapped own mb) (name : String) :
    Mapped own (mb.createState name) where
  lt n j hj := by
    have hlen : mb.names.length = mb.states.length := by simp [MachineBuilder.names]
    simp only [MachineBuilder.createState] at hj
    split at hj
    · obtain rfl := Option.some.inj hj
      simp [hlen]
    · have := h.lt n j hj
      simp
      omega
  own n hn := by
    simp only [MachineBuilder.createState]
    split
    · rfl
    · exact h.own n hn

theorem Mapped.createTransition (h : Mapped own mb) (target : String) :
    Mapped own (mb.createTransition i target) where
  lt n j hj := by simpa using h.lt n j hj
  own := h.own

theorem Built.length_le (h : Built isProc own done mb) : own.length ≤ mb.names.length := by
  obtain ⟨extra, hn, -⟩ := h.names
  simp [hn]

theorem Built.createTransition (h : Built isProc own done mb) (target : String) :
    Built isProc own done (mb.createTransition i target) where
  names := by simpa using h.names
  sink := h.sink
  sinkMapped := h.sinkMapped
  mapped := h.mapped.createTransition target
  placeholders := h.placeholders

theorem neededStates_concat (op : StateBodyOp) :
    neededStates isProc (done ++ [op]) =
      neededStates isProc done ++ (neededState isProc op).toList := by
  simp only [neededStates, List.filterMap_append, List.append_cancel_left_eq]
  cases h : neededState isProc op <;> simp [h]

/-- An op that needs no new state. -/
theorem Built.skip (h : Built isProc own done mb) {op : StateBodyOp}
    (hop : ∀ n, neededState isProc op = some n → n ∈ neededStates isProc done) :
    Built isProc own (done ++ [op]) mb := by
  have hsame : ∀ n, n ∈ neededStates isProc (done ++ [op]) ↔ n ∈ neededStates isProc done := by
    intro n
    rw [neededStates_concat, List.mem_append, Option.mem_toList]
    exact ⟨fun hn => hn.elim id (hop n), Or.inl⟩
  refine ⟨?_, ?_, h.sinkMapped, h.mapped, ?_⟩
  · obtain ⟨extra, hn, hnd, hmem⟩ := h.names
    exact ⟨extra, hn, hnd, fun n => (hmem n).trans (hsame n).symm⟩
  · rw [hsame]
    exact h.sink
  · intro n
    rw [hsame]
    exact h.placeholders n

/-- A state created for an op that needs it. -/
theorem Built.create (h : Built isProc own done mb) {op : StateBodyOp} {n : String}
    (hop : neededState isProc op = some n) (hn : n ∉ neededStates isProc done) :
    ∃ extra, (mb.createState n).names = own ++ extra ∧ extra.Nodup ∧
      ∀ k, k ∈ extra ↔ k ∈ neededStates isProc (done ++ [op]) := by
  obtain ⟨extra, hnames, hnd, hmem⟩ := h.names
  refine ⟨extra ++ [n], by simp [hnames], ?_, fun k => ?_⟩
  · rw [List.nodup_append]
    refine ⟨hnd, List.nodup_singleton n, fun a ha b hb hab => hn ?_⟩
    rw [List.mem_singleton.1 hb] at hab
    exact hab ▸ (hmem a).1 ha
  · simp [neededStates_concat, hop, hmem]

theorem built_ensureSinkState (h : Built isProc own done mb) {op : StateBodyOp}
    (hop : neededState isProc op = some sinkName) :
    Built isProc own (done ++ [op]) mb.ensureSinkState := by
  have hconcat : neededStates isProc (done ++ [op]) = neededStates isProc done ++ [sinkName] := by
    simp [neededStates_concat, hop]
  unfold MachineBuilder.ensureSinkState
  split
  · rename_i hs
    rw [Bool.and_eq_true] at hs
    refine h.skip fun n hn => ?_
    rw [hop] at hn
    exact Option.some.inj hn ▸ h.sink.1 hs.1
  · rename_i hs
    -- a flag that is set comes with the state
    have hsink : mb.hasSink ≠ true := fun hflag => hs (by simp [hflag, h.sinkMapped hflag])
    refine ⟨h.create hop fun hm => hsink (h.sink.2 hm), ?_, ?_, ⟨?_, ?_⟩, fun n => ?_⟩
    · simp [hconcat]
    · simp [MachineBuilder.createState]
    · exact (h.mapped.createState sinkName).lt
    · exact (h.mapped.createState sinkName).own
    · show n ∈ mb.crossMachinePlaceholders ↔ _
      rw [h.placeholders n, hconcat]
      simp only [List.mem_append, List.mem_singleton]
      tauto

theorem built_ensurePlaceholder (h : Built isProc own done mb) {callee : String}
    (hp : isProc callee = true) :
    Built isProc own (done ++ [.call callee]) (mb.ensureCrossMachinePlaceholder callee) := by
  have hop : neededState isProc (.call callee) = some (placeholderName callee) := by
    simp [neededState, hp]
  have hne := sinkName_ne_placeholderName callee
  have hconcat : neededStates isProc (done ++ [.call callee]) =
      neededStates isProc done ++ [placeholderName callee] := by
    simp [neededStates_concat, hop]
  unfold MachineBuilder.ensureCrossMachinePlaceholder
  split
  · rename_i hc
    refine h.skip fun n hn => ?_
    rw [hop] at hn
    exact Option.some.inj hn ▸ ((h.placeholders _).1 (List.contains_iff_mem.1 hc)).2
  · rename_i hc
    have hnot : placeholderName callee ∉ neededStates isProc done := fun hm =>
      hc (List.contains_iff_mem.2 ((h.placeholders _).2 ⟨hne.symm, hm⟩))
    refine ⟨h.create hop hnot, ?_, fun hs => ?_, ⟨?_, ?_⟩, fun n => ?_⟩
    · show mb.hasSink = true ↔ _
      rw [h.sink, hconcat]
      simp [hne]
    · show ((mb.createState (placeholderName callee)).stateMap sinkName).isSome
      simp only [MachineBuilder.createState, if_neg hne]
      exact h.sinkMapped hs
    · exact (h.mapped.createState (placeholderName callee)).lt
    · exact (h.mapped.createState (placeholderName callee)).own
    · simp only [List.mem_append, List.mem_singleton, hconcat]
      rw [h.placeholders n]
      constructor
      · rintro (⟨hs, hm⟩ | rfl)
        · exact ⟨hs, .inl hm⟩
        · exact ⟨hne.symm, .inr rfl⟩
      · rintro ⟨hs, hm | rfl⟩
        · exact .inl ⟨hs, hm⟩
        · exact .inr rfl

/-- What lowering some ops of the state at `i` does to the machine. -/
structure Lowers (isProc : String → Bool) (i : ℕ) (ops : List StateBodyOp)
    (mb mb' : MachineBuilder) : Prop where
  transitions : ∀ j, mb'.transitionsAt j =
    mb.transitionsAt j ++ if i = j then ops.filterMap (transitionTo isProc) else []
  stateMap : ∀ n, n ∉ neededStates isProc ops → mb'.stateMap n = mb.stateMap n
  length : mb.names.length ≤ mb'.names.length
  known : ∀ mnemonic, .other mnemonic ∉ ops

theorem Lowers.refl (mb : MachineBuilder) : Lowers isProc i [] mb mb :=
  ⟨by simp, fun _ _ => rfl, le_rfl, by simp⟩

theorem Lowers.trans {mb'' : MachineBuilder} {ops ops' : List StateBodyOp}
    (h : Lowers isProc i ops mb mb') (h' : Lowers isProc i ops' mb' mb'') :
    Lowers isProc i (ops ++ ops') mb mb'' where
  transitions j := by
    rw [h'.transitions j, h.transitions j]
    by_cases hj : i = j <;> simp [hj]
  stateMap n hn := by
    simp only [neededStates, List.filterMap_append, List.mem_append, not_or] at hn
    rw [h'.stateMap n hn.2, h.stateMap n hn.1]
  length := h.length.trans h'.length
  known m := by simp [h.known m, h'.known m]

/-- A transition behind the creation of the state an op needs. -/
theorem lowers_createTransition {op : StateBodyOp} {target : String}
    (hi : i < mb'.names.length) (ht : transitionTo isProc op = some target)
    (htrans : ∀ j, mb'.transitionsAt j = mb.transitionsAt j)
    (hmap : ∀ n, n ∉ neededStates isProc [op] → mb'.stateMap n = mb.stateMap n)
    (hlen : mb.names.length ≤ mb'.names.length) :
    Lowers isProc i [op] mb (mb'.createTransition i target) where
  transitions j := by
    rw [transitionsAt_createTransition target hi, htrans]
    simp [ht]
  stateMap := hmap
  length := by simpa using hlen
  known m := by
    rintro hm
    rw [← List.mem_singleton.1 hm] at ht
    simp [transitionTo] at ht

theorem transitionsAt_ensureSinkState (j : ℕ) :
    mb.ensureSinkState.transitionsAt j = mb.transitionsAt j := by
  unfold MachineBuilder.ensureSinkState
  split
  · rfl
  · exact transitionsAt_createState sinkName j

theorem transitionsAt_ensurePlaceholder (callee : String) (j : ℕ) :
    (mb.ensureCrossMachinePlaceholder callee).transitionsAt j = mb.transitionsAt j := by
  unfold MachineBuilder.ensureCrossMachinePlaceholder
  split
  · rfl
  · exact transitionsAt_createState _ j

theorem stateMap_ensureSinkState {n : String} (hn : n ≠ sinkName) :
    mb.ensureSinkState.stateMap n = mb.stateMap n := by
  unfold MachineBuilder.ensureSinkState
  split
  · rfl
  · simp [MachineBuilder.createState, hn]

theorem stateMap_ensurePlaceholder {n callee : String} (hn : n ≠ placeholderName callee) :
    (mb.ensureCrossMachinePlaceholder callee).stateMap n = mb.stateMap n := by
  unfold MachineBuilder.ensureCrossMachinePlaceholder
  split
  · rfl
  · simp [MachineBuilder.createState, hn]

theorem length_ensureSinkState : mb.names.length ≤ mb.ensureSinkState.names.length := by
  unfold MachineBuilder.ensureSinkState
  split
  · exact le_rfl
  · show _ ≤ (mb.createState sinkName).names.length
    simp

theorem length_ensurePlaceholder (callee : String) :
    mb.names.length ≤ (mb.ensureCrossMachinePlaceholder callee).names.length := by
  unfold MachineBuilder.ensureCrossMachinePlaceholder
  split
  · exact le_rfl
  · show _ ≤ (mb.createState (placeholderName callee)).names.length
    simp

/-- The two ops that lead to the sink. -/
theorem lowers_finish (h : Built isProc own done mb) (hi : i < mb.names.length)
    {op : StateBodyOp} (hn : neededState isProc op = some sinkName)
    (ht : transitionTo isProc op = some sinkName) :
    Built isProc own (done ++ [op]) (mb.ensureSinkState.createTransition i sinkName) ∧
      Lowers isProc i [op] mb (mb.ensureSinkState.createTransition i sinkName) := by
  refine ⟨(built_ensureSinkState h hn).createTransition sinkName, ?_⟩
  refine lowers_createTransition (hi.trans_le length_ensureSinkState) ht
    transitionsAt_ensureSinkState (fun n hne => stateMap_ensureSinkState ?_)
    length_ensureSinkState
  rintro rfl
  exact hne (by simp [neededStates, hn])

/-- **One op of a state body.** -/
theorem lowerStateBodyOp_spec (h : Built isProc own done mb) (hi : i < mb.names.length)
    {op : StateBodyOp} (hop : lowerStateBodyOp isProc i mb op = .ok mb') :
    Built isProc own (done ++ [op]) mb' ∧ Lowers isProc i [op] mb mb' := by
  cases op with
  | goto target =>
    obtain rfl := Except.ok.inj hop
    exact ⟨(h.skip (by simp [neededState])).createTransition target,
      lowers_createTransition hi rfl (fun _ => rfl) (fun _ _ => rfl) le_rfl⟩
  | finish =>
    obtain rfl := Except.ok.inj hop
    exact lowers_finish h hi rfl rfl
  | finishMethod =>
    obtain rfl := Except.ok.inj hop
    exact lowers_finish h hi rfl rfl
  | call callee =>
    by_cases hp : isProc callee = true
    · simp only [lowerStateBodyOp, hp, if_true, Except.ok.injEq] at hop
      subst hop
      refine ⟨(built_ensurePlaceholder h hp).createTransition _,
        lowers_createTransition (hi.trans_le (length_ensurePlaceholder callee))
          (by simp [transitionTo, hp]) (transitionsAt_ensurePlaceholder callee)
          (fun n hn => stateMap_ensurePlaceholder ?_) (length_ensurePlaceholder callee)⟩
      rintro rfl
      exact hn (by simp [neededStates, neededState, hp])
    · simp only [lowerStateBodyOp, hp, Bool.false_eq_true, if_false, Except.ok.injEq] at hop
      subst hop
      exact ⟨h.skip (by simp [neededState, hp]), by simp [transitionTo, hp], fun _ _ => rfl,
        le_rfl, by simp⟩
  | other mnemonic => cases hop

/-- **A state body.** -/
theorem lowerStateBodyOps_spec (ops : List StateBodyOp) {done : List StateBodyOp}
    {mb : MachineBuilder} (h : Built isProc own done mb) (hi : i < mb.names.length)
    (hops : ops.foldlM (lowerStateBodyOp isProc i) mb = .ok mb') :
    Built isProc own (done ++ ops) mb' ∧ Lowers isProc i ops mb mb' := by
  induction ops generalizing done mb with
  | nil =>
    obtain rfl := Except.ok.inj hops
    exact ⟨by simpa using h, .refl mb⟩
  | cons op ops ih =>
    rw [List.foldlM_cons] at hops
    obtain ⟨mid, hop, hrest⟩ := bind_eq_ok hops
    obtain ⟨hb, hl⟩ := lowerStateBodyOp_spec h hi hop
    obtain ⟨hb', hl'⟩ := ih hb (hi.trans_le hl.length) hrest
    exact ⟨by simpa using hb', hl.trans hl'⟩

theorem lowerStateBody_spec (h : Built isProc own done mb) {s : StateOp}
    (hs : s.symName ∈ own) (hok : lowerStateBody isProc mb s = .ok mb') :
    Built isProc own (done ++ s.body) mb' ∧
      ∃ i, mb.stateMap s.symName = some i ∧ Lowers isProc i s.body mb mb' := by
  obtain ⟨i, hi⟩ := Option.isSome_iff_exists.1 (h.mapped.own _ hs)
  simp only [lowerStateBody, hi] at hok
  obtain ⟨hb, hl⟩ := lowerStateBodyOps_spec s.body h (h.mapped.lt _ i hi) hok
  exact ⟨hb, i, hi, hl⟩

/-- The states of a machine and the ops that were lowered. -/
theorem lowerStates_built (states : List StateOp) {done : List StateBodyOp} {mb : MachineBuilder}
    (h : Built isProc own done mb) (hs : ∀ s ∈ states, s.symName ∈ own)
    (hok : states.foldlM (lowerStateBody isProc) mb = .ok mb') :
    Built isProc own (done ++ states.flatMap StateOp.body) mb' ∧
      ∀ mnemonic, .other mnemonic ∉ states.flatMap StateOp.body := by
  induction states generalizing done mb with
  | nil =>
    obtain rfl := Except.ok.inj hok
    exact ⟨by simpa using h, by simp⟩
  | cons s states ih =>
    rw [List.foldlM_cons] at hok
    obtain ⟨mid, hop, hrest⟩ := bind_eq_ok hok
    obtain ⟨hb, i, -, hl⟩ := lowerStateBody_spec h (hs s (by simp)) hop
    obtain ⟨hb', hknown⟩ := ih hb (fun t ht => hs t (List.mem_cons_of_mem s ht)) hrest
    refine ⟨by simpa using hb', fun m hm => ?_⟩
    rw [List.flatMap_cons, List.mem_append] at hm
    exact hm.elim (hl.known m) (hknown m)

/-- The transitions the states of the proc come to have. -/
def askedTransitions (isProc : String → Bool) (states : List StateOp) (j : ℕ) : List String :=
  ((states[j]?).map fun s => s.body.filterMap (transitionTo isProc)).getD []

theorem askedTransitions_concat (states : List StateOp) (s : StateOp) (j : ℕ) :
    askedTransitions isProc (states ++ [s]) j = askedTransitions isProc states j ++
      if states.length = j then s.body.filterMap (transitionTo isProc) else [] := by
  simp only [askedTransitions]
  rcases Nat.lt_trichotomy j states.length with h | h | h
  · rw [List.getElem?_append_left h]
    simp [Nat.ne_of_gt h]
  · subst h
    simp
  · rw [List.getElem?_eq_none (by simp; omega), List.getElem?_eq_none (by omega)]
    simp [Nat.ne_of_lt h]

/-- **The states of a proc**, none of which has the name of a state that
is asked for. -/
theorem lowerStates_transitions (states before : List StateOp) {mb : MachineBuilder}
    (hown : own = (before ++ states).map StateOp.symName)
    (hclash : ∀ n ∈ neededStates isProc ((before ++ states).flatMap StateOp.body), n ∉ own)
    (h : Built isProc own (before.flatMap StateOp.body) mb)
    (hmap : ∀ (k : ℕ) n, own[k]? = some n → mb.stateMap n = some k)
    (htrans : ∀ j, mb.transitionsAt j = askedTransitions isProc before j)
    (hok : states.foldlM (lowerStateBody isProc) mb = .ok mb') (j : ℕ) :
    mb'.transitionsAt j = askedTransitions isProc (before ++ states) j := by
  induction states generalizing before mb with
  | nil =>
    obtain rfl := Except.ok.inj hok
    simpa using htrans j
  | cons s states ih =>
    rw [List.foldlM_cons] at hok
    obtain ⟨mid, hop, hrest⟩ := bind_eq_ok hok
    have hget : own[before.length]? = some s.symName := by simp [hown]
    obtain ⟨hb, i, hi, hl⟩ := lowerStateBody_spec h (List.mem_of_getElem? hget) hop
    obtain rfl : before.length = i := Option.some.inj ((hmap _ _ hget).symm.trans hi)
    have hsplit : before ++ s :: states = (before ++ [s]) ++ states := by simp
    rw [hsplit] at hown hclash ⊢
    refine ih (before ++ [s]) hown hclash (by simpa using hb) (fun k n hk => ?_) (fun k => ?_) hrest
    · -- the names of the proc are never given to another state
      rw [hl.stateMap n fun hn => hclash n ?_ (List.mem_of_getElem? hk)]
      · exact hmap k n hk
      · simp only [neededStates, List.flatMap_append, List.filterMap_append, List.mem_append,
          List.flatMap_cons, List.flatMap_nil, List.append_nil] at hn ⊢
        exact .inl (.inr hn)
    · rw [hl.transitions k, htrans k, askedTransitions_concat]

end Builder

/-! ## One proc -/

def emptyBuilder : MachineBuilder := ⟨[], fun _ => none, false, []⟩

/-- A machine with a state for each of the names. -/
def shells (names : List String) : MachineBuilder :=
  names.foldl MachineBuilder.createState emptyBuilder

theorem shells_concat (names : List String) (n : String) :
    shells (names ++ [n]) = (shells names).createState n := by
  simp [shells, List.foldl_append]

theorem names_shells (names : List String) : (shells names).names = names := by
  induction names using List.reverseRecOn with
  | nil => rfl
  | append_singleton names n ih => rw [shells_concat, names_createState, ih]

theorem transitionsAt_shells (names : List String) (j : ℕ) :
    (shells names).transitionsAt j = [] := by
  induction names using List.reverseRecOn with
  | nil => rfl
  | append_singleton names n ih => rw [shells_concat, transitionsAt_createState, ih]

theorem flags_shells (names : List String) :
    (shells names).hasSink = false ∧ (shells names).crossMachinePlaceholders = [] := by
  induction names using List.reverseRecOn with
  | nil => exact ⟨rfl, rfl⟩
  | append_singleton names n ih =>
    rw [shells_concat]
    exact ih

theorem mapped_shells (names : List String) : Mapped names (shells names) := by
  induction names using List.reverseRecOn with
  | nil => exact ⟨fun _ _ h => (nomatch h), by simp⟩
  | append_singleton names n ih =>
    rw [shells_concat]
    have h := ih.createState n
    refine ⟨h.lt, fun k hk => ?_⟩
    rcases List.mem_append.1 hk with hk | hk
    · exact h.own k hk
    · simp [MachineBuilder.createState, List.mem_singleton.1 hk]

/-- Distinct names are found where they stand. -/
theorem stateMap_shells {names : List String} (hnd : names.Nodup) {k : ℕ} {n : String}
    (hk : names[k]? = some n) : (shells names).stateMap n = some k := by
  induction names using List.reverseRecOn with
  | nil => simp at hk
  | append_singleton names m ih =>
    have hlen : (shells names).states.length = names.length := by
      simpa [MachineBuilder.names] using congrArg List.length (names_shells names)
    rw [List.nodup_append] at hnd
    rw [shells_concat]
    simp only [MachineBuilder.createState]
    rcases Nat.lt_or_ge k names.length with h | h
    · rw [List.getElem?_append_left h] at hk
      have hne : n ≠ m := hnd.2.2 n (List.mem_of_getElem? hk) m (by simp)
      rw [if_neg hne]
      exact ih hnd.1 hk
    · rw [List.getElem?_append_right h] at hk
      have hk0 : k = names.length := by
        by_contra hne
        rw [List.getElem?_eq_none (by simp; omega)] at hk
        cases hk
      subst hk0
      simp only [Nat.sub_self, List.getElem?_cons_zero, Option.some.injEq] at hk
      simp [hk, hlen]

theorem built_shells (isProc : String → Bool) (own : List String) :
    Built isProc own [] (shells own) where
  names := ⟨[], by simp [names_shells], List.nodup_nil, by simp [neededStates]⟩
  sink := by simp [flags_shells, neededStates]
  sinkMapped h := by simp [flags_shells] at h
  mapped := mapped_shells own
  placeholders := by simp [flags_shells, neededStates]

/-- The names a proc needs beside those of its states. -/
def ProcOp.neededNames (isProc : String → Bool) (p : ProcOp) : List String :=
  neededStates isProc p.actions

/-- What is always true of the machine of a proc. -/
structure MachineShape (isProc : String → Bool) (p : ProcOp) (m : MachineOp) : Prop where
  symName : m.symName = p.symName
  initialState : m.initialState = initialStateName p
  stateNames : ∃ extra, m.stateNames = p.stateNames ++ extra ∧ extra.Nodup ∧
    ∀ n, n ∈ extra ↔ n ∈ p.neededNames isProc
  known : ∀ mnemonic, .other mnemonic ∉ p.actions
  /-- Transitions, where no state has a needed name. -/
  transitions : p.stateNames.Nodup → (∀ n ∈ p.neededNames isProc, n ∉ p.stateNames) →
    ∀ j, ((m.states[j]?).map FsmState.transitions).getD [] = askedTransitions isProc p.states j

/-- **The machine of a proc.** -/
theorem lowerOneProc_shape {isProc : String → Bool} {p : ProcOp} {m : MachineOp}
    (h : lowerOneProc isProc p = .ok m) : MachineShape isProc p m := by
  unfold lowerOneProc at h
  split at h
  · cases h
  · obtain ⟨mb, hstates, hm⟩ := bind_eq_ok h
    obtain rfl := Except.ok.inj hm
    have hown : ∀ s ∈ p.states, s.symName ∈ p.stateNames := fun s hs => List.mem_map_of_mem hs
    obtain ⟨hb, hknown⟩ := lowerStates_built p.states (built_shells isProc p.stateNames) hown hstates
    rw [List.nil_append] at hb
    refine ⟨rfl, rfl, hb.names, hknown, fun hnd hclash j => ?_⟩
    refine lowerStates_transitions p.states [] rfl hclash (built_shells isProc p.stateNames)
      (fun k n hk => stateMap_shells hnd hk) (fun k => ?_) hstates j
    rw [transitionsAt_shells]
    rfl

/-! ## Every action has a counterpart -/

/-- The transition an op of a state body is kept as. -/
def Counterpart : StateBodyOp → String → Prop
  | .goto target, t => t = target
  | .finish, t | .finishMethod, t => t = sinkName
  | .call callee, t => t = placeholderName callee
  | .other _, _ => False

/-- The machine keeps what the proc does. -/
structure KeepsProc (p : ProcOp) (m : MachineOp) : Prop where
  symName : m.symName = p.symName
  /-- The states in order, then at most a sink and placeholders. -/
  states : ∃ extra, m.stateNames = p.stateNames ++ extra ∧ ∀ n ∈ extra,
    n = sinkName ∨ ∃ callee, .call callee ∈ p.actions ∧ n = placeholderName callee
  /-- Each of them once. -/
  distinct : m.stateNames.Nodup
  initial : m.initialState ∈ m.stateNames
  /-- One transition for each op of the state, in order. -/
  transitions : ∀ (j : ℕ) s, p.states[j]? = some s →
    ∃ t, m.states[j]? = some t ∧ List.Forall₂ Counterpart s.body t.transitions
  added : ∀ (j : ℕ) t, p.states.length ≤ j → m.states[j]? = some t → t.transitions = []
  targets : ∀ t ∈ m.states, ∀ n ∈ t.transitions, n ∈ m.stateNames
  /-- Nothing stands beside the states but the choice of the initial one. -/
  body : ∀ op ∈ p.body, op.state?.isSome ∨ op.firstState? = some m.initialState

/-- A proc all of whose ops have a place in its machine. -/
structure Placeable (isProc : String → Bool) (p : ProcOp) : Prop where
  statesOnly : ∀ op ∈ p.body, op.state?.isSome ∨ op.firstState?.isSome
  named : "" ∉ p.firstStates
  calls : ∀ callee, .call callee ∈ p.actions → isProc callee = true
  apart : ∀ n ∈ p.neededNames isProc, n ∉ p.stateNames
  initial : initialStateName p ∈ p.stateNames ++ p.neededNames isProc
  gotos : ∀ target, .goto target ∈ p.actions → target ∈ p.stateNames ++ p.neededNames isProc

section Keeps

variable {isProc : String → Bool} {p : ProcOp} {m : MachineOp}

theorem mem_actions {op : StateBodyOp} :
    op ∈ p.actions ↔ ∃ (j : ℕ) (s : StateOp), p.states[j]? = some s ∧ op ∈ s.body := by
  rw [ProcOp.actions, List.mem_flatMap]
  constructor
  · rintro ⟨s, hs, hop⟩
    obtain ⟨j, hj⟩ := List.mem_iff_getElem?.1 hs
    exact ⟨j, s, hj, hop⟩
  · rintro ⟨j, s, hj, hop⟩
    exact ⟨s, List.mem_of_getElem? hj, hop⟩

theorem MachineShape.mem_stateNames (h : MachineShape isProc p m) {n : String} :
    n ∈ m.stateNames ↔ n ∈ p.stateNames ++ p.neededNames isProc := by
  obtain ⟨extra, hn, -, hmem⟩ := h.stateNames
  rw [hn, List.mem_append, List.mem_append, hmem]

theorem MachineShape.distinct_iff (h : MachineShape isProc p m) (hnd : p.stateNames.Nodup) :
    m.stateNames.Nodup ↔ ∀ n ∈ p.neededNames isProc, n ∉ p.stateNames := by
  obtain ⟨extra, hn, hnd', hmem⟩ := h.stateNames
  rw [hn, List.nodup_append]
  constructor
  · rintro ⟨-, -, hdis⟩ n hneed hown
    exact hdis n hown n ((hmem n).2 hneed) rfl
  · exact fun hdis => ⟨hnd, hnd', fun a ha b hb hab =>
      hdis b ((hmem b).1 hb) (hab ▸ ha)⟩

/-- Ops with a transition each. -/
theorem forall₂_counterpart {ops : List StateBodyOp}
    (h : ∀ op ∈ ops, (transitionTo isProc op).isSome) :
    List.Forall₂ Counterpart ops (ops.filterMap (transitionTo isProc)) := by
  induction ops with
  | nil => exact .nil
  | cons op ops ih =>
    obtain ⟨t, ht⟩ := Option.isSome_iff_exists.1 (h op (by simp))
    rw [List.filterMap_cons_some ht]
    refine .cons ?_ (ih fun o ho => h o (List.mem_cons_of_mem op ho))
    cases op with
    | call callee =>
      simp only [transitionTo] at ht
      split at ht
      · exact (Option.some.inj ht).symm
      · cases ht
    | other mnemonic => cases ht
    | _ => exact (Option.some.inj ht).symm

/-- Where as many transitions come out as ops go in, no op was dropped. -/
theorem transitionTo_isSome_of_length {ops : List StateBodyOp}
    (h : (ops.filterMap (transitionTo isProc)).length = ops.length) :
    ∀ op ∈ ops, (transitionTo isProc op).isSome := by
  induction ops with
  | nil => simp
  | cons op ops ih =>
    have hle := List.length_filterMap_le (transitionTo isProc) ops
    cases ht : transitionTo isProc op with
    | none =>
      rw [List.filterMap_cons_none ht, List.length_cons] at h
      omega
    | some t =>
      rw [List.filterMap_cons_some ht, List.length_cons, List.length_cons] at h
      intro o ho
      rcases List.mem_cons.1 ho with rfl | ho
      · rw [ht]
        rfl
      · exact ih (by omega) o ho

theorem transitionTo_isSome (hp : ∀ callee, .call callee ∈ p.actions → isProc callee = true)
    (hk : ∀ mnemonic, .other mnemonic ∉ p.actions) {op : StateBodyOp} (hop : op ∈ p.actions) :
    (transitionTo isProc op).isSome := by
  cases op with
  | call callee => simp [transitionTo, hp callee hop]
  | other mnemonic => exact absurd hop (hk mnemonic)
  | _ => rfl

/-- A transition leads to a goto's target or to a needed state. -/
theorem transitionTo_cases {op : StateBodyOp} {t : String} (h : transitionTo isProc op = some t) :
    op = .goto t ∨ neededState isProc op = some t := by
  cases op with
  | goto target => exact .inl (congrArg _ (Option.some.inj h))
  | _ => exact .inr h

theorem MachineShape.transitions_eq (h : MachineShape isProc p m) (hnd : p.stateNames.Nodup)
    (hapart : ∀ n ∈ p.neededNames isProc, n ∉ p.stateNames) {j : ℕ} {t : FsmState}
    (ht : m.states[j]? = some t) : t.transitions = askedTransitions isProc p.states j := by
  have := h.transitions hnd hapart j
  simpa [ht] using this

theorem MachineShape.exists_state (h : MachineShape isProc p m) {j : ℕ} (hj : j < p.states.length) :
    ∃ t, m.states[j]? = some t := by
  obtain ⟨extra, hn, -⟩ := h.stateNames
  have hlen := congrArg List.length hn
  simp only [MachineOp.stateNames, ProcOp.stateNames, List.length_map, List.length_append] at hlen
  exact ⟨_, List.getElem?_eq_getElem (by omega)⟩

/-- The initial state is the one a first state names. -/
theorem initialStateName_of_mem (hv : p.verify = true) (hnamed : "" ∉ p.firstStates) {n : String}
    (hn : n ∈ p.firstStates) : initialStateName p = n := by
  simp only [ProcOp.verify, Bool.and_eq_true, decide_eq_true_eq] at hv
  obtain ⟨k, hk⟩ : ∃ k, p.firstStates = [k] := by
    rw [← List.length_eq_one_iff]
    have := List.length_pos_of_mem hn
    omega
  rw [hk, List.mem_singleton] at hn hnamed
  subst hn
  simp [initialStateName, hk, Ne.symm hnamed]

theorem mem_firstStates {n : String} : n ∈ p.firstStates ↔ .firstState n ∈ p.body := by
  simp only [ProcOp.firstStates, List.mem_filterMap]
  constructor
  · rintro ⟨op, hop, h⟩
    cases op with
    | firstState target => exact Option.some.inj h ▸ hop
    | _ => cases h
  · exact fun h => ⟨_, h, rfl⟩

/-- A proc is kept if everything in it has a place. -/
theorem MachineShape.keepsProc (h : MachineShape isProc p m) (hv : p.verify = true)
    (hp : Placeable isProc p) : KeepsProc p m := by
  have hnd : p.stateNames.Nodup := by
    simp only [ProcOp.verify, Bool.and_eq_true, decide_eq_true_eq] at hv
    exact hv.1.2
  refine ⟨h.symName, ?_, (h.distinct_iff hnd).2 hp.apart, ?_, fun j s hs => ?_,
    fun j t hj ht => ?_, fun t ht n hn => ?_, fun op hop => ?_⟩
  · obtain ⟨extra, hn, -, hmem⟩ := h.stateNames
    refine ⟨extra, hn, fun n hx => ?_⟩
    obtain ⟨op, hop, hneed⟩ := List.mem_filterMap.1 ((hmem n).1 hx)
    cases op with
    | call callee =>
      simp only [neededState, hp.calls callee hop, if_true, Option.some.injEq] at hneed
      exact .inr ⟨callee, hop, hneed.symm⟩
    | finish => exact .inl (Option.some.inj hneed).symm
    | finishMethod => exact .inl (Option.some.inj hneed).symm
    | _ => cases hneed
  · rw [h.mem_stateNames, h.initialState]
    exact hp.initial
  · obtain ⟨t, ht⟩ := h.exists_state (List.getElem?_eq_some_iff.1 hs).1
    refine ⟨t, ht, ?_⟩
    rw [h.transitions_eq hnd hp.apart ht, askedTransitions, hs]
    exact forall₂_counterpart fun op hop =>
      transitionTo_isSome hp.calls h.known (mem_actions.2 ⟨j, s, hs, hop⟩)
  · rw [h.transitions_eq hnd hp.apart ht, askedTransitions, List.getElem?_eq_none hj]
    rfl
  · obtain ⟨j, hj⟩ := List.mem_iff_getElem?.1 ht
    rw [h.transitions_eq hnd hp.apart hj, askedTransitions] at hn
    cases hs : p.states[j]? with
    | none => simp [hs] at hn
    | some s =>
      simp only [hs, Option.map_some, Option.getD_some, List.mem_filterMap] at hn
      obtain ⟨op, hop, hto⟩ := hn
      have hact : op ∈ p.actions := mem_actions.2 ⟨j, s, hs, hop⟩
      rw [h.mem_stateNames]
      rcases transitionTo_cases hto with rfl | hneed
      · exact hp.gotos n hact
      · exact List.mem_append_right _ (List.mem_filterMap.2 ⟨op, hact, hneed⟩)
  · rcases hp.statesOnly op hop with hs | hf
    · exact .inl hs
    · obtain ⟨n, hn⟩ := Option.isSome_iff_exists.1 hf
      refine .inr ?_
      rw [hn, h.initialState, initialStateName_of_mem hv hp.named (List.mem_filterMap.2 ⟨op, hop, hn⟩)]

/-- And only then. -/
theorem MachineShape.placeable (h : MachineShape isProc p m) (hv : p.verify = true)
    (hi : initialStateName p ≠ "") (hk : KeepsProc p m) : Placeable isProc p := by
  have hnd : p.stateNames.Nodup := by
    simp only [ProcOp.verify, Bool.and_eq_true, decide_eq_true_eq] at hv
    exact hv.1.2
  have hapart := (h.distinct_iff hnd).1 hk.distinct
  have hasked : ∀ (j : ℕ) s, p.states[j]? = some s → ∃ t ∈ m.states,
      t.transitions = s.body.filterMap (transitionTo isProc) ∧
        List.Forall₂ Counterpart s.body t.transitions := by
    intro j s hs
    obtain ⟨t, ht, hall⟩ := hk.transitions j s hs
    refine ⟨t, List.mem_of_getElem? ht, ?_, hall⟩
    rw [h.transitions_eq hnd hapart ht, askedTransitions, hs]
    rfl
  refine ⟨fun op hop => ?_, fun hempty => ?_, fun callee hc => ?_, hapart, ?_, fun target hg => ?_⟩
  · exact (hk.body op hop).imp_right fun hf => by simp [hf]
  · rcases hk.body _ (mem_firstStates.1 hempty) with hs | hf
    · cases hs
    · rw [h.initialState] at hf
      exact hi (Option.some.inj hf).symm
  · obtain ⟨j, s, hs, hop⟩ := mem_actions.1 hc
    obtain ⟨t, -, heq, hall⟩ := hasked j s hs
    have hsome := transitionTo_isSome_of_length (heq ▸ hall.length_eq.symm) _ hop
    by_contra hno
    simp [transitionTo, hno] at hsome
  · rw [← h.mem_stateNames, ← h.initialState]
    exact hk.initial
  · obtain ⟨j, s, hs, hop⟩ := mem_actions.1 hg
    obtain ⟨t, ht, heq, -⟩ := hasked j s hs
    rw [← h.mem_stateNames]
    exact hk.targets t ht target (heq ▸ List.mem_filterMap.2 ⟨_, hop, rfl⟩)

end Keeps

/-! ## Units -/

def unitProcs (u : List UnitModule) : List ProcOp := u.flatMap UnitModule.procs

/-- Some module of the unit declares a proc of the name. -/
def procNamed (u : List UnitModule) (name : String) : Bool :=
  ((unitProcs u).map ProcOp.symName).contains name

/-- Lowered and still to be lowered procs together are those of the unit. -/
theorem isProcTarget_eq (p : ProcOp) (procs : List ProcOp) (machines : List MachineOp) :
    isProcTarget (p :: procs) (machines.map MachineOp.symName ++ [p.symName]) =
      (machines.map MachineOp.symName ++ (p :: procs).map ProcOp.symName).contains := by
  funext callee
  rw [Bool.eq_iff_iff]
  simp only [isProcTarget, List.any_cons, Bool.or_eq_true, beq_iff_eq, List.any_eq_true,
    List.contains_iff_mem, List.mem_append, List.map_cons, List.mem_cons,
    List.mem_map, List.not_mem_nil, or_false]
  constructor
  · rintro ((rfl | ⟨q, hq, rfl⟩) | (hm | rfl))
    · exact .inr (.inl rfl)
    · exact .inr (.inr ⟨q, hq, rfl⟩)
    · exact .inl hm
    · exact .inr (.inl rfl)
  · rintro (hm | rfl | ⟨q, hq, rfl⟩)
    · exact .inr (.inl hm)
    · exact .inr (.inr rfl)
    · exact .inl (.inr ⟨q, hq, rfl⟩)

/-- The classification of calls does not change while procs are lowered. -/
theorem lowerProcs_spec (procs : List ProcOp) {machines out : List MachineOp}
    (h : lowerProcs procs machines = .ok out) :
    ∃ ms, out = machines ++ ms ∧ List.Forall₂ (fun p m => lowerOneProc
      (machines.map MachineOp.symName ++ procs.map ProcOp.symName).contains p = .ok m)
        procs ms := by
  induction procs generalizing machines with
  | nil =>
    obtain rfl := Except.ok.inj h
    exact ⟨[], (List.append_nil _).symm, .nil⟩
  | cons p procs ih =>
    obtain ⟨m, hm, hrest⟩ := bind_eq_ok h
    rw [isProcTarget_eq] at hm
    obtain ⟨ms, rfl, hall⟩ := ih hrest
    refine ⟨m :: ms, by simp, .cons hm ?_⟩
    simpa [(lowerOneProc_shape hm).symName] using hall

/-- **Each proc has its machine**, built with the procs of the whole unit
in view. -/
theorem lowerNSLProcs_spec {u : List UnitModule} {out : Machines}
    (h : lowerNSLProcsToFSMMachines u = .ok out) :
    List.Forall₂ (fun p m => lowerOneProc (procNamed u) p = .ok m) (unitProcs u) out.procs := by
  obtain ⟨procs, hprocs, hrest⟩ := bind_eq_ok h
  obtain ⟨seqs, -, hout⟩ := bind_eq_ok hrest
  obtain rfl := Except.ok.inj hout
  obtain ⟨ms, rfl, hall⟩ := lowerProcs_spec _ hprocs
  exact hall

/-- Every proc of the unit is kept by its machine. -/
def KeepsActions (u : List UnitModule) (out : Machines) : Prop :=
  List.Forall₂ KeepsProc (unitProcs u) out.procs

theorem lowerOneProc_named {isProc : String → Bool} {p : ProcOp} {m : MachineOp}
    (h : lowerOneProc isProc p = .ok m) : initialStateName p ≠ "" := by
  intro hempty
  simp [lowerOneProc, hempty] at h

theorem keepsProc_iff {isProc : String → Bool} {p : ProcOp} {m : MachineOp}
    (hv : p.verify = true) (h : lowerOneProc isProc p = .ok m) :
    KeepsProc p m ↔ Placeable isProc p :=
  have hshape := lowerOneProc_shape h
  ⟨hshape.placeable hv (lowerOneProc_named h), hshape.keepsProc hv⟩

/-- Related lists, where one of the elements decides. -/
theorem forall₂_iff_of_forall₂ {α β : Type} {R S : α → β → Prop} {P : α → Prop} {as : List α}
    {bs : List β} (h : List.Forall₂ R as bs) (hS : ∀ a ∈ as, ∀ b, R a b → (S a b ↔ P a)) :
    List.Forall₂ S as bs ↔ ∀ a ∈ as, P a := by
  induction h with
  | nil => simp
  | @cons a b as bs hab _ ih =>
    rw [List.forall₂_cons, ih fun c hc => hS c (List.mem_cons_of_mem a hc),
      hS a (by simp) b hab, List.forall_mem_cons]

/-- **Procs are kept exactly where everything in them has a place.** -/
theorem keepsActions_iff (u : List UnitModule) (out : Machines)
    (hv : ∀ p ∈ unitProcs u, p.verify = true) (h : lowerNSLProcsToFSMMachines u = .ok out) :
    KeepsActions u out ↔ ∀ p ∈ unitProcs u, Placeable (procNamed u) p :=
  forall₂_iff_of_forall₂ (lowerNSLProcs_spec h) fun p hp _ hm => keepsProc_iff (hv p hp) hm

/-- A module whose only proc has one state with the given body. -/
def oneStateUnit (body : List StateBodyOp) : List UnitModule :=
  [⟨⟨"m", none, [.inert "nsl.func_in", .inert "nsl.proc"]⟩,
    [⟨"p", [.firstState "s", .state ⟨"s", body⟩]⟩]⟩]

/-- The proc calls itself and goes on. -/
theorem keepsActions_oneStateUnit :
    ∃ out, lowerNSLProcsToFSMMachines (oneStateUnit [.call "p", .goto "s"]) = .ok out ∧
      KeepsActions (oneStateUnit [.call "p", .goto "s"]) out := by
  have hlower : lowerNSLProcsToFSMMachines (oneStateUnit [.call "p", .goto "s"]) = .ok
      ⟨[⟨"p", "s", [⟨"s", ["p_initial_state", "s"]⟩, ⟨"p_initial_state", []⟩]⟩], []⟩ := by rfl
  refine ⟨_, hlower, (keepsActions_iff _ _ (by decide) hlower).2 fun p hp => ?_⟩
  obtain rfl := List.mem_singleton.1 hp
  refine ⟨by simp [ProcBodyOp.state?, ProcBodyOp.firstState?], by decide, fun callee hc => ?_,
    by decide, by decide, fun target hg => ?_⟩
  · obtain rfl : callee = "p" := by
      simpa [ProcOp.actions, ProcOp.states, ProcBodyOp.state?] using hc
    decide
  · obtain rfl : target = "s" := by
      simpa [ProcOp.actions, ProcOp.states, ProcBodyOp.state?] using hg
    decide

/-- The call of a function in a state has no counterpart. -/
theorem not_keepsActions_funcCall :
    (∀ p ∈ unitProcs (oneStateUnit [.call "f", .goto "s"]), p.verify = true) ∧
      ∃ out, lowerNSLProcsToFSMMachines (oneStateUnit [.call "f", .goto "s"]) = .ok out ∧
        ¬ KeepsActions (oneStateUnit [.call "f", .goto "s"]) out := by
  refine ⟨by decide, ⟨[⟨"p", "s", [⟨"s", ["s"]⟩]⟩], []⟩, by rfl, fun hk => ?_⟩
  cases hk with
  | cons hp _ =>
    obtain ⟨t, ht, hall⟩ := hp.transitions 0 _ rfl
    obtain rfl := Option.some.inj ht
    exact absurd hall.length_eq (by decide)

end FSM

end Nslc
