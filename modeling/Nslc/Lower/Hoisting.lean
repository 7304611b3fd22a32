import Nslc.Lower.Machines
import Mathlib.Data.List.Perm.Lattice
import Mathlib.Data.List.Nodup
/-!
# Machines of several modules

The machines of all modules of a unit end up side by side with the
modules themselves, under the names their procs and functions had inside
a module, and a call in a state is a call of a proc if any module of the
unit has one of the name. Names and classification are right exactly when
no name is used in two places and no module calls by the name of another
module's proc; calls outside the states are never calls of procs.
-/

namespace Nslc

namespace FSM

open Dialect Lower

/-! ## Calls -/

mutual

def opCalls : Op → List String
  | .call callee => [callee]
  | .ifOp _ thenRegion elseRegion => opsCalls thenRegion ++ opsCalls elseRegion
  | .alt body | .any body | .case _ body | .default body | .parallel body | .func _ body
  | .seq body => opsCalls body
  | _ => []

def opsCalls : List Op → List String
  | [] => []
  | op :: ops => opCalls op ++ opsCalls ops

end

def StateBodyOp.callee? : StateBodyOp → Option String
  | call callee => some callee
  | _ => none

def ProcBodyOp.otherCalls : ProcBodyOp → List String
  | other op => opCalls op
  | _ => []

namespace UnitModule

variable (m : UnitModule)

/-- Calls in the states of the module's procs. -/
def stateCalls : List String := m.procs.flatMap fun p => p.actions.filterMap StateBodyOp.callee?

/-- All other calls. -/
def otherCalls : List String :=
  opsCalls m.nsl.body ++ m.procs.flatMap fun p => p.body.flatMap ProcBodyOp.otherCalls

/-- The names of the functions with a sequence. -/
def seqNames : List String :=
  (m.funcs.filter fun f => f.2.any Op.isSeq).map Prod.fst

/-- The names the module's machines get. -/
def machineNames : List String := m.procNames ++ m.seqNames

end UnitModule

/-- `lowerNSLModulesToHWModules`, each module under its name. -/
def lowerNSLModulesToHWModules (u : List UnitModule) :
    Except LowerError (List (String × HWModule)) :=
  u.mapM fun m => do
    let hw ← lowerOneModule m.nsl
    return (m.symName, hw)

/-! ## What a unit's lowering ought to be -/

/-- The symbols at top level. -/
def symbols (hws : List (String × HWModule)) (out : Machines) : List String :=
  hws.map Prod.fst ++ (out.procs.map MachineOp.symName ++ out.seqs.map MachineOp.symName)

/-- The lowering is that of the modules, each for itself. -/
structure LowersAlone (u : List UnitModule) (hws : List (String × HWModule)) (out : Machines) :
    Prop where
  modules : ∃ parts, List.Forall₂ (fun m part => lowerNSLModulesToHWModules [m] = .ok part)
    u parts ∧ hws = parts.flatten
  machines : ∃ parts, List.Forall₂ (fun m part => lowerNSLProcsToFSMMachines [m] = .ok part)
    u parts ∧ out.procs = parts.flatMap Machines.procs ∧ out.seqs = parts.flatMap Machines.seqs

structure HoistsApart (u : List UnitModule) (hws : List (String × HWModule)) (out : Machines) :
    Prop where
  symbols : (symbols hws out).Nodup
  /-- A call in a state becomes a transition if its module has the proc. -/
  stateCalls : ∀ m ∈ u, ∀ callee ∈ m.stateCalls,
    (transitionTo (procNamed u) (.call callee)).isSome = m.procNames.contains callee
  /-- Any other call becomes a valid signal or nothing, so it must not
  name a proc. -/
  otherCalls : ∀ m ∈ u, ∀ callee ∈ m.otherCalls, callee ∉ m.procNames
  alone : LowersAlone u hws out

/-- No name of a machine is used twice, and calls stay inside a module. -/
structure NamesApart (u : List UnitModule) : Prop where
  modules : ∀ m ∈ u, ∀ n ∈ m.machineNames, n ∉ u.map UnitModule.symName
  machines : u.Pairwise fun m m' => List.Disjoint m.machineNames m'.machineNames
  stateCalls : ∀ m ∈ u, ∀ m' ∈ u, ∀ callee ∈ m.stateCalls, callee ∈ m'.procNames →
    callee ∈ m.procNames
  otherCalls : ∀ m ∈ u, ∀ callee ∈ m.otherCalls, callee ∉ m.procNames

/-! ## Lists -/

section Lists

variable {α β ε : Type}

theorem mapM_eq_ok_iff {f : α → Except ε β} {as : List α} {bs : List β} :
    as.mapM f = .ok bs ↔ List.Forall₂ (fun a b => f a = .ok b) as bs := by
  induction as generalizing bs with
  | nil => cases bs <;> simp [pure, Except.pure]
  | cons a as ih =>
    rw [List.mapM_cons, List.forall₂_cons_left_iff]
    constructor
    · intro h
      obtain ⟨b, hb, hrest⟩ := bind_eq_ok h
      obtain ⟨bs', hbs, hout⟩ := bind_eq_ok hrest
      exact ⟨b, bs', hb, ih.1 hbs, (Except.ok.inj hout).symm⟩
    · rintro ⟨b, bs', hb, hbs, rfl⟩
      simp [hb, ih.2 hbs, bind, Except.bind, pure, Except.pure]

theorem foldlM_congr_of_mem {f g : β → α → Except ε β} {as : List α}
    (h : ∀ a ∈ as, ∀ b, f b a = g b a) (b : β) : as.foldlM f b = as.foldlM g b := by
  induction as generalizing b with
  | nil => rfl
  | cons a as ih =>
    rw [List.foldlM_cons, List.foldlM_cons, h a (by simp)]
    exact congrArg _ (funext fun c => ih (fun x hx => h x (List.mem_cons_of_mem a hx)) c)

theorem forall₂_append_left {R : α → β → Prop} {as as' : List α} {bs : List β}
    (h : List.Forall₂ R (as ++ as') bs) :
    ∃ xs ys, bs = xs ++ ys ∧ List.Forall₂ R as xs ∧ List.Forall₂ R as' ys := by
  induction as generalizing bs with
  | nil => exact ⟨[], bs, rfl, .nil, h⟩
  | cons a as ih =>
    obtain ⟨b, bs, hab, hrest, rfl⟩ := List.forall₂_cons_left_iff.1 h
    obtain ⟨xs, ys, rfl, hxs, hys⟩ := ih hrest
    exact ⟨b :: xs, ys, rfl, .cons hab hxs, hys⟩

/-- Results for lists put together, taken apart again. -/
theorem forall₂_flatMap_left {γ : Type} {R : α → β → Prop} {f : γ → List α} {cs : List γ}
    {bs : List β} (h : List.Forall₂ R (cs.flatMap f) bs) :
    ∃ parts, List.Forall₂ (fun c part => List.Forall₂ R (f c) part) cs parts ∧
      bs = parts.flatten := by
  induction cs generalizing bs with
  | nil =>
    obtain rfl := List.forall₂_nil_left_iff.1 h
    exact ⟨[], .nil, rfl⟩
  | cons c cs ih =>
    obtain ⟨xs, ys, rfl, hxs, hys⟩ := forall₂_append_left h
    obtain ⟨parts, hparts, rfl⟩ := ih hys
    exact ⟨xs :: parts, .cons hxs hparts, rfl⟩

end Lists

/-! ## The classification decides -/

section Congr

variable {isProc isProc' : String → Bool}

theorem lowerStateBody_congr {s : StateOp} (mb : MachineBuilder)
    (h : ∀ callee, .call callee ∈ s.body → isProc callee = isProc' callee) :
    lowerStateBody isProc mb s = lowerStateBody isProc' mb s := by
  unfold lowerStateBody
  split
  · rfl
  · refine foldlM_congr_of_mem (fun op hop mb => ?_) mb
    cases op with
    | call callee => simp only [lowerStateBodyOp, h callee hop]
    | _ => rfl

/-- Only the names a proc calls matter to its machine. -/
theorem lowerOneProc_congr {p : ProcOp}
    (h : ∀ callee, .call callee ∈ p.actions → isProc callee = isProc' callee) :
    lowerOneProc isProc p = lowerOneProc isProc' p := by
  have hfold := foldlM_congr_of_mem (f := lowerStateBody isProc) (g := lowerStateBody isProc')
    fun s hs mb => lowerStateBody_congr mb fun callee hc =>
      h callee (List.mem_flatMap.2 ⟨s, hs, hc⟩)
  simp only [lowerOneProc, hfold]

end Congr

/-! ## The machines of a unit -/

theorem lowerProcs_of_forall₂ {procs : List ProcOp} {machines ms : List MachineOp}
    (h : List.Forall₂ (fun p m => lowerOneProc
      (machines.map MachineOp.symName ++ procs.map ProcOp.symName).contains p = .ok m)
        procs ms) : lowerProcs procs machines = .ok (machines ++ ms) := by
  induction procs generalizing machines ms with
  | nil =>
    obtain rfl := List.forall₂_nil_left_iff.1 h
    simp [lowerProcs]
  | cons p procs ih =>
    obtain ⟨m, ms, hm, hrest, rfl⟩ := List.forall₂_cons_left_iff.1 h
    have hnext : lowerProcs procs (machines ++ [m]) = .ok (machines ++ [m] ++ ms) := by
      refine ih ?_
      simpa [(lowerOneProc_shape hm).symName] using hrest
    rw [lowerProcs, isProcTarget_eq, hm]
    simpa [bind, Except.bind] using hnext

/-- The machines of a function: one if it has a sequence, else none. -/
def IsSeqMachine (f : String × List Op) (m : Option MachineOp) : Prop :=
  lowerOneFuncSeq f.1 f.2 = .ok m

/-- **The unit is lowered machine by machine.** -/
theorem lowerNSLProcs_eq_ok_iff {u : List UnitModule} {out : Machines} :
    lowerNSLProcsToFSMMachines u = .ok out ↔
      List.Forall₂ (fun p m => lowerOneProc (procNamed u) p = .ok m) (unitProcs u) out.procs ∧
        ∃ seqs, List.Forall₂ IsSeqMachine (u.flatMap UnitModule.funcs) seqs ∧
          out.seqs = seqs.reduceOption := by
  constructor
  · intro h
    refine ⟨lowerNSLProcs_spec h, ?_⟩
    obtain ⟨procs, -, hrest⟩ := bind_eq_ok h
    obtain ⟨seqs, hseqs, hout⟩ := bind_eq_ok hrest
    obtain rfl := Except.ok.inj hout
    exact ⟨seqs, mapM_eq_ok_iff.1 hseqs, rfl⟩
  · rintro ⟨hprocs, seqs, hseqs, hout⟩
    have hlower : lowerProcs (u.flatMap UnitModule.procs) [] = .ok out.procs :=
      lowerProcs_of_forall₂ hprocs
    have hfuncs : (u.flatMap UnitModule.funcs).mapM (fun f => lowerOneFuncSeq f.1 f.2) = .ok seqs :=
      mapM_eq_ok_iff.2 hseqs
    obtain ⟨procs, seqMachines⟩ := out
    obtain rfl := hout
    simp only [lowerNSLProcsToFSMMachines, hlower, hfuncs, bind, Except.bind, pure, Except.pure]

theorem lowerOneFuncSeq_symName {f : String × List Op} {m : Option MachineOp}
    (h : IsSeqMachine f m) :
    (m.map MachineOp.symName).toList = if f.2.any Op.isSeq then [f.1] else [] := by
  have hany : f.2.any Op.isSeq = !(f.2.filterMap seqBody?).isEmpty := by
    rw [Bool.eq_iff_iff]
    simp only [List.any_eq_true, Bool.not_eq_true', List.isEmpty_eq_false_iff_exists_mem,
      List.mem_filterMap]
    constructor
    · rintro ⟨op, hop, hs⟩
      cases op with
      | seq body => exact ⟨body, _, hop, rfl⟩
      | _ => cases hs
    · rintro ⟨body, op, hop, hs⟩
      cases op with
      | seq body' => exact ⟨_, hop, rfl⟩
      | _ => cases hs
  rw [hany]
  unfold IsSeqMachine lowerOneFuncSeq at h
  split at h
  · rename_i hnil
    obtain rfl := Except.ok.inj h
    simp [hnil]
  · rename_i ops hone
    split at h
    · cases h
    · obtain rfl := Except.ok.inj h
      simp [hone]
  · cases h

theorem map_symName_reduceOption {fs : List (String × List Op)} {ms : List (Option MachineOp)}
    (h : List.Forall₂ IsSeqMachine fs ms) :
    ms.reduceOption.map MachineOp.symName = (fs.filter fun f => f.2.any Op.isSeq).map Prod.fst := by
  induction h with
  | nil => rfl
  | @cons f m fs ms hf _ ih =>
    have hname := lowerOneFuncSeq_symName hf
    rw [List.filter_cons]
    cases m with
    | none =>
      rw [List.reduceOption_cons_of_none, ih]
      split at hname
      · cases hname
      · rename_i hno
        rw [if_neg hno]
    | some m =>
      rw [List.reduceOption_cons_of_some, List.map_cons, ih]
      split at hname
      · rename_i hyes
        rw [if_pos hyes, List.map_cons, (List.cons.inj hname).1]
      · cases hname

section Names

variable {u : List UnitModule} {hws : List (String × HWModule)} {out : Machines}

theorem map_fst_lowerNSLModules (h : lowerNSLModulesToHWModules u = .ok hws) :
    hws.map Prod.fst = u.map UnitModule.symName := by
  have hall := mapM_eq_ok_iff.1 h
  clear h
  induction hall with
  | nil => rfl
  | @cons m hw u hws hm _ ih =>
    obtain ⟨body, -, hout⟩ := bind_eq_ok hm
    rw [List.map_cons, List.map_cons, ih, ← Except.ok.inj hout]

theorem map_symName_procs (h : lowerNSLProcsToFSMMachines u = .ok out) :
    out.procs.map MachineOp.symName = u.flatMap UnitModule.procNames := by
  have hall := lowerNSLProcs_spec h
  have hmap : out.procs.map MachineOp.symName = (unitProcs u).map ProcOp.symName := by
    generalize out.procs = ms at hall
    generalize unitProcs u = ps at hall
    induction hall with
    | nil => rfl
    | @cons p m ps ms hm _ ih =>
      rw [List.map_cons, List.map_cons, ih, (lowerOneProc_shape hm).symName]
  rw [hmap, unitProcs, List.map_flatMap]
  rfl

theorem map_symName_seqs (h : lowerNSLProcsToFSMMachines u = .ok out) :
    out.seqs.map MachineOp.symName = u.flatMap UnitModule.seqNames := by
  obtain ⟨-, seqs, hseqs, hout⟩ := lowerNSLProcs_eq_ok_iff.1 h
  rw [hout, map_symName_reduceOption hseqs, List.filter_flatMap, List.map_flatMap]
  rfl

/-- The names of a unit are distinct exactly when no two modules share
one and none is the name of a module. -/
theorem nodup_symbols_iff (hm : lowerNSLModulesToHWModules u = .ok hws)
    (hp : lowerNSLProcsToFSMMachines u = .ok out) (hmods : (u.map UnitModule.symName).Nodup)
    (hown : ∀ m ∈ u, m.machineNames.Nodup) :
    (symbols hws out).Nodup ↔
      (∀ m ∈ u, ∀ n ∈ m.machineNames, n ∉ u.map UnitModule.symName) ∧
        u.Pairwise fun m m' => List.Disjoint m.machineNames m'.machineNames := by
  have hperm : (u.flatMap UnitModule.procNames ++ u.flatMap UnitModule.seqNames).Perm
      (u.flatMap UnitModule.machineNames) := List.flatMap_append_perm u _ _
  rw [symbols, map_fst_lowerNSLModules hm, map_symName_procs hp, map_symName_seqs hp,
    List.nodup_append, hperm.nodup_iff, List.nodup_flatMap]
  constructor
  · rintro ⟨-, ⟨-, hpair⟩, hdis⟩
    refine ⟨fun m hmu n hn hn' => ?_, hpair⟩
    exact hdis n hn' n (hperm.mem_iff.2 (List.mem_flatMap.2 ⟨m, hmu, hn⟩)) rfl
  · rintro ⟨hapart, hpair⟩
    refine ⟨hmods, ⟨hown, hpair⟩, fun a ha b hb hab => ?_⟩
    obtain ⟨m, hmu, hn⟩ := List.mem_flatMap.1 (hperm.mem_iff.1 hb)
    exact hapart m hmu b hn (hab ▸ ha)

theorem procNamed_iff {callee : String} :
    procNamed u callee = true ↔ ∃ m ∈ u, callee ∈ m.procNames := by
  simp only [procNamed, unitProcs, List.contains_iff_mem, List.map_flatMap, List.mem_flatMap]
  rfl

theorem mem_stateCalls {m : UnitModule} {p : ProcOp} (hp : p ∈ m.procs) {callee : String}
    (h : .call callee ∈ p.actions) : callee ∈ m.stateCalls :=
  List.mem_flatMap.2 ⟨p, hp, List.mem_filterMap.2 ⟨_, h, rfl⟩⟩

/-- In a unit whose names are apart a call means what it means in its
module alone. -/
theorem procNamed_eq (h : NamesApart u) {m : UnitModule} (hm : m ∈ u) {callee : String}
    (hc : callee ∈ m.stateCalls) : procNamed u callee = m.procNames.contains callee := by
  rw [Bool.eq_iff_iff, procNamed_iff, List.contains_iff_mem]
  constructor
  · rintro ⟨m', hm', hcall⟩
    exact h.stateCalls m hm m' hm' callee hc hcall
  · exact fun hown => ⟨m, hm, hown⟩

theorem transitionTo_call_isSome (isProc : String → Bool) (callee : String) :
    (transitionTo isProc (.call callee)).isSome = isProc callee := by
  cases h : isProc callee <;> simp [transitionTo, h]

/-- The machines of a module, lowered alone. -/
theorem lowerNSLProcs_singleton {m : UnitModule} {ms : List MachineOp}
    {seqs : List (Option MachineOp)}
    (hprocs : List.Forall₂ (fun p t => lowerOneProc (procNamed [m]) p = .ok t) m.procs ms)
    (hseqs : List.Forall₂ IsSeqMachine m.funcs seqs) :
    lowerNSLProcsToFSMMachines [m] = .ok ⟨ms, seqs.reduceOption⟩ :=
  lowerNSLProcs_eq_ok_iff.2 ⟨by simpa [unitProcs] using hprocs, seqs, by simpa using hseqs, rfl⟩

theorem lowersAlone_modules (h : lowerNSLModulesToHWModules u = .ok hws) :
    ∃ parts, List.Forall₂ (fun m part => lowerNSLModulesToHWModules [m] = .ok part) u parts ∧
      hws = parts.flatten := by
  refine ⟨hws.map ([·]), ?_, by simp [← List.flatMap_def]⟩
  rw [List.forall₂_map_right_iff]
  refine (mapM_eq_ok_iff.1 h).imp fun m hw hm => ?_
  exact mapM_eq_ok_iff.2 (.cons hm .nil)

theorem reduceOption_flatten (parts : List (List (Option MachineOp))) :
    parts.flatten.reduceOption = parts.flatMap List.reduceOption := by
  induction parts with
  | nil => rfl
  | cons part parts ih =>
    rw [List.flatten_cons, List.reduceOption_append, ih, List.flatMap_cons]

/-- **Apart, the modules are lowered each for itself.** -/
theorem lowersAlone_machines (h : NamesApart u) (hp : lowerNSLProcsToFSMMachines u = .ok out) :
    ∃ parts, List.Forall₂ (fun m part => lowerNSLProcsToFSMMachines [m] = .ok part) u parts ∧
      out.procs = parts.flatMap Machines.procs ∧ out.seqs = parts.flatMap Machines.seqs := by
  obtain ⟨hprocs, seqs, hseqs, hout⟩ := lowerNSLProcs_eq_ok_iff.1 hp
  obtain ⟨machines, hmachines, hflat⟩ := forall₂_flatMap_left hprocs
  obtain ⟨funcs, hfuncs, rfl⟩ := forall₂_flatMap_left hseqs
  rw [hflat, hout, reduceOption_flatten]
  clear hflat hout hp hprocs hseqs
  have halone : ∀ m ∈ u, ∀ p ∈ m.procs, lowerOneProc (procNamed u) p =
      lowerOneProc (procNamed [m]) p := fun m hm p hpm => lowerOneProc_congr fun callee hc => by
    rw [procNamed_eq h hm (mem_stateCalls hpm hc), procNamed, unitProcs]
    simp [UnitModule.procNames]
  generalize procNamed u = isProc at hmachines halone
  clear h
  induction hmachines generalizing funcs with
  | nil =>
    obtain rfl := List.forall₂_nil_left_iff.1 hfuncs
    exact ⟨[], .nil, rfl, rfl⟩
  | @cons m ms u machines hm _ ih =>
    obtain ⟨fs, funcs, hf, hrest, rfl⟩ := List.forall₂_cons_left_iff.1 hfuncs
    obtain ⟨parts, hparts, hps, hss⟩ := ih funcs hrest fun m' hm' =>
      halone m' (List.mem_cons_of_mem m hm')
    refine ⟨⟨ms, fs.reduceOption⟩ :: parts, .cons (lowerNSLProcs_singleton ?_ hf) hparts, ?_, ?_⟩
    · refine List.forall₂_iff_get.2 ⟨hm.length_eq, fun i hi hi' => ?_⟩
      rw [← halone m (by simp) _ (List.get_mem _ _)]
      exact hm.get hi hi'
    · rw [List.flatten_cons, hps, List.flatMap_cons]
    · rw [List.flatMap_cons, hss, List.flatMap_cons]

/-- **Hoisted machines stay apart exactly when their names and the calls
do.** -/
theorem hoistsApart_iff (u : List UnitModule) (hws : List (String × HWModule)) (out : Machines)
    (hmods : (u.map UnitModule.symName).Nodup) (hown : ∀ m ∈ u, m.machineNames.Nodup)
    (hm : lowerNSLModulesToHWModules u = .ok hws)
    (hp : lowerNSLProcsToFSMMachines u = .ok out) :
    HoistsApart u hws out ↔ NamesApart u := by
  constructor
  · intro h
    obtain ⟨hmodules, hmachines⟩ := (nodup_symbols_iff hm hp hmods hown).1 h.symbols
    refine ⟨hmodules, hmachines, fun m hmu m' hm' callee hc hcall => ?_, h.otherCalls⟩
    have hclass := h.stateCalls m hmu callee hc
    rw [transitionTo_call_isSome, procNamed_iff.2 ⟨m', hm', hcall⟩] at hclass
    exact List.contains_iff_mem.1 hclass.symm
  · intro h
    refine ⟨(nodup_symbols_iff hm hp hmods hown).2 ⟨h.modules, h.machines⟩,
      fun m hmu callee hc => ?_, h.otherCalls, lowersAlone_modules hm, lowersAlone_machines h hp⟩
    rw [transitionTo_call_isSome, procNamed_eq h hmu hc]

end Names

/-- Two modules with a proc each, of one state that loops. -/
def twoProcsUnit (p q : String) : List UnitModule :=
  [⟨⟨"a", none, [.inert "nsl.proc"]⟩, [⟨p, [.state ⟨"s", [.goto "s"]⟩]⟩]⟩,
    ⟨⟨"b", none, [.inert "nsl.proc"]⟩, [⟨q, [.state ⟨"s", [.goto "s"]⟩]⟩]⟩]

theorem hoistsApart_twoProcsUnit :
    ∃ hws out, lowerNSLModulesToHWModules (twoProcsUnit "p" "q") = .ok hws ∧
      lowerNSLProcsToFSMMachines (twoProcsUnit "p" "q") = .ok out ∧
      HoistsApart (twoProcsUnit "p" "q") hws out := by
  have hm : lowerNSLModulesToHWModules (twoProcsUnit "p" "q") = .ok
      [("a", ⟨[], [], [], []⟩), ("b", ⟨[], [], [], []⟩)] := by rfl
  have hp : lowerNSLProcsToFSMMachines (twoProcsUnit "p" "q") = .ok
      ⟨[⟨"p", "s", [⟨"s", ["s"]⟩]⟩, ⟨"q", "s", [⟨"s", ["s"]⟩]⟩], []⟩ := by rfl
  refine ⟨_, _, hm, hp, (hoistsApart_iff _ _ _ (by decide) (by decide) hm hp).2 ?_⟩
  refine ⟨by decide, ?_, by decide, by decide⟩
  refine .cons (fun m hm => ?_) (.cons (by simp) .nil)
  obtain rfl := List.mem_singleton.1 hm
  exact List.disjoint_left.2 (by decide)

/-- Two modules with a proc of the same name. -/
theorem not_hoistsApart_sameProc :
    ((twoProcsUnit "p" "p").map UnitModule.symName).Nodup ∧
      (∀ m ∈ twoProcsUnit "p" "p", m.machineNames.Nodup) ∧
      ∃ hws out, lowerNSLModulesToHWModules (twoProcsUnit "p" "p") = .ok hws ∧
        lowerNSLProcsToFSMMachines (twoProcsUnit "p" "p") = .ok out ∧
        ¬ HoistsApart (twoProcsUnit "p" "p") hws out := by
  refine ⟨by decide, by decide, [("a", ⟨[], [], [], []⟩), ("b", ⟨[], [], [], []⟩)],
    ⟨[⟨"p", "s", [⟨"s", ["s"]⟩]⟩, ⟨"p", "s", [⟨"s", ["s"]⟩]⟩], []⟩, by rfl, by rfl, fun h => ?_⟩
  exact absurd h.symbols (by decide)

end FSM

end Nslc
