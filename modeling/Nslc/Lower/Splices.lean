import Nslc.Lower.ExpandGenerate
/-!
# What the expander substitutes and the checker scans for

Every expansion takes one loop variable out of the enclosing ones and
every `%X%` of it out of the string attributes, so at the end of the run
none is left (`Placeholders.occurs_of_replace`). A flat symbol reference
is scanned and never substituted: a `%X%` in one outlives the run as soon
as its operation has a copy.
-/

namespace Nslc

namespace Passes

variable {P Q : List Text → Attr → Prop} {live : Bool} {us vs : List Text} {v r : Text}

/-! ## Attributes with the enclosing loop variables -/

mutual

/-- Every attribute of an operation, with the loop variables around it;
with `live` the bodies that get no copy are left out. -/
def ForOp (live : Bool) (P : List Text → Attr → Prop) (vs : List Text) (o : Operation) : Prop :=
  match o with
  | .op _ attrs blocks => (∀ a ∈ attrs, P vs a.2) ∧ ForBlocks live P vs blocks
  | .generate lower upper step loopVar attrs body =>
    (live = true ∨ ∀ a ∈ loopVarAttr loopVar ++ attrs, P vs a.2) ∧
      ((live = true ∧ tripCount lower upper step = 0) ∨
        ForOps live P (loopVar.toList ++ vs) body)

def ForOps (live : Bool) (P : List Text → Attr → Prop) (vs : List Text) (os : List Operation) :
    Prop :=
  match os with
  | [] => True
  | o :: os => ForOp live P vs o ∧ ForOps live P vs os

def ForBlocks (live : Bool) (P : List Text → Attr → Prop) (vs : List Text)
    (bs : List (List Operation)) : Prop :=
  match bs with
  | [] => True
  | b :: bs => ForOps live P vs b ∧ ForBlocks live P vs bs

end

/-- A `%X%` in a string attribute or a flat symbol reference. -/
def Attr.HasSplice (a : Attr) (x : Text) : Prop :=
  match a with
  | .str text | .sym text => splices.isName x = true ∧ splices.Occurs x text
  | .other => False

/-- Every `%X%` of the attribute names one of the variables. -/
def BoundAttr (vs : List Text) (a : Attr) : Prop := ∀ x, a.HasSplice x → x ∈ vs

/-- No `%` belongs to splices of two names. -/
def UntangledAttr (_ : List Text) (a : Attr) : Prop :=
  match a with
  | .str text => splices.Untangled text
  | _ => True

/-- No splice in a flat symbol reference. -/
def PlainAttr (_ : List Text) (a : Attr) : Prop :=
  match a with
  | .sym text => ∀ x, ¬ (Attr.sym text).HasSplice x
  | _ => True

mutual

/-- The loop variables are identifiers and no step is zero, as the
visitor emits them and the verifier asks. -/
def VerifiedOp (o : Operation) : Prop :=
  match o with
  | .op _ _ blocks => VerifiedBlocks blocks
  | .generate _ _ step loopVar _ body =>
    step ≠ 0 ∧ (∀ v ∈ loopVar, splices.isName v = true) ∧ VerifiedOps body

def VerifiedOps (os : List Operation) : Prop :=
  match os with
  | [] => True
  | o :: os => VerifiedOp o ∧ VerifiedOps os

def VerifiedBlocks (bs : List (List Operation)) : Prop :=
  match bs with
  | [] => True
  | b :: bs => VerifiedOps b ∧ VerifiedBlocks bs

end

/-- Every `%X%` of the module names the loop variable of a generate
around it. -/
def SplicesBound (m : Module) : Prop :=
  (∀ a ∈ m.attrs, BoundAttr [] a.2) ∧ ForOps false BoundAttr [] m.body

/-- **Expansion and residue detection agree.** -/
def SplicesResolved (m : Module) : Prop := spliceReports m = []

/-- Among the operations that get a copy: no splice in a flat symbol
reference, and no `%` shared by splices of two names. -/
def StringSplicesOnly (m : Module) : Prop := ForOps true PlainAttr [] m.body

def SplicesUntangled (m : Module) : Prop := ForOps true UntangledAttr [] m.body

mutual

/-- The generates in an operation. -/
def generatesIn (o : Operation) : ℕ :=
  match o with
  | .op _ _ blocks => generatesInBlocks blocks
  | .generate _ _ _ _ _ body => generatesInOps body + 1

def generatesInOps (os : List Operation) : ℕ :=
  match os with
  | [] => 0
  | o :: os => generatesIn o + generatesInOps os

def generatesInBlocks (bs : List (List Operation)) : ℕ :=
  match bs with
  | [] => 0
  | b :: bs => generatesInOps b + generatesInBlocks bs

end

/-! ## Lists of operations -/

theorem forOps_append {os os' : List Operation} :
    ForOps live P vs (os ++ os') ↔ ForOps live P vs os ∧ ForOps live P vs os' := by
  induction os with
  | nil => simp [ForOps]
  | cons o os ih => simp only [List.cons_append, ForOps, ih, and_assoc]

theorem forOps_flatMap {β : Type} {ks : List β} {f : β → List Operation} :
    ForOps live P vs (ks.flatMap f) ↔ ∀ k ∈ ks, ForOps live P vs (f k) := by
  induction ks with
  | nil => simp [ForOps]
  | cons k ks ih => rw [List.flatMap_cons, forOps_append, ih, List.forall_mem_cons]

theorem verifiedOps_append {os os' : List Operation} :
    VerifiedOps (os ++ os') ↔ VerifiedOps os ∧ VerifiedOps os' := by
  induction os with
  | nil => simp [VerifiedOps]
  | cons o os ih => simp only [List.cons_append, VerifiedOps, ih, and_assoc]

theorem verifiedOps_flatMap {β : Type} {ks : List β} {f : β → List Operation} :
    VerifiedOps (ks.flatMap f) ↔ ∀ k ∈ ks, VerifiedOps (f k) := by
  induction ks with
  | nil => simp [VerifiedOps]
  | cons k ks ih => rw [List.flatMap_cons, verifiedOps_append, ih, List.forall_mem_cons]

theorem generatesInOps_append (os os' : List Operation) :
    generatesInOps (os ++ os') = generatesInOps os + generatesInOps os' := by
  induction os with
  | nil => simp [generatesInOps]
  | cons o os ih => simp only [List.cons_append, generatesInOps, ih, Nat.add_assoc]

theorem generatesInOps_flatMap_eq_zero {β : Type} {ks : List β} {f : β → List Operation}
    (h : ∀ k ∈ ks, generatesInOps (f k) = 0) : generatesInOps (ks.flatMap f) = 0 := by
  induction ks with
  | nil => rfl
  | cons k ks ih =>
    rw [List.flatMap_cons, generatesInOps_append, h k List.mem_cons_self,
      ih fun k hk => h k (List.mem_cons_of_mem _ hk)]

mutual

theorem forOp_and {o : Operation} {vs : List Text} (h : ForOp live P vs o)
    (h' : ForOp live Q vs o) : ForOp live (fun vs a => P vs a ∧ Q vs a) vs o := by
  cases o with
  | op name attrs blocks =>
    exact ⟨fun a ha => ⟨h.1 a ha, h'.1 a ha⟩, forBlocks_and h.2 h'.2⟩
  | generate lower upper step loopVar attrs body =>
    obtain ⟨hattrs, hbody⟩ := h
    obtain ⟨hattrs', hbody'⟩ := h'
    refine ⟨?_, ?_⟩
    · rcases hattrs with hlive | hattrs
      · exact .inl hlive
      · rcases hattrs' with hlive | hattrs'
        · exact .inl hlive
        · exact .inr fun a ha => ⟨hattrs a ha, hattrs' a ha⟩
    · rcases hbody with hdead | hbody
      · exact .inl hdead
      · rcases hbody' with hdead | hbody'
        · exact .inl hdead
        · exact .inr (forOps_and hbody hbody')

theorem forOps_and {os : List Operation} {vs : List Text} (h : ForOps live P vs os)
    (h' : ForOps live Q vs os) : ForOps live (fun vs a => P vs a ∧ Q vs a) vs os := by
  cases os with
  | nil => trivial
  | cons o os => exact ⟨forOp_and h.1 h'.1, forOps_and h.2 h'.2⟩

theorem forBlocks_and {bs : List (List Operation)} {vs : List Text} (h : ForBlocks live P vs bs)
    (h' : ForBlocks live Q vs bs) : ForBlocks live (fun vs a => P vs a ∧ Q vs a) vs bs := by
  cases bs with
  | nil => trivial
  | cons b bs => exact ⟨forOps_and h.1 h'.1, forBlocks_and h.2 h'.2⟩

end

mutual

/-- What holds everywhere holds where there is a copy. -/
theorem forOp_live {o : Operation} {vs : List Text} (h : ForOp false P vs o) :
    ForOp true P vs o := by
  cases o with
  | op name attrs blocks => exact ⟨h.1, forBlocks_live h.2⟩
  | generate lower upper step loopVar attrs body =>
    refine ⟨.inl rfl, ?_⟩
    rcases h.2 with hdead | hbody
    · cases hdead.1
    · exact .inr (forOps_live hbody)

theorem forOps_live {os : List Operation} {vs : List Text} (h : ForOps false P vs os) :
    ForOps true P vs os := by
  cases os with
  | nil => trivial
  | cons o os => exact ⟨forOp_live h.1, forOps_live h.2⟩

theorem forBlocks_live {bs : List (List Operation)} {vs : List Text}
    (h : ForBlocks false P vs bs) : ForBlocks true P vs bs := by
  cases bs with
  | nil => trivial
  | cons b bs => exact ⟨forOps_live h.1, forBlocks_live h.2⟩

end

/-! ## Substitution -/

theorem substituteLoopVar_name {w : Text} (hw : splices.isName w = true) :
    substituteLoopVar v r w = w := by
  have hmark : splices.mark ∉ w := Placeholders.mark_notMem_of_isName hw
  rw [substituteLoopVar]
  split
  · rfl
  · clear hw
    induction w with
    | nil => rfl
    | cons c w ih =>
      obtain ⟨hc, hw⟩ := not_or.1 (List.mem_cons.not.1 hmark)
      have ho : ¬ splices.Opens v (c :: w) := by
        rintro ⟨b, hb⟩
        exact hc (List.cons.inj hb).1.symm
      rw [Placeholders.replace_cons ho, ih hw]

mutual

theorem verified_substitute {o : Operation} (h : VerifiedOp o) :
    VerifiedOp (substituteOp v r o) := by
  cases o with
  | op name attrs blocks => exact verifiedBlocks_substitute h
  | generate lower upper step loopVar attrs body =>
    obtain ⟨hstep, hname, hbody⟩ := h
    refine ⟨hstep, ?_, verifiedOps_substitute hbody⟩
    cases loopVar with
    | none => exact hname
    | some w =>
      have hw := hname w rfl
      rw [Option.map_some, substituteLoopVar_name hw]
      exact hname

theorem verifiedOps_substitute {os : List Operation} (h : VerifiedOps os) :
    VerifiedOps (substituteOps v r os) := by
  cases os with
  | nil => trivial
  | cons o os => exact ⟨verified_substitute h.1, verifiedOps_substitute h.2⟩

theorem verifiedBlocks_substitute {bs : List (List Operation)} (h : VerifiedBlocks bs) :
    VerifiedBlocks (substituteBlocks v r bs) := by
  cases bs with
  | nil => trivial
  | cons b bs => exact ⟨verifiedOps_substitute h.1, verifiedBlocks_substitute h.2⟩

end

mutual

theorem generatesIn_substitute (o : Operation) :
    generatesIn (substituteOp v r o) = generatesIn o := by
  cases o with
  | op name attrs blocks => exact generatesInBlocks_substitute blocks
  | generate lower upper step loopVar attrs body =>
    exact congrArg (· + 1) (generatesInOps_substitute body)

theorem generatesInOps_substitute (os : List Operation) :
    generatesInOps (substituteOps v r os) = generatesInOps os := by
  cases os with
  | nil => rfl
  | cons o os =>
    rw [substituteOps, generatesInOps, generatesInOps, generatesIn_substitute,
      generatesInOps_substitute]

theorem generatesInBlocks_substitute (bs : List (List Operation)) :
    generatesInBlocks (substituteBlocks v r bs) = generatesInBlocks bs := by
  cases bs with
  | nil => rfl
  | cons b bs =>
    rw [substituteBlocks, generatesInBlocks, generatesInBlocks, generatesInOps_substitute,
      generatesInBlocks_substitute]

end

theorem loopVar_substitute {loopVar : Option Text}
    (h : ∀ w ∈ loopVar, splices.isName w = true) :
    loopVar.map (substituteLoopVar v r) = loopVar := by
  cases loopVar with
  | none => rfl
  | some w => rw [Option.map_some, substituteLoopVar_name (h w rfl)]

section Substitute

variable {v r : Text} {vs : List Text} {P : List Text → Attr → Prop}

mutual

/-- Substitution takes the variable out of the enclosing ones. -/
theorem forOp_substitute
    (hP : ∀ us a, P (us ++ v :: vs) a → P (us ++ vs) (substituteAttr v r a)) (us : List Text)
    {o : Operation} (ho : VerifiedOp o) (h : ForOp true P (us ++ v :: vs) o) :
    ForOp true P (us ++ vs) (substituteOp v r o) := by
  cases o with
  | op name attrs blocks =>
    refine ⟨?_, forBlocks_substitute hP us ho h.2⟩
    simp only [substituteAttrs, List.forall_mem_map]
    exact fun a ha => hP us a.2 (h.1 a ha)
  | generate lower upper step loopVar attrs body =>
    obtain ⟨-, hname, hbody⟩ := ho
    refine ⟨.inl rfl, h.2.imp_right fun hops => ?_⟩
    rw [loopVar_substitute hname, ← List.append_assoc]
    rw [← List.append_assoc] at hops
    exact forOps_substitute hP (loopVar.toList ++ us) hbody hops

theorem forOps_substitute
    (hP : ∀ us a, P (us ++ v :: vs) a → P (us ++ vs) (substituteAttr v r a)) (us : List Text)
    {os : List Operation} (ho : VerifiedOps os) (h : ForOps true P (us ++ v :: vs) os) :
    ForOps true P (us ++ vs) (substituteOps v r os) := by
  cases os with
  | nil => trivial
  | cons o os =>
    exact ⟨forOp_substitute hP us ho.1 h.1, forOps_substitute hP us ho.2 h.2⟩

theorem forBlocks_substitute
    (hP : ∀ us a, P (us ++ v :: vs) a → P (us ++ vs) (substituteAttr v r a)) (us : List Text)
    {bs : List (List Operation)} (ho : VerifiedBlocks bs)
    (h : ForBlocks true P (us ++ v :: vs) bs) :
    ForBlocks true P (us ++ vs) (substituteBlocks v r bs) := by
  cases bs with
  | nil => trivial
  | cons b bs =>
    exact ⟨forOps_substitute hP us ho.1 h.1, forBlocks_substitute hP us ho.2 h.2⟩

end

end Substitute

theorem plainAttr_substitute (us vs : List Text) (a : Attr) :
    PlainAttr us (substituteAttr v r a) ↔ PlainAttr vs a := by
  cases a <;> exact Iff.rfl

mutual

/-- Symbol references are not substituted. -/
theorem forOp_plain_substitute {us vs : List Text} (o : Operation) :
    ForOp true PlainAttr us (substituteOp v r o) ↔ ForOp true PlainAttr vs o := by
  cases o with
  | op name attrs blocks =>
    simp only [ForOp, substituteOp, substituteAttrs, List.forall_mem_map]
    exact and_congr (forall₂_congr fun a _ => plainAttr_substitute us vs a.2)
      (forBlocks_plain_substitute blocks)
  | generate lower upper step loopVar attrs body =>
    simp only [ForOp, substituteOp, true_or, true_and]
    exact or_congr_right (forOps_plain_substitute body)

theorem forOps_plain_substitute {us vs : List Text} (os : List Operation) :
    ForOps true PlainAttr us (substituteOps v r os) ↔ ForOps true PlainAttr vs os := by
  cases os with
  | nil => exact Iff.rfl
  | cons o os => exact and_congr (forOp_plain_substitute o) (forOps_plain_substitute os)

theorem forBlocks_plain_substitute {us vs : List Text} (bs : List (List Operation)) :
    ForBlocks true PlainAttr us (substituteBlocks v r bs) ↔ ForBlocks true PlainAttr vs bs := by
  cases bs with
  | nil => exact Iff.rfl
  | cons b bs => exact and_congr (forOps_plain_substitute b) (forBlocks_plain_substitute bs)

end

/-! ## One expansion -/

theorem isLetter_of_isDigit {c : Char} (h : c.isDigit = true) : c ≠ '%' ∧ isLetter c = false := by
  have hlo : 48 ≤ c.toNat := by
    have := (Bool.and_eq_true_iff.1 h).1
    simpa [UInt32.le_iff_toNat_le] using this
  have hhi : c.toNat ≤ 57 := by
    have := (Bool.and_eq_true_iff.1 h).2
    simpa [UInt32.le_iff_toNat_le] using this
  have hne : ∀ d : Char, d.toNat < 48 ∨ 57 < d.toNat → c ≠ d := by
    rintro d hd rfl
    omega
  have hle : ∀ d : Char, 57 < d.toNat → decide (d ≤ c) = false := by
    intro d hd
    rw [decide_eq_false_iff_not, Char.le_def, UInt32.le_iff_toNat_le]
    intro hdc
    have : d.toNat ≤ c.toNat := hdc
    omega
  refine ⟨hne '%' (by decide), ?_⟩
  rw [isLetter, hle 'A' (by decide), hle 'a' (by decide), decide_eq_false (hne '_' (by decide))]
  rfl

/-- A number has no `%` and begins no name. -/
theorem toDecimal_isValue (z : ℤ) : splices.IsValue (toDecimal z) := by
  have hdigits : ∀ n : ℕ, splices.IsValue (Nat.toDigits 10 n) := by
    intro n
    have hdigit : ∀ c ∈ Nat.toDigits 10 n, c ≠ '%' ∧ isLetter c = false := fun c hc =>
      isLetter_of_isDigit (Nat.isDigit_of_mem_toDigits (by decide) (by decide) hc)
    refine ⟨fun hm => (hdigit _ hm).1 rfl, ?_⟩
    obtain ⟨c, cs, hcs⟩ := List.exists_cons_of_ne_nil (@Nat.toDigits_ne_nil n 10)
    exact ⟨c, cs, hcs, (hdigit c (hcs ▸ List.mem_cons_self)).2⟩
  rw [toDecimal]
  split
  · refine ⟨?_, '-', _, rfl, by decide⟩
    rw [List.mem_cons, not_or]
    exact ⟨by decide, (hdigits _).mark_notMem⟩
  · exact hdigits _

/-- What holds of an attribute along the expansion. -/
def GoodAttr (vs : List Text) (a : Attr) : Prop :=
  (BoundAttr vs a ∧ UntangledAttr vs a) ∧ PlainAttr vs a

theorem goodAttr_substitute (hv : splices.isName v = true) (hr : splices.IsValue r) (us : List Text)
    (a : Attr) (h : GoodAttr (us ++ v :: vs) a) : GoodAttr (us ++ vs) (substituteAttr v r a) := by
  obtain ⟨⟨hbound, huntangled⟩, hplain⟩ := h
  cases a with
  | str text =>
    have hne : v ≠ [] := by
      rintro rfl
      cases hv
    have hsub : substituteLoopVar v r text = splices.replace v r text := if_neg hne
    refine ⟨⟨?_, ?_⟩, trivial⟩
    · rintro x ⟨hx, ho⟩
      rw [hsub] at ho
      obtain ⟨ho', hxv⟩ := Placeholders.occurs_of_replace hr huntangled hv hx ho
      have hmem := hbound x ⟨hx, ho'⟩
      simp only [List.mem_append, List.mem_cons] at hmem ⊢
      tauto
    · show splices.Untangled (substituteLoopVar v r text)
      rw [hsub]
      exact Placeholders.untangled_replace hr huntangled hv
  | sym text => exact ⟨⟨fun x hx => absurd hx (hplain x), trivial⟩, hplain⟩
  | other => exact ⟨⟨fun x hx => hx.elim, trivial⟩, trivial⟩

mutual

theorem substituteOp_nil (r : Text) (o : Operation) : substituteOp [] r o = o := by
  have hattrs : ∀ attrs : List (Text × Attr), substituteAttrs [] r attrs = attrs := by
    intro attrs
    refine (List.map_congr_left fun a _ => ?_).trans (List.map_id attrs)
    obtain ⟨name, a⟩ := a
    cases a <;> rfl
  cases o with
  | op name attrs blocks => rw [substituteOp, hattrs, substituteBlocks_nil]
  | generate lower upper step loopVar attrs body =>
    rw [substituteOp, hattrs, substituteOps_nil]
    cases loopVar <;> rfl

theorem substituteOps_nil (r : Text) (os : List Operation) : substituteOps [] r os = os := by
  cases os with
  | nil => rfl
  | cons o os => rw [substituteOps, substituteOp_nil, substituteOps_nil]

theorem substituteBlocks_nil (r : Text) (bs : List (List Operation)) :
    substituteBlocks [] r bs = bs := by
  cases bs with
  | nil => rfl
  | cons b bs => rw [substituteBlocks, substituteOps_nil, substituteBlocks_nil]

end

/-- What one expansion does to a list of operations. -/
structure Expanded (os os' : List Operation) : Prop where
  verified : VerifiedOps os'
  generates : generatesInOps os' + 1 = generatesInOps os
  good : ∀ vs, ForOps true GoodAttr vs os → ForOps true GoodAttr vs os'
  plain : ∀ vs, ForOps true PlainAttr vs os' ↔ ForOps true PlainAttr vs os

structure ExpandedBlocks (bs bs' : List (List Operation)) : Prop where
  verified : VerifiedBlocks bs'
  generates : generatesInBlocks bs' + 1 = generatesInBlocks bs
  good : ∀ vs, ForBlocks true GoodAttr vs bs → ForBlocks true GoodAttr vs bs'
  plain : ∀ vs, ForBlocks true PlainAttr vs bs' ↔ ForBlocks true PlainAttr vs bs

/-- The copies of a body without generates. -/
theorem expanded_copies {lower upper step : ℤ} {loopVar : Option Text} {attrs : List (Text × Attr)}
    {body : List Operation} (hname : ∀ w ∈ loopVar, splices.isName w = true)
    (hbody : VerifiedOps body) (hnone : generatesInOps body = 0) :
    Expanded [.generate lower upper step loopVar attrs body]
      (copies lower step loopVar (tripCount lower upper step) body) := by
  refine ⟨?_, ?_, fun vs h => ?_, fun vs => ?_⟩
  · exact verifiedOps_flatMap.2 fun k _ => verifiedOps_substitute hbody
  · have hzero : generatesInOps (copies lower step loopVar (tripCount lower upper step) body) = 0 :=
      generatesInOps_flatMap_eq_zero fun k _ => by rw [generatesInOps_substitute, hnone]
    simp only [hzero, generatesInOps, generatesIn, hnone]
  · refine forOps_flatMap.2 fun k hk => ?_
    rcases h.1.2 with ⟨-, hdead⟩ | hgood
    · rw [hdead] at hk
      cases hk
    · cases loopVar with
      | none =>
        rw [Option.getD_none, substituteOps_nil]
        exact hgood
      | some v =>
        have hv := hname v rfl
        exact forOps_substitute
          (fun us a => goodAttr_substitute hv (toDecimal_isValue _) us a) [] hbody hgood
  · simp only [copies, forOps_flatMap, @forOps_plain_substitute _ _ _ (loopVar.toList ++ vs), ForOps,
      ForOp, true_or, true_and, and_true]
    cases tripCount lower upper step with
    | zero => simp
    | succ n =>
      simp only [List.mem_range, Nat.succ_ne_zero, false_or]
      exact ⟨fun h => h 0 n.succ_pos, fun h _ _ => h⟩

mutual

theorem expandIn_spec {o : Operation} (ho : VerifiedOp o) :
    (∀ os, expandIn o = some os → Expanded [o] os) ∧ (expandIn o = none → generatesIn o = 0) := by
  cases o with
  | op name attrs blocks =>
    obtain ⟨hsome, hnone⟩ := expandBlocks_spec ho
    rw [expandIn]
    cases hb : expandBlocks blocks with
    | none => exact ⟨fun os h => (nomatch h), fun _ => hnone hb⟩
    | some bs =>
      refine ⟨fun os h => ?_, fun h => nomatch h⟩
      obtain rfl := Option.some.inj h
      have hbs := hsome bs hb
      refine ⟨⟨hbs.verified, trivial⟩, hbs.generates, fun vs h => ?_, fun vs => ?_⟩
      · exact ⟨⟨h.1.1, hbs.good vs h.1.2⟩, trivial⟩
      · simp only [ForOps, ForOp, hbs.plain vs]
  | generate lower upper step loopVar attrs body =>
    obtain ⟨hstep, hname, hbody⟩ := ho
    obtain ⟨hsome, hnone⟩ := expandFirst_spec hbody
    rw [expandIn]
    cases hb : expandFirst body with
    | none =>
      refine ⟨fun os h => ?_, fun h => ?_⟩
      · simp only [if_neg hstep] at h
        obtain rfl := Option.some.inj h
        exact expanded_copies hname hbody (hnone hb)
      · simp only [if_neg hstep] at h
        cases h
    | some body' =>
      refine ⟨fun os h => ?_, fun h => nomatch h⟩
      obtain rfl := Option.some.inj h
      have hb' := hsome body' hb
      refine ⟨⟨⟨hstep, hname, hb'.verified⟩, trivial⟩, ?_, fun vs h => ?_, fun vs => ?_⟩
      · have := hb'.generates
        simp only [generatesInOps, generatesIn]
        omega
      · exact ⟨⟨.inl rfl, h.1.2.imp_right (hb'.good _)⟩, trivial⟩
      · simp only [ForOps, ForOp, hb'.plain]

theorem expandFirst_spec {os : List Operation} (ho : VerifiedOps os) :
    (∀ os', expandFirst os = some os' → Expanded os os') ∧
      (expandFirst os = none → generatesInOps os = 0) := by
  cases os with
  | nil => exact ⟨fun os' h => (nomatch h), fun _ => rfl⟩
  | cons o os =>
    obtain ⟨hsome, hnone⟩ := expandIn_spec ho.1
    obtain ⟨hsome', hnone'⟩ := expandFirst_spec ho.2
    rw [expandFirst]
    cases hone : expandIn o with
    | some head =>
      refine ⟨fun os' h => ?_, fun h => nomatch h⟩
      obtain rfl := Option.some.inj h
      have hh := hsome head hone
      refine ⟨verifiedOps_append.2 ⟨hh.verified, ho.2⟩, ?_, fun vs h => ?_, fun vs => ?_⟩
      · have := hh.generates
        rw [generatesInOps_append]
        simp only [generatesInOps] at this ⊢
        omega
      · exact forOps_append.2 ⟨hh.good vs ⟨h.1, trivial⟩, h.2⟩
      · rw [forOps_append, hh.plain vs]
        simp only [ForOps, and_true]
    | none =>
      cases htail : expandFirst os with
      | none =>
        refine ⟨fun os' h => (nomatch h), fun _ => ?_⟩
        rw [generatesInOps, hnone hone, hnone' htail]
      | some rest =>
        refine ⟨fun os' h => ?_, fun h => nomatch h⟩
        obtain rfl := Option.some.inj h
        have hr := hsome' rest htail
        refine ⟨⟨ho.1, hr.verified⟩, ?_, fun vs h => ⟨h.1, hr.good vs h.2⟩, fun vs => ?_⟩
        · have := hr.generates
          simp only [generatesInOps] at this ⊢
          omega
        · simp only [ForOps, hr.plain vs]

theorem expandBlocks_spec {bs : List (List Operation)} (hb : VerifiedBlocks bs) :
    (∀ bs', expandBlocks bs = some bs' → ExpandedBlocks bs bs') ∧
      (expandBlocks bs = none → generatesInBlocks bs = 0) := by
  cases bs with
  | nil => exact ⟨fun bs' h => (nomatch h), fun _ => rfl⟩
  | cons b bs =>
    obtain ⟨hsome, hnone⟩ := expandFirst_spec hb.1
    obtain ⟨hsome', hnone'⟩ := expandBlocks_spec hb.2
    rw [expandBlocks]
    cases hone : expandFirst b with
    | some b' =>
      refine ⟨fun bs' h => ?_, fun h => nomatch h⟩
      obtain rfl := Option.some.inj h
      have hh := hsome b' hone
      refine ⟨⟨hh.verified, hb.2⟩, ?_, fun vs h => ⟨hh.good vs h.1, h.2⟩, fun vs => ?_⟩
      · have := hh.generates
        simp only [generatesInBlocks]
        omega
      · simp only [ForBlocks, hh.plain vs]
    | none =>
      cases htail : expandBlocks bs with
      | none =>
        refine ⟨fun bs' h => (nomatch h), fun _ => ?_⟩
        rw [generatesInBlocks, hnone hone, hnone' htail]
      | some rest =>
        refine ⟨fun bs' h => ?_, fun h => nomatch h⟩
        obtain rfl := Option.some.inj h
        have hr := hsome' rest htail
        refine ⟨⟨hb.1, hr.verified⟩, ?_, fun vs h => ⟨h.1, hr.good vs h.2⟩, fun vs => ?_⟩
        · have := hr.generates
          simp only [generatesInBlocks]
          omega
        · simp only [ForBlocks, hr.plain vs]

end

/-! ## The run -/

/-- The run: what holds of the attributes goes through, and nothing is
left to expand. -/
theorem expandLoop_spec {n : ℕ} {os os' : List Operation} (ho : VerifiedOps os)
    (h : expandLoop n os = some os') :
    generatesInOps os' = 0 ∧ (ForOps true GoodAttr [] os → ForOps true GoodAttr [] os') ∧
      (ForOps true PlainAttr [] os' ↔ ForOps true PlainAttr [] os) := by
  induction n generalizing os with
  | zero => cases h
  | succ n ih =>
    obtain ⟨hsome, hnone⟩ := expandFirst_spec ho
    rw [expandLoop] at h
    cases hf : expandFirst os with
    | none =>
      rw [hf] at h
      obtain rfl := Option.some.inj h
      exact ⟨hnone hf, id, Iff.rfl⟩
    | some os₁ =>
      rw [hf] at h
      have hstep := hsome os₁ hf
      obtain ⟨hzero, hgood, hplain⟩ := ih hstep.verified h
      exact ⟨hzero, fun h => hgood (hstep.good [] h), hplain.trans (hstep.plain [])⟩

/-- The run ends before the cap: every expansion takes one generate away. -/
theorem expandLoop_isSome {n : ℕ} {os : List Operation} (ho : VerifiedOps os)
    (hn : generatesInOps os < n) : (expandLoop n os).isSome = true := by
  induction n generalizing os with
  | zero => omega
  | succ n ih =>
    obtain ⟨hsome, -⟩ := expandFirst_spec ho
    rw [expandLoop]
    cases hf : expandFirst os with
    | none => rfl
    | some os₁ =>
      have hstep := hsome os₁ hf
      have := hstep.generates
      exact ih hstep.verified (by omega)

/-! ## The residue -/

theorem scanAttrs_eq_nil_iff {attrs : List (Text × Attr)} :
    scanOpAttrsForResidue attrs = [] ↔ ∀ a ∈ attrs, ∀ x, ¬ a.2.HasSplice x := by
  rw [scanOpAttrsForResidue, List.flatMap_eq_nil_iff]
  refine forall₂_congr fun a _ => ?_
  obtain ⟨name, a⟩ := a
  have htext : ∀ text, scanStringForResidue text = [] ↔
      ∀ x, ¬ (splices.isName x = true ∧ splices.Occurs x text) := by
    intro text
    rw [scanStringForResidue, Placeholders.scan_eq_nil_iff]
    exact forall_congr' fun x => not_and.symm
  cases a with
  | str text => exact htext text
  | sym text => exact htext text
  | other => exact ⟨fun _ x h => h, fun _ => rfl⟩

theorem hasNoSplice_of_good {a : Attr} (h : GoodAttr [] a) (x : Text) : ¬ a.HasSplice x :=
  fun hx => nomatch h.1.1 x hx

theorem plain_of_hasNoSplice {a : Attr} (h : ∀ x, ¬ a.HasSplice x) (vs : List Text) :
    PlainAttr vs a := by
  cases a with
  | sym text => exact h
  | str text => trivial
  | other => trivial

mutual

/-- Where nothing is left to expand, the residue is that of the
attributes. -/
theorem opResidue_spec (o : Operation) (ho : generatesIn o = 0) :
    (ForOp true GoodAttr [] o → opResidue o = []) ∧
      (opResidue o = [] → ForOp true PlainAttr [] o) := by
  cases o with
  | op name attrs blocks =>
    obtain ⟨hgood, hplain⟩ := blocksResidue_spec blocks ho
    simp only [opResidue, List.append_eq_nil_iff, scanAttrs_eq_nil_iff]
    exact ⟨fun h => ⟨hgood h.2, fun a ha => hasNoSplice_of_good (h.1 a ha)⟩,
      fun h => ⟨fun a ha => plain_of_hasNoSplice (h.2 a ha) [], hplain h.1⟩⟩
  | generate lower upper step loopVar attrs body =>
    rw [generatesIn] at ho
    omega

theorem opsResidue_spec (os : List Operation) (ho : generatesInOps os = 0) :
    (ForOps true GoodAttr [] os → opsResidue os = []) ∧
      (opsResidue os = [] → ForOps true PlainAttr [] os) := by
  cases os with
  | nil => exact ⟨fun _ => rfl, fun _ => trivial⟩
  | cons o os =>
    rw [generatesInOps] at ho
    obtain ⟨hgood, hplain⟩ := opResidue_spec o (by omega)
    obtain ⟨hgood', hplain'⟩ := opsResidue_spec os (by omega)
    simp only [opsResidue, List.append_eq_nil_iff]
    exact ⟨fun h => ⟨hgood h.1, hgood' h.2⟩, fun h => ⟨hplain h.1, hplain' h.2⟩⟩

theorem blocksResidue_spec (bs : List (List Operation)) (hb : generatesInBlocks bs = 0) :
    (ForBlocks true GoodAttr [] bs → blocksResidue bs = []) ∧
      (blocksResidue bs = [] → ForBlocks true PlainAttr [] bs) := by
  cases bs with
  | nil => exact ⟨fun _ => rfl, fun _ => trivial⟩
  | cons b bs =>
    rw [generatesInBlocks] at hb
    obtain ⟨hgood, hplain⟩ := opsResidue_spec b (by omega)
    obtain ⟨hgood', hplain'⟩ := blocksResidue_spec bs (by omega)
    simp only [blocksResidue, List.append_eq_nil_iff]
    exact ⟨fun h => ⟨hgood h.1, hgood' h.2⟩, fun h => ⟨hplain h.1, hplain' h.2⟩⟩

end

theorem hasSplice_str_iff {text x : Text} :
    (Attr.str text).HasSplice x ↔ x ∈ splices.names text := Placeholders.mem_names_iff.symm

/-- Two copies of an operation with one attribute. -/
def loopModule (a : Attr) : Module :=
  ⟨[], [.generate 0 2 1 (some ['i']) [] [.op "nsl.call".toList [("callee".toList, a)] []]]⟩

theorem verified_loopModule (a : Attr) : VerifiedOps (loopModule a).body :=
  ⟨⟨by decide, fun v hv => by obtain rfl := Option.some.inj hv; decide, trivial, trivial⟩, trivial⟩

theorem splicesBound_loopModule {a : Attr} {text : Text} (ha : a = .str text ∨ a = .sym text)
    (h : ∀ x ∈ splices.names text, x ∈ [['i']]) : SplicesBound (loopModule a) := by
  refine ⟨fun _ ha => (nomatch ha), ⟨.inr ?_, .inr ⟨⟨?_, trivial⟩, trivial⟩⟩, trivial⟩
  · intro b hb x hx
    rw [List.mem_singleton.1 hb] at hx
    have hnone : splices.names ['i'] = [] := by decide
    exact absurd (hasSplice_str_iff.1 hx) (by rw [hnone]; exact List.not_mem_nil)
  · intro b hb x hx
    rw [List.mem_singleton.1 hb] at hx
    rcases ha with rfl | rfl
    · exact h x (hasSplice_str_iff.1 hx)
    · exact h x (hasSplice_str_iff.1 hx)

end Passes

end Nslc
