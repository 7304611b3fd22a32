import Nslc.Preprocess.Calculation
import Nslc.Preprocess.Chains
/-!
# Preprocessor — unresolved macros

The evaluator reports a macro's name that the expander has left as
`unresolved macro`, and takes for granted that only a recursive macro is
left. `expansionComplete` says how far this goes: without a chain of
macros that is too long a name is left only where the joining of
substituted texts has formed it.
-/

namespace Nslc

namespace Preprocess

namespace Evaluator

open MacroExpander (pieces Piece.macro? expand expand_fst_zero leaves recursiveExpansion
  kMaxExpansionDepth MacroFree Aligned JoinsNoMacro Opens Acyclic ReachesCycle)

variable {L : LongDouble} {α β : Type}

/-! ## Reports -/

/-- Reported by `parseName` about a macro that is left. -/
def Finding.IsUnresolved (f : Finding) : Prop := "unresolved macro '".toList <+: f.text

/-- Reported by the expander. -/
def Finding.IsRecursive (f : Finding) : Prop := ∃ delta name, f = recursiveExpansion delta name

/-- A recursive macro is reported among these, or no unresolved one. -/
def Excused (fs : List Finding) : Prop :=
  (∃ f ∈ fs, Finding.IsRecursive f) ∨ ∀ f ∈ fs, ¬ Finding.IsUnresolved f

theorem excused_nil : Excused [] := .inr (by simp)

theorem Excused.append {fs gs : List Finding} (hf : Excused fs) (hg : Excused gs) :
    Excused (fs ++ gs) := by
  rcases hf with ⟨f, hmem, hrec⟩ | hf
  · exact .inl ⟨f, List.mem_append_left _ hmem, hrec⟩
  · rcases hg with ⟨g, hmem, hrec⟩ | hg
    · exact .inl ⟨g, List.mem_append_right _ hmem, hrec⟩
    · refine .inr fun f hmem => ?_
      rcases List.mem_append.1 hmem with h | h
      · exact hf f h
      · exact hg f h

/-- Told by the first three bytes. -/
theorem not_isUnresolved {f : Finding} (w : Text) (h : f.text.take 3 = w) (hw : w ≠ "unr".toList) :
    ¬ Finding.IsUnresolved f := by
  rintro ⟨rest, htext⟩
  rw [← htext] at h
  exact hw h.symm

/-- The text is reported by no unresolved macro. -/
def Harmless (message : Text) : Prop := ∃ w : Text, message.take 3 = w ∧ w ≠ "unr".toList

theorem excused_expand (m : MacroTable) (t : Text) (delta : ℕ) : Excused (expand m t delta).2 := by
  by_cases hnil : (expand m t delta).2 = []
  · rw [hnil]
    exact excused_nil
  · obtain ⟨f, hf⟩ := List.exists_mem_of_ne_nil _ hnil
    obtain ⟨name, rfl⟩ := MacroExpander.mem_expandImpl_snd hf
    exact .inl ⟨_, hf, delta, name, rfl⟩

/-! ## Parsers on a text without macros -/

/-- A parser made for `x`: what is not read stands at the end of it, and
satisfies `R` unless an error has been reported. -/
structure Standing (x : Text) (R : Text → Prop) (s : Parser) : Prop where
  suffix : s.rest <:+ x
  excused : Excused s.reports
  place : s.errored = true ∨ R s.rest

/-- Every run from `P` ends in `Q`. -/
def Ends (P : Parser → Prop) (y : Eval α) (Q : Parser → Prop) : Prop :=
  ∀ s a s', P s → y s = .ok (a, s') → Q s'

section Rules

variable {x : Text} {R R' : Text → Prop} {P Q T : Parser → Prop} {s : Parser} {y : Eval α}
  {f : α → Eval β}

theorem Standing.mono (h : Standing x R s) (hR : ∀ r, R r → R' r) : Standing x R' s :=
  ⟨h.suffix, h.excused, h.place.imp_right (hR _)⟩

theorem Standing.advance (h : Standing x R s) (n : ℕ) (hR : ∀ r, R r → R' (r.drop n)) :
    Standing x R' (s.advance n) :=
  ⟨(List.drop_suffix n _).trans h.suffix, h.excused, h.place.imp_right (hR _)⟩

theorem Standing.push (h : Standing x R s) {fs : List Finding} (hfs : Excused fs) :
    Standing x R (s.push fs) := ⟨h.suffix, h.excused.append hfs, h.place⟩

/-- Behind a report everything is said. -/
theorem Standing.report (h : Standing x R s) {message : Text} (hm : Harmless message) (pos : ℕ) :
    Standing x R' (s.report message pos) := by
  unfold Parser.report
  split_ifs with he
  · exact ⟨h.suffix, h.excused, .inl he⟩
  · obtain ⟨w, hw, hne⟩ := hm
    refine ⟨h.suffix, h.excused.append (.inr ?_), .inl rfl⟩
    intro f hf
    rw [List.mem_singleton.1 hf]
    exact not_isUnresolved w hw hne

theorem ends_bind (hy : Ends P y Q) (hf : ∀ a, Ends Q (f a) T) : Ends P (y >>= f) T := by
  intro s b s' hs h
  cases hys : y s with
  | error w =>
    rw [bind_error hys] at h
    cases h
  | ok r =>
    obtain ⟨a, s₁⟩ := r
    rw [bind_ok hys] at h
    exact hf a s₁ b s' (hy s a s₁ hs hys) h

theorem ends_pure (a : α) : Ends P (pure a : Eval α) P := by
  intro s b s' hs h
  obtain ⟨-, rfl⟩ := Prod.mk.inj (Except.ok.inj h)
  exact hs

theorem ends_halt (h : Halt) : Ends P (halt h : Eval α) Q := by
  intro s a s' _ heq
  cases heq

theorem ends_weaken (hy : Ends P y Q) (hP : ∀ s, T s → P s) : Ends T y Q :=
  fun s a s' hs h => hy s a s' (hP s hs) h

theorem ends_liftM (e : Except Halt α) : Ends P (liftM e : Eval α) P := by
  intro s a s' hs h
  rw [liftM_apply] at h
  cases e with
  | error w => cases h
  | ok b =>
    obtain ⟨-, rfl⟩ := Prod.mk.inj (Except.ok.inj h)
    exact hs

theorem ends_position {g : ℕ → Eval β} (h : ∀ n, Ends P (g n) Q) :
    Ends P (position >>= g) Q := fun s b s' hs heq => h s.pos s b s' hs heq

/-- What is read ahead is what stands in front. -/
theorem ends_remaining {g : Text → Eval β}
    (h : ∀ t, Ends (Standing x fun r => R r ∧ r = t) (g t) Q) :
    Ends (Standing x R) (remaining >>= g) Q :=
  fun s b s' hs heq =>
    h s.rest s b s' ⟨hs.suffix, hs.excused, hs.place.imp_right fun hR => ⟨hR, rfl⟩⟩ heq

theorem ends_skipWS (hR : ∀ r, R r → R' (skip r)) :
    Ends (Standing x R) skipWS (Standing x R') := by
  intro s a s' hs h
  obtain ⟨-, rfl⟩ := Prod.mk.inj (Except.ok.inj h)
  refine ⟨?_, hs.excused, ?_⟩
  · rw [skipBlanks_rest]
    exact (List.dropWhile_suffix _).trans hs.suffix
  · rw [skipBlanks_rest]
    exact hs.place.imp_right (hR _)

theorem ends_advance (n : ℕ) (hR : ∀ r, R r → R' (r.drop n)) :
    Ends (Standing x R) (advance n) (Standing x R') := by
  intro s a s' hs h
  obtain ⟨-, rfl⟩ := Prod.mk.inj (Except.ok.inj h)
  exact hs.advance n hR

theorem ends_push {fs : List Finding} (hfs : Excused fs) :
    Ends (Standing x R) (push fs) (Standing x R) := by
  intro s a s' hs h
  obtain ⟨-, rfl⟩ := Prod.mk.inj (Except.ok.inj h)
  exact hs.push hfs

theorem ends_report {message : Text} (hm : Harmless message) (pos : ℕ) :
    Ends (Standing x R) (modify fun p => p.report message pos) (Standing x R') := by
  intro s a s' hs h
  obtain ⟨-, rfl⟩ := Prod.mk.inj (Except.ok.inj h)
  exact hs.report hm pos

theorem ends_reportZero {message : Text} (hm : Harmless message) (pos : ℕ) :
    Ends (Standing x R) (reportZero message pos : Eval (PPValue L)) (Standing x R') :=
  ends_bind (ends_report hm pos) fun _ => ends_pure _

/-- A parser that has reported an error reports no other. -/
theorem ends_reportZero_again (message : Text) (pos : ℕ) :
    Ends (Standing x fun _ => False) (reportZero message pos : Eval (PPValue L))
      (Standing x R') := by
  intro s a s' hs h
  have herr : s.errored = true := hs.place.resolve_right id
  have hsame : s.report message pos = s := by rw [Parser.report, if_pos herr]
  have hrun : (reportZero message pos : Eval (PPValue L)) s =
      .ok (.int 0, s.report message pos) := rfl
  rw [hrun, hsame] at h
  obtain ⟨-, rfl⟩ := Prod.mk.inj (Except.ok.inj h)
  exact ⟨hs.suffix, hs.excused, .inl herr⟩

theorem ends_takeBytes {p : Char → Bool} {g : Text → Eval β}
    (h : ∀ t, Ends (Standing x fun r => ∃ r₀, R r₀ ∧ t = r₀.takeWhile p ∧ r = r₀.dropWhile p)
      (g t) Q) :
    Ends (Standing x R) (takeBytes p >>= g) Q := by
  intro s b s' hs heq
  refine h (s.rest.takeWhile p) (s.advance (s.rest.takeWhile p).length) b s' ?_ heq
  refine ⟨(List.drop_suffix _ _).trans hs.suffix, hs.excused, hs.place.imp_right fun hR => ?_⟩
  refine ⟨s.rest, hR, rfl, ?_⟩
  exact drop_length_takeWhile p s.rest

end Rules

/-! ## The parts of an expression -/

/-- A byte outside names that begins no string. -/
def isOutside (c : Char) : Bool := c != '"' && !isIdentBody c

theorem isOutside_iff {c : Char} : isOutside c = true ↔ c ≠ '"' ∧ isIdentBody c = false := by
  simp [isOutside]

/-- The operators of a level are bytes outside names and strings. -/
def PlainOps (op? : Text → Option (BinOp × ℕ)) : Prop :=
  ∀ t op width, op? t = some (op, width) → ∃ w : Text, w ≠ [] ∧ w <+: t ∧ w.length = width ∧
    ∀ c ∈ w, isOutside c = true

section PlainOps

variable {op? : Text → Option (BinOp × ℕ)} {m : MacroTable} {t r : Text} {op o : BinOp}
  {width : ℕ}

theorem plainOp (w : Text) (hp : w <+: t) (hne : w ≠ []) (hw : w.all isOutside = true)
    (h : some (o, w.length) = some (op, width)) :
    ∃ w : Text, w ≠ [] ∧ w <+: t ∧ w.length = width ∧
      ∀ c ∈ w, isOutside c = true := by
  obtain ⟨-, rfl⟩ := Prod.mk.inj (Option.some.inj h)
  exact ⟨w, hne, hp, rfl, List.all_eq_true.1 hw⟩

theorem plainOps_or : PlainOps orOp := by
  intro t op width h
  unfold orOp at h
  split_ifs at h with hp
  exact plainOp "||".toList hp (by decide) (by decide) h

theorem plainOps_and : PlainOps andOp := by
  intro t op width h
  unfold andOp at h
  split_ifs at h with hp
  exact plainOp "&&".toList hp (by decide) (by decide) h

theorem plainOps_equality : PlainOps equalityOp := by
  intro t op width h
  unfold equalityOp at h
  split_ifs at h with heq hne
  · exact plainOp "==".toList heq (by decide) (by decide) h
  · exact plainOp "!=".toList hne (by decide) (by decide) h

theorem plainOps_relational : PlainOps relationalOp := by
  intro t op width h
  unfold relationalOp at h
  split_ifs at h with hle hge hlt hgt
  · exact plainOp "<=".toList hle (by decide) (by decide) h
  · exact plainOp ">=".toList hge (by decide) (by decide) h
  · exact plainOp "<".toList hlt.1 (by decide) (by decide) h
  · exact plainOp ">".toList hgt.1 (by decide) (by decide) h

theorem plainOps_additive : PlainOps additiveOp := by
  intro t op width h
  unfold additiveOp at h
  split_ifs at h with hadd hsub
  · exact plainOp "+".toList hadd (by decide) (by decide) h
  · exact plainOp "-".toList hsub (by decide) (by decide) h

theorem plainOps_multiplicative : PlainOps multiplicativeOp := by
  intro t op width h
  unfold multiplicativeOp at h
  split_ifs at h with hmul hdiv hmod
  · exact plainOp "*".toList hmul (by decide) (by decide) h
  · exact plainOp "/".toList hdiv (by decide) (by decide) h
  · exact plainOp "%".toList hmod (by decide) (by decide) h

theorem macroFree_append_plain {w : Text} (hw : ∀ c ∈ w, isOutside c = true) :
    MacroFree m (w ++ r) ↔ MacroFree m r := by
  induction w with
  | nil => rfl
  | cons c cs ih =>
    obtain ⟨hquote, hbody⟩ := isOutside_iff.1 (hw c (by simp))
    have hstart : isIdentStart c = false := by
      rw [isIdentBody, Bool.or_eq_false_iff] at hbody
      exact hbody.1
    rw [List.cons_append, MacroExpander.macroFree_cons hquote hstart]
    exact ih fun d hd => hw d (by simp [hd])

/-- Behind an operator a name begins. -/
theorem PlainOps.macroFree (hop : PlainOps op?) (h : Aligned m t) (ht : op? t = some (op, width)) :
    MacroFree m (t.drop width) := by
  obtain ⟨w, hne, ⟨r, rfl⟩, rfl, hw⟩ := hop t op width ht
  rw [List.drop_left]
  cases w with
  | nil => exact absurd rfl hne
  | cons c cs => exact (macroFree_append_plain hw).1 (h.macroFree (isOutside_iff.1 (hw c (by simp))).2)

theorem isOutside_of_isBlank {c : Char} (h : isBlank c = true) : isOutside c = true := by
  simp only [isBlank, Bool.or_eq_true, beq_iff_eq] at h
  rcases h with ((rfl | rfl) | rfl) | rfl <;> decide

theorem macroFree_skip (h : MacroFree m t) : MacroFree m (skip t) := by
  have hblank : ∀ c ∈ t.takeWhile isBlank, isOutside c = true := by
    intro c hc
    exact isOutside_of_isBlank (List.mem_takeWhile_imp hc)
  rw [← List.takeWhile_append_dropWhile (p := isBlank) (l := t)] at h
  exact (macroFree_append_plain hblank).1 h

theorem aligned_skip (h : Aligned m t) : Aligned m (skip t) := by
  rcases h with h | ⟨c, hc, hbody⟩
  · exact .inl (macroFree_skip h)
  · cases t with
    | nil => cases hc
    | cons d ds =>
      obtain rfl : d = c := Option.some.inj hc
      have hblank : isBlank d = false := by
        by_contra hne
        rw [(isOutside_iff.1 (isOutside_of_isBlank (by simpa using hne))).2] at hbody
        cases hbody
      rw [skip_cons hblank]
      exact .inr ⟨d, rfl, hbody⟩

/-- Behind a byte outside names and strings. -/
theorem macroFree_drop_one {c : Char} (hc : isOutside c = true) (h : Aligned m t)
    (ht : t.head? = some c) : MacroFree m (t.drop 1) := by
  cases t with
  | nil => cases ht
  | cons d ds =>
    obtain rfl : d = c := Option.some.inj ht
    have hplain : ∀ e ∈ [d], isOutside e = true := by simpa using hc
    exact (macroFree_append_plain (w := [d]) hplain).1 (h.macroFree (isOutside_iff.1 hc).2)

end PlainOps

/-! ## Numbers -/

theorem not_mem_takeWhile {p : Char → Bool} {c : Char} (hc : p c = false) (t : Text) :
    c ∉ t.takeWhile p := by
  intro h
  rw [List.mem_takeWhile_imp h] at hc
  cases hc

/-- A prefix, and a prefix of what follows. -/
theorem prefix_append {a b t : Text} (ha : a <+: t) (hb : b <+: t.drop a.length) : a ++ b <+: t := by
  obtain ⟨r, rfl⟩ := ha
  rw [List.drop_left] at hb
  exact (List.prefix_append_right_inj a).2 hb

theorem fractionOf_prefix (t : Text) : fractionOf t <+: t ∧ '"' ∉ fractionOf t := by
  cases t with
  | nil => exact ⟨List.nil_prefix, by simp [fractionOf]⟩
  | cons c cs =>
    simp only [fractionOf]
    split_ifs with hc
    · refine ⟨List.cons_prefix_cons.2 ⟨rfl, List.takeWhile_prefix _⟩, ?_⟩
      rw [List.mem_cons, not_or]
      exact ⟨by rw [hc]; decide, not_mem_takeWhile (by decide) cs⟩
    · exact ⟨List.nil_prefix, by simp⟩

theorem takeSign_prefix (t : Text) : takeSign t <+: t ∧ '"' ∉ takeSign t := by
  unfold takeSign
  split
  · exact ⟨List.nil_prefix, by simp⟩
  · next c cs =>
    split_ifs with hc
    · refine ⟨List.cons_prefix_cons.2 ⟨rfl, List.nil_prefix⟩, ?_⟩
      rcases hc with rfl | rfl <;> decide
    · exact ⟨List.nil_prefix, by simp⟩

theorem exponentOf_prefix (t : Text) : exponentOf t <+: t ∧ '"' ∉ exponentOf t := by
  cases t with
  | nil => exact ⟨List.nil_prefix, by simp [exponentOf]⟩
  | cons c cs =>
    simp only [exponentOf]
    split_ifs with hc
    · obtain ⟨hsign, hquote⟩ := takeSign_prefix cs
      refine ⟨?_, ?_⟩
      · rw [List.cons_append]
        exact List.cons_prefix_cons.2 ⟨rfl, prefix_append hsign (List.takeWhile_prefix _)⟩
      · rw [List.cons_append, List.mem_cons, List.mem_append, not_or, not_or]
        refine ⟨?_, hquote, not_mem_takeWhile (by decide) _⟩
        rcases hc with rfl | rfl <;> decide
    · exact ⟨List.nil_prefix, by simp⟩

theorem decimalToken_prefix (t : Text) :
    (decimalToken t).text <+: t ∧ '"' ∉ (decimalToken t).text := by
  unfold decimalToken
  simp only [List.mem_append, not_or]
  have hwhole : digitsOf isDigit t <+: t := List.takeWhile_prefix _
  obtain ⟨hfraction, hquote⟩ := fractionOf_prefix (t.drop (digitsOf isDigit t).length)
  have htwo := prefix_append hwhole hfraction
  obtain ⟨hexponent, hquote'⟩ := exponentOf_prefix
    (t.drop (digitsOf isDigit t ++ fractionOf (t.drop (digitsOf isDigit t).length)).length)
  exact ⟨prefix_append htwo hexponent, ⟨not_mem_takeWhile (by decide) t, hquote⟩, hquote'⟩

/-- A number stands in front and holds no quote. -/
theorem numberToken_prefix (t : Text) :
    (numberToken t).text <+: t ∧ '"' ∉ (numberToken t).text := by
  unfold numberToken
  split
  · next c d ds =>
    have hdigits : ∀ p : Char → Bool, (p '"' || '"' == '_') = false →
        d ≠ '"' → c = '0' → c :: d :: digitsOf p ds <+: c :: d :: ds ∧
          '"' ∉ c :: d :: digitsOf p ds := by
      rintro p hp hd rfl
      refine ⟨?_, ?_⟩
      · exact List.cons_prefix_cons.2 ⟨rfl, List.cons_prefix_cons.2 ⟨rfl, List.takeWhile_prefix _⟩⟩
      · simp only [List.mem_cons, not_or]
        exact ⟨by decide, hd.symm, not_mem_takeWhile hp ds⟩
    split_ifs with hhex hbin
    · refine hdigits isHexDigit (by decide) ?_ hhex.1
      rcases hhex.2 with rfl | rfl <;> decide
    · refine hdigits isBinDigit (by decide) ?_ hbin.1
      rcases hbin.2 with rfl | rfl <;> decide
    · exact decimalToken_prefix _
  · exact decimalToken_prefix _

/-! ## The functions of the parser -/

/-- In front of a name or an operand. -/
abbrev Ready (m : MacroTable) (x : Text) : Parser → Prop := Standing x (MacroFree m)

/-- Behind an operand: in the middle of a name nothing is read any more. -/
abbrev Resting (m : MacroTable) (x : Text) : Parser → Prop := Standing x (Aligned m)

/-- The body of a macro whose `%NAME%` stands in `x` is evaluated without
an unresolved macro, or with a recursive one. -/
def BodiesExcused (m : MacroTable) (x : Text) (body : Text → Except Halt (PPValue L × List Finding)) :
    Prop :=
  ∀ d, m.lookup d.name = some d → ('%' :: d.name ++ ['%']) <:+: x → ∀ delta r,
    body (expand m d.body delta).1 = .ok r → Excused ((expand m d.body delta).2 ++ r.2)

section Walk

variable {m : MacroTable} {x : Text} {K : Context L} {operand primary : Eval (PPValue L)}
  {op? : Text → Option (BinOp × ℕ)} {R : Text → Prop}

theorem Standing.resting {s : Parser} (h : Ready m x s) : Resting m x s := h.mono fun _ => .inl

theorem ends_applyBinary (op : BinOp) (pos : ℕ) (a b : PPValue L) :
    Ends (Resting m x) (applyBinary op pos a b) (Resting m x) := by
  unfold applyBinary
  split
  · exact ends_reportZero ⟨_, rfl, by cases op <;> decide⟩ pos
  · exact ends_liftM _

theorem ends_ladder (hop : PlainOps op?) (h : Ends (Ready m x) operand (Resting m x)) (n : ℕ)
    (v : PPValue L) : Ends (Resting m x) (ladder op? operand n v) (Resting m x) := by
  induction n generalizing v with
  | zero => exact ends_halt _
  | succ n ih =>
    refine ends_bind (ends_skipWS fun r => aligned_skip) fun _ => ends_remaining fun t => ?_
    split
    · exact ends_weaken (ends_pure v) fun s hs => hs.mono fun r hr => hr.1
    · next op width ht =>
      refine ends_bind (ends_advance width ?_) fun _ => ends_position fun pos =>
        ends_bind h fun r => ends_bind (ends_applyBinary op pos v r) fun w => ih w
      rintro r ⟨hr, rfl⟩
      exact hop.macroFree hr ht

theorem ends_climb (hop : PlainOps op?) (h : Ends (Ready m x) operand (Resting m x)) (n : ℕ) :
    Ends (Ready m x) (climb op? operand n) (Resting m x) :=
  ends_bind h fun v => ends_ladder hop h n v

theorem isOutside_of_unaryOp {c : Char} {op : UnOp} (h : unaryOp c = some op) :
    isOutside c = true := by
  unfold unaryOp at h
  split_ifs at h with hplus hneg hnot hcompl
  all_goals
    subst c
    decide

theorem ends_parseUnary (h : Ends (Ready m x) primary (Resting m x)) (n : ℕ) :
    Ends (Ready m x) (parseUnary primary n) (Resting m x) := by
  induction n with
  | zero => exact ends_halt _
  | succ n ih =>
    refine ends_bind (ends_skipWS fun r => macroFree_skip) fun _ => ends_remaining fun t => ?_
    split
    · exact ends_position fun pos => ends_reportZero ⟨"une".toList, rfl, by decide⟩ pos
    · next c hc =>
      split
      · exact ends_weaken h fun s hs => hs.mono fun r hr => hr.1
      · next op hop =>
        refine ends_bind (ends_advance 1 ?_) fun _ => ends_bind ih fun v => ends_liftM _
        rintro r ⟨hr, rfl⟩
        exact macroFree_drop_one (isOutside_of_unaryOp hop) (.inl hr) hc

theorem ends_parseNumber : Ends (Ready m x) (parseNumber : Eval (PPValue L)) (Resting m x) := by
  refine ends_position fun pos => ends_remaining fun t =>
    ends_bind (Q := Resting m x) (ends_advance _ ?_) fun _ => ?_
  · rintro r ⟨hr, rfl⟩
    have hprefix := numberToken_prefix r
    generalize (numberToken r).text = w at hprefix ⊢
    obtain ⟨⟨rest, rfl⟩, hquote⟩ := hprefix
    rw [List.drop_left]
    exact MacroExpander.aligned_of_append hr hquote
  · dsimp only
    split
    · split
      · exact ends_pure _
      · exact ends_reportZero ⟨"mal".toList, rfl, by decide⟩ pos
    · refine ends_bind (ends_liftM _) fun v => ?_
      split
      · exact ends_pure _
      · exact ends_reportZero ⟨"mal".toList, rfl, by decide⟩ pos

theorem name_of_lookup {name : Text} {d : MacroDef} (h : m.lookup name = some d) :
    d.name = name := by
  have := List.find?_some h
  simpa using this

theorem takeBytes_bind (p : Char → Bool) (f : Text → Eval β) (s : Parser) :
    (takeBytes p >>= f) s =
      f (s.rest.takeWhile p) (s.advance (s.rest.takeWhile p).length) := rfl

/-- **A `%NAME%`** is read off a text whose macros' bodies are excused. -/
theorem ends_parsePercentMacroRef (hm : K.macros = m) (hbody : BodiesExcused m x K.body) :
    Ends (fun s => Ready m x s ∧ s.rest.head? = some '%') (parsePercentMacroRef K)
      (Resting m x) := by
  rintro s a s' ⟨hs, hhead⟩ h
  obtain ⟨cs, hrest⟩ : ∃ cs, s.rest = '%' :: cs := ⟨_, List.eq_cons_of_mem_head? (by simpa using hhead)⟩
  obtain ⟨name, hname⟩ : ∃ name, cs.takeWhile isIdentBody = name := ⟨_, rfl⟩
  have hsplit : cs = name ++ cs.dropWhile isIdentBody := by
    rw [← hname, List.takeWhile_append_dropWhile]
  have hone : (s.advance 1).rest = cs := by rw [Parser.rest_advance, hrest, List.drop_succ_cons, List.drop_zero]
  have htwo : ((s.advance 1).advance name.length).rest = cs.dropWhile isIdentBody := by
    rw [Parser.rest_advance, hone, ← hname, drop_length_takeWhile]
  have hquote : '"' ∉ '%' :: name ++ ['%'] := by
    simp only [List.cons_append, List.mem_cons, List.mem_append, not_or]
    refine ⟨by decide, ?_, by decide, by simp⟩
    rw [← hname]
    exact not_mem_takeWhile (by decide) cs
  have hs₁ : Standing x (fun _ => True) (s.advance 1) := hs.advance 1 fun _ _ => trivial
  have hs₂ : Standing x (fun _ => True) ((s.advance 1).advance name.length) :=
    hs₁.advance _ fun _ _ => trivial
  simp only [parsePercentMacroRef, position_bind, advance_bind, takeBytes_bind, hone, hname] at h
  split at h
  · exact ends_reportZero ⟨"mis".toList, rfl, by decide⟩ _ _ _ _ hs₂ h
  simp only [remaining_bind, htwo] at h
  split at h
  · exact ends_reportZero ⟨"mis".toList, rfl, by decide⟩ _ _ _ _ hs₂ h
  next hclosed =>
  obtain ⟨r, hr⟩ : ∃ r, cs.dropWhile isIdentBody = '%' :: r :=
    ⟨_, List.eq_cons_of_mem_head? (by simpa using hclosed)⟩
  have hall : s.rest = ('%' :: name ++ ['%']) ++ r := by
    rw [hrest, hsplit, hr]
    simp
  have hs₃ : Resting m x (((s.advance 1).advance name.length).advance 1) := by
    refine ⟨(List.drop_suffix _ _).trans hs₂.suffix, hs₂.excused, hs.place.imp_right fun hfree => ?_⟩
    rw [Parser.rest_advance, htwo, hr, List.drop_succ_cons, List.drop_zero]
    rw [hall] at hfree
    exact MacroExpander.aligned_of_append hfree hquote
  simp only [advance_bind, hm] at h
  cases hd : m.lookup name with
  | none =>
    simp only [hd] at h
    refine ends_bind (ends_push (.inr ?_)) (fun _ => ends_pure _) _ _ _ hs₃ h
    intro f hf
    rw [List.mem_singleton.1 hf]
    exact not_isUnresolved "und".toList rfl (by decide)
  | some d =>
    simp only [hd] at h
    have hinfix : ('%' :: d.name ++ ['%']) <:+: x := by
      rw [name_of_lookup hd]
      refine (List.IsPrefix.isInfix ?_).trans hs.suffix.isInfix
      rw [hall]
      exact List.prefix_append _ _
    have hd' : m.lookup d.name = some d := by rw [name_of_lookup hd, hd]
    have hbody' := hbody d hd' hinfix s.pos
    generalize expand m d.body s.pos = expanded at h hbody'
    cases hrun : K.body expanded.1 with
    | error w =>
      rw [hrun] at h
      cases h
    | ok v =>
      rw [hrun] at h
      obtain ⟨-, rfl⟩ := Prod.mk.inj (Except.ok.inj h)
      refine ⟨hs₃.suffix, ?_, hs₃.place⟩
      have hsaid : Excused (s.reports ++ (expanded.2 ++ v.2)) :=
        hs₃.excused.append (hbody' v hrun)
      rwa [← List.append_assoc] at hsaid

theorem ends_parseArgs (h : Ends (Ready m x) operand (Resting m x)) (n : ℕ) :
    Ends (Ready m x) (parseArgs operand n) (Resting m x) := by
  induction n with
  | zero => exact ends_halt _
  | succ n ih =>
    refine ends_bind h fun v => ends_bind (ends_skipWS fun r => aligned_skip) fun _ =>
      ends_remaining fun t => ?_
    split
    · next hcomma =>
      refine ends_bind (ends_advance 1 ?_) fun _ => ends_bind ih fun vs => ends_pure _
      rintro r ⟨hr, rfl⟩
      exact macroFree_drop_one (by decide) hr hcomma
    · exact ends_weaken (ends_pure _) fun s hs => hs.mono fun r hr => hr.1

theorem ends_callArgs (h : Ends (Ready m x) operand (Resting m x)) (n : ℕ) :
    Ends (Ready m x) (callArgs operand n) (Resting m x) := by
  refine ends_remaining fun t => ?_
  split
  · exact ends_weaken (ends_pure _) fun s hs => hs.mono fun r hr => .inl hr.1
  · exact ends_weaken (ends_parseArgs h n) fun s hs => hs.mono fun r hr => hr.1

/-- A helper reports nothing, or something harmless. -/
def HarmlessResult (r : HelperEvaluator.Result L) : Prop :=
  ∀ sev message, r.2 = some (sev, message) → Harmless message

theorem harmlessResult_ite {c : Prop} [Decidable c] {r q : HelperEvaluator.Result L}
    (hr : HarmlessResult r) (hq : HarmlessResult q) : HarmlessResult (if c then r else q) := by
  split
  · exact hr
  · exact hq

theorem harmlessResult_none (v : PPValue L) : HarmlessResult ((v, none) : HelperEvaluator.Result L) := by
  intro sev message h
  cases h

/-- What a helper reports begins with the word `helper`. -/
theorem harmlessResult_some (v : PPValue L) (sev : Severity) (name : Text) (message : String) :
    HarmlessResult ((v, some (sev, ("helper '" ++ String.ofList name ++ message).toList)) :
      HelperEvaluator.Result L) := by
  intro sev' message' h
  obtain ⟨-, rfl⟩ := Prod.mk.inj (Option.some.inj h)
  exact ⟨"hel".toList, by simp, by decide⟩

theorem harmless_invoke (name : Text) (a b : PPValue L) :
    HarmlessResult (HelperEvaluator.invoke name a b) := by
  have hdomain : ∀ (inside : L.Real → Bool) (text : String) (v : PPValue L),
      HarmlessResult (HelperEvaluator.evalDomain name inside text v) := by
    intro inside text v
    refine harmlessResult_ite (harmlessResult_none _) ?_
    rw [String.append_assoc]
    exact harmlessResult_some _ _ _ _
  have hrange : ∀ r : L.Real,
      HarmlessResult (HelperEvaluator.evalRange name r : HelperEvaluator.Result L) := by
    intro r
    unfold HelperEvaluator.evalRange
    split
    · exact harmlessResult_none _
    · exact harmlessResult_some _ _ _ _
  have habs : HarmlessResult (HelperEvaluator.evalAbs a) := by
    cases a <;> exact harmlessResult_none _
  have hmin : HarmlessResult (HelperEvaluator.evalMin a b) := by
    cases a <;> cases b <;> exact harmlessResult_none _
  have hmax : HarmlessResult (HelperEvaluator.evalMax a b) := by
    cases a <;> cases b <;> exact harmlessResult_none _
  exact harmlessResult_ite (harmlessResult_none _) <|
    harmlessResult_ite (harmlessResult_none _) <| harmlessResult_ite (hrange _) <|
    harmlessResult_ite (hdomain _ _ _) <| harmlessResult_ite (hdomain _ _ _) <|
    harmlessResult_ite (hdomain _ _ _) <| harmlessResult_ite (hrange _) <|
    harmlessResult_ite habs <| harmlessResult_ite hmin <| harmlessResult_ite hmax <|
    harmlessResult_none _

theorem ends_parseHelperCall (h : Ends (Ready m x) K.expression (Resting m x)) (n begin : ℕ)
    (name : Text) :
    Ends (Standing x fun r => MacroFree m r ∧ r.head? = some '(') (parseHelperCall K n begin name)
      (Resting m x) := by
  unfold parseHelperCall
  split
  · exact ends_bind (Q := Standing x fun _ => False)
      (ends_report ⟨"com".toList, rfl, by decide⟩ begin) fun _ => ends_remaining fun t =>
        ends_bind (ends_advance _ fun r hr => hr.1.elim) fun _ => ends_pure _
  · refine ends_bind (Q := Ready m x) (ends_advance 1 ?_) fun _ =>
      ends_bind (Q := Ready m x) (ends_skipWS fun r => macroFree_skip) fun _ =>
        ends_bind (ends_callArgs h n) fun args =>
          ends_bind (ends_skipWS fun r => aligned_skip) fun _ => ends_remaining fun t => ?_
    · rintro r ⟨hr, hhead⟩
      exact macroFree_drop_one (by decide) (.inl hr) hhead
    split
    · exact ends_position fun pos => ends_reportZero ⟨"mis".toList, rfl, by decide⟩ pos
    · next hclosed =>
      refine ends_bind (Q := Resting m x) (ends_advance 1 ?_) fun _ => ?_
      · rintro r ⟨hr, rfl⟩
        exact .inl (macroFree_drop_one (c := ')') (by decide) hr (by simpa using hclosed))
      split
      · exact ends_reportZero ⟨"hel".toList, rfl, by decide⟩ begin
      · refine ends_bind (ends_push (.inr ?_)) fun _ => ends_pure _
        intro f hf
        obtain ⟨e, he, rfl⟩ := List.mem_map.1 hf
        obtain ⟨w, hw, hne⟩ := harmless_invoke _ _ _ e.1 e.2 (Option.mem_toList.1 he)
        exact not_isUnresolved w hw hne

/-- **The branch for an unresolved macro** is not reached without an
error: the name read is no macro's. -/
theorem ends_parseName (hm : K.macros = m) (begin : ℕ) (name : Text) :
    Ends (Standing x fun r => MacroFree m r ∧ m.lookup name = none) (parseName K begin name)
      (Resting m x) := by
  unfold parseName
  rw [hm]
  split
  · exact ends_reportZero ⟨"und".toList, rfl, by decide⟩ begin
  · next d hd =>
    have herr : ∀ s, Standing x (fun r => MacroFree m r ∧ m.lookup name = none) s →
        Standing x (fun _ => False) s := by
      intro s hs
      refine hs.mono fun r hr => ?_
      rw [hd] at hr
      cases hr.2
    split
    · exact ends_reportZero ⟨"mac".toList, rfl, by decide⟩ begin
    · intro s a s' hs h
      change (if (s.reports.any fun f => f.severity == .error) = true then pure (.int 0) else
        reportZero ("unresolved macro '".toList ++ name ++
          "' in compile-time expression".toList) begin : Eval (PPValue L)) s = .ok (a, s') at h
      split at h
      · exact ends_weaken (ends_pure _) (fun s hs => (herr s hs).mono fun r hr => hr.elim)
          _ _ _ hs h
      · exact ends_weaken (ends_reportZero_again _ begin) herr _ _ _ hs h

theorem ends_parseIdentOrHelper (hm : K.macros = m)
    (h : Ends (Ready m x) K.expression (Resting m x)) (n : ℕ) :
    Ends (Standing x fun r => MacroFree m r ∧ ∃ c, r.head? = some c ∧ isIdentStart c = true)
      (parseIdentOrHelper K n) (Resting m x) := by
  refine ends_position fun pos => ends_takeBytes fun name =>
    ends_bind (Q := Standing x fun r => MacroFree m r ∧ m.lookup name = none)
      (ends_skipWS ?_) fun _ => ends_remaining fun t => ?_
  · rintro r ⟨r₀, ⟨hfree, c, hc, hs⟩, rfl, rfl⟩
    obtain ⟨cs, rfl⟩ : ∃ cs, r₀ = c :: cs := ⟨_, List.eq_cons_of_mem_head? (by simpa using hc)⟩
    have hbody := MacroExpander.isIdentBody_of_isIdentStart hs
    obtain ⟨hlookup, htail⟩ := (MacroExpander.macroFree_word hs).1 hfree
    simp only [List.takeWhile_cons, List.dropWhile_cons, hbody, if_true]
    exact ⟨macroFree_skip htail, hlookup⟩
  split
  · next hcall =>
    refine ends_weaken (ends_parseHelperCall h n pos name) fun s hs => hs.mono ?_
    rintro r ⟨⟨hr, -⟩, rfl⟩
    exact ⟨hr, hcall.2⟩
  · exact ends_weaken (ends_parseName hm pos name) fun s hs => hs.mono fun r hr => hr.1

theorem ends_parseParens (h : Ends (Ready m x) K.expression (Resting m x)) :
    Ends (Standing x fun r => MacroFree m r ∧ r.head? = some '(') (parseParens K)
      (Resting m x) := by
  refine ends_bind (ends_advance 1 ?_) fun _ => ends_bind h fun v =>
    ends_bind (ends_skipWS fun r => aligned_skip) fun _ => ends_remaining fun t => ?_
  · rintro r ⟨hr, hhead⟩
    exact macroFree_drop_one (by decide) (.inl hr) hhead
  split
  · exact ends_position fun pos =>
      ends_bind (ends_report ⟨"mis".toList, rfl, by decide⟩ pos) fun _ => ends_pure _
  · next hclosed =>
    refine ends_bind (ends_advance 1 ?_) fun _ => ends_pure _
    rintro r ⟨hr, rfl⟩
    exact .inl (macroFree_drop_one (c := ')') (by decide) hr (by simpa using hclosed))

theorem ends_parsePrimary (hm : K.macros = m) (hbody : BodiesExcused m x K.body)
    (h : Ends (Ready m x) K.expression (Resting m x)) (n : ℕ) :
    Ends (Ready m x) (parsePrimary K n) (Resting m x) := by
  intro s a s' hs hrun
  have hs₁ : Ready m x s.skipBlanks := ends_skipWS (fun r => macroFree_skip) s () _ hs rfl
  simp only [parsePrimary, skipWS_bind, remaining_bind] at hrun
  generalize s.skipBlanks = s₁ at hs₁ hrun
  have hhere : ∀ {P : Text → Prop}, P s₁.rest → Standing x (fun r => MacroFree m r ∧ P r) s₁ :=
    fun hP => ⟨hs₁.suffix, hs₁.excused, hs₁.place.imp_right fun hR => ⟨hR, hP⟩⟩
  cases hc : s₁.rest.head? with
  | none =>
    simp only [hc] at hrun
    exact ends_position (fun pos => ends_reportZero ⟨"une".toList, rfl, by decide⟩ pos)
      _ _ _ hs₁ hrun
  | some c =>
    simp only [hc] at hrun
    split_ifs at hrun with hparen hpercent hnum hident
    · exact ends_parseParens h _ _ _ (hhere (by rw [hc, hparen])) hrun
    · exact ends_parsePercentMacroRef hm hbody _ _ _ ⟨hs₁, by rw [hc, hpercent]⟩ hrun
    · exact ends_parseNumber _ _ _ hs₁ hrun
    · exact ends_parseIdentOrHelper hm h n _ _ _ (hhere ⟨c, hc, hident⟩) hrun
    · exact ends_position (fun pos => ends_bind (Q := Standing x fun _ => False)
        (ends_reportZero ⟨"une".toList, rfl, by decide⟩ pos) fun v =>
          ends_bind (ends_advance 1 fun r hr => hr.elim) fun _ => ends_pure _) _ _ _ hs₁ hrun

theorem ends_parseLogicalOr {body : Text → Except Halt (PPValue L × List Finding)}
    (hbody : BodiesExcused m x body) (n : ℕ) :
    Ends (Ready m x) (parseLogicalOr m body n) (Resting m x) := by
  induction n with
  | zero => exact ends_halt _
  | succ n ih =>
    have hprimary : Ends (Ready m x) (parsePrimary ⟨m, parseLogicalOr m body n, body⟩ (n + 1))
        (Resting m x) :=
      ends_parsePrimary (K := ⟨m, parseLogicalOr m body n, body⟩) rfl hbody ih (n + 1)
    exact ends_climb plainOps_or (ends_climb plainOps_and (ends_climb plainOps_equality
      (ends_climb plainOps_relational (ends_climb plainOps_additive
        (ends_climb plainOps_multiplicative (ends_parseUnary hprimary _) _) _) _) _) _) _

theorem ends_parseTop {body : Text → Except Halt (PPValue L × List Finding)}
    (hbody : BodiesExcused m x body) (n : ℕ) :
    Ends (Ready m x) (parseTop m body n) (Standing x fun _ => True) := by
  refine ends_bind (ends_skipWS fun r => macroFree_skip) fun _ =>
    ends_bind (ends_parseLogicalOr hbody n) fun v =>
      ends_bind (ends_skipWS fun r => aligned_skip) fun _ => ends_remaining fun t => ?_
  split
  · exact ends_position fun pos =>
      ends_bind (ends_report ⟨"une".toList, rfl, by decide⟩ pos) fun _ => ends_pure _
  · exact ends_weaken (ends_pure _) fun s hs => hs.mono fun _ _ => trivial

end Walk

/-! ## Whole evaluations -/

/-- The texts a parser is made for while `t` is evaluated: the text, and
the bodies of the macros whose `%NAME%` is left in one of them. -/
inductive Reread (m : MacroTable) (t : Text) : Text → Prop where
  | self : Reread m t t
  | body {u : Text} {d : MacroDef} (h : Reread m t u) (hd : m.lookup d.name = some d)
      (hleft : ('%' :: d.name ++ ['%']) <:+: (expand m u 0).1) : Reread m t d.body

section Whole

variable {m : MacroTable} {t u v : Text} {depth : ℕ}

theorem Reread.trans (h : Reread m t u) (h' : Reread m u v) : Reread m t v := by
  induction h' with
  | self => exact h
  | body _ hd hleft ih => exact .body ih hd hleft

theorem excused_evaluate (hjoin : ∀ v, Reread m u v → JoinsNoMacro m v)
    (hshort : ¬ Opens m (kMaxExpansionDepth + 1) u) {r : PPValue L × List Finding}
    (h : evaluate L m depth (expand m u 0).1 = .ok r) : Excused r.2 := by
  induction depth generalizing u r with
  | zero => cases h
  | succ depth ih =>
    have hbody : BodiesExcused m (expand m u 0).1 (evaluate L m depth) := by
      intro d hd hleft delta v hv
      by_cases hlong : Opens m (kMaxExpansionDepth + 1) d.body
      · obtain ⟨name, hname⟩ := MacroExpander.expandImpl_error_iff.2 hlong
        exact .inl ⟨_, List.mem_append_left _ hname, delta, name, rfl⟩
      · rw [expand_fst_zero] at hv
        refine (excused_expand m d.body delta).append (ih ?_ hlong hv)
        exact fun w hw => hjoin w ((Reread.body .self hd hleft).trans hw)
    have hfree := (MacroExpander.macroFree_expand_iff hshort).2 (hjoin u .self)
    have hstart : Ready m (expand m u 0).1 ⟨(expand m u 0).1, 0, false, []⟩ :=
      ⟨List.suffix_rfl, excused_nil, .inr hfree⟩
    generalize hx : (expand m u 0).1 = x at h hbody hstart
    have hrun : evaluate L m (depth + 1) x =
        (parseTop m (evaluate L m depth) (x.length + 1) ⟨x, 0, false, []⟩).bind
          fun r => .ok (r.1, r.2.reports) := rfl
    rw [hrun] at h
    cases htop : parseTop m (evaluate L m depth) (x.length + 1) ⟨x, 0, false, []⟩ with
    | error w =>
      rw [htop] at h
      cases h
    | ok q =>
      rw [htop] at h
      obtain rfl : (q.1, q.2.reports) = r := Except.ok.inj h
      exact (ends_parseTop hbody _ _ _ _ hstart htop).excused

/-- **An unresolved macro is reported only with a recursive one**, if the
joining forms no macro's name. -/
theorem excused_parse (hjoin : ∀ u, Reread m t u → JoinsNoMacro m u)
    {r : PPValue L × List Finding} (h : parse L m depth t = .ok r) : Excused r.2 := by
  have hp : parse L m depth t = (evaluate L m depth (expand m t 0).1).bind fun r =>
      .ok (r.1, (expand m t 0).2 ++ r.2) := rfl
  rw [hp] at h
  cases hev : evaluate L m depth (expand m t 0).1 with
  | error w =>
    rw [hev] at h
    cases h
  | ok q =>
    rw [hev] at h
    obtain rfl : (q.1, (expand m t 0).2 ++ q.2) = r := Except.ok.inj h
    by_cases hlong : Opens m (kMaxExpansionDepth + 1) t
    · obtain ⟨name, hname⟩ := MacroExpander.expandImpl_error_iff.2 hlong
      exact .inl ⟨_, List.mem_append_left _ hname, 0, name, rfl⟩
    · exact (excused_expand m t 0).append (excused_evaluate hjoin hlong hev)

end Whole

/-! ## Completeness -/

/-- How far the expansion of `t` is complete. -/
structure ExpansionComplete (m : MacroTable) (t : Text) : Prop where
  silent : Acyclic m → ∀ delta, (expand m t delta).2 = []
  complete : Acyclic m → (MacroFree m (expand m t 0).1 ↔ JoinsNoMacro m t)
  fixed : Acyclic m → JoinsNoMacro m t → ∀ delta,
    expand m (expand m t delta).1 delta = ((expand m t delta).1, [])
  unresolved : (∀ u, Reread m t u → JoinsNoMacro m u) →
    ∀ (L : LongDouble) depth r, parse L m depth t = .ok r →
      (∃ f ∈ r.2, Finding.IsUnresolved f) → ∃ f ∈ r.2, Finding.IsRecursive f
  cyclic : ReachesCycle m t → ∀ delta, ∃ name, recursiveExpansion delta name ∈ (expand m t delta).2

/-- **Expansion is complete** up to the names that joining forms. -/
theorem expansionComplete (m : MacroTable) (t : Text) : ExpansionComplete m t := by
  have hshort : Acyclic m → ¬ Opens m (kMaxExpansionDepth + 1) t := fun h => h.not_opens t
  refine ⟨?_, ?_, ?_, ?_, ?_⟩
  · intro h delta
    exact MacroExpander.expandImpl_snd_eq_nil_iff.2 (hshort h)
  · exact fun h => MacroExpander.macroFree_expand_iff (hshort h)
  · intro h hjoin delta
    rw [expand_fst_zero]
    exact MacroExpander.expand_of_macroFree ((MacroExpander.macroFree_expand_iff (hshort h)).2 hjoin)
  · rintro hjoin L depth r h ⟨f, hf, hunresolved⟩
    rcases excused_parse hjoin h with hrec | hnone
    · exact hrec
    · exact absurd hunresolved (hnone f hf)
  · exact fun h delta => MacroExpander.error_of_reachesCycle h delta

/-- Two macros that do not refer to each other. -/
def joinedMacros : MacroTable := [⟨"A".toList, "1".toList, none⟩, ⟨"X1".toList, "7".toList, none⟩]

def selfMacro : MacroDef := ⟨"A".toList, "A".toList, none⟩

/-- The body of the one stands behind a name, and the two together name
the other: the result is no fixed point, and the evaluator reports an
unresolved macro without a recursive one. And a text that does not reach
the cycle of a table is expanded without an error. -/
theorem not_complete_joinedMacros :
    (Acyclic joinedMacros ∧
      (expand joinedMacros (expand joinedMacros "X%A%".toList 0).1 0).1 ≠
        (expand joinedMacros "X%A%".toList 0).1 ∧
      parse ratReals joinedMacros 1 "X%A%".toList = .ok (.int 0,
        [⟨.error, 0, "unresolved macro 'X1' in compile-time expression".toList⟩])) ∧
    (Relation.TransGen (MacroExpander.Refers [selfMacro]) selfMacro selfMacro ∧
      (expand [selfMacro] "1".toList 0).2 = []) := by
  refine ⟨⟨MacroExpander.acyclic_of_macroFree ?_, ?_, ?_⟩, ?_, ?_⟩
  · decide +kernel
  · decide +kernel
  · rfl
  · exact .single ⟨.word "A".toList, by decide +kernel, by decide +kernel⟩
  · decide +kernel

end Evaluator

end Preprocess

end Nslc
