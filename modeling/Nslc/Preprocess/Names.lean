import Nslc.Preprocess.Opacity
/-!
# Preprocessor — the name a directive takes

`#define` scans an identifier and leaves what follows to the body;
`#undef`, `#ifdef` and `#ifndef` take the whole trimmed tail as the
name. The two readings give one name exactly when nothing but blanks
follows the identifier (`namesAgree_iff`).
-/

namespace Nslc

namespace Preprocess

/-- The line `#kw o`. -/
def operandLine (kw o : Text) (newline : Bool) : Line := ⟨'#' :: kw ++ ' ' :: o, newline⟩

namespace State

/-- Whether the text read next is selected. -/
def emitting (s : State) : Bool := s.includeStack.head?.any fun f => isEmitting f.condStack

/-- The machine is about to read `l`. -/
structure AtLine (s : State) (l : Line) : Prop where
  running : s.aborted = none
  reads : ∃ f fs, s.includeStack = f :: fs ∧
    readLine (s.sm.getBuffer f.fid) f.cursor = some l

end State

/-- An error is reported between `s` and `t`. -/
def ReportsError (s t : State) : Prop :=
  ∃ ds, t.diags = s.diags ++ ds ∧ hasError ds = true

/-- An active `#dir o` leaves the macro in such a state that `#cond o`
selects its region iff `b`, unless one of them reports an error. What
runs in between leaves it alone whether the macro is defined. -/
def SelectsAfter (env : Env) (dir cond o : Text) (b : Bool) : Prop :=
  ∀ s s₁ t t₁ nl nl', s.AtLine (operandLine dir o nl) → s.emitting = true → step env s = some s₁ →
    t.macros.defined (readIdent o) = s₁.macros.defined (readIdent o) →
    t.AtLine (operandLine cond o nl') → t.emitting = true → step env t = some t₁ →
    t₁.emitting = b ∨ ReportsError s s₁ ∨ ReportsError t t₁

/-- The four directives act on one macro when given the operand `o`. -/
structure NamesAgree (env : Env) (o : Text) : Prop where
  defineIfdef : SelectsAfter env "define".toList "ifdef".toList o true
  defineIfndef : SelectsAfter env "define".toList "ifndef".toList o false
  undefIfdef : SelectsAfter env "undef".toList "ifdef".toList o false
  undefIfndef : SelectsAfter env "undef".toList "ifndef".toList o true

/-- Nothing but blanks follows the identifier `o` starts with; a
carriage return may end the line. -/
def blankTail (o : Text) : Bool := ((stripCR o).drop (readIdent o).length).all isWS

/-! ## Cutting the operand -/

theorem isWS_of_isIdentBody {c : Char} (h : isIdentBody c = true) : isWS c = false := by
  by_contra hws
  rw [Bool.not_eq_false, isWS, Bool.or_eq_true, beq_iff_eq, beq_iff_eq] at hws
  rcases hws with rfl | rfl <;> exact absurd h (by decide)

theorem isIdentBody_of_isIdentStart {c : Char} (h : isIdentStart c = true) :
    isIdentBody c = true := by
  rw [isIdentBody, h, Bool.true_or]

theorem readIdent_eq_takeWhile {o : Text} (h : readIdent o ≠ []) :
    readIdent o = o.takeWhile isIdentBody := by
  unfold readIdent at h ⊢
  split
  · rfl
  · split
    · rfl
    · next hstart => simp [hstart] at h

/-- An operand with a name starts with an identifier. -/
theorem exists_cons_of_readIdent {o : Text} (h : readIdent o ≠ []) :
    ∃ c cs, o = c :: cs ∧ isIdentStart c = true := by
  unfold readIdent at h
  split at h
  · exact absurd rfl h
  · next c cs =>
    refine ⟨c, cs, rfl, ?_⟩
    by_contra hc
    exact h (if_neg hc)

theorem dropEndWhile_append_all {p : Char → Bool} {x y : Text} (hy : y.all p = true) :
    dropEndWhile p (x ++ y) = dropEndWhile p x := by
  have hy' : ∀ c ∈ y.reverse, p c = true := by
    intro c hc
    exact List.all_eq_true.1 hy c (List.mem_reverse.1 hc)
  rw [dropEndWhile, List.reverse_append, List.dropWhile_append_of_pos hy', dropEndWhile]

theorem dropEndWhile_of_none {p : Char → Bool} {x : Text} (hx : ∀ c ∈ x, p c = false) :
    dropEndWhile p x = x := by
  have hlast : ∀ hl : x ≠ [], ¬ p (x.getLast hl) = true := by
    intro hl
    rw [hx _ (List.getLast_mem hl)]
    exact Bool.false_ne_true
  exact (List.rdropWhile_eq_self_iff (p := p)).2 hlast

/-- Trimming takes off an all-blank tail and nothing else. -/
theorem dropEndWhile_eq_iff {p : Char → Bool} {x y : Text} (hx : ∀ c ∈ x, p c = false) :
    dropEndWhile p (x ++ y) = x ↔ y.all p = true := by
  constructor
  · intro h
    have hcut : dropEndWhile p (x ++ y) ++ (x ++ y).rtakeWhile p = x ++ y :=
      List.rdropWhile_append_rtakeWhile
    rw [h, List.append_cancel_left_eq] at hcut
    rw [List.all_eq_true, ← hcut]
    intro c hc
    exact List.mem_rtakeWhile_imp hc
  · intro h
    rw [dropEndWhile_append_all h, dropEndWhile_of_none hx]

theorem takeWhile_concat_stop {p : Char → Bool} {d : Char} (hp : p d = false) (xs : Text) :
    (xs ++ [d]).takeWhile p = xs.takeWhile p := by
  induction xs with
  | nil => simp [hp]
  | cons c cs ih => simp only [List.cons_append, List.takeWhile_cons, ih]

/-- A carriage return taken off does not touch the identifier. -/
theorem stripCR_cons {c : Char} (cs : Text) (h : c ≠ '\r') :
    ∃ cs', stripCR (c :: cs) = c :: cs' ∧ cs'.takeWhile isIdentBody = cs.takeWhile isIdentBody := by
  unfold stripCR
  split_ifs with hlast
  · cases cs with
    | nil => exact absurd (Option.some.inj hlast) h
    | cons d ds =>
      refine ⟨(d :: ds).dropLast, rfl, ?_⟩
      have hend : (d :: ds).getLast? = some '\r' := by
        rwa [List.getLast?_cons_cons] at hlast
      obtain ⟨xs, hxs⟩ := List.getLast?_eq_some_iff.1 hend
      rw [hxs, List.dropLast_concat, takeWhile_concat_stop (by decide)]
  · exact ⟨cs, rfl, rfl⟩

theorem readIdent_stripCR {o : Text} (h : readIdent o ≠ []) :
    readIdent (stripCR o) = readIdent o := by
  obtain ⟨c, cs, rfl, hc⟩ := exists_cons_of_readIdent h
  have hcr : c ≠ '\r' := by
    rintro rfl
    exact absurd hc (by decide)
  obtain ⟨cs', heq, htake⟩ := stripCR_cons cs hcr
  have hb := isIdentBody_of_isIdentStart hc
  simp only [heq, readIdent, hc, if_true, List.takeWhile_cons_of_pos hb, htake]

/-- **The trimmed tail is the identifier** iff only blanks follow it. -/
theorem trim_eq_readIdent_iff {o : Text} (h : readIdent o ≠ []) :
    trim (' ' :: stripCR o) = readIdent o ↔ blankTail o = true := by
  have h' : readIdent (stripCR o) ≠ [] := by rwa [readIdent_stripCR h]
  obtain ⟨c, cs, heq, hc⟩ := exists_cons_of_readIdent h'
  have hws : isWS c = false := isWS_of_isIdentBody (isIdentBody_of_isIdentStart hc)
  have hdrop : (' ' :: stripCR o).dropWhile isWS = stripCR o := by
    rw [List.dropWhile_cons_of_pos (by decide), heq, List.dropWhile_cons_of_neg (by simp [hws])]
  have hname : ∀ c ∈ readIdent o, isWS c = false := by
    intro d hd
    rw [readIdent_eq_takeWhile h] at hd
    exact isWS_of_isIdentBody (List.mem_takeWhile_imp hd)
  have hsplit : stripCR o = readIdent o ++ (stripCR o).drop (readIdent o).length := by
    conv_lhs => rw [← List.takeWhile_append_dropWhile (p := isIdentBody) (l := stripCR o)]
    rw [← readIdent_eq_takeWhile h', ← drop_readIdent h', readIdent_stripCR h]
  rw [trim, hdrop, blankTail]
  conv_lhs => rw [hsplit]
  exact dropEndWhile_eq_iff hname

/-! ## What a line with an operand is -/

section Operand

variable {o kw : Text} {nl : Bool}

theorem isIdentBody_space : isIdentBody ' ' = false := by decide

/-- The keyword is read, and the operand stands behind a blank. -/
theorem lineDirective_operandLine (hkw : readIdent kw = kw) (hne : kw ≠ []) (ho : o ≠ []) :
    lineDirective (operandLine kw o nl) = directiveOf kw (' ' :: stripCR o) := by
  have hstrip : stripCR ('#' :: kw ++ ' ' :: o) = '#' :: kw ++ ' ' :: stripCR o := by
    obtain ⟨xs, d, rfl⟩ : ∃ xs d, o = xs ++ [d] := ⟨_, _, (List.dropLast_append_getLast ho).symm⟩
    have hassoc : '#' :: kw ++ ' ' :: (xs ++ [d]) = '#' :: kw ++ ' ' :: xs ++ [d] := by simp
    rw [hassoc]
    unfold stripCR
    simp only [List.getLast?_concat, List.dropLast_concat, Option.some.injEq]
    split <;> simp
  have hne' : readIdent kw ≠ [] := by rwa [hkw]
  obtain ⟨c, cs, rfl, hc⟩ := exists_cons_of_readIdent hne'
  have hword : (c :: cs).takeWhile isIdentBody = c :: cs := by
    rw [← readIdent_eq_takeWhile hne', hkw]
  have hws : isWS c = false := isWS_of_isIdentBody (isIdentBody_of_isIdentStart hc)
  have hread : readIdent (c :: cs ++ ' ' :: stripCR o) = c :: cs := by
    have hall : ∀ d ∈ c :: cs, isIdentBody d = true := by
      intro d hd
      rw [← hword] at hd
      exact List.mem_takeWhile_imp hd
    have htake : (c :: cs ++ ' ' :: stripCR o).takeWhile isIdentBody = c :: cs := by
      rw [List.takeWhile_append_of_pos hall, List.takeWhile_cons_of_neg (by simp [isIdentBody_space]),
        List.append_nil]
    rw [List.cons_append] at htake ⊢
    rw [readIdent, if_pos hc, htake]
  rw [lineDirective, operandLine, hstrip]
  simp only [List.cons_append, classifyLine, if_true]
  rw [List.dropWhile_cons_of_neg (by simp [hws]), ← List.cons_append, hread, if_neg hne,
    List.drop_left]

theorem lineDirective_define (h : readIdent o ≠ []) :
    ∃ body, lineDirective (operandLine "define".toList o nl) = .define (readIdent o) body := by
  have ho : o ≠ [] := by
    rintro rfl
    exact h rfl
  have h' : readIdent (stripCR o) ≠ [] := by rwa [readIdent_stripCR h]
  obtain ⟨c, cs, heq, hc⟩ := exists_cons_of_readIdent h'
  have hws : isWS c = false := isWS_of_isIdentBody (isIdentBody_of_isIdentStart hc)
  have hdrop : (' ' :: stripCR o).dropWhile isWS = stripCR o := by
    rw [List.dropWhile_cons_of_pos (by decide), heq, List.dropWhile_cons_of_neg (by simp [hws])]
  have hline : lineDirective (operandLine "define".toList o nl) =
      defineOperand (' ' :: stripCR o) := lineDirective_operandLine (by decide) (by decide) ho
  rw [hline, defineOperand, hdrop, readIdent_stripCR h]
  exact ⟨_, rfl⟩

theorem lineDirective_undef (ho : o ≠ []) :
    lineDirective (operandLine "undef".toList o nl) = .undef (trim (' ' :: stripCR o)) :=
  lineDirective_operandLine (by decide) (by decide) ho

theorem lineDirective_ifdef (ho : o ≠ []) :
    lineDirective (operandLine "ifdef".toList o nl) = .ifdef (trim (' ' :: stripCR o)) :=
  lineDirective_operandLine (by decide) (by decide) ho

theorem lineDirective_ifndef (ho : o ≠ []) :
    lineDirective (operandLine "ifndef".toList o nl) = .ifndef (trim (' ' :: stripCR o)) :=
  lineDirective_operandLine (by decide) (by decide) ho

end Operand

/-! ## What the four lines do -/

@[simp] theorem MacroTable.defined_redefine (m : MacroTable) (name body : Text)
    (loc : Option SourceLocation) : (m.redefine name body loc).defined name = true := by
  unfold MacroTable.redefine
  by_cases h : m.defined name = true
  · obtain ⟨d, hd⟩ := Option.isSome_iff_exists.1 h
    have hmem := List.mem_of_find?_eq_some hd
    have hname : d.name = name := by simpa using List.find?_some hd
    rw [if_pos h, MacroTable.defined, MacroTable.lookup, List.find?_isSome]
    refine ⟨⟨name, body, loc⟩, List.mem_map.2 ⟨d, hmem, if_pos hname⟩, by simp⟩
  · rw [if_neg h, MacroTable.defined, MacroTable.lookup, List.find?_isSome]
    exact ⟨⟨name, body, loc⟩, by simp, by simp⟩

@[simp] theorem MacroTable.defined_undef (m : MacroTable) (name : Text) :
    (m.undef name).defined name = false := by
  rw [MacroTable.defined, MacroTable.lookup, Option.isSome_eq_false_iff, Option.isNone_iff_eq_none,
    List.find?_eq_none]
  intro d hd
  have hne := (List.mem_filter.1 hd).2
  simpa using hne

@[simp] theorem macros_emit (s : State) (t : Text) : (s.emit t).macros = s.macros := rfl

@[simp] theorem includeStack_emit (s : State) (t : Text) :
    (s.emit t).includeStack = s.includeStack := rfl

theorem isEmitting_cons (cf : CondFrame) (st : List CondFrame) :
    isEmitting (cf :: st) = cf.currentlyEmitting := rfl

section Steps

theorem State.AtLine.exists_step {s : State} {l : Line} (h : s.AtLine l) (env : Env) :
    ∃ t, Preprocess.step env s = some t := by
  obtain ⟨hrun, f, fs, hst, hread⟩ := h
  rw [← Option.ne_none_iff_exists', Ne, step_eq_none_iff, hst, hrun]
  simp

variable {env : Env} {s t : State} {o : Text} {l : Line} {nl : Bool}

/-- A line in a selected branch is dispatched. -/
theorem State.AtLine.step (h : s.AtLine l) (he : s.emitting = true)
    (hstep : Preprocess.step env s = some t) :
    ∃ f fs, s.includeStack = f :: fs ∧ isEmitting f.condStack = true ∧
      t = stepLine env s f fs l := by
  obtain ⟨hrun, f, fs, hst, hread⟩ := h
  refine ⟨f, fs, hst, by simpa [State.emitting, hst] using he, ?_⟩
  simp only [Preprocess.step, hrun, hst, hread, Option.isSome_none, Bool.false_eq_true, if_false,
    Option.some.injEq] at hstep
  exact hstep.symm

/-- `#define o` defines the identifier `o` starts with. -/
theorem macros_define (ho : readIdent o ≠ []) (hat : s.AtLine (operandLine "define".toList o nl))
    (he : s.emitting = true) (hstep : Preprocess.step env s = some t) :
    ∃ body loc, t.macros = s.macros.redefine (readIdent o) body loc := by
  obtain ⟨f, fs, hst, hem, rfl⟩ := hat.step he hstep
  obtain ⟨body, hdir⟩ : ∃ body, lineDirective (operandLine "define".toList o nl) =
      .define (readIdent o) body := lineDirective_define ho
  refine ⟨body, some f.loc, ?_⟩
  simp only [stepLine, dispatch, hdir, hem, if_true, macros_emit, handleDefine, if_neg ho]
  split <;> rfl

/-- `#undef o` drops the trimmed operand. -/
theorem macros_undef (ho : o ≠ []) (hne : trim (' ' :: stripCR o) ≠ [])
    (hat : s.AtLine (operandLine "undef".toList o nl)) (he : s.emitting = true)
    (hstep : Preprocess.step env s = some t) :
    t.macros = s.macros.undef (trim (' ' :: stripCR o)) := by
  obtain ⟨f, fs, hst, hem, rfl⟩ := hat.step he hstep
  simp only [stepLine, dispatch, lineDirective_undef ho, hem, if_true, macros_emit, handleUndef,
    if_neg hne]

/-- `#ifdef o` and `#ifndef o` look the trimmed operand up. -/
theorem emitting_cond (negate : Bool) {name : Text} (hne : name ≠ [])
    (hdir : lineDirective l = if negate then .ifndef name else .ifdef name)
    (hat : s.AtLine l) (he : s.emitting = true) (hstep : Preprocess.step env s = some t) :
    t.emitting = (if negate then !s.macros.defined name else s.macros.defined name) ∧
      t.diags = s.diags := by
  obtain ⟨f, fs, hst, hem, rfl⟩ := hat.step he hstep
  cases negate <;>
    simp only [Bool.false_eq_true, if_false, if_true] at hdir ⊢ <;>
    simp [stepLine, dispatch, hdir, condStep, handleIfdef, hne, Frame.next, pushCondFrame, hem,
      State.emitting, isEmitting_cons, State.emit, State.addDiags, Frame.advance]

theorem emitting_ifdef (ho : o ≠ []) (hne : trim (' ' :: stripCR o) ≠ [])
    (hat : s.AtLine (operandLine "ifdef".toList o nl)) (he : s.emitting = true)
    (hstep : Preprocess.step env s = some t) :
    t.emitting = s.macros.defined (trim (' ' :: stripCR o)) ∧ t.diags = s.diags :=
  emitting_cond false hne (lineDirective_ifdef ho) hat he hstep

theorem emitting_ifndef (ho : o ≠ []) (hne : trim (' ' :: stripCR o) ≠ [])
    (hat : s.AtLine (operandLine "ifndef".toList o nl)) (he : s.emitting = true)
    (hstep : Preprocess.step env s = some t) :
    t.emitting = (!s.macros.defined (trim (' ' :: stripCR o))) ∧ t.diags = s.diags :=
  emitting_cond true hne (lineDirective_ifndef ho) hat he hstep

/-- Defining a macro may warn, but is no error. -/
theorem not_reportsError_define (ho : readIdent o ≠ [])
    (hat : s.AtLine (operandLine "define".toList o nl)) (he : s.emitting = true)
    (hstep : Preprocess.step env s = some t) : ¬ ReportsError s t := by
  obtain ⟨f, fs, hst, hem, rfl⟩ := hat.step he hstep
  obtain ⟨body, hdir⟩ : ∃ body, lineDirective (operandLine "define".toList o nl) =
      .define (readIdent o) body := lineDirective_define ho
  rintro ⟨ds, hds, herr⟩
  simp only [stepLine, dispatch, hdir, hem, if_true, State.emit, handleDefine, if_neg ho] at hds
  split at hds
  · rw [List.self_eq_append_right] at hds
    simp [hds, hasError] at herr
  · rw [State.addDiags, List.append_cancel_left_eq] at hds
    simp [← hds, hasError] at herr

theorem not_reportsError_of_eq (h : t.diags = s.diags) : ¬ ReportsError s t := by
  rintro ⟨ds, hds, herr⟩
  rw [h, List.self_eq_append_right] at hds
  simp [hds, hasError] at herr

end Steps

/-! ## One name for the four directives -/

/-- The machine in front of the line `#kw o`, with the macros `m`. -/
def stateBefore (kw o : Text) (m : MacroTable) : State where
  sm := ⟨[⟨"f.nsl".toList, (operandLine kw o true).bytes, []⟩], []⟩
  diags := []
  macros := m
  includeStack := [⟨1, 0, 1, []⟩]
  output := []
  aborted := none

theorem atLine_stateBefore (kw : Text) {o : Text} (m : MacroTable) (hkw : '\n' ∉ kw) (ho : '\n' ∉ o) :
    (stateBefore kw o m).AtLine (operandLine kw o true) := by
  refine ⟨rfl, ⟨1, 0, 1, []⟩, [], rfl, ?_⟩
  have hbody : '\n' ∉ (operandLine kw o true).body := by
    simp [operandLine, hkw, ho]
  have hbuf : (stateBefore kw o m).sm.getBuffer 1 = (operandLine kw o true).bytes := rfl
  have hbytes : (operandLine kw o true).bytes = (operandLine kw o true).body ++ '\n' :: [] := rfl
  show readLine ((stateBefore kw o m).sm.getBuffer 1) 0 = _
  rw [hbuf, readLine, List.drop_zero, hbytes, takeLine_append hbody, if_neg (by simp)]
  rfl

theorem trim_ne_nil {o : Text} (h : readIdent o ≠ []) : trim (' ' :: stripCR o) ≠ [] := by
  have h' : readIdent (stripCR o) ≠ [] := by rwa [readIdent_stripCR h]
  obtain ⟨c, cs, heq, hc⟩ := exists_cons_of_readIdent h'
  have hws : isWS c = false := isWS_of_isIdentBody (isIdentBody_of_isIdentStart hc)
  have hkeep : dropEndWhile isWS ([] ++ [c] ++ cs) = _ := dropEndWhile_append_stop hws
  rw [trim, List.dropWhile_cons_of_pos (by decide), heq, List.dropWhile_cons_of_neg (by simp [hws])]
  simp only [List.nil_append, List.singleton_append] at hkeep
  rw [hkeep]
  exact List.cons_ne_nil _ _

section Agree

variable {env : Env} {o : Text}

/-- After `#define o` the macro is defined. -/
theorem defined_after_define (ho : readIdent o ≠ []) {s s₁ : State} {nl : Bool}
    (hat : s.AtLine (operandLine "define".toList o nl)) (he : s.emitting = true)
    (hstep : step env s = some s₁) : s₁.macros.defined (readIdent o) = true := by
  obtain ⟨body, loc, hm⟩ := macros_define ho hat he hstep
  rw [hm, MacroTable.defined_redefine]

/-- After `#undef o` it is not, if only blanks follow the name. -/
theorem not_defined_after_undef (ho : readIdent o ≠ []) (hb : blankTail o = true) {s s₁ : State}
    {nl : Bool} (hat : s.AtLine (operandLine "undef".toList o nl)) (he : s.emitting = true)
    (hstep : step env s = some s₁) : s₁.macros.defined (readIdent o) = false := by
  have hne : o ≠ [] := by
    rintro rfl
    exact ho rfl
  rw [macros_undef hne (trim_ne_nil ho) hat he hstep, (trim_eq_readIdent_iff ho).2 hb,
    MacroTable.defined_undef]

/-- Where only blanks follow, a conditional tests the identifier. -/
theorem selectsAfter_of_blankTail (ho : readIdent o ≠ []) (hb : blankTail o = true) {dir : Text}
    {b : Bool} (hdir : ∀ s s₁ nl, s.AtLine (operandLine dir o nl) → s.emitting = true →
      step env s = some s₁ → s₁.macros.defined (readIdent o) = b) :
    SelectsAfter env dir "ifdef".toList o b ∧ SelectsAfter env dir "ifndef".toList o !b := by
  have hne : o ≠ [] := by
    rintro rfl
    exact ho rfl
  have hname := (trim_eq_readIdent_iff ho).2 hb
  constructor
  · intro s s₁ t t₁ nl nl' hs hes hs₁ heq ht het ht₁
    have hsel := (emitting_ifdef hne (trim_ne_nil ho) ht het ht₁).1
    rw [hname, heq, hdir s s₁ nl hs hes hs₁] at hsel
    exact .inl hsel
  · intro s s₁ t t₁ nl nl' hs hes hs₁ heq ht het ht₁
    have hsel := (emitting_ifndef hne (trim_ne_nil ho) ht het ht₁).1
    rw [hname, heq, hdir s s₁ nl hs hes hs₁] at hsel
    exact .inl hsel

/-- With anything else behind the name `#ifdef` looks up a name that
`#define` has not defined. -/
theorem blankTail_of_selectsAfter (ho : readIdent o ≠ []) (hn : '\n' ∉ o)
    (h : SelectsAfter env "define".toList "ifdef".toList o true) : blankTail o = true := by
  have hne : o ≠ [] := by
    rintro rfl
    exact ho rfl
  by_contra hb
  have hname : trim (' ' :: stripCR o) ≠ readIdent o := fun he =>
    hb ((trim_eq_readIdent_iff ho).1 he)
  have hat := atLine_stateBefore "define".toList [] (by decide) hn
  obtain ⟨s₁, hs₁⟩ := hat.exists_step env
  obtain ⟨body, loc, hm⟩ := macros_define ho hat rfl hs₁
  have hat' := atLine_stateBefore "ifdef".toList s₁.macros (by decide) hn
  obtain ⟨t₁, ht₁⟩ := hat'.exists_step env
  have hsel := emitting_ifdef hne (trim_ne_nil ho) hat' rfl ht₁
  have hundef : s₁.macros.defined (trim (' ' :: stripCR o)) = false := by
    have htable : s₁.macros = [⟨readIdent o, body, loc⟩] := hm
    rw [htable]
    simp [MacroTable.defined, MacroTable.lookup, hname.symm]
  rcases h _ _ (stateBefore _ o s₁.macros) _ true true hat rfl hs₁ rfl hat' rfl ht₁ with hyes | herr | herr
  · have hno : t₁.emitting = false := hsel.1.trans hundef
    rw [hno] at hyes
    exact Bool.false_ne_true hyes
  · exact not_reportsError_define ho hat rfl hs₁ herr
  · exact not_reportsError_of_eq hsel.2 herr

/-- **One name.** The four directives act on the same macro exactly when
nothing but blanks follows the identifier. -/
theorem namesAgree_iff (ho : readIdent o ≠ []) (hn : '\n' ∉ o) :
    NamesAgree env o ↔ blankTail o = true := by
  constructor
  · intro h
    exact blankTail_of_selectsAfter ho hn h.defineIfdef
  · intro hb
    have hdef : SelectsAfter env "define".toList "ifdef".toList o true ∧
        SelectsAfter env "define".toList "ifndef".toList o !true :=
      selectsAfter_of_blankTail ho hb fun s s₁ nl hat he hs => defined_after_define ho hat he hs
    have hundef : SelectsAfter env "undef".toList "ifdef".toList o false ∧
        SelectsAfter env "undef".toList "ifndef".toList o !false :=
      selectsAfter_of_blankTail ho hb fun s s₁ nl hat he hs =>
        not_defined_after_undef ho hb hat he hs
    exact ⟨hdef.1, hdef.2, hundef.1, hundef.2⟩

/-- A guard's name with trailing blanks. -/
theorem namesAgree_guard : NamesAgree bareEnv "GUARD_H  ".toList :=
  (namesAgree_iff (by decide) (by decide)).2 (by decide)

/-- A trailing comment takes the guard apart: `#define` defines `X`,
`#ifdef` looks up `X // c`. -/
theorem not_namesAgree_comment : ¬ NamesAgree bareEnv "X // c".toList := by
  intro h
  exact absurd (blankTail_of_selectsAfter (by decide) (by decide) h.defineIfdef) (by decide)

end Agree

end Preprocess

end Nslc
