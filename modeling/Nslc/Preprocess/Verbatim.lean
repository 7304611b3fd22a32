import Mathlib
import Nslc.Preprocess.Floats
/-!
# Preprocessor — bodies spliced as they stand

`%NAME%` is replaced by the macro's body, unless the splicer takes the
body for one that has to be computed; then the evaluator's value goes in.
The splicer decides by byte patterns (`LooksComputed`), which also match
inside identifiers, sized literals and strings. `pieces` cuts a line as
the splicer reads it, and each reference of a line is replaced by
exactly its body where no pattern matches, and only there.
-/

namespace Nslc

namespace Preprocess

/-! ## What the splicer takes for a computation -/

def isLetter (c : Char) : Bool := ('a' ≤ c && c ≤ 'z') || ('A' ≤ c && c ≤ 'Z')

/-- An optional sign and a digit. -/
def SignedDigit (t : Text) : Prop :=
  ∃ sign c r, t = sign ++ c :: r ∧ (sign = [] ∨ sign = ['+'] ∨ sign = ['-']) ∧ isDigit c = true

/-- One of the splicer's patterns stands somewhere in the body:
underscore, letter, identifier bytes and a parenthesis; digit, dot and
digit; or digit, exponent mark and a digit behind an optional sign. -/
inductive LooksComputed : Text → Prop
  | call (pre : Text) {l : Char} {ids : Text} (suf : Text) : isLetter l = true →
      (∀ c ∈ ids, isIdentBody c = true) → LooksComputed (pre ++ '_' :: l :: (ids ++ '(' :: suf))
  | point (pre : Text) {a b : Char} (suf : Text) : isDigit a = true → isDigit b = true →
      LooksComputed (pre ++ a :: '.' :: b :: suf)
  | exponent (pre : Text) {a m : Char} {t : Text} : isDigit a = true → (m = 'e' ∨ m = 'E') →
      SignedDigit t → LooksComputed (pre ++ a :: m :: t)

theorem parenAhead_iff (t : Text) : parenAhead t = true ↔
    ∃ ids suf, t = ids ++ '(' :: suf ∧ ∀ c ∈ ids, isIdentBody c = true := by
  constructor
  · intro h
    have hhead : (t.dropWhile isIdentBody).head? = some '(' := by simpa [parenAhead] using h
    obtain ⟨suf, hsuf⟩ := List.head?_eq_some_iff.1 hhead
    refine ⟨t.takeWhile isIdentBody, suf, ?_, fun c hc => List.mem_takeWhile_imp hc⟩
    rw [← hsuf, List.takeWhile_append_dropWhile]
  · rintro ⟨ids, suf, rfl, hids⟩
    simp [parenAhead, List.dropWhile_append_of_pos hids, isIdentBody, isIdentStart, isDigit]

theorem exponentAhead_iff (t : Text) : exponentAhead t = true ↔ SignedDigit t := by
  constructor
  · intro h
    cases t with
    | nil => simp [exponentAhead] at h
    | cons c cs =>
      simp only [exponentAhead] at h
      split_ifs at h with hsign
      · cases cs with
        | nil => simp at h
        | cons d ds => exact ⟨[c], d, ds, rfl, by rcases hsign with rfl | rfl <;> simp, by simpa using h⟩
      · exact ⟨[], c, cs, rfl, .inl rfl, h⟩
  · rintro ⟨sign, c, r, rfl, rfl | rfl | rfl, hc⟩
    · have hsign : ¬ (c = '+' ∨ c = '-') := by
        rintro (rfl | rfl) <;> exact absurd hc (by decide)
      simp [exponentAhead, hsign, hc]
    · simp [exponentAhead, hc]
    · simp [exponentAhead, hc]

/-- A pattern that begins with the first byte. -/
def patternHere (a b : Char) (rest : Text) : Bool :=
  (a == '_' && isLetter b && parenAhead (b :: rest)) ||
  (isDigit a && b == '.' && (rest.head?.map isDigit).getD false) ||
  (isDigit a && (b == 'e' || b == 'E') && exponentAhead rest)

theorem needsReduction_cons (a b : Char) (rest : Text) :
    needsReduction (a :: b :: rest) = (patternHere a b rest || needsReduction (b :: rest)) := rfl

theorem LooksComputed.cons {t : Text} (h : LooksComputed t) (a : Char) : LooksComputed (a :: t) := by
  cases h with
  | call pre suf hl hids => exact .call (a :: pre) suf hl hids
  | point pre suf ha hb => exact .point (a :: pre) suf ha hb
  | exponent pre ha hm ht => exact .exponent (a :: pre) ha hm ht

theorem looksComputed_of_patternHere {a b : Char} {rest : Text}
    (h : patternHere a b rest = true) : LooksComputed (a :: b :: rest) := by
  simp only [patternHere, Bool.or_eq_true, Bool.and_eq_true, beq_iff_eq] at h
  rcases h with (⟨⟨rfl, hb⟩, hparen⟩ | ⟨⟨ha, rfl⟩, hd⟩) | ⟨⟨ha, hm⟩, hexp⟩
  · obtain ⟨ids, suf, heq, hids⟩ := (parenAhead_iff _).1 hparen
    cases ids with
    | nil =>
      obtain ⟨rfl, -⟩ := List.cons.inj heq
      exact absurd hb (by decide)
    | cons c ids =>
      obtain ⟨rfl, rfl⟩ := List.cons.inj heq
      exact .call [] suf hb fun c hc => hids c (by simp [hc])
  · cases rest with
    | nil => simp at hd
    | cons c cs => exact .point [] cs ha (by simpa using hd)
  · exact .exponent [] ha hm ((exponentAhead_iff _).1 hexp)

/-- Behind the first byte, or a pattern that begins with it. -/
theorem LooksComputed.cons_cases {a : Char} {t : Text} (h : LooksComputed (a :: t)) :
    LooksComputed t ∨ ∃ b rest, t = b :: rest ∧ patternHere a b rest = true := by
  generalize heq : a :: t = u at h
  cases h with
  | @call pre l ids suf hl hids =>
    cases pre with
    | nil =>
      obtain ⟨rfl, rfl⟩ := List.cons.inj heq
      refine .inr ⟨l, _, rfl, ?_⟩
      have hparen : parenAhead (l :: (ids ++ '(' :: suf)) = true := by
        refine (parenAhead_iff _).2 ⟨l :: ids, suf, rfl, ?_⟩
        intro c hc
        rcases List.mem_cons.1 hc with rfl | hc
        · simp only [isLetter, Bool.or_eq_true] at hl
          simp only [isIdentBody, isIdentStart, Bool.or_eq_true]
          tauto
        · exact hids c hc
      simp [patternHere, hl, hparen]
    | cons c pre =>
      obtain ⟨rfl, rfl⟩ := List.cons.inj heq
      exact .inl (.call pre suf hl hids)
  | @point pre x y suf hx hy =>
    cases pre with
    | nil =>
      obtain ⟨rfl, rfl⟩ := List.cons.inj heq
      exact .inr ⟨'.', _, rfl, by simp [patternHere, hx, hy]⟩
    | cons c pre =>
      obtain ⟨rfl, rfl⟩ := List.cons.inj heq
      exact .inl (.point pre suf hx hy)
  | @exponent pre x m r hx hm hr =>
    cases pre with
    | nil =>
      obtain ⟨rfl, rfl⟩ := List.cons.inj heq
      exact .inr ⟨m, _, rfl, by simp [patternHere, hx, hm, (exponentAhead_iff _).2 hr]⟩
    | cons c pre =>
      obtain ⟨rfl, rfl⟩ := List.cons.inj heq
      exact .inl (.exponent pre hx hm hr)

theorem not_looksComputed_nil : ¬ LooksComputed [] := by
  intro h
  generalize heq : ([] : Text) = u at h
  cases h <;> simp at heq

/-- **The splicer's test is the three patterns.** -/
theorem needsReduction_iff (t : Text) : needsReduction t = true ↔ LooksComputed t := by
  induction t with
  | nil => simp [needsReduction, not_looksComputed_nil]
  | cons a t ih =>
    cases t with
    | nil =>
      refine ⟨fun h => by simp [needsReduction] at h, fun h => ?_⟩
      rcases h.cons_cases with h | ⟨b, rest, h, -⟩
      · exact absurd h not_looksComputed_nil
      · cases h
    | cons b rest =>
      rw [needsReduction_cons, Bool.or_eq_true, ih]
      constructor
      · rintro (h | h)
        · exact looksComputed_of_patternHere h
        · exact h.cons a
      · intro h
        rcases h.cons_cases with h | ⟨b', rest', heq, h⟩
        · exact .inr h
        · obtain ⟨rfl, rfl⟩ := List.cons.inj heq
          exact .inl h

/-! ## The pieces of a line -/

/-- What the splicer copies, and the references it replaces, each with
the position of its opening `%`. -/
inductive Piece where
  | copied (t : Text)
  | ref (pos : ℕ) (name : Text)
  deriving DecidableEq, Repr

def piecesUpto : ℕ → ℕ → Text → List Piece
  | 0, _, _ => []
  | _ + 1, _, [] => []
  | fuel + 1, pos, c :: cs =>
    if c = '"' then
      let s := takeString cs
      .copied (c :: s.1) :: piecesUpto fuel (pos + (1 + s.1.length)) s.2
    else if c = '/' ∧ cs.head? = some '/' then [.copied (c :: cs)]
    else if c = '/' ∧ cs.head? = some '*' then
      let b := takeBlock cs.tail
      if b.closed then
        .copied ('/' :: '*' :: b.copied) :: piecesUpto fuel (pos + (2 + b.copied.length)) b.rest
      else [.copied ('/' :: '*' :: b.copied ++ b.rest)]
    else if c = '%' then
      let name := cs.takeWhile isIdentBody
      let after := cs.dropWhile isIdentBody
      if name ≠ [] ∧ after.head? = some '%' then
        .ref pos name :: piecesUpto fuel (pos + (name.length + 2)) after.tail
      else .copied [c] :: piecesUpto fuel (pos + 1) cs
    else .copied [c] :: piecesUpto fuel (pos + 1) cs

/-- A passthrough line as the splicer reads it. -/
def pieces (line : Text) : List Piece := piecesUpto (line.length + 1) 0 line

section Splicing

variable (E : PPExpression) (macros : MacroTable) (loc : SourceLocation)

/-- What a piece becomes, and what is reported on the way. -/
def Piece.spliced : Piece → Text × List Diag
  | .copied t => (t, [])
  | .ref pos name => spliceRef E macros loc pos name

def splicedText (ps : List Piece) : Text := ps.flatMap fun p => (p.spliced E macros loc).1

def splicedReports (ps : List Piece) : List Diag := ps.flatMap fun p => (p.spliced E macros loc).2

theorem spliceUpto_eq_pieces (fuel : ℕ) : ∀ (pos : ℕ) (t : Text),
    spliceUpto E macros loc fuel pos t =
      (splicedText E macros loc (piecesUpto fuel pos t),
        splicedReports E macros loc (piecesUpto fuel pos t)) := by
  induction fuel with
  | zero =>
    intro pos t
    rfl
  | succ fuel ih =>
    intro pos t
    cases t with
    | nil => rfl
    | cons c cs =>
      simp only [spliceUpto, piecesUpto, ih]
      split_ifs <;>
        simp only [splicedText, splicedReports, Piece.spliced, List.flatMap_cons, List.flatMap_nil,
          List.append_nil, List.nil_append]

theorem splice_eq_pieces (line : Text) :
    splice E macros line loc =
      (splicedText E macros loc (pieces line), splicedReports E macros loc (pieces line)) :=
  spliceUpto_eq_pieces E macros loc (line.length + 1) 0 line

/-- The reference between `ps` and `qs` is replaced by `body`, nothing
reported. -/
def ReplacedBy (line : Text) (ps qs : List Piece) (body : Text) : Prop :=
  splice E macros line loc =
    (splicedText E macros loc ps ++ (body ++ splicedText E macros loc qs),
      splicedReports E macros loc ps ++ splicedReports E macros loc qs)

theorem replacedBy_iff {line : Text} {ps qs : List Piece} {pos : ℕ} {name body : Text}
    (hline : pieces line = ps ++ .ref pos name :: qs) :
    ReplacedBy E macros loc line ps qs body ↔ spliceRef E macros loc pos name = (body, []) := by
  have hsplice := splice_eq_pieces E macros loc line
  simp only [hline, splicedText, splicedReports, List.flatMap_append, List.flatMap_cons,
    Piece.spliced] at hsplice
  rw [ReplacedBy, hsplice, Prod.ext_iff, Prod.ext_iff]
  refine and_congr ?_ ?_
  · constructor
    · intro h
      exact List.append_cancel_right (List.append_cancel_left h)
    · rintro h
      simp only at h ⊢
      rw [h]
      rfl
  · constructor
    · intro h
      have := List.append_cancel_left h
      exact List.append_left_eq_self.1 this
    · intro h
      simp only at h ⊢
      rw [h]
      rfl

end Splicing

/-! ## The evaluator's answers -/

/-- What the evaluator's values look like in the output, and when it has
none: a rendered value that matches one of the splicer's patterns is
written with a float literal (an integer is rendered as decimal digits,
a real with `%.17Lg` and a `.0` where that leaves neither dot nor
exponent), and only a blank body has no value. -/
structure RendersValues (E : PPExpression) : Prop where
  float_of_looksComputed : ∀ v, LooksComputed (E.render v) →
    Crosses FloatLiteral .code (E.render v)
  blank_of_none : ∀ macros body, (E.reduceDefineBody macros body).1 = none →
    ∀ c ∈ body, isWS c = true ∨ c = '\r' ∨ c = '\n'

theorem LooksComputed.not_blank {t : Text} (h : LooksComputed t)
    (hblank : ∀ c ∈ t, isWS c = true ∨ c = '\r' ∨ c = '\n') : False := by
  have hdigit : ∀ c : Char, isDigit c = true → isWS c = true ∨ c = '\r' ∨ c = '\n' → False := by
    rintro c hc (hw | rfl | rfl)
    · simp only [isWS, Bool.or_eq_true, beq_iff_eq] at hw
      rcases hw with rfl | rfl <;> exact absurd hc (by decide)
    · exact absurd hc (by decide)
    · exact absurd hc (by decide)
  cases h with
  | call pre suf hl hids => simpa [isWS] using hblank '_' (by simp)
  | point pre suf ha hb => exact hdigit _ ha (hblank _ (by simp))
  | exponent pre ha hm ht => exact hdigit _ ha (hblank _ (by simp))

variable {E : PPExpression} {macros : MacroTable} {loc : SourceLocation}

/-- A body without float literals goes in unchanged exactly where no
pattern matches. -/
theorem spliceBody_verbatim_iff (hE : RendersValues E) {d : MacroDef}
    (hfloat : ¬ Crosses FloatLiteral .code d.body) :
    spliceBody E macros d = (d.body, []) ↔ ¬ LooksComputed d.body := by
  rw [← needsReduction_iff]
  constructor
  · intro h hred
    rw [spliceBody, if_pos hred] at h
    have hlooks := (needsReduction_iff _).1 hred
    cases hval : E.reduceDefineBody macros d.body with
    | mk v fs =>
      cases v with
      | none => exact hlooks.not_blank (hE.blank_of_none macros d.body (by rw [hval]))
      | some v =>
        rw [hval] at h
        have hrender : E.render v = d.body := congrArg Prod.fst h
        rw [← hrender] at hlooks hfloat
        exact hfloat (hE.float_of_looksComputed v hlooks)
  · intro h
    rw [spliceBody, if_neg h]

/-- **Splicing as it stands.** On every line, a reference to a macro
whose body holds no float literal is replaced by exactly the body, and
nothing is reported for it, if and only if no pattern of the splicer's
matches in the body. -/
theorem replacedBy_body_iff (hE : RendersValues E) {line name : Text} {ps qs : List Piece}
    {pos : ℕ} (hline : pieces line = ps ++ .ref pos name :: qs) {d : MacroDef}
    (hdef : macros.lookup name = some d) (hfloat : ¬ Crosses FloatLiteral .code d.body) :
    ReplacedBy E macros loc line ps qs d.body ↔ ¬ LooksComputed d.body := by
  rw [replacedBy_iff E macros loc hline, spliceRef, hdef]
  exact spliceBody_verbatim_iff hE hfloat

/-- The evaluator on texts that begin with a name no macro has: the
value is `0`, the name is reported and so is anything behind it. -/
def unknownNames : PPExpression where
  Value := Unit
  isTruthy _ := false
  render _ := ['0']
  parse _ t := ((), [⟨.error, 0, t.takeWhile isIdentBody⟩])
  reduceDefineBody _ t :=
    if t.all fun c => isWS c || c == '\r' || c == '\n' then (none, [])
    else
      (some (),
        ⟨.error, 0, "undefined macro '".toList ++ t.takeWhile isIdentBody ++
          "' in compile-time expression".toList⟩ ::
        if t.dropWhile isIdentBody = [] then []
        else
          [⟨.error, (t.takeWhile isIdentBody).length,
            "unexpected trailing characters in compile-time expression".toList⟩])

theorem rendersValues_unknownNames : RendersValues unknownNames := by
  refine ⟨fun v h => ?_, fun macros body h c hc => ?_⟩
  · have hzero : needsReduction ['0'] = true := (needsReduction_iff _).2 h
    exact absurd hzero (by decide)
  · simp only [unknownNames] at h
    split_ifs at h with hall
    simpa [or_assoc] using List.all_eq_true.1 hall c hc

theorem not_crosses_of_no_digit {t : Text} (h : t.any isDigit = false) :
    ¬ Crosses FloatLiteral .code t := by
  rintro ⟨pre, lit, suf, rfl, hlit, -⟩
  have hdigits : ∀ d, DecimalDigits d → ∃ c ∈ d, isDigit c = true := by
    rintro d ⟨c, cs, rfl, hc, -⟩
    exact ⟨c, by simp, hc⟩
  obtain ⟨c, hc, hd⟩ : ∃ c ∈ lit, isDigit c = true := by
    cases hlit with
    | point hd _ _ =>
      obtain ⟨c, hc, hdig⟩ := hdigits _ hd
      exact ⟨c, by simp [hc], hdig⟩
    | leadingPoint hf _ =>
      obtain ⟨c, hc, hdig⟩ := hdigits _ hf
      exact ⟨c, by simp [hc], hdig⟩
    | exponent hd _ =>
      obtain ⟨c, hc, hdig⟩ := hdigits _ hd
      exact ⟨c, by simp [hc], hdig⟩
  have hany : (pre ++ (lit ++ suf)).any isDigit = true :=
    List.any_eq_true.2 ⟨c, by simp [hc], hd⟩
  rw [h] at hany
  cases hany

/-- A macro that names a signal. -/
def signalMacro : MacroDef := ⟨"ID".toList, "my_reg".toList, none⟩

theorem replacedBy_body_iff_signalMacro :
    ReplacedBy unknownNames [signalMacro] ⟨1, 2, 0⟩ "r:=%ID%;".toList
      [.copied ['r'], .copied [':'], .copied ['=']] [.copied [';']] signalMacro.body := by
  have hline : pieces "r:=%ID%;".toList =
      [.copied ['r'], .copied [':'], .copied ['=']] ++ .ref 3 "ID".toList :: [.copied [';']] := by
    decide
  have hdef : MacroTable.lookup [signalMacro] "ID".toList = some signalMacro := by decide
  refine (replacedBy_body_iff rendersValues_unknownNames hline hdef
    (not_crosses_of_no_digit (by decide +kernel))).2 fun h => ?_
  exact absurd ((needsReduction_iff _).2 h) (by decide)

/-- A body that computes nothing: no helper is called in it, no float
literal and no macro reference stands in it. -/
structure PlainBody (macros : MacroTable) (body : Text) : Prop where
  noCall : ∀ i < body.length, afterIdent (body.take i).getLast? = false →
    lookupHelper ((body.drop i).takeWhile isIdentBody) = true →
      ((body.drop i).dropWhile isIdentBody).head? ≠ some '('
  noFloat : ¬ Crosses FloatLiteral .code body
  noPercent : '%' ∉ body
  noMacro : ∀ i < body.length, afterIdent (body.take i).getLast? = false →
    macros.defined ((body.drop i).takeWhile isIdentBody) = false

/-- A macro that calls the design's own `sub_calc`. -/
def callMacro : MacroDef := ⟨"F".toList, "sub_calc(a)".toList, none⟩

/-- The call is evaluated: `0` goes in. -/
theorem not_replacedBy_callMacro :
    PlainBody [callMacro] callMacro.body ∧
      pieces "x=%F%;".toList =
        [.copied ['x'], .copied ['=']] ++ .ref 2 "F".toList :: [.copied [';']] ∧
      MacroTable.lookup [callMacro] "F".toList = some callMacro ∧
      ¬ ReplacedBy unknownNames [callMacro] ⟨1, 2, 0⟩ "x=%F%;".toList
        [.copied ['x'], .copied ['=']] [.copied [';']] callMacro.body ∧
      (splice unknownNames [callMacro] "x=%F%;".toList ⟨1, 2, 0⟩).1 = "x=0;".toList := by
  have hline : pieces "x=%F%;".toList =
      [.copied ['x'], .copied ['=']] ++ .ref 2 "F".toList :: [.copied [';']] := by
    decide
  have hplain : PlainBody [callMacro] callMacro.body :=
    ⟨by decide +kernel, not_crosses_of_no_digit (by decide +kernel), by decide, by decide +kernel⟩
  refine ⟨hplain, hline, by decide, fun h => ?_, by decide +kernel⟩
  have hbody := congrArg Prod.fst ((replacedBy_iff _ _ _ hline).1 h)
  exact absurd hbody (by decide +kernel)

end Preprocess

end Nslc
