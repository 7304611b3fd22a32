import Nslc.Common.Variants
import Nslc.Preprocess.References
/-!
# Preprocessor — lines that differ in their comments

A passthrough line and the same line with its comments replaced, side by
side through the splicer and the two seam scans: all three cut strings
and comments off alike, so they report the same and copy what they copy
alike. What a reference is replaced by must leave the delimiting alone,
since the scans read the line it is spliced into.
-/

namespace Nslc

namespace Preprocess

/-! ## One cut of a pair -/

section Cut

variable {c : Char} {cs cs' : Text}

/-- What one iteration of a scan finds on two lines that begin with `c`. -/
structure PairStep (c : Char) (cs cs' : Text) : Prop where
  string : c = '"' → (takeString cs').1 = (takeString cs).1 ∧
    Recommented .code .code (takeString cs).2 (takeString cs').2
  line_iff : (c = '/' ∧ cs'.head? = some '/') ↔ (c = '/' ∧ cs.head? = some '/')
  block_iff : (c = '/' ∧ cs'.head? = some '*') ↔ (c = '/' ∧ cs.head? = some '*')
  block : c = '/' → cs.head? = some '*' →
    (takeBlock cs'.tail).closed = (takeBlock cs.tail).closed ∧
      (takeBlock cs'.tail).copied.length = (takeBlock cs.tail).copied.length ∧
      ((takeBlock cs.tail).closed = true →
        Recommented .code .code (takeBlock cs.tail).rest (takeBlock cs'.tail).rest)
  code : c ≠ '"' → ¬ (c = '/' ∧ cs.head? = some '/') → ¬ (c = '/' ∧ cs.head? = some '*') →
    Recommented .code .code cs cs'

theorem pairStep {t' : Text} (h : Recommented .code .code (c :: cs) t') (hnl : '\n' ∉ c :: cs) :
    ∃ cs', t' = c :: cs' ∧ PairStep c cs cs' := by
  obtain ⟨cs', rfl, hrest⟩ := h.cons_outside rfl
  have hopens : c = '/' → cs'.head? = cs.head? := by
    rintro rfl
    exact hrest.head?_eq rfl
  refine ⟨cs', rfl, ⟨?_, ?_, ?_, ?_, ?_⟩⟩
  · rintro rfl
    exact hrest.takeString fun hmem => hnl (List.mem_cons_of_mem _ hmem)
  · exact and_congr_right fun hc => by rw [hopens hc]
  · exact and_congr_right fun hc => by rw [hopens hc]
  · rintro rfl hstar
    cases cs with
    | nil => cases hstar
    | cons d ds =>
      obtain rfl : d = '*' := by simpa using hstar
      obtain ⟨ds', rfl, hblock⟩ := hrest.cons_outside rfl
      exact hblock.takeBlock (.inl rfl) (.inl rfl)
  · intro hq hline hblock
    by_cases hs : c = '/'
    · subst hs
      exact hrest.of_slash (fun he => hline ⟨rfl, he⟩) (fun he => hblock ⟨rfl, he⟩)
    · have hnext : Region.code.next c = .code := by simp [Region.next, hq, hs]
      rw [hnext] at hrest
      exact hrest

end Cut

theorem next_of_isIdentBody (c : Char) (h : isIdentBody c = true) : Region.code.next c = .code := by
  have hq : c ≠ '"' := by
    rintro rfl
    exact absurd h (by decide)
  have hs : c ≠ '/' := by
    rintro rfl
    exact absurd h (by decide)
  simp [Region.next, hq, hs]

theorem next_of_isDigit (c : Char) (h : isDigit c = true) : Region.code.next c = .code :=
  next_of_isIdentBody c (isIdentBody_of_isDigit h)

theorem next_of_isWS (c : Char) (h : isWS c = true) : Region.code.next c = .code := by
  simp only [isWS, Bool.or_eq_true, beq_iff_eq] at h
  rcases h with rfl | rfl
  · rfl
  · rfl

theorem notMem_of_append_right {a b : Text} (h : '\n' ∉ a ++ b) : '\n' ∉ b :=
  fun hmem => h (List.mem_append_right _ hmem)

theorem newline_cut {c : Char} {a b cs : Text} (h : a ++ b = cs) (hnl : '\n' ∉ c :: cs) :
    '\n' ∉ c :: a := by
  subst h
  exact fun hmem => hnl (List.mem_append_left b hmem)

theorem eq_cons_of_head? {c : Char} {t : Text} (h : t.head? = some c) : ∃ u, t = c :: u := by
  cases t with
  | nil => cases h
  | cons d u => exact ⟨u, by rw [Option.some.inj h]⟩

/-- The rests of the cuts hold no newline either. -/
theorem newline_takeString {t : Text} (h : '\n' ∉ t) : '\n' ∉ (takeString t).2 := by
  rw [← takeString_append t] at h
  exact notMem_of_append_right h

theorem newline_takeBlock {t : Text} (h : '\n' ∉ t) : '\n' ∉ (takeBlock t).rest := by
  rw [← takeBlock_append t] at h
  exact notMem_of_append_right h

theorem newline_dropWhile {p : Char → Bool} {t : Text} (h : '\n' ∉ t) : '\n' ∉ t.dropWhile p :=
  fun hmem => h ((List.dropWhile_sublist p).subset hmem)

theorem newline_tail {t : Text} (h : '\n' ∉ t) : '\n' ∉ t.tail :=
  fun hmem => h (List.mem_of_mem_tail hmem)

/-! ## The helper scan -/

section Scans

variable {loc : SourceLocation}

/-- A closed comment ends in a slash. -/
theorem getLast?_takeBlock {t : Text} (h : (takeBlock t).closed = true) :
    ('*' :: (takeBlock t).copied).getLast? = some '/' := by
  obtain ⟨body, -, heq⟩ := takeBlock_of_closed h
  rw [heq, ← List.cons_append, List.getLast?_append_of_ne_nil _ (by simp)]
  rfl

/-- One byte alone is no call. -/
theorem scanForHelperUpto_short (fuel pos : ℕ) (prev : Option Char) {t : Text}
    (h : t.length ≤ 1) : scanForHelperUpto loc fuel pos prev t = [] := by
  cases fuel with
  | zero => rfl
  | succ fuel =>
    cases t with
    | nil => rfl
    | cons c cs =>
      obtain rfl : cs = [] := List.eq_nil_of_length_eq_zero (by simpa using h)
      cases fuel <;> simp [scanForHelperUpto, takeString]

theorem scanForHelperUpto_pair (fuel : ℕ) :
    ∀ (pos : ℕ) (prev : Option Char) {t t' : Text}, Recommented .code .code t t' → '\n' ∉ t →
      scanForHelperUpto loc fuel pos prev t' = scanForHelperUpto loc fuel pos prev t := by
  induction fuel with
  | zero => exact fun _ _ _ _ _ _ => rfl
  | succ fuel ih =>
    intro pos prev t t' h hnl
    cases t with
    | nil => rw [h.eq_nil]
    | cons c cs =>
      obtain ⟨cs', rfl, hstep⟩ := pairStep h hnl
      have hnl' : '\n' ∉ cs := newline_tail hnl
      unfold scanForHelperUpto
      by_cases hq : c = '"'
      · obtain ⟨hs, hrest⟩ := hstep.string hq
        simp only [if_pos hq, hs]
        exact ih _ _ hrest (newline_takeString hnl')
      · simp only [if_neg hq, hstep.line_iff, hstep.block_iff]
        by_cases hline : c = '/' ∧ cs.head? = some '/'
        · rw [if_pos hline, if_pos hline]
        · by_cases hblock : c = '/' ∧ cs.head? = some '*'
          · obtain ⟨hclosed, hlen, hrest⟩ := hstep.block hblock.1 hblock.2
            simp only [if_neg hline, if_pos hblock, hlen]
            cases hcl : (takeBlock cs.tail).closed with
            | true =>
              rw [getLast?_takeBlock hcl, getLast?_takeBlock (hclosed.trans hcl)]
              exact ih _ _ (hrest hcl) (newline_takeBlock (newline_tail hnl'))
            | false =>
              rw [scanForHelperUpto_short _ _ _ (takeBlock_of_open hcl).2,
                scanForHelperUpto_short _ _ _ (takeBlock_of_open (hclosed.trans hcl)).2]
          · have hcode := hstep.code hq hline hblock
            obtain ⟨htake, hdrop⟩ := hcode.takeWhile next_of_isIdentBody
            have hparen : ((cs'.dropWhile isIdentBody).dropWhile isWS).head? =
                ((cs.dropWhile isIdentBody).dropWhile isWS).head? :=
              (hdrop.takeWhile next_of_isWS).2.head?_eq rfl
            simp only [if_neg hline, if_neg hblock, htake, hparen,
              ih _ _ hdrop (newline_dropWhile hnl'), ih _ _ hcode hnl']

/-! ## The float scan -/

/-- What a number cut finds on two lines. -/
structure SameNumber (n n' : NumberCut) : Prop where
  isFloat : n'.isFloat = n.isFloat
  taken : n'.taken = n.taken
  rest : Recommented .code .code n.rest n'.rest

theorem takeFraction_pair {t t' : Text} (h : Recommented .code .code t t') :
    SameNumber (takeFraction t) (takeFraction t') := by
  cases t with
  | nil =>
    rw [h.eq_nil]
    exact ⟨rfl, rfl, rfl⟩
  | cons c cs =>
    obtain ⟨cs', rfl, hrest⟩ := h.cons_outside rfl
    by_cases hc : c = '.'
    · subst hc
      have hrest' : Recommented .code .code cs cs' := hrest
      rw [takeFraction, takeFraction, hrest'.head?_eq rfl]
      split
      · obtain ⟨htake, hdrop⟩ := hrest'.takeWhile next_of_isDigit
        exact ⟨rfl, by rw [htake], hdrop⟩
      · exact ⟨rfl, rfl, h⟩
    · rw [takeFraction, takeFraction, if_neg fun hp => hc hp.1, if_neg fun hp => hc hp.1]
      exact ⟨rfl, rfl, h⟩

/-- An optional sign is the same, and leads on in code. -/
theorem takeSign_pair {t t' : Text} (h : Recommented .code .code t t') :
    takeSign t' = takeSign t ∧
      Recommented .code .code (t.drop (takeSign t).length) (t'.drop (takeSign t).length) := by
  cases t with
  | nil =>
    rw [h.eq_nil]
    exact ⟨rfl, rfl⟩
  | cons c cs =>
    obtain ⟨cs', rfl, hrest⟩ := h.cons_outside rfl
    rw [takeSign, takeSign]
    split
    · next hsign =>
      refine ⟨rfl, ?_⟩
      rcases hsign with rfl | rfl
      · exact hrest
      · exact hrest
    · exact ⟨rfl, h⟩

theorem takeExponent_pair {t t' : Text} (h : Recommented .code .code t t') :
    SameNumber (takeExponent t) (takeExponent t') := by
  cases t with
  | nil =>
    rw [h.eq_nil]
    exact ⟨rfl, rfl, rfl⟩
  | cons c cs =>
    obtain ⟨cs', rfl, hrest⟩ := h.cons_outside rfl
    by_cases hc : c = 'e' ∨ c = 'E'
    · have hrest' : Recommented .code .code cs cs' := by
        rcases hc with rfl | rfl
        · exact hrest
        · exact hrest
      obtain ⟨hsign, hdigits⟩ := takeSign_pair hrest'
      rw [takeExponent, takeExponent, hsign, hdigits.head?_eq rfl]
      split
      · obtain ⟨htake, hdrop⟩ := hdigits.takeWhile next_of_isDigit
        exact ⟨rfl, by rw [htake], hdrop⟩
      · exact ⟨rfl, rfl, h⟩
    · rw [takeExponent, takeExponent, if_neg fun hp => hc hp.1, if_neg fun hp => hc hp.1]
      exact ⟨rfl, rfl, h⟩

theorem takeNumber_pair {t t' : Text} (h : Recommented .code .code t t') :
    SameNumber (takeNumber t) (takeNumber t') := by
  obtain ⟨hdigits, hdrop⟩ := h.takeWhile next_of_isDigit
  have hfraction := takeFraction_pair hdrop
  have hexponent := takeExponent_pair hfraction.rest
  refine ⟨?_, ?_, hexponent.rest⟩
  · simp only [takeNumber, hfraction.isFloat, hexponent.isFloat]
  · simp only [takeNumber, hdigits, hfraction.taken, hexponent.taken]

theorem takeFraction_rest_suffix (t : Text) : (takeFraction t).rest <:+ t := by
  unfold takeFraction
  split
  · exact List.suffix_rfl
  · split
    · exact (List.dropWhile_suffix _).trans (List.suffix_cons _ _)
    · exact List.suffix_rfl

theorem takeExponent_rest_suffix (t : Text) : (takeExponent t).rest <:+ t := by
  cases t with
  | nil => exact List.suffix_rfl
  | cons c cs =>
    simp only [takeExponent]
    split
    · exact (List.dropWhile_suffix _).trans ((List.drop_suffix _ _).trans (List.suffix_cons _ _))
    · exact List.suffix_rfl

theorem newline_takeNumber {t : Text} (h : '\n' ∉ t) : '\n' ∉ (takeNumber t).rest := by
  have hsuffix : (takeNumber t).rest <:+ t :=
    (takeExponent_rest_suffix _).trans
      ((takeFraction_rest_suffix _).trans (List.dropWhile_suffix _))
  exact fun hmem => h (hsuffix.subset hmem)

/-- One byte alone is no float. -/
theorem scanForFloatUpto_short (fuel pos : ℕ) (prev : Option Char) {t : Text}
    (h : t.length ≤ 1) : scanForFloatUpto loc fuel pos prev t = [] := by
  cases fuel with
  | zero => rfl
  | succ fuel =>
    cases t with
    | nil => rfl
    | cons c cs =>
      obtain rfl : cs = [] := List.eq_nil_of_length_eq_zero (by simpa using h)
      have hnumber : isDigit c = true → takeNumber [c] = ⟨false, [c], []⟩ := by
        intro hc
        simp [takeNumber, takeFraction, takeExponent, hc]
      by_cases hc : isDigit c = true
      · cases fuel <;> simp [scanForFloatUpto, takeString, hnumber hc]
      · cases fuel <;> simp [scanForFloatUpto, takeString, hc]

theorem scanForFloatUpto_pair (fuel : ℕ) :
    ∀ (pos : ℕ) (prev : Option Char) {t t' : Text}, Recommented .code .code t t' → '\n' ∉ t →
      scanForFloatUpto loc fuel pos prev t' = scanForFloatUpto loc fuel pos prev t := by
  induction fuel with
  | zero => exact fun _ _ _ _ _ _ => rfl
  | succ fuel ih =>
    intro pos prev t t' h hnl
    cases t with
    | nil => rw [h.eq_nil]
    | cons c cs =>
      obtain ⟨cs', rfl, hstep⟩ := pairStep h hnl
      have hnl' : '\n' ∉ cs := newline_tail hnl
      unfold scanForFloatUpto
      by_cases hq : c = '"'
      · obtain ⟨hs, hrest⟩ := hstep.string hq
        simp only [if_pos hq, hs]
        exact ih _ _ hrest (newline_takeString hnl')
      · simp only [if_neg hq, hstep.line_iff, hstep.block_iff]
        by_cases hline : c = '/' ∧ cs.head? = some '/'
        · rw [if_pos hline, if_pos hline]
        · by_cases hblock : c = '/' ∧ cs.head? = some '*'
          · obtain ⟨hclosed, hlen, hrest⟩ := hstep.block hblock.1 hblock.2
            simp only [if_neg hline, if_pos hblock, hlen]
            cases hcl : (takeBlock cs.tail).closed with
            | true =>
              rw [getLast?_takeBlock hcl, getLast?_takeBlock (hclosed.trans hcl)]
              exact ih _ _ (hrest hcl) (newline_takeBlock (newline_tail hnl'))
            | false =>
              rw [scanForFloatUpto_short _ _ _ (takeBlock_of_open hcl).2,
                scanForFloatUpto_short _ _ _ (takeBlock_of_open (hclosed.trans hcl)).2]
          · have hcode := hstep.code hq hline hblock
            have hnumber := takeNumber_pair h
            simp only [if_neg hline, if_neg hblock, hnumber.isFloat, hnumber.taken,
              ih _ _ hnumber.rest (newline_takeNumber hnl), ih _ _ hcode hnl']

end Scans

/-! ## The splicer -/

/-- A text that leaves the delimiting as it is where it is spliced into
code. -/
def plainText (m : Text) : Bool := !m.contains '\n' && decide (Region.code.scan m = .code)

/-- Every reference the splicer finds is replaced by a plain text and
does not stand directly behind a `/`; the flag says that the text does. -/
def plainRefsUpto (E : PPExpression) (macros : MacroTable) : ℕ → Bool → Text → Bool
  | 0, _, _ => true
  | _ + 1, _, [] => true
  | fuel + 1, afterSlash, c :: cs =>
    if c = '"' then plainRefsUpto E macros fuel false (takeString cs).2
    else if c = '/' ∧ cs.head? = some '/' then true
    else if c = '/' ∧ cs.head? = some '*' then
      let b := takeBlock cs.tail
      if b.closed then plainRefsUpto E macros fuel false b.rest else true
    else if c = '%' then
      let name := cs.takeWhile isIdentBody
      let after := cs.dropWhile isIdentBody
      if name ≠ [] ∧ after.head? = some '%' then
        !afterSlash && plainText (replacement E macros name) &&
          plainRefsUpto E macros fuel false after.tail
      else plainRefsUpto E macros fuel false cs
    else plainRefsUpto E macros fuel (c == '/') cs

def plainRefs (E : PPExpression) (macros : MacroTable) (line : Text) : Bool :=
  plainRefsUpto E macros (line.length + 1) false line

theorem spliceRef_fst (E : PPExpression) (macros : MacroTable) (loc : SourceLocation) (pos : ℕ)
    (name : Text) : (spliceRef E macros loc pos name).1 = replacement E macros name := by
  unfold spliceRef replacement
  cases macros.lookup name <;> rfl

/-- What splicing a pair of lines gives. -/
structure SplicedPair (r r' : Text × List Diag) : Prop where
  reports : r'.2 = r.2
  text : Recommented .code .code r.1 r'.1
  newline : '\n' ∉ r.1

section Splicer

variable {E : PPExpression} {macros : MacroTable} {loc : SourceLocation}

theorem spliceUpto_nil (fuel pos : ℕ) : spliceUpto E macros loc fuel pos [] = ([], []) := by
  cases fuel <;> rfl

/-- Directly behind a `/` the splicer copies the next byte. -/
theorem spliceUpto_head {fuel : ℕ} {t : Text} (h : plainRefsUpto E macros fuel true t = true)
    (pos : ℕ) : (spliceUpto E macros loc fuel pos t).1.head? = none ∨
      (spliceUpto E macros loc fuel pos t).1.head? = t.head? := by
  cases fuel with
  | zero => exact .inl rfl
  | succ fuel =>
    cases t with
    | nil => exact .inl rfl
    | cons c cs =>
      refine .inr ?_
      simp only [spliceUpto]
      simp only [plainRefsUpto, Bool.not_true, Bool.false_and] at h
      split_ifs at h ⊢ with hq hline hblock hclosed hpercent href
      · rfl
      · rfl
      · rw [hblock.1]
        rfl
      · rw [hblock.1]
        rfl
      · rfl
      · rfl

/-- A piece that both lines have in front of what is spliced behind it. -/
theorem SplicedPair.prepend {r r' : Text × List Diag} (h : SplicedPair r r') {m : Text}
    (ds : List Diag) (hm : Region.code.scan m = .code) (hnl : '\n' ∉ m) :
    SplicedPair (m ++ r.1, ds ++ r.2) (m ++ r'.1, ds ++ r'.2) := by
  refine ⟨?_, ?_, ?_⟩
  · rw [h.reports]
  · apply recommented_append_left
    rw [hm]
    exact h.text
  · intro hmem
    rcases List.mem_append.1 hmem with hmem | hmem
    · exact hnl hmem
    · exact h.newline hmem

/-! The branches of the splicer's loop. -/

section Branches

variable {fuel : ℕ} {c : Char} {cs ds : Text}

theorem spliceUpto_string (pos : ℕ) : spliceUpto E macros loc (fuel + 1) pos ('"' :: cs) =
    ('"' :: (takeString cs).1 ++ (spliceUpto E macros loc fuel
        (pos + (1 + (takeString cs).1.length)) (takeString cs).2).1,
      (spliceUpto E macros loc fuel (pos + (1 + (takeString cs).1.length)) (takeString cs).2).2) := by
  simp [spliceUpto]

theorem spliceUpto_line (pos : ℕ) :
    spliceUpto E macros loc (fuel + 1) pos ('/' :: '/' :: ds) = ('/' :: '/' :: ds, []) := by
  simp [spliceUpto]

theorem spliceUpto_open (pos : ℕ) (h : (takeBlock ds).closed = false) :
    spliceUpto E macros loc (fuel + 1) pos ('/' :: '*' :: ds) = ('/' :: '*' :: ds, []) := by
  simp [spliceUpto, h, takeBlock_append]

theorem spliceUpto_block (pos : ℕ) (h : (takeBlock ds).closed = true) :
    spliceUpto E macros loc (fuel + 1) pos ('/' :: '*' :: ds) =
      ('/' :: '*' :: (takeBlock ds).copied ++ (spliceUpto E macros loc fuel
          (pos + (2 + (takeBlock ds).copied.length)) (takeBlock ds).rest).1,
        (spliceUpto E macros loc fuel (pos + (2 + (takeBlock ds).copied.length))
          (takeBlock ds).rest).2) := by
  simp [spliceUpto, h]

theorem spliceUpto_ref (pos : ℕ) (hname : cs.takeWhile isIdentBody ≠ [])
    (hend : (cs.dropWhile isIdentBody).head? = some '%') :
    spliceUpto E macros loc (fuel + 1) pos ('%' :: cs) =
      ((spliceRef E macros loc pos (cs.takeWhile isIdentBody)).1 ++ (spliceUpto E macros loc fuel
          (pos + ((cs.takeWhile isIdentBody).length + 2)) (cs.dropWhile isIdentBody).tail).1,
        (spliceRef E macros loc pos (cs.takeWhile isIdentBody)).2 ++ (spliceUpto E macros loc fuel
          (pos + ((cs.takeWhile isIdentBody).length + 2)) (cs.dropWhile isIdentBody).tail).2) := by
  simp only [spliceUpto, ne_eq]
  rw [if_neg (by decide), if_neg (by simp), if_neg (by simp), if_pos trivial, if_pos ⟨hname, hend⟩]

/-- Any other byte is copied. -/
theorem spliceUpto_byte (pos : ℕ) (hq : c ≠ '"') (hline : ¬ (c = '/' ∧ cs.head? = some '/'))
    (hblock : ¬ (c = '/' ∧ cs.head? = some '*'))
    (href : ¬ (c = '%' ∧ cs.takeWhile isIdentBody ≠ [] ∧
      (cs.dropWhile isIdentBody).head? = some '%')) :
    spliceUpto E macros loc (fuel + 1) pos (c :: cs) =
      (c :: (spliceUpto E macros loc fuel (pos + 1) cs).1,
        (spliceUpto E macros loc fuel (pos + 1) cs).2) := by
  simp only [spliceUpto, if_neg hq, if_neg hline, if_neg hblock]
  split
  · next hp =>
    rw [if_neg fun hr => href ⟨hp, hr⟩]
    rfl
  · rfl

end Branches

/-- **Splicing a pair of lines gives a pair**, with the same reports. -/
theorem spliceUpto_pair (fuel : ℕ) :
    ∀ (pos : ℕ) (afterSlash : Bool) {t t' : Text}, Recommented .code .code t t' → '\n' ∉ t →
      plainRefsUpto E macros fuel afterSlash t = true →
      SplicedPair (spliceUpto E macros loc fuel pos t) (spliceUpto E macros loc fuel pos t') := by
  induction fuel with
  | zero => exact fun _ _ _ _ _ _ _ => ⟨rfl, rfl, List.not_mem_nil⟩
  | succ fuel ih =>
    intro pos afterSlash t t' h hnl hrefs
    cases t with
    | nil =>
      rw [h.eq_nil]
      exact ⟨rfl, rfl, List.not_mem_nil⟩
    | cons c cs =>
      obtain ⟨cs', rfl, hstep⟩ := pairStep h hnl
      have hnl' : '\n' ∉ cs := newline_tail hnl
      simp only [plainRefsUpto] at hrefs
      by_cases hq : c = '"'
      · -- a string, the same on both sides
        subst hq
        obtain ⟨hs, hrest⟩ := hstep.string rfl
        rw [if_pos rfl] at hrefs
        have hpair := ih (pos + (1 + (takeString cs).1.length)) false hrest
          (newline_takeString hnl') hrefs
        rw [spliceUpto_string, spliceUpto_string, hs]
        rcases (scan_takeString hnl').2 with hcode | ⟨hnil, -⟩
        · exact hpair.prepend [] hcode (newline_cut (takeString_append cs) hnl)
        · rw [hnil] at hrest ⊢
          rw [hrest.eq_nil, spliceUpto_nil]
          simp only [List.append_nil]
          exact ⟨rfl, recommented_refl _ _, newline_cut (takeString_append cs) hnl⟩
      rw [if_neg hq] at hrefs
      by_cases hline : c = '/' ∧ cs.head? = some '/'
      · obtain ⟨ds', rfl⟩ := eq_cons_of_head? (hstep.line_iff.2 hline).2
        obtain ⟨ds, rfl⟩ := eq_cons_of_head? hline.2
        obtain rfl := hline.1
        rw [spliceUpto_line, spliceUpto_line]
        exact ⟨rfl, h, hnl⟩
      rw [if_neg hline] at hrefs
      by_cases hblock : c = '/' ∧ cs.head? = some '*'
      · -- a comment: of one length, and closed or open on both sides
        obtain ⟨hclosed, hlen, hrest⟩ := hstep.block hblock.1 hblock.2
        rw [if_pos hblock] at hrefs
        obtain ⟨ds', rfl⟩ := eq_cons_of_head? (hstep.block_iff.2 hblock).2
        obtain ⟨ds, rfl⟩ := eq_cons_of_head? hblock.2
        obtain rfl := hblock.1
        rw [List.tail_cons] at hclosed hlen hrest hrefs
        rw [List.tail_cons] at hclosed hlen hrest
        cases hcl : (takeBlock ds).closed with
        | false =>
          rw [spliceUpto_open pos hcl, spliceUpto_open pos (hclosed.trans hcl)]
          exact ⟨rfl, h, hnl⟩
        | true =>
          rw [if_pos hcl] at hrefs
          have hpair := ih (pos + (2 + (takeBlock ds).copied.length)) false (hrest hcl)
            (newline_takeBlock (newline_tail hnl')) hrefs
          rw [spliceUpto_block pos hcl, spliceUpto_block pos (hclosed.trans hcl), hlen]
          have hlen' : ('/' :: '*' :: (takeBlock ds').copied).length =
              ('/' :: '*' :: (takeBlock ds).copied).length := by simp only [List.length_cons, hlen]
          have hwhole : Recommented .code .code
              ('/' :: '*' :: (takeBlock ds).copied ++ (takeBlock ds).rest)
              ('/' :: '*' :: (takeBlock ds').copied ++ (takeBlock ds').rest) := by
            rw [List.cons_append, List.cons_append, List.cons_append, List.cons_append,
              takeBlock_append, takeBlock_append]
            exact h
          have hback : ∀ u, (takeBlock u).closed = true →
              Region.code.scan ('/' :: '*' :: (takeBlock u).copied) = .code :=
            fun u hu => (scan_takeBlock (r := .block) (.inl rfl)).2.1 hu
          refine ⟨hpair.reports, hwhole.replace_rest hlen' ?_, ?_⟩
          · rw [hback ds hcl, hback ds' (hclosed.trans hcl)]
            exact hpair.text
          · intro hmem
            rcases List.mem_append.1 hmem with hmem | hmem
            · apply hnl
              rw [← takeBlock_append ds]
              exact List.mem_append_left (takeBlock ds).rest hmem
            · exact hpair.newline hmem
      rw [if_neg hblock] at hrefs
      have hcode := hstep.code hq hline hblock
      obtain ⟨htake, hdrop⟩ := hcode.takeWhile next_of_isIdentBody
      have hend : (cs'.dropWhile isIdentBody).head? = (cs.dropWhile isIdentBody).head? :=
        hdrop.head?_eq rfl
      by_cases href : c = '%' ∧ cs.takeWhile isIdentBody ≠ [] ∧
          (cs.dropWhile isIdentBody).head? = some '%'
      · -- a reference, replaced by one text on both sides
        obtain ⟨rfl, hname, hclose⟩ := href
        rw [if_pos rfl, if_pos ⟨hname, hclose⟩] at hrefs
        simp only [Bool.and_eq_true, plainText, decide_eq_true_eq] at hrefs
        obtain ⟨⟨-, hnlm, hscan⟩, hrefs⟩ := hrefs
        obtain ⟨rest, hafter⟩ := eq_cons_of_head? hclose
        obtain ⟨rest', hafter'⟩ := eq_cons_of_head? (hend.trans hclose)
        have hrest : Recommented .code .code rest rest' := by
          rw [hafter, hafter'] at hdrop
          exact hdrop.2.2
        rw [spliceUpto_ref pos hname hclose,
          spliceUpto_ref pos (by rw [htake]; exact hname) (hend.trans hclose), htake, hafter,
          hafter', spliceRef_fst]
        rw [hafter] at hrefs
        have hnlrest : '\n' ∉ rest := by
          have hnldrop := newline_dropWhile (p := isIdentBody) hnl'
          rw [hafter] at hnldrop
          exact newline_tail hnldrop
        exact (ih _ false hrest hnlrest hrefs).prepend _ hscan (by simpa using hnlm)
      · have href' : ¬ (c = '%' ∧ cs'.takeWhile isIdentBody ≠ [] ∧
            (cs'.dropWhile isIdentBody).head? = some '%') := by
          rw [htake, hend]
          exact href
        rw [spliceUpto_byte pos hq hline hblock href,
          spliceUpto_byte pos hq (fun hl => hline (hstep.line_iff.1 hl))
            (fun hb => hblock (hstep.block_iff.1 hb)) href']
        by_cases hs : c = '/'
        · -- the byte behind a `/` is copied, and opens no comment
          subst hs
          rw [if_neg (by decide)] at hrefs
          have hpair := ih (pos + 1) true hcode hnl' hrefs
          have hhead : ∀ d, cs.head? ≠ some d →
              (spliceUpto E macros loc fuel (pos + 1) cs).1.head? ≠ some d := by
            intro d hd
            have hsplice : (spliceUpto E macros loc fuel (pos + 1) cs).1.head? = none ∨ _ :=
              spliceUpto_head hrefs (pos + 1)
            rcases hsplice with hnone | hsame
            · rw [hnone]
              simp
            · rw [hsame]
              exact hd
          have hslash := hpair.text.to_slash (hhead '/' fun he => hline ⟨rfl, he⟩)
            (hhead '*' fun he => hblock ⟨rfl, he⟩)
          refine ⟨hpair.reports, ⟨rfl, .inl rfl, hslash⟩, ?_⟩
          intro hmem
          rcases List.mem_cons.1 hmem with he | hmem
          · exact absurd he (by decide)
          · exact hpair.newline hmem
        · have hnext : Region.code.scan [c] = .code := by simp [Region.next, hq, hs]
          have hrefs' : plainRefsUpto E macros fuel false cs = true := by
            revert hrefs
            split
            · next hp =>
              rw [if_neg fun hr => href ⟨hp, hr⟩]
              exact id
            · rw [beq_false_of_ne hs]
              exact id
          have hnlc : '\n' ∉ [c] := by
            intro hmem
            exact hnl (List.mem_cons.2 (.inl (List.mem_singleton.1 hmem)))
          exact (ih (pos + 1) false hcode hnl' hrefs').prepend [] hnext hnlc

/-- **A passthrough line and its variant** are spliced and scanned
alike. -/
theorem splice_pair {t t' : Text} (h : Recommented .code .code t t') (hnl : '\n' ∉ t)
    (hrefs : plainRefs E macros t = true) :
    SplicedPair (splice E macros t loc) (splice E macros t' loc) := by
  rw [splice, splice, h.length_eq]
  exact spliceUpto_pair _ 0 false h hnl hrefs

end Splicer

end Preprocess

end Nslc
