import Nslc.Preprocess.Floats
import Nslc.Preprocess.Includes
/-!
# Preprocessor — references at the seam

The splicer replaces the references `%NAME%` of a line once and does not
read what it has written again. `RefScan` reads a text for references
outside strings and comments. Where no replacement text holds one or
completes one with its neighbours, a run writes no reference but the
undefined ones, which are reported.
-/

namespace Nslc

namespace Preprocess

/-! ## Reading references -/

/-- Where a reader stands: its region, and the bytes read behind a `%`
of the code that may open a reference. -/
@[ext]
structure RefScan where
  region : Region
  pending : Option Text
  deriving DecidableEq, Repr

namespace RefScan

/-- Outside strings and comments, with no reference begun. -/
def start : RefScan := ⟨.code, none⟩

/-- The reader behind the byte `c`, and the name of the reference that
ends there. A `%` that ends one may open the next. -/
def next (q : RefScan) (c : Char) : RefScan × Option Text :=
  if q.region.isOutside then
    if c = '%' then (⟨q.region.next c, some []⟩, q.pending.filter (· ≠ []))
    else if isIdentBody c then (⟨q.region.next c, q.pending.map (· ++ [c])⟩, none)
    else (⟨q.region.next c, none⟩, none)
  else (⟨q.region.next c, none⟩, none)

/-- The reader behind the text `t`. -/
def scan (q : RefScan) (t : Text) : RefScan := t.foldl (fun q c => (q.next c).1) q

/-- The references read in `t`. -/
def refs : RefScan → Text → List Text
  | _, [] => []
  | q, c :: t => (q.next c).2.toList ++ refs (q.next c).1 t

@[simp] theorem scan_nil (q : RefScan) : q.scan [] = q := rfl

@[simp] theorem scan_cons (q : RefScan) (c : Char) (t : Text) :
    q.scan (c :: t) = (q.next c).1.scan t := rfl

theorem scan_append (q : RefScan) (a b : Text) : q.scan (a ++ b) = (q.scan a).scan b :=
  List.foldl_append

theorem refs_append (q : RefScan) (a b : Text) :
    q.refs (a ++ b) = q.refs a ++ (q.scan a).refs b := by
  induction a generalizing q with
  | nil => rfl
  | cons c cs ih => simp [refs, ih]

theorem next_region (q : RefScan) (c : Char) : (q.next c).1.region = q.region.next c := by
  unfold next
  split_ifs <;> rfl

theorem scan_region (q : RefScan) (t : Text) : (q.scan t).region = q.region.scan t := by
  induction t generalizing q with
  | nil => rfl
  | cons c cs ih => rw [scan_cons, ih, next_region, Region.scan_cons]

theorem next_of_inside {q : RefScan} (h : q.region.isOutside = false) (c : Char) :
    q.next c = (⟨q.region.next c, none⟩, none) := by
  simp [next, h]

/-- Within a string or a comment nothing is read. -/
theorem refs_of_inside {q : RefScan} {t : Text} (h : q.region.StaysInside t) : q.refs t = [] := by
  induction t generalizing q with
  | nil => rfl
  | cons c cs ih =>
    have hq : q.region.isOutside = false := h [] (c :: cs) rfl (by simp)
    have hcs : (q.next c).1.region.StaysInside cs := by
      rw [next_region]
      exact fun a b hab hne => h (c :: a) b (by simp [hab]) hne
    rw [refs, ih hcs, next_of_inside hq]
    rfl

/-- Without a `%` nothing is read. -/
theorem refs_of_no_percent {t : Text} (h : '%' ∉ t) (q : RefScan) : q.refs t = [] := by
  induction t generalizing q with
  | nil => rfl
  | cons c cs ih =>
    have hc : c ≠ '%' := fun he => h (by simp [he])
    have hnext : (q.next c).2 = none := by
      unfold next
      split_ifs <;> rfl
    rw [refs, hnext, ih fun hmem => h (by simp [hmem])]
    rfl

end RefScan

/-! ## Lines that can be spliced in one pass -/

/-- No `%NAME` has been read that the next `%` would close. -/
def RefScan.opens (q : RefScan) : Bool := q.pending.all (· = [])

/-- The name of the reference `t` begins with, the opening `%` read. -/
def refName? (t : Text) : Option Text :=
  let name := t.takeWhile isIdentBody
  if name ≠ [] ∧ (t.dropWhile isIdentBody).head? = some '%' then some name else none

/-- What stands in the output for `%name%`. -/
def replacement (E : PPExpression) (macros : MacroTable) (name : Text) : Text :=
  ((macros.lookup name).map fun d => (spliceBody E macros d).1).getD ('%' :: (name ++ ['%']))

/-- A defined macro is put into code, completes no reference with what
stands in front of it, and leaves no string or comment open. -/
def safeRef (E : PPExpression) (macros : MacroTable) (q : RefScan) (name : Text) : Bool :=
  (macros.lookup name).all fun d =>
    decide (q.region = .code) && (q.refs (spliceBody E macros d).1).isEmpty &&
      decide (Region.code.scan (spliceBody E macros d).1 = .code)

/-- Every reference of the line is safe, and no `%` that stays closes a
reference the splicer does not see. `q` has read the output so far; the
number counts the bytes of a reference still to be passed. -/
def safeLine (E : PPExpression) (macros : MacroTable) : RefScan → ℕ → Text → Bool
  | _, _, [] => true
  | q, skip + 1, _ :: cs => safeLine E macros q skip cs
  | q, 0, c :: cs =>
    if c = '%' ∧ q.region.isOutside then
      q.opens && match refName? cs with
        | none => safeLine E macros (q.next c).1 0 cs
        | some name => safeRef E macros q name &&
            safeLine E macros (q.scan (replacement E macros name)) (name.length + 1) cs
    else safeLine E macros (q.next c).1 0 cs

section SafeLine

variable {E : PPExpression} {macros : MacroTable} {q : RefScan} {t : Text}

theorem safeLine_skip (a b : Text) :
    safeLine E macros q a.length (a ++ b) = safeLine E macros q 0 b := by
  induction a with
  | nil => rfl
  | cons c cs ih => exact ih

theorem safeLine_of_ne {c : Char} (h : c ≠ '%') (cs : Text) :
    safeLine E macros q 0 (c :: cs) = safeLine E macros (q.next c).1 0 cs := by
  rw [safeLine, if_neg fun hc => h hc.1]

/-- A string or comment is passed over. -/
theorem safeLine_of_inside {a b : Text} (h : q.region.StaysInside a) :
    safeLine E macros q 0 (a ++ b) = safeLine E macros (q.scan a) 0 b := by
  induction a generalizing q with
  | nil => rfl
  | cons c cs ih =>
    have hq : q.region.isOutside = false := h [] (c :: cs) rfl (by simp)
    have hcs : (q.next c).1.region.StaysInside cs := by
      rw [RefScan.next_region]
      exact fun a b hab hne => h (c :: a) b (by simp [hab]) hne
    rw [List.cons_append, safeLine, if_neg (by simp [hq]), ih hcs, RefScan.scan_cons]

end SafeLine

/-! ## Splicing -/

section Splicing

variable {E : PPExpression} {macros : MacroTable} {loc : SourceLocation} {q : RefScan} {t : Text}

/-- The names are undefined, and each has been warned of on the line. -/
def RefsReported (macros : MacroTable) (loc : SourceLocation) (names : List Text)
    (ds : List Diag) : Prop :=
  ∀ n ∈ names, macros.lookup n = none ∧
    ∃ d ∈ ds, d.severity = .warning ∧ d.message = .undefinedMacroRef n ∧
      ∃ delta, d.loc = locAt (some loc) delta

theorem refsReported_nil (ds : List Diag) : RefsReported macros loc [] ds :=
  fun _ h => absurd h (by simp)

theorem RefsReported.append {ns ms : List Text} {ds es : List Diag}
    (h : RefsReported macros loc ns ds) (h' : RefsReported macros loc ms es) :
    RefsReported macros loc (ns ++ ms) (ds ++ es) := by
  intro n hn
  rcases List.mem_append.1 hn with hn | hn
  · obtain ⟨hnone, d, hd, hrep⟩ := h n hn
    exact ⟨hnone, d, List.mem_append_left _ hd, hrep⟩
  · obtain ⟨hnone, d, hd, hrep⟩ := h' n hn
    exact ⟨hnone, d, List.mem_append_right _ hd, hrep⟩

theorem scan_name {name : Text} (hname : ∀ c ∈ name, isIdentBody c = true) (acc : Text) :
    (⟨.code, some acc⟩ : RefScan).scan name = ⟨.code, some (acc ++ name)⟩ ∧
      (⟨.code, some acc⟩ : RefScan).refs name = [] := by
  induction name generalizing acc with
  | nil => exact ⟨by simp, rfl⟩
  | cons c cs ih =>
    have hc := hname c (by simp)
    have h₁ : c ≠ '%' := by rintro rfl; exact absurd hc (by decide)
    have h₂ : c ≠ '"' := by rintro rfl; exact absurd hc (by decide)
    have h₃ : c ≠ '/' := by rintro rfl; exact absurd hc (by decide)
    have hnext : (⟨.code, some acc⟩ : RefScan).next c = (⟨.code, some (acc ++ [c])⟩, none) := by
      simp [RefScan.next, Region.isOutside, Region.next, h₁, h₂, h₃, hc]
    obtain ⟨hscan, hrefs⟩ := ih (fun d hd => hname d (by simp [hd])) (acc ++ [c])
    rw [RefScan.scan_cons, RefScan.refs, hnext, hscan, hrefs]
    simp

/-- A `%` that opens, and closes nothing. -/
theorem next_of_opens (hr : q.region.isOutside = true) (hq : q.opens = true) :
    q.next '%' = (⟨.code, some []⟩, none) := by
  have hregion : q.region.next '%' = .code := by
    cases hreg : q.region <;> simp [hreg, Region.isOutside] at hr <;> rfl
  have hpend : q.pending.filter (· ≠ []) = none := by
    cases hp : q.pending with
    | none => rfl
    | some acc =>
      have hacc : acc = [] := by simpa [RefScan.opens, hp] using hq
      simp [hacc]
  simp only [RefScan.next, hr, if_true, hregion, hpend]

/-- An undefined reference, which is copied. -/
theorem refs_reference {name : Text} (hr : q.region.isOutside = true) (hq : q.opens = true)
    (hne : name ≠ []) (hname : ∀ c ∈ name, isIdentBody c = true) :
    (q.scan ('%' :: (name ++ ['%']))).region = .code ∧ q.refs ('%' :: (name ++ ['%'])) = [name] := by
  have hopen := next_of_opens hr hq
  obtain ⟨hscan, hrefs⟩ := scan_name hname []
  obtain ⟨c, cs, rfl⟩ := List.exists_cons_of_ne_nil hne
  rw [RefScan.scan_cons, RefScan.refs, hopen, RefScan.scan_append, RefScan.refs_append, hscan, hrefs]
  exact ⟨rfl, rfl⟩

/-- What a safe reference is replaced by holds no other one. -/
theorem refsReported_spliceRef {name : Text} (loc : SourceLocation) (pos : ℕ) (hr : q.region.isOutside = true)
    (hq : q.opens = true) (hne : name ≠ []) (hname : ∀ c ∈ name, isIdentBody c = true)
    (hsafe : safeRef E macros q name = true) :
    RefsReported macros loc (q.refs (spliceRef E macros loc pos name).1)
        (spliceRef E macros loc pos name).2 ∧
      (q.scan (spliceRef E macros loc pos name).1).region = .code ∧
      (spliceRef E macros loc pos name).1 = replacement E macros name := by
  unfold safeRef at hsafe
  cases hl : macros.lookup name with
  | none =>
    have hout : spliceRef E macros loc pos name = ('%' :: (name ++ ['%']),
        [⟨.warning, locAt (some loc) pos, .undefinedMacroRef name, none⟩]) := by
      simp [spliceRef, hl]
    obtain ⟨hregion, hrefs⟩ := refs_reference hr hq hne hname
    rw [hout]
    refine ⟨?_, hregion, by simp [replacement, hl]⟩
    rw [hrefs]
    intro n hn
    rw [List.mem_singleton.1 hn]
    exact ⟨hl, _, List.mem_singleton_self _, rfl, rfl, pos, rfl⟩
  | some d =>
    have hout : spliceRef E macros loc pos name = spliceBody E macros d := by
      simp [spliceRef, hl]
    simp only [hl, Option.all_some, Bool.and_eq_true, decide_eq_true_iff, List.isEmpty_iff] at hsafe
    obtain ⟨⟨hcode, hrefs⟩, hback⟩ := hsafe
    rw [hout, hrefs]
    refine ⟨refsReported_nil _, ?_, by simp [replacement, hl]⟩
    rw [RefScan.scan_region, hcode, hback]

/-- The string in front of `t`, its opening quote read. -/
theorem refs_string (hr : ReadsAsCode q.region ('"' :: t)) (hnl : '\n' ∉ t) :
    q.refs ('"' :: (takeString t).1) = [] ∧ (q.next '"').1.region.StaysInside (takeString t).1 ∧
      ((takeString t).2 = [] ∨ (q.scan ('"' :: (takeString t).1)).region = .code) := by
  obtain ⟨hin, hend⟩ := scan_takeString hnl
  have hnext : q.next '"' = (⟨.string, none⟩, none) := by
    have hreg : q.region.next '"' = .string := hr.next
    unfold RefScan.next
    split_ifs <;> simp_all [isIdentBody, isIdentStart, isDigit]
  have hq : (q.next '"').1.region = .string := by rw [hnext]
  have hrefs := RefScan.refs_of_inside (q := (q.next '"').1) (hq ▸ hin)
  refine ⟨by rw [RefScan.refs, hrefs, hnext]; rfl, hq ▸ hin, ?_⟩
  rcases hend with hcode | ⟨hnil, -⟩
  · refine .inr ?_
    rw [RefScan.scan_cons, RefScan.scan_region, hq, hcode]
  · exact .inl hnil

/-- The two bytes that open a comment. -/
theorem next_comment (hr : ReadsAsCode q.region ('/' :: t)) (c : Char) (h : c = '/' ∨ c = '*') :
    q.refs ['/', c] = [] ∧
      q.scan ['/', c] = ⟨if c = '/' then .lineComment else .block, none⟩ := by
  have hreg : q.region.next '/' = .slash := hr.next
  have hnext : q.next '/' = (⟨.slash, none⟩, none) := by
    unfold RefScan.next
    split_ifs <;> simp_all [isIdentBody, isIdentStart, isDigit]
  rw [RefScan.refs, RefScan.scan_cons, hnext]
  rcases h with rfl | rfl
  · exact ⟨rfl, rfl⟩
  · exact ⟨rfl, rfl⟩

/-- A block comment in front of `t`, its opening read. -/
theorem refs_block (hr : ReadsAsCode q.region ('/' :: '*' :: t)) :
    ((q.next '/').1.next '*').1.region.StaysInside (takeBlock t).copied ∧
      ((takeBlock t).closed = true → q.refs ('/' :: '*' :: (takeBlock t).copied) = [] ∧
        (q.scan ('/' :: '*' :: (takeBlock t).copied)).region = .code) ∧
      ((takeBlock t).closed = false → q.refs ('/' :: '*' :: t) = []) := by
  obtain ⟨hopenRefs, hopenScan⟩ := next_comment hr '*' (.inr rfl)
  rw [if_neg (by decide)] at hopenScan
  have hregion : ((q.next '/').1.next '*').1.region = .block := congrArg RefScan.region hopenScan
  obtain ⟨hin, hclosed, hopen⟩ := scan_takeBlock (r := .block) (t := t) (.inl rfl)
  have hrefs : ∀ u, Region.block.StaysInside u → q.refs ('/' :: '*' :: u) = [] := by
    intro u hu
    have hcut : '/' :: '*' :: u = ['/', '*'] ++ u := rfl
    rw [hcut, RefScan.refs_append, hopenRefs, hopenScan, List.nil_append]
    exact RefScan.refs_of_inside (q := ⟨.block, none⟩) hu
  refine ⟨hregion ▸ hin, fun hc => ⟨hrefs _ hin, ?_⟩, fun hc => hrefs _ (hopen hc).1⟩
  rw [RefScan.scan_cons, RefScan.scan_cons, RefScan.scan_region, hregion, hclosed hc]

/-- The text behind `%`, cut at the end of its reference. -/
theorem reference_cut {cs : Text} (h : (cs.dropWhile isIdentBody).head? = some '%') :
    cs = (cs.takeWhile isIdentBody ++ ['%']) ++ (cs.dropWhile isIdentBody).tail := by
  have hcons : cs.dropWhile isIdentBody = '%' :: (cs.dropWhile isIdentBody).tail := by
    cases hd : cs.dropWhile isIdentBody with
    | nil => simp [hd] at h
    | cons d ds => simpa [hd] using h
  calc cs = cs.takeWhile isIdentBody ++ cs.dropWhile isIdentBody :=
        List.takeWhile_append_dropWhile.symm
    _ = cs.takeWhile isIdentBody ++ '%' :: (cs.dropWhile isIdentBody).tail := by rw [← hcons]
    _ = _ := by simp

/-- **Splicing a safe line leaves the undefined references only.** -/
theorem spliceUpto_refs (fuel : ℕ) :
    ∀ (pos : ℕ) (q : RefScan) (t : Text), t.length < fuel → '\n' ∉ t →
      ReadsAsCode q.region t → safeLine E macros q 0 t = true →
      RefsReported macros loc (q.refs (spliceUpto E macros loc fuel pos t).1)
        (spliceUpto E macros loc fuel pos t).2 := by
  induction fuel with
  | zero => exact fun _ _ _ h => absurd h (Nat.not_lt_zero _)
  | succ fuel ih =>
    intro pos q t hlen hnl hr hsafe
    cases t with
    | nil => exact refsReported_nil _
    | cons c cs =>
      simp only [List.length_cons] at hlen
      -- behind a piece without references the splicing goes on
      have hgo : ∀ (piece rest : Text) (p : ℕ), c :: cs = piece ++ rest → piece ≠ [] →
          q.refs piece = [] → safeLine E macros (q.scan piece) 0 rest = true →
          (rest = [] ∨ ReadsAsCode (q.scan piece).region rest) →
          RefsReported macros loc (q.refs (piece ++ (spliceUpto E macros loc fuel p rest).1))
            ([] ++ (spliceUpto E macros loc fuel p rest).2) := by
        intro piece rest p heq hne hrefs hsafe' hrest
        rw [RefScan.refs_append, hrefs]
        refine (refsReported_nil _).append ?_
        rcases hrest with rfl | hcode
        · cases fuel <;> exact refsReported_nil _
        · have hlen' := congrArg List.length heq
          have hpos : 0 < piece.length := List.length_pos_iff.2 hne
          rw [List.length_cons, List.length_append] at hlen'
          refine ih p _ rest (by omega) ?_ hcode hsafe'
          exact fun h => hnl (by rw [heq]; simp [h])
      have hnl' : '\n' ∉ cs := fun h => hnl (by simp [h])
      have hout : q.region.isOutside = true := by
        rcases hr with hr | ⟨hr, -, -⟩ <;> rw [hr] <;> rfl
      simp only [spliceUpto]
      split_ifs with hq hl hb hc hpct href
      · -- a string
        subst hq
        obtain ⟨hrefs, hin, hscan⟩ := refs_string hr hnl'
        have happ := takeString_append cs
        refine hgo ('"' :: (takeString cs).1) (takeString cs).2 _ ?_ (by simp) hrefs ?_ ?_
        · rw [List.cons_append, happ]
        · rw [← happ, safeLine_of_ne (by decide), safeLine_of_inside hin] at hsafe
          exact hsafe
        · rcases hscan with hnil | hscan
          · exact .inl hnil
          · exact .inr (.inl hscan)
      · -- a line comment
        obtain ⟨rfl, hhead⟩ := hl
        obtain ⟨ds, rfl⟩ : ∃ ds, cs = '/' :: ds := by
          cases cs with
          | nil => simp at hhead
          | cons d ds => exact ⟨ds, by simpa using hhead⟩
        obtain ⟨hopenRefs, hopenScan⟩ := next_comment hr '/' (.inl rfl)
        have hin : Region.lineComment.StaysInside ds := by
          intro a b hab _
          have hal : '\n' ∉ a := fun h => hnl (by rw [hab]; simp [h])
          rw [Region.scan_lineComment hal]
          rfl
        have hcut : '/' :: '/' :: ds = ['/', '/'] ++ ds := rfl
        rw [hcut, RefScan.refs_append, hopenRefs, hopenScan, if_pos rfl,
          RefScan.refs_of_inside (q := ⟨.lineComment, none⟩) hin]
        exact refsReported_nil _
      · -- a closed block comment
        obtain ⟨rfl, hhead⟩ := hb
        obtain ⟨ds, rfl⟩ : ∃ ds, cs = '*' :: ds := by
          cases cs with
          | nil => simp at hhead
          | cons d ds => exact ⟨ds, by simpa using hhead⟩
        rw [List.tail_cons] at hc ⊢
        obtain ⟨hin, hclosed, -⟩ := refs_block hr
        obtain ⟨hrefs, hscan⟩ := hclosed hc
        have happ := takeBlock_append ds
        refine hgo ('/' :: '*' :: (takeBlock ds).copied) (takeBlock ds).rest _ ?_ (by simp) hrefs
          ?_ (.inr (.inl hscan))
        · rw [List.cons_append, List.cons_append, happ]
        · rw [← happ, safeLine_of_ne (by decide), safeLine_of_ne (by decide),
            safeLine_of_inside hin] at hsafe
          exact hsafe
      · -- an open one
        obtain ⟨rfl, hhead⟩ := hb
        obtain ⟨ds, rfl⟩ : ∃ ds, cs = '*' :: ds := by
          cases cs with
          | nil => simp at hhead
          | cons d ds => exact ⟨ds, by simpa using hhead⟩
        rw [List.tail_cons] at hc ⊢
        have hrefs := (refs_block hr).2.2 (by simpa using hc)
        simp only [List.cons_append, takeBlock_append, hrefs]
        exact refsReported_nil _
      · -- a reference
        subst hpct
        have hname : refName? cs = some (cs.takeWhile isIdentBody) := if_pos href
        rw [safeLine, if_pos ⟨rfl, hout⟩, hname, Bool.and_eq_true] at hsafe
        obtain ⟨hopens, hsafe⟩ := hsafe
        obtain ⟨hsafeRef, hsafe⟩ := Bool.and_eq_true_iff.1 hsafe
        obtain ⟨hrep, hregion, hsame⟩ := refsReported_spliceRef loc pos hout hopens
          href.1 (fun _ => List.mem_takeWhile_imp) hsafeRef
        have hcut := reference_cut href.2
        have hlen' := congrArg List.length hcut
        simp only [List.length_append, List.length_cons] at hlen'
        rw [RefScan.refs_append]
        refine hrep.append (ih _ _ _ (by omega) ?_ (.inl hregion) ?_)
        · exact fun h => hnl' (by rw [hcut]; simp [h])
        · rw [hsame]
          have hskip : (cs.takeWhile isIdentBody).length + 1 =
            (cs.takeWhile isIdentBody ++ ['%']).length := by simp
          rw [hskip] at hsafe
          conv at hsafe => lhs; arg 5; rw [hcut]
          rwa [safeLine_skip] at hsafe
      · -- a `%` that begins none
        subst hpct
        have hname : refName? cs = none := if_neg href
        rw [safeLine, if_pos ⟨rfl, hout⟩, hname, Bool.and_eq_true] at hsafe
        have hnext := next_of_opens hout hsafe.1
        refine hgo ['%'] cs _ rfl (by simp) ?_ hsafe.2 (.inr (.inl ?_))
        · rw [RefScan.refs, hnext]
          rfl
        · rw [RefScan.scan_cons, hnext]
          rfl
      · rw [safeLine_of_ne hpct] at hsafe
        refine hgo [c] cs _ rfl (by simp) ?_ hsafe (.inr ?_)
        · exact RefScan.refs_of_no_percent (by simpa using fun h => hpct h.symm) q
        · rw [RefScan.scan_cons, RefScan.scan_nil, RefScan.next_region, hr.next]
          by_cases hs : c = '/'
          · exact .inr ⟨by simp [Region.next, hs], fun h => hl ⟨hs, h⟩, fun h => hb ⟨hs, h⟩⟩
          · exact .inl (by simp [Region.next, hq, hs])

end Splicing

/-! ## Markers -/

/-- A path that can be quoted without being read otherwise. -/
def plainPath (p : Text) : Bool := p.all fun c => c ≠ '"' && c ≠ '\\' && c ≠ '\n'

theorem staysInside_plainPath {p : Text} (h : plainPath p = true) :
    Region.string.StaysInside p := by
  induction p with
  | nil => exact staysInside_nil _
  | cons c cs ih =>
    simp only [plainPath, List.all_cons, Bool.and_eq_true, decide_eq_true_eq] at h
    obtain ⟨⟨⟨hq, hb⟩, hn⟩, hcs⟩ := h
    refine staysInside_cons rfl ?_
    simp only [Region.next, hq, hb, hn, if_false]
    exact ih hcs

/-- A marker holds no reference. -/
theorem refs_lineMarker (n : ℕ) {p : Text} (h : plainPath p = true) :
    RefScan.start.refs (lineMarker n p) = [] := by
  have hdigits : ∀ c ∈ Nat.toDigits 10 (n % 2 ^ 32), isDigit c = true :=
    fun _ => isDigit_of_mem_toDigits
  have hpct : '%' ∉ "#line ".toList ++ Nat.toDigits 10 (n % 2 ^ 32) := by
    intro hmem
    rcases List.mem_append.1 hmem with hmem | hmem
    · exact absurd hmem (by decide)
    · exact absurd (hdigits _ hmem) (by decide)
  have hcode : Region.code.scan ("#line ".toList ++ Nat.toDigits 10 (n % 2 ^ 32)) = .code := by
    rw [Region.scan_append]
    exact scan_digits (.inl rfl : ReadsAsCode _ (_ ++ [])) Nat.toDigits_ne_nil hdigits
  unfold lineMarker
  rw [RefScan.refs_append, RefScan.refs_append, RefScan.refs_of_no_percent hpct]
  rw [RefScan.refs_of_no_percent (t := ['\n']) (by decide)]
  split_ifs with hp
  · rfl
  · rw [RefScan.refs_append, RefScan.refs_append, RefScan.refs_of_no_percent (t := ['"']) (by decide),
      RefScan.refs_of_no_percent (t := " \"".toList) (by decide), RefScan.refs_of_inside]
    · rfl
    · rw [RefScan.scan_region, RefScan.scan_region]
      have : RefScan.start.region = .code := rfl
      rw [this, hcode]
      exact staysInside_plainPath h

/-! ## One step -/

/-- The line the next step splices and copies. -/
def lineToCopy? (s : State) : Option Text :=
  match s.aborted, s.includeStack with
  | none, f :: _ =>
    match readLine (s.sm.getBuffer f.fid) f.cursor with
    | none => none
    | some l =>
      if isEmitting f.condStack = true ∧ lineDirective l = .passthrough then some (stripCR l.body)
      else none
  | _, _ => none

/-- The path in the marker the next step may write. -/
def markerPath? (env : Env) (s : State) : Option Text :=
  match s.includeStack with
  | [] => none
  | f :: fs =>
    match readLine (s.sm.getBuffer f.fid) f.cursor with
    | none => fs.head?.map fun outer => s.sm.getPath outer.fid
    | some l =>
      match lineDirective l with
      | .line o =>
        match parseLineOperand (splice env.expr s.macros o f.loc).1 with
        | .ok _ path _ => path
        | _ => none
      | .incl filename isAngle => env.resolve filename isAngle (s.sm.getPath f.fid)
      | _ => none

/-- The next step keeps references apart: the output has no string,
comment or reference open, the line to be copied is safe under the
macros in force, and a marker's path can be quoted. -/
def refSafe (env : Env) (s : State) : Bool :=
  decide (RefScan.start.scan s.output = .start) &&
    (lineToCopy? s).all (safeLine env.expr s.macros .start 0) && (markerPath? env s).all plainPath

variable {env : Env} {s t : State} {f : Frame} {fs : List Frame} {l : Line}

theorem refs_term (q : RefScan) (l : Line) : q.refs l.term = [] := by
  refine RefScan.refs_of_no_percent ?_ q
  unfold Line.term
  split_ifs <;> decide

/-- What a plain line writes. -/
theorem refsReported_plainLine (hab : s.aborted = none) (hst : s.includeStack = f :: fs)
    (hread : readLine (s.sm.getBuffer f.fid) f.cursor = some l) (hsafe : refSafe env s = true) :
    RefsReported s.macros f.loc (RefScan.start.refs (lineOut env s f l))
      (stepLine env s f fs l).diags := by
  have hterm : RefsReported s.macros f.loc (RefScan.start.refs l.term)
      (stepLine env s f fs l).diags := by
    rw [refs_term]
    exact refsReported_nil _
  unfold lineOut
  cases hd : lineDirective l with
  | passthrough =>
    by_cases he : isEmitting f.condStack = true
    · simp only [he, if_true]
      simp only [refSafe, lineToCopy?, hab, hst, hread, he, hd, and_self, if_true, Option.all_some,
        Bool.and_eq_true] at hsafe
      have hnl : '\n' ∉ stripCR l.body := stripCR_no_newline hread
      have hsplice : RefsReported s.macros f.loc
          (RefScan.start.refs (splice env.expr s.macros (stripCR l.body) f.loc).1)
          (splice env.expr s.macros (stripCR l.body) f.loc).2 :=
        spliceUpto_refs _ 0 .start _ (Nat.lt_succ_self _) hnl (.inl rfl) hsafe.1.2
      rw [RefScan.refs_append, refs_term, List.append_nil]
      intro n hn
      obtain ⟨hnone, d, hmem, hrep⟩ := hsplice n hn
      refine ⟨hnone, d, ?_, hrep⟩
      simp only [stepLine, dispatch, hd, he, if_true, passLine, State.emit, State.addDiags]
      exact List.mem_append_right _ (List.mem_append_left _ (List.mem_append_left _ hmem))
    · simpa [he] using hterm
  | line o =>
    by_cases he : isEmitting f.condStack = true
    · simpa [he, RefScan.refs] using refsReported_nil _
    · simpa [he] using hterm
  | incl filename isAngle =>
    by_cases he : isEmitting f.condStack = true
    · simpa [he, RefScan.refs] using refsReported_nil _
    · simpa [he] using hterm
  | _ => exact hterm

/-- **What a safe step writes.** -/
theorem refsReported_step (hsafe : refSafe env s = true) (hstep : step env s = some t)
    (hab' : t.aborted = none) :
    ∃ f fs x, s.includeStack = f :: fs ∧ t.output = s.output ++ x ∧
      RefsReported s.macros f.loc (RefScan.start.refs x) t.diags := by
  obtain ⟨f, fs, hab, hst, ⟨hr, rfl⟩ | ⟨l, hr, rfl⟩⟩ := step_cases hstep
  · -- the end of a file
    refine ⟨f, fs, ?_⟩
    unfold stepEof at hab' ⊢
    cases fs with
    | nil => exact ⟨[], hst, by simp [State.addDiags], refsReported_nil _⟩
    | cons outer fs =>
      simp only at hab' ⊢
      split at hab'
      · exact absurd hab' (by simp [State.abort])
      · rename_i sm hpop
        have hpath : sm.getPath outer.fid = s.sm.getPath outer.fid := by
          simp only [SourceManager.getPath, SourceManager.buffer?, (files_popIncludeFrame hpop).1,
            State.addDiags]
        simp only [refSafe, markerPath?, hst, hr, List.head?_cons, Option.map_some,
          Option.all_some, Bool.and_eq_true] at hsafe
        refine ⟨_, hst, rfl, ?_⟩
        rw [hpath, refs_lineMarker _ hsafe.2]
        exact refsReported_nil _
  · refine ⟨f, fs, ?_⟩
    rcases stepLine_cases env s f fs l with h | ⟨n, p, h⟩ | ⟨p, sm, inner, h⟩ | h
    · exact ⟨_, hst, h.1.output_eq, refsReported_plainLine hab hst hr hsafe⟩
    · obtain ⟨o, hd, trailing, hop⟩ := h.operand
      simp only [refSafe, markerPath?, hst, hr, hd, hop, Bool.and_eq_true] at hsafe
      have hp : plainPath (p.getD []) = true := by
        cases p with
        | none => rfl
        | some p => exact hsafe.2
      refine ⟨_, hst, h.output_eq, ?_⟩
      rw [refs_lineMarker _ hp]
      exact refsReported_nil _
    · obtain ⟨filename, isAngle, hd, -, hres⟩ := h.operand
      simp only [refSafe, markerPath?, hst, hr, hd, hres, Option.all_some, Bool.and_eq_true] at hsafe
      refine ⟨_, hst, h.output_eq, ?_⟩
      rw [getPath_of_loadFile h.loaded, refs_lineMarker _ hsafe.2]
      exact refsReported_nil _
    · exact absurd hab' h.aborted_ne

/-! ## Runs -/

/-- Behind an occurrence's `%`, within its name. -/
theorem pending_of_open {q : RefScan} {name : Text} (hq : q.region.isOutside = true)
    (hname : ∀ c ∈ name, isIdentBody c = true) : q.scan ('%' :: name) = ⟨.code, some name⟩ := by
  have hregion : q.region.next '%' = .code := by
    cases hreg : q.region <;> simp [hreg, Region.isOutside] at hq <;> rfl
  have hnext : (q.next '%').1 = ⟨.code, some []⟩ := by
    simp only [RefScan.next, hq, if_true, hregion]
  rw [RefScan.scan_cons, hnext, (scan_name hname []).1, List.nil_append]

/-- Every occurrence is read. -/
theorem mem_refs_of_occurrence {q : RefScan} {pre name suf : Text}
    (hq : (q.region.scan pre).isOutside = true) (hne : name ≠ [])
    (hname : ∀ c ∈ name, isIdentBody c = true) :
    name ∈ q.refs (pre ++ '%' :: (name ++ '%' :: suf)) := by
  have hcut : pre ++ '%' :: (name ++ '%' :: suf) = pre ++ (('%' :: name) ++ '%' :: suf) := by simp
  rw [← RefScan.scan_region] at hq
  rw [hcut, RefScan.refs_append, RefScan.refs_append, pending_of_open hq hname, RefScan.refs]
  refine List.mem_append_right _ (List.mem_append_right _ (List.mem_append_left _ ?_))
  simp [RefScan.next, Region.isOutside, hne]

/-- `%name%` stands in `out` behind `pre`, outside strings and comments. -/
structure Occurs (out pre name : Text) : Prop where
  at_pre : ∃ suf, out = pre ++ '%' :: (name ++ '%' :: suf)
  ne_nil : name ≠ []
  ident : ∀ c ∈ name, isIdentBody c = true
  outside : (Region.code.scan pre).isOutside = true

/-- An occurrence in a text that is written in two pieces, no reference
being open between them, stands in one of them. -/
theorem Occurs.of_append {a b pre name : Text} (h : Occurs (a ++ b) pre name)
    (ha : RefScan.start.scan a = .start) :
    Occurs a pre name ∨ a.length ≤ pre.length ∧ name ∈ RefScan.start.refs b := by
  obtain ⟨⟨suf, heq⟩, hne, hident, hout⟩ := h
  rcases cut_piece heq with ⟨p, rfl, hb⟩ | ⟨r, hr, rfl, hr'⟩
  · refine .inr ⟨by simp, ?_⟩
    rw [hb]
    refine mem_refs_of_occurrence ?_ hne hident
    rwa [Region.scan_append, ← show RefScan.start.region = Region.code from rfl,
      ← RefScan.scan_region, ha] at hout
  · -- the `%` stands in `a`: so does the name, or it would be pending there
    have hregion : (RefScan.start.scan pre).region.isOutside = true := by
      rw [RefScan.scan_region]
      exact hout
    have hsplit : ('%' :: name) ++ '%' :: suf = r ++ b := by simpa using hr'
    rcases cut_piece hsplit.symm with ⟨p, hp, hb⟩ | ⟨u, hu, rfl, hsuf⟩
    · obtain ⟨c, cs, rfl⟩ := List.exists_cons_of_ne_nil hr
      obtain ⟨rfl, rfl⟩ := List.cons.inj hp
      rw [RefScan.scan_append, pending_of_open hregion fun c hc => hident c (by simp [hc])] at ha
      exact absurd (congrArg RefScan.pending ha) (by simp [RefScan.start])
    · refine .inl ⟨?_, hne, hident, hout⟩
      obtain ⟨c, cs, rfl⟩ := List.exists_cons_of_ne_nil hu
      obtain ⟨rfl, -⟩ := List.cons.inj hsuf
      exact ⟨cs, by simp⟩

/-- **References at the seam.** Every `%name%` in the output outside
strings and comments was undefined where it was written, and a warning
names it there. -/
def SeamReported (env : Env) (s : State) (n : ℕ) : Prop :=
  ∀ pre name, Occurs (runState env n s).output pre name →
    ∃ k < n, (runState env k s).output.length ≤ pre.length ∧
      pre.length < (runState env (k + 1) s).output.length ∧
      ∃ f fs, (runState env k s).includeStack = f :: fs ∧
        RefsReported (runState env k s).macros f.loc [name] (runState env n s).diags

theorem RefsReported.grow {macros : MacroTable} {loc : SourceLocation} {names : List Text}
    {ds es : List Diag} (h : RefsReported macros loc names ds) (hpre : ds <+: es) :
    RefsReported macros loc names es := by
  intro n hn
  obtain ⟨hnone, d, hd, hrep⟩ := h n hn
  exact ⟨hnone, d, hpre.subset hd, hrep⟩

theorem Occurs.length_lt {out pre name : Text} (h : Occurs out pre name) :
    pre.length < out.length := by
  obtain ⟨suf, rfl⟩ := h.at_pre
  simp

theorem seamReported_run {n : ℕ} (hab : (runState env n s).aborted = none) (hout : s.output = [])
    (hsafe : ∀ k < n, refSafe env (runState env k s) = true) : SeamReported env s n := by
  induction n with
  | zero =>
    intro pre name hocc
    have hlt := hocc.length_lt
    simp [runState, hout] at hlt
  | succ n ih =>
    have hab' := running_of_runState (Nat.le_succ n) hab
    have hgrow := runState_grows (Nat.le_succ n) hab
    have hprev : SeamReported env s n := ih hab' fun k hk => hsafe k (by omega)
    have hkeep : ∀ pre name, Occurs (runState env n s).output pre name →
        ∃ k < n + 1, (runState env k s).output.length ≤ pre.length ∧
          pre.length < (runState env (k + 1) s).output.length ∧
          ∃ f fs, (runState env k s).includeStack = f :: fs ∧
            RefsReported (runState env k s).macros f.loc [name] (runState env (n + 1) s).diags := by
      intro pre name hocc
      obtain ⟨k, hk, hle, hlt, f, fs, hst, hrep⟩ := hprev pre name hocc
      exact ⟨k, by omega, hle, hlt, f, fs, hst, hrep.grow hgrow.diags⟩
    intro pre name hocc
    cases hs : step env (runState env n s) with
    | none =>
      rw [runState_succ, hs, Option.getD_none] at hocc
      exact hkeep pre name hocc
    | some t =>
      have hrun : runState env (n + 1) s = t := by rw [runState_succ, hs, Option.getD_some]
      have hsafe' := hsafe n (by omega)
      obtain ⟨f, fs, x, hst, hx, hrep⟩ := refsReported_step hsafe' hs (hrun ▸ hab)
      simp only [refSafe, Bool.and_eq_true, decide_eq_true_eq] at hsafe'
      have hlt := hocc.length_lt
      rw [hrun, hx] at hocc
      rcases hocc.of_append hsafe'.1.1 with hocc | ⟨hle, hmem⟩
      · exact hkeep pre name hocc
      · refine ⟨n, by omega, hle, hlt, f, fs, hst, ?_⟩
        rw [hrun]
        intro m hm
        rw [List.mem_singleton.1 hm]
        exact hrep name hmem

/-- **No resolvable reference crosses the seam** in a successful run
whose steps are safe. -/
theorem seamReported_of_refSafe {path : Text} {input : SourceText}
    {predefined : List (Text × Text)} {n : ℕ}
    (hrun : (runState env n (initial path input predefined)).succeeded = true)
    (hsafe : ∀ k < n, refSafe env (runState env k (initial path input predefined)) = true) :
    SeamReported env (initial path input predefined) n :=
  seamReported_run (clean_of_succeeded (Nat.le_refl n) hrun).1 rfl hsafe

/-- A defined reference and an undefined one. -/
def splicedFile : SourceText := ⟨"#define A 1\nx = %A% + %B%;\n".toList, by decide⟩

theorem seamReported_splicedFile :
    (runState bareEnv 3 (initial "f.nsl".toList splicedFile [])).succeeded = true ∧
      (∀ k < 3, refSafe bareEnv (runState bareEnv k (initial "f.nsl".toList splicedFile [])) = true) ∧
      SeamReported bareEnv (initial "f.nsl".toList splicedFile []) 3 := by
  have hrun : (runState bareEnv 3 (initial "f.nsl".toList splicedFile [])).succeeded = true := by
    decide +kernel
  have hsafe : ∀ k < 3,
      refSafe bareEnv (runState bareEnv k (initial "f.nsl".toList splicedFile [])) = true := by
    decide +kernel
  exact ⟨hrun, hsafe, seamReported_of_refSafe hrun hsafe⟩

/-- A body that is a reference itself. -/
def nestedRefFile : SourceText := ⟨"#define A %B%\n#define B 1\n%A%\n".toList, by decide⟩

/-- The reference in the body is written as it stands, though it is
defined. -/
theorem not_seamReported_nestedRefFile :
    (runState bareEnv 4 (initial "f.nsl".toList nestedRefFile [])).succeeded = true ∧
      ¬ SeamReported bareEnv (initial "f.nsl".toList nestedRefFile []) 4 := by
  refine ⟨by decide +kernel, fun h => ?_⟩
  have hocc : Occurs (runState bareEnv 4 (initial "f.nsl".toList nestedRefFile [])).output
      ['\n', '\n'] ['B'] :=
    ⟨⟨['\n'], by decide +kernel⟩, by decide, by simp [isIdentBody, isIdentStart], rfl⟩
  obtain ⟨k, hk, hle, hlt, f, fs, -, hrep⟩ := h _ _ hocc
  have hundef := (hrep ['B'] (by simp)).1
  have hk' : ∀ k < 4,
      (runState bareEnv k (initial "f.nsl".toList nestedRefFile [])).output.length ≤ 2 →
      2 < (runState bareEnv (k + 1) (initial "f.nsl".toList nestedRefFile [])).output.length →
      ((runState bareEnv k (initial "f.nsl".toList nestedRefFile [])).macros.lookup ['B']).isSome
        = true := by
    decide +kernel
  have hdef := hk' k hk hle hlt
  rw [hundef] at hdef
  exact absurd hdef (by simp)

end Preprocess

end Nslc
