import Nslc.Common.Regions
import Nslc.Preprocess.Reports
/-!
# Preprocessor — float literals at the seam

`scanForFloatOnPassthrough` hunts for the float literals that begin with
a digit and have a digit behind the dot or behind the exponent mark. It
cuts strings and comments line by line, and where a line begins outside
of them it misses no such literal: a run that succeeds copies none.
-/

namespace Nslc

namespace Preprocess

/-! ## Float literals -/

/-- `decimal_digits`. -/
def DecimalDigits (t : Text) : Prop :=
  ∃ c cs, t = c :: cs ∧ isDigit c = true ∧ ∀ d ∈ cs, isDigit d = true ∨ d = '_'

/-- `exponent_part`. -/
def ExponentPart (t : Text) : Prop :=
  ∃ m sign digits, t = m :: (sign ++ digits) ∧ (m = 'e' ∨ m = 'E') ∧
    (sign = [] ∨ sign = ['+'] ∨ sign = ['-']) ∧ DecimalDigits digits

/-- `float_literal`. -/
inductive FloatLiteral : Text → Prop
  | point {d f e : Text} : DecimalDigits d → (f = [] ∨ DecimalDigits f) →
      (e = [] ∨ ExponentPart e) → FloatLiteral (d ++ '.' :: (f ++ e))
  | leadingPoint {f e : Text} : DecimalDigits f → (e = [] ∨ ExponentPart e) →
      FloatLiteral ('.' :: (f ++ e))
  | exponent {d e : Text} : DecimalDigits d → ExponentPart e → FloatLiteral (d ++ e)

/-- Digits without separators. -/
def PlainDigits (t : Text) : Prop := t ≠ [] ∧ ∀ c ∈ t, isDigit c = true

/-- The literals the seam hunts for: plain digits in front, and a digit
behind the dot or an exponent. -/
inductive SeamFloat : Text → Prop
  | point {d f e : Text} : PlainDigits d → DecimalDigits f → (e = [] ∨ ExponentPart e) →
      SeamFloat (d ++ '.' :: (f ++ e))
  | exponent {d e : Text} : PlainDigits d → ExponentPart e → SeamFloat (d ++ e)

theorem PlainDigits.decimalDigits {t : Text} (h : PlainDigits t) : DecimalDigits t := by
  obtain ⟨hne, hall⟩ := h
  obtain ⟨c, cs, rfl⟩ := List.exists_cons_of_ne_nil hne
  exact ⟨c, cs, rfl, hall c (by simp), fun d hd => .inl (hall d (by simp [hd]))⟩

theorem SeamFloat.floatLiteral {t : Text} (h : SeamFloat t) : FloatLiteral t := by
  cases h with
  | point hd hf he => exact .point hd.decimalDigits (.inr hf) he
  | exponent hd he => exact .exponent hd.decimalDigits he

/-- A literal of the kind `p` stands in `x`, which is read from region
`r` on, outside strings and comments and is no part of an identifier or
a longer number. -/
def Crosses (p : Text → Prop) (r : Region) (x : Text) : Prop :=
  ∃ pre lit suf, x = pre ++ (lit ++ suf) ∧ p lit ∧ (r.scan pre).isOutside = true ∧
    afterIdent pre.getLast? = false ∧ afterIdent suf.head? = false

/-! ## Numbers -/

theorem isIdentBody_of_isDigit {c : Char} (h : isDigit c = true) : isIdentBody c = true := by
  simp [isIdentBody, h]

theorem takeNumber_of_plain {d r : Text} (hd : ∀ c ∈ d, isDigit c = true)
    (hr : (r.head?.map isDigit).getD false = false) :
    (takeNumber (d ++ r)).isFloat = ((takeFraction r).isFloat ||
      (takeExponent (takeFraction r).rest).isFloat) := by
  have hdrop : (d ++ r).dropWhile isDigit = r := by
    rw [List.dropWhile_append_of_pos hd]
    cases r with
    | nil => rfl
    | cons c cs => simpa using hr
  simp only [takeNumber, hdrop]

/-- **The seam's number scan knows every literal it hunts for.** -/
theorem takeNumber_of_seamFloat {lit : Text} (h : SeamFloat lit) (suf : Text) :
    (takeNumber (lit ++ suf)).isFloat = true := by
  cases h with
  | @point d f e hd hf he =>
    obtain ⟨c, cs, rfl, hc, -⟩ := hf
    have heq : d ++ '.' :: ((c :: cs) ++ e) ++ suf = d ++ '.' :: c :: (cs ++ e ++ suf) := by simp
    rw [heq, takeNumber_of_plain hd.2 (by simp [isDigit])]
    simp [takeFraction, hc]
  | @exponent d e hd he =>
    obtain ⟨m, sign, digits, rfl, hm, hsign, hdig⟩ := he
    obtain ⟨c, cs, rfl, hc, -⟩ := hdig
    have heq : d ++ m :: (sign ++ c :: cs) ++ suf = d ++ m :: (sign ++ c :: (cs ++ suf)) := by simp
    have hm' : isDigit m = false ∧ m ≠ '.' := by rcases hm with rfl | rfl <;> decide
    rw [heq, takeNumber_of_plain hd.2 (by simp [hm'.1])]
    have hfrac : takeFraction (m :: (sign ++ c :: (cs ++ suf))) =
        ⟨false, [], m :: (sign ++ c :: (cs ++ suf))⟩ := by simp [takeFraction, hm'.2]
    have htake : takeSign (sign ++ c :: (cs ++ suf)) = sign := by
      rcases hsign with rfl | rfl | rfl
      · have : ¬ (c = '+' ∨ c = '-') := by
          rintro (rfl | rfl) <;> exact absurd hc (by decide)
        simp [takeSign, this]
      · rfl
      · rfl
    simp [hfrac, takeExponent, htake, hm, hc]

/-- A number that is no float is its digits. -/
theorem takeNumber_of_not_float {t : Text} (h : (takeNumber t).isFloat = false) :
    (takeNumber t).taken = t.takeWhile isDigit ∧ (takeNumber t).rest = t.dropWhile isDigit := by
  simp only [takeNumber, Bool.or_eq_false_iff] at h ⊢
  have hfrac : ∀ r, (takeFraction r).isFloat = false → takeFraction r = ⟨false, [], r⟩ := by
    intro r hr
    cases r with
    | nil => rfl
    | cons c cs =>
      simp only [takeFraction] at hr ⊢
      split_ifs at hr ⊢
      rfl
  have hexp : ∀ r, (takeExponent r).isFloat = false → takeExponent r = ⟨false, [], r⟩ := by
    intro r hr
    cases r with
    | nil => rfl
    | cons c cs =>
      simp only [takeExponent] at hr ⊢
      split_ifs at hr ⊢
      rfl
  have h1 := hfrac _ h.1
  have h2 := hexp _ h.2
  rw [h2, h1]
  simp

/-! ## The scan -/

/-- Code is read from region `r` on as from code: a `/` just read opens
no comment with what follows. -/
def ReadsAsCode (r : Region) (t : Text) : Prop :=
  r = .code ∨ r = .slash ∧ t.head? ≠ some '/' ∧ t.head? ≠ some '*'

theorem ReadsAsCode.next {r : Region} {c : Char} {cs : Text} (h : ReadsAsCode r (c :: cs)) :
    r.next c = Region.code.next c := by
  rcases h with rfl | ⟨rfl, h₁, h₂⟩
  · rfl
  · exact Region.next_slash (by simpa using h₁) (by simpa using h₂)

/-- The byte in front of what follows `pre`, `prev` being the one in
front of `pre`. -/
def byteBefore (prev : Option Char) (pre : Text) : Option Char := pre.getLast?.or prev

theorem byteBefore_append (prev : Option Char) (a b : Text) :
    byteBefore prev (a ++ b) = byteBefore (byteBefore prev a) b := by
  simp only [byteBefore, List.getLast?_append, Option.or_assoc]

theorem byteBefore_cons (prev : Option Char) (c : Char) (t : Text) :
    byteBefore prev (c :: t) = (c :: t).getLast? := by
  simp [byteBefore, List.getLast?_cons]

/-- A cut of a text is behind a piece in front of it, or within it. -/
theorem cut_piece {piece rest pre suf : Text} (h : piece ++ rest = pre ++ suf) :
    (∃ p, pre = piece ++ p ∧ rest = p ++ suf) ∨
      ∃ b, b ≠ [] ∧ piece = pre ++ b ∧ suf = b ++ rest := by
  rcases List.append_eq_append_iff.1 h with ⟨p, hp, hr⟩ | ⟨b, hb, hs⟩
  · exact .inl ⟨p, hp, hr⟩
  · cases b with
    | nil => exact .inl ⟨[], by simpa using hb.symm, by simpa using hs.symm⟩
    | cons c cs => exact .inr ⟨c :: cs, by simp, hb, hs⟩

/-- Digits lead from code to code. -/
theorem scan_digits {r : Region} {d rest : Text} (h : ReadsAsCode r (d ++ rest)) (hne : d ≠ [])
    (hd : ∀ c ∈ d, isDigit c = true) : r.scan d = .code := by
  have hcode : ∀ c, isDigit c = true → Region.code.next c = .code := by
    intro c hc
    have h₁ : c ≠ '"' := by rintro rfl; exact absurd hc (by decide)
    have h₂ : c ≠ '/' := by rintro rfl; exact absurd hc (by decide)
    simp [Region.next, h₁, h₂]
  obtain ⟨c, cs, rfl⟩ := List.exists_cons_of_ne_nil hne
  rw [Region.scan_cons, h.next, hcode c (hd c (by simp))]
  have hcs : ∀ e ∈ cs, isDigit e = true := fun e he => hd e (by simp [he])
  clear h hd hne
  induction cs with
  | nil => rfl
  | cons e es ih =>
    rw [Region.scan_cons, hcode e (hcs e (by simp))]
    exact ih fun a ha => hcs a (by simp [ha])

/-- **What the scan does not find is not there.** -/
theorem scanForFloatUpto_complete (loc : SourceLocation) (fuel : ℕ) :
    ∀ (pos : ℕ) (prev : Option Char) (r : Region) (t : Text), t.length < fuel → '\n' ∉ t →
      ReadsAsCode r t → scanForFloatUpto loc fuel pos prev t = [] →
      ∀ pre suf, t = pre ++ suf → (r.scan pre).isOutside = true →
        afterIdent (byteBefore prev pre) = false → (suf.head?.map isDigit).getD false = true →
        (takeNumber suf).isFloat = false := by
  induction fuel with
  | zero => exact fun _ _ _ t h => absurd h (Nat.not_lt_zero _)
  | succ fuel ih =>
    intro pos prev r t hlen hnl hr hscan pre suf ht hout hprev hdig
    have hsuf : suf ≠ [] := by
      rintro rfl
      exact absurd hdig (by simp)
    cases t with
    | nil => exact absurd (List.append_eq_nil_iff.1 ht.symm).2 hsuf
    | cons c cs =>
      simp only [List.length_cons] at hlen
      -- behind a piece that leads back to code the scan goes on
      have hgo : ∀ (piece rest : Text) (pos : ℕ) (r' : Region), c :: cs = piece ++ rest →
          piece ≠ [] → r.scan piece = r' → ReadsAsCode r' rest →
          scanForFloatUpto loc fuel pos piece.getLast? rest = [] →
          ∀ p, pre = piece ++ p → rest = p ++ suf → (takeNumber suf).isFloat = false := by
        intro piece rest pos r' hpiece hne hregion hcode hrest p hpre hp
        have hshort := congrArg List.length hpiece
        have hpos : 0 < piece.length := List.length_pos_iff.2 hne
        rw [List.length_cons, List.length_append] at hshort
        refine ih pos piece.getLast? r' rest (by omega) ?_ hcode hrest p suf hp ?_ ?_ hdig
        · intro hmem
          exact hnl (by rw [hpiece]; simp [hmem])
        · rw [← hregion, ← Region.scan_append, ← hpre]
          exact hout
        · obtain ⟨d, ds, rfl⟩ := List.exists_cons_of_ne_nil hne
          rw [← byteBefore_cons prev d ds, ← byteBefore_append, ← hpre]
          exact hprev
      -- in front of the first byte stands no digit but that one
      have hfront : isDigit c = false → pre ≠ [] := by
        rintro hc rfl
        rw [List.nil_append] at ht
        rw [← ht] at hdig
        simp [hc] at hdig
      simp only [scanForFloatUpto] at hscan
      split_ifs at hscan with hq hl hb hd hf
      · -- a string
        subst hq
        have hnl' : '\n' ∉ cs := fun h => hnl (by simp [h])
        obtain ⟨hin, hend⟩ := scan_takeString hnl'
        have happ := takeString_append cs
        have hnext : r.next '"' = .string := hr.next
        have hcut : ('"' :: (takeString cs).1) ++ (takeString cs).2 = pre ++ suf := by
          rw [List.cons_append, happ]
          exact ht
        rcases cut_piece hcut with ⟨p, hpre, hp⟩ | ⟨b, hbne, hpiece, -⟩
        · rcases hend with hcode | ⟨hnil, -⟩
          · refine hgo _ _ _ .code ?_ (by simp) ?_ (.inl rfl) hscan p hpre hp
            · rw [List.cons_append, happ]
            · rw [Region.scan_cons, hnext, hcode]
          · rw [hnil] at hp
            exact absurd (List.append_eq_nil_iff.1 hp.symm).2 hsuf
        · cases pre with
          | nil => exact absurd rfl (hfront (by decide))
          | cons e es =>
            obtain ⟨rfl, hes⟩ := List.cons.inj hpiece
            rw [Region.scan_cons, hnext, hin es b hes hbne] at hout
            exact absurd hout (by simp)
      · -- a line comment
        obtain ⟨rfl, hhead⟩ := hl
        obtain ⟨ds, rfl⟩ : ∃ ds, cs = '/' :: ds := by
          cases cs with
          | nil => simp at hhead
          | cons d ds => exact ⟨ds, by simpa using hhead⟩
        have hnext : r.next '/' = .slash := hr.next
        obtain ⟨e, es, rfl⟩ := List.exists_cons_of_ne_nil (hfront (by decide))
        obtain ⟨rfl, hes⟩ := List.cons.inj ht
        cases es with
        | nil =>
          obtain rfl : '/' :: ds = suf := hes
          exact absurd hdig (by simp [isDigit])
        | cons g gs =>
          obtain ⟨rfl, hgs⟩ := List.cons.inj hes
          have hgl : '\n' ∉ gs := fun h => hnl (by rw [hgs]; simp [h])
          rw [Region.scan_cons, hnext, Region.scan_cons] at hout
          rw [show Region.slash.next '/' = .lineComment from rfl,
            Region.scan_lineComment hgl] at hout
          exact absurd hout (by decide)
      · -- a block comment
        obtain ⟨rfl, hhead⟩ := hb
        obtain ⟨ds, rfl⟩ : ∃ ds, cs = '*' :: ds := by
          cases cs with
          | nil => simp at hhead
          | cons d ds => exact ⟨ds, by simpa using hhead⟩
        rw [List.tail_cons] at hscan
        obtain ⟨hin, hclosed, hopen⟩ := scan_takeBlock (r := .block) (t := ds) (.inl rfl)
        have happ := takeBlock_append ds
        have hnext : ∀ es, r.scan ('/' :: '*' :: es) = Region.block.scan es := by
          intro es
          rw [Region.scan_cons, show r.next '/' = .slash from hr.next, Region.scan_cons]
          rfl
        -- within the opening mark no number begins, behind it the region decides
        have hopening : ∃ es, pre = '/' :: '*' :: es ∧ ds = es ++ suf := by
          obtain ⟨e, es, rfl⟩ := List.exists_cons_of_ne_nil (hfront (by decide))
          obtain ⟨rfl, hes⟩ := List.cons.inj ht
          cases es with
          | nil =>
            obtain rfl : '*' :: ds = suf := hes
            exact absurd hdig (by simp [isDigit])
          | cons g gs =>
            obtain ⟨rfl, hgs⟩ := List.cons.inj hes
            exact ⟨gs, rfl, hgs⟩
        obtain ⟨es, hpre, hes⟩ := hopening
        rw [hpre, hnext] at hout
        cases hc : (takeBlock ds).closed with
        | false =>
          rw [(hopen hc).1 es suf hes hsuf] at hout
          exact absurd hout (by simp)
        | true =>
          rcases cut_piece (happ.trans hes) with ⟨p, hp, hrest⟩ | ⟨b, hbne, hpiece, -⟩
          · refine hgo ('/' :: '*' :: (takeBlock ds).copied) (takeBlock ds).rest
              (pos + 2 + (takeBlock ds).copied.length) .code ?_ (by simp) ?_ (.inl rfl) ?_ p ?_ hrest
            · rw [List.cons_append, List.cons_append, happ]
            · rw [hnext, hclosed hc]
            · simpa [List.getLast?_cons] using hscan
            · rw [hpre, hp]
              rfl
          · rw [hin es b hpiece hbne] at hout
            exact absurd hout (by simp)
      · exact absurd (List.append_eq_nil_iff.1 hscan).1 (by simp)
      · -- a number that is no float
        obtain ⟨-, hrest⟩ := List.append_eq_nil_iff.1 hscan
        have hnot : (takeNumber (c :: cs)).isFloat = false := by simpa using hf
        obtain ⟨htaken, hrest'⟩ := takeNumber_of_not_float hnot
        rw [htaken, hrest'] at hrest
        have happ : (c :: cs).takeWhile isDigit ++ (c :: cs).dropWhile isDigit = c :: cs :=
          List.takeWhile_append_dropWhile
        have hne : (c :: cs).takeWhile isDigit ≠ [] := by simp [hd.1]
        have hall : ∀ e ∈ (c :: cs).takeWhile isDigit, isDigit e = true :=
          fun e he => List.mem_takeWhile_imp he
        rcases cut_piece (happ.trans ht) with ⟨p, hpre, hp⟩ | ⟨b, hbne, hpiece, -⟩
        · exact hgo _ _ _ .code happ.symm hne (scan_digits (by rw [happ]; exact hr) hne hall)
            (.inl rfl) hrest p hpre hp
        · cases pre with
          | nil =>
            rw [List.nil_append] at ht
            rw [← ht]
            exact hnot
          | cons e es =>
            -- a digit stands in front
            have hmem : (e :: es).getLast (by simp) ∈ (c :: cs).takeWhile isDigit := by
              rw [hpiece]
              exact List.mem_append_left _ (List.getLast_mem _)
            rw [byteBefore_cons, List.getLast?_eq_some_getLast (by simp)] at hprev
            simp [afterIdent, isIdentBody_of_isDigit (hall _ hmem)] at hprev
      · -- any other byte
        cases pre with
        | nil =>
          rw [List.nil_append] at ht
          rw [← ht] at hdig
          exact absurd ⟨by simpa using hdig, hprev⟩ hd
        | cons e es =>
          obtain ⟨rfl, hes⟩ := List.cons.inj ht
          refine hgo [c] cs _ (Region.code.next c) rfl (by simp) (hr.next) ?_ hscan es rfl hes
          by_cases hs : c = '/'
          · refine .inr ⟨by simp [Region.next, hs], fun h => hl ⟨hs, h⟩, fun h => hb ⟨hs, h⟩⟩
          · exact .inl (by simp [Region.next, hq, hs])

/-! ## Runs -/

/-- The text the next step copies to the output: the line read next is a
passthrough line of a selected branch. -/
def copiedText? (env : Env) (s : State) : Option Text :=
  match s.aborted, s.includeStack with
  | none, f :: _ =>
    match readLine (s.sm.getBuffer f.fid) f.cursor with
    | none => none
    | some l =>
      if isEmitting f.condStack = true ∧ lineDirective l = .passthrough then
        some (splice env.expr s.macros (stripCR l.body) f.loc).1
      else none
  | _, _ => none

variable {env : Env} {s t : State} {x : Text}

theorem copiedText?_eq_some_iff :
    copiedText? env s = some x ↔
      ∃ f fs l, s.aborted = none ∧ s.includeStack = f :: fs ∧
        readLine (s.sm.getBuffer f.fid) f.cursor = some l ∧ isEmitting f.condStack = true ∧
        lineDirective l = .passthrough ∧
        x = (splice env.expr s.macros (stripCR l.body) f.loc).1 := by
  constructor
  · intro h
    unfold copiedText? at h
    split at h
    · rename_i f fs hab hst
      split at h
      · exact absurd h (by simp)
      · rename_i l hr
        split at h
        · rename_i hcond
          exact ⟨f, fs, l, hab, hst, hr, hcond.1, hcond.2, (Option.some.inj h).symm⟩
        · exact absurd h (by simp)
    · exact absurd h (by simp)
  · rintro ⟨f, fs, l, hab, hst, hr, he, hd, rfl⟩
    simp [copiedText?, hab, hst, hr, he, hd]

/-- The step that copies a line. -/
theorem step_of_copied {f : Frame} {fs : List Frame} {l : Line} (hab : s.aborted = none)
    (hst : s.includeStack = f :: fs) (hr : readLine (s.sm.getBuffer f.fid) f.cursor = some l)
    (he : isEmitting f.condStack = true) (hd : lineDirective l = .passthrough) :
    step env s = some (passLine env.expr { s with includeStack := f.next env s l :: fs }
      (stripCR l.body) f.loc l.term) := by
  simp [step, hab, hst, hr, stepLine, dispatch, hd, he]

theorem scanForFloat_error (loc : SourceLocation) (fuel : ℕ) :
    ∀ (pos : ℕ) (prev : Option Char) (t : Text),
      ∀ d ∈ scanForFloatUpto loc fuel pos prev t, d.severity = .error := by
  induction fuel with
  | zero => exact fun _ _ _ d hd => absurd hd (by simp [scanForFloatUpto])
  | succ fuel ih =>
    intro pos prev t
    cases t with
    | nil => exact fun d hd => absurd hd (by simp [scanForFloatUpto])
    | cons c cs =>
      simp only [scanForFloatUpto]
      split_ifs
      · exact ih _ _ _
      · exact fun d hd => absurd hd (by simp)
      · exact ih _ _ _
      · intro d hd
        rcases List.mem_append.1 hd with hd | hd
        · rw [List.mem_singleton.1 hd]
        · exact ih _ _ _ d hd
      · exact fun d hd => ih _ _ _ d (by simpa using hd)
      · exact ih _ _ _

/-- **No float the seam hunts for crosses it.** A run that succeeds has
copied none, where the line begins outside strings and comments. -/
theorem no_seamFloat_crosses {path : Text} {input : SourceText}
    {predefined : List (Text × Text)} {n : ℕ}
    (h : (runState env n (initial path input predefined)).succeeded = true) :
    ∀ k < n, ∀ x, copiedText? env (runState env k (initial path input predefined)) = some x →
      '\n' ∉ x →
      Region.code.scan (runState env k (initial path input predefined)).output = .code →
      ¬ Crosses SeamFloat
        (Region.code.scan (runState env k (initial path input predefined)).output) x := by
  rintro k hk x hx hnl hcode ⟨pre, lit, suf, heq, hlit, hout, hprev, -⟩
  rw [hcode] at hout
  obtain ⟨f, fs, l, hab, hst, hr, he, hd, rfl⟩ := copiedText?_eq_some_iff.1 hx
  -- nothing is reported for the line
  have herr := (clean_of_succeeded hk h).2
  rw [runState_succ, step_of_copied hab hst hr he hd, Option.getD_some] at herr
  simp only [passLine, State.emit, State.addDiags, hasError, List.any_append,
    Bool.or_eq_false_iff] at herr
  have hnone : scanForFloatOnPassthrough
      (splice env.expr (runState env k (initial path input predefined)).macros (stripCR l.body)
        f.loc).1 f.loc = [] := by
    by_contra hne
    obtain ⟨d, ds, hds⟩ := List.exists_cons_of_ne_nil hne
    have hsev := scanForFloat_error f.loc _ 0 none _ d
      (by rw [scanForFloatOnPassthrough] at hds; rw [hds]; simp)
    have hany := herr.2.2
    rw [hds] at hany
    simp [hsev] at hany
  have hdig : ((lit ++ suf).head?.map isDigit).getD false = true := by
    cases hlit with
    | point hd =>
      obtain ⟨c, cs, rfl⟩ := List.exists_cons_of_ne_nil hd.1
      simp [hd.2 c (by simp)]
    | exponent hd =>
      obtain ⟨c, cs, rfl⟩ := List.exists_cons_of_ne_nil hd.1
      simp [hd.2 c (by simp)]
  have hnot := scanForFloatUpto_complete f.loc _ 0 none .code _ (Nat.lt_succ_self _) hnl (.inl rfl)
    hnone pre (lit ++ suf) heq hout (by simpa [byteBefore] using hprev) hdig
  rw [takeNumber_of_seamFloat hlit] at hnot
  exact absurd hnot (by simp)

def integerFile : SourceText := ⟨"x = 12;\n".toList, by decide⟩

theorem no_seamFloat_crosses_integerFile :
    (runState bareEnv 2 (initial "f.nsl".toList integerFile [])).succeeded = true ∧
      ¬ Crosses SeamFloat .code "x = 12;".toList := by
  have hrun : (runState bareEnv 2 (initial "f.nsl".toList integerFile [])).succeeded = true := by
    decide +kernel
  exact ⟨hrun, no_seamFloat_crosses hrun 0 (by decide) _ (by decide +kernel) (by decide) (by decide)⟩

def trailingDotFile : SourceText := ⟨"x = 45.;\n".toList, by decide⟩

/-- A literal with nothing behind its dot crosses the seam. -/
theorem floatLiteral_crosses_trailingDotFile :
    (runState bareEnv 2 (initial "f.nsl".toList trailingDotFile [])).succeeded = true ∧
      copiedText? bareEnv (runState bareEnv 0 (initial "f.nsl".toList trailingDotFile [])) =
        some "x = 45.;".toList ∧
      Crosses FloatLiteral (Region.code.scan
        (runState bareEnv 0 (initial "f.nsl".toList trailingDotFile [])).output)
        "x = 45.;".toList := by
  refine ⟨by decide +kernel, by decide +kernel, "x = ".toList, "45.".toList, ";".toList, by decide, ?_,
    by decide, by decide, by decide⟩
  exact .point (d := ['4', '5']) (f := []) (e := [])
    ⟨'4', ['5'], rfl, by decide, fun d hd => .inl (by rw [List.mem_singleton.1 hd]; decide)⟩
    (.inl rfl) (.inl rfl)

end Preprocess

end Nslc
