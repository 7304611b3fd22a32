import Nslc.Common.Regions
import Nslc.Lex.Numbers
import Nslc.Lex.Tiling
/-!
# Line directives among the tokens

Where the lexer takes a `#line` for a directive. It does so where it has
gone on to a new line and met no token there yet, outside comments and
strings; a directive itself goes on to the newline whatever stands in it.
`mem_pull_directive_iff` says so without the lexer: a text is read byte
by byte, and only the region and what stands in front in the line are
kept.
-/

namespace Nslc

namespace Lex

/-- What is known in front of a byte: its region, and whether no token
stands in front of it in its line. -/
structure Mode where
  region : Region
  atStart : Bool
  deriving DecidableEq, Repr

/-- Whether no token stands in front in the line, behind the byte `c`. -/
def startsLine (r : Region) (atStart : Bool) (c : Char) : Bool :=
  match r with
  | .code => c == '\n' || (atStart && (isBlank c || c == '/'))
  | .slash => c == '\n' || (atStart && (c == '/' || c == '*'))
  | .string => c == '\n'
  | .escape => false
  | .lineComment | .block | .star => c == '\n' || atStart

/-- Behind `c`, with `cs` to follow. A directive goes on to the newline,
as a line comment does. -/
def Mode.step (m : Mode) (c : Char) (cs : Text) : Mode :=
  if m = ⟨.code, true⟩ ∧ isLineDirective (c :: cs) = true then ⟨.lineComment, false⟩
  else ⟨m.region.next c, startsLine m.region m.atStart c⟩

/-- Behind the first `n` bytes of the text. -/
def Mode.read (m : Mode) : ℕ → Text → Mode
  | 0, _ => m
  | _ + 1, [] => m
  | n + 1, c :: cs => (m.step c cs).read n cs

/-- A directive begins at offset `o`. -/
def DirectiveAt (m : Mode) (t : Text) (o : ℕ) : Prop :=
  m.read o t = ⟨.code, true⟩ ∧ isLineDirective (t.drop o) = true

/-! ## Reading on -/

variable {m m' m'' : Mode} {t x y r : Text} {c : Char} {cs : Text} {o : ℕ} {a : Bool}

theorem isLineDirective_head (h : isLineDirective t = true) : t.head? = some '#' := by
  cases t with
  | nil => exact absurd h (by decide)
  | cons c cs =>
    have hc : c = '#' := by
      by_contra hne
      simp [isLineDirective, Ne.symm hne] at h
    rw [hc, List.head?_cons]

theorem not_directiveAt_nil (m : Mode) (o : ℕ) : ¬ DirectiveAt m [] o := by
  rintro ⟨-, h⟩
  rw [List.drop_nil] at h
  exact absurd h (by decide)

theorem directiveAt_succ : DirectiveAt m (c :: cs) (o + 1) ↔ DirectiveAt (m.step c cs) cs o :=
  Iff.rfl

theorem directiveAt_zero : DirectiveAt m t 0 ↔ m = ⟨.code, true⟩ ∧ isLineDirective t = true :=
  Iff.rfl

theorem not_directiveAt_zero (h : m ≠ ⟨.code, true⟩ ∨ t.head? ≠ some '#') :
    ¬ DirectiveAt m t 0 := by
  rintro ⟨hm, hd⟩
  rcases h with h | h
  · exact h hm
  · exact h (isLineDirective_head hd)

theorem step_of_ne (h : m ≠ ⟨.code, true⟩ ∨ c ≠ '#') :
    m.step c cs = ⟨m.region.next c, startsLine m.region m.atStart c⟩ := by
  refine if_neg ?_
  rintro ⟨hm, hd⟩
  rcases h with h | h
  · exact h hm
  · exact h (Option.some.inj (isLineDirective_head hd))

/-- Reading `x` in mode `m` leads to mode `m'` in front of `r`, and no
directive begins in `x`. -/
def Leads (m : Mode) (x : Text) (m' : Mode) (r : Text) : Prop :=
  ∀ o, DirectiveAt m (x ++ r) o ↔ ∃ o', o = x.length + o' ∧ DirectiveAt m' r o'

theorem Leads.refl (m : Mode) (r : Text) : Leads m [] m r := by
  intro o
  constructor
  · intro h
    exact ⟨o, (Nat.zero_add o).symm, h⟩
  · rintro ⟨o', rfl, h⟩
    rw [List.length_nil, Nat.zero_add]
    exact h

theorem Leads.trans (h : Leads m x m' (y ++ r)) (h' : Leads m' y m'' r) :
    Leads m (x ++ y) m'' r := by
  intro o
  rw [List.append_assoc, h o]
  constructor
  · rintro ⟨o', rfl, ho⟩
    obtain ⟨o'', rfl, ho''⟩ := (h' o').1 ho
    exact ⟨o'', by rw [List.length_append, Nat.add_assoc], ho''⟩
  · rintro ⟨o'', rfl, ho⟩
    exact ⟨y.length + o'', by rw [List.length_append, Nat.add_assoc], (h' _).2 ⟨o'', rfl, ho⟩⟩

theorem leads_byte_of_not (h : ¬ (m = ⟨.code, true⟩ ∧ isLineDirective (c :: r) = true)) :
    Leads m [c] ⟨m.region.next c, startsLine m.region m.atStart c⟩ r := by
  intro o
  cases o with
  | zero =>
    refine iff_of_false (fun hd => h (directiveAt_zero.1 hd)) ?_
    rintro ⟨o', ho, -⟩
    rw [List.length_singleton] at ho
    omega
  | succ o =>
    have hstep : DirectiveAt m ([c] ++ r) (o + 1) ↔ DirectiveAt (m.step c r) r o := Iff.rfl
    rw [hstep, Mode.step, if_neg h]
    constructor
    · intro hd
      exact ⟨o, Nat.add_comm o 1, hd⟩
    · rintro ⟨o', ho, hd⟩
      have heq : o = o' := by
        rw [List.length_singleton] at ho
        omega
      rwa [heq]

theorem leads_byte (h : m ≠ ⟨.code, true⟩ ∨ c ≠ '#') :
    Leads m [c] ⟨m.region.next c, startsLine m.region m.atStart c⟩ r := by
  refine leads_byte_of_not ?_
  rintro ⟨hm, hd⟩
  rcases h with h | h
  · exact h hm
  · exact h (Option.some.inj (isLineDirective_head hd))

/-- One byte more in front. -/
theorem Leads.cons (hm : m ≠ ⟨.code, true⟩ ∨ c ≠ '#')
    (h : Leads ⟨m.region.next c, startsLine m.region m.atStart c⟩ x m' r) :
    Leads m (c :: x) m' r :=
  (leads_byte hm).trans h

theorem ne_code (m : Mode) (h : m.region ≠ .code) : m ≠ ⟨.code, true⟩ := by
  rintro rfl
  exact h rfl

/-- Two modes that read the next byte alike, and begin no directive. -/
theorem leads_of_step (hm : m ≠ ⟨.code, true⟩ ∨ r.head? ≠ some '#')
    (hm' : m' ≠ ⟨.code, true⟩ ∨ r.head? ≠ some '#')
    (hstep : ∀ c cs, r = c :: cs → m.step c cs = m'.step c cs) : Leads m [] m' r := by
  have hiff : ∀ o, DirectiveAt m r o ↔ DirectiveAt m' r o := by
    intro o
    cases r with
    | nil => exact iff_of_false (not_directiveAt_nil m o) (not_directiveAt_nil m' o)
    | cons c cs =>
      cases o with
      | zero => exact iff_of_false (not_directiveAt_zero hm) (not_directiveAt_zero hm')
      | succ o => rw [directiveAt_succ, directiveAt_succ, hstep c cs rfl]
  intro o
  rw [List.nil_append, hiff o]
  exact Leads.refl m' r o

/-! ## Comments -/

theorem leads_lineComment (f : Bool) (h : '\n' ∉ x) :
    Leads ⟨.lineComment, f⟩ x ⟨.lineComment, f⟩ r := by
  induction x with
  | nil => exact .refl _ _
  | cons c cs ih =>
    have hc : c ≠ '\n' := fun he => h (by simp [he])
    have hnext : Region.lineComment.next c = .lineComment := by simp [Region.next, hc]
    refine .cons (.inl (by simp)) ?_
    simp only [hnext, startsLine, beq_eq_false_iff_ne.2 hc, Bool.false_or]
    exact ih fun hmem => h (by simp [hmem])

/-- At a newline, or at the end of the text. -/
def AtLineEnd (r : Text) : Prop := r = [] ∨ r.head? = some '\n'

theorem AtLineEnd.head_ne (h : AtLineEnd r) : r.head? ≠ some '#' := by
  rcases h with rfl | h
  · simp
  · rw [h]
    decide

theorem isPrefixOf_append_of_atLineEnd {w : Text} (hw : '\n' ∉ w) (h : AtLineEnd r) (t : Text) :
    w.isPrefixOf (t ++ r) = w.isPrefixOf t := by
  induction w generalizing t with
  | nil => simp
  | cons a w ih =>
    have hnext : '\n' ∉ w := fun hmem => hw (by simp [hmem])
    cases t with
    | cons c cs =>
      simp only [List.cons_append, List.isPrefixOf_cons_cons]
      rw [ih hnext cs]
    | nil =>
      -- the text behind begins with the newline that the word does not have
      rcases h with rfl | h
      · rfl
      · cases r with
        | nil => cases h
        | cons d ds =>
          obtain rfl : d = '\n' := Option.some.inj h
          have hne : (a == '\n') = false := by
            rw [beq_eq_false_iff_ne]
            rintro rfl
            exact hw (by simp)
          simp [List.isPrefixOf_cons_cons, hne]

/-- **A directive is told by its line.** -/
theorem isLineDirective_append (h : AtLineEnd r) (t : Text) :
    isLineDirective (t ++ r) = isLineDirective t := by
  unfold isLineDirective
  rw [isPrefixOf_append_of_atLineEnd (by decide) h]
  cases hword : "#line".toList.isPrefixOf t with
  | false => rfl
  | true =>
    obtain ⟨u, rfl⟩ := List.isPrefixOf_iff_prefix.1 hword
    rw [List.append_assoc]
    have hdrop : ∀ v : Text, ("#line".toList ++ v).drop 5 = v := fun v => rfl
    rw [hdrop, hdrop]
    have hend : ∀ d ∈ r.head?, (d == ' ' || d == '\t') = false ∧ isDecDigit d = false := by
      intro d hd
      rcases h with rfl | h
      · cases hd
      · rw [h] at hd
        obtain rfl := Option.some.inj hd
        decide
    cases u with
    | nil =>
      cases r with
      | nil => rfl
      | cons d ds => simp [(hend d rfl).1]
    | cons c cs =>
      simp only [List.cons_append]
      rw [← List.cons_append, List.dropWhile_append]
      cases hblank : (c :: cs).dropWhile (fun d => d == ' ' || d == '\t') with
      | cons d ds => rfl
      | nil =>
        cases r with
        | nil => rfl
        | cons d ds =>
          obtain ⟨hd, hdig⟩ := hend d rfl
          simp [hd, hdig]

theorem atLineEnd_dropWhile (t : Text) : AtLineEnd (t.dropWhile (· ≠ '\n')) := by
  cases hd : t.dropWhile (· ≠ '\n') with
  | nil => exact .inl rfl
  | cons e es =>
    have := List.head?_dropWhile_not (· ≠ '\n') t
    rw [hd] at this
    exact .inr (by simpa using this)

theorem isLineDirective_takeWhile (t : Text) :
    isLineDirective (t.takeWhile (· ≠ '\n')) = isLineDirective t := by
  conv_rhs => rw [← List.takeWhile_append_dropWhile (p := (· ≠ '\n')) (l := t)]
  rw [isLineDirective_append (atLineEnd_dropWhile t)]

/-- What is told of a line that ends inside the text is not changed by
what stands behind. -/
theorem isLineDirective_append_of_mem (h : '\n' ∈ t) (r : Text) :
    isLineDirective (t ++ r) = isLineDirective t := by
  have htake : (t ++ r).takeWhile (· ≠ '\n') = t.takeWhile (· ≠ '\n') := by
    rw [List.takeWhile_append, if_neg]
    intro hlen
    have hall := (List.takeWhile_prefix (· ≠ '\n')).eq_of_length hlen
    have := List.mem_takeWhile_imp (p := (· ≠ '\n')) (by rw [hall]; exact h)
    simp at this
  rw [← isLineDirective_takeWhile (t ++ r), htake, isLineDirective_takeWhile]

/-- Whole lines are read alike whatever stands behind them. -/
theorem read_append_of_atLineStart (h : AtLineStart t) (m : Mode) (r : Text) :
    m.read t.length (t ++ r) = m.read t.length t := by
  induction t generalizing m with
  | nil => rfl
  | cons c cs ih =>
    have hlast : (c :: cs).getLast? = some '\n' := by
      rcases h with h | h
      · cases h
      · exact h
    have hstep : m.step c (cs ++ r) = m.step c cs := by
      simp only [Mode.step]
      rw [← List.cons_append, isLineDirective_append_of_mem (List.mem_of_getLast? hlast)]
    have htail : AtLineStart cs := by
      cases cs with
      | nil => exact .inl rfl
      | cons d ds => exact .inr (by simpa using hlast)
    change (m.step c (cs ++ r)).read cs.length (cs ++ r) = (m.step c cs).read cs.length cs
    rw [hstep, ih htail]

/-- What stops at the end of a line is code there. -/
theorem leads_lineEnd (h : AtLineEnd r) (hm : m.region = .lineComment ∨ m.region = .string)
    (f : Bool) : Leads m [] ⟨.code, f⟩ r := by
  have hne : m ≠ ⟨.code, true⟩ := by
    refine ne_code m ?_
    rcases hm with hm | hm <;> rw [hm] <;> decide
  refine leads_of_step (.inl hne) (.inr h.head_ne) ?_
  rintro c cs rfl
  obtain rfl : c = '\n' := by
    rcases h with h | h
    · cases h
    · exact Option.some.inj h
  rw [step_of_ne (.inl hne), step_of_ne (.inr (by decide))]
  rcases hm with hm | hm <;> simp [hm, Region.next, startsLine]

/-- A line comment, and what else goes on to the newline, holds no
directive. -/
theorem leads_toLineEnd (f : Bool) (cs : Text) :
    Leads ⟨.lineComment, f⟩ (cs.takeWhile (· ≠ '\n')) ⟨.code, f⟩ (cs.dropWhile (· ≠ '\n')) := by
  have hbody : '\n' ∉ cs.takeWhile (· ≠ '\n') := by
    intro hmem
    have := List.mem_takeWhile_imp hmem
    simp at this
  have := (leads_lineComment (r := [] ++ cs.dropWhile (· ≠ '\n')) f hbody).trans
    (leads_lineEnd (atLineEnd_dropWhile cs) (.inl rfl) f)
  rwa [List.append_nil] at this

theorem startsLine_of_inBlock {q : Region} (h : q.InBlock t) :
    q ≠ .code ∧ ∀ f c, startsLine q f c = (c == '\n' || f) := by
  rcases h with rfl | ⟨rfl, -⟩
  · exact ⟨by decide, fun f c => rfl⟩
  · exact ⟨by decide, fun f c => rfl⟩

theorem leads_block {q : Region} (hq : q.InBlock t) (hclosed : (takeBlock t).closed = true)
    (f : Bool) :
    Leads ⟨q, f⟩ (takeBlock t).copied ⟨.code, f || (takeBlock t).copied.contains '\n'⟩
      (takeBlock t).rest := by
  fun_induction takeBlock t generalizing q f with
  | case1 => exact absurd hclosed (by simp)
  | case2 c => exact absurd hclosed (by simp)
  | case3 c d ds hcd =>
    obtain ⟨rfl, rfl⟩ := hcd
    obtain ⟨hne, hstart⟩ := startsLine_of_inBlock hq
    have hstar : q.next '*' = .star := by
      rcases hq with rfl | ⟨rfl, -⟩ <;> rfl
    refine .cons (.inl (ne_code _ hne)) ?_
    simp only [hstar, hstart]
    refine .cons (.inl (by simp)) ?_
    have hflag : (f || ['*', '/'].contains '\n') = f := by simp
    rw [hflag]
    exact .refl _ _
  | case4 c d ds hcd ih =>
    obtain ⟨hne, hstart⟩ := startsLine_of_inBlock hq
    refine .cons (.inl (ne_code _ hne)) ?_
    have hin : (q.next c).InBlock (d :: ds) :=
      hq.next fun h => hcd ⟨h.1, Option.some.inj h.2⟩
    simp only [hstart]
    have htail := ih hin hclosed (c == '\n' || f)
    have hflag : (f || (c :: (takeBlock (d :: ds)).copied).contains '\n') =
        ((c == '\n' || f) || (takeBlock (d :: ds)).copied.contains '\n') := by
      simp only [List.contains_cons]
      cases f <;> simp [Bool.beq_comm]
    rw [hflag]
    exact htail

/-- A block comment that is not closed holds no directive. -/
theorem not_directiveAt_open {q : Region} (hq : q.InBlock t)
    (hopen : (takeBlock t).closed = false) (f : Bool) (o : ℕ) : ¬ DirectiveAt ⟨q, f⟩ t o := by
  fun_induction takeBlock t generalizing q f o with
  | case1 => exact not_directiveAt_nil _ _
  | case2 c =>
    intro h
    obtain ⟨o', -, h⟩ := (leads_byte (m := ⟨q, f⟩) (c := c) (r := [])
      (.inl (ne_code _ (startsLine_of_inBlock hq).1)) o).1 h
    exact not_directiveAt_nil _ _ h
  | case3 c d ds hcd => exact absurd hopen (by simp)
  | case4 c d ds hcd ih =>
    intro h
    obtain ⟨o', -, h⟩ := (leads_byte (m := ⟨q, f⟩) (c := c) (r := d :: ds)
      (.inl (ne_code _ (startsLine_of_inBlock hq).1)) o).1 h
    have hin : (q.next c).InBlock (d :: ds) :=
      hq.next fun h => hcd ⟨h.1, Option.some.inj h.2⟩
    exact ih hin hopen _ o' h

theorem leads_nil (h : ∀ o, ¬ DirectiveAt m x o) : Leads m x m' [] := by
  intro o
  rw [List.append_nil]
  refine iff_of_false (h o) ?_
  rintro ⟨o', -, hd⟩
  exact not_directiveAt_nil _ _ hd

/-- No blank and no comment is in front. -/
def TokenFront (t : Text) : Prop :=
  ∀ c cs, t = c :: cs → isBlank c = false ∧
    ¬ (c = '/' ∧ (cs.head? = some '/' ∨ cs.head? = some '*'))

theorem tokenFront_nil : TokenFront [] := by
  rintro c cs h
  cases h

/-- **What is skipped holds no directive**, and behind it the lexer knows
what the modes know. -/
theorem leads_skip (fuel : ℕ) (t : Text) (a : Bool) (h : t.length < fuel) :
    ∃ gap, t = gap ++ (skipUpto fuel t a).1 ∧
      Leads ⟨.code, a⟩ gap ⟨.code, (skipUpto fuel t a).2⟩ (skipUpto fuel t a).1 ∧
      TokenFront (skipUpto fuel t a).1 := by
  induction fuel generalizing t a with
  | zero => exact absurd h (Nat.not_lt_zero _)
  | succ fuel ih =>
    cases t with
    | nil => exact ⟨[], rfl, .refl _ _, tokenFront_nil⟩
    | cons c cs =>
      rw [List.length_cons] at h
      have hslash : startsLine .code a '/' = a := by simp [startsLine]
      simp only [skipUpto]
      split
      · next hc =>
        subst hc
        obtain ⟨gap, hcs, hgap, hfront⟩ := ih cs true (by omega)
        exact ⟨'\n' :: gap, congrArg _ hcs, .cons (.inr (by decide)) hgap, hfront⟩
      split
      · next hnl hc =>
        obtain ⟨gap, hcs, hgap, hfront⟩ := ih cs a (by omega)
        refine ⟨c :: gap, congrArg _ hcs, .cons (.inr ?_) ?_, hfront⟩
        · rintro rfl
          exact absurd hc (by decide)
        · have hnext : Region.code.next c = .code := by
            have hquote : c ≠ '"' := by
              rintro rfl
              exact absurd hc (by decide)
            have hbar : c ≠ '/' := by
              rintro rfl
              exact absurd hc (by decide)
            simp [Region.next, hquote, hbar]
          have hstart : startsLine .code a c = a := by
            simp [startsLine, hc, hnl]
          simp only [hnext, hstart]
          exact hgap
      split
      · next hc =>
        obtain ⟨rfl, hhead⟩ := hc
        obtain ⟨ds, rfl⟩ : ∃ ds, cs = '/' :: ds := by
          cases cs with
          | nil => simp at hhead
          | cons d ds => exact ⟨ds, by simpa using hhead⟩
        rw [List.length_cons] at h
        rw [List.tail_cons]
        have hsplit : ds.takeWhile (· ≠ '\n') ++ ds.dropWhile (· ≠ '\n') = ds :=
          List.takeWhile_append_dropWhile
        have hlt : (ds.dropWhile (· ≠ '\n')).length ≤ ds.length :=
          (List.dropWhile_suffix _).length_le
        obtain ⟨gap, hcs, hgap, hfront⟩ := ih (ds.dropWhile (· ≠ '\n')) a (by omega)
        refine ⟨'/' :: '/' :: (ds.takeWhile (· ≠ '\n') ++ gap), ?_, ?_, hfront⟩
        · rw [List.cons_append, List.cons_append, List.append_assoc, ← hcs, hsplit]
        · refine .cons (.inr (by decide)) (.cons (.inl (by simp [Region.next])) ?_)
          simp only [hslash]
          have hcomment := leads_toLineEnd a ds
          rw [hcs] at hcomment
          have hflag : startsLine .slash a '/' = a := by simp [startsLine]
          simp only [show Region.code.next '/' = .slash from rfl,
            show Region.slash.next '/' = .lineComment from rfl, hflag]
          exact hcomment.trans hgap
      split
      · next hc =>
        obtain ⟨rfl, hhead⟩ := hc
        obtain ⟨ds, rfl⟩ : ∃ ds, cs = '*' :: ds := by
          cases cs with
          | nil => simp at hhead
          | cons d ds => exact ⟨ds, by simpa using hhead⟩
        rw [List.length_cons] at h
        rw [List.tail_cons]
        have hflag : startsLine .slash a '*' = a := by simp [startsLine]
        have hopening : ∀ {y : Text} {m' : Mode} {r : Text}, Leads ⟨.block, a⟩ y m' r →
            Leads ⟨.code, a⟩ ('/' :: '*' :: y) m' r := by
          intro y m' r hy
          refine .cons (.inr (by decide)) (.cons (.inl (by simp [Region.next])) ?_)
          simp only [hslash, show Region.code.next '/' = .slash from rfl,
            show Region.slash.next '*' = .block from rfl, hflag]
          exact hy
        have happ := takeBlock_append ds
        cases hclosed : (takeBlock ds).closed with
        | true =>
          have hlt : (takeBlock ds).rest.length ≤ ds.length := by
            have hlen := congrArg List.length happ
            rw [List.length_append] at hlen
            omega
          obtain ⟨gap, hcs, hgap, hfront⟩ := ih (takeBlock ds).rest
            (a || (takeBlock ds).copied.contains '\n') (by omega)
          simp only [if_true]
          refine ⟨'/' :: '*' :: ((takeBlock ds).copied ++ gap), ?_, hopening ?_, hfront⟩
          · rw [List.cons_append, List.cons_append, List.append_assoc, ← hcs, happ]
          · have hblock := leads_block (.inl rfl) hclosed a
            rw [hcs] at hblock
            exact hblock.trans hgap
        | false =>
          simp only [Bool.false_eq_true, if_false]
          refine ⟨'/' :: '*' :: ds, by simp, hopening (leads_nil fun o => ?_), tokenFront_nil⟩
          exact not_directiveAt_open (.inl rfl) hclosed a o
      · next hnl hblank hline hblock =>
        refine ⟨[], rfl, .refl _ _, ?_⟩
        rintro d ds heq
        obtain ⟨rfl, rfl⟩ := List.cons.inj heq
        refine ⟨by simpa using hblank, ?_⟩
        rintro ⟨hslash, hd | hd⟩
        · exact hline ⟨hslash, hd⟩
        · exact hblock ⟨hslash, hd⟩

/-! ## Tokens -/

/-- Bytes that change no region. -/
def isPlain (c : Char) : Bool := c != '/' && c != '"' && c != '\n'

theorem isPlain_of {p : Char → Bool} (hslash : p '/' = false) (hquote : p '"' = false)
    (hnl : p '\n' = false) {c : Char} (hc : p c = true) : isPlain c = true := by
  have hne : ∀ d, p d = false → c ≠ d := by
    rintro d hd rfl
    rw [hc] at hd
    cases hd
  simp [isPlain, hne _ hslash, hne _ hquote, hne _ hnl]

theorem isPlain_of_isIdentBody (h : isIdentBody c = true) : isPlain c = true :=
  isPlain_of (by decide) (by decide) (by decide) h

theorem next_of_isPlain (h : isPlain c = true) : Region.code.next c = .code := by
  simp only [isPlain, Bool.and_eq_true, bne_iff_ne, ne_eq] at h
  rw [Region.next, if_neg h.1.2, if_neg h.1.1]

/-- The first byte of a token stands in front in its line. -/
theorem startsLine_of_isPlain (h : isPlain c = true) (hblank : isBlank c = false ∨ a = false) :
    startsLine .code a c = false := by
  simp only [isPlain, Bool.and_eq_true, bne_iff_ne, ne_eq] at h
  rcases hblank with hb | rfl
  · simp [startsLine, h.2, hb, h.1.1]
  · simp [startsLine, h.2]

theorem leads_plain (h : ∀ c ∈ x, isPlain c = true) :
    Leads ⟨.code, false⟩ x ⟨.code, false⟩ r := by
  induction x with
  | nil => exact .refl _ _
  | cons c cs ih =>
    have hc := h c (by simp)
    refine .cons (.inl (by simp)) ?_
    simp only [next_of_isPlain hc, startsLine_of_isPlain hc (.inr rfl)]
    exact ih fun d hd => h d (by simp [hd])

theorem leads_plainToken (hnot : ¬ (a = true ∧ isLineDirective (c :: (x ++ r)) = true))
    (hblank : isBlank c = false) (h : ∀ d ∈ c :: x, isPlain d = true) :
    Leads ⟨.code, a⟩ (c :: x) ⟨.code, false⟩ r := by
  have hc := h c (by simp)
  have hfirst : Leads ⟨.code, a⟩ [c] ⟨.code, false⟩ (x ++ r) := by
    have hbyte := leads_byte_of_not (m := ⟨.code, a⟩) (c := c) (r := x ++ r) (by
      rintro ⟨hm, hd⟩
      exact hnot ⟨(Mode.mk.inj hm).2, hd⟩)
    simp only [next_of_isPlain hc, startsLine_of_isPlain hc (.inl hblank)] at hbyte
    exact hbyte
  exact hfirst.trans (leads_plain fun d hd => h d (by simp [hd]))

theorem isPlain_identUpto (fuel : ℕ) (t : Text) :
    ∀ d ∈ t.take (identUpto fuel t), isPlain d = true := by
  induction fuel generalizing t with
  | zero => simp [identUpto]
  | succ fuel ih =>
    cases t with
    | nil => simp [identUpto]
    | cons c cs =>
      simp only [identUpto]
      split
      · next hc =>
        rw [Nat.add_comm 1, List.take_succ_cons]
        exact List.forall_mem_cons.2 ⟨isPlain_of_isIdentBody hc, ih cs⟩
      split
      · next hc =>
        obtain ⟨rfl, -, hclose⟩ := hc
        obtain ⟨ds, hds⟩ : ∃ ds, cs.dropWhile isIdentBody = '%' :: ds := by
          cases hd : cs.dropWhile isIdentBody with
          | nil => simp [hd] at hclose
          | cons e es =>
            rw [hd] at hclose
            exact ⟨es, congrArg (· :: es) (Option.some.inj hclose)⟩
        have hsplit : '%' :: cs = '%' :: (cs.takeWhile isIdentBody ++ '%' :: ds) := by
          rw [← hds, List.takeWhile_append_dropWhile]
        rw [hds, List.tail_cons, hsplit]
        have htake : ∀ k, ('%' :: (cs.takeWhile isIdentBody ++ '%' :: ds)).take
            ((cs.takeWhile isIdentBody).length + 2 + k) =
              '%' :: (cs.takeWhile isIdentBody ++ '%' :: ds.take k) := by
          intro k
          have hk : (cs.takeWhile isIdentBody).length + 2 + k =
              (cs.takeWhile isIdentBody).length + (k + 1) + 1 := by omega
          rw [hk, List.take_succ_cons, List.take_length_add_append, List.take_succ_cons]
        rw [htake]
        intro d hd
        rcases List.mem_cons.1 hd with rfl | hd
        · rfl
        rcases List.mem_append.1 hd with hd | hd
        · exact isPlain_of_isIdentBody (List.mem_takeWhile_imp hd)
        rcases List.mem_cons.1 hd with rfl | hd
        · rfl
        · exact ih ds d hd
      · simp

theorem isPlain_scanNumber (t : Text) : ∀ d ∈ t.take (scanNumber t).length, isPlain d = true := by
  have hrun : ∀ (q : Radix) (rest : Text), ∀ d ∈ takenRun q rest, isPlain d = true := by
    intro q rest d hd
    have hin : q.inRun d = true := List.mem_takeWhile_imp hd
    cases q <;> exact isPlain_of (by decide) (by decide) (by decide) hin
  by_cases h : ∃ pre c q rest, RadixPrefix pre c q ∧ t = pre ++ rest
  · obtain ⟨pre, c, q, rest, hpre, rfl⟩ := h
    rw [scanNumber_of_prefixed hpre rfl, take_prefix_taken]
    intro d hd
    rcases List.mem_append.1 hd with hd | hd
    · cases hpre with
      | cStyle hc =>
        rcases List.mem_cons.1 hd with rfl | hd
        · rfl
        obtain rfl := List.mem_singleton.1 hd
        exact isPlain_of (p := fun c => (cRadix? c).isSome) (by decide) (by decide) (by decide)
          (by simp [hc])
      | verilog hwidth hc =>
        rcases List.mem_append.1 hd with hd | hd
        · exact isPlain_of (p := isDecRun) (by decide) (by decide) (by decide) (hwidth d hd)
        rcases List.mem_cons.1 hd with rfl | hd
        · rfl
        obtain rfl := List.mem_singleton.1 hd
        exact isPlain_of (p := fun c => (verilogRadix? c).isSome) (by decide) (by decide)
          (by decide) (by simp [hc])
    · exact hrun q rest d hd
  · have hbare : ∀ pre c q rest, RadixPrefix pre c q → t ≠ pre ++ rest :=
      fun pre c q rest hpre ht => h ⟨pre, c, q, rest, hpre, ht⟩
    rw [scanNumber_of_bare hbare, take_taken]
    exact hrun .dec t

/-- The second byte of an operator changes no region. -/
theorem scanPunctuation_length (c : Char) (next : Option Char) :
    (scanPunctuation c next).length = 1 ∨
      (scanPunctuation c next).length = 2 ∧ c ≠ '/' ∧ ∃ d, next = some d ∧ isPlain d = true := by
  have hemit : ∀ second two one, isPlain second = true → c ≠ '/' →
      (emit2If next second two one).length = 1 ∨
        (emit2If next second two one).length = 2 ∧ c ≠ '/' ∧ ∃ d, next = some d ∧
          isPlain d = true := by
    intro second two one hsecond hc
    unfold emit2If
    split
    · next h => exact .inr ⟨rfl, hc, second, h, hsecond⟩
    · exact .inl rfl
  have hpair : ∀ kind second one, isPlain second = true → c ≠ '/' → ∀ s : Scan,
      (s.length = 1 ∨ s.length = 2 ∧ c ≠ '/' ∧ ∃ d, next = some d ∧ isPlain d = true) →
      (if next = some second then (⟨kind, 2, one⟩ : Scan) else s).length = 1 ∨
        (if next = some second then (⟨kind, 2, one⟩ : Scan) else s).length = 2 ∧ c ≠ '/' ∧
          ∃ d, next = some d ∧ isPlain d = true := by
    intro kind second one hsecond hc s hs
    split
    · next h => exact .inr ⟨rfl, hc, second, h, hsecond⟩
    · exact hs
  unfold scanPunctuation
  split
  case h_13 =>
    exact hpair _ _ _ (by decide) (by decide) _ (hemit _ _ _ (by decide) (by decide))
  case h_14 =>
    exact hpair _ _ _ (by decide) (by decide) _ (hemit _ _ _ (by decide) (by decide))
  all_goals first | exact .inl rfl | exact hemit _ _ _ (by decide) (by decide)

theorem leads_stringBody (t : Text) :
    Leads ⟨.string, false⟩ (t.take (stringBody t).1) ⟨.code, false⟩
      (t.drop (stringBody t).1) := by
  fun_induction stringBody t with
  | case1 => exact leads_nil fun o => not_directiveAt_nil _ o
  | case2 cs => exact .cons (.inl (by simp)) (.refl _ _)
  | case3 cs h => exact leads_lineEnd (.inr rfl) (.inr rfl) false
  | case4 h h' => exact .cons (.inl (by simp)) (leads_nil fun o => not_directiveAt_nil _ o)
  | case5 h h' d ds ih =>
    -- the escaped byte may be a newline
    rw [Nat.add_comm 2, List.take_succ_cons, List.take_succ_cons, List.drop_succ_cons,
      List.drop_succ_cons]
    exact .cons (.inl (by simp)) (.cons (.inl (by simp [Region.next])) ih)
  | case6 c cs h h' h'' ih =>
    rw [Nat.add_comm 1, List.take_succ_cons, List.drop_succ_cons]
    refine .cons (.inl (by simp)) ?_
    have hnext : Region.string.next c = .string := by simp [Region.next, h, h', h'']
    have hstart : startsLine .string false c = false := by simp [startsLine, h']
    simp only [hnext, hstart]
    exact ih

/-- Behind a `/` that opens no comment stands code. -/
theorem leads_slash (f : Bool) (h : r.head? ≠ some '/') (h' : r.head? ≠ some '*') :
    Leads ⟨.slash, f⟩ [] ⟨.code, false⟩ r := by
  refine leads_of_step (.inl (by simp)) (.inl (by simp)) ?_
  rintro c cs rfl
  have hc : c ≠ '/' := fun he => h (by rw [he]; rfl)
  have hc' : c ≠ '*' := fun he => h' (by rw [he]; rfl)
  rw [step_of_ne (.inl (by simp)), step_of_ne (.inl (by simp))]
  simp [Region.next, startsLine, hc, hc']

/-- **A token that is no directive holds none.** -/
theorem leads_token (ht : t ≠ []) (hfront : TokenFront t)
    (hnot : ¬ (a = true ∧ isLineDirective t = true)) :
    Leads ⟨.code, a⟩ (t.take (scanToken a t).length) ⟨.code, false⟩
      (t.drop (scanToken a t).length) := by
  cases t with
  | nil => exact absurd rfl ht
  | cons c cs =>
    obtain ⟨hblank, hcomment⟩ := hfront c cs rfl
    have hplain : ∀ n, (∀ d ∈ (c :: cs).take (n + 1), isPlain d = true) →
        Leads ⟨.code, a⟩ ((c :: cs).take (n + 1)) ⟨.code, false⟩ ((c :: cs).drop (n + 1)) := by
      intro n h
      rw [List.take_succ_cons] at h ⊢
      rw [List.drop_succ_cons]
      refine leads_plainToken ?_ hblank h
      rwa [List.take_append_drop]
    have hnot' : ¬ (a = true ∧ c = '#' ∧ isLineDirective (c :: cs) = true) :=
      fun h => hnot ⟨h.1, h.2.2⟩
    simp only [scanToken, if_neg hnot']
    split
    · next hc =>
      simp only [scanIdentifierOrKeyword, List.tail_cons]
      rw [Nat.add_comm 1]
      refine hplain _ ?_
      rw [List.take_succ_cons]
      refine List.forall_mem_cons.2 ⟨isPlain_of_isIdentBody ?_, isPlain_identUpto _ cs⟩
      rcases Bool.or_eq_true_iff.1 hc with hc | hc
      · simp [isIdentBody, hc]
      · simp [isIdentBody, hc]
    split
    · next hc =>
      obtain ⟨n, hn⟩ : ∃ n, (scanNumber (c :: cs)).length = Nat.succ n :=
        Nat.exists_eq_succ_of_ne_zero (scanNumber_fits hc).1.ne'
      rw [hn]
      refine hplain n ?_
      rw [← Nat.succ_eq_add_one, ← hn]
      exact isPlain_scanNumber (c :: cs)
    split
    · next hc =>
      subst hc
      simp only [scanString, List.tail_cons]
      rw [Nat.add_comm 1, List.take_succ_cons, List.drop_succ_cons]
      refine .cons (.inr (by decide)) ?_
      have hstart : startsLine .code a '"' = false := by simp [startsLine, isBlank]
      simp only [show Region.code.next '"' = .string from rfl, hstart]
      exact leads_stringBody cs
    · next hident hdigit hquote =>
      have hnl : c ≠ '\n' := by
        rintro rfl
        exact absurd hblank (by decide)
      rcases scanPunctuation_length c cs.head? with hlen | ⟨hlen, hslash, d, hd, hplaind⟩
      · rw [hlen]
        by_cases hslash : c = '/'
        · subst hslash
          have hbyte : Leads ⟨.code, a⟩ ['/'] ⟨.slash, a⟩ cs := by
            have := leads_byte (m := ⟨.code, a⟩) (c := '/') (r := cs) (.inr (by decide))
            simpa [Region.next, startsLine] using this
          exact hbyte.trans (y := []) (leads_slash a (fun h => hcomment ⟨rfl, .inl h⟩)
            fun h => hcomment ⟨rfl, .inr h⟩)
        · refine hplain 0 ?_
          intro d hd
          obtain rfl := List.mem_singleton.1 hd
          simp [isPlain, hslash, hquote, hnl]
      · rw [hlen]
        obtain ⟨ds, rfl⟩ : ∃ ds, cs = d :: ds := by
          cases cs with
          | nil => cases hd
          | cons e es => exact ⟨es, congrArg (· :: es) (Option.some.inj hd)⟩
        refine hplain 1 ?_
        intro e he
        rcases List.mem_cons.1 he with rfl | he
        · simp [isPlain, hslash, hquote, hnl]
        · obtain rfl := List.mem_singleton.1 he
          exact hplaind

/-! ## The lexer -/

/-- A directive begins at offset `o`, from where the lexer is. -/
def Lexer.MarksAt (lx : Lexer) (o : ℕ) : Prop :=
  ∃ o', o = lx.cur + o' ∧ DirectiveAt ⟨.code, lx.atLineStart⟩ (lx.buf.drop lx.cur) o'

/-- A token found at the front of the text, `n` bytes long. -/
theorem directiveAt_token (ht : t ≠ []) (hfront : TokenFront t) :
    DirectiveAt ⟨.code, a⟩ t o ↔ (o = 0 ∧ (scanToken a t).kind = .lineDirective) ∨
      ∃ o', o = (scanToken a t).length + o' ∧
        DirectiveAt ⟨.code, false⟩ (t.drop (scanToken a t).length) o' := by
  rcases scanToken_kind a ht with ⟨rfl, hd, hscan⟩ | ⟨hnot, hkind⟩
  · rw [hscan]
    obtain ⟨cs, rfl⟩ : ∃ cs, t = '#' :: cs := by
      cases t with
      | nil => exact absurd rfl ht
      | cons c cs => exact ⟨cs, congrArg (· :: cs) (Option.some.inj (isLineDirective_head hd))⟩
    have hlen : ('#' :: cs).takeWhile (fun c => decide (c ≠ '\n')) =
        '#' :: cs.takeWhile (fun c => decide (c ≠ '\n')) := by
      rw [List.takeWhile_cons_of_pos (by decide)]
    rw [hlen, List.length_cons, List.drop_succ_cons, drop_length_takeWhile]
    cases o with
    | zero => exact iff_of_true ⟨rfl, hd⟩ (.inl ⟨rfl, rfl⟩)
    | succ o =>
      have hstep : Mode.step ⟨.code, true⟩ '#' cs = ⟨.lineComment, false⟩ := if_pos ⟨rfl, hd⟩
      have hline := leads_toLineEnd false cs o
      rw [List.takeWhile_append_dropWhile] at hline
      rw [directiveAt_succ, hstep, hline]
      constructor
      · rintro ⟨o', rfl, h⟩
        exact .inr ⟨o', by simp only; omega, h⟩
      · rintro (⟨h, -⟩ | ⟨o', ho, h⟩)
        · omega
        · simp only at ho
          exact ⟨o', by omega, h⟩
  · have hne : (scanToken a t).kind ≠ .lineDirective := by
      intro he
      rw [he] at hkind
      cases hkind
    have hlead := leads_token ht hfront hnot o
    have hlen : (t.take (scanToken a t).length).length = (scanToken a t).length := by
      rw [List.length_take, Nat.min_eq_left (scanToken_fits a ht).2]
    rw [List.take_append_drop, hlen] at hlead
    rw [hlead]
    constructor
    · exact .inr
    · rintro (⟨-, h⟩ | h)
      · exact absurd h hne
      · exact h

/-- **One token.** -/
theorem marksAt_iff (lx : Lexer) (hcur : lx.cur ≤ lx.buf.length) (o : ℕ) :
    lx.MarksAt o ↔ (lx.nextImpl.1.kind = .lineDirective ∧ lx.nextImpl.1.begin_ = o) ∨
      lx.nextImpl.2.MarksAt o := by
  obtain ⟨gap, hsplit, hgap, hfront⟩ :=
    leads_skip ((lx.buf.drop lx.cur).length + 1) (lx.buf.drop lx.cur) lx.atLineStart
      (Nat.lt_succ_self _)
  change lx.buf.drop lx.cur =
    gap ++ (skipWhitespaceAndComments (lx.buf.drop lx.cur) lx.atLineStart).1 at hsplit
  change Leads ⟨.code, lx.atLineStart⟩ gap
    ⟨.code, (skipWhitespaceAndComments (lx.buf.drop lx.cur) lx.atLineStart).2⟩
    (skipWhitespaceAndComments (lx.buf.drop lx.cur) lx.atLineStart).1 at hgap
  change TokenFront (skipWhitespaceAndComments (lx.buf.drop lx.cur) lx.atLineStart).1 at hfront
  unfold Lexer.MarksAt
  simp only [Lexer.nextImpl]
  generalize skipWhitespaceAndComments (lx.buf.drop lx.cur) lx.atLineStart = r at hsplit hgap hfront ⊢
  obtain ⟨rest, atStart⟩ := r
  simp only at hsplit hgap hfront ⊢
  have hbuf : lx.buf.length - lx.cur = gap.length + rest.length := by
    rw [← List.length_drop, hsplit, List.length_append]
  have hbegin : lx.buf.length - rest.length = lx.cur + gap.length := by omega
  have hiff : (∃ o', o = lx.cur + o' ∧ DirectiveAt ⟨.code, lx.atLineStart⟩ (lx.buf.drop lx.cur) o') ↔
      ∃ o', o = lx.cur + gap.length + o' ∧ DirectiveAt ⟨.code, atStart⟩ rest o' := by
    rw [hsplit]
    constructor
    · rintro ⟨o', rfl, h⟩
      obtain ⟨o'', rfl, h'⟩ := (hgap o').1 h
      exact ⟨o'', by omega, h'⟩
    · rintro ⟨o'', rfl, h⟩
      exact ⟨gap.length + o'', by omega, (hgap _).2 ⟨o'', rfl, h⟩⟩
  rw [hiff]
  by_cases hrest : rest = []
  · subst hrest
    rw [if_pos rfl]
    refine iff_of_false ?_ ?_
    · rintro ⟨o', -, h⟩
      exact not_directiveAt_nil _ _ h
    · rintro (⟨h, -⟩ | ⟨o', -, h⟩)
      · cases h
      · rw [List.drop_length] at h
        exact not_directiveAt_nil _ _ h
  · have hdrop : lx.buf.drop (lx.cur + gap.length + (scanToken atStart rest).length) =
        rest.drop (scanToken atStart rest).length := by
      rw [← List.drop_drop, ← List.drop_drop, hsplit, List.drop_left]
    rw [if_neg hrest, hbegin, hdrop]
    constructor
    · rintro ⟨o', rfl, h⟩
      rcases (directiveAt_token hrest hfront).1 h with ⟨rfl, hkind⟩ | ⟨o'', rfl, h'⟩
      · exact .inl ⟨hkind, rfl⟩
      · exact .inr ⟨o'', by simp only; omega, h'⟩
    · rintro (⟨hkind, hb⟩ | ⟨o', rfl, h⟩)
      · exact ⟨0, hb.symm, (directiveAt_token hrest hfront).2 (.inl ⟨rfl, hkind⟩)⟩
      · exact ⟨(scanToken atStart rest).length + o', by simp only; omega,
          (directiveAt_token hrest hfront).2 (.inr ⟨o', rfl, h⟩)⟩

theorem not_marksAt_end {lx : Lexer} (h : lx.buf.length ≤ lx.cur) (o : ℕ) : ¬ lx.MarksAt o := by
  rintro ⟨o', -, hd⟩
  rw [List.drop_eq_nil_of_le h] at hd
  exact not_directiveAt_nil _ _ hd

theorem nextImpl_cur_le {lx : Lexer} (hcur : lx.cur ≤ lx.buf.length) :
    lx.nextImpl.2.cur ≤ lx.nextImpl.2.buf.length ∧
      (lx.nextImpl.2.cur = lx.buf.length ∨ lx.cur < lx.nextImpl.2.cur) := by
  rw [nextImpl_buf]
  rcases nextImpl_cases lx hcur with ⟨-, -, hend⟩ | ⟨gap, text, rest, hsplit, -, hne, -, -, -, -, hend⟩
  · exact ⟨hend.le, .inl hend⟩
  · have hlen := congrArg List.length hsplit
    have htext : 0 < text.length := List.length_pos_iff.2 hne
    simp only [List.length_drop, List.length_append] at hlen
    exact ⟨by omega, .inr (by omega)⟩

/-- No token begins with a newline, and none behind the text. -/
theorem nextImpl_begin (lx : Lexer) (hcur : lx.cur ≤ lx.buf.length) :
    lx.nextImpl.1.begin_ ≤ lx.buf.length ∧ lx.buf[lx.nextImpl.1.begin_]? ≠ some '\n' := by
  obtain ⟨gap, hsplit, -⟩ :=
    skipUpto_trivia ((lx.buf.drop lx.cur).length + 1) (lx.buf.drop lx.cur) lx.atLineStart
      (Nat.lt_succ_self _)
  have hhead := skipUpto_head_ne ((lx.buf.drop lx.cur).length + 1) (lx.buf.drop lx.cur)
    lx.atLineStart (Nat.lt_succ_self _)
  change lx.buf.drop lx.cur =
    gap ++ (skipWhitespaceAndComments (lx.buf.drop lx.cur) lx.atLineStart).1 at hsplit
  change (skipWhitespaceAndComments (lx.buf.drop lx.cur) lx.atLineStart).1.head? ≠ _ at hhead
  simp only [Lexer.nextImpl]
  generalize skipWhitespaceAndComments (lx.buf.drop lx.cur) lx.atLineStart = r at hsplit hhead ⊢
  by_cases hr : r.1 = []
  · rw [if_pos hr]
    exact ⟨Nat.le_refl _, by simp⟩
  · have hlen : lx.buf.length - lx.cur = gap.length + r.1.length := by
      rw [← List.length_drop, hsplit, List.length_append]
    have hbegin : lx.buf.length - r.1.length = lx.cur + gap.length := by omega
    have hdrop : lx.buf.drop (lx.cur + gap.length) = r.1 := by
      rw [← List.drop_drop, hsplit, List.drop_left]
    rw [if_neg hr]
    refine ⟨Nat.sub_le _ _, ?_⟩
    rw [hbegin, ← List.head?_drop, hdrop]
    exact hhead

theorem pull_begin (lx : Lexer) (hcur : lx.cur ≤ lx.buf.length) {k : ℕ} {tok : Token}
    (htok : tok ∈ Lexer.pull k lx) :
    tok.begin_ ≤ lx.buf.length ∧ lx.buf[tok.begin_]? ≠ some '\n' := by
  induction k generalizing lx with
  | zero => cases htok
  | succ k ih =>
    rw [Lexer.pull] at htok
    rcases List.mem_cons.1 htok with rfl | htok
    · exact nextImpl_begin lx hcur
    · have := ih lx.nextImpl.2 (nextImpl_cur_le hcur).1 htok
      rwa [nextImpl_buf] at this

/-- **Directives among the tokens.** The lexer takes the text at `o` for
a directive exactly where it begins one in the reading by modes. -/
theorem mem_pull_directive_iff (lx : Lexer) (hcur : lx.cur ≤ lx.buf.length) (o : ℕ) :
    (∃ k, ∃ tok ∈ Lexer.pull k lx, tok.kind = .lineDirective ∧ tok.begin_ = o) ↔
      lx.MarksAt o := by
  constructor
  · rintro ⟨k, tok, htok, hkind, hb⟩
    induction k generalizing lx with
    | zero => cases htok
    | succ k ih =>
      rw [Lexer.pull] at htok
      refine (marksAt_iff lx hcur o).2 ?_
      rcases List.mem_cons.1 htok with rfl | htok
      · exact .inl ⟨hkind, hb⟩
      · exact .inr (ih lx.nextImpl.2 (nextImpl_cur_le hcur).1 htok)
  · intro h
    induction hn : lx.buf.length - lx.cur using Nat.strong_induction_on generalizing lx with
    | _ n ih =>
      obtain ⟨hle, hmove⟩ := nextImpl_cur_le hcur
      rcases (marksAt_iff lx hcur o).1 h with hfirst | hnext
      · exact ⟨1, lx.nextImpl.1, by simp [Lexer.pull], hfirst⟩
      · rcases hmove with hend | hlt
        · refine absurd hnext (not_marksAt_end ?_ o)
          rw [nextImpl_buf, hend]
        · have hless : lx.nextImpl.2.buf.length - lx.nextImpl.2.cur < n := by
            rw [nextImpl_buf] at hle ⊢
            omega
          obtain ⟨k, tok, htok, htail⟩ := ih _ hless lx.nextImpl.2 hle hnext rfl
          exact ⟨k + 1, tok, List.mem_cons_of_mem _ htok, htail⟩

/-- A directive takes its line. -/
theorem end_of_directive (lx : Lexer) (hcur : lx.cur ≤ lx.buf.length) {k : ℕ} {tok : Token}
    (htok : tok ∈ Lexer.pull k lx) (hkind : tok.kind = .lineDirective) :
    tok.end_ = tok.begin_ + ((lx.buf.drop tok.begin_).takeWhile (· ≠ '\n')).length := by
  induction k generalizing lx with
  | zero => cases htok
  | succ k ih =>
    rw [Lexer.pull] at htok
    rcases List.mem_cons.1 htok with rfl | htok
    · obtain ⟨gap, hsplit, -⟩ := leads_skip ((lx.buf.drop lx.cur).length + 1)
        (lx.buf.drop lx.cur) lx.atLineStart (Nat.lt_succ_self _)
      change lx.buf.drop lx.cur =
        gap ++ (skipWhitespaceAndComments (lx.buf.drop lx.cur) lx.atLineStart).1 at hsplit
      revert hkind
      simp only [Lexer.nextImpl]
      generalize skipWhitespaceAndComments (lx.buf.drop lx.cur) lx.atLineStart = r at hsplit ⊢
      obtain ⟨rest, atStart⟩ := r
      simp only at hsplit ⊢
      by_cases hrest : rest = []
      · rw [if_pos hrest]
        rintro ⟨⟩
      · have hbuf : lx.buf.length - lx.cur = gap.length + rest.length := by
          rw [← List.length_drop, hsplit, List.length_append]
        have hbegin : lx.buf.length - rest.length = lx.cur + gap.length := by omega
        have hdrop : lx.buf.drop (lx.cur + gap.length) = rest := by
          rw [← List.drop_drop, hsplit, List.drop_left]
        rw [if_neg hrest, hbegin]
        simp only [hdrop]
        intro hkind
        rcases scanToken_kind atStart hrest with ⟨-, -, hscan⟩ | ⟨-, hord⟩
        · rw [hscan]
        · rw [hkind] at hord
          cases hord
    · have := ih lx.nextImpl.2 (nextImpl_cur_le hcur).1 htok
      rwa [nextImpl_buf] at this

end Lex

end Nslc
