import Nslc.Sema.Literals
import Nslc.Sema.Declared
/-!
# Sema — reference widths

`refWidth` is the width an expression has by its parts, `exprType` the
type the pass leaves on it. `nodeExact_iff` says where a node of exact
parts is exact: terminals without a width have a type of their own, which
a concatenation and a repetition count as nothing; a slice written
upwards is one bit; numbers are read by the literal's digit loops, in 64
bits.
-/

namespace Nslc

namespace Sema

open AST

/-! ## Parts of an expression -/

/-- The expressions a node holds, in the order they are visited. -/
@[grind =] def children : Expr → List Expr
  | .literal _ _ | .identifier _ _ | .systemVar _ => []
  | .unary _ sub => [sub]
  | .binary _ lhs rhs => [lhs, rhs]
  | .conditional cond thenE elseE => [cond, thenE, elseE]
  | .concat parts => parts
  | .repeat count body => [count, body]
  | .signExtend width sub => [width, sub]
  | .zeroExtend width sub => [width, sub]
  | .slice _ sub hi lo => sub :: hi :: lo.toList
  | .fieldAccess obj _ => [obj]
  | .call _ _ args => args
  | .structCast _ sub _ => [sub]
  | .incDec target _ _ => [target]

/-- The first is the second, or in it. -/
inductive Within : Expr → Expr → Prop
  | refl (e : Expr) : Within e e
  | child {s c e : Expr} : c ∈ children e → Within s c → Within s e

theorem Within.trans {r s t : Expr} (h : Within r s) (h' : Within s t) : Within r t := by
  induction h' with
  | refl => exact h
  | child hc _ ih => exact .child hc ih

theorem sizeOf_lt_of_mem_children {c e : Expr} (h : c ∈ children e) : sizeOf c < sizeOf e := by
  cases e with
  | concat parts =>
    have hlt : sizeOf c < sizeOf parts := List.sizeOf_lt_of_mem h
    rw [Expr.concat.sizeOf_spec]
    omega
  | call loc target args =>
    have hlt : sizeOf c < sizeOf args := List.sizeOf_lt_of_mem h
    rw [Expr.call.sizeOf_spec]
    omega
  | slice loc sub hi lo =>
    rw [Expr.slice.sizeOf_spec]
    rcases List.mem_cons.1 h with rfl | h
    · omega
    rcases List.mem_cons.1 h with rfl | h
    · omega
    cases lo with
    | none => simp at h
    | some lo =>
      obtain rfl := List.mem_singleton.1 h
      rw [Option.some.sizeOf_spec]
      omega
  | literal kind spelling => simp [children] at h
  | identifier loc name => simp [children] at h
  | systemVar var => simp [children] at h
  | _ =>
    simp only [children, List.mem_cons, List.not_mem_nil, or_false] at h
    simp
    grind

/-- **Induction over the parts.** -/
theorem expr_induction {P : Expr → Prop} (h : ∀ e, (∀ c ∈ children e, P c) → P e) (e : Expr) :
    P e := by
  induction hn : sizeOf e using Nat.strong_induction_on generalizing e with
  | _ n ih =>
    refine h e fun c hc => ih (sizeOf c) ?_ c rfl
    rw [← hn]
    exact sizeOf_lt_of_mem_children hc

/-! ## Numbers -/

/-- A number as `decimal_integer` writes it. -/
def IsDecimal (e : Expr) : Prop := ∃ digits, e = .literal .decimal digits ∧ Lex.ValueRun .dec digits

/-- The number of a decimal literal. -/
@[grind =] def decimalValue : Expr → ℕ
  | .literal .decimal digits => runValue 10 digits
  | _ => 0

/-- The digits of a literal behind `0x` or `0b`. -/
def dropPrefix (kind : Lit) (spelling : Text) : Text :=
  match kind, spelling with
  | .hex, '0' :: 'x' :: run | .hex, '0' :: 'X' :: run => run
  | .binary, '0' :: 'b' :: run | .binary, '0' :: 'B' :: run => run
  | _, run => run

/-- The digits of a literal, its radix prefix dropped. -/
def literalRun (kind : Lit) (spelling : Text) : Text :=
  match spelling.dropWhile (· ≠ '\'') with
  | _ :: run => run.tail
  | [] => dropPrefix kind spelling

/-- The radix of a literal that is a number. -/
def radix? : Lit → Option Lex.Radix
  | .binary => some .bin
  | .octal => some .oct
  | .decimal => some .dec
  | .hex => some .hex
  | .string => none

/-- The number a width expression states: that of a literal without
markers. -/
@[grind =] def statedValue (e : Expr) : Option ℕ :=
  match e with
  | .literal kind spelling =>
    (radix? kind).bind fun r =>
      if (literalRun kind spelling).all fun c => r.digit c || c == '_' then
        some (runValue r.base (literalRun kind spelling))
      else none
  | _ => none

/-- The width a declaration states, one where it states none. -/
def statedWidth (width : Option Expr) : ℕ :=
  match width with
  | none => 1
  | some e => (statedValue e).getD 0

/-- The pass reads widths off unsized decimal and hexadecimal literals, in
64 bits; whatever else stands there is one, and so is zero. -/
def ReadAs (e : Expr) (v : ℕ) : Prop :=
  match e with
  | .literal .decimal spelling | .literal .hex spelling =>
    if '\'' ∈ spelling then v = 1 else 0 < v ∧ v < 2 ^ 64
  | _ => v = 1

/-- The number the expression states is the number read. -/
def ReadsWidth (e : Expr) : Prop := ∀ v, statedValue e = some v → ReadAs e v

/-! ## Reference widths -/

/-- A terminal, register or wire, with the width expression of its
declaration. -/
abbrev Terminal := Symbol × Option Expr

@[grind =] def Ty.width : Ty → ℕ
  | .bit => 1
  | .bitVector w => w
  | _ => 0

section Widths

variable (ts : List Terminal) (find : Ident → Option Symbol) (context : ℕ)

/-- The terminal a name stands for. -/
def terminalOf (name : ScopedName) : Option Terminal :=
  match name with
  | [x] => (find x).bind fun sym => ts.find? fun t => t.1 = sym
  | _ => none

mutual

/-- The width an expression has by its parts. A literal has the width
`literalType` gives it, a name that of its declaration. -/
@[grind =] def refWidth (e : Expr) : ℕ :=
  match e with
  | .literal kind spelling => (literalType context kind spelling).width
  | .identifier _ name =>
    match terminalOf ts find name with
    | some t => statedWidth t.2
    | none => 0
  | .systemVar _ => 64
  | .unary op sub =>
    match op with
    | .reduceAnd | .reduceOr | .reduceXor | .logicalNot => 1
    | .plus | .neg | .bitNot => refWidth sub
  | .binary op lhs _ => if BinaryOp.isTest op then 1 else refWidth lhs
  | .conditional _ thenE _ => refWidth thenE
  | .concat parts => (refWidths parts).sum
  | .repeat count body => decimalValue count * refWidth body
  | .signExtend width _ | .zeroExtend width _ => (statedValue width).getD (widthOr1 (some width))
  | .slice _ _ hi lo =>
    match lo with
    | none => 1
    | some lo => Nat.dist (decimalValue hi) (decimalValue lo) + 1
  | .fieldAccess _ _ => 1
  | .call _ _ _ => 1
  | .structCast typeName _ _ =>
    match (find typeName).bind Symbol.type with
    | some (.struct _ total) => if total = 0 then 1 else total
    | _ => 1
  | .incDec target _ _ => refWidth target

@[grind =] def refWidths (es : List Expr) : List ℕ :=
  match es with
  | [] => []
  | e :: es => refWidth e :: refWidths es

end

/-- The operand that gives the node its type is a terminal declared
without a width. -/
def bareTerminal (e : Expr) : Bool :=
  match e with
  | .identifier _ name => (name.head?.bind find).bind Symbol.type = some .bit
  | .unary op sub =>
    match op with
    | .reduceAnd | .reduceOr | .reduceXor | .logicalNot => false
    | .plus | .neg | .bitNot => bareTerminal sub
  | .binary op lhs _ => !BinaryOp.isTest op && bareTerminal lhs
  | .conditional _ thenE _ => bareTerminal thenE
  | .incDec target _ _ => bareTerminal target
  | _ => false

/-- A name is that of a terminal, of one bit or more; the bounds of a
slice and the count of a repetition are decimal literals. -/
@[grind =] def NodeDeclared : Expr → Prop
  | .identifier _ name => ∃ t, terminalOf ts find name = some t ∧
      ∀ e ∈ t.2, ∃ v, 0 < v ∧ statedValue e = some v
  | .repeat count _ => IsDecimal count
  | .slice _ _ hi lo => IsDecimal hi ∧ ∀ l ∈ lo, IsDecimal l
  | _ => True

/-- Every node in the expression is so. -/
def Declared (e : Expr) : Prop := ∀ s, Within s e → NodeDeclared ts find s

/-- The inferred width is the reference width. -/
def Exact (e : Expr) : Prop := (exprType find context e).width = refWidth ts find context e

/-- **Where a node is exact**, its parts being so. -/
@[grind =] def NodeExact : Expr → Prop
  | .identifier _ name => ∀ t, terminalOf ts find name = some t → ∀ e ∈ t.2, ReadsWidth e
  | .concat parts =>
    (refWidths ts find context parts).sum = 1 ∨
      ((∀ p ∈ parts, bareTerminal find p = false) ∧ 0 < (refWidths ts find context parts).sum ∧
        (refWidths ts find context parts).sum < 2 ^ 64)
  | .repeat count body =>
    if bareTerminal find body then decimalValue count = 1
    else 0 < decimalValue count * refWidth ts find context body ∧
      decimalValue count * refWidth ts find context body < 2 ^ 64
  | .signExtend width _ | .zeroExtend width _ => ReadsWidth width
  | .slice _ _ hi lo => ∀ l ∈ lo, decimalValue l % 2 ^ 64 ≤ decimalValue hi % 2 ^ 64 ∧
      decimalValue hi % 2 ^ 64 - decimalValue l % 2 ^ 64 =
        Nat.dist (decimalValue hi) (decimalValue l) ∧
      Nat.dist (decimalValue hi) (decimalValue l) + 1 < 2 ^ 64
  | _ => True

end Widths

/-! ## Types of declared expressions -/

section Types

variable {ts : List Terminal} {find : Ident → Option Symbol} {context : ℕ}

/-- A type with a width. -/
def Ty.Sized (t : Ty) : Prop := t = .bit ∨ ∃ w, t = .bitVector w

/-- The symbol of a terminal has the width read off its declaration. -/
def TerminalTyped (t : Terminal) : Prop :=
  ∃ ty, t.1.type = some ty ∧ ty.Sized ∧ ty.width = widthOr1 t.2

theorem Ty.Sized.ne_unresolved {t : Ty} (h : t.Sized) : t ≠ .unresolved := by
  rcases h with rfl | ⟨w, rfl⟩ <;> simp

theorem Declared.of_within {e s : Expr} (h : Declared ts find e) (hs : Within s e) :
    Declared ts find s := fun t ht => h t (ht.trans hs)

theorem within_of_child {c e : Expr} (h : c ∈ children e) : Within c e := .child h (.refl c)

theorem Declared.child {e c : Expr} (h : Declared ts find e) (hc : c ∈ children e) :
    Declared ts find c := h.of_within (within_of_child hc)

theorem exprTypes_eq_map (es : List Expr) :
    exprTypes find context es = es.map (exprType find context) := by
  induction es with
  | nil => rw [exprTypes, List.map_nil]
  | cons e es ih => rw [exprTypes, ih, List.map_cons]

theorem refWidths_eq_map (es : List Expr) :
    refWidths ts find context es = es.map (refWidth ts find context) := by
  induction es with
  | nil => rw [refWidths, List.map_nil]
  | cons e es ih => rw [refWidths, ih, List.map_cons]

theorem terminalOf_eq {name : ScopedName} {t : Terminal} (h : terminalOf ts find name = some t) :
    ∃ x, name = [x] ∧ find x = some t.1 ∧ t ∈ ts := by
  unfold terminalOf at h
  split at h
  · next x =>
    obtain ⟨sym, hsym, ht⟩ := Option.bind_eq_some_iff.1 h
    have heq : t.1 = sym := by simpa using List.find?_some ht
    exact ⟨x, rfl, heq ▸ hsym, List.mem_of_find?_eq_some ht⟩
  · cases h

theorem literalType_sized (kind : Lit) (spelling : Text) :
    (literalType context kind spelling).Sized := by
  cases kind <;> exact .inr ⟨_, rfl⟩

/-- **A declared expression has a type with a width**, the terminal's own
type exactly if one without a width gives it. -/
theorem Declared.sized (hts : ∀ t ∈ ts, TerminalTyped t) {e : Expr} (h : Declared ts find e) :
    (exprType find context e).Sized ∧
      (exprType find context e = .bit ↔ bareTerminal find e = true) := by
  induction e using expr_induction with
  | h e ih =>
    have hsub : ∀ c ∈ children e, (exprType find context c).Sized ∧
        (exprType find context c = .bit ↔ bareTerminal find c = true) :=
      fun c hc => ih c hc (h.child hc)
    have hvector : ∀ w, exprType find context e = .bitVector w → bareTerminal find e = false →
        (exprType find context e).Sized ∧
          (exprType find context e = .bit ↔ bareTerminal find e = true) := by
      intro w hw hbare
      rw [hw, hbare]
      exact ⟨.inr ⟨w, rfl⟩, by simp⟩
    cases e with
    | literal kind spelling =>
      obtain hbit | ⟨w, hw⟩ : (literalType context kind spelling).Sized :=
        literalType_sized kind spelling
      · cases kind <;> cases hbit
      · exact hvector w (by rw [exprType, hw]) (by simp only [bareTerminal])
    | identifier loc name =>
      obtain ⟨t, ht, -⟩ := h _ (.refl _)
      obtain ⟨x, rfl, hfind, hmem⟩ := terminalOf_eq ht
      obtain ⟨ty, htype, hsized, -⟩ := hts t hmem
      have heq : exprType find context (.identifier loc [x]) = ty := by
        simp [exprType, hfind, htype]
      rw [heq]
      refine ⟨hsized, ?_⟩
      simp [bareTerminal, hfind, htype]
    | systemVar var => exact hvector 64 (by rw [exprType]) (by simp only [bareTerminal])
    | unary op sub =>
      have hchild := hsub sub (by simp [children])
      cases op with
      | plus => simpa only [exprType, bareTerminal] using hchild
      | neg => simpa only [exprType, bareTerminal] using hchild
      | bitNot => simpa only [exprType, bareTerminal] using hchild
      | _ => exact hvector 1 (by rw [exprType]) (by simp only [bareTerminal])
    | binary op lhs rhs =>
      have hl := hsub lhs (by simp [children])
      have hr := hsub rhs (by simp [children])
      have hresolved : ¬ (exprType find context lhs = .unresolved ∨
          exprType find context rhs = .unresolved) := by
        rintro (hun | hun)
        · exact hl.1.ne_unresolved hun
        · exact hr.1.ne_unresolved hun
      cases htest : BinaryOp.isTest op with
      | true =>
        refine hvector 1 ?_ ?_
        · simp [exprType, hresolved, htest]
        · simp [bareTerminal, htest]
      | false =>
        have heq : exprType find context (.binary op lhs rhs) = exprType find context lhs := by
          simp [exprType, hresolved, htest]
        rw [heq]
        refine ⟨hl.1, ?_⟩
        simpa [bareTerminal, htest] using hl.2
    | conditional cond thenE elseE =>
      have hchild := hsub thenE (by simp [children])
      simpa only [exprType, bareTerminal] using hchild
    | concat parts =>
      have hall : ¬ (exprTypes find context parts).contains .unresolved = true := by
        rw [exprTypes_eq_map, List.contains_iff_mem]
        intro hmem
        obtain ⟨p, hp, hun⟩ := List.mem_map.1 hmem
        exact (hsub p hp).1.ne_unresolved hun
      exact hvector _ (by rw [exprType, if_neg hall]) (by simp only [bareTerminal])
    | «repeat» count body =>
      have hbody := (hsub body (by simp [children])).1.ne_unresolved
      exact hvector _ (by rw [exprType, if_neg hbody]) (by simp only [bareTerminal])
    | signExtend width sub => exact hvector _ (by rw [exprType]) (by simp only [bareTerminal])
    | zeroExtend width sub => exact hvector _ (by rw [exprType]) (by simp only [bareTerminal])
    | slice loc sub hi lo => exact hvector _ (by rw [exprType]) (by simp only [bareTerminal])
    | fieldAccess obj field =>
      have hobj := (hsub obj (by simp [children])).1.ne_unresolved
      exact hvector 1 (by rw [exprType, if_neg hobj]) (by simp only [bareTerminal])
    | call loc target args => exact hvector 1 (by rw [exprType]) (by simp only [bareTerminal])
    | structCast typeName sub path =>
      have hbare : bareTerminal find (.structCast typeName sub path) = false := by
        simp only [bareTerminal]
      rw [hbare, exprType]
      split
      · exact ⟨.inr ⟨_, rfl⟩, by simp⟩
      · exact ⟨.inr ⟨_, rfl⟩, by simp⟩
    | incDec target op isPrefix =>
      have hchild := hsub target (by simp [children])
      simpa only [exprType, bareTerminal] using hchild

end Types

/-! ## Reading numbers -/

theorem decimalOr0_of_isDecimal {e : Expr} (h : IsDecimal e) :
    decimalOr0 e = decimalValue e % 2 ^ 64 := by
  obtain ⟨digits, rfl, hrun⟩ := h
  exact parseDecimal_run hrun

theorem literalRun_of_no_quote {kind : Lit} {s : Text} (h : '\'' ∉ s) :
    literalRun kind s = dropPrefix kind s := by
  have hdrop : s.dropWhile (· ≠ '\'') = [] := by
    rw [List.dropWhile_eq_nil_iff]
    intro c hc
    simp only [ne_eq, decide_eq_true_eq]
    rintro rfl
    exact h hc
  rw [literalRun, hdrop]

theorem parseHex_eq_dropPrefix (s : Text) :
    parseHex s = parseDigits 16 hexDigit? 0 (dropPrefix .hex s) := by
  unfold parseHex
  split
  · rfl
  · rfl
  · next hx hX =>
    unfold dropPrefix
    split
    · next heq => exact absurd rfl (hx _)
    · next heq => exact absurd rfl (hX _)
    · next heq => cases heq
    · next heq => cases heq
    · rfl

theorem parseDecimal_of_quote {s : Text} (h : '\'' ∈ s) : parseDecimal s = 0 :=
  parseDigits_eq_zero ⟨'\'', h, by decide, by decide⟩ 0

theorem parseHex_of_quote {s : Text} (h : '\'' ∈ s) : parseHex s = 0 := by
  have hzero : ∀ cs : Text, '\'' ∈ cs → parseDigits 16 hexDigit? 0 cs = 0 :=
    fun cs hcs => parseDigits_eq_zero ⟨'\'', hcs, by decide, by decide⟩ 0
  unfold parseHex
  split
  · exact hzero _ (by simpa using h)
  · exact hzero _ (by simpa using h)
  · exact hzero _ h

/-- A width kept in 64 bits, one for zero. -/
theorem wrapWidth_eq_iff (v : ℕ) : wrapWidth v = v ↔ 0 < v ∧ v < 2 ^ 64 := by
  unfold wrapWidth
  split <;> omega

/-- **How a stated width is read.** -/
theorem widthOr1_eq_iff {e : Expr} {v : ℕ} (h : statedValue e = some v) :
    widthOr1 (some e) = v ↔ ReadAs e v := by
  have hwrap : ∀ d, declaredWidth (some e) = d % 2 ^ 64 → widthOr1 (some e) = wrapWidth d := by
    intro d hd
    rw [widthOr1, hd, wrapWidth]
  cases e with
  | literal kind s =>
    have hone : declaredWidth (some (.literal kind s)) = 0 →
        (widthOr1 (some (.literal kind s)) = v ↔ v = 1) := by
      intro hzero
      rw [widthOr1, if_pos hzero]
      exact eq_comm
    obtain ⟨r, hr, hall⟩ := Option.bind_eq_some_iff.1 h
    split_ifs at hall with hdigits
    have hv := Option.some.inj hall
    have hmem := List.all_eq_true.1 hdigits
    cases kind with
    | decimal =>
      obtain rfl := Option.some.inj hr
      show _ ↔ if '\'' ∈ s then _ else _
      by_cases hquote : '\'' ∈ s
      · rw [if_pos hquote]
        exact hone (parseDecimal_of_quote hquote)
      · have hrun : literalRun .decimal s = s := literalRun_of_no_quote hquote
        rw [hrun] at hv hmem
        have hread : parseDecimal s = v % 2 ^ 64 := by
          rw [← hv]
          refine parseDigits_eq_value ?_ 0
          intro c hc hsep
          have hd : Lex.isDecDigit c = true := by
            simpa [Lex.Radix.digit, hsep] using hmem c hc
          exact (decimalDigit?_of_isDecDigit hd).1
        rw [if_neg hquote, hwrap v hread, wrapWidth_eq_iff]
    | hex =>
      obtain rfl := Option.some.inj hr
      show _ ↔ if '\'' ∈ s then _ else _
      by_cases hquote : '\'' ∈ s
      · rw [if_pos hquote]
        exact hone (parseHex_of_quote hquote)
      · have hparse : parseHex s = parseDigits 16 hexDigit? 0 (literalRun .hex s) := by
          rw [literalRun_of_no_quote hquote, parseHex_eq_dropPrefix]
        have hread : parseHex s = v % 2 ^ 64 := by
          rw [hparse, ← hv]
          refine parseDigits_eq_value ?_ 0
          intro c hc hsep
          refine hexDigit?_of_isHexDigit ?_
          simpa [Lex.Radix.digit, hsep] using hmem c hc
        rw [if_neg hquote, hwrap v hread, wrapWidth_eq_iff]
    | binary => exact hone rfl
    | octal => exact hone rfl
    | string => cases hr
  | _ => cases h

/-! ## Exactness of a node -/

section Nodes

variable {ts : List Terminal} {find : Ident → Option Symbol} {context : ℕ}

/-- The width a node of the parts sees in a type: a terminal without a
width has none. -/
theorem Ty.Sized.width_eq {t : Ty} (h : t.Sized) :
    t.width = t.bitWidth + if t = .bit then 1 else 0 := by
  rcases h with rfl | ⟨w, rfl⟩ <;> rfl

theorem sum_width_eq (es : List Expr)
    (h : ∀ e ∈ es, Exact ts find context e ∧ (exprType find context e).Sized ∧
      (exprType find context e = .bit ↔ bareTerminal find e = true)) :
    (refWidths ts find context es).sum =
      ((exprTypes find context es).map Ty.bitWidth).sum + es.countP (bareTerminal find) := by
  induction es with
  | nil => rfl
  | cons e es ih =>
    obtain ⟨hexact, hsized, hbare⟩ := h e (List.mem_cons_self ..)
    have htail := ih fun d hd => h d (List.mem_cons_of_mem _ hd)
    have hhead : refWidth ts find context e =
        (exprType find context e).bitWidth + if bareTerminal find e then 1 else 0 := by
      rw [← hexact, hsized.width_eq]
      simp only [hbare]
    rw [refWidths, exprTypes, List.map_cons, List.sum_cons, List.sum_cons, List.countP_cons,
      htail, hhead]
    omega

theorem exact_concat_iff {parts : List Expr} (hts : ∀ t ∈ ts, TerminalTyped t)
    (h : Declared ts find (.concat parts)) (hparts : ∀ p ∈ parts, Exact ts find context p) :
    Exact ts find context (.concat parts) ↔ NodeExact ts find context (.concat parts) := by
  have hsized : ∀ p ∈ parts, (exprType find context p).Sized ∧
      (exprType find context p = .bit ↔ bareTerminal find p = true) :=
    fun p hp => (h.child hp).sized hts
  have hresolved : ¬ (exprTypes find context parts).contains .unresolved = true := by
    rw [exprTypes_eq_map, List.contains_iff_mem]
    intro hmem
    obtain ⟨p, hp, hun⟩ := List.mem_map.1 hmem
    exact (hsized p hp).1.ne_unresolved hun
  have hsum := sum_width_eq parts fun p hp => ⟨hparts p hp, hsized p hp⟩
  have hnone : (∀ p ∈ parts, bareTerminal find p = false) ↔
      parts.countP (bareTerminal find) = 0 := by
    simp [List.countP_eq_zero]
  rw [Exact, exprType, if_neg hresolved, refWidth]
  show wrapWidth _ = _ ↔ _ ∨ _
  rw [hnone, hsum, wrapWidth]
  -- a part that counts for nothing is only made up for where it is all there is
  generalize ((exprTypes find context parts).map Ty.bitWidth).sum = total
  generalize parts.countP (bareTerminal find) = bare
  split <;> omega

theorem exact_repeat_iff {count body : Expr} (hts : ∀ t ∈ ts, TerminalTyped t)
    (h : Declared ts find (.repeat count body)) (hbody : Exact ts find context body) :
    Exact ts find context (.repeat count body) ↔
      NodeExact ts find context (.repeat count body) := by
  have hcount : IsDecimal count := h _ (.refl _)
  obtain ⟨hsized, hbare⟩ : (exprType find context body).Sized ∧
      (exprType find context body = .bit ↔ bareTerminal find body = true) :=
    (h.child (by simp [children])).sized hts
  have hwidth := hsized.width_eq
  rw [Exact, exprType, if_neg hsized.ne_unresolved, refWidth, decimalOr0_of_isDecimal hcount]
  show wrapWidth _ = _ ↔ if bareTerminal find body then _ else _
  by_cases hb : bareTerminal find body = true
  · have hbit := hbare.2 hb
    have href : refWidth ts find context body = 1 := by
      rw [← hbody, hbit]
      rfl
    rw [if_pos hb, hbit, href]
    show 1 = decimalValue count * 1 ↔ _
    omega
  · rw [if_neg (mt hbare.1 hb)] at hwidth
    have href : (exprType find context body).bitWidth = refWidth ts find context body := by
      rw [← hbody, hwidth, Nat.add_zero]
    rw [if_neg hb, href, ← wrapWidth_eq_iff]
    have hmod : decimalValue count % 2 ^ 64 * refWidth ts find context body % 2 ^ 64 =
        decimalValue count * refWidth ts find context body % 2 ^ 64 :=
      Nat.mod_mul_mod _ _ _
    rw [wrapWidth, wrapWidth, hmod]

theorem exact_slice_iff {loc : Loc} {sub hi : Expr} {lo : Option Expr}
    (h : Declared ts find (.slice loc sub hi lo)) :
    Exact ts find context (.slice loc sub hi lo) ↔
      NodeExact ts find context (.slice loc sub hi lo) := by
  obtain ⟨hhi, hlo⟩ : IsDecimal hi ∧ ∀ l ∈ lo, IsDecimal l := h _ (.refl _)
  cases lo with
  | none =>
    rw [Exact, exprType, refWidth]
    show 1 = 1 ↔ ∀ l ∈ (none : Option Expr), _
    simp
  | some lo =>
    rw [Exact, exprType, refWidth]
    show sliceWidth hi (some lo) = _ ↔ ∀ l ∈ some lo, _
    simp only [Option.mem_def, Option.some.injEq, forall_eq']
    rw [sliceWidth, decimalOr0_of_isDecimal hhi, decimalOr0_of_isDecimal (hlo lo rfl), wrapWidth,
      Nat.dist]
    generalize decimalValue hi = a
    generalize decimalValue lo = b
    split
    · split <;> omega
    · omega

theorem exact_extend_iff {width sub : Expr} :
    (Exact ts find context (.signExtend width sub) ↔ ReadsWidth width) ∧
      (Exact ts find context (.zeroExtend width sub) ↔ ReadsWidth width) := by
  have hread : (widthOr1 (some width) = (statedValue width).getD (widthOr1 (some width))) ↔
      ReadsWidth width := by
    unfold ReadsWidth
    cases hstated : statedValue width with
    | none => simp
    | some v =>
      rw [Option.getD_some, widthOr1_eq_iff hstated]
      simp
  constructor
  · rw [Exact, exprType, refWidth]
    exact hread
  · rw [Exact, exprType, refWidth]
    exact hread

theorem exact_identifier_iff {loc : Loc} {name : ScopedName} (hts : ∀ t ∈ ts, TerminalTyped t)
    (h : Declared ts find (.identifier loc name)) :
    Exact ts find context (.identifier loc name) ↔
      NodeExact ts find context (.identifier loc name) := by
  obtain ⟨t, ht, hstated⟩ := h _ (.refl _)
  obtain ⟨x, rfl, hfind, hmem⟩ := terminalOf_eq ht
  obtain ⟨ty, htype, -, hwidth⟩ := hts t hmem
  have heq : exprType find context (.identifier loc [x]) = ty := by
    simp [exprType, hfind, htype]
  rw [Exact, heq, hwidth, refWidth, ht]
  show widthOr1 t.2 = statedWidth t.2 ↔ ∀ u, terminalOf ts find [x] = some u → _
  rw [ht]
  simp only [Option.some.injEq, forall_eq']
  obtain ⟨sym, width⟩ := t
  cases width with
  | none => simp [statedWidth, widthOr1, declaredWidth]
  | some e =>
    obtain ⟨v, -, hv⟩ := hstated e rfl
    simp only [Option.mem_def, Option.some.injEq, forall_eq']
    rw [statedWidth, hv, Option.getD_some, widthOr1_eq_iff hv, ReadsWidth, hv]
    simp

/-- **A node is exact where it reads its parts in full.** -/
theorem nodeExact_iff (hts : ∀ t ∈ ts, TerminalTyped t) {e : Expr} (h : Declared ts find e)
    (hparts : ∀ c ∈ children e, Exact ts find context c) :
    Exact ts find context e ↔ NodeExact ts find context e := by
  have hsized : ∀ c ∈ children e, exprType find context c ≠ .unresolved :=
    fun c hc => ((h.child hc).sized hts).1.ne_unresolved
  have hsame : ∀ c ∈ children e, exprType find context e = exprType find context c →
      refWidth ts find context e = refWidth ts find context c → Exact ts find context e := by
    intro c hc htype hwidth
    rw [Exact, htype, hwidth]
    exact hparts c hc
  cases e with
  | literal kind spelling =>
    refine iff_of_true ?_ trivial
    rw [Exact, exprType, refWidth]
  | identifier loc name => exact exact_identifier_iff hts h
  | systemVar var =>
    refine iff_of_true ?_ trivial
    rw [Exact, exprType, refWidth, Ty.width]
  | unary op sub =>
    refine iff_of_true ?_ trivial
    cases op with
    | plus => exact hsame sub (by simp [children]) (by rw [exprType]) (by rw [refWidth])
    | neg => exact hsame sub (by simp [children]) (by rw [exprType]) (by rw [refWidth])
    | bitNot => exact hsame sub (by simp [children]) (by rw [exprType]) (by rw [refWidth])
    | _ => rw [Exact, exprType, refWidth, Ty.width]
  | binary op lhs rhs =>
    refine iff_of_true ?_ trivial
    have hl := hsized lhs (by simp [children])
    have hr := hsized rhs (by simp [children])
    cases htest : BinaryOp.isTest op with
    | true => simp [Exact, exprType, refWidth, hl, hr, htest, Ty.width]
    | false =>
      refine hsame lhs (by simp [children]) ?_ ?_
      · simp [exprType, hl, hr, htest]
      · simp [refWidth, htest]
  | conditional cond thenE elseE =>
    refine iff_of_true ?_ trivial
    exact hsame thenE (by simp [children]) (by rw [exprType]) (by rw [refWidth])
  | concat parts => exact exact_concat_iff hts h hparts
  | «repeat» count body => exact exact_repeat_iff hts h (hparts body (by simp [children]))
  | signExtend width sub => exact exact_extend_iff.1
  | zeroExtend width sub => exact exact_extend_iff.2
  | slice loc sub hi lo => exact exact_slice_iff h
  | fieldAccess obj field =>
    refine iff_of_true ?_ trivial
    rw [Exact, exprType, if_neg (hsized obj (by simp [children])), refWidth, Ty.width]
  | call loc target args =>
    refine iff_of_true ?_ trivial
    rw [Exact, exprType, refWidth, Ty.width]
  | structCast typeName sub path =>
    refine iff_of_true ?_ trivial
    rw [Exact, exprType, refWidth]
    cases (find typeName).bind Symbol.type with
    | none => rfl
    | some ty => cases ty <;> rfl
  | incDec target op isPrefix =>
    refine iff_of_true ?_ trivial
    exact hsame target (by simp [children]) (by rw [exprType]) (by rw [refWidth])

/-- Every declared part is exact where every declared node is. -/
theorem forall_exact_iff (hts : ∀ t ∈ ts, TerminalTyped t) (e : Expr) :
    (∀ s, Within s e → Declared ts find s → Exact ts find context s) ↔
      ∀ s, Within s e → Declared ts find s → NodeExact ts find context s := by
  constructor
  · intro h s hs hdecl
    refine (nodeExact_iff hts hdecl fun c hc => ?_).1 (h s hs hdecl)
    exact h c ((within_of_child hc).trans hs) (hdecl.child hc)
  · intro h s
    induction s using expr_induction with
    | h s ih =>
      intro hs hdecl
      refine (nodeExact_iff hts hdecl fun c hc => ?_).2 (h s hs hdecl)
      exact ih c hc ((within_of_child hc).trans hs) (hdecl.child hc)

end Nodes

end Sema

end Nslc
