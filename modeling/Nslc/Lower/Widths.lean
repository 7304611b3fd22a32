import Nslc.Lower.Visitor
import Nslc.Sema.Lexical
/-!
# Declared widths

Sema and the lowering read the width of a declaration each on their own:
`declaredWidth` in 64 bits, decimal or hexadecimal, with separators, and
`resolveWidth` in 32 bits, decimal digits only. Where neither reads a
number the width is one for both.
-/

namespace Nslc

namespace ASTToMLIR

open AST Sema

/-! ## The two widths of a declaration -/

/-- A field as `declStruct` records it. -/
structure FieldInfo where
  name : Ident
  width : ℕ
  offset : ℕ
  deriving DecidableEq, Repr

/-- The loop of `declStruct`, from the bits taken so far. -/
def structFieldInfos : ℕ → List StructMember → List FieldInfo
  | _, [] => []
  | total, m :: ms =>
    ⟨m.name, widthOr1 m.width, total⟩ ::
      structFieldInfos ((total + widthOr1 m.width) % 2 ^ 64) ms

/-- The widths in the type of a symbol: of a memory the depth and the
width of an element. -/
def semaWidths : Sema.Ty → List ℕ
  | .bit => [1]
  | .bitVector width => [width]
  | .memory depth width => [depth, width]
  | .struct _ _ | .unresolved => []

def loweredWidths : Ty → List ℕ
  | .bits width => [width]
  | .mem depth width => [depth, width]
  | .struct _ => []

/-- The type of the symbol that the innermost scope has for the name. -/
def recordedType (t : SymbolTable) (name : Ident) : Option Sema.Ty :=
  (t.scopes.head?.bind fun s => s.lookupLocal name).bind Symbol.type

/-- The result type of a single op. -/
def emittedType : List Op → Option Ty
  | [.value _ type _] => some type
  | _ => none

/-- The name of a declaration with data: a data terminal, register, wire,
variable or memory. -/
def dataName? : Decl → Option Ident
  | .port p =>
    match p.direction with
    | .input | .output | .inout => some p.name
    | _ => none
  | .reg _ name _ _ | .wire _ name _ | .variable _ name _ | .mem _ name _ _ _ => some name
  | _ => none

/-- The width expressions of such a declaration. -/
def dataWidths : Decl → List (Option Expr)
  | .port p => [p.width]
  | .reg _ _ width _ | .wire _ _ width | .variable _ _ width => [width]
  | .mem _ _ depth width _ => [some depth, some width]
  | _ => []

/-- The declarations with data that the resolution pass visits: the
terminals of a `declare` and the declarations of a module. -/
def dataDecls (cu : CompilationUnit) : List Decl :=
  (cu.flatMap fun d =>
    match d with
    | .declare _ _ _ _ _ ports => ports.map .port
    | .module _ _ internals _ _ _ => internals
    | _ => []).filter fun d => (dataName? d).isSome

def structMembers (cu : CompilationUnit) : List (List StructMember) :=
  cu.filterMap fun d =>
    match d with
    | .struct _ _ members => some members
    | _ => none

/-- **Sema and the lowering agree on widths.** Wherever the name of a
declaration is free, the symbol declared for it and the op emitted for
it have the same widths; so have the fields of a struct. -/
structure WidthsAgree (cu : CompilationUnit) : Prop where
  data : ∀ d ∈ dataDecls cu, ∀ (w : Walker) (s : Scope) (ss : List Scope) (ctx : Enclosing)
    (b : Visitor) (name : Ident), dataName? d = some name → w.table.scopes = s :: ss →
    s.lookupLocal name = none →
    ∃ t type, recordedType (w.visitDecl cu d).table name = some t ∧
      emittedType (visitDecl ctx b d).2 = some type ∧ semaWidths t = loweredWidths type
  members : ∀ ms ∈ structMembers cu,
    (structFieldInfos 0 ms).map (fun f => (f.name, Ty.bits f.width)) = structFields ms

/-! ## Where they agree -/

/-- The number a run of digits stands for, separators skipped. -/
def numeral (base : ℕ) (digit? : Char → Option ℕ) : ℕ → Text → Option ℕ
  | v, [] => some v
  | v, c :: cs =>
    if c = '_' then numeral base digit? v cs
    else
      match digit? c with
      | none => none
      | some d => numeral base digit? (v * base + d) cs

def hexBody (s : Text) : Text :=
  match s with
  | '0' :: 'x' :: cs | '0' :: 'X' :: cs => cs
  | cs => cs

/-- The number of a decimal or hexadecimal width. -/
def widthNumeral : Option Expr → Option ℕ
  | some (.literal .decimal spelling) => numeral 10 decimalDigit? 0 spelling
  | some (.literal .hex spelling) => numeral 16 hexDigit? 0 (hexBody spelling)
  | _ => none

def plainDecimal : Option Expr → Bool
  | some (.literal .decimal spelling) => !spelling.contains '_'
  | _ => false

/-- A width both read alike: no number, or one that wraps to at most one
in 64 bits, or plain decimal digits that fit 32 bits. -/
def widthFits (width : Option Expr) : Bool :=
  match widthNumeral width with
  | none => true
  | some v => v % 2 ^ 64 ≤ 1 || (plainDecimal width && v % 2 ^ 64 < 2 ^ 32)

/-- The widths of a unit. -/
def unitWidths (cu : CompilationUnit) : List (Option Expr) :=
  (dataDecls cu).flatMap dataWidths ++ (structMembers cu).flatten.map StructMember.width

theorem parseDigits_eq (base : ℕ) (digit? : Char → Option ℕ) (v : ℕ) (s : Text) :
    parseDigits base digit? (v % 2 ^ 64) s = ((numeral base digit? v s).getD 0) % 2 ^ 64 := by
  induction s generalizing v with
  | nil => simp [parseDigits, numeral]
  | cons c cs ih =>
    rw [parseDigits, numeral]
    split
    · exact ih v
    · cases digit? c with
      | none => rfl
      | some d =>
        have hmod : (v % 2 ^ 64 * base + d) % 2 ^ 64 = (v * base + d) % 2 ^ 64 := by
          rw [Nat.add_mod, Nat.mod_mul_mod, ← Nat.add_mod]
        show parseDigits base digit? ((v % 2 ^ 64 * base + d) % 2 ^ 64) cs = _
        rw [hmod]
        exact ih _

theorem widthDigits_eq (v : ℕ) (s : Text) (hs : '_' ∉ s) :
    widthDigits (v % 2 ^ 32) s = (numeral 10 decimalDigit? v s).map (· % 2 ^ 32) := by
  induction s generalizing v with
  | nil => rfl
  | cons c cs ih =>
    obtain ⟨hc, hcs⟩ := not_or.1 (List.mem_cons.not.1 hs)
    have hc' : ¬ c = '_' := fun h => hc h.symm
    rw [numeral, if_neg hc', widthDigits]
    by_cases hd : '0' ≤ c ∧ c ≤ '9'
    · have hmod : (v % 2 ^ 32 * 10 + (c.toNat - '0'.toNat)) % 2 ^ 32 =
          (v * 10 + (c.toNat - '0'.toNat)) % 2 ^ 32 := by omega
      have hdec : isDecimal c = true := by simpa [isDecimal] using hd
      rw [if_pos hdec, decimalDigit?, if_pos hd, hmod]
      exact ih _ hcs
    · have hdec : ¬ isDecimal c = true := by simpa [isDecimal] using hd
      rw [if_neg hdec, decimalDigit?, if_neg hd]
      rfl

/-- With a separator the lowering reads no number. -/
theorem widthDigits_separator (v : ℕ) (s : Text) (hs : '_' ∈ s) : widthDigits v s = none := by
  induction s generalizing v with
  | nil => cases hs
  | cons c cs ih =>
    rw [widthDigits]
    split
    · next hc =>
      rcases List.mem_cons.1 hs with rfl | hcs
      · cases hc
      · exact ih _ hcs
    · rfl

theorem declaredWidth_eq (width : Option Expr) :
    declaredWidth width = ((widthNumeral width).getD 0) % 2 ^ 64 := by
  unfold declaredWidth widthNumeral
  split
  · exact parseDigits_eq 10 decimalDigit? 0 _
  · next s =>
    have hparse : parseHex s = parseDigits 16 hexDigit? (0 % 2 ^ 64) (hexBody s) := by
      unfold parseHex hexBody
      split
      · rfl
      · rfl
      · next hx hX =>
        first
          | rfl
          | split
            · next cs => exact absurd rfl (hx cs)
            · next cs => exact absurd rfl (hX cs)
            · rfl
    rw [hparse]
    exact parseDigits_eq 16 hexDigit? 0 _
  · next h₁ h₂ =>
    first
      | rfl
      | split
        · next s => exact absurd rfl (h₁ s)
        · next s => exact absurd rfl (h₂ s)
        · rfl

/-- The width the lowering gives: of plain decimal digits in 32 bits, else
one. -/
theorem resolveWidth_eq (width : Option Expr) :
    resolveWidth width =
      if plainDecimal width then
        (if ((widthNumeral width).getD 0) % 2 ^ 32 = 0 then 1
          else ((widthNumeral width).getD 0) % 2 ^ 32)
      else 1 := by
  unfold resolveWidth plainDecimal widthNumeral
  split
  · next s =>
    by_cases hs : '_' ∈ s
    · rw [widthDigits_separator 0 s hs]
      simp [hs]
    · have heq := widthDigits_eq 0 s hs
      rw [Nat.zero_mod] at heq
      rw [heq]
      have hcontains : s.contains '_' = false := by simpa using hs
      simp only [hcontains, Bool.not_false, if_true]
      cases numeral 10 decimalDigit? 0 s with
      | none => rfl
      | some v => rfl
  · next h =>
    first
      | rfl
      | split
        · next s => exact absurd rfl (h s)
        · rfl

/-- **The exact condition on one width.** -/
theorem widthOr1_eq_resolveWidth_iff (width : Option Expr) :
    widthOr1 width = resolveWidth width ↔ widthFits width = true := by
  rw [widthOr1, declaredWidth_eq, resolveWidth_eq, widthFits]
  cases widthNumeral width with
  | none => simp
  | some v =>
    simp only [Option.getD_some, Bool.or_eq_true, Bool.and_eq_true, decide_eq_true_eq]
    cases plainDecimal width with
    | true =>
      simp only [if_true, true_and]
      split <;> split <;> omega
    | false =>
      simp only [Bool.false_eq_true, if_false, false_and, or_false]
      split <;> omega

/-! ## Declarations -/

/-- The type of the symbol that a declaration with data declares. -/
def dataType : Decl → Sema.Ty
  | .port p => if declaredWidth p.width = 0 then .bit else .bitVector (declaredWidth p.width)
  | .reg _ _ width _ | .wire _ _ width | .variable _ _ width => .bitVector (widthOr1 width)
  | .mem _ _ depth width _ => .memory (widthOr1 (some depth)) (widthOr1 (some width))
  | _ => .unresolved

theorem semaWidths_dataType {d : Decl} {name : Ident} (hd : dataName? d = some name) :
    semaWidths (dataType d) = (dataWidths d).map widthOr1 := by
  cases d with
  | port p =>
    rw [dataType, dataWidths, List.map_cons, List.map_nil, widthOr1]
    split <;> rfl
  | reg => rfl
  | wire => rfl
  | «variable» => rfl
  | mem => rfl
  | _ => cases hd

/-- A symbol declared where its name is free is found. -/
theorem recordedType_declareThen {w : Walker} {s : Scope} {ss : List Scope} {sym : Symbol}
    (hs : w.table.scopes = s :: ss) (hfree : s.lookupLocal sym.name = none) (es : List Expr) :
    recordedType (w.declareThen sym es).table sym.name = sym.type := by
  have hins : s.insert sym = some { s with symbols := s.symbols ++ [sym] } := by
    rw [Scope.insert, hfree]
    rfl
  rw [Walker.declareThen, declare_of_insert hs, hins]
  simp only [Option.map_some]
  have hstep := visitExprs_step
    (w := { w with table := ⟨{ s with symbols := s.symbols ++ [sym] } :: ss, w.table.retired⟩ })
    es (Sees.refl (List.cons_ne_nil _ _)) (usesClear_nothing _)
  rw [recordedType, hstep.scopes]
  simp only [List.head?_cons, Option.bind_some, Scope.lookupLocal, List.find?_append]
  rw [Scope.lookupLocal] at hfree
  simp [hfree]

theorem recordedType_data (cu : CompilationUnit) {d : Decl} {name : Ident}
    (hd : dataName? d = some name) {w : Walker} {s : Scope} {ss : List Scope}
    (hs : w.table.scopes = s :: ss) (hfree : s.lookupLocal name = none) :
    recordedType (w.visitDecl cu d).table name = some (dataType d) := by
  cases d with
  | port p =>
    have hname : p.name = name := by
      rw [dataName?] at hd
      split at hd <;> first | exact Option.some.inj hd | cases hd
    subst hname
    exact recordedType_declareThen hs hfree _
  | reg loc x width init =>
    obtain rfl := Option.some.inj hd
    exact recordedType_declareThen hs hfree _
  | wire loc x width =>
    obtain rfl := Option.some.inj hd
    exact recordedType_declareThen hs hfree _
  | «variable» loc x width =>
    obtain rfl := Option.some.inj hd
    exact recordedType_declareThen hs hfree _
  | mem loc x depth width init =>
    obtain rfl := Option.some.inj hd
    exact recordedType_declareThen hs hfree _
  | _ => cases hd

/-- What the lowering emits for a declaration with data. -/
theorem emittedType_data {d : Decl} {name : Ident} (hd : dataName? d = some name)
    (ctx : Enclosing) (b : Visitor) :
    ∃ type, emittedType (visitDecl ctx b d).2 = some type ∧
      loweredWidths type = (dataWidths d).map resolveWidth := by
  cases d with
  | port p =>
    refine ⟨.bits (resolveWidth p.width), ?_, rfl⟩
    simp only [visitDecl, visitPort]
    cases hdir : p.direction <;> simp only [dataName?, hdir, reduceCtorEq] at hd ⊢ <;> rfl
  | reg loc x width init => exact ⟨.bits (resolveWidth width), rfl, rfl⟩
  | wire loc x width => exact ⟨.bits (resolveWidth width), rfl, rfl⟩
  | «variable» loc x width => exact ⟨.bits (resolveWidth width), rfl, rfl⟩
  | mem loc x depth width init =>
    exact ⟨.mem (resolveWidth (some depth)) (resolveWidth (some width)), rfl, rfl⟩
  | _ => cases hd

theorem map_eq_map_iff {ws : List (Option Expr)} :
    ws.map widthOr1 = ws.map resolveWidth ↔ ∀ w ∈ ws, widthFits w = true := by
  rw [List.map_inj_left]
  exact forall₂_congr fun w _ => widthOr1_eq_resolveWidth_iff w

theorem fields_eq_iff (total : ℕ) (ms : List StructMember) :
    (structFieldInfos total ms).map (fun f => (f.name, Ty.bits f.width)) = structFields ms ↔
      ∀ m ∈ ms, widthFits m.width = true := by
  have hnames : (structFieldInfos total ms).map (fun f => (f.name, Ty.bits f.width)) =
      ms.map fun m => (m.name, Ty.bits (widthOr1 m.width)) := by
    induction ms generalizing total with
    | nil => rfl
    | cons m ms ih => rw [structFieldInfos, List.map_cons, List.map_cons, ih]
  rw [hnames, structFields, List.map_inj_left]
  refine forall₂_congr fun m _ => ?_
  rw [Prod.mk.injEq, Ty.bits.injEq, ← widthOr1_eq_resolveWidth_iff]
  exact and_iff_right rfl

/-- **Sema and the lowering agree exactly where every width fits.** -/
theorem widthsAgree_iff (cu : CompilationUnit) :
    WidthsAgree cu ↔ ∀ w ∈ unitWidths cu, widthFits w = true := by
  have hmembers : (∀ ms ∈ structMembers cu,
      (structFieldInfos 0 ms).map (fun f => (f.name, Ty.bits f.width)) = structFields ms) ↔
      ∀ w ∈ (structMembers cu).flatten.map StructMember.width, widthFits w = true := by
    simp only [fields_eq_iff, List.forall_mem_map, List.mem_flatten]
    constructor
    · rintro h m ⟨ms, hms, hm⟩
      exact h ms hms m hm
    · intro h ms hms m hm
      exact h m ⟨ms, hms, hm⟩
  rw [unitWidths]
  simp only [List.forall_mem_append, List.forall_mem_flatMap, ← hmembers]
  refine ⟨fun h => ⟨fun d hd => ?_, h.members⟩, fun h => ⟨fun d hd => ?_, h.2⟩⟩
  · obtain ⟨name, hname⟩ := Option.isSome_iff_exists.1 (List.mem_filter.1 hd).2
    -- one state in which the name is free is enough
    obtain ⟨t, type, ht, htype, heq⟩ := h.data d hd ⟨⟨[⟨.module, []⟩], []⟩, [], [], []⟩ _ _
      ⟨[], []⟩ Visitor.start name hname rfl rfl
    rw [recordedType_data cu hname rfl rfl] at ht
    obtain ⟨type', htype', hwidths⟩ := emittedType_data hname ⟨[], []⟩ Visitor.start
    obtain rfl := Option.some.inj ht
    obtain rfl := Option.some.inj (htype.symm.trans htype')
    rw [semaWidths_dataType hname, hwidths] at heq
    exact map_eq_map_iff.1 heq
  · intro w s ss ctx b name hname hs hfree
    obtain ⟨type, htype, hwidths⟩ := emittedType_data hname ctx b
    refine ⟨dataType d, type, recordedType_data cu hname hs hfree, htype, ?_⟩
    rw [semaWidths_dataType hname, hwidths]
    exact map_eq_map_iff.2 (h.1 d hd)

/-- `module m { reg r[0x8]; }`: a width in hexadecimal. -/
def hexWidthUnit : CompilationUnit :=
  [.module 0 ['m'] [.reg 15 ['r'] (some (.literal .hex ['0', 'x', '8'])) none] [] [] []]

/-- The register has eight bits for Sema and one for the lowering. -/
theorem not_widthsAgree_hexWidthUnit :
    (runResolutionPass hexWidthUnit).diags = [] ∧ ¬ WidthsAgree hexWidthUnit := by
  refine ⟨by decide +kernel, fun h => ?_⟩
  obtain ⟨t, type, ht, htype, heq⟩ := h.data
    (.reg 15 ['r'] (some (.literal .hex ['0', 'x', '8'])) none) List.mem_cons_self
    ⟨⟨[⟨.module, []⟩], []⟩, [], [], []⟩ _ _ ⟨[], []⟩ Visitor.start ['r'] rfl rfl rfl
  have hsema : recordedType (Walker.visitDecl hexWidthUnit ⟨⟨[⟨.module, []⟩], []⟩, [], [], []⟩
      (.reg 15 ['r'] (some (.literal .hex ['0', 'x', '8'])) none)).table ['r'] =
      some (.bitVector 8) := by decide +kernel
  obtain rfl := Option.some.inj (ht.symm.trans hsema)
  obtain rfl := Option.some.inj htype
  exact absurd heq (by decide)

end ASTToMLIR

end Nslc
