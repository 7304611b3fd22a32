import Nslc.Lower.Literals
import Nslc.Lower.Replicas
/-!
# Loops written and loops unrolled

The visitor keeps of `generate(i = a; i op b; step)` the three bounds it
reads and neither the comparison nor the direction: what is expanded is
`for (i = a; i < b; i += k)`. `Loop` is the loop as it is written,
`Iterates` what it means, and `CopiesMatch` that the replicas are its
iterations.
-/

namespace Nslc

namespace ASTToMLIR

open AST Passes.Ssa

/-! ## The loop that is written -/

inductive Comparison where
  | less
  | lessEqual
  | greater
  | greaterEqual
  | notEqual
  deriving DecidableEq, Repr

namespace Comparison

def op : Comparison → BinaryOp
  | .less => .less
  | .lessEqual => .lessEqual
  | .greater => .greater
  | .greaterEqual => .greaterEqual
  | .notEqual => .notEqual

def Holds : Comparison → ℤ → ℤ → Prop
  | .less, i, b => i < b
  | .lessEqual, i, b => i ≤ b
  | .greater, i, b => b < i
  | .greaterEqual, i, b => b ≤ i
  | .notEqual, i, b => i ≠ b

instance (c : Comparison) (i b : ℤ) : Decidable (c.Holds i b) :=
  match c with
  | .less => inferInstanceAs (Decidable (i < b))
  | .lessEqual => inferInstanceAs (Decidable (i ≤ b))
  | .greater => inferInstanceAs (Decidable (b < i))
  | .greaterEqual => inferInstanceAs (Decidable (b ≤ i))
  | .notEqual => inferInstanceAs (Decidable (i ≠ b))

end Comparison

inductive LoopStep where
  /-- `i++`, `++i`, `i--` and `--i`. -/
  | incDec (op : IncDecOp) (isPrefix : Bool)
  /-- `i = i + k` -/
  | plus (k : Expr)
  /-- `i = i - k` -/
  | minus (k : Expr)

structure Loop where
  loc : Loc
  var : Ident
  start : Expr
  cmp : Comparison
  limit : Expr
  step : LoopStep

namespace Loop

/-- Of a step the syntax tree keeps what is assigned. -/
def stepExpr (l : Loop) : Expr :=
  match l.step with
  | .incDec op isPrefix => .incDec (.identifier l.loc [l.var]) op isPrefix
  | .plus k => .binary .add (.identifier l.loc [l.var]) k
  | .minus k => .binary .sub (.identifier l.loc [l.var]) k

def stmt (l : Loop) (body : Stmt) : Stmt :=
  .generate l.loc l.var l.start (.binary l.cmp.op (.identifier l.loc [l.var]) l.limit) l.stepExpr
    body

end Loop

/-- The values of a loop's bounds: literals, or parameters with the value
they are declared with. -/
def BoundIs (consts : Ident → Option ℤ) : Expr → ℤ → Prop
  | .identifier _ [name], v => consts name = some v
  | e, v => ∃ (anyCase : Bool) (f : Sema.NumberForm), e = litExpr f ∧ f.Derived anyCase ∧
      Sema.marked f.run = false ∧ litValue f < 2 ^ 63 ∧ v = litValue f

/-- The step adds `stride` to the loop variable. -/
def StrideIs (consts : Ident → Option ℤ) : LoopStep → ℤ → Prop
  | .incDec .inc _, s => s = 1
  | .incDec .dec _, s => s = -1
  | .plus k, s => BoundIs consts k s
  | .minus k, s => BoundIs consts k (-s)

/-- The loop from `i` on runs with the values in turn and ends. -/
inductive Iterates (c : Comparison) (limit stride : ℤ) : ℤ → List ℤ → Prop
  | stop {i : ℤ} : ¬ c.Holds i limit → Iterates c limit stride i []
  | next {i : ℤ} {vs : List ℤ} : c.Holds i limit → Iterates c limit stride (i + stride) vs →
      Iterates c limit stride i (i :: vs)

/-- **A run of the loop as it is written**, from `start` by `stride`. -/
structure Loop.Runs (l : Loop) (consts : Ident → Option ℤ) (start limit stride : ℤ)
    (values : List ℤ) : Prop where
  first : BoundIs consts l.start start
  bound : BoundIs consts l.limit limit
  adds : StrideIs consts l.step stride
  iterates : Iterates l.cmp limit stride start values

/-- The op emitted for the loop is expanded into one replica for each of
the values, in order, with the value for the loop variable. -/
def CopiesMatch (ctx : Enclosing) (flat : Bool) (b : Visitor) (l : Loop) (body : Stmt)
    (values : List ℤ) : Prop :=
  ∃ lower upper step ops,
    (visitStmt ctx flat b (l.stmt body)).2 =
      [.structuralGenerate lower upper step (some l.var) ops] ∧
    ∀ os, expandOne lower upper step (some l.var) os =
      some (values.zipIdx.flatMap fun p => replica (some l.var) os p.1 p.2)

/-- The loops whose bounds are read that are expanded as they are written:
up to the limit, or not at all. -/
def LoopFits (c : Comparison) (start limit stride : ℤ) : Prop :=
  match c with
  | .less => True
  | .lessEqual => limit < start ∨ ¬ |stride| ∣ limit - start
  | .greater => start = limit
  | .greaterEqual => False
  | .notEqual => 0 < stride ∨ start = limit

/-! ## What the visitor reads -/

def readStart (b : Visitor) (l : Loop) : ℤ := resolveBound b.paramTable l.start 0

def readLimit (b : Visitor) (l : Loop) : ℤ := resolveBound b.paramTable l.limit 0

def readStride (b : Visitor) (l : Loop) : ℤ := stepAmount b.paramTable l.stepExpr

theorem visitStmt_loop (ctx : Enclosing) (flat : Bool) (b : Visitor) (l : Loop) (body : Stmt)
    (hvar : l.var ≠ []) :
    (visitStmt ctx flat b (l.stmt body)).2 =
      [.structuralGenerate (readStart b l) (readLimit b l) (readStride b l) (some l.var)
        (visitStmt ctx true b body).2] := by
  simp only [Loop.stmt, visitStmt, hvar, if_false]
  rfl

/-- `paramTable_` is of `int64_t`. -/
def Params64 (b : Visitor) : Prop :=
  ∀ name v, b.paramTable name = some v → -2 ^ 63 ≤ v ∧ v < 2 ^ 63

theorem wrap64_range (v : ℤ) : -2 ^ 63 ≤ wrap64 v ∧ wrap64 v < 2 ^ 63 := by
  have hlo := Int.le_bmod (x := v) (m := 2 ^ 64) (by decide)
  have hhi := Int.bmod_lt (x := v) (m := 2 ^ 64) (by decide)
  unfold wrap64
  constructor
  · refine le_trans ?_ hlo
    decide
  · refine lt_of_lt_of_le hhi ?_
    decide

theorem decimalDigits_range {s : Text} {v w : ℤ} (hv : -2 ^ 63 ≤ v ∧ v < 2 ^ 63)
    (h : decimalDigits v s = some w) : -2 ^ 63 ≤ w ∧ w < 2 ^ 63 := by
  induction s generalizing v with
  | nil =>
    obtain rfl := Option.some.inj h
    exact hv
  | cons c cs ih =>
    rw [decimalDigits] at h
    split at h
    · exact ih (wrap64_range _) h
    · cases h

theorem resolveDecimalLiteral_range (e : Option Expr) :
    -2 ^ 63 ≤ resolveDecimalLiteral e ∧ resolveDecimalLiteral e < 2 ^ 63 := by
  unfold resolveDecimalLiteral
  split
  · next spelling =>
    cases h : decimalDigits 0 spelling with
    | none => exact ⟨by decide, by decide⟩
    | some w => exact decimalDigits_range ⟨by decide, by decide⟩ h
  · exact ⟨by decide, by decide⟩

theorem resolveBound_range {b : Visitor} (hb : Params64 b) (e : Expr) {fallback : ℤ}
    (hf : -2 ^ 63 ≤ fallback ∧ fallback < 2 ^ 63) :
    -2 ^ 63 ≤ resolveBound b.paramTable e fallback ∧
      resolveBound b.paramTable e fallback < 2 ^ 63 := by
  unfold resolveBound
  split
  · exact resolveDecimalLiteral_range _
  · next loc name =>
    cases h : b.paramTable name with
    | none => exact hf
    | some v => exact hb name v h
  · exact hf

theorem bounded_read {b : Visitor} (hb : Params64 b) (l : Loop) :
    Bounded (readStart b l) (readLimit b l) (readStride b l) := by
  refine ⟨resolveBound_range hb _ ⟨by decide, by decide⟩, resolveBound_range hb _ ⟨by decide, by decide⟩, ?_⟩
  unfold readStride stepAmount
  split
  · next op lhs rhs heq =>
    have hrange := @resolveBound_range b hb rhs 1 ⟨by decide, by decide⟩
    by_cases hzero : resolveBound b.paramTable rhs 1 = 0
    · simp only [hzero, if_true]
      exact ⟨⟨by decide, by decide⟩, by decide⟩
    · simp only [hzero, if_false]
      exact ⟨hrange, hzero⟩
  · exact ⟨⟨by decide, by decide⟩, by decide⟩

/-! ## Replicas tell the values -/

theorem toDecimal_injective : Function.Injective Passes.toDecimal := by
  have hdigits : Function.Injective (Nat.toDigits 10) := fun m n h => by
    have hval := congrArg (fun cs => Nat.ofDigitChars 10 cs 0) h
    simpa [Nat.ofDigitChars_toDigits] using hval
  have hminus : ∀ n : ℕ, '-' ∉ Nat.toDigits 10 n := by
    intro n hmem
    exact absurd (Nat.isDigit_of_mem_toDigits (by decide) (by decide) hmem) (by decide)
  intro y z h
  unfold Passes.toDecimal at h
  split at h <;> split at h
  · have habs := hdigits (List.cons.inj h).2
    omega
  · exact absurd (h ▸ List.mem_cons_self) (hminus _)
  · exact absurd (h ▸ List.mem_cons_self) (hminus _)
  · have habs := hdigits h
    omega

/-- An op with the loop variable in a string. -/
def probe (var : Ident) : List Passes.Ssa.Op :=
  [.op [] [([], .str ('%' :: (var ++ ['%'])))] [] [] []]

theorem replica_probe {var : Ident} (hvar : var ≠ []) (value : ℤ) (k : ℕ) :
    replica (some var) (probe var) value k =
      [.op [] [([], .str (Passes.toDecimal value))] [] [] []] := by
  have hreplace := Placeholders.replace_opens (σ := Passes.splices) (v := var)
    (r := Passes.toDecimal value) []
  have htext : Passes.substituteLoopVar var (Passes.toDecimal value) ('%' :: (var ++ ['%'])) =
      Passes.toDecimal value := by
    rw [Passes.substituteLoopVar, if_neg hvar]
    exact hreplace.trans (List.append_nil _)
  show [Passes.Ssa.Op.op [] [([], Passes.Attr.str (Passes.substituteLoopVar var _ _))] [] [] []] = _
  rw [htext]

/-- Two expansions alike on every body have the same values. -/
theorem values_of_expandOne {lower upper step : ℤ} {var : Ident} {values : List ℤ} (hvar : var ≠ [])
    (h : ∀ os, expandOne lower upper step (some var) os =
      some (values.zipIdx.flatMap fun p => replica (some var) os p.1 p.2)) :
    replicaValues? lower upper step = some values := by
  have hprobe := h (probe var)
  rw [expandOne] at hprobe
  obtain ⟨values', hvalues, heq⟩ := Option.map_eq_some_iff.1 hprobe
  have htell : ∀ vs : List ℤ, (vs.zipIdx.flatMap fun p => replica (some var) (probe var) p.1 p.2) =
      vs.map fun v => .op [] [([], .str (Passes.toDecimal v))] [] [] [] := by
    intro vs
    simp only [replica_probe hvar]
    rw [← List.map_eq_flatMap]
    conv_rhs => rw [← List.zipIdx_map_fst 0 vs, List.map_map]
    rfl
  rw [htell, htell] at heq
  have hsame : values' = values := by
    refine List.map_injective_iff.2 (fun y z hyz => ?_) heq
    simp only [Passes.Ssa.Op.op.injEq, List.cons.injEq, Prod.mk.injEq, Passes.Attr.str.injEq] at hyz
    exact toDecimal_injective hyz.2.1.1.2
  rw [hvalues, hsame]

/-- **The copies match the values** exactly if those are the loop
variable's in the replicas. -/
theorem copiesMatch_iff_values {ctx : Enclosing} {flat : Bool} {b : Visitor} {l : Loop} {body : Stmt}
    {values : List ℤ} (hvar : l.var ≠ []) :
    CopiesMatch ctx flat b l body values ↔
      replicaValues? (readStart b l) (readLimit b l) (readStride b l) = some values := by
  constructor
  · rintro ⟨lower, upper, step, ops, hop, hcopies⟩
    rw [visitStmt_loop ctx flat b l body hvar] at hop
    simp only [List.cons.injEq, Op.structuralGenerate.injEq] at hop
    obtain ⟨⟨rfl, rfl, rfl, -, -⟩, -⟩ := hop
    exact values_of_expandOne hvar hcopies
  · intro h
    refine ⟨_, _, _, _, visitStmt_loop ctx flat b l body hvar, fun os => ?_⟩
    rw [expandOne, h]
    rfl

/-! ## Two arithmetic progressions -/

/-- The first `n` of the progression from `a` by `s`. -/
def progression (a s : ℤ) (n : ℕ) : List ℤ := (List.range n).map fun (k : ℕ) => a + (k : ℤ) * s

theorem progression_eq_iff (a s a' s' : ℤ) (m n : ℕ) :
    progression a' s' m = progression a s n ↔ m = n ∧ (n = 0 ∨ a' = a) ∧ (n ≤ 1 ∨ s' = s) := by
  constructor
  · intro h
    have hlen : m = n := by simpa [progression] using congrArg List.length h
    subst hlen
    have hget : ∀ k < m, a' + (k : ℤ) * s' = a + (k : ℤ) * s := by
      intro k hk
      have hmap := List.map_inj_left.1 h k (List.mem_range.2 hk)
      exact hmap
    refine ⟨rfl, ?_, ?_⟩
    · by_cases hm : m = 0
      · exact .inl hm
      · have hzero := hget 0 (by omega)
        simp only [Nat.cast_zero, zero_mul, add_zero] at hzero
        exact .inr hzero
    · by_cases hm : m ≤ 1
      · exact .inl hm
      · have hzero := hget 0 (by omega)
        have hone := hget 1 (by omega)
        simp only [Nat.cast_zero, zero_mul, add_zero, Nat.cast_one, one_mul] at hzero hone
        exact .inr (by omega)
  · rintro ⟨rfl, ha, hs⟩
    refine List.map_congr_left fun k hk => ?_
    have hlt := List.mem_range.1 hk
    rcases ha with rfl | rfl
    · omega
    rcases hs with hle | rfl
    · have hzero : k = 0 := by omega
      simp [hzero]
    · rfl

/-- The loop variable goes up or down evenly until the comparison fails. -/
theorem Iterates.spec {c : Comparison} {limit s : ℤ} {a : ℤ} {vs : List ℤ}
    (h : Iterates c limit s a vs) :
    vs = progression a s vs.length ∧ (∀ k < vs.length, c.Holds (a + (k : ℤ) * s) limit) ∧
      ¬ c.Holds (a + (vs.length : ℤ) * s) limit := by
  induction h with
  | stop hstop => exact ⟨rfl, fun k hk => (nomatch hk), by simpa using hstop⟩
  | @next i vs hholds _ ih =>
    obtain ⟨hvs, hall, hstop⟩ := ih
    have hshift : ∀ k : ℕ, i + ((k + 1 : ℕ) : ℤ) * s = i + s + (k : ℤ) * s := by
      intro k
      push_cast
      ring
    refine ⟨?_, fun k hk => ?_, ?_⟩
    · rw [List.length_cons, progression, List.range_succ_eq_map, List.map_cons, List.map_map]
      refine List.cons_eq_cons.2 ⟨by simp, ?_⟩
      conv_lhs => rw [hvs]
      refine List.map_congr_left fun k _ => ?_
      exact (hshift k).symm
    · cases k with
      | zero => simpa using hholds
      | succ k =>
        rw [hshift]
        exact hall k (by simpa using hk)
    · rw [List.length_cons, hshift]
      exact hstop

theorem replicaValues?_eq_some_iff {lower upper step : ℤ} {values : List ℤ}
    (hb : Bounded lower upper step) :
    replicaValues? lower upper step = some values ↔
      CountFits lower upper step ∧
        progression lower step (trips lower upper step % 2 ^ 32) = values := by
  by_cases hf : CountFits lower upper step
  · have hvalues : replicaValues? lower upper step =
        some (progression lower step (trips lower upper step % 2 ^ 32)) := by
      rw [replicaValues?, tripCount?_of_fits hb hf]
      refine mapM_eq_some fun k hk => replicaValue?_eq hb hf ?_
      exact lt_of_lt_of_le (List.mem_range.1 hk) (Nat.mod_le _ _)
    rw [hvalues, Option.some_inj]
    simp [hf]
  · rw [replicaValues?_of_not_fits hb hf]
    simp [hf]

/-! ## When the copies match -/

section Fits

variable {c : Comparison} {a limit s : ℤ} {m n : ℕ}

/-- Upwards: the replicas are counted by `<`. -/
theorem loopFits_up (hs : 0 < s) (hcount : ∀ k : ℕ, k < m ↔ a + (k : ℤ) * s < limit)
    (hall : ∀ k < n, c.Holds (a + (k : ℤ) * s) limit) (hstop : ¬ c.Holds (a + (n : ℤ) * s) limit) :
    m = n ↔ LoopFits c a limit s := by
  have hup : n ≠ 0 → 0 < (n : ℤ) * s := fun hn => mul_pos (by omega) hs
  have hzero : 0 < m ↔ a < limit := by simpa using hcount 0
  have hfirst : n ≠ 0 → c.Holds a limit := fun hn => by simpa using hall 0 (by omega)
  cases c with
  | less =>
    refine iff_of_true ?_ trivial
    have hle : ¬ n < m := fun hlt => hstop ((hcount n).1 hlt)
    have hge : ¬ m < n := fun hlt => lt_irrefl m ((hcount m).2 (hall m hlt))
    omega
  | lessEqual =>
    show m = n ↔ limit < a ∨ ¬ |s| ∣ limit - a
    have hle : ¬ n < m := fun hlt => hstop ((hcount n).1 hlt).le
    rw [abs_of_pos hs]
    constructor
    · rintro rfl
      by_contra hnot
      rw [not_or, not_not, not_lt] at hnot
      obtain ⟨hlimit, q, hq⟩ := hnot
      -- the limit is an iteration
      have hnonneg : 0 ≤ q := by
        by_contra hneg
        have hprod : s * q < 0 := mul_neg_of_pos_of_neg hs (by omega)
        omega
      obtain ⟨j, rfl⟩ := Int.eq_ofNat_of_zero_le hnonneg
      have hlimit' : a + (j : ℤ) * s = limit := by
        rw [mul_comm]
        omega
      have hlt : j < m := by
        by_contra hge
        have hmul : (m : ℤ) * s ≤ (j : ℤ) * s :=
          mul_le_mul_of_nonneg_right (by exact_mod_cast not_lt.1 hge) hs.le
        exact hstop (show a + (m : ℤ) * s ≤ limit by omega)
      have hbefore := (hcount j).1 hlt
      omega
    · intro hfits
      have hge : ¬ m < n := by
        intro hlt
        have hreach : a + (m : ℤ) * s ≤ limit := hall m hlt
        have hend : ¬ a + (m : ℤ) * s < limit := fun h => lt_irrefl m ((hcount m).2 h)
        have hnonneg : 0 ≤ (m : ℤ) * s := mul_nonneg (by omega) hs.le
        rcases hfits with hlt' | hdvd
        · omega
        · exact hdvd ⟨m, by rw [mul_comm]; omega⟩
      omega
  | greater =>
    show m = n ↔ a = limit
    have hnone : n = 0 := by
      by_contra hn
      have hlt : limit < a := hfirst hn
      have hpos := hup hn
      exact hstop (show limit < a + (n : ℤ) * s by omega)
    subst hnone
    simp only [Comparison.Holds, Nat.cast_zero, zero_mul, add_zero] at hstop
    omega
  | greaterEqual =>
    show m = n ↔ False
    rw [iff_false]
    have hnone : n = 0 := by
      by_contra hn
      have hle : limit ≤ a := hfirst hn
      have hpos := hup hn
      exact hstop (show limit ≤ a + (n : ℤ) * s by omega)
    subst hnone
    simp only [Comparison.Holds, Nat.cast_zero, zero_mul, add_zero] at hstop
    omega
  | notEqual =>
    refine iff_of_true ?_ (.inl hs)
    have hend : a + (n : ℤ) * s = limit := not_not.1 hstop
    have hlt : ∀ k : ℕ, k < m ↔ k < n := by
      intro k
      rw [hcount, ← hend, add_lt_add_iff_left, mul_lt_mul_iff_left₀ hs, Nat.cast_lt]
    have hle := hlt m
    have hge := hlt n
    omega

/-- Downwards: the replicas still go up. -/
theorem loopFits_down (hs : s < 0) (hzero : 0 < m ↔ a < limit)
    (hall : ∀ k < n, c.Holds (a + (k : ℤ) * s) limit) (hstop : ¬ c.Holds (a + (n : ℤ) * s) limit) :
    m = n ∧ n ≤ 1 ↔ LoopFits c a limit s := by
  have hdown : n ≠ 0 → (n : ℤ) * s < 0 := fun hn => mul_neg_of_pos_of_neg (by omega) hs
  have hfirst : n ≠ 0 → c.Holds a limit := fun hn => by simpa using hall 0 (by omega)
  cases c with
  | less =>
    have hnone : n = 0 := by
      by_contra hn
      have hlt : a < limit := hfirst hn
      have hneg := hdown hn
      exact hstop (show a + (n : ℤ) * s < limit by omega)
    subst hnone
    simp only [Comparison.Holds, Nat.cast_zero, zero_mul, add_zero] at hstop
    refine iff_of_true ?_ trivial
    omega
  | lessEqual =>
    have hnone : n = 0 := by
      by_contra hn
      have hle : a ≤ limit := hfirst hn
      have hneg := hdown hn
      exact hstop (show a + (n : ℤ) * s ≤ limit by omega)
    subst hnone
    simp only [Comparison.Holds, Nat.cast_zero, zero_mul, add_zero, not_le] at hstop
    refine iff_of_true ?_ (.inl hstop)
    omega
  | greater =>
    show _ ↔ a = limit
    by_cases hn : n = 0
    · subst hn
      simp only [Comparison.Holds, Nat.cast_zero, zero_mul, add_zero] at hstop
      omega
    · have hlt : limit < a := hfirst hn
      omega
  | greaterEqual =>
    show _ ↔ False
    rw [iff_false]
    by_cases hn : n = 0
    · subst hn
      simp only [Comparison.Holds, Nat.cast_zero, zero_mul, add_zero] at hstop
      omega
    · have hle : limit ≤ a := hfirst hn
      omega
  | notEqual =>
    show _ ↔ 0 < s ∨ a = limit
    have hend : a + (n : ℤ) * s = limit := not_not.1 hstop
    by_cases hn : n = 0
    · subst hn
      simp only [Nat.cast_zero, zero_mul, add_zero] at hend
      omega
    · have hneg := hdown hn
      omega

end Fits

/-- Where the stride is `s ≠ 0`, the loop up to the limit by `|s|` is the
one that is written. -/
theorem loopFits_iff {c : Comparison} {a limit s : ℤ} {vs : List ℤ} (hs : s ≠ 0)
    (h : Iterates c limit s a vs) :
    trips a limit |s| = vs.length ∧ (vs.length ≤ 1 ∨ |s| = s) ↔ LoopFits c a limit s := by
  obtain ⟨-, hall, hstop⟩ := h.spec
  have hcount : ∀ k, k < trips a limit |s| ↔ _ := fun k => lt_trips_iff (abs_ne_zero.2 hs) k
  simp only [abs_pos.2 hs, if_true] at hcount
  rcases lt_or_gt_of_ne hs with hneg | hpos
  · have hzero : 0 < trips a limit |s| ↔ a < limit := by simpa using hcount 0
    have hne : ¬ |s| = s := by
      rw [abs_of_neg hneg]
      omega
    rw [← loopFits_down hneg hzero hall hstop]
    simp [hne]
  · simp only [abs_of_pos hpos] at hcount ⊢
    rw [← loopFits_up hpos hcount hall hstop]
    simp

/-- **When the replicas are the iterations that are written**: the count
of the bounds as they are read does not overflow and is that of the
iterations, and so are the first value and the stride. Where the bounds
are read with their values, the count of the loop up to the limit says
so: never for `>=`, without iterations for `>`, and for `<=` unless the
limit is an iteration. -/
theorem copiesMatch_iff {ctx : Enclosing} {flat : Bool} {b : Visitor} {l : Loop} {body : Stmt}
    {consts : Ident → Option ℤ} {start limit stride : ℤ} {values : List ℤ} (hvar : l.var ≠ [])
    (hb : Params64 b) (h : l.Runs consts start limit stride values) :
    (CopiesMatch ctx flat b l body values ↔
      CountFits (readStart b l) (readLimit b l) (readStride b l) ∧
        trips (readStart b l) (readLimit b l) (readStride b l) % 2 ^ 32 = values.length ∧
        (values.length = 0 ∨ readStart b l = start) ∧
        (values.length ≤ 1 ∨ readStride b l = stride)) ∧
      (readStart b l = start → readLimit b l = limit → readStride b l = |stride| →
        CountFits start limit |stride| → trips start limit |stride| < 2 ^ 32 →
        (CopiesMatch ctx flat b l body values ↔ LoopFits l.cmp start limit stride)) := by
  have hbounded := bounded_read hb l
  obtain ⟨hvalues, -⟩ := h.iterates.spec
  have hgeneral : CopiesMatch ctx flat b l body values ↔ _ :=
    (copiesMatch_iff_values hvar).trans (replicaValues?_eq_some_iff hbounded)
  conv at hgeneral => rhs; rw [hvalues, progression_eq_iff]
  refine ⟨hgeneral, fun hstart hlimit hstride hfits htrips => ?_⟩
  have hne : stride ≠ 0 := by
    rintro rfl
    exact hbounded.2.2.2 (by rw [hstride, abs_zero])
  rw [hgeneral, ← loopFits_iff hne h.iterates, hstart, hlimit, hstride, Nat.mod_eq_of_lt htrips]
  simp [hfits]

/-- `generate(i = a; i op b; i = i + k)` with digits for the bounds. -/
def plusLoop (a : Char) (c : Comparison) (b k : Char) : Loop :=
  ⟨0, ['i'], litExpr (.decimal [a]), c, litExpr (.decimal [b]), .plus (litExpr (.decimal [k]))⟩

/-- `i < 3` from 0 by one. -/
theorem copiesMatch_less :
    CopiesMatch ⟨[], []⟩ false .start (plusLoop '0' .less '3' '1') .empty [0, 1, 2] := by
  have hread : readStart .start (plusLoop '0' .less '3' '1') = 0 ∧
      readLimit .start (plusLoop '0' .less '3' '1') = 3 ∧
      readStride .start (plusLoop '0' .less '3' '1') = 1 := by
    decide +kernel
  have hruns : (plusLoop '0' .less '3' '1').Runs (fun _ => none) 0 3 1 [0, 1, 2] := by
    refine ⟨⟨false, .decimal ['0'], rfl, ⟨'0', [], rfl, by decide, by simp⟩, by decide, by decide, rfl⟩,
      ⟨false, .decimal ['3'], rfl, ⟨'3', [], rfl, by decide, by simp⟩, by decide, by decide, rfl⟩,
      ⟨false, .decimal ['1'], rfl, ⟨'1', [], rfl, by decide, by simp⟩, by decide, by decide, rfl⟩, ?_⟩
    exact .next (by decide) (.next (by decide) (.next (by decide) (.stop (by decide))))
  have hparams : Params64 .start := fun name v hv => absurd hv (by simp [Visitor.start])
  refine ((copiesMatch_iff (by decide) hparams hruns).2 hread.1 hread.2.1 hread.2.2 ?_ ?_).2 trivial
  · unfold CountFits
    decide
  · decide

/-- `i <= 3` from 0 by one: the replica for 3 is missing. -/
theorem not_copiesMatch_lessEqual :
    Iterates .lessEqual 3 1 0 [0, 1, 2, 3] ∧
      ¬ CopiesMatch ⟨[], []⟩ false .start (plusLoop '0' .lessEqual '3' '1') .empty [0, 1, 2, 3] := by
  constructor
  · exact .next (by decide) (.next (by decide) (.next (by decide) (.next (by decide)
      (.stop (by decide)))))
  · intro h
    have hvalues := (copiesMatch_iff_values (by decide)).1 h
    have hcode : replicaValues? (readStart .start (plusLoop '0' .lessEqual '3' '1'))
        (readLimit .start (plusLoop '0' .lessEqual '3' '1'))
        (readStride .start (plusLoop '0' .lessEqual '3' '1')) = some [0, 1, 2] := by
      decide +kernel
    exact absurd (hcode.symm.trans hvalues) (by decide)

end ASTToMLIR

end Nslc
