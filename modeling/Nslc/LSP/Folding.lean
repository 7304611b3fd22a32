import Mathlib
import Nslc.LSP.Envelope
/-!
# LSP — folding ranges

`buildFoldingRanges` walks the text once and polls the request's token
at every `}` that closes a top-level brace. One turn of its loop is one
step here, so that a cancellation can come between any two.

A walk that is not interrupted ends where the walk without a token ends
(`Scan.finish`), whenever the token was read.
-/

namespace Nslc

namespace LSP

structure FoldingRecord where
  startLine : ℕ
  endLine : ℕ
  isComment : Bool
  deriving DecidableEq, Repr

/-- The walker in front of the rest of the text. -/
structure Scan where
  rest : Text
  line : ℕ
  /-- The lines of the open braces, the innermost first. -/
  braceStack : List ℕ
  records : List FoldingRecord
  /-- The loop was left by its `break`. -/
  interrupted : Bool
  deriving DecidableEq, Repr

namespace Scan

/-- The body of a block comment: the line behind it, and the text. -/
def skipBlock (line : ℕ) : Text → ℕ × Text
  | '*' :: '/' :: rest => (line, rest)
  | c :: d :: rest => skipBlock (if c = '\n' then line + 1 else line) (d :: rest)
  | rest => (line, rest)

/-- The body of a string. An escaped line end is not counted. -/
def skipString (line : ℕ) : Text → ℕ × Text
  | [] => (line, [])
  | '\\' :: _ :: rest => skipString line rest
  | '"' :: rest => (line, rest)
  | c :: rest => skipString (if c = '\n' then line + 1 else line) rest

def fold (records : List FoldingRecord) (startLine line : ℕ) (isComment : Bool) :
    List FoldingRecord :=
  if startLine < line then records ++ [⟨startLine, line, isComment⟩] else records

/-- One turn of the loop, the token reading `cancelled`. -/
def step (cancelled : Bool) (s : Scan) : Scan :=
  match s.rest with
  | [] => s
  | '\n' :: rest => { s with rest := rest, line := s.line + 1 }
  | '/' :: '/' :: rest => { s with rest := rest.dropWhile (· ≠ '\n') }
  | '/' :: '*' :: rest =>
    let (line, rest) := skipBlock s.line rest
    { s with rest := rest, line := line, records := fold s.records s.line line true }
  | '"' :: rest =>
    let (line, rest) := skipString s.line rest
    { s with rest := rest, line := line }
  | '{' :: rest => { s with rest := rest, braceStack := s.line :: s.braceStack }
  | '}' :: rest =>
    match s.braceStack with
    | [] => { s with rest := rest, interrupted := cancelled }
    | startLine :: stack =>
      { s with
        rest := rest
        braceStack := stack
        records := fold s.records startLine s.line false
        interrupted := stack.isEmpty && cancelled }
  | _ :: rest => { s with rest := rest }

def start (source : Text) : Scan := ⟨source, 0, [], [], false⟩

/-- The loop is over. -/
def ended (s : Scan) : Bool := s.rest.isEmpty || s.interrupted

/-- The walk to the end of the text that nothing interrupts. -/
def finish (s : Scan) : Scan := (step false)^[s.rest.length] s

/-! ## One turn -/

theorem length_skipBlock_le (line : ℕ) (x : Text) : (skipBlock line x).2.length ≤ x.length := by
  induction line, x using skipBlock.induct with
  | case1 line rest =>
    simp only [skipBlock, List.length_cons]
    omega
  | case2 line c d rest hne ih =>
    rw [skipBlock.eq_2 line c d rest hne]
    simp only [List.length_cons] at ih ⊢
    split at ih <;> simp_all <;> omega
  | case3 line rest h1 h2 => rw [skipBlock.eq_3 line rest h1 h2]

theorem length_skipString_le (line : ℕ) (x : Text) : (skipString line x).2.length ≤ x.length := by
  induction line, x using skipString.induct with
  | case1 line => simp [skipString]
  | case2 line c rest ih =>
    simp only [skipString, List.length_cons]
    omega
  | case3 line rest =>
    simp only [skipString, List.length_cons]
    omega
  | case4 line c rest h1 h2 ih =>
    rw [skipString.eq_4 line c rest h1 h2]
    simp only [List.length_cons]
    split at ih <;> simp_all <;> omega

/-- A turn reads at least one character. -/
theorem length_step_lt {s : Scan} (cancelled : Bool) (h : s.rest ≠ []) :
    (s.step cancelled).rest.length < s.rest.length := by
  unfold step
  split <;> rename_i heq
  · exact absurd heq h
  · simp [heq]
  · have := List.length_dropWhile_le (· ≠ '\n') (by assumption)
    simp only [heq, List.length_cons]
    omega
  · have := length_skipBlock_le s.line (by assumption)
    simp only [heq, List.length_cons]
    omega
  · have := length_skipString_le s.line (by assumption)
    simp only [heq, List.length_cons]
    omega
  · simp [heq]
  · split <;> simp [heq]
  · simp [heq]

/-- The token is read for the `break` alone. -/
theorem step_eq_of_not_interrupted {s : Scan} {cancelled : Bool}
    (h : (s.step cancelled).interrupted = false) : s.step cancelled = s.step false := by
  cases cancelled with
  | false => rfl
  | true =>
    unfold step at h ⊢
    split <;> try rfl
    -- only a `}` looks at the token
    cases hstack : s.braceStack with
    | nil => simp_all
    | cons startLine stack => simp_all

/-- A turn that leaves the loop has read a cancelled token. -/
theorem cancelled_of_interrupted {s : Scan} {cancelled : Bool} (h : s.interrupted = false)
    (h' : (s.step cancelled).interrupted = true) : cancelled = true := by
  unfold step at h'
  split at h' <;> try simp_all
  split at h' <;> simp_all

/-! ## The whole walk -/

theorem finish_of_rest_nil {s : Scan} (h : s.rest = []) : s.finish = s := by
  simp [finish, h]

theorem iterate_step_of_rest_nil {s : Scan} (h : s.rest = []) (n : ℕ) : (step false)^[n] s = s := by
  induction n with
  | zero => rfl
  | succ n ih =>
    have hstep : s.step false = s := by simp [step, h]
    rw [Function.iterate_succ_apply, hstep, ih]

/-- Turns beyond the text's length change nothing. -/
theorem iterate_step_congr (s : Scan) {n m : ℕ} (hn : s.rest.length ≤ n)
    (hm : s.rest.length ≤ m) : (step false)^[n] s = (step false)^[m] s := by
  induction n generalizing s m with
  | zero =>
    have hnil : s.rest = [] := List.length_eq_zero_iff.1 (by omega)
    rw [iterate_step_of_rest_nil hnil, iterate_step_of_rest_nil hnil]
  | succ n ih =>
    by_cases hnil : s.rest = []
    · rw [iterate_step_of_rest_nil hnil, iterate_step_of_rest_nil hnil]
    · have hlt := length_step_lt false hnil
      obtain ⟨k, rfl⟩ : ∃ k, m = k + 1 := Nat.exists_eq_succ_of_ne_zero (by omega)
      rw [Function.iterate_succ_apply, Function.iterate_succ_apply]
      exact ih _ (by omega) (by omega)

theorem finish_step (s : Scan) : (s.step false).finish = s.finish := by
  by_cases hnil : s.rest = []
  · have hstep : s.step false = s := by simp [step, hnil]
    rw [hstep]
  · have hlt := length_step_lt false hnil
    calc (s.step false).finish
        = (step false)^[s.rest.length] (s.step false) :=
          iterate_step_congr _ le_rfl hlt.le
      _ = (step false)^[s.rest.length + 1] s := (Function.iterate_succ_apply _ _ _).symm
      _ = s.finish := iterate_step_congr s (by omega) le_rfl

/-- **No truncated walk passes.** A walk that has come to its end
without its `break` ends where the walk without a token does. -/
theorem eq_finish_of_ended {s : Scan} {source : Text} (hs : s.finish = (start source).finish)
    (hend : s.ended = true) (hint : s.interrupted = false) : s = (start source).finish := by
  have hnil : s.rest = [] := by simpa [ended, hint] using hend
  rw [← hs, finish_of_rest_nil hnil]

end Scan

/-! ## The response -/

namespace FoldingRecord

/-- `operator<`, as `std::sort` uses it. -/
def le (r r' : FoldingRecord) : Bool :=
  r.startLine < r'.startLine || r.startLine == r'.startLine && r.endLine ≤ r'.endLine

def toJson (r : FoldingRecord) : Json :=
  let lines := [("endLine".toList, .integer r.endLine), ("startLine".toList, .integer r.startLine)]
  .object (if r.isComment then lines ++ [("kind".toList, .string "comment".toList)] else lines)

end FoldingRecord

/-- The array a finished walk returns, in the order of the lines. Equal
lines stay in the order they were found, which `std::sort` leaves
open. -/
def Scan.folds (s : Scan) : Json :=
  .array ((s.records.mergeSort FoldingRecord.le).map FoldingRecord.toJson)

/-- `buildFoldingRanges` with a token that is never cancelled. -/
def buildFoldingRanges (source : Text) : Json := (Scan.start source).finish.folds

end LSP

end Nslc
