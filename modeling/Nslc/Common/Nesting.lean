import Mathlib
/-!
# Nesting of conditional marks

The marks of a conditional language, the grammar
`opener region [else region] endif` their sequences are meant to derive
from, and two scans that decide nesting mark by mark: `scan` keeps, per
open conditional, whether its `else` has been read, `depthScan` only how
many are open. The grammar is exactly what `scan` accepts
(`region_iff_scan`), which is what `depthScan` accepts without a second
`else` under one opener (`region_iff_balanced`).
-/

namespace Nslc

namespace Nesting

inductive Mark where
  | opener
  | els
  | endif
  deriving DecidableEq, Repr

/-- Sequences of marks the grammar derives. -/
inductive Region : List Mark → Prop
  | nil : Region []
  | plain {r s : List Mark} : Region r → Region s → Region (.opener :: r ++ .endif :: s)
  | withElse {r e s : List Mark} : Region r → Region e → Region s →
      Region (.opener :: r ++ .els :: e ++ .endif :: s)

/-- One mark under the open conditionals `st`, innermost first, each
with whether its `else` has been read. -/
def scanStep (st : List Bool) : Mark → Option (List Bool)
  | .opener => some (false :: st)
  | .els =>
    match st with
    | false :: rest => some (true :: rest)
    | _ => none
  | .endif =>
    match st with
    | _ :: rest => some rest
    | [] => none

/-- Reads a sequence of marks; `none` at a stray mark or a second `else`. -/
def scan : List Bool → List Mark → Option (List Bool)
  | st, [] => some st
  | st, m :: ms => (scanStep st m).bind fun st' => scan st' ms

/-- The same reading, keeping only the number of open conditionals. -/
def depthScan : ℕ → List Mark → Option ℕ
  | d, [] => some d
  | d, .opener :: ms => depthScan (d + 1) ms
  | d, .els :: ms => if d = 0 then none else depthScan d ms
  | d, .endif :: ms => if d = 0 then none else depthScan (d - 1) ms

/-- Every `else` and `endif` has an opener, and every opener an `endif`. -/
def Balanced (ms : List Mark) : Prop := depthScan 0 ms = some 0

instance (ms : List Mark) : Decidable (Balanced ms) := inferInstanceAs (Decidable (_ = _))

/-- Some `else` is read where its opener already has one. -/
def repeatedElse : List Bool → List Mark → Bool
  | _, [] => false
  | st, .opener :: ms => repeatedElse (false :: st) ms
  | [], .els :: ms => repeatedElse [] ms
  | seen :: st, .els :: ms => seen || repeatedElse (true :: st) ms
  | st, .endif :: ms => repeatedElse st.tail ms

/-! ## The grammar is what the scan accepts -/

theorem scan_append (st : List Bool) (ms ns : List Mark) :
    scan st (ms ++ ns) = (scan st ms).bind fun st' => scan st' ns := by
  induction ms generalizing st with
  | nil => rfl
  | cons m ms ih =>
    cases h : scanStep st m with
    | none => simp [scan, h]
    | some st' => simp [scan, h, ih]

/-- A region leaves the open conditionals as they were. -/
theorem scan_region {r : List Mark} (h : Region r) (st : List Bool) : scan st r = some st := by
  induction h generalizing st with
  | nil => rfl
  | plain _ _ ihr ihs => simp [scan, scanStep, scan_append, ihr, ihs]
  | withElse _ _ _ ihr ihe ihs => simp [scan, scanStep, scan_append, ihr, ihe, ihs]

/-- The sequences that close the conditionals `st`: per open conditional
a region, its `else` part where none was read, and its `endif`. -/
inductive Closes : List Bool → List Mark → Prop
  | done {r : List Mark} : Region r → Closes [] r
  | plain {b : Bool} {st : List Bool} {r ms : List Mark} : Region r → Closes st ms →
      Closes (b :: st) (r ++ .endif :: ms)
  | withElse {st : List Bool} {r e ms : List Mark} : Region r → Region e → Closes st ms →
      Closes (false :: st) (r ++ .els :: e ++ .endif :: ms)

/-- A conditional with nothing but regions inside goes in front. -/
theorem Closes.cons_plain {st : List Bool} {r ms : List Mark} (hr : Region r) (h : Closes st ms) :
    Closes st (.opener :: r ++ .endif :: ms) := by
  cases h with
  | done hs => exact .done (.plain hr hs)
  | @plain b _ _ _ hs h' =>
    have := Closes.plain (b := b) (.plain hr hs) h'
    simpa [List.append_assoc] using this
  | withElse hs he h' =>
    have := Closes.withElse (.plain hr hs) he h'
    simpa [List.append_assoc] using this

theorem Closes.cons_withElse {st : List Bool} {r e ms : List Mark} (hr : Region r) (he : Region e)
    (h : Closes st ms) : Closes st (.opener :: r ++ .els :: e ++ .endif :: ms) := by
  cases h with
  | done hs => exact .done (.withElse hr he hs)
  | @plain b _ _ _ hs h' =>
    have := Closes.plain (b := b) (.withElse hr he hs) h'
    simpa [List.append_assoc] using this
  | withElse hs he' h' =>
    have := Closes.withElse (.withElse hr he hs) he' h'
    simpa [List.append_assoc] using this

/-- What the scan reads down to no open conditional closes the ones it
started with. The induction is on the marks still to be read. -/
theorem closes_of_scan {ms : List Mark} {st : List Bool} (h : scan st ms = some []) :
    Closes st ms := by
  induction ms generalizing st with
  | nil =>
    simp only [scan, Option.some.injEq] at h
    subst h
    exact .done .nil
  | cons m ms ih =>
    cases m with
    | opener =>
      have hc : Closes (false :: st) ms := ih (by simpa [scan, scanStep] using h)
      cases hc with
      | plain hr h' => exact h'.cons_plain hr
      | withElse hr he h' => exact h'.cons_withElse hr he
    | els =>
      match st with
      | [] => simp [scan, scanStep] at h
      | true :: st => simp [scan, scanStep] at h
      | false :: st =>
        have hc : Closes (true :: st) ms := ih (by simpa [scan, scanStep] using h)
        cases hc with
        | plain he h' => exact .withElse .nil he h'
    | endif =>
      match st with
      | [] => simp [scan, scanStep] at h
      | b :: st => exact .plain .nil (ih (by simpa [scan, scanStep] using h))

/-- **The grammar is what the scan accepts.** -/
theorem region_iff_scan (ms : List Mark) : Region ms ↔ scan [] ms = some [] := by
  constructor
  · exact fun h => scan_region h []
  · intro h
    cases closes_of_scan h with
    | done hr => exact hr

/-! ## The scan, by depth and repeated `else` -/

theorem depthScan_append (d : ℕ) (ms ns : List Mark) :
    depthScan d (ms ++ ns) = (depthScan d ms).bind fun d' => depthScan d' ns := by
  induction ms generalizing d with
  | nil => rfl
  | cons m ms ih =>
    cases m with
    | opener => simp [depthScan, ih]
    | els => by_cases h : d = 0 <;> simp [depthScan, h, ih]
    | endif => by_cases h : d = 0 <;> simp [depthScan, h, ih]

/-- The scan ends without open conditionals exactly when the depth does
and no `else` is repeated on the way. -/
theorem scan_eq_nil_iff (ms : List Mark) (st : List Bool) :
    scan st ms = some [] ↔ depthScan st.length ms = some 0 ∧ repeatedElse st ms = false := by
  induction ms generalizing st with
  | nil => simp [scan, depthScan, repeatedElse]
  | cons m ms ih =>
    cases m with
    | opener => simpa [scan, scanStep, depthScan, repeatedElse] using ih (false :: st)
    | els =>
      match st with
      | [] => simp [scan, scanStep, depthScan]
      | true :: st => simp [scan, scanStep, repeatedElse]
      | false :: st => simpa [scan, scanStep, depthScan, repeatedElse] using ih (true :: st)
    | endif =>
      match st with
      | [] => simp [scan, scanStep, depthScan]
      | b :: st => simpa [scan, scanStep, depthScan, repeatedElse] using ih st

/-- **The grammar, by depth.** A sequence is grammatical exactly when it
is balanced and no opener has a second `else`. -/
theorem region_iff_balanced (ms : List Mark) :
    Region ms ↔ Balanced ms ∧ repeatedElse [] ms = false := by
  rw [region_iff_scan, scan_eq_nil_iff]
  rfl

end Nesting

end Nslc
