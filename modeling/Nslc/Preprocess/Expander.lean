import Nslc.Common.Regions
import Nslc.Preprocess.Names
/-!
# Preprocessor — the macro expander

`MacroExpander::expand` replaces the macros of an expression before it
is parsed. It reads the text once, from left to right, in pieces: a
string literal, a well-formed `%IDENT%`, an identifier, or one other
byte. A piece that names a macro is replaced by the expansion of the
macro's body; what is put in is not read again together with what stands
around it. The nesting of bodies is bounded.
-/

namespace Nslc

namespace Preprocess

namespace MacroExpander

/-- `kMaxExpansionDepth`. -/
def kMaxExpansionDepth : ℕ := 256

/-! ## Pieces -/

inductive Piece where
  /-- A string literal, its quotes included; it may run to the end. -/
  | string (t : Text)
  /-- `%name%`. -/
  | ref (name : Text)
  | word (name : Text)
  | byte (c : Char)
  deriving DecidableEq, Repr

/-- The bytes of a piece. -/
def Piece.text : Piece → Text
  | .string t => t
  | .ref name => '%' :: name ++ ['%']
  | .word name => name
  | .byte c => [c]

/-- The name the piece would be replaced under. -/
def Piece.name? : Piece → Option Text
  | .ref name | .word name => some name
  | .string _ | .byte _ => none

/-- The piece the text `c :: cs` begins with, and what follows. -/
def cutPiece (c : Char) (cs : Text) : Piece × Text :=
  if c = '"' then (.string (c :: (takeString cs).1), (takeString cs).2)
  else if c = '%' then
    if (cs.head?.any isIdentStart) = true ∧ (cs.dropWhile isIdentBody).head? = some '%' then
      (.ref (cs.takeWhile isIdentBody), (cs.dropWhile isIdentBody).tail)
    else (.byte c, cs)
  else if isIdentStart c then (.word (c :: cs.takeWhile isIdentBody), cs.dropWhile isIdentBody)
  else (.byte c, cs)

/-- Every piece takes a byte at least, so the length of the text is
enough fuel. -/
def piecesUpto : ℕ → Text → List Piece
  | 0, _ => []
  | _ + 1, [] => []
  | fuel + 1, c :: cs => (cutPiece c cs).1 :: piecesUpto fuel (cutPiece c cs).2

def pieces (t : Text) : List Piece := piecesUpto t.length t

/-! ## Expansion -/

/-- The texts put in for the pieces, and the errors, in order. -/
def gather (f : Piece → Text × List Finding) : List Piece → Text × List Finding
  | [] => ([], [])
  | p :: ps => ((f p).1 ++ (gather f ps).1, (f p).2 ++ (gather f ps).2)

/-- `recursive macro expansion`, at the use site. -/
def recursiveExpansion (delta : ℕ) (name : Text) : Finding :=
  ⟨.error, delta, "recursive macro expansion: ".toList ++ name⟩

/-- The macro a piece names. -/
def Piece.macro? (m : MacroTable) (p : Piece) : Option MacroDef := p.name?.bind m.lookup

/-- `expandImpl`, with the levels of bodies that may still be opened. -/
def expandImpl (m : MacroTable) (delta : ℕ) : ℕ → Text → Text × List Finding
  | 0, text => gather (fun p =>
      match p.macro? m with
      | none => (p.text, [])
      | some d => (p.text, [recursiveExpansion delta d.name])) (pieces text)
  | levels + 1, text => gather (fun p =>
      match p.macro? m with
      | none => (p.text, [])
      | some d => expandImpl m delta levels d.body) (pieces text)

/-- `MacroExpander::expand`, for a use site `delta` bytes behind the
location the evaluation was started at. -/
def expand (m : MacroTable) (text : Text) (delta : ℕ) : Text × List Finding :=
  expandImpl m delta kMaxExpansionDepth text

/-! ## Cutting loses nothing -/

theorem length_takeString_snd (t : Text) : (takeString t).2.length ≤ t.length := by
  have h := congrArg List.length (takeString_append t)
  rw [List.length_append] at h
  omega

theorem length_dropWhile_le (p : Char → Bool) (t : Text) : (t.dropWhile p).length ≤ t.length :=
  (List.dropWhile_suffix p).length_le

theorem cutPiece_length (c : Char) (cs : Text) : (cutPiece c cs).2.length ≤ cs.length := by
  unfold cutPiece
  split_ifs
  · exact length_takeString_snd cs
  · exact (List.tail_suffix _).length_le.trans (length_dropWhile_le _ cs)
  · exact le_rfl
  · exact length_dropWhile_le _ cs
  · exact le_rfl

theorem cutPiece_text (c : Char) (cs : Text) :
    (cutPiece c cs).1.text ++ (cutPiece c cs).2 = c :: cs := by
  unfold cutPiece
  split_ifs with hq hp href hw
  · simp [Piece.text, takeString_append]
  · obtain ⟨ds, hds⟩ : ∃ ds, cs.dropWhile isIdentBody = '%' :: ds := by
      have hhead := href.2
      exact ⟨_, List.eq_cons_of_mem_head? (by simpa using hhead)⟩
    have hsplit := List.takeWhile_append_dropWhile (p := isIdentBody) (l := cs)
    rw [hds] at hsplit ⊢
    simp [Piece.text, hp, hsplit]
  · rfl
  · simp [Piece.text, List.takeWhile_append_dropWhile]
  · rfl

theorem piecesUpto_eq {fuel : ℕ} {t : Text} (h : t.length ≤ fuel) :
    piecesUpto fuel t = pieces t := by
  rw [pieces]
  induction fuel using Nat.strong_induction_on generalizing t with
  | _ fuel ih =>
    cases fuel with
    | zero =>
      have hnil : t = [] := List.eq_nil_of_length_eq_zero (by omega)
      rw [hnil]
      rfl
    | succ n =>
      cases t with
      | nil => rfl
      | cons c cs =>
        have hlen := cutPiece_length c cs
        rw [List.length_cons] at h
        simp only [List.length_cons, piecesUpto]
        rw [ih n (by omega) (t := (cutPiece c cs).2) (by omega)]
        rcases Nat.lt_or_ge cs.length (n + 1) with hlt | hge
        · rw [ih cs.length (by omega) (by omega)]
        · omega

@[simp] theorem pieces_nil : pieces [] = [] := rfl

theorem pieces_cons (c : Char) (cs : Text) :
    pieces (c :: cs) = (cutPiece c cs).1 :: pieces (cutPiece c cs).2 := by
  have hlen := cutPiece_length c cs
  have hup : pieces (c :: cs) =
      (cutPiece c cs).1 :: piecesUpto cs.length (cutPiece c cs).2 := rfl
  rw [hup, piecesUpto_eq hlen]

/-- **Cutting loses nothing.** -/
theorem flatMap_text_pieces (t : Text) : (pieces t).flatMap Piece.text = t := by
  induction h : t.length using Nat.strong_induction_on generalizing t with
  | _ n ih =>
    cases t with
    | nil => rfl
    | cons c cs =>
      have hlen := cutPiece_length c cs
      rw [List.length_cons] at h
      rw [pieces_cons, List.flatMap_cons, ih _ (by omega) _ rfl, cutPiece_text]

/-! ## Gathering -/

section Gather

variable {f g : Piece → Text × List Finding} {ps qs : List Piece}

@[simp] theorem gather_nil : gather f [] = ([], []) := rfl

theorem gather_fst : (gather f ps).1 = ps.flatMap fun p => (f p).1 := by
  induction ps with
  | nil => rfl
  | cons p ps ih => rw [gather, List.flatMap_cons, ← ih]

theorem gather_snd : (gather f ps).2 = ps.flatMap fun p => (f p).2 := by
  induction ps with
  | nil => rfl
  | cons p ps ih => rw [gather, List.flatMap_cons, ← ih]

theorem gather_append :
    gather f (ps ++ qs) = ((gather f ps).1 ++ (gather f qs).1, (gather f ps).2 ++ (gather f qs).2) := by
  apply Prod.ext
  · rw [gather_fst, gather_fst, gather_fst, List.flatMap_append]
  · rw [gather_snd, gather_snd, gather_snd, List.flatMap_append]

end Gather

variable {m : MacroTable} {delta : ℕ} {levels : ℕ} {t : Text}

/-- What is put in for one piece. -/
def expandPiece (m : MacroTable) (delta : ℕ) : ℕ → Piece → Text × List Finding
  | 0, p => match p.macro? m with
    | none => (p.text, [])
    | some d => (p.text, [recursiveExpansion delta d.name])
  | levels + 1, p => match p.macro? m with
    | none => (p.text, [])
    | some d => expandImpl m delta levels d.body

theorem expandImpl_eq (m : MacroTable) (delta levels : ℕ) (t : Text) :
    expandImpl m delta levels t = gather (expandPiece m delta levels) (pieces t) := by
  cases levels with
  | zero => rfl
  | succ n => rfl

/-- A piece that names no macro stays. -/
theorem expandPiece_of_none {p : Piece} (h : p.macro? m = none) :
    expandPiece m delta levels p = (p.text, []) := by
  cases levels with
  | zero => rw [expandPiece, h]
  | succ n => rw [expandPiece, h]

/-- **Text without macros** is left as it is. -/
theorem expand_of_macroFree (h : ∀ p ∈ pieces t, p.macro? m = none) :
    expand m t delta = (t, []) := by
  have hpiece : ∀ p ∈ pieces t, expandPiece m delta kMaxExpansionDepth p = (p.text, []) :=
    fun p hp => expandPiece_of_none (h p hp)
  rw [expand, expandImpl_eq]
  apply Prod.ext
  · rw [gather_fst, List.flatMap_congr fun p hp => congrArg Prod.fst (hpiece p hp)]
    exact flatMap_text_pieces t
  · rw [gather_snd, List.flatMap_congr fun p hp => congrArg Prod.snd (hpiece p hp)]
    simp

end MacroExpander

end Preprocess

end Nslc
