import Nslc.Common.Lines
import Nslc.Common.Search
/-!
# `nsl.struct`

The struct ops of one symbol table and their verifier. A field of struct
type refers to the struct by name; a name that is none of a struct in the
table refers to nothing. The verifier looks from each field for a way
back to the struct. An op is told apart by its position in the table.
-/

namespace Nslc

namespace Dialect

/-- The types a field may have. -/
inductive FieldType where
  | bits (width : ℕ)
  | struct (name : Text)
  deriving DecidableEq, Repr

/-- An op in the body of a struct. -/
inductive Child where
  | fieldDecl (name : Text) (fieldType : FieldType)
  | other
  deriving DecidableEq, Repr

/-- A symbol: a struct with its body, or another op with a name. -/
structure SymbolOp where
  symName : Text
  body : Option (List Child)
  deriving DecidableEq, Repr

/-- The ops with a symbol, each with a name. -/
structure SymbolTable where
  ops : List SymbolOp
  named : ∀ op ∈ ops, op.symName ≠ []

inductive StructError where
  /-- "requires a non-empty 'sym_name' attribute" -/
  | unnamed
  /-- "struct field list is circular through field '<field>'" -/
  | circular (field : Text)
  deriving DecidableEq, Repr

namespace SymbolTable

variable (table : SymbolTable)

/-- `lookupSymbolIn`: the first op with the name. -/
def lookupSymbol (name : Text) : Option ℕ := table.ops.findIdx? fun op => op.symName = name

/-- The fields of op number `i`, if that is a struct. -/
def fields? (i : ℕ) : Option (List Child) := (table.ops[i]?).bind SymbolOp.body

/-- The struct a field refers to. -/
def referenced? : Child → Option ℕ
  | .fieldDecl _ (.struct name) =>
    (table.lookupSymbol name).bind fun j => if (table.fields? j).isSome then some j else none
  | _ => none

/-- The structs the fields of a struct refer to. -/
def references (i : ℕ) : List ℕ := ((table.fields? i).getD []).filterMap table.referenced?

/-- `reachesSelf`, at most through every op of the table in turn. -/
def reachesSelf (self current : ℕ) : Option (Bool × List ℕ) :=
  Search.reaches table.references self (table.ops.length + 1) current []

/-- One field after another, each with a search of its own. -/
def verifyFields (self : ℕ) : List Child → Option (Except StructError Unit)
  | [] => some (.ok ())
  | child :: children =>
    match table.referenced? child with
    | none => verifyFields self children
    | some j =>
      match table.reachesSelf self j with
      | none => none
      | some (true, _) =>
        match child with
        | .fieldDecl name _ => some (.error (.circular name))
        | .other => verifyFields self children
      | some (false, _) => verifyFields self children

/-- `StructOp::verify` of op number `i`, a struct; `none` if it does not
end. -/
def verifyStruct (i : ℕ) : Option (Except StructError Unit) :=
  match table.ops[i]? with
  | none => some (.ok ())
  | some op =>
    if op.symName = [] then some (.error .unnamed)
    else verifyFields table i (op.body.getD [])

/-- A field of the one struct refers to the other. -/
def FieldRef (i j : ℕ) : Prop := j ∈ table.references i

/-- A struct on a cycle of references. -/
def OnCycle (i : ℕ) : Prop := Relation.TransGen table.FieldRef i i

/-- **Circular structs are rejected**, and only those. -/
def RejectsCycles : Prop :=
  ∀ i, (table.fields? i).isSome →
    ∃ verdict, table.verifyStruct i = some verdict ∧ (verdict.isOk = false ↔ table.OnCycle i)

/-! ## The search -/

variable {table}

theorem referenced?_lt {child : Child} {j : ℕ} (h : table.referenced? child = some j) :
    j < table.ops.length := by
  cases child with
  | other => cases h
  | fieldDecl name fieldType =>
    cases fieldType with
    | bits width => cases h
    | struct target =>
      obtain ⟨k, hk, hif⟩ := Option.bind_eq_some_iff.1 h
      obtain ⟨hlt, -⟩ := List.findIdx?_eq_some_iff_getElem.1 hk
      split at hif
      · obtain rfl := Option.some.inj hif
        exact hlt
      · cases hif

theorem references_lt {i j : ℕ} (h : table.FieldRef i j) : j < table.ops.length := by
  obtain ⟨child, -, hj⟩ := List.mem_filterMap.1 h
  exact referenced?_lt hj

theorem reachesSelf_iff {self j : ℕ} (hj : j < table.ops.length) :
    ∃ found seen, table.reachesSelf self j = some (found, seen) ∧
      (found = true ↔ Relation.ReflTransGen table.FieldRef j self) := by
  have hclosed : ∀ x ∈ List.range table.ops.length, ∀ y ∈ table.references x,
      y ∈ List.range table.ops.length := fun x _ y hy => List.mem_range.2 (references_lt hy)
  exact Search.reaches_iff hclosed (List.mem_range.2 hj) (by simp)

/-- The fields are verified exactly if none of them leads back. -/
theorem verifyFields_iff (self : ℕ) (children : List Child) :
    ∃ verdict, table.verifyFields self children = some verdict ∧
      (verdict.isOk = false ↔ ∃ child ∈ children, ∃ j, table.referenced? child = some j ∧
        Relation.ReflTransGen table.FieldRef j self) := by
  induction children with
  | nil => exact ⟨.ok (), rfl, by simp [Except.isOk, Except.toBool]⟩
  | cons child children ih =>
    obtain ⟨verdict, hverdict, hiff⟩ := ih
    unfold verifyFields
    cases hj : table.referenced? child with
    | none =>
      refine ⟨verdict, hverdict, hiff.trans ?_⟩
      simp [hj]
    | some j =>
      obtain ⟨found, seen, hsearch, hfound⟩ := reachesSelf_iff (referenced?_lt hj)
      cases found with
      | false =>
        have hno : ¬ Relation.ReflTransGen table.FieldRef j self := fun h => by
          cases hfound.2 h
        refine ⟨verdict, by simp only [hsearch, hverdict], hiff.trans ?_⟩
        simp [hj, hno]
      | true =>
        cases child with
        | other => cases hj
        | fieldDecl name fieldType =>
          refine ⟨.error (.circular name), by simp only [hsearch], iff_of_true rfl ?_⟩
          exact ⟨_, List.mem_cons_self, j, hj, hfound.1 rfl⟩

/-- **The verifier of `nsl.struct` always ends, and fails for the structs
on a cycle of field references and for no others.** -/
theorem rejectsCycles (table : SymbolTable) : table.RejectsCycles := by
  intro i hi
  obtain ⟨children, hchildren⟩ := Option.isSome_iff_exists.1 hi
  obtain ⟨op, hop, hbody⟩ := Option.bind_eq_some_iff.1 hchildren
  have hnamed : op.symName ≠ [] := table.named op (List.mem_of_getElem? hop)
  obtain ⟨verdict, hverdict, hiff⟩ := table.verifyFields_iff i children
  refine ⟨verdict, ?_, hiff.trans ?_⟩
  · simp only [verifyStruct, hop, if_neg hnamed, hbody, Option.getD_some, hverdict]
  · rw [OnCycle, Relation.TransGen.head'_iff]
    have hrefs : ∀ j, table.FieldRef i j ↔ ∃ child ∈ children, table.referenced? child = some j := by
      intro j
      rw [FieldRef, references, hchildren]
      exact List.mem_filterMap
    constructor
    · rintro ⟨child, hmem, j, hj, hpath⟩
      exact ⟨j, (hrefs j).2 ⟨child, hmem, hj⟩, hpath⟩
    · rintro ⟨j, hedge, hpath⟩
      obtain ⟨child, hmem, hj⟩ := (hrefs j).1 hedge
      exact ⟨child, hmem, j, hj, hpath⟩

end SymbolTable

/-- Two structs that hold each other, one that holds them, and a dangling
name. -/
def mutualStructs : SymbolTable where
  ops := [⟨"a".toList, some [.fieldDecl "x".toList (.struct "b".toList)]⟩,
    ⟨"b".toList, some [.fieldDecl "y".toList (.struct "none".toList),
      .fieldDecl "z".toList (.struct "a".toList)]⟩,
    ⟨"c".toList, some [.fieldDecl "w".toList (.struct "a".toList)]⟩]
  named := by decide

example : (List.range 3).map mutualStructs.verifyStruct =
    [some (.error (.circular "x".toList)), some (.error (.circular "z".toList)),
      some (.ok ())] := by decide +kernel

end Dialect

end Nslc
