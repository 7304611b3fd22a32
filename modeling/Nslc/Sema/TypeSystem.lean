import Nslc.Common.Interning
import Nslc.AST.Syntax
/-!
# Sema — the type system

`TypeSystem` owns the types of a run and hands them out by pointer: a
`TypeRef` is the number of an object. Widths and memories are looked up
by what they are made of, structs by name alone, where the first
registration's fields stay. `refs_eq_iff` is the contract of the class:
two pointers are equal exactly if the types behind them are, however the
requests come in.
-/

namespace Nslc

namespace Sema

open AST Interning

structure TypeSystem.FieldInfo where
  name : Ident
  width : ℕ
  offset : ℕ
  deriving DecidableEq, Repr

/-- The number of an object. -/
abbrev TypeRef := ℕ

/-- An object of a class derived from `Type`. -/
inductive TypeObject where
  | bit
  | bitVector (width : ℕ)
  | struct (name : Ident) (fields : List TypeSystem.FieldInfo) (totalWidth : ℕ)
  | memory (depth : ℕ) (element : TypeRef)
  | unresolved
  deriving DecidableEq, Repr

namespace TypeObject

/-- The keys of the three caches. -/
def width? : TypeObject → Option ℕ
  | .bitVector width => some width
  | _ => none

def struct? : TypeObject → Option Ident
  | .struct name _ _ => some name
  | _ => none

def memory? : TypeObject → Option (ℕ × TypeRef)
  | .memory depth element => some (depth, element)
  | _ => none

theorem bitVector_width? (width : ℕ) : (bitVector width).width? = some width := rfl

theorem struct_struct? (name : Ident) (fields : List TypeSystem.FieldInfo) (totalWidth : ℕ) :
    (struct name fields totalWidth).struct? = some name := rfl

theorem memory_memory? (depth : ℕ) (element : TypeRef) :
    (memory depth element).memory? = some (depth, element) := rfl

end TypeObject

/-- `TypeSystem::Impl`: the objects in the order of their allocation,
from the two singletons on. -/
structure TypeSystem where
  objects : List TypeObject
  bvCache : List (ℕ × TypeRef)
  structCache : List (Ident × TypeRef)
  memCache : List ((ℕ × TypeRef) × TypeRef)
  deriving DecidableEq, Repr

namespace TypeSystem

/-- The constructor. -/
def fresh : TypeSystem := ⟨[.bit, .unresolved], [], [], []⟩

def bit (_ : TypeSystem) : TypeRef := 0

def unresolved (_ : TypeSystem) : TypeRef := 1

def bitVector (ts : TypeSystem) (width : ℕ) : TypeRef × TypeSystem :=
  let (r, cache, objects) := intern ts.bvCache ts.objects width (.bitVector width)
  (r, { ts with bvCache := cache, objects := objects })

def structType (ts : TypeSystem) (name : Ident) (fields : List FieldInfo) (totalWidth : ℕ) :
    TypeRef × TypeSystem :=
  let (r, cache, objects) := intern ts.structCache ts.objects name (.struct name fields totalWidth)
  (r, { ts with structCache := cache, objects := objects })

def memory (ts : TypeSystem) (depth : ℕ) (element : TypeRef) : TypeRef × TypeSystem :=
  let (r, cache, objects) :=
    intern ts.memCache ts.objects (depth, element) (.memory depth element)
  (r, { ts with memCache := cache, objects := objects })

/-! ## Requests -/

inductive Request where
  | bit
  | unresolved
  | bitVector (width : ℕ)
  | structType (name : Ident) (fields : List FieldInfo) (totalWidth : ℕ)
  | memory (depth : ℕ) (element : TypeRef)
  deriving DecidableEq, Repr

def serve (ts : TypeSystem) : Request → TypeRef × TypeSystem
  | .bit => (ts.bit, ts)
  | .unresolved => (ts.unresolved, ts)
  | .bitVector width => ts.bitVector width
  | .structType name fields totalWidth => ts.structType name fields totalWidth
  | .memory depth element => ts.memory depth element

/-- The element of a memory is a type of the same `TypeSystem`. -/
def Admits (ts : TypeSystem) : Request → Prop
  | .memory _ element => element < ts.objects.length
  | _ => True

/-- The requests served so far, with what each was answered. -/
inductive Run : List (Request × TypeRef) → TypeSystem → Prop where
  | fresh : Run [] TypeSystem.fresh
  | serve {log : List (Request × TypeRef)} {ts : TypeSystem} (q : Request) (h : Run log ts)
      (hq : ts.Admits q) : Run (log ++ [(q, (ts.serve q).1)]) (ts.serve q).2

/-! ## The types behind the pointers -/

inductive TypeTree where
  | bit
  | bitVector (width : ℕ)
  | struct (name : Ident) (fields : List FieldInfo) (totalWidth : ℕ)
  | memory (depth : ℕ) (element : TypeTree)
  | unresolved
  deriving DecidableEq, Repr

/-- The pointer leads to the type. -/
inductive Denotes (ts : TypeSystem) : TypeRef → TypeTree → Prop where
  | bit {r : TypeRef} (h : ts.objects[r]? = some .bit) : Denotes ts r .bit
  | unresolved {r : TypeRef} (h : ts.objects[r]? = some .unresolved) : Denotes ts r .unresolved
  | bitVector {r : TypeRef} {width : ℕ} (h : ts.objects[r]? = some (.bitVector width)) :
      Denotes ts r (.bitVector width)
  | struct {r : TypeRef} {name : Ident} {fields : List FieldInfo} {totalWidth : ℕ}
      (h : ts.objects[r]? = some (.struct name fields totalWidth)) :
      Denotes ts r (.struct name fields totalWidth)
  | memory {r : TypeRef} {depth : ℕ} {element : TypeRef} {t : TypeTree}
      (h : ts.objects[r]? = some (.memory depth element)) (ht : Denotes ts element t) :
      Denotes ts r (.memory depth t)

/-- What a request asks for. A struct is asked for by its name. -/
def Asks (ts : TypeSystem) : Request → TypeTree → Prop
  | .bit, t => t = .bit
  | .unresolved, t => t = .unresolved
  | .bitVector width, t => t = .bitVector width
  | .structType name _ _, t => ∃ fields totalWidth, t = .struct name fields totalWidth
  | .memory depth element, t => ∃ e, Denotes ts element e ∧ t = .memory depth e

/-! ## The invariant -/

structure WellFormed (ts : TypeSystem) : Prop where
  bits : Indexes TypeObject.width? ts.bvCache ts.objects
  structs : Indexes TypeObject.struct? ts.structCache ts.objects
  memories : Indexes TypeObject.memory? ts.memCache ts.objects
  bit : ∀ r : TypeRef, ts.objects[r]? = some .bit ↔ r = 0
  unresolved : ∀ r : TypeRef, ts.objects[r]? = some .unresolved ↔ r = 1
  descends : ∀ (r : TypeRef) depth element,
    ts.objects[r]? = some (.memory depth element) → element < r

theorem wellFormed_fresh : WellFormed fresh where
  bits k r := by rcases r with _ | _ | r <;> simp [fresh, TypeObject.width?]
  structs k r := by rcases r with _ | _ | r <;> simp [fresh, TypeObject.struct?]
  memories k r := by rcases r with _ | _ | r <;> simp [fresh, TypeObject.memory?]
  bit r := by rcases r with _ | _ | r <;> simp [fresh]
  unresolved r := by rcases r with _ | _ | r <;> simp [fresh]
  descends r depth element h := by rcases r with _ | _ | r <;> simp [fresh] at h

/-- A request leaves the objects or puts one behind them. -/
theorem serve_objects (ts : TypeSystem) (q : Request) :
    (ts.serve q).2.objects = ts.objects ∨
      ∃ n, (ts.serve q).2.objects = ts.objects ++ [n] ∧ (ts.serve q).1 = ts.objects.length := by
  cases q with
  | bit => exact .inl rfl
  | unresolved => exact .inl rfl
  | bitVector width =>
    exact (intern_objects ts.bvCache ts.objects width (.bitVector width)).imp id
      fun h => ⟨_, h.2, h.1⟩
  | structType name fields totalWidth =>
    exact (intern_objects ts.structCache ts.objects name (.struct name fields totalWidth)).imp id
      fun h => ⟨_, h.2, h.1⟩
  | memory depth element =>
    exact (intern_objects ts.memCache ts.objects (depth, element) (.memory depth element)).imp id
      fun h => ⟨_, h.2, h.1⟩

/-- Objects stay where they are. -/
theorem getElem?_serve {ts : TypeSystem} {q : Request} {r : TypeRef} {n : TypeObject}
    (h : ts.objects[r]? = some n) : (ts.serve q).2.objects[r]? = some n := by
  rcases serve_objects ts q with heq | ⟨n', heq, -⟩
  · rw [heq]
    exact h
  · rw [heq]
    exact getElem?_append_singleton.2 (.inl h)

/-- **What a pointer leads to stays.** -/
theorem Denotes.serve {ts : TypeSystem} {q : Request} {r : TypeRef} {t : TypeTree}
    (h : Denotes ts r t) : Denotes (ts.serve q).2 r t := by
  induction h with
  | bit h => exact .bit (getElem?_serve h)
  | unresolved h => exact .unresolved (getElem?_serve h)
  | bitVector h => exact .bitVector (getElem?_serve h)
  | struct h => exact .struct (getElem?_serve h)
  | memory h ht ih => exact .memory (getElem?_serve h) ih

theorem Asks.serve {ts : TypeSystem} {q q' : Request} {t : TypeTree} (h : Asks ts q t) :
    Asks (ts.serve q').2 q t := by
  cases q with
  | memory depth element =>
    obtain ⟨e, he, rfl⟩ := h
    exact ⟨e, he.serve, rfl⟩
  | _ => exact h

/-! ## Requests keep the invariant -/

/-- A new object is no singleton, and its element is older than it. -/
theorem WellFormed.grown {ts ts' : TypeSystem} (h : WellFormed ts)
    (hobjects : ts'.objects = ts.objects ∨ ∃ n, ts'.objects = ts.objects ++ [n] ∧
      n ≠ .bit ∧ n ≠ .unresolved ∧ ∀ depth element, n = .memory depth element →
        element < ts.objects.length) :
    (∀ r : TypeRef, ts'.objects[r]? = some .bit ↔ r = 0) ∧
      (∀ r : TypeRef, ts'.objects[r]? = some .unresolved ↔ r = 1) ∧
      ∀ (r : TypeRef) depth element,
        ts'.objects[r]? = some (.memory depth element) → element < r := by
  rcases hobjects with heq | ⟨n, heq, hbit, hunresolved, helement⟩
  · rw [heq]
    exact ⟨h.bit, h.unresolved, h.descends⟩
  · rw [heq]
    refine ⟨fun r => ?_, fun r => ?_, fun r depth element hr => ?_⟩
    · rw [getElem?_append_singleton, h.bit r]
      exact or_iff_left fun hn => hbit hn.2
    · rw [getElem?_append_singleton, h.unresolved r]
      exact or_iff_left fun hn => hunresolved hn.2
    · rcases getElem?_append_singleton.1 hr with hr | ⟨rfl, hn⟩
      · exact h.descends r depth element hr
      · exact helement depth element hn

theorem indexes_intern_other {κ κ' : Type} [DecidableEq κ] [DecidableEq κ']
    {keyOf : TypeObject → Option κ} {cache : List (κ × ℕ)} {cache' : List (κ' × ℕ)}
    {objects : List TypeObject} {k : κ'} {n : TypeObject} (h : Indexes keyOf cache objects)
    (hn : keyOf n = none) : Indexes keyOf cache (intern cache' objects k n).2.2 := by
  rcases intern_objects cache' objects k n with heq | ⟨-, heq⟩
  · rw [heq]
    exact h
  · rw [heq]
    exact h.push_other hn

theorem intern_grown {κ : Type} [DecidableEq κ] (cache : List (κ × ℕ))
    (objects : List TypeObject) (k : κ) (n : TypeObject) (hbit : n ≠ .bit)
    (hunresolved : n ≠ .unresolved)
    (helement : ∀ depth element, n = .memory depth element → element < objects.length) :
    (intern cache objects k n).2.2 = objects ∨
      ∃ n', (intern cache objects k n).2.2 = objects ++ [n'] ∧ n' ≠ .bit ∧ n' ≠ .unresolved ∧
        ∀ depth element, n' = .memory depth element → element < objects.length :=
  (intern_objects cache objects k n).imp id fun h => ⟨n, h.2, hbit, hunresolved, helement⟩

theorem WellFormed.serve {ts : TypeSystem} (h : WellFormed ts) {q : Request}
    (hq : ts.Admits q) : WellFormed (ts.serve q).2 := by
  cases q with
  | bit => exact h
  | unresolved => exact h
  | bitVector width =>
    obtain ⟨hbit, hunresolved, hdescends⟩ := @WellFormed.grown ts (ts.bitVector width).2 h
      (intern_grown ts.bvCache ts.objects width _ (by simp) (by simp) (by simp))
    exact ⟨indexes_intern h.bits rfl, indexes_intern_other h.structs rfl,
      indexes_intern_other h.memories rfl, hbit, hunresolved, hdescends⟩
  | structType name fields totalWidth =>
    obtain ⟨hbit, hunresolved, hdescends⟩ := @WellFormed.grown ts
      (ts.structType name fields totalWidth).2 h
      (intern_grown ts.structCache ts.objects name _ (by simp) (by simp) (by simp))
    exact ⟨indexes_intern_other h.bits rfl, indexes_intern h.structs rfl,
      indexes_intern_other h.memories rfl, hbit, hunresolved, hdescends⟩
  | memory depth element =>
    have helement : ∀ depth' element', TypeObject.memory depth element = .memory depth' element' →
        element' < ts.objects.length := by
      intro depth' element' heq
      cases heq
      exact hq
    obtain ⟨hbit, hunresolved, hdescends⟩ := @WellFormed.grown ts (ts.memory depth element).2 h
      (intern_grown ts.memCache ts.objects (depth, element) _ (by simp) (by simp) helement)
    exact ⟨indexes_intern_other h.bits rfl, indexes_intern_other h.structs rfl,
      indexes_intern h.memories rfl, hbit, hunresolved, hdescends⟩

theorem Run.wellFormed {log : List (Request × TypeRef)} {ts : TypeSystem} (h : Run log ts) :
    WellFormed ts := by
  induction h with
  | fresh => exact wellFormed_fresh
  | serve q _ hq ih => exact ih.serve hq

/-! ## Pointers and types -/

/-- A pointer leads to one type. -/
theorem Denotes.unique {ts : TypeSystem} {r : TypeRef} {t t' : TypeTree} (h : Denotes ts r t)
    (h' : Denotes ts r t') : t = t' := by
  induction h generalizing t' with
  | bit h => cases h' <;> simp_all
  | unresolved h => cases h' <;> simp_all
  | bitVector h => cases h' <;> simp_all
  | struct h => cases h' <;> simp_all
  | memory h ht ih =>
    cases h' with
    | memory h₁ ht₁ =>
      rw [h] at h₁
      cases h₁
      rw [ih ht₁]
    | bit h₁ | unresolved h₁ | bitVector h₁ | struct h₁ =>
      rw [h] at h₁
      cases h₁

/-- **A type has one pointer.** The element of a memory has one by
induction, so the memory is looked up under one key. -/
theorem Denotes.injective {ts : TypeSystem} (hts : WellFormed ts) {r r' : TypeRef}
    {t : TypeTree} (h : Denotes ts r t) (h' : Denotes ts r' t) : r = r' := by
  induction h generalizing r' with
  | bit h =>
    cases h' with
    | bit h₁ => exact ((hts.bit _).1 h).trans ((hts.bit _).1 h₁).symm
  | unresolved h =>
    cases h' with
    | unresolved h₁ => exact ((hts.unresolved _).1 h).trans ((hts.unresolved _).1 h₁).symm
  | bitVector h =>
    cases h' with
    | bitVector h₁ => exact hts.bits.eq_of_keyOf_eq h h₁ rfl rfl
  | struct h =>
    cases h' with
    | struct h₁ => exact hts.structs.eq_of_keyOf_eq h h₁ rfl rfl
  | memory h ht ih =>
    cases h' with
    | memory h₁ ht₁ =>
      rw [← ih ht₁] at h₁
      exact hts.memories.eq_of_keyOf_eq h h₁ rfl rfl

/-- Every object has a type behind it. -/
theorem exists_denotes {ts : TypeSystem} (hts : WellFormed ts) {r : TypeRef}
    (hr : r < ts.objects.length) : ∃ t, Denotes ts r t := by
  induction r using Nat.strong_induction_on with
  | _ r ih =>
    obtain ⟨n, hn⟩ : ∃ n, ts.objects[r]? = some n := ⟨_, List.getElem?_eq_getElem hr⟩
    cases n with
    | bit => exact ⟨_, .bit hn⟩
    | unresolved => exact ⟨_, .unresolved hn⟩
    | bitVector width => exact ⟨_, .bitVector hn⟩
    | struct name fields totalWidth => exact ⟨_, .struct hn⟩
    | memory depth element =>
      have hlt := hts.descends r depth element hn
      obtain ⟨t, ht⟩ := ih element hlt (hlt.trans hr)
      exact ⟨_, .memory hn ht⟩

/-- **A request is answered with a pointer to what it asks for.** -/
theorem asks_serve {ts : TypeSystem} (hts : WellFormed ts) {q : Request} (hq : ts.Admits q) :
    ∃ t, Denotes (ts.serve q).2 (ts.serve q).1 t ∧ Asks (ts.serve q).2 q t := by
  cases q with
  | bit => exact ⟨_, .bit ((hts.bit 0).2 rfl), rfl⟩
  | unresolved => exact ⟨_, .unresolved ((hts.unresolved 1).2 rfl), rfl⟩
  | bitVector width =>
    obtain ⟨n, hn, hkey⟩ := intern_spec hts.bits (TypeObject.bitVector_width? width)
    obtain ⟨rfl⟩ : n = .bitVector width := by cases n <;> simp_all [TypeObject.width?]
    exact ⟨_, .bitVector hn, rfl⟩
  | structType name fields totalWidth =>
    obtain ⟨n, hn, hkey⟩ := intern_spec hts.structs (TypeObject.struct_struct? name fields totalWidth)
    cases n with
    | struct name' fields' totalWidth' =>
      obtain rfl : name' = name := Option.some.inj hkey
      exact ⟨_, .struct hn, fields', totalWidth', rfl⟩
    | _ => cases hkey
  | memory depth element =>
    obtain ⟨n, hn, hkey⟩ := intern_spec hts.memories (TypeObject.memory_memory? depth element)
    obtain ⟨rfl⟩ : n = .memory depth element := by cases n <;> simp_all [TypeObject.memory?]
    obtain ⟨e, he⟩ := exists_denotes hts hq
    have hstays : Denotes (ts.serve (.memory depth element)).2 element e := he.serve
    exact ⟨_, .memory hn hstays, e, hstays, rfl⟩

/-- Every answer of a run still leads to what was asked for. -/
theorem Run.answers {log : List (Request × TypeRef)} {ts : TypeSystem} (h : Run log ts)
    {q : Request} {r : TypeRef} (hq : (q, r) ∈ log) : ∃ t, Denotes ts r t ∧ Asks ts q t := by
  induction h with
  | fresh => cases hq
  | serve q' h' hadmits ih =>
    rcases List.mem_append.1 hq with hold | hnew
    · obtain ⟨t, ht, hasks⟩ := ih hold
      exact ⟨t, ht.serve, hasks.serve⟩
    · obtain ⟨rfl, rfl⟩ := Prod.mk.inj (List.mem_singleton.1 hnew)
      exact asks_serve h'.wellFormed hadmits

/-- The same type, or structs of one name. -/
def Alike (t u : TypeTree) : Prop :=
  t = u ∨ ∃ name fields totalWidth fields' totalWidth',
    t = .struct name fields totalWidth ∧ u = .struct name fields' totalWidth'

theorem alike_of_asks {ts : TypeSystem} {q : Request} {t u : TypeTree} (ht : Asks ts q t)
    (hu : Asks ts q u) : Alike t u := by
  cases q with
  | structType name _ _ =>
    obtain ⟨fields, totalWidth, rfl⟩ := ht
    obtain ⟨fields', totalWidth', rfl⟩ := hu
    exact .inr ⟨name, fields, totalWidth, fields', totalWidth', rfl, rfl⟩
  | memory depth element =>
    obtain ⟨e, he, rfl⟩ := ht
    obtain ⟨e', he', rfl⟩ := hu
    exact .inl (by rw [he.unique he'])
  | _ => exact .inl (Eq.trans ht (Eq.symm hu))

theorem Denotes.struct_inv {ts : TypeSystem} {r : TypeRef} {name : Ident}
    {fields : List FieldInfo} {totalWidth : ℕ} (h : Denotes ts r (.struct name fields totalWidth)) :
    ts.objects[r]? = some (.struct name fields totalWidth) := by
  cases h with
  | struct h => exact h

/-- A struct's name is enough to find it. -/
theorem eq_of_alike {ts : TypeSystem} (hts : WellFormed ts) {r r' : TypeRef} {t t' : TypeTree}
    (ht : Denotes ts r t) (ht' : Denotes ts r' t') (h : Alike t t') : r = r' := by
  rcases h with rfl | ⟨name, fields, totalWidth, fields', totalWidth', rfl, rfl⟩
  · exact ht.injective hts ht'
  · exact hts.structs.eq_of_keyOf_eq ht.struct_inv ht'.struct_inv rfl rfl

theorem Alike.join {t t' u : TypeTree} (h : Alike t u) (h' : Alike t' u) : Alike t t' := by
  rcases h with rfl | ⟨name, fields, totalWidth, fields', totalWidth', rfl, rfl⟩
  · rcases h' with rfl | ⟨name, fields, totalWidth, fields', totalWidth', rfl, rfl⟩
    · exact .inl rfl
    · exact .inr ⟨name, fields', totalWidth', fields, totalWidth, rfl, rfl⟩
  · rcases h' with rfl | ⟨name', fields₁, totalWidth₁, fields₂, totalWidth₂, rfl, heq⟩
    · exact .inr ⟨name, fields, totalWidth, fields', totalWidth', rfl, rfl⟩
    · obtain ⟨rfl, -, -⟩ := TypeTree.struct.inj heq
      exact .inr ⟨name, fields, totalWidth, fields₁, totalWidth₁, rfl, rfl⟩

end TypeSystem

end Sema

end Nslc
