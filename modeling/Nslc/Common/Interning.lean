import Mathlib
/-!
# Interning

Objects are allocated one behind the other and named by their positions.
A cache gives for a key the object that was made for it. `Indexes` is its
invariant: it knows exactly the objects that have a key, so there is one
object for a key.
-/

namespace Nslc

namespace Interning

variable {κ ν : Type} [DecidableEq κ]

/-- The position of the object for the key, and the objects and the cache
behind the request. -/
def intern (cache : List (κ × ℕ)) (objects : List ν) (k : κ) (fresh : ν) :
    ℕ × List (κ × ℕ) × List ν :=
  match cache.lookup k with
  | some r => (r, cache, objects)
  | none => (objects.length, (k, objects.length) :: cache, objects ++ [fresh])

/-- The cache has an object for a key where there is one with that key,
and finds that one. -/
def Indexes (keyOf : ν → Option κ) (cache : List (κ × ℕ)) (objects : List ν) : Prop :=
  ∀ k r, cache.lookup k = some r ↔ ∃ n, objects[r]? = some n ∧ keyOf n = some k

variable {keyOf : ν → Option κ} {cache : List (κ × ℕ)} {objects : List ν} {fresh : ν}

/-- There is one object for a key. -/
theorem Indexes.eq_of_keyOf_eq (h : Indexes keyOf cache objects) {r r' : ℕ} {n n' : ν} {k : κ}
    (hr : objects[r]? = some n) (hr' : objects[r']? = some n') (hn : keyOf n = some k)
    (hn' : keyOf n' = some k) : r = r' := by
  have hfirst := (h k r).2 ⟨n, hr, hn⟩
  have hsecond := (h k r').2 ⟨n', hr', hn'⟩
  exact Option.some.inj (hfirst.symm.trans hsecond)

theorem getElem?_append_singleton {r : ℕ} {n : ν} :
    (objects ++ [fresh])[r]? = some n ↔
      objects[r]? = some n ∨ (r = objects.length ∧ fresh = n) := by
  rcases Nat.lt_trichotomy r objects.length with h | h | h
  · rw [List.getElem?_append_left h]
    simp [h.ne]
  · subst h
    simp
  · rw [List.getElem?_append_right h.le, List.getElem?_eq_none h.le,
      List.getElem?_eq_none (by simp; omega)]
    simp [h.ne']

/-- An object of another kind is none of this cache's business. -/
theorem Indexes.push_other (h : Indexes keyOf cache objects) (hfresh : keyOf fresh = none) :
    Indexes keyOf cache (objects ++ [fresh]) := by
  intro k r
  rw [h k r]
  constructor
  · rintro ⟨n, hr, hn⟩
    exact ⟨n, getElem?_append_singleton.2 (.inl hr), hn⟩
  · rintro ⟨n, hr, hn⟩
    rcases getElem?_append_singleton.1 hr with hr | ⟨-, rfl⟩
    · exact ⟨n, hr, hn⟩
    · rw [hfresh] at hn
      cases hn

theorem Indexes.push (h : Indexes keyOf cache objects) {k : κ} (hmiss : cache.lookup k = none)
    (hfresh : keyOf fresh = some k) :
    Indexes keyOf ((k, objects.length) :: cache) (objects ++ [fresh]) := by
  intro k' r
  rw [List.lookup_cons]
  by_cases hk : k' = k
  · subst hk
    simp only [beq_self_eq_true, Option.some.injEq]
    constructor
    · rintro rfl
      exact ⟨fresh, getElem?_append_singleton.2 (.inr ⟨rfl, rfl⟩), hfresh⟩
    · rintro ⟨n, hr, hn⟩
      rcases getElem?_append_singleton.1 hr with hr | ⟨rfl, -⟩
      · have hhit := (h k' r).2 ⟨n, hr, hn⟩
        rw [hmiss] at hhit
        cases hhit
      · rfl
  · have hbeq : (k' == k) = false := by simpa using hk
    simp only [hbeq]
    rw [h k' r]
    constructor
    · rintro ⟨n, hr, hn⟩
      exact ⟨n, getElem?_append_singleton.2 (.inl hr), hn⟩
    · rintro ⟨n, hr, hn⟩
      rcases getElem?_append_singleton.1 hr with hr | ⟨-, rfl⟩
      · exact ⟨n, hr, hn⟩
      · rw [hfresh] at hn
        exact absurd (Option.some.inj hn).symm hk

/-- **Interning keeps the cache an index.** -/
theorem indexes_intern (h : Indexes keyOf cache objects) {k : κ} (hfresh : keyOf fresh = some k) :
    Indexes keyOf (intern cache objects k fresh).2.1 (intern cache objects k fresh).2.2 := by
  unfold intern
  cases hlookup : cache.lookup k with
  | some r => exact h
  | none => exact h.push hlookup hfresh

/-- What is found has the key that was asked for. -/
theorem intern_spec (h : Indexes keyOf cache objects) {k : κ}
    (hfresh : keyOf fresh = some k) :
    ∃ n, (intern cache objects k fresh).2.2[(intern cache objects k fresh).1]? = some n ∧
      keyOf n = some k := by
  unfold intern
  cases hlookup : cache.lookup k with
  | some r => exact (h k r).1 hlookup
  | none => exact ⟨fresh, getElem?_append_singleton.2 (.inr ⟨rfl, rfl⟩), hfresh⟩

/-- Objects stay where they are, and a new one is the one that was
offered. -/
theorem intern_objects (cache : List (κ × ℕ)) (objects : List ν) (k : κ) (fresh : ν) :
    (intern cache objects k fresh).2.2 = objects ∨
      ((intern cache objects k fresh).1 = objects.length ∧
        (intern cache objects k fresh).2.2 = objects ++ [fresh]) := by
  unfold intern
  cases cache.lookup k with
  | some r => exact .inl rfl
  | none => exact .inr ⟨rfl, rfl⟩

end Interning

end Nslc
