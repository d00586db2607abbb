import Mathlib.Data.Set.Insert
import Mathlib.Logic.Function.Basic

/-!
# Records that represent a set of objects

A store keeps one record per key.  It represents a set of objects when its records
are exactly the encodings of the objects, each under the key of its object.
-/

namespace Catalog

universe u v w

variable {O : Type u} {K : Type v} {R : Type w} {key : O → K} {encode : O → R}

/-- The records are the encodings of the objects. -/
def Represents (key : O → K) (encode : O → R) (objects : Set O) (records : K → Option R) : Prop :=
  ∀ k r, records k = some r ↔ ∃ t ∈ objects, key t = k ∧ encode t = r

variable {objects : Set O} {records : K → Option R}

theorem Represents.record (h : Represents key encode objects records) {t : O} (ht : t ∈ objects) :
    records (key t) = some (encode t) :=
  (h _ _).mpr ⟨t, ht, rfl, rfl⟩

variable [DecidableEq K]

/-- Putting a record replaces the objects of its key. -/
theorem Represents.put (h : Represents key encode objects records) (t : O) :
    Represents key encode (insert t {t' ∈ objects | key t' ≠ key t})
      (Function.update records (key t) (some (encode t))) := by
  intro k r
  by_cases hk : k = key t
  · subst hk
    rw [Function.update_self]
    constructor
    · rintro ⟨⟩
      exact ⟨t, Set.mem_insert _ _, rfl, rfl⟩
    rintro ⟨t', ht', hkey, rfl⟩
    rcases ht' with rfl | ⟨_, hne⟩
    · rfl
    · exact absurd hkey hne
  · rw [Function.update_of_ne hk, h]
    constructor
    · rintro ⟨t', ht', rfl, rfl⟩
      exact ⟨t', Set.mem_insert_of_mem _ ⟨ht', hk⟩, rfl, rfl⟩
    rintro ⟨t', ht', rfl, rfl⟩
    rcases ht' with rfl | ⟨ht', _⟩
    · exact absurd rfl hk
    · exact ⟨t', ht', rfl, rfl⟩

/-- Deleting a record removes the objects of its key. -/
theorem Represents.remove (h : Represents key encode objects records) (k : K) :
    Represents key encode {t ∈ objects | key t ≠ k} (Function.update records k none) := by
  intro k' r
  by_cases hk : k' = k
  · subst hk
    rw [Function.update_self]
    constructor
    · rintro ⟨⟩
    · rintro ⟨t, ⟨_, hne⟩, hkey, _⟩
      exact absurd hkey hne
  · rw [Function.update_of_ne hk, h]
    constructor
    · rintro ⟨t, ht, rfl, rfl⟩
      exact ⟨t, ⟨ht, hk⟩, rfl, rfl⟩
    · rintro ⟨t, ⟨ht, _⟩, rfl, rfl⟩
      exact ⟨t, ht, rfl, rfl⟩

end Catalog
