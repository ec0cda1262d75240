import Mathlib.Data.Finmap
import Prac.Lib.Simulation

/-!
# Dictionaries

* `Dictionary` — finitely many keys, each with a value; `Dictionary.pairs` lists them without an order, as a
  store holds them (`pairs_insert`, `pairs_erase`).
* `Dictionary.Op`, `Dictionary.step` — insertions, lookups and deletions, and what they reply.
-/

/-- Finitely many keys, each with a value. -/
abbrev Dictionary (κ ν : Type*) := Finmap fun _ : κ => ν

namespace Dictionary

variable {κ ν : Type*}

/-- The keys with their values. -/
def pairs (d : Dictionary κ ν) : Multiset (κ × ν) := d.entries.map fun entry => (entry.1, entry.2)

/-- No key has two values. -/
theorem nodup_pairs (d : Dictionary κ ν) : (d.pairs.map Prod.fst).Nodup := by
  have hkeys : d.pairs.map Prod.fst = d.entries.keys := by
    rw [pairs, Multiset.map_map]
    rfl
  rw [hkeys]
  exact Multiset.nodup_keys.mpr d.nodupKeys

theorem card_pairs (d : Dictionary κ ν) : Multiset.card d.pairs = d.keys.card := by
  rw [pairs, Multiset.card_map]
  exact (Multiset.card_map _ _).symm

variable [DecidableEq κ]

theorem mem_pairs {d : Dictionary κ ν} {key : κ} {value : ν} :
    (key, value) ∈ d.pairs ↔ d.lookup key = some value := by
  rw [Finmap.lookup_eq_some_iff, pairs, Multiset.mem_map]
  constructor
  · rintro ⟨⟨k, v⟩, hmem, heq⟩
    cases heq
    exact hmem
  · exact fun hmem => ⟨_, hmem, rfl⟩

theorem mem_iff_pairs {d : Dictionary κ ν} {key : κ} : key ∈ d ↔ ∃ pair ∈ d.pairs, pair.1 = key := by
  rw [Finmap.mem_iff]
  constructor
  · exact fun ⟨value, hvalue⟩ => ⟨(key, value), mem_pairs.mpr hvalue, rfl⟩
  · rintro ⟨⟨k, value⟩, hmem, rfl⟩
    exact ⟨value, mem_pairs.mp hmem⟩

/-- A new key adds a pair. -/
theorem pairs_insert {d : Dictionary κ ν} {key : κ} (h : key ∉ d) (value : ν) :
    pairs (d.insert key value) = (key, value) ::ₘ d.pairs := by
  rw [pairs, Finmap.entries_insert_of_notMem h, Multiset.map_cons]
  rfl

theorem insert_erase {d : Dictionary κ ν} {key : κ} {value : ν} (h : d.lookup key = some value) :
    (d.erase key).insert key value = d := by
  refine Finmap.ext_lookup fun k => ?_
  by_cases hk : k = key
  · rw [hk, Finmap.lookup_insert, h]
  · rw [Finmap.lookup_insert_of_ne _ hk, Finmap.lookup_erase_ne hk]

/-- Erasing a key takes its pair away. -/
theorem pairs_erase {d : Dictionary κ ν} {key : κ} {value : ν} (h : d.lookup key = some value) :
    d.pairs = (key, value) ::ₘ pairs (d.erase key) := by
  conv_lhs => rw [← insert_erase h]
  exact pairs_insert Finmap.notMem_erase_self value

theorem erase_of_notMem {d : Dictionary κ ν} {key : κ} (h : key ∉ d) : d.erase key = d := by
  refine Finmap.ext_lookup fun k => ?_
  by_cases hk : k = key
  · rw [hk, Finmap.lookup_erase, Finmap.lookup_eq_none.mpr h]
  · exact Finmap.lookup_erase_ne hk

/-- A dictionary without pairs is empty. -/
theorem eq_empty_iff {d : Dictionary κ ν} : d = ∅ ↔ d.keys.card = 0 := by
  constructor
  · rintro rfl
    rfl
  · intro h
    rw [← card_pairs, Multiset.card_eq_zero] at h
    refine Finmap.ext_lookup fun k => ?_
    rw [Finmap.lookup_empty, Finmap.lookup_eq_none, mem_iff_pairs, h]
    rintro ⟨pair, hpair, -⟩
    exact Multiset.notMem_zero pair hpair

/-! ## Operations -/

/-- An operation; a lookup is given what to return of a key that there is not. -/
inductive Op (κ ν : Type*) where
  | insert (key : κ) (value : ν)
  | lookup (key : κ) (otherwise : κ × ν)
  | delete (key : κ)

/-- What an operation replies. -/
inductive Reply (κ ν : Type*) where
  | inserted
  | lookedUp (found : Bool) (pair : κ × ν)
  | deleted (found : Bool)
  deriving DecidableEq

/-- What a reply says without the value: whether the key is there. -/
def Reply.flag : Reply κ ν → Bool
  | .inserted => true
  | .lookedUp found _ => found
  | .deleted found => found

/-- One operation, and its reply. -/
def step (d : Dictionary κ ν) : Op κ ν → Dictionary κ ν × Reply κ ν
  | .insert key value => (d.insert key value, .inserted)
  | .lookup key otherwise =>
    (d, .lookedUp (d.lookup key).isSome ((d.lookup key).elim otherwise fun value => (key, value)))
  | .delete key => (d.erase key, .deleted (key ∈ d))

end Dictionary
