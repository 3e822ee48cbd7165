/-
Minimmit.Library.NestedMap — maps of ordered maps.

The model of a Rust `HashMap<K, BTreeMap<u64, T>>`. Such a map is read through
`entry`, the value under a key and a number, and `first`, the entry with the
lowest number of a key; the lemmas say what the two return after the usual
updates: an entry put under a key, and an inner map put back that is dropped
when nothing is left in it. A map is tidy if none of its inner maps is empty.
-/
import Mathlib.Data.List.AList
import Minimmit.Library.SortedMap

namespace Minimmit.Library

open Option

variable {κ α : Type}

namespace SortedMap

variable {m : SortedMap α} {k : Nat} {a : α}

/-- The first entry is the one with the lowest key. -/
theorem head?_entries_eq_some_iff :
    m.entries.head? = some (k, a) ↔ m.get k = some a ∧ ∀ j b, m.get j = some b → k ≤ j := by
  obtain ⟨entries, sorted⟩ := m
  simp only [get_eq_some_iff]
  cases entries with
  | nil => simp
  | cons e es =>
    obtain ⟨hlt, -⟩ := List.pairwise_cons.mp sorted
    simp only [List.head?_cons, some.injEq]
    constructor
    · rintro rfl
      refine ⟨List.mem_cons_self, fun j b hb => ?_⟩
      rcases List.mem_cons.mp hb with hb | hb
      · exact Nat.le_of_eq (congrArg Prod.fst hb).symm
      · exact Nat.le_of_lt (hlt _ hb)
    · rintro ⟨hk, hmin⟩
      rcases List.mem_cons.mp hk with hk | hk
      · exact hk.symm
      · have hle := hmin e.1 e.2 List.mem_cons_self
        have := hlt _ hk
        simp only at this
        omega

theorem entries_eq_nil_iff : m.entries = [] ↔ ∀ j, m.get j = none := by
  constructor
  · intro h j
    simp [get, h]
  · intro h
    refine List.eq_nil_iff_forall_not_mem.mpr fun e he => ?_
    have := get_eq_some_iff.mpr he
    rw [h e.1] at this
    cases this

theorem isEmpty_entries_iff : m.entries.isEmpty = true ↔ ∀ j, m.get j = none := by
  rw [List.isEmpty_iff, entries_eq_nil_iff]

theorem get_remove_eq (m : SortedMap α) (j k : Nat) :
    (m.remove j).get k = if k = j then none else m.get k := by
  apply ext
  intro b
  rw [get_remove]
  split <;> simp_all

theorem get_insert_eq (m : SortedMap α) (j k : Nat) (a : α) :
    (m.insert j a).get k = if k = j then some a else m.get k := by
  split
  next h => rw [h, get_insert_self]
  next h => exact get_insert_ne m a h

/-- Removing the key of an entry takes exactly this entry away. -/
theorem length_remove (h : m.get k = some a) :
    (m.remove k).entries.length + 1 = m.entries.length := by
  have hmem := get_eq_some_iff.mp h
  have hone := filter_eq_singleton m.sorted hmem
  have hsum := m.entries.length_eq_length_filter_add fun e => decide (e.1 = k)
  have hrest : (m.remove k).entries = m.entries.filter fun e => !decide (e.1 = k) :=
    List.filter_congr fun e _ => by simp [bne, beq_eq_decide]
  rw [hrest, hsum, hone]
  simp [Nat.add_comm]

theorem length_insertEntry {es : List (Nat × α)} (h : ∀ e ∈ es, e.1 ≠ k) :
    (insertEntry k a es).length = es.length + 1 := by
  induction es with
  | nil => rfl
  | cons e es ih =>
    have hne := Ne.symm (h e List.mem_cons_self)
    have hrest := ih fun e' he' => h e' (List.mem_cons_of_mem e he')
    by_cases hlt : k < e.1 <;> simp [insertEntry, hlt, hne, hrest]

/-- A new key makes the map one entry longer. -/
theorem length_insert (h : m.get k = none) (a : α) :
    (m.insert k a).entries.length = m.entries.length + 1 := by
  refine length_insertEntry fun e he heq => ?_
  have := get_eq_some_iff.mpr he
  rw [heq, h] at this
  cases this

end SortedMap

/-- Ordered maps under keys. -/
abbrev NestedMap (κ α : Type) : Type := AList fun _ : κ => SortedMap α

namespace NestedMap

variable [DecidableEq κ] {m : NestedMap κ α} {k k' : κ} {n n' : Nat} {a b : α}

/-- The value under a key and a number. -/
def entry (m : NestedMap κ α) (k : κ) (n : Nat) : Option α := (m.lookup k).bind (·.get n)

/-- The entry of a key with the lowest number. -/
def first (m : NestedMap κ α) (k : κ) : Option (Nat × α) := (m.lookup k).bind (·.entries.head?)

/-- How many entries a key has. -/
def count (m : NestedMap κ α) (k : κ) : Nat := ((m.lookup k).getD ∅).entries.length

/-- The map with one more entry. -/
def put (m : NestedMap κ α) (k : κ) (n : Nat) (a : α) : NestedMap κ α :=
  m.insert k (((m.lookup k).getD ∅).insert n a)

/-- An inner map put back, dropped if it is empty. -/
def restore (m : NestedMap κ α) (k : κ) (inner : SortedMap α) : NestedMap κ α :=
  if inner.entries.isEmpty then m.erase k else m.insert k inner

/-- No inner map is empty. -/
def Tidy (m : NestedMap κ α) : Prop := ∀ k inner, m.lookup k = some inner → inner.entries ≠ []

@[simp] theorem entry_empty (k : κ) (n : Nat) : entry (∅ : NestedMap κ α) k n = none := rfl

@[simp] theorem first_empty (k : κ) : first (∅ : NestedMap κ α) k = none := rfl

theorem tidy_empty : Tidy (∅ : NestedMap κ α) := by
  intro k inner h
  cases h

variable {inner : SortedMap α}

theorem entry_of_lookup (h : m.lookup k = some inner) : entry m k n = inner.get n := by
  simp [entry, h]

theorem entry_eq_get (m : NestedMap κ α) (k : κ) (n : Nat) :
    entry m k n = ((m.lookup k).getD ∅).get n := by
  unfold entry
  cases m.lookup k <;> rfl

theorem entry_insert (m : NestedMap κ α) (k : κ) (inner : SortedMap α) (k' : κ) (n : Nat) :
    entry (AList.insert k inner m) k' n = if k' = k then inner.get n else entry m k' n := by
  split
  next h =>
    subst h
    simp [entry]
  next h => simp [entry, AList.lookup_insert_ne h]

theorem entry_erase (m : NestedMap κ α) (k k' : κ) (n : Nat) :
    entry (AList.erase k m) k' n = if k' = k then none else entry m k' n := by
  split
  next h =>
    subst h
    simp [entry]
  next h => simp [entry, AList.lookup_erase_ne h]

theorem entry_put (m : NestedMap κ α) (k : κ) (n : Nat) (a : α) (k' : κ) (n' : Nat) :
    entry (m.put k n a) k' n' = if k' = k ∧ n' = n then some a else entry m k' n' := by
  rw [put, entry_insert]
  by_cases hk : k' = k
  · subst hk
    rw [if_pos rfl, SortedMap.get_insert_eq, ← entry_eq_get]
    simp
  · simp [hk]

theorem entry_restore (m : NestedMap κ α) (k : κ) (inner : SortedMap α) (k' : κ) (n : Nat) :
    entry (m.restore k inner) k' n = if k' = k then inner.get n else entry m k' n := by
  unfold restore
  split
  next h => rw [entry_erase, SortedMap.isEmpty_entries_iff.mp h n]
  next h => exact entry_insert m k inner k' n

theorem count_restore (m : NestedMap κ α) (k : κ) (inner : SortedMap α) :
    (m.restore k inner).count k = inner.entries.length := by
  unfold restore count
  split
  next h => rw [AList.lookup_erase, List.isEmpty_iff.mp h]; rfl
  next h => rw [AList.lookup_insert, getD_some]

/-- Taking one entry out. -/
theorem entry_restore_remove (h : m.lookup k = some inner) :
    entry (m.restore k (inner.remove n)) k' n' =
      if k' = k ∧ n' = n then none else entry m k' n' := by
  rw [entry_restore]
  by_cases hk : k' = k
  · subst hk
    rw [if_pos rfl, SortedMap.get_remove_eq, entry_of_lookup h]
    simp
  · simp [hk]

theorem Tidy.insert (h : m.Tidy) (hinner : inner.entries ≠ []) : Tidy (AList.insert k inner m) := by
  intro k' inner' hlookup
  by_cases hk : k' = k
  · subst hk
    rw [AList.lookup_insert] at hlookup
    exact some.inj hlookup ▸ hinner
  · rw [AList.lookup_insert_ne hk] at hlookup
    exact h k' inner' hlookup

theorem Tidy.erase (h : m.Tidy) : Tidy (AList.erase k m) := by
  intro k' inner' hlookup
  by_cases hk : k' = k
  · subst hk
    rw [AList.lookup_erase] at hlookup
    cases hlookup
  · rw [AList.lookup_erase_ne hk] at hlookup
    exact h k' inner' hlookup

theorem Tidy.put (h : m.Tidy) : (m.put k n a).Tidy := by
  refine h.insert fun hnil => ?_
  have := SortedMap.entries_eq_nil_iff.mp hnil n
  rw [SortedMap.get_insert_self] at this
  cases this

theorem Tidy.restore (h : m.Tidy) : (m.restore k inner).Tidy := by
  unfold NestedMap.restore
  split
  next => exact h.erase
  next hne => exact h.insert fun hnil => hne (List.isEmpty_iff.mpr hnil)

theorem first_eq_some_iff :
    m.first k = some (n, a) ↔ m.entry k n = some a ∧ ∀ j b, m.entry k j = some b → n ≤ j := by
  unfold first entry
  cases m.lookup k with
  | none => simp
  | some inner => simpa using SortedMap.head?_entries_eq_some_iff

theorem first_eq_none_iff : m.first k = none ↔ ∀ j, m.entry k j = none := by
  unfold first entry
  cases m.lookup k with
  | none => simp
  | some inner => simpa using SortedMap.entries_eq_nil_iff

/-- A key with an entry has a first one. -/
theorem exists_first (h : m.entry k n = some a) : ∃ e, m.first k = some e := by
  refine ne_none_iff_exists'.mp fun hnone => ?_
  rw [first_eq_none_iff.mp hnone n] at h
  cases h

/-- In a tidy map a key is known only with an entry. -/
theorem Tidy.lookup_eq_none_iff (h : m.Tidy) : m.lookup k = none ↔ ∀ j, m.entry k j = none := by
  constructor
  · intro hnone j
    simp [entry, hnone]
  intro hnone
  cases hlookup : m.lookup k with
  | none => rfl
  | some inner =>
    refine absurd ?_ (h k inner hlookup)
    exact SortedMap.entries_eq_nil_iff.mpr fun j => entry_of_lookup hlookup ▸ hnone j

/-- The first entry of a key depends only on its entries. -/
theorem first_congr {m' : NestedMap κ α} (h : ∀ j, m'.entry k j = m.entry k j) :
    m'.first k = m.first k := by
  apply ext
  rintro ⟨n, a⟩
  rw [first_eq_some_iff, first_eq_some_iff]
  simp only [h]

end NestedMap

end Minimmit.Library
