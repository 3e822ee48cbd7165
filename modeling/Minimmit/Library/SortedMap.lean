/-
Minimmit.Library.SortedMap — ordered maps with natural-number keys.

The model of a Rust `BTreeMap<u64, T>`: a list of entries with strictly
increasing keys, the order a field of the structure. The operations are
those the program uses (`insert`, `get`, `remove`, `retain`, splitting off
the keys up to a bound), each with the lemma that says what `get` returns
afterwards.
-/
import Mathlib.Data.List.Nodup
import Mathlib.Data.List.Pairwise
import Mathlib.Data.List.Basic

namespace Minimmit.Library

open List Option

variable {α : Type}

/-! ## Cutting a sorted list -/

section Sorted

variable {β : Type} {key : β → Nat} {l : List β}

/-- What is below `n + 1` is what is below `n` and what is `n`. -/
theorem filter_lt_succ (h : l.Pairwise fun a b => key a < key b) (n : Nat) :
    l.filter (fun a => decide (key a < n + 1)) =
      l.filter (fun a => decide (key a < n)) ++ l.filter (fun a => decide (key a = n)) := by
  induction l with
  | nil => rfl
  | cons x xs ih =>
    obtain ⟨hx, hxs⟩ := pairwise_cons.mp h
    rcases Nat.lt_trichotomy (key x) n with hlt | heq | hgt
    · have hle : key x < n + 1 := Nat.lt_succ_of_lt hlt
      have hne : key x ≠ n := Nat.ne_of_lt hlt
      simp only [filter_cons, hle, hlt, hne, decide_true, decide_false, ↓reduceIte,
        Bool.false_eq_true, ih hxs, cons_append]
    · -- everything behind `x` is above `n`
      have hnone : xs.filter (fun a => decide (key a < n)) = [] :=
        filter_eq_nil_iff.mpr fun a ha => by
          have := hx a ha
          simp only [decide_eq_true_eq]
          omega
      simp only [filter_cons, heq, Nat.lt_succ_self, Nat.lt_irrefl, decide_true, decide_false,
        ↓reduceIte, Bool.false_eq_true, ih hxs, hnone, nil_append]
    · have hnot : ¬ key x < n + 1 := by omega
      have hnot' : ¬ key x < n := by omega
      have hne : key x ≠ n := by omega
      simp only [filter_cons, hnot, hnot', hne, decide_false, ↓reduceIte,
        Bool.false_eq_true, ih hxs]

/-- What is below a bound comes first. -/
theorem filter_lt_prefix (h : l.Pairwise fun a b => key a < key b) (n : Nat) :
    l.filter (fun a => decide (key a < n)) <+: l := by
  induction l with
  | nil => exact prefix_refl _
  | cons x xs ih =>
    obtain ⟨hx, hxs⟩ := pairwise_cons.mp h
    by_cases hlt : key x < n
    · simp only [hlt, decide_true, filter_cons_of_pos]
      exact (prefix_cons_inj x).mpr (ih hxs)
    have hnone : (x :: xs).filter (fun a => decide (key a < n)) = [] :=
      filter_eq_nil_iff.mpr fun a ha => by
        simp only [decide_eq_true_eq]
        rcases mem_cons.mp ha with rfl | ha
        · exact hlt
        · have := hx a ha
          omega
    rw [hnone]
    exact nil_prefix

/-- At most one element has a given key. -/
theorem filter_eq_singleton (h : l.Pairwise fun a b => key a < key b) {a : β} (ha : a ∈ l) :
    l.filter (fun b => decide (key b = key a)) = [a] := by
  induction l with
  | nil => cases ha
  | cons x xs ih =>
    obtain ⟨hx, hxs⟩ := pairwise_cons.mp h
    rcases mem_cons.mp ha with rfl | ha
    · have hnone : xs.filter (fun b => decide (key b = key a)) = [] :=
        filter_eq_nil_iff.mpr fun b hb => by
          have := hx b hb
          simp only [decide_eq_true_eq]
          omega
      simp [hnone]
    · have := hx a ha
      simp [Nat.ne_of_lt this, ih hxs ha]

end Sorted

/-- Entries with strictly increasing keys. -/
structure SortedMap (α : Type) where
  entries : List (Nat × α)
  sorted : entries.Pairwise fun a b => a.1 < b.1

namespace SortedMap

variable {k : Nat} {a : α} {es : List (Nat × α)}

/-- The map without an entry. -/
def empty : SortedMap α := ⟨[], List.Pairwise.nil⟩

instance : EmptyCollection (SortedMap α) := ⟨empty⟩

variable (m : SortedMap α)

/-- The value stored for a key. -/
def get (k : Nat) : Option α := (m.entries.find? (·.1 == k)).map (·.2)

/-- Put an entry into a sorted list, replacing the one with the same key. -/
def insertEntry (k : Nat) (a : α) : List (Nat × α) → List (Nat × α)
  | [] => [(k, a)]
  | e :: es =>
    if k < e.1 then (k, a) :: e :: es
    else if k = e.1 then (k, a) :: es
    else e :: insertEntry k a es

theorem mem_insertEntry {e : Nat × α} (h : e ∈ insertEntry k a es) : e = (k, a) ∨ e ∈ es := by
  induction es with
  | nil => exact .inl (mem_singleton.mp h)
  | cons x xs ih =>
    simp only [insertEntry] at h
    split at h
    · exact mem_cons.mp h
    split at h
    · rcases mem_cons.mp h with h | h
      · exact .inl h
      · exact .inr (mem_cons_of_mem x h)
    · rcases mem_cons.mp h with h | h
      · exact .inr (h ▸ mem_cons_self)
      · rcases ih h with h | h
        · exact .inl h
        · exact .inr (mem_cons_of_mem x h)

theorem insertEntry_sorted (h : es.Pairwise fun a b => a.1 < b.1) :
    (insertEntry k a es).Pairwise fun a b => a.1 < b.1 := by
  induction es with
  | nil => exact pairwise_singleton _ _
  | cons x xs ih =>
    obtain ⟨hx, hxs⟩ := pairwise_cons.mp h
    simp only [insertEntry]
    split
    next hlt =>
      refine pairwise_cons.mpr ⟨fun e he => ?_, h⟩
      rcases mem_cons.mp he with rfl | he
      · exact hlt
      · exact Nat.lt_trans hlt (hx e he)
    next hlt =>
      split
      next heq =>
        exact pairwise_cons.mpr ⟨fun e he => heq ▸ hx e he, hxs⟩
      next hne =>
        refine pairwise_cons.mpr ⟨fun e he => ?_, ih hxs⟩
        rcases mem_insertEntry he with rfl | he
        · simp only
          omega
        · exact hx e he

/-- Store a value, replacing the one with the same key. -/
def insert (k : Nat) (a : α) : SortedMap α :=
  ⟨insertEntry k a m.entries, insertEntry_sorted m.sorted⟩

/-- Keep the entries that satisfy `p`. -/
def retain (p : Nat → α → Bool) : SortedMap α :=
  ⟨m.entries.filter fun e => p e.1 e.2, m.sorted.filter _⟩

/-- Remove a key. -/
def remove (k : Nat) : SortedMap α := m.retain fun j _ => j != k

/-- The values in key order. -/
def values : List α := m.entries.map (·.2)

/-- The keys in order. -/
def keys : List Nat := m.entries.map (·.1)

@[simp] theorem get_empty (k : Nat) : (∅ : SortedMap α).get k = none := rfl

theorem get_eq_some_iff {m : SortedMap α} : m.get k = some a ↔ (k, a) ∈ m.entries := by
  constructor
  · intro h
    obtain ⟨e, he, rfl⟩ := map_eq_some_iff.mp h
    have hk : e.1 = k := by simpa using find?_some he
    exact hk ▸ mem_of_find?_eq_some he
  · intro h
    obtain ⟨e, he⟩ : ∃ e, m.entries.find? (·.1 == k) = some e :=
      isSome_iff_exists.mp (find?_isSome.mpr ⟨(k, a), h, by simp⟩)
    have hk : e.1 = k := by simpa using find?_some he
    have hnd : (m.entries.map (·.1)).Nodup :=
      (pairwise_map.mpr m.sorted).imp Nat.ne_of_lt
    have heq : e = (k, a) := inj_on_of_nodup_map hnd (mem_of_find?_eq_some he) h hk
    rw [get, he, heq]
    rfl

theorem get_retain {m : SortedMap α} {p : Nat → α → Bool} :
    (m.retain p).get k = some a ↔ m.get k = some a ∧ p k a = true := by
  rw [get_eq_some_iff, get_eq_some_iff, retain, mem_filter]

theorem get_remove {m : SortedMap α} {j : Nat} :
    (m.remove j).get k = some a ↔ m.get k = some a ∧ k ≠ j := by
  rw [remove, get_retain, bne_iff_ne]

theorem mem_insertEntry_self (k : Nat) (a : α) (es : List (Nat × α)) :
    (k, a) ∈ insertEntry k a es := by
  induction es with
  | nil => exact mem_singleton.mpr rfl
  | cons x xs ih =>
    simp only [insertEntry]
    split
    · exact mem_cons_self
    · split
      · exact mem_cons_self
      · exact mem_cons_of_mem x ih

theorem mem_insertEntry_of_ne {e : Nat × α} (h : e ∈ es) (hne : e.1 ≠ k) :
    e ∈ insertEntry k a es := by
  induction es with
  | nil => cases h
  | cons x xs ih =>
    simp only [insertEntry]
    split
    · exact mem_cons_of_mem _ h
    split
    next heq =>
      rcases mem_cons.mp h with rfl | h
      · exact absurd heq.symm hne
      · exact mem_cons_of_mem _ h
    · rcases mem_cons.mp h with rfl | h
      · exact mem_cons_self
      · exact mem_cons_of_mem x (ih h)

theorem get_insert_self (k : Nat) (a : α) : (m.insert k a).get k = some a :=
  get_eq_some_iff.mpr (mem_insertEntry_self k a m.entries)

theorem get_insert_ne {j : Nat} (a : α) (h : k ≠ j) : (m.insert j a).get k = m.get k := by
  apply ext
  intro b
  rw [get_eq_some_iff, get_eq_some_iff]
  constructor
  · intro hb
    rcases mem_insertEntry hb with hb | hb
    · exact absurd (congrArg Prod.fst hb) h
    · exact hb
  · exact fun hb => mem_insertEntry_of_ne hb h

/-- A key above all others goes to the end. -/
theorem values_insert_of_lt {m : SortedMap α} (a : α) (h : ∀ j ∈ m.keys, j < k) :
    (m.insert k a).values = m.values ++ [a] := by
  have hentries : ∀ es : List (Nat × α), (∀ e ∈ es, e.1 < k) →
      insertEntry k a es = es ++ [(k, a)] := by
    intro es hes
    induction es with
    | nil => rfl
    | cons e es ih =>
      have he := hes e mem_cons_self
      rw [insertEntry, if_neg (by omega), if_neg (by omega),
        ih fun e' he' => hes e' (mem_cons_of_mem _ he')]
      rfl
  have := hentries m.entries fun e he => h e.1 (mem_map.mpr ⟨e, he, rfl⟩)
  exact (congrArg (map (·.2)) this).trans (map_append ..)

/-- The keys up to a bound come first, the others are what is retained. -/
theorem takeWhile_append_retain (k : Nat) :
    (m.entries.takeWhile fun e => decide (e.1 ≤ k)) ++
      (m.retain fun j _ => decide (k < j)).entries = m.entries := by
  have hsplit : ∀ es : List (Nat × α), es.Pairwise (fun a b => a.1 < b.1) →
      (es.takeWhile fun e => decide (e.1 ≤ k)) ++ es.filter (fun e => decide (k < e.1)) = es := by
    intro es hes
    induction es with
    | nil => rfl
    | cons e es ih =>
      obtain ⟨hlt, hes'⟩ := pairwise_cons.mp hes
      by_cases he : e.1 ≤ k
      · have hnot : ¬ k < e.1 := Nat.not_lt.mpr he
        simp only [takeWhile_cons, he, decide_true, if_true, filter_cons, hnot,
          decide_false, Bool.false_eq_true, if_false, cons_append, ih hes']
      -- everything from here on is above the bound
      have hall : (e :: es).filter (fun e => decide (k < e.1)) = e :: es := by
        refine filter_eq_self.mpr fun x hx => decide_eq_true ?_
        rcases mem_cons.mp hx with rfl | hx
        · omega
        · have := hlt x hx
          omega
      rw [hall, takeWhile_cons, decide_eq_false he]
      rfl
  exact hsplit m.entries m.sorted

end SortedMap

end Minimmit.Library
