/-
Minimmit.Library.KeySet — sets of records compared by a key.

A Rust `HashSet<T>` whose `Eq` and `Hash` look at some of the fields only
holds at most one record per key, and inserting a record whose key is
present keeps the OLD record. `KeySet key` is that container: a list with
pairwise distinct keys, the proof a field of the structure.

Iteration order is not part of the container: `HashOrder` is an arbitrary
permutation of what is stored, so nothing proved about an iteration depends
on the insertion order kept in `elems`.
-/
import Mathlib.Data.List.Nodup
import Mathlib.Data.List.AList
import Mathlib.Data.Finset.Card

namespace Minimmit.Library

open List

variable {α κ : Type}

/-- A finite set of records with pairwise distinct keys. -/
structure KeySet (key : α → κ) where
  elems : List α
  keys_nodup : (elems.map key).Nodup

namespace KeySet

variable {key : α → κ} {s : KeySet key} {a b : α}

/-- The set without a record. -/
def empty : KeySet key := ⟨[], List.nodup_nil⟩

instance : EmptyCollection (KeySet key) := ⟨empty⟩

instance : Membership α (KeySet key) := ⟨fun s a => a ∈ s.elems⟩

theorem mem_def : a ∈ s ↔ a ∈ s.elems := Iff.rfl

/-- The number of records. -/
def len (s : KeySet key) : Nat := s.elems.length

/-- Is there a record with this key? -/
def contains [DecidableEq κ] (s : KeySet key) (k : κ) : Bool := decide (k ∈ s.elems.map key)

/-- Add a record; a record with the same key stays as it is. -/
def insert [DecidableEq κ] (a : α) (s : KeySet key) : KeySet key :=
  if h : key a ∈ s.elems.map key then s
  else ⟨a :: s.elems, List.nodup_cons.mpr ⟨h, s.keys_nodup⟩⟩

@[simp] theorem empty_elems : (∅ : KeySet key).elems = [] := rfl

@[simp] theorem not_mem_empty (a : α) : a ∉ (∅ : KeySet key) := not_mem_nil

@[simp] theorem len_empty : (∅ : KeySet key).len = 0 := rfl

/-- What is in the set after an insertion was there before or is the record
inserted. -/
theorem mem_insert_imp [DecidableEq κ] (h : b ∈ s.insert a) : b = a ∨ b ∈ s := by
  simp only [mem_def, insert] at h ⊢
  split at h
  · exact .inr h
  · exact mem_cons.mp h

theorem mem_foldl_insert [DecidableEq κ] : ∀ {l : List α} {s : KeySet key},
    a ∈ l.foldl (fun s b => s.insert b) s → a ∈ l ∨ a ∈ s
  | [], _, h => .inr h
  | b :: l, s, h => by
    rcases mem_foldl_insert (l := l) h with hl | hs
    · exact .inl (mem_cons_of_mem b hl)
    · rcases mem_insert_imp hs with rfl | hs
      · exact .inl mem_cons_self
      · exact .inr hs

theorem elems_insert [DecidableEq κ] (h : key a ∉ s.elems.map key) :
    (s.insert a).elems = a :: s.elems := by
  simp only [insert, h, ↓reduceDIte]

/-- Records with new and distinct keys are all added. -/
theorem elems_foldl_insert [DecidableEq κ] : ∀ {l : List α} {s : KeySet key},
    (l.map key).Nodup → (∀ a ∈ l, key a ∉ s.elems.map key) →
    (l.foldl (fun s b => s.insert b) s).elems = l.reverse ++ s.elems
  | [], _, _, _ => rfl
  | b :: l, s, hnodup, hfresh => by
    obtain ⟨hb, hnodup⟩ := nodup_cons.mp hnodup
    have hinsert := elems_insert (hfresh b mem_cons_self)
    have hrest : ∀ a ∈ l, key a ∉ (s.insert b).elems.map key := by
      intro a ha hmem
      rw [hinsert, map_cons] at hmem
      rcases mem_cons.mp hmem with heq | hold
      · exact hb (heq ▸ mem_map_of_mem ha)
      · exact hfresh a (mem_cons_of_mem b ha) hold
    rw [foldl_cons, elems_foldl_insert hnodup hrest, hinsert]
    simp

/-- Distinct keys make the records distinct. -/
theorem elems_nodup (s : KeySet key) : s.elems.Nodup := Nodup.of_map key s.keys_nodup

/-- Two records of the set with one key are one record. -/
theorem eq_of_key_eq (ha : a ∈ s) (hb : b ∈ s) (h : key a = key b) : a = b :=
  inj_on_of_nodup_map s.keys_nodup ha hb h

/-- If a field of the record separates the records of the set, its values
over the set are pairwise distinct. -/
theorem map_nodup_of_inj {β : Type} (s : KeySet key) (f : α → β)
    (hf : ∀ a ∈ s, ∀ b ∈ s, f a = f b → key a = key b) : (s.elems.map f).Nodup :=
  s.elems_nodup.map_on fun a ha b hb h => eq_of_key_eq ha hb (hf a ha b hb h)

theorem len_insert_le [DecidableEq κ] (a : α) (s : KeySet key) : (s.insert a).len ≤ s.len + 1 := by
  unfold insert len
  split
  · exact Nat.le_succ _
  · exact Nat.le_refl _

theorem len_le_insert [DecidableEq κ] (a : α) (s : KeySet key) : s.len ≤ (s.insert a).len := by
  unfold insert len
  split
  · exact Nat.le_refl _
  · exact Nat.le_succ _

theorem len_le_foldl_insert [DecidableEq κ] : ∀ (l : List α) (s : KeySet key),
    s.len ≤ (l.foldl (fun s b => s.insert b) s).len
  | [], _ => Nat.le_refl _
  | b :: l, s => (len_le_insert b s).trans (len_le_foldl_insert l (s.insert b))

theorem len_foldl_insert_le [DecidableEq κ] : ∀ (l : List α) (s : KeySet key),
    (l.foldl (fun s b => s.insert b) s).len ≤ s.len + l.length
  | [], _ => Nat.le_refl _
  | b :: l, s => by
    have hrest := len_foldl_insert_le l (s.insert b)
    have hone := len_insert_le b s
    simp only [foldl_cons, length_cons]
    omega

/-- A set to which `a` and `l` were added has at most one record with the key
of `a`. -/
theorem len_foldl_insert_le_others [DecidableEq κ] (a : α) (l : List α) (s : KeySet key) :
    ((a :: l).foldl (fun s b => s.insert b) s).len ≤
      ((s.elems ++ l).filter fun b => decide (key b ≠ key a)).length + 1 := by
  generalize hr : (a :: l).foldl (fun s b => s.insert b) s = r
  have hmem : ∀ b ∈ r.elems, b = a ∨ b ∈ s.elems ++ l := by
    intro b hb
    rw [← hr] at hb
    rcases mem_foldl_insert hb with hl | hs
    · rcases mem_cons.mp hl with rfl | hl
      · exact .inl rfl
      · exact .inr (mem_append_right _ hl)
    · exact .inr (mem_append_left _ hs)
  have hsplit := length_eq_length_filter_add (l := r.elems) fun b => decide (key b = key a)
  -- the records with the key of `a`
  have hone : (r.elems.filter fun b => decide (key b = key a)).length ≤ 1 := by
    have hnodup : ((r.elems.filter fun b => decide (key b = key a)).map key).Nodup :=
      r.keys_nodup.sublist (filter_sublist.map key)
    have hconst : ∀ k ∈ (r.elems.filter fun b => decide (key b = key a)).map key, k = key a := by
      intro k hk
      obtain ⟨b, hb, rfl⟩ := mem_map.mp hk
      exact of_decide_eq_true (mem_filter.mp hb).2
    have hle := (nodup_iff_count_le_one.mp hnodup) (key a)
    rwa [count_eq_length.mpr fun k hk => (hconst k hk).symm, length_map] at hle
  -- the others were there or are in `l`
  have hothers : (r.elems.filter fun b => !decide (key b = key a)).length ≤
      ((s.elems ++ l).filter fun b => decide (key b ≠ key a)).length := by
    refine (Nodup.subperm (r.elems_nodup.filter _) fun b hb => ?_).length_le
    obtain ⟨hb, hne⟩ := mem_filter.mp hb
    have hne : key b ≠ key a := by simpa using hne
    rcases hmem b hb with rfl | hin
    · exact absurd rfl hne
    · exact mem_filter.mpr ⟨hin, decide_eq_true hne⟩
  unfold len
  omega

end KeySet

/-- An iteration order of the standard library's hash containers: any
permutation of the stored records, possibly another one for every seed and
every content. -/
structure HashOrder where
  apply : (seed : Nat) → (β : Type) → List β → List β
  perm : ∀ seed β l, (apply seed β l).Perm l

namespace HashOrder

/-- Iterate in insertion order. -/
def insertion : HashOrder := ⟨fun _ _ l => l, fun _ _ _ => List.Perm.refl _⟩

/-- The first entry, in iteration order, that satisfies `p`. -/
def find? (o : HashOrder) (seed : Nat) (p : α → Bool) (l : List α) : Option α :=
  (o.apply seed α l).find? p

theorem mem_of_find? {o : HashOrder} {seed : Nat} {p : α → Bool} {l : List α} {a : α}
    (h : o.find? seed p l = some a) : a ∈ l ∧ p a = true :=
  ⟨(o.perm seed α l).mem_iff.mp (mem_of_find?_eq_some h), find?_some h⟩

theorem find?_eq_none {o : HashOrder} {seed : Nat} {p : α → Bool} {l : List α} :
    o.find? seed p l = none ↔ ∀ a ∈ l, ¬ p a = true := by
  simp only [find?, List.find?_eq_none]
  exact ⟨fun h a ha => h a ((o.perm seed α l).mem_iff.mpr ha),
    fun h a ha => h a ((o.perm seed α l).mem_iff.mp ha)⟩

end HashOrder

end Minimmit.Library
