/-
Minimmit.Library.MapSum — sums over the values of a finite map.

How a number that is read off each value of a map adds up, and what writing
one key does to the sum.
-/
import Mathlib

namespace Minimmit.Library

open List

variable {κ β : Type} [DecidableEq κ]

/-- The sum of a number read off each value. -/
def sumOf (f : β → Int) (l : List (Sigma fun _ : κ => β)) : Int := (l.map fun e => f e.2).sum

/-- The number at a key; zero if there is none. -/
def valueAt (f : β → Int) (x : Option β) : Int := (x.map f).getD 0

/-- A key taken out of the sum. -/
theorem sumOf_kerase (f : β → Int) (k : κ) (l : List (Sigma fun _ : κ => β)) :
    sumOf f l = valueAt f (l.dlookup k) + sumOf f (l.kerase k) := by
  induction l with
  | nil => rfl
  | cons e l ih =>
    obtain ⟨j, b⟩ := e
    by_cases h : k = j
    · subst h
      rw [dlookup_cons_eq, show kerase k (⟨k, b⟩ :: l) = l from kerase_cons_eq rfl]
      rfl
    · rw [dlookup_cons_ne _ _ h, kerase_cons_ne h]
      simp only [sumOf, map_cons, sum_cons] at ih ⊢
      omega

/-- Writing a key replaces its number in the sum. -/
theorem sumOf_insert (f : β → Int) (m : AList fun _ : κ => β) (k : κ) (b : β) :
    sumOf f (m.insert k b).entries = sumOf f m.entries + f b - valueAt f (m.lookup k) := by
  have h := sumOf_kerase f k m.entries
  have hlookup : m.entries.dlookup k = m.lookup k := rfl
  have hsum : sumOf f (m.insert k b).entries = f b + sumOf f (m.entries.kerase k) := rfl
  rw [hlookup] at h
  omega

/-- Two sums of which one is below the other term by term are equal exactly
when all terms are. -/
theorem sum_map_eq_iff {α : Type} {f g : α → Int} {l : List α} (h : ∀ x ∈ l, f x ≤ g x) :
    (l.map f).sum = (l.map g).sum ↔ ∀ x ∈ l, f x = g x := by
  induction l with
  | nil => simp
  | cons x l ih =>
    have hx := h x mem_cons_self
    have hl : (l.map f).sum ≤ (l.map g).sum :=
      sum_le_sum fun y hy => h y (mem_cons_of_mem _ hy)
    rw [map_cons, map_cons, sum_cons, sum_cons, forall_mem_cons,
      ← ih fun y hy => h y (mem_cons_of_mem _ hy)]
    omega

end Minimmit.Library
