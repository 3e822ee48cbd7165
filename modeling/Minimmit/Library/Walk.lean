/-
Minimmit.Library.Walk — following a partial function from node to node.

`walk next k a` is the node `k` steps after `a`. A walk is determined by where
it starts, so one that comes back to a node goes round for ever: a walk that
stops meets every node at most once, and among `n` nodes it stops before the
`n`-th step.
-/
import Mathlib.Data.List.Nodup
import Mathlib.Data.List.Perm.Subperm

namespace Minimmit.Library

open List Option

variable {α : Type} {next : α → Option α} {j k : Nat} {a b : α}

/-- The node `k` steps after `a`, if the walk gets that far. -/
def walk (next : α → Option α) : Nat → α → Option α
  | 0, a => some a
  | k + 1, a => (next a).bind (walk next k)

@[simp] theorem walk_zero (a : α) : walk next 0 a = some a := rfl

theorem walk_succ (k : Nat) (a : α) : walk next (k + 1) a = (next a).bind (walk next k) := rfl

theorem walk_add (j k : Nat) (a : α) : walk next (j + k) a = (walk next j a).bind (walk next k) := by
  induction j generalizing a with
  | zero => simp
  | succ j ih =>
    rw [Nat.add_right_comm, walk_succ, walk_succ, bind_assoc]
    exact congrArg (bind (next a)) (funext ih)

/-- One more step at the end. -/
theorem walk_succ_last (k : Nat) (a : α) : walk next (k + 1) a = (walk next k a).bind next := by
  have hone : walk next 1 = next := by
    funext b
    rw [walk_succ]
    cases next b <;> rfl
  rw [walk_add, hone]

theorem walk_none_of_le (h : walk next j a = none) (hle : j ≤ k) : walk next k a = none := by
  obtain ⟨i, rfl⟩ := Nat.exists_eq_add_of_le hle
  rw [walk_add, h, bind_none]

/-- Beyond a node without a next one there is nothing. -/
theorem walk_none_of_stop (hj : walk next j a = some b) (hstop : next b = none) (hlt : j < k) :
    walk next k a = none := by
  refine walk_none_of_le (j := j + 1) ?_ hlt
  rw [walk_succ_last, hj, bind_some, hstop]

/-- **A walk that stops repeats no node.** -/
theorem walk_injOn_of_stop (hk : walk next k a = some b) (hstop : next b = none) {i : Nat}
    (hij : i < j) (hj : j ≤ k) : walk next i a ≠ walk next j a := by
  intro heq
  -- the rest of the walk from `j` is also walked from `i`, and stops too early
  have hshift : walk next (i + (k - j)) a = some b := by
    rw [walk_add, heq, ← walk_add, Nat.add_sub_cancel' hj, hk]
  have hnone := walk_none_of_stop hshift hstop (show i + (k - j) < k by omega)
  rw [hk] at hnone
  cases hnone

/-- Among the nodes of a list, a walk stops within the length of the list. -/
theorem lt_length_of_stop {nodes : List α} (hnodes : ∀ i c, walk next i a = some c → c ∈ nodes)
    (hk : walk next k a = some b) (hstop : next b = none) : k < nodes.length := by
  have hnodup : ((range (k + 1)).map fun i => walk next i a).Nodup := by
    refine nodup_range.map_on fun i hi j hj heq => ?_
    rw [mem_range, Nat.lt_succ_iff] at hi hj
    rcases Nat.lt_trichotomy i j with hlt | hij | hlt
    · exact absurd heq (walk_injOn_of_stop hk hstop hlt hj)
    · exact hij
    · exact absurd heq.symm (walk_injOn_of_stop hk hstop hlt hi)
  have hsub : ((range (k + 1)).map fun i => walk next i a) ⊆ nodes.map some := by
    intro x hx
    obtain ⟨i, hi, rfl⟩ := mem_map.mp hx
    rw [mem_range, Nat.lt_succ_iff] at hi
    rcases hw : walk next i a with _ | c
    · have hnone := walk_none_of_le hw hi
      rw [hk] at hnone
      cases hnone
    · exact mem_map.mpr ⟨c, hnodes i c hw, rfl⟩
  have hlen := (subperm_of_subset hnodup hsub).length_le
  rw [length_map, length_map, length_range] at hlen
  exact hlen

end Minimmit.Library
