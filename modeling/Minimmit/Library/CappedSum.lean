/-
Minimmit.Library.CappedSum — running sums that stop at a cap.

A counter that saturates forgets what it could not hold. How much it forgets
is fixed by the exact running sums: a capped sum ends below the exact one by
what the highest of them is above the cap (`cappedSum_eq`). The steps are
integers, so a sum may go down again after it was cut.
-/
import Mathlib

namespace Minimmit.Library

open List

/-- The sum from `b` on, cut at `cap` after each step. -/
def cappedSum (cap : Int) : Int → List Int → Int
  | b, [] => b
  | b, d :: ds => cappedSum cap (min (b + d) cap) ds

/-- The highest of the exact running sums, the start among them. -/
def peak : Int → List Int → Int
  | b, [] => b
  | b, d :: ds => max b (peak (b + d) ds)

theorem le_peak (b : Int) (ds : List Int) : b ≤ peak b ds := by
  cases ds with
  | nil => exact le_refl b
  | cons d ds => exact le_max_left _ _

theorem add_sum_le_peak (b : Int) (ds : List Int) : b + ds.sum ≤ peak b ds := by
  induction ds generalizing b with
  | nil => simp [peak]
  | cons d ds ih =>
    have := ih (b + d)
    rw [sum_cons, peak, ← add_assoc]
    exact this.trans (le_max_right _ _)

theorem peak_add (b c : Int) (ds : List Int) : peak (b + c) ds = peak b ds + c := by
  induction ds generalizing b with
  | nil => rfl
  | cons d ds ih =>
    rw [peak, peak, add_right_comm, ih]
    omega

variable {cap b : Int}

/-- **A capped sum** is the exact one less what its peak is above the cap. -/
theorem cappedSum_eq (hb : b ≤ cap) (ds : List Int) :
    cappedSum cap b ds = b + ds.sum - max 0 (peak b ds - cap) := by
  induction ds generalizing b with
  | nil =>
    rw [cappedSum, peak, sum_nil, max_eq_left (by omega)]
    omega
  | cons d ds ih =>
    rw [cappedSum, ih (min_le_right _ _), peak, sum_cons]
    rcases le_total (b + d) cap with hfit | hover
    · rw [min_eq_left hfit]
      have := le_peak (b + d) ds
      omega
    -- cut at the cap: the rest of the peak is what was above it
    rw [min_eq_right hover]
    have hshift : peak (b + d) ds = peak cap ds + (b + d - cap) := by
      rw [← peak_add]
      congr 1
      omega
    have := le_peak cap ds
    omega

theorem cappedSum_le (hb : b ≤ cap) (ds : List Int) : cappedSum cap b ds ≤ cap := by
  induction ds generalizing b with
  | nil => exact hb
  | cons d ds ih => exact ih (min_le_right _ _)

/-- Nothing is lost as long as no running sum is above the cap. -/
theorem cappedSum_of_peak_le {ds : List Int} (h : peak b ds ≤ cap) :
    cappedSum cap b ds = b + ds.sum := by
  have := le_peak b ds
  rw [cappedSum_eq (by omega), max_eq_left (by omega)]
  omega

theorem peak_append (b : Int) (ds es : List Int) :
    peak b (ds ++ es) = max (peak b ds) (peak (b + ds.sum) es) := by
  induction ds generalizing b with
  | nil =>
    rw [nil_append, sum_nil, add_zero, peak, max_eq_right (le_peak b es)]
  | cons d ds ih => rw [cons_append, peak, peak, ih, sum_cons, max_assoc, add_assoc]

/-- Without a step down the last running sum is the highest. -/
theorem peak_of_nonneg {ds : List Int} (h : ∀ d ∈ ds, 0 ≤ d) (b : Int) :
    peak b ds = b + ds.sum := by
  induction ds generalizing b with
  | nil => simp [peak]
  | cons d ds ih =>
    have hd := h d mem_cons_self
    have hsum : 0 ≤ ds.sum := sum_nonneg fun e he => h e (mem_cons_of_mem _ he)
    rw [peak, ih (fun e he => h e (mem_cons_of_mem _ he)), sum_cons]
    omega

/-! ## Steps that go the same way -/

/-- The same total and, from any start, the same peak. -/
structure SameCourse (ds es : List Int) : Prop where
  sum : ds.sum = es.sum
  peak : ∀ b, peak b ds = Library.peak b es

namespace SameCourse

theorem refl (ds : List Int) : SameCourse ds ds := ⟨rfl, fun _ => rfl⟩

theorem append {ds es ds' es' : List Int} (h : SameCourse ds es) (h' : SameCourse ds' es') :
    SameCourse (ds ++ ds') (es ++ es') where
  sum := by rw [sum_append, sum_append, h.sum, h'.sum]
  peak b := by rw [peak_append, peak_append, h.peak, h'.peak, h.sum]

/-- A step by nothing does not count. -/
theorem zero_cons (ds : List Int) : SameCourse ds (0 :: ds) where
  sum := by simp
  peak b := by rw [Library.peak, add_zero, max_eq_right (le_peak b ds)]

end SameCourse

end Minimmit.Library
