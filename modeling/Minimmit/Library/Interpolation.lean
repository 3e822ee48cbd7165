/-
Minimmit.Library.Interpolation — the value at zero from values elsewhere.

A polynomial is given by the list of its coefficients, the constant one first.
Its value at zero is a weighted sum of its values at distinct nodes, as soon as
there are as many nodes as coefficients (`sum_weights_eq_head`). The weight of
a node `x` is the product of `y / (y - x)` over the other nodes `y`: the
Lagrange basis of Mathlib at zero.
-/
import Mathlib.LinearAlgebra.Lagrange

namespace Minimmit.Library

variable {F : Type} [Field F]

/-- The value of the polynomial with these coefficients. -/
def evalCoefficients (coefficients : List F) (x : F) : F :=
  coefficients.foldr (fun a value => a + x * value) 0

/-- The weight of a node for the value at zero. -/
def weightAtZero [DecidableEq F] (nodes : List F) (x : F) : F :=
  ((nodes.erase x).map fun y => y / (y - x)).prod

section Polynomials

open Polynomial List

/-- The polynomial with these coefficients. -/
noncomputable def ofCoefficients (coefficients : List F) : F[X] :=
  coefficients.foldr (fun a p => C a + X * p) 0

theorem eval_ofCoefficients (coefficients : List F) (x : F) :
    (ofCoefficients coefficients).eval x = evalCoefficients coefficients x := by
  induction coefficients with
  | nil => simp [ofCoefficients, evalCoefficients]
  | cons a as ih =>
    simp only [ofCoefficients, evalCoefficients, foldr_cons] at ih ⊢
    simp [ih]

theorem coeff_ofCoefficients (coefficients : List F) {n : ℕ} (h : coefficients.length ≤ n) :
    (ofCoefficients coefficients).coeff n = 0 := by
  induction coefficients generalizing n with
  | nil => simp [ofCoefficients]
  | cons a as ih =>
    obtain ⟨k, rfl⟩ : ∃ k, n = k + 1 := ⟨n - 1, by simp at h; omega⟩
    have hk := ih (Nat.le_of_succ_le_succ h)
    simp only [ofCoefficients, foldr_cons] at hk ⊢
    simp [hk]

theorem degree_ofCoefficients_lt (coefficients : List F) :
    (ofCoefficients coefficients).degree < coefficients.length :=
  (degree_lt_iff_coeff_zero _ _).mpr fun _ h => coeff_ofCoefficients coefficients h

/-- The basis of Lagrange at zero. -/
theorem eval_zero_basis [DecidableEq F] {nodes : List F} (hnodes : nodes.Nodup) (x : F) :
    (Lagrange.basis nodes.toFinset id x).eval 0 = weightAtZero nodes x := by
  have herase : (nodes.toFinset.erase x) = (nodes.erase x).toFinset := by
    ext y
    simp [hnodes.mem_erase_iff]
  rw [Lagrange.basis, eval_prod, herase, prod_toFinset _ (hnodes.erase x), weightAtZero]
  congr 1
  refine map_congr_left fun y hy => ?_
  have hne : y ≠ x := (hnodes.mem_erase_iff.mp hy).1
  have hsub : y - x ≠ 0 := sub_ne_zero.mpr hne
  simp only [Lagrange.basisDivisor, id, eval_mul, eval_C, eval_sub, eval_X, zero_sub]
  rw [← neg_sub y x, inv_neg, neg_mul_neg, div_eq_inv_mul]

end Polynomials

/-- **The constant coefficient from the values at distinct nodes.** -/
theorem sum_weights_eq_head [DecidableEq F] {nodes : List F} (hnodes : nodes.Nodup)
    (a : F) (coefficients : List F) (hlen : coefficients.length < nodes.length) :
    (nodes.map fun x => evalCoefficients (a :: coefficients) x * weightAtZero nodes x).sum = a := by
  have hinj : Set.InjOn (id : F → F) nodes.toFinset := Function.injective_id.injOn
  have hdegree : (ofCoefficients (a :: coefficients)).degree < nodes.toFinset.card := by
    refine lt_of_lt_of_le (degree_ofCoefficients_lt _) ?_
    rw [List.toFinset_card_of_nodup hnodes]
    exact_mod_cast hlen
  have hinterpolate := congrArg (Polynomial.eval 0) (Lagrange.eq_interpolate hinj hdegree)
  rw [eval_ofCoefficients, Lagrange.interpolate_apply, Polynomial.eval_finsetSum] at hinterpolate
  have hzero : evalCoefficients (a :: coefficients) 0 = a := by simp [evalCoefficients]
  rw [hzero, List.sum_toFinset _ hnodes] at hinterpolate
  refine (congrArg List.sum (List.map_congr_left fun x _ => ?_)).trans hinterpolate.symm
  rw [Polynomial.eval_mul, Polynomial.eval_C, eval_zero_basis hnodes, id, eval_ofCoefficients]

end Minimmit.Library
