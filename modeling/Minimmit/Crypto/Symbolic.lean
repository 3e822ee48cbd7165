/-
Minimmit.Crypto.Symbolic — who can have produced an aggregated signature.

Two assumptions on the scheme, and nothing about the code: signatures on a
message are obtained from the owners that signed it and by adding and
scaling what was obtained (`Obtainable`), and the secret keys satisfy no
relation over the scalars others can compute with (`KeyRing.independent`).
From these, an aggregate that passes the check against a list of keys shows
that EVERY listed owner signed (`signed_of_verify`), while the number of
different owners is whatever the list makes it: nothing in the pairing
equation sees that a key was listed twice.
-/
import Mathlib.LinearAlgebra.LinearIndependent.Lemmas
import Minimmit.Crypto.Aggregated

namespace Minimmit.Crypto

open List

variable {H : Hashing} {C : Curve}

/-- The secret keys behind the ids `known`, independent over the field `K`
of scalars that can be computed without them. -/
structure KeyRing (C : Curve) (known : Set Nat) (K : Type) [Field K] [Algebra K C.Fr] where
  secret : Nat → C.Fr
  independent : LinearIndepOn K secret known

section Symbolic

variable {known : Set Nat} {K : Type} [Field K] [Algebra K C.Fr]

/-- The scalar a list of signatures on `m`, with coefficients, amounts to. -/
noncomputable def KeyRing.scalar (R : KeyRing C known K) (l : Nat →₀ K) : C.Fr :=
  Finsupp.linearCombination K R.secret l

/-- `σ` is a combination of signatures on `m` by known owners that signed
it. -/
def KeyRing.Obtainable (H : Hashing) (R : KeyRing C known K) (signed : Nat → Prop)
    (m : List UInt8) (σ : C.G1) : Prop :=
  ∃ l ∈ Finsupp.supported K K {i | i ∈ known ∧ signed i}, σ = R.scalar l • hashToG1 H C m

/-- How often each id is listed, as coefficients. -/
noncomputable def multiplicity (K : Type) [Field K] (ids : List Nat) : Nat →₀ K :=
  (ids.map fun i => Finsupp.single i (1 : K)).sum

theorem multiplicity_apply (ids : List Nat) (i : Nat) :
    multiplicity K ids i = (ids.count i : K) := by
  induction ids with
  | nil => simp [multiplicity]
  | cons j ids ih =>
    simp only [multiplicity, map_cons, sum_cons, Finsupp.add_apply] at ih ⊢
    rw [ih, count_cons, Finsupp.single_apply]
    by_cases h : j = i <;> simp [h, add_comm]

variable {ids : List Nat}

theorem multiplicity_supported {s : Set Nat} (h : ∀ i ∈ ids, i ∈ s) :
    multiplicity K ids ∈ Finsupp.supported K K s := by
  rw [Finsupp.mem_supported]
  intro i hi
  apply h
  by_contra hni
  have hc : ids.count i = 0 := count_eq_zero.mpr hni
  simp [multiplicity_apply, hc] at hi

theorem scalar_multiplicity (R : KeyRing C known K) (ids : List Nat) :
    R.scalar (multiplicity K ids) = (ids.map R.secret).sum := by
  induction ids with
  | nil => simp [multiplicity, KeyRing.scalar]
  | cons j ids ih =>
    simp only [KeyRing.scalar, multiplicity, map_cons, sum_cons, map_add] at ih ⊢
    rw [ih, Finsupp.linearCombination_single, one_smul]

/-- The sum of the listed signatures is the listed scalar times the point. -/
theorem sum_sign_eq (R : KeyRing C known K) (ids : List Nat) (m : List UInt8) :
    ((ids.map R.secret).map (sign H C · m)).sum =
      R.scalar (multiplicity K ids) • hashToG1 H C m := by
  rw [scalar_multiplicity, sum_smul]
  rfl

theorem hashToG1_ne_zero {m : List UInt8} (h : hashFr H C m ≠ 0) : hashToG1 H C m ≠ 0 :=
  smul_ne_zero h C.g1_ne_zero

/-- **Every listed owner signed.** If the aggregate of the listed keys
accepts a signature that was obtained from signers, each listed id whose
multiplicity is not zero in the field is one of them. -/
theorem signed_of_verify (R : KeyRing C known K) {signed : Nat → Prop} {m : List UInt8}
    {σ : C.G1} (hm : hashFr H C m ≠ 0) (hknown : ∀ i ∈ ids, i ∈ known)
    (hσ : R.Obtainable H signed m σ)
    (hv : verify H C (aggregateKeys C ((ids.map R.secret).map (publicKey C))) m σ = true)
    {i : Nat} (hi : (ids.count i : K) ≠ 0) : signed i := by
  obtain ⟨l, hl, hσl⟩ := hσ
  rw [verify_aggregateKeys_iff, sum_sign_eq] at hv
  -- the point is not zero, so the two scalars agree, and independence makes
  -- the two coefficient families one
  have hscalar : R.scalar (multiplicity K ids) = R.scalar l := by
    have h0 : (R.scalar (multiplicity K ids) - R.scalar l) • hashToG1 H C m = 0 := by
      rw [sub_smul, ← hv, ← hσl, sub_self]
    rcases smul_eq_zero.mp h0 with h | h
    · exact sub_eq_zero.mp h
    · exact absurd h (hashToG1_ne_zero hm)
  have hl' : l ∈ Finsupp.supported K K known :=
    Finsupp.supported_mono (fun j hj => hj.1) hl
  have heq : multiplicity K ids = l := by
    have hzero : multiplicity K ids - l = 0 :=
      linearIndepOn_iff.mp R.independent _ (Submodule.sub_mem _ (multiplicity_supported hknown) hl')
        (by rw [map_sub]; exact sub_eq_zero.mpr hscalar)
    exact sub_eq_zero.mp hzero
  have hsupp : i ∈ l.support := by
    rw [← heq, Finsupp.mem_support_iff, multiplicity_apply]
    exact hi
  exact ((Finsupp.mem_supported K l).mp hl hsupp).2

/-- If exactly the listed owners signed, the sum of their signatures, each
as often as it is listed, is obtainable and accepted. -/
theorem verify_of_listed (R : KeyRing C known K) (hknown : ∀ i ∈ ids, i ∈ known) (m : List UInt8) :
    R.Obtainable H (· ∈ ids) m ((ids.map R.secret).map (sign H C · m)).sum ∧
    verify H C (aggregateKeys C ((ids.map R.secret).map (publicKey C))) m
      ((ids.map R.secret).map (sign H C · m)).sum = true :=
  ⟨⟨multiplicity K ids, multiplicity_supported fun i hi => ⟨hknown i hi, hi⟩, sum_sign_eq R ids m⟩,
    (verify_aggregateKeys_iff _ m _).mpr rfl⟩

end Symbolic

end Minimmit.Crypto
