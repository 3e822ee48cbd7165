/-
Minimmit.Crypto.Sample — one curve and one hash that compute.

Every parameter of the development is universally quantified; this module
gives one value of each, so that a run can be evaluated and the hypotheses
of the theorems can be met. The groups are the field itself with `1` as the
generator, the pairing is multiplication, and the digest of a byte string
is the string read as a number, which is injective (`sampleHashing_injective`).
-/
import Mathlib.Algebra.Algebra.Bilinear
import Mathlib.Algebra.Field.ZMod
import Mathlib.Tactic.NormNum.Prime
import Minimmit.Crypto.Aggregated

namespace Minimmit

open Minimmit.Library List

/-! ## Digests -/

/-- Base-128 digits, least significant first, every digit but the last
marked by its high bit. -/
def digestDigits : Nat → Nat → List UInt8
  | 0, n => [UInt8.ofNat (n % 128)]
  | k + 1, n =>
    if n < 128 then [UInt8.ofNat n] else UInt8.ofNat (n % 128 + 128) :: digestDigits k (n / 128)

theorem digestDigits_ne_nil (k n : Nat) : digestDigits k n ≠ [] := by
  cases k with
  | zero => simp [digestDigits]
  | succ k =>
    simp only [digestDigits]
    split <;> simp

/-- A digit string that starts another one is that string. -/
theorem digestDigits_prefix {k l m n : Nat} (hm : m < 128 ^ (k + 1)) (hn : n < 128 ^ (l + 1))
    (h : digestDigits k m <+: digestDigits l n) : m = n := by
  induction k generalizing l m n with
  | zero =>
    have hm' : m < 128 := by simpa using hm
    cases l with
    | zero =>
      have hn' : n < 128 := by simpa using hn
      simp only [digestDigits, cons_prefix_cons, prefix_nil, and_true] at h
      have ht := congrArg UInt8.toNat h
      simp only [UInt8.toNat_ofNat'] at ht
      omega
    | succ l =>
      simp only [digestDigits] at h
      split at h <;> simp only [cons_prefix_cons] at h <;>
        have ht := congrArg UInt8.toNat h.1 <;> simp only [UInt8.toNat_ofNat'] at ht <;> omega
  | succ k ih =>
    cases l with
    | zero =>
      have hn' : n < 128 := by simpa using hn
      simp only [digestDigits] at h
      split at h <;> simp only [cons_prefix_cons] at h <;>
        have ht := congrArg UInt8.toNat h.1 <;> simp only [UInt8.toNat_ofNat'] at ht <;> omega
    | succ l =>
      simp only [digestDigits] at h
      split at h <;> split at h <;> simp only [cons_prefix_cons] at h <;>
        have ht := congrArg UInt8.toNat h.1 <;> simp only [UInt8.toNat_ofNat'] at ht
      · omega
      · omega
      · omega
      · have hm' : m / 128 < 128 ^ (k + 1) := by
          rw [Nat.div_lt_iff_lt_mul (by omega), ← Nat.pow_succ]
          exact hm
        have hn' : n / 128 < 128 ^ (l + 1) := by
          rw [Nat.div_lt_iff_lt_mul (by omega), ← Nat.pow_succ]
          exact hn
        have hq := ih hm' hn' h.2
        omega

theorem lt_pow_log2 (n : Nat) : n < 128 ^ (n.log2 + 1) :=
  lt_of_lt_of_le Nat.lt_log2_self (Nat.pow_le_pow_left (by omega) _)

/-- The digits of a digest, with as many rounds as it can need. -/
def digestBytes (h : Nat) : List UInt8 := digestDigits h.log2 h

/-- The digest of a byte string: the string, closed by a `1`, as a number. -/
def digest (m : List UInt8) : Nat := leNat (m ++ [1])

theorem digest_pos (m : List UInt8) : 0 < digest m := by
  induction m with
  | nil => decide
  | cons b bs ih =>
    simp only [digest, cons_append, leNat] at ih ⊢
    omega

theorem digest_injective : Function.Injective digest := by
  intro a
  induction a with
  | nil =>
    intro b h
    cases b with
    | nil => rfl
    | cons y ys =>
      have hy := digest_pos ys
      have h1 : digest [] = 1 := by decide
      simp only [digest, cons_append, leNat] at h hy h1
      omega
  | cons x xs ih =>
    intro b h
    cases b with
    | nil =>
      have hx := digest_pos xs
      have h1 : digest [] = 1 := by decide
      simp only [digest, cons_append, leNat] at h hx h1
      omega
    | cons y ys =>
      have hx : x.toNat < 256 := x.toNat_lt
      have hy : y.toNat < 256 := y.toNat_lt
      simp only [digest, cons_append, leNat] at h
      have hhead : x = y := UInt8.toNat_inj.mp (by omega)
      have htail : xs = ys := ih (by simp only [digest]; omega)
      rw [hhead, htail]

/-- Number digests with the code above. -/
def sampleHashing : Hashing where
  Hash := Nat
  bytes := digestBytes
  zero := 0
  blake3 := digest
  bytes_prefixFree := fun a b h => digestDigits_prefix (lt_pow_log2 a) (lt_pow_log2 b) h
  bytes_ne_nil := fun h => digestDigits_ne_nil h.log2 h

theorem sampleHashing_injective : Function.Injective sampleHashing.blake3 := digest_injective

/-! ## The curve -/

instance prime_65537 : Fact (Nat.Prime 65537) := ⟨by norm_num⟩

/-- The field with 65537 elements, paired with itself by multiplication. -/
def sampleCurve : Curve where
  Fr := ZMod 65537
  G1 := ZMod 65537
  G2 := ZMod 65537
  GT := ZMod 65537
  g1 := 1
  g2 := 1
  pairing := LinearMap.mul (ZMod 65537) (ZMod 65537)
  pairing_g2_injective := fun x h => by simpa using h
  g1_ne_zero := one_ne_zero
  fromLeBytesModOrder := fun bs => (leNat bs : ZMod 65537)
  serializeCompressed := fun pk => leBytes 8 (ZMod.val pk)

instance : DecidableEq sampleCurve.Fr := inferInstanceAs (DecidableEq (ZMod 65537))

end Minimmit
