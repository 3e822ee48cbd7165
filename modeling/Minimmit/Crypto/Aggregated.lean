/-
Minimmit.Crypto.Aggregated — the BLS scheme of crypto/aggregated.rs.

`Curve` is what the scheme takes from arkworks: the scalar field, the three
groups as modules over it (the target group written additively), the
pairing as a bilinear map that does not vanish against the generator of
`G2`, and the two byte functions of the library. `Hashing` is BLAKE3 with
its digests as an abstract type: collision freeness is then an assumption a
theorem can make (`Function.Injective`), and the only fact built in is what
a fixed digest length gives, that no digest is a prefix of another.

The functions below are those of the source, one for one: the message is
hashed to a SCALAR and the generator is multiplied by it.
-/
import Mathlib.Algebra.Module.LinearMap.Basic
import Mathlib.Algebra.Module.BigOperators
import Mathlib.LinearAlgebra.BilinearMap
import Minimmit.Library.Bytes

namespace Minimmit

open Minimmit.Library List

/-- The pairing-friendly curve: scalars, groups, generators, pairing. -/
structure Curve where
  Fr : Type
  G1 : Type
  G2 : Type
  GT : Type
  [field : Field Fr]
  [groupG1 : AddCommGroup G1]
  [groupG2 : AddCommGroup G2]
  [groupGT : AddCommGroup GT]
  [moduleG1 : Module Fr G1]
  [moduleG2 : Module Fr G2]
  [moduleGT : Module Fr GT]
  [decEqGT : DecidableEq GT]
  /-- `G1Projective::generator()` -/
  g1 : G1
  /-- `G2Projective::generator()` -/
  g2 : G2
  pairing : G1 →ₗ[Fr] G2 →ₗ[Fr] GT
  pairing_g2_injective : ∀ x, pairing x g2 = 0 → x = 0
  g1_ne_zero : g1 ≠ 0
  /-- `Fr::from_le_bytes_mod_order` -/
  fromLeBytesModOrder : List UInt8 → Fr
  /-- `serialize_compressed` of a public key -/
  serializeCompressed : G2 → List UInt8

attribute [instance] Curve.field Curve.groupG1 Curve.groupG2 Curve.groupGT Curve.moduleG1
  Curve.moduleG2 Curve.moduleGT Curve.decEqGT

/-- BLAKE3: digests, their bytes, the all-zero digest and the hash. -/
structure Hashing where
  Hash : Type
  [decEq : DecidableEq Hash]
  bytes : Hash → List UInt8
  /-- `[0; blake3::OUT_LEN]` -/
  zero : Hash
  blake3 : List UInt8 → Hash
  bytes_prefixFree : PrefixFree bytes
  bytes_ne_nil : ∀ h, bytes h ≠ []

attribute [instance] Hashing.decEq

theorem Hashing.bytes_injective (H : Hashing) : Function.Injective H.bytes :=
  fun a b h => H.bytes_prefixFree a b (h ▸ prefix_refl _)

namespace Crypto

variable (H : Hashing) (C : Curve)

/-- The scalar `hash_fr` a message is hashed to. -/
def hashFr (message : List UInt8) : C.Fr := C.fromLeBytesModOrder (H.bytes (H.blake3 message))

/-- `hash_to_g1`: the generator times the hash scalar. -/
def hashToG1 (message : List UInt8) : C.G1 := hashFr H C message • C.g1

/-- `BlsSecretKey::public_key` -/
def publicKey (sk : C.Fr) : C.G2 := sk • C.g2

/-- `BlsSecretKey::sign` -/
def sign (sk : C.Fr) (message : List UInt8) : C.G1 := sk • hashToG1 H C message

/-- `BlsPublicKey::verify`: `e(signature, g2) == e(H(message), pk)`. -/
def verify (pk : C.G2) (message : List UInt8) (signature : C.G1) : Bool :=
  decide (C.pairing signature C.g2 = C.pairing (hashToG1 H C message) pk)

/-- `BlsPublicKey::aggregate` -/
def aggregateKeys (publicKeys : List C.G2) : C.G2 := publicKeys.foldl (· + ·) 0

/-- `BlsSignature::aggregate` -/
def aggregateSignatures (signatures : List C.G1) : C.G1 := signatures.foldl (· + ·) 0

/-- `BlsPublicKey::verify_aggregate` -/
def verifyAggregate (publicKeys : List C.G2) (message : List UInt8)
    (aggregatedSignature : C.G1) : Bool :=
  decide (C.pairing aggregatedSignature C.g2 =
    C.pairing (hashToG1 H C message) (aggregateKeys C publicKeys))

/-- `BlsPublicKey::to_peer_id`: the first eight digest bytes of the
compressed key, as a `u64`. -/
def toPeerId (pk : C.G2) : Nat :=
  leNat ((H.bytes (H.blake3 (C.serializeCompressed pk))).take 8)

/-! ## What verification says -/

variable {H C}

theorem aggregateKeys_eq_sum (pks : List C.G2) : aggregateKeys C pks = pks.sum :=
  sum_eq_foldl.symm

theorem aggregateSignatures_eq_sum (sigs : List C.G1) : aggregateSignatures C sigs = sigs.sum :=
  sum_eq_foldl.symm

/-- The check on a key `sk • g2` accepts exactly the signature of `sk`. -/
theorem verify_publicKey_iff (sk : C.Fr) (m : List UInt8) (σ : C.G1) :
    verify H C (publicKey C sk) m σ = true ↔ σ = sign H C sk m := by
  have hpair : C.pairing (hashToG1 H C m) (publicKey C sk) = C.pairing (sign H C sk m) C.g2 := by
    simp only [publicKey, sign, map_smul, LinearMap.smul_apply]
  rw [verify, decide_eq_true_iff, hpair]
  constructor
  · intro h
    have h0 : C.pairing (σ - sign H C sk m) C.g2 = 0 := by
      rw [map_sub, LinearMap.sub_apply, h, sub_self]
    exact sub_eq_zero.mp (C.pairing_g2_injective _ h0)
  · rintro rfl
    rfl

/-- A signature verifies under its own key. -/
theorem verify_sign (sk : C.Fr) (m : List UInt8) :
    verify H C (publicKey C sk) m (sign H C sk m) = true :=
  (verify_publicKey_iff sk m _).mpr rfl

/-- The aggregate of public keys is the public key of the sum. -/
theorem aggregateKeys_publicKey (sks : List C.Fr) :
    aggregateKeys C (sks.map (publicKey C)) = publicKey C sks.sum := by
  rw [aggregateKeys_eq_sum, publicKey, sum_smul]
  rfl

/-- The check on an aggregate of keys accepts exactly the sum of the
signatures, a key that occurs twice counting twice. -/
theorem verify_aggregateKeys_iff (sks : List C.Fr) (m : List UInt8) (σ : C.G1) :
    verify H C (aggregateKeys C (sks.map (publicKey C))) m σ = true ↔
      σ = (sks.map (sign H C · m)).sum := by
  rw [aggregateKeys_publicKey, verify_publicKey_iff, sign, sum_smul]
  rfl

/-- Signatures on one message add up: their sum verifies under the sum of the
keys. -/
theorem verify_aggregate {α : Type} {l : List α} {pk : α → C.G2} {σ : α → C.G1} {m : List UInt8}
    (h : ∀ a ∈ l, verify H C (pk a) m (σ a) = true) :
    verify H C (aggregateKeys C (l.map pk)) m (aggregateSignatures C (l.map σ)) = true := by
  rw [verify, decide_eq_true_iff, aggregateKeys_eq_sum, aggregateSignatures_eq_sum]
  induction l with
  | nil => simp
  | cons a l ih =>
    have hhead := of_decide_eq_true (h a mem_cons_self)
    have htail := ih fun b hb => h b (mem_cons_of_mem _ hb)
    simp only [map_cons, sum_cons, map_add, LinearMap.add_apply, hhead, htail]

end Crypto

end Minimmit
