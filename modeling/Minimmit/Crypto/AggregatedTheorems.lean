/-
Minimmit.Crypto.AggregatedTheorems — how the signatures of one key on two
messages are related.

`hash_to_g1` multiplies a fixed generator by a scalar anyone can compute,
so the points of two messages are known multiples of each other, and so are
the two signatures of any key. `SignaturesUnrelated` says that no
key-independent factor does this; `hashToG1_smul` is the reason it fails for
every pair of messages.
-/
import Minimmit.Crypto.Sample

namespace Minimmit.Crypto

variable {H : Hashing} {C : Curve}

/-- No factor that depends on the two messages alone turns the signature on
`m₁` of every key into an accepted signature on `m₂`. -/
def SignaturesUnrelated (H : Hashing) (C : Curve) (m₁ m₂ : List UInt8) : Prop :=
  ¬ ∃ c : C.Fr, ∀ sk : C.Fr, verify H C (publicKey C sk) m₂ (c • sign H C sk m₁) = true

/-- The points of two messages differ by the quotient of their scalars. -/
theorem hashToG1_smul {m₁ : List UInt8} (h : hashFr H C m₁ ≠ 0) (m₂ : List UInt8) :
    (hashFr H C m₂ / hashFr H C m₁) • hashToG1 H C m₁ = hashToG1 H C m₂ := by
  rw [hashToG1, hashToG1, smul_smul, div_mul_cancel₀ _ h]

/-- The signature on `m₁` times that quotient is the signature on `m₂`. -/
theorem sign_smul {m₁ : List UInt8} (h : hashFr H C m₁ ≠ 0) (m₂ : List UInt8) (sk : C.Fr) :
    (hashFr H C m₂ / hashFr H C m₁) • sign H C sk m₁ = sign H C sk m₂ := by
  rw [sign, sign, smul_comm, hashToG1_smul h]

/-- **Signatures transfer between all messages.** Whatever the curve, the
hash and the two messages, as soon as the first hash scalar is non-zero
there is a factor, computed from the messages alone, that turns every key's
signature on the first into an accepted signature on the second. -/
theorem verify_transferred_signature (H : Hashing) (C : Curve) (m₁ m₂ : List UInt8)
    (h₁ : hashFr H C m₁ ≠ 0) : ¬ SignaturesUnrelated H C m₁ m₂ := by
  intro hun
  apply hun
  refine ⟨hashFr H C m₂ / hashFr H C m₁, fun sk => ?_⟩
  rw [sign_smul h₁]
  exact verify_sign sk m₂

theorem verify_transferred_signature_sample :
    ¬ SignaturesUnrelated sampleHashing sampleCurve [1] [2] :=
  verify_transferred_signature sampleHashing sampleCurve [1] [2] (by decide +kernel)

/-- The signature on `[1]` times the quotient of the two hash scalars passes
as a signature on `[2]`, for every key of the sample curve. -/
theorem sample_signature_transfers :
    hashFr sampleHashing sampleCurve [1] ≠ hashFr sampleHashing sampleCurve [2] ∧
    hashFr sampleHashing sampleCurve [1] ≠ 0 ∧ hashFr sampleHashing sampleCurve [2] ≠ 0 ∧
    ∃ c : sampleCurve.Fr, ∀ sk : sampleCurve.Fr,
      verify sampleHashing sampleCurve (publicKey sampleCurve sk) [2]
        (c • sign sampleHashing sampleCurve sk [1]) = true := by
  have h₁ : hashFr sampleHashing sampleCurve [1] ≠ 0 := by decide +kernel
  refine ⟨by decide +kernel, h₁, by decide +kernel,
    hashFr sampleHashing sampleCurve [2] / hashFr sampleHashing sampleCurve [1], fun sk => ?_⟩
  rw [sign_smul h₁]
  exact verify_sign sk [2]

end Minimmit.Crypto
