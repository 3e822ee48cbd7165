/-
Minimmit.Crypto.Threshold — the threshold signatures of the crypto crate
(threshold.rs, polynomial.rs, scalar.rs).

`BlstCurve` is what the crate takes from blst: a prime order with more than 64
bits, the groups as modules over the scalars, hashing to `G1`, the pairing. A
scalar is an element of `ZMod order`, so its arithmetic is that of blst. The
random scalars of a call are given as the sequence of the draws. `aggregate`
is stated twice: on points of `G1`, and on signatures as they arrive
(`aggregatePoints`), where reading the point is what may fail.

`lagrange_coefficient` ends in `expect`: `none` is its panic.
-/
import Mathlib.Algebra.Field.ZMod
import Mathlib.LinearAlgebra.BilinearMap
import Minimmit.Library.Outcome

namespace Minimmit

open Minimmit.Library

/-- The curve as the crate uses it through blst. -/
structure BlstCurve where
  /-- The order of the scalar field and of the groups. -/
  order : Nat
  [prime : Fact order.Prime]
  order_large : 2 ^ 64 ≤ order
  G1 : Type
  G2 : Type
  GT : Type
  [groupG1 : AddCommGroup G1]
  [groupG2 : AddCommGroup G2]
  [groupGT : AddCommGroup GT]
  [moduleG1 : Module (ZMod order) G1]
  [moduleG2 : Module (ZMod order) G2]
  [moduleGT : Module (ZMod order) GT]
  [decEqG2 : DecidableEq G2]
  [decEqGT : DecidableEq GT]
  /-- `blst_p2_generator` -/
  g2 : G2
  g2_ne_zero : g2 ≠ 0
  /-- `blst_hash_to_g1` with the tag `DST` -/
  hashToG1 : List UInt8 → G1
  pairing : G1 →ₗ[ZMod order] G2 →ₗ[ZMod order] GT

attribute [instance] BlstCurve.prime BlstCurve.groupG1 BlstCurve.groupG2 BlstCurve.groupGT
  BlstCurve.moduleG1 BlstCurve.moduleG2 BlstCurve.moduleGT BlstCurve.decEqG2 BlstCurve.decEqGT

namespace Threshold

variable {K : BlstCurve}

/-- `Scalar` -/
abbrev Scalar (K : BlstCurve) : Type := ZMod K.order

/-- `Scalar::from_u64` -/
def fromU64 (value : Nat) : Scalar K := (value : ZMod K.order)

/-- `Scalar::inverse` -/
def inverse (a : Scalar K) : Option (Scalar K) := if a = 0 then none else some a⁻¹

/-- `Scalar::div` -/
def div (a b : Scalar K) : Option (Scalar K) :=
  if b = 0 then none else (inverse b).map fun inv => a * inv

/-! ## Polynomials -/

/-- The coefficients of `Polynomial::random`. -/
def randomCoefficients (degree : Nat) (constantTerm : Scalar K) (rng : Nat → Scalar K) :
    List (Scalar K) :=
  constantTerm :: (List.range degree).map rng

/-- `Polynomial::evaluate`, the method of Horner from the highest coefficient
down. -/
def evaluate (coefficients : List (Scalar K)) (x : Scalar K) : Scalar K :=
  match coefficients.reverse with
  | [] => 0
  | last :: rest => rest.foldl (fun result coeff => result * x + coeff) last

/-! ## Sharing a secret -/

/-- `Share` -/
structure Share (K : BlstCurve) where
  x : Scalar K
  y : Scalar K

/-- `ShamirSharing`, with what `new` asserts of its numbers, which are `usize`
values. -/
structure ShamirSharing where
  threshold : Nat
  totalShares : Nat
  threshold_pos : 0 < threshold
  threshold_le : threshold ≤ totalShares
  fits : totalShares < 2 ^ 64

variable (scheme : ShamirSharing)

/-- `ShamirSharing::split` -/
def split (secret : Scalar K) (rng : Nat → Scalar K) :
    List (Share K) :=
  let poly := randomCoefficients (scheme.threshold - 1) secret rng
  (List.range' 1 scheme.totalShares).map fun i =>
    let x : Scalar K := fromU64 i
    { x, y := evaluate poly x }

/-- The loop of `lagrange_coefficient`: the numerator and the denominator. -/
def lagrangeParts (shares : List (Share K)) (xi : Scalar K) (i : Nat) : Scalar K × Scalar K :=
  shares.zipIdx.foldl (fun (parts : Scalar K × Scalar K) e =>
    if i ≠ e.2 then (parts.1 * e.1.x, parts.2 * (e.1.x - xi)) else parts) (1, 1)

/-- `ShamirSharing::lagrange_coefficient` -/
def lagrangeCoefficient (shares : List (Share K)) (i : Nat) : Option (Scalar K) :=
  match shares[i]? with
  | none => none
  | some share =>
    let parts := lagrangeParts shares share.x i
    div parts.1 parts.2

/-- `ShamirSharing::reconstruct` -/
def reconstruct (shares : List (Share K)) : Option (Scalar K) :=
  if shares.length < scheme.threshold then none
  else
    let sharesToUse := shares.take scheme.threshold
    sharesToUse.zipIdx.foldlM (fun secret e => do
      let lambda ← lagrangeCoefficient sharesToUse e.2
      return secret + e.1.y * lambda) 0

/-! ## Signing -/

/-- `KeyShare` -/
structure KeyShare (K : BlstCurve) where
  id : Nat
  secretScalar : Scalar K
  publicKey : K.G2

/-- `PartialSignature` -/
structure PartialSignature (K : BlstCurve) where
  id : Nat
  signature : K.G1

/-- Why a signature is refused: blst does not read it as a point, or the
point is not in the subgroup. -/
inductive PointError where
  | deserialize
  | notInG1
  deriving DecidableEq, Repr

/-- `anyhow` error of `aggregate` -/
inductive AggregateError where
  | notEnough (got expected : Nat)
  | badPoint (index : Nat) (e : PointError)
  deriving DecidableEq, Repr

/-- `scalar_to_public_key` -/
def scalarToPublicKey (scalar : Scalar K) : K.G2 := scalar • K.g2

/-- `ThresholdBLS::trusted_setup`; the first draw is the master secret. -/
def trustedSetup (rng : Nat → Scalar K) : K.G2 × List (KeyShare K) :=
  let masterScalar := rng 0
  let shares := split scheme masterScalar fun i => rng (i + 1)
  (scalarToPublicKey masterScalar,
    shares.zipIdx.map fun e =>
      { id := e.2 + 1, secretScalar := e.1.y, publicKey := scalarToPublicKey e.1.y })

/-- `ThresholdBLS::partial_sign` -/
def partialSign (keyShare : KeyShare K) (message : List UInt8) : PartialSignature K :=
  { id := keyShare.id, signature := keyShare.secretScalar • K.hashToG1 message }

/-- The signature of a secret scalar on a message. -/
def sign (secret : Scalar K) (message : List UInt8) : K.G1 := secret • K.hashToG1 message

/-- `ThresholdBLS::aggregate` -/
def aggregate (signatures : List (PartialSignature K)) :
    Outcome AggregateError K.G1 :=
  if signatures.length < scheme.threshold then
    .err (.notEnough signatures.length scheme.threshold)
  else
    let sigsToUse := signatures.take scheme.threshold
    let shares : List (Share K) := sigsToUse.map fun ps => { x := fromU64 ps.id, y := 0 }
    match (List.range scheme.threshold).mapM (lagrangeCoefficient shares) with
    | none => .panic
    | some lambdas =>
      .ok ((sigsToUse.zip lambdas).zipIdx.foldl (fun aggregated e =>
        let multiplied := e.1.2 • e.1.1.signature
        if e.2 = 0 then multiplied else aggregated + multiplied) 0)

/-- A partial signature as it arrives: `Raw` is what a `Signature` holds. -/
structure RawSignature (Raw : Type) where
  id : UInt64
  signature : Raw

/-- `ThresholdBLS::aggregate` on signatures as they arrive. The coefficients
are computed before the first signature is read. -/
def aggregatePoints {Raw : Type} (read : Raw → Except PointError K.G1) (scheme : ShamirSharing)
    (signatures : List (RawSignature Raw)) : Outcome AggregateError K.G1 :=
  if signatures.length < scheme.threshold then
    .err (.notEnough signatures.length scheme.threshold)
  else
    let sigsToUse := signatures.take scheme.threshold
    let shares : List (Share K) := sigsToUse.map fun ps => { x := fromU64 ps.id.toNat, y := 0 }
    match (List.range scheme.threshold).mapM (lagrangeCoefficient shares) with
    | none => .panic
    | some lambdas =>
      let aggregated : Except AggregateError K.G1 :=
        (sigsToUse.zip lambdas).zipIdx.foldlM (fun aggregated e => do
          let point ← (read e.1.1.signature).mapError (.badPoint e.2)
          let multiplied := e.1.2 • point
          return if e.2 = 0 then multiplied else aggregated + multiplied) 0
      match aggregated with
      | .ok point => .ok point
      | .error e => .err e

/-- `ThresholdBLS::verify`: blst refuses the public key at infinity, which
`pk_validate` asks for, and checks the pairing. -/
def verify (publicKey : K.G2) (message : List UInt8) (signature : K.G1) : Bool :=
  decide (publicKey ≠ 0) &&
    decide (K.pairing signature K.g2 = K.pairing (K.hashToG1 message) publicKey)

end Threshold

end Minimmit
