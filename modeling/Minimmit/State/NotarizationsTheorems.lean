/-
Minimmit.State.NotarizationsTheorems — what an accepted certificate proves.

`Sound` is the promise of each certificate, over every signature and every
set of owners that may have signed: if `verify` accepts, a quorum of
DIFFERENT peers of the set signed the certified message. Under the symbolic
assumptions every listed peer signed, so the promise is kept exactly by the
id lists that name a quorum of different peers. `verify` itself never looks
for repetitions, and `nullification_by_one_signer` is the certificate one
peer makes alone.
-/
import Mathlib.Algebra.Polynomial.Basis
import Mathlib.FieldTheory.RatFunc.AsPolynomial
import Minimmit.Crypto.Symbolic
import Minimmit.State.Sample

namespace Minimmit

open Minimmit.Library Crypto List

variable {P : Params}

/-- At least `q` different peers of the set signed. -/
def QuorumSigned (ps : PeerSet P) (signed : Nat → Prop) (q : Nat) : Prop :=
  ∃ S : Finset Nat, (∀ i ∈ S, ps.contains i = true ∧ signed i) ∧ q ≤ S.card

/-- The secret keys behind a peer set. -/
structure PeerKeys (ps : PeerSet P) (K : Type) [Field K] [Algebra K P.curve.Fr] extends
    KeyRing P.curve {i | ps.contains i = true} K where
  publicKey_eq : ∀ i pk, ps.getPublicKey i = some pk → pk = publicKey P.curve (secret i)

section Soundness

variable {K : Type} [Field K] [Algebra K P.curve.Fr] {ps : PeerSet P} {i : Nat} {ids : List Nat}
  {message : List UInt8} {accepts : BlsSignature P → Prop}

/-- A list of ids and a check keep the promise of a quorum of `q`. -/
def Promise (R : PeerKeys ps K) (message : List UInt8) (accepts : BlsSignature P → Prop)
    (q : Nat) : Prop :=
  ∀ (σ : BlsSignature P) (signed : Nat → Prop),
    R.Obtainable P.hashing signed message σ → accepts σ → QuorumSigned ps signed q

/-- Acceptance of an M-notarization promises `2F + 1` signers. -/
def MNotarization.Sound (m : MNotarization P) (R : PeerKeys ps K) : Prop :=
  Promise R (blockMessage m.blockHash)
    (fun σ => MNotarization.verify { m with aggregatedSignature := σ } ps = some true)
    (2 * P.F + 1)

/-- Acceptance of a nullification promises `2F + 1` signers. -/
def Nullification.Sound (n : Nullification P) (R : PeerKeys ps K) : Prop :=
  Promise R (nullifyMessage P n.view n.leaderId)
    (fun σ => Nullification.verify { n with aggregatedSignature := σ } ps = some true)
    (2 * P.F + 1)

/-- Acceptance of an L-notarization promises `N - F` signers. -/
def LNotarization.Sound (l : LNotarization P) (R : PeerKeys ps K) : Prop :=
  Promise R (blockMessage l.blockHash)
    (fun σ => LNotarization.verify { l with aggregatedSignature := σ } ps = true) (P.N - P.F)

/-! ## The keys of the listed ids -/

theorem getPublicKey_eq_some (R : PeerKeys ps K) (h : ps.contains i = true) :
    ps.getPublicKey i = some (publicKey P.curve (R.secret i)) := by
  obtain ⟨pk, hpk⟩ := (ps.contains_iff i).mp h
  rw [hpk, R.publicKey_eq i pk hpk]

theorem getPublicKey_eq_none (h : ps.contains i = false) : ps.getPublicKey i = none := by
  rcases hk : ps.getPublicKey i with _ | pk
  · rfl
  · rw [(ps.contains_iff i).mpr ⟨pk, hk⟩] at h
    cases h

/-- With every id known, the keys are those of the secrets. -/
theorem publicKeys_eq_some (R : PeerKeys ps K) (h : ∀ i ∈ ids, ps.contains i = true) :
    ps.publicKeys ids = some ((ids.map R.secret).map (publicKey P.curve)) := by
  induction ids with
  | nil => rfl
  | cons i ids ih =>
    have hi := getPublicKey_eq_some R (h i (by simp))
    have ht := ih fun j hj => h j (by simp [hj])
    simp only [PeerSet.publicKeys] at ht ⊢
    simp [hi, ht]

/-- One unknown id is a panic. -/
theorem publicKeys_eq_none (hi : i ∈ ids) (h : ps.contains i = false) :
    ps.publicKeys ids = none := by
  induction ids with
  | nil => cases hi
  | cons j ids ih =>
    simp only [PeerSet.publicKeys, mapM_cons] at ih ⊢
    rcases mem_cons.mp hi with rfl | hi
    · rw [getPublicKey_eq_none h]
      rfl
    · rcases hj : ps.getPublicKey j with _ | pk
      · rfl
      · simp [ih hi]

/-- Skipping unknown ids leaves the keys of the known ones. -/
theorem filterMap_getPublicKey (R : PeerKeys ps K) (ids : List Nat) :
    ids.filterMap ps.getPublicKey =
      (((ids.filter ps.contains).map R.secret).map (publicKey P.curve)) := by
  induction ids with
  | nil => rfl
  | cons i ids ih =>
    rcases hi : ps.contains i with _ | _
    · simp [getPublicKey_eq_none hi, hi, ih]
    · simp [getPublicKey_eq_some R hi, hi, ih]

/-! ## Listed ids and different signers -/

/-- A list that names a quorum of different peers keeps the promise. -/
theorem promise_of_card (R : PeerKeys ps K) {q : Nat} (hm : hashFr P.hashing P.curve message ≠ 0)
    (hknown : ∀ i ∈ ids, ps.contains i = true) (hcount : ∀ i ∈ ids, (ids.count i : K) ≠ 0)
    (hacc : ∀ σ, accepts σ → verify P.hashing P.curve
      (aggregateKeys P.curve ((ids.map R.secret).map (publicKey P.curve))) message σ = true)
    (hq : q ≤ ids.toFinset.card) : Promise R message accepts q := by
  intro σ signed hσ hv
  refine ⟨ids.toFinset, fun i hi => ?_, hq⟩
  have hi' := mem_toFinset.mp hi
  exact ⟨hknown i hi',
    signed_of_verify R.toKeyRing hm hknown hσ (hacc σ hv) (hcount i hi')⟩

/-- A kept promise means the list names a quorum: if exactly the listed
peers signed, nobody else can make up the number. -/
theorem card_of_promise (R : PeerKeys ps K) {q : Nat} (hknown : ∀ i ∈ ids, ps.contains i = true)
    (hacc : ∀ σ, verify P.hashing P.curve
      (aggregateKeys P.curve ((ids.map R.secret).map (publicKey P.curve))) message σ = true →
      accepts σ) (h : Promise R message accepts q) : q ≤ ids.toFinset.card := by
  obtain ⟨hobt, hver⟩ := verify_of_listed (H := P.hashing) R.toKeyRing hknown message
  obtain ⟨S, hS, hq⟩ := h _ _ hobt (hacc _ hver)
  exact hq.trans (Finset.card_le_card fun i hi => mem_toFinset.mpr (hS i hi).2)

/-- The two fixed-size certificates: the promise is kept exactly when the
ids are pairwise different or the check panics on an unknown id. -/
theorem promise_fixed_iff (R : PeerKeys ps K) (hlen : ids.length = 2 * P.F + 1)
    (hm : hashFr P.hashing P.curve message ≠ 0) :
    Promise R message (fun σ => ((ps.publicKeys ids).map fun pks =>
        verify P.hashing P.curve (aggregateKeys P.curve pks) message σ) = some true)
      (2 * P.F + 1) ↔ ids.Nodup ∨ ∃ i ∈ ids, ps.contains i = false := by
  by_cases hknown : ∀ i ∈ ids, ps.contains i = true
  · have hnone : ¬ ∃ i ∈ ids, ps.contains i = false := by
      rintro ⟨i, hi, hf⟩
      rw [hknown i hi] at hf
      cases hf
    rw [publicKeys_eq_some R hknown, or_iff_left hnone]
    constructor
    · intro h
      have hcard := card_of_promise R hknown (fun σ hσ => by simpa using hσ) h
      have heq : ids.toFinset.card = ids.length :=
        le_antisymm (toFinset_card_le ids) (hlen ▸ hcard)
      exact Multiset.coe_nodup.mp (Multiset.toFinset_card_eq_card_iff_nodup.mp heq)
    · intro hnd
      refine promise_of_card R hm hknown (fun i hi => ?_) (fun σ hσ => by simpa using hσ) ?_
      · rw [count_eq_one_of_mem hnd hi]
        simp
      · rw [toFinset_card_of_nodup hnd, hlen]
  · push Not at hknown
    obtain ⟨i, hi, hf⟩ := hknown
    have hf' : ps.contains i = false := by simpa using hf
    refine iff_of_true (fun σ signed _ hv => ?_) (Or.inr ⟨i, hi, hf'⟩)
    rw [publicKeys_eq_none hi hf'] at hv
    cases hv

/-- The L-notarization: fewer than `N - F` known ids are refused, and
otherwise the known ids have to name `N - F` different peers. -/
theorem lNotarization_sound_iff (R : PeerKeys ps K) (l : LNotarization P)
    (hm : hashFr P.hashing P.curve (blockMessage l.blockHash) ≠ 0)
    (horder : ∀ k, 0 < k → k ≤ l.peerIds.length → (k : K) ≠ 0) :
    l.Sound R ↔ (l.peerIds.filter ps.contains).length < P.N - P.F ∨
      P.N - P.F ≤ (l.peerIds.filter ps.contains).toFinset.card := by
  have hknown : ∀ i ∈ l.peerIds.filter ps.contains, ps.contains i = true :=
    fun i hi => (mem_filter.mp hi).2
  by_cases hlen : (l.peerIds.filter ps.contains).length < P.N - P.F
  · refine iff_of_true (fun σ signed _ hv => ?_) (Or.inl hlen)
    simp only [LNotarization.verify, filterMap_getPublicKey R, length_map, hlen,
      if_true] at hv
    cases hv
  · rw [or_iff_right hlen]
    have hacc : ∀ σ, LNotarization.verify { l with aggregatedSignature := σ } ps = true ↔
        verify P.hashing P.curve (aggregateKeys P.curve
          (((l.peerIds.filter ps.contains).map R.secret).map (publicKey P.curve)))
          (blockMessage l.blockHash) σ = true := by
      intro σ
      rw [LNotarization.verify]
      simp only [filterMap_getPublicKey R, length_map, hlen, if_false]
    constructor
    · exact card_of_promise R hknown fun σ hσ => (hacc σ).mpr hσ
    · refine promise_of_card R hm hknown (fun i hi => ?_) fun σ hσ => (hacc σ).mp hσ
      exact horder _ (count_pos_iff.mpr hi) (count_le_length.trans (length_filter_le _ _))

/-- **Certificate soundness is exactly distinctness of the listed ids.** With
`M_SIZE = 2F + 1`, an M-notarization or nullification promises `2F + 1`
signers if and only if its ids are pairwise different (or the check panics
on one), an L-notarization promises `N - F` signers if and only if its known
ids are too few to be accepted or name `N - F` different peers. -/
theorem certificate_sound_iff (hM : P.mSize = 2 * P.F + 1) (R : PeerKeys ps K) :
    (∀ m : MNotarization P, hashFr P.hashing P.curve (blockMessage m.blockHash) ≠ 0 →
      (m.Sound R ↔ m.peerIds.Nodup ∨ ∃ i ∈ m.peerIds, ps.contains i = false)) ∧
    (∀ n : Nullification P, hashFr P.hashing P.curve (nullifyMessage P n.view n.leaderId) ≠ 0 →
      (n.Sound R ↔ n.peerIds.Nodup ∨ ∃ i ∈ n.peerIds, ps.contains i = false)) ∧
    (∀ l : LNotarization P, hashFr P.hashing P.curve (blockMessage l.blockHash) ≠ 0 →
      (∀ k, 0 < k → k ≤ l.peerIds.length → (k : K) ≠ 0) →
      (l.Sound R ↔ (l.peerIds.filter ps.contains).length < P.N - P.F ∨
        P.N - P.F ≤ (l.peerIds.filter ps.contains).toFinset.card)) :=
  ⟨fun m hm => promise_fixed_iff R (m.length_peerIds.trans hM) hm,
    fun n hm => promise_fixed_iff R (n.length_peerIds.trans hM) hm,
    fun l hm horder => lNotarization_sound_iff R l hm horder⟩

end Soundness

/-! ## A curve whose keys are independent -/

/-- The groups are the rational functions over `ℚ`: the variable stands for
a secret, the constants for the scalars anyone can compute with. -/
noncomputable def symbolicCurve : Curve :=
  letI := Classical.decEq (RatFunc ℚ)
  { Fr := RatFunc ℚ
    G1 := RatFunc ℚ
    G2 := RatFunc ℚ
    GT := RatFunc ℚ
    g1 := 1
    g2 := 1
    pairing := LinearMap.mul (RatFunc ℚ) (RatFunc ℚ)
    pairing_g2_injective := fun x h => by simpa using h
    g1_ne_zero := one_ne_zero
    fromLeBytesModOrder := fun bs => (leNat bs : RatFunc ℚ)
    serializeCompressed := fun _ => [] }

noncomputable instance : Algebra ℚ symbolicCurve.Fr := inferInstanceAs (Algebra ℚ (RatFunc ℚ))

theorem linearIndependent_X_pow : LinearIndependent ℚ fun i : ℕ => (RatFunc.X : RatFunc ℚ) ^ i := by
  have hpoly := (Polynomial.basisMonomials ℚ).linearIndependent
  have hker : LinearMap.ker (IsScalarTower.toAlgHom ℚ (Polynomial ℚ) (RatFunc ℚ)).toLinearMap = ⊥ :=
    LinearMap.ker_eq_bot.mpr (IsFractionRing.injective (Polynomial ℚ) (RatFunc ℚ))
  have hfun : (IsScalarTower.toAlgHom ℚ (Polynomial ℚ) (RatFunc ℚ)).toLinearMap ∘
      Polynomial.basisMonomials ℚ = fun i : ℕ => (RatFunc.X : RatFunc ℚ) ^ i := by
    funext i
    simp [Polynomial.coe_basisMonomials, ← Polynomial.X_pow_eq_monomial]
  rw [← hfun]
  exact hpoly.map' _ hker

/-- Six replicas over the symbolic curve. -/
noncomputable def symbolicParams : Params := paramsOver symbolicCurve

/-- Their secret keys are the powers of the variable. -/
noncomputable def symbolicSecret (i : Nat) : BlsSecretKey symbolicParams :=
  (RatFunc.X : RatFunc ℚ) ^ i

noncomputable def symbolicPeers : PeerSet symbolicParams := peersWith 6 symbolicSecret

noncomputable instance : Algebra ℚ symbolicParams.curve.Fr :=
  inferInstanceAs (Algebra ℚ (RatFunc ℚ))

instance : CharZero symbolicParams.curve.Fr := inferInstanceAs (CharZero (RatFunc ℚ))

noncomputable def symbolicKeys : PeerKeys symbolicPeers ℚ where
  secret := symbolicSecret
  independent := linearIndependent_X_pow.linearIndepOn _
  publicKey_eq := fun _ _ h => peersWith_getPublicKey h

theorem symbolic_hashFr_ne_zero {m : List UInt8}
    (h : leNat (sampleHashing.bytes (sampleHashing.blake3 m)) ≠ 0) :
    hashFr symbolicParams.hashing symbolicParams.curve m ≠ 0 :=
  Nat.cast_ne_zero.mpr h

theorem symbolicPeers_contains_iff (i : Nat) : symbolicPeers.contains i = true ↔ i < 6 := by
  rw [PeerSet.contains, decide_eq_true_iff, ← symbolicPeers.mem_iff]
  exact mem_range

/-- A nullification of view 1 that lists the given ids. -/
noncomputable def symbolicNullification (ids : List Nat) (h : ids.length = 3)
    (σ : BlsSignature symbolicParams) : Nullification symbolicParams :=
  { view := 1, leaderId := 1, aggregatedSignature := σ, peerIds := ids, length_peerIds := h }

theorem symbolic_message_ne_zero :
    hashFr symbolicParams.hashing symbolicParams.curve (nullifyMessage symbolicParams 1 1) ≠ 0 :=
  symbolic_hashFr_ne_zero (by decide +kernel)

theorem certificate_sound_iff_symbolic :
    (symbolicNullification [0, 1, 2] rfl 0).Sound symbolicKeys ∧
    ¬ (symbolicNullification [0, 0, 0] rfl 0).Sound symbolicKeys := by
  obtain ⟨-, hsound, -⟩ := certificate_sound_iff (P := symbolicParams) rfl symbolicKeys
  constructor
  · exact (hsound (symbolicNullification [0, 1, 2] rfl 0) symbolic_message_ne_zero).mpr
      (Or.inl (show [0, 1, 2].Nodup by decide))
  · intro h
    rcases (hsound (symbolicNullification [0, 0, 0] rfl 0) symbolic_message_ne_zero).mp h with
      hnd | ⟨i, hi, hf⟩
    · exact absurd (show [0, 0, 0].Nodup from hnd) (by decide)
    · have hi' : i ∈ [0, 0, 0] := hi
      have hlt : i < 6 := by simp at hi'; omega
      rw [(symbolicPeers_contains_iff i).mpr hlt] at hf
      cases hf

/-- The sum of replica `0`'s signature on `m` taken three times. -/
noncomputable def thriceSigned (m : List UInt8) : BlsSignature symbolicParams :=
  (([0, 0, 0].map symbolicKeys.secret).map
    (sign symbolicParams.hashing symbolicParams.curve · m)).sum

/-- **One peer makes a nullification alone.** The ids `0, 0, 0` with three
times replica `0`'s signature are accepted although nobody else signed. -/
theorem nullification_by_one_signer :
    symbolicKeys.Obtainable symbolicParams.hashing (· = 0) (nullifyMessage symbolicParams 1 1)
      (thriceSigned (nullifyMessage symbolicParams 1 1)) ∧
    (symbolicNullification [0, 0, 0] rfl
      (thriceSigned (nullifyMessage symbolicParams 1 1))).verify symbolicPeers = some true ∧
    ¬ QuorumSigned symbolicPeers (· = 0) (2 * symbolicParams.F + 1) := by
  have hknown : ∀ i ∈ [0, 0, 0], symbolicPeers.contains i = true :=
    fun i hi => (symbolicPeers_contains_iff i).mpr (by simp at hi; omega)
  obtain ⟨hobt, hver⟩ := verify_of_listed (H := symbolicParams.hashing) symbolicKeys.toKeyRing
    hknown (nullifyMessage symbolicParams 1 1)
  refine ⟨?_, ?_, ?_⟩
  · have hset : (fun i => i ∈ [0, 0, 0]) = (· = 0) := by funext i; simp
    rw [← hset]
    exact hobt
  · rw [Nullification.verify]
    simp only [symbolicNullification, publicKeys_eq_some symbolicKeys hknown, Option.map_some]
    exact congrArg some hver
  · rintro ⟨S, hS, hcard⟩
    have hsub : S ⊆ {0} := fun i hi => Finset.mem_singleton.mpr (hS i hi).2
    have hle := Finset.card_le_card hsub
    have hF : symbolicParams.F = 1 := rfl
    rw [Finset.card_singleton] at hle
    omega

end Minimmit
