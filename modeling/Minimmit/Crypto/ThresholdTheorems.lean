/-
Minimmit.Crypto.ThresholdTheorems — threshold signatures are those of the
master secret.

A share is a value of the polynomial with the secret as its constant
coefficient (`evaluate_eq`), the loop of `lagrange_coefficient` computes the
weight of a node at zero (`lagrangeCoefficient_eq`), and the weighted sum is
the constant coefficient. `reconstruct` takes this sum in the field and
`aggregate` on multiples of the hashed message, so both see the secret for
every choice of at least `threshold` shares, in any order
(`threshold_correct`). Verification needs a secret other than zero.
-/
import Mathlib.NumberTheory.LucasLehmer
import Minimmit.Crypto.Threshold
import Minimmit.Library.Interpolation

namespace Minimmit

open Minimmit.Library List

namespace Threshold

variable {K : BlstCurve}

/-! ## Evaluation and weights -/

/-- The method of Horner computes the value of the polynomial. -/
theorem evaluate_eq (coefficients : List (Scalar K)) (x : Scalar K) :
    evaluate coefficients x = evalCoefficients coefficients x := by
  unfold evaluate evalCoefficients
  rw [foldr_eq_foldl_reverse]
  cases coefficients.reverse with
  | nil => rfl
  | cons last rest =>
    simp only [foldl_cons, mul_zero, add_zero]
    congr 1
    funext result coeff
    ring

/-- The loop before the index `i` is passed takes every share. -/
theorem lagrangeLoop_of_lt (xi : Scalar K) {i k : Nat} (hlt : i < k) (shares : List (Share K))
    (parts : Scalar K × Scalar K) :
    (shares.zipIdx k).foldl (fun (parts : Scalar K × Scalar K) e =>
        if i ≠ e.2 then (parts.1 * e.1.x, parts.2 * (e.1.x - xi)) else parts) parts =
      (parts.1 * (shares.map (·.x)).prod, parts.2 * (shares.map (·.x - xi)).prod) := by
  induction shares generalizing k parts with
  | nil => simp
  | cons share shares ih =>
    rw [zipIdx_cons, foldl_cons, if_pos (Nat.ne_of_lt hlt), ih (Nat.lt_succ_of_lt hlt)]
    simp [mul_assoc]

/-- The loop leaves out the share at the index. -/
theorem lagrangeLoop (xi : Scalar K) (k m : Nat) (shares : List (Share K))
    (parts : Scalar K × Scalar K) :
    (shares.zipIdx k).foldl (fun (parts : Scalar K × Scalar K) e =>
        if k + m ≠ e.2 then (parts.1 * e.1.x, parts.2 * (e.1.x - xi)) else parts) parts =
      (parts.1 * ((shares.eraseIdx m).map (·.x)).prod,
        parts.2 * ((shares.eraseIdx m).map (·.x - xi)).prod) := by
  induction shares generalizing k m parts with
  | nil => simp
  | cons share shares ih =>
    rw [zipIdx_cons, foldl_cons]
    cases m with
    | zero =>
      rw [if_neg (by simp), lagrangeLoop_of_lt xi (by omega)]
      simp
    | succ m =>
      rw [if_pos (by simp), show k + (m + 1) = k + 1 + m by omega, ih]
      simp [mul_assoc]

variable {shares : List (Share K)}

/-- **The coefficient of a share is the weight of its node.** -/
theorem lagrangeCoefficient_eq (hnodup : (shares.map (·.x)).Nodup)
    {i : Nat} {share : Share K} (hi : shares[i]? = some share) :
    lagrangeCoefficient shares i = some (weightAtZero (shares.map (·.x)) share.x) := by
  obtain ⟨hlt, rfl⟩ := List.getElem?_eq_some_iff.mp hi
  have herase : (shares.map (·.x)).erase shares[i].x = (shares.eraseIdx i).map (·.x) := by
    have := hnodup.erase_getElem i (by simpa using hlt)
    rw [getElem_map] at this
    rw [this, eraseIdx_map]
  have hne : ∀ other ∈ shares.eraseIdx i, other.x - shares[i].x ≠ 0 := by
    intro other hother
    have hmem : other.x ∈ (shares.map (·.x)).erase shares[i].x :=
      herase ▸ mem_map_of_mem hother
    exact sub_ne_zero.mpr (hnodup.mem_erase_iff.mp hmem).1
  have hden : ((shares.eraseIdx i).map (·.x - shares[i].x)).prod ≠ 0 := by
    refine prod_ne_zero fun hzero => ?_
    obtain ⟨other, hother, heq⟩ := mem_map.mp hzero
    exact hne other hother heq
  have hloop := lagrangeLoop shares[i].x 0 i shares (1, 1)
  simp only [Nat.zero_add, one_mul] at hloop
  unfold lagrangeCoefficient lagrangeParts
  rw [hi]
  simp only [hloop, div, inverse, hden, if_false, Option.map_some, weightAtZero, herase,
    map_map, Option.some.injEq]
  have hdiv := Multiset.prod_map_div (m := (shares.eraseIdx i : Multiset (Share K)))
    (f := (·.x)) (g := (·.x - shares[i].x))
  simp only [Multiset.map_coe, Multiset.prod_coe] at hdiv
  rw [← div_eq_mul_inv, ← hdiv]
  rfl

/-! ## Sums of weighted values -/

theorem mapM_eq_some {α β : Type} {g : α → Option β} {h : α → β} {l : List α}
    (hg : ∀ a ∈ l, g a = some (h a)) : l.mapM g = some (l.map h) := by
  induction l with
  | nil => rfl
  | cons a l ih =>
    rw [mapM_cons, hg a mem_cons_self, ih fun b hb => hg b (mem_cons_of_mem a hb)]
    rfl

/-- A function of the indices of a list that only looks at the elements. -/
theorem mapM_range_eq_some {α β : Type} {g : Nat → Option β} {h : α → β} {l : List α}
    (hg : ∀ i a, l[i]? = some a → g i = some (h a)) :
    (range l.length).mapM g = some (l.map h) := by
  have hidx : range l.length = l.zipIdx.map (·.2) := by
    rw [zipIdx_map_snd, range_eq_range']
  have hfst : l.map h = l.zipIdx.map fun e => h e.1 := by
    conv_lhs => rw [← zipIdx_map_fst 0 l, map_map]
    rfl
  rw [hidx, mapM_map, hfst]
  exact mapM_eq_some fun e he => hg e.2 e.1 (mem_zipIdx_iff_getElem?.mp he)

/-- The loop of `reconstruct`. -/
theorem reconstructLoop {g : Nat → Option (Scalar K)} {w : Share K → Scalar K} (k : Nat)
    (shares : List (Share K)) (hg : ∀ e ∈ shares.zipIdx k, g e.2 = some (w e.1))
    (secret : Scalar K) :
    (shares.zipIdx k).foldlM (fun secret e => do
        let lambda ← g e.2
        return secret + e.1.y * lambda) secret =
      some (secret + (shares.map fun share => share.y * w share).sum) := by
  induction shares generalizing k secret with
  | nil => simp
  | cons share shares ih =>
    rw [zipIdx_cons] at hg ⊢
    have hhead := hg (share, k) mem_cons_self
    simp only [foldlM_cons, hhead, Option.pure_def, Option.bind_eq_bind, Option.bind_some]
    refine (ih (k + 1) (fun e he => hg e (mem_cons_of_mem _ he)) _).trans ?_
    simp [add_assoc]

/-- The loop of `aggregate` behind the first point. -/
theorem aggregateLoop (terms : List K.G1) (k : Nat) (hk : 0 < k) (aggregated : K.G1) :
    (terms.zipIdx k).foldl (fun aggregated e => if e.2 = 0 then e.1 else aggregated + e.1)
      aggregated = aggregated + terms.sum := by
  induction terms generalizing k aggregated with
  | nil => simp
  | cons term terms ih =>
    rw [zipIdx_cons, foldl_cons, if_neg (Nat.ne_of_gt hk), ih (k + 1) (Nat.succ_pos k)]
    simp [add_assoc]

/-- The loop of `aggregate`. -/
theorem aggregateLoop_zero (pairs : List (PartialSignature K × Scalar K)) :
    pairs.zipIdx.foldl (fun aggregated e =>
        if e.2 = 0 then e.1.2 • e.1.1.signature else aggregated + e.1.2 • e.1.1.signature) 0 =
      (pairs.map fun e => e.2 • e.1.signature).sum := by
  cases pairs with
  | nil => rfl
  | cons pair pairs =>
    have hrest := aggregateLoop (pairs.map fun e => e.2 • e.1.signature) 1 Nat.one_pos
      (pair.2 • pair.1.signature)
    rw [zipIdx_map, foldl_map] at hrest
    rw [zipIdx_cons, foldl_cons, if_pos rfl, map_cons, sum_cons]
    exact hrest

/-! ## Reconstruction -/

variable {scheme : ShamirSharing} {secret : Scalar K} {rng : Nat → Scalar K}

/-- The weighted values of the first `threshold` of distinct nodes add up to
the secret. -/
theorem sum_weights_eq_secret (secret : Scalar K) (rng : Nat → Scalar K)
    {nodes : List (Scalar K)} (hnodup : nodes.Nodup) (hlen : nodes.length = scheme.threshold) :
    (nodes.map fun x => evaluate (randomCoefficients (scheme.threshold - 1) secret rng) x *
      weightAtZero nodes x).sum = secret := by
  simp only [evaluate_eq]
  refine sum_weights_eq_head hnodup secret _ ?_
  have := scheme.threshold_pos
  rw [length_map, length_range]
  omega

theorem split_y {share : Share K} (h : share ∈ split scheme secret rng) :
    share.y = evaluate (randomCoefficients (scheme.threshold - 1) secret rng) share.x := by
  obtain ⟨i, -, rfl⟩ := mem_map.mp h
  rfl

/-- **Any `threshold` distinct shares give the secret back.** -/
theorem reconstruct_split (hshares : ∀ share ∈ shares, share ∈ split scheme secret rng)
    (hnodup : (shares.map (·.x)).Nodup) (hlen : scheme.threshold ≤ shares.length) :
    reconstruct scheme shares = some secret := by
  have hused : ((shares.take scheme.threshold).map (·.x)).Nodup :=
    hnodup.sublist ((take_sublist _ _).map _)
  have hcount : ((shares.take scheme.threshold).map (·.x)).length = scheme.threshold := by
    simp [hlen]
  unfold reconstruct
  rw [if_neg (Nat.not_lt.mpr hlen)]
  dsimp only
  rw [reconstructLoop (w := fun share =>
    weightAtZero ((shares.take scheme.threshold).map (·.x)) share.x) 0 _ ?_ 0]
  · have hsum := sum_weights_eq_secret secret rng hused hcount
    rw [map_map] at hsum
    rw [zero_add, ← hsum]
    refine congrArg (fun l => some (sum l)) (map_congr_left fun share hshare => ?_)
    rw [split_y (hshares share (mem_of_mem_take hshare))]
    rfl
  · intro e he
    exact lagrangeCoefficient_eq hused (mem_zipIdx_iff_getElem?.mp he)

/-! ## Aggregation -/

/-- Identifiers are below the order, so they are different scalars. -/
theorem fromU64_injective {i j : Nat} (hi : i < 2 ^ 64) (hj : j < 2 ^ 64)
    (h : (fromU64 i : Scalar K) = fromU64 j) : i = j := by
  have hmod : i % K.order = j % K.order := (ZMod.natCast_eq_natCast_iff' i j K.order).mp h
  have hle := K.order_large
  rwa [Nat.mod_eq_of_lt (by omega), Nat.mod_eq_of_lt (by omega)] at hmod

/-- What a key share of the setup is. -/
theorem mem_trustedSetup {key : KeyShare K} (h : key ∈ (trustedSetup scheme rng).2) :
    key.id < 2 ^ 64 ∧ key.secretScalar =
      evaluate (randomCoefficients (scheme.threshold - 1) (rng 0) fun i => rng (i + 1))
        (fromU64 key.id) := by
  obtain ⟨⟨share, i⟩, he, rfl⟩ := mem_map.mp h
  have hget := mem_zipIdx_iff_getElem?.mp he
  obtain ⟨hlt, hshare⟩ := List.getElem?_eq_some_iff.mp hget
  have hlen : i < scheme.totalShares := by simpa [split] using hlt
  have hfits := scheme.fits
  refine ⟨by simp only; omega, ?_⟩
  dsimp only at hshare ⊢
  rw [← hshare]
  simp [split, Nat.add_comm]

/-- **The aggregate of any `threshold` partial signatures is the signature of
the master secret.** -/
theorem aggregate_partialSign {keys : List (KeyShare K)}
    (hkeys : ∀ key ∈ keys, key ∈ (trustedSetup scheme rng).2)
    (hnodup : (keys.map (·.id)).Nodup) (hlen : scheme.threshold ≤ keys.length)
    (message : List UInt8) :
    aggregate scheme (keys.map (partialSign · message)) = .ok (sign (rng 0) message) := by
  have hkey : ∀ key ∈ keys.take scheme.threshold, key.id < 2 ^ 64 ∧ key.secretScalar = _ :=
    fun key hmem => mem_trustedSetup (hkeys key (mem_of_mem_take hmem))
  generalize hused : keys.take scheme.threshold = used at hkey
  have hcount : used.length = scheme.threshold := by simp [← hused, hlen]
  -- the nodes are distinct, since the identifiers are
  let nodes : List (Scalar K) := used.map fun key => fromU64 key.id
  have hnodes : nodes.Nodup := by
    have hids : (used.map (·.id)).Nodup :=
      hnodup.sublist (hused ▸ (take_sublist scheme.threshold keys).map _)
    refine Nodup.map_on (fun key hk key' hk' heq => ?_) (Nodup.of_map _ hids)
    exact inj_on_of_nodup_map hids hk hk' (fromU64_injective (hkey key hk).1 (hkey key' hk').1 heq)
  let shares : List (Share K) := used.map fun key => { x := fromU64 key.id, y := 0 }
  have hxs : shares.map (·.x) = nodes := by simp [shares, nodes]
  have hlambdas : (range scheme.threshold).mapM (lagrangeCoefficient shares) =
      some (shares.map fun share => weightAtZero nodes share.x) := by
    have hshares : shares.length = scheme.threshold := by simp [shares, hcount]
    rw [← hshares, ← hxs]
    exact mapM_range_eq_some fun i share hi => lagrangeCoefficient_eq (hxs ▸ hnodes) hi
  have hsum := sum_weights_eq_secret (rng 0) (fun i => rng (i + 1)) hnodes
    ((length_map _).trans hcount)
  unfold aggregate
  rw [length_map, if_neg (Nat.not_lt.mpr hlen), ← map_take, hused]
  dsimp only
  rw [map_map, show (used.map ((fun ps : PartialSignature K => ({ x := fromU64 ps.id, y := 0 } :
    Share K)) ∘ (partialSign · message))) = shares from rfl, hlambdas]
  refine congrArg Outcome.ok ((aggregateLoop_zero _).trans ?_)
  rw [map_map, zip_map', map_map, sign, ← hsum, sum_smul, map_map,
    map_map]
  refine congrArg sum (map_congr_left fun key hmem => ?_)
  simp only [Function.comp_apply, partialSign, (hkey key hmem).2, smul_smul]
  rw [mul_comm]

/-- The signature of a secret verifies under its public key, unless this is
the point at infinity. -/
theorem verify_sign_iff (secret : Scalar K) (message : List UInt8) :
    verify (scalarToPublicKey secret) message (sign secret message) = true ↔ secret ≠ 0 := by
  have hpairing : K.pairing (sign secret message) K.g2 =
      K.pairing (K.hashToG1 message) (scalarToPublicKey secret) := by
    simp [sign, scalarToPublicKey]
  have hkey : scalarToPublicKey secret = (0 : K.G2) ↔ secret = 0 := by
    simp [scalarToPublicKey, K.g2_ne_zero]
  simp [verify, hpairing, hkey]

/-- **The threshold scheme is correct**: shares give the secret back, and
partial signatures the signature of the master secret, which verifies if the
master secret is not zero. -/
theorem threshold_correct (scheme : ShamirSharing) (rng : Nat → Scalar K) :
    (∀ (secret : Scalar K) (shares : List (Share K)),
      (∀ share ∈ shares, share ∈ split scheme secret rng) → (shares.map (·.x)).Nodup →
        scheme.threshold ≤ shares.length → reconstruct scheme shares = some secret) ∧
    ∀ (keys : List (KeyShare K)) (message : List UInt8),
      (∀ key ∈ keys, key ∈ (trustedSetup scheme rng).2) → (keys.map (·.id)).Nodup →
        scheme.threshold ≤ keys.length →
          aggregate scheme (keys.map (partialSign · message)) = .ok (sign (rng 0) message) ∧
          (verify (trustedSetup scheme rng).1 message (sign (rng 0) message) = true ↔
            rng 0 ≠ 0) := by
  refine ⟨fun secret shares hshares hnodup hlen => reconstruct_split hshares hnodup hlen,
    fun keys message hkeys hnodup hlen => ⟨aggregate_partialSign hkeys hnodup hlen message, ?_⟩⟩
  exact verify_sign_iff (rng 0) message

/-! ## Signatures as they arrive -/

section Arrive

variable {Raw : Type} {read : Raw → Except PointError K.G1} {signatures : List (RawSignature Raw)}

/-- Two shares at one node have no coefficient. -/
theorem lagrangeCoefficient_repeated {shares : List (Share K)} {i j : Nat} (hne : j ≠ i)
    {share other : Share K} (hi : shares[i]? = some share) (hj : shares[j]? = some other)
    (hx : other.x = share.x) : lagrangeCoefficient shares i = none := by
  have hmem : other ∈ shares.eraseIdx i := mem_eraseIdx_iff_getElem?.mpr ⟨j, hne, hj⟩
  have hden : ((shares.eraseIdx i).map (·.x - share.x)).prod = 0 :=
    prod_eq_zero (mem_map.mpr ⟨other, hmem, by rw [hx, sub_self]⟩)
  have hloop := lagrangeLoop share.x 0 i shares (1, 1)
  simp only [Nat.zero_add, one_mul] at hloop
  unfold lagrangeCoefficient lagrangeParts
  rw [hi]
  simp only [hloop, hden, div, ↓reduceIte]

theorem isSome_of_mapM {α β : Type} {g : α → Option β} {l : List α} {bs : List β}
    (h : l.mapM g = some bs) : ∀ a ∈ l, g a ≠ none := by
  induction l generalizing bs with
  | nil => simp
  | cons a l ih =>
    simp only [mapM_cons, Option.bind_eq_bind, Option.bind_eq_some_iff] at h
    obtain ⟨b, hb, rest, hrest, -⟩ := h
    intro x hx
    rcases mem_cons.mp hx with rfl | hx
    · simp [hb]
    · exact ih hrest x hx

/-- **The coefficients exist** exactly if the identifiers are distinct. -/
theorem coefficients_iff (used : List (RawSignature Raw)) :
    (∃ lambdas, (range used.length).mapM (lagrangeCoefficient (K := K)
      (used.map fun ps => { x := fromU64 ps.id.toNat, y := 0 })) = some lambdas) ↔
      (used.map (·.id)).Nodup := by
  constructor
  · rintro ⟨lambdas, hsome⟩
    refine nodup_iff_getElem?_ne_getElem?.mpr fun i j hij hj heq => ?_
    rw [length_map] at hj
    obtain ⟨a, ha⟩ : ∃ a, used[i]? = some a := ⟨_, getElem?_eq_getElem (hij.trans hj)⟩
    obtain ⟨b, hb⟩ : ∃ b, used[j]? = some b := ⟨_, getElem?_eq_getElem hj⟩
    simp only [getElem?_map, ha, hb, Option.map_some, Option.some.injEq] at heq
    refine isSome_of_mapM hsome i (mem_range.mpr (hij.trans hj)) ?_
    exact lagrangeCoefficient_repeated hij.ne' (by rw [getElem?_map, ha]; rfl)
      (by rw [getElem?_map, hb]; rfl) (by simp [heq])
  · intro hnodup
    have hnodes : ((used.map fun ps => ({ x := fromU64 ps.id.toNat, y := 0 } : Share K)).map
        (·.x)).Nodup := by
      rw [map_map]
      refine Nodup.map_on (fun a ha b hb heq => ?_) (Nodup.of_map _ hnodup)
      refine inj_on_of_nodup_map hnodup ha hb (UInt64.toNat_inj.mp ?_)
      exact fromU64_injective a.id.toNat_lt b.id.toNat_lt heq
    have hsome := mapM_range_eq_some fun i share hi => lagrangeCoefficient_eq hnodes hi
    rw [length_map] at hsome
    exact ⟨_, hsome⟩

/-- **Aggregation answers**, with a signature only for distinct identifiers,
exactly if there are too few signatures or the first `threshold` of them have
distinct identifiers. -/
theorem aggregate_answers_iff (read : Raw → Except PointError K.G1) (scheme : ShamirSharing)
    (signatures : List (RawSignature Raw)) :
    ((∃ σ, aggregatePoints read scheme signatures = .ok σ ∧
        ((signatures.take scheme.threshold).map (·.id)).Nodup) ∨
      ∃ e, aggregatePoints read scheme signatures = .err e) ↔
    (signatures.length < scheme.threshold ∨
      ((signatures.take scheme.threshold).map (·.id)).Nodup) := by
  unfold aggregatePoints
  by_cases hlen : signatures.length < scheme.threshold
  · simp [hlen]
  · have hcount : (signatures.take scheme.threshold).length = scheme.threshold := by
      rw [List.length_take]
      omega
    have hiff := coefficients_iff (K := K) (signatures.take scheme.threshold)
    rw [hcount] at hiff
    simp only [hlen, if_false, false_or]
    split
    case h_1 hnone =>
      rw [hnone] at hiff
      constructor
      · rintro (⟨σ, h, -⟩ | ⟨e, h⟩) <;> cases h
      · intro hnodup
        obtain ⟨lambdas, h⟩ := hiff.mpr hnodup
        cases h
    case h_2 lambdas hsome =>
      refine iff_of_true ?_ (hiff.mp ⟨lambdas, hsome⟩)
      split
      · exact .inl ⟨_, rfl, hiff.mp ⟨lambdas, hsome⟩⟩
      · exact .inr ⟨_, rfl⟩

end Arrive

/-! ## A curve of prime order -/

instance mersenne_prime : Fact (Nat.Prime (2 ^ 89 - 1)) :=
  ⟨lucas_lehmer_sufficiency 89 (by decide) (by norm_num)⟩

/-- The scalars paired with themselves by multiplication. -/
def sampleBlstCurve : BlstCurve where
  order := 2 ^ 89 - 1
  order_large := by norm_num
  G1 := ZMod (2 ^ 89 - 1)
  G2 := ZMod (2 ^ 89 - 1)
  GT := ZMod (2 ^ 89 - 1)
  g2 := 1
  g2_ne_zero := one_ne_zero
  hashToG1 := fun message => (message.length + 1 : Nat)
  pairing := LinearMap.mul _ _

/-- Two of three. -/
def twoOfThree : ShamirSharing where
  threshold := 2
  totalShares := 3
  threshold_pos := by decide
  threshold_le := by decide
  fits := by decide

/-- The third and the first key share. -/
def thirdAndFirst (rng : Nat → Scalar sampleBlstCurve) : List (KeyShare sampleBlstCurve) :=
  ((trustedSetup twoOfThree rng).2.take 1 ++ (trustedSetup twoOfThree rng).2.drop 2).reverse

theorem thirdAndFirst_mem (rng : Nat → Scalar sampleBlstCurve) :
    ∀ key ∈ thirdAndFirst rng, key ∈ (trustedSetup twoOfThree rng).2 := by
  intro key hkey
  rcases mem_append.mp (mem_reverse.mp hkey) with h | h
  · exact mem_of_mem_take h
  · exact mem_of_mem_drop h

theorem thirdAndFirst_ids (rng : Nat → Scalar sampleBlstCurve) :
    (thirdAndFirst rng).map (·.id) = [3, 1] := rfl

/-- The third and the first of three sign for the master secret 5, and the
signature verifies. -/
theorem two_of_three_sign :
    aggregate twoOfThree ((thirdAndFirst fun i => (i + 5 : Nat)).map (partialSign · [])) =
        .ok (sign ((5 : Nat) : Scalar sampleBlstCurve) []) ∧
      verify (trustedSetup twoOfThree fun i => ((i + 5 : Nat) : Scalar sampleBlstCurve)).1 []
        (sign ((5 : Nat) : Scalar sampleBlstCurve) []) = true := by
  obtain ⟨haggregate, hverify⟩ :=
    (threshold_correct twoOfThree fun i => ((i + 5 : Nat) : Scalar sampleBlstCurve)).2 _ []
      (thirdAndFirst_mem _) (by rw [thirdAndFirst_ids]; decide) (Nat.le_refl _)
  exact ⟨haggregate, hverify.mpr (by decide +kernel)⟩

/-- Two partial signatures with one identifier. -/
theorem repeated_id_panics :
    aggregatePoints (K := sampleBlstCurve) .ok twoOfThree [⟨1, sign 5 []⟩, ⟨1, sign 5 []⟩] =
      .panic := rfl

/-- With the master secret 0 the aggregate is refused. -/
theorem zero_secret_refused :
    ∃ σ, aggregate twoOfThree ((thirdAndFirst fun i => (i : Nat)).map (partialSign · [])) = .ok σ ∧
      verify (trustedSetup twoOfThree fun i => ((i : Nat) : Scalar sampleBlstCurve)).1 [] σ =
        false := by
  refine ⟨_, aggregate_partialSign (thirdAndFirst_mem _) (by rw [thirdAndFirst_ids]; decide)
    (Nat.le_refl _) [], ?_⟩
  refine Bool.eq_false_iff.mpr fun h => ?_
  exact (verify_sign_iff _ []).mp h (by simp)

end Threshold

end Minimmit
