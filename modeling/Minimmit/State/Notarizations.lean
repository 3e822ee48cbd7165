/-
Minimmit.State.Notarizations — the peer set, votes, nullify messages and the
three certificates (state/peer.rs, state/notarizations.rs, state/nullify.rs).

A vote is a signature on the block hash alone; a nullify message is a
signature on the digest of view and leader. `MNotarization` and
`Nullification` list exactly `M_SIZE` signers (the length is a field),
`LNotarization` any number. The three `verify` functions add up the keys of
the listed ids and check ONE signature; an id that is not in the peer set is
a panic for the first two (`none` below) and is skipped by the third.
-/
import Minimmit.State.Block

namespace Minimmit

open Minimmit.Library Crypto

variable {P : Params}

/-! ## The peer set -/

variable (P) in
/-- The validators: the key of every id, and the ids in increasing order. -/
structure PeerSet where
  idToPublicKey : AList (fun _ : Nat => BlsPublicKey P)
  sortedPeerIds : List Nat
  sorted : sortedPeerIds.Pairwise (· ≤ ·)
  nodup : sortedPeerIds.Nodup
  mem_iff : ∀ i, i ∈ sortedPeerIds ↔ i ∈ idToPublicKey

namespace PeerSet

/-- `PeerSet::new`; `none` is the failed assertion on two equal ids. -/
def new (peers : List (BlsPublicKey P)) : Option (PeerSet P) :=
  if h : (peers.map (toPeerId P.hashing P.curve)).Nodup then
    some
      { idToPublicKey := ⟨peers.map fun pk => ⟨toPeerId P.hashing P.curve pk, pk⟩, by
          simpa [List.NodupKeys, List.keys, List.map_map, Function.comp_def] using h⟩
        sortedPeerIds := (peers.map (toPeerId P.hashing P.curve)).insertionSort (· ≤ ·)
        sorted := List.pairwise_insertionSort _ _
        nodup := (List.perm_insertionSort _ _).nodup_iff.mpr h
        mem_iff := fun i => by
          rw [(List.perm_insertionSort _ _).mem_iff, AList.mem_keys]
          simp [AList.keys, List.keys, List.map_map, Function.comp_def] }
  else none

/-- `PeerSet::get_public_key` -/
def getPublicKey (ps : PeerSet P) (peerId : Nat) : Option (BlsPublicKey P) :=
  ps.idToPublicKey.lookup peerId

/-- `PeerSet::contains` -/
def contains (ps : PeerSet P) (peerId : Nat) : Bool := decide (peerId ∈ ps.idToPublicKey)

theorem contains_iff (ps : PeerSet P) (i : Nat) :
    ps.contains i = true ↔ ∃ pk, ps.getPublicKey i = some pk := by
  rw [contains, decide_eq_true_iff, getPublicKey, ← AList.lookup_isSome, Option.isSome_iff_exists]

end PeerSet

/-! ## Votes and nullify messages -/

variable (P) in
structure Vote where
  view : Nat
  blockHash : Hash P
  signature : BlsSignature P
  peerId : Nat
  leaderId : Nat

/-- What `Eq` and `Hash` of a vote look at. -/
def Vote.key (v : Vote P) : Nat × Hash P × Nat := (v.view, v.blockHash, v.peerId)

/-- The bytes a vote or a proposal signs. -/
def blockMessage (h : Hash P) : List UInt8 := P.hashing.bytes h

/-- `Vote::verify` -/
def Vote.verify (v : Vote P) (peerPublicKey : BlsPublicKey P) : Bool :=
  Crypto.verify P.hashing P.curve peerPublicKey (blockMessage v.blockHash) v.signature

variable (P) in
structure Nullify where
  view : Nat
  leaderId : Nat
  signature : BlsSignature P
  peerId : Nat

/-- What `Eq` and `Hash` of a nullify message look at. -/
def Nullify.key (n : Nullify P) : Nat × Nat := (n.view, n.peerId)

variable (P) in
/-- The digest a nullify message signs: `blake3(view ‖ leader_id)`. -/
def nullifyHash (view leaderId : Nat) : Hash P :=
  P.hashing.blake3 (u64Bytes view ++ u64Bytes leaderId)

variable (P) in
/-- The bytes a nullify message signs. -/
def nullifyMessage (view leaderId : Nat) : List UInt8 := P.hashing.bytes (nullifyHash P view leaderId)

/-- `Nullify::verify` -/
def Nullify.verify (n : Nullify P) (publicKey : BlsPublicKey P) : Bool :=
  Crypto.verify P.hashing P.curve publicKey (nullifyMessage P n.view n.leaderId) n.signature

/-! ## Certificates -/

variable (P) in
structure MNotarization where
  view : Nat
  blockHash : Hash P
  aggregatedSignature : BlsSignature P
  peerIds : List Nat
  length_peerIds : peerIds.length = P.mSize
  leaderId : Nat

variable (P) in
structure LNotarization where
  view : Nat
  blockHash : Hash P
  aggregatedSignature : BlsSignature P
  peerIds : List Nat
  height : Nat

variable (P) in
structure Nullification where
  view : Nat
  leaderId : Nat
  aggregatedSignature : BlsSignature P
  peerIds : List Nat
  length_peerIds : peerIds.length = P.mSize

/-- The keys of the listed ids; `none` is the panic of `expect` on an id
outside the peer set. -/
def PeerSet.publicKeys (ps : PeerSet P) (peerIds : List Nat) : Option (List (BlsPublicKey P)) :=
  peerIds.mapM ps.getPublicKey

/-- `MNotarization::verify` -/
def MNotarization.verify (m : MNotarization P) (peerSet : PeerSet P) : Option Bool :=
  (peerSet.publicKeys m.peerIds).map fun publicKeys =>
    Crypto.verify P.hashing P.curve (aggregateKeys P.curve publicKeys) (blockMessage m.blockHash)
      m.aggregatedSignature

/-- `Nullification::verify` -/
def Nullification.verify (n : Nullification P) (peerSet : PeerSet P) : Option Bool :=
  (peerSet.publicKeys n.peerIds).map fun publicKeys =>
    Crypto.verify P.hashing P.curve (aggregateKeys P.curve publicKeys)
      (nullifyMessage P n.view n.leaderId) n.aggregatedSignature

/-- `LNotarization::verify`: unknown ids are skipped, and the number of
listed known ids has to reach `N - F`. -/
def LNotarization.verify (l : LNotarization P) (peerSet : PeerSet P) : Bool :=
  let publicKeys := l.peerIds.filterMap peerSet.getPublicKey
  if publicKeys.length < P.N - P.F then false
  else Crypto.verify P.hashing P.curve (aggregateKeys P.curve publicKeys) (blockMessage l.blockHash)
    l.aggregatedSignature

end Minimmit
