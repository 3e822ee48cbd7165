/-
Minimmit.State.Sample — a network of six replicas over the sample curve.

Replica `i` has the id `i` and the secret key `i + 1`. One of the six may be
faulty, so M-notarizations and nullifications list three signers and a block
is final with five. Ed25519 is modelled by its ideal: a signature is the
pair of its signer and its message.
-/
import Minimmit.Crypto.Sample
import Minimmit.State.Notarizations

namespace Minimmit

open Minimmit.Library Crypto

/-- Ideal Ed25519: the signature names its signer and message. -/
def sampleEd25519 : Ed25519 where
  Address := BitVec 256
  Signature := BitVec 256 × List UInt8
  addressBytes := fun a => leBytes 32 a.toNat
  addressBytes_length := fun _ => leBytes_length 32 _
  addressBytes_injective := fun a b h =>
    BitVec.eq_of_toNat_eq (leBytes_inj (k := 32) a.isLt b.isLt h)
  isPublicKey := fun _ => true
  verify := fun a m s => decide (s = (a, m))
  verifyBatch := fun l => l.all fun e => decide (e.2.1 = (e.2.2, e.1))

/-- Six replicas, one of them faulty, over a given curve. -/
def paramsOver (C : Curve) : Params where
  N := 6
  F := 1
  mSize := 3
  hashing := sampleHashing
  curve := C
  ed25519 := sampleEd25519
  hashOrder := HashOrder.insertion

/-- The peer set with ids `0` to `n - 1` and the given secret keys. -/
def peersWith {P : Params} (n : Nat) (secret : Nat → BlsSecretKey P) : PeerSet P where
  idToPublicKey := ⟨(List.range n).map fun i => ⟨i, publicKey P.curve (secret i)⟩, by
    simpa [List.NodupKeys, List.keys, List.map_map, Function.comp_def] using List.nodup_range⟩
  sortedPeerIds := List.range n
  sorted := List.pairwise_le_range
  nodup := List.nodup_range
  mem_iff := fun i => by
    rw [AList.mem_keys]
    simp [AList.keys, List.keys, List.map_map, Function.comp_def]

theorem peersWith_getPublicKey {P : Params} {n : Nat} {secret : Nat → BlsSecretKey P} {i : Nat}
    {pk : BlsPublicKey P} (h : (peersWith n secret).getPublicKey i = some pk) :
    pk = publicKey P.curve (secret i) := by
  have hm := AList.mem_lookup_iff.mp (Option.mem_def.mpr h)
  simp only [peersWith, List.mem_map, List.mem_range, Sigma.mk.injEq] at hm
  obtain ⟨j, -, rfl, hpk⟩ := hm
  exact (eq_of_heq hpk).symm

/-- The sample network. -/
def sampleParams : Params := paramsOver sampleCurve

/-- The secret key of replica `i`. -/
def sampleSecret (i : Nat) : BlsSecretKey sampleParams := ((i + 1 : Nat) : ZMod 65537)

/-- The six validators. -/
def samplePeers : PeerSet sampleParams := peersWith 6 sampleSecret

/-- A few addresses. -/
def sampleAddress (i : Nat) : Address sampleParams := BitVec.ofNat 256 i

/-- The transaction its sender signs, with the hash of its content. -/
def signedTransaction (sender : Address sampleParams)
    (instruction : TransactionInstruction sampleParams) (nonce fee : Nat) :
    Transaction sampleParams :=
  let tx : Transaction sampleParams :=
    { sender, instruction, nonce, timestamp := 0, fee, txHash := sampleParams.hashing.zero,
      signature := (sender, []) }
  { tx with
    txHash := tx.computeHash
    signature := (sender, sampleParams.hashing.bytes tx.computeHash) }

theorem signedTransaction_txHash (sender : Address sampleParams)
    (instruction : TransactionInstruction sampleParams) (nonce fee : Nat) :
    (signedTransaction sender instruction nonce fee).txHash =
      (signedTransaction sender instruction nonce fee).computeHash := by
  simp only [signedTransaction, Transaction.computeHash]

/-- A block of view 1 with these transactions; only they matter to
validation. -/
def blockOf (transactions : List (Transaction sampleParams)) : Block sampleParams :=
  { leader := 1, header := { view := 1, parentBlockHash := sampleParams.hashing.zero, timestamp := 0 }
    leaderSignature := (0 : ZMod 65537), transactions, hash := none, isFinalized := false, height := 1 }

end Minimmit
