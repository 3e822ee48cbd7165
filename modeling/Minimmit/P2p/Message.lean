/-
Minimmit.P2p.Message — the wire format of p2p/src/message.rs.

A message arrives as an rkyv archive. Checked access (`WireFormat.access`)
validates the layout of the bytes, and deserializing the archived message then
copies it field by field. A BLS signature is archived as a byte vector, which
the bridge of crypto/conversions.rs decodes; a vector that is no curve point
meets an `expect` there, below the `Result` of `deserialize_message`. An
Ed25519 signature is archived as its 64 bytes and needs no decoding.
-/
import Minimmit.Rpc.ProofTheorems

namespace Minimmit

open Minimmit.Library Option

variable {P : Params} {codec : Codec P}

/-! ## Archived messages -/

section Archived

variable (P)

structure ArchivedBlock where
  leader : Nat
  header : BlockHeader P
  leaderSignature : List UInt8
  transactions : List (Transaction P)
  hash : Option (Hash P)
  isFinalized : Bool
  height : Nat

structure ArchivedVote where
  view : Nat
  blockHash : Hash P
  signature : List UInt8
  peerId : Nat
  leaderId : Nat

structure ArchivedNullify where
  view : Nat
  leaderId : Nat
  signature : List UInt8
  peerId : Nat

structure ArchivedMNotarization where
  view : Nat
  blockHash : Hash P
  aggregatedSignature : List UInt8
  peerIds : List Nat
  length_peerIds : peerIds.length = P.mSize
  leaderId : Nat

structure ArchivedNullification where
  view : Nat
  leaderId : Nat
  aggregatedSignature : List UInt8
  peerIds : List Nat
  length_peerIds : peerIds.length = P.mSize

inductive ArchivedConsensusMessage where
  | blockProposal (block : ArchivedBlock P)
  | vote (vote : ArchivedVote P)
  | nullify (nullify : ArchivedNullify)
  | mNotarization (mNotarization : ArchivedMNotarization P)
  | nullification (nullification : ArchivedNullification P)
  | blockRecoveryRequest (view : Nat) (blockHash : Hash P)
  | blockRecoveryResponse (view : Nat) (block : ArchivedBlock P)

end Archived

/-- `P2PMessage`, over the consensus messages of the archive or the live ones. -/
inductive P2PMessage (codec : Codec P) (Consensus : Type) where
  | consensus (msg : Consensus)
  | transaction (tx : Transaction P)
  | transactionBatch (txs : List (Transaction P))
  | ping (timestamp : Nat)
  | pong (timestamp : Nat)
  | blockRequest (request : BlockRequest P)
  | blockResponse (response : BlockResponse codec)

/-- What the node uses of rkyv and arkworks. -/
structure WireFormat (codec : Codec P) where
  AccessError : Type
  /-- `rkyv::access`, which validates the layout -/
  access : List UInt8 → Except AccessError (P2PMessage codec (ArchivedConsensusMessage P))
  /-- `BlsSignature::deserialize_compressed` -/
  deserializeCompressed : List UInt8 → Option (BlsSignature P)

/-! ## Deserializing -/

namespace WireFormat

variable (W : WireFormat codec)

/-- `ArkSerdeWrapper::deserialize_with` -/
def deserializeWith (field : List UInt8) : Outcome W.AccessError (BlsSignature P) :=
  match W.deserializeCompressed field with
  | some signature => .ok signature
  | none => .panic

def deserializeBlock (b : ArchivedBlock P) : Outcome W.AccessError (Block P) :=
  (W.deserializeWith b.leaderSignature).map fun leaderSignature =>
    { leader := b.leader, header := b.header, leaderSignature, transactions := b.transactions
      hash := b.hash, isFinalized := b.isFinalized, height := b.height }

def deserializeConsensus :
    ArchivedConsensusMessage P → Outcome W.AccessError (ConsensusMessage P)
  | .blockProposal block => (W.deserializeBlock block).map .blockProposal
  | .vote v => (W.deserializeWith v.signature).map fun signature =>
    .vote { view := v.view, blockHash := v.blockHash, signature, peerId := v.peerId
            leaderId := v.leaderId }
  | .nullify n => (W.deserializeWith n.signature).map fun signature =>
    .nullify { view := n.view, leaderId := n.leaderId, signature, peerId := n.peerId }
  | .mNotarization m => (W.deserializeWith m.aggregatedSignature).map fun aggregatedSignature =>
    .mNotarization { view := m.view, blockHash := m.blockHash, aggregatedSignature
                     peerIds := m.peerIds, length_peerIds := m.length_peerIds
                     leaderId := m.leaderId }
  | .nullification n => (W.deserializeWith n.aggregatedSignature).map fun aggregatedSignature =>
    .nullification { view := n.view, leaderId := n.leaderId, aggregatedSignature
                     peerIds := n.peerIds, length_peerIds := n.length_peerIds }
  | .blockRecoveryRequest view blockHash => .ok (.blockRecoveryRequest view blockHash)
  | .blockRecoveryResponse view block =>
    (W.deserializeBlock block).map (.blockRecoveryResponse view)

/-- `deserialize_message`: only a failed access is reported as an error. -/
def deserializeMessage (bytes : List UInt8) :
    Outcome W.AccessError (P2PMessage codec (ConsensusMessage P)) :=
  match W.access bytes with
  | .error e => .err e
  | .ok (.consensus msg) => (W.deserializeConsensus msg).map .consensus
  | .ok (.transaction tx) => .ok (.transaction tx)
  | .ok (.transactionBatch txs) => .ok (.transactionBatch txs)
  | .ok (.ping timestamp) => .ok (.ping timestamp)
  | .ok (.pong timestamp) => .ok (.pong timestamp)
  | .ok (.blockRequest request) => .ok (.blockRequest request)
  | .ok (.blockResponse response) => .ok (.blockResponse response)

end WireFormat

/-! ## When decoding returns -/

/-- The byte vector of the signature in a message, if it carries one. -/
def ArchivedConsensusMessage.signatureBytes : ArchivedConsensusMessage P → Option (List UInt8)
  | .blockProposal block => some block.leaderSignature
  | .vote v => some v.signature
  | .nullify n => some n.signature
  | .mNotarization m => some m.aggregatedSignature
  | .nullification n => some n.aggregatedSignature
  | .blockRecoveryRequest _ _ => none
  | .blockRecoveryResponse _ block => some block.leaderSignature

namespace WireFormat

variable {W : WireFormat codec}

/-- The bytes are the archive of a message with the given signature bytes. -/
def Embeds (W : WireFormat codec) (bytes field : List UInt8) : Prop :=
  ∃ msg, W.access bytes = .ok (.consensus msg) ∧ msg.signatureBytes = some field

theorem deserializeConsensus_of_decodes {msg : ArchivedConsensusMessage P}
    (h : ∀ field ∈ msg.signatureBytes, W.deserializeCompressed field ≠ none) :
    ∃ m, W.deserializeConsensus msg = .ok m := by
  cases msg <;>
    simp only [ArchivedConsensusMessage.signatureBytes, mem_def, some.injEq,
      forall_eq', ne_none_iff_exists'] at h <;>
    first
    | exact ⟨_, rfl⟩
    | obtain ⟨signature, hs⟩ := h
      simp [deserializeConsensus, deserializeBlock, deserializeWith, hs, Outcome.map]

theorem deserializeConsensus_of_malformed {msg : ArchivedConsensusMessage P} {field : List UInt8}
    (hf : msg.signatureBytes = some field) (h : W.deserializeCompressed field = none) :
    W.deserializeConsensus msg = .panic := by
  cases msg <;> cases hf <;>
    simp [deserializeConsensus, deserializeBlock, deserializeWith, h, Outcome.map]

/-- **Decoding returns exactly where every embedded signature decodes.** An
archive that passes the access check with other signature bytes is a panic,
never an error. -/
theorem deserializeMessage_returns_iff (W : WireFormat codec) (bytes : List UInt8) :
    (((∃ m, W.deserializeMessage bytes = .ok m) ∨ ∃ e, W.deserializeMessage bytes = .err e) ∧
      ∀ field, W.Embeds bytes field → W.deserializeCompressed field = none →
        ∃ e, W.deserializeMessage bytes = .err e) ↔
      ∀ field, W.Embeds bytes field → W.deserializeCompressed field ≠ none := by
  constructor
  · rintro ⟨-, herr⟩ field ⟨msg, ha, hf⟩ hnone
    obtain ⟨e, he⟩ := herr field ⟨msg, ha, hf⟩ hnone
    simp [deserializeMessage, ha, deserializeConsensus_of_malformed hf hnone, Outcome.map] at he
  · intro h
    refine ⟨?_, fun field hf hnone => absurd hnone (h field hf)⟩
    unfold deserializeMessage
    split
    case h_2 msg ha =>
      obtain ⟨m, hm⟩ := deserializeConsensus_of_decodes fun field hf => h field ⟨msg, ha, hf⟩
      exact .inl ⟨.consensus m, by simp [hm, Outcome.map]⟩
    all_goals simp

/-- A format in which every string of bytes is the archive of a vote with
these bytes as its signature, and only the empty one is a point. -/
def voteFormat : WireFormat BlockSyncer.sampleCodec where
  AccessError := Empty
  access := fun bytes => .ok (.consensus (.vote
    { view := 1, blockHash := sampleParams.hashing.zero, signature := bytes, peerId := 0
      leaderId := 1 }))
  deserializeCompressed := fun field => if field = [] then some (0 : ZMod 65537) else none

/-- The archive of a vote is well formed, and decoding it is a panic. -/
theorem deserializeMessage_panics :
    voteFormat.Embeds [0] [0] ∧ voteFormat.deserializeMessage [0] = .panic :=
  ⟨⟨_, rfl, rfl⟩, rfl⟩

end WireFormat

/-! ## Serializing -/

/-- The other direction, with what rkyv and arkworks promise about it. -/
structure WireWriter (codec : Codec P) extends WireFormat codec where
  /-- `rkyv::to_bytes` -/
  toBytes : P2PMessage codec (ArchivedConsensusMessage P) → List UInt8
  /-- `BlsSignature::serialize_compressed` -/
  serializeCompressed : BlsSignature P → List UInt8
  access_toBytes : ∀ m, access (toBytes m) = .ok m
  deserialize_serialize : ∀ σ, deserializeCompressed (serializeCompressed σ) = some σ

namespace WireWriter

variable (W : WireWriter codec)

def archiveBlock (b : Block P) : ArchivedBlock P :=
  { b with leaderSignature := W.serializeCompressed b.leaderSignature }

def archiveConsensus : ConsensusMessage P → ArchivedConsensusMessage P
  | .blockProposal block => .blockProposal (W.archiveBlock block)
  | .vote v => .vote { v with signature := W.serializeCompressed v.signature }
  | .nullify n => .nullify { n with signature := W.serializeCompressed n.signature }
  | .mNotarization m => .mNotarization
    { m with aggregatedSignature := W.serializeCompressed m.aggregatedSignature }
  | .nullification n => .nullification
    { n with aggregatedSignature := W.serializeCompressed n.aggregatedSignature }
  | .blockRecoveryRequest view blockHash => .blockRecoveryRequest view blockHash
  | .blockRecoveryResponse view block => .blockRecoveryResponse view (W.archiveBlock block)

/-- `serialize_message` -/
def serializeMessage : P2PMessage codec (ConsensusMessage P) → List UInt8
  | .consensus msg => W.toBytes (.consensus (W.archiveConsensus msg))
  | .transaction tx => W.toBytes (.transaction tx)
  | .transactionBatch txs => W.toBytes (.transactionBatch txs)
  | .ping timestamp => W.toBytes (.ping timestamp)
  | .pong timestamp => W.toBytes (.pong timestamp)
  | .blockRequest request => W.toBytes (.blockRequest request)
  | .blockResponse response => W.toBytes (.blockResponse response)

theorem deserializeConsensus_archive (msg : ConsensusMessage P) :
    W.deserializeConsensus (W.archiveConsensus msg) = .ok msg := by
  cases msg <;>
    simp [archiveConsensus, archiveBlock, WireFormat.deserializeConsensus,
      WireFormat.deserializeBlock, WireFormat.deserializeWith, W.deserialize_serialize, Outcome.map]

end WireWriter

end Minimmit
