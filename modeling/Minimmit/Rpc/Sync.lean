/-
Minimmit.Rpc.Sync — the block syncer of an RPC node (rpc/src/sync.rs) and the
validator's side of the exchange (p2p/src/service.rs).

An RPC node takes no part in consensus. It asks validators for the finalized
block of a height and keeps what comes back. The answer carries the block
and, optionally, its L-notarization, each as serialized bytes; `Codec` is
what the two sides use of the serialization library. The field called `view`
in a request is a height, as the source notes.

Not modelled: the validators' network keys (they only decide whom a request
goes to), timeouts, and the I/O errors of the database.
-/
import Minimmit.Library.Outcome
import Minimmit.Storage.Store

namespace Minimmit

open Minimmit.Library

variable {P : Params}

variable (P) in
/-- Serialized values, known only by what they are made from and decode to. -/
structure Codec where
  Bytes : Type
  /-- `serialize_for_db(&block)` -/
  blockBytes : Block P → Bytes
  /-- `rkyv::from_bytes::<Block>` -/
  blockFromBytes : Bytes → Option (Block P)
  blockFromBytes_blockBytes : ∀ b, blockFromBytes (blockBytes b) = some b
  /-- `serialize_for_db(&l_notarization)` -/
  lNotarizationBytes : LNotarization P → Bytes
  /-- `rkyv::from_bytes::<LNotarization>` -/
  lNotarizationFromBytes : Bytes → Option (LNotarization P)

variable (P) in
structure BlockRequest where
  view : Nat
  blockHash : Option (Hash P)

inductive BlockResponse (codec : Codec P) where
  | found (blockBytes : codec.Bytes) (lNotarizationBytes : Option codec.Bytes)
  | notFound (view : Nat)
  | hashMismatch (view : Nat) (actualHash : Option (Hash P))

/-- The validator's answer to a request: the block of that height in its
store, with the L-notarization under the hash the block carries. -/
def Store.answer (codec : Codec P) (store : Store P) (request : BlockRequest P) :
    BlockResponse codec :=
  match store.getFinalizedBlockByHeight request.view with
  | some block =>
    .found (codec.blockBytes block)
      ((block.hash.bind store.lNotarizations.lookup).map codec.lNotarizationBytes)
  | none => .notFound request.view

/-! ## The syncer -/

inductive SyncState where
  | discovering
  | syncing (current target : Nat)
  | following (height : Nat)
  deriving DecidableEq, Repr

/-- The state after a block of the given height came in. -/
def SyncState.afterBlock (receivedHeight : Nat) : SyncState → SyncState
  | .discovering => .following receivedHeight
  | .syncing current target =>
    let newCurrent := max receivedHeight current
    if target ≤ newCurrent then .following newCurrent else .syncing newCurrent target
  | .following height =>
    if height < receivedHeight then .following receivedHeight else .following height

inductive SyncError where
  /-- "Failed to deserialize block" -/
  | deserializeBlock
  deriving DecidableEq, Repr

variable (P) in
structure BlockSyncer where
  store : Store P
  state : SyncState
  batchSize : Nat
  peerSet : PeerSet P

namespace BlockSyncer

variable (P) in
abbrev Op (α : Type) : Type := Act (BlockSyncer P) SyncError α

/-- `BlockSyncer::new`; the history of writes starts with the syncer. -/
def new (store : Store P) (peerSet : PeerSet P) (batchSize : Nat) : BlockSyncer P :=
  { store := { store with finalizedWrites := [] }, state := .discovering, batchSize, peerSet }

variable (s : BlockSyncer P)

/-- `local_height` -/
def localHeight : Nat :=
  match s.store.getLatestFinalizedBlock with
  | some block => block.height
  | none => 0

/-- `update_state_after_block` -/
def updateStateAfterBlock (receivedHeight : Nat) : BlockSyncer P :=
  { s with state := s.state.afterBlock receivedHeight }

/-- The L-notarization of a response is kept if it names the block and
verifies; otherwise the response is handled without it. -/
def keepLNotarization (hash : Hash P) (l : LNotarization P) :
    BlockSyncer P :=
  { s with store :=
      if l.blockHash ≠ hash then s.store
      else if ¬ l.verify s.peerSet then s.store
      else s.store.putLNotarization l }

/-- `handle_block_response`: the block is stored as it came, before the
L-notarization is looked at. -/
def handleBlockResponse (codec : Codec P) (response : BlockResponse codec) :
    Op P (Option (Block P)) :=
  match response with
  | .found blockBytes lNotarizationBytes =>
    match codec.blockFromBytes blockBytes with
    | none => Act.throw .deserializeBlock
    | some block => do
      Act.modify fun s => { s with store := s.store.putFinalizedBlock block }
      match lNotarizationBytes.bind codec.lNotarizationFromBytes with
      | some l => Act.modify (·.keepLNotarization block.getHash l)
      | none => pure ()
      Act.modify (·.updateStateAfterBlock block.height)
      pure (some block)
  | .notFound _ => pure none
  | .hashMismatch _ _ => pure none

/-- `next_block_request` -/
def nextBlockRequest : Option (BlockRequest P) :=
  match s.state with
  | .discovering => some { view := 1, blockHash := none }
  | .syncing current target =>
    if current < target then some { view := current + 1, blockHash := none } else none
  | .following height => some { view := height + 1, blockHash := none }

/-- `next_block_requests`: while discovering, height 0; then a batch above
the height reached. -/
def nextBlockRequests : List (BlockRequest P) :=
  match s.state with
  | .discovering => [{ view := 0, blockHash := none }]
  | .syncing current target =>
    if target ≤ current then []
    else
      let start := current + 1
      (List.range' start (min (start + s.batchSize) (target + 1) - start)).map
        ({ view := ·, blockHash := none })
  | .following height =>
    (List.range' (height + 1) s.batchSize).map ({ view := ·, blockHash := none })

/-- A sum of two `u64` values; an overflow is a panic. -/
def addU64 (a b : Nat) : Act (BlockSyncer P) Empty Nat :=
  if a + b < u64Size then pure (a + b) else Act.panic

/-- `next_block_request` on `u64` heights. -/
def tryNextBlockRequest : Act (BlockSyncer P) Empty (Option (BlockRequest P)) := do
  let s ← Act.get
  match s.state with
  | .discovering => return some { view := 1, blockHash := none }
  | .syncing current target =>
    if current < target then return some { view := ← addU64 current 1, blockHash := none }
    else return none
  | .following height => return some { view := ← addU64 height 1, blockHash := none }

/-- `next_block_requests` on `u64` heights. -/
def tryNextBlockRequests : Act (BlockSyncer P) Empty (List (BlockRequest P)) := do
  let s ← Act.get
  match s.state with
  | .discovering => return [{ view := 0, blockHash := none }]
  | .syncing current target =>
    if target ≤ current then return []
    else
      let start ← addU64 current 1
      let full ← addU64 start s.batchSize
      let last ← addU64 target 1
      return (List.range' start (min full last - start)).map ({ view := ·, blockHash := none })
  | .following height =>
    let start ← addU64 height 1
    let full ← addU64 start s.batchSize
    return (List.range' start (full - start)).map ({ view := ·, blockHash := none })

/-- `set_target_height` -/
def setTargetHeight (target : Nat) : BlockSyncer P :=
  let current := s.localHeight
  { s with state := if current < target then .syncing current target else .following current }

end BlockSyncer

end Minimmit
