/-
Minimmit.Consensus.Finalization — `finalize_with_l_notarization` and what it
persists (consensus_manager/view_chain.rs).

The checks come first and may end the call with an error or, when a block is
missing, silently with `Ok`. Then the canonical views are found by walking
parent hashes through the held contexts; the walk stops wherever a lookup
fails. Last, every view from the oldest held one up to the finalized one is
taken out of the map and persisted: canonical views as finalized, the others
as nullified, except those that are retained because their block is missing.

A walk that meets a view twice never ends in the source; here it is the
outcome `exhausted`.
-/
import Minimmit.Consensus.ViewChain

namespace Minimmit

open Minimmit.Library

variable {P : Params}

/-! ## Persisting one view -/

/-- An operation on the writer. -/
abbrev WriterOp (P : Params) (α : Type) : Type := Act (PendingStateWriter P) (ConsensusError P) α

/-- A database write. -/
def writeStore (f : Store P → Store P) : WriterOp P Unit := Act.modify (·.onStore f)

variable (c : ViewContext P)

/-- The metadata every persist function writes: leader, view record and
votes; an unknown leader is a panic. -/
def persistMetadata (peers : PeerSet P) (isCurrent nullified : Bool) :
    WriterOp P Unit := do
  writeStore (·.putLeader c.viewNumber c.leaderId)
  match peers.getPublicKey c.leaderId with
  | none => Act.panic
  | some leader => do
    writeStore (·.putView c.viewNumber { leader, isCurrent, nullified })
    writeStore (·.putVotes (P.hashOrder.apply c.replicaId _ c.votes.elems))

/-- Store a block and its transactions as finalized. -/
def persistFinalizedBlock (block : Block P) : WriterOp P Unit := do
  writeStore (·.putTransactions block.transactions)
  writeStore (·.putFinalizedBlock { block with isFinalized := true })

/-- A write for a value that may be absent: `if let Some(x) = … { … }`. -/
def persistSome {α : Type} (x : Option α) (op : α → WriterOp P Unit) : WriterOp P Unit :=
  match x with
  | some a => op a
  | none => pure ()

/-- Store the M-notarization, which has to be there. -/
def persistMNotarization : WriterOp P Unit :=
  match c.mNotarization with
  | some m => writeStore (·.putNotarization m)
  | none => Act.throw (.persistWithoutMNotarization c.viewNumber)

/-- The finality certificate made of all counted votes. -/
def createLNotarization (blockHash : Hash P) (height : Nat) :
    LNotarization P :=
  let votes := P.hashOrder.apply c.replicaId _ c.votes.elems
  { view := c.viewNumber, blockHash,
    aggregatedSignature := Crypto.aggregateSignatures P.curve (votes.map (·.signature)),
    peerIds := votes.map (·.peerId), height }

/-- `persist_l_notarized_view` -/
def persistLNotarizedView (peers : PeerSet P) : WriterOp P Unit := do
  Act.modify (·.finalizeUpTo c.viewNumber)
  match c.block with
  | none => Act.throw (.persistWithoutBlock c.viewNumber)
  | some block => do
    persistFinalizedBlock block
    match c.blockHash with
    | none => Act.throw (.persistWithoutBlockHash c.viewNumber)
    | some blockHash => do
      persistMNotarization c
      persistMetadata c peers true false
      writeStore (·.putLNotarization (createLNotarization c blockHash block.height))

/-- `persist_m_notarized_view` -/
def persistMNotarizedView (peers : PeerSet P) : WriterOp P Unit := do
  persistSome c.block persistFinalizedBlock
  persistMNotarization c
  persistMetadata c peers true false

/-- The block of a view that is not canonical, if it is held. -/
def persistNullifiedBlock : WriterOp P Unit :=
  persistSome c.block fun block => writeStore (·.putNullifiedBlock block)

/-- `persist_nullified_view` -/
def persistNullifiedView (peers : PeerSet P) : WriterOp P Unit := do
  if !c.isNullified then Act.throw (.persistWithoutNullification c.viewNumber)
  else
    Act.modify (·.removeNullifiedView c.viewNumber)
    persistNullifiedBlock c
    persistSome c.nullification fun n => writeStore (·.putNullification n)
    persistMetadata c peers false true
    writeStore (·.putNullifies (P.hashOrder.apply c.replicaId _ c.nullifyMessages.elems))

/-- `persist_nullified_view_or_metadata` -/
def persistNullifiedViewOrMetadata (peers : PeerSet P) : WriterOp P Unit := do
  if c.isNullified then persistNullifiedView c peers
  else
    Act.modify (·.removeNullifiedView c.viewNumber)
    persistNullifiedBlock c
    persistSome c.mNotarization fun m => writeStore (·.putNotarization m)
    persistMetadata c peers false true

namespace ViewChain

/-- Run a writer operation on the chain's writer. -/
def persist (op : WriterOp P Unit) : Op P Unit :=
  Act.zoom (·.persistenceWriter) (fun w s => { s with persistenceWriter := w }) op

/-! ## The walk -/

/-- The loop that traces parent hashes: the canonical views met so far and
the ancestors whose block is missing; `none` when the fuel runs out. -/
def traceCanonical (s : ViewChain P) : Nat → Hash P → List Nat →
    Option (List Nat × List (Nat × Hash P))
  | 0, _, _ => none
  | fuel + 1, traceHash, canonical =>
    match s.findParentView traceHash with
    | none => some (canonical, [])
    | some view =>
      match s.findViewContext view with
      | none => some (view :: canonical, [])
      | some c =>
        match c.block with
        | some block => traceCanonical s fuel block.parentBlockHash (view :: canonical)
        | none => some (view :: canonical, (c.blockHash.map fun h => (view, h)).toList)

/-- The canonical views of a finalization: a walk that takes more steps than
there are held views repeats itself for ever. -/
def canonicalViews (s : ViewChain P) (finalizedView : Nat) (parentHash : Hash P) :
    Option (List Nat × List (Nat × Hash P)) :=
  s.traceCanonical (s.nonFinalizedViews.entries.length + 1) parentHash [finalizedView]

/-! ## The loop -/

/-- Is the view kept although it is in the range: M-notarized, its block
missing, and canonical or not nullified? -/
def isRetained (c : ViewContext P) (canonical : Bool) : Bool :=
  c.mNotarization.isSome && c.blockHash.isSome && c.block.isNone && (canonical || !c.isNullified)

/-- Give `previously_committed_block_hash` a new value. -/
def commit (s : ViewChain P) (blockHash : Hash P) : ViewChain P :=
  { s with previouslyCommittedBlockHash := blockHash, committed := s.committed ++ [blockHash] }

/-- Take a view out of the map. -/
def removeView (s : ViewChain P) (view : Nat) : ViewChain P :=
  { s with nonFinalizedViews := s.nonFinalizedViews.erase view }

/-- A context that was just taken out of the map is persisted. -/
def persistView (finalizedView : Nat) (canonical : List Nat) (peers : PeerSet P) (view : Nat)
    (c : ViewContext P) : Op P Unit := fun s =>
  if view = finalizedView then
    match c.blockHash with
    | none => (.panic, s)
    | some blockHash => persist (persistLNotarizedView c peers) (s.commit blockHash)
  else if view ∈ canonical then
    let s := match c.blockHash with
      | some blockHash => s.commit blockHash
      | none => s
    if P.N - P.F ≤ c.votes.len ∧ c.block.isSome then persist (persistLNotarizedView c peers) s
    else persist (persistMNotarizedView c peers) s
  else persist (persistNullifiedViewOrMetadata c peers) s

/-- One pass of the persistence loop. -/
def persistStep (finalizedView : Nat) (canonical : List Nat) (peers : PeerSet P) (view : Nat) :
    Op P Unit := fun s =>
  match s.findViewContext view with
  | none => (.ok (), s)
  | some c =>
    if view ≠ finalizedView ∧ isRetained c (decide (view ∈ canonical)) = true then (.ok (), s)
    else persistView finalizedView canonical peers view c (s.removeView view)

/-- The persistence loop over the range. -/
def persistRange (finalizedView : Nat) (canonical : List Nat) (peers : PeerSet P)
    (range : List Nat) : Op P Unit :=
  range.forM (persistStep finalizedView canonical peers)

/-! ## Finalization -/

/-- What the checks before the walk decide. -/
inductive FinalizeCheck (P : Params) where
  /-- The call ends with an error. -/
  | refuse (e : ConsensusError P)
  /-- The call ends with `Ok(())` and nothing done. -/
  | defer
  /-- The walk starts at this parent hash. -/
  | proceed (parentHash : Hash P)

/-- The parent part of the checks. -/
def finalizeParentCheck (s : ViewChain P) (view : Nat) (parentHash : Hash P) : FinalizeCheck P :=
  match s.findParentView parentHash with
  | some parentView =>
    match s.findViewContext parentView with
    | none => .proceed parentHash
    | some parent =>
      if parent.mNotarization.isNone then
        .refuse (.finalizeParentWithoutMNotarization parentView view)
      else if parent.block.isNone then .defer
      else if view ≤ parent.viewNumber then .refuse (.finalizeParentNotOlder parentView view)
      else match s.firstNotNullified parentView view with
        | some v => .refuse (.intermediateNotNullified v parentView view)
        | none => .proceed parentHash
  | none => if parentHash ≠ s.previouslyCommittedBlockHash then .defer else .proceed parentHash

/-- Steps 1 to 5 of `finalize_with_l_notarization`. -/
def finalizeCheck (s : ViewChain P) (view : Nat) : FinalizeCheck P :=
  if s.currentView < view then .refuse (.finalizeFuture view s.currentView)
  else match s.findViewContext view with
  | none => .refuse (.finalizeNotHeld view)
  | some c =>
    if c.votes.len < P.N - P.F then .refuse (.finalizeWithoutLNotarization view)
    else if c.isNullified then .refuse (.finalizeNullified view)
    else match c.block with
    | none => .defer
    | some block => s.finalizeParentCheck view block.parentBlockHash

/-- `finalize_with_l_notarization` -/
def finalizeWithLNotarization (view : Nat) (peers : PeerSet P) : Op P Unit := fun s =>
  match s.finalizeCheck view with
  | .refuse e => (.err e, s)
  | .defer => (.ok (), s)
  | .proceed parentHash =>
    match s.canonicalViews view parentHash with
    | none => (.exhausted, { s with pendingCanonicalRecovery := [] })
    | some (canonical, missing) =>
      let s := { s with pendingCanonicalRecovery := missing }
      if !missing.isEmpty then (.ok (), s)
      else match s.nonFinalizedViewsUntil view with
      | none => (.err (.finalizeNotHeld view), s)
      | some range => persistRange view canonical peers range s

end ViewChain

end Minimmit
