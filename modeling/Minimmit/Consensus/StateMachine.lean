/-
Minimmit.Consensus.StateMachine — the consensus state machine of one replica
(consensus_manager/state_machine.rs).

A step of the event loop is `handleConsensusMessage` on a message from the
network or `handleTick`; both turn into an event and `handleEvent` acts on
it. The functions call each other (an event may open a view, opening a view
replays buffered messages and proposes, both make events), so each takes the
recursive `handleEvent` as an argument and the knot is tied once, with fuel.

The outbox is what was handed to the network, `notified` what was handed to
the mempool about finalized blocks. Three history variables:
`signed` is every block hash and every nullify message this replica put its
signature on, in order, with the view context it found at that moment,
`cascades` is every cascade, with the chain right before the next view is
opened, and `history` is every message that was processed and every vote,
with the chain it found.
-/
import Minimmit.Consensus.ViewManager

namespace Minimmit

open Minimmit.Library

variable {P : Params}

variable (P) in
/-- A signature of this replica and what it found when it signed. -/
inductive Signed where
  /-- The leader signed its own block, with the chain before it and whether
  the broadcast queue took the proposal. -/
  | proposal (block : Block P) (chain : ViewChain P) (sent : Bool)
  | vote (view : Nat) (blockHash : Hash P) (context : ViewContext P)
  /-- `forced` is the `force` argument of `nullify_view`. -/
  | nullify (view : Nat) (forced : Bool) (context : ViewContext P)

variable (P) in
/-- A moment of the run, with the chain right before it. -/
inductive Moment where
  /-- `process_consensus_msg` is called. -/
  | processed (message : ConsensusMessage P) (chain : ViewChain P)
  /-- `vote_for_block` signs. -/
  | voted (view : Nat) (blockHash : Hash P) (chain : ViewChain P)

variable (P) in
/-- `FinalizedNotification` -/
structure FinalizedNotification where
  view : Nat
  txHashes : List (Hash P)

variable (P) in
/-- `ConsensusStateMachine` -/
structure Replica where
  viewManager : ViewProgressManager P
  pendingMessages : SortedMap (List (ConsensusMessage P))
  secretKey : BlsSecretKey P
  /-- Counts the moments at which the environment was asked something. -/
  clock : Nat
  outbox : List (ConsensusMessage P)
  /-- What went into the channel to the mempool, which never fills up. -/
  notified : List (FinalizedNotification P)
  /-- History: what was signed, oldest first. -/
  signed : List (Signed P)
  /-- History: the start view of every cascade and the chain it leaves. -/
  cascades : List (Nat × ViewChain P)
  /-- History: the messages processed and the votes, oldest first. -/
  history : List (Moment P)

namespace Replica

/-- An operation of the state machine. -/
abbrev Op (P : Params) (α : Type) : Type := Act (Replica P) (ConsensusError P) α

/-- Run an operation of the view manager. -/
def onManager {α : Type} (op : ViewProgressManager.Op P α) : Op P α :=
  Act.zoom (·.viewManager) (fun vm s => { s with viewManager := vm }) op

/-- The state machine around a new view manager. -/
def new (replicaId : Nat) (peers : PeerSet P) (secretKey : BlsSecretKey P)
    (genesisAccounts : List (Address P × Nat)) : Replica P :=
  { viewManager := ViewProgressManager.new replicaId peers genesisAccounts
    pendingMessages := ∅
    secretKey
    clock := 0
    outbox := []
    notified := []
    signed := []
    cascades := []
    history := [] }

/-- The context of a view, if it is held. -/
def context (s : Replica P) (view : Nat) : Option (ViewContext P) :=
  s.viewManager.viewChain.findViewContext view

/-- The view the replica is in. -/
def currentView (s : Replica P) : Nat := s.viewManager.viewChain.currentView

/-- An update of the view chain. -/
def onChain (s : Replica P) (f : ViewChain P → ViewChain P) : Replica P :=
  { s with viewManager := { s.viewManager with viewChain := f s.viewManager.viewChain } }

/-- `pending_messages.entry(view).or_default().push(message)` -/
def bufferMessage (s : Replica P) (view : Nat) (message : ConsensusMessage P) : Replica P :=
  let messages := (s.pendingMessages.get view).getD [] ++ [message]
  { s with pendingMessages := s.pendingMessages.insert view messages }

/-- Ask the environment: the current moment, and time moves on. -/
def askEnv : Op P Nat := fun s => (.ok s.clock, { s with clock := s.clock + 1 })

/-- Record a signature. -/
def record (entry : Signed P) : Op P Unit :=
  Act.modify fun s => { s with signed := s.signed ++ [entry] }

/-- Record a cascade. -/
def recordCascade (startView : Nat) : Op P Unit :=
  Act.modify fun s => { s with cascades := s.cascades ++ [(startView, s.viewManager.viewChain)] }

/-- Record that a message is processed now. -/
def noteProcessed (message : ConsensusMessage P) : Op P Unit :=
  Act.modify fun s =>
    { s with history := s.history ++ [.processed message s.viewManager.viewChain] }

/-- Record that a vote is signed now. -/
def noteVoted (view : Nat) (blockHash : Hash P) : Op P Unit :=
  Act.modify fun s =>
    { s with history := s.history ++ [.voted view blockHash s.viewManager.viewChain] }

/-- `secret_key.sign` -/
def signBytes (message : List UInt8) : Op P (BlsSignature P) := fun s =>
  (.ok (Crypto.sign P.hashing P.curve s.secretKey message), s)

variable (env : Env P)

/-- `broadcast_consensus_message` -/
def broadcastConsensusMessage (message : ConsensusMessage P) : Op P Unit := do
  let now ← askEnv
  if env.broadcastOk now then
    Act.modify fun s => { s with outbox := s.outbox ++ [message] }
  else Act.throw .broadcastFailed

/-- `create_and_broadcast_m_notarization` -/
def createAndBroadcastMNotarization (view : Nat) (shouldForward : Bool) : Op P Unit := do
  if shouldForward then
    let m ← onManager (ViewProgressManager.getMNotarization view)
    broadcastConsensusMessage env (.mNotarization m)
  else return ()

/-- `broadcast_nullification` -/
def broadcastNullification (view : Nat) : Op P Unit := do
  let n ← onManager (ViewProgressManager.getNullification view)
  broadcastConsensusMessage env (.nullification n)

/-- The nullification is broadcast when the event says so. -/
def forwardNullification (shouldBroadcast : Bool) (view : Nat) : Op P Unit :=
  if shouldBroadcast then broadcastNullification env view else return ()

/-- `vote_for_block` -/
def voteForBlock (view : Nat) (blockHash : Hash P) : Op P Unit := do
  let c ← onManager (ViewProgressManager.requireContext view)
  let signature ← signBytes (blockMessage blockHash)
  record (.vote view blockHash c)
  noteVoted view blockHash
  broadcastConsensusMessage env (.vote
    { view, blockHash, signature, peerId := (← Act.get).viewManager.replicaId,
      leaderId := c.leaderId })
  onManager (ViewProgressManager.addOwnVote view blockHash signature)

/-- `best_effort_notification` -/
def notifyFinalized (notification : FinalizedNotification P) : Op P Unit :=
  Act.modify fun s => { s with notified := s.notified ++ [notification] }

/-- `finalize_view`: never the current view. The notification is made of the
block before the finalization and sent whenever that returns `Ok`. -/
def finalizeView (view : Nat) : Op P Unit := do
  if view = (← Act.get).currentView then return ()
  else
    let txHashes ← onManager (ViewProgressManager.getBlockTxHashes view)
    onManager (ViewProgressManager.finalizeView view)
    notifyFinalized { view, txHashes }

/-- The message `nullify_view` creates on a context that is not nullified;
`none` when it declines. After voting it takes conflicting evidence unless
`force` is set. -/
def nullifyOperation (force : Bool) (secretKey : BlsSecretKey P) (c : ViewContext P) :
    Option (ViewContext.Op P (Nullify P)) :=
  let evidence := P.F < c.numInvalidVotes ∨ 2 * P.F < c.numInvalidVotes + c.nullifyMessages.len
  if force then some (ViewContext.createNullifyForCascade secretKey)
  else if evidence then some (ViewContext.createNullifyForByzantine secretKey)
  else if c.hasVoted then none
  else some (ViewContext.createNullifyForTimeout secretKey)

/-- `nullify_view` -/
def nullifyView (view : Nat) (force : Bool) : Op P Unit := do
  let c ← onManager (ViewProgressManager.requireContext view)
  if c.hasNullified then return ()
  else
    match nullifyOperation force (← Act.get).secretKey c with
    | none => return ()
    | some operation => do
      record (.nullify view force c)
      let nullify ← onManager (ViewProgressManager.onChain (ViewChain.runOn view c operation))
      broadcastConsensusMessage env (.nullify nullify)
      onManager (ViewProgressManager.markNullified view)

/-! ## The recursive part -/

section Recursive

variable (fuel : Nat) (handleEvent : ViewProgressEvent P → Op P Unit)

/-- `handle_consensus_message`: messages for future views are buffered. -/
def handleConsensusMessageWith (message : ConsensusMessage P) : Op P Unit := do
  noteProcessed message
  let event ← onManager (ViewProgressManager.processConsensusMsg fuel message)
  match event with
  | .shouldUpdateView newView _ => Act.modify (·.bufferMessage newView message)
  | event => handleEvent event

/-- The block `propose_block` builds: hashed with a dummy signature, then
signed. -/
def buildBlock (replicaId : Nat) (secretKey : BlsSecretKey P) (view : Nat)
    (parentBlockHash : Hash P) (transactions : List (Transaction P)) (timestamp : Nat) : Block P :=
  let block := Block.new view replicaId parentBlockHash transactions timestamp
    (Crypto.sign P.hashing P.curve secretKey (List.replicate 32 0)) false view
  { block with leaderSignature :=
      Crypto.sign P.hashing P.curve secretKey (blockMessage block.getHash) }

/-- The reaction of `propose_block` to its own proposal: the leader's vote
is counted without a vote message. -/
def handleOwnProposal (signature : BlsSignature P) : ViewProgressEvent P → Op P Unit
  | .shouldVote view blockHash =>
    onManager (ViewProgressManager.addOwnVote view blockHash signature)
  | .shouldVoteAndMNotarize view blockHash shouldForward => do
    onManager (ViewProgressManager.addOwnVote view blockHash signature)
    createAndBroadcastMNotarization env view shouldForward
  | .shouldVoteAndFinalize view blockHash => do
    onManager (ViewProgressManager.addOwnVote view blockHash signature)
    finalizeView view
  | event => handleEvent event

/-- `propose_block` -/
def proposeBlockWith (view : Nat) (parentBlockHash : Hash P) : Op P Unit := do
  let now ← askEnv
  if env.proposalQueueOk now then
    let s ← Act.get
    let block := buildBlock s.viewManager.replicaId s.secretKey view parentBlockHash
      (env.transactions now) (env.timestamp now)
    record (.proposal block s.viewManager.viewChain (env.broadcastOk s.clock))
    broadcastConsensusMessage env (.blockProposal block)
    noteProcessed (.blockProposal block)
    let event ← onManager (ViewProgressManager.processConsensusMsg fuel (.blockProposal block))
    handleOwnProposal env handleEvent block.leaderSignature event
    onManager (ViewProgressManager.markProposed view)
  else Act.throw .proposalQueueFull

/-- `MAX_FINALIZATIONS_PER_PASS` -/
def maxFinalizationsPerPass : Nat := 5

/-- The deferred finalizations of `progress_to_next_view`. -/
def finalizeDeferred : Nat → Op P Unit
  | 0 => return ()
  | n + 1 => do
    match (← Act.get).viewManager.viewChain.oldestFinalizableView with
    | none => return ()
    | some (view, _) =>
      match ← Act.attempt (finalizeView view) with
      | .error _ => return ()
      | .ok _ =>
        if ((← Act.get).context view).isSome then return () else finalizeDeferred n

/-- Replay the messages buffered for one view; their errors are dropped. -/
def replayView (view : Nat) : Op P Unit := do
  match (← Act.get).pendingMessages.get view with
  | none => return ()
  | some messages => do
    Act.modify fun s => { s with pendingMessages := s.pendingMessages.remove view }
    messages.forM fun m => do
      let _ ← Act.attempt (handleConsensusMessageWith fuel handleEvent m)
      return ()

/-- `progress_to_next_view` -/
def progressToNextViewWith (view leader : Nat) (notarizedBlockHash : Hash P) : Op P Unit := do
  finalizeDeferred maxFinalizationsPerPass
  let pendingViews := (← Act.get).pendingMessages.keys.filter (· ≤ view)
  pendingViews.forM (replayView fuel handleEvent)
  if (← Act.get).viewManager.replicaId = leader then
    proposeBlockWith env fuel handleEvent view notarizedBlockHash
  else return ()

/-- Process the stored M-notarization of a view to advance the state; a
missing one or a processing error is dropped. -/
def processStoredMNotarization (view : Nat) : Op P Unit := do
  match ← Act.attempt (onManager (ViewProgressManager.getMNotarization view)) with
  | .error _ => return ()
  | .ok m =>
    noteProcessed (.mNotarization m)
    match ← Act.attempt
        (onManager (ViewProgressManager.processConsensusMsg fuel (.mNotarization m))) with
    | .error _ => return ()
    | .ok event => handleEvent event

/-- The forced nullify and the rollback that a cascade and a range
nullification share; an error of the nullify is dropped. -/
def nullifyCurrentAndRollback (startView : Nat) : Op P Nat := do
  let currentView := (← Act.get).currentView
  let _ ← Act.attempt (nullifyView env currentView true)
  Act.modify (·.onChain (·.rollbackPendingDiffsInRange startView currentView))
  return currentView

/-- `handle_event` -/
def handleEventWith : ViewProgressEvent P → Op P Unit
  | .noOp => return ()
  | .await => return ()
  | .shouldProposeBlock view parentBlockHash =>
    proposeBlockWith env fuel handleEvent view parentBlockHash
  | .shouldVote view blockHash => voteForBlock env view blockHash
  | .shouldMNotarize view _ shouldForward => do
    createAndBroadcastMNotarization env view shouldForward
    processStoredMNotarization fuel handleEvent view
  | .shouldFinalize view _ => finalizeView view
  | .shouldNullify view => nullifyView env view false
  | .shouldBroadcastNullification view => broadcastNullification env view
  | .shouldVoteAndMNotarize view blockHash shouldForward => do
    voteForBlock env view blockHash
    createAndBroadcastMNotarization env view shouldForward
    processStoredMNotarization fuel handleEvent view
  | .shouldVoteAndFinalize view blockHash => do
    voteForBlock env view blockHash
    finalizeView view
  | .progressToNextView newView leader notarizedBlockHash shouldForward => do
    createAndBroadcastMNotarization env (newView - 1) shouldForward
    progressToNextViewWith env fuel handleEvent newView leader notarizedBlockHash
  | .shouldVoteAndProgressToNextView oldView blockHash newView leader shouldForward => do
    voteForBlock env oldView blockHash
    createAndBroadcastMNotarization env oldView shouldForward
    progressToNextViewWith env fuel handleEvent newView leader blockHash
  | .progressToNextViewOnNullification newView leader parentBlockHash broadcast => do
    forwardNullification env broadcast (newView - 1)
    progressToNextViewWith env fuel handleEvent newView leader parentBlockHash
  | .shouldUpdateView _ _ => return ()
  | .shouldNullifyView view => nullifyView env view false
  | .broadcastConsensusMessage message => broadcastConsensusMessage env message
  | .shouldCascadeNullification startView broadcast => do
    -- an error of the broadcast is logged and dropped
    let _ ← Act.attempt (forwardNullification env broadcast startView)
    let currentView ← nullifyCurrentAndRollback env startView
    recordCascade startView
    let (leader, parentHash) ←
      onManager (ViewProgressManager.progressAfterCascade (currentView + 1))
    progressToNextViewWith env fuel handleEvent (currentView + 1) leader parentHash
  | .shouldNullifyRange startView => do
    let _ ← nullifyCurrentAndRollback env startView
    return ()
  | .shouldRequestBlock view blockHash =>
    broadcastConsensusMessage env (.blockRecoveryRequest view blockHash)
  | .shouldRequestBlocks requests =>
    requests.forM fun r => do
      let _ ← Act.attempt (broadcastConsensusMessage env (.blockRecoveryRequest r.1 r.2))
      return ()

end Recursive

/-- `handle_event` with at most `fuel` nested calls. -/
def handleEvent : Nat → ViewProgressEvent P → Op P Unit
  | 0, _ => Act.exhausted
  | fuel + 1, event => handleEventWith env fuel (handleEvent fuel) event

/-- `handle_consensus_message` -/
def handleConsensusMessage (fuel : Nat) (message : ConsensusMessage P) : Op P Unit :=
  handleConsensusMessageWith fuel (handleEvent env fuel) message

/-- `handle_tick` -/
def handleTick (fuel : Nat) : Op P Unit := do
  let now ← askEnv
  let event ← onManager (ViewProgressManager.tick env now)
  handleEvent env fuel event

end Replica

end Minimmit
