/-
Minimmit.Consensus.ViewManager — the view progress manager
(consensus_manager/view_manager.rs, consensus_manager/leader_manager.rs).

The manager turns a message or a tick into one event for the state machine.
Leaders rotate round robin over the sorted peer ids. Time and the mempool
are the environment's: `Env` answers whether a view has timed out and
whether a recovery request may be repeated, at the moment it is asked.

Three history variables: the views entered with the parent each was opened
on, the chain before every finalization attempt, and the blocks that passed
validation with their diffs. `processAllPendingBlocks` is a loop that may
not end; it is unfolded with fuel.
-/
import Minimmit.Consensus.Finalization
import Minimmit.Validation.Validator

namespace Minimmit

open Minimmit.Library

/-- What the code reads from outside, by the moment it reads it. -/
structure Env (P : Params) where
  /-- `entered_at.elapsed() >= view_timeout` for the view -/
  timedOut : (now view : Nat) → Bool
  /-- `last.elapsed() >= 500ms` for the last request of the view -/
  cooldownOver : (now view : Nat) → Bool
  /-- The mempool's answer; no answer in time is the empty list. -/
  transactions : (now : Nat) → List (Transaction P)
  transactions_wellTyped : ∀ now, ∀ t ∈ transactions now, t.WellTyped
  /-- Seconds since the epoch, a `u64`. -/
  timestamp : (now : Nat) → Nat
  timestamp_lt : ∀ now, timestamp now < u64Size
  /-- Does one of the ten attempts to queue a broadcast succeed? -/
  broadcastOk : (now : Nat) → Bool
  /-- Is there room in the queue of proposal requests? -/
  proposalQueueOk : (now : Nat) → Bool

/-- `ViewProgressManager` -/
structure ViewProgressManager (P : Params) where
  viewChain : ViewChain P
  replicaId : Nat
  peers : PeerSet P
  /-- The views with a recorded recovery request. -/
  blockRecoveryCooldowns : List Nat
  canonicalRecoveryPending : List (Nat × Hash P)
  /-- History: the views entered and the parent each was opened on. -/
  entered : List (Nat × Hash P)
  /-- History: every finalization attempt with the chain before it. -/
  finalizations : List (Nat × ViewChain P)
  /-- History: the blocks that passed validation and their diffs. -/
  validated : List (Block P × StateDiff P)

variable {P : Params}

/-- `RoundRobinLeaderManager::leader_for_view` -/
def PeerSet.leaderForView (peers : PeerSet P) (view : Nat) : Nat :=
  peers.sortedPeerIds.getD (view % peers.sortedPeerIds.length) 0

namespace ViewProgressManager

/-- An operation on the manager. -/
abbrev Op (P : Params) (α : Type) : Type := Act (ViewProgressManager P) (ConsensusError P) α

/-- Run an operation of the chain. -/
def onChain {α : Type} (op : ViewChain.Op P α) : Op P α :=
  Act.zoom (·.viewChain) (fun chain s => { s with viewChain := chain }) op

/-- `ViewProgressManager::new` on a fresh store: genesis is persisted and
view 1 is opened on it. The genesis signature is the zero point. -/
def new (replicaId : Nat) (peers : PeerSet P) (genesisAccounts : List (Address P × Nat)) :
    ViewProgressManager P :=
  let store := (Store.empty (P := P)).putFinalizedBlock
    (Block.genesis (peers.leaderForView 0) 0)
  let store := genesisAccounts.foldl
    (fun s a => s.putAccount a.1 { balance := a.2, nonce := 0 }) store
  let context := ViewContext.new 1 (peers.leaderForView 1) replicaId (Block.genesisHash P)
  { viewChain := ViewChain.new context (PendingStateWriter.new store 0) replicaId
    replicaId
    peers
    blockRecoveryCooldowns := []
    canonicalRecoveryPending := []
    entered := [(1, Block.genesisHash P)]
    finalizations := []
    validated := [] }

/-- `current()`, with the panic of a missing context. -/
def current : Op P (ViewContext P) := fun s =>
  match s.viewChain.findViewContext s.viewChain.currentView with
  | some c => (.ok c, s)
  | none => (.panic, s)

/-- `view_context_mut` and the other lookups with the error text
"View {} not found". -/
def requireContext (view : Nat) : Op P (ViewContext P) := fun s =>
  match s.viewChain.findViewContext view with
  | some c => (.ok c, s)
  | none => (.err (.viewNotFound view), s)

/-- `leader_for_view` -/
def leaderForView (view : Nat) : Op P Nat := do
  let c ← requireContext view
  return c.leaderId

/-- `get_m_notarization` -/
def getMNotarization (view : Nat) : Op P (MNotarization P) := do
  let c ← requireContext view
  match c.mNotarization with
  | some m => return m
  | none => Act.throw (.mNotarizationNotFound view)

/-- `get_nullification` -/
def getNullification (view : Nat) : Op P (Nullification P) := do
  let c ← requireContext view
  match c.nullification with
  | some n => return n
  | none => Act.throw (.nullificationNotFound view)

/-- `get_block_tx_hashes`; the hashes go to the mempool only. -/
def getBlockTxHashes (view : Nat) : Op P (List (Hash P)) := do
  let c ← requireContext view
  match c.block with
  | some block => return block.transactions.map (·.txHash)
  | none => Act.throw (.blockNotFound view)

/-- `add_own_vote` -/
def addOwnVote (view : Nat) (blockHash : Hash P) (signature : BlsSignature P) : Op P Unit := do
  let c ← requireContext view
  onChain (ViewChain.runOn view c (ViewContext.addOwnVote blockHash signature))

/-- `mark_proposed` -/
def markProposed (view : Nat) : Op P Unit := fun s =>
  if view = s.viewChain.currentView then
    match s.viewChain.findViewContext view with
    | none => (.panic, s)
    | some c =>
      (.ok (), { s with viewChain := s.viewChain.setContext view { c with hasProposed := true } })
  else (.err (.cannotMarkProposed view s.viewChain.currentView), s)

/-- `mark_nullified`: the flag, and the view's pending diff goes. -/
def markNullified (view : Nat) : Op P Unit := fun s =>
  match s.viewChain.findViewContext view with
  | none => (.err (.cannotMarkNullified view), s)
  | some c =>
    (.ok (), { s with viewChain :=
      (s.viewChain.setContext view { c with hasNullified := true }).removePendingDiff view })

/-- `finalize_view`: finalize, then keep the missing ancestors for the
recovery requests of later ticks. -/
def finalizeView (view : Nat) : Op P Unit := do
  Act.modify fun s => { s with finalizations := s.finalizations ++ [(view, s.viewChain)] }
  onChain (ViewChain.finalizeWithLNotarization view (← Act.get).peers)
  Act.modify fun s =>
    { s with
      canonicalRecoveryPending := s.viewChain.pendingCanonicalRecovery.foldl
        (fun pending e => if pending.any (fun p => p.1 == e.1) then pending else pending ++ [e])
        s.canonicalRecoveryPending
      viewChain := { s.viewChain with pendingCanonicalRecovery := [] } }

/-- Open the next view on `parentHash` by one of the progress functions. -/
def openView (newView : Nat) (parentHash : Hash P)
    (progress : ViewContext P → ViewChain.Op P Unit) : Op P Unit := do
  let s ← Act.get
  onChain (progress
    (ViewContext.new newView (s.peers.leaderForView newView) s.replicaId parentHash))
  Act.modify fun s => { s with entered := s.entered ++ [(newView, parentHash)] }

/-- `progress_after_cascade` -/
def progressAfterCascade (newView : Nat) : Op P (Nat × Hash P) := do
  let s ← Act.get
  let parentHash := s.viewChain.selectParent newView
  openView newView parentHash ViewChain.progressAfterCascade
  return (s.peers.leaderForView newView, parentHash)

/-! ## Pending blocks -/

/-- The body of the loop: try the pending children of every M-notarized
view; the value says whether one was processed. -/
def pendingPass (peers : PeerSet P) : List Nat → ViewChain.Op P Bool
  | [] => return false
  | view :: views => do
    let results ← ViewChain.processPendingChildProposals view peers
    let progress ← pendingPass peers views
    return !results.isEmpty || progress

/-- `process_all_pending_blocks` -/
def processAllPendingBlocks : Nat → Op P Unit
  | 0 => Act.exhausted
  | fuel + 1 => do
    let s ← Act.get
    let views := (s.viewChain.iter.filter fun e => e.2.mNotarization.isSome).map (·.1)
    let progress ← onChain (pendingPass s.peers views)
    if progress then processAllPendingBlocks fuel else return ()

/-! ## Messages -/

/-- What `handle_block_proposal` makes of the result of
`add_block_proposal`. -/
def proposalEvent (fuel view : Nat) (r : LeaderProposalResult P) : Op P (ViewProgressEvent P) := do
  if r.shouldAwait then return .await
  else if r.shouldNullify then return .shouldNullify view
  else if r.isEnoughToFinalize && r.shouldVote then
    return .shouldVoteAndFinalize view r.blockHash
  else if r.isEnoughToMNotarize && r.shouldVote then
    processAllPendingBlocks fuel
    return .shouldVoteAndMNotarize view r.blockHash true
  else if r.isEnoughToFinalize then return .shouldFinalize view r.blockHash
  else if r.isEnoughToMNotarize then return .shouldMNotarize view r.blockHash true
  else if r.shouldVote then return .shouldVote view r.blockHash
  else return .noOp

/-- `handle_block_proposal`: the block is validated before anything about
its view, parent or signature is checked. -/
def handleBlockProposal (fuel : Nat) (block : Block P) : Op P (ViewProgressEvent P) := do
  let s ← Act.get
  let view := block.header.view
  if s.viewChain.currentView < view then
    if s.peers.leaderForView view ≠ block.leader then
      Act.throw (.wrongViewLeader .block block.leader (s.peers.leaderForView view) view)
    else return .shouldUpdateView view (s.peers.leaderForView view)
  else
    match validateBlock s.viewChain.persistenceWriter.getAccount block with
    | .panic => Act.panic
    | .exhausted => Act.exhausted
    | .err _ => return .shouldNullify view
    | .ok stateDiff => do
      Act.modify fun s => { s with validated := s.validated ++ [(block, stateDiff)] }
      let r ← onChain (ViewChain.addBlockProposal view block stateDiff s.peers)
      proposalEvent fuel view r

/-- `handle_vote` -/
def handleVote (fuel : Nat) (vote : Vote P) : Op P (ViewProgressEvent P) := do
  let s ← Act.get
  if s.viewChain.currentView < vote.view then
    return .shouldUpdateView vote.view (s.peers.leaderForView vote.view)
  else
    let r ← onChain (ViewChain.routeVote vote s.peers)
    if r.shouldAwait then return .await
    else if r.shouldNullify then
      if vote.view < s.viewChain.currentView then return .shouldNullifyRange vote.view
      else return .shouldNullify vote.view
    else if r.isEnoughToMNotarize && r.shouldVote then
      processAllPendingBlocks fuel
      return .shouldVoteAndMNotarize vote.view vote.blockHash true
    else if r.isEnoughToFinalize && r.shouldVote then
      if vote.view = s.viewChain.currentView then return .shouldVote vote.view vote.blockHash
      else return .shouldVoteAndFinalize vote.view vote.blockHash
    else if r.isEnoughToMNotarize then
      processAllPendingBlocks fuel
      return .shouldMNotarize vote.view vote.blockHash true
    else if r.isEnoughToFinalize then
      if vote.view = s.viewChain.currentView then return .noOp
      else return .shouldFinalize vote.view vote.blockHash
    else if r.shouldVote then return .shouldVote vote.view vote.blockHash
    else return .noOp

/-- Was the view M-notarized here? -/
def wasMNotarized (s : ViewProgressManager P) (view : Nat) : Bool :=
  (s.viewChain.findViewContext view).any fun c => c.mNotarization.isSome

/-- `handle_nullify` -/
def handleNullify (nullify : Nullify P) : Op P (ViewProgressEvent P) := do
  let s ← Act.get
  if s.viewChain.currentView < nullify.view then
    if s.peers.leaderForView nullify.view ≠ nullify.leaderId then
      Act.throw (.wrongViewLeader .nullify nullify.leaderId
        (s.peers.leaderForView nullify.view) nullify.view)
    else return .shouldUpdateView nullify.view (s.peers.leaderForView nullify.view)
  else
    let hasNullification ← onChain (ViewChain.routeNullify nullify s.peers)
    if hasNullification then
      if nullify.view < s.viewChain.currentView ∧
          (← Act.get).wasMNotarized nullify.view = true then
        return .shouldCascadeNullification nullify.view true
      else return .shouldBroadcastNullification nullify.view
    else return .noOp

/-- `handle_m_notarization` -/
def handleMNotarization (fuel : Nat) (m : MNotarization P) : Op P (ViewProgressEvent P) := do
  let s ← Act.get
  if s.viewChain.currentView < m.view then
    if s.peers.leaderForView m.view ≠ m.leaderId then
      Act.throw (.wrongViewLeader .mNotarization m.leaderId (s.peers.leaderForView m.view) m.view)
    else return .shouldUpdateView m.view (s.peers.leaderForView m.view)
  else
    let r ← onChain (ViewChain.routeMNotarization m s.peers)
    if r.shouldAwait then return .await
    else if r.shouldNullify then return .shouldNullifyView m.view
    else if m.view = s.viewChain.currentView then
      openView (m.view + 1) m.blockHash ViewChain.progressWithMNotarization
      -- an error here is logged and dropped
      let _ ← Act.attempt (finalizeView m.view)
      let leader := s.peers.leaderForView (m.view + 1)
      if r.shouldVote then
        return .shouldVoteAndProgressToNextView m.view m.blockHash (m.view + 1) leader
          r.shouldForward
      else return .progressToNextView (m.view + 1) leader m.blockHash r.shouldForward
    else if r.shouldNotarize && r.shouldVote then
      processAllPendingBlocks fuel
      return .shouldVoteAndMNotarize m.view m.blockHash r.shouldForward
    else if r.shouldNotarize then
      processAllPendingBlocks fuel
      return .shouldMNotarize m.view m.blockHash r.shouldForward
    else if r.shouldVote then return .shouldVote m.view m.blockHash
    else return .noOp

/-- `handle_nullification` -/
def handleNullification (n : Nullification P) : Op P (ViewProgressEvent P) := do
  let s ← Act.get
  if s.viewChain.currentView < n.view then
    if s.peers.leaderForView n.view ≠ n.leaderId then
      Act.throw (.wrongViewLeader .nullification n.leaderId (s.peers.leaderForView n.view) n.view)
    else return .shouldUpdateView n.view (s.peers.leaderForView n.view)
  else
    let broadcast ← onChain (ViewChain.routeNullification n s.peers)
    let s' ← Act.get
    if n.view < s.viewChain.currentView ∧ broadcast = true ∧ s'.wasMNotarized n.view = true then
      return .shouldCascadeNullification n.view broadcast
    else if n.view = s.viewChain.currentView then
      let parentHash := s'.viewChain.selectParent (n.view + 1)
      openView (n.view + 1) parentHash ViewChain.progressWithNullification
      return .progressToNextViewOnNullification (n.view + 1)
        (s.peers.leaderForView (n.view + 1)) parentHash broadcast
    else if broadcast then return .shouldBroadcastNullification n.view
    else return .shouldNullify n.view

/-- Is this replica the leader of `view + i` for one of the offsets? -/
def isResponder (view : Nat) : List Nat → Op P Bool
  | [] => return false
  | i :: offsets => do
    let s ← Act.get
    if u64Size ≤ view + i then Act.panic
    else if s.peers.leaderForView (view + i) = s.replicaId then return true
    else isResponder view offsets

/-- `handle_block_recovery_request`: the leader of the view and the `F`
leaders after it answer. -/
def handleBlockRecoveryRequest (view : Nat) (blockHash : Hash P) : Op P (ViewProgressEvent P) := do
  if ← isResponder view (List.range (P.F + 1)) then
    match (← Act.get).viewChain.getBlockForRecovery view blockHash with
    | some block => return .broadcastConsensusMessage (.blockRecoveryResponse view block)
    | none => return .noOp
  else return .noOp

/-- `handle_block_recovery_response` -/
def handleBlockRecoveryResponse (view : Nat) (block : Block P) : Op P (ViewProgressEvent P) := do
  let result ← Act.attempt (onChain (ViewChain.addRecoveredBlock view block))
  Act.modify fun s =>
    { s with blockRecoveryCooldowns := s.blockRecoveryCooldowns.filter (· ≠ view) }
  let s ← Act.get
  match result with
  | .error _ => return .noOp
  | .ok true =>
    match (s.viewChain.findViewContext view).bind (·.blockHash) with
    | some blockHash => return .shouldFinalize view blockHash
    | none => Act.throw .blockHashMissing
  | .ok false =>
    match s.viewChain.oldestFinalizableView with
    | some (finalizable, blockHash) => return .shouldFinalize finalizable blockHash
    | none => return .noOp

/-- `process_consensus_msg` -/
def processConsensusMsg (fuel : Nat) : ConsensusMessage P → Op P (ViewProgressEvent P)
  | .blockProposal block => handleBlockProposal fuel block
  | .vote vote => handleVote fuel vote
  | .nullify nullify => handleNullify nullify
  | .mNotarization m => handleMNotarization fuel m
  | .nullification n => handleNullification n
  | .blockRecoveryRequest view blockHash => handleBlockRecoveryRequest view blockHash
  | .blockRecoveryResponse view block => handleBlockRecoveryResponse view block

/-! ## Ticks -/

/-- `should_timeout_nullify` -/
def shouldTimeoutNullify (env : Env P) (now : Nat) (c : ViewContext P) : Bool :=
  !c.hasNullified && !c.hasVoted && env.timedOut now c.viewNumber

/-- The first past view that has timed out. -/
def timedOutPastView (env : Env P) (now : Nat) (s : ViewProgressManager P)
    (current : ViewContext P) : Option Nat :=
  s.viewChain.nonFinalizedViewNumbersRange.findSome? fun v =>
    match s.viewChain.findViewContext v with
    | none => none
    | some c =>
      if current.viewNumber = c.viewNumber then none
      else if shouldTimeoutNullify env now c then some c.viewNumber
      else none

/-- May the leader propose: the parent is M-notarized and the views between
are nullified, or the parent is the last committed block? -/
def canPropose (s : ViewProgressManager P) (current : ViewContext P) : Bool :=
  match s.viewChain.findParentView current.parentBlockHash with
  | some parentView =>
    s.wasMNotarized parentView && s.viewChain.intermediatesNullified parentView current.viewNumber
  | none => decide (current.parentBlockHash = s.viewChain.previouslyCommittedBlockHash)

/-- The number of recovery requests sent in one tick. -/
def maxBatchRecovery : Nat := 5

/-- Add a recovery request unless the batch is full or the cooldown runs. -/
def requestBlock (env : Env P) (now : Nat) (acc : List (Nat × Hash P) × List Nat)
    (request : Nat × Hash P) : List (Nat × Hash P) × List Nat :=
  if maxBatchRecovery ≤ acc.1.length then acc
  else if acc.1.any fun r => r.1 == request.1 then acc
  else if request.1 ∉ acc.2 ∨ env.cooldownOver now request.1 = true then
    (acc.1 ++ [request], request.1 :: acc.2)
  else acc

/-- The past views that are M-notarized, not nullified and lack their
block. -/
def missingBlocks (s : ViewProgressManager P) : List (Nat × Hash P) :=
  s.viewChain.nonFinalizedViewNumbersRange.filterMap fun v =>
    match s.viewChain.findViewContext v with
    | none => none
    | some c =>
      if v < s.viewChain.currentView ∧ c.mNotarization.isSome = true ∧ c.block.isNone = true ∧
          c.pendingBlock.isNone = true ∧ c.isNullified = false then
        c.blockHash.map fun h => (v, h)
      else none

/-- The recovery part of `tick`. -/
def tickRecovery (env : Env P) (now : Nat) : Op P (List (Nat × Hash P)) := fun s =>
  let acc := (s.missingBlocks ++ s.canonicalRecoveryPending).foldl (requestBlock env now)
    ([], s.blockRecoveryCooldowns)
  (.ok acc.1, { s with blockRecoveryCooldowns := acc.2 })

/-- The votes counted for another hash than the view's. -/
def conflictingCount (c : ViewContext P) (blockHash : Hash P) : Nat :=
  c.nullifyMessages.len + (c.votes.elems.filter fun v => decide (v.blockHash ≠ blockHash)).length

/-- The checks of `tick` on the current view, in order, up to the recovery
requests. -/
def tickCurrent (env : Env P) (now : Nat) (s : ViewProgressManager P) (c : ViewContext P) :
    Option (ViewProgressEvent P) :=
  let idle := !c.hasVoted && !c.hasNullified
  if c.isLeader && !c.hasProposed && s.canPropose c then
    some (.shouldProposeBlock c.viewNumber c.parentBlockHash)
  else match (if idle then c.block else none) with
  | some block => some (.shouldVote c.viewNumber block.getHash)
  | none =>
  match (if idle && c.nullification.isNone then c.mNotarization else none) with
  | some m => some (.shouldVote c.viewNumber m.blockHash)
  | none =>
  if idle && env.timedOut now c.viewNumber then some (.shouldNullify c.viewNumber)
  else if c.hasVoted && !c.hasNullified &&
      c.blockHash.any (fun h => decide (2 * P.F < conflictingCount c h)) then
    some (.shouldNullify c.viewNumber)
  else match (if P.N - P.F ≤ c.votes.len then c.blockHash else none) with
  | some blockHash => some (.shouldFinalize c.viewNumber blockHash)
  | none => none

/-- `tick` -/
def tick (env : Env P) (now : Nat) : Op P (ViewProgressEvent P) := do
  Act.modify fun s =>
    { s with canonicalRecoveryPending := s.canonicalRecoveryPending.filter fun e =>
        (s.viewChain.findViewContext e.1).any fun c => c.block.isNone }
  let c ← current
  let s ← Act.get
  match timedOutPastView env now s c with
  | some view => return .shouldNullify view
  | none =>
    match tickCurrent env now s c with
    | some event => return event
    | none =>
      let requests ← tickRecovery env now
      match requests with
      | [(view, blockHash)] => return .shouldRequestBlock view blockHash
      | [] =>
        if !c.hasVoted && !c.hasNullified && c.block.isNone then return .await
        else return .noOp
      | _ => return .shouldRequestBlocks requests

end ViewProgressManager

end Minimmit
