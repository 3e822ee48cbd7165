/-
Minimmit.Consensus.EventLoop — the event handler cut where it recurses.

`handle_event` first does something that does not recurse and then goes on in
one of four ways (`Rest`): it is done, it processes a stored certificate, it
completes the step to the next view, or it proposes. `handleEventWith_eq` says
so; what is proved of the event loop is proved of `eventPrefix` and of the
four ways to go on.
-/
import Minimmit.Consensus.StateMachine

namespace Minimmit

open Minimmit.Library ViewProgressManager

variable {P : Params}

namespace Replica

/-! ## The event handler without its recursion -/

/-- How an event goes on. -/
inductive Rest (P : Params) where
  | done
  /-- The stored M-notarization of the view is processed. -/
  | stored (view : Nat)
  /-- The next view has been opened. -/
  | progress (view leader : Nat) (parentBlockHash : Hash P)
  | propose (view : Nat) (parentBlockHash : Hash P)

variable (env : Env P)

/-- What an event does before it recurses. -/
def eventPrefix : ViewProgressEvent P → Op P (Rest P)
  | .noOp => return .done
  | .await => return .done
  | .shouldProposeBlock view parentBlockHash => return .propose view parentBlockHash
  | .shouldVote view blockHash => do
    voteForBlock env view blockHash
    return .done
  | .shouldMNotarize view _ shouldForward => do
    createAndBroadcastMNotarization env view shouldForward
    return .stored view
  | .shouldFinalize view _ => do
    finalizeView view
    return .done
  | .shouldNullify view => do
    nullifyView env view false
    return .done
  | .shouldBroadcastNullification view => do
    broadcastNullification env view
    return .done
  | .shouldVoteAndMNotarize view blockHash shouldForward => do
    voteForBlock env view blockHash
    createAndBroadcastMNotarization env view shouldForward
    return .stored view
  | .shouldVoteAndFinalize view blockHash => do
    voteForBlock env view blockHash
    finalizeView view
    return .done
  | .progressToNextView newView leader notarizedBlockHash shouldForward => do
    createAndBroadcastMNotarization env (newView - 1) shouldForward
    return .progress newView leader notarizedBlockHash
  | .shouldVoteAndProgressToNextView oldView blockHash newView leader shouldForward => do
    voteForBlock env oldView blockHash
    createAndBroadcastMNotarization env oldView shouldForward
    return .progress newView leader blockHash
  | .progressToNextViewOnNullification newView leader parentBlockHash broadcast => do
    forwardNullification env broadcast (newView - 1)
    return .progress newView leader parentBlockHash
  | .shouldUpdateView _ _ => return .done
  | .shouldNullifyView view => do
    nullifyView env view false
    return .done
  | .broadcastConsensusMessage message => do
    broadcastConsensusMessage env message
    return .done
  | .shouldCascadeNullification startView broadcast => do
    let _ ← Act.attempt (forwardNullification env broadcast startView)
    let currentView ← nullifyCurrentAndRollback env startView
    recordCascade startView
    let (leader, parentHash) ← onManager (progressAfterCascade (currentView + 1))
    return .progress (currentView + 1) leader parentHash
  | .shouldNullifyRange startView => do
    let _ ← nullifyCurrentAndRollback env startView
    return .done
  | .shouldRequestBlock view blockHash => do
    broadcastConsensusMessage env (.blockRecoveryRequest view blockHash)
    return .done
  | .shouldRequestBlocks requests => do
    requests.forM fun r => do
      let _ ← Act.attempt (broadcastConsensusMessage env (.blockRecoveryRequest r.1 r.2))
      return ()
    return .done

/-! ## The parts of an event -/

/-- What an event sends. -/
inductive Sending (P : Params) where
  | nothing
  | message (m : ConsensusMessage P)
  /-- The errors of the queue are dropped. -/
  | requests (rs : List (Nat × Hash P))
  | mNotarization (view : Nat) (shouldForward : Bool)
  | nullification (view : Nat) (shouldBroadcast : Bool)

def Sending.run : Sending P → Op P Unit
  | .nothing => return ()
  | .message m => broadcastConsensusMessage env m
  | .requests rs =>
    rs.forM fun r => do
      let _ ← Act.attempt (broadcastConsensusMessage env (.blockRecoveryRequest r.1 r.2))
      return ()
  | .mNotarization view shouldForward => createAndBroadcastMNotarization env view shouldForward
  | .nullification view shouldBroadcast => forwardNullification env shouldBroadcast view

/-- What an event does after the vote it may cast. -/
inductive Part (P : Params) where
  | send (sending : Sending P) (rest : Rest P)
  | finalize (view : Nat)
  | nullify (view : Nat)
  | cascade (startView : Nat) (shouldBroadcast : Bool)
  | nullifyRange (startView : Nat)

def Part.run : Part P → Op P (Rest P)
  | .send sending rest => do
    sending.run env
    return rest
  | .finalize view => do
    finalizeView view
    return .done
  | .nullify view => do
    nullifyView env view false
    return .done
  | .cascade startView shouldBroadcast =>
    eventPrefix env (.shouldCascadeNullification startView shouldBroadcast)
  | .nullifyRange startView => do
    let _ ← nullifyCurrentAndRollback env startView
    return .done

def castVote : Option (Nat × Hash P) → Op P Unit
  | none => return ()
  | some vote => voteForBlock env vote.1 vote.2

/-- The vote an event casts first. -/
def eventVote : ViewProgressEvent P → Option (Nat × Hash P)
  | .shouldVote view blockHash | .shouldVoteAndMNotarize view blockHash _
  | .shouldVoteAndFinalize view blockHash
  | .shouldVoteAndProgressToNextView view blockHash _ _ _ => some (view, blockHash)
  | _ => none

/-- What it does then. -/
def eventPart : ViewProgressEvent P → Part P
  | .noOp | .await | .shouldVote _ _ | .shouldUpdateView _ _ => .send .nothing .done
  | .shouldProposeBlock view parent => .send .nothing (.propose view parent)
  | .shouldMNotarize view _ forward | .shouldVoteAndMNotarize view _ forward =>
    .send (.mNotarization view forward) (.stored view)
  | .shouldFinalize view _ | .shouldVoteAndFinalize view _ => .finalize view
  | .shouldNullify view | .shouldNullifyView view => .nullify view
  | .shouldBroadcastNullification view => .send (.nullification view true) .done
  | .progressToNextView newView leader parent forward =>
    .send (.mNotarization (newView - 1) forward) (.progress newView leader parent)
  | .shouldVoteAndProgressToNextView oldView blockHash newView leader forward =>
    .send (.mNotarization oldView forward) (.progress newView leader blockHash)
  | .progressToNextViewOnNullification newView leader parent broadcast =>
    .send (.nullification (newView - 1) broadcast) (.progress newView leader parent)
  | .broadcastConsensusMessage message => .send (.message message) .done
  | .shouldCascadeNullification startView broadcast => .cascade startView broadcast
  | .shouldNullifyRange startView => .nullifyRange startView
  | .shouldRequestBlock view blockHash =>
    .send (.message (.blockRecoveryRequest view blockHash)) .done
  | .shouldRequestBlocks requests => .send (.requests requests) .done

/-- An event casts its vote and does its part. -/
theorem eventPrefix_eq (event : ViewProgressEvent P) :
    eventPrefix env event = castVote env (eventVote event) >>= fun _ => (eventPart event).run env := by
  cases event <;> rfl

variable (fuel : Nat) (handleEvent : ViewProgressEvent P → Op P Unit)

/-- What comes after it. -/
def runRest : Rest P → Op P Unit
  | .done => return ()
  | .stored view => processStoredMNotarization fuel handleEvent view
  | .progress view leader parentBlockHash =>
    progressToNextViewWith env fuel handleEvent view leader parentBlockHash
  | .propose view parentBlockHash => proposeBlockWith env fuel handleEvent view parentBlockHash

theorem handleEventWith_eq (event : ViewProgressEvent P) :
    handleEventWith env fuel handleEvent event =
      eventPrefix env event >>= runRest env fuel handleEvent := by
  cases event <;> simp only [handleEventWith, eventPrefix, Act.bind_bind, Act.pure_bind, runRest,
    Act.bind_pure_unit]

/-- The leader signs and sends its block and processes it itself. -/
def sendOwnProposal (block : Block P) : Op P (ViewProgressEvent P) := do
  let s ← Act.get
  record (.proposal block s.viewManager.viewChain (env.broadcastOk s.clock))
  broadcastConsensusMessage env (.blockProposal block)
  noteProcessed (.blockProposal block)
  onManager (processConsensusMsg fuel (.blockProposal block))

/-- `propose_block` with its own proposal as one step. -/
theorem proposeBlockWith_eq (view : Nat) (parentBlockHash : Hash P) :
    proposeBlockWith env fuel handleEvent view parentBlockHash = (do
      let now ← askEnv
      if env.proposalQueueOk now then
        let s ← Act.get
        let block := buildBlock s.viewManager.replicaId s.secretKey view parentBlockHash
          (env.transactions now) (env.timestamp now)
        let event ← sendOwnProposal env fuel block
        handleOwnProposal env handleEvent block.leaderSignature event
        onManager (markProposed view)
      else Act.throw .proposalQueueFull) := by
  unfold proposeBlockWith sendOwnProposal
  simp only [Act.bind_bind]
  rfl

end Replica

end Minimmit
