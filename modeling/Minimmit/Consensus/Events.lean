/-
Minimmit.Consensus.Events — messages, events, results and errors
(consensus.rs, consensus_manager/events.rs and the result types of
view_context.rs).

The errors are the `anyhow!` sites of the modelled functions, one
constructor per site or per family of sites with one text, carrying the
values the text shows.
-/
import Minimmit.State.Notarizations

namespace Minimmit

variable (P : Params)

/-- `ConsensusMessage` -/
inductive ConsensusMessage where
  | blockProposal (block : Block P)
  | vote (vote : Vote P)
  | nullify (nullify : Nullify P)
  | mNotarization (mNotarization : MNotarization P)
  | nullification (nullification : Nullification P)
  | blockRecoveryRequest (view : Nat) (blockHash : Hash P)
  | blockRecoveryResponse (view : Nat) (block : Block P)

variable {P} in
/-- The numbers of a message are `u64` values. -/
def ConsensusMessage.WellTyped : ConsensusMessage P → Prop
  | .blockProposal block => block.WellTyped
  | .vote v => v.view < u64Size ∧ v.peerId < u64Size ∧ v.leaderId < u64Size
  | .nullify n => n.view < u64Size ∧ n.peerId < u64Size ∧ n.leaderId < u64Size
  | .mNotarization m => m.view < u64Size ∧ m.leaderId < u64Size ∧ ∀ i ∈ m.peerIds, i < u64Size
  | .nullification n => n.view < u64Size ∧ n.leaderId < u64Size ∧ ∀ i ∈ n.peerIds, i < u64Size
  | .blockRecoveryRequest view _ => view < u64Size
  | .blockRecoveryResponse view block => view < u64Size ∧ block.WellTyped

instance (m : ConsensusMessage P) : Decidable m.WellTyped := by
  unfold ConsensusMessage.WellTyped
  split <;> infer_instance

/-- `ViewProgressEvent` -/
inductive ViewProgressEvent where
  | shouldProposeBlock (view : Nat) (parentBlockHash : Hash P)
  | shouldVote (view : Nat) (blockHash : Hash P)
  | shouldNullify (view : Nat)
  | shouldBroadcastNullification (view : Nat)
  | shouldMNotarize (view : Nat) (blockHash : Hash P) (shouldForward : Bool)
  | shouldVoteAndMNotarize (view : Nat) (blockHash : Hash P) (shouldForward : Bool)
  | shouldVoteAndProgressToNextView (oldView : Nat) (blockHash : Hash P) (newView leader : Nat)
      (shouldForward : Bool)
  | progressToNextView (newView leader : Nat) (notarizedBlockHash : Hash P) (shouldForward : Bool)
  | shouldFinalize (view : Nat) (blockHash : Hash P)
  | shouldVoteAndFinalize (view : Nat) (blockHash : Hash P)
  | progressToNextViewOnNullification (newView leader : Nat) (parentBlockHash : Hash P)
      (shouldBroadcastNullification : Bool)
  | broadcastConsensusMessage (message : ConsensusMessage P)
  | noOp
  | await
  | shouldUpdateView (newView leader : Nat)
  | shouldNullifyView (view : Nat)
  | shouldCascadeNullification (startView : Nat) (shouldBroadcastNullification : Bool)
  | shouldNullifyRange (startView : Nat)
  | shouldRequestBlock (view : Nat) (blockHash : Hash P)
  | shouldRequestBlocks (requests : List (Nat × Hash P))

/-- `LeaderProposalResult` -/
structure LeaderProposalResult where
  blockHash : Hash P
  shouldVote : Bool
  isEnoughToMNotarize : Bool
  isEnoughToFinalize : Bool
  shouldAwait : Bool
  shouldNullify : Bool

/-- `CollectedVotesResult` -/
structure CollectedVotesResult where
  shouldAwait : Bool
  isEnoughToMNotarize : Bool
  isEnoughToFinalize : Bool
  shouldNullify : Bool
  shouldVote : Bool
  deriving DecidableEq, Repr

/-- `ShouldMNotarize` -/
structure ShouldMNotarize where
  shouldNotarize : Bool
  shouldAwait : Bool
  shouldVote : Bool
  shouldNullify : Bool
  shouldForward : Bool
  deriving DecidableEq, Repr

/-- The message a family of errors is about. -/
inductive MessageKind where
  | block | vote | nullify | mNotarization | nullification
  deriving DecidableEq, Repr

/-- Why a consensus operation returned an error. -/
inductive ConsensusError where
  /-- A message whose view is not the one of the context it was given to. -/
  | viewMismatch (kind : MessageKind) (got expected : Nat)
  /-- A message that names another leader than the context. -/
  | leaderMismatch (kind : MessageKind) (got expected : Nat)
  /-- A vote or nullify message of a peer outside the peer set. -/
  | unknownPeer (kind : MessageKind) (peerId : Nat)
  /-- A second vote or nullify message of a peer. -/
  | duplicate (kind : MessageKind) (peerId : Nat)
  | duplicateNonVerifiedVote (peerId : Nat)
  | invalidSignature (kind : MessageKind) (peerId : Nat)
  | invalidCertificate (kind : MessageKind)
  /-- A message for a view that is neither held nor older than the held ones. -/
  | viewNotHeld (kind : MessageKind) (view current : Nat)
  /-- A message for a future view that names the wrong leader. -/
  | wrongViewLeader (kind : MessageKind) (got expected view : Nat)
  | peerIdNotFound (peerId : Nat)
  | blockAlreadyExists (view : Nat)
  | pendingBlockExists (view : Nat)
  | parentMismatch (got expected : Hash P)
  | notEnoughSignatures (kind : MessageKind) (got needed : Nat)
  | alreadyVoted
  | ownVoteMismatch (got expected : Hash P)
  | alreadyNullified
  | timeoutAfterVoting
  | progressedWithoutCertificate (view : Nat)
  | recoveredViewNotHeld (view : Nat)
  | recoveredWithoutHash (view : Nat)
  | recoveredHashMismatch (view : Nat) (expected got : Hash P)
  | parentNullified (parentView view : Nat)
  | intermediateNotNullified (view parentView child : Nat)
  | parentNotCommitted (got expected : Hash P)
  | notNextView (got expected : Nat)
  | progressWithoutMNotarization (view : Nat)
  | progressWithoutNullification (view : Nat)
  | progressWithoutLocalNullify (view : Nat)
  | finalizeFuture (view current : Nat)
  | finalizeNotHeld (view : Nat)
  | finalizeWithoutLNotarization (view : Nat)
  | finalizeNullified (view : Nat)
  | finalizeParentWithoutMNotarization (parentView view : Nat)
  | finalizeParentNotOlder (parentView view : Nat)
  | persistWithoutBlock (view : Nat)
  | persistWithoutBlockHash (view : Nat)
  | persistWithoutMNotarization (view : Nat)
  | persistWithoutNullification (view : Nat)
  | viewNotFound (view : Nat)
  | mNotarizationNotFound (view : Nat)
  | nullificationNotFound (view : Nat)
  | blockNotFound (view : Nat)
  | blockHashMissing
  | cannotMarkProposed (view current : Nat)
  | cannotMarkNullified (view : Nat)
  | broadcastFailed
  | proposalQueueFull

end Minimmit
