/-
Minimmit.Consensus.ViewContext — the state of one view
(consensus_manager/view_context.rs, consensus_manager/utils.rs).

Every function takes the context it is called on and returns the context it
leaves behind, also when it returns an error. `received` is a history
variable: the votes `addVote` has accepted, in order, which the source does
not keep when they are for another block (it only counts them in
`num_invalid_votes`). The instant a view was entered is not stored; whether
a view timed out is asked of the environment.
-/
import Minimmit.Consensus.Events
import Minimmit.Library.Outcome
import Minimmit.Validation.PendingState

namespace Minimmit

open Minimmit.Library

/-- `ViewContext` -/
structure ViewContext (P : Params) where
  viewNumber : Nat
  hasVoted : Bool
  blockHash : Option (Hash P)
  parentBlockHash : Hash P
  hasNullified : Bool
  hasProposed : Bool
  leaderId : Nat
  replicaId : Nat
  block : Option (Block P)
  stateDiff : Option (StateDiff P)
  numInvalidVotes : Nat
  votes : KeySet (Vote.key (P := P))
  nonVerifiedVotes : KeySet (Vote.key (P := P))
  mNotarization : Option (MNotarization P)
  nullifyMessages : KeySet (Nullify.key (P := P))
  nullification : Option (Nullification P)
  pendingBlock : Option (Block P)
  /-- History: the votes accepted so far. -/
  received : List (Vote P)

variable {P : Params}

/-- `create_notarization_data` and `create_nullification_data`: the ids and
the aggregated signature of the first `M_SIZE` records in iteration order. -/
def createCertificateData {α : Type} (seed : Nat) (peerId : α → Nat)
    (signature : α → BlsSignature P) (records : List α) :
    Option ({ ids : List Nat // ids.length = P.mSize } × BlsSignature P) :=
  if h : records.length < P.mSize then none
  else
    let first := (P.hashOrder.apply seed α records).take P.mSize
    some (⟨first.map peerId, by
      rw [List.length_map, List.length_take, (P.hashOrder.perm seed α records).length_eq]
      omega⟩, Crypto.aggregateSignatures P.curve (first.map signature))

namespace ViewContext

/-- An operation on a context. -/
abbrev Op (P : Params) (α : Type) : Type := Act (ViewContext P) (ConsensusError P) α

/-- `ViewContext::new` -/
def new (viewNumber leaderId replicaId : Nat) (parentBlockHash : Hash P) : ViewContext P :=
  { viewNumber, hasVoted := false, blockHash := none, parentBlockHash, hasNullified := false,
    hasProposed := false, leaderId, replicaId, block := none, stateDiff := none,
    numInvalidVotes := 0, votes := ∅, nonVerifiedVotes := ∅, mNotarization := none,
    nullifyMessages := ∅, nullification := none, pendingBlock := none, received := [] }

variable (c : ViewContext P)

/-- `should_nullify_after_receiving_new_vote` -/
def shouldNullifyAfterReceivingNewVote : Bool :=
  !c.hasNullified && (decide (P.F < c.numInvalidVotes) ||
    decide (2 * P.F < c.nullifyMessages.len + c.numInvalidVotes))

/-- `has_view_progressed_without_m_notarization`, as a test. -/
def hasCertificate : Bool :=
  c.mNotarization.isSome || c.nullification.isSome

/-- `is_leader` -/
def isLeader : Bool := c.leaderId == c.replicaId

/-- Is the view nullified, by a certificate or by this replica's own
message? -/
def isNullified : Bool := c.nullification.isSome || c.hasNullified

/-- Move the waiting votes for `blockHash` to the counted ones and count the
others as invalid. -/
def absorbNonVerified (blockHash : Hash P) : ViewContext P :=
  let matching := c.nonVerifiedVotes.elems.filter fun v => decide (v.blockHash = blockHash)
  { c with
    votes := matching.foldl (fun s v => s.insert v) c.votes
    numInvalidVotes := c.numInvalidVotes + (c.nonVerifiedVotes.len - matching.length)
    nonVerifiedVotes := ∅ }

/-- Mark the stored block as finalized (`block.is_finalized = true`). -/
def markBlockFinalized : ViewContext P :=
  { c with block := c.block.map fun b => { b with isFinalized := true } }

/-! ## The leader's block -/

/-- The result that asks for a nullify message. -/
def nullifyProposal (blockHash : Hash P) : LeaderProposalResult P :=
  { blockHash, shouldVote := false, isEnoughToMNotarize := false, isEnoughToFinalize := false,
    shouldAwait := false, shouldNullify := true }

/-- The part of `add_new_view_block` after the checks: store the block,
count the leader's signature as its vote, absorb the waiting votes. -/
def storeBlock (block : Block P) (stateDiff : StateDiff P) : ViewContext P :=
  let blockHash := block.getHash
  let leaderVote : Vote P :=
    { view := c.viewNumber, blockHash, signature := block.leaderSignature,
      peerId := c.leaderId, leaderId := c.leaderId }
  absorbNonVerified
    { c with
      blockHash := some blockHash
      block := some block
      stateDiff := some stateDiff
      votes := c.votes.insert leaderVote } blockHash

/-- `add_new_view_block` -/
def addNewViewBlock (block : Block P) (stateDiff : StateDiff P) (peers : PeerSet P) :
    Op P (LeaderProposalResult P) := fun c =>
  if block.view ≠ c.viewNumber then (.err (.viewMismatch .block block.view c.viewNumber), c)
  else if c.block.isSome then (.err (.blockAlreadyExists c.viewNumber), c)
  else if block.leader ≠ c.leaderId then (.err (.leaderMismatch .block block.leader c.leaderId), c)
  else if block.parentBlockHash ≠ c.parentBlockHash then
    (.err (.parentMismatch block.parentBlockHash c.parentBlockHash), c)
  else match peers.getPublicKey c.leaderId with
  | none => (.err (.peerIdNotFound c.leaderId), c)
  | some leaderPublicKey =>
    if !Crypto.verify P.hashing P.curve leaderPublicKey (blockMessage block.getHash)
        block.leaderSignature then
      (.err (.invalidSignature .block c.leaderId), c)
    else if c.mNotarization.any fun m => decide (m.blockHash ≠ block.getHash) then
      -- the leader's block is not the one that was M-notarized
      (.ok (nullifyProposal block.getHash), c)
    else
      let c := c.storeBlock block stateDiff
      if c.shouldNullifyAfterReceivingNewVote then (.ok (nullifyProposal block.getHash), c)
      else
        let isEnoughToFinalize := decide (P.N - P.F ≤ c.votes.len)
        (.ok
          { blockHash := block.getHash
            shouldVote := !c.hasVoted && !c.hasNullified
            isEnoughToMNotarize := decide (2 * P.F < c.votes.len) || c.mNotarization.isSome
            isEnoughToFinalize
            shouldAwait := false
            shouldNullify := false },
          if isEnoughToFinalize then c.markBlockFinalized else c)

/-! ## Votes -/

/-- `add_vote` once the vote has passed every check. -/
def countVote (vote : Vote P) : Op P CollectedVotesResult := fun c =>
  let c := { c with received := c.received ++ [vote] }
  match c.blockHash with
  | none =>
    -- no block yet: the vote waits
    let same := (c.nonVerifiedVotes.elems.filter fun v => decide (v.blockHash = vote.blockHash)).length
    let shouldVote := !c.hasVoted && !c.hasNullified && decide (2 * P.F < same + 1)
    let c := { c with nonVerifiedVotes := c.nonVerifiedVotes.insert vote }
    (.ok
      { shouldAwait := true, isEnoughToMNotarize := false, isEnoughToFinalize := false,
        shouldNullify := c.shouldNullifyAfterReceivingNewVote, shouldVote }, c)
  | some blockHash =>
    if vote.blockHash ≠ blockHash then
      -- a vote for another block is counted and forgotten
      let c := { c with numInvalidVotes := c.numInvalidVotes + 1 }
      (.ok
        { shouldAwait := false, isEnoughToMNotarize := false, isEnoughToFinalize := false,
          shouldNullify := c.shouldNullifyAfterReceivingNewVote, shouldVote := false }, c)
    else
      let c := { c with votes := c.votes.insert vote }
      let result : CollectedVotesResult :=
        { shouldAwait := false
          isEnoughToMNotarize := decide (2 * P.F < c.votes.len) && c.mNotarization.isNone
          isEnoughToFinalize := decide (P.N - P.F ≤ c.votes.len)
          shouldNullify := c.shouldNullifyAfterReceivingNewVote
          shouldVote := false }
      if result.isEnoughToMNotarize then
        match createCertificateData c.replicaId Vote.peerId Vote.signature c.votes.elems with
        | none => (.err (.notEnoughSignatures .vote c.votes.len P.mSize), c)
        | some (peerIds, aggregatedSignature) =>
          let mNotarization : MNotarization P :=
            { view := c.viewNumber, blockHash, aggregatedSignature, peerIds := peerIds.1,
              length_peerIds := peerIds.2, leaderId := c.leaderId }
          (.ok result, { c with mNotarization := some mNotarization })
      else (.ok result, c)

/-- `add_vote` -/
def addVote (vote : Vote P) (peers : PeerSet P) : Op P CollectedVotesResult := fun c =>
  if !peers.contains vote.peerId then (.err (.unknownPeer .vote vote.peerId), c)
  else if vote.view ≠ c.viewNumber then (.err (.viewMismatch .vote vote.view c.viewNumber), c)
  else if c.votes.elems.any fun v => decide (v.peerId = vote.peerId) then
    (.err (.duplicate .vote vote.peerId), c)
  else if c.nonVerifiedVotes.elems.any fun v => decide (v.peerId = vote.peerId) then
    (.err (.duplicateNonVerifiedVote vote.peerId), c)
  else match peers.getPublicKey vote.peerId with
  | none => (.err (.peerIdNotFound vote.peerId), c)
  | some peerPublicKey =>
    if !vote.verify peerPublicKey then (.err (.invalidSignature .vote vote.peerId), c)
    else countVote vote c

/-- The part of `add_own_vote` after its checks: record the vote and absorb
the waiting ones. -/
def castVote (blockHash : Hash P) (signature : BlsSignature P) :
    ViewContext P :=
  let ownVote : Vote P :=
    { view := c.viewNumber, blockHash, signature, peerId := c.replicaId, leaderId := c.leaderId }
  absorbNonVerified
    { c with
      blockHash := some blockHash
      hasVoted := true
      votes := c.votes.insert ownVote } blockHash

/-- `add_own_vote` -/
def addOwnVote (blockHash : Hash P) (signature : BlsSignature P) : Op P Unit := fun c =>
  if c.hasVoted then (.err .alreadyVoted, c)
  else match c.blockHash with
  | some currentHash =>
    if currentHash ≠ blockHash then (.err (.ownVoteMismatch blockHash currentHash), c)
    else (.ok (), c.castVote blockHash signature)
  | none => (.ok (), c.castVote blockHash signature)

/-! ## Nullify messages -/

/-- `add_nullify` -/
def addNullify (nullify : Nullify P) (peers : PeerSet P) : Op P Unit := fun c =>
  if !peers.contains nullify.peerId then (.err (.unknownPeer .nullify nullify.peerId), c)
  else if nullify.view ≠ c.viewNumber then
    (.err (.viewMismatch .nullify nullify.view c.viewNumber), c)
  else if nullify.leaderId ≠ c.leaderId then
    (.err (.leaderMismatch .nullify nullify.leaderId c.leaderId), c)
  else if c.nullifyMessages.elems.any fun n => decide (n.peerId = nullify.peerId) then
    (.err (.duplicate .nullify nullify.peerId), c)
  else match peers.getPublicKey nullify.peerId with
  | none => (.err (.peerIdNotFound nullify.peerId), c)
  | some peerPublicKey =>
    if !nullify.verify peerPublicKey then (.err (.invalidSignature .nullify nullify.peerId), c)
    else
      let c := { c with nullifyMessages := c.nullifyMessages.insert nullify }
      if 2 * P.F < c.nullifyMessages.len then
        match createCertificateData c.replicaId Nullify.peerId Nullify.signature
            c.nullifyMessages.elems with
        | none => (.err (.notEnoughSignatures .nullify c.nullifyMessages.len P.mSize), c)
        | some (peerIds, aggregatedSignature) =>
          let nullification : Nullification P :=
            { view := c.viewNumber, leaderId := c.leaderId, aggregatedSignature,
              peerIds := peerIds.1, length_peerIds := peerIds.2 }
          (.ok (), { c.markBlockFinalized with
            nullification := some nullification
            hasNullified := true })
      else (.ok (), c)

/-- `create_nullify_message`: the flag is set with the signature. -/
def createNullifyMessage (secretKey : BlsSecretKey P) : Op P (Nullify P) := fun c =>
  (.ok
    { view := c.viewNumber, leaderId := c.leaderId,
      signature := Crypto.sign P.hashing P.curve secretKey
        (nullifyMessage P c.viewNumber c.leaderId),
      peerId := c.replicaId },
    { c with hasNullified := true })

/-- `create_nullify_for_timeout` -/
def createNullifyForTimeout (secretKey : BlsSecretKey P) : Op P (Nullify P) := fun c =>
  if c.hasNullified then (.err .alreadyNullified, c)
  else if c.hasVoted then (.err .timeoutAfterVoting, c)
  else createNullifyMessage secretKey c

/-- `create_nullify_for_byzantine` and, with the same body,
`create_nullify_for_cascade`. -/
def createNullifyForByzantine (secretKey : BlsSecretKey P) : Op P (Nullify P) := fun c =>
  if c.hasNullified then (.err .alreadyNullified, c)
  else createNullifyMessage secretKey c

/-- `create_nullify_for_cascade` -/
def createNullifyForCascade (secretKey : BlsSecretKey P) : Op P (Nullify P) :=
  createNullifyForByzantine secretKey

/-! ## Certificates -/

/-- The answer to a certificate that conflicts with what the view holds. -/
def conflictingMNotarization : ShouldMNotarize :=
  { shouldNotarize := false, shouldAwait := false, shouldVote := false, shouldNullify := true,
    shouldForward := false }

/-- `add_m_notarization` on a context without a block hash: the hash of the
certificate becomes the hash of the view. -/
def adoptMNotarization (m : MNotarization P) (shouldVote : Bool) : Op P ShouldMNotarize := fun c =>
  let c := { c with blockHash := some m.blockHash }.absorbNonVerified m.blockHash
  if c.shouldNullifyAfterReceivingNewVote then
    -- the hash stays although the certificate is not stored
    (.ok conflictingMNotarization, c)
  else
    (.ok
      { shouldNotarize := false, shouldAwait := false, shouldVote, shouldNullify := false,
        shouldForward := c.mNotarization.isNone },
      { c with mNotarization := some (c.mNotarization.getD m) })

/-- `add_m_notarization` -/
def addMNotarization (m : MNotarization P) (peers : PeerSet P) : Op P ShouldMNotarize := fun c =>
  if m.view ≠ c.viewNumber then (.err (.viewMismatch .mNotarization m.view c.viewNumber), c)
  else if m.leaderId ≠ c.leaderId then
    (.err (.leaderMismatch .mNotarization m.leaderId c.leaderId), c)
  else match m.verify peers with
  | none => (.panic, c)
  | some false => (.err (.invalidCertificate .mNotarization), c)
  | some true =>
    let shouldVote := !c.hasVoted && !c.hasNullified
    match c.blockHash with
    | none => adoptMNotarization m shouldVote c
    | some blockHash =>
      if m.blockHash ≠ blockHash then (.ok conflictingMNotarization, c)
      else match c.mNotarization with
      | some existing =>
        if existing.blockHash = m.blockHash then
          (.ok
            { shouldNotarize := false, shouldAwait := false, shouldVote, shouldNullify := false,
              shouldForward := false }, c)
        else (.ok conflictingMNotarization, c)
      | none =>
        (.ok
          { shouldNotarize := c.nullification.isNone, shouldAwait := false, shouldVote,
            shouldNullify := false, shouldForward := true },
          { c with mNotarization := some m })

/-- `add_nullification`; the value is `should_broadcast_nullification`. -/
def addNullification (n : Nullification P) (peers : PeerSet P) : Op P Bool := fun c =>
  if n.view ≠ c.viewNumber then (.err (.viewMismatch .nullification n.view c.viewNumber), c)
  else if n.leaderId ≠ c.leaderId then
    (.err (.leaderMismatch .nullification n.leaderId c.leaderId), c)
  else match n.verify peers with
  | none => (.panic, c)
  | some false => (.err (.invalidCertificate .nullification), c)
  | some true =>
    let c := c.markBlockFinalized
    if c.nullification.isSome then (.ok false, c)
    else (.ok true, { c with nullification := some n, hasNullified := true })

end ViewContext

end Minimmit
