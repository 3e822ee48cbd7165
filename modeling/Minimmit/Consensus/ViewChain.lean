/-
Minimmit.Consensus.ViewChain — the views that are not finalized yet
(consensus_manager/view_chain.rs).

The chain holds one context per non-finalized view, the view the replica is
in, the hash it committed last and the writer of the pending state. Messages
are routed to the context of their view; `finalizeWithLNotarization` walks
the parent hashes back from a finalizable view through the held contexts,
decides from that walk which views are canonical, and persists and drops
every view up to it.

`committed` is a history variable: the successive values given to
`previously_committed_block_hash`. Iterations over the map use
`P.hashOrder`.
-/
import Minimmit.Consensus.ViewContext

namespace Minimmit

open Minimmit.Library

/-- `ViewChain` -/
structure ViewChain (P : Params) where
  currentView : Nat
  nonFinalizedViews : AList (fun _ : Nat => ViewContext P)
  persistenceWriter : PendingStateWriter P
  previouslyCommittedBlockHash : Hash P
  pendingCanonicalRecovery : List (Nat × Hash P)
  /-- The seed of the map's iteration order. -/
  hashSeed : Nat
  /-- History: the hashes committed so far, oldest first. -/
  committed : List (Hash P)
  /-- History: the views whose diff was published, with their contexts then. -/
  publications : List (Nat × ViewContext P)

namespace ViewChain

variable {P : Params}

/-- An operation on the chain. -/
abbrev Op (P : Params) (α : Type) : Type := Act (ViewChain P) (ConsensusError P) α

/-- `ViewChain::new` -/
def new (initialView : ViewContext P) (persistenceWriter : PendingStateWriter P)
    (hashSeed : Nat) : ViewChain P :=
  { currentView := initialView.viewNumber
    nonFinalizedViews := AList.singleton initialView.viewNumber initialView
    persistenceWriter
    previouslyCommittedBlockHash := Block.genesisHash P
    pendingCanonicalRecovery := []
    hashSeed
    committed := []
    publications := [] }

/-! ## Lookups -/

variable (s : ViewChain P)

/-- `find_view_context` -/
def findViewContext (view : Nat) : Option (ViewContext P) :=
  s.nonFinalizedViews.lookup view

/-- Store a context under its view. -/
def setContext (view : Nat) (c : ViewContext P) : ViewChain P :=
  { s with nonFinalizedViews := s.nonFinalizedViews.insert view c }

/-- The entries in the iteration order of the map. -/
def iter : List (Nat × ViewContext P) :=
  P.hashOrder.apply s.hashSeed _ (s.nonFinalizedViews.entries.map fun e => (e.1, e.2))

/-- `find_parent_view`: some held view whose block hash is `parentHash`. -/
def findParentView (parentHash : Hash P) : Option Nat :=
  (s.iter.find? fun e => decide (e.2.blockHash = some parentHash)).map (·.1)

/-- The least held view (`keys().min()`). -/
def leastView : Option Nat := s.nonFinalizedViews.keys.min?

/-- The views `a, a + 1, .., b`. -/
def viewRange (a b : Nat) : List Nat := List.range' a (b + 1 - a)

/-- `non_finalized_view_numbers_range` -/
def nonFinalizedViewNumbersRange : List Nat :=
  viewRange (s.leastView.getD s.currentView) s.currentView

/-- `non_finalized_views_until` -/
def nonFinalizedViewsUntil (view : Nat) : Option (List Nat) :=
  match s.leastView with
  | none => none
  | some least =>
    if min view s.currentView < least then none
    else some (viewRange least (min view s.currentView))

/-- Every held view strictly between `parentView` and `view` is nullified;
views that are not held pass. -/
def intermediatesNullified (parentView view : Nat) : Bool :=
  (List.range' (parentView + 1) (view - (parentView + 1))).all fun v =>
    match s.findViewContext v with
    | some c => c.isNullified
    | none => true

/-- The first held view between `parentView` and `view` that is not
nullified. -/
def firstNotNullified (parentView view : Nat) : Option Nat :=
  (List.range' (parentView + 1) (view - (parentView + 1))).find? fun v =>
    match s.findViewContext v with
    | some c => !c.isNullified
    | none => false

/-- The parent test of `oldest_finalizable_view`. -/
def parentFinalizable (view : Nat) (block : Block P) : Bool :=
  match s.findParentView block.parentBlockHash with
  | some parentView =>
    (match s.findViewContext parentView with
      | some parent => parent.mNotarization.isSome && parent.block.isSome
      | none => false) && s.intermediatesNullified parentView view
  | none => decide (block.parentBlockHash = s.previouslyCommittedBlockHash)

/-- `oldest_finalizable_view`. A stored block always comes with its hash, so
the `unwrap` of the source has no case here. -/
def oldestFinalizableView : Option (Nat × Hash P) :=
  let candidates := s.nonFinalizedViews.keys.filter fun v =>
    match s.findViewContext v with
    | some c => decide (P.N - P.F ≤ c.votes.len) && c.block.isSome && !c.isNullified
    | none => false
  (candidates.insertionSort (· ≤ ·)).findSome? fun v =>
    if s.currentView ≤ v then none
    else match s.findViewContext v with
      | none => none
      | some c => match c.block, c.blockHash with
        | some block, some blockHash =>
          if s.parentFinalizable v block then some (v, blockHash) else none
        | _, _ => none

/-- `select_parent`: the M-notarized hash of the greatest held view below
`newView` that is not nullified, else the last committed hash. -/
def selectParent (newView : Nat) : Hash P :=
  let greatest := s.iter.foldl (fun best e =>
    if e.2.isNullified then best
    else if e.1 < newView then
      match e.2.mNotarization, best with
      | some m, none => some (e.1, m.blockHash)
      | some m, some (prev, h) => if prev < e.1 then some (e.1, m.blockHash) else some (prev, h)
      | none, best => best
    else best) none
  (greatest.map (·.2)).getD s.previouslyCommittedBlockHash

/-- `get_block_for_recovery` -/
def getBlockForRecovery (view : Nat) (blockHash : Hash P) : Option (Block P) :=
  match (s.findViewContext view).bind (·.block) with
  | some block => some block
  | none =>
    let store := s.persistenceWriter.store
    match store.getFinalizedBlockByHeight view with
    | some block => some block
    | none => match store.getNullifiedBlock blockHash with
      | some block => some block
      | none => store.getNonFinalizedBlock blockHash

/-! ## Pending state -/

/-- An update of the writer. -/
def onWriter (f : PendingStateWriter P → PendingStateWriter P) : ViewChain P :=
  { s with persistenceWriter := f s.persistenceWriter }

/-- Hand a diff to the writer, and record that. -/
def publishDiff (view : Nat) (c : ViewContext P) (stateDiff : StateDiff P) :
    ViewChain P :=
  { s.onWriter (·.addMNotarizedDiff view stateDiff) with
    publications := s.publications ++ [(view, c)] }

/-- `on_m_notarization`: publish the diff of an M-notarized view. -/
def onMNotarization (view : Nat) : ViewChain P :=
  match s.findViewContext view with
  | some c =>
    match c.mNotarization, c.stateDiff with
    | some _, some stateDiff => s.publishDiff view c stateDiff
    | _, _ => s
  | none => s

/-- `remove_pending_diff` -/
def removePendingDiff (view : Nat) : ViewChain P :=
  s.onWriter (·.removeNullifiedView view)

/-- `rollback_pending_diffs_in_range` -/
def rollbackPendingDiffsInRange (startView endView : Nat) : ViewChain P :=
  (viewRange startView endView).foldl removePendingDiff s

/-! ## Routing -/

/-- Run an operation on a held context and store what it leaves. -/
def runOn {α : Type} (view : Nat) (c : ViewContext P) (op : ViewContext.Op P α) : Op P α := fun s =>
  match op c with
  | (o, c') => (o, s.setContext view c')

/-- The answer to a message for a view that is not held: ignored (`ok`) when
it is older than every held view, an error otherwise. -/
def notHeld {α : Type} (kind : MessageKind) (view : Nat) (ignored : α) : Op P α := fun s =>
  if view < s.leastView.getD s.currentView then (.ok ignored, s)
  else (.err (.viewNotHeld kind view s.currentView), s)

/-- A past view has to have an M-notarization or a nullification. -/
def lacksCertificate (c : ViewContext P) : Bool :=
  decide (c.viewNumber ≠ s.currentView) && !c.hasCertificate

/-- The result of a vote that is not looked at. -/
def ignoredVote : CollectedVotesResult :=
  { shouldAwait := false, isEnoughToMNotarize := false, isEnoughToFinalize := false,
    shouldNullify := false, shouldVote := false }

/-- `route_vote` -/
def routeVote (vote : Vote P) (peers : PeerSet P) : Op P CollectedVotesResult := fun s =>
  match s.findViewContext vote.view with
  | some c =>
    if c.isNullified then (.ok ignoredVote, s)
    else if s.lacksCertificate c then (.err (.progressedWithoutCertificate c.viewNumber), s)
    else runOn vote.view c (ViewContext.addVote vote peers) s
  | none => notHeld .vote vote.view ignoredVote s

/-- `route_nullify`; the value says whether the view has a nullification. -/
def routeNullify (nullify : Nullify P) (peers : PeerSet P) : Op P Bool := fun s =>
  match s.findViewContext nullify.view with
  | some c =>
    if s.lacksCertificate c then (.err (.progressedWithoutCertificate c.viewNumber), s)
    else
      match ViewContext.addNullify nullify peers c with
      | (.ok _, c') => (.ok c'.nullification.isSome, s.setContext nullify.view c')
      | (.err e, c') => (.err e, s.setContext nullify.view c')
      | (.panic, c') => (.panic, s.setContext nullify.view c')
      | (.exhausted, c') => (.exhausted, s.setContext nullify.view c')
  | none => notHeld .nullify nullify.view false s

/-- The result of an M-notarization that is not looked at. -/
def ignoredMNotarization : ShouldMNotarize :=
  { shouldNotarize := false, shouldAwait := false, shouldVote := false, shouldNullify := false,
    shouldForward := false }

/-- `route_m_notarization` -/
def routeMNotarization (m : MNotarization P) (peers : PeerSet P) : Op P ShouldMNotarize := fun s =>
  match s.findViewContext m.view with
  | some c =>
    if s.lacksCertificate c then (.err (.progressedWithoutCertificate c.viewNumber), s)
    else runOn m.view c (ViewContext.addMNotarization m peers) s
  | none => notHeld .mNotarization m.view ignoredMNotarization s

/-- `route_nullification`: unlike the other three, an old view is an error. -/
def routeNullification (n : Nullification P) (peers : PeerSet P) : Op P Bool := fun s =>
  match s.findViewContext n.view with
  | some c =>
    if s.lacksCertificate c then (.err (.progressedWithoutCertificate c.viewNumber), s)
    else runOn n.view c (ViewContext.addNullification n peers) s
  | none => (.err (.viewNotHeld .nullification n.view s.currentView), s)

/-! ## Blocks -/

/-- `add_recovered_block`: the only check on the block is its `get_hash`. -/
def addRecoveredBlock (view : Nat) (block : Block P) : Op P Bool := fun s =>
  match s.findViewContext view with
  | none => (.err (.recoveredViewNotHeld view), s)
  | some c =>
    if c.block.isSome then (.ok false, s)
    else match c.blockHash with
    | none => (.err (.recoveredWithoutHash view), s)
    | some expectedHash =>
      if block.getHash ≠ expectedHash then
        (.err (.recoveredHashMismatch view expectedHash block.getHash), s)
      else
        (.ok (decide (P.N - P.F ≤ c.votes.len) && !c.isNullified),
          s.setContext view { c with block := some block })

/-- The parent checks of `add_block_proposal`: an error, or whether the block
has to wait for its parent's M-notarization. -/
def proposalParent (view : Nat) (block : Block P) :
    Except (ConsensusError P) Bool :=
  match s.findParentView block.parentBlockHash with
  | some parentView =>
    match s.findViewContext parentView with
    | none => .ok false
    | some parent =>
      if parent.nullification.isSome then .error (.parentNullified parentView view)
      else match s.firstNotNullified parentView view with
      | some v => .error (.intermediateNotNullified v parentView view)
      | none => .ok parent.mNotarization.isNone
  | none =>
    if block.parentBlockHash ≠ s.previouslyCommittedBlockHash then
      .error (.parentNotCommitted block.parentBlockHash s.previouslyCommittedBlockHash)
    else .ok false

/-- The result of a block that waits for its parent. -/
def awaitingProposal (blockHash : Hash P) : LeaderProposalResult P :=
  { blockHash, shouldVote := false, isEnoughToMNotarize := false, isEnoughToFinalize := false,
    shouldAwait := true, shouldNullify := false }

/-- `add_block_proposal` -/
def addBlockProposal (view : Nat) (block : Block P) (stateDiff : StateDiff P)
    (peers : PeerSet P) : Op P (LeaderProposalResult P) := fun s =>
  match s.findViewContext view with
  | none => (.err (.viewNotHeld .block view s.currentView), s)
  | some c =>
    if c.block.isSome then (.err (.blockAlreadyExists view), s)
    else if c.pendingBlock.isSome then (.err (.pendingBlockExists view), s)
    else match s.proposalParent view block with
    | .error e => (.err e, s)
    | .ok true =>
      (.ok (awaitingProposal block.getHash),
        s.setContext view { c with pendingBlock := some block, stateDiff := some stateDiff })
    | .ok false =>
      match runOn view c (ViewContext.addNewViewBlock block stateDiff peers) s with
      -- the diff of a view that is already M-notarized is published late
      | (result, s') => (result, s'.onMNotarization view)

/-- Take the waiting block of a context, and with it the diff. -/
def takePending (c : ViewContext P) : Option (Block P × StateDiff P) × ViewContext P :=
  match c.pendingBlock with
  | none => (none, c)
  | some block =>
    (c.stateDiff.map fun d => (block, d), { c with pendingBlock := none, stateDiff := none })

/-- The first loop of `process_pending_child_proposals`: empty the pending
slots of the views above `notarizedView`. -/
def collectPending (notarizedView : Nat) :
    List (Nat × Block P × StateDiff P) × ViewChain P :=
  (s.iter.filter fun e => decide (notarizedView < e.1)).foldl
    (fun acc e => match takePending e.2 with
      | (some (block, d), c) => (acc.1 ++ [(e.1, block, d)], acc.2.setContext e.1 c)
      | (none, c) => (acc.1, acc.2.setContext e.1 c)) ([], s)

/-- The second loop: propose the collected blocks again, stopping at the
first error. -/
def proposePending (peers : PeerSet P) :
    List (Nat × Block P × StateDiff P) → Op P (List (LeaderProposalResult P))
  | [] => return []
  | (view, block, d) :: rest => do
    let result ← addBlockProposal view block d peers
    let results ← proposePending peers rest
    return result :: results

/-- `process_pending_child_proposals` -/
def processPendingChildProposals (notarizedView : Nat) (peers : PeerSet P) :
    Op P (List (LeaderProposalResult P)) := fun s =>
  match s.collectPending notarizedView with
  | (pending, s') => proposePending peers pending s'

/-! ## Entering the next view -/

/-- The step the three progress functions share: make `next` the current
view. -/
def enterView (next : ViewContext P) : ViewChain P :=
  { s.setContext next.viewNumber next with currentView := next.viewNumber }

/-- Progress to `next` if it is the next view and the current context passes
`ready`. -/
def progressIf (ready : ViewContext P → Bool) (refused : Nat → ConsensusError P)
    (before : ViewChain P → ViewChain P) (next : ViewContext P) : Op P Unit := fun s =>
  if u64Size ≤ s.currentView + 1 then (.panic, s)
  else if next.viewNumber ≠ s.currentView + 1 then
    (.err (.notNextView next.viewNumber (s.currentView + 1)), s)
  else match s.findViewContext s.currentView with
  | none => (.panic, s)
  | some current =>
    if !ready current then (.err (refused s.currentView), s)
    else (.ok (), (before s).enterView next)

/-- `progress_with_m_notarization` -/
def progressWithMNotarization (next : ViewContext P) : Op P Unit := fun s =>
  progressIf ViewContext.hasCertificate .progressWithoutMNotarization
    (fun s => s.onMNotarization s.currentView) next s

/-- `progress_with_nullification` -/
def progressWithNullification (next : ViewContext P) : Op P Unit :=
  progressIf (fun c => c.nullification.isSome) .progressWithoutNullification id next

/-- `progress_after_cascade` -/
def progressAfterCascade (next : ViewContext P) : Op P Unit :=
  progressIf ViewContext.isNullified .progressWithoutLocalNullify id next

end ViewChain

end Minimmit
