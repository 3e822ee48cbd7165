/-
Minimmit.Consensus.ChainRules — what the chain makes of a message.

Each function that adds a message to a context has a table of what it answers
and leaves (`VoteAdded` and the others), one row per branch of the source, and
one rule: the checks that were passed and the rows give the triple of the
function. A check that fails leaves the context as it was. The functions that
find the context have one rule each, from the triple of the context that is
held. What is proved of these functions is proved row by row.
-/
import Minimmit.Consensus.ContextSteps
import Minimmit.Consensus.ViewChain

namespace Minimmit

open Minimmit.Library Act ViewContext

variable {P : Params} {peers : PeerSet P}

/-- Too few records make no certificate. -/
theorem createCertificateData_none {α : Type} {seed : Nat} {peerId : α → Nat}
    {signature : α → BlsSignature P} {records : List α}
    (h : createCertificateData seed peerId signature records = none) :
    records.length < P.mSize := by
  unfold createCertificateData at h
  split at h
  case isTrue hlt => exact hlt
  case isFalse => cases h

namespace ViewContext

variable {c : ViewContext P} {E : ViewContext P → Prop} {B : Abort → ViewContext P → Prop}

/-! ## Messages of one peer -/

theorem fresh_of_any {α : Type} {f : α → Nat} {xs : List α} {n : Nat}
    (h : ¬ (xs.any fun x => decide (f x = n)) = true) : ∀ x ∈ xs, f x ≠ n := fun x hx heq =>
  h (List.any_eq_true.mpr ⟨x, hx, decide_eq_true heq⟩)

/-- The checks of `add_vote`. -/
structure VoteChecked (peers : PeerSet P) (vote : Vote P) (c : ViewContext P) : Prop where
  view : vote.view = c.viewNumber
  fresh : ∀ u ∈ c.votes, u.peerId ≠ vote.peerId
  freshWaiting : ∀ u ∈ c.nonVerifiedVotes, u.peerId ≠ vote.peerId
  signature : ∃ pk, peers.getPublicKey vote.peerId = some pk ∧ vote.verify pk = true

/-- The context with the vote counted. -/
def counted (c : ViewContext P) (vote : Vote P) : ViewContext P :=
  { c with received := c.received ++ [vote], votes := c.votes.insert vote }

/-- What `add_vote` makes of a vote. -/
inductive VoteAdded (vote : Vote P) (c : ViewContext P) :
    CollectedVotesResult → ViewContext P → Prop
  /-- There is no block yet. -/
  | wait {r} (hash : c.blockHash = none) (goes : r.shouldAwait = true)
      (few : r.isEnoughToMNotarize = false) : VoteAdded vote c r
        { c with received := c.received ++ [vote]
                 nonVerifiedVotes := c.nonVerifiedVotes.insert vote }
  /-- A vote for another block. -/
  | reject {r h} (hash : c.blockHash = some h) (other : vote.blockHash ≠ h)
      (few : r.isEnoughToMNotarize = false) (due : r.shouldVote = false) : VoteAdded vote c r
        { c with received := c.received ++ [vote], numInvalidVotes := c.numInvalidVotes + 1 }
  | count {r} (hash : c.blockHash = some vote.blockHash) (few : r.isEnoughToMNotarize = false)
      (held : 2 * P.F < (c.votes.insert vote).len → c.mNotarization.isSome = true)
      (due : r.shouldVote = false) : VoteAdded vote c r (c.counted vote)
  | notarize {r peerIds aggregatedSignature} (hash : c.blockHash = some vote.blockHash)
      (enough : r.isEnoughToMNotarize = true) (quorum : 2 * P.F < (c.votes.insert vote).len)
      (new : c.mNotarization = none) (due : r.shouldVote = false)
      (data : createCertificateData c.replicaId Vote.peerId Vote.signature
        (c.votes.insert vote).elems = some (peerIds, aggregatedSignature)) : VoteAdded vote c r
        { c.counted vote with
          mNotarization := some
            { view := c.viewNumber, blockHash := vote.blockHash, aggregatedSignature,
              peerIds := peerIds.1, length_peerIds := peerIds.2, leaderId := c.leaderId } }

/-- A vote is counted although its quorum is too small for a certificate. -/
theorem addVote_rule {vote : Vote P} {Q : CollectedVotesResult → ViewContext P → Prop} (hE : E c)
    (hshort : VoteChecked peers vote c → c.blockHash = some vote.blockHash →
      (c.votes.insert vote).len < P.mSize → E (c.counted vote))
    (hadded : VoteChecked peers vote c → ∀ r c', VoteAdded vote c r c' → Q r c') :
    EndsBy (addVote vote peers c) Q E B := by
  unfold addVote
  split
  · exact hE
  split
  · exact hE
  rename_i hview
  split
  · exact hE
  rename_i hfresh
  split
  · exact hE
  rename_i hwaiting
  split
  · exact hE
  rename_i key hkey
  split
  · exact hE
  rename_i hverify
  have hchecked : VoteChecked peers vote c := ⟨not_not.mp hview, fresh_of_any hfresh,
    fresh_of_any hwaiting, key, hkey, by simpa using hverify⟩
  unfold countVote
  dsimp only
  split
  case h_1 hnone => exact hadded hchecked _ _ (.wait hnone rfl rfl)
  case h_2 h hsome =>
    split
    case isTrue hne => exact hadded hchecked _ _ (.reject hsome hne rfl rfl)
    case isFalse heq =>
      obtain rfl : vote.blockHash = h := not_not.mp heq
      split
      case isTrue henough =>
        obtain ⟨hquorum, hnone⟩ := Bool.and_eq_true_iff.mp henough
        split
        case h_1 hdata => exact hshort hchecked hsome (createCertificateData_none hdata)
        case h_2 hdata =>
          exact hadded hchecked _ _ (.notarize hsome henough (of_decide_eq_true hquorum)
            (Option.isNone_iff_eq_none.mp hnone) rfl hdata)
      case isFalse hfew =>
        refine hadded hchecked _ _ (.count hsome (Bool.eq_false_iff.mpr hfew) (fun hquorum => ?_) rfl)
        cases hm : c.mNotarization with
        | some => rfl
        | none => exact absurd (by simp [hquorum, hm]) hfew

/-- What `add_nullify` makes of a message. -/
inductive NullifyAdded (n : Nullify P) (c : ViewContext P) : ViewContext P → Prop
  | count (few : ¬ 2 * P.F < (c.nullifyMessages.insert n).len) :
      NullifyAdded n c { c with nullifyMessages := c.nullifyMessages.insert n }
  | certify {peerIds aggregatedSignature} (quorum : 2 * P.F < (c.nullifyMessages.insert n).len)
      (data : createCertificateData c.replicaId Nullify.peerId Nullify.signature
        (c.nullifyMessages.insert n).elems = some (peerIds, aggregatedSignature)) :
      NullifyAdded n c
        { c.markBlockFinalized with
          nullifyMessages := c.nullifyMessages.insert n
          nullification := some
            { view := c.viewNumber, leaderId := c.leaderId, aggregatedSignature,
              peerIds := peerIds.1, length_peerIds := peerIds.2 }
          hasNullified := true }

theorem addNullify_rule {n : Nullify P} {Q : Unit → ViewContext P → Prop} (hE : E c)
    (hshort : c.AcceptsNullify peers n → (c.nullifyMessages.insert n).len < P.mSize →
      E { c with nullifyMessages := c.nullifyMessages.insert n })
    (hadded : c.AcceptsNullify peers n → ∀ c', NullifyAdded n c c' → Q () c') :
    EndsBy (addNullify n peers c) Q E B := by
  unfold addNullify
  split
  · exact hE
  split
  · exact hE
  rename_i hview
  split
  · exact hE
  rename_i hleader
  split
  · exact hE
  rename_i hfresh
  split
  · exact hE
  rename_i key hkey
  split
  · exact hE
  rename_i hverify
  have hchecked : c.AcceptsNullify peers n := ⟨not_not.mp hview, not_not.mp hleader,
    ⟨key, hkey, by simpa using hverify⟩, fresh_of_any hfresh⟩
  dsimp only
  split
  case isFalse hfew => exact hadded hchecked _ (.count hfew)
  case isTrue hquorum =>
    split
    case h_1 hdata => exact hshort hchecked (createCertificateData_none hdata)
    case h_2 hdata => exact hadded hchecked _ (.certify hquorum hdata)

/-! ## Certificates -/

/-- The context that takes its hash from a certificate. -/
def adoptHash (c : ViewContext P) (blockHash : Hash P) : ViewContext P :=
  { c with blockHash := some blockHash }.absorbNonVerified blockHash

/-- The answer to a certificate that is held now. -/
def heldMNotarization (c : ViewContext P) (shouldNotarize shouldForward : Bool) : ShouldMNotarize :=
  { shouldNotarize, shouldAwait := false, shouldVote := !c.hasVoted && !c.hasNullified,
    shouldNullify := false, shouldForward }

/-- What `add_m_notarization` makes of a certificate. -/
inductive MNotarizationAdded (m : MNotarization P) (c : ViewContext P) :
    ShouldMNotarize → ViewContext P → Prop
  | conflict {h} (hash : c.blockHash = some h) :
      MNotarizationAdded m c conflictingMNotarization c
  /-- The hash stays although the certificate is not stored. -/
  | adoptHash (hash : c.blockHash = none)
      (evidence : (c.adoptHash m.blockHash).shouldNullifyAfterReceivingNewVote = true) :
      MNotarizationAdded m c conflictingMNotarization (c.adoptHash m.blockHash)
  | adopt (hash : c.blockHash = none) :
      MNotarizationAdded m c (c.heldMNotarization false c.mNotarization.isNone)
        { c.adoptHash m.blockHash with mNotarization := some (c.mNotarization.getD m) }
  | known {existing} (hash : c.blockHash = some m.blockHash)
      (held : c.mNotarization = some existing) (same : existing.blockHash = m.blockHash) :
      MNotarizationAdded m c (c.heldMNotarization false false) c
  | store (hash : c.blockHash = some m.blockHash) (new : c.mNotarization = none) :
      MNotarizationAdded m c (c.heldMNotarization c.nullification.isNone true)
        { c with mNotarization := some m }

theorem addMNotarization_rule {m : MNotarization P} {Q : ShouldMNotarize → ViewContext P → Prop}
    (hE : E c) (hpanic : m.verify peers = none → B .panic c)
    (hadded : c.AcceptsMNotarization peers m → ∀ r c', MNotarizationAdded m c r c' → Q r c') :
    EndsBy (addMNotarization m peers c) Q E B := by
  unfold addMNotarization
  split
  · exact hE
  rename_i hview
  split
  · exact hE
  rename_i hleader
  split
  case h_1 hnone => exact hpanic hnone
  case h_2 => exact hE
  case h_3 hverified =>
    have hrow := hadded ⟨not_not.mp hview, not_not.mp hleader, hverified⟩
    dsimp only
    split
    case h_1 hnone =>
      unfold adoptMNotarization
      dsimp only
      split
      case isTrue hevidence => exact hrow _ _ (.adoptHash hnone hevidence)
      case isFalse => exact hrow _ _ (.adopt hnone)
    case h_2 h hsome =>
      split
      · exact hrow _ _ (.conflict hsome)
      case isFalse heq =>
        obtain rfl : m.blockHash = h := not_not.mp heq
        split
        case h_1 hheld =>
          split
          case isTrue hsame => exact hrow _ _ (.known hsome hheld hsame)
          case isFalse => exact hrow _ _ (.conflict hsome)
        case h_2 hnew => exact hrow _ _ (.store hsome hnew)

/-- What `add_nullification` makes of a certificate. -/
inductive NullificationAdded (n : Nullification P) (c : ViewContext P) :
    Bool → ViewContext P → Prop
  | known (held : c.nullification.isSome = true) : NullificationAdded n c false c.markBlockFinalized
  | store (new : c.nullification = none) : NullificationAdded n c true
      { c.markBlockFinalized with nullification := some n, hasNullified := true }

theorem addNullification_rule {n : Nullification P} {Q : Bool → ViewContext P → Prop} (hE : E c)
    (hpanic : n.verify peers = none → B .panic c)
    (hadded : c.AcceptsNullification peers n → ∀ r c', NullificationAdded n c r c' → Q r c') :
    EndsBy (addNullification n peers c) Q E B := by
  unfold addNullification
  split
  · exact hE
  rename_i hview
  split
  · exact hE
  rename_i hleader
  split
  case h_1 hnone => exact hpanic hnone
  case h_2 => exact hE
  case h_3 hverified =>
    have hrow := hadded ⟨not_not.mp hview, not_not.mp hleader, hverified⟩
    dsimp only
    split
    case isTrue hheld => exact hrow _ _ (.known hheld)
    case isFalse hnew => exact hrow _ _ (.store (Option.not_isSome_iff_eq_none.mp hnew))

/-! ## Blocks -/

/-- The checks of `add_new_view_block`. -/
structure BlockChecked (peers : PeerSet P) (b : Block P) (c : ViewContext P) : Prop where
  view : b.view = c.viewNumber
  noBlock : c.block = none
  leader : b.leader = c.leaderId
  parent : b.parentBlockHash = c.parentBlockHash
  signature : ∃ pk, peers.getPublicKey c.leaderId = some pk ∧
    Crypto.verify P.hashing P.curve pk (blockMessage b.getHash) b.leaderSignature = true

/-- The answer to a block that is stored in the context `c`. -/
def storedBlock (c : ViewContext P) (blockHash : Hash P) : LeaderProposalResult P :=
  { blockHash, shouldVote := !c.hasVoted && !c.hasNullified
    isEnoughToMNotarize := decide (2 * P.F < c.votes.len) || c.mNotarization.isSome
    isEnoughToFinalize := decide (P.N - P.F ≤ c.votes.len)
    shouldAwait := false, shouldNullify := false }

/-- What `add_new_view_block` makes of a block. -/
inductive BlockAdded (b : Block P) (d : StateDiff P) (c : ViewContext P) :
    LeaderProposalResult P → ViewContext P → Prop
  /-- Another block is M-notarized. -/
  | conflict : BlockAdded b d c (nullifyProposal b.getHash) c
  | nullify (same : ∀ m, c.mNotarization = some m → m.blockHash = b.getHash) :
      BlockAdded b d c (nullifyProposal b.getHash) (c.storeBlock b d)
  | store (same : ∀ m, c.mNotarization = some m → m.blockHash = b.getHash) :
      BlockAdded b d c ((c.storeBlock b d).storedBlock b.getHash) (c.storeBlock b d)
  | flag (same : ∀ m, c.mNotarization = some m → m.blockHash = b.getHash)
      (enough : P.N - P.F ≤ (c.storeBlock b d).votes.len) :
      BlockAdded b d c ((c.storeBlock b d).storedBlock b.getHash)
        (c.storeBlock b d).markBlockFinalized

theorem addNewViewBlock_rule {b : Block P} {d : StateDiff P}
    {Q : LeaderProposalResult P → ViewContext P → Prop} (hE : E c)
    (hadded : BlockChecked peers b c → ∀ r c', BlockAdded b d c r c' → Q r c') :
    EndsBy (addNewViewBlock b d peers c) Q E B := by
  unfold addNewViewBlock
  split
  · exact hE
  rename_i hview
  split
  · exact hE
  rename_i hblock
  split
  · exact hE
  rename_i hleader
  split
  · exact hE
  rename_i hparent
  split
  · exact hE
  rename_i key hkey
  split
  · exact hE
  rename_i hverify
  have hrow := hadded ⟨not_not.mp hview, by simpa using hblock, not_not.mp hleader,
    not_not.mp hparent, key, hkey, by simpa using hverify⟩
  split
  · exact hrow _ _ .conflict
  rename_i hother
  have hsame : ∀ m, c.mNotarization = some m → m.blockHash = b.getHash := by
    intro m hm
    simpa [hm] using hother
  dsimp only
  split
  · exact hrow _ _ (.nullify hsame)
  split
  case isTrue henough => exact hrow _ _ (.flag hsame (of_decide_eq_true henough))
  case isFalse => exact hrow _ _ (.store hsame)

end ViewContext

namespace ViewChain

variable {s : ViewChain P} {E : ViewChain P → Prop} {B : Abort → ViewChain P → Prop}

/-! ## The chain -/

/-- An operation on the context of `view`, as one on the chain. -/
abbrev EndsOn {α : Type} (s : ViewChain P) (view : Nat)
    (r : Outcome (ConsensusError P) α × ViewContext P) (Q : α → ViewChain P → Prop)
    (E : ViewChain P → Prop) (B : Abort → ViewChain P → Prop) : Prop :=
  EndsBy r (fun a c => Q a (s.setContext view c)) (fun c => E (s.setContext view c))
    fun k c => B k (s.setContext view c)

theorem runOn_rule {α : Type} {v : Nat} {c : ViewContext P} {op : ViewContext.Op P α}
    {Q : α → ViewChain P → Prop} (h : s.EndsOn v (op c) Q E B) :
    EndsBy (runOn v c op s) Q E B := by
  unfold runOn
  rcases hr : op c with ⟨o, c'⟩
  rw [hr] at h
  cases o <;> exact h

theorem notHeld_rule {α : Type} {kind : MessageKind} {v : Nat} {ignored : α}
    {Q : α → ViewChain P → Prop} (hE : E s) (hignored : Q ignored s) :
    EndsBy (notHeld kind v ignored s) Q E B := by
  unfold notHeld
  split
  · exact hignored
  · exact hE

theorem routeVote_rule {vote : Vote P} {Q : CollectedVotesResult → ViewChain P → Prop} (hE : E s)
    (hignored : Q ignoredVote s)
    (hadd : ∀ c, s.findViewContext vote.view = some c → c.isNullified = false →
      s.EndsOn vote.view (ViewContext.addVote vote peers c) Q E B) :
    EndsBy (routeVote vote peers s) Q E B := by
  unfold routeVote
  split
  case h_1 c hc =>
    split
    · exact hignored
    case isFalse hlive =>
      split
      · exact hE
      · exact runOn_rule (hadd c hc (Bool.eq_false_iff.mpr hlive))
  case h_2 => exact notHeld_rule hE hignored

variable {Q : Bool → ViewChain P → Prop}

theorem routeNullify_rule {n : Nullify P} (hE : E s) (hignored : Q false s)
    (hadd : ∀ c, s.findViewContext n.view = some c → EndsBy (addNullify n peers c)
        (fun _ c' => Q c'.nullification.isSome (s.setContext n.view c'))
        (fun c' => E (s.setContext n.view c')) fun k c' => B k (s.setContext n.view c')) :
    EndsBy (routeNullify n peers s) Q E B := by
  unfold routeNullify
  split
  case h_1 c hc =>
    split
    · exact hE
    · have hends := hadd c hc
      rcases hr : addNullify n peers c with ⟨o, c'⟩
      rw [hr] at hends
      cases o <;> exact hends
  case h_2 => exact notHeld_rule hE hignored

theorem routeMNotarization_rule {m : MNotarization P} {Q : ShouldMNotarize → ViewChain P → Prop}
    (hE : E s) (hignored : s.findViewContext m.view = none → Q ignoredMNotarization s)
    (hadd : ∀ c, s.findViewContext m.view = some c →
      s.EndsOn m.view (ViewContext.addMNotarization m peers c) Q E B) :
    EndsBy (routeMNotarization m peers s) Q E B := by
  unfold routeMNotarization
  split
  case h_1 c hc =>
    split
    · exact hE
    · exact runOn_rule (hadd c hc)
  case h_2 hnone => exact notHeld_rule hE (hignored hnone)

theorem routeNullification_rule {n : Nullification P} (hE : E s)
    (hadd : ∀ c, s.findViewContext n.view = some c →
      s.EndsOn n.view (ViewContext.addNullification n peers c) Q E B) :
    EndsBy (routeNullification n peers s) Q E B := by
  unfold routeNullification
  split
  case h_1 c hc =>
    split
    · exact hE
    · exact runOn_rule (hadd c hc)
  case h_2 => exact hE

theorem addRecoveredBlock_rule {view : Nat} {b : Block P} (hE : E s) (hheld : Q false s)
    (hadd : ∀ c, s.findViewContext view = some c → c.block = none → c.blockHash = some b.getHash →
      Q (decide (P.N - P.F ≤ c.votes.len) && !c.isNullified)
        (s.setContext view { c with block := some b })) :
    EndsBy (addRecoveredBlock view b s) Q E B := by
  unfold addRecoveredBlock
  split
  · exact hE
  case h_2 c hc =>
    split
    · exact hheld
    case isFalse hblock =>
      split
      · exact hE
      case h_2 h hhash =>
        split
        · exact hE
        case isFalse heq =>
          exact hadd c hc (by simpa using hblock) (hhash.trans (congrArg some (not_not.mp heq).symm))

theorem addBlockProposal_rule {view : Nat} {b : Block P} {d : StateDiff P}
    {Q : LeaderProposalResult P → ViewChain P → Prop} (hE : E s)
    (hwait : ∀ c, s.findViewContext view = some c → c.block = none → c.pendingBlock = none →
      s.proposalParent view b = .ok true → Q (awaitingProposal b.getHash)
        (s.setContext view { c with pendingBlock := some b, stateDiff := some d }))
    (hadd : ∀ c, s.findViewContext view = some c → c.block = none → c.pendingBlock = none →
      s.proposalParent view b = .ok false → EndsBy (addNewViewBlock b d peers c)
          (fun r c' => Q r ((s.setContext view c').onMNotarization view))
          (fun c' => E ((s.setContext view c').onMNotarization view))
          fun k c' => B k ((s.setContext view c').onMNotarization view)) :
    EndsBy (addBlockProposal view b d peers s) Q E B := by
  unfold addBlockProposal
  split
  · exact hE
  case h_2 c hc =>
    split
    · exact hE
    rename_i hblock
    split
    · exact hE
    rename_i hpending
    have hblock : c.block = none := by simpa using hblock
    have hpending : c.pendingBlock = none := by simpa using hpending
    split
    · exact hE
    case h_2 hparent => exact hwait c hc hblock hpending hparent
    case h_3 hparent =>
      have hends := hadd c hc hblock hpending hparent
      unfold runOn
      rcases hr : addNewViewBlock b d peers c with ⟨o, c'⟩
      rw [hr] at hends
      cases o <;> exact hends

end ViewChain

end Minimmit
