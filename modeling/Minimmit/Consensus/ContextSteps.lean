/-
Minimmit.Consensus.ContextSteps — everything that can happen to one view
context.

The functions of `ViewContext` check, count and store; the rest of the
development never looks inside them again. `CtxStep adm peers c c'` lists
the changes a context can undergo, each with the checks that were passed
before it, and the theorems below say that every function only composes
them. The parameter `adm` is what is known about the messages that reach the
replica; it is chosen by whoever uses the relation.

One change is kept apart. `add_m_notarization` writes the certificate's hash
into the context BEFORE it decides that the view has to be nullified, and
then does not store the certificate (`HashOnlyStep`). Until the nullify
message is made the context has a hash that neither a block nor a
certificate stands for; `Settled` says that a context is not in that state.
-/
import Mathlib.Logic.Relation
import Minimmit.Consensus.ViewContext

namespace Minimmit

open Minimmit.Library Relation List Option

variable {P : Params}

namespace ViewContext

/-! ## What the checks establish -/

/-- A block that passes the checks of `add_new_view_block`. -/
structure AcceptsBlock (peers : PeerSet P) (c : ViewContext P) (b : Block P) : Prop where
  view : b.view = c.viewNumber
  noBlock : c.block = none
  leader : b.leader = c.leaderId
  parent : b.parentBlockHash = c.parentBlockHash
  signature : ∃ pk, peers.getPublicKey c.leaderId = some pk ∧
    Crypto.verify P.hashing P.curve pk (blockMessage b.getHash) b.leaderSignature = true
  notarized : ∀ m, c.mNotarization = some m → m.blockHash = b.getHash
  hash : ∀ h, c.blockHash = some h → h = b.getHash ∨ c.hasNullified = true

/-- A vote that passes the checks of `route_vote` and `add_vote`. -/
structure AcceptsVote (peers : PeerSet P) (c : ViewContext P) (v : Vote P) : Prop where
  view : v.view = c.viewNumber
  notNullified : c.hasNullified = false
  signature : ∃ pk, peers.getPublicKey v.peerId = some pk ∧ v.verify pk = true
  fresh : ∀ u ∈ c.votes, u.peerId ≠ v.peerId
  freshWaiting : ∀ u ∈ c.nonVerifiedVotes, u.peerId ≠ v.peerId

/-- A nullify message that passes the checks of `add_nullify`. -/
structure AcceptsNullify (peers : PeerSet P) (c : ViewContext P) (n : Nullify P) : Prop where
  view : n.view = c.viewNumber
  leader : n.leaderId = c.leaderId
  signature : ∃ pk, peers.getPublicKey n.peerId = some pk ∧ n.verify pk = true
  fresh : ∀ u ∈ c.nullifyMessages, u.peerId ≠ n.peerId

/-- A certificate that passes the checks of `add_m_notarization`. -/
structure AcceptsMNotarization (peers : PeerSet P) (c : ViewContext P) (m : MNotarization P) :
    Prop where
  view : m.view = c.viewNumber
  leader : m.leaderId = c.leaderId
  verified : m.verify peers = some true

/-- A certificate that passes the checks of `add_nullification`. -/
structure AcceptsNullification (peers : PeerSet P) (c : ViewContext P) (n : Nullification P) :
    Prop where
  view : n.view = c.viewNumber
  leader : n.leaderId = c.leaderId
  verified : n.verify peers = some true

/-- A certificate made from the votes the context has counted. -/
structure MakesMNotarization (c : ViewContext P) (m : MNotarization P) : Prop where
  view : m.view = c.viewNumber
  leader : m.leaderId = c.leaderId
  hash : c.blockHash = some m.blockHash
  quorum : 2 * P.F < c.votes.len
  peerIds : m.peerIds.Subperm (c.votes.elems.map (·.peerId))

/-- A certificate made from the nullify messages the context holds. -/
structure MakesNullification (c : ViewContext P) (n : Nullification P) : Prop where
  view : n.view = c.viewNumber
  leader : n.leaderId = c.leaderId
  quorum : 2 * P.F < c.nullifyMessages.len
  peerIds : n.peerIds.Subperm (c.nullifyMessages.elems.map (·.peerId))

/-! ## The steps -/

variable (adm : ConsensusMessage P → Prop) (peers : PeerSet P)

/-- The changes made by proposals, waiting ones included. -/
inductive BlockStep : ViewContext P → ViewContext P → Prop
  | same {c} : BlockStep c c
  | store {c b} (d : StateDiff P) (ha : adm (.blockProposal b)) (h : c.AcceptsBlock peers b) :
      BlockStep c (c.storeBlock b d)
  | flag {c} : BlockStep c c.markBlockFinalized
  | await {c b} (d : StateDiff P) (ha : adm (.blockProposal b)) (hb : c.block = none) :
      BlockStep c { c with pendingBlock := some b, stateDiff := some d }
  | take {c} (h : c.pendingBlock.isSome) :
      BlockStep c { c with pendingBlock := none, stateDiff := none }

/-- The changes made by messages and by `mark_proposed`; the signatures of
the replica itself are steps of the replica. -/
inductive CtxStep : ViewContext P → ViewContext P → Prop
  | block {c c'} (h : BlockStep adm peers c c') : CtxStep c c'
  | wait {c v} (ha : adm (.vote v)) (h : c.AcceptsVote peers v) (hh : c.blockHash = none) :
      CtxStep c { c with
        received := c.received ++ [v], nonVerifiedVotes := c.nonVerifiedVotes.insert v }
  | reject {c v h₀} (ha : adm (.vote v)) (h : c.AcceptsVote peers v)
      (hh : c.blockHash = some h₀) (hne : v.blockHash ≠ h₀) :
      CtxStep c { c with
        received := c.received ++ [v], numInvalidVotes := c.numInvalidVotes + 1 }
  | count {c v} (ha : adm (.vote v)) (h : c.AcceptsVote peers v)
      (hh : c.blockHash = some v.blockHash) :
      CtxStep c { c with received := c.received ++ [v], votes := c.votes.insert v }
  | notarize {c m} (hn : c.hasNullified = false) (hm : c.mNotarization = none)
      (h : c.MakesMNotarization m) :
      CtxStep c { c with mNotarization := some m }
  | nullify {c n} (ha : adm (.nullify n)) (h : c.AcceptsNullify peers n) :
      CtxStep c { c with nullifyMessages := c.nullifyMessages.insert n }
  | certify {c n} (h : c.MakesNullification n) :
      CtxStep c { c.markBlockFinalized with nullification := some n, hasNullified := true }
  | adopt {c m} (ha : adm (.mNotarization m)) (h : c.AcceptsMNotarization peers m)
      (hh : c.blockHash = none) (hm : c.mNotarization = none) :
      CtxStep c
        { ({ c with blockHash := some m.blockHash }.absorbNonVerified m.blockHash) with
          mNotarization := some m }
  | storeMNotarization {c m} (ha : adm (.mNotarization m)) (h : c.AcceptsMNotarization peers m)
      (hh : c.blockHash = some m.blockHash) (hm : c.mNotarization = none) :
      CtxStep c { c with mNotarization := some m }
  | storeNullification {c n} (ha : adm (.nullification n)) (h : c.AcceptsNullification peers n)
      (hn : c.nullification = none) :
      CtxStep c { c with nullification := some n, hasNullified := true }
  | recover {c b} (ha : adm (.blockRecoveryResponse c.viewNumber b)) (hb : c.block = none)
      (hh : c.blockHash = some b.getHash)
      (hs : c.mNotarization.isSome ∨ c.hasNullified = true) :
      CtxStep c { c with block := some b }
  | proposed {c} : CtxStep c { c with hasProposed := true }

/-- `add_m_notarization` asks for a nullify message after the hash was
written: the waiting votes were counted against the new hash and are the
evidence. -/
inductive HashOnlyStep : ViewContext P → ViewContext P → Prop
  | adoptHash {c m} (ha : adm (.mNotarization m)) (h : c.AcceptsMNotarization peers m)
      (hh : c.blockHash = none) (hm : c.mNotarization = none)
      (he : ({ c with blockHash := some m.blockHash }.absorbNonVerified
        m.blockHash).shouldNullifyAfterReceivingNewVote = true) :
      HashOnlyStep c ({ c with blockHash := some m.blockHash }.absorbNonVerified m.blockHash)

/-! ## Well-formed contexts -/

variable {adm peers}

/-- The votes for another hash than `h`. -/
def votesAgainst (h : Hash P) (votes : List (Vote P)) : List (Vote P) :=
  votes.filter fun v => decide (v.blockHash ≠ h)

/-- What holds of every context at every moment. A view that was nullified
may have changed its hash, so the two fields about the counted votes stop
there. -/
structure WF (peers : PeerSet P) (c : ViewContext P) : Prop where
  block_hash : ∀ b, c.block = some b → c.blockHash = some b.getHash
  /-- A block that did not pass the checks of a proposal was recovered for a
  certificate or in a nullified view. -/
  block_rule : ∀ b, c.block = some b →
    (b.view = c.viewNumber ∧ b.parentBlockHash = c.parentBlockHash) ∨
      c.mNotarization.isSome ∨ c.hasNullified = true
  mNotarization_hash : ∀ m, c.mNotarization = some m → c.blockHash = some m.blockHash
  mNotarization_view : ∀ m, c.mNotarization = some m →
    m.view = c.viewNumber ∧ m.leaderId = c.leaderId
  votes_view : ∀ v ∈ c.votes, v.view = c.viewNumber
  votes_hash : c.hasNullified = false → ∀ v ∈ c.votes, c.blockHash = some v.blockHash
  waiting_view : ∀ v ∈ c.nonVerifiedVotes, v.view = c.viewNumber
  waiting_none : ∀ h, c.blockHash = some h → c.nonVerifiedVotes.elems = []
  nullify : ∀ n ∈ c.nullifyMessages, n.view = c.viewNumber ∧ n.leaderId = c.leaderId ∧
    ∃ pk, peers.getPublicKey n.peerId = some pk ∧ n.verify pk = true
  nullification : ∀ n, c.nullification = some n →
    c.hasNullified = true ∧ n.view = c.viewNumber ∧ n.leaderId = c.leaderId
  received : ∀ v ∈ c.received, v.view = c.viewNumber ∧
    ∃ pk, peers.getPublicKey v.peerId = some pk ∧ v.verify pk = true
  /-- Before there is a hash every accepted vote waits. -/
  waiting : c.hasNullified = false → c.blockHash = none →
    c.numInvalidVotes = 0 ∧ c.nonVerifiedVotes.elems.Perm c.received
  /-- With a hash the invalid votes are the accepted votes for another
  one, counted once per accepted message. -/
  invalid : c.hasNullified = false → ∀ h, c.blockHash = some h →
    c.numInvalidVotes = (votesAgainst h c.received).length

/-- The hash of the context stands for a block or a certificate, unless the
view is nullified. -/
def Settled (c : ViewContext P) : Prop :=
  ∀ h, c.blockHash = some h → c.block.isSome ∨ c.mNotarization.isSome ∨ c.hasNullified = true

variable {c c' : ViewContext P} {h : Hash P} {v : Vote P}

theorem wf_new (view leaderId replicaId : Nat) (parent : Hash P) :
    WF peers (ViewContext.new view leaderId replicaId parent) := by
  constructor <;> simp [ViewContext.new, KeySet.mem_def]

/-- A counted vote after the waiting votes were absorbed was counted before
or was waiting, for the hash of the view. -/
theorem mem_absorb_votes (hv : v ∈ (c.absorbNonVerified h).votes) :
    v ∈ c.votes ∨ (v ∈ c.nonVerifiedVotes ∧ v.blockHash = h) := by
  rcases KeySet.mem_foldl_insert hv with hl | hs
  · obtain ⟨hmem, hh⟩ := mem_filter.mp hl
    exact .inr ⟨hmem, of_decide_eq_true hh⟩
  · exact .inl hs

theorem absorb_numInvalidVotes (c : ViewContext P) (h : Hash P) :
    (c.absorbNonVerified h).numInvalidVotes =
      c.numInvalidVotes + (votesAgainst h c.nonVerifiedVotes.elems).length := by
  have hsum := length_eq_length_filter_add (l := c.nonVerifiedVotes.elems)
    fun v : Vote P => decide (v.blockHash = h)
  have hnot : (c.nonVerifiedVotes.elems.filter fun v => !decide (v.blockHash = h)) =
      votesAgainst h c.nonVerifiedVotes.elems := by
    simp only [votesAgainst, decide_not]
  rw [hnot] at hsum
  simp only [absorbNonVerified, KeySet.len]
  omega

/-- Giving a context its hash: the waiting votes for it are counted, the
others become invalid votes. -/
theorem WF.absorb (hc : WF peers c) (hb : ∀ b, c.block = some b → b.getHash = h)
    (hm : ∀ m, c.mNotarization = some m → m.blockHash = h)
    (hh : ∀ h', c.blockHash = some h' → h' = h ∨ c.hasNullified = true) :
    WF peers ({ c with blockHash := some h }.absorbNonVerified h) := by
  have hhash : ∀ {h'}, c.hasNullified = false → c.blockHash = some h' → h' = h := by
    intro h' hn hs
    rcases hh h' hs with heq | hnull
    · exact heq
    · rw [hn] at hnull
      cases hnull
  refine { hc with
    block_hash := fun b hbs => congrArg some (hb b hbs).symm
    mNotarization_hash := fun m hms => congrArg some (hm m hms).symm
    votes_view := ?_, votes_hash := ?_, waiting_view := ?_, waiting_none := ?_, waiting := ?_,
    invalid := ?_ }
  · intro v hv
    rcases mem_absorb_votes hv with hv | ⟨hv, -⟩
    · exact hc.votes_view v hv
    · exact hc.waiting_view v hv
  · intro hn v hv
    rcases mem_absorb_votes hv with hv | ⟨-, rfl⟩
    · rw [hhash hn (hc.votes_hash hn v hv)]
      rfl
    · rfl
  · intro v hv
    exact absurd hv (KeySet.not_mem_empty v)
  · intro _ _
    rfl
  · intro _ hnone
    cases hnone
  · intro hn h' hs
    obtain rfl : h = h' := some.inj hs
    rw [absorb_numInvalidVotes]
    rcases hcb : c.blockHash with _ | h'
    · -- every accepted vote was waiting
      obtain ⟨hzero, hperm⟩ := hc.waiting hn hcb
      have hlen := (hperm.filter fun v => decide (v.blockHash ≠ h)).length_eq
      simpa [votesAgainst, absorbNonVerified, hzero] using hlen
    · -- nothing was waiting
      have hinv := hc.invalid hn h' hcb
      rw [hhash hn hcb] at hinv
      simpa [votesAgainst, absorbNonVerified, hc.waiting_none h' hcb] using hinv

/-- A further counted vote for the hash of the context. -/
theorem WF.insertVote (hc : WF peers c) (hv : v.view = c.viewNumber)
    (hh : c.blockHash = some v.blockHash) : WF peers { c with votes := c.votes.insert v } := by
  refine { hc with votes_view := ?_, votes_hash := ?_ }
  · intro u hu
    rcases KeySet.mem_insert_imp hu with rfl | hu
    · exact hv
    · exact hc.votes_view u hu
  · intro hn u hu
    rcases KeySet.mem_insert_imp hu with rfl | hu
    · exact hh
    · exact hc.votes_hash hn u hu

theorem WF.flag (hc : WF peers c) : WF peers c.markBlockFinalized := by
  refine { hc with block_hash := ?_, block_rule := ?_ }
  · intro b hb
    obtain ⟨b₀, hb₀, rfl⟩ := map_eq_some_iff.mp hb
    exact hc.block_hash b₀ hb₀
  · intro b hb
    obtain ⟨b₀, hb₀, rfl⟩ := map_eq_some_iff.mp hb
    exact hc.block_rule b₀ hb₀

/-- The hash, with the leader's vote and the block, of a context that had no
other hash. -/
theorem WF.storeBlock (hc : WF peers c) {b : Block P} (d : StateDiff P)
    (h : c.AcceptsBlock peers b) : WF peers (c.storeBlock b d) := by
  have habsorb := hc.absorb (h := b.getHash) (fun b' hb' => by rw [h.noBlock] at hb'; cases hb')
    h.notarized h.hash
  -- the leader's vote is inserted before the waiting ones are absorbed
  refine { habsorb with block_hash := ?_, block_rule := ?_, votes_view := ?_, votes_hash := ?_ }
  · rintro b' ⟨⟩
    rfl
  · rintro b' ⟨⟩
    exact .inl ⟨h.view, h.parent⟩
  · intro v hv
    rcases mem_absorb_votes hv with hv | ⟨hv, -⟩
    · rcases KeySet.mem_insert_imp hv with rfl | hv
      · rfl
      · exact hc.votes_view v hv
    · exact hc.waiting_view v hv
  · intro hn v hv
    rcases mem_absorb_votes hv with hv | ⟨-, hv⟩
    · rcases KeySet.mem_insert_imp hv with rfl | hv
      · rfl
      · rcases h.hash _ (hc.votes_hash hn v hv) with heq | hnull
        · exact congrArg some heq.symm
        · exact absurd (hn.symm.trans hnull) Bool.false_ne_true
    · exact congrArg some hv.symm

theorem BlockStep.wf (h : BlockStep adm peers c c') (hc : WF peers c) : WF peers c' := by
  cases h with
  | same => exact hc
  | store d _ hb => exact hc.storeBlock d hb
  | flag => exact hc.flag
  | await d _ _ => exact { hc with }
  | take _ => exact { hc with }

/-- An accepted vote is recorded whatever becomes of it. -/
theorem received_append (hc : WF peers c) (h : c.AcceptsVote peers v) :
    ∀ u ∈ c.received ++ [v], u.view = c.viewNumber ∧
      ∃ pk, peers.getPublicKey u.peerId = some pk ∧ u.verify pk = true := by
  intro u hu
  rcases mem_append.mp hu with hu | hu
  · exact hc.received u hu
  · obtain rfl := mem_singleton.mp hu
    exact ⟨h.view, h.signature⟩

theorem CtxStep.wf (h : CtxStep adm peers c c') (hc : WF peers c) : WF peers c' := by
  cases h with
  | block h => exact h.wf hc
  | @wait v _ hv hh =>
    refine { hc with waiting_view := ?_, waiting_none := ?_, received := received_append hc hv,
                     waiting := ?_, invalid := ?_ }
    · intro u hu
      rcases KeySet.mem_insert_imp hu with rfl | hu
      · exact hv.view
      · exact hc.waiting_view u hu
    · intro h hs
      rw [hh] at hs
      cases hs
    · intro hn _
      obtain ⟨hzero, hperm⟩ := hc.waiting hn hh
      refine ⟨hzero, ?_⟩
      have hnew : Vote.key v ∉ c.nonVerifiedVotes.elems.map Vote.key := by
        intro hmem
        obtain ⟨u, hu, hkey⟩ := mem_map.mp hmem
        exact hv.freshWaiting u hu (congrArg (·.2.2) hkey)
      simp only [KeySet.insert, hnew, ↓reduceDIte]
      exact (hperm.cons v).trans (perm_append_singleton v _).symm
    · intro _ h hs
      rw [hh] at hs
      cases hs
  | @reject v h₀ _ hv hh hne =>
    refine { hc with received := received_append hc hv, waiting := ?_, invalid := ?_ }
    · intro _ hnone
      rw [hh] at hnone
      cases hnone
    · intro hn h hs
      obtain rfl : h₀ = h := some.inj (hh.symm.trans hs)
      have hinv := hc.invalid hn h₀ hh
      simp only [votesAgainst, filter_append, length_append] at hinv ⊢
      simp [hne, hinv]
  | @count v _ hv hh =>
    have hins := hc.insertVote hv.view hh
    refine { hins with received := received_append hc hv, waiting := ?_, invalid := ?_ }
    · intro _ hnone
      rw [hh] at hnone
      cases hnone
    · intro hn h hs
      obtain rfl : v.blockHash = h := some.inj (hh.symm.trans hs)
      have hinv := hc.invalid hn _ hh
      simp only [votesAgainst, filter_append, length_append] at hinv ⊢
      simp [hinv]
  | notarize _ _ hm =>
    refine { hc with block_rule := fun _ _ => .inr (.inl rfl), mNotarization_hash := ?_,
                     mNotarization_view := ?_ }
    · rintro m' ⟨⟩
      exact hm.hash
    · rintro m' ⟨⟩
      exact ⟨hm.view, hm.leader⟩
  | nullify _ hn =>
    refine { hc with nullify := ?_ }
    intro u hu
    rcases KeySet.mem_insert_imp hu with rfl | hu
    · exact ⟨hn.view, hn.leader, hn.signature⟩
    · exact hc.nullify u hu
  | certify hn =>
    have hflag := hc.flag
    refine { hflag with block_rule := fun _ _ => .inr (.inr rfl), votes_hash := ?_,
                        nullification := ?_, waiting := ?_, invalid := ?_ }
    · intro hfalse
      cases hfalse
    · rintro n' ⟨⟩
      exact ⟨rfl, hn.view, hn.leader⟩
    · intro hfalse
      cases hfalse
    · intro hfalse
      cases hfalse
  | @adopt m _ hm hh hnone =>
    have habsorb := hc.absorb (h := m.blockHash)
      (fun b hb => by rw [hc.block_hash b hb] at hh; cases hh)
      (fun m' hm' => by rw [hnone] at hm'; cases hm') (fun h' hs => by rw [hh] at hs; cases hs)
    refine { habsorb with block_rule := fun _ _ => .inr (.inl rfl), mNotarization_hash := ?_,
                          mNotarization_view := ?_ }
    · rintro m' ⟨⟩
      rfl
    · rintro m' ⟨⟩
      exact ⟨hm.view, hm.leader⟩
  | storeMNotarization _ hm hh _ =>
    refine { hc with block_rule := fun _ _ => .inr (.inl rfl), mNotarization_hash := ?_,
                     mNotarization_view := ?_ }
    · rintro m' ⟨⟩
      exact hh
    · rintro m' ⟨⟩
      exact ⟨hm.view, hm.leader⟩
  | storeNullification _ hn _ =>
    refine { hc with block_rule := fun _ _ => .inr (.inr rfl), votes_hash := ?_,
                     nullification := ?_, waiting := ?_, invalid := ?_ }
    · intro hfalse
      cases hfalse
    · rintro n' ⟨⟩
      exact ⟨rfl, hn.view, hn.leader⟩
    · intro hfalse
      cases hfalse
    · intro hfalse
      cases hfalse
  | recover _ _ hh hs =>
    refine { hc with block_hash := ?_, block_rule := fun _ _ => .inr hs }
    rintro b' ⟨⟩
    exact hh
  | proposed => exact { hc with }

theorem HashOnlyStep.wf (h : HashOnlyStep adm peers c c') (hc : WF peers c) : WF peers c' := by
  cases h with
  | adoptHash _ _ hh hnone _ =>
    exact hc.absorb (fun b hb => by rw [hc.block_hash b hb] at hh; cases hh)
      (fun m' hm' => by rw [hnone] at hm'; cases hm') (fun h' hs => by rw [hh] at hs; cases hs)

/-- The own vote for the hash the context has. -/
theorem WF.castVote (hc : WF peers c) (signature : BlsSignature P) (hh : c.blockHash = some h) :
    WF peers (c.castVote h signature) := by
  have hins := hc.insertVote (v :=
    { view := c.viewNumber, blockHash := h, signature, peerId := c.replicaId,
      leaderId := c.leaderId }) rfl hh
  have hvoted : WF peers
      { c with
        hasVoted := true
        votes := c.votes.insert
          { view := c.viewNumber, blockHash := h, signature, peerId := c.replicaId,
            leaderId := c.leaderId } } := { hins with }
  refine hvoted.absorb (fun b hb => ?_) (fun m hm => ?_) fun h' hs => ?_
  · exact some.inj ((hc.block_hash b hb).symm.trans hh)
  · exact some.inj ((hc.mNotarization_hash m hm).symm.trans hh)
  · exact .inl (some.inj (hs.symm.trans hh))

/-- The own nullify message. -/
theorem WF.markNullified (hc : WF peers c) : WF peers { c with hasNullified := true } := by
  refine { hc with block_rule := fun _ _ => .inr (.inr rfl), votes_hash := ?_,
                   nullification := ?_, waiting := ?_, invalid := ?_ }
  · intro hfalse
    cases hfalse
  · intro n hn
    exact ⟨rfl, (hc.nullification n hn).2⟩
  · intro hfalse
    cases hfalse
  · intro hfalse
    cases hfalse

theorem BlockStep.settled (h : BlockStep adm peers c c') (hc : c.Settled) : c'.Settled := by
  cases h with
  | same => exact hc
  | store => exact fun _ _ => .inl rfl
  | flag =>
    intro h hs
    rcases hc h hs with hb | hrest
    · exact .inl (by simpa [markBlockFinalized] using hb)
    · exact .inr hrest
  | await => exact hc
  | take => exact hc

theorem CtxStep.settled (h : CtxStep adm peers c c') (hc : c.Settled) : c'.Settled := by
  cases h with
  | block h => exact h.settled hc
  | wait _ _ hh =>
    intro h hs
    rw [hh] at hs
    cases hs
  | reject => exact hc
  | count => exact hc
  | notarize | adopt | storeMNotarization => exact fun _ _ => .inr (.inl rfl)
  | nullify => exact hc
  | certify | storeNullification => exact fun _ _ => .inr (.inr rfl)
  | recover => exact fun _ _ => .inl rfl
  | proposed => exact hc

theorem BlockStep.identity (h : BlockStep adm peers c c') :
    c'.viewNumber = c.viewNumber ∧ c'.leaderId = c.leaderId ∧ c'.replicaId = c.replicaId ∧
      c'.parentBlockHash = c.parentBlockHash := by
  cases h <;> exact ⟨rfl, rfl, rfl, rfl⟩

/-- View, leader, owner and parent of a context never change. -/
theorem CtxStep.identity (h : CtxStep adm peers c c') :
    c'.viewNumber = c.viewNumber ∧ c'.leaderId = c.leaderId ∧ c'.replicaId = c.replicaId ∧
      c'.parentBlockHash = c.parentBlockHash := by
  cases h with
  | block h => exact h.identity
  | _ => exact ⟨rfl, rfl, rfl, rfl⟩

/-! ## What never changes back -/

theorem BlockStep.flags (h : BlockStep adm peers c c') :
    c'.hasVoted = c.hasVoted ∧ c'.hasNullified = c.hasNullified ∧
      c'.mNotarization = c.mNotarization ∧ c'.nullification = c.nullification := by
  cases h <;> exact ⟨rfl, rfl, rfl, rfl⟩

theorem CtxStep.hasVoted (h : CtxStep adm peers c c') : c'.hasVoted = c.hasVoted := by
  cases h with
  | block h => exact h.flags.1
  | _ => rfl

theorem CtxStep.hasNullified (h : CtxStep adm peers c c') (hn : c.hasNullified = true) :
    c'.hasNullified = true := by
  cases h with
  | block h => exact h.flags.2.1.trans hn
  | certify => rfl
  | storeNullification => rfl
  | _ => exact hn

theorem CtxStep.mNotarization (h : CtxStep adm peers c c') {m : MNotarization P}
    (hm : c.mNotarization = some m) : c'.mNotarization = some m := by
  cases h with
  | block h => exact h.flags.2.2.1.trans hm
  | notarize _ hnone => rw [hnone] at hm; cases hm
  | adopt _ _ _ hnone | storeMNotarization _ _ _ hnone => rw [hnone] at hm; cases hm
  | _ => exact hm

theorem CtxStep.nullification (h : CtxStep adm peers c c') (hn : c.nullification.isSome) :
    c'.nullification.isSome := by
  cases h with
  | block h => rwa [h.flags.2.2.2]
  | certify => rfl
  | storeNullification => rfl
  | _ => exact hn

theorem CtxStep.certificate (h : CtxStep adm peers c c')
    (hc : c.mNotarization.isSome ∨ c.hasNullified = true) :
    c'.mNotarization.isSome ∨ c'.hasNullified = true := by
  rcases hc with hm | hn
  · obtain ⟨m, hm⟩ := isSome_iff_exists.mp hm
    exact .inl (by rw [h.mNotarization hm]; rfl)
  · exact .inr (h.hasNullified hn)

/-- A hash that a block or a certificate stands for stays. -/
def Anchored (c : ViewContext P) (h : Hash P) : Prop :=
  c.blockHash = some h ∧ (c.block.isSome ∨ c.mNotarization.isSome)

theorem BlockStep.anchored (hstep : BlockStep adm peers c c') (hc : WF peers c)
    (hh : c.Anchored h) : c'.Anchored h := by
  cases hstep with
  | same => exact hh
  | @store b d _ hb =>
    obtain ⟨hhash, hblock | hcert⟩ := hh
    · rw [hb.noBlock] at hblock
      cases hblock
    · obtain ⟨m, hm⟩ := isSome_iff_exists.mp hcert
      have heq := (hc.mNotarization_hash m hm).symm.trans hhash
      rw [hb.notarized m hm] at heq
      exact ⟨heq, .inl rfl⟩
  | flag => exact ⟨hh.1, by simpa [markBlockFinalized] using hh.2⟩
  | await => exact hh
  | take => exact hh

theorem CtxStep.anchored (hstep : CtxStep adm peers c c') (hc : WF peers c) (hh : c.Anchored h) :
    c'.Anchored h := by
  cases hstep with
  | block hb => exact hb.anchored hc hh
  | notarize | storeMNotarization => exact ⟨hh.1, .inr rfl⟩
  | certify => exact ⟨hh.1, by simpa [markBlockFinalized] using hh.2⟩
  | adopt _ _ hnone _ => rw [hh.1] at hnone; cases hnone
  | recover => exact ⟨hh.1, .inl rfl⟩
  | _ => exact hh

/-- A waiting block after a step was waiting before or came with an admitted
proposal. -/
theorem CtxStep.pending (h : CtxStep adm peers c c') {b : Block P} (hb : c'.pendingBlock = some b) :
    c.pendingBlock = some b ∨ adm (.blockProposal b) := by
  cases h with
  | block h =>
    cases h with
    | await d ha _ =>
      obtain rfl := some.inj hb
      exact .inr ha
    | take => cases hb
    | _ => exact .inl hb
  | _ => exact .inl hb

end ViewContext

end Minimmit
