/-
Minimmit.Consensus.BindingTheorems — what an accepted signature shows.

A vote, a proposal and an M-notarization are signatures on a block hash
alone; the view stands beside it unsigned. So a signature speaks for a view
only as far as the hash does. If every hash that arrives for a view is the
hash of a block of that view, then what a context accepts from a correct
replica, alone or in a certificate, that replica signed for that view and
purpose (`accepted_signatures_bound`). A vote of view 1 that is sent again
with view 2 written beside it is accepted in view 2 (`vote_replayed`).
-/
import Minimmit.Consensus.Network

namespace Minimmit

open Minimmit.Library Act Relation Replica ViewContext ViewChain Function List

variable {P : Params} {m : ConsensusMessage P}

/-- The hash is one of a block of this view. -/
def HashOf (v : Nat) (h : Hash P) : Prop :=
  v < u64Size ∧ ∃ (parent : Hash P) (txs : List (Transaction P)) (timestamp : Nat),
    timestamp < u64Size ∧ P.hashing.blake3 (Block.preimage parent txs timestamp v) = h

/-- A hash is of one view only. -/
theorem HashOf.view_unique (hinj : Injective P.hashing.blake3) {v v' : Nat} {h : Hash P}
    (hv : HashOf v h) (hv' : HashOf v' h) : v = v' := by
  obtain ⟨hlt, parent, txs, timestamp, ht, heq⟩ := hv
  obtain ⟨hlt', parent', txs', timestamp', ht', heq'⟩ := hv'
  exact (Block.preimage_inj hinj ht ht' hlt hlt' (hinj (heq.trans heq'.symm))).2.2.2

/-- The hash of a block is never the digest of a nullify message, whose
preimage is shorter. -/
theorem HashOf.ne_nullifyHash (hinj : Injective P.hashing.blake3) {v view leader : Nat}
    {h : Hash P} (hv : HashOf v h) : h ≠ nullifyHash P view leader := by
  obtain ⟨-, parent, txs, timestamp, -, rfl⟩ := hv
  intro heq
  have hlen := congrArg length (hinj heq)
  have hpos := length_pos_iff.mpr (P.hashing.bytes_ne_nil parent)
  simp only [Block.preimage, length_append, u64Bytes_length] at hlen
  omega

/-- Every block hash in the message is of the view beside it. -/
def ConsensusMessage.BindsHashes : ConsensusMessage P → Prop
  | .blockProposal b => HashOf b.view b.getHash
  | .vote v => HashOf v.view v.blockHash
  | .mNotarization m => HashOf m.view m.blockHash
  | _ => True

/-- The block hash that a proposal or a certificate gives its view is of that
view. -/
def ConsensusMessage.NamesOwnView : ConsensusMessage P → Prop
  | .blockProposal b => HashOf b.view b.getHash
  | .mNotarization m => HashOf m.view m.blockHash
  | _ => True

theorem ConsensusMessage.BindsHashes.namesOwnView (h : m.BindsHashes) : m.NamesOwnView := by
  cases m with
  | blockProposal b => exact h
  | mNotarization m => exact h
  | _ => trivial

theorem Config.block_hashOf (cfg : Config P) {view : Nat} (hv : view < u64Size) (parent : Hash P)
    (now : Nat) : HashOf (cfg.block view parent now).view (cfg.block view parent now).getHash :=
  ⟨hv, parent, cfg.env.transactions now, cfg.env.timestamp now, cfg.env.timestamp_lt now, rfl⟩

theorem Network.allowsOwn_bindsHashes (net : Network P) :
    net.AllowsOwn ConsensusMessage.BindsHashes :=
  fun p _ _ parent now hv => (net.config p).block_hashOf hv parent now

/-! ## Hashes in contexts and logs -/

/-- The block hash that a proposal or a certificate gives its view is in the
relation `R` to it. -/
def ConsensusMessage.NamesHash (R : Nat → Hash P → Prop) : ConsensusMessage P → Prop
  | .blockProposal b => R b.view b.getHash
  | .mNotarization m => R m.view m.blockHash
  | _ => True

theorem ConsensusMessage.namesOwnView_iff : m.NamesOwnView ↔ m.NamesHash HashOf := by
  cases m <;> exact Iff.rfl

/-- The hash of a context is in the relation `R` to its view. -/
def ViewContext.HashIn (R : Nat → Hash P → Prop) (c : ViewContext P) : Prop :=
  ∀ h, c.blockHash = some h → R c.viewNumber h

/-- The hash of a context is of its view. -/
def ViewContext.BoundHash (c : ViewContext P) : Prop :=
  ∀ h, c.blockHash = some h → HashOf c.viewNumber h

section Hashes

variable {R : Nat → Hash P → Prop} {adm : ConsensusMessage P → Prop} {peers : PeerSet P}

theorem ViewContext.CtxStep.hashIn (hadm : ∀ m, adm m → m.NamesHash R) {c c' : ViewContext P}
    (h : CtxStep adm peers c c') (hc : c.HashIn R) : c'.HashIn R := by
  cases h with
  | block h =>
    cases h with
    | store d ha h =>
      rintro hash ⟨⟩
      have hnamed : R _ _ := hadm _ ha
      rwa [h.view] at hnamed
    | _ => exact hc
  | adopt ha h =>
    rintro hash ⟨⟩
    have hnamed : R _ _ := hadm _ ha
    rwa [h.view] at hnamed
  | _ => exact hc

theorem ViewContext.HashOnlyStep.hashIn (hadm : ∀ m, adm m → m.NamesHash R) {c c' : ViewContext P}
    (h : HashOnlyStep adm peers c c') : c'.HashIn R := by
  cases h with
  | adoptHash ha h =>
    rintro hash ⟨⟩
    have hnamed : R _ _ := hadm _ ha
    rwa [h.view] at hnamed

theorem hashIn_chainSteps (hadm : ∀ m, adm m → m.NamesHash R) {s s' : ViewChain P}
    (h : Steps (CtxStep adm peers) s s')
    (hs : ∀ v c, s.findViewContext v = some c → c.HashIn R) :
    ∀ v c, s'.findViewContext v = some c → c.HashIn R := by
  induction h with
  | refl => exact hs
  | tail _ hstep ih =>
    intro v c' hc'
    rcases hstep.find hc' with hold | ⟨c, hc, hctx⟩
    · exact ih v c' hold
    · exact hctx.hashIn hadm (ih v c hc)

/-- Held contexts get their hashes from admitted messages. -/
theorem Replica.Step.hashIn {cfg : Config P} {A : Admission cfg} {s s' : Replica P}
    (h : Step A s s') (hA : ∀ m, A.admits s'.signed m → m.NamesHash R)
    (hs : ∀ v c, s.context v = some c → c.HashIn R) :
    ∀ v c, s'.context v = some c → c.HashIn R := by
  have hset : ∀ {v c'}, c'.HashIn R → ∀ w d,
      (s.chain.setContext v c').findViewContext w = some d → d.HashIn R := by
    intro v c' hc' w d hd
    rcases findViewContext_setContext_cases hd with ⟨-, rfl⟩ | ⟨-, hold⟩
    · exact hc'
    · exact hs w d hold
  cases h with
  | hashOnly hc h => exact hset (h.hashIn hA)
  | clean h =>
    cases h with
    | chain h => exact hashIn_chainSteps hA (.single h) hs
    | enter =>
      intro v d hd
      rcases enter_cases hd with ⟨-, rfl⟩ | ⟨-, hold⟩
      · exact fun _ hh => nomatch hh
      · exact hs v d hold
    | @finalize view =>
      intro v c hc
      exact hs v c ((finalize_prunes view s.viewManager.peers s.chain).find v c hc)
    | @castVote v h c signature hc hr =>
      refine hset fun hash hh => hs v c hc hash ?_
      obtain rfl : h = hash := Option.some.inj hh
      exact hr.anchored.1
    | nullify hc => exact hset fun hash hh => hs _ _ hc hash hh
    | propose _ hsteps => exact hashIn_chainSteps hA (Steps.ofBlock hsteps) hs
    | _ => exact hs

end Hashes

namespace Replica

/-- The hashes a replica holds and has signed are of their views, and its
nullify messages name the view of their context. -/
structure BoundHashes (s : Replica P) : Prop where
  held : ∀ v c, s.context v = some c → c.BoundHash
  signed : ∀ e ∈ s.signed, ∀ v h, e.SignsBlock v h → HashOf v h
  nullify : ∀ v forced c, .nullify v forced c ∈ s.signed → c.viewNumber = v ∧ v < u64Size

variable {cfg : Config P} {A : Admission cfg} {s : Replica P}

theorem Step.boundHash (hA : ∀ log m, A.admits log m → m.NamesOwnView) {s' : Replica P}
    (h : Step A s s') (hs : ∀ v c, s.context v = some c → c.BoundHash) :
    ∀ v c, s'.context v = some c → c.BoundHash :=
  h.hashIn (fun m hm => ConsensusMessage.namesOwnView_iff.mp (hA _ m hm)) hs

theorem Step.boundHashes (hA : ∀ log m, A.admits log m → m.BindsHashes) {s' : Replica P}
    (h : Step A s s') (hwf : s.WF A) (hs : s.BoundHashes) : s'.BoundHashes := by
  refine ⟨h.boundHash (fun log m hm => (hA log m hm).namesOwnView) hs.held, ?_, ?_⟩
  · intro e he v hash hsig
    rcases h.signed_cases he with hold | ⟨-, hnew⟩
    · exact hs.signed e hold v hash hsig
    cases hnew with
    | nullify => cases hsig
    | vote hc hr =>
      obtain ⟨rfl, rfl⟩ := hsig
      have hbound := hs.held _ _ hc _ hr.anchored.1
      rwa [hwf.chain.viewNumber _ _ hc] at hbound
    | @proposal view parent now _ hp =>
      obtain ⟨rfl, rfl⟩ := hsig
      have hlt := (hwf.entered_le _ hp).trans_lt hwf.chain.current_lt
      exact cfg.block_hashOf hlt parent now
  · intro v forced c hmem
    rcases h.signed_cases hmem with hold | ⟨-, hnew⟩
    · exact hs.nullify v forced c hold
    · cases hnew with
      | nullify hc =>
        exact ⟨hwf.chain.viewNumber v c hc,
          (hwf.chain.le_current v c hc).trans_lt hwf.chain.current_lt⟩

theorem start_boundHashes (cfg : Config P) : (start cfg).BoundHashes := by
  refine ⟨?_, (fun _ he => nomatch he), (fun _ _ _ he => nomatch he)⟩
  intro v c hc h hh
  obtain ⟨-, rfl⟩ := start_context hc
  cases hh

/-- A signature on a hash of view `v` was given for view `v`. -/
theorem BoundHashes.signsBlock (hinj : Injective P.hashing.blake3) (hs : s.BoundHashes)
    {e : Signed P} (he : e ∈ s.signed) {v : Nat} {h : Hash P} (hh : HashOf v h)
    (hbytes : e.bytes = blockMessage h) : e.SignsBlock v h := by
  cases e with
  | proposal b chain sent =>
    have heq : b.getHash = h := P.hashing.bytes_injective hbytes
    have hbound := hs.signed _ he b.view h ⟨rfl, heq⟩
    exact ⟨hbound.view_unique hinj hh, heq⟩
  | vote w h' c =>
    have heq : h' = h := P.hashing.bytes_injective hbytes
    have hbound := hs.signed _ he w h ⟨rfl, heq⟩
    exact ⟨hbound.view_unique hinj hh, heq⟩
  | nullify w forced c =>
    have heq : nullifyHash P c.viewNumber c.leaderId = h := P.hashing.bytes_injective hbytes
    exact absurd heq.symm (hh.ne_nullifyHash hinj)

/-- A signature on the digest of a view and leader is a nullify message for
that view. -/
theorem BoundHashes.signsNullify (hinj : Injective P.hashing.blake3) (hs : s.BoundHashes)
    {e : Signed P} (he : e ∈ s.signed) {view leader : Nat} (hview : view < u64Size)
    (hbytes : e.bytes = nullifyMessage P view leader) : e.SignsNullify view := by
  cases e with
  | proposal b chain sent =>
    have heq : b.getHash = _ := P.hashing.bytes_injective hbytes
    exact absurd heq ((hs.signed _ he b.view b.getHash ⟨rfl, rfl⟩).ne_nullifyHash hinj)
  | vote w h c =>
    have heq : h = _ := P.hashing.bytes_injective hbytes
    exact absurd heq ((hs.signed _ he w h ⟨rfl, rfl⟩).ne_nullifyHash hinj)
  | nullify w forced c =>
    obtain ⟨hv, hlt⟩ := hs.nullify w forced c he
    have heq : nullifyHash P c.viewNumber c.leaderId = nullifyHash P view leader :=
      P.hashing.bytes_injective hbytes
    rw [hv] at heq
    obtain ⟨hviews, -⟩ := append_inj (hinj heq) ((u64Bytes_length _).trans (u64Bytes_length _).symm)
    exact u64Bytes_inj hlt hview hviews

end Replica

/-! ## What a context accepts -/

namespace ViewContext

variable {peers : PeerSet P} {c c' : ViewContext P}

theorem addVote_accepts {vote : Vote P} {r : CollectedVotesResult}
    (h : addVote vote peers c = (.ok r, c')) :
    VoteChecked peers vote c := by
  have hends : EndsBy (addVote vote peers c) (fun _ _ => VoteChecked peers vote c)
      (fun _ => True) fun _ _ => True := addVote_rule trivial (fun _ _ _ => trivial) fun h _ _ _ => h
  rw [h] at hends
  exact hends

theorem addNullify_accepts {n : Nullify P} (h : addNullify n peers c = (.ok (), c')) :
    c.AcceptsNullify peers n := by
  have hends : EndsBy (addNullify n peers c) (fun _ _ => c.AcceptsNullify peers n)
      (fun _ => True) fun _ _ => True := addNullify_rule trivial (fun _ _ => trivial) fun h _ _ => h
  rw [h] at hends
  exact hends

theorem addMNotarization_accepts {m : MNotarization P} {r : ShouldMNotarize}
    (h : addMNotarization m peers c = (.ok r, c')) :
    c.AcceptsMNotarization peers m := by
  have hends : EndsBy (addMNotarization m peers c) (fun _ _ => c.AcceptsMNotarization peers m)
      (fun _ => True) fun _ _ => True := addMNotarization_rule trivial (fun _ => trivial) fun h _ _ _ => h
  rw [h] at hends
  exact hends

theorem addNullification_accepts {n : Nullification P} {r : Bool}
    (h : addNullification n peers c = (.ok r, c')) :
    c.AcceptsNullification peers n := by
  have hends : EndsBy (addNullification n peers c) (fun _ _ => c.AcceptsNullification peers n)
      (fun _ => True) fun _ _ => True := addNullification_rule trivial (fun _ => trivial) fun h _ _ _ => h
  rw [h] at hends
  exact hends

end ViewContext

/-! ## Runs of the system -/

namespace Network

variable {net : Network P} {allowed : ConsensusMessage P → Prop} {hown : net.AllowsOwn allowed}
  {w : Nat → Replica P}

theorem MicroRun.boundHashes (hallow : ∀ m, allowed m → m.BindsHashes) (h : MicroRun hown w) :
    ∀ p ∈ net.correct, (w p).BoundHashes :=
  node_invariant (J := fun _ s => s.BoundHashes) start_boundHashes
    (fun hp others _ _ hwf hstep hs => Step.boundHashes (A := admission hown others hp)
      (fun _ m hm => hallow m hm.2.2) hstep hwf hs) h

/-- A signature on a hash of view `v` that verifies for a correct replica. -/
theorem SignedBytes.signsBlock (hinj : Injective P.hashing.blake3)
    (hallow : ∀ m, allowed m → m.BindsHashes) (h : MicroRun hown w) {p : Nat}
    (hp : p ∈ net.correct) {v : Nat} {hash : Hash P} (hh : HashOf v hash)
    (hs : (logsOf w).SignedBytes p (blockMessage hash)) :
    ∃ e ∈ (w p).signed, e.SignsBlock v hash := by
  obtain ⟨e, he, hbytes⟩ := hs
  exact ⟨e, he, (h.boundHashes hallow p hp).signsBlock hinj he hh hbytes⟩

theorem SignedBytes.signsNullify (hinj : Injective P.hashing.blake3)
    (hallow : ∀ m, allowed m → m.BindsHashes) (h : MicroRun hown w) {p : Nat}
    (hp : p ∈ net.correct) {view leader : Nat} (hview : view < u64Size)
    (hs : (logsOf w).SignedBytes p (nullifyMessage P view leader)) :
    ∃ e ∈ (w p).signed, e.SignsNullify view := by
  obtain ⟨e, he, hbytes⟩ := hs
  exact ⟨e, he, (h.boundHashes hallow p hp).signsNullify hinj he hview hbytes⟩

/-- **An accepted signature was given for its view and purpose**, in every
run of the system that receives only hashes of the views beside them. -/
theorem accepted_signatures_bound (hinj : Function.Injective P.hashing.blake3) {w : World P}
    (h : net.Reachable ConsensusMessage.BindsHashes w) (c : ViewContext P) :
    (∀ vote r c', (ConsensusMessage.vote vote).BindsHashes → net.Authentic (logs w) (.vote vote) →
      ViewContext.addVote vote net.peers c = (.ok r, c') → vote.peerId ∈ net.correct →
      ∃ e ∈ (w vote.peerId).1.signed, e.SignsBlock c.viewNumber vote.blockHash) ∧
    (∀ n c', (ConsensusMessage.nullify n).WellTyped → net.Authentic (logs w) (.nullify n) →
      ViewContext.addNullify n net.peers c = (.ok (), c') → n.peerId ∈ net.correct →
      ∃ e ∈ (w n.peerId).1.signed, e.SignsNullify c.viewNumber) ∧
    (∀ m r c', (ConsensusMessage.mNotarization m).BindsHashes →
      net.Authentic (logs w) (.mNotarization m) →
      ViewContext.addMNotarization m net.peers c = (.ok r, c') →
      ∀ p ∈ m.peerIds, p ∈ net.correct →
      ∃ e ∈ (w p).1.signed, e.SignsBlock c.viewNumber m.blockHash) ∧
    (∀ n r c', (ConsensusMessage.nullification n).WellTyped →
      net.Authentic (logs w) (.nullification n) →
      ViewContext.addNullification n net.peers c = (.ok r, c') →
      ∀ p ∈ n.peerIds, p ∈ net.correct →
      ∃ e ∈ (w p).1.signed, e.SignsNullify c.viewNumber) := by
  obtain ⟨hmicro, -⟩ := h.micro net.allowsOwn_bindsHashes
  refine ⟨?_, ?_, ?_, ?_⟩
  · intro vote r c' hbinds hauth hadd hp
    obtain ⟨hview, -, -, pk, hpk, hverify⟩ := addVote_accepts hadd
    have hbytes := hauth hp (by rw [hpk]; exact hverify)
    rw [← hview]
    exact SignedBytes.signsBlock hinj (fun _ hm => hm) hmicro hp hbinds hbytes
  · intro n c' htyped hauth hadd hp
    obtain ⟨hview, -, ⟨pk, hpk, hverify⟩, -⟩ := addNullify_accepts hadd
    have hbytes := hauth hp (by rw [hpk]; exact hverify)
    rw [← hview]
    exact SignedBytes.signsNullify hinj (fun _ hm => hm) hmicro hp htyped.1 hbytes
  · intro m r c' hbinds hauth hadd p hmem hp
    obtain ⟨hview, -, hverify⟩ := addMNotarization_accepts hadd
    rw [← hview]
    exact SignedBytes.signsBlock hinj (fun _ hm => hm) hmicro hp hbinds (hauth hverify p hmem hp)
  · intro n r c' htyped hauth hadd p hmem hp
    obtain ⟨hview, -, hverify⟩ := addNullification_accepts hadd
    rw [← hview]
    exact SignedBytes.signsNullify hinj (fun _ hm => hm) hmicro hp htyped.1
      (hauth hverify p hmem hp)

/-! ### Runs of the sample network -/

theorem firstBlock_hashOf : HashOf 1 firstBlock.getHash :=
  ⟨Nat.one_lt_two_pow (by decide), Block.genesisHash sampleParams, [], 0, Nat.two_pow_pos 64, rfl⟩

/-- The sample network with a faulty first leader, after replica 2 has voted
for the first block. -/
def votedWorld : World sampleParams :=
  let net := sampleNetwork 1 (quietEnv _)
  Function.update net.init 2 ([Input.message (.blockProposal firstBlock)].foldl
    (runOne (net.config 2) 10) (net.init 2))

theorem votedWorld_reachable {allowed : ConsensusMessage sampleParams → Prop}
    (h : allowed (.blockProposal firstBlock)) :
    (sampleNetwork 1 (quietEnv _)).Reachable allowed votedWorld := by
  refine Reachable.runs .init (by decide) 10 _ fun m hm => ?_
  obtain rfl := mem_singleton.mp hm
  exact ⟨by decide +kernel, by decide +kernel, h⟩

/-- A context of view 1 accepts the vote of replica 2, which replica 2 gave
in view 1. -/
theorem accepted_signatures_bound_vote :
    ∃ r c', ViewContext.addVote (voteOf 2 1 firstBlock.getHash) samplePeers
        (ViewContext.new 1 1 0 (Block.genesisHash sampleParams)) = (.ok r, c') ∧
      ∃ e ∈ (votedWorld 2).1.signed, e.SignsBlock 1 firstBlock.getHash := by
  have hok : (ViewContext.addVote (voteOf 2 1 firstBlock.getHash) samplePeers
      (ViewContext.new 1 1 0 (Block.genesisHash sampleParams))).1.isOk = true := by
    decide +kernel
  obtain ⟨r, hr⟩ := Outcome.isOk_iff.mp hok
  refine ⟨r, _, Prod.ext hr rfl, ?_⟩
  exact (accepted_signatures_bound sampleHashing_injective
    (votedWorld_reachable firstBlock_hashOf) _).1 (voteOf 2 1 firstBlock.getHash) r _
    firstBlock_hashOf (by decide +kernel) (Prod.ext hr rfl) (by decide)

/-- Then replica 0 gets the first block and the vote, and enters view 2. -/
def secondViewWorld : World sampleParams :=
  let net := sampleNetwork 1 (quietEnv _)
  Function.update votedWorld 0
    ([Input.message (.blockProposal firstBlock),
      .message (.vote (voteOf 2 1 firstBlock.getHash))].foldl
      (runOne (net.config 0) 10) (votedWorld 0))

theorem secondViewWorld_reachable :
    (sampleNetwork 1 (quietEnv _)).Reachable (fun _ => True) secondViewWorld :=
  Reachable.runs (votedWorld_reachable trivial) (by decide) 10 _ (by decide +kernel)

/-- The vote of replica 2 for the first block with view 2 written beside it. -/
def replayedVote : Vote sampleParams := { voteOf 2 1 firstBlock.getHash with view := 2 }

/-- Replica 2 has signed in view 1 only; replica 0, in view 2, accepts its
vote for view 2. -/
theorem vote_replayed :
    (sampleNetwork 1 (quietEnv _)).Reachable (fun _ => True) secondViewWorld ∧
    (sampleNetwork 1 (quietEnv _)).Authentic (logs secondViewWorld) (.vote replayedVote) ∧
    2 ∈ (sampleNetwork 1 (quietEnv _)).correct ∧
    (∃ c r c', (secondViewWorld 0).1.context 2 = some c ∧
      ViewContext.addVote replayedVote samplePeers c = (.ok r, c')) ∧
    ¬ ∃ e ∈ (secondViewWorld 2).1.signed, ∃ h, e.SignsBlock 2 h := by
  have hok : ((secondViewWorld 0).1.context 2).any (fun c =>
      (ViewContext.addVote replayedVote samplePeers c).1.isOk) = true := by
    decide +kernel
  have hnone : ((secondViewWorld 2).1.signed.any (·.isBlock 2)) = false := by decide +kernel
  rw [Option.any_eq_true] at hok
  obtain ⟨c, hc, hisOk⟩ := hok
  obtain ⟨r, hr⟩ := Outcome.isOk_iff.mp hisOk
  refine ⟨secondViewWorld_reachable, by decide +kernel, by decide,
    ⟨c, r, _, hc, Prod.ext hr rfl⟩, ?_⟩
  rintro ⟨e, he, hsig⟩
  exact List.any_eq_false.mp hnone e he (Signed.isBlock_iff.mpr hsig)

end Network

end Minimmit
