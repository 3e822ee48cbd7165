/-
Minimmit.Consensus.PanicTheorems — what a message may make the process do.

The panics of the modelled code are the `expect` on an unknown signer of a
certificate, the checked additions of block validation, of the recovery
request handler and of the view number, the key of an unknown leader and the
lookups of the current view. The last two cannot happen in a reachable state
of a replica that is one of its own peers. The others are up to the sender:
`ConsensusMessage.Harmless` is what a message must not contain.
-/
import Minimmit.Consensus.EventRule
import Minimmit.Consensus.ParentTheorems
import Minimmit.Validation.ValidatorTheorems

namespace Minimmit

open Minimmit.Library Act Relation List ViewChain

variable {P : Params}

/-! ## Harmless messages -/

/-- A message that no check of the code turns into a panic. -/
def ConsensusMessage.Harmless (peers : PeerSet P) : ConsensusMessage P → Prop
  | .blockProposal block => HarmlessTransactions block.transactions
  | .mNotarization m => ∀ i ∈ m.peerIds, peers.contains i = true
  | .nullification n => ∀ i ∈ n.peerIds, peers.contains i = true
  | .blockRecoveryRequest view _ => view + P.F < u64Size
  | _ => True

instance (peers : PeerSet P) : (m : ConsensusMessage P) → Decidable (m.Harmless peers)
  | .blockProposal _ => inferInstanceAs (Decidable (HarmlessTransactions _))
  | .mNotarization m | .nullification m =>
    inferInstanceAs (Decidable (∀ i ∈ m.peerIds, peers.contains i = true))
  | .blockRecoveryRequest .. => Nat.decLt _ _
  | .vote _ | .nullify _ | .blockRecoveryResponse .. => isTrue trivial

/-- The mempool hands out harmless transactions. -/
def Env.HarmlessTransactions (env : Env P) : Prop :=
  ∀ now, Minimmit.HarmlessTransactions (env.transactions now)

/-- Only harmless messages are handled. -/
def harmlessAdmission (cfg : Config P) (henv : cfg.env.HarmlessTransactions) : Admission cfg where
  admits _ m := m.Harmless cfg.peers
  mono h := h
  own _ := henv _

/-! ## Operations that never panic -/

section Never

variable {peers : PeerSet P}

open ViewContext

theorem addNewViewBlock_never (block : Block P) (d : StateDiff P) (peers : PeerSet P) :
    Never .panic (addNewViewBlock block d peers) := by
  intro c _
  exact addNewViewBlock_rule trivial fun _ _ _ _ => trivial

theorem addVote_never (vote : Vote P) (peers : PeerSet P) : Never .panic (addVote vote peers) := by
  intro c _
  exact addVote_rule trivial (fun _ _ _ => trivial) fun _ _ _ _ => trivial

theorem addNullify_never (nullify : Nullify P) (peers : PeerSet P) :
    Never .panic (addNullify nullify peers) := by
  intro c _
  exact addNullify_rule trivial (fun _ _ => trivial) fun _ _ _ => trivial

/-- The ids of the certificate are known, so its signature can be checked. -/
theorem publicKeys_isSome {ids : List Nat} (h : ∀ i ∈ ids, peers.contains i = true) :
    ∃ keys, peers.publicKeys ids = some keys := by
  induction ids with
  | nil => exact ⟨[], rfl⟩
  | cons i ids ih =>
    obtain ⟨key, hkey⟩ := (peers.contains_iff i).mp (h i mem_cons_self)
    obtain ⟨keys, hkeys⟩ := ih fun j hj => h j (mem_cons_of_mem _ hj)
    exact ⟨key :: keys, by
      unfold PeerSet.publicKeys at hkeys ⊢
      rw [mapM_cons, hkey, hkeys]
      rfl⟩

theorem addMNotarization_never {m : MNotarization P}
    (h : ∀ i ∈ m.peerIds, peers.contains i = true) :
    Never .panic (addMNotarization m peers) := by
  obtain ⟨keys, hkeys⟩ := publicKeys_isSome h
  intro c _
  refine addMNotarization_rule trivial (fun hnone => ?_) fun _ _ _ _ => trivial
  rw [MNotarization.verify, hkeys] at hnone
  cases hnone

theorem addNullification_never {n : Nullification P}
    (h : ∀ i ∈ n.peerIds, peers.contains i = true) :
    Never .panic (addNullification n peers) := by
  obtain ⟨keys, hkeys⟩ := publicKeys_isSome h
  intro c _
  refine addNullification_rule trivial (fun hnone => ?_) fun _ _ _ _ => trivial
  rw [Nullification.verify, hkeys] at hnone
  cases hnone

end Never

namespace ViewChain

theorem routeVote_never (vote : Vote P) (peers : PeerSet P) :
    Never .panic (routeVote vote peers) := by
  intro s _
  exact routeVote_rule trivial trivial fun c _ _ => addVote_never vote peers c trivial

theorem routeNullify_never (nullify : Nullify P) (peers : PeerSet P) :
    Never .panic (routeNullify nullify peers) := by
  intro s _
  exact routeNullify_rule trivial trivial fun c _ => addNullify_never nullify peers c trivial

theorem routeMNotarization_never {m : MNotarization P} {peers : PeerSet P}
    (h : ∀ i ∈ m.peerIds, peers.contains i = true) :
    Never .panic (routeMNotarization m peers) := by
  intro s _
  exact routeMNotarization_rule trivial (fun _ => trivial) fun c _ =>
    addMNotarization_never h c trivial

theorem routeNullification_never {n : Nullification P} {peers : PeerSet P}
    (h : ∀ i ∈ n.peerIds, peers.contains i = true) :
    Never .panic (routeNullification n peers) := by
  intro s _
  exact routeNullification_rule trivial fun c _ => addNullification_never h c trivial

theorem addRecoveredBlock_never (v : Nat) (block : Block P) :
    Never .panic (addRecoveredBlock v block) := by
  intro s _
  exact addRecoveredBlock_rule trivial trivial fun _ _ _ _ => trivial

theorem addBlockProposal_never (v : Nat) (block : Block P) (d : StateDiff P) (peers : PeerSet P) :
    Never .panic (addBlockProposal v block d peers) := by
  intro s _
  exact addBlockProposal_rule trivial (fun _ _ _ _ _ => trivial) fun c _ _ _ _ =>
    addNewViewBlock_never block d peers c trivial

theorem proposePending_never (peers : PeerSet P) (pending : List (Nat × Block P × StateDiff P)) :
    Never .panic (proposePending peers pending) := by
  induction pending with
  | nil => exact never_pure
  | cons p pending ih =>
    exact never_bind (addBlockProposal_never _ _ _ peers) fun _ =>
      never_bind ih fun _ => never_pure

theorem processPendingChildProposals_never (v : Nat) (peers : PeerSet P) :
    Never .panic (processPendingChildProposals v peers) :=
  fun s _ => proposePending_never peers (s.collectPending v).1 _ trivial

end ViewChain

namespace ViewProgressManager

theorem onChain_never {α : Type} {k : Abort} {op : ViewChain.Op P α} (h : Never k op) :
    Never k (onChain op) :=
  triple_zoom fun s _ => h s.viewChain trivial

theorem pendingPass_never (peers : PeerSet P) (views : List Nat) :
    Never .panic (pendingPass peers views) := by
  induction views with
  | nil => exact never_pure
  | cons v views ih =>
    exact never_bind (processPendingChildProposals_never v peers) fun _ =>
      never_bind ih fun _ => never_pure

theorem processAllPendingBlocks_never (fuel : Nat) :
    Never .panic (processAllPendingBlocks (P := P) fuel) := by
  induction fuel with
  | zero => exact triple_exhausted fun _ _ h => nomatch h
  | succ fuel ih =>
    refine triple_get_bind fun vm _ => ?_
    refine Triple.weaken (P := fun _ => True) ?_ (fun _ _ => trivial) fun _ _ h => h
    refine never_bind (onChain_never (pendingPass_never _ _)) fun progress => ?_
    exact triple_ite (fun _ => ih) fun _ => never_pure

end ViewProgressManager

/-! ## Known signers -/

/-- Every vote of the context is of a peer, and so is every signer of its
certificate. -/
structure KnownSigners (peers : PeerSet P) (c : ViewContext P) : Prop where
  votes : ∀ v ∈ c.votes, peers.contains v.peerId = true
  waiting : ∀ v ∈ c.nonVerifiedVotes, peers.contains v.peerId = true
  certificate : ∀ m, c.mNotarization = some m → ∀ i ∈ m.peerIds, peers.contains i = true

namespace KnownSigners

variable {peers : PeerSet P} {c : ViewContext P}

theorem absorb (hc : KnownSigners peers c) (h : Hash P) :
    KnownSigners peers (c.absorbNonVerified h) where
  votes v hv := by
    rcases ViewContext.mem_absorb_votes hv with hold | ⟨hold, -⟩
    · exact hc.votes v hold
    · exact hc.waiting v hold
  waiting v hv := absurd hv (by simp [ViewContext.absorbNonVerified, KeySet.mem_def])
  certificate := hc.certificate

/-- One more counted vote of a peer. -/
theorem insert (hc : KnownSigners peers c) {v : Vote P} (hv : peers.contains v.peerId = true) :
    ∀ u ∈ c.votes.insert v, peers.contains u.peerId = true := by
  intro u hu
  rcases KeySet.mem_insert_imp hu with rfl | hu
  · exact hv
  · exact hc.votes u hu

end KnownSigners

theorem PeerSet.leaderForView_mem {peers : PeerSet P} {i : Nat} (hi : peers.contains i = true)
    (v : Nat) : peers.contains (peers.leaderForView v) = true := by
  have hmem : i ∈ peers.sortedPeerIds := (peers.mem_iff i).mpr (of_decide_eq_true hi)
  have hlt : v % peers.sortedPeerIds.length < peers.sortedPeerIds.length :=
    Nat.mod_lt _ (length_pos_of_mem hmem)
  refine decide_eq_true ((peers.mem_iff _).mp ?_)
  rw [leaderForView, getD_eq_getElem?_getD, getElem?_eq_getElem hlt]
  exact getElem_mem hlt

/-- The signers stay known: a vote is counted after its signature was checked
under the key of its peer, and an accepted certificate is harmless. -/
theorem knownSigners_rule {cfg : Config P} {henv : cfg.env.HarmlessTransactions}
    (hself : cfg.peers.contains cfg.replicaId = true) :
    Replica.ContextRule (harmlessAdmission cfg henv) fun _ c => KnownSigners cfg.peers c where
  new v parent := by
    constructor <;> simp [ViewContext.new, KeySet.mem_def]
  step {log v c c'} hb h hc := by
    have hvoter : ∀ {u}, c.AcceptsVote cfg.peers u → cfg.peers.contains u.peerId = true := by
      intro u hu
      obtain ⟨key, hkey, -⟩ := hu.signature
      exact (cfg.peers.contains_iff _).mpr ⟨key, hkey⟩
    cases h with
    | block h =>
      cases h with
      | same => exact hc
      | @store b d _ h =>
        refine KnownSigners.absorb (c := { c with
          blockHash := some b.getHash, block := some b, stateDiff := some d,
          votes := c.votes.insert _ }) ⟨hc.insert ?_, hc.waiting, hc.certificate⟩ b.getHash
        dsimp only
        rw [hb.leaderId]
        exact PeerSet.leaderForView_mem hself v
      | flag => exact ⟨hc.votes, hc.waiting, hc.certificate⟩
      | await => exact ⟨hc.votes, hc.waiting, hc.certificate⟩
      | take => exact ⟨hc.votes, hc.waiting, hc.certificate⟩
    | wait _ h =>
      refine ⟨hc.votes, fun u hu => ?_, hc.certificate⟩
      rcases KeySet.mem_insert_imp hu with rfl | hu
      · exact hvoter h
      · exact hc.waiting u hu
    | reject | nullify | certify | storeNullification | recover | proposed =>
      exact ⟨hc.votes, hc.waiting, hc.certificate⟩
    | count _ h => exact ⟨hc.insert (hvoter h), hc.waiting, hc.certificate⟩
    | notarize _ _ h =>
      refine ⟨hc.votes, hc.waiting, ?_⟩
      rintro _ ⟨⟩ i hi
      obtain ⟨u, hu, rfl⟩ := mem_map.mp (h.peerIds.subset hi)
      exact hc.votes u hu
    | @adopt m ha =>
      have habsorb := KnownSigners.absorb (c := { c with blockHash := some m.blockHash })
        ⟨hc.votes, hc.waiting, hc.certificate⟩ m.blockHash
      refine ⟨habsorb.votes, habsorb.waiting, ?_⟩
      rintro _ ⟨⟩
      exact ha
    | storeMNotarization ha =>
      refine ⟨hc.votes, hc.waiting, ?_⟩
      rintro _ ⟨⟩
      exact ha
  hashOnly {log v c c'} hb h hc := by
    cases h with
    | @adoptHash m =>
      exact KnownSigners.absorb (c := { c with blockHash := some m.blockHash })
        ⟨hc.votes, hc.waiting, hc.certificate⟩ m.blockHash
  castVote {v c h signature} hb _ hc := by
    refine KnownSigners.absorb (c := { c with
      blockHash := some h, hasVoted := true, votes := c.votes.insert _ })
      ⟨hc.insert ?_, hc.waiting, hc.certificate⟩ h
    dsimp only
    rw [hb.replicaId]
    exact hself
  nullify _ _ hc := ⟨hc.votes, hc.waiting, hc.certificate⟩

/-! ## The parts of the event loop -/

namespace ViewProgressManager

/-- A panic stops the process only where the view number has no successor. -/
def StopsLast (k : Abort) (vm : ViewProgressManager P) : Prop :=
  k = .panic → vm.viewChain.currentView + 1 = u64Size

/-- From `Pre` the operation panics at most in the last view. -/
abbrev Calm {α : Type} (Pre : ViewProgressManager P → Prop) (op : Op P α) : Prop :=
  Act.Triple Pre op (fun _ _ => True) (fun _ => True) StopsLast

theorem calm_of_never {α : Type} {Pre : ViewProgressManager P → Prop} {op : Op P α}
    (h : Never .panic op) : Calm Pre op :=
  h.conseq (fun _ _ => trivial) (fun _ _ h => h) (fun _ h => h) fun _ _ hne heq => absurd heq hne

/-- An event after the pending blocks were tried. -/
theorem pendingThen_never (fuel : Nat) (e : ViewProgressEvent P) :
    Never .panic (processAllPendingBlocks (P := P) fuel >>= fun _ => pure e) :=
  never_bind (processAllPendingBlocks_never fuel) fun _ => never_pure

theorem handleBlockProposal_never {block : Block P}
    (h : HarmlessTransactions block.transactions) (fuel : Nat) :
    Never .panic (handleBlockProposal fuel block) := by
  intro vm _
  refine handleBlockProposal_rule (M := fun _ _ => True) ⟨fun _ => trivial, trivial⟩ rfl trivial
    (fun hpanic => absurd hpanic (validateBlock_ne_panic h)) (fun h => nomatch h)
    (fun d _ => onChain_never (ViewChain.addBlockProposal_never _ block d _) _ trivial)
    fun r => proposalEvent_rule fun x hx => ?_
  cases hx with
  | voteAndNotarize => exact pendingThen_never fuel _
  | _ => exact never_pure

theorem handleVote_never (fuel : Nat) (vote : Vote P) : Never .panic (handleVote fuel vote) := by
  intro vm _
  refine handleVote_rule (M := fun _ _ => True) ⟨fun _ => trivial, trivial⟩ rfl
    (onChain_never (ViewChain.routeVote_never vote _) vm trivial) fun r x hx => ?_
  cases hx with
  | voteAndNotarize | notarize => exact pendingThen_never fuel _
  | _ => exact never_pure

theorem handleNullify_never (nullify : Nullify P) : Never .panic (handleNullify nullify) := by
  intro vm _
  refine handleNullify_rule (M := fun _ _ => True) ⟨fun _ => trivial, trivial⟩ rfl
    (onChain_never (ViewChain.routeNullify_never nullify _) vm trivial) fun r x hx => ?_
  cases hx <;> exact never_pure

theorem openView_calm {newView : Nat} {parent : Hash P} {ready : ViewContext P → Bool}
    {progress : ViewContext P → ViewChain.Op P Unit} {before : ViewChain P → ViewChain P}
    (hprogress : Progresses progress ready before) :
    Calm (fun vm => vm.viewChain.currentView < u64Size ∧
        ∃ c, vm.viewChain.findViewContext vm.viewChain.currentView = some c)
      (openView newView parent progress) := by
  rintro vm ⟨hlt, c, hc⟩
  refine openView_rule hprogress ?_ trivial fun _ _ _ _ _ => trivial
  rintro (hnone | hle)
  · cases hc.symm.trans hnone
  · exact fun _ => Nat.le_antisymm hlt hle

end ViewProgressManager

namespace ViewProgressManager

open Replica

variable {cfg : Config P} {A : Admission cfg} {s₀ s₁ : Replica P} {vm₀ : ViewProgressManager P}

/-- A well-formed replica whose leaders are peers finalizes without a
panic. -/
theorem finalizeView_calm (hself : cfg.peers.contains cfg.replicaId = true)
    (hwf : (s₁.withManager vm₀).WF A) (view : Nat) : Calm (· = vm₀) (finalizeView view) := by
  refine triple_bind (Q := fun _ vm =>
    vm = { vm₀ with finalizations := vm₀.finalizations ++ [(view, vm₀.viewChain)] })
    (triple_modify ?_) fun _ => triple_get_bind fun vm hvm => ?_
  · rintro _ rfl
    rfl
  refine triple_bind (Q := fun _ _ => True) (triple_zoom ?_) fun _ =>
    triple_modify fun _ _ => trivial
  rintro _ ⟨rfl, -⟩
  subst hvm
  have hpeers : vm₀.peers = cfg.peers := hwf.peers
  refine (finalize_ne_panic ?_ ?_).conseq (fun _ _ h => h) (fun _ h => h)
    fun _ _ hne heq => absurd heq hne
  · intro v c hc
    rw [hpeers, hwf.chain.leaderId v c hc]
    exact (cfg.peers.contains_iff _).mp (PeerSet.leaderForView_mem hself v)
  · intro v c b hc hb
    rw [(hwf.chain.context v c hc).block_hash b hb]
    rfl

/-- The view is opened and the one left behind finalized, from well-formed
states. -/
theorem leaveView_calm (hself : cfg.peers.contains cfg.replicaId = true) (h₀ : s₀.WF A)
    (hat : At A s₀ (s₁.withManager vm₀)) {m : MNotarization P}
    (hview : m.view = vm₀.viewChain.currentView)
    (hm : ∀ c, vm₀.viewChain.findViewContext m.view = some c →
      ∃ m', c.mNotarization = some m' ∧ m'.blockHash = m.blockHash) :
    Calm (· = vm₀) (leaveView m.view m.blockHash) := by
  have hopen : Calm (· = vm₀)
      (openView (m.view + 1) m.blockHash ViewChain.progressWithMNotarization) := by
    refine (openView_calm ⟨_, fun _ _ => rfl⟩).weaken ?_ fun _ _ h => h
    rintro _ rfl
    exact ⟨(hat.wf h₀).chain.current_lt, (hat.wf h₀).chain.current⟩
  refine triple_bind (hopen.with_spec (openOnMNotarization_spec hat hview hm) fun _ h => h)
    fun _ => ?_
  rintro vm ⟨⟨hat', -⟩, -⟩
  exact ((triple_attempt (finalizeView_calm hself (hat'.wf h₀) m.view)).weaken
    (fun _ h => h) fun _ _ _ => trivial) vm rfl

theorem handleMNotarization_calm (hself : cfg.peers.contains cfg.replicaId = true) (h₀ : s₀.WF A)
    {fuel : Nat} {m : MNotarization P} (hids : ∀ i ∈ m.peerIds, cfg.peers.contains i = true)
    (hat : At A s₀ (s₁.withManager vm₀))
    (ha : ∀ c, vm₀.viewChain.findViewContext m.view = some c → c.mNotarization = none →
      A.admits s₁.signed (.mNotarization m)) : Calm (· = vm₀) (handleMNotarization fuel m) := by
  rintro vm rfl
  have hroute := (calm_of_never (onChain_never
    (ViewChain.routeMNotarization_never hids))).with_spec (routeMNotarization_at h₀ hat ha)
    fun _ h => h
  refine handleMNotarization_rule ⟨fun _ => trivial, trivial⟩ (hat.wf h₀).peers (hroute vm rfl)
    fun r x hx => ?_
  rintro vm' ⟨⟨-, -, hrest⟩, -⟩
  have hleave : ∀ event, r.shouldNullify = false → m.view = vm.viewChain.currentView →
      Calm (· = vm') ((Reaction.leave m.view m.blockHash event).run fuel) := by
    intro event hgoes hcur
    obtain ⟨hat', hcur', hm, -⟩ := hrest hgoes
    exact triple_bind (leaveView_calm hself h₀ hat' (hcur.trans hcur'.symm) hm) fun _ =>
      triple_pure fun _ h => h
  suffices hrun : Calm (· = vm') (x.run fuel) from hrun vm' rfl
  cases hx with
  | voteAndLeave hgoes hcur | leave hgoes hcur => exact hleave _ hgoes hcur
  | voteAndNotarize | notarize => exact calm_of_never (pendingThen_never fuel _)
  | _ => exact calm_of_never never_pure

theorem handleNullification_calm (h₀ : s₀.WF A) {n : Nullification P}
    (hids : ∀ i ∈ n.peerIds, cfg.peers.contains i = true)
    (ha : A.admits s₁.signed (.nullification n)) :
    Calm (fun vm => At A s₀ (s₁.withManager vm)) (handleNullification n) := by
  intro vm₀ hat
  have hroute : Spec (fun vm => At A s₀ (s₁.withManager vm))
      (onChain (routeNullification n cfg.peers))
      (fun _ vm => At A s₀ (s₁.withManager vm)) (fun _ => True) fun _ => True :=
    spec_onChain fun vm hat => (routeNullification_spec ha vm.viewChain rfl).conseq
      (fun _ ch h => hat.chainSteps h.1) (fun _ _ => trivial) fun _ _ => trivial
  have hcalm := (calm_of_never (onChain_never
    (ViewChain.routeNullification_never hids))).with_spec hroute fun _ h => h
  refine handleNullification_rule ⟨fun _ => trivial, trivial⟩ (hat.wf h₀).peers (hcalm vm₀ hat)
    fun broadcast vm hvm x hx => ?_
  cases hx with
  | skip =>
    exact triple_bind (openView_calm ⟨_, fun _ _ => rfl⟩) (fun _ => triple_pure fun _ h => h) vm
      ⟨(hvm.1.wf h₀).chain.current_lt, (hvm.1.wf h₀).chain.current⟩
  | _ => trivial

theorem tick_calm (h₀ : s₀.WF A) (env : Env P) (now : Nat) :
    Calm (fun vm => At A s₀ (s₁.withManager vm)) (tick env now) := by
  intro vm hat
  refine tick_rule (fun _ hnone => ?_) fun _ _ _ _ _ _ => trivial
  obtain ⟨c, hc⟩ := (hat.wf h₀).chain.current
  cases hnone.symm.trans hc

end ViewProgressManager

namespace Replica

variable {Pre : Replica P → Prop}

open ViewProgressManager

/-- A panic stops the process only where the view number has no successor. -/
def StopsLast (k : Abort) (s : Replica P) : Prop := k = .panic → s.currentView + 1 = u64Size

variable {α : Type}

/-- From `Pre` the operation panics at most in the last view. -/
abbrev Calm (Pre : Replica P → Prop) (op : Op P α) : Prop :=
  Act.Triple Pre op (fun _ _ => True) (fun _ => True) StopsLast

theorem calm_of_never {op : Op P α} (h : Never .panic op) : Calm Pre op :=
  h.conseq (fun _ _ => trivial) (fun _ _ h => h) (fun _ h => h) fun _ _ hne heq => absurd heq hne

variable {op : ViewProgressManager.Op P α}

theorem onManager_never {k : Abort} (h : Never k op) : Never k (onManager op) :=
  triple_zoom fun s _ => h s.viewManager trivial

/-- An operation of the manager, as an operation of the state machine. -/
theorem calm_onManager
    (h : ∀ s, Pre s → ViewProgressManager.Calm (· = s.viewManager) op) : Calm Pre (onManager op) :=
  triple_zoom fun s hs => h s hs s.viewManager rfl

/-! ## Sending and signing -/

theorem broadcast_never (env : Env P) (m : ConsensusMessage P) :
    Never .panic (broadcastConsensusMessage env m) :=
  fun s _ => EndsBy.conseq (broadcast_ends env m s) (fun _ _ _ => trivial)
    (fun _ _ => trivial) fun _ _ h => h.elim

theorem requireContext_never (v : Nat) : Never .panic (requireContext (P := P) v) := by
  intro vm _
  unfold requireContext
  split <;> trivial

theorem getMNotarization_never (v : Nat) : Never .panic (getMNotarization (P := P) v) := by
  refine never_bind (requireContext_never v) fun c => ?_
  split
  · exact never_pure
  · exact never_throw

theorem createAndBroadcastMNotarization_never (env : Env P) (v : Nat) (forward : Bool) :
    Never .panic (createAndBroadcastMNotarization env v forward) :=
  triple_ite (fun _ => never_bind (onManager_never (getMNotarization_never v)) fun _ =>
    broadcast_never env _) fun _ => never_pure

theorem broadcastNullification_never (env : Env P) (v : Nat) :
    Never .panic (broadcastNullification env v) := by
  refine never_bind (onManager_never ?_) fun _ => broadcast_never env _
  refine never_bind (requireContext_never v) fun c => ?_
  split
  · exact never_pure
  · exact never_throw

theorem forwardNullification_never (env : Env P) (broadcast : Bool) (v : Nat) :
    Never .panic (forwardNullification env broadcast v) :=
  triple_ite (fun _ => broadcastNullification_never env v) fun _ => never_pure

theorem addOwnVote_never (v : Nat) (h : Hash P) (signature : BlsSignature P) :
    Never .panic (onManager (ViewProgressManager.addOwnVote v h signature)) := by
  refine onManager_never (never_bind (requireContext_never v) fun c => ?_)
  refine onChain_never fun s _ => ViewChain.runOn_rule ?_
  unfold ViewContext.addOwnVote
  repeat' split
  all_goals trivial

theorem voteForBlock_never (env : Env P) (v : Nat) (h : Hash P) :
    Never .panic (voteForBlock env v h) := by
  refine never_bind (onManager_never (requireContext_never v)) fun c => ?_
  refine never_bind (fun _ _ => trivial) fun signature => ?_
  refine never_bind never_modify fun _ => ?_
  refine never_bind never_modify fun _ => ?_
  refine never_get_bind fun s => ?_
  exact never_bind (broadcast_never env _) fun _ => addOwnVote_never v h signature

theorem nullifyView_never (env : Env P) (v : Nat) (force : Bool) :
    Never .panic (nullifyView env v force) := by
  refine never_bind (onManager_never (requireContext_never v)) fun c => ?_
  by_cases hn : c.hasNullified = true
  · rw [if_pos hn]
    exact never_pure
  rw [if_neg hn]
  refine never_get_bind fun s => ?_
  rcases nullifyOperation_cases force s.secretKey (by simpa using hn) with
    ⟨hnone, -⟩ | ⟨op, hsome, -, hop⟩
  · rw [hnone]
    exact never_pure
  rw [hsome]
  refine never_bind never_modify fun _ => ?_
  refine never_bind (onManager_never (onChain_never fun chain _ => ?_)) fun _ => ?_
  · unfold ViewChain.runOn
    rw [hop]
    trivial
  refine never_bind (broadcast_never env _) fun _ => onManager_never fun vm _ => ?_
  unfold markNullified
  split <;> trivial

theorem nullifyCurrentAndRollback_never (env : Env P) (startView : Nat) :
    Never .panic (nullifyCurrentAndRollback env startView) :=
  never_get_bind fun _ => never_bind (never_attempt (nullifyView_never env _ true))
    fun _ => never_bind never_modify fun _ => never_pure

/-! ## Where the state matters -/

variable {cfg : Config P} {A : Admission cfg} {s₀ : Replica P}

theorem finalizeView_calm (hself : cfg.peers.contains cfg.replicaId = true) (h₀ : s₀.WF A)
    (v : Nat) : Calm (At A s₀) (finalizeView v) := by
  refine triple_get_bind fun s hs => ?_
  refine triple_ite (fun _ => triple_pure fun _ _ => trivial) fun _ => ?_
  refine triple_bind (Q := fun _ => At A s₀) (triple_zoom ?_) fun _ => ?_
  · rintro s' ⟨-, hat⟩
    refine EndsBy.conseq (getBlockTxHashes_ends v s'.viewManager) ?_ ?_ ?_
    · rintro _ vm ⟨rfl, -⟩
      exact hat
    · exact fun _ _ => trivial
    · exact fun _ _ h => h.elim
  refine triple_bind (Q := fun _ _ => True) ?_ fun _ => triple_modify fun _ _ => trivial
  refine calm_onManager fun s' hat => ?_
  have hwf : (s'.withManager s'.viewManager).WF A := hat.wf h₀
  exact ViewProgressManager.finalizeView_calm hself hwf v

theorem markProposed_calm (h₀ : s₀.WF A) (v : Nat) :
    Calm (At A s₀) (onManager (markProposed v)) := by
  refine calm_onManager fun s hat => ?_
  rintro _ rfl
  unfold markProposed
  split
  case isFalse => trivial
  case isTrue heq =>
    obtain ⟨c, hc⟩ := (hat.wf h₀).chain.current
    have hc : s.viewManager.viewChain.findViewContext v = some c := heq ▸ hc
    rw [hc]
    trivial

theorem cascade_calm (h₀ : s₀.WF A) (startView : Nat) (broadcast : Bool) :
    Calm (At A s₀) (eventPrefix cfg.env (.shouldCascadeNullification startView broadcast)) := by
  refine triple_bind (Q := fun _ => At A s₀) ?_ fun _ => ?_
  · have hspec : Spec (At A s₀) (Act.attempt (forwardNullification cfg.env broadcast startView))
        (fun _ => At A s₀) (At A s₀) (At A s₀) :=
      (spec_attempt_same (forwardNullification_spec (K := fun _ => True))).weaken
        (fun _ hs => ⟨hs, trivial⟩) fun _ _ h => h.1
    exact ((calm_of_never (never_attempt (forwardNullification_never cfg.env broadcast
      startView))).with_spec hspec fun _ h => h).weaken (fun _ h => h) fun _ _ h => h.1
  refine triple_bind (Q := fun _ => At A s₀) ?_ fun currentView => ?_
  · exact ((calm_of_never (nullifyCurrentAndRollback_never cfg.env startView)).with_spec
      nullifyCurrentAndRollback_spec fun _ h => h).weaken (fun _ h => h) fun _ _ h => h.1.1
  refine triple_bind (Q := fun _ => At A s₀) (triple_modify fun s hat =>
    hat.step (.cascade startView)) fun _ => ?_
  refine triple_bind (Q := fun _ _ => True) (calm_onManager fun s hat => ?_) fun _ =>
    triple_pure fun _ _ => trivial
  refine triple_get_bind fun vm hvm => ?_
  refine triple_bind ((openView_calm ⟨_, fun _ _ => rfl⟩).weaken (fun vm' hvm' => ?_)
    fun _ _ h => h) fun _ => triple_pure fun _ _ => trivial
  obtain ⟨-, rfl⟩ := hvm'
  exact ⟨(hat.wf h₀).chain.current_lt, (hat.wf h₀).chain.current⟩

theorem sending_never (env : Env P) (x : Sending P) : Never .panic (x.run env) := by
  cases x with
  | nothing => exact never_pure
  | message m => exact broadcast_never env m
  | requests rs =>
    refine triple_forM fun r _ => ?_
    exact never_bind (never_attempt (broadcast_never env _)) fun _ => never_pure
  | mNotarization v forward => exact createAndBroadcastMNotarization_never env v forward
  | nullification v broadcast => exact forwardNullification_never env broadcast v

/-- What an event does before it recurses. -/
theorem eventPrefix_calm (hself : cfg.peers.contains cfg.replicaId = true) (h₀ : s₀.WF A)
    (event : ViewProgressEvent P) :
    Calm (Promised A s₀ event) (eventPrefix cfg.env event) := by
  rw [eventPrefix_eq]
  refine triple_bind (Q := fun _ s => (∃ v, eventPart event = .nullify v) ∨ At A s₀ s) ?_ fun _ => ?_
  · cases hvote : eventVote event with
    | none => exact triple_pure fun _ hp => hp.nullifies_or_at
    | some vote =>
      refine ((calm_of_never (voteForBlock_never cfg.env vote.1 vote.2)).with_spec vote_settled
        fun _ h => h).weaken (fun s hp => ⟨?_, hp.voteDue hvote⟩) fun _ _ h => Or.inr h.1
      refine hp.nullifies_or_at.resolve_left ?_
      rintro ⟨v, hv⟩
      cases event <;> first
        | (cases hvote; done)
        | cases hv
  cases eventPart event with
  | send x rest => exact calm_of_never (never_bind (sending_never cfg.env x) fun _ => never_pure)
  | finalize v =>
    refine triple_bind ((finalizeView_calm hself h₀ v).weaken (fun _ hs => hs.resolve_left ?_)
      fun _ _ h => h) fun _ => triple_pure fun _ h => h
    exact fun ⟨_, h⟩ => nomatch h
  | nullify v =>
    exact calm_of_never (never_bind (nullifyView_never cfg.env v false) fun _ => never_pure)
  | nullifyRange v =>
    exact calm_of_never (never_bind (nullifyCurrentAndRollback_never cfg.env v) fun _ => never_pure)
  | cascade v broadcast =>
    refine (cascade_calm h₀ v broadcast).weaken (fun _ hs => hs.resolve_left ?_) fun _ _ h => h
    exact fun ⟨_, h⟩ => nomatch h

/-- The leader's own proposal is a harmless message. -/
theorem sendOwnProposal_calm {fuel : Nat} {block : Block P}
    (h : HarmlessTransactions block.transactions) : Calm Pre (sendOwnProposal cfg.env fuel block) :=
  calm_of_never (never_get_bind fun _ => never_bind never_modify fun _ =>
    never_bind (broadcast_never cfg.env _) fun _ => never_bind never_modify fun _ =>
      onManager_never (handleBlockProposal_never h fuel))

theorem handleOwnProposal_calm (hself : cfg.peers.contains cfg.replicaId = true) (h₀ : s₀.WF A)
    {event : ViewProgressEvent P} (hevent : AsksVote event) (signature : BlsSignature P)
    (handleEvent : ViewProgressEvent P → Op P Unit) :
    Calm (fun s => Promised A s₀ event s ∧ OwnLogged cfg signature event s)
      (handleOwnProposal cfg.env handleEvent signature event) := by
  cases event with
  | shouldVote v h => exact calm_of_never (addOwnVote_never v h signature)
  | shouldVoteAndMNotarize v h forward =>
    exact calm_of_never (never_bind (addOwnVote_never v h signature) fun _ =>
      createAndBroadcastMNotarization_never cfg.env v forward)
  | shouldVoteAndFinalize v h =>
    refine triple_bind (Q := fun _ => At A s₀) ?_ fun _ => finalizeView_calm hself h₀ v
    refine ((calm_of_never (addOwnVote_never v h signature)).with_spec
      (addOwnVote_spec (K := fun _ => True)) ?_).weaken (fun _ h => h) fun _ _ h => h.1.1
    rintro s ⟨⟨hat, hdue⟩, v', h', ⟨rfl, rfl⟩, -, hlog⟩
    exact ⟨hat, hdue, hlog, trivial⟩
  | _ => exact hevent.elim

/-! ## The whole machine -/

/-- Every message that is processed is harmless: it was admitted, or it is a
certificate of known signers. -/
theorem process_calm (hself : cfg.peers.contains cfg.replicaId = true)
    {henv : cfg.env.HarmlessTransactions} (h₀ : s₀.WF (harmlessAdmission cfg henv)) {fuel : Nat}
    {m : ConsensusMessage P} :
    Calm (fun s => At (harmlessAdmission cfg henv) s₀ s ∧ s.Known (harmlessAdmission cfg henv) m ∧
        ∀ v c, s.context v = some c → KnownSigners cfg.peers c)
      (onManager (processConsensusMsg fuel m)) := by
  refine calm_onManager ?_
  rintro s ⟨hat, hknown, hsigners⟩
  have hharmless : m.Harmless cfg.peers := by
    rcases hknown with ha | ⟨v, c, n, hc, hn, rfl⟩
    · exact ha
    · exact (hsigners v c hc).certificate n hn
  have hat' : At (harmlessAdmission cfg henv) s₀ (s.withManager s.viewManager) := hat
  cases m with
  | blockProposal block =>
    exact ViewProgressManager.calm_of_never (handleBlockProposal_never hharmless fuel)
  | vote vote => exact ViewProgressManager.calm_of_never (handleVote_never fuel vote)
  | nullify nullify => exact ViewProgressManager.calm_of_never (handleNullify_never nullify)
  | mNotarization m =>
    exact handleMNotarization_calm hself h₀ hharmless hat' fun _ _ _ => hharmless
  | nullification n =>
    rintro _ rfl
    exact handleNullification_calm h₀ hharmless hharmless s.viewManager hat'
  | blockRecoveryRequest view blockHash =>
    exact fun _ _ => handleBlockRecoveryRequest_rule (fun hle => absurd hle (Nat.not_le.mpr hharmless))
      (fun _ => trivial) trivial
  | blockRecoveryResponse view block =>
    have hadd : ViewProgressManager.Calm (fun _ => True)
        (ViewProgressManager.onChain (addRecoveredBlock view block)) :=
      ViewProgressManager.calm_of_never (onChain_never (ViewChain.addRecoveredBlock_never view block))
    exact fun vm _ => handleBlockRecoveryResponse_rule (M := fun _ => True) (hadd vm trivial)
      fun _ _ _ => ⟨trivial, fun _ _ => trivial⟩

/-- No part of the event loop panics before the last view. -/
theorem calm_plan (hself : cfg.peers.contains cfg.replicaId = true)
    (henv : cfg.env.HarmlessTransactions) :
    Plan (ι := Unit) (harmlessAdmission cfg henv)
      (fun s => ∀ v c, s.context v = some c → KnownSigners cfg.peers c) (fun _ _ => True)
      (fun _ _ _ => True) (fun _ _ _ => True) StopsLast where
  ask _ := trivial
  buffer _ _ _ _ _ _ := trivial
  exhausted _ h := nomatch h
  process {_ s₀} h₀ fuel m := by
    refine (process_calm hself h₀.wf).weaken ?_ fun _ _ h => h
    rintro _ ⟨s, rfl, hat, -, hknown⟩
    have hnoted := hat.step (.note (.processed m s.chain))
    exact ⟨hnoted, hknown, h₀.inv hnoted.steps⟩
  tick {_ s₀} h₀ now := by
    refine calm_onManager fun s hs => ?_
    have hat : At (harmlessAdmission cfg henv) s₀ (s.withManager s.viewManager) := hs.1
    rintro _ rfl
    exact tick_calm h₀.wf cfg.env now s.viewManager hat
  event h₀ event := (eventPrefix_calm hself h₀.wf event).weaken (fun _ hs => hs.1) fun _ _ h => h
  rest _ _ _ := trivial
  finalize h₀ v _ _ _ := (finalizeView_calm hself h₀.wf v).weaken (fun _ hs => hs.1) fun _ _ h => h
  replay _ := ⟨fun _ => (), ⟨fun h => h, fun _ h => h, fun h => h⟩, trivial⟩
  own _ _ _ _ now := sendOwnProposal_calm (henv now)
  ownVote h₀ event signature handleEvent hevent :=
    (handleOwnProposal_calm hself h₀.wf hevent signature handleEvent).weaken
      (fun _ hs => ⟨hs.1, hs.2.2⟩) fun _ _ h => h
  proposed h₀ v := (markProposed_calm h₀.wf v).weaken (fun _ hs => hs.1) fun _ _ h => h

/-- The certificate of the first block, then the block. -/
def certificateFirst : List (Input sampleParams) :=
  [.message (.mNotarization (certificateOf 1 firstBlock.getHash))]

/-- Does the outcome end the process by a panic? -/
def Outcome.isPanic {ε α : Type} : Outcome ε α → Bool
  | .panic => true
  | _ => false

theorem Outcome.eq_panic {ε α : Type} {o : Outcome ε α} (h : Outcome.isPanic o = true) :
    o = .panic := by
  cases o with
  | panic => rfl
  | _ => cases h

/-- A certificate that names a signer outside the peer set. -/
def strangersCertificate : MNotarization sampleParams :=
  { certificateOf 1 firstBlock.getHash with peerIds := [1, 2, 77], length_peerIds := rfl }

/-- The same for a nullification. -/
def strangersNullification : Nullification sampleParams :=
  { view := 1, leaderId := 1, aggregatedSignature := (nullifyOf 2 1).signature
    peerIds := [1, 2, 77], length_peerIds := rfl }

end Replica

end Minimmit
