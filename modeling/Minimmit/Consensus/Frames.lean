/-
Minimmit.Consensus.Frames — what an operation leaves alone.

Most operations of a replica change contexts, pending diffs and bookkeeping.
An observation that does not see these (`Blind`) is left alone by all of
them; the operations that open a view, finalize, notify or move the message
buffer are the only ones that need a closer look. There is one notion for
each layer, the chain, the manager and the replica, and each hands its
lemmas to the next.
-/
import Minimmit.Consensus.ChainFunctions
import Minimmit.Consensus.EventLoop

namespace Minimmit

open Minimmit.Library Act ViewChain ViewProgressManager Replica

variable {P : Params} {γ : Type}

/-! ## The chain -/

namespace ViewChain

/-- The observation does not see contexts and pending diffs. -/
structure Blind (obs : ViewChain P → γ) : Prop where
  setContext : ∀ s v c, obs (s.setContext v c) = obs s
  publishDiff : ∀ s v c d, obs (s.publishDiff v c d) = obs s
  removePendingDiff : ∀ s v, obs (s.removePendingDiff v) = obs s

namespace Blind

variable {obs : ViewChain P → γ}

theorem runOn (h : Blind obs) {α : Type} (v : Nat) (c : ViewContext P) (op : ViewContext.Op P α) :
    Preserves obs (runOn v c op) := fun s => h.setContext s v _

theorem routeVote (h : Blind obs) (vote : Vote P) (peers : PeerSet P) :
    Preserves obs (routeVote vote peers) := by
  intro s
  refine (ends_iff_state (X := fun s' => obs s' = obs s)).mp ?_
  exact routeVote_rule rfl rfl fun c hc _ => ends_iff_state.mpr (h.setContext s _ _)

theorem routeNullify (h : Blind obs) (nullify : Nullify P) (peers : PeerSet P) :
    Preserves obs (routeNullify nullify peers) := by
  intro s
  refine (ends_iff_state (X := fun s' => obs s' = obs s)).mp ?_
  exact routeNullify_rule rfl rfl fun c hc => ends_iff_state.mpr (h.setContext s _ _)

theorem routeMNotarization (h : Blind obs) (m : MNotarization P) (peers : PeerSet P) :
    Preserves obs (routeMNotarization m peers) := by
  intro s
  refine (ends_iff_state (X := fun s' => obs s' = obs s)).mp ?_
  exact routeMNotarization_rule rfl (fun _ => rfl) fun c hc =>
    ends_iff_state.mpr (h.setContext s _ _)

theorem routeNullification (h : Blind obs) (n : Nullification P) (peers : PeerSet P) :
    Preserves obs (routeNullification n peers) := by
  intro s
  refine (ends_iff_state (X := fun s' => obs s' = obs s)).mp ?_
  exact routeNullification_rule rfl fun c hc => ends_iff_state.mpr (h.setContext s _ _)

theorem addRecoveredBlock (h : Blind obs) (view : Nat) (block : Block P) :
    Preserves obs (addRecoveredBlock view block) := by
  intro s
  refine (ends_iff_state (X := fun s' => obs s' = obs s)).mp ?_
  exact addRecoveredBlock_rule rfl rfl fun c hc _ _ => h.setContext s _ _

theorem onMNotarization (h : Blind obs) (s : ViewChain P) (v : Nat) :
    obs (s.onMNotarization v) = obs s := by
  unfold ViewChain.onMNotarization
  split
  · split
    · exact h.publishDiff s _ _ _
    · rfl
  · rfl

theorem addBlockProposal (h : Blind obs) (view : Nat) (block : Block P) (d : StateDiff P)
    (peers : PeerSet P) : Preserves obs (addBlockProposal view block d peers) :=
  fun s => by
  refine (ends_iff_state (X := fun s' => obs s' = obs s)).mp ?_
  exact addBlockProposal_rule rfl (fun c hc _ _ _ => h.setContext s _ _) fun c hc _ _ _ =>
    ends_iff_state.mpr ((h.onMNotarization _ _).trans (h.setContext s _ _))

/-- The loop over the waiting blocks keeps the observation as it is. -/
theorem loopRule (h : Blind obs) (peers : PeerSet P) (x : γ) :
    LoopRule peers (fun s => obs s = x) fun _ _ _ => True where
  take _ hs := (h.setContext _ _ _).trans hs
  taken _ _ _ := trivial
  takeFits _ _ := trivial
  propose hs _ := (h.addBlockProposal _ _ _ _ _).trans hs
  proposeFits _ := trivial

theorem rollback (h : Blind obs) (s : ViewChain P) (startView endView : Nat) :
    obs (s.rollbackPendingDiffsInRange startView endView) = obs s := by
  unfold rollbackPendingDiffsInRange
  generalize viewRange startView endView = views
  induction views generalizing s with
  | nil => rfl
  | cons v views ih => rw [List.foldl_cons, ih, h.removePendingDiff]

end Blind

end ViewChain

/-! ## The manager -/

namespace ViewProgressManager

/-- The observation does not see what the chain's operations do, validated
blocks and the bookkeeping of block recovery. -/
structure Blind (obs : ViewProgressManager P → γ) : Prop where
  chain : ∀ vm : ViewProgressManager P,
    ViewChain.Blind fun chain => obs { vm with viewChain := chain }
  validated : ∀ (vm : ViewProgressManager P) l, obs { vm with validated := l } = obs vm
  cooldowns : ∀ (vm : ViewProgressManager P) l, obs { vm with blockRecoveryCooldowns := l } = obs vm
  recovery : ∀ (vm : ViewProgressManager P) l, obs { vm with canonicalRecoveryPending := l } = obs vm

/-- A lookup changes nothing. -/
theorem preserves_requireContext (obs : ViewProgressManager P → γ) (v : Nat) :
    Preserves obs (requireContext v) := fun vm => by
  unfold requireContext
  split <;> rfl

theorem preserves_getMNotarization (obs : ViewProgressManager P → γ) (v : Nat) :
    Preserves obs (getMNotarization v) :=
  preserves_bind (preserves_requireContext obs v) fun c => by
    cases c.mNotarization with
    | some m => exact preserves_pure m
    | none => exact fun _ => rfl

theorem preserves_getNullification (obs : ViewProgressManager P → γ) (v : Nat) :
    Preserves obs (getNullification v) :=
  preserves_bind (preserves_requireContext obs v) fun c => by
    cases c.nullification with
    | some n => exact preserves_pure n
    | none => exact fun _ => rfl

theorem preserves_getBlockTxHashes (obs : ViewProgressManager P → γ) (v : Nat) :
    Preserves obs (getBlockTxHashes v) :=
  preserves_bind (preserves_requireContext obs v) fun c => by
    cases c.block with
    | some block => exact preserves_pure _
    | none => exact fun _ => rfl

namespace Blind

variable {obs : ViewProgressManager P → γ}

theorem onChain {α : Type} {op : ViewChain.Op P α}
    (h : ∀ vm : ViewProgressManager P, Preserves (fun chain => obs { vm with viewChain := chain }) op) :
    Preserves obs (onChain op) := fun vm => h vm vm.viewChain

theorem addOwnVote (h : Blind obs) (v : Nat) (blockHash : Hash P) (signature : BlsSignature P) :
    Preserves obs (addOwnVote v blockHash signature) :=
  preserves_bind (preserves_requireContext obs v) fun _ =>
    onChain fun vm => (h.chain vm).runOn _ _ _

theorem markProposed (h : Blind obs) (v : Nat) : Preserves obs (markProposed v) := fun vm => by
  unfold ViewProgressManager.markProposed
  split
  · split
    · rfl
    · exact (h.chain vm).setContext vm.viewChain _ _
  · rfl

theorem markNullified (h : Blind obs) (v : Nat) : Preserves obs (markNullified v) := fun vm => by
  unfold ViewProgressManager.markNullified
  split
  · rfl
  · exact ((h.chain vm).removePendingDiff _ v).trans ((h.chain vm).setContext vm.viewChain _ _)

theorem processAllPendingBlocks (h : Blind obs) (fuel : Nat) :
    Preserves obs (processAllPendingBlocks fuel) := fun vm => by
  obtain ⟨chain, heq, hobs⟩ := ((h.chain vm).loopRule vm.peers (obs vm)).processAllPendingBlocks
    fuel rfl vm ⟨_, rfl, rfl⟩
  rw [heq]
  exact hobs

theorem proposalEvent (h : Blind obs) (fuel view : Nat) (r : LeaderProposalResult P) :
    Preserves obs (ViewProgressManager.proposalEvent fuel view r) := by
  unfold ViewProgressManager.proposalEvent
  have hpending : Preserves obs (ViewProgressManager.processAllPendingBlocks fuel >>= fun _ =>
      pure (ViewProgressEvent.shouldVoteAndMNotarize view r.blockHash true)) :=
    preserves_bind (h.processAllPendingBlocks fuel) fun _ => preserves_pure _
  repeat' apply preserves_ite
  all_goals first | exact preserves_pure _ | exact hpending

theorem handleBlockProposal (h : Blind obs) (fuel : Nat) (block : Block P) :
    Preserves obs (handleBlockProposal fuel block) := by
  refine preserves_get_bind fun vm => preserves_ite
    (preserves_ite (fun _ => rfl) (preserves_pure _)) ?_
  split
  · exact fun _ => rfl
  · exact fun _ => rfl
  · exact preserves_pure _
  · refine preserves_bind (preserves_modify fun vm => h.validated vm _) fun _ => ?_
    exact preserves_bind (onChain fun vm => (h.chain vm).addBlockProposal _ _ _ _) fun r =>
      h.proposalEvent fuel _ r

theorem handleVote (h : Blind obs) (fuel : Nat) (vote : Vote P) :
    Preserves obs (ViewProgressManager.handleVote fuel vote) := by
  refine preserves_get_bind fun vm => preserves_ite (preserves_pure _) ?_
  refine preserves_bind (onChain fun vm => (h.chain vm).routeVote _ _) fun r => ?_
  have hpending : ∀ event : ViewProgressEvent P,
      Preserves obs (ViewProgressManager.processAllPendingBlocks fuel >>= fun _ => pure event) :=
    fun _ => preserves_bind (h.processAllPendingBlocks fuel) fun _ => preserves_pure _
  repeat' apply preserves_ite
  all_goals first | exact preserves_pure _ | exact hpending _

theorem handleNullify (h : Blind obs) (nullify : Nullify P) :
    Preserves obs (handleNullify nullify) := by
  refine preserves_get_bind fun vm => preserves_ite
    (preserves_ite (fun _ => rfl) (preserves_pure _)) ?_
  refine preserves_bind (onChain fun vm => (h.chain vm).routeNullify _ _) fun has => ?_
  refine preserves_ite (preserves_get_bind fun _ => ?_) (preserves_pure _)
  exact preserves_ite (preserves_pure _) (preserves_pure _)

theorem preserves_isResponder (view : Nat) (offsets : List Nat) :
    Preserves obs (isResponder view offsets) := by
  induction offsets with
  | nil => exact preserves_pure _
  | cons i offsets ih =>
    exact preserves_get_bind fun _ => preserves_ite (fun _ => rfl)
      (preserves_ite (preserves_pure _) ih)

theorem handleBlockRecoveryRequest (view : Nat) (blockHash : Hash P) :
    Preserves obs (handleBlockRecoveryRequest view blockHash) := by
  refine preserves_bind (preserves_isResponder view _) fun _ =>
    preserves_ite (preserves_get_bind fun _ => ?_) (preserves_pure _)
  split <;> exact preserves_pure _

theorem handleBlockRecoveryResponse (h : Blind obs) (view : Nat) (block : Block P) :
    Preserves obs (handleBlockRecoveryResponse view block) := by
  refine preserves_bind (preserves_attempt
    (onChain fun vm => (h.chain vm).addRecoveredBlock _ _)) fun result => ?_
  refine preserves_bind (preserves_modify fun vm => h.cooldowns vm _) fun _ => ?_
  refine preserves_get_bind fun vm => ?_
  split
  · exact preserves_pure _
  · split
    · exact preserves_pure _
    · exact fun _ => rfl
  · split <;> exact preserves_pure _

theorem tick (h : Blind obs) (env : Env P) (now : Nat) : Preserves obs (tick env now) := by
  refine preserves_bind (preserves_modify fun vm => h.recovery vm _) fun _ => ?_
  refine preserves_bind (fun vm => ?_) fun c => preserves_get_bind fun vm => ?_
  · unfold current
    split <;> rfl
  split
  · exact preserves_pure _
  split
  · exact preserves_pure _
  · refine preserves_bind (fun vm => h.cooldowns vm _) fun requests => ?_
    split
    · exact preserves_pure _
    · exact preserves_ite (preserves_pure _) (preserves_pure _)
    · exact preserves_pure _

end Blind

end ViewProgressManager

/-! ## The replica -/

/-- The event asks for a finalization. -/
def ViewProgressEvent.Finalizes : ViewProgressEvent P → Prop
  | .shouldFinalize _ _ | .shouldVoteAndFinalize _ _ => True
  | _ => False

namespace Replica

theorem finalizes_of_part {event : ViewProgressEvent P} {v : Nat}
    (h : eventPart event = .finalize v) : event.Finalizes := by
  cases event with
  | shouldFinalize | shouldVoteAndFinalize => trivial
  | _ => cases h

/-- The observation does not see the manager's operations, what is sent and
signed, and the history. -/
structure Blind (obs : Replica P → γ) : Prop where
  manager : ∀ s : Replica P, ViewProgressManager.Blind fun vm => obs { s with viewManager := vm }
  bookkeeping : ∀ (s : Replica P) clock outbox signed cascades history,
    obs { s with clock, outbox, signed, cascades, history } = obs s

/-- A lookup of the manager changes nothing. -/
theorem preserves_onManager {α : Type} {obs : Replica P → γ} {op : ViewProgressManager.Op P α}
    (h : ∀ s : Replica P, Preserves (fun vm => obs { s with viewManager := vm }) op) :
    Preserves obs (onManager op) := fun s => h s s.viewManager

/-- The observation does not see what is sent. -/
def Mute (obs : Replica P → γ) : Prop :=
  ∀ (s : Replica P) clock outbox, obs { s with clock, outbox } = obs s

namespace Mute

variable {obs : Replica P → γ}

theorem broadcast (h : Mute obs) (env : Env P) (m : ConsensusMessage P) :
    Preserves obs (broadcastConsensusMessage env m) :=
  preserves_bind (fun s => h s _ s.outbox) fun _ =>
    preserves_ite (preserves_modify fun s => h s s.clock _) fun _ => rfl

theorem createAndBroadcastMNotarization (h : Mute obs) (env : Env P) (v : Nat) (forward : Bool) :
    Preserves obs (createAndBroadcastMNotarization env v forward) :=
  preserves_ite
    (preserves_bind
      (preserves_onManager fun _ => ViewProgressManager.preserves_getMNotarization _ v)
      fun _ => h.broadcast env _)
    (preserves_pure _)

theorem broadcastNullification (h : Mute obs) (env : Env P) (v : Nat) :
    Preserves obs (broadcastNullification env v) :=
  preserves_bind (preserves_onManager fun _ => ViewProgressManager.preserves_getNullification _ v)
    fun _ => h.broadcast env _

theorem forwardNullification (h : Mute obs) (env : Env P) (broadcast : Bool) (v : Nat) :
    Preserves obs (forwardNullification env broadcast v) :=
  preserves_ite (h.broadcastNullification env v) (preserves_pure _)

/-- Whatever an event sends. -/
theorem sending (h : Mute obs) (env : Env P) (x : Sending P) : Preserves obs (x.run env) := by
  cases x with
  | nothing => exact preserves_pure _
  | message m => exact h.broadcast env m
  | requests rs =>
    refine preserves_forM fun r => ?_
    exact preserves_bind (preserves_attempt (h.broadcast env _)) fun _ => preserves_pure _
  | mNotarization v forward => exact h.createAndBroadcastMNotarization env v forward
  | nullification v broadcast => exact h.forwardNullification env broadcast v

end Mute

namespace Blind

variable {obs : Replica P → γ}

variable (h : Blind obs)

include h

theorem mute : Mute obs := fun s clock outbox =>
  h.bookkeeping s clock outbox s.signed s.cascades s.history

theorem broadcast (env : Env P) (m : ConsensusMessage P) :
    Preserves obs (broadcastConsensusMessage env m) := h.mute.broadcast env m

theorem recordCascade (v : Nat) : Preserves obs (recordCascade v) :=
  preserves_modify fun s => h.bookkeeping s s.clock s.outbox s.signed _ s.history

theorem record (entry : Signed P) : Preserves obs (record entry) :=
  preserves_modify fun s => h.bookkeeping s s.clock s.outbox _ s.cascades s.history

theorem createAndBroadcastMNotarization (env : Env P) (v : Nat) (forward : Bool) :
    Preserves obs (createAndBroadcastMNotarization env v forward) :=
  h.mute.createAndBroadcastMNotarization env v forward

theorem forwardNullification (env : Env P) (broadcast : Bool) (v : Nat) :
    Preserves obs (forwardNullification env broadcast v) :=
  h.mute.forwardNullification env broadcast v

theorem addOwnVote (v : Nat) (blockHash : Hash P) (signature : BlsSignature P) :
    Preserves obs (onManager (ViewProgressManager.addOwnVote v blockHash signature)) :=
  preserves_onManager fun s => (h.manager s).addOwnVote _ _ _

theorem voteForBlock (env : Env P) (v : Nat) (blockHash : Hash P) :
    Preserves obs (voteForBlock env v blockHash) := by
  refine preserves_bind
    (preserves_onManager fun _ => ViewProgressManager.preserves_requireContext _ v) fun c => ?_
  refine preserves_bind (fun _ => rfl) fun signature => ?_
  refine preserves_bind (h.record _) fun _ => ?_
  refine preserves_bind (preserves_modify fun s =>
    h.bookkeeping s s.clock s.outbox s.signed s.cascades _) fun _ => ?_
  exact preserves_get_bind fun s => preserves_bind (h.broadcast env _) fun _ =>
    h.addOwnVote v blockHash signature

theorem nullifyView (env : Env P) (v : Nat) (force : Bool) :
    Preserves obs (nullifyView env v force) := by
  refine preserves_bind
    (preserves_onManager fun _ => ViewProgressManager.preserves_requireContext _ v) fun c => ?_
  refine preserves_ite (preserves_pure _) (preserves_get_bind fun s => ?_)
  cases nullifyOperation force s.secretKey c with
  | none => exact preserves_pure _
  | some op =>
    refine preserves_bind (h.record _) fun _ => ?_
    refine preserves_bind (preserves_onManager fun s =>
      Blind.onChain fun vm => ((h.manager s).chain vm).runOn _ _ _) fun n => ?_
    exact preserves_bind (h.broadcast env _) fun _ =>
      preserves_onManager fun s => (h.manager s).markNullified v

theorem nullifyCurrentAndRollback (env : Env P) (startView : Nat) :
    Preserves obs (nullifyCurrentAndRollback env startView) := by
  refine preserves_get_bind fun s => ?_
  refine preserves_bind (preserves_attempt (h.nullifyView env _ true)) fun _ => ?_
  refine preserves_bind (preserves_modify fun s => ?_) fun _ => preserves_pure _
  exact ((h.manager s).chain s.viewManager).rollback s.viewManager.viewChain _ _

theorem castVote (env : Env P) (vote : Option (Nat × Hash P)) :
    Preserves obs (castVote env vote) := by
  cases vote with
  | none => exact preserves_pure _
  | some vote => exact h.voteForBlock env vote.1 vote.2

/-- What an event does before it recurses, apart from finalizing and from
opening a view after a cascade. -/
theorem eventPrefix (env : Env P) (event : ViewProgressEvent P)
    (hfinalize : ∀ v, eventPart event = .finalize v → Preserves obs (finalizeView v))
    (hopen : ∀ v, Preserves obs (onManager (progressAfterCascade v))) :
    Preserves obs (eventPrefix env event) := by
  rw [eventPrefix_eq]
  refine preserves_bind (h.castVote env _) fun _ => ?_
  cases hpart : eventPart event with
  | send x rest => exact preserves_bind (h.mute.sending env x) fun _ => preserves_pure _
  | finalize v => exact preserves_bind (hfinalize v hpart) fun _ => preserves_pure _
  | nullify v => exact preserves_bind (h.nullifyView env v false) fun _ => preserves_pure _
  | nullifyRange v =>
    exact preserves_bind (h.nullifyCurrentAndRollback env v) fun _ => preserves_pure _
  | cascade v broadcast =>
    refine preserves_bind (preserves_attempt (h.forwardNullification env broadcast _)) fun _ => ?_
    refine preserves_bind (h.nullifyCurrentAndRollback env v) fun currentView => ?_
    exact preserves_bind (h.recordCascade v) fun _ =>
      preserves_bind (hopen (currentView + 1)) fun _ => preserves_pure _

end Blind

end Replica

end Minimmit
