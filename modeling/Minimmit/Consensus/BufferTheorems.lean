/-
Minimmit.Consensus.BufferTheorems — are buffered messages ever stranded?

A message for a later view is buffered under that view and replayed by
`progress_to_next_view`. Between the moment the manager has opened the next
view and the replay stands the rest of the event: a vote, the certificate
that is passed on, each of which may end the event with an error. `Reached`
says what the events that follow an opened view find; if the broadcast queue
takes what it is given and the view that was left was not finalized on the
spot, none of them ends early (`nothing_stranded`).
-/
import Minimmit.Consensus.EventRule
import Minimmit.Consensus.Frames
import Minimmit.Consensus.Sample

namespace Minimmit

open Minimmit.Library Act ViewProgressManager ViewChain List

variable {P : Params}

/-- A view with the votes, the block and no nullification, which is all that
`finalize_with_l_notarization` asks of the view itself. -/
def ViewContext.Finalizable (c : ViewContext P) : Prop :=
  c.block.isSome = true ∧ P.N - P.F ≤ c.votes.len ∧ c.isNullified = false

/-- An M-notarization for the current view finds a finalizable view only if
the view has one and the vote was cast. -/
def Moment.LeavesHeld : Moment P → Prop
  | .processed (.mNotarization m) chain => m.view = chain.currentView →
      ∀ c, chain.findViewContext m.view = some c → c.Finalizable →
        c.mNotarization.isSome = true ∧ c.hasVoted = true
  | _ => True

instance (c : ViewContext P) : Decidable c.Finalizable := inferInstanceAs (Decidable (_ ∧ _ ∧ _))

instance (e : Moment P) : Decidable e.LeavesHeld := by
  unfold Moment.LeavesHeld
  split <;> infer_instance

/-- Where the chain is when the event was returned, in a replica that was in
view `n`, and what an event that follows an opened view finds. -/
def ViewProgressEvent.Reached (n : Nat) (chain : ViewChain P) : ViewProgressEvent P → Prop
  | .shouldUpdateView v _ => chain.currentView = n ∧ n < v
  | .progressToNextView v _ _ forward => chain.currentView = v ∧
      (forward = true → ∃ c m, chain.findViewContext (v - 1) = some c ∧ c.mNotarization = some m)
  | .shouldVoteAndProgressToNextView w _ v _ _ => chain.currentView = v ∧
      ∃ c m, chain.findViewContext w = some c ∧ c.mNotarization = some m
  | .progressToNextViewOnNullification v _ _ broadcast => chain.currentView = v ∧
      (broadcast = true → ∃ c n, chain.findViewContext (v - 1) = some c ∧ c.nullification = some n)
  | _ => chain.currentView = n

/-! ## Opening and finalizing -/

namespace ViewProgressManager

variable {vm : ViewProgressManager P}

theorem openView_ends {newView : Nat} {parent : Hash P}
    {progress : ViewContext P → ViewChain.Op P Unit} {ready : ViewContext P → Bool}
    {before : ViewChain P → ViewChain P} (hprogress : Progresses progress ready before)
    (hbefore : ∀ s v, (before s).findViewContext v = s.findViewContext v)
    (vm : ViewProgressManager P) :
    Ends (openView newView parent progress vm)
      (fun _ vm' => vm'.viewChain.currentView = newView ∧
        newView = vm.viewChain.currentView + 1 ∧
        ∀ v c, v ≠ newView → vm.viewChain.findViewContext v = some c →
          vm'.viewChain.findViewContext v = some c)
      (· = vm) (fun _ => True) := by
  refine openView_rule hprogress (fun _ => trivial) rfl fun _ hnext _ _ _ => ?_
  refine ⟨rfl, hnext, fun v c hne hc => ?_⟩
  exact (findViewContext_setContext_ne _ _ hne).trans ((hbefore _ v).trans hc)

/-- The current view does not see contexts and diffs. -/
theorem currentView_blind : Blind fun vm : ViewProgressManager P => vm.viewChain.currentView where
  chain _ := ⟨fun _ _ _ => rfl, fun _ _ _ _ => rfl, fun _ _ => rfl⟩
  validated _ _ := rfl
  cooldowns _ _ := rfl
  recovery _ _ := rfl

theorem finalizeView_currentView (v : Nat) :
    Preserves (fun vm : ViewProgressManager P => vm.viewChain.currentView) (finalizeView v) :=
  preserves_bind (preserves_modify fun _ => rfl) fun _ => preserves_get_bind fun _ =>
    preserves_bind (Blind.onChain fun _ chain =>
      (finalize_prunes v _ chain).currentView) fun _ =>
        preserves_modify fun _ => rfl

/-- A view that is not finalizable stays, and so does every other. -/
theorem finalizeView_held {v : Nat} {c : ViewContext P}
    (hc : vm.viewChain.findViewContext v = some c) (h : ¬ c.Finalizable) :
    (finalizeView v vm).2.viewChain.findViewContext v = some c := by
  have hchain : (finalizeWithLNotarization v vm.peers vm.viewChain).2.findViewContext v =
      some c := by
    refine finalize_maintains (X := fun s => s.findViewContext v = some c)
      (fun _ => hc) fun _ _ hproceed => ?_
    obtain ⟨-, d, b, hd, hb, -⟩ := finalizeCheck_proceed hproceed
    obtain rfl := Option.some.inj (hc.symm.trans hd)
    exact absurd ⟨by rw [hb]; rfl, finalizeCheck_quorum (by rw [hproceed]; nofun) hc⟩ h
  unfold finalizeView
  simp only [bind_run, modify_run, get_run, onChain, Act.zoom]
  rcases hr : finalizeWithLNotarization v vm.peers vm.viewChain with ⟨o, chain⟩
  rw [hr] at hchain
  cases o <;> exact hchain

/-! ## Where a message leads -/

/-- The manager is in view `n`. -/
abbrev InView (n : Nat) (vm : ViewProgressManager P) : Prop := vm.viewChain.currentView = n

variable {n : Nat}

theorem inView_spec {α : Type} {op : Op P α}
    (h : Preserves (fun vm : ViewProgressManager P => vm.viewChain.currentView) op) :
    Spec (InView n) op (fun _ => InView n) (InView n) fun _ => True :=
  (h.spec (· = n)).conseq (fun _ h => h) (fun _ _ h => h) (fun _ h => h) fun _ _ => trivial

/-- The view that an M-notarization leaves is still held where a vote or the
certificate is still to be sent. -/
def Leaves (m : MNotarization P) (r : ShouldMNotarize) (vm : ViewProgressManager P) : Prop :=
  r.shouldForward = true ∨ r.shouldVote = true →
    ∃ c x, vm.viewChain.findViewContext m.view = some c ∧ c.mNotarization = some x ∧
      ¬ c.Finalizable

variable {m : MNotarization P}

theorem routeMNotarization_leaves {peers : PeerSet P}
    (hblock : ∀ v c b, vm.viewChain.findViewContext v = some c → c.block = some b →
      c.blockHash = some b.getHash)
    (hheld : Moment.LeavesHeld (.processed (.mNotarization m) vm.viewChain))
    (hcur : m.view = vm.viewChain.currentView) :
    Ends (routeMNotarization m peers vm.viewChain)
      (fun r chain => r.shouldNullify = false → r.shouldForward = true ∨ r.shouldVote = true →
        ∃ c x, chain.findViewContext m.view = some c ∧ c.mNotarization = some x ∧
          ¬ c.Finalizable) (fun _ => True) (fun _ => True) := by
  refine routeMNotarization_rule trivial (fun _ _ h => ?_) fun c hc => ?_
  · simp [ignoredMNotarization] at h
  refine ViewContext.addMNotarization_rule trivial (fun _ => trivial)
    fun _ r c' hadded hnull hsend => ?_
  have hfind : ∀ c', (vm.viewChain.setContext m.view c').findViewContext m.view = some c' :=
    fun _ => findViewContext_setContext_self ..
  have hvoted : (!c.hasVoted && !c.hasNullified) = true → c.hasVoted ≠ true := by
    intro h
    simpa using (Bool.and_eq_true_iff.mp h).1
  -- a view that is finalizable had its certificate and its vote before
  have hbefore : c.Finalizable → c.mNotarization.isSome = true ∧ c.hasVoted = true := hheld hcur c hc
  cases hadded with
  | conflict => cases hnull
  | adoptHash => cases hnull
  | adopt hnone =>
    refine ⟨_, _, hfind _, rfl, fun hfin => ?_⟩
    obtain ⟨b, hb⟩ := Option.isSome_iff_exists.mp hfin.1
    exact nomatch hnone.symm.trans (hblock _ c b hc hb)
  | @known x _ held same =>
    refine ⟨c, x, hfind _, held, fun hfin => ?_⟩
    exact hvoted (hsend.resolve_left fun h => nomatch h) (hbefore hfin).2
  | store _ new =>
    refine ⟨_, m, hfind _, rfl, fun hfin => ?_⟩
    have hsome := (hbefore hfin).1
    rw [new] at hsome
    cases hsome

/-! Where a reaction leads. -/

theorem reached_plain {chain : ViewChain P} {event : ViewProgressEvent P} (h : Plain event)
    (hn : chain.currentView = n) : event.Reached n chain := by
  cases event <;> first
    | exact hn
    | exact h.elim

theorem reached_ahead {view : Nat} :
    Ahead view vm (fun e vm' => e.Reached vm.viewChain.currentView vm'.viewChain)
      (InView vm.viewChain.currentView) := ⟨fun h => ⟨rfl, h⟩, rfl⟩

theorem pending_reached (fuel : Nat) (event : ViewProgressEvent P)
    (hevent : ∀ chain : ViewChain P, chain.currentView = n → event.Reached n chain) :
    Spec (InView n) (processAllPendingBlocks fuel >>= fun _ => pure event)
      (fun e vm => e.Reached n vm.viewChain) (InView n) fun _ => True :=
  spec_bind (inView_spec (currentView_blind.processAllPendingBlocks fuel)) fun _ =>
    spec_pure fun vm h => hevent vm.viewChain h

/-- The next view is opened, then the one that was left may be finalized. -/
theorem leaveView_leaves {r : ShouldMNotarize} :
    Spec (fun vm => InView n vm ∧ Leaves m r vm) (leaveView m.view m.blockHash)
      (fun _ vm => InView (m.view + 1) vm ∧ Leaves m r vm) (InView n) fun _ => True := by
  refine spec_bind (Q := fun _ vm' => InView (m.view + 1) vm' ∧ Leaves m r vm') ?_ fun _ => ?_
  · rintro vm' ⟨hview, hleaves⟩
    refine (openView_ends ⟨_, fun _ _ => rfl⟩
      (fun s v => ViewChain.findViewContext_onMNotarization s _ v) vm').conseq ?_ ?_ ?_
    · rintro _ vm'' ⟨hnew, -, hkeep⟩
      refine ⟨hnew, fun hsend => ?_⟩
      obtain ⟨c, x, hc, hx⟩ := hleaves hsend
      exact ⟨c, x, hkeep _ _ (by omega) hc, hx⟩
    · rintro _ rfl
      exact hview
    · exact fun _ _ => trivial
  have hfin : Maintains (fun vm' => InView (m.view + 1) vm' ∧ Leaves m r vm')
      (finalizeView m.view) := by
    rintro vm' ⟨hview, hleaves⟩
    refine ⟨(finalizeView_currentView m.view vm').trans hview, fun hsend => ?_⟩
    obtain ⟨c, x, hc, hx, hnot⟩ := hleaves hsend
    exact ⟨c, x, finalizeView_held hc hnot, hx, hnot⟩
  exact fun vm' h => ends_of_attempt (maintains_attempt hfin vm' h)

theorem handleMNotarization_reached
    (hblock : ∀ v c b, vm.viewChain.findViewContext v = some c → c.block = some b →
      c.blockHash = some b.getHash)
    (hheld : Moment.LeavesHeld (.processed (.mNotarization m) vm.viewChain)) (fuel : Nat) :
    Ends (handleMNotarization fuel m vm)
      (fun e vm' => e.Reached vm.viewChain.currentView vm'.viewChain)
      (InView vm.viewChain.currentView) fun _ => True := by
  refine handleMNotarization_rule (M := fun r vm' => InView vm.viewChain.currentView vm' ∧
    (m.view = vm.viewChain.currentView → r.shouldNullify = false → Leaves m r vm'))
    reached_ahead rfl ?_ fun r x hx => ?_
  · have hview := inView_spec (Blind.onChain fun x =>
      (currentView_blind.chain x).routeMNotarization m vm.peers) vm rfl
    by_cases hcur : m.view = vm.viewChain.currentView
    · have hleaves : Ends (onChain (routeMNotarization m vm.peers) vm)
          (fun r vm' => r.shouldNullify = false → Leaves m r vm') (fun _ => True) fun _ => True :=
        ends_onChain (routeMNotarization_leaves hblock hheld hcur)
      exact (EndsBy.and hview hleaves).conseq (fun r _ h => ⟨h.1, fun _ => h.2⟩) (fun _ h => h.1)
        fun _ _ _ => trivial
    · exact hview.conseq (fun r vm'' h => ⟨h, fun h' => absurd h' hcur⟩) (fun _ h => h)
        fun _ _ => trivial
  rintro vm' ⟨hview, hleaves⟩
  have hleft : m.view = vm.viewChain.currentView → r.shouldNullify = false →
      Ends (leaveView m.view m.blockHash vm') _ _ _ := fun hcur hnull =>
    leaveView_leaves vm' ⟨hview, hleaves hcur hnull⟩
  cases hx with
  | plain h => exact reached_plain h hview
  | nullify => exact hview
  | voteAndLeave hnull hcur hvote =>
    refine asked (hleft hcur hnull) fun _ => triple_pure fun vm' ⟨hview, hleaves⟩ => ?_
    obtain ⟨c, x, hc, hx, -⟩ := hleaves (Or.inr hvote)
    exact ⟨hview, c, x, hc, hx⟩
  | leave hnull hcur =>
    refine asked (hleft hcur hnull) fun _ => triple_pure fun vm' ⟨hview, hleaves⟩ => ?_
    refine ⟨hview, fun hforward => ?_⟩
    obtain ⟨c, x, hc, hx, -⟩ := hleaves (Or.inl hforward)
    exact ⟨c, x, hc, hx⟩
  | voteAndNotarize =>
    exact pending_reached fuel (.shouldVoteAndMNotarize _ _ _) (fun _ h => h) vm' hview
  | notarize => exact pending_reached fuel (.shouldMNotarize _ _ _) (fun _ h => h) vm' hview
  | vote => exact hview

theorem handleNullification_reached (n : Nullification P) (vm : ViewProgressManager P) :
    Ends (handleNullification n vm) (fun e vm' => e.Reached vm.viewChain.currentView vm'.viewChain)
      (InView vm.viewChain.currentView) fun _ => True := by
  have hstored : Ends (onChain (routeNullification n vm.peers) vm)
      (fun broadcast vm' => broadcast = true → ∃ c x,
        vm'.viewChain.findViewContext n.view = some c ∧ c.nullification = some x)
      (fun _ => True) (fun _ => True) := by
    refine ends_onChain (routeNullification_rule trivial fun c hc => ?_)
    refine ViewContext.addNullification_rule trivial (fun _ => trivial) fun _ r c' hadded hr => ?_
    cases hadded with
    | known => cases hr
    | store => exact ⟨_, n, ViewChain.findViewContext_setContext_self .., rfl⟩
  have hview := inView_spec (Blind.onChain fun x =>
    (currentView_blind.chain x).routeNullification n vm.peers) vm rfl
  refine handleNullification_rule reached_ahead rfl ((EndsBy.and hview hstored).conseq
    (fun _ _ h => h) (fun _ h => h.1) fun _ _ _ => trivial) fun broadcast vm' hvm' x hx => ?_
  cases hx with
  | plain h => exact reached_plain h hvm'.1
  | cascade => exact hvm'.1
  | forward => exact hvm'.1
  | skip hcur leader =>
    refine asked (M := fun _ vm'' => InView (n.view + 1) vm'' ∧ (broadcast = true →
      ∃ c x, vm''.viewChain.findViewContext n.view = some c ∧ c.nullification = some x)) ?_
      fun _ => triple_pure fun _ h => h
    refine (openView_ends ⟨_, fun _ _ => rfl⟩ (fun s v => rfl) vm').conseq ?_ ?_ ?_
    · rintro _ vm'' ⟨hnew, -, hkeep⟩
      refine ⟨hnew, fun hb => ?_⟩
      obtain ⟨c, x, hc, hx⟩ := hvm'.2 hb
      exact ⟨c, x, hkeep _ _ (by omega) hc, hx⟩
    · rintro _ rfl
      exact hvm'.1
    · exact fun _ _ => trivial

theorem progressAfterCascade_ends (newView : Nat) (vm : ViewProgressManager P) :
    Spec (· = vm) (progressAfterCascade newView) (fun _ => InView newView) (· = vm)
      fun _ => True := by
  refine spec_get_bind ?_
  rintro vm rfl
  refine spec_bind (Q := fun _ => InView newView) ?_ fun _ => spec_pure fun _ h => h
  rintro _ ⟨rfl, -⟩
  exact (openView_ends ⟨_, fun _ _ => rfl⟩ (fun s v => rfl) _).conseq (fun _ _ h => h.1)
    (fun _ h => h) fun _ _ => trivial

/-- Where a message leads, whichever it is: only a certificate moves the
replica to another view. -/
theorem processConsensusMsg_reached
    (hblock : ∀ v c b, vm.viewChain.findViewContext v = some c → c.block = some b →
      c.blockHash = some b.getHash) {m : ConsensusMessage P}
    (hheld : Moment.LeavesHeld (.processed m vm.viewChain)) (fuel : Nat) :
    Ends (processConsensusMsg fuel m vm)
      (fun e vm' => e.Reached vm.viewChain.currentView vm'.viewChain)
      (InView vm.viewChain.currentView) fun _ => True := by
  cases m with
  | blockProposal block =>
    refine handleBlockProposal_rule reached_ahead rfl rfl (fun _ => trivial) trivial
      (fun d _ => inView_spec (Blind.onChain fun x =>
        (currentView_blind.chain x).addBlockProposal _ _ _ _) _ rfl)
      fun r => proposalEvent_rule fun x hx => ?_
    cases hx with
    | plain h => exact triple_pure fun _ hn => reached_plain h hn
    | voteAndNotarize => exact pending_reached fuel _ fun _ h => h
    | _ => exact triple_pure fun _ hn => hn
  | vote vote =>
    refine handleVote_rule reached_ahead rfl (inView_spec (Blind.onChain fun x =>
      (currentView_blind.chain x).routeVote _ _) _ rfl) fun r x hx => ?_
    cases hx with
    | plain h => exact triple_pure fun _ hn => reached_plain h hn
    | voteAndNotarize => exact pending_reached fuel _ fun _ h => h
    | notarize => exact pending_reached fuel _ fun _ h => h
    | _ => exact triple_pure fun _ hn => hn
  | nullify nullify =>
    refine handleNullify_rule reached_ahead rfl (inView_spec (Blind.onChain fun x =>
      (currentView_blind.chain x).routeNullify _ _) _ rfl) fun has x hx => ?_
    cases hx with
    | plain h => exact triple_pure fun _ hn => reached_plain h hn
    | _ => exact triple_pure fun _ hn => hn
  | mNotarization m => exact handleMNotarization_reached hblock hheld fuel
  | nullification x => exact handleNullification_reached x vm
  | blockRecoveryRequest view hash =>
    exact handleBlockRecoveryRequest_rule (fun _ => trivial) (fun _ => rfl) rfl
  | blockRecoveryResponse view block =>
    refine handleBlockRecoveryResponse_rule (M := InView vm.viewChain.currentView) ?_
      fun vm' _ h => ⟨h, fun e he => reached_plain he h⟩
    exact inView_spec (Blind.onChain fun x => (currentView_blind.chain x).addRecoveredBlock _ _) _ rfl

theorem tick_reached (env : Env P) (now : Nat) :
    Spec (InView n) (tick env now) (fun e vm => e.Reached n vm.viewChain) (InView n)
      fun _ => True := by
  intro vm hn
  refine tick_rule (fun _ _ => trivial) fun _ _ c event _ h => ?_
  cases h with
  | plain h => exact reached_plain h hn
  | _ => exact hn

end ViewProgressManager

/-! ## The buffer -/

namespace Replica

variable {event : ViewProgressEvent P}

/-- The views with buffered messages lie ahead, except those that are still
to be replayed. -/
def Waiting (stale : Nat → Prop) (s : Replica P) : Prop :=
  ∀ v messages, s.pendingMessages.get v = some messages → s.currentView < v ∨ stale v

/-- The view the replica is in, and what is buffered. -/
def place (s : Replica P) : Nat × SortedMap (List (ConsensusMessage P)) :=
  (s.currentView, s.pendingMessages)

theorem place_blind : Blind (place (P := P)) where
  manager _ :=
    { chain := fun _ => ⟨fun _ _ _ => rfl, fun _ _ _ _ => rfl, fun _ _ => rfl⟩
      validated := fun _ _ => rfl
      cooldowns := fun _ _ => rfl
      recovery := fun _ _ => rfl }
  bookkeeping _ _ _ _ _ _ := rfl

theorem finalizeView_place (v : Nat) : Preserves (place (P := P)) (finalizeView v) := by
  refine preserves_get_bind fun s => preserves_ite (preserves_pure _) ?_
  refine preserves_bind (preserves_onManager fun _ => preserves_getBlockTxHashes _ v)
    fun hashes => ?_
  refine preserves_bind (fun s => ?_) fun _ => preserves_modify fun _ => rfl
  exact Prod.ext (finalizeView_currentView v s.viewManager) rfl

variable {stale : Nat → Prop} {s s' : Replica P}

theorem Waiting.of_place (h : Waiting stale s) (hplace : s'.place = s.place) :
    Waiting stale s' := by
  obtain ⟨hview, hbuffer⟩ := Prod.mk.inj hplace
  intro v messages hget
  rw [hview]
  exact h v messages (hbuffer ▸ hget)

theorem waiting_spec {α : Type} {op : Op P α} (h : Preserves (place (P := P)) op) :
    Spec (Waiting stale) op (fun _ => Waiting stale) (Waiting stale) fun _ => True := by
  intro s hs
  exact (ends_iff_state.mpr (hs.of_place (h s))).conseq (fun _ _ h => h) (fun _ h => h)
    fun _ _ => trivial

theorem Waiting.bufferMessage (h : Waiting stale s) {v : Nat} (hv : s.currentView < v)
    (m : ConsensusMessage P) : Waiting stale (s.bufferMessage v m) := by
  intro w messages hget
  by_cases hw : w = v
  · exact .inl (hw ▸ hv)
  · refine h w messages ?_
    rwa [Replica.bufferMessage, SortedMap.get_insert_ne _ _ hw] at hget

/-- Replaying a view at a time leaves nothing behind. -/
theorem waiting_drains (stale : Nat → Prop) :
    Drains Waiting (fun views v => v ∈ views) stale (P := P) where
  done h v messages hget := (h v messages hget).imp_right fun hv => nomatch hv
  absent hnone h v messages hget := by
    refine (h v messages hget).imp_right fun hv => (mem_cons.mp hv).resolve_left ?_
    rintro rfl
    exact nomatch hnone.symm.trans hget
  taken h v messages hget := by
    obtain ⟨hget, hne⟩ := SortedMap.get_remove.mp hget
    exact (h v messages hget).imp_right fun hv => (mem_cons.mp hv).resolve_left hne

/-! ## Nothing ends early -/

section Sends

variable {env : Env P} (hsend : ∀ now, env.broadcastOk now = true) {v : Nat}
include hsend

theorem broadcast_sent (m : ConsensusMessage P) (s : Replica P) :
    broadcastConsensusMessage env m s = (.ok (), s.emit true m) := by
  simp only [broadcastConsensusMessage, askEnv, bind_run, hsend, ↓reduceIte, modify_run]
  rfl

/-- A certificate that is held is passed on. -/
theorem createAndBroadcastMNotarization_sent {forward : Bool}
    (hheld : forward = true → ∃ c m, s.context v = some c ∧ c.mNotarization = some m) :
    Ends (createAndBroadcastMNotarization env v forward s) (fun _ s' => s'.place = s.place)
      (fun _ => False) fun _ => False := by
  cases forward with
  | false => exact rfl
  | true =>
    obtain ⟨c, m, hc, hm⟩ := hheld rfl
    have hget : onManager (getMNotarization v) s = (.ok m, s) := by
      simp only [onManager, Act.zoom, getMNotarization, requireContext, bind_run]
      rw [show s.viewManager.viewChain.findViewContext v = some c from hc]
      simp only [hm]
      rfl
    simp only [createAndBroadcastMNotarization, ↓reduceIte, bind_run, hget,
      broadcast_sent hsend]
    exact rfl

theorem forwardNullification_sent {broadcast : Bool}
    (hheld : broadcast = true → ∃ c n, s.context v = some c ∧ c.nullification = some n) :
    Ends (forwardNullification env broadcast v s) (fun _ s' => s'.place = s.place)
      (fun _ => False) fun _ => False := by
  cases broadcast with
  | false => exact rfl
  | true =>
    obtain ⟨c, n, hc, hn⟩ := hheld rfl
    have hget : onManager (getNullification v) s = (.ok n, s) := by
      simp only [onManager, Act.zoom, getNullification, requireContext, bind_run]
      rw [show s.viewManager.viewChain.findViewContext v = some c from hc]
      simp only [hn]
      rfl
    simp only [forwardNullification, ↓reduceIte, broadcastNullification, bind_run, hget,
      broadcast_sent hsend]
    exact rfl

/-- A vote that is due is cast, and the certificate of its view stays. -/
theorem voteForBlock_sent {h : Hash P} {c : ViewContext P} {m : MNotarization P}
    (hc : s.context v = some c) (hm : c.mNotarization = some m) (hready : c.VoteReady h) :
    Ends (voteForBlock env v h s)
      (fun _ s' => s'.place = s.place ∧ ∃ c' m', s'.context v = some c' ∧
        c'.mNotarization = some m')
      (fun _ => False) fun _ => False := by
  have hchain : s.viewManager.viewChain.findViewContext v = some c := hc
  have hcast : ∀ signature, ViewContext.addOwnVote h signature c =
      (.ok (), c.castVote h signature) := by
    intro signature
    simp [ViewContext.addOwnVote, hready.notVoted, hready.anchored.1]
  simp only [voteForBlock, onManager, Act.zoom, requireContext, hchain, bind_run, signBytes,
    record, noteVoted, modify_run, get_run, broadcast_sent hsend]
  simp only [addOwnVote, requireContext, bind_run, Replica.emit, hchain,
    ViewProgressManager.onChain, Act.zoom, runOn, hcast]
  exact ⟨rfl, _, m, findViewContext_setContext_self .., hm⟩

end Sends

/-! ## What is outstanding -/

/-- What holds in front of an event: where a view was opened, what the event
finds, and otherwise the buffer is in order. -/
def Outstanding (stale : Nat → Prop) (event : ViewProgressEvent P) (s : Replica P) : Prop :=
  match event with
  | .progressToNextView _ _ _ _ | .shouldVoteAndProgressToNextView _ _ _ _ _
  | .progressToNextViewOnNullification _ _ _ _ => event.Reached s.currentView s.chain
  | .shouldUpdateView v _ => Waiting stale s ∧ s.currentView < v
  | _ => Waiting stale s

/-- What holds in front of the recursive part of an event: the view that was
opened is the one to be replayed. -/
def Onward (stale : Nat → Prop) (rest : Rest P) (s : Replica P) : Prop :=
  match rest with
  | .progress v _ _ => s.currentView = v
  | _ => Waiting stale s

theorem outstanding_of_reached (h : Waiting stale s)
    (hbuffer : s'.pendingMessages = s.pendingMessages)
    (hreached : event.Reached s.currentView s'.chain) : Outstanding stale event s' := by
  cases event with
  | progressToNextView | shouldVoteAndProgressToNextView | progressToNextViewOnNullification =>
    exact hreached
  | shouldUpdateView v leader =>
    obtain ⟨hview, hlt⟩ := hreached
    have hplace : s'.place = s.place := Prod.ext hview hbuffer
    exact ⟨h.of_place hplace, lt_of_eq_of_lt hview hlt⟩
  | _ =>
    have hplace : s'.place = s.place := Prod.ext hreached hbuffer
    exact h.of_place hplace

theorem onManager_outstanding {op : ViewProgressManager.Op P (ViewProgressEvent P)}
    (h : Waiting stale s)
    (hop : Ends (op s.viewManager)
      (fun e vm => e.Reached s.currentView vm.viewChain) (InView s.currentView) fun _ => True) :
    Ends (onManager op s) (Outstanding stale) (Waiting stale) fun _ => True := by
  unfold onManager Act.zoom
  rcases hr : op s.viewManager with ⟨o, vm⟩
  rw [hr] at hop
  cases o with
  | ok e => exact outstanding_of_reached h rfl hop
  | err e =>
    have hplace : place { s with viewManager := vm } = s.place := Prod.ext hop rfl
    exact h.of_place hplace
  | panic => trivial
  | exhausted => trivial

/-! ## The cascade opens a view too -/

theorem nullifyCurrentAndRollback_waiting (env : Env P) (startView : Nat) :
    Spec (Waiting stale) (nullifyCurrentAndRollback env startView)
      (fun n s => s.currentView = n ∧ Waiting stale s) (Waiting stale) fun _ => True := by
  intro s hs
  have hplace := place_blind.nullifyCurrentAndRollback env startView s
  have hvalue : ∀ n s', nullifyCurrentAndRollback env startView s = (.ok n, s') →
      n = s.currentView := by
    intro n s' hr
    unfold nullifyCurrentAndRollback at hr
    simp only [bind_run, get_run, modify_run, pure_run] at hr
    split at hr
    · exact (Outcome.ok.inj (Prod.mk.inj hr).1).symm
    all_goals cases (Prod.mk.inj hr).1
  rcases hr : nullifyCurrentAndRollback env startView s with ⟨o, s'⟩
  rw [hr] at hplace
  cases o with
  | ok n => exact ⟨(congrArg Prod.fst hplace).trans (hvalue n s' hr).symm, hs.of_place hplace⟩
  | err e => exact hs.of_place hplace
  | panic => trivial
  | exhausted => trivial

theorem progressAfterCascade_waiting (n : Nat) :
    Spec (Waiting stale) (onManager (progressAfterCascade (n + 1)))
      (fun _ (s : Replica P) => s.currentView = n + 1) (Waiting stale) fun _ => True := by
  intro s hs
  have hends := progressAfterCascade_ends (n + 1) s.viewManager s.viewManager rfl
  unfold onManager Act.zoom
  rcases hr : progressAfterCascade (n + 1) s.viewManager with ⟨o, vm⟩
  rw [hr] at hends
  cases o with
  | ok r => exact hends
  | err e =>
    obtain rfl : vm = s.viewManager := hends
    exact hs
  | panic => trivial
  | exhausted => trivial

/-- **What an event does before it recurses**: an event that follows an
opened view gets to the replay, and every other leaves the buffer in order. -/
theorem eventPrefix_onward {cfg : Config P} {A : Admission cfg}
    (hsend : ∀ now, cfg.env.broadcastOk now = true) (hp : Promised A s event s)
    (h : Outstanding stale event s) :
    Ends (eventPrefix cfg.env event s) (Onward stale) (Waiting stale) fun _ => True := by
  -- an event that opens no view keeps the place
  have hkeeps : ∀ event : ViewProgressEvent P, (∀ x v leader parent,
      eventPart event ≠ .send x (.progress v leader parent)) →
      (∀ v broadcast, eventPart event ≠ .cascade v broadcast) → Waiting stale s →
      Ends (eventPrefix cfg.env event s) (Onward stale) (Waiting stale) fun _ => True := by
    intro event hprogress hcascade h
    rw [eventPrefix_eq]
    refine spec_bind (waiting_spec (place_blind.castVote cfg.env _)) (fun _ => ?_) s h
    cases hpart : eventPart event with
    | send x rest =>
      refine spec_bind (waiting_spec (place_blind.mute.sending cfg.env x)) fun _ =>
        spec_pure fun _ h => ?_
      cases rest with
      | progress v leader parent => exact absurd hpart (hprogress x v leader parent)
      | _ => exact h
    | finalize v => exact spec_bind (waiting_spec (finalizeView_place v)) fun _ => spec_pure fun _ h => h
    | nullify v =>
      exact spec_bind (waiting_spec (place_blind.nullifyView _ v false)) fun _ =>
        spec_pure fun _ h => h
    | nullifyRange v =>
      exact spec_bind (waiting_spec (place_blind.nullifyCurrentAndRollback _ v)) fun _ =>
        spec_pure fun _ h => h
    | cascade v broadcast => exact absurd hpart (hcascade v broadcast)
  cases event with
  | progressToNextView v leader parent forward =>
    obtain ⟨hview, hheld⟩ := h
    refine spec_bind (P := (· = s)) (Q := fun _ s' => s'.place = s.place) ?_
      (fun _ => spec_pure fun s' hs' => (congrArg Prod.fst hs').trans hview) s rfl
    rintro _ rfl
    exact (createAndBroadcastMNotarization_sent hsend hheld).conseq (fun _ _ h => h)
      (fun _ h => h.elim) fun _ h => h.elim
  | progressToNextViewOnNullification v leader parent broadcast =>
    obtain ⟨hview, hheld⟩ := h
    refine spec_bind (P := (· = s)) (Q := fun _ s' => s'.place = s.place) ?_
      (fun _ => spec_pure fun s' hs' => (congrArg Prod.fst hs').trans hview) s rfl
    rintro _ rfl
    exact (forwardNullification_sent hsend hheld).conseq (fun _ _ h => h)
      (fun _ h => h.elim) fun _ h => h.elim
  | shouldVoteAndProgressToNextView w hash v leader forward =>
    obtain ⟨hview, c, m, hc, hm⟩ := h
    -- the vote that is due is cast, and the certificate is still there
    refine spec_bind (P := (· = s)) (Q := fun _ s' => s'.place = s.place ∧
      ∃ c m, s'.context w = some c ∧ c.mNotarization = some m) ?_ (fun _ => ?_) s rfl
    · rintro _ rfl
      exact (voteForBlock_sent hsend hc hm (hp.2.1 c hc)).conseq (fun _ _ h => h)
        (fun _ h => h.elim) fun _ h => h.elim
    refine spec_bind (Q := fun _ s' => s'.place = s.place) ?_ fun _ =>
      spec_pure fun s' (hs' : s'.place = s.place) => (congrArg Prod.fst hs').trans hview
    rintro s' ⟨hplace, hheld⟩
    exact (createAndBroadcastMNotarization_sent hsend fun _ => hheld).conseq
      (fun _ _ h => h.trans hplace) (fun _ h => h.elim) fun _ h => h.elim
  | shouldCascadeNullification startView broadcast =>
    refine spec_bind (waiting_spec (preserves_attempt
      (place_blind.forwardNullification _ broadcast startView))) (fun _ => ?_) s h
    refine spec_bind (nullifyCurrentAndRollback_waiting _ startView) fun n => ?_
    refine spec_bind (Q := fun _ => Waiting stale) ?_ fun _ => ?_
    · exact (waiting_spec (place_blind.recordCascade startView)).weaken (fun _ h => h.2)
        fun _ _ h => h
    exact spec_bind (progressAfterCascade_waiting n) fun r => spec_pure fun _ h => h
  | shouldUpdateView v leader => exact h.1
  | _ => exact hkeeps _ nofun nofun h

/-! ## Whole runs -/

section Runs

variable {cfg : Config P} {A : Admission cfg} {s₀ : Replica P}

/-- An operation that leaves the buffer in order, in the runs that meet the
condition. -/
theorem ends_when_waiting {α : Type} {op : Op P α} {Q : α → Replica P → Prop}
    (hmono : ∀ e ∈ s.history, e ∈ (op s).2.history)
    (h : (∀ e ∈ s.history, e.LeavesHeld) →
      Ends (op s) Q (Waiting stale) fun _ => True) :
    EndsBy (op s) (fun a => When Moment.LeavesHeld (Q a))
      (When Moment.LeavesHeld (Waiting stale)) fun _ _ => True :=
  (Rules.ends_when (B := fun _ _ => True) hmono h).conseq (fun _ _ h => h) (fun _ h => h)
    fun _ _ _ => trivial

theorem process_outstanding (hwf : s.WF A) (hs : Waiting stale s) {m : ConsensusMessage P}
    (hheld : Moment.LeavesHeld (.processed m s.chain)) (fuel : Nat)
    (hmanager : s'.viewManager = s.viewManager) (hbuffer : s'.pendingMessages = s.pendingMessages) :
    Ends (onManager (processConsensusMsg fuel m) s') (Outstanding stale) (Waiting stale)
      fun _ => True := by
  have hview : s'.currentView = s.currentView := congrArg (·.viewChain.currentView) hmanager
  have hwaiting : Waiting stale s' := hs.of_place (Prod.ext hview hbuffer)
  refine onManager_outstanding hwaiting (processConsensusMsg_reached ?_ ?_ fuel)
  · rw [hmanager]
    exact fun v c b hc hb => (hwf.chain.context v c hc).block_hash b hb
  · rw [hmanager]
    exact hheld

/-- **The parts of the event loop keep the buffer in order** if nothing that
is sent is refused. While a view's messages are replayed, the views that are
left to replay are the stale ones. -/
theorem buffer_plan (hsend : ∀ now, cfg.env.broadcastOk now = true) :
    Plan A (fun _ => True) (fun stale => When Moment.LeavesHeld (Waiting stale))
      (fun stale event => When Moment.LeavesHeld (Outstanding stale event))
      (fun stale rest => When Moment.LeavesHeld (Onward stale rest)) fun _ _ => True where
  ask h hC := h hC
  buffer _ _ v _ m h hC := (h hC).1.bufferMessage (h hC).2 m
  exhausted _ := trivial
  process {stale s₀} h₀ fuel m := by
    rintro _ ⟨s, rfl, hat, hJ, -⟩
    refine ends_when_waiting (fun _ he => he) fun hC => ?_
    refine process_outstanding (hat.wf h₀.wf) (hJ fun e he => hC e ?_) (hC _ ?_) fuel rfl rfl
    · exact mem_append_left _ he
    · exact mem_append_right _ mem_cons_self
  tick {stale s₀} h₀ now := by
    rintro s ⟨hat, hJ⟩
    exact ends_when_waiting (fun _ he => he) fun hC =>
      onManager_outstanding (hJ hC) (tick_reached cfg.env now s.viewManager rfl)
  event {stale s₀} h₀ event := by
    rintro s ⟨hp, hD⟩
    have hbase := h₀.move hp.steps
    have hmoved := ends_iff_state.mp ((eventPrefix_spec hbase.wf event s hp.rebase).conseq
      (fun _ _ h => h.1.steps) (fun _ h => h.steps) fun _ h => h)
    exact ends_when_waiting (fun _ he => Steps.history hmoved he) fun hC =>
      eventPrefix_onward hsend hp.rebase (hD hC)
  rest rest hrest h hC := by
    cases rest with
    | progress v leader parent => exact absurd rfl (hrest v leader parent)
    | _ => exact h hC
  finalize {stale s₀} h₀ v view leader parent := by
    rintro s ⟨hat, hK⟩
    have hplace := congrArg Prod.fst (finalizeView_place v s)
    have hmoved : Moved A s (fun _ => At A s) (finalizeView v s) :=
      spec_settled (finalizeView_spec (hat.wf h₀.wf)) s (At.refl hat.settled)
    have hsteps := Moved.steps hmoved fun _ _ h => h.steps
    have hkeep : When Moment.LeavesHeld (Onward stale (.progress view leader parent))
        (finalizeView v s).2 :=
      fun hC => hplace.trans (hK fun e he => hC e (Steps.history hsteps he))
    exact (ends_iff_state.mpr hkeep).conseq (fun _ _ h => h) (fun _ h => h) fun _ _ => trivial
  replay {stale s view leader parent} hK := by
    refine ⟨fun views v => v ∈ views, ?_, fun hC v messages hget => ?_⟩
    · exact
        { done := fun h hC => (waiting_drains stale).done (h hC)
          absent := fun hnone h hC => (waiting_drains stale).absent hnone (h hC)
          taken := fun h hC => (waiting_drains stale).taken (h hC) }
    · have hview : s.currentView = view := hK hC
      have hkey : v ∈ s.pendingMessages.keys :=
        mem_map_of_mem (SortedMap.get_eq_some_iff.mp hget)
      by_cases hle : v ≤ view
      · exact .inr (mem_filter.mpr ⟨hkey, by simpa using hle⟩)
      · exact .inl (by omega)
  own {stale s₀} h₀ fuel view parent now := by
    rintro s ⟨hat, hJ, -⟩
    rw [sendOwnProposal_run, if_pos (hsend _)]
    refine ends_when_waiting (fun _ he => he) fun hC => ?_
    refine process_outstanding (hat.wf h₀.wf) (hJ fun e he => hC e ?_) (hC _ ?_) fuel rfl rfl
    · exact mem_append_left _ he
    · exact mem_append_right _ mem_cons_self
  ownVote {stale s₀} h₀ event signature handleEvent hasks := by
    rintro s ⟨hp, hD, hlog⟩
    have hbase := h₀.move hp.steps
    have hmoved := ends_iff_state.mp ((ownVote_spec hbase.wf hasks signature handleEvent s
      ⟨hp.rebase, hlog⟩).conseq (fun _ _ h => h.steps) (fun _ h => h.steps) fun _ h => h)
    refine ends_when_waiting (fun _ he => Steps.history hmoved he) fun hC => ?_
    have hplace : Preserves (place (P := P))
        (handleOwnProposal cfg.env handleEvent signature event) := by
      cases event with
      | shouldVote v hash => exact place_blind.addOwnVote v hash signature
      | shouldVoteAndMNotarize v hash forward =>
        exact preserves_bind (place_blind.addOwnVote v hash signature) fun _ =>
          place_blind.createAndBroadcastMNotarization cfg.env v forward
      | shouldVoteAndFinalize v hash =>
        exact preserves_bind (place_blind.addOwnVote v hash signature) fun _ =>
          finalizeView_place v
      | _ => exact hasks.elim
    have hs : Waiting stale s := by
      cases event with
      | shouldVote | shouldVoteAndMNotarize | shouldVoteAndFinalize => exact hD hC
      | _ => exact hasks.elim
    exact waiting_spec hplace s hs
  proposed {stale s₀} h₀ v := by
    rintro s ⟨hat, hJ⟩
    exact ends_when_waiting (fun _ he => he) fun hC =>
      waiting_spec (preserves_onManager fun s => (place_blind.manager s).markProposed v) s (hJ hC)

/-- **No buffered message is stranded**: in a run in which every broadcast is
queued and no M-notarization finds its current view ready to be finalized
before the certificate was stored and the vote was cast, whenever an input
has been handled, messages are buffered only for views above the current
one. -/
theorem nothing_stranded (hsend : ∀ now, cfg.env.broadcastOk now = true) {s : Replica P}
    (h : Run cfg (fun _ _ => True) s true) (hheld : ∀ e ∈ s.history, e.LeavesHeld) :
    ∀ v ∈ s.pendingMessages.keys, s.currentView < v := by
  have hstart : Waiting (fun _ => False) (start cfg) := by
    intro v messages hget
    cases hget
  obtain ⟨hgoes, -⟩ := (buffer_plan (A := .any cfg) hsend).run (i := fun _ => False)
    (fun _ _ _ => trivial) (fun _ => trivial) (fun _ => hstart) h
  intro v hv
  obtain ⟨⟨k, messages⟩, hmem, rfl⟩ := List.mem_map.mp hv
  exact (hgoes rfl hheld k messages (SortedMap.get_eq_some_iff.mpr hmem)).resolve_right id

end Runs

/-! ## Two runs -/

/-- A vote for view 2 is buffered in view 1. -/
def earlyVote : Input sampleParams := .message (.vote (voteOf 3 2 secondBlock.getHash))

/-- The certificate of the first block follows. -/
def notarizedView : List (Input sampleParams) :=
  [earlyVote, .message (.mNotarization (certificateOf 1 firstBlock.getHash))]

/-- The vote for view 2 is replayed when the certificate opens the view. -/
theorem nothing_stranded_notarizedView :
    let s := (runAll (sampleConfig 0 (quietEnv _)) 20 notarizedView).1
    s.currentView = 2 ∧ ∀ v ∈ s.pendingMessages.keys, s.currentView < v := by
  have hrun := run_goes (sampleConfig 0 (quietEnv _)) 20 notarizedView (fun _ => True)
    (by decide +kernel) fun _ _ => trivial
  exact ⟨by decide +kernel, nothing_stranded (fun _ => rfl) hrun (by decide +kernel)⟩

/-- A vote for view 2 is buffered, then all votes for the first block come
before the block, and the certificate comes last. -/
def finalizedView : List (Input sampleParams) :=
  earlyVote :: ([2, 3, 4, 5].map fun i => .message (.vote (voteOf i 1 firstBlock.getHash))) ++
    [.message (.blockProposal firstBlock),
      .message (.mNotarization (certificateOf 1 firstBlock.getHash))]

/-- **A buffered vote is stranded.** The certificate opens view 2 and view 1
is finalized at once; the certificate that is to be passed on went with it,
the event ends with an error, and the vote for view 2 is not replayed. -/
theorem vote_stranded :
    ∃ s : Replica sampleParams,
      Run (sampleConfig 0 (quietEnv _)) (fun _ m => m.WellTyped) s true ∧ s.currentView = 2 ∧
        s.pendingMessages.keys = [2] := by
  have hrun := run_goes (sampleConfig 0 (quietEnv _)) 20 finalizedView (·.WellTyped)
    (by decide +kernel) (by decide +kernel)
  exact ⟨_, hrun, by decide +kernel, by decide +kernel⟩

end Replica

end Minimmit
