/-
Minimmit.Consensus.ManagerFunctions — the view manager only composes steps.

Every handler of the manager is given a triple: started in a settled replica
it takes steps, and the event it returns keeps a promise (`Promised`) that
the state machine relies on when it acts on the event: a vote it asks for is
due, a view it reports was entered on the parent it names, and only
`ShouldNullifyView` may leave the hash of its view unsettled, and then with
the evidence that makes the nullify message go out.
-/
import Minimmit.Consensus.HandlerRules
import Minimmit.Consensus.ReplicaSteps

namespace Minimmit

open Minimmit.Library Act Relation ViewContext Replica ViewChain Steps Option ViewProgressManager

variable {P : Params}

namespace Replica

/-- A vote for `h` is due in view `v`, unless the view was finalized. -/
def VoteDue (s : Replica P) (v : Nat) (h : Hash P) : Prop :=
  ∀ c, s.context v = some c → c.VoteReady h

/-- Every context is settled but that of `v`, which has the evidence for a
nullify message. -/
def SettledBut (v : Nat) (s : Replica P) : Prop :=
  ∀ w c, s.context w = some c → c.Settled ∨ (w = v ∧ c.hasNullified = false ∧ Evidence c)

variable {cfg : Config P} (A : Admission cfg) (s₀ : Replica P)

/-- What holds when the manager has returned an event. -/
def Promised (event : ViewProgressEvent P) (s : Replica P) : Prop :=
  match event with
  | .shouldVote v h | .shouldVoteAndMNotarize v h _ | .shouldVoteAndFinalize v h =>
    At A s₀ s ∧ s.VoteDue v h
  | .shouldProposeBlock v parent | .progressToNextView v _ parent _
  | .progressToNextViewOnNullification v _ parent _ =>
    At A s₀ s ∧ (v, parent) ∈ s.viewManager.entered
  | .shouldVoteAndProgressToNextView v h w _ _ =>
    At A s₀ s ∧ s.VoteDue v h ∧ (w, h) ∈ s.viewManager.entered
  | .shouldNullifyView v => Steps (A := A) s₀ s ∧ s.SettledBut v
  | .broadcastConsensusMessage m => At A s₀ s ∧ Relayed m
  | _ => At A s₀ s

variable {A s₀}

/-- An event that rests on nothing promises nothing more. -/
theorem At.promised {s : Replica P} (h : At A s₀ s) {event : ViewProgressEvent P}
    (hplain : Plain event) : Promised A s₀ event s := by
  cases event with
  | await | noOp | shouldNullify | shouldNullifyRange | shouldFinalize | shouldRequestBlock
  | shouldRequestBlocks => exact h
  | _ => exact hplain.elim

/-- From a settled replica the operation returns an event whose promise
holds. -/
abbrev KeepsPromise (A : Admission cfg) (s₀ s₁ : Replica P)
    (op : ViewProgressManager.Op P (ViewProgressEvent P)) : Prop :=
  Act.Spec (fun vm => At A s₀ (s₁.withManager vm)) op
    (fun e vm => Promised A s₀ e (s₁.withManager vm))
    (fun vm => At A s₀ (s₁.withManager vm)) fun vm => At A s₀ (s₁.withManager vm)

/-- A message of a later view changes nothing. -/
theorem At.ahead {s₁ : Replica P} {vm₀ : ViewProgressManager P} {view : Nat}
    (h : At A s₀ (s₁.withManager vm₀)) : Ahead view vm₀
    (fun e vm => Promised A s₀ e (s₁.withManager vm)) fun vm => At A s₀ (s₁.withManager vm) :=
  ⟨fun _ => h, h⟩

end Replica

namespace ViewProgressManager

variable {E Pre X : ViewProgressManager P → Prop} {fuel v view : Nat} {ready : ViewContext P → Bool}
  {refused : Nat → ConsensusError P} {before : ViewChain P → ViewChain P}
  {vm₀ : ViewProgressManager P} {m : MNotarization P}

/-! ## Chain operations and lookups -/

theorem spec_onChain {α : Type} {op : ViewChain.Op P α} {Q : α → ViewProgressManager P → Prop}
    (h : ∀ vm, Pre vm → Ends (op vm.viewChain) (fun a ch => Q a { vm with viewChain := ch })
      (fun ch => E { vm with viewChain := ch }) (fun ch => X { vm with viewChain := ch })) :
    Spec Pre (onChain op) Q E X :=
  spec_zoom h

theorem ends_onChain {α : Type} {op : ViewChain.Op P α} {Q : α → ViewProgressManager P → Prop}
    (h : Ends (op vm₀.viewChain) (fun a ch => Q a { vm₀ with viewChain := ch })
      (fun ch => E { vm₀ with viewChain := ch }) (fun ch => X { vm₀ with viewChain := ch })) :
    Ends (onChain op vm₀) Q E X := by
  have hzoom : Spec (· = vm₀) (onChain op) Q E X := spec_onChain fun _ hvm => hvm ▸ h
  exact hzoom vm₀ rfl

theorem spec_requireContext (hE : ∀ vm, Pre vm → E vm) : Spec Pre (requireContext v)
      (fun c vm => Pre vm ∧ vm.viewChain.findViewContext v = some c) E X := by
  intro vm hvm
  unfold requireContext
  split
  case h_1 c hc => exact ⟨hvm, hc⟩
  case h_2 => exact hE vm hvm

/-! ## Handlers -/

variable {cfg : Config P} {A : Admission cfg} {s₀ s₁ : Replica P}

/-- Processing the waiting blocks keeps a replica settled and a due vote
due. -/
theorem processAllPendingBlocks_at (h₀ : s₀.WF A) (fuel : Nat) {p : Prop} {h : Hash P} :
    Spec (fun vm => At A s₀ (s₁.withManager vm) ∧ (p → (s₁.withManager vm).VoteDue v h))
      (processAllPendingBlocks fuel)
      (fun _ vm => At A s₀ (s₁.withManager vm) ∧ (p → (s₁.withManager vm).VoteDue v h))
      (fun vm => At A s₀ (s₁.withManager vm)) (fun vm => At A s₀ (s₁.withManager vm)) := by
  rintro vm ⟨hat, hdue⟩
  have hpeers : vm.peers = cfg.peers := (hat.wf h₀).peers
  have hready : vm.viewChain.Ready (A.admits s₁.signed) vm.peers cfg.replicaId := by
    rw [hpeers]
    exact hat.ready h₀
  have hloop := hready.loopRule.processAllPendingBlocks fuel rfl vm ⟨_, rfl, .refl⟩
  have hmoved : ∀ {vm'}, (∃ ch, vm' = { vm with viewChain := ch } ∧
      Steps (BlockStep (A.admits s₁.signed) vm.peers) vm.viewChain ch) →
      At A s₀ (s₁.withManager vm') := by
    rintro vm' ⟨ch, rfl, hsteps⟩
    rw [hpeers] at hsteps
    exact hat.chainSteps (ofBlock hsteps)
  refine (ends_iff_state.mpr hloop).conseq ?_ (fun _ => hmoved) fun _ => hmoved
  refine fun _ vm' hvm' => ⟨hmoved hvm', fun hd => ?_⟩
  obtain ⟨ch, rfl, hsteps⟩ := hvm'
  exact voteReady hsteps hready (hdue hd)

/-- The same without a vote in question. -/
theorem processAllPendingBlocks_settled (h₀ : s₀.WF A) (fuel : Nat) :
    Spec (fun vm => At A s₀ (s₁.withManager vm)) (processAllPendingBlocks fuel)
      (fun _ vm => At A s₀ (s₁.withManager vm)) (fun vm => At A s₀ (s₁.withManager vm))
      (fun vm => At A s₀ (s₁.withManager vm)) :=
  (processAllPendingBlocks_at (p := False) (v := 0) (h := P.hashing.zero) h₀ fuel).weaken
    (fun _ hat => ⟨hat, False.elim⟩) fun _ _ hat => hat.1

/-- A vote an event asks for is for `h` in view `v`. -/
def AsksVoteFor (v : Nat) (h : Hash P) : ViewProgressEvent P → Prop
  | .shouldVote v' h' | .shouldVoteAndMNotarize v' h' _ | .shouldVoteAndFinalize v' h' =>
    v' = v ∧ h' = h
  | _ => True

theorem proposalEvent_spec (h₀ : s₀.WF A) {r : LeaderProposalResult P} {h : Hash P}
    (hr : r.blockHash = h) :
    Spec (fun vm => At A s₀ (s₁.withManager vm) ∧
        (r.shouldVote = true → (s₁.withManager vm).VoteDue v h))
      (proposalEvent fuel v r)
      (fun e vm => Promised A s₀ e (s₁.withManager vm) ∧ AsksVoteFor v h e)
      (fun vm => At A s₀ (s₁.withManager vm)) (fun vm => At A s₀ (s₁.withManager vm)) := by
  subst hr
  refine proposalEvent_rule fun x hx => ?_
  cases hx with
  | @plain event hplain =>
    refine spec_pure fun _ hs => ⟨hs.1.promised hplain, ?_⟩
    cases event <;> trivial
  | voteAndFinalize due | vote due => exact spec_pure fun _ hs => ⟨⟨hs.1, hs.2 due⟩, rfl, rfl⟩
  | voteAndNotarize _ due =>
    exact spec_bind (processAllPendingBlocks_at h₀ fuel) fun _ =>
      spec_pure fun _ hs => ⟨⟨hs.1, hs.2 due⟩, rfl, rfl⟩
  | notarize => exact spec_pure fun _ hs => ⟨hs.1, trivial⟩

theorem handleBlockProposal_spec (h₀ : s₀.WF A) {b : Block P}
    (ha : A.admits s₁.signed (.blockProposal b)) :
    KeepsPromise A s₀ s₁ (handleBlockProposal fuel b) := by
  intro vm hat
  refine handleBlockProposal_rule (M := fun r vm => r.blockHash = b.getHash ∧
      At A s₀ (s₁.withManager vm) ∧
      (r.shouldVote = true → (s₁.withManager vm).VoteDue b.view b.getHash)) hat.ahead
    (hat.wf h₀).peers hat (fun _ => hat) hat (fun d hval => ?_) fun r => triple_of_prop fun hr =>
      (proposalEvent_spec h₀ hr).weaken (fun _ hs => hs) fun _ _ hs => hs.1
  have hat' : At A s₀ (s₁.withManager { vm with validated := vm.validated ++ [(b, d)] }) :=
    hat.step (.validate hval)
  refine ends_onChain ((addBlockProposal_spec ha (hat'.ready h₀) _ rfl).conseq ?_ ?_ ?_)
  · exact fun r ch h => ⟨h.2.1, hat'.chainSteps (ofBlock h.1), h.2.2⟩
  · exact fun ch h => hat'.chainSteps (ofBlock h)
  · exact fun ch h => hat'.chainSteps (ofBlock h)

/-- A vote message never asks for a vote: the result that would is the one
that awaits. -/
theorem handleVote_spec (h₀ : s₀.WF A) {v : Vote P} (ha : A.admits s₁.signed (.vote v)) :
    KeepsPromise A s₀ s₁ (handleVote fuel v) := by
  intro vm hat
  refine handleVote_rule (M := fun r vm => (r.shouldVote = true → r.shouldAwait = true) ∧
    At A s₀ (s₁.withManager vm)) hat.ahead (hat.wf h₀).peers ?_ fun r x hx =>
    triple_of_prop fun himp => ?_
  · refine ends_onChain ((routeVote_spec ha vm.viewChain rfl).conseq ?_ ?_ ?_)
    · exact fun r ch h => ⟨h.2, hat.chainSteps h.1⟩
    · exact fun ch h => hat.chainSteps h
    · exact fun ch h => hat.chainSteps h
  · have hnever : r.shouldAwait = false → r.shouldVote = true → False :=
      fun goes due => absurd (goes.symm.trans (himp due)) Bool.false_ne_true
    cases hx with
    | plain h => exact spec_pure fun _ hs => hs.promised h
    | notarize =>
      exact spec_bind (processAllPendingBlocks_settled h₀ fuel) fun _ =>
        spec_pure fun _ hs => hs
    | voteAndNotarize _ goes due => exact (hnever goes due).elim
    | vote goes due | voteAndFinalize goes due => exact (hnever goes due).elim

theorem handleNullify_spec (h₀ : s₀.WF A) {n : Nullify P} (ha : A.admits s₁.signed (.nullify n)) :
    KeepsPromise A s₀ s₁ (handleNullify n) := by
  intro vm hat
  refine handleNullify_rule (M := fun _ vm => At A s₀ (s₁.withManager vm)) hat.ahead
    (hat.wf h₀).peers ?_ fun has x hx => ?_
  · refine ends_onChain ((routeNullify_spec ha vm.viewChain rfl).conseq ?_ ?_ ?_)
    · exact fun r ch h => hat.chainSteps h
    · exact fun ch h => hat.chainSteps h
    · exact fun ch h => hat.chainSteps h
  · cases hx with
    | plain h => exact spec_pure fun _ hs => hs.promised h
    | cascade | broadcast => exact spec_pure fun _ hs => hs

/-! ## Opening and finalizing views -/

/-- After the current view was left: the next view is open on `parent`, and
the contexts held before are as they were. -/
def Opened (parent : Hash P) (s s' : Replica P) : Prop :=
  s'.currentView = s.currentView + 1 ∧ (s.currentView + 1, parent) ∈ s'.viewManager.entered ∧
    ∀ v c, s'.context v = some c → v ≤ s.currentView → s.context v = some c

theorem opened_enter (parent : Hash P) (s : Replica P) : Opened parent s (s.enter parent) := by
  refine ⟨rfl, List.mem_append_right _ List.mem_cons_self, ?_⟩
  intro v c hc hv
  rcases findViewContext_setContext_cases hc with ⟨hnew, -⟩ | ⟨-, hold⟩
  · have hnew : v = s.currentView + 1 := hnew
    omega
  · exact hold

/-- Opening a view by one of the progress functions. `hbefore` is for the
publication of a diff that one of them does first. -/
theorem openView_spec (newView : Nat) (progress : ViewContext P → ViewChain.Op P Unit)
    {parent : Hash P}
    (hprogress : Progresses progress ready before)
    (hbefore : ∀ {R : ViewContext P → ViewContext P → Prop} (s : ViewChain P),
      ViewChain.Steps R s (before s) ∧ (before s).currentView = s.currentView ∧
        (∀ v, (before s).findViewContext v = s.findViewContext v) ∧
        ∀ v, (before s).selectParent v = s.selectParent v) (hat : At A s₀ (s₁.withManager vm₀))
    (hp : ∀ c, vm₀.viewChain.findViewContext vm₀.viewChain.currentView = some c →
      ready c = true → (∃ m, c.mNotarization = some m ∧ parent = m.blockHash) ∨
        (c.hasNullified = true ∧
          parent = vm₀.viewChain.selectParent (vm₀.viewChain.currentView + 1)))
    (hleft : ∀ c, vm₀.viewChain.findViewContext vm₀.viewChain.currentView = some c →
      ready c = true → c.hasCertificate = true ∨ ∃ v, (v, before vm₀.viewChain) ∈ s₁.cascades) :
    Spec (· = vm₀) (openView newView parent progress)
      (fun _ vm => At A s₀ (s₁.withManager vm) ∧ newView = vm₀.viewChain.currentView + 1 ∧
        Opened parent (s₁.withManager vm₀) (s₁.withManager vm))
      (fun vm => At A s₀ (s₁.withManager vm)) (fun vm => At A s₀ (s₁.withManager vm)) := by
  rintro vm rfl
  refine openView_rule hprogress (fun _ => hat) hat fun hlt hnew c hc hready => ?_
  subst hnew
  obtain ⟨hsteps, hcur, hfind, hselect⟩ := hbefore (R := CtxStep (A.admits s₁.signed) cfg.peers)
    vm.viewChain
  have hpub : At A s₀ (s₁.withManager { vm with viewChain := before vm.viewChain }) :=
    hat.chainSteps hsteps
  have henter : CleanStep A (s₁.withManager { vm with viewChain := before vm.viewChain })
      ((s₁.withManager { vm with viewChain := before vm.viewChain }).enter parent) := by
    have hview : (s₁.withManager { vm with viewChain := before vm.viewChain }).currentView =
        vm.viewChain.currentView := hcur
    refine .enter (c := c) ?_ ?_ ?_ (hleft c hc hready)
    · rw [hview]
      exact (hfind _).trans hc
    · rw [hview]
      exact hlt
    · rcases hp c hc hready with hm | ⟨hn, hsel⟩
      · exact .inl hm
      · rw [hview]
        exact .inr ⟨hn, hsel.trans (hselect _).symm⟩
  have hopened := opened_enter parent (s₁.withManager { vm with viewChain := before vm.viewChain })
  have hresult := hpub.step henter
  simp only [Replica.enter, Replica.withManager, Replica.currentView, Opened,
    Replica.context, hcur, hfind] at hresult hopened ⊢
  exact ⟨hresult, trivial, hopened⟩

/-- Views were entered as before, and no context is new or changed. -/
def Kept (s s' : Replica P) : Prop :=
  s'.currentView = s.currentView ∧ s'.viewManager.entered = s.viewManager.entered ∧
    ∀ v c, s'.context v = some c → s.context v = some c

theorem kept_finalized (view : Nat) (s : Replica P) : Kept s (s.finalized view) := by
  have hprunes := finalize_prunes view s.viewManager.peers s.chain
  exact ⟨hprunes.currentView, rfl, hprunes.find⟩

theorem finalizeView_spec (view : Nat) (hat : At A s₀ (s₁.withManager vm₀))
    (hlt : view < vm₀.viewChain.currentView) :
    Spec (· = vm₀) (finalizeView view)
      (fun _ vm => At A s₀ (s₁.withManager vm) ∧
        Kept (s₁.withManager vm₀) (s₁.withManager vm))
      (fun vm => At A s₀ (s₁.withManager vm) ∧
        Kept (s₁.withManager vm₀) (s₁.withManager vm))
      (fun vm => At A s₀ (s₁.withManager vm)) := by
  have hfin : At A s₀ ((s₁.withManager vm₀).finalized view) := hat.step (.finalize hlt)
  have hkept := kept_finalized view (s₁.withManager vm₀)
  unfold finalizeView
  refine spec_bind (Q := fun _ vm =>
    vm = { vm₀ with finalizations := vm₀.finalizations ++ [(view, vm₀.viewChain)] })
    (spec_modify ?_) fun _ => ?_
  · rintro vm rfl
    rfl
  refine spec_get_bind ?_
  rintro vm rfl
  refine spec_bind (Q := fun _ vm =>
    s₁.withManager vm = (s₁.withManager vm₀).finalized view) (spec_onChain ?_) fun _ =>
    spec_modify ?_
  · rintro vm ⟨rfl, -⟩
    have hstate : ∀ {ch},
        ch = (finalizeWithLNotarization view vm₀.peers vm₀.viewChain).2 →
        At A s₀ (s₁.withManager
          { vm₀ with
            finalizations := vm₀.finalizations ++ [(view, vm₀.viewChain)], viewChain := ch }) ∧
        Kept (s₁.withManager vm₀) (s₁.withManager
          { vm₀ with
            finalizations := vm₀.finalizations ++ [(view, vm₀.viewChain)], viewChain := ch }) := by
      rintro ch rfl
      exact ⟨hfin, hkept⟩
    rcases hr : finalizeWithLNotarization view vm₀.peers vm₀.viewChain with ⟨o, ch⟩
    rw [hr] at hstate
    cases o with
    | ok _ =>
      show s₁.withManager _ = (s₁.withManager vm₀).finalized view
      unfold Replica.finalized
      simp only [Replica.withManager, hr]
    | err _ => exact hstate rfl
    | panic | exhausted => exact (hstate rfl).1
  · intro vm hvm
    have hrec : CleanStep A (s₁.withManager vm) _ := .recovery vm.blockRecoveryCooldowns
      (vm.viewChain.pendingCanonicalRecovery.foldl
        (fun pending e => if pending.any (fun p => p.1 == e.1) then pending else pending ++ [e])
        vm.canonicalRecoveryPending) []
    rw [← hvm] at hfin hkept
    exact ⟨hfin.step hrec, hkept⟩

/-! ## Certificates -/

/-- A hash written without its certificate leaves the evidence for a nullify
message. -/
theorem settledBut_hashOnly {s : Replica P} (hs : s.chain.Settled)
    {adm : ConsensusMessage P → Prop} {peers : PeerSet P} {c c' : ViewContext P}
    (h : HashOnlyStep adm peers c c') : (s.onChain (·.setContext v c')).SettledBut v := by
  intro w d hd
  rcases findViewContext_setContext_cases hd with ⟨rfl, rfl⟩ | ⟨-, hold⟩
  · cases h with
    | adoptHash _ _ _ _ he =>
      simp only [shouldNullifyAfterReceivingNewVote, Bool.and_eq_true, Bool.not_eq_true',
        Bool.or_eq_true, decide_eq_true_iff] at he
      refine .inr ⟨rfl, he.1, ?_⟩
      rw [Evidence, Nat.add_comm]
      exact he.2
  · exact .inl (hs w d hold)

/-- What routing an M-notarization leaves behind. -/
theorem routeMNotarization_at (h₀ : s₀.WF A) (hat : At A s₀ (s₁.withManager vm₀))
    (ha : ∀ c, vm₀.viewChain.findViewContext m.view = some c → c.mNotarization = none →
      A.admits s₁.signed (.mNotarization m)) :
    Spec (· = vm₀) (onChain (routeMNotarization m cfg.peers))
      (fun r vm => r.shouldAwait = false ∧
        (r.shouldNullify = true → Steps (A := A) s₀ (s₁.withManager vm) ∧
          (s₁.withManager vm).SettledBut m.view) ∧
        (r.shouldNullify = false → At A s₀ (s₁.withManager vm) ∧
          vm.viewChain.currentView = vm₀.viewChain.currentView ∧
          (∀ c, vm.viewChain.findViewContext m.view = some c →
            ∃ m', c.mNotarization = some m' ∧ m'.blockHash = m.blockHash) ∧
          (r.shouldVote = true → (s₁.withManager vm).VoteDue m.view m.blockHash)))
      (fun vm => At A s₀ (s₁.withManager vm)) (fun vm => At A s₀ (s₁.withManager vm)) := by
  refine spec_onChain ?_
  rintro vm rfl
  refine (routeMNotarization_spec ha (hat.wf h₀).chain vm.viewChain rfl).conseq ?_ ?_ ?_
  · rintro r ch ⟨hawait, ⟨hnull, hsteps, hm, hvote⟩ | ⟨hnull, hsteps | ⟨c, c', hc, hdirty, rfl⟩⟩⟩
    · refine ⟨hawait, fun h => ?_, fun _ => ?_⟩
      · rw [hnull] at h
        cases h
      · exact ⟨hat.chainSteps hsteps, currentView hsteps, hm, hvote⟩
    · refine ⟨hawait, fun _ => ?_, fun h => ?_⟩
      · have hat' := hat.chainSteps hsteps
        exact ⟨hat'.steps, fun w d hd => .inl (hat'.settled w d hd)⟩
      · rw [hnull] at h
        cases h
    · refine ⟨hawait, fun _ => ?_, fun h => ?_⟩
      · exact ⟨hat.steps.tail (.hashOnly hc hdirty), settledBut_hashOnly hat.settled hdirty⟩
      · rw [hnull] at h
        cases h
  · exact fun ch h => hat.chainSteps h
  · exact fun ch h => hat.chainSteps h

/-- The publication that precedes `progress_with_m_notarization`. -/
theorem publish_before {R : ViewContext P → ViewContext P → Prop} (s : ViewChain P) :
    Steps R s (s.onMNotarization s.currentView) ∧
      (s.onMNotarization s.currentView).currentView = s.currentView ∧
      (∀ v, (s.onMNotarization s.currentView).findViewContext v = s.findViewContext v) ∧
      ∀ v, (s.onMNotarization s.currentView).selectParent v = s.selectParent v := by
  refine ⟨onMNotarization_steps s _, currentView_onMNotarization s _,
    findViewContext_onMNotarization s _, ?_⟩
  intro v
  unfold onMNotarization
  split
  · split <;> rfl
  · rfl

/-- The view is left on a certificate that was just accepted. -/
theorem openOnMNotarization_spec (hat : At A s₀ (s₁.withManager vm₀))
    (hview : m.view = vm₀.viewChain.currentView)
    (hm : ∀ c, vm₀.viewChain.findViewContext m.view = some c →
      ∃ m', c.mNotarization = some m' ∧ m'.blockHash = m.blockHash) :
    Spec (· = vm₀) (openView (m.view + 1) m.blockHash ViewChain.progressWithMNotarization)
      (fun _ vm => At A s₀ (s₁.withManager vm) ∧
        Opened m.blockHash (s₁.withManager vm₀) (s₁.withManager vm))
      (fun vm => At A s₀ (s₁.withManager vm)) (fun vm => At A s₀ (s₁.withManager vm)) := by
  have hp : ∀ c, vm₀.viewChain.findViewContext vm₀.viewChain.currentView = some c →
      c.hasCertificate = true → (∃ m', c.mNotarization = some m' ∧ m.blockHash = m'.blockHash) ∨
        (c.hasNullified = true ∧
          m.blockHash = vm₀.viewChain.selectParent (vm₀.viewChain.currentView + 1)) := by
    intro c hc _
    obtain ⟨m', hm', heq⟩ := hm c (by rw [hview]; exact hc)
    exact .inl ⟨m', hm', heq.symm⟩
  exact (openView_spec (m.view + 1) _ ⟨_, fun _ _ => rfl⟩ publish_before hat hp
    fun _ _ hcert => .inl hcert).weaken (fun _ h => h) fun _ _ h => ⟨h.1, h.2.2⟩

/-- The view is left on a certificate that was just accepted, and the view
left behind is finalized if it can be. -/
theorem leaveOnMNotarization_spec {p : Prop} (hat : At A s₀ (s₁.withManager vm₀))
    (hview : m.view = vm₀.viewChain.currentView)
    (hm : ∀ c, vm₀.viewChain.findViewContext m.view = some c →
      ∃ m', c.mNotarization = some m' ∧ m'.blockHash = m.blockHash)
    (hdue : p → (s₁.withManager vm₀).VoteDue m.view m.blockHash) :
    Spec (· = vm₀) (leaveView m.view m.blockHash)
      (fun _ vm => At A s₀ (s₁.withManager vm) ∧
        (m.view + 1, m.blockHash) ∈ vm.entered ∧
        (p → (s₁.withManager vm).VoteDue m.view m.blockHash))
      (fun vm => At A s₀ (s₁.withManager vm)) (fun vm => At A s₀ (s₁.withManager vm)) := by
  refine spec_bind (openOnMNotarization_spec hat hview hm) fun _ => ?_
  rintro vm ⟨hat', hcur, hent, hctx⟩
  have hcur' : vm.viewChain.currentView = m.view + 1 := by
    rw [hview]
    exact hcur
  have hdue' : ∀ {s : Replica P}, (∀ v c, s.context v = some c →
      (s₁.withManager vm).context v = some c) → p → s.VoteDue m.view m.blockHash := by
    intro s hs hd c hc
    exact hdue hd c (hctx m.view c (hs m.view c hc) (Nat.le_of_eq hview))
  have hfin := finalizeView_spec m.view hat' (by omega)
  refine (spec_attempt_same hfin vm rfl).conseq ?_ (fun _ h => h) fun _ h => h
  rintro _ vm' ⟨hat'', -, hent', hctx'⟩
  refine ⟨hat'', ?_, hdue' hctx'⟩
  rw [hview]
  exact hent'.symm ▸ hent

theorem handleMNotarization_spec (h₀ : s₀.WF A) (hat : At A s₀ (s₁.withManager vm₀))
    (ha : ∀ c, vm₀.viewChain.findViewContext m.view = some c → c.mNotarization = none →
      A.admits s₁.signed (.mNotarization m)) :
    Spec (· = vm₀) (handleMNotarization fuel m) (fun e vm => Promised A s₀ e (s₁.withManager vm))
      (fun vm => At A s₀ (s₁.withManager vm)) (fun vm => At A s₀ (s₁.withManager vm)) := by
  rintro vm rfl
  refine handleMNotarization_rule hat.ahead (hat.wf h₀).peers
    (routeMNotarization_at h₀ hat ha vm rfl) fun r x hx => triple_of_prop fun hawait => ?_
  cases hx with
  | plain h goes =>
    have goes := goes.resolve_right fun h => absurd (hawait.symm.trans h) Bool.false_ne_true
    exact spec_pure fun _ hs => (hs.2 goes).1.promised h
  | nullify refused => exact spec_pure fun _ hs => hs.1 refused
  | voteAndLeave goes hview due leader =>
    rintro vm' ⟨-, hrest⟩
    obtain ⟨hat', hcur, hm, hdue⟩ := hrest goes
    exact spec_bind (leaveOnMNotarization_spec hat' (hview.trans hcur.symm) hm hdue)
      (fun _ => spec_pure fun _ h => ⟨h.1, h.2.2 due, h.2.1⟩) vm' rfl
  | leave goes hview leader =>
    rintro vm' ⟨-, hrest⟩
    obtain ⟨hat', hcur, hm, hdue⟩ := hrest goes
    exact spec_bind (leaveOnMNotarization_spec hat' (hview.trans hcur.symm) hm hdue)
      (fun _ => spec_pure fun _ h => ⟨h.1, h.2.1⟩) vm' rfl
  | voteAndNotarize goes _ due =>
    refine spec_bind ((processAllPendingBlocks_at (p := r.shouldVote = true) h₀ fuel).weaken
      (fun _ hs => ⟨(hs.2 goes).1, (hs.2 goes).2.2.2⟩) fun _ _ hs => hs) fun _ => ?_
    exact spec_pure fun _ hs => ⟨hs.1, hs.2 due⟩
  | notarize goes =>
    refine spec_bind ((processAllPendingBlocks_settled h₀ fuel).weaken
      (fun _ hs => (hs.2 goes).1) fun _ _ hs => hs) fun _ => ?_
    exact spec_pure fun _ hs => hs
  | vote goes due => exact spec_pure fun _ hs => ⟨(hs.2 goes).1, (hs.2 goes).2.2.2 due⟩

theorem handleNullification_spec (h₀ : s₀.WF A) {n : Nullification P}
    (ha : A.admits s₁.signed (.nullification n)) :
    KeepsPromise A s₀ s₁ (handleNullification n) := by
  intro vm₀ hat
  refine handleNullification_rule (M := fun _ vm => At A s₀ (s₁.withManager vm) ∧
      vm.viewChain.currentView = vm₀.viewChain.currentView) hat.ahead (hat.wf h₀).peers ?_ ?_
  · refine ends_onChain ((routeNullification_spec ha vm₀.viewChain rfl).conseq ?_ ?_ ?_)
    · exact fun r ch h => ⟨hat.chainSteps h.1, ViewChain.Steps.currentView h.1⟩
    · exact fun ch h => hat.chainSteps h
    · exact fun ch h => hat.chainSteps h
  rintro broadcast vm ⟨hat, hcur⟩ x hx
  cases hx with
  | plain h => exact hat.promised h
  | cascade => exact hat
  | forward => exact hat
  | skip hview leader =>
    have hp : ∀ c, vm.viewChain.findViewContext vm.viewChain.currentView = some c →
        c.nullification.isSome = true →
        (∃ m, c.mNotarization = some m ∧ vm.viewChain.selectParent (n.view + 1) = m.blockHash) ∨
          (c.hasNullified = true ∧ vm.viewChain.selectParent (n.view + 1) =
            vm.viewChain.selectParent (vm.viewChain.currentView + 1)) := by
      intro c hc hn
      obtain ⟨n', hn⟩ := isSome_iff_exists.mp hn
      refine .inr ⟨(((hat.wf h₀).chain.context _ c hc).nullification n' hn).1, ?_⟩
      rw [hview, hcur]
    have hleft : ∀ c, vm.viewChain.findViewContext vm.viewChain.currentView = some c →
        c.nullification.isSome = true →
        c.hasCertificate = true ∨ ∃ v, (v, vm.viewChain) ∈ s₁.cascades :=
      fun c _ hn => .inl (by rw [hasCertificate, hn, Bool.or_true])
    refine spec_bind (openView_spec (n.view + 1) _ ⟨_, fun _ _ => rfl⟩
      (fun s => ⟨.refl, rfl, fun _ => rfl, fun _ => rfl⟩) hat hp hleft)
      (fun _ => spec_pure ?_) vm rfl
    rintro vm' ⟨hat', hnew, -, hent, -⟩
    exact ⟨hat', hnew ▸ hent⟩

/-! ## Block recovery -/

theorem handleBlockRecoveryRequest_spec {blockHash : Hash P} :
    KeepsPromise A s₀ s₁ (handleBlockRecoveryRequest view blockHash) :=
  fun _ hat => handleBlockRecoveryRequest_rule (fun _ => hat) (fun _ => ⟨hat, trivial⟩) hat

theorem handleBlockRecoveryResponse_spec (h₀ : s₀.WF A) {b : Block P}
    (ha : A.admits s₁.signed (.blockRecoveryResponse view b)) :
    KeepsPromise A s₀ s₁ (handleBlockRecoveryResponse view b) := by
  intro vm hat
  refine handleBlockRecoveryResponse_rule (M := fun vm => At A s₀ (s₁.withManager vm))
    (ends_onChain ((addRecoveredBlock_spec ha (hat.ready h₀) vm.viewChain rfl).conseq
      ?_ ?_ ?_)) fun vm' cooldowns hat' => ?_
  · exact fun _ ch h => hat.chainSteps h
  · rintro ch rfl
    exact hat
  · rintro ch rfl
    exact hat
  · have hnext := hat'.step
      (.recovery cooldowns vm'.canonicalRecoveryPending vm'.viewChain.pendingCanonicalRecovery)
    exact ⟨hnext, fun _ h => hnext.promised h⟩

/-- **Every message handler keeps its promise.** -/
theorem processConsensusMsg_spec (h₀ : s₀.WF A) {m : ConsensusMessage P}
    (ha : A.admits s₁.signed m) :
    KeepsPromise A s₀ s₁ (processConsensusMsg fuel m) := by
  cases m with
  | blockProposal b => exact handleBlockProposal_spec h₀ ha
  | vote v => exact handleVote_spec h₀ ha
  | nullify n => exact handleNullify_spec h₀ ha
  | mNotarization m =>
    exact fun vm hat => handleMNotarization_spec h₀ hat (fun _ _ _ => ha) vm rfl
  | nullification n => exact handleNullification_spec h₀ ha
  | blockRecoveryRequest view blockHash => exact handleBlockRecoveryRequest_spec
  | blockRecoveryResponse view b => exact handleBlockRecoveryResponse_spec h₀ ha

/-! ## Cascades and ticks -/

theorem progressAfterCascade_spec {newView : Nat} (h₀ : s₀.WF A)
    (hat : At A s₀ (s₁.withManager vm₀)) (hnew : newView = vm₀.viewChain.currentView + 1)
    (hcascade : ∃ v, (v, vm₀.viewChain) ∈ s₁.cascades) :
    Spec (· = vm₀) (progressAfterCascade newView)
      (fun r vm => At A s₀ (s₁.withManager vm) ∧ (newView, r.2) ∈ vm.entered)
      (fun vm => At A s₀ (s₁.withManager vm)) (fun vm => At A s₀ (s₁.withManager vm)) := by
  refine spec_get_bind ?_
  rintro vm rfl
  have hp : ∀ c, vm.viewChain.findViewContext vm.viewChain.currentView = some c →
      c.isNullified = true →
      (∃ m, c.mNotarization = some m ∧ vm.viewChain.selectParent newView = m.blockHash) ∨
        (c.hasNullified = true ∧ vm.viewChain.selectParent newView =
          vm.viewChain.selectParent (vm.viewChain.currentView + 1)) := by
    intro c hc hnull
    refine .inr ⟨?_, by rw [hnew]⟩
    simp only [isNullified, Bool.or_eq_true] at hnull
    rcases hnull with hsome | hflag
    · obtain ⟨n, hn⟩ := isSome_iff_exists.mp hsome
      exact (((hat.wf h₀).chain.context _ c hc).nullification n hn).1
    · exact hflag
  refine spec_bind ((openView_spec newView _ ⟨_, fun _ _ => rfl⟩
    (fun s => ⟨.refl, rfl, fun _ => rfl, fun _ => rfl⟩) hat hp
    (fun _ _ _ => .inr hcascade)).weaken (fun _ h => h.1) fun _ _ h => h) fun _ => ?_
  refine spec_pure ?_
  rintro vm' ⟨hat', -, -, hent, -⟩
  exact ⟨hat', hnew ▸ hent⟩

theorem tick_spec (h₀ : s₀.WF A) {env : Env P} {now : Nat} :
    KeepsPromise A s₀ s₁ (tick env now) := by
  intro vm hat
  have hrec : ∀ pending cooldowns, At A s₀ (s₁.withManager { vm with
      canonicalRecoveryPending := pending, blockRecoveryCooldowns := cooldowns }) :=
    fun pending cooldowns => hat.step
      (.recovery cooldowns pending vm.viewChain.pendingCanonicalRecovery)
  refine tick_rule (fun pending _ => hrec pending _) fun pending cooldowns c event hc hevent => ?_
  have hwf := hat.wf h₀
  have hview : c.viewNumber = vm.viewChain.currentView := hwf.chain.viewNumber _ c hc
  have hctx := hwf.chain.context _ c hc
  have hdue : ∀ {hash}, (!c.hasVoted && !c.hasNullified) = true → c.Anchored hash →
      (s₁.withManager { vm with
        canonicalRecoveryPending := pending
        blockRecoveryCooldowns := cooldowns }).VoteDue c.viewNumber hash := by
    intro hash hidle hanchor c' hc'
    rw [hview] at hc'
    obtain rfl := some.inj (hc.symm.trans hc')
    simp only [Bool.and_eq_true, Bool.not_eq_true'] at hidle
    exact ⟨hidle.1, hidle.2, hanchor⟩
  cases hevent with
  | plain h => exact (hrec pending cooldowns).promised h
  | propose =>
    refine ⟨hrec pending cooldowns, ?_⟩
    rw [hview]
    exact hwf.entered _ c hc
  | voteBlock idle hb =>
    exact ⟨hrec pending cooldowns,
      hdue idle ⟨hctx.block_hash _ hb, .inl (by rw [hb]; rfl)⟩⟩
  | voteCertified idle hm =>
    exact ⟨hrec pending cooldowns,
      hdue idle ⟨hctx.mNotarization_hash _ hm, .inr (by rw [hm]; rfl)⟩⟩

end ViewProgressManager

end Minimmit
