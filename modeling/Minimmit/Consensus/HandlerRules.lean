/-
Minimmit.Consensus.HandlerRules — what the manager makes of an answer.

A handler asks the chain and reacts to the answer: it returns an event, at
once or after it has tried the waiting blocks or has opened the next view. The
reactions of each handler are a table with one row per branch of the source
(`VoteReaction` and the others), and each handler has one rule: a triple for
the call of the chain and one for every row give the triple of the handler.
Everything that is proved of the handlers is proved by these rules, so a
property says what it makes of a row and never walks through the branches.
-/
import Minimmit.Consensus.ViewManager

namespace Minimmit

open Minimmit.Library Act ViewChain Option List

variable {P : Params}

namespace ViewProgressManager

/-- What is left to do when the chain has answered. -/
inductive Reaction (P : Params) where
  | done (event : ViewProgressEvent P)
  /-- The waiting blocks are tried first. -/
  | pending (event : ViewProgressEvent P)
  /-- The view is left on its M-notarization and finalized if it can be. -/
  | leave (view : Nat) (blockHash : Hash P) (event : ViewProgressEvent P)
  /-- The view is left on its nullification. -/
  | skip (view : Nat) (parentHash : Hash P) (event : ViewProgressEvent P)

/-- The next view is opened on an M-notarization, and the view left behind
finalized; an error of that is dropped. -/
def leaveView (view : Nat) (blockHash : Hash P) : Op P (Except (ConsensusError P) Unit) := do
  openView (view + 1) blockHash ViewChain.progressWithMNotarization
  Act.attempt (finalizeView view)

/-- Do it. -/
def Reaction.run (fuel : Nat) : Reaction P → Op P (ViewProgressEvent P)
  | .done event => return event
  | .pending event => do
    processAllPendingBlocks fuel
    return event
  | .leave view blockHash event => do
    let _ ← leaveView view blockHash
    return event
  | .skip view parentHash event => do
    openView (view + 1) parentHash ViewChain.progressWithNullification
    return event

/-! ## The tables -/

/-- The event rests on nothing that was checked. -/
def Plain : ViewProgressEvent P → Prop
  | .await | .noOp | .shouldNullify _ | .shouldNullifyRange _ | .shouldFinalize _ _
  | .shouldRequestBlock _ _ | .shouldRequestBlocks _ => True
  | _ => False

/-- The reactions to an added proposal. -/
inductive ProposalReaction (view : Nat) (r : LeaderProposalResult P) : Reaction P → Prop
  | plain {e} (plain : Plain e) : ProposalReaction view r (.done e)
  | voteAndFinalize (due : r.shouldVote = true) :
    ProposalReaction view r (.done (.shouldVoteAndFinalize view r.blockHash))
  | voteAndNotarize (enough : r.isEnoughToMNotarize = true) (due : r.shouldVote = true) :
    ProposalReaction view r (.pending (.shouldVoteAndMNotarize view r.blockHash true))
  | notarize (enough : r.isEnoughToMNotarize = true) :
    ProposalReaction view r (.done (.shouldMNotarize view r.blockHash true))
  | vote (due : r.shouldVote = true) :
    ProposalReaction view r (.done (.shouldVote view r.blockHash))

/-- The reactions to a vote. -/
inductive VoteReaction (vote : Vote P) (r : CollectedVotesResult) : Reaction P → Prop
  | plain {e} (plain : Plain e) : VoteReaction vote r (.done e)
  | voteAndNotarize (enough : r.isEnoughToMNotarize = true) (goes : r.shouldAwait = false)
      (due : r.shouldVote = true) :
    VoteReaction vote r (.pending (.shouldVoteAndMNotarize vote.view vote.blockHash true))
  | vote (goes : r.shouldAwait = false) (due : r.shouldVote = true) :
    VoteReaction vote r (.done (.shouldVote vote.view vote.blockHash))
  | voteAndFinalize (goes : r.shouldAwait = false) (due : r.shouldVote = true) :
    VoteReaction vote r (.done (.shouldVoteAndFinalize vote.view vote.blockHash))
  | notarize (enough : r.isEnoughToMNotarize = true) :
    VoteReaction vote r (.pending (.shouldMNotarize vote.view vote.blockHash true))

/-- The reactions to a nullify message; `has` says whether the view now has a
nullification. -/
inductive NullifyReaction (view : Nat) (has : Bool) : Reaction P → Prop
  | plain {e} (plain : Plain e) : NullifyReaction view has (.done e)
  | cascade (held : has = true) : NullifyReaction view has (.done (.shouldCascadeNullification view true))
  | broadcast (held : has = true) :
    NullifyReaction view has (.done (.shouldBroadcastNullification view))

/-- The reactions to an M-notarization in view `now`. -/
inductive MNotarizationReaction (m : MNotarization P) (now : Nat) (r : ShouldMNotarize) :
    Reaction P → Prop
  | plain {e} (plain : Plain e) (goes : r.shouldNullify = false ∨ r.shouldAwait = true) :
    MNotarizationReaction m now r (.done e)
  | nullify (refused : r.shouldNullify = true) :
    MNotarizationReaction m now r (.done (.shouldNullifyView m.view))
  | voteAndLeave (goes : r.shouldNullify = false) (current : m.view = now)
      (due : r.shouldVote = true) (leader : Nat) :
    MNotarizationReaction m now r (.leave m.view m.blockHash
      (.shouldVoteAndProgressToNextView m.view m.blockHash (m.view + 1) leader r.shouldForward))
  | leave (goes : r.shouldNullify = false) (current : m.view = now) (leader : Nat) :
    MNotarizationReaction m now r (.leave m.view m.blockHash
      (.progressToNextView (m.view + 1) leader m.blockHash r.shouldForward))
  | voteAndNotarize (goes : r.shouldNullify = false) (enough : r.shouldNotarize = true)
      (due : r.shouldVote = true) :
    MNotarizationReaction m now r
      (.pending (.shouldVoteAndMNotarize m.view m.blockHash r.shouldForward))
  | notarize (goes : r.shouldNullify = false) (enough : r.shouldNotarize = true) :
    MNotarizationReaction m now r (.pending (.shouldMNotarize m.view m.blockHash r.shouldForward))
  | vote (goes : r.shouldNullify = false) (due : r.shouldVote = true) :
    MNotarizationReaction m now r (.done (.shouldVote m.view m.blockHash))

/-- The reactions to a nullification in view `now`; `parent` is the parent of
the next view. -/
inductive NullificationReaction (view now : Nat) (broadcast : Bool) (parent : Hash P) :
    Reaction P → Prop
  | plain {e} (plain : Plain e) : NullificationReaction view now broadcast parent (.done e)
  | cascade (new : broadcast = true) : NullificationReaction view now broadcast parent
      (.done (.shouldCascadeNullification view broadcast))
  | skip (current : view = now) (leader : Nat) : NullificationReaction view now broadcast parent
      (.skip view parent (.progressToNextViewOnNullification (view + 1) leader parent broadcast))
  | forward (new : broadcast = true) : NullificationReaction view now broadcast parent
      (.done (.shouldBroadcastNullification view))

/-- The events of a tick that reads the context `c` of the current view. -/
inductive TickEvent (c : ViewContext P) : ViewProgressEvent P → Prop
  | plain {e} (plain : Plain e) : TickEvent c e
  | propose : TickEvent c (.shouldProposeBlock c.viewNumber c.parentBlockHash)
  | voteBlock (idle : (!c.hasVoted && !c.hasNullified) = true) {block : Block P}
      (held : c.block = some block) : TickEvent c (.shouldVote c.viewNumber block.getHash)
  | voteCertified (idle : (!c.hasVoted && !c.hasNullified) = true) {m : MNotarization P}
      (held : c.mNotarization = some m) : TickEvent c (.shouldVote c.viewNumber m.blockHash)

/-! ## Opening a view -/

section Open

variable {newView : Nat} {parent : Hash P} {progress : ViewContext P → ViewChain.Op P Unit}
  {ready : ViewContext P → Bool} {before : ViewChain P → ViewChain P} {vm : ViewProgressManager P}

/-- One of the functions that progress to the next view. -/
def Progresses (progress : ViewContext P → ViewChain.Op P Unit) (ready : ViewContext P → Bool)
    (before : ViewChain P → ViewChain P) : Prop :=
  ∃ refused, ∀ next s, progress next s = ViewChain.progressIf ready refused before next s

/-- The manager after the next view was opened. -/
def opened (newView : Nat) (parent : Hash P) (before : ViewChain P → ViewChain P)
    (vm : ViewProgressManager P) : ViewProgressManager P :=
  { vm with
    viewChain := (before vm.viewChain).enterView
      (.new newView (vm.peers.leaderForView newView) vm.replicaId parent)
    entered := vm.entered ++ [(newView, parent)] }

theorem openView_rule {Q : Unit → ViewProgressManager P → Prop} {E : ViewProgressManager P → Prop}
    {B : Abort → ViewProgressManager P → Prop} (hprogress : Progresses progress ready before)
    (hpanic : vm.viewChain.findViewContext vm.viewChain.currentView = none ∨
      u64Size ≤ vm.viewChain.currentView + 1 → B .panic vm) (hrefused : E vm)
    (hopen : vm.viewChain.currentView + 1 < u64Size → newView = vm.viewChain.currentView + 1 →
      ∀ c, vm.viewChain.findViewContext vm.viewChain.currentView = some c → ready c = true →
        Q () (vm.opened newView parent before)) :
    EndsBy (openView newView parent progress vm) Q E B := by
  obtain ⟨refused, hprogress⟩ := hprogress
  unfold openView
  simp only [bind_run, get_run, onChain, Act.zoom, hprogress, progressIf]
  by_cases hlt : u64Size ≤ vm.viewChain.currentView + 1
  · rw [if_pos hlt]
    exact hpanic (.inr hlt)
  rw [if_neg hlt]
  by_cases hnext : (ViewContext.new newView (vm.peers.leaderForView newView) vm.replicaId
      parent).viewNumber = vm.viewChain.currentView + 1
  · rw [if_neg (not_not.mpr hnext)]
    rcases hc : vm.viewChain.findViewContext vm.viewChain.currentView with _ | c
    · exact hpanic (.inl hc)
    cases hready : ready c with
    | true =>
      simp only [hready, Bool.not_true, Bool.false_eq_true, if_false]
      exact hopen (Nat.lt_of_not_le hlt) hnext c hc hready
    | false =>
      simp only [hready, Bool.not_false, if_true]
      exact hrefused
  · rw [if_pos hnext]
    exact hrefused

end Open

/-! ## The rules -/

variable {Q : ViewProgressEvent P → ViewProgressManager P → Prop}
  {E I : ViewProgressManager P → Prop} {B : Abort → ViewProgressManager P → Prop}
  {fuel view : Nat} {vm : ViewProgressManager P} {peers : PeerSet P}

/-- The chain is asked, and then the reaction follows. -/
theorem asked {α β : Type} {op : Op P α} {f : α → Op P β} {Q : β → ViewProgressManager P → Prop}
    {M : α → ViewProgressManager P → Prop} (hop : EndsBy (op vm) M E B)
    (hf : ∀ r, Triple (M r) (f r) Q E B) : EndsBy ((op >>= f) vm) Q E B := by
  refine triple_bind (P := (· = vm)) ?_ hf vm rfl
  rintro _ rfl
  exact hop

/-- What a message of a later view leads to: it waits for the view, or it
names another leader. -/
structure Ahead (view : Nat) (vm : ViewProgressManager P)
    (Q : ViewProgressEvent P → ViewProgressManager P → Prop) (E : ViewProgressManager P → Prop) :
    Prop where
  waits : vm.viewChain.currentView < view →
    Q (.shouldUpdateView view (vm.peers.leaderForView view)) vm
  refused : E vm

theorem Ahead.rule (h : Ahead view vm Q E) {claimed : Nat} {error : ConsensusError P}
    {rest : Op P (ViewProgressEvent P)}
    (hrest : view ≤ vm.viewChain.currentView → EndsBy (rest vm) Q E B) :
    Triple (fun s => s = vm ∧ s = vm)
      (if vm.viewChain.currentView < view then
        if vm.peers.leaderForView view ≠ claimed then Act.throw error
        else return .shouldUpdateView view (vm.peers.leaderForView view)
      else rest) Q E B := by
  rintro _ ⟨rfl, -⟩
  split
  case isTrue hlt =>
    split
    · exact h.refused
    · exact h.waits hlt
  case isFalse hle => exact hrest (not_lt.mp hle)

theorem proposalEvent_rule {r : LeaderProposalResult P}
    (hreact : ∀ x, ProposalReaction view r x → Triple I (x.run fuel) Q E B) :
    Triple I (proposalEvent fuel view r) Q E B := by
  have hplain : ∀ event, Plain event → Triple I (pure event : Op P _) Q E B :=
    fun _ h => hreact _ (.plain h)
  unfold proposalEvent
  refine triple_ite (fun _ => hplain _ trivial) fun _ => ?_
  refine triple_ite (fun _ => hplain _ trivial) fun _ => ?_
  refine triple_ite (fun h => hreact _ (.voteAndFinalize (Bool.and_eq_true_iff.mp h).2)) fun _ => ?_
  refine triple_ite (fun h => hreact _ (.voteAndNotarize (Bool.and_eq_true_iff.mp h).1
    (Bool.and_eq_true_iff.mp h).2)) fun _ => ?_
  refine triple_ite (fun _ => hplain _ trivial) fun _ => ?_
  refine triple_ite (fun h => hreact _ (.notarize h)) fun _ => ?_
  exact triple_ite (fun h => hreact _ (.vote h)) fun _ => hplain _ trivial

/-- A block is validated, noted and added. -/
theorem handleBlockProposal_rule {b : Block P}
    {M : LeaderProposalResult P → ViewProgressManager P → Prop} (hahead : Ahead b.view vm Q E)
    (hpeers : vm.peers = peers) (hinvalid : Q (.shouldNullify b.view) vm)
    (hpanic : validateBlock vm.viewChain.persistenceWriter.getAccount b = .panic → B .panic vm)
    (hexhausted : B .exhausted vm)
    (hadd : ∀ d, validateBlock vm.viewChain.persistenceWriter.getAccount b = .ok d →
      EndsBy (onChain (addBlockProposal b.view b d peers)
        { vm with validated := vm.validated ++ [(b, d)] }) M E B)
    (hevent : ∀ r, Triple (M r) (proposalEvent fuel b.view r) Q E B) :
    EndsBy (handleBlockProposal fuel b vm) Q E B := by
  subst hpeers
  refine triple_get_bind (P := (· = vm)) ?_ vm rfl
  rintro vm rfl
  refine hahead.rule fun _ => ?_
  cases hval : validateBlock vm.viewChain.persistenceWriter.getAccount b with
  | panic => exact hpanic hval
  | exhausted => exact hexhausted
  | err _ => exact hinvalid
  | ok d =>
    have hadded := asked (hadd d hval) hevent
    exact hadded

theorem handleVote_rule {vote : Vote P} {M : CollectedVotesResult → ViewProgressManager P → Prop}
    (hahead : Ahead vote.view vm Q E)
    (hpeers : vm.peers = peers)
    (hroute : EndsBy (onChain (routeVote vote peers) vm) M E B)
    (hreact : ∀ r x, VoteReaction vote r x → Triple (M r) (x.run fuel) Q E B) :
    EndsBy (handleVote fuel vote vm) Q E B := by
  subst hpeers
  refine triple_get_bind (P := (· = vm)) ?_ vm rfl
  rintro vm rfl _ ⟨rfl, -⟩
  refine triple_ite (P := (· = _)) (fun hlt => ?_) (fun _ => ?_) _ rfl
  · exact triple_pure fun _ h => h ▸ hahead.waits hlt
  rintro _ rfl
  refine asked hroute fun r => ?_
  have hplain : ∀ event, Plain event → Triple (M r) (pure event : Op P _) Q E B :=
    fun _ h => hreact r _ (.plain h)
  refine triple_ite (fun _ => hplain _ trivial) fun hgoes => ?_
  have hgoes : r.shouldAwait = false := by simpa using hgoes
  refine triple_ite (fun _ => triple_ite (fun _ => hplain _ trivial) fun _ =>
    hplain _ trivial) fun _ => ?_
  refine triple_ite (fun h => hreact r _ (.voteAndNotarize (Bool.and_eq_true_iff.mp h).1 hgoes
    (Bool.and_eq_true_iff.mp h).2)) fun _ => ?_
  refine triple_ite (fun h => triple_ite
    (fun _ => hreact r _ (.vote hgoes (Bool.and_eq_true_iff.mp h).2)) fun _ =>
      hreact r _ (.voteAndFinalize hgoes (Bool.and_eq_true_iff.mp h).2)) fun _ => ?_
  refine triple_ite (fun h => hreact r _ (.notarize h)) fun _ => ?_
  refine triple_ite (fun _ => triple_ite (fun _ => hplain _ trivial) fun _ =>
    hplain _ trivial) fun _ => ?_
  exact triple_ite (fun h => hreact r _ (.vote hgoes h)) fun _ => hplain _ trivial

variable {M : Bool → ViewProgressManager P → Prop}

theorem handleNullify_rule {n : Nullify P} (hahead : Ahead n.view vm Q E)
    (hpeers : vm.peers = peers)
    (hroute : EndsBy (onChain (routeNullify n peers) vm) M E B)
    (hreact : ∀ has x, NullifyReaction n.view has x → Triple (M has) (x.run 0) Q E B) :
    EndsBy (handleNullify n vm) Q E B := by
  subst hpeers
  refine triple_get_bind (P := (· = vm)) ?_ vm rfl
  rintro vm rfl
  refine hahead.rule fun _ => asked hroute fun has => ?_
  refine triple_ite (fun hhas => triple_get_bind fun vm' _ => ?_) fun _ =>
    hreact has _ (.plain (e := .noOp) trivial)
  refine Triple.weaken (P := M has) ?_ (fun _ h => h.2) fun _ _ h => h
  exact triple_ite (fun _ => hreact has _ (.cascade hhas)) fun _ => hreact has _ (.broadcast hhas)

theorem handleMNotarization_rule {m : MNotarization P}
    {M : ShouldMNotarize → ViewProgressManager P → Prop} (hahead : Ahead m.view vm Q E)
    (hpeers : vm.peers = peers)
    (hroute : EndsBy (onChain (routeMNotarization m peers) vm) M E B)
    (hreact : ∀ r x, MNotarizationReaction m vm.viewChain.currentView r x →
      Triple (M r) (x.run fuel) Q E B) :
    EndsBy (handleMNotarization fuel m vm) Q E B := by
  subst hpeers
  refine triple_get_bind (P := (· = vm)) ?_ vm rfl
  rintro vm rfl
  refine hahead.rule fun _ => asked hroute fun r => ?_
  refine triple_ite (fun h => hreact r _ (.plain (e := .await) trivial (Or.inr h))) fun _ => ?_
  refine triple_ite (fun h => hreact r _ (.nullify h)) fun hgoes => ?_
  have hgoes : r.shouldNullify = false := by simpa using hgoes
  refine triple_ite (fun hcur => ?_) fun _ => ?_
  · rw [← Act.bind_bind]
    intro vm' hMid
    cases hvote : r.shouldVote with
    | true => exact hreact r _ (.voteAndLeave hgoes hcur hvote _) vm' hMid
    | false => exact hreact r _ (.leave hgoes hcur _) vm' hMid
  refine triple_ite (fun h => hreact r _ (.voteAndNotarize hgoes (Bool.and_eq_true_iff.mp h).1
    (Bool.and_eq_true_iff.mp h).2)) fun _ => ?_
  refine triple_ite (fun h => hreact r _ (.notarize hgoes h)) fun _ => ?_
  exact triple_ite (fun h => hreact r _ (.vote hgoes h)) fun _ =>
    hreact r _ (.plain (e := .noOp) trivial (Or.inl hgoes))

theorem handleNullification_rule {n : Nullification P} (hahead : Ahead n.view vm Q E)
    (hpeers : vm.peers = peers)
    (hroute : EndsBy (onChain (routeNullification n peers) vm) M E B)
    (hreact : ∀ broadcast vm', M broadcast vm' → ∀ x, NullificationReaction n.view
      vm.viewChain.currentView broadcast (vm'.viewChain.selectParent (n.view + 1)) x →
        EndsBy (x.run 0 vm') Q E B) :
    EndsBy (handleNullification n vm) Q E B := by
  subst hpeers
  refine triple_get_bind (P := (· = vm)) ?_ vm rfl
  rintro vm rfl
  refine hahead.rule fun _ => asked hroute fun broadcast => ?_
  refine triple_get_bind fun vm' hMid => ?_
  have hrow := hreact broadcast vm' hMid
  refine triple_ite (fun h => ?_) fun _ => triple_ite (fun h => ?_) fun _ =>
    triple_ite (fun h => ?_) fun _ => ?_
  · exact fun _ hvm => hvm.1 ▸ hrow _ (.cascade h.2.1)
  · exact fun _ hvm => hvm.1 ▸ hrow _ (.skip h _)
  · exact fun _ hvm => hvm.1 ▸ hrow _ (.forward h)
  · exact fun _ hvm => hvm.1 ▸ hrow _ (.plain (e := .shouldNullify n.view) trivial)

/-- A property that the parts of the reactions keep is kept by them. -/
theorem Reaction.keeps {J : ViewProgressManager P → Prop}
    (hpending : Triple J (processAllPendingBlocks fuel) (fun _ => J) J B)
    (hleave : ∀ view h, Triple J (leaveView view h) (fun _ => J) J B)
    (hskip : ∀ view h, Triple J (openView view h progressWithNullification)
      (fun _ => J) J B) (x : Reaction P) : Triple J (x.run fuel) (fun _ => J) J B := by
  have hreturn : ∀ event, Triple J (pure event : Op P (ViewProgressEvent P)) (fun _ => J) J B :=
    fun _ => triple_pure fun _ h => h
  cases x with
  | done event => exact hreturn event
  | pending event => exact triple_bind hpending fun _ => hreturn event
  | leave view h event => exact triple_bind (hleave view h) fun _ => hreturn event
  | skip view h event => exact triple_bind (hskip _ h) fun _ => hreturn event

/-! ## Recovery and ticks -/

/-- Looking for the responder changes nothing, and panics only past the last
view. -/
theorem isResponder_ends (offsets : List Nat) (vm : ViewProgressManager P) :
    EndsBy (isResponder view offsets vm) (fun _ vm' => vm' = vm) (fun _ => False)
      fun k vm' => vm' = vm ∧ k = .panic ∧ ∃ i ∈ offsets, u64Size ≤ view + i := by
  induction offsets with
  | nil => exact rfl
  | cons i offsets ih =>
    refine triple_get_bind (P := (· = vm)) ?_ vm rfl
    rintro vm rfl _ ⟨rfl, -⟩
    split
    case isTrue hle => exact ⟨rfl, rfl, i, mem_cons_self, hle⟩
    case isFalse =>
      split
      · exact rfl
      · refine ih.conseq (fun _ _ h => h) (fun _ h => h) fun _ _ h => ⟨h.1, h.2.1, ?_⟩
        obtain ⟨j, hj, hle⟩ := h.2.2
        exact ⟨j, mem_cons_of_mem _ hj, hle⟩

/-- A recovery request changes nothing. -/
theorem handleBlockRecoveryRequest_rule {blockHash : Hash P}
    (hpanic : u64Size ≤ view + P.F → B .panic vm)
    (hanswer : ∀ block, Q (.broadcastConsensusMessage (.blockRecoveryResponse view block)) vm)
    (hnoOp : Q .noOp vm) : EndsBy (handleBlockRecoveryRequest view blockHash vm) Q E B := by
  refine asked (M := fun _ vm' => vm' = vm) ((isResponder_ends _ vm).conseq (fun _ _ h => h)
    (fun _ h => h.elim) ?_) fun responder => ?_
  · rintro _ _ ⟨rfl, rfl, i, hi, hle⟩
    have hlt := mem_range.mp hi
    exact hpanic (by omega)
  refine triple_ite (fun _ => triple_get_bind fun vm' _ => ?_) fun _ =>
    triple_pure fun _ h => h ▸ hnoOp
  cases vm'.viewChain.getBlockForRecovery view blockHash with
  | some block => exact triple_pure fun _ h => h.2 ▸ hanswer block
  | none => exact triple_pure fun _ h => h.2 ▸ hnoOp

/-- A recovered block is added or not, and the request is forgotten. -/
theorem handleBlockRecoveryResponse_rule {b : Block P} {M : ViewProgressManager P → Prop}
    (hadd : EndsBy (onChain (addRecoveredBlock view b) vm) (fun _ => M) M B)
    (hreact : ∀ vm' cooldowns, M vm' → E { vm' with blockRecoveryCooldowns := cooldowns } ∧
      ∀ event, Plain event → Q event { vm' with blockRecoveryCooldowns := cooldowns }) :
    EndsBy (handleBlockRecoveryResponse view b vm) Q E B := by
  have hadd : Triple (· = vm) (onChain (addRecoveredBlock view b)) (fun _ => M) M
      B := fun _ h => h ▸ hadd
  refine asked (M := fun _ => M) ((triple_attempt hadd vm rfl).conseq ?_ (fun _ h => h)
    fun _ _ h => h) fun result => ?_
  · rintro (_ | _) _ h
    · exact h
    · exact h
  refine triple_bind (Q := fun _ vm' => E vm' ∧ ∀ event, Plain event → Q event vm')
    (triple_modify fun vm' => hreact vm' _) fun _ => triple_get_bind fun vm' _ => ?_
  have hplain : ∀ event, Plain event → Triple (fun s => s = vm' ∧ E s ∧
      ∀ event, Plain event → Q event s) (pure event : Op P _) Q E B :=
    fun event h => triple_pure fun _ hs => hs.2.2 event h
  split
  · exact hplain _ trivial
  · split
    · exact hplain _ trivial
    · exact triple_throw fun _ hs => hs.2.1
  · split <;> exact hplain _ trivial

theorem tickCurrent_event {env : Env P} {now : Nat} {c : ViewContext P}
    {event : ViewProgressEvent P} (h : tickCurrent env now vm c = some event) :
    TickEvent c event := by
  unfold tickCurrent at h
  split at h
  · exact some.inj h ▸ .propose
  dsimp only at h
  split at h
  case h_1 block hb =>
    split at hb
    case isTrue hidle => exact some.inj h ▸ .voteBlock hidle hb
    case isFalse => cases hb
  split at h
  case h_1 m hm =>
    split at hm
    case isTrue hidle => exact some.inj h ▸ .voteCertified (Bool.and_eq_true_iff.mp hidle).1 hm
    case isFalse => cases hm
  split at h
  · exact some.inj h ▸ .plain trivial
  split at h
  · exact some.inj h ▸ .plain trivial
  split at h
  · exact some.inj h ▸ .plain trivial
  · cases h

/-- A tick changes only what is kept for the recovery of blocks. -/
theorem tick_rule {env : Env P} {now : Nat}
    (hpanic : ∀ pending, vm.viewChain.findViewContext vm.viewChain.currentView = none →
      B .panic { vm with canonicalRecoveryPending := pending })
    (hevent : ∀ pending cooldowns c event,
      vm.viewChain.findViewContext vm.viewChain.currentView = some c → TickEvent c event →
        Q event { vm with canonicalRecoveryPending := pending
                          blockRecoveryCooldowns := cooldowns }) :
    EndsBy (tick env now vm) Q E B := by
  refine asked (M := fun _ vm' => ∃ pending, vm' = { vm with canonicalRecoveryPending := pending })
    ⟨_, rfl⟩ fun _ => ?_
  rintro _ ⟨pending, rfl⟩
  refine asked (M := fun c vm' => vm' = { vm with canonicalRecoveryPending := pending } ∧
    vm.viewChain.findViewContext vm.viewChain.currentView = some c) ?_ fun c => ?_
  · unfold current
    split
    case h_1 c hc => exact ⟨rfl, hc⟩
    case h_2 hnone => exact hpanic pending hnone
  rintro _ ⟨rfl, hc⟩
  have hrow := fun cooldowns event => hevent pending cooldowns c event hc
  refine triple_get_bind (P := (· = _)) (fun vm₁ h₁ => ?_) _ rfl
  cases hpast : timedOutPastView env now vm₁ c with
  | some _ => exact triple_pure fun _ h => (h.1.trans h₁) ▸ hrow _ _ (.plain trivial)
  | none =>
    cases htick : tickCurrent env now vm₁ c with
    | some event =>
      rw [h₁] at htick
      exact triple_pure fun _ h => (h.1.trans h₁) ▸ hrow _ _ (tickCurrent_event htick)
    | none =>
      refine triple_bind (Q := fun _ vm' => ∃ cooldowns, vm' = { vm with
        canonicalRecoveryPending := pending, blockRecoveryCooldowns := cooldowns }) ?_ ?_
      · rintro _ ⟨rfl, -⟩
        exact ⟨_, by rw [h₁]⟩
      rintro requests _ ⟨cooldowns, rfl⟩
      match requests with
      | [_] => exact hrow _ _ (.plain trivial)
      | [] =>
        refine triple_ite (P := (· = _)) (fun _ => ?_) (fun _ => ?_) _ rfl
        · exact triple_pure fun _ h => h ▸ hrow _ _ (.plain trivial)
        · exact triple_pure fun _ h => h ▸ hrow _ _ (.plain trivial)
      | _ :: _ :: _ => exact hrow _ _ (.plain trivial)

end ViewProgressManager

end Minimmit
