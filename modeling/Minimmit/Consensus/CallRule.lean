/-
Minimmit.Consensus.CallRule — a property of one context, along every run.

A context changes only when it is called. A `CallRule` says which calls keep a
property `K` of contexts: those that meet `ok` on the context they find. From
it follows what the manager keeps of all the contexts it holds, and held when
it finalized (`Upholds`): a message is asked only for the call it makes itself
(`ConsensusMessage.Finds`), since a waiting block has to meet `ok` on every
context and the other calls carry nothing from outside. `upholds_rules` takes
it to the runs of a replica.
-/
import Minimmit.Consensus.ChainCalls
import Minimmit.Consensus.EventRule
import Minimmit.Consensus.Frames

namespace Minimmit

open Minimmit.Library Act ViewContext ViewChain ViewProgressManager List Option

variable {P : Params}

namespace ViewContext

/-- The replica makes the call by itself, with nothing from outside. -/
def Call.Internal : Call P → Prop
  | .createNullifyForTimeout _ | .createNullifyForByzantine _ | .markNullified | .markProposed
  | .takePending => True
  | _ => False

/-- The block meets the condition on every context. -/
def Proposable (ok : ViewContext P → Call P → Prop) (b : Block P) : Prop :=
  ∀ c d, ok c (.addNewViewBlock b d) ∧ ok c (.awaitParent b d)

/-- The calls that meet `ok` keep `K`, which holds of a new context; nothing
is said of the blocks that wait. -/
structure CallKeeps (peers : PeerSet P) (ok : ViewContext P → Call P → Prop)
    (K : Nat → ViewContext P → Prop) : Prop where
  new : ∀ v owner parent, K v (.new v (peers.leaderForView v) owner parent)
  internal : ∀ {c call}, call.Internal → ok c call
  keeps : ∀ {v c} (call : Call P), call.Made c → ok c call → K v c → K v (call.run peers c)

/-- The calls that meet `ok` keep `K`, which holds of a new context. -/
structure CallRule (peers : PeerSet P) (ok : ViewContext P → Call P → Prop)
    (K : Nat → ViewContext P → Prop) : Prop where
  new : ∀ v owner parent, K v (.new v (peers.leaderForView v) owner parent)
  internal : ∀ {c call}, call.Internal → ok c call
  waiting : ∀ {v c b}, K v c → c.pendingBlock = some b → Proposable ok b
  keeps : ∀ {v c} (call : Call P), call.Made c → ok c call → K v c → K v (call.run peers c)

end ViewContext

/-- The call the message makes on the context of its view meets `ok`. -/
def ConsensusMessage.Finds (ok : ViewContext P → Call P → Prop) (chain : ViewChain P) :
    ConsensusMessage P → Prop
  | .blockProposal b => Proposable ok b
  | .vote u => ∀ c, chain.findViewContext u.view = some c → ok c (.addVote u)
  | .nullify n => ∀ c, chain.findViewContext n.view = some c → ok c (.addNullify n)
  | .mNotarization m => ∀ c, chain.findViewContext m.view = some c → ok c (.addMNotarization m)
  | .nullification n => ∀ c, chain.findViewContext n.view = some c → ok c (.addNullification n)
  | .blockRecoveryRequest _ _ => True
  | .blockRecoveryResponse v b =>
    ∀ c, chain.findViewContext v = some c → c.block = none → c.blockHash = some b.getHash →
      ok c (.addRecoveredBlock b)

namespace ViewProgressManager

/-- `K` holds of every context that is held, or was held at a finalization. -/
structure Upholds (peers : PeerSet P) (K : Nat → ViewContext P → Prop) (vm : ViewProgressManager P) :
    Prop where
  peers : vm.peers = peers
  held : vm.viewChain.All K
  logged : ∀ e ∈ vm.finalizations, e.2.All K

variable {peers : PeerSet P} {ok : ViewContext P → ViewContext.Call P → Prop}
  {K : Nat → ViewContext P → Prop}

theorem Upholds.onChain {vm : ViewProgressManager P} (h : vm.Upholds peers K) {chain : ViewChain P}
    (hchain : chain.All K) : Upholds peers K { vm with viewChain := chain } :=
  ⟨h.peers, hchain, h.logged⟩

/-- An operation of the chain that keeps `K`. -/
theorem maintains_onChain {α : Type} {op : ViewChain.Op P α}
    (h : Maintains (ViewChain.All K) op) : Maintains (Upholds peers K) (onChain op) :=
  maintains_zoom h (fun _ hs => hs.held) fun _ _ hs hchain => hs.onChain hchain

end ViewProgressManager

namespace ViewContext

open ViewProgressManager

variable {peers : PeerSet P} {ok : ViewContext P → Call P → Prop} {K : Nat → ViewContext P → Prop}

namespace CallKeeps

/-- The call a function of the chain makes. -/
theorem calls (r : CallKeeps peers ok K) {v : Nat} {allowed : Call P → Prop} {s s' : ViewChain P}
    (h : Calls peers v allowed s s') (hK : s.All K)
    (hok : ∀ c call, s.findViewContext v = some c → call.Made c → allowed call → ok c call) :
    s'.All K :=
  h.all hK fun c call hc hmade hallowed => r.keeps call hmade (hok c call hc hmade hallowed)

/-- A call the replica makes by itself on a held context. -/
theorem setContext (r : CallKeeps peers ok K) {s : ViewChain P} (hK : s.All K) {v : Nat}
    {c : ViewContext P} (hc : s.findViewContext v = some c) (call : Call P) (hmade : call.Made c)
    (hok : ok c call) : (s.setContext v (call.run peers c)).All K :=
  hK.setContext (r.keeps call hmade hok (hK v c hc))

theorem openView (r : CallKeeps peers ok K) {newView : Nat} {parent : Hash P}
    {progress : ViewContext P → ViewChain.Op P Unit} {ready : ViewContext P → Bool}
    {before : ViewChain P → ViewChain P} (hprogress : Progresses progress ready before)
    (hbefore : ∀ s v, (before s).findViewContext v = s.findViewContext v) :
    Maintains (Upholds peers K) (openView newView parent progress) := by
  intro vm hvm
  refine ends_iff_state.mp (openView_rule hprogress (fun _ => hvm) hvm fun _ _ _ _ _ => ?_)
  refine ⟨hvm.peers, All.setContext (s := before vm.viewChain) (fun v c hc => ?_) ?_,
    hvm.logged⟩
  · exact hvm.held v c ((hbefore _ v).symm.trans hc)
  · exact hvm.peers ▸ r.new ..

/-- A finalization is logged with the chain it finds, and removes contexts. -/
theorem finalizeView (_ : CallKeeps peers ok K) (view : Nat) :
    Maintains (Upholds peers K) (finalizeView view) := by
  refine maintains_bind (maintains_modify fun vm hs => ⟨hs.peers, hs.held, ?_⟩) fun _ =>
    maintains_get_bind fun vm _ => maintains_bind (maintains_onChain fun s hs v c hc => ?_)
      fun _ => maintains_modify fun _ hs => ⟨hs.peers, hs.held, hs.logged⟩
  · intro e he
    rcases mem_append.mp he with he | he
    · exact hs.logged e he
    · obtain rfl := mem_singleton.mp he
      exact hs.held
  · exact hs v c ((ViewChain.finalize_prunes view vm.peers s).find v c hc)

/-- A view is left, and finalized if it can be. -/
theorem leaveView (r : CallKeeps peers ok K) (view : Nat) (h : Hash P) :
    Maintains (Upholds peers K) (leaveView view h) := by
  refine maintains_bind (r.openView ⟨_, fun _ _ => rfl⟩ fun s v => ?_) fun _ =>
    maintains_attempt (r.finalizeView view)
  exact ViewChain.findViewContext_onMNotarization s _ v

/-- A view is opened on a nullification. -/
theorem skipView (r : CallKeeps peers ok K) (view : Nat) (h : Hash P) : Maintains (Upholds peers K)
      (ViewProgressManager.openView view h ViewChain.progressWithNullification) :=
  r.openView ⟨_, fun _ _ => rfl⟩ fun _ _ => rfl

theorem tick (_ : CallKeeps peers ok K) (env : Env P) (now : Nat) :
    Leaves (Upholds peers K) (tick env now) (Upholds peers K) := fun _ h =>
  tick_rule (fun _ _ => ⟨h.peers, h.held, h.logged⟩) fun _ _ _ _ _ _ => ⟨h.peers, h.held, h.logged⟩

section

variable (r : CallKeeps peers ok K)

include r

variable {vm : ViewProgressManager P}

/-- A message that makes one call, through a function of the chain. -/
theorem routed {α : Type} {op : ViewChain.Op P α}
    {v : Nat} {call : Call P} (hvm : vm.Upholds peers K)
    (hcalls : ViewChain.Calls peers v (· = call) vm.viewChain (op vm.viewChain).2)
    (hok : ∀ c, vm.viewChain.findViewContext v = some c → call.Made c → ok c call) :
    Ends (onChain op vm) (fun _ => Upholds peers K) (Upholds peers K) (Upholds peers K) := by
  refine ends_iff_state.mpr (hvm.onChain (r.calls hcalls hvm.held ?_))
  rintro c _ hc hmade rfl
  exact hok c hc hmade

/-- The own vote, where the condition admits it. -/
theorem addOwnVote (hvm : vm.Upholds peers K)
    {v : Nat} {h : Hash P} {signature : BlsSignature P}
    (hok : ∀ c, vm.viewChain.findViewContext v = some c → ok c (.addOwnVote h signature)) :
    (ViewProgressManager.addOwnVote v h signature vm).2.Upholds peers K := by
  cases hc : vm.viewChain.findViewContext v with
  | none =>
    have hrequire : requireContext v vm = (.err (.viewNotFound v), vm) := by simp [requireContext, hc]
    simpa only [ViewProgressManager.addOwnVote, bind_run, hrequire] using hvm
  | some c =>
    have hrequire : requireContext v vm = (.ok c, vm) := by simp [requireContext, hc]
    simp only [ViewProgressManager.addOwnVote, bind_run, hrequire]
    exact hvm.onChain (r.setContext hvm.held hc (.addOwnVote h signature) trivial (hok c hc))

/-- The message of `nullify_view`. -/
theorem nullifyOperation
    (hvm : vm.Upholds peers K) {v : Nat} {c : ViewContext P} {force : Bool}
    {secretKey : BlsSecretKey P} {op : ViewContext.Op P (Nullify P)}
    (hc : vm.viewChain.findViewContext v = some c)
    (hop : Replica.nullifyOperation force secretKey c = some op) :
    (onChain (runOn v c op) vm).2.Upholds peers K := by
  have hcalls := fun call hinternal hmade =>
    hvm.onChain (r.setContext hvm.held hc call hmade (r.internal hinternal))
  unfold Replica.nullifyOperation at hop
  dsimp only at hop
  split at hop
  · obtain rfl := some.inj hop
    exact hcalls (.createNullifyForByzantine secretKey) trivial trivial
  split at hop
  · obtain rfl := some.inj hop
    exact hcalls (.createNullifyForByzantine secretKey) trivial trivial
  split at hop
  · cases hop
  · obtain rfl := some.inj hop
    exact hcalls (.createNullifyForTimeout secretKey) trivial trivial

theorem markNullified (v : Nat) : Maintains (Upholds peers K) (markNullified v) := by
  intro vm hvm
  unfold ViewProgressManager.markNullified
  split
  · exact hvm
  case h_2 c hc =>
    exact hvm.onChain (r.setContext hvm.held hc .markNullified trivial (r.internal trivial))

theorem markProposed (v : Nat) : Maintains (Upholds peers K) (markProposed v) := by
  intro vm hvm
  unfold ViewProgressManager.markProposed
  split
  · split
    · exact hvm
    case h_2 c hc =>
      exact hvm.onChain (r.setContext hvm.held hc .markProposed trivial (r.internal trivial))
  · exact hvm

theorem progressAfterCascade (newView : Nat) :
    Maintains (Upholds peers K) (progressAfterCascade newView) := by
  refine maintains_get_bind fun vm _ => maintains_bind ?_ fun _ => maintains_pure _
  exact r.openView ⟨_, fun _ _ => rfl⟩ fun _ _ => rfl

end

theorem rollback (_ : CallKeeps peers ok K) {vm : ViewProgressManager P} (hvm : vm.Upholds peers K)
    (a b : Nat) :
    Upholds peers K { vm with viewChain := vm.viewChain.rollbackPendingDiffsInRange a b } := by
  refine hvm.onChain fun v c hc => hvm.held v c (Eq.trans (Eq.symm ?_) hc)
  unfold rollbackPendingDiffsInRange
  exact foldl_related (R := fun s s' : ViewChain P => s.findViewContext v = s'.findViewContext v)
    (f := removePendingDiff) (fun _ => rfl) (fun h h' => h.trans h') (fun _ _ => rfl) _ _

theorem new_upholds (r : CallKeeps peers ok K) (replicaId : Nat)
    (genesisAccounts : List (Address P × Nat)) :
    (ViewProgressManager.new replicaId peers genesisAccounts).Upholds peers K := by
  refine ⟨rfl, fun v c hc => ?_, fun e he => nomatch he⟩
  have hentry := mem_singleton.mp (AList.mem_lookup_iff.mp (mem_def.mpr hc))
  obtain ⟨rfl, hval⟩ := Sigma.mk.inj hentry
  rw [eq_of_heq hval]
  exact r.new ..

end CallKeeps

namespace CallRule

variable (r : CallRule peers ok K)

include r

theorem toKeeps : CallKeeps peers ok K := ⟨r.new, r.internal, r.keeps⟩

theorem loopRule : LoopRule peers (All K) fun _ b _ => Proposable ok b where
  take hc h := r.toKeeps.setContext h hc .takePending trivial (r.internal trivial)
  taken hc hb h := r.waiting (h _ _ hc) hb
  takeFits _ h := h
  propose {s v b d} h hb := by
    refine r.toKeeps.calls (addBlockProposal_calls v b d s) h ?_
    rintro c _ _ _ (rfl | rfl)
    · exact (hb c d).1
    · exact (hb c d).2
  proposeFits h := h

/-! ## The manager -/

theorem processAllPendingBlocks (fuel : Nat) :
    Maintains (Upholds peers K) (processAllPendingBlocks fuel) := by
  intro vm hvm
  obtain ⟨chain, heq, hheld⟩ := r.loopRule.processAllPendingBlocks fuel hvm.peers vm
    ⟨_, rfl, hvm.held⟩
  rw [heq]
  exact hvm.onChain hheld

/-- The message is processed on the contexts it was meant for. -/
abbrev Meant (peers : PeerSet P) (ok : ViewContext P → Call P → Prop)
    (K : Nat → ViewContext P → Prop) (m : ConsensusMessage P) (vm : ViewProgressManager P) : Prop :=
  vm.Upholds peers K ∧ m.Finds ok vm.viewChain

/-- Every reaction to the answer of the chain keeps `K`. -/
theorem reaction (fuel : Nat) (x : Reaction P) :
    Leaves (Upholds peers K) (x.run fuel) (Upholds peers K) := by
  exact Reaction.keeps (r.processAllPendingBlocks fuel).spec (fun view h =>
    (r.toKeeps.leaveView view h).spec) (fun view h => (r.toKeeps.skipView view h).spec) x

/-- **One message**, if its call meets the condition on the context it finds. -/
theorem processConsensusMsg (fuel : Nat) (m : ConsensusMessage P) :
    Leaves (Meant peers ok K m) (processConsensusMsg fuel m) (Upholds peers K) := by
  intro vm hvm
  have hahead : ∀ view, Ahead view vm (fun _ => Upholds peers K) (Upholds peers K) :=
    fun _ => ⟨fun _ => hvm.1, hvm.1⟩
  have hreact := r.reaction fuel
  cases m with
  | blockProposal b =>
    have hadd : ∀ d, Maintains (ViewChain.All K) (ViewChain.addBlockProposal b.view b d peers) :=
      fun d s hs => r.loopRule.propose hs hvm.2
    exact handleBlockProposal_rule (hahead _) hvm.1.peers hvm.1 (fun _ => hvm.1) hvm.1
      (fun d _ => (maintains_onChain (hadd d)).spec _ ⟨hvm.1.peers, hvm.1.held, hvm.1.logged⟩)
      fun _ => proposalEvent_rule fun x _ => hreact x
  | vote vote =>
    exact handleVote_rule (hahead _) hvm.1.peers (r.toKeeps.routed hvm.1 (ViewChain.routeVote_calls vote _)
      fun c hc _ => hvm.2 c hc) fun _ x _ => hreact x
  | nullify n =>
    exact handleNullify_rule (hahead _) hvm.1.peers (r.toKeeps.routed hvm.1 (ViewChain.routeNullify_calls n _)
      fun c hc _ => hvm.2 c hc) fun _ x _ => r.reaction 0 x
  | mNotarization m =>
    exact handleMNotarization_rule (hahead _) hvm.1.peers (r.toKeeps.routed hvm.1
      (ViewChain.routeMNotarization_calls m _) fun c hc _ => hvm.2 c hc) fun _ x _ => hreact x
  | nullification n =>
    exact handleNullification_rule (hahead _) hvm.1.peers (r.toKeeps.routed hvm.1
      (ViewChain.routeNullification_calls n _) fun c hc _ => hvm.2 c hc)
      fun _ vm' hvm' x _ => r.reaction 0 x vm' hvm'
  | blockRecoveryRequest view h =>
    exact handleBlockRecoveryRequest_rule (fun _ => hvm.1) (fun _ => hvm.1) hvm.1
  | blockRecoveryResponse view b =>
    exact handleBlockRecoveryResponse_rule (r.toKeeps.routed hvm.1 (ViewChain.addRecoveredBlock_calls view b _)
      fun c hc hmade => hvm.2 c hc hmade.1 hmade.2) fun _ _ h =>
        ⟨⟨h.peers, h.held, h.logged⟩, fun _ _ => ⟨h.peers, h.held, h.logged⟩⟩

end CallRule

end ViewContext

/-! ## The replica -/

/-- The message that is processed now finds what it needs. -/
def Moment.Finds (ok : ViewContext P → Call P → Prop) : Moment P → Prop
  | .processed m chain => m.Finds ok chain
  | .voted _ _ _ => True

namespace Replica

/-- `K` holds of every context of the replica, and held of every context of
the chains, themselves well-formed, on which a message was processed. -/
structure Upholds (cfg : Config P) (K : Nat → ViewContext P → Prop) (s : Replica P) : Prop where
  manager : s.viewManager.Upholds cfg.peers K
  processed : ∀ m chain, .processed m chain ∈ s.history →
    chain.WF cfg.peers cfg.replicaId ∧ chain.All K

/-- The part of a replica that `Upholds` reads. -/
def managed (s : Replica P) : ViewProgressManager P × List (Moment P) := (s.viewManager, s.history)

theorem mute_managed : Mute (managed (P := P)) := fun _ _ _ => rfl

variable {cfg : Config P} {ok : ViewContext P → Call P → Prop} {K : Nat → ViewContext P → Prop}

theorem upholds_onManager {α : Type} {op : ViewProgressManager.Op P α}
    (h : Maintains (ViewProgressManager.Upholds cfg.peers K) op) :
    Maintains (Upholds cfg K) (onManager op) :=
  maintains_zoom h (fun _ hs => hs.manager) fun _ _ hs hvm => ⟨hvm, hs.processed⟩

theorem Upholds.of_managed {s s' : Replica P} (hs : Upholds cfg K s)
    (h : s'.managed = s.managed) : Upholds cfg K s' := by
  obtain ⟨hvm, hhistory⟩ := Prod.mk.inj h
  exact ⟨hvm ▸ hs.manager, hhistory ▸ hs.processed⟩

/-- An operation that leaves that part alone. -/
theorem upholds_of_managed {α : Type} {op : Op P α} (h : Preserves managed op) :
    Maintains (Upholds cfg K) op := fun s hs => hs.of_managed (h s)

theorem finalizeView_upholds (r : CallRule cfg.peers ok K) (v : Nat) :
    Maintains (Upholds cfg K) (finalizeView v) := by
  refine maintains_get_bind fun s _ => maintains_ite (maintains_pure _) ?_
  refine maintains_bind (upholds_of_managed (preserves_onManager fun _ =>
    ViewProgressManager.preserves_getBlockTxHashes _ v)) fun _ => ?_
  exact maintains_bind (upholds_onManager (r.toKeeps.finalizeView v)) fun _ =>
    maintains_modify fun _ hs => ⟨hs.manager, hs.processed⟩

/-! ### The own vote -/

/-- Every vote this replica casts meets the condition. -/
def OwnVotesMeet (cfg : Config P) (ok : ViewContext P → Call P → Prop) : Prop :=
  ∀ {c : ViewContext P} {h : Hash P}, c.VoteReady h → c.replicaId = cfg.replicaId →
    ok c (.addOwnVote h (Crypto.sign P.hashing P.curve cfg.secretKey (blockMessage h)))

/-- The vote for `h` in view `v`, signed by this replica, meets it. -/
structure OwnVoteDue (cfg : Config P) (ok : ViewContext P → Call P → Prop) (v : Nat) (h : Hash P)
    (s : Replica P) : Prop where
  secretKey : s.secretKey = cfg.secretKey
  meets : ∀ c, s.context v = some c →
    ok c (.addOwnVote h (Crypto.sign P.hashing P.curve cfg.secretKey (blockMessage h)))

variable {A : Admission cfg}

variable {s : Replica P}

theorem OwnVotesMeet.due (hown : OwnVotesMeet cfg ok)
    (hwf : s.WF A) {v : Nat} {h : Hash P} (hdue : s.VoteDue v h) : OwnVoteDue cfg ok v h s :=
  ⟨hwf.secretKey, fun c hc => hown (hdue c hc) (hwf.chain.replicaId v c hc)⟩

variable (r : CallRule cfg.peers ok K)

include r

variable {signature : BlsSignature P}

theorem addOwnVote_upholds {v : Nat} {h : Hash P}
    (hsignature : signature = Crypto.sign P.hashing P.curve cfg.secretKey (blockMessage h)) :
    Leaves (fun s => Upholds cfg K s ∧ OwnVoteDue cfg ok v h s)
      (onManager (ViewProgressManager.addOwnVote v h signature)) (Upholds cfg K) := by
  intro s hs
  refine ends_iff_state.mpr ⟨r.toKeeps.addOwnVote hs.1.manager fun c hc => ?_, hs.1.processed⟩
  rw [hsignature]
  exact hs.2.meets c hc

/-- Between the event and the count of the own vote the manager is not
touched. -/
theorem voteForBlock_upholds (env : Env P) (v : Nat) (h : Hash P) :
    Leaves (fun s => Upholds cfg K s ∧ OwnVoteDue cfg ok v h s) (voteForBlock env v h)
      (Upholds cfg K) := by
  have hframe : ∀ {α : Type} {op : Op P α},
      Maintains (fun s => Upholds cfg K s ∧ OwnVoteDue cfg ok v h s) op →
      Spec (fun s => Upholds cfg K s ∧ OwnVoteDue cfg ok v h s) op
        (fun _ s => Upholds cfg K s ∧ OwnVoteDue cfg ok v h s) (Upholds cfg K) (Upholds cfg K) :=
    fun hop => hop.spec.conseq (fun _ hs => hs) (fun _ _ hs => hs) (fun _ hs => hs.1)
      fun _ hs => hs.1
  refine spec_bind (hframe fun s hs => ?_) fun c => ?_
  · have hsame : Preserves id (onManager (requireContext (P := P) v)) :=
      preserves_onManager fun _ => preserves_requireContext _ v
    rwa [show (onManager (requireContext v) s).2 = s from hsame s]
  refine spec_bind (Q := fun signature s => signature =
      Crypto.sign P.hashing P.curve cfg.secretKey (blockMessage h) ∧
      Upholds cfg K s ∧ OwnVoteDue cfg ok v h s)
    (fun s hs => ⟨?_, hs⟩) fun signature => spec_of_prop fun hsignature => ?_
  · show Crypto.sign P.hashing P.curve s.secretKey _ = _
    rw [hs.2.secretKey]
  refine spec_bind (hframe fun s hs => ⟨hs.1.of_managed rfl, ⟨hs.2.secretKey, hs.2.meets⟩⟩)
    fun _ => ?_
  refine spec_bind (hframe fun s hs => ⟨⟨hs.1.manager, fun m chain hmem => ?_⟩,
    ⟨hs.2.secretKey, hs.2.meets⟩⟩) fun _ => ?_
  · rcases mem_append.mp hmem with hmem | hmem
    · exact hs.1.processed m chain hmem
    · cases mem_singleton.mp hmem
  refine spec_get_bind fun s _ => ?_
  refine spec_bind ((hframe fun s' hs' => ?_).weaken (fun _ hs => hs.2) fun _ _ hs => hs)
    fun _ => addOwnVote_upholds r hsignature
  rw [broadcast_state]
  exact ⟨hs'.1.of_managed rfl, ⟨hs'.2.secretKey, hs'.2.meets⟩⟩

/-- The leader counts its own proposal as a vote. -/
theorem ownVote_upholds (hown : OwnVotesMeet cfg ok) (hwf : s.WF A) (hs : Upholds cfg K s)
    {event : ViewProgressEvent P} (hp : Promised A s event s)
    (hlog : OwnLogged cfg signature event s) (hasks : AsksVote event)
    (handleEvent : ViewProgressEvent P → Op P Unit) :
    Ends (handleOwnProposal cfg.env handleEvent signature event s) (fun _ => Upholds cfg K)
      (Upholds cfg K) (Upholds cfg K) := by
  obtain ⟨v, h, hfor, hsignature, -⟩ := hlog
  have hadd : s.VoteDue v h → Leaves (· = s)
      (onManager (addOwnVote v h signature)) (Upholds cfg K) := by
    rintro hdue _ rfl
    exact addOwnVote_upholds r hsignature _ ⟨hs, hown.due hwf hdue⟩
  cases event with
  | shouldVote v' h' =>
    obtain ⟨rfl, rfl⟩ := hfor
    exact hadd hp.2 s rfl
  | shouldVoteAndMNotarize v' h' forward =>
    obtain ⟨rfl, rfl⟩ := hfor
    have hsend : Maintains (Upholds cfg K) (createAndBroadcastMNotarization cfg.env v' forward) :=
      upholds_of_managed (mute_managed.createAndBroadcastMNotarization cfg.env v' forward)
    exact spec_bind (hadd hp.2) (fun _ => hsend.spec) s rfl
  | shouldVoteAndFinalize v' h' =>
    obtain ⟨rfl, rfl⟩ := hfor
    exact spec_bind (hadd hp.2) (fun _ => (finalizeView_upholds r v').spec) s rfl
  | _ => exact hasks.elim

/-! ### The other parts -/

theorem nullifyView_upholds (env : Env P) (v : Nat) (force : Bool) :
    Maintains (Upholds cfg K) (nullifyView env v force) := by
  refine maintains_of_spec ?_
  refine spec_bind (Q := fun c s => Upholds cfg K s ∧ s.context v = some c) (spec_onManager ?_)
    fun c => ?_
  · intro s hs
    refine (requireContext_ends v s).conseq ?_ ?_ fun _ h => h.elim
    · rintro c vm ⟨heq, hc⟩
      rw [heq]
      exact ⟨hs, hc⟩
    · intro vm heq
      rw [heq]
      exact hs
  refine spec_ite (fun _ => spec_pure fun _ hs => hs.1) fun _ => ?_
  refine spec_get_bind fun s hs => ?_
  cases hop : nullifyOperation force s.secretKey c with
  | none => exact spec_pure fun _ hs => hs.2.1
  | some op =>
    refine spec_bind (Q := fun _ s => Upholds cfg K s ∧ s.context v = some c)
      (spec_modify fun _ hs => ⟨hs.2.1.of_managed rfl, hs.2.2⟩) fun _ => ?_
    refine spec_bind (Q := fun _ => Upholds cfg K) (fun s' hs' => ?_) fun n => ?_
    · exact ends_iff_state.mpr ⟨r.toKeeps.nullifyOperation hs'.1.manager hs'.2 hop, hs'.1.processed⟩
    exact spec_bind (upholds_of_managed (mute_managed.broadcast env _)).spec fun _ =>
      (upholds_onManager (r.toKeeps.markNullified v)).spec

theorem nullifyCurrentAndRollback_upholds (env : Env P) (v : Nat) :
    Maintains (Upholds cfg K) (nullifyCurrentAndRollback env v) := by
  refine maintains_get_bind fun s _ => ?_
  refine maintains_bind (maintains_attempt (nullifyView_upholds r env _ true)) fun _ => ?_
  exact maintains_bind (maintains_modify fun _ hs =>
    ⟨r.toKeeps.rollback hs.manager _ _, hs.processed⟩) fun _ => maintains_pure _

/-- What an event does before it recurses. -/
theorem eventPrefix_upholds (hown : OwnVotesMeet cfg ok)
    {s₀ : Replica P} (event : ViewProgressEvent P) :
    Leaves (fun s => Upholds cfg K s ∧ s.WF A ∧ Promised A s₀ event s)
      (eventPrefix cfg.env event) (Upholds cfg K) := by
  rw [eventPrefix_eq]
  refine spec_bind (Q := fun _ => Upholds cfg K) ?_ fun _ => Maintains.spec ?_
  · rintro s ⟨hs, hwf, hp⟩
    cases hvote : eventVote event with
    | none => exact hs
    | some vote =>
      exact voteForBlock_upholds r cfg.env _ _ s ⟨hs, hown.due hwf (hp.voteDue hvote)⟩
  cases eventPart event with
  | send x rest =>
    exact maintains_bind (upholds_of_managed (mute_managed.sending cfg.env x)) fun _ =>
      maintains_pure _
  | finalize v => exact maintains_bind (finalizeView_upholds r v) fun _ => maintains_pure _
  | nullify v =>
    exact maintains_bind (nullifyView_upholds r cfg.env v false) fun _ => maintains_pure _
  | nullifyRange v =>
    exact maintains_bind (nullifyCurrentAndRollback_upholds r cfg.env v) fun _ => maintains_pure _
  | cascade v broadcast =>
    refine maintains_bind (maintains_attempt (upholds_of_managed
      (mute_managed.forwardNullification cfg.env broadcast _))) fun _ => ?_
    refine maintains_bind (nullifyCurrentAndRollback_upholds r cfg.env v) fun currentView => ?_
    refine maintains_bind (maintains_modify fun _ hs => hs.of_managed rfl) fun _ => ?_
    exact maintains_bind (upholds_onManager (r.toKeeps.progressAfterCascade (currentView + 1)))
      fun _ => maintains_pure _

/-- A message is processed, and the chain it meets is noted. -/
theorem process_upholds {s t : Replica P} (hs : Upholds cfg K s)
    (hwf : s.chain.WF cfg.peers cfg.replicaId) {m : ConsensusMessage P} (hfinds : m.Finds ok s.chain)
    (hvm : t.viewManager = s.viewManager)
    (hhistory : t.history = s.history ++ [.processed m s.chain]) (fuel : Nat) :
    Ends (onManager (processConsensusMsg fuel m) t)
      (fun _ => Upholds cfg K) (Upholds cfg K) (Upholds cfg K) := by
  refine ends_iff_state.mpr ⟨ends_iff_state.mp (r.processConsensusMsg fuel m t.viewManager
    ⟨hvm ▸ hs.manager, hvm ▸ hfinds⟩), fun m' chain hmem => ?_⟩
  have hmem' : .processed m' chain ∈ t.history := hmem
  rw [hhistory] at hmem'
  rcases mem_append.mp hmem' with hmem | hmem
  · exact hs.processed m' chain hmem
  · cases mem_singleton.mp hmem
    exact ⟨hwf, hs.manager.held⟩

/-- **A rule for the calls is a rule for the runs** in which every message
finds what it needs. -/
theorem upholds_rules (hown : OwnVotesMeet cfg ok) (A : Admission cfg) :
    Rules A (Moment.Finds ok) (fun _ => True) (Upholds cfg K) (fun _ => Upholds cfg K)
      fun _ => Upholds cfg K where
  ask h := h.of_managed rfl
  buffer _ _ h := h.of_managed rfl
  unbuffer _ h := h.of_managed rfl
  exhausted h := h
  process {s m fuel} hs h hC _ _ :=
    process_upholds (t := s.note (.processed m s.chain)) r h hs.wf.chain hC rfl rfl fuel
  tick {s now} _ h _ := (upholds_onManager (maintains_of_spec (r.toKeeps.tick cfg.env now))).spec s h
  event {s event} hs hp h _ := eventPrefix_upholds r hown event s ⟨h, hs.wf, hp⟩
  finalize {s v} _ h _ := (finalizeView_upholds r v).spec s h
  refused _ h := h.of_managed rfl
  own {s view parent fuel now} hs h _ hC _ :=
    process_upholds (t := s.sentOwn (cfg.block view parent now))
      (m := .blockProposal (cfg.block view parent now)) r h hs.wf.chain hC rfl rfl fuel
  ownVote hs hp h hlog hasks _ := ownVote_upholds r hown hs.wf h hp hlog hasks _
  proposed {s v} _ h _ := (upholds_onManager (r.toKeeps.markProposed v)).spec s h

/-- **Every run** in which every message finds what it needs. -/
theorem Run.upholds (hown : OwnVotesMeet cfg ok)
    {allowed : Replica P → ConsensusMessage P → Prop} {running : Bool}
    (h : Run cfg allowed s running) (hfinds : ∀ e ∈ s.history, e.Finds ok) : Upholds cfg K s := by
  have hrules := upholds_rules r hown (.any cfg)
  obtain ⟨hgoes, hstops⟩ := hrules.run (fun _ _ _ => trivial) (fun _ => trivial)
    ⟨r.toKeeps.new_upholds .., fun _ _ hmem => nomatch hmem⟩ h hfinds
  cases running with
  | true => exact hgoes rfl
  | false => exact (hstops rfl).elim fun _ hB => hB

end Replica

end Minimmit
