/-
Minimmit.Consensus.ReplicaSteps — the steps a replica is made of.

Handling one message or tick is a long computation that can stop at many
places. `Step` lists the changes it is made of: a chain step, entering a
view, a finalization attempt, a vote, a nullify message, a proposal, and
bookkeeping. A signature is one step with its record in the log; a nullify
message is one step with its flag; a proposal is one step with everything
`add_block_proposal` does to the chain, so that no other step comes between
the leader's signature and its effect.

`Admission` is what is known about the messages a replica handles. It may
depend on what the replica has signed so far, never shrinks when the log
grows, and holds of the replica's own proposals.
-/
import Minimmit.Consensus.ChainFunctions
import Minimmit.Consensus.FinalizationSteps
import Minimmit.Consensus.StateMachine

namespace Minimmit

open Minimmit.Library Relation ViewContext ViewChain List

variable {P : Params}

variable (P) in
/-- What a replica is started with. -/
structure Config where
  replicaId : Nat
  replicaId_lt : replicaId < u64Size
  peers : PeerSet P
  secretKey : BlsSecretKey P
  genesisAccounts : List (Address P × Nat)
  env : Env P

/-- The block `propose_block` builds at a moment. -/
def Config.block (cfg : Config P) (view : Nat) (parent : Hash P) (now : Nat) : Block P :=
  Replica.buildBlock cfg.replicaId cfg.secretKey view parent (cfg.env.transactions now)
    (cfg.env.timestamp now)

theorem Config.block_wellTyped (cfg : Config P) {view : Nat} (hv : view < u64Size)
    (parent : Hash P) (now : Nat) : (cfg.block view parent now).WellTyped :=
  ⟨hv, cfg.env.timestamp_lt now, cfg.replicaId_lt, hv, cfg.env.transactions_wellTyped now⟩

/-- What is known about the messages a replica handles. -/
@[ext]
structure Admission (cfg : Config P) where
  admits : List (Signed P) → ConsensusMessage P → Prop
  mono : ∀ {log entry m}, admits log m → admits (log ++ [entry]) m
  own : ∀ {log chain sent view parent now}, view < u64Size →
    admits (log ++ [.proposal (cfg.block view parent now) chain sent])
      (.blockProposal (cfg.block view parent now))

/-- Any message may arrive. -/
def Admission.any (cfg : Config P) : Admission cfg where
  admits _ _ := True
  mono _ := trivial
  own _ := trivial

/-! ## The log -/

/-- The entry is a signature on the block hash `h` for view `v`. -/
def Signed.SignsBlock (v : Nat) (h : Hash P) : Signed P → Prop
  | .proposal block _ _ => block.view = v ∧ block.getHash = h
  | .vote view blockHash _ => view = v ∧ blockHash = h
  | .nullify _ _ _ => False

/-- The entry is a nullify message for view `v`. -/
def Signed.SignsNullify (v : Nat) : Signed P → Prop
  | .nullify view _ _ => view = v
  | _ => False

/-- What makes the leader's own proposal go through: the queue takes it, the
view is fresh and opened on the parent of the block, the parent checks and
the validation pass, and the replica is the leader under its own key. -/
structure ProposalReady (peers : PeerSet P) (chain : ViewChain P) (block : Block P)
    (sent : Bool) : Prop where
  sent : sent = true
  context : ∃ c, chain.findViewContext block.view = some c ∧ c.hasVoted = false ∧
    c.hasNullified = false ∧ c.blockHash = none ∧ c.pendingBlock = none ∧
    block.parentBlockHash = c.parentBlockHash
  parent : chain.proposalParent block.view block = .ok false
  valid : ∃ d, validateBlock chain.persistenceWriter.getAccount block = .ok d
  leader : block.leader = peers.leaderForView block.view
  signature : ∃ pk, peers.getPublicKey block.leader = some pk ∧
    Crypto.verify P.hashing P.curve pk (blockMessage block.getHash) block.leaderSignature = true

namespace Replica

/-- The chain of the view manager. -/
abbrev chain (s : Replica P) : ViewChain P := s.viewManager.viewChain

/-- Time moves on, and the message is in the outbox if the queue took it. -/
def emit (sent : Bool) (m : ConsensusMessage P) (s : Replica P) : Replica P :=
  { s with clock := s.clock + 1, outbox := if sent then s.outbox ++ [m] else s.outbox }

/-- The log with one more entry. -/
def log (entry : Signed P) (s : Replica P) : Replica P := { s with signed := s.signed ++ [entry] }

/-- The history with one more moment. -/
def note (e : Moment P) (s : Replica P) : Replica P := { s with history := s.history ++ [e] }

/-- The next view, opened on `parent`. -/
def enter (parent : Hash P) (s : Replica P) : Replica P :=
  let vm := s.viewManager
  let view := s.currentView + 1
  { s with viewManager :=
    { vm with
      viewChain := vm.viewChain.enterView
        (ViewContext.new view (vm.peers.leaderForView view) vm.replicaId parent)
      entered := vm.entered ++ [(view, parent)] } }

/-- A finalization attempt: the chain before it is recorded. -/
def finalized (view : Nat) (s : Replica P) : Replica P :=
  let vm := s.viewManager
  { s with viewManager :=
    { vm with
      finalizations := vm.finalizations ++ [(view, vm.viewChain)]
      viewChain := (ViewChain.finalizeWithLNotarization view vm.peers vm.viewChain).2 } }

/-- The bookkeeping of block recovery. -/
def recoveryState (cooldowns : List Nat) (pending missing : List (Nat × Hash P)) (s : Replica P) :
    Replica P :=
  let vm := s.viewManager
  { s with viewManager :=
    { vm with
      blockRecoveryCooldowns := cooldowns
      canonicalRecoveryPending := pending
      viewChain := { vm.viewChain with pendingCanonicalRecovery := missing } } }

/-- The vote message of the replica. -/
def voteMessage (v : Nat) (h : Hash P) (c : ViewContext P) (s : Replica P) : ConsensusMessage P :=
  .vote
    { view := v, blockHash := h
      signature := Crypto.sign P.hashing P.curve s.secretKey (blockMessage h)
      peerId := s.viewManager.replicaId, leaderId := c.leaderId }

/-- The nullify message of the replica. -/
def nullifyMessageOf (c : ViewContext P) (s : Replica P) : ConsensusMessage P :=
  .nullify
    { view := c.viewNumber, leaderId := c.leaderId
      signature := Crypto.sign P.hashing P.curve s.secretKey
        (nullifyMessage P c.viewNumber c.leaderId)
      peerId := c.replicaId }

/-- The evidence with which `nullify_view` nullifies after a vote. -/
def Evidence (c : ViewContext P) : Prop :=
  P.F < c.numInvalidVotes ∨ 2 * P.F < c.numInvalidVotes + c.nullifyMessages.len

/-- The messages a replica passes on or asks with; signing is not involved. -/
def Relayed : ConsensusMessage P → Prop
  | .blockProposal _ | .vote _ | .nullify _ => False
  | _ => True

/-! ## The steps -/

variable {cfg : Config P} (A : Admission cfg)

/-- The steps that leave a settled chain settled. -/
inductive CleanStep : Replica P → Replica P → Prop
  | chain {s chain'}
      (h : ViewChain.ChainStep (CtxStep (A.admits s.signed) cfg.peers) s.chain chain') :
      CleanStep s (s.onChain fun _ => chain')
  | enter {s c parent} (hc : s.context s.currentView = some c)
      (hlt : s.currentView + 1 < u64Size)
      (hp : (∃ m, c.mNotarization = some m ∧ parent = m.blockHash) ∨
        (c.hasNullified = true ∧ parent = s.chain.selectParent (s.currentView + 1)))
      (hleft : c.hasCertificate = true ∨ ∃ v, (v, s.chain) ∈ s.cascades) :
      CleanStep s (s.enter parent)
  | cascade {s} (v : Nat) : CleanStep s { s with cascades := s.cascades ++ [(v, s.chain)] }
  | note {s} (e : Moment P) : CleanStep s (s.note e)
  | notify {s} (n : FinalizedNotification P) :
      CleanStep s { s with notified := s.notified ++ [n] }
  | finalize {s view} (hlt : view < s.currentView) : CleanStep s (s.finalized view)
  | recovery {s} (cooldowns : List Nat) (pending missing : List (Nat × Hash P)) :
      CleanStep s (s.recoveryState cooldowns pending missing)
  | validate {s b d}
      (h : validateBlock s.chain.persistenceWriter.getAccount b = .ok d) :
      CleanStep s { s with viewManager :=
        { s.viewManager with validated := s.viewManager.validated ++ [(b, d)] } }
  | ask {s} : CleanStep s { s with clock := s.clock + 1 }
  | relay {s m} (hm : Relayed m) : CleanStep s { s with outbox := s.outbox ++ [m] }
  | buffer {s v m} (ha : A.admits s.signed m) : CleanStep s (s.bufferMessage v m)
  | unbuffer {s v} : CleanStep s { s with pendingMessages := s.pendingMessages.remove v }
  | vote {s v h c sent} (hc : s.context v = some c) (hr : c.VoteReady h) :
      CleanStep s ((s.log (.vote v h c)).emit sent (s.voteMessage v h c))
  | castVote {s v h c signature} (hc : s.context v = some c) (hr : c.VoteReady h)
      (hlog : ∃ e ∈ s.signed, e.SignsBlock v h) :
      CleanStep s (s.onChain (·.setContext v (c.castVote h signature)))
  | nullify {s v forced c sent} (hc : s.context v = some c) (hn : c.hasNullified = false)
      (hg : (forced = true ∧ v = s.currentView) ∨ Evidence c ∨ c.hasVoted = false) :
      CleanStep s
        (((s.log (.nullify v forced c)).onChain
          (·.setContext v { c with hasNullified := true })).emit sent (s.nullifyMessageOf c))
  | propose {s view parent now sent chain' validated'} (hp : (view, parent) ∈ s.viewManager.entered)
      (h : ViewChain.Steps
        (BlockStep (A.admits (s.signed ++ [.proposal (cfg.block view parent now) s.chain sent]))
          cfg.peers) s.chain chain')
      (hv : validated' = s.viewManager.validated ∨
        ∃ d, validateBlock s.chain.persistenceWriter.getAccount (cfg.block view parent now) =
          .ok d ∧ validated' = s.viewManager.validated ++ [(cfg.block view parent now, d)])
      (hready : ProposalReady cfg.peers s.chain (cfg.block view parent now) sent →
        ∃ c, chain'.findViewContext view = some c ∧
          c.Anchored (cfg.block view parent now).getHash) :
      CleanStep s
        { ((s.log (.proposal (cfg.block view parent now) s.chain sent)).emit sent
            (.blockProposal (cfg.block view parent now))) with
          viewManager := { s.viewManager with viewChain := chain', validated := validated' } }

/-- Every step of a replica. -/
inductive Step : Replica P → Replica P → Prop
  | clean {s s'} (h : CleanStep A s s') : Step s s'
  | hashOnly {s v c c'} (hc : s.context v = some c)
      (h : HashOnlyStep (A.admits s.signed) cfg.peers c c') :
      Step s (s.onChain (·.setContext v c'))

/-! ## Well-formed replicas -/

/-- What holds of a replica at every moment. -/
structure WF (s : Replica P) : Prop where
  replicaId : s.viewManager.replicaId = cfg.replicaId
  peers : s.viewManager.peers = cfg.peers
  secretKey : s.secretKey = cfg.secretKey
  chain : s.chain.WF cfg.peers cfg.replicaId
  pending : s.chain.PendingAdmitted (A.admits s.signed)
  buffered : ∀ v ms m, s.pendingMessages.get v = some ms → m ∈ ms → A.admits s.signed m
  entered : ∀ v c, s.context v = some c → (v, c.parentBlockHash) ∈ s.viewManager.entered
  entered_le : ∀ e ∈ s.viewManager.entered, e.1 ≤ s.currentView

variable {A}

variable {v : Nat} {s s' s₀ : Replica P}

/-- A context after a chain step has its old parent. -/
theorem chainSteps_parent {adm : ConsensusMessage P → Prop} {peers : PeerSet P}
    {s s' : ViewChain P} (h : Steps (CtxStep adm peers) s s') {c' : ViewContext P}
    (hc' : s'.findViewContext v = some c') :
    ∃ c, s.findViewContext v = some c ∧ c'.parentBlockHash = c.parentBlockHash := by
  induction h generalizing c' with
  | refl => exact ⟨c', hc', rfl⟩
  | tail _ hstep ih =>
    rcases hstep.find hc' with hold | ⟨c, hc, hctx⟩
    · exact ih hold
    · obtain ⟨c₀, hc₀, heq⟩ := ih hc
      exact ⟨c₀, hc₀, hctx.identity.2.2.2.trans heq⟩

/-- The chain moved by steps, everything else is as before. -/
theorem WF.chainSteps (hs : s.WF A) {chain' : ViewChain P}
    (h : Steps (CtxStep (A.admits s.signed) cfg.peers) s.chain chain') :
    (s.onChain fun _ => chain').WF A := by
  have hwf : chain'.WF cfg.peers cfg.replicaId ∧ chain'.PendingAdmitted (A.admits s.signed) := by
    induction h with
    | refl => exact ⟨hs.chain, hs.pending⟩
    | tail _ hstep ih => exact ⟨ih.1.chainStep hstep, ih.2.chainStep hstep⟩
  refine { hs with chain := hwf.1, pending := hwf.2, entered := ?_, entered_le := ?_ }
  · intro v c' hc'
    obtain ⟨c, hc, heq⟩ := chainSteps_parent h hc'
    rw [heq]
    exact hs.entered v c hc
  · intro e he
    exact (hs.entered_le e he).trans_eq (Steps.currentView h).symm

/-- One context was replaced by one that keeps its identity. -/
theorem WF.setContext (hs : s.WF A) {c c' : ViewContext P} (hc : s.context v = some c)
    (hid : c'.viewNumber = c.viewNumber ∧ c'.leaderId = c.leaderId ∧ c'.replicaId = c.replicaId)
    (hparent : c'.parentBlockHash = c.parentBlockHash) (hwf : c'.WF cfg.peers)
    (hpast : c.mNotarization.isSome ∨ c.hasNullified = true →
      c'.mNotarization.isSome ∨ c'.hasNullified = true) (hpend : c'.pendingBlock = c.pendingBlock) :
    (s.onChain (·.setContext v c')).WF A := by
  refine { hs with chain := hs.chain.setContext hc hid hwf hpast, pending := ?_, entered := ?_ }
  · intro w d b hd hb
    rcases findViewContext_setContext_cases hd with ⟨rfl, rfl⟩ | ⟨-, hold⟩
    · exact hs.pending w c b hc (hpend ▸ hb)
    · exact hs.pending w d b hold hb
  · intro w d hd
    rcases findViewContext_setContext_cases hd with ⟨rfl, rfl⟩ | ⟨-, hold⟩
    · rw [hparent]
      exact hs.entered w c hc
    · exact hs.entered w d hold

/-- What is known may become less. -/
theorem WF.mono {A' : Admission cfg} (hA : ∀ log m, A.admits log m → A'.admits log m)
    (hs : s.WF A) : s.WF A' :=
  { hs with
    pending := fun v c b hc hb => hA _ _ (hs.pending v c b hc hb)
    buffered := fun v ms m hv hm => hA _ _ (hs.buffered v ms m hv hm) }

/-- A longer log admits what the shorter one did. -/
theorem WF.log (hs : s.WF A) (entry : Signed P) : (s.log entry).WF A :=
  { hs with
    pending := fun v c b hc hb => A.mono (hs.pending v c b hc hb)
    buffered := fun v ms m hv hm => A.mono (hs.buffered v ms m hv hm) }

theorem WF.emit (hs : s.WF A) (sent : Bool) (m : ConsensusMessage P) :
    (s.emit sent m).WF A := { hs with }

theorem WF.bufferMessage (hs : s.WF A) {m : ConsensusMessage P} (ha : A.admits s.signed m) :
    (s.bufferMessage v m).WF A := by
  refine { hs with buffered := ?_ }
  intro w ms m' hget hm'
  unfold Replica.bufferMessage at hget
  by_cases hw : w = v
  · subst hw
    rw [SortedMap.get_insert_self] at hget
    obtain rfl := Option.some.inj hget
    rcases mem_append.mp hm' with hold | hnew
    · rcases hr : s.pendingMessages.get w with _ | old
      · rw [hr] at hold
        exact absurd hold not_mem_nil
      · rw [hr] at hold
        exact hs.buffered w old m' hr hold
    · obtain rfl := mem_singleton.mp hnew
      exact ha
  · rw [SortedMap.get_insert_ne _ _ hw] at hget
    exact hs.buffered w ms m' hget hm'

theorem WF.unbuffer (hs : s.WF A) (v : Nat) :
    Replica.WF A { s with pendingMessages := s.pendingMessages.remove v } := by
  refine { hs with buffered := ?_ }
  intro w ms m hget hm
  exact hs.buffered w ms m (SortedMap.get_remove.mp hget).1 hm

/-- After a view was opened a held context is the fresh one or an old one. -/
theorem enter_cases {parent : Hash P} {d : ViewContext P}
    (hd : (s.enter parent).context v = some d) :
    (v = s.currentView + 1 ∧ d = ViewContext.new v (s.viewManager.peers.leaderForView v)
      s.viewManager.replicaId parent) ∨ (v ≠ s.currentView + 1 ∧ s.context v = some d) := by
  rcases findViewContext_setContext_cases hd with ⟨rfl, rfl⟩ | hold
  · exact .inl ⟨rfl, rfl⟩
  · exact .inr hold

/-- The next view is opened with a fresh context; the view left behind has a
certificate or is nullified. -/
theorem WF.enter (hs : s.WF A) {c : ViewContext P} {parent : Hash P}
    (hc : s.context s.currentView = some c) (hlt : s.currentView + 1 < u64Size)
    (hleft : c.mNotarization.isSome ∨ c.hasNullified = true) : (s.enter parent).WF A := by
  have hcases : ∀ {v d}, (s.enter parent).context v = some d →
      (v = s.currentView + 1 ∧
        d = ViewContext.new v (cfg.peers.leaderForView v) cfg.replicaId parent) ∨
      s.context v = some d := by
    intro v d hd
    rcases enter_cases hd with ⟨rfl, rfl⟩ | ⟨-, hold⟩
    · exact .inl ⟨rfl, by rw [hs.peers, hs.replicaId]⟩
    · exact .inr hold
  refine { hs with chain := ?_, pending := ?_, entered := ?_, entered_le := ?_ }
  · constructor
    case current => exact ⟨_, findViewContext_setContext_self ..⟩
    case current_lt => exact hlt
    case past =>
      intro v d hd hv
      have hv' : v < s.currentView + 1 := hv
      rcases hcases hd with ⟨rfl, -⟩ | hold
      · omega
      · by_cases hcur : v = s.currentView
        · subst hcur
          obtain rfl := Option.some.inj (hc.symm.trans hold)
          exact hleft
        · exact hs.chain.past v d hold (by have : s.chain.currentView = s.currentView := rfl; omega)
    all_goals intro v d hd
    all_goals rcases hcases hd with ⟨rfl, rfl⟩ | hold
    · rfl
    · exact hs.chain.viewNumber v d hold
    · rfl
    · exact hs.chain.leaderId v d hold
    · rfl
    · exact hs.chain.replicaId v d hold
    · exact ViewContext.wf_new ..
    · exact hs.chain.context v d hold
    · exact Nat.le_refl _
    · exact (hs.chain.le_current v d hold).trans (Nat.le_succ _)
  · intro v d b hd hb
    rcases hcases hd with ⟨rfl, rfl⟩ | hold
    · cases hb
    · exact hs.pending v d b hold hb
  · intro v d hd
    rcases hcases hd with ⟨rfl, rfl⟩ | hold
    · exact mem_append_right _ mem_cons_self
    · exact mem_append_left _ (hs.entered v d hold)
  · intro e he
    rcases mem_append.mp he with hold | hnew
    · exact (hs.entered_le e hold).trans (Nat.le_succ _)
    · obtain rfl := mem_singleton.mp hnew
      exact Nat.le_refl _

theorem WF.finalized (hs : s.WF A) {view : Nat} (hlt : view < s.currentView) :
    (s.finalized view).WF A := by
  have hprunes := finalize_prunes view s.viewManager.peers s.chain
  refine { hs with chain := hs.chain.prunes hprunes hlt, pending := ?_, entered := ?_,
                   entered_le := ?_ }
  · exact fun v c b hc => hs.pending v c b (hprunes.find v c hc)
  · exact fun v c hc => hs.entered v c (hprunes.find v c hc)
  · exact fun e he => (hs.entered_le e he).trans_eq hprunes.currentView.symm

theorem CleanStep.wf (h : CleanStep A s s') (hs : s.WF A) : s'.WF A := by
  cases h with
  | chain h => exact hs.chainSteps (.single h)
  | enter hc hlt hp _ =>
    refine hs.enter hc hlt ?_
    rcases hp with ⟨m, hm, -⟩ | ⟨hn, -⟩
    · exact .inl (by rw [hm]; rfl)
    · exact .inr hn
  | cascade | note | notify | validate | ask | relay => exact { hs with }
  | finalize hlt => exact hs.finalized hlt
  | recovery => exact { hs with chain := { hs.chain with } }
  | buffer ha => exact hs.bufferMessage ha
  | unbuffer => exact hs.unbuffer _
  | vote => exact (hs.log _).emit _ _
  | castVote hc hr =>
    exact hs.setContext hc ⟨rfl, rfl, rfl⟩ rfl
      ((hs.chain.context _ _ hc).castVote _ hr.anchored.1) id rfl
  | @nullify v forced c _ hc =>
    have hset : ((s.log (.nullify v forced c)).onChain
        (·.setContext v { c with hasNullified := true })).WF A :=
      (hs.log (.nullify v forced c)).setContext hc ⟨rfl, rfl, rfl⟩ rfl
        (hs.chain.context v c hc).markNullified (fun _ => .inr rfl) rfl
    exact hset.emit _ _
  | propose _ hsteps =>
    have hlog := (hs.log (.proposal _ _ _)).chainSteps (Steps.ofBlock hsteps)
    exact { hlog with }

theorem Step.wf (h : Step A s s') (hs : s.WF A) : s'.WF A := by
  cases h with
  | clean h => exact h.wf hs
  | hashOnly hc h =>
    cases h with
    | adoptHash ha hm hh hnone he =>
      have hwf := (HashOnlyStep.adoptHash ha hm hh hnone he).wf (hs.chain.context _ _ hc)
      exact hs.setContext hc ⟨rfl, rfl, rfl⟩ rfl hwf id rfl

/-- The chain is settled at the end of every clean step. -/
theorem CleanStep.settled (h : CleanStep A s s') (hs : s.chain.Settled) : s'.chain.Settled := by
  have hset : ∀ {v c'}, c'.Settled → (s.chain.setContext v c').Settled := by
    intro v c' hc' w d hd
    rcases findViewContext_setContext_cases hd with ⟨-, rfl⟩ | ⟨-, hold⟩
    · exact hc'
    · exact hs w d hold
  cases h with
  | chain h => exact hs.chainStep h
  | enter => exact hset fun _ h => by cases h
  | @finalize view _ =>
    exact fun v c hc => hs v c ((finalize_prunes view _ s.chain).find v c hc)
  | recovery => exact hs
  | castVote hc hr => exact hset fun _ _ => hr.anchored.2.imp_right .inl
  | nullify => exact hset fun _ _ => .inr (.inr rfl)
  | propose _ hsteps => exact hs.steps (Steps.ofBlock hsteps)
  | _ => exact hs

/-! ## Runs of steps -/

/-- A run of steps. -/
abbrev Steps : Replica P → Replica P → Prop := ReflTransGen (Step A)

theorem Steps.wf (h : Steps (A := A) s s') (hs : s.WF A) : s'.WF A := by
  induction h with
  | refl => exact hs
  | tail _ hstep ih => exact hstep.wf ih

/-- The replica with another view manager. -/
def withManager (s : Replica P) (vm : ViewProgressManager P) : Replica P :=
  { s with viewManager := vm }

variable (A) in
/-- `s` was reached from `s₀` and is settled. -/
structure At (s₀ s : Replica P) : Prop where
  steps : Steps (A := A) s₀ s
  settled : s.chain.Settled

theorem At.wf (h : At A s₀ s) (h₀ : s₀.WF A) : s.WF A := Steps.wf h.steps h₀

theorem At.step (h : At A s₀ s) (hstep : CleanStep A s s') : At A s₀ s' :=
  ⟨h.steps.tail (.clean hstep), hstep.settled h.settled⟩

theorem At.ready (h : At A s₀ s) (h₀ : s₀.WF A) :
    s.chain.Ready (A.admits s.signed) cfg.peers cfg.replicaId :=
  ⟨(h.wf h₀).chain, h.settled, (h.wf h₀).pending⟩

/-- A run of the chain is a run of the replica. -/
theorem At.chainSteps (h : At A s₀ s) {chain' : ViewChain P}
    (hsteps : ViewChain.Steps (CtxStep (A.admits s.signed) cfg.peers) s.chain chain') :
    At A s₀ (s.onChain fun _ => chain') := by
  induction hsteps with
  | refl => exact h
  | tail _ hstep ih => exact At.step ih (.chain hstep)

end Replica

end Minimmit
