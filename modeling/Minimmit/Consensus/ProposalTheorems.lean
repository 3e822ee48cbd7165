/-
Minimmit.Consensus.ProposalTheorems — what a proposal does that its leader
never signed.

The signature of a proposal is checked in `add_new_view_block`, which is the
last of the checks. Two things happen before it. A block whose transactions
do not validate makes the replica nullify the view the block names, and a
block whose parent is not M-notarized yet is put aside with its diff. So a
proposal without the leader's signature has no effect exactly if neither
applies (`forged_proposal_iff`); anyone can make a replica nullify its current
view with one transaction that does not validate (`forged_proposal_nullifies`).
-/
import Minimmit.Consensus.SigningTheorems

namespace Minimmit

open Minimmit.Library Act Relation ViewContext ViewChain ViewProgressManager

variable {P : Params}

/-- The leader of the block's view signed its hash. -/
def Block.SignedByLeader (peers : PeerSet P) (b : Block P) : Prop :=
  ∃ pk, peers.getPublicKey (peers.leaderForView b.view) = some pk ∧
    Crypto.verify P.hashing P.curve pk (blockMessage b.getHash) b.leaderSignature = true

namespace ViewChain

/-- The block would be put aside until its parent is M-notarized. -/
def PutsAside (s : ViewChain P) (b : Block P) : Prop :=
  ∃ c, s.findViewContext b.view = some c ∧ c.block = none ∧ c.pendingBlock = none ∧
    s.proposalParent b.view b = .ok true

/-- Storing a context that is there changes nothing a lookup finds. -/
theorem findViewContext_setContext_same {s : ViewChain P} {v : Nat} {c : ViewContext P}
    (hc : s.findViewContext v = some c) (w : Nat) :
    (s.setContext v c).findViewContext w = s.findViewContext w := by
  by_cases hw : w = v
  · subst hw
    exact (findViewContext_setContext_self s w c).trans hc.symm
  · exact findViewContext_setContext_ne s c hw

/-- Without the signature the context refuses the block. -/
theorem addNewViewBlock_forged {peers : PeerSet P} {b : Block P} (hb : ¬ b.SignedByLeader peers)
    {c : ViewContext P} (hleader : c.leaderId = peers.leaderForView b.view) (d : StateDiff P) :
    ∃ e, addNewViewBlock b d peers c = (.err e, c) := by
  unfold addNewViewBlock
  split
  · exact ⟨_, rfl⟩
  split
  · exact ⟨_, rfl⟩
  split
  · exact ⟨_, rfl⟩
  split
  · exact ⟨_, rfl⟩
  split
  · exact ⟨_, rfl⟩
  rename_i pk hpk
  have hverify : Crypto.verify P.hashing P.curve pk (blockMessage b.getHash)
      b.leaderSignature = false := by
    rw [hleader] at hpk
    exact Bool.eq_false_iff.mpr fun hv => hb ⟨pk, hpk, hv⟩
  rw [hverify]
  exact ⟨_, rfl⟩

/-- Without the signature the chain puts the block aside or refuses it. -/
theorem addBlockProposal_forged {peers : PeerSet P} {replicaId : Nat} {s : ViewChain P}
    (hwf : s.WF peers replicaId) {b : Block P} (hb : ¬ b.SignedByLeader peers)
    (d : StateDiff P) :
    (∃ c, s.findViewContext b.view = some c ∧ c.pendingBlock = none ∧ s.PutsAside b ∧
      addBlockProposal b.view b d peers s = (.ok (awaitingProposal b.getHash),
        s.setContext b.view { c with pendingBlock := some b, stateDiff := some d })) ∨
    (¬ s.PutsAside b ∧ ∃ e s', addBlockProposal b.view b d peers s = (.err e, s') ∧
      ∀ v, s'.findViewContext v = s.findViewContext v) := by
  unfold addBlockProposal
  rcases hc : s.findViewContext b.view with _ | c
  · refine .inr ⟨?_, _, s, rfl, fun _ => rfl⟩
    rintro ⟨c, hc', -⟩
    cases hc.symm.trans hc'
  have hput : s.PutsAside b → c.block = none ∧ c.pendingBlock = none ∧
      s.proposalParent b.view b = .ok true := by
    rintro ⟨c', hc', h⟩
    obtain rfl := Option.some.inj (hc.symm.trans hc')
    exact h
  dsimp only
  split
  · rename_i hblock
    refine .inr ⟨fun h => ?_, _, s, rfl, fun _ => rfl⟩
    rw [(hput h).1] at hblock
    cases hblock
  rename_i hblock
  split
  · rename_i hpending
    refine .inr ⟨fun h => ?_, _, s, rfl, fun _ => rfl⟩
    rw [(hput h).2.1] at hpending
    cases hpending
  rename_i hpending
  have hblock : c.block = none := by simpa using hblock
  have hpending : c.pendingBlock = none := by simpa using hpending
  rcases hparent : s.proposalParent b.view b with e | aside
  · refine .inr ⟨fun h => ?_, e, s, rfl, fun _ => rfl⟩
    cases hparent.symm.trans (hput h).2.2
  cases aside with
  | true => exact .inl ⟨c, rfl, hpending, ⟨c, hc, hblock, hpending, hparent⟩, rfl⟩
  | false =>
    obtain ⟨e, he⟩ := addNewViewBlock_forged hb (hwf.leaderId _ c hc) d
    refine .inr ⟨fun h => ?_, e, (s.setContext b.view c).onMNotarization b.view, ?_, fun v => ?_⟩
    · cases hparent.symm.trans (hput h).2.2
    · simp only [runOn, he]
    · rw [findViewContext_onMNotarization, findViewContext_setContext_same hc]

end ViewChain

namespace Replica

variable {s : Replica P} {b : Block P}

/-! ## Nullifying or not -/

/-- The replica may nullify the view of this context on demand. -/
def MayNullify (c : ViewContext P) : Prop :=
  c.hasNullified = false ∧ (Evidence c ∨ c.hasVoted = false)

theorem nullifyView_idle {env : Env P} {v : Nat} (h : ∀ c, s.context v = some c → ¬ MayNullify c) :
    (nullifyView env v false s).2 = s := by
  unfold nullifyView onManager requireContext
  simp only [bind_run, Act.zoom]
  rcases hc : s.viewManager.viewChain.findViewContext v with _ | c
  · rfl
  dsimp only
  by_cases hn : c.hasNullified = true
  · simp only [hn, ↓reduceIte, pure_run]
  · have hn : c.hasNullified = false := by simpa using hn
    rcases nullifyOperation_cases false s.secretKey hn with ⟨hnone, -⟩ | ⟨op, -, hg, -⟩
    · simp only [hn, Bool.false_eq_true, ↓reduceIte, bind_run, get_run, hnone,
        pure_run]
    · exact absurd ⟨hn, hg.resolve_left (by decide)⟩ (h c hc)

theorem nullifyView_flags {env : Env P} {v : Nat} {c : ViewContext P} (hc : s.context v = some c)
    (h : MayNullify c) :
    ∃ c', (nullifyView env v false s).2.context v = some c' ∧ c'.hasNullified = true := by
  obtain ⟨hn, hg⟩ := h
  rcases nullifyOperation_cases false s.secretKey hn with ⟨-, he, hvoted⟩ | ⟨op, hsome, -, hop⟩
  · -- it declines only after a vote without evidence
    rw [hg.resolve_left he] at hvoted
    cases hvoted
  -- the flag is set with the message, and nothing after that unsets it
  have hflag : ∀ sent m, (((s.log (.nullify v false c)).onChain
      (·.setContext v { c with hasNullified := true })).emit sent m).context v =
        some { c with hasNullified := true } :=
    fun _ _ => findViewContext_setContext_self ..
  have hc' : s.viewManager.viewChain.findViewContext v = some c := hc
  have hsend := broadcast_ends env (s.nullifyMessageOf c)
    ((s.log (.nullify v false c)).onChain (·.setContext v { c with hasNullified := true }))
  unfold nullifyView
  simp only [bind_run, onManager, Act.zoom, requireContext, hc', hn, Bool.false_eq_true,
    ↓reduceIte, get_run, hsome, record, modify_run, ViewProgressManager.onChain,
    runOn, hop, createNullifyMessage]
  simp only [nullifyMessageOf, Replica.log, Replica.onChain] at hsend
  split
  case h_1 r s' hr =>
    rw [hr] at hsend
    obtain ⟨-, rfl⟩ := hsend
    unfold ViewProgressManager.markNullified
    split
    · exact ⟨_, hflag true _, rfl⟩
    · exact ⟨_, findViewContext_setContext_self .., rfl⟩
  case h_2 e s' hr =>
    rw [hr] at hsend
    obtain ⟨-, rfl⟩ := hsend
    exact ⟨_, hflag false (s.nullifyMessageOf c), rfl⟩
  case h_3 s' hr =>
    rw [hr] at hsend
    exact hsend.elim
  case h_4 s' hr =>
    rw [hr] at hsend
    exact hsend.elim

/-! ## Handling the proposal -/

/-- No context has changed, and no vote or nullify message was sent. -/
structure Unaffected (s s' : Replica P) : Prop where
  contexts : ∀ v, s'.context v = s.context v
  silent : ∃ sent, s'.outbox = s.outbox ++ sent ∧
    ∀ m ∈ sent, (∀ v, m ≠ .vote v) ∧ ∀ n, m ≠ .nullify n

/-- The proposal does something before its signature is looked at. -/
def ActsUnsigned (s : Replica P) (b : Block P) : Prop :=
  b.view ≤ s.currentView ∧
    (((∃ e, validateBlock s.chain.persistenceWriter.getAccount b = .err e) ∧
      ∃ c, s.context b.view = some c ∧ MayNullify c) ∨
    ((∃ d, validateBlock s.chain.persistenceWriter.getAccount b = .ok d) ∧ s.chain.PutsAside b))

theorem unaffected_of_same {s' : Replica P} (hc : ∀ v, s'.context v = s.context v)
    (ho : s'.outbox = s.outbox) : Unaffected s s' :=
  ⟨hc, [], by rw [ho, List.append_nil], fun _ hm => absurd hm List.not_mem_nil⟩

variable {cfg : Config P} {A : Admission cfg}

/-- A proposal for a view ahead waits or is refused. -/
theorem proposal_ahead (hlt : s.currentView < b.view) (fuel : Nat)
    (handleEvent : ViewProgressEvent P → Op P Unit) :
    Unaffected s (handleConsensusMessageWith fuel handleEvent (.blockProposal b) s).2 := by
  have hlt' : s.viewManager.viewChain.currentView < b.header.view := hlt
  simp only [handleConsensusMessageWith, noteProcessed, modify_run, bind_run, onManager,
    Act.zoom, processConsensusMsg, handleBlockProposal,
    get_run, hlt', ↓reduceIte]
  by_cases hleader : s.viewManager.peers.leaderForView b.header.view ≠ b.leader
  · rw [if_pos hleader]
    exact unaffected_of_same (fun _ => rfl) rfl
  · rw [if_neg hleader]
    exact unaffected_of_same (fun _ => rfl) rfl

/-- A proposal that does not validate asks for a nullify message. -/
theorem proposal_invalid (hle : b.view ≤ s.currentView) {e : List (ValidationError P)}
    (hv : validateBlock s.chain.persistenceWriter.getAccount b = .err e) (fuel : Nat)
    (handleEvent : ViewProgressEvent P → Op P Unit) :
    handleConsensusMessageWith fuel handleEvent (.blockProposal b) s =
      handleEvent (.shouldNullify b.view) (s.note (.processed (.blockProposal b) s.chain)) := by
  have hle' : ¬ s.viewManager.viewChain.currentView < b.header.view := Nat.not_lt.mpr hle
  simp only [handleConsensusMessageWith, noteProcessed, modify_run, bind_run, onManager,
    Act.zoom, processConsensusMsg, handleBlockProposal,
    get_run, hle', ↓reduceIte, hv, pure_run]
  rfl

/-- A proposal whose validation aborts the process changes nothing before. -/
theorem proposal_aborts (hle : b.view ≤ s.currentView)
    (hv : validateBlock s.chain.persistenceWriter.getAccount b = .panic ∨
      validateBlock s.chain.persistenceWriter.getAccount b = .exhausted) (fuel : Nat)
    (handleEvent : ViewProgressEvent P → Op P Unit) :
    Unaffected s (handleConsensusMessageWith fuel handleEvent (.blockProposal b) s).2 := by
  have hle' : ¬ s.viewManager.viewChain.currentView < b.header.view := Nat.not_lt.mpr hle
  rcases hv with hv | hv
  all_goals
    simp only [handleConsensusMessageWith, noteProcessed, modify_run, bind_run, onManager,
      Act.zoom, processConsensusMsg, handleBlockProposal,
      get_run, hle', ↓reduceIte, hv, Act.panic_run, Act.exhausted_run]
    exact unaffected_of_same (fun _ => rfl) rfl

/-- A forged proposal that validates is put aside or refused. -/
theorem forged_valid (hwf : s.WF A) (hb : ¬ b.SignedByLeader cfg.peers)
    (hle : b.view ≤ s.currentView) {d : StateDiff P}
    (hv : validateBlock s.chain.persistenceWriter.getAccount b = .ok d) (fuel : Nat) :
    Unaffected s (handleConsensusMessage cfg.env (fuel + 1) (.blockProposal b) s).2 ↔
      ¬ s.chain.PutsAside b := by
  have hle' : ¬ s.viewManager.viewChain.currentView < b.header.view := Nat.not_lt.mpr hle
  simp only [handleConsensusMessage, handleConsensusMessageWith, noteProcessed, modify_run,
    bind_run, onManager, Act.zoom, processConsensusMsg,
    handleBlockProposal, get_run, hle', ↓reduceIte, hv,
    ViewProgressManager.onChain, hwf.peers]
  rcases addBlockProposal_forged hwf.chain hb d with
    ⟨c, hc, hpending, hput, heq⟩ | ⟨hput, e, chain', heq, hsame⟩
  · refine iff_of_false (fun h => ?_) (not_not_intro hput)
    have hcontext := h.contexts b.view
    change addBlockProposal b.header.view b d cfg.peers s.viewManager.viewChain = _ at heq
    rw [heq] at hcontext
    have hset : some { c with pendingBlock := some b, stateDiff := some d } = s.context b.view :=
      (findViewContext_setContext_self ..).symm.trans hcontext
    have hsame : (some b : Option (Block P)) = c.pendingBlock :=
      congrArg pendingBlock (Option.some.inj (hset.trans hc))
    rw [hpending] at hsame
    cases hsame
  · refine iff_of_true ?_ hput
    change addBlockProposal b.header.view b d cfg.peers s.viewManager.viewChain = _ at heq
    rw [heq]
    exact unaffected_of_same hsame rfl

/-- **A proposal its leader did not sign has no effect** on views and votes
exactly if it does nothing before the signature is looked at. -/
theorem forged_proposal_iff {s : Replica P} {running : Bool}
    (h : Run cfg (fun _ _ => True) s running) {b : Block P}
    (hb : ¬ b.SignedByLeader cfg.peers) (fuel : Nat) :
    Unaffected s (handleConsensusMessage cfg.env (fuel + 1) (.blockProposal b) s).2 ↔
      ¬ ActsUnsigned s b := by
  have hwf := Steps.wf (Run.steps (A := .any cfg) (fun _ _ _ => trivial) h).1 start_wf
  by_cases hle : b.view ≤ s.currentView
  · rcases hv : validateBlock s.chain.persistenceWriter.getAccount b with d | e | _ | _
    · refine (forged_valid hwf hb hle hv fuel).trans (not_congr ⟨fun hput => ?_, ?_⟩)
      · exact ⟨hle, Or.inr ⟨⟨d, hv⟩, hput⟩⟩
      · rintro ⟨-, ⟨⟨e, he⟩, -⟩ | ⟨-, hput⟩⟩
        · cases hv.symm.trans he
        · exact hput
    · have hevent : handleConsensusMessage cfg.env (fuel + 1) (.blockProposal b) s =
          nullifyView cfg.env b.view false (s.note (.processed (.blockProposal b) s.chain)) :=
        proposal_invalid hle hv _ _
      rw [hevent]
      by_cases hmay : ∃ c, s.context b.view = some c ∧ MayNullify c
      · refine iff_of_false (fun hun => ?_) (not_not_intro ⟨hle, Or.inl ⟨⟨e, hv⟩, hmay⟩⟩)
        obtain ⟨c, hc, hc'⟩ := hmay
        obtain ⟨c', hfind, hflag⟩ := @nullifyView_flags _
          (s.note (.processed (.blockProposal b) s.chain)) cfg.env b.view c hc hc'
        rw [hun.contexts, hc] at hfind
        obtain rfl := Option.some.inj hfind
        cases hflag.symm.trans hc'.1
      · have hidle : (nullifyView cfg.env b.view false
            (s.note (.processed (.blockProposal b) s.chain))).2 = s.note _ :=
          nullifyView_idle fun c hc hmay' => hmay ⟨c, hc, hmay'⟩
        rw [hidle]
        refine iff_of_true (unaffected_of_same (fun _ => rfl) rfl) ?_
        rintro ⟨-, ⟨-, hmay'⟩ | ⟨⟨d, hd⟩, -⟩⟩
        · exact hmay hmay'
        · cases hv.symm.trans hd
    · refine iff_of_true (proposal_aborts hle (Or.inl hv) _ _) ?_
      rintro ⟨-, ⟨⟨e, he⟩, -⟩ | ⟨⟨d, hd⟩, -⟩⟩
      · cases hv.symm.trans he
      · cases hv.symm.trans hd
    · refine iff_of_true (proposal_aborts hle (Or.inr hv) _ _) ?_
      rintro ⟨-, ⟨⟨e, he⟩, -⟩ | ⟨⟨d, hd⟩, -⟩⟩
      · cases hv.symm.trans he
      · cases hv.symm.trans hd
  · refine iff_of_true (proposal_ahead (Nat.not_le.mp hle) _ _) fun hacts => hle hacts.1

/-! ### Runs -/

/-- A block of view 1 that its leader never signed. -/
def forgedBlock : Block sampleParams :=
  { firstBlock with leaderSignature := signHash 2 firstBlock.getHash }

/-- The same with a transaction that does not validate. -/
def forgedInvalidBlock : Block sampleParams :=
  { forgedBlock with transactions := [unsignedTransaction] }

theorem forgedBlock_unsigned : ¬ forgedBlock.SignedByLeader samplePeers := by
  rintro ⟨pk, hpk, hv⟩
  have hnone : ((samplePeers.getPublicKey (samplePeers.leaderForView forgedBlock.view)).any
      fun pk => Crypto.verify sampleParams.hashing sampleParams.curve pk
        (blockMessage forgedBlock.getHash) forgedBlock.leaderSignature) = false := by
    decide +kernel
  rw [hpk] at hnone
  cases hnone.symm.trans hv

/-- Replica 0, fresh from genesis, gets the forged block and does not move. -/
theorem forged_proposal_iff_first :
    ¬ forgedBlock.SignedByLeader samplePeers ∧
    Unaffected (Replica.start (sampleConfig 0 (quietEnv _)))
      (handleConsensusMessage (quietEnv _) 10 (.blockProposal forgedBlock)
        (Replica.start (sampleConfig 0 (quietEnv _)))).2 := by
  have hrun : Run (sampleConfig 0 (quietEnv _)) (fun _ _ => True)
      (Replica.start (sampleConfig 0 (quietEnv _))) true := .start
  refine ⟨forgedBlock_unsigned, (forged_proposal_iff hrun forgedBlock_unsigned 9).mpr ?_⟩
  have hvalid : (validateBlock (Replica.start (sampleConfig 0
      (quietEnv _))).chain.persistenceWriter.getAccount forgedBlock).isOk = true := by
    decide +kernel
  have hready : ((Replica.start (sampleConfig 0 (quietEnv _))).chain.proposalParent
      forgedBlock.view forgedBlock).toOption = some false := by
    decide +kernel
  rintro ⟨-, ⟨⟨e, he⟩, -⟩ | ⟨-, c, -, -, -, hparent⟩⟩
  · rw [he] at hvalid
    cases hvalid
  · rw [hparent] at hready
    cases hready

/-- Replica 0, fresh from genesis, gets a block of view 1 that nobody signed,
with a transaction that does not validate, and broadcasts a nullify message. -/
theorem forged_proposal_nullifies :
    Run (sampleConfig 0 (quietEnv _)) (fun _ _ => True)
      (Replica.start (sampleConfig 0 (quietEnv _))) true ∧
    ¬ forgedInvalidBlock.SignedByLeader samplePeers ∧
    (∃ n, .nullify n ∈ (handleConsensusMessage (quietEnv _) 10 (.blockProposal forgedInvalidBlock)
        (Replica.start (sampleConfig 0 (quietEnv _)))).2.outbox) ∧
    ¬ Unaffected (Replica.start (sampleConfig 0 (quietEnv _)))
      (handleConsensusMessage (quietEnv _) 10 (.blockProposal forgedInvalidBlock)
        (Replica.start (sampleConfig 0 (quietEnv _)))).2 := by
  have hsent : ((handleConsensusMessage (quietEnv _) 10 (.blockProposal forgedInvalidBlock)
      (Replica.start (sampleConfig 0 (quietEnv _)))).2.outbox.any (·.isNullify 1)) = true := by
    decide +kernel
  obtain ⟨m, hm, hnull⟩ := List.any_eq_true.mp hsent
  obtain ⟨n, rfl⟩ : ∃ n, m = .nullify n := by
    cases m with
    | nullify n => exact ⟨n, rfl⟩
    | _ => cases hnull
  refine ⟨.start, forgedBlock_unsigned, ⟨n, hm⟩, fun h => ?_⟩
  obtain ⟨sent, hout, hsilent⟩ := h.silent
  rw [hout] at hm
  exact (hsilent _ hm).2 n rfl

end Replica

end Minimmit
