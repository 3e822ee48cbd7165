/-
Minimmit.Consensus.WalkTheorems — finalization comes to an end.

The walk over parent hashes keeps no list of the views it has seen. It ends
because every stored block has an older parent, as long as hashes say which
view they are of: a proposal has the parent its view was opened on, which is
a certified or committed hash of an older view, and a hash leads to one view
only. So if the hashes that arrive are of the views they are sent for, and
the parent of a recovered block is of an older view, the walk goes down and
visits no view twice (`finalization_terminates`). Nothing about the parent of
a recovered block is checked; one that is its own parent makes the walk go
round for ever (`walk_without_end`).
-/
import Minimmit.Consensus.BindingTheorems
import Minimmit.Consensus.FinalizationTheorems

namespace Minimmit

open Minimmit.Library Relation ViewContext ViewChain List

variable {P : Params}

/-- The hash is of a block older than the view. -/
def OlderHash (v : Nat) (h : Hash P) : Prop := ∃ u, u < v ∧ HashOf u h

theorem OlderHash.mono {v w : Nat} {h : Hash P} (hh : OlderHash v h) (hle : v ≤ w) :
    OlderHash w h := by
  obtain ⟨u, hu, hof⟩ := hh
  exact ⟨u, hu.trans_le hle, hof⟩

theorem hashOf_genesisHash (P : Params) : HashOf 0 (Block.genesisHash P) :=
  ⟨by decide, P.hashing.zero, [], 0, by decide, rfl⟩

/-- The hashes of proposals and certificates are of the view beside them, and
the parent of a recovered block is older than its view. -/
def ConsensusMessage.Descends : ConsensusMessage P → Prop
  | .blockRecoveryResponse v b => OlderHash v b.parentBlockHash
  | m => m.NamesOwnView

theorem ConsensusMessage.Descends.namesOwnView {m : ConsensusMessage P} (h : m.Descends) :
    m.NamesOwnView := by
  cases m with
  | blockRecoveryResponse v b => trivial
  | _ => exact h

/-- Messages that descend, the own proposals among them. -/
def Admission.descends (cfg : Config P) : Admission cfg where
  admits _ m := m.Descends
  mono h := h
  own hv := cfg.block_hashOf hv _ _

/-! ## Parents are older -/

namespace Replica

variable {cfg : Config P} {adm : ConsensusMessage P → Prop} {c : ViewContext P} {A : Admission cfg}
  {s : Replica P}

/-- Hashes are of their views, and every view was opened on an older one. -/
structure OpenedOnOlder (s : Replica P) : Prop where
  held : ∀ v c, s.context v = some c → c.BoundHash
  entered : ∀ e ∈ s.viewManager.entered, OlderHash e.1 e.2
  committed : OlderHash s.currentView s.chain.previouslyCommittedBlockHash

/-- Moreover the parent of every stored block is older. -/
structure ParentsOlder (s : Replica P) : Prop extends OpenedOnOlder s where
  blocks : ∀ v c b, s.context v = some c → c.block = some b → OlderHash v b.parentBlockHash

/-- A block after a context step was there before, or its parent is the
context's own, or it was recovered. -/
theorem ctxStep_block {peers : PeerSet P} {c' : ViewContext P} (h : CtxStep adm peers c c')
    {b : Block P} (hb : c'.block = some b) :
    (∃ b₀, c.block = some b₀ ∧ b.parentBlockHash = b₀.parentBlockHash) ∨
      b.parentBlockHash = c.parentBlockHash ∨ adm (.blockRecoveryResponse c.viewNumber b) := by
  have hflag : ∀ {b : Block P}, c.markBlockFinalized.block = some b →
      ∃ b₀, c.block = some b₀ ∧ b.parentBlockHash = b₀.parentBlockHash := by
    intro b hb
    obtain ⟨b₀, hb₀, rfl⟩ := Option.map_eq_some_iff.mp hb
    exact ⟨b₀, hb₀, rfl⟩
  cases h with
  | block h =>
    cases h with
    | store d ha h =>
      obtain rfl := Option.some.inj hb
      exact .inr (.inl h.parent)
    | flag => exact .inl (hflag hb)
    | _ => exact .inl ⟨b, hb, rfl⟩
  | certify => exact .inl (hflag hb)
  | recover ha =>
    obtain rfl := Option.some.inj hb
    exact .inr (.inr ha)
  | _ => exact .inl ⟨b, hb, rfl⟩

theorem parentsOlder_chainSteps (hadm : ∀ m, adm m → m.Descends) {peers : PeerSet P}
    {replicaId : Nat} {s s' : ViewChain P} (h : ViewChain.Steps (CtxStep adm peers) s s')
    (hwf : s.WF peers replicaId)
    (hparent : ∀ v c, s.findViewContext v = some c → OlderHash v c.parentBlockHash)
    (hs : ∀ v c b, s.findViewContext v = some c → c.block = some b →
      OlderHash v b.parentBlockHash) :
    ∀ v c b, s'.findViewContext v = some c → c.block = some b → OlderHash v b.parentBlockHash := by
  induction h with
  | refl => exact hs
  | @tail s₁ s₂ hsteps hstep ih =>
    intro v c' b hc' hb
    rcases hstep.find hc' with hold | ⟨c, hc, hctx⟩
    · exact ih v c' b hold hb
    rcases ctxStep_block hctx hb with ⟨b₀, hb₀, heq⟩ | heq | hrec
    · rw [heq]
      exact ih v c b₀ hc hb₀
    · obtain ⟨c₀, hc₀, hsame⟩ := chainSteps_parent hsteps hc
      rw [heq, hsame]
      exact hparent v c₀ hc₀
    · have hold : OlderHash _ _ := hadm _ hrec
      rwa [(hwf.steps hsteps).viewNumber v c hc] at hold

/-- The certified hash of a held view is of that view. -/
theorem OpenedOnOlder.certified (hs : s.OpenedOnOlder) (hwf : s.WF A) {v : Nat}
    {m : MNotarization P} (hc : s.context v = some c) (hm : c.mNotarization = some m) :
    HashOf v m.blockHash := by
  have hhash := hs.held v c hc _ ((hwf.chain.context v c hc).mNotarization_hash m hm)
  rwa [hwf.chain.viewNumber v c hc] at hhash

/-- The parent of a held view is older. -/
theorem OpenedOnOlder.parent (hs : s.OpenedOnOlder) (hwf : s.WF A) {v : Nat}
    (hc : s.context v = some c) : OlderHash v c.parentBlockHash :=
  hs.entered _ (hwf.entered v c hc)

/-- The parent the next view is opened on is older. -/
theorem OpenedOnOlder.next (hs : s.OpenedOnOlder) (hwf : s.WF A)
    (hc : s.context s.currentView = some c) {parent : Hash P}
    (hp : (∃ m, c.mNotarization = some m ∧ parent = m.blockHash) ∨
      (c.hasNullified = true ∧ parent = s.chain.selectParent (s.currentView + 1))) :
    OlderHash (s.currentView + 1) parent := by
  rcases hp with ⟨m, hm, rfl⟩ | ⟨-, rfl⟩
  · exact ⟨s.currentView, Nat.lt_succ_self _, hs.certified hwf hc hm⟩
  · rcases s.chain.selectParent_cases (s.currentView + 1) with ⟨heq, -⟩ | ⟨v, d, m, hd, hcand, hm, heq, -⟩
    · rw [heq]
      exact hs.committed.mono (Nat.le_succ _)
    · rw [heq]
      exact ⟨v, hcand.2.1, hs.certified hwf hd hm⟩

theorem Step.openedOnOlder (hA : ∀ log m, A.admits log m → m.NamesOwnView) {s' : Replica P}
    (h : Step A s s') (hwf : s.WF A) (hs : s.OpenedOnOlder) : s'.OpenedOnOlder := by
  have hheld := Step.boundHash hA h hs.held
  cases h with
  | hashOnly => exact ⟨hheld, hs.entered, hs.committed⟩
  | clean h =>
    cases h with
    | @chain chain' h =>
      refine ⟨hheld, hs.entered, ?_⟩
      rw [show (s.onChain fun _ => chain').currentView = s.currentView from h.currentView,
        show (s.onChain fun _ => chain').chain.previouslyCommittedBlockHash =
          s.chain.previouslyCommittedBlockHash from h.keepsTables.previous]
      exact hs.committed
    | @enter c parent hc _ hp _ =>
      refine ⟨hheld, fun e he => ?_, hs.committed.mono (Nat.le_succ _)⟩
      rcases mem_append.mp he with hold | hlast
      · exact hs.entered e hold
      · rw [mem_singleton.mp hlast]
        exact hs.next hwf hc hp
    | @finalize view hlt =>
      have hprunes := finalize_prunes view s.viewManager.peers s.chain
      refine ⟨hheld, hs.entered, ?_⟩
      rw [show (s.finalized view).currentView = s.currentView from hprunes.currentView]
      rcases finalize_commits view s.viewManager.peers s.chain with
        hold | ⟨v, hv, c, hc, hh⟩
      · rw [show (s.finalized view).chain.previouslyCommittedBlockHash = _ from hold]
        exact hs.committed
      · have hbound := hs.held v c hc _ hh
        rw [hwf.chain.viewNumber v c hc] at hbound
        exact ⟨v, hv.trans_lt hlt, hbound⟩
    | @propose view parent now sent chain' validated' _ hsteps =>
      have hblocks := Steps.ofBlock hsteps
      refine ⟨hheld, hs.entered, ?_⟩
      change OlderHash chain'.currentView chain'.previouslyCommittedBlockHash
      rw [Steps.currentView hblocks, (Steps.keepsTables hblocks).previous]
      exact hs.committed
    | _ => exact ⟨hheld, hs.entered, hs.committed⟩

theorem start_openedOnOlder (cfg : Config P) : (Replica.start cfg).OpenedOnOlder := by
  refine ⟨(start_boundHashes cfg).held, fun e he => ?_, ⟨0, Nat.one_pos, hashOf_genesisHash P⟩⟩
  rw [mem_singleton.mp he]
  exact ⟨0, Nat.one_pos, hashOf_genesisHash P⟩

theorem Step.parentsOlder (hA : ∀ log m, A.admits log m → m.Descends) {s' : Replica P}
    (h : Step A s s') (hwf : s.WF A) (hs : s.ParentsOlder) : s'.ParentsOlder := by
  refine ⟨Step.openedOnOlder (fun log m hm => (hA log m hm).namesOwnView) h hwf
    hs.toOpenedOnOlder, ?_⟩
  have hparent : ∀ v c, s.context v = some c → OlderHash v c.parentBlockHash :=
    fun v c hc => hs.parent hwf hc
  -- replacing a context by one with the same block
  have hset : ∀ {v c c'}, s.context v = some c → c'.block = c.block → ∀ w d b,
      (s.chain.setContext v c').findViewContext w = some d → d.block = some b →
      OlderHash w b.parentBlockHash := by
    intro v c c' hc hblock w d b hd hb
    rcases findViewContext_setContext_cases hd with ⟨rfl, rfl⟩ | ⟨-, hold⟩
    · exact hs.blocks w c b hc (hblock ▸ hb)
    · exact hs.blocks w d b hold hb
  cases h with
  | hashOnly hc h =>
    refine hset hc ?_
    cases h with
    | adoptHash => rfl
  | clean h =>
    cases h with
    | chain h =>
      exact parentsOlder_chainSteps (hA _) (.single h) hwf.chain hparent hs.blocks
    | enter =>
      intro v d b hd hb
      rcases enter_cases hd with ⟨-, rfl⟩ | ⟨-, hold⟩
      · cases hb
      · exact hs.blocks v d b hold hb
    | @finalize view _ =>
      have hprunes := ViewChain.finalize_prunes view s.viewManager.peers s.chain
      exact fun v c b hc => hs.blocks v c b (hprunes.find v c hc)
    | castVote hc => exact hset hc rfl
    | nullify hc => exact hset hc rfl
    | propose _ hsteps =>
      exact parentsOlder_chainSteps (hA _) (Steps.ofBlock hsteps) hwf.chain hparent hs.blocks
    | _ => exact hs.blocks

theorem start_parentsOlder (cfg : Config P) : (Replica.start cfg).ParentsOlder := by
  refine ⟨start_openedOnOlder cfg, ?_⟩
  intro v c b hc hb
  obtain ⟨-, rfl⟩ := start_context hc
  cases hb

end Replica

/-! ## The walk goes down -/

namespace ViewChain

variable {s : ViewChain P}

/-- The held views below a view. -/
def heldBelow (s : ViewChain P) (v : Nat) : List Nat :=
  s.nonFinalizedViews.keys.filter fun w => decide (w < v)

theorem heldBelow_lt {v w : Nat} {c : ViewContext P} (hw : s.findViewContext w = some c)
    (hlt : w < v) : (s.heldBelow w).length < (s.heldBelow v).length := by
  have hkey : w ∈ s.nonFinalizedViews.keys :=
    AList.mem_keys.mp (AList.lookup_isSome.mp (Option.isSome_iff_exists.mpr ⟨c, hw⟩))
  have hsub : s.heldBelow w = (s.heldBelow v).filter fun x => decide (x < w) := by
    unfold heldBelow
    rw [filter_filter]
    refine filter_congr fun x _ => ?_
    simp only [← Bool.decide_and, decide_eq_decide]
    omega
  rw [hsub, length_filter_lt_length_iff_exists]
  exact ⟨w, mem_filter.mpr ⟨hkey, decide_eq_true hlt⟩, by simp⟩

theorem heldBelow_length_le (s : ViewChain P) (v : Nat) :
    (s.heldBelow v).length ≤ s.nonFinalizedViews.entries.length := by
  refine (length_filter_le _ _).trans_eq ?_
  exact length_map _

/-- **The walk ends** and its views increase: every step leads to an older held
view. -/
theorem traceCanonical_ends (hinj : Function.Injective P.hashing.blake3) {peers : PeerSet P}
    {replicaId : Nat} (hwf : s.WF peers replicaId)
    (hheld : ∀ v c, s.findViewContext v = some c → c.BoundHash)
    (hblocks : ∀ v c b, s.findViewContext v = some c → c.block = some b →
      OlderHash v b.parentBlockHash) {fuel v : Nat} {hash : Hash P} {canonical : List Nat}
    (hhash : OlderHash v hash) (hfuel : (s.heldBelow v).length < fuel)
    (hsorted : canonical.Pairwise (· < ·)) (hle : ∀ x ∈ canonical, v ≤ x) :
    ∃ r, s.traceCanonical fuel hash canonical = some r ∧ r.1.Pairwise (· < ·) := by
  induction fuel generalizing v hash canonical with
  | zero => exact absurd hfuel (Nat.not_lt_zero _)
  | succ fuel ih =>
    unfold traceCanonical
    rcases hw : s.findParentView hash with _ | w
    · exact ⟨_, rfl, hsorted⟩
    obtain ⟨c, hc, hch⟩ := findParentView_find hw
    -- the hash is of the view it was found in
    have hlt : w < v := by
      obtain ⟨u, hu, hof⟩ := hhash
      have hbound := hheld w c hc hash hch
      rw [hwf.viewNumber w c hc] at hbound
      rwa [hbound.view_unique hinj hof]
    have hsorted' : (w :: canonical).Pairwise (· < ·) :=
      pairwise_cons.mpr ⟨fun x hx => hlt.trans_le (hle x hx), hsorted⟩
    dsimp only
    rw [hc]
    rcases hb : c.block with _ | b
    · dsimp only
      rw [hb]
      exact ⟨_, rfl, hsorted'⟩
    dsimp only
    rw [hb]
    refine ih (hblocks w c b hc hb) ?_ hsorted' ?_
    · exact (heldBelow_lt hc hlt).trans_le (Nat.lt_succ_iff.mp hfuel)
    · intro x hx
      rcases mem_cons.mp hx with rfl | hx
      · exact Nat.le_refl _
      · exact hlt.le.trans (hle x hx)

/-! ## Finalization comes to an end -/

/-- Finalization returns, and its walk visits no view twice. -/
structure FinalizationReturns (s : ViewChain P) (view : Nat) (peers : PeerSet P) : Prop where
  returns : (finalizeWithLNotarization view peers s).1 ≠ .exhausted
  once : ∀ parentHash, s.finalizeCheck view = .proceed parentHash →
    ∃ canonical missing, s.canonicalViews view parentHash = some (canonical, missing) ∧
      canonical.Nodup

theorem finalizationReturns_of_walk {view : Nat} {peers : PeerSet P}
    (h : ∀ parentHash, s.finalizeCheck view = .proceed parentHash →
      ∃ canonical missing, s.canonicalViews view parentHash = some (canonical, missing) ∧
        canonical.Nodup) : s.FinalizationReturns view peers := by
  refine ⟨?_, h⟩
  unfold finalizeWithLNotarization
  rcases hcheck : s.finalizeCheck view with e | _ | parentHash
  · nofun
  · nofun
  · obtain ⟨canonical, missing, hwalk, -⟩ := h parentHash hcheck
    dsimp only
    rw [hwalk]
    dsimp only
    split
    · nofun
    · split
      · nofun
      case h_2 range hrange =>
        exact Act.EndsBy.ne_exhausted (persistRange_never (k := .exhausted)
          (nonFinalizedViewsUntil_le hrange) (fun h => nomatch h) _ (.refl view _))

end ViewChain

namespace Replica

variable {cfg : Config P}

/-- **A walk through older parents ends.** -/
theorem ParentsOlder.finalizationReturns {A : Admission cfg}
    (hinj : Function.Injective P.hashing.blake3) {s : Replica P} (hs : s.ParentsOlder)
    (hwf : s.WF A) (view : Nat) (peers : PeerSet P) :
    s.chain.FinalizationReturns view peers := by
  refine finalizationReturns_of_walk fun parentHash hproceed => ?_
  obtain ⟨-, c, b, hc, hb, rfl⟩ := finalizeCheck_proceed hproceed
  obtain ⟨⟨canonical, missing⟩, hwalk, hsorted⟩ := traceCanonical_ends hinj hwf.chain
    hs.held hs.blocks (hs.blocks view c b hc hb)
    (Nat.lt_succ_of_le (s.chain.heldBelow_length_le view)) (pairwise_singleton _ view)
    (by simp)
  exact ⟨canonical, missing, hwalk, hsorted.imp Nat.ne_of_lt⟩

theorem Step.attempts_return (hinj : Function.Injective P.hashing.blake3) {s s' : Replica P}
    (h : Step (Admission.descends cfg) s s') (hwf : s.WF (Admission.descends cfg))
    (hs : s.ParentsOlder)
    (ih : ∀ e ∈ s.viewManager.finalizations, e.2.FinalizationReturns e.1 cfg.peers) :
    ∀ e ∈ s'.viewManager.finalizations, e.2.FinalizationReturns e.1 cfg.peers := by
  rcases h.tables with ⟨-, heq⟩ | ⟨view, rfl⟩
  · rw [heq]
    exact ih
  · intro e he
    rcases mem_append.mp he with hold | hlast
    · exact ih e hold
    · rw [mem_singleton.mp hlast]
      exact hs.finalizationReturns hinj hwf view cfg.peers

/-- **Finalization terminates** for every view, in every state a replica
reaches and at every attempt it made on the way, if the messages it handled
carry hashes of their views and every recovered block has an older parent. -/
theorem finalization_terminates (hinj : Function.Injective P.hashing.blake3) {s : Replica P}
    {running : Bool} (h : Run cfg (fun _ m => m.Descends) s running) :
    (∀ view, s.chain.FinalizationReturns view cfg.peers) ∧
      ∀ e ∈ s.viewManager.finalizations, e.2.FinalizationReturns e.1 cfg.peers := by
  obtain ⟨hsteps, -⟩ := Run.steps (A := .descends cfg) (fun _ _ hm => hm) h
  have hinv := Steps.invariant (I := fun s => s.ParentsOlder ∧
      ∀ e ∈ s.viewManager.finalizations, e.2.FinalizationReturns e.1 cfg.peers)
    (fun _ _ hwf hstep ih => ⟨hstep.parentsOlder (fun _ _ hm => hm) hwf ih.1,
      hstep.attempts_return hinj hwf ih.1 ih.2⟩) hsteps start_wf
    ⟨start_parentsOlder cfg, fun e he => absurd he List.not_mem_nil⟩
  have hwf := Steps.wf hsteps start_wf
  exact ⟨fun view => hinv.1.finalizationReturns hinj hwf view cfg.peers, hinv.2⟩

/-! ### Runs -/

/-- Replica 0 can finalize any view after it got the first block and its votes. -/
theorem finalization_terminates_first :
    let s := (runAll (sampleConfig 0 (quietEnv _)) 10 finalizingInputs).1
    s.chain.committed = [firstBlock.getHash] ∧
      (∀ view, s.chain.FinalizationReturns view samplePeers) ∧
      ∀ e ∈ s.viewManager.finalizations, e.2.FinalizationReturns e.1 samplePeers := by
  have hrun : Run (sampleConfig 0 (quietEnv _)) (fun _ m => m.Descends)
      (runAll (sampleConfig 0 (quietEnv _)) 10 finalizingInputs).1
      (runAll (sampleConfig 0 (quietEnv _)) 10 finalizingInputs).2 := by
    refine run_runAll _ 10 _ fun m hm => ?_
    rcases List.mem_cons.mp hm with rfl | hm
    · exact Network.firstBlock_hashOf
    · have hvote : ∃ i, m = .vote (voteOf i 1 firstBlock.getHash) := by
        simp only [List.filterMap_cons, List.filterMap_nil, List.mem_cons,
          List.not_mem_nil, or_false] at hm
        rcases hm with rfl | rfl | rfl
        · exact ⟨2, rfl⟩
        · exact ⟨3, rfl⟩
        · exact ⟨4, rfl⟩
      obtain ⟨i, rfl⟩ := hvote
      trivial
  exact ⟨by decide +kernel, finalization_terminates sampleHashing_injective hrun⟩

/-- What replica 0 gets: the certificate of view 1, for its missing block one
that names itself as parent, and the next block with its votes. -/
def circularInputs : List (Input sampleParams) :=
  [.message (.mNotarization claimedCertificate),
    .message (.blockRecoveryResponse 1 (sampleBlock 1 claimedHash 0 claimedHash)),
    .message (.vote (voteOf 1 2 claimedChild.getHash)),
    .message (.vote (voteOf 3 2 claimedChild.getHash)),
    .message (.vote (voteOf 4 2 claimedChild.getHash)),
    .message (.vote (voteOf 5 2 claimedChild.getHash)),
    .message (.blockProposal claimedChild)]

/-- A walk that is led back to where it is goes on for ever. -/
theorem traceCanonical_circular {s : ViewChain P} {h : Hash P} {v : Nat} {c : ViewContext P}
    {b : Block P} (hv : s.findParentView h = some v) (hc : s.findViewContext v = some c)
    (hb : c.block = some b) (hparent : b.parentBlockHash = h) (fuel : Nat)
    (canonical : List Nat) : s.traceCanonical fuel h canonical = none := by
  induction fuel generalizing canonical with
  | zero => rfl
  | succ fuel ih =>
    unfold traceCanonical
    simp only [hv, hc, hb, hparent]
    exact ih _

/-- The hash the walk starts at, if the checks let it. -/
def walkStart : ViewChain.FinalizeCheck P → Option (Hash P)
  | .proceed parentHash => some parentHash
  | _ => none

theorem walkStart_eq_some {check : FinalizeCheck P} {h : Hash P}
    (hstart : walkStart check = some h) : check = .proceed h := by
  cases check with
  | proceed parentHash => rw [Option.some.inj hstart]
  | _ => cases hstart

/-- Replica 0 reaches a state in which finalizing view 2 goes round for ever:
the walk ends for no number of steps. -/
theorem walk_without_end :
    ∃ s : Replica sampleParams,
      Run (sampleConfig 0 (quietEnv _)) (fun _ m => m.WellTyped) s true ∧
      s.chain.finalizeCheck 2 = .proceed claimedHash ∧
      (∀ fuel, s.chain.traceCanonical fuel claimedHash [2] = none) ∧
      (ViewChain.finalizeWithLNotarization 2 samplePeers s.chain).1 = .exhausted := by
  have hrun := run_goes (sampleConfig 0 (quietEnv _)) 10 circularInputs (·.WellTyped)
    (by decide +kernel) (by decide +kernel)
  have hcheck : (runAll (sampleConfig 0 (quietEnv _)) 10
      circularInputs).1.chain.finalizeCheck 2 = .proceed claimedHash :=
    walkStart_eq_some (by decide +kernel)
  have hview : (runAll (sampleConfig 0 (quietEnv _)) 10
      circularInputs).1.chain.findParentView claimedHash = some 1 := by
    decide +kernel
  have hblock : (((runAll (sampleConfig 0 (quietEnv _)) 10
      circularInputs).1.chain.findViewContext 1).bind (·.block)).map (·.parentBlockHash) =
        some claimedHash := by
    decide +kernel
  obtain ⟨b, hb, hparent⟩ := Option.map_eq_some_iff.mp hblock
  obtain ⟨c, hc, hcb⟩ := Option.bind_eq_some_iff.mp hb
  have hwalk := traceCanonical_circular hview hc hcb hparent
  refine ⟨_, hrun, hcheck, fun fuel => hwalk fuel [2], ?_⟩
  unfold ViewChain.finalizeWithLNotarization ViewChain.canonicalViews
  rw [hcheck]
  dsimp only
  rw [hwalk]

end Replica

end Minimmit
