/-
Minimmit.Consensus.CollectionTheorems — when finalization does what its
callers rely on.

Three statements about `finalize_with_l_notarization` on a reachable chain,
each with the exact condition under which it holds:

  * an error leaves the chain as it was (`failed_finalization_unchanged_iff`);
  * a view that `oldest_finalizable_view` returns is finalized, or a block is
    missing (`precheck_agrees_iff`);
  * a finalization collects every view up to the finalized one and files each
    block in the right table (`collects_completely_iff`).

The runs at the end need no faulty leader for the first two: three replicas
nullify a view in which the three others see an M-notarization, and the chain
that extends it is finalized where it was nullified.
-/
import Minimmit.Consensus.CollectionSteps

namespace Minimmit

open Minimmit.Library Relation Option Replica List

variable {P : Params} {cfg : Config P} {s : ViewChain P}

/-! ## Reachable chains -/

/-- The chain of a replica in a run with any messages, between two events or
right before one of its finalizations. -/
def ReachableChain (cfg : Config P) (s : ViewChain P) : Prop :=
  ∃ r running, Replica.Run cfg (fun _ _ => True) r running ∧
    (s = r.chain ∨ ∃ view, (view, s) ∈ r.viewManager.finalizations)

/-- What holds of the chain after any steps of a replica holds of every
reachable chain. -/
theorem ReachableChain.of_steps {J : ViewChain P → Prop}
    (hJ : ∀ r, Steps (A := .any cfg) (start cfg) r → J r.chain)
    (h : ReachableChain cfg s) : J s := by
  obtain ⟨r, running, hrun, hs⟩ := h
  obtain ⟨hsteps, -⟩ := Run.steps (A := .any cfg) (fun _ _ _ => trivial) hrun
  have hlogged : ∀ e ∈ r.viewManager.finalizations, J e.2 := by
    clear hrun hs
    induction hsteps with
    | refl => exact fun e he => absurd he not_mem_nil
    | @tail r r' hsteps hlast ih =>
      rcases Step.tables hlast with ⟨-, heq⟩ | ⟨view, rfl⟩
      · rw [heq]
        exact ih
      · intro e he
        rcases mem_append.mp he with hold | hlast
        · exact ih e hold
        · rw [mem_singleton.mp hlast]
          exact hJ r hsteps
  rcases hs with rfl | ⟨view, hmem⟩
  · exact hJ r hsteps
  · exact hlogged _ hmem

/-- Every reachable chain is well formed. -/
theorem ReachableChain.wf (h : ReachableChain cfg s) : s.WF cfg.peers cfg.replicaId :=
  h.of_steps fun _ hsteps => (Steps.wf hsteps start_wf).chain

/-- The leaders of a replica that is one of its peers are peers. -/
theorem ReachableChain.leaderKey (hself : cfg.peers.contains cfg.replicaId = true)
    (h : ReachableChain cfg s) :
    ∀ w c, s.findViewContext w = some c → ∃ key, cfg.peers.getPublicKey c.leaderId = some key := by
  intro w c hc
  rw [h.wf.leaderId w c hc]
  exact (cfg.peers.contains_iff _).mp (PeerSet.leaderForView_mem hself w)

/-- The chains before the finalizations of a run. -/
theorem Replica.Run.reachableChain {r : Replica P} {running : Bool}
    (h : Run cfg (fun _ _ => True) r running) {view : Nat}
    (hs : (view, s) ∈ r.viewManager.finalizations) : ReachableChain cfg s :=
  ⟨r, running, h, Or.inr ⟨view, hs⟩⟩

/-- The block of view 3 on top of the first two. -/
def thirdBlock : Block sampleParams := emptyBlock 3 secondBlock.getHash 0

/-- Replica 0 votes for the first block and gets a nullification of view 1
from three others. The rest has gone on from an M-notarization of that block:
replica 0 gets the certificate of the second block, recovers the block, and
gets the third with enough votes to finalize it. -/
def conflictedInputs : List (Input sampleParams) :=
  [.message (.blockProposal firstBlock), .message (.nullification (nullificationOf 1)),
    .message (.mNotarization (certificateOf 2 secondBlock.getHash)),
    .message (.blockRecoveryResponse 2 secondBlock), .message (.blockProposal thirdBlock),
    .message (.vote (voteOf 1 3 thirdBlock.getHash)),
    .message (.vote (voteOf 2 3 thirdBlock.getHash)),
    .message (.vote (voteOf 4 3 thirdBlock.getHash))]

/-- Replica 0 over `conflictedInputs`. -/
def conflictedRun : Replica sampleParams :=
  (Replica.runAll (sampleConfig 0 (quietEnv _)) 10 conflictedInputs).1

theorem conflictedRun_run : ∃ running,
    Run (sampleConfig 0 (quietEnv _)) (fun _ _ => True) conflictedRun running :=
  ⟨_, run_runAll _ 10 _ fun _ _ => trivial⟩

/-- Replica 0 over the first block and the votes of three others. -/
def finalizingRun : Replica sampleParams :=
  (Replica.runAll (sampleConfig 0 (quietEnv _)) 10 Replica.finalizingInputs).1

theorem finalizingRun_run : ∃ running,
    Run (sampleConfig 0 (quietEnv _)) (fun _ _ => True) finalizingRun running :=
  ⟨_, run_runAll _ 10 _ fun _ _ => trivial⟩

namespace ViewChain

variable {s : ViewChain P} {v : Nat}

/-- A view without a held parent is its whole chain. -/
theorem OnChain.eq_of_stop {w : Nat} (hv : s.parentOf v = none) (h : s.OnChain v w) : w = v := by
  obtain ⟨k, hk⟩ := h
  cases k with
  | zero => exact (some.inj hk).symm
  | succ k => exact absurd ⟨k, hk⟩ (walk_stopped hv)

/-- Did the call end with an error? -/
def failed {ε α : Type} : Outcome ε α → Bool
  | .err _ => true
  | _ => false

theorem failed_iff {ε α : Type} {o : Outcome ε α} : failed o = true ↔ ∃ e, o = .err e := by
  cases o <;> simp [failed]

/-! ## Errors -/

/-- The chain as far as it is about views, the committed hash, the pending
diffs and the store. -/
structure Unchanged (s s' : ViewChain P) : Prop where
  nonFinalizedViews : s'.nonFinalizedViews = s.nonFinalizedViews
  previous : s'.previouslyCommittedBlockHash = s.previouslyCommittedBlockHash
  pendingDiffs : s'.persistenceWriter.pendingDiffs = s.persistenceWriter.pendingDiffs
  store : s'.persistenceWriter.store = s.persistenceWriter.store

/-- An error of the call leaves the chain as it was. -/
def FailsUnchanged (s : ViewChain P) (view : Nat) (peers : PeerSet P) : Prop :=
  ∀ e, (finalizeWithLNotarization view peers s).1 = .err e →
    s.Unchanged (finalizeWithLNotarization view peers s).2

/-- If the checks pass and every block of the chain of `view` is held, every
view of that chain up to `view` is M-notarized. -/
def FinalizesCertified (s : ViewChain P) (view : Nat) : Prop :=
  ∀ parentHash, s.finalizeCheck view = .proceed parentHash → s.ChainEnds view → s.Whole view →
    s.ChainCertified view

/-- **A failed finalization changes nothing** exactly when no view of the chain
it would finalize lacks its M-notarization. -/
theorem failed_finalization_unchanged_iff (hself : cfg.peers.contains cfg.replicaId = true)
    {s : ViewChain P} (h : ReachableChain cfg s) (view : Nat) :
    s.FailsUnchanged view cfg.peers ↔ s.FinalizesCertified view := by
  constructor
  · intro hfails parentHash hcheck hends hwhole
    have hcall := finalize_whole h.wf (h.leaderKey hself) hcheck hends hwhole
    rcases hr : finalizeWithLNotarization view cfg.peers s with ⟨o, s'⟩
    rw [hr] at hcall
    cases o with
    | ok _ => exact hcall.1
    | err e =>
      -- the error comes after a view was taken out of the map
      obtain ⟨-, w, c, hc, hgone⟩ := hcall
      have hsame := (hfails e (by rw [hr])).nonFinalizedViews
      rw [hr] at hsame
      have heq : s'.findViewContext w = s.findViewContext w := congrArg (AList.lookup w) hsame
      rw [hgone, hc] at heq
      cases heq
    | panic | exhausted => exact hcall.elim
  · intro hcert e he
    rcases hcheck : s.finalizeCheck view with e' | _ | parentHash
    · rw [finalize_refuse hcheck]
      exact ⟨rfl, rfl, rfl, rfl⟩
    · rw [finalize_defer hcheck] at he
      cases he
    by_cases hends : s.ChainEnds view
    · by_cases hwhole : s.Whole view
      · have hcall := finalize_whole h.wf (h.leaderKey hself) hcheck hends hwhole
        rcases hr : finalizeWithLNotarization view cfg.peers s with ⟨o, s'⟩
        rw [hr] at hcall he
        subst he
        exact absurd (hcert parentHash hcheck hends hwhole) hcall.1
      · obtain ⟨missing, -, -, heq⟩ := finalize_missing cfg.peers hcheck hends hwhole
        rw [heq] at he
        cases he
    · rw [finalize_circular hcheck hends] at he
      cases he

/-- The finalization of the first block meets the condition. -/
theorem failed_finalization_unchanged_iff_first :
    ∃ e ∈ finalizingRun.viewManager.finalizations,
      (e.2.FailsUnchanged e.1 samplePeers ↔ e.2.FinalizesCertified e.1) ∧
      e.2.FinalizesCertified e.1 := by
  have hfacts : ∃ e ∈ finalizingRun.viewManager.finalizations, e.2.parentOf e.1 = none ∧
      ∀ c ∈ e.2.findViewContext e.1, c.mNotarization.isSome = true := by
    decide +kernel
  obtain ⟨⟨v, s⟩, hmem, hstop, hcert⟩ := hfacts
  obtain ⟨running, hrun⟩ := finalizingRun_run
  have hreach : ReachableChain (sampleConfig 0 (quietEnv _)) s := hrun.reachableChain hmem
  refine ⟨(v, s), hmem, failed_finalization_unchanged_iff (by decide) hreach v,
    fun _ _ _ _ w c _ hon hc => ?_⟩
  obtain rfl := hon.eq_of_stop hstop
  exact hcert c hc

/-- The finalization of the third block fails at the nullified first view,
after that view was removed and its block committed. -/
theorem failed_finalization_commits :
    ∃ s, ReachableChain (sampleConfig 0 (quietEnv _)) s ∧
      (∃ e, (finalizeWithLNotarization 3 samplePeers s).1 = .err e) ∧
      s.findViewContext 1 ≠ none ∧
      (finalizeWithLNotarization 3 samplePeers s).2.findViewContext 1 = none ∧
      s.previouslyCommittedBlockHash = Block.genesisHash sampleParams ∧
      (finalizeWithLNotarization 3 samplePeers s).2.previouslyCommittedBlockHash =
        firstBlock.getHash := by
  have hfacts : ∃ e ∈ conflictedRun.viewManager.finalizations,
      failed (finalizeWithLNotarization 3 samplePeers e.2).1 = true ∧
      (e.2.findViewContext 1).isSome = true ∧
      ((finalizeWithLNotarization 3 samplePeers e.2).2.findViewContext 1).isNone = true ∧
      e.2.previouslyCommittedBlockHash = Block.genesisHash sampleParams ∧
      (finalizeWithLNotarization 3 samplePeers e.2).2.previouslyCommittedBlockHash =
        firstBlock.getHash := by
    decide +kernel
  obtain ⟨⟨v, s⟩, hmem, hfailed, hheld, hgone, hbefore, hafter⟩ := hfacts
  obtain ⟨running, hrun⟩ := conflictedRun_run
  exact ⟨s, hrun.reachableChain hmem, failed_iff.mp hfailed,
    Option.isSome_iff_ne_none.mp hheld, Option.isNone_iff_eq_none.mp hgone, hbefore, hafter⟩

/-! ## The pre-check -/

/-- What the callers of `oldest_finalizable_view` rely on. -/
def PrecheckAgrees (s : ViewChain P) (peers : PeerSet P) : Prop :=
  ∀ v h, s.oldestFinalizableView = some (v, h) →
    (finalizeWithLNotarization v peers s).1 = .ok () ∧
      ((finalizeWithLNotarization v peers s).2.findViewContext v = none ∧
          (finalizeWithLNotarization v peers s).2.previouslyCommittedBlockHash = h ∨
        ∃ e ∈ (finalizeWithLNotarization v peers s).2.pendingCanonicalRecovery,
          s.OnChain v e.1 ∧ ∃ c, s.findViewContext e.1 = some c ∧ c.block = none)

/-- Of the returned view: a held parent is older, its chain does not run into
itself, and if every block of it is held, its views are certified. -/
def PrecheckSuffices (s : ViewChain P) : Prop :=
  ∀ v h, s.oldestFinalizableView = some (v, h) →
    (∀ u, s.parentOf v = some u → u < v) ∧ s.ChainEnds v ∧ (s.Whole v → s.ChainCertified v)

theorem firstNotNullified_eq_none {u : Nat} (h : s.intermediatesNullified u v = true) :
    s.firstNotNullified u v = none := by
  refine find?_eq_none.mpr fun w hw => ?_
  have hall := all_eq_true.mp h w hw
  rcases hc : s.findViewContext w with _ | c
  · simp
  · simp only [hc] at hall
    simp [hall]

/-- What the pre-check looked at. -/
theorem oldestFinalizableView_eq {h : Hash P} (hold : s.oldestFinalizableView = some (v, h)) :
    v < s.currentView ∧ ∃ c b, s.findViewContext v = some c ∧ c.block = some b ∧
      c.blockHash = some h ∧ P.N - P.F ≤ c.votes.len ∧ c.isNullified = false ∧
      s.parentFinalizable v b = true := by
  obtain ⟨w, hmem, hw⟩ := exists_of_findSome?_eq_some hold
  have hcandidate := (mem_filter.mp ((perm_insertionSort _ _).mem_iff.mp hmem)).2
  split at hw
  case isTrue => cases hw
  case isFalse hlt =>
    rcases hc : s.findViewContext w with _ | c
    · simp only [hc] at hw
      cases hw
    simp only [hc, Bool.and_eq_true, decide_eq_true_eq, Bool.not_eq_true'] at hcandidate hw
    rcases hb : c.block with _ | b
    · simp only [hb] at hw
      cases hw
    rcases hh : c.blockHash with _ | x
    · simp only [hb, hh] at hw
      cases hw
    simp only [hb, hh] at hw
    split at hw
    case isFalse => cases hw
    case isTrue hparent =>
      obtain ⟨rfl, rfl⟩ := Prod.mk.inj (some.inj hw)
      exact ⟨Nat.lt_of_not_le hlt, c, b, hc, hb, hh, hcandidate.1.1, hcandidate.2, hparent⟩

/-- **The checks repeat the pre-check**, and ask for an older parent. -/
theorem finalizeCheck_of_precheck {peers : PeerSet P} {replicaId : Nat} {h : Hash P}
    (hwf : s.WF peers replicaId) (hold : s.oldestFinalizableView = some (v, h)) :
    ((∀ u, s.parentOf v = some u → u < v) →
        ∃ parentHash, s.finalizeCheck v = .proceed parentHash) ∧
      (¬ (∀ u, s.parentOf v = some u → u < v) → ∃ e, s.finalizeCheck v = .refuse e) := by
  obtain ⟨hlt, c, b, hc, hb, -, hvotes, hnull, hparent⟩ := oldestFinalizableView_eq hold
  have hcheck : s.finalizeCheck v = s.finalizeParentCheck v b.parentBlockHash := by
    simp only [finalizeCheck, Nat.not_lt.mpr hlt.le, Nat.not_lt.mpr hvotes, hc, hnull, hb,
      Bool.false_eq_true, ↓reduceIte]
  rw [hcheck, parentOf_of_block hc hb]
  unfold parentFinalizable at hparent
  unfold finalizeParentCheck
  rcases hu : s.findParentView b.parentBlockHash with _ | u
  · simp only [hu, decide_eq_true_eq] at hparent
    simp only [hparent, ne_eq, not_true_eq_false, ↓reduceIte]
    exact ⟨fun _ => ⟨_, rfl⟩, fun hnot => absurd (fun _ h => nomatch h) hnot⟩
  obtain ⟨d, hd, -⟩ := findParentView_find hu
  simp only [hu, hd, Bool.and_eq_true] at hparent
  obtain ⟨⟨hm, hblock⟩, hbetween⟩ := hparent
  have hm' : d.mNotarization.isNone = false := by simpa using hm
  have hblock' : d.block.isNone = false := by simpa using hblock
  simp only [hd, hm', hblock', Bool.false_eq_true, ↓reduceIte, hwf.viewNumber u d hd,
    firstNotNullified_eq_none hbetween, some.injEq, forall_eq']
  split
  case isTrue hle => exact ⟨fun hu => absurd hu (by omega), fun _ => ⟨_, rfl⟩⟩
  case isFalse hle => exact ⟨fun _ => ⟨_, rfl⟩, fun hu => absurd (by omega) hu⟩

/-- **The pre-check agrees with finalization** exactly when the returned view
has an older parent and a chain that ends, of certified views. -/
theorem precheck_agrees_iff (hself : cfg.peers.contains cfg.replicaId = true)
    {s : ViewChain P} (h : ReachableChain cfg s) :
    s.PrecheckAgrees cfg.peers ↔ s.PrecheckSuffices := by
  constructor
  · intro hagree v x hold
    obtain ⟨hok, -⟩ := hagree v x hold
    obtain ⟨hproceed, hrefuse⟩ := finalizeCheck_of_precheck h.wf hold
    by_cases holder : ∀ u, s.parentOf v = some u → u < v
    · obtain ⟨parentHash, hcheck⟩ := hproceed holder
      by_cases hends : s.ChainEnds v
      · refine ⟨holder, hends, fun hwhole => ?_⟩
        have hcall := finalize_whole h.wf (h.leaderKey hself) hcheck hends hwhole
        rcases hr : finalizeWithLNotarization v cfg.peers s with ⟨o, s'⟩
        rw [hr] at hcall hok
        subst hok
        exact hcall.1
      · rw [finalize_circular hcheck hends] at hok
        cases hok
    · obtain ⟨e, hcheck⟩ := hrefuse holder
      rw [finalize_refuse hcheck] at hok
      cases hok
  · intro hsuff v x hold
    obtain ⟨holder, hends, hcert⟩ := hsuff v x hold
    obtain ⟨parentHash, hcheck⟩ := (finalizeCheck_of_precheck h.wf hold).1 holder
    by_cases hwhole : s.Whole v
    · have hcall := finalize_whole h.wf (h.leaderKey hself) hcheck hends hwhole
      rcases hr : finalizeWithLNotarization v cfg.peers s with ⟨o, s'⟩
      rw [hr] at hcall
      cases o with
      | ok _ =>
        obtain ⟨-, canonical, -, hcollect⟩ := hcall
        obtain ⟨-, c, b, hc, hb, hh, -⟩ := oldestFinalizableView_eq hold
        refine ⟨rfl, Or.inl ⟨?_, ?_⟩⟩
        · rw [hcollect.behind v (Nat.lt_succ_self v), hc, Option.filter_some]
          simp [stays]
        · have hlast := hcollect.committed (Nat.lt_succ_self v) c hc
          rw [hh, Option.some.injEq] at hlast
          exact hlast.symm
      | err e => exact absurd (hcert hwhole) hcall.1
      | panic | exhausted => exact hcall.elim
    · obtain ⟨missing, hne, hmissing, heq⟩ := finalize_missing cfg.peers hcheck hends hwhole
      obtain ⟨e, he⟩ := List.exists_mem_of_ne_nil missing hne
      obtain ⟨hon, d, hd, hblock, -⟩ := hmissing e he
      rw [heq]
      exact ⟨rfl, Or.inr ⟨e, he, hon, d, hd, hblock⟩⟩

/-- Before the finalization of the first block the condition is met. -/
theorem precheck_agrees_iff_first :
    ∃ e ∈ finalizingRun.viewManager.finalizations,
      e.2.oldestFinalizableView = some (1, firstBlock.getHash) ∧ e.2.PrecheckAgrees samplePeers := by
  have hfacts : ∃ e ∈ finalizingRun.viewManager.finalizations, e.2.parentOf 1 = none ∧
      e.2.oldestFinalizableView = some (1, firstBlock.getHash) ∧
      ∀ c ∈ e.2.findViewContext 1, c.mNotarization.isSome = true := by
    decide +kernel
  obtain ⟨⟨v, s⟩, hmem, hstop, hold, hcert⟩ := hfacts
  obtain ⟨running, hrun⟩ := finalizingRun_run
  have hreach : ReachableChain (sampleConfig 0 (quietEnv _)) s := hrun.reachableChain hmem
  refine ⟨(v, s), hmem, hold, (precheck_agrees_iff (by decide) hreach).mpr fun w x hw => ?_⟩
  obtain ⟨rfl, -⟩ := Prod.mk.inj (Option.some.inj (hold.symm.trans hw))
  refine ⟨fun u hu => ?_, ⟨1, .self s 1, hstop⟩, fun _ w c _ hon hc => ?_⟩
  · rw [hstop] at hu
    cases hu
  · obtain rfl := hon.eq_of_stop hstop
    exact hcert c hc

/-- The pre-check returns the third view, and its finalization fails at the
first, which is nullified and two parents away. -/
theorem precheck_returns_unfinalizable :
    ∃ s, ReachableChain (sampleConfig 0 (quietEnv _)) s ∧
      s.oldestFinalizableView = some (3, thirdBlock.getHash) ∧
      ∃ e, (finalizeWithLNotarization 3 samplePeers s).1 = .err e := by
  have hfacts : ∃ e ∈ conflictedRun.viewManager.finalizations,
      e.2.oldestFinalizableView = some (3, thirdBlock.getHash) ∧
      failed (finalizeWithLNotarization 3 samplePeers e.2).1 = true := by
    decide +kernel
  obtain ⟨⟨v, s⟩, hmem, hold, hfailed⟩ := hfacts
  obtain ⟨running, hrun⟩ := conflictedRun_run
  exact ⟨s, hrun.reachableChain hmem, hold, failed_iff.mp hfailed⟩

/-! ## Collection -/

/-- What the map and the block tables are after the finalization of `v`. -/
structure GarbageCollected (s : ViewChain P) (v : Nat) (s' : ViewChain P) : Prop where
  /-- Of the views up to `v` those stay whose certified block is missing. -/
  gone : ∀ w c, w ≤ v → (s'.findViewContext w = some c ↔ s.findViewContext w = some c ∧
    c.mNotarization.isSome = true ∧ c.blockHash.isSome = true ∧ c.block = none ∧
    c.isNullified = false)
  finalized : ∀ w c, s.findViewContext w = some c → s'.findViewContext w = none →
    s.OnChain v w → ∃ b, c.block = some b ∧
      s'.persistenceWriter.store.finalizedBlocks.lookup b.getHash = some b.finalized
  nullified : ∀ w c b, s.findViewContext w = some c → s'.findViewContext w = none →
    ¬ s.OnChain v w → c.block = some b →
      s'.persistenceWriter.store.nullifiedBlocks.lookup b.getHash = some b ∧
      s'.persistenceWriter.store.finalizedBlocks.lookup b.getHash = none
  above : ∀ w, v < w → s'.findViewContext w = s.findViewContext w

/-- A finalization that removes the view collects what it should. -/
def CollectsCompletely (s : ViewChain P) (v : Nat) (peers : PeerSet P) : Prop :=
  (finalizeWithLNotarization v peers s).1 = .ok () →
    (finalizeWithLNotarization v peers s).2.findViewContext v = none →
    s.GarbageCollected v (finalizeWithLNotarization v peers s).2

/-- The block held in view `w`. -/
def Holds (s : ViewChain P) (w : Nat) (b : Block P) : Prop :=
  ∃ c, s.findViewContext w = some c ∧ c.block = some b

/-- Blocks up to `v` with one hash are one block and on one side of the chain,
and no block off the chain has the hash of a finalized one. -/
structure DistinctBlocks (s : ViewChain P) (v : Nat) : Prop where
  sides : ∀ w u b b', w ≤ v → u ≤ v → s.Holds w b → s.Holds u b' → b.getHash = b'.getHash →
    (s.OnChain v w ↔ s.OnChain v u)
  onChain : ∀ w u b b', w ≤ v → u ≤ v → s.Holds w b → s.Holds u b' → b.getHash = b'.getHash →
    s.OnChain v w → s.OnChain v u → b.finalized = b'.finalized
  offChain : ∀ w u b b', w ≤ v → u ≤ v → s.Holds w b → s.Holds u b' → b.getHash = b'.getHash →
    ¬ s.OnChain v w → ¬ s.OnChain v u → b = b'
  fresh : ∀ w b, w ≤ v → s.Holds w b → ¬ s.OnChain v w →
    s.persistenceWriter.store.finalizedBlocks.lookup b.getHash = none

/-- If the finalization of `v` runs to its end, the blocks are distinct. -/
def CollectsDistinct (s : ViewChain P) (v : Nat) : Prop :=
  ∀ parentHash, s.finalizeCheck v = .proceed parentHash → s.ChainEnds v → s.Whole v →
    s.ChainCertified v → s.DistinctBlocks v

section Collected

variable {s s' : ViewChain P} {v : Nat} {w : Nat}

/-- Of a chain whose blocks are all held, a view up to `v` stays if it is
certified, without its block and not nullified. -/
theorem Collected.find_iff (h : s.Collected v s') (hwhole : s.Whole v) (hw : w ≤ v)
    (c : ViewContext P) :
    s'.findViewContext w = some c ↔ s.findViewContext w = some c ∧
      c.mNotarization.isSome = true ∧ c.blockHash.isSome = true ∧ c.block = none ∧
      c.isNullified = false := by
  obtain ⟨canonical, hmem, h⟩ := h
  rw [h.behind w (Nat.lt_succ_of_le hw), filter_eq_some_iff]
  refine and_congr_right fun hc => ?_
  -- a view of the chain has its block, so it does not stay
  have hoff : c.block = none → w ∉ canonical ∧ w ≠ v := by
    intro hnone
    have hnot : ¬ s.OnChain v w := by
      intro hon
      obtain ⟨d, b, hd, hb⟩ := hwhole w hon
      rw [hc, some.injEq] at hd
      rw [← hd, hnone] at hb
      cases hb
    exact ⟨fun hin => hnot ((hmem w).mp hin), fun heq => hnot (heq ▸ OnChain.self s w)⟩
  simp only [stays, isRetained, Bool.and_eq_true, decide_eq_true_eq, isNone_iff_eq_none,
    Bool.or_eq_true, Bool.not_eq_true']
  constructor
  · rintro ⟨-, ⟨⟨hm, hh⟩, hb⟩, hon | hn⟩
    · exact absurd hon (hoff hb).1
    · exact ⟨hm, hh, hb, hn⟩
  · rintro ⟨hm, hh, hb, hn⟩
    exact ⟨(hoff hb).2, ⟨⟨hm, hh⟩, hb⟩, Or.inr hn⟩

/-- A view that is gone is not above `v`. -/
theorem Collected.le_of_gone (h : s.Collected v s') {c : ViewContext P}
    (hc : s.findViewContext w = some c) (hgone : s'.findViewContext w = none) : w ≤ v := by
  obtain ⟨canonical, -, h⟩ := h
  by_contra hlt
  rw [h.ahead w (by omega), hc] at hgone
  cases hgone

/-- A view up to `v` that holds its block is gone. -/
theorem Collected.gone_of_holds (h : s.Collected v s') (hwhole : s.Whole v) {b : Block P}
    (hw : w ≤ v) (hb : s.Holds w b) : s'.findViewContext w = none := by
  obtain ⟨c, hc, hb⟩ := hb
  refine eq_none_iff_forall_ne_some.mpr fun d hd => ?_
  obtain ⟨hd, -, -, hnone, -⟩ := (h.find_iff hwhole hw d).mp hd
  rw [hc, some.injEq] at hd
  rw [← hd, hb] at hnone
  cases hnone

/-- **Distinct blocks** are filed each in its table. -/
theorem Collected.garbageCollected (h : s.Collected v s') (hwhole : s.Whole v)
    (hdistinct : s.DistinctBlocks v) : s.GarbageCollected v s' := by
  refine ⟨fun w c hw => h.find_iff hwhole hw c, fun w c hc hgone hon => ?_,
    fun w c b hc hgone hoff hb => ?_, fun w hw => ?_⟩
  · have hle := h.le_of_gone hc hgone
    obtain ⟨d, b, hd, hb⟩ := hwhole w hon
    rw [hc, some.injEq] at hd
    subst hd
    obtain ⟨canonical, hmem, h⟩ := h
    obtain ⟨b₀, ⟨u, d, hu, huon, hd, hb₀⟩, heq, hlookup⟩ :=
      h.finalized b ⟨w, c, Nat.lt_succ_of_le hle, (hmem w).mpr hon, hc, hb⟩
    rw [hdistinct.onChain u w b₀ b (Nat.le_of_lt_succ hu) hle ⟨d, hd, hb₀⟩ ⟨c, hc, hb⟩ heq
      ((hmem u).mp huon) hon] at hlookup
    exact ⟨b, hb, hlookup⟩
  · have hle := h.le_of_gone hc hgone
    obtain ⟨canonical, hmem, h⟩ := h
    obtain ⟨b₀, ⟨u, d, hu, huoff, hd, hb₀⟩, heq, hlookup⟩ :=
      h.nullified b ⟨w, c, Nat.lt_succ_of_le hle, fun hin => hoff ((hmem w).mp hin), hc, hb⟩
    rw [hdistinct.offChain u w b₀ b (Nat.le_of_lt_succ hu) hle ⟨d, hd, hb₀⟩ ⟨c, hc, hb⟩ heq
      (fun hon => huoff ((hmem u).mpr hon)) hoff] at hlookup
    refine ⟨hlookup, eq_none_iff_forall_ne_some.mpr fun b' hb' => ?_⟩
    rcases h.origin _ _ hb' with hold | ⟨b₁, ⟨x, e, hx, hxon, he, hb₁⟩, hhash⟩
    · rw [hdistinct.fresh w b hle ⟨c, hc, hb⟩ hoff] at hold
      cases hold
    · exact hoff ((hdistinct.sides x w b₁ b (Nat.le_of_lt_succ hx) hle ⟨e, he, hb₁⟩ ⟨c, hc, hb⟩
        hhash).mp ((hmem x).mp hxon))
  · obtain ⟨canonical, -, h⟩ := h
    exact h.ahead w hw

/-- Tables in which every block is found under its hash tell blocks apart. -/
theorem GarbageCollected.distinct (h : s.GarbageCollected v s') (hcollect : s.Collected v s')
    (hwhole : s.Whole v) : s.DistinctBlocks v := by
  have hgone : ∀ {w b}, w ≤ v → s.Holds w b → s'.findViewContext w = none :=
    fun hw hb => hcollect.gone_of_holds hwhole hw hb
  have hfin : ∀ {w b}, w ≤ v → s.Holds w b → s.OnChain v w →
      s'.persistenceWriter.store.finalizedBlocks.lookup b.getHash = some b.finalized := by
    intro w b hw hb hon
    obtain ⟨c, hc, hcb⟩ := hb
    obtain ⟨b', hb', hlookup⟩ := h.finalized w c hc (hgone hw ⟨c, hc, hcb⟩) hon
    rw [hcb, some.injEq] at hb'
    exact hb' ▸ hlookup
  have hnull : ∀ {w b}, w ≤ v → s.Holds w b → ¬ s.OnChain v w →
      s'.persistenceWriter.store.nullifiedBlocks.lookup b.getHash = some b ∧
        s'.persistenceWriter.store.finalizedBlocks.lookup b.getHash = none := by
    intro w b hw hb hoff
    obtain ⟨c, hc, hcb⟩ := hb
    exact h.nullified w c b hc (hgone hw ⟨c, hc, hcb⟩) hoff hcb
  have hapart : ∀ {w u b b'}, w ≤ v → u ≤ v → s.Holds w b → s.Holds u b' →
      b.getHash = b'.getHash → s.OnChain v w → s.OnChain v u := by
    intro w u b b' hw hu hb hb' heq hon
    by_contra hoff
    have hsome := hfin hw hb hon
    rw [heq, (hnull hu hb' hoff).2] at hsome
    cases hsome
  refine ⟨fun w u b b' hw hu hb hb' heq => ⟨hapart hw hu hb hb' heq,
    hapart hu hw hb' hb heq.symm⟩, fun w u b b' hw hu hb hb' heq hwon huon => ?_,
    fun w u b b' hw hu hb hb' heq hwoff huoff => ?_, fun w b hw hb hoff => ?_⟩
  · have hsame := hfin hw hb hwon
    rw [heq, hfin hu hb' huon, some.injEq] at hsame
    exact hsame.symm
  · have hsame := (hnull hw hb hwoff).1
    rw [heq, (hnull hu hb' huoff).1, some.injEq] at hsame
    exact hsame.symm
  · obtain ⟨canonical, -, hloop⟩ := hcollect
    by_contra hold
    have hkept := hloop.grows b.getHash (isSome_iff_ne_none.mpr hold)
    rw [(hnull hw hb hoff).2] at hkept
    cases hkept

end Collected

/-- A view that is not refused is held. -/
theorem find_of_not_refused (h : ∀ e, s.finalizeCheck v ≠ .refuse e) :
    s.findViewContext v ≠ none := by
  intro hnone
  unfold finalizeCheck at h
  split at h
  · exact h _ rfl
  · rw [hnone] at h
    exact h _ rfl

/-- **Garbage collection is complete** exactly when the blocks it files can be
told apart by their hashes. -/
theorem collects_completely_iff (hself : cfg.peers.contains cfg.replicaId = true)
    {s : ViewChain P} (h : ReachableChain cfg s) (v : Nat) :
    s.CollectsCompletely v cfg.peers ↔ s.CollectsDistinct v := by
  constructor
  · intro hcollects parentHash hcheck hends hwhole hcert
    have hcall := finalize_whole h.wf (h.leaderKey hself) hcheck hends hwhole
    unfold CollectsCompletely at hcollects
    rcases hr : finalizeWithLNotarization v cfg.peers s with ⟨o, s'⟩
    rw [hr] at hcall hcollects
    cases o with
    | ok _ =>
      obtain ⟨-, hcollect⟩ := hcall
      obtain ⟨c, b, hc, hb⟩ := hwhole v (.self s v)
      have hgone := hcollect.gone_of_holds hwhole le_rfl ⟨c, hc, hb⟩
      exact (hcollects rfl hgone).distinct hcollect hwhole
    | err e => exact absurd hcert hcall.1
    | panic | exhausted => exact hcall.elim
  · intro hdistinct hok hgone
    rcases hcheck : s.finalizeCheck v with e | _ | parentHash
    · rw [finalize_refuse hcheck] at hok
      cases hok
    · -- a call that is put off removes nothing
      rw [finalize_defer hcheck] at hgone
      exact absurd hgone (find_of_not_refused fun e he => by rw [hcheck] at he; cases he)
    have hheld : s.findViewContext v ≠ none :=
      find_of_not_refused fun e he => by rw [hcheck] at he; cases he
    by_cases hends : s.ChainEnds v
    · by_cases hwhole : s.Whole v
      · have hcall := finalize_whole h.wf (h.leaderKey hself) hcheck hends hwhole
        rcases hr : finalizeWithLNotarization v cfg.peers s with ⟨o, s'⟩
        rw [hr] at hcall hok
        subst hok
        exact hcall.2.garbageCollected hwhole (hdistinct parentHash hcheck hends hwhole hcall.1)
      · obtain ⟨missing, -, -, heq⟩ := finalize_missing cfg.peers hcheck hends hwhole
        rw [heq] at hgone
        exact absurd hgone hheld
    · rw [finalize_circular hcheck hends] at hok
      cases hok

/-- The finalization of the first block collects its view. -/
theorem collects_completely_iff_first :
    ∃ e ∈ finalizingRun.viewManager.finalizations, e.2.findViewContext 1 ≠ none ∧
      (finalizeWithLNotarization 1 samplePeers e.2).2.findViewContext 1 = none ∧
      e.2.CollectsCompletely 1 samplePeers := by
  have hfacts : ∃ e ∈ finalizingRun.viewManager.finalizations,
      (e.2.findViewContext 1).isSome = true ∧
      ((finalizeWithLNotarization 1 samplePeers e.2).2.findViewContext 1).isNone = true ∧
      (e.2.findViewContext 0).isNone = true := by
    decide +kernel
  obtain ⟨⟨v, s⟩, hmem, hheld, hgone, hzero⟩ := hfacts
  obtain ⟨running, hrun⟩ := finalizingRun_run
  have hreach : ReachableChain (sampleConfig 0 (quietEnv _)) s := hrun.reachableChain hmem
  refine ⟨(v, s), hmem, Option.isSome_iff_ne_none.mp hheld, Option.isNone_iff_eq_none.mp hgone,
    (collects_completely_iff (by decide) hreach 1).mpr fun _ _ _ _ _ => ?_⟩
  -- view 1 is the only one up to it
  have hone : ∀ {w b}, w ≤ 1 → s.Holds w b → w = 1 := by
    rintro w b hw ⟨c, hc, -⟩
    rcases Nat.lt_or_ge w 1 with hlt | hge
    · obtain rfl : w = 0 := by omega
      rw [Option.isNone_iff_eq_none.mp hzero] at hc
      cases hc
    · omega
  have hsame : ∀ {w u b b'}, w ≤ 1 → u ≤ 1 → s.Holds w b → s.Holds u b' → w = u ∧ b = b' := by
    intro w u b b' hw hu hb hb'
    obtain rfl := hone hw hb
    obtain rfl := hone hu hb'
    obtain ⟨c, hc, hcb⟩ := hb
    obtain ⟨d, hd, hdb⟩ := hb'
    rw [hc, Option.some.injEq] at hd
    rw [← hd, hcb, Option.some.injEq] at hdb
    exact ⟨rfl, hdb⟩
  refine ⟨fun w u b b' hw hu hb hb' _ => ?_, fun w u b b' hw hu hb hb' _ _ _ => ?_,
    fun w u b b' hw hu hb hb' _ _ _ => (hsame hw hu hb hb').2, fun w b hw hb hoff => ?_⟩
  · rw [(hsame hw hu hb hb').1]
  · rw [(hsame hw hu hb hb').2]
  · exact absurd (hone hw hb ▸ OnChain.self s w) hoff

/-- The leader of view 2 puts the hash of the first block, whose view was
nullified, on a block of its own. -/
def reusedInputs : List (Input sampleParams) :=
  let reused := sampleBlock 2 (Block.genesisHash sampleParams) 0 firstBlock.getHash
  [.message (.blockProposal firstBlock), .message (.nullification (nullificationOf 1)),
    .message (.blockProposal reused), .message (.vote (voteOf 1 2 firstBlock.getHash)),
    .message (.vote (voteOf 3 2 firstBlock.getHash)),
    .message (.vote (voteOf 4 2 firstBlock.getHash))]

/-- Replica 0 over `reusedInputs`. -/
def reusedRun : Replica sampleParams :=
  (Replica.runAll (sampleConfig 0 (quietEnv _)) 10 reusedInputs).1

/-- The finalization of view 2 files the nullified block of view 1, and its
hash is among the finalized ones afterwards. -/
theorem nullified_block_finalized :
    ∃ s c b, ReachableChain (sampleConfig 0 (quietEnv _)) s ∧
      (finalizeWithLNotarization 2 samplePeers s).1 = .ok () ∧
      (finalizeWithLNotarization 2 samplePeers s).2.findViewContext 2 = none ∧
      s.findViewContext 1 = some c ∧ c.block = some b ∧ ¬ s.OnChain 2 1 ∧
      (finalizeWithLNotarization 2 samplePeers s).2.findViewContext 1 = none ∧
      (finalizeWithLNotarization 2 samplePeers s).2.persistenceWriter.store.finalizedBlocks.lookup
        b.getHash ≠ none := by
  have hfacts : ∃ e ∈ reusedRun.viewManager.finalizations,
      (finalizeWithLNotarization 2 samplePeers e.2).1.isOk = true ∧
      ((finalizeWithLNotarization 2 samplePeers e.2).2.findViewContext 2).isNone = true ∧
      ((e.2.findViewContext 1).bind (·.block)).map Block.getHash = some firstBlock.getHash ∧
      e.2.parentOf 2 = none ∧
      ((finalizeWithLNotarization 2 samplePeers e.2).2.findViewContext 1).isNone = true ∧
      ((finalizeWithLNotarization 2 samplePeers e.2).2.persistenceWriter.store.finalizedBlocks.lookup
        firstBlock.getHash).isSome = true := by
    decide +kernel
  obtain ⟨⟨v, s⟩, hmem, hok, hgone, hblock, hstop, hgone', hfin⟩ := hfacts
  have hrun : ∃ running,
      Replica.Run (sampleConfig 0 (quietEnv _)) (fun _ _ => True) reusedRun running :=
    ⟨_, Replica.run_runAll _ 10 _ fun _ _ => trivial⟩
  obtain ⟨running, hrun⟩ := hrun
  obtain ⟨b, hb, hhash⟩ := Option.map_eq_some_iff.mp hblock
  obtain ⟨c, hc, hcb⟩ := Option.bind_eq_some_iff.mp hb
  obtain ⟨a, ha⟩ := Outcome.isOk_iff.mp hok
  refine ⟨s, c, b, hrun.reachableChain hmem, ha, Option.isNone_iff_eq_none.mp hgone, hc, hcb,
    fun hon => ?_, Option.isNone_iff_eq_none.mp hgone', ?_⟩
  · exact absurd (hon.eq_of_stop hstop) (by decide)
  · rw [hhash]
    exact Option.isSome_iff_ne_none.mp hfin

end ViewChain

end Minimmit
