/-
Minimmit.Consensus.ParentTheorems — which parent `select_parent` gives.

`select_parent` takes the greatest held view that is M-notarized and not
nullified. It never compares that view with the last committed one: it relies
on finalization to take every older view out of the map. Finalization does so
unless it retains a view, which it does when the view is M-notarized and not
nullified but its block never came. If no finalization finds such a view, all
held views are later than the last committed block (`CommittedBelow`) and the
parent is live (`selected_parent_live`). If one does, the retained view can
be chosen as the parent of a new block (`parent_below_commit`).
-/
import Minimmit.Consensus.FinalizationTheorems

namespace Minimmit

open Minimmit.Library Act Relation ViewContext List ViewChain

variable {P : Params}

namespace ViewChain

/-! ## The condition -/

/-- Nothing has to be retained by a finalization of `view`: the M-notarized
views below it have their blocks or are nullified, and blocks are in the view
they name. -/
structure Complete (s : ViewChain P) (view : Nat) : Prop where
  blocks : ∀ v c, s.findViewContext v = some c → v < view → c.mNotarization.isSome →
    c.isNullified = false → c.block.isSome
  views : ∀ v c b, s.findViewContext v = some c → c.block = some b → b.view = v

/-- If the checks of finalization pass, nothing has to be retained. -/
def FinalizesCompletely (s : ViewChain P) (view : Nat) : Prop :=
  ∀ parentHash, s.finalizeCheck view = .proceed parentHash → s.Complete view

/-- Every held view is later than the last committed block. -/
def CommittedBelow (s : ViewChain P) : Prop :=
  ∃ top, s.persistenceWriter.store.finalizedBlocks.lookup s.previouslyCommittedBlockHash = some top ∧
    ∀ v c, s.findViewContext v = some c → top.view < v

/-! ## The loop -/

/-- The view is held with its block. -/
def HasBlock (s : ViewChain P) (v : Nat) : Prop :=
  ∃ c b, s.findViewContext v = some c ∧ c.block = some b

variable {s : ViewChain P}

/-- A walk that misses no block meets only views with their block. -/
theorem traceCanonical_hasBlock {fuel : Nat} {hash : Hash P}
    {acc canonical : List Nat} (h : s.traceCanonical fuel hash acc = some (canonical, []))
    (hacc : ∀ v ∈ acc, s.HasBlock v) : ∀ v ∈ canonical, s.HasBlock v := by
  induction fuel generalizing hash acc with
  | zero => cases h
  | succ fuel ih =>
    unfold traceCanonical at h
    split at h
    case h_1 =>
      obtain rfl := (Prod.mk.inj (Option.some.inj h)).1
      exact hacc
    case h_2 v hv =>
      obtain ⟨c, hc, hch⟩ := findParentView_find hv
      rw [hc] at h
      dsimp only at h
      rcases hb : c.block with _ | b
      · rw [hb, hch] at h
        cases (Prod.mk.inj (Option.some.inj h)).2
      · rw [hb] at h
        refine ih h fun w hw => ?_
        rcases mem_cons.mp hw with rfl | hw
        · exact ⟨c, b, hc, hb⟩
        · exact hacc w hw

/-- The state of the loop before it comes to view `n`: what is still held is
ahead and untouched, and later than the last committed block. -/
structure PruneLoop (s₀ : ViewChain P) (n : Nat) (s : ViewChain P) : Prop where
  ahead : ∀ v, n ≤ v → s.findViewContext v = s₀.findViewContext v
  held : ∀ v c, s.findViewContext v = some c → n ≤ v
  committed : s.CommittedBelow

section Loop

variable {s₀ s : ViewChain P} {view n : Nat} {canonical : List Nat} {peers peers' : PeerSet P}
  {replicaId : Nat}

/-- A view that is not held is passed. -/
theorem PruneLoop.pass (h : PruneLoop s₀ n s) (hn : s.findViewContext n = none) :
    PruneLoop s₀ (n + 1) s := by
  refine ⟨fun v hv => h.ahead v (by omega), fun v c hc => ?_, h.committed⟩
  have hne : v ≠ n := by
    rintro rfl
    cases hn.symm.trans hc
  have := h.held v c hc
  omega

/-- A view taken out of the map is behind. -/
theorem PruneLoop.removeView (h : PruneLoop s₀ n s) :
    (∀ v, n + 1 ≤ v → (s.removeView n).findViewContext v = s₀.findViewContext v) ∧
      ∀ v c, (s.removeView n).findViewContext v = some c →
        n + 1 ≤ v ∧ s.findViewContext v = some c := by
  refine ⟨fun v hv => (removeView_find_ne (by omega)).trans (h.ahead v (by omega)), ?_⟩
  intro v c hc
  have hne : v ≠ n := by
    rintro rfl
    cases (AList.lookup_erase v s.nonFinalizedViews).symm.trans hc
  rw [removeView_find_ne hne] at hc
  have := h.held v c hc
  exact ⟨by omega, hc⟩

/-- **One turn of the loop.** -/
theorem PruneLoop.step (hwf : s₀.WF peers' replicaId) (hs : s₀.Complete view)
    (hcanonical : ∀ v ∈ canonical, s₀.HasBlock v) (hview : view ∈ canonical) (hn : n ≤ view)
    (h : PruneLoop s₀ n s) : PruneLoop s₀ (n + 1) (persistStep view canonical peers n s).2 := by
  have hfind := h.ahead n (Nat.le_refl n)
  unfold persistStep
  rcases hc : s.findViewContext n with _ | c
  · exact h.pass hc
  rw [hfind] at hc
  obtain ⟨hahead, hheld⟩ := h.removeView
  dsimp only
  by_cases hcan : n ∈ canonical
  · -- a canonical view has its block, which is committed now
    obtain ⟨c', b, hc', hb⟩ := hcanonical n hcan
    obtain rfl := Option.some.inj (hc.symm.trans hc')
    have hretained : isRetained c (decide (n ∈ canonical)) = false := by simp [isRetained, hb]
    have hhash := (hwf.context n c hc).block_hash b hb
    obtain ⟨w, hF, -, heq⟩ :=
      @persistView_onPath _ n view b canonical peers c hb hhash hcan (s.removeView n)
    rw [if_neg (by simp [hretained]), heq]
    refine ⟨hahead, fun v d hd => (hheld v d hd).1, b.finalized, ?_, fun v d hd => ?_⟩
    · change w.store.finalizedBlocks.lookup b.getHash = some b.finalized
      rw [hF, AList.lookup_insert]
    · have hlt : n < v := (hheld v d hd).1
      rwa [← hs.views n c b hc hb] at hlt
  · have hne : n ≠ view := fun heq => hcan (heq ▸ hview)
    split
    · -- nothing is retained
      rename_i hretained
      exfalso
      simp only [isRetained, hcan, decide_false, Bool.false_or, Bool.and_eq_true,
        Option.isNone_iff_eq_none, Bool.not_eq_true'] at hretained
      obtain ⟨-, ⟨⟨hm, -⟩, hnone⟩, hnull⟩ := hretained
      have hsome := hs.blocks n c hc (by omega) hm hnull
      rw [hnone] at hsome
      cases hsome
    · obtain ⟨w, hF, -, -, heq⟩ := persistView_offPath peers c hne hcan (s.removeView n)
      rw [heq]
      obtain ⟨top, htop, hbelow⟩ := h.committed
      refine ⟨hahead, fun v d hd => (hheld v d hd).1, top, ?_,
        fun v d hd => hbelow v d (hheld v d hd).2⟩
      change w.store.finalizedBlocks.lookup s.previouslyCommittedBlockHash = some top
      rw [hF]
      exact htop

/-- **The loop** leaves no view at or below the last committed one, also if a
write fails on the way. -/
theorem persistRange_prune (hwf : s₀.WF peers' replicaId) (hs : s₀.Complete view)
    (hcanonical : ∀ v ∈ canonical, s₀.HasBlock v) (hview : view ∈ canonical) {len : Nat}
    (hlen : n + len ≤ view + 1) :
    Spec (PruneLoop s₀ n) (persistRange view canonical peers (range' n len))
      (fun _ s => s.CommittedBelow) CommittedBelow CommittedBelow := by
  have hloop : Spec (PruneLoop s₀ n) (persistRange view canonical peers (range' n len))
      (fun _ => PruneLoop s₀ (n + len)) CommittedBelow CommittedBelow := by
    refine spec_forM_range fun i _ hi s h => ?_
    have hnext : PruneLoop s₀ (i + 1) (persistStep view canonical peers i s).2 :=
      h.step hwf hs hcanonical hview (by omega)
    exact (ends_iff_state.mpr hnext).conseq (fun _ _ h => h) (fun _ h => h.committed)
      (fun _ h => h.committed)
  exact fun s h => (hloop s h).conseq (fun _ _ h => h.committed) (fun _ h => h) (fun _ h => h)

end Loop

/-- **A finalization that retains nothing** leaves the held views later than
the last committed block. -/
theorem CommittedBelow.finalize {view : Nat} {peers peers' : PeerSet P}
    {replicaId : Nat} (h : s.CommittedBelow) (hwf : s.WF peers' replicaId)
    (hs : s.FinalizesCompletely view) :
    (finalizeWithLNotarization view peers s).2.CommittedBelow := by
  unfold finalizeWithLNotarization
  rcases hcheck : s.finalizeCheck view with e | _ | parentHash
  · exact h
  · exact h
  · obtain ⟨hle, c, b, hc, hb, rfl⟩ := finalizeCheck_proceed hcheck
    dsimp only
    rcases hwalk : s.canonicalViews view b.parentBlockHash with _ | ⟨canonical, missing⟩
    · exact h
    dsimp only
    split
    · exact h
    rename_i hmissing
    obtain rfl : missing = [] := by simpa using hmissing
    split
    · exact h
    rename_i range hrange
    have hblocks := traceCanonical_hasBlock hwalk fun v hv => by
      rw [mem_singleton.mp hv]
      exact ⟨c, b, hc, hb⟩
    have hview : view ∈ canonical := traceCanonical_mem hwalk mem_cons_self
    obtain ⟨least, len, rfl, hleast, hlen⟩ := nonFinalizedViewsUntil_eq hrange
    have hinit : PruneLoop s least { s with pendingCanonicalRecovery := [] } :=
      ⟨fun _ _ => rfl, fun v d hd => hleast v d hd, h⟩
    exact ends_iff_state.mp (persistRange_prune hwf (hs _ hcheck) hblocks hview
      (hlen hle).le _ hinit)

/-- The parent chosen for the next view is live: the last committed block, and
then no later view qualifies, or the certified block of the greatest view
that does, which is later than the last committed block. -/
def LiveParent (s : ViewChain P) (committedView : Nat) : Prop :=
  (s.selectParent (s.currentView + 1) = s.previouslyCommittedBlockHash ∧
    ∀ v c, s.findViewContext v = some c → committedView < v →
      c.mNotarization.isSome → c.isNullified = true) ∨
  ∃ v c m, s.findViewContext v = some c ∧ committedView < v ∧ c.isNullified = false ∧
    c.mNotarization = some m ∧ s.selectParent (s.currentView + 1) = m.blockHash ∧
    ∀ w d, s.findViewContext w = some d → d.mNotarization.isSome → d.isNullified = false → w ≤ v

theorem liveParent_of_below {peers : PeerSet P} {replicaId committedView : Nat}
    (hwf : s.WF peers replicaId)
    (hbelow : ∀ v c, s.findViewContext v = some c → committedView < v) :
    s.LiveParent committedView := by
  -- every held view is below the next one
  have hcand : ∀ {v c}, s.findViewContext v = some c → c.mNotarization.isSome →
      c.isNullified = false → Candidate (s.currentView + 1) (v, c) :=
    fun hc hm hnull => ⟨hnull, Nat.lt_succ_of_le (hwf.le_current _ _ hc), hm⟩
  rcases s.selectParent_cases (s.currentView + 1) with ⟨heq, hnone⟩ | ⟨v, c, m, hc, hv, hm, heq, hmax⟩
  · refine Or.inl ⟨heq, fun v c hc _ hm => ?_⟩
    by_contra hnull
    exact hnone v c hc (hcand hc hm (Bool.eq_false_iff.mpr hnull))
  · exact Or.inr ⟨v, c, m, hc, hbelow v c hc, hv.1, hm, heq,
      fun w d hd hdm hnull => hmax w d hd (hcand hd hdm hnull)⟩

end ViewChain

namespace Replica

variable {cfg : Config P} {A : Admission cfg}

/-- No finalization attempt of the replica had to retain a view. -/
def FinalizedCompletely (s : Replica P) : Prop :=
  ∀ e ∈ s.viewManager.finalizations, e.2.FinalizesCompletely e.1

theorem Step.committedBelow {s s' : Replica P} (h : Step A s s') (hwf : s.WF A)
    (ih : s.FinalizedCompletely → s.chain.CommittedBelow) (hfin : s'.FinalizedCompletely) :
    s'.chain.CommittedBelow := by
  rcases h.tables with ⟨hkeep, heq⟩ | ⟨view, rfl⟩
  · obtain ⟨top, htop, hbelow⟩ := ih fun e he => hfin e (heq ▸ he)
    refine ⟨top, ?_, fun v c' hc' => ?_⟩
    · rw [hkeep.store.finalizedBlocks, hkeep.previous]
      exact htop
    · rcases h.find hwf hc' with ⟨c, hc, -⟩ | ⟨rfl, -⟩
      · exact hbelow v c hc
      · -- the view before the new one is held
        obtain ⟨c, hc⟩ := hwf.chain.current
        exact Nat.lt_succ_of_lt (hbelow _ c hc)
  · have hbelow := ih fun e he => hfin e (mem_append_left _ he)
    exact hbelow.finalize hwf.chain (hfin (view, s.chain) (mem_append_right _ mem_cons_self))

theorem start_committedBelow (cfg : Config P) : (Replica.start cfg).chain.CommittedBelow := by
  refine ⟨Block.genesis (cfg.peers.leaderForView 0) 0, ?_, fun v c hc => ?_⟩
  · rw [(@start_blocks _ cfg).finalizedBlocks]
    exact AList.lookup_insert _
  · obtain ⟨rfl, -⟩ := start_context hc
    exact Nat.one_pos

/-- **`select_parent` gives a live parent** for the next view, in every run in
which no finalization that passes the checks has to retain a view. -/
theorem selected_parent_live {s : Replica P} {running : Bool}
    (h : Run cfg (fun _ _ => True) s running) (hfin : s.FinalizedCompletely) :
    ∃ top, s.chain.persistenceWriter.store.finalizedBlocks.lookup
        s.chain.previouslyCommittedBlockHash = some top ∧ s.chain.LiveParent top.view := by
  have hsteps := (Run.steps (A := .any cfg) (fun _ _ _ => trivial) h).1
  obtain ⟨top, htop, hbelow⟩ := Steps.invariant
    (I := fun s => s.FinalizedCompletely → s.chain.CommittedBelow)
    (fun _ _ hwf hstep ih => hstep.committedBelow hwf ih) hsteps start_wf
    (fun _ => start_committedBelow cfg) hfin
  exact ⟨top, htop, ViewChain.liveParent_of_below (Steps.wf hsteps start_wf).chain hbelow⟩

/-! ### Runs -/

/-- The test of `Complete`. -/
def completeTest (s : ViewChain P) (view : Nat) : Bool :=
  s.iter.all fun e =>
    (decide (view ≤ e.1) || e.2.mNotarization.isNone || e.2.isNullified || e.2.block.isSome) &&
    e.2.block.all fun b => decide (b.view = e.1)

theorem complete_of_test {s : ViewChain P} {view : Nat} (h : completeTest s view = true) :
    s.Complete view := by
  simp only [completeTest, all_eq_true, Bool.and_eq_true] at h
  refine ⟨fun v c hc hv hm hnull => ?_, fun v c b hc hb => ?_⟩
  · have hsome := (h (v, c) (mem_iter.mpr hc)).1
    simpa [Nat.not_le.mpr hv, hnull, Option.isSome_iff_ne_none.mp hm] using hsome
  · have hview := (h (v, c) (mem_iter.mpr hc)).2
    rw [hb] at hview
    exact of_decide_eq_true hview

/-- Replica 0 finalized the first block and its next parent is live. -/
theorem selected_parent_live_first :
    let s := (runAll (sampleConfig 0 (quietEnv _)) 10 finalizingInputs).1
    s.chain.committed = [firstBlock.getHash] ∧
      ∃ top, s.chain.persistenceWriter.store.finalizedBlocks.lookup
        s.chain.previouslyCommittedBlockHash = some top ∧ s.chain.LiveParent top.view := by
  have hrun := run_any (sampleConfig 0 (quietEnv _)) 10 finalizingInputs
  have hfin : Replica.FinalizedCompletely
      (runAll (sampleConfig 0 (quietEnv _)) 10 finalizingInputs).1 := by
    have htest : ((runAll (sampleConfig 0 (quietEnv _)) 10
        finalizingInputs).1.viewManager.finalizations.all fun e => completeTest e.2 e.1) = true := by
      decide +kernel
    exact fun e he _ _ => complete_of_test (List.all_eq_true.mp htest e he)
  exact ⟨by decide +kernel, selected_parent_live hrun hfin⟩

/-- A block of view 2 on genesis. -/
def skippingBlock : Block sampleParams := emptyBlock 2 (Block.genesisHash sampleParams) 0

/-- What replica 0 gets: the certificates of views 1 and 2, the votes of view
2 and its block, which skips view 1; the block of view 1 never comes. -/
def retainingInputs : List (Input sampleParams) :=
  [.message (.mNotarization (certificateOf 1 firstBlock.getHash)),
    .message (.mNotarization (certificateOf 2 skippingBlock.getHash)),
    .message (.vote (voteOf 1 2 skippingBlock.getHash)),
    .message (.vote (voteOf 2 2 skippingBlock.getHash)),
    .message (.vote (voteOf 3 2 skippingBlock.getHash)),
    .message (.vote (voteOf 4 2 skippingBlock.getHash)),
    .message (.vote (voteOf 5 2 skippingBlock.getHash)),
    .message (.blockRecoveryResponse 2 skippingBlock)]

/-- Replica 0 committed the block of view 2, and the parent it selects for
view 4 is the block of view 1. -/
theorem parent_below_commit :
    ∃ s : Replica sampleParams,
      Run (sampleConfig 0 (quietEnv _)) (fun _ m => m.WellTyped) s true ∧
      s.chain.previouslyCommittedBlockHash = skippingBlock.getHash ∧
      s.chain.selectParent (s.currentView + 1) = firstBlock.getHash ∧
      ∃ top, s.chain.persistenceWriter.store.finalizedBlocks.lookup
        s.chain.previouslyCommittedBlockHash = some top ∧ ¬ s.chain.LiveParent top.view := by
  have hrun := run_goes (sampleConfig 0 (quietEnv _)) 10 retainingInputs (·.WellTyped)
    (by decide +kernel) (by decide +kernel)
  have htop : ((runAll (sampleConfig 0 (quietEnv _)) 10
      retainingInputs).1.chain.persistenceWriter.store.finalizedBlocks.lookup
        (runAll (sampleConfig 0 (quietEnv _)) 10
          retainingInputs).1.chain.previouslyCommittedBlockHash).map (·.view) = some 2 := by
    decide +kernel
  obtain ⟨top, hlookup, hview⟩ := Option.map_eq_some_iff.mp htop
  refine ⟨_, hrun, by decide +kernel, by decide +kernel, top, hlookup, ?_⟩
  rw [hview]
  have hnone : ((runAll (sampleConfig 0 (quietEnv _)) 10 retainingInputs).1.chain.iter.all
      fun e => decide (e.1 ≤ 2) || e.2.mNotarization.isNone) = true := by
    decide +kernel
  rintro (⟨heq, -⟩ | ⟨v, c, m, hc, hv, -, hm, -⟩)
  · exact absurd heq (by decide +kernel)
  · have hall := List.all_eq_true.mp hnone (v, c) (ViewChain.mem_iter.mpr hc)
    simp [hm, Nat.not_le.mpr hv] at hall

end Replica

end Minimmit
