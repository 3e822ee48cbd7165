/-
Minimmit.Consensus.FinalizationTheorems — the finalized chain of one replica.

Finalization walks from the finalizable block to its parent and on, as long
as it finds the hash in a held context, and calls the views it met canonical;
it never asks whether the walk ended at the last committed block. If at every
finalization that passes the checks the block is joined to the committed one
by held blocks (`FinalizesCleanly`), the walk is that path
(`canonicalViews_path`), the loop persists it block by block (`PersistLoop`)
and the finalized blocks stay one chain, apart from the nullified ones
(`finalized_chain_integrity`). A recovered block is not asked for its parent,
and the walk stops at it (`finalized_without_parent`).
-/
import Mathlib.Data.List.Chain
import Minimmit.Consensus.SigningTheorems

namespace Minimmit

open Minimmit.Library Act Relation ViewContext List ViewChain

variable {P : Params}

/-- `b` is a child of `a` in a later view. -/
def Block.Extends (a b : Block P) : Prop := b.parentBlockHash = a.getHash ∧ a.view < b.view

namespace ViewChain

variable {s : ViewChain P} {n v view : Nat} {h : Hash P} {b top : Block P}
  {path : List (Nat × Block P)} {r : List Nat × List (Nat × Hash P)} {bs : List (Block P)}
  {R : ViewContext P → ViewContext P → Prop}

/-! ## The condition -/

/-- A path of held blocks from the last committed block, which is `top`, up
to the block of `view`. -/
structure Path (s : ViewChain P) (view : Nat) (top : Block P) (path : List (Nat × Block P)) :
    Prop where
  committed : s.persistenceWriter.store.finalizedBlocks.lookup
    s.previouslyCommittedBlockHash = some top
  held : ∀ e ∈ path, ∃ c, s.findViewContext e.1 = some c ∧ c.block = some e.2 ∧
    c.mNotarization.isSome ∧ e.2.view = e.1
  linked : (top :: path.map (·.2)).IsChain Block.Extends
  last : path.getLast?.map (·.1) = some view

/-- The state in which a finalization of `view` is meant to happen. -/
structure Clean (s : ViewChain P) (view : Nat) : Prop where
  /-- Held views have different block hashes. -/
  distinct : ∀ v w c d h, s.findViewContext v = some c → s.findViewContext w = some d →
    c.blockHash = some h → d.blockHash = some h → v = w
  /-- None of them is in a table already, or zero. -/
  fresh : ∀ v c h, s.findViewContext v = some c → c.blockHash = some h →
    s.persistenceWriter.store.finalizedBlocks.lookup h = none ∧
    s.persistenceWriter.store.nullifiedBlocks.lookup h = none ∧ h ≠ P.hashing.zero
  /-- The block is joined to the last committed one. -/
  joined : ∃ top path, s.Path view top path

/-- If the checks of finalization pass, the state is clean. -/
def FinalizesCleanly (s : ViewChain P) (view : Nat) : Prop :=
  ∀ parentHash, s.finalizeCheck view = .proceed parentHash → s.Clean view

/-! ## The walk -/

theorem findParentView_eq_some (hs : s.Clean view) {c : ViewContext P}
    (hc : s.findViewContext v = some c) (hh : c.blockHash = some h) :
    s.findParentView h = some v := by
  unfold findParentView
  rcases hf : s.iter.find? fun e => decide (e.2.blockHash = some h) with _ | ⟨w, d⟩
  · have hnone := find?_eq_none.mp hf (v, c) (mem_iter.mpr hc)
    simp only [hh, decide_true, not_true_eq_false] at hnone
  · have hd : s.findViewContext w = some d := mem_iter.mp (mem_of_find?_eq_some hf)
    have hdh : d.blockHash = some h := by simpa using find?_some hf
    rw [hf]
    exact congrArg some (hs.distinct w v d c h hd hc hdh hh)

/-- The view the walk finds for a hash holds it. -/
theorem findParentView_find (hv : s.findParentView h = some v) :
    ∃ c, s.findViewContext v = some c ∧ c.blockHash = some h := by
  obtain ⟨⟨w, c⟩, hfind, rfl⟩ := Option.map_eq_some_iff.mp hv
  exact ⟨c, mem_iter.mp (mem_of_find?_eq_some hfind), by simpa using find?_some hfind⟩

theorem findParentView_eq_none (hs : ∀ v c, s.findViewContext v = some c → c.blockHash ≠ some h) :
    s.findParentView h = none := by
  unfold findParentView
  rw [Option.map_eq_none_iff, find?_eq_none]
  rintro ⟨v, c⟩ hmem
  simpa using hs v c (mem_iter.mp hmem)

/-- The walk from a hash on the path collects the views below. -/
theorem traceCanonical_path {peers : PeerSet P} {replicaId : Nat} (hwf : s.WF peers replicaId)
    (hs : s.Clean view)
    (htop : s.persistenceWriter.store.finalizedBlocks.lookup top.getHash = some top)
    (hheld : ∀ e ∈ path, ∃ c, s.findViewContext e.1 = some c ∧ c.block = some e.2)
    (hlinked : (top :: path.map (·.2)).IsChain Block.Extends) {fuel : Nat} {hash : Hash P}
    (hhash : ∀ b ∈ (top :: path.map (·.2)).getLast?, hash = b.getHash) {acc : List Nat}
    (hr : s.traceCanonical fuel hash acc = some r) : r = (path.map (·.1) ++ acc, []) := by
  induction path using reverseRecOn generalizing fuel hash acc with
  | nil =>
    obtain rfl : hash = top.getHash := hhash top (by simp)
    cases fuel with
    | zero => cases hr
    | succ fuel =>
      have hnone : s.findParentView top.getHash = none := by
        refine findParentView_eq_none fun v c hc hh => ?_
        rw [(hs.fresh v c _ hc hh).1] at htop
        cases htop
      simp only [traceCanonical, hnone] at hr
      exact (Option.some.inj hr).symm
  | append_singleton path e ih =>
    obtain ⟨c, hc, hb⟩ := hheld e (mem_append_right _ mem_cons_self)
    rw [map_append, ← cons_append] at hlinked hhash
    obtain rfl : hash = e.2.getHash := hhash e.2 (getLast?_concat ..)
    obtain ⟨hpre, -, hjoin⟩ := isChain_append.mp hlinked
    cases fuel with
    | zero => cases hr
    | succ fuel =>
      have hview := findParentView_eq_some hs hc ((hwf.context e.1 c hc).block_hash e.2 hb)
      simp only [traceCanonical, hview, hc, hb] at hr
      have hrest := ih (fun x hx => hheld x (mem_append_left _ hx)) hpre
        (fun b hb => (hjoin b hb e.2 (by simp)).1) hr
      rw [hrest, map_append, append_assoc]
      rfl

/-- **The walk of a clean finalization is its path.** -/
theorem canonicalViews_path {peers : PeerSet P} {replicaId : Nat} (hwf : s.WF peers replicaId)
    (hs : s.Clean view) (hpath : s.Path view top path)
    (htop : top.getHash = s.previouslyCommittedBlockHash) {parentHash : Hash P}
    (hcheck : s.finalizeCheck view = .proceed parentHash)
    (hr : s.canonicalViews view parentHash = some r) : r = (path.map (·.1), []) := by
  obtain ⟨-, c, b, hc, hb, rfl⟩ := finalizeCheck_proceed hcheck
  -- the last block of the path is the block of the view
  obtain ⟨e, hlast, hview⟩ := Option.map_eq_some_iff.mp hpath.last
  obtain ⟨pre, rfl⟩ := getLast?_eq_some_iff.mp hlast
  obtain ⟨c', hc', hb', -⟩ := hpath.held e (mem_append_right _ mem_cons_self)
  rw [hview, hc] at hc'
  obtain rfl := Option.some.inj hc'
  obtain rfl := Option.some.inj (hb.symm.trans hb')
  have hlinked := hpath.linked
  rw [map_append, ← cons_append] at hlinked
  obtain ⟨hpre, -, hjoin⟩ := isChain_append.mp hlinked
  have hcommitted := hpath.committed
  rw [← htop] at hcommitted
  rw [traceCanonical_path hwf hs hcommitted
    (fun x hx => (hpath.held x (mem_append_left _ hx)).imp fun _ h => ⟨h.1, h.2.1⟩) hpre
    (fun x hx => (hjoin x hx e.2 rfl).1) hr, map_append, ← hview]
  rfl

/-- The views of a path increase. -/
theorem Path.sorted (h : s.Path view top path) : path.Pairwise fun a b => a.1 < b.1 := by
  have hchain : (path.map (·.2)).IsChain fun a b => a.view < b.view :=
    h.linked.tail.imp fun _ _ hab => hab.2
  have hpair := pairwise_map.mp (isChain_iff_pairwise.mp hchain)
  refine hpair.imp_of_mem fun {a b} ha hb hab => ?_
  obtain ⟨_, -, -, -, hva⟩ := h.held a ha
  obtain ⟨_, -, -, -, hvb⟩ := h.held b hb
  rwa [hva, hvb] at hab

/-! ## The loop -/

/-- The blocks of the path below a view, as they are stored. -/
def pathBelow (path : List (Nat × Block P)) (n : Nat) : List (Block P) :=
  (path.filter fun e => decide (e.1 < n)).map (·.2.finalized)

theorem pathBelow_succ_of_mem (hsorted : path.Pairwise fun a b => a.1 < b.1) {e : Nat × Block P}
    (he : e ∈ path) : pathBelow path (e.1 + 1) = pathBelow path e.1 ++ [e.2.finalized] := by
  have hone : path.filter (fun x => decide (x.1 = e.1)) = [e] := filter_eq_singleton hsorted he
  unfold pathBelow
  rw [filter_lt_succ hsorted, hone, map_append]
  rfl

theorem pathBelow_succ_of_not_mem (hsorted : path.Pairwise fun a b => a.1 < b.1)
    (hn : n ∉ path.map (·.1)) : pathBelow path (n + 1) = pathBelow path n := by
  have hnone : path.filter (fun e => decide (e.1 = n)) = [] :=
    filter_eq_nil_iff.mpr fun e he heq =>
      hn (mem_map.mpr ⟨e, he, of_decide_eq_true heq⟩)
  unfold pathBelow
  rw [filter_lt_succ hsorted, hnone, append_nil]

theorem mem_pathBelow (hb : b ∈ pathBelow path n) : ∃ e ∈ path, e.1 < n ∧ b = e.2.finalized := by
  obtain ⟨e, he, rfl⟩ := mem_map.mp hb
  obtain ⟨hmem, hlt⟩ := mem_filter.mp he
  exact ⟨e, hmem, of_decide_eq_true hlt, rfl⟩

/-- The finalized blocks are those of a list, each under its hash. -/
def FinalizedAre (s : ViewChain P) (bs : List (Block P)) : Prop :=
  ∀ h b, s.persistenceWriter.store.finalizedBlocks.lookup h = some b ↔ b ∈ bs ∧ b.getHash = h

/-- The state of the loop before it comes to view `n`: the views ahead are
untouched, the path below `n` is finalized and committed, and the blocks that
were nullified are of held views off the path. -/
structure PersistLoop (s₀ : ViewChain P) (bs : List (Block P)) (path : List (Nat × Block P))
    (n : Nat) (s : ViewChain P) : Prop where
  ahead : ∀ v, n ≤ v → s.findViewContext v = s₀.findViewContext v
  table : s.FinalizedAre (bs ++ pathBelow path n)
  committed : s.committed = s₀.committed ++ (pathBelow path n).map Block.getHash
  last : (Block.genesisHash P :: s.committed).getLast? = some s.previouslyCommittedBlockHash
  nullified : ∀ h b, s.persistenceWriter.store.nullifiedBlocks.lookup h = some b →
    s₀.persistenceWriter.store.nullifiedBlocks.lookup h ≠ none ∨
      ∃ v c, s₀.findViewContext v = some c ∧ c.blockHash = some h ∧ v ∉ path.map (·.1)

/-- A view on the path: its block is stored and its hash committed. -/
theorem persistView_onPath {canonical : List Nat} (peers : PeerSet P) {c : ViewContext P}
    (hb : c.block = some b) (hh : c.blockHash = some b.getHash) (hn : n ∈ canonical)
    (s : ViewChain P) :
    ∃ w, w.store.finalizedBlocks =
        s.persistenceWriter.store.finalizedBlocks.insert b.getHash b.finalized ∧
      w.store.nullifiedBlocks = s.persistenceWriter.store.nullifiedBlocks ∧
      (persistView view canonical peers n c s).2 =
        { s.commit b.getHash with persistenceWriter := w } := by
  obtain ⟨w, hw, heq⟩ := persistView_plan view canonical peers n c s
  have hcommit : planCommit view canonical n c s = s.commit b.getHash := by
    simp only [planCommit, hn, or_true, ↓reduceIte, hh]
  -- with or without the pending diffs, the block goes into the table
  have hblock : ∀ w : PendingStateWriter P, SameBlocks w.store s.persistenceWriter.store →
      (planBlock c w).store.finalizedBlocks =
        s.persistenceWriter.store.finalizedBlocks.insert b.getHash b.finalized ∧
      (planBlock c w).store.nullifiedBlocks = s.persistenceWriter.store.nullifiedBlocks := by
    intro w hsame
    simp only [planBlock, hb]
    exact ⟨congrArg (·.insert b.getHash b.finalized) hsame.finalizedBlocks, hsame.nullifiedBlocks⟩
  have hplan : (planWriter view canonical n c s.persistenceWriter).store.finalizedBlocks =
        s.persistenceWriter.store.finalizedBlocks.insert b.getHash b.finalized ∧
      (planWriter view canonical n c s.persistenceWriter).store.nullifiedBlocks =
        s.persistenceWriter.store.nullifiedBlocks := by
    have hup := finalizeUpTo_blocks s.persistenceWriter c.viewNumber
    unfold planWriter
    rw [hh]
    repeat' split
    all_goals first
      | exact hblock _ hup
      | exact hblock _ (.refl _)
      | contradiction
  refine ⟨w, ?_, ?_, hcommit ▸ heq⟩
  · exact hw.tables.finalizedBlocks.trans hplan.1
  · exact hw.tables.nullifiedBlocks.trans hplan.2

/-- A view off the path: its block is stored as nullified. -/
theorem persistView_offPath {canonical : List Nat} (peers : PeerSet P) (c : ViewContext P)
    (hview : n ≠ view) (hn : n ∉ canonical) (s : ViewChain P) :
    ∃ w, w.store.finalizedBlocks = s.persistenceWriter.store.finalizedBlocks ∧
      (∀ b, c.block = some b → w.store.nullifiedBlocks =
        s.persistenceWriter.store.nullifiedBlocks.insert b.getHash b) ∧
      (c.block = none →
        w.store.nullifiedBlocks = s.persistenceWriter.store.nullifiedBlocks) ∧
      (persistView view canonical peers n c s).2 = { s with persistenceWriter := w } := by
  obtain ⟨w, hw, heq⟩ := persistView_plan view canonical peers n c s
  have hcommit : planCommit view canonical n c s = s := by
    simp only [planCommit, hview, hn, or_self, ↓reduceIte]
  have hplan : planWriter view canonical n c s.persistenceWriter =
      planNullified c s.persistenceWriter := by
    simp only [planWriter, hview, hn, ↓reduceIte]
  rw [hplan] at hw
  rw [hcommit] at heq
  have hstore := removeNullifiedView_store s.persistenceWriter c.viewNumber
  refine ⟨w, ?_, fun b hb => ?_, fun hnone => ?_, heq⟩
  · rw [hw.tables.finalizedBlocks, ← hstore]
    unfold planNullified
    split <;> rfl
  · rw [hw.tables.nullifiedBlocks, ← hstore]
    simp only [planNullified, hb]
    rfl
  · rw [hw.tables.nullifiedBlocks, ← hstore]
    simp only [planNullified, hnone]

theorem removeView_find_ne (h : v ≠ n) : (s.removeView n).findViewContext v = s.findViewContext v :=
  AList.lookup_erase_ne h

section Loop

variable {s₀ s : ViewChain P} {bs : List (Block P)} {path : List (Nat × Block P)} {n : Nat}
  {view : Nat} {top : Block P} {peers peers' : PeerSet P} {replicaId : Nat}

/-- A new block on the path is under no hash of the table. -/
theorem PersistLoop.hash_new (hwf : s₀.WF peers' replicaId) (hs : s₀.Clean view)
    (hbs : s₀.FinalizedAre bs) (hpath : s₀.Path view top path) {e : Nat × Block P} (he : e ∈ path)
    {b : Block P} (hb : b ∈ bs ++ pathBelow path e.1) : b.getHash ≠ e.2.getHash := by
  intro heq
  obtain ⟨c, hc, hcb, -⟩ := hpath.held e he
  have hh := (hwf.context e.1 c hc).block_hash e.2 hcb
  rcases mem_append.mp hb with hb | hb
  · have hin := (hbs e.2.getHash b).mpr ⟨hb, heq⟩
    rw [(hs.fresh e.1 c _ hc hh).1] at hin
    cases hin
  · obtain ⟨e', he', hlt, rfl⟩ := mem_pathBelow hb
    obtain ⟨c', hc', hcb', -⟩ := hpath.held e' he'
    have hh' := (hwf.context e'.1 c' hc').block_hash e'.2 hcb'
    have hview := hs.distinct e'.1 e.1 c' c e.2.getHash hc' hc (heq ▸ hh') hh
    omega

/-- **One turn of the loop.** -/
theorem PersistLoop.step (hwf : s₀.WF peers' replicaId) (hs : s₀.Clean view)
    (hbs : s₀.FinalizedAre bs) (hpath : s₀.Path view top path)
    (h : PersistLoop s₀ bs path n s) :
    PersistLoop s₀ bs path (n + 1) (persistStep view (path.map (·.1)) peers n s).2 := by
  have hfind := h.ahead n (Nat.le_refl n)
  by_cases hn : n ∈ path.map (·.1)
  · -- on the path the view is held with its block
    obtain ⟨e, he, rfl⟩ := mem_map.mp hn
    obtain ⟨c, hc, hcb, -⟩ := hpath.held e he
    have hh := (hwf.context e.1 c hc).block_hash e.2 hcb
    have hretained : isRetained c (decide (e.1 ∈ path.map (·.1))) = false := by
      simp [isRetained, hcb]
    obtain ⟨w, hF, hN, heq⟩ := 
      @persistView_onPath _ _ view _ _ peers _ hcb hh hn (s.removeView e.1)
    have hstep : (persistStep view (path.map (·.1)) peers e.1 s).2 =
        { (s.removeView e.1).commit e.2.getHash with persistenceWriter := w } := by
      rw [← heq]
      simp only [persistStep, hfind, hc, hretained, Bool.false_eq_true, and_false, ↓reduceIte]
    rw [hstep]
    have hbelow := pathBelow_succ_of_mem hpath.sorted he
    refine ⟨?_, ?_, ?_, ?_, ?_⟩
    · intro v hv
      exact (removeView_find_ne (by omega)).trans (h.ahead v (by omega))
    · intro x b
      rw [hbelow, ← append_assoc]
      change w.store.finalizedBlocks.lookup x = some b ↔ _
      rw [hF]
      by_cases hx : x = e.2.getHash
      · subst hx
        rw [AList.lookup_insert]
        constructor
        · intro hb
          obtain rfl := Option.some.inj hb
          exact ⟨mem_append_right _ mem_cons_self, rfl⟩
        · rintro ⟨hb, hbx⟩
          rcases mem_append.mp hb with hb | hb
          · exact absurd hbx (PersistLoop.hash_new hwf hs hbs hpath he hb)
          · rw [mem_singleton.mp hb]
      · rw [AList.lookup_insert_ne hx]
        refine (h.table x b).trans ⟨fun hb => ⟨mem_append_left _ hb.1, hb.2⟩, ?_⟩
        rintro ⟨hb, hbx⟩
        rcases mem_append.mp hb with hb | hb
        · exact ⟨hb, hbx⟩
        · rw [mem_singleton.mp hb] at hbx
          exact absurd hbx.symm hx
    · change s.committed ++ [e.2.getHash] = _
      rw [hbelow, h.committed, map_append, append_assoc]
      rfl
    · exact (congrArg getLast? (cons_append ..).symm).trans (getLast?_concat ..)
    · intro x b hb
      change w.store.nullifiedBlocks.lookup x = some b at hb
      rw [hN] at hb
      exact h.nullified x b hb
  · have hbelow := pathBelow_succ_of_not_mem hpath.sorted hn
    have hview : n ≠ view := by
      rintro rfl
      obtain ⟨e, hlast, hv⟩ := Option.map_eq_some_iff.mp hpath.last
      exact hn (mem_map.mpr ⟨e, mem_of_getLast? hlast, hv⟩)
    have hidle : PersistLoop s₀ bs path (n + 1) s :=
      ⟨fun v hv => h.ahead v (by omega), hbelow ▸ h.table, hbelow ▸ h.committed, h.last,
        h.nullified⟩
    unfold persistStep
    split
    · exact hidle
    rename_i c hc
    split
    · exact hidle
    obtain ⟨w, hF, hN, hN', heq⟩ := persistView_offPath peers c hview hn (s.removeView n)
    rw [heq]
    refine ⟨?_, ?_, hidle.committed, hidle.last, ?_⟩
    · intro v hv
      exact (removeView_find_ne (by omega)).trans (h.ahead v (by omega))
    · intro x b
      change w.store.finalizedBlocks.lookup x = some b ↔ _
      rw [hF]
      exact hidle.table x b
    · intro x b hb
      change w.store.nullifiedBlocks.lookup x = some b at hb
      rcases hblock : c.block with _ | b₀
      · rw [hN' hblock] at hb
        exact h.nullified x b hb
      rw [hN b₀ hblock] at hb
      by_cases hx : x = b₀.getHash
      · subst hx
        rw [hfind] at hc
        exact .inr ⟨n, c, hc, (hwf.context n c hc).block_hash b₀ hblock, hn⟩
      · rw [AList.lookup_insert_ne hx] at hb
        exact h.nullified x b hb

/-- The range of a finalization starts at the least held view. -/
theorem nonFinalizedViewsUntil_eq {range : List Nat}
    (h : s.nonFinalizedViewsUntil view = some range) :
    ∃ least len, range = range' least len ∧
      (∀ v c, s.findViewContext v = some c → least ≤ v) ∧
      (view ≤ s.currentView → least + len = view + 1) := by
  unfold nonFinalizedViewsUntil at h
  split at h
  case h_1 => cases h
  case h_2 least hleast =>
    split at h
    case isTrue => cases h
    case isFalse hle =>
      refine ⟨least, _, (Option.some.inj h).symm, fun v c hc => ?_, fun hv => ?_⟩
      · have hmem : v ∈ s.nonFinalizedViews.keys :=
          AList.mem_keys.mp (AList.lookup_isSome.mp (Option.isSome_iff_exists.mpr ⟨c, hc⟩))
        exact (min?_eq_some_iff.mp hleast).2 v hmem
      · rw [Nat.min_eq_left hv] at hle ⊢
        omega

/-- **The loop** finalizes the path, or a first part of it if a write fails. -/
theorem persistRange_loop (hwf : s₀.WF peers' replicaId) (hs : s₀.Clean view)
    (hbs : s₀.FinalizedAre bs) (hpath : s₀.Path view top path) (len : Nat) :
    Spec (PersistLoop s₀ bs path n) (persistRange view (path.map (·.1)) peers (range' n len))
      (fun _ => PersistLoop s₀ bs path (n + len))
      (fun s => ∃ m, PersistLoop s₀ bs path m s) (fun s => ∃ m, PersistLoop s₀ bs path m s) := by
  refine spec_forM_range fun i _ _ s hi => ?_
  have hnext : PersistLoop s₀ bs path (i + 1) (persistStep view (path.map (·.1)) peers i s).2 :=
    hi.step hwf hs hbs hpath
  exact (ends_iff_state.mpr hnext).conseq (fun _ _ h => h) (fun _ h => ⟨_, h⟩) (fun _ h => ⟨_, h⟩)

theorem pathBelow_eq_nil {path : List (Nat × Block P)} {n : Nat} (h : ∀ e ∈ path, n ≤ e.1) :
    pathBelow path n = [] := by
  unfold pathBelow
  rw [map_eq_nil_iff, filter_eq_nil_iff]
  intro e he hlt
  exact Nat.not_lt.mpr (h e he) (of_decide_eq_true hlt)

theorem PersistLoop.init (hbs : s.FinalizedAre bs)
    (hlast : (Block.genesisHash P :: s.committed).getLast? = some s.previouslyCommittedBlockHash)
    (hn : ∀ e ∈ path, n ≤ e.1) : PersistLoop s bs path n s := by
  refine ⟨fun _ _ => rfl, ?_, ?_, hlast, fun h b hb => .inl ?_⟩
  · rw [pathBelow_eq_nil hn, append_nil]
    exact hbs
  · rw [pathBelow_eq_nil hn, map_nil, append_nil]
  · rw [hb]
    exact Option.some_ne_none b

/-- Only the ledger of the two states is compared. -/
structure KeepsTables (s s' : ViewChain P) : Prop where
  store : SameBlocks s'.persistenceWriter.store s.persistenceWriter.store
  committed : s'.committed = s.committed
  previous : s'.previouslyCommittedBlockHash = s.previouslyCommittedBlockHash

theorem KeepsTables.refl (s : ViewChain P) : KeepsTables s s := ⟨.refl _, rfl, rfl⟩

theorem KeepsTables.trans {s₁ s₂ s₃ : ViewChain P} (h₁ : KeepsTables s₁ s₂)
    (h₂ : KeepsTables s₂ s₃) : KeepsTables s₁ s₃ :=
  ⟨h₂.store.trans h₁.store, h₂.committed.trans h₁.committed, h₂.previous.trans h₁.previous⟩

/-- **What a finalization does**: nothing to the tables, or the loop over the
path of a clean state. -/
theorem finalize_loop (hwf : s.WF peers' replicaId) (hs : s.FinalizesCleanly view)
    (hbs : s.FinalizedAre bs)
    (hlast : (Block.genesisHash P :: s.committed).getLast? = some s.previouslyCommittedBlockHash)
    (hprev : ∀ b, s.persistenceWriter.store.finalizedBlocks.lookup
      s.previouslyCommittedBlockHash = some b → b.getHash = s.previouslyCommittedBlockHash) :
    KeepsTables s (finalizeWithLNotarization view peers s).2 ∨
      s.Clean view ∧ ∃ top path n, s.Path view top path ∧
        PersistLoop s bs path n (finalizeWithLNotarization view peers s).2 := by
  unfold finalizeWithLNotarization
  split
  case h_1 => exact .inl (.refl s)
  case h_2 => exact .inl (.refl s)
  case h_3 parentHash hcheck =>
    have hclean := hs parentHash hcheck
    split
    case h_1 => exact .inl ⟨.refl _, rfl, rfl⟩
    case h_2 canonical missing hwalk =>
      obtain ⟨top, path, hpath⟩ := hclean.joined
      obtain ⟨rfl, rfl⟩ := Prod.mk.inj (canonicalViews_path hwf hclean hpath
        (hprev top hpath.committed) hcheck hwalk)
      dsimp only
      split
      case isTrue => exact .inl ⟨.refl _, rfl, rfl⟩
      case isFalse =>
        split
        case h_1 => exact .inl ⟨.refl _, rfl, rfl⟩
        case h_2 range hrange =>
          obtain ⟨least, len, rfl, hleast, -⟩ := nonFinalizedViewsUntil_eq hrange
          refine .inr ⟨hclean, top, path, ?_⟩
          have hinit : PersistLoop s bs path least { s with pendingCanonicalRecovery := [] } :=
            { PersistLoop.init hbs hlast fun e he => by
                obtain ⟨c, hc, -⟩ := hpath.held e he
                exact hleast e.1 c hc with }
          have hloop := @persistRange_loop _ _ _ _ _ _ _ peers _ _ hwf hclean hbs hpath len _ hinit
          obtain ⟨m, hm⟩ := ends_iff_state.mp
            (hloop.conseq (fun _ _ h => ⟨_, h⟩) (fun _ h => h) (fun _ h => h))
          exact ⟨m, hpath, hm⟩

/-! ## The ledger -/

/-- The finalized blocks are one chain `bs` from genesis to the last committed
block, and none of them is nullified. -/
structure Ledger (s : ViewChain P) (bs : List (Block P)) : Prop where
  table : s.FinalizedAre bs
  hashes : bs.map Block.getHash = Block.genesisHash P :: s.committed
  last : (Block.genesisHash P :: s.committed).getLast? = some s.previouslyCommittedBlockHash
  linked : bs.IsChain Block.Extends
  distinct : (bs.map Block.getHash).Nodup
  nonzero : P.hashing.zero ∉ bs.map Block.getHash
  root : ∀ b ∈ bs.head?, b.parentBlockHash = P.hashing.zero
  apart : ∀ h, s.persistenceWriter.store.finalizedBlocks.lookup h = none ∨
    s.persistenceWriter.store.nullifiedBlocks.lookup h = none

theorem Ledger.keep {s' : ViewChain P} (h : s.Ledger bs) (hkeep : KeepsTables s s') :
    s'.Ledger bs := by
  obtain ⟨⟨hF, hN⟩, hcommitted, hprev⟩ := hkeep
  refine { h with table := ?_, hashes := ?_, last := ?_, apart := ?_ }
  · intro x b
    rw [hF]
    exact h.table x b
  · rw [hcommitted]
    exact h.hashes
  · rw [hcommitted, hprev]
    exact h.last
  · intro x
    rw [hF, hN]
    exact h.apart x

/-- The last block of the ledger is the last committed one. -/
theorem Ledger.getLast (h : s.Ledger bs) : ∃ b, bs.getLast? = some b ∧
    b.getHash = s.previouslyCommittedBlockHash ∧
    s.persistenceWriter.store.finalizedBlocks.lookup s.previouslyCommittedBlockHash = some b := by
  have hlast := h.last
  rw [← h.hashes, getLast?_map] at hlast
  obtain ⟨b, hb, heq⟩ := Option.map_eq_some_iff.mp hlast
  exact ⟨b, hb, heq, (h.table _ b).mpr ⟨mem_of_getLast? hb, heq⟩⟩

/-- The part of the path below a view continues the chain. -/
theorem Ledger.linked_append (h : s.Ledger bs) (hpath : s.Path view top path) (n : Nat) :
    (bs ++ pathBelow path n).IsChain Block.Extends := by
  -- storing a block as finalized changes nothing its links depend on
  have hmap : ((top :: path.map (·.2)).map Block.finalized).IsChain Block.Extends :=
    isChain_map_of_isChain Block.finalized (fun _ _ hab => hab) hpath.linked
  have hprefix : path.filter (fun e => decide (e.1 < n)) <+: path :=
    filter_lt_prefix hpath.sorted n
  obtain ⟨t, ht⟩ := hprefix
  have hpre : path.map (·.2.finalized) = pathBelow path n ++ t.map (·.2.finalized) := by
    unfold pathBelow
    rw [← map_append, ht]
  rw [List.map_cons, List.map_map, show path.map (Block.finalized ∘ (·.2)) = _ from hpre] at hmap
  obtain ⟨b, hlast, -, hlookup⟩ := h.getLast
  obtain rfl := Option.some.inj (hlookup.symm.trans hpath.committed)
  refine isChain_append.mpr ⟨h.linked, ?_, ?_⟩
  · exact (isChain_append.mp hmap.tail).1
  intro x hx y hy
  rw [hlast] at hx
  obtain rfl := Option.some.inj hx
  obtain ⟨rest, hrest⟩ := head?_eq_some_iff.mp hy
  rw [hrest, cons_append] at hmap
  exact (isChain_cons_cons.mp hmap).1

/-- A block of the path is held in its view, under its hash. -/
theorem Path.heldHash (hwf : s.WF peers' replicaId) (hpath : s.Path view top path) {b : Block P}
    (hb : b ∈ pathBelow path n) : ∃ e ∈ path, b = e.2.finalized ∧
      ∃ c, s.findViewContext e.1 = some c ∧ c.blockHash = some b.getHash := by
  obtain ⟨e, he, -, rfl⟩ := mem_pathBelow hb
  obtain ⟨c, hc, hcb, -⟩ := hpath.held e he
  exact ⟨e, he, rfl, c, hc, (hwf.context e.1 c hc).block_hash e.2 hcb⟩

theorem Ledger.distinct_append (h : s.Ledger bs) (hwf : s.WF peers' replicaId) (hs : s.Clean view)
    (hpath : s.Path view top path) (n : Nat) :
    ((bs ++ pathBelow path n).map Block.getHash).Nodup := by
  rw [map_append, nodup_append]
  refine ⟨h.distinct, ?_, ?_⟩
  · -- views of the path increase, and held views have different hashes
    unfold pathBelow
    rw [List.map_map]
    refine pairwise_map.mpr (Pairwise.filter _ ?_)
    refine hpath.sorted.imp_of_mem fun {a b} ha hb hab heq => ?_
    obtain ⟨c, hc, hcb, -⟩ := hpath.held a ha
    obtain ⟨d, hd, hdb, -⟩ := hpath.held b hb
    have hca := (hwf.context a.1 c hc).block_hash a.2 hcb
    have hdb' := (hwf.context b.1 d hd).block_hash b.2 hdb
    have hsame : a.2.getHash = b.2.getHash := heq
    rw [← hsame] at hdb'
    have := hs.distinct a.1 b.1 c d _ hc hd hca hdb'
    omega
  · intro x hx y hy hxy
    obtain ⟨b, hb, rfl⟩ := mem_map.mp hx
    obtain ⟨b', hb', rfl⟩ := mem_map.mp hy
    obtain ⟨e, -, -, c, hc, hh⟩ := hpath.heldHash hwf hb'
    have hin := (h.table _ b).mpr ⟨hb, hxy⟩
    rw [(hs.fresh e.1 c _ hc hh).1] at hin
    cases hin

/-- **The loop extends the ledger** by the blocks of the path. -/
theorem Ledger.loop {s' : ViewChain P} (h : s.Ledger bs) (hwf : s.WF peers' replicaId)
    (hs : s.Clean view) (hpath : s.Path view top path) (hloop : PersistLoop s bs path n s') :
    s'.Ledger (bs ++ pathBelow path n) := by
  refine ⟨hloop.table, ?_, hloop.last, h.linked_append hpath n,
    h.distinct_append hwf hs hpath n, ?_, ?_, ?_⟩
  · rw [map_append, h.hashes, hloop.committed, cons_append]
  · rw [map_append, mem_append, not_or]
    refine ⟨h.nonzero, fun hzero => ?_⟩
    obtain ⟨b, hb, heq⟩ := mem_map.mp hzero
    obtain ⟨e, -, -, c, hc, hh⟩ := hpath.heldHash hwf hb
    exact (hs.fresh e.1 c _ hc hh).2.2 heq
  · -- the ledger has at least genesis
    intro b hb
    refine h.root b ?_
    rcases bs with _ | ⟨b₀, rest⟩
    · cases h.hashes
    · exact hb
  · intro x
    by_contra hboth
    obtain ⟨hF, hN⟩ := not_or.mp hboth
    obtain ⟨b, hb⟩ := Option.ne_none_iff_exists'.mp hF
    obtain ⟨b', hb'⟩ := Option.ne_none_iff_exists'.mp hN
    obtain ⟨hmem, rfl⟩ := (hloop.table x b).mp hb
    rcases mem_append.mp hmem with hold | hnew
    · have hbF := (h.table _ b).mpr ⟨hold, rfl⟩
      rcases hloop.nullified _ b' hb' with hnull | ⟨v, c, hc, hh, -⟩
      · rcases h.apart b.getHash with hnone | hnone
        · rw [hbF] at hnone
          cases hnone
        · exact hnull hnone
      · rw [(hs.fresh v c _ hc hh).1] at hbF
        cases hbF
    · obtain ⟨e, he, -, c, hc, hh⟩ := hpath.heldHash hwf hnew
      rcases hloop.nullified _ b' hb' with hnull | ⟨v, d, hd, hdh, hoff⟩
      · exact hnull (hs.fresh e.1 c _ hc hh).2.1
      · obtain rfl := hs.distinct v e.1 d c _ hd hc hdh hh
        exact hoff (mem_map_of_mem he)

/-- **A clean finalization extends the ledger**, or leaves it. -/
theorem Ledger.finalize (h : s.Ledger bs) (hwf : s.WF peers' replicaId)
    (hs : s.FinalizesCleanly view) :
    ∃ new, (finalizeWithLNotarization view peers s).2.Ledger (bs ++ new) := by
  have hprev : ∀ b, s.persistenceWriter.store.finalizedBlocks.lookup
      s.previouslyCommittedBlockHash = some b → b.getHash = s.previouslyCommittedBlockHash :=
    fun b hb => ((h.table _ b).mp hb).2
  rcases finalize_loop hwf hs h.table h.last hprev with hkeep | ⟨hclean, top, path, n, hpath, hloop⟩
  · refine ⟨[], ?_⟩
    rw [append_nil]
    exact h.keep hkeep
  · exact ⟨_, h.loop hwf hclean hpath hloop⟩

end Loop

/-- A block of the ledger is genesis or the child of the block before it. -/
theorem Ledger.parent_cases (h : s.Ledger bs) {i : Nat} (hb : bs[i]? = some b) :
    (i = 0 ∧ b.parentBlockHash = P.hashing.zero) ∨
      ∃ j p, i = j + 1 ∧ bs[j]? = some p ∧ p.Extends b := by
  cases i with
  | zero =>
    rw [← head?_eq_getElem?] at hb
    exact .inl ⟨rfl, h.root b hb⟩
  | succ j =>
    obtain ⟨hlt, rfl⟩ := List.getElem?_eq_some_iff.mp hb
    exact .inr ⟨j, _, rfl, getElem?_eq_getElem (by omega),
      isChain_iff_getElem.mp h.linked j hlt⟩

/-- Blocks of the ledger with one parent are one block. -/
theorem Ledger.parent_unique (h : s.Ledger bs) {b' : Block P} (hb : b ∈ bs) (hb' : b' ∈ bs)
    (heq : b.parentBlockHash = b'.parentBlockHash) : b = b' := by
  have hnonzero : ∀ {j : Nat} {p : Block P}, bs[j]? = some p → p.getHash ≠ P.hashing.zero :=
    fun hp hz => h.nonzero (hz ▸ mem_map_of_mem (mem_of_getElem? hp))
  obtain ⟨i, hi⟩ := mem_iff_getElem?.mp hb
  obtain ⟨i', hi'⟩ := mem_iff_getElem?.mp hb'
  have hindex : i = i' := by
    rcases h.parent_cases hi with ⟨rfl, hz⟩ | ⟨j, p, rfl, hp, hext⟩
    · rcases h.parent_cases hi' with ⟨rfl, -⟩ | ⟨j', p', rfl, hp', hext'⟩
      · rfl
      · exact absurd (hext'.1.symm.trans (heq.symm.trans hz)) (hnonzero hp')
    rcases h.parent_cases hi' with ⟨rfl, hz'⟩ | ⟨j', p', rfl, hp', hext'⟩
    · exact absurd (hext.1.symm.trans (heq.trans hz')) (hnonzero hp)
    · -- the two parents have one hash, so they are at one place
      have hhash : p.getHash = p'.getHash := hext.1.symm.trans (heq.trans hext'.1)
      have hlt := (List.getElem?_eq_some_iff.mp hp).1
      refine congrArg (· + 1) ((getElem?_inj (by rwa [length_map]) h.distinct).mp ?_)
      rw [getElem?_map, getElem?_map, hp, hp', Option.map_some, Option.map_some, hhash]
  rw [hindex] at hi
  exact Option.some.inj (hi.symm.trans hi')

/-- A chain step leaves the tables and the commits. -/
theorem ChainStep.keepsTables {s' : ViewChain P} (h : ChainStep R s s') : KeepsTables s s' := by
  cases h with
  | context => exact ⟨.refl _, rfl, rfl⟩
  | publish =>
    refine ⟨?_, rfl, rfl⟩
    rw [publishDiff, onWriter, addMNotarizedDiff_store]
    exact .refl _
  | drop =>
    refine ⟨?_, rfl, rfl⟩
    rw [removePendingDiff, onWriter, removeNullifiedView_store]
    exact .refl _

theorem Steps.keepsTables {s' : ViewChain P} (h : Steps R s s') : KeepsTables s s' := by
  induction h with
  | refl => exact .refl s
  | tail _ hstep ih => exact ih.trans hstep.keepsTables

/-- The finalized blocks are one chain from genesis to the last commit. -/
structure FinalizedChain (s : ViewChain P) : Prop where
  /-- Every finalized block but genesis has its parent among them. -/
  parent : ∀ h b, s.persistenceWriter.store.finalizedBlocks.lookup h = some b →
    h ≠ Block.genesisHash P →
    ∃ p, s.persistenceWriter.store.finalizedBlocks.lookup b.parentBlockHash = some p
  /-- No two of them share a parent. -/
  unique : ∀ h h' b b', s.persistenceWriter.store.finalizedBlocks.lookup h = some b →
    s.persistenceWriter.store.finalizedBlocks.lookup h' = some b' →
    b.parentBlockHash = b'.parentBlockHash → h = h'
  /-- The committed hashes, from genesis on, are of finalized blocks, each the
  parent of the next and of an older view. -/
  commits : ∃ bs : List (Block P), bs.map Block.getHash = Block.genesisHash P :: s.committed ∧
    bs.IsChain Block.Extends ∧
    ∀ b ∈ bs, s.persistenceWriter.store.finalizedBlocks.lookup b.getHash = some b
  last : (Block.genesisHash P :: s.committed).getLast? = some s.previouslyCommittedBlockHash
  /-- No block is finalized and nullified. -/
  apart : ∀ h, s.persistenceWriter.store.finalizedBlocks.lookup h = none ∨
    s.persistenceWriter.store.nullifiedBlocks.lookup h = none

theorem Ledger.finalizedChain (h : s.Ledger bs) : s.FinalizedChain := by
  refine ⟨?_, ?_, ⟨bs, h.hashes, h.linked, fun b hb => (h.table _ b).mpr ⟨hb, rfl⟩⟩, h.last,
    h.apart⟩
  · intro x b hb hx
    obtain ⟨hmem, rfl⟩ := (h.table x b).mp hb
    obtain ⟨i, hi⟩ := mem_iff_getElem?.mp hmem
    rcases h.parent_cases hi with ⟨rfl, -⟩ | ⟨j, p, rfl, hp, hext⟩
    · -- the first block of the ledger is genesis
      have hhead := congrArg (·[0]?) h.hashes
      simp only [getElem?_map, hi, Option.map_some, getElem?_cons_zero] at hhead
      exact absurd (Option.some.inj hhead) hx
    · exact ⟨p, (h.table _ p).mpr ⟨mem_of_getElem? hp, hext.1.symm⟩⟩
  · intro x x' b b' hb hb' heq
    obtain ⟨hmem, rfl⟩ := (h.table x b).mp hb
    obtain ⟨hmem', rfl⟩ := (h.table x' b').mp hb'
    rw [h.parent_unique hmem hmem' heq]

end ViewChain

namespace Replica

variable {cfg : Config P} {A : Admission cfg}

/-- Only finalization changes the tables of blocks and the commits. -/
theorem Step.tables {s s' : Replica P} (h : Step A s s') :
    (s.chain.KeepsTables s'.chain ∧
      s'.viewManager.finalizations = s.viewManager.finalizations) ∨
      ∃ view, s' = s.finalized view := by
  cases h with
  | hashOnly => exact .inl ⟨⟨.refl _, rfl, rfl⟩, rfl⟩
  | clean h =>
    cases h with
    | chain h => exact .inl ⟨h.keepsTables, rfl⟩
    | @finalize view => exact .inr ⟨view, rfl⟩
    | propose _ hsteps => exact .inl ⟨Steps.keepsTables hsteps, rfl⟩
    | _ => exact .inl ⟨⟨.refl _, rfl, rfl⟩, rfl⟩

/-- Every finalization attempt of the replica found a clean state. -/
def FinalizedCleanly (s : Replica P) : Prop :=
  ∀ e ∈ s.viewManager.finalizations, e.2.FinalizesCleanly e.1

theorem Step.ledger {s s' : Replica P} (h : Step A s s') (hwf : s.WF A)
    (ih : s.FinalizedCleanly → ∃ bs, s.chain.Ledger bs) (hclean : s'.FinalizedCleanly) :
    ∃ bs, s'.chain.Ledger bs := by
  rcases h.tables with ⟨hkeep, heq⟩ | ⟨view, rfl⟩
  · obtain ⟨bs, hbs⟩ := ih fun e he => hclean e (heq ▸ he)
    exact ⟨bs, hbs.keep hkeep⟩
  · obtain ⟨bs, hbs⟩ := ih fun e he => hclean e (mem_append_left _ he)
    have hthis := hclean (view, s.chain) (mem_append_right _ mem_cons_self)
    obtain ⟨new, hnew⟩ := hbs.finalize hwf.chain hthis
    exact ⟨_, hnew⟩

theorem start_ledger (cfg : Config P) (hzero : Block.genesisHash P ≠ P.hashing.zero) :
    (Replica.start cfg).chain.Ledger [Block.genesis (cfg.peers.leaderForView 0) 0] := by
  have hblocks := @start_blocks _ cfg
  refine ⟨?_, rfl, rfl, isChain_singleton _, nodup_singleton _, ?_, ?_, ?_⟩
  · intro h b
    rw [hblocks.finalizedBlocks]
    by_cases hh : h = Block.genesisHash P
    · subst hh
      constructor
      · intro hb
        obtain rfl := Option.some.inj ((AList.lookup_insert _).symm.trans hb)
        exact ⟨mem_cons_self, rfl⟩
      · rintro ⟨hb, -⟩
        rw [mem_singleton.mp hb]
        exact AList.lookup_insert _
    · constructor
      · intro hb
        cases (AList.lookup_insert_ne hh).symm.trans hb
      · rintro ⟨hb, rfl⟩
        rw [mem_singleton.mp hb] at hh
        exact absurd rfl hh
  · intro hmem
    exact hzero (mem_singleton.mp hmem).symm
  · rintro b ⟨⟩
    rfl
  · intro h
    rw [hblocks.nullifiedBlocks]
    exact .inr rfl

/-- **The finalized blocks of a replica are one chain**, in every run in which
every finalization that passes the checks finds a clean state. -/
theorem finalized_chain_integrity (hzero : Block.genesisHash P ≠ P.hashing.zero) {s : Replica P}
    {running : Bool} (h : Run cfg (fun _ _ => True) s running) (hclean : s.FinalizedCleanly) :
    s.chain.FinalizedChain := by
  have hsteps := (Run.steps (A := .any cfg) (fun _ _ _ => trivial) h).1
  have hinv := Steps.invariant (I := fun s => s.FinalizedCleanly → ∃ bs, s.chain.Ledger bs)
    (fun _ _ hwf hstep ih => hstep.ledger hwf ih) hsteps start_wf
    (fun _ => ⟨_, start_ledger cfg hzero⟩)
  obtain ⟨bs, hbs⟩ := hinv hclean
  exact hbs.finalizedChain

/-! ### A run -/

/-- The path of a list of views, as far as they hold a block. -/
def pathOf (s : ViewChain P) (views : List Nat) : List (Nat × Block P) :=
  views.filterMap fun v => ((s.findViewContext v).bind (·.block)).map fun b => (v, b)

/-- The test of `Clean`, given the views of the path. -/
def cleanTest (s : ViewChain P) (view : Nat) (views : List Nat) : Bool :=
  let store := s.persistenceWriter.store
  (s.iter.all fun e => s.iter.all fun f =>
    decide (e.2.blockHash ≠ none → e.2.blockHash = f.2.blockHash → e.1 = f.1)) &&
  (s.iter.all fun e => e.2.blockHash.all fun h =>
    (store.finalizedBlocks.lookup h).isNone && (store.nullifiedBlocks.lookup h).isNone &&
      decide (h ≠ P.hashing.zero)) &&
  (store.finalizedBlocks.lookup s.previouslyCommittedBlockHash).any (fun top =>
    decide ((top :: (pathOf s views).map (·.2)).IsChain fun a b =>
      b.parentBlockHash = a.getHash ∧ a.view < b.view)) &&
  (pathOf s views).all (fun e => decide (e.2.view = e.1) &&
    (s.findViewContext e.1).any (·.mNotarization.isSome)) &&
  decide ((pathOf s views).getLast?.map (·.1) = some view)

theorem clean_of_test {s : ViewChain P} {view : Nat} {views : List Nat}
    (h : cleanTest s view views = true) : s.Clean view := by
  simp only [cleanTest, Bool.and_eq_true, all_eq_true, Option.any_eq_true,
    decide_eq_true_eq] at h
  obtain ⟨⟨⟨⟨hdistinct, hfresh⟩, top, htop, hlinked⟩, hheld⟩, hlast⟩ := h
  refine ⟨?_, ?_, top, pathOf s views, htop, ?_, hlinked, hlast⟩
  · intro v w c d x hc hd hcx hdx
    exact hdistinct (v, c) (mem_iter.mpr hc) (w, d) (mem_iter.mpr hd)
      (by rw [hcx]; exact Option.some_ne_none x) (hcx.trans hdx.symm)
  · intro v c x hc hx
    have hall := hfresh (v, c) (mem_iter.mpr hc)
    rw [hx] at hall
    simpa [and_assoc] using hall
  · intro e he
    obtain ⟨hview, c, hc, hm⟩ := hheld e he
    obtain ⟨v, -, hv⟩ := mem_filterMap.mp he
    obtain ⟨b, hb, rfl⟩ := Option.map_eq_some_iff.mp hv
    obtain ⟨d, hd, hdb⟩ := Option.bind_eq_some_iff.mp hb
    obtain rfl := Option.some.inj (hc.symm.trans hd)
    exact ⟨c, hc, hdb, hm, hview⟩

/-- What replica 0 gets: the first block and the votes of three others. -/
def finalizingInputs : List (Input sampleParams) :=
  [.message (.blockProposal firstBlock), .message (.vote (voteOf 2 1 firstBlock.getHash)),
    .message (.vote (voteOf 3 1 firstBlock.getHash)),
    .message (.vote (voteOf 4 1 firstBlock.getHash))]

/-- Replica 0 finalizes the first block. -/
theorem finalized_chain_integrity_first :
    let s := (runAll (sampleConfig 0 (quietEnv _)) 10 finalizingInputs).1
    s.chain.committed = [firstBlock.getHash] ∧ s.chain.FinalizedChain := by
  have hrun := run_any (sampleConfig 0 (quietEnv _)) 10 finalizingInputs
  have hclean : Replica.FinalizedCleanly
      (runAll (sampleConfig 0 (quietEnv _)) 10 finalizingInputs).1 := by
    have htest : ((runAll (sampleConfig 0 (quietEnv _)) 10
        finalizingInputs).1.viewManager.finalizations.all fun e =>
          cleanTest e.2 e.1 [1]) = true := by
      decide +kernel
    exact fun e he _ _ => clean_of_test (List.all_eq_true.mp htest e he)
  exact ⟨by decide +kernel, finalized_chain_integrity (by decide +kernel) hrun hclean⟩

/-- The hash the faulty leader of view 1 puts on its block. -/
def claimedHash : Hash sampleParams := (12345 : Nat)

/-- The certificate of replicas 1, 2 and 3 for it. -/
def claimedCertificate : MNotarization sampleParams :=
  { view := 1, blockHash := claimedHash
    aggregatedSignature := Crypto.aggregateSignatures sampleParams.curve
      [signHash 1 claimedHash, signHash 2 claimedHash, signHash 3 claimedHash]
    peerIds := [1, 2, 3], length_peerIds := length_three, leaderId := 1 }

/-- The block of view 2 on top of it. -/
def claimedChild : Block sampleParams := emptyBlock 2 claimedHash 0

/-- A hash no block has. -/
def danglingHash : Hash sampleParams := (777 : Nat)

/-- What replica 0 gets: the certificate, the next block with its votes, and
for the missing block of view 1 one whose parent does not exist. -/
def recoveryInputs : List (Input sampleParams) :=
  [.message (.mNotarization claimedCertificate), .message (.blockProposal claimedChild),
    .message (.vote (voteOf 3 2 claimedChild.getHash)),
    .message (.vote (voteOf 4 2 claimedChild.getHash)),
    .message (.vote (voteOf 5 2 claimedChild.getHash)),
    .message (.blockRecoveryResponse 1 (sampleBlock 1 danglingHash 0 claimedHash))]

/-- Replica 0 finalizes a block whose parent it never had. -/
theorem finalized_without_parent :
    ∃ s : Replica sampleParams,
      Run (sampleConfig 0 (quietEnv _)) (fun _ m => m.WellTyped) s true ∧
      ¬ s.chain.FinalizedChain := by
  have hrun := run_goes (sampleConfig 0 (quietEnv _)) 10 recoveryInputs (·.WellTyped)
    (by decide +kernel) (by decide +kernel)
  refine ⟨_, hrun, fun hchain => ?_⟩
  have hfound : ((runAll (sampleConfig 0 (quietEnv _)) 10
      recoveryInputs).1.chain.persistenceWriter.store.finalizedBlocks.lookup claimedHash).map
        (·.parentBlockHash) = some danglingHash := by
    decide +kernel
  obtain ⟨b, hb, hparent⟩ := Option.map_eq_some_iff.mp hfound
  obtain ⟨p, hp⟩ := hchain.parent claimedHash b hb (by decide +kernel)
  rw [hparent] at hp
  have hmissing : (runAll (sampleConfig 0 (quietEnv _)) 10
      recoveryInputs).1.chain.persistenceWriter.store.finalizedBlocks.lookup danglingHash = none := by
    decide +kernel
  cases hmissing.symm.trans hp

end Replica

end Minimmit
