/-
Minimmit.Consensus.HeightTheorems — do heights identify finalized blocks?

The height of a block is chosen by its leader. It is not part of the block
hash, so nobody signs it, and no function compares it with anything; the
store, block recovery and the syncer use it as a key all the same. If every
block that arrives has its view as height, and the hashes that arrive are of
the views they are sent for, then every finalized block has the height of its
view, a view is finalized once, and parents are older; so heights are a key
(`heights_identify`). A leader that repeats an earlier height gets two
finalized blocks of one height, and the second L-notarization takes the place
of the first in the index (`height_repeated`).
-/
import Minimmit.Consensus.FilingSteps
import Minimmit.Consensus.WalkTheorems

namespace Minimmit

open Minimmit.Library Relation ViewContext Option ViewChain Function List

variable {P : Params}

/-- The hashes of proposals and certificates are of the view beside them, the
parent of a recovered block is older than its view, and blocks have the
height of their view. -/
def ConsensusMessage.KeepsHeight : ConsensusMessage P → Prop
  | .blockProposal b => HashOf b.view b.getHash ∧ b.height = b.view
  | .blockRecoveryResponse v b => OlderHash v b.parentBlockHash ∧ b.height = v
  | m => m.Descends

theorem ConsensusMessage.KeepsHeight.descends {m : ConsensusMessage P} (h : m.KeepsHeight) :
    m.Descends := by
  cases m with
  | blockProposal b => exact h.1
  | blockRecoveryResponse v b => exact h.1
  | _ => exact h

/-- Messages that keep heights, the own proposals among them. -/
def Admission.keepsHeight (cfg : Config P) : Admission cfg where
  admits _ m := m.KeepsHeight
  mono h := h
  own hv := ⟨cfg.block_hashOf hv _ _, rfl⟩

/-! ## The tables and the held views -/

namespace ViewChain

variable {t : BlockTables P} {b₀ : Block P} {s : ViewChain P}

/-- Finalized blocks have the height of their view, and the view of a
finalized block, as long as it is held, holds that block. -/
structure Levels (s : ViewChain P) (t : BlockTables P) : Prop where
  hash : ∀ h b, t.finalized.lookup h = some b → HashOf b.height h
  parent : ∀ h b, t.finalized.lookup h = some b → h ≠ Block.genesisHash P →
    OlderHash b.height b.parentBlockHash
  unique : ∀ h h' b b', t.finalized.lookup h = some b → t.finalized.lookup h' = some b' →
    b.height = b'.height → h = h'
  held : ∀ h b c, t.finalized.lookup h = some b → s.findViewContext b.height = some c →
    ∃ b₀, c.block = some b₀ ∧ b₀.getHash = h
  le_current : ∀ h b, t.finalized.lookup h = some b → b.height ≤ s.currentView
  index : ∀ k h, t.lNotarizationsByHeight.lookup k = some h →
    ∃ b, t.finalized.lookup h = some b ∧ b.height = k

/-- A held block with its view as height. -/
structure Level (v : Nat) (b : Block P) : Prop where
  hash : HashOf v b.getHash
  height : b.height = v
  parent : OlderHash v b.parentBlockHash

/-- A lookup after a block was filed. -/
theorem lookup_putFinalized {h : Hash P} {b : Block P}
    (hb : (t.putFinalized b₀).finalized.lookup h = some b) :
    (h = b₀.getHash ∧ b = b₀.finalized) ∨ t.finalized.lookup h = some b := by
  by_cases hh : h = b₀.getHash
  · subst hh
    exact .inl ⟨rfl, some.inj (hb.symm.trans (AList.lookup_insert t.finalized))⟩
  · exact .inr ((AList.lookup_insert_ne hh).symm.trans hb)

/-- **Filing the block of a held view.** A block of that height is the block
of that view. -/
theorem Levels.putFinalized (hinj : Injective P.hashing.blake3) (ht : s.Levels t)
    {v : Nat} {c : ViewContext P} (hc : s.findViewContext v = some c) (hb₀ : c.block = some b₀)
    (hv : v ≤ s.currentView) (hlevel : Level v b₀) : s.Levels (t.putFinalized b₀) := by
  have hheight : b₀.finalized.height = v := hlevel.height
  have hsame : ∀ {h b}, t.finalized.lookup h = some b → b.height = v → h = b₀.getHash := by
    intro h b hb heq
    obtain ⟨b₁, hb₁, rfl⟩ := ht.held h b c hb (heq ▸ hc)
    rw [some.inj (hb₁.symm.trans hb₀)]
  constructor
  case hash =>
    intro h b hb
    rcases lookup_putFinalized hb with ⟨rfl, rfl⟩ | hold
    · rw [hheight]
      exact hlevel.hash
    · exact ht.hash h b hold
  case parent =>
    intro h b hb hne
    rcases lookup_putFinalized hb with ⟨rfl, rfl⟩ | hold
    · rw [hheight]
      exact hlevel.parent
    · exact ht.parent h b hold hne
  case unique =>
    intro h h' b b' hb hb' heq
    rcases lookup_putFinalized hb with ⟨rfl, rfl⟩ | hold
    · rcases lookup_putFinalized hb' with ⟨rfl, rfl⟩ | hold'
      · rfl
      · exact (hsame hold' (heq.symm.trans hheight)).symm
    · rcases lookup_putFinalized hb' with ⟨rfl, rfl⟩ | hold'
      · exact hsame hold (heq.trans hheight)
      · exact ht.unique h h' b b' hold hold' heq
  case held =>
    intro h b d hb hd
    rcases lookup_putFinalized hb with ⟨rfl, rfl⟩ | hold
    · rw [hheight, hc] at hd
      exact ⟨b₀, some.inj hd ▸ hb₀, rfl⟩
    · exact ht.held h b d hold hd
  case le_current =>
    intro h b hb
    rcases lookup_putFinalized hb with ⟨rfl, rfl⟩ | hold
    · exact hheight ▸ hv
    · exact ht.le_current h b hold
  case index =>
    intro k h hk
    obtain ⟨b, hb, rfl⟩ := ht.index k h hk
    by_cases hh : h = b₀.getHash
    · subst hh
      refine ⟨b₀.finalized, AList.lookup_insert _, ?_⟩
      rw [hheight]
      exact hlevel.hash.view_unique hinj (ht.hash _ b hb)
    · exact ⟨b, (AList.lookup_insert_ne hh).trans hb, rfl⟩

/-- The L-notarization of a block that was just filed. -/
theorem Levels.putLNotarization (ht : s.Levels (t.putFinalized b₀)) {l : LNotarization P}
    (hhash : l.blockHash = b₀.getHash) (hheight : l.height = b₀.height) :
    s.Levels ((t.putFinalized b₀).putLNotarization l) := by
  refine { ht with index := fun k h hk => ?_ }
  by_cases hk' : k = l.height
  · subst hk'
    have hnew : ((t.putFinalized b₀).lNotarizationsByHeight.insert l.height l.blockHash).lookup
        l.height = some l.blockHash := AList.lookup_insert _
    rw [← some.inj (hnew.symm.trans hk), hhash]
    exact ⟨b₀.finalized, AList.lookup_insert _, hheight.symm⟩
  · exact ht.index k h ((AList.lookup_insert_ne hk').symm.trans hk)

/-- The writes of a finalization. -/
theorem levels_filing (hinj : Injective P.hashing.blake3) {peers : PeerSet P}
    {replicaId : Nat} (hwf : s.WF peers replicaId)
    (hheld : ∀ v c b, s.findViewContext v = some c → c.block = some b → Level v b) (view : Nat) :
    s.FilesBy s.Levels view := by
  intro v c hc _
  have hput : ∀ {t b}, c.block = some b → s.Levels t → s.Levels (t.putFinalized b) :=
    fun hb ht => ht.putFinalized hinj hc hb (hwf.le_current v c hc) (hheld v c _ hc hb)
  refine ⟨fun _ => hput, fun {t b h} _ hb hh ht => (hput hb ht).putLNotarization ?_ rfl,
    fun _ _ ht => { ht with }⟩
  exact some.inj (hh.symm.trans ((hwf.context v c hc).block_hash b hb))

/-- Later, views have been added and blocks have stayed. -/
theorem Levels.later {s' : ViewChain P} (ht : s.Levels t) (hview : s.currentView ≤ s'.currentView)
    (hkept : ∀ w c', s'.findViewContext w = some c' → s.currentView < w ∨
      ∃ c, s.findViewContext w = some c ∧
        ∀ b, c.block = some b → ∃ b', c'.block = some b' ∧ b'.getHash = b.getHash) :
    s'.Levels t := by
  refine { ht with
    held := fun h b c' hb hc' => ?_
    le_current := fun h b hb => (ht.le_current h b hb).trans hview }
  rcases hkept b.height c' hc' with hlt | ⟨c, hc, hblock⟩
  · exact absurd (ht.le_current h b hb) (Nat.not_le.mpr hlt)
  · obtain ⟨b₀, hb₀, rfl⟩ := ht.held h b c hb hc
    exact hblock b₀ hb₀

end ViewChain

/-! ## Blocks in contexts -/

namespace ViewContext

variable {adm : ConsensusMessage P → Prop} {peers : PeerSet P} {c c' : ViewContext P}

theorem markBlockFinalized_block {b' : Block P} (hb' : c.markBlockFinalized.block = some b') :
    ∃ b, c.block = some b ∧ b' = b.finalized := by
  obtain ⟨b, hb, rfl⟩ := map_eq_some_iff.mp hb'
  exact ⟨b, hb, rfl⟩

/-- A stored block stays, up to its flag. -/
theorem CtxStep.block_kept (h : CtxStep adm peers c c') {b : Block P} (hb : c.block = some b) :
    ∃ b', c'.block = some b' ∧ b'.getHash = b.getHash := by
  have hflag : c.markBlockFinalized.block = some b.finalized := by
    simp only [markBlockFinalized, hb, map_some]
    rfl
  cases h with
  | block h =>
    cases h with
    | store d ha h => cases hb.symm.trans h.noBlock
    | flag => exact ⟨b.finalized, hflag, rfl⟩
    | _ => exact ⟨b, hb, rfl⟩
  | certify => exact ⟨b.finalized, hflag, rfl⟩
  | recover ha hnone => cases hb.symm.trans hnone
  | _ => exact ⟨b, hb, rfl⟩

/-- A stored block has the height of the view. -/
theorem CtxStep.height (h : CtxStep adm peers c c') (hadm : ∀ m, adm m → m.KeepsHeight)
    (hc : ∀ b, c.block = some b → b.height = c.viewNumber) :
    ∀ b, c'.block = some b → b.height = c.viewNumber := by
  have hflag : ∀ b, c.markBlockFinalized.block = some b → b.height = c.viewNumber := by
    intro b' hb'
    obtain ⟨b, hb, rfl⟩ := markBlockFinalized_block hb'
    exact hc b hb
  cases h with
  | block h =>
    cases h with
    | store d ha h =>
      rintro b ⟨⟩
      exact (hadm _ ha).2.trans h.view
    | flag => exact hflag
    | _ => exact hc
  | certify => exact hflag
  | recover ha =>
    rintro b ⟨⟩
    exact (hadm _ ha).2
  | _ => exact hc

end ViewContext

namespace Replica

variable {cfg : Config P} {A : Admission cfg} {s : Replica P}

/-- A context of a step was there before, with its block, or is of a new
view. -/
theorem Step.block_kept {s' : Replica P} (h : Step A s s') {w : Nat} {c' : ViewContext P}
    (hc' : s'.context w = some c') : s.currentView < w ∨ ∃ c, s.context w = some c ∧
      ∀ b, c.block = some b → ∃ b', c'.block = some b' ∧ b'.getHash = b.getHash := by
  have hsame : ∀ {c : ViewContext P}, s.context w = some c → c'.block = c.block →
      ∃ c, s.context w = some c ∧
        ∀ b, c.block = some b → ∃ b', c'.block = some b' ∧ b'.getHash = b.getHash :=
    fun hc heq => ⟨_, hc, fun b hb => ⟨b, heq.trans hb, rfl⟩⟩
  have hchain : ∀ {adm : ConsensusMessage P → Prop} {chain' : ViewChain P},
      ViewChain.Steps (CtxStep adm cfg.peers) s.chain chain' →
      ∀ c', chain'.findViewContext w = some c' → ∃ c, s.context w = some c ∧
        ∀ b, c.block = some b → ∃ b', c'.block = some b' ∧ b'.getHash = b.getHash := by
    intro adm chain' hsteps
    induction hsteps with
    | refl => exact fun c' hc' => ⟨c', hc', fun b hb => ⟨b, hb, rfl⟩⟩
    | tail _ hstep ih =>
      intro c' hc'
      rcases hstep.find hc' with hold | ⟨c, hc, hctx⟩
      · exact ih c' hold
      · obtain ⟨c₀, hc₀, hkept⟩ := ih c hc
        refine ⟨c₀, hc₀, fun b hb => ?_⟩
        obtain ⟨b₁, hb₁, heq₁⟩ := hkept b hb
        obtain ⟨b₂, hb₂, heq₂⟩ := hctx.block_kept hb₁
        exact ⟨b₂, hb₂, heq₂.trans heq₁⟩
  have hset : ∀ {v : Nat} {c d : ViewContext P}, s.context v = some c →
      (s.chain.setContext v d).findViewContext w = some c' → d.block = c.block →
      ∃ c, s.context w = some c ∧
        ∀ b, c.block = some b → ∃ b', c'.block = some b' ∧ b'.getHash = b.getHash := by
    intro v c d hc hd hblock
    rcases findViewContext_setContext_cases hd with ⟨rfl, rfl⟩ | ⟨-, hold⟩
    · exact hsame hc hblock
    · exact hsame hold rfl
  cases h with
  | hashOnly hc h =>
    refine .inr (hset hc hc' ?_)
    cases h with
    | adoptHash => rfl
  | clean h =>
    cases h with
    | chain h => exact .inr (hchain (.single h) c' hc')
    | enter =>
      rcases enter_cases hc' with ⟨hw, -⟩ | ⟨-, hold⟩
      · exact .inl (hw ▸ Nat.lt_succ_self _)
      · exact .inr (hsame hold rfl)
    | @finalize view =>
      exact .inr (hsame ((finalize_prunes view _ s.chain).find w c' hc') rfl)
    | castVote hc => exact .inr (hset hc hc' rfl)
    | nullify hc => exact .inr (hset hc hc' rfl)
    | propose _ hsteps => exact .inr (hchain (Steps.ofBlock hsteps) c' hc')
    | _ => exact .inr (hsame hc' rfl)

/-- The blocks of held views have the height of the view. -/
theorem heightRule (hA : ∀ log m, A.admits log m → m.KeepsHeight) :
    ContextRule A fun v c => ∀ b, c.block = some b → b.height = v where
  new _ _ := fun _ hb => nomatch hb
  step {log v c c'} hbelongs h hc := by
    rw [← hbelongs.viewNumber] at hc ⊢
    exact h.height (hA log) hc
  hashOnly _ h hc := by
    cases h with
    | adoptHash => exact hc
  castVote _ _ hc := hc
  nullify _ _ hc := hc

/-- Everything that is known of the blocks of a replica. -/
structure LevelBlocks (s : Replica P) : Prop extends ParentsOlder s where
  heights : ∀ v c, s.context v = some c → ∀ b, c.block = some b → b.height = v
  tables : s.chain.Levels s.chain.blockTables

theorem LevelBlocks.level (hs : s.LevelBlocks) (hwf : s.WF A) {v : Nat} {c : ViewContext P}
    {b : Block P} (hc : s.context v = some c) (hb : c.block = some b) : Level v b := by
  have hbound := hs.held v c hc b.getHash ((hwf.chain.context v c hc).block_hash b hb)
  rw [hwf.chain.viewNumber v c hc] at hbound
  exact ⟨hbound, hs.heights v c hc b hb, hs.blocks v c b hc hb⟩

theorem Step.levelBlocks (hinj : Injective P.hashing.blake3)
    (hA : ∀ log m, A.admits log m → m.KeepsHeight) {s' : Replica P} (h : Step A s s')
    (hwf : s.WF A) (hs : s.LevelBlocks) : s'.LevelBlocks := by
  refine ⟨h.parentsOlder (fun log m hm => (hA log m hm).descends) hwf hs.toParentsOlder,
    (heightRule hA).replicaStep hwf h hs.heights, ?_⟩
  -- the tables as they are after the step fit the chain as it was before
  have htables : s.chain.Levels s'.chain.blockTables := by
    rcases h.blockTables with ⟨heq, -⟩ | ⟨view, rfl⟩
    · rw [heq]
      exact hs.tables
    · exact finalize_filing s.viewManager.peers (fun _ _ =>
        levels_filing hinj hwf.chain (fun v c b hc hb => hs.level hwf hc hb) view) hs.tables
  exact htables.later h.currentView_le fun w c' hc' => h.block_kept hc'

theorem start_levelBlocks (cfg : Config P) : (Replica.start cfg).LevelBlocks := by
  refine ⟨start_parentsOlder cfg, fun v c hc b hb => ?_, ?_⟩
  · obtain ⟨-, rfl⟩ := start_context hc
    cases hb
  have hone : ∀ h b, (Replica.start cfg).chain.blockTables.finalized.lookup h = some b →
      h = Block.genesisHash P ∧ b = Block.genesis (cfg.peers.leaderForView 0) 0 := by
    refine restart_filed (q := fun t => ∀ h b, t.finalized.lookup h = some b →
      h = Block.genesisHash P ∧ b = Block.genesis (cfg.peers.leaderForView 0) 0) cfg cfg.replicaId
      (fun t ht h b hb => ?_) (fun h b hb => nomatch hb)
    rcases lookup_putFinalized hb with hnew | hold
    · exact hnew
    · exact ht h b hold
  have hindex : ∀ k h,
      (Replica.start cfg).chain.blockTables.lNotarizationsByHeight.lookup k ≠ some h :=
    restart_filed (q := fun t => ∀ k h, t.lNotarizationsByHeight.lookup k ≠ some h)
      cfg cfg.replicaId (fun t ht => ht) (fun k h hk => nomatch hk)
  constructor
  case hash =>
    intro h b hb
    obtain ⟨rfl, rfl⟩ := hone h b hb
    exact hashOf_genesisHash P
  case parent =>
    intro h b hb hne
    exact absurd (hone h b hb).1 hne
  case unique =>
    intro h h' b b' hb hb' _
    rw [(hone h b hb).1, (hone h' b' hb').1]
  case held =>
    intro h b c hb hc
    obtain ⟨-, rfl⟩ := hone h b hb
    obtain ⟨hzero, -⟩ := @start_context P cfg _ _ hc
    cases hzero
  case le_current =>
    intro h b hb
    obtain ⟨-, rfl⟩ := hone h b hb
    exact Nat.zero_le _
  case index => exact fun k h hk => absurd hk (hindex k h)

end Replica

/-! ## Heights as a key -/

/-- Heights identify the finalized blocks of a store: no two of them have the
same height, heights increase from parent to child, and neither the lookup by
height nor the index of L-notarizations leads to another block. -/
structure Store.HeightsIdentify (s : Store P) : Prop where
  unique : ∀ h h' b b', s.getFinalizedBlock h = some b → s.getFinalizedBlock h' = some b' →
    b.height = b'.height → h = h'
  increasing : ∀ h b p, s.getFinalizedBlock h = some b → h ≠ Block.genesisHash P →
    s.getFinalizedBlock b.parentBlockHash = some p → p.height < b.height
  lookup : ∀ h b, s.getFinalizedBlock h = some b → s.getFinalizedBlockByHeight b.height = some b
  index : ∀ k h, s.lNotarizationsByHeight.lookup k = some h →
    ∃ b, s.getFinalizedBlock h = some b ∧ b.height = k

/-- With one block of each height the scan finds it. -/
theorem Store.getFinalizedBlockByHeight_eq {s : Store P}
    (hunique : ∀ h h' b b', s.getFinalizedBlock h = some b → s.getFinalizedBlock h' = some b' →
      b.height = b'.height → h = h') {h : Hash P} {b : Block P} (hb : s.getFinalizedBlock h = some b) :
    s.getFinalizedBlockByHeight b.height = some b := by
  unfold Store.getFinalizedBlockByHeight
  have hentry : (⟨h, b⟩ : Sigma fun _ : Hash P => Block P) ∈ s.finalizedBlocks.entries :=
    AList.mem_lookup_iff.mp (mem_def.mpr hb)
  rcases hfound : P.hashOrder.find? 0 (fun e => e.2.height == b.height)
      s.finalizedBlocks.entries with _ | ⟨h', b'⟩
  · exact absurd (beq_self_eq_true b.height) (HashOrder.find?_eq_none.mp hfound _ hentry)
  · obtain ⟨hmem, hheight⟩ := HashOrder.mem_of_find? hfound
    have hb' : s.getFinalizedBlock h' = some b' := mem_def.mp (AList.mem_lookup_iff.mpr hmem)
    obtain rfl := hunique h' h b' b hb' hb (eq_of_beq hheight)
    rw [hfound, map_some, some.inj (hb'.symm.trans hb)]

theorem ViewChain.Levels.heightsIdentify (hinj : Injective P.hashing.blake3)
    {s : ViewChain P} (hs : s.Levels s.blockTables) :
    s.persistenceWriter.store.HeightsIdentify := by
  refine ⟨hs.unique, fun h b p hb hne hp => ?_,
    fun h b hb => Store.getFinalizedBlockByHeight_eq hs.unique hb, hs.index⟩
  obtain ⟨u, hu, hof⟩ := hs.parent h b hb hne
  rwa [(hs.hash _ p hp).view_unique hinj hof]

namespace Replica

/-- **Heights identify finalized blocks** in every run in which blocks arrive
with their view as height and hashes are of their views, and two replicas of
such runs agree on the height of a block. -/
theorem heights_identify (hinj : Function.Injective P.hashing.blake3) {cfg cfg' : Config P}
    {s s' : Replica P} {running running' : Bool}
    (h : Run cfg (fun _ m => m.KeepsHeight) s running)
    (h' : Run cfg' (fun _ m => m.KeepsHeight) s' running') :
    s.chain.persistenceWriter.store.HeightsIdentify ∧
      ∀ hash b b', s.chain.persistenceWriter.store.getFinalizedBlock hash = some b →
        s'.chain.persistenceWriter.store.getFinalizedBlock hash = some b' →
        b.height = b'.height := by
  have hlevels : ∀ {cfg : Config P} {s : Replica P} {running : Bool},
      Run cfg (fun _ m => m.KeepsHeight) s running → s.chain.Levels s.chain.blockTables := by
    intro cfg s running h
    obtain ⟨hsteps, -⟩ := Run.steps (A := .keepsHeight cfg) (fun _ _ hm => hm) h
    exact (Steps.invariant (fun _ _ hwf hstep hs => hstep.levelBlocks hinj (fun _ _ hm => hm) hwf hs)
      hsteps start_wf (start_levelBlocks cfg)).tables
  refine ⟨(hlevels h).heightsIdentify hinj, fun hash b b' hb hb' => ?_⟩
  exact ((hlevels h).hash hash b hb).view_unique hinj ((hlevels h').hash hash b' hb')

theorem finalizingInputs_keepsHeight (i : Fin 6) :
    Run (sampleConfig i (quietEnv _)) (fun _ m => m.KeepsHeight)
      (runAll (sampleConfig i (quietEnv _)) 10 finalizingInputs).1
      (runAll (sampleConfig i (quietEnv _)) 10 finalizingInputs).2 := by
  refine run_runAll _ 10 _ fun m hm => ?_
  have hcases : m = .blockProposal firstBlock ∨ ∃ j, m = .vote (voteOf j 1 firstBlock.getHash) := by
    simp only [messages, finalizingInputs, filterMap_cons, filterMap_nil, mem_cons,
      not_mem_nil, or_false] at hm
    rcases hm with rfl | rfl | rfl | rfl
    · exact .inl rfl
    · exact .inr ⟨2, rfl⟩
    · exact .inr ⟨3, rfl⟩
    · exact .inr ⟨4, rfl⟩
  rcases hcases with rfl | ⟨j, rfl⟩
  · exact ⟨Network.firstBlock_hashOf, rfl⟩
  · trivial

/-- Replicas 0 and 5 finalize the first block. -/
theorem heights_identify_first :
    let s := (runAll (sampleConfig 0 (quietEnv _)) 10 finalizingInputs).1
    let s' := (runAll (sampleConfig 5 (quietEnv _)) 10 finalizingInputs).1
    (s.chain.persistenceWriter.store.getFinalizedBlock firstBlock.getHash).isSome = true ∧
      (s'.chain.persistenceWriter.store.getFinalizedBlock firstBlock.getHash).isSome = true ∧
      s.chain.persistenceWriter.store.HeightsIdentify ∧
      ∀ hash b b', s.chain.persistenceWriter.store.getFinalizedBlock hash = some b →
        s'.chain.persistenceWriter.store.getFinalizedBlock hash = some b' →
        b.height = b'.height :=
  ⟨by decide +kernel, by decide +kernel, heights_identify sampleHashing_injective
    (finalizingInputs_keepsHeight 0) (finalizingInputs_keepsHeight 5)⟩

/-- The second leader gives its block the height of the first one. -/
def lowSecondBlock : Block sampleParams := { secondBlock with height := 1 }

/-- Replica 0 finalizes the first block and then the second. -/
def repeatedHeightInputs : List (Input sampleParams) :=
  finalizingInputs ++ [.message (.blockProposal lowSecondBlock),
    .message (.vote (voteOf 1 2 lowSecondBlock.getHash)),
    .message (.vote (voteOf 3 2 lowSecondBlock.getHash)),
    .message (.vote (voteOf 4 2 lowSecondBlock.getHash))]

/-- **Two finalized blocks have one height.** The lookup by height finds one
of them, and in the index the second L-notarization has replaced the first. -/
theorem height_repeated :
    ∃ s : Replica sampleParams,
      Run (sampleConfig 0 (quietEnv _)) (fun _ m => m.WellTyped) s true ∧
      firstBlock.getHash ≠ lowSecondBlock.getHash ∧
      (s.chain.persistenceWriter.store.getFinalizedBlock firstBlock.getHash).map (·.height) =
        some 1 ∧
      (s.chain.persistenceWriter.store.getFinalizedBlock lowSecondBlock.getHash).map (·.height) =
        some 1 ∧
      (s.chain.persistenceWriter.store.lNotarizations.lookup firstBlock.getHash).map (·.height) =
        some 1 ∧
      s.chain.persistenceWriter.store.lNotarizationsByHeight.lookup 1 =
        some lowSecondBlock.getHash := by
  have hrun := run_goes (sampleConfig 0 (quietEnv _)) 10 repeatedHeightInputs (·.WellTyped)
    (by decide +kernel) (by decide +kernel)
  exact ⟨_, hrun, by decide +kernel, by decide +kernel, by decide +kernel, by decide +kernel,
    by decide +kernel⟩

end Replica

end Minimmit
