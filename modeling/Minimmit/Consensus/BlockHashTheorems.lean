/-
Minimmit.Consensus.BlockHashTheorems — which block a stored hash stands for.

Neither a proposal nor a recovered block is hashed when it arrives: the code
compares and signs the hash the block came with (`Block.getHash`), and a
recovered block is not even asked for its view. What a replica stores under
a hash is therefore what its peers sent. If every block that arrives carries
the hash of its own content, and its transactions do, then every stored and
every finalized block is the one its hash names
(`stored_blocks_match_hashes`), in all replicas alike; a leader that sends
two blocks with one made-up hash splits them (`forged_hash_splits`).
-/
import Minimmit.Consensus.Sample

namespace Minimmit

open Minimmit.Library Relation ViewContext Option

variable {P : Params} {b : Block P} {c : ViewContext P} {peers : PeerSet P} {s : ViewChain P}

/-- The block carries the hash of its content, and so does every one of its
transactions. -/
structure Block.Honest (sign : Address P → Hash P → P.ed25519.Signature) (b : Block P) : Prop where
  hash : b.getHash = b.computeHash
  transactions : ∀ t ∈ b.transactions, t.Honest sign

/-- The blocks of the message are honest, and a recovered block is of the
view it is sent for. -/
def ConsensusMessage.HonestBlocks (sign : Address P → Hash P → P.ed25519.Signature) :
    ConsensusMessage P → Prop
  | .blockProposal block => block.Honest sign
  | .blockRecoveryResponse view block => block.view = view ∧ block.Honest sign
  | _ => True

/-- The mempool hands out honest transactions. -/
def Env.HonestTransactions (sign : Address P → Hash P → P.ed25519.Signature) (env : Env P) :
    Prop :=
  ∀ now, ∀ t ∈ env.transactions now, t.Honest sign

variable {sign : Address P → Hash P → P.ed25519.Signature}

/-! ## The invariant -/

theorem Config.block_honest {cfg : Config P} (henv : cfg.env.HonestTransactions sign)
    (view : Nat) (parent : Hash P) (now : Nat) : (cfg.block view parent now).Honest sign :=
  ⟨rfl, henv now⟩

/-- What arrives is typed and honest. -/
def honestAdmission (cfg : Config P) (henv : cfg.env.HonestTransactions sign) :
    Admission cfg where
  admits _ m := m.WellTyped ∧ m.HonestBlocks sign
  mono h := h
  own hv := ⟨cfg.block_wellTyped hv _ _, cfg.block_honest henv _ _ _⟩

/-- A block that is what its hash says. -/
structure Block.Sound (sign : Address P → Hash P → P.ed25519.Signature) (b : Block P) : Prop where
  hash : b.getHash = b.computeHash
  view_lt : b.header.view < u64Size
  timestamp_lt : b.header.timestamp < u64Size
  transactions : ∀ t ∈ b.transactions, t.WellTyped ∧ t.Honest sign

theorem Block.sound_of_honest (ht : b.WellTyped) (hh : b.Honest sign) : b.Sound sign :=
  ⟨hh.hash, ht.1, ht.2.1, fun t h => ⟨ht.2.2.2.2 t h, hh.transactions t h⟩⟩

theorem Block.Sound.finalized (h : b.Sound sign) : b.finalized.Sound sign :=
  ⟨h.hash, h.view_lt, h.timestamp_lt, h.transactions⟩

/-- **A hash fixes the block** among sound ones. -/
theorem Block.Sound.content_eq (hinj : Function.Injective P.hashing.blake3) {b' : Block P}
    (h : b.Sound sign) (h' : b'.Sound sign) (heq : b.getHash = b'.getHash) :
    b.header = b'.header ∧ b.transactions = b'.transactions := by
  have hpre := hinj (h.hash.symm.trans (heq.trans h'.hash))
  obtain ⟨hparent, htxs, htime, hview⟩ := preimage_inj hinj h.timestamp_lt h'.timestamp_lt
    h.view_lt h'.view_lt hpre
  refine ⟨?_, Transaction.eq_of_map_txHash hinj h.transactions h'.transactions htxs⟩
  rcases b with ⟨_, ⟨_, _, _⟩, _, _, _, _, _⟩
  rcases b' with ⟨_, ⟨_, _, _⟩, _, _, _, _, _⟩
  simp_all

/-- The block of a context is sound and of its view. -/
def ViewContext.SoundBlock (sign : Address P → Hash P → P.ed25519.Signature) (c : ViewContext P) :
    Prop :=
  ∀ b, c.block = some b → b.Sound sign ∧ b.view = c.viewNumber

theorem ViewContext.SoundBlock.flag (hc : c.SoundBlock sign) :
    c.markBlockFinalized.SoundBlock sign := by
  intro b hb
  obtain ⟨b₀, hb₀, rfl⟩ := map_eq_some_iff.mp hb
  exact ⟨(hc b₀ hb₀).1.finalized, (hc b₀ hb₀).2⟩

/-- Blocks enter a context from admitted messages only. -/
theorem ViewContext.CtxStep.soundBlock {c' : ViewContext P}
    (h : CtxStep (fun m => m.WellTyped ∧ m.HonestBlocks sign) peers c c') (hc : c.SoundBlock sign) :
    c'.SoundBlock sign := by
  cases h with
  | block h =>
    cases h with
    | store d ha h =>
      rintro b ⟨⟩
      exact ⟨Block.sound_of_honest ha.1 ha.2, h.view⟩
    | flag => exact hc.flag
    | _ => exact hc
  | certify => exact hc.flag
  | recover ha =>
    rintro b ⟨⟩
    exact ⟨Block.sound_of_honest ha.1.2 ha.2.2, ha.2.1⟩
  | _ => exact hc

theorem ViewContext.HashOnlyStep.soundBlock {adm : ConsensusMessage P → Prop} {c' : ViewContext P}
    (h : HashOnlyStep adm peers c c') (hc : c.SoundBlock sign) : c'.SoundBlock sign := by
  cases h with
  | adoptHash => exact hc

/-- Every held and every finalized block is sound. -/
structure ViewChain.SoundBlocks (sign : Address P → Hash P → P.ed25519.Signature)
    (s : ViewChain P) : Prop where
  held : ∀ v c, s.findViewContext v = some c → c.SoundBlock sign
  finalized : ∀ h b, s.persistenceWriter.store.finalizedBlocks.lookup h = some b →
    b.Sound sign ∧ b.getHash = h

/-- Replacing one context. -/
theorem ViewChain.SoundBlocks.setContext (hs : s.SoundBlocks sign) {v : Nat}
    (hc : c.SoundBlock sign) : (s.setContext v c).SoundBlocks sign := by
  refine ⟨?_, hs.finalized⟩
  intro w d hd
  rcases findViewContext_setContext_cases hd with ⟨rfl, rfl⟩ | ⟨-, hold⟩
  · exact hc
  · exact hs.held w d hold

theorem ViewChain.SoundBlocks.chainStep {s' : ViewChain P} (hs : s.SoundBlocks sign)
    (h : ChainStep (CtxStep (fun m => m.WellTyped ∧ m.HonestBlocks sign) peers) s s') :
    s'.SoundBlocks sign := by
  cases h with
  | context hc h => exact hs.setContext (h.soundBlock (hs.held _ _ hc))
  | @publish v _ d =>
    refine ⟨hs.held, ?_⟩
    intro h b hb
    refine hs.finalized h b ?_
    rwa [← addMNotarizedDiff_store s.persistenceWriter v d]
  | drop v =>
    refine ⟨hs.held, ?_⟩
    intro h b hb
    refine hs.finalized h b ?_
    rwa [← removeNullifiedView_store s.persistenceWriter v]

theorem ViewChain.SoundBlocks.steps {s' : ViewChain P} (hs : s.SoundBlocks sign)
    (h : Steps (CtxStep (fun m => m.WellTyped ∧ m.HonestBlocks sign) peers) s s') :
    s'.SoundBlocks sign := by
  induction h with
  | refl => exact hs
  | tail _ hstep ih => exact ih.chainStep hstep

theorem ViewChain.SoundBlocks.finalize (hs : s.SoundBlocks sign) (view : Nat) (peers : PeerSet P) :
    (finalizeWithLNotarization view peers s).2.SoundBlocks sign := by
  refine ⟨?_, ?_⟩
  · intro v c hc
    exact hs.held v c ((finalize_prunes view peers s).find v c hc)
  · intro h b hb
    rcases finalize_finalizes view peers s h b hb with hold | ⟨v, c, b₀, hc, hb₀, rfl, rfl⟩
    · exact hs.finalized h b hold
    · exact ⟨(hs.held v c hc b₀ hb₀).1.finalized, rfl⟩

namespace Replica

variable {cfg : Config P} {henv : cfg.env.HonestTransactions sign} {s : Replica P}

theorem Step.soundBlocks {s' : Replica P} (h : Step (honestAdmission cfg henv) s s')
    (hs : s.chain.SoundBlocks sign) : s'.chain.SoundBlocks sign := by
  cases h with
  | hashOnly hc h => exact hs.setContext (h.soundBlock (hs.held _ _ hc))
  | clean h =>
    cases h with
    | chain h => exact hs.chainStep h
    | enter =>
      refine ⟨?_, hs.finalized⟩
      intro v d hd
      rcases enter_cases hd with ⟨-, rfl⟩ | ⟨-, hold⟩
      · exact fun _ hb => nomatch hb
      · exact hs.held v d hold
    | finalize => exact hs.finalize _ _
    | castVote hc => exact hs.setContext fun b hb => hs.held _ _ hc b hb
    | nullify hc => exact hs.setContext fun b hb => hs.held _ _ hc b hb
    | propose _ hsteps => exact hs.steps (ViewChain.Steps.ofBlock hsteps)
    | recovery => exact ⟨hs.held, hs.finalized⟩
    | _ => exact hs

theorem start_soundBlocks : (start cfg).chain.SoundBlocks sign := by
  refine ⟨?_, ?_⟩
  · intro v c hc b hb
    obtain ⟨-, rfl⟩ := start_context hc
    cases hb
  intro h b hb
  rw [start_blocks.finalizedBlocks] at hb
  have hmem := AList.mem_lookup_iff.mp (mem_def.mpr hb)
  obtain ⟨rfl, hval⟩ := Sigma.mk.inj (List.mem_singleton.mp hmem)
  obtain rfl := eq_of_heq hval
  exact ⟨⟨rfl, Nat.two_pow_pos 64, Nat.two_pow_pos 64, fun _ ht => nomatch ht⟩, rfl⟩

/-! ## Runs -/

/-- The replica has `b` under the hash `h`, in a context or finalized. -/
def StoresUnder (s : Replica P) (h : Hash P) (b : Block P) : Prop :=
  (∃ v c, s.context v = some c ∧ c.blockHash = some h ∧ c.block = some b) ∨
    s.chain.persistenceWriter.store.finalizedBlocks.lookup h = some b

/-- In a run that receives only honest blocks, every stored block is sound. -/
theorem Run.soundBlocks (henv : cfg.env.HonestTransactions sign) {running : Bool}
    (h : Run cfg (fun _ m => m.WellTyped ∧ m.HonestBlocks sign) s running) :
    s.WF (honestAdmission cfg henv) ∧ s.chain.SoundBlocks sign := by
  obtain ⟨hsteps, -⟩ := Run.steps (A := honestAdmission cfg henv) (fun _ _ hm => hm) h
  exact ⟨Steps.wf hsteps start_wf, Steps.invariant (I := fun s => s.chain.SoundBlocks sign)
      (fun _ _ _ hstep hs => Step.soundBlocks hstep hs) hsteps start_wf start_soundBlocks⟩

theorem Run.sound_of_storesUnder (henv : cfg.env.HonestTransactions sign) {running : Bool}
    (h : Run cfg (fun _ m => m.WellTyped ∧ m.HonestBlocks sign) s running) {hash : Hash P}
    {b : Block P} (hb : s.StoresUnder hash b) : b.Sound sign ∧ b.getHash = hash := by
  obtain ⟨hwf, hsound⟩ := Run.soundBlocks henv h
  rcases hb with ⟨v, c, hc, hh, hb⟩ | hfin
  · have hhash := ((hwf.chain.context v c hc).block_hash b hb).symm.trans hh
    exact ⟨(hsound.held v c hc b hb).1, some.inj hhash⟩
  · exact hsound.finalized hash b hfin

/-- **A stored hash names its block** in every run that receives only honest
blocks, and two such runs that store a block under one hash store the same
content. -/
theorem stored_blocks_match_hashes (hinj : Function.Injective P.hashing.blake3)
    {cfg cfg' : Config P} (henv : cfg.env.HonestTransactions sign)
    (henv' : cfg'.env.HonestTransactions sign) {s s' : Replica P} {running running' : Bool}
    (h : Run cfg (fun _ m => m.WellTyped ∧ m.HonestBlocks sign) s running)
    (h' : Run cfg' (fun _ m => m.WellTyped ∧ m.HonestBlocks sign) s' running') :
    (∀ v c b, s.context v = some c → c.block = some b →
      c.blockHash = some b.computeHash ∧ b.view = v) ∧
    (∀ hash b, s.chain.persistenceWriter.store.finalizedBlocks.lookup hash = some b →
      hash = b.computeHash) ∧
    (∀ hash b b', s.StoresUnder hash b → s'.StoresUnder hash b' →
      b.parentBlockHash = b'.parentBlockHash ∧ b.transactions = b'.transactions ∧
        b.header.timestamp = b'.header.timestamp ∧ b.view = b'.view) := by
  obtain ⟨hwf, hsound⟩ := Run.soundBlocks henv h
  refine ⟨?_, ?_, ?_⟩
  · intro v c b hc hb
    obtain ⟨hb_sound, hview⟩ := hsound.held v c hc b hb
    rw [← hb_sound.hash]
    exact ⟨(hwf.chain.context v c hc).block_hash b hb, hview.trans (hwf.chain.viewNumber v c hc)⟩
  · intro hash b hb
    obtain ⟨hb_sound, hhash⟩ := hsound.finalized hash b hb
    exact hhash.symm.trans hb_sound.hash
  · intro hash b b' hb hb'
    obtain ⟨hs, hh⟩ := Run.sound_of_storesUnder henv h hb
    obtain ⟨hs', hh'⟩ := Run.sound_of_storesUnder henv' h' hb'
    obtain ⟨hheader, htxs⟩ := hs.content_eq hinj hs' (hh.trans hh'.symm)
    simp only [Block.parentBlockHash, Block.view, hheader, htxs, and_self]

/-- The first leader's block with timestamp 7 and its own hash. -/
def honestProposal : ConsensusMessage sampleParams :=
  .blockProposal (emptyBlock 1 (Block.genesisHash sampleParams) 7)

theorem honestProposal_honest {sign : Address sampleParams → Hash sampleParams →
    sampleParams.ed25519.Signature} : honestProposal.WellTyped ∧ honestProposal.HonestBlocks sign :=
  ⟨by decide +kernel, rfl, fun _ ht => nomatch ht⟩

/-- Two replicas that get one honest proposal store it, and agree. -/
theorem stored_blocks_match_hashes_sample :
    let s := (runAll (sampleConfig 0 (quietEnv _)) 10 [.message honestProposal]).1
    let s' := (runAll (sampleConfig 2 (quietEnv _)) 10 [.message honestProposal]).1
    ((s.context 1).bind (·.block)).map (·.header.timestamp) = some 7 ∧
    ((s'.context 1).bind (·.block)).map (·.header.timestamp) = some 7 ∧
    ∀ hash b b', s.StoresUnder hash b → s'.StoresUnder hash b' →
      b.parentBlockHash = b'.parentBlockHash ∧ b.transactions = b'.transactions ∧
        b.header.timestamp = b'.header.timestamp ∧ b.view = b'.view := by
  have hrun : ∀ i, Run (sampleConfig i (quietEnv _))
      (fun _ m => m.WellTyped ∧ m.HonestBlocks fun a h => (a, [UInt8.ofNat h]))
      (runAll (sampleConfig i (quietEnv _)) 10 [.message honestProposal]).1
      (runAll (sampleConfig i (quietEnv _)) 10 [.message honestProposal]).2 := by
    intro i
    refine run_runAll _ _ _ fun m hm => ?_
    obtain rfl := List.mem_singleton.mp hm
    exact honestProposal_honest
  have henv : (quietEnv sampleParams).HonestTransactions fun a h => (a, [UInt8.ofNat h]) :=
    fun _ _ ht => nomatch ht
  exact ⟨by decide +kernel, by decide +kernel,
    (stored_blocks_match_hashes sampleHashing_injective henv henv (hrun 0) (hrun 2)).2.2⟩

/-- A hash that is the hash of nothing the leader sends. -/
def forgedHash : Hash sampleParams := (12345 : Nat)

/-- The first leader's proposal under the made-up hash. -/
def forgedProposal (timestamp : Nat) : ConsensusMessage sampleParams :=
  .blockProposal (sampleBlock 1 (Block.genesisHash sampleParams) timestamp forgedHash)

/-- The first leader signs one made-up hash and sends it with two different
blocks: both replicas accept, and hold different blocks under it. -/
theorem forged_hash_splits :
    ∃ s s' : Replica sampleParams,
      Run (sampleConfig 0 (quietEnv _)) (fun _ m => m.WellTyped) s true ∧
      Run (sampleConfig 2 (quietEnv _)) (fun _ m => m.WellTyped) s' true ∧
      (s.context 1).bind (·.blockHash) = some forgedHash ∧
      (s'.context 1).bind (·.blockHash) = some forgedHash ∧
      ((s.context 1).bind (·.block)).map (·.header.timestamp) = some 7 ∧
      ((s'.context 1).bind (·.block)).map (·.header.timestamp) = some 8 ∧
      ((s.context 1).bind (·.block)).map Block.computeHash ≠ some forgedHash := by
  have hrun : ∀ (i : Fin 6) (t : Nat), (forgedProposal t).WellTyped →
      Run (sampleConfig i (quietEnv _)) (fun _ m => m.WellTyped)
        (runAll (sampleConfig i (quietEnv _)) 10 [.message (forgedProposal t)]).1
        (runAll (sampleConfig i (quietEnv _)) 10 [.message (forgedProposal t)]).2 := by
    intro i t ht
    refine run_runAll _ _ _ fun m hm => ?_
    obtain rfl := List.mem_singleton.mp hm
    exact ht
  exact ⟨_, _, hrun 0 7 (by decide +kernel), hrun 2 8 (by decide +kernel), by decide +kernel,
    by decide +kernel, by decide +kernel, by decide +kernel, by decide +kernel⟩

end Replica

end Minimmit
