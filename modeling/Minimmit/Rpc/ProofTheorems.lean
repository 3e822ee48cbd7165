/-
Minimmit.Rpc.ProofTheorems — which finalized blocks of an RPC node are
proven.

A block is proven by an accepted L-notarization that names `N - F` different
validators, for the block itself or for one that descends from it. The
syncer stores a block before it looks at the certificate and stores it all
the same when there is none, so what is stored is what the responses bring:
`stored_blocks_proven` is about the sequences of responses each of which
brings its proof or the parent of a block that was proven before, and
`unproven_block_stored` is the response that brings nothing.
-/
import Minimmit.Consensus.Sample
import Minimmit.Rpc.Sync

namespace Minimmit

open Minimmit.Library

variable {P : Params}

/-- The genesis block, whoever is named as its leader. -/
def Block.IsGenesis (b : Block P) : Prop := ∃ leader sig, b = Block.genesis leader sig

/-- The hash the block goes by is the hash of its content. -/
def Block.Recomputes (b : Block P) : Prop := b.getHash = b.computeHash

/-- The certificate is for `h`, is accepted and names `N - F` different
validators. -/
structure LNotarization.Certifies (l : LNotarization P) (peers : PeerSet P) (h : Hash P) :
    Prop where
  blockHash : l.blockHash = h
  verifies : l.verify peers = true
  signers : P.N - P.F ≤ (l.peerIds.filter peers.contains).toFinset.card

/-- The second hash is that of a block that descends from the first hash
through the parent hashes of the given blocks. -/
inductive Descends (blocks : Block P → Prop) (h : Hash P) : Hash P → Prop where
  | self : Descends blocks h h
  | child (b : Block P) (hb : blocks b) (hr : b.Recomputes)
      (hparent : Descends blocks h b.parentBlockHash) : Descends blocks h b.getHash

theorem Descends.mono {blocks more : Block P → Prop} (hsub : ∀ b, blocks b → more b)
    {h h' : Hash P} (hd : Descends blocks h h') : Descends more h h' := by
  induction hd with
  | self => exact .self
  | child b hb hr _ ih => exact .child b (hsub b hb) hr ih

/-- A parent has the descendants of its child. -/
theorem Descends.of_child {blocks : Block P → Prop} {b : Block P} (hb : blocks b)
    (hr : b.Recomputes) {h' : Hash P} (hd : Descends blocks b.getHash h') :
    Descends blocks b.parentBlockHash h' := by
  induction hd with
  | self => exact .child b hb hr .self
  | child c hc hrc _ ih => exact .child c hc hrc ih

namespace BlockResponse

variable {codec : Codec P}

/-- The block a response brings. -/
def block : BlockResponse codec → Option (Block P)
  | .found blockBytes _ => codec.blockFromBytes blockBytes
  | _ => none

/-- The L-notarization a response brings. -/
def lNotarization : BlockResponse codec → Option (LNotarization P)
  | .found _ lNotarizationBytes => lNotarizationBytes.bind codec.lNotarizationFromBytes
  | _ => none

end BlockResponse

namespace BlockSyncer

section Proofs

variable {codec : Codec P}

/-- The block of one of the responses. -/
def Brought (responses : List (BlockResponse codec)) (b : Block P) : Prop :=
  ∃ r ∈ responses, r.block = some b

/-- The block goes by the hash of its content, and one of the responses
brought a certificate for it or for a descendant. -/
def Proven (peers : PeerSet P) (responses : List (BlockResponse codec)) (b : Block P) : Prop :=
  b.Recomputes ∧ ∃ r ∈ responses, ∃ l h, r.lNotarization = some l ∧ l.Certifies peers h ∧
    Descends (Brought responses) b.getHash h

variable {b : Block P}

theorem Proven.mono {peers : PeerSet P} {responses : List (BlockResponse codec)}
    (h : Proven peers responses b) (r : BlockResponse codec) :
    Proven peers (responses ++ [r]) b := by
  obtain ⟨hr, q, hq, l, h', hl, hcert, hdesc⟩ := h
  refine ⟨hr, q, by simp [hq], l, h', hl, hcert, hdesc.mono ?_⟩
  rintro c ⟨q', hq', hc⟩
  exact ⟨q', by simp [hq'], hc⟩

/-- The response brings no block, or the genesis block, or a block under the
hash of its content with a certificate for it, or such a block that is the
parent of one stored before. -/
def BringsProof (r : BlockResponse codec) (s : BlockSyncer P) : Prop :=
  ∀ b, r.block = some b → b.IsGenesis ∨ b.Recomputes ∧
    ((∃ l, r.lNotarization = some l ∧ l.Certifies s.peerSet b.getHash) ∨
      ∃ c ∈ s.store.finalizedWrites, ¬ c.IsGenesis ∧ c.parentBlockHash = b.getHash)

variable (codec) in
/-- A syncer that started with `s₀` has handled these responses, each of
which met `ok` when it arrived. -/
inductive Handled (ok : BlockResponse codec → BlockSyncer P → Prop) (s₀ : BlockSyncer P) :
    List (BlockResponse codec) → BlockSyncer P → Prop where
  | start : Handled ok s₀ [] s₀
  | response {rs : List (BlockResponse codec)} {s : BlockSyncer P} (h : Handled ok s₀ rs s)
      (r : BlockResponse codec) (hok : ok r s) :
      Handled ok s₀ (rs ++ [r]) (handleBlockResponse codec r s).2

/-! ## What a response writes -/

variable {r : BlockResponse codec}

theorem handleBlockResponse_of_none (hr : r.block = none)
    (s : BlockSyncer P) : (handleBlockResponse codec r s).2 = s := by
  cases r with
  | notFound view => rfl
  | hashMismatch view hash => rfl
  | found blockBytes lBytes =>
    simp only [BlockResponse.block] at hr
    simp [handleBlockResponse, hr]

/-- A block that decodes is written, whatever the certificate says. -/
theorem handleBlockResponse_of_block (hr : r.block = some b) (s : BlockSyncer P) :
    ∃ store : Store P, (handleBlockResponse codec r s).2 =
        { s with store, state := s.state.afterBlock b.height } ∧
      store.finalizedBlocks = s.store.finalizedBlocks.insert b.getHash b ∧
      store.finalizedWrites = s.store.finalizedWrites ++ [b] := by
  cases r with
  | notFound view => cases hr
  | hashMismatch view hash => cases hr
  | found blockBytes lBytes =>
    simp only [BlockResponse.block] at hr
    simp only [handleBlockResponse, hr]
    cases lBytes.bind codec.lNotarizationFromBytes with
    | none => exact ⟨_, rfl, rfl, rfl⟩
    | some l =>
      refine ⟨_, rfl, ?_⟩
      simp only [keepLNotarization]
      split_ifs <;> exact ⟨rfl, rfl⟩

theorem handleBlockResponse_writes (r : BlockResponse codec) (s : BlockSyncer P) :
    (handleBlockResponse codec r s).2.peerSet = s.peerSet ∧
    (handleBlockResponse codec r s).2.store.finalizedWrites =
      s.store.finalizedWrites ++ r.block.toList := by
  cases hr : r.block with
  | none => simp [handleBlockResponse_of_none hr]
  | some b =>
    obtain ⟨store, heq, -, hwrites⟩ := handleBlockResponse_of_block hr s
    simp [heq, hwrites]

/-! ## What is proven -/

/-- What one response adds is proven if the response brings the proof. -/
theorem BringsProof.proven {peers : PeerSet P} {rs : List (BlockResponse codec)}
    {s : BlockSyncer P} (hok : BringsProof r s)
    (hpeers : s.peerSet = peers) (hb : r.block = some b) (hgen : ¬ b.IsGenesis)
    (hbrought : ∀ c ∈ s.store.finalizedWrites, Brought rs c)
    (hproven : ∀ c ∈ s.store.finalizedWrites, ¬ c.IsGenesis → Proven peers rs c) :
    Proven peers (rs ++ [r]) b := by
  obtain ⟨hrec, ⟨l, hl, hcert⟩ | ⟨c, hc, hcgen, hparent⟩⟩ := (hok b hb).resolve_left hgen
  · exact ⟨hrec, r, by simp, l, b.getHash, hl, hpeers ▸ hcert, .self⟩
  · -- the proof of the child is a proof of its parent
    obtain ⟨hcrec, q, hq, l, h', hl, hcert, hdesc⟩ := (hproven c hc hcgen).mono r
    obtain ⟨q', hq', hqc⟩ := hbrought c hc
    exact ⟨hrec, q, hq, l, h', hl, hcert,
      hparent ▸ hdesc.of_child ⟨q', by simp [hq'], hqc⟩ hcrec⟩

/-- **Responses that bring their proof leave only proven blocks.** In every
sequence of responses of which each brings no block, the genesis block, a
block under its own hash with a certificate of `N - F` different validators,
or the parent of a block stored before, every block the syncer wrote to
FINALIZED_BLOCKS except genesis is proven by the responses so far. -/
theorem stored_blocks_proven {store : Store P} {peers : PeerSet P} {batchSize : Nat}
    {rs : List (BlockResponse codec)} {s : BlockSyncer P}
    (h : Handled codec BringsProof (new store peers batchSize) rs s) :
    ∀ b ∈ s.store.finalizedWrites, ¬ b.IsGenesis → Proven peers rs b := by
  suffices hinv : s.peerSet = peers ∧ (∀ b ∈ s.store.finalizedWrites, Brought rs b) ∧
      ∀ b ∈ s.store.finalizedWrites, ¬ b.IsGenesis → Proven peers rs b from hinv.2.2
  induction h with
  | start => exact ⟨rfl, by simp [new], by simp [new]⟩
  | @response rs s _ r hok ih =>
    obtain ⟨hpeers, hbrought, hproven⟩ := ih
    obtain ⟨hpeers', hwrites⟩ := handleBlockResponse_writes r s
    rw [hpeers', hwrites]
    refine ⟨hpeers, ?_, ?_⟩
    · intro b hb
      rcases List.mem_append.mp hb with hb | hb
      · obtain ⟨q, hq, hqb⟩ := hbrought b hb
        exact ⟨q, by simp [hq], hqb⟩
      · exact ⟨r, by simp, by simpa using hb⟩
    · intro b hb hgen
      rcases List.mem_append.mp hb with hb | hb
      · exact (hproven b hb hgen).mono r
      · exact hok.proven hpeers (by simpa using hb) hgen hbrought hproven

end Proofs

/-! ## Two runs -/

/-- Serialized values that are the values themselves. -/
def sampleCodec : Codec sampleParams where
  Bytes := Block sampleParams ⊕ LNotarization sampleParams
  blockBytes := .inl
  blockFromBytes := Sum.getLeft?
  blockFromBytes_blockBytes := fun _ => rfl
  lNotarizationBytes := .inr
  lNotarizationFromBytes := Sum.getRight?

/-- The L-notarization of replicas 0 to 4 for a block. -/
def sampleLNotarization (block : Block sampleParams) : LNotarization sampleParams :=
  { view := block.view, blockHash := block.getHash, peerIds := [0, 1, 2, 3, 4],
    aggregatedSignature := Crypto.aggregateSignatures sampleParams.curve
      ([0, 1, 2, 3, 4].map (signHash · block.getHash)),
    height := block.height }

/-- The block with its certificate. -/
def withProof (block : Block sampleParams) : BlockResponse sampleCodec :=
  .found (.inl block) (some (.inr (sampleLNotarization block)))

/-- The block alone. -/
def withoutProof (block : Block sampleParams) : BlockResponse sampleCodec :=
  .found (.inl block) none

theorem not_isGenesis_of_view {b : Block P} (h : b.header.view ≠ 0) : ¬ b.IsGenesis := by
  rintro ⟨leader, sig, rfl⟩
  exact h rfl

theorem secondBlock_certified :
    (sampleLNotarization secondBlock).Certifies samplePeers secondBlock.getHash :=
  ⟨rfl, by decide +kernel, by decide +kernel⟩

/-- The second block comes with its certificate and the first one after it,
alone: both are proven. -/
theorem stored_blocks_proven_parent :
    Proven samplePeers [withProof secondBlock, withoutProof firstBlock] secondBlock ∧
    Proven samplePeers [withProof secondBlock, withoutProof firstBlock] firstBlock := by
  have hfirst : BringsProof (withProof secondBlock) (new Store.empty samplePeers 10) := by
    intro b hb
    obtain rfl : secondBlock = b := Option.some.inj hb
    exact .inr ⟨rfl, .inl ⟨_, rfl, secondBlock_certified⟩⟩
  have hsecond : BringsProof (withoutProof firstBlock) (handleBlockResponse sampleCodec
      (withProof secondBlock) (new Store.empty samplePeers 10)).2 := by
    intro b hb
    obtain rfl : firstBlock = b := Option.some.inj hb
    refine .inr ⟨rfl, .inr ⟨secondBlock, ?_, not_isGenesis_of_view (by decide), rfl⟩⟩
    rw [(handleBlockResponse_writes _ _).2]
    simp [withProof, BlockResponse.block, sampleCodec]
  have hproven := stored_blocks_proven ((Handled.start.response _ hfirst).response _ hsecond)
  simp only [handleBlockResponse_writes] at hproven
  exact ⟨hproven secondBlock (by simp [withProof, BlockResponse.block, sampleCodec])
      (not_isGenesis_of_view (by decide)),
    hproven firstBlock (by simp [withoutProof, BlockResponse.block, sampleCodec])
      (not_isGenesis_of_view (by decide))⟩

/-- **An unproven block is stored.** One response with a block and no
certificate puts the block into FINALIZED_BLOCKS. -/
theorem unproven_block_stored :
    firstBlock ∈ (handleBlockResponse sampleCodec (withoutProof firstBlock)
        (new Store.empty samplePeers 10)).2.store.finalizedWrites ∧
      ((handleBlockResponse sampleCodec (withoutProof firstBlock)
        (new Store.empty samplePeers 10)).2.store.getFinalizedBlock firstBlock.getHash).isSome ∧
      ¬ firstBlock.IsGenesis ∧ ¬ Proven samplePeers [withoutProof firstBlock] firstBlock := by
  refine ⟨List.mem_singleton.mpr rfl, by decide +kernel, not_isGenesis_of_view (by decide), ?_⟩
  rintro ⟨-, r, hr, l, h, hl, -⟩
  obtain rfl := List.mem_singleton.mp hr
  cases hl

end BlockSyncer

end Minimmit
