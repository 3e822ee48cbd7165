/-
Minimmit.Rpc.HoleTheorems — which finalized heights the syncer passes over.

A fixed finalized chain, honest validators and a network that loses answers:
`SyncNet` is the syncer together with the heights whose answer is still on
its way. Progress is one height, requests cover only heights above it, and
any block that comes in may move it; so a height stays covered (stored or on
its way) only as long as the heights of the chain that are covered form an
initial segment. Requests and deliveries keep that (`Gapless`); what breaks
it is an answer lost below one that arrives, the discovery request for
height 1, and a target set on an empty store.
-/
import Minimmit.Rpc.ProofTheorems

namespace Minimmit

open Minimmit.Library List

variable {P : Params}

/-! ## The latest block of a store -/

namespace Store

theorem latest_fold_some (l : List (Sigma fun _ : Hash P => Block P)) (b : Block P) (v : Nat) :
    ∃ c, (l.foldl (fun (latest : Option (Block P) × Nat) e =>
      if latest.2 ≤ e.2.view then (some e.2, e.2.view) else latest) (some b, v)).1 = some c ∧
      (c = b ∨ ∃ e ∈ l, e.2 = c) := by
  induction l generalizing b v with
  | nil => exact ⟨b, rfl, .inl rfl⟩
  | cons e l ih =>
    simp only [foldl_cons]
    split
    · obtain ⟨c, hc, rfl | ⟨e', he', hec⟩⟩ := ih e.2 e.2.view
      · exact ⟨_, hc, .inr ⟨e, by simp, rfl⟩⟩
      · exact ⟨c, hc, .inr ⟨e', by simp [he'], hec⟩⟩
    · obtain ⟨c, hc, hcb | ⟨e', he', hec⟩⟩ := ih b v
      · exact ⟨c, hc, .inl hcb⟩
      · exact ⟨c, hc, .inr ⟨e', by simp [he'], hec⟩⟩

/-- The latest block is one of the stored ones, and there is one as soon as
anything is stored. -/
theorem getLatestFinalizedBlock_spec (s : Store P) : match s.getLatestFinalizedBlock with
    | some b => ∃ e ∈ s.finalizedBlocks.entries, e.2 = b
    | none => s.finalizedBlocks.entries = [] := by
  have hperm := P.hashOrder.perm 0 _ s.finalizedBlocks.entries
  unfold getLatestFinalizedBlock
  rcases hl : P.hashOrder.apply 0 _ s.finalizedBlocks.entries with _ | ⟨e, l⟩
  · rw [hl] at hperm
    exact hperm.symm.eq_nil
  -- views are at least 0, so the first entry is always taken
  rw [hl] at hperm
  obtain ⟨c, hc, hmem⟩ := latest_fold_some l e.2 e.2.view
  simp only [foldl_cons, Nat.zero_le, if_true, hc]
  rcases hmem with rfl | ⟨e', he', hec⟩
  · exact ⟨e, hperm.mem_iff.mp (by simp), rfl⟩
  · exact ⟨e', hperm.mem_iff.mp (by simp [he']), hec⟩

end Store

/-! ## The chain, the network and its moves -/

variable (P) in
/-- The finalized chain: the block of each height that has one. -/
structure FinalizedChain where
  block : Nat → Option (Block P)
  height_eq : ∀ k b, block k = some b → b.height = k

namespace FinalizedChain

/-- The chain has a block of this height. -/
def Has (chain : FinalizedChain P) (k : Nat) : Prop := ∃ b, chain.block k = some b

/-- The store of a validator that holds exactly this chain. -/
def HeldBy (chain : FinalizedChain P) (store : Store P) : Prop :=
  ∀ k, store.getFinalizedBlockByHeight k = chain.block k

/-- The chain a store holds. -/
def ofStore (store : Store P) : FinalizedChain P where
  block := store.getFinalizedBlockByHeight
  height_eq := by
    intro k b h
    obtain ⟨e, he, rfl⟩ := Option.map_eq_some_iff.mp h
    simpa using (HashOrder.mem_of_find? he).2

/-- The store has an entry for the chain's block of height `k`. -/
def StoredIn (chain : FinalizedChain P) (store : Store P) (k : Nat) : Prop :=
  ∃ b, chain.block k = some b ∧ (store.getFinalizedBlock b.getHash).isSome

end FinalizedChain

/-- The height a syncer has reached. -/
def SyncState.reached : SyncState → Option Nat
  | .discovering => none
  | .syncing current _ => some current
  | .following height => some height

variable (P) in
/-- A syncer and the heights whose answer is on its way to it. -/
structure SyncNet where
  syncer : BlockSyncer P
  inTransit : List Nat

namespace SyncNet

variable (P) in
/-- What can happen next. A delivered answer is that of a validator with the
given store. -/
inductive Move where
  | nextBlockRequests
  | nextBlockRequest
  | setTargetHeight (target : Nat)
  | deliver (height : Nat) (validator : Store P)
  | lose (heights : List Nat)

/-- The effect of a move. -/
def run (codec : Codec P) (n : SyncNet P) : Move P → SyncNet P
  | .nextBlockRequests =>
    { n with inTransit := n.inTransit ++ n.syncer.nextBlockRequests.map (·.view) }
  | .nextBlockRequest =>
    { n with inTransit := n.inTransit ++ n.syncer.nextBlockRequest.toList.map (·.view) }
  | .setTargetHeight target => { n with syncer := n.syncer.setTargetHeight target }
  | .deliver height validator =>
    { syncer := (BlockSyncer.handleBlockResponse codec
        (validator.answer codec { view := height, blockHash := none }) n.syncer).2
      inTransit := n.inTransit.erase height }
  | .lose heights => { n with inTransit := n.inTransit.diff heights }

variable (chain : FinalizedChain P)

/-- Only answers on their way are delivered, and validators hold the chain. -/
def Move.Possible (n : SyncNet P) : Move P → Prop
  | .deliver height validator => height ∈ n.inTransit ∧ chain.HeldBy validator
  | _ => True

/-- The network before anything happened: an empty store, nothing asked. -/
def start (peers : PeerSet P) (batchSize : Nat) : SyncNet P :=
  { syncer := BlockSyncer.new Store.empty peers batchSize, inTransit := [] }

/-- The networks reached by moves that met `ok`. -/
inductive Reached (codec : Codec P) (chain : FinalizedChain P)
    (ok : SyncNet P → Move P → Prop) (n₀ : SyncNet P) : SyncNet P → Prop where
  | start : Reached codec chain ok n₀ n₀
  | move {n : SyncNet P} (h : Reached codec chain ok n₀ n) (m : Move P)
      (hm : m.Possible chain n) (hok : ok n m) : Reached codec chain ok n₀ (n.run codec m)

/-- The height is stored or its answer is on its way. -/
def Covered (n : SyncNet P) (k : Nat) : Prop :=
  chain.StoredIn n.syncer.store k ∨ k ∈ n.inTransit

/-- A stored block, or an answer on its way that brings one, has height `k`. -/
def Standing (n : SyncNet P) (k : Nat) : Prop :=
  (∃ e ∈ n.syncer.store.finalizedBlocks.entries, e.2.height = k) ∨ k ∈ n.inTransit ∧ chain.Has k

/-- Nothing the chain has at height 0 is left out before height 1 is asked
for (`next_block_request` while discovering) or a target is set on an empty
store; and an answer with a block is lost only if its height stays covered,
or lies above the height reached and above every block that is stored or
still on its way. -/
def Careful (n : SyncNet P) : Move P → Prop
  | .nextBlockRequest =>
    n.syncer.state = .discovering → chain.Has 0 → 0 ∈ n.inTransit
  | .setTargetHeight _ =>
    n.syncer.store.finalizedBlocks.entries = [] → chain.Has 0 → 0 ∈ n.inTransit
  | .lose heights =>
    ∀ k ∈ n.inTransit, chain.Has k →
      Covered chain { n with inTransit := n.inTransit.diff heights } k ∨
      (∀ h, n.syncer.state.reached = some h → h < k) ∧
        ∀ j, Standing chain { n with inTransit := n.inTransit.diff heights } j → j < k
  | _ => True

/-! ## The covered heights form an initial segment -/

section Gapless

variable {codec : Codec P} {chain : FinalizedChain P} {n : SyncNet P}

/-- No height of the chain is left out below a block that is stored or on
its way, or below the height reached. -/
structure Gapless (chain : FinalizedChain P) (n : SyncNet P) : Prop where
  segment : ∀ k, Standing chain n k → ∀ j ≤ k, chain.Has j → Covered chain n j
  reached : ∀ h, n.syncer.state.reached = some h → ∀ j ≤ h, chain.Has j → Covered chain n j

theorem gapless_start (peers : PeerSet P) (batchSize : Nat) :
    Gapless chain (start peers batchSize) where
  segment := by
    rintro k (⟨e, he, -⟩ | ⟨hk, -⟩)
    · cases he
    · cases hk
  reached := by
    intro h hh
    cases hh

/-- Asking for more heights keeps the segment if what lies below them is
covered or asked for too. -/
theorem Gapless.ask (hn : Gapless chain n) {heights : List Nat}
    (hbelow : ∀ k ∈ heights, ∀ j ≤ k, chain.Has j → Covered chain n j ∨ j ∈ heights) :
    Gapless chain { n with inTransit := n.inTransit ++ heights } := by
  have hmore : ∀ j, Covered chain n j ∨ j ∈ heights →
      Covered chain { n with inTransit := n.inTransit ++ heights } j := by
    rintro j ((hj | hj) | hj)
    · exact .inl hj
    · exact .inr (mem_append_left _ hj)
    · exact .inr (mem_append_right _ hj)
  refine ⟨?_, ?_⟩
  · intro k hk j hjk hj
    apply hmore
    rcases hk with hst | ⟨htr, hhas⟩
    · exact .inl (hn.segment k (.inl hst) j hjk hj)
    · rcases mem_append.mp htr with htr | htr
      · exact .inl (hn.segment k (.inr ⟨htr, hhas⟩) j hjk hj)
      · exact hbelow k htr j hjk hj
  · intro h hh j hjh hj
    exact hmore j (.inl (hn.reached h hh j hjh hj))

/-- A batch from the height above the one reached. -/
theorem Gapless.askRange (hn : Gapless chain n) {h : Nat}
    (hh : n.syncer.state.reached = some h) (count : Nat) :
    Gapless chain { n with inTransit := n.inTransit ++ range' (h + 1) count } := by
  apply hn.ask
  intro k hk j hjk hj
  simp only [mem_range'_1] at hk ⊢
  by_cases hjh : j ≤ h
  · exact .inl (hn.reached h hh j hjh hj)
  · exact .inr (by omega)

theorem Gapless.nextBlockRequests (hn : Gapless chain n) :
    Gapless chain (n.run codec .nextBlockRequests) := by
  have hview : ∀ l : List Nat,
      (l.map ({ view := ·, blockHash := none : BlockRequest P })).map (·.view) = l := by
    intro l
    rw [map_map]
    exact map_id l
  simp only [run, BlockSyncer.nextBlockRequests]
  cases hst : n.syncer.state with
  | discovering =>
    apply hn.ask
    intro k hk j hjk hj
    simp only [map_cons, map_nil, mem_singleton] at hk ⊢
    exact .inr (by omega)
  | syncing current target =>
    dsimp only
    split
    · simpa using hn
    · rw [hview]
      exact hn.askRange (by rw [hst]; rfl) _
  | following height =>
    rw [hview]
    exact hn.askRange (by rw [hst]; rfl) _

theorem Gapless.nextBlockRequest (hn : Gapless chain n) (hok : Careful chain n .nextBlockRequest) :
    Gapless chain (n.run codec .nextBlockRequest) := by
  simp only [run, BlockSyncer.nextBlockRequest]
  cases hst : n.syncer.state with
  | discovering =>
    apply hn.ask
    intro k hk j hjk hj
    simp only [Option.toList_some, map_cons, map_nil, mem_singleton] at hk ⊢
    rcases Nat.eq_zero_or_pos j with rfl | hpos
    · exact .inl (.inr (hok hst hj))
    · exact .inr (by omega)
  | syncing current target =>
    dsimp only
    split
    · exact hn.askRange (by rw [hst]; rfl) 1
    · simpa using hn
  | following height => exact hn.askRange (by rw [hst]; rfl) 1

/-- A target starts from the height of a stored block, below which the
segment has no gap, or from height 0. -/
theorem Gapless.setTargetHeight (hn : Gapless chain n) {target : Nat}
    (hok : Careful chain n (.setTargetHeight target)) :
    Gapless chain (n.run codec (.setTargetHeight target)) := by
  have hlocal : ∀ j ≤ n.syncer.localHeight, chain.Has j → Covered chain n j := by
    intro j hj hhas
    have hlatest := n.syncer.store.getLatestFinalizedBlock_spec
    unfold BlockSyncer.localHeight at hj
    split at hj
    · next b hb =>
      rw [hb] at hlatest
      obtain ⟨e, he, rfl⟩ := hlatest
      exact hn.segment _ (.inl ⟨e, he, rfl⟩) j hj hhas
    · next hnone =>
      rw [hnone] at hlatest
      obtain rfl : j = 0 := by omega
      exact .inr (hok hlatest hhas)
  refine ⟨hn.segment, ?_⟩
  intro h hh j hjh hj
  simp only [run, BlockSyncer.setTargetHeight] at hh
  split at hh <;> obtain rfl := Option.some.inj hh <;> exact hlocal j hjh hj

/-! ## Deliveries and losses -/

theorem reached_afterBlock {state : SyncState} {k h : Nat}
    (hh : (state.afterBlock k).reached = some h) : h = k ∨ state.reached = some h := by
  cases state with
  | discovering => exact .inl (Option.some.inj hh).symm
  | syncing current target =>
    have hmax : some (max k current) = some h := by
      simp only [SyncState.afterBlock] at hh
      split at hh <;> exact hh
    have hcase : h = k ∨ h = current := by
      have := Option.some.inj hmax
      omega
    exact hcase.imp_right fun hc => congrArg some hc.symm
  | following height =>
    simp only [SyncState.afterBlock] at hh
    split at hh
    · exact .inl (Option.some.inj hh).symm
    · exact .inr hh

theorem answer_block (validator : Store P) (hheld : chain.HeldBy validator) (k : Nat) :
    (validator.answer codec { view := k, blockHash := none }).block = chain.block k := by
  unfold Store.answer
  rw [hheld k]
  cases chain.block k with
  | none => rfl
  | some b => exact codec.blockFromBytes_blockBytes b

theorem storedIn_insert {store store' : Store P} {b : Block P} {j : Nat}
    (hstore : store'.finalizedBlocks = store.finalizedBlocks.insert b.getHash b)
    (hj : chain.StoredIn store j ∨ chain.block j = some b) : chain.StoredIn store' j := by
  have hlook : ∀ hash, (store.getFinalizedBlock hash).isSome ∨ hash = b.getHash →
      (store'.getFinalizedBlock hash).isSome := by
    intro hash h
    rw [Store.getFinalizedBlock, hstore]
    by_cases heq : hash = b.getHash
    · rw [heq, AList.lookup_insert]
      rfl
    · rw [AList.lookup_insert_ne heq]
      exact h.resolve_right heq
  rcases hj with ⟨c, hc, hst⟩ | hb
  · exact ⟨c, hc, hlook _ (.inl hst)⟩
  · exact ⟨b, hb, hlook _ (.inr rfl)⟩

/-- A delivered answer: a block moves from the way into the store, and
anything else the chain has stays where it was. -/
theorem Gapless.deliver (hn : Gapless chain n) {k : Nat} {validator : Store P}
    (hm : Move.Possible chain n (.deliver k validator)) :
    Gapless chain (n.run codec (.deliver k validator)) := by
  obtain ⟨htransit, hheld⟩ := hm
  have hblock : (validator.answer codec { view := k, blockHash := none }).block = chain.block k :=
    answer_block validator hheld k
  simp only [run]
  cases hk : chain.block k with
  | none =>
    rw [hk] at hblock
    rw [BlockSyncer.handleBlockResponse_of_none hblock]
    -- a height without a block is nobody's concern
    have hkeep : ∀ j, chain.Has j → Covered chain n j →
        Covered chain { n with inTransit := n.inTransit.erase k } j := by
      rintro j ⟨b, hb⟩
      have hne : j ≠ k := by
        rintro rfl
        rw [hk] at hb
        cases hb
      exact Or.imp_right (mem_erase_of_ne hne).mpr
    refine ⟨?_, ?_⟩
    · intro i hi j hji hj
      refine hkeep j hj (hn.segment i ?_ j hji hj)
      exact hi.imp_right fun h => ⟨mem_of_mem_erase h.1, h.2⟩
    · intro h hh j hjh hj
      exact hkeep j hj (hn.reached h hh j hjh hj)
  | some b =>
    rw [hk] at hblock
    obtain ⟨store, heq, hstore, -⟩ := BlockSyncer.handleBlockResponse_of_block hblock n.syncer
    have hheight := chain.height_eq k b hk
    rw [heq]
    have hkeep : ∀ j, Covered chain n j → Covered chain
        { syncer := { n.syncer with store, state := n.syncer.state.afterBlock b.height },
          inTransit := n.inTransit.erase k } j := by
      rintro j (hst | htr)
      · exact .inl (storedIn_insert hstore (.inl hst))
      · by_cases hjk : j = k
        · exact .inl (storedIn_insert hstore (.inr (hjk ▸ hk)))
        · exact .inr ((mem_erase_of_ne hjk).mpr htr)
    -- the block was on its way, so what lies below it was covered before
    have hbelow : ∀ j ≤ k, chain.Has j → Covered chain n j :=
      hn.segment k (.inr ⟨htransit, b, hk⟩)
    refine ⟨?_, ?_⟩
    · rintro i (⟨e, he, hi⟩ | ⟨htr, hhas⟩) j hji hj
      · rw [hstore, AList.entries_insert] at he
        rcases mem_cons.mp he with rfl | he
        · have hik : i = k := hi.symm.trans hheight
          exact hkeep j (hbelow j (by omega) hj)
        · have hmem := (kerase_sublist b.getHash _).subset he
          exact hkeep j (hn.segment i (.inl ⟨e, hmem, hi⟩) j hji hj)
      · exact hkeep j (hn.segment i (.inr ⟨mem_of_mem_erase htr, hhas⟩) j hji hj)
    · intro h hh j hjh hj
      rcases reached_afterBlock hh with rfl | hh
      · exact hkeep j (hbelow j (by omega) hj)
      · exact hkeep j (hn.reached h hh j hjh hj)

theorem Gapless.lose (hn : Gapless chain n) {heights : List Nat}
    (hok : Careful chain n (.lose heights)) : Gapless chain (n.run codec (.lose heights)) := by
  -- a height that is no longer covered lies above everything that is left
  have hkeep : ∀ j, chain.Has j → Covered chain n j →
      Covered chain (n.run codec (.lose heights)) j ∨
        (∀ h, n.syncer.state.reached = some h → h < j) ∧
          ∀ i, Standing chain (n.run codec (.lose heights)) i → i < j := by
    rintro j hj (hst | htr)
    · exact .inl (.inl hst)
    · exact hok j htr hj
  refine ⟨?_, ?_⟩
  · intro i hi j hji hj
    have hcov : Covered chain n j := by
      refine hn.segment i ?_ j hji hj
      exact hi.imp_right fun h => ⟨diff_subset _ _ h.1, h.2⟩
    refine (hkeep j hj hcov).resolve_right ?_
    rintro ⟨-, habove⟩
    exact absurd (habove i hi) (by omega)
  · intro h hh j hjh hj
    refine (hkeep j hj (hn.reached h hh j hjh hj)).resolve_right ?_
    rintro ⟨habove, -⟩
    exact absurd (habove h hh) (by omega)

theorem Gapless.move (hn : Gapless chain n) {m : Move P} (hm : m.Possible chain n)
    (hok : Careful chain n m) : Gapless chain (n.run codec m) := by
  cases m with
  | nextBlockRequests => exact hn.nextBlockRequests
  | nextBlockRequest => exact hn.nextBlockRequest hok
  | setTargetHeight target => exact hn.setTargetHeight hok
  | deliver k validator => exact hn.deliver hm
  | lose heights => exact hn.lose hok

end Gapless

/-! ## Two runs -/

/-- A validator with the blocks of heights 0, 1 and 2. -/
def sampleValidator : Store sampleParams :=
  ((Store.empty.putFinalizedBlock (Block.genesis 0 (signHash 0 (Block.genesisHash sampleParams)))
    ).putFinalizedBlock firstBlock).putFinalizedBlock secondBlock

/-- Height 0 first, then a batch of which height 2 arrives before height 1. -/
def outOfOrder : List (Move sampleParams) :=
  [.nextBlockRequests, .deliver 0 sampleValidator, .nextBlockRequests, .deliver 2 sampleValidator]

/-- The network after the given moves. -/
def after (moves : List (Move sampleParams)) : SyncNet sampleParams :=
  moves.foldl (run BlockSyncer.sampleCodec) (start samplePeers 10)

theorem heldBy_ofStore (store : Store P) : (FinalizedChain.ofStore store).HeldBy store :=
  fun _ => rfl

theorem ofStore_block_one :
    (FinalizedChain.ofStore sampleValidator).block 1 = some firstBlock := rfl

end SyncNet

end Minimmit
