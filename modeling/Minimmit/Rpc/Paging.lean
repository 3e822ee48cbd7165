/-
Minimmit.Rpc.Paging — the block queries of the gRPC services
(grpc-client/src/services) over the scans of storage/store.rs.

A query reads the whole table of finalized blocks, sorts, and returns one
page; what comes after the page is asked for with a cursor. `stream_blocks`
is such a loop inside the server: a batch ends with a block, and the next
batch starts one height above it. The heights of the table being distinct,
what is left after a batch is exactly the next range, so the loop sends the
range as one sorted list.
-/
import Mathlib.Data.List.Sort
import Minimmit.Library.Outcome
import Minimmit.State.Sample
import Minimmit.Storage.Store

namespace Minimmit

open Minimmit.Library Act List

variable {P : Params} {store : Store P} {cursor fromHeight toHeight fuel : Nat}

namespace Store

/-- The rows of FINALIZED_BLOCKS in the order of the table. -/
def finalizedRows (s : Store P) : List (Block P) :=
  (P.hashOrder.apply 0 _ s.finalizedBlocks.entries).map (·.2)

/-- The rows of a range of heights, by height (`sort_by_key` is stable). -/
def sortedRange (s : Store P) (fromHeight toHeight : Nat) : List (Block P) :=
  (s.finalizedRows.filter fun b => fromHeight ≤ b.height && b.height ≤ toHeight).insertionSort
    (·.height ≤ ·.height)

/-- `get_finalized_blocks_in_range`: the first `limit` of them, and whether
there are more. -/
def getFinalizedBlocksInRange (s : Store P) (fromHeight toHeight limit : Nat) :
    List (Block P) × Bool :=
  let blocks := s.sortedRange fromHeight toHeight
  (blocks.take limit, limit < blocks.length)

end Store

/-- `BATCH_SIZE` -/
def batchSize : Nat := 100

/-- The cursor after a batch, one above its last block; a height above
`u64::MAX` is a panic. -/
def nextCursor (blocks : List (Block P)) : Act (List (Block P)) Empty Nat :=
  match blocks.getLast? with
  | some last => if last.height + 1 < u64Size then pure (last.height + 1) else Act.panic
  | none => pure (u64Size - 1)

/-- The loop of `stream_blocks`. The state is what was sent to the client,
who stays connected. -/
def streamBatches (store : Store P) (toHeight : Nat) : Nat → Nat → Act (List (Block P)) Empty Unit
  | 0, _ => Act.exhausted
  | fuel + 1, cursor => do
    let batch := store.getFinalizedBlocksInRange cursor toHeight batchSize
    if batch.1.isEmpty then return
    Act.modify (· ++ batch.1)
    if !batch.2 then return
    let cursor ← nextCursor batch.1
    if toHeight < cursor then return
    streamBatches store toHeight fuel cursor

/-- `stream_blocks`; a `to_height` of 0 means no bound. -/
def streamBlocks (fuel : Nat) (store : Store P) (fromHeight toHeight : Nat) :
    Act (List (Block P)) Empty Unit :=
  streamBatches store (if toHeight = 0 then u64Size - 1 else toHeight) fuel fromHeight

/-! ## Ranges -/

namespace Store

/-- No two rows of FINALIZED_BLOCKS have the same height. -/
def DistinctHeights (s : Store P) : Prop :=
  ∀ h₁ h₂ b₁ b₂, s.getFinalizedBlock h₁ = some b₁ → s.getFinalizedBlock h₂ = some b₂ →
    b₁.height = b₂.height → h₁ = h₂

theorem mem_finalizedRows {b : Block P} :
    b ∈ store.finalizedRows ↔ ∃ h, store.getFinalizedBlock h = some b := by
  unfold finalizedRows getFinalizedBlock
  simp only [mem_map, (P.hashOrder.perm _ _ _).mem_iff]
  constructor
  · rintro ⟨⟨h, b⟩, he, rfl⟩
    exact ⟨h, AList.mem_lookup_iff.mpr he⟩
  · rintro ⟨h, hb⟩
    exact ⟨⟨h, b⟩, AList.mem_lookup_iff.mp hb, rfl⟩

theorem DistinctHeights.nodup (h : store.DistinctHeights) :
    (store.finalizedRows.map (·.height)).Nodup := by
  have hperm := (P.hashOrder.perm 0 _ store.finalizedBlocks.entries).map (·.2.height)
  have hkeys := store.finalizedBlocks.nodupKeys
  rw [finalizedRows, map_map]
  refine hperm.nodup_iff.mpr (hkeys.nodup.map_on fun e he e' he' heq => ?_)
  exact hkeys.eq_of_fst_eq he he'
    (h _ _ _ _ (AList.mem_lookup_iff.mpr he) (AList.mem_lookup_iff.mpr he') heq)

theorem mem_sortedRange {b : Block P} : b ∈ store.sortedRange fromHeight toHeight ↔
    b ∈ store.finalizedRows ∧ fromHeight ≤ b.height ∧ b.height ≤ toHeight := by
  simp [sortedRange]

/-- Distinct heights are sorted strictly. -/
theorem sortedRange_pairwise (h : store.DistinctHeights) :
    (store.sortedRange fromHeight toHeight).Pairwise (·.height < ·.height) := by
  have : Std.Total fun a b : Block P => a.height ≤ b.height := ⟨fun _ _ => Nat.le_total _ _⟩
  have : IsTrans (Block P) fun a b => a.height ≤ b.height := ⟨fun _ _ _ => Nat.le_trans⟩
  have hle : (store.sortedRange fromHeight toHeight).Pairwise (·.height ≤ ·.height) :=
    pairwise_insertionSort ..
  have hne : ((store.sortedRange fromHeight toHeight).map (·.height)).Nodup :=
    ((perm_insertionSort ..).map _).nodup_iff.mpr (h.nodup.sublist (filter_sublist.map _))
  exact (hle.and (pairwise_map.mp hne)).imp fun hab => Nat.lt_of_le_of_ne hab.1 hab.2

/-- **What is left after a batch is the range above its last block.** -/
theorem sortedRange_above (h : store.DistinctHeights) {sent rest : List (Block P)} {last : Block P}
    (hsplit : store.sortedRange fromHeight toHeight = sent ++ last :: rest) :
    store.sortedRange (last.height + 1) toHeight = rest := by
  have hsorted : (store.sortedRange fromHeight toHeight).Pairwise (·.height < ·.height) :=
    sortedRange_pairwise h
  have hmem : ∀ b, b ∈ store.sortedRange fromHeight toHeight ↔ _ := fun _ => mem_sortedRange
  rw [hsplit, pairwise_append, pairwise_cons] at hsorted
  rw [hsplit] at hmem
  obtain ⟨-, ⟨hrest, hsorted⟩, hsent⟩ := hsorted
  have : Std.Irrefl fun a b : Block P => a.height < b.height := ⟨fun _ => Nat.lt_irrefl _⟩
  have : Std.Antisymm fun a b : Block P => a.height < b.height :=
    ⟨fun _ _ h h' => absurd h' (Nat.lt_asymm h)⟩
  refine (sortedRange_pairwise h).eq_of_mem_iff hsorted fun b => ?_
  rw [mem_sortedRange]
  constructor
  · rintro ⟨hb, hfrom, hto⟩
    have hlast := (hmem last).mp (by simp)
    have hin := (hmem b).mpr ⟨hb, by omega, hto⟩
    rcases mem_append.mp hin with hin | hin
    · have := hsent b hin last mem_cons_self
      omega
    · rcases mem_cons.mp hin with rfl | hin
      · omega
      · exact hin
  · intro hb
    have hin := (hmem b).mp (by simp [hb])
    exact ⟨hin.1, hrest b hb, hin.2.2⟩

end Store

/-! ## The stream -/

/-- A batch that is not the last one, and the block after it. -/
theorem exists_batch {α : Type} (l : List α) (h : batchSize < l.length) :
    ∃ front last next rest, l = front ++ last :: next :: rest ∧ front.length + 1 = batchSize := by
  have hlast : batchSize - 1 < l.length := by omega
  refine ⟨l.take (batchSize - 1), l[batchSize - 1], l[batchSize], l.drop (batchSize + 1), ?_, ?_⟩
  · rw [← drop_eq_getElem_cons h]
    have hdrop := drop_eq_getElem_cons hlast
    exact hdrop ▸ (take_append_drop (batchSize - 1) l).symm
  · rw [length_take_of_le hlast.le]
    rfl

theorem streamBatches_sends (h : store.DistinctHeights)
    (hu64 : ∀ b ∈ store.finalizedRows, b.height < u64Size) (sent : List (Block P))
    (hfuel : (store.sortedRange cursor toHeight).length < fuel) :
    streamBatches store toHeight fuel cursor sent =
      (.ok (), sent ++ store.sortedRange cursor toHeight) := by
  induction fuel generalizing cursor sent with
  | zero => omega
  | succ fuel ih =>
    unfold streamBatches Store.getFinalizedBlocksInRange
    by_cases hmore : batchSize < (store.sortedRange cursor toHeight).length
    · obtain ⟨front, last, next, rest, hsplit, hfront⟩ :=
        exists_batch (store.sortedRange cursor toHeight) hmore
      have hbatch : (store.sortedRange cursor toHeight).take batchSize = front ++ [last] := by
        rw [hsplit, ← hfront]
        simp [take_append]
      have habove := Store.sortedRange_above h hsplit
      have hnext := Store.mem_sortedRange.mp (habove ▸ mem_cons_self)
      have := hu64 next hnext.1
      have hlast : last.height + 1 < u64Size := by omega
      have hcursor : ¬ toHeight < last.height + 1 := by omega
      have hfewer : (store.sortedRange (last.height + 1) toHeight).length < fuel := by
        rw [habove]
        rw [hsplit] at hfuel
        simp at hfuel ⊢
        omega
      have hrest := ih (sent ++ (front ++ [last])) hfewer
      have hstep : nextCursor (front ++ [last]) (sent ++ (front ++ [last])) =
          (.ok (last.height + 1), sent ++ (front ++ [last])) := by
        simp [nextCursor, hlast]
      have hsome : (front ++ [last]).isEmpty = false := by simp
      simp only [hbatch, decide_eq_true hmore, hsome, Bool.false_eq_true, if_false, Bool.not_true,
        bind_run, modify_run, hstep, hcursor, hrest]
      rw [habove, hsplit]
      simp
    · have hall : (store.sortedRange cursor toHeight).take batchSize =
          store.sortedRange cursor toHeight := take_of_length_le (Nat.le_of_not_lt hmore)
      simp only [hall, decide_eq_false hmore, Bool.not_false, if_true]
      cases store.sortedRange cursor toHeight with
      | nil => simp
      | cons => rfl

/-- **`stream_blocks` is complete**: it ends, and sends the finalized blocks of
the range, each once, by height. -/
theorem stream_complete (h : store.DistinctHeights)
    (hu64 : ∀ hash b, store.getFinalizedBlock hash = some b → b.height < u64Size)
    (hfuel : store.finalizedBlocks.entries.length < fuel) (fromHeight toHeight : Nat) :
    ∃ sent, streamBlocks fuel store fromHeight toHeight [] = (.ok (), sent) ∧
      sent.Pairwise (·.height < ·.height) ∧
      ∀ b, b ∈ sent ↔ (∃ hash, store.getFinalizedBlock hash = some b) ∧ fromHeight ≤ b.height ∧
        (toHeight = 0 ∨ b.height ≤ toHeight) := by
  have hrows : ∀ b ∈ store.finalizedRows, b.height < u64Size := fun b hb =>
    (Store.mem_finalizedRows.mp hb).elim fun hash hb => hu64 hash b hb
  refine ⟨_, streamBatches_sends h hrows [] ?_, Store.sortedRange_pairwise h, fun b => ?_⟩
  · refine Nat.lt_of_le_of_lt ?_ hfuel
    rw [Store.sortedRange, List.length_insertionSort]
    refine (List.length_filter_le ..).trans (Nat.le_of_eq ?_)
    rw [Store.finalizedRows, List.length_map, (P.hashOrder.perm ..).length_eq]
  · rw [List.nil_append, Store.mem_sortedRange, Store.mem_finalizedRows]
    refine and_congr_right fun ⟨hash, hb⟩ => and_congr_right fun _ => ?_
    have := hu64 hash b hb
    split <;> omega

/-- A block of a height, under the height as its hash. -/
def blockAt (height : Nat) : Block sampleParams :=
  { blockOf [] with height, hash := some (show Hash sampleParams from height) }

/-- Two finalized blocks, one of the last height there is. -/
def sparseStore : Store sampleParams :=
  (Store.empty.putFinalizedBlock (blockAt 7)).putFinalizedBlock (blockAt (u64Size - 1))

theorem stream_complete_sparse :
    ∃ sent, streamBlocks 3 sparseStore 5 0 [] = (.ok (), sent) ∧
      sent.Pairwise (·.height < ·.height) ∧
      ∀ b, b ∈ sent ↔ (∃ hash, sparseStore.getFinalizedBlock hash = some b) ∧ 5 ≤ b.height ∧
        (0 = 0 ∨ b.height ≤ 0) := by
  have hrows : ∀ hash b, sparseStore.getFinalizedBlock hash = some b →
      (hash = show Hash sampleParams from b.height) ∧ b.height < u64Size := by
    intro hash b hb
    have hmem := AList.mem_lookup_iff.mp hb
    rcases List.mem_cons.mp hmem with heq | hmem
    · cases heq
      exact ⟨rfl, by decide⟩
    · cases List.mem_singleton.mp hmem
      exact ⟨rfl, by decide⟩
  refine stream_complete (fun h₁ h₂ b₁ b₂ hb₁ hb₂ heq => ?_) (fun h b hb => (hrows h b hb).2)
    (by decide) 5 0
  rw [(hrows h₁ b₁ hb₁).1, (hrows h₂ b₂ hb₂).1, heq]

end Minimmit
