/-
Minimmit.Mempool.CapacityTheorems — how many transactions the pool stores.

A full pool makes room by evicting the first pending transaction of the sender
with the lowest head. Where there is no head, nothing is evicted and the new
transaction is stored all the same. So the bound holds in the runs in which a
transaction that is to be stored finds a head in a full pool, or a queue of its
sender that is at its limit and drops one (`capacity_bound`).
-/
import Minimmit.Mempool.HeadTheorems

namespace Minimmit

open Minimmit.Library Act TransactionPool Option

variable {P : Params}

namespace TransactionPool

variable {pool pool' : TransactionPool P} {tx : Transaction P} {now e : Nat}

/-- How many transactions of a sender are queued. -/
def queuedOf (pool : TransactionPool P) (s : Address P) : Nat :=
  NestedMap.count pool.queuedBySender s

/-- No more transactions than before, and the same capacity. -/
structure Fewer (pool pool' : TransactionPool P) : Prop where
  len : pool'.len ≤ pool.len
  capacity : pool'.capacity = pool.capacity

theorem Fewer.trans {pool'' : TransactionPool P} (h : Fewer pool pool')
    (h' : Fewer pool' pool'') : Fewer pool pool'' :=
  ⟨Nat.le_trans h'.len h.len, h'.capacity.trans h.capacity⟩

theorem length_erase_le (m : AList fun _ : Hash P => ValidatedTransaction P) (h : Hash P) :
    (m.erase h).entries.length ≤ m.entries.length :=
  (List.kerase_sublist h m.entries).length_le

theorem length_foldl_erase_le (gone : List (Hash P))
    (m : AList fun _ : Hash P => ValidatedTransaction P) :
    (gone.foldl (fun m hash => m.erase hash) m).entries.length ≤ m.entries.length := by
  induction gone generalizing m with
  | nil => exact Nat.le_refl _
  | cons h gone ih => exact Nat.le_trans (ih _) (length_erase_le m h)

theorem Removed.fewer {hash : Hash P} (hr : Removed pool hash pool') : Fewer pool pool' := by
  cases hr with
  | absent => exact ⟨Nat.le_refl _, rfl⟩
  | pending | queued => exact ⟨length_erase_le _ _, rfl⟩

/-- A stored transaction that is removed leaves one place. -/
theorem Removed.len {hash : Hash P} {v : ValidatedTransaction P} (hr : Removed pool hash pool')
    (hv : pool.byHash.lookup hash = some v) : pool'.len + 1 = pool.len := by
  cases hr with
  | absent hnone =>
    rw [hnone] at hv
    cases hv
  | pending | queued => exact len_erase hv

theorem Indexed.fewer_removeFinalized (h : pool.Indexed) (hashes : List (Hash P)) :
    Fewer pool (pool.removeFinalized hashes) := by
  induction hashes generalizing pool with
  | nil => exact ⟨Nat.le_refl _, rfl⟩
  | cons hash hashes ih => exact (h.removed hash).fewer.trans (ih (h.remove hash))

/-- With a head there is a transaction to evict. -/
theorem Sound.len_evictLowestPending {x : Prop} (h : pool.Sound x)
    (hheads : pool.senderHeads.Nonempty) :
    pool.evictLowestPending.len + 1 = pool.len ∧
      pool.evictLowestPending.capacity = pool.capacity := by
  have hlast : SenderHead.last pool.senderHeads = some (pool.senderHeads.max' hheads) := by
    simp [SenderHead.last, hheads]
  have hmem := pool.senderHeads.max'_mem hheads
  generalize pool.senderHeads.max' hheads = head at hlast hmem
  have hhead : pool.firstHead head.sender = some head := by
    rcases h.heads head.sender with hh | ⟨-, hh⟩
    · exact (hh head rfl).mp hmem
    · exact absurd rfl (hh head hmem)
  obtain ⟨first, hfirst, hstored⟩ := bind_eq_some_iff.mp hhead
  obtain ⟨v, hv, -⟩ := map_eq_some_iff.mp hstored
  rcases evictLowestPending_cases pool with ⟨-, hnone⟩ | ⟨head', first', hlast', hfirst', heq⟩
  · rw [hnone head hlast] at hfirst
    cases hfirst
  · obtain rfl := some.inj (hlast.symm.trans hlast')
    obtain rfl := some.inj (hfirst.symm.trans hfirst')
    rw [heq]
    exact ⟨(h.indexed.removed first.2).len hv, (h.indexed.removed first.2).fewer.capacity⟩

theorem len_pended (hfresh : pool.listing.stored tx.txHash = none) :
    (pool.pended tx now).len = pool.len + 1 ∧ (pool.pended tx now).capacity = pool.capacity := by
  obtain ⟨heads, heq⟩ := pended_eq pool tx now
  rw [heq]
  exact ⟨len_insert hfresh, rfl⟩

theorem len_replaced {old : Hash P} {existing : ValidatedTransaction P}
    (hfresh : pool.listing.stored tx.txHash = none)
    (hold : pool.listing.stored old = some existing) :
    (pool.replaced tx now old existing).len = pool.len := by
  let erased : TransactionPool P := { pool with byHash := pool.byHash.erase old }
  have hfresh' : erased.byHash.lookup tx.txHash = none := by
    have hfresh : pool.byHash.lookup tx.txHash = none := hfresh
    simp [erased, lookup_erase_eq, hfresh]
  exact (len_insert hfresh').trans (len_erase hold)

/-- A queued transaction is one more, unless the queue is at its limit. -/
theorem Indexed.len_enqueued (h : pool.Indexed) (hadm : Admissible tx e pool) :
    ((pool.enqueued tx now).enforceQueuedLimit tx.sender).len ≤ pool.len + 1 ∧
    (maxQueuedPerSender ≤ pool.queuedOf tx.sender →
      ((pool.enqueued tx now).enforceQueuedLimit tx.sender).len ≤ pool.len) ∧
    ((pool.enqueued tx now).enforceQueuedLimit tx.sender).capacity = pool.capacity := by
  have hqueued : (pool.enqueued tx now).Indexed :=
    h.enqueued hadm.fresh hadm.expected hadm.le hadm.free
  have htrim := hqueued.enforceQueuedLimit (AList.lookup_insert _)
  have hlen : (pool.enqueued tx now).len = pool.len + 1 := len_insert hadm.fresh
  have hfree : ((pool.queuedBySender.lookup tx.sender).getD ∅).get tx.nonce = none :=
    (NestedMap.entry_eq_get _ _ _).symm.trans hadm.free
  have hinner := SortedMap.length_insert hfree tx.txHash
  have htotal := htrim.len
  rw [hinner, hlen] at htotal
  unfold queuedOf NestedMap.count
  exact ⟨by omega, fun hfull => by omega, htrim.capacity⟩

end TransactionPool

/-! ## The operations -/

/-- A transaction that is to be stored in a full pool finds a head, or is
queued behind a queue at its limit. -/
def RoomSafe : PoolOp P → TransactionPool P → Prop
  | .tryAdd tx base _, pool => pool.capacity ≤ pool.len →
    pool.byHash.lookup tx.txHash = none →
    (pool.pendingNonces.lookup tx.sender).getD base ≤ tx.nonce →
    pool.listing.queued tx.sender tx.nonce = none →
      pool.senderHeads.Nonempty ∨ (pool.pendingNonces.lookup tx.sender).getD base < tx.nonce ∧
        maxQueuedPerSender ≤ pool.queuedOf tx.sender
  | _, _ => True

/-- The pool has not more transactions than its capacity `c`. -/
structure TransactionPool.Bounded (c : Nat) (pool : TransactionPool P) : Prop where
  sound : pool.Sound True
  capacity : pool.capacity = c
  len : pool.len ≤ c

theorem TransactionPool.Bounded.fewer {c : Nat} {pool pool' : TransactionPool P}
    (h : pool.Bounded c) (hfewer : Fewer pool pool') (hsound : pool'.Sound True) :
    pool'.Bounded c :=
  ⟨hsound, hfewer.capacity.trans h.capacity, Nat.le_trans hfewer.len h.len⟩

/-- `try_add` keeps the bound if there is room to make. -/
theorem addRule_bounded (c : Nat) (tx : Transaction P) (base now : Nat) : AddRule tx base now
      (fun pool => pool.Bounded c ∧ RoomSafe (.tryAdd tx base now) pool)
      (fun pool => pool.Bounded c ∧ ∀ e, Admissible tx e pool →
        pool.len < c ∨ e < tx.nonce ∧ maxQueuedPerSender ≤ pool.queuedOf tx.sender)
      (fun pool => (Promoting True tx.sender pool ∧
        ∃ k h, pool.listing.pending tx.sender k = some h) ∧ pool.capacity = c ∧ pool.len ≤ c)
      (Bounded c) := by
  have sound := addRule_sound True tx base now
  constructor
  case indexed => exact fun _ h => h.1.sound.indexed
  case stay => exact fun _ h => h.1
  case note =>
    intro pool h
    refine ⟨⟨sound.note pool h.1.sound, h.1.capacity, h.1.len⟩, fun hfull hfresh hle hfree => ?_⟩
    -- the nonce entered is the one that is read afterwards
    have hnext : ((pool.noted tx.sender ((pool.listing.next tx.sender).getD base)).pendingNonces.lookup
        tx.sender).getD base = (pool.pendingNonces.lookup tx.sender).getD base := by
      simp [noted, listing]
    rw [hnext] at hle ⊢
    exact h.2 hfull hfresh hle hfree
  case replace =>
    intro pool e old existing h hfresh he hlt hp hold
    refine ⟨sound.replace pool e old existing h.1.sound hfresh he hlt hp hold, h.1.capacity, ?_⟩
    rw [len_replaced hfresh hold]
    exact h.1.len
  case unqueue =>
    intro pool old h hq
    have hr := h.1.sound.indexed.removed old
    have hbounded := h.1.fewer hr.fewer (sound.unqueue pool old h.1.sound hq)
    refine ⟨hbounded, fun hfull => ?_⟩
    obtain ⟨v, hv, -⟩ := h.1.sound.indexed.consistent.queued_stored _ _ _ hq
    have := hr.len hv
    have := h.1.len
    rw [hbounded.capacity] at hfull
    omega
  case evict =>
    intro pool e h hadm hfull
    have hexpected : (pool.pendingNonces.lookup tx.sender).getD base = e := by
      have he : pool.pendingNonces.lookup tx.sender = some e := hadm.expected
      simp [he]
    have hcase := h.2 hfull hadm.fresh (hexpected ▸ hadm.le) hadm.free
    by_cases hheads : pool.senderHeads.Nonempty
    · obtain ⟨hlen, hcapacity⟩ := h.1.sound.len_evictLowestPending hheads
      have hsound := sound.evict pool e h.1.sound hadm hfull
      have := h.1.len
      exact ⟨⟨hsound, hcapacity.trans h.1.capacity, by omega⟩, fun _ _ => .inl (by omega)⟩
    · -- without a head nothing is evicted
      have hsame : pool.evictLowestPending = pool := by
        simp [evictLowestPending, SenderHead.last, hheads]
      rw [hsame]
      refine ⟨h.1, fun e' hadm' => .inr ?_⟩
      obtain rfl := some.inj (hadm.expected.symm.trans hadm'.expected)
      exact hexpected ▸ hcase.resolve_left hheads
  case room =>
    intro pool e h _ hroom
    exact ⟨h.1, fun _ _ => .inl (h.1.capacity ▸ hroom)⟩
  case pend =>
    intro pool h hadm
    have hpended : (pool.pended tx now).len = _ ∧ _ := len_pended hadm.fresh
    obtain ⟨hlen, hcapacity⟩ := hpended
    refine ⟨sound.pend pool h.1.sound hadm, hcapacity.trans h.1.capacity, ?_⟩
    have := (h.2 tx.nonce hadm).resolve_right fun hlt => Nat.lt_irrefl _ hlt.1
    omega
  case promote =>
    intro pool n hash inner h hn hq hinner
    exact ⟨sound.promote pool n hash inner h.1 hn hq hinner, h.2⟩
  case settle => exact fun pool h hend => ⟨sound.settle pool h.1 hend, h.2.1, h.2.2⟩
  case enqueue =>
    intro pool e h hadm hlt
    have hlen : ((pool.enqueued tx now).enforceQueuedLimit tx.sender).len ≤ _ ∧ _ :=
      h.1.sound.indexed.len_enqueued hadm
    obtain ⟨hone, hnone, hcapacity⟩ := hlen
    refine ⟨sound.enqueue pool e h.1.sound hadm hlt, hcapacity.trans h.1.capacity, ?_⟩
    have := h.1.len
    rcases h.2 e hadm with hroom | ⟨-, hfull⟩
    · omega
    · exact Nat.le_trans (hnone hfull) h.1.len

theorem updateSenderNonce_bounded (c : Nat) (s : Address P) (n : Nat) :
    Spec (Bounded c) (updateSenderNonce s n) (fun _ => Bounded c) (fun _ => False)
      fun _ => True := by
  refine updateSenderNonce_rule (M := fun pool =>
    Promoting True s pool ∧ pool.capacity = c ∧ pool.len ≤ c) ?_ ?_ ?_ ?_
  · exact fun _ h => h
  · intro pool h hlt
    obtain ⟨gone, -, heq⟩ := h.sound.indexed.advanced_eq hlt
    refine ⟨h.sound.advanced hlt, ?_, ?_⟩
    · rw [heq]
      exact h.capacity
    · rw [heq]
      exact Nat.le_trans (length_foldl_erase_le gone pool.byHash) h.len
  · intro pool k hash inner h hk hq hinner
    exact ⟨h.1.promoted (.inl trivial) hk hq hinner, h.2⟩
  · exact fun pool h hend => ⟨h.1.sound hend, h.2.1, h.2.2⟩

theorem PoolOp.run_bounded (c : Nat) (op : PoolOp P) :
    Spec (fun pool => pool.Bounded c ∧ RoomSafe op pool) op.run (fun _ => Bounded c)
      (fun _ => False) fun _ => True := by
  cases op with
  | tryAdd tx base now =>
    exact spec_bind (addRule_bounded c tx base now).tryAdd fun _ => spec_pure fun _ h => h
  | remove hash =>
    refine spec_modify fun pool h => ?_
    exact h.1.fewer (h.1.sound.indexed.removed hash).fewer (h.1.sound.remove hash)
  | removeFinalized hashes =>
    refine spec_modify fun pool h => ?_
    exact h.1.fewer (h.1.sound.indexed.fewer_removeFinalized hashes)
      (h.1.sound.removeFinalized hashes)
  | updateSenderNonce s n => exact (updateSenderNonce_bounded c s n).weaken (fun _ h => h.1) fun _ _ h => h
  | clear => exact spec_modify fun pool h => ⟨sound_new _, h.1.capacity, Nat.zero_le _⟩

/-- **The pool keeps to its capacity** in every run in which there is room to
make for what is stored. -/
theorem capacity_bound {capacity : Nat} {pool : TransactionPool P}
    (h : PoolRun RoomSafe capacity pool) : pool.len ≤ capacity := by
  have hbounded : pool.Bounded capacity :=
    h.rule ⟨sound_new capacity, rfl, Nat.zero_le _⟩ (PoolOp.run_bounded capacity)
  exact hbounded.len

/-- A pool for one transaction evicts the one of a sender for a better paid
one of another. -/
theorem capacity_bound_evicting :
    (PoolOp.run (.tryAdd (signedTransaction (sampleAddress 2) (.transfer (sampleAddress 1) 1) 0 5) 0 0)
      (PoolOp.run (.tryAdd (transferAt 0 1) 0 0) (TransactionPool.new 1)).2).2.len ≤ 1 := by
  have hfirst : PoolRun RoomSafe 1
      (PoolOp.run (.tryAdd (transferAt 0 1) 0 0) (TransactionPool.new 1)).2 :=
    PoolRun.new.after (fun hfull => absurd hfull (by decide)) (by decide +kernel)
  exact capacity_bound (hfirst.after (fun _ _ _ _ => .inl (by decide +kernel)) (by decide +kernel))

/-- Two transactions behind a gap are both stored in a pool for one. -/
theorem capacity_exceeded :
    ∃ pool : TransactionPool sampleParams, PoolRun (fun _ _ => True) 1 pool ∧ pool.len = 2 := by
  have hrun : PoolRun (fun _ _ => True) 1
      (PoolOp.run (.tryAdd (transferAt 6 1) 0 0)
        (PoolOp.run (.tryAdd (transferAt 5 1) 0 0) (TransactionPool.new 1)).2).2 :=
    (PoolRun.new.after trivial (by decide +kernel)).after trivial (by decide +kernel)
  exact ⟨_, hrun, by decide +kernel⟩

end Minimmit
