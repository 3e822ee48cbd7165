/-
Minimmit.Mempool.PoolTheorems — what every reachable pool is like.

The pool starts empty and changes by its public operations; transactions come
in after `Transaction::verify`. Every operation stores at most the new
transaction and otherwise only removes, so whatever is stored was verified
and is stored under its own hash (`PoolReachable.verified`). The iteration
over the pending transactions hands out stored ones only and ends after one
pass for each of them (`PendingIter.next_stored`, `remaining_lt_of_next`).
-/
import Mathlib.Algebra.Order.BigOperators.Group.List
import Minimmit.Mempool.Proposal

namespace Minimmit

open Minimmit.Library TransactionPool List AList Option

variable {P : Params}

/-- The pools that the public operations lead to, each one that returns. -/
inductive PoolReachable : TransactionPool P → Prop
  | new (capacity : Nat) : PoolReachable (TransactionPool.new capacity)
  | tryAdd {pool pool' : TransactionPool P} {tx : Transaction P} {base now : Nat}
      {result : AddResult} (h : PoolReachable pool) (verified : tx.verify = .ok true)
      (run : Minimmit.tryAdd tx base now pool = (.ok result, pool')) : PoolReachable pool'
  | remove {pool : TransactionPool P} (h : PoolReachable pool) (hash : Hash P) :
      PoolReachable (pool.remove hash)
  | removeFinalized {pool : TransactionPool P} (h : PoolReachable pool) (hashes : List (Hash P)) :
      PoolReachable (pool.removeFinalized hashes)
  | updateSenderNonce {pool pool' : TransactionPool P} {sender : Address P} {nonce : Nat}
      (h : PoolReachable pool)
      (run : Minimmit.updateSenderNonce sender nonce pool = (.ok (), pool')) : PoolReachable pool'
  | clear {pool : TransactionPool P} (h : PoolReachable pool) : PoolReachable pool.clear

/-- Every stored transaction is under its hash and was verified. -/
def TransactionPool.Verified (pool : TransactionPool P) : Prop :=
  ∀ hash v, pool.byHash.lookup hash = some v → v.tx.txHash = hash ∧ v.tx.verify = .ok true

/-! ## Nothing unverified is stored -/

section Stored

variable {pool pool' : TransactionPool P}

/-- What is stored was stored before. -/
def TransactionPool.Within (pool' pool : TransactionPool P) : Prop :=
  ∀ hash v, pool'.byHash.lookup hash = some v → pool.byHash.lookup hash = some v

theorem TransactionPool.Within.of_eq (h : pool'.byHash = pool.byHash) : pool'.Within pool := by
  intro hash v hv
  rwa [h] at hv

theorem TransactionPool.Within.trans {pool'' : TransactionPool P} (h : pool''.Within pool')
    (h' : pool'.Within pool) : pool''.Within pool := fun hash v hv => h' hash v (h hash v hv)

theorem TransactionPool.Within.verified (h : pool'.Within pool) (hv : pool.Verified) :
    pool'.Verified := fun hash v hlookup => hv hash v (h hash v hlookup)

variable {v : ValidatedTransaction P}

theorem lookup_erase_some {hash hash' : Hash P}
    {m : AList fun _ : Hash P => ValidatedTransaction P}
    (h : (m.erase hash').lookup hash = some v) : m.lookup hash = some v := by
  by_cases heq : hash = hash'
  · subst heq
    rw [lookup_erase] at h
    cases h
  · rwa [lookup_erase_ne heq] at h

theorem byHash_insertFirstHead (pool : TransactionPool P) (sender : Address P) :
    (pool.insertFirstHead sender).byHash = pool.byHash := by
  unfold insertFirstHead
  split <;> rfl

theorem byHash_removePending
    (h : pool.removePending v = some pool') : pool'.byHash = pool.byHash := by
  unfold removePending at h
  split at h
  · cases h
  split at h
  · dsimp only at h
    split at h
    · rw [← some.inj h]
    · split at h
      · rw [← some.inj h, byHash_insertFirstHead]
      · rw [← some.inj h]
  · cases h

theorem byHash_removeQueued (pool : TransactionPool P) (v : ValidatedTransaction P) :
    (pool.removeQueued v).byHash = pool.byHash := by
  unfold removeQueued
  split
  · rfl
  · split
    · dsimp only
      split <;> rfl
    · rfl

theorem within_remove (pool : TransactionPool P) (hash : Hash P) :
    (pool.remove hash).Within pool := by
  unfold remove
  split
  · exact .of_eq rfl
  dsimp only
  intro hash' v hv
  split at hv
  case h_1 p hp =>
    rw [byHash_removePending hp] at hv
    exact lookup_erase_some hv
  case h_2 =>
    rw [byHash_removeQueued] at hv
    exact lookup_erase_some hv

theorem within_removeFinalized (pool : TransactionPool P) (hashes : List (Hash P)) :
    (pool.removeFinalized hashes).Within pool := by
  induction hashes generalizing pool with
  | nil => exact .of_eq rfl
  | cons hash hashes ih => exact (ih _).trans (within_remove pool hash)

theorem within_evictLowestPending (pool : TransactionPool P) :
    pool.evictLowestPending.Within pool := by
  unfold evictLowestPending
  split
  · exact .of_eq rfl
  · split
    · exact .of_eq rfl
    · exact within_remove pool _

theorem within_enforceQueuedLimit (pool : TransactionPool P) (sender : Address P) :
    (pool.enforceQueuedLimit sender).Within pool := by
  have hone : ∀ pool : TransactionPool P, (pool.dropHighestQueued sender).Within pool := by
    intro pool
    unfold dropHighestQueued
    split
    · exact .of_eq rfl
    · split
      · exact .of_eq rfl
      · exact fun hash v hv => lookup_erase_some hv
  unfold enforceQueuedLimit
  split
  · exact .of_eq rfl
  generalize _ - maxQueuedPerSender = n
  induction n with
  | zero => exact .of_eq rfl
  | succ n ih =>
    rw [Function.iterate_succ_apply']
    exact (hone _).trans ih

theorem byHash_takeQueued {sender : Address P} {nonce : Nat} {hash : Hash P}
    (h : pool.takeQueued sender nonce = some (hash, pool')) : pool'.byHash = pool.byHash := by
  unfold takeQueued at h
  split at h
  · cases h
  · split at h
    · cases h
    · rw [← (Prod.mk.inj (some.inj h)).2]

/-- Storing a verified transaction. -/
theorem TransactionPool.Verified.insert (h : pool.Verified) {tx : Transaction P}
    (htx : tx.verify = .ok true) (now : Nat) :
    Verified
      { pool with byHash := pool.byHash.insert tx.txHash (ValidatedTransaction.new tx now) } := by
  intro hash v hv
  by_cases heq : hash = tx.txHash
  · subst heq
    rw [lookup_insert] at hv
    obtain rfl := some.inj hv
    exact ⟨rfl, htx⟩
  · rw [lookup_insert_ne heq] at hv
    exact h hash v hv

end Stored

/-! ## The steps keep it -/

section Steps

open Act

variable {sender : Address P} {tx : Transaction P}

theorem nonceSucc_maintains {p : TransactionPool P → Prop} (nonce : Nat) :
    Maintains p (nonceSucc nonce) := maintains_ite (maintains_pure _) maintains_panic

theorem minReplacementFee_verified (fee : Nat) :
    Maintains Verified (minReplacementFee (P := P) fee) :=
  maintains_ite (maintains_pure _) maintains_panic

theorem promoteQueuedPasses_within (pool₀ : TransactionPool P) (sender : Address P) (passes : Nat) :
    Maintains (·.Within pool₀) (promoteQueuedPasses sender passes) := by
  induction passes with
  | zero => exact maintains_exhausted
  | succ passes ih =>
    refine maintains_get_bind fun pool hpool => ?_
    dsimp only
    split
    case h_1 => exact maintains_pure _
    case h_2 hash pool' htake =>
      refine maintains_bind (maintains_modify fun _ _ => ?_) fun _ =>
        maintains_bind (nonceSucc_maintains _) fun _ =>
          maintains_bind (maintains_modify fun _ h => h) fun _ => ih
      have hsame := byHash_takeQueued htake
      exact Within.trans (.of_eq hsame) hpool

/-- `promote_queued` stores nothing. -/
theorem promoteQueued_within (pool₀ : TransactionPool P) (sender : Address P) :
    Maintains (·.Within pool₀) (promoteQueued sender) :=
  maintains_get_bind fun _ _ => promoteQueuedPasses_within pool₀ sender _

theorem promoteQueued_verified (sender : Address P) : Maintains Verified (promoteQueued sender) :=
  fun pool h => (promoteQueued_within pool sender pool (.of_eq rfl)).verified h

theorem tryReplacePending_verified (nonce : Nat) (now : Nat) :
    Maintains Verified (tryReplacePending sender nonce tx now) := by
  refine maintains_get_bind fun pool _ => ?_
  split
  · exact maintains_pure _
  split
  · exact maintains_pure _
  · refine maintains_bind (minReplacementFee_verified _) fun minFee => ?_
    refine maintains_ite (maintains_pure _) (maintains_bind (maintains_modify ?_) fun _ =>
      maintains_pure _)
    exact fun pool hpool => Within.verified (fun hash v hv => lookup_erase_some hv) hpool

theorem storeTransaction_verified (htx : tx.verify = .ok true) (expected now : Nat) :
    Maintains Verified (storeTransaction tx expected now) := by
  refine maintains_bind (maintains_modify fun pool hpool => hpool.insert htx now) fun _ => ?_
  refine maintains_ite ?_ ?_
  · refine maintains_bind (maintains_modify fun pool hpool => ?_) fun _ =>
      maintains_bind (nonceSucc_maintains _) fun _ =>
        maintains_bind (maintains_modify fun _ h => h) fun _ =>
          maintains_bind (promoteQueued_verified _) fun _ => maintains_pure _
    refine Within.verified (.of_eq ?_) hpool
    unfold addToPending
    dsimp only
    split <;> rfl
  · refine maintains_bind (maintains_modify fun pool hpool => ?_) fun _ => maintains_pure _
    exact Within.verified ((within_enforceQueuedLimit _ _).trans (.of_eq rfl)) hpool

theorem admitTransaction_verified (htx : tx.verify = .ok true) (expected now : Nat) :
    Maintains Verified (admitTransaction tx expected now) := by
  refine maintains_get_bind fun pool _ => ?_
  refine maintains_ite (maintains_ite (maintains_pure _) ?_) (storeTransaction_verified htx _ _)
  exact maintains_bind
    (maintains_modify fun pool hpool => (within_evictLowestPending pool).verified hpool)
    fun _ => storeTransaction_verified htx _ _

/-- `try_add` of a verified transaction. -/
theorem tryAdd_verified (htx : tx.verify = .ok true) (base now : Nat) :
    Maintains Verified (tryAdd tx base now) := by
  refine maintains_get_bind fun pool _ => maintains_ite (maintains_pure _) ?_
  refine maintains_bind (maintains_modify fun _ h => h) fun _ => maintains_ite ?_ ?_
  · refine maintains_bind (tryReplacePending_verified _ _) fun replaced => ?_
    split
    · exact maintains_bind (maintains_modify fun pool hpool => hpool.insert htx now) fun _ =>
        maintains_pure _
    · exact maintains_pure _
  · split
    · refine maintains_bind (minReplacementFee_verified _) fun minFee => maintains_ite ?_
        (maintains_pure _)
      exact maintains_bind
        (maintains_modify fun pool hpool => (within_remove pool _).verified hpool)
        fun _ => admitTransaction_verified htx _ _
    · exact admitTransaction_verified htx _ _

theorem lookup_foldl_erase {hashes : List (Hash P)}
    {m : AList fun _ : Hash P => ValidatedTransaction P} {hash : Hash P}
    {v : ValidatedTransaction P}
    (h : (hashes.foldl (fun m hash => m.erase hash) m).lookup hash = some v) :
    m.lookup hash = some v := by
  induction hashes generalizing m with
  | nil => exact h
  | cons first hashes ih => exact lookup_erase_some (ih h)

theorem within_dropStale (pool : TransactionPool P) (sender : Address P) (nonce : Nat) :
    ((pool.dropHead sender).dropStale sender nonce).Within pool := by
  have hhead : (pool.dropHead sender).byHash = pool.byHash := by
    unfold dropHead
    split <;> rfl
  refine Within.trans ?_ (.of_eq hhead)
  unfold dropStale
  split
  · exact .of_eq rfl
  dsimp only
  intro hash v hv
  split at hv
  · exact lookup_foldl_erase hv
  · rw [byHash_insertFirstHead] at hv
    exact lookup_foldl_erase hv

/-- `update_sender_nonce` stores nothing. -/
theorem updateSenderNonce_within (pool₀ : TransactionPool P) (sender : Address P) (nonce : Nat) :
    Maintains (·.Within pool₀) (updateSenderNonce sender nonce) := by
  refine maintains_get_bind fun pool _ => maintains_ite (maintains_pure _) ?_
  exact maintains_bind
    (maintains_modify fun pool hpool => (within_dropStale pool sender nonce).trans hpool) fun _ =>
      maintains_bind (maintains_modify fun _ h => h) fun _ => promoteQueued_within pool₀ sender

theorem updateSenderNonce_verified (sender : Address P) (nonce : Nat) :
    Maintains Verified (updateSenderNonce sender nonce) :=
  fun pool h => (updateSenderNonce_within pool sender nonce pool (.of_eq rfl)).verified h

end Steps

/-- **Whatever a reachable pool stores was verified.** -/
theorem PoolReachable.verified {pool : TransactionPool P} (h : PoolReachable pool) :
    pool.Verified := by
  induction h with
  | new capacity => exact fun hash v hv => nomatch hv
  | @tryAdd pool pool' tx base now result h verified run ih =>
    have := tryAdd_verified verified base now pool ih
    rw [run] at this
    exact this
  | remove h hash ih => exact (within_remove _ hash).verified ih
  | removeFinalized h hashes ih => exact (within_removeFinalized _ hashes).verified ih
  | @updateSenderNonce pool pool' sender nonce h run ih =>
    have := updateSenderNonce_verified sender nonce pool ih
    rw [run] at this
    exact this
  | clear h ih => exact fun hash v hv => nomatch hv

/-! ## The iteration -/

section Iteration

variable {pool : TransactionPool P} {it it' : PendingIter P} {tx : Transaction P}

/-- The transactions that are stored and listed as pending. -/
def TransactionPool.pendingTransactions (pool : TransactionPool P) : List (Transaction P) :=
  (pool.byHash.entries.filter fun e =>
    pool.pendingBySender.entries.any fun m => m.2.entries.any fun x => x.2 == e.1).map (·.2.tx)

/-- A pending transaction is stored under its hash and was verified. -/
theorem TransactionPool.Verified.of_pending (h : pool.Verified)
    (htx : tx ∈ pool.pendingTransactions) : tx.verify = .ok true ∧
      ∃ v, pool.byHash.lookup tx.txHash = some v ∧ v.tx = tx := by
  obtain ⟨⟨hash, v⟩, he, rfl⟩ := mem_map.mp htx
  have hlookup : pool.byHash.lookup hash = some v :=
    mem_lookup_iff.mpr (mem_filter.mp he).1
  obtain ⟨hhash, hverify⟩ := h hash v hlookup
  exact ⟨hverify, v, by rw [hhash]; exact hlookup, rfl⟩

/-- Pending transactions with one hash are one transaction. -/
theorem TransactionPool.Verified.eq_of_txHash (h : pool.Verified) {t : Transaction P}
    (ht : t ∈ pool.pendingTransactions) (htx : tx ∈ pool.pendingTransactions)
    (heq : t.txHash = tx.txHash) : t = tx := by
  obtain ⟨-, v, hv, rfl⟩ := h.of_pending ht
  obtain ⟨-, w, hw, rfl⟩ := h.of_pending htx
  rw [heq, hw] at hv
  rw [some.inj hv]

/-- What the iteration hands out, and the nonce it moves on from. -/
theorem PendingIter.next_some (h : it.next pool = .ok (some (tx, it'))) :
    ∃ sender nonce pending hash v, it.currentNonces.lookup sender = some nonce ∧
      pool.pendingBySender.lookup sender = some pending ∧ pending.get nonce = some hash ∧
      pool.byHash.lookup hash = some v ∧ v.tx = tx ∧
      it'.currentNonces = it.currentNonces.insert sender (nonce + 1) := by
  unfold next at h
  split at h
  · cases h
  case h_2 head _ =>
    split at h
    · cases h
    case h_2 nonce hnonce =>
      split at h
      · cases h
      case h_2 pending hpending =>
        split at h
        · cases h
        case h_2 v hv =>
          obtain ⟨hash, hhash, hlookup⟩ := bind_eq_some_iff.mp hv
          split at h
          · obtain ⟨htx, hit⟩ := Prod.mk.inj (some.inj (Outcome.ok.inj h))
            subst hit
            exact ⟨head.sender, nonce, pending, hash, v, hnonce, hpending, hhash, hlookup, htx,
              rfl⟩
          · cases h

/-- **The iteration hands out pending transactions.** -/
theorem PendingIter.next_pending (h : it.next pool = .ok (some (tx, it'))) :
    tx ∈ pool.pendingTransactions := by
  obtain ⟨sender, nonce, pending, hash, v, -, hpending, hget, hlookup, rfl, -⟩ := next_some h
  refine mem_map.mpr ⟨⟨hash, v⟩, mem_filter.mpr
    ⟨mem_lookup_iff.mp hlookup, ?_⟩, rfl⟩
  refine any_eq_true.mpr ⟨⟨sender, pending⟩, mem_lookup_iff.mp hpending, ?_⟩
  exact any_eq_true.mpr ⟨(nonce, hash), SortedMap.get_eq_some_iff.mp hget, by simp⟩

/-- The transactions of a sender from the current nonce on. -/
def PendingIter.left (it : PendingIter P) (e : Sigma fun _ : Address P => SortedMap (Hash P)) :
    Nat :=
  match it.currentNonces.lookup e.1 with
  | some nonce => e.2.entries.countP fun x => decide (nonce ≤ x.1)
  | none => 0

/-- How many transactions the iteration can still hand out. -/
def PendingIter.remaining (pool : TransactionPool P) (it : PendingIter P) : Nat :=
  (pool.pendingBySender.entries.map it.left).sum

theorem PendingIter.remaining_le (pool : TransactionPool P) (it : PendingIter P) :
    it.remaining pool ≤ pool.pendingLen := by
  refine sum_le_sum fun e _ => ?_
  unfold left
  split
  · exact countP_le_length
  · exact Nat.zero_le _

/-- Fewer elements have the stronger property if one has only the other. -/
theorem countP_lt_countP {α : Type} {p q : α → Bool} {l : List α}
    (h : ∀ x ∈ l, p x = true → q x = true) {a : α} (ha : a ∈ l) (hq : q a = true)
    (hp : ¬ p a = true) : l.countP p < l.countP q := by
  induction l with
  | nil => cases ha
  | cons x l ih =>
    have hrest := fun y hy => h y (mem_cons_of_mem x hy)
    rcases mem_cons.mp ha with rfl | ha
    · rw [countP_cons_of_neg hp, countP_cons_of_pos hq]
      exact Nat.lt_succ_of_le (countP_mono_left hrest)
    have hlt := ih hrest ha
    by_cases hx : p x = true
    · rw [countP_cons_of_pos hx, countP_cons_of_pos (h x mem_cons_self hx)]
      omega
    · rw [countP_cons_of_neg hx, countP_cons]
      exact Nat.lt_add_right _ hlt

/-- **Each pass leaves fewer transactions.** -/
theorem PendingIter.remaining_lt_of_next (h : it.next pool = .ok (some (tx, it'))) :
    it'.remaining pool < it.remaining pool := by
  obtain ⟨sender, nonce, pending, hash, v, hnonce, hpending, hget, -, -, hit⟩ := next_some h
  have hmem := SortedMap.get_eq_some_iff.mp hget
  have hself : it'.left ⟨sender, pending⟩ < it.left ⟨sender, pending⟩ := by
    unfold left
    rw [hit]
    dsimp only
    rw [lookup_insert, hnonce]
    -- the entry at the current nonce is not counted any more
    refine countP_lt_countP (fun x _ hx => ?_) hmem (by simp) (by simp)
    exact decide_eq_true (Nat.le_of_succ_le (of_decide_eq_true hx))
  refine sum_lt_sum _ _ (fun e he => ?_) ⟨⟨sender, pending⟩, mem_lookup_iff.mp hpending, hself⟩
  by_cases heq : e.1 = sender
  · obtain ⟨s, m⟩ := e
    dsimp only at heq
    subst heq
    have : pool.pendingBySender.lookup s = some m := mem_lookup_iff.mpr he
    obtain rfl := some.inj (hpending.symm.trans this)
    exact hself.le
  · unfold left
    rw [hit, lookup_insert_ne heq]

end Iteration

end Minimmit
