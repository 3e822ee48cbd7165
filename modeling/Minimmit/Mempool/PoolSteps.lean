/-
Minimmit.Mempool.PoolSteps — the operations of the pool as changes of a listing.

The maps of the pool are read as a listing (`TransactionPool.listing`), and
each piece the operations are made of is a change of that listing: `remove`
drops a hash, the limit on queued transactions drops the highest ones, one pass
of `promote_queued` makes one transaction pending. Two rules, one for the loop
of `promote_queued` and one for `try_add` (`AddRule`), go through the code
once; a property of the pool is then a matter of its pieces.
-/
import Minimmit.Library.NestedMap
import Minimmit.Mempool.Listing
import Minimmit.Mempool.PoolTheorems

namespace Minimmit

open Minimmit.Library TransactionPool Listing NestedMap Option SortedMap AList

variable {P : Params}

/-! ## The maps of the pool as a listing -/

namespace TransactionPool

variable {pool pool' : TransactionPool P} {s : Address P} {n : Nat} {hash : Hash P}
  {v : ValidatedTransaction P}

/-- What the maps of a pool say. -/
def listing (pool : TransactionPool P) : Listing P where
  stored h := pool.byHash.lookup h
  pending := NestedMap.entry pool.pendingBySender
  queued := NestedMap.entry pool.queuedBySender
  next s := pool.pendingNonces.lookup s

/-- The maps of a pool agree and no inner map is empty. -/
structure Indexed (pool : TransactionPool P) : Prop where
  consistent : pool.listing.Consistent
  pending_tidy : NestedMap.Tidy pool.pendingBySender
  queued_tidy : NestedMap.Tidy pool.queuedBySender

theorem indexed_new (capacity : Nat) : (new capacity : TransactionPool P).Indexed where
  consistent := by constructor <;> simp [listing, new]
  pending_tidy := tidy_empty
  queued_tidy := tidy_empty

/-- The head that the first pending transaction of a sender makes. -/
def firstHead (pool : TransactionPool P) (s : Address P) : Option (SenderHead P) :=
  (pool.firstPending s).bind fun e => pool.headAt e.2 s

theorem mem_insertFirstHead (pool : TransactionPool P) (s : Address P) (head : SenderHead P) :
    head ∈ (pool.insertFirstHead s).senderHeads ↔
      pool.firstHead s = some head ∨ head ∈ pool.senderHeads := by
  unfold insertFirstHead
  rw [← firstHead]
  cases pool.firstHead s <;> simp [eq_comm]

theorem insertFirstHead_eq (pool : TransactionPool P) (s : Address P) :
    pool.insertFirstHead s = { pool with senderHeads := (pool.insertFirstHead s).senderHeads } := by
  unfold insertFirstHead
  split <;> rfl

theorem lookup_erase_eq (m : AList fun _ : Hash P => ValidatedTransaction P) (h h' : Hash P) :
    (m.erase h).lookup h' = if h' = h then none else m.lookup h' := by
  split
  next heq => rw [heq, lookup_erase]
  next hne => exact lookup_erase_ne hne

theorem lookup_insert_eq {κ β : Type} [DecidableEq κ] (m : AList fun _ : κ => β) (k k' : κ)
    (b : β) : (m.insert k b).lookup k' = if k' = k then some b else m.lookup k' := by
  split
  next heq => rw [heq, lookup_insert]
  next hne => exact lookup_insert_ne hne

theorem lookup_foldl_erase_eq (m : AList fun _ : Hash P => ValidatedTransaction P)
    (gone : List (Hash P)) (h : Hash P) :
    (gone.foldl (fun m hash => m.erase hash) m).lookup h =
      if h ∈ gone then none else m.lookup h := by
  induction gone generalizing m with
  | nil => simp
  | cons g gone ih =>
    rw [List.foldl_cons, ih, lookup_erase_eq]
    by_cases hg : h = g <;> simp [hg]

/-- What `removePending` does with a listed transaction: the place is free,
and the head is renewed if it was the first one. -/
theorem removePending_spec (hp : pool.listing.pending v.tx.sender v.tx.nonce = some hash) :
    ∃ inner heads,
      pool.pendingBySender.lookup v.tx.sender = some inner ∧
      pool.removePending v = some { pool with
        pendingBySender :=
          restore pool.pendingBySender v.tx.sender (inner.remove v.tx.nonce)
        senderHeads := heads } ∧
      (pool.firstPending v.tx.sender = some (v.tx.nonce, hash) → ∀ head,
        head ∈ heads ↔ (head ∈ pool.senderHeads ∧ head ≠ v.head v.tx.sender) ∨
          firstHead { pool with
            pendingBySender :=
              restore pool.pendingBySender v.tx.sender (inner.remove v.tx.nonce) }
            v.tx.sender = some head) ∧
      (pool.firstPending v.tx.sender ≠ some (v.tx.nonce, hash) → heads = pool.senderHeads) := by
  obtain ⟨inner, hinner, hget⟩ := bind_eq_some_iff.mp hp
  have hfirst : pool.firstPending v.tx.sender = some (v.tx.nonce, hash) ↔
      inner.entries.head?.map (·.1) = some v.tx.nonce := by
    rw [firstPending, hinner, bind_some]
    constructor
    · intro h
      rw [h]
      rfl
    · intro h
      obtain ⟨⟨n, h'⟩, he, rfl⟩ := map_eq_some_iff.mp h
      have hget' := (head?_entries_eq_some_iff.mp he).1
      rw [he, some.inj (hget'.symm.trans hget)]
  refine ⟨inner, ?_⟩
  unfold removePending
  rw [hinner]
  simp only [hget, isSome_some, if_true, ← hfirst]
  by_cases hempty : (inner.remove v.tx.nonce).entries.isEmpty
  · refine ⟨pool.senderHeads.erase (v.head v.tx.sender), trivial, ?_, ?_, ?_⟩
    · rw [if_pos hempty, restore, if_pos hempty]
    · intro _ head
      have hnone : first (restore pool.pendingBySender v.tx.sender (inner.remove v.tx.nonce))
          v.tx.sender = none := by
        refine first_eq_none_iff.mpr fun j => ?_
        rw [entry_restore, if_pos rfl, isEmpty_entries_iff.mp hempty]
      have : ∀ pool : TransactionPool P,
          first pool.pendingBySender v.tx.sender = none →
          pool.firstHead v.tx.sender = none := by
        intro pool h
        have : pool.firstPending v.tx.sender = none := h
        simp [firstHead, this]
      rw [this _ hnone]
      simp [and_comm]
    · intro hne
      -- the only entry is the first one
      refine absurd (first_eq_some_iff.mpr ⟨hp, fun j b hj => ?_⟩) hne
      have hj' := entry_of_lookup hinner ▸ hj
      have := isEmpty_entries_iff.mp hempty j
      rw [get_remove_eq] at this
      split at this
      next heq => exact heq ▸ Nat.le_refl _
      next =>
        rw [this] at hj'
        cases hj'
  · rw [if_neg hempty, restore, if_neg hempty]
    split
    next hwas =>
      refine ⟨_, trivial, congrArg some (insertFirstHead_eq _ _), fun _ head => ?_, ?_⟩
      · rw [mem_insertFirstHead, or_comm]
        simp only [Finset.mem_erase, and_comm]
        rfl
      · exact fun hne => absurd hwas hne
    next hwas =>
      exact ⟨_, trivial, rfl, fun h => absurd h hwas, fun _ => rfl⟩

theorem removePending_eq_none (hp : pool.listing.pending v.tx.sender v.tx.nonce = none) :
    pool.removePending v = none := by
  unfold removePending
  split
  next => rfl
  next inner hinner =>
    have : inner.get v.tx.nonce = none := entry_of_lookup hinner ▸ hp
    simp [this]

/-- What `removeQueued` does with a listed transaction: the place is free. -/
theorem removeQueued_spec (hq : pool.listing.queued v.tx.sender v.tx.nonce = some hash) :
    ∃ inner, pool.queuedBySender.lookup v.tx.sender = some inner ∧
      pool.removeQueued v = { pool with
        queuedBySender :=
          restore pool.queuedBySender v.tx.sender (inner.remove v.tx.nonce) } := by
  obtain ⟨inner, hinner, hget⟩ := bind_eq_some_iff.mp hq
  refine ⟨inner, hinner, ?_⟩
  unfold removeQueued restore
  rw [hinner]
  simp only [hget, isSome_some, if_true]
  split <;> rfl

theorem filter_not_mem_singleton (x : Option (Hash P)) (h : Hash P) :
    x.filter (fun h' => decide (h' ∉ [h])) = if x = some h then none else x := by
  cases x with
  | none => rfl
  | some h' => by_cases heq : h' = h <;> simp [Option.filter, heq]

/-- Freeing the one place of a hash is dropping it. -/
theorem if_place_eq {f : Address P → Nat → Option (Hash P)} (hplace : f s n = some hash)
    (hunique : ∀ s' n', f s' n' = some hash → s' = s ∧ n' = n) (s' : Address P) (n' : Nat) :
    (if s' = s ∧ n' = n then none else f s' n') =
      (f s' n').filter fun h' => decide (h' ∉ [hash]) := by
  rw [filter_not_mem_singleton]
  by_cases heq : s' = s ∧ n' = n
  · rw [if_pos heq, heq.1, heq.2, if_pos hplace]
  · rw [if_neg heq, if_neg fun h => heq (hunique s' n' h)]

/-- Hashes without a place are not missed. -/
theorem filter_of_not_mem {gone : List (Hash P)} {x : Option (Hash P)}
    (h : ∀ h', x = some h' → h' ∉ gone) : x.filter (fun h' => decide (h' ∉ gone)) = x := by
  cases x with
  | none => rfl
  | some h' => simp [Option.filter, h h' rfl]

theorem filter_of_ne {x : Option (Hash P)} (h : x ≠ some hash) :
    x.filter (fun h' => decide (h' ∉ [hash])) = x :=
  filter_of_not_mem fun _ hx hmem => h (List.mem_singleton.mp hmem ▸ hx)

variable {inner : SortedMap (Hash P)}

/-- The pool in which a pending transaction has lost its place. -/
theorem listing_drop_pending (h : pool.Indexed)
    (hp : pool.listing.pending s n = some hash) (hinner : pool.pendingBySender.lookup s = some inner)
    (heads : Finset (SenderHead P)) :
    listing { pool with
      byHash := pool.byHash.erase hash
      pendingBySender := restore pool.pendingBySender s (inner.remove n)
      senderHeads := heads } = pool.listing.drop [hash] := by
  have hc := h.consistent
  unfold listing drop
  congr 1
  · funext h'
    simp [lookup_erase_eq]
  · funext s' n'
    rw [entry_restore_remove hinner]
    exact if_place_eq hp (fun _ _ => hc.pending_unique hp) s' n'
  · funext s' n'
    exact (filter_of_ne (hc.not_queued hp)).symm

/-- The pool in which a queued transaction has lost its place. -/
theorem listing_drop_queued (h : pool.Indexed)
    (hq : pool.listing.queued s n = some hash) (hinner : pool.queuedBySender.lookup s = some inner) :
    listing { pool with
      byHash := pool.byHash.erase hash
      queuedBySender := restore pool.queuedBySender s (inner.remove n) } =
        pool.listing.drop [hash] := by
  have hc := h.consistent
  unfold listing drop
  congr 1
  · funext h'
    simp [lookup_erase_eq]
  · funext s' n'
    exact (filter_of_ne fun hp => hc.not_queued hp hq).symm
  · funext s' n'
    rw [entry_restore_remove hinner]
    exact if_place_eq hq (fun _ _ => hc.queued_unique hq) s' n'

/-- Dropping a hash that is not stored changes nothing. -/
theorem listing_drop_absent (h : pool.Indexed) (hnone : pool.byHash.lookup hash = none) :
    pool.listing.drop [hash] = pool.listing := by
  have habsent : ∀ v, pool.listing.stored hash ≠ some v := by
    intro v hv
    have : pool.byHash.lookup hash = some v := hv
    rw [hnone] at this
    cases this
  unfold drop
  congr 1
  · funext h'
    split
    next heq => rw [List.mem_singleton.mp heq]; exact hnone.symm
    next => rfl
  · funext s' n'
    refine filter_of_ne fun hp => ?_
    obtain ⟨v, hv, -⟩ := h.consistent.pending_stored s' n' hash hp
    exact habsent v hv
  · funext s' n'
    refine filter_of_ne fun hq => ?_
    obtain ⟨v, hv, -⟩ := h.consistent.queued_stored s' n' hash hq
    exact habsent v hv

/-- What `remove` can do: nothing, free a pending place and renew the head, or
free a queued place. -/
inductive Removed (pool : TransactionPool P) (hash : Hash P) : TransactionPool P → Prop
  | absent (absent : pool.byHash.lookup hash = none) : Removed pool hash pool
  | pending {v : ValidatedTransaction P} {inner : SortedMap (Hash P)}
      {heads : Finset (SenderHead P)} (stored : pool.byHash.lookup hash = some v)
      (place : pool.listing.pending v.tx.sender v.tx.nonce = some hash)
      (found : pool.pendingBySender.lookup v.tx.sender = some inner)
      (first : pool.firstPending v.tx.sender = some (v.tx.nonce, hash) → ∀ head,
        head ∈ heads ↔ (head ∈ pool.senderHeads ∧ head ≠ v.head v.tx.sender) ∨
          firstHead { pool with
            byHash := pool.byHash.erase hash
            pendingBySender :=
              NestedMap.restore pool.pendingBySender v.tx.sender (inner.remove v.tx.nonce) }
            v.tx.sender = some head)
      (later : pool.firstPending v.tx.sender ≠ some (v.tx.nonce, hash) →
        heads = pool.senderHeads) :
      Removed pool hash { pool with
        byHash := pool.byHash.erase hash
        pendingBySender :=
          NestedMap.restore pool.pendingBySender v.tx.sender (inner.remove v.tx.nonce)
        senderHeads := heads }
  | queued {v : ValidatedTransaction P} {inner : SortedMap (Hash P)}
      (stored : pool.byHash.lookup hash = some v)
      (place : pool.listing.queued v.tx.sender v.tx.nonce = some hash)
      (found : pool.queuedBySender.lookup v.tx.sender = some inner) :
      Removed pool hash { pool with
        byHash := pool.byHash.erase hash
        queuedBySender :=
          NestedMap.restore pool.queuedBySender v.tx.sender (inner.remove v.tx.nonce) }

theorem Indexed.removed (h : pool.Indexed) (hash : Hash P) :
    Removed pool hash (pool.remove hash) := by
  unfold remove
  split
  next hnone => exact .absent hnone
  next v hv =>
    let erased : TransactionPool P := { pool with byHash := pool.byHash.erase hash }
    rcases h.consistent.listed hash v hv with hp | hq
    · have hp' : erased.listing.pending v.tx.sender v.tx.nonce = some hash := hp
      obtain ⟨inner, heads, hinner, heq, hfirst, hlater⟩ := removePending_spec hp'
      simp only [erased] at heq
      simp only [heq]
      exact .pending hv hp hinner hfirst hlater
    · have hnone : erased.listing.pending v.tx.sender v.tx.nonce = none := by
        refine eq_none_iff_forall_not_mem.mpr fun h' hp => ?_
        rw [h.consistent.apart _ _ h' hp] at hq
        cases hq
      have hq' : erased.listing.queued v.tx.sender v.tx.nonce = some hash := hq
      have hnot := removePending_eq_none hnone
      obtain ⟨inner, hinner, heq⟩ := removeQueued_spec hq'
      simp only [erased] at hnot heq
      simp only [hnot, heq]
      exact .queued hv hq hinner

theorem Removed.listing (hr : Removed pool hash pool') (h : pool.Indexed) :
    pool'.listing = pool.listing.drop [hash] := by
  cases hr with
  | absent hnone => exact (listing_drop_absent h hnone).symm
  | pending hv hp hinner => exact listing_drop_pending h hp hinner _
  | queued hv hq hinner => exact listing_drop_queued h hq hinner

/-- **`remove` drops the hash.** -/
theorem Indexed.listing_remove (h : pool.Indexed) (hash : Hash P) :
    (pool.remove hash).listing = pool.listing.drop [hash] :=
  (h.removed hash).listing h

theorem Removed.indexed (hr : Removed pool hash pool') (h : pool.Indexed) : pool'.Indexed := by
  have hconsistent : pool'.listing.Consistent := hr.listing h ▸ h.consistent.drop [hash]
  cases hr with
  | absent => exact h
  | pending => exact ⟨hconsistent, h.pending_tidy.restore, h.queued_tidy⟩
  | queued => exact ⟨hconsistent, h.pending_tidy, h.queued_tidy.restore⟩

theorem Indexed.remove (h : pool.Indexed) (hash : Hash P) : (pool.remove hash).Indexed :=
  (h.removed hash).indexed h

/-! ## Promotion -/

theorem takeQueued_eq_none_iff : pool.takeQueued s n = none ↔ pool.listing.queued s n = none := by
  unfold takeQueued
  cases hinner : pool.queuedBySender.lookup s with
  | none => simp [listing, entry, hinner]
  | some inner =>
    have hentry : pool.listing.queued s n = inner.get n := entry_of_lookup hinner
    rw [hentry]
    dsimp only
    cases inner.get n <;> simp

theorem takeQueued_eq_some (ht : pool.takeQueued s n = some (hash, pool')) :
    pool.listing.queued s n = some hash ∧ ∃ inner, pool.queuedBySender.lookup s = some inner ∧
      pool' = { pool with
        queuedBySender := restore pool.queuedBySender s (inner.remove n) } := by
  unfold takeQueued at ht
  split at ht
  next => cases ht
  next inner hinner =>
    split at ht
    next => cases ht
    next hash' hget =>
      obtain ⟨rfl, rfl⟩ := Prod.mk.inj (some.inj ht)
      exact ⟨(entry_of_lookup hinner).trans hget, inner, hinner, rfl⟩

/-- The pool after one pass of `promote_queued`. -/
def promoted (pool : TransactionPool P) (s : Address P) (n : Nat) (hash : Hash P)
    (inner : SortedMap (Hash P)) : TransactionPool P :=
  { pool with
    queuedBySender := NestedMap.restore pool.queuedBySender s (inner.remove n)
    pendingBySender := listed pool.pendingBySender s n hash
    pendingNonces := pool.pendingNonces.insert s (n + 1) }

theorem listing_promoted (hinner : pool.queuedBySender.lookup s = some inner) :
    (pool.promoted s n hash inner).listing = (pool.listing.promote s n hash).setNext s (n + 1) := by
  unfold listing promoted promote setNext
  congr 1
  · funext s' n'
    exact entry_put _ _ _ _ _ _
  · funext s' n'
    exact entry_restore_remove hinner
  · funext s'
    exact lookup_insert_eq _ _ _ _

theorem Indexed.promoted (h : pool.Indexed) (hinner : pool.queuedBySender.lookup s = some inner)
    (hq : pool.listing.queued s n = some hash) (he : pool.listing.next s = some n) :
    (pool.promoted s n hash inner).Indexed where
  consistent := listing_promoted hinner ▸ h.consistent.promote hq he
  pending_tidy := h.pending_tidy.put
  queued_tidy := h.queued_tidy.restore

end TransactionPool

section Promotion

open Act

variable {s : Address P} {I : TransactionPool P → Prop}

theorem nonceSucc_spec {p : TransactionPool P → Prop} (n : Nat) :
    Spec p (nonceSucc n) (fun next pool => next = n + 1 ∧ p pool) (fun _ => False)
      fun _ => True := by
  unfold nonceSucc
  exact spec_ite (fun _ => spec_pure fun _ h => ⟨rfl, h⟩) fun _ => spec_panic fun _ _ => trivial

/-- The rule of the loop of `promote_queued`: what a pass keeps, the loop
keeps, and it ends when the expected nonce is not queued. -/
theorem promoteQueuedPasses_rule
    (step : ∀ pool n hash inner, I pool → (pool.listing.next s).getD 0 = n →
      pool.listing.queued s n = some hash → pool.queuedBySender.lookup s = some inner →
      I (pool.promoted s n hash inner)) (passes : Nat) :
    Spec I (promoteQueuedPasses s passes)
      (fun _ pool => I pool ∧ pool.listing.queued s ((pool.listing.next s).getD 0) = none)
      (fun _ => False) fun _ => True := by
  induction passes with
  | zero => exact spec_exhausted fun _ _ => trivial
  | succ passes ih =>
    refine spec_get_bind fun pool hpool => ?_
    dsimp only
    split
    case h_1 hnone =>
      refine spec_pure ?_
      rintro pool' ⟨rfl, -⟩
      exact ⟨hpool, takeQueued_eq_none_iff.mp hnone⟩
    case h_2 hash pool' htake =>
      obtain ⟨hq, inner, hinner, rfl⟩ := takeQueued_eq_some htake
      have hkept := step pool _ hash inner hpool rfl hq hinner
      -- the pool between taking the transaction and raising the nonce
      refine spec_bind (spec_modify fun _ _ => rfl : Spec _ _ (fun _ pool' => pool' = _) _ _) ?_
      refine fun _ => spec_bind (nonceSucc_spec _) fun next => spec_bind (spec_modify ?_) fun _ => ih
      rintro pool' ⟨rfl, rfl⟩
      exact hkept

/-- The rule for `promote_queued`. -/
theorem promoteQueued_rule
    (step : ∀ pool n hash inner, I pool → (pool.listing.next s).getD 0 = n →
      pool.listing.queued s n = some hash → pool.queuedBySender.lookup s = some inner →
      I (pool.promoted s n hash inner)) :
    Spec I (promoteQueued s)
      (fun _ pool => I pool ∧ pool.listing.queued s ((pool.listing.next s).getD 0) = none)
      (fun _ => False) fun _ => True :=
  spec_get_bind fun _ _ =>
    (promoteQueuedPasses_rule step _).conseq (fun _ h => h.2) (fun _ _ h => h) (fun _ h => h)
      fun _ h => h

/-- A pass takes one transaction out of the queue, so the passes are enough. -/
theorem promoteQueuedPasses_ends (s : Address P) (passes : Nat) :
    Triple (fun pool => count pool.queuedBySender s < passes)
      (promoteQueuedPasses s passes) (fun _ _ => True) (fun _ => True)
      fun k _ => k ≠ .exhausted := by
  induction passes with
  | zero => exact fun pool h => absurd h (Nat.not_lt_zero _)
  | succ passes ih =>
    refine triple_get_bind fun pool hlt => ?_
    dsimp only
    split
    case h_1 => exact triple_pure fun _ _ => trivial
    case h_2 hash pool' htake =>
      obtain ⟨hq, inner, hinner, rfl⟩ := takeQueued_eq_some htake
      have hrest := length_remove ((entry_of_lookup hinner).symm.trans hq)
      rw [count, hinner, getD_some] at hlt
      refine triple_bind (triple_modify fun _ _ => ?_) fun _ => triple_bind (triple_ite
        (fun _ => triple_pure fun _ h => h) fun _ => triple_panic fun _ _ => nofun) fun _ =>
          triple_bind (triple_modify fun _ h => h) fun _ => ih
      rw [count_restore]
      omega

/-- `promote_queued` comes to its end or meets a nonce that overflows. -/
theorem promoteQueued_ends (s : Address P) : Never .exhausted (promoteQueued s) := by
  refine triple_get_bind fun pool _ => (promoteQueuedPasses_ends s _).weaken ?_ fun _ _ h => h
  rintro p ⟨rfl, -⟩
  exact Nat.lt_succ_self _

end Promotion

/-! ## The limit on queued transactions -/

namespace TransactionPool

variable {pool pool' : TransactionPool P} {s : Address P} {n : Nat} {hash : Hash P}
  {v : ValidatedTransaction P}

theorem len_erase {h : Hash P} (hv : pool.byHash.lookup h = some v) :
    (pool.byHash.erase h).entries.length + 1 = pool.len := by
  have hmem : h ∈ pool.byHash.keys := mem_keys.mp (lookup_isSome.mp (by rw [hv]; rfl))
  have hpos : 0 < pool.byHash.keys.length := List.length_pos_of_mem hmem
  have hkeys : ∀ m : AList fun _ : Hash P => ValidatedTransaction P,
      m.entries.length = m.keys.length := fun m => (List.length_map _).symm
  rw [len, hkeys, hkeys, keys_erase, List.length_erase_of_mem hmem]
  omega

theorem len_insert {h : Hash P} (hnone : pool.byHash.lookup h = none) :
    (pool.byHash.insert h v).entries.length = pool.len + 1 := by
  rw [entries_insert_of_notMem (lookup_eq_none.mp hnone)]
  rfl

/-- `k` transactions of the queue of a sender have gone. -/
structure Trimmed (pool : TransactionPool P) (s : Address P) (k : Nat) (pool' : TransactionPool P) :
    Prop where
  indexed : pool'.Indexed
  listing : ∃ gone, (∀ h ∈ gone, ∃ n, pool.listing.queued s n = some h) ∧
    pool'.listing = pool.listing.drop gone
  length : ∃ inner inner', pool.queuedBySender.lookup s = some inner ∧
    pool'.queuedBySender.lookup s = some inner' ∧
    inner'.entries.length + k = inner.entries.length
  len : pool'.len + k = pool.len
  pending : pool'.pendingBySender = pool.pendingBySender
  heads : pool'.senderHeads = pool.senderHeads
  capacity : pool'.capacity = pool.capacity

variable {inner : SortedMap (Hash P)}

/-- One pass drops the last of a queue that is not the only one. -/
theorem Indexed.trimmed_one (h : pool.Indexed)
    (hinner : pool.queuedBySender.lookup s = some inner) (hlen : 2 ≤ inner.entries.length) :
    Trimmed pool s 1 (pool.dropHighestQueued s) := by
  obtain ⟨last, hlast⟩ : ∃ last, inner.entries.getLast? = some last := by
    refine isSome_iff_exists.mp (List.getLast?_isSome.mpr fun hnil => ?_)
    simp [hnil] at hlen
  obtain ⟨n, hash⟩ := last
  have hget : inner.get n = some hash :=
    get_eq_some_iff.mpr (List.mem_of_getLast? hlast)
  have hq : pool.listing.queued s n = some hash := (entry_of_lookup hinner).trans hget
  have hrest := length_remove hget
  have hrestore : restore pool.queuedBySender s (inner.remove n) =
      pool.queuedBySender.insert s (inner.remove n) := by
    unfold restore
    refine if_neg fun hempty => ?_
    rw [List.isEmpty_iff.mp hempty] at hrest
    simp only [List.length_nil] at hrest
    omega
  have heq : pool.dropHighestQueued s = { pool with
      byHash := pool.byHash.erase hash
      queuedBySender := restore pool.queuedBySender s (inner.remove n) } := by
    unfold dropHighestQueued
    rw [hinner, hrestore]
    simp only [hlast]
  have hlisting := listing_drop_queued h hq hinner
  rw [heq]
  obtain ⟨v, hv, -⟩ := h.consistent.queued_stored s n hash hq
  exact
    { indexed := ⟨hlisting ▸ h.consistent.drop _, h.pending_tidy, h.queued_tidy.restore⟩
      listing := ⟨[hash], fun h' hh' => ⟨n, List.mem_singleton.mp hh' ▸ hq⟩, hlisting⟩
      length := ⟨inner, inner.remove n, hinner, by rw [hrestore, lookup_insert], hrest⟩
      len := len_erase hv
      pending := rfl
      heads := rfl
      capacity := rfl }

/-- As many passes as leave one transaction in the queue. -/
theorem Indexed.trimmed (h : pool.Indexed)
    (hinner : pool.queuedBySender.lookup s = some inner) {k : Nat}
    (hk : k < inner.entries.length) :
    Trimmed pool s k ((fun pool => dropHighestQueued pool s)^[k] pool) := by
  induction k with
  | zero =>
    exact
      { indexed := h
        listing := ⟨[], by simp, (drop_nil _).symm⟩
        length := ⟨inner, inner, hinner, hinner, rfl⟩
        len := rfl
        pending := rfl
        heads := rfl
        capacity := rfl }
  | succ k ih =>
    have before := ih (by omega)
    rw [Function.iterate_succ_apply']
    generalize (fun pool => dropHighestQueued pool s)^[k] pool = mid at before ⊢
    obtain ⟨inner₀, mid₀, hinner₀, hmid, hlen⟩ := before.length
    obtain rfl := some.inj (hinner.symm.trans hinner₀)
    have after := before.indexed.trimmed_one hmid (by omega)
    obtain ⟨mid₁, last, hmid₁, hlast, hlen'⟩ := after.length
    obtain rfl := some.inj (hmid.symm.trans hmid₁)
    obtain ⟨gone, hgone, hlisting⟩ := before.listing
    obtain ⟨gone', hgone', hlisting'⟩ := after.listing
    refine
      { indexed := after.indexed
        listing := ⟨gone ++ gone', fun h' hh' => ?_, ?_⟩
        length := ⟨inner, last, hinner, hlast, by omega⟩
        len := ?_
        pending := after.pending.trans before.pending
        heads := after.heads.trans before.heads
        capacity := after.capacity.trans before.capacity }
    · rcases List.mem_append.mp hh' with hh' | hh'
      · exact hgone h' hh'
      · obtain ⟨n, hn⟩ := hgone' h' hh'
        rw [hlisting] at hn
        exact ⟨n, (filter_eq_some_iff.mp hn).1⟩
    · rw [hlisting', hlisting, drop_drop]
    · have := before.len
      have := after.len
      omega

/-- `enforce_queued_limit` drops the highest nonces beyond the limit. -/
theorem Indexed.enforceQueuedLimit (h : pool.Indexed)
    (hinner : pool.queuedBySender.lookup s = some inner) :
    Trimmed pool s (inner.entries.length - maxQueuedPerSender) (pool.enforceQueuedLimit s) := by
  have hpos : 0 < inner.entries.length := List.length_pos_iff.mpr (h.queued_tidy s inner hinner)
  unfold TransactionPool.enforceQueuedLimit
  rw [hinner]
  exact h.trimmed hinner (by unfold maxQueuedPerSender; omega)

/-! ## The pieces of `try_add` -/

/-- The expected nonce of a sender is entered. -/
def noted (pool : TransactionPool P) (s : Address P) (e : Nat) : TransactionPool P :=
  { pool with pendingNonces := pool.pendingNonces.insert s e }

/-- A new transaction is pending and the nonce behind it expected. -/
def pended (pool : TransactionPool P) (tx : Transaction P) (now : Nat) : TransactionPool P :=
  (addToPending
    { pool with byHash := pool.byHash.insert tx.txHash (ValidatedTransaction.new tx now) }
    tx.sender tx.nonce tx.txHash (ValidatedTransaction.new tx now)).noted tx.sender (tx.nonce + 1)

/-- A new transaction is queued. -/
def enqueued (pool : TransactionPool P) (tx : Transaction P) (now : Nat) : TransactionPool P :=
  addToQueued
    { pool with byHash := pool.byHash.insert tx.txHash (ValidatedTransaction.new tx now) }
    tx.sender tx.nonce tx.txHash

/-- A new transaction has the place of a pending one. -/
def replaced (pool : TransactionPool P) (tx : Transaction P) (now : Nat) (old : Hash P)
    (existing : ValidatedTransaction P) : TransactionPool P :=
  { pool with
    byHash := (pool.byHash.erase old).insert tx.txHash (ValidatedTransaction.new tx now)
    pendingBySender := listed pool.pendingBySender tx.sender tx.nonce tx.txHash
    senderHeads :=
      if pool.getBaseNonce tx.sender = some tx.nonce then
        insert ((ValidatedTransaction.new tx now).head tx.sender)
          (pool.senderHeads.erase (existing.head tx.sender))
      else pool.senderHeads }

variable {tx : Transaction P} {now e : Nat}

theorem listing_noted : (pool.noted s e).listing = pool.listing.setNext s e := by
  unfold listing noted setNext
  congr 1
  funext s'
  exact lookup_insert_eq _ _ _ _

theorem Indexed.noted (h : pool.Indexed) (hle : ∀ e', pool.listing.next s = some e' → e' ≤ e) :
    (pool.noted s e).Indexed where
  consistent := listing_noted ▸ h.consistent.setNext hle
  pending_tidy := h.pending_tidy
  queued_tidy := h.queued_tidy

/-- The pool with a transaction stored and listed as pending, apart from the
heads. -/
theorem pended_eq (pool : TransactionPool P) (tx : Transaction P) (now : Nat) :
    ∃ heads, pool.pended tx now = { pool with
      byHash := pool.byHash.insert tx.txHash (ValidatedTransaction.new tx now)
      pendingBySender := listed pool.pendingBySender tx.sender tx.nonce tx.txHash
      senderHeads := heads
      pendingNonces := pool.pendingNonces.insert tx.sender (tx.nonce + 1) } := by
  unfold pended addToPending noted
  dsimp only
  split <;> exact ⟨_, rfl⟩

theorem listing_pended : (pool.pended tx now).listing =
    (pool.listing.setNext tx.sender (tx.nonce + 1)).addPending tx.sender tx.nonce tx.txHash
      (ValidatedTransaction.new tx now) := by
  obtain ⟨heads, heq⟩ := pended_eq pool tx now
  rw [heq]
  unfold listing setNext addPending
  congr 1
  · funext h
    exact lookup_insert_eq _ _ _ _
  · funext s' n'
    exact entry_put _ _ _ _ _ _
  · funext s'
    exact lookup_insert_eq _ _ _ _

theorem Indexed.pended (h : pool.Indexed) (hfresh : pool.listing.stored tx.txHash = none)
    (he : pool.listing.next tx.sender = some tx.nonce)
    (hq : pool.listing.queued tx.sender tx.nonce = none) : (pool.pended tx now).Indexed := by
  have hconsistent : (pool.pended tx now).listing.Consistent := by
    rw [listing_pended]
    have hnext : (pool.listing.setNext tx.sender (tx.nonce + 1)).Consistent := by
      refine h.consistent.setNext fun e' he' => ?_
      rw [he] at he'
      exact some.inj he' ▸ Nat.le_succ _
    exact hnext.addPending hfresh rfl rfl rfl rfl (h.consistent.pending_none he (Nat.le_refl _)) hq
      (if_pos rfl) (Nat.lt_succ_self _)
  obtain ⟨heads, heq⟩ := pended_eq pool tx now
  exact ⟨hconsistent, by rw [heq]; exact h.pending_tidy.put, by rw [heq]; exact h.queued_tidy⟩

theorem listing_enqueued : (pool.enqueued tx now).listing =
    pool.listing.addQueued tx.sender tx.nonce tx.txHash (ValidatedTransaction.new tx now) := by
  unfold listing enqueued addToQueued addQueued
  congr 1
  · funext h
    exact lookup_insert_eq _ _ _ _
  · funext s' n'
    exact entry_put _ _ _ _ _ _

theorem Indexed.enqueued (h : pool.Indexed) (hfresh : pool.listing.stored tx.txHash = none)
    (he : pool.listing.next tx.sender = some e) (hle : e ≤ tx.nonce)
    (hq : pool.listing.queued tx.sender tx.nonce = none) : (pool.enqueued tx now).Indexed where
  consistent := listing_enqueued ▸ h.consistent.addQueued hfresh rfl rfl rfl rfl
    (h.consistent.pending_none he hle) hq he
  pending_tidy := h.pending_tidy
  queued_tidy := h.queued_tidy.put

variable {existing : ValidatedTransaction P}

theorem listing_replaced {old : Hash P} (h : pool.Indexed)
    (hp : pool.listing.pending tx.sender tx.nonce = some old) :
    (pool.replaced tx now old existing).listing =
      (pool.listing.drop [old]).addPending tx.sender tx.nonce tx.txHash
        (ValidatedTransaction.new tx now) := by
  have hc := h.consistent
  unfold listing replaced addPending drop
  congr 1
  · funext h'
    simp [lookup_insert_eq, lookup_erase_eq]
  · funext s' n'
    refine (entry_put _ _ _ _ _ _).trans ?_
    by_cases heq : s' = tx.sender ∧ n' = tx.nonce
    · rw [if_pos heq, if_pos heq]
    · rw [if_neg heq, if_neg heq]
      exact (filter_of_ne fun hp' => heq (hc.pending_unique hp hp')).symm
  · funext s' n'
    exact (filter_of_ne (hc.not_queued hp)).symm

theorem Indexed.replaced {old : Hash P} (h : pool.Indexed)
    (hfresh : pool.listing.stored tx.txHash = none) (he : pool.listing.next tx.sender = some e)
    (hlt : tx.nonce < e) (hp : pool.listing.pending tx.sender tx.nonce = some old) :
    (pool.replaced tx now old existing).Indexed where
  consistent := by
    rw [listing_replaced h hp]
    refine (h.consistent.drop [old]).addPending ?_ rfl rfl rfl rfl ?_ ?_ he hlt
    · simp [drop, hfresh]
    · simp [drop, hp, Option.filter]
    · simp [drop, h.consistent.apart _ _ _ hp]
  pending_tidy := h.pending_tidy.put
  queued_tidy := h.queued_tidy

/-- Eviction removes the first pending transaction of the sender with the last
head, if there is one. -/
theorem evictLowestPending_cases (pool : TransactionPool P) :
    (pool.evictLowestPending = pool ∧ ∀ head, SenderHead.last pool.senderHeads = some head →
      pool.firstPending head.sender = none) ∨
    ∃ head e, SenderHead.last pool.senderHeads = some head ∧
      pool.firstPending head.sender = some e ∧ pool.evictLowestPending = pool.remove e.2 := by
  unfold evictLowestPending
  cases hlast : SenderHead.last pool.senderHeads with
  | none => exact .inl ⟨rfl, fun head h => nomatch h⟩
  | some head =>
    cases hfirst : pool.firstPending head.sender with
    | none =>
      refine .inl ⟨by simp [hfirst], fun head' h => ?_⟩
      rw [← some.inj h, hfirst]
    | some e => exact .inr ⟨head, e, rfl, hfirst, by simp [hfirst]⟩

end TransactionPool

/-! ## The rule for `try_add` -/

/-- A transaction that is not refused and does not replace a pending one: it is
not stored, its nonce is not below the expected one, and its place is free. -/
structure Admissible (tx : Transaction P) (e : Nat) (pool : TransactionPool P) : Prop where
  fresh : pool.listing.stored tx.txHash = none
  expected : pool.listing.next tx.sender = some e
  le : e ≤ tx.nonce
  free : pool.listing.queued tx.sender tx.nonce = none

variable {pool : TransactionPool P}

theorem Admissible.remove {tx : Transaction P} {e : Nat}
    (h : Admissible tx e pool) (hpool : pool.Indexed) (hash : Hash P) :
    Admissible tx e (pool.remove hash) := by
  have hlisting := hpool.listing_remove hash
  constructor
  · simp [hlisting, drop, h.fresh]
  · rw [hlisting]
    exact h.expected
  · exact h.le
  · simp [hlisting, drop, h.free]

theorem Admissible.evictLowestPending {tx : Transaction P} {e : Nat}
    (h : Admissible tx e pool) (hpool : pool.Indexed) :
    Admissible tx e pool.evictLowestPending := by
  rcases evictLowestPending_cases pool with ⟨heq, -⟩ | ⟨-, first, -, -, heq⟩
  · rw [heq]
    exact h
  · rw [heq]
    exact h.remove hpool first.2

/-- What has to be shown so that `try_add` leads from `I` to `J`: `R` holds
when there is room for the transaction, `M` while queued transactions are
promoted. -/
structure AddRule (tx : Transaction P) (base now : Nat) (I R M J : TransactionPool P → Prop) :
    Prop where
  indexed : ∀ pool, I pool → pool.Indexed
  stay : ∀ pool, I pool → J pool
  note : ∀ pool, I pool → I (pool.noted tx.sender ((pool.listing.next tx.sender).getD base))
  replace : ∀ pool e old existing, I pool → pool.listing.stored tx.txHash = none →
    pool.listing.next tx.sender = some e → tx.nonce < e →
    pool.listing.pending tx.sender tx.nonce = some old →
    pool.listing.stored old = some existing → J (pool.replaced tx now old existing)
  unqueue : ∀ pool old, I pool → pool.listing.queued tx.sender tx.nonce = some old →
    I (pool.remove old)
  evict : ∀ pool e, I pool → Admissible tx e pool → pool.capacity ≤ pool.len →
    R pool.evictLowestPending
  room : ∀ pool e, I pool → Admissible tx e pool → pool.len < pool.capacity → R pool
  pend : ∀ pool, R pool → Admissible tx tx.nonce pool → M (pool.pended tx now)
  promote : ∀ pool n hash inner, M pool → (pool.listing.next tx.sender).getD 0 = n →
    pool.listing.queued tx.sender n = some hash →
    pool.queuedBySender.lookup tx.sender = some inner → M (pool.promoted tx.sender n hash inner)
  settle : ∀ pool, M pool →
    pool.listing.queued tx.sender ((pool.listing.next tx.sender).getD 0) = none → J pool
  enqueue : ∀ pool e, R pool → Admissible tx e pool → e < tx.nonce →
    J ((pool.enqueued tx now).enforceQueuedLimit tx.sender)

namespace AddRule

open Act

variable {tx : Transaction P} {base now : Nat} {I R M J : TransactionPool P → Prop}

theorem storeTransaction (rule : AddRule tx base now I R M J) (e : Nat) :
    Spec (fun pool => R pool ∧ Admissible tx e pool) (storeTransaction tx e now) (fun _ => J)
      (fun _ => False) fun _ => True := by
  unfold Minimmit.storeTransaction
  dsimp only
  refine spec_bind (Q := fun _ pool' => ∃ pool, R pool ∧ Admissible tx e pool ∧ pool' = { pool with
    byHash := pool.byHash.insert tx.txHash (ValidatedTransaction.new tx now) })
    (spec_modify fun pool h => ⟨pool, h.1, h.2, rfl⟩) fun _ => ?_
  refine spec_ite (fun hn => ?_) fun hn => ?_
  · subst hn
    refine spec_bind (Q := fun _ pool' => M (pool'.noted tx.sender (tx.nonce + 1)))
      (spec_modify ?_) fun _ => spec_bind (nonceSucc_spec tx.nonce) fun next => ?_
    · rintro - ⟨pool, hroom, hadm, rfl⟩
      exact rule.pend pool hroom hadm
    · refine spec_bind (spec_modify ?_) fun _ => spec_bind (promoteQueued_rule rule.promote)
        fun _ => spec_pure fun pool h => rule.settle pool h.1 h.2
      rintro pool ⟨rfl, hpended⟩
      exact hpended
  · refine spec_bind (spec_modify ?_) fun _ => spec_pure fun _ h => h
    rintro - ⟨pool, hroom, hadm, rfl⟩
    exact rule.enqueue pool e hroom hadm (by have := hadm.le; omega)

theorem admitTransaction (rule : AddRule tx base now I R M J) (e : Nat) :
    Spec (fun pool => I pool ∧ Admissible tx e pool) (admitTransaction tx e now) (fun _ => J)
      (fun _ => False) fun _ => True := by
  refine spec_get_bind fun pool _ => spec_ite (fun hfull => spec_ite (fun _ => ?_) fun _ => ?_)
    fun hroom => ?_
  · exact spec_pure fun pool h => rule.stay pool h.2.1
  · refine spec_bind (spec_modify ?_) fun _ => rule.storeTransaction e
    rintro pool' ⟨rfl, hI, hadm⟩
    exact ⟨rule.evict _ e hI hadm hfull, hadm.evictLowestPending (rule.indexed _ hI)⟩
  · refine (rule.storeTransaction e).weaken ?_ fun _ _ h => h
    rintro pool' ⟨rfl, hI, hadm⟩
    exact ⟨rule.room _ e hI hadm (Nat.lt_of_not_le hroom), hadm⟩

/-- What `try_replace_pending` leaves for `try_add` to finish. -/
theorem tryReplacePending_spec (pool : TransactionPool P) :
    Spec (· = pool) (tryReplacePending tx.sender tx.nonce tx now)
      (fun r pool' => if r = some true then
          ∃ old existing, pool.listing.pending tx.sender tx.nonce = some old ∧
            pool.listing.stored old = some existing ∧
            { pool' with byHash := pool'.byHash.insert tx.txHash (ValidatedTransaction.new tx now) }
              = pool.replaced tx now old existing
        else pool' = pool)
      (fun _ => False) fun _ => True := by
  refine spec_get_bind fun pool' heq => ?_
  subst heq
  split
  · exact spec_pure fun _ h => h.1
  rename_i old hold
  split
  · exact spec_pure fun _ h => h.1
  rename_i existing hexisting
  refine spec_bind (Q := fun _ p => p = pool') ?_ fun minFee =>
    spec_ite (fun _ => spec_pure fun _ h => h) fun _ => ?_
  · exact spec_ite (fun _ => spec_pure fun _ h => h.1) fun _ => spec_panic fun _ _ => trivial
  · refine spec_bind (spec_modify ?_) fun _ => spec_pure fun _ h => h
    rintro p rfl
    rw [if_pos rfl]
    exact ⟨old, existing, hold, hexisting, rfl⟩

/-- **What the pieces of `try_add` do, it does.** -/
theorem tryAdd (rule : AddRule tx base now I R M J) :
    Spec I (tryAdd tx base now) (fun _ => J) (fun _ => False) fun _ => True := by
  refine spec_get_bind fun pool hpool => spec_ite
    (fun _ => spec_pure fun pool h => rule.stay pool h.2) fun hfresh => ?_
  have hfresh : pool.listing.stored tx.txHash = none :=
    not_isSome_iff_eq_none.mp hfresh
  dsimp only
  -- the expected nonce is the one known, or the one given for a new sender
  generalize he : (pool.pendingNonces.lookup tx.sender).getD base = e
  have hnoted : I (pool.noted tx.sender e) := he ▸ rule.note pool hpool
  have hnext : (pool.noted tx.sender e).listing.next tx.sender = some e := by
    rw [listing_noted]
    exact if_pos rfl
  refine spec_bind (Q := fun _ p => p = pool.noted tx.sender e) (spec_modify ?_) fun _ => ?_
  · rintro p ⟨rfl, -⟩
    rfl
  refine spec_ite (fun hlt => ?_) fun hle => ?_
  · refine spec_bind (tryReplacePending_spec _) fun r => ?_
    rcases r with _ | _ | _
    · exact spec_pure fun p h => h ▸ rule.stay _ hnoted
    · exact spec_pure fun p h => h ▸ rule.stay _ hnoted
    · refine spec_bind (Q := fun _ => J) (spec_modify ?_) fun _ => spec_pure fun _ h => h
      rintro p ⟨old, existing, hold, hexisting, heq⟩
      rw [heq]
      exact rule.replace _ e old existing hnoted hfresh hnext hlt hold hexisting
  · -- whether the place is taken was read before the nonce was entered
    have hindexed := rule.indexed _ hnoted
    split
    · rename_i old existing hqueued
      obtain ⟨old', hq, hrest⟩ := bind_eq_some_iff.mp hqueued
      obtain ⟨v, -, hpair⟩ := map_eq_some_iff.mp hrest
      obtain ⟨rfl, -⟩ := Prod.mk.inj hpair
      refine spec_bind (Q := fun _ p => p = pool.noted tx.sender e) ?_ fun minFee =>
        spec_ite (fun _ => ?_) fun _ => spec_pure fun _ h => h ▸ rule.stay _ hnoted
      · exact spec_ite (fun _ => spec_pure fun _ h => h) fun _ => spec_panic fun _ _ => trivial
      refine spec_bind (spec_modify ?_) fun _ => rule.admitTransaction e
      rintro p rfl
      refine ⟨rule.unqueue _ old' hnoted hq, ?_⟩
      have hlisting := hindexed.listing_remove old'
      exact
        { fresh := by rw [hlisting]; simp [drop]; exact fun _ => hfresh
          expected := by rw [hlisting]; exact hnext
          le := Nat.le_of_not_lt hle
          free := by
            have : (pool.noted tx.sender e).listing.queued tx.sender tx.nonce = some old' := hq
            simp [hlisting, drop, this, Option.filter] }
    · rename_i hqueued
      refine (rule.admitTransaction e).weaken ?_ fun _ _ h => h
      rintro p rfl
      refine ⟨hnoted, hfresh, hnext, Nat.le_of_not_lt hle, ?_⟩
      refine eq_none_iff_forall_not_mem.mpr fun old hq => ?_
      obtain ⟨v, hv, -⟩ := hindexed.consistent.queued_stored _ _ _ hq
      have hq : (pool.queuedBySender.lookup tx.sender).bind (·.get tx.nonce) = some old := hq
      have hv : pool.byHash.lookup old = some v := hv
      simp [queuedAt, hq, hv] at hqueued

end AddRule

section Ends

open Act

theorem nonceSucc_ends (n : Nat) : Never .exhausted (nonceSucc n : PoolStep P Nat) :=
  never_ite never_pure (never_panic nofun)

theorem minReplacementFee_ends (fee : Nat) :
    Never .exhausted (minReplacementFee fee : PoolStep P Nat) :=
  never_ite never_pure (never_panic nofun)

theorem tryReplacePending_ends (s : Address P) (n : Nat) (tx : Transaction P) (now : Nat) :
    Never .exhausted (tryReplacePending s n tx now) := by
  refine never_get_bind fun pool => ?_
  split
  · exact never_pure
  · split
    · exact never_pure
    · exact never_bind (minReplacementFee_ends _) fun _ =>
        never_ite never_pure (never_bind never_modify fun _ => never_pure)

theorem storeTransaction_ends (tx : Transaction P) (e now : Nat) :
    Never .exhausted (storeTransaction tx e now) := by
  refine never_bind never_modify fun _ => never_ite ?_ ?_
  · exact never_bind never_modify fun _ => never_bind (nonceSucc_ends e) fun _ =>
      never_bind never_modify fun _ => never_bind (promoteQueued_ends _) fun _ => never_pure
  · exact never_bind never_modify fun _ => never_pure

theorem admitTransaction_ends (tx : Transaction P) (e now : Nat) :
    Never .exhausted (admitTransaction tx e now) :=
  never_get_bind fun _ => never_ite
    (never_ite never_pure (never_bind never_modify fun _ => storeTransaction_ends tx e now))
    (storeTransaction_ends tx e now)

/-- **`try_add` comes to its end**, or a number overflows. -/
theorem tryAdd_ends (tx : Transaction P) (base now : Nat) :
    Never .exhausted (tryAdd tx base now) := by
  refine never_get_bind fun pool => never_ite never_pure (never_bind never_modify fun _ =>
    never_ite (never_bind (tryReplacePending_ends _ _ _ _) fun r => ?_) ?_)
  · rcases r with _ | _ | _
    · exact never_pure
    · exact never_pure
    · exact never_bind never_modify fun _ => never_pure
  · split
    · exact never_bind (minReplacementFee_ends _) fun _ =>
        never_ite (never_bind never_modify fun _ => admitTransaction_ends _ _ _) never_pure
    · exact admitTransaction_ends _ _ _

end Ends

/-! ## `update_sender_nonce` -/

namespace TransactionPool

variable {pool : TransactionPool P} {s : Address P} {n : Nat}

/-- The pool in which a sender has no pending transaction below a nonce and
this nonce is expected. -/
def advanced (pool : TransactionPool P) (s : Address P) (n : Nat) : TransactionPool P :=
  ((pool.dropHead s).dropStale s n).noted s n

theorem mem_dropHead (pool : TransactionPool P) (s : Address P) (head : SenderHead P) :
    head ∈ (pool.dropHead s).senderHeads ↔
      head ∈ pool.senderHeads ∧ pool.firstHead s ≠ some head := by
  unfold dropHead
  rw [← firstHead]
  cases pool.firstHead s <;> simp [and_comm, eq_comm]

/-- All pending transactions of the sender are below a higher nonce, so all of
them go, and the head with them. -/
theorem Indexed.advanced_eq (h : pool.Indexed) (hlt : (pool.listing.next s).getD 0 < n) :
    ∃ gone : List (Hash P),
      (∀ hash, hash ∈ gone ↔ ∃ k, pool.listing.pending s k = some hash) ∧
      pool.advanced s n = TransactionPool.noted { pool with
        byHash := gone.foldl (fun m hash => m.erase hash) pool.byHash
        pendingBySender := pool.pendingBySender.erase s
        senderHeads := (pool.dropHead s).senderHeads } s n := by
  have hdrop : pool.dropHead s = { pool with senderHeads := (pool.dropHead s).senderHeads } := by
    unfold dropHead
    split <;> rfl
  unfold advanced
  rw [hdrop]
  unfold dropStale
  dsimp only
  cases hinner : pool.pendingBySender.lookup s with
  | none =>
    refine ⟨[], fun hash => ?_, ?_⟩
    · simp [listing, entry, hinner]
    · have herase : pool.pendingBySender.erase s = pool.pendingBySender :=
        ext (List.kerase_of_notMem_keys (lookup_eq_none.mp hinner))
      simp [herase]
  | some inner =>
    have hentry : ∀ k, pool.listing.pending s k = inner.get k := fun k =>
      entry_of_lookup hinner
    have hbelow : ∀ e ∈ inner.entries, e.1 < n := by
      intro e he
      have hp := (hentry e.1).trans (get_eq_some_iff.mpr he)
      obtain ⟨expected, hnext, hlt'⟩ := h.consistent.pending_below s e.1 e.2 hp
      rw [hnext] at hlt
      exact Nat.lt_trans hlt' hlt
    have hstale : (inner.retain fun nonce _ => decide (nonce < n)).values = inner.values := by
      unfold retain values
      dsimp only
      rw [List.filter_eq_self.mpr fun e he => decide_eq_true (hbelow e he)]
    have hkeep : (inner.retain fun nonce _ => decide (n ≤ nonce)).entries = [] := by
      refine List.filter_eq_nil_iff.mpr fun e he => ?_
      have := hbelow e he
      simp only [decide_eq_true_eq]
      omega
    refine ⟨inner.values, fun hash => ?_, ?_⟩
    · simp only [hentry, get_eq_some_iff, values, List.mem_map]
      constructor
      · rintro ⟨e, he, rfl⟩
        exact ⟨e.1, he⟩
      · rintro ⟨k, hk⟩
        exact ⟨(k, hash), hk, rfl⟩
    · simp [hstale, hkeep]

theorem Indexed.listing_advanced (h : pool.Indexed) (hlt : (pool.listing.next s).getD 0 < n) :
    ∃ gone : List (Hash P),
      (∀ hash, hash ∈ gone ↔ ∃ k, pool.listing.pending s k = some hash) ∧
      (pool.advanced s n).listing = (pool.listing.drop gone).setNext s n := by
  obtain ⟨gone, hgone, heq⟩ := h.advanced_eq hlt
  refine ⟨gone, hgone, ?_⟩
  rw [heq, listing_noted]
  congr 1
  unfold listing drop
  congr 1
  · funext hash
    exact lookup_foldl_erase_eq _ _ _
  · funext s' k
    refine (entry_erase _ _ _ _).trans ?_
    split
    next hs =>
      subst hs
      refine (eq_none_iff_forall_not_mem.mpr fun hash hmem => ?_).symm
      obtain ⟨hp, hnot⟩ := filter_eq_some_iff.mp hmem
      exact of_decide_eq_true hnot ((hgone hash).mpr ⟨k, hp⟩)
    next hs =>
      refine (filter_of_not_mem fun hash hp hmem => hs ?_).symm
      obtain ⟨k', hp'⟩ := (hgone hash).mp hmem
      exact (h.consistent.pending_unique hp' hp).1
  · funext s' k
    refine (filter_of_not_mem fun hash hq hmem => ?_).symm
    obtain ⟨k', hp'⟩ := (hgone hash).mp hmem
    exact h.consistent.not_queued hp' hq

theorem Indexed.advanced (h : pool.Indexed) (hlt : (pool.listing.next s).getD 0 < n) :
    (pool.advanced s n).Indexed := by
  have hconsistent : (pool.advanced s n).listing.Consistent := by
    obtain ⟨gone, -, hlisting⟩ := h.listing_advanced hlt
    rw [hlisting]
    refine (h.consistent.drop gone).setNext fun e' he' => ?_
    have he' : pool.listing.next s = some e' := he'
    rw [he'] at hlt
    exact Nat.le_of_lt hlt
  obtain ⟨gone, -, heq⟩ := h.advanced_eq hlt
  exact ⟨hconsistent, by rw [heq]; exact h.pending_tidy.erase, by rw [heq]; exact h.queued_tidy⟩

end TransactionPool

section Advance

open Act

variable {s : Address P} {n : Nat} {I J M : TransactionPool P → Prop}

/-- The rule for `update_sender_nonce`. -/
theorem updateSenderNonce_rule (stay : ∀ pool, I pool → J pool)
    (advance : ∀ pool, I pool → (pool.listing.next s).getD 0 < n → M (pool.advanced s n))
    (promote : ∀ pool k hash inner, M pool → (pool.listing.next s).getD 0 = k →
      pool.listing.queued s k = some hash → pool.queuedBySender.lookup s = some inner →
      M (pool.promoted s k hash inner))
    (settle : ∀ pool, M pool →
      pool.listing.queued s ((pool.listing.next s).getD 0) = none → J pool) :
    Spec I (updateSenderNonce s n) (fun _ => J) (fun _ => False) fun _ => True := by
  refine spec_get_bind fun pool _ =>
    spec_ite (fun _ => spec_pure fun pool h => stay pool h.2) fun hlt => ?_
  refine spec_bind (Q := fun _ pool' => M (pool'.noted s n)) (spec_modify ?_) fun _ =>
    spec_bind (spec_modify fun _ h => h) fun _ =>
      (promoteQueued_rule promote).weaken (fun _ h => h) fun _ pool h => settle pool h.1 h.2
  rintro p ⟨rfl, hI⟩
  exact advance p hI (Nat.lt_of_not_le hlt)

end Advance

end Minimmit
