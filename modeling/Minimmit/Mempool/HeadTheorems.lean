/-
Minimmit.Mempool.HeadTheorems — the maps and the heads of the pool belong
together.

The listings agree with the storage after every sequence of operations
(`PoolRun.indexed`). The heads are the exception: `promote_queued` does not
enter one, which is right only if the sender has a pending transaction already.
After `update_sender_nonce` it has none. So of every sender the heads have
either exactly the one of its first pending transaction (`Headed`) or none
(`Headless`), and all senders are `Headed` in the runs in which no such update
finds a queued transaction to promote (`representation_invariant`).
-/
import Minimmit.Mempool.PoolSteps
import Minimmit.State.Sample

namespace Minimmit

open Minimmit.Library Act TransactionPool Listing NestedMap Option

variable {P : Params}

namespace TransactionPool

variable {pool pool' : TransactionPool P} {s : Address P} {n : Nat} {hash : Hash P}
  {v : ValidatedTransaction P} {x : Prop}

/-- The expected nonce of a sender is not queued. -/
def Settled (pool : TransactionPool P) : Prop :=
  ∀ s e, pool.listing.next s = some e → pool.listing.queued s e = none

/-- The heads of a sender are the one of its first pending transaction. -/
def Headed (pool : TransactionPool P) (s : Address P) : Prop :=
  ∀ head : SenderHead P, head.sender = s →
    (head ∈ pool.senderHeads ↔ pool.firstHead s = some head)

/-- A sender has no head. -/
def Headless (pool : TransactionPool P) (s : Address P) : Prop :=
  ∀ head ∈ pool.senderHeads, head.sender ≠ s

/-- A sender has the head it should have, or, if `x` allows it, none. -/
def HeadOk (x : Prop) (pool : TransactionPool P) (s : Address P) : Prop :=
  pool.Headed s ∨ x ∧ pool.Headless s

/-- What every pool is like, `x` telling whether senders without a head are
allowed. -/
structure Sound (x : Prop) (pool : TransactionPool P) : Prop where
  indexed : pool.Indexed
  settled : pool.Settled
  heads : ∀ s, pool.HeadOk x s

/-! ## First pending transactions -/

theorem firstPending_eq_some_iff :
    pool.firstPending s = some (n, hash) ↔ pool.listing.pending s n = some hash ∧
      ∀ k h, pool.listing.pending s k = some h → n ≤ k :=
  first_eq_some_iff

theorem firstPending_eq_none_iff :
    pool.firstPending s = none ↔ ∀ k, pool.listing.pending s k = none :=
  first_eq_none_iff

theorem firstPending_congr (h : ∀ k, pool'.listing.pending s k = pool.listing.pending s k) :
    pool'.firstPending s = pool.firstPending s :=
  first_congr h

theorem firstHead_of_first (hfirst : pool.firstPending s = some (n, hash))
    (hv : pool.listing.stored hash = some v) : pool.firstHead s = some (v.head s) := by
  have hv : pool.byHash.lookup hash = some v := hv
  simp [firstHead, hfirst, headAt, hv]

theorem firstHead_of_none (hfirst : pool.firstPending s = none) : pool.firstHead s = none := by
  simp [firstHead, hfirst]

/-- A head made of a sender's transaction is a head of this sender. -/
theorem sender_of_firstHead {head : SenderHead P} (h : pool.firstHead s = some head) :
    head.sender = s := by
  obtain ⟨e, -, he⟩ := bind_eq_some_iff.mp h
  obtain ⟨v, -, rfl⟩ := map_eq_some_iff.mp he
  rfl

/-- A sender with pending transactions has a first one, which is stored. -/
theorem Indexed.exists_firstHead (h : pool.Indexed) (hp : pool.listing.pending s n = some hash) :
    ∃ first h' v, pool.firstPending s = some (first, h') ∧ pool.listing.stored h' = some v ∧
      pool.firstHead s = some (v.head s) := by
  obtain ⟨⟨first, h'⟩, hfirst⟩ := exists_first hp
  have hfirst : pool.firstPending s = some (first, h') := hfirst
  obtain ⟨v, hv, -⟩ :=
    h.consistent.pending_stored _ _ _ (firstPending_eq_some_iff.mp hfirst).1
  exact ⟨first, h', v, hfirst, hv, firstHead_of_first hfirst hv⟩

theorem firstHead_congr (hfirst : pool'.firstPending s = pool.firstPending s)
    (hstored : ∀ k h, pool.firstPending s = some (k, h) →
      pool'.listing.stored h = pool.listing.stored h) :
    pool'.firstHead s = pool.firstHead s := by
  unfold firstHead
  rw [hfirst]
  cases he : pool.firstPending s with
  | none => rfl
  | some e =>
    have : pool'.byHash.lookup e.2 = pool.byHash.lookup e.2 := hstored e.1 e.2 he
    simp [headAt, this]

/-! ## What happens to the head of a sender -/

/-- Neither the first transaction nor the head of the sender changes. -/
theorem HeadOk.undisturbed (h : pool.HeadOk x s) (hfirst : pool'.firstHead s = pool.firstHead s)
    (hheads : ∀ head, head.sender = s → (head ∈ pool'.senderHeads ↔ head ∈ pool.senderHeads)) :
    pool'.HeadOk x s := by
  rcases h with h | ⟨hx, h⟩
  · refine .inl fun head hs => ?_
    rw [hheads head hs, hfirst]
    exact h head hs
  · exact .inr ⟨hx, fun head hmem hs => h head ((hheads head hs).mp hmem) hs⟩

/-- The old head goes and the new one comes. -/
theorem HeadOk.renewed (h : pool.HeadOk x s)
    (hheads : ∀ head, head.sender = s → (head ∈ pool'.senderHeads ↔
      (head ∈ pool.senderHeads ∧ pool.firstHead s ≠ some head) ∨ pool'.firstHead s = some head)) :
    pool'.Headed s := by
  intro head hs
  rw [hheads head hs]
  refine ⟨fun hmem => hmem.resolve_left fun ⟨hold, hne⟩ => ?_, .inr⟩
  rcases h with h | ⟨-, h⟩
  · exact hne ((h head hs).mp hold)
  · exact h head hold hs

/-- Dropping hashes that are not pending of this sender. -/
theorem HeadOk.drop (h : pool.HeadOk x s) {gone : List (Hash P)}
    (hlisting : pool'.listing = pool.listing.drop gone)
    (hgone : ∀ k h, pool.listing.pending s k = some h → h ∉ gone)
    (hheads : ∀ head, head.sender = s → (head ∈ pool'.senderHeads ↔ head ∈ pool.senderHeads)) :
    pool'.HeadOk x s := by
  have hsame : ∀ k, pool'.listing.pending s k = pool.listing.pending s k := by
    intro k
    rw [hlisting]
    exact filter_of_not_mem fun h' hp => hgone k h' hp
  refine h.undisturbed (firstHead_congr (firstPending_congr hsame) fun k h' hfirst => ?_) hheads
  rw [hlisting]
  exact if_neg (hgone k h' (firstPending_eq_some_iff.mp hfirst).1)

/-- A transaction that gets a pending place behind the first one. -/
theorem firstPending_of_lt {k : Nat} {h' : Hash P}
    (hpending : ∀ j, pool'.listing.pending s j =
      if j = k then some h' else pool.listing.pending s j)
    (hfirst : pool.firstPending s = some (n, hash)) (hlt : n < k) :
    pool'.firstPending s = some (n, hash) := by
  obtain ⟨hp, hmin⟩ := firstPending_eq_some_iff.mp hfirst
  refine firstPending_eq_some_iff.mpr ⟨?_, fun j h hj => ?_⟩
  · rw [hpending, if_neg (Nat.ne_of_lt hlt), hp]
  · rw [hpending] at hj
    split at hj
    next heq => omega
    next => exact hmin j h hj

/-- The first transaction of a sender stays the first when a later one goes. -/
theorem firstPending_of_removed {k : Nat}
    (hpending : ∀ j, pool'.listing.pending s j = if j = k then none else pool.listing.pending s j)
    (hfirst : pool.firstPending s = some (n, hash)) (hne : n ≠ k) :
    pool'.firstPending s = some (n, hash) := by
  obtain ⟨hp, hmin⟩ := firstPending_eq_some_iff.mp hfirst
  refine firstPending_eq_some_iff.mpr ⟨?_, fun j h hj => ?_⟩
  · rw [hpending, if_neg hne, hp]
  · rw [hpending] at hj
    split at hj
    next => cases hj
    next => exact hmin j h hj

/-! ## Removing -/

theorem Settled.drop (h : pool.Settled) {gone : List (Hash P)}
    (hlisting : pool'.listing = pool.listing.drop gone) : pool'.Settled := by
  intro s e he
  rw [hlisting] at he ⊢
  simp [Listing.drop, h s e he]

theorem Removed.headOk (hr : Removed pool hash pool') (h : pool.Indexed)
    (hheads : ∀ s, pool.HeadOk x s) (s : Address P) : pool'.HeadOk x s := by
  have hlisting := hr.listing h
  cases hr with
  | absent => exact hheads s
  | queued hv hq hinner =>
    refine (hheads s).drop hlisting (fun k h' hp hmem => ?_) fun _ _ => Iff.rfl
    exact h.consistent.not_queued hp (List.mem_singleton.mp hmem ▸ hq)
  | @pending v inner heads hv hp hinner hfirst hlater =>
    by_cases hs : s = v.tx.sender
    · subst hs
      by_cases hwas : pool.firstPending v.tx.sender = some (v.tx.nonce, hash)
      · refine .inl ((hheads _).renewed fun head _ => ?_)
        rw [firstHead_of_first hwas hv, Ne, some.injEq, eq_comm (a := v.head _)]
        exact hfirst hwas head
      -- a later transaction: the first one is another and stays
      obtain ⟨first, h', w, hfirst', hw, -⟩ := h.exists_firstHead hp
      have hne : first ≠ v.tx.nonce := by
        rintro rfl
        have hp' := (firstPending_eq_some_iff.mp hfirst').1
        exact hwas (some.inj (hp'.symm.trans hp) ▸ hfirst')
      refine (hheads _).undisturbed (firstHead_congr ?_ fun k h'' hk => ?_) fun _ _ => ?_
      · rw [hfirst']
        refine firstPending_of_removed (fun j => ?_) hfirst' hne
        refine (entry_restore_remove hinner).trans ?_
        simp only [true_and]
        rfl
      · rw [hlisting]
        refine if_neg fun hmem => ?_
        obtain rfl := List.mem_singleton.mp hmem
        have hp' := (firstPending_eq_some_iff.mp hk).1
        exact hwas ((h.consistent.pending_unique hp hp').2 ▸ hk)
      · rw [hlater hwas]
    · refine (hheads s).drop hlisting (fun k h' hp' hmem => hs ?_) fun head hsender => ?_
      · exact (h.consistent.pending_unique hp (List.mem_singleton.mp hmem ▸ hp')).1
      by_cases hwas : pool.firstPending v.tx.sender = some (v.tx.nonce, hash)
      · refine (hfirst hwas head).trans ⟨fun hmem => ?_, fun hmem => .inl ⟨hmem, ?_⟩⟩
        · refine (hmem.resolve_right fun hhead => hs ?_).1
          exact hsender.symm.trans (sender_of_firstHead hhead)
        · rintro rfl
          exact hs hsender.symm
      · rw [hlater hwas]

theorem Sound.remove (h : pool.Sound x) (hash : Hash P) : (pool.remove hash).Sound x where
  indexed := h.indexed.remove hash
  settled := h.settled.drop (h.indexed.listing_remove hash)
  heads := (h.indexed.removed hash).headOk h.indexed h.heads

theorem Sound.removeFinalized (h : pool.Sound x) (hashes : List (Hash P)) :
    (pool.removeFinalized hashes).Sound x := by
  induction hashes generalizing pool with
  | nil => exact h
  | cons hash hashes ih => exact ih (h.remove hash)

theorem Sound.evictLowestPending (h : pool.Sound x) : pool.evictLowestPending.Sound x := by
  rcases evictLowestPending_cases pool with ⟨heq, -⟩ | ⟨-, e, -, -, heq⟩
  · rw [heq]
    exact h
  · rw [heq]
    exact h.remove e.2

theorem sound_new (capacity : Nat) : (new capacity : TransactionPool P).Sound x where
  indexed := indexed_new capacity
  settled := fun s e he => nomatch he
  heads := fun s => .inl fun head _ => by simp [new, firstHead, firstPending]

/-! ## Adding -/

variable {tx : Transaction P} {now e : Nat}

theorem Sound.noted (h : pool.Sound x)
    (he : ∀ e', pool.listing.next s = some e' → e' = e) : (pool.noted s e).Sound x where
  indexed := h.indexed.noted fun e' he' => Nat.le_of_eq (he e' he')
  settled := by
    intro s' e' he'
    rw [listing_noted] at he' ⊢
    simp only [setNext] at he' ⊢
    split at he'
    next hs =>
      obtain rfl := some.inj he'
      -- a sender without an expected nonce has nothing queued
      refine eq_none_iff_forall_not_mem.mpr fun hash hq => ?_
      obtain ⟨e', hknown⟩ := h.indexed.consistent.queued_known _ _ _ hq
      have := h.settled s' e' hknown
      rw [he e' (hs ▸ hknown)] at this
      rw [this] at hq
      cases hq
    next => exact h.settled s' e' he'
  heads := fun s' => (h.heads s').undisturbed rfl fun _ _ => Iff.rfl

/-- The pool with a new head behind the first one, or as the first one. -/
theorem headOk_pended (h : pool.Indexed) (hheads : ∀ s, pool.HeadOk x s)
    (hadm : Admissible tx tx.nonce pool) (s : Address P) : (pool.pended tx now).HeadOk x s := by
  have hpending : ∀ s' k, (pool.pended tx now).listing.pending s' k =
      if s' = tx.sender ∧ k = tx.nonce then some tx.txHash else pool.listing.pending s' k := by
    intro s' k
    rw [listing_pended]
    rfl
  have hstored : ∀ h', (pool.pended tx now).listing.stored h' =
      if h' = tx.txHash then some (ValidatedTransaction.new tx now)
      else pool.listing.stored h' := by
    intro h'
    rw [listing_pended]
    rfl
  -- pending transactions are stored, the new one is not
  have hkept : ∀ k h', pool.firstPending s = some (k, h') →
      (pool.pended tx now).listing.stored h' = pool.listing.stored h' := by
    intro k h' hfirst
    obtain ⟨v, hv, -⟩ := h.consistent.pending_stored _ _ _ (firstPending_eq_some_iff.mp hfirst).1
    rw [hstored, if_neg]
    rintro rfl
    rw [hadm.fresh] at hv
    cases hv
  by_cases hs : s = tx.sender
  · subst hs
    cases hlookup : pool.pendingBySender.lookup tx.sender with
    | some inner =>
      have hheads' : (pool.pended tx now).senderHeads = pool.senderHeads := by
        simp [pended, addToPending, noted, hlookup]
      obtain ⟨k, hk⟩ : ∃ k h', pool.listing.pending tx.sender k = some h' := by
        by_contra hnone
        refine absurd (h.pending_tidy.lookup_eq_none_iff.mpr fun k => ?_) (by rw [hlookup]; simp)
        exact eq_none_iff_forall_not_mem.mpr fun h' hp => hnone ⟨k, h', hp⟩
      obtain ⟨h', hp⟩ := hk
      obtain ⟨first, h'', w, hfirst, -, -⟩ := h.exists_firstHead hp
      obtain ⟨e, he, hlt⟩ :=
        h.consistent.pending_below _ _ _ (firstPending_eq_some_iff.mp hfirst).1
      obtain rfl := some.inj (hadm.expected.symm.trans he)
      refine (hheads _).undisturbed (firstHead_congr ?_ hkept) fun _ _ => by rw [hheads']
      have hbehind : ∀ k, (pool.pended tx now).listing.pending tx.sender k =
          if k = tx.nonce then some tx.txHash else pool.listing.pending tx.sender k := by
        intro k
        simp [hpending]
      rw [hfirst]
      exact firstPending_of_lt hbehind hfirst hlt
    | none =>
      have hheads' : (pool.pended tx now).senderHeads =
          insert ((ValidatedTransaction.new tx now).head tx.sender) pool.senderHeads := by
        simp [pended, addToPending, noted, hlookup]
      have hnone : ∀ k, pool.listing.pending tx.sender k = none :=
        h.pending_tidy.lookup_eq_none_iff.mp hlookup
      have hfirst : (pool.pended tx now).firstPending tx.sender = some (tx.nonce, tx.txHash) := by
        refine firstPending_eq_some_iff.mpr ⟨by simp [hpending], fun k h' hk => ?_⟩
        rw [hpending, hnone] at hk
        split at hk
        next heq => exact Nat.le_of_eq heq.2.symm
        next => cases hk
      refine .inl ((hheads _).renewed fun head _ => ?_)
      rw [hheads', firstHead_of_none (firstPending_eq_none_iff.mpr hnone),
        firstHead_of_first hfirst (by rw [hstored, if_pos rfl])]
      simp [or_comm, eq_comm]
  · have hheads' : ∀ head : SenderHead P, head.sender = s →
        (head ∈ (pool.pended tx now).senderHeads ↔ head ∈ pool.senderHeads) := by
      intro head hsender
      unfold pended addToPending
      dsimp only
      split
      · rfl
      · simp only [noted, Finset.mem_insert, or_iff_right_iff_imp]
        rintro rfl
        exact absurd hsender.symm hs
    refine (hheads s).undisturbed (firstHead_congr (firstPending_congr fun k => ?_) hkept) hheads'
    simp [hpending, hs]

theorem Sound.replaced {old : Hash P} {existing : ValidatedTransaction P} (h : pool.Sound x)
    (hfresh : pool.listing.stored tx.txHash = none) (he : pool.listing.next tx.sender = some e)
    (hlt : tx.nonce < e) (hp : pool.listing.pending tx.sender tx.nonce = some old)
    (hold : pool.listing.stored old = some existing) :
    (pool.replaced tx now old existing).Sound x := by
  have hlisting : (pool.replaced tx now old existing).listing = _ := listing_replaced h.indexed hp
  have hc := h.indexed.consistent
  have hpending : ∀ s' k, (pool.replaced tx now old existing).listing.pending s' k =
      if s' = tx.sender ∧ k = tx.nonce then some tx.txHash else pool.listing.pending s' k :=
    fun s' k => entry_put _ _ _ _ _ _
  refine ⟨h.indexed.replaced hfresh he hlt hp, ?_, fun s => ?_⟩
  · intro s' e' he'
    rw [hlisting] at he' ⊢
    simp [addPending, drop, h.settled s' e' he']
  -- the other transactions keep their places
  have hkept : ∀ k h', pool.firstPending s = some (k, h') → h' ≠ old →
      (pool.replaced tx now old existing).listing.stored h' = pool.listing.stored h' := by
    intro k h' hfirst hne
    obtain ⟨v, hv, -⟩ := hc.pending_stored _ _ _ (firstPending_eq_some_iff.mp hfirst).1
    have hnew : h' ≠ tx.txHash := by
      rintro rfl
      rw [hfresh] at hv
      cases hv
    rw [hlisting]
    simp [addPending, drop, hnew, hne]
  by_cases hs : s = tx.sender
  · subst hs
    by_cases hwas : pool.firstPending tx.sender = some (tx.nonce, old)
    · have hbase : pool.getBaseNonce tx.sender = some tx.nonce := by simp [getBaseNonce, hwas]
      have hfirst : (pool.replaced tx now old existing).firstPending tx.sender =
          some (tx.nonce, tx.txHash) := by
        refine firstPending_eq_some_iff.mpr ⟨by simp [hpending], fun k h' hk => ?_⟩
        rw [hpending] at hk
        split at hk
        next heq => exact Nat.le_of_eq heq.2.symm
        next => exact (firstPending_eq_some_iff.mp hwas).2 k h' hk
      have hnew : (pool.replaced tx now old existing).listing.stored tx.txHash =
          some (ValidatedTransaction.new tx now) := by
        rw [hlisting]
        exact if_pos rfl
      refine .inl ((h.heads _).renewed fun head _ => ?_)
      rw [firstHead_of_first hfirst hnew, firstHead_of_first hwas hold]
      simp [TransactionPool.replaced, hbase, or_comm, and_comm, eq_comm]
    · obtain ⟨first, h', w, hfirst, -, -⟩ := h.indexed.exists_firstHead hp
      obtain ⟨hp', hmin⟩ := firstPending_eq_some_iff.mp hfirst
      have hne : first ≠ tx.nonce := by
        rintro rfl
        exact hwas (some.inj (hp'.symm.trans hp) ▸ hfirst)
      have hbase : pool.getBaseNonce tx.sender ≠ some tx.nonce := by
        simp [getBaseNonce, hfirst, hne]
      have hbehind : ∀ k, (pool.replaced tx now old existing).listing.pending tx.sender k =
          if k = tx.nonce then some tx.txHash else pool.listing.pending tx.sender k := by
        intro k
        simp [hpending]
      refine (h.heads _).undisturbed (firstHead_congr ?_ fun k h'' hk => hkept k h'' hk ?_)
        fun _ _ => by simp [TransactionPool.replaced, hbase]
      · rw [hfirst]
        exact firstPending_of_lt hbehind hfirst (Nat.lt_of_le_of_ne (hmin _ _ hp) hne)
      · rintro rfl
        have hk' := (firstPending_eq_some_iff.mp hk).1
        exact hwas ((hc.pending_unique hp hk').2 ▸ hk)
  · refine (h.heads s).undisturbed
      (firstHead_congr (firstPending_congr fun k => by simp [hpending, hs])
        fun k h' hk => hkept k h' hk ?_) fun head hsender => ?_
    · rintro rfl
      exact hs (hc.pending_unique hp (firstPending_eq_some_iff.mp hk).1).1
    have hold' : head ≠ existing.head tx.sender := by
      rintro rfl
      exact hs hsender.symm
    have hnew : head ≠ (ValidatedTransaction.new tx now).head tx.sender := by
      rintro rfl
      exact hs hsender.symm
    simp only [TransactionPool.replaced]
    split <;> simp [hold', hnew]

/-- Queueing a transaction and dropping the highest of the sender. -/
theorem Sound.enqueued (h : pool.Sound x) (hadm : Admissible tx e pool) (hlt : e < tx.nonce) :
    ((pool.enqueued tx now).enforceQueuedLimit tx.sender).Sound x := by
  have hqueued : (pool.enqueued tx now).Indexed :=
    h.indexed.enqueued hadm.fresh hadm.expected hadm.le hadm.free
  have htrim := hqueued.enforceQueuedLimit (AList.lookup_insert _)
  obtain ⟨gone, hgone, hlisting⟩ := htrim.listing
  refine ⟨htrim.indexed, Settled.drop ?_ hlisting, fun s => ?_⟩
  · intro s e' he'
    rw [listing_enqueued] at he' ⊢
    have he' : pool.listing.next s = some e' := he'
    simp only [addQueued]
    split
    next heq =>
      rw [heq.1, hadm.expected] at he'
      obtain rfl := some.inj he'
      omega
    next => exact h.settled s e' he'
  · have hmid : (pool.enqueued tx now).HeadOk x s := by
      refine (h.heads s).undisturbed (firstHead_congr rfl fun k h' hfirst => ?_) fun _ _ => Iff.rfl
      obtain ⟨v, hv, -⟩ :=
        h.indexed.consistent.pending_stored _ _ _ (firstPending_eq_some_iff.mp hfirst).1
      rw [listing_enqueued]
      refine if_neg ?_
      rintro rfl
      rw [hadm.fresh] at hv
      cases hv
    refine hmid.drop hlisting (fun k h' hp hmem => ?_) fun _ _ => by rw [htrim.heads]
    obtain ⟨n, hq⟩ := hgone h' hmem
    exact hqueued.consistent.not_queued hp hq

/-! ## Promoting -/

/-- What holds while the queued transactions of one sender are promoted. -/
structure Promoting (x : Prop) (s : Address P) (pool : TransactionPool P) : Prop where
  indexed : pool.Indexed
  settled : ∀ s' e, s' ≠ s → pool.listing.next s' = some e → pool.listing.queued s' e = none
  heads : ∀ s', pool.HeadOk x s'

theorem Promoting.sound (h : Promoting x s pool)
    (hend : pool.listing.queued s ((pool.listing.next s).getD 0) = none) : pool.Sound x := by
  refine ⟨h.indexed, fun s' e he => ?_, h.heads⟩
  by_cases hs : s' = s
  · subst hs
    simpa [he] using hend
  · exact h.settled s' e hs he

theorem Sound.pended (h : pool.Sound x) (hadm : Admissible tx tx.nonce pool) :
    Promoting x tx.sender (pool.pended tx now) where
  indexed := h.indexed.pended hadm.fresh hadm.expected hadm.free
  settled := by
    intro s' e' hs he'
    rw [listing_pended] at he' ⊢
    simp only [addPending, setNext, if_neg hs] at he' ⊢
    exact h.settled s' e' he'
  heads := headOk_pended h.indexed h.heads hadm

/-- A pass leaves the heads alone, which is right if the sender has pending
transactions. -/
theorem Promoting.promoted (h : Promoting x s pool)
    (hx : x ∨ ∃ k h', pool.listing.pending s k = some h') {inner : SortedMap (Hash P)}
    (hn : (pool.listing.next s).getD 0 = n) (hq : pool.listing.queued s n = some hash)
    (hinner : pool.queuedBySender.lookup s = some inner) :
    Promoting x s (pool.promoted s n hash inner) := by
  have hlisting : (pool.promoted s n hash inner).listing = _ := listing_promoted hinner
  have hnext : pool.listing.next s = some n := by
    obtain ⟨e, he⟩ := h.indexed.consistent.queued_known s n hash hq
    rw [he] at hn ⊢
    exact congrArg some hn
  refine ⟨h.indexed.promoted hinner hq hnext, fun s' e' hs he' => ?_, fun s' => ?_⟩
  · rw [hlisting] at he' ⊢
    simp only [promote, setNext, if_neg hs, if_neg fun h : s' = s ∧ e' = n => hs h.1]
      at he' ⊢
    exact h.settled s' e' hs he'
  · have hpending : ∀ k, (pool.promoted s n hash inner).listing.pending s' k =
        if s' = s ∧ k = n then some hash else pool.listing.pending s' k := by
      intro k
      rw [hlisting]
      rfl
    by_cases hs : s' = s
    · subst hs
      cases hfirst : pool.firstPending s' with
      | some first =>
        obtain ⟨e, he, hlt⟩ := h.indexed.consistent.pending_below _ _ _
          (firstPending_eq_some_iff.mp hfirst).1
        obtain rfl := some.inj (hnext.symm.trans he)
        have hbehind : ∀ k, (pool.promoted s' n hash inner).listing.pending s' k =
            if k = n then some hash else pool.listing.pending s' k := by
          intro k
          simp [hpending]
        refine (h.heads s').undisturbed (firstHead_congr ?_ fun _ _ _ => rfl) fun _ _ => Iff.rfl
        rw [hfirst]
        exact firstPending_of_lt hbehind hfirst hlt
      | none =>
        have hnone := firstPending_eq_none_iff.mp hfirst
        refine .inr ⟨hx.resolve_right ?_, fun head hmem hsender => ?_⟩
        · rintro ⟨k, h', hp⟩
          rw [hnone k] at hp
          cases hp
        · rcases h.heads s' with hh | ⟨-, hh⟩
          · have := (hh head hsender).mp hmem
            rw [firstHead_of_none hfirst] at this
            cases this
          · exact hh head hmem hsender
    · exact (h.heads s').undisturbed
        (firstHead_congr (firstPending_congr fun k => by simp [hpending, hs]) fun _ _ _ => rfl)
        fun _ _ => Iff.rfl

theorem Sound.advanced (h : pool.Sound x) (hlt : (pool.listing.next s).getD 0 < n) :
    Promoting x s (pool.advanced s n) := by
  obtain ⟨gone, hgone, heq⟩ := h.indexed.advanced_eq hlt
  obtain ⟨gone', hgone', hlisting⟩ := h.indexed.listing_advanced hlt
  have hheads : (pool.advanced s n).senderHeads = (pool.dropHead s).senderHeads := by
    rw [heq]
    rfl
  refine ⟨h.indexed.advanced hlt, fun s' e' hs he' => ?_, fun s' => ?_⟩
  · rw [hlisting] at he' ⊢
    simp only [setNext, drop, if_neg hs] at he' ⊢
    simp [h.settled s' e' he']
  by_cases hs : s' = s
  · subst hs
    -- nothing is pending any more, and the head has gone
    have hnone : ∀ k, (pool.advanced s' n).listing.pending s' k = none := by
      intro k
      rw [hlisting]
      refine eq_none_iff_forall_not_mem.mpr fun hash hmem => ?_
      obtain ⟨hp, hnot⟩ := filter_eq_some_iff.mp hmem
      exact of_decide_eq_true hnot ((hgone' hash).mpr ⟨k, hp⟩)
    refine .inl ((h.heads s').renewed fun head _ => ?_)
    rw [hheads, mem_dropHead, firstHead_of_none (firstPending_eq_none_iff.mpr hnone)]
    simp
  · have hkept : ∀ k h', pool.listing.pending s' k = some h' → h' ∉ gone' := by
      intro k h' hp hmem
      obtain ⟨k', hp'⟩ := (hgone' h').mp hmem
      exact hs (h.indexed.consistent.pending_unique hp' hp).1
    refine (h.heads s').undisturbed (firstHead_congr (firstPending_congr fun k => ?_)
      fun k h' hfirst => ?_) fun head hsender => ?_
    · rw [hlisting]
      exact filter_of_not_mem fun h' hp => hkept k h' hp
    · rw [hlisting]
      exact if_neg (hkept k h' (firstPending_eq_some_iff.mp hfirst).1)
    · rw [hheads, mem_dropHead, and_iff_left_iff_imp]
      exact fun _ hhead => hs (hsender.symm.trans (sender_of_firstHead hhead))

end TransactionPool

/-! ## The operations -/

section Operations

open Act

variable {x : Prop}

/-- `try_add` leaves the heads right. -/
theorem addRule_sound (x : Prop) (tx : Transaction P) (base now : Nat) :
    AddRule tx base now (Sound x) (Sound x)
      (fun pool => Promoting x tx.sender pool ∧
        ∃ k h, pool.listing.pending tx.sender k = some h) (Sound x) where
  indexed _ h := h.indexed
  stay _ h := h
  note pool h := h.noted fun e' he' => by rw [he', getD_some]
  replace _ _ _ _ h hfresh he hlt hp hold := h.replaced hfresh he hlt hp hold
  unqueue _ old h _ := h.remove old
  evict _ _ h _ _ := h.evictLowestPending
  room _ _ h _ _ := h
  pend pool h hadm := by
    refine ⟨h.pended hadm, tx.nonce, tx.txHash, ?_⟩
    rw [listing_pended]
    simp [addPending]
  promote pool n hash inner h hn hq hinner := by
    refine ⟨h.1.promoted (.inr h.2) hn hq hinner, n, hash, ?_⟩
    rw [listing_promoted hinner]
    simp [promote, setNext]
  settle _ h hend := h.1.sound hend
  enqueue _ _ h hadm hlt := h.enqueued hadm hlt

/-- `update_sender_nonce` leaves them right if it promotes nothing. -/
theorem updateSenderNonce_sound (x : Prop) (s : Address P) (n : Nat) :
    Spec (fun pool => pool.Sound x ∧
        (x ∨ ((pool.listing.next s).getD 0 < n → pool.listing.queued s n = none)))
      (updateSenderNonce s n) (fun _ => Sound x) (fun _ => False) fun _ => True := by
  refine updateSenderNonce_rule (M := fun pool => Promoting x s pool ∧
    (x ∨ pool.listing.queued s ((pool.listing.next s).getD 0) = none)) ?_ ?_ ?_ ?_
  · exact fun pool h => h.1
  · rintro pool ⟨h, hx⟩ hlt
    refine ⟨h.advanced hlt, hx.imp_right fun hnone => ?_⟩
    obtain ⟨gone, -, hlisting⟩ := h.indexed.listing_advanced hlt
    rw [hlisting]
    simp [setNext, drop, hnone hlt]
  · rintro pool k hash inner ⟨h, hx⟩ hk hq hinner
    have hx : x := by
      refine hx.resolve_right fun hnone => ?_
      rw [hk, hq] at hnone
      cases hnone
    exact ⟨h.promoted (.inl hx) hk hq hinner, .inl hx⟩
  · exact fun pool h hend => h.1.sound hend

end Operations

/-! ## Runs -/

/-- The public operations of the pool that change it. -/
inductive PoolOp (P : Params) where
  | tryAdd (tx : Transaction P) (base now : Nat)
  | remove (hash : Hash P)
  | removeFinalized (hashes : List (Hash P))
  | updateSenderNonce (sender : Address P) (nonce : Nat)
  | clear

/-- An operation on a pool. -/
def PoolOp.run : PoolOp P → PoolStep P Unit
  | .tryAdd tx base now => do
    let _ ← Minimmit.tryAdd tx base now
    return ()
  | .remove hash => Act.modify (·.remove hash)
  | .removeFinalized hashes => Act.modify (·.removeFinalized hashes)
  | .updateSenderNonce sender nonce => Minimmit.updateSenderNonce sender nonce
  | .clear => Act.modify TransactionPool.clear

/-- **Every operation comes to its end**, or a number overflows. -/
theorem PoolOp.run_ends (op : PoolOp P) : Never .exhausted op.run := by
  cases op with
  | tryAdd tx base now => exact never_bind (tryAdd_ends tx base now) fun _ => never_pure
  | remove hash => exact never_modify
  | removeFinalized hashes => exact never_modify
  | updateSenderNonce s n =>
    exact never_get_bind fun _ => never_ite never_pure
      (never_bind never_modify fun _ => never_bind never_modify fun _ =>
        promoteQueued_ends s)
  | clear => exact never_modify

/-- The pools that sequences of operations lead to from a new one, each
operation meeting the condition `C` on the pool it finds. -/
inductive PoolRun (C : PoolOp P → TransactionPool P → Prop) (capacity : Nat) :
    TransactionPool P → Prop
  | new : PoolRun C capacity (TransactionPool.new capacity)
  | step {pool pool' : TransactionPool P} {op : PoolOp P} (before : PoolRun C capacity pool)
      (cond : C op pool) (run : op.run pool = (.ok (), pool')) : PoolRun C capacity pool'

variable {C : PoolOp P → TransactionPool P → Prop} {capacity : Nat} {pool : TransactionPool P}

/-- What holds of a new pool and is kept by every operation holds in every
run. -/
theorem PoolRun.rule {I : TransactionPool P → Prop} (h : PoolRun C capacity pool)
    (new : I (TransactionPool.new capacity))
    (keep : ∀ op, Spec (fun pool => I pool ∧ C op pool) (PoolOp.run op) (fun _ => I)
      (fun _ => False) fun _ => True) : I pool := by
  induction h with
  | new => exact new
  | @step pool pool' op before cond run ih =>
    have := keep op pool ⟨ih, cond⟩
    rw [run] at this
    exact this

/-- `update_sender_nonce` does not find a transaction to promote: the sender
would have no head. -/
def HeadSafe : PoolOp P → TransactionPool P → Prop
  | .updateSenderNonce sender nonce, pool =>
    (pool.pendingNonces.lookup sender).getD 0 < nonce →
      (pool.queuedBySender.lookup sender).bind (·.get nonce) = none
  | _, _ => True

theorem PoolOp.run_sound (x : Prop) (op : PoolOp P) :
    Spec (fun pool => pool.Sound x ∧ (x ∨ HeadSafe op pool)) op.run (fun _ => Sound x)
      (fun _ => False) fun _ => True := by
  cases op with
  | tryAdd tx base now =>
    exact spec_bind ((addRule_sound x tx base now).tryAdd.weaken (fun _ h => h.1)
      fun _ _ h => h) fun _ => spec_pure fun _ h => h
  | remove hash => exact spec_modify fun pool h => h.1.remove hash
  | removeFinalized hashes => exact spec_modify fun pool h => h.1.removeFinalized hashes
  | updateSenderNonce sender nonce => exact updateSenderNonce_sound x sender nonce
  | clear => exact spec_modify fun pool _ => sound_new pool.capacity

/-- **What every pool is like.** -/
theorem PoolRun.sound (h : PoolRun C capacity pool) : pool.Sound True :=
  h.rule (sound_new capacity) fun op =>
    (op.run_sound True).weaken (fun _ h => ⟨h.1, .inl trivial⟩) fun _ _ h => h

theorem PoolRun.after (h : PoolRun C capacity pool) {op : PoolOp P} (cond : C op pool)
    (hok : (op.run pool).1.isOk = true) : PoolRun C capacity (op.run pool).2 := by
  refine .step h cond ?_
  obtain ⟨_, ho⟩ := Outcome.isOk_iff.mp hok
  exact Prod.ext ho rfl

/-! ## The representation -/

/-- The five maps of the pool say the same. -/
structure TransactionPool.Represented (pool : TransactionPool P) : Prop where
  stored_iff : ∀ hash, (pool.byHash.lookup hash).isSome ↔
    (∃ s n, pool.listing.pending s n = some hash) ∨ ∃ s n, pool.listing.queued s n = some hash
  disjoint : ∀ hash s n s' n', pool.listing.pending s n = some hash →
    pool.listing.queued s' n' ≠ some hash
  pending_place : ∀ s n hash, pool.listing.pending s n = some hash →
    ∃ v, pool.byHash.lookup hash = some v ∧ v.tx.sender = s ∧ v.tx.nonce = n
  queued_place : ∀ s n hash, pool.listing.queued s n = some hash →
    ∃ v, pool.byHash.lookup hash = some v ∧ v.tx.sender = s ∧ v.tx.nonce = n
  apart : ∀ s n, pool.listing.pending s n = none ∨ pool.listing.queued s n = none
  pending_nonempty : ∀ s inner, pool.pendingBySender.lookup s = some inner → inner.entries ≠ []
  queued_nonempty : ∀ s inner, pool.queuedBySender.lookup s = some inner → inner.entries ≠ []
  one_head : ∀ s n hash v, pool.firstPending s = some (n, hash) →
    pool.byHash.lookup hash = some v → ∀ head : SenderHead P,
      head ∈ pool.senderHeads ∧ head.sender = s ↔ head = ⟨v.tx.fee, v.receivedAt, s⟩
  no_head : ∀ s, pool.firstPending s = none → ∀ head ∈ pool.senderHeads, head.sender ≠ s

theorem TransactionPool.Sound.represented (h : pool.Sound False) : pool.Represented := by
  have hc := h.indexed.consistent
  have hheaded : ∀ s, pool.Headed s := fun s => (h.heads s).resolve_right fun hx => hx.1
  refine
    { stored_iff := fun hash => isSome_iff_exists.trans hc.stored_iff
      disjoint := fun _ _ _ _ _ hp => hc.not_queued hp
      pending_place := hc.pending_stored
      queued_place := hc.queued_stored
      apart := fun s n => ?_
      pending_nonempty := h.indexed.pending_tidy
      queued_nonempty := h.indexed.queued_tidy
      one_head := fun s n hash v hfirst hv head => ?_
      no_head := fun s hfirst head hmem hs => ?_ }
  · cases hp : pool.listing.pending s n with
    | none => exact .inl rfl
    | some hash => exact .inr (hc.apart s n hash hp)
  · have hhead : v.head s = ⟨v.tx.fee, v.receivedAt, s⟩ := by
      simp [ValidatedTransaction.head, (hc.stored_hash hash v hv).2]
    rw [← hhead]
    constructor
    · rintro ⟨hmem, hs⟩
      have := (hheaded s head hs).mp hmem
      rw [firstHead_of_first hfirst hv] at this
      exact (some.inj this).symm
    · rintro rfl
      exact ⟨(hheaded s _ rfl).mpr (firstHead_of_first hfirst hv), rfl⟩
  · have := (hheaded s head hs).mp hmem
    rw [firstHead_of_none hfirst] at this
    cases this

theorem TransactionPool.Represented.heads_nonempty {s : Address P} (h : pool.Represented)
    (hs : (pool.firstPending s).isSome) : pool.senderHeads ≠ ∅ := by
  obtain ⟨⟨n, hash⟩, hfirst⟩ := isSome_iff_exists.mp hs
  obtain ⟨v, hv, -⟩ := h.pending_place s n hash (firstPending_eq_some_iff.mp hfirst).1
  exact Finset.ne_empty_of_mem ((h.one_head s n hash v hfirst hv _).mpr rfl).1

/-- **The maps belong together** in every run in which `update_sender_nonce`
promotes nothing. -/
theorem representation_invariant {capacity : Nat} {pool : TransactionPool P}
    (h : PoolRun HeadSafe capacity pool) : pool.Represented := by
  have hsound : pool.Sound False := h.rule (sound_new capacity) fun op =>
    (op.run_sound False).weaken (fun _ h => ⟨h.1, .inr h.2⟩) fun _ _ h => h
  exact hsound.represented

/-- A transfer with a nonce. -/
def transferAt (nonce fee : Nat) : Transaction sampleParams :=
  signedTransaction (sampleAddress 1) (.transfer (sampleAddress 2) 10) nonce fee

/-- One transaction pending, one queued behind a gap. -/
def gapPool : TransactionPool sampleParams :=
  (PoolOp.run (.tryAdd (transferAt 5 1) 0 0)
    (PoolOp.run (.tryAdd (transferAt 0 1) 0 0) (TransactionPool.new 10)).2).2

theorem gapPool_run {C : PoolOp sampleParams → TransactionPool sampleParams → Prop}
    (hC : ∀ tx pool, C (.tryAdd tx 0 0) pool) : PoolRun C 10 gapPool :=
  (PoolRun.new.after (hC _ _) (by decide +kernel)).after (hC _ _) (by decide +kernel)

/-- An update to the nonce 2 drops the first one and promotes nothing. -/
theorem representation_after_update :
    (PoolOp.run (.updateSenderNonce (sampleAddress 1) 2) gapPool).2.Represented := by
  have hrun : PoolRun HeadSafe 10 gapPool := gapPool_run fun _ _ => trivial
  exact representation_invariant (hrun.after (fun _ => by decide +kernel) (by decide +kernel))

/-- An update to the nonce 5 promotes the queued transaction and enters no
head for it. -/
theorem promoted_without_head :
    ∃ pool : TransactionPool sampleParams, PoolRun (fun _ _ => True) 10 pool ∧
      (pool.firstPending (sampleAddress 1)).isSome ∧ pool.senderHeads = ∅ ∧
        ¬ pool.Represented := by
  have hrun : PoolRun (fun _ _ => True) 10 gapPool := gapPool_run fun _ _ => trivial
  have hupdated : PoolRun (fun _ _ => True) 10
      (PoolOp.run (.updateSenderNonce (sampleAddress 1) 5) gapPool).2 :=
    hrun.after trivial (by decide +kernel)
  have hsome : ((PoolOp.run (.updateSenderNonce (sampleAddress 1) 5) gapPool).2.firstPending
    (sampleAddress 1)).isSome = true := by decide +kernel
  have hnone : (PoolOp.run (.updateSenderNonce (sampleAddress 1) 5) gapPool).2.senderHeads = ∅ := by
    decide +kernel
  exact ⟨_, hupdated, hsome, hnone, fun h => h.heads_nonempty hsome hnone⟩

end Minimmit
