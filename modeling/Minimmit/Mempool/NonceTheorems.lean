/-
Minimmit.Mempool.NonceTheorems — which nonces are pending and expected.

`try_add` keeps the pending nonces of a sender a run without gaps that ends
before the expected nonce, with the queued ones behind it, also when it evicts
a head or replaces a transaction. Two other operations do not look at it:
`remove` takes any transaction out of a run, and `update_sender_nonce` leaves
queued transactions below the new nonce (`pending_runs`). The expected nonce is
never taken back, so a sender whose transaction was evicted is refused
(`next_transaction_admitted`).
-/
import Minimmit.Mempool.HeadTheorems

namespace Minimmit

open Minimmit.Library Act TransactionPool Option List

variable {P : Params} {pool : TransactionPool P}

/-! ## Runs of nonces in a listing -/

namespace Listing

variable {l : Listing P} {s : Address P} {n e : Nat} {h : Hash P} {v : ValidatedTransaction P}
  {mid : Address P → Prop}

/-- From each pending nonce on all are pending, up to the expected one. -/
def Upward (l : Listing P) : Prop :=
  ∀ s e n h, l.next s = some e → l.pending s n = some h →
    ∀ k, n ≤ k → k < e → ∃ h', l.pending s k = some h'

/-- One more transaction at the end of a run. -/
theorem Upward.extend (hl : l.Upward) {l' : Listing P} (he : l.next s = some n)
    (hpending : ∀ s' k, l'.pending s' k = if s' = s ∧ k = n then some h else l.pending s' k)
    (hnext : ∀ s', l'.next s' = if s' = s then some (n + 1) else l.next s') : l'.Upward := by
  intro s' e' n' h' he' hp k hnk hke
  rw [hnext] at he'
  rw [hpending] at hp ⊢
  by_cases hs : s' = s
  · subst hs
    rw [if_pos rfl] at he'
    obtain rfl := some.inj he'
    by_cases hk : k = n
    · exact ⟨h, by simp [hk]⟩
    · rw [if_neg (by omega)] at hp
      obtain ⟨h'', hk'⟩ := hl s' n n' h' he hp k hnk (by omega)
      exact ⟨h'', by simp [hk, hk']⟩
  · simp only [hs, false_and, if_false] at he' hp ⊢
    exact hl s' e' n' h' he' hp k hnk hke

/-- The pending nonces are runs and the queued ones are behind the expected
one. While the senders `mid` have their transactions promoted the expected one
may be queued. -/
structure GapFree (mid : Address P → Prop) (l : Listing P) : Prop where
  upward : l.Upward
  queued_above : ∀ s e n h, l.next s = some e → l.queued s n = some h →
    e < n ∨ mid s ∧ e = n

/-- No sender is being promoted. -/
abbrev Steady (l : Listing P) : Prop := l.GapFree fun _ => False

theorem GapFree.drop (hl : l.GapFree mid) {gone : List (Hash P)}
    (hgone : ∀ s k h, l.pending s k = some h → h ∈ gone →
      ∀ n h', l.pending s n = some h' → h' ∉ gone → k < n) : (l.drop gone).GapFree mid where
  upward := by
    intro s e n h he hp k hnk hke
    obtain ⟨hp, hkept⟩ := filter_eq_some_iff.mp hp
    obtain ⟨h', hk⟩ := hl.upward s e n h he hp k hnk hke
    refine ⟨h', filter_eq_some_iff.mpr ⟨hk, decide_eq_true fun hmem => ?_⟩⟩
    have := hgone s k h' hk hmem n h hp (of_decide_eq_true hkept)
    omega
  queued_above := fun s e n h he hq =>
    hl.queued_above s e n h he (filter_eq_some_iff.mp hq).1

/-- A first nonce for a sender without transactions. -/
theorem GapFree.setNext (hc : l.Consistent) (hl : l.GapFree mid)
    (he : ∀ e', l.next s = some e' → e' = e) : (l.setNext s e).GapFree mid where
  upward := by
    intro s' e' n h he' hp k hnk hke
    obtain ⟨known, hknown, -⟩ := hc.pending_below s' n h hp
    refine hl.upward s' known n h hknown hp k hnk ?_
    simp only [Listing.setNext] at he'
    split at he'
    next hs =>
      obtain rfl := some.inj he'
      rw [he known (hs ▸ hknown)]
      exact hke
    next =>
      obtain rfl := some.inj (hknown.symm.trans he')
      exact hke
  queued_above := by
    intro s' e' n h he' hq
    obtain ⟨known, hknown⟩ := hc.queued_known s' n h hq
    have := hl.queued_above s' known n h hknown hq
    simp only [Listing.setNext] at he'
    split at he'
    next hs =>
      obtain rfl := some.inj he'
      rwa [he known (hs ▸ hknown)] at this
    next =>
      obtain rfl := some.inj (hknown.symm.trans he')
      exact this

/-- The place of a pending transaction taken by another. -/
theorem GapFree.replace (hl : l.GapFree mid) {old : Hash P} (hc : l.Consistent)
    (hp : l.pending s n = some old) : ((l.drop [old]).addPending s n h v).GapFree mid where
  upward := by
    have hsame : ∀ s' k, (∃ h', ((l.drop [old]).addPending s n h v).pending s' k = some h') ↔
        ∃ h', l.pending s' k = some h' := by
      intro s' k
      simp only [Listing.addPending]
      split
      next heq =>
        obtain ⟨rfl, rfl⟩ := heq
        simp [hp]
      next hne =>
        rw [show (l.drop [old]).pending s' k = l.pending s' k from
          filter_of_ne fun hp' => hne (hc.pending_unique hp hp')]
    intro s' e' n' h' he' hp' k hnk hke
    obtain ⟨h'', hp''⟩ := (hsame s' n').mp ⟨h', hp'⟩
    exact (hsame s' k).mpr (hl.upward s' e' n' h'' he' hp'' k hnk hke)
  queued_above := fun s' e' n' h' he' hq =>
    hl.queued_above s' e' n' h' he' (filter_eq_some_iff.mp hq).1

/-- The expected transaction made pending. -/
theorem Steady.addPending (hl : l.Steady) (he : l.next s = some n) :
    ((l.setNext s (n + 1)).addPending s n h v).GapFree (· = s) where
  upward := hl.upward.extend he (fun _ _ => rfl) fun _ => rfl
  queued_above := by
    intro s' e' n' h' he' hq
    simp only [Listing.setNext, Listing.addPending] at he' hq
    by_cases hs : s' = s
    · subst hs
      rw [if_pos rfl] at he'
      obtain rfl := some.inj he'
      have := hl.queued_above s' n n' h' he hq
      simp only [false_and, or_false] at this
      exact (Nat.lt_or_eq_of_le this).imp_right fun heq => ⟨rfl, heq⟩
    · rw [if_neg hs] at he'
      exact .inl ((hl.queued_above s' e' n' h' he' hq).resolve_right fun hx => hx.1)

/-- The expected transaction promoted. -/
theorem GapFree.promote (hl : l.GapFree (· = s)) (he : l.next s = some n) :
    ((l.promote s n h).setNext s (n + 1)).GapFree (· = s) where
  upward := hl.upward.extend he (fun _ _ => rfl) fun _ => rfl
  queued_above := by
    intro s' e' n' h' he' hq
    simp only [Listing.setNext, Listing.promote] at he' hq
    by_cases hs : s' = s
    · subst hs
      rw [if_pos rfl] at he'
      obtain rfl := some.inj he'
      split at hq
      next => cases hq
      next hne =>
        have := hl.queued_above s' n n' h' he hq
        simp only [true_and] at hne this ⊢
        omega
    · simp only [hs, false_and, if_false] at he' hq
      exact hl.queued_above s' e' n' h' he' hq

theorem GapFree.steady (hl : l.GapFree (· = s)) (hend : l.queued s ((l.next s).getD 0) = none) :
    l.Steady where
  upward := hl.upward
  queued_above := by
    intro s' e' n' h' he' hq
    refine (hl.queued_above s' e' n' h' he' hq).imp_right fun ⟨hs, heq⟩ => ?_
    subst hs heq
    rw [he', getD_some, hq] at hend
    cases hend

/-- The pending transactions of a sender gone and a nonce expected that no
queued one is below. -/
theorem Steady.advance (hl : l.Steady) (hc : l.Consistent) {gone : List (Hash P)}
    (hgone : ∀ h, h ∈ gone ↔ ∃ k, l.pending s k = some h)
    (habove : ∀ k h, l.queued s k = some h → n ≤ k) :
    ((l.drop gone).setNext s n).GapFree (· = s) := by
  have hdropped : (l.drop gone).Steady := by
    refine hl.drop fun s' k h hk hmem m h' hm hkept => (hkept ?_).elim
    obtain ⟨k', hk'⟩ := (hgone h).mp hmem
    obtain ⟨rfl, -⟩ := hc.pending_unique hk' hk
    exact (hgone h').mpr ⟨m, hm⟩
  constructor
  · intro s' e' n' h' he' hp k hnk hke
    by_cases hs : s' = s
    · subst hs
      obtain ⟨hp, hkept⟩ := filter_eq_some_iff.mp hp
      exact absurd ((hgone h').mpr ⟨n', hp⟩) (of_decide_eq_true hkept)
    · simp only [Listing.setNext, if_neg hs] at he'
      exact hdropped.upward s' e' n' h' he' hp k hnk hke
  · intro s' e' n' h' he' hq
    simp only [Listing.setNext] at he'
    split at he'
    next hs =>
      subst hs
      obtain rfl := some.inj he'
      have := habove n' h' (filter_eq_some_iff.mp hq).1
      exact (Nat.lt_or_eq_of_le this).imp_right fun heq => ⟨rfl, heq⟩
    next => exact .inl ((hdropped.queued_above s' e' n' h' he' hq).resolve_right fun hx => hx.1)

/-- A transaction queued behind the expected nonce. -/
theorem Steady.addQueued (hl : l.Steady) (he : l.next s = some e) (hlt : e < n) :
    (l.addQueued s n h v).Steady where
  upward := hl.upward
  queued_above := by
    intro s' e' n' h' he' hq
    simp only [Listing.addQueued] at he' hq
    split at hq
    next heq =>
      obtain ⟨rfl, rfl⟩ := heq
      exact .inl (some.inj (he.symm.trans he') ▸ hlt)
    next => exact hl.queued_above s' e' n' h' he' hq

end Listing

/-! ## The operations -/

section Operations

open Act

variable {pool : TransactionPool P} {s : Address P} {n : Nat} {hash : Hash P}

theorem steady_new (capacity : Nat) : (new capacity : TransactionPool P).listing.Steady where
  upward := fun _ _ _ _ he => nomatch he
  queued_above := fun _ _ _ _ he => nomatch he

/-- Removing the first pending transaction of a sender, or a queued one. -/
theorem steady_remove (h : pool.Indexed) (hl : pool.listing.Steady)
    (hfirst : ∀ s n, pool.listing.pending s n = some hash →
      pool.firstPending s = some (n, hash)) : (pool.remove hash).listing.Steady := by
  rw [h.listing_remove hash]
  refine hl.drop fun s k h' hk hmem n h'' hn hkept => ?_
  obtain rfl := mem_singleton.mp hmem
  have hle := (firstPending_eq_some_iff.mp (hfirst s k hk)).2 n h'' hn
  refine Nat.lt_of_le_of_ne hle ?_
  rintro rfl
  exact hkept (mem_singleton.mpr (some.inj (hn.symm.trans hk)))

theorem steady_evictLowestPending (h : pool.Indexed) (hl : pool.listing.Steady) :
    pool.evictLowestPending.listing.Steady := by
  rcases evictLowestPending_cases pool with ⟨heq, -⟩ | ⟨head, e, -, hfirst, heq⟩
  · rw [heq]
    exact hl
  rw [heq]
  refine steady_remove h hl fun s n hp => ?_
  obtain ⟨k, hash⟩ := e
  have hk := (firstPending_eq_some_iff.mp hfirst).1
  obtain ⟨rfl, rfl⟩ := h.consistent.pending_unique hk hp
  exact hfirst

/-- `try_add` keeps the runs. -/
theorem addRule_steady (tx : Transaction P) (base now : Nat) :
    AddRule tx base now (fun pool => pool.Sound True ∧ pool.listing.Steady)
      (fun pool => pool.Sound True ∧ pool.listing.Steady)
      (fun pool => (Promoting True tx.sender pool ∧
        ∃ k h, pool.listing.pending tx.sender k = some h) ∧
          pool.listing.GapFree (· = tx.sender))
      fun pool => pool.Sound True ∧ pool.listing.Steady := by
  have sound := addRule_sound True tx base now
  constructor
  case indexed => exact fun _ h => h.1.indexed
  case stay => exact fun _ h => h
  case note =>
    intro pool h
    refine ⟨sound.note pool h.1, ?_⟩
    rw [listing_noted]
    exact h.2.setNext h.1.indexed.consistent fun e' he' => by rw [he', getD_some]
  case replace =>
    intro pool e old existing h hfresh he hlt hp hold
    refine ⟨sound.replace pool e old existing h.1 hfresh he hlt hp hold, ?_⟩
    rw [listing_replaced h.1.indexed hp]
    exact h.2.replace h.1.indexed.consistent hp
  case unqueue =>
    intro pool old h hq
    refine ⟨sound.unqueue pool old h.1 hq, steady_remove h.1.indexed h.2 fun s n hp => ?_⟩
    exact absurd hq (h.1.indexed.consistent.not_queued hp)
  case evict =>
    intro pool e h hadm hfull
    exact ⟨sound.evict pool e h.1 hadm hfull, steady_evictLowestPending h.1.indexed h.2⟩
  case room => exact fun _ _ h _ _ => h
  case pend =>
    intro pool h hadm
    refine ⟨sound.pend pool h.1 hadm, ?_⟩
    rw [listing_pended]
    exact h.2.addPending hadm.expected
  case promote =>
    intro pool n hash inner h hn hq hinner
    refine ⟨sound.promote pool n hash inner h.1 hn hq hinner, ?_⟩
    obtain ⟨e, he⟩ := h.1.1.indexed.consistent.queued_known _ _ _ hq
    rw [he] at hn
    rw [listing_promoted hinner]
    exact h.2.promote (hn ▸ he)
  case settle =>
    intro pool h hend
    exact ⟨sound.settle pool h.1 hend, h.2.steady hend⟩
  case enqueue =>
    intro pool e h hadm hlt
    refine ⟨sound.enqueue pool e h.1 hadm hlt, ?_⟩
    have hqueued : (pool.enqueued tx now).Indexed :=
      h.1.indexed.enqueued hadm.fresh hadm.expected hadm.le hadm.free
    obtain ⟨gone, hgone, hlisting⟩ := (hqueued.enforceQueuedLimit (AList.lookup_insert _)).listing
    rw [hlisting]
    refine Listing.GapFree.drop ?_ fun s k h' hk hmem => ?_
    · rw [listing_enqueued]
      exact h.2.addQueued hadm.expected hlt
    · obtain ⟨n, hq⟩ := hgone h' hmem
      exact absurd hq (hqueued.consistent.not_queued hk)

/-- `update_sender_nonce` keeps them if nothing is queued below the nonce. -/
theorem updateSenderNonce_steady (s : Address P) (n : Nat) :
    Spec (fun pool => (pool.Sound True ∧ pool.listing.Steady) ∧
        ((pool.listing.next s).getD 0 < n → ∀ k h, pool.listing.queued s k = some h → n ≤ k))
      (updateSenderNonce s n) (fun _ pool => pool.Sound True ∧ pool.listing.Steady)
      (fun _ => False) fun _ => True := by
  refine updateSenderNonce_rule (M := fun pool =>
    Promoting True s pool ∧ pool.listing.GapFree (· = s)) ?_ ?_ ?_ ?_
  · exact fun pool h => h.1
  · rintro pool ⟨⟨h, hl⟩, habove⟩ hlt
    refine ⟨h.advanced hlt, ?_⟩
    obtain ⟨gone, hgone, hlisting⟩ := h.indexed.listing_advanced hlt
    rw [hlisting]
    exact hl.advance h.indexed.consistent hgone (habove hlt)
  · rintro pool k hash inner ⟨h, hl⟩ hk hq hinner
    refine ⟨h.promoted (.inl trivial) hk hq hinner, ?_⟩
    obtain ⟨e, he⟩ := h.indexed.consistent.queued_known _ _ _ hq
    rw [he] at hk
    rw [listing_promoted hinner]
    exact hl.promote (hk ▸ he)
  · exact fun pool h hend => ⟨h.1.sound hend, h.2.steady hend⟩

end Operations

/-! ## Runs of the pool -/

/-- The pending nonces of each sender are consecutive and end before the
expected one, and the queued ones are above it. -/
structure TransactionPool.PendingRuns (pool : TransactionPool P) : Prop where
  consecutive : ∀ s n hash, pool.listing.pending s n = some hash →
    ∃ first e, pool.pendingNonces.lookup s = some e ∧ first < e ∧
      ∀ k, (∃ h, pool.listing.pending s k = some h) ↔ first ≤ k ∧ k < e
  queued_above : ∀ s n hash, pool.listing.queued s n = some hash →
    ∃ e, pool.pendingNonces.lookup s = some e ∧ e < n

theorem pendingRuns_of_steady (h : pool.Indexed) (hl : pool.listing.Steady) : pool.PendingRuns where
  consecutive := by
    intro s n hash hp
    obtain ⟨first, h', -, hfirst, -⟩ := h.exists_firstHead hp
    obtain ⟨hp', hmin⟩ := firstPending_eq_some_iff.mp hfirst
    obtain ⟨e, he, hlt⟩ := h.consistent.pending_below s first h' hp'
    refine ⟨first, e, he, hlt, fun k => ⟨fun ⟨h'', hk⟩ => ⟨hmin k h'' hk, ?_⟩, fun hk => ?_⟩⟩
    · obtain ⟨e', he', hlt'⟩ := h.consistent.pending_below s k h'' hk
      exact some.inj (he'.symm.trans he) ▸ hlt'
    · exact hl.upward s e first h' he hp' k hk.1 hk.2
  queued_above := by
    intro s n hash hq
    obtain ⟨e, he⟩ := h.consistent.queued_known s n hash hq
    exact ⟨e, he, (hl.queued_above s e n hash he hq).resolve_right fun hx => hx.1⟩

/-- If the hash is pending, it is the first one of its sender. -/
def TransactionPool.RemovesFirst (pool : TransactionPool P) (hash : Hash P) : Prop :=
  ∀ s n, pool.listing.pending s n = some hash → pool.firstPending s = some (n, hash)

/-- The same for a list of hashes, removed one after the other. -/
def TransactionPool.RemovesFirsts : List (Hash P) → TransactionPool P → Prop
  | [], _ => True
  | hash :: hashes, pool => pool.RemovesFirst hash ∧ RemovesFirsts hashes (pool.remove hash)

/-- Pending transactions are removed from the front, and nothing is queued
below the nonce of an update. -/
def GapSafe : PoolOp P → TransactionPool P → Prop
  | .remove hash, pool => pool.RemovesFirst hash
  | .removeFinalized hashes, pool => RemovesFirsts hashes pool
  | .updateSenderNonce s n, pool => (pool.pendingNonces.lookup s).getD 0 < n →
    ∀ k hash, pool.listing.queued s k = some hash → n ≤ k
  | _, _ => True

theorem steady_removeFinalized (h : pool.Indexed) (hl : pool.listing.Steady)
    {hashes : List (Hash P)} (hfirst : RemovesFirsts hashes pool) :
    (pool.removeFinalized hashes).listing.Steady := by
  induction hashes generalizing pool with
  | nil => exact hl
  | cons hash hashes ih => exact ih (h.remove hash) (steady_remove h hl hfirst.1) hfirst.2

theorem PoolOp.run_steady (op : PoolOp P) :
    Spec (fun pool => (pool.Sound True ∧ pool.listing.Steady) ∧ GapSafe op pool) op.run
      (fun _ pool => pool.Sound True ∧ pool.listing.Steady) (fun _ => False) fun _ => True := by
  cases op with
  | tryAdd tx base now =>
    exact spec_bind ((addRule_steady tx base now).tryAdd.weaken (fun _ h => h.1)
      fun _ _ h => h) fun _ => spec_pure fun _ h => h
  | remove hash =>
    refine spec_modify fun pool h => ⟨h.1.1.remove hash, ?_⟩
    exact steady_remove h.1.1.indexed h.1.2 h.2
  | removeFinalized hashes =>
    refine spec_modify fun pool h => ⟨h.1.1.removeFinalized hashes, ?_⟩
    exact steady_removeFinalized h.1.1.indexed h.1.2 h.2
  | updateSenderNonce s n => exact updateSenderNonce_steady s n
  | clear => exact spec_modify fun pool _ => ⟨sound_new _, steady_new _⟩

/-- **The pending nonces are runs** in every run that removes pending
transactions from the front and updates nonces only up to the queued ones. -/
theorem pending_runs {capacity : Nat} {pool : TransactionPool P}
    (h : PoolRun GapSafe capacity pool) : pool.PendingRuns := by
  obtain ⟨hsound, hl⟩ : pool.Sound True ∧ pool.listing.Steady :=
    h.rule ⟨sound_new capacity, steady_new capacity⟩ fun op => op.run_steady
  exact pendingRuns_of_steady hsound.indexed hl

theorem PoolRun.removeFinalized {C : PoolOp P → TransactionPool P → Prop} {capacity : Nat}
    (h : PoolRun C capacity pool) (hashes : List (Hash P))
    (cond : C (.removeFinalized hashes) pool) : PoolRun C capacity (pool.removeFinalized hashes) :=
  .step h cond rfl

theorem mem_keys_of_queued {s : Address P} {k : Nat} {hash : Hash P}
    (hq : pool.listing.queued s k = some hash) :
    k ∈ ((pool.queuedBySender.lookup s).getD ∅).keys := by
  have hget := (NestedMap.entry_eq_get pool.queuedBySender s k).symm.trans hq
  exact mem_map.mpr ⟨_, SortedMap.get_eq_some_iff.mp hget, rfl⟩

/-- After an update to the nonce 5 of the queued transaction it is the only
pending one. -/
theorem pending_runs_after_update :
    (PoolOp.run (.updateSenderNonce (sampleAddress 1) 5) gapPool).2.PendingRuns := by
  have hrun : PoolRun GapSafe 10 gapPool := gapPool_run fun _ _ => trivial
  refine pending_runs (hrun.after (fun _ k hash hq => ?_) (by decide +kernel))
  have hkeys : ((gapPool.queuedBySender.lookup (sampleAddress 1)).getD ∅).keys = [5] := by
    decide +kernel
  have hmem := mem_keys_of_queued hq
  rw [hkeys, List.mem_singleton] at hmem
  exact hmem.ge

/-- Three pending transactions of one sender. -/
def threePending : TransactionPool sampleParams :=
  (PoolOp.run (.tryAdd (transferAt 2 1) 0 0) (PoolOp.run (.tryAdd (transferAt 1 1) 0 0)
    (PoolOp.run (.tryAdd (transferAt 0 1) 0 0) (TransactionPool.new 10)).2).2).2

/-- The second of three is finalized, or an update goes past a queued nonce. -/
theorem broken_runs :
    (PoolRun (fun _ _ => True) 10
        (threePending.removeFinalized [(transferAt 1 1).txHash]) ∧
      ¬ (threePending.removeFinalized [(transferAt 1 1).txHash]).PendingRuns) ∧
    (PoolRun (fun _ _ => True) 10
        (PoolOp.run (.updateSenderNonce (sampleAddress 1) 6) gapPool).2 ∧
      ¬ (PoolOp.run (.updateSenderNonce (sampleAddress 1) 6) gapPool).2.PendingRuns) := by
  let pending := (threePending.removeFinalized [(transferAt 1 1).txHash]).listing.pending
    (sampleAddress 1)
  let updated := (PoolOp.run (.updateSenderNonce (sampleAddress 1) 6) gapPool).2
  have hthree : PoolRun (fun _ _ => True) 10 threePending :=
    ((PoolRun.new.after trivial (by decide +kernel)).after trivial
      (by decide +kernel)).after trivial (by decide +kernel)
  have hgap : PoolRun (fun _ _ => True) 10 gapPool := gapPool_run fun _ _ => trivial
  have hremoved : PoolRun (fun _ _ => True) 10
      (threePending.removeFinalized [(transferAt 1 1).txHash]) :=
    hthree.removeFinalized _ trivial
  refine ⟨⟨hremoved, fun h => ?_⟩, hgap.after trivial (by decide +kernel), fun h => ?_⟩
  · have hfirst : (pending 0).isSome := by decide +kernel
    have hgone : (pending 1).isNone := by decide +kernel
    have hlast : (pending 2).isSome := by decide +kernel
    obtain ⟨h₀, hp₀⟩ := Option.isSome_iff_exists.mp hfirst
    obtain ⟨h₂, hp₂⟩ := Option.isSome_iff_exists.mp hlast
    obtain ⟨first, e, -, -, hall⟩ := h.consecutive (sampleAddress 1) 0 h₀ hp₀
    have hle := ((hall 0).mp ⟨h₀, hp₀⟩).1
    have hlt := ((hall 2).mp ⟨h₂, hp₂⟩).2
    obtain ⟨h₁, hp₁⟩ := (hall 1).mpr ⟨by omega, by omega⟩
    have hp₁ : pending 1 = some h₁ := hp₁
    rw [hp₁] at hgone
    cases hgone
  · have hexpected : updated.pendingNonces.lookup (sampleAddress 1) = some 6 := by decide +kernel
    have hqueued : (updated.listing.queued (sampleAddress 1) 5).isSome := by decide +kernel
    obtain ⟨hash, hq⟩ := Option.isSome_iff_exists.mp hqueued
    obtain ⟨e, he, hlt⟩ := h.queued_above (sampleAddress 1) 5 hash hq
    obtain rfl := Option.some.inj (hexpected.symm.trans he)
    omega

/-! ## The next transaction of a sender -/

section Admission

open Act

variable {pool : TransactionPool P} {tx : Transaction P}

/-- Nothing of a sender is listed if none of its transactions is stored. -/
theorem TransactionPool.Indexed.unlisted (h : pool.Indexed) {s : Address P}
    (hnone : ∀ hash v, pool.byHash.lookup hash = some v → v.tx.sender ≠ s) :
    pool.pendingBySender.lookup s = none ∧ pool.queuedBySender.lookup s = none := by
  constructor
  · refine h.pending_tidy.lookup_eq_none_iff.mpr fun n => ?_
    refine eq_none_iff_forall_not_mem.mpr fun hash hp => ?_
    obtain ⟨v, hv, hs, -⟩ := h.consistent.pending_stored s n hash hp
    exact hnone hash v hv hs
  · refine h.queued_tidy.lookup_eq_none_iff.mpr fun n => ?_
    refine eq_none_iff_forall_not_mem.mpr fun hash hq => ?_
    obtain ⟨v, hv, hs, -⟩ := h.consistent.queued_stored s n hash hq
    exact hnone hash v hv hs

theorem promoteQueued_of_none {s : Address P} (h : pool.queuedBySender.lookup s = none) :
    promoteQueued s pool = (.ok (), pool) := by
  simp [promoteQueued, promoteQueuedPasses, h, takeQueued]

theorem storeTransaction_of_none (hq : pool.queuedBySender.lookup tx.sender = none) (e now : Nat) :
    (storeTransaction tx e now pool).1 =
      if tx.nonce = e then (if e + 1 < u64Size then .ok .addedPending else .panic)
      else .ok .addedQueued := by
  have hqueued : ∀ (pool : TransactionPool P) n h v,
      (pool.addToPending tx.sender n h v).queuedBySender = pool.queuedBySender := by
    intro pool n h v
    unfold addToPending
    dsimp only
    split <;> rfl
  by_cases hn : tx.nonce = e
  · by_cases hlt : e + 1 < u64Size
    · simp [storeTransaction, nonceSucc, hn, hlt, promoteQueued_of_none, hqueued, hq]
    · simp [storeTransaction, nonceSucc, hn, hlt]
  · simp [storeTransaction, hn]

theorem admitTransaction_of_room (hroom : pool.len < pool.capacity) (e now : Nat) :
    admitTransaction tx e now pool = storeTransaction tx e now pool := by
  simp [admitTransaction, Nat.not_le.mpr hroom]

/-- `try_add` for a sender without transactions in a pool with room. -/
theorem tryAdd_of_unlisted (hfresh : pool.byHash.lookup tx.txHash = none)
    (hp : pool.pendingBySender.lookup tx.sender = none)
    (hq : pool.queuedBySender.lookup tx.sender = none) (hroom : pool.len < pool.capacity)
    {base e : Nat} (he : (pool.pendingNonces.lookup tx.sender).getD base = e) (now : Nat) :
    (tryAdd tx base now pool).1 = if tx.nonce < e then .ok .rejected
      else if tx.nonce = e then (if e + 1 < u64Size then .ok .addedPending else .panic)
      else .ok .addedQueued := by
  have hfree : pool.queuedAt tx.sender tx.nonce = none := by simp [queuedAt, hq]
  unfold tryAdd
  simp only [bind_run, get_run, hfresh, isSome_none, Bool.false_eq_true, if_false, modify_run,
    hfree, he]
  by_cases hlt : tx.nonce < e
  · simp [hlt, tryReplacePending, hp]
  have hroom' : (pool.noted tx.sender e).len < (pool.noted tx.sender e).capacity := hroom
  have hq' : (pool.noted tx.sender e).queuedBySender.lookup tx.sender = none := hq
  have hstored := storeTransaction_of_none hq' e now
  rw [← admitTransaction_of_room hroom'] at hstored
  simp only [hlt, if_false]
  exact hstored

end Admission

/-- **The next transaction of a sender without transactions is admitted** if
and only if the pool expects no other nonce of it. -/
theorem next_transaction_admitted {C : PoolOp P → TransactionPool P → Prop} {capacity : Nat}
    {pool : TransactionPool P} (h : PoolRun C capacity pool) {tx : Transaction P}
    (hsender : ∀ hash v, pool.byHash.lookup hash = some v → v.tx.sender ≠ tx.sender)
    (hfresh : pool.byHash.lookup tx.txHash = none) (hroom : pool.len < pool.capacity)
    (now : Nat) :
    (tryAdd tx tx.nonce now pool).1 = .ok .addedPending ↔
      (pool.pendingNonces.lookup tx.sender = none ∨
        pool.pendingNonces.lookup tx.sender = some tx.nonce) ∧ tx.nonce + 1 < u64Size := by
  obtain ⟨hp, hq⟩ := h.sound.indexed.unlisted hsender
  rw [tryAdd_of_unlisted hfresh hp hq hroom rfl now]
  cases hnext : pool.pendingNonces.lookup tx.sender with
  | none => simp
  | some e =>
    simp only [Option.getD_some, reduceCtorEq, false_or, Option.some.injEq]
    split
    next hlt =>
      simp only [Outcome.ok.injEq, reduceCtorEq, false_iff]
      omega
    next =>
      split
      next heq => simp [heq]
      next hne => simp [Ne.symm hne]

/-- A transaction of another sender. -/
def otherTransfer : Transaction sampleParams :=
  signedTransaction (sampleAddress 2) (.transfer (sampleAddress 1) 10) 0 1

/-- A pool with a transaction of the second account admits the first one of
the first account. -/
theorem first_transaction_admitted :
    (tryAdd (transferAt 0 1) 0 0
      (PoolOp.run (.tryAdd otherTransfer 0 0) (TransactionPool.new 10)).2).1 =
        .ok .addedPending := by
  have hrun : PoolRun (fun _ _ => True) 10
      (PoolOp.run (.tryAdd otherTransfer 0 0) (TransactionPool.new 10)).2 :=
    PoolRun.new.after trivial (by decide +kernel)
  have hothers : ∀ e ∈ (PoolOp.run (.tryAdd otherTransfer 0 0) (TransactionPool.new 10)).2.byHash.entries,
      e.2.tx.sender ≠ (transferAt 0 1).sender := by decide +kernel
  refine (next_transaction_admitted hrun (fun hash v hv => ?_) (by decide +kernel)
    (by decide +kernel) 0).mpr ⟨.inl (by decide +kernel), by decide⟩
  exact hothers ⟨hash, v⟩ (AList.mem_lookup_iff.mp hv)

/-- Every submission comes with this chain nonce of its sender. -/
def SuppliesBase (b : Nat) : PoolOp P → TransactionPool P → Prop
  | .tryAdd _ base _, _ => base = b
  | .updateSenderNonce _ _, _ => False
  | _, _ => True

/-- A transaction with this nonce was submitted and removed again. -/
def emptied (nonce : Nat) : TransactionPool sampleParams :=
  (PoolOp.run (.remove (transferAt nonce 1).txHash)
    (PoolOp.run (.tryAdd (transferAt nonce 1) 0 0) (TransactionPool.new 10)).2).2

/-- A sender is refused after its transaction was removed, and left waiting
after one with a higher nonce was. -/
theorem locked_out :
    (PoolRun (SuppliesBase 0) 10 (emptied 0) ∧ (emptied 0).len = 0 ∧
      (tryAdd (transferAt 0 2) 0 0 (emptied 0)).1 = .ok .rejected) ∧
    (PoolRun (SuppliesBase 0) 10 (emptied 5) ∧ (emptied 5).len = 0 ∧
      (tryAdd (transferAt 1 1) 1 0 (emptied 5)).1 = .ok .addedQueued) := by
  have hrun : ∀ nonce ∈ [0, 5], PoolRun (SuppliesBase 0) 10 (emptied nonce) := by
    intro nonce hnonce
    have hok : ∀ nonce ∈ [0, 5], (PoolOp.run (.tryAdd (transferAt nonce 1) 0 0)
      (TransactionPool.new 10 : TransactionPool sampleParams)).1.isOk = true := by decide +kernel
    have hadded : PoolRun (SuppliesBase 0) 10
        (PoolOp.run (.tryAdd (transferAt nonce 1) 0 0) (TransactionPool.new 10)).2 :=
      PoolRun.new.after rfl (hok nonce hnonce)
    exact hadded.after trivial rfl
  exact ⟨⟨hrun 0 (by simp), by decide +kernel, by decide +kernel⟩,
    hrun 5 (by simp), by decide +kernel, by decide +kernel⟩

end Minimmit
