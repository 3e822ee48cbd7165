/-
Minimmit.Mempool.Pool — the transaction pool (mempool/pool.rs).

Transactions are stored by hash and listed by sender and nonce, in one map
for those that can be executed and in another for those behind a gap. Of each
sender with pending transactions one head, with the fee and the time of
arrival of the first of them, is in an ordered set; the proposal builder
takes the heads from there. The operations are those of the source, in its
order: several of them trust that the maps belong together.

An `Instant` is a number, given to `tryAdd` as the time of the call. The
counters for statistics are left out. A `u64` that overflows is a panic.
-/
import Mathlib.Data.Finset.Max
import Mathlib.Data.List.Lex
import Mathlib.Data.Prod.Lex
import Minimmit.Validation.Validator

namespace Minimmit

open Minimmit.Library

/-- `ValidatedTransaction` -/
structure ValidatedTransaction (P : Params) where
  tx : Transaction P
  receivedAt : Nat
  priority : Nat

/-- `SenderHead`: the first pending transaction of a sender. -/
structure SenderHead (P : Params) where
  fee : Nat
  receivedAt : Nat
  sender : Address P

variable {P : Params}

instance : DecidableEq (SenderHead P) := fun x y =>
  decidable_of_iff (x.fee = y.fee ∧ x.receivedAt = y.receivedAt ∧ x.sender = y.sender) (by
    cases x
    cases y
    simp)

/-- What `Ord for SenderHead` compares: the higher fee first, then the earlier
arrival, then the bytes of the sender. -/
def SenderHead.key (h : SenderHead P) : Natᵒᵈ ×ₗ (Nat ×ₗ List Nat) :=
  toLex (OrderDual.toDual h.fee,
    toLex (h.receivedAt, (P.ed25519.addressBytes h.sender).map UInt8.toNat))

theorem SenderHead.key_injective : Function.Injective (SenderHead.key (P := P)) := by
  intro x y h
  have hpair : (x.fee, x.receivedAt, (P.ed25519.addressBytes x.sender).map UInt8.toNat) =
      (y.fee, y.receivedAt, (P.ed25519.addressBytes y.sender).map UInt8.toNat) := h
  obtain ⟨hfee, hrest⟩ := Prod.mk.inj hpair
  obtain ⟨htime, hbytes⟩ := Prod.mk.inj hrest
  have hsender := P.ed25519.addressBytes_injective
    (List.map_injective_iff.mpr (fun _ _ => UInt8.toNat_inj.mp) hbytes)
  cases x
  cases y
  simp_all

instance : LinearOrder (SenderHead P) := LinearOrder.lift' SenderHead.key SenderHead.key_injective

/-- `BTreeSet::first` of the heads. -/
def SenderHead.first (heads : Finset (SenderHead P)) : Option (SenderHead P) :=
  if h : heads.Nonempty then some (heads.min' h) else none

/-- `BTreeSet::last` of the heads. -/
def SenderHead.last (heads : Finset (SenderHead P)) : Option (SenderHead P) :=
  if h : heads.Nonempty then some (heads.max' h) else none

/-- `AddResult` -/
inductive AddResult where
  | addedPending
  | addedQueued
  | rejected
  deriving DecidableEq, Repr

/-- `TransactionPool` -/
structure TransactionPool (P : Params) where
  byHash : AList (fun _ : Hash P => ValidatedTransaction P)
  pendingBySender : AList (fun _ : Address P => SortedMap (Hash P))
  senderHeads : Finset (SenderHead P)
  queuedBySender : AList (fun _ : Address P => SortedMap (Hash P))
  pendingNonces : AList (fun _ : Address P => Nat)
  capacity : Nat

/-- A step of the pool. -/
abbrev PoolStep (P : Params) (α : Type) : Type := Act (TransactionPool P) Empty α

/-- `MAX_QUEUED_PER_SENDER` -/
def maxQueuedPerSender : Nat := 64

/-- `MIN_FEE_BUMP_PERCENT` -/
def minFeeBumpPercent : Nat := 110

namespace ValidatedTransaction

/-- `ValidatedTransaction::new_with_received_at` -/
def new (tx : Transaction P) (receivedAt : Nat) : ValidatedTransaction P :=
  { tx, receivedAt, priority := tx.fee }

/-- The head a transaction is, listed under a sender. -/
def head (v : ValidatedTransaction P) (sender : Address P) : SenderHead P :=
  { fee := v.priority, receivedAt := v.receivedAt, sender }

end ValidatedTransaction

namespace TransactionPool

/-- `TransactionPool::new` -/
def new (capacity : Nat) : TransactionPool P :=
  { byHash := ∅, pendingBySender := ∅, senderHeads := ∅, queuedBySender := ∅, pendingNonces := ∅,
    capacity }

variable (pool : TransactionPool P)

/-- `first_key_value` of the pending transactions of a sender. -/
def firstPending (sender : Address P) : Option (Nat × Hash P) :=
  (pool.pendingBySender.lookup sender).bind fun pending => pending.entries.head?

/-- `get_base_nonce` -/
def getBaseNonce (sender : Address P) : Option Nat :=
  (pool.firstPending sender).map (·.1)

/-- `len` -/
def len : Nat := pool.byHash.entries.length

/-- `pending_len` -/
def pendingLen : Nat :=
  (pool.pendingBySender.entries.map fun e => e.2.entries.length).sum

/-- The head that a pending transaction with this hash makes, if it is
stored. -/
def headAt (hash : Hash P) (sender : Address P) :
    Option (SenderHead P) :=
  (pool.byHash.lookup hash).map (·.head sender)

/-- The heads with the one of the sender's first pending transaction added, if
it has one that is stored. -/
def insertFirstHead (sender : Address P) : TransactionPool P :=
  match (pool.firstPending sender).bind fun e => pool.headAt e.2 sender with
  | some head => { pool with senderHeads := insert head pool.senderHeads }
  | none => pool

/-! ## Removing -/

/-- The part of `remove` for a transaction that is listed as pending; `none`
if it is not. -/
def removePending (v : ValidatedTransaction P) :
    Option (TransactionPool P) :=
  match pool.pendingBySender.lookup v.tx.sender with
  | none => none
  | some pending =>
    if (pending.get v.tx.nonce).isSome then
      let wasHead := pending.entries.head?.map (·.1) = some v.tx.nonce
      let rest := pending.remove v.tx.nonce
      if rest.entries.isEmpty then
        some { pool with
          pendingBySender := pool.pendingBySender.erase v.tx.sender
          senderHeads := pool.senderHeads.erase (v.head v.tx.sender) }
      else
        let pool := { pool with pendingBySender := pool.pendingBySender.insert v.tx.sender rest }
        if wasHead then
          some (insertFirstHead
            { pool with senderHeads := pool.senderHeads.erase (v.head v.tx.sender) } v.tx.sender)
        else some pool
    else none

/-- The part of `remove` for a transaction that is listed as queued. -/
def removeQueued (v : ValidatedTransaction P) : TransactionPool P :=
  match pool.queuedBySender.lookup v.tx.sender with
  | none => pool
  | some queued =>
    if (queued.get v.tx.nonce).isSome then
      let rest := queued.remove v.tx.nonce
      if rest.entries.isEmpty then
        { pool with queuedBySender := pool.queuedBySender.erase v.tx.sender }
      else { pool with queuedBySender := pool.queuedBySender.insert v.tx.sender rest }
    else pool

/-- `remove`; the transaction it returns is the one `byHash` had. -/
def remove (hash : Hash P) : TransactionPool P :=
  match pool.byHash.lookup hash with
  | none => pool
  | some v =>
    let pool := { pool with byHash := pool.byHash.erase hash }
    match pool.removePending v with
    | some pool => pool
    | none => pool.removeQueued v

/-- `remove_finalized` -/
def removeFinalized (hashes : List (Hash P)) : TransactionPool P :=
  hashes.foldl remove pool

/-- `min_pending_fee` -/
def minPendingFee : Option Nat :=
  (SenderHead.last pool.senderHeads).map (·.fee)

/-- `evict_lowest_pending` -/
def evictLowestPending : TransactionPool P :=
  match SenderHead.last pool.senderHeads with
  | none => pool
  | some lowest =>
    match pool.firstPending lowest.sender with
    | none => pool
    | some e => pool.remove e.2

/-- `clear` -/
def clear : TransactionPool P := new pool.capacity

/-! ## Listing -/

/-- `entry(sender).or_default().insert(nonce, hash)` -/
def listed (m : AList (fun _ : Address P => SortedMap (Hash P))) (sender : Address P)
    (nonce : Nat) (hash : Hash P) : AList (fun _ : Address P => SortedMap (Hash P)) :=
  m.insert sender (((m.lookup sender).getD ∅).insert nonce hash)

/-- `add_to_pending`: the first pending transaction of a sender is its
head. -/
def addToPending (sender : Address P) (nonce : Nat) (hash : Hash P)
    (v : ValidatedTransaction P) : TransactionPool P :=
  let hadPending := (pool.pendingBySender.lookup sender).isSome
  let pool := { pool with pendingBySender := listed pool.pendingBySender sender nonce hash }
  if hadPending then pool
  else { pool with senderHeads := insert (v.head sender) pool.senderHeads }

/-- `add_to_queued` -/
def addToQueued (sender : Address P) (nonce : Nat) (hash : Hash P) :
    TransactionPool P :=
  { pool with queuedBySender := listed pool.queuedBySender sender nonce hash }

/-- One pass of `enforce_queued_limit`: the highest nonce goes. -/
def dropHighestQueued (sender : Address P) : TransactionPool P :=
  match pool.queuedBySender.lookup sender with
  | none => pool
  | some queued =>
    match queued.entries.getLast? with
    | none => pool
    | some (nonce, hash) =>
      { pool with
        queuedBySender := pool.queuedBySender.insert sender (queued.remove nonce)
        byHash := pool.byHash.erase hash }

/-- `enforce_queued_limit` -/
def enforceQueuedLimit (sender : Address P) : TransactionPool P :=
  match pool.queuedBySender.lookup sender with
  | none => pool
  | some queued =>
    (fun pool => dropHighestQueued pool sender)^[queued.entries.length - maxQueuedPerSender] pool

/-- `queued_txs.remove(&nonce)` with the clean-up of an empty map. -/
def takeQueued (sender : Address P) (nonce : Nat) :
    Option (Hash P × TransactionPool P) :=
  match pool.queuedBySender.lookup sender with
  | none => none
  | some queued =>
    match queued.get nonce with
    | none => none
    | some hash =>
      let rest := queued.remove nonce
      some (hash, { pool with
        queuedBySender :=
          if rest.entries.isEmpty then pool.queuedBySender.erase sender
          else pool.queuedBySender.insert sender rest })

end TransactionPool

open TransactionPool

/-- `nonce + 1` -/
def nonceSucc (nonce : Nat) : PoolStep P Nat :=
  if nonce + 1 < u64Size then return nonce + 1 else Act.panic

/-- `promote_queued`: each pass takes one transaction out of the queue, so as
many passes as it has, and one to find that there is no next one, are
enough. -/
def promoteQueuedPasses (sender : Address P) : Nat → PoolStep P Unit
  | 0 => Act.exhausted
  | passes + 1 => do
    let pool ← Act.get
    let expected := (pool.pendingNonces.lookup sender).getD 0
    match pool.takeQueued sender expected with
    | none => return ()
    | some (hash, pool) =>
      Act.modify fun _ =>
        { pool with pendingBySender := listed pool.pendingBySender sender expected hash }
      let next ← nonceSucc expected
      Act.modify fun pool => { pool with pendingNonces := pool.pendingNonces.insert sender next }
      promoteQueuedPasses sender passes

/-- `promote_queued` -/
def promoteQueued (sender : Address P) : PoolStep P Unit := do
  let pool ← Act.get
  promoteQueuedPasses sender
    (((pool.queuedBySender.lookup sender).getD ∅).entries.length + 1)

/-- `existing_fee * MIN_FEE_BUMP_PERCENT / 100` -/
def minReplacementFee (existingFee : Nat) : PoolStep P Nat :=
  if existingFee * minFeeBumpPercent < u64Size then
    return existingFee * minFeeBumpPercent / 100
  else Act.panic

/-- `try_replace_pending`: `none` if the nonce is not pending, otherwise
whether the new transaction takes the place of the old one. -/
def tryReplacePending (sender : Address P) (nonce : Nat) (newTx : Transaction P) (now : Nat) :
    PoolStep P (Option Bool) := do
  let pool ← Act.get
  match (pool.pendingBySender.lookup sender).bind (·.get nonce) with
  | none => return none
  | some existingHash =>
    match pool.byHash.lookup existingHash with
    | none => return none
    | some existing =>
      let minFee ← minReplacementFee existing.priority
      if newTx.fee < minFee then
        return some false
      else
        let isHead := pool.getBaseNonce sender = some nonce
        Act.modify fun pool =>
          { pool with
            byHash := pool.byHash.erase existingHash
            pendingBySender := listed pool.pendingBySender sender nonce newTx.txHash
            senderHeads :=
              if isHead then
                insert ((ValidatedTransaction.new newTx now).head sender)
                  (pool.senderHeads.erase (existing.head sender))
              else pool.senderHeads }
        return some true

/-- The queued transaction of the same sender and nonce that `try_add` would
replace. -/
def TransactionPool.queuedAt (pool : TransactionPool P) (sender : Address P) (nonce : Nat) :
    Option (Hash P × ValidatedTransaction P) :=
  ((pool.queuedBySender.lookup sender).bind (·.get nonce)).bind fun hash =>
    (pool.byHash.lookup hash).map fun v => (hash, v)

/-- The rest of `try_add`, for a transaction that is not refused: store and
list it. -/
def storeTransaction (tx : Transaction P) (expectedNonce now : Nat) : PoolStep P AddResult := do
  let v := ValidatedTransaction.new tx now
  Act.modify fun pool => { pool with byHash := pool.byHash.insert tx.txHash v }
  if tx.nonce = expectedNonce then
    Act.modify fun pool => pool.addToPending tx.sender tx.nonce tx.txHash v
    let next ← nonceSucc expectedNonce
    Act.modify fun pool => { pool with pendingNonces := pool.pendingNonces.insert tx.sender next }
    promoteQueued tx.sender
    return .addedPending
  else
    Act.modify fun pool =>
      (pool.addToQueued tx.sender tx.nonce tx.txHash).enforceQueuedLimit tx.sender
    return .addedQueued

/-- The capacity check of `try_add` and what follows. -/
def admitTransaction (tx : Transaction P) (expectedNonce now : Nat) : PoolStep P AddResult := do
  let pool ← Act.get
  if pool.capacity ≤ pool.len then
    if pool.minPendingFee.any fun minFee => decide (tx.fee ≤ minFee) then
      return .rejected
    else
      Act.modify evictLowestPending
      storeTransaction tx expectedNonce now
  else storeTransaction tx expectedNonce now

/-- `try_add` -/
def tryAdd (tx : Transaction P) (senderBaseNonce now : Nat) : PoolStep P AddResult := do
  let pool ← Act.get
  if (pool.byHash.lookup tx.txHash).isSome then
    return .rejected
  else
    let expectedNonce := (pool.pendingNonces.lookup tx.sender).getD senderBaseNonce
    Act.modify fun pool =>
      { pool with pendingNonces := pool.pendingNonces.insert tx.sender expectedNonce }
    if tx.nonce < expectedNonce then
      match ← tryReplacePending tx.sender tx.nonce tx now with
      | some true =>
        Act.modify fun pool =>
          { pool with byHash := pool.byHash.insert tx.txHash (ValidatedTransaction.new tx now) }
        return .addedPending
      | _ => return .rejected
    else
      match pool.queuedAt tx.sender tx.nonce with
      | some (existingHash, existing) =>
        let minFee ← minReplacementFee existing.priority
        if minFee ≤ tx.fee then
          Act.modify fun pool => pool.remove existingHash
          admitTransaction tx expectedNonce now
        else return .rejected
      | none => admitTransaction tx expectedNonce now

/-- The first part of `update_sender_nonce`: the head of the sender goes. -/
def TransactionPool.dropHead (pool : TransactionPool P) (sender : Address P) :
    TransactionPool P :=
  match (pool.firstPending sender).bind fun e => pool.headAt e.2 sender with
  | some head => { pool with senderHeads := pool.senderHeads.erase head }
  | none => pool

/-- The second part: pending transactions below the new nonce go, the first
one that is left is the head. -/
def TransactionPool.dropStale (pool : TransactionPool P) (sender : Address P)
    (newBaseNonce : Nat) : TransactionPool P :=
  match pool.pendingBySender.lookup sender with
  | none => pool
  | some pending =>
    let stale := pending.retain fun nonce _ => nonce < newBaseNonce
    let toKeep := pending.retain fun nonce _ => newBaseNonce ≤ nonce
    let pool := { pool with
      byHash := stale.values.foldl (fun m hash => m.erase hash) pool.byHash
      pendingBySender := pool.pendingBySender.erase sender }
    if toKeep.entries.isEmpty then pool
    else insertFirstHead
      { pool with pendingBySender := pool.pendingBySender.insert sender toKeep } sender

/-- `update_sender_nonce` -/
def updateSenderNonce (sender : Address P) (newBaseNonce : Nat) : PoolStep P Unit := do
  let pool ← Act.get
  if newBaseNonce ≤ (pool.pendingNonces.lookup sender).getD 0 then
    return ()
  else
    Act.modify fun pool => (pool.dropHead sender).dropStale sender newBaseNonce
    Act.modify fun pool =>
      { pool with pendingNonces := pool.pendingNonces.insert sender newBaseNonce }
    promoteQueued sender

/-! ## Iteration -/

/-- `PendingIter` -/
structure PendingIter (P : Params) where
  heap : Finset (SenderHead P)
  currentNonces : AList (fun _ : Address P => Nat)

namespace PendingIter

/-- `PendingIter::new` -/
def new (pool : TransactionPool P) : PendingIter P where
  heap := pool.senderHeads
  currentNonces :=
    (pool.pendingBySender.entries.filterMap fun e =>
      e.2.entries.head?.map fun first => (⟨e.1, first.1⟩ : Sigma fun _ : Address P => Nat)).toAList

/-- `Iterator::next`. `none` ends the iteration, also when a head has no
transaction behind it. -/
def next (pool : TransactionPool P) (it : PendingIter P) :
    Outcome Empty (Option (Transaction P × PendingIter P)) :=
  match SenderHead.first it.heap with
  | none => .ok none
  | some head =>
    match it.currentNonces.lookup head.sender with
    | none => .ok none
    | some nonce =>
      match pool.pendingBySender.lookup head.sender with
      | none => .ok none
      | some pending =>
        match (pending.get nonce).bind fun hash => pool.byHash.lookup hash with
        | none => .ok none
        | some v =>
          if nonce + 1 < u64Size then
            let heap := it.heap.erase head
            .ok (some (v.tx,
              { heap :=
                  match (pending.get (nonce + 1)).bind fun hash => pool.headAt hash head.sender with
                  | some following => insert following heap
                  | none => heap
                currentNonces := it.currentNonces.insert head.sender (nonce + 1) }))
          else .panic

end PendingIter

end Minimmit
