/-
Minimmit.Validation.PendingState — state diffs and the pending state
(validation/types.rs, validation/pending_state.rs).

The writer of the consensus thread holds the diffs of M-notarized blocks
ordered by view and applies them to the ACCOUNTS table when a view is
finalized; `publishSnapshot` is the moment the reader of the validator sees
a change. The reader's database is the live one, only the diffs are a
snapshot.

Amounts are `u64` values: a cast from a signed delta keeps the low 64 bits
(`asU64`), additions to a balance saturate.
-/
import Minimmit.Library.SortedMap
import Minimmit.Storage.Store

namespace Minimmit

open Minimmit.Library

/-- `x as u64` of a non-negative `i128`. -/
def asU64 (x : Int) : Nat := x.toNat % u64Size

/-- `saturating_add` on `u64`. -/
def saturatingAdd (a b : Nat) : Nat := min (a + b) (u64Size - 1)

structure AccountUpdate where
  balanceDelta : Int
  newNonce : Nat

structure NewAccount (P : Params) where
  address : Address P
  initialBalance : Nat

/-- The effect of a validated block on the accounts. -/
structure StateDiff (P : Params) where
  updates : AList (fun _ : Address P => AccountUpdate)
  createdAccounts : List (NewAccount P)
  totalFees : Nat

variable {P : Params}

namespace StateDiff

/-- `StateDiff::new` -/
def new : StateDiff P := { updates := ∅, createdAccounts := [], totalFees := 0 }

/-- `add_balance_change`: deltas of one account add up, the nonce is the
last one. -/
def addBalanceChange (d : StateDiff P) (address : Address P) (delta : Int) (newNonce : Nat) :
    StateDiff P :=
  let update : AccountUpdate := match d.updates.lookup address with
    | some u => { balanceDelta := u.balanceDelta + delta, newNonce }
    | none => { balanceDelta := delta, newNonce }
  { d with updates := d.updates.insert address update }

/-- `add_created_account` -/
def addCreatedAccount (d : StateDiff P) (address : Address P) (initialBalance : Nat) :
    StateDiff P :=
  { d with createdAccounts := d.createdAccounts ++ [{ address, initialBalance }] }

end StateDiff

/-! ## Applying a diff -/

/-- One entry of `created_accounts`: addresses that are no public key are
skipped. -/
def applyCreated (s : Store P) (created : NewAccount P) : Store P :=
  if P.ed25519.isPublicKey created.address then
    s.putAccount created.address { balance := created.initialBalance, nonce := 0 }
  else s

/-- The balance after a delta, saturating in both directions. -/
def addDelta (balance : Nat) (delta : Int) : Nat :=
  if 0 ≤ delta then saturatingAdd balance (asU64 delta) else balance - asU64 (-delta)

/-- One entry of `updates`. -/
def applyUpdate (s : Store P) (entry : Sigma fun _ : Address P => AccountUpdate) : Store P :=
  if P.ed25519.isPublicKey entry.1 then
    match s.getAccount entry.1 with
    | some account =>
      s.putAccount entry.1
        { balance := addDelta account.balance entry.2.balanceDelta, nonce := entry.2.newNonce }
    | none =>
      if 0 < entry.2.balanceDelta then
        s.putAccount entry.1
          { balance := asU64 entry.2.balanceDelta, nonce := entry.2.newNonce }
      else s
  else s

/-- `apply_diff_to_db`: created accounts first, then the updates in the
iteration order of the map. -/
def applyDiffToDb (s : Store P) (diff : StateDiff P) : Store P :=
  (P.hashOrder.apply 0 _ diff.updates.entries).foldl applyUpdate
    (diff.createdAccounts.foldl applyCreated s)

/-! ## The writer -/

/-- `PendingStateWriter` with the snapshot it last published. -/
structure PendingStateWriter (P : Params) where
  published : SortedMap (StateDiff P)
  pendingDiffs : SortedMap (StateDiff P)
  lastFinalizedView : Nat
  store : Store P

namespace PendingStateWriter

/-- `PendingStateWriter::new` -/
def new (store : Store P) (lastFinalizedView : Nat) : PendingStateWriter P :=
  { published := ∅, pendingDiffs := ∅, lastFinalizedView, store }

variable (w : PendingStateWriter P)

/-- `publish_snapshot` -/
def publishSnapshot : PendingStateWriter P :=
  { w with published := w.pendingDiffs }

/-- `add_m_notarized_diff`: ignored at or below the last finalized view. -/
def addMNotarizedDiff (view : Nat) (diff : StateDiff P) :
    PendingStateWriter P :=
  if w.lastFinalizedView < view then
    publishSnapshot { w with pendingDiffs := w.pendingDiffs.insert view diff }
  else w

/-- The diffs `finalize_up_to` pops, in order. -/
def diffsUpTo (view : Nat) : List (Nat × StateDiff P) :=
  w.pendingDiffs.entries.takeWhile fun e => e.1 ≤ view

/-- `finalize_up_to`: pop the diffs of views up to `view` in order, apply
each to the database, publish what is left. -/
def finalizeUpTo (view : Nat) : PendingStateWriter P :=
  publishSnapshot
    { w with
      pendingDiffs := w.pendingDiffs.retain fun v _ => view < v
      lastFinalizedView := max w.lastFinalizedView view
      store := (w.diffsUpTo view).foldl (fun s e => applyDiffToDb s e.2) w.store }

/-- `remove_nullified_view` -/
def removeNullifiedView (view : Nat) : PendingStateWriter P :=
  if (w.pendingDiffs.get view).isSome then
    publishSnapshot { w with pendingDiffs := w.pendingDiffs.remove view }
  else w

/-- A database write through the writer. -/
def onStore (f : Store P → Store P) : PendingStateWriter P :=
  { w with store := f w.store }

end PendingStateWriter

/-! ## The reader -/

/-- `AccountState` of an account that exists. -/
structure AccountState where
  balance : Nat
  nonce : Nat
  deriving DecidableEq, Repr

/-- One pending diff on top of what the account was before it. -/
def overlayDiff (address : Address P) (state : Option AccountState) (diff : StateDiff P) :
    Option AccountState :=
  let state := match diff.createdAccounts.find? (·.address == address) with
    | some created => some { balance := created.initialBalance, nonce := 0 }
    | none => state
  match diff.updates.lookup address with
  | none => state
  | some update =>
    match state with
    | some s => some { balance := addDelta s.balance update.balanceDelta, nonce := update.newNonce }
    | none =>
      if 0 < update.balanceDelta then
        some { balance := asU64 update.balanceDelta, nonce := update.newNonce }
      else none

/-- `PendingStateSnapshot::fetch_from_db` -/
def fetchFromDb (s : Store P) (address : Address P) : Option AccountState :=
  if P.ed25519.isPublicKey address then
    (s.getAccount address).map fun a => { balance := a.balance, nonce := a.nonce }
  else none

/-- `PendingStateSnapshot::get_account`: the finalized account with the
published diffs on top, in view order. -/
def PendingStateWriter.getAccount (w : PendingStateWriter P) (address : Address P) :
    Option AccountState :=
  w.published.values.foldl (overlayDiff address) (fetchFromDb w.store address)

end Minimmit
