/-
Minimmit.Mempool.Proposal — the proposal builder (mempool/service.rs).

`buildValidatedProposal` goes through the pending transactions in the order
of the pool and takes those that its own books allow: a nonce per sender and
a balance per address. The books are simpler than the validator's. Every
instruction debits the sender with its amount and fee and credits its
`recipient()`, which for a burn is the account burned from.
-/
import Minimmit.Mempool.Pool

namespace Minimmit

open Minimmit.Library

variable {P : Params}

/-- `ProposalRequest` -/
structure ProposalRequest (P : Params) where
  view : Nat
  maxTxs : Nat
  maxBytes : Nat
  parentBlockHash : Hash P

/-- `ProposalResponse` -/
structure ProposalResponse (P : Params) where
  view : Nat
  transactions : List (Transaction P)
  totalFees : Nat

/-- `Transaction::amount` -/
def Transaction.amount (tx : Transaction P) : Nat :=
  match tx.instruction with
  | .transfer _ amount | .burn _ amount | .mint _ amount => amount
  | .createAccount _ => 0

/-- `Transaction::recipient`, which is never `None` -/
def Transaction.recipient (tx : Transaction P) : Address P :=
  match tx.instruction with
  | .transfer recipient _ | .mint recipient _ => recipient
  | .burn address _ | .createAccount address => address

/-- `estimate_tx_size`: signature, sender, nonce, fee, hash and the
instruction with its discriminant. -/
def estimateTxSize (tx : Transaction P) : Nat :=
  64 + 32 + 8 + 8 + 32 +
    match tx.instruction with
    | .transfer _ _ | .mint _ _ | .burn _ _ => 1 + 32 + 8
    | .createAccount _ => 1 + 32

/-- The mutable variables of `build_validated_proposal`. -/
structure Builder (P : Params) where
  selected : List (Transaction P)
  totalBytes : Nat
  totalFees : Nat
  pendingBalances : AList (fun _ : Address P => Int)
  senderNextNonce : AList (fun _ : Address P => Nat)

namespace Builder

/-- No transaction selected. -/
def new : Builder P :=
  { selected := [], totalBytes := 0, totalFees := 0, pendingBalances := ∅, senderNextNonce := ∅ }

variable (getAccount : Address P → Option AccountState)

/-- `get_effective_balance` -/
def getEffectiveBalance (b : Builder P) (address : Address P) : Int :=
  (b.pendingBalances.lookup address).getD
    (((getAccount address).map fun account => (account.balance : Int)).getD 0)

/-- The nonce check: the next one of a sender that was selected before, the
one of the chain otherwise. -/
def nonceFits (b : Builder P) (tx : Transaction P) : Bool :=
  match b.senderNextNonce.lookup tx.sender with
  | some expected => tx.nonce == expected
  | none => tx.nonce == ((getAccount tx.sender).map (·.nonce)).getD 0

/-- `*pending_balances.entry(address).or_insert(effective balance) += delta` -/
def addBalance (b : Builder P) (address : Address P) (delta : Int) : Builder P :=
  { b with pendingBalances :=
      b.pendingBalances.insert address (b.getEffectiveBalance getAccount address + delta) }

/-- The transaction is taken: the sender pays, the recipient gains, and the
next nonce and the totals are noted. -/
def select (b : Builder P) (tx : Transaction P) : Builder P :=
  let b := b.addBalance getAccount tx.sender (-(tx.amount + tx.fee : Nat))
  let b := b.addBalance getAccount tx.recipient tx.amount
  { b with
    senderNextNonce := b.senderNextNonce.insert tx.sender (tx.nonce + 1)
    totalBytes := b.totalBytes + estimateTxSize tx
    totalFees := b.totalFees + tx.fee
    selected := b.selected ++ [tx] }

/-- One pass of the loop: the transaction is skipped or selected. -/
def consider (req : ProposalRequest P) (b : Builder P) (tx : Transaction P) :
    Outcome Empty (Builder P) :=
  if b.nonceFits getAccount tx = false then .ok b
  else if b.getEffectiveBalance getAccount tx.sender < tx.amount + tx.fee then .ok b
  else if req.maxBytes < b.totalBytes + estimateTxSize tx then .ok b
  else if tx.nonce + 1 < u64Size ∧ b.totalFees + tx.fee < u64Size then
    .ok (b.select getAccount tx)
  else .panic

/-- The loop over the pending transactions, with a bound on the passes. -/
def buildPasses (req : ProposalRequest P) (pool : TransactionPool P) :
    Nat → PendingIter P → Builder P → Outcome Empty (Builder P)
  | 0, _, _ => .exhausted
  | passes + 1, it, b =>
    match it.next pool with
    | .ok none => .ok b
    | .ok (some (tx, it)) =>
      if req.maxTxs ≤ b.selected.length then .ok b
      else
        match b.consider getAccount req tx with
        | .ok b => buildPasses req pool passes it b
        | .err e => nomatch e
        | .panic => .panic
        | .exhausted => .exhausted
    | .err e => nomatch e
    | .panic => .panic
    | .exhausted => .exhausted

end Builder

/-- `build_validated_proposal`: each pass moves on to the next nonce of a
sender, so one pass for every pending transaction and one to find that there
is none left are enough. -/
def buildValidatedProposal (pool : TransactionPool P) (req : ProposalRequest P)
    (getAccount : Address P → Option AccountState) : Outcome Empty (ProposalResponse P) :=
  match Builder.buildPasses getAccount req pool (pool.pendingLen + 1) (PendingIter.new pool)
      Builder.new with
  | .ok b => .ok { view := req.view, transactions := b.selected, totalFees := b.totalFees }
  | .err e => nomatch e
  | .panic => .panic
  | .exhausted => .exhausted

end Minimmit
