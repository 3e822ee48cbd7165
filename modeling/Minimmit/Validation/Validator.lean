/-
Minimmit.Validation.Validator — block validation (validation/validator.rs).

`validateBlock` first checks all transaction signatures in batches, then
runs the transactions in order over a local copy of the accounts they touch.
An invalid transaction adds an error and changes nothing; the diff is
returned only when no error was recorded. The working state (local
accounts, diff, errors) is explicit, and a `u64` that overflows under the
overflow checks of the default profile is a panic.
-/
import Minimmit.Library.Outcome
import Minimmit.Validation.PendingState

namespace Minimmit

open Minimmit.Library

/-- `ValidationError`, with the data each variant carries. -/
inductive ValidationError (P : Params) where
  | blockSignatureVerificationFailed (blockHash : Hash P) (numTxs : Nat)
  | accountNotFound (txIndex : Nat) (address : Address P)
  | insufficientBalance (txIndex : Nat) (address : Address P) (required available : Nat)
  | invalidNonce (txIndex : Nat) (address : Address P) (expected got : Nat)
  | duplicateTransaction (txIndex : Nat) (txHash : Hash P)
  | accountAlreadyExists (txIndex : Nat) (address : Address P)
  | balanceOverflow (txIndex : Nat) (address : Address P)

variable {P : Params}

/-! ## Signatures -/

/-- `Transaction::verify`: the signature against the hash the transaction
came with; a sender that is no public key is a panic (`expect`). -/
def Transaction.verify (t : Transaction P) : Outcome Empty Bool :=
  if P.ed25519.isPublicKey t.sender then
    .ok (P.ed25519.verify t.sender (P.hashing.bytes t.txHash) t.signature)
  else .panic

/-- `BATCH_CHUNK_SIZE` -/
def batchChunkSize : Nat := 128

/-- `verify_batch_chunk`: a sender that is no public key fails the chunk. -/
def verifyBatchChunk (chunk : List (Transaction P)) : Bool :=
  chunk.isEmpty ||
    (chunk.all (fun t => P.ed25519.isPublicKey t.sender) &&
      P.ed25519.verifyBatch
        (chunk.map fun t => (P.hashing.bytes t.txHash, t.signature, t.sender)))

/-- Split a list into chunks of `k + 1` elements, the last one shorter. -/
def chunksOf {α : Type} (k : Nat) : Nat → List α → List (List α)
  | 0, _ => []
  | _, [] => []
  | fuel + 1, l => l.take (k + 1) :: chunksOf k fuel (l.drop (k + 1))

/-- `verify_block_txs_signatures` -/
def verifyBlockTxsSignatures (block : Block P) : Bool :=
  if block.transactions.isEmpty then true
  else if block.transactions.length ≤ batchChunkSize then verifyBatchChunk block.transactions
  else (chunksOf (batchChunkSize - 1) block.transactions.length block.transactions).all
    verifyBatchChunk

/-- `verify_signatures_find_invalid`: the indices from `idx` on; one panic is a
panic of the whole. -/
def verifySignaturesFindInvalid : Nat → List (Transaction P) → Outcome Empty (List Nat)
  | _, [] => .ok []
  | idx, tx :: txs =>
    match tx.verify with
    | .ok valid => (verifySignaturesFindInvalid (idx + 1) txs).map fun invalid =>
      if valid then invalid else idx :: invalid
    | _ => .panic

/-- `verify_all_signatures` -/
def verifyAllSignatures (block : Block P) : Outcome (List Nat) Unit :=
  if verifyBlockTxsSignatures block then .ok ()
  else match verifySignaturesFindInvalid 0 block.transactions with
    | .ok invalid => if invalid.isEmpty then .ok () else .err invalid
    | _ => .panic

/-! ## Transactions -/

/-- The mutable variables of `validate_block`. -/
structure Validation (P : Params) where
  localAccounts : AList (fun _ : Address P => AccountState)
  stateDiff : StateDiff P
  errors : List (ValidationError P)
  seenTxHashes : List (Hash P)

/-- A step of the validation. -/
abbrev Validate (P : Params) (α : Type) : Type := Act (Validation P) Empty α

namespace Validate

/-- `errors.push(e)` -/
def report (e : ValidationError P) : Validate P Unit :=
  Act.modify fun s => { s with errors := s.errors ++ [e] }

/-- `local_accounts.insert(address, account)` -/
def setAccount (address : Address P) (account : AccountState) : Validate P Unit :=
  Act.modify fun s => { s with localAccounts := s.localAccounts.insert address account }

/-- `state_diff.add_balance_change(..)` -/
def addBalanceChange (address : Address P) (delta : Int) (newNonce : Nat) : Validate P Unit :=
  Act.modify fun s => { s with stateDiff := s.stateDiff.addBalanceChange address delta newNonce }

/-- `state_diff.add_collected_fees(fees)` -/
def addCollectedFees (fees : Nat) : Validate P Unit := fun s =>
  if s.stateDiff.totalFees + fees < u64Size then
    (.ok (), { s with stateDiff :=
      { s.stateDiff with totalFees := s.stateDiff.totalFees + fees } })
  else (.panic, s)

/-- `nonce + 1` -/
def nextNonce (nonce : Nat) : Validate P Nat := fun s =>
  if nonce + 1 < u64Size then (.ok (nonce + 1), s) else (.panic, s)

end Validate

section Transactions

open Validate

variable (getAccount : Address P → Option AccountState)

/-- `get_or_fetch_account` -/
def getOrFetchAccount (address : Address P) : Validate P (Option AccountState) := fun s =>
  match s.localAccounts.lookup address with
  | some account => (.ok (some account), s)
  | none =>
    match getAccount address with
    | some account =>
      (.ok (some account), { s with localAccounts := s.localAccounts.insert address account })
    | none => (.ok none, s)

/-- `get_or_create_account` -/
def getOrCreateAccount (address : Address P) : Validate P AccountState := fun s =>
  match s.localAccounts.lookup address with
  | some account => (.ok account, s)
  | none =>
    let account := (getAccount address).getD { balance := 0, nonce := 0 }
    (.ok account, { s with localAccounts := s.localAccounts.insert address account })

/-- `account_exists` -/
def accountExists (address : Address P) : Validate P Bool := fun s =>
  (.ok ((s.localAccounts.lookup address).isSome || (getAccount address).isSome), s)

/-- `validate_transfer` -/
def validateTransfer (txIndex : Nat) (tx : Transaction P) (recipient : Address P)
    (amount : Nat) : Validate P Unit := do
  match ← getOrFetchAccount getAccount tx.sender with
  | none => report (.accountNotFound txIndex tx.sender)
  | some sender =>
    if tx.nonce ≠ sender.nonce then
      report (.invalidNonce txIndex tx.sender sender.nonce tx.nonce)
    else if u64Size ≤ amount + tx.fee then
      report (.balanceOverflow txIndex tx.sender)
    else if sender.balance < amount + tx.fee then
      report (.insufficientBalance txIndex tx.sender (amount + tx.fee) sender.balance)
    else
      let nonce ← nextNonce sender.nonce
      setAccount tx.sender { balance := sender.balance - (amount + tx.fee), nonce }
      let recipientState ← getOrCreateAccount getAccount recipient
      setAccount recipient
        { balance := saturatingAdd recipientState.balance amount, nonce := recipientState.nonce }
      addBalanceChange tx.sender (-((amount + tx.fee : Nat) : Int)) nonce
      addBalanceChange recipient amount recipientState.nonce
      addCollectedFees tx.fee

/-- The sender part of `validate_mint`: the nonce is checked and used only
if the sender has an account. -/
def mintSender (txIndex : Nat) (tx : Transaction P) : Validate P Bool := do
  match ← getOrFetchAccount getAccount tx.sender with
  | none => return true
  | some sender =>
    if tx.nonce ≠ sender.nonce then
      report (.invalidNonce txIndex tx.sender sender.nonce tx.nonce)
      return false
    else
      let nonce ← nextNonce sender.nonce
      setAccount tx.sender { balance := sender.balance, nonce }
      addBalanceChange tx.sender 0 nonce
      return true

/-- `validate_mint` -/
def validateMint (txIndex : Nat) (tx : Transaction P) (recipient : Address P)
    (amount : Nat) : Validate P Unit := do
  let go ← mintSender getAccount txIndex tx
  if go then
    let recipientState ← getOrCreateAccount getAccount recipient
    setAccount recipient
      { balance := saturatingAdd recipientState.balance amount, nonce := recipientState.nonce }
    addBalanceChange recipient amount recipientState.nonce
  else
    return ()

/-- `validate_create_account` -/
def validateCreateAccount (txIndex : Nat) (tx : Transaction P) (address : Address P) :
    Validate P Unit := do
  if ← accountExists getAccount address then
    report (.accountAlreadyExists txIndex address)
  else
    match ← getOrFetchAccount getAccount tx.sender with
    | none => report (.accountNotFound txIndex tx.sender)
    | some sender =>
      if tx.nonce ≠ sender.nonce then
        report (.invalidNonce txIndex tx.sender sender.nonce tx.nonce)
      else if sender.balance < tx.fee then
        report (.insufficientBalance txIndex tx.sender tx.fee sender.balance)
      else
        let nonce ← nextNonce sender.nonce
        setAccount tx.sender { balance := sender.balance - tx.fee, nonce }
        setAccount address { balance := 0, nonce := 0 }
        addBalanceChange tx.sender (-(tx.fee : Int)) nonce
        Act.modify fun s => { s with stateDiff := s.stateDiff.addCreatedAccount address 0 }
        addCollectedFees tx.fee

/-- `validate_burn`: the account burned from is `address`, and its nonce is
the one compared. -/
def validateBurn (txIndex : Nat) (tx : Transaction P) (address : Address P) (amount : Nat) :
    Validate P Unit := do
  match ← getOrFetchAccount getAccount address with
  | none => report (.accountNotFound txIndex address)
  | some account =>
    if tx.nonce ≠ account.nonce then
      report (.invalidNonce txIndex address account.nonce tx.nonce)
    else if u64Size ≤ amount + tx.fee then
      report (.balanceOverflow txIndex address)
    else if account.balance < amount + tx.fee then
      report (.insufficientBalance txIndex address (amount + tx.fee) account.balance)
    else
      let nonce ← nextNonce account.nonce
      setAccount address { balance := account.balance - (amount + tx.fee), nonce }
      addBalanceChange address (-((amount + tx.fee : Nat) : Int)) nonce
      addCollectedFees tx.fee

/-- One pass of the loop: duplicates are reported and skipped. -/
def validateTransaction (txIndex : Nat) (tx : Transaction P) : Validate P Unit := fun s =>
  if tx.txHash ∈ s.seenTxHashes then
    report (.duplicateTransaction txIndex tx.txHash) s
  else
    let s := { s with seenTxHashes := tx.txHash :: s.seenTxHashes }
    match tx.instruction with
    | .transfer recipient amount => validateTransfer getAccount txIndex tx recipient amount s
    | .createAccount address => validateCreateAccount getAccount txIndex tx address s
    | .burn address amount => validateBurn getAccount txIndex tx address amount s
    | .mint recipient amount => validateMint getAccount txIndex tx recipient amount s

/-- The loop over the transactions. -/
def validateTransactions : Nat → List (Transaction P) → Validate P Unit
  | _, [] => return ()
  | i, tx :: txs => do
    validateTransaction getAccount i tx
    validateTransactions (i + 1) txs

/-- `validate_block` -/
def validateBlock (block : Block P) : Outcome (List (ValidationError P)) (StateDiff P) :=
  if verifyBlockTxsSignatures block then
    match validateTransactions getAccount 0 block.transactions
        { localAccounts := ∅, stateDiff := StateDiff.new, errors := [], seenTxHashes := [] } with
    | (.ok _, s) => if s.errors.isEmpty then .ok s.stateDiff else .err s.errors
    | (.err e, _) => nomatch e
    | (.panic, _) => .panic
    | (.exhausted, _) => .exhausted
  else
    .err [.blockSignatureVerificationFailed block.getHash block.transactions.length]

end Transactions

end Minimmit
