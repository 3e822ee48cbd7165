/-
Minimmit.Validation.ValidatorTheorems — block validation without overflow.

The two checked additions of `validate_block` are the next nonce and the sum
of the collected fees. Both stay within `u64` when the transactions of the
block do (`HarmlessTransactions`), whatever the accounts are: the invariant
of the loop is the room left for the fees of the transactions to come.
-/
import Minimmit.Validation.Validator

namespace Minimmit

open Minimmit.Library Act Validate List

variable {P : Params} {i : Nat} {tx : Transaction P}

/-- Validating the transactions stays within `u64`: no nonce is the last one
and the fees have a sum. -/
def HarmlessTransactions (txs : List (Transaction P)) : Prop :=
  (∀ t ∈ txs, t.nonce + 1 < u64Size) ∧ (txs.map (·.fee)).sum < u64Size

instance (txs : List (Transaction P)) : Decidable (HarmlessTransactions txs) :=
  inferInstanceAs (Decidable (_ ∧ _))

variable {getAccount : Address P → Option AccountState} {n : Nat}

/-- There is room for `n` more in the sum of the fees. -/
def FeesLeft (n : Nat) (s : Validation P) : Prop := s.stateDiff.totalFees + n < u64Size

/-- The step keeps the room there is, and does not panic. -/
abbrev KeepsFees {α : Type} (op : Validate P α) : Prop :=
  ∀ n, Act.Triple (FeesLeft n) op (fun _ => FeesLeft n) (fun _ => True) fun k _ => k ≠ .panic

theorem report_keepsFees (e : ValidationError P) : KeepsFees (report e) :=
  fun _ => triple_modify fun _ hs => hs

theorem setAccount_keepsFees (a : Address P) (account : AccountState) :
    KeepsFees (setAccount a account) :=
  fun _ => triple_modify fun _ hs => hs

theorem addBalanceChange_keepsFees (a : Address P) (delta : Int) (newNonce : Nat) :
    KeepsFees (addBalanceChange a delta newNonce) :=
  fun _ => triple_modify fun _ hs => hs

theorem getOrFetchAccount_keepsFees (a : Address P) :
    KeepsFees (getOrFetchAccount getAccount a) := by
  intro n s hs
  unfold getOrFetchAccount
  split
  · exact hs
  · split <;> exact hs

theorem getOrCreateAccount_keepsFees (a : Address P) :
    KeepsFees (getOrCreateAccount getAccount a) := by
  intro n s hs
  unfold getOrCreateAccount
  split <;> exact hs

theorem nextNonce_keepsFees {nonce : Nat} (h : nonce + 1 < u64Size) :
    KeepsFees (P := P) (nextNonce nonce) := by
  intro n s hs
  simp only [nextNonce, h, ↓reduceIte]
  exact hs

theorem addCollectedFees_spends (fee : Nat) :
    Triple (FeesLeft (P := P) (fee + n)) (addCollectedFees fee) (fun _ => FeesLeft n)
      (fun _ => True) fun k _ => k ≠ .panic := by
  intro s hs
  unfold FeesLeft at hs
  have hlt : s.stateDiff.totalFees + fee < u64Size := by omega
  simp only [addCollectedFees, hlt, ↓reduceIte]
  show s.stateDiff.totalFees + fee + n < u64Size
  omega

/-- Not using the fee leaves the room for the rest. -/
theorem spends_of_keepsFees {op : Validate P Unit} (h : KeepsFees op) (fee : Nat) :
    Triple (FeesLeft (fee + n)) op (fun _ => FeesLeft n) (fun _ => True) fun k _ => k ≠ .panic :=
  (h (fee + n)).weaken (fun _ hs => hs) fun _ s hs => by unfold FeesLeft at hs ⊢; omega

theorem report_spends (e : ValidationError P) (fee : Nat) :
    Triple (FeesLeft (fee + n)) (report e) (fun _ => FeesLeft n) (fun _ => True)
      fun k _ => k ≠ .panic := spends_of_keepsFees (report_keepsFees e) fee

/-- The transaction takes at most its own fee from the room there is. -/
abbrev Spends (fee : Nat) (op : Validate P Unit) : Prop :=
  ∀ n, Act.Triple (FeesLeft (fee + n)) op (fun _ => FeesLeft n) (fun _ => True)
    fun k _ => k ≠ .panic

section

variable (hnonce : tx.nonce + 1 < u64Size)

include hnonce

theorem validateTransfer_spends (recipient : Address P)
    (amount : Nat) : Spends tx.fee (validateTransfer getAccount i tx recipient amount) := by
  intro n
  refine triple_bind (getOrFetchAccount_keepsFees tx.sender _) fun account => ?_
  cases account with
  | none => exact report_spends _ _
  | some sender =>
    refine triple_ite (fun _ => report_spends _ _) fun heq => ?_
    refine triple_ite (fun _ => report_spends _ _) fun _ => ?_
    refine triple_ite (fun _ => report_spends _ _) fun _ => ?_
    have hsender : sender.nonce + 1 < u64Size := not_not.mp heq ▸ hnonce
    refine triple_bind (nextNonce_keepsFees hsender _) fun nonce => ?_
    refine triple_bind (setAccount_keepsFees _ _ _) fun _ => ?_
    refine triple_bind (getOrCreateAccount_keepsFees _ _) fun _ => ?_
    refine triple_bind (setAccount_keepsFees _ _ _) fun _ => ?_
    refine triple_bind (addBalanceChange_keepsFees _ _ _ _) fun _ => ?_
    exact triple_bind (addBalanceChange_keepsFees _ _ _ _) fun _ => addCollectedFees_spends _

theorem mintSender_keepsFees : KeepsFees (mintSender getAccount i tx) := by
  intro n
  refine triple_bind (getOrFetchAccount_keepsFees tx.sender n) fun account => ?_
  cases account with
  | none => exact triple_pure fun _ hs => hs
  | some sender =>
    refine triple_ite (fun _ => ?_) fun heq => ?_
    · exact triple_bind (report_keepsFees _ n) fun _ => triple_pure fun _ hs => hs
    · have hsender : sender.nonce + 1 < u64Size := not_not.mp heq ▸ hnonce
      refine triple_bind (nextNonce_keepsFees hsender n) fun nonce => ?_
      refine triple_bind (setAccount_keepsFees _ _ n) fun _ => ?_
      exact triple_bind (addBalanceChange_keepsFees _ _ _ n) fun _ =>
        triple_pure fun _ hs => hs

theorem validateMint_spends (recipient : Address P)
    (amount : Nat) : Spends tx.fee (validateMint getAccount i tx recipient amount) := by
  refine fun n => spends_of_keepsFees (fun n => ?_) _
  refine triple_bind (mintSender_keepsFees hnonce n) fun go => ?_
  refine triple_ite (fun _ => ?_) fun _ => triple_pure fun _ hs => hs
  refine triple_bind (getOrCreateAccount_keepsFees _ n) fun _ => ?_
  exact triple_bind (setAccount_keepsFees _ _ n) fun _ => addBalanceChange_keepsFees _ _ _ n

theorem validateCreateAccount_spends (address : Address P) :
    Spends tx.fee (validateCreateAccount getAccount i tx address) := by
  intro n
  refine triple_bind (Q := fun _ => FeesLeft (tx.fee + n)) (fun _ hs => hs) fun known => ?_
  refine triple_ite (fun _ => report_spends _ _) fun _ => ?_
  refine triple_bind (getOrFetchAccount_keepsFees tx.sender _) fun account => ?_
  cases account with
  | none => exact report_spends _ _
  | some sender =>
    refine triple_ite (fun _ => report_spends _ _) fun heq => ?_
    refine triple_ite (fun _ => report_spends _ _) fun _ => ?_
    have hsender : sender.nonce + 1 < u64Size := not_not.mp heq ▸ hnonce
    refine triple_bind (nextNonce_keepsFees hsender _) fun nonce => ?_
    refine triple_bind (setAccount_keepsFees _ _ _) fun _ => ?_
    refine triple_bind (setAccount_keepsFees _ _ _) fun _ => ?_
    refine triple_bind (addBalanceChange_keepsFees _ _ _ _) fun _ => ?_
    exact triple_bind (triple_modify fun _ hs => hs) fun _ => addCollectedFees_spends _

theorem validateBurn_spends (address : Address P) (amount : Nat) :
    Spends tx.fee (validateBurn getAccount i tx address amount) := by
  intro n
  refine triple_bind (getOrFetchAccount_keepsFees address _) fun account => ?_
  cases account with
  | none => exact report_spends _ _
  | some account =>
    refine triple_ite (fun _ => report_spends _ _) fun heq => ?_
    refine triple_ite (fun _ => report_spends _ _) fun _ => ?_
    refine triple_ite (fun _ => report_spends _ _) fun _ => ?_
    have haccount : account.nonce + 1 < u64Size := not_not.mp heq ▸ hnonce
    refine triple_bind (nextNonce_keepsFees haccount _) fun nonce => ?_
    refine triple_bind (setAccount_keepsFees _ _ _) fun _ => ?_
    exact triple_bind (addBalanceChange_keepsFees _ _ _ _) fun _ => addCollectedFees_spends _

theorem validateTransaction_spends : Spends tx.fee (validateTransaction getAccount i tx) := by
  intro n s hs
  unfold validateTransaction
  split
  case isTrue => exact report_spends _ _ s hs
  case isFalse =>
    dsimp only
    split
    · exact validateTransfer_spends hnonce _ _ n _ hs
    · exact validateCreateAccount_spends hnonce _ n _ hs
    · exact validateBurn_spends hnonce _ _ n _ hs
    · exact validateMint_spends hnonce _ _ n _ hs

end

/-- The loop, by induction on the transactions: the room left is what the
rest of the block can take. -/
theorem validateTransactions_never {txs : List (Transaction P)}
    (hnonce : ∀ t ∈ txs, t.nonce + 1 < u64Size) (i : Nat) :
    Triple (FeesLeft (txs.map (·.fee)).sum) (validateTransactions getAccount i txs)
      (fun _ _ => True) (fun _ => True) fun k _ => k ≠ .panic := by
  induction txs generalizing i with
  | nil => exact triple_pure fun _ _ => trivial
  | cons tx txs ih =>
    rw [map_cons, sum_cons]
    refine triple_bind (validateTransaction_spends (hnonce tx mem_cons_self) _) fun _ => ?_
    exact ih (fun t ht => hnonce t (mem_cons_of_mem _ ht)) (i + 1)

/-- **Validating a harmless block** does not panic, on any account state. -/
theorem validateBlock_ne_panic {block : Block P} (h : HarmlessTransactions block.transactions) :
    validateBlock getAccount block ≠ .panic := by
  have hloop : EndsBy (validateTransactions getAccount 0 block.transactions
      { localAccounts := ∅, stateDiff := StateDiff.new, errors := [], seenTxHashes := [] })
      (fun _ _ => True) (fun _ => True) fun k _ => k ≠ .panic :=
    validateTransactions_never h.1 0 _ (by simpa [FeesLeft, StateDiff.new] using h.2)
  unfold validateBlock
  split
  case isFalse => exact fun h => nomatch h
  case isTrue =>
    split
    · split <;> exact fun h => nomatch h
    · exact fun h => nomatch h
    case h_3 s hr =>
      rw [hr] at hloop
      exact absurd rfl hloop
    · exact fun h => nomatch h

end Minimmit
