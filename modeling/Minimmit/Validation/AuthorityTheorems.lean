/-
Minimmit.Validation.AuthorityTheorems — who can be debited.

A valid transaction takes money and a nonce from its payer only. The payer is
the sender, but for a burn: `validate_burn` debits the address the
instruction names and compares the nonce with that account's, and never looks
at the sender. So a block hurts only accounts whose owner signed exactly when
every burn in it is from the sender's own account
(`only_signer_debited_iff`).
-/
import Minimmit.Validation.ExecutionTheorems
import Minimmit.Validation.SignatureTheorems

namespace Minimmit

open Minimmit.Library Transaction List Option Ledger Change

variable {P : Params} {L : Ledger P}

/-- The balance went down or the nonce is another one. -/
def Harmed (before after : Option AccountState) : Prop :=
  balanceOf after < balanceOf before ∨ nonceOf after ≠ nonceOf before

instance (before after : Option AccountState) : Decidable (Harmed before after) :=
  inferInstanceAs (Decidable (_ ∨ _))

/-- The accounts as `validate_block` has them in `local_accounts` after these
transactions. -/
def localAfter (getAccount : Ledger P) (txs : List (Transaction P)) : Ledger P :=
  (validateTransactions getAccount 0 txs (Validation.init P)).2.account getAccount

/-- At every transaction of the block the account that is harmed is the
sender's, who signed; and a block harms no account that sends nothing in
it. -/
structure OnlySignerDebited (Signed : Address P → List UInt8 → Prop) (getAccount : Ledger P)
    (block : Block P) : Prop where
  transaction : ∀ done tx rest, block.transactions = done ++ tx :: rest → ∀ a,
    Harmed (localAfter getAccount done a) (localAfter getAccount (done ++ [tx]) a) →
      tx.sender = a ∧ Signed a (P.hashing.bytes tx.txHash)
  block : ∀ a, (∀ tx ∈ block.transactions, tx.sender ≠ a) →
    ¬ Harmed (getAccount a) (localAfter getAccount block.transactions a)

/-- Every burn is from the account of its sender. -/
def BurnsOwn (txs : List (Transaction P)) : Prop :=
  ∀ tx ∈ txs, ∀ address amount, tx.instruction = .burn address amount → address = tx.sender

/-! ## One transaction -/

theorem not_harmed_refl (account : Option AccountState) : ¬ Harmed account account := by
  simp [Harmed]

theorem not_harmed_trans {x y z : Option AccountState} (h₁ : ¬ Harmed x y) (h₂ : ¬ Harmed y z) :
    ¬ Harmed x z := by
  simp only [Harmed, not_or, not_lt, not_not] at h₁ h₂ ⊢
  exact ⟨h₁.1.trans h₂.1, h₂.2.trans h₁.2⟩

/-- A credit harms nobody. -/
theorem not_harmed_credit (hL : L.WellTyped) (a : Address P) (amount : Nat) :
    ¬ Harmed (L a) (apply (L a) (.credit amount)) := by
  cases hst : L a with
  | none => simp [Harmed, balanceOf, nonceOf, apply]
  | some st =>
    have hbal := (hL a st hst).1
    simp only [Harmed, balanceOf, nonceOf, apply, saturatingAdd, map_some,
      getD_some, ne_eq, not_true_eq_false, or_false, not_lt]
    omega

/-- An account that is not spent from is not harmed. -/
theorem not_harmed_post (hL : L.WellTyped) {e : Entry P} (h : e.change.Allowed (L e.address))
    {a : Address P} (hnot : ∀ amount, e.change = .spend amount → e.address ≠ a) :
    ¬ Harmed (L a) (L.post e a) := by
  by_cases ha : a = e.address
  case neg =>
    rw [post, Function.update_of_ne ha]
    exact not_harmed_refl _
  subst ha
  rw [post, Function.update_self]
  cases hc : e.change with
  | spend amount => exact absurd rfl (hnot amount hc)
  | credit amount => exact not_harmed_credit hL _ amount
  | create =>
    rw [hc] at h
    have hnone : L e.address = none := h
    rw [hnone]
    simp [Harmed, balanceOf, nonceOf, apply]

/-- **A valid transaction harms its payer only.** -/
theorem harmed_eq_payer (hL : L.WellTyped) {tx : Transaction P} {es : List (Entry P)}
    (h : tx.entries L = some es) {a : Address P} (hharm : Harmed (L a) (L.posts es a)) :
    a = tx.payer := by
  by_contra hne
  -- every entry that spends is the payer's
  have hspend : ∀ e ∈ es, ∀ amount, e.change = .spend amount → e.address ≠ a := by
    intro e he amount hc
    rcases entries_cases h with ⟨st, -, -, -, -, -, rfl⟩ | ⟨_, _, -, -, rfl⟩
    · rcases mem_cons.mp he with rfl | hgain
      · exact fun heq => hne heq.symm
      · unfold gain at hgain
        split at hgain <;> simp at hgain <;> subst hgain <;> cases hc
    · rw [mem_singleton.mp he] at hc
      cases hc
  have hrun : ∀ {L : Ledger P}, L.WellTyped → L.Allows es → ¬ Harmed (L a) (L.posts es a) := by
    clear h hharm
    induction es with
    | nil => exact fun _ _ => not_harmed_refl _
    | cons e es ih =>
      intro L hL hallows
      exact not_harmed_trans (not_harmed_post hL hallows.1 (hspend e mem_cons_self))
        (ih (fun e' he' => hspend e' (mem_cons_of_mem _ he')) (hL.post hallows.1) hallows.2)
  exact hrun hL (entries_allows h) hharm

/-- A burn harms the account it names: its nonce is used. -/
theorem harmed_burn {tx : Transaction P} {es : List (Entry P)} {address : Address P}
    {amount : Nat} (hi : tx.instruction = .burn address amount) (h : tx.entries L = some es) :
    Harmed (L address) (L.posts es address) := by
  rcases entries_cases h with ⟨st, hst, -, -, -, -, rfl⟩ | ⟨_, _, hmint, -, -⟩
  · have hpayer : tx.payer = address := by rw [payer, hi]
    have hgain : tx.gain = [] := by rw [gain, hi]
    rw [hgain, hpayer]
    rw [hpayer] at hst
    right
    simp [posts, post, apply, hst, nonceOf]
  · cases hi.symm.trans hmint

/-! ## A block -/

section Accepted

variable {getAccount : Ledger P} {block : Block P} {d : StateDiff P}
  {done rest : List (Transaction P)}

/-- The local accounts after a clean run are the journal, posted. -/
theorem localAfter_eq {txs : List (Transaction P)} {es : List (Entry P)}
    (hnodup : (txs.map (·.txHash)).Nodup) (hsum : collectedFees txs < u64Size)
    (hes : journal getAccount txs = some es) : localAfter getAccount txs = getAccount.posts es := by
  have hadd : ∀ n, (Validation.init P).stateDiff.totalFees + n = n := Nat.zero_add
  obtain ⟨s, hrun, hclean⟩ := validateTransactions_accepts (i := 0) (s := Validation.init P) rfl
    hnodup (fun _ _ h => nomatch h) (by rw [hadd]; exact hsum) hes
  obtain ⟨-, -, -, -, es', hes', hacc, -⟩ :=
    validateTransactions_posted (by simp [Validation.init, StateDiff.new, u64Size]) hrun hclean
  rw [account_init] at hes' hacc
  obtain rfl := some.inj (hes.symm.trans hes')
  rw [localAfter, hrun]
  exact hacc

/-- What the first transactions of an accepted block leave. -/
theorem localAfter_of_ok (h : validateBlock getAccount block = .ok d)
    (hsplit : block.transactions = done ++ rest) :
    ∃ es, journal getAccount done = some es ∧ localAfter getAccount done = getAccount.posts es := by
  obtain ⟨⟨-, hnodup⟩, hsum, es, hes, -⟩ := validateBlock_ok_iff.mp h
  rw [hsplit] at hnodup hsum hes
  obtain ⟨first, -, hfirst, -, -⟩ := journal_append.mp hes
  refine ⟨first, hfirst, localAfter_eq ?_ ?_ hfirst⟩
  · rw [map_append] at hnodup
    exact (nodup_append.mp hnodup).1
  · have : collectedFees (done ++ rest) = collectedFees done + collectedFees rest := by
      simp [collectedFees]
    omega

/-- One transaction of an accepted block, on well-typed accounts. -/
theorem localAfter_step (hL : getAccount.WellTyped) (h : validateBlock getAccount block = .ok d)
    {tx : Transaction P} (hsplit : block.transactions = done ++ tx :: rest) :
    (localAfter getAccount done).WellTyped ∧ ∃ es, tx.entries (localAfter getAccount done) = some es ∧
      localAfter getAccount (done ++ [tx]) = (localAfter getAccount done).posts es := by
  obtain ⟨fs, hfs, hdone⟩ := localAfter_of_ok h hsplit
  have hsplit' : block.transactions = (done ++ [tx]) ++ rest := by
    rw [hsplit, append_assoc]
    rfl
  obtain ⟨es, hes, hnext⟩ := localAfter_of_ok h hsplit'
  obtain ⟨fs', gs, hfs', hgs, rfl⟩ := journal_append.mp hes
  obtain rfl := some.inj (hfs.symm.trans hfs')
  obtain ⟨ts, us, hts, hus, rfl⟩ := journal_cons.mp hgs
  obtain rfl := some.inj hus
  rw [append_nil] at hnext
  rw [hdone]
  exact ⟨hL.posts (journal_allows hfs), ts, hts, by rw [hnext, posts_append]⟩

/-- A block whose transactions each spare an account spares it. By induction
on the transactions that have been run. -/
theorem not_harmed_of_each {a : Address P}
    (heach : ∀ done tx rest, block.transactions = done ++ tx :: rest →
      ¬ Harmed (localAfter getAccount done a) (localAfter getAccount (done ++ [tx]) a))
    (hsplit : block.transactions = done ++ rest) :
    ¬ Harmed (getAccount a) (localAfter getAccount done a) := by
  induction done using reverseRecOn generalizing rest with
  | nil => exact not_harmed_refl _
  | append_singleton done tx ih =>
    rw [append_assoc] at hsplit
    exact not_harmed_trans (ih hsplit) (heach done tx rest hsplit)

/-- **Only the signer is debited exactly when every burn is from the sender's
own account.** -/
theorem only_signer_debited_iff {Signed : Address P → List UInt8 → Prop}
    (hsound : BatchSound Signed) (hL : getAccount.WellTyped)
    (h : validateBlock getAccount block = .ok d) :
    OnlySignerDebited Signed getAccount block ↔ BurnsOwn block.transactions := by
  constructor
  · intro hdebited tx ht address amount hi
    obtain ⟨done, rest, hsplit⟩ := List.append_of_mem ht
    obtain ⟨-, es, hes, hnext⟩ := localAfter_step hL h hsplit
    have hharm := harmed_burn hi hes
    rw [← hnext] at hharm
    exact (hdebited.transaction done tx rest hsplit address hharm).1.symm
  · intro hburns
    have hstep : ∀ done tx rest, block.transactions = done ++ tx :: rest → ∀ a,
        Harmed (localAfter getAccount done a) (localAfter getAccount (done ++ [tx]) a) →
          tx.sender = a := by
      intro done tx rest hsplit a hharm
      obtain ⟨hwell, es, hes, hnext⟩ := localAfter_step hL h hsplit
      rw [hnext] at hharm
      rw [harmed_eq_payer hwell hes hharm, Transaction.payer]
      split
      case h_1 address amount hi =>
        exact (hburns tx (by rw [hsplit]; simp) address amount hi).symm
      case h_2 => rfl
    refine ⟨fun done tx rest hsplit a hharm => ?_, fun a hnone => ?_⟩
    · have hsender := hstep done tx rest hsplit a hharm
      exact ⟨hsender, hsender ▸ verifyBlockTxsSignatures_signed hsound (validateBlock_ok_run h).1
        (by rw [hsplit]; simp)⟩
    · refine not_harmed_of_each (fun done tx rest hsplit hharm => ?_)
        (List.append_nil _).symm
      exact hnone tx (by rw [hsplit]; simp) (hstep done tx rest hsplit a hharm)

end Accepted

/-! ## A foreign burn -/

/-- Two accounts with a hundred coins each. -/
def twoAccounts : Ledger sampleParams := fun a =>
  if a = sampleAddress 1 ∨ a = sampleAddress 2 then some { balance := 100, nonce := 0 } else none

theorem twoAccounts_wellTyped : twoAccounts.WellTyped := by
  intro a st hst
  unfold twoAccounts at hst
  split at hst
  · obtain rfl := some.inj hst
    exact ⟨by decide, by decide⟩
  · cases hst

/-- A burn of forty coins and a fee of one. -/
def burnOf (sender address : Nat) : Transaction sampleParams :=
  signedTransaction (sampleAddress sender) (.burn (sampleAddress address) 40) 0 1

/-- **A block can debit who signed nothing**: the second account burns the
coins of the first one. -/
theorem foreign_burn_debits :
    (validateBlock twoAccounts (blockOf [burnOf 2 1])).isOk = true ∧
      localAfter twoAccounts [burnOf 2 1] (sampleAddress 1) = some { balance := 59, nonce := 1 } ∧
      ∀ Signed, ¬ OnlySignerDebited Signed twoAccounts (blockOf [burnOf 2 1]) := by
  have hafter : localAfter twoAccounts [burnOf 2 1] (sampleAddress 1) =
      some { balance := 59, nonce := 1 } := by decide +kernel
  refine ⟨by decide +kernel, hafter, fun Signed h => ?_⟩
  refine h.block (sampleAddress 1) (by decide +kernel) ?_
  change Harmed _ (localAfter twoAccounts [burnOf 2 1] (sampleAddress 1))
  rw [hafter]
  decide

/-- A burn from the sender's own account. -/
theorem own_burn_debits_signer :
    OnlySignerDebited (fun _ _ => True) twoAccounts (blockOf [burnOf 1 1]) := by
  obtain ⟨d, hd⟩ := Outcome.isOk_iff.mp
    (show (validateBlock twoAccounts (blockOf [burnOf 1 1])).isOk = true by decide +kernel)
  refine (only_signer_debited_iff (fun _ _ _ _ => trivial) twoAccounts_wellTyped hd).mpr ?_
  intro tx ht address amount hi
  obtain rfl := List.mem_singleton.mp ht
  exact (TransactionInstruction.burn.inj hi).1.symm

end Minimmit
