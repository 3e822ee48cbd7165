/-
Minimmit.Validation.ExecutionTheorems — block validation is the execution of
its journal.

`validateBlock` accepts a block exactly when its signatures pass, no
transaction hash occurs twice in it, every transaction is valid on the
accounts the ones before it leave, and the fees have a sum
(`validateBlock_ok_iff`). The diff it returns is then the record of the
journal, and its local accounts are the journal posted on the accounts it
was given (`validateTransactions_posted`). One lemma for each of the four
instructions says what the code does with it (`Judged`).
-/
import Minimmit.Validation.Ledger

namespace Minimmit

open Minimmit.Library Act Validate Transaction StateDiff Validation List Option Function Ledger

variable {P : Params}

/-! ## The local accounts -/

namespace Validation

variable (getAccount : Ledger P) (s : Validation P) (a : Address P)

/-- The accounts the validation has in mind: the local ones, else those it was
given. -/
def account : Ledger P := fun a => (s.localAccounts.lookup a).or (getAccount a)

/-- The state after `get_or_fetch_account`. -/
def fetched : Validation P :=
  match s.localAccounts.lookup a, getAccount a with
  | none, some account => { s with localAccounts := s.localAccounts.insert a account }
  | _, _ => s

/-- The state after `local_accounts.insert`. -/
def set (x : AccountState) : Validation P :=
  { s with localAccounts := s.localAccounts.insert a x }

theorem account_set (x : AccountState) :
    (s.set a x).account getAccount = update (s.account getAccount) a (some x) := by
  funext b
  unfold account set
  by_cases hb : b = a
  · subst hb
    rw [AList.lookup_insert, update_self]
    rfl
  · rw [AList.lookup_insert_ne hb, update_of_ne hb]

/-- Setting an account to what it is changes nothing. -/
theorem account_set_self {x : AccountState} (hx : s.account getAccount a = some x) :
    (s.set a x).account getAccount = s.account getAccount := by
  rw [account_set, ← hx, update_eq_self]

theorem getOrFetchAccount_run :
    getOrFetchAccount getAccount a s = (.ok (s.account getAccount a), s.fetched getAccount a) := by
  unfold getOrFetchAccount account fetched
  cases s.localAccounts.lookup a with
  | some x => rfl
  | none => cases getAccount a <;> rfl

theorem account_fetched : (s.fetched getAccount a).account getAccount = s.account getAccount := by
  unfold fetched
  split
  case h_1 x hlocal hx => exact s.account_set_self getAccount a (by rw [account, hlocal, hx]; rfl)
  case h_2 => rfl

theorem fetched_eq : ∃ accounts, s.fetched getAccount a = { s with localAccounts := accounts } := by
  unfold fetched
  split <;> exact ⟨_, rfl⟩

/-- The state after `get_or_create_account`. -/
def touched : Validation P :=
  match s.localAccounts.lookup a with
  | some _ => s
  | none => s.set a ((getAccount a).getD { balance := 0, nonce := 0 })

theorem getOrCreateAccount_run :
    getOrCreateAccount getAccount a s =
      (.ok ((s.account getAccount a).getD { balance := 0, nonce := 0 }),
        s.touched getAccount a) := by
  unfold getOrCreateAccount account touched
  cases s.localAccounts.lookup a <;> rfl

theorem account_set_touched (x : AccountState) :
    ((s.touched getAccount a).set a x).account getAccount =
      update (s.account getAccount) a (some x) := by
  rw [account_set]
  unfold touched
  split
  · rfl
  · rw [account_set, update_idem]

theorem touched_eq : ∃ accounts, s.touched getAccount a = { s with localAccounts := accounts } := by
  unfold touched
  split <;> exact ⟨_, rfl⟩

end Validation

/-! ## Four instructions -/

section Instructions

variable (getAccount : Ledger P) {tx : Transaction P} {st : AccountState} {amount i nonce : Nat}

/-- The entries were posted and recorded, and nothing was reported. -/
structure Posted (s : Validation P) (es : List (Entry P)) (fee : Nat) (s' : Validation P) :
    Prop where
  account : s'.account getAccount = (s.account getAccount).posts es
  stateDiff : s'.stateDiff =
    (StateDiff.recordAll (s.account getAccount) s.stateDiff es).withFees
      (s.stateDiff.totalFees + fee)
  errors : s'.errors = s.errors
  seen : s'.seenTxHashes = s.seenTxHashes

/-- The transaction is valid on the accounts and its fee can be added. -/
def Fits (tx : Transaction P) (s : Validation P) (es : List (Entry P)) : Prop :=
  tx.entries (s.account getAccount) = some es ∧
    s.stateDiff.totalFees + tx.collectedFee < u64Size

/-- What the code does with a transaction: a valid one is posted, any other
one is reported, or the addition of a nonce or of the fee panics. -/
def Judged (tx : Transaction P) (s : Validation P)
    (r : Outcome Empty Unit × Validation P) : Prop :=
  (∃ es s', Fits getAccount tx s es ∧ r = (.ok (), s') ∧ Posted getAccount s es tx.collectedFee s') ∨
    ((∀ es, ¬ Fits getAccount tx s es) ∧
      ∀ s', r = (.ok (), s') → s'.stateDiff = s.stateDiff ∧ ∃ e, s'.errors = s.errors ++ [e])

variable {getAccount}

/-- A panic is no acceptance. -/
theorem judged_panic {s s' : Validation P} (hnot : ∀ es, ¬ Fits getAccount tx s es) :
    Judged getAccount tx s (.panic, s') :=
  .inr ⟨hnot, fun _ h => nomatch h⟩

/-! A valid transaction on the way: some of its entries are posted, some of
them are in the diff. -/

variable (getAccount) in
structure Trail (s : Validation P) (posted recorded : List (Entry P)) (s' : Validation P) :
    Prop where
  account : s'.account getAccount = (s.account getAccount).posts posted
  stateDiff : s'.stateDiff = StateDiff.recordAll (s.account getAccount) s.stateDiff recorded
  errors : s'.errors = s.errors
  seen : s'.seenTxHashes = s.seenTxHashes

variable {s s' : Validation P} {es posted recorded : List (Entry P)} {a : Address P}

theorem trail_fetched (s : Validation P) (a : Address P) :
    Trail getAccount s [] [] (s.fetched getAccount a) := by
  obtain ⟨accounts, heq⟩ := s.fetched_eq getAccount a
  exact ⟨s.account_fetched getAccount a, by rw [heq]; rfl, by rw [heq], by rw [heq]⟩

theorem trail_refl (s : Validation P) : Trail getAccount s [] [] s := ⟨rfl, rfl, rfl, rfl⟩

/-- Neither is a report. -/
theorem judged_report {e : ValidationError P} (hnot : ∀ es, ¬ Fits getAccount tx s es)
    (h : Trail getAccount s [] [] s') : Judged getAccount tx s (report e s') := by
  refine .inr ⟨hnot, fun s'' heq => ?_⟩
  have := (Prod.ext_iff.mp heq).2
  subst this
  exact ⟨h.stateDiff, e, by rw [← h.errors]; rfl⟩

theorem posts_concat (L : Ledger P) (es : List (Entry P)) (e : Entry P) :
    L.posts (es ++ [e]) = (L.posts es).post e := by
  rw [posts_append]
  rfl

/-- The local account of an entry was set to what the entry makes of it. -/
theorem Trail.set (h : Trail getAccount s posted recorded s') {e : Entry P} {x : AccountState}
    (hx : e.change.apply (s'.account getAccount e.address) = some x) :
    Trail getAccount s (posted ++ [e]) recorded (s'.set e.address x) := by
  refine ⟨?_, h.stateDiff, h.errors, h.seen⟩
  rw [account_set, posts_concat, post, ← hx, h.account]

theorem Trail.credit (h : Trail getAccount s posted recorded s') (a : Address P) (amount : Nat) :
    Trail getAccount s (posted ++ [⟨a, .credit amount⟩]) recorded
      ((s'.touched getAccount a).set a
        { balance := saturatingAdd ((s'.account getAccount a).getD ⟨0, 0⟩).balance amount
          nonce := ((s'.account getAccount a).getD ⟨0, 0⟩).nonce }) := by
  obtain ⟨accounts, heq⟩ := s'.touched_eq getAccount a
  refine ⟨?_, ?_, ?_, ?_⟩
  · rw [account_set_touched, posts_concat, post, h.account]
    rfl
  · rw [heq]
    exact h.stateDiff
  · rw [heq]
    exact h.errors
  · rw [heq]
    exact h.seen

/-- An entry went into the diff. -/
theorem Trail.record (h : Trail getAccount s posted recorded s') {e : Entry P} {d : StateDiff P}
    (hd : d = s'.stateDiff.record ((s.account getAccount).posts recorded) e) :
    Trail getAccount s posted (recorded ++ [e]) { s' with stateDiff := d } := by
  refine ⟨h.account, ?_, h.errors, h.seen⟩
  rw [recordAll_append, ← h.stateDiff]
  exact hd

/-- The fee comes last. -/
theorem Trail.fees (h : Trail getAccount s es es s')
    (hes : tx.entries (s.account getAccount) = some es) (hfee : tx.collectedFee = tx.fee) :
    Judged getAccount tx s (addCollectedFees tx.fee s') := by
  have hsum : s'.stateDiff.totalFees = s.stateDiff.totalFees := by
    rw [h.stateDiff, totalFees_recordAll]
  unfold addCollectedFees
  by_cases hfit : s'.stateDiff.totalFees + tx.fee < u64Size
  · rw [if_pos hfit]
    refine .inl ⟨es, _, ⟨hes, by rw [hfee, ← hsum]; exact hfit⟩, rfl, h.account, ?_, h.errors,
      h.seen⟩
    rw [hfee, ← hsum, ← h.stateDiff]
    rfl
  · rw [if_neg hfit]
    exact judged_panic fun es' h' => hfit (by rw [hsum, ← hfee]; exact h'.2)

theorem spendable_eq {L : Ledger P} (hL : L a = some st) (nonce amount : Nat) :
    L.spendable a nonce amount = true ↔
      nonce = st.nonce ∧ amount ≤ st.balance ∧ st.nonce + 1 < u64Size := by
  simp [spendable_iff, hL]

theorem spendable_none {L : Ledger P} (hL : L a = none) (nonce amount : Nat) :
    L.spendable a nonce amount = false := by
  simp [spendable, hL]

/-- The account was debited and its nonce used. -/
theorem Trail.spend (h : Trail getAccount s posted recorded s')
    (hst : s'.account getAccount a = some st) (amount : Nat) :
    Trail getAccount s (posted ++ [⟨a, .spend amount⟩]) recorded
      (s'.set a { balance := st.balance - amount, nonce := st.nonce + 1 }) :=
  h.set (e := ⟨a, .spend amount⟩) (by rw [hst]; rfl)

/-- The debit went into the diff. -/
theorem Trail.recordSpend (h : Trail getAccount s posted [] s')
    (hst : s.account getAccount a = some st) (amount : Nat) :
    Trail getAccount s posted [⟨a, .spend amount⟩]
      { s' with stateDiff := s'.stateDiff.addBalanceChange a (-(amount : Int)) (st.nonce + 1) } :=
  h.record (e := ⟨a, .spend amount⟩) (by
    change _ = s'.stateDiff.record (s.account getAccount) _
    rw [StateDiff.record, hst]
    rfl)

/-- The credit went into the diff, with the nonce the account has. -/
theorem Trail.recordCredit (h : Trail getAccount s posted recorded s') (amount : Nat)
    (hn : nonce = (((s.account getAccount).posts recorded a).getD ⟨0, 0⟩).nonce) :
    Trail getAccount s posted (recorded ++ [⟨a, .credit amount⟩])
      { s' with stateDiff := s'.stateDiff.addBalanceChange a amount nonce } :=
  h.record (e := ⟨a, .credit amount⟩) (by rw [hn]; rfl)

theorem nextNonce_run (h : nonce + 1 < u64Size) (s : Validation P) :
    nextNonce nonce s = (.ok (nonce + 1), s) := if_pos h

theorem nextNonce_panic (h : ¬ nonce + 1 < u64Size) (s : Validation P) :
    nextNonce nonce s = (.panic, s) := if_neg h

theorem setAccount_run (x : AccountState) (s : Validation P) :
    setAccount a x s = (.ok (), s.set a x) := rfl

theorem addBalanceChange_run (delta : Int) (newNonce : Nat) (s : Validation P) :
    addBalanceChange a delta newNonce s =
      (.ok (), { s with stateDiff := s.stateDiff.addBalanceChange a delta newNonce }) := rfl

/-- The checks of a transaction that takes `total` from the account `a`: they
pass exactly where the transaction has its entries. -/
theorem judged_spend {total : Nat} {e₀ : ValidationError P}
    {e₁ e₂ e₃ : AccountState → ValidationError P} {rest : AccountState → Nat → Validate P Unit}
    (hentries : tx.entries (s.account getAccount) = if total < u64Size ∧
      (s.account getAccount).spendable a tx.nonce total = true then some es else none)
    (hrest : ∀ st, s.account getAccount a = some st → tx.entries (s.account getAccount) = some es →
      Judged getAccount tx s (rest st (st.nonce + 1) (s.fetched getAccount a))) :
    Judged getAccount tx s ((match s.account getAccount a with
      | none => report e₀
      | some st =>
        if tx.nonce ≠ st.nonce then report (e₁ st)
        else if u64Size ≤ total then report (e₂ st)
        else if st.balance < total then report (e₃ st)
        else nextNonce st.nonce >>= rest st) (s.fetched getAccount a)) := by
  have htrail : Trail getAccount s [] [] _ := trail_fetched s a
  have hfits : ∀ es', Fits getAccount tx s es' →
      total < u64Size ∧ (s.account getAccount).spendable a tx.nonce total = true := by
    intro es' h
    have h := hentries.symm.trans h.1
    split at h
    · assumption
    · cases h
  rcases hst : s.account getAccount a with _ | st
  · refine judged_report (fun es h => ?_) htrail
    have := (hfits es h).2
    simp [spendable_none hst] at this
  simp only [spendable_eq hst] at hentries hfits
  dsimp only
  split
  case isTrue hn => exact judged_report (fun es h => hn (hfits es h).2.1) htrail
  split
  case isTrue _ hov =>
    exact judged_report (fun es h => absurd (hfits es h).1 (by omega)) htrail
  split
  case isTrue _ _ hbal =>
    exact judged_report (fun es h => absurd (hfits es h).2.2.1 (by omega)) htrail
  case isFalse hn hov hbal =>
    rw [bind_run]
    by_cases hnn : st.nonce + 1 < u64Size
    case neg =>
      rw [nextNonce_panic hnn]
      exact judged_panic fun es h => hnn (hfits es h).2.2.2
    case pos =>
      rw [nextNonce_run hnn]
      rw [if_pos ⟨by omega, not_not.mp hn, by omega, hnn⟩] at hentries
      exact hrest st hst hentries

theorem validateTransfer_judged {recipient : Address P}
    (hi : tx.instruction = .transfer recipient amount) (s : Validation P) :
    Judged getAccount tx s (validateTransfer getAccount i tx recipient amount s) := by
  have hfee : tx.collectedFee = tx.fee := by rw [collectedFee, hi]
  unfold validateTransfer
  simp only [bind_run, getOrFetchAccount_run]
  refine judged_spend (by rw [entries, hi]) fun st hst hes => ?_
  have hst' : (s.fetched getAccount tx.sender).account getAccount tx.sender = some st := by
    rw [account_fetched, hst]
  have hspent := (trail_fetched s tx.sender).spend hst' (amount + tx.fee)
  have hposted := hspent.credit recipient amount
  simp only [bind_run, setAccount_run, getOrCreateAccount_run, addBalanceChange_run]
  refine Trail.fees ?_ hes hfee
  exact (hposted.recordSpend hst (amount + tx.fee)).recordCredit amount
    (by rw [hspent.account]; rfl)

/-- A transaction without a fee is done when its entries are. -/
theorem Trail.free (h : Trail getAccount s es es s')
    (hes : tx.entries (s.account getAccount) = some es) (hfee : tx.collectedFee = 0)
    (hfees : s.stateDiff.totalFees < u64Size) : Judged getAccount tx s (.ok (), s') := by
  refine .inl ⟨es, s', ⟨hes, by rw [hfee]; exact hfees⟩, rfl, h.account, ?_, h.errors, h.seen⟩
  rw [h.stateDiff, hfee, add_zero, ← totalFees_recordAll (s.account getAccount) _ es]
  rfl

theorem validateMint_judged {recipient : Address P} (hi : tx.instruction = .mint recipient amount)
    {s : Validation P} (hfees : s.stateDiff.totalFees < u64Size) :
    Judged getAccount tx s (validateMint getAccount i tx recipient amount s) := by
  have hfee : tx.collectedFee = 0 := by rw [collectedFee, hi]
  have htrail : Trail getAccount s [] [] _ := trail_fetched s tx.sender
  unfold validateMint mintSender
  simp only [bind_run, getOrFetchAccount_run]
  rcases hst : s.account getAccount tx.sender with _ | st
  · have hes : tx.entries (s.account getAccount) = some [⟨recipient, .credit amount⟩] := by
      simp [entries, hi, hst]
    simp only [pure_run, ↓reduceIte, bind_run, setAccount_run,
      getOrCreateAccount_run, addBalanceChange_run]
    exact ((htrail.credit recipient amount).recordCredit amount
      (by rw [htrail.account])).free hes hfee hfees
  have hvalid : ∀ es, Fits getAccount tx s es →
      tx.nonce = st.nonce ∧ 0 ≤ st.balance ∧ st.nonce + 1 < u64Size := by
    intro es h
    have h := h.1
    simp only [entries, hi, hst, isNone_some, Bool.false_eq_true, ↓reduceIte,
      spendable_eq hst] at h
    split at h
    · assumption
    · cases h
  dsimp only
  by_cases hn : tx.nonce = st.nonce
  case neg =>
    rw [if_pos hn]
    exact judged_report (fun es h => hn (hvalid es h).1) htrail
  case pos =>
    rw [if_neg (not_not.mpr hn)]
    simp only [bind_run]
    by_cases hnn : st.nonce + 1 < u64Size
    case neg =>
      rw [nextNonce_panic hnn]
      exact judged_panic fun es h => hnn (hvalid es h).2.2
    case pos =>
      rw [nextNonce_run hnn]
      have hes : tx.entries (s.account getAccount) =
          some [⟨tx.sender, .spend 0⟩, ⟨recipient, .credit amount⟩] := by
        simp only [entries, hi, hst, isNone_some, Bool.false_eq_true,
          ↓reduceIte, spendable_eq hst]
        rw [if_pos ⟨hn, Nat.zero_le _, hnn⟩]
      have hst' : (s.fetched getAccount tx.sender).account getAccount tx.sender = some st := by
        rw [account_fetched, hst]
      have hspent := (htrail.spend hst' 0).recordSpend hst 0
      simp only [bind_run, setAccount_run, getOrCreateAccount_run,
        addBalanceChange_run, pure_run, ↓reduceIte]
      exact ((hspent.credit recipient amount).recordCredit amount
        (congrArg (fun L : Ledger P => ((L recipient).getD ⟨0, 0⟩).nonce) hspent.account)).free hes
          hfee hfees

theorem validateCreateAccount_judged {address : Address P}
    (hi : tx.instruction = .createAccount address) (s : Validation P) :
    Judged getAccount tx s (validateCreateAccount getAccount i tx address s) := by
  have hfee : tx.collectedFee = tx.fee := by rw [collectedFee, hi]
  have htrail : Trail getAccount s [] [] _ := trail_fetched s tx.sender
  have hexists : accountExists getAccount address s =
      (.ok (s.account getAccount address).isSome, s) := by
    rw [accountExists, account, isSome_or]
  unfold validateCreateAccount
  simp only [bind_run, hexists]
  rcases haddr : s.account getAccount address with _ | known
  case some =>
    refine judged_report (fun es h => ?_) (trail_refl s)
    simp [Fits, entries, hi, haddr] at h
  simp only [isSome_none, Bool.false_eq_true, ↓reduceIte, bind_run,
    getOrFetchAccount_run]
  rcases hst : s.account getAccount tx.sender with _ | st
  · refine judged_report (fun es h => ?_) htrail
    simp [Fits, entries, hi, spendable_none hst] at h
  have hvalid : ∀ es, Fits getAccount tx s es →
      tx.nonce = st.nonce ∧ tx.fee ≤ st.balance ∧ st.nonce + 1 < u64Size := by
    intro es h
    have h := h.1
    simp only [entries, hi, haddr, isNone_none, true_and,
      spendable_eq hst] at h
    split at h
    · assumption
    · cases h
  dsimp only
  split
  case isTrue hn => exact judged_report (fun es h => hn (hvalid es h).1) htrail
  split
  case isTrue _ hbal =>
    exact judged_report (fun es h => absurd (hvalid es h).2.1 (by omega)) htrail
  case isFalse hn hbal =>
    rw [bind_run]
    by_cases hnn : st.nonce + 1 < u64Size
    case neg =>
      rw [nextNonce_panic hnn]
      exact judged_panic fun es h => hnn (hvalid es h).2.2
    case pos =>
      rw [nextNonce_run hnn]
      have hes : tx.entries (s.account getAccount) =
          some [⟨tx.sender, .spend tx.fee⟩, ⟨address, .create⟩] := by
        simp only [entries, hi, haddr, isNone_none, true_and, spendable_eq hst]
        rw [if_pos ⟨not_not.mp hn, by omega, hnn⟩]
      have hst' : (s.fetched getAccount tx.sender).account getAccount tx.sender = some st := by
        rw [account_fetched, hst]
      have hposted := (htrail.spend hst' tx.fee).set (e := ⟨address, .create⟩)
        (x := { balance := 0, nonce := 0 }) rfl
      simp only [bind_run, setAccount_run, addBalanceChange_run, modify_run]
      exact Trail.fees ((hposted.recordSpend hst tx.fee).record (e := ⟨address, .create⟩) rfl) hes
        hfee

theorem validateBurn_judged {address : Address P} (hi : tx.instruction = .burn address amount)
    (s : Validation P) :
    Judged getAccount tx s (validateBurn getAccount i tx address amount s) := by
  have hfee : tx.collectedFee = tx.fee := by rw [collectedFee, hi]
  unfold validateBurn
  simp only [bind_run, getOrFetchAccount_run]
  refine judged_spend (by rw [entries, hi]) fun st hst hes => ?_
  have hst' : (s.fetched getAccount address).account getAccount address = some st := by
    rw [account_fetched, hst]
  have hspent := (trail_fetched s address).spend hst' (amount + tx.fee)
  simp only [bind_run, setAccount_run, addBalanceChange_run]
  exact Trail.fees (hspent.recordSpend hst (amount + tx.fee)) hes hfee

end Instructions

/-! ## The loop -/

section Loop

variable {getAccount : Ledger P} {s s' : Validation P} {i : Nat} {tx : Transaction P}
  {txs : List (Transaction P)}

/-- The hash of the transaction is marked as seen. -/
def Validation.see (s : Validation P) (hash : Hash P) : Validation P :=
  { s with seenTxHashes := hash :: s.seenTxHashes }

theorem validateTransaction_seen (h : tx.txHash ∈ s.seenTxHashes) :
    validateTransaction getAccount i tx s = report (.duplicateTransaction i tx.txHash) s := if_pos h

theorem validateTransaction_judged (hnew : tx.txHash ∉ s.seenTxHashes)
    (hfees : s.stateDiff.totalFees < u64Size) :
    Judged getAccount tx (s.see tx.txHash) (validateTransaction getAccount i tx s) := by
  unfold validateTransaction
  rw [if_neg hnew]
  dsimp only
  split
  case h_1 hi => exact validateTransfer_judged hi _
  case h_2 hi => exact validateCreateAccount_judged hi _
  case h_3 hi => exact validateBurn_judged hi _
  case h_4 hi => exact validateMint_judged hi hfees

/-- A transaction that reports nothing is new and valid, and was posted. -/
theorem validateTransaction_clean (hfees : s.stateDiff.totalFees < u64Size)
    (h : validateTransaction getAccount i tx s = (.ok (), s')) (hclean : s'.errors = []) :
    s.errors = [] ∧ tx.txHash ∉ s.seenTxHashes ∧
      ∃ es, Fits getAccount tx s es ∧
        Posted getAccount (s.see tx.txHash) es tx.collectedFee s' := by
  by_cases hseen : tx.txHash ∈ s.seenTxHashes
  · rw [validateTransaction_seen hseen] at h
    have := (Prod.ext_iff.mp h).2
    subst this
    exact absurd hclean (by simp [report])
  have hjudged : Judged getAccount tx (s.see tx.txHash) (validateTransaction getAccount i tx s) :=
    validateTransaction_judged hseen hfees
  rcases hjudged with
    ⟨es, s'', hfits, hrun, hposted⟩ | ⟨-, hspoiled⟩
  · have heq : s'' = s' := (Prod.ext_iff.mp (hrun.symm.trans h)).2
    subst heq
    exact ⟨hposted.errors.symm.trans hclean, hseen, es, hfits, hposted⟩
  · obtain ⟨-, e, he⟩ := hspoiled s' h
    exact absurd (he.symm.trans hclean) (by simp)

/-- The sum of the fees stays within `u64`. -/
theorem validateTransaction_fees (hfees : s.stateDiff.totalFees < u64Size)
    (h : validateTransaction getAccount i tx s = (.ok (), s')) :
    s'.stateDiff.totalFees < u64Size := by
  by_cases hseen : tx.txHash ∈ s.seenTxHashes
  · rw [validateTransaction_seen hseen] at h
    have := (Prod.ext_iff.mp h).2
    subst this
    exact hfees
  have hjudged : Judged getAccount tx (s.see tx.txHash) (validateTransaction getAccount i tx s) :=
    validateTransaction_judged hseen hfees
  rcases hjudged with
    ⟨es, s'', hfits, hrun, hposted⟩ | ⟨-, hspoiled⟩
  · have heq : s'' = s' := (Prod.ext_iff.mp (hrun.symm.trans h)).2
    subst heq
    rw [hposted.stateDiff]
    exact hfits.2
  · rw [(hspoiled s' h).1]
    exact hfees

/-- The sum of the fees the transactions pay. -/
def collectedFees (txs : List (Transaction P)) : Nat := (txs.map (·.collectedFee)).sum

/-- **A loop that reports nothing** posts the journal. By induction on the
transactions: each one is judged on what the ones before it left. -/
theorem validateTransactions_posted (hfees : s.stateDiff.totalFees < u64Size)
    (h : validateTransactions getAccount i txs s = (.ok (), s')) (hclean : s'.errors = []) :
    s.errors = [] ∧ (txs.map (·.txHash)).Nodup ∧ (∀ t ∈ txs, t.txHash ∉ s.seenTxHashes) ∧
      s.stateDiff.totalFees + collectedFees txs < u64Size ∧
      ∃ es, journal (s.account getAccount) txs = some es ∧
        s'.account getAccount = (s.account getAccount).posts es ∧
        s'.stateDiff = (recordAll (s.account getAccount) s.stateDiff es).withFees
          (s.stateDiff.totalFees + collectedFees txs) := by
  induction txs generalizing i s with
  | nil =>
    have heq : s = s' := (Prod.ext_iff.mp h).2
    subst heq
    exact ⟨hclean, nodup_nil, by simp, by simpa [collectedFees] using hfees, [], rfl, rfl,
      by simp [collectedFees, recordAll, withFees]⟩
  | cons tx txs ih =>
    unfold validateTransactions at h
    rw [bind_run] at h
    rcases hr : validateTransaction getAccount i tx s with ⟨o, s₁⟩
    rw [hr] at h
    cases o with
    | ok _ =>
      obtain ⟨hclean₁, hnodup, hnew, hsum, es', hes', hacc, hdiff⟩ :=
        ih (validateTransaction_fees hfees hr) h
      obtain ⟨hclean₀, hseen, es, hfits, hposted⟩ := validateTransaction_clean hfees hr hclean₁
      have hfees₁ : s₁.stateDiff.totalFees = s.stateDiff.totalFees + tx.collectedFee := by
        rw [hposted.stateDiff]
        rfl
      have hacc₁ : s₁.account getAccount = (s.account getAccount).posts es := hposted.account
      have hall : collectedFees (tx :: txs) = tx.collectedFee + collectedFees txs := by
        simp [collectedFees]
      rw [hposted.seen] at hnew
      refine ⟨hclean₀, ?_, ?_, by omega, es ++ es', ?_, ?_, ?_⟩
      · refine nodup_cons.mpr ⟨fun hmem => ?_, hnodup⟩
        obtain ⟨t, ht, heq⟩ := mem_map.mp hmem
        exact hnew t ht (heq ▸ mem_cons_self)
      · intro t ht
        rcases mem_cons.mp ht with rfl | ht
        · exact hseen
        · exact fun hmem => hnew t ht (mem_cons_of_mem _ hmem)
      · exact journal_cons.mpr ⟨es, es', hfits.1, hacc₁ ▸ hes', rfl⟩
      · rw [hacc, hacc₁, posts_append]
      · rw [hdiff, hacc₁, hposted.stateDiff, recordAll_withFees,
          recordAll_append, hall, ← Nat.add_assoc]
        rfl
    | err e => cases e
    | panic => cases h
    | exhausted => cases h

/-- **A block with a journal** is accepted: its hashes are new and its fees
have a sum. -/
theorem validateTransactions_accepts {es : List (Entry P)} (hclean : s.errors = [])
    (hnodup : (txs.map (·.txHash)).Nodup) (hnew : ∀ t ∈ txs, t.txHash ∉ s.seenTxHashes)
    (hsum : s.stateDiff.totalFees + collectedFees txs < u64Size)
    (hes : journal (s.account getAccount) txs = some es) :
    ∃ s', validateTransactions getAccount i txs s = (.ok (), s') ∧ s'.errors = [] := by
  induction txs generalizing i s es with
  | nil => exact ⟨s, rfl, hclean⟩
  | cons tx txs ih =>
    have hall : collectedFees (tx :: txs) = tx.collectedFee + collectedFees txs := by
      simp [collectedFees]
    obtain ⟨first, rest, hfirst, hrest, -⟩ := journal_cons.mp hes
    obtain ⟨hnotin, hnodup'⟩ := nodup_cons.mp hnodup
    have hfits : Fits getAccount tx (s.see tx.txHash) first :=
      ⟨hfirst, show s.stateDiff.totalFees + _ < _ by omega⟩
    have hjudged : Judged getAccount tx (s.see tx.txHash) (validateTransaction getAccount i tx s) :=
      validateTransaction_judged (hnew tx mem_cons_self) (by omega)
    rcases hjudged with
      ⟨es', s₁, hfits', hrun, hposted⟩ | ⟨hnot, -⟩
    · have heq : es' = first := some.inj (hfits'.1.symm.trans hfits.1)
      subst heq
      have hfees₁ : s₁.stateDiff.totalFees = s.stateDiff.totalFees + tx.collectedFee := by
        rw [hposted.stateDiff]
        rfl
      unfold validateTransactions
      rw [bind_run, hrun]
      refine ih (hposted.errors.trans hclean) hnodup' ?_ (by omega)
        (by rw [hposted.account]; exact hrest)
      intro t ht hmem
      rw [hposted.seen] at hmem
      rcases mem_cons.mp hmem with heq | hold
      · exact hnotin (mem_map.mpr ⟨t, ht, heq⟩)
      · exact hnew t (mem_cons_of_mem _ ht) hold
    · exact absurd hfits (hnot first)

end Loop

/-! ## Blocks -/

section Blocks

variable {getAccount : Ledger P} {block : Block P}

/-- The state `validate_block` starts with. -/
def Validation.init (P : Params) : Validation P :=
  { localAccounts := ∅, stateDiff := StateDiff.new, errors := [], seenTxHashes := [] }

theorem account_init : (init P).account getAccount = getAccount := rfl

/-- The signatures pass and no transaction hash occurs twice. -/
def Block.WellSigned (block : Block P) : Prop :=
  verifyBlockTxsSignatures block = true ∧ (block.transactions.map (·.txHash)).Nodup

/-- The diff of a journal with these fees. -/
def journalDiff (getAccount : Ledger P) (es : List (Entry P)) (fees : Nat) : StateDiff P :=
  (StateDiff.recordAll getAccount StateDiff.new es).withFees fees

/-- An accepted block was run to the end without a report. -/
theorem validateBlock_ok_run {d : StateDiff P} (h : validateBlock getAccount block = .ok d) :
    verifyBlockTxsSignatures block = true ∧
      ∃ s, validateTransactions getAccount 0 block.transactions (init P) = (.ok (), s) ∧
        s.errors = [] ∧ s.stateDiff = d := by
  unfold validateBlock at h
  split at h
  case isFalse => cases h
  case isTrue hsig =>
    split at h
    case h_1 s hrun =>
      split at h
      case isTrue hclean =>
        exact ⟨hsig, s, hrun, isEmpty_iff.mp hclean, Outcome.ok.inj h⟩
      case isFalse => cases h
    case h_2 e _ _ => exact nomatch e
    case h_3 => cases h
    case h_4 => cases h

/-- **Block validation is execution**: a block is accepted exactly when it is
well signed, has a journal on the accounts, and its fees have a sum; the diff
is the record of the journal. -/
theorem validateBlock_ok_iff {d : StateDiff P} :
    validateBlock getAccount block = .ok d ↔
      block.WellSigned ∧ collectedFees block.transactions < u64Size ∧
        ∃ es, journal getAccount block.transactions = some es ∧
          d = journalDiff getAccount es (collectedFees block.transactions) := by
  have hzero : (init P).stateDiff.totalFees < u64Size := by
    simp [init, new, u64Size]
  have hadd : ∀ n, (init P).stateDiff.totalFees + n = n := Nat.zero_add
  constructor
  · intro h
    obtain ⟨hsig, s, hrun, hclean, rfl⟩ := validateBlock_ok_run h
    obtain ⟨-, hnodup, -, hsum, es, hes, -, hdiff⟩ :=
      validateTransactions_posted hzero hrun hclean
    rw [hadd] at hsum hdiff
    exact ⟨⟨hsig, hnodup⟩, hsum, es, hes, hdiff⟩
  · rintro ⟨⟨hsig, hnodup⟩, hsum, es, hes, rfl⟩
    obtain ⟨s, hrun, hclean⟩ : ∃ s', validateTransactions getAccount 0 block.transactions
        (init P) = (.ok (), s') ∧ s'.errors = [] :=
      validateTransactions_accepts rfl hnodup (fun _ _ => not_mem_nil) (by rw [hadd]; exact hsum) hes
    obtain ⟨-, -, -, -, es', hes', -, hdiff⟩ := validateTransactions_posted hzero hrun hclean
    rw [account_init] at hes' hdiff
    obtain rfl := some.inj (hes.symm.trans hes')
    rw [hadd] at hdiff
    unfold validateBlock
    unfold init at hrun
    rw [if_pos hsig, hrun]
    dsimp only
    rw [hclean, hdiff]
    rfl

end Blocks

end Minimmit
