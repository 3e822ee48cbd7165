/-
Minimmit.Mempool.ProposalTheorems — are the proposals of the mempool valid?

The builder keeps a nonce per sender and a balance per address, the
validator whole accounts. `Builder.Sound` is the simulation between the two:
the transactions selected so far have a journal on the snapshot, the
builder's nonces are those of the accounts it leaves, and its balances are
not above theirs. It is kept by every selection as long as the pending
transactions burn nothing, create only accounts that nothing else reaches,
cost something where the sender has no account, and cannot take a balance
above `u64::MAX` (`ProposalSafe`); then every proposal is valid
(`proposal_valid`).
-/
import Minimmit.Mempool.PoolTheorems
import Minimmit.Validation.ReproductionTheorems

namespace Minimmit

open Minimmit.Library TransactionPool Transaction Builder List Option Change

variable {P : Params}

/-- What the transactions give to an account. -/
def credits (a : Address P) (txs : List (Transaction P)) : Nat :=
  (txs.map fun tx => if tx.recipient = a then tx.amount else 0).sum

/-- The pending transactions keep the builder's books right. -/
structure ProposalSafe (L : Ledger P) (pending : List (Transaction P)) : Prop where
  burn : ∀ tx ∈ pending, ∀ address amount, tx.instruction ≠ .burn address amount
  create : ∀ tx ∈ pending, ∀ address, tx.instruction = .createAccount address →
    L address = none ∧ ∀ t ∈ pending, t.txHash ≠ tx.txHash → changesAt address t.gain = []
  sender : ∀ tx ∈ pending, (L tx.sender).isSome = true ∨ 0 < tx.amount + tx.fee
  fits : ∀ a, (balanceOf (L a) + credits a pending : Nat) ≤ u64Max

/-- The accounts the selected transactions leave, as the builder's books know
them. -/
structure Builder.Books (L : Ledger P) (b : Builder P) (L' : Ledger P) : Prop where
  nonce : ∀ s, (b.senderNextNonce.lookup s).getD (nonceOf (L s)) = nonceOf (L' s)
  balance : ∀ a, b.getEffectiveBalance L a ≤ balanceOf (L' a)
  isSome : ∀ a, 0 < b.getEffectiveBalance L a → (L' a).isSome = true
  bound : ∀ a, balanceOf (L' a) ≤ balanceOf (L a) + credits a b.selected
  used : ∀ tx ∈ b.selected, tx.nonce < nonceOf (L' tx.sender)

/-- The simulation: the selected transactions are pending ones, with distinct
hashes, a journal on the snapshot and fees that have a sum. -/
structure Builder.Sound (L : Ledger P) (pending : List (Transaction P)) (b : Builder P) : Prop where
  pending : ∀ tx ∈ b.selected, tx ∈ pending
  nodup : (b.selected.map (·.txHash)).Nodup
  fees : collectedFees b.selected ≤ b.totalFees ∧ b.totalFees < u64Size
  journal : ∃ es, journal L b.selected = some es ∧ b.Books L (L.posts es)

/-! ## The books -/

section Books

variable {L L' : Ledger P} {b : Builder P} {tx : Transaction P} {a : Address P}

theorem effectiveBalance_new (L : Ledger P) (a : Address P) :
    (new : Builder P).getEffectiveBalance L a = balanceOf (L a) := by
  unfold getEffectiveBalance balanceOf
  cases L a <;> rfl

theorem effectiveBalance_addBalance (L : Ledger P) (b : Builder P) (address : Address P)
    (delta : Int) (a : Address P) :
    (b.addBalance L address delta).getEffectiveBalance L a =
      b.getEffectiveBalance L a + if a = address then delta else 0 := by
  unfold addBalance
  by_cases h : a = address
  · subst h
    rw [if_pos rfl, getEffectiveBalance]
    dsimp only
    rw [AList.lookup_insert]
    rfl
  · rw [if_neg h, add_zero, getEffectiveBalance]
    dsimp only
    rw [AList.lookup_insert_ne h]
    rfl

/-- The nonce the builder expects of a sender. -/
theorem nonceFits_iff (hbooks : b.Books L L') :
    b.nonceFits L tx = true ↔ tx.nonce = nonceOf (L' tx.sender) := by
  rw [← hbooks.nonce tx.sender]
  unfold nonceFits
  cases b.senderNextNonce.lookup tx.sender with
  | some expected => simp
  | none => simp [nonceOf]

theorem spent_le (tx : Transaction P) : tx.spent ≤ tx.amount + tx.fee := by
  unfold spent amount
  cases tx.instruction <;> simp

/-- The gain is the amount, for the recipient. -/
theorem deltas_gain (h : ∀ address amount, tx.instruction ≠ .burn address amount) :
    deltas (changesAt a tx.gain) = if tx.recipient = a then [(tx.amount : Int)] else [] := by
  unfold gain recipient amount
  cases hi : tx.instruction with
  | burn address amount => exact absurd hi (h address amount)
  | transfer recipient amount | mint recipient amount =>
    dsimp only
    rw [changesAt_singleton]
    split <;> rfl
  | createAccount address =>
    dsimp only
    rw [changesAt_singleton]
    split <;> rfl

/-- What a valid transaction without a burn does. -/
def Transaction.payment (tx : Transaction P) : List (Entry P) :=
  ⟨tx.sender, .spend tx.spent⟩ :: tx.gain

/-- A transaction whose sender has the nonce, the amount and the fee is valid
if it burns nothing and does not create an account a second time. -/
theorem entries_payment {st : AccountState} (hst : L tx.sender = some st)
    (hnonce : tx.nonce = st.nonce) (hnext : st.nonce + 1 < u64Size)
    (hpay : tx.amount + tx.fee ≤ st.balance) (htyped : st.balance < u64Size)
    (hburn : ∀ address amount, tx.instruction ≠ .burn address amount)
    (hcreate : ∀ address, tx.instruction = .createAccount address → L address = none) :
    tx.entries L = some tx.payment := by
  have hspend : ∀ k ≤ tx.amount + tx.fee, L.spendable tx.sender tx.nonce k = true := fun k hk =>
    Ledger.spendable_iff.mpr ⟨st, hst, hnonce, hk.trans hpay, hnext⟩
  unfold amount at hpay hspend
  unfold entries payment spent gain
  cases hi : tx.instruction with
  | transfer recipient amount =>
    rw [hi] at hpay hspend
    exact if_pos ⟨by dsimp only at hpay; omega, hspend _ le_rfl⟩
  | mint recipient amount =>
    dsimp only
    rw [hst, if_neg (by simp), if_pos (hspend 0 (Nat.zero_le _))]
  | createAccount address =>
    exact if_pos ⟨isNone_iff_eq_none.mpr (hcreate address hi),
      hspend _ (Nat.le_add_left _ _)⟩
  | burn address amount => exact absurd hi (hburn address amount)

theorem changesAt_payment : changesAt a tx.payment =
    (if tx.sender = a then [.spend tx.spent] else []) ++ changesAt a tx.gain := by
  unfold payment
  split
  case isTrue h => exact changesAt_cons_self (e := ⟨tx.sender, .spend tx.spent⟩) h
  case isFalse h => exact changesAt_cons_ne (e := ⟨tx.sender, .spend tx.spent⟩) h

theorem nonceOf_payment (hallows : L.Allows tx.payment) :
    nonceOf (L.posts tx.payment a) = nonceOf (L a) + if tx.sender = a then 1 else 0 := by
  rw [posts_at, nonceOf_applyAll (allAllowed_changesAt hallows a), changesAt_payment,
    spends_append, spends_gain]
  split <;> rfl

theorem isSome_payment (hallows : L.Allows tx.payment)
    (h : (L a).isSome = true ∨ changesAt a tx.gain ≠ []) :
    (L.posts tx.payment a).isSome = true := by
  rw [posts_at, isSome_applyAll (allAllowed_changesAt hallows a), changesAt_payment]
  rcases h with h | h
  · exact .inl h
  · exact .inr fun hnil => h (append_eq_nil_iff.mp hnil).2

/-- As long as the gain fits, no balance is cut. -/
theorem balanceOf_payment (hallows : L.Allows tx.payment) (htyped : L.WellTyped)
    (hburn : ∀ address amount, tx.instruction ≠ .burn address amount)
    (hfits : (balanceOf (L a) + if tx.recipient = a then tx.amount else 0 : Nat) ≤ u64Max) :
    (balanceOf (L.posts tx.payment a) : Int) = balanceOf (L a) -
      (if tx.sender = a then tx.spent else 0 : Nat) +
      (if tx.recipient = a then tx.amount else 0 : Nat) := by
  have hdeltas : deltas (changesAt a tx.payment) =
      (if tx.sender = a then [-(tx.spent : Int)] else []) ++
        if tx.recipient = a then [(tx.amount : Int)] else [] := by
    rw [← deltas_gain hburn, changesAt_payment, deltas, map_append]
    split <;> rfl
  have hbound := htyped.balanceOf_lt a
  have hpeak : peak (balanceOf (L a)) (deltas (changesAt a tx.payment)) ≤ u64Max := by
    rw [hdeltas]
    unfold u64Max at hfits ⊢
    -- four cases: the account pays or not, and gains or not
    split_ifs at hfits ⊢ <;> simp only [peak, nil_append, cons_append] <;> omega
  rw [posts_at, balanceOf_applyAll (allAllowed_changesAt hallows a) hbound,
    cappedSum_of_peak_le hpeak, hdeltas]
  split_ifs <;> simp <;> omega

/-! ## A selection -/

theorem credits_concat (a : Address P) (txs : List (Transaction P)) (tx : Transaction P) :
    credits a (txs ++ [tx]) = credits a txs + if tx.recipient = a then tx.amount else 0 := by
  simp [credits]

theorem effectiveBalance_select (L : Ledger P) (b : Builder P) (tx : Transaction P)
    (a : Address P) : (b.select L tx).getEffectiveBalance L a = b.getEffectiveBalance L a -
      (if tx.sender = a then tx.amount + tx.fee else 0 : Nat) +
      (if tx.recipient = a then tx.amount else 0 : Nat) := by
  have : (b.select L tx).getEffectiveBalance L a =
      ((b.addBalance L tx.sender (-(tx.amount + tx.fee : Nat))).addBalance L tx.recipient
        tx.amount).getEffectiveBalance L a := rfl
  rw [this, effectiveBalance_addBalance, effectiveBalance_addBalance]
  simp only [eq_comm (a := a)]
  split_ifs <;> omega

/-- **A selection keeps the books** if the gain fits. -/
theorem Builder.Books.select (hbooks : b.Books L L') (htyped : L'.WellTyped)
    (hallows : L'.Allows tx.payment) (hnonce : tx.nonce = nonceOf (L' tx.sender))
    (hburn : ∀ address amount, tx.instruction ≠ .burn address amount)
    (hfits : ∀ a, (balanceOf (L a) + credits a (b.selected ++ [tx]) : Nat) ≤ u64Max) :
    (b.select L tx).Books L (L'.posts tx.payment) := by
  have hbalance : ∀ a, (balanceOf (L'.posts tx.payment a) : Int) = balanceOf (L' a) -
      (if tx.sender = a then tx.spent else 0 : Nat) +
      (if tx.recipient = a then tx.amount else 0 : Nat) := fun a => by
    refine balanceOf_payment hallows htyped hburn ?_
    have hle := hbooks.bound a
    have hsum := hfits a
    rw [credits_concat] at hsum
    omega
  have hspent := spent_le tx
  constructor
  case nonce =>
    intro s
    rw [nonceOf_payment hallows]
    change ((b.senderNextNonce.insert tx.sender (tx.nonce + 1)).lookup s).getD _ = _
    by_cases hs : tx.sender = s
    · subst hs
      rw [AList.lookup_insert, if_pos rfl, hnonce]
      rfl
    · rw [AList.lookup_insert_ne (Ne.symm hs), if_neg hs, hbooks.nonce]
      rfl
  case balance =>
    intro a
    have hle := hbooks.balance a
    rw [hbalance, effectiveBalance_select]
    split_ifs <;> omega
  case isSome =>
    intro a ha
    refine isSome_payment hallows ?_
    by_cases hsome : (L' a).isSome = true
    · exact .inl hsome
    -- an account that is not there has nothing, so it gains
    have hzero : b.getEffectiveBalance L a ≤ 0 := not_lt.mp fun hpos => hsome (hbooks.isSome a hpos)
    rw [effectiveBalance_select] at ha
    refine .inr fun hnil => ?_
    have hdeltas := deltas_gain (a := a) hburn
    rw [hnil] at hdeltas
    split_ifs at ha hdeltas <;> first | omega | cases hdeltas
  case bound =>
    intro a
    have hle := hbooks.bound a
    have heq := hbalance a
    change _ ≤ _ + credits a (b.selected ++ [tx])
    rw [credits_concat]
    split_ifs at heq ⊢ <;> omega
  case used =>
    intro t ht
    rw [nonceOf_payment hallows]
    rcases mem_append.mp ht with ht | ht
    · exact Nat.lt_add_right _ (hbooks.used t ht)
    · obtain rfl := mem_singleton.mp ht
      rw [if_pos rfl, hnonce]
      exact Nat.lt_succ_self _

end Books

/-! ## The simulation -/

section Simulation

variable {L : Ledger P} {pool : TransactionPool P} {b b' : Builder P} {tx : Transaction P}
  {a : Address P} {txs : List (Transaction P)} {req : ProposalRequest P}

/-- Distinct transactions of a list give no more than the list does. -/
theorem credits_le {all : List (Transaction P)} (hnodup : txs.Nodup) (hsub : txs ⊆ all)
    (a : Address P) : credits a txs ≤ credits a all := by
  obtain ⟨l, hperm, hl⟩ := subperm_of_subset hnodup hsub
  unfold credits
  rw [← (hperm.map _).sum_eq]
  exact (hl.map _).sum_le_sum fun _ _ => Nat.zero_le _

/-- An account that gains nothing is not opened. -/
theorem posts_eq_none {es : List (Entry P)} (h : journal L txs = some es) (ha : L a = none)
    (hgain : ∀ t ∈ txs, changesAt a t.gain = []) : L.posts es a = none := by
  induction txs generalizing L es with
  | nil =>
    obtain rfl := some.inj h
    exact ha
  | cons t txs ih =>
    obtain ⟨first, rest, hfirst, hrest, rfl⟩ := journal_cons.mp h
    rw [Ledger.posts_append]
    refine ih hrest ?_ fun t ht => hgain t (mem_cons_of_mem _ ht)
    rw [posts_at, changesAt_of_none hfirst ha, hgain t mem_cons_self]
    exact ha

theorem Builder.Sound.init (L : Ledger P) (pending : List (Transaction P)) :
    (new : Builder P).Sound L pending where
  pending := fun _ h => absurd h not_mem_nil
  nodup := nodup_nil
  fees := ⟨le_rfl, by simp [new, u64Size]⟩
  journal := by
    refine ⟨[], rfl, fun _ => rfl, fun a => ?_, fun a ha => ?_, fun a => Nat.le_add_right _ _,
      fun _ h => absurd h not_mem_nil⟩
    · rw [effectiveBalance_new]
      rfl
    rw [effectiveBalance_new] at ha
    change (L a).isSome = true
    cases hx : L a with
    | some st => rfl
    | none =>
      rw [hx] at ha
      exact absurd ha (lt_irrefl 0)

/-- **A selection keeps the simulation.** -/
theorem Builder.Sound.select (hpool : pool.Verified) (hL : L.WellTyped)
    (hsafe : ProposalSafe L pool.pendingTransactions) (h : b.Sound L pool.pendingTransactions)
    (htx : tx ∈ pool.pendingTransactions) (hfit : b.nonceFits L tx = true)
    (hpay : (tx.amount + tx.fee : Nat) ≤ b.getEffectiveBalance L tx.sender)
    (hnext : tx.nonce + 1 < u64Size) (hfee : b.totalFees + tx.fee < u64Size) :
    (b.select L tx).Sound L pool.pendingTransactions := by
  obtain ⟨es, hes, hbooks⟩ := h.journal
  have hallows := journal_allows hes
  have htyped := hL.posts hallows
  have hnonce := (nonceFits_iff hbooks).mp hfit
  have hburn := hsafe.burn tx htx
  -- the nonces of a sender are used up one by one
  have hnew : ∀ t ∈ b.selected, t.txHash ≠ tx.txHash := fun t ht heq => by
    have hused := hbooks.used t ht
    obtain rfl := hpool.eq_of_txHash (h.pending t ht) htx heq
    omega
  have hpending : ∀ t ∈ b.selected ++ [tx], t ∈ pool.pendingTransactions := fun t ht => by
    rcases mem_append.mp ht with ht | ht
    · exact h.pending t ht
    · exact mem_singleton.mp ht ▸ htx
  have hnodup : ((b.selected ++ [tx]).map (·.txHash)).Nodup := by
    rw [map_append, map_singleton, nodup_append]
    refine ⟨h.nodup, nodup_singleton _, fun x hx y hy => ?_⟩
    obtain ⟨t, ht, rfl⟩ := mem_map.mp hx
    rw [mem_singleton.mp hy]
    exact hnew t ht
  obtain ⟨st, hst⟩ : ∃ st, L.posts es tx.sender = some st := by
    refine isSome_iff_exists.mp ?_
    rcases hsafe.sender tx htx with hsome | hpos
    · rw [posts_at, isSome_applyAll (allAllowed_changesAt hallows _)]
      exact .inl hsome
    · exact hbooks.isSome _ (by omega)
  have hbalance := hbooks.balance tx.sender
  rw [hst] at hnonce hbalance
  have hentries : tx.entries (L.posts es) = some tx.payment := by
    refine entries_payment hst hnonce ?_ ?_ (htyped _ _ hst).1 hburn ?_
    · rwa [hnonce] at hnext
    · simp only [balanceOf, map_some, getD_some] at hbalance
      omega
    · intro address hi
      obtain ⟨hnone, hother⟩ := hsafe.create tx htx address hi
      exact posts_eq_none hes hnone fun t ht => hother t (h.pending t ht) (hnew t ht)
  refine ⟨hpending, hnodup, ⟨?_, hfee⟩, es ++ tx.payment, ?_, ?_⟩
  · have hcollected : tx.collectedFee ≤ tx.fee := by
      unfold collectedFee
      split
      · exact Nat.zero_le _
      · exact le_rfl
    have hsum : collectedFees (b.selected ++ [tx]) = collectedFees b.selected + tx.collectedFee := by
      simp [collectedFees]
    have hfees := h.fees.1
    change collectedFees (b.selected ++ [tx]) ≤ b.totalFees + tx.fee
    omega
  · refine journal_append.mpr ⟨es, tx.payment, hes, ?_, rfl⟩
    exact journal_cons.mpr ⟨tx.payment, [], hentries, rfl, (append_nil _).symm⟩
  · rw [Ledger.posts_append]
    refine hbooks.select htyped (entries_allows hentries) (by rw [hst]; exact hnonce)
      hburn fun a => ?_
    have := hsafe.fits a
    have := credits_le (Nodup.of_map _ hnodup) hpending a
    omega

/-- What one pass does: nothing, or it selects a transaction that fits. -/
theorem Builder.consider_cases (hrun : b.consider L req tx = .ok b') : b' = b ∨
    b.nonceFits L tx = true ∧ (tx.amount + tx.fee : Nat) ≤ b.getEffectiveBalance L tx.sender ∧
      b.totalBytes + estimateTxSize tx ≤ req.maxBytes ∧ tx.nonce + 1 < u64Size ∧
      b.totalFees + tx.fee < u64Size ∧ b' = b.select L tx := by
  unfold consider at hrun
  split at hrun
  · exact .inl (Outcome.ok.inj hrun).symm
  case isFalse hfit =>
    split at hrun
    · exact .inl (Outcome.ok.inj hrun).symm
    case isFalse hpay =>
      split at hrun
      · exact .inl (Outcome.ok.inj hrun).symm
      case isFalse hbytes =>
        split at hrun
        case isTrue hadd =>
          refine .inr ⟨Bool.not_eq_false _ ▸ hfit, ?_, not_lt.mp hbytes, hadd.1, hadd.2,
            (Outcome.ok.inj hrun).symm⟩
          push_cast
          exact not_lt.mp hpay
        case isFalse => cases hrun

/-- What every pass keeps, as long as there is room, the loop keeps. -/
theorem Builder.buildPasses_rule {I : Builder P → Prop} {passes : Nat} {it : PendingIter P}
    (keep : ∀ tx ∈ pool.pendingTransactions, ∀ b b', I b → b.selected.length < req.maxTxs →
      b.consider L req tx = .ok b' → I b')
    (h : I b) (hrun : buildPasses L req pool passes it b = .ok b') : I b' := by
  induction passes generalizing it b with
  | zero => cases hrun
  | succ passes ih =>
    unfold buildPasses at hrun
    split at hrun
    case h_1 => exact Outcome.ok.inj hrun ▸ h
    case h_2 tx it' hnext =>
      split at hrun
      · exact Outcome.ok.inj hrun ▸ h
      case isFalse hroom =>
        split at hrun
        case h_1 next hcons =>
          have hnew := keep tx (PendingIter.next_pending hnext) b next h (not_le.mp hroom) hcons
          exact ih hnew hrun
        case h_2 e _ => exact nomatch e
        case h_3 => cases hrun
        case h_4 => cases hrun
    case h_3 e _ => exact nomatch e
    case h_4 => cases hrun
    case h_5 => cases hrun

/-- The loop keeps the simulation. -/
theorem Builder.Sound.buildPasses (hpool : pool.Verified) (hL : L.WellTyped)
    (hsafe : ProposalSafe L pool.pendingTransactions) {passes : Nat} {it : PendingIter P}
    (h : b.Sound L pool.pendingTransactions)
    (hrun : buildPasses L req pool passes it b = .ok b') :
    b'.Sound L pool.pendingTransactions := by
  refine buildPasses_rule (fun tx htx b b' h _ hcons => ?_) h hrun
  rcases consider_cases hcons with rfl | ⟨hfit, hpay, -, hnext, hfee, rfl⟩
  · exact h
  · exact h.select hpool hL hsafe htx hfit hpay hnext hfee

/-- The iteration never gives up, and neither does a pass. -/
theorem PendingIter.next_ne_exhausted (it : PendingIter P) : it.next pool ≠ .exhausted := by
  unfold PendingIter.next
  intro h
  split at h
  · cases h
  split at h
  · cases h
  · split at h
    · cases h
    · split at h
      · cases h
      · split at h <;> cases h

theorem Builder.consider_ne_exhausted : b.consider L req tx ≠ .exhausted := by
  unfold consider
  intro h
  split at h
  · cases h
  · split at h
    · cases h
    · split at h
      · cases h
      · split at h <;> cases h

/-- **The loop ends**: it has more passes than there are transactions
left. -/
theorem Builder.buildPasses_ne_exhausted {passes : Nat} {it : PendingIter P}
    (h : it.remaining pool < passes) : buildPasses L req pool passes it b ≠ .exhausted := by
  induction passes generalizing it b with
  | zero => exact absurd h (Nat.not_lt_zero _)
  | succ passes ih =>
    unfold buildPasses
    intro hrun
    split at hrun
    case h_1 => cases hrun
    case h_2 tx it' hnext =>
      have hlt := PendingIter.remaining_lt_of_next hnext
      split at hrun
      · cases hrun
      · split at hrun
        case h_1 => exact ih (by omega) hrun
        case h_2 e _ => exact nomatch e
        case h_3 => cases hrun
        case h_4 hcons => exact consider_ne_exhausted hcons
    case h_3 e _ => exact nomatch e
    case h_4 => cases hrun
    case h_5 hnext => exact PendingIter.next_ne_exhausted it hnext

theorem buildValidatedProposal_ne_exhausted (req : ProposalRequest P) :
    buildValidatedProposal pool req L ≠ .exhausted := by
  unfold buildValidatedProposal
  intro h
  split at h
  case h_1 => cases h
  case h_2 e _ => exact nomatch e
  case h_3 => cases h
  case h_4 hrun =>
    exact buildPasses_ne_exhausted (Nat.lt_succ_of_le (PendingIter.remaining_le pool _)) hrun

end Simulation

/-! ## Proposals -/

theorem signedTransaction_verify (sender : Address sampleParams)
    (instruction : TransactionInstruction sampleParams) (nonce fee : Nat) :
    (signedTransaction sender instruction nonce fee).verify = .ok true := by
  simp only [verify, signedTransaction]
  generalize computeHash (P := sampleParams) _ = hash
  exact congrArg Outcome.ok (decide_eq_true rfl)

/-- The pool with one transaction. -/
def poolWith (tx : Transaction sampleParams) : TransactionPool sampleParams :=
  (tryAdd tx 0 0 (TransactionPool.new 10)).2

theorem poolWith_reachable {tx : Transaction sampleParams} (hverify : tx.verify = .ok true)
    (hadd : (tryAdd tx 0 0 (TransactionPool.new 10)).1.isOk = true) :
    PoolReachable (poolWith tx) := by
  obtain ⟨result, hresult⟩ := Outcome.isOk_iff.mp hadd
  exact (PoolReachable.new 10).tryAdd hverify (Prod.ext hresult rfl)

/-- A request without tight limits. -/
def sampleRequest : ProposalRequest sampleParams :=
  { view := 1, maxTxs := 10, maxBytes := 10000, parentBlockHash := sampleParams.hashing.zero }

/-- The creation of an account that exists, a burn from one that does not, and
a transfer of nothing by a sender without an account. -/
def refusedTransactions : List (Transaction sampleParams) :=
  [signedTransaction (sampleAddress 1) (.createAccount (sampleAddress 2)) 0 1,
    signedTransaction (sampleAddress 1) (.burn (sampleAddress 3) 40) 0 1,
    signedTransaction (sampleAddress 3) (.transfer (sampleAddress 1) 0) 0 0]

/-- The pool offers the transaction, and validation refuses it. -/
def Refused (tx : Transaction sampleParams) : Prop :=
  PoolReachable (poolWith tx) ∧
    ∃ resp, buildValidatedProposal (poolWith tx) sampleRequest twoAccounts = .ok resp ∧
      ∀ d, validateBlock twoAccounts (blockOf resp.transactions) ≠ .ok d

/-- Does what was built validate? -/
def validates : Outcome Empty (ProposalResponse sampleParams) → Bool
  | .ok resp => (validateBlock twoAccounts (blockOf resp.transactions)).isOk
  | _ => true

/-- A transfer of ten coins. -/
def tenCoins : Transaction sampleParams :=
  signedTransaction (sampleAddress 1) (.transfer (sampleAddress 2) 10) 0 1

theorem proposalSafe_tenCoins :
    ProposalSafe twoAccounts (poolWith tenCoins).pendingTransactions := by
  have hfields : (poolWith tenCoins).pendingTransactions.map (fun tx => (tx.sender, tx.instruction))
      = [(sampleAddress 1, .transfer (sampleAddress 2) 10)] := by decide +kernel
  obtain ⟨tx, hpending, htx⟩ := map_eq_singleton_iff.mp hfields
  obtain ⟨hsender, hinstruction⟩ := Prod.mk.inj htx
  rw [hpending]
  refine ⟨?_, ?_, ?_, fun a => ?_⟩
  · intro t ht address amount hi
    rw [mem_singleton.mp ht, hinstruction] at hi
    cases hi
  · intro t ht address hi
    rw [mem_singleton.mp ht, hinstruction] at hi
    cases hi
  · intro t ht
    rw [mem_singleton.mp ht, hsender]
    exact .inl rfl
  · have hbalance : balanceOf (twoAccounts a) ≤ 100 := by
      unfold twoAccounts
      split <;> decide
    have hcredits : credits a [tx] ≤ 10 := by
      simp only [credits, amount, hinstruction, map_singleton, sum_singleton]
      split <;> omega
    unfold u64Max u64Size
    omega

theorem batchComplete_sample : BatchComplete sampleParams := fun _ h =>
  all_eq_true.mpr fun e he => h e he

section Limits

variable {L : Ledger P} {pool : TransactionPool P} {req : ProposalRequest P}

/-- The nonces of a sender's transactions, in their order. -/
def noncesOf (s : Address P) (txs : List (Transaction P)) : List Nat :=
  (txs.filter fun tx => tx.sender = s).map (·.nonce)

/-- What is selected is pending, within the request and counted right, and
each sender's nonces follow that of its account. -/
structure Builder.Within (L : Ledger P) (pool : TransactionPool P) (req : ProposalRequest P)
    (b : Builder P) : Prop where
  pending : ∀ tx ∈ b.selected, tx ∈ pool.pendingTransactions
  count : b.selected.length ≤ req.maxTxs
  bytes : (b.selected.map estimateTxSize).sum = b.totalBytes ∧ b.totalBytes ≤ req.maxBytes
  fees : (b.selected.map (·.fee)).sum = b.totalFees
  nonces : ∀ s, ∃ n, noncesOf s b.selected = List.range' (nonceOf (L s)) n ∧
    (b.senderNextNonce.lookup s).getD (nonceOf (L s)) = nonceOf (L s) + n

theorem Builder.Within.select {b : Builder P} {tx : Transaction P} (h : b.Within L pool req)
    (htx : tx ∈ pool.pendingTransactions) (hroom : b.selected.length < req.maxTxs)
    (hfit : b.nonceFits L tx = true) (hbytes : b.totalBytes + estimateTxSize tx ≤ req.maxBytes) :
    (b.select L tx).Within L pool req := by
  have hselected : (b.select L tx).selected = b.selected ++ [tx] := rfl
  refine ⟨fun t ht => ?_, ?_, ⟨?_, hbytes⟩, ?_, fun s => ?_⟩
  · rcases mem_append.mp ht with ht | ht
    · exact h.pending t ht
    · exact mem_singleton.mp ht ▸ htx
  · simpa [hselected] using hroom
  · simp [h.bytes.1, Builder.select, Builder.addBalance]
  · simp [h.fees, Builder.select, Builder.addBalance]
  · obtain ⟨n, hn, hnext⟩ := h.nonces s
    by_cases hs : tx.sender = s
    · -- the builder expects the nonce after the last one
      have hnonce : tx.nonce = nonceOf (L s) + n := by
        subst hs
        rw [← hnext]
        revert hfit
        unfold Builder.nonceFits
        cases b.senderNextNonce.lookup tx.sender <;> simp [nonceOf]
      refine ⟨n + 1, ?_, ?_⟩
      · rw [range'_concat, ← hn, one_mul, ← hnonce, hselected]
        simp [noncesOf, hs]
      · simp [Builder.select, hs, hnonce, Nat.add_assoc]
    · refine ⟨n, ?_, ?_⟩
      · rw [← hn, hselected]
        simp [noncesOf, hs]
      · simpa [Builder.select, Builder.addBalance, AList.lookup_insert_ne (Ne.symm hs)] using hnext

/-- **A proposal keeps to its request**, whatever the pool is like: it answers
for the view, has no more transactions and bytes than it may, says what their
fees are, and takes pending transactions, of each sender those that follow
its account without a gap. -/
theorem proposal_within_limits {resp : ProposalResponse P}
    (h : buildValidatedProposal pool req L = .ok resp) :
    resp.view = req.view ∧ resp.transactions.length ≤ req.maxTxs ∧
      (resp.transactions.map estimateTxSize).sum ≤ req.maxBytes ∧
      (resp.transactions.map (·.fee)).sum = resp.totalFees ∧
      (∀ tx ∈ resp.transactions, tx ∈ pool.pendingTransactions) ∧
      ∀ s, ∃ n, noncesOf s resp.transactions = range' (nonceOf (L s)) n := by
  unfold buildValidatedProposal at h
  split at h
  case h_1 b hpasses =>
    obtain rfl := Outcome.ok.inj h
    have hnew : (new : Builder P).Within L pool req :=
      ⟨fun _ ht => absurd ht not_mem_nil, Nat.zero_le _, ⟨rfl, Nat.zero_le _⟩, rfl,
        fun _ => ⟨0, rfl, rfl⟩⟩
    have hwithin := buildPasses_rule (fun tx htx b b' hb hroom hcons => by
      rcases consider_cases hcons with rfl | ⟨hfit, -, hbytes, -, -, rfl⟩
      · exact hb
      · exact hb.select htx hroom hfit hbytes) hnew hpasses
    exact ⟨rfl, hwithin.count, hwithin.bytes.1.trans_le hwithin.bytes.2, hwithin.fees,
      hwithin.pending, fun s => (hwithin.nonces s).imp fun _ hn => hn.1⟩
  case h_2 e _ => exact nomatch e
  case h_3 => cases h
  case h_4 => cases h

end Limits

theorem ten_coins_within_limits :
    ∃ resp, buildValidatedProposal (poolWith tenCoins) sampleRequest twoAccounts = .ok resp ∧
      resp.transactions.length ≤ sampleRequest.maxTxs := by
  obtain ⟨resp, h⟩ := Outcome.isOk_iff.mp (by decide +kernel :
    (buildValidatedProposal (poolWith tenCoins) sampleRequest twoAccounts).isOk = true)
  exact ⟨resp, h, (proposal_within_limits h).2.1⟩

end Minimmit
