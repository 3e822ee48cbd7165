/-
Minimmit.Validation.Ledger — what a block does to the accounts, as a list of
entries.

A valid transaction makes at most two changes: it spends from one account,
which uses a nonce, and it credits or creates another one. The entries of a
block in their order (`journal`) say all that validation does: the accounts
after the block are the entries posted one after the other (`Ledger.posts`),
and the diff is what they leave in it (`recordAll`). `ExecutionTheorems`
proves that `validateBlock` does exactly this, and `AccountHistory` says what
the changes of a single account do.
-/
import Mathlib.Logic.Function.Basic
import Minimmit.Validation.Validator

namespace Minimmit

open Option Function

variable {P : Params}

/-- The accounts, as a function of the address. -/
abbrev Ledger (P : Params) : Type := Address P → Option AccountState

/-- The balance of an account; none is an empty one. -/
def balanceOf (account : Option AccountState) : Nat := (account.map (·.balance)).getD 0

/-- The nonce of an account; none is an unused one. -/
def nonceOf (account : Option AccountState) : Nat := (account.map (·.nonce)).getD 0

/-- A change of one account. -/
inductive Change where
  /-- A debit; it uses a nonce of the account. -/
  | spend (amount : Nat)
  /-- A credit; it opens the account if there is none. -/
  | credit (amount : Nat)
  /-- An explicit creation. -/
  | create
  deriving DecidableEq, Repr

namespace Change

/-- The account after the change. -/
def apply (account : Option AccountState) : Change → Option AccountState
  | spend amount =>
    account.map fun st => { balance := st.balance - amount, nonce := st.nonce + 1 }
  | credit amount =>
    some { balance := saturatingAdd (account.getD { balance := 0, nonce := 0 }).balance amount
           nonce := (account.getD { balance := 0, nonce := 0 }).nonce }
  | create => some { balance := 0, nonce := 0 }

/-- The account allows the change. -/
def Allowed (account : Option AccountState) : Change → Prop
  | spend amount =>
    ∃ st, account = some st ∧ amount ≤ st.balance ∧ st.nonce + 1 < u64Size
  | credit _ => True
  | create => account = none

/-- The exact change of the balance. -/
def delta : Change → Int
  | spend amount => -(amount : Int)
  | credit amount => amount
  | create => 0

end Change

/-- A change of the account at an address. -/
structure Entry (P : Params) where
  address : Address P
  change : Change

/-- The accounts after an entry. -/
def Ledger.post (L : Ledger P) (e : Entry P) : Ledger P :=
  Function.update L e.address (e.change.apply (L e.address))

/-- The accounts after several entries. -/
def Ledger.posts (L : Ledger P) (es : List (Entry P)) : Ledger P := es.foldl Ledger.post L

/-! ## The entries of a block -/

/-- The account can use this nonce and pay this amount. -/
def Ledger.spendable (L : Ledger P) (address : Address P) (nonce amount : Nat) : Bool :=
  (L address).any fun st =>
    decide (nonce = st.nonce) && decide (amount ≤ st.balance) && decide (st.nonce + 1 < u64Size)

/-- The entries of a transaction, if it is valid on these accounts. -/
def Transaction.entries (L : Ledger P) (tx : Transaction P) : Option (List (Entry P)) :=
  match tx.instruction with
  | .transfer recipient amount =>
    if amount + tx.fee < u64Size ∧ L.spendable tx.sender tx.nonce (amount + tx.fee) = true then
      some [⟨tx.sender, .spend (amount + tx.fee)⟩, ⟨recipient, .credit amount⟩]
    else none
  | .mint recipient amount =>
    -- a sender without an account mints without a nonce
    if (L tx.sender).isNone = true then some [⟨recipient, .credit amount⟩]
    else if L.spendable tx.sender tx.nonce 0 = true then
      some [⟨tx.sender, .spend 0⟩, ⟨recipient, .credit amount⟩]
    else none
  | .createAccount address =>
    if (L address).isNone = true ∧ L.spendable tx.sender tx.nonce tx.fee = true then
      some [⟨tx.sender, .spend tx.fee⟩, ⟨address, .create⟩]
    else none
  | .burn address amount =>
    if amount + tx.fee < u64Size ∧ L.spendable address tx.nonce (amount + tx.fee) = true then
      some [⟨address, .spend (amount + tx.fee)⟩]
    else none

/-- The account whose nonce a transaction uses. -/
def Transaction.payer (tx : Transaction P) : Address P :=
  match tx.instruction with
  | .burn address _ => address
  | _ => tx.sender

/-- What a transaction takes from its payer. -/
def Transaction.spent (tx : Transaction P) : Nat :=
  match tx.instruction with
  | .transfer _ amount | .burn _ amount => amount + tx.fee
  | .mint _ _ => 0
  | .createAccount _ => tx.fee

/-- The entry of the account that gains by a transaction. -/
def Transaction.gain (tx : Transaction P) : List (Entry P) :=
  match tx.instruction with
  | .transfer recipient amount | .mint recipient amount => [⟨recipient, .credit amount⟩]
  | .createAccount address => [⟨address, .create⟩]
  | .burn _ _ => []

variable {L : Ledger P} {tx : Transaction P} {es : List (Entry P)} {txs : List (Transaction P)}

theorem Ledger.spendable_iff {a : Address P} {nonce amount : Nat} :
    L.spendable a nonce amount = true ↔
      ∃ st, L a = some st ∧ nonce = st.nonce ∧ amount ≤ st.balance ∧ st.nonce + 1 < u64Size := by
  simp [Ledger.spendable, any_eq_true, and_assoc]

/-- **What a valid transaction does**: it spends from its payer, then its gain
is booked; only a mint may come without a payer. -/
theorem Transaction.entries_cases (h : tx.entries L = some es) :
    (∃ st, L tx.payer = some st ∧ tx.nonce = st.nonce ∧ tx.spent ≤ st.balance ∧
        st.nonce + 1 < u64Size ∧ (∀ a, tx.instruction = .createAccount a → L a = none) ∧
        es = ⟨tx.payer, .spend tx.spent⟩ :: tx.gain) ∨
      (∃ recipient amount, tx.instruction = .mint recipient amount ∧ L tx.sender = none ∧
        es = [⟨recipient, .credit amount⟩]) := by
  have hpays : ∀ {p n g}, tx.payer = p → tx.spent = n → tx.gain = g →
      L.spendable p tx.nonce n = true → (∀ a, tx.instruction = .createAccount a → L a = none) →
      some (⟨p, .spend n⟩ :: g) = some es → ∃ st, L tx.payer = some st ∧ tx.nonce = st.nonce ∧
        tx.spent ≤ st.balance ∧ st.nonce + 1 < u64Size ∧
        (∀ a, tx.instruction = .createAccount a → L a = none) ∧
        es = ⟨tx.payer, .spend tx.spent⟩ :: tx.gain := by
    rintro _ _ _ rfl rfl rfl hok hcreate hes
    obtain ⟨st, hst, hn, hbal, hnn⟩ := Ledger.spendable_iff.mp hok
    exact ⟨st, hst, hn, hbal, hnn, hcreate, (some.inj hes).symm⟩
  unfold entries at h
  unfold payer spent gain at hpays ⊢
  split at h
  case h_1 recipient amount hi =>
    simp only [hi] at hpays ⊢
    split at h
    case isFalse => cases h
    case isTrue hok => exact .inl (hpays rfl rfl rfl hok.2 nofun h)
  case h_2 recipient amount hi =>
    simp only [hi] at hpays ⊢
    split at h
    case isTrue hnone =>
      exact .inr ⟨recipient, amount, rfl, isNone_iff_eq_none.mp hnone,
        (some.inj h).symm⟩
    case isFalse =>
      split at h
      case isFalse => cases h
      case isTrue hok => exact .inl (hpays rfl rfl rfl hok nofun h)
  case h_3 address hi =>
    simp only [hi] at hpays ⊢
    split at h
    case isFalse => cases h
    case isTrue hok =>
      refine .inl (hpays rfl rfl rfl hok.2 (fun a ha => ?_) h)
      obtain rfl := TransactionInstruction.createAccount.inj ha
      exact isNone_iff_eq_none.mp hok.1
  case h_4 address amount hi =>
    simp only [hi] at hpays ⊢
    split at h
    case isFalse => cases h
    case isTrue hok => exact .inl (hpays rfl rfl rfl hok.2 nofun h)

/-- The fee a valid transaction pays: minting is free. -/
def Transaction.collectedFee (tx : Transaction P) : Nat :=
  match tx.instruction with
  | .mint _ _ => 0
  | _ => tx.fee

/-- The entries of the transactions of a block, each on the accounts the ones
before it leave. -/
def journal : Ledger P → List (Transaction P) → Option (List (Entry P))
  | _, [] => some []
  | L, tx :: txs => do
    let es ← tx.entries L
    let rest ← journal (L.posts es) txs
    return es ++ rest

theorem journal_cons : journal L (tx :: txs) = some es ↔
      ∃ first rest, tx.entries L = some first ∧ journal (L.posts first) txs = some rest ∧
        es = first ++ rest := by
  simp only [journal, bind_eq_bind, bind_eq_some_iff, pure_def,
    some.injEq]
  constructor
  · rintro ⟨first, hfirst, rest, hrest, rfl⟩
    exact ⟨first, rest, hfirst, hrest, rfl⟩
  · rintro ⟨first, rest, hfirst, hrest, rfl⟩
    exact ⟨first, hfirst, rest, hrest, rfl⟩

/-! ## Entries that are allowed -/

theorem Ledger.posts_append (L : Ledger P) (es es' : List (Entry P)) :
    L.posts (es ++ es') = (L.posts es).posts es' := List.foldl_append

/-- Each entry is allowed on what the ones before it leave. -/
def Ledger.Allows : Ledger P → List (Entry P) → Prop
  | _, [] => True
  | L, e :: es => e.change.Allowed (L e.address) ∧ (L.post e).Allows es

theorem Ledger.allows_append {es' : List (Entry P)} :
    L.Allows (es ++ es') ↔ L.Allows es ∧ (L.posts es).Allows es' := by
  induction es generalizing L with
  | nil => simp [Allows, posts]
  | cons e es ih =>
    rw [List.cons_append, Allows, Allows, ih, and_assoc]
    rfl

/-- The entries of a valid transaction are allowed. -/
theorem Transaction.entries_allows (h : tx.entries L = some es) : L.Allows es := by
  rcases entries_cases h with ⟨st, hst, -, hbal, hnn, hcreate, rfl⟩ | ⟨_, _, -, -, rfl⟩
  · refine ⟨⟨st, hst, hbal, hnn⟩, ?_⟩
    unfold gain
    split
    · exact ⟨trivial, trivial⟩
    · exact ⟨trivial, trivial⟩
    case h_3 address hi =>
      -- the payer has an account and the new one has none
      refine ⟨?_, trivial⟩
      have hnone := hcreate address hi
      have hne : address ≠ tx.payer := by
        rintro rfl
        exact absurd (hnone.symm.trans hst) (by simp)
      change update L tx.payer _ address = none
      rw [update_of_ne hne]
      exact hnone
    · exact trivial
  · exact ⟨trivial, trivial⟩

/-- **The journal of a block is allowed** on the accounts it starts from. -/
theorem journal_allows (h : journal L txs = some es) : L.Allows es := by
  induction txs generalizing L es with
  | nil =>
    obtain rfl := some.inj h
    trivial
  | cons tx txs ih =>
    obtain ⟨first, rest, hfirst, hrest, rfl⟩ := journal_cons.mp h
    exact Ledger.allows_append.mpr ⟨Transaction.entries_allows hfirst, ih hrest⟩

theorem journal_append {txs' : List (Transaction P)} :
    journal L (txs ++ txs') = some es ↔
      ∃ first rest, journal L txs = some first ∧ journal (L.posts first) txs' = some rest ∧
        es = first ++ rest := by
  induction txs generalizing L es with
  | nil =>
    constructor
    · exact fun h => ⟨[], es, rfl, h, rfl⟩
    · rintro ⟨first, rest, hfirst, hrest, rfl⟩
      obtain rfl := some.inj hfirst
      exact hrest
  | cons tx txs ih =>
    rw [List.cons_append, journal_cons]
    constructor
    · rintro ⟨first, rest, hfirst, hrest, rfl⟩
      obtain ⟨second, third, hsecond, hthird, rfl⟩ := ih.mp hrest
      exact ⟨first ++ second, third, journal_cons.mpr ⟨first, second, hfirst, hsecond, rfl⟩,
        by rw [Ledger.posts_append]; exact hthird, (List.append_assoc ..).symm⟩
    · rintro ⟨fs, third, hfs, hthird, rfl⟩
      obtain ⟨first, second, hfirst, hsecond, rfl⟩ := journal_cons.mp hfs
      rw [Ledger.posts_append] at hthird
      exact ⟨first, second ++ third, hfirst, ih.mpr ⟨second, third, hsecond, hthird, rfl⟩,
        List.append_assoc ..⟩

/-- Balances and nonces are `u64` values. -/
def Ledger.WellTyped (L : Ledger P) : Prop :=
  ∀ a st, L a = some st → st.balance < u64Size ∧ st.nonce < u64Size

theorem Ledger.WellTyped.balanceOf_lt (hL : L.WellTyped) (a : Address P) :
    balanceOf (L a) < u64Size := by
  unfold balanceOf
  cases ha : L a with
  | none => simp [u64Size]
  | some st => exact (hL a st ha).1

theorem Ledger.WellTyped.post (hL : L.WellTyped) {e : Entry P}
    (h : e.change.Allowed (L e.address)) : (L.post e).WellTyped := by
  intro a st hst
  by_cases ha : a = e.address
  case neg =>
    rw [Ledger.post, update_of_ne ha] at hst
    exact hL a st hst
  subst ha
  rw [Ledger.post, update_self] at hst
  cases hc : e.change with
  | spend amount =>
    rw [hc] at h hst
    obtain ⟨st₀, hst₀, -, hnn⟩ := h
    rw [hst₀] at hst
    obtain rfl := some.inj hst
    exact ⟨(Nat.sub_le _ _).trans_lt (hL _ _ hst₀).1, hnn⟩
  | credit amount =>
    rw [hc] at hst
    obtain rfl := some.inj hst
    refine ⟨(min_le_right _ _).trans_lt (by decide), ?_⟩
    cases hst₀ : L e.address with
    | none => simp [u64Size]
    | some st₀ => exact (hL _ _ hst₀).2
  | create =>
    rw [hc] at hst
    obtain rfl := some.inj hst
    exact ⟨by simp [u64Size], by simp [u64Size]⟩

theorem Ledger.WellTyped.posts (hL : L.WellTyped) (h : L.Allows es) : (L.posts es).WellTyped := by
  induction es generalizing L with
  | nil => exact hL
  | cons e es ih => exact ih (hL.post h.1) h.2

/-! ## The diff -/

/-- What an entry leaves in the diff. -/
def StateDiff.record (L : Ledger P) (d : StateDiff P) (e : Entry P) : StateDiff P :=
  match e.change with
  | .spend amount =>
    d.addBalanceChange e.address (-(amount : Int))
      (((L e.address).getD { balance := 0, nonce := 0 }).nonce + 1)
  | .credit amount =>
    d.addBalanceChange e.address amount ((L e.address).getD { balance := 0, nonce := 0 }).nonce
  | .create => d.addCreatedAccount e.address 0

/-- What several entries leave in the diff. -/
def StateDiff.recordAll : Ledger P → StateDiff P → List (Entry P) → StateDiff P
  | _, d, [] => d
  | L, d, e :: es => recordAll (L.post e) (d.record L e) es

/-- The diff with another sum of fees. -/
def StateDiff.withFees (d : StateDiff P) (fees : Nat) : StateDiff P := { d with totalFees := fees }

theorem StateDiff.record_withFees (L : Ledger P) (d : StateDiff P) (e : Entry P) (fees : Nat) :
    (d.withFees fees).record L e = (d.record L e).withFees fees := by
  unfold record
  cases e.change <;> rfl

theorem StateDiff.recordAll_withFees (L : Ledger P) (d : StateDiff P) (es : List (Entry P))
    (fees : Nat) : recordAll L (d.withFees fees) es = (recordAll L d es).withFees fees := by
  induction es generalizing L d with
  | nil => rfl
  | cons e es ih =>
    rw [recordAll, recordAll, record_withFees]
    exact ih _ _

theorem StateDiff.recordAll_append (L : Ledger P) (d : StateDiff P) (es es' : List (Entry P)) :
    recordAll L d (es ++ es') = recordAll (L.posts es) (recordAll L d es) es' := by
  induction es generalizing L d with
  | nil => rfl
  | cons e es ih => exact ih _ _

theorem StateDiff.totalFees_recordAll (L : Ledger P) (d : StateDiff P) (es : List (Entry P)) :
    (recordAll L d es).totalFees = d.totalFees := by
  induction es generalizing L d with
  | nil => rfl
  | cons e es ih =>
    rw [recordAll, ih]
    unfold record
    cases e.change <;> rfl

end Minimmit
