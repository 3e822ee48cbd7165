/-
Minimmit.Validation.SupplyTheorems — what a block does to the sum of all
balances.

The updates of a diff add up exactly: to what the block mints, less what it
burns and pays in fees (`sum_updates_journalDiff`). What is lost is lost when
the diff is written to the database. An addition above `u64::MAX` is cut, and
an address that is no public key has no row. So the sum of the balances
changes by the right amount exactly when no account ends above `u64::MAX` and
nothing is left at such an address (`supply_exact_iff`).
-/
import Minimmit.Library.MapSum
import Minimmit.Validation.ReproductionTheorems

namespace Minimmit

open Minimmit.Library Transaction StateDiff List Option AccountUpdate

variable {P : Params}

/-! ## The updates of a diff add up -/

/-- The sum of all deltas of a diff. -/
def StateDiff.total (d : StateDiff P) : Int := sumOf (·.balanceDelta) d.updates.entries

/-- What a transaction adds to the sum of all balances: what it mints, less
what it burns and its fee. Minting is free. -/
def Transaction.supply (tx : Transaction P) : Int :=
  match tx.instruction with
  | .transfer _ _ | .createAccount _ => -(tx.fee : Int)
  | .mint _ amount => amount
  | .burn _ amount => -(amount : Int) - tx.fee

theorem total_addBalanceChange (d : StateDiff P) (a : Address P) (delta : Int) (n : Nat) :
    (d.addBalanceChange a delta n).total = d.total + delta := by
  unfold addBalanceChange total
  dsimp only
  rw [sumOf_insert]
  cases d.updates.lookup a with
  | none => simp [valueAt]
  | some u =>
    simp only [valueAt, map_some, getD_some]
    omega

theorem total_recordAll (L : Ledger P) (d : StateDiff P) (es : List (Entry P)) :
    (recordAll L d es).total = d.total + (es.map (·.change.delta)).sum := by
  induction es generalizing L d with
  | nil => simp [recordAll]
  | cons e es ih =>
    have hone : (d.record L e).total = d.total + e.change.delta := by
      unfold record
      cases e.change with
      | spend amount => exact total_addBalanceChange ..
      | credit amount => exact total_addBalanceChange ..
      | create => exact (add_zero _).symm
    rw [recordAll, ih, hone, map_cons, sum_cons, add_assoc]

theorem sum_entries {L : Ledger P} {tx : Transaction P} {es : List (Entry P)}
    (h : tx.entries L = some es) : (es.map (·.change.delta)).sum = tx.supply := by
  rcases entries_cases h with ⟨st, -, -, -, -, -, rfl⟩ | ⟨recipient, amount, hi, -, rfl⟩
  · unfold spent gain supply
    cases tx.instruction with
    | transfer recipient amount | mint recipient amount => simp [Change.delta]
    | createAccount address => simp [Change.delta]
    | burn address amount =>
      simp only [Change.delta, map_cons, map_nil, sum_singleton]
      omega
  · simp [supply, hi, Change.delta]

/-- **The updates of a block add up** to what it mints, less burns and
fees. -/
theorem sum_updates_journalDiff {L : Ledger P} {txs : List (Transaction P)}
    {es : List (Entry P)} (h : journal L txs = some es) (fees : Nat) :
    (journalDiff L es fees).total = (txs.map (·.supply)).sum := by
  have hentries : (es.map (·.change.delta)).sum = (txs.map (·.supply)).sum := by
    induction txs generalizing L es with
    | nil =>
      obtain rfl := some.inj h
      rfl
    | cons tx txs ih =>
      obtain ⟨first, rest, hfirst, hrest, rfl⟩ := journal_cons.mp h
      rw [map_append, sum_append, sum_entries hfirst, ih hrest, map_cons,
        sum_cons]
  have := total_recordAll L new es
  rw [hentries] at this
  exact this.trans (zero_add _)

/-! ## The sum of all balances -/

/-- The sum of all balances in the ACCOUNTS table. -/
def Store.totalBalance (s : Store P) : Int :=
  sumOf (fun row : Account => (row.balance : Int)) s.accounts.entries

/-- What writing an update adds to the sum. -/
def updateRise (x : Option AccountState) (e : Sigma fun _ : Address P => AccountUpdate) : Int :=
  if P.ed25519.isPublicKey e.1 = true then
    balanceOf (AccountUpdate.applyTo (some e.2) x) - balanceOf x
  else 0

theorem totalBalance_putAccount (s : Store P) {a : Address P}
    (ha : P.ed25519.isPublicKey a = true) (row : Account) :
    (s.putAccount a row).totalBalance =
      s.totalBalance + row.balance - balanceOf (fetchFromDb s a) := by
  have hrow : valueAt (fun row : Account => (row.balance : Int)) (s.accounts.lookup a) =
      balanceOf (fetchFromDb s a) := by
    unfold fetchFromDb Store.getAccount
    rw [if_pos ha]
    cases s.accounts.lookup a <;> rfl
  rw [← hrow]
  exact sumOf_insert _ s.accounts a row

theorem totalBalance_created (s : Store P) {created : List (NewAccount P)}
    (hempty : ∀ c ∈ created, c.initialBalance = 0)
    (hnew : ∀ c ∈ created, balanceOf (fetchFromDb s c.address) = 0) :
    (created.foldl applyCreated s).totalBalance = s.totalBalance := by
  induction created generalizing s with
  | nil => rfl
  | cons c created ih =>
    have hzero := hempty c mem_cons_self
    rw [foldl_cons, ih]
    · unfold applyCreated
      split
      case isTrue hkey =>
        rw [totalBalance_putAccount s hkey, hzero, hnew c mem_cons_self]
        simp
      case isFalse => rfl
    · exact fun c' hc' => hempty c' (mem_cons_of_mem _ hc')
    · intro c' hc'
      by_cases hkey : P.ed25519.isPublicKey c'.address = true
      · rw [fetchFromDb_applyCreated _ _ hkey]
        split
        · exact hzero
        · exact hnew c' (mem_cons_of_mem _ hc')
      · rw [fetchFromDb_of_not_publicKey _ hkey]
        rfl

theorem totalBalance_applyUpdate (s : Store P) (e : Sigma fun _ : Address P => AccountUpdate) :
    (applyUpdate s e).totalBalance = s.totalBalance + updateRise (fetchFromDb s e.1) e := by
  unfold applyUpdate updateRise
  by_cases hkey : P.ed25519.isPublicKey e.1 = true
  case neg => rw [if_neg hkey, if_neg hkey, add_zero]
  rw [if_pos hkey, if_pos hkey]
  have hfetch : fetchFromDb s e.1 =
      (s.getAccount e.1).map fun x => { balance := x.balance, nonce := x.nonce } := if_pos hkey
  cases hrow : s.getAccount e.1 with
  | some account =>
    rw [hrow] at hfetch
    dsimp only
    rw [totalBalance_putAccount s hkey, hfetch]
    simp only [applyTo, balanceOf, map_some, getD_some]
    omega
  | none =>
    rw [hrow] at hfetch
    dsimp only
    rw [hfetch]
    simp only [applyTo, map_none]
    split
    · rw [totalBalance_putAccount s hkey, hfetch]
      simp [balanceOf]
    · simp

/-- The updates of distinct addresses each add their own rise. -/
theorem totalBalance_updates (s : Store P) {l : List (Sigma fun _ : Address P => AccountUpdate)}
    (hl : l.NodupKeys) : (l.foldl applyUpdate s).totalBalance =
      s.totalBalance + (l.map fun e => updateRise (fetchFromDb s e.1) e).sum := by
  induction l generalizing s with
  | nil => simp
  | cons e l ih =>
    obtain ⟨hnot, hl'⟩ := nodupKeys_cons.mp hl
    have hsame : l.map (fun e' => updateRise (fetchFromDb (applyUpdate s e) e'.1) e') =
        l.map fun e' => updateRise (fetchFromDb s e'.1) e' := by
      refine map_congr_left fun e' he' => ?_
      unfold updateRise
      split
      case isTrue hkey =>
        have hne : e.1 ≠ e'.1 := fun heq => hnot (heq ▸ mem_keys_of_mem he')
        rw [fetchFromDb_applyUpdate _ _ hkey, if_neg hne]
      case isFalse => rfl
    rw [foldl_cons, ih _ hl', hsame, totalBalance_applyUpdate, map_cons, sum_cons,
      add_assoc]

/-! ## A block -/

/-- The sum of the minted amounts. -/
def minted (txs : List (Transaction P)) : Nat :=
  (txs.map fun tx => match tx.instruction with
    | .mint _ amount => amount
    | _ => 0).sum

/-- The sum of the burned amounts. -/
def burned (txs : List (Transaction P)) : Nat :=
  (txs.map fun tx => match tx.instruction with
    | .burn _ amount => amount
    | _ => 0).sum

theorem sum_supply (txs : List (Transaction P)) :
    (txs.map (·.supply)).sum = minted txs - burned txs - collectedFees txs := by
  induction txs with
  | nil => rfl
  | cons tx txs ih =>
    rw [map_cons, sum_cons, ih]
    unfold minted burned collectedFees supply collectedFee
    simp only [map_cons, sum_cons]
    cases tx.instruction <;> simp only [] <;> omega

/-- Writing the diff changes the sum of all balances by what the block mints,
less what it burns and its fees; and the diff holds these fees. -/
structure SupplyExact (s : Store P) (block : Block P) (d : StateDiff P) : Prop where
  balances : (applyDiffToDb s d).totalBalance = s.totalBalance +
    (minted block.transactions - burned block.transactions - collectedFees block.transactions)
  fees : d.totalFees = collectedFees block.transactions

/-- No account ends above `u64::MAX`, and the block leaves nothing at an
address that is no public key. -/
def NothingCut (s : Store P) (txs : List (Transaction P)) : Prop :=
  ∀ a, if P.ed25519.isPublicKey a = true then
    balanceOf (fetchFromDb s a) + (flows a txs).sum ≤ u64Max
  else (flows a txs).sum = 0

section Block

variable {s : Store P} {block : Block P} {d : StateDiff P}

variable {es : List (Entry P)}

/-- What writing an update of the diff adds to the sum of all balances is at
most its delta, and the delta exactly if nothing is cut. -/
theorem updateRise_journalDiff {fees : Nat}
    (hs : Ledger.WellTyped (fetchFromDb s)) (hallows : Ledger.Allows (fetchFromDb s) es)
    {e : Sigma fun _ : Address P => AccountUpdate}
    (he : (journalDiff (fetchFromDb s) es fees).updates.lookup e.1 = some e.2) :
    let x := (journalDiff (fetchFromDb s) es fees).base e.1 (fetchFromDb s e.1)
    updateRise x e ≤ e.2.balanceDelta ∧
      (updateRise x e = e.2.balanceDelta ↔ if P.ed25519.isPublicKey e.1 = true then
          balanceOf (fetchFromDb s e.1) + e.2.balanceDelta ≤ u64Max
        else e.2.balanceDelta = 0) := by
  have hallowed := allAllowed_changesAt hallows e.1
  have hbound := hs.balanceOf_lt e.1
  have hnet := overlayDiff_journalDiff (fetchFromDb s) es fees e.1
  rw [overlayDiff_eq, he] at hnet
  have hdelta : e.2.balanceDelta = (Change.deltas (changesAt e.1 es)).sum := by
    rw [lookup_journalDiff, Change.recordAll_eq hallowed] at he
    split at he
    · cases he
    · exact congrArg balanceDelta (some.inj he).symm
  obtain ⟨hnn, hle, hiff⟩ := Change.balanceOf_net hallowed hbound
  -- the accounts a block creates are new
  have hbase : balanceOf ((journalDiff (fetchFromDb s) es fees).base e.1 (fetchFromDb s e.1)) =
      balanceOf (fetchFromDb s e.1) := by
    rw [base_journalDiff]
    split
    case isTrue hc =>
      rw [(Change.eq_cons_of_create_mem hallowed hc).1]
      rfl
    case isFalse => rfl
  dsimp only
  unfold updateRise
  by_cases hkey : P.ed25519.isPublicKey e.1 = true
  · rw [if_pos hkey, if_pos hkey, hnet, hbase, hdelta]
    omega
  · rw [if_neg hkey, if_neg hkey, hdelta]
    rw [fetchFromDb_of_not_publicKey s hkey] at hnn
    have hempty : balanceOf (none : Option AccountState) = 0 := rfl
    rw [hempty] at hnn
    omega

/-- The sum of all balances after a diff. -/
theorem totalBalance_applyDiffToDb {fees : Nat} (hallows : Ledger.Allows (fetchFromDb s) es) :
    (applyDiffToDb s (journalDiff (fetchFromDb s) es fees)).totalBalance = s.totalBalance +
      ((journalDiff (fetchFromDb s) es fees).updates.entries.map fun e =>
        updateRise ((journalDiff (fetchFromDb s) es fees).base e.1 (fetchFromDb s e.1)) e).sum := by
  generalize hd : journalDiff (fetchFromDb s) es fees = d
  have hempty : ∀ c ∈ d.createdAccounts, c.initialBalance = 0 :=
    fun c hc => (mem_createdAccounts_journalDiff.mp (hd ▸ hc)).1
  have hnew : ∀ c ∈ d.createdAccounts, balanceOf (fetchFromDb s c.address) = 0 := by
    intro c hc
    have hmem := (mem_createdAccounts_journalDiff.mp (hd ▸ hc)).2
    rw [(Change.eq_cons_of_create_mem (allAllowed_changesAt hallows c.address) hmem).1]
    rfl
  have hperm := P.hashOrder.perm 0 _ d.updates.entries
  have hnodup : (P.hashOrder.apply 0 _ d.updates.entries).NodupKeys :=
    (perm_nodupKeys hperm).mpr d.updates.nodupKeys
  rw [applyDiffToDb, totalBalance_updates _ hnodup, totalBalance_created s hempty hnew,
    (hperm.map _).sum_eq]
  congr 2
  refine map_congr_left fun e _ => ?_
  unfold updateRise
  split
  case isTrue hkey =>
    rw [fetchFromDb_created s hempty hkey]
    rfl
  case isFalse => rfl

/-- Value is conserved when every update is written in full. -/
theorem supplyExact_iff_rises (hs : Ledger.WellTyped (fetchFromDb s))
    (hes : journal (fetchFromDb s) block.transactions = some es)
    (hd : d = journalDiff (fetchFromDb s) es (collectedFees block.transactions)) :
    SupplyExact s block d ↔ ∀ e ∈ d.updates.entries,
      updateRise (d.base e.1 (fetchFromDb s e.1)) e = e.2.balanceDelta := by
  have hallows := journal_allows hes
  have hle : ∀ e ∈ d.updates.entries,
      updateRise (d.base e.1 (fetchFromDb s e.1)) e ≤ e.2.balanceDelta := by
    subst hd
    exact fun e he => (updateRise_journalDiff hs hallows (AList.mem_lookup_iff.mpr he)).1
  have hafter : (applyDiffToDb s d).totalBalance = s.totalBalance +
      (d.updates.entries.map fun e => updateRise (d.base e.1 (fetchFromDb s e.1)) e).sum := by
    subst hd
    exact totalBalance_applyDiffToDb hallows
  have hsum : (d.updates.entries.map fun e => e.2.balanceDelta).sum =
      minted block.transactions - burned block.transactions - collectedFees block.transactions := by
    subst hd
    exact (sum_updates_journalDiff hes _).trans (sum_supply _)
  rw [← sum_map_eq_iff hle, hsum]
  constructor
  · intro hexact
    have := hexact.balances
    rw [hafter] at this
    exact add_left_cancel this
  · intro heq
    refine ⟨by rw [hafter, heq], ?_⟩
    rw [hd]
    rfl

/-- **Value is conserved exactly when nothing is cut.** -/
theorem supply_exact_iff (hs : Ledger.WellTyped (fetchFromDb s))
    (h : validateBlock (fetchFromDb s) block = .ok d) :
    SupplyExact s block d ↔ NothingCut s block.transactions := by
  obtain ⟨-, -, es, hes, hd⟩ := validateBlock_ok_iff.mp h
  rw [supplyExact_iff_rises hs hes hd]
  have hrise : ∀ a u, d.updates.lookup a = some u →
      (updateRise (d.base a (fetchFromDb s a)) ⟨a, u⟩ = u.balanceDelta ↔
        if P.ed25519.isPublicKey a = true then
          balanceOf (fetchFromDb s a) + u.balanceDelta ≤ u64Max
        else u.balanceDelta = 0) := by
    subst hd
    exact fun a u hu => (updateRise_journalDiff (e := ⟨a, u⟩) hs (journal_allows hes) hu).2
  have hflow : ∀ a, Change.recorded (d.updates.lookup a) = (flows a block.transactions).sum := by
    subst hd
    exact recorded_journalDiff hes _
  constructor
  · intro hall a
    rw [← hflow a]
    cases hu : d.updates.lookup a with
    | some u => exact (hrise a u hu).mp (hall ⟨a, u⟩ (AList.mem_lookup_iff.mp hu))
    | none =>
      -- an address the diff does not mention
      have hzero : Change.recorded none = 0 := rfl
      rw [hzero]
      split
      · cases hx : fetchFromDb s a with
        | none => decide
        | some st =>
          have := (hs a st hx).1
          change ((st.balance : Nat) : Int) + 0 ≤ u64Max
          simp only [u64Max]
          omega
      · rfl
  · rintro hcut ⟨a, u⟩ he
    have hu := AList.mem_lookup_iff.mpr he
    have hcut := hcut a
    rw [← hflow a, hu] at hcut
    exact (hrise a u hu).mpr hcut

end Block

/-! ## Coins that get lost -/

/-- Account 1, with a hundred coins, mints `u64::MAX` for itself. -/
def mintTooMuch : Block sampleParams :=
  blockOf [signedTransaction (sampleAddress 1) (.mint (sampleAddress 1) (u64Size - 1)) 0 0]

/-- **Minted coins can be lost**: the hundred coins of account 1 are not in
the sum any more. -/
theorem minting_loses_coins :
    validateBlock (fetchFromDb oneAccount.store) mintTooMuch =
        .ok (diffOf (fetchFromDb oneAccount.store) mintTooMuch) ∧
      (applyDiffToDb oneAccount.store
        (diffOf (fetchFromDb oneAccount.store) mintTooMuch)).totalBalance =
          minted mintTooMuch.transactions ∧
      oneAccount.store.totalBalance = 100 ∧
      ¬ SupplyExact oneAccount.store mintTooMuch
        (diffOf (fetchFromDb oneAccount.store) mintTooMuch) := by
  refine ⟨validateBlock_diffOf (by decide +kernel), by decide +kernel, by decide +kernel,
    fun h => ?_⟩
  exact absurd h.balances (by decide +kernel)

/-- A payment of ten coins with a fee of one. -/
def payment : Transaction sampleParams :=
  signedTransaction (sampleAddress 1) (.transfer (sampleAddress 2) 10) 0 1

/-- A payment costs its fee. -/
theorem supply_exact_payment : SupplyExact oneAccount.store (blockOf [payment])
    (diffOf (fetchFromDb oneAccount.store) (blockOf [payment])) := by
  refine (supply_exact_iff oneAccount_wellTyped (validateBlock_diffOf (by decide +kernel))).mpr ?_
  intro a
  have hkey : sampleParams.ed25519.isPublicKey a = true := rfl
  rw [if_pos hkey, fetchFromDb_oneAccount]
  have hflow : (flows a [payment]).sum ≤ 10 := by
    change ((if sampleAddress 1 = a then [-(11 : Int)] else []) ++
      Change.deltas (changesAt a [⟨sampleAddress 2, .credit 10⟩]) ++ []).sum ≤ 10
    rw [changesAt_singleton]
    split <;> split <;> decide
  have hflow' : (flows a (blockOf [payment]).transactions).sum ≤ 10 := hflow
  have hbal : balanceOf (if sampleAddress 1 = a then some { balance := 100, nonce := 0 } else none) ≤
      100 := by
    split <;> decide
  simp only [u64Max, u64Size]
  omega

end Minimmit
