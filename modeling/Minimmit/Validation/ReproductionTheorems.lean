/-
Minimmit.Validation.ReproductionTheorems — when a diff reproduces the
execution of its block.

A diff keeps the sum of the credits and debits of an account, the execution
takes them one by one and stops at the largest `u64`. And a diff says nothing
about an account that the block opened by a credit and emptied again, so a
nonce it used is lost. `diff_reproduces_iff` says, in terms of the
transactions, exactly when neither matters.
-/
import Minimmit.Validation.AuthorityTheorems
import Minimmit.Validation.DiffTheorems

namespace Minimmit

open Minimmit.Library Transaction Change List Option

variable {P : Params}

/-! ## Transactions and changes -/

/-- What a transaction adds to or takes from an account, in the order it does
so. -/
def Transaction.flow (a : Address P) (tx : Transaction P) : List Int :=
  (if tx.payer = a then [-(tx.spent : Int)] else []) ++ Change.deltas (changesAt a tx.gain)

/-- What the transactions of a block add to or take from an account. -/
def flows (a : Address P) (txs : List (Transaction P)) : List Int := txs.flatMap (·.flow a)

/-- The block creates the account explicitly. -/
def CreatedIn (a : Address P) (txs : List (Transaction P)) : Prop :=
  ∃ tx ∈ txs, tx.instruction = .createAccount a

/-- After a transaction that credits the account, another one uses its
nonce. -/
def SpendsReceived (a : Address P) (txs : List (Transaction P)) : Prop :=
  ¬ txs.Pairwise fun t u => changesAt a t.gain ≠ [] → u.payer ≠ a

section Link

variable {L : Ledger P} {a : Address P} {tx : Transaction P} {txs : List (Transaction P)}
  {es : List (Entry P)}

/-- The gain of a transaction uses no nonce. -/
theorem spends_gain : spends (changesAt a tx.gain) = 0 := by
  unfold gain
  split
  case h_4 => rfl
  all_goals
    rw [changesAt_singleton]
    split <;> rfl

theorem create_mem_gain :
    create ∈ changesAt a tx.gain ↔ tx.instruction = .createAccount a := by
  unfold gain
  split
  case h_3 address hi =>
    rw [hi]
    by_cases h : address = a
    · subst h
      simp [changesAt]
    · simp [changesAt, h]
  all_goals
    rename_i hi
    simp [changesAt, hi]

/-- The changes of an account by a valid transaction. -/
theorem changesAt_entries (h : tx.entries L = some es) :
    (changesAt a es = (if tx.payer = a then [.spend tx.spent] else []) ++ changesAt a tx.gain ∧
        (L tx.payer).isSome = true) ∨
      (changesAt a es = changesAt a tx.gain ∧ tx.spent = 0 ∧ L tx.payer = none) := by
  rcases entries_cases h with ⟨st, hst, -, -, -, -, rfl⟩ | ⟨recipient, amount, hi, hnone, rfl⟩
  · refine .inl ⟨?_, by rw [hst]; rfl⟩
    by_cases hp : tx.payer = a
    · rw [changesAt_cons_self hp, if_pos hp]
      rfl
    · rw [changesAt_cons_ne hp, if_neg hp]
      rfl
  · refine .inr ⟨by rw [gain, hi], by rw [spent, hi], ?_⟩
    rw [payer, hi]
    exact hnone

/-- The deltas of an account go the way of the flows. -/
theorem sameCourse_flow (h : tx.entries L = some es) :
    SameCourse (deltas (changesAt a es)) (tx.flow a) := by
  unfold flow
  rcases changesAt_entries (a := a) h with ⟨heq, -⟩ | ⟨heq, hspent, -⟩
  · rw [heq]
    by_cases hp : tx.payer = a
    · rw [if_pos hp, if_pos hp]
      exact SameCourse.refl _
    · rw [if_neg hp, if_neg hp]
      exact SameCourse.refl _
  · rw [heq, hspent]
    -- a mint without a payer
    split
    · exact SameCourse.zero_cons _
    · exact SameCourse.refl _

theorem sameCourse_flows (h : journal L txs = some es) :
    SameCourse (deltas (changesAt a es)) (flows a txs) := by
  induction txs generalizing L es with
  | nil =>
    obtain rfl := some.inj h
    exact SameCourse.refl _
  | cons tx txs ih =>
    obtain ⟨first, rest, hfirst, hrest, rfl⟩ := journal_cons.mp h
    rw [changesAt_append]
    unfold deltas flows
    rw [map_append, flatMap_cons]
    exact (sameCourse_flow hfirst).append (ih hrest)

/-- The delta of an address in the diff is what the transactions add and
take there. -/
theorem recorded_journalDiff {L : Ledger P} {txs : List (Transaction P)} {es : List (Entry P)}
    (hes : journal L txs = some es) (fees : Nat) (a : Address P) :
    recorded ((journalDiff L es fees).updates.lookup a) = (flows a txs).sum := by
  rw [← (sameCourse_flows (a := a) hes).sum, lookup_journalDiff,
    recordAll_eq (allAllowed_changesAt (journal_allows hes) a)]
  split
  case isTrue hcase =>
    rcases hcase with heq | heq <;>
    · rw [heq]
      rfl
  case isFalse => rfl

theorem create_mem_changesAt (h : journal L txs = some es) :
    create ∈ changesAt a es ↔ CreatedIn a txs := by
  induction txs generalizing L es with
  | nil =>
    obtain rfl := some.inj h
    simp [CreatedIn, changesAt]
  | cons tx txs ih =>
    obtain ⟨first, rest, hfirst, hrest, rfl⟩ := journal_cons.mp h
    have hone : create ∈ changesAt a first ↔ tx.instruction = .createAccount a := by
      rw [← create_mem_gain]
      rcases changesAt_entries (a := a) hfirst with ⟨heq, -⟩ | ⟨heq, -, -⟩
      · rw [heq]
        split <;> simp
      · rw [heq]
    rw [changesAt_append, mem_append, hone, ih hrest]
    simp [CreatedIn]

theorem spends_append (cs cs' : List Change) :
    spends (cs ++ cs') = spends cs + spends cs' := countP_append

/-- A transaction uses a nonce of an account that exists exactly when the
account pays for it. -/
theorem spends_entries (h : tx.entries L = some es) (ha : (L a).isSome = true) :
    spends (changesAt a es) = 0 ↔ tx.payer ≠ a := by
  rcases changesAt_entries (a := a) h with ⟨heq, -⟩ | ⟨heq, -, hnone⟩
  · rw [heq, spends_append, spends_gain]
    by_cases hp : tx.payer = a
    · rw [if_pos hp]
      exact iff_of_false (by simp [spends]) (not_not.mpr hp)
    · rw [if_neg hp]
      exact iff_of_true rfl hp
  · rw [heq, spends_gain]
    refine iff_of_true rfl ?_
    rintro rfl
    rw [hnone] at ha
    cases ha

/-- A transaction uses no nonce of an account that does not exist, and opens
the account exactly when it credits or creates it. -/
theorem changesAt_of_none (h : tx.entries L = some es) (ha : L a = none) :
    changesAt a es = changesAt a tx.gain := by
  rcases changesAt_entries (a := a) h with ⟨heq, hsome⟩ | ⟨heq, -, -⟩
  · have hp : tx.payer ≠ a := by
      rintro rfl
      rw [ha] at hsome
      cases hsome
    rw [heq, if_neg hp]
    rfl
  · exact heq

theorem spends_of_isSome (h : journal L txs = some es) (ha : (L a).isSome = true) :
    spends (changesAt a es) = 0 ↔ ∀ tx ∈ txs, tx.payer ≠ a := by
  induction txs generalizing L es with
  | nil =>
    obtain rfl := some.inj h
    simp [changesAt, spends]
  | cons tx txs ih =>
    obtain ⟨first, rest, hfirst, hrest, rfl⟩ := journal_cons.mp h
    have hsome : ((L.posts first) a).isSome = true := by
      rw [posts_at]
      exact (isSome_applyAll
        (allAllowed_changesAt (entries_allows hfirst) a)).mpr (.inl ha)
    rw [changesAt_append, spends_append, Nat.add_eq_zero_iff, spends_entries hfirst ha,
      ih hrest hsome, forall_mem_cons]

/-- **An account that does not exist before the block** uses a nonce exactly
when it spends after it received. -/
theorem spends_of_none (h : journal L txs = some es) (ha : L a = none) :
    spends (changesAt a es) ≠ 0 ↔ SpendsReceived a txs := by
  unfold SpendsReceived
  rw [ne_eq, not_iff_not]
  induction txs generalizing L es with
  | nil =>
    obtain rfl := some.inj h
    simp [changesAt, spends]
  | cons tx txs ih =>
    obtain ⟨first, rest, hfirst, hrest, rfl⟩ := journal_cons.mp h
    have hchanges := changesAt_of_none hfirst ha
    have hafter := posts_at L first a
    rw [ha, hchanges] at hafter
    rw [changesAt_append, spends_append, hchanges, spends_gain, Nat.zero_add,
      pairwise_cons]
    by_cases hgain : changesAt a tx.gain = []
    · -- still no account
      rw [hgain] at hafter
      rw [ih hrest hafter]
      simp [hgain]
    · have hallowed := allAllowed_changesAt (entries_allows hfirst) a
      rw [ha, hchanges] at hallowed
      have hsome : ((L.posts first) a).isSome = true := by
        rw [hafter]
        exact (isSome_applyAll hallowed).mpr (.inr hgain)
      rw [spends_of_isSome hrest hsome]
      constructor
      · intro hno
        refine ⟨fun u hu _ => hno u hu, ?_⟩
        exact pairwise_iff_forall_sublist.mpr fun hsub _ => hno _ (hsub.subset (by simp))
      · exact fun hno u hu => hno.1 u hu hgain

end Link

/-! ## A block on top of the pending state -/

/-- What readers see with the diff in the overlay, and what the database has
after the diff is written to it with no other one pending, is what the
validator had in its local accounts. -/
structure Reproduces (w : PendingStateWriter P) (view : Nat) (block : Block P) (d : StateDiff P)
    (a : Address P) : Prop where
  overlay : SameAccount (d.Creates a) ((w.addMNotarizedDiff view d).getAccount a)
    (localAfter w.getAccount block.transactions a)
  stored : w.pendingDiffs.entries = [] → SameAccount (d.Creates a)
    (fetchFromDb (applyDiffToDb w.store d) a) (localAfter w.getAccount block.transactions a)

section Block

variable {w : PendingStateWriter P} {view : Nat} {block : Block P} {d : StateDiff P}

/-- A diff of a view above the pending ones is read last. -/
theorem getAccount_addMNotarizedDiff (hpub : w.published = w.pendingDiffs)
    (hlast : w.lastFinalizedView < view) (htop : ∀ v ∈ w.pendingDiffs.keys, v < view)
    (d : StateDiff P) (a : Address P) :
    (w.addMNotarizedDiff view d).getAccount a = overlayDiff a (w.getAccount a) d := by
  unfold PendingStateWriter.addMNotarizedDiff PendingStateWriter.getAccount
  rw [if_pos hlast, hpub]
  unfold PendingStateWriter.publishSnapshot
  dsimp only
  rw [SortedMap.values_insert_of_lt d htop, foldl_append]
  rfl

/-- **A diff reproduces sequential execution** at an address exactly when its
credits and debits leave the same balance summed up as taken one by one, no
nonce of an account that the block opens and empties is lost, and, for the
database, the address is a public key or the block leaves nothing there. -/
theorem diff_reproduces_iff (hpub : w.published = w.pendingDiffs)
    (hlast : w.lastFinalizedView < view) (htop : ∀ v ∈ w.pendingDiffs.keys, v < view)
    (hL : Ledger.WellTyped w.getAccount) (h : validateBlock w.getAccount block = .ok d)
    (a : Address P) :
    Reproduces w view block d a ↔
      NetExact (w.getAccount a) (CreatedIn a block.transactions)
          (SpendsReceived a block.transactions) (flows a block.transactions) ∧
        (w.pendingDiffs.entries = [] → P.ed25519.isPublicKey a = true ∨
          ¬ CreatedIn a block.transactions ∧ ¬ SpendsReceived a block.transactions ∧
            (flows a block.transactions).sum = 0) := by
  obtain ⟨⟨-, hnodup⟩, hsum, es, hes, rfl⟩ := validateBlock_ok_iff.mp h
  have hallowed := allAllowed_changesAt (journal_allows hes) a
  have hlocal := congrFun (localAfter_eq hnodup hsum hes) a
  rw [posts_at] at hlocal
  have hbound := hL.balanceOf_lt a
  have hover : (w.addMNotarizedDiff view (journalDiff w.getAccount es _)).getAccount a =
      Change.net (w.getAccount a) (changesAt a es) :=
    (getAccount_addMNotarizedDiff hpub hlast htop _ a).trans
      (overlayDiff_journalDiff w.getAccount es (collectedFees block.transactions) a)
  have hnet := (Change.net_same_iff hallowed hbound).trans
    (NetExact.congr (create_mem_changesAt hes) (fun hnone => spends_of_none hes hnone)
      (sameCourse_flows hes))
  have hempty : ∀ c ∈ (journalDiff w.getAccount es (collectedFees
      block.transactions)).createdAccounts, c.initialBalance = 0 :=
    fun c hc => (mem_createdAccounts_journalDiff.mp hc).1
  -- with nothing pending the reader sees the database
  have hread : w.pendingDiffs.entries = [] → fetchFromDb w.store a = w.getAccount a := by
    intro hnil
    rw [PendingStateWriter.getAccount, hpub, SortedMap.values, hnil]
    rfl
  have hstored : w.pendingDiffs.entries = [] → fetchFromDb (applyDiffToDb w.store
      (journalDiff w.getAccount es (collectedFees block.transactions))) a =
        if P.ed25519.isPublicKey a = true then Change.net (w.getAccount a) (changesAt a es)
        else none := by
    intro hnil
    rw [fetchFromDb_applyDiffToDb _ hempty, hread hnil, overlayDiff_journalDiff]
  have hcreated : (journalDiff w.getAccount es (collectedFees block.transactions)).Creates a = _ :=
    propext creates_journalDiff
  constructor
  · rintro ⟨ho, hs⟩
    rw [hcreated, hover, hlocal] at ho
    refine ⟨hnet.mp ho, fun hnil => ?_⟩
    by_cases hkey : P.ed25519.isPublicKey a = true
    · exact Or.inl hkey
    · have hnone : w.getAccount a = none := (hread hnil).symm.trans (if_neg hkey)
      have hs := hs hnil
      rw [hcreated, hstored hnil, if_neg hkey, hlocal, hnone] at hs
      rw [hnone] at hallowed
      obtain ⟨hc, hsp, hz⟩ := (Change.none_same_iff hallowed).mp hs
      exact Or.inr ⟨mt (create_mem_changesAt hes).mpr hc,
        fun hused => (spends_of_none hes hnone).mpr hused hsp,
        (sameCourse_flows hes).sum.symm.trans hz⟩
  · rintro ⟨hexact, hdb⟩
    have ho := hnet.mpr hexact
    refine ⟨?_, fun hnil => ?_⟩
    · rw [hcreated, hover, hlocal]
      exact ho
    rw [hcreated, hstored hnil, hlocal]
    by_cases hkey : P.ed25519.isPublicKey a = true
    · rw [if_pos hkey]
      exact ho
    · have hnone : w.getAccount a = none := (hread hnil).symm.trans (if_neg hkey)
      obtain ⟨hc, hsp, hz⟩ := (hdb hnil).resolve_left hkey
      rw [if_neg hkey, hnone]
      rw [hnone] at hallowed
      exact (Change.none_same_iff hallowed).mpr ⟨mt (create_mem_changesAt hes).mp hc,
        not_not.mp (mt (spends_of_none hes hnone).mp hsp), (sameCourse_flows hes).sum.trans hz⟩

end Block

/-! ## Blocks whose diff says something else -/

/-- The diff of a block that is accepted. -/
def diffOf (getAccount : Ledger P) (block : Block P) : StateDiff P :=
  match validateBlock getAccount block with
  | .ok d => d
  | _ => StateDiff.new

theorem validateBlock_diffOf {getAccount : Ledger P} {block : Block P}
    (h : (validateBlock getAccount block).isOk = true) :
    validateBlock getAccount block = .ok (diffOf getAccount block) := by
  obtain ⟨d, hd⟩ := Outcome.isOk_iff.mp h
  rw [diffOf, hd]

/-- A database in which account 1 has a hundred coins, and nothing
pending. -/
def oneAccount : PendingStateWriter sampleParams :=
  PendingStateWriter.new
    (Store.empty.putAccount (sampleAddress 1) { balance := 100, nonce := 0 }) 0

theorem fetchFromDb_oneAccount (a : Address sampleParams) :
    fetchFromDb oneAccount.store a =
      if sampleAddress 1 = a then some { balance := 100, nonce := 0 } else none := by
  change fetchFromDb (Store.empty.putAccount _ _) a = _
  rw [fetchFromDb_putAccount _ _ _ rfl]
  rfl

theorem oneAccount_wellTyped : Ledger.WellTyped (fetchFromDb oneAccount.store) := by
  intro a st hst
  rw [fetchFromDb_oneAccount] at hst
  split at hst
  · obtain rfl := some.inj hst
    exact ⟨by decide, by decide⟩
  · cases hst

/-- Account 1 pays account 3, which pays everything back. -/
def thereAndBack : Block sampleParams :=
  blockOf [signedTransaction (sampleAddress 1) (.transfer (sampleAddress 3) 10) 0 0,
    signedTransaction (sampleAddress 3) (.transfer (sampleAddress 1) 10) 0 0]

/-- Account 1 mints more than a `u64` can hold, then pays a hundred coins. -/
def mintAndPay : Block sampleParams :=
  blockOf [signedTransaction (sampleAddress 1) (.mint (sampleAddress 1) (u64Size - 1)) 0 0,
    signedTransaction (sampleAddress 1) (.transfer (sampleAddress 2) 100) 1 0]

/-- **A diff can lose a nonce, and can give back what the execution cut.** -/
theorem diff_loses_nonce_and_cut :
    (validateBlock oneAccount.getAccount thereAndBack =
        .ok (diffOf oneAccount.getAccount thereAndBack) ∧
      localAfter oneAccount.getAccount thereAndBack.transactions (sampleAddress 3) =
        some { balance := 0, nonce := 1 } ∧
      ¬ Reproduces oneAccount 1 thereAndBack (diffOf oneAccount.getAccount thereAndBack)
        (sampleAddress 3)) ∧
    (validateBlock oneAccount.getAccount mintAndPay =
        .ok (diffOf oneAccount.getAccount mintAndPay) ∧
      localAfter oneAccount.getAccount mintAndPay.transactions (sampleAddress 1) =
        some { balance := u64Size - 101, nonce := 2 } ∧
      ¬ Reproduces oneAccount 1 mintAndPay (diffOf oneAccount.getAccount mintAndPay)
        (sampleAddress 1)) := by
  refine ⟨⟨validateBlock_diffOf (by decide +kernel), by decide +kernel, fun h => ?_⟩,
    ⟨validateBlock_diffOf (by decide +kernel), by decide +kernel, fun h => ?_⟩⟩
  · exact absurd h.overlay.nonce (by decide +kernel)
  · exact absurd h.overlay.balance (by decide +kernel)

/-- An account that exists keeps its nonce. -/
theorem diff_reproduces_payer : Reproduces oneAccount 1 thereAndBack
    (diffOf oneAccount.getAccount thereAndBack) (sampleAddress 1) := by
  refine (diff_reproduces_iff rfl (by decide) (fun v hv => absurd hv List.not_mem_nil) ?_
    (validateBlock_diffOf (by decide +kernel)) _).mpr ⟨?_, fun _ => Or.inl rfl⟩
  · exact oneAccount_wellTyped
  · refine ⟨fun _ => Or.inl (by decide +kernel), fun hnone => ?_, fun hnone => ?_⟩ <;>
    · exact absurd hnone (by decide +kernel)

end Minimmit
