/-
Minimmit.Validation.DiffTheorems — the diff of a block and its execution.

The diff of an accepted block, added to the overlay or written to the
database, gives every account the value `net` of its changes
(`overlayDiff_journalDiff`, `fetchFromDb_applyDiffToDb`), and the validator's
local accounts hold the value `applyAll` of the same changes. So the question
whether a diff reproduces the execution is one about the credits and debits
of a single account.
-/
import Minimmit.Validation.AccountHistory
import Minimmit.Validation.ExecutionTheorems

namespace Minimmit

open Minimmit.Library StateDiff List AccountUpdate

variable {P : Params}

/-! ## The entries of one address -/

/-- The changes of the account at an address. -/
def changesAt (a : Address P) (es : List (Entry P)) : List Change :=
  es.filterMap fun e => if e.address = a then some e.change else none

section ChangesAt

variable {a : Address P} {e : Entry P} {es : List (Entry P)} {L : Ledger P}

theorem changesAt_cons_self (h : e.address = a) :
    changesAt a (e :: es) = e.change :: changesAt a es := by
  simp [changesAt, h]

theorem changesAt_cons_ne (h : e.address ≠ a) : changesAt a (e :: es) = changesAt a es := by
  simp [changesAt, h]

theorem changesAt_singleton : changesAt a [e] = if e.address = a then [e.change] else [] := by
  by_cases h : e.address = a
  · rw [changesAt_cons_self h, if_pos h]
    rfl
  · rw [changesAt_cons_ne h, if_neg h]
    rfl

theorem changesAt_append (es es' : List (Entry P)) :
    changesAt a (es ++ es') = changesAt a es ++ changesAt a es' := filterMap_append

theorem post_at_self (h : e.address = a) : L.post e a = e.change.apply (L a) := by
  subst h
  exact Function.update_self ..

theorem post_at_ne (h : e.address ≠ a) : L.post e a = L a := Function.update_of_ne h.symm ..

theorem posts_at (L : Ledger P) (es : List (Entry P)) (a : Address P) :
    L.posts es a = Change.applyAll (L a) (changesAt a es) := by
  induction es generalizing L with
  | nil => rfl
  | cons e es ih =>
    by_cases he : e.address = a
    · rw [changesAt_cons_self he]
      exact (ih _).trans (by rw [post_at_self he]; rfl)
    · rw [changesAt_cons_ne he]
      exact (ih _).trans (by rw [post_at_ne he])

theorem allAllowed_changesAt (h : L.Allows es) (a : Address P) :
    Change.AllAllowed (L a) (changesAt a es) := by
  induction es generalizing L with
  | nil => trivial
  | cons e es ih =>
    have hrest := ih h.2
    by_cases he : e.address = a
    · rw [changesAt_cons_self he]
      rw [post_at_self he] at hrest
      exact ⟨he ▸ h.1, hrest⟩
    · rw [changesAt_cons_ne he]
      rw [post_at_ne he] at hrest
      exact hrest

theorem nonce_getD (x : Option AccountState) :
    (x.getD { balance := 0, nonce := 0 }).nonce = nonceOf x := by cases x <;> rfl

/-- What a diff holds at an address after a balance change. -/
theorem lookup_addBalanceChange (d : StateDiff P) (b : Address P) (delta : Int) (n : Nat) :
    (d.addBalanceChange b delta n).updates.lookup a = if b = a then
        some { balanceDelta := Change.recorded (d.updates.lookup a) + delta, newNonce := n }
      else d.updates.lookup a := by
  unfold addBalanceChange
  by_cases h : b = a
  · subst h
    rw [if_pos rfl, AList.lookup_insert]
    cases d.updates.lookup b with
    | none => simp [Change.recorded]
    | some u => rfl
  · rw [if_neg h]
    exact AList.lookup_insert_ne (Ne.symm h)

theorem lookup_record (d : StateDiff P) :
    (d.record L e).updates.lookup a =
      if e.address = a then e.change.record (L a) (d.updates.lookup a)
      else d.updates.lookup a := by
  unfold record
  cases hc : e.change with
  | spend amount | credit amount =>
    rw [lookup_addBalanceChange, nonce_getD]
    split
    case isTrue h => subst h; rfl
    case isFalse => rfl
  | create => exact (ite_self _).symm

/-- **The update of an address** in the diff is the record of its changes. -/
theorem lookup_recordAll (L : Ledger P) (d : StateDiff P) (es : List (Entry P)) (a : Address P) :
    (recordAll L d es).updates.lookup a =
      Change.recordAll (L a) (d.updates.lookup a) (changesAt a es) := by
  induction es generalizing L d with
  | nil => rfl
  | cons e es ih =>
    rw [recordAll, ih, lookup_record]
    by_cases he : e.address = a
    · rw [if_pos he, changesAt_cons_self he, post_at_self he]
      rfl
    · rw [if_neg he, changesAt_cons_ne he, post_at_ne he]

/-- The created accounts of a diff, empty ones all of them. -/
theorem mem_createdAccounts_recordAll (L : Ledger P) (d : StateDiff P) (es : List (Entry P))
    (created : NewAccount P) :
    created ∈ (recordAll L d es).createdAccounts ↔
      created ∈ d.createdAccounts ∨
        created.initialBalance = 0 ∧ Change.create ∈ changesAt created.address es := by
  induction es generalizing L d with
  | nil => simp [recordAll, changesAt]
  | cons e es ih =>
    rw [recordAll, ih]
    by_cases he : e.address = created.address
    · rw [changesAt_cons_self he]
      cases hc : e.change with
      | spend amount => simp [record, hc, addBalanceChange]
      | credit amount => simp [record, hc, addBalanceChange]
      | create =>
        have hiff : created = { address := e.address, initialBalance := 0 } ↔
            created.initialBalance = 0 := by
          obtain ⟨address, initialBalance⟩ := created
          simp only at he
          simp [he]
        simp only [record, hc, addCreatedAccount, mem_append, hiff,
          mem_cons, true_or, and_true]
        tauto
    · rw [changesAt_cons_ne he]
      have hrec : created ∈ (d.record L e).createdAccounts ↔ created ∈ d.createdAccounts := by
        cases hc : e.change with
        | spend amount => simp [record, hc, addBalanceChange]
        | credit amount => simp [record, hc, addBalanceChange]
        | create =>
          have hne : created ≠ { address := e.address, initialBalance := 0 } := by
            rintro rfl
            exact he rfl
          simp [record, hc, addCreatedAccount, hne]
      rw [hrec]

end ChangesAt

/-! ## Reading the diff -/

section Reading

variable {L : Ledger P} {es : List (Entry P)} {fees : Nat} {a : Address P}

theorem mem_createdAccounts_journalDiff {created : NewAccount P} :
    created ∈ (journalDiff L es fees).createdAccounts ↔
      created.initialBalance = 0 ∧ Change.create ∈ changesAt created.address es := by
  have := mem_createdAccounts_recordAll L new es created
  simpa [new, journalDiff, withFees] using this

/-- The diff creates the account. -/
def StateDiff.Creates (d : StateDiff P) (a : Address P) : Prop :=
  ∃ created ∈ d.createdAccounts, created.address = a

theorem creates_journalDiff :
    (journalDiff L es fees).Creates a ↔ Change.create ∈ changesAt a es := by
  constructor
  · rintro ⟨created, hmem, rfl⟩
    exact (mem_createdAccounts_journalDiff.mp hmem).2
  · exact fun hmem => ⟨{ address := a, initialBalance := 0 },
      mem_createdAccounts_journalDiff.mpr ⟨rfl, hmem⟩, rfl⟩

theorem lookup_journalDiff (L : Ledger P) (es : List (Entry P)) (fees : Nat) (a : Address P) :
    (journalDiff L es fees).updates.lookup a =
      Change.recordAll (L a) none (changesAt a es) := lookup_recordAll L new es a

/-- The account on which a reader starts with a diff: created accounts are
empty. -/
def StateDiff.base (d : StateDiff P) (a : Address P) (x : Option AccountState) :
    Option AccountState :=
  match d.createdAccounts.find? (·.address == a) with
  | some created => some { balance := created.initialBalance, nonce := 0 }
  | none => x

theorem StateDiff.base_of_not_creates {d : StateDiff P} (h : ¬ d.Creates a)
    (x : Option AccountState) : d.base a x = x := by
  unfold base
  rw [find?_eq_none.mpr fun c hc heq => h ⟨c, hc, beq_iff_eq.mp heq⟩]

/-- A created account starts anew, whatever was there. -/
theorem StateDiff.base_of_creates {d : StateDiff P} (h : d.Creates a)
    (x y : Option AccountState) : d.base a x = d.base a y := by
  obtain ⟨c, hc, heq⟩ := h
  unfold base
  cases hfind : d.createdAccounts.find? (·.address == a) with
  | none => exact absurd (beq_iff_eq.mpr heq) (find?_eq_none.mp hfind c hc)
  | some c' => rfl

theorem overlayDiff_eq (d : StateDiff P) (x : Option AccountState) :
    overlayDiff a x d = applyTo (d.updates.lookup a) (d.base a x) := by
  unfold overlayDiff applyTo base
  cases d.updates.lookup a <;> rfl

theorem base_journalDiff (x : Option AccountState) :
    (journalDiff L es fees).base a x =
      if Change.create ∈ changesAt a es then some { balance := 0, nonce := 0 } else x := by
  unfold base
  cases hfind : (journalDiff L es fees).createdAccounts.find? (·.address == a) with
  | none =>
    have hnot : Change.create ∉ changesAt a es := fun hmem => by
      have := find?_eq_none.mp hfind { address := a, initialBalance := 0 }
        (mem_createdAccounts_journalDiff.mpr ⟨rfl, hmem⟩)
      simp at this
    rw [if_neg hnot]
  | some created =>
    obtain ⟨hzero, hmem⟩ := mem_createdAccounts_journalDiff.mp (mem_of_find?_eq_some hfind)
    have haddr : created.address = a := by simpa using find?_some hfind
    rw [if_pos (haddr ▸ hmem)]
    dsimp only
    rw [hzero]

/-- **The overlay** shows the net of the changes. -/
theorem overlayDiff_journalDiff (L : Ledger P) (es : List (Entry P)) (fees : Nat) (a : Address P) :
    overlayDiff a (L a) (journalDiff L es fees) = Change.net (L a) (changesAt a es) := by
  rw [overlayDiff_eq, lookup_journalDiff, base_journalDiff]
  rfl

end Reading

/-! ## Writing the diff -/

section Writing

variable {a : Address P}

theorem fetchFromDb_putAccount (s : Store P) (b : Address P) (account : Account)
    (ha : P.ed25519.isPublicKey a = true) :
    fetchFromDb (s.putAccount b account) a =
      if b = a then some { balance := account.balance, nonce := account.nonce }
      else fetchFromDb s a := by
  unfold fetchFromDb Store.putAccount Store.getAccount
  rw [if_pos ha, if_pos ha]
  by_cases h : b = a
  · subst h
    simp
  · rw [if_neg h, AList.lookup_insert_ne (Ne.symm h)]

theorem fetchFromDb_of_not_publicKey (s : Store P) (ha : ¬ P.ed25519.isPublicKey a = true) :
    fetchFromDb s a = none := if_neg ha

theorem fetchFromDb_applyCreated (s : Store P) (created : NewAccount P)
    (ha : P.ed25519.isPublicKey a = true) :
    fetchFromDb (applyCreated s created) a =
      if created.address = a then some { balance := created.initialBalance, nonce := 0 }
      else fetchFromDb s a := by
  unfold applyCreated
  by_cases h : created.address = a
  · rw [if_pos (h ▸ ha), fetchFromDb_putAccount _ _ _ ha]
  · rw [if_neg h]
    split
    · rw [fetchFromDb_putAccount _ _ _ ha, if_neg h]
    · rfl

/-- The created accounts of a diff are written before its updates. Those of
one address are equal, so the last write is the first one. -/
theorem fetchFromDb_created (s : Store P) {created : List (NewAccount P)}
    (hempty : ∀ c ∈ created, c.initialBalance = 0) (ha : P.ed25519.isPublicKey a = true) :
    fetchFromDb (created.foldl applyCreated s) a = match created.find? (·.address == a) with
      | some c => some { balance := c.initialBalance, nonce := 0 }
      | none => fetchFromDb s a := by
  induction created generalizing s with
  | nil => rfl
  | cons c created ih =>
    rw [foldl_cons, ih _ fun c' hc' => hempty c' (mem_cons_of_mem _ hc'),
      find?_cons, fetchFromDb_applyCreated _ _ ha]
    by_cases h : c.address = a
    · rw [if_pos h, beq_iff_eq.mpr h]
      dsimp only
      split
      case h_1 c' hfind =>
        rw [hempty c mem_cons_self,
          hempty c' (mem_cons_of_mem _ (mem_of_find?_eq_some hfind))]
      case h_2 => rfl
    · rw [if_neg h, beq_eq_false_iff_ne.mpr h]

theorem fetchFromDb_applyUpdate (s : Store P) (e : Sigma fun _ : Address P => AccountUpdate)
    (ha : P.ed25519.isPublicKey a = true) :
    fetchFromDb (applyUpdate s e) a = if e.1 = a then applyTo (some e.2) (fetchFromDb s a)
      else fetchFromDb s a := by
  obtain ⟨b, u⟩ := e
  unfold applyUpdate
  dsimp only
  by_cases h : b = a
  · subst h
    rw [if_pos rfl, if_pos ha]
    have hfetch : fetchFromDb s b =
        (s.getAccount b).map fun x => { balance := x.balance, nonce := x.nonce } := if_pos ha
    cases hrow : s.getAccount b with
    | some account =>
      rw [hrow] at hfetch
      dsimp only
      rw [fetchFromDb_putAccount _ _ _ ha, if_pos rfl, hfetch]
      rfl
    | none =>
      rw [hrow] at hfetch
      dsimp only
      rw [hfetch]
      unfold applyTo
      dsimp only [Option.map_none]
      split
      · rw [fetchFromDb_putAccount _ _ _ ha, if_pos rfl]
      · exact hfetch
  · rw [if_neg h]
    split
    · split
      · rw [fetchFromDb_putAccount _ _ _ ha, if_neg h]
      · split
        · rw [fetchFromDb_putAccount _ _ _ ha, if_neg h]
        · rfl
    · rfl

/-- Updates of distinct addresses can be written in any order. -/
theorem fetchFromDb_updates (s : Store P) {l : List (Sigma fun _ : Address P => AccountUpdate)}
    (hl : l.NodupKeys) (ha : P.ed25519.isPublicKey a = true) :
    fetchFromDb (l.foldl applyUpdate s) a = applyTo (l.dlookup a) (fetchFromDb s a) := by
  induction l generalizing s with
  | nil => rfl
  | cons e l ih =>
    obtain ⟨hnot, hl'⟩ := nodupKeys_cons.mp hl
    rw [foldl_cons, ih _ hl', fetchFromDb_applyUpdate _ _ ha]
    obtain ⟨b, u⟩ := e
    dsimp only
    by_cases h : b = a
    · subst h
      rw [if_pos rfl, dlookup_cons_eq, dlookup_eq_none.mpr hnot]
      rfl
    · rw [if_neg h, dlookup_cons_ne _ _ (Ne.symm h)]

/-- **The database after a diff** shows what the overlay shows; addresses
that are no public key have no row. -/
theorem fetchFromDb_applyDiffToDb (s : Store P) {d : StateDiff P}
    (hempty : ∀ c ∈ d.createdAccounts, c.initialBalance = 0) (a : Address P) :
    fetchFromDb (applyDiffToDb s d) a =
      if P.ed25519.isPublicKey a = true then overlayDiff a (fetchFromDb s a) d else none := by
  split
  case isFalse ha => exact fetchFromDb_of_not_publicKey _ ha
  case isTrue ha =>
    have hperm := P.hashOrder.perm 0 _ d.updates.entries
    have hnodup : (P.hashOrder.apply 0 _ d.updates.entries).NodupKeys :=
      (perm_nodupKeys hperm).mpr d.updates.nodupKeys
    rw [applyDiffToDb, fetchFromDb_updates _ hnodup ha, perm_dlookup a hnodup hperm,
      fetchFromDb_created _ hempty ha, overlayDiff_eq]
    rfl

end Writing

end Minimmit
