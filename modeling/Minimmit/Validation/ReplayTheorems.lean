/-
Minimmit.Validation.ReplayTheorems — can a transaction be executed twice?

Within a block a hash that occurs twice is refused. Across blocks only the
nonce protects: a transaction uses the nonce of its payer, and the next one
of that account needs a higher nonce. This works as long as the nonce is
kept. A mint by a sender without an account uses none. An account opened and
emptied by the same block, or at an address that is no public key, is
forgotten with its nonce. And a hash that is not the one of the content says
nothing about the nonce. Without these, no hash occurs twice in a chain
(`replay_protected`).
-/
import Minimmit.Validation.ReproductionTheorems

namespace Minimmit

open Minimmit.Library Change List

variable {P : Params}

/-- A chain of blocks from a database on: each block is accepted on the state
the diffs of the ones before it leave, and `Good` of that state. -/
inductive AcceptedChain (Good : Ledger P → List (Transaction P) → Prop) :
    Store P → List (Block P) → Prop
  | nil (s : Store P) : AcceptedChain Good s []
  | cons {s : Store P} {block : Block P} {blocks : List (Block P)} {d : StateDiff P}
      (accepted : validateBlock (fetchFromDb s) block = .ok d)
      (good : Good (fetchFromDb s) block.transactions)
      (rest : AcceptedChain Good (applyDiffToDb s d) blocks) : AcceptedChain Good s (block :: blocks)

/-- The hashes of all transactions of the chain, in order. -/
def chainHashes (blocks : List (Block P)) : List (Hash P) :=
  blocks.flatMap fun block => block.transactions.map (·.txHash)

/-- What keeps the nonces of a block: the hashes are those of the content,
whoever mints has an account, and every payer is a public key that has an
account before the block, is created by it or keeps some of what it
receives. -/
structure NoncesKept (L : Ledger P) (txs : List (Transaction P)) : Prop where
  hashed : ∀ tx ∈ txs, tx.txHash = tx.computeHash
  minter : ∀ done tx rest, txs = done ++ tx :: rest → ∀ recipient amount,
    tx.instruction = .mint recipient amount →
      (L tx.sender).isSome = true ∨ ∃ t ∈ done, changesAt tx.sender t.gain ≠ []
  payer : ∀ tx ∈ txs, P.ed25519.isPublicKey tx.payer = true ∧
    ((L tx.payer).isSome = true ∨ CreatedIn tx.payer txs ∨ 0 < (flows tx.payer txs).sum)

/-! ## One block -/

section Block

variable {L : Ledger P} {txs : List (Transaction P)} {es : List (Entry P)} {a : Address P}

theorem nonceOf_posts (h : L.Allows es) :
    nonceOf (L.posts es a) = nonceOf (L a) + spends (changesAt a es) := by
  rw [posts_at]
  exact nonceOf_applyAll (allAllowed_changesAt h a)

/-- An account that exists, or that a transaction has opened, exists. -/
theorem isSome_posts (h : journal L txs = some es)
    (ha : (L a).isSome = true ∨ ∃ t ∈ txs, changesAt a t.gain ≠ []) :
    (L.posts es a).isSome = true := by
  rw [posts_at]
  refine (isSome_applyAll (allAllowed_changesAt (journal_allows h) a)).mpr (ha.imp_right ?_)
  rintro ⟨t, ht, hgain⟩ hnil
  obtain ⟨done, rest, rfl⟩ := append_of_mem ht
  obtain ⟨fs, gs, -, hgs, rfl⟩ := journal_append.mp h
  obtain ⟨ts, us, hts, -, rfl⟩ := journal_cons.mp hgs
  rw [changesAt_append, changesAt_append, append_eq_nil_iff, append_eq_nil_iff] at hnil
  rcases changesAt_entries (a := a) hts with ⟨heq, -⟩ | ⟨heq, -, -⟩
  · exact hgain (append_eq_nil_iff.mp (heq.symm.trans hnil.2.1)).2
  · exact hgain (heq.symm.trans hnil.2.1)

/-- **A transaction uses the nonce it carries**: it is at least the one of the
payer before the block and below the one after it. -/
theorem nonce_used (hkept : NoncesKept L txs) (h : journal L txs = some es) {tx : Transaction P}
    (ht : tx ∈ txs) :
    nonceOf (L tx.payer) ≤ tx.nonce ∧ tx.nonce < nonceOf (L.posts es tx.payer) := by
  obtain ⟨done, rest, hsplit⟩ := append_of_mem ht
  subst hsplit
  obtain ⟨fs, gs, hfs, hgs, rfl⟩ := journal_append.mp h
  obtain ⟨ts, us, hts, hus, rfl⟩ := journal_cons.mp hgs
  have hbefore := nonceOf_posts (a := tx.payer) (journal_allows hfs)
  have hafter := nonceOf_posts (a := tx.payer) (journal_allows hgs)
  rw [← Ledger.posts_append, changesAt_append, spends_append] at hafter
  rcases Transaction.entries_cases hts with
    ⟨st, hst, hnonce, -, -, -, rfl⟩ | ⟨recipient, amount, hi, hnone, -⟩
  · have hst' : nonceOf (L.posts fs tx.payer) = tx.nonce := by
      rw [hst, hnonce]
      rfl
    have hspend : 1 ≤ spends (changesAt tx.payer (⟨tx.payer, .spend tx.spent⟩ :: tx.gain)) := by
      rw [changesAt_cons_self (e := ⟨tx.payer, .spend tx.spent⟩) rfl, spends_cons]
      exact Nat.le_add_right _ _
    omega
  · -- the minter has an account by now
    have hsome := isSome_posts hfs (hkept.minter done tx rest rfl recipient amount hi)
    rw [hnone] at hsome
    cases hsome

end Block

section Store

variable {s : Store P} {block : Block P} {d : StateDiff P} {a : Address P}

/-- The database after an accepted block. -/
theorem fetchFromDb_accepted {es : List (Entry P)} {fees : Nat} (a : Address P) :
    fetchFromDb (applyDiffToDb s (journalDiff (fetchFromDb s) es fees)) a =
      if P.ed25519.isPublicKey a = true then
        net (fetchFromDb s a) (changesAt a es) else none := by
  rw [fetchFromDb_applyDiffToDb s (fun c hc => (mem_createdAccounts_journalDiff.mp hc).1),
    overlayDiff_journalDiff]

/-- No nonce goes down. -/
theorem nonceOf_le_accepted (h : validateBlock (fetchFromDb s) block = .ok d) (a : Address P) :
    nonceOf (fetchFromDb s a) ≤ nonceOf (fetchFromDb (applyDiffToDb s d) a) := by
  obtain ⟨-, -, es, hes, rfl⟩ := validateBlock_ok_iff.mp h
  rw [fetchFromDb_accepted]
  split
  case isTrue => exact nonceOf_le_net (allAllowed_changesAt (journal_allows hes) a)
  case isFalse hkey =>
    rw [fetchFromDb_of_not_publicKey s hkey]

variable {tx : Transaction P}

/-- The nonce a transaction used is below the payer's in the database. -/
theorem nonce_lt_accepted (h : validateBlock (fetchFromDb s) block = .ok d)
    (hkept : NoncesKept (fetchFromDb s) block.transactions)
    (ht : tx ∈ block.transactions) :
    tx.nonce < nonceOf (fetchFromDb (applyDiffToDb s d) tx.payer) := by
  obtain ⟨-, -, es, hes, rfl⟩ := validateBlock_ok_iff.mp h
  obtain ⟨hkey, hcase⟩ := hkept.payer tx ht
  have hseen : (fetchFromDb s tx.payer).isSome = true ∨ create ∈ changesAt tx.payer es ∨
      0 < (deltas (changesAt tx.payer es)).sum := by
    rw [create_mem_changesAt hes, (sameCourse_flows hes).sum]
    exact hcase
  rw [fetchFromDb_accepted, if_pos hkey,
    nonceOf_net (allAllowed_changesAt (journal_allows hes) tx.payer) hseen, ← posts_at]
  exact (nonce_used hkept hes ht).2

variable {blocks : List (Block P)}

/-- Along a chain, the transactions use nonces from those of the database
on. -/
theorem nonce_le_of_chain (h : AcceptedChain NoncesKept s blocks)
    (ht : tx ∈ blocks.flatMap (·.transactions)) :
    nonceOf (fetchFromDb s tx.payer) ≤ tx.nonce := by
  induction h with
  | nil s => cases ht
  | cons accepted good rest ih =>
    rw [flatMap_cons, mem_append] at ht
    rcases ht with ht | ht
    · obtain ⟨-, -, es, hes, -⟩ := validateBlock_ok_iff.mp accepted
      exact (nonce_used good hes ht).1
    · exact (nonceOf_le_accepted accepted _).trans (ih ht)

theorem hashed_of_chain (h : AcceptedChain NoncesKept s blocks)
    (ht : tx ∈ blocks.flatMap (·.transactions)) :
    tx.txHash = tx.computeHash := by
  induction h with
  | nil s => cases ht
  | cons accepted good rest ih =>
    rw [flatMap_cons, mem_append] at ht
    exact ht.elim (good.hashed tx) ih

end Store

theorem Transaction.SameContent.payer {t u : Transaction P} (h : t.SameContent u) :
    t.payer = u.payer := by
  rw [Transaction.payer, Transaction.payer, h.instruction, h.sender]

/-- **Replay protection**: in a chain whose blocks keep the nonces, no
transaction hash occurs twice. By induction on the chain: a hash of the first
block that came again would name a nonce that is used. -/
theorem replay_protected (hinj : Function.Injective P.hashing.blake3) {s : Store P}
    {blocks : List (Block P)} (htyped : ∀ block ∈ blocks, block.WellTyped)
    (h : AcceptedChain NoncesKept s blocks) : (chainHashes blocks).Nodup := by
  induction h with
  | nil s => exact List.nodup_nil
  | @cons s block blocks d accepted good rest ih =>
    have hrest := ih fun b hb => htyped b (List.mem_cons_of_mem _ hb)
    rw [chainHashes, List.flatMap_cons]
    refine List.nodup_append.mpr ⟨(validateBlock_ok_iff.mp accepted).1.2, hrest, ?_⟩
    rintro _ hfirst _ hlater rfl
    obtain ⟨t, ht, htx⟩ := List.mem_map.mp hfirst
    obtain ⟨b, hb, hb'⟩ := List.mem_flatMap.mp hlater
    obtain ⟨u, hu, hux⟩ := List.mem_map.mp hb'
    have hmem : u ∈ blocks.flatMap (·.transactions) := List.mem_flatMap.mpr ⟨b, hb, hu⟩
    have hcompute : t.computeHash = u.computeHash := by
      rw [← good.hashed t ht, ← hashed_of_chain rest hmem, htx, hux]
    have hsame := Transaction.sameContent_of_computeHash hinj
      ((htyped block List.mem_cons_self).2.2.2.2 t ht)
      ((htyped b (List.mem_cons_of_mem _ hb)).2.2.2.2 u hu) hcompute
    have hused := nonce_lt_accepted accepted good ht
    have hfree := nonce_le_of_chain rest hmem
    rw [hsame.payer, hsame.nonce] at hused
    omega

/-! ## A mint that comes again -/

/-- Account 2 has no account and mints for account 1. -/
def freeMint : Block sampleParams :=
  blockOf [signedTransaction (sampleAddress 2) (.mint (sampleAddress 1) 5) 0 0]

/-- The database after a block. -/
def storeAfter (s : Store P) (block : Block P) : Store P :=
  applyDiffToDb s (diffOf (fetchFromDb s) block)

/-- **A transaction can be executed twice**: a mint by a sender without an
account is valid in every block. -/
theorem mint_executed_twice :
    AcceptedChain (fun _ _ => True) oneAccount.store [freeMint, freeMint] ∧
      ¬ (chainHashes [freeMint, freeMint]).Nodup ∧
      balanceOf (fetchFromDb (storeAfter (storeAfter oneAccount.store freeMint) freeMint)
        (sampleAddress 1)) = 110 := by
  refine ⟨.cons (validateBlock_diffOf (by decide +kernel)) trivial
    (.cons (validateBlock_diffOf (by decide +kernel)) trivial (.nil _)), by decide +kernel,
    by decide +kernel⟩

/-- Payments of account 1, one per block. -/
def paymentBlock (nonce : Nat) : Block sampleParams :=
  blockOf [signedTransaction (sampleAddress 1) (.transfer (sampleAddress 2) 10) nonce 1]

theorem noncesKept_payment {L : Ledger sampleParams} (h : (L (sampleAddress 1)).isSome = true)
    (nonce : Nat) : NoncesKept L (paymentBlock nonce).transactions where
  hashed := by
    intro tx ht
    rw [mem_singleton.mp ht]
    exact signedTransaction_txHash ..
  minter := by
    intro done tx rest hsplit recipient amount hi
    have ht : tx ∈ (paymentBlock nonce).transactions := by rw [hsplit]; simp
    obtain rfl := mem_singleton.mp ht
    cases hi
  payer := by
    intro tx ht
    obtain rfl := mem_singleton.mp ht
    exact ⟨rfl, Or.inl h⟩

/-- Two payments of one account. -/
theorem replay_protected_payments : (chainHashes [paymentBlock 0, paymentBlock 1]).Nodup :=
  replay_protected sampleHashing_injective (s := oneAccount.store) (by decide +kernel)
    (.cons (validateBlock_diffOf (by decide +kernel)) (noncesKept_payment (by decide +kernel) 0)
      (.cons (validateBlock_diffOf (by decide +kernel)) (noncesKept_payment (by decide +kernel) 1)
        (.nil _)))

end Minimmit
