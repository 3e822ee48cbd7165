/-
Minimmit.Consensus.RestartTheorems — what a restart does to the ledger and to
the signatures of a replica.

The new process writes genesis over the store, so the accounts stay as they
were exactly if every genesis account still has its genesis balance and nonce
zero (`writeGenesis_unchanged_iff`). It remembers no signature. A vote goes
to the hash of its view's context, which comes from a proposal or a
certificate; if these repeat the old hashes, so do the new signatures
(`restart_safe`). A replica that has paid, and voted, and is restarted has
the genesis balance again and votes for another block of the same view
(`restarted_twice_voter`).
-/
import Minimmit.Consensus.BindingTheorems
import Minimmit.Consensus.NotificationTheorems
import Minimmit.Consensus.Restart

namespace Minimmit

open Minimmit.Library List

variable {P : Params}

/-! ## The tables -/

/-- Two stores with the same accounts and the same finalized blocks. -/
structure LedgerUnchanged (s t : Store P) : Prop where
  accounts : ∀ a, s.getAccount a = t.getAccount a
  finalized : ∀ h, s.getFinalizedBlock h = t.getFinalizedBlock h

/-- The genesis balance of an address; a later entry of the list wins. -/
def genesisBalance (accounts : List (Address P × Nat)) (a : Address P) : Option Nat :=
  (accounts.reverse.find? fun e => decide (e.1 = a)).map (·.2)

/-- Nothing that genesis wrote has changed since. -/
structure GenesisIntact (store : Store P) (leader : Nat) (accounts : List (Address P × Nat)) :
    Prop where
  accounts : ∀ a balance, genesisBalance accounts a = some balance →
    store.getAccount a = some { balance, nonce := 0 }
  block : store.getFinalizedBlock (Block.genesisHash P) = some (Block.genesis leader 0)

theorem getAccount_putGenesis (accounts : List (Address P × Nat)) (store : Store P)
    (a : Address P) :
    (accounts.foldl (fun s e => s.putAccount e.1 { balance := e.2, nonce := 0 }) store).getAccount a =
      ((genesisBalance accounts a).map fun balance => { balance, nonce := 0 }).or
        (store.getAccount a) := by
  induction accounts using reverseRecOn with
  | nil => rfl
  | append_singleton accounts e ih =>
    rw [foldl_append]
    by_cases ha : e.1 = a
    · subst ha
      simp [genesisBalance, Store.getAccount, Store.putAccount, AList.lookup_insert]
    · have hne : a ≠ e.1 := fun h => ha h.symm
      have hget : ∀ s : Store P, (s.putAccount e.1 { balance := e.2, nonce := 0 }).getAccount a =
          s.getAccount a := fun s => AList.lookup_insert_ne hne
      simp only [foldl_cons, foldl_nil, hget, ih]
      simp [genesisBalance, ha]

theorem getFinalizedBlock_putGenesis (accounts : List (Address P × Nat)) (store : Store P)
    (h : Hash P) :
    (accounts.foldl (fun s e => s.putAccount e.1 { balance := e.2, nonce := 0 })
      store).getFinalizedBlock h = store.getFinalizedBlock h := by
  have hsame : SameBlocks (accounts.foldl (fun s e =>
      s.putAccount e.1 { balance := e.2, nonce := 0 }) store) store :=
    foldl_related .refl .trans (fun _ (_ : Address P × Nat) => ⟨rfl, rfl, rfl⟩) accounts store
  unfold Store.getFinalizedBlock
  rw [hsame.finalizedBlocks]

/-- **Writing genesis again changes nothing** exactly if nothing of it has
changed. -/
theorem writeGenesis_unchanged_iff (store : Store P) (leader : Nat)
    (accounts : List (Address P × Nat)) :
    LedgerUnchanged (store.writeGenesis leader accounts) store ↔
      GenesisIntact store leader accounts := by
  have haccount : ∀ a, (store.writeGenesis leader accounts).getAccount a =
      ((genesisBalance accounts a).map fun balance => { balance, nonce := 0 }).or
        (store.getAccount a) := fun a => getAccount_putGenesis accounts _ a
  have hblock : ∀ h, (store.writeGenesis leader accounts).getFinalizedBlock h =
      (store.putFinalizedBlock (Block.genesis leader 0)).getFinalizedBlock h :=
    fun h => getFinalizedBlock_putGenesis accounts _ h
  constructor
  · intro hsame
    refine ⟨fun a balance hbalance => ?_, ?_⟩
    · rw [← hsame.accounts a, haccount, hbalance]
      rfl
    · rw [← hsame.finalized, hblock]
      exact AList.lookup_insert _
  · intro hintact
    refine ⟨fun a => ?_, fun h => ?_⟩
    · rw [haccount]
      cases hbalance : genesisBalance accounts a with
      | none => rfl
      | some balance => exact (hintact.accounts a balance hbalance).symm
    · rw [hblock]
      by_cases hh : h = Block.genesisHash P
      · subst hh
        rw [hintact.block]
        exact AList.lookup_insert _
      · exact AList.lookup_insert_ne hh

theorem persistContext_tables (w : PendingStateWriter P) (e : Nat × ViewContext P) :
    SameTables (w.persistContext e).store w.store := by
  have hdiff : ∀ d, SameTables (w.addMNotarizedDiff e.1 d).store w.store := by
    intro d
    rw [addMNotarizedDiff_store]
    exact .refl _
  unfold PendingStateWriter.persistContext
  refine (putVotes_tables _ _).trans ?_
  cases e.2.stateDiff with
  | none =>
    cases e.2.block <;> cases e.2.mNotarization <;> cases e.2.nullification <;>
      exact ⟨⟨rfl, rfl, rfl⟩, rfl⟩
  | some d =>
    refine SameTables.trans ?_ (hdiff d)
    cases e.2.block <;> cases e.2.mNotarization <;> cases e.2.nullification <;>
      exact ⟨⟨rfl, rfl, rfl⟩, rfl⟩

/-- An orderly shutdown writes to other tables. -/
theorem leftStore_tables (s : Replica P) (orderly : Bool) :
    SameTables (s.leftStore orderly) s.chain.persistenceWriter.store := by
  cases orderly with
  | false => exact .refl _
  | true =>
    exact foldl_related (R := fun w w' : PendingStateWriter P => SameTables w.store w'.store)
      (fun w => .refl w.store) SameTables.trans persistContext_tables s.chain.iter _

/-! ## The signatures -/

/-- What was signed for the view before was this hash. -/
def Repeats (old : List (Signed P)) (v : Nat) (h : Hash P) : Prop :=
  ∀ e ∈ old, ∀ h', e.SignsBlock v h' → h' = h

/-- The own proposals in the log repeat the old hashes. -/
def OwnRepeat (old log : List (Signed P)) : Prop :=
  ∀ b chain sent, .proposal b chain sent ∈ log → Repeats old b.view b.getHash

theorem OwnRepeat.of_append {old log : List (Signed P)} {entry : Signed P}
    (h : OwnRepeat old (log ++ [entry])) : OwnRepeat old log :=
  fun b chain sent hmem => h b chain sent (mem_append_left _ hmem)

/-- Messages that repeat the old hashes, as long as the own proposals do. -/
def repeating (cfg : Config P) (old : List (Signed P)) : Admission cfg where
  admits log m := OwnRepeat old log → m.NamesHash (Repeats old)
  mono h hlog := h hlog.of_append
  own _ hlog := hlog _ _ _ (List.mem_append_right _ List.mem_cons_self)

namespace Replica

variable {cfg : Config P} {old : List (Signed P)}

/-- The hashes held and signed repeat the old ones. -/
structure Repeating (old : List (Signed P)) (s : Replica P) : Prop where
  held : ∀ v c, s.context v = some c → c.HashIn (Repeats old)
  signed : ∀ e ∈ s.signed, ∀ v h, e.SignsBlock v h → Repeats old v h

theorem Step.ownRepeat {A : Admission cfg} {s s' : Replica P} (h : Step A s s')
    (hown : OwnRepeat old s'.signed) : OwnRepeat old s.signed := by
  rcases h.signed_new with heq | ⟨e, heq, -⟩
  · rwa [heq] at hown
  · rw [heq] at hown
    exact hown.of_append

theorem Step.repeating {s s' : Replica P} (h : Step (repeating cfg old) s s')
    (hwf : s.WF (repeating cfg old)) (hs : OwnRepeat old s.signed → s.Repeating old) :
    OwnRepeat old s'.signed → s'.Repeating old := by
  intro hown
  have hold := hs (h.ownRepeat hown)
  refine ⟨h.hashIn (fun m hm => hm hown) hold.held, fun e he v hash hsig => ?_⟩
  rcases h.signed_cases he with hmem | ⟨-, hnew⟩
  · exact hold.signed e hmem v hash hsig
  cases hnew with
  | nullify => cases hsig
  | vote hc hr =>
    obtain ⟨rfl, rfl⟩ := hsig
    have hin := hold.held _ _ hc _ hr.anchored.1
    rwa [hwf.chain.viewNumber _ _ hc] at hin
  | proposal =>
    obtain ⟨rfl, rfl⟩ := hsig
    exact hown _ _ _ he

/-- **A restart is safe** as far as genesis and the messages allow. The
accounts and the finalized blocks stay as they were exactly if genesis is
intact. If the proposals and the M-notarizations that arrive for the views
signed before carry the hashes signed before, and so do the blocks the
replica proposes there itself, it signs no other hash. -/
theorem restart_safe (cfg : Config P) (s : Replica P) (orderly : Bool) (seed : Nat) {env : Env P}
    {r : Replica P} {running : Bool}
    (h : RunFrom { cfg with env } (fun m => m.NamesHash (Repeats s.signed))
      (restart cfg (s.leftStore orderly) seed) r running)
    (hown : OwnRepeat s.signed r.signed) :
    (LedgerUnchanged (restart cfg (s.leftStore orderly) seed).chain.persistenceWriter.store
        (s.leftStore orderly) ↔
      GenesisIntact s.chain.persistenceWriter.store (cfg.peers.leaderForView 0)
        cfg.genesisAccounts) ∧
      ∀ e ∈ s.signed, ∀ e' ∈ r.signed, ∀ v hash hash', e.SignsBlock v hash →
        e'.SignsBlock v hash' → hash = hash' := by
  constructor
  · refine (writeGenesis_unchanged_iff _ _ _).trans ?_
    have htables := leftStore_tables s orderly
    have haccount : ∀ a, (s.leftStore orderly).getAccount a =
        s.chain.persistenceWriter.store.getAccount a := fun a => by
      unfold Store.getAccount
      rw [htables.accounts]
    have hblock : ∀ hash, (s.leftStore orderly).getFinalizedBlock hash =
        s.chain.persistenceWriter.store.getFinalizedBlock hash := fun hash => by
      unfold Store.getFinalizedBlock
      rw [htables.finalizedBlocks]
    constructor
    · intro hintact
      exact ⟨fun a balance hb => (haccount a).symm.trans (hintact.accounts a balance hb),
        (hblock _).symm.trans hintact.block⟩
    · intro hintact
      exact ⟨fun a balance hb => (haccount a).trans (hintact.accounts a balance hb),
        (hblock _).trans hintact.block⟩
  · have hstart : (restart cfg (s.leftStore orderly) seed).Repeating s.signed := by
      refine ⟨fun v c hc hash hhash => ?_, fun e he => nomatch he⟩
      obtain ⟨-, rfl⟩ := restart_context hc
      cases hhash
    have hwf : (restart cfg (s.leftStore orderly) seed).WF
        (repeating { cfg with env } s.signed) := @restart_wf _ { cfg with env } _ _ _
    obtain ⟨hsteps, -⟩ := h.steps (A := repeating { cfg with env } s.signed)
      (fun _ m hm _ => hm) hwf (@restart_settled _ cfg _ _)
    have hrepeats := Steps.invariant (I := fun r => OwnRepeat s.signed r.signed →
      r.Repeating s.signed) (fun _ _ hwf hstep hI => hstep.repeating hwf hI) hsteps hwf
      (fun _ => hstart) hown
    intro e he e' he' v hash hash' hsig hsig'
    exact hrepeats.signed e' he' v hash' hsig' e he hash hsig

/-! ## Two restarts -/

/-- The hash the entry signs, with its view. -/
def signedHash : Signed P → Option (Nat × Hash P)
  | .proposal block _ _ => some (block.view, block.getHash)
  | .vote view blockHash _ => some (view, blockHash)
  | .nullify _ _ _ => none

theorem signsBlock_iff {e : Signed P} {v : Nat} {h : Hash P} :
    e.SignsBlock v h ↔ signedHash e = some (v, h) := by
  cases e <;> simp [Signed.SignsBlock, signedHash]

instance (old : List (Signed P)) (v : Nat) (h : Hash P) : Decidable (Repeats old v h) :=
  decidable_of_iff (∀ e ∈ old, ∀ p ∈ signedHash e, p.1 = v → p.2 = h) (by
    unfold Repeats
    refine forall₂_congr fun e _ => ?_
    simp only [signsBlock_iff, Option.mem_def, Prod.forall]
    exact ⟨fun H h' hs => H v h' hs rfl, fun H a b hs ha => H b (ha ▸ hs)⟩)

/-- A log of votes has no own proposals. -/
theorem ownRepeat_of_votes {old log : List (Signed P)}
    (h : log.all (fun | .vote _ _ _ => true | _ => false) = true) : OwnRepeat old log := by
  intro b chain sent hmem
  cases all_eq_true.mp h _ hmem

/-- A signature in the log, found by computation. -/
theorem exists_signsBlock {log : List (Signed P)} {v : Nat} {h : Hash P}
    (hmem : some (v, h) ∈ log.map signedHash) : ∃ e ∈ log, e.SignsBlock v h := by
  obtain ⟨e, he, heq⟩ := mem_map.mp hmem
  exact ⟨e, he, signsBlock_iff.mpr heq⟩

/-- Replica 0 after it voted for the first block. -/
def votedOnce : Replica sampleParams :=
  (runAll (sampleConfig 0 (quietEnv _)) 20 [.message (.blockProposal firstBlock)]).1

/-- Replica 0, shut down and restarted, gets the first block again. -/
def votedAgain : Replica sampleParams :=
  (handle (sampleConfig 0 (quietEnv _)) 20 (.message (.blockProposal firstBlock))
    (restart (sampleConfig 0 (quietEnv _)) (votedOnce.leftStore true) 7)).2

/-- It votes for it again, and genesis is as it was. -/
theorem restart_safe_votedAgain :
    votedAgain.signed.map signedHash = [some (1, firstBlock.getHash)] ∧
      (LedgerUnchanged (restart (sampleConfig 0 (quietEnv _)) (votedOnce.leftStore true)
          7).chain.persistenceWriter.store (votedOnce.leftStore true) ↔
        GenesisIntact votedOnce.chain.persistenceWriter.store (samplePeers.leaderForView 0) []) ∧
      ∀ e ∈ votedOnce.signed, ∀ e' ∈ votedAgain.signed, ∀ v hash hash', e.SignsBlock v hash →
        e'.SignsBlock v hash' → hash = hash' := by
  have hrepeats : Repeats votedOnce.signed 1 firstBlock.getHash := by decide +kernel
  refine ⟨by decide +kernel, restart_safe (sampleConfig 0 (quietEnv _)) votedOnce true 7
    (.step 20 (.message (.blockProposal firstBlock)) .start ?_)
    (ownRepeat_of_votes (by decide +kernel))⟩
  rintro m ⟨⟩
  exact hrepeats

/-- **After a restart the payment is undone and the replica votes twice.** It
voted for the block with the payment, which was finalized; restarted, it has
the genesis balance again and votes for another block of view 1. -/
theorem restarted_twice_voter :
    ∃ s r : Replica sampleParams, Run (fundedConfig 0) (fun _ m => m.WellTyped) s true ∧
      RunFrom (fundedConfig 0) (fun m => m.WellTyped)
        (restart (fundedConfig 0) (s.leftStore true) 7) r true ∧
      ¬ LedgerUnchanged (restart (fundedConfig 0) (s.leftStore true) 7).chain.persistenceWriter.store
          (s.leftStore true) ∧
      ∃ e ∈ s.signed, ∃ e' ∈ r.signed, ∃ hash hash', e.SignsBlock 1 hash ∧ e'.SignsBlock 1 hash' ∧
        hash ≠ hash' := by
  let s := (runAll (fundedConfig 0) 20 paidInOrder).1
  let r := handle (fundedConfig 0) 20 (.message (.blockProposal firstBlock))
    (restart (fundedConfig 0) (s.leftStore true) 7)
  have hrun : Run (fundedConfig 0) (fun _ m => m.WellTyped) s
      (runAll (fundedConfig 0) 20 paidInOrder).2 := run_runAll _ 20 _ (by decide +kernel)
  have hgoes : (runAll (fundedConfig 0) 20 paidInOrder).2 = true := by decide +kernel
  rw [hgoes] at hrun
  have hfrom : RunFrom (fundedConfig 0) (fun m => m.WellTyped)
      (restart (fundedConfig 0) (s.leftStore true) 7) r.2 (Completed r.1) := by
    refine .step 20 (.message (.blockProposal firstBlock)) .start ?_
    rintro m ⟨⟩
    decide +kernel
  have hgoes' : Completed r.1 = true := by decide +kernel
  rw [hgoes'] at hfrom
  have hbalance : (s.leftStore true).getAccount (sampleAddress 1) =
      some { balance := 89, nonce := 1 } := by decide +kernel
  have hreset : (restart (fundedConfig 0) (s.leftStore true)
      7).chain.persistenceWriter.store.getAccount (sampleAddress 1) =
      some { balance := 100, nonce := 0 } := by decide +kernel
  refine ⟨s, r.2, hrun, hfrom, fun hsame => ?_, ?_⟩
  · have heq := hsame.accounts (sampleAddress 1)
    rw [hbalance, hreset] at heq
    simp at heq
  · have hold : some (1, paymentBlock.getHash) ∈ s.signed.map signedHash := by decide +kernel
    have hnew : some (1, firstBlock.getHash) ∈ r.2.signed.map signedHash := by decide +kernel
    obtain ⟨e, he, hsig⟩ := exists_signsBlock hold
    obtain ⟨e', he', hsig'⟩ := exists_signsBlock hnew
    exact ⟨e, he, e', he', _, _, hsig, hsig', by decide +kernel⟩

end Replica

end Minimmit
