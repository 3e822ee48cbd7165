/-
Minimmit.Consensus.RecoveryTheorems — what a replica answers to a block
recovery request.

`get_block_for_recovery` searches four places with three keys and returns the
first hit: the context of the view, whatever the hash of its block; the
finalized blocks by height, as if the height were the view; the nullified and
the non-finalized blocks by hash. `recovery_answers_iff` says for every state
of a replica's life when this answers the question that was asked. A request
for the other block of a leader that signed two gets the wrong one, and a
finalized block whose height is not its view is not found
(`recovery_answers_wrongly`).
-/
import Minimmit.Consensus.FilingSteps

namespace Minimmit

open Minimmit.Library Relation Option

variable {P : Params}

/-- The nullified and the non-finalized blocks are stored under their hash. -/
structure BlockTables.Keyed (t : BlockTables P) : Prop where
  nullified : ∀ h b, t.nullified.lookup h = some b → b.getHash = h
  nonFinalized : ∀ h b, t.nonFinalized.lookup h = some b → b.getHash = h

/-- A block that was put under its hash. -/
theorem getHash_of_insert {table : AList (fun _ : Hash P => Block P)} {b₀ : Block P}
    (h : ∀ h b, table.lookup h = some b → b.getHash = h) (hash : Hash P) (b : Block P)
    (hb : (table.insert b₀.getHash b₀).lookup hash = some b) : b.getHash = hash := by
  by_cases hh : hash = b₀.getHash
  · subst hh
    rw [AList.lookup_insert, some.injEq] at hb
    rw [hb]
  · rw [AList.lookup_insert_ne hh] at hb
    exact h hash b hb

theorem BlockTables.keyed_filing {s : ViewChain P} {view : Nat} :
    s.FilesBy BlockTables.Keyed view := fun _ _ _ _ =>
  { finalized := fun _ _ ht => { ht with }
    certified := fun _ _ _ ht => { ht with }
    nullified := fun _ _ ht => { ht with nullified := getHash_of_insert ht.nullified } }

namespace Replica

variable {cfg : Config P} {allowed : Replica P → ConsensusMessage P → Prop}
  {ended : Replica P → Bool → Prop} {s : Replica P} {running : Bool}

/-- The tables are keyed in every state. -/
theorem Lifetime.keyed (h : Lifetime allowed ended cfg s running) : s.chain.blockTables.Keyed := by
  have hgenesis : ∀ (cfg : Config P) (t : BlockTables P), t.Keyed →
      (t.putFinalized (Block.genesis (cfg.peers.leaderForView 0) 0)).Keyed :=
    fun _ _ ht => { ht with }
  refine (Lifetime.invariant (I := fun s => s.chain.blockTables.Keyed) (fun cfg => ?_)
    (fun hwf hstep hs => ?_) (fun cfg seed _ hs => ?_) h).1
  · exact restart_filed cfg cfg.replicaId (hgenesis cfg)
      ⟨fun _ _ h => (nomatch h), fun _ _ h => (nomatch h)⟩
  · rcases hstep.blockTables with ⟨heq, -⟩ | ⟨view, rfl⟩
    · rwa [heq]
    · exact ViewChain.finalize_filing _ (fun _ _ => BlockTables.keyed_filing) hs
  · refine restart_filed cfg seed (hgenesis cfg) (leftStore_filed _ ?_ hs)
    intro _ t v c b _ _ ht
    exact { ht with nonFinalized := getHash_of_insert ht.nonFinalized }

end Replica

namespace ViewChain

/-- The replica has a block with this hash, in the context of `v` or in one
of the tables. -/
def Possesses (s : ViewChain P) (v : Nat) (h : Hash P) : Prop :=
  (∃ c b, s.findViewContext v = some c ∧ c.block = some b ∧ b.getHash = h) ∨
    (s.persistenceWriter.store.getFinalizedBlock h).isSome = true ∨
    (s.persistenceWriter.store.getNullifiedBlock h).isSome = true ∨
    (s.persistenceWriter.store.getNonFinalizedBlock h).isSome = true

/-- The answer is the block that was asked for, and there is one if the
replica has that block. -/
structure AnswersRecovery (s : ViewChain P) (v : Nat) (h : Hash P) : Prop where
  hash : ∀ b, s.getBlockForRecovery v h = some b → b.getHash = h
  found : s.Possesses v h → (s.getBlockForRecovery v h).isSome = true

/-- What the two lookups that ignore the hash come upon. The block in the
context of `v` has the hash; if there is none, the finalized block of height
`v` has it; and if there is none either, the hash is not that of a finalized
block alone. -/
structure RecoveryFits (s : ViewChain P) (v : Nat) (h : Hash P) : Prop where
  context : ∀ c b, s.findViewContext v = some c → c.block = some b → b.getHash = h
  height : (∀ c, s.findViewContext v = some c → c.block = none) →
    ∀ b, s.persistenceWriter.store.getFinalizedBlockByHeight v = some b → b.getHash = h
  finalized : (∀ c, s.findViewContext v = some c → c.block = none) →
    s.persistenceWriter.store.getFinalizedBlockByHeight v = none →
    (s.persistenceWriter.store.getFinalizedBlock h).isSome = true →
    (s.persistenceWriter.store.getNullifiedBlock h).isSome = true ∨
      (s.persistenceWriter.store.getNonFinalizedBlock h).isSome = true

variable {s : ViewChain P} {v : Nat} {h : Hash P}

theorem getBlockForRecovery_context {c : ViewContext P} {b : Block P}
    (hc : s.findViewContext v = some c) (hb : c.block = some b) :
    s.getBlockForRecovery v h = some b := by
  simp [getBlockForRecovery, hc, hb]

theorem getBlockForRecovery_store (hnone : ∀ c, s.findViewContext v = some c → c.block = none) :
    s.getBlockForRecovery v h =
      ((s.persistenceWriter.store.getFinalizedBlockByHeight v).or
        (s.persistenceWriter.store.getNullifiedBlock h)).or
        (s.persistenceWriter.store.getNonFinalizedBlock h) := by
  have hbind : (s.findViewContext v).bind (·.block) = none := by
    cases hc : s.findViewContext v with
    | none => rfl
    | some c => exact hnone c hc
  unfold getBlockForRecovery
  rw [hbind]
  dsimp only
  cases s.persistenceWriter.store.getFinalizedBlockByHeight v with
  | some b => rfl
  | none =>
    cases s.persistenceWriter.store.getNullifiedBlock h with
    | some b => rfl
    | none => rfl

theorem answersRecovery_of_fits (hkeyed : s.blockTables.Keyed) (hfits : s.RecoveryFits v h) :
    s.AnswersRecovery v h := by
  by_cases hnone : ∀ c, s.findViewContext v = some c → c.block = none
  · have heq := getBlockForRecovery_store (h := h) hnone
    constructor
    · intro b hb
      rw [heq] at hb
      rcases or_eq_some_iff.mp hb with hb | ⟨-, hb⟩
      · rcases or_eq_some_iff.mp hb with hb | ⟨-, hb⟩
        · exact hfits.height hnone b hb
        · exact hkeyed.nullified h b hb
      · exact hkeyed.nonFinalized h b hb
    · intro hhas
      rw [heq]
      cases hheight : s.persistenceWriter.store.getFinalizedBlockByHeight v with
      | some b => simp
      | none =>
        have hstored : (s.persistenceWriter.store.getNullifiedBlock h).isSome = true ∨
            (s.persistenceWriter.store.getNonFinalizedBlock h).isSome = true := by
          rcases hhas with ⟨c, b, hc, hb, -⟩ | hfin | hrest
          · rw [hnone c hc] at hb
            cases hb
          · exact hfits.finalized hnone hheight hfin
          · exact hrest
        simpa using hstored
  · obtain ⟨c, hc⟩ := not_forall.mp hnone
    obtain ⟨hc, hsome⟩ := Classical.not_imp.mp hc
    obtain ⟨b, hb⟩ := ne_none_iff_exists'.mp hsome
    have heq := getBlockForRecovery_context (h := h) hc hb
    constructor
    · intro b' hb'
      rw [heq, some.injEq] at hb'
      exact hb' ▸ hfits.context c b hc hb
    · intro _
      rw [heq]
      rfl

theorem fits_of_answersRecovery (hanswers : s.AnswersRecovery v h) : s.RecoveryFits v h := by
  refine ⟨fun c b hc hb => ?_, fun hnone b hb => ?_, fun hnone hheight hfin => ?_⟩
  · exact hanswers.hash b (getBlockForRecovery_context hc hb)
  · refine hanswers.hash b ?_
    rw [getBlockForRecovery_store hnone, hb]
    rfl
  · have hsome := hanswers.found (Or.inr (Or.inl hfin))
    rw [getBlockForRecovery_store hnone, hheight] at hsome
    simpa using hsome

/-- **Recovery answers the question asked** exactly if the lookups by view and
by height come upon the right block, in every state of a replica's life. -/
theorem recovery_answers_iff {cfg : Config P} {r : Replica P} {running : Bool}
    (hlife : Replica.Lifetime (fun _ _ => True) (fun _ _ => True) cfg r running) (v : Nat)
    (h : Hash P) : r.chain.AnswersRecovery v h ↔ r.chain.RecoveryFits v h :=
  ⟨fits_of_answersRecovery, answersRecovery_of_fits hlife.keyed⟩

/-- Replica 0 over these messages of the first view. -/
def answeringRun (messages : List (ConsensusMessage sampleParams)) : Replica sampleParams :=
  (Replica.runAll (sampleConfig 0 (quietEnv _)) 10 (messages.map .message)).1

theorem answeringRun_lifetime (messages : List (ConsensusMessage sampleParams)) : ∃ running,
    Replica.Lifetime (fun _ _ => True) (fun _ _ => True) (sampleConfig 0 (quietEnv _))
      (answeringRun messages) running :=
  ⟨_, (Replica.run_runAll _ 10 _ fun _ _ => trivial).lifetime⟩

/-- A proposal of the first view and the votes of three others for it. -/
def finalizing (b : Block sampleParams) : List (ConsensusMessage sampleParams) :=
  [.blockProposal b, .vote (voteOf 2 1 b.getHash), .vote (voteOf 3 1 b.getHash),
    .vote (voteOf 4 1 b.getHash)]

/-- Replica 0 has finalized the first block and is asked for it. -/
theorem recovery_answers_iff_first :
    ((answeringRun (finalizing firstBlock)).chain.getBlockForRecovery 1
        firstBlock.getHash).map Block.getHash = some firstBlock.getHash ∧
      ((answeringRun (finalizing firstBlock)).chain.AnswersRecovery 1 firstBlock.getHash ↔
        (answeringRun (finalizing firstBlock)).chain.RecoveryFits 1 firstBlock.getHash) := by
  obtain ⟨running, hlife⟩ := answeringRun_lifetime (finalizing firstBlock)
  exact ⟨by decide +kernel, recovery_answers_iff hlife 1 firstBlock.getHash⟩

/-- The first leader signs a second block; the hash of a block does not cover
its height. -/
def otherFirstBlock : Block sampleParams := emptyBlock 1 (Block.genesisHash sampleParams) 1

def tallFirstBlock : Block sampleParams := { firstBlock with height := 7 }

/-- **Recovery answers with another block, or with none.** Asked for the
second block of the leader, the replica sends the first; asked for a
finalized block of view 1 and height 7, it has nothing to send. -/
theorem recovery_answers_wrongly :
    (∃ (s : Replica sampleParams) (running : Bool), Replica.Lifetime (fun _ _ => True) (fun _ _ => True)
        (sampleConfig 0 (quietEnv _)) s running ∧
      ∃ b, s.chain.getBlockForRecovery 1 otherFirstBlock.getHash = some b ∧
        b.getHash ≠ otherFirstBlock.getHash) ∧
    ∃ (s : Replica sampleParams) (running : Bool), Replica.Lifetime (fun _ _ => True) (fun _ _ => True)
        (sampleConfig 0 (quietEnv _)) s running ∧
      (s.chain.persistenceWriter.store.getFinalizedBlock tallFirstBlock.getHash).isSome = true ∧
        s.chain.getBlockForRecovery 1 tallFirstBlock.getHash = none := by
  constructor
  · obtain ⟨running, hlife⟩ := answeringRun_lifetime [.blockProposal firstBlock]
    have hfound : ((answeringRun [.blockProposal firstBlock]).chain.getBlockForRecovery 1
        otherFirstBlock.getHash).any (fun b => decide (b.getHash ≠ otherFirstBlock.getHash)) =
        true := by decide +kernel
    obtain ⟨b, hb, hne⟩ := (Option.any_eq_true _ _).mp hfound
    exact ⟨_, running, hlife, b, hb, of_decide_eq_true hne⟩
  · obtain ⟨running, hlife⟩ := answeringRun_lifetime (finalizing tallFirstBlock)
    have hnone : ((answeringRun (finalizing tallFirstBlock)).chain.getBlockForRecovery 1
        tallFirstBlock.getHash).isNone = true := by decide +kernel
    exact ⟨_, running, hlife, by decide +kernel, Option.isNone_iff_eq_none.mp hnone⟩

end ViewChain

end Minimmit
