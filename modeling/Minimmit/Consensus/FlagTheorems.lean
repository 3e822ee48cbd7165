/-
Minimmit.Consensus.FlagTheorems — is the finalized flag truthful?

The flag of a block comes with the block, and is set by four functions:
`add_new_view_block` sets it for `N − F` counted votes, whatever hash they are
for, `add_nullify` and `add_nullification` set it when the view is nullified,
and finalization files the block with it. What a nullified view is filed with
is the block as the context holds it.

`FlagSafe` says what a call has to find so that the flag it leaves stands for
`N − F` votes. In the runs whose messages find that, a flagged block has its
votes (`flags_truthful`), and the tables of nullified and unfinalized blocks
have no flagged block, provided that a view left behind by a finalization, or
held at the shutdown, has fewer votes. A nullification of a view with a block
is enough to break all three (`nullified_block_flagged`).
-/
import Minimmit.Consensus.CallRule
import Minimmit.Consensus.FilingSteps
import Minimmit.Consensus.TallyTheorems

namespace Minimmit

open Minimmit.Library Act Relation ViewContext Option List

variable {P : Params}

namespace ViewContext

variable {peers : PeerSet P} {c : ViewContext P}

/-! ## One view -/

/-- The replicas whose counted votes are for `h`. -/
def voters (c : ViewContext P) (h : Hash P) : Finset Nat :=
  ((c.votes.elems.filter fun v => decide (v.blockHash = h)).map (·.peerId)).toFinset

/-- A flagged block has the votes of `N − F` replicas. -/
def FlagTruthful (c : ViewContext P) : Prop :=
  ∀ b, c.block = some b → b.isFinalized = true → P.N - P.F ≤ (c.voters b.getHash).card

/-- What a call has to find so that the flag stays truthful: blocks come
without it, a block that is flagged with its view's nullification has its
votes, and no certificate is dropped for the waiting votes it meets. -/
def FlagSafe (c : ViewContext P) : Call P → Prop
  | .addNewViewBlock b _ | .awaitParent b _ => b.isFinalized = false
  | .addRecoveredBlock b => b.isFinalized = true → P.N - P.F ≤ c.votes.len
  | .addOwnVote h _ => c.blockHash = some h
  | .addNullify _ => c.block ≠ none → 2 * P.F ≤ c.nullifyMessages.len → P.N - P.F ≤ c.votes.len
  | .addMNotarization m => c.blockHash = none → ¬ (c.tally.choose m.blockHash).Conflicts
  | .addNullification _ => c.block ≠ none → P.N - P.F ≤ c.votes.len
  | _ => True

/-- The votes of a view are for its block, and a flagged block has enough of
them. -/
structure FlagSound (peers : PeerSet P) (c : ViewContext P) : Prop where
  sound : c.tally.Sound peers
  hash : ∀ b, c.block = some b → c.blockHash = some b.getHash
  anchored : c.block = none → c.mNotarization = none → c.blockHash = none
  flag : ∀ b, c.block = some b → b.isFinalized = true → P.N - P.F ≤ c.votes.len
  waiting : ∀ b, c.pendingBlock = some b → b.isFinalized = false

/-- All counted votes are for the hash of the view, and of distinct peers. -/
theorem card_voters (hs : c.tally.Sound peers) {h : Hash P} (hh : c.blockHash = some h) :
    (c.voters h).card = c.votes.len := by
  have hall : (c.votes.elems.filter fun v => decide (v.blockHash = h)) = c.votes.elems :=
    filter_eq_self.mpr fun v hv =>
      decide_eq_true (some.inj ((hs.hash v hv).symm.trans hh))
  have hdistinct : (c.votes.elems.map (·.peerId)).Nodup := hs.distinct
  rw [voters, hall, toFinset_card_of_nodup hdistinct, length_map]
  rfl

theorem FlagSound.truthful (hc : FlagSound peers c) : c.FlagTruthful :=
  fun b hb hflag => (hc.flag b hb hflag).trans_eq (card_voters hc.sound (hc.hash b hb)).symm

/-- The tally grew: a hash and a certificate stay, and a hash comes with a
certificate. -/
structure Tally.Grows (t t' : Tally P) : Prop where
  hash : ∀ h, t.blockHash = some h → t'.blockHash = some h
  certificate : t'.certificate = none → t.certificate = none ∧ t'.blockHash = t.blockHash
  votes : t.votes.len ≤ t'.votes.len

/-- Every call but a proposal makes the tally grow, if it is safe. -/
theorem Effect.grows {call : Call P} {t' : Tally P} (h : Effect peers c.tally call t')
    (hok : FlagSafe c call) (hother : ∀ b d, call ≠ .addNewViewBlock b d) : c.tally.Grows t' := by
  cases h with
  | flags | wait | reject => exact ⟨fun _ hh => hh, fun hn => ⟨hn, rfl⟩, Nat.le_refl _⟩
  | count => exact ⟨fun _ hh => hh, fun hn => ⟨hn, rfl⟩, KeySet.len_le_insert _ _⟩
  | certified => exact ⟨fun _ hh => hh, (fun hn => nomatch hn), KeySet.len_le_insert _ _⟩
  | @block b d => exact absurd rfl (hother b d)
  | @own h signature =>
    have hok : c.tally.blockHash = some h := hok
    refine ⟨fun h' hh' => ?_, fun hn => ⟨hn, hok.symm⟩, ?_⟩
    · exact hok.symm.trans hh'
    · exact (KeySet.len_le_insert _ _).trans (KeySet.len_le_foldl_insert _ _)
  | adopt hh =>
    exact ⟨(fun h hh' => nomatch hh.symm.trans hh'), (fun hn => nomatch hn),
      KeySet.len_le_foldl_insert _ _⟩
  | hashOnly hh hconflict => exact absurd hconflict (hok hh)
  | certify => exact ⟨fun _ hh => hh, (fun hn => nomatch hn), Nat.le_refl _⟩

/-- The calls that leave the blocks alone. -/
theorem FlagSound.grow {c' : ViewContext P} (hc : FlagSound peers c) (hs : c'.tally.Sound peers)
    (hgrows : c.tally.Grows c'.tally) (hblock : c'.block = c.block)
    (hpending : ∀ b, c'.pendingBlock = some b → b.isFinalized = false) : FlagSound peers c' := by
  refine ⟨hs, fun b hb => ?_, fun hnone hcert => ?_, fun b hb hflag => ?_, hpending⟩
  · exact hgrows.hash _ (hc.hash b (hblock ▸ hb))
  · obtain ⟨hcert', hsame⟩ := hgrows.certificate (by simp [tally, hcert])
    exact hsame.trans (hc.anchored (hblock ▸ hnone) (by simpa [tally] using hcert'))
  · exact (hc.flag b (hblock ▸ hb) hflag).trans hgrows.votes

/-! What the functions do to the blocks of a context. -/

theorem addVote_blocks (peers : PeerSet P) (v : Vote P) (c : ViewContext P) :
    (addVote v peers c).2.block = c.block ∧ (addVote v peers c).2.pendingBlock = c.pendingBlock := by
  unfold addVote countVote
  dsimp only
  repeat' split
  all_goals exact ⟨rfl, rfl⟩

theorem addOwnVote_blocks (h : Hash P) (signature : BlsSignature P) (c : ViewContext P) :
    (addOwnVote h signature c).2.block = c.block ∧
      (addOwnVote h signature c).2.pendingBlock = c.pendingBlock := by
  unfold addOwnVote
  repeat' split
  all_goals exact ⟨rfl, rfl⟩

theorem addMNotarization_blocks (peers : PeerSet P) (m : MNotarization P) (c : ViewContext P) :
    (addMNotarization m peers c).2.block = c.block ∧
      (addMNotarization m peers c).2.pendingBlock = c.pendingBlock := by
  unfold addMNotarization adoptMNotarization
  dsimp only
  repeat' split
  all_goals exact ⟨rfl, rfl⟩

/-- The block of a view that is nullified by its messages is flagged. -/
theorem addNullify_blocks (peers : PeerSet P) (n : Nullify P) (c : ViewContext P) :
    ((addNullify n peers c).2.block = c.block ∨ 2 * P.F ≤ c.nullifyMessages.len ∧
      (addNullify n peers c).2.block = c.markBlockFinalized.block) ∧
      (addNullify n peers c).2.pendingBlock = c.pendingBlock := by
  have hle := KeySet.len_insert_le n c.nullifyMessages
  unfold addNullify
  dsimp only
  repeat' split
  all_goals first
    | exact ⟨.inl rfl, rfl⟩
    | exact ⟨.inr ⟨by omega, rfl⟩, rfl⟩

theorem addNullification_blocks (peers : PeerSet P) (n : Nullification P) (c : ViewContext P) :
    ((addNullification n peers c).2.block = c.block ∨
      (addNullification n peers c).2.block = c.markBlockFinalized.block) ∧
      (addNullification n peers c).2.pendingBlock = c.pendingBlock := by
  unfold addNullification
  dsimp only
  repeat' split
  all_goals first
    | exact ⟨.inl rfl, rfl⟩
    | exact ⟨.inr rfl, rfl⟩

theorem createNullify_blocks (secretKey : BlsSecretKey P) (c : ViewContext P) :
    ((createNullifyForTimeout secretKey c).2.block = c.block ∧
      (createNullifyForTimeout secretKey c).2.pendingBlock = c.pendingBlock) ∧
    (createNullifyForByzantine secretKey c).2.block = c.block ∧
      (createNullifyForByzantine secretKey c).2.pendingBlock = c.pendingBlock := by
  unfold createNullifyForTimeout createNullifyForByzantine
  repeat' split
  all_goals exact ⟨⟨rfl, rfl⟩, rfl, rfl⟩

/-- A proposal is refused, or stored, and flagged for enough votes. -/
theorem addNewViewBlock_blocks (b : Block P) (d : StateDiff P) (c : ViewContext P) :
    (addNewViewBlock b d peers c).2 = c ∨ c.block = none ∧
      ((addNewViewBlock b d peers c).2 = c.storeBlock b d ∨
        P.N - P.F ≤ (c.storeBlock b d).votes.len ∧
          (addNewViewBlock b d peers c).2 = (c.storeBlock b d).markBlockFinalized) := by
  refine (ends_iff_state (X := fun c' => c' = c ∨ c.block = none ∧ (c' = c.storeBlock b d ∨
    P.N - P.F ≤ (c.storeBlock b d).votes.len ∧ c' = (c.storeBlock b d).markBlockFinalized))).mp ?_
  refine addNewViewBlock_rule (.inl rfl) fun hchecked r c' hadded => ?_
  cases hadded with
  | conflict => exact .inl rfl
  | nullify | store => exact .inr ⟨hchecked.noBlock, .inl rfl⟩
  | flag _ henough => exact .inr ⟨hchecked.noBlock, .inr ⟨henough, rfl⟩⟩

/-- The block is flagged while it has its votes. -/
theorem FlagSound.mark {c' : ViewContext P} (hc : FlagSound peers c) (hs : c'.tally.Sound peers)
    (hgrows : c.tally.Grows c'.tally) (hblock : c'.block = c.markBlockFinalized.block)
    (hpending : c'.pendingBlock = c.pendingBlock)
    (hvotes : c.block ≠ none → P.N - P.F ≤ c.votes.len) : FlagSound peers c' := by
  have hheld : ∀ b', c'.block = some b' → ∃ b, c.block = some b ∧ b'.getHash = b.getHash := by
    intro b' hb'
    obtain ⟨b, hb, rfl⟩ := map_eq_some_iff.mp (hblock.symm.trans hb')
    exact ⟨b, hb, rfl⟩
  refine ⟨hs, fun b' hb' => ?_, fun hnone hcert => ?_, fun b' hb' _ => ?_, fun b hb => ?_⟩
  · obtain ⟨b, hb, heq⟩ := hheld b' hb'
    rw [heq]
    exact hgrows.hash _ (hc.hash b hb)
  · obtain ⟨hcert', hsame⟩ := hgrows.certificate (by simp [tally, hcert])
    have hnone' : c.block = none := map_eq_none_iff.mp (hblock.symm.trans hnone)
    exact hsame.trans (hc.anchored hnone' (by simpa [tally] using hcert'))
  · obtain ⟨b, hb, -⟩ := hheld b' hb'
    exact (hvotes (by rw [hb]; exact some_ne_none b)).trans hgrows.votes
  · exact hc.waiting b (hpending ▸ hb)

/-- A proposal without the flag. -/
theorem FlagSound.propose (hc : FlagSound peers c) {b : Block P} (d : StateDiff P)
    (hflag : b.isFinalized = false) (hs : (addNewViewBlock b d peers c).2.tally.Sound peers) :
    FlagSound peers (addNewViewBlock b d peers c).2 := by
  have hcases : (addNewViewBlock b d peers c).2 = c ∨ c.block = none ∧
      ((addNewViewBlock b d peers c).2 = c.storeBlock b d ∨
        P.N - P.F ≤ (c.storeBlock b d).votes.len ∧
          (addNewViewBlock b d peers c).2 = (c.storeBlock b d).markBlockFinalized) :=
    addNewViewBlock_blocks b d c
  rcases hcases with heq | ⟨-, heq | ⟨henough, heq⟩⟩
  · rwa [heq]
  · rw [heq] at hs ⊢
    refine ⟨hs, fun b' hb' => ?_, (fun hnone => nomatch hnone), fun b' hb' hflag' => ?_, hc.waiting⟩
    · obtain rfl : b = b' := some.inj hb'
      rfl
    · obtain rfl : b = b' := some.inj hb'
      exact absurd hflag' (by simp [hflag])
  · rw [heq] at hs ⊢
    refine ⟨hs, fun b' hb' => ?_, (fun hnone => nomatch hnone), fun _ _ _ => henough, hc.waiting⟩
    obtain rfl : b.finalized = b' := some.inj hb'
    rfl

/-- **A safe call** keeps the flag truthful. -/
theorem FlagSound.call (hc : FlagSound peers c) (call : Call P) (hmade : call.Made c)
    (hok : FlagSafe c call) : FlagSound peers (call.run peers c) := by
  have hkeep : KeepsHash c call := by
    cases call with
    | addNewViewBlock b d =>
      intro hcert h hh
      exact nomatch (hc.anchored hmade.1 hcert).symm.trans hh
    | _ => trivial
  have heffect : Effect peers c.tally call (call.run peers c).tally := run_effect call c
  have hs := hc.sound.call hkeep heffect
  cases call with
  | addNewViewBlock b d => exact hc.propose d hok hs
  | addVote v =>
    have hblocks := addVote_blocks peers v c
    exact hc.grow hs (heffect.grows hok (fun _ _ h => nomatch h)) hblocks.1 fun b hb =>
      hc.waiting b (hblocks.2 ▸ hb)
  | addOwnVote h signature =>
    have hblocks := addOwnVote_blocks h signature c
    exact hc.grow hs (heffect.grows hok (fun _ _ h => nomatch h)) hblocks.1 fun b hb =>
      hc.waiting b (hblocks.2 ▸ hb)
  | addMNotarization m =>
    have hblocks := addMNotarization_blocks peers m c
    exact hc.grow hs (heffect.grows hok (fun _ _ h => nomatch h)) hblocks.1 fun b hb =>
      hc.waiting b (hblocks.2 ▸ hb)
  | addNullify n =>
    have hblocks := addNullify_blocks peers n c
    have hgrows := heffect.grows hok (fun _ _ h => nomatch h)
    rcases hblocks.1 with hsame | ⟨hquorum, hmark⟩
    · exact hc.grow hs hgrows hsame fun b hb => hc.waiting b (hblocks.2 ▸ hb)
    · exact hc.mark hs hgrows hmark hblocks.2 fun hheld => hok hheld hquorum
  | addNullification n =>
    have hblocks := addNullification_blocks peers n c
    have hgrows := heffect.grows hok (fun _ _ h => nomatch h)
    rcases hblocks.1 with hsame | hmark
    · exact hc.grow hs hgrows hsame fun b hb => hc.waiting b (hblocks.2 ▸ hb)
    · exact hc.mark hs hgrows hmark hblocks.2 hok
  | createNullifyForTimeout secretKey =>
    have hblocks := (createNullify_blocks secretKey c).1
    exact hc.grow hs (heffect.grows hok (fun _ _ h => nomatch h)) hblocks.1 fun b hb =>
      hc.waiting b (hblocks.2 ▸ hb)
  | createNullifyForByzantine secretKey =>
    have hblocks := (createNullify_blocks secretKey c).2
    exact hc.grow hs (heffect.grows hok (fun _ _ h => nomatch h)) hblocks.1 fun b hb =>
      hc.waiting b (hblocks.2 ▸ hb)
  | markNullified | markProposed => exact { hc with sound := hs }
  | awaitParent b d =>
    refine { hc with sound := hs, waiting := fun b' hb' => ?_ }
    obtain rfl := some.inj hb'
    exact hok
  | takePending =>
    obtain ⟨hblock, -, hnone⟩ := ViewChain.takePending_alike c
    exact hc.grow hs (heffect.grows hok (fun _ _ h => nomatch h)) hblock fun b hb =>
      nomatch hnone.symm.trans hb
  | addRecoveredBlock b =>
    refine ⟨hs, fun b' hb' => ?_, (fun hnone => nomatch hnone), fun b' hb' hflag => ?_, hc.waiting⟩
    · obtain rfl := some.inj hb'
      exact hmade.2
    · obtain rfl := some.inj hb'
      exact hok hflag

theorem flagSound_new (view leaderId replicaId : Nat) (parent : Hash P) :
    FlagSound peers (ViewContext.new view leaderId replicaId parent) :=
  ⟨sound_new .., fun _ hb => (nomatch hb), fun _ _ => rfl, fun _ hb => (nomatch hb),
    fun _ hb => (nomatch hb)⟩

theorem flagRule (peers : PeerSet P) : CallRule peers FlagSafe fun _ c => FlagSound peers c where
  new _ _ _ := flagSound_new ..
  internal {c call} h := by
    cases call with
    | createNullifyForTimeout | createNullifyForByzantine | markNullified | markProposed
    | takePending => trivial
    | _ => exact h.elim
  waiting h hb := fun _ _ => ⟨h.waiting _ hb, h.waiting _ hb⟩
  keeps call hmade hok h := h.call call hmade hok

end ViewContext

/-! ## The tables -/

/-- No block of the table is flagged. -/
def Unflagged (t : AList fun _ : Hash P => Block P) : Prop :=
  ∀ h b, t.lookup h = some b → b.isFinalized = false

theorem Unflagged.insert {t : AList fun _ : Hash P => Block P} (ht : Unflagged t) {h : Hash P}
    {b : Block P} (hb : b.isFinalized = false) : Unflagged (t.insert h b) := by
  intro h' b' hb'
  by_cases heq : h' = h
  · subst heq
    have hnew : (t.insert h' b).lookup h' = some b := AList.lookup_insert _
    rwa [← some.inj (hnew.symm.trans hb')]
  · exact ht h' b' ((AList.lookup_insert_ne heq).symm.trans hb')

namespace ViewChain

/-- The views the finalization of `view` leaves behind have fewer than
`N − F` votes, where they hold a block. -/
def LeavesFew (s : ViewChain P) (view : Nat) : Prop :=
  ∀ v c, s.findViewContext v = some c → v ≤ view → ¬ s.OnChain view v → c.block ≠ none →
    c.votes.len < P.N - P.F

/-- The writes of a finalization that leaves only such views behind. -/
theorem unflagged_filing {s : ViewChain P} {peers : PeerSet P} {view : Nat}
    (hheld : s.All fun _ c => FlagSound peers c) (hfew : s.LeavesFew view) :
    s.FilesBy (fun t => Unflagged t.nullified ∧ Unflagged t.nonFinalized) view := by
  intro v c hc hv
  refine ⟨fun _ _ ht => ht, fun _ _ _ ht => ht, fun {t b} hoff hb ht => ⟨ht.1.insert ?_, ht.2⟩⟩
  refine Bool.eq_false_iff.mpr fun hflag => ?_
  have henough := (hheld v c hc).flag b hb hflag
  have hless := hfew v c hc hv hoff (by rw [hb]; exact some_ne_none b)
  omega

end ViewChain

namespace Replica

variable {cfg : Config P} {A : Admission cfg}

/-- Every finalization that passed its checks left only such views behind. -/
def LeavesFew (s : Replica P) : Prop :=
  ∀ e ∈ s.viewManager.finalizations, ∀ parentHash, e.2.finalizeCheck e.1 = .proceed parentHash →
    e.2.LeavesFew e.1

/-- No view that is held has a block with `N − F` votes. -/
def HoldsFew (s : Replica P) : Prop :=
  ∀ v c, s.context v = some c → c.block ≠ none → c.votes.len < P.N - P.F

/-- **The flag is truthful** in every run in which each message finds what it
needs: a flagged block has the votes of `N − F` replicas, and no block that is
filed as nullified, or at the shutdown as unfinalized, is flagged. -/
theorem flags_truthful {s : Replica P} {running : Bool} (h : Run cfg (fun _ _ => True) s running)
    (hfinds : ∀ e ∈ s.history, e.Finds FlagSafe) (hfew : s.LeavesFew) :
    (∀ v c, s.context v = some c → c.FlagTruthful) ∧
    (∀ hash b, s.chain.persistenceWriter.store.getNullifiedBlock hash = some b →
      b.isFinalized = false) ∧
    (s.HoldsFew → ∀ hash b, (s.leftStore true).getNonFinalizedBlock hash = some b →
      b.isFinalized = false) := by
  have hkept : Upholds cfg (fun _ c => FlagSound cfg.peers c) s :=
    h.upholds (flagRule cfg.peers) (fun hready _ => hready.anchored.1) hfinds
  obtain ⟨hsteps, -⟩ := Run.steps (A := .any cfg) (fun _ _ _ => trivial) h
  have htables : Unflagged s.chain.blockTables.nullified ∧
      Unflagged s.chain.blockTables.nonFinalized := by
    refine Steps.filed (q := fun t => Unflagged t.nullified ∧ Unflagged t.nonFinalized)
      (C := fun view chain => (∀ parentHash, chain.finalizeCheck view = .proceed parentHash →
        chain.LeavesFew view) ∧ chain.All fun _ c => FlagSound cfg.peers c)
      (fun _ hC ht => ?_) hsteps start_wf ?_ fun e he => ⟨hfew e he, hkept.manager.logged e he⟩
    · exact ViewChain.finalize_filing _ (fun parentHash hcheck =>
        ViewChain.unflagged_filing hC.2 (hC.1 parentHash hcheck)) ht
    · exact restart_filed (q := fun t => Unflagged t.nullified ∧ Unflagged t.nonFinalized) cfg
        cfg.replicaId (fun _ ht => ht) ⟨fun _ _ hb => (nomatch hb), fun _ _ hb => (nomatch hb)⟩
  refine ⟨fun v c hc => (hkept.manager.held v c hc).truthful, htables.1, fun hheld => ?_⟩
  refine (leftStore_filed (q := fun t => Unflagged t.nullified ∧ Unflagged t.nonFinalized) true ?_
    htables).2
  intro _ t v c b hc hb ht
  refine ⟨ht.1, ht.2.insert (Bool.eq_false_iff.mpr fun hflag => ?_)⟩
  have henough := (hkept.manager.held v c hc).flag b hb hflag
  have hless := hheld v c hc (by rw [hb]; exact Option.some_ne_none b)
  omega

/-- Replica 0 after these messages. -/
def flagRun (messages : List (ConsensusMessage sampleParams)) : Replica sampleParams :=
  (runAll (sampleConfig 0 (quietEnv _)) 10 (messages.map .message)).1

theorem flagRun_run (messages : List (ConsensusMessage sampleParams)) : ∃ running,
    Run (sampleConfig 0 (quietEnv _)) (fun _ _ => True) (flagRun messages) running :=
  ⟨_, run_runAll _ 10 _ fun _ _ => trivial⟩

/-- Four votes of the first view, and then its block. -/
def votesThenBlock : List (ConsensusMessage sampleParams) :=
  [.vote (voteOf 2 1 firstBlock.getHash), .vote (voteOf 3 1 firstBlock.getHash),
    .vote (voteOf 4 1 firstBlock.getHash), .vote (voteOf 5 1 firstBlock.getHash),
    .blockProposal firstBlock]

/-- A moment at which a vote is cast, or a vote or an unflagged proposal is
processed. -/
def plainMoment : Moment P → Bool
  | .processed (.vote _) _ | .voted _ _ _ => true
  | .processed (.blockProposal b) _ => !b.isFinalized
  | _ => false

theorem finds_of_plainMoment {e : Moment P} (h : plainMoment e = true) : e.Finds FlagSafe := by
  unfold plainMoment at h
  split at h
  case h_1 => exact fun _ _ => trivial
  case h_2 => trivial
  case h_3 b _ =>
    have hflag : b.isFinalized = false := by simpa using h
    exact fun _ _ => ⟨hflag, hflag⟩
  case h_4 => cases h

/-- The block is flagged as it is stored, with six votes. -/
theorem flags_truthful_stored : ∃ c b, (flagRun votesThenBlock).context 1 = some c ∧
    c.block = some b ∧ b.isFinalized = true ∧ 5 ≤ (c.voters b.getHash).card := by
  have hheld : ((flagRun votesThenBlock).context 1).any
      (fun c => c.block.any (·.isFinalized)) = true := by decide +kernel
  have hplain : (flagRun votesThenBlock).history.all plainMoment = true := by decide +kernel
  have hnone : (flagRun votesThenBlock).viewManager.finalizations.isEmpty = true := by
    decide +kernel
  obtain ⟨running, hrun⟩ := flagRun_run votesThenBlock
  obtain ⟨c, hc, hblock⟩ := (Option.any_eq_true _ _).mp hheld
  obtain ⟨b, hb, hflag⟩ := (Option.any_eq_true _ _).mp hblock
  have hfinds : ∀ e ∈ (flagRun votesThenBlock).history, e.Finds FlagSafe :=
    fun e he => finds_of_plainMoment (List.all_eq_true.mp hplain e he)
  have hfew : (flagRun votesThenBlock).LeavesFew := by
    intro e he
    rw [List.isEmpty_iff.mp hnone] at he
    cases he
  exact ⟨c, b, hc, hb, hflag, (flags_truthful hrun hfinds hfew).1 1 c hc b hb hflag⟩

/-- The first block, voted for, and then the nullification of its view. -/
def blockThenNullification : List (ConsensusMessage sampleParams) :=
  [.blockProposal firstBlock, .nullification (nullificationOf 1)]

/-- The block of the second view, on genesis. -/
def secondOnGenesis : Block sampleParams := emptyBlock 2 (Block.genesisHash sampleParams) 0

/-- The second view is finalized afterwards. -/
def thenFinalized : List (ConsensusMessage sampleParams) :=
  blockThenNullification ++ [.blockProposal secondOnGenesis,
    .vote (voteOf 1 2 secondOnGenesis.getHash), .vote (voteOf 3 2 secondOnGenesis.getHash),
    .vote (voteOf 4 2 secondOnGenesis.getHash)]

/-- The nullification flags the block, which has two votes; a shutdown files
it as unfinalized and the next finalization as nullified, with the flag. -/
theorem nullified_block_flagged :
    (∃ running, Run (sampleConfig 0 (quietEnv _)) (fun _ _ => True)
      (flagRun blockThenNullification) running) ∧
    (∃ c, (flagRun blockThenNullification).context 1 = some c ∧ ¬ c.FlagTruthful) ∧
    (∃ b, ((flagRun blockThenNullification).leftStore true).getNonFinalizedBlock
      firstBlock.getHash = some b ∧ b.isFinalized = true) ∧
    (∃ running, Run (sampleConfig 0 (quietEnv _)) (fun _ _ => True) (flagRun thenFinalized)
      running) ∧
    ∃ b, (flagRun thenFinalized).chain.persistenceWriter.store.getNullifiedBlock
      firstBlock.getHash = some b ∧ b.isFinalized = true := by
  refine ⟨flagRun_run _, ?_, ?_, flagRun_run _, ?_⟩
  · have hheld : ((flagRun blockThenNullification).context 1).any (fun c => c.block.any fun b =>
        b.isFinalized && decide ((c.voters b.getHash).card < 5)) = true := by decide +kernel
    obtain ⟨c, hc, hblock⟩ := (Option.any_eq_true _ _).mp hheld
    obtain ⟨b, hb, hflag⟩ := (Option.any_eq_true _ _).mp hblock
    obtain ⟨hflag, hless⟩ := Bool.and_eq_true_iff.mp hflag
    exact ⟨c, hc, fun h => absurd (h b hb hflag) (Nat.not_le.mpr (of_decide_eq_true hless))⟩
  · have hfiled : (((flagRun blockThenNullification).leftStore true).getNonFinalizedBlock
        firstBlock.getHash).any (·.isFinalized) = true := by decide +kernel
    exact (Option.any_eq_true _ _).mp hfiled
  · have hfiled : ((flagRun thenFinalized).chain.persistenceWriter.store.getNullifiedBlock
        firstBlock.getHash).any (·.isFinalized) = true := by decide +kernel
    exact (Option.any_eq_true _ _).mp hfiled

end Replica

end Minimmit
