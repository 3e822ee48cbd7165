/-
Minimmit.Consensus.ContextFunctions — the functions of a view context only
compose its steps.

One triple per function: which steps it took, and what its result promises
about the context it left. `VoteReady c h` is what a result with
`should_vote` promises.
-/
import Minimmit.Consensus.ChainRules

namespace Minimmit

open Minimmit.Library Act Relation Option

variable {P : Params}

namespace ViewContext

variable {adm : ConsensusMessage P → Prop} {peers : PeerSet P} {c c₀ : ViewContext P} {b : Block P}

/-- The replica may vote for `h` in this view. -/
structure VoteReady (c : ViewContext P) (h : Hash P) : Prop where
  notVoted : c.hasVoted = false
  notNullified : c.hasNullified = false
  anchored : c.Anchored h

/-- Proposals, waiting ones included, do not disturb a vote that is due. -/
theorem BlockStep.voteReady {c' : ViewContext P} (hstep : BlockStep adm peers c c')
    (hc : WF peers c) {h : Hash P} (hr : c.VoteReady h) : c'.VoteReady h := by
  obtain ⟨hvoted, hnull, -, -⟩ := hstep.flags
  exact ⟨hvoted.trans hr.notVoted, hnull.trans hr.notNullified, hstep.anchored hc hr.anchored⟩

theorem createCertificateData_subperm {α : Type} {seed : Nat} {peerId : α → Nat}
    {signature : α → BlsSignature P} {records : List α}
    {ids : { ids : List Nat // ids.length = P.mSize }} {agg : BlsSignature P}
    (h : createCertificateData seed peerId signature records = some (ids, agg)) :
    ids.1.Subperm (records.map peerId) := by
  unfold createCertificateData at h
  split at h
  · cases h
  · obtain ⟨rfl, -⟩ := Prod.mk.inj (some.inj h)
    have htake := (List.take_sublist P.mSize (P.hashOrder.apply seed α records)).map peerId
    exact htake.subperm.trans ((P.hashOrder.perm seed α records).map peerId).subperm

/-- A block that is not stored yet finds no foreign hash in a settled
context. -/
theorem acceptsBlock_hash (hc : WF peers c) (hs : c.Settled) (hb : c.block = none)
    (hm : ∀ m, c.mNotarization = some m → m.blockHash = b.getHash) :
    ∀ h, c.blockHash = some h → h = b.getHash ∨ c.hasNullified = true := by
  intro h hh
  rcases hs h hh with hblock | hcert | hnull
  · rw [hb] at hblock
    cases hblock
  · obtain ⟨m, hms⟩ := isSome_iff_exists.mp hcert
    have hmh := hc.mNotarization_hash m hms
    exact .inl ((some.inj (hh.symm.trans hmh)).trans (hm m hms))
  · exact .inr hnull

theorem voteReady_storeBlock {d : StateDiff P}
    (h : (!(c.storeBlock b d).hasVoted && !(c.storeBlock b d).hasNullified) = true) :
    (c.storeBlock b d).VoteReady b.getHash := by
  simp only [Bool.and_eq_true, Bool.not_eq_true'] at h
  exact ⟨h.1, h.2, ⟨rfl, .inl rfl⟩⟩

theorem VoteReady.flag {h : Hash P} (hc : c.VoteReady h) : c.markBlockFinalized.VoteReady h :=
  ⟨hc.notVoted, hc.notNullified, hc.anchored.1,
    by simpa [markBlockFinalized] using hc.anchored.2⟩

theorem addNewViewBlock_spec {d : StateDiff P} (ha : adm (.blockProposal b)) (hc : WF peers c₀)
    (hs : c₀.Settled) :
    Spec (· = c₀) (addNewViewBlock b d peers)
      (fun r c => ReflTransGen (BlockStep adm peers) c₀ c ∧ r.blockHash = b.getHash ∧
        r.shouldAwait = false ∧ (r.shouldVote = true → c.VoteReady b.getHash))
      (fun c => c = c₀) (fun c => c = c₀) := by
  rintro c rfl
  refine addNewViewBlock_rule rfl fun hchecked r c' hadded => ?_
  have hstore : (∀ m, c.mNotarization = some m → m.blockHash = b.getHash) →
      BlockStep adm peers c (c.storeBlock b d) := fun hsame =>
    .store d ha
      { view := hchecked.view, noBlock := hchecked.noBlock, leader := hchecked.leader
        parent := hchecked.parent, signature := hchecked.signature, notarized := hsame
        hash := acceptsBlock_hash hc hs hchecked.noBlock hsame }
  cases hadded with
  | conflict => exact ⟨.refl, rfl, rfl, fun h => nomatch h⟩
  | nullify hsame => exact ⟨.single (hstore hsame), rfl, rfl, fun h => nomatch h⟩
  | store hsame => exact ⟨.single (hstore hsame), rfl, rfl, voteReady_storeBlock⟩
  | flag hsame =>
    exact ⟨(ReflTransGen.single (hstore hsame)).tail .flag, rfl, rfl,
      fun h => (voteReady_storeBlock h).flag⟩

theorem addVote_spec {v : Vote P} (ha : adm (.vote v)) (hn : c₀.hasNullified = false) :
    Spec (· = c₀) (addVote v peers)
      (fun r c => ReflTransGen (CtxStep adm peers) c₀ c ∧
        (r.shouldVote = true → r.shouldAwait = true))
      (ReflTransGen (CtxStep adm peers) c₀) (ReflTransGen (CtxStep adm peers) c₀) := by
  rintro c rfl
  have haccept : VoteChecked peers v c → c.AcceptsVote peers v :=
    fun h => ⟨h.view, hn, h.signature, h.fresh, h.freshWaiting⟩
  refine addVote_rule .refl (fun hchecked hh _ => .single (.count ha (haccept hchecked) hh))
    fun hchecked r c' hadded => ?_
  have hv := haccept hchecked
  cases hadded with
  | wait hh goes => exact ⟨.single (.wait ha hv hh), fun _ => goes⟩
  | reject hh hne _ due => exact ⟨.single (.reject ha hv hh hne), fun h => nomatch due.symm.trans h⟩
  | count hh _ _ due => exact ⟨.single (.count ha hv hh), fun h => nomatch due.symm.trans h⟩
  | notarize hh _ hquorum hnew due hdata =>
    exact ⟨(ReflTransGen.single (.count ha hv hh)).tail (.notarize hn hnew
      ⟨rfl, rfl, hh, hquorum, createCertificateData_subperm hdata⟩),
      fun h => nomatch due.symm.trans h⟩

theorem addNullify_spec {n : Nullify P} (ha : adm (.nullify n)) : Spec (· = c₀) (addNullify n peers)
      (fun _ => ReflTransGen (CtxStep adm peers) c₀) (ReflTransGen (CtxStep adm peers) c₀)
      (ReflTransGen (CtxStep adm peers) c₀) := by
  rintro c rfl
  refine addNullify_rule .refl (fun hchecked _ => .single (.nullify ha hchecked))
    fun hchecked c' hadded => ?_
  have hadd : CtxStep adm peers c { c with nullifyMessages := c.nullifyMessages.insert n } :=
    .nullify ha hchecked
  cases hadded with
  | count => exact .single hadd
  | certify hquorum hdata =>
    exact (ReflTransGen.single hadd).tail
      (.certify ⟨rfl, rfl, hquorum, createCertificateData_subperm hdata⟩)

/-- What a certificate leaves behind: it is stored or was known, it asks for
a nullify message on a hash it does not match, or the hash alone was
written. A certificate the context already holds need not be admitted. -/
theorem addMNotarization_spec {m : MNotarization P}
    (ha : c₀.mNotarization = none → adm (.mNotarization m)) (hc : WF peers c₀) :
    Spec (· = c₀) (addMNotarization m peers)
      (fun r c => r.shouldAwait = false ∧
        ((r.shouldNullify = false ∧ ReflTransGen (CtxStep adm peers) c₀ c ∧
          (∃ m', c.mNotarization = some m' ∧ m'.blockHash = m.blockHash) ∧
          (r.shouldVote = true → c.VoteReady m.blockHash)) ∨
        (r.shouldNullify = true ∧ (c = c₀ ∨ HashOnlyStep adm peers c₀ c))))
      (fun c => c = c₀) (fun c => c = c₀) := by
  rintro c rfl
  refine addMNotarization_rule rfl (fun _ => rfl) fun haccept r c' hadded => ?_
  have hvote : ∀ {c' : ViewContext P}, c'.hasVoted = c.hasVoted →
      c'.hasNullified = c.hasNullified → c'.blockHash = some m.blockHash →
      c'.mNotarization.isSome → (!c.hasVoted && !c.hasNullified) = true →
      c'.VoteReady m.blockHash := by
    intro c' hv hn hh hm h
    simp only [Bool.and_eq_true, Bool.not_eq_true'] at h
    exact ⟨hv.trans h.1, hn.trans h.2, ⟨hh, .inr hm⟩⟩
  -- without a hash there is no certificate either
  have hnone : c.blockHash = none → c.mNotarization = none := by
    intro hh
    rcases hm : c.mNotarization with _ | m'
    · rfl
    · cases hh.symm.trans (hc.mNotarization_hash m' hm)
  cases hadded with
  | conflict => exact ⟨rfl, .inr ⟨rfl, .inl rfl⟩⟩
  | adoptHash hh he =>
    exact ⟨rfl, .inr ⟨rfl, .inr (.adoptHash (ha (hnone hh)) haccept hh (hnone hh) he)⟩⟩
  | adopt hh =>
    have hstep := CtxStep.adopt (ha (hnone hh)) haccept hh (hnone hh)
    simp only [adoptHash, hnone hh, getD_none]
    exact ⟨rfl, .inl ⟨rfl, .single hstep, ⟨m, rfl, rfl⟩, hvote rfl rfl rfl rfl⟩⟩
  | known hh hheld hsame =>
    exact ⟨rfl, .inl ⟨rfl, .refl, ⟨_, hheld, hsame⟩, hvote rfl rfl hh (by rw [hheld]; rfl)⟩⟩
  | store hh hnew =>
    exact ⟨rfl, .inl ⟨rfl, .single (.storeMNotarization (ha hnew) haccept hh hnew),
      ⟨m, rfl, rfl⟩, hvote rfl rfl hh rfl⟩⟩

theorem addNullification_spec {n : Nullification P} (ha : adm (.nullification n)) :
    Spec (· = c₀) (addNullification n peers)
      (fun _ c => ReflTransGen (CtxStep adm peers) c₀ c ∧ c.nullification.isSome)
      (fun c => c = c₀) (fun c => c = c₀) := by
  rintro c rfl
  refine addNullification_rule rfl (fun _ => rfl) fun haccept r c' hadded => ?_
  have hflag : CtxStep adm peers c c.markBlockFinalized := .block .flag
  cases hadded with
  | known hheld => exact ⟨.single hflag, hheld⟩
  | store hnew =>
    have haccept' : c.markBlockFinalized.AcceptsNullification peers n :=
      ⟨haccept.view, haccept.leader, haccept.verified⟩
    have hstore := CtxStep.storeNullification ha haccept' hnew
    exact ⟨(ReflTransGen.single hflag).tail hstore, rfl⟩

end ViewContext

end Minimmit
