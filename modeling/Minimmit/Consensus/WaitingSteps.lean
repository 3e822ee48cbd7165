/-
Minimmit.Consensus.WaitingSteps — proposals that wait for their parent.

A block whose parent is held without an M-notarization waits in its view.
`process_pending_child_proposals` takes the waiting blocks of all later views
out first and proposes them again one by one.

`Proposal` lists the ways one call of `add_block_proposal` ends, and
`collectPending_find` and `mem_collectPending` say what the first loop takes.
-/
import Minimmit.Consensus.ProposalTheorems
import Minimmit.Consensus.Frames

namespace Minimmit

open Minimmit.Library Act Relation ViewContext List Option

variable {P : Params}

/-! ## One proposal -/

/-- What a call of `add_new_view_block` that succeeds does to the context: the
leader's block is not the certified one and is dropped, or it is stored. -/
theorem addNewViewBlock_ok {b : Block P} {d : StateDiff P} {peers : PeerSet P}
    {c c' : ViewContext P} {r : LeaderProposalResult P}
    (h : addNewViewBlock b d peers c = (.ok r, c')) :
    c' = c ∧ r.shouldNullify = true ∨
      c'.blockHash = some b.getHash ∧ c'.stateDiff = some d ∧
        (∃ b', c'.block = some b' ∧ b'.finalized = b.finalized) ∧
        c'.mNotarization = c.mNotarization ∧ c'.nullification = c.nullification ∧
        c'.pendingBlock = c.pendingBlock := by
  have hends : EndsBy (addNewViewBlock b d peers c) (fun r c' => c' = c ∧ r.shouldNullify = true ∨
      c'.blockHash = some b.getHash ∧ c'.stateDiff = some d ∧
        (∃ b', c'.block = some b' ∧ b'.finalized = b.finalized) ∧
        c'.mNotarization = c.mNotarization ∧ c'.nullification = c.nullification ∧
        c'.pendingBlock = c.pendingBlock) (fun _ => True) fun _ _ => True := by
    refine addNewViewBlock_rule trivial fun _ r c' hadded => ?_
    cases hadded with
    | conflict => exact .inl ⟨rfl, rfl⟩
    | nullify | store => exact .inr ⟨rfl, rfl, ⟨b, rfl, rfl⟩, rfl, rfl, rfl⟩
    | flag => exact .inr ⟨rfl, rfl, ⟨_, rfl, rfl⟩, rfl, rfl, rfl⟩
  rw [h] at hends
  exact hends

namespace ViewChain

/-- The two chains hold the same contexts. -/
def SameContexts (s s' : ViewChain P) : Prop :=
  ∀ u, s'.findViewContext u = s.findViewContext u

theorem SameContexts.refl (s : ViewChain P) : SameContexts s s := fun _ => rfl

theorem SameContexts.trans {s₁ s₂ s₃ : ViewChain P} (h : SameContexts s₁ s₂)
    (h' : SameContexts s₂ s₃) : SameContexts s₁ s₃ :=
  fun u => (h' u).trans (h u)

/-- The ways `add_block_proposal` ends. -/
inductive Proposal (peers : PeerSet P) (s : ViewChain P) (w : Nat) (b : Block P)
    (d : StateDiff P) : Outcome (ConsensusError P) (LeaderProposalResult P) × ViewChain P → Prop
  /-- The block is rejected with an error. -/
  | refused {e : ConsensusError P} {s' : ViewChain P} (h : SameContexts s s') :
      Proposal peers s w b d (.err e, s')
  /-- The block waits for its parent. -/
  | waits {c : ViewContext P} (hc : s.findViewContext w = some c)
      (hparent : s.proposalParent w b = .ok true) :
      Proposal peers s w b d (.ok (awaitingProposal b.getHash),
        s.setContext w { c with pendingBlock := some b, stateDiff := some d })
  /-- The block goes to the context of its view. -/
  | enters {c c' : ViewContext P} {r : LeaderProposalResult P} {s' : ViewChain P}
      (hc : s.findViewContext w = some c)
      (hpending : c.pendingBlock = none)
      (hadd : addNewViewBlock b d peers c = (.ok r, c'))
      (h : SameContexts (s.setContext w c') s') : Proposal peers s w b d (.ok r, s')

/-- **Every call** of `add_block_proposal` ends in one of these ways. -/
theorem addBlockProposal_proposal (peers : PeerSet P) (s : ViewChain P) (w : Nat) (b : Block P)
    (d : StateDiff P) : Proposal peers s w b d (addBlockProposal w b d peers s) := by
  unfold addBlockProposal
  split
  case h_1 => exact .refused (.refl s)
  case h_2 c hc =>
    split
    case isTrue => exact .refused (.refl s)
    split
    case isTrue => exact .refused (.refl s)
    case isFalse hpending =>
      split
      case h_1 => exact .refused (.refl s)
      case h_2 hparent => exact .waits hc hparent
      case h_3 =>
        have hsame : ∀ c', SameContexts (s.setContext w c') ((s.setContext w c').onMNotarization w) :=
          fun c' u => findViewContext_onMNotarization _ w u
        have hends : EndsBy (addNewViewBlock b d peers c) (fun _ _ => True) (· = c)
            fun _ _ => False := addNewViewBlock_rule rfl fun _ _ _ _ => trivial
        unfold runOn
        rcases hadd : addNewViewBlock b d peers c with ⟨o, c'⟩
        rw [hadd] at hends
        cases o with
        | ok r => exact .enters hc (by simpa using hpending) hadd (hsame c')
        | err e =>
          obtain rfl : c' = c := hends
          have hback : SameContexts s (s.setContext w c') :=
            fun u => findViewContext_setContext_same hc u
          exact .refused (hback.trans (hsame c'))
        | panic | exhausted => exact hends.elim

/-! ## The waiting blocks -/

/-- A block that waits in view `w` with its diff. -/
def Waiting (s : ViewChain P) (w : Nat) (b : Block P) (d : StateDiff P) : Prop :=
  ∃ c, s.findViewContext w = some c ∧ c.pendingBlock = some b ∧ c.stateDiff = some d

theorem takePending_none {c : ViewContext P} (h : c.pendingBlock = none) :
    takePending c = (none, c) := by
  simp only [takePending, h]

theorem takePending_some {c : ViewContext P} {b : Block P} (h : c.pendingBlock = some b) :
    takePending c = (c.stateDiff.map fun d => (b, d),
      { c with pendingBlock := none, stateDiff := none }) := by
  simp only [takePending, h]

/-- The loop that takes the waiting blocks, over entries of distinct views. -/
theorem collect_eq {entries : List (Nat × ViewContext P)} (hnodup : (entries.map (·.1)).Nodup)
    (acc : List (Nat × Block P × StateDiff P)) (s : ViewChain P) :
    let r := entries.foldl takeInto (acc, s)
    r.1 = acc ++ entries.filterMap (fun e => (takePending e.2).1.map fun p => (e.1, p)) ∧
      (∀ u, u ∉ entries.map (·.1) → r.2.findViewContext u = s.findViewContext u) ∧
      ∀ e ∈ entries, r.2.findViewContext e.1 = some (takePending e.2).2 := by
  induction entries generalizing acc s with
  | nil => exact ⟨(append_nil acc).symm, fun _ _ => rfl, fun e he => absurd he not_mem_nil⟩
  | cons e entries ih =>
    obtain ⟨hnew, hnodup⟩ := nodup_cons.mp hnodup
    have hrest : ∀ acc' (c : ViewContext P), (takePending e.2).2 = c →
        let r := entries.foldl takeInto (acc', s.setContext e.1 c)
        r.1 = acc' ++ entries.filterMap (fun e => (takePending e.2).1.map fun p => (e.1, p)) ∧
          (∀ u, u ∉ (e :: entries).map (·.1) → r.2.findViewContext u = s.findViewContext u) ∧
          ∀ e' ∈ e :: entries, r.2.findViewContext e'.1 = some (takePending e'.2).2 := by
      intro acc' c hc
      obtain ⟨hlist, hother, hmem⟩ := ih hnodup acc' (s.setContext e.1 c)
      refine ⟨hlist, fun u hu => ?_, fun e' he' => ?_⟩
      · rw [map_cons, mem_cons, not_or] at hu
        rw [hother u hu.2, findViewContext_setContext_ne s c hu.1]
      · rcases mem_cons.mp he' with rfl | he'
        · rw [hother e'.1 hnew, findViewContext_setContext_self, hc]
        · exact hmem e' he'
    simp only [foldl_cons, filterMap_cons, takeInto]
    rcases htake : takePending e.2 with ⟨_ | ⟨b, d⟩, c⟩
    · exact hrest acc c (by rw [htake])
    · obtain ⟨hlist, hfind⟩ := hrest (acc ++ [(e.1, b, d)]) c (by rw [htake])
      refine ⟨hlist.trans ?_, hfind⟩
      simp only [map_some, append_assoc, singleton_append]

/-- The entries whose blocks are taken. -/
theorem iter_above_nodup (s : ViewChain P) (v : Nat) :
    ((s.iter.filter fun e => decide (v < e.1)).map (·.1)).Nodup :=
  s.iter_keys_nodup.sublist (filter_sublist.map _)

theorem collectPending_eq (s : ViewChain P) (v : Nat) :
    (s.collectPending v).1 = (s.iter.filter fun e => decide (v < e.1)).filterMap
      fun e => (takePending e.2).1.map fun p => (e.1, p) := by
  have h := (collect_eq (s.iter_above_nodup v) [] s).1
  rwa [nil_append] at h

/-- A view whose block may be taken is left without it, the others are left
alone. -/
theorem collectPending_find (s : ViewChain P) (v u : Nat) :
    (s.collectPending v).2.findViewContext u =
      (s.findViewContext u).map fun c => if v < u then (takePending c).2 else c := by
  obtain ⟨-, hother, hmem⟩ := collect_eq (s.iter_above_nodup v) [] s
  rcases hc : s.findViewContext u with _ | c
  · refine (hother u fun hu => ?_).trans hc
    obtain ⟨⟨w, d⟩, he, rfl⟩ := mem_map.mp hu
    have hd := mem_iter.mp (mem_filter.mp he).1
    rw [hc] at hd
    cases hd
  · by_cases hv : v < u
    · simp only [map_some, hv, ↓reduceIte]
      exact hmem (u, c) (mem_filter.mpr ⟨mem_iter.mpr hc, decide_eq_true hv⟩)
    · simp only [map_some, hv, ↓reduceIte]
      refine (hother u fun hu => ?_).trans hc
      obtain ⟨⟨w, d⟩, he, rfl⟩ := mem_map.mp hu
      exact hv (of_decide_eq_true (mem_filter.mp he).2)

/-- The blocks that are taken are those that wait above `v`. -/
theorem mem_collectPending {s : ViewChain P} {v w : Nat} {b : Block P} {d : StateDiff P} :
    (w, b, d) ∈ (s.collectPending v).1 ↔ v < w ∧ s.Waiting w b d := by
  rw [collectPending_eq, mem_filterMap]
  constructor
  · rintro ⟨⟨u, c⟩, he, htake⟩
    obtain ⟨hmem, hlt⟩ := mem_filter.mp he
    obtain ⟨p, hp, heq⟩ := map_eq_some_iff.mp htake
    obtain ⟨rfl, rfl⟩ := Prod.mk.inj heq
    refine ⟨of_decide_eq_true hlt, c, mem_iter.mp hmem, ?_⟩
    rcases hpend : c.pendingBlock with _ | b'
    · rw [takePending_none hpend] at hp
      cases hp
    · rw [takePending_some hpend] at hp
      obtain ⟨d', hd', heq⟩ := map_eq_some_iff.mp hp
      obtain ⟨rfl, rfl⟩ := Prod.mk.inj heq
      exact ⟨rfl, hd'⟩
  · rintro ⟨hlt, c, hc, hb, hd⟩
    refine ⟨(w, c), mem_filter.mpr ⟨mem_iter.mpr hc, decide_eq_true hlt⟩, ?_⟩
    simp only [takePending_some hb, hd, map_some]

theorem collectPending_nodup (s : ViewChain P) (v : Nat) :
    ((s.collectPending v).1.map (·.1)).Nodup := by
  rw [collectPending_eq]
  refine (s.iter_above_nodup v).sublist ?_
  generalize s.iter.filter (fun e => decide (v < e.1)) = entries
  induction entries with
  | nil => exact Sublist.refl _
  | cons e entries ih =>
    simp only [filterMap_cons]
    rcases (takePending e.2).1 with _ | p
    · exact ih.cons e.1
    · exact ih.cons_cons e.1

end ViewChain

end Minimmit
