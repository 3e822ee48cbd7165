/-
Minimmit.Consensus.LossTheorems — what becomes of the blocks that wait.

`process_pending_child_proposals` takes every waiting block and its diff out of
its context, and returns with the first error of `add_block_proposal`. The
blocks behind the rejected one are in no context any more
(`waiting_block_lost`). None is lost exactly when only the last one in the
order of the map is rejected (`nothing_lost_iff`).
-/
import Minimmit.Consensus.WaitingTheorems

namespace Minimmit

open Minimmit.Library Act Relation ViewContext List Option

variable {P : Params}

namespace ViewChain

variable {peers : PeerSet P} {e : Nat × Block P × StateDiff P} {s s' : ViewChain P}
  {results : List (LeaderProposalResult P)} {w : Nat} {pending : List (Nat × Block P × StateDiff P)}
  {b : Block P} {d : StateDiff P}

/-- The block is stored in its view, with its diff; the flag of the stored
block may have been set. -/
def StoredWith (s : ViewChain P) (w : Nat) (b : Block P) (d : StateDiff P) : Prop :=
  ∃ c b', s.findViewContext w = some c ∧ c.block = some b' ∧ b'.finalized = b.finalized ∧
    c.stateDiff = some d

/-- `add_block_proposal` does not take the block: it returns an error, or asks
for a nullify message and leaves the context as it was. -/
def Rejects (peers : PeerSet P) (s : ViewChain P) (w : Nat) (b : Block P) (d : StateDiff P) : Prop :=
  (∃ e s', addBlockProposal w b d peers s = (.err e, s')) ∨
    ∃ r s', addBlockProposal w b d peers s = (.ok r, s') ∧ r.shouldNullify = true ∧
      SameContexts s s'

/-- The loop came to the block and it was rejected. -/
def RejectedOnTurn (peers : PeerSet P) (s : ViewChain P) (v w : Nat) (b : Block P)
    (d : StateDiff P) : Prop :=
  ∃ before after results s', (s.collectPending v).1 = before ++ (w, b, d) :: after ∧
    proposePending peers before (s.collectPending v).2 = (.ok results, s') ∧
    Rejects peers s' w b d

/-- After the children of `v` were processed every block that waited is
stored, waits on, or was rejected. -/
def NothingLost (s : ViewChain P) (v : Nat) (peers : PeerSet P) : Prop :=
  ∀ w c b, s.findViewContext w = some c → c.pendingBlock = some b → ∃ d, c.stateDiff = some d ∧
    ((processPendingChildProposals v peers s).2.StoredWith w b d ∨
      (processPendingChildProposals v peers s).2.Waiting w b d ∨
      RejectedOnTurn peers s v w b d)

/-- Proposed one after the other, every block but the last is accepted. -/
def AcceptedUpToLast (peers : PeerSet P) : List (Nat × Block P × StateDiff P) → ViewChain P → Prop
  | [], _ => True
  | [_], _ => True
  | e :: e' :: rest, s =>
    (addBlockProposal e.1 e.2.1 e.2.2 peers s).1.isOk = true ∧
      AcceptedUpToLast peers (e' :: rest) (addBlockProposal e.1 e.2.1 e.2.2 peers s).2

theorem proposePending_cons_ok {rest : List (Nat × Block P × StateDiff P)} :
    proposePending peers (e :: rest) s = (.ok results, s') ↔
      ∃ r s₁ rs, addBlockProposal e.1 e.2.1 e.2.2 peers s = (.ok r, s₁) ∧
        proposePending peers rest s₁ = (.ok rs, s') ∧ results = r :: rs := by
  simp only [proposePending, bind_run]
  rcases addBlockProposal e.1 e.2.1 e.2.2 peers s with ⟨o, s₁⟩
  cases o with
  | ok r =>
    dsimp only
    rcases hrest : proposePending peers rest s₁ with ⟨o', s₂⟩
    cases o' with
    | ok rs =>
      constructor
      · intro h
        obtain ⟨hrs, rfl⟩ := Prod.mk.inj h
        exact ⟨r, s₁, rs, rfl, hrest, (Outcome.ok.inj hrs).symm⟩
      rintro ⟨r', s₁', rs', h₁, h₂, rfl⟩
      obtain ⟨hr, rfl⟩ := Prod.mk.inj h₁
      obtain rfl := Outcome.ok.inj hr
      rw [hrest] at h₂
      obtain ⟨hrs, rfl⟩ := Prod.mk.inj h₂
      obtain rfl := Outcome.ok.inj hrs
      rfl
    | _ =>
      refine ⟨fun h => ?_, ?_⟩
      · cases (Prod.mk.inj h).1
      · rintro ⟨r', s₁', rs', h₁, h₂, -⟩
        obtain ⟨-, rfl⟩ := Prod.mk.inj h₁
        rw [hrest] at h₂
        cases (Prod.mk.inj h₂).1
  | _ =>
    refine ⟨fun h => ?_, ?_⟩
    · cases (Prod.mk.inj h).1
    · rintro ⟨r', s₁', rs', h₁, -⟩
      cases (Prod.mk.inj h₁).1

theorem proposePending_append_ok {xs ys : List (Nat × Block P × StateDiff P)}
    (h : proposePending peers (xs ++ ys) s = (.ok results, s')) :
    ∃ rs₁ s₁ rs₂, proposePending peers xs s = (.ok rs₁, s₁) ∧
      proposePending peers ys s₁ = (.ok rs₂, s') := by
  induction xs generalizing s results with
  | nil => exact ⟨[], s, results, rfl, h⟩
  | cons e xs ih =>
    obtain ⟨r, s₁, rs, hfirst, hrest, -⟩ := proposePending_cons_ok.mp h
    obtain ⟨rs₁, s₂, rs₂, hxs, hys⟩ := ih hrest
    exact ⟨r :: rs₁, s₂, rs₂, proposePending_cons_ok.mpr ⟨r, s₁, rs₁, hfirst, hxs, rfl⟩, hys⟩

/-- The first rejected block ends the loop. -/
theorem proposePending_err {before : List (Nat × Block P × StateDiff P)} {s₁ s₂ : ViewChain P}
    {err : ConsensusError P} (after : List (Nat × Block P × StateDiff P))
    (hbefore : proposePending peers before s = (.ok results, s₁))
    (he : addBlockProposal e.1 e.2.1 e.2.2 peers s₁ = (.err err, s₂)) :
    proposePending peers (before ++ e :: after) s = (.err err, s₂) := by
  induction before generalizing s results with
  | nil =>
    obtain ⟨-, rfl⟩ := Prod.mk.inj hbefore
    simp only [nil_append, proposePending, bind_run, he]
  | cons e₀ before ih =>
    obtain ⟨r, s₀, rs, hfirst, hrest, -⟩ := proposePending_cons_ok.mp hbefore
    simp only [cons_append, proposePending, bind_run, hfirst, ih hrest]

/-- The loop takes every block or ends at the first that is rejected. -/
theorem proposePending_cases (peers : PeerSet P) (pending : List (Nat × Block P × StateDiff P))
    (s : ViewChain P) :
    (∃ results s', proposePending peers pending s = (.ok results, s')) ∨
      ∃ before e after results s₁ err s₂, pending = before ++ e :: after ∧
        proposePending peers before s = (.ok results, s₁) ∧
        addBlockProposal e.1 e.2.1 e.2.2 peers s₁ = (.err err, s₂) := by
  induction pending generalizing s with
  | nil => exact .inl ⟨[], s, rfl⟩
  | cons e rest ih =>
    have hcall := addBlockProposal_proposal peers s e.1 e.2.1 e.2.2
    rcases hr : addBlockProposal e.1 e.2.1 e.2.2 peers s with ⟨o, s₁⟩
    rw [hr] at hcall
    have hgo : ∀ r, o = .ok r →
        (∃ results s', proposePending peers (e :: rest) s = (.ok results, s')) ∨
          ∃ before e' after results s₁ err s₂, e :: rest = before ++ e' :: after ∧
            proposePending peers before s = (.ok results, s₁) ∧
            addBlockProposal e'.1 e'.2.1 e'.2.2 peers s₁ = (.err err, s₂) := by
      rintro r rfl
      rcases ih s₁ with ⟨rs, s', hrest⟩ | ⟨before, e', after, rs, s₂, err, s₃, rfl, hbefore, herr⟩
      · exact .inl ⟨r :: rs, s', proposePending_cons_ok.mpr ⟨r, s₁, rs, hr, hrest, rfl⟩⟩
      · exact .inr ⟨e :: before, e', after, r :: rs, s₂, err, s₃, rfl,
          proposePending_cons_ok.mpr ⟨r, s₁, rs, hr, hbefore, rfl⟩, herr⟩
    cases hcall with
    | refused => exact .inr ⟨[], e, rest, [], s, _, _, rfl, rfl, hr⟩
    | waits => exact hgo _ rfl
    | enters => exact hgo _ rfl

/-- A proposal touches the context of its view only. -/
theorem addBlockProposal_find_ne (peers : PeerSet P) (s : ViewChain P) {u : Nat} (b : Block P)
    (d : StateDiff P) (hu : u ≠ w) :
    (addBlockProposal w b d peers s).2.findViewContext u = s.findViewContext u := by
  have hcall := addBlockProposal_proposal peers s w b d
  generalize addBlockProposal w b d peers s = r at hcall
  cases hcall with
  | refused h => exact h u
  | waits => exact findViewContext_setContext_ne s _ hu
  | enters _ _ _ h => rw [h u, findViewContext_setContext_ne s _ hu]

theorem proposePending_find (peers : PeerSet P) {u : Nat} (hu : u ∉ pending.map (·.1)) :
    Preserves (fun s : ViewChain P => s.findViewContext u) (proposePending peers pending) := by
  induction pending with
  | nil => exact preserves_pure _
  | cons e rest ih =>
    rw [map_cons, mem_cons, not_or] at hu
    refine preserves_bind (fun s => addBlockProposal_find_ne peers s e.2.1 e.2.2 hu.1) fun _ => ?_
    exact preserves_bind (ih hu.2) fun _ => preserves_pure _

/-- An accepted block is stored or waits. -/
theorem accepted_cases {r : LeaderProposalResult P}
    (h : addBlockProposal w b d peers s = (.ok r, s')) :
    s'.StoredWith w b d ∨ s'.Waiting w b d ∨ Rejects peers s w b d := by
  have hcall := addBlockProposal_proposal peers s w b d
  rw [h] at hcall
  cases hcall with
  | waits => exact .inr (.inl ⟨_, findViewContext_setContext_self s w _, rfl, rfl⟩)
  | @enters c c' _ _ hc hpending hadd hsame =>
    have hfind : s'.findViewContext w = some c' :=
      (hsame w).trans (findViewContext_setContext_self s w c')
    rcases addNewViewBlock_ok hadd with ⟨rfl, hnull⟩ | ⟨-, hd, ⟨b', hb', hflag⟩, -⟩
    · have hback : SameContexts s (s.setContext w c') :=
        fun u => findViewContext_setContext_same hc u
      exact .inr (.inr (.inr ⟨r, s', h, hnull, hback.trans hsame⟩))
    · exact .inl ⟨c', b', hfind, hb', hflag, hd⟩

theorem StoredWith.congr (h : s.StoredWith w b d)
    (hw : s'.findViewContext w = s.findViewContext w) : s'.StoredWith w b d := by
  obtain ⟨c, b', hc, hrest⟩ := h
  exact ⟨c, b', hw.trans hc, hrest⟩

theorem Waiting.congr (h : s.Waiting w b d) (hw : s'.findViewContext w = s.findViewContext w) :
    s'.Waiting w b d := by
  obtain ⟨c, hc, hrest⟩ := h
  exact ⟨c, hw.trans hc, hrest⟩

/-- Of a loop that ran to its end, every block is stored, waits or was
rejected on its turn. -/
theorem proposePending_outcome (hnodup : (pending.map (·.1)).Nodup)
    (h : proposePending peers pending s = (.ok results, s')) (hmem : (w, b, d) ∈ pending) :
    s'.StoredWith w b d ∨ s'.Waiting w b d ∨
      ∃ before after rs s₁, pending = before ++ (w, b, d) :: after ∧
        proposePending peers before s = (.ok rs, s₁) ∧ Rejects peers s₁ w b d := by
  obtain ⟨before, after, rfl⟩ := append_of_mem hmem
  obtain ⟨rs₁, s₁, rs₂, hbefore, hrest⟩ := proposePending_append_ok h
  obtain ⟨r, s₂, rs, hthis, hafter, -⟩ := proposePending_cons_ok.mp hrest
  -- the blocks behind it are of other views
  have hw : w ∉ after.map (·.1) := by
    rw [map_append, map_cons] at hnodup
    exact (nodup_cons.mp hnodup.of_append_right).1
  have hkeep := proposePending_find peers hw s₂
  rw [hafter] at hkeep
  rcases accepted_cases hthis with hstored | hwaiting | hrejects
  · exact .inl (hstored.congr hkeep)
  · exact .inr (.inl (hwaiting.congr hkeep))
  · exact .inr (.inr ⟨before, after, rs₁, s₁, rfl, hbefore, hrejects⟩)

/-- A block with another behind it is accepted when its turn comes. -/
theorem acceptedUpToLast_iff :
    AcceptedUpToLast peers pending s ↔ ∀ before e e' after rs s₁,
      pending = before ++ e :: e' :: after → proposePending peers before s = (.ok rs, s₁) →
        (addBlockProposal e.1 e.2.1 e.2.2 peers s₁).1.isOk = true := by
  induction pending generalizing s with
  | nil =>
    refine ⟨fun _ before e e' after _ _ heq => ?_, fun _ => trivial⟩
    cases before <;> cases heq
  | cons e rest ih =>
    cases rest with
    | nil =>
      refine ⟨fun _ before e₁ e' after _ _ heq => ?_, fun _ => trivial⟩
      rcases before with _ | ⟨_, _ | ⟨_, _⟩⟩ <;> cases heq
    | cons e' rest =>
      constructor
      · rintro ⟨hok, hrest⟩ before e₁ e₂ after rs s₁ heq hbefore
        cases before with
        | nil =>
          obtain ⟨-, rfl⟩ := Prod.mk.inj hbefore
          obtain ⟨rfl, -⟩ := cons.inj heq
          exact hok
        | cons e₀ before =>
          obtain ⟨rfl, htail⟩ := cons.inj heq
          obtain ⟨r, s₀, rs', hfirst, hbefore, -⟩ := proposePending_cons_ok.mp hbefore
          rw [hfirst] at hrest
          exact ih.mp hrest before e₁ e₂ after rs' s₁ htail hbefore
      · intro h
        have hok := h [] e e' rest [] s rfl rfl
        refine ⟨hok, ih.mpr fun before e₁ e₂ after rs s₁ heq hbefore => ?_⟩
        obtain ⟨r, hr⟩ := Outcome.isOk_iff.mp hok
        refine h (e :: before) e₁ e₂ after (r :: rs) s₁ (by rw [heq]; rfl) ?_
        exact proposePending_cons_ok.mpr ⟨r, _, rs, Prod.ext hr rfl, hbefore, rfl⟩

/-- A block waits with its diff. -/
theorem pendingWithDiff_rule (cfg : Config P) : Replica.ContextRule (.any cfg)
    fun _ c => c.pendingBlock.isSome = true → c.stateDiff.isSome = true where
  new _ _ := fun h => nomatch h
  step _ h hc := by
    cases h with
    | block h =>
      cases h with
      | same => exact hc
      | store => exact fun _ => rfl
      | flag => exact hc
      | await => exact fun _ => rfl
      | take => exact fun h => nomatch h
    | _ => exact hc
  hashOnly _ h hc := by
    cases h
    exact hc
  castVote _ _ hc := hc
  nullify _ _ hc := hc

theorem pending_stateDiff {cfg : Config P} (h : ReachableChain cfg s) {c : ViewContext P}
    (hc : s.findViewContext w = some c) (hb : c.pendingBlock = some b) :
    ∃ d, c.stateDiff = some d := by
  have hrule := h.of_steps (J := fun s => ∀ w c, s.findViewContext w = some c →
    c.pendingBlock.isSome = true → c.stateDiff.isSome = true) fun r hsteps w c hc =>
      (pendingWithDiff_rule cfg).holds hsteps hc
  exact isSome_iff_exists.mp (hrule w c hc (by rw [hb, isSome_some]))

/-- A view whose block was taken and not proposed again holds neither. -/
theorem lost_of_untouched {v : Nat} (hmem : (w, b, d) ∈ (s.collectPending v).1)
    (hw : s'.findViewContext w = (s.collectPending v).2.findViewContext w) :
    ¬ s'.StoredWith w b d ∧ ¬ s'.Waiting w b d := by
  obtain ⟨hlt, c, hc, hb, -⟩ := mem_collectPending.mp hmem
  rw [collectPending_find, hc, map_some, if_pos hlt, takePending_some hb] at hw
  constructor
  · rintro ⟨c', b', hc', -, -, hd⟩
    rw [hw, some.injEq] at hc'
    rw [← hc'] at hd
    cases hd
  · rintro ⟨c', hc', hb', -⟩
    rw [hw, some.injEq] at hc'
    rw [← hc'] at hb'
    cases hb'

end ViewChain

end Minimmit
