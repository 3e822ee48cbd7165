/-
Minimmit.Consensus.ChainSteps — what the chain functions do to the held
contexts and to the pending state.

`ChainStep R` is one change of the chain: a held context takes a step of
`R`, the diff of an M-notarized view is published, or a pending diff is
dropped. Entering a view and finalization are not chain steps; they are
steps of the replica and keep their own shape. The functions that route
messages and proposals compose chain steps, and `WF` and `Settled` are kept
by each.
-/
import Minimmit.Consensus.ContextFunctions
import Minimmit.Consensus.ViewManager

namespace Minimmit

open Minimmit.Library Relation ViewContext

variable {P : Params}

namespace ViewChain

/-- One change of the chain that neither enters nor finalizes a view. -/
inductive ChainStep (R : ViewContext P → ViewContext P → Prop) : ViewChain P → ViewChain P → Prop
  | context {s v c c'} (hc : s.findViewContext v = some c) (h : R c c') :
      ChainStep R s (s.setContext v c')
  | publish {s v c d} (hc : s.findViewContext v = some c) (hm : c.mNotarization.isSome)
      (hd : c.stateDiff = some d) : ChainStep R s (s.publishDiff v c d)
  | drop {s} (v : Nat) : ChainStep R s (s.removePendingDiff v)

variable {R : ViewContext P → ViewContext P → Prop} {s s' : ViewChain P} {v : Nat}
  {c c' : ViewContext P}

theorem ChainStep.mono {R' : ViewContext P → ViewContext P → Prop}
    (hR : ∀ {c c'}, R c c' → R' c c') (h : ChainStep R s s') : ChainStep R' s s' := by
  cases h with
  | context hc h => exact .context hc (hR h)
  | publish hc hm hd => exact .publish hc hm hd
  | drop v => exact .drop v

/-! ## Lookups after an update -/

@[simp] theorem findViewContext_setContext_self (s : ViewChain P) (v : Nat) (c : ViewContext P) :
    (s.setContext v c).findViewContext v = some c :=
  AList.lookup_insert s.nonFinalizedViews

theorem findViewContext_setContext_ne (s : ViewChain P) {w : Nat} (c : ViewContext P) (h : w ≠ v) :
    (s.setContext v c).findViewContext w = s.findViewContext w :=
  AList.lookup_insert_ne h

/-- A context found after an update is the new one or was there before. -/
theorem findViewContext_setContext_cases {w : Nat}
    (h : (s.setContext v c).findViewContext w = some c') :
    (w = v ∧ c' = c) ∨ (w ≠ v ∧ s.findViewContext w = some c') := by
  by_cases hw : w = v
  · subst hw
    rw [findViewContext_setContext_self] at h
    exact .inl ⟨rfl, (Option.some.inj h).symm⟩
  · rw [findViewContext_setContext_ne s c hw] at h
    exact .inr ⟨hw, h⟩

@[simp] theorem setContext_setContext (s : ViewChain P) (v : Nat) (c c' : ViewContext P) :
    (s.setContext v c).setContext v c' = s.setContext v c' := by
  simp only [setContext, AList.insert_insert]

@[simp] theorem setContext_currentView (s : ViewChain P) (v : Nat) (c : ViewContext P) :
    (s.setContext v c).currentView = s.currentView := rfl

/-- A step changes at most one context, and that one by a step of `R`. -/
theorem ChainStep.find (h : ChainStep R s s') (hc' : s'.findViewContext v = some c') :
    s.findViewContext v = some c' ∨ ∃ c, s.findViewContext v = some c ∧ R c c' := by
  cases h with
  | context hc h =>
    rcases findViewContext_setContext_cases hc' with ⟨rfl, rfl⟩ | ⟨-, hold⟩
    · exact .inr ⟨_, hc, h⟩
    · exact .inl hold
  | publish | drop => exact .inl hc'

theorem ChainStep.currentView (h : ChainStep R s s') : s'.currentView = s.currentView := by
  cases h <;> rfl

/-! ## Well-formed chains -/

/-- What holds of every chain at every moment. -/
structure WF (peers : PeerSet P) (replicaId : Nat) (s : ViewChain P) : Prop where
  viewNumber : ∀ v c, s.findViewContext v = some c → c.viewNumber = v
  leaderId : ∀ v c, s.findViewContext v = some c → c.leaderId = peers.leaderForView v
  replicaId : ∀ v c, s.findViewContext v = some c → c.replicaId = replicaId
  context : ∀ v c, s.findViewContext v = some c → c.WF peers
  le_current : ∀ v c, s.findViewContext v = some c → v ≤ s.currentView
  /-- A past view was left with an M-notarization or nullified. -/
  past : ∀ v c, s.findViewContext v = some c → v < s.currentView →
    c.mNotarization.isSome ∨ c.hasNullified = true
  current : ∃ c, s.findViewContext s.currentView = some c
  current_lt : s.currentView < u64Size

/-- Every held context is settled. -/
def Settled (s : ViewChain P) : Prop := ∀ v c, s.findViewContext v = some c → c.Settled

/-- Every waiting block came with an admitted proposal. -/
def PendingAdmitted (adm : ConsensusMessage P → Prop) (s : ViewChain P) : Prop :=
  ∀ v c b, s.findViewContext v = some c → c.pendingBlock = some b → adm (.blockProposal b)

variable {adm : ConsensusMessage P → Prop} {peers : PeerSet P} {replicaId : Nat}

/-- Replacing a held context by one that keeps its identity. -/
theorem WF.setContext (hs : s.WF peers replicaId) (hc : s.findViewContext v = some c)
    (hid : c'.viewNumber = c.viewNumber ∧ c'.leaderId = c.leaderId ∧ c'.replicaId = c.replicaId)
    (hwf : c'.WF peers)
    (hpast : c.mNotarization.isSome ∨ c.hasNullified = true →
      c'.mNotarization.isSome ∨ c'.hasNullified = true) :
    (s.setContext v c').WF peers replicaId := by
  obtain ⟨hview, hleader, hreplica⟩ := hid
  constructor
  case current =>
    by_cases hv : s.currentView = v
    · exact ⟨c', by rw [setContext_currentView, hv, findViewContext_setContext_self]⟩
    · obtain ⟨c₀, hc₀⟩ := hs.current
      exact ⟨c₀, (findViewContext_setContext_ne s c' hv).trans hc₀⟩
  case current_lt => exact hs.current_lt
  -- each other field is about one context, the new one or an old one
  all_goals intro w d hd
  all_goals rcases findViewContext_setContext_cases hd with ⟨rfl, rfl⟩ | ⟨-, hold⟩
  · exact hview.trans (hs.viewNumber w c hc)
  · exact hs.viewNumber w d hold
  · exact hleader.trans (hs.leaderId w c hc)
  · exact hs.leaderId w d hold
  · exact hreplica.trans (hs.replicaId w c hc)
  · exact hs.replicaId w d hold
  · exact hwf
  · exact hs.context w d hold
  · exact hs.le_current w c hc
  · exact hs.le_current w d hold
  · exact fun hlt => hpast (hs.past w c hc hlt)
  · exact hs.past w d hold

theorem WF.chainStep (hs : s.WF peers replicaId) (h : ChainStep (CtxStep adm peers) s s') :
    s'.WF peers replicaId := by
  cases h with
  | context hc h =>
    obtain ⟨hview, hleader, hreplica, -⟩ := h.identity
    exact hs.setContext hc ⟨hview, hleader, hreplica⟩ (h.wf (hs.context _ _ hc)) h.certificate
  | publish | drop => exact { hs with }

theorem Settled.chainStep (hs : s.Settled) (h : ChainStep (CtxStep adm peers) s s') :
    s'.Settled := by
  intro v c' hc'
  rcases h.find hc' with hold | ⟨c, hc, hstep⟩
  · exact hs v c' hold
  · exact hstep.settled (hs v c hc)

theorem PendingAdmitted.chainStep (hs : s.PendingAdmitted adm)
    (h : ChainStep (CtxStep adm peers) s s') : s'.PendingAdmitted adm := by
  intro v c' b hc' hb
  rcases h.find hc' with hold | ⟨c, hc, hstep⟩
  · exact hs v c' b hold hb
  · rcases hstep.pending hb with hb | ha
    · exact hs v c b hc hb
    · exact ha

/-! ## Runs of chain steps -/

/-- What the functions below need of the chain they start from. -/
structure Ready (adm : ConsensusMessage P → Prop) (peers : PeerSet P) (replicaId : Nat)
    (s : ViewChain P) : Prop where
  wf : s.WF peers replicaId
  settled : s.Settled
  pending : s.PendingAdmitted adm

/-- A run of steps in which contexts move by `R`. -/
abbrev Steps (R : ViewContext P → ViewContext P → Prop) : ViewChain P → ViewChain P → Prop :=
  ReflTransGen (ChainStep R)

theorem Steps.ofBlock (h : Steps (BlockStep adm peers) s s') : Steps (CtxStep adm peers) s s' :=
  ReflTransGen.mono (fun _ _ (hstep : ChainStep (BlockStep adm peers) _ _) =>
    hstep.mono CtxStep.block) s s' h

theorem WF.steps (hs : s.WF peers replicaId) (h : Steps (CtxStep adm peers) s s') :
    s'.WF peers replicaId := by
  induction h with
  | refl => exact hs
  | tail _ hstep ih => exact ih.chainStep hstep

theorem Settled.steps (hs : s.Settled) (h : Steps (CtxStep adm peers) s s') : s'.Settled := by
  induction h with
  | refl => exact hs
  | tail _ hstep ih => exact ih.chainStep hstep

theorem Ready.steps (hs : s.Ready adm peers replicaId) (h : Steps (CtxStep adm peers) s s') :
    s'.Ready adm peers replicaId := by
  induction h with
  | refl => exact hs
  | tail _ hstep ih =>
    exact ⟨ih.wf.chainStep hstep, ih.settled.chainStep hstep, ih.pending.chainStep hstep⟩

theorem Steps.currentView (h : Steps R s s') : s'.currentView = s.currentView := by
  induction h with
  | refl => rfl
  | tail _ hstep ih => exact hstep.currentView.trans ih

/-- A vote that is due stays due while proposals are processed. -/
theorem Steps.voteReady (h : Steps (BlockStep adm peers) s s') (hs : s.Ready adm peers replicaId)
    {hash : Hash P} (hdue : ∀ c, s.findViewContext v = some c → c.VoteReady hash) :
    ∀ c, s'.findViewContext v = some c → c.VoteReady hash := by
  induction h with
  | refl => exact hdue
  | tail hsteps hstep ih =>
    intro c' hc'
    rcases hstep.find hc' with hold | ⟨c, hc, hblock⟩
    · exact ih c' hold
    · have hwf := (hs.steps (Steps.ofBlock hsteps)).wf.context v c hc
      exact hblock.voteReady hwf (ih c hc)

/-- A run of one context is a run of the chain. -/
theorem steps_of_context (hR : ∀ c, R c c) (hc : s.findViewContext v = some c)
    (h : ReflTransGen R c c') : Steps R s (s.setContext v c') := by
  induction h with
  | refl => exact .single (.context hc (hR c))
  | @tail c₁ c₂ _ hstep ih =>
    have hlast := ChainStep.context (findViewContext_setContext_self s v c₁) hstep
    rw [setContext_setContext] at hlast
    exact ih.tail hlast

theorem ctxStep_refl (c : ViewContext P) : CtxStep adm peers c c := .block .same

end ViewChain

end Minimmit
