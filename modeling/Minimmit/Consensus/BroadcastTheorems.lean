/-
Minimmit.Consensus.BroadcastTheorems — how often an aggregate is announced.

A replica announces an aggregate when it hands an M-notarization or a
nullification to the network, or runs the cascade of a nullified view. The
certificate is stored before it is announced, so a view that still lacks it
was not announced; the invariant is that and that no announcement repeats.

Two handlers announce a certificate that was there before: `handle_nullify`
whenever the view has a nullification, `handle_block_proposal` whenever the
view is M-notarized. Runs in which neither happens announce every aggregate
at most once.
-/
import Minimmit.Consensus.EventRule
import Minimmit.Consensus.ParentTheorems

namespace Minimmit

open Minimmit.Library Act Relation List Option ViewChain ViewContext ViewProgressManager

variable {P : Params}

/-! ## Announcements -/

/-- An aggregate of a view. -/
inductive Aggregate where
  | mNotarization (view : Nat)
  | nullification (view : Nat)
  deriving DecidableEq, Repr

/-- The aggregate a message carries. -/
def ConsensusMessage.aggregate : ConsensusMessage P → Option Aggregate
  | .mNotarization m => some (.mNotarization m.view)
  | .nullification n => some (.nullification n.view)
  | _ => none

/-- The view is held without the aggregate. -/
def ViewChain.Lacks (s : ViewChain P) : Aggregate → Prop
  | .mNotarization v => ∃ c, s.findViewContext v = some c ∧ c.mNotarization = none
  | .nullification v => ∃ c, s.findViewContext v = some c ∧ c.nullification = none

/-- The aggregates an event announces. -/
def ViewProgressEvent.announces : ViewProgressEvent P → List Aggregate
  | .shouldMNotarize v _ true | .shouldVoteAndMNotarize v _ true
  | .shouldVoteAndProgressToNextView v _ _ _ true => [.mNotarization v]
  | .progressToNextView w _ _ true => [.mNotarization (w - 1)]
  | .shouldBroadcastNullification v | .shouldCascadeNullification v _ => [.nullification v]
  | .progressToNextViewOnNullification w _ _ true => [.nullification (w - 1)]
  | _ => []

/-- What an event that is acted on later has to find: a message to pass on is
no aggregate, a cascade starts at a nullified view. -/
def ViewProgressEvent.Founded (s : ViewChain P) : ViewProgressEvent P → Prop
  | .broadcastConsensusMessage m => m.aggregate = none
  | .shouldCascadeNullification v _ => ∃ c, s.findViewContext v = some c ∧
      c.nullification.isSome = true
  | _ => True

/-- A message that is processed does not make the replica announce an
aggregate it has: a nullify message finds the view without a nullification,
a proposal finds it without an M-notarization. -/
def Moment.FindsNew : Moment P → Prop
  | .processed (.nullify n) chain => ∀ c, chain.findViewContext n.view = some c →
      c.nullification = none
  | .processed (.blockProposal b) chain => ∀ c, chain.findViewContext b.view = some c →
      c.mNotarization = none
  | _ => True

instance : (e : Moment P) → Decidable e.FindsNew
  | .processed (.nullify n) chain =>
    inferInstanceAs (Decidable (∀ c, chain.findViewContext n.view = some c → _ = none))
  | .processed (.blockProposal b) chain =>
    inferInstanceAs (Decidable (∀ c, chain.findViewContext b.view = some c → _ = none))
  | .processed (.vote _) _ | .processed (.mNotarization _) _ | .processed (.nullification _) _
  | .processed (.blockRecoveryRequest ..) _ | .processed (.blockRecoveryResponse ..) _
  | .voted .. => isTrue trivial

/-! ## What the handlers announce -/

namespace ViewChain

theorem routeVote_lacks (vote : Vote P) (peers : PeerSet P) (s : ViewChain P) :
    Ends (routeVote vote peers s)
      (fun r _ => r.isEnoughToMNotarize = true → s.Lacks (.mNotarization vote.view))
      (fun _ => True) fun _ => True := by
  refine routeVote_rule trivial (fun h => nomatch h) fun c hc _ => ?_
  refine addVote_rule trivial (fun _ _ _ => trivial) fun _ r c' hadded hr => ?_
  cases hadded with
  | wait _ _ few | reject _ _ few => exact nomatch few.symm.trans hr
  | count _ few => exact nomatch few.symm.trans hr
  | notarize _ _ _ new => exact ⟨c, hc, new⟩

theorem routeMNotarization_lacks (m : MNotarization P) (peers : PeerSet P) (s : ViewChain P) :
    Ends (routeMNotarization m peers s)
      (fun r _ => r.shouldForward = true → s.Lacks (.mNotarization m.view))
      (fun _ => True) fun _ => True := by
  refine routeMNotarization_rule trivial (fun _ h => nomatch h) fun c hc => ?_
  refine addMNotarization_rule trivial (fun _ => trivial) fun _ r c' hadded hr => ?_
  cases hadded with
  | conflict => cases hr
  | adoptHash => cases hr
  | adopt => exact ⟨c, hc, isNone_iff_eq_none.mp hr⟩
  | known => cases hr
  | store _ new => exact ⟨c, hc, new⟩

theorem routeNullification_lacks (n : Nullification P) (peers : PeerSet P) (s : ViewChain P) :
    Ends (routeNullification n peers s)
      (fun r s' => r = true → s.Lacks (.nullification n.view) ∧
        ∃ c, s'.findViewContext n.view = some c ∧ c.nullification.isSome = true)
      (fun _ => True) fun _ => True := by
  refine routeNullification_rule trivial fun c hc => ?_
  refine addNullification_rule trivial (fun _ => trivial) fun _ r c' hadded hr => ?_
  cases hadded with
  | known => cases hr
  | store new => exact ⟨⟨c, hc, new⟩, _, findViewContext_setContext_self .., rfl⟩

/-- A nullify message that leaves the view with a nullification found the
view held. -/
theorem routeNullify_held (n : Nullify P) (peers : PeerSet P) (s : ViewChain P) :
    Ends (routeNullify n peers s)
      (fun r s' => r = true → (∃ c, s.findViewContext n.view = some c) ∧
        ∃ c, s'.findViewContext n.view = some c ∧ c.nullification.isSome = true)
      (fun _ => True) fun _ => True := by
  refine routeNullify_rule trivial (fun h => nomatch h) fun c hc => ?_
  refine addNullify_rule trivial (fun _ _ => trivial) fun _ c' _ hr => ?_
  exact ⟨⟨c, hc⟩, c', findViewContext_setContext_self .., hr⟩

theorem addBlockProposal_held (v : Nat) (b : Block P) (d : StateDiff P) (peers : PeerSet P)
    (s : ViewChain P) :
    Ends (addBlockProposal v b d peers s) (fun _ _ => ∃ c, s.findViewContext v = some c)
      (fun _ => True) fun _ => True := by
  refine addBlockProposal_rule trivial (fun c hc _ _ _ => ⟨c, hc⟩) fun c hc _ _ _ => ?_
  exact addNewViewBlock_rule trivial fun _ _ _ _ => ⟨c, hc⟩

end ViewChain

namespace ViewProgressManager

/-- The event announces only what the chain lacked, and is founded. -/
abbrev Announces (chain : ViewChain P) (op : Op P (ViewProgressEvent P))
    (I : ViewProgressManager P → Prop) : Prop :=
  Act.Spec I op (fun e vm => (∀ a ∈ e.announces, chain.Lacks a) ∧ e.Founded vm.viewChain)
    (fun _ => True) fun _ => True

variable {chain : ViewChain P} {I : ViewProgressManager P → Prop} {e : ViewProgressEvent P}

/-- An event that announces nothing. -/
theorem announces_silent (h : e.announces = []) (hf : ∀ s, e.Founded (P := P) s) :
    Announces chain (pure e) I :=
  spec_pure fun _ _ => ⟨by simp [h], hf _⟩

/-- An event that rests on nothing announces nothing. -/
theorem silent_of_plain (h : Plain e) : e.announces = [] ∧ ∀ s, e.Founded (P := P) s := by
  cases e with
  | await | noOp | shouldNullify | shouldNullifyRange | shouldFinalize | shouldRequestBlock
  | shouldRequestBlocks => exact ⟨rfl, fun _ => trivial⟩
  | _ => exact h.elim

theorem announces_plain (h : Plain e) : Announces chain (pure e) I :=
  announces_silent (silent_of_plain h).1 (silent_of_plain h).2

theorem announces_ahead {vm : ViewProgressManager P} {view : Nat} : Ahead view vm
    (fun e vm => (∀ a ∈ e.announces, chain.Lacks a) ∧ e.Founded vm.viewChain) fun _ => True :=
  ⟨fun _ => ⟨fun _ ha => absurd ha not_mem_nil, trivial⟩, trivial⟩

/-- An event that announces one M-notarization. -/
theorem announces_one {a : Aggregate} (h : e.announces ⊆ [a]) (hf : ∀ s, e.Founded (P := P) s)
    (ha : chain.Lacks a) : Announces chain (pure e) I :=
  spec_pure fun _ _ => ⟨fun _ hb => mem_singleton.mp (h hb) ▸ ha, hf _⟩

/-- Something comes before an event that is announced whatever it leaves. -/
theorem announces_after {α : Type} {first : Op P α} {op : Op P (ViewProgressEvent P)}
    (h : Announces chain op fun _ => True) : Announces chain (first >>= fun _ => op) I :=
  spec_bind (Q := fun _ _ => True) (fun _ _ => ends_true _) fun _ => h

theorem handleVote_announces (fuel : Nat) (vote : Vote P) (vm : ViewProgressManager P) :
    Announces vm.viewChain (handleVote fuel vote) (· = vm) := by
  rintro vm rfl
  refine handleVote_rule (M := fun r _ => r.isEnoughToMNotarize = true →
    vm.viewChain.Lacks (.mNotarization vote.view)) announces_ahead rfl
    (ends_onChain (routeVote_lacks vote _ vm.viewChain)) fun r x hx vm' hlacks => ?_
  refine Spec.triple (P := fun _ => True) ?_ vm' trivial
  cases hx with
  | plain h => exact announces_plain h
  | voteAndNotarize enough | notarize enough =>
    exact announces_after (announces_one (Subset.refl _) (fun _ => trivial) (hlacks enough))
  | vote | voteAndFinalize => exact announces_silent rfl fun _ => trivial

theorem handleNullify_announces (n : Nullify P) (vm : ViewProgressManager P)
    (hnew : ∀ c, vm.viewChain.findViewContext n.view = some c → c.nullification = none) :
    Announces vm.viewChain (handleNullify n) (· = vm) := by
  rintro vm rfl
  refine handleNullify_rule (M := fun has vm' => has = true →
    (∃ c, vm.viewChain.findViewContext n.view = some c) ∧ ∃ c,
      vm'.viewChain.findViewContext n.view = some c ∧ c.nullification.isSome) announces_ahead rfl
    (ends_onChain (routeNullify_held n _ vm.viewChain)) fun has x hx vm' hheld => ?_
  have hlacks : has = true → vm.viewChain.Lacks (.nullification n.view) := fun h =>
    (hheld h).1.imp fun c hc => ⟨hc, hnew c hc⟩
  cases hx with
  | plain h => exact announces_plain (I := fun _ => True) h vm' trivial
  | cascade held => exact ⟨fun a ha => mem_singleton.mp ha ▸ hlacks held, (hheld held).2⟩
  | broadcast held => exact ⟨fun a ha => mem_singleton.mp ha ▸ hlacks held, trivial⟩

theorem handleMNotarization_announces (fuel : Nat) (m : MNotarization P)
    (vm : ViewProgressManager P) :
    Announces vm.viewChain (handleMNotarization fuel m) (· = vm) := by
  rintro vm rfl
  refine handleMNotarization_rule (M := fun r _ => r.shouldForward = true →
    vm.viewChain.Lacks (.mNotarization m.view)) announces_ahead rfl
    (ends_onChain (routeMNotarization_lacks m _ vm.viewChain)) fun r x hx vm' hlacks => ?_
  -- an event that forwards the certificate if the view lacked it
  have hforward : ∀ {e : Bool → ViewProgressEvent P}, (e true).announces = [.mNotarization m.view] →
      (e false).announces = [] → (∀ b s, (e b).Founded s) →
      Announces vm.viewChain (pure (e r.shouldForward)) fun _ => True := by
    intro e htrue hfalse hf
    cases hr : r.shouldForward with
    | true => exact announces_one (by rw [htrue]; exact Subset.refl _) (hf true) (hlacks hr)
    | false => exact announces_silent hfalse (hf false)
  refine Spec.triple (P := fun _ => True) ?_ vm' trivial
  cases hx with
  | plain h => exact announces_plain h
  | nullify | vote => exact announces_silent rfl fun _ => trivial
  | voteAndLeave _ _ _ leader =>
    exact announces_after (hforward (e := fun b => .shouldVoteAndProgressToNextView m.view
      m.blockHash (m.view + 1) leader b) rfl rfl fun _ _ => trivial)
  | leave _ _ leader =>
    exact announces_after (hforward (e := fun b => .progressToNextView (m.view + 1) leader
      m.blockHash b) rfl rfl fun _ _ => trivial)
  | voteAndNotarize =>
    exact announces_after (hforward (e := fun b => .shouldVoteAndMNotarize m.view m.blockHash b)
      rfl rfl fun _ _ => trivial)
  | notarize =>
    exact announces_after (hforward (e := fun b => .shouldMNotarize m.view m.blockHash b) rfl rfl
      fun _ _ => trivial)

theorem handleNullification_announces (n : Nullification P) (vm : ViewProgressManager P) :
    Announces vm.viewChain (handleNullification n) (· = vm) := by
  rintro vm rfl
  refine handleNullification_rule (M := fun broadcast vm' => broadcast = true →
    vm.viewChain.Lacks (.nullification n.view) ∧ ∃ c,
      vm'.viewChain.findViewContext n.view = some c ∧ c.nullification.isSome) announces_ahead rfl
    (ends_onChain (routeNullification_lacks n _ vm.viewChain))
    fun broadcast vm' hlacks x hx => ?_
  cases hx with
  | plain h => exact announces_plain (I := fun _ => True) h vm' trivial
  | cascade new =>
    obtain ⟨hlacks, hfound⟩ := hlacks new
    exact ⟨fun a ha => mem_singleton.mp ha ▸ hlacks, hfound⟩
  | skip _ leader =>
    refine Spec.triple (announces_after (I := fun _ => True) ?_) vm' trivial
    cases broadcast with
    | true => exact announces_one (Subset.refl _) (fun _ => trivial) (hlacks rfl).1
    | false => exact announces_silent rfl fun _ => trivial
  | forward new => exact ⟨fun a ha => mem_singleton.mp ha ▸ (hlacks new).1, trivial⟩

/-- An accepted proposal announces no other M-notarization than its view's. -/
theorem handleBlockProposal_announces (fuel : Nat) (b : Block P) (vm : ViewProgressManager P)
    (hnew : ∀ c, vm.viewChain.findViewContext b.view = some c → c.mNotarization = none) :
    Announces vm.viewChain (handleBlockProposal fuel b) (· = vm) := by
  rintro vm rfl
  refine handleBlockProposal_rule (M := fun _ _ => ∃ c,
    vm.viewChain.findViewContext b.view = some c) announces_ahead rfl
    ⟨fun _ ha => absurd ha not_mem_nil, trivial⟩ (fun _ => trivial) trivial
    (fun d _ => ends_onChain (addBlockProposal_held b.view b d _ vm.viewChain))
    fun r => ?_
  rintro vm' ⟨c, hc⟩
  have hlacks : vm.viewChain.Lacks (.mNotarization b.view) := ⟨c, hc, hnew c hc⟩
  refine proposalEvent_rule (I := fun _ => True) (fun x hx => Spec.triple ?_) vm' trivial
  cases hx with
  | plain h => exact announces_plain h
  | voteAndFinalize | vote => exact announces_silent rfl fun _ => trivial
  | voteAndNotarize =>
    exact announces_after (announces_one (Subset.refl _) (fun _ => trivial) hlacks)
  | notarize => exact announces_one (Subset.refl _) (fun _ => trivial) hlacks

/-- **A processed message announces only what the chain lacked.** -/
theorem processConsensusMsg_announces (fuel : Nat) (m : ConsensusMessage P)
    (vm : ViewProgressManager P) (hnew : Moment.FindsNew (.processed m vm.viewChain)) :
    Announces vm.viewChain (processConsensusMsg fuel m) (· = vm) := by
  cases m with
  | blockProposal b => exact handleBlockProposal_announces fuel b vm hnew
  | vote v => exact handleVote_announces fuel v vm
  | nullify n => exact handleNullify_announces n vm hnew
  | mNotarization m => exact handleMNotarization_announces fuel m vm
  | nullification n => exact handleNullification_announces n vm
  | blockRecoveryRequest view h =>
    exact fun _ _ => handleBlockRecoveryRequest_rule (fun _ => trivial)
      (fun _ => ⟨fun _ ha => absurd ha not_mem_nil, rfl⟩)
      ⟨fun _ ha => absurd ha not_mem_nil, trivial⟩
  | blockRecoveryResponse view b =>
    exact fun _ _ => handleBlockRecoveryResponse_rule (M := fun _ => True) (ends_true _)
      fun _ _ _ => ⟨trivial, fun _ h => announces_plain (I := fun _ => True) h _ trivial⟩

/-- A tick announces nothing. -/
theorem tick_announces (env : Env P) (now : Nat) : Announces chain (tick env now) I := by
  refine fun vm _ => tick_rule (fun _ _ => trivial) fun _ _ c event _ hevent => ?_
  cases hevent with
  | plain h => exact announces_plain (I := fun _ => True) h _ trivial
  | _ => exact ⟨fun _ ha => absurd ha not_mem_nil, trivial⟩

end ViewProgressManager

/-! ## What has been announced -/

/-- The view of an aggregate. -/
def Aggregate.view : Aggregate → Nat
  | .mNotarization v | .nullification v => v

namespace Replica

variable {cfg : Config P} {A : Admission cfg}

/-- The aggregates handed to the network, oldest first. -/
def sentAggregates (s : Replica P) : List Aggregate := s.outbox.filterMap ConsensusMessage.aggregate

/-- The start views of the cascades, oldest first. -/
def cascadeViews (s : Replica P) : List Nat := s.cascades.map (·.1)

/-- The replica does not have the aggregate yet: its view is not entered or
lacks it. -/
def New (s : Replica P) (a : Aggregate) : Prop := s.currentView < a.view ∨ s.chain.Lacks a

/-- The aggregate was neither sent nor cascaded. -/
def Unannounced (s : Replica P) (a : Aggregate) : Prop :=
  a ∉ s.sentAggregates ∧ ∀ v, a = .nullification v → v ∉ s.cascadeViews

/-- No aggregate was announced twice, and none that the replica does not
have. -/
structure AnnouncedOnce (s : Replica P) : Prop where
  sent : s.sentAggregates.Nodup
  cascades : s.cascadeViews.Nodup
  fresh : ∀ a, s.New a → s.Unannounced a

/-- Nothing was announced from `s` to `s'`. -/
structure SameAnnounced (s s' : Replica P) : Prop where
  sent : s'.sentAggregates = s.sentAggregates
  cascades : s'.cascadeViews = s.cascadeViews

/-- Nothing was announced from `s` to `s'`, or the aggregate was and is
there. -/
inductive Announced (a : Aggregate) (s s' : Replica P) : Prop
  | silent (h : SameAnnounced s s')
  | announced (hheld : ¬ s'.New a)
      (hsent : s'.sentAggregates = s.sentAggregates ∨
        s'.sentAggregates = s.sentAggregates ++ [a])
      (hcascades : s'.cascadeViews = s.cascadeViews ∨
        ∃ v, a = .nullification v ∧ s'.cascadeViews = s.cascadeViews ++ [v])

variable {s s' s₀ : Replica P} {a : Aggregate} {m : ConsensusMessage P} {v : Nat}

/-- What a step adds to a chain is never a lack. -/
theorem Step.new (h : Step A s s') (hs : s.WF A) (ha : s'.New a) : s.New a := by
  rcases ha with hlt | hlacks
  · exact .inl (lt_of_le_of_lt h.currentView_le hlt)
  cases a with
  | mNotarization v =>
    obtain ⟨c', hc', hnone⟩ := hlacks
    rcases h.find hs hc' with ⟨c, hc, hev⟩ | ⟨hv, -⟩
    · refine .inr ⟨c, hc, ?_⟩
      rcases hm : c.mNotarization with _ | m
      · rfl
      · exact absurd ((hev.mNotarization m hm).symm.trans hnone) (by simp)
    · exact .inl (by rw [Aggregate.view, hv]; exact Nat.lt_succ_self _)
  | nullification v =>
    obtain ⟨c', hc', hnone⟩ := hlacks
    rcases h.find hs hc' with ⟨c, hc, hev⟩ | ⟨hv, -⟩
    · refine .inr ⟨c, hc, ?_⟩
      rcases hn : c.nullification with _ | n
      · rfl
      · have := hev.nullification (by rw [hn]; rfl)
        rw [hnone] at this
        cases this
    · exact .inl (by rw [Aggregate.view, hv]; exact Nat.lt_succ_self _)

theorem Steps.new (h : Steps (A := A) s s') (hs : s.WF A) (ha : s'.New a) : s.New a := by
  induction h with
  | refl => exact ha
  | tail hsteps hstep ih => exact ih (hstep.new (Steps.wf hsteps hs) ha)

theorem SameAnnounced.unannounced (h : SameAnnounced s s') (ha : s.Unannounced a) :
    s'.Unannounced a := by
  rw [Unannounced, h.sent, h.cascades]
  exact ha

/-- Steps without an announcement keep the invariant. -/
theorem AnnouncedOnce.silent (h : AnnouncedOnce s) (hnew : ∀ b, s'.New b → s.New b)
    (hsame : SameAnnounced s s') : AnnouncedOnce s' :=
  ⟨hsame.sent ▸ h.sent, hsame.cascades ▸ h.cascades,
    fun b hb => hsame.unannounced (h.fresh b (hnew b hb))⟩

/-- **One announcement** of an aggregate that was not announced keeps the
invariant. -/
theorem AnnouncedOnce.announced (h : AnnouncedOnce s) (hnew : ∀ b, s'.New b → s.New b)
    (ha : s.Unannounced a) (hann : Announced a s s') : AnnouncedOnce s' := by
  cases hann with
  | silent hsame => exact h.silent hnew hsame
  | announced hheld hsent hcascades =>
    -- what is new afterwards is another aggregate
    have hother : ∀ b, s'.New b → b ≠ a := fun b hb hba => hheld (hba ▸ hb)
    refine ⟨?_, ?_, fun b hb => ⟨?_, fun v hv => ?_⟩⟩
    · rcases hsent with heq | heq
      · exact heq ▸ h.sent
      · rw [heq]
        exact nodup_append.mpr ⟨h.sent, nodup_singleton a,
          fun x hx y hy => by rw [mem_singleton.mp hy]; rintro rfl; exact ha.1 hx⟩
    · rcases hcascades with heq | ⟨v, hv, heq⟩
      · exact heq ▸ h.cascades
      · rw [heq]
        exact nodup_append.mpr ⟨h.cascades, nodup_singleton v,
          fun x hx y hy => by rw [mem_singleton.mp hy]; rintro rfl; exact ha.2 x hv hx⟩
    · rcases hsent with heq | heq
      · exact heq ▸ (h.fresh b (hnew b hb)).1
      · rw [heq, mem_append, mem_singleton, not_or]
        exact ⟨(h.fresh b (hnew b hb)).1, hother b hb⟩
    · have hold := (h.fresh b (hnew b hb)).2 v hv
      rcases hcascades with heq | ⟨w, hw, heq⟩
      · exact heq ▸ hold
      · rw [heq, mem_append, mem_singleton, not_or]
        exact ⟨hold, fun hvw => hother b hb (by rw [hv, hw, hvw])⟩

/-! ## Operations that announce nothing -/

/-- What has been announced so far. -/
def announcements (s : Replica P) : List Aggregate × List Nat := (s.sentAggregates, s.cascadeViews)

variable {α : Type}

/-- The operation announces nothing, whatever its outcome. -/
abbrev Silent (op : Op P α) : Prop := Act.Preserves announcements op

/-- The view manager has no outbox. -/
theorem silent_onManager (op : ViewProgressManager.Op P α) : Silent (onManager op) :=
  preserves_zoom fun _ _ => rfl

theorem Silent.same {op : Op P α} (h : Silent op) (hs : SameAnnounced s₀ s) :
    SameAnnounced s₀ (op s).2 :=
  ⟨(congrArg Prod.fst (h s)).trans hs.sent, (congrArg Prod.snd (h s)).trans hs.cascades⟩

theorem sentAggregates_emit (sent : Bool) (m : ConsensusMessage P) (s : Replica P) :
    (s.emit sent m).sentAggregates = s.sentAggregates ∨
      ∃ a, m.aggregate = some a ∧ (s.emit sent m).sentAggregates = s.sentAggregates ++ [a] := by
  cases sent with
  | false => exact .inl rfl
  | true =>
    have happ : (s.emit true m).sentAggregates =
        s.sentAggregates ++ [m].filterMap ConsensusMessage.aggregate := filterMap_append
    rcases hm : m.aggregate with _ | a
    · exact .inl (by rw [happ]; simp [hm])
    · exact .inr ⟨a, rfl, by rw [happ]; simp [hm]⟩

theorem sameAnnounced_emit (hm : m.aggregate = none) (sent : Bool) (s : Replica P) :
    SameAnnounced s (s.emit sent m) := by
  refine ⟨?_, rfl⟩
  rcases sentAggregates_emit sent m s with h | ⟨a, ha, -⟩
  · exact h
  · rw [hm] at ha
    cases ha

variable (env : Env P)

theorem silent_broadcast (hm : m.aggregate = none) : Silent (broadcastConsensusMessage env m) := by
  intro s
  rw [broadcast_state]
  exact Prod.ext (sameAnnounced_emit hm _ s).sent rfl

theorem voteForBlock_silent (v : Nat) (h : Hash P) : Silent (voteForBlock env v h) := by
  refine preserves_bind (silent_onManager _) fun c => ?_
  refine preserves_bind (fun _ => rfl) fun signature => ?_
  refine preserves_bind (preserves_modify fun _ => rfl) fun _ => ?_
  refine preserves_bind (preserves_modify fun _ => rfl) fun _ => ?_
  refine preserves_get_bind fun s => ?_
  exact preserves_bind (silent_broadcast env rfl) fun _ => silent_onManager _

theorem finalizeView_silent (v : Nat) : Silent (finalizeView (P := P) v) :=
  preserves_get_bind fun _ => preserves_ite (preserves_pure _) <|
    preserves_bind (silent_onManager _) fun _ => preserves_bind (silent_onManager _) fun _ =>
      preserves_modify fun _ => rfl

theorem nullifyView_silent (v : Nat) (force : Bool) : Silent (nullifyView env v force) := by
  refine preserves_bind (silent_onManager _) fun c => ?_
  refine preserves_ite (preserves_pure _) (preserves_get_bind fun s => ?_)
  rcases nullifyOperation force s.secretKey c with _ | operation
  · exact preserves_pure _
  · refine preserves_bind (preserves_modify fun _ => rfl) fun _ => ?_
    exact preserves_bind (silent_onManager _) fun n =>
      preserves_bind (silent_broadcast env rfl) fun _ => silent_onManager _

theorem nullifyCurrentAndRollback_silent (startView : Nat) :
    Silent (nullifyCurrentAndRollback env startView) := by
  refine preserves_get_bind fun s => ?_
  refine preserves_bind (preserves_attempt (nullifyView_silent env _ true)) fun _ => ?_
  exact preserves_bind (preserves_modify fun _ => rfl) fun _ => preserves_pure _

/-! ## Operations that announce -/

/-- A certificate that is read is of the view, and sending it announces it. -/
theorem announced_emit (hsame : SameAnnounced s₀ s) (hheld : ¬ s.New a)
    (hm : m.aggregate = some a) (sent : Bool) : Announced a s₀ (s.emit sent m) := by
  refine .announced hheld ?_ (.inl hsame.cascades)
  rcases sentAggregates_emit sent m s with h | ⟨b, hb, h⟩
  · exact .inl (h.trans hsame.sent)
  · obtain rfl := some.inj (hm.symm.trans hb)
    exact .inr (by rw [h, hsame.sent])

theorem WF.mNotarization_held (hs : s.WF A) {c : ViewContext P} {m : MNotarization P}
    (hc : s.context v = some c) (hm : c.mNotarization = some m) :
    m.view = v ∧ ¬ s.New (.mNotarization v) := by
  refine ⟨((hs.chain.context v c hc).mNotarization_view m hm).1.trans
    (hs.chain.viewNumber v c hc), ?_⟩
  rintro (hlt | ⟨c', hc', hnone⟩)
  · exact absurd (hs.chain.le_current v c hc) (Nat.not_le.mpr hlt)
  · obtain rfl := some.inj (hc.symm.trans hc')
    rw [hm] at hnone
    cases hnone

theorem WF.nullification_held (hs : s.WF A) {c : ViewContext P} {n : Nullification P}
    (hc : s.context v = some c) (hn : c.nullification = some n) :
    n.view = v ∧ ¬ s.New (.nullification v) := by
  refine ⟨((hs.chain.context v c hc).nullification n hn).2.1.trans
    (hs.chain.viewNumber v c hc), ?_⟩
  rintro (hlt | ⟨c', hc', hnone⟩)
  · exact absurd (hs.chain.le_current v c hc) (Nat.not_le.mpr hlt)
  · obtain rfl := some.inj (hc.symm.trans hc')
    rw [hn] at hnone
    cases hnone

/-- The operation announces at most `a`, seen from a well-formed end. -/
abbrev AnnouncesOnly (A : Admission cfg) (a : Aggregate) (s₀ : Replica P)
    (I : Replica P → Prop) (op : Op P α) : Prop :=
  Act.Spec I op (fun _ s => s.WF A → Announced a s₀ s) (fun s => s.WF A → Announced a s₀ s)
    fun s => s.WF A → Announced a s₀ s

theorem announcesOnly_bind {α β : Type} {op : Op P α} {f : α → Op P β} (hop : Silent op)
    (hf : ∀ x, AnnouncesOnly A a s₀ (SameAnnounced s₀) (f x)) :
    AnnouncesOnly A a s₀ (SameAnnounced s₀) (op >>= f) :=
  spec_bind (Spec.conseq (fun _ hs => ends_iff_state.mpr (hop.same hs))
    (fun _ hs => hs) (fun _ _ hs => hs) (fun _ hs _ => .silent hs) fun _ hs _ => .silent hs) hf

theorem announcesOnly_then {α β : Type} {op : Op P α} {b : β}
    (hop : AnnouncesOnly A a s₀ (SameAnnounced s₀) op) :
    AnnouncesOnly A a s₀ (SameAnnounced s₀) (op >>= fun _ => pure b) :=
  spec_bind hop fun _ => spec_pure fun _ hs => hs

theorem broadcast_announcesOnly :
    AnnouncesOnly A a s₀ (fun s => SameAnnounced s₀ s ∧
      (s.WF A → m.aggregate = some a ∧ ¬ s.New a)) (broadcastConsensusMessage env m) := by
  rintro s ⟨hsame, hheld⟩
  have hann : ∀ sent, (s.emit sent m).WF A → Announced a s₀ (s.emit sent m) := by
    intro sent hwf
    obtain ⟨hm, hnew⟩ := hheld { hwf with }
    exact announced_emit hsame hnew hm sent
  refine (broadcast_ends env m s).conseq ?_ ?_ fun _ h => h.elim
  · rintro _ _ ⟨-, rfl⟩
    exact hann true
  · rintro _ ⟨-, rfl⟩
    exact hann false

theorem createAndBroadcastMNotarization_announcesOnly (v : Nat) (forward : Bool) (s₀ : Replica P) :
    AnnouncesOnly A (.mNotarization v) s₀ (SameAnnounced s₀)
      (createAndBroadcastMNotarization env v forward) := by
  refine spec_ite (fun _ => ?_) fun _ => spec_pure fun _ hs _ => .silent hs
  refine spec_bind (spec_onManager fun s hs => ?_) fun m => broadcast_announcesOnly env
  refine (getMNotarization_ends v s.viewManager).conseq ?_ ?_ fun _ h => h.elim
  · rintro m vm ⟨rfl, c, hc, hm⟩
    refine ⟨hs, fun hwf => ?_⟩
    obtain ⟨hview, hnew⟩ := hwf.mNotarization_held hc hm
    exact ⟨by rw [ConsensusMessage.aggregate, hview], hnew⟩
  · rintro vm rfl _
    exact .silent hs

theorem broadcastNullification_announcesOnly (v : Nat) (s₀ : Replica P) :
    AnnouncesOnly A (.nullification v) s₀ (SameAnnounced s₀) (broadcastNullification env v) := by
  refine spec_bind (spec_onManager fun s hs => ?_) fun n => broadcast_announcesOnly env
  refine (getNullification_ends v s.viewManager).conseq ?_ ?_ fun _ h => h.elim
  · rintro n vm ⟨rfl, c, hc, hn⟩
    refine ⟨hs, fun hwf => ?_⟩
    obtain ⟨hview, hnew⟩ := hwf.nullification_held hc hn
    exact ⟨by rw [ConsensusMessage.aggregate, hview], hnew⟩
  · rintro vm rfl _
    exact .silent hs

/-! ## The cascade -/

/-- From `s` to `s'` the aggregate was sent at most once, and the cascades are
those of `s`, or those and `views`. -/
structure SendsAtMost (a : Aggregate) (views : List Nat) (s s' : Replica P) : Prop where
  sent : s'.sentAggregates = s.sentAggregates ∨ s'.sentAggregates = s.sentAggregates ++ [a]
  cascades : s'.cascadeViews = s.cascadeViews ++ views

/-- What announces nothing may stand between. -/
theorem Silent.sendsAtMost {op : Op P α} (h : Silent op) {views : List Nat} :
    Spec (SendsAtMost a views s) op (fun _ => SendsAtMost a views s) (SendsAtMost a views s)
      (SendsAtMost a views s) := by
  intro s₁ hs₁
  have hsame : SameAnnounced s₁ (op s₁).2 := h.same ⟨rfl, rfl⟩
  exact ends_iff_state.mpr
    ⟨by rw [hsame.sent]; exact hs₁.sent, by rw [hsame.cascades]; exact hs₁.cascades⟩

theorem forwardNullification_sends (broadcast : Bool) (v : Nat) (hs : s.WF A) :
    Spec (· = s) (forwardNullification env broadcast v)
      (fun _ => SendsAtMost (.nullification v) [] s) (SendsAtMost (.nullification v) [] s)
      (SendsAtMost (.nullification v) [] s) := by
  have hnone : SendsAtMost (.nullification v) [] s s := ⟨.inl rfl, (append_nil _).symm⟩
  refine spec_ite (fun _ => ?_) fun _ => spec_pure fun _ h => h ▸ hnone
  refine spec_bind (Q := fun n s' => s' = s ∧ n.view = v) (spec_onManager ?_) fun n => ?_
  · rintro s rfl
    refine (getNullification_ends v s.viewManager).conseq ?_ ?_ fun _ h => h.elim
    · rintro n vm ⟨rfl, c, hc, hn⟩
      exact ⟨rfl, (hs.nullification_held hc hn).1⟩
    · rintro vm rfl
      exact hnone
  · rintro s ⟨rfl, rfl⟩
    have hemit : ∀ sent, SendsAtMost (.nullification n.view) [] s
        (s.emit sent (.nullification n)) := by
      refine fun sent => ⟨?_, (append_nil _).symm⟩
      rcases sentAggregates_emit sent (.nullification n) s with h | ⟨b, hb, h⟩
      · exact .inl h
      · exact .inr (some.inj hb ▸ h)
    refine (broadcast_ends env (.nullification n) s).conseq ?_ ?_ fun _ h => h.elim
    · rintro _ _ ⟨-, rfl⟩
      exact hemit true
    · rintro _ ⟨-, rfl⟩
      exact hemit false

/-- **A cascade** sends the nullification at most once and is recorded at most
once. -/
theorem cascade_sends (v : Nat) (broadcast : Bool) (hs : s.WF A) :
    Spec (· = s) (eventPrefix env (.shouldCascadeNullification v broadcast))
      (fun _ s' => SendsAtMost (.nullification v) [] s s' ∨ SendsAtMost (.nullification v) [v] s s')
      (fun s' => SendsAtMost (.nullification v) [] s s' ∨ SendsAtMost (.nullification v) [v] s s')
      fun s' => SendsAtMost (.nullification v) [] s s' ∨
        SendsAtMost (.nullification v) [v] s s' := by
  refine spec_bind ((spec_attempt_same (forwardNullification_sends env broadcast v hs)).conseq
    (fun _ h => h) (fun _ _ h => h) (fun _ h => .inl h) fun _ h => .inl h) fun _ => ?_
  refine spec_bind ((nullifyCurrentAndRollback_silent env v).sendsAtMost.conseq
    (fun _ h => h) (fun _ _ h => h) (fun _ h => .inl h) fun _ h => .inl h) fun currentView => ?_
  refine spec_bind (Q := fun _ => SendsAtMost (.nullification v) [v] s)
    (spec_modify fun s' h => ⟨h.sent, ?_⟩) fun _ => ?_
  · have hviews : s'.cascadeViews = s.cascadeViews := h.cascades.trans (append_nil _)
    simp only [cascadeViews, map_append, map_cons, map_nil]
    exact congrArg (· ++ [v]) hviews
  refine spec_bind ((silent_onManager _).sendsAtMost.conseq
    (fun _ h => h) (fun _ _ h => h) (fun _ h => .inr h) fun _ h => .inr h) fun r => ?_
  exact spec_pure fun _ h => .inr h

theorem SendsAtMost.announced
    (h : SendsAtMost (.nullification v) [] s s' ∨ SendsAtMost (.nullification v) [v] s s')
    (hheld : ¬ s'.New (.nullification v)) : Announced (.nullification v) s s' := by
  rcases h with h | h
  · exact .announced hheld h.sent (.inl (h.cascades.trans (append_nil _)))
  · exact .announced hheld h.sent (.inr ⟨v, rfl, h.cascades⟩)

/-! ## The event handler -/

/-- **What an event announces**: nothing, or the one aggregate it stands
for. -/
theorem eventPrefix_announces {event : ViewProgressEvent P} (hs : s.WF A)
    (hfounded : event.Founded s.chain) (hsteps : Steps (A := A) s (eventPrefix env event s).2) :
    SameAnnounced s (eventPrefix env event s).2 ∨
      ∃ a ∈ event.announces, Announced a s (eventPrefix env event s).2 := by
  rw [eventPrefix_eq] at hsteps ⊢
  have hvote : Silent (castVote env (eventVote event)) := by
    cases eventVote event with
    | none => exact preserves_pure _
    | some vote => exact voteForBlock_silent env vote.1 vote.2
  have hsilent : Silent ((eventPart event).run env) → SameAnnounced s
      ((castVote env (eventVote event) >>= fun _ => (eventPart event).run env) s).2 :=
    fun h => Silent.same (preserves_bind hvote fun _ => h) ⟨rfl, rfl⟩
  have honly : ∀ {a : Aggregate},
      AnnouncesOnly A a s (SameAnnounced s) ((eventPart event).run env) → Announced a s
        ((castVote env (eventVote event) >>= fun _ => (eventPart event).run env) s).2 :=
    fun h => ends_iff_state.mp (announcesOnly_bind hvote (fun _ => h) s ⟨rfl, rfl⟩)
      (Steps.wf hsteps hs)
  cases event with
  | shouldCascadeNullification v broadcast =>
    refine .inr ⟨_, mem_singleton.mpr rfl, SendsAtMost.announced
      (ends_iff_state.mp (cascade_sends env v broadcast hs s rfl)) fun hnew => ?_⟩
    obtain ⟨c, hc, hn⟩ := hfounded
    obtain ⟨n, hn⟩ := isSome_iff_exists.mp hn
    exact (hs.nullification_held hc hn).2 (Steps.new hsteps hs hnew)
  | shouldMNotarize v _ forward | shouldVoteAndMNotarize v _ forward
  | shouldVoteAndProgressToNextView v _ _ _ forward | progressToNextView v _ _ forward =>
    cases forward with
    | false => exact .inl (hsilent (preserves_pure _))
    | true => exact .inr ⟨_, mem_singleton.mpr rfl, honly (announcesOnly_then
        (createAndBroadcastMNotarization_announcesOnly env _ true s))⟩
  | shouldBroadcastNullification v =>
    exact .inr ⟨_, mem_singleton.mpr rfl, honly (announcesOnly_then
      (broadcastNullification_announcesOnly env v s))⟩
  | progressToNextViewOnNullification w _ _ broadcast =>
    cases broadcast with
    | false => exact .inl (hsilent (preserves_pure _))
    | true => exact .inr ⟨_, mem_singleton.mpr rfl, honly (announcesOnly_then
        (broadcastNullification_announcesOnly env (w - 1) s))⟩
  | shouldFinalize v | shouldVoteAndFinalize v =>
    exact .inl (hsilent (preserves_bind (finalizeView_silent v) fun _ => preserves_pure _))
  | shouldNullify v | shouldNullifyView v =>
    exact .inl (hsilent (preserves_bind (nullifyView_silent env v false) fun _ => preserves_pure _))
  | shouldNullifyRange v =>
    exact .inl (hsilent (preserves_bind (nullifyCurrentAndRollback_silent env v) fun _ =>
      preserves_pure _))
  | broadcastConsensusMessage m =>
    exact .inl (hsilent (preserves_bind (silent_broadcast env hfounded) fun _ => preserves_pure _))
  | shouldRequestBlock v h =>
    exact .inl (hsilent (preserves_bind (silent_broadcast env rfl) fun _ => preserves_pure _))
  | shouldRequestBlocks requests =>
    refine .inl (hsilent (preserves_bind (preserves_forM fun r => ?_) fun _ => preserves_pure _))
    exact preserves_bind (preserves_attempt (silent_broadcast env rfl)) fun _ => preserves_pure _
  | _ => exact .inl (hsilent (preserves_pure _))

/-- An event was returned and waits: what it announces was not announced. -/
structure AboutToAnnounce (event : ViewProgressEvent P) (s : Replica P) : Prop where
  once : AnnouncedOnce s
  unannounced : ∀ a ∈ event.announces, s.Unannounced a
  founded : event.Founded s.chain

/-- The manager runs and only what its chain lacked is about to be
announced. -/
theorem onManager_announces {op : ViewProgressManager.Op P (ViewProgressEvent P)} {s₁ : Replica P}
    (hs : s.WF A) (hJ : AnnouncedOnce s) (hsame : SameAnnounced s s₁)
    (hop : ViewProgressManager.Announces s.chain op (· = s₁.viewManager))
    (hmoved : Moved A s (fun e => Promised A s e) (onManager op s₁)) :
    EndsBy (onManager op s₁) AboutToAnnounce AnnouncedOnce fun _ => AnnouncedOnce := by
  have hsteps := Moved.steps hmoved fun _ _ h => h.steps
  have hsame' : SameAnnounced s (onManager op s₁).2 :=
    (silent_onManager op).same hsame
  have honce : AnnouncedOnce (onManager op s₁).2 :=
    hJ.silent (fun _ hb => Steps.new hsteps hs hb) hsame'
  have hends := hop s₁.viewManager rfl
  unfold onManager Act.zoom at hsame' honce ⊢
  rcases hr : op s₁.viewManager with ⟨o, vm⟩
  rw [hr] at hends hsame' honce
  cases o with
  | ok e =>
    refine ⟨honce, fun a ha => ?_, hends.2⟩
    exact hsame'.unannounced (hJ.fresh a (.inr (hends.1 a ha)))
  | err e => exact honce
  | panic => exact honce
  | exhausted => exact honce

/-- The parts of the event loop announce every aggregate at most once. -/
theorem announcing_rules (A : Admission cfg) :
    Rules A Moment.FindsNew (fun _ => True) AnnouncedOnce AboutToAnnounce
      fun _ => AnnouncedOnce where
  ask h := { h with }
  buffer _ _ h := { h with }
  unbuffer _ h := { h with }
  exhausted h := h.once
  process {s m fuel} hs hJ hC _ hmoved :=
    onManager_announces hs.wf hJ ⟨rfl, rfl⟩
      (processConsensusMsg_announces fuel m s.viewManager hC) hmoved
  tick {s now} hs hJ hmoved :=
    onManager_announces hs.wf hJ ⟨rfl, rfl⟩ (tick_announces cfg.env now) hmoved
  event {s event} hs _ hD hmoved := by
    have hsteps := Moved.steps hmoved fun _ _ h => h.steps
    have hnew : ∀ b, (eventPrefix cfg.env event s).2.New b → s.New b :=
      fun _ hb => Steps.new hsteps hs.wf hb
    refine ends_iff_state.mpr ?_
    rcases eventPrefix_announces cfg.env hs.wf hD.founded hsteps with hsame | ⟨a, ha, hann⟩
    · exact hD.once.silent hnew hsame
    · exact hD.once.announced hnew (hD.unannounced a ha) hann
  finalize {s v} hs hJ hmoved := by
    have hsteps := Moved.steps hmoved fun _ _ h => h.steps
    refine ends_iff_state.mpr (hJ.silent (fun _ hb => Steps.new hsteps hs.wf hb) ?_)
    exact (finalizeView_silent v).same ⟨rfl, rfl⟩
  refused _ h := { h with }
  own {s view parent fuel now} hs hJ _ hC hmoved := by
    refine onManager_announces hs.wf hJ ?_
      (ViewProgressManager.processConsensusMsg_announces fuel _ s.viewManager hC) hmoved
    exact ⟨(sameAnnounced_emit (m := .blockProposal (cfg.block view parent now)) rfl true s).sent,
      rfl⟩
  ownVote {s event signature handleEvent} hs _ hD _ hasks hmoved := by
    have hsteps := Moved.steps hmoved fun _ _ h => h.steps
    have hnew : ∀ b, (handleOwnProposal cfg.env handleEvent signature event s).2.New b → s.New b :=
      fun _ hb => Steps.new hsteps hs.wf hb
    refine ends_iff_state.mpr ?_
    cases event with
    | shouldVote v h =>
      exact hD.once.silent hnew ((silent_onManager _).same ⟨rfl, rfl⟩)
    | shouldVoteAndFinalize v h =>
      exact hD.once.silent hnew (Silent.same (preserves_bind (silent_onManager _)
        fun _ => finalizeView_silent v) ⟨rfl, rfl⟩)
    | shouldVoteAndMNotarize v h forward =>
      cases forward with
      | false =>
        exact hD.once.silent hnew (Silent.same (preserves_bind (silent_onManager _)
          fun _ => preserves_pure _) ⟨rfl, rfl⟩)
      | true =>
        exact hD.once.announced hnew (hD.unannounced _ (mem_singleton.mpr rfl))
          (ends_iff_state.mp (announcesOnly_bind (A := A) (silent_onManager _)
            (fun _ => createAndBroadcastMNotarization_announcesOnly cfg.env v true s) s ⟨rfl, rfl⟩)
            (Steps.wf hsteps hs.wf))
    | _ => exact hasks.elim
  proposed {s v} hs hJ hmoved := by
    have hsteps := Moved.steps hmoved fun _ _ h => h.steps
    refine ends_iff_state.mpr (hJ.silent (fun _ hb => Steps.new hsteps hs.wf hb) ?_)
    exact (silent_onManager _).same ⟨rfl, rfl⟩

/-- **Aggregates are announced once**: in a run in which every processed
nullify message finds its view without a nullification and every processed
proposal finds its view without an M-notarization, no view's M-notarization or
nullification is sent twice and no view is cascaded twice. -/
theorem aggregates_announced_once {s : Replica P} {running : Bool}
    (h : Run cfg (fun _ _ => True) s running) (hnew : ∀ e ∈ s.history, e.FindsNew) :
    s.sentAggregates.Nodup ∧ s.cascadeViews.Nodup := by
  have hstart : AnnouncedOnce (start cfg) :=
    ⟨List.nodup_nil, List.nodup_nil, fun _ _ => ⟨List.not_mem_nil, fun _ _ => List.not_mem_nil⟩⟩
  obtain ⟨hgoes, hstops⟩ := (announcing_rules (.any cfg)).run (fun _ _ _ => trivial)
    (fun _ => trivial) hstart h hnew
  have honce : AnnouncedOnce s := by
    cases running with
    | true => exact hgoes rfl
    | false => exact (hstops rfl).elim fun _ hs => hs
  exact ⟨honce.sent, honce.cascades⟩

/-- Replica 0 notarizes view 1, then collects its nullification and cascades:
two aggregates, one cascade. -/
theorem aggregates_announced_once_cascade :
    let s := (runAll (sampleConfig 0 (quietEnv _)) 20 cascadeInputs).1
    s.sentAggregates = [.mNotarization 1, .nullification 1] ∧ s.cascadeViews = [1] ∧
      s.sentAggregates.Nodup ∧ s.cascadeViews.Nodup := by
  have hrun := run_any (sampleConfig 0 (quietEnv _)) 20 cascadeInputs
  exact ⟨by decide +kernel, by decide +kernel, aggregates_announced_once hrun (by decide +kernel)⟩

/-- The same and one more nullify message for view 1. -/
def lateNullify : List (Input sampleParams) :=
  cascadeInputs ++ [.message (.nullify (nullifyOf 2 1))]

/-- The certificate of the first block, then the block. -/
def lateProposal : List (Input sampleParams) :=
  [.message (.mNotarization (certificateOf 1 firstBlock.getHash)),
    .message (.blockProposal firstBlock)]

/-- A late nullify message makes replica 0 send the nullification again and
cascade again, into view 4; a late proposal makes it send the M-notarization
again. -/
theorem aggregates_announced_again :
    (∃ s : Replica sampleParams,
      Run (sampleConfig 0 (quietEnv _)) (fun _ m => m.WellTyped) s true ∧
      s.sentAggregates = [.mNotarization 1, .nullification 1, .nullification 1] ∧
      s.cascadeViews = [1, 1] ∧ s.currentView = 4) ∧
    ∃ s : Replica sampleParams,
      Run (sampleConfig 0 (quietEnv _)) (fun _ m => m.WellTyped) s true ∧
      s.sentAggregates = [.mNotarization 1, .mNotarization 1] := by
  have hnullify := run_goes (sampleConfig 0 (quietEnv _)) 20 lateNullify (·.WellTyped)
    (by decide +kernel) (by decide +kernel)
  have hproposal := run_goes (sampleConfig 0 (quietEnv _)) 20 lateProposal (·.WellTyped)
    (by decide +kernel) (by decide +kernel)
  exact ⟨⟨_, hnullify, by decide +kernel, by decide +kernel, by decide +kernel⟩,
    _, hproposal, by decide +kernel⟩

end Replica

end Minimmit
