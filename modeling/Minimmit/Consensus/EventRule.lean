/-
Minimmit.Consensus.EventRule — invariants that are whole only between events.

Some properties of a replica are broken while a message is processed and
repaired when the event it gave is handled. A `Plan` says what such a
property needs: `J` holds between events, `D event` holds when an event was
returned and not handled yet, `K rest` when all but its recursive part was
done, and `B` when the process stops. The recursion of the event loop
(stored certificates, replayed messages, own proposals) is followed once, in
`Plan.handleEvent_keeps`; what is left to show of a property is what each
part that does not recurse does to it. A `Discipline` is the common case in
which the property is whole again before the recursion. What every step
keeps is there throughout (`Based`).
-/
import Minimmit.Consensus.Run

namespace Minimmit

open Minimmit.Library Act Relation ViewContext ViewProgressManager List

variable {P : Params}

namespace Replica

variable {cfg : Config P} {A : Admission cfg} {s s₀ : Replica P} {event : ViewProgressEvent P}

/-- The event asks the leader to count its own proposal as a vote. -/
def AsksVote : ViewProgressEvent P → Prop
  | .shouldVote _ _ | .shouldVoteAndMNotarize _ _ _ | .shouldVoteAndFinalize _ _ => True
  | _ => False

/-- The vote the event asks for is for a block this replica has signed, with
this signature. -/
def OwnLogged (cfg : Config P) (signature : BlsSignature P) (event : ViewProgressEvent P)
    (s : Replica P) : Prop :=
  ∃ v h, AsksVoteFor v h event ∧
    signature = Crypto.sign P.hashing P.curve cfg.secretKey (blockMessage h) ∧
    ∃ e ∈ s.signed, e.SignsBlock v h

/-- The state right after a message was noted, in which `J` held. -/
def JustNoted (A : Admission cfg) (s₀ : Replica P) (J : Replica P → Prop)
    (m : ConsensusMessage P) (s' : Replica P) : Prop :=
  ∃ s, s' = s.note (.processed m s.chain) ∧ At A s₀ s ∧ J s ∧ s.Known A m

/-- A state to start from: every state reached from it by steps is in `I`. -/
structure Based (A : Admission cfg) (I : Replica P → Prop) (s₀ : Replica P) : Prop where
  wf : s₀.WF A
  inv : ∀ {s}, Steps (A := A) s₀ s → I s

theorem Based.move {I : Replica P → Prop} (h : Based A I s₀) (hsteps : Steps (A := A) s₀ s) :
    Based A I s :=
  ⟨Steps.wf hsteps h.wf, fun hrest => h.inv (hsteps.trans hrest)⟩

/-- How the buffered messages of the views that are left are worked off: the
views are taken in order, and nothing is left in the end. -/
structure Drains {ι : Type} (J : ι → Replica P → Prop) (left : List Nat → ι) (i : ι) : Prop where
  done : ∀ {s}, J (left []) s → J i s
  absent : ∀ {v views s}, s.pendingMessages.get v = none → J (left (v :: views)) s →
    J (left views) s
  taken : ∀ {v views s}, J (left (v :: views)) s →
    J (left views) { s with pendingMessages := s.pendingMessages.remove v }

/-- The parts of the event loop keep `J` between events, `D` in front of an
event, `K` in front of what an event goes on with, and `B` at the end of the
process. The index says what may be outstanding while buffered messages are
replayed. -/
structure Plan {ι : Type} (A : Admission cfg) (I : Replica P → Prop) (J : ι → Replica P → Prop)
    (D : ι → ViewProgressEvent P → Replica P → Prop) (K : ι → Rest P → Replica P → Prop)
    (B : Abort → Replica P → Prop) : Prop where
  ask : ∀ {i s}, J i s → J i { s with clock := s.clock + 1 }
  buffer : ∀ {i s₀ s}, Based A I s₀ → At A s₀ s → ∀ v leader m,
    D i (.shouldUpdateView v leader) s → J i (s.bufferMessage v m)
  exhausted : ∀ {i event s}, D i event s → B .exhausted s
  process : ∀ {i s₀}, Based A I s₀ → ∀ fuel m, Act.Triple (JustNoted A s₀ (J i) m)
    (onManager (processConsensusMsg fuel m)) (D i) (J i) B
  tick : ∀ {i s₀}, Based A I s₀ → ∀ now, Act.Triple (fun s => At A s₀ s ∧ J i s)
    (onManager (tick cfg.env now)) (D i) (J i) B
  event : ∀ {i s₀}, Based A I s₀ → ∀ event,
    Act.Triple (fun s => Promised A s₀ event s ∧ D i event s) (eventPrefix cfg.env event) (K i)
      (J i) B
  rest : ∀ {i s} rest, (∀ view leader parent, rest ≠ .progress view leader parent) → K i rest s →
    J i s
  finalize : ∀ {i s₀}, Based A I s₀ → ∀ v view leader parent,
    Act.Triple (fun s => At A s₀ s ∧ K i (.progress view leader parent) s) (finalizeView v)
      (fun _ => K i (.progress view leader parent)) (K i (.progress view leader parent)) B
  replay : ∀ {i s view leader parent}, K i (.progress view leader parent) s →
    ∃ left, Drains J left i ∧ J (left (s.pendingMessages.keys.filter (· ≤ view))) s
  own : ∀ {i s₀}, Based A I s₀ → ∀ fuel view parent now,
    Act.Triple (fun s => At A s₀ s ∧ J i s ∧ (view, parent) ∈ s.viewManager.entered)
      (sendOwnProposal cfg.env fuel (cfg.block view parent now)) (D i) (J i) B
  ownVote : ∀ {i s₀}, Based A I s₀ → ∀ event signature handleEvent, AsksVote event →
    Act.Triple (fun s => Promised A s₀ event s ∧ D i event s ∧ OwnLogged cfg signature event s)
      (handleOwnProposal cfg.env handleEvent signature event) (fun _ => J i) (J i) B
  proposed : ∀ {i s₀}, Based A I s₀ → ∀ v, Act.Triple (fun s => At A s₀ s ∧ J i s)
    (onManager (markProposed v)) (fun _ => J i) (J i) B

/-- A handler of events that keeps `J`. -/
def Keeps (A : Admission cfg) (I J : Replica P → Prop)
    (D : ViewProgressEvent P → Replica P → Prop) (B : Abort → Replica P → Prop)
    (handleEvent : ViewProgressEvent P → Op P Unit) : Prop :=
  ∀ s₀ : Replica P, Based A I s₀ → ∀ event,
    Act.Triple (fun s => Promised A s₀ event s ∧ D event s) (handleEvent event)
      (fun _ => J) J B

namespace Plan

variable {ι : Type} {A : Admission cfg} {I : Replica P → Prop} {J : ι → Replica P → Prop}
  {D : ι → ViewProgressEvent P → Replica P → Prop} {K : ι → Rest P → Replica P → Prop}
  {B : Abort → Replica P → Prop} {i : ι} {s₀ : Replica P} {fuel : Nat}
  {handleEvent : ViewProgressEvent P → Op P Unit} {view : Nat} {parent : Hash P}

variable (d : Plan A I J D K B)

include d

/-- A processed message, with its promise. -/
theorem process_promised (h₀ : Based A I s₀) (m : ConsensusMessage P) :
    Triple (JustNoted A s₀ (J i) m) (onManager (processConsensusMsg fuel m))
      (fun e s => Promised A s₀ e s ∧ D i e s) (J i) B := by
  refine (d.process h₀ fuel m).with_spec (processKnown_spec h₀.wf) ?_
  rintro _ ⟨s, rfl, hat, -, hknown⟩
  exact ⟨hat.step (.note _), hknown⟩

theorem handleConsensusMessage_keeps (h₀ : Based A I s₀)
    (hrec : Keeps A I (J i) (D i) B handleEvent) (m : ConsensusMessage P) :
    Triple (fun s => At A s₀ s ∧ J i s ∧ A.admits s.signed m)
      (handleConsensusMessageWith fuel handleEvent m) (fun _ => J i) (J i) B := by
  refine triple_bind (Q := fun _ => JustNoted A s₀ (J i) m) (triple_modify ?_) fun _ => ?_
  · rintro s ⟨hat, hJ, ha⟩
    exact ⟨s, rfl, hat, hJ, Or.inl ha⟩
  refine triple_bind (d.process_promised h₀ m) fun event => ?_
  cases event with
  | shouldUpdateView newView leader =>
    exact triple_modify fun s hs => d.buffer h₀ hs.1 _ _ _ hs.2
  | _ => exact hrec s₀ h₀ _

theorem processStored_keeps (h₀ : Based A I s₀)
    (hrec : Keeps A I (J i) (D i) B handleEvent) (v : Nat) :
    Triple (fun s => At A s₀ s ∧ J i s) (processStoredMNotarization fuel handleEvent v)
      (fun _ => J i) (J i) B := by
  have hget : Triple (fun s => At A s₀ s ∧ J i s) (onManager (getMNotarization v))
      (fun m s => (At A s₀ s ∧ J i s) ∧ ∃ c, s.context v = some c ∧ c.mNotarization = some m)
      (J i) B :=
    (getStored_spec (X := fun _ => False)).triple.conseq (fun _ hs => hs) (fun _ _ hs => hs)
      (fun _ hs => hs.2) fun _ _ hs => hs.elim
  refine triple_bind (triple_attempt hget) fun result => ?_
  match result with
  | .error _ => exact triple_pure fun _ hs => hs
  | .ok m =>
    refine triple_bind (Q := fun _ => JustNoted A s₀ (J i) (.mNotarization m))
      (triple_modify ?_) fun _ => ?_
    · rintro s ⟨⟨hat, hJ⟩, c, hc, hm⟩
      exact ⟨s, rfl, hat, hJ, Or.inr ⟨v, c, m, hc, hm, rfl⟩⟩
    refine triple_bind (triple_attempt (d.process_promised h₀ _)) fun result => ?_
    match result with
    | .error _ => exact triple_pure fun _ hs => hs
    | .ok event => exact hrec s₀ h₀ event

theorem finalizeDeferred_keeps (h₀ : Based A I s₀) {leader : Nat} {E : Replica P → Prop} (n : Nat) :
    Triple (fun s => At A s₀ s ∧ K i (.progress view leader parent) s) (finalizeDeferred n)
      (fun _ s => At A s₀ s ∧ K i (.progress view leader parent) s) E B := by
  induction n with
  | zero => exact triple_pure fun _ hs => hs
  | succ n ih =>
    refine triple_get_bind fun s hs => ?_
    cases s.viewManager.viewChain.oldestFinalizableView with
    | none => exact triple_pure fun _ hs => hs.2
    | some r =>
      have hfin : Triple (fun s => At A s₀ s ∧ K i (.progress view leader parent) s)
          (finalizeView r.1) (fun _ s => At A s₀ s ∧ K i (.progress view leader parent) s)
          (fun s => At A s₀ s ∧ K i (.progress view leader parent) s) B :=
        ((finalizeView_spec h₀.wf).triple.and (d.finalize h₀ r.1 view leader parent)).conseq
          (fun _ hs => ⟨hs.1, hs⟩) (fun _ _ hs => hs) (fun _ hs => hs) fun _ _ hs => hs.2
      refine triple_bind ((triple_attempt hfin).weaken (fun _ hs => hs.2) fun _ _ hs => hs)
        fun result => ?_
      match result with
      | .error _ => exact triple_pure fun _ hs => hs
      | .ok _ =>
        refine triple_get_bind fun s' hs' => ?_
        refine triple_ite (fun _ => triple_pure fun _ hs => hs.2) fun _ => ?_
        exact ih.weaken (fun _ hs => hs.2) fun _ _ hs => hs

/-- A replayed message was admitted when it was buffered, and still is. -/
theorem replayView_keeps (h₀ : Based A I s₀) (hsteps : Handles A handleEvent)
    (hrec : ∀ i, Keeps A I (J i) (D i) B handleEvent) {left : List Nat → ι}
    (hleft : Drains J left i) {E : Replica P → Prop} (v : Nat) (views : List Nat) :
    Triple (fun s => At A s₀ s ∧ J (left (v :: views)) s) (replayView fuel handleEvent v)
      (fun _ s => At A s₀ s ∧ J (left views) s) E B := by
  refine triple_get_bind fun s hs => ?_
  cases hget : s.pendingMessages.get v with
  | none =>
    refine triple_pure ?_
    rintro _ ⟨rfl, hat, hJ⟩
    exact ⟨hat, hleft.absent hget hJ⟩
  | some messages =>
    have hadm : ∀ m ∈ messages, A.admits s.signed m :=
      fun m hm => (hs.1.wf h₀.wf).buffered v messages m hget hm
    refine triple_bind
      (Q := fun _ s => At A s₀ s ∧ J (left views) s ∧ ∀ m ∈ messages, A.admits s.signed m)
      (triple_modify ?_) fun _ => ?_
    · rintro _ ⟨rfl, hat, hJ⟩
      exact ⟨hat.step .unbuffer, hleft.taken hJ, hadm⟩
    refine (triple_forM fun m hm => ?_).weaken (fun _ hs => hs) fun _ _ hs => ⟨hs.1, hs.2.1⟩
    rintro s' ⟨hat, hJ, hadm'⟩
    have hbase := h₀.move hat.steps
    -- the state before the message is the new base
    have hspec : Ends (handleConsensusMessageWith fuel handleEvent m s') (fun _ => At A s')
        (At A s') (Steps (A := A) s') :=
      handleConsensusMessageWith_spec hbase.wf hsteps s' ⟨At.refl hat.settled, hadm' m hm⟩
    have hkeep : EndsBy (handleConsensusMessageWith fuel handleEvent m s')
        (fun _ => J (left views)) (J (left views)) B :=
      d.handleConsensusMessage_keeps hbase (hrec _) m s' ⟨At.refl hat.settled, hJ, hadm' m hm⟩
    have hnext : ∀ {s''}, At A s' s'' → J (left views) s'' →
        At A s₀ s'' ∧ J (left views) s'' ∧ ∀ m ∈ messages, A.admits s''.signed m :=
      fun h hJ => ⟨hat.trans h, hJ, fun m hm => Steps.admits h.steps (hadm' m hm)⟩
    simp only [bind_run, Act.attempt]
    rcases hr : handleConsensusMessageWith fuel handleEvent m s' with ⟨o, s''⟩
    rw [hr] at hspec hkeep
    cases o with
    | ok a => exact hnext hspec hkeep
    | err e => exact hnext hspec hkeep
    | panic => exact hkeep
    | exhausted => exact hkeep

theorem proposeBlock_keeps (h₀ : Based A I s₀)
    (hsteps : Handles A handleEvent) (hrec : Keeps A I (J i) (D i) B handleEvent) :
    Triple (fun s => At A s₀ s ∧ J i s ∧ (view, parent) ∈ s.viewManager.entered)
      (proposeBlockWith cfg.env fuel handleEvent view parent) (fun _ => J i) (J i) B := by
  rw [proposeBlockWith_eq]
  refine triple_bind
    (Q := fun _ s => At A s₀ s ∧ J i s ∧ (view, parent) ∈ s.viewManager.entered) ?_ fun now => ?_
  · rintro s ⟨hat, hJ, hp⟩
    exact ⟨hat.step .ask, d.ask hJ, hp⟩
  refine triple_ite (fun _ => ?_) fun _ => triple_throw fun s hs => hs.2.1
  refine triple_get_bind ?_
  rintro s ⟨hat, hJ, hp⟩
  rw [buildBlock_eq (hat.wf h₀.wf)]
  have hown := (d.own (i := i) h₀ fuel view parent now).with_spec (sendOwnProposal_spec h₀.wf)
    fun _ hs => ⟨hs.1, hs.2.2⟩
  refine triple_bind (hown.weaken (fun _ hs => hs.2) fun _ _ hs => hs) fun event => ?_
  refine triple_bind (Q := fun _ s => At A s₀ s ∧ J i s) ?_ fun _ => d.proposed h₀ view
  have hhandle : Triple (fun s => Promised A s₀ event s ∧ D i event s ∧
        OwnLogged cfg (cfg.block view parent now).leaderSignature event s)
      (handleOwnProposal cfg.env handleEvent (cfg.block view parent now).leaderSignature event)
      (fun _ => J i) (J i) B := by
    have hdefault := (hrec s₀ h₀ event).weaken
      (fun s (hs : Promised A s₀ event s ∧ D i event s ∧
        OwnLogged cfg (cfg.block view parent now).leaderSignature event s) => ⟨hs.1, hs.2.1⟩)
      fun _ _ hs => hs
    cases event with
    | shouldVote v h | shouldVoteAndFinalize v h => exact d.ownVote h₀ _ _ _ trivial
    | shouldVoteAndMNotarize v h forward => exact d.ownVote h₀ _ _ _ trivial
    | _ => exact hdefault
  exact ((handleOwnProposal_spec h₀.wf hsteps event).triple.and hhandle).conseq
    (fun _ hs => ⟨hs.1, hs.1.1, hs.2, _, _, hs.1.2.1, rfl, hs.1.2.2⟩) (fun _ _ hs => hs)
    (fun _ hs => hs.2) fun _ _ hs => hs.2

theorem progressToNextView_keeps (h₀ : Based A I s₀)
    (hsteps : Handles A handleEvent) (hrec : ∀ i, Keeps A I (J i) (D i) B handleEvent)
    {leader : Nat} :
    Triple (fun s => (At A s₀ s ∧ (view, parent) ∈ s.viewManager.entered) ∧
        K i (.progress view leader parent) s)
      (progressToNextViewWith cfg.env fuel handleEvent view leader parent) (fun _ => J i) (J i) B := by
  rintro s ⟨⟨hat, hp⟩, hK⟩
  have hbase := h₀.move hat.steps
  -- everything below is a run from `s`, in which the view stays entered
  have hrun : Triple (fun s' => At A s s' ∧ K i (.progress view leader parent) s')
      (progressToNextViewWith cfg.env fuel handleEvent view leader parent) (fun _ => J i) (J i) B := by
    refine triple_bind (d.finalizeDeferred_keeps hbase _) fun _ => ?_
    refine triple_get_bind fun s₁ hs₁ => ?_
    obtain ⟨left, hleft, hJ⟩ := d.replay hs₁.2
    refine triple_bind (Q := fun _ s' => At A s s' ∧ J i s') ?_ fun _ => ?_
    · refine (triple_forM_left (I := fun views s' => At A s s' ∧ J (left views) s')
        fun v views => d.replayView_keeps hbase hsteps hrec hleft v views).weaken ?_ fun _ _ hs => ⟨hs.1, hleft.done hs.2⟩
      rintro _ ⟨rfl, hat', -⟩
      exact ⟨hat', hJ⟩
    refine triple_get_bind fun s₂ _ => ?_
    refine triple_ite (fun _ => ?_) fun _ => triple_pure fun _ hs => hs.2.2
    exact (d.proposeBlock_keeps hbase hsteps (hrec i)).weaken
      (fun s' hs => ⟨hs.2.1, hs.2.2, Steps.entered hs.2.1.steps hp⟩) fun _ _ hs => hs
  exact hrun s ⟨At.refl hat.settled, hK⟩

theorem runRest_keeps (h₀ : Based A I s₀) (hsteps : Handles A handleEvent)
    (hrec : ∀ i, Keeps A I (J i) (D i) B handleEvent) (rest : Rest P) :
    Triple (fun s => (At A s₀ s ∧ s.RestReady rest) ∧ K i rest s)
      (runRest cfg.env fuel handleEvent rest) (fun _ => J i) (J i) B := by
  cases rest with
  | done => exact triple_pure fun _ hs => d.rest .done (fun _ _ _ h => nomatch h) hs.2
  | stored v =>
    exact (d.processStored_keeps h₀ (hrec i) v).weaken
      (fun _ hs => ⟨hs.1.1, d.rest (.stored v) (fun _ _ _ h => nomatch h) hs.2⟩) fun _ _ hs => hs
  | progress view leader parent => exact d.progressToNextView_keeps h₀ hsteps hrec
  | propose view parent =>
    exact (d.proposeBlock_keeps h₀ hsteps (hrec i)).weaken
      (fun _ hs => ⟨hs.1.1, d.rest (.propose view parent) (fun _ _ _ h => nomatch h) hs.2, hs.1.2⟩)
      fun _ _ hs => hs

/-- **The event handler keeps the plan**, by induction on the fuel. -/
theorem handleEvent_keeps : ∀ fuel i, Keeps A I (J i) (D i) B (Replica.handleEvent cfg.env fuel)
  | 0, _ => fun _ _ _ => triple_exhausted fun _ hs => d.exhausted hs.2
  | fuel + 1, i => by
    intro s₀ h₀ event
    have hprefix := (d.event (i := i) h₀ event).with_spec (eventPrefix_spec h₀.wf event)
      fun _ hs => hs.1
    unfold Replica.handleEvent
    rw [handleEventWith_eq]
    exact triple_bind hprefix fun rest =>
      d.runRest_keeps h₀ (handleEvent_handles fuel) (handleEvent_keeps fuel) rest

/-- **One input** of a replica that keeps the plan. -/
theorem handle_keeps {s : Replica P} (hbase : Based A I s)
    (hset : s.chain.Settled) (hJ : J i s) (fuel : Nat) {input : Input P}
    (hm : ∀ m, input = .message m → A.admits s.signed m) :
    EndsBy (handle cfg fuel input s) (fun _ => J i) (J i) B := by
  cases input with
  | message m =>
    exact d.handleConsensusMessage_keeps hbase (d.handleEvent_keeps fuel i) m s
      ⟨At.refl hset, hJ, hm m rfl⟩
  | tick =>
    refine triple_bind (P := fun s' => s' = s) (Q := fun _ s' => At A s s' ∧ J i s') ?_
      (fun now => ?_) s rfl
    · rintro _ rfl
      exact ⟨(At.refl hset).step .ask, d.ask hJ⟩
    have htick : Spec (At A s) (onManager (ViewProgressManager.tick cfg.env now))
        (fun event => Promised A s event) (At A s) (At A s) :=
      spec_onManager fun s' hat => tick_spec hbase.wf s'.viewManager hat
    refine triple_bind ?_ fun event => d.handleEvent_keeps fuel i s hbase event
    exact (d.tick hbase now).with_spec htick fun _ hs => hs.1

/-- **Every run keeps the plan**: `J` holds between inputs, and where the
process stops it stops in `B`. -/
theorem run {allowed : Replica P → ConsensusMessage P → Prop}
    (hadm : ∀ s m, allowed s m → A.admits s.signed m)
    (hinv : ∀ {s}, Steps (A := A) (start cfg) s → I s) (hstart : J i (start cfg)) {s : Replica P}
    {running : Bool} (h : Run cfg allowed s running) :
    (running = true → J i s) ∧ (running = false → ∃ reason, B reason s) := by
  induction h with
  | start => exact ⟨fun _ => hstart, fun h => by cases h⟩
  | @step s fuel input hrun hm ih =>
    obtain ⟨hsteps, hset⟩ := Run.steps hadm hrun
    have hends := d.handle_keeps (Based.move ⟨start_wf, hinv⟩ hsteps) (hset rfl) (ih.1 rfl) fuel
      fun m hi => hadm s m (hm m hi)
    rcases hr : handle cfg fuel input s with ⟨o, s'⟩
    rw [hr] at hends
    cases o with
    | ok a => exact ⟨fun _ => hends, fun h => by cases h⟩
    | err e => exact ⟨fun _ => hends, fun h => by cases h⟩
    | panic => exact ⟨fun h => (by cases h), fun _ => ⟨_, hends⟩⟩
    | exhausted => exact ⟨fun h => (by cases h), fun _ => ⟨_, hends⟩⟩

end Plan

/-! ## Plans for the runs that meet a condition -/

/-- A state between two operations. -/
structure Between (A : Admission cfg) (I : Replica P → Prop) (s : Replica P) : Prop
    extends Based A I s where
  settled : s.chain.Settled

/-- `J` holds if every moment up to now met the condition. -/
def When (C : Moment P → Prop) (J : Replica P → Prop) (s : Replica P) : Prop :=
  (∀ e ∈ s.history, C e) → J s

theorem Step.history {s' : Replica P} (h : Step A s s') {e : Moment P} (he : e ∈ s.history) :
    e ∈ s'.history := by
  cases h with
  | hashOnly => exact he
  | clean h =>
    cases h with
    | note => exact mem_append_left _ he
    | _ => exact he

theorem Steps.history {s' : Replica P} (h : Steps (A := A) s s') {e : Moment P}
    (he : e ∈ s.history) : e ∈ s'.history := by
  induction h with
  | refl => exact he
  | tail _ hstep ih => exact hstep.history ih

/-- A promise does not depend on where the run began. -/
theorem Promised.rebase (h : Promised A s₀ event s) : Promised A s event s := by
  cases event with
  | shouldNullifyView v => exact ⟨.refl, h.2⟩
  | shouldVote | shouldVoteAndMNotarize | shouldVoteAndFinalize | shouldProposeBlock
  | progressToNextView | progressToNextViewOnNullification | shouldVoteAndProgressToNextView
  | broadcastConsensusMessage => exact ⟨At.refl h.1.settled, h.2⟩
  | _ => exact At.refl h.settled

theorem Promised.steps (h : Promised A s₀ event s) : Steps (A := A) s₀ s := by
  cases event with
  | shouldNullifyView v => exact h.1
  | shouldVote | shouldVoteAndMNotarize | shouldVoteAndFinalize | shouldProposeBlock
  | progressToNextView | progressToNextViewOnNullification | shouldVoteAndProgressToNextView
  | broadcastConsensusMessage => exact h.1.steps
  | _ => exact At.steps h

/-- The leader's own proposal was queued and is about to be processed. -/
def sentOwn (block : Block P) (s : Replica P) : Replica P :=
  (s.proposed true block).note (.processed (.blockProposal block) s.chain)

theorem sendOwnProposal_run (env : Env P) (fuel : Nat) (block : Block P) (s : Replica P) :
    sendOwnProposal env fuel block s = if env.broadcastOk s.clock then
        onManager (processConsensusMsg fuel (.blockProposal block)) (s.sentOwn block)
      else (.err .broadcastFailed, s.proposed false block) := by
  unfold sendOwnProposal
  simp only [bind_run, get_run, record, modify_run, broadcastConsensusMessage, askEnv]
  by_cases hok : env.broadcastOk s.clock = true
  · simp only [hok, ↓reduceIte, modify_run, noteProcessed]
    rfl
  · simp only [hok, Bool.false_eq_true, ↓reduceIte, throw_run]
    have hok : env.broadcastOk s.clock = false := by simpa using hok
    simp only [Replica.proposed, Replica.log, Replica.emit]
    rfl

/-- A vote the leader's own proposal asks for recurses into nothing. -/
theorem ownVote_spec (h₀ : s₀.WF A) (hevent : AsksVote event) (signature : BlsSignature P)
    (handleEvent : ViewProgressEvent P → Op P Unit) :
    Spec (fun s => Promised A s₀ event s ∧ OwnLogged cfg signature event s)
      (handleOwnProposal cfg.env handleEvent signature event) (fun _ => At A s₀) (At A s₀)
      (Steps (A := A) s₀) := by
  have hswap : handleOwnProposal cfg.env handleEvent signature event =
      handleOwnProposal cfg.env (Replica.handleEvent cfg.env 0) signature event := by
    cases event <;> first | rfl | exact hevent.elim
  rw [hswap]
  rintro s ⟨hp, v, h, hasks, -, hlog⟩
  exact handleOwnProposal_spec h₀ (handleEvent_handles 0) event s ⟨hp, hasks, hlog⟩

/-- The outcome was reached by steps, in `Q` if it is a normal one. -/
abbrev Moved {α : Type} (A : Admission cfg) (s : Replica P) (Q : α → Replica P → Prop)
    (r : Outcome (ConsensusError P) α × Replica P) : Prop :=
  Act.Ends r Q (At A s) (Steps (A := A) s)

/-- Every end of an operation that takes steps is reached by steps. -/
theorem Moved.steps {α : Type} {Q : α → Replica P → Prop}
    {r : Outcome (ConsensusError P) α × Replica P} (h : Moved A s Q r)
    (hQ : ∀ a s', Q a s' → Steps (A := A) s s') : Steps (A := A) s r.2 :=
  ends_iff_state.mp (Ends.conseq h hQ (fun _ hE => hE.steps) fun _ hX => hX)

/-- What each part of the event loop does to `J` and `D`, from any state and
in the runs whose moments meet `C`; `B` holds where the process stops. Each
rule may use that the part only takes steps. -/
structure Rules (A : Admission cfg) (C : Moment P → Prop) (I J : Replica P → Prop)
    (D : ViewProgressEvent P → Replica P → Prop) (B : Abort → Replica P → Prop) : Prop where
  ask : ∀ {s}, J s → J { s with clock := s.clock + 1 }
  buffer : ∀ {s} v m, J s → J (s.bufferMessage v m)
  unbuffer : ∀ {s} v, J s → J { s with pendingMessages := s.pendingMessages.remove v }
  exhausted : ∀ {event s}, D event s → B .exhausted s
  process : ∀ {s m fuel}, Between A I s → J s → C (.processed m s.chain) → s.Known A m →
    Moved A s (fun e => Promised A s e)
      (onManager (processConsensusMsg fuel m) (s.note (.processed m s.chain))) →
    Act.EndsBy (onManager (processConsensusMsg fuel m) (s.note (.processed m s.chain))) D J B
  tick : ∀ {s now}, Between A I s → J s →
    Moved A s (fun e => Promised A s e) (onManager (tick cfg.env now) s) →
    Act.EndsBy (onManager (tick cfg.env now) s) D J B
  event : ∀ {s event}, Based A I s → Promised A s event s → D event s →
    Moved A s (fun _ => At A s) (eventPrefix cfg.env event s) →
    Act.EndsBy (eventPrefix cfg.env event s) (fun _ => J) J B
  finalize : ∀ {s v}, Between A I s → J s → Moved A s (fun _ => At A s) (finalizeView v s) →
    Act.EndsBy (finalizeView v s) (fun _ => J) J B
  refused : ∀ {s} block, J s → J (s.proposed false block)
  own : ∀ {s view parent fuel now}, Between A I s → J s →
    (view, parent) ∈ s.viewManager.entered →
    C (.processed (.blockProposal (cfg.block view parent now)) s.chain) →
    Moved A s (fun e => Promised A s e)
      (onManager (processConsensusMsg fuel (.blockProposal (cfg.block view parent now)))
        (s.sentOwn (cfg.block view parent now))) →
    Act.EndsBy (onManager (processConsensusMsg fuel (.blockProposal (cfg.block view parent now)))
      (s.sentOwn (cfg.block view parent now))) D J B
  ownVote : ∀ {s event signature handleEvent}, Between A I s → Promised A s event s →
    D event s → OwnLogged cfg signature event s → AsksVote event →
    Moved A s (fun _ => At A s) (handleOwnProposal cfg.env handleEvent signature event s) →
    Act.EndsBy (handleOwnProposal cfg.env handleEvent signature event s) (fun _ => J) J B
  proposed : ∀ {s v}, Between A I s → J s →
    Moved A s (fun _ => At A s) (onManager (markProposed v) s) →
    Act.EndsBy (onManager (markProposed v) s) (fun _ => J) J B

namespace Rules

variable {A : Admission cfg} {C : Moment P → Prop} {I J : Replica P → Prop}
  {D : ViewProgressEvent P → Replica P → Prop} {B : Abort → Replica P → Prop}

/-- An operation that keeps the history, under the condition: if the
condition fails before it, it fails after it. -/
theorem ends_when {α : Type} {s : Replica P} {op : Op P α} {Q : α → Replica P → Prop}
    {E : Replica P → Prop} (hmono : ∀ e ∈ s.history, e ∈ (op s).2.history)
    (h : (∀ e ∈ s.history, C e) → EndsBy (op s) Q E B) :
    EndsBy (op s) (fun a => When C (Q a)) (When C E) fun k => When C (B k) := by
  by_cases hC : ∀ e ∈ s.history, C e
  · exact (h hC).conseq (fun _ _ hq _ => hq) (fun _ hE _ => hE) fun _ _ hB _ => hB
  · have hfails : ∀ p : Replica P → Prop, When C p (op s).2 :=
      fun _ hC' => absurd (fun e he => hC' e (hmono e he)) hC
    rcases hr : op s with ⟨o, s'⟩
    rw [hr] at hfails
    cases o <;> exact hfails _

theorem between {s₀ s : Replica P} (h₀ : Based A I s₀) (hat : At A s₀ s) : Between A I s :=
  ⟨h₀.move hat.steps, hat.settled⟩

variable {s₀ : Replica P}

variable (r : Rules A C I J D B)

include r

theorem process_when (h₀ : Based A I s₀) (fuel : Nat) (m : ConsensusMessage P) :
    Triple (JustNoted A s₀ (When C J) m) (onManager (processConsensusMsg fuel m))
      (fun e => When C (D e)) (When C J) fun k => When C (B k) := by
  rintro _ ⟨s, rfl, hat, hJ, hknown⟩
  have hspec : Ends (onManager (processConsensusMsg fuel m) (s.note (.processed m s.chain)))
      (fun e => Promised A s e) (At A s) (At A s) :=
    processKnown_spec (hat.wf h₀.wf) _ ⟨(At.refl hat.settled).step (.note _), hknown⟩
  refine ends_when (fun _ he => he) fun hC => ?_
  refine r.process (between h₀ hat) (hJ fun e he => hC e ?_) (hC _ ?_) hknown
    (hspec.conseq (fun _ _ h => h) (fun _ h => h) fun _ h => h.steps)
  · exact mem_append_left _ he
  · exact mem_append_right _ mem_cons_self

theorem own_when (h₀ : Based A I s₀) (fuel view : Nat) (parent : Hash P) (now : Nat) :
    Triple (fun s => At A s₀ s ∧ When C J s ∧ (view, parent) ∈ s.viewManager.entered)
      (sendOwnProposal cfg.env fuel (cfg.block view parent now)) (fun e => When C (D e)) (When C J)
      fun k => When C (B k) := by
  rintro s ⟨hat, hJ, hp⟩
  have hspec : Ends (sendOwnProposal cfg.env fuel (cfg.block view parent now) s)
      (fun e => Promised A s e) (At A s) (Steps (A := A) s) :=
    (sendOwnProposal_spec (hat.wf h₀.wf) s ⟨At.refl hat.settled, hp⟩).conseq (fun _ _ h => h.1)
      (fun _ h => h) fun _ h => h.steps
  rw [sendOwnProposal_run] at hspec ⊢
  by_cases hok : cfg.env.broadcastOk s.clock = true
  · rw [if_pos hok] at hspec ⊢
    refine ends_when (fun _ he => he) fun hC => ?_
    refine r.own (between h₀ hat) (hJ fun e he => hC e ?_) hp (hC _ ?_) hspec
    · exact mem_append_left _ he
    · exact mem_append_right _ mem_cons_self
  · rw [if_neg hok]
    exact fun hC => r.refused _ (hJ hC)

theorem event_when (h₀ : Based A I s₀) (event : ViewProgressEvent P) :
    Triple (fun s => Promised A s₀ event s ∧ When C (D event) s) (eventPrefix cfg.env event)
      (fun _ => When C J) (When C J) fun k => When C (B k) := by
  rintro s ⟨hp, hD⟩
  have hbase := h₀.move hp.steps
  have hmoved : Moved A s (fun _ => At A s) (eventPrefix cfg.env event s) :=
    (eventPrefix_spec hbase.wf event s hp.rebase).conseq (fun _ _ h => h.1) (fun _ h => h)
      fun _ h => h
  exact ends_when (fun _ he => Steps.history (Moved.steps hmoved fun _ _ h => h.steps) he)
    fun hC => r.event hbase hp.rebase (hD hC) hmoved

/-- **Rules for the parts are a plan** for the runs that meet the condition,
in which nothing is ever outstanding. -/
theorem plan :
    Plan (ι := Unit) A I (fun _ => When C J) (fun _ e => When C (D e)) (fun _ _ => When C J)
      (fun k => When C (B k)) where
  ask h hC := r.ask (h hC)
  -- an event that only asks for a later view leaves `J` whole
  buffer h₀ hat v leader m h hC :=
    r.buffer v m (r.event_when h₀ (.shouldUpdateView v leader) _ ⟨hat, h⟩ hC)
  exhausted h hC := r.exhausted (h hC)
  process h₀ fuel m := r.process_when h₀ fuel m
  tick {_ s₀} h₀ now := by
    rintro s ⟨hat, hJ⟩
    have htick : Spec (At A s) (onManager (ViewProgressManager.tick cfg.env now))
        (fun event => Promised A s event) (At A s) (Steps (A := A) s) :=
      spec_settled (spec_onManager fun s' hat' => tick_spec (hat.wf h₀.wf) s'.viewManager hat')
    exact ends_when (fun _ he => he) fun hC =>
      r.tick (between h₀ hat) (hJ hC) (htick s (At.refl hat.settled))
  event h₀ event := r.event_when h₀ event
  rest _ _ h := h
  finalize {_ s₀} h₀ v _ _ _ := by
    rintro s ⟨hat, hJ⟩
    have hmoved : Moved A s (fun _ => At A s) (finalizeView v s) :=
      spec_settled (finalizeView_spec (hat.wf h₀.wf)) s (At.refl hat.settled)
    exact ends_when (fun _ he => Steps.history (Moved.steps hmoved fun _ _ h => h.steps) he)
      fun hC => r.finalize (between h₀ hat) (hJ hC) hmoved
  replay h := ⟨fun _ => (), ⟨fun h => h, fun _ h => h, fun h hC => r.unbuffer _ (h hC)⟩, h⟩
  own h₀ fuel view parent now := r.own_when h₀ fuel view parent now
  ownVote {_ s₀} h₀ event signature handleEvent hevent := by
    rintro s ⟨hp, hD, hlog⟩
    have hbase := h₀.move hp.steps
    have hsettled : s.chain.Settled := by
      cases event with
      | shouldVote | shouldVoteAndMNotarize | shouldVoteAndFinalize => exact hp.1.settled
      | _ => exact hevent.elim
    have hmoved := ownVote_spec hbase.wf hevent signature handleEvent s ⟨hp.rebase, hlog⟩
    exact ends_when (fun _ he => Steps.history (Moved.steps hmoved fun _ _ h => h.steps) he)
      fun hC => r.ownVote ⟨hbase, hsettled⟩ hp.rebase (hD hC) hlog hevent hmoved
  proposed {_ s₀} h₀ v := by
    rintro s ⟨hat, hJ⟩
    exact ends_when (fun _ he => he) fun hC => r.proposed (between h₀ hat) (hJ hC)
      (spec_settled markProposed_spec s (At.refl hat.settled))

/-- **Every run whose moments meet the condition keeps the rules**: `J` holds
between inputs, and where the process stops it stops in `B`. -/
theorem run {allowed : Replica P → ConsensusMessage P → Prop}
    (hadm : ∀ s m, allowed s m → A.admits s.signed m)
    (hinv : ∀ {s}, Steps (A := A) (start cfg) s → I s) (hstart : J (start cfg)) {s : Replica P}
    {running : Bool} (h : Run cfg allowed s running) (hC : ∀ e ∈ s.history, C e) :
    (running = true → J s) ∧ (running = false → ∃ k, B k s) := by
  obtain ⟨hgoes, hstops⟩ := r.plan.run (i := ()) hadm hinv (fun _ => hstart) h
  exact ⟨fun hr => hgoes hr hC, fun hr => (hstops hr).imp fun _ hB => hB hC⟩

end Rules

end Replica

end Minimmit
