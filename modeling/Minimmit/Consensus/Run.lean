/-
Minimmit.Consensus.Run — the runs of one replica.

A run starts from `ViewProgressManager::new` on a fresh store and handles
inputs one after the other, a message from the network or a tick, each with
some amount of fuel. It goes on after `Ok` and after an error that is logged
and dropped; a panic ends the process, and an input whose handling does not
end leaves the run at the state it got to. `allowed` says which messages may
arrive in a state.

`Run.steps` is the bridge to the step relation: what every step keeps holds
of every state of every run.
-/
import Minimmit.Consensus.MachineFunctions
import Minimmit.Consensus.PersistSteps

namespace Minimmit

open Minimmit.Library Relation Replica List ViewChain

variable {P : Params}

variable (P) in
/-- What the event loop hands to the state machine. -/
inductive Input where
  | message (m : ConsensusMessage P)
  | tick

/-- Does the process go on after this outcome? -/
def Completed {ε α : Type} : Outcome ε α → Bool
  | .ok _ | .err _ => true
  | .panic | .exhausted => false

namespace Replica

/-- The state machine of a configuration before its first input. -/
def start (cfg : Config P) : Replica P :=
  Replica.new cfg.replicaId cfg.peers cfg.secretKey cfg.genesisAccounts

/-- Handle one input. -/
def handle (cfg : Config P) (fuel : Nat) : Input P → Op P Unit
  | .message m => handleConsensusMessage cfg.env fuel m
  | .tick => handleTick cfg.env fuel

/-- The states of a replica, and whether its process is still running. -/
inductive Run (cfg : Config P) (allowed : Replica P → ConsensusMessage P → Prop) :
    Replica P → Bool → Prop
  | start : Run cfg allowed (start cfg) true
  | step {s : Replica P} (fuel : Nat) (input : Input P) (h : Run cfg allowed s true)
      (hm : ∀ m, input = .message m → allowed s m) :
      Run cfg allowed (handle cfg fuel input s).2 (Completed (handle cfg fuel input s).1)

variable {cfg : Config P} {A : Admission cfg}

/-- Only view 1 is held at the start. -/
theorem start_context {v : Nat} {c : ViewContext P} (hc : (start cfg).context v = some c) :
    v = 1 ∧
      c = ViewContext.new 1 (cfg.peers.leaderForView 1) cfg.replicaId (Block.genesisHash P) := by
  have hmem := AList.mem_lookup_iff.mp (Option.mem_def.mpr hc)
  have hentry := mem_singleton.mp hmem
  obtain ⟨rfl, hval⟩ := Sigma.mk.inj hentry
  exact ⟨rfl, eq_of_heq hval⟩

theorem start_wf : (start cfg).WF A := by
  refine ⟨rfl, rfl, rfl, ?_, ?_, ?_, ?_, ?_⟩
  · constructor
    case current => exact ⟨_, rfl⟩
    case current_lt => exact (by decide : 1 < u64Size)
    all_goals intro v c hc
    all_goals obtain ⟨rfl, rfl⟩ := start_context hc
    · rfl
    · rfl
    · rfl
    · exact ViewContext.wf_new ..
    · exact Nat.le_refl 1
    · exact fun h => absurd h (Nat.lt_irrefl 1)
  · intro v c b hc hb
    obtain ⟨rfl, rfl⟩ := start_context hc
    cases hb
  · intro v ms m hget
    cases hget
  · intro v c hc
    obtain ⟨rfl, rfl⟩ := start_context hc
    exact mem_cons_self
  · intro e he
    obtain rfl := mem_singleton.mp he
    exact Nat.le_refl 1

theorem start_settled : (start cfg).chain.Settled := by
  intro v c hc h hh
  obtain ⟨-, rfl⟩ := start_context hc
  cases hh

/-- At the start the only finalized block is genesis, and none is nullified. -/
theorem start_blocks : SameBlocks (start cfg).chain.persistenceWriter.store
    (Store.empty.putFinalizedBlock (Block.genesis (cfg.peers.leaderForView 0) 0)) :=
  foldl_related .refl .trans (fun _ (_ : Address P × Nat) => ⟨rfl, rfl, rfl⟩) cfg.genesisAccounts _

/-- Handling one admitted input is a run of steps, and the chain is settled
after it unless the process stops. -/
theorem handle_steps {s : Replica P} (hwf : s.WF A) (hset : s.chain.Settled) (fuel : Nat)
    {input : Input P} (hm : ∀ m, input = .message m → A.admits s.signed m) :
    Steps (A := A) s (handle cfg fuel input s).2 ∧
      (Completed (handle cfg fuel input s).1 = true →
        (handle cfg fuel input s).2.chain.Settled) := by
  have hends : Act.Ends (handle cfg fuel input s) (fun _ => At A s) (At A s)
      (Steps (A := A) s) := by
    cases input with
    | message m => exact handleConsensusMessage_spec hwf s ⟨At.refl hset, hm m rfl⟩
    | tick => exact handleTick_spec hwf s (At.refl hset)
  rcases hr : handle cfg fuel input s with ⟨o, s'⟩
  rw [hr] at hends
  cases o with
  | ok a => exact ⟨hends.steps, fun _ => hends.settled⟩
  | err e => exact ⟨hends.steps, fun _ => hends.settled⟩
  | panic | exhausted => exact ⟨hends, fun h => by cases h⟩

/-- **A run is a run of steps**: every state is reached by steps from the
start, and the chain is settled between inputs. -/
theorem Run.steps {allowed : Replica P → ConsensusMessage P → Prop}
    (hadm : ∀ s m, allowed s m → A.admits s.signed m) {s : Replica P} {running : Bool}
    (h : Run cfg allowed s running) :
    Steps (A := A) (Replica.start cfg) s ∧ (running = true → s.chain.Settled) := by
  induction h with
  | start => exact ⟨.refl, fun _ => start_settled⟩
  | @step s fuel input _ hm ih =>
    have hwf : s.WF A := Steps.wf ih.1 start_wf
    obtain ⟨hsteps, hset⟩ := handle_steps hwf (ih.2 rfl) fuel fun m hi => hadm s m (hm m hi)
    exact ⟨ih.1.trans hsteps, hset⟩

/-- What holds at the start and is kept by every step of a well-formed
replica holds after any number of steps. -/
theorem Steps.invariant {I : Replica P → Prop} {s₀ s : Replica P}
    (hstep : ∀ s s', s.WF A → Step A s s' → I s → I s') (h : Steps (A := A) s₀ s)
    (h₀ : s₀.WF A) (hI : I s₀) : I s := by
  induction h with
  | refl => exact hI
  | tail hsteps hlast ih => exact hstep _ _ (Steps.wf hsteps h₀) hlast ih

/-! ## What holds of every held context -/

/-- The context is the one of view `v` at this replica. -/
structure Belongs (cfg : Config P) (v : Nat) (c : ViewContext P) : Prop where
  viewNumber : c.viewNumber = v
  leaderId : c.leaderId = cfg.peers.leaderForView v
  replicaId : c.replicaId = cfg.replicaId
  wf : c.WF cfg.peers

/-- A property of contexts that every change of one context keeps. -/
structure ContextRule (A : Admission cfg) (K : Nat → ViewContext P → Prop) : Prop where
  new : ∀ v parent, K v (ViewContext.new v (cfg.peers.leaderForView v) cfg.replicaId parent)
  step : ∀ {log v c c'}, Belongs cfg v c → ViewContext.CtxStep (A.admits log) cfg.peers c c' →
    K v c → K v c'
  hashOnly : ∀ {log v c c'}, Belongs cfg v c →
    ViewContext.HashOnlyStep (A.admits log) cfg.peers c c' → K v c → K v c'
  castVote : ∀ {v c h signature}, Belongs cfg v c → c.VoteReady h → K v c →
    K v (c.castVote h signature)
  nullify : ∀ {v c}, Belongs cfg v c → c.hasNullified = false → K v c →
    K v { c with hasNullified := true }

namespace ContextRule

variable {K : Nat → ViewContext P → Prop}

theorem belongs {chain : ViewChain P} (h : chain.WF cfg.peers cfg.replicaId) {v : Nat}
    {c : ViewContext P} (hc : chain.findViewContext v = some c) : Belongs cfg v c :=
  ⟨h.viewNumber v c hc, h.leaderId v c hc, h.replicaId v c hc, h.context v c hc⟩

theorem setContext {chain : ViewChain P} {v : Nat} {c' : ViewContext P}
    (hK : ∀ v c, chain.findViewContext v = some c → K v c) (hc' : K v c') :
    ∀ w c, (chain.setContext v c').findViewContext w = some c → K w c := by
  intro w d hd
  rcases findViewContext_setContext_cases hd with ⟨rfl, rfl⟩ | ⟨-, hold⟩
  · exact hc'
  · exact hK w d hold

theorem chainSteps (hrule : ContextRule A K) {log : List (Signed P)} {chain chain' : ViewChain P}
    (hwf : chain.WF cfg.peers cfg.replicaId)
    (h : ViewChain.Steps (ViewContext.CtxStep (A.admits log) cfg.peers) chain chain')
    (hK : ∀ v c, chain.findViewContext v = some c → K v c) :
    ∀ v c, chain'.findViewContext v = some c → K v c := by
  induction h with
  | refl => exact hK
  | tail hsteps hlast ih =>
    intro v c' hc'
    rcases hlast.find hc' with hold | ⟨c, hc, hctx⟩
    · exact ih v c' hold
    · exact hrule.step (belongs (hwf.steps hsteps) hc) hctx (ih v c hc)

theorem replicaStep (hrule : ContextRule A K) {s s' : Replica P} (hwf : s.WF A) (h : Step A s s')
    (hK : ∀ v c, s.context v = some c → K v c) : ∀ v c, s'.context v = some c → K v c := by
  cases h with
  | hashOnly hc h => exact setContext hK (hrule.hashOnly (belongs hwf.chain hc) h (hK _ _ hc))
  | clean h =>
    cases h with
    | chain h => exact hrule.chainSteps hwf.chain (.single h) hK
    | enter =>
      intro v c hc
      rcases enter_cases hc with ⟨-, rfl⟩ | ⟨-, hold⟩
      · rw [hwf.peers, hwf.replicaId]
        exact hrule.new v _
      · exact hK v c hold
    | @finalize view =>
      exact fun v c hc => hK v c ((finalize_prunes view _ s.chain).find v c hc)
    | castVote hc hr =>
      exact setContext hK (hrule.castVote (belongs hwf.chain hc) hr (hK _ _ hc))
    | nullify hc hn => exact setContext hK (hrule.nullify (belongs hwf.chain hc) hn (hK _ _ hc))
    | propose _ hsteps => exact hrule.chainSteps hwf.chain (Steps.ofBlock hsteps) hK
    | _ => exact hK

/-- **A context rule holds** of every context a replica ever holds. -/
theorem holds (hrule : ContextRule A K) {s : Replica P} (h : Steps (A := A) (start cfg) s) {v : Nat}
    {c : ViewContext P} (hc : s.context v = some c) : K v c := by
  refine Steps.invariant (I := fun s => ∀ v c, s.context v = some c → K v c)
    (fun _ _ hwf hstep => hrule.replicaStep hwf hstep) h start_wf (fun v c hc => ?_) v c hc
  obtain ⟨rfl, rfl⟩ := start_context hc
  exact hrule.new 1 _

end ContextRule

/-! ## Concrete runs -/

/-- Handle an input if the process is still running. -/
def runOne (cfg : Config P) (fuel : Nat) (r : Replica P × Bool) (input : Input P) :
    Replica P × Bool :=
  if r.2 then ((handle cfg fuel input r.1).2, Completed (handle cfg fuel input r.1).1) else r

/-- Handle a list of inputs. -/
def runAll (cfg : Config P) (fuel : Nat) (inputs : List (Input P)) : Replica P × Bool :=
  inputs.foldl (runOne cfg fuel) (start cfg, true)

/-- The messages among the inputs. -/
def messages (inputs : List (Input P)) : List (ConsensusMessage P) :=
  inputs.filterMap fun
    | .message m => some m
    | .tick => none

theorem run_runAll (cfg : Config P) (fuel : Nat) (inputs : List (Input P))
    {allowed : ConsensusMessage P → Prop} (h : ∀ m ∈ messages inputs, allowed m) :
    Run cfg (fun _ => allowed) (runAll cfg fuel inputs).1 (runAll cfg fuel inputs).2 := by
  have hgen : ∀ (inputs : List (Input P)) (r : Replica P × Bool),
      (∀ m, .message m ∈ inputs → allowed m) → Run cfg (fun _ => allowed) r.1 r.2 →
      Run cfg (fun _ => allowed) (inputs.foldl (runOne cfg fuel) r).1
        (inputs.foldl (runOne cfg fuel) r).2 := by
    intro inputs
    induction inputs with
    | nil => exact fun _ _ hr => hr
    | cons input inputs ih =>
      rintro ⟨s, running⟩ hin hr
      refine ih _ (fun m hm => hin m (mem_cons_of_mem _ hm)) ?_
      cases running with
      | false => exact hr
      | true => exact .step fuel input hr fun m hm => hin m (hm ▸ mem_cons_self)
  refine hgen inputs _ (fun m hm => h m ?_) .start
  exact mem_filterMap.mpr ⟨.message m, hm, rfl⟩

/-- Any inputs make a run. -/
theorem run_any (cfg : Config P) (fuel : Nat) (inputs : List (Input P)) :
    Run cfg (fun _ _ => True) (runAll cfg fuel inputs).1 (runAll cfg fuel inputs).2 :=
  run_runAll cfg fuel inputs fun _ _ => trivial

/-- Inputs after which the replica still runs. -/
theorem run_goes (cfg : Config P) (fuel : Nat) (inputs : List (Input P))
    (allowed : ConsensusMessage P → Prop) (hgoes : (runAll cfg fuel inputs).2 = true)
    (h : ∀ m ∈ messages inputs, allowed m) :
    Run cfg (fun _ => allowed) (runAll cfg fuel inputs).1 true := by
  rw [← hgoes]
  exact run_runAll cfg fuel inputs h

end Replica

end Minimmit
