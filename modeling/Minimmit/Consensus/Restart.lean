/-
Minimmit.Consensus.Restart — the end of a process and the next one
(persist_all_views of consensus_manager/view_chain.rs, new of
consensus_manager/view_manager.rs on a store that exists, spawn of node.rs).

A process may end anywhere; an orderly shutdown first writes what the held
views contain. The next process opens the store, puts a new writer over it
whose pending diffs are empty and makes a new view manager, which writes the
genesis block and the genesis accounts and begins in view 1. It reads nothing
of what the first process was doing.
-/
import Minimmit.Consensus.Run

namespace Minimmit

open Minimmit.Library

variable {P : Params}

/-! ## Shutting down -/

/-- What `persist_all_views` writes of one view. -/
def PendingStateWriter.persistContext (w : PendingStateWriter P) (e : Nat × ViewContext P) :
    PendingStateWriter P :=
  let w := match e.2.stateDiff with
    | some d => w.addMNotarizedDiff e.1 d
    | none => w
  let w := match e.2.block with
    | some block => w.onStore (·.putNonFinalizedBlock block)
    | none => w
  let w := match e.2.mNotarization with
    | some m => w.onStore (·.putNotarization m)
    | none => w
  let w := match e.2.nullification with
    | some n => w.onStore (·.putNullification n)
    | none => w
  w.onStore (·.putVotes e.2.votes.elems)

/-- `persist_all_views`, which drains the map. -/
def ViewChain.persistAllViews (s : ViewChain P) : ViewChain P :=
  { s with
    persistenceWriter := s.iter.foldl PendingStateWriter.persistContext s.persistenceWriter
    nonFinalizedViews := ∅ }

namespace Replica

/-- The store that a process leaves: as it is, or after `shutdown`. -/
def leftStore (s : Replica P) (orderly : Bool) : Store P :=
  if orderly then s.viewManager.viewChain.persistAllViews.persistenceWriter.store
  else s.viewManager.viewChain.persistenceWriter.store

end Replica

/-! ## Starting on a store -/

/-- The genesis block and accounts are written, whatever is there. -/
def Store.writeGenesis (store : Store P) (leader : Nat) (accounts : List (Address P × Nat)) :
    Store P :=
  accounts.foldl (fun s a => s.putAccount a.1 { balance := a.2, nonce := 0 })
    (store.putFinalizedBlock (Block.genesis leader 0))

/-- `ViewProgressManager::new` on a store, with the writer the node makes. -/
def ViewProgressManager.newOn (store : Store P) (replicaId : Nat) (peers : PeerSet P)
    (genesisAccounts : List (Address P × Nat)) (hashSeed : Nat) : ViewProgressManager P :=
  let store := store.writeGenesis (peers.leaderForView 0) genesisAccounts
  let context := ViewContext.new 1 (peers.leaderForView 1) replicaId (Block.genesisHash P)
  { viewChain := ViewChain.new context (PendingStateWriter.new store 0) hashSeed
    replicaId
    peers
    blockRecoveryCooldowns := []
    canonicalRecoveryPending := []
    entered := [(1, Block.genesisHash P)]
    finalizations := []
    validated := [] }

theorem ViewProgressManager.new_eq_newOn (replicaId : Nat) (peers : PeerSet P)
    (genesisAccounts : List (Address P × Nat)) :
    new replicaId peers genesisAccounts =
      newOn Store.empty replicaId peers genesisAccounts replicaId := rfl

namespace Replica

/-- The state machine of the next process; the maps have a new seed. -/
def restart (cfg : Config P) (store : Store P) (hashSeed : Nat) : Replica P :=
  { viewManager := ViewProgressManager.newOn store cfg.replicaId cfg.peers cfg.genesisAccounts
      hashSeed
    pendingMessages := ∅
    secretKey := cfg.secretKey
    clock := 0
    outbox := []
    notified := []
    signed := []
    cascades := []
    history := [] }

/-- The states of a replica that goes on from `s₀`. -/
inductive RunFrom (cfg : Config P) (allowed : ConsensusMessage P → Prop) (s₀ : Replica P) :
    Replica P → Bool → Prop
  | start : RunFrom cfg allowed s₀ s₀ true
  | step {s : Replica P} (fuel : Nat) (input : Input P) (h : RunFrom cfg allowed s₀ s true)
      (hm : ∀ m, input = .message m → allowed m) :
      RunFrom cfg allowed s₀ (handle cfg fuel input s).2 (Completed (handle cfg fuel input s).1)

variable {cfg : Config P} {A : Admission cfg}

theorem RunFrom.steps {allowed : ConsensusMessage P → Prop}
    (hadm : ∀ (s : Replica P) m, allowed m → A.admits s.signed m) {s₀ s : Replica P}
    (hwf : s₀.WF A) (hset : s₀.chain.Settled) {running : Bool}
    (h : RunFrom cfg allowed s₀ s running) :
    Steps (A := A) s₀ s ∧ (running = true → s.chain.Settled) := by
  induction h with
  | start => exact ⟨.refl, fun _ => hset⟩
  | @step s fuel input _ hm ih =>
    obtain ⟨hsteps, hset⟩ := handle_steps (Steps.wf ih.1 hwf) (ih.2 rfl) fuel fun m hi =>
      hadm s m (hm m hi)
    exact ⟨ih.1.trans hsteps, hset⟩

/-- The context of view 1, the only one held after a restart. -/
theorem restart_context {store : Store P} {seed v : Nat} {c : ViewContext P}
    (hc : (restart cfg store seed).context v = some c) :
    v = 1 ∧ c = ViewContext.new 1 (cfg.peers.leaderForView 1) cfg.replicaId (Block.genesisHash P) :=
  @start_context _ cfg _ _ hc

theorem restart_wf (store : Store P) (seed : Nat) : (restart cfg store seed).WF A :=
  let h := @start_wf _ cfg A
  ⟨rfl, rfl, rfl, ⟨h.chain.viewNumber, h.chain.leaderId, h.chain.replicaId, h.chain.context,
    h.chain.le_current, h.chain.past, h.chain.current, h.chain.current_lt⟩, h.pending,
    h.buffered, h.entered, h.entered_le⟩

theorem restart_settled (store : Store P) (seed : Nat) : (restart cfg store seed).chain.Settled :=
  @start_settled _ cfg

end Replica

end Minimmit
