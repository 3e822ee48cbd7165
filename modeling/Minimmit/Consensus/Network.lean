/-
Minimmit.Consensus.Network — correct replicas among faulty ones.

A network fixes the validators, which of them are correct and how each
correct one is configured. A state of the system is a replica state for
every correct id. In one step one correct replica handles one input, a tick
or any message at all, in any order, as often as one likes: what faulty
replicas send and what the network loses or repeats needs no state of its
own. The only limit is that signatures are not forged (`Authentic`): a
signature that verifies under the key of a correct replica, alone or in an
aggregate that lists it, is on bytes that replica has signed by then.

`Reachable.micro` breaks the handling of an input into the steps of
`Replica.Step`; `micro_invariant` is the induction every theorem about the
system uses.
-/
import Mathlib.Data.Finset.Card
import Minimmit.Consensus.SigningTheorems

namespace Minimmit

open Minimmit.Library Relation Replica List Function

variable {P : Params}

variable (P) in
/-- The validators and the correct ones among them. -/
structure Network where
  peers : PeerSet P
  correct : Finset Nat
  config : Nat → Config P
  config_peers : ∀ p ∈ correct, (config p).peers = peers
  config_id : ∀ p ∈ correct, (config p).replicaId = p
  correct_peers : ∀ p ∈ correct, p ∈ peers.sortedPeerIds
  size : peers.sortedPeerIds.length = P.N
  /-- At most `F` of the `N` validators are faulty. -/
  faulty : P.N ≤ correct.card + P.F
  resilience : 5 * P.F + 1 ≤ P.N
  certificate : P.mSize = 2 * P.F + 1

/-- The bytes an entry of the log is a signature on. -/
def Signed.bytes : Signed P → List UInt8
  | .proposal block _ _ => blockMessage block.getHash
  | .vote _ blockHash _ => blockMessage blockHash
  | .nullify _ _ c => nullifyMessage P c.viewNumber c.leaderId

/-- The logs of all replicas. -/
abbrev Logs (P : Params) : Type := Nat → List (Signed P)

/-- The replica has signed these bytes. -/
def Logs.SignedBytes (logs : Logs P) (p : Nat) (bytes : List UInt8) : Prop :=
  ∃ e ∈ logs p, e.bytes = bytes

instance (logs : Logs P) (p : Nat) (bytes : List UInt8) : Decidable (logs.SignedBytes p bytes) :=
  inferInstanceAs (Decidable (∃ e ∈ logs p, e.bytes = bytes))

namespace Network

variable (net : Network P)

/-- A signature that verifies under the key of a correct replica is on bytes
that replica has signed. -/
def Unforged (logs : Logs P) (p : Nat) (bytes : List UInt8) (signature : BlsSignature P) : Prop :=
  p ∈ net.correct → (net.peers.getPublicKey p).any
    (fun pk => Crypto.verify P.hashing P.curve pk bytes signature) = true → logs.SignedBytes p bytes

/-- An aggregate that verifies is on bytes every listed correct replica has
signed. -/
def UnforgedAggregate (logs : Logs P) (peerIds : List Nat) (bytes : List UInt8)
    (verified : Option Bool) : Prop :=
  verified = some true → ∀ p ∈ peerIds, p ∈ net.correct → logs.SignedBytes p bytes

/-- No signature in the message is forged. -/
def Authentic (logs : Logs P) : ConsensusMessage P → Prop
  | .blockProposal b => net.Unforged logs b.leader (blockMessage b.getHash) b.leaderSignature
  | .vote v => net.Unforged logs v.peerId (blockMessage v.blockHash) v.signature
  | .nullify n => net.Unforged logs n.peerId (nullifyMessage P n.view n.leaderId) n.signature
  | .mNotarization m =>
    net.UnforgedAggregate logs m.peerIds (blockMessage m.blockHash) (m.verify net.peers)
  | .nullification n =>
    net.UnforgedAggregate logs n.peerIds (nullifyMessage P n.view n.leaderId) (n.verify net.peers)
  | _ => True

instance (logs : Logs P) (p : Nat) (bytes : List UInt8) (signature : BlsSignature P) :
    Decidable (net.Unforged logs p bytes signature) :=
  inferInstanceAs (Decidable (_ → _ → _))

instance (logs : Logs P) (peerIds : List Nat) (bytes : List UInt8) (verified : Option Bool) :
    Decidable (net.UnforgedAggregate logs peerIds bytes verified) :=
  inferInstanceAs (Decidable (_ → ∀ p ∈ peerIds, _))

instance (logs : Logs P) : (m : ConsensusMessage P) → Decidable (net.Authentic logs m)
  | .blockProposal _ | .vote _ | .nullify _ => inferInstanceAs (Decidable (net.Unforged ..))
  | .mNotarization _ | .nullification _ =>
    inferInstanceAs (Decidable (net.UnforgedAggregate ..))
  | .blockRecoveryRequest .. | .blockRecoveryResponse .. => isTrue trivial

/-! ## Runs of the system -/

variable (P) in
/-- A replica state and whether its process runs, for every id. -/
abbrev World : Type := Nat → Replica P × Bool

/-- The logs of a state. -/
def logs (w : World P) : Logs P := fun p => (w p).1.signed

/-- Every replica before its first input. -/
def init : World P := fun p => (Replica.start (net.config p), true)

/-- The states of the system; `allowed` limits the messages further. -/
inductive Reachable (allowed : ConsensusMessage P → Prop) : World P → Prop
  | init : Reachable allowed net.init
  | step {w : World P} {p : Nat} (fuel : Nat) (input : Input P) (h : Reachable allowed w)
      (hp : p ∈ net.correct) (hrun : (w p).2 = true)
      (hm : ∀ m, input = .message m →
        m.WellTyped ∧ net.Authentic (logs w) m ∧ allowed m) :
      Reachable allowed (Function.update w p
        ((handle (net.config p) fuel input (w p).1).2,
          Completed (handle (net.config p) fuel input (w p).1).1))

/-! ## Logs only grow -/

variable {p : Nat}

theorem Unforged.mono {logs logs' : Logs P} (h : ∀ p, logs p ⊆ logs' p)
    {bytes : List UInt8} {signature : BlsSignature P}
    (hu : net.Unforged logs p bytes signature) : net.Unforged logs' p bytes signature := by
  intro hp hv
  obtain ⟨e, he, hb⟩ := hu hp hv
  exact ⟨e, h p he, hb⟩

theorem UnforgedAggregate.mono {logs logs' : Logs P} (h : ∀ p, logs p ⊆ logs' p)
    {peerIds : List Nat} {bytes : List UInt8} {verified : Option Bool}
    (hu : net.UnforgedAggregate logs peerIds bytes verified) :
    net.UnforgedAggregate logs' peerIds bytes verified := by
  intro hv p hp hc
  obtain ⟨e, he, hb⟩ := hu hv p hp hc
  exact ⟨e, h p he, hb⟩

theorem Authentic.mono {logs logs' : Logs P} (h : ∀ p, logs p ⊆ logs' p) {m : ConsensusMessage P}
    (hm : net.Authentic logs m) : net.Authentic logs' m := by
  cases m with
  | blockProposal | vote | nullify => exact Unforged.mono net h hm
  | mNotarization | nullification => exact UnforgedAggregate.mono net h hm
  | blockRecoveryRequest => trivial
  | blockRecoveryResponse => trivial

/-! ## Micro steps -/

/-- The rule on messages holds of the proposals of correct replicas. -/
def AllowsOwn (allowed : ConsensusMessage P → Prop) : Prop :=
  ∀ p ∈ net.correct, ∀ view parent now, view < u64Size →
    allowed (.blockProposal ((net.config p).block view parent now))

variable {net} {allowed : ConsensusMessage P → Prop}

/-- What replica `p` knows about its messages when the others have signed
`others`. -/
def admission (hown : net.AllowsOwn allowed) (others : Logs P) (hp : p ∈ net.correct) :
    Admission (net.config p) where
  admits log m := m.WellTyped ∧ net.Authentic (Function.update others p log) m ∧ allowed m
  mono {log entry m} h := by
    refine ⟨h.1, Authentic.mono net (fun q => ?_) h.2.1, h.2.2⟩
    by_cases hq : q = p
    · subst hq
      simp only [Function.update_self]
      exact List.subset_append_left log [entry]
    · simp only [Function.update_of_ne hq]
      exact List.Subset.refl _
  own {log chain sent view parent now} hv := by
    refine ⟨(net.config p).block_wellTyped hv parent now, ?_, hown p hp view parent now hv⟩
    intro _ _
    -- the leader of the block is the replica itself, and its log has the entry
    have hleader : ((net.config p).block view parent now).leader = p := net.config_id p hp
    rw [Logs.SignedBytes, hleader, Function.update_self]
    exact ⟨_, List.mem_append_right log List.mem_cons_self, rfl⟩

/-- Only the logs of the others matter. -/
theorem admission_congr (hown : net.AllowsOwn allowed) {others others' : Logs P}
    (hp : p ∈ net.correct) (h : ∀ q, q ≠ p → others q = others' q) :
    admission hown others hp = admission hown others' hp := by
  have hupd : ∀ log, update others p log = update others' p log := by
    intro log
    funext q
    by_cases hq : q = p
    · subst hq
      simp only [update_self]
    · simp only [update_of_ne hq, h q hq]
  refine Admission.ext ?_
  funext log m
  simp only [admission, hupd]

/-- The logs of the replica states. -/
abbrev logsOf (w : Nat → Replica P) : Logs P := fun p => (w p).signed

/-- One step of one correct replica. -/
inductive Micro (hown : net.AllowsOwn allowed) : (Nat → Replica P) → (Nat → Replica P) → Prop
  | step {w : Nat → Replica P} {p : Nat} {s' : Replica P} (hp : p ∈ net.correct)
      (h : Step (admission hown (logsOf w) hp) (w p) s') : Micro hown w (Function.update w p s')

/-- Every correct replica is well-formed. -/
def AllWF (hown : net.AllowsOwn allowed) (w : Nat → Replica P) : Prop :=
  ∀ p (hp : p ∈ net.correct), (w p).WF (admission hown (logsOf w) hp)

variable {hown : net.AllowsOwn allowed} {w : Nat → Replica P}

theorem Micro.logs_subset {w' : Nat → Replica P} (h : Micro hown w w') (p : Nat) :
    logsOf w p ⊆ logsOf w' p := by
  cases h with
  | @step q s' hq h =>
    by_cases hp : p = q
    · subst hp
      simp only [logsOf, update_self]
      exact h.signed_subset
    · simp only [logsOf, update_of_ne hp]
      exact Subset.refl _

theorem Micro.wf {w' : Nat → Replica P} (h : Micro hown w w') (hw : AllWF hown w) :
    AllWF hown w' := by
  have hsub := h.logs_subset
  -- what was admitted in `w` is admitted in `w'`
  have hgrow : ∀ p (hp : p ∈ net.correct) log m,
      (admission hown (logsOf w) hp).admits log m → (admission hown (logsOf w') hp).admits log m := by
    intro p hp log m hm
    refine ⟨hm.1, Authentic.mono net (fun q => ?_) hm.2.1, hm.2.2⟩
    by_cases hq : q = p
    · subst hq
      simp only [update_self]
      exact Subset.refl _
    · simp only [update_of_ne hq]
      exact hsub q
  intro p hp
  cases h with
  | @step q s' hq h =>
    by_cases hpq : p = q
    · subst hpq
      rw [update_self]
      exact (h.wf (hw p hp)).mono (hgrow p hp)
    · rw [update_of_ne hpq]
      exact (hw p hp).mono (hgrow p hp)

/-- The replica states before the first input. -/
abbrev starts (net : Network P) : Nat → Replica P := fun p => Replica.start (net.config p)

/-- A run of micro steps from the start. -/
abbrev MicroRun (hown : net.AllowsOwn allowed) : (Nat → Replica P) → Prop :=
  ReflTransGen (Micro hown) (starts net)

theorem MicroRun.wf (h : MicroRun hown w) : AllWF hown w := by
  induction h with
  | refl => exact fun _ _ => start_wf
  | tail _ hstep ih => exact hstep.wf ih

/-- Steps of one replica are micro steps of the system. -/
theorem micro_of_steps (hp : p ∈ net.correct) {s : Replica P}
    (h : Steps (A := admission hown (logsOf w) hp) (w p) s) :
    ReflTransGen (Micro hown) w (update w p s) := by
  induction h with
  | refl => rw [update_eq_self]
  | @tail s₁ s₂ _ hstep ih =>
    refine ih.tail ?_
    have hsame : admission hown (logsOf w) hp = admission hown (logsOf (update w p s₁)) hp := by
      refine admission_congr hown hp fun q hq => ?_
      simp only [logsOf, update_of_ne hq]
    have hlast : Step (admission hown (logsOf (update w p s₁)) hp) (update w p s₁ p) s₂ := by
      rwa [update_self, ← hsame]
    have hmicro := Micro.step hp hlast
    rwa [update_idem] at hmicro

/-- **A run of the system is a run of micro steps.** -/
theorem Reachable.micro (hown : net.AllowsOwn allowed) {w : World P} (h : net.Reachable allowed w) :
    MicroRun hown (fun p => (w p).1) ∧
      ∀ p ∈ net.correct, (w p).2 = true → (w p).1.chain.Settled := by
  induction h with
  | init => exact ⟨.refl, fun _ _ _ => start_settled⟩
  | @step w p fuel input _ hp hrun hm ih =>
    obtain ⟨hmicro, hsettled⟩ := ih
    have hadm : ∀ m, input = .message m →
        (admission hown (logsOf fun p => (w p).1) hp).admits (w p).1.signed m := by
      intro m hi
      obtain ⟨htyped, hauth, hallow⟩ := hm m hi
      refine ⟨htyped, ?_, hallow⟩
      rwa [show (w p).1.signed = logsOf (fun p => (w p).1) p from rfl, update_eq_self]
    have hboth := handle_steps (hmicro.wf p hp) (hsettled p hp hrun) fuel hadm
    have hupd : (fun q => (update w p ((handle (net.config p) fuel input (w p).1).2,
        Completed (handle (net.config p) fuel input (w p).1).1) q).1) =
        update (fun q => (w q).1) p (handle (net.config p) fuel input (w p).1).2 := by
      funext q
      by_cases hq : q = p
      · subst hq
        simp only [update_self]
      · simp only [update_of_ne hq]
    refine ⟨?_, ?_⟩
    · rw [hupd]
      exact hmicro.trans (micro_of_steps hp hboth.1)
    intro q hq hqrun
    by_cases hqp : q = p
    · subst hqp
      rw [update_self] at hqrun ⊢
      exact hboth.2 hqrun
    · rw [update_of_ne hqp] at hqrun ⊢
      exact hsettled q hq hqrun

/-- What holds at the start and is kept by every micro step holds in every
state. -/
theorem micro_invariant {I : (Nat → Replica P) → Prop} (h₀ : I (starts net))
    (hstep : ∀ w p (hp : p ∈ net.correct) s', MicroRun hown w →
      Step (admission hown (logsOf w) hp) (w p) s' → I w → I (update w p s'))
    (h : MicroRun hown w) : I w := by
  induction h with
  | refl => exact h₀
  | tail hrun hmicro ih =>
    cases hmicro with
    | step hp hs => exact hstep _ _ hp _ hrun hs ih

/-- What every step of every well-formed replica keeps holds of every
correct replica. -/
theorem node_invariant {J : Config P → Replica P → Prop} (h₀ : ∀ cfg, J cfg (Replica.start cfg))
    (hstep : ∀ {p} (hp : p ∈ net.correct) (others : Logs P) s s',
      s.WF (admission hown others hp) → Step (admission hown others hp) s s' →
      J (net.config p) s → J (net.config p) s') (h : MicroRun hown w) :
    ∀ p ∈ net.correct, J (net.config p) (w p) := by
  refine micro_invariant (I := fun w => ∀ p ∈ net.correct, J (net.config p) (w p))
    (fun p _ => h₀ (net.config p)) ?_ h
  intro w p hp s' hrun hs hI q hq
  by_cases hqp : q = p
  · subst hqp
    rw [update_self]
    exact hstep hq (logsOf w) _ _ (hrun.wf q hq) hs (hI q hq)
  · rw [update_of_ne hqp]
    exact hI q hq

/-! ## Concrete runs -/

/-- One replica handles a list of inputs whose signatures the others made. -/
theorem Reachable.runs {w : World P} (h : net.Reachable allowed w)
    (hp : p ∈ net.correct) (fuel : Nat) (inputs : List (Input P))
    (hm : ∀ m ∈ messages inputs, m.WellTyped ∧
      net.Authentic (update (logs w) p []) m ∧ allowed m) :
    net.Reachable allowed (update w p (inputs.foldl (runOne (net.config p) fuel) (w p))) := by
  induction inputs generalizing w with
  | nil => rwa [foldl_nil, update_eq_self]
  | cons input inputs ih =>
    -- the own log does not matter, so the rest is as authentic after the step
    have hrest : ∀ r : Replica P × Bool,
        update (logs (update w p r)) p [] = update (logs w) p [] := by
      intro r
      funext q
      by_cases hq : q = p
      · subst hq
        simp only [update_self]
      · simp only [update_of_ne hq, logs]
    have hstep : net.Reachable allowed (update w p (runOne (net.config p) fuel (w p) input)) := by
      unfold runOne
      split
      case isFalse => rwa [update_eq_self]
      case isTrue hrun =>
        refine .step fuel input h hp hrun fun m hi => ?_
        obtain ⟨htyped, hauth, hallow⟩ :=
          hm m (mem_filterMap.mpr ⟨input, mem_cons_self, by rw [hi]⟩)
        refine ⟨htyped, Authentic.mono net (fun q => ?_) hauth, hallow⟩
        by_cases hq : q = p
        · subst hq
          rw [update_self]
          exact nil_subset _
        · rw [update_of_ne hq]
          exact Subset.refl _
    have hmore := ih hstep fun m hmem => by
      rw [hrest]
      obtain ⟨x, hx, hsome⟩ := mem_filterMap.mp hmem
      exact hm m (mem_filterMap.mpr ⟨x, mem_cons_of_mem _ hx, hsome⟩)
    rwa [update_idem, update_self] at hmore

/-- The six sample replicas, of which `bad` is faulty. -/
def sampleNetwork (bad : Nat) (env : Env sampleParams) : Network sampleParams where
  peers := samplePeers
  correct := (Finset.range 6).erase bad
  config := fun p => sampleConfig (Fin.ofNat 6 p) env
  config_peers := fun _ _ => rfl
  config_id := fun p hp =>
    Nat.mod_eq_of_lt (Finset.mem_range.mp (Finset.mem_of_mem_erase hp))
  correct_peers := fun p hp => List.mem_range.mpr
    (Finset.mem_range.mp (Finset.mem_of_mem_erase hp))
  size := rfl
  faulty := by
    have hle := Finset.pred_card_le_card_erase (s := Finset.range 6) (a := bad)
    rw [Finset.card_range] at hle
    exact Nat.succ_le_succ hle
  resilience := by decide
  certificate := rfl

end Network

end Minimmit
