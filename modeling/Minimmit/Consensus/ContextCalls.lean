/-
Minimmit.Consensus.ContextCalls — the calls a view context receives, and what
they do to its votes.

A context is created when its view is opened and then called by the chain and
the manager until the view is finalized. `Call` lists those calls, `Made` the
checks the caller makes first, and `CallRun` the sequences of calls with any
arguments. What the calls do to the votes is said once: `Tally` is the part of
a context that counts, and `Effect` lists what a call can do to it
(`run_effect`). The theorems about counting look at nothing else.
-/
import Minimmit.Consensus.ChainRules

namespace Minimmit

open Minimmit.Library Act ViewChain

variable {P : Params}

namespace ViewContext

variable (P) in
/-- A call on a view context. -/
inductive Call where
  | addNewViewBlock (block : Block P) (stateDiff : StateDiff P)
  | addVote (vote : Vote P)
  | addOwnVote (blockHash : Hash P) (signature : BlsSignature P)
  | addNullify (nullify : Nullify P)
  | addMNotarization (m : MNotarization P)
  | addNullification (n : Nullification P)
  | createNullifyForTimeout (secretKey : BlsSecretKey P)
  /-- `create_nullify_for_byzantine` and `create_nullify_for_cascade` -/
  | createNullifyForByzantine (secretKey : BlsSecretKey P)
  | markNullified
  | markProposed
  /-- The block waits for the M-notarization of its parent. -/
  | awaitParent (block : Block P) (stateDiff : StateDiff P)
  | takePending
  | addRecoveredBlock (block : Block P)

/-- The context after the call, whatever it returns. -/
def Call.run (peers : PeerSet P) (c : ViewContext P) : Call P → ViewContext P
  | .addNewViewBlock block stateDiff => (ViewContext.addNewViewBlock block stateDiff peers c).2
  | .addVote vote => (ViewContext.addVote vote peers c).2
  | .addOwnVote blockHash signature => (ViewContext.addOwnVote blockHash signature c).2
  | .addNullify nullify => (ViewContext.addNullify nullify peers c).2
  | .addMNotarization m => (ViewContext.addMNotarization m peers c).2
  | .addNullification n => (ViewContext.addNullification n peers c).2
  | .createNullifyForTimeout secretKey => (ViewContext.createNullifyForTimeout secretKey c).2
  | .createNullifyForByzantine secretKey => (ViewContext.createNullifyForByzantine secretKey c).2
  | .markNullified => { c with hasNullified := true }
  | .markProposed => { c with hasProposed := true }
  | .awaitParent block stateDiff =>
    { c with pendingBlock := some block, stateDiff := some stateDiff }
  | .takePending => (ViewChain.takePending c).2
  | .addRecoveredBlock block => { c with block := some block }

/-- What the chain checks before it makes the call. -/
def Call.Made (c : ViewContext P) : Call P → Prop
  | .addNewViewBlock _ _ | .awaitParent _ _ => c.block = none ∧ c.pendingBlock = none
  | .addVote _ => c.isNullified = false
  | .addRecoveredBlock block => c.block = none ∧ c.blockHash = some block.getHash
  | _ => True

instance Call.decidableMade (c : ViewContext P) (call : Call P) : Decidable (call.Made c) := by
  unfold Call.Made
  split <;> infer_instance

/-- The sequences of calls on a context, each meeting the condition `ok` on
the calls before it and the context it finds. -/
inductive CallRun (peers : PeerSet P) (ok : List (Call P) → ViewContext P → Call P → Prop)
    (c₀ : ViewContext P) : List (Call P) → ViewContext P → Prop
  | fresh : CallRun peers ok c₀ [] c₀
  | call {calls c} (h : CallRun peers ok c₀ calls c) (call : Call P) (hmade : call.Made c)
      (hok : ok calls c call) : CallRun peers ok c₀ (calls ++ [call]) (call.run peers c)

/-! ## The part of a context that counts -/

variable (P) in
/-- The votes of a view. -/
structure Tally where
  view : Nat
  leader : Nat
  owner : Nat
  blockHash : Option (Hash P)
  votes : KeySet (Vote.key (P := P))
  waiting : KeySet (Vote.key (P := P))
  invalid : Nat
  certificate : Option (Hash P)
  nullifies : Nat
  nullified : Bool

/-- The tally of a context. -/
def tally (c : ViewContext P) : Tally P :=
  { view := c.viewNumber, leader := c.leaderId, owner := c.replicaId, blockHash := c.blockHash
    votes := c.votes, waiting := c.nonVerifiedVotes, invalid := c.numInvalidVotes
    certificate := c.mNotarization.map (·.blockHash), nullifies := c.nullifyMessages.len
    nullified := c.hasNullified }

namespace Tally

/-- The waiting votes for `h`. -/
def waitingFor (t : Tally P) (h : Hash P) : List (Vote P) :=
  t.waiting.elems.filter fun v => decide (v.blockHash = h)

/-- Make `h` the hash of the view: the waiting votes for it are counted, the
others are invalid. -/
def choose (t : Tally P) (h : Hash P) : Tally P :=
  { t with
    blockHash := some h
    votes := (t.waitingFor h).foldl (fun s v => s.insert v) t.votes
    invalid := t.invalid + (t.waiting.len - (t.waitingFor h).length)
    waiting := ∅ }

/-- Count a vote and make its hash the hash of the view. -/
def cast (t : Tally P) (v : Vote P) : Tally P :=
  { t with votes := t.votes.insert v }.choose v.blockHash

/-- The vote that stands in the leader's signature on its block. -/
def leaderVote (t : Tally P) (b : Block P) : Vote P :=
  { view := t.view, blockHash := b.getHash, signature := b.leaderSignature, peerId := t.leader
    leaderId := t.leader }

/-- The vote of the replica itself. -/
def ownVote (t : Tally P) (h : Hash P) (signature : BlsSignature P) : Vote P :=
  { view := t.view, blockHash := h, signature, peerId := t.owner, leaderId := t.leader }

end Tally

/-- The vote is signed by a peer of the peer set. -/
def SignedBy (peers : PeerSet P) (v : Vote P) : Prop :=
  ∃ pk, peers.getPublicKey v.peerId = some pk ∧ v.verify pk = true

/-- The checks of `add_vote`. -/
structure Tally.Admits (peers : PeerSet P) (t : Tally P) (v : Vote P) : Prop where
  view : v.view = t.view
  signature : SignedBy peers v
  fresh : ∀ u ∈ t.votes, u.peerId ≠ v.peerId
  freshWaiting : ∀ u ∈ t.waiting, u.peerId ≠ v.peerId

/-- Is there evidence for a nullify message? -/
def Tally.Conflicts (t : Tally P) : Prop :=
  t.nullified = false ∧ (P.F < t.invalid ∨ 2 * P.F < t.nullifies + t.invalid)

/-- What a call does to a tally. A certificate is built from `M_SIZE` counted
votes; one that comes from outside is dropped when its hash turns waiting
votes into evidence (`hashOnly`). -/
inductive Effect (peers : PeerSet P) (t : Tally P) : Call P → Tally P → Prop
  | flags {call} (nullifies : Nat) (nullified : Bool) :
      Effect peers t call { t with nullifies, nullified }
  | wait {v} (h : t.Admits peers v) (hh : t.blockHash = none) :
      Effect peers t (.addVote v) { t with waiting := t.waiting.insert v }
  | reject {v h₀} (h : t.Admits peers v) (hh : t.blockHash = some h₀) (hne : v.blockHash ≠ h₀) :
      Effect peers t (.addVote v) { t with invalid := t.invalid + 1 }
  | count {v} (h : t.Admits peers v) (hh : t.blockHash = some v.blockHash)
      (hcert : 2 * P.F < (t.votes.insert v).len →
        t.certificate.isSome = true ∨ (t.votes.insert v).len < P.mSize) :
      Effect peers t (.addVote v) { t with votes := t.votes.insert v }
  | certified {v} (h : t.Admits peers v) (hh : t.blockHash = some v.blockHash) :
      Effect peers t (.addVote v)
        { t with votes := t.votes.insert v, certificate := some v.blockHash }
  | block {b d} (hsig : SignedBy peers (t.leaderVote b))
      (hcert : ∀ h, t.certificate = some h → h = b.getHash) :
      Effect peers t (.addNewViewBlock b d) (t.cast (t.leaderVote b))
  | own {h signature} (hh : t.blockHash = none ∨ t.blockHash = some h) :
      Effect peers t (.addOwnVote h signature) (t.cast (t.ownVote h signature))
  | adopt {m : MNotarization P} (hh : t.blockHash = none) :
      Effect peers t (.addMNotarization m)
        { t.choose m.blockHash with certificate := some (t.certificate.getD m.blockHash) }
  | hashOnly {m : MNotarization P} (hh : t.blockHash = none)
      (hconflict : (t.choose m.blockHash).Conflicts) :
      Effect peers t (.addMNotarization m) (t.choose m.blockHash)
  | certify {m : MNotarization P} (hh : t.blockHash = some m.blockHash) :
      Effect peers t (.addMNotarization m) { t with certificate := some m.blockHash }

theorem Effect.same {peers : PeerSet P} {t : Tally P} {call : Call P} : Effect peers t call t :=
  .flags t.nullifies t.nullified

/-! ## Every call has one of the effects -/

variable {peers : PeerSet P}

@[simp] theorem tally_markBlockFinalized (c : ViewContext P) : c.markBlockFinalized.tally = c.tally :=
  rfl

@[simp] theorem tally_storeBlock (c : ViewContext P) (b : Block P) (d : StateDiff P) :
    (c.storeBlock b d).tally = c.tally.cast (c.tally.leaderVote b) := rfl

@[simp] theorem tally_castVote (c : ViewContext P) (h : Hash P) (signature : BlsSignature P) :
    (c.castVote h signature).tally = c.tally.cast (c.tally.ownVote h signature) := rfl

@[simp] theorem tally_takePending (c : ViewContext P) : (takePending c).2.tally = c.tally := by
  unfold takePending
  split <;> rfl

theorem conflicts_iff (c : ViewContext P) :
    c.shouldNullifyAfterReceivingNewVote = true ↔ c.tally.Conflicts := by
  simp [shouldNullifyAfterReceivingNewVote, Tally.Conflicts, tally]

theorem addNewViewBlock_effect (b : Block P) (d : StateDiff P) (c : ViewContext P) :
    Effect peers c.tally (.addNewViewBlock b d) (addNewViewBlock b d peers c).2.tally := by
  refine (ends_iff_state (X := fun c' => Effect peers c.tally _ (tally c'))).mp ?_
  refine addNewViewBlock_rule .same fun hchecked r c' hadded => ?_
  have hstore : (∀ m, c.mNotarization = some m → m.blockHash = b.getHash) →
      Effect peers c.tally (.addNewViewBlock b d) (c.storeBlock b d).tally := by
    intro hsame
    refine .block hchecked.signature fun h hh => ?_
    obtain ⟨m, hm, rfl⟩ := Option.map_eq_some_iff.mp hh
    exact hsame m hm
  cases hadded with
  | conflict => exact .same
  | nullify hsame | store hsame | flag hsame => exact hstore hsame

theorem addVote_effect (v : Vote P) (c : ViewContext P) :
    Effect peers c.tally (.addVote v) (addVote v peers c).2.tally := by
  have hadmits : VoteChecked peers v c → c.tally.Admits peers v :=
    fun h => ⟨h.view, h.signature, h.fresh, h.freshWaiting⟩
  refine (ends_iff_state (X := fun c' => Effect peers c.tally _ (tally c'))).mp ?_
  refine addVote_rule .same (fun hchecked hh hshort => ?_) fun hchecked r c' hadded => ?_
  · exact .count (hadmits hchecked) hh fun _ => .inr hshort
  cases hadded with
  | wait hh => exact .wait (hadmits hchecked) hh
  | reject hh hne => exact .reject (hadmits hchecked) hh hne
  | count hh _ hheld =>
    refine .count (hadmits hchecked) hh fun hquorum => .inl ?_
    simpa [tally] using hheld hquorum
  | notarize hh => exact .certified (hadmits hchecked) hh

theorem addOwnVote_effect (h : Hash P) (signature : BlsSignature P) (c : ViewContext P) :
    Effect peers c.tally (.addOwnVote h signature) (addOwnVote h signature c).2.tally := by
  unfold addOwnVote
  split
  · exact .same
  split
  case h_1 h₀ hh =>
    split
    · exact .same
    case isFalse heq => exact .own (.inr (hh.trans (congrArg some (not_not.mp heq))))
  case h_2 hh => exact .own (.inl hh)

theorem addMNotarization_effect (m : MNotarization P) (c : ViewContext P) :
    Effect peers c.tally (.addMNotarization m) (addMNotarization m peers c).2.tally := by
  refine (ends_iff_state (X := fun c' => Effect peers c.tally _ (tally c'))).mp ?_
  refine addMNotarization_rule .same (fun _ => .same) fun _ r c' hadded => ?_
  cases hadded with
  | conflict => exact .same
  | adoptHash hh hconflict => exact .hashOnly hh ((conflicts_iff _).mp hconflict)
  | adopt hh =>
    have hadopt : Effect peers c.tally (.addMNotarization m)
        { c.tally.choose m.blockHash with
          certificate := some (c.tally.certificate.getD m.blockHash) } := .adopt hh
    cases hm : c.mNotarization with
    | none => simpa [tally, hm, Tally.choose, Tally.waitingFor, adoptHash, absorbNonVerified] using hadopt
    | some m' => simpa [tally, hm, Tally.choose, Tally.waitingFor, adoptHash, absorbNonVerified] using hadopt
  | known => exact .same
  | store hh => exact .certify hh

theorem addNullify_effect (n : Nullify P) (c : ViewContext P) :
    Effect peers c.tally (.addNullify n) (addNullify n peers c).2.tally := by
  refine (ends_iff_state (X := fun c' => Effect peers c.tally _ (tally c'))).mp ?_
  refine addNullify_rule .same (fun _ _ => .flags _ _) fun _ c' hadded => ?_
  cases hadded with
  | count | certify => exact .flags _ _

theorem addNullification_effect (n : Nullification P) (c : ViewContext P) :
    Effect peers c.tally (.addNullification n) (addNullification n peers c).2.tally := by
  refine (ends_iff_state (X := fun c' => Effect peers c.tally _ (tally c'))).mp ?_
  refine addNullification_rule .same (fun _ => .same) fun _ r c' hadded => ?_
  cases hadded with
  | known => exact .same
  | store => exact .flags _ _

theorem createNullify_effect {call : Call P} (secretKey : BlsSecretKey P) (c : ViewContext P) :
    Effect peers c.tally call (createNullifyForByzantine secretKey c).2.tally ∧
      Effect peers c.tally call (createNullifyForTimeout secretKey c).2.tally := by
  constructor
  · unfold createNullifyForByzantine
    split
    · exact .same
    · exact .flags _ _
  · unfold createNullifyForTimeout
    split
    · exact .same
    · split
      · exact .same
      · exact .flags _ _

/-- **Every call** does one of these things to the votes. -/
theorem run_effect (call : Call P) (c : ViewContext P) :
    Effect peers c.tally call (call.run peers c).tally := by
  cases call with
  | addNewViewBlock b d => exact addNewViewBlock_effect b d c
  | addVote v => exact addVote_effect v c
  | addOwnVote h signature => exact addOwnVote_effect h signature c
  | addNullify n => exact addNullify_effect n c
  | addMNotarization m => exact addMNotarization_effect m c
  | addNullification n => exact addNullification_effect n c
  | createNullifyForTimeout secretKey => exact (createNullify_effect secretKey c).2
  | createNullifyForByzantine secretKey => exact (createNullify_effect secretKey c).1
  | markNullified => exact .flags _ _
  | markProposed => exact .same
  | awaitParent b d => exact .same
  | takePending =>
    rw [Call.run, tally_takePending]
    exact .same
  | addRecoveredBlock b => exact .same

end ViewContext

end Minimmit
