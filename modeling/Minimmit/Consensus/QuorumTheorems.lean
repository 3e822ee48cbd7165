/-
Minimmit.Consensus.QuorumTheorems — do enough votes make a certificate?

`add_vote` is the only function that builds an M-notarization from counted
votes. The other functions that count votes, `add_new_view_block`,
`add_own_vote` and `add_m_notarization`, may bring a view past `2F` votes
without one. `Quorate` says that this did not happen, and `CountsBelow` what a
call has to find for it not to happen: fewer than `2F` other votes for the
hash, unless there is a certificate.

The manager is followed through any sequence of its calls (`ManagerRun`). If
each finds what it needs, every view with more than `2F` votes has its
certificate, and an event that asks to pass one on finds it
(`quorum_certified`). Otherwise it may find none (`quorum_without_certificate`).
-/
import Minimmit.Consensus.CallRule
import Minimmit.Consensus.Sample

namespace Minimmit

open Minimmit.Library Act ViewContext ViewChain Option

variable {P : Params}

namespace ViewContext

variable {peers : PeerSet P} {c : ViewContext P}

/-! ## One view -/

/-- The votes that will be counted with `v`: the counted ones and those that
wait for its hash. A copy of `v` is not another vote. -/
def Tally.others (t : Tally P) (v : Vote P) : Nat :=
  ((t.votes.elems ++ t.waitingFor v.blockHash).filter fun u => decide (u.key ≠ v.key)).length

/-- What a call has to find so that it does not pass `2F` votes without a
certificate. -/
def CountsBelow (c : ViewContext P) : Call P → Prop
  | .addNewViewBlock b _ => c.block = none → c.mNotarization = none →
      c.tally.others (c.tally.leaderVote b) < 2 * P.F
  | .addOwnVote h signature => c.mNotarization = none →
      c.tally.others (c.tally.ownVote h signature) < 2 * P.F
  | .addMNotarization m => c.blockHash = none → (c.tally.choose m.blockHash).Conflicts →
      (c.tally.waitingFor m.blockHash).length ≤ 2 * P.F
  | _ => True

/-- A tally with a certificate if it has a quorum. -/
structure Tally.Quorate (t : Tally P) : Prop where
  certificate : ∀ h, t.certificate = some h → t.blockHash = some h
  empty : t.blockHash = none → t.votes.elems = []
  quorum : 2 * P.F < t.votes.len → t.certificate.isSome = true

theorem quorate_new (view leaderId replicaId : Nat) (parent : Hash P) :
    (ViewContext.new view leaderId replicaId parent).tally.Quorate := by
  constructor <;> simp [ViewContext.new, tally]

/-- A vote that is cast below the quorum. -/
theorem quorate_cast {v : Vote P} (hcert : ∀ h, c.tally.certificate = some h → h = v.blockHash)
    (hbelow : c.mNotarization = none → c.tally.others v < 2 * P.F) : (c.tally.cast v).Quorate := by
  refine ⟨fun h hh => congrArg some (hcert h hh).symm, (fun hnone => nomatch hnone), fun hquorum => ?_⟩
  cases hm : c.mNotarization with
  | some m => simp [tally, hm, Tally.cast, Tally.choose]
  | none =>
    have hlen := KeySet.len_foldl_insert_le_others v (c.tally.waitingFor v.blockHash) c.tally.votes
    have hothers := hbelow hm
    have hquorum : 2 * P.F <
        ((v :: c.tally.waitingFor v.blockHash).foldl (fun s u => s.insert u) c.tally.votes).len :=
      hquorum
    unfold Tally.others at hothers
    omega

theorem Tally.Quorate.call (hsize : P.mSize ≤ 2 * P.F + 1) (hq : c.tally.Quorate) {call : Call P}
    {t' : Tally P} (hmade : call.Made c) (hbelow : CountsBelow c call)
    (h : Effect peers c.tally call t') : t'.Quorate := by
  cases h with
  | flags | wait | reject => exact { hq with }
  | count _ hh hcert =>
    refine ⟨hq.certificate, (fun hnone => nomatch hnone.symm.trans hh), fun hquorum => ?_⟩
    rcases hcert hquorum with hsome | hfew
    · exact hsome
    · have hquorum : 2 * P.F < (c.tally.votes.insert _).len := hquorum
      omega
  | certified _ hh =>
    refine ⟨fun h hcert => ?_, (fun hnone => nomatch hnone.symm.trans hh), fun _ => rfl⟩
    rw [← some.inj hcert]
    exact hh
  | block _ hcert => exact quorate_cast hcert (hbelow hmade.1)
  | @own h _ hh =>
    refine quorate_cast (fun h' hcert => ?_) hbelow
    have hhash := hq.certificate h' hcert
    rcases hh with hnone | hsome
    · exact nomatch hnone.symm.trans hhash
    · exact some.inj (hhash.symm.trans hsome)
  | @adopt m hh =>
    have hnone : c.tally.certificate = none := by
      rcases hcert : c.tally.certificate with _ | h
      · rfl
      · exact nomatch hh.symm.trans (hq.certificate h hcert)
    refine ⟨fun h hcert => ?_, (fun hnone => nomatch hnone), fun _ => rfl⟩
    rw [hnone] at hcert
    exact hcert
  | @hashOnly m hh hconflict =>
    refine ⟨(fun h hcert => nomatch hh.symm.trans (hq.certificate h hcert)),
      (fun hnone => nomatch hnone), fun hquorum => ?_⟩
    have hfew := hbelow hh hconflict
    have hlen := KeySet.len_foldl_insert_le (c.tally.waitingFor m.blockHash) c.tally.votes
    have hzero : c.tally.votes.len = 0 := congrArg List.length (hq.empty hh)
    have hquorum : 2 * P.F < ((c.tally.waitingFor m.blockHash).foldl (fun s u => s.insert u)
      c.tally.votes).len := hquorum
    omega
  | certify hh =>
    refine ⟨fun h hcert => ?_, hq.empty, fun _ => rfl⟩
    rw [← some.inj hcert]
    exact hh

/-! ## What a call says and leaves -/

/-- The block may be counted in this view. -/
def Fits (c : ViewContext P) (b : Block P) : Prop :=
  c.block = none → c.mNotarization = none → c.tally.others (c.tally.leaderVote b) < 2 * P.F

/-- The waiting block of the view may be counted. -/
def PendingFits (c : ViewContext P) : Prop := ∀ b, c.pendingBlock = some b → c.Fits b

theorem fits_of_certificate (h : c.mNotarization.isSome = true) (b : Block P) : c.Fits b := by
  intro _ hnone
  rw [hnone] at h
  cases h

theorem fits_of_block (h : c.block.isSome = true) (b : Block P) : c.Fits b := by
  intro hnone
  rw [hnone] at h
  cases h

/-- A proposal is refused, or the view has a block. -/
theorem addNewViewBlock_cases (b : Block P) (d : StateDiff P) (c : ViewContext P) :
    (addNewViewBlock b d peers c).2 = c ∨ (addNewViewBlock b d peers c).2.block.isSome = true := by
  refine (ends_iff_state (X := fun c' => c' = c ∨ (block c').isSome = true)).mp ?_
  refine addNewViewBlock_rule (.inl rfl) fun _ r c' hadded => ?_
  cases hadded with
  | conflict => exact .inl rfl
  | nullify | store | flag => exact .inr rfl

theorem addNewViewBlock_fits {b : Block P} {d : StateDiff P} {b' : Block P} (h : c.Fits b') :
    (addNewViewBlock b d peers c).2.Fits b' := by
  have hcases : (addNewViewBlock b d peers c).2 = c ∨
      (addNewViewBlock b d peers c).2.block.isSome = true := addNewViewBlock_cases b d c
  rcases hcases with heq | hblock
  · rwa [heq]
  · exact fits_of_block hblock b'

theorem addNewViewBlock_pendingFits {b : Block P} {d : StateDiff P} (h : c.PendingFits) :
    (addNewViewBlock b d peers c).2.PendingFits := by
  have hcases : (addNewViewBlock b d peers c).2 = c ∨
      (addNewViewBlock b d peers c).2.block.isSome = true := addNewViewBlock_cases b d c
  rcases hcases with heq | hblock
  · rwa [heq]
  · exact fun b' _ => fits_of_block hblock b'

theorem certificate_isSome (c : ViewContext P) :
    c.tally.certificate.isSome = c.mNotarization.isSome := by
  simp [tally]

/-- A proposal leaves the certificate alone. -/
theorem addNewViewBlock_certificate (b : Block P) (d : StateDiff P) (c : ViewContext P) :
    (addNewViewBlock b d peers c).2.mNotarization.isSome = c.mNotarization.isSome := by
  refine (ends_iff_state (X := fun c' => (mNotarization c').isSome = _)).mp ?_
  refine addNewViewBlock_rule rfl fun _ r c' hadded => ?_
  cases hadded with
  | conflict => rfl
  | nullify => rfl
  | store => rfl
  | flag => rfl

end ViewContext

namespace ViewChain

variable {peers : PeerSet P} {v : Nat} {s : ViewChain P}

/-! ## The chain -/

/-- The view is held and has a certificate. -/
def Certified (v : Nat) (s : ViewChain P) : Prop :=
  ∃ c, s.findViewContext v = some c ∧ c.mNotarization.isSome = true

/-- Every held view has a certificate if it has a quorum. -/
def Quorate (s : ViewChain P) : Prop := s.All fun _ c => c.tally.Quorate

/-- Every waiting block may be counted. -/
def PendingFits (s : ViewChain P) : Prop := s.All fun _ c => c.PendingFits

/-- The block may be counted in view `v`. -/
def Fits (v : Nat) (b : Block P) (s : ViewChain P) : Prop := s.All fun w c => w = v → c.Fits b

variable {allowed : Call P → Prop}

theorem Quorate.calls (hsize : P.mSize ≤ 2 * P.F + 1) {s' : ViewChain P}
    (hq : s.Quorate) (h : Calls peers v allowed s s')
    (hbelow : ∀ c call, s.findViewContext v = some c → call.Made c → allowed call →
      CountsBelow c call) : s'.Quorate :=
  h.all hq fun c call hc hmade hallowed hc' =>
    hc'.call hsize hmade (hbelow c call hc hmade hallowed) (run_effect call c)

/-- A quorum in a view that is held is a certificate. -/
theorem Quorate.certified (hq : s.Quorate)
    (h : ∃ c, s.findViewContext v = some c ∧
      (2 * P.F < c.votes.len ∨ c.mNotarization.isSome = true)) : s.Certified v := by
  obtain ⟨c, hc, hquorum | hsome⟩ := h
  · refine ⟨c, hc, ?_⟩
    rw [← certificate_isSome]
    exact (hq v c hc).quorum hquorum
  · exact ⟨c, hc, hsome⟩

/-- The call makes the certificate of a view the one its waiting block needs. -/
theorem PendingFits.calls {s' : ViewChain P} (hp : s.PendingFits)
    (h : Calls peers v allowed s s') (hcert : s'.Certified v) : s'.PendingFits := by
  intro w d hd
  by_cases hw : w = v
  · subst hw
    obtain ⟨c, hc, hsome⟩ := hcert
    obtain rfl := some.inj (hc.symm.trans hd)
    exact fun b _ => fits_of_certificate hsome b
  · cases h with
    | none h => exact hp w d ((h w).symm.trans hd)
    | call call hc _ _ h =>
      rw [h w, findViewContext_setContext_ne s _ hw] at hd
      exact hp w d hd

/-- What the loop over the waiting blocks keeps. -/
structure Looping (certified : Nat → Prop) (s : ViewChain P) : Prop where
  quorate : s.Quorate
  pending : s.PendingFits
  certified : ∀ v, certified v → s.Certified v

theorem takePending_fits {c : ViewContext P} {b : Block P} (h : c.Fits b) :
    (takePending c).2.Fits b := by
  obtain ⟨hblock, hcert, -⟩ := takePending_alike c
  unfold ViewContext.Fits
  rwa [hblock, hcert, tally_takePending]

theorem looping_rule (hsize : P.mSize ≤ 2 * P.F + 1) (peers : PeerSet P)
    (certified : Nat → Prop) : LoopRule peers (Looping certified) Fits where
  take {s v c} hc h := by
    obtain ⟨-, hcert, hnone⟩ := takePending_alike c
    refine ⟨h.quorate.setContext ?_, h.pending.setContext ?_, fun w hw => ?_⟩
    · rw [tally_takePending]
      exact h.quorate v c hc
    · intro b hb
      rw [hnone] at hb
      cases hb
    · obtain ⟨d, hd, hsome⟩ := h.certified w hw
      by_cases heq : w = v
      · subst heq
        obtain rfl := some.inj (hc.symm.trans hd)
        exact ⟨_, findViewContext_setContext_self .., hcert.symm ▸ hsome⟩
      · exact ⟨d, (findViewContext_setContext_ne s _ heq).trans hd, hsome⟩
  taken {s v c b} hc hb h := by
    rintro w d hd rfl
    obtain rfl := some.inj (hc.symm.trans hd)
    exact h.pending w c hc b hb
  takeFits {s v c w b} hc h := by
    refine All.setContext h fun heq => takePending_fits (h v c hc heq)
  propose {s v b d} h hfits := by
    have hcalls : Calls peers v _ s _ := addBlockProposal_calls v b d s
    refine ⟨h.quorate.calls hsize hcalls ?_, hcalls.all h.pending ?_, fun w hw => ?_⟩
    · rintro c _ hc _ (rfl | rfl)
      · exact hfits v c hc rfl
      · trivial
    · rintro c _ hc _ (rfl | rfl) hp
      · exact addNewViewBlock_pendingFits hp
      · intro b' hb'
        obtain rfl := some.inj hb'
        exact hfits v c hc rfl
    · obtain ⟨c, hc, hsome⟩ := h.certified w hw
      refine hcalls.at (K := fun c => c.mNotarization.isSome = true) ?_ hc hsome
      rintro c _ _ (rfl | rfl) hsome
      · exact (addNewViewBlock_certificate b d c).trans hsome
      · exact hsome
  proposeFits {s v b d w b'} h := by
    have hcalls : Calls peers v _ s _ := addBlockProposal_calls v b d s
    refine hcalls.all h ?_
    rintro c _ _ _ (rfl | rfl) hfits heq
    · exact addNewViewBlock_fits (hfits heq)
    · exact hfits heq

/-! ## What the routing functions say and leave -/

theorem routeVote_enough (vote : Vote P) (s : ViewChain P) : Ends (routeVote vote peers s)
      (fun r s' => r.isEnoughToMNotarize = true → s'.Certified vote.view) (fun _ => True)
      (fun _ => True) := by
  refine routeVote_rule trivial (fun h => nomatch h) fun c _ _ => ?_
  refine addVote_rule trivial (fun _ _ _ => trivial) fun _ r c' hadded henough => ?_
  cases hadded with
  | wait _ _ few | reject _ _ few => exact nomatch few.symm.trans henough
  | count _ few => exact nomatch few.symm.trans henough
  | notarize => exact ⟨_, findViewContext_setContext_self .., rfl⟩

theorem routeMNotarization_stored (m : MNotarization P) (s : ViewChain P) :
    Ends (routeMNotarization m peers s)
      (fun r s' => r.shouldNotarize = true → s'.Certified m.view) (fun _ => True)
      (fun _ => True) := by
  refine routeMNotarization_rule trivial (fun _ h => nomatch h) fun c _ => ?_
  refine addMNotarization_rule trivial (fun _ => trivial) fun _ r c' hadded hstore => ?_
  cases hadded with
  | store => exact ⟨_, findViewContext_setContext_self .., rfl⟩
  | _ => cases hstore

theorem addBlockProposal_enough (v : Nat) (b : Block P) (d : StateDiff P) (s : ViewChain P) :
    Ends (addBlockProposal v b d peers s)
      (fun r s' => r.isEnoughToMNotarize = true → ∃ c, s'.findViewContext v = some c ∧
        (2 * P.F < c.votes.len ∨ c.mNotarization.isSome = true)) (fun _ => True)
      (fun _ => True) := by
  refine addBlockProposal_rule trivial (fun _ _ _ _ _ h => nomatch h) fun c _ _ _ _ => ?_
  refine addNewViewBlock_rule trivial fun _ r c' hadded henough => ⟨c', ?_, ?_⟩
  · rw [findViewContext_onMNotarization, findViewContext_setContext_self]
  cases hadded with
  | conflict => cases henough
  | nullify => cases henough
  | store => simpa [storedBlock] using henough
  | flag => simpa [storedBlock, markBlockFinalized] using henough

end ViewChain

/-! ## The manager -/

namespace ViewProgressManager

variable (P) in
/-- A call on the view progress manager that may change it. -/
inductive Call where
  | processConsensusMsg (fuel : Nat) (message : ConsensusMessage P)
  | tick (env : Env P) (now : Nat)
  | addOwnVote (view : Nat) (blockHash : Hash P) (signature : BlsSignature P)
  /-- The nullify message of `nullify_view`. -/
  | createNullify (view : Nat) (force : Bool) (secretKey : BlsSecretKey P)
  | markNullified (view : Nat)
  | markProposed (view : Nat)
  | finalizeView (view : Nat)
  | progressAfterCascade (newView : Nat)
  | rollbackPendingDiffsInRange (startView endView : Nat)

/-- The operation of `nullify_view` on a held context. -/
def createNullify (view : Nat) (force : Bool) (secretKey : BlsSecretKey P) : Op P Unit := fun vm =>
  match vm.viewChain.findViewContext view with
  | none => (.ok (), vm)
  | some c => match Replica.nullifyOperation force secretKey c with
    | none => (.ok (), vm)
    | some operation => (.ok (), (onChain (ViewChain.runOn view c operation) vm).2)

/-- The manager after the call, whatever it returns. -/
def Call.run (vm : ViewProgressManager P) : Call P → ViewProgressManager P
  | .processConsensusMsg fuel message => (ViewProgressManager.processConsensusMsg fuel message vm).2
  | .tick env now => (ViewProgressManager.tick env now vm).2
  | .addOwnVote view blockHash signature =>
    (ViewProgressManager.addOwnVote view blockHash signature vm).2
  | .createNullify view force secretKey =>
    (ViewProgressManager.createNullify view force secretKey vm).2
  | .markNullified view => (ViewProgressManager.markNullified view vm).2
  | .markProposed view => (ViewProgressManager.markProposed view vm).2
  | .finalizeView view => (ViewProgressManager.finalizeView view vm).2
  | .progressAfterCascade newView => (ViewProgressManager.progressAfterCascade newView vm).2
  | .rollbackPendingDiffsInRange startView endView =>
    { vm with viewChain := vm.viewChain.rollbackPendingDiffsInRange startView endView }

/-- The managers that any sequence of calls reaches, each meeting `ok`. -/
inductive CallRun (ok : ViewProgressManager P → Call P → Prop) (vm₀ : ViewProgressManager P) :
    ViewProgressManager P → Prop
  | fresh : CallRun ok vm₀ vm₀
  | call {vm} (h : CallRun ok vm₀ vm) (call : Call P) (hok : ok vm call) :
      CallRun ok vm₀ (call.run vm)

/-- What a call has to find so that no view passes `2F` votes without a
certificate. -/
def Finds (vm : ViewProgressManager P) : Call P → Prop
  | .processConsensusMsg _ (.blockProposal b) =>
    vm.viewChain.Fits b.header.view b ∧ vm.viewChain.PendingFits
  | .processConsensusMsg _ (.vote _) => vm.viewChain.PendingFits
  | .processConsensusMsg _ (.mNotarization m) => vm.viewChain.PendingFits ∧
      ∀ c, vm.viewChain.findViewContext m.view = some c → CountsBelow c (.addMNotarization m)
  | .addOwnVote view blockHash signature =>
    ∀ c, vm.viewChain.findViewContext view = some c → CountsBelow c (.addOwnVote blockHash signature)
  | _ => True

/-- An event that asks to pass a certificate on finds it. -/
def Answered (chain : ViewChain P) : ViewProgressEvent P → Prop
  | .shouldMNotarize v _ true => chain.Certified v
  | .shouldVoteAndMNotarize v _ true => chain.Certified v
  | _ => True

theorem answered_of_plain {chain : ViewChain P} {event : ViewProgressEvent P} (h : Plain event) :
    Answered chain event := by
  cases event with
  | shouldMNotarize => exact h.elim
  | shouldVoteAndMNotarize => exact h.elim
  | _ => trivial

theorem answered_of_certified {chain : ViewChain P} {v : Nat} {h : Hash P} {forward : Bool}
    (hc : chain.Certified v) : Answered chain (.shouldMNotarize v h forward) ∧
      Answered chain (.shouldVoteAndMNotarize v h forward) := by
  cases forward with
  | true => exact ⟨hc, hc⟩
  | false => exact ⟨trivial, trivial⟩

/-- Every context that is held or logged has a certificate if it has a quorum. -/
abbrev Certifies (peers : PeerSet P) (vm : ViewProgressManager P) : Prop :=
  vm.Upholds peers fun _ c => c.tally.Quorate

/-- The quorums are certified, and the event finds what it asks for. -/
abbrev Answers (peers : PeerSet P) (event : ViewProgressEvent P) (vm : ViewProgressManager P) :
    Prop := vm.Certifies peers ∧ Answered vm.viewChain event

section Calls

variable (hsize : P.mSize ≤ 2 * P.F + 1) {v : Nat} {vm : ViewProgressManager P} {peers : PeerSet P}

include hsize

theorem quorate_keeps (peers : PeerSet P) :
    CallKeeps peers CountsBelow fun _ (c : ViewContext P) => c.tally.Quorate where
  new _ _ _ := quorate_new ..
  internal {c call} h := by
    cases call <;> trivial
  keeps call hmade hbelow hc := hc.call hsize hmade hbelow (run_effect call _)

/-- The waiting blocks are processed before the event is returned. -/
theorem pending_answers {fuel : Nat} {event : ViewProgressEvent P} (hvm : vm.Certifies peers)
    (hloop : vm.viewChain.Looping (· = v))
    (h : ∀ chain : ViewChain P, chain.Certified v → Answered chain event) :
    Ends ((Reaction.pending event).run fuel vm) (Answers peers) (Certifies peers)
      (Certifies peers) := by
  obtain ⟨chain, heq, hlooped⟩ :=
    (looping_rule hsize peers (· = v)).processAllPendingBlocks fuel hvm.peers vm ⟨_, rfl, hloop⟩
  have hafter : Certifies peers { vm with viewChain := chain } := hvm.onChain hlooped.quorate
  refine asked (M := fun _ vm => vm.Certifies peers ∧ vm.viewChain.Certified v) ?_ fun _ =>
    spec_pure fun vm hs => ⟨hs.1, h _ hs.2⟩
  have hends := (ends_iff_state (X := (· = { vm with viewChain := chain }))).mpr heq
  exact hends.conseq (fun _ _ heq => heq ▸ ⟨hafter, hlooped.certified v rfl⟩)
    (fun _ heq => heq ▸ hafter) fun _ heq => heq ▸ hafter

/-- A routed message keeps the quorums, and the waiting blocks fit if it left
a certificate. -/
theorem routed_quorate {α : Type} {op : ViewChain.Op P α} {call : ViewContext.Call P}
    (enough : α → Bool)
    (hcalls : ViewChain.Calls peers v (· = call) vm.viewChain (op vm.viewChain).2)
    (hends : Ends (op vm.viewChain) (fun a s => enough a = true → s.Certified v)
      (fun _ => True) fun _ => True) (hvm : vm.Certifies peers)
    (hpending : vm.viewChain.PendingFits)
    (hbelow : ∀ c, vm.viewChain.findViewContext v = some c → CountsBelow c call) :
    Ends (onChain op vm) (fun a vm' => vm'.Certifies peers ∧
      (enough a = true → vm'.viewChain.Looping (· = v))) (Certifies peers) (Certifies peers) := by
  have hquorate := ends_iff_state.mp ((quorate_keeps hsize peers).routed hvm hcalls
    fun c hc _ => hbelow c hc)
  unfold onChain Act.zoom at hquorate ⊢
  rcases hr : op vm.viewChain with ⟨o, chain⟩
  rw [hr] at hcalls hquorate hends
  cases o with
  | ok r =>
    refine ⟨hquorate, fun henough => ⟨hquorate.held, hpending.calls hcalls (hends henough), ?_⟩⟩
    rintro _ rfl
    exact hends henough
  | _ => exact hquorate

theorem handleBlockProposal_quorate (fuel : Nat) (b : Block P) (hvm : vm.Certifies peers)
    (hfinds : vm.Finds (.processConsensusMsg fuel (.blockProposal b))) :
    Ends (handleBlockProposal fuel b vm) (Answers peers) (Certifies peers) (Certifies peers) := by
  refine handleBlockProposal_rule (M := fun r vm' => vm'.Certifies peers ∧
      vm'.viewChain.PendingFits ∧ (r.isEnoughToMNotarize = true → vm'.viewChain.Certified b.view))
    ⟨fun _ => ⟨hvm, trivial⟩, hvm⟩ hvm.peers ⟨hvm, trivial⟩ (fun _ => hvm) hvm (fun d _ => ?_)
    fun r => proposalEvent_rule fun x hx => ?_
  · have hloop := (looping_rule hsize peers fun _ => False).propose (d := d)
      ⟨hvm.held, hfinds.2, fun _ hfalse => hfalse.elim⟩ hfinds.1
    have hends : Ends (addBlockProposal b.view b d peers vm.viewChain) _ _ _ :=
      addBlockProposal_enough b.view b d vm.viewChain
    unfold onChain Act.zoom
    dsimp only
    rcases hr : addBlockProposal b.view b d peers vm.viewChain with ⟨o, chain⟩
    rw [show addBlockProposal b.header.view b d peers vm.viewChain = (o, chain) from hr] at hloop
    rw [hr] at hends
    have hafter : Certifies peers { vm with validated := vm.validated ++ [(b, d)], viewChain := chain } :=
      ⟨hvm.peers, hloop.quorate, hvm.logged⟩
    cases o with
    | ok r => exact ⟨hafter, hloop.pending, fun henough => hloop.quorate.certified (hends henough)⟩
    | _ => exact hafter
  · rintro vm' ⟨hvm', hpending, hcert⟩
    cases hx with
    | plain h => exact ⟨hvm', answered_of_plain h⟩
    | voteAndNotarize henough =>
      exact pending_answers hsize hvm' ⟨hvm'.held, hpending, fun w hw => hw ▸ hcert henough⟩
        fun _ h => h
    | notarize henough => exact ⟨hvm', hcert henough⟩
    | _ => exact ⟨hvm', trivial⟩

theorem handleVote_quorate (fuel : Nat) (vote : Vote P) (hvm : vm.Certifies peers)
    (hfinds : vm.Finds (.processConsensusMsg fuel (.vote vote))) :
    Ends (handleVote fuel vote vm) (Answers peers) (Certifies peers) (Certifies peers) := by
  refine handleVote_rule ⟨fun _ => ⟨hvm, trivial⟩, hvm⟩ hvm.peers (routed_quorate hsize
    (·.isEnoughToMNotarize) (ViewChain.routeVote_calls vote vm.viewChain)
    (ViewChain.routeVote_enough vote vm.viewChain) hvm hfinds fun _ _ => trivial) fun r x hx => ?_
  rintro vm' ⟨hvm', hloop⟩
  cases hx with
  | plain h => exact ⟨hvm', answered_of_plain h⟩
  | voteAndNotarize henough | notarize henough =>
    exact pending_answers hsize hvm' (hloop henough) fun _ h => h
  | _ => exact ⟨hvm', trivial⟩

theorem handleMNotarization_quorate (fuel : Nat) (m : MNotarization P) (hvm : vm.Certifies peers)
    (hfinds : vm.Finds (.processConsensusMsg fuel (.mNotarization m))) :
    Ends (handleMNotarization fuel m vm) (Answers peers) (Certifies peers) (Certifies peers) := by
  refine handleMNotarization_rule ⟨fun _ => ⟨hvm, trivial⟩, hvm⟩ hvm.peers (routed_quorate hsize
    (·.shouldNotarize) (ViewChain.routeMNotarization_calls m vm.viewChain)
    (ViewChain.routeMNotarization_stored m vm.viewChain) hvm hfinds.1 hfinds.2) fun r x hx => ?_
  rintro vm' ⟨hvm', hloop⟩
  have hleave := ((quorate_keeps hsize peers).leaveView m.view m.blockHash).spec
  cases hx with
  | plain h => exact ⟨hvm', answered_of_plain h⟩
  | voteAndLeave | leave =>
    exact spec_bind hleave (fun _ => spec_pure fun _ h => ⟨h, trivial⟩) vm' hvm'
  | voteAndNotarize _ hstore =>
    exact pending_answers hsize hvm' (hloop hstore) fun _ h => (answered_of_certified h).2
  | notarize _ hstore =>
    exact pending_answers hsize hvm' (hloop hstore) fun _ h => (answered_of_certified h).1
  | _ => exact ⟨hvm', trivial⟩

/-- **One message** that finds what it needs. -/
theorem processConsensusMsg_quorate (fuel : Nat) (m : ConsensusMessage P)
    (hvm : vm.Certifies peers) (hfinds : vm.Finds (.processConsensusMsg fuel m)) :
    Ends (processConsensusMsg fuel m vm) (Answers peers) (Certifies peers) (Certifies peers) := by
  have hkeeps := quorate_keeps hsize peers
  have hahead : ∀ view, Ahead view vm (Answers peers) (Certifies peers) :=
    fun _ => ⟨fun _ => ⟨hvm, trivial⟩, hvm⟩
  cases m with
  | blockProposal b => exact handleBlockProposal_quorate hsize fuel b hvm hfinds
  | vote v => exact handleVote_quorate hsize fuel v hvm hfinds
  | mNotarization m => exact handleMNotarization_quorate hsize fuel m hvm hfinds
  | nullify n =>
    refine handleNullify_rule (hahead _) hvm.peers (hkeeps.routed hvm
      (routeNullify_calls n _) fun _ _ _ => trivial) fun _ x hx vm' hvm' => ?_
    cases hx with
    | plain h => exact ⟨hvm', answered_of_plain h⟩
    | _ => exact ⟨hvm', trivial⟩
  | nullification n =>
    refine handleNullification_rule (hahead _) hvm.peers (hkeeps.routed hvm
      (routeNullification_calls n _) fun _ _ _ => trivial) fun _ vm' hvm' x hx => ?_
    cases hx with
    | plain h => exact ⟨hvm', answered_of_plain h⟩
    | skip =>
      exact spec_bind (hkeeps.skipView _ _).spec (fun _ => spec_pure fun _ h => ⟨h, trivial⟩) vm' hvm'
    | _ => exact ⟨hvm', trivial⟩
  | blockRecoveryRequest view h =>
    exact handleBlockRecoveryRequest_rule (fun _ => hvm) (fun _ => ⟨hvm, trivial⟩) ⟨hvm, trivial⟩
  | blockRecoveryResponse view b =>
    refine handleBlockRecoveryResponse_rule (hkeeps.routed hvm
      (addRecoveredBlock_calls view b _) fun _ _ _ => trivial) fun vm' _ hvm' => ?_
    exact ⟨⟨hvm'.peers, hvm'.held, hvm'.logged⟩,
      fun _ h => ⟨⟨hvm'.peers, hvm'.held, hvm'.logged⟩, answered_of_plain h⟩⟩

/-- **One call** that finds what it needs keeps the quorums certified. -/
theorem Call.quorate (hvm : vm.Certifies peers) (call : Call P) (hfinds : vm.Finds call) :
    (call.run vm).Certifies peers := by
  have hkeeps := quorate_keeps hsize peers
  cases call with
  | processConsensusMsg fuel m =>
    exact ends_iff_state.mp ((processConsensusMsg_quorate hsize fuel m hvm hfinds).conseq
      (fun _ _ hs => hs.1) (fun _ hs => hs) fun _ hs => hs)
  | tick env now => exact ends_iff_state.mp (hkeeps.tick env now vm hvm)
  | addOwnVote v h signature => exact hkeeps.addOwnVote hvm hfinds
  | createNullify v force secretKey =>
    show (ViewProgressManager.createNullify v force secretKey vm).2.Certifies peers
    unfold ViewProgressManager.createNullify
    split
    · exact hvm
    case h_2 c hc =>
      split
      · exact hvm
      case h_2 operation hop => exact hkeeps.nullifyOperation hvm hc hop
  | markNullified v => exact hkeeps.markNullified v vm hvm
  | markProposed v => exact hkeeps.markProposed v vm hvm
  | finalizeView v => exact hkeeps.finalizeView v vm hvm
  | progressAfterCascade newView => exact hkeeps.progressAfterCascade newView vm hvm
  | rollbackPendingDiffsInRange a b => exact hkeeps.rollback hvm a b

/-- **A quorum of votes is certified**, in every sequence of calls that find
what they need, and an event that asks to pass a certificate on finds it. -/
theorem quorum_certified {replicaId : Nat} {peers : PeerSet P}
    {genesisAccounts : List (Address P × Nat)} {vm : ViewProgressManager P}
    (h : CallRun Finds (ViewProgressManager.new replicaId peers genesisAccounts) vm) :
    (∀ v c, vm.viewChain.findViewContext v = some c → 2 * P.F < c.votes.len →
      ∃ m, c.mNotarization = some m ∧ c.blockHash = some m.blockHash) ∧
    ∀ fuel m event vm', vm.Finds (.processConsensusMsg fuel m) →
      processConsensusMsg fuel m vm = (.ok event, vm') → ∀ v blockHash,
      event = .shouldMNotarize v blockHash true ∨ event = .shouldVoteAndMNotarize v blockHash true →
      ∃ certificate, (getMNotarization v vm').1 = .ok certificate := by
  have hvm : vm.Certifies peers := by
    induction h with
    | fresh => exact (quorate_keeps hsize peers).new_upholds replicaId genesisAccounts
    | call _ call hok ih => exact call.quorate hsize ih hok
  have hq := hvm.held
  refine ⟨fun v c hc hquorum => ?_, fun fuel m event vm' hfinds hrun v blockHash hevent => ?_⟩
  · have hcert := (hq v c hc).quorum hquorum
    obtain ⟨x, hx⟩ := Option.isSome_iff_exists.mp hcert
    obtain ⟨m, hm, rfl⟩ := Option.map_eq_some_iff.mp hx
    exact ⟨m, hm, (hq v c hc).certificate _ hx⟩
  · have hends := processConsensusMsg_quorate hsize fuel m hvm hfinds
    rw [hrun] at hends
    obtain ⟨c, hc, hsome⟩ : vm'.viewChain.Certified v := by
      rcases hevent with rfl | rfl
      · exact hends.2
      · exact hends.2
    obtain ⟨x, hx⟩ := Option.isSome_iff_exists.mp hsome
    refine ⟨x, ?_⟩
    simp [getMNotarization, requireContext, hc, hx]

end Calls

/-! ## Runs -/

theorem pendingFits_of_none {s : ViewChain P} (h : ∀ e ∈ s.iter, e.2.pendingBlock = none) :
    s.PendingFits := by
  intro v c hc b hb
  rw [h (v, c) (mem_iter.mpr hc)] at hb
  cases hb

theorem fits_of_find {s : ViewChain P} {v : Nat} {b : Block P}
    (h : ∀ c ∈ s.findViewContext v, c.Fits b) : s.Fits v b := by
  rintro _ c hc rfl
  exact h c hc

instance (c : ViewContext P) (b : Block P) : Decidable (c.Fits b) :=
  inferInstanceAs (Decidable (_ → _ → _))

/-- Replica 0 of the sample network. -/
def sampleManager : ViewProgressManager sampleParams := ViewProgressManager.new 0 samplePeers []

/-- The manager that has its first block and its own vote for it. -/
def votedManager : ViewProgressManager sampleParams :=
  Call.run (Call.run sampleManager (.processConsensusMsg 10 (.blockProposal firstBlock)))
    (.addOwnVote 1 firstBlock.getHash (signHash 0 firstBlock.getHash))

/-- The vote after that one makes the certificate. -/
theorem quorum_certified_vote :
    (∃ c, (Call.run votedManager (.processConsensusMsg 10
      (.vote (voteOf 2 1 firstBlock.getHash)))).viewChain.findViewContext 1 = some c ∧
      2 * sampleParams.F < c.votes.len) ∧
    ∀ v c, (Call.run votedManager (.processConsensusMsg 10
      (.vote (voteOf 2 1 firstBlock.getHash)))).viewChain.findViewContext v = some c →
      2 * sampleParams.F < c.votes.len →
      ∃ m, c.mNotarization = some m ∧ c.blockHash = some m.blockHash := by
  have hblock : CallRun Finds sampleManager _ :=
    CallRun.fresh.call (.processConsensusMsg 10 (.blockProposal firstBlock))
      ⟨fits_of_find (by decide +kernel), pendingFits_of_none (by decide +kernel)⟩
  have hvoted : CallRun Finds sampleManager votedManager := by
    refine hblock.call (.addOwnVote 1 firstBlock.getHash (signHash 0 firstBlock.getHash)) ?_
    have hall : ∀ c ∈ (Call.run sampleManager (.processConsensusMsg 10
        (.blockProposal firstBlock))).viewChain.findViewContext 1,
        c.tally.others (c.tally.ownVote firstBlock.getHash (signHash 0 firstBlock.getHash)) <
          2 * sampleParams.F := by decide +kernel
    exact fun c hc _ => hall c hc
  have hrun := hvoted.call (.processConsensusMsg 10 (.vote (voteOf 2 1 firstBlock.getHash)))
    (pendingFits_of_none (by decide +kernel))
  refine ⟨?_, (quorum_certified (by decide) hrun).1⟩
  have hany : ((Call.run votedManager (.processConsensusMsg 10
      (.vote (voteOf 2 1 firstBlock.getHash)))).viewChain.findViewContext 1).any
      (fun c => decide (2 * sampleParams.F < c.votes.len)) = true := by decide +kernel
  obtain ⟨c, hc, hlt⟩ := (Option.any_eq_true _ _).mp hany
  exact ⟨c, hc, of_decide_eq_true hlt⟩

/-- Does the outcome ask to pass on the certificate of view `v`? -/
def asksToForward (v : Nat) : Outcome (ConsensusError P) (ViewProgressEvent P) → Bool
  | .ok (.shouldMNotarize w _ true) => w == v
  | .ok (.shouldVoteAndMNotarize w _ true) => w == v
  | _ => false

/-- The votes of three replicas come before the block. -/
def earlyVotes : List (Input sampleParams) :=
  [.message (.vote (voteOf 2 1 firstBlock.getHash)), .message (.vote (voteOf 3 1 firstBlock.getHash)),
    .message (.vote (voteOf 4 1 firstBlock.getHash))]

/-- The replica after the early votes. -/
def earlyReplica : Replica sampleParams :=
  (Replica.runAll (sampleConfig 0 (quietEnv _)) 10 earlyVotes).1

/-- The block then finds a quorum, is to be passed on as M-notarized, and
there is no certificate. -/
theorem quorum_without_certificate :
    asksToForward 1 (processConsensusMsg 10 (.blockProposal firstBlock) earlyReplica.viewManager).1 =
      true ∧
    (getMNotarization 1 (processConsensusMsg 10 (.blockProposal firstBlock)
      earlyReplica.viewManager).2).1.isOk = false ∧
    ((processConsensusMsg 10 (.blockProposal firstBlock)
      earlyReplica.viewManager).2.viewChain.findViewContext 1).any (fun c =>
        decide (2 * sampleParams.F < c.votes.len) && c.mNotarization.isNone) = true := by
  refine ⟨?_, ?_, ?_⟩
  · decide +kernel
  · decide +kernel
  · decide +kernel

end ViewProgressManager

end Minimmit
