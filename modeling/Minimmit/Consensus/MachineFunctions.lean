/-
Minimmit.Consensus.MachineFunctions — the state machine only composes steps.

Acting on an event whose promise holds ends in a settled replica that was
reached by steps, whether the outcome is `Ok` or `Err`; a panic ends at a
state that was reached by steps. The functions call each other through
`handle_event`, so each triple takes the triple of `handle_event` as a
hypothesis (`Handles`), and the knot is tied by one induction on the fuel.
-/
import Minimmit.Consensus.EventLoop
import Minimmit.Consensus.ManagerFunctions

namespace Minimmit

open Minimmit.Library Act Relation ViewContext ViewProgressManager ViewChain List Option

variable {P : Params}

namespace Replica

variable {cfg : Config P} {A : Admission cfg} {s₀ : Replica P} {Pre : Replica P → Prop}
  {s s' : Replica P} {m : ConsensusMessage P} {K : ViewProgressManager P → Prop} {env : Env P}
  {v view : Nat} {forward : Bool} {h parent : Hash P}

/-- An operation of the manager, as an operation of the state machine. -/
theorem spec_onManager {α : Type} {op : ViewProgressManager.Op P α} {Q : α → Replica P → Prop}
    {E X : Replica P → Prop}
    (h : ∀ s, Pre s → Ends (op s.viewManager) (fun a vm => Q a (s.withManager vm))
      (fun vm => E (s.withManager vm)) (fun vm => X (s.withManager vm))) :
    Spec Pre (onManager op) Q E X :=
  spec_zoom h

/-! ## The log only grows -/

theorem CleanStep.signed (h : CleanStep A s s') :
    s'.signed = s.signed ∨ ∃ e, s'.signed = s.signed ++ [e] := by
  cases h with
  | vote | nullify | propose => exact .inr ⟨_, rfl⟩
  | _ => exact .inl rfl

theorem Step.signed (h : Step A s s') :
    s'.signed = s.signed ∨ ∃ e, s'.signed = s.signed ++ [e] := by
  cases h with
  | clean h => exact h.signed
  | hashOnly => exact .inl rfl

theorem Steps.admits (h : Steps (A := A) s s') (ha : A.admits s.signed m) :
    A.admits s'.signed m := by
  induction h with
  | refl => exact ha
  | tail _ hstep ih =>
    rcases hstep.signed with heq | ⟨e, heq⟩
    · rw [heq]
      exact ih
    · rw [heq]
      exact A.mono ih

theorem At.refl (hs : s.chain.Settled) : At A s s := ⟨.refl, hs⟩

theorem At.trans {s₁ s₂ s₃ : Replica P} (h₁ : At A s₁ s₂) (h₂ : At A s₂ s₃) : At A s₁ s₃ :=
  ⟨h₁.steps.trans h₂.steps, h₂.settled⟩

/-! ## Broadcasts -/

theorem broadcast_ends (env : Env P) (m : ConsensusMessage P) (s : Replica P) :
    Ends (broadcastConsensusMessage env m s)
      (fun _ s' => env.broadcastOk s.clock = true ∧ s' = s.emit true m)
      (fun s' => env.broadcastOk s.clock = false ∧ s' = s.emit false m) (fun _ => False) := by
  unfold broadcastConsensusMessage
  simp only [askEnv, bind_run]
  by_cases h : env.broadcastOk s.clock
  · simp only [h, ↓reduceIte, modify_run]
    exact ⟨trivial, rfl⟩
  · simp only [h, Bool.false_eq_true, ↓reduceIte, throw_run]
    exact ⟨by simp, rfl⟩

/-- The state a broadcast leaves. -/
theorem broadcast_state (env : Env P) (m : ConsensusMessage P) (s : Replica P) :
    (broadcastConsensusMessage env m s).2 = s.emit (env.broadcastOk s.clock) m := by
  unfold broadcastConsensusMessage
  simp only [askEnv, bind_run]
  by_cases h : env.broadcastOk s.clock <;>
    simp only [h, ↓reduceIte, Bool.false_eq_true, modify_run, throw_run, emit]

theorem At.relay (h : At A s₀ s) (hm : Relayed m) (sent : Bool) : At A s₀ (s.emit sent m) := by
  have hask := h.step .ask
  cases sent with
  | true => exact hask.step (.relay hm)
  | false => exact hask

/-- Passing a message on changes nothing but clock and outbox. -/
theorem relay_spec (hm : Relayed m) :
    Spec (fun s => At A s₀ s ∧ K s.viewManager) (broadcastConsensusMessage env m)
      (fun _ s => At A s₀ s ∧ K s.viewManager)
      (fun s => At A s₀ s ∧ K s.viewManager) (At A s₀) := by
  rintro s ⟨hat, hk⟩
  refine (broadcast_ends env m s).conseq ?_ ?_ ?_
  · rintro _ s' ⟨-, rfl⟩
    exact ⟨hat.relay hm true, hk⟩
  · rintro s' ⟨-, rfl⟩
    exact ⟨hat.relay hm false, hk⟩
  · exact fun s' h => h.elim

theorem requireContext_ends (v : Nat) (s : Replica P) : Ends (requireContext v s.viewManager)
      (fun c vm => s.withManager vm = s ∧ s.context v = some c) (fun vm => s.withManager vm = s)
      fun _ => False := by
  unfold requireContext
  split
  case h_1 c hc => exact ⟨rfl, hc⟩
  case h_2 => rfl

/-- The getters look a context up and read a field of it. -/
theorem requireContext_bind_ends {α : Type} {k : ViewContext P → ViewProgressManager.Op P α}
    {vm : ViewProgressManager P} {Q : α → ViewProgressManager P → Prop}
    (hk : ∀ c, vm.viewChain.findViewContext v = some c →
      Ends (k c vm) Q (· = vm) fun _ => False) :
    Ends ((requireContext v >>= k) vm) Q (· = vm) fun _ => False := by
  simp only [bind_run, requireContext]
  rcases hc : vm.viewChain.findViewContext v with _ | c
  · rfl
  · exact hk c hc

theorem getMNotarization_ends (v : Nat) (vm : ViewProgressManager P) : Ends (getMNotarization v vm)
      (fun m vm' => vm' = vm ∧ ∃ c, vm.viewChain.findViewContext v = some c ∧
        c.mNotarization = some m) (· = vm) fun _ => False := by
  refine requireContext_bind_ends fun c hc => ?_
  cases hm : c.mNotarization with
  | some m => exact ⟨rfl, c, hc, hm⟩
  | none => rfl

theorem getNullification_ends (v : Nat) (vm : ViewProgressManager P) : Ends (getNullification v vm)
      (fun n vm' => vm' = vm ∧ ∃ c, vm.viewChain.findViewContext v = some c ∧
        c.nullification = some n) (· = vm) fun _ => False := by
  refine requireContext_bind_ends fun c hc => ?_
  cases hn : c.nullification with
  | some n => exact ⟨rfl, c, hc, hn⟩
  | none => rfl

theorem getBlockTxHashes_ends (v : Nat) (vm : ViewProgressManager P) : Ends (getBlockTxHashes v vm)
      (fun _ vm' => vm' = vm ∧ ∃ c, vm.viewChain.findViewContext v = some c) (· = vm)
      fun _ => False := by
  refine requireContext_bind_ends fun c hc => ?_
  cases c.block with
  | some b => exact ⟨rfl, c, hc⟩
  | none => rfl

theorem createAndBroadcastMNotarization_spec : Spec (fun s => At A s₀ s ∧ K s.viewManager)
      (createAndBroadcastMNotarization env v forward)
      (fun _ s => At A s₀ s ∧ K s.viewManager)
      (fun s => At A s₀ s ∧ K s.viewManager) (At A s₀) := by
  refine spec_ite (fun _ => ?_) fun _ => spec_pure fun s h => h
  refine spec_bind (Q := fun _ s => At A s₀ s ∧ K s.viewManager)
    (spec_onManager fun s hs => ?_) fun m => relay_spec trivial
  refine (getMNotarization_ends v s.viewManager).conseq ?_ ?_ ?_
  · rintro m vm ⟨rfl, -⟩
    exact hs
  · rintro vm rfl
    exact hs
  · exact fun vm h => h.elim

theorem broadcastNullification_spec :
    Spec (fun s => At A s₀ s ∧ K s.viewManager) (broadcastNullification env v)
      (fun _ s => At A s₀ s ∧ K s.viewManager)
      (fun s => At A s₀ s ∧ K s.viewManager) (At A s₀) := by
  refine spec_bind (Q := fun _ s => At A s₀ s ∧ K s.viewManager)
    (spec_onManager fun s hs => ?_) fun n => relay_spec trivial
  refine (getNullification_ends v s.viewManager).conseq ?_ ?_ ?_
  · rintro n vm ⟨rfl, -⟩
    exact hs
  · rintro vm rfl
    exact hs
  · exact fun vm h => h.elim

theorem forwardNullification_spec {broadcast : Bool} :
    Spec (fun s => At A s₀ s ∧ K s.viewManager) (forwardNullification env broadcast v)
      (fun _ s => At A s₀ s ∧ K s.viewManager)
      (fun s => At A s₀ s ∧ K s.viewManager) (At A s₀) :=
  spec_ite (fun _ => broadcastNullification_spec) fun _ => spec_pure fun _ hs => hs

/-! ## Votes -/

variable {K : List (Nat × Hash P) → Prop}

variable {signature : BlsSignature P}

/-- The own vote is counted where it is due and the hash was signed. -/
theorem addOwnVote_spec :
    Spec (fun s => At A s₀ s ∧ s.VoteDue v h ∧ (∃ e ∈ s.signed, e.SignsBlock v h) ∧
        K s.viewManager.entered)
      (onManager (addOwnVote v h signature))
      (fun _ s => At A s₀ s ∧ K s.viewManager.entered) (At A s₀) (At A s₀) := by
  refine spec_onManager ?_
  rintro s ⟨hat, hdue, hlog, hk⟩
  refine Ends.conseq (requireContext_bind_ends (Q := fun _ vm =>
    At A s₀ (s.withManager vm) ∧ K vm.entered) fun c hc => ?_) (fun _ _ h => h) ?_ ?_
  · have hr := hdue c hc
    have hcast : At A s₀ (s.onChain (·.setContext v (c.castVote h signature))) :=
      hat.step (.castVote hc hr hlog)
    have hop : ViewContext.addOwnVote h signature c = (.ok (), c.castVote h signature) := by
      simp [ViewContext.addOwnVote, hr.notVoted, hr.anchored.1]
    simp only [ViewProgressManager.onChain, Act.zoom, runOn, hop]
    exact ⟨hcast, hk⟩
  · rintro vm rfl
    exact hat
  · exact fun vm h => h.elim

/-- A vote that is due is signed, sent and counted. -/
theorem voteForBlock_spec : Spec (fun s => At A s₀ s ∧ s.VoteDue v h ∧ K s.viewManager.entered)
      (voteForBlock env v h) (fun _ s => At A s₀ s ∧ K s.viewManager.entered) (At A s₀)
      (At A s₀) := by
  rintro s ⟨hat, hdue, hk⟩
  unfold voteForBlock
  refine spec_bind (P := (· = s)) (Q := fun c s' => s' = s ∧ s.context v = some c)
    (spec_onManager ?_) (fun c => ?_) s rfl
  · rintro _ rfl
    exact (requireContext_ends v _).conseq (fun _ _ h => h) (fun _ h => h ▸ hat) fun _ h => h.elim
  rintro s ⟨rfl, hc⟩
  -- the record and the broadcast are one step, after the moment is noted
  have hnoted : At A s₀ (s.note (.voted v h s.chain)) := hat.step (.note _)
  have hstep : ∀ sent, At A s₀ (((s.note (.voted v h s.chain)).log (.vote v h c)).emit sent
      (s.voteMessage v h c)) :=
    fun sent => hnoted.step (.vote hc (hdue c hc))
  have hsend := broadcast_ends env (s.voteMessage v h c)
    ((s.note (.voted v h s.chain)).log (.vote v h c))
  simp only [bind_run, signBytes, record, noteVoted, modify_run, get_run]
  simp only [voteMessage, Replica.log, Replica.note] at hsend
  split
  case h_1 r s' hr =>
    rw [hr] at hsend
    obtain ⟨-, rfl⟩ := hsend
    refine addOwnVote_spec _ ⟨hstep true, hdue, ⟨_, mem_append_right _ mem_cons_self,
      rfl, rfl⟩, hk⟩
  case h_2 e s' hr =>
    rw [hr] at hsend
    obtain ⟨-, rfl⟩ := hsend
    exact hstep false
  case h_3 s' hr =>
    rw [hr] at hsend
    exact hsend.elim
  case h_4 s' hr =>
    rw [hr] at hsend
    exact hsend.elim

/-! ## Finalization -/

theorem finalizeView_spec (h₀ : s₀.WF A) :
    Spec (At A s₀) (finalizeView v) (fun _ => At A s₀) (At A s₀) (At A s₀) := by
  refine spec_get_bind fun s hs => ?_
  refine spec_ite (fun _ => spec_pure fun s h => h.2) fun hne => ?_
  refine spec_bind (Q := fun _ s => At A s₀ s ∧ v < s.currentView) (spec_onManager ?_)
    fun txHashes => spec_bind (Q := fun _ => At A s₀) (spec_onManager ?_)
      fun _ => spec_modify fun s hat => hat.step (.notify _)
  · rintro _ ⟨rfl, hat⟩
    refine (getBlockTxHashes_ends v _).conseq ?_ ?_ ?_
    · rintro _ vm ⟨rfl, c, hc⟩
      exact ⟨hat, lt_of_le_of_ne ((hat.wf h₀).chain.le_current v c hc) hne⟩
    · rintro vm rfl
      exact hat
    · exact fun vm h => h.elim
  · rintro s ⟨hat, hlt⟩
    refine (ViewProgressManager.finalizeView_spec v hat hlt s.viewManager rfl).conseq ?_ ?_ ?_
    · exact fun _ vm h => h.1
    · exact fun vm h => h.1
    · exact fun vm h => h

/-! ## Nullify messages -/

theorem SettledBut.settled (h : s.SettledBut v)
    (hc : ∀ c, s.context v = some c → c.hasNullified = false → ¬ Evidence c) : s.chain.Settled := by
  intro w c hw
  rcases h w c hw with hs | ⟨rfl, hn, he⟩
  · exact hs
  · exact absurd he (hc c hw hn)

theorem At.settledBut (h : At A s₀ s) (v : Nat) : s.SettledBut v :=
  fun w c hc => .inl (h.settled w c hc)

/-- What `nullify_view` decides on a context that is not nullified: a message
with the flag set, or nothing after a vote without evidence. -/
theorem nullifyOperation_cases (force : Bool) (secretKey : BlsSecretKey P) {c : ViewContext P}
    (hn : c.hasNullified = false) :
    (nullifyOperation force secretKey c = none ∧ ¬ Evidence c ∧ c.hasVoted = true) ∨
      ∃ op, nullifyOperation force secretKey c = some op ∧
        (force = true ∨ Evidence c ∨ c.hasVoted = false) ∧
        op c = createNullifyMessage secretKey c := by
  unfold nullifyOperation
  by_cases hf : force = true
  · refine .inr ⟨_, if_pos hf, .inl hf, ?_⟩
    simp [createNullifyForCascade, createNullifyForByzantine, hn]
  by_cases he : Evidence c
  · refine .inr ⟨_, (if_neg hf).trans (if_pos he), .inr (.inl he), ?_⟩
    simp [createNullifyForByzantine, hn]
  by_cases hv : c.hasVoted = true
  · exact .inl ⟨(if_neg hf).trans ((if_neg he).trans (if_pos hv)), he, hv⟩
  · refine .inr ⟨_, (if_neg hf).trans ((if_neg he).trans (if_neg hv)), .inr (.inr ?_), ?_⟩
    · simpa using hv
    · simp [createNullifyForTimeout, hn, hv]

/-- The nullify message settles the view it is for. -/
theorem SettledBut.nullify (h : s.SettledBut v) {forced sent : Bool} {c : ViewContext P} :
    (((s.log (.nullify v forced c)).onChain
      (·.setContext v { c with hasNullified := true })).emit sent m).chain.Settled := by
  intro w d hd
  rcases findViewContext_setContext_cases hd with ⟨-, rfl⟩ | ⟨hne, hold⟩
  · exact fun _ _ => .inr (.inr rfl)
  · rcases h w d hold with hs | ⟨heq, -⟩
    · exact hs
    · exact absurd heq hne

/-- `mark_nullified` after the message: the flag is set already, the pending
diff goes. -/
theorem markNullified_spec {K : Nat → Prop} :
    Spec (fun s => At A s₀ s ∧ K s.currentView ∧
        ∀ c, s.context v = some c → c.hasNullified = true)
      (onManager (markNullified v))
      (fun _ s => At A s₀ s ∧ K s.currentView)
      (fun s => At A s₀ s ∧ K s.currentView) (At A s₀) := by
  refine spec_onManager ?_
  rintro s ⟨hat, hk, hflag⟩
  unfold markNullified
  split
  case h_1 => exact ⟨hat, hk⟩
  case h_2 c hc =>
    have hsame : { c with hasNullified := true } = c := by
      rw [← hflag c hc]
    rw [hsame]
    have hset : ChainStep (CtxStep (A.admits s.signed) cfg.peers) s.chain
        (s.chain.setContext v c) := .context hc (ctxStep_refl c)
    exact ⟨hat.chainSteps (.tail (.single hset) (.drop v)), hk⟩

theorem nullifyView_spec {force : Bool} {K : Nat → Prop} :
    Spec (fun s => Steps (A := A) s₀ s ∧ s.SettledBut v ∧ K s.currentView ∧
        (force = true → v = s.currentView))
      (nullifyView env v force) (fun _ s => At A s₀ s ∧ K s.currentView)
      (fun s => At A s₀ s ∧ K s.currentView) (At A s₀) := by
  rintro s ⟨hsteps, hbut, hk, hforce⟩
  unfold nullifyView
  refine spec_bind (P := (· = s)) (Q := fun c s' => s' = s ∧ s.context v = some c)
    (spec_onManager ?_) (fun c => ?_) s rfl
  · rintro _ rfl
    unfold requireContext
    split
    case h_1 c hc => exact ⟨rfl, hc⟩
    case h_2 hnone =>
      have hset := hbut.settled fun c hc => absurd (hnone.symm.trans hc) (by simp)
      exact ⟨⟨hsteps, hset⟩, hk⟩
  rintro s ⟨rfl, hc⟩
  have hsettled : (c.hasNullified = false → ¬ Evidence c) → At A s₀ s := by
    intro h
    refine ⟨hsteps, hbut.settled fun c' hc' => ?_⟩
    obtain rfl := some.inj (hc.symm.trans hc')
    exact h
  by_cases hn : c.hasNullified = true
  · simp only [hn, ↓reduceIte, pure_run]
    exact ⟨hsettled fun hf => absurd (hn.symm.trans hf) (by simp), hk⟩
  have hn : c.hasNullified = false := by simpa using hn
  simp only [hn, Bool.false_eq_true, ↓reduceIte, bind_run, get_run]
  rcases nullifyOperation_cases force s.secretKey hn with
    ⟨hnone, he, -⟩ | ⟨op, hsome, hguard, hop⟩
  · rw [hnone]
    exact ⟨hsettled fun _ => he, hk⟩
  rw [hsome]
  have hg : (force = true ∧ v = s.currentView) ∨ Evidence c ∨ c.hasVoted = false := by
    rcases hguard with hf | hrest
    · exact .inl ⟨hf, hforce hf⟩
    · exact .inr hrest
  have hat : ∀ sent, At A s₀ (((s.log (.nullify v force c)).onChain
      (·.setContext v { c with hasNullified := true })).emit sent (s.nullifyMessageOf c)) :=
    fun sent => ⟨hsteps.tail (.clean (.nullify hc hn hg)), hbut.nullify⟩
  have hsend := broadcast_ends env (s.nullifyMessageOf c)
    ((s.log (.nullify v force c)).onChain (·.setContext v { c with hasNullified := true }))
  simp only [bind_run, record, modify_run, onManager, ViewProgressManager.onChain,
    Act.zoom, runOn, hop, createNullifyMessage]
  simp only [nullifyMessageOf, Replica.log, Replica.onChain] at hsend
  split
  case h_1 r s' hr =>
    rw [hr] at hsend
    obtain ⟨-, rfl⟩ := hsend
    refine markNullified_spec _ ⟨hat true, hk, ?_⟩
    intro c' hc'
    obtain rfl := some.inj ((findViewContext_setContext_self s.chain v _).symm.trans hc')
    rfl
  case h_2 e s' hr =>
    rw [hr] at hsend
    obtain ⟨-, rfl⟩ := hsend
    exact ⟨hat false, hk⟩
  case h_3 s' hr =>
    rw [hr] at hsend
    exact hsend.elim
  case h_4 s' hr =>
    rw [hr] at hsend
    exact hsend.elim

/-! ## Proposals -/

/-- A ready proposal is stored: its hash stands in the view. -/
theorem addBlockProposal_anchored {chain : ViewChain P} {replicaId : Nat} {peers : PeerSet P}
    (hwf : chain.WF peers replicaId) {b : Block P} {sent : Bool} {d : StateDiff P}
    (h : ProposalReady peers chain b sent) :
    ∃ c, (addBlockProposal b.view b d peers chain).2.findViewContext b.view = some c ∧
      c.Anchored b.getHash := by
  obtain ⟨c, hc, -, -, hhash, hpending, hparent⟩ := h.context
  obtain ⟨pk, hpk, hsig⟩ := h.signature
  have hctx := hwf.context _ c hc
  have hblock : c.block = none := by
    rcases hb : c.block with _ | b'
    · rfl
    · rw [hctx.block_hash b' hb] at hhash
      cases hhash
  have hcert : c.mNotarization = none := by
    rcases hm : c.mNotarization with _ | m
    · rfl
    · rw [hctx.mNotarization_hash m hm] at hhash
      cases hhash
  have hleader : b.leader = c.leaderId := h.leader.trans (hwf.leaderId _ c hc).symm
  have hstored : ∃ c', (ViewContext.addNewViewBlock b d peers c).2 = c' ∧
      c'.Anchored b.getHash := by
    have hview : b.view = c.viewNumber := (hwf.viewNumber _ c hc).symm
    rw [hleader] at hpk
    unfold ViewContext.addNewViewBlock
    simp only [hview, hblock, hleader, hparent, hpk, hsig, hcert, ne_eq, not_true_eq_false,
      ↓reduceIte, isSome_none, Bool.false_eq_true, Bool.not_true, any_none]
    split
    case isTrue => exact ⟨_, rfl, rfl, .inl rfl⟩
    case isFalse =>
      split
      case isTrue => exact ⟨_, rfl, rfl, .inl rfl⟩
      case isFalse => exact ⟨_, rfl, rfl, .inl rfl⟩
  obtain ⟨c', hc', hanchor⟩ := hstored
  refine ⟨c', ?_, hanchor⟩
  simp only [addBlockProposal, hc, hblock, hpending, h.parent, runOn,
    isSome_none, Bool.false_eq_true, ↓reduceIte]
  rw [findViewContext_onMNotarization, hc', findViewContext_setContext_self]

/-- The state right after a proposal was signed and handed to the queue. -/
def proposed (sent : Bool) (b : Block P) (s : Replica P) : Replica P :=
  (s.log (.proposal b s.chain sent)).emit sent (.blockProposal b)

/-- What the leader makes of its own proposal. -/
theorem ownProposal_spec (h₀ : s₀.WF A) {fuel now : Nat} {b : Block P}
    (hb : b = cfg.block view parent now) (hat : At A s₀ s)
    (hp : (view, parent) ∈ s.viewManager.entered) :
    Spec (· = s.proposed true b) (onManager (processConsensusMsg fuel (.blockProposal b)))
      (fun e s' => Promised A s₀ e s' ∧ AsksVoteFor view b.getHash e ∧
        ∃ entry ∈ s'.signed, entry.SignsBlock view b.getHash) (At A s₀) (At A s₀) := by
  have hwf := hat.wf h₀
  have hle : view ≤ s.currentView := hwf.entered_le _ hp
  have hlt : view < u64Size := Nat.lt_of_le_of_lt hle hwf.chain.current_lt
  have hbv : b.view = view := by rw [hb]; rfl
  refine spec_onManager ?_
  rintro _ rfl
  -- a proposal that does not get to the chain
  have hstay : (∀ d, validateBlock s.chain.persistenceWriter.getAccount b ≠ .ok d) →
      At A s₀ (s.proposed true b) := by
    subst hb
    intro hinvalid
    refine hat.step (.propose hp .refl (.inl rfl) fun hready => ?_)
    obtain ⟨d, hd⟩ := hready.valid
    exact absurd hd (hinvalid d)
  have hsigned : ∃ entry ∈ (s.proposed true b).signed, entry.SignsBlock view b.getHash :=
    ⟨_, mem_append_right _ mem_cons_self, hbv, rfl⟩
  unfold processConsensusMsg handleBlockProposal
  simp only [bind_run, get_run]
  have hview : ¬ (s.proposed true b).viewManager.viewChain.currentView < b.header.view :=
    Nat.not_lt.mpr (hbv.trans_le hle)
  rw [if_neg hview]
  cases hval : validateBlock (s.proposed true b).viewManager.viewChain.persistenceWriter.getAccount
      b with
  | panic | exhausted => exact hstay fun d hd => by cases hval.symm.trans hd
  | err e => exact ⟨hstay (fun d hd => by cases hval.symm.trans hd), trivial, hsigned⟩
  | ok d =>
    have hready : s.chain.Ready (A.admits (s.signed ++ [.proposal b s.chain true])) cfg.peers
        cfg.replicaId :=
      ⟨hwf.chain, hat.settled, fun v c b hc hb => A.mono (hwf.pending v c b hc hb)⟩
    have hadd := addBlockProposal_spec (v := view) (d := d)
      (hb ▸ A.own hlt : A.admits _ (.blockProposal b)) hready s.chain rfl
    -- in every outcome the proposal was one step
    have hstep : ∀ {chain'}, chain' = (addBlockProposal view b d cfg.peers s.chain).2 →
        ViewChain.Steps (BlockStep (A.admits (s.signed ++ [.proposal b s.chain true])) cfg.peers)
          s.chain chain' →
        At A s₀ ((s.proposed true b).withManager { s.viewManager with
          viewChain := chain', validated := s.viewManager.validated ++ [(b, d)] }) := by
      subst hb
      rintro chain' rfl hsteps
      exact hat.step (.propose hp hsteps (.inr ⟨d, hval, rfl⟩)
        fun hr => addBlockProposal_anchored hwf.chain hr)
    have hpeers : (s.proposed true b).viewManager.peers = cfg.peers := hwf.peers
    rw [hpeers, show b.header.view = view from hbv]
    refine spec_bind (P := (· = s.viewManager)) (Q := fun _ vm => vm =
      { s.viewManager with validated := s.viewManager.validated ++ [(b, d)] })
      (spec_modify fun vm hvm => by rw [hvm]) (fun _ => ?_) _ rfl
    refine spec_bind (Q := fun r vm => r.blockHash = b.getHash ∧
        At A s₀ ((s.proposed true b).withManager vm) ∧
        (r.shouldVote = true → ((s.proposed true b).withManager vm).VoteDue view b.getHash))
      (spec_onChain ?_) fun r => spec_of_prop fun hhash => ?_
    · rintro vm rfl
      rcases hr : addBlockProposal view b d cfg.peers s.chain with ⟨o, chain'⟩
      rw [hr] at hadd hstep
      cases o with
      | ok r => exact ⟨hadd.2.1, hstep rfl hadd.1, hadd.2.2⟩
      | err e => exact hstep rfl hadd
      | panic => exact hstep rfl hadd
      | exhausted => exact hstep rfl hadd
    · refine (proposalEvent_spec h₀ hhash).weaken (fun vm h => h) fun e vm h => ?_
      exact ⟨h.1, h.2, hsigned⟩

/-! ## Acting on events -/

variable (A) in
/-- A handler of events that only takes steps. -/
def Handles (handleEvent : ViewProgressEvent P → Op P Unit) : Prop :=
  ∀ s₀ : Replica P, s₀.WF A → ∀ event, Act.Spec (Promised A s₀ event) (handleEvent event)
    (fun _ => At A s₀) (At A s₀) (Steps (A := A) s₀)

/-- An end that is settled in every outcome. -/
theorem spec_settled {α : Type} {m : Op P α} {Q : α → Replica P → Prop} {E : Replica P → Prop}
    (h : Spec Pre m Q E (At A s₀)) : Spec Pre m Q E (Steps (A := A) s₀) :=
  h.conseq (fun _ hs => hs) (fun _ _ hs => hs) (fun _ hs => hs) fun _ hs => hs.steps

variable {handleEvent : ViewProgressEvent P → Op P Unit} {fuel : Nat}

theorem handleOwnProposal_spec (h₀ : s₀.WF A) (hrec : Handles A handleEvent)
    (event : ViewProgressEvent P) :
    Spec (fun s => Promised A s₀ event s ∧ AsksVoteFor v h event ∧
        ∃ e ∈ s.signed, e.SignsBlock v h)
      (handleOwnProposal cfg.env handleEvent signature event) (fun _ => At A s₀) (At A s₀)
      (Steps (A := A) s₀) := by
  have hvote : ∀ {v' h'}, Spec (fun s => (At A s₀ s ∧ s.VoteDue v' h') ∧
      (v' = v ∧ h' = h) ∧ ∃ e ∈ s.signed, e.SignsBlock v h)
      (onManager (addOwnVote v' h' signature)) (fun _ => At A s₀) (At A s₀)
      (Steps (A := A) s₀) := by
    intro v' h'
    refine spec_settled ((addOwnVote_spec (K := fun _ => True)).weaken ?_ fun _ _ h => h.1)
    rintro s ⟨⟨hat, hdue⟩, ⟨rfl, rfl⟩, hlog⟩
    exact ⟨hat, hdue, hlog, trivial⟩
  have hdefault : Spec (fun s => Promised A s₀ event s ∧ AsksVoteFor v h event ∧
      ∃ e ∈ s.signed, e.SignsBlock v h) (handleEvent event) (fun _ => At A s₀) (At A s₀)
      (Steps (A := A) s₀) :=
    (hrec s₀ h₀ event).weaken (fun _ hs => hs.1) fun _ _ hs => hs
  cases event with
  | shouldVote v' h' => exact hvote
  | shouldVoteAndMNotarize v' h' forward =>
    refine spec_bind hvote fun _ => spec_settled ?_
    exact (createAndBroadcastMNotarization_spec (K := fun _ => True)).conseq
      (fun _ hs => ⟨hs, trivial⟩) (fun _ _ hs => hs.1) (fun _ hs => hs.1) fun _ hs => hs
  | shouldVoteAndFinalize v' h' =>
    exact spec_bind hvote fun _ => spec_settled (finalizeView_spec h₀)
  | _ => exact hdefault

theorem markProposed_spec : Spec (At A s₀) (onManager (markProposed v)) (fun _ => At A s₀)
      (At A s₀) (At A s₀) := by
  refine spec_onManager fun s hat => ?_
  unfold markProposed
  split
  case isFalse => exact hat
  case isTrue =>
    split
    case h_1 => exact hat
    case h_2 c hc => exact hat.chainSteps (.single (.context hc .proposed))

/-- The leader's own proposal is one step, whatever becomes of it. -/
theorem sendOwnProposal_spec (h₀ : s₀.WF A) {now : Nat} :
    Spec (fun s => At A s₀ s ∧ (view, parent) ∈ s.viewManager.entered)
      (sendOwnProposal cfg.env fuel (cfg.block view parent now))
      (fun e s => Promised A s₀ e s ∧ AsksVoteFor view (cfg.block view parent now).getHash e ∧
        ∃ entry ∈ s.signed, entry.SignsBlock view (cfg.block view parent now).getHash)
      (At A s₀) (At A s₀) := by
  refine spec_get_bind ?_
  rintro s ⟨hat, hp⟩
  refine spec_bind (Q := fun _ s' => s' =
    s.log (.proposal (cfg.block view parent now) s.chain (cfg.env.broadcastOk s.clock)))
    (spec_modify fun s' hs' => by rw [hs'.1]; rfl) fun _ => ?_
  refine spec_bind (Q := fun _ s' => s' = s.proposed true (cfg.block view parent now))
    ?_ fun _ => ?_
  · rintro _ rfl
    refine (broadcast_ends cfg.env _ _).conseq ?_ ?_ ?_
    · rintro _ s' ⟨hok, rfl⟩
      have hok : cfg.env.broadcastOk s.clock = true := hok
      rw [hok]
      rfl
    · rintro s' ⟨hok, rfl⟩
      have hok : cfg.env.broadcastOk s.clock = false := hok
      rw [hok]
      refine hat.step (.propose hp .refl (.inl rfl) fun hready => ?_)
      exact absurd hready.sent Bool.false_ne_true
    · exact fun s' h => h.elim
  -- the moment may as well be noted before the proposal is signed
  have hnoted : At A s₀ (s.note (.processed (.blockProposal (cfg.block view parent now)) s.chain)) :=
    hat.step (.note _)
  refine spec_bind (Q := fun _ s' => s' =
    (s.note (.processed (.blockProposal (cfg.block view parent now)) s.chain)).proposed true
      (cfg.block view parent now)) (spec_modify fun _ hs' => by rw [hs']; rfl) fun _ => ?_
  exact ownProposal_spec h₀ rfl hnoted hp

/-- `propose_block` builds the block of the configuration. -/
theorem buildBlock_eq (hwf : s.WF A) (view now : Nat) (parent : Hash P) :
    buildBlock s.viewManager.replicaId s.secretKey view parent (cfg.env.transactions now)
      (cfg.env.timestamp now) = cfg.block view parent now := by
  rw [hwf.replicaId, hwf.secretKey]
  rfl

theorem proposeBlockWith_spec (h₀ : s₀.WF A) (hrec : Handles A handleEvent) :
    Spec (fun s => At A s₀ s ∧ (view, parent) ∈ s.viewManager.entered)
      (proposeBlockWith cfg.env fuel handleEvent view parent) (fun _ => At A s₀) (At A s₀)
      (Steps (A := A) s₀) := by
  rw [proposeBlockWith_eq]
  refine spec_bind (Q := fun _ s => At A s₀ s ∧ (view, parent) ∈ s.viewManager.entered)
    ?_ fun now => ?_
  · rintro s ⟨hat, hp⟩
    exact ⟨hat.step .ask, hp⟩
  refine spec_ite (fun _ => ?_) fun _ => spec_throw fun s hs => hs.1
  refine spec_get_bind ?_
  rintro s ⟨hat, hp⟩
  rw [buildBlock_eq (hat.wf h₀)]
  refine spec_bind (spec_settled ((sendOwnProposal_spec h₀).weaken (fun _ hs => hs.2)
    fun _ _ hs => hs)) fun event => ?_
  refine spec_bind (handleOwnProposal_spec h₀ hrec event) fun _ => ?_
  exact spec_settled markProposed_spec

theorem finalizeDeferred_spec (h₀ : s₀.WF A) (n : Nat) :
    Spec (At A s₀) (finalizeDeferred n) (fun _ => At A s₀) (At A s₀) (At A s₀) := by
  induction n with
  | zero => exact spec_pure fun _ hs => hs
  | succ n ih =>
    refine spec_get_bind fun s hs => ?_
    cases s.viewManager.viewChain.oldestFinalizableView with
    | none => exact spec_pure fun _ hs => hs.2
    | some r =>
      refine spec_bind ((spec_attempt_same (finalizeView_spec h₀)).weaken
        (fun _ hs => hs.2) fun _ _ hs => hs) fun result => ?_
      match result with
      | .error _ => exact spec_pure fun _ hs => hs
      | .ok _ =>
        refine spec_get_bind fun s' hs' => ?_
        refine spec_ite (fun _ => spec_pure fun _ hs => hs.2) fun _ => ?_
        exact ih.weaken (fun _ hs => hs.2) fun _ _ hs => hs

/-! ## Messages and replays -/

theorem Steps.entered (h : Steps (A := A) s s') {e : Nat × Hash P}
    (he : e ∈ s.viewManager.entered) : e ∈ s'.viewManager.entered := by
  induction h with
  | refl => exact he
  | tail _ hstep ih =>
    cases hstep with
    | hashOnly => exact ih
    | clean hstep =>
      cases hstep with
      | enter => exact mem_append_left _ ih
      | _ => exact ih

theorem handleConsensusMessageWith_spec (h₀ : s₀.WF A) (hrec : Handles A handleEvent) :
    Spec (fun s => At A s₀ s ∧ A.admits s.signed m)
      (handleConsensusMessageWith fuel handleEvent m) (fun _ => At A s₀) (At A s₀)
      (Steps (A := A) s₀) := by
  refine spec_bind (Q := fun _ s => At A s₀ s ∧ A.admits s.signed m)
    (spec_modify fun _ hs => ⟨hs.1.step (.note _), hs.2⟩) fun _ => ?_
  refine spec_bind (Q := fun event s => Promised A s₀ event s ∧ A.admits s.signed m)
    (spec_onManager ?_) fun event => ?_
  · rintro s ⟨hat, ha⟩
    refine (processConsensusMsg_spec h₀ ha s.viewManager hat).conseq ?_ ?_ ?_
    · exact fun e vm h => ⟨h, ha⟩
    · exact fun vm h => h
    · exact fun vm h => h.steps
  · have hdefault : Spec (fun s => Promised A s₀ event s ∧ A.admits s.signed m)
        (handleEvent event) (fun _ => At A s₀) (At A s₀) (Steps (A := A) s₀) :=
      (hrec s₀ h₀ event).weaken (fun _ hs => hs.1) fun _ _ hs => hs
    cases event with
    | shouldUpdateView newView leader =>
      exact spec_modify fun s hs => hs.1.step (.buffer hs.2)
    | _ => exact hdefault

/-- A replayed message was admitted when it was buffered, and still is. -/
theorem replayView_spec (h₀ : s₀.WF A) (hrec : Handles A handleEvent) (v : Nat) :
    Spec (At A s₀) (replayView fuel handleEvent v) (fun _ => At A s₀) (At A s₀)
      (Steps (A := A) s₀) := by
  refine spec_get_bind fun s hs => ?_
  cases hget : s.pendingMessages.get v with
  | none => exact spec_pure fun _ hs => hs.2
  | some messages =>
    have hadm : ∀ m ∈ messages, A.admits s.signed m :=
      fun m hm => (hs.wf h₀).buffered v messages m hget hm
    refine spec_bind (Q := fun _ s => At A s₀ s ∧ ∀ m ∈ messages, A.admits s.signed m)
      (spec_modify ?_) fun _ => ?_
    · rintro _ ⟨rfl, hat⟩
      exact ⟨hat.step .unbuffer, hadm⟩
    refine (spec_forM fun m hm => ?_).weaken (fun _ hs => hs) fun _ _ hs => hs.1
    rintro s' ⟨hat, hadm'⟩
    have hwf := hat.wf h₀
    have hmsg : Ends (handleConsensusMessageWith fuel handleEvent m s') (fun _ => At A s')
        (At A s') (Steps (A := A) s') :=
      handleConsensusMessageWith_spec hwf hrec s' ⟨At.refl hat.settled, hadm' m hm⟩
    have hnext : ∀ {s''}, At A s' s'' → At A s₀ s'' ∧ ∀ m ∈ messages, A.admits s''.signed m :=
      fun h => ⟨hat.trans h, fun m hm => Steps.admits h.steps (hadm' m hm)⟩
    simp only [bind_run, Act.attempt]
    rcases hr : handleConsensusMessageWith fuel handleEvent m s' with ⟨o, s''⟩
    rw [hr] at hmsg
    cases o with
    | ok a => exact hnext hmsg
    | err e => exact hnext hmsg
    | panic => exact hat.steps.trans hmsg
    | exhausted => exact hat.steps.trans hmsg

theorem progressToNextViewWith_spec (h₀ : s₀.WF A) (hrec : Handles A handleEvent) {leader : Nat} :
    Spec (fun s => At A s₀ s ∧ (view, parent) ∈ s.viewManager.entered)
      (progressToNextViewWith cfg.env fuel handleEvent view leader parent) (fun _ => At A s₀)
      (At A s₀) (Steps (A := A) s₀) := by
  rintro s ⟨hat, hp⟩
  have hwf := hat.wf h₀
  -- everything below is a run from `s`, in which the view stays entered
  have hrun : Spec (At A s) (progressToNextViewWith cfg.env fuel handleEvent view leader parent)
      (fun _ => At A s) (At A s) (Steps (A := A) s) := by
    refine spec_bind (spec_settled (finalizeDeferred_spec hwf _)) fun _ => ?_
    refine spec_get_bind fun s₁ _ => ?_
    refine spec_bind ((spec_forM fun v _ => replayView_spec hwf hrec v).weaken
      (fun _ hs => hs.2) fun _ _ hs => hs) fun _ => ?_
    refine spec_get_bind fun s₂ _ => ?_
    refine spec_ite (fun _ => ?_) fun _ => spec_pure fun _ hs => hs.2
    exact (proposeBlockWith_spec hwf hrec).weaken
      (fun s' hs => ⟨hs.2, Steps.entered hs.2.steps hp⟩) fun _ _ hs => hs
  exact (hrun s (At.refl hat.settled)).conseq (fun _ _ h => hat.trans h) (fun _ h => hat.trans h)
    fun _ h => hat.steps.trans h

variable (A) in
/-- The message was admitted, or it is a certificate some view has stored. -/
def Known (m : ConsensusMessage P) (s : Replica P) : Prop :=
  A.admits s.signed m ∨ ∃ v c n, s.context v = some c ∧ c.mNotarization = some n ∧
    m = .mNotarization n

/-- A stored certificate is known to its view, so processing it again only
moves the replica on. -/
theorem processKnown_spec (h₀ : s₀.WF A) :
    Spec (fun s => At A s₀ s ∧ s.Known A m) (onManager (processConsensusMsg fuel m))
      (fun e => Promised A s₀ e) (At A s₀) (At A s₀) := by
  refine spec_onManager ?_
  rintro s ⟨hat, ha | ⟨v, c, n, hc, hm, rfl⟩⟩
  · exact processConsensusMsg_spec h₀ ha s.viewManager hat
  have hwf := (hat.wf h₀).chain
  have hview : n.view = v := by
    rw [((hwf.context v c hc).mNotarization_view n hm).1]
    exact hwf.viewNumber v c hc
  have hknown : ∀ c', s.viewManager.viewChain.findViewContext n.view = some c' →
      c'.mNotarization = none → A.admits s.signed (.mNotarization n) := by
    intro c' hc' hnone
    rw [hview] at hc'
    obtain rfl := some.inj (hc.symm.trans hc')
    rw [hm] at hnone
    cases hnone
  exact handleMNotarization_spec h₀ hat hknown s.viewManager rfl

/-- Looking up the stored certificate. -/
theorem getStored_spec {X : Replica P → Prop} : Spec Pre (onManager (getMNotarization v))
      (fun m s => Pre s ∧ ∃ c, s.context v = some c ∧ c.mNotarization = some m) Pre X := by
  refine spec_onManager fun s hs => (getMNotarization_ends v s.viewManager).conseq ?_ ?_ ?_
  · rintro m vm ⟨rfl, hc⟩
    exact ⟨hs, hc⟩
  · rintro vm rfl
    exact hs
  · exact fun vm h => h.elim

theorem processStoredMNotarization_spec (h₀ : s₀.WF A) (hrec : Handles A handleEvent) :
    Spec (At A s₀) (processStoredMNotarization fuel handleEvent v) (fun _ => At A s₀)
      (At A s₀) (Steps (A := A) s₀) := by
  refine spec_bind (spec_attempt getStored_spec) fun result => ?_
  match result with
  | .error _ => exact spec_pure fun _ hs => hs
  | .ok m =>
    refine spec_bind (Q := fun _ s => At A s₀ s ∧ s.Known A (.mNotarization m))
      (spec_modify ?_) fun _ => ?_
    · rintro s ⟨hat, c, hc, hm⟩
      exact ⟨hat.step (.note _), .inr ⟨v, c, m, hc, hm, rfl⟩⟩
    refine spec_bind (spec_settled (spec_attempt (processKnown_spec h₀))) fun result => ?_
    match result with
    | .error _ => exact spec_pure fun _ hs => hs
    | .ok event => exact hrec s₀ h₀ event

/-! ## The event handler -/

theorem nullifyCurrentAndRollback_spec {startView : Nat} :
    Spec (At A s₀) (nullifyCurrentAndRollback env startView)
      (fun r s => At A s₀ s ∧ r = s.currentView) (At A s₀) (At A s₀) := by
  refine spec_get_bind fun s hs => ?_
  refine spec_bind ((spec_attempt_same (nullifyView_spec
    (K := fun n => s.currentView = n))).weaken ?_ fun _ _ h => h) fun _ => ?_
  · rintro s' ⟨rfl, hat⟩
    exact ⟨hat.steps, hat.settledBut _, rfl, fun _ => rfl⟩
  refine spec_bind (spec_modify ?_) fun _ => spec_pure fun _ hs => hs
  rintro s' ⟨hat, hcur⟩
  have hsteps := rollback_steps (R := CtxStep (A.admits s'.signed) cfg.peers) s'.chain
    startView s.currentView
  exact ⟨hat.chainSteps hsteps, hcur.trans (Steps.currentView hsteps).symm⟩

/-- Relaying in front of something that needs the view to be entered. -/
theorem forward_spec {e : Nat × Hash P} : Spec (fun s => At A s₀ s ∧ e ∈ s.viewManager.entered)
      (createAndBroadcastMNotarization env v forward)
      (fun _ s => At A s₀ s ∧ e ∈ s.viewManager.entered) (At A s₀) (Steps (A := A) s₀) :=
  (createAndBroadcastMNotarization_spec (K := fun vm => e ∈ vm.entered)).conseq
    (fun _ hs => hs) (fun _ _ hs => hs) (fun _ hs => hs.1) fun _ hs => hs.steps

theorem forward_settled :
    Spec (At A s₀) (createAndBroadcastMNotarization env v forward) (fun _ => At A s₀)
      (At A s₀) (Steps (A := A) s₀) :=
  (createAndBroadcastMNotarization_spec (K := fun _ => True)).conseq
    (fun _ hs => ⟨hs, trivial⟩) (fun _ _ hs => hs.1) (fun _ hs => hs.1) fun _ hs => hs.steps

theorem relay_settled (hm : Relayed m) :
    Spec (At A s₀) (broadcastConsensusMessage env m) (fun _ => At A s₀) (At A s₀)
      (Steps (A := A) s₀) :=
  (relay_spec (K := fun _ => True) hm).conseq (fun _ hs => ⟨hs, trivial⟩) (fun _ _ hs => hs.1)
    (fun _ hs => hs.1) fun _ hs => hs.steps

theorem vote_settled :
    Spec (fun s => At A s₀ s ∧ s.VoteDue v h) (voteForBlock env v h) (fun _ => At A s₀)
      (At A s₀) (Steps (A := A) s₀) :=
  (voteForBlock_spec (K := fun _ => True)).conseq (fun _ hs => ⟨hs.1, hs.2, trivial⟩)
    (fun _ _ hs => hs.1) (fun _ hs => hs) fun _ hs => hs.steps

theorem nullify_settled :
    Spec (fun s => Steps (A := A) s₀ s ∧ s.SettledBut v) (nullifyView env v false)
      (fun _ => At A s₀) (At A s₀) (Steps (A := A) s₀) :=
  (nullifyView_spec (K := fun _ => True)).conseq
    (fun _ hs => ⟨hs.1, hs.2, trivial, fun h => by cases h⟩) (fun _ _ hs => hs.1)
    (fun _ hs => hs.1) fun _ hs => hs.steps

/-- What a way to go on needs. -/
def RestReady (rest : Rest P) (s : Replica P) : Prop :=
  match rest with
  | .progress view _ parent | .propose view parent => (view, parent) ∈ s.viewManager.entered
  | _ => True

theorem cascade_spec (h₀ : s₀.WF A) {startView : Nat} {broadcast : Bool} : Spec (At A s₀)
      (eventPrefix cfg.env (.shouldCascadeNullification startView broadcast))
      (fun rest s => At A s₀ s ∧ s.RestReady rest) (At A s₀) (Steps (A := A) s₀) := by
  refine spec_bind (spec_settled ((spec_attempt_same (forwardNullification_spec
    (K := fun _ => True))).weaken (fun _ hs => ⟨hs, trivial⟩) fun _ _ hs => hs.1)) fun _ => ?_
  refine spec_bind (spec_settled nullifyCurrentAndRollback_spec) fun currentView => ?_
  refine spec_bind (Q := fun _ s => At A s₀ s ∧ currentView = s.currentView ∧
      (startView, s.chain) ∈ s.cascades) (spec_modify ?_) fun _ => ?_
  · rintro s ⟨hat, hcur⟩
    exact ⟨hat.step (.cascade startView), hcur, mem_append_right _ mem_cons_self⟩
  refine spec_bind (Q := fun r s => At A s₀ s ∧
      s.RestReady (.progress (currentView + 1) r.1 r.2)) (spec_onManager ?_) fun r =>
    spec_pure fun _ hs => hs
  rintro s ⟨hat, rfl, hcascade⟩
  exact (progressAfterCascade_spec h₀ hat rfl ⟨_, hcascade⟩ s.viewManager rfl).conseq
    (fun _ _ h => h) (fun _ h => h) fun _ h => h.steps

variable {event : ViewProgressEvent P}

/-- The vote that an event casts is due. -/
theorem Promised.voteDue {vote : Nat × Hash P}
    (hp : Promised A s₀ event s) (h : eventVote event = some vote) : s.VoteDue vote.1 vote.2 := by
  cases event with
  | shouldVote | shouldVoteAndMNotarize | shouldVoteAndFinalize =>
    cases h
    exact hp.2
  | shouldVoteAndProgressToNextView =>
    cases h
    exact hp.2.1
  | _ => cases h

/-- Only `ShouldNullifyView` finds the replica unsettled. -/
theorem Promised.nullifies_or_at (hp : Promised A s₀ event s) :
    (∃ v, eventPart event = .nullify v) ∨ At A s₀ s := by
  cases event with
  | shouldNullifyView v => exact .inl ⟨v, rfl⟩
  | shouldVote | shouldVoteAndMNotarize | shouldVoteAndFinalize | shouldProposeBlock
  | progressToNextView | progressToNextViewOnNullification | shouldVoteAndProgressToNextView
  | broadcastConsensusMessage => exact .inr hp.1
  | _ => exact .inr hp

/-- **The part of an event before the recursion** only takes steps. -/
theorem eventPrefix_spec (h₀ : s₀.WF A) (event : ViewProgressEvent P) :
    Spec (Promised A s₀ event) (eventPrefix cfg.env event)
      (fun rest s => At A s₀ s ∧ s.RestReady rest) (At A s₀) (Steps (A := A) s₀) := by
  have hdone : Spec (At A s₀) (pure .done : Op P (Rest P))
      (fun rest s => At A s₀ s ∧ s.RestReady rest) (At A s₀) (Steps (A := A) s₀) :=
    spec_pure fun _ hs => ⟨hs, trivial⟩
  have hstored : ∀ {v : Nat}, Spec (At A s₀) (pure (.stored v) : Op P (Rest P))
      (fun rest s => At A s₀ s ∧ s.RestReady rest) (At A s₀) (Steps (A := A) s₀) :=
    spec_pure fun _ hs => ⟨hs, trivial⟩
  cases event with
  | noOp | await => exact spec_pure fun _ hs => ⟨hs, trivial⟩
  | shouldProposeBlock view parent => exact spec_pure fun _ hs => hs
  | shouldVote v h => exact spec_bind vote_settled fun _ => hdone
  | shouldMNotarize v h forward => exact spec_bind forward_settled fun _ => hstored
  | shouldFinalize v h => exact spec_bind (spec_settled (finalizeView_spec h₀)) fun _ => hdone
  | shouldNullify v =>
    refine spec_bind (nullify_settled.weaken ?_ fun _ _ hs => hs) fun _ => hdone
    exact fun _ hs => ⟨hs.steps, At.settledBut hs v⟩
  | shouldBroadcastNullification v =>
    refine spec_bind ?_ fun _ => hdone
    exact (broadcastNullification_spec (K := fun _ => True)).conseq (fun _ hs => ⟨hs, trivial⟩)
      (fun _ _ hs => hs.1) (fun _ hs => hs.1) fun _ hs => hs.steps
  | shouldVoteAndMNotarize v h forward =>
    exact spec_bind vote_settled fun _ => spec_bind forward_settled fun _ => hstored
  | shouldVoteAndFinalize v h =>
    exact spec_bind vote_settled fun _ =>
      spec_bind (spec_settled (finalizeView_spec h₀)) fun _ => hdone
  | progressToNextView newView leader parent forward =>
    exact spec_bind forward_spec fun _ => spec_pure fun _ hs => hs
  | shouldVoteAndProgressToNextView v h newView leader forward =>
    refine spec_bind (spec_settled (voteForBlock_spec (K := fun l => (newView, h) ∈ l))) fun _ => ?_
    exact spec_bind forward_spec fun _ => spec_pure fun _ hs => hs
  | progressToNextViewOnNullification newView leader parent broadcast =>
    refine spec_bind (Q := fun _ s => At A s₀ s ∧ (newView, parent) ∈ s.viewManager.entered)
      ?_ fun _ => spec_pure fun _ hs => hs
    exact (forwardNullification_spec (K := fun vm => (newView, parent) ∈ vm.entered)).conseq
      (fun _ hs => hs) (fun _ _ hs => hs) (fun _ hs => hs.1) fun _ hs => hs.steps
  | shouldUpdateView newView leader => exact spec_pure fun _ hs => ⟨hs, trivial⟩
  | shouldNullifyView v => exact spec_bind nullify_settled fun _ => hdone
  | broadcastConsensusMessage m =>
    refine spec_bind (Q := fun _ => At A s₀) ?_ fun _ => hdone
    exact fun s hs => relay_settled hs.2 s hs.1
  | shouldCascadeNullification startView broadcast => exact cascade_spec h₀
  | shouldNullifyRange startView =>
    exact spec_bind (spec_settled nullifyCurrentAndRollback_spec) fun _ =>
      spec_pure fun _ hs => ⟨hs.1, trivial⟩
  | shouldRequestBlock v h => exact spec_bind (relay_settled trivial) fun _ => hdone
  | shouldRequestBlocks requests =>
    refine spec_bind (spec_forM fun r _ => ?_) fun _ => hdone
    exact spec_bind (spec_attempt_same (relay_settled trivial)) fun _ =>
      spec_pure fun _ hs => hs

theorem runRest_spec (h₀ : s₀.WF A) (hrec : Handles A handleEvent) (rest : Rest P) :
    Spec (fun s => At A s₀ s ∧ s.RestReady rest) (runRest cfg.env fuel handleEvent rest)
      (fun _ => At A s₀) (At A s₀) (Steps (A := A) s₀) := by
  cases rest with
  | done => exact spec_pure fun _ hs => hs.1
  | stored v =>
    exact (processStoredMNotarization_spec h₀ hrec).weaken (fun _ hs => hs.1) fun _ _ hs => hs
  | progress view leader parent => exact progressToNextViewWith_spec h₀ hrec
  | propose view parent => exact proposeBlockWith_spec h₀ hrec

theorem handleEventWith_spec (hrec : Handles A handleEvent) :
    Handles A (handleEventWith cfg.env fuel handleEvent) := by
  intro s₀ h₀ event
  rw [handleEventWith_eq]
  exact spec_bind (eventPrefix_spec h₀ event) fun rest => runRest_spec h₀ hrec rest

/-- **The event handler only takes steps**, by induction on the fuel. -/
theorem handleEvent_handles : ∀ fuel, Handles A (Replica.handleEvent cfg.env fuel)
  | 0 => by
    intro s₀ h₀ event
    refine spec_exhausted fun s hs => ?_
    cases event with
    | shouldNullifyView v => exact hs.1
    | noOp | await | shouldMNotarize | shouldFinalize | shouldNullify
    | shouldBroadcastNullification | shouldUpdateView | shouldCascadeNullification
    | shouldNullifyRange | shouldRequestBlock | shouldRequestBlocks => exact hs.steps
    | _ => exact hs.1.steps
  | fuel + 1 => handleEventWith_spec (handleEvent_handles fuel)

/-- **Handling a message takes steps** and, unless it panics, ends in a
settled replica. -/
theorem handleConsensusMessage_spec (h₀ : s₀.WF A) {fuel : Nat} :
    Spec (fun s => At A s₀ s ∧ A.admits s.signed m) (handleConsensusMessage cfg.env fuel m)
      (fun _ => At A s₀) (At A s₀) (Steps (A := A) s₀) :=
  handleConsensusMessageWith_spec h₀ (handleEvent_handles fuel)

/-- **A tick takes steps** and, unless it panics, ends in a settled
replica. -/
theorem handleTick_spec (h₀ : s₀.WF A) {fuel : Nat} :
    Spec (At A s₀) (handleTick cfg.env fuel) (fun _ => At A s₀) (At A s₀) (Steps (A := A) s₀) := by
  refine spec_bind (Q := fun _ => At A s₀) ?_ fun now => ?_
  · exact fun s hat => hat.step .ask
  refine spec_bind (Q := fun event => Promised A s₀ event) (spec_onManager ?_)
    fun event => handleEvent_handles fuel s₀ h₀ event
  intro s hat
  exact (tick_spec h₀ s.viewManager hat).conseq (fun _ _ h => h) (fun _ h => h) fun _ h => h.steps

end Replica

end Minimmit
