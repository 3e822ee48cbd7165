/-
Minimmit.Consensus.ChainFunctions — routing and proposals only compose chain
steps.

One triple per function of the chain that takes a message or a block. They
all start from a `Ready` chain; since chain steps keep `Ready`, the caller
has it again afterwards.
-/
import Minimmit.Consensus.ChainSteps

namespace Minimmit

open Minimmit.Library Act Relation ViewContext List Option ViewChain ViewProgressManager

variable {P : Params}

namespace ViewChain

variable {adm : ConsensusMessage P → Prop} {peers : PeerSet P} {replicaId : Nat} {v : Nat}
  {c : ViewContext P} {s s₀ : ViewChain P} {E X : ViewChain P → Prop} {b : Block P}
  {R : ViewContext P → ViewContext P → Prop} {seen : List (Nat × ViewContext P)}
  {best : Option (Nat × Hash P)}

/-! ## Votes and nullify messages -/

theorem routeVote_spec {v : Vote P} (ha : adm (.vote v)) : Spec (· = s₀) (routeVote v peers)
      (fun r s => Steps (CtxStep adm peers) s₀ s ∧ (r.shouldVote = true → r.shouldAwait = true))
      (Steps (CtxStep adm peers) s₀) (Steps (CtxStep adm peers) s₀) := by
  rintro s rfl
  refine routeVote_rule .refl ⟨.refl, fun h => nomatch h⟩ fun c hc hlive => ?_
  have hn : c.hasNullified = false := (Bool.or_eq_false_iff.mp hlive).2
  have hlift : ∀ {c'}, ReflTransGen (CtxStep adm peers) c c' →
      Steps (CtxStep adm peers) s (s.setContext v.view c') := steps_of_context ctxStep_refl hc
  refine (addVote_spec ha hn c rfl).conseq ?_ ?_ ?_
  · exact fun r c' h => ⟨hlift h.1, h.2⟩
  · exact fun c' => hlift
  · exact fun c' => hlift

theorem routeNullify_spec {n : Nullify P} (ha : adm (.nullify n)) :
    Spec (· = s₀) (routeNullify n peers) (fun _ => Steps (CtxStep adm peers) s₀)
      (Steps (CtxStep adm peers) s₀) (Steps (CtxStep adm peers) s₀) := by
  rintro s rfl
  refine routeNullify_rule .refl .refl fun c hc => ?_
  have hlift : ∀ c', ReflTransGen (CtxStep adm peers) c c' →
      Steps (CtxStep adm peers) s (s.setContext n.view c') :=
    fun _ => steps_of_context ctxStep_refl hc
  exact (addNullify_spec ha c rfl).conseq (fun _ => hlift) hlift hlift

/-! ## Certificates -/

/-- Either the certificate is now known to the view, or a nullify message is
asked for. -/
theorem routeMNotarization_spec {m : MNotarization P}
    (ha : ∀ c, s₀.findViewContext m.view = some c → c.mNotarization = none →
      adm (.mNotarization m)) (hs : s₀.WF peers replicaId) :
    Spec (· = s₀) (routeMNotarization m peers)
      (fun r s => r.shouldAwait = false ∧
        ((r.shouldNullify = false ∧ Steps (CtxStep adm peers) s₀ s ∧
          (∀ c, s.findViewContext m.view = some c →
            ∃ m', c.mNotarization = some m' ∧ m'.blockHash = m.blockHash) ∧
          (r.shouldVote = true →
            ∀ c, s.findViewContext m.view = some c → c.VoteReady m.blockHash)) ∨
        (r.shouldNullify = true ∧ (Steps (CtxStep adm peers) s₀ s ∨
          ∃ c c', s₀.findViewContext m.view = some c ∧ HashOnlyStep adm peers c c' ∧
            s = s₀.setContext m.view c'))))
      (Steps (CtxStep adm peers) s₀) (Steps (CtxStep adm peers) s₀) := by
  rintro s rfl
  refine routeMNotarization_rule (E := Steps (CtxStep adm peers) s) .refl (fun hnone => ?_) fun c hc => ?_
  · exact ⟨rfl, .inl ⟨rfl, .refl, fun c hc => (nomatch hnone.symm.trans hc), fun h => nomatch h⟩⟩
  have hsame : Steps (CtxStep adm peers) s (s.setContext m.view c) :=
    steps_of_context ctxStep_refl hc .refl
  refine (addMNotarization_spec (ha c hc) (hs.context _ _ hc) c rfl).conseq ?_ ?_ ?_
  · rintro r c' ⟨hawait, ⟨hnull, hsteps, hm, hvote⟩ | ⟨hnull, rfl | hdirty⟩⟩
    · have hfind : ∀ c'', (s.setContext m.view c').findViewContext m.view = some c'' →
          c' = c'' := by
        intro c'' hc''
        rw [findViewContext_setContext_self] at hc''
        exact some.inj hc''
      refine ⟨hawait, .inl ⟨hnull, steps_of_context ctxStep_refl hc hsteps, ?_, ?_⟩⟩
      · intro c'' hc''
        obtain rfl := hfind c'' hc''
        exact hm
      · intro h c'' hc''
        obtain rfl := hfind c'' hc''
        exact hvote h
    · exact ⟨hawait, .inr ⟨hnull, .inl hsame⟩⟩
    · exact ⟨hawait, .inr ⟨hnull, .inr ⟨c, c', hc, hdirty, rfl⟩⟩⟩
  · rintro c' rfl
    exact hsame
  · rintro c' rfl
    exact hsame

theorem routeNullification_spec {n : Nullification P} (ha : adm (.nullification n)) :
    Spec (· = s₀) (routeNullification n peers)
      (fun _ s => Steps (CtxStep adm peers) s₀ s ∧
        ∃ c, s.findViewContext n.view = some c ∧ c.nullification.isSome)
      (Steps (CtxStep adm peers) s₀) (Steps (CtxStep adm peers) s₀) := by
  rintro s rfl
  refine routeNullification_rule .refl fun c hc => ?_
  have hlift : ∀ {c'}, ReflTransGen (CtxStep adm peers) c c' →
      Steps (CtxStep adm peers) s (s.setContext n.view c') := steps_of_context ctxStep_refl hc
  refine (addNullification_spec ha c rfl).conseq ?_ ?_ ?_
  · exact fun _ c' h => ⟨hlift h.1, c', findViewContext_setContext_self .., h.2⟩
  · rintro c' rfl
    exact hlift .refl
  · rintro c' rfl
    exact hlift .refl

/-! ## Blocks -/

theorem addRecoveredBlock_spec (ha : adm (.blockRecoveryResponse v b))
    (hs : s₀.Ready adm peers replicaId) :
    Spec (· = s₀) (addRecoveredBlock v b) (fun _ => Steps (CtxStep adm peers) s₀)
      (· = s₀) (· = s₀) := by
  rintro s rfl
  refine addRecoveredBlock_rule rfl .refl fun c hc hnone hh => ?_
  have hanchor : c.mNotarization.isSome ∨ c.hasNullified = true := by
    rcases hs.settled v c hc b.getHash hh with hsome | hrest
    · rw [hnone] at hsome
      cases hsome
    · exact hrest
  have hview := hs.wf.viewNumber v c hc
  have hstep : CtxStep adm peers c { c with block := some b } :=
    .recover (by rw [hview]; exact ha) hnone hh hanchor
  exact ReflTransGen.single (.context hc hstep)

@[simp] theorem findViewContext_onMNotarization (s : ViewChain P) (v w : Nat) :
    (s.onMNotarization v).findViewContext w = s.findViewContext w := by
  unfold onMNotarization
  split
  · split <;> rfl
  · rfl

@[simp] theorem currentView_onMNotarization (s : ViewChain P) (v : Nat) :
    (s.onMNotarization v).currentView = s.currentView := by
  unfold onMNotarization
  split
  · split <;> rfl
  · rfl

theorem onMNotarization_steps (s : ViewChain P) (v : Nat) : Steps R s (s.onMNotarization v) := by
  unfold onMNotarization
  split
  case h_2 => exact .refl
  case h_1 c hc =>
    split
    case h_1 m d hm hd => exact .single (.publish hc (by rw [hm]; rfl) hd)
    case h_2 => exact .refl

theorem rollback_steps (s : ViewChain P) (a b : Nat) :
    Steps R s (s.rollbackPendingDiffsInRange a b) := by
  unfold rollbackPendingDiffsInRange
  induction viewRange a b generalizing s with
  | nil => exact .refl
  | cons v vs ih => exact ReflTransGen.head (.drop v) (ih _)

/-- A proposal moves contexts by block steps only; when it asks for a vote
the vote is due in the view of the proposal. -/
theorem addBlockProposal_spec {d : StateDiff P} (ha : adm (.blockProposal b))
    (hs : s₀.Ready adm peers replicaId) :
    Spec (· = s₀) (addBlockProposal v b d peers)
      (fun r s => Steps (BlockStep adm peers) s₀ s ∧ r.blockHash = b.getHash ∧
        (r.shouldVote = true → ∀ c, s.findViewContext v = some c → c.VoteReady b.getHash))
      (Steps (BlockStep adm peers) s₀) (Steps (BlockStep adm peers) s₀) := by
  rintro s rfl
  refine addBlockProposal_rule .refl (fun c hc hblock _ _ => ?_) fun c hc _ _ _ => ?_
  · -- the parent is not M-notarized yet: the block waits
    have hawait : BlockStep adm peers c { c with pendingBlock := some b, stateDiff := some d } :=
      .await d ha hblock
    exact ⟨.single (.context hc hawait), rfl, fun h => nomatch h⟩
  · have hlift : ∀ {c'}, ReflTransGen (BlockStep adm peers) c c' →
        Steps (BlockStep adm peers) s ((s.setContext v c').onMNotarization v) :=
      fun h => (steps_of_context (fun _ => .same) hc h).trans (onMNotarization_steps _ v)
    refine (addNewViewBlock_spec ha (hs.wf.context v c hc) (hs.settled v c hc) c rfl).conseq
      ?_ ?_ ?_
    · rintro r c' ⟨hsteps, hhash, -, hvote⟩
      refine ⟨hlift hsteps, hhash, fun h c'' hc'' => ?_⟩
      rw [findViewContext_onMNotarization, findViewContext_setContext_self] at hc''
      obtain rfl := some.inj hc''
      exact hvote h
    · rintro c' rfl
      exact hlift .refl
    · rintro c' rfl
      exact hlift .refl

/-! ## Waiting children -/

theorem mem_iter : (v, c) ∈ s.iter ↔ s.findViewContext v = some c := by
  unfold iter findViewContext
  rw [(P.hashOrder.perm _ _ _).mem_iff, ← mem_def, AList.mem_lookup_iff]
  constructor
  · intro h
    obtain ⟨e, he, heq⟩ := mem_map.mp h
    obtain ⟨rfl, rfl⟩ := Prod.mk.inj heq
    exact he
  · intro h
    exact mem_map.mpr ⟨⟨v, c⟩, h, rfl⟩

theorem iter_keys_nodup (s : ViewChain P) : (s.iter.map (·.1)).Nodup := by
  unfold iter
  refine ((P.hashOrder.perm _ _ _).map Prod.fst).nodup_iff.mpr ?_
  rw [List.map_map]
  exact s.nonFinalizedViews.nodupKeys

/-- Taking the waiting block of a context is a block step. -/
theorem takePending_step (c : ViewContext P) : BlockStep adm peers c (takePending c).2 := by
  unfold takePending
  split
  case h_1 => exact .same
  case h_2 b hb => exact .take (by rw [hb]; rfl)

theorem takePending_block {d : StateDiff P} {c' : ViewContext P}
    (h : takePending c = (some (b, d), c')) : c.pendingBlock = some b := by
  unfold takePending at h
  split at h
  case h_1 => cases h
  case h_2 b₀ hb₀ =>
    obtain ⟨d₀, -, heq⟩ := map_eq_some_iff.mp (Prod.mk.inj h).1
    rw [hb₀, (Prod.mk.inj heq).1]

/-- What one pass of the loop does to a property `p` of the chain, for the
peers it verifies with. `fits v b` is what is known of a block that is about
to be proposed for view `v`. -/
structure LoopRule (peers : PeerSet P) (p : ViewChain P → Prop)
    (fits : Nat → Block P → ViewChain P → Prop) : Prop where
  take : ∀ {s v c}, s.findViewContext v = some c → p s → p (s.setContext v (takePending c).2)
  taken : ∀ {s v c b}, s.findViewContext v = some c → c.pendingBlock = some b → p s → fits v b s
  takeFits : ∀ {s v c w b}, s.findViewContext v = some c → fits w b s →
    fits w b (s.setContext v (takePending c).2)
  propose : ∀ {s v b d}, p s → fits v b s → p (addBlockProposal v b d peers s).2
  proposeFits : ∀ {s v b d w b'}, fits w b' s → fits w b' (addBlockProposal v b d peers s).2

/-- One entry of the loop in `collectPending`. -/
abbrev takeInto (acc : List (Nat × Block P × StateDiff P) × ViewChain P)
    (e : Nat × ViewContext P) : List (Nat × Block P × StateDiff P) × ViewChain P :=
  match takePending e.2 with
  | (some (block, d), c) => (acc.1 ++ [(e.1, block, d)], acc.2.setContext e.1 c)
  | (none, c) => (acc.1, acc.2.setContext e.1 c)

namespace LoopRule

variable {p : ViewChain P → Prop} {fits : Nat → Block P → ViewChain P → Prop}

variable (r : LoopRule peers p fits)

include r

/-- The loop that takes the waiting blocks. Every entry still to come is the
held context of its view, since the keys are distinct. -/
theorem collect {entries : List (Nat × ViewContext P)}
    (hnodup : (entries.map (·.1)).Nodup) {acc : List (Nat × Block P × StateDiff P)} (hp : p s)
    (hentries : ∀ e ∈ entries, s.findViewContext e.1 = some e.2)
    (hacc : ∀ e ∈ acc, fits e.1 e.2.1 s) :
    let r := entries.foldl takeInto (acc, s)
    p r.2 ∧ ∀ e ∈ r.1, fits e.1 e.2.1 r.2 := by
  induction entries generalizing acc s with
  | nil => exact ⟨hp, hacc⟩
  | cons e entries ih =>
    obtain ⟨hnew, hnodup⟩ := nodup_cons.mp hnodup
    have hfind := hentries e mem_cons_self
    have hp' := r.take hfind hp
    have hrest : ∀ e' ∈ entries,
        (s.setContext e.1 (takePending e.2).2).findViewContext e'.1 = some e'.2 := by
      intro e' he'
      have hne : e'.1 ≠ e.1 := fun heq => hnew (mem_map.mpr ⟨e', he', heq⟩)
      rw [findViewContext_setContext_ne s _ hne]
      exact hentries e' (mem_cons_of_mem e he')
    have hacc' : ∀ e' ∈ acc, fits e'.1 e'.2.1 (s.setContext e.1 (takePending e.2).2) :=
      fun e' he' => r.takeFits hfind (hacc e' he')
    simp only [foldl_cons, takeInto]
    rcases hr : takePending e.2 with ⟨_ | ⟨b, d⟩, c'⟩
    · rw [hr] at hp' hrest hacc'
      exact ih hnodup hp' hrest hacc'
    have hfits := r.takeFits hfind (r.taken hfind (takePending_block hr) hp)
    rw [hr] at hp' hrest hacc' hfits
    refine ih hnodup hp' hrest fun e' he' => ?_
    rcases mem_append.mp he' with he' | he'
    · exact hacc' e' he'
    · obtain rfl := mem_singleton.mp he'
      exact hfits

theorem proposePending (pending : List (Nat × Block P × StateDiff P)) :
    Spec (fun s => p s ∧ ∀ e ∈ pending, fits e.1 e.2.1 s)
      (proposePending peers pending) (fun _ => p) p p := by
  induction pending with
  | nil => exact spec_pure fun _ hs => hs.1
  | cons e rest ih =>
    obtain ⟨v, b, d⟩ := e
    have hone : Maintains (fun s => p s ∧ ∀ e ∈ (v, b, d) :: rest, fits e.1 e.2.1 s)
        (addBlockProposal v b d peers) := by
      intro s hs
      exact ⟨r.propose hs.1 (hs.2 _ mem_cons_self), fun e he => r.proposeFits (hs.2 e he)⟩
    refine spec_bind (hone.spec.conseq (fun _ hs => hs) (fun _ _ hs => hs) (fun _ hs => hs.1)
      fun _ hs => hs.1) fun _ => ?_
    refine spec_bind (ih.weaken ?_ fun _ _ hs => hs) fun _ => spec_pure fun _ hs => hs
    exact fun _ hs => ⟨hs.1, fun e he => hs.2 e (mem_cons_of_mem _ he)⟩

theorem processPendingChildProposals (v : Nat) :
    Maintains p (processPendingChildProposals v peers) := by
  intro s hs
  have hcollect : p (s.collectPending v).2 ∧
      ∀ e ∈ (s.collectPending v).1, fits e.1 e.2.1 (s.collectPending v).2 :=
    r.collect ((s.iter_keys_nodup).sublist (filter_sublist.map _)) hs
      (fun e he => mem_iter.mp (mem_filter.mp he).1) fun e he => absurd he not_mem_nil
  exact ends_iff_state.mp (r.proposePending _ _ hcollect)

theorem pendingPass (views : List Nat) : Maintains p (pendingPass peers views) := by
  induction views with
  | nil => exact maintains_pure _
  | cons v views ih =>
    exact maintains_bind (r.processPendingChildProposals v) fun _ =>
      maintains_bind ih fun _ => maintains_pure _

/-- **The loop over the waiting blocks** keeps what one pass keeps, and moves
only the chain. -/
theorem processAllPendingBlocks (fuel : Nat)
    {vm₀ : ViewProgressManager P} (hpeers : vm₀.peers = peers) :
    Maintains (fun vm => ∃ chain, vm = { vm₀ with viewChain := chain } ∧ p chain)
      (processAllPendingBlocks fuel) := by
  induction fuel with
  | zero => exact maintains_exhausted
  | succ fuel ih =>
    refine maintains_get_bind fun vm hvm => maintains_bind ?_ fun _ =>
      maintains_ite ih (maintains_pure _)
    obtain ⟨chain, rfl, -⟩ := hvm
    rintro _ ⟨chain, rfl, hp⟩
    exact ⟨_, rfl, hpeers ▸ r.pendingPass _ chain hp⟩

end LoopRule

/-- From a ready chain the loop takes block steps. -/
theorem Ready.loopRule (hs : s₀.Ready adm peers replicaId) :
    LoopRule peers (Steps (BlockStep adm peers) s₀) fun _ b _ => adm (.blockProposal b) where
  take hc h := h.tail (.context hc (takePending_step _))
  taken hc hb h := (hs.steps (Steps.ofBlock h)).pending _ _ _ hc hb
  takeFits _ h := h
  propose h ha := ends_iff_state.mp ((addBlockProposal_spec ha (hs.steps (Steps.ofBlock h)) _
    rfl).conseq (fun _ _ h' => h.trans h'.1) (fun _ h' => h.trans h') fun _ h' => h.trans h')
  proposeFits h := h

/-! ## The parent of the next view -/

/-- The views `select_parent` chooses from. -/
def Candidate (newView : Nat) (e : Nat × ViewContext P) : Prop :=
  e.2.isNullified = false ∧ e.1 < newView ∧ e.2.mNotarization.isSome

/-- The body of the fold of `select_parent`. -/
def selectStep (newView : Nat) (best : Option (Nat × Hash P)) (e : Nat × ViewContext P) :
    Option (Nat × Hash P) :=
  if e.2.isNullified then best
  else if e.1 < newView then
    match e.2.mNotarization, best with
    | some m, none => some (e.1, m.blockHash)
    | some m, some (prev, h) => if prev < e.1 then some (e.1, m.blockHash) else some (prev, h)
    | none, best => best
  else best

/-- What the fold has chosen from the entries it has seen. -/
def Selected (newView : Nat) (seen : List (Nat × ViewContext P)) :
    Option (Nat × Hash P) → Prop
  | none => ∀ e ∈ seen, ¬ Candidate newView e
  | some (v, h) => (∃ e ∈ seen, e.1 = v ∧ Candidate newView e ∧
      ∃ m, e.2.mNotarization = some m ∧ m.blockHash = h) ∧
      ∀ e ∈ seen, Candidate newView e → e.1 ≤ v

/-- An entry that is not chosen from. -/
theorem Selected.skip {newView : Nat} {e : Nat × ViewContext P} (h : Selected newView seen best)
    (he : ¬ Candidate newView e) : Selected newView (seen ++ [e]) best := by
  have hcases : ∀ x ∈ seen ++ [e], Candidate newView x → x ∈ seen := by
    intro x hx hcand
    rcases mem_append.mp hx with hx | hx
    · exact hx
    · rw [mem_singleton.mp hx] at hcand
      exact absurd hcand he
  match best, h with
  | none, h => exact fun x hx hcand => h x (hcases x hx hcand) hcand
  | some (v, hash), ⟨⟨x, hx, hrest⟩, hmax⟩ =>
    exact ⟨⟨x, mem_append_left _ hx, hrest⟩,
      fun y hy hcand => hmax y (hcases y hy hcand) hcand⟩

theorem Selected.step {newView : Nat} (h : Selected newView seen best) (e : Nat × ViewContext P) :
    Selected newView (seen ++ [e]) (selectStep newView best e) := by
  unfold selectStep
  split
  case isTrue hnull => exact h.skip fun hcand => Bool.false_ne_true (hcand.1.symm.trans hnull)
  case isFalse hnull =>
    split
    case isFalse hlt => exact h.skip fun hcand => hlt hcand.2.1
    case isTrue hlt =>
      have hcand : ∀ {m}, e.2.mNotarization = some m → Candidate newView e :=
        fun hm => ⟨by simpa using hnull, hlt, by rw [hm]; rfl⟩
      have hmem : e ∈ seen ++ [e] := mem_append_right _ mem_cons_self
      split
      case h_1 m hm =>
        refine ⟨⟨e, hmem, rfl, hcand hm, m, hm, rfl⟩, fun x hx hx' => ?_⟩
        rcases mem_append.mp hx with hx | hx
        · exact absurd hx' (h x hx)
        · rw [mem_singleton.mp hx]
      case h_2 m prev hash hm =>
        obtain ⟨⟨x, hx, hxv, hxc⟩, hmax⟩ := h
        split
        case isTrue hgt =>
          refine ⟨⟨e, hmem, rfl, hcand hm, m, hm, rfl⟩, fun y hy hy' => ?_⟩
          rcases mem_append.mp hy with hy | hy
          · exact (hmax y hy hy').trans hgt.le
          · rw [mem_singleton.mp hy]
        case isFalse hle =>
          refine ⟨⟨x, mem_append_left _ hx, hxv, hxc⟩, fun y hy hy' => ?_⟩
          rcases mem_append.mp hy with hy | hy
          · exact hmax y hy hy'
          · rw [mem_singleton.mp hy]
            exact Nat.not_lt.mp hle
      case h_3 hm =>
        refine h.skip fun hcand => ?_
        have hsome := hcand.2.2
        rw [hm] at hsome
        cases hsome

theorem selected_foldl (newView : Nat) (entries : List (Nat × ViewContext P)) :
    Selected newView entries (entries.foldl (selectStep newView) none) := by
  induction entries using reverseRecOn with
  | nil => exact fun _ he => nomatch he
  | append_singleton entries e ih =>
    rw [foldl_append]
    exact ih.step e

/-- **What `select_parent` returns**: the certified hash of the greatest held
view below the new one that is certified and not nullified, or the last
committed hash if there is none. -/
theorem selectParent_cases (s : ViewChain P) (newView : Nat) :
    (s.selectParent newView = s.previouslyCommittedBlockHash ∧
      ∀ v c, s.findViewContext v = some c → ¬ Candidate newView (v, c)) ∨
    ∃ v c m, s.findViewContext v = some c ∧ Candidate newView (v, c) ∧
      c.mNotarization = some m ∧ s.selectParent newView = m.blockHash ∧
      ∀ w d, s.findViewContext w = some d → Candidate newView (w, d) → w ≤ v := by
  have hsel := selected_foldl newView s.iter
  have heq : s.selectParent newView =
      ((s.iter.foldl (selectStep newView) none).map (·.2)).getD s.previouslyCommittedBlockHash :=
    rfl
  rw [heq]
  rcases hr : s.iter.foldl (selectStep newView) none with _ | ⟨v, h⟩
  · rw [hr] at hsel
    exact .inl ⟨rfl, fun v c hc => hsel (v, c) (mem_iter.mpr hc)⟩
  · rw [hr] at hsel
    obtain ⟨⟨⟨v', c⟩, he, rfl, hcand, m, hm, rfl⟩, hmax⟩ := hsel
    exact .inr ⟨v', c, m, mem_iter.mp he, hcand, hm, rfl,
      fun w d hd => hmax (w, d) (mem_iter.mpr hd)⟩

end ViewChain

end Minimmit
