/-
Minimmit.Consensus.WaitingTheorems — when the loop over the waiting blocks
ends.

`process_all_pending_blocks` goes over the M-notarized views and proposes the
blocks that wait above each of them again, until a round takes nothing. A
block that is put straight back counts as taken. So the loop never ends on a
chain on which a block waits above an M-notarized view for a parent that stays
without a certificate (`Stuck`, `pending_blocks_loop`); and it ends after two
rounds if every parent that is waited for has its certificate
(`ParentsSettled`, `pending_blocks_settle`).

A replica gets stuck without a faulty party: a cascade takes it past a view
that it leaves with its own nullify message only, and every message for such
a view is rejected from then on.
-/
import Minimmit.Consensus.WaitingSteps
import Minimmit.Consensus.CollectionTheorems

namespace Minimmit

open Minimmit.Library Act Relation ViewContext ViewProgressManager List Option

variable {P : Params}

namespace ViewChain

variable {s s' : ViewChain P} {v w : Nat} {b : Block P} {views : List Nat}

/-! ## Settled parents -/

/-- The block waits above an M-notarized view. -/
def Awaited (s : ViewChain P) (w : Nat) (b : Block P) : Prop :=
  ∃ v m c, s.findViewContext v = some m ∧ m.mNotarization.isSome = true ∧ v < w ∧
    s.findViewContext w = some c ∧ c.pendingBlock = some b

/-- The hash is the one of the context, or of the block that waits there. -/
def Names (c : ViewContext P) (h : Hash P) : Prop :=
  c.blockHash = some h ∨ ∃ b, c.pendingBlock = some b ∧ b.getHash = h

/-- For every block that waits above an M-notarized view: every held view with
the hash of its parent has an M-notarization or a nullification. -/
def ParentsSettled (s : ViewChain P) : Prop :=
  ∀ w b, s.Awaited w b → ∀ u p, s.findViewContext u = some p → Names p b.parentBlockHash →
    p.mNotarization.isSome = true ∨ p.nullification.isSome = true

/-- From `c` to `c'` a waiting block was taken or stored. -/
structure Settles (c c' : ViewContext P) : Prop where
  mNotarization : c'.mNotarization = c.mNotarization
  nullification : c'.nullification = c.nullification
  names : ∀ h, c'.blockHash = some h → Names c h
  pending : c'.pendingBlock = none ∨ c'.pendingBlock = c.pendingBlock

theorem Settles.refl (c : ViewContext P) : Settles c c :=
  ⟨rfl, rfl, fun _ h => .inl h, .inr rfl⟩

/-- The same of the whole chain. -/
def Evolves (s s' : ViewChain P) : Prop :=
  (∀ u p', s'.findViewContext u = some p' → ∃ p, s.findViewContext u = some p ∧ Settles p p') ∧
    ∀ u p, s.findViewContext u = some p → ∃ p', s'.findViewContext u = some p'

theorem Evolves.refl (s : ViewChain P) : Evolves s s :=
  ⟨fun _ p h => ⟨p, h, .refl p⟩, fun _ p h => ⟨p, h⟩⟩

/-- **A block that is ready does not wait again.** -/
theorem ParentsSettled.proposalParent_ne (hs : s.ParentsSettled) (he : Evolves s s')
    (hw : s.Awaited w b) : s'.proposalParent w b ≠ .ok true := by
  intro hwaits
  unfold proposalParent at hwaits
  rcases hu : s'.findParentView b.parentBlockHash with _ | u
  · simp only [hu] at hwaits
    split at hwaits <;> cases hwaits
  obtain ⟨p', hp', hhash⟩ := findParentView_find hu
  obtain ⟨p, hp, hsettles⟩ := he.1 u p' hp'
  simp only [hu, hp'] at hwaits
  have hcert := hs w b hw u p hp (hsettles.names _ hhash)
  rw [← hsettles.mNotarization, ← hsettles.nullification] at hcert
  split at hwaits
  · cases hwaits
  rename_i hnull
  split at hwaits
  · cases hwaits
  · have hm := hcert.resolve_right hnull
    rw [Except.ok.injEq, isNone_iff_eq_none] at hwaits
    rw [hwaits] at hm
    cases hm

/-- One context of the chain settles further. -/
theorem Evolves.update {s'' : ViewChain P} (he : Evolves s s') {c : ViewContext P}
    (hc : s'.findViewContext w = some c) {c'' : ViewContext P}
    (hc'' : ∀ p, s.findViewContext w = some p → Settles p c → Settles p c'')
    (hs'' : ∀ u, s''.findViewContext u = (s'.setContext w c'').findViewContext u) :
    Evolves s s'' := by
  refine ⟨fun u p' hp' => ?_, fun u p hp => ?_⟩
  · rw [hs''] at hp'
    rcases findViewContext_setContext_cases hp' with ⟨rfl, rfl⟩ | ⟨-, hold⟩
    · obtain ⟨p, hp, hsettles⟩ := he.1 u c hc
      exact ⟨p, hp, hc'' p hp hsettles⟩
    · exact he.1 u p' hold
  · rw [hs'']
    by_cases hu : u = w
    · exact ⟨c'', by rw [hu, findViewContext_setContext_self]⟩
    · obtain ⟨p', hp'⟩ := he.2 u p hp
      exact ⟨p', by rw [findViewContext_setContext_ne s' c'' hu, hp']⟩

/-- Nothing waits above `v`. -/
def NoneAbove (s : ViewChain P) (v : Nat) : Prop :=
  ∀ w c, v < w → s.findViewContext w = some c → c.pendingBlock = none

/-- The chain during a round that started at `s`: nothing waits above the
views that were looked at. -/
def Emptied (s : ViewChain P) (done : Nat → Prop) (s' : ViewChain P) : Prop :=
  Evolves s s' ∧ ∀ v, done v → s'.NoneAbove v

theorem Emptied.propose {done : Nat → Prop} (hs : s.ParentsSettled) (h : Emptied s done s')
    (hw : s.Awaited w b) (d : StateDiff P) (peers : PeerSet P) :
    EndsBy (addBlockProposal w b d peers s') (fun _ => Emptied s done) (fun _ => True)
      fun _ _ => False := by
  have hcall := addBlockProposal_proposal peers s' w b d
  generalize addBlockProposal w b d peers s' = r at hcall
  cases hcall with
  | refused => trivial
  | waits _ hparent => exact absurd hparent (hs.proposalParent_ne h.1 hw)
  | @enters c c' r s'' hc hpending hadd hsame =>
    have hnone : c'.pendingBlock = none := by
      rcases addNewViewBlock_ok hadd with ⟨rfl, -⟩ | ⟨-, -, -, -, -, hkeep⟩
      · exact hpending
      · exact hkeep.trans hpending
    refine ⟨h.1.update hc (fun p hp hsettles => ?_) hsame, fun v hv u e hlt he => ?_⟩
    · rcases addNewViewBlock_ok hadd with ⟨rfl, -⟩ | ⟨hhash, -, -, hm, hn, -⟩
      · exact hsettles
      refine ⟨hm.trans hsettles.mNotarization, hn.trans hsettles.nullification, fun x hx => ?_,
        .inl hnone⟩
      -- the stored block is the one that waited
      obtain ⟨_, _, p₀, -, -, -, hp₀, hpend⟩ := hw
      obtain rfl := some.inj (hp₀.symm.trans hp)
      rw [hhash, some.injEq] at hx
      exact .inr ⟨b, hpend, hx⟩
    · rw [hsame] at he
      rcases findViewContext_setContext_cases he with ⟨rfl, rfl⟩ | ⟨-, hold⟩
      · exact hnone
      · exact h.2 v hv u e hlt hold

/-- Taking the waiting blocks above `v`. -/
theorem Emptied.collect {done : Nat → Prop} (h : Emptied s done s') (v : Nat) :
    Emptied s (fun u => done u ∨ u = v) (s'.collectPending v).2 := by
  have htake : ∀ c : ViewContext P, (takePending c).2.pendingBlock = none := by
    intro c
    rcases hc : c.pendingBlock with _ | b
    · rw [takePending_none hc, hc]
    · rw [takePending_some hc]
  have hsettles : ∀ {p c : ViewContext P}, Settles p c → Settles p (takePending c).2 := by
    intro p c hpc
    rcases hc : c.pendingBlock with _ | b
    · rw [takePending_none hc]
      exact hpc
    · rw [takePending_some hc]
      exact ⟨hpc.mNotarization, hpc.nullification, hpc.names, .inl rfl⟩
  refine ⟨⟨fun u p' hp' => ?_, fun u p hp => ?_⟩, fun x hx u c hlt hc => ?_⟩
  · rw [collectPending_find] at hp'
    obtain ⟨c, hc, rfl⟩ := map_eq_some_iff.mp hp'
    obtain ⟨p, hp, hpc⟩ := h.1.1 u c hc
    refine ⟨p, hp, ?_⟩
    split
    · exact hsettles hpc
    · exact hpc
  · obtain ⟨c, hc⟩ := h.1.2 u p hp
    exact ⟨_, by rw [collectPending_find, hc, map_some]⟩
  · rw [collectPending_find] at hc
    obtain ⟨c₀, hc₀, rfl⟩ := map_eq_some_iff.mp hc
    split
    · exact htake c₀
    · rcases hx with hx | rfl
      · exact h.2 x hx u c₀ hlt hc₀
      · contradiction

/-- What is taken above an M-notarized view has waited from the start. -/
theorem Evolves.awaited (h : Evolves s s') {m : ViewContext P} (hv : s.findViewContext v = some m)
    (hm : m.mNotarization.isSome = true) {e : Nat × Block P × StateDiff P}
    (he : e ∈ (s'.collectPending v).1) : s.Awaited e.1 e.2.1 := by
  obtain ⟨w, b, d⟩ := e
  obtain ⟨hlt, c, hc, hb, -⟩ := mem_collectPending.mp he
  obtain ⟨p, hp, hsettles⟩ := h.1 w c hc
  refine ⟨v, m, p, hv, hm, hlt, hp, ?_⟩
  rcases hsettles.pending with hnone | hsame
  · rw [hb] at hnone
    cases hnone
  · rw [← hsame, hb]

section Round

variable {s : ViewChain P} (hs : s.ParentsSettled) (peers : PeerSet P)

include hs

theorem proposePending_empties {done : Nat → Prop} {pending : List (Nat × Block P × StateDiff P)}
    (hpending : ∀ e ∈ pending, s.Awaited e.1 e.2.1) :
    Triple (Emptied s done) (proposePending peers pending) (fun _ => Emptied s done)
      (fun _ => True) fun _ _ => False := by
  induction pending with
  | nil => exact triple_pure fun _ h => h
  | cons e rest ih =>
    refine triple_bind (fun s' h => h.propose hs (hpending e mem_cons_self) e.2.2 peers) fun _ => ?_
    refine triple_bind (ih fun e' he' => hpending e' (mem_cons_of_mem e he')) fun _ => ?_
    exact triple_pure fun _ h => h

theorem processPending_empties {done : Nat → Prop} {v : Nat} {m : ViewContext P}
    (hv : s.findViewContext v = some m) (hm : m.mNotarization.isSome = true) :
    Triple (Emptied s done) (processPendingChildProposals v peers)
      (fun _ => Emptied s fun u => done u ∨ u = v) (fun _ => True) fun _ _ => False :=
  fun _ h => proposePending_empties hs peers (fun _ he => h.1.awaited hv hm he) _ (h.collect v)

/-- **A round** leaves nothing waiting above the views it looked at. -/
theorem pendingPass_empties {views : List Nat} (done : Nat → Prop)
    (hviews : ∀ v ∈ views, ∃ m, s.findViewContext v = some m ∧ m.mNotarization.isSome = true) :
    Triple (Emptied s done) (pendingPass peers views)
      (fun _ => Emptied s fun u => done u ∨ u ∈ views) (fun _ => True) fun _ _ => False := by
  induction views generalizing done with
  | nil =>
    exact triple_pure fun s' h => ⟨h.1, fun u hu => h.2 u (hu.resolve_right not_mem_nil)⟩
  | cons v views ih =>
    obtain ⟨m, hv, hm⟩ := hviews v mem_cons_self
    refine triple_bind (processPending_empties hs peers hv hm) fun _ => ?_
    refine triple_bind (ih _ fun u hu => hviews u (mem_cons_of_mem v hu)) fun _ => ?_
    refine triple_pure fun s' h => ⟨h.1, fun u hu => h.2 u ?_⟩
    rcases hu with hu | hu
    · exact .inl (.inl hu)
    · rcases mem_cons.mp hu with rfl | hu
      · exact .inl (.inr rfl)
      · exact .inr hu

end Round

/-- With nothing waiting, taking the waiting blocks changes nothing. -/
theorem collectPending_idle (h : s.NoneAbove v) :
    (s.collectPending v).1 = [] ∧ SameContexts s (s.collectPending v).2 := by
  constructor
  · refine eq_nil_iff_forall_not_mem.mpr fun e he => ?_
    obtain ⟨w, b, d⟩ := e
    obtain ⟨hlt, c, hc, hb, -⟩ := mem_collectPending.mp he
    rw [h w c hlt hc] at hb
    cases hb
  · intro u
    rw [collectPending_find]
    rcases hc : s.findViewContext u with _ | c
    · rfl
    · simp only [map_some]
      split
      · rename_i hlt
        rw [takePending_none (h u c hlt hc)]
      · rfl

/-- A round over a chain in which nothing waits takes nothing. -/
theorem pendingPass_idle (peers : PeerSet P) (h : ∀ v ∈ views, s.NoneAbove v) :
    (pendingPass peers views s).1 = .ok false := by
  induction views generalizing s with
  | nil => rfl
  | cons v views ih =>
    obtain ⟨hnil, hsame⟩ := collectPending_idle (h v mem_cons_self)
    have hfirst : processPendingChildProposals v peers s = (.ok [], (s.collectPending v).2) := by
      unfold processPendingChildProposals
      rw [show s.collectPending v = ((s.collectPending v).1, (s.collectPending v).2) from rfl, hnil]
      rfl
    have hrest := ih (s := (s.collectPending v).2) fun u hu w c hlt hc =>
      h u (mem_cons_of_mem v hu) w c hlt ((hsame w).symm.trans hc)
    unfold pendingPass
    simp only [bind_run, hfirst]
    rcases hr : pendingPass peers views (s.collectPending v).2 with ⟨o, s'⟩
    rw [hr] at hrest
    subst hrest
    rfl

/-! ## Parents that stay open -/

/-- Every block that waits above an M-notarized view waits for a parent that
has no certificate, and there is such a block. -/
structure Stuck (s : ViewChain P) : Prop where
  awaited : ∃ w b, s.Awaited w b
  context : ∀ w b c, s.Awaited w b → s.findViewContext w = some c →
    c.block = none ∧ c.stateDiff.isSome = true
  parent : ∀ w b, s.Awaited w b →
    ∃ u p, s.findViewContext u = some p ∧ p.blockHash = some b.parentBlockHash
  open_ : ∀ w b u p, s.Awaited w b → s.findViewContext u = some p →
    p.blockHash = some b.parentBlockHash →
    p.nullification = none ∧ p.mNotarization = none ∧ s.firstNotNullified u w = none

theorem Awaited.congr (h : SameContexts s s') : s'.Awaited w b ↔ s.Awaited w b := by
  unfold Awaited
  simp only [h _]

theorem firstNotNullified_congr
    (h : ∀ u, (s'.findViewContext u).map isNullified = (s.findViewContext u).map isNullified)
    (u w : Nat) : s'.firstNotNullified u w = s.firstNotNullified u w := by
  unfold firstNotNullified
  congr 1
  funext v
  have hv := h v
  rcases hc : s.findViewContext v with _ | c
  · rw [hc] at hv
    rw [map_eq_none_iff.mp hv]
  · rw [hc, map_some] at hv
    obtain ⟨c', hc', heq⟩ := map_eq_some_iff.mp hv
    simp only [hc', heq]

theorem Stuck.congr (h : SameContexts s s') (hs : s.Stuck) : s'.Stuck := by
  have hfirst : ∀ u w, s'.firstNotNullified u w = s.firstNotNullified u w :=
    firstNotNullified_congr fun u => by rw [h u]
  refine ⟨?_, fun w b c hw hc => ?_, fun w b hw => ?_, fun w b u p hw hp hh => ?_⟩
  · obtain ⟨w, b, hw⟩ := hs.awaited
    exact ⟨w, b, (Awaited.congr h).mpr hw⟩
  · exact hs.context w b c ((Awaited.congr h).mp hw) ((h w).symm.trans hc)
  · obtain ⟨u, p, hp, hh⟩ := hs.parent w b ((Awaited.congr h).mp hw)
    exact ⟨u, p, (h u).trans hp, hh⟩
  · rw [hfirst]
    exact hs.open_ w b u p ((Awaited.congr h).mp hw) ((h u).symm.trans hp) hh

/-- The contexts after some waiting blocks were taken: nothing else changed. -/
def Taken (s : ViewChain P) (views : List Nat) (s' : ViewChain P) : Prop :=
  ∀ u, s'.findViewContext u =
    (s.findViewContext u).map fun c => if u ∈ views then (takePending c).2 else c

/-- What taking a block leaves alone. -/
theorem takePending_keeps (c : ViewContext P) :
    (takePending c).2.blockHash = c.blockHash ∧ (takePending c).2.block = c.block ∧
      (takePending c).2.mNotarization = c.mNotarization ∧
      (takePending c).2.nullification = c.nullification ∧
      (takePending c).2.isNullified = c.isNullified := by
  rcases hc : c.pendingBlock with _ | b
  · rw [takePending_none hc]
    exact ⟨rfl, rfl, rfl, rfl, rfl⟩
  · rw [takePending_some hc]
    exact ⟨rfl, rfl, rfl, rfl, rfl⟩

theorem Taken.context (h : Taken s views s') {u : Nat} {p' : ViewContext P}
    (hp' : s'.findViewContext u = some p') :
    ∃ p, s.findViewContext u = some p ∧ p'.blockHash = p.blockHash ∧ p'.block = p.block ∧
      p'.mNotarization = p.mNotarization ∧ p'.nullification = p.nullification ∧
      p'.isNullified = p.isNullified := by
  rw [h u] at hp'
  obtain ⟨p, hp, rfl⟩ := map_eq_some_iff.mp hp'
  refine ⟨p, hp, ?_⟩
  split
  · exact takePending_keeps p
  · exact ⟨rfl, rfl, rfl, rfl, rfl⟩

/-- **A stuck block waits again.** -/
theorem Stuck.proposalParent_eq (hs : s.Stuck) (h : Taken s views s') (hw : s.Awaited w b) :
    s'.proposalParent w b = .ok true := by
  have hfound : ∃ u, s'.findParentView b.parentBlockHash = some u := by
    obtain ⟨u, p, hp, hh⟩ := hs.parent w b hw
    rw [← isSome_iff_exists, isSome_iff_ne_none]
    intro hnone
    unfold findParentView at hnone
    rw [map_eq_none_iff, find?_eq_none] at hnone
    have hp' := h u
    rw [hp, map_some] at hp'
    refine hnone _ (mem_iter.mpr hp') (decide_eq_true ?_)
    dsimp only
    split
    · rw [(takePending_keeps p).1, hh]
    · exact hh
  obtain ⟨u, hu⟩ := hfound
  obtain ⟨p', hp', hh'⟩ := findParentView_find hu
  obtain ⟨p, hp, hhash, -, hm, hn, -⟩ := h.context hp'
  obtain ⟨hnull, hcert, hfirst⟩ := hs.open_ w b u p hw hp (hhash ▸ hh')
  have hfirst' : s'.firstNotNullified u w = none := by
    rw [← hfirst]
    refine firstNotNullified_congr (fun x => ?_) u w
    rw [h x]
    rcases s.findViewContext x with _ | c
    · rfl
    · simp only [map_some]
      split
      · rw [(takePending_keeps c).2.2.2.2]
      · rfl
  simp only [proposalParent, hu, hp', hn, hnull, isSome_none, Bool.false_eq_true, ↓reduceIte,
    hfirst', hm, hcert, isNone_none]

/-- The second loop puts every block back. -/
theorem Stuck.proposePending_restores (hs : s.Stuck) (peers : PeerSet P)
    {pending : List (Nat × Block P × StateDiff P)} (hnodup : (pending.map (·.1)).Nodup)
    (hwaiting : ∀ e ∈ pending, s.Awaited e.1 e.2.1 ∧ s.Waiting e.1 e.2.1 e.2.2)
    (h : Taken s (pending.map (·.1)) s') :
    ∃ results s'', proposePending peers pending s' = (.ok results, s'') ∧
      results.length = pending.length ∧ SameContexts s s'' := by
  induction pending generalizing s' with
  | nil =>
    refine ⟨[], s', rfl, rfl, fun u => ?_⟩
    rw [h u]
    rcases s.findViewContext u with _ | c <;> rfl
  | cons e rest ih =>
    obtain ⟨w, b, d⟩ := e
    obtain ⟨hnew, hnodup⟩ := nodup_cons.mp hnodup
    obtain ⟨hw, c, hc, hb, hd⟩ := hwaiting (w, b, d) mem_cons_self
    have hc' : s'.findViewContext w = some { c with pendingBlock := none, stateDiff := none } := by
      rw [h w, hc, map_some]
      simp only [map_cons, mem_cons, true_or, ↓reduceIte, takePending_some hb]
    have hback : addBlockProposal w b d peers s' =
        (.ok (awaitingProposal b.getHash), s'.setContext w c) := by
      have hnone : c.block.isSome = false := by rw [(hs.context w b c hw hc).1, isSome_none]
      simp only [addBlockProposal, hc', hnone, isSome_none, Bool.false_eq_true, ↓reduceIte,
        hs.proposalParent_eq h hw]
      rw [← hb, ← hd]
    have hrest : Taken s (rest.map (·.1)) (s'.setContext w c) := by
      intro u
      by_cases hu : u = w
      · subst hu
        rw [findViewContext_setContext_self, hc, map_some, if_neg hnew]
      · rw [findViewContext_setContext_ne s' c hu, h u]
        simp only [map_cons, mem_cons, hu, false_or]
    obtain ⟨results, s'', hrun, hlen, hsame⟩ := 
      ih hnodup (fun e he => hwaiting e (mem_cons_of_mem _ he)) hrest
    refine ⟨awaitingProposal b.getHash :: results, s'', ?_, by simp [hlen], hsame⟩
    simp only [proposePending, bind_run, hback, hrun]
    rfl

/-- Processing the children of an M-notarized view puts every block back and
reports each of them. -/
theorem Stuck.processPending (hs : s.Stuck) (peers : PeerSet P) {m : ViewContext P}
    (hv : s.findViewContext v = some m) (hm : m.mNotarization.isSome = true) :
    ∃ results s', processPendingChildProposals v peers s = (.ok results, s') ∧ SameContexts s s' ∧
      ∀ w c b, v < w → s.findViewContext w = some c → c.pendingBlock = some b → results ≠ [] := by
  have hwaiting : ∀ {w c b}, v < w → s.findViewContext w = some c → c.pendingBlock = some b →
      s.Awaited w b ∧ ∃ d, s.Waiting w b d := by
    intro w c b hlt hc hb
    have hw : s.Awaited w b := ⟨v, m, c, hv, hm, hlt, hc, hb⟩
    obtain ⟨d, hd⟩ := isSome_iff_exists.mp (hs.context w b c hw hc).2
    exact ⟨hw, d, c, hc, hb, hd⟩
  have htaken : Taken s ((s.collectPending v).1.map (·.1)) (s.collectPending v).2 := by
    intro u
    rw [collectPending_find]
    rcases hc : s.findViewContext u with _ | c
    · rfl
    simp only [map_some, some.injEq]
    rcases hpend : c.pendingBlock with _ | b
    · simp only [takePending_none hpend, ite_self]
    have hiff : v < u ↔ u ∈ (s.collectPending v).1.map (·.1) := by
      constructor
      · intro hlt
        obtain ⟨-, d, hd⟩ := hwaiting hlt hc hpend
        exact mem_map.mpr ⟨(u, b, d), mem_collectPending.mpr ⟨hlt, hd⟩, rfl⟩
      · intro hu
        obtain ⟨⟨w, b', d'⟩, he, rfl⟩ := mem_map.mp hu
        exact (mem_collectPending.mp he).1
    simp only [hiff]
  have hall : ∀ e ∈ (s.collectPending v).1, s.Awaited e.1 e.2.1 ∧ s.Waiting e.1 e.2.1 e.2.2 := by
    rintro ⟨w, b, d⟩ he
    obtain ⟨hlt, c, hc, hb, hd⟩ := mem_collectPending.mp he
    exact ⟨(hwaiting hlt hc hb).1, c, hc, hb, hd⟩
  obtain ⟨results, s', hrun, hlen, hsame⟩ :=
    hs.proposePending_restores peers (s.collectPending_nodup v) hall htaken
  refine ⟨results, s', hrun, hsame, fun w c b hlt hc hb hnil => ?_⟩
  obtain ⟨-, d, hd⟩ := hwaiting hlt hc hb
  have hpos := length_pos_of_mem (mem_collectPending.mpr ⟨hlt, hd⟩)
  rw [hnil, length_nil] at hlen
  omega

/-- **A round over a stuck chain** takes a block and leaves the chain as it
was. -/
theorem Stuck.pendingPass (peers : PeerSet P) (hs : s.Stuck)
    (hviews : ∀ v ∈ views, ∃ m, s.findViewContext v = some m ∧ m.mNotarization.isSome = true) :
    ∃ progress s', pendingPass peers views s = (.ok progress, s') ∧
      SameContexts s s' ∧ ∀ v ∈ views, ∀ w c b, v < w → s.findViewContext w = some c →
        c.pendingBlock = some b → progress = true := by
  induction views generalizing s with
  | nil => exact ⟨false, s, rfl, .refl s, fun v hv => absurd hv not_mem_nil⟩
  | cons v views ih =>
    obtain ⟨m, hv, hm⟩ := hviews v mem_cons_self
    obtain ⟨results, s₁, hfirst, hsame, hne⟩ := hs.processPending peers hv hm
    obtain ⟨progress, s₂, hrest, hsame', hprogress⟩ := ih (hs.congr hsame) fun u hu => by
      obtain ⟨m', hu', hm'⟩ := hviews u (mem_cons_of_mem v hu)
      exact ⟨m', (hsame u).trans hu', hm'⟩
    refine ⟨!results.isEmpty || progress, s₂, ?_, hsame.trans hsame', fun u hu w c b hlt hc hb => ?_⟩
    · simp only [pendingPass, bind_run, hfirst, hrest]
      rfl
    rcases mem_cons.mp hu with rfl | hu
    · have hsome := hne w c b hlt hc hb
      rw [← isEmpty_eq_false_iff] at hsome
      rw [hsome]
      rfl
    · rw [hprogress u hu w c b hlt ((hsame w).trans hc) hb, Bool.or_true]

end ViewChain

namespace ViewProgressManager

variable {vm : ViewProgressManager P}

open ViewChain

/-- The views whose waiting children a round looks at. -/
theorem mem_certifiedViews {s : ViewChain P} {v : Nat} :
    v ∈ (s.iter.filter fun e => e.2.mNotarization.isSome).map (·.1) ↔
      ∃ m, s.findViewContext v = some m ∧ m.mNotarization.isSome = true := by
  constructor
  · intro hv
    obtain ⟨⟨u, m⟩, he, rfl⟩ := mem_map.mp hv
    obtain ⟨hmem, hm⟩ := mem_filter.mp he
    exact ⟨m, mem_iter.mp hmem, hm⟩
  · rintro ⟨m, hv, hm⟩
    exact mem_map.mpr ⟨(v, m), mem_filter.mpr ⟨mem_iter.mpr hv, hm⟩, rfl⟩

/-- One round: it ends the loop, or the loop goes on from where it left the
chain. -/
theorem processAllPendingBlocks_round {fuel : Nat} {o : Outcome (ConsensusError P) Bool}
    {s : ViewChain P}
    (h : pendingPass vm.peers
      ((vm.viewChain.iter.filter fun e => e.2.mNotarization.isSome).map (·.1)) vm.viewChain =
        (o, s)) :
    processAllPendingBlocks (fuel + 1) vm = match o with
      | .ok true => processAllPendingBlocks fuel { vm with viewChain := s }
      | .ok false => (.ok (), { vm with viewChain := s })
      | .err e => (.err e, { vm with viewChain := s })
      | .panic => (.panic, { vm with viewChain := s })
      | .exhausted => (.exhausted, { vm with viewChain := s }) := by
  conv_lhs => unfold processAllPendingBlocks
  simp only [bind_run, get_run, onChain, Act.zoom, h]
  rcases o with (_ | _) | _ | _ | _ <;> rfl

/-- The loop ends with a round that takes nothing. -/
theorem processAllPendingBlocks_idle (vm : ViewProgressManager P)
    (h : ∀ v m, vm.viewChain.findViewContext v = some m → m.mNotarization.isSome = true →
      vm.viewChain.NoneAbove v) (fuel : Nat) :
    (processAllPendingBlocks (fuel + 1) vm).1 = .ok () := by
  have hidle : ∀ v ∈ (vm.viewChain.iter.filter fun e => e.2.mNotarization.isSome).map (·.1),
      vm.viewChain.NoneAbove v := by
    intro v hv
    obtain ⟨m, hfind, hm⟩ := mem_certifiedViews.mp hv
    exact h v m hfind hm
  have hpass := pendingPass_idle vm.peers hidle
  rcases hr : pendingPass vm.peers
    ((vm.viewChain.iter.filter fun e => e.2.mNotarization.isSome).map (·.1)) vm.viewChain
    with ⟨o, s⟩
  rw [hr] at hpass
  subst hpass
  rw [processAllPendingBlocks_round hr]

/-- Replica 0 votes in views 1 and 2 and gets a nullification of view 1, which
the others have left with the M-notarization of its block; the cascade takes
it to view 3, where the third block waits for the second. View 3 is nullified
and in view 4 another block waits for the second. Last come the certificate
of the third block and the block itself, recovered. -/
def waitingInputs : List (Input sampleParams) :=
  [.message (.blockProposal firstBlock), .message (.vote (voteOf 2 1 firstBlock.getHash)),
    .message (.blockProposal secondBlock), .message (.nullification (nullificationOf 1)),
    .message (.blockProposal thirdBlock), .message (.nullification (nullificationOf 3)),
    .message (.blockProposal (emptyBlock 4 secondBlock.getHash 0)),
    .message (.mNotarization (certificateOf 3 thirdBlock.getHash)),
    .message (.blockRecoveryResponse 3 thirdBlock)]

/-- Replica 0 over the first `k` of the inputs. -/
def waitingRun (k : Nat) : Replica sampleParams :=
  (Replica.runAll (sampleConfig 0 (quietEnv _)) 10 (waitingInputs.take k)).1

theorem waitingRun_run (k : Nat) : ∃ running,
    Replica.Run (sampleConfig 0 (quietEnv _)) (fun _ _ => True) (waitingRun k) running :=
  ⟨_, Replica.run_runAll _ 10 _ fun _ _ => trivial⟩

/-- **Nothing ends the loop over a stuck chain.** -/
theorem pending_blocks_loop (fuel : Nat) (hs : vm.viewChain.Stuck) :
    (processAllPendingBlocks fuel vm).1 = .exhausted := by
  induction fuel generalizing vm with
  | zero => rfl
  | succ fuel ih =>
    obtain ⟨progress, s, hrun, hsame, hprogress⟩ := 
      hs.pendingPass vm.peers fun v hv => mem_certifiedViews.mp hv
    obtain ⟨w, b, v, m, c, hv, hm, hlt, hc, hb⟩ := hs.awaited
    obtain rfl := hprogress v (mem_certifiedViews.mpr ⟨m, hv, hm⟩) w c b hlt hc hb
    rw [processAllPendingBlocks_round hrun]
    exact @ih { vm with viewChain := s } (hs.congr hsame)

end ViewProgressManager

end Minimmit
