/-
Minimmit.Consensus.PendingTheorems — the published diffs and the nullified
views.

The diff of a view is published when the view is M-notarized and taken back
when it is nullified. `Leftover` is a nullified view that is held with a
published diff. A cascade leaves one behind until it rolls the range back, so
the invariant is whole only between events.

Three things break it for good: a diff is published for a view that is
nullified already, the nullification of the current view arrives when its
diff is out, and a nullify message is made that the broadcast queue refuses.
In runs without them no leftover survives an event.
-/
import Minimmit.Consensus.EventRule
import Minimmit.Consensus.Frames
import Minimmit.Consensus.ParentTheorems

namespace Minimmit

open Minimmit.Library Act Relation ViewContext ViewProgressManager PendingStateWriter ViewChain List

variable {P : Params}

/-! ## The writer -/

namespace PendingStateWriter

variable {w w' w'' : PendingStateWriter P}

/-- What `w'` publishes is what it holds, and `w` held that. -/
structure Shrinks (w w' : PendingStateWriter P) : Prop where
  published : w'.published = w'.pendingDiffs
  find : ∀ {v d}, w'.pendingDiffs.get v = some d → w.pendingDiffs.get v = some d

theorem Shrinks.refl (h : w.published = w.pendingDiffs) : Shrinks w w := ⟨h, id⟩

theorem Shrinks.trans (h : Shrinks w w') (h' : Shrinks w' w'') : Shrinks w w'' :=
  ⟨h'.published, fun hd => h.find (h'.find hd)⟩

theorem Shrinks.ledger (h : Shrinks w w') (hsame : SameLedger w'' w') : Shrinks w w'' :=
  ⟨by rw [hsame.published, hsame.pendingDiffs]; exact h.published,
    fun hd => h.find (hsame.pendingDiffs ▸ hd)⟩

theorem finalizeUpTo_shrinks (w : PendingStateWriter P) (view : Nat) :
    Shrinks w (w.finalizeUpTo view) :=
  ⟨rfl, fun hd => (SortedMap.get_retain.mp hd).1⟩

theorem removeNullifiedView_shrinks (h : w.published = w.pendingDiffs) (view : Nat) :
    Shrinks w (w.removeNullifiedView view) := by
  unfold removeNullifiedView
  split
  · exact ⟨rfl, fun hd => (SortedMap.get_remove.mp hd).1⟩
  · exact .refl h

theorem removeNullifiedView_get (w : PendingStateWriter P) (view : Nat) :
    (w.removeNullifiedView view).pendingDiffs.get view = none := by
  unfold removeNullifiedView
  split
  case isTrue =>
    refine Option.eq_none_iff_forall_ne_some.mpr fun d hd => ?_
    exact (SortedMap.get_remove.mp hd).2 rfl
  case isFalse h => exact Option.not_isSome_iff_eq_none.mp h

/-- A diff that is there after a publication was there or is the new one. -/
theorem addMNotarizedDiff_get {view v : Nat} {d d' : StateDiff P}
    (h : (w.addMNotarizedDiff view d).pendingDiffs.get v = some d') :
    v = view ∨ w.pendingDiffs.get v = some d' := by
  unfold addMNotarizedDiff at h
  split at h
  · by_cases hv : v = view
    · exact .inl hv
    · exact .inr ((SortedMap.get_insert_ne _ d hv).symm.trans h)
  · exact .inr h

theorem addMNotarizedDiff_published (h : w.published = w.pendingDiffs) (view : Nat)
    (d : StateDiff P) :
    (w.addMNotarizedDiff view d).published = (w.addMNotarizedDiff view d).pendingDiffs := by
  unfold addMNotarizedDiff
  split
  · rfl
  · exact h

end PendingStateWriter

namespace ViewChain

variable {peers : PeerSet P} {s s' : ViewChain P} {adm : ConsensusMessage P → Prop}

/-- Persisting a view publishes nothing. -/
theorem planWriter_shrinks {w : PendingStateWriter P} (h : w.published = w.pendingDiffs)
    (finalizedView : Nat) (canonical : List Nat) (view : Nat) (c : ViewContext P) :
    Shrinks w (planWriter finalizedView canonical view c w) := by
  have hblock : ∀ {w'}, Shrinks w w' → Shrinks w (planBlock c w') := by
    intro w' hw'
    unfold planBlock
    split
    · exact ⟨hw'.published, hw'.find⟩
    · exact hw'
  have hfin : Shrinks w (planFinalized c w) := hblock (finalizeUpTo_shrinks w _)
  unfold planWriter
  split
  · split
    · exact hfin
    · exact .refl h
  split
  · split
    · exact hfin
    · exact hblock (.refl h)
  unfold planNullified
  have hremove := removeNullifiedView_shrinks h c.viewNumber
  split
  · exact ⟨hremove.published, hremove.find⟩
  · exact hremove

/-- **Finalization publishes nothing.** -/
theorem finalize_shrinks (view : Nat) (peers : PeerSet P)
    (h : s.persistenceWriter.published = s.persistenceWriter.pendingDiffs) :
    Shrinks s.persistenceWriter (finalizeWithLNotarization view peers s).2.persistenceWriter := by
  refine finalize_maintains (X := fun s' => Shrinks s.persistenceWriter s'.persistenceWriter)
    (fun _ => .refl h) ?_
  intro _ canonical _ _ s' v c _ _ _ hs'
  obtain ⟨w, hsame, heq⟩ := persistView_plan view canonical peers v c (s'.removeView v)
  rw [heq]
  exact hs'.trans ((planWriter_shrinks hs'.published view canonical v c).ledger hsame)

/-! ## What every step keeps -/

/-- The diffs that are out: they are those that are held, of no later view
than the current one, and the view of each, if it is held, is M-notarized. -/
structure PendingWF (s : ViewChain P) : Prop where
  published : s.persistenceWriter.published = s.persistenceWriter.pendingDiffs
  le_current : ∀ {v d}, s.persistenceWriter.pendingDiffs.get v = some d → v ≤ s.currentView
  notarized : ∀ {v d c}, s.persistenceWriter.pendingDiffs.get v = some d →
    s.findViewContext v = some c → c.mNotarization.isSome = true

/-- Fewer diffs, and every held context was held and kept its certificate. -/
theorem PendingWF.shrink (h : s.PendingWF) (hw : Shrinks s.persistenceWriter s'.persistenceWriter)
    (hcur : s.currentView ≤ s'.currentView)
    (hfind : ∀ {v c'}, v ≤ s.currentView → s'.findViewContext v = some c' →
      ∃ c, s.findViewContext v = some c ∧ (c.mNotarization.isSome = true →
        c'.mNotarization.isSome = true)) : s'.PendingWF where
  published := hw.published
  le_current hd := (h.le_current (hw.find hd)).trans hcur
  notarized hd hc' := by
    obtain ⟨c, hc, hm⟩ := hfind (h.le_current (hw.find hd)) hc'
    exact hm (h.notarized (hw.find hd) hc)

theorem PendingWF.drop (h : s.PendingWF) (v : Nat) : (s.removePendingDiff v).PendingWF :=
  h.shrink (removeNullifiedView_shrinks h.published v) (Nat.le_refl _) fun {_ c} _ hc => ⟨c, hc, id⟩

theorem PendingWF.rollback (h : s.PendingWF) (a b : Nat) :
    (s.rollbackPendingDiffsInRange a b).PendingWF := by
  unfold rollbackPendingDiffsInRange
  induction viewRange a b generalizing s with
  | nil => exact h
  | cons v vs ih => exact ih (h.drop v)

theorem PendingWF.chainStep {replicaId : Nat} (h : s.PendingWF) (hs : s.WF peers replicaId)
    (hstep : ChainStep (CtxStep adm peers) s s') : s'.PendingWF := by
  cases hstep with
  | @context v c c' hc hctx =>
    refine h.shrink (.refl h.published) (Nat.le_refl _) fun {w d} _ hd => ?_
    rcases findViewContext_setContext_cases hd with ⟨rfl, rfl⟩ | ⟨-, hold⟩
    · refine ⟨c, hc, fun hm => ?_⟩
      obtain ⟨m, hm⟩ := Option.isSome_iff_exists.mp hm
      rw [hctx.mNotarization hm]
      rfl
    · exact ⟨d, hold, id⟩
  | @publish v c d hc hm _ =>
    refine ⟨addMNotarizedDiff_published h.published v d, fun {w d'} hd => ?_,
      fun {w d' c'} hd hc' => ?_⟩
    · rcases addMNotarizedDiff_get hd with rfl | hold
      · exact hs.le_current w c hc
      · exact h.le_current hold
    · rcases addMNotarizedDiff_get hd with rfl | hold
      · obtain rfl := Option.some.inj (hc.symm.trans hc')
        exact hm
      · exact h.notarized hold hc'
  | drop v => exact h.drop v

theorem PendingWF.chainSteps {replicaId : Nat} (h : s.PendingWF) (hs : s.WF peers replicaId)
    (hsteps : Steps (CtxStep adm peers) s s') : s'.PendingWF := by
  induction hsteps with
  | refl => exact h
  | tail hsteps hstep ih => exact ih.chainStep (hs.steps hsteps) hstep

end ViewChain

namespace Replica

variable {cfg : Config P} {A : Admission cfg}

/-- A context was replaced by one with the same certificate. -/
theorem pendingWF_setContext {s : ViewChain P} (h : s.PendingWF) {v : Nat} {c c' : ViewContext P}
    (hc : s.findViewContext v = some c) (hm : c'.mNotarization = c.mNotarization) :
    (s.setContext v c').PendingWF := by
  refine h.shrink (.refl h.published) (Nat.le_refl _) fun {w d} _ hd => ?_
  rcases findViewContext_setContext_cases hd with ⟨rfl, rfl⟩ | ⟨-, hold⟩
  · exact ⟨c, hc, fun h => hm ▸ h⟩
  · exact ⟨d, hold, id⟩

theorem Step.pendingWF {s s' : Replica P} (h : Step A s s') (hs : s.WF A)
    (hp : s.chain.PendingWF) : s'.chain.PendingWF := by
  cases h with
  | hashOnly hc h =>
    cases h with
    | adoptHash => exact pendingWF_setContext hp hc rfl
  | clean h =>
    cases h with
    | chain h => exact hp.chainStep hs.chain h
    | @enter c parent hc =>
      refine hp.shrink (.refl hp.published) (Nat.le_succ _) fun {v c'} hv hc' => ?_
      rcases enter_cases hc' with ⟨rfl, -⟩ | ⟨-, hold⟩
      · exact absurd hv (Nat.not_succ_le_self _)
      · exact ⟨c', hold, id⟩
    | @finalize view hlt =>
      have hprunes := finalize_prunes view s.viewManager.peers s.chain
      exact hp.shrink (finalize_shrinks view _ hp.published) hprunes.currentView.ge
        fun {v c} _ hc => ⟨c, hprunes.find v c hc, id⟩
    | recovery => exact { hp with }
    | castVote hc => exact pendingWF_setContext hp hc rfl
    | nullify hc => exact pendingWF_setContext hp hc rfl
    | propose _ hsteps => exact hp.chainSteps hs.chain (Steps.ofBlock hsteps)
    | _ => exact hp

theorem start_pendingWF : (start cfg).chain.PendingWF :=
  ⟨rfl, fun h => (nomatch h), fun h => (nomatch h)⟩

end Replica

/-! ## Leftovers -/

/-- A context with enough nullify messages for a nullification has one. -/
def ViewContext.Certified (c : ViewContext P) : Prop :=
  2 * P.F < c.nullifyMessages.len → P.mSize ≤ c.nullifyMessages.len →
    c.nullification.isSome = true

namespace ViewChain

variable {S : Nat → Prop} {s : ViewChain P} {v : Nat}

/-- The published diff of a view. -/
def publishedDiff (s : ViewChain P) (v : Nat) : Option (StateDiff P) :=
  s.persistenceWriter.published.get v

/-- The view is nullified and held, and its diff is out. -/
def Leftover (s : ViewChain P) (v : Nat) : Prop :=
  (∃ c, s.findViewContext v = some c ∧ c.isNullified = true) ∧ (s.publishedDiff v).isSome = true

/-- The only leftovers are in `S`, and no nullification is overdue. -/
structure TidyBut (S : Nat → Prop) (s : ViewChain P) : Prop where
  certified : ∀ v c, s.findViewContext v = some c → c.Certified
  leftover : ∀ v, s.Leftover v → S v

/-- There is no leftover. -/
abbrev Tidy (s : ViewChain P) : Prop := TidyBut (fun _ => False) s

/-- No diff was published for a nullified view. -/
def PublishesLive (s : ViewChain P) : Prop := ∀ e ∈ s.publications, e.2.isNullified = false

theorem TidyBut.mono {S' : Nat → Prop} (h : s.TidyBut S) (hS : ∀ v, S v → S' v) : s.TidyBut S' :=
  ⟨h.certified, fun v hv => hS v (h.leftover v hv)⟩

/-- Fewer diffs, and every held context was held, was nullified if it is now,
and is certified. -/
theorem TidyBut.shrink {s' : ViewChain P} (h : s.TidyBut S) (hp : s.PendingWF)
    (hw : Shrinks s.persistenceWriter s'.persistenceWriter)
    (hfind : ∀ {v c'}, s'.findViewContext v = some c' → c'.Certified ∧
      (c'.isNullified = true → ∃ c, s.findViewContext v = some c ∧ c.isNullified = true)) :
    s'.TidyBut S := by
  refine ⟨fun v c' hc' => (hfind hc').1, fun v ⟨⟨c', hc', hn'⟩, hd⟩ => h.leftover v ?_⟩
  obtain ⟨d, hd⟩ := Option.isSome_iff_exists.mp hd
  have hpend : s.persistenceWriter.pendingDiffs.get v = some d := hw.find (hw.published ▸ hd)
  refine ⟨(hfind hc').2 hn', Option.isSome_iff_exists.mpr ⟨d, ?_⟩⟩
  rw [publishedDiff, hp.published]
  exact hpend

/-- The contexts are as before. -/
theorem TidyBut.writer {s' : ViewChain P} (h : s.TidyBut S) (hp : s.PendingWF)
    (hw : Shrinks s.persistenceWriter s'.persistenceWriter)
    (hfind : ∀ v, s'.findViewContext v = s.findViewContext v) : s'.TidyBut S :=
  h.shrink hp hw fun {v c} hc => by
    rw [hfind] at hc
    exact ⟨h.certified v c hc, fun hn => ⟨c, hc, hn⟩⟩

/-- One context was replaced, and is nullified only if it was. -/
theorem TidyBut.setContext (h : s.TidyBut S) (hp : s.PendingWF) {c c' : ViewContext P}
    (hc : s.findViewContext v = some c) (hcert : c'.Certified)
    (hn : c'.isNullified = true → c.isNullified = true) : (s.setContext v c').TidyBut S := by
  refine h.shrink hp (.refl hp.published) fun {w d} hd => ?_
  rcases findViewContext_setContext_cases hd with ⟨rfl, rfl⟩ | ⟨-, hold⟩
  · exact ⟨hcert, fun hd => ⟨c, hc, hn hd⟩⟩
  · exact ⟨h.certified w d hold, fun hd => ⟨d, hold, hd⟩⟩

/-- One context was replaced, and may be a leftover now. -/
theorem TidyBut.setContext_but (h : s.TidyBut S) {c' : ViewContext P} (hcert : c'.Certified) :
    (s.setContext v c').TidyBut fun w => w = v ∨ S w := by
  refine ⟨fun w d hd => ?_, fun w ⟨⟨d, hd, hn⟩, hdiff⟩ => ?_⟩
  · rcases findViewContext_setContext_cases hd with ⟨rfl, rfl⟩ | ⟨-, hold⟩
    · exact hcert
    · exact h.certified w d hold
  · rcases findViewContext_setContext_cases hd with ⟨rfl, -⟩ | ⟨-, hold⟩
    · exact .inl rfl
    · exact .inr (h.leftover w ⟨⟨d, hold, hn⟩, hdiff⟩)

/-- Dropping the diff of a view leaves no leftover there. -/
theorem TidyBut.drop (h : s.TidyBut S) (hp : s.PendingWF) (v : Nat) :
    (s.removePendingDiff v).TidyBut fun w => S w ∧ w ≠ v := by
  have hshrinks := removeNullifiedView_shrinks hp.published v
  have hold : (s.removePendingDiff v).TidyBut S := h.writer hp hshrinks fun _ => rfl
  refine ⟨hold.certified, fun w hw => ⟨hold.leftover w hw, ?_⟩⟩
  rintro rfl
  have hnone : (s.removePendingDiff w).publishedDiff w = none := by
    rw [publishedDiff]
    exact (congrArg (·.get w) hshrinks.published).trans (removeNullifiedView_get _ w)
  rw [Leftover, hnone] at hw
  cases hw.2

theorem mem_viewRange {a b : Nat} : v ∈ viewRange a b ↔ a ≤ v ∧ v ≤ b := by
  rw [viewRange, mem_range'_1]
  omega

/-- Rolling a range back leaves no leftover in it. -/
theorem TidyBut.rollback (h : s.TidyBut S) (hp : s.PendingWF) (a b : Nat) :
    (s.rollbackPendingDiffsInRange a b).TidyBut fun w => S w ∧ (a ≤ w → b < w) := by
  have hfold : ∀ (vs : List Nat) {s : ViewChain P} {S : Nat → Prop}, s.TidyBut S → s.PendingWF →
      (vs.foldl removePendingDiff s).TidyBut fun w => S w ∧ w ∉ vs := by
    intro vs
    induction vs with
    | nil => exact fun h _ => h.mono fun v hv => ⟨hv, not_mem_nil⟩
    | cons v vs ih =>
      intro s S h hp
      refine (ih (h.drop hp v) (hp.drop v)).mono fun w hw => ⟨hw.1.1, fun hmem => ?_⟩
      rcases mem_cons.mp hmem with heq | hmem
      · exact hw.1.2 heq
      · exact hw.2 hmem
  refine (hfold (viewRange a b) h hp).mono fun w hw => ⟨hw.1, fun hle => ?_⟩
  by_contra hgt
  exact hw.2 (mem_viewRange.mpr ⟨hle, Nat.not_lt.mp hgt⟩)

end ViewChain

/-! ## Steps that nullify nothing -/

/-- The message says that a view is nullified. -/
def ConsensusMessage.nullifies : ConsensusMessage P → Bool
  | .nullify _ | .nullification _ => true
  | _ => false

/-- The entry is a nullify message. -/
def Signed.nullifies : Signed P → Bool
  | .nullify _ _ _ => true
  | _ => false

/-- Without nullify messages and nullifications no context becomes
nullified. -/
theorem ViewContext.CtxStep.mild {adm : ConsensusMessage P → Prop}
    (hadm : ∀ m, adm m → m.nullifies = false) {peers : PeerSet P} {c c' : ViewContext P}
    (h : CtxStep adm peers c c') (hcert : c.Certified) :
    c'.Certified ∧ (c'.isNullified = true → c.isNullified = true) := by
  cases h with
  | block h =>
    cases h with
    | _ => exact ⟨hcert, id⟩
  | nullify ha | storeNullification ha => cases hadm _ ha
  | @certify n h =>
    refine ⟨fun _ _ => rfl, fun _ => ?_⟩
    have hsize : P.mSize ≤ c.nullifyMessages.len := by
      have hlen := h.peerIds.length_le
      rwa [n.length_peerIds, length_map] at hlen
    rw [isNullified, hcert h.quorum hsize, Bool.true_or]
  | _ => exact ⟨hcert, id⟩

namespace ViewChain

variable {R : ViewContext P → ViewContext P → Prop} {e : Nat × ViewContext P}

theorem ChainStep.publications {s s' : ViewChain P} (h : ChainStep R s s')
    (he : e ∈ s.publications) : e ∈ s'.publications := by
  cases h with
  | context => exact he
  | publish => exact mem_append_left _ he
  | drop => exact he

theorem Steps.publications {s s' : ViewChain P} (h : Steps R s s') (he : e ∈ s.publications) :
    e ∈ s'.publications := by
  induction h with
  | refl => exact he
  | tail _ hstep ih => exact hstep.publications ih

variable {adm : ConsensusMessage P → Prop} {peers : PeerSet P} {replicaId : Nat} {S : Nat → Prop}
  {s s' : ViewChain P}

/-- **A chain step that nullifies nothing** leaves no new leftover. -/
theorem TidyBut.chainStep (hadm : ∀ m, adm m → m.nullifies = false) (h : s.TidyBut S)
    (hp : s.PendingWF) (hstep : ChainStep (CtxStep adm peers) s s') (hlive : s'.PublishesLive) :
    s'.TidyBut S := by
  cases hstep with
  | @context v c c' hc hctx =>
    obtain ⟨hcert, hn⟩ := hctx.mild hadm (h.certified v c hc)
    exact h.setContext hp hc hcert hn
  | @publish v c d hc hm hd =>
    refine ⟨h.certified, fun w ⟨⟨c', hc', hn⟩, hdiff⟩ => ?_⟩
    obtain ⟨d', hd'⟩ := Option.isSome_iff_exists.mp hdiff
    have hget : (s.persistenceWriter.addMNotarizedDiff v d).pendingDiffs.get w = some d' :=
      addMNotarizedDiff_published hp.published v d ▸ hd'
    rcases addMNotarizedDiff_get hget with rfl | hold
    · -- the diff is new, so its view is live
      obtain rfl := Option.some.inj (hc.symm.trans hc')
      have hnot := hlive (w, c) (mem_append_right _ mem_cons_self)
      exact absurd hn (by rw [hnot]; decide)
    · exact h.leftover w ⟨⟨c', hc', hn⟩, by rw [publishedDiff, hp.published, hold]; rfl⟩
  | drop v => exact (h.drop hp v).mono fun _ hw => hw.1

theorem TidyBut.chainSteps (hadm : ∀ m, adm m → m.nullifies = false) (h : s.TidyBut S)
    (hs : s.WF peers replicaId) (hp : s.PendingWF) (hsteps : Steps (CtxStep adm peers) s s')
    (hlive : s'.PublishesLive) : s'.TidyBut S := by
  induction hsteps with
  | refl => exact h
  | tail hsteps hstep ih =>
    exact (ih fun e he => hlive e (hstep.publications he)).chainStep hadm
      (hp.chainSteps hs hsteps) hstep hlive

end ViewChain

namespace Replica

variable {cfg : Config P} {s s' : Replica P}

/-- Only messages that nullify nothing arrive. -/
def mildAdmission (cfg : Config P) : Admission cfg where
  admits _ m := m.nullifies = false
  mono h := h
  own _ := rfl

/-- The number of nullify messages that were signed. -/
def nullifyCount (s : Replica P) : Nat := (s.signed.filter Signed.nullifies).length

theorem Step.publications {A : Admission cfg} (h : Step A s s') {e : Nat × ViewContext P}
    (he : e ∈ s.chain.publications) : e ∈ s'.chain.publications := by
  cases h with
  | hashOnly => exact he
  | clean h =>
    cases h with
    | chain h => exact h.publications he
    | @finalize view hlt =>
      exact (finalize_prunes view s.viewManager.peers s.chain).publications ▸ he
    | propose _ hsteps => exact Steps.publications hsteps he
    | _ => exact he

theorem Step.nullifyCount_le {A : Admission cfg} (h : Step A s s') :
    s.nullifyCount ≤ s'.nullifyCount := by
  rcases h.signed with heq | ⟨e, heq⟩
  · rw [nullifyCount, nullifyCount, heq]
  · rw [nullifyCount, nullifyCount, heq, filter_append, length_append]
    exact Nat.le_add_right _ _

/-- **A step that nullifies nothing** leaves no new leftover. -/
theorem Step.tidy {S : Nat → Prop} (h : Step (mildAdmission cfg) s s')
    (hs : s.WF (mildAdmission cfg)) (hp : s.chain.PendingWF)
    (hcount : s'.nullifyCount = s.nullifyCount) (hlive : s'.chain.PublishesLive)
    (ht : s.chain.TidyBut S) : s'.chain.TidyBut S := by
  cases h with
  | hashOnly hc h =>
    cases h with
    | adoptHash =>
      have hcert := ht.certified _ _ hc
      exact ht.setContext hp hc hcert id
  | clean h =>
    cases h with
    | chain h => exact ht.chainStep (fun _ ha => ha) hp h hlive
    | enter =>
      refine ht.shrink hp (.refl hp.published) fun {v c'} hc' => ?_
      rcases enter_cases hc' with ⟨-, rfl⟩ | ⟨-, hold⟩
      · exact ⟨fun h => absurd h (Nat.not_lt_zero _), fun h => nomatch h⟩
      · exact ⟨ht.certified v c' hold, fun hn => ⟨c', hold, hn⟩⟩
    | @finalize view hlt =>
      have hprunes := finalize_prunes view s.viewManager.peers s.chain
      exact ht.shrink hp (finalize_shrinks view _ hp.published) fun {v c} hc =>
        ⟨ht.certified v c (hprunes.find v c hc), fun hn => ⟨c, hprunes.find v c hc, hn⟩⟩
    | recovery => exact ⟨ht.certified, ht.leftover⟩
    | castVote hc =>
      have hcert := ht.certified _ _ hc
      exact ht.setContext hp hc hcert id
    | nullify =>
      simp [nullifyCount, Replica.emit, Replica.onChain, Replica.log, Signed.nullifies,
        filter_append] at hcount
    | propose _ hsteps =>
      exact ht.chainSteps (fun _ ha => ha) hs.chain hp (Steps.ofBlock hsteps) hlive
    | _ => exact ht

theorem Steps.tidy {S : Nat → Prop} (h : Steps (A := mildAdmission cfg) s s')
    (hs : s.WF (mildAdmission cfg)) (hp : s.chain.PendingWF)
    (hcount : s'.nullifyCount = s.nullifyCount) (hlive : s'.chain.PublishesLive)
    (ht : s.chain.TidyBut S) : s'.chain.TidyBut S := by
  have hle : ∀ {t}, Steps (A := mildAdmission cfg) s t → s.nullifyCount ≤ t.nullifyCount := by
    intro t hsteps
    induction hsteps with
    | refl => exact Nat.le_refl _
    | tail _ hstep ih => exact ih.trans hstep.nullifyCount_le
  induction h with
  | refl => exact ht
  | tail hsteps hstep ih =>
    have hmid := hle hsteps
    have hlast := hstep.nullifyCount_le
    have hp' := Steps.invariant (I := fun s => s.chain.PendingWF)
      (fun _ _ hwf hstep hp => hstep.pendingWF hwf hp) hsteps hs hp
    exact hstep.tidy (Steps.wf hsteps hs) hp' (by omega) hlive
      (ih (by omega) fun e he => hlive e (hstep.publications he))

end Replica

/-! ## Messages that nullify -/

namespace ViewContext

theorem addNullify_certified (n : Nullify P) (peers : PeerSet P) {c : ViewContext P}
    (hcert : c.Certified) :
    Ends (addNullify n peers c)
      (fun _ c' => c'.Certified ∧ c'.mNotarization = c.mNotarization ∧
        (c'.nullification = none → c'.isNullified = true → c.isNullified = true))
      (fun c' => c'.Certified ∧ c'.mNotarization = c.mNotarization ∧
        (c'.isNullified = true → c.isNullified = true)) fun _ => False := by
  refine addNullify_rule ⟨hcert, rfl, id⟩ (fun _ hshort => ?_) fun _ c' hadded => ?_
  · -- fewer messages than a certificate takes
    exact ⟨fun _ hsize => absurd hsize (Nat.not_le.mpr hshort), rfl, id⟩
  cases hadded with
  | count hfew => exact ⟨fun h => absurd h hfew, rfl, fun _ => id⟩
  | certify => exact ⟨fun _ _ => rfl, rfl, fun h => nomatch h⟩

theorem addNullification_certified (n : Nullification P) (peers : PeerSet P) {c : ViewContext P}
    (hcert : c.Certified) :
    Ends (addNullification n peers c)
      (fun r c' => c'.Certified ∧ c'.mNotarization = c.mNotarization ∧
        (r = false → c'.isNullified = true → c.isNullified = true))
      (fun c' => c' = c) fun c' => c' = c := by
  refine addNullification_rule rfl (fun _ => rfl) fun _ r c' hadded => ?_
  cases hadded with
  | known => exact ⟨hcert, rfl, fun _ => id⟩
  | store => exact ⟨fun _ _ => rfl, rfl, fun h => nomatch h⟩

end ViewContext

namespace ViewChain

variable {S : Nat → Prop} {s : ViewChain P} {v : Nat}

/-- A message for view `v` was counted in its context: the chain is as before
but for that context, and the diffs are the same. -/
structure Routed (S : Nat → Prop) (v : Nat) (s s' : ViewChain P) : Prop where
  pending : s'.PendingWF
  tidy : s'.TidyBut fun w => w = v ∨ S w
  published : s'.publishedDiff v = s.publishedDiff v
  currentView : s'.currentView = s.currentView

theorem routed_refl (hp : s.PendingWF) (ht : s.TidyBut S) (v : Nat) : Routed S v s s :=
  ⟨hp, ht.mono fun _ => .inr, rfl, rfl⟩

theorem routed_setContext (hp : s.PendingWF) (ht : s.TidyBut S) {c c' : ViewContext P}
    (hc : s.findViewContext v = some c) (hcert : c'.Certified)
    (hm : c'.mNotarization = c.mNotarization) : Routed S v s (s.setContext v c') :=
  ⟨Replica.pendingWF_setContext hp hc hm, ht.setContext_but hcert, rfl, rfl⟩

/-- What routing leaves, with the answer whether the view has a new
nullification. -/
def RouteAnswer (S : Nat → Prop) (v : Nat) (s : ViewChain P) (r : Bool) (s' : ViewChain P) : Prop :=
  Routed S v s s' ∧ (r = false → s'.TidyBut S) ∧ (r = true → ∃ c, s'.findViewContext v = some c)

theorem routeNullify_tidy (n : Nullify P) (peers : PeerSet P) (hp : s.PendingWF)
    (ht : s.TidyBut S) :
    Ends (routeNullify n peers s) (RouteAnswer S n.view s) (TidyBut S) fun _ => True := by
  refine routeNullify_rule ht ⟨routed_refl hp ht _, fun _ => ht, fun h => nomatch h⟩ fun c hc => ?_
  refine (ViewContext.addNullify_certified n peers (ht.certified n.view c hc)).conseq ?_ ?_
    fun _ h => h.elim
  · refine fun _ c' h => ⟨routed_setContext hp ht hc h.1 h.2.1, fun hnone => ?_,
      fun _ => ⟨c', findViewContext_setContext_self ..⟩⟩
    exact ht.setContext hp hc h.1 (h.2.2 (by simpa using hnone))
  · exact fun c' h => ht.setContext hp hc h.1 h.2.2

theorem routeNullification_tidy (n : Nullification P) (peers : PeerSet P) (hp : s.PendingWF)
    (ht : s.TidyBut S) :
    Ends (routeNullification n peers s) (RouteAnswer S n.view s) (TidyBut S) fun _ => True := by
  refine routeNullification_rule ht fun c hc => ?_
  have hcert := ht.certified n.view c hc
  refine (ViewContext.addNullification_certified n peers hcert).conseq ?_ ?_ fun _ _ => trivial
  · exact fun r c' h => ⟨routed_setContext hp ht hc h.1 h.2.1,
      fun hr => ht.setContext hp hc h.1 (h.2.2 hr),
      fun _ => ⟨c', findViewContext_setContext_self ..⟩⟩
  · rintro c' rfl
    exact ht.setContext hp hc hcert id

/-- What a routed message leaves tidy: the view has no diff out. -/
theorem Routed.settle {s' : ViewChain P} (h : Routed S v s s') (hnone : s'.publishedDiff v = none) :
    s'.TidyBut S := by
  refine ⟨h.tidy.certified, fun w hw => (h.tidy.leftover w hw).resolve_left ?_⟩
  rintro rfl
  rw [Leftover, hnone] at hw
  cases hw.2

/-- A view that is held without an M-notarization has no diff out. -/
theorem PendingWF.unpublished (hp : s.PendingWF) {c : ViewContext P}
    (hc : s.findViewContext v = some c) (hm : c.mNotarization = none) :
    s.publishedDiff v = none := by
  rw [publishedDiff, hp.published]
  refine Option.eq_none_iff_forall_ne_some.mpr fun d hd => ?_
  have hsome := hp.notarized hd hc
  rw [hm] at hsome
  cases hsome

end ViewChain

/-- The view whose diff an event still has to take back. -/
def ViewProgressEvent.Owes (currentView : Nat) : ViewProgressEvent P → Nat → Prop
  | .shouldCascadeNullification v _ => fun w => w = v ∧ w ≤ currentView
  | _ => fun _ => False

namespace ViewProgressManager

variable {vm : ViewProgressManager P}

/-- The chain is tidy but for what the event owes. -/
abbrev Owing (e : ViewProgressEvent P) (vm : ViewProgressManager P) : Prop :=
  vm.viewChain.TidyBut (e.Owes vm.viewChain.currentView)

theorem unpublished_of_not_notarized (hp : vm.viewChain.PendingWF) {v : Nat}
    (hheld : ∃ c, vm.viewChain.findViewContext v = some c) (hm : ¬ vm.wasMNotarized v = true) :
    vm.viewChain.publishedDiff v = none := by
  obtain ⟨c, hc⟩ := hheld
  refine hp.unpublished hc ?_
  rw [wasMNotarized, hc] at hm
  simpa using hm

theorem handleNullify_tidy (n : Nullify P) (hp : vm.viewChain.PendingWF) (ht : vm.viewChain.Tidy)
    (hb : n.view = vm.viewChain.currentView → vm.viewChain.publishedDiff n.view = none) :
    Ends (handleNullify n vm) Owing (fun vm' => vm'.viewChain.Tidy) fun _ => True := by
  refine triple_get_bind (P := (· = vm)) ?_ vm rfl
  rintro vm' rfl
  refine Ahead.rule ⟨fun _ => ht, ht⟩ fun hle => asked (M := fun r vm =>
    RouteAnswer (fun _ => False) n.view vm'.viewChain r vm.viewChain)
    (ends_onChain (routeNullify_tidy n _ hp ht)) fun r => ?_
  refine spec_ite (fun hr => spec_get_bind fun vm₁ hvm₁ => ?_) fun hr => ?_
  · obtain ⟨hrouted, -, hheld⟩ := hvm₁
    refine spec_ite (fun h => spec_pure ?_) fun h => spec_pure ?_
    · rintro _ ⟨rfl, -⟩
      refine hrouted.tidy.mono fun w hw => ?_
      obtain rfl := hw.resolve_right id
      exact ⟨rfl, by rw [hrouted.currentView]; exact h.1.le⟩
    · rintro _ ⟨rfl, -⟩
      refine hrouted.settle ?_
      by_cases hcur : n.view = vm'.viewChain.currentView
      · exact hrouted.published.trans (hb hcur)
      · refine unpublished_of_not_notarized hrouted.pending (hheld hr) fun hm => h ⟨?_, hm⟩
        omega
  · exact spec_pure fun _ h => h.2.1 (by simpa using hr)

/-- Opening the next view with a fresh context adds no leftover. -/
theorem openView_tidy {S : Nat → Prop} (view : Nat) (parent : Hash P)
    (ready : ViewContext P → Bool) (refused : Nat → ConsensusError P) :
    Spec (fun vm => vm.viewChain.PendingWF ∧ vm.viewChain.TidyBut S)
      (openView view parent (progressIf ready refused id))
      (fun _ vm => vm.viewChain.TidyBut S) (fun vm => vm.viewChain.TidyBut S)
      fun _ => True := by
  rintro vm ⟨hp, ht⟩
  refine openView_rule ⟨_, fun _ _ => rfl⟩ (fun _ => trivial) ht fun _ _ _ _ _ => ?_
  refine ht.shrink hp (.refl hp.published) fun {v c'} hc' => ?_
  rcases findViewContext_setContext_cases hc' with ⟨-, rfl⟩ | ⟨-, hold⟩
  · exact ⟨fun h => absurd h (Nat.not_lt_zero _), fun h => nomatch h⟩
  · exact ⟨ht.certified v c' hold, fun hn => ⟨c', hold, hn⟩⟩

theorem handleNullification_tidy (n : Nullification P) (hp : vm.viewChain.PendingWF)
    (ht : vm.viewChain.Tidy)
    (hb : n.view = vm.viewChain.currentView → vm.viewChain.publishedDiff n.view = none) :
    Ends (handleNullification n vm) Owing (fun vm' => vm'.viewChain.Tidy) fun _ => True := by
  refine triple_get_bind (P := (· = vm)) ?_ vm rfl
  rintro vm' rfl
  refine Ahead.rule ⟨fun _ => ht, ht⟩ fun hle => asked (M := fun r vm =>
    RouteAnswer (fun _ => False) n.view vm'.viewChain r vm.viewChain)
    (ends_onChain (routeNullification_tidy n _ hp ht)) fun r => ?_
  refine spec_get_bind fun vm₁ hvm₁ => ?_
  obtain ⟨hrouted, htidy, hheld⟩ := hvm₁
  refine spec_ite (fun h => spec_pure ?_) fun h => ?_
  · rintro _ ⟨rfl, -⟩
    refine hrouted.tidy.mono fun w hw => ?_
    obtain rfl := hw.resolve_right id
    exact ⟨rfl, by rw [hrouted.currentView]; exact h.1.le⟩
  refine spec_ite (fun hcur => ?_) fun hcur => ?_
  · refine spec_bind ((openView_tidy (S := fun _ => False) _ _ _ _).weaken ?_ fun _ _ h => h)
      fun _ => spec_pure fun _ h => h
    rintro _ ⟨rfl, -⟩
    exact ⟨hrouted.pending, hrouted.settle (hrouted.published.trans (hb hcur))⟩
  refine spec_ite (fun hr => spec_pure ?_) fun hr => spec_pure ?_
  · rintro _ ⟨rfl, -⟩
    refine hrouted.settle (unpublished_of_not_notarized hrouted.pending (hheld hr) fun hm => ?_)
    exact h ⟨by omega, hr, hm⟩
  · rintro _ ⟨rfl, -⟩
    exact htidy (by simpa using hr)

end ViewProgressManager

/-! ## Events -/

namespace Replica

variable {cfg : Config P} {α β : Type} {s : Replica P} {env : Env P}

/-- The only leftovers are in `S`. -/
abbrev Neat (S : Nat → Prop) (s : Replica P) : Prop := s.chain.PendingWF ∧ s.chain.TidyBut S

/-- The operation leaves no new leftover, whatever its outcome. -/
def KeepsNeat (op : Op P α) : Prop :=
  ∀ S, Act.Spec (Neat S) op (fun _ => Neat S) (Neat S) (Neat S)

variable {op : Op P α}

theorem KeepsNeat.bind {f : α → Op P β} (hop : KeepsNeat op)
    (hf : ∀ a, KeepsNeat (f a)) : KeepsNeat (op >>= f) :=
  fun S => spec_bind (hop S) fun a => hf a S

theorem keepsNeat_of_chain (h : Preserves chain op) : KeepsNeat op :=
  fun S => h.spec fun chain => chain.PendingWF ∧ chain.TidyBut S

theorem keepsNeat_pure (a : α) : KeepsNeat (pure a : Op P α) :=
  keepsNeat_of_chain (preserves_pure a)

theorem onManager_chain {op : ViewProgressManager.Op P α} (h : Preserves (·.viewChain) op) :
    Preserves chain (onManager op) := fun s => h s.viewManager

theorem KeepsNeat.tidy (h : KeepsNeat op) :
    Spec (Neat fun _ => False) op (fun _ s => s.chain.Tidy) (fun s => s.chain.Tidy) fun _ => True :=
  (h _).conseq (fun _ h => h) (fun _ _ h => h.2) (fun _ h => h.2) fun _ _ => trivial

/-- What only sends leaves the chain alone. -/
theorem mute_chain : Mute (chain (P := P)) := fun _ _ _ => rfl

theorem requireContext_chain (v : Nat) : Preserves (·.viewChain) (requireContext (P := P) v) :=
  preserves_requireContext _ v

/-- One context was replaced by one that is nullified as it was. -/
theorem Neat.setContext {S : Nat → Prop} (h : Neat S s) {v : Nat} {c c' : ViewContext P}
    (hc : s.context v = some c) (hm : c'.mNotarization = c.mNotarization)
    (hcert : c.Certified → c'.Certified) (hn : c'.isNullified = true → c.isNullified = true) :
    Neat S (s.onChain (·.setContext v c')) :=
  ⟨pendingWF_setContext h.1 hc hm, h.2.setContext h.1 hc (hcert (h.2.certified v c hc)) hn⟩

/-- The own vote nullifies nothing. -/
theorem addOwnVote_neat (v : Nat) (h : Hash P) (signature : BlsSignature P) :
    KeepsNeat (onManager (addOwnVote v h signature)) := by
  intro S
  refine spec_onManager fun s hs => ?_
  refine spec_bind (P := (· = s.viewManager))
    (Q := fun c vm => vm = s.viewManager ∧ s.context v = some c)
    ((spec_requireContext ?_ : Spec (· = s.viewManager) _ _ _ _).weaken (fun _ h => h) ?_)
    (fun c => spec_onChain ?_) _ rfl
  · rintro _ rfl
    exact hs
  · rintro c _ ⟨rfl, hc⟩
    exact ⟨rfl, hc⟩
  rintro _ ⟨rfl, hc⟩
  have hcast : Neat S (s.onChain (·.setContext v (c.castVote h signature))) :=
    hs.setContext hc rfl id id
  have hsame : Neat S (s.onChain (·.setContext v c)) := hs.setContext hc rfl id id
  refine runOn_rule ?_
  unfold ViewContext.addOwnVote
  split
  · exact hsame
  split
  · split
    · exact hsame
    · exact hcast
  · exact hcast

theorem voteForBlock_neat (env : Env P) (v : Nat) (h : Hash P) :
    KeepsNeat (voteForBlock env v h) := by
  refine (keepsNeat_of_chain (onManager_chain (requireContext_chain v))).bind fun c => ?_
  refine (keepsNeat_of_chain fun _ => rfl).bind fun signature => ?_
  refine (keepsNeat_of_chain fun _ => rfl).bind fun _ => ?_
  refine (keepsNeat_of_chain fun _ => rfl).bind fun _ => ?_
  refine fun S => spec_get_bind fun s _ => ?_
  exact (((keepsNeat_of_chain (mute_chain.broadcast env _)).bind fun _ =>
    addOwnVote_neat v h signature) S).weaken (fun _ hs => hs.2) fun _ _ hs => hs

/-- Finalization nullifies and publishes nothing. -/
theorem finalizeView_neat (v : Nat) : KeepsNeat (finalizeView (P := P) v) := by
  intro S
  refine spec_get_bind fun s _ => spec_ite (fun _ => spec_pure fun _ hs => hs.2) fun _ => ?_
  refine spec_bind (Q := fun _ => Neat S) ?_ fun _ => spec_bind (Q := fun _ => Neat S)
    (spec_onManager fun s hs => ?_) fun _ => spec_modify fun _ hs => hs
  · refine ((keepsNeat_of_chain (onManager_chain ?_)) S).weaken (fun _ hs => hs.2) fun _ _ hs => hs
    refine preserves_bind (requireContext_chain v) fun c => ?_
    cases c.block with
    | some b => exact preserves_pure _
    | none => exact fun _ => rfl
  -- the attempt is recorded, then the chain is finalized, then the missing blocks are noted
  have hprunes := finalize_prunes v s.viewManager.peers s.chain
  have hshrinks := finalize_shrinks v s.viewManager.peers hs.1.published
  have hfin : ∀ ch, ch = (finalizeWithLNotarization v s.viewManager.peers s.chain).2 →
      ch.PendingWF ∧ ch.TidyBut S := by
    rintro _ rfl
    exact ⟨hs.1.shrink hshrinks hprunes.currentView.ge
        fun {w c} _ hc => ⟨c, hprunes.find w c hc, id⟩,
      hs.2.shrink hs.1 hshrinks fun {w c} hc => ⟨hs.2.certified w c (hprunes.find w c hc),
        fun hn => ⟨c, hprunes.find w c hc, hn⟩⟩⟩
  refine spec_bind (P := (· = s.viewManager))
    (Q := fun _ vm => vm.viewChain = s.chain ∧ vm.peers = s.viewManager.peers)
    (spec_modify ?_) (fun _ => ?_) _ rfl
  · rintro _ rfl
    exact ⟨rfl, rfl⟩
  refine spec_get_bind fun vm hvm => ?_
  refine spec_bind (Q := fun _ vm => Neat S (s.withManager vm)) (spec_onChain ?_) fun _ =>
    spec_modify fun vm' hs' => ⟨{ hs'.1 with }, hs'.2.certified, hs'.2.leftover⟩
  rintro _ ⟨rfl, hchain, hpeers⟩
  rw [hchain, hpeers]
  exact ends_iff_state.mpr (hfin _ rfl)

/-- Making a nullify message sets the flag or fails. -/
theorem nullifyOperation_ends {force : Bool} {secretKey : BlsSecretKey P} {c : ViewContext P}
    {op : ViewContext.Op P (Nullify P)} (h : nullifyOperation force secretKey c = some op) :
    Ends (op c) (fun _ c' => c' = { c with hasNullified := true }) (· = c) fun _ => False := by
  have hcreate : ∀ {c : ViewContext P}, Ends (createNullifyForByzantine secretKey c)
      (fun _ c' => c' = { c with hasNullified := true }) (· = c) fun _ => False := by
    intro c
    unfold createNullifyForByzantine
    split
    · rfl
    · rfl
  unfold nullifyOperation at h
  dsimp only at h
  split at h
  · obtain rfl := Option.some.inj h
    exact hcreate
  split at h
  · obtain rfl := Option.some.inj h
    exact hcreate
  split at h
  · cases h
  · obtain rfl := Option.some.inj h
    unfold createNullifyForTimeout
    split
    · rfl
    · rfl

/-- The view is held and may be a leftover. -/
def NeatBut (v : Nat) (S : Nat → Prop) (s : Replica P) : Prop :=
  (∃ c, s.context v = some c) ∧ Neat (fun w => w = v ∨ S w) s

/-- The flag is set and the diff goes. -/
theorem markNullified_neat {v : Nat} {S : Nat → Prop} :
    Spec (NeatBut (P := P) v S) (onManager (markNullified v)) (fun _ => Neat S) (Neat S)
      (Neat S) := by
  refine spec_onManager ?_
  rintro s ⟨⟨c, hc⟩, hs⟩
  unfold markNullified
  split
  case h_1 hnone => exact absurd (hc.symm.trans hnone) (by simp)
  case h_2 c' hc' =>
    have hset : (s.chain.setContext v { c' with hasNullified := true }).PendingWF :=
      pendingWF_setContext hs.1 hc' rfl
    have hcert := hs.2.certified v c' hc'
    have hbut : (s.chain.setContext v { c' with hasNullified := true }).TidyBut _ :=
      hs.2.setContext_but hcert
    have htidy := hbut.drop hset v
    refine ⟨hset.drop v, htidy.mono fun w hw => ?_⟩
    exact (hw.1.resolve_left hw.2).resolve_left hw.2

variable (hqueue : ∀ now, env.broadcastOk now = true)

include hqueue

/-- **`nullify_view` takes the diff back**, if its message can be queued. -/
theorem nullifyView_neat (v : Nat) (force : Bool) : KeepsNeat (nullifyView env v force) := by
  intro S
  refine spec_bind (Q := fun c s => Neat S s ∧ s.context v = some c) (spec_onManager ?_) fun c => ?_
  · intro s hs
    refine (requireContext_ends v s).conseq ?_ ?_ fun _ h => h.elim
    · rintro c vm ⟨heq, hc⟩
      rw [heq]
      exact ⟨hs, hc⟩
    · intro vm heq
      rw [heq]
      exact hs
  refine spec_ite (fun _ => spec_pure fun _ hs => hs.1) fun _ => ?_
  refine spec_get_bind fun s _ => ?_
  rcases hop : nullifyOperation force s.secretKey c with _ | op
  · exact spec_pure fun _ hs => hs.2.1
  refine spec_bind (Q := fun _ s => Neat S s ∧ s.context v = some c)
    (spec_modify fun _ hs => hs.2) fun _ => ?_
  refine spec_bind (Q := fun _ => NeatBut v S) (spec_onManager ?_) fun n => ?_
  · rintro s ⟨hs, hc⟩
    refine (spec_onChain ?_ : Spec (· = s.viewManager) _ _ _ _) _ rfl
    rintro _ rfl
    refine runOn_rule ((nullifyOperation_ends hop).conseq ?_ ?_ fun _ h => h.elim)
    · rintro _ _ rfl
      have hcert := hs.2.certified v c hc
      exact ⟨⟨_, findViewContext_setContext_self ..⟩,
        pendingWF_setContext hs.1 hc rfl, hs.2.setContext_but hcert⟩
    · rintro _ rfl
      exact hs.setContext hc rfl id id
  refine spec_bind (Q := fun _ => NeatBut v S) ?_ fun _ => markNullified_neat
  intro s hs
  refine (broadcast_ends env (.nullify n) s).conseq ?_ ?_ fun _ h => h.elim
  · rintro _ _ ⟨-, rfl⟩
    exact hs
  · rintro _ ⟨hrefused, -⟩
    exact absurd (hqueue s.clock) (by rw [hrefused]; decide)

/-- The forced nullify and the rollback: no leftover in the range is left. -/
theorem nullifyCurrentAndRollback_neat (startView : Nat) (S : Nat → Prop) :
    Spec (fun s => Neat S s ∧ ∀ v, S v → startView ≤ v ∧ v ≤ s.currentView)
      (nullifyCurrentAndRollback env startView) (fun _ => Neat fun _ => False)
      (Neat fun _ => False) fun _ => True := by
  refine spec_get_bind fun s₀ h₀ => ?_
  refine spec_bind (Q := fun _ => Neat S) ((spec_attempt_same
    (nullifyView_neat hqueue s₀.currentView true S)).conseq (fun _ hs => hs.2.1) (fun _ _ h => h)
    (fun _ h => h) fun _ _ => trivial) fun _ => ?_
  refine spec_bind (spec_modify fun s hs => ?_) fun _ => spec_pure fun _ hs => hs
  have hroll := hs.2.rollback hs.1 startView s₀.currentView
  refine ⟨hs.1.rollback startView s₀.currentView, hroll.mono fun v hv => ?_⟩
  exact absurd (hv.2 (h₀.2 v hv.1).1) (Nat.not_lt.mpr (h₀.2 v hv.1).2)

/-- **A cascade takes back what it owes.** -/
theorem cascade_neat (v : Nat) (broadcast : Bool)
    (hs : Neat (fun w => w = v ∧ w ≤ s.currentView) s) :
    Ends (eventPrefix env (.shouldCascadeNullification v broadcast) s)
      (fun _ s => s.chain.Tidy) (fun s => s.chain.Tidy) fun _ => True := by
  refine spec_bind (P := (· = s)) (Q := fun _ s' => s'.chain = s.chain) ?_ (fun _ => ?_) s rfl
  · exact (spec_attempt_same ((mute_chain.forwardNullification env broadcast v).spec
      (· = s.chain))).conseq (fun _ h => h ▸ rfl) (fun _ _ h => h) (fun _ h => h) fun _ _ => trivial
  refine spec_bind ((nullifyCurrentAndRollback_neat hqueue v
    fun w => w = v ∧ w ≤ s.currentView).conseq ?_ (fun _ _ h => h) (fun _ h => h.2)
      fun _ _ => trivial) fun currentView => ?_
  · intro s' hchain
    refine ⟨by rw [Neat, hchain]; exact hs, ?_⟩
    rintro w ⟨rfl, hw⟩
    have hcur : s'.currentView = s.currentView := congrArg ViewChain.currentView hchain
    exact ⟨Nat.le_refl _, hcur ▸ hw⟩
  refine spec_bind (Q := fun _ => Neat fun _ => False) (spec_modify fun _ h => h) fun _ => ?_
  refine spec_bind (Q := fun _ s => s.chain.Tidy) (spec_onManager fun s hs => ?_) fun r =>
    spec_pure fun _ h => h
  refine spec_get_bind (P := (· = s.viewManager)) (fun vm hvm => ?_) _ rfl
  refine spec_bind ((openView_tidy (S := fun _ => False) _ _ _ _).weaken ?_ fun _ _ h => h)
    fun _ => spec_pure fun _ h => h
  rintro _ ⟨rfl, rfl⟩
  exact hs

/-- **The event handler** leaves nothing owed, if every message can be
queued. -/
theorem eventPrefix_neat {event : ViewProgressEvent P} (hp : s.chain.PendingWF)
    (hs : s.chain.TidyBut (event.Owes s.currentView)) :
    Ends (eventPrefix env event s) (fun _ s => s.chain.Tidy) (fun s => s.chain.Tidy)
      fun _ => True := by
  have hkeeps : ∀ event : ViewProgressEvent P, (∀ v broadcast, eventPart event ≠ .cascade v broadcast) →
      s.chain.Tidy → Ends (eventPrefix env event s) (fun _ s => s.chain.Tidy)
        (fun s => s.chain.Tidy) fun _ => True := by
    intro event hpart ht
    rw [eventPrefix_eq]
    have hvote : KeepsNeat (castVote env (eventVote event)) := by
      cases eventVote event with
      | none => exact keepsNeat_pure _
      | some vote => exact voteForBlock_neat env vote.1 vote.2
    refine spec_bind ((hvote fun _ => False).conseq (fun _ h => h) (fun _ _ h => h) (fun _ h => h.2)
      fun _ _ => trivial) (fun _ => ?_) s ⟨hp, ht⟩
    cases hcase : eventPart event with
    | send x rest =>
      exact ((keepsNeat_of_chain (mute_chain.sending env x)).bind fun _ => keepsNeat_pure _).tidy
    | finalize v => exact ((finalizeView_neat v).bind fun _ => keepsNeat_pure _).tidy
    | nullify v => exact ((nullifyView_neat hqueue v false).bind fun _ => keepsNeat_pure _).tidy
    | nullifyRange v =>
      exact spec_bind ((nullifyCurrentAndRollback_neat hqueue v fun _ => False).conseq
        (fun _ h => ⟨h, fun _ h => h.elim⟩) (fun _ _ h => h) (fun _ h => h.2) fun _ _ => trivial)
        fun _ => spec_pure fun _ h => h.2
    | cascade v broadcast => exact absurd hcase (hpart v broadcast)
  cases event with
  | shouldCascadeNullification v broadcast => exact cascade_neat hqueue v broadcast ⟨hp, hs⟩
  | _ => exact hkeeps _ nofun hs

end Replica

/-! ## Runs -/

/-- A message that nullifies the current view finds no diff of it out. -/
def Moment.NullifiesUnpublished : Moment P → Prop
  | .processed (.nullify n) chain =>
    n.view = chain.currentView → chain.publishedDiff n.view = none
  | .processed (.nullification n) chain =>
    n.view = chain.currentView → chain.publishedDiff n.view = none
  | _ => True

instance : (e : Moment P) → Decidable e.NullifiesUnpublished
  | .processed (.nullify _) _ | .processed (.nullification _) _ =>
    inferInstanceAs (Decidable (_ → _))
  | .processed (.blockProposal _) _ | .processed (.vote _) _ | .processed (.mNotarization _) _
  | .processed (.blockRecoveryRequest ..) _ | .processed (.blockRecoveryResponse ..) _
  | .voted .. => isTrue trivial

instance (s : ViewChain P) : Decidable s.PublishesLive :=
  inferInstanceAs (Decidable (∀ e ∈ s.publications, e.2.isNullified = false))

namespace Replica

variable {cfg : Config P} {A : Admission cfg} {s s₁ : Replica P}
  {op : ViewProgressManager.Op P (ViewProgressEvent P)}

/-- The replica without its buffered messages. -/
def unbuffered (s : Replica P) : Replica P := { s with pendingMessages := ∅ }

theorem WF.mild (hs : s.WF A) : s.unbuffered.WF (mildAdmission cfg) :=
  { hs with
    pending := fun _ _ _ _ _ => rfl
    buffered := fun _ _ _ h => nomatch h }

/-- Every diff was published for a live view, so there is no leftover. -/
def TidyIfLive (s : Replica P) : Prop := s.chain.PublishesLive → s.chain.Tidy

/-- There is no leftover but what the event owes. -/
def OwingIfLive (e : ViewProgressEvent P) (s : Replica P) : Prop :=
  s.chain.PublishesLive → s.chain.TidyBut (e.Owes s.currentView)

variable {α : Type}

variable {Q : α → Replica P → Prop}

theorem endsBy_onManager {op : ViewProgressManager.Op P α}
    {E : Replica P → Prop} {B : Abort → Replica P → Prop}
    (h : EndsBy (op s.viewManager) (fun a vm => Q a (s.withManager vm))
      (fun vm => E (s.withManager vm)) fun k vm => B k (s.withManager vm)) :
    EndsBy (onManager op s) Q E B :=
  triple_zoom (P := (· = s)) (fun _ hs => hs ▸ h) s rfl

/-- The manager handled something that nullifies nothing. -/
theorem onManager_tidy (hs₁ : s₁.unbuffered.WF (mildAdmission cfg)) (hchain : s₁.chain = s.chain)
    (hp : s.chain.PendingWF) (hJ : s.TidyIfLive)
    (hop : Ends (onManager op s₁.unbuffered) (fun e => Promised (mildAdmission cfg) s₁.unbuffered e)
      (At (mildAdmission cfg) s₁.unbuffered) (At (mildAdmission cfg) s₁.unbuffered)) :
    EndsBy (onManager op s₁) OwingIfLive TidyIfLive fun _ _ => True := by
  have hsteps : Steps (A := mildAdmission cfg) s₁.unbuffered (onManager op s₁.unbuffered).2 :=
    ends_iff_state.mp (hop.conseq (fun _ _ h => h.steps) (fun _ h => h.steps)
      fun _ h => h.steps)
  have htidy : (onManager op s₁.unbuffered).2.TidyIfLive := by
    intro hlive
    refine Steps.tidy hsteps hs₁ (hchain.symm ▸ hp) rfl hlive (hchain.symm ▸ hJ fun e he => ?_)
    refine hlive e (Steps.invariant (I := fun s => e ∈ s.chain.publications)
      (fun _ _ _ hstep he => hstep.publications he) hsteps hs₁ ?_)
    exact hchain.symm ▸ he
  have hvm : ∀ o vm, op s₁.viewManager = (o, vm) → (s₁.withManager vm).TidyIfLive := by
    intro o vm hr
    have hstate : (onManager op s₁.unbuffered).2.chain = vm.viewChain :=
      congrArg (fun r => r.2.viewChain) hr
    rw [TidyIfLive, hstate] at htidy
    exact htidy
  refine endsBy_onManager ?_
  rcases hr : op s₁.viewManager with ⟨o, vm⟩
  cases o with
  | ok e => exact fun hlive => (hvm _ vm hr hlive).mono fun _ h => h.elim
  | err e => exact hvm _ vm hr
  | _ => trivial

theorem process_tidy {fuel : Nat} {m : ConsensusMessage P}
    (hs₁ : s₁.unbuffered.WF (mildAdmission cfg)) (hchain : s₁.chain = s.chain)
    (hset : s.chain.Settled) (hp : s.chain.PendingWF) (hJ : s.TidyIfLive)
    (hm : m.nullifies = false) :
    EndsBy (onManager (processConsensusMsg fuel m) s₁) OwingIfLive TidyIfLive fun _ _ => True :=
  onManager_tidy hs₁ hchain hp hJ (processKnown_spec hs₁ _ ⟨At.refl (hchain ▸ hset), .inl hm⟩)

/-- The manager handled a message that nullifies. -/
theorem onManager_owing (hvm : s₁.viewManager = s.viewManager) (hJ : s.TidyIfLive)
    (hpub : ∀ e ∈ s.chain.publications, e ∈ (onManager op s₁).2.chain.publications)
    (hop : s.chain.Tidy → Ends (op s.viewManager) Owing (fun vm => vm.viewChain.Tidy)
      fun _ => True) : EndsBy (onManager op s₁) OwingIfLive TidyIfLive fun _ _ => True := by
  refine endsBy_onManager ?_
  rw [hvm]
  have hstate : (onManager op s₁).2.chain = (op s.viewManager).2.viewChain := by
    rw [← hvm]
    rfl
  rw [hstate] at hpub
  rcases hr : op s.viewManager with ⟨o, vm⟩
  rw [hr] at hop hpub
  have hlift : (s₁.withManager vm).chain.PublishesLive → s.chain.Tidy :=
    fun hlive => hJ fun e he => hlive e (hpub e he)
  cases o with
  | ok e | err e => exact fun hlive => hop (hlift hlive)
  | _ => trivial

theorem Moved.publications
    {r : Outcome (ConsensusError P) α × Replica P} (h : Moved A s Q r) (hs : s.WF A)
    (hQ : ∀ a s', Q a s' → Steps (A := A) s s') :
    ∀ e ∈ s.chain.publications, e ∈ r.2.chain.publications :=
  fun _ he => Steps.invariant (I := fun s => _ ∈ s.chain.publications)
    (fun _ _ _ hstep he => hstep.publications he) (Moved.steps h hQ) hs he

/-- An operation that leaves nothing owed, in a run that publishes for live
views only. -/
theorem endsBy_ifLive {op : Op P α}
    (hpub : ∀ e ∈ s.chain.publications, e ∈ (op s).2.chain.publications)
    (h : s.chain.PublishesLive → Ends (op s) (fun _ s => s.chain.Tidy) (fun s => s.chain.Tidy)
      fun _ => True) : EndsBy (op s) (fun _ => TidyIfLive) TidyIfLive fun _ _ => True := by
  have hlift : (op s).2.chain.PublishesLive → s.chain.PublishesLive :=
    fun hlive e he => hlive e (hpub e he)
  rcases hr : op s with ⟨o, s'⟩
  rw [hr] at h hlift
  cases o with
  | ok a => exact fun hlive => h (hlift hlive)
  | err e => exact fun hlive => h (hlift hlive)
  | _ => trivial

/-- An operation that leaves no new leftover. -/
theorem KeepsNeat.endsBy {op : Op P α} (hop : KeepsNeat op) (hp : s.chain.PendingWF)
    (hJ : s.TidyIfLive) (hpub : ∀ e ∈ s.chain.publications, e ∈ (op s).2.chain.publications) :
    EndsBy (op s) (fun _ => TidyIfLive) TidyIfLive fun _ _ => True :=
  endsBy_ifLive hpub fun hlive => (hop _ s ⟨hp, hJ hlive⟩).conseq (fun _ _ h => h.2)
    (fun _ h => h.2) fun _ _ => trivial

theorem markProposed_neat (v : Nat) : KeepsNeat (onManager (markProposed (P := P) v)) := by
  intro S
  refine spec_onManager fun s hs => ?_
  unfold markProposed
  split
  · split
    · exact hs
    · rename_i c hc
      exact hs.setContext hc rfl id id
  · exact hs

/-- Between events every published diff is one of a live view. -/
theorem tidy_rules (A : Admission cfg) (hqueue : ∀ now, cfg.env.broadcastOk now = true) :
    Rules A Moment.NullifiesUnpublished (fun s => s.chain.PendingWF) TidyIfLive OwingIfLive
      fun _ _ => True where
  ask h := h
  buffer _ _ h := h
  unbuffer _ h := h
  exhausted _ := trivial
  process {s m fuel} hs hJ hC _ hmoved := by
    have hp : s.chain.PendingWF := hs.inv .refl
    have hpub := Moved.publications hmoved hs.wf fun _ _ h => h.steps
    cases hm : m.nullifies with
    | false =>
      exact process_tidy (s := s) (WF.mild { hs.wf with }) rfl hs.settled hp hJ hm
    | true =>
      cases m with
      | nullify n => exact onManager_owing rfl hJ hpub fun ht => handleNullify_tidy n hp ht hC
      | nullification n =>
        exact onManager_owing rfl hJ hpub fun ht => handleNullification_tidy n hp ht hC
      | _ => cases hm
  tick {s now} hs hJ _ :=
    onManager_tidy (WF.mild hs.wf) rfl (hs.inv .refl) hJ
      (spec_onManager (fun s' hat => tick_spec (WF.mild hs.wf) s'.viewManager hat) _
        (At.refl hs.settled))
  event {s event} hs _ hD hmoved := by
    have hpub := Moved.publications hmoved hs.wf fun _ _ h => h.steps
    exact endsBy_ifLive hpub fun hlive => eventPrefix_neat hqueue (hs.inv .refl) (hD hlive)
  finalize {s v} hs hJ hmoved :=
    (finalizeView_neat v).endsBy (hs.inv .refl) hJ
      (Moved.publications hmoved hs.wf fun _ _ h => h.steps)
  refused _ h := h
  own {s view parent fuel now} hs hJ _ _ _ :=
    process_tidy (s := s) { WF.mild hs.wf with } rfl hs.settled (hs.inv .refl) hJ rfl
  ownVote {s event signature handleEvent} hs _ hD _ hasks hmoved := by
    have hpub := Moved.publications hmoved hs.wf fun _ _ h => h.steps
    cases event with
    | shouldVote v h =>
      exact (addOwnVote_neat v h signature).endsBy (hs.inv .refl) hD hpub
    | shouldVoteAndFinalize v h =>
      exact ((addOwnVote_neat v h signature).bind fun _ => finalizeView_neat v).endsBy
        (hs.inv .refl) hD hpub
    | shouldVoteAndMNotarize v h forward =>
      exact ((addOwnVote_neat v h signature).bind fun _ => keepsNeat_of_chain
        (mute_chain.createAndBroadcastMNotarization cfg.env v forward)).endsBy (hs.inv .refl) hD hpub
    | _ => exact hasks.elim
  proposed {s v} hs hJ hmoved :=
    (markProposed_neat v).endsBy (hs.inv .refl) hJ
      (Moved.publications hmoved hs.wf fun _ _ h => h.steps)

/-- **No diff of a nullified view is out** after an input was handled, in a run
in which every message is queued, no diff is published for a nullified view
and no message nullifies the current view while its diff is out. -/
theorem nullified_view_unpublished (hqueue : ∀ now, cfg.env.broadcastOk now = true)
    {s : Replica P} (h : Run cfg (fun _ _ => True) s true) (hlive : s.chain.PublishesLive)
    (hmoments : ∀ e ∈ s.history, e.NullifiesUnpublished) {v : Nat} {c : ViewContext P}
    (hc : s.context v = some c) (hn : c.isNullified = true) :
    s.chain.publishedDiff v = none := by
  have hinv : ∀ {s}, Steps (A := .any cfg) (start cfg) s → s.chain.PendingWF := fun hsteps =>
    Steps.invariant (fun _ _ hwf hstep hp => hstep.pendingWF hwf hp) hsteps start_wf start_pendingWF
  have hstart : (start cfg).TidyIfLive := by
    intro _
    refine ⟨fun w d hd => ?_, fun w hw => nomatch hw.2⟩
    obtain ⟨rfl, rfl⟩ := start_context hd
    exact fun h => absurd h (Nat.not_lt_zero _)
  have htidy := ((tidy_rules (.any cfg) hqueue).run (fun _ _ _ => trivial) hinv hstart h
    hmoments).1 rfl hlive
  by_contra hsome
  exact htidy.leftover v ⟨⟨c, hc, hn⟩, Option.isSome_iff_ne_none.mpr hsome⟩

/-- Replica 0 publishes the diff of view 1 and takes it back when view 1 is
nullified. -/
theorem nullified_view_unpublished_cascade :
    let s := (runAll (sampleConfig 0 (quietEnv _)) 20 cascadeInputs).1
    s.chain.publications.map (·.1) = [1] ∧
      (∃ c, s.context 1 = some c ∧ c.isNullified = true) ∧ s.chain.publishedDiff 1 = none := by
  have hrun := run_goes (sampleConfig 0 (quietEnv _)) 20 cascadeInputs (fun _ => True)
    (by decide +kernel) fun _ _ => trivial
  have hheld : ((runAll (sampleConfig 0 (quietEnv _)) 20 cascadeInputs).1.context 1).any
      (·.isNullified) = true := by decide +kernel
  obtain ⟨c, hc, hn⟩ := (Option.any_eq_true _ _).mp hheld
  exact ⟨by decide +kernel, ⟨c, hc, hn⟩, nullified_view_unpublished (fun _ => rfl) hrun
    (by decide +kernel) (by decide +kernel) hc hn⟩

/-- Every view has timed out at every moment. -/
def impatientEnv : Env sampleParams := { quietEnv sampleParams with timedOut := fun _ _ => true }

/-- Replica 0 times out in view 1, then gets its block and its certificate. -/
def lateCertificate : List (Input sampleParams) :=
  [.tick, .message (.blockProposal firstBlock),
    .message (.mNotarization (certificateOf 1 firstBlock.getHash))]

/-- Replica 0 has nullified view 1 and publishes its diff when it leaves it
with the M-notarization. -/
theorem nullified_view_published :
    ∃ s : Replica sampleParams,
      Run (sampleConfig 0 impatientEnv) (fun _ m => m.WellTyped) s true ∧
      (∃ c, s.context 1 = some c ∧ c.hasNullified = true) ∧
      (s.chain.publishedDiff 1).isSome = true := by
  have hrun := run_goes (sampleConfig 0 impatientEnv) 20 lateCertificate (·.WellTyped)
    (by decide +kernel) (by decide +kernel)
  have hheld : ((runAll (sampleConfig 0 impatientEnv) 20 lateCertificate).1.context 1).any
      (·.hasNullified) = true := by decide +kernel
  exact ⟨_, hrun, (Option.any_eq_true _ _).mp hheld, by decide +kernel⟩

end Replica

end Minimmit
