/-
Minimmit.Consensus.FinalizationSteps — what finalization does to the held
views.

Whatever its outcome, `finalizeWithLNotarization view` only takes contexts
out of the map, none above `view`, and leaves the current view alone
(`Prunes`). What it writes to the store is the subject of
`FinalizationTheorems`.
-/
import Minimmit.Consensus.ChainSteps

namespace Minimmit

open Minimmit.Library Act List

variable {P : Params}

namespace ViewChain

variable {v view : Nat} {canonical range : List Nat} {peers : PeerSet P} {s : ViewChain P}

/-- `s'` is `s` with some contexts up to `view` taken out. -/
structure Prunes (view : Nat) (s s' : ViewChain P) : Prop where
  currentView : s'.currentView = s.currentView
  find : ∀ v c, s'.findViewContext v = some c → s.findViewContext v = some c
  above : ∀ v, view < v → s'.findViewContext v = s.findViewContext v
  publications : s'.publications = s.publications

theorem Prunes.refl (view : Nat) (s : ViewChain P) : Prunes view s s :=
  ⟨rfl, fun _ _ h => h, fun _ _ => rfl, rfl⟩

theorem Prunes.trans {s₁ s₂ s₃ : ViewChain P} (h₁ : Prunes view s₁ s₂) (h₂ : Prunes view s₂ s₃) :
    Prunes view s₁ s₃ :=
  ⟨h₂.currentView.trans h₁.currentView, fun v c h => h₁.find v c (h₂.find v c h),
    fun v hv => (h₂.above v hv).trans (h₁.above v hv), h₂.publications.trans h₁.publications⟩

theorem prunes_commit (view : Nat) (s : ViewChain P) (h : Hash P) : Prunes view s (s.commit h) :=
  ⟨rfl, fun _ _ h => h, fun _ _ => rfl, rfl⟩

theorem prunes_removeView (hv : v ≤ view) (s : ViewChain P) : Prunes view s (s.removeView v) := by
  refine ⟨rfl, ?_, ?_, rfl⟩
  · intro w c h
    by_cases hw : w = v
    · subst hw
      exact absurd (h.symm.trans (AList.lookup_erase w s.nonFinalizedViews)) (by simp)
    · exact (AList.lookup_erase_ne hw).symm.trans h
  · intro w hw
    exact AList.lookup_erase_ne (by omega)

/-- Writing through the writer leaves the contexts alone. -/
theorem persist_prunes (view : Nat) (op : WriterOp P Unit) (s : ViewChain P) :
    Prunes view s (persist op s).2 := by
  unfold persist Act.zoom
  exact ⟨rfl, fun _ _ h => h, fun _ _ => rfl, rfl⟩

variable {c : ViewContext P}

theorem persistView_prunes : Prunes view s (persistView view canonical peers v c s).2 := by
  unfold persistView
  split
  · split
    · exact .refl view s
    · exact (prunes_commit view s _).trans (persist_prunes view _ _)
  split
  · rcases c.blockHash with _ | h
    · dsimp only
      split <;> exact persist_prunes view _ s
    · dsimp only
      split <;> exact (prunes_commit view s h).trans (persist_prunes view _ _)
  · exact persist_prunes view _ s

theorem persistStep_prunes (hv : v ≤ view) :
    Prunes view s (persistStep view canonical peers v s).2 := by
  unfold persistStep
  split
  · exact .refl view s
  · split
    · exact .refl view s
    · exact (prunes_removeView hv s).trans persistView_prunes

theorem nonFinalizedViewsUntil_le (h : s.nonFinalizedViewsUntil view = some range) :
    ∀ v ∈ range, v ≤ view := by
  unfold nonFinalizedViewsUntil at h
  split at h
  · cases h
  split at h
  · cases h
  · obtain rfl := Option.some.inj h
    intro v hv
    obtain ⟨i, hi, rfl⟩ := mem_range'.mp hv
    omega

/-- The rule for what every outcome of a finalization keeps: marking blocks
for recovery keeps it, and so does each step of the loop, which meets
contexts the chain had before it. -/
theorem finalize_maintains {X : ViewChain P → Prop}
    (hmark : ∀ missing, X { s with pendingCanonicalRecovery := missing })
    (hstep : ∀ parentHash canonical, s.finalizeCheck view = .proceed parentHash →
      s.canonicalViews view parentHash = some (canonical, []) → ∀ s' v c, Prunes view s s' →
      v ≤ view → s'.findViewContext v = some c → X s' →
      X (persistView view canonical peers v c (s'.removeView v)).2) :
    X (finalizeWithLNotarization view peers s).2 := by
  have hself : X s := hmark s.pendingCanonicalRecovery
  unfold finalizeWithLNotarization
  rcases hcheck : s.finalizeCheck view with e | _ | parentHash
  · exact hself
  · exact hself
  dsimp only
  split
  case h_1 => exact hmark []
  case h_2 canonical missing hwalk =>
    split
    case isTrue => exact hmark missing
    case isFalse hmissing =>
      obtain rfl : missing = [] := by simpa using hmissing
      split
      case h_1 => exact hmark []
      case h_2 range hrange =>
        have hle := nonFinalizedViewsUntil_le hrange
        have hloop : Maintains (fun s' => Prunes view s s' ∧ X s')
            (persistRange view canonical peers range) := by
          refine maintains_of_spec (spec_forM fun v hv => Maintains.spec ?_)
          rintro s' ⟨hprunes, hX⟩
          refine ⟨hprunes.trans (persistStep_prunes (hle v hv)), ?_⟩
          unfold persistStep
          split
          · exact hX
          case h_2 c hc =>
            split
            · exact hX
            · exact hstep parentHash canonical hcheck hwalk s' v c hprunes (hle v hv) hc hX
        exact (hloop { s with pendingCanonicalRecovery := [] }
          ⟨⟨rfl, fun _ _ h => h, fun _ _ => rfl, rfl⟩, hmark []⟩).2

/-- **Finalization only takes contexts out**, and none above the view it is
called for. -/
theorem finalize_prunes (view : Nat) (peers : PeerSet P) (s : ViewChain P) :
    Prunes view s (finalizeWithLNotarization view peers s).2 := by
  refine finalize_maintains (fun _ => ⟨rfl, fun _ _ h => h, fun _ _ => rfl, rfl⟩) ?_
  intro _ _ _ _ s' v c hprunes hv _ _
  exact hprunes.trans ((prunes_removeView hv s').trans persistView_prunes)

/-- The checks let through a held view with a block. -/
theorem finalizeCheck_proceed {parentHash : Hash P}
    (h : s.finalizeCheck view = .proceed parentHash) :
    view ≤ s.currentView ∧ ∃ c b, s.findViewContext view = some c ∧ c.block = some b ∧
      parentHash = b.parentBlockHash := by
  unfold finalizeCheck at h
  split at h
  case isTrue => cases h
  case isFalse hle =>
    split at h
    case h_1 => cases h
    case h_2 c hc =>
      split at h
      case isTrue => cases h
      split at h
      case isTrue => cases h
      split at h
      case h_1 => cases h
      case h_2 b hb =>
        refine ⟨Nat.not_lt.mp hle, c, b, hc, hb, ?_⟩
        unfold finalizeParentCheck at h
        repeat' split at h
        all_goals first
          | (cases h; done)
          | exact (FinalizeCheck.proceed.inj h).symm

/-- What is not refused is a view with enough votes that is not nullified. -/
theorem finalizeCheck_quorum (h : ∀ e, s.finalizeCheck view ≠ .refuse e)
    (hc : s.findViewContext view = some c) :
    P.N - P.F ≤ c.votes.len ∧ c.isNullified = false := by
  unfold finalizeCheck at h
  rw [hc] at h
  split at h
  case isTrue => exact absurd rfl (h _)
  dsimp only at h
  split at h
  case isTrue => exact absurd rfl (h _)
  case isFalse hvotes =>
    split at h
    case isTrue => exact absurd rfl (h _)
    case isFalse hnull => exact ⟨Nat.not_lt.mp hvotes, Bool.eq_false_iff.mpr hnull⟩

/-- The walk keeps what it has met. -/
theorem traceCanonical_mem {fuel : Nat} {hash : Hash P} {acc : List Nat}
    {r : List Nat × List (Nat × Hash P)} (h : s.traceCanonical fuel hash acc = some r)
    (hv : v ∈ acc) : v ∈ r.1 := by
  induction fuel generalizing hash acc with
  | zero => cases h
  | succ fuel ih =>
    unfold traceCanonical at h
    repeat' split at h
    all_goals first
      | exact ih h (mem_cons_of_mem _ hv)
      | (obtain rfl := Option.some.inj h; first | exact hv | exact mem_cons_of_mem _ hv)

/-! ## The committed hash -/

/-- The last committed hash is the old one or that of a context held up to
`view`. -/
def CommitsHeld (view : Nat) (s s' : ViewChain P) : Prop :=
  s'.previouslyCommittedBlockHash = s.previouslyCommittedBlockHash ∨
    ∃ v ≤ view, ∃ c, s.findViewContext v = some c ∧
      c.blockHash = some s'.previouslyCommittedBlockHash

theorem persist_previous (op : WriterOp P Unit) (s : ViewChain P) :
    (persist op s).2.previouslyCommittedBlockHash = s.previouslyCommittedBlockHash := by
  unfold persist Act.zoom
  rfl

theorem persistView_previous :
    (persistView view canonical peers v c s).2.previouslyCommittedBlockHash =
        s.previouslyCommittedBlockHash ∨
      c.blockHash = some (persistView view canonical peers v c s).2.previouslyCommittedBlockHash := by
  unfold persistView
  rcases c.blockHash with _ | h
  · dsimp only
    repeat' split
    all_goals exact .inl rfl
  dsimp only
  repeat' split
  all_goals rw [persist_previous]
  all_goals first
    | exact .inr rfl
    | exact .inl rfl

/-- **Finalization commits hashes of held contexts**, none above the view it is
called for. -/
theorem finalize_commits (view : Nat) (peers : PeerSet P) (s : ViewChain P) :
    CommitsHeld view s (finalizeWithLNotarization view peers s).2 := by
  refine finalize_maintains (fun _ => .inl rfl) ?_
  intro _ canonical _ _ s' v c hprunes hv hc hs'
  rcases @persistView_previous P v view canonical peers (s'.removeView v) c with hold | hnew
  · rcases hs' with hs' | ⟨w, hw, d, hd, hh⟩
    · exact .inl (hold.trans hs')
    · exact .inr ⟨w, hw, d, hd, hh.trans (congrArg some hold.symm)⟩
  · exact .inr ⟨v, hv, c, hprunes.find v c hc, hnew⟩

theorem WF.prunes {replicaId : Nat} {s' : ViewChain P} (hs : s.WF peers replicaId)
    (h : Prunes view s s') (hlt : view < s.currentView) : s'.WF peers replicaId where
  viewNumber v c hc := hs.viewNumber v c (h.find v c hc)
  leaderId v c hc := hs.leaderId v c (h.find v c hc)
  replicaId v c hc := hs.replicaId v c (h.find v c hc)
  context v c hc := hs.context v c (h.find v c hc)
  le_current v c hc := by
    rw [h.currentView]
    exact hs.le_current v c (h.find v c hc)
  past v c hc hv := by
    rw [h.currentView] at hv
    exact hs.past v c (h.find v c hc) hv
  current := by
    obtain ⟨c, hc⟩ := hs.current
    exact ⟨c, by rw [h.currentView, h.above _ hlt, hc]⟩
  current_lt := by
    rw [h.currentView]
    exact hs.current_lt

end ViewChain

end Minimmit
