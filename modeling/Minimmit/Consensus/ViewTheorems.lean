/-
Minimmit.Consensus.ViewTheorems — the views a replica holds and the one it is
in.

`current_view_live` is the shape of the chain: the current view is held and
is the greatest, every context is stored under its own view and names the
leader of that view, and views are opened one after the other. It holds at
every step, so `current()` never finds an empty place.

A view is left with an M-notarization or an aggregated nullification, except
by a cascade, which only asks for the replica's own nullify message. If the
views that cascades leave have a certificate, every past view has one, and
no message for it is refused for the lack of one (`past_views_certified`).
A cascade does leave a view without (`left_without_certificate`), and the
nullify messages for it are refused from then on.
-/
import Minimmit.Consensus.SigningTheorems

namespace Minimmit

open Minimmit.Library Relation ViewContext List ViewChain

variable {P : Params}

namespace Replica

variable {cfg : Config P} {A : Admission cfg} {s s' : Replica P}

/-! ## The current view -/

/-- What a step does to the current view: nothing, or the next one is opened. -/
theorem Step.entered_cases (h : Step A s s') :
    (s'.currentView = s.currentView ∧ s'.viewManager.entered = s.viewManager.entered) ∨
      ∃ parent, s' = s.enter parent := by
  cases h with
  | hashOnly => exact .inl ⟨rfl, rfl⟩
  | clean h =>
    cases h with
    | chain h => exact .inl ⟨h.currentView, rfl⟩
    | @enter _ parent => exact .inr ⟨parent, rfl⟩
    | @finalize view =>
      exact .inl ⟨(finalize_prunes view s.viewManager.peers s.chain).currentView, rfl⟩
    | propose _ hsteps => exact .inl ⟨Steps.currentView hsteps, rfl⟩
    | _ => exact .inl ⟨rfl, rfl⟩

/-- The views opened between two states are the next ones, in order. -/
def Advances (s s' : Replica P) : Prop :=
  ∃ new : List (Nat × Hash P), s'.viewManager.entered = s.viewManager.entered ++ new ∧
    new.map (·.1) = List.range' (s.currentView + 1) new.length ∧
    s'.currentView = s.currentView + new.length

theorem Advances.refl (s : Replica P) : s.Advances s :=
  ⟨[], (append_nil _).symm, rfl, rfl⟩

theorem Advances.trans {s₁ s₂ s₃ : Replica P} (h₁ : s₁.Advances s₂) (h₂ : s₂.Advances s₃) :
    s₁.Advances s₃ := by
  obtain ⟨new₁, hent₁, hviews₁, hcur₁⟩ := h₁
  obtain ⟨new₂, hent₂, hviews₂, hcur₂⟩ := h₂
  refine ⟨new₁ ++ new₂, ?_, ?_, ?_⟩
  · rw [hent₂, hent₁, append_assoc]
  · rw [map_append, hviews₁, hviews₂, hcur₁, length_append, ← range'_append_1]
    congr 2
    omega
  · rw [hcur₂, hcur₁, length_append, Nat.add_assoc]

theorem Step.advances (h : Step A s s') : s.Advances s' := by
  rcases h.entered_cases with ⟨hcur, hent⟩ | ⟨parent, rfl⟩
  · exact ⟨[], by rw [hent, append_nil], rfl, hcur⟩
  · exact ⟨[(s.currentView + 1, parent)], rfl, rfl, rfl⟩

theorem Steps.advances (h : Steps (A := A) s s') : s.Advances s' := by
  induction h with
  | refl => exact .refl s
  | tail _ hstep ih => exact ih.trans hstep.advances

/-- The current view is live. -/
structure Live (cfg : Config P) (s : Replica P) : Prop where
  /-- `current()` finds its context. -/
  current : ∃ c, s.context s.currentView = some c ∧
    ViewProgressManager.current s.viewManager = (.ok c, s.viewManager)
  greatest : ∀ v c, s.context v = some c → v ≤ s.currentView
  viewNumber : ∀ v c, s.context v = some c → c.viewNumber = v
  leaderId : ∀ v c, s.context v = some c → c.leaderId = cfg.peers.leaderForView v
  /-- The views entered so far are all up to the current one, in order. -/
  entered : s.viewManager.entered.map (·.1) = List.range' 1 s.currentView

theorem WF.live (hs : s.WF A) (hadv : (Replica.start cfg).Advances s) : s.Live cfg := by
  obtain ⟨c, hc⟩ := hs.chain.current
  refine ⟨⟨c, hc, ?_⟩, hs.chain.le_current, hs.chain.viewNumber, hs.chain.leaderId, ?_⟩
  · unfold ViewProgressManager.current
    rw [hc]
  · obtain ⟨new, hent, hviews, hcur⟩ := hadv
    rw [hent, map_append, hviews, hcur]
    change range' 1 1 ++ range' (1 + 1) new.length = range' 1 (1 + new.length)
    exact range'_append_1

/-- **The current view is live** in every state of every run and in every
state on the way of handling an input, and the views it opens are the next
ones, one at a time. -/
theorem current_view_live {s : Replica P} {running : Bool}
    (h : Run cfg (fun _ _ => True) s running) :
    s.Live cfg ∧
      (∀ t, Steps (A := Admission.any cfg) s t → t.Live cfg ∧ s.Advances t) ∧
      (running = true → ∀ fuel input,
        Steps (A := Admission.any cfg) s (handle cfg fuel input s).2) := by
  obtain ⟨hsteps, hset⟩ := Run.steps (A := .any cfg) (fun _ _ _ => trivial) h
  have hlive : ∀ t, Steps (A := Admission.any cfg) (Replica.start cfg) t → t.Live cfg :=
    fun t ht => (Steps.wf ht start_wf).live (Steps.advances ht)
  refine ⟨hlive s hsteps, fun t ht => ⟨hlive t (hsteps.trans ht), Steps.advances ht⟩, ?_⟩
  intro hrun fuel input
  exact (handle_steps (Steps.wf hsteps start_wf) (hset hrun) fuel fun _ _ => trivial).1

/-- Replica 0 after the inputs that make it nullify two views. -/
theorem current_view_live_cascade :
    let s := (runAll (sampleConfig 0 (quietEnv _)) 10 cascadeInputs).1
    s.currentView = 3 ∧ s.Live (sampleConfig 0 (quietEnv _)) := by
  have hrun := run_any (sampleConfig 0 (quietEnv _)) 10 cascadeInputs
  exact ⟨by decide +kernel, (current_view_live hrun).1⟩

/-- Every held view but the current one has a certificate. -/
def PastCertified (s : Replica P) : Prop :=
  ∀ v c, s.context v = some c → v ≠ s.currentView → c.hasCertificate = true

/-- Every view that a cascade left had a certificate. -/
def CascadesCertified (s : Replica P) : Prop :=
  ∀ e ∈ s.cascades, ∀ c, e.2.findViewContext e.2.currentView = some c → c.hasCertificate = true

theorem Evolves.hasCertificate {log : List (Signed P)} {v : Nat} {c c' : ViewContext P}
    (h : Evolves log v c c') (hc : c.hasCertificate = true) : c'.hasCertificate = true := by
  simp only [ViewContext.hasCertificate, Bool.or_eq_true] at hc ⊢
  rcases hc with hm | hn
  · obtain ⟨m, hm⟩ := Option.isSome_iff_exists.mp hm
    exact .inl (by rw [h.mNotarization m hm]; rfl)
  · exact .inr (h.nullification hn)

/-- The cascades recorded so far stay recorded. -/
theorem Step.cascades_subset (h : Step A s s') : ∀ e ∈ s.cascades, e ∈ s'.cascades := by
  cases h with
  | hashOnly => exact fun _ he => he
  | clean h =>
    cases h with
    | cascade => exact fun _ he => mem_append_left _ he
    | _ => exact fun _ he => he

/-- The view that is left has a certificate, or a cascade leaves it. -/
theorem Step.left (h : Step A s s') (hne : s'.currentView ≠ s.currentView) :
    ∃ c, s.context s.currentView = some c ∧
      (c.hasCertificate = true ∨ ∃ v, (v, s.chain) ∈ s.cascades) := by
  rcases h.entered_cases with ⟨hcur, -⟩ | ⟨parent, -⟩
  · exact absurd hcur hne
  cases h with
  | hashOnly => exact absurd rfl hne
  | clean h =>
    cases h with
    | enter hc _ _ hleft => exact ⟨_, hc, hleft⟩
    | chain h => exact absurd h.currentView hne
    | @finalize view =>
      exact absurd (finalize_prunes view s.viewManager.peers s.chain).currentView hne
    | propose _ hsteps => exact absurd (Steps.currentView hsteps) hne
    | _ => exact absurd rfl hne

theorem Step.pastCertified (h : Step A s s') (hwf : s.WF A)
    (ih : s.CascadesCertified → s.PastCertified) (hcas : s'.CascadesCertified) :
    s'.PastCertified := by
  have hcas₀ : s.CascadesCertified := fun e he => hcas e (h.cascades_subset e he)
  intro v c' hc' hv
  rcases h.find hwf hc' with ⟨c, hc, hev⟩ | ⟨-, hcur, -⟩
  · refine hev.hasCertificate ?_
    by_cases hv' : v = s.currentView
    · -- the view was left by this step
      subst hv'
      obtain ⟨d, hd, hleft⟩ := h.left (Ne.symm hv)
      obtain rfl := Option.some.inj (hd.symm.trans hc)
      rcases hleft with hcert | ⟨w, hw⟩
      · exact hcert
      · exact hcas₀ _ hw d hd
    · exact ih hcas₀ v c hc hv'
  · exact absurd hcur.symm hv

end Replica

/-! ### Messages for past views -/

namespace ViewContext

variable {peers : PeerSet P} {c : ViewContext P} {w : Nat}

theorem countVote_not_uncertified (vote : Vote P) :
    (countVote vote c).1 ≠ .err (.progressedWithoutCertificate w) := by
  unfold countVote
  dsimp only
  repeat' split
  all_goals exact fun h => by cases h

theorem addVote_not_uncertified (vote : Vote P) :
    (addVote vote peers c).1 ≠ .err (.progressedWithoutCertificate w) := by
  unfold addVote
  repeat' split
  case h_2.isFalse => exact countVote_not_uncertified vote
  all_goals exact fun h => by cases h

theorem addNullify_not_uncertified (nullify : Nullify P) :
    (addNullify nullify peers c).1 ≠ .err (.progressedWithoutCertificate w) := by
  unfold addNullify
  dsimp only
  repeat' split
  all_goals exact fun h => by cases h

theorem addMNotarization_not_uncertified (m : MNotarization P) :
    (addMNotarization m peers c).1 ≠ .err (.progressedWithoutCertificate w) := by
  unfold addMNotarization adoptMNotarization
  dsimp only
  repeat' split
  all_goals exact fun h => by cases h

theorem addNullification_not_uncertified (n : Nullification P) :
    (addNullification n peers c).1 ≠ .err (.progressedWithoutCertificate w) := by
  unfold addNullification
  dsimp only
  repeat' split
  all_goals exact fun h => by cases h

end ViewContext

namespace ViewChain

/-- No routing function answers that the view was left without a
certificate. -/
structure RoutesPast (peers : PeerSet P) (s : ViewChain P) : Prop where
  vote : ∀ vote w, (routeVote vote peers s).1 ≠ .err (.progressedWithoutCertificate w)
  nullify : ∀ n w, (routeNullify n peers s).1 ≠ .err (.progressedWithoutCertificate w)
  mNotarization : ∀ m w,
    (routeMNotarization m peers s).1 ≠ .err (.progressedWithoutCertificate w)
  nullification : ∀ n w,
    (routeNullification n peers s).1 ≠ .err (.progressedWithoutCertificate w)

theorem notHeld_not_uncertified {α : Type} (kind : MessageKind) (view w : Nat) (ignored : α)
    (s : ViewChain P) :
    (notHeld kind view ignored s).1 ≠ .err (.progressedWithoutCertificate w) := by
  unfold notHeld
  split <;> exact fun h => by cases h

theorem routesPast_of_certified {peers : PeerSet P} {s : ViewChain P}
    (h : ∀ v c, s.findViewContext v = some c → s.lacksCertificate c = false) :
    s.RoutesPast peers := by
  constructor
  · intro vote w
    unfold routeVote
    split
    · rename_i c hc
      rw [h _ c hc]
      split
      · exact fun h => by cases h
      · exact addVote_not_uncertified vote
    · exact notHeld_not_uncertified _ _ _ _ _
  · intro n w
    unfold routeNullify
    split
    · rename_i c hc
      rw [h _ c hc]
      have hadd : (addNullify n peers c).1 ≠ .err (.progressedWithoutCertificate w) :=
        addNullify_not_uncertified n
      simp only [Bool.false_eq_true, ↓reduceIte]
      split
      · exact fun h => by cases h
      · rename_i heq
        rw [heq] at hadd
        exact fun h => hadd (by cases h; rfl)
      · exact fun h => by cases h
      · exact fun h => by cases h
    · exact notHeld_not_uncertified _ _ _ _ _
  · intro m w
    unfold routeMNotarization
    split
    · rename_i c hc
      rw [h _ c hc]
      exact addMNotarization_not_uncertified m
    · exact notHeld_not_uncertified _ _ _ _ _
  · intro n w
    unfold routeNullification
    split
    · rename_i c hc
      rw [h _ c hc]
      exact addNullification_not_uncertified n
    · exact fun h => by cases h

end ViewChain

namespace Replica

variable {cfg : Config P}

/-- **Past views have a certificate**, and no message for one is refused for
the lack of it, in every run whose cascades leave views that have one. -/
theorem past_views_certified {s : Replica P} {running : Bool}
    (h : Run cfg (fun _ _ => True) s running) (hcas : s.CascadesCertified) :
    s.PastCertified ∧ s.chain.RoutesPast cfg.peers := by
  have hsteps := (Run.steps (A := .any cfg) (fun _ _ _ => trivial) h).1
  have hpast : s.PastCertified :=
    Steps.invariant (I := fun s => s.CascadesCertified → s.PastCertified)
      (fun _ _ hwf hstep ih => hstep.pastCertified hwf ih) hsteps start_wf
      (fun _ v c hc hv => absurd (start_context hc).1 hv) hcas
  refine ⟨hpast, ViewChain.routesPast_of_certified fun v c hc => ?_⟩
  have hview := (Steps.wf hsteps start_wf).chain.viewNumber v c hc
  by_cases hv : v = s.currentView
  · have hcur : c.viewNumber = s.chain.currentView := hview.trans hv
    simp only [ViewChain.lacksCertificate, hcur, ne_eq, not_true_eq_false, decide_false,
      Bool.false_and]
  · simp only [ViewChain.lacksCertificate, hpast v c hc hv, Bool.not_true, Bool.and_false]

/-- Replica 0 leaves the first view on the votes for its block. -/
theorem past_views_certified_first :
    let s := (runAll (sampleConfig 0 (quietEnv _)) 10
      [.message (.blockProposal firstBlock), .message (.vote (voteOf 2 1 firstBlock.getHash))]).1
    (s.currentView = 2 ∧ (s.context 1).isSome = true) ∧ s.PastCertified ∧
      s.chain.RoutesPast samplePeers := by
  refine ⟨⟨by decide +kernel, by decide +kernel⟩, past_views_certified
    (run_runAll (sampleConfig 0 (quietEnv _)) 10 _ fun _ _ => trivial) ?_⟩
  have hnone : (runAll (sampleConfig 0 (quietEnv _)) 10
      [.message (.blockProposal firstBlock),
        .message (.vote (voteOf 2 1 firstBlock.getHash))]).1.cascades.length = 0 := by
    decide +kernel
  intro e he
  rw [List.length_eq_zero_iff.mp hnone] at he
  cases he

/-- Was the message refused because its view was left without a
certificate? -/
def refusedUncertified {α : Type} : Outcome (ConsensusError P) α → Bool
  | .err (.progressedWithoutCertificate _) => true
  | _ => false

/-- View 1 is nullified while replica 0 is in view 2: the cascade leaves view
2 with neither certificate, and a nullify message for it is refused. -/
theorem left_without_certificate :
    ∃ s : Replica sampleParams,
      Run (sampleConfig 0 (quietEnv _)) (fun _ m => m.WellTyped) s true ∧
      ¬ s.PastCertified ∧ ¬ s.chain.RoutesPast samplePeers := by
  have hrun := run_goes (sampleConfig 0 (quietEnv _)) 10 cascadeInputs (·.WellTyped)
    (by decide +kernel) (by decide +kernel)
  refine ⟨_, hrun, fun hpast => ?_, fun hroutes => ?_⟩
  · have hheld : ((runAll (sampleConfig 0 (quietEnv _)) 10 cascadeInputs).1.context 2).any
        (fun c => !c.hasCertificate) = true := by
      decide +kernel
    rw [Option.any_eq_true] at hheld
    obtain ⟨c, hc, hnot⟩ := hheld
    rw [hpast 2 c hc (by decide +kernel)] at hnot
    cases hnot
  · have hrefused : refusedUncertified (ViewChain.routeNullify (nullifyOf 3 2) samplePeers
        (runAll (sampleConfig 0 (quietEnv _)) 10 cascadeInputs).1.chain).1 = true := by
      decide +kernel
    unfold refusedUncertified at hrefused
    split at hrefused
    · rename_i heq
      exact hroutes.nullify _ _ heq
    · cases hrefused

end Replica

end Minimmit
