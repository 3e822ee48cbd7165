/-
Minimmit.Consensus.ChainCalls — the chain makes the calls on its contexts.

A function of the chain that takes a message makes at most one call, on the
context of the message's view, and makes it as `Call.Made` says
(`routeVote_calls` and its companions). The loop over the waiting blocks is
the one place where many contexts are called; `LoopRule` says what has to be
shown of one pass to follow it.
-/
import Minimmit.Consensus.ChainFunctions
import Minimmit.Consensus.ContextCalls

namespace Minimmit

open Minimmit.Library Act ViewContext

variable {P : Params}

namespace ViewChain

/-- `K` holds of every held context. -/
def All (K : Nat → ViewContext P → Prop) (s : ViewChain P) : Prop :=
  ∀ v c, s.findViewContext v = some c → K v c

variable {K : Nat → ViewContext P → Prop}

theorem All.setContext {s : ViewChain P} (h : s.All K) {v : Nat}
    {c : ViewContext P} (hc : K v c) : (s.setContext v c).All K := by
  intro w d hd
  rcases findViewContext_setContext_cases hd with ⟨rfl, rfl⟩ | ⟨-, hold⟩
  · exact hc
  · exact h w d hold

/-- From `s` to `s'` at most one call was made, on the context of view `v`. -/
inductive Calls (peers : PeerSet P) (v : Nat) (allowed : Call P → Prop) (s s' : ViewChain P) : Prop
  | none (h : ∀ w, s'.findViewContext w = s.findViewContext w)
  | call {c : ViewContext P} (call : Call P) (hc : s.findViewContext v = some c)
      (hmade : call.Made c) (hallowed : allowed call)
      (h : ∀ w, s'.findViewContext w = (s.setContext v (call.run peers c)).findViewContext w)

variable {peers : PeerSet P}

variable {allowed : Call P → Prop}

/-- A property of contexts that the call keeps. -/
theorem Calls.all {v : Nat} {s s' : ViewChain P} (h : Calls peers v allowed s s') (hK : s.All K)
    (hcall : ∀ c call, s.findViewContext v = some c → call.Made c → allowed call → K v c →
      K v (call.run peers c)) : s'.All K := by
  cases h with
  | none h => exact fun w d hd => hK w d ((h w).symm.trans hd)
  | call call hc hmade hallowed h =>
    intro w d hd
    rw [h w] at hd
    exact hK.setContext (hcall _ call hc hmade hallowed (hK v _ hc)) w d hd

/-- A property of the context of one view that the call keeps. -/
theorem Calls.at {v w : Nat} {s s' : ViewChain P}
    (h : Calls peers v allowed s s') {K : ViewContext P → Prop}
    (hcall : ∀ c call, call.Made c → allowed call → K c → K (call.run peers c))
    {c : ViewContext P} (hc : s.findViewContext w = some c) (hK : K c) :
    ∃ c', s'.findViewContext w = some c' ∧ K c' := by
  cases h with
  | none h => exact ⟨c, (h w).trans hc, hK⟩
  | @call c₀ call hc₀ hmade hallowed h =>
    by_cases hw : w = v
    · subst hw
      obtain rfl := Option.some.inj (hc.symm.trans hc₀)
      refine ⟨call.run peers c, ?_, hcall c call hmade hallowed hK⟩
      rw [h w, findViewContext_setContext_self]
    · refine ⟨c, ?_, hK⟩
      rw [h w, findViewContext_setContext_ne s _ hw, hc]

theorem routeVote_calls (vote : Vote P) (s : ViewChain P) :
    Calls peers vote.view (· = .addVote vote) s (routeVote vote peers s).2 := by
  refine (ends_iff_state (X := Calls peers _ _ s)).mp ?_
  refine routeVote_rule (.none fun _ => rfl) (.none fun _ => rfl) fun c hc hlive => ?_
  exact ends_iff_state.mpr (.call (.addVote vote) hc hlive rfl fun _ => rfl)

theorem routeNullify_calls (nullify : Nullify P) (s : ViewChain P) :
    Calls peers nullify.view (· = .addNullify nullify) s (routeNullify nullify peers s).2 := by
  refine (ends_iff_state (X := Calls peers _ _ s)).mp ?_
  refine routeNullify_rule (.none fun _ => rfl) (.none fun _ => rfl) fun c hc => ?_
  exact ends_iff_state.mpr (.call (.addNullify nullify) hc trivial rfl fun _ => rfl)

theorem routeMNotarization_calls (m : MNotarization P) (s : ViewChain P) :
    Calls peers m.view (· = .addMNotarization m) s (routeMNotarization m peers s).2 := by
  refine (ends_iff_state (X := Calls peers _ _ s)).mp ?_
  refine routeMNotarization_rule (.none fun _ => rfl) (fun _ => .none fun _ => rfl) fun c hc => ?_
  exact ends_iff_state.mpr (.call (.addMNotarization m) hc trivial rfl fun _ => rfl)

theorem routeNullification_calls (n : Nullification P) (s : ViewChain P) :
    Calls peers n.view (· = .addNullification n) s (routeNullification n peers s).2 := by
  refine (ends_iff_state (X := Calls peers _ _ s)).mp ?_
  refine routeNullification_rule (.none fun _ => rfl) fun c hc => ?_
  exact ends_iff_state.mpr (.call (.addNullification n) hc trivial rfl fun _ => rfl)

theorem addRecoveredBlock_calls (v : Nat) (b : Block P) (s : ViewChain P) :
    Calls peers v (· = .addRecoveredBlock b) s (addRecoveredBlock v b s).2 := by
  refine (ends_iff_state (X := Calls peers _ _ s)).mp ?_
  refine addRecoveredBlock_rule (.none fun _ => rfl) (.none fun _ => rfl) fun c hc hblock hh => ?_
  exact .call (.addRecoveredBlock b) hc ⟨hblock, hh⟩ rfl fun _ => rfl

theorem addBlockProposal_calls (v : Nat) (b : Block P) (d : StateDiff P) (s : ViewChain P) :
    Calls peers v (fun call => call = .addNewViewBlock b d ∨ call = .awaitParent b d) s
      (addBlockProposal v b d peers s).2 := by
  refine (ends_iff_state (X := Calls peers _ _ s)).mp ?_
  refine addBlockProposal_rule (.none fun _ => rfl)
    (fun c hc hblock hpending _ => ?_) fun c hc hblock hpending _ => ends_iff_state.mpr ?_
  · exact .call (.awaitParent b d) hc ⟨hblock, hpending⟩ (Or.inr rfl) fun _ => rfl
  · refine .call (.addNewViewBlock b d) hc ⟨hblock, hpending⟩ (Or.inl rfl) fun w => ?_
    exact findViewContext_onMNotarization _ v w

/-! ## The loop over the waiting blocks -/

theorem takePending_alike (c : ViewContext P) :
    (takePending c).2.block = c.block ∧ (takePending c).2.mNotarization = c.mNotarization ∧
      (takePending c).2.pendingBlock = none := by
  unfold takePending
  split
  case h_1 hnone => exact ⟨rfl, rfl, hnone⟩
  case h_2 => exact ⟨rfl, rfl, rfl⟩

end ViewChain

end Minimmit
