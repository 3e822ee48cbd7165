/-
Minimmit.Rpc.RequestTheorems — what the syncer asks for next.

The heights of the syncer's state come from blocks nobody has checked, and
the next heights are computed from them by additions on `u64`. Where these
fit (`RoomAhead`) the requests are those of `nextBlockRequests`: a batch of
consecutive heights above the one reached, and none above the target.
-/
import Minimmit.Rpc.ProofTheorems

namespace Minimmit

open Minimmit.Library Act List

variable {P : Params}

/-- The height reached, if there is one. -/
def SyncState.height : SyncState → Option Nat
  | .discovering => none
  | .syncing current _ => some current
  | .following height => some height

namespace BlockSyncer

/-- What a batch of requests should be in this state. -/
structure GoodBatch (s : BlockSyncer P) (requests : List (BlockRequest P)) : Prop where
  single : s.state = .discovering → requests.length = 1
  length : s.state ≠ .discovering → requests.length ≤ s.batchSize
  consecutive : ∃ start, requests.map (·.view) = List.range' start requests.length
  above : ∀ r ∈ requests, ∀ h ∈ s.state.height, h < r.view
  upTo : ∀ r ∈ requests, ∀ current target, s.state = .syncing current target → r.view ≤ target

/-- The heights up to one batch above the height reached are `u64` values, and
the target is not the last one. -/
def RoomAhead (s : BlockSyncer P) : Prop :=
  match s.state with
  | .discovering => True
  | .syncing current target =>
    target ≤ current ∨ current + 1 + s.batchSize < u64Size ∧ target + 1 < u64Size
  | .following height => height + 1 + s.batchSize < u64Size

theorem addU64_run (a b : Nat) (s : BlockSyncer P) :
    addU64 a b s = (if a + b < u64Size then .ok (a + b) else .panic, s) := by
  unfold addU64
  split <;> rfl

theorem goodBatch_range' {s : BlockSyncer P} {start count : Nat}
    (hlength : s.state ≠ .discovering → count ≤ s.batchSize)
    (hsingle : s.state = .discovering → count = 1)
    (habove : ∀ h ∈ s.state.height, h < start)
    (hupTo : ∀ current target, s.state = .syncing current target → start + count ≤ target + 1) :
    s.GoodBatch ((range' start count).map ({ view := ·, blockHash := none })) where
  single h := by simpa using hsingle h
  length h := by simpa using hlength h
  consecutive := ⟨start, by simp [Function.comp_def]⟩
  above r hr h hh := by
    obtain ⟨v, hv, rfl⟩ := mem_map.mp hr
    have := habove h hh
    have := mem_range'_1.mp hv
    show h < v
    omega
  upTo r hr current target hs := by
    obtain ⟨v, hv, rfl⟩ := mem_map.mp hr
    have := hupTo current target hs
    have := mem_range'_1.mp hv
    show v ≤ target
    omega

/-- **The syncer asks for a good batch** exactly where there is room ahead. -/
theorem requests_answer_iff (s : BlockSyncer P) :
    ((∃ r, (tryNextBlockRequest s).1 = .ok r) ∧
      ∃ rs, (tryNextBlockRequests s).1 = .ok rs ∧ s.GoodBatch rs) ↔ s.RoomAhead := by
  unfold RoomAhead tryNextBlockRequest tryNextBlockRequests
  simp only [bind_run, get_run]
  cases hs : s.state with
  | discovering =>
    refine iff_of_true ⟨⟨_, rfl⟩, _, rfl, ?_⟩ trivial
    exact @goodBatch_range' P s 0 1 (fun h => absurd hs h) (fun _ => rfl)
      (by simp [hs, SyncState.height]) (by simp [hs])
  | syncing current target =>
    dsimp only
    by_cases hle : target ≤ current
    · rw [if_pos hle, if_neg (Nat.not_lt.mpr hle)]
      refine iff_of_true ⟨⟨_, rfl⟩, _, rfl, ?_⟩ (.inl hle)
      exact ⟨by simp [hs], by simp, ⟨0, rfl⟩, by simp, by simp⟩
    · rw [if_neg hle, if_pos (Nat.lt_of_not_le hle)]
      by_cases hroom : current + 1 + s.batchSize < u64Size ∧ target + 1 < u64Size
      · have hnext : current + 1 < u64Size := by omega
        simp only [bind_run, addU64_run, hnext, hroom.1, hroom.2, if_true]
        refine iff_of_true ⟨⟨_, rfl⟩, _, rfl, ?_⟩ (.inr ⟨trivial, trivial⟩)
        refine goodBatch_range' (fun _ => by omega) (by simp [hs]) ?_ ?_
        · simp [hs, SyncState.height]
        · rintro _ _ h
          cases hs.symm.trans h
          omega
      · refine iff_of_false ?_ (not_or.mpr ⟨hle, hroom⟩)
        rintro ⟨-, rs, hrs, -⟩
        simp only [bind_run, addU64_run] at hrs
        grind
  | following height =>
    dsimp only
    by_cases hroom : height + 1 + s.batchSize < u64Size
    · have hnext : height + 1 < u64Size := by omega
      simp only [bind_run, addU64_run, hnext, hroom, if_true]
      refine iff_of_true ⟨⟨_, rfl⟩, _, rfl, ?_⟩ trivial
      exact goodBatch_range' (fun _ => by omega) (by simp [hs]) (by simp [hs, SyncState.height])
        (by simp [hs])
    · refine iff_of_false ?_ hroom
      rintro ⟨-, rs, hrs, -⟩
      simp only [bind_run, addU64_run] at hrs
      grind

/-- A block that says it has the last height there is. -/
def lastHeight : Block sampleParams := { firstBlock with height := u64Size - 1 }

/-- The syncer after one answer, with that block. -/
def misled : BlockSyncer sampleParams :=
  (handleBlockResponse sampleCodec (.found (sampleCodec.blockBytes lastHeight) none)
    (new Store.empty samplePeers 10)).2

/-- **One answer stops the syncer**: with the last height as the one reached,
neither function returns. -/
theorem last_height_overflows : misled.state = .following (u64Size - 1) ∧
    (tryNextBlockRequest misled).1 = .panic ∧ (tryNextBlockRequests misled).1 = .panic := by
  have hstate : misled.state = .following (u64Size - 1) := by decide +kernel
  refine ⟨hstate, ?_, ?_⟩
  · simp [tryNextBlockRequest, hstate, addU64_run, u64Size]
  · simp [tryNextBlockRequests, hstate, addU64_run, u64Size]

end BlockSyncer

end Minimmit
