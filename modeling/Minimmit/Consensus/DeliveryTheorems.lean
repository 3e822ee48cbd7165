/-
Minimmit.Consensus.DeliveryTheorems — does the order of delivery matter?

A block and the votes of its view may arrive in any order. A vote that comes
before the block waits, and is counted or found invalid when the block is
stored; a vote that comes after it is counted or found invalid at once. The
two paths share no code, so the calls do not commute one by one. What they
leave is described from what was delivered instead: `Awaiting` before the
block and `Counted` after it, with one lemma for each call. An order is cut at
its block, and both descriptions depend on the votes only as a set
(`delivery_order`).
-/
import Minimmit.Consensus.ContextCalls
import Minimmit.Consensus.Sample

namespace Minimmit

open Minimmit.Library KeySet List

variable {P : Params}

namespace ViewContext

variable (P) in
/-- What the network delivers to a view. -/
inductive Delivery where
  | block (block : Block P) (stateDiff : StateDiff P)
  | vote (vote : Vote P)

/-- The votes among the deliveries. -/
def Delivery.votes (l : List (Delivery P)) : List (Vote P) :=
  l.filterMap fun
    | .vote v => some v
    | .block _ _ => none

/-- The context after a call that returns `Ok`. -/
def returned {α : Type} : Outcome (ConsensusError P) α × ViewContext P → Option (ViewContext P)
  | (.ok _, c) => some c
  | _ => none

/-- Deliver to a context; `none` if the call does not return `Ok`. -/
def deliver (peers : PeerSet P) (c : ViewContext P) : Delivery P → Option (ViewContext P)
  | .block b d => returned (addNewViewBlock b d peers c)
  | .vote v => returned (addVote v peers c)

/-- The leader's signature on its block. -/
def LeaderSigned (peers : PeerSet P) (b : Block P) : Prop :=
  ∃ pk, peers.getPublicKey b.leader = some pk ∧
    Crypto.verify P.hashing P.curve pk (blockMessage b.getHash) b.leaderSignature = true

/-- Valid votes of a view, of distinct peers other than its leader. -/
structure VotesOf (peers : PeerSet P) (view leader : Nat) (votes : List (Vote P)) : Prop where
  view : ∀ v ∈ votes, v.view = view
  signed : ∀ v ∈ votes, SignedBy peers v
  distinct : (votes.map (·.peerId)).Nodup
  others : ∀ v ∈ votes, v.peerId ≠ leader

variable {peers : PeerSet P}

variable {leader view : Nat} {votes votes' : List (Vote P)} {v : Vote P} {b : Block P}
  {c : ViewContext P}

theorem VotesOf.perm (h : VotesOf peers view leader votes) (hperm : votes'.Perm votes) :
    VotesOf peers view leader votes' where
  view v hv := h.view v (hperm.mem_iff.mp hv)
  signed v hv := h.signed v (hperm.mem_iff.mp hv)
  distinct := (hperm.map _).nodup_iff.mpr h.distinct
  others v hv := h.others v (hperm.mem_iff.mp hv)

theorem VotesOf.sublist (h : VotesOf peers view leader votes) (hsub : votes'.Sublist votes) :
    VotesOf peers view leader votes' where
  view v hv := h.view v (hsub.subset hv)
  signed v hv := h.signed v (hsub.subset hv)
  distinct := h.distinct.sublist (hsub.map _)
  others v hv := h.others v (hsub.subset hv)

/-- The first of the votes is of a peer that cast none of the others. -/
theorem VotesOf.fresh (h : VotesOf peers view leader (v :: votes)) :
    ∀ u ∈ votes, u.peerId ≠ v.peerId :=
  fun u hu heq => (nodup_cons.mp h.distinct).1 (mem_map.mpr ⟨u, hu, heq⟩)

/-- The leader's vote that comes with its block. -/
def leaderVoteOf (b : Block P) : Vote P :=
  { view := b.view, blockHash := b.getHash, signature := b.leaderSignature, peerId := b.leader
    leaderId := b.leader }

/-! ## What a context holds -/

/-- The context of the view of `b` before the block, when `votes` have
arrived. -/
structure Awaiting (b : Block P) (votes : List (Vote P)) (c : ViewContext P) : Prop where
  view : c.viewNumber = b.view
  leader : c.leaderId = b.leader
  parent : c.parentBlockHash = b.parentBlockHash
  noBlock : c.block = none
  noHash : c.blockHash = none
  noCertificate : c.mNotarization = none
  noVotes : c.votes.elems = []
  waiting : c.nonVerifiedVotes.elems = votes
  valid : c.numInvalidVotes = 0

/-- The context of the view of `b` after the block, when `votes` have arrived
before or after it. -/
structure Counted (b : Block P) (votes : List (Vote P)) (c : ViewContext P) : Prop where
  view : c.viewNumber = b.view
  hash : c.blockHash = some b.getHash
  counted : ∀ u, u ∈ c.votes ↔ u = leaderVoteOf b ∨ u ∈ votes ∧ u.blockHash = b.getHash
  waiting : c.nonVerifiedVotes.elems = []
  invalid : c.numInvalidVotes = (votes.filter fun v => decide (v.blockHash ≠ b.getHash)).length

theorem Counted.perm (h : Counted b votes c) (hperm : votes.Perm votes') : Counted b votes' c where
  view := h.view
  hash := h.hash
  counted u := by rw [h.counted u, hperm.mem_iff]
  waiting := h.waiting
  invalid := h.invalid.trans (hperm.filter _).length_eq

/-- A vote that passes the checks is counted, or waits. -/
theorem addVote_admitted (hview : v.view = c.viewNumber) (hsigned : SignedBy peers v)
    (hfresh : ∀ u ∈ c.votes, u.peerId ≠ v.peerId)
    (hwaiting : ∀ u ∈ c.nonVerifiedVotes, u.peerId ≠ v.peerId) :
    addVote v peers c = countVote v c := by
  obtain ⟨pk, hpk, hverify⟩ := hsigned
  have hcontains : peers.contains v.peerId = true := (peers.contains_iff _).mpr ⟨pk, hpk⟩
  have hdup : (c.votes.elems.any fun u => decide (u.peerId = v.peerId)) = false :=
    any_eq_false.mpr fun u hu heq => hfresh u hu (of_decide_eq_true heq)
  have hdup' : (c.nonVerifiedVotes.elems.any fun u => decide (u.peerId = v.peerId)) = false :=
    any_eq_false.mpr fun u hu heq => hwaiting u hu (of_decide_eq_true heq)
  simp [addVote, hcontains, hview, hdup, hdup', hpk, hverify]

/-- The key of a vote of another peer is new. -/
theorem key_not_mem (h : ∀ u ∈ votes, u.peerId ≠ v.peerId) : Vote.key v ∉ votes.map Vote.key := by
  intro hmem
  obtain ⟨u, hu, hkey⟩ := mem_map.mp hmem
  exact h u hu (congrArg (·.2.2) hkey)

/-! ## One call -/

/-- **A vote before the block** waits. -/
theorem Awaiting.vote (h : Awaiting b votes c) (hv : VotesOf peers b.view b.leader (v :: votes)) :
    ∃ c', deliver peers c (.vote v) = some c' ∧ Awaiting b (v :: votes) c' := by
  have hfresh : ∀ u ∈ c.votes, u.peerId ≠ v.peerId := by
    intro u hu
    rw [mem_def, h.noVotes] at hu
    cases hu
  have hwaiting : ∀ u ∈ c.nonVerifiedVotes, u.peerId ≠ v.peerId := by
    intro u hu
    rw [mem_def, h.waiting] at hu
    exact hv.fresh u hu
  have hview : v.view = c.viewNumber := (hv.view v mem_cons_self).trans h.view.symm
  have hadd : addVote v peers c = countVote v c :=
    addVote_admitted hview (hv.signed v mem_cons_self) hfresh hwaiting
  refine ⟨{ c with received := c.received ++ [v], nonVerifiedVotes := c.nonVerifiedVotes.insert v },
    ?_, { h with waiting := ?_ }⟩
  · rw [deliver, hadd, countVote]
    simp only [h.noHash, returned]
  · rw [elems_insert (key_not_mem hwaiting), h.waiting]

/-- A vote for the hash of the view is added, and a certificate made of more
than `2F` votes has enough of them. -/
theorem countVote_matching (hsize : P.mSize = 2 * P.F + 1) (hh : c.blockHash = some v.blockHash) :
    ∃ c', returned (countVote v c) = some c' ∧ c'.viewNumber = c.viewNumber ∧
      c'.blockHash = c.blockHash ∧ c'.votes = c.votes.insert v ∧
      c'.nonVerifiedVotes = c.nonVerifiedVotes ∧ c'.numInvalidVotes = c.numInvalidVotes := by
  rw [countVote]
  simp only [hh, ne_eq, not_true_eq_false, ↓reduceIte]
  split
  case isTrue henough =>
    have hlt : 2 * P.F < (c.votes.insert v).elems.length :=
      of_decide_eq_true (Bool.and_eq_true_iff.mp henough).1
    have hdata : ¬ (c.votes.insert v).elems.length < P.mSize := by omega
    simp only [createCertificateData, hdata, ↓reduceDIte]
    exact ⟨_, rfl, rfl, rfl, rfl, rfl, rfl⟩
  case isFalse => exact ⟨_, rfl, rfl, rfl, rfl, rfl, rfl⟩

/-- **A vote after the block** is counted if it is for the block, and invalid
otherwise. -/
theorem Counted.vote (hsize : P.mSize = 2 * P.F + 1) (h : Counted b votes c)
    (hv : VotesOf peers b.view b.leader (v :: votes)) :
    ∃ c', deliver peers c (.vote v) = some c' ∧ Counted b (v :: votes) c' := by
  have hfresh : ∀ u ∈ c.votes, u.peerId ≠ v.peerId := by
    intro u hu
    rcases (h.counted u).mp hu with rfl | ⟨hu, -⟩
    · exact (hv.others v mem_cons_self).symm
    · exact hv.fresh u hu
  have hwaiting : ∀ u ∈ c.nonVerifiedVotes, u.peerId ≠ v.peerId := by
    intro u hu
    rw [mem_def, h.waiting] at hu
    cases hu
  have hview : v.view = c.viewNumber := (hv.view v mem_cons_self).trans h.view.symm
  have hadd : addVote v peers c = countVote v c :=
    addVote_admitted hview (hv.signed v mem_cons_self) hfresh hwaiting
  by_cases hhash : v.blockHash = b.getHash
  · have hcounted : ∀ u, u ∈ c.votes.insert v ↔
        u = leaderVoteOf b ∨ u ∈ v :: votes ∧ u.blockHash = b.getHash := by
      intro u
      rw [mem_def, elems_insert (key_not_mem hfresh), mem_cons, mem_cons,
        ← mem_def, h.counted u]
      constructor
      · rintro (rfl | rfl | ⟨hu, heq⟩)
        · exact .inr ⟨.inl rfl, hhash⟩
        · exact .inl rfl
        · exact .inr ⟨.inr hu, heq⟩
      · rintro (rfl | ⟨rfl | hu, heq⟩)
        · exact .inr (.inl rfl)
        · exact .inl rfl
        · exact .inr (.inr ⟨hu, heq⟩)
    have hinvalid : c.numInvalidVotes =
        ((v :: votes).filter fun u => decide (u.blockHash ≠ b.getHash)).length := by
      rw [h.invalid, filter_cons_of_neg (by simp [hhash])]
    obtain ⟨c', hret, hview', hhash', hvotes, hwait, hinv⟩ :=
      countVote_matching hsize (h.hash.trans (congrArg some hhash.symm))
    rw [deliver, hadd]
    refine ⟨c', hret, hview'.trans h.view, hhash'.trans h.hash, fun u => ?_, ?_, hinv.trans hinvalid⟩
    · rw [hvotes, hcounted u]
    · rw [hwait, h.waiting]
  · refine ⟨{ c with received := c.received ++ [v], numInvalidVotes := c.numInvalidVotes + 1 }, ?_,
      { h with counted := fun u => ?_, invalid := ?_ }⟩
    · rw [deliver, hadd, countVote]
      simp only [h.hash, ne_eq, hhash, not_false_eq_true, ↓reduceIte, returned]
    · rw [h.counted u, mem_cons]
      constructor
      · rintro (rfl | ⟨hu, heq⟩)
        · exact .inl rfl
        · exact .inr ⟨.inr hu, heq⟩
      · rintro (rfl | ⟨rfl | hu, heq⟩)
        · exact .inl rfl
        · exact absurd heq hhash
        · exact .inr ⟨hu, heq⟩
    · rw [filter_cons_of_pos (by simp [hhash]), length_cons, ← h.invalid]

/-- A block that is stored counts the votes that wait for it. -/
theorem Awaiting.stored (h : Awaiting b votes c) (hv : VotesOf peers b.view b.leader votes)
    (d : StateDiff P) : Counted b votes (c.storeBlock b d) := by
  have hleader : c.tally.leaderVote b = leaderVoteOf b := by
    simp only [Tally.leaderVote, leaderVoteOf, tally, h.view, h.leader]
  have hfirst : (c.votes.insert (leaderVoteOf b)).elems = [leaderVoteOf b] := by
    rw [elems_insert (by simp [h.noVotes]), h.noVotes]
  have hvotes : (c.storeBlock b d).votes =
      (votes.filter fun v => decide (v.blockHash = b.getHash)).foldl (fun s v => s.insert v)
        (c.votes.insert (leaderVoteOf b)) := by
    rw [← h.waiting, ← hleader]
    rfl
  have hnodup : ((votes.filter fun v => decide (v.blockHash = b.getHash)).map Vote.key).Nodup :=
    ((Nodup.of_map (fun k => k.2.2) (by rw [map_map]; exact hv.distinct)).sublist
      (filter_sublist.map _))
  have hnew : ∀ u ∈ votes.filter fun v => decide (v.blockHash = b.getHash),
      Vote.key u ∉ (c.votes.insert (leaderVoteOf b)).elems.map Vote.key := by
    intro u hu
    rw [hfirst]
    refine key_not_mem fun w hw => ?_
    rw [mem_singleton.mp hw]
    exact (hv.others u (mem_of_mem_filter hu)).symm
  refine ⟨h.view, rfl, fun u => ?_, rfl, ?_⟩
  · rw [hvotes, mem_def, elems_foldl_insert hnodup hnew, hfirst]
    simp [or_comm]
  have hsplit := length_eq_length_filter_add (l := votes) fun v =>
    decide (v.blockHash = b.getHash)
  have hinvalid : (c.storeBlock b d).numInvalidVotes = c.numInvalidVotes +
      (votes.length - (votes.filter fun v => decide (v.blockHash = b.getHash)).length) := by
    rw [← h.waiting]
    rfl
  rw [hinvalid, h.valid]
  simp only [← decide_not] at hsplit
  simp only [ne_eq]
  omega

/-- **The block**, after any of the votes. -/
theorem Awaiting.block (h : Awaiting b votes c) (hsigned : LeaderSigned peers b)
    (hv : VotesOf peers b.view b.leader votes) (d : StateDiff P) :
    ∃ c', deliver peers c (.block b d) = some c' ∧ Counted b votes c' := by
  obtain ⟨pk, hpk, hverify⟩ := hsigned
  have hstored := h.stored hv d
  have hmarked : Counted b votes (c.storeBlock b d).markBlockFinalized := { hstored with }
  rw [deliver, addNewViewBlock]
  simp only [h.view, h.noBlock, h.leader, h.parent, hpk, hverify, h.noCertificate, ne_eq,
    not_true_eq_false, ↓reduceIte, Option.isSome_none, Bool.false_eq_true, Bool.not_true,
    Option.any_none]
  split
  · exact ⟨_, rfl, hstored⟩
  · split
    · exact ⟨_, rfl, hmarked⟩
    · exact ⟨_, rfl, hstored⟩

/-! ## Any order -/

theorem awaiting_new (replicaId : Nat) (b : Block P) :
    Awaiting b [] (.new b.view b.leader replicaId b.parentBlockHash) := by
  constructor <;> rfl

/-- Votes in a row. `D` is one of the two descriptions. -/
theorem deliver_votes {D : List (Vote P) → ViewContext P → Prop}
    (hstep : ∀ {votes c v}, D votes c → VotesOf peers view leader (v :: votes) →
      ∃ c', deliver peers c (.vote v) = some c' ∧ D (v :: votes) c') (more : List (Vote P))
    (h : D votes c) (hv : VotesOf peers view leader (more.reverse ++ votes)) :
    ∃ c', (more.map Delivery.vote).foldlM (deliver peers) c = some c' ∧
      D (more.reverse ++ votes) c' := by
  induction more generalizing votes c with
  | nil => exact ⟨c, rfl, h⟩
  | cons v more ih =>
    rw [reverse_cons, append_assoc] at hv ⊢
    obtain ⟨c', hc', h'⟩ := hstep h (hv.sublist (sublist_append_right _ _))
    obtain ⟨c'', hc'', h''⟩ := ih h' hv
    refine ⟨c'', ?_, h''⟩
    simp only [map_cons, foldlM_cons, hc']
    exact hc''

theorem Delivery.votes_map (votes : List (Vote P)) :
    Delivery.votes (votes.map Delivery.vote) = votes := by
  rw [Delivery.votes, filterMap_map]
  exact filterMap_some

theorem Delivery.map_votes {l : List (Delivery P)} (h : ∀ x ∈ l, ∃ v, x = Delivery.vote v) :
    (Delivery.votes l).map Delivery.vote = l := by
  induction l with
  | nil => rfl
  | cons x l ih =>
    obtain ⟨v, rfl⟩ := h x mem_cons_self
    have hrest := ih fun y hy => h y (mem_cons_of_mem _ hy)
    simp only [Delivery.votes, filterMap_cons, map_cons] at hrest ⊢
    rw [hrest]

variable {order : List (Delivery P)}

/-- An order of a block and votes is votes, the block and votes. -/
theorem order_cut {d : StateDiff P} (h : order.Perm (.block b d :: votes.map .vote)) :
    ∃ before after : List (Vote P),
      order = before.map Delivery.vote ++ .block b d :: after.map Delivery.vote ∧
      (before ++ after).Perm votes := by
  obtain ⟨l₁, l₂, rfl⟩ := append_of_mem (h.mem_iff.mpr mem_cons_self)
  have hrest : (l₁ ++ l₂).Perm (votes.map Delivery.vote) :=
    (perm_middle.symm.trans h).cons_inv
  have hvotes : ∀ x ∈ l₁ ++ l₂, ∃ v, x = Delivery.vote v := by
    intro x hx
    obtain ⟨v, -, rfl⟩ := mem_map.mp (hrest.mem_iff.mp hx)
    exact ⟨v, rfl⟩
  refine ⟨Delivery.votes l₁, Delivery.votes l₂, ?_, ?_⟩
  · rw [Delivery.map_votes fun x hx => hvotes x (mem_append_left _ hx),
      Delivery.map_votes fun x hx => hvotes x (mem_append_right _ hx)]
  · rw [← Delivery.votes_map votes, Delivery.votes, Delivery.votes, ← filterMap_append]
    exact hrest.filterMap _

/-- What any order leaves. -/
theorem deliver_order (hsize : P.mSize = 2 * P.F + 1) (replicaId : Nat) (d : StateDiff P)
    (hsigned : LeaderSigned peers b) (hv : VotesOf peers b.view b.leader votes)
    (h : order.Perm (.block b d :: votes.map .vote)) :
    ∃ c, order.foldlM (deliver peers) (.new b.view b.leader replicaId b.parentBlockHash) = some c ∧
      Counted b votes c := by
  obtain ⟨before, after, rfl, hperm⟩ := order_cut h
  have hsame : (after.reverse ++ (before.reverse ++ [])).Perm votes := by
    rw [append_nil, ← reverse_append]
    exact (reverse_perm _).trans hperm
  have hall := hv.perm hsame
  have hbefore := hall.sublist (sublist_append_right _ _)
  obtain ⟨c₁, hc₁, h₁⟩ := deliver_votes (fun h => h.vote) before (awaiting_new replicaId b) hbefore
  obtain ⟨c₂, hc₂, h₂⟩ := h₁.block hsigned hbefore d
  obtain ⟨c₃, hc₃, h₃⟩ := deliver_votes (fun h => h.vote hsize) after h₂ hall
  refine ⟨c₃, ?_, h₃.perm hsame⟩
  rw [foldlM_append, hc₁]
  simp only [foldlM_cons, Option.bind_eq_bind, Option.bind_some, hc₂, hc₃]

/-- **Counting does not depend on the order of delivery.** The block of a view
and valid votes of distinct peers, none of them the leader, are all taken in
any order, and every order leaves the same counted votes, the same number of
invalid ones and none that wait. -/
theorem delivery_order_irrelevant (hsize : P.mSize = 2 * P.F + 1) (replicaId : Nat) {b : Block P}
    (d : StateDiff P) {votes : List (Vote P)} (hsigned : LeaderSigned peers b)
    (hv : VotesOf peers b.view b.leader votes) {order order' : List (Delivery P)}
    (h : order.Perm (.block b d :: votes.map .vote))
    (h' : order'.Perm (.block b d :: votes.map .vote)) :
    ∃ c c', order.foldlM (deliver peers) (.new b.view b.leader replicaId b.parentBlockHash) =
        some c ∧
      order'.foldlM (deliver peers) (.new b.view b.leader replicaId b.parentBlockHash) = some c' ∧
      (∀ v, v ∈ c.votes ↔ v ∈ c'.votes) ∧ c.numInvalidVotes = c'.numInvalidVotes ∧
      c.nonVerifiedVotes.elems = [] ∧ c'.nonVerifiedVotes.elems = [] := by
  obtain ⟨c, hc, hcounted⟩ := deliver_order hsize replicaId d hsigned hv h
  obtain ⟨c', hc', hcounted'⟩ := deliver_order hsize replicaId d hsigned hv h'
  refine ⟨c, c', hc, hc', fun v => ?_, ?_, hcounted.waiting, hcounted'.waiting⟩
  · rw [hcounted.counted v, hcounted'.counted v]
  · rw [hcounted.invalid, hcounted'.invalid]

/-- A vote for the first block and one against it. -/
def splitVotes : List (Vote sampleParams) :=
  [voteOf 2 1 firstBlock.getHash, voteOf 3 1 secondBlock.getHash]

/-- The block comes between the votes, or before them. -/
theorem delivery_order_irrelevant_split : ∃ c c',
    [.vote (voteOf 3 1 secondBlock.getHash), .block firstBlock StateDiff.new,
      .vote (voteOf 2 1 firstBlock.getHash)].foldlM (deliver samplePeers)
      (.new 1 1 0 (Block.genesisHash sampleParams)) = some c ∧
    (.block firstBlock StateDiff.new :: splitVotes.map .vote).foldlM (deliver samplePeers)
      (.new 1 1 0 (Block.genesisHash sampleParams)) = some c' ∧
    (∀ v, v ∈ c.votes ↔ v ∈ c'.votes) ∧ c.numInvalidVotes = c'.numInvalidVotes ∧
    c.nonVerifiedVotes.elems = [] ∧ c'.nonVerifiedVotes.elems = [] := by
  have hvotes : VotesOf samplePeers firstBlock.view firstBlock.leader splitVotes := by
    constructor
    · simp only [splitVotes, List.forall_mem_cons]
      exact ⟨rfl, rfl, fun _ h => (nomatch h)⟩
    · simp only [splitVotes, List.forall_mem_cons]
      exact ⟨⟨_, rfl, by decide +kernel⟩, ⟨_, rfl, by decide +kernel⟩, fun _ h => (nomatch h)⟩
    · decide
    · simp only [splitVotes, List.forall_mem_cons]
      exact ⟨by decide, by decide, fun _ h => (nomatch h)⟩
  refine delivery_order_irrelevant rfl 0 StateDiff.new ⟨_, rfl, by decide +kernel⟩ hvotes ?_
    (List.Perm.refl _)
  exact (List.Perm.swap _ _ _).trans (List.Perm.cons _ (List.Perm.swap _ _ _))

end ViewContext

end Minimmit
