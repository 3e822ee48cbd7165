/-
Minimmit.Consensus.TallyTheorems — what the counters of a view stand for.

Three functions give a view its hash, and each of them turns waiting votes
into counted or invalid ones. As long as none of them replaces a hash the
view already has, the counted votes are votes of distinct peers for that hash
(`votes_agree`), and the number of invalid votes is the number of peers that
voted for another one, provided that none of them is heard twice
(`invalid_votes_bounded`).

Both provisos are needed. `add_m_notarization` may leave a view with a hash
and no certificate, and `add_new_view_block` then writes the hash of the block
over it while the votes for the first one stay (`mixed_votes`). A vote for
another block is counted and forgotten, so the same message counts each time
it arrives (`counted_twice`).
-/
import Minimmit.Consensus.ContextCalls
import Minimmit.Consensus.Sample

namespace Minimmit

open Minimmit.Library KeySet List

variable {P : Params}

namespace ViewContext

variable {peers : PeerSet P} {c c₀ : ViewContext P} {t : Tally P} {v : Vote P}
  {calls : List (Call P)}

/-! ## The votes of a view agree -/

/-- What the counted votes of a view are. -/
structure VotesAgree (peers : PeerSet P) (c : ViewContext P) : Prop where
  hash : ∀ v ∈ c.votes, c.blockHash = some v.blockHash
  distinct : (c.votes.elems.map (·.peerId)).Nodup
  /-- The signer is in the peer set and the signature is its own. -/
  signed : ∀ v ∈ c.votes, SignedBy peers v
  disjoint : ∀ v ∈ c.votes, ∀ u ∈ c.nonVerifiedVotes, u.peerId ≠ v.peerId
  waiting : c.blockHash ≠ none → c.nonVerifiedVotes.elems = []
  certificate : ∀ m, c.mNotarization = some m → c.blockHash = some m.blockHash

/-- A tally in which every counted vote is for the hash of the view. -/
structure Tally.Sound (peers : PeerSet P) (t : Tally P) : Prop where
  hash : ∀ v ∈ t.votes, t.blockHash = some v.blockHash
  view : ∀ v ∈ t.votes, v.view = t.view
  empty : t.blockHash = none → t.votes.elems = []
  settled : t.blockHash ≠ none → t.waiting.elems = []
  waitingView : ∀ v ∈ t.waiting, v.view = t.view
  waitingSigned : ∀ v ∈ t.waiting, SignedBy peers v
  waitingDistinct : (t.waiting.elems.map (·.peerId)).Nodup
  certificate : ∀ h, t.certificate = some h → t.blockHash = some h

namespace Tally.Sound

variable {t : Tally P}

/-- A peer has one counted vote: the key of a vote is its view, its hash and
its peer, and the first two are those of the tally. -/
theorem distinct (hs : t.Sound peers) : (t.votes.elems.map (·.peerId)).Nodup := by
  refine t.votes.map_nodup_of_inj _ fun u hu v hv heq => ?_
  have hhash := Option.some.inj ((hs.hash u hu).symm.trans (hs.hash v hv))
  simp only [Vote.key, hs.view u hu, hs.view v hv, hhash, heq]

theorem disjoint (hs : t.Sound peers) : ∀ v ∈ t.votes, ∀ u ∈ t.waiting, u.peerId ≠ v.peerId := by
  intro v hv u hu
  have hempty := hs.settled (by rw [hs.hash v hv]; exact Option.some_ne_none _)
  rw [mem_def, hempty] at hu
  cases hu

/-- The view gets or keeps its hash: votes for it are counted, nothing waits
any more. -/
theorem settle (hs : t.Sound peers) {h : Hash P} {certificate : Option (Hash P)}
    (votes : List (Vote P)) (invalid : Nat)
    (hh : t.blockHash = none ∨ t.blockHash = some h)
    (hvotes : ∀ v ∈ votes, v.blockHash = h ∧ v.view = t.view)
    (hcert : ∀ h', certificate = some h' → h' = h) :
    Tally.Sound peers { t with
      blockHash := some h, votes := votes.foldl (fun s v => s.insert v) t.votes, waiting := ∅,
      invalid, certificate } := by
  have hmem : ∀ v ∈ votes.foldl (fun s v => s.insert v) t.votes,
      v.blockHash = h ∧ v.view = t.view := by
    intro v hv
    rcases mem_foldl_insert hv with hv | hv
    · exact hvotes v hv
    · refine ⟨?_, hs.view v hv⟩
      rcases hh with hnone | hsome
      · rw [mem_def, hs.empty hnone] at hv
        cases hv
      · exact Option.some.inj ((hs.hash v hv).symm.trans hsome)
  exact
    { hash := fun v hv => congrArg some (hmem v hv).1.symm
      view := fun v hv => (hmem v hv).2
      empty := fun hnone => nomatch hnone
      settled := fun _ => rfl
      waitingView := fun v hv => absurd hv (not_mem_empty v)
      waitingSigned := fun v hv => absurd hv (not_mem_empty v)
      waitingDistinct := nodup_nil
      certificate := fun h' hcert' => congrArg some (hcert h' hcert').symm }

theorem waitingFor (hs : t.Sound peers) {h : Hash P} :
    ∀ v ∈ t.waitingFor h, v.blockHash = h ∧ v.view = t.view := by
  intro v hv
  obtain ⟨hmem, heq⟩ := mem_filter.mp hv
  exact ⟨of_decide_eq_true heq, hs.waitingView v hmem⟩

theorem cast (hs : t.Sound peers) {v : Vote P} (hview : v.view = t.view)
    (hh : t.blockHash = none ∨ t.blockHash = some v.blockHash) : (t.cast v).Sound peers := by
  refine hs.settle (v :: t.waitingFor v.blockHash) _ hh (fun u hu => ?_) fun h hcert => ?_
  · rcases mem_cons.mp hu with rfl | hu
    · exact ⟨rfl, hview⟩
    · exact hs.waitingFor u hu
  · have hcert := hs.certificate h hcert
    rcases hh with hnone | hsome
    · exact nomatch hnone.symm.trans hcert
    · exact Option.some.inj (hcert.symm.trans hsome)

end Tally.Sound

/-- The hash of the view is not replaced: a block comes for the hash the view
has, unless a certificate stands for that hash, which the code checks. -/
def KeepsHash (c : ViewContext P) : Call P → Prop
  | .addNewViewBlock b _ => c.mNotarization = none → ∀ h, c.blockHash = some h → h = b.getHash
  | _ => True

/-- A block finds no hash or its own. -/
theorem Tally.Sound.block_hash (hs : c.tally.Sound peers) {b : Block P} {d : StateDiff P}
    (hkeep : KeepsHash c (.addNewViewBlock b d))
    (hcert : ∀ h, c.tally.certificate = some h → h = b.getHash) :
    c.tally.blockHash = none ∨ c.tally.blockHash = some b.getHash := by
  cases hm : c.mNotarization with
  | none =>
    cases hh : c.blockHash with
    | none => exact .inl hh
    | some h => exact .inr (hh.trans (congrArg some (hkeep hm h hh)))
  | some m =>
    have hsome : c.tally.certificate = some m.blockHash := by simp [tally, hm]
    rw [← hcert m.blockHash hsome]
    exact .inr (hs.certificate m.blockHash hsome)

/-- A vote that is new to the tally waits. -/
theorem Tally.Sound.wait (hs : t.Sound peers) (hv : t.Admits peers v) (hh : t.blockHash = none) :
    Tally.Sound peers { t with waiting := t.waiting.insert v } := by
  have hnew : Vote.key v ∉ t.waiting.elems.map Vote.key := by
    intro hmem
    obtain ⟨u, hu, hkey⟩ := mem_map.mp hmem
    exact hv.freshWaiting u hu (congrArg (·.2.2) hkey)
  have hcases : ∀ u ∈ t.waiting.insert v, u = v ∨ u ∈ t.waiting := fun u => KeySet.mem_insert_imp
  refine { hs with settled := ?_, waitingView := ?_, waitingSigned := ?_, waitingDistinct := ?_ }
  · intro hne
    exact absurd hh hne
  · intro u hu
    rcases hcases u hu with rfl | hu
    · exact hv.view
    · exact hs.waitingView u hu
  · intro u hu
    rcases hcases u hu with rfl | hu
    · exact hv.signature
    · exact hs.waitingSigned u hu
  · simp only [KeySet.insert, hnew, ↓reduceDIte, map_cons, nodup_cons]
    refine ⟨fun hmem => ?_, hs.waitingDistinct⟩
    obtain ⟨u, hu, heq⟩ := mem_map.mp hmem
    exact hv.freshWaiting u hu heq

/-- A vote for the hash of the view is counted. -/
theorem Tally.Sound.count (hs : t.Sound peers) (hv : t.Admits peers v)
    (hh : t.blockHash = some v.blockHash) :
    Tally.Sound peers { t with votes := t.votes.insert v } := by
  have hcases : ∀ u ∈ t.votes.insert v, u = v ∨ u ∈ t.votes := fun u => mem_insert_imp
  refine { hs with hash := ?_, view := ?_, empty := ?_ }
  · intro u hu
    rcases hcases u hu with rfl | hu
    · exact hh
    · exact hs.hash u hu
  · intro u hu
    rcases hcases u hu with rfl | hu
    · exact hv.view
    · exact hs.view u hu
  · intro hnone
    exact nomatch hnone.symm.trans hh

/-- **A call that keeps the hash keeps the tally sound.** -/
theorem Tally.Sound.call (hs : c.tally.Sound peers) {call : Call P} {t' : Tally P}
    (hkeep : KeepsHash c call) (h : Effect peers c.tally call t') : t'.Sound peers := by
  cases h with
  | flags | reject => exact { hs with }
  | wait hv hh => exact hs.wait hv hh
  | count hv hh => exact hs.count hv hh
  | certified hv hh =>
    refine { hs.count hv hh with certificate := fun h hcert => ?_ }
    rw [← Option.some.inj hcert]
    exact hh
  | block hsig hcert => exact hs.cast rfl (hs.block_hash hkeep hcert)
  | own hh => exact hs.cast rfl hh
  | @adopt m hh =>
    have hnone : c.tally.certificate = none := by
      rcases hcert : c.tally.certificate with _ | h
      · rfl
      · exact nomatch hh.symm.trans (hs.certificate h hcert)
    rw [hnone]
    exact hs.settle _ _ (.inl hh) hs.waitingFor fun h hcert => (Option.some.inj hcert).symm
  | hashOnly hh =>
    exact hs.settle _ _ (.inl hh) hs.waitingFor fun h hcert =>
      nomatch hh.symm.trans (hs.certificate h hcert)
  | certify hh =>
    refine { hs with certificate := fun h hcert => ?_ }
    rw [← Option.some.inj hcert]
    exact hh

theorem sound_new (view leaderId replicaId : Nat) (parent : Hash P) :
    (ViewContext.new view leaderId replicaId parent).tally.Sound peers := by
  constructor <;> simp [ViewContext.new, tally, mem_def]

/-- Every run that keeps the hash keeps the tally sound. -/
theorem CallRun.sound {ok : List (Call P) → ViewContext P → Call P → Prop}
    (h₀ : c₀.tally.Sound peers) (hok : ∀ {calls c call}, ok calls c call → KeepsHash c call)
    (h : CallRun peers ok c₀ calls c) : c.tally.Sound peers := by
  induction h with
  | fresh => exact h₀
  | call _ _ _ hcall ih => exact ih.call (hok hcall) (run_effect _ _)

/-- The condition under which the votes agree: no hash is replaced, and the
own vote carries the signature of this replica. -/
def Orderly (peers : PeerSet P) (c : ViewContext P) : Call P → Prop
  | .addOwnVote h signature => SignedBy peers
      { view := c.viewNumber, blockHash := h, signature, peerId := c.replicaId,
        leaderId := c.leaderId }
  | call => KeepsHash c call

theorem Orderly.keepsHash {call : Call P} (h : Orderly peers c call) : KeepsHash c call := by
  cases call with
  | addOwnVote => trivial
  | _ => exact h

/-- A vote in a set of counted votes with a list of further ones. -/
theorem signed_insert {votes : KeySet (Vote.key (P := P))} (new : List (Vote P))
    (hold : ∀ v ∈ votes, SignedBy peers v) (hnew : ∀ v ∈ new, SignedBy peers v) :
    ∀ v ∈ new.foldl (fun s v => s.insert v) votes, SignedBy peers v := by
  intro v hv
  rcases mem_foldl_insert hv with hv | hv
  · exact hnew v hv
  · exact hold v hv

/-- The counted votes stay signed. -/
theorem Effect.signed {t' : Tally P} {call : Call P} (h : Effect peers t call t')
    (hcounted : ∀ v ∈ t.votes, SignedBy peers v) (hwaiting : ∀ v ∈ t.waiting, SignedBy peers v)
    (hown : ∀ h signature, call = .addOwnVote h signature →
      SignedBy peers (t.ownVote h signature)) : ∀ v ∈ t'.votes, SignedBy peers v := by
  have hfor : ∀ {h : Hash P}, ∀ v ∈ t.waitingFor h, SignedBy peers v :=
    fun v hv => hwaiting v (mem_of_mem_filter hv)
  cases h with
  | flags | wait | reject | certify => exact hcounted
  | @count v hv | @certified v hv => exact signed_insert [v] hcounted (by simpa using hv.signature)
  | @block b _ hsig =>
    refine signed_insert (t.leaderVote b :: t.waitingFor b.getHash) hcounted ?_
    exact forall_mem_cons.mpr ⟨hsig, hfor⟩
  | @own h signature =>
    refine signed_insert (t.ownVote h signature :: t.waitingFor h) hcounted ?_
    exact forall_mem_cons.mpr ⟨hown h signature rfl, hfor⟩
  | adopt | hashOnly => exact signed_insert _ hcounted hfor

theorem CallRun.signed (h₀ : c₀.tally.Sound peers) (hsigned : ∀ v ∈ c₀.votes, SignedBy peers v)
    (h : CallRun peers (fun _ => Orderly peers) c₀ calls c) : ∀ v ∈ c.votes, SignedBy peers v := by
  induction h with
  | fresh => exact hsigned
  | @call _ c hrun call _ hok ih =>
    have hs := hrun.sound h₀ Orderly.keepsHash
    refine (run_effect call c).signed ih hs.waitingSigned ?_
    rintro h signature rfl
    exact hok

/-- **The votes of a view agree on one block**, in every sequence of calls
that is orderly. -/
theorem votes_agree {view leaderId replicaId : Nat} {parent : Hash P} {calls : List (Call P)}
    {c : ViewContext P}
    (h : CallRun peers (fun _ => Orderly peers) (ViewContext.new view leaderId replicaId parent)
      calls c) : VotesAgree peers c := by
  have hs := h.sound (sound_new view leaderId replicaId parent) Orderly.keepsHash
  have hsigned := h.signed (sound_new view leaderId replicaId parent) fun v hv =>
    absurd hv (KeySet.not_mem_empty v)
  exact
    { hash := hs.hash, distinct := hs.distinct, signed := hsigned, disjoint := hs.disjoint
      waiting := hs.settled
      certificate := fun m hm => hs.certificate m.blockHash (by simp [tally, hm]) }

/-- The context of view 1 at replica 0, before its first call. -/
def firstContext : ViewContext sampleParams :=
  ViewContext.new 1 1 0 (Block.genesisHash sampleParams)

/-- Another block of the first leader. -/
def rivalBlock : Block sampleParams := emptyBlock 1 (Block.genesisHash sampleParams) 1

theorem votes_agree_vote : VotesAgree samplePeers
    (Call.run samplePeers (Call.run samplePeers firstContext
      (.addNewViewBlock firstBlock StateDiff.new))
      (.addOwnVote firstBlock.getHash (signHash 0 firstBlock.getHash))) := by
  refine votes_agree ((CallRun.fresh.call (.addNewViewBlock firstBlock StateDiff.new)
    (by decide +kernel) fun _ h hh => nomatch hh).call _ (by decide +kernel) ?_)
  exact ⟨_, rfl, by decide +kernel⟩

/-- The leader of view 1 gives one block to replicas 2 and 3 and another one
to replicas 4 and 5. Replica 0 hears three of the votes, then the certificate
of the first block, which it drops because two of the votes are against it,
and then gets the second block. -/
def mixedCalls : List (Call sampleParams) :=
  [.addVote (voteOf 4 1 rivalBlock.getHash), .addVote (voteOf 5 1 rivalBlock.getHash),
    .addVote (voteOf 2 1 firstBlock.getHash), .addMNotarization (certificateOf 1 firstBlock.getHash),
    .addNewViewBlock rivalBlock StateDiff.new]

/-- The hash of the second block is written over the first one, for which a
vote is counted. -/
theorem mixed_votes : ∃ c, CallRun samplePeers (fun _ _ _ => True) firstContext mixedCalls c ∧
    ¬ VotesAgree samplePeers c := by
  refine ⟨_, ((((CallRun.fresh.call _ (by decide +kernel) trivial).call _ (by decide +kernel)
    trivial).call _ (by decide +kernel) trivial).call _ (by decide +kernel) trivial).call _
    (by decide +kernel) trivial, fun h => ?_⟩
  have hall := List.all_eq_true.mpr fun v hv => decide_eq_true (h.hash v hv)
  revert hall
  decide +kernel

/-! ## Conflicting votes -/

/-- Does the vote carry the signature of a peer of the peer set? -/
def signedByPeer (peers : PeerSet P) (v : Vote P) : Bool :=
  (peers.getPublicKey v.peerId).any fun pk => v.verify pk

theorem signedByPeer_iff : signedByPeer peers v = true ↔ SignedBy peers v := by
  simp [signedByPeer, SignedBy, Option.any_eq_true]

/-- The votes that were delivered to the context. -/
def delivered (calls : List (Call P)) : List (Vote P) :=
  calls.filterMap fun
    | .addVote v => some v
    | _ => none

theorem mem_delivered : v ∈ delivered calls ↔ Call.addVote v ∈ calls := by
  simp only [delivered, mem_filterMap]
  constructor
  · rintro ⟨call, hmem, hcall⟩
    cases call with
    | addVote u => rwa [← Option.some.inj hcall]
    | _ => cases hcall
  · exact fun hmem => ⟨_, hmem, rfl⟩

/-- The peers that sent a signed vote of the view for another hash than the
context's. -/
def conflictingVoters (peers : PeerSet P) (calls : List (Call P)) (c : ViewContext P) : Finset Nat :=
  (((delivered calls).filter fun v => signedByPeer peers v && decide (v.view = c.viewNumber) &&
    decide (c.blockHash ≠ some v.blockHash)).map (·.peerId)).toFinset

/-- A vote that makes its sender a conflicting voter. -/
structure Conflicting (peers : PeerSet P) (calls : List (Call P)) (view : Nat)
    (blockHash : Option (Hash P)) (v : Vote P) : Prop where
  delivered : Call.addVote v ∈ calls
  signed : SignedBy peers v
  view : v.view = view
  hash : blockHash ≠ some v.blockHash

theorem mem_conflictingVoters {i : Nat} :
    i ∈ conflictingVoters peers calls c ↔
      ∃ v, Conflicting peers calls c.viewNumber c.blockHash v ∧ v.peerId = i := by
  simp only [conflictingVoters, mem_toFinset, mem_map, mem_filter, mem_delivered,
    Bool.and_eq_true, decide_eq_true_iff, signedByPeer_iff]
  constructor
  · rintro ⟨v, ⟨hmem, ⟨hsigned, hview⟩, hhash⟩, hi⟩
    exact ⟨v, ⟨hmem, hsigned, hview, hhash⟩, hi⟩
  · rintro ⟨v, hv, hi⟩
    exact ⟨v, ⟨hv.delivered, ⟨hv.signed, hv.view⟩, hv.hash⟩, hi⟩

/-- The condition under which invalid votes are counted once per peer: no
hash is replaced, and a vote for another hash comes from a peer that was not
heard with one before. -/
def CountsOnce (peers : PeerSet P) (calls : List (Call P)) (c : ViewContext P) : Call P → Prop
  | .addVote v => ∀ h, c.blockHash = some h → v.blockHash ≠ h →
      v.peerId ∉ conflictingVoters peers calls c
  | call => KeepsHash c call

theorem CountsOnce.keepsHash {call : Call P} (h : CountsOnce peers calls c call) :
    KeepsHash c call := by
  cases call with
  | addVote => trivial
  | _ => exact h

/-- The invalid votes of a tally, one for each of as many peers. -/
structure Evidenced (peers : PeerSet P) (calls : List (Call P)) (t : Tally P) : Prop where
  waiting : ∀ v ∈ t.waiting, Call.addVote v ∈ calls
  none : t.blockHash = none → t.invalid = 0
  voters : ∃ votes : List (Vote P), (votes.map (·.peerId)).Nodup ∧ votes.length = t.invalid ∧
    ∀ v ∈ votes, Conflicting peers calls t.view t.blockHash v

namespace Evidenced

variable {calls : List (Call P)} {t : Tally P} {c : ViewContext P}

/-- A call that leaves hash, waiting votes and counter alone. -/
theorem later (he : Evidenced peers calls t) (call : Call P) {t' : Tally P}
    (hview : t'.view = t.view) (hhash : t'.blockHash = t.blockHash)
    (hwaiting : t'.waiting = t.waiting) (hinvalid : t'.invalid = t.invalid) :
    Evidenced peers (calls ++ [call]) t' := by
  refine ⟨fun v hv => ?_, fun hnone => ?_, ?_⟩
  · rw [hwaiting] at hv
    exact mem_append_left _ (he.waiting v hv)
  · rw [hinvalid]
    exact he.none (hhash.symm.trans hnone)
  · obtain ⟨votes, hnodup, hlength, hvotes⟩ := he.voters
    refine ⟨votes, hnodup, hlength.trans hinvalid.symm, fun v hv => ?_⟩
    obtain ⟨hmem, hsigned, hv, hne⟩ := hvotes v hv
    exact ⟨mem_append_left _ hmem, hsigned, hv.trans hview.symm, hhash ▸ hne⟩

/-- The view gets its hash, and the waiting votes for another one become
invalid; a view that has its hash has none waiting. -/
theorem settle (he : Evidenced peers calls t) (hs : t.Sound peers) (call : Call P) {h : Hash P}
    {votes : KeySet (Vote.key (P := P))} {certificate : Option (Hash P)}
    (hh : t.blockHash = Option.none ∨ t.blockHash = some h) :
    Evidenced peers (calls ++ [call])
      { t.choose h with votes := votes, certificate := certificate } := by
  rcases hh with hnone | hsome
  · have hsplit := length_eq_length_filter_add (l := t.waiting.elems)
      fun v : Vote P => decide (v.blockHash = h)
    refine ⟨fun v hv => absurd hv (not_mem_empty v), (fun hn => nomatch hn),
      t.waiting.elems.filter fun v => !decide (v.blockHash = h), ?_, ?_, fun v hv => ?_⟩
    · exact hs.waitingDistinct.sublist (filter_sublist.map _)
    · simp only [Tally.choose, Tally.waitingFor, he.none hnone, len]
      omega
    · obtain ⟨hmem, hne⟩ := mem_filter.mp hv
      have hne : v.blockHash ≠ h := by simpa using hne
      exact ⟨mem_append_left _ (he.waiting v hmem), hs.waitingSigned v hmem,
        hs.waitingView v hmem, fun heq => hne (Option.some.inj heq).symm⟩
  · have hempty : t.waiting = ∅ := by
      have helems := hs.settled (by rw [hsome]; exact Option.some_ne_none h)
      cases hw : t.waiting with
      | mk elems nodup =>
        rw [hw] at helems
        subst helems
        rfl
    refine he.later call rfl hsome.symm hempty.symm ?_
    simp [Tally.choose, Tally.waitingFor, hempty]

/-- A vote for another hash counts for its sender, who was not heard with one
before. -/
theorem reject (he : Evidenced peers calls c.tally) {v : Vote P} {h : Hash P}
    (hv : c.tally.Admits peers v) (hh : c.tally.blockHash = some h) (hne : v.blockHash ≠ h)
    (hnew : v.peerId ∉ conflictingVoters peers calls c) :
    Evidenced peers (calls ++ [.addVote v]) { c.tally with invalid := c.tally.invalid + 1 } := by
  obtain ⟨votes, hnodup, hlength, hvotes⟩ := he.voters
  refine ⟨fun u hu => mem_append_left _ (he.waiting u hu),
    (fun hnone => nomatch hnone.symm.trans hh), v :: votes, ?_, congrArg (· + 1) hlength, ?_⟩
  · refine nodup_cons.mpr ⟨fun hmem => hnew ?_, hnodup⟩
    obtain ⟨u, hu, heq⟩ := mem_map.mp hmem
    exact mem_conflictingVoters.mpr ⟨u, hvotes u hu, heq⟩
  · refine forall_mem_cons.mpr ⟨⟨?_, hv.signature, hv.view, ?_⟩, fun u hu => ?_⟩
    · exact mem_append_right _ mem_cons_self
    · exact fun heq => hne (Option.some.inj (heq.symm.trans hh))
    · obtain ⟨hmem, hsigned, hview, hhash⟩ := hvotes u hu
      exact ⟨mem_append_left _ hmem, hsigned, hview, hhash⟩

/-- A vote that waits was delivered. -/
theorem wait (he : Evidenced peers calls t) {v : Vote P} :
    Evidenced peers (calls ++ [.addVote v]) { t with waiting := t.waiting.insert v } := by
  have hlater : Evidenced peers (calls ++ [.addVote v]) t := he.later _ rfl rfl rfl rfl
  refine ⟨fun u hu => ?_, hlater.none, hlater.voters⟩
  rcases mem_insert_imp hu with rfl | hu
  · exact mem_append_right _ mem_cons_self
  · exact hlater.waiting u hu

theorem call (he : Evidenced peers calls c.tally) (hs : c.tally.Sound peers) {call : Call P}
    {t' : Tally P} (hok : CountsOnce peers calls c call) (h : Effect peers c.tally call t') :
    Evidenced peers (calls ++ [call]) t' := by
  cases h with
  | flags | count | certified | certify => exact he.later _ rfl rfl rfl rfl
  | wait => exact he.wait
  | reject hv hh hne => exact he.reject hv hh hne (hok _ hh hne)
  | block _ hcert => exact he.settle hs _ (hs.block_hash hok.keepsHash hcert)
  | own hh => exact he.settle hs _ hh
  | adopt hh | hashOnly hh => exact he.settle hs _ (.inl hh)

/-- As many invalid votes as conflicting voters, at most. -/
theorem invalid_le (he : Evidenced peers calls c.tally) :
    c.numInvalidVotes ≤ (conflictingVoters peers calls c).card := by
  obtain ⟨votes, hnodup, hlength, hvotes⟩ := he.voters
  have hsub : (votes.map (·.peerId)).toFinset ⊆ conflictingVoters peers calls c := by
    intro i hi
    obtain ⟨v, hv, rfl⟩ := mem_map.mp (mem_toFinset.mp hi)
    exact mem_conflictingVoters.mpr ⟨v, hvotes v hv, rfl⟩
  calc c.numInvalidVotes
      = (votes.map (·.peerId)).toFinset.card := by
        rw [toFinset_card_of_nodup hnodup, length_map]
        exact hlength.symm
    _ ≤ (conflictingVoters peers calls c).card := Finset.card_le_card hsub

end Evidenced

theorem evidenced_new (view leaderId replicaId : Nat) (parent : Hash P) :
    Evidenced peers [] (ViewContext.new view leaderId replicaId parent).tally :=
  ⟨fun v hv => absurd hv (not_mem_empty v), fun _ => rfl, [], nodup_nil, rfl,
    fun _ hv => nomatch hv⟩

theorem CallRun.evidenced (h₀ : c₀.tally.Sound peers) (he : Evidenced peers [] c₀.tally)
    (h : CallRun peers (CountsOnce peers) c₀ calls c) : Evidenced peers calls c.tally := by
  induction h with
  | fresh => exact he
  | @call _ c hrun call _ hok ih =>
    exact ih.call (hrun.sound h₀ CountsOnce.keepsHash) hok (run_effect call c)

/-- **Invalid votes are votes of distinct peers**, in every sequence of calls
in which no peer is heard twice with a conflicting vote. -/
theorem invalid_votes_bounded {view leaderId replicaId : Nat} {parent : Hash P}
    {calls : List (Call P)} {c : ViewContext P}
    (h : CallRun peers (CountsOnce peers) (ViewContext.new view leaderId replicaId parent) calls c) :
    c.numInvalidVotes ≤ (conflictingVoters peers calls c).card :=
  (h.evidenced (sound_new view leaderId replicaId parent)
    (evidenced_new view leaderId replicaId parent)).invalid_le

theorem invalid_votes_bounded_vote :
    (Call.run samplePeers (Call.run samplePeers firstContext
      (.addNewViewBlock firstBlock StateDiff.new))
      (.addVote (voteOf 3 1 rivalBlock.getHash))).numInvalidVotes = 1 ∧ 1 ≤
    (conflictingVoters samplePeers [.addNewViewBlock firstBlock StateDiff.new,
      .addVote (voteOf 3 1 rivalBlock.getHash)] (Call.run samplePeers
        (Call.run samplePeers firstContext (.addNewViewBlock firstBlock StateDiff.new))
        (.addVote (voteOf 3 1 rivalBlock.getHash)))).card := by
  refine ⟨by decide +kernel, ?_⟩
  have hrun : CallRun samplePeers (CountsOnce samplePeers) firstContext _ _ :=
    (CallRun.fresh.call (.addNewViewBlock firstBlock StateDiff.new) (by decide +kernel)
      fun _ h hh => nomatch hh).call (.addVote (voteOf 3 1 rivalBlock.getHash))
      (by decide +kernel) fun h hh hne => by decide +kernel
  exact invalid_votes_bounded hrun

/-- The vote of one peer for another block arrives twice. -/
def repeatedVote : List (Call sampleParams) :=
  [.addNewViewBlock firstBlock StateDiff.new, .addVote (voteOf 3 1 rivalBlock.getHash),
    .addVote (voteOf 3 1 rivalBlock.getHash)]

/-- It counts twice, which is evidence enough for a nullify message. -/
theorem counted_twice : ∃ c, CallRun samplePeers (fun _ _ _ => True) firstContext repeatedVote c ∧
    c.numInvalidVotes = 2 ∧ (conflictingVoters samplePeers repeatedVote c).card = 1 ∧
    c.shouldNullifyAfterReceivingNewVote = true := by
  refine ⟨_, ((CallRun.fresh.call _ (by decide +kernel) trivial).call _ (by decide +kernel)
    trivial).call _ (by decide +kernel) trivial, ?_, ?_, ?_⟩
  · decide +kernel
  · decide +kernel
  · decide +kernel

end ViewContext

end Minimmit
