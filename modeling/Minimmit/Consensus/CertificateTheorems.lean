/-
Minimmit.Consensus.CertificateTheorems — are the certificates a replica makes
accepted by everyone?

A certificate is the sum of signatures the replica collected. Every vote and
every nullify message was checked when it came, and the replica signs its own
votes itself, so the sum verifies as soon as all the signatures are on one
message. For an M-notarization and a nullification they are: votes are only
taken while the view is not nullified, and until then the view keeps its hash.
An L-notarization is made later, from all the votes of any view on the chain
that is finalized. If that view was nullified in between, it may hold votes
for two hashes, and the certificate is refused by everyone; and the height it
is filed under is the one the leader wrote into the block, so the block that
is found at that height may be another one (`certificates_rejected`). Where
neither happens every certificate is accepted (`certificates_accepted`).
-/
import Minimmit.Consensus.CallRule
import Minimmit.Consensus.HeightTheorems
import Minimmit.Consensus.TallyTheorems

namespace Minimmit

open Minimmit.Library Act ViewContext List Option ViewChain

variable {P : Params}

/-! ## Sums of signatures -/

section Records

variable {α : Type} {peerId : α → Nat} {signature : α → BlsSignature P} {peers : PeerSet P}
  {message : List UInt8}

/-- The record carries the signature of its peer on the message. -/
def Signs (peers : PeerSet P) (message : List UInt8) (i : Nat) (σ : BlsSignature P) : Prop :=
  ∃ pk, peers.getPublicKey i = some pk ∧ Crypto.verify P.hashing P.curve pk message σ = true

/-- **The sum of checked signatures verifies** under the keys of the signers,
all of which are known. -/
theorem verify_records {l : List α} (h : ∀ r ∈ l, Signs peers message (peerId r) (signature r)) :
    ∃ pks, peers.publicKeys (l.map peerId) = some pks ∧
      (l.map peerId).filterMap peers.getPublicKey = pks ∧ pks.length = l.length ∧
      Crypto.verify P.hashing P.curve (Crypto.aggregateKeys P.curve pks) message
        (Crypto.aggregateSignatures P.curve (l.map signature)) = true := by
  -- the key of a record, whatever it is for one that is not listed
  let key : α → BlsPublicKey P := fun r => (peers.getPublicKey (peerId r)).getD 0
  have hkey : ∀ r ∈ l, peers.getPublicKey (peerId r) = some (key r) ∧
      Crypto.verify P.hashing P.curve (key r) message (signature r) = true := by
    intro r hr
    obtain ⟨pk, hpk, hverify⟩ := h r hr
    have hval : key r = pk := by simp only [key, hpk, getD_some]
    rw [hval]
    exact ⟨hpk, hverify⟩
  refine ⟨l.map key, ?_, ?_, length_map _, Crypto.verify_aggregate fun r hr => (hkey r hr).2⟩
  · clear h
    induction l with
    | nil => rfl
    | cons r l ih =>
      have htail := ih fun r' hr' => hkey r' (mem_cons_of_mem _ hr')
      simp only [PeerSet.publicKeys] at htail ⊢
      simp [(hkey r mem_cons_self).1, htail]
  · rw [filterMap_map, ← filterMap_eq_map]
    exact filterMap_congr fun r hr => (hkey r hr).1

/-- `create_notarization_data` and `create_nullification_data` on checked
records of distinct peers. -/
theorem createCertificateData_accepted {seed : Nat} {records : List α}
    {ids : { ids : List Nat // ids.length = P.mSize }} {σ : BlsSignature P}
    (h : createCertificateData seed peerId signature records = some (ids, σ))
    (hsigned : ∀ r ∈ records, Signs peers message (peerId r) (signature r))
    (hdistinct : (records.map peerId).Nodup) :
    ids.1.Nodup ∧ ((peers.publicKeys ids.1).map fun pks => Crypto.verify P.hashing P.curve
      (Crypto.aggregateKeys P.curve pks) message σ) = some true := by
  unfold createCertificateData at h
  split at h
  · cases h
  obtain ⟨rfl, rfl⟩ := Prod.mk.inj (some.inj h)
  have hperm := P.hashOrder.perm seed α records
  have hfirst : ∀ r ∈ (P.hashOrder.apply seed α records).take P.mSize,
      Signs peers message (peerId r) (signature r) := fun r hr =>
    hsigned r (hperm.mem_iff.mp (mem_of_mem_take hr))
  obtain ⟨pks, hpks, -, -, hverify⟩ := verify_records hfirst
  refine ⟨?_, ?_⟩
  · exact ((hperm.map peerId).nodup_iff.mpr hdistinct).sublist ((take_sublist _ _).map peerId)
  · rw [hpks, map_some, hverify]

end Records

/-! ## One context -/

/-- The certificate is accepted with these signers. -/
structure MNotarization.Accepted (m : MNotarization P) (peers : PeerSet P) : Prop where
  verify : m.verify peers = some true
  distinct : m.peerIds.Nodup
  length : m.peerIds.length = 2 * P.F + 1

structure Nullification.Accepted (n : Nullification P) (peers : PeerSet P) : Prop where
  verify : n.verify peers = some true
  distinct : n.peerIds.Nodup
  length : n.peerIds.length = 2 * P.F + 1

structure LNotarization.Accepted (l : LNotarization P) (peers : PeerSet P) : Prop where
  verify : l.verify peers = true
  distinct : l.peerIds.Nodup
  length : P.N - P.F ≤ l.peerIds.length

namespace ViewContext

variable {peers : PeerSet P} {c : ViewContext P}

/-- Counted and waiting votes carry the signatures of their peers. -/
structure VotesSigned (peers : PeerSet P) (c : ViewContext P) : Prop where
  counted : ∀ v ∈ c.votes, SignedBy peers v
  waiting : ∀ v ∈ c.nonVerifiedVotes, SignedBy peers v

variable {votes : KeySet (Vote.key (P := P))}

variable {hash : Hash P}

/-- Votes of one view for one hash are of distinct peers. -/
theorem distinct_of_hash {view : Nat}
    (hview : ∀ v ∈ votes, v.view = view) (hhash : ∀ v ∈ votes, v.blockHash = hash) :
    (votes.elems.map (·.peerId)).Nodup := by
  refine votes.map_nodup_of_inj _ fun u hu v hv heq => ?_
  simp only [Vote.key, hview u hu, hview v hv, hhash u hu, hhash v hv, heq]

theorem signs_of_hash
    (hsigned : ∀ v ∈ votes, SignedBy peers v) (hhash : ∀ v ∈ votes, v.blockHash = hash) :
    ∀ v ∈ votes.elems, Signs peers (blockMessage hash) v.peerId v.signature := by
  intro v hv
  obtain ⟨pk, hpk, hverify⟩ := hsigned v hv
  exact ⟨pk, hpk, hhash v hv ▸ hverify⟩

/-- **The M-notarization `add_vote` builds** is accepted. -/
theorem addVote_accepted (hsize : P.mSize = 2 * P.F + 1) (hwf : c.WF peers)
    (hsigned : c.VotesSigned peers) (hnull : c.hasNullified = false) {vote : Vote P}
    {m : MNotarization P} (hnone : c.mNotarization = none)
    (hm : (addVote vote peers c).2.mNotarization = some m) : m.Accepted peers := by
  revert hm
  refine (ends_iff_state (X := fun c' => mNotarization c' = some m → m.Accepted peers)).mp ?_
  have hold : ∀ {p : Prop}, c.mNotarization = some m → p := fun h => nomatch hnone.symm.trans h
  refine addVote_rule hold (fun _ _ _ => hold) fun hchecked r c' hadded hm => ?_
  cases hadded with
  | wait | reject | count => exact hold hm
  | @notarize ids σ hh _ _ _ _ hdata =>
    -- while the view is not nullified all votes are for its hash
    have hcases : ∀ v ∈ c.votes.insert vote, v = vote ∨ v ∈ c.votes :=
      fun v => KeySet.mem_insert_imp
    have hhash : ∀ v ∈ c.votes.insert vote, v.blockHash = vote.blockHash := by
      intro v hv
      rcases hcases v hv with rfl | hv
      · rfl
      · exact some.inj ((hwf.votes_hash hnull v hv).symm.trans hh)
    have hviews : ∀ v ∈ c.votes.insert vote, v.view = c.viewNumber := by
      intro v hv
      rcases hcases v hv with rfl | hv
      · exact hchecked.view
      · exact hwf.votes_view v hv
    have hall : ∀ v ∈ c.votes.insert vote, SignedBy peers v := by
      intro v hv
      rcases hcases v hv with rfl | hv
      · exact hchecked.signature
      · exact hsigned.counted v hv
    obtain ⟨hdistinct, hverify⟩ := createCertificateData_accepted hdata
      (signs_of_hash hall hhash) (distinct_of_hash hviews hhash)
    obtain rfl := some.inj hm
    exact ⟨hverify, hdistinct, ids.2.trans hsize⟩

/-- Nullify messages of one view are of distinct peers. -/
theorem distinct_nullifies {messages : KeySet (Nullify.key (P := P))} {view : Nat}
    (hview : ∀ n ∈ messages, n.view = view) : (messages.elems.map (·.peerId)).Nodup := by
  refine messages.map_nodup_of_inj _ fun u hu v hv heq => ?_
  simp only [Nullify.key, hview u hu, hview v hv, heq]

/-- **The nullification `add_nullify` builds** when it returns with more than
`2F` messages is accepted. -/
theorem addNullify_accepted (hsize : P.mSize = 2 * P.F + 1) (hwf : c.WF peers)
    {nullify : Nullify P} {c' : ViewContext P} (hok : addNullify nullify peers c = (.ok (), c'))
    (hquorum : 2 * P.F < c'.nullifyMessages.len) {n : Nullification P}
    (hn : c'.nullification = some n) : n.Accepted peers := by
  have hends : EndsBy (addNullify nullify peers c) (fun _ c' => 2 * P.F < c'.nullifyMessages.len →
      c'.nullification = some n → n.Accepted peers) (fun _ => True) fun _ _ => True := by
    refine addNullify_rule trivial (fun _ _ => trivial) fun haccepts c' hadded hquorum hn => ?_
    cases hadded with
    | count hfew => exact absurd hquorum hfew
    | @certify ids σ _ hdata =>
      have hall : ∀ x ∈ c.nullifyMessages.insert nullify, x.view = c.viewNumber ∧
          x.leaderId = c.leaderId ∧
          ∃ pk, peers.getPublicKey x.peerId = some pk ∧ x.verify pk = true := by
        intro x hx
        rcases KeySet.mem_insert_imp hx with rfl | hx
        · exact ⟨haccepts.view, haccepts.leader, haccepts.signature⟩
        · exact hwf.nullify x hx
      have hsigns : ∀ x ∈ (c.nullifyMessages.insert nullify).elems,
          Signs peers (nullifyMessage P c.viewNumber c.leaderId) x.peerId x.signature := by
        intro x hx
        obtain ⟨hxview, hxleader, pk, hpk, hverify⟩ := hall x hx
        refine ⟨pk, hpk, ?_⟩
        rwa [Nullify.verify, hxview, hxleader] at hverify
      obtain ⟨hdistinct, hverify⟩ := createCertificateData_accepted hdata hsigns
        (distinct_nullifies fun x hx => (hall x hx).1)
      obtain rfl := some.inj hn
      exact ⟨hverify, hdistinct, ids.2.trans hsize⟩
  rw [hok] at hends
  exact hends hquorum hn

/-- **The L-notarization of a view** whose votes are all for one hash is
accepted. -/
theorem createLNotarization_accepted (hwf : c.WF peers) (hsigned : c.VotesSigned peers)
    (hhash : ∀ v ∈ c.votes, v.blockHash = hash)
    (hquorum : P.N - P.F ≤ c.votes.len) (height : Nat) :
    (createLNotarization c hash height).Accepted peers := by
  have hperm := P.hashOrder.perm c.replicaId _ c.votes.elems
  have hsigns : ∀ v ∈ P.hashOrder.apply c.replicaId _ c.votes.elems,
      Signs peers (blockMessage hash) v.peerId v.signature := fun v hv =>
    signs_of_hash hsigned.counted hhash v (hperm.mem_iff.mp hv)
  have hlength : P.N - P.F ≤ (P.hashOrder.apply c.replicaId _ c.votes.elems).length :=
    hperm.length_eq ▸ hquorum
  obtain ⟨pks, -, hfilter, hpks, hverify⟩ := verify_records hsigns
  refine ⟨?_, ?_, ?_⟩
  · unfold LNotarization.verify
    simp only [createLNotarization, hfilter, hpks, Nat.not_lt.mpr hlength, ↓reduceIte]
    exact hverify
  · exact (hperm.map _).nodup_iff.mpr (distinct_of_hash hwf.votes_view hhash)
  · exact (length_map _).symm ▸ hlength

/-! ## Signatures of counted votes -/

/-- The own vote carries the signature of this replica. -/
def OwnSigned (peers : PeerSet P) (c : ViewContext P) : Call P → Prop
  | .addOwnVote h signature => SignedBy peers (c.tally.ownVote h signature)
  | _ => True

/-- Waiting votes passed the checks of `add_vote`. -/
theorem Effect.waiting_signed {t t' : Tally P} {call : Call P} (h : Effect peers t call t')
    (hwaiting : ∀ v ∈ t.waiting, SignedBy peers v) : ∀ v ∈ t'.waiting, SignedBy peers v := by
  cases h with
  | @wait v hv =>
    intro u hu
    rcases KeySet.mem_insert_imp hu with rfl | hu
    · exact hv.signature
    · exact hwaiting u hu
  | block | own | adopt | hashOnly => exact fun v hv => absurd hv (KeySet.not_mem_empty v)
  | _ => exact hwaiting

theorem signedRule (peers : PeerSet P) :
    CallRule peers (OwnSigned peers) fun _ c => c.VotesSigned peers where
  new _ _ _ := ⟨fun v hv => absurd hv (KeySet.not_mem_empty v),
    fun v hv => absurd hv (KeySet.not_mem_empty v)⟩
  internal {c call} h := by
    cases call with
    | addOwnVote => exact h.elim
    | _ => trivial
  waiting _ _ := fun _ _ => ⟨trivial, trivial⟩
  keeps {v c} call _ hok h := by
    have heffect : Effect peers c.tally call (call.run peers c).tally := run_effect call c
    refine ⟨heffect.signed h.counted h.waiting ?_, heffect.waiting_signed h.waiting⟩
    rintro h signature rfl
    exact hok

end ViewContext

/-! ## The tables -/

namespace ViewChain

/-- The block is finalized in the store, or the finalization of `view` files
it. -/
def Files (s : ViewChain P) (view : Nat) (hash : Hash P) (b : Block P) : Prop :=
  s.persistenceWriter.store.getFinalizedBlock hash = some b ∨
    ∃ v c, s.findViewContext v = some c ∧ v ≤ view ∧ s.OnChain view v ∧ c.block = some b ∧
      b.getHash = hash

/-- What the finalization of `view` needs for its certificates. -/
structure Certifies (s : ViewChain P) (view : Nat) : Prop where
  /-- A nullified view on the chain with enough votes has them for one hash. -/
  votes : ∀ v c, s.findViewContext v = some c → v ≤ view → s.OnChain view v →
    P.N - P.F ≤ c.votes.len → c.hasNullified = true → ∀ u ∈ c.votes, c.blockHash = some u.blockHash
  /-- The blocks that are finalized then have different heights. -/
  heights : ∀ h h' b b', s.Files view h b → s.Files view h' b' → (b.height = b'.height ↔ h = h')

end ViewChain

/-- Every L-notarization of the tables is accepted and names the one
finalized block of its height. -/
structure BlockTables.Certified (peers : PeerSet P) (t : BlockTables P) : Prop where
  keyed : ∀ h b, t.finalized.lookup h = some b → b.getHash = h
  heights : ∀ h h' b b', t.finalized.lookup h = some b → t.finalized.lookup h' = some b' →
    b.height = b'.height → h = h'
  accepted : ∀ h l, t.lNotarizations.lookup h = some l → l.Accepted peers
  named : ∀ h l, t.lNotarizations.lookup h = some l → l.blockHash = h ∧
    ∃ b, t.finalized.lookup h = some b ∧ b.height = l.height

namespace ViewChain

variable {s : ViewChain P} {view : Nat} {t : BlockTables P} {peers : PeerSet P}

/-- The finalized blocks are those the call files and those it found. -/
def FiledBy (s : ViewChain P) (view : Nat) (t : BlockTables P) : Prop :=
  ∀ h b, t.finalized.lookup h = some b → ∃ b₀, s.Files view h b₀ ∧ b₀.height = b.height

/-- A block of the chain is filed. -/
theorem Certifies.putFinalized (hs : s.Certifies view) (ht : t.Certified peers)
    (hfiled : s.FiledBy view t) {b₀ : Block P} (hb₀ : s.Files view b₀.getHash b₀) :
    (t.putFinalized b₀).Certified peers ∧ s.FiledBy view (t.putFinalized b₀) := by
  -- a block with the hash or the height of the new one has both
  have hsame : ∀ {h b}, t.finalized.lookup h = some b →
      (b.height = b₀.height ↔ h = b₀.getHash) := by
    intro h b hb
    obtain ⟨b₁, hb₁, heq⟩ := hfiled h b hb
    rw [← heq]
    exact hs.heights h b₀.getHash b₁ b₀ hb₁ hb₀
  refine ⟨{ keyed := ?_, heights := ?_, accepted := ht.accepted, named := ?_ }, ?_⟩
  · intro h b hb
    rcases lookup_putFinalized hb with ⟨rfl, rfl⟩ | hold
    · rfl
    · exact ht.keyed h b hold
  · intro h h' b b' hb hb' heq
    rcases lookup_putFinalized hb with ⟨rfl, rfl⟩ | hold
    · rcases lookup_putFinalized hb' with ⟨rfl, rfl⟩ | hold'
      · rfl
      · exact ((hsame hold').mp heq.symm).symm
    · rcases lookup_putFinalized hb' with ⟨rfl, rfl⟩ | hold'
      · exact (hsame hold).mp heq
      · exact ht.heights h h' b b' hold hold' heq
  · intro h l hl
    obtain ⟨hhash, b, hb, hheight⟩ := ht.named h l hl
    refine ⟨hhash, ?_⟩
    by_cases hh : h = b₀.getHash
    · subst hh
      exact ⟨b₀.finalized, AList.lookup_insert _, ((hsame hb).mpr rfl).symm.trans hheight⟩
    · exact ⟨b, (AList.lookup_insert_ne hh).trans hb, hheight⟩
  · intro h b hb
    rcases lookup_putFinalized hb with ⟨rfl, rfl⟩ | hold
    · exact ⟨b₀, hb₀, rfl⟩
    · exact hfiled h b hold

/-- The certificate of a block that was just filed. -/
theorem certified_putLNotarization {b₀ : Block P} (ht : (t.putFinalized b₀).Certified peers)
    {l : LNotarization P} (hl : l.Accepted peers) (hhash : l.blockHash = b₀.getHash)
    (hheight : l.height = b₀.height) :
    ((t.putFinalized b₀).putLNotarization l).Certified peers := by
  have hcases : ∀ {h l'}, ((t.putFinalized b₀).putLNotarization l).lNotarizations.lookup h =
      some l' → (h = l.blockHash ∧ l' = l) ∨ t.lNotarizations.lookup h = some l' := by
    intro h l' hl'
    by_cases hh : h = l.blockHash
    · subst hh
      exact .inl ⟨rfl, some.inj (hl'.symm.trans (AList.lookup_insert _))⟩
    · exact .inr ((AList.lookup_insert_ne hh).symm.trans hl')
  refine { ht with accepted := fun h l' hl' => ?_, named := fun h l' hl' => ?_ }
  · rcases hcases hl' with ⟨-, rfl⟩ | hold
    · exact hl
    · exact ht.accepted h l' hold
  · rcases hcases hl' with ⟨rfl, rfl⟩ | hold
    · rw [hhash]
      exact ⟨rfl, b₀.finalized, AList.lookup_insert _, hheight.symm⟩
    · exact ht.named h l' hold

/-- **The writes of a finalization** that meets the condition. -/
theorem certified_filing {owner : Nat} (hwf : s.WF peers owner)
    (hsigned : s.All fun _ c => c.VotesSigned peers) (hs : s.Certifies view) :
    s.FilesBy (fun t => t.Certified peers ∧ s.FiledBy view t) view := by
  intro v c hc hv
  have hput : ∀ {t b}, s.OnChain view v → c.block = some b →
      t.Certified peers ∧ s.FiledBy view t →
      (t.putFinalized b).Certified peers ∧ s.FiledBy view (t.putFinalized b) :=
    fun hon hb ht => hs.putFinalized ht.1 ht.2 (.inr ⟨v, c, hc, hv, hon, hb, rfl⟩)
  refine ⟨hput, fun {t b h} hcert hb hh ht => ?_, fun _ _ ht => ⟨{ ht.1 with }, ht.2⟩⟩
  have hcontext := hwf.context v c hc
  have hhash : h = b.getHash := some.inj (hh.symm.trans (hcontext.block_hash b hb))
  have hvotes : ∀ u ∈ c.votes, u.blockHash = h := by
    intro u hu
    cases hnull : c.hasNullified with
    | false => exact some.inj ((hcontext.votes_hash hnull u hu).symm.trans hh)
    | true =>
      exact some.inj ((hs.votes v c hc hv hcert.1 hcert.2 hnull u hu).symm.trans hh)
  have hfiled := hput hcert.1 hb ht
  exact ⟨certified_putLNotarization hfiled.1
    (createLNotarization_accepted hcontext (hsigned v c hc) hvotes hcert.2 b.height) hhash rfl,
    hfiled.2⟩

end ViewChain

/-! ## Runs -/

namespace Replica

variable {cfg : Config P} {s : Replica P} {running : Bool}

/-- The certificates this replica made, up to this state. -/
structure CertificatesAccepted (cfg : Config P) (s : Replica P) : Prop where
  /-- A vote completes an M-notarization. -/
  mNotarizations : ∀ vote chain, .processed (.vote vote) chain ∈ s.history → ∀ c,
    chain.findViewContext vote.view = some c → c.isNullified = false → c.mNotarization = none →
    ∀ m, (addVote vote cfg.peers c).2.mNotarization = some m → m.Accepted cfg.peers
  /-- A nullify message completes a nullification. -/
  nullifications : ∀ nullify chain, .processed (.nullify nullify) chain ∈ s.history → ∀ c c',
    chain.findViewContext nullify.view = some c → addNullify nullify cfg.peers c = (.ok (), c') →
    2 * P.F < c'.nullifyMessages.len →
    ∀ n, c'.nullification = some n → n.Accepted cfg.peers
  lNotarizations : ∀ hash l, s.chain.persistenceWriter.store.lNotarizations.lookup hash = some l →
    l.Accepted cfg.peers ∧
      ∃ b, s.chain.persistenceWriter.store.getFinalizedBlockByHeight l.height = some b ∧
        b.getHash = l.blockHash

/-- Every finalization that passed its checks met the condition. -/
def Certifies (s : Replica P) : Prop :=
  ∀ e ∈ s.viewManager.finalizations, ∀ parentHash, e.2.finalizeCheck e.1 = .proceed parentHash →
    e.2.Certifies e.1

/-- The replica signs with the key its peers know. -/
theorem ownVotes_signed
    (hkey : cfg.peers.getPublicKey cfg.replicaId = some (Crypto.publicKey P.curve cfg.secretKey)) :
    OwnVotesMeet cfg (OwnSigned cfg.peers) := by
  intro c h _ hid
  refine ⟨_, ?_, Crypto.verify_sign cfg.secretKey (blockMessage h)⟩
  show cfg.peers.getPublicKey c.replicaId = _
  rw [hid, hkey]

/-- No message carries an own vote. -/
theorem finds_ownSigned (peers : PeerSet P) (e : Moment P) : e.Finds (OwnSigned peers) := by
  cases e with
  | voted => trivial
  | processed m chain =>
    cases m with
    | blockProposal b => exact fun _ _ => ⟨trivial, trivial⟩
    | vote => exact fun _ _ => trivial
    | nullify => exact fun _ _ => trivial
    | mNotarization => exact fun _ _ => trivial
    | nullification => exact fun _ _ => trivial
    | blockRecoveryRequest => trivial
    | blockRecoveryResponse => exact fun _ _ _ _ => trivial

theorem start_certified (cfg : Config P) :
    (Replica.start cfg).chain.blockTables.Certified cfg.peers := by
  have hone : ∀ h b, (Replica.start cfg).chain.blockTables.finalized.lookup h = some b →
      h = Block.genesisHash P ∧ b.getHash = h := by
    refine restart_filed (q := fun t => ∀ h b, t.finalized.lookup h = some b →
      h = Block.genesisHash P ∧ b.getHash = h) cfg cfg.replicaId (fun t ht h b hb => ?_)
      (fun h b hb => nomatch hb)
    rcases lookup_putFinalized hb with ⟨rfl, rfl⟩ | hold
    · exact ⟨rfl, rfl⟩
    · exact ht h b hold
  have hnone : ∀ h l, (Replica.start cfg).chain.blockTables.lNotarizations.lookup h ≠ some l :=
    restart_filed (q := fun t => ∀ h l, t.lNotarizations.lookup h ≠ some l) cfg cfg.replicaId
      (fun _ ht => ht) (fun h l hl => nomatch hl)
  exact
    { keyed := fun h b hb => (hone h b hb).2
      heights := fun h h' b b' hb hb' _ => (hone h b hb).1.trans (hone h' b' hb').1.symm
      accepted := fun h l hl => absurd hl (hnone h l)
      named := fun h l hl => absurd hl (hnone h l) }

/-- **Every certificate is accepted** in every run in which the finalizations
meet the condition. -/
theorem certificates_accepted (hsize : P.mSize = 2 * P.F + 1)
    (hkey : cfg.peers.getPublicKey cfg.replicaId = some (Crypto.publicKey P.curve cfg.secretKey))
    (h : Run cfg (fun _ _ => True) s running) (hcertifies : s.Certifies) :
    s.CertificatesAccepted cfg := by
  have hkept : Upholds cfg (fun _ c => c.VotesSigned cfg.peers) s :=
    h.upholds (signedRule cfg.peers) (ownVotes_signed hkey) fun e _ => finds_ownSigned cfg.peers e
  obtain ⟨hsteps, -⟩ := Run.steps (A := .any cfg) (fun _ _ _ => trivial) h
  have htables : s.chain.blockTables.Certified cfg.peers := by
    refine Steps.filed (q := fun t => t.Certified cfg.peers)
      (C := fun view chain => (∀ parentHash, chain.finalizeCheck view = .proceed parentHash →
        chain.Certifies view) ∧ chain.All fun _ c => c.VotesSigned cfg.peers)
      (fun hwf hC ht => ?_) hsteps start_wf (start_certified cfg)
      fun e he => ⟨hcertifies e he, hkept.manager.logged e he⟩
    have hboth := ViewChain.finalize_filing cfg.peers (fun parentHash hcheck =>
      ViewChain.certified_filing hwf hC.2 (hC.1 parentHash hcheck))
      ⟨ht, fun h b hb => ⟨b, Or.inl hb, rfl⟩⟩
    exact hboth.1
  constructor
  case mNotarizations =>
    intro vote chain hmem c hc hnull hnone m hm
    obtain ⟨hwf, hsigned⟩ := hkept.processed _ chain hmem
    exact addVote_accepted hsize (hwf.context _ c hc) (hsigned _ c hc)
      (Bool.or_eq_false_iff.mp hnull).2 hnone hm
  case nullifications =>
    intro nullify chain hmem c c' hc hok hquorum n hn
    obtain ⟨hwf, -⟩ := hkept.processed _ chain hmem
    exact addNullify_accepted hsize (hwf.context _ c hc) hok hquorum hn
  case lNotarizations =>
    intro hash l hl
    obtain ⟨rfl, b, hb, hheight⟩ := htables.named hash l hl
    refine ⟨htables.accepted _ l hl, b, ?_, htables.keyed _ b hb⟩
    rw [← hheight]
    exact Store.getFinalizedBlockByHeight_eq htables.heights hb

/-- Only genesis is finalized, no held view is nullified, and the held blocks
are all the first one. -/
def firstFinalization (chain : ViewChain sampleParams) : Bool :=
  chain.persistenceWriter.store.finalizedBlocks.entries.all (fun e =>
    decide (e.1 = Block.genesisHash sampleParams ∧ e.2.height = 0)) &&
  chain.iter.all (fun e => !e.2.hasNullified && e.2.block.all fun b =>
    decide (b.getHash = firstBlock.getHash ∧ b.height = 1))

theorem certifies_of_firstFinalization {chain : ViewChain sampleParams}
    (h : firstFinalization chain = true) (view : Nat) : chain.Certifies view := by
  obtain ⟨hstored, hheld⟩ := Bool.and_eq_true_iff.mp h
  have hcontext : ∀ v c, chain.findViewContext v = some c → c.hasNullified = false ∧
      ∀ b, c.block = some b → b.getHash = firstBlock.getHash ∧ b.height = 1 := by
    intro v c hc
    obtain ⟨hnull, hblock⟩ := Bool.and_eq_true_iff.mp
      (all_eq_true.mp hheld (v, c) (mem_iter.mpr hc))
    refine ⟨by simpa using hnull, fun b hb => ?_⟩
    rw [hb] at hblock
    exact of_decide_eq_true hblock
  have hfiles : ∀ h b, chain.Files view h b →
      (h = Block.genesisHash sampleParams ∧ b.height = 0) ∨
        (h = firstBlock.getHash ∧ b.height = 1) := by
    rintro h b (hb | ⟨v, c, hc, -, -, hb, rfl⟩)
    · exact .inl (of_decide_eq_true (all_eq_true.mp hstored ⟨h, b⟩
        (AList.mem_lookup_iff.mp (mem_def.mpr hb))))
    · exact .inr ((hcontext v c hc).2 b hb)
  have hne : Block.genesisHash sampleParams ≠ firstBlock.getHash := by decide +kernel
  refine ⟨fun v c hc _ _ _ hnull => ?_, fun h h' b b' hb hb' => ?_⟩
  · exact nomatch hnull.symm.trans (hcontext v c hc).1
  · rcases hfiles h b hb with ⟨rfl, hk⟩ | ⟨rfl, hk⟩ <;>
      rcases hfiles h' b' hb' with ⟨rfl, hk'⟩ | ⟨rfl, hk'⟩ <;> simp [hk, hk', hne, hne.symm]

/-- Replica 0 finalizes the first block, with the votes of five replicas. -/
theorem certificates_accepted_first :
    let s := (runAll (sampleConfig 0 (quietEnv _)) 10 finalizingInputs).1
    (s.chain.persistenceWriter.store.lNotarizations.lookup firstBlock.getHash).isSome = true ∧
      s.CertificatesAccepted (sampleConfig 0 (quietEnv _)) := by
  refine ⟨by decide +kernel, certificates_accepted rfl rfl
    (run_runAll _ 10 finalizingInputs fun _ _ => trivial) fun e he _ _ => ?_⟩
  have hall : ((runAll (sampleConfig 0 (quietEnv _)) 10
      finalizingInputs).1.viewManager.finalizations.all fun e => firstFinalization e.2) = true := by
    decide +kernel
  exact certifies_of_firstFinalization (List.all_eq_true.mp hall e he) e.1

/-- Four replicas, the leader among them, vote for the first block of view 1
and one for another block, and two of them nullify the view. The certificate
of the first block is dropped with these votes counted; the other block comes,
is certified, and the second view is finalized on top of it. -/
def mixedMessages : List (ConsensusMessage sampleParams) :=
  [.vote (voteOf 1 1 firstBlock.getHash), .vote (voteOf 2 1 firstBlock.getHash),
    .vote (voteOf 3 1 firstBlock.getHash), .vote (voteOf 4 1 firstBlock.getHash),
    .vote (voteOf 5 1 rivalBlock.getHash), .nullify (nullifyOf 4 1), .nullify (nullifyOf 5 1),
    .mNotarization (certificateOf 1 firstBlock.getHash), .blockProposal rivalBlock,
    .mNotarization (certificateOf 1 rivalBlock.getHash)] ++
  let child := emptyBlock 2 rivalBlock.getHash 0
  [.blockProposal child, .vote (voteOf 1 2 child.getHash), .vote (voteOf 3 2 child.getHash),
    .vote (voteOf 4 2 child.getHash)]

/-- **Certificates nobody accepts.** The leader of view 2 repeats the height
of the first block, and the L-notarization of the first block names another
block than the one the store finds at its height. And a view that counts votes
for two blocks gets an L-notarization that lists one peer twice and does not
verify. -/
theorem certificates_rejected :
    (∃ s : Replica sampleParams, Run (sampleConfig 0 (quietEnv _)) (fun _ m => m.WellTyped) s true ∧
      ∃ l, s.chain.persistenceWriter.store.lNotarizations.lookup firstBlock.getHash = some l ∧
        ∀ b, s.chain.persistenceWriter.store.getFinalizedBlockByHeight l.height = some b →
          b.getHash ≠ l.blockHash) ∧
    (∃ s : Replica sampleParams, Run (sampleConfig 0 (quietEnv _)) (fun _ m => m.WellTyped) s true ∧
      ∃ l, s.chain.persistenceWriter.store.lNotarizations.lookup rivalBlock.getHash = some l ∧
        ¬ l.peerIds.Nodup ∧ l.verify samplePeers = false) := by
  have hrun : ∀ inputs, (∀ m ∈ messages inputs, m.WellTyped) →
      (runAll (sampleConfig 0 (quietEnv _)) 10 inputs).2 = true →
      Run (sampleConfig 0 (quietEnv _)) (fun _ m => m.WellTyped)
        (runAll (sampleConfig 0 (quietEnv _)) 10 inputs).1 true := by
    intro inputs htyped hrunning
    rw [← hrunning]
    exact run_runAll _ 10 _ htyped
  constructor
  · have hother : ((runAll (sampleConfig 0 (quietEnv _)) 10
        repeatedHeightInputs).1.chain.persistenceWriter.store.lNotarizations.lookup
          firstBlock.getHash).any (fun l => ((runAll (sampleConfig 0 (quietEnv _)) 10
            repeatedHeightInputs).1.chain.persistenceWriter.store.getFinalizedBlockByHeight
              l.height).all fun b => decide (b.getHash ≠ l.blockHash)) = true := by
      decide +kernel
    obtain ⟨l, hl, hnames⟩ := (Option.any_eq_true _ _).mp hother
    refine ⟨_, hrun repeatedHeightInputs (by decide +kernel) (by decide +kernel), l, hl,
      fun b hb => ?_⟩
    rw [hb] at hnames
    exact of_decide_eq_true hnames
  · have hrefused : ((runAll (sampleConfig 0 (quietEnv _)) 10
        (mixedMessages.map .message)).1.chain.persistenceWriter.store.lNotarizations.lookup
          rivalBlock.getHash).any (fun l =>
            !decide l.peerIds.Nodup && !l.verify samplePeers) = true := by
      decide +kernel
    obtain ⟨l, hl, hcheck⟩ := (Option.any_eq_true _ _).mp hrefused
    obtain ⟨hnodup, hverify⟩ := Bool.and_eq_true_iff.mp hcheck
    exact ⟨_, hrun (mixedMessages.map .message) (by decide +kernel) (by decide +kernel), l, hl,
      by simpa using hnodup, by simpa using hverify⟩

end Replica

end Minimmit
