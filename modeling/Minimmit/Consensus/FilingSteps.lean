/-
Minimmit.Consensus.FilingSteps — what a replica writes to its block tables,
over all of its processes.

The three tables of blocks and the two tables of L-notarizations are written
in three places: finalization files the block of every view it takes out of
the map, an orderly shutdown files the blocks that are still held, and a new
process files genesis. `FilingRule` says what each write of finalization has
to keep, `finalize_filing` follows it through every outcome of the call, also
when it stops half way, `restart_filed` and `leftStore_filed` are the other
two places, and a `Lifetime` strings the processes of one replica together
(`Lifetime.invariant`).
-/
import Minimmit.Consensus.CollectionSteps
import Minimmit.Consensus.Restart

namespace Minimmit

open Minimmit.Library Act Relation ViewChain List

variable {P : Params}

/-! ## The tables -/

variable (P) in
/-- The tables of blocks and of L-notarizations. -/
structure BlockTables where
  finalized : AList (fun _ : Hash P => Block P)
  nullified : AList (fun _ : Hash P => Block P)
  nonFinalized : AList (fun _ : Hash P => Block P)
  lNotarizations : AList (fun _ : Hash P => LNotarization P)
  lNotarizationsByHeight : AList (fun _ : Nat => Hash P)

/-- The block tables of a store. -/
def Store.blockTables (s : Store P) : BlockTables P :=
  { finalized := s.finalizedBlocks, nullified := s.nullifiedBlocks
    nonFinalized := s.nonFinalizedBlocks, lNotarizations := s.lNotarizations
    lNotarizationsByHeight := s.lNotarizationsByHeight }

/-- The block tables of a chain. -/
def ViewChain.blockTables (s : ViewChain P) : BlockTables P :=
  s.persistenceWriter.store.blockTables

namespace BlockTables

def putFinalized (t : BlockTables P) (b : Block P) : BlockTables P :=
  { t with finalized := t.finalized.insert b.getHash b.finalized }

def putNullified (t : BlockTables P) (b : Block P) : BlockTables P :=
  { t with nullified := t.nullified.insert b.getHash b }

def putNonFinalized (t : BlockTables P) (b : Block P) : BlockTables P :=
  { t with nonFinalized := t.nonFinalized.insert b.getHash b }

def putLNotarization (t : BlockTables P) (l : LNotarization P) : BlockTables P :=
  { t with
    lNotarizations := t.lNotarizations.insert l.blockHash l
    lNotarizationsByHeight := t.lNotarizationsByHeight.insert l.height l.blockHash }

end BlockTables

namespace Store

/-- A loop of writes to other tables. -/
theorem blockTables_foldl {α : Type} (f : Store P → α → Store P)
    (hf : ∀ s a, (f s a).blockTables = s.blockTables) (l : List α) (s : Store P) :
    (l.foldl f s).blockTables = s.blockTables :=
  foldl_related (R := fun s t : Store P => s.blockTables = t.blockTables) (fun _ => rfl) Eq.trans
    hf l s

theorem blockTables_applyDiffToDb (s : Store P) (d : StateDiff P) :
    (applyDiffToDb s d).blockTables = s.blockTables := by
  have hcreated : ∀ (s : Store P) a, (applyCreated s a).blockTables = s.blockTables := by
    intro s a
    unfold applyCreated
    split <;> rfl
  have hupdate : ∀ (s : Store P) e, (applyUpdate s e).blockTables = s.blockTables := by
    intro s e
    unfold applyUpdate
    repeat' split
    all_goals rfl
  exact (blockTables_foldl _ hupdate _ _).trans (blockTables_foldl _ hcreated _ s)

end Store

theorem PendingStateWriter.blockTables_finalizeUpTo (w : PendingStateWriter P) (view : Nat) :
    (w.finalizeUpTo view).store.blockTables = w.store.blockTables :=
  Store.blockTables_foldl _ (fun s (e : Nat × StateDiff P) => s.blockTables_applyDiffToDb e.2)
    (w.diffsUpTo view) w.store

/-! ## Persisting one view -/

/-- `q` holds of the block tables of the writer. -/
abbrev Filed (q : BlockTables P → Prop) (w : PendingStateWriter P) : Prop := q w.store.blockTables

section Persist

variable {q : BlockTables P → Prop}

/-- A write to another table. -/
theorem writeStore_filed {f : Store P → Store P}
    (hf : ∀ s, (f s).blockTables = s.blockTables) : Maintains (Filed q) (writeStore f) :=
  maintains_modify fun w hw => by
    show q (f w.store).blockTables
    rwa [hf]

theorem removeNullifiedView_filed (v : Nat) :
    Maintains (Filed q) (Act.modify (·.removeNullifiedView v) : WriterOp P Unit) :=
  maintains_modify fun w hw => by
    show q (w.removeNullifiedView v).store.blockTables
    rwa [removeNullifiedView_store]

theorem persistSome_filed {α : Type} (x : Option α) {op : α → WriterOp P Unit}
    (hop : ∀ a, x = some a → Maintains (Filed q) (op a)) :
    Maintains (Filed q) (persistSome x op) := by
  cases x with
  | some a => exact hop a rfl
  | none => exact maintains_pure _

theorem persistMetadata_filed (c : ViewContext P) (peers : PeerSet P) (isCurrent nullified : Bool) :
    Maintains (Filed q) (persistMetadata c peers isCurrent nullified) := by
  refine maintains_bind (writeStore_filed fun _ => rfl) fun _ => ?_
  cases peers.getPublicKey c.leaderId with
  | none => exact maintains_panic
  | some leader =>
    exact maintains_bind (writeStore_filed fun _ => rfl) fun _ =>
      writeStore_filed fun s => Store.blockTables_foldl Store.putVote (fun _ _ => rfl) _ s

theorem persistMNotarization_filed (c : ViewContext P) :
    Maintains (Filed q) (persistMNotarization c) := by
  unfold persistMNotarization
  cases c.mNotarization with
  | some m => exact writeStore_filed fun _ => rfl
  | none => exact maintains_throw _

end Persist

/-- What the writes for the context `c` of a view have to keep. The view is on
the chain that is finalized, on it with enough votes for an L-notarization, or
off it. -/
structure FilingRule (q : BlockTables P → Prop) (onChain certified offChain : Prop)
    (c : ViewContext P) : Prop where
  finalized : ∀ {t b}, onChain → c.block = some b → q t → q (t.putFinalized b)
  certified : ∀ {t b h}, certified → c.block = some b → c.blockHash = some h → q t →
    q ((t.putFinalized b).putLNotarization (createLNotarization c h b.height))
  nullified : ∀ {t b}, offChain → c.block = some b → q t → q (t.putNullified b)

namespace FilingRule

variable {q : BlockTables P → Prop} {onChain certified offChain : Prop} {c : ViewContext P}

variable (hr : FilingRule q onChain certified offChain c)

include hr

theorem persistFinalizedBlock (hon : onChain) {b : Block P} (hb : c.block = some b) :
    Maintains (Filed q) (persistFinalizedBlock b) := by
  refine maintains_bind (writeStore_filed fun s =>
    Store.blockTables_foldl Store.putTransaction (fun _ _ => rfl) _ s) fun _ => ?_
  exact maintains_modify fun w hw => hr.finalized hon hb hw

/-- **The L-notarized path.** The certificate is written last, after the
block. -/
theorem persistLNotarizedView (hon : onChain) (hcert : certified) (peers : PeerSet P) :
    Maintains (Filed q) (persistLNotarizedView c peers) := by
  refine maintains_bind (maintains_modify fun w hw => ?_) fun _ => ?_
  · show q (w.finalizeUpTo c.viewNumber).store.blockTables
    rwa [w.blockTables_finalizeUpTo]
  cases hb : c.block with
  | none => exact maintains_throw _
  | some b =>
    cases hh : c.blockHash with
    | none => exact maintains_bind (hr.persistFinalizedBlock hon hb) fun _ => maintains_throw _
    | some h =>
      -- from the first write on the tables are earlier ones with the block
      let q' : BlockTables P → Prop := fun t => ∃ t₀, q t₀ ∧ t = t₀.putFinalized b
      have hq' : ∀ w : PendingStateWriter P, Filed q' w → Filed q w := by
        rintro w ⟨t₀, ht₀, heq⟩
        show q w.store.blockTables
        rw [heq]
        exact hr.finalized hon hb ht₀
      refine maintains_of_spec (spec_bind (Q := fun _ => Filed q') ?_ fun _ => ?_)
      · refine spec_bind (writeStore_filed fun s =>
          Store.blockTables_foldl Store.putTransaction (fun _ _ => rfl) _ s).spec fun _ => ?_
        exact spec_modify fun w hw => ⟨_, hw, rfl⟩
      refine spec_bind ((persistMNotarization_filed c).spec.conseq (fun _ h => h)
        (fun _ _ h => h) hq' hq') fun _ => ?_
      refine spec_bind ((persistMetadata_filed c peers true false).spec.conseq (fun _ h => h)
        (fun _ _ h => h) hq' hq') fun _ => ?_
      refine spec_modify ?_
      rintro w ⟨t₀, ht₀, heq⟩
      show q (w.store.blockTables.putLNotarization _)
      rw [heq]
      exact hr.certified hcert hb hh ht₀

theorem persistMNotarizedView (hon : onChain)
    (peers : PeerSet P) : Maintains (Filed q) (persistMNotarizedView c peers) :=
  maintains_bind (persistSome_filed _ fun _ hb => hr.persistFinalizedBlock hon hb) fun _ =>
    maintains_bind (persistMNotarization_filed c) fun _ => persistMetadata_filed c peers _ _

theorem persistNullifiedViewOrMetadata (hoff : offChain) (peers : PeerSet P) :
    Maintains (Filed q) (persistNullifiedViewOrMetadata c peers) := by
  have hblock : Maintains (Filed q) (persistNullifiedBlock c) :=
    persistSome_filed _ fun _ hb => maintains_modify fun w hw => hr.nullified hoff hb hw
  refine maintains_ite (maintains_ite (maintains_throw _) ?_) ?_
  · refine maintains_bind (removeNullifiedView_filed _) fun _ => ?_
    refine maintains_bind hblock fun _ => ?_
    refine maintains_bind (persistSome_filed _ fun _ _ => writeStore_filed fun _ => rfl) fun _ => ?_
    exact maintains_bind (persistMetadata_filed c peers _ _) fun _ =>
      writeStore_filed fun s => Store.blockTables_foldl Store.putNullify (fun _ _ => rfl) _ s
  · refine maintains_bind (removeNullifiedView_filed _) fun _ => ?_
    refine maintains_bind hblock fun _ => ?_
    refine maintains_bind (persistSome_filed _ fun _ _ => writeStore_filed fun _ => rfl) fun _ => ?_
    exact persistMetadata_filed c peers _ _

end FilingRule

/-! ## Finalization -/

namespace ViewChain

variable {q : BlockTables P → Prop} {s : ViewChain P} {R : ViewContext P → ViewContext P → Prop}

/-- What the writes of a finalization of `view` have to keep: the views are
sorted by the parent chain of `view` as it is before the call. -/
def FilesBy (q : BlockTables P → Prop) (s : ViewChain P) (view : Nat) : Prop :=
  ∀ v c, s.findViewContext v = some c → v ≤ view →
    FilingRule q (s.OnChain view v) (s.OnChain view v ∧ P.N - P.F ≤ c.votes.len)
      (¬ s.OnChain view v) c

theorem persist_filed {op : WriterOp P Unit} (h : Maintains (Filed q) op) :
    Maintains (fun s : ViewChain P => q s.blockTables) (persist op) :=
  maintains_zoom h (fun _ hs => hs) fun _ _ _ hw => hw

section Persist

variable {view : Nat} {canonical : List Nat} {peers : PeerSet P}

theorem persistView_filed {v : Nat} {c : ViewContext P}
    (hself : v = view → v ∈ canonical ∧ P.N - P.F ≤ c.votes.len)
    (hr : FilingRule q (v ∈ canonical) (v ∈ canonical ∧ P.N - P.F ≤ c.votes.len)
      (v ∉ canonical) c) :
    Maintains (fun s : ViewChain P => q s.blockTables) (persistView view canonical peers v c) := by
  intro s hs
  unfold persistView
  split
  case isTrue heq =>
    obtain ⟨hmem, hvotes⟩ := hself heq
    split
    · exact hs
    · exact persist_filed (hr.persistLNotarizedView hmem ⟨hmem, hvotes⟩ peers) _ hs
  case isFalse hne =>
    split
    case isTrue hmem =>
      dsimp only
      split
      case isTrue hvotes =>
        refine persist_filed (hr.persistLNotarizedView hmem ⟨hmem, hvotes.1⟩ peers) _ ?_
        split <;> exact hs
      case isFalse =>
        refine persist_filed (hr.persistMNotarizedView hmem peers) _ ?_
        split <;> exact hs
    case isFalse hmem =>
      exact persist_filed (hr.persistNullifiedViewOrMetadata hmem peers) _ hs

end Persist

/-- **Finalization** keeps what each of its writes keeps, in every outcome. -/
theorem finalize_filing {view : Nat} (peers : PeerSet P)
    (hr : ∀ parentHash, s.finalizeCheck view = .proceed parentHash → s.FilesBy q view)
    (hq : q s.blockTables) : q (finalizeWithLNotarization view peers s).2.blockTables := by
  refine finalize_maintains (X := fun s' => q s'.blockTables) (fun _ => hq) ?_
  intro _ canonical hcheck hcanonical s' v d hprunes hv hd hs'
  obtain ⟨-, c, b, hc, hb, rfl⟩ := finalizeCheck_proceed hcheck
  have hmem : ∀ {w}, w ∈ canonical ↔ s.OnChain view w := mem_canonicalViews hc hb hcanonical
  have hd₀ := hprunes.find v d hd
  refine persistView_filed (fun heq => ?_) ?_ (s'.removeView v) hs'
  · subst heq
    exact ⟨hmem.mpr (.self s v), (finalizeCheck_quorum (by rw [hcheck]; nofun) hd₀).1⟩
  · rw [hmem]
    exact hr _ hcheck v d hd₀ hv

theorem ChainStep.blockTables {s' : ViewChain P} (h : ChainStep R s s') :
    s'.blockTables = s.blockTables := by
  cases h with
  | context => rfl
  | publish =>
    rw [ViewChain.blockTables, publishDiff, onWriter, addMNotarizedDiff_store]
    rfl
  | drop =>
    rw [ViewChain.blockTables, removePendingDiff, onWriter, removeNullifiedView_store]
    rfl

theorem Steps.blockTables {s' : ViewChain P} (h : Steps R s s') :
    s'.blockTables = s.blockTables := by
  induction h with
  | refl => rfl
  | tail _ hstep ih => exact hstep.blockTables.trans ih

end ViewChain

/-! ## The life of a replica -/

namespace Replica

variable {cfg : Config P} {A : Admission cfg} {q : BlockTables P → Prop}

/-- Only a finalization writes to the block tables while a process runs. -/
theorem Step.blockTables {s s' : Replica P} (h : Step A s s') :
    (s'.chain.blockTables = s.chain.blockTables ∧
      s'.viewManager.finalizations = s.viewManager.finalizations) ∨
      ∃ view, s' = s.finalized view := by
  cases h with
  | hashOnly => exact .inl ⟨rfl, rfl⟩
  | clean h =>
    cases h with
    | chain h => exact .inl ⟨h.blockTables, rfl⟩
    | @finalize view => exact .inr ⟨view, rfl⟩
    | propose _ hsteps => exact .inl ⟨Steps.blockTables hsteps, rfl⟩
    | _ => exact .inl ⟨rfl, rfl⟩

/-- What every finalization that meets `C` keeps of the tables holds in every
state whose log meets `C`. -/
theorem Steps.filed {C : Nat → ViewChain P → Prop}
    (hfinal : ∀ {chain : ViewChain P} {view : Nat}, chain.WF cfg.peers cfg.replicaId →
      C view chain → q chain.blockTables →
      q (finalizeWithLNotarization view cfg.peers chain).2.blockTables)
    {s₀ s : Replica P} (h : Steps (A := A) s₀ s) (hwf : s₀.WF A) (hstart : q s₀.chain.blockTables)
    (hlog : ∀ e ∈ s.viewManager.finalizations, C e.1 e.2) : q s.chain.blockTables := by
  refine Steps.invariant (I := fun s => (∀ e ∈ s.viewManager.finalizations, C e.1 e.2) →
    q s.chain.blockTables) (fun s s' hwf hstep hs hlog => ?_) h hwf (fun _ => hstart) hlog
  rcases hstep.blockTables with ⟨heq, hsame⟩ | ⟨view, rfl⟩
  · rw [heq]
    exact hs (hsame ▸ hlog)
  · have hlast : C view s.chain := hlog (view, s.chain) (mem_append_right _ mem_cons_self)
    have hbefore := hs fun e he => hlog e (mem_append_left _ he)
    show q (finalizeWithLNotarization view s.viewManager.peers s.chain).2.blockTables
    rw [hwf.peers]
    exact hfinal hwf.chain hlast hbefore

/-- A new process files genesis. -/
theorem restart_filed (cfg : Config P) {store : Store P} (seed : Nat)
    (hgenesis : ∀ t, q t → q (t.putFinalized (Block.genesis (cfg.peers.leaderForView 0) 0)))
    (hq : q store.blockTables) : q (restart cfg store seed).chain.blockTables := by
  have htables : (restart cfg store seed).chain.blockTables =
      store.blockTables.putFinalized (Block.genesis (cfg.peers.leaderForView 0) 0) :=
    Store.blockTables_foldl (fun s (a : Address P × Nat) =>
      s.putAccount a.1 { balance := a.2, nonce := 0 }) (fun _ _ => rfl) cfg.genesisAccounts _
  rw [htables]
  exact hgenesis _ hq

theorem persistContext_filed {w : PendingStateWriter P} {e : Nat × ViewContext P}
    (hr : ∀ t b, e.2.block = some b → q t → q (t.putNonFinalized b)) (hq : Filed q w) :
    Filed q (w.persistContext e) := by
  have hdiff : ∀ d, Filed q (w.addMNotarizedDiff e.1 d) := by
    intro d
    show q (w.addMNotarizedDiff e.1 d).store.blockTables
    rwa [addMNotarizedDiff_store]
  unfold PendingStateWriter.persistContext
  show q (Store.putVotes _ _).blockTables
  rw [Store.putVotes, Store.blockTables_foldl Store.putVote (fun _ _ => rfl)]
  cases hb : e.2.block with
  | none =>
    cases e.2.stateDiff <;> cases e.2.mNotarization <;> cases e.2.nullification <;>
      first | exact hq | exact hdiff _
  | some b =>
    cases e.2.stateDiff <;> cases e.2.mNotarization <;> cases e.2.nullification <;>
      first | exact hr _ b hb hq | exact hr _ b hb (hdiff _)

/-- An orderly shutdown files the held blocks. -/
theorem leftStore_filed {s : Replica P} (orderly : Bool)
    (hr : orderly = true → ∀ t v c b, s.context v = some c → c.block = some b → q t →
      q (t.putNonFinalized b)) (hq : q s.chain.blockTables) :
    q (s.leftStore orderly).blockTables := by
  cases orderly with
  | false => exact hq
  | true =>
    have hloop : ∀ (entries : List (Nat × ViewContext P)) (w : PendingStateWriter P),
        (∀ e ∈ entries, s.context e.1 = some e.2) → Filed q w →
        Filed q (entries.foldl PendingStateWriter.persistContext w) := by
      intro entries
      induction entries with
      | nil => exact fun _ _ hw => hw
      | cons e entries ih =>
        intro w hmem hw
        refine ih _ (fun e' he' => hmem e' (mem_cons_of_mem _ he')) ?_
        exact persistContext_filed (fun t b => hr rfl t e.1 e.2 b (hmem e mem_cons_self)) hw
    exact hloop s.chain.iter _ (fun e he => mem_iter.mp he) hq

/-- The states of a replica over all of its processes, and whether the last
one is running. A process may end after any input, orderly or not, and has
then to meet `ended`; the next one has its own environment and hash seed. -/
inductive Lifetime (allowed : Replica P → ConsensusMessage P → Prop)
    (ended : Replica P → Bool → Prop) : Config P → Replica P → Bool → Prop
  | start (cfg : Config P) : Lifetime allowed ended cfg (start cfg) true
  | step {cfg : Config P} {s : Replica P} (fuel : Nat) (input : Input P)
      (h : Lifetime allowed ended cfg s true) (hm : ∀ m, input = .message m → allowed s m) :
      Lifetime allowed ended cfg (handle cfg fuel input s).2
        (Completed (handle cfg fuel input s).1)
  | restart {cfg : Config P} {s : Replica P} {running : Bool} (env : Env P) (orderly : Bool)
      (seed : Nat) (h : Lifetime allowed ended cfg s running) (he : ended s orderly) :
      Lifetime allowed ended { cfg with env }
        (restart { cfg with env } (s.leftStore orderly) seed) true

variable {allowed : Replica P → ConsensusMessage P → Prop} {ended : Replica P → Bool → Prop}

/-- The first process. -/
theorem Run.lifetime {s : Replica P} {running : Bool} (h : Run cfg allowed s running) :
    Lifetime allowed ended cfg s running := by
  induction h with
  | start => exact .start cfg
  | step fuel input _ hm ih => exact .step fuel input ih hm

/-- What the first process starts with, every step keeps and the next process
starts with, holds in every state. -/
theorem Lifetime.invariant {I : Replica P → Prop} (hstart : ∀ cfg, I (Replica.start cfg))
    (hstep : ∀ {cfg : Config P} {s s' : Replica P}, s.WF (.any cfg) → Step (.any cfg) s s' →
      I s → I s')
    (hrestart : ∀ {s : Replica P} {orderly : Bool} (cfg : Config P) (seed : Nat),
      ended s orderly → I s → I (Replica.restart cfg (s.leftStore orderly) seed))
    {cfg : Config P} {s : Replica P} {running : Bool} (h : Lifetime allowed ended cfg s running) :
    I s ∧ s.WF (.any cfg) := by
  have hall : I s ∧ s.WF (.any cfg) ∧ (running = true → s.chain.Settled) := by
    induction h with
    | start cfg => exact ⟨hstart cfg, start_wf, fun _ => start_settled⟩
    | @step cfg s fuel input _ _ ih =>
      obtain ⟨hI, hwf, hset⟩ := ih
      obtain ⟨hsteps, hset'⟩ := handle_steps hwf (hset rfl) fuel (fun _ _ => trivial)
      exact ⟨Steps.invariant (fun _ _ hwf h => hstep hwf h) hsteps hwf hI,
        Steps.wf hsteps hwf, hset'⟩
    | restart env orderly seed _ he ih =>
      exact ⟨hrestart _ seed he ih.1, restart_wf _ seed, fun _ => restart_settled _ seed⟩
  exact ⟨hall.1, hall.2.1⟩

end Replica

end Minimmit
