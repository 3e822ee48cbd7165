/-
Minimmit.Consensus.PersistSteps — what persisting a view does to the ledger.

Of the many tables a persist function writes, the finalized blocks, the
nullified blocks, the accounts and the pending diffs are the ledger; the
others are metadata. `SameLedger` compares two writers in those four, the
published diffs and the last finalized view. In EVERY outcome, also when it stops half way with an
error or a panic, a persist function leaves the ledger that its plan below
names: `planFinalized` for the L-notarized path, `planNotarized` for the
M-notarized path and `planNullified` for the views off the chain.
-/
import Minimmit.Consensus.FinalizationSteps

namespace Minimmit

open Minimmit.Library Act ViewChain

variable {P : Params}

/-- Two stores with the same block tables and the same history of finalized
blocks. -/
structure SameBlocks (s t : Store P) : Prop where
  finalizedBlocks : s.finalizedBlocks = t.finalizedBlocks
  nullifiedBlocks : s.nullifiedBlocks = t.nullifiedBlocks
  finalizedWrites : s.finalizedWrites = t.finalizedWrites

/-- Two stores with the same block tables and accounts. -/
structure SameTables (s t : Store P) : Prop extends SameBlocks s t where
  accounts : s.accounts = t.accounts

theorem SameBlocks.refl (s : Store P) : SameBlocks s s := ⟨rfl, rfl, rfl⟩

theorem SameBlocks.trans {s t u : Store P} (h : SameBlocks s t) (h' : SameBlocks t u) :
    SameBlocks s u :=
  ⟨h.finalizedBlocks.trans h'.finalizedBlocks, h.nullifiedBlocks.trans h'.nullifiedBlocks,
    h.finalizedWrites.trans h'.finalizedWrites⟩

theorem SameTables.refl (s : Store P) : SameTables s s := ⟨.refl s, rfl⟩

theorem SameTables.trans {s t u : Store P} (h : SameTables s t) (h' : SameTables t u) :
    SameTables s u :=
  ⟨h.toSameBlocks.trans h'.toSameBlocks, h.accounts.trans h'.accounts⟩

/-- A loop whose every pass changes a store within `R` does so as a whole. -/
theorem foldl_related {σ α : Type} {R : σ → σ → Prop} (hrefl : ∀ s, R s s)
    (htrans : ∀ {s t u}, R s t → R t u → R s u) {f : σ → α → σ}
    (hf : ∀ s a, R (f s a) s) (l : List α) (s : σ) : R (l.foldl f s) s := by
  induction l generalizing s with
  | nil => exact hrefl s
  | cons a l ih => exact htrans (ih (f s a)) (hf s a)

/-- Two writers with the same ledger. -/
structure SameLedger (w w' : PendingStateWriter P) : Prop where
  tables : SameTables w.store w'.store
  pendingDiffs : w.pendingDiffs = w'.pendingDiffs
  published : w.published = w'.published
  lastFinalizedView : w.lastFinalizedView = w'.lastFinalizedView

theorem SameLedger.refl (w : PendingStateWriter P) : SameLedger w w := ⟨.refl _, rfl, rfl, rfl⟩

/-! ## Metadata writes -/

theorem putVotes_tables (votes : List (Vote P)) (s : Store P) : SameTables (s.putVotes votes) s :=
  foldl_related .refl .trans (fun _ _ => ⟨⟨rfl, rfl, rfl⟩, rfl⟩) votes s

theorem putNullifies_tables (nullifies : List (Nullify P)) (s : Store P) :
    SameTables (s.putNullifies nullifies) s :=
  foldl_related .refl .trans (fun _ _ => ⟨⟨rfl, rfl, rfl⟩, rfl⟩) nullifies s

theorem putTransactions_tables (txs : List (Transaction P)) (s : Store P) :
    SameTables (s.putTransactions txs) s :=
  foldl_related .refl .trans (fun _ _ => ⟨⟨rfl, rfl, rfl⟩, rfl⟩) txs s

/-- Keeping the ledger of `w₀` in every outcome. -/
abbrev KeepsLedger (w₀ : PendingStateWriter P) (op : WriterOp P Unit) : Prop :=
  Act.Spec (SameLedger · w₀) op (fun _ => (SameLedger · w₀)) (SameLedger · w₀) (SameLedger · w₀)

variable {w₀ : PendingStateWriter P}

theorem writeStore_keeps {f : Store P → Store P}
    (hf : ∀ s, SameTables (f s) s) : KeepsLedger w₀ (writeStore f) :=
  spec_modify fun w hw => { hw with tables := (hf w.store).trans hw.tables }

theorem persistMetadata_keeps (w₀ : PendingStateWriter P) (c : ViewContext P) (peers : PeerSet P)
    (isCurrent nullified : Bool) :
    KeepsLedger w₀ (persistMetadata c peers isCurrent nullified) := by
  refine spec_bind (writeStore_keeps fun s => ⟨⟨rfl, rfl, rfl⟩, rfl⟩) fun _ => ?_
  cases peers.getPublicKey c.leaderId with
  | none => exact spec_panic fun _ h => h
  | some leader =>
    exact spec_bind (writeStore_keeps fun s => ⟨⟨rfl, rfl, rfl⟩, rfl⟩) fun _ =>
      writeStore_keeps fun s => putVotes_tables _ s

theorem persistMNotarization_keeps (w₀ : PendingStateWriter P) (c : ViewContext P) :
    KeepsLedger w₀ (persistMNotarization c) := by
  unfold persistMNotarization
  cases c.mNotarization with
  | some m => exact writeStore_keeps fun s => ⟨⟨rfl, rfl, rfl⟩, rfl⟩
  | none => exact spec_throw fun _ h => h

theorem persistSome_keeps {α : Type} (x : Option α)
    {op : α → WriterOp P Unit} (hop : ∀ a, KeepsLedger w₀ (op a)) :
    KeepsLedger w₀ (persistSome x op) := by
  cases x with
  | some a => exact hop a
  | none => exact spec_pure fun _ h => h

/-! ## The plans -/

/-- The block as it is stored in the finalized table. -/
def Block.finalized (b : Block P) : Block P := { b with isFinalized := true }

/-- The ledger after a block was stored as finalized. -/
def planBlock (c : ViewContext P) (w : PendingStateWriter P) : PendingStateWriter P :=
  match c.block with
  | some b => w.onStore (·.putFinalizedBlock b.finalized)
  | none => w

/-- The ledger after the L-notarized path: the pending diffs up to the view
are applied and the block is stored. -/
def planFinalized (c : ViewContext P) (w : PendingStateWriter P) : PendingStateWriter P :=
  planBlock c (w.finalizeUpTo c.viewNumber)

/-- The ledger after the path off the chain: the diff goes and the block is
stored as nullified. -/
def planNullified (c : ViewContext P) (w : PendingStateWriter P) : PendingStateWriter P :=
  match c.block with
  | some b => (w.removeNullifiedView c.viewNumber).onStore (·.putNullifiedBlock b)
  | none => w.removeNullifiedView c.viewNumber

theorem sameLedger_of_keeps {w₀ w : PendingStateWriter P} {op : WriterOp P Unit}
    (h : KeepsLedger w₀ op) (hw : SameLedger w w₀) : SameLedger (op w).2 w₀ :=
  ends_iff_state.mp (h w hw)

theorem persistFinalizedBlock_ledger (b : Block P) (w : PendingStateWriter P) :
    persistFinalizedBlock b w = (.ok (), (w.onStore (·.putTransactions b.transactions)).onStore
      (·.putFinalizedBlock b.finalized)) := rfl

theorem sameLedger_finalizedBlock (b : Block P) (w : PendingStateWriter P) :
    SameLedger ((w.onStore (·.putTransactions b.transactions)).onStore
      (·.putFinalizedBlock b.finalized)) (w.onStore (·.putFinalizedBlock b.finalized)) := by
  have htx := putTransactions_tables b.transactions w.store
  exact ⟨⟨⟨congrArg (·.insert b.finalized.getHash b.finalized) htx.finalizedBlocks,
    htx.nullifiedBlocks, congrArg (· ++ [b.finalized]) htx.finalizedWrites⟩, htx.accounts⟩,
    rfl, rfl, rfl⟩

/-- **The L-notarized path** leaves the planned ledger. -/
theorem persistLNotarizedView_ledger (c : ViewContext P) (peers : PeerSet P)
    (w : PendingStateWriter P) :
    SameLedger (persistLNotarizedView c peers w).2 (planFinalized c w) := by
  unfold persistLNotarizedView planFinalized planBlock
  simp only [bind_run, modify_run]
  cases c.block with
  | none => exact .refl _
  | some b =>
    simp only [bind_run, persistFinalizedBlock_ledger]
    refine sameLedger_of_keeps ?_ (sameLedger_finalizedBlock b _)
    cases c.blockHash with
    | none => exact spec_throw fun _ h => h
    | some h =>
      refine spec_bind (persistMNotarization_keeps _ c) fun _ => ?_
      refine spec_bind (persistMetadata_keeps _ c peers true false) fun _ => ?_
      exact writeStore_keeps fun s => ⟨⟨rfl, rfl, rfl⟩, rfl⟩

/-- **The M-notarized path** leaves the planned ledger. -/
theorem persistMNotarizedView_ledger (c : ViewContext P) (peers : PeerSet P)
    (w : PendingStateWriter P) :
    SameLedger (persistMNotarizedView c peers w).2 (planBlock c w) := by
  have hrest : ∀ w₀, KeepsLedger w₀ (persistMNotarization c >>= fun _ =>
      persistMetadata c peers true false) := fun w₀ =>
    spec_bind (persistMNotarization_keeps w₀ c) fun _ =>
      persistMetadata_keeps w₀ c peers true false
  unfold persistMNotarizedView planBlock
  cases c.block with
  | none => exact sameLedger_of_keeps (hrest w) (.refl w)
  | some b =>
    simp only [persistSome, bind_run, persistFinalizedBlock_ledger]
    exact sameLedger_of_keeps (hrest _) (sameLedger_finalizedBlock b w)

theorem persistNullifiedBlock_ledger (c : ViewContext P) (w : PendingStateWriter P) :
    persistNullifiedBlock c (w.removeNullifiedView c.viewNumber) = (.ok (), planNullified c w) := by
  unfold persistNullifiedBlock planNullified
  cases c.block <;> rfl

/-- **The path off the chain** leaves the planned ledger. -/
theorem persistNullifiedViewOrMetadata_ledger (c : ViewContext P) (peers : PeerSet P)
    (w : PendingStateWriter P) :
    SameLedger (persistNullifiedViewOrMetadata c peers w).2 (planNullified c w) := by
  unfold persistNullifiedViewOrMetadata
  by_cases hn : c.isNullified
  · have hrest : KeepsLedger (planNullified c w) (do
        persistSome c.nullification fun n => writeStore (·.putNullification n)
        persistMetadata c peers false true
        writeStore (·.putNullifies
          (P.hashOrder.apply c.replicaId _ c.nullifyMessages.elems))) :=
      spec_bind (persistSome_keeps _ fun n => writeStore_keeps fun s => ⟨⟨rfl, rfl, rfl⟩, rfl⟩)
        fun _ => spec_bind (persistMetadata_keeps _ c peers false true)
        fun _ => writeStore_keeps fun s => putNullifies_tables _ s
    simp only [hn, ↓reduceIte, persistNullifiedView, Bool.not_true, Bool.false_eq_true,
      bind_run, modify_run, persistNullifiedBlock_ledger]
    exact sameLedger_of_keeps hrest (.refl _)
  · have hrest : KeepsLedger (planNullified c w) (do
        persistSome c.mNotarization fun m => writeStore (·.putNotarization m)
        persistMetadata c peers false true) :=
      spec_bind (persistSome_keeps _ fun m => writeStore_keeps fun s => ⟨⟨rfl, rfl, rfl⟩, rfl⟩)
        fun _ => persistMetadata_keeps _ c peers false true
    simp only [hn, ↓reduceIte, Bool.false_eq_true, bind_run, modify_run,
      persistNullifiedBlock_ledger]
    exact sameLedger_of_keeps hrest (.refl _)

/-! ## One pass of the loop -/

namespace ViewChain

/-- The ledger after the context of `view` was persisted. -/
def planWriter (finalizedView : Nat) (canonical : List Nat) (view : Nat) (c : ViewContext P)
    (w : PendingStateWriter P) : PendingStateWriter P :=
  if view = finalizedView then
    if c.blockHash.isSome then planFinalized c w else w
  else if view ∈ canonical then
    if P.N - P.F ≤ c.votes.len ∧ c.block.isSome then planFinalized c w else planBlock c w
  else planNullified c w

/-- The committed hash after the context of `view` was persisted. -/
def planCommit (finalizedView : Nat) (canonical : List Nat) (view : Nat) (c : ViewContext P)
    (s : ViewChain P) : ViewChain P :=
  if view = finalizedView ∨ view ∈ canonical then
    match c.blockHash with
    | some blockHash => s.commit blockHash
    | none => s
  else s

/-- **Persisting one view** follows the plan in every outcome. -/
theorem persistView_plan (finalizedView : Nat) (canonical : List Nat) (peers : PeerSet P)
    (view : Nat) (c : ViewContext P) (s : ViewChain P) :
    ∃ w, SameLedger w (planWriter finalizedView canonical view c s.persistenceWriter) ∧
      (persistView finalizedView canonical peers view c s).2 =
        { planCommit finalizedView canonical view c s with persistenceWriter := w } := by
  unfold persistView planWriter planCommit
  by_cases hfin : view = finalizedView
  · simp only [hfin, ↓reduceIte, true_or]
    cases c.blockHash with
    | none => exact ⟨s.persistenceWriter, .refl _, rfl⟩
    | some h => exact ⟨_, persistLNotarizedView_ledger c peers _, rfl⟩
  · by_cases hcan : view ∈ canonical
    · simp only [hfin, hcan, ↓reduceIte, or_true]
      cases c.blockHash with
      | none =>
        split
        · exact ⟨_, persistLNotarizedView_ledger c peers _, rfl⟩
        · exact ⟨_, persistMNotarizedView_ledger c peers _, rfl⟩
      | some h =>
        split
        · exact ⟨_, persistLNotarizedView_ledger c peers _, rfl⟩
        · exact ⟨_, persistMNotarizedView_ledger c peers _, rfl⟩
    · simp only [hfin, hcan, ↓reduceIte, or_self]
      exact ⟨_, persistNullifiedViewOrMetadata_ledger c peers _, rfl⟩

end ViewChain

/-! ## Where the finalized blocks come from -/

theorem applyDiffToDb_blocks (s : Store P) (d : StateDiff P) :
    SameBlocks (applyDiffToDb s d) s := by
  have hcreated : ∀ (s : Store P) a, SameBlocks (applyCreated s a) s := by
    intro s a
    unfold applyCreated
    split <;> exact ⟨rfl, rfl, rfl⟩
  have hupdate : ∀ (s : Store P) e, SameBlocks (applyUpdate s e) s := by
    intro s e
    unfold applyUpdate
    repeat' split
    all_goals exact ⟨rfl, rfl, rfl⟩
  exact (foldl_related .refl .trans hupdate _ _).trans (foldl_related .refl .trans hcreated _ s)

theorem finalizeUpTo_blocks (w : PendingStateWriter P) (view : Nat) :
    SameBlocks (w.finalizeUpTo view).store w.store :=
  foldl_related .refl .trans (fun s (e : Nat × StateDiff P) => applyDiffToDb_blocks s e.2)
    (w.diffsUpTo view) w.store

theorem removeNullifiedView_store (w : PendingStateWriter P) (view : Nat) :
    (w.removeNullifiedView view).store = w.store := by
  unfold PendingStateWriter.removeNullifiedView
  split <;> rfl

theorem addMNotarizedDiff_store (w : PendingStateWriter P) (view : Nat) (d : StateDiff P) :
    (w.addMNotarizedDiff view d).store = w.store := by
  unfold PendingStateWriter.addMNotarizedDiff
  split <;> rfl

variable {w : PendingStateWriter P}

theorem planBlock_finalizedBlocks {c : ViewContext P} {h : Hash P}
    {b : Block P} (hb : (planBlock c w).store.finalizedBlocks.lookup h = some b) :
    w.store.finalizedBlocks.lookup h = some b ∨
      ∃ b₀, c.block = some b₀ ∧ h = b₀.getHash ∧ b = b₀.finalized := by
  unfold planBlock at hb
  cases hc : c.block with
  | none =>
    rw [hc] at hb
    exact .inl hb
  | some b₀ =>
    rw [hc] at hb
    by_cases hh : h = b₀.getHash
    · subst hh
      have hnew := (AList.lookup_insert w.store.finalizedBlocks).symm.trans hb
      exact .inr ⟨b₀, rfl, rfl, (Option.some.inj hnew).symm⟩
    · exact .inl ((AList.lookup_insert_ne hh).symm.trans hb)

/-- A finalized block is in the table already or is the block of the context
that was persisted. -/
theorem planWriter_finalizedBlocks {finalizedView : Nat} {canonical : List Nat} {view : Nat}
    {c : ViewContext P} {h : Hash P} {b : Block P}
    (hb : (planWriter finalizedView canonical view c w).store.finalizedBlocks.lookup h =
      some b) :
    w.store.finalizedBlocks.lookup h = some b ∨
      ∃ b₀, c.block = some b₀ ∧ h = b₀.getHash ∧ b = b₀.finalized := by
  have hfin : ∀ {v}, (planBlock c (w.finalizeUpTo v)).store.finalizedBlocks.lookup h = some b →
      w.store.finalizedBlocks.lookup h = some b ∨
        ∃ b₀, c.block = some b₀ ∧ h = b₀.getHash ∧ b = b₀.finalized := by
    intro v hv
    rcases planBlock_finalizedBlocks hv with hold | hnew
    · exact .inl ((finalizeUpTo_blocks w v).finalizedBlocks ▸ hold)
    · exact .inr hnew
  unfold planWriter at hb
  split at hb
  · split at hb
    · exact hfin hb
    · exact .inl hb
  split at hb
  · split at hb
    · exact hfin hb
    · exact planBlock_finalizedBlocks hb
  refine .inl ?_
  unfold planNullified at hb
  rw [← removeNullifiedView_store w c.viewNumber]
  cases hc : c.block with
  | none => rwa [hc] at hb
  | some b₀ => rwa [hc] at hb

namespace ViewChain

/-- The finalized blocks of `s'` are those of `s` and blocks of contexts that
`s` holds. -/
def FinalizesHeld (s s' : ViewChain P) : Prop :=
  ∀ h b, s'.persistenceWriter.store.finalizedBlocks.lookup h = some b →
    s.persistenceWriter.store.finalizedBlocks.lookup h = some b ∨
      ∃ v c b₀, s.findViewContext v = some c ∧ c.block = some b₀ ∧ h = b₀.getHash ∧
        b = b₀.finalized

/-- **Finalization stores blocks of held contexts**, under their hash. -/
theorem finalize_finalizes (view : Nat) (peers : PeerSet P) (s : ViewChain P) :
    FinalizesHeld s (finalizeWithLNotarization view peers s).2 := by
  refine finalize_maintains (fun _ _ _ h => .inl h) ?_
  intro _ canonical _ _ s' v c hprunes _ hc hs' h b hb
  obtain ⟨w, hw, heq⟩ := persistView_plan view canonical peers v c (s'.removeView v)
  rw [heq] at hb
  rw [show w.store.finalizedBlocks = _ from hw.tables.finalizedBlocks] at hb
  rcases planWriter_finalizedBlocks hb with hold | ⟨b₀, hb₀, hrest⟩
  · exact hs' h b hold
  · exact .inr ⟨v, c, b₀, hprunes.find v c hc, hb₀, hrest⟩

end ViewChain

/-! ## Outcomes -/

/-- The key of the leader is not known, which is a panic. -/
def KeyUnknown (peers : PeerSet P) (c : ViewContext P) (k : Abort) : Prop :=
  k = .panic ∧ peers.getPublicKey c.leaderId = none

section Outcome

variable {c : ViewContext P} {peers : PeerSet P} {p : Prop} {E : PendingStateWriter P → Prop}
  {B : Abort → PendingStateWriter P → Prop}

/-- A write succeeds. -/
theorem modify_succeeds {f : PendingStateWriter P → PendingStateWriter P} :
    Triple (fun _ => p) (Act.modify f : WriterOp P Unit) (fun _ _ => p) E B :=
  triple_modify fun _ h => h

theorem persistSome_succeeds {α : Type} (x : Option α) {op : α → WriterOp P Unit}
    (hop : ∀ a, Triple (fun _ => p) (op a) (fun _ _ => p) E B) :
    Triple (fun _ => p) (persistSome x op) (fun _ _ => p) E B := by
  cases x with
  | none => exact triple_pure fun _ h => h
  | some a => exact hop a

/-- Metadata is written when the leader's key is known. -/
theorem persistMetadata_outcome (isCurrent nullified : Bool) :
    Triple (fun _ => p) (persistMetadata c peers isCurrent nullified) (fun _ _ => p) E
      fun k _ => KeyUnknown peers c k := by
  refine triple_bind modify_succeeds fun _ => ?_
  cases hkey : peers.getPublicKey c.leaderId with
  | none => exact triple_panic fun _ _ => ⟨rfl, hkey⟩
  | some key => exact triple_bind modify_succeeds fun _ => modify_succeeds

/-- The M-notarization decides. -/
theorem persistMNotarization_outcome :
    Triple (fun _ => True) (persistMNotarization c) (fun _ _ => c.mNotarization.isSome = true)
      (fun _ => ¬ c.mNotarization.isSome = true) B := by
  unfold persistMNotarization
  rcases c.mNotarization with _ | m
  · exact triple_throw fun _ _ => by simp
  · exact triple_modify fun _ _ => rfl

theorem persistLNotarizedView_outcome : Triple (fun _ => True) (persistLNotarizedView c peers)
      (fun _ _ => c.mNotarization.isSome = true)
      (fun _ => c.block = none ∨ c.blockHash = none ∨ ¬ c.mNotarization.isSome = true)
      fun k _ => KeyUnknown peers c k := by
  refine triple_bind modify_succeeds fun _ => ?_
  split
  case h_1 hb => exact triple_throw fun _ _ => .inl hb
  case h_2 b hb =>
    refine triple_bind (triple_bind modify_succeeds fun _ => modify_succeeds) fun _ => ?_
    split
    case h_1 hh => exact triple_throw fun _ _ => .inr (.inl hh)
    case h_2 h hh =>
      refine triple_bind (persistMNotarization_outcome.conseq (fun _ h => h) (fun _ _ h => h)
        (fun _ h => .inr (.inr h)) fun _ _ h => h) fun _ => ?_
      exact triple_bind (persistMetadata_outcome _ _) fun _ => modify_succeeds

theorem persistMNotarizedView_outcome : Triple (fun _ => True) (persistMNotarizedView c peers)
      (fun _ _ => c.mNotarization.isSome = true) (fun _ => ¬ c.mNotarization.isSome = true)
      fun k _ => KeyUnknown peers c k := by
  refine triple_bind (persistSome_succeeds _ fun b =>
    triple_bind modify_succeeds fun _ => modify_succeeds) fun _ => ?_
  exact triple_bind persistMNotarization_outcome fun _ => persistMetadata_outcome _ _

/-- A view off the chain is always persisted. -/
theorem persistNullifiedViewOrMetadata_outcome :
    Triple (fun _ => True) (persistNullifiedViewOrMetadata c peers) (fun _ _ => True) E
      fun k _ => KeyUnknown peers c k := by
  refine triple_ite (fun hn => ?_) fun _ => ?_
  · unfold persistNullifiedView
    rw [hn]
    refine triple_bind modify_succeeds fun _ => ?_
    refine triple_bind (persistSome_succeeds _ fun _ => modify_succeeds) fun _ => ?_
    refine triple_bind (persistSome_succeeds _ fun _ => modify_succeeds) fun _ => ?_
    exact triple_bind (persistMetadata_outcome _ _) fun _ => modify_succeeds
  · refine triple_bind modify_succeeds fun _ => ?_
    refine triple_bind (persistSome_succeeds _ fun _ => modify_succeeds) fun _ => ?_
    refine triple_bind (persistSome_succeeds _ fun _ => modify_succeeds) fun _ => ?_
    exact persistMetadata_outcome _ _

end Outcome

namespace ViewChain

variable {k : Abort} {view : Nat} {peers : PeerSet P}

/-- **How persisting one view ends.** It fails only on the chain, where
something it needs is missing, and panics only without the leader's key or
without the hash of the finalized view. -/
theorem persistView_outcome {v : Nat} {canonical : List Nat} {c : ViewContext P} (s : ViewChain P) :
    EndsBy (persistView view canonical peers v c s)
      (fun _ _ => v = view ∨ v ∈ canonical → c.mNotarization.isSome = true)
      (fun _ => (v = view ∨ v ∈ canonical) ∧ (v = view ∧ c.block = none ∨
        c.block.isSome = true ∧ c.blockHash = none ∨ ¬ c.mNotarization.isSome = true))
      fun k _ => KeyUnknown peers c k ∨ k = .panic ∧ v = view ∧ c.blockHash = none := by
  have hpersist : ∀ {op : WriterOp P Unit} {Q E : Prop} (s : ViewChain P),
      Triple (fun _ => True) op (fun _ _ => Q) (fun _ => E) (fun k _ => KeyUnknown peers c k) →
      EndsBy (persist op s) (fun _ _ => Q) (fun _ => E) fun k _ => KeyUnknown peers c k :=
    fun s h => triple_zoom (P := fun _ => True) (fun _ _ => h _ trivial) s trivial
  unfold persistView
  split
  case isTrue hv =>
    split
    case h_1 hh => exact .inr ⟨rfl, hv, hh⟩
    case h_2 h hh =>
      refine (hpersist _ persistLNotarizedView_outcome).conseq (fun _ _ h _ => h)
        (fun _ hE => ⟨.inl hv, ?_⟩) fun _ _ h => .inl h
      rcases hE with hb | hnone | hm
      · exact .inl ⟨hv, hb⟩
      · cases hh.symm.trans hnone
      · exact .inr (.inr hm)
  case isFalse hv =>
    split
    case isTrue hmem =>
      dsimp only
      split
      case isTrue hb =>
        refine (hpersist _ persistLNotarizedView_outcome).conseq (fun _ _ h _ => h)
          (fun _ hE => ⟨.inr hmem, .inr ?_⟩) fun _ _ h => .inl h
        rcases hE with hnone | hnone | hm
        · rw [hnone] at hb
          cases hb.2
        · exact .inl ⟨hb.2, hnone⟩
        · exact .inr hm
      case isFalse =>
        exact (hpersist _ persistMNotarizedView_outcome).conseq (fun _ _ h _ => h)
          (fun _ hE => ⟨.inr hmem, .inr (.inr hE)⟩) fun _ _ h => .inl h
    case isFalse hmem =>
      exact (hpersist _ (persistNullifiedViewOrMetadata_outcome (E := fun _ => False))).conseq
        (fun _ _ _ h => (h.elim hv hmem).elim) (fun _ h => h.elim) fun _ _ h => .inl h

/-- The loop only takes contexts out, so what every context of the chain
before it has, every context it persists has. -/
theorem persistRange_never {canonical range : List Nat} {s₀ : ViewChain P}
    (hle : ∀ v ∈ range, v ≤ view)
    (hk : k = .panic → ∀ v c, s₀.findViewContext v = some c →
      (∃ key, peers.getPublicKey c.leaderId = some key) ∧
        (v = view → c.blockHash.isSome = true)) :
    Triple (Prunes view s₀) (persistRange view canonical peers range)
      (fun _ => Prunes view s₀) (fun _ => True) fun k' _ => k' ≠ k := by
  refine triple_forM fun v hv s hs => ?_
  have hnext : Prunes view s₀ (persistStep view canonical peers v s).2 :=
    hs.trans (persistStep_prunes (hle v hv))
  have hnever : EndsBy (persistStep view canonical peers v s) (fun _ _ => True)
      (fun _ => True) fun k' _ => k' ≠ k := by
    unfold persistStep
    split
    case h_1 => trivial
    case h_2 c hc =>
      split
      case isTrue => trivial
      case isFalse =>
        refine (persistView_outcome _).conseq (fun _ _ _ => trivial) (fun _ _ => trivial) ?_
        rintro _ _ hstop rfl
        have hpanic := hstop.elim (·.1) (·.1)
        obtain ⟨⟨key, hkey⟩, hhash⟩ := hk hpanic v c (hs.find v c hc)
        rcases hstop with ⟨-, hnone⟩ | ⟨-, heq, hnone⟩
        · cases hkey.symm.trans hnone
        · have := hhash heq
          rw [hnone] at this
          cases this
  exact ((ends_iff_state.mpr hnext).and hnever).conseq (fun _ _ h => h.1) (fun _ _ => trivial)
    fun _ _ h => h.2

/-- **Finalization does not panic** when every leader is known and every
held block comes with its hash. -/
theorem finalize_ne_panic {s : ViewChain P}
    (hkey : ∀ v c, s.findViewContext v = some c → ∃ key, peers.getPublicKey c.leaderId = some key)
    (hhash : ∀ v c b, s.findViewContext v = some c → c.block = some b → c.blockHash.isSome = true) :
    EndsBy (finalizeWithLNotarization view peers s) (fun _ _ => True) (fun _ => True)
      fun k _ => k ≠ .panic := by
  unfold finalizeWithLNotarization
  rcases hcheck : s.finalizeCheck view with e | _ | parentHash
  · trivial
  · trivial
  dsimp only
  split
  case h_1 => exact fun h => nomatch h
  case h_2 canonical missing _ =>
    split
    case isTrue => trivial
    case isFalse =>
      split
      case h_1 => trivial
      case h_2 range hrange =>
        refine (persistRange_never (nonFinalizedViewsUntil_le hrange) (fun _ v c hc => ?_) _
          (.refl view { s with pendingCanonicalRecovery := missing })).conseq
          (fun _ _ _ => trivial) (fun _ h => h) fun _ _ h => h
        refine ⟨hkey v c hc, fun heq => ?_⟩
        subst heq
        obtain ⟨-, c', b, hc', hb, -⟩ := finalizeCheck_proceed hcheck
        obtain rfl := Option.some.inj (hc'.symm.trans hc)
        exact hhash v c' b hc' hb

end ViewChain

end Minimmit
