/-
Minimmit.Consensus.CollectionSteps — all outcomes of
`finalize_with_l_notarization`.

The checks look at the view, its parent and the views between them. The loop
then takes contexts out of the map one after the other and persists each, and
persisting a view of the chain fails when its M-notarization is missing. No
check has looked for that beyond the parent, so the loop can stop half way.

  §1 The parent chain of a view as a walk (`OnChain`) and the list the code
     traces: they have the same views (`mem_canonicalViews`).
  §2 The outcome of persisting one view.
  §3 The loop: `Collecting` describes the state before every pass.
  §4 The outcomes of the call, by what holds before it.
-/
import Minimmit.Library.Walk
import Minimmit.Consensus.PanicTheorems

namespace Minimmit

open Minimmit.Library Act Relation Option AList

variable {P : Params}

/-! ## §1 The parent chain -/

namespace ViewChain

variable {s : ViewChain P} {fuel v w : Nat} {c : ViewContext P} {b : Block P}
  {acc canonical : List Nat} {missing : List (Nat × Hash P)}

/-- The held view of the parent of the block of `v`. -/
def parentOf (s : ViewChain P) (v : Nat) : Option Nat :=
  ((s.findViewContext v).bind (·.block)).bind fun b => s.findParentView b.parentBlockHash

/-- `w` is `v` or an ancestor of it, from held block to held block. -/
def OnChain (s : ViewChain P) (v w : Nat) : Prop := ∃ k, walk s.parentOf k v = some w

theorem OnChain.self (s : ViewChain P) (v : Nat) : s.OnChain v v := ⟨0, rfl⟩

theorem parentOf_of_block (hc : s.findViewContext v = some c) (hb : c.block = some b) :
    s.parentOf v = s.findParentView b.parentBlockHash := by
  simp only [parentOf, hc, hb, bind_some]

theorem parentOf_of_no_block (hc : s.findViewContext v = some c) (hb : c.block = none) :
    s.parentOf v = none := by
  simp only [parentOf, hc, hb, bind_some, bind_none]

/-- The views of the chain after the first are the parent and its chain. -/
theorem walk_parent {u : Nat} (hu : s.parentOf v = some u) :
    (∃ k, walk s.parentOf (k + 1) v = some w) ↔ w = u ∨ ∃ k, walk s.parentOf (k + 1) u = some w := by
  constructor
  · rintro ⟨k, hk⟩
    rw [walk_succ, hu, bind_some] at hk
    cases k with
    | zero => exact .inl (some.inj hk).symm
    | succ k => exact .inr ⟨k, hk⟩
  · rintro (rfl | ⟨k, hk⟩)
    · exact ⟨0, by rw [walk_succ, hu]; rfl⟩
    · exact ⟨k + 1, by rw [walk_succ, hu]; exact hk⟩

theorem walk_stopped (hv : s.parentOf v = none) : ¬ ∃ k, walk s.parentOf (k + 1) v = some w := by
  rintro ⟨k, hk⟩
  rw [walk_succ, hv] at hk
  cases hk

/-- **The loop that traces the chain** of `v` collects the views after `v`. -/
theorem mem_traceCanonical (hc : s.findViewContext v = some c) (hb : c.block = some b)
    (h : s.traceCanonical fuel b.parentBlockHash acc = some (canonical, missing)) (w : Nat) :
    w ∈ canonical ↔ w ∈ acc ∨ ∃ k, walk s.parentOf (k + 1) v = some w := by
  induction fuel generalizing v c b acc with
  | zero => cases h
  | succ fuel ih =>
    have hparent := parentOf_of_block hc hb
    unfold traceCanonical at h
    rcases hu : s.findParentView b.parentBlockHash with _ | u
    · -- the parent is not held: the walk ends at `v`
      rw [hu] at h hparent
      obtain ⟨rfl, -⟩ := Prod.mk.inj (some.inj h)
      simp only [walk_stopped hparent, or_false]
    · rw [hu] at h hparent
      obtain ⟨d, hd, -⟩ := findParentView_find hu
      rcases hblock : d.block with _ | b'
      · simp only [hd, hblock] at h
        obtain ⟨rfl, -⟩ := Prod.mk.inj (some.inj h)
        rw [walk_parent hparent, List.mem_cons]
        simp only [walk_stopped (parentOf_of_no_block hd hblock), or_false]
        exact or_comm
      · simp only [hd, hblock] at h
        rw [ih hd hblock h, walk_parent hparent, List.mem_cons]
        exact ⟨fun h => by tauto, fun h => by tauto⟩

/-- What the loop reports missing are views of the chain without their
block. -/
theorem mem_missing (hc : s.findViewContext v = some c) (hb : c.block = some b)
    (h : s.traceCanonical fuel b.parentBlockHash acc = some (canonical, missing))
    {e : Nat × Hash P} (he : e ∈ missing) :
    s.OnChain v e.1 ∧ ∃ d, s.findViewContext e.1 = some d ∧ d.block = none ∧
      d.blockHash = some e.2 := by
  induction fuel generalizing v c b acc with
  | zero => cases h
  | succ fuel ih =>
    have hparent := parentOf_of_block hc hb
    unfold traceCanonical at h
    rcases hu : s.findParentView b.parentBlockHash with _ | u
    · rw [hu] at h
      obtain ⟨-, rfl⟩ := Prod.mk.inj (some.inj h)
      cases he
    rw [hu] at h hparent
    obtain ⟨d, hd, hhash⟩ := findParentView_find hu
    rcases hblock : d.block with _ | b'
    · simp only [hd, hblock, hhash, map_some, toList_some] at h
      obtain ⟨-, rfl⟩ := Prod.mk.inj (some.inj h)
      obtain rfl := List.mem_singleton.mp he
      exact ⟨⟨1, by rw [walk_succ, hparent]; rfl⟩, d, hd, hblock, hhash⟩
    · simp only [hd, hblock] at h
      obtain ⟨⟨k, hk⟩, hrest⟩ := ih hd hblock h
      exact ⟨⟨k + 1, by rw [walk_succ, hparent]; exact hk⟩, hrest⟩

/-- A chain that ends within the fuel is traced to its end. -/
theorem traceCanonical_of_stop {k : Nat} (hc : s.findViewContext v = some c)
    (hb : c.block = some b) (hk : walk s.parentOf k v = some w) (hstop : s.parentOf w = none)
    (hfuel : k < fuel) (acc : List Nat) :
    (s.traceCanonical fuel b.parentBlockHash acc).isSome = true := by
  induction fuel generalizing k v c b acc with
  | zero => omega
  | succ fuel ih =>
    have hparent := parentOf_of_block hc hb
    unfold traceCanonical
    rcases hu : s.findParentView b.parentBlockHash with _ | u
    · rfl
    rw [hu] at hparent
    obtain ⟨d, hd, -⟩ := findParentView_find hu
    rcases hblock : d.block with _ | b'
    · simp only [hd, hblock, isSome_some]
    simp only [hd, hblock]
    cases k with
    | zero =>
      rw [walk_zero, some.injEq] at hk
      rw [← hk, hparent] at hstop
      cases hstop
    | succ k =>
      rw [walk_succ, hparent] at hk
      exact ih hd hblock hk (by omega) _

/-- The chain of `v` comes to an end: it does not run into itself. -/
def ChainEnds (s : ViewChain P) (v : Nat) : Prop := ∃ w, s.OnChain v w ∧ s.parentOf w = none

theorem stop_of_traceCanonical (hc : s.findViewContext v = some c) (hb : c.block = some b)
    (h : (s.traceCanonical fuel b.parentBlockHash acc).isSome = true) : s.ChainEnds v := by
  induction fuel generalizing v c b acc with
  | zero => cases h
  | succ fuel ih =>
    have hparent := parentOf_of_block hc hb
    unfold traceCanonical at h
    rcases hu : s.findParentView b.parentBlockHash with _ | u
    · exact ⟨v, .self s v, hparent.trans hu⟩
    rw [hu] at h hparent
    obtain ⟨d, hd, -⟩ := findParentView_find hu
    rcases hblock : d.block with _ | b'
    · exact ⟨u, ⟨1, by rw [walk_succ, hparent]; rfl⟩, parentOf_of_no_block hd hblock⟩
    · simp only [hd, hblock] at h
      obtain ⟨w, ⟨k, hk⟩, hstop⟩ := ih hd hblock h
      exact ⟨w, ⟨k + 1, by rw [walk_succ, hparent]; exact hk⟩, hstop⟩

theorem held_of_parentOf {u : Nat} (h : s.parentOf v = some u) : u ∈ s.nonFinalizedViews.keys := by
  obtain ⟨b, -, hu⟩ := bind_eq_some_iff.mp h
  obtain ⟨c, hc, -⟩ := findParentView_find hu
  exact mem_keys.mp (lookup_isSome.mp (isSome_iff_exists.mpr ⟨c, hc⟩))

/-- **The trace ends** exactly when the chain does: a held chain that ends
meets every held view at most once. -/
theorem canonicalViews_isSome_iff (hc : s.findViewContext v = some c) (hb : c.block = some b) :
    (s.canonicalViews v b.parentBlockHash).isSome = true ↔ s.ChainEnds v := by
  constructor
  · exact stop_of_traceCanonical hc hb
  rintro ⟨w, ⟨k, hk⟩, hstop⟩
  have hheld : ∀ i u, walk s.parentOf i v = some u → u ∈ s.nonFinalizedViews.keys := by
    intro i u hu
    cases i with
    | zero =>
      obtain rfl := some.inj hu
      exact mem_keys.mp (lookup_isSome.mp (isSome_iff_exists.mpr ⟨c, hc⟩))
    | succ i =>
      rw [walk_succ_last] at hu
      obtain ⟨x, -, hx⟩ := bind_eq_some_iff.mp hu
      exact held_of_parentOf hx
  have hlt := lt_length_of_stop hheld hk hstop
  refine traceCanonical_of_stop hc hb hk hstop (hlt.trans_le ?_) [v]
  rw [keys, List.keys, List.length_map]
  exact Nat.le_succ _

/-- The traced views are those of the chain. -/
theorem mem_canonicalViews (hc : s.findViewContext v = some c) (hb : c.block = some b)
    (h : s.canonicalViews v b.parentBlockHash = some (canonical, missing)) :
    w ∈ canonical ↔ s.OnChain v w := by
  rw [mem_traceCanonical hc hb h, List.mem_singleton]
  constructor
  · rintro (rfl | ⟨k, hk⟩)
    · exact .self s w
    · exact ⟨k + 1, hk⟩
  · rintro ⟨k, hk⟩
    cases k with
    | zero => exact .inl (some.inj hk).symm
    | succ k => exact .inr ⟨k, hk⟩

/-! ## §2 Persisting one view -/

variable {n : Nat}

/-- **Persisting one view** fails exactly when it is on the chain and its
M-notarization is missing. -/
theorem persistView_fails {view : Nat} {canonical : List Nat} {peers : PeerSet P}
    {c : ViewContext P} {key : BlsPublicKey P} (hkey : peers.getPublicKey c.leaderId = some key)
    (hview : view ∈ canonical)
    (hblock : n ∈ canonical → ∃ b, c.block = some b ∧ c.blockHash = some b.getHash)
    (s : ViewChain P) :
    EndsBy (persistView view canonical peers n c s)
      (fun _ _ => n ∈ canonical → c.mNotarization.isSome = true)
      (fun _ => n ∈ canonical ∧ ¬ c.mNotarization.isSome = true) fun _ _ => False := by
  have hmem : n = view ∨ n ∈ canonical → n ∈ canonical := fun h => h.elim (fun heq => heq ▸ hview) id
  refine (persistView_outcome s).conseq (fun _ _ h hn => h (.inr hn)) (fun _ hE => ?_) ?_
  · obtain ⟨b, hb, hh⟩ := hblock (hmem hE.1)
    rcases hE.2 with ⟨-, hnone⟩ | ⟨-, hnone⟩ | hm
    · cases hb.symm.trans hnone
    · cases hh.symm.trans hnone
    · exact ⟨hmem hE.1, hm⟩
  · rintro k _ (⟨-, hnone⟩ | ⟨-, rfl, hnone⟩)
    · cases hkey.symm.trans hnone
    · obtain ⟨b, -, hh⟩ := hblock hview
      cases hh.symm.trans hnone

/-! ## §3 The loop -/

/-- The view stays although it is in the range. -/
def stays (view : Nat) (canonical : List Nat) (w : Nat) (c : ViewContext P) : Bool :=
  decide (w ≠ view) && isRetained c (decide (w ∈ canonical))

/-- The block of a view below `n` with the property `on`. -/
def BlockBelow (s : ViewChain P) (on : Nat → Prop) (n : Nat) (b : Block P) : Prop :=
  ∃ w c, w < n ∧ on w ∧ s.findViewContext w = some c ∧ c.block = some b

/-- A new block below `n + 1` is the block of `n`. -/
theorem BlockBelow.succ_cases {on : Nat → Prop} {b : Block P} (h : s.BlockBelow on (n + 1) b) :
    s.BlockBelow on n b ∨ on n ∧ ∃ c, s.findViewContext n = some c ∧ c.block = some b := by
  obtain ⟨w, c, hw, hon, hc, hb⟩ := h
  rcases Nat.lt_succ_iff_lt_or_eq.mp hw with hlt | rfl
  · exact .inl ⟨w, c, hlt, hon, hc, hb⟩
  · exact .inr ⟨hon, c, hc, hb⟩

theorem BlockBelow.mono {on : Nat → Prop} {m : Nat} {b : Block P} (h : s.BlockBelow on n b)
    (hle : n ≤ m) : s.BlockBelow on m b := by
  obtain ⟨w, c, hw, hrest⟩ := h
  exact ⟨w, c, hw.trans_le hle, hrest⟩

/-- The table has the blocks below `n`. Two views may hold blocks with one
hash; the table then keeps the one that was written last. -/
def Shelved (s : ViewChain P) (on : Nat → Prop) (f : Block P → Block P) (n : Nat)
    (table : AList fun _ : Hash P => Block P) : Prop :=
  ∀ b, s.BlockBelow on n b →
    ∃ b₀, s.BlockBelow on n b₀ ∧ b₀.getHash = b.getHash ∧ table.lookup b.getHash = some (f b₀)

section Shelved

variable {on : Nat → Prop} {f : Block P → Block P} {table : AList fun _ : Hash P => Block P}

theorem Shelved.pass (h : Shelved s on f n table)
    (hnone : on n → ∀ c, s.findViewContext n = some c → c.block = none) :
    Shelved s on f (n + 1) table := by
  intro b hb
  rcases hb.succ_cases with hold | ⟨hon, c, hc, hcb⟩
  · obtain ⟨b₀, hb₀, hrest⟩ := h b hold
    exact ⟨b₀, hb₀.mono (Nat.le_succ n), hrest⟩
  · cases (hnone hon c hc).symm.trans hcb

theorem Shelved.insert (h : Shelved s on f n table) {c : ViewContext P} {b : Block P} (hon : on n)
    (hc : s.findViewContext n = some c) (hb : c.block = some b) :
    Shelved s on f (n + 1) (table.insert b.getHash (f b)) := by
  intro b' hb'
  by_cases hxb : b'.getHash = b.getHash
  · exact ⟨b, ⟨n, c, Nat.lt_succ_self n, hon, hc, hb⟩, hxb.symm, by rw [hxb, lookup_insert]⟩
  rcases hb'.succ_cases with hold | ⟨-, d, hd, hdb⟩
  · obtain ⟨b₀, hb₀, heq, hlookup⟩ := h b' hold
    exact ⟨b₀, hb₀.mono (Nat.le_succ n), heq, by rw [lookup_insert_ne hxb, hlookup]⟩
  · rw [hc, some.injEq] at hd
    rw [← hd, hb, some.injEq] at hdb
    exact absurd (congrArg Block.getHash hdb.symm) hxb

end Shelved

/-- The state of the loop before it comes to view `n`. -/
structure Collecting (s₀ : ViewChain P) (view : Nat) (canonical : List Nat) (n : Nat)
    (s : ViewChain P) : Prop where
  ahead : ∀ w, n ≤ w → s.findViewContext w = s₀.findViewContext w
  behind : ∀ w, w < n →
    s.findViewContext w = (s₀.findViewContext w).filter (stays view canonical w)
  certified : ∀ w c, w < n → w ∈ canonical → s₀.findViewContext w = some c →
    c.mNotarization.isSome = true
  grows : ∀ h, (s₀.persistenceWriter.store.finalizedBlocks.lookup h).isSome = true →
    (s.persistenceWriter.store.finalizedBlocks.lookup h).isSome = true
  origin : ∀ h b, s.persistenceWriter.store.finalizedBlocks.lookup h = some b →
    s₀.persistenceWriter.store.finalizedBlocks.lookup h = some b ∨
      ∃ b₀, s₀.BlockBelow (· ∈ canonical) n b₀ ∧ b₀.getHash = h
  finalized : Shelved s₀ (· ∈ canonical) Block.finalized n s.persistenceWriter.store.finalizedBlocks
  nullified : Shelved s₀ (· ∉ canonical) id n s.persistenceWriter.store.nullifiedBlocks
  committed : view < n → ∀ c, s₀.findViewContext view = some c →
    c.blockHash = some s.previouslyCommittedBlockHash

theorem Collecting.init {view : Nat} (canonical : List Nat)
    (hn : ∀ w c, s.findViewContext w = some c → n ≤ w) (hview : n ≤ view) :
    Collecting s view canonical n s := by
  have hbelow : ∀ {on : Nat → Prop} {b : Block P}, ¬ s.BlockBelow on n b := by
    rintro on b ⟨w, c, hw, -, hc, -⟩
    exact absurd (hn w c hc) (by omega)
  refine ⟨fun _ _ => rfl, fun w hw => ?_, fun w c hw _ hc => ?_, fun _ h => h,
    fun _ _ h => .inl h, fun b hb => absurd hb hbelow, fun b hb => absurd hb hbelow,
    fun hlt => absurd hlt (by omega)⟩
  · rcases hc : s.findViewContext w with _ | c
    · rfl
    · exact absurd (hn w c hc) (by omega)
  · exact absurd (hn w c hc) (by omega)

section Loop

variable {s₀ s : ViewChain P} {view n : Nat} {canonical : List Nat} {c : ViewContext P}
  {w : PendingStateWriter P}

/-- A pass that takes nothing out. -/
theorem Collecting.pass (h : Collecting s₀ view canonical n s) (hview : n ≠ view)
    (hn : (s₀.findViewContext n).filter (stays view canonical n) = s₀.findViewContext n)
    (hblock : ∀ c, s₀.findViewContext n = some c → c.block = none)
    (hcert : n ∈ canonical → ∀ c, s₀.findViewContext n = some c →
      c.mNotarization.isSome = true) : Collecting s₀ view canonical (n + 1) s := by
  refine ⟨fun w hw => h.ahead w (by omega), fun w hw => ?_, fun w c hw hmem hc => ?_, h.grows,
    fun x b hb => ?_, h.finalized.pass fun _ => hblock, h.nullified.pass fun _ => hblock,
    fun hlt => h.committed (by omega)⟩
  · rcases Nat.lt_succ_iff_lt_or_eq.mp hw with hlt | rfl
    · exact h.behind w hlt
    · exact (h.ahead w le_rfl).trans hn.symm
  · rcases Nat.lt_succ_iff_lt_or_eq.mp hw with hlt | rfl
    · exact h.certified w c hlt hmem hc
    · exact hcert hmem c hc
  · rcases h.origin x b hb with hold | ⟨b₀, hb₀, hx⟩
    · exact .inl hold
    · exact .inr ⟨b₀, hb₀.mono (Nat.le_succ n), hx⟩

/-- The map after view `n` was taken out. -/
theorem Collecting.removed (h : Collecting s₀ view canonical n s)
    (hc : s₀.findViewContext n = some c) (hgone : stays view canonical n c = false)
    (s' : ViewChain P) (hs' : ∀ w, s'.findViewContext w = (s.removeView n).findViewContext w) :
    (∀ w, n + 1 ≤ w → s'.findViewContext w = s₀.findViewContext w) ∧
      ∀ w, w < n + 1 →
        s'.findViewContext w = (s₀.findViewContext w).filter (stays view canonical w) := by
  refine ⟨fun w hw => ?_, fun w hw => ?_⟩
  · rw [hs', removeView_find_ne (by omega), h.ahead w (by omega)]
  · rw [hs']
    rcases Nat.lt_succ_iff_lt_or_eq.mp hw with hlt | rfl
    · rw [removeView_find_ne (by omega), h.behind w hlt]
    · simp only [hc, filter_some, hgone, Bool.false_eq_true, ↓reduceIte]
      exact lookup_erase w s.nonFinalizedViews

/-- A view on the chain is taken out: its block is in the table and its hash
is the committed one. -/
theorem Collecting.take_onChain (h : Collecting s₀ view canonical n s) {b : Block P}
    (hc : s₀.findViewContext n = some c) (hb : c.block = some b)
    (hh : c.blockHash = some b.getHash) (hn : n ∈ canonical)
    (hcert : c.mNotarization.isSome = true)
    (hF : w.store.finalizedBlocks =
      s.persistenceWriter.store.finalizedBlocks.insert b.getHash b.finalized)
    (hN : w.store.nullifiedBlocks = s.persistenceWriter.store.nullifiedBlocks) (hle : n ≤ view) :
    Collecting s₀ view canonical (n + 1)
      { (s.removeView n).commit b.getHash with persistenceWriter := w } := by
  have hgone : stays view canonical n c = false := by simp [stays, isRetained, hb]
  have hthis : s₀.BlockBelow (· ∈ canonical) (n + 1) b := ⟨n, c, Nat.lt_succ_self n, hn, hc, hb⟩
  obtain ⟨hahead, hbehind⟩ := h.removed hc hgone
    { (s.removeView n).commit b.getHash with persistenceWriter := w } fun _ => rfl
  refine ⟨hahead, hbehind, fun v d hv hmem hd => ?_, fun x hx => ?_, fun x b' hb' => ?_,
    hF ▸ h.finalized.insert hn hc hb, hN ▸ h.nullified.pass fun hoff => absurd hn hoff,
    fun hlt d hd => ?_⟩
  · rcases Nat.lt_succ_iff_lt_or_eq.mp hv with hlt | rfl
    · exact h.certified v d hlt hmem hd
    · rw [hc, some.injEq] at hd
      exact hd ▸ hcert
  · change (w.store.finalizedBlocks.lookup x).isSome = true
    rw [hF]
    by_cases hxb : x = b.getHash
    · rw [hxb, lookup_insert, isSome_some]
    · rw [lookup_insert_ne hxb]
      exact h.grows x hx
  · change w.store.finalizedBlocks.lookup x = some b' at hb'
    rw [hF] at hb'
    by_cases hxb : x = b.getHash
    · exact .inr ⟨b, hthis, hxb.symm⟩
    · rw [lookup_insert_ne hxb] at hb'
      rcases h.origin x b' hb' with hold | ⟨b₀, hb₀, hx⟩
      · exact .inl hold
      · exact .inr ⟨b₀, hb₀.mono (Nat.le_succ n), hx⟩
  · -- the last view of the range is the finalized one
    obtain rfl : n = view := by omega
    rw [hc, some.injEq] at hd
    exact hd ▸ hh

/-- A view off the chain is taken out. -/
theorem Collecting.take_offChain (h : Collecting s₀ view canonical n s)
    (hc : s₀.findViewContext n = some c) (hgone : stays view canonical n c = false)
    (hn : n ∉ canonical) (hne : n ≠ view)
    (hF : w.store.finalizedBlocks = s.persistenceWriter.store.finalizedBlocks)
    (hN : ∀ b, c.block = some b → w.store.nullifiedBlocks =
      s.persistenceWriter.store.nullifiedBlocks.insert b.getHash b)
    (hN' : c.block = none → w.store.nullifiedBlocks = s.persistenceWriter.store.nullifiedBlocks) :
    Collecting s₀ view canonical (n + 1) { s.removeView n with persistenceWriter := w } := by
  obtain ⟨hahead, hbehind⟩ := h.removed hc hgone
    { s.removeView n with persistenceWriter := w } fun _ => rfl
  refine ⟨hahead, hbehind, fun v d hv hmem hd => ?_, fun x hx => ?_, fun x b' hb' => ?_,
    hF ▸ h.finalized.pass fun hmem => absurd hmem hn, ?_, fun hlt => h.committed (by omega)⟩
  · rcases Nat.lt_succ_iff_lt_or_eq.mp hv with hlt | rfl
    · exact h.certified v d hlt hmem hd
    · exact absurd hmem hn
  · change (w.store.finalizedBlocks.lookup x).isSome = true
    rw [hF]
    exact h.grows x hx
  · change w.store.finalizedBlocks.lookup x = some b' at hb'
    rw [hF] at hb'
    rcases h.origin x b' hb' with hold | ⟨b₀, hb₀, hx⟩
    · exact .inl hold
    · exact .inr ⟨b₀, hb₀.mono (Nat.le_succ n), hx⟩
  · change Shelved s₀ _ _ _ w.store.nullifiedBlocks
    rcases hblock : c.block with _ | b
    · rw [hN' hblock]
      exact h.nullified.pass fun _ d hd => some.inj (hc.symm.trans hd) ▸ hblock
    · rw [hN b hblock]
      exact h.nullified.insert hn hc hblock

/-- A view of the chain up to `view` without an M-notarization. -/
def Uncertified (s : ViewChain P) (view : Nat) (canonical : List Nat) (w : Nat) : Prop :=
  w ≤ view ∧ w ∈ canonical ∧ ∃ c, s.findViewContext w = some c ∧ ¬ c.mNotarization.isSome = true

variable {peers peers' : PeerSet P} {replicaId : Nat}

/-- **One pass**: it fails when the view is on the chain and not certified,
and the view has been taken out then. -/
theorem Collecting.step (hwf : s₀.WF peers' replicaId)
    (hkey : ∀ w c, s₀.findViewContext w = some c → ∃ key, peers.getPublicKey c.leaderId = some key)
    (hcanonical : ∀ w ∈ canonical, s₀.HasBlock w) (hview : view ∈ canonical) (hle : n ≤ view)
    (h : Collecting s₀ view canonical n s) :
    EndsBy (persistStep view canonical peers n s)
      (fun _ s' => Collecting s₀ view canonical (n + 1) s')
      (fun s' => ∃ w, s₀.Uncertified view canonical w ∧ s'.findViewContext w = none)
      fun _ _ => False := by
  have hfind := h.ahead n le_rfl
  unfold persistStep
  rw [hfind]
  rcases hc : s₀.findViewContext n with _ | c
  · have hmem : n ∉ canonical := by
      intro hmem
      obtain ⟨d, -, hd, -⟩ := hcanonical n hmem
      rw [hc] at hd
      cases hd
    refine h.pass (fun heq => hmem (heq ▸ hview)) ?_ ?_ fun hn => absurd hn hmem
    · rw [hc]
      rfl
    · intro d hd
      rw [hc] at hd
      cases hd
  dsimp only
  split
  case isTrue hretained =>
    -- a retained view has no block, so it is not on the chain
    obtain ⟨hne, hretained⟩ := hretained
    have hstays : stays view canonical n c = true := by simp [stays, hne, hretained]
    simp only [isRetained, Bool.and_eq_true, isNone_iff_eq_none] at hretained
    refine h.pass hne ?_ ?_ fun _ d hd => ?_
    · rw [hc, filter_some, hstays]
      rfl
    · intro d hd
      rw [hc, some.injEq] at hd
      exact hd ▸ hretained.1.2
    · rw [hc, some.injEq] at hd
      exact hd ▸ hretained.1.1.1
  case isFalse hgone =>
    have hstays : stays view canonical n c = false := by
      rw [Bool.eq_false_iff]
      intro hstays
      simp only [stays, Bool.and_eq_true, decide_eq_true_eq] at hstays
      exact hgone hstays
    have hblock : n ∈ canonical → ∃ b, c.block = some b ∧ c.blockHash = some b.getHash := by
      intro hn
      obtain ⟨d, b, hd, hb⟩ := hcanonical n hn
      rw [hc, some.injEq] at hd
      subst hd
      exact ⟨b, hb, (hwf.context n c hc).block_hash b hb⟩
    obtain ⟨key, hkey⟩ := hkey n c hc
    have hout := persistView_fails hkey hview hblock (s.removeView n)
    have hend : (c.mNotarization.isSome = true ∨ n ∉ canonical →
          Collecting s₀ view canonical (n + 1)
            (persistView view canonical peers n c (s.removeView n)).2) ∧
        (persistView view canonical peers n c (s.removeView n)).2.findViewContext n = none := by
      by_cases hn : n ∈ canonical
      · obtain ⟨b, hb, hh⟩ := hblock hn
        obtain ⟨w, hF, hN, heq⟩ := 
          @persistView_onPath _ _ view _ _ peers _ hb hh hn (s.removeView n)
        rw [heq]
        refine ⟨fun hcert => ?_, lookup_erase n s.nonFinalizedViews⟩
        exact h.take_onChain hc hb hh hn (hcert.resolve_right fun hoff => hoff hn) hF hN hle
      · have hne : n ≠ view := fun heq => hn (heq ▸ hview)
        obtain ⟨w, hF, hN, hN', heq⟩ := persistView_offPath peers c hne hn (s.removeView n)
        rw [heq]
        exact ⟨fun _ => h.take_offChain hc hstays hn hne hF hN hN',
          lookup_erase n s.nonFinalizedViews⟩
    have hstate : EndsBy (persistView view canonical peers n c (s.removeView n))
        (fun _ s' => (c.mNotarization.isSome = true ∨ n ∉ canonical →
          Collecting s₀ view canonical (n + 1) s') ∧ s'.findViewContext n = none)
        (fun s' => (c.mNotarization.isSome = true ∨ n ∉ canonical →
          Collecting s₀ view canonical (n + 1) s') ∧ s'.findViewContext n = none)
        fun _ s' => (c.mNotarization.isSome = true ∨ n ∉ canonical →
          Collecting s₀ view canonical (n + 1) s') ∧ s'.findViewContext n = none :=
      ends_iff_state.mpr hend
    refine (hout.and hstate).conseq (fun _ s' hs' => hs'.2.1 ?_) (fun s' hs' => ?_)
      fun _ _ hs' => hs'.1
    · by_cases hn : n ∈ canonical
      · exact .inl (hs'.1 hn)
      · exact .inr hn
    · exact ⟨n, ⟨hle, hs'.1.1, c, hc, hs'.1.2⟩, hs'.2.2⟩

/-- **The loop** comes to its end, or to the first uncertified view of the
chain. -/
theorem persistRange_collects (hwf : s₀.WF peers' replicaId)
    (hkey : ∀ w c, s₀.findViewContext w = some c → ∃ key, peers.getPublicKey c.leaderId = some key)
    (hcanonical : ∀ w ∈ canonical, s₀.HasBlock w) (hview : view ∈ canonical) {len : Nat}
    (hlen : n + len ≤ view + 1) :
    Triple (Collecting s₀ view canonical n) (persistRange view canonical peers (List.range' n len))
      (fun _ => Collecting s₀ view canonical (n + len))
      (fun s' => ∃ w, s₀.Uncertified view canonical w ∧ s'.findViewContext w = none)
      fun _ _ => False :=
  triple_forM_range fun _ _ hi _ h => h.step hwf hkey hcanonical hview (by omega)

end Loop

/-! ## §4 The outcomes of the call -/

/-- Every block of the chain of `view` is held. -/
def Whole (s : ViewChain P) (view : Nat) : Prop := ∀ w, s.OnChain view w → s.HasBlock w

/-- Every view of the chain that is not above `view` is M-notarized. -/
def ChainCertified (s : ViewChain P) (view : Nat) : Prop :=
  ∀ w c, w ≤ view → s.OnChain view w → s.findViewContext w = some c →
    c.mNotarization.isSome = true

/-- The chain after the loop has run to its end. -/
def Collected (s : ViewChain P) (view : Nat) (s' : ViewChain P) : Prop :=
  ∃ canonical, (∀ w, w ∈ canonical ↔ s.OnChain view w) ∧ Collecting s view canonical (view + 1) s'

section Call

variable {s : ViewChain P} {view : Nat} {peers : PeerSet P} {parentHash : Hash P}

theorem finalize_refuse {e : ConsensusError P} (h : s.finalizeCheck view = .refuse e) :
    finalizeWithLNotarization view peers s = (.err e, s) := by
  simp only [finalizeWithLNotarization, h]

theorem finalize_defer (h : s.finalizeCheck view = .defer) :
    finalizeWithLNotarization view peers s = (.ok (), s) := by
  simp only [finalizeWithLNotarization, h]

/-- A chain that runs into itself is followed for ever. -/
theorem finalize_circular (h : s.finalizeCheck view = .proceed parentHash)
    (hends : ¬ s.ChainEnds view) : (finalizeWithLNotarization view peers s).1 = .exhausted := by
  obtain ⟨-, c, b, hc, hb, rfl⟩ := finalizeCheck_proceed h
  have hnone : s.canonicalViews view b.parentBlockHash = none := by
    rw [← canonicalViews_isSome_iff hc hb, not_isSome_iff_eq_none] at hends
    exact hends
  simp only [finalizeWithLNotarization, h, hnone]

/-- A trace without a missing block is one of a whole chain. -/
theorem whole_iff_missing {c : ViewContext P} {b : Block P} {canonical : List Nat}
    {missing : List (Nat × Hash P)} (hc : s.findViewContext view = some c) (hb : c.block = some b)
    (h : s.canonicalViews view b.parentBlockHash = some (canonical, missing)) :
    s.Whole view ↔ missing = [] := by
  constructor
  · intro hwhole
    refine List.eq_nil_iff_forall_not_mem.mpr fun e he => ?_
    obtain ⟨hon, d, hd, hnone, -⟩ := mem_missing hc hb h he
    obtain ⟨d', b', hd', hb'⟩ := hwhole e.1 hon
    rw [hd, some.injEq] at hd'
    rw [← hd', hnone] at hb'
    cases hb'
  · rintro rfl w hw
    refine traceCanonical_hasBlock h ?_ w ((mem_canonicalViews hc hb h).mpr hw)
    simp only [List.mem_singleton, forall_eq]
    exact ⟨c, b, hc, hb⟩

/-- A missing block is remembered and nothing is done. -/
theorem finalize_missing (peers : PeerSet P) (h : s.finalizeCheck view = .proceed parentHash)
    (hends : s.ChainEnds view) (hwhole : ¬ s.Whole view) :
    ∃ missing : List (Nat × Hash P), missing ≠ [] ∧
      (∀ e ∈ missing, s.OnChain view e.1 ∧ ∃ d, s.findViewContext e.1 = some d ∧
        d.block = none ∧ d.blockHash = some e.2) ∧
      finalizeWithLNotarization view peers s =
        (.ok (), { s with pendingCanonicalRecovery := missing }) := by
  obtain ⟨-, c, b, hc, hb, rfl⟩ := finalizeCheck_proceed h
  obtain ⟨⟨canonical, missing⟩, hwalk⟩ :=
    isSome_iff_exists.mp ((canonicalViews_isSome_iff hc hb).mpr hends)
  have hne : missing ≠ [] := fun hnil => hwhole ((whole_iff_missing hc hb hwalk).mpr hnil)
  refine ⟨missing, hne, fun e he => mem_missing hc hb hwalk he, ?_⟩
  have hempty : missing.isEmpty = false := List.isEmpty_eq_false_iff.mpr hne
  simp only [finalizeWithLNotarization, h, hwalk, hempty, Bool.not_false, ↓reduceIte]

/-- A held view that is not above the current one has a range. -/
theorem nonFinalizedViewsUntil_isSome {c : ViewContext P} (hc : s.findViewContext view = some c)
    (hle : view ≤ s.currentView) : s.nonFinalizedViewsUntil view ≠ none := by
  have hkey : view ∈ s.nonFinalizedViews.keys :=
    mem_keys.mp (lookup_isSome.mp (isSome_iff_exists.mpr ⟨c, hc⟩))
  unfold nonFinalizedViewsUntil leastView
  rcases hleast : s.nonFinalizedViews.keys.min? with _ | least
  · rw [List.min?_eq_none_iff] at hleast
    rw [hleast] at hkey
    cases hkey
  · have hlow := (List.min?_eq_some_iff.mp hleast).2 view hkey
    have hmin : ¬ min view s.currentView < least := by omega
    simp only [hmin, ↓reduceIte]
    exact some_ne_none _

/-- **With every block of the chain held**, the loop runs: to its end if every
view of the chain is certified, else to an error after views were taken
out. -/
theorem finalize_whole {replicaId : Nat} (hwf : s.WF peers replicaId)
    (hkey : ∀ w c, s.findViewContext w = some c → ∃ key, peers.getPublicKey c.leaderId = some key)
    (h : s.finalizeCheck view = .proceed parentHash) (hends : s.ChainEnds view)
    (hwhole : s.Whole view) :
    EndsBy (finalizeWithLNotarization view peers s)
      (fun _ s' => s.ChainCertified view ∧ s.Collected view s')
      (fun s' => ¬ s.ChainCertified view ∧
        ∃ w c, s.findViewContext w = some c ∧ s'.findViewContext w = none)
      fun _ _ => False := by
  obtain ⟨hle, c, b, hc, hb, rfl⟩ := finalizeCheck_proceed h
  obtain ⟨⟨canonical, missing⟩, hwalk⟩ :=
    isSome_iff_exists.mp ((canonicalViews_isSome_iff hc hb).mpr hends)
  obtain rfl := (whole_iff_missing hc hb hwalk).mp hwhole
  have hmem : ∀ w, w ∈ canonical ↔ s.OnChain view w := fun w => mem_canonicalViews hc hb hwalk
  unfold finalizeWithLNotarization
  simp only [h, hwalk, List.isEmpty_nil, Bool.not_true, Bool.false_eq_true, ↓reduceIte]
  split
  case h_1 hnone => exact absurd hnone (nonFinalizedViewsUntil_isSome (s := s) hc hle)
  case h_2 range hrange =>
    obtain ⟨least, len, rfl, hleast, hlen⟩ := nonFinalizedViewsUntil_eq hrange
    have hend : least + len = view + 1 := hlen hle
    have hwf' : ({ s with pendingCanonicalRecovery := [] } : ViewChain P).WF peers replicaId :=
      ⟨hwf.viewNumber, hwf.leaderId, hwf.replicaId, hwf.context, hwf.le_current, hwf.past,
        hwf.current, hwf.current_lt⟩
    have hloop := persistRange_collects hwf' hkey (fun w hw => hwhole w ((hmem w).mp hw))
      ((hmem view).mpr (.self s view)) hend.le _
      (Collecting.init canonical hleast (hleast view c hc))
    rw [hend] at hloop
    refine hloop.conseq (fun _ s' hs' => ⟨fun w d hw hon hd => ?_, canonical, hmem, ?_⟩)
      (fun s' hs' => ?_) fun _ _ h => h
    · exact hs'.certified w d (by omega) ((hmem w).mpr hon) hd
    · exact ⟨hs'.ahead, hs'.behind, hs'.certified, hs'.grows, hs'.origin, hs'.finalized,
        hs'.nullified, hs'.committed⟩
    · obtain ⟨w, ⟨hwle, hon, d, hd, hm⟩, hgone⟩ := hs'
      exact ⟨fun hcert => hm (hcert w d hwle ((hmem w).mp hon) hd), w, d, hd, hgone⟩

end Call

end ViewChain

end Minimmit
