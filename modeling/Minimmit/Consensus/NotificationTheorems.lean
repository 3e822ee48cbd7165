/-
Minimmit.Consensus.NotificationTheorems — are finalized transactions notified
exactly once?

`finalize_view` of the state machine reads the hashes of the view's block,
lets the manager finalize, and sends them whenever that returns `Ok`. What
the manager stores may be more (the canonical ancestors come along), less
(a deferred finalization also returns `Ok`) or stored without a notification
(`handle_m_notarization` finalizes on its own, and an error may follow the
write). `FinalizesAlone` describes the finalizations that store the block of
their view and nothing else with transactions; where all of them are such,
the two lists of hashes are one (`notifications_exact`).
-/
import Minimmit.Consensus.BufferTheorems
import Minimmit.Consensus.FinalizationTheorems

namespace Minimmit

open Minimmit.Library Act ViewProgressManager ViewChain List Option

variable {P : Params}

/-- The hashes of a block's transactions. -/
def Block.txHashes (b : Block P) : List (Hash P) := b.transactions.map (·.txHash)

/-- The transaction hashes of all blocks put into FINALIZED_BLOCKS, oldest
first; genesis has none. -/
def Store.finalizedTxHashes (s : Store P) : List (Hash P) := s.finalizedWrites.flatMap Block.txHashes

/-- The blocks stored as finalized after the plan of a view: its own is new if
it is on the chain. -/
theorem planWriter_writes {v w : Nat} {canonical : List Nat} {c : ViewContext P}
    (hhash : w = v → c.blockHash.isSome = true) (writer : PendingStateWriter P) :
    (planWriter v canonical w c writer).store.finalizedWrites =
      writer.store.finalizedWrites ++
        if w = v ∨ w ∈ canonical then (c.block.map Block.finalized).toList else [] := by
  have hblock : ∀ writer : PendingStateWriter P, (planBlock c writer).store.finalizedWrites =
      writer.store.finalizedWrites ++ (c.block.map Block.finalized).toList := by
    intro writer
    unfold planBlock
    cases c.block with
    | none => exact (append_nil _).symm
    | some b => rfl
  have hfin : (planFinalized c writer).store.finalizedWrites =
      writer.store.finalizedWrites ++ (c.block.map Block.finalized).toList := by
    rw [planFinalized, hblock, (finalizeUpTo_blocks writer _).finalizedWrites]
  unfold planWriter
  split
  case isTrue hw => rw [if_pos (hhash hw), hfin, if_pos (.inl hw)]
  case isFalse hw =>
    split
    case isTrue hmem =>
      have hon : w = v ∨ w ∈ canonical := .inr hmem
      rw [if_pos hon]
      split
      · exact hfin
      · exact hblock writer
    case isFalse hmem =>
      rw [if_neg (not_or.mpr ⟨hw, hmem⟩), append_nil]
      unfold planNullified
      rw [← removeNullifiedView_store writer c.viewNumber]
      cases c.block <;> rfl

/-! ## What a finalization stores -/

namespace ViewChain

variable {s : ViewChain P}

/-- The transaction hashes of the blocks stored as finalized so far. -/
def stored (s : ViewChain P) : List (Hash P) := s.persistenceWriter.store.finalizedTxHashes

/-- The transaction hashes of the block of a held view. -/
def txHashesOf (s : ViewChain P) (v : Nat) : List (Hash P) :=
  (((s.findViewContext v).bind (·.block)).map Block.txHashes).getD []

theorem txHashesOf_eq {v : Nat} {c : ViewContext P} {b : Block P}
    (hc : s.findViewContext v = some c) (hb : c.block = some b) : s.txHashesOf v = b.txHashes := by
  simp [txHashesOf, hc, hb]

/-- Every held block has its hash in the context. -/
def Hashed (s : ViewChain P) : Prop :=
  ∀ w c b, s.findViewContext w = some c → c.block = some b → c.blockHash.isSome = true

theorem WF.hashed {peers : PeerSet P} {replicaId : Nat} (h : s.WF peers replicaId) :
    s.Hashed := fun w c b hc hb => by
  rw [(h.context w c hc).block_hash b hb]
  rfl

/-- An attempt to finalize that is not refused stores the transactions of its
view and no others: if it is deferred the block has none; if it goes on, the
canonical views that are held have their M-notarization, and those below the
finalized one have blocks without transactions. -/
def FinalizesAlone (s : ViewChain P) (v : Nat) : Prop :=
  match s.finalizeCheck v with
  | .refuse _ => True
  | .defer => s.txHashesOf v = []
  | .proceed parentHash => ∀ walk ∈ s.canonicalViews v parentHash,
      if walk.2 = [] then ∀ w ∈ walk.1, ∀ c ∈ s.findViewContext w,
        c.mNotarization.isSome = true ∧ (w ≠ v → s.txHashesOf w = [])
      else s.txHashesOf v = []

instance (s : ViewChain P) (v : Nat) : Decidable (s.FinalizesAlone v) :=
  match h : s.finalizeCheck v with
  | .refuse _ => .isTrue (by simp [FinalizesAlone, h])
  | .defer => decidable_of_iff (s.txHashesOf v = []) (by simp [FinalizesAlone, h])
  | .proceed parentHash => decidable_of_iff (∀ walk ∈ s.canonicalViews v parentHash,
      if walk.2 = [] then ∀ w ∈ walk.1, ∀ c ∈ s.findViewContext w,
        c.mNotarization.isSome = true ∧ (w ≠ v → s.txHashesOf w = [])
      else s.txHashesOf v = []) (by simp only [FinalizesAlone, h])

section Loop

variable {s₀ : ViewChain P} {v : Nat} {canonical : List Nat} {peers : PeerSet P}
  {c : ViewContext P} {b : Block P}

/-- What the loop needs of the chain it starts with. -/
structure Alone (s₀ : ViewChain P) (v : Nat) (canonical : List Nat) : Prop where
  hash : s₀.Hashed
  certified : ∀ w ∈ canonical, ∀ c, s₀.findViewContext w = some c → c.mNotarization.isSome = true
  empty : ∀ w ∈ canonical, w ≠ v → s₀.txHashesOf w = []
  self : v ∈ canonical

/-- Persisting a view stores its transactions if it is the finalized one, and
none otherwise. -/
theorem persistView_stored (h : s₀.Alone v canonical) {w : Nat}
    (hc : s₀.findViewContext w = some c) (hself : w = v → c.block.isSome = true)
    (s : ViewChain P) :
    Ends (persistView v canonical peers w c s)
      (fun _ s' => s'.stored = s.stored ++ if w = v then s₀.txHashesOf w else [])
      (fun _ => False) fun _ => True := by
  have hhash : c.block.isSome = true → c.blockHash.isSome = true := by
    intro hb
    obtain ⟨b, hb⟩ := isSome_iff_exists.mp hb
    exact h.hash w c b hc hb
  have hstate : (persistView v canonical peers w c s).2.stored =
      s.stored ++ if w = v then s₀.txHashesOf w else [] := by
    obtain ⟨writer, hsame, heq⟩ := persistView_plan v canonical peers w c s
    rw [heq]
    show writer.store.finalizedTxHashes = _
    rw [Store.finalizedTxHashes, hsame.tables.finalizedWrites,
      planWriter_writes fun hw => hhash (hself hw), flatMap_append]
    refine congrArg (s.stored ++ ·) ?_
    have hown : (c.block.map Block.finalized).toList.flatMap Block.txHashes = s₀.txHashesOf w := by
      rw [txHashesOf, hc, bind_some]
      cases c.block <;> simp [Block.txHashes, Block.finalized]
    by_cases hw : w = v
    · rw [if_pos (.inl hw), if_pos hw, hown]
    · rw [if_neg hw]
      split
      · next hon => rw [hown, h.empty w (hon.resolve_left hw) hw]
      · rfl
  refine EndsBy.conseq (.and (persistView_outcome s) (ends_iff_state.mpr hstate))
    (fun _ _ hs => hs.2) (fun _ hs => ?_) fun _ _ _ => trivial
  obtain ⟨hon, ⟨hw, hb⟩ | ⟨hb, hnone⟩ | hm⟩ := hs.1
  · rw [isSome_iff_ne_none] at hself
    exact hself hw hb
  · have := hhash hb
    rw [hnone] at this
    cases this
  · exact hm (h.certified w (hon.elim (fun hw => hw ▸ h.self) id) c hc)

/-- The state of the loop before it comes to view `n`. -/
structure StoreLoop (s₀ : ViewChain P) (v : Nat) (b : Block P) (n : Nat) (s : ViewChain P) :
    Prop where
  ahead : ∀ w, n ≤ w → s.findViewContext w = s₀.findViewContext w
  stored : s.stored = if v < n then s₀.stored ++ b.txHashes else s₀.stored

theorem persistView_views (v : Nat) (canonical : List Nat) (peers : PeerSet P) (w : Nat)
    (c : ViewContext P) (s : ViewChain P) :
    (persistView v canonical peers w c s).2.nonFinalizedViews = s.nonFinalizedViews := by
  obtain ⟨writer, -, heq⟩ := persistView_plan v canonical peers w c s
  rw [heq]
  show (planCommit v canonical w c s).nonFinalizedViews = _
  unfold planCommit
  split
  · split <;> rfl
  · rfl

theorem StoreLoop.step (h : s₀.Alone v canonical) (hc : s₀.findViewContext v = some c)
    (hb : c.block = some b) (n : Nat) :
    Spec (StoreLoop s₀ v b n) (persistStep v canonical peers n)
      (fun _ => StoreLoop s₀ v b (n + 1)) (fun _ => False) fun _ => True := by
  intro s hs
  have hfind := hs.ahead n (Nat.le_refl n)
  have hahead : ∀ d, Ends (persistView v canonical peers n d (s.removeView n))
      (fun _ s' => ∀ w, n + 1 ≤ w → s'.findViewContext w = s₀.findViewContext w)
      (fun s' => ∀ w, n + 1 ≤ w → s'.findViewContext w = s₀.findViewContext w)
      (fun s' => ∀ w, n + 1 ≤ w → s'.findViewContext w = s₀.findViewContext w) := by
    intro d
    refine ends_iff_state.mpr fun w hw => ?_
    unfold findViewContext
    rw [persistView_views]
    exact (removeView_find_ne (by omega)).trans (hs.ahead w (by omega))
  unfold persistStep
  rw [hfind]
  by_cases hn : n = v
  · subst hn
    have hold := hs.stored
    rw [if_neg (Nat.lt_irrefl n)] at hold
    simp only [hc, ne_eq, not_true_eq_false, false_and, ↓reduceIte]
    refine EndsBy.conseq (.and (persistView_stored h hc (fun _ => by rw [hb]; rfl) _) (hahead c))
      ?_ (fun _ h => h.1) fun _ _ h => h.1
    intro _ s' hs'
    refine ⟨hs'.2, ?_⟩
    rw [if_pos (Nat.lt_succ_self n), hs'.1, if_pos rfl, txHashesOf_eq hc hb]
    exact congrArg (· ++ b.txHashes) hold
  · have hsame : (if v < n + 1 then s₀.stored ++ b.txHashes else s₀.stored) =
        if v < n then s₀.stored ++ b.txHashes else s₀.stored := by
      have hiff : v < n + 1 ↔ v < n := by omega
      simp only [hiff]
    have hidle : StoreLoop s₀ v b (n + 1) s :=
      ⟨fun w hw => hs.ahead w (by omega), hs.stored.trans hsame.symm⟩
    cases hd : s₀.findViewContext n with
    | none => exact hidle
    | some d =>
      dsimp only
      split
      · exact hidle
      refine EndsBy.conseq (.and (persistView_stored h hd (fun heq => absurd heq hn) _) (hahead d))
        ?_ (fun _ h => h.1) fun _ _ h => h.1
      intro _ s' hs'
      refine ⟨hs'.2, ?_⟩
      rw [hs'.1, if_neg hn, append_nil]
      exact hidle.stored

/-- **A finalization that reports success** has stored the transactions of its
view; one that fails has stored none. -/
theorem finalize_stored (hhash : s₀.Hashed) (h : s₀.FinalizesAlone v) :
    Ends (finalizeWithLNotarization v peers s₀)
      (fun _ s' => s'.stored = s₀.stored ++ s₀.txHashesOf v) (fun s' => s'.stored = s₀.stored)
      fun _ => True := by
  unfold FinalizesAlone at h
  unfold finalizeWithLNotarization
  rcases hcheck : s₀.finalizeCheck v with e | _ | parentHash
  · rfl
  · rw [hcheck] at h
    exact (by rw [h, append_nil] : s₀.stored = s₀.stored ++ s₀.txHashesOf v)
  · rw [hcheck] at h
    dsimp only at h ⊢
    obtain ⟨hle, c, b, hc, hb, rfl⟩ := finalizeCheck_proceed hcheck
    split
    case h_1 => trivial
    case h_2 canonical missing hwalk =>
      have hwalked := h (canonical, missing) hwalk
      dsimp only at hwalked
      split
      case isTrue hmiss =>
        rw [if_neg (by simpa using hmiss)] at hwalked
        exact (by rw [hwalked, append_nil] : s₀.stored = s₀.stored ++ s₀.txHashesOf v)
      case isFalse hmiss =>
        rw [if_pos (by simpa using hmiss)] at hwalked
        split
        case h_1 => rfl
        case h_2 range hrange =>
          obtain ⟨least, len, rfl, hleast, hlen⟩ := nonFinalizedViewsUntil_eq hrange
          have halone : s₀.Alone v canonical :=
            { hash := hhash
              certified := fun w hw d hd => (hwalked w hw d hd).1
              empty := fun w hw hne => by
                cases hd : s₀.findViewContext w with
                | none => simp [txHashesOf, hd]
                | some d => exact (hwalked w hw d hd).2 hne
              self := traceCanonical_mem hwalk mem_cons_self }
          have hinit : StoreLoop s₀ v b least { s₀ with pendingCanonicalRecovery := missing } :=
            ⟨fun _ _ => rfl, by rw [if_neg (Nat.not_lt.mpr (hleast v c hc))]; rfl⟩
          have hloop : Spec (StoreLoop s₀ v b least)
              (persistRange v canonical peers (range' least len))
              (fun _ => StoreLoop s₀ v b (least + len)) (fun _ => False) fun _ => True :=
            spec_forM_range fun i _ _ => StoreLoop.step halone hc hb i
          refine (hloop _ hinit).conseq (fun _ s' hs' => ?_) (fun _ h => h.elim) fun _ h => h
          rw [hs'.stored, hlen hle, if_pos (Nat.lt_succ_self v), txHashesOf_eq hc hb]

/-- What passes the checks of the view itself is finalizable. -/
theorem finalize_finalizable {s : ViewChain P} : Ends (finalizeWithLNotarization v peers s)
      (fun _ _ => ∀ c b, s.findViewContext v = some c → c.block = some b → c.Finalizable)
      (fun _ => True) fun _ => True := by
  by_cases hrefused : ∃ e, s.finalizeCheck v = .refuse e
  · obtain ⟨e, he⟩ := hrefused
    simp [finalizeWithLNotarization, he]
  · have hfin : ∀ c b, s.findViewContext v = some c → c.block = some b → c.Finalizable :=
      fun c b hc hb => ⟨by rw [hb]; rfl, finalizeCheck_quorum (not_exists.mp hrefused) hc⟩
    exact (ends_true _).conseq (fun _ _ _ => hfin) (fun _ h => h) fun _ h => h

end Loop

end ViewChain

/-! ## What a manager stores without a notification -/

/-- A message that makes `handle_m_notarization` finalize, which notifies
nobody, finds no finalizable block with transactions. -/
def Moment.FinalizesNothing : Moment P → Prop
  | .processed (.mNotarization m) chain => m.view = chain.currentView →
      ∀ c ∈ chain.findViewContext m.view, ∀ b ∈ c.block, c.Finalizable → b.txHashes = []
  | _ => True

instance : (e : Moment P) → Decidable e.FinalizesNothing
  | .processed (.mNotarization _) _ => inferInstanceAs (Decidable (_ → _))
  | .processed (.blockProposal _) _ | .processed (.vote _) _ | .processed (.nullify _) _
  | .processed (.nullification _) _ | .processed (.blockRecoveryRequest ..) _
  | .processed (.blockRecoveryResponse ..) _ | .voted .. => isTrue trivial

namespace ViewProgressManager

/-- If every finalization so far stored its view and nothing else, the
transactions stored are `hashes`. -/
def Balanced (hashes : List (Hash P)) (vm : ViewProgressManager P) : Prop :=
  (∀ f ∈ vm.finalizations, f.2.FinalizesAlone f.1) → hashes = vm.viewChain.stored

variable {hashes : List (Hash P)} {v : Nat} {vm : ViewProgressManager P}

/-- The observation behind it. -/
def books (vm : ViewProgressManager P) : List (Nat × ViewChain P) × List (Hash P) :=
  (vm.finalizations, vm.viewChain.stored)

theorem stored_blind : ViewChain.Blind (ViewChain.stored (P := P)) where
  setContext _ _ _ := rfl
  publishDiff s v c d := by
    unfold stored publishDiff onWriter
    rw [addMNotarizedDiff_store]
  removePendingDiff s v := by
    unfold stored removePendingDiff onWriter
    rw [removeNullifiedView_store]

theorem books_blind : Blind (books (P := P)) where
  chain _ := ⟨fun s v c => congrArg (Prod.mk _) (stored_blind.setContext s v c),
    fun s v c d => congrArg (Prod.mk _) (stored_blind.publishDiff s v c d),
    fun s v => congrArg (Prod.mk _) (stored_blind.removePendingDiff s v)⟩
  validated _ _ := rfl
  cooldowns _ _ := rfl
  recovery _ _ := rfl

theorem Balanced.of_books {vm' : ViewProgressManager P} (h : Balanced hashes vm)
    (hbooks : vm'.books = vm.books) : Balanced hashes vm' := by
  obtain ⟨hfin, hstored⟩ := Prod.mk.inj hbooks
  intro halone
  rw [h (hfin ▸ halone)]
  exact hstored.symm

theorem balanced_spec {α : Type} {op : Op P α} (h : Preserves (books (P := P)) op) :
    Spec (Balanced hashes) op (fun _ => Balanced hashes) (Balanced hashes) fun _ => True :=
  fun vm hvm => (ends_iff_state.mpr (hvm.of_books (h vm))).conseq (fun _ _ h => h)
    (fun _ h => h) fun _ _ => trivial

/-- A finalization adds the transactions of its view if it reports success,
and then the view was finalizable. -/
theorem finalizeView_balanced (hhash : vm.viewChain.Hashed) (h : Balanced hashes vm) :
    Ends (finalizeView v vm)
      (fun _ vm' => Balanced (hashes ++ vm.viewChain.txHashesOf v) vm' ∧
        ∀ c b, vm.viewChain.findViewContext v = some c → c.block = some b → c.Finalizable)
      (Balanced hashes) fun _ => True := by
  have hends : (∀ f ∈ vm.finalizations ++ [(v, vm.viewChain)], f.2.FinalizesAlone f.1) →
      Ends (finalizeWithLNotarization v vm.peers vm.viewChain)
        (fun _ s' => s'.stored = hashes ++ vm.viewChain.txHashesOf v)
        (fun s' => s'.stored = hashes) fun _ => True := by
    intro halone
    have hbefore := h fun f hf => halone f (mem_append_left _ hf)
    rw [hbefore]
    exact finalize_stored hhash (halone _ (mem_append_right _ mem_cons_self))
  have hfin := @ViewChain.finalize_finalizable _ v vm.peers vm.viewChain
  unfold finalizeView
  simp only [bind_run, modify_run, get_run, onChain, Act.zoom]
  rcases hr : finalizeWithLNotarization v vm.peers vm.viewChain with ⟨o, chain⟩
  rw [hr] at hends hfin
  cases o with
  | ok a => exact ⟨fun halone => (hends halone).symm, hfin⟩
  | err e => exact fun halone => (hends halone).symm
  | panic => trivial
  | exhausted => trivial

/-- The hashes a notification is made of. -/
theorem getBlockTxHashes_txHashesOf (v : Nat) (vm : ViewProgressManager P) :
    Ends (getBlockTxHashes v vm)
      (fun hashes vm' => vm' = vm ∧ hashes = vm.viewChain.txHashesOf v) (· = vm) fun _ => False := by
  refine Replica.requireContext_bind_ends fun c hc => ?_
  cases hb : c.block with
  | none => rfl
  | some b => exact ⟨rfl, (txHashesOf_eq hc hb).symm⟩

/-- Finalizing `v` stores no transactions. -/
structure Quiet (v : Nat) (s : ViewChain P) : Prop where
  hashed : s.Hashed
  silent : ∀ c b, s.findViewContext v = some c → c.block = some b → c.Finalizable →
    b.txHashes = []

theorem routeMNotarization_quiet {m : MNotarization P} {peers : PeerSet P} :
    Maintains (Quiet m.view) (routeMNotarization (P := P) m peers) := by
  intro s hs
  refine (ends_iff_state (X := Quiet m.view)).mp ?_
  refine routeMNotarization_rule hs (fun _ => hs) fun c hc => ?_
  have hkeep : ∀ c' : ViewContext P, c'.block = c.block →
      (c'.block.isSome = true → c'.blockHash.isSome = true) →
      (c'.Finalizable → c.Finalizable) → Quiet m.view (s.setContext m.view c') := by
    intro c' hblock hhash hback
    refine ⟨fun w d b hd hb => ?_, fun d b hd hb hfin => ?_⟩
    · by_cases hw : w = m.view
      · subst hw
        rw [findViewContext_setContext_self] at hd
        obtain rfl := some.inj hd
        exact hhash (by rw [hb]; rfl)
      · rw [findViewContext_setContext_ne _ _ hw] at hd
        exact hs.hashed w d b hd hb
    · rw [findViewContext_setContext_self] at hd
      obtain rfl := some.inj hd
      exact hs.silent c b hc (hblock.symm.trans hb) (hback hfin)
  have hhashed : c.block.isSome = true → c.blockHash.isSome = true := by
    intro hb
    obtain ⟨b, hb⟩ := isSome_iff_exists.mp hb
    exact hs.hashed m.view c b hc hb
  have hsame := hkeep c rfl hhashed id
  refine ViewContext.addMNotarization_rule hsame (fun _ => hsame) fun _ r c' hadded => ?_
  -- a view without a hash has no block, and is not finalizable
  have hnone : c.blockHash = none → ∀ {p : Prop}, c.block.isSome = true → p := by
    intro hnone p hb
    have hsome := hhashed hb
    rw [hnone] at hsome
    cases hsome
  cases hadded with
  | conflict | known => exact hsame
  | adoptHash hash | adopt hash => exact hkeep _ rfl (fun _ => rfl) fun hfin => hnone hash hfin.1
  | store => exact hkeep _ rfl hhashed id

/-- A view that was entered adds one context. -/
theorem enterView_find {s : ViewChain P} {next c : ViewContext P} {w : Nat}
    (h : (s.enterView next).findViewContext w = some c) :
    c = next ∨ s.findViewContext w = some c := by
  by_cases hw : w = next.viewNumber
  · subst hw
    exact .inl (some.inj
      ((findViewContext_setContext_self ..).symm.trans h)).symm
  · exact .inr ((findViewContext_setContext_ne _ _ hw).symm.trans h)

section Open

variable {newView : Nat} {parent : Hash P} {progress : ViewContext P → ViewChain.Op P Unit}
  {ready : ViewContext P → Bool} {before : ViewChain P → ViewChain P}
  (hprogress : Progresses progress ready before)
include hprogress

/-- Opening a view stores nothing. -/
theorem openView_books (hbefore : ∀ s : ViewChain P, (before s).stored = s.stored) :
    Preserves books (openView newView parent progress) := by
  intro vm
  refine (ends_iff_state (X := (books · = vm.books))).mp ?_
  exact openView_rule hprogress (fun _ => rfl) rfl fun _ _ _ _ _ =>
    congrArg (Prod.mk _) (hbefore vm.viewChain)

/-- The view that is opened has no block yet. -/
theorem openView_quiet
    (hbefore : ∀ (s : ViewChain P) v, (before s).findViewContext v = s.findViewContext v) :
    Maintains (fun vm => Quiet v vm.viewChain) (openView newView parent progress) := by
  intro vm hvm
  refine (ends_iff_state (X := (Quiet v <| viewChain ·))).mp ?_
  refine openView_rule hprogress (fun _ => hvm) hvm fun _ _ _ _ _ => ?_
  refine ⟨fun w c b hc hb => ?_, fun c b hc hb => ?_⟩
  · rcases enterView_find hc with rfl | hc
    · cases hb
    · exact hvm.hashed w c b ((hbefore _ w).symm.trans hc) hb
  · rcases enterView_find hc with rfl | hc
    · cases hb
    · exact hvm.silent c b ((hbefore _ v).symm.trans hc) hb

end Open

theorem openOnMNotarization_books (newView : Nat) (parent : Hash P) :
    Preserves books (openView newView parent ViewChain.progressWithMNotarization) :=
  openView_books ⟨_, fun _ _ => rfl⟩ fun s => stored_blind.onMNotarization s s.currentView

theorem openOnMNotarization_quiet (newView : Nat) (parent : Hash P) :
    Maintains (fun vm => Quiet v vm.viewChain)
      (openView newView parent progressWithMNotarization) :=
  openView_quiet ⟨_, fun _ _ => rfl⟩ fun s w => findViewContext_onMNotarization s _ w

theorem progressAfterCascade_books (newView : Nat) :
    Preserves (books (P := P)) (progressAfterCascade newView) :=
  preserves_get_bind fun _ => preserves_bind
    (openView_books ⟨_, fun _ _ => rfl⟩ fun _ => rfl) fun _ => preserves_pure _

theorem handleNullification_books (n : Nullification P) :
    Preserves books (handleNullification n) := by
  refine preserves_get_bind fun vm => preserves_ite
    (preserves_ite (fun _ => rfl) (preserves_pure _)) ?_
  refine preserves_bind (Blind.onChain fun vm => (books_blind.chain vm).routeNullification _ _)
    fun broadcast => preserves_get_bind fun vm' => ?_
  refine preserves_ite (preserves_pure _) (preserves_ite ?_ ?_)
  · exact preserves_bind (openView_books ⟨_, fun _ _ => rfl⟩ fun _ => rfl) fun _ =>
      preserves_pure _
  · exact preserves_ite (preserves_pure _) (preserves_pure _)

/-- A quiet finalization stores nothing. -/
theorem finalizeView_quiet (hquiet : Quiet v vm.viewChain) (h : Balanced hashes vm) :
    Ends (finalizeView v vm) (fun _ => Balanced hashes) (Balanced hashes) fun _ => True := by
  refine (finalizeView_balanced hquiet.hashed h).conseq (fun _ vm' hvm' => ?_) (fun _ h => h)
    fun _ h => h
  have hnone : vm.viewChain.txHashesOf v = [] := by
    unfold txHashesOf
    cases hc : vm.viewChain.findViewContext v with
    | none => rfl
    | some c =>
      cases hb : c.block with
      | none => simp [hb]
      | some b => simp [hb, hquiet.silent c b hc hb (hvm'.2 c b hc hb)]
  simpa [hnone] using hvm'.1

theorem leaveView_balanced {h : Hash P} :
    Spec (fun vm => Balanced hashes vm ∧ Quiet v vm.viewChain) (leaveView v h)
      (fun _ => Balanced hashes) (Balanced hashes) fun _ => True := by
  refine spec_bind (Q := fun _ vm => Balanced hashes vm ∧ Quiet v vm.viewChain) ?_ fun _ => ?_
  · rintro vm ⟨hbal, hquiet⟩
    exact (EndsBy.and (balanced_spec (openOnMNotarization_books _ _) vm hbal)
      ((openOnMNotarization_quiet _ _).spec vm hquiet)).conseq (fun _ _ h => h)
      (fun _ h => h.1) fun _ _ _ => trivial
  · have hfin : Spec (fun vm => Balanced hashes vm ∧ Quiet v vm.viewChain) (finalizeView v)
        (fun _ => Balanced hashes) (Balanced hashes) fun _ => True :=
      fun vm h => finalizeView_quiet h.2 h.1
    refine (spec_attempt hfin).weaken (fun _ h => h) fun r vm h => ?_
    cases r <;> exact h

theorem handleMNotarization_balanced {m : MNotarization P} (hhash : vm.viewChain.Hashed)
    (hnone : Moment.FinalizesNothing (.processed (.mNotarization m) vm.viewChain))
    (hbal : Balanced hashes vm) (fuel : Nat) :
    Ends (handleMNotarization fuel m vm) (fun _ => Balanced hashes) (Balanced hashes)
      fun _ => True := by
  refine handleMNotarization_rule (M := fun _ vm' => Balanced hashes vm' ∧
    (m.view = vm.viewChain.currentView → Quiet m.view vm'.viewChain))
    ⟨fun _ => hbal, hbal⟩ rfl ?_ fun r x hx => ?_
  · have hbooks := balanced_spec (Blind.onChain fun x =>
      (books_blind.chain x).routeMNotarization m vm.peers) vm hbal
    have hquiet : Ends (onChain (routeMNotarization m vm.peers) vm)
        (fun _ vm' => m.view = vm.viewChain.currentView → Quiet m.view vm'.viewChain)
        (fun _ => True) fun _ => True :=
      ends_onChain ((ends_iff_state.mpr fun hcur => routeMNotarization_quiet vm.viewChain
        ⟨hhash, fun c b hc hb => hnone hcur c hc b hb⟩).conseq (fun _ _ h => h)
        (fun _ _ => trivial) fun _ _ => trivial)
    exact (EndsBy.and hbooks hquiet).conseq (fun _ _ h => h) (fun _ h => h.1) fun _ _ _ => trivial
  rintro vm' ⟨hbal', hquiet⟩
  have hpending := balanced_spec (books_blind.processAllPendingBlocks fuel) vm' hbal'
  cases hx with
  | plain | nullify | vote => exact hbal'
  | voteAndLeave _ hcur | leave _ hcur =>
    exact asked (leaveView_balanced vm' ⟨hbal', hquiet hcur⟩) fun _ => triple_pure fun _ h => h
  | voteAndNotarize | notarize => exact asked hpending fun _ => triple_pure fun _ h => h

/-- **What a message stores**, if no M-notarization finalizes, is nothing. -/
theorem processConsensusMsg_balanced {message : ConsensusMessage P} (hhash : vm.viewChain.Hashed)
    (hnone : Moment.FinalizesNothing (.processed message vm.viewChain))
    (hbal : Balanced hashes vm) (fuel : Nat) :
    Ends (processConsensusMsg fuel message vm) (fun _ => Balanced hashes) (Balanced hashes)
      fun _ => True := by
  cases message with
  | blockProposal block => exact balanced_spec (books_blind.handleBlockProposal fuel block) vm hbal
  | vote vote => exact balanced_spec (books_blind.handleVote fuel vote) vm hbal
  | nullify nullify => exact balanced_spec (books_blind.handleNullify nullify) vm hbal
  | mNotarization m => exact handleMNotarization_balanced hhash hnone hbal fuel
  | nullification n => exact balanced_spec (handleNullification_books n) vm hbal
  | blockRecoveryRequest view blockHash =>
    exact balanced_spec (Blind.handleBlockRecoveryRequest view blockHash) vm hbal
  | blockRecoveryResponse view block =>
    exact balanced_spec (books_blind.handleBlockRecoveryResponse view block) vm hbal

end ViewProgressManager

/-! ## The replica -/

namespace Replica

/-- The transaction hashes the mempool was told about. -/
def notifiedTxHashes (s : Replica P) : List (Hash P) := s.notified.flatMap (·.txHashes)

/-- What was told is what was stored, if every finalization stored its view
and nothing else. -/
def Exact (s : Replica P) : Prop := Balanced s.notifiedTxHashes s.viewManager

/-- The observation behind it. -/
def accounts (s : Replica P) :
    (List (Nat × ViewChain P) × List (Hash P)) × List (FinalizedNotification P) :=
  (s.viewManager.books, s.notified)

theorem accounts_blind : Blind (accounts (P := P)) where
  manager _ :=
    { chain := fun vm => ⟨fun s v c => congrArg (·, _) ((books_blind.chain vm).setContext s v c),
        fun s v c d => congrArg (·, _) ((books_blind.chain vm).publishDiff s v c d),
        fun s v => congrArg (·, _) ((books_blind.chain vm).removePendingDiff s v)⟩
      validated := fun _ _ => rfl
      cooldowns := fun _ _ => rfl
      recovery := fun _ _ => rfl }
  bookkeeping _ _ _ _ _ _ := rfl

theorem exact_spec {α : Type} {op : Op P α} (h : Preserves (accounts (P := P)) op) :
    Spec Exact op (fun _ => Exact) Exact fun _ => True := by
  intro s hs
  have hkeep : Exact (op s).2 := by
    obtain ⟨hbooks, hnotified⟩ := Prod.mk.inj (h s)
    unfold Exact notifiedTxHashes
    rw [hnotified]
    exact hs.of_books hbooks
  exact (ends_iff_state.mpr hkeep).conseq (fun _ _ h => h) (fun _ h => h) fun _ _ => trivial

/-- An operation of the manager, which notifies nobody. -/
theorem onManager_exact {α : Type} {op : ViewProgressManager.Op P α} {s : Replica P}
    (h : Ends (op s.viewManager) (fun _ => Balanced s.notifiedTxHashes)
      (Balanced s.notifiedTxHashes) fun _ => True) :
    Ends (onManager op s) (fun _ => Exact) Exact fun _ => True := by
  unfold onManager Act.zoom
  rcases hr : op s.viewManager with ⟨o, vm⟩
  rw [hr] at h
  cases o <;> exact h

/-- **`finalize_view` tells what it stores.** -/
theorem finalizeView_exact (v : Nat) :
    Spec (fun s : Replica P => s.chain.Hashed ∧ s.Exact) (finalizeView v) (fun _ => Exact) Exact
      fun _ => True := by
  refine spec_get_bind fun s ⟨hhash, hs⟩ => ?_
  refine spec_ite (fun _ => spec_pure fun _ h => h.2.2) fun _ => ?_
  refine spec_bind (Q := fun hashes s' => s' = s ∧ hashes = s.chain.txHashesOf v) ?_
    fun hashes => ?_
  · refine spec_onManager ?_
    rintro s' ⟨rfl, -⟩
    refine (getBlockTxHashes_txHashesOf v s'.viewManager).conseq ?_ ?_ fun _ h => h.elim
    · rintro _ vm ⟨rfl, rfl⟩
      exact ⟨rfl, rfl⟩
    · rintro _ rfl
      exact hs
  refine spec_bind (Q := fun _ s' => Balanced (s'.notifiedTxHashes ++ hashes) s'.viewManager) ?_
    fun _ => spec_modify fun s' h => ?_
  · refine spec_onManager ?_
    rintro s' ⟨rfl, rfl⟩
    exact (finalizeView_balanced hhash hs).conseq (fun _ _ h => h.1) (fun _ h => h) fun _ h => h
  · simpa [Exact, notifiedTxHashes] using h

section Runs

variable {cfg : Config P} {A : Admission cfg} {s : Replica P}

theorem At.hashed {s₀ : Replica P} (hat : At A s₀ s) (h₀ : s₀.WF A) : s.chain.Hashed :=
  (hat.wf h₀).chain.hashed

/-- An operation that stores nothing, then a finalization. -/
theorem then_finalizeView_exact {op : Op P Unit} (hwf : s.WF A) (hs : s.Exact)
    (hop : Preserves (accounts (P := P)) op) {E X : Replica P → Prop}
    (hat : Ends (op s) (fun _ => At A s) E X) (v : Nat) :
    Ends ((op >>= fun _ => finalizeView v) s) (fun _ => Exact) Exact fun _ => True := by
  refine spec_bind (P := (· = s)) (Q := fun _ s' => s'.chain.Hashed ∧ s'.Exact) ?_
    (fun _ => finalizeView_exact v) s rfl
  rintro _ rfl
  exact (EndsBy.and hat (exact_spec hop _ hs)).conseq (fun _ _ h => ⟨h.1.hashed hwf, h.2⟩)
    (fun _ h => h.2) fun _ _ _ => trivial

theorem progressAfterCascade_accounts (v : Nat) :
    Preserves (accounts (P := P)) (onManager (progressAfterCascade v)) :=
  preserves_onManager fun _ vm => congrArg (·, _) (progressAfterCascade_books v vm)

theorem eventPrefix_exact {event : ViewProgressEvent P} (hwf : s.WF A) (hp : Promised A s event s)
    (hs : s.Exact) :
    Ends (eventPrefix cfg.env event s) (fun _ => Exact) Exact fun _ => True := by
  have hdone : ∀ {op : Op P Unit}, Ends (op s) (fun _ => Exact) Exact (fun _ => True) →
      Ends ((op >>= fun _ => pure (Rest.done (P := P))) s) (fun _ => Exact) Exact fun _ =>
        True := by
    intro op hop
    refine spec_bind (P := (· = s)) (Q := fun _ => Exact) ?_ (fun _ => spec_pure fun _ h => h) s rfl
    rintro _ rfl
    exact hop
  have hkeep : ¬ event.Finalizes →
      Ends (eventPrefix cfg.env event s) (fun _ => Exact) Exact fun _ => True := fun hnot =>
    exact_spec (accounts_blind.eventPrefix cfg.env event (fun _ h => absurd (finalizes_of_part h) hnot)
      progressAfterCascade_accounts) s hs
  cases event with
  | shouldFinalize v h => exact hdone (finalizeView_exact v s ⟨hwf.chain.hashed, hs⟩)
  | shouldVoteAndFinalize v h =>
    have hvote : Ends (voteForBlock cfg.env v h s) (fun _ => At A s) (At A s) (At A s) :=
      (voteForBlock_spec s ⟨hp.1, hp.2, trivial⟩ (K := fun _ => True)).conseq (fun _ _ h => h.1)
        (fun _ h => h) fun _ h => h
    have hboth := hdone (then_finalizeView_exact hwf hs
      (accounts_blind.voteForBlock cfg.env v h) hvote v)
    rwa [Act.bind_bind] at hboth
  | _ => exact hkeep id

/-- The parts of the event loop tell what they store. -/
theorem exact_rules : Rules A Moment.FinalizesNothing (fun _ => True) Exact (fun _ => Exact)
    fun _ _ => True where
  ask h := h
  buffer _ _ h := h
  unbuffer _ h := h
  exhausted _ := trivial
  process {s m fuel} hs hJ hC _ _ :=
    onManager_exact (processConsensusMsg_balanced hs.wf.chain.hashed hC hJ fuel)
  tick {s now} hs hJ _ := onManager_exact (balanced_spec (books_blind.tick cfg.env now) _ hJ)
  event {s event} hs hp hD _ := eventPrefix_exact hs.wf hp hD
  finalize {s v} hs hJ _ := finalizeView_exact v s ⟨hs.wf.chain.hashed, hJ⟩
  refused _ h := h
  own {s view parent fuel now} hs hJ _ hC _ :=
    onManager_exact (processConsensusMsg_balanced hs.wf.chain.hashed hC hJ fuel)
  ownVote {s event signature handleEvent} hs hp hD hlog hasks _ := by
    have hown : ∀ {v h}, s.VoteDue v h → (∃ e ∈ s.signed, e.SignsBlock v h) → Ends
        (onManager (ViewProgressManager.addOwnVote v h signature) s) (fun _ => At A s) (At A s)
        (At A s) := fun hdue hsigned =>
      (addOwnVote_spec s ⟨At.refl hs.settled, hdue, hsigned, trivial⟩
        (K := fun _ => True)).conseq (fun _ _ h => h.1) (fun _ h => h) fun _ h => h
    cases event with
    | shouldVote v h => exact exact_spec (accounts_blind.addOwnVote v h signature) s hD
    | shouldVoteAndMNotarize v h forward =>
      exact exact_spec (preserves_bind (accounts_blind.addOwnVote v h signature) fun _ =>
        accounts_blind.createAndBroadcastMNotarization cfg.env v forward) s hD
    | shouldVoteAndFinalize v h =>
      obtain ⟨_, _, ⟨rfl, rfl⟩, -, hsigned⟩ := hlog
      exact then_finalizeView_exact hs.wf hD (accounts_blind.addOwnVote v h signature)
        (hown hp.2 hsigned) v
    | _ => exact hasks.elim
  proposed {s v} hs hJ _ :=
    exact_spec (preserves_onManager fun s => (accounts_blind.manager s).markProposed v) s hJ

/-- Nothing but genesis is stored at the start, which has no transactions. -/
theorem start_stored (cfg : Config P) : (start cfg).chain.stored = [] := by
  exact congrArg (flatMap Block.txHashes) (@start_blocks _ cfg).finalizedWrites

/-- **Notifications are exact**: if every finalization stores the transactions
of its own view and no others, and no M-notarization makes the manager
finalize a block with transactions, the mempool has been told of every stored
transaction once, after every message and tick. -/
theorem notifications_exact {s : Replica P} (h : Run cfg (fun _ _ => True) s true)
    (halone : ∀ f ∈ s.viewManager.finalizations, f.2.FinalizesAlone f.1)
    (hnone : ∀ e ∈ s.history, e.FinalizesNothing) :
    s.notifiedTxHashes.Perm s.chain.persistenceWriter.store.finalizedTxHashes := by
  obtain ⟨hgoes, -⟩ := (exact_rules (A := .any cfg)).run (fun _ _ _ => trivial)
    (fun _ => trivial) (fun _ => (start_stored cfg).symm) h hnone
  exact .of_eq (hgoes rfl halone)

end Runs

/-! ## Two runs -/

/-- A replica of the sample network whose genesis gives one account a
balance. -/
def fundedConfig (i : Fin 6) : Config sampleParams :=
  { sampleConfig i (quietEnv _) with genesisAccounts := [(sampleAddress 1, 100)] }

/-- A transfer from that account. -/
def payment : Transaction sampleParams :=
  signedTransaction (sampleAddress 1) (.transfer (sampleAddress 2) 10) 0 1

/-- The first leader's block with that transfer. -/
def paymentBlock : Block sampleParams :=
  { sampleBlock 1 (Block.genesisHash sampleParams) 0 (sampleParams.hashing.blake3
      (Block.preimage (Block.genesisHash sampleParams) [payment] 0 1)) with
    transactions := [payment] }

/-- The votes of other replicas for it. -/
def paymentVotes : List (Input sampleParams) :=
  [2, 3, 4, 5].map fun i => .message (.vote (voteOf i 1 paymentBlock.getHash))

/-- Its certificate. -/
def paymentCertificate : Input sampleParams :=
  .message (.mNotarization (certificateOf 1 paymentBlock.getHash))

/-- The block, its certificate, and then enough votes. -/
def paidInOrder : List (Input sampleParams) :=
  .message (.blockProposal paymentBlock) :: paymentCertificate :: paymentVotes

/-- The transfer is stored and the mempool is told. -/
theorem notifications_exact_paidInOrder :
    let s := (runAll (fundedConfig 0) 20 paidInOrder).1
    s.notifiedTxHashes = [payment.txHash] ∧
      s.notifiedTxHashes.Perm s.chain.persistenceWriter.store.finalizedTxHashes := by
  have hrun := run_goes (fundedConfig 0) 20 paidInOrder (fun _ => True)
    (by decide +kernel) fun _ _ => trivial
  exact ⟨by decide +kernel, notifications_exact hrun (by decide +kernel) (by decide +kernel)⟩

/-- The votes come first, then the block, then its certificate. -/
def paidVotesFirst : List (Input sampleParams) :=
  paymentVotes ++ [.message (.blockProposal paymentBlock), paymentCertificate]

/-- **A stored transfer of which the mempool is not told.** The certificate
makes the manager finalize the view itself. -/
theorem payment_not_notified :
    ∃ s : Replica sampleParams, Run (fundedConfig 0) (fun _ m => m.WellTyped) s true ∧
      s.chain.persistenceWriter.store.finalizedTxHashes = [payment.txHash] ∧
      s.notifiedTxHashes = [] ∧
      ¬ s.notifiedTxHashes.Perm s.chain.persistenceWriter.store.finalizedTxHashes := by
  have hrun := run_goes (fundedConfig 0) 20 paidVotesFirst (·.WellTyped)
    (by decide +kernel) (by decide +kernel)
  have hstored : (runAll (fundedConfig 0) 20
      paidVotesFirst).1.chain.persistenceWriter.store.finalizedTxHashes = [payment.txHash] := by
    decide +kernel
  have htold : (runAll (fundedConfig 0) 20 paidVotesFirst).1.notifiedTxHashes = [] := by
    decide +kernel
  refine ⟨_, hrun, hstored, htold, ?_⟩
  rw [hstored, htold]
  intro hperm
  cases hperm.length_eq

end Replica

end Minimmit
