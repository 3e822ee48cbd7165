/-
Minimmit.Validation.VisibilityTheorems — what readers see while diffs are
written to the database.

`finalize_up_to` writes the diffs of the finalized views row by row and
publishes the shorter overlay only at the end. A reader has the old overlay
and the live database, so in between a diff that is written already is
applied again. `finalization_invisible_iff` says exactly when no reader
notices: a diff that creates the account resets it; otherwise adding the
written deltas a second time must not change the (saturating) balance, which
without saturation means that they are zero.
-/
import Mathlib.Data.List.TakeWhile
import Minimmit.Validation.ReproductionTheorems

namespace Minimmit

open Minimmit.Library StateDiff List Option

variable {P : Params}

/-! ## The diffs of one account -/

/-- The delta a diff has for an account. -/
def StateDiff.delta (d : StateDiff P) (a : Address P) : Int :=
  Change.recorded (d.updates.lookup a)

/-- The deltas several diffs have for an account. -/
def deltasAt (a : Address P) (ds : List (StateDiff P)) : List Int := ds.map (·.delta a)

/-- A balance after several deltas, saturating at each. -/
def sumUp (balance : Nat) (deltas : List Int) : Nat := deltas.foldl addDelta balance

/-- A nonce after several diffs. -/
def lastNonce (a : Address P) (nonce : Nat) (ds : List (StateDiff P)) : Nat :=
  ds.foldl (fun n d => ((d.updates.lookup a).map (·.newNonce)).getD n) nonce

/-- An account with several diffs on top. -/
def overlay (a : Address P) (x : Option AccountState) (ds : List (StateDiff P)) :
    Option AccountState :=
  ds.foldl (overlayDiff a) x

/-- The diffs of accepted blocks, each validated on the accounts with the ones
before it on top. -/
inductive Validated : Ledger P → List (StateDiff P) → Prop
  | nil (L : Ledger P) : Validated L []
  | cons {L : Ledger P} {block : Block P} {d : StateDiff P} {ds : List (StateDiff P)}
      (accepted : validateBlock L block = .ok d)
      (rest : Validated (fun a => overlayDiff a (L a) d) ds) : Validated L (d :: ds)

/-- What validation says about the diffs of one account: only an account that
does not exist is created, empty, and only from one that exists is more taken
than given. -/
inductive SoundAt (a : Address P) : Option AccountState → List (StateDiff P) → Prop
  | nil (x : Option AccountState) : SoundAt a x []
  | cons {x : Option AccountState} {d : StateDiff P} {ds : List (StateDiff P)}
      (created : d.Creates a → x = none ∧ d.base a x = some { balance := 0, nonce := 0 })
      (gain : x = none → 0 ≤ d.delta a)
      (rest : SoundAt a (overlayDiff a x d) ds) : SoundAt a x (d :: ds)

section Diffs

variable {a : Address P} {d : StateDiff P} {ds es : List (StateDiff P)} {x : Option AccountState}
  {b : Nat} {st : AccountState} {rest : List (StateDiff P)}

theorem Validated.soundAt {L : Ledger P} (h : Validated L ds) (a : Address P) :
    SoundAt a (L a) ds := by
  induction h with
  | nil L => exact .nil _
  | @cons L block d ds accepted rest ih =>
    obtain ⟨-, -, es, hes, rfl⟩ := validateBlock_ok_iff.mp accepted
    have hallowed := allAllowed_changesAt (journal_allows hes) a
    refine .cons (fun hc => ?_) (fun hnone => ?_) ih
    · have hc := creates_journalDiff.mp hc
      rw [base_journalDiff, if_pos hc]
      exact ⟨(Change.eq_cons_of_create_mem hallowed hc).1, rfl⟩
    rw [delta, recorded_journalDiff hes, ← (sameCourse_flows hes).sum]
    rw [hnone] at hallowed
    have := (Change.balanceOf_net hallowed (by decide)).1
    have hempty : balanceOf (none : Option AccountState) = 0 := rfl
    rw [hempty] at this
    omega

theorem soundAt_append (h : SoundAt a x (ds ++ es)) :
    SoundAt a x ds ∧ SoundAt a (overlay a x ds) es := by
  induction ds generalizing x with
  | nil => exact ⟨.nil _, h⟩
  | cons d ds ih =>
    cases h with
    | cons created gain rest => exact ⟨.cons created gain (ih rest).1, (ih rest).2⟩

theorem addDelta_zero (h : b < u64Size) : addDelta b 0 = b := by
  simp only [addDelta, saturatingAdd, asU64, Int.le_refl, if_true, Int.toNat_zero, Nat.zero_mod]
  omega

theorem addDelta_lt (h : b < u64Size) (delta : Int) : addDelta b delta < u64Size := by
  simp only [addDelta, saturatingAdd]
  split <;> omega

theorem addDelta_empty {delta : Int} (h : 0 ≤ delta) : addDelta 0 delta = asU64 delta := by
  rw [addDelta, if_pos h, saturatingAdd, Nat.zero_add]
  have : asU64 delta < u64Size := Nat.mod_lt _ (by decide)
  omega

/-- A diff on an account that exists and is not created. -/
theorem overlayDiff_some (hb : st.balance < u64Size) (h : ¬ d.Creates a) :
    overlayDiff a (some st) d =
      some { balance := addDelta st.balance (d.delta a), nonce := lastNonce a st.nonce [d] } := by
  rw [overlayDiff_eq, base_of_not_creates h]
  unfold delta lastNonce
  simp only [foldl_cons, foldl_nil]
  cases d.updates.lookup a with
  | none =>
    have : addDelta st.balance (Change.recorded none) = st.balance := addDelta_zero hb
    rw [this]
    rfl
  | some u => rfl

/-- Diffs on an account that exists and is not created. -/
theorem overlay_some (hb : st.balance < u64Size) (h : ∀ d ∈ ds, ¬ d.Creates a) :
    overlay a (some st) ds =
      some { balance := sumUp st.balance (deltasAt a ds), nonce := lastNonce a st.nonce ds } := by
  induction ds generalizing st with
  | nil => rfl
  | cons d ds ih =>
    have hstep := overlayDiff_some hb (h d mem_cons_self)
    rw [overlay, foldl_cons, hstep]
    exact ih (addDelta_lt hb _) fun d' hd' => h d' (mem_cons_of_mem _ hd')

theorem overlay_append (x : Option AccountState) (ds es : List (StateDiff P)) :
    overlay a x (ds ++ es) = overlay a (overlay a x ds) es := foldl_append

/-- An account that exists is not created again. -/
theorem SoundAt.not_creates (h : SoundAt a (some st) ds) : ∀ d ∈ ds, ¬ d.Creates a := by
  induction ds generalizing st with
  | nil => exact fun d hd => nomatch hd
  | cons d ds ih =>
    cases h with
    | cons created gain rest =>
      have hnot : ¬ d.Creates a := fun hc => nomatch (created hc).1
      rw [overlayDiff_eq, base_of_not_creates hnot] at rest
      intro d' hd'
      rcases mem_cons.mp hd' with rfl | hd'
      · exact hnot
      cases hu : d.updates.lookup a with
      | none =>
        rw [hu] at rest
        exact ih rest d' hd'
      | some u =>
        rw [hu] at rest
        exact ih rest d' hd'

/-- A diff with an update fixes the nonce. -/
theorem lastNonce_of_update (h : ∃ d ∈ ds, (d.updates.lookup a).isSome = true) (m n : Nat) :
    lastNonce a m ds = lastNonce a n ds := by
  induction ds generalizing m n with
  | nil =>
    obtain ⟨d, hd, -⟩ := h
    cases hd
  | cons d ds ih =>
    unfold lastNonce
    rw [foldl_cons, foldl_cons]
    by_cases hu : (d.updates.lookup a).isSome = true
    · obtain ⟨u, hu⟩ := isSome_iff_exists.mp hu
      rw [hu]
      rfl
    · obtain ⟨d', hd', hu'⟩ := h
      rcases mem_cons.mp hd' with rfl | hd'
      · exact absurd hu' hu
      · exact ih ⟨d', hd', hu'⟩ _ _

theorem lastNonce_of_none (h : ∀ d ∈ ds, ¬ (d.updates.lookup a).isSome = true) (n : Nat) :
    lastNonce a n ds = n := by
  induction ds generalizing n with
  | nil => rfl
  | cons d ds ih =>
    have hd := h d mem_cons_self
    rw [not_isSome_iff_eq_none] at hd
    unfold lastNonce
    rw [foldl_cons, hd]
    exact ih (fun d' hd' => h d' (mem_cons_of_mem _ hd')) n

theorem lookup_isSome_of_delta (h : 0 < d.delta a) : (d.updates.lookup a).isSome = true := by
  cases hu : d.updates.lookup a with
  | none =>
    rw [delta, hu] at h
    exact absurd h (by decide)
  | some u => rfl

/-- **Diffs on an account that does not exist**: either nothing happens, or
it is created or opened and holds the sum. -/
theorem overlay_none (h : SoundAt a none ds) :
    ((∀ d ∈ ds, ¬ d.Creates a ∧ d.delta a = 0) ∧ overlay a none ds = none) ∨
      ((∃ d ∈ ds, d.Creates a ∨ 0 < d.delta a) ∧ ∃ n, overlay a none ds =
          some { balance := sumUp 0 (deltasAt a ds), nonce := n } ∧
        ((∀ d ∈ ds, ¬ d.Creates a) → n = lastNonce a 0 ds)) := by
  induction ds with
  | nil => exact .inl ⟨fun d hd => (nomatch hd), rfl⟩
  | cons d ds ih =>
    cases h with
    | cons created gain rest =>
      -- once the account exists, the rest adds up
      have hopen : ∀ m, overlayDiff a none d =
          some { balance := addDelta 0 (d.delta a), nonce := m } →
          overlay a none (d :: ds) =
            some { balance := sumUp 0 (deltasAt a (d :: ds)), nonce := lastNonce a m ds } := by
        intro m hm
        rw [hm] at rest
        rw [overlay, foldl_cons, hm]
        exact overlay_some (addDelta_lt (by decide) _) rest.not_creates
      by_cases hc : d.Creates a
      · have hm : ∃ m, overlayDiff a none d =
            some { balance := addDelta 0 (d.delta a), nonce := m } := by
          rw [overlayDiff_eq, (created hc).2, delta]
          cases d.updates.lookup a with
          | none => exact ⟨0, rfl⟩
          | some u => exact ⟨u.newNonce, rfl⟩
        obtain ⟨m, hm⟩ := hm
        exact .inr ⟨⟨d, mem_cons_self, .inl hc⟩, _, hopen m hm,
          fun hno => absurd hc (hno d mem_cons_self)⟩
      have heq := overlayDiff_eq (a := a) d none
      rw [base_of_not_creates hc] at heq
      by_cases hpos : 0 < d.delta a
      · obtain ⟨u, hu⟩ := isSome_iff_exists.mp (lookup_isSome_of_delta hpos)
        have hdelta : d.delta a = u.balanceDelta := by rw [delta, hu]; rfl
        rw [hu] at heq
        rw [hdelta] at hpos
        have hm : overlayDiff a none d =
            some { balance := addDelta 0 (d.delta a), nonce := u.newNonce } := by
          rw [heq, hdelta, addDelta_empty (by omega)]
          exact if_pos hpos
        refine .inr ⟨⟨d, mem_cons_self, .inr (hdelta ▸ hpos)⟩, _, hopen _ hm, fun _ => ?_⟩
        unfold lastNonce
        rw [foldl_cons, hu]
        rfl
      · have hzero : d.delta a = 0 := by
          have := gain rfl
          omega
        have hnone : overlayDiff a none d = none := by
          rw [heq]
          rw [delta] at hpos
          cases hu : d.updates.lookup a with
          | none => rfl
          | some u =>
            rw [hu] at hpos
            exact if_neg hpos
        rw [hnone] at rest
        have hskip : overlay a none (d :: ds) = overlay a none ds := by
          rw [overlay, foldl_cons, hnone]
          rfl
        rw [hskip]
        rcases ih rest with ⟨hall, hrest⟩ | ⟨⟨d', hd', hcase⟩, n, hn, hnonce⟩
        · exact .inl ⟨forall_mem_cons.mpr ⟨⟨hc, hzero⟩, hall⟩, hrest⟩
        refine .inr ⟨⟨d', mem_cons_of_mem _ hd', hcase⟩, n, ?_, fun hno => ?_⟩
        · have hcons : deltasAt a (d :: ds) = 0 :: deltasAt a ds := by
            rw [← hzero]
            rfl
          rw [hn, hcons]
          rfl
        · have hno' := fun d'' hd'' => hno d'' (mem_cons_of_mem _ hd'')
          rw [hnonce hno']
          exact lastNonce_of_update
            ⟨d', hd', lookup_isSome_of_delta (hcase.resolve_left (hno' d' hd'))⟩ _ _

/-! ## Reading diffs that are written -/

/-- If one of the diffs creates the account, what was there before does not
matter. -/
theorem overlay_of_creates (h : ∃ d ∈ ds, d.Creates a) (x y : Option AccountState) :
    overlay a x ds = overlay a y ds := by
  induction ds generalizing x y with
  | nil =>
    obtain ⟨d, hd, -⟩ := h
    cases hd
  | cons d ds ih =>
    unfold overlay
    rw [foldl_cons, foldl_cons]
    by_cases hc : d.Creates a
    · rw [overlayDiff_eq, overlayDiff_eq, base_of_creates hc x y]
    · obtain ⟨d', hd', hc'⟩ := h
      rcases mem_cons.mp hd' with rfl | hd'
      · exact absurd hc' hc
      · exact ih ⟨d', hd', hc'⟩ _ _

theorem sumUp_append (b : Nat) (xs ys : List Int) : sumUp b (xs ++ ys) = sumUp (sumUp b xs) ys :=
  foldl_append

theorem deltasAt_append (ds es : List (StateDiff P)) :
    deltasAt a (ds ++ es) = deltasAt a ds ++ deltasAt a es := map_append

theorem sumUp_zeros {xs : List Int} (h : ∀ x ∈ xs, x = 0) : sumUp 0 xs = 0 := by
  induction xs with
  | nil => rfl
  | cons x xs ih =>
    rw [h x mem_cons_self]
    exact ih fun y hy => h y (mem_cons_of_mem _ hy)

theorem sumUp_lt (hb : b < u64Size) (xs : List Int) : sumUp b xs < u64Size := by
  induction xs generalizing b with
  | nil => exact hb
  | cons x xs ih => exact ih (addDelta_lt hb x)

/-- **A reader of diffs some of which are written** sees the same account
exactly when adding those a second time does not change the balance. Here
`first` are the diffs written so far and `all` those of the overlay. -/
theorem overlay_twice_iff {first all : List (StateDiff P)} (hall : all = first ++ rest)
    (h : SoundAt a x all) (hx : balanceOf x < u64Size) (hno : ∀ d ∈ first, ¬ d.Creates a) :
    overlay a (overlay a x first) all = overlay a x all ↔
      sumUp (balanceOf x) (deltasAt a first ++ deltasAt a all) =
        sumUp (balanceOf x) (deltasAt a all) := by
  have hsplit := soundAt_append (hall ▸ h : SoundAt a x (first ++ rest))
  cases x with
  | some st =>
    have hnone := h.not_creates
    have hb : st.balance < u64Size := hx
    rw [overlay_some hb hno, overlay_some (sumUp_lt hb _) hnone, overlay_some hb hnone,
      sumUp_append]
    have hnonce : lastNonce a (lastNonce a st.nonce first) all = lastNonce a st.nonce all := by
      by_cases hu : ∃ d ∈ all, (d.updates.lookup a).isSome = true
      · exact lastNonce_of_update hu _ _
      · have hnone : ∀ d ∈ first, ¬ (d.updates.lookup a).isSome = true := fun d hd hs =>
          hu ⟨d, hall ▸ mem_append_left _ hd, hs⟩
        rw [lastNonce_of_none hnone]
    rw [hnonce, some.injEq, AccountState.mk.injEq]
    exact ⟨fun heq => heq.1, fun heq => ⟨heq, rfl⟩⟩
  | none =>
    have hempty : balanceOf (none : Option AccountState) = 0 := rfl
    rw [hempty, sumUp_append]
    rcases overlay_none hsplit.1 with ⟨hzero, hnone⟩ | ⟨⟨d, hd, hcase⟩, n, hn, hnonce⟩
    · have hsum : sumUp 0 (deltasAt a first) = 0 := by
        refine sumUp_zeros fun z hz => ?_
        obtain ⟨d, hd, rfl⟩ := mem_map.mp hz
        exact (hzero d hd).2
      rw [hnone, hsum]
      exact iff_of_true rfl rfl
    · have hnone : ∀ d ∈ all, ¬ d.Creates a := by
        intro d hd
        rw [hall, mem_append] at hd
        exact hd.elim (hno d) ((hn ▸ hsplit.2 : SoundAt a (some _) rest).not_creates d)
      have hlt := sumUp_lt (b := 0) (by decide) (deltasAt a first)
      have hupdate : ∃ d ∈ first, (d.updates.lookup a).isSome = true :=
        ⟨d, hd, lookup_isSome_of_delta (hcase.resolve_left (hno d hd))⟩
      have hright : overlay a none all = some
          { balance := sumUp 0 (deltasAt a all), nonce := lastNonce a n rest } := by
        rw [hall, overlay_append, hn, overlay_some hlt fun d hd => hnone d
          (hall ▸ mem_append_right _ hd), deltasAt_append, sumUp_append]
      have hsame : lastNonce a n all = lastNonce a n rest := by
        rw [hall, lastNonce, foldl_append]
        change lastNonce a (lastNonce a n first) rest = _
        rw [lastNonce_of_update hupdate n 0, ← hnonce hno]
      rw [hn, overlay_some hlt hnone, hright, hsame, some.injEq, AccountState.mk.injEq]
      exact ⟨fun heq => heq.1, fun heq => ⟨heq, rfl⟩⟩

theorem exists_update_of_gain (h : (deltasAt a ds).dropWhile (fun x => decide (x ≤ 0)) ≠ []) :
    ∃ d ∈ ds, (d.updates.lookup a).isSome = true := by
  by_contra hno
  refine h (dropWhile_eq_nil_iff.mpr fun x hx => ?_)
  obtain ⟨d, hd, rfl⟩ := mem_map.mp hx
  exact decide_eq_true (Int.not_lt.mp fun hp => hno ⟨d, hd, lookup_isSome_of_delta hp⟩)

/-- Diffs of an account that a reader does not find: the first gain opens
it. -/
theorem overlay_none_of_not_creates (h : ∀ d ∈ ds, ¬ d.Creates a) :
    overlay a none ds = if (deltasAt a ds).dropWhile (fun x => decide (x ≤ 0)) = [] then none
      else some { balance := sumUp 0 ((deltasAt a ds).dropWhile fun x => decide (x ≤ 0))
                  nonce := lastNonce a 0 ds } := by
  induction ds with
  | nil => rfl
  | cons d ds ih =>
    have hrest := fun d' hd' => h d' (mem_cons_of_mem d hd')
    have heq := overlayDiff_eq (a := a) d none
    rw [base_of_not_creates (h d mem_cons_self)] at heq
    have hcons : deltasAt a (d :: ds) = d.delta a :: deltasAt a ds := rfl
    rw [overlay, foldl_cons, hcons]
    by_cases hpos : 0 < d.delta a
    · obtain ⟨u, hu⟩ := isSome_iff_exists.mp (lookup_isSome_of_delta hpos)
      have hdelta : d.delta a = u.balanceDelta := by rw [delta, hu]; rfl
      have hopen : overlayDiff a none d =
          some { balance := addDelta 0 (d.delta a), nonce := u.newNonce } := by
        rw [heq, hu, addDelta_empty (by omega), hdelta]
        exact if_pos (hdelta ▸ hpos)
      have hdrop : (d.delta a :: deltasAt a ds).dropWhile (fun x => decide (x ≤ 0)) =
          d.delta a :: deltasAt a ds := by
        rw [dropWhile_cons, decide_eq_false (by omega)]
        rfl
      rw [hopen, hdrop, if_neg (cons_ne_nil _ _)]
      change overlay a _ ds = _
      rw [overlay_some (addDelta_lt (by decide) _) hrest, lastNonce, lastNonce, foldl_cons, hu]
      rfl
    · have hnone : overlayDiff a none d = none := by
        rw [heq]
        rw [delta] at hpos
        cases hu : d.updates.lookup a with
        | none => rfl
        | some u =>
          rw [hu] at hpos
          exact if_neg hpos
      have hdrop : (d.delta a :: deltasAt a ds).dropWhile (fun x => decide (x ≤ 0)) =
          (deltasAt a ds).dropWhile fun x => decide (x ≤ 0) := by
        rw [dropWhile_cons, decide_eq_true (by omega)]
        rfl
      rw [hnone, hdrop]
      refine (ih hrest).trans ?_
      split
      case isTrue => rfl
      case isFalse hgain =>
        -- the gain fixes the nonce
        rw [lastNonce_of_update (exists_update_of_gain hgain) 0 (((d.updates.lookup a).map (·.newNonce)).getD 0)]
        rfl

/-- **A reader who no longer finds the popped diffs**, of an address without
a row: nothing was there, or the rest opens the account again with the same
balance. -/
theorem overlay_dropped_iff {popped : List (StateDiff P)} (h : SoundAt a none (popped ++ rest)) :
    overlay a none rest = overlay a none (popped ++ rest) ↔
      (∀ d ∈ popped, ¬ d.Creates a ∧ d.delta a ≤ 0) ∨
        (deltasAt a rest).dropWhile (fun x => decide (x ≤ 0)) ≠ [] ∧
          sumUp 0 (deltasAt a (popped ++ rest)) =
            sumUp 0 ((deltasAt a rest).dropWhile fun x => decide (x ≤ 0)) := by
  obtain ⟨hpopped, hrest⟩ := soundAt_append h
  rw [overlay_append]
  rcases overlay_none hpopped with ⟨hzero, hnone⟩ | ⟨⟨d, hd, hcase⟩, n, hn, -⟩
  · rw [hnone]
    exact iff_of_true rfl (.inl fun d hd => ⟨(hzero d hd).1, (hzero d hd).2.le⟩)
  rw [hn] at hrest ⊢
  have hno := hrest.not_creates
  have hleft : ¬ ∀ d ∈ popped, ¬ d.Creates a ∧ d.delta a ≤ 0 := fun hall =>
    hcase.elim (hall d hd).1 (Int.not_lt.mpr (hall d hd).2)
  rw [overlay_none_of_not_creates hno, overlay_some (sumUp_lt (by decide) _) hno,
    deltasAt_append, sumUp_append]
  split
  case isTrue hnil => simp [hnil, hleft]
  case isFalse hgain =>
    rw [lastNonce_of_update (exists_update_of_gain hgain) n 0, some.injEq, AccountState.mk.injEq]
    constructor
    · exact fun heq => .inr ⟨hgain, heq.1.symm⟩
    · exact fun heq => ⟨((heq.resolve_left hleft).2).symm, rfl⟩

end Diffs

/-! ## The writes of a finalization -/

/-- The row writes of `apply_diff_to_db`, in order. -/
def StateDiff.writes (d : StateDiff P) : List (Store P → Store P) :=
  (d.createdAccounts.map fun created s => applyCreated s created) ++
    (P.hashOrder.apply 0 _ d.updates.entries).map fun entry s => applyUpdate s entry

/-- The database after several writes. -/
def runWrites (writes : List (Store P → Store P)) (s : Store P) : Store P :=
  writes.foldl (fun s write => write s) s

namespace PendingStateWriter

/-- The diffs `finalize_up_to` pops. -/
def popped (w : PendingStateWriter P) (view : Nat) : List (StateDiff P) :=
  (w.diffsUpTo view).map (·.2)

/-- The diffs it leaves. -/
def remaining (w : PendingStateWriter P) (view : Nat) : List (StateDiff P) :=
  (w.pendingDiffs.retain fun v _ => view < v).values

/-- All row writes of `finalize_up_to`, in order. -/
def finalizeWrites (w : PendingStateWriter P) (view : Nat) : List (Store P → Store P) :=
  (w.popped view).flatMap (·.writes)

end PendingStateWriter

section Writes

variable {a : Address P} {d : StateDiff P} {ds : List (StateDiff P)} {s : Store P}

theorem runWrites_append (fs gs : List (Store P → Store P)) (s : Store P) :
    runWrites (fs ++ gs) s = runWrites gs (runWrites fs s) := foldl_append

theorem runWrites_writes (d : StateDiff P) (s : Store P) :
    runWrites d.writes s = applyDiffToDb s d := by
  rw [writes, runWrites_append, runWrites, runWrites, foldl_map, foldl_map]
  rfl

theorem runWrites_flatMap (ds : List (StateDiff P)) (s : Store P) :
    runWrites (ds.flatMap (·.writes)) s = ds.foldl applyDiffToDb s := by
  induction ds generalizing s with
  | nil => rfl
  | cons d ds ih => rw [flatMap_cons, runWrites_append, runWrites_writes, ih, foldl_cons]

/-- Created accounts of other addresses do not matter. -/
theorem fetchFromDb_created_ne {created : List (NewAccount P)}
    (h : ∀ c ∈ created, c.address ≠ a) (ha : P.ed25519.isPublicKey a = true) (s : Store P) :
    fetchFromDb (created.foldl applyCreated s) a = fetchFromDb s a := by
  induction created generalizing s with
  | nil => rfl
  | cons c created ih =>
    rw [foldl_cons, ih fun c' hc' => h c' (mem_cons_of_mem _ hc'),
      fetchFromDb_applyCreated _ _ ha, if_neg (h c mem_cons_self)]

/-- In the middle of a diff that does not create the account, its row is the
old or the new one. -/
theorem fetchFromDb_take_writes (ha : P.ed25519.isPublicKey a = true) (hc : ¬ d.Creates a)
    (s : Store P) (k : Nat) :
    fetchFromDb (runWrites (d.writes.take k) s) a = fetchFromDb s a ∨
      fetchFromDb (runWrites (d.writes.take k) s) a = overlayDiff a (fetchFromDb s a) d := by
  have hperm := P.hashOrder.perm 0 _ d.updates.entries
  have hnodup : (P.hashOrder.apply 0 _ d.updates.entries).NodupKeys :=
    (perm_nodupKeys hperm).mpr d.updates.nodupKeys
  rw [writes, take_append, runWrites_append, ← map_take, ← map_take,
    runWrites, runWrites, foldl_map, foldl_map]
  generalize k - _ = i
  have hsub := take_sublist i (P.hashOrder.apply 0 _ d.updates.entries)
  have hcreated : fetchFromDb ((d.createdAccounts.take k).foldl applyCreated s) a =
      fetchFromDb s a :=
    fetchFromDb_created_ne (fun c hmem heq => hc ⟨c, mem_of_mem_take hmem, heq⟩) ha s
  rw [fetchFromDb_updates _ (hnodup.sublist hsub) ha, hcreated, overlayDiff_eq,
    base_of_not_creates hc]
  cases hu : ((P.hashOrder.apply 0 _ d.updates.entries).take i).dlookup a with
  | none => exact .inl rfl
  | some u =>
    right
    have hmem := hsub.subset (of_mem_dlookup hu)
    have hlookup : d.updates.lookup a = some u :=
      AList.mem_lookup_iff.mpr (hperm.mem_iff.mp hmem)
    rw [hlookup]

/-- The diffs of accepted blocks create empty accounts. -/
theorem Validated.empty {L : Ledger P} (h : Validated L ds) :
    ∀ d ∈ ds, ∀ c ∈ d.createdAccounts, c.initialBalance = 0 := by
  induction h with
  | nil L => exact fun d hd => nomatch hd
  | cons accepted rest ih =>
    obtain ⟨-, -, es, -, rfl⟩ := validateBlock_ok_iff.mp accepted
    exact forall_mem_cons.mpr ⟨fun c hc => (mem_createdAccounts_journalDiff.mp hc).1, ih⟩

/-- The row after several diffs. -/
theorem fetchFromDb_foldl (hempty : ∀ d ∈ ds, ∀ c ∈ d.createdAccounts, c.initialBalance = 0)
    (ha : P.ed25519.isPublicKey a = true) (s : Store P) :
    fetchFromDb (ds.foldl applyDiffToDb s) a = overlay a (fetchFromDb s a) ds := by
  induction ds generalizing s with
  | nil => rfl
  | cons d ds ih =>
    rw [foldl_cons, ih fun d' hd' => hempty d' (mem_cons_of_mem _ hd'),
      fetchFromDb_applyDiffToDb _ (hempty d mem_cons_self), if_pos ha]
    rfl

/-- **At any point of the writes** the row of an account that is not created is
the one after some of the diffs. -/
theorem fetchFromDb_point (hempty : ∀ d ∈ ds, ∀ c ∈ d.createdAccounts, c.initialBalance = 0)
    (ha : P.ed25519.isPublicKey a = true) (hc : ∀ d ∈ ds, ¬ d.Creates a) (s : Store P) (k : Nat) :
    ∃ j ≤ ds.length, fetchFromDb (runWrites ((ds.flatMap (·.writes)).take k) s) a =
      overlay a (fetchFromDb s a) (ds.take j) := by
  induction ds generalizing s k with
  | nil => exact ⟨0, Nat.le_refl _, by rw [flatMap_nil, take_nil]; rfl⟩
  | cons d ds ih =>
    rw [flatMap_cons, take_append, runWrites_append]
    by_cases hk : k ≤ d.writes.length
    · rw [Nat.sub_eq_zero_of_le hk, take_zero]
      rcases fetchFromDb_take_writes ha (hc d mem_cons_self) s k with h | h
      · exact ⟨0, Nat.zero_le _, h⟩
      · exact ⟨1, by simp, h⟩
    · have htake : d.writes.take k = d.writes := take_of_length_le (by omega)
      rw [htake, runWrites_writes]
      obtain ⟨j, hj, heq⟩ := ih (fun d' hd' => hempty d' (mem_cons_of_mem _ hd'))
        (fun d' hd' => hc d' (mem_cons_of_mem _ hd')) (applyDiffToDb s d) (k - d.writes.length)
      refine ⟨j + 1, by simpa using hj, ?_⟩
      rw [heq, fetchFromDb_applyDiffToDb _ (hempty d mem_cons_self), if_pos ha]
      rfl

/-- Every one of these rows is there at some point. -/
theorem point_reached (ds : List (StateDiff P)) (s : Store P) (j : Nat) :
    ∃ k ≤ (ds.flatMap (·.writes)).length, runWrites ((ds.flatMap (·.writes)).take k) s =
      (ds.take j).foldl applyDiffToDb s := by
  have hsplit : ds.flatMap (·.writes) =
      (ds.take j).flatMap (·.writes) ++ (ds.drop j).flatMap (·.writes) := by
    rw [← flatMap_append, take_append_drop]
  refine ⟨((ds.take j).flatMap (·.writes)).length, ?_, ?_⟩
  · rw [hsplit, length_append]
    exact Nat.le_add_right _ _
  · rw [hsplit, take_left, runWrites_flatMap]

end Writes

/-! ## Finalization -/

/-- What a reader sees while a writer is at a point of its writes: the diffs
that are published, over the database as it is. -/
def PendingStateWriter.readAt (w : PendingStateWriter P) (view k : Nat) (a : Address P) :
    Option AccountState :=
  (w.onStore (runWrites ((w.finalizeWrites view).take k))).getAccount a

/-- No reader sees that diffs move to the database: at any point between the
writes, and after the publication, the account is the same as before. -/
structure Invisible (w : PendingStateWriter P) (view : Nat) (a : Address P) : Prop where
  during : ∀ k ≤ (w.finalizeWrites view).length, w.readAt view k a = w.getAccount a
  after : (w.finalizeUpTo view).getAccount a = w.getAccount a

/-- For a public key: a popped diff creates the account, or adding the first
of the popped deltas twice never changes the balance at the end. For another
address, which has no row: the popped diffs leave nothing there, or the
remaining ones open the account again with the same balance. -/
structure Unnoticed (w : PendingStateWriter P) (view : Nat) (a : Address P) : Prop where
  key : P.ed25519.isPublicKey a = true → (∃ d ∈ w.popped view, d.Creates a) ∨
    ∀ j ≤ (w.popped view).length,
      sumUp (balanceOf (fetchFromDb w.store a))
          (deltasAt a ((w.popped view).take j) ++ deltasAt a (w.popped view ++ w.remaining view)) =
        sumUp (balanceOf (fetchFromDb w.store a))
          (deltasAt a (w.popped view ++ w.remaining view))
  other : ¬ P.ed25519.isPublicKey a = true →
    (∀ d ∈ w.popped view, ¬ d.Creates a ∧ d.delta a ≤ 0) ∨
      (deltasAt a (w.remaining view)).dropWhile (fun x => decide (x ≤ 0)) ≠ [] ∧
        sumUp 0 (deltasAt a (w.popped view ++ w.remaining view)) =
          sumUp 0 ((deltasAt a (w.remaining view)).dropWhile fun x => decide (x ≤ 0))

section Finalization

variable {w : PendingStateWriter P} {view : Nat}

theorem popped_append_remaining (w : PendingStateWriter P) (view : Nat) :
    w.popped view ++ w.remaining view = w.pendingDiffs.values := by
  have h := congrArg (map (·.2)) (SortedMap.takeWhile_append_retain w.pendingDiffs view)
  rw [map_append] at h
  exact h

theorem finalizeUpTo_store (w : PendingStateWriter P) (view : Nat) :
    (w.finalizeUpTo view).store = (w.popped view).foldl applyDiffToDb w.store := by
  rw [PendingStateWriter.popped, foldl_map]
  rfl

/-- **Readers never see a half-finalized state** exactly under
`Unnoticed`. -/
theorem finalization_invisible_iff (hpub : w.published = w.pendingDiffs)
    (hvalid : Validated (fetchFromDb w.store) w.pendingDiffs.values)
    (htyped : Ledger.WellTyped (fetchFromDb w.store)) (a : Address P) :
    Invisible w view a ↔ Unnoticed w view a := by
  have hvalues := popped_append_remaining w view
  rw [← hvalues] at hvalid
  have hsound := hvalid.soundAt a
  have hempty : ∀ d ∈ w.popped view, ∀ c ∈ d.createdAccounts, c.initialBalance = 0 :=
    fun d hd => hvalid.empty d (List.mem_append_left _ hd)
  have hread : ∀ k, w.readAt view k a =
      overlay a (fetchFromDb (runWrites ((w.finalizeWrites view).take k) w.store) a)
        (w.popped view ++ w.remaining view) := by
    intro k
    rw [hvalues, ← hpub]
    rfl
  have hbefore : w.getAccount a =
      overlay a (fetchFromDb w.store a) (w.popped view ++ w.remaining view) := by
    rw [hvalues, ← hpub]
    rfl
  have hafter : (w.finalizeUpTo view).getAccount a =
      overlay a (fetchFromDb ((w.popped view).foldl applyDiffToDb w.store) a)
        (w.remaining view) := by
    rw [← finalizeUpTo_store]
    rfl
  by_cases hkey : P.ed25519.isPublicKey a = true
  case neg =>
    have hnone := fun s => fetchFromDb_of_not_publicKey (a := a) s hkey
    rw [hnone] at hsound
    have hiff := overlay_dropped_iff hsound
    constructor
    · intro h
      refine ⟨fun hk => absurd hk hkey, fun _ => hiff.mp ?_⟩
      have := h.after
      rwa [hafter, hbefore, hnone, hnone] at this
    · intro h
      refine ⟨fun k _ => ?_, ?_⟩
      · rw [hread, hbefore, hnone, hnone]
      · rw [hafter, hbefore, hnone, hnone]
        exact hiff.mpr (h.other hkey)
  case pos =>
    have hbound := htyped.balanceOf_lt a
    have hlast : (w.finalizeUpTo view).getAccount a = w.getAccount a := by
      rw [hafter, hbefore, fetchFromDb_foldl hempty hkey, overlay_append]
    by_cases hc : ∃ d ∈ w.popped view, d.Creates a
    · refine iff_of_true ⟨fun k _ => ?_, hlast⟩ ⟨fun _ => Or.inl hc, fun hk => absurd hkey hk⟩
      obtain ⟨d, hd, hcreates⟩ := hc
      rw [hread, hbefore]
      exact overlay_of_creates ⟨d, List.mem_append_left _ hd, hcreates⟩ _ _
    · have hno : ∀ d ∈ w.popped view, ¬ d.Creates a := fun d hd hd' => hc ⟨d, hd, hd'⟩
      have htwice : ∀ j, overlay a (overlay a (fetchFromDb w.store a) ((w.popped view).take j))
          (w.popped view ++ w.remaining view) =
            overlay a (fetchFromDb w.store a) (w.popped view ++ w.remaining view) ↔ _ := fun j =>
        overlay_twice_iff
          (show w.popped view ++ w.remaining view =
            (w.popped view).take j ++ ((w.popped view).drop j ++ w.remaining view) by
              rw [← List.append_assoc, List.take_append_drop]) hsound hbound
          fun d hd => hno d (List.mem_of_mem_take hd)
      constructor
      · intro h
        refine ⟨fun _ => Or.inr fun j _ => (htwice j).mp ?_, fun hk => absurd hkey hk⟩
        obtain ⟨k, hk, hpoint⟩ := point_reached (w.popped view) w.store j
        have hsame := h.during k hk
        rw [hread, hbefore, PendingStateWriter.finalizeWrites, hpoint,
          fetchFromDb_foldl (fun d hd => hempty d (List.mem_of_mem_take hd)) hkey] at hsame
        exact hsame
      · intro h
        refine ⟨fun k _ => ?_, hlast⟩
        obtain ⟨j, hj, hpoint⟩ := fetchFromDb_point hempty hkey hno w.store k
        rw [hread, hbefore, PendingStateWriter.finalizeWrites, hpoint]
        exact (htwice j).mpr ((h.key hkey).resolve_left hc j hj)

end Finalization

/-! ## A payment that is counted twice -/

/-- The writer with the diff of a block of view 1 pending on `oneAccount`. -/
def pendingBlock (block : Block sampleParams) : PendingStateWriter sampleParams :=
  oneAccount.addMNotarizedDiff 1 (diffOf (fetchFromDb oneAccount.store) block)

/-- Account 1 pays ten coins and a fee of one. -/
def paying : Block sampleParams :=
  blockOf [signedTransaction (sampleAddress 1) (.transfer (sampleAddress 2) 10) 0 1]

/-- Account 1 mints for account 3. -/
def minting : Block sampleParams :=
  blockOf [signedTransaction (sampleAddress 1) (.mint (sampleAddress 3) 5) 0 0]

theorem validated_pendingBlock {block : Block sampleParams}
    (h : (validateBlock (fetchFromDb oneAccount.store) block).isOk = true) :
    Validated (fetchFromDb (pendingBlock block).store) (pendingBlock block).pendingDiffs.values :=
  .cons (validateBlock_diffOf h) (.nil _)

/-- **A reader can see a payment twice**: before and after the finalization
account 1 has 89 coins, in between a reader sees 78. -/
theorem payment_seen_twice :
    Validated (fetchFromDb (pendingBlock paying).store) (pendingBlock paying).pendingDiffs.values ∧
      (pendingBlock paying).getAccount (sampleAddress 1) = some { balance := 89, nonce := 1 } ∧
      (pendingBlock paying).readAt 1 1 (sampleAddress 1) = some { balance := 89, nonce := 1 } ∧
      (pendingBlock paying).readAt 1 2 (sampleAddress 1) = some { balance := 78, nonce := 1 } ∧
      ((pendingBlock paying).finalizeUpTo 1).getAccount (sampleAddress 1) =
        some { balance := 89, nonce := 1 } ∧
      ¬ Invisible (pendingBlock paying) 1 (sampleAddress 1) := by
  refine ⟨validated_pendingBlock (by decide +kernel), by decide +kernel, by decide +kernel,
    by decide +kernel, by decide +kernel, fun h => ?_⟩
  exact absurd (h.during 2 (by decide +kernel)) (by decide +kernel)

/-- The sender of a mint keeps its balance. -/
theorem minter_unnoticed : Invisible (pendingBlock minting) 1 (sampleAddress 1) := by
  refine (finalization_invisible_iff rfl (validated_pendingBlock (by decide +kernel))
    oneAccount_wellTyped _).mpr ⟨fun _ => Or.inr (by decide +kernel), fun h => absurd rfl h⟩

end Minimmit
