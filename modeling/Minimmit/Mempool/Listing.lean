/-
Minimmit.Mempool.Listing — the pool as one assignment of places.

What a pool is for is said on a `Listing`: which transactions are stored, which
hash is pending or queued under a sender and a nonce, and which nonce of a
sender is expected next. A listing is consistent if storage and places agree.
The changes the pool makes are few on this level: hashes are dropped, a
transaction gets a place, a queued one becomes pending, a nonce is expected.
Each keeps a listing consistent (`Consistent.drop` and the lemmas behind it).
-/
import Minimmit.Mempool.Pool

namespace Minimmit

open Option

/-- Where the transactions of a pool are. -/
structure Listing (P : Params) where
  stored : Hash P → Option (ValidatedTransaction P)
  pending : Address P → Nat → Option (Hash P)
  queued : Address P → Nat → Option (Hash P)
  next : Address P → Option Nat

variable {P : Params}

namespace Listing

/-- Storage and places agree. -/
structure Consistent (l : Listing P) : Prop where
  stored_hash : ∀ h v, l.stored h = some v → v.tx.txHash = h ∧ v.priority = v.tx.fee
  pending_stored : ∀ s n h, l.pending s n = some h →
    ∃ v, l.stored h = some v ∧ v.tx.sender = s ∧ v.tx.nonce = n
  queued_stored : ∀ s n h, l.queued s n = some h →
    ∃ v, l.stored h = some v ∧ v.tx.sender = s ∧ v.tx.nonce = n
  listed : ∀ h v, l.stored h = some v →
    l.pending v.tx.sender v.tx.nonce = some h ∨ l.queued v.tx.sender v.tx.nonce = some h
  apart : ∀ s n h, l.pending s n = some h → l.queued s n = none
  pending_below : ∀ s n h, l.pending s n = some h → ∃ e, l.next s = some e ∧ n < e
  queued_known : ∀ s n h, l.queued s n = some h → ∃ e, l.next s = some e

variable (l : Listing P)

/-- The listing without some hashes. -/
def drop (gone : List (Hash P)) : Listing P where
  stored h := if h ∈ gone then none else l.stored h
  pending s n := (l.pending s n).filter (· ∉ gone)
  queued s n := (l.queued s n).filter (· ∉ gone)
  next := l.next

/-- A transaction stored and made pending. -/
def addPending (s : Address P) (n : Nat) (h : Hash P)
    (v : ValidatedTransaction P) : Listing P :=
  { l with
    stored := fun h' => if h' = h then some v else l.stored h'
    pending := fun s' n' => if s' = s ∧ n' = n then some h else l.pending s' n' }

/-- A transaction stored and queued. -/
def addQueued (s : Address P) (n : Nat) (h : Hash P)
    (v : ValidatedTransaction P) : Listing P :=
  { l with
    stored := fun h' => if h' = h then some v else l.stored h'
    queued := fun s' n' => if s' = s ∧ n' = n then some h else l.queued s' n' }

/-- A queued transaction made pending. -/
def promote (s : Address P) (n : Nat) (h : Hash P) : Listing P :=
  { l with
    pending := fun s' n' => if s' = s ∧ n' = n then some h else l.pending s' n'
    queued := fun s' n' => if s' = s ∧ n' = n then none else l.queued s' n' }

/-- Another nonce expected of a sender. -/
def setNext (s : Address P) (e : Nat) : Listing P :=
  { l with next := fun s' => if s' = s then some e else l.next s' }

theorem drop_drop (gone gone' : List (Hash P)) :
    (l.drop gone).drop gone' = l.drop (gone ++ gone') := by
  have hfilter : ∀ x : Option (Hash P),
      (x.filter fun h => decide (h ∉ gone)).filter (fun h => decide (h ∉ gone')) =
        x.filter fun h => decide (h ∉ gone ++ gone') := by
    intro x
    cases x with
    | none => rfl
    | some h => by_cases hg : h ∈ gone <;> simp [Option.filter, hg]
  unfold drop
  congr 1
  · funext h
    by_cases hg : h ∈ gone <;> simp [hg]
  · funext s n
    exact hfilter _
  · funext s n
    exact hfilter _

theorem drop_nil : l.drop [] = l := by
  have hfilter : ∀ x : Option (Hash P), x.filter (fun _ => true) = x := by
    intro x
    cases x <;> rfl
  simp [drop, hfilter]

namespace Consistent

variable {l : Listing P} {s : Address P} {n e : Nat} {h : Hash P} {v : ValidatedTransaction P}

variable (hl : l.Consistent)

include hl

/-- Nothing is pending at the expected nonce or above. -/
theorem pending_none (he : l.next s = some e) (hle : e ≤ n) : l.pending s n = none := by
  refine eq_none_iff_forall_not_mem.mpr fun h hp => ?_
  obtain ⟨e', he', hlt⟩ := hl.pending_below s n h hp
  obtain rfl := some.inj (he.symm.trans he')
  omega

variable {s' : Address P}

/-- A hash has one pending place only. -/
theorem pending_unique {n' : Nat}
    (hp : l.pending s n = some h) (hp' : l.pending s' n' = some h) : s' = s ∧ n' = n := by
  obtain ⟨v, hv, rfl, rfl⟩ := hl.pending_stored s n h hp
  obtain ⟨w, hw, rfl, rfl⟩ := hl.pending_stored s' n' h hp'
  simp [some.inj (hv.symm.trans hw)]

/-- A hash has one queued place only. -/
theorem queued_unique {n' : Nat}
    (hq : l.queued s n = some h) (hq' : l.queued s' n' = some h) : s' = s ∧ n' = n := by
  obtain ⟨v, hv, rfl, rfl⟩ := hl.queued_stored s n h hq
  obtain ⟨w, hw, rfl, rfl⟩ := hl.queued_stored s' n' h hq'
  simp [some.inj (hv.symm.trans hw)]

/-- No hash is both pending and queued. -/
theorem not_queued {n' : Nat} (hp : l.pending s n = some h) : l.queued s' n' ≠ some h := by
  intro hq
  obtain ⟨v, hv, rfl, rfl⟩ := hl.pending_stored s n h hp
  obtain ⟨w, hw, rfl, rfl⟩ := hl.queued_stored s' n' h hq
  obtain rfl := some.inj (hv.symm.trans hw)
  rw [hl.apart _ _ _ hp] at hq
  cases hq

/-- The stored hashes are those with a place. -/
theorem stored_iff :
    (∃ v, l.stored h = some v) ↔
      (∃ s n, l.pending s n = some h) ∨ ∃ s n, l.queued s n = some h := by
  constructor
  · rintro ⟨v, hv⟩
    rcases hl.listed h v hv with hp | hq
    · exact .inl ⟨_, _, hp⟩
    · exact .inr ⟨_, _, hq⟩
  · rintro (⟨s, n, hp⟩ | ⟨s, n, hq⟩)
    · obtain ⟨v, hv, -⟩ := hl.pending_stored s n h hp
      exact ⟨v, hv⟩
    · obtain ⟨v, hv, -⟩ := hl.queued_stored s n h hq
      exact ⟨v, hv⟩

theorem drop (gone : List (Hash P)) : (l.drop gone).Consistent := by
  have hstored : ∀ h v, (l.drop gone).stored h = some v ↔ l.stored h = some v ∧ h ∉ gone := by
    intro h v
    simp only [Listing.drop]
    split <;> simp_all
  have hpending : ∀ s n h, (l.drop gone).pending s n = some h ↔
      l.pending s n = some h ∧ h ∉ gone := by
    simp [Listing.drop, filter_eq_some_iff]
  have hqueued : ∀ s n h, (l.drop gone).queued s n = some h ↔ l.queued s n = some h ∧ h ∉ gone := by
    simp [Listing.drop, filter_eq_some_iff]
  constructor
  case stored_hash => exact fun h v hv => hl.stored_hash h v ((hstored h v).mp hv).1
  case pending_stored =>
    intro s n h hp
    obtain ⟨hp, hgone⟩ := (hpending s n h).mp hp
    obtain ⟨v, hv, hplace⟩ := hl.pending_stored s n h hp
    exact ⟨v, (hstored h v).mpr ⟨hv, hgone⟩, hplace⟩
  case queued_stored =>
    intro s n h hq
    obtain ⟨hq, hgone⟩ := (hqueued s n h).mp hq
    obtain ⟨v, hv, hplace⟩ := hl.queued_stored s n h hq
    exact ⟨v, (hstored h v).mpr ⟨hv, hgone⟩, hplace⟩
  case listed =>
    intro h v hv
    obtain ⟨hv, hgone⟩ := (hstored h v).mp hv
    rcases hl.listed h v hv with hp | hq
    · exact .inl ((hpending _ _ _).mpr ⟨hp, hgone⟩)
    · exact .inr ((hqueued _ _ _).mpr ⟨hq, hgone⟩)
  case apart =>
    intro s n h hp
    have := hl.apart s n h ((hpending s n h).mp hp).1
    simp [Listing.drop, this]
  case pending_below => exact fun s n h hp => hl.pending_below s n h ((hpending s n h).mp hp).1
  case queued_known => exact fun s n h hq => hl.queued_known s n h ((hqueued s n h).mp hq).1

/-- A new transaction made pending, below the expected nonce. -/
theorem addPending (hfresh : l.stored h = none) (hhash : v.tx.txHash = h)
    (hfee : v.priority = v.tx.fee) (hs : v.tx.sender = s) (hn : v.tx.nonce = n)
    (hp : l.pending s n = none) (hq : l.queued s n = none) (he : l.next s = some e)
    (hlt : n < e) : (l.addPending s n h v).Consistent := by
  -- what was listed before was listed under another hash
  have hother : ∀ h' w, l.stored h' = some w → h' ≠ h := by
    rintro h' w hw rfl
    rw [hfresh] at hw
    cases hw
  constructor
  case stored_hash =>
    intro h' w hw
    simp only [Listing.addPending] at hw
    split at hw
    next heq =>
      obtain rfl := some.inj hw
      exact ⟨hhash.trans heq.symm, hfee⟩
    next => exact hl.stored_hash h' w hw
  case pending_stored =>
    intro s' n' h' hp'
    simp only [Listing.addPending] at hp' ⊢
    split at hp'
    next heq =>
      obtain rfl := some.inj hp'
      exact ⟨v, if_pos rfl, hs.trans heq.1.symm, hn.trans heq.2.symm⟩
    next =>
      obtain ⟨w, hw, hplace⟩ := hl.pending_stored s' n' h' hp'
      exact ⟨w, by rw [if_neg (hother h' w hw), hw], hplace⟩
  case queued_stored =>
    intro s' n' h' hq'
    obtain ⟨w, hw, hplace⟩ := hl.queued_stored s' n' h' hq'
    exact ⟨w, by simp [Listing.addPending, hother h' w hw, hw], hplace⟩
  case listed =>
    intro h' w hw
    simp only [Listing.addPending] at hw ⊢
    split at hw
    next heq =>
      obtain rfl := some.inj hw
      exact .inl (by rw [if_pos ⟨hs, hn⟩, heq])
    next =>
      refine (hl.listed h' w hw).imp_left fun hp' => ?_
      rw [if_neg ?_, hp']
      rintro ⟨rfl, rfl⟩
      rw [hp] at hp'
      cases hp'
  case apart =>
    intro s' n' h' hp'
    simp only [Listing.addPending] at hp' ⊢
    split at hp'
    next heq => rw [heq.1, heq.2, hq]
    next => exact hl.apart s' n' h' hp'
  case pending_below =>
    intro s' n' h' hp'
    simp only [Listing.addPending] at hp' ⊢
    split at hp'
    next heq => exact ⟨e, heq.1 ▸ he, heq.2 ▸ hlt⟩
    next => exact hl.pending_below s' n' h' hp'
  case queued_known => exact hl.queued_known

/-- A new transaction queued. -/
theorem addQueued (hfresh : l.stored h = none) (hhash : v.tx.txHash = h)
    (hfee : v.priority = v.tx.fee) (hs : v.tx.sender = s) (hn : v.tx.nonce = n)
    (hp : l.pending s n = none) (hq : l.queued s n = none) (he : l.next s = some e) :
    (l.addQueued s n h v).Consistent := by
  have hother : ∀ h' w, l.stored h' = some w → h' ≠ h := by
    rintro h' w hw rfl
    rw [hfresh] at hw
    cases hw
  constructor
  case stored_hash =>
    intro h' w hw
    simp only [Listing.addQueued] at hw
    split at hw
    next heq =>
      obtain rfl := some.inj hw
      exact ⟨hhash.trans heq.symm, hfee⟩
    next => exact hl.stored_hash h' w hw
  case pending_stored =>
    intro s' n' h' hp'
    obtain ⟨w, hw, hplace⟩ := hl.pending_stored s' n' h' hp'
    exact ⟨w, by simp [Listing.addQueued, hother h' w hw, hw], hplace⟩
  case queued_stored =>
    intro s' n' h' hq'
    simp only [Listing.addQueued] at hq' ⊢
    split at hq'
    next heq =>
      obtain rfl := some.inj hq'
      exact ⟨v, if_pos rfl, hs.trans heq.1.symm, hn.trans heq.2.symm⟩
    next =>
      obtain ⟨w, hw, hplace⟩ := hl.queued_stored s' n' h' hq'
      exact ⟨w, by rw [if_neg (hother h' w hw), hw], hplace⟩
  case listed =>
    intro h' w hw
    simp only [Listing.addQueued] at hw ⊢
    split at hw
    next heq =>
      obtain rfl := some.inj hw
      exact .inr (by rw [if_pos ⟨hs, hn⟩, heq])
    next =>
      refine (hl.listed h' w hw).imp_right fun hq' => ?_
      rw [if_neg ?_, hq']
      rintro ⟨rfl, rfl⟩
      rw [hq] at hq'
      cases hq'
  case apart =>
    intro s' n' h' hp'
    simp only [Listing.addQueued] at hp' ⊢
    rw [if_neg ?_, hl.apart s' n' h' hp']
    rintro ⟨rfl, rfl⟩
    rw [hp] at hp'
    cases hp'
  case pending_below => exact hl.pending_below
  case queued_known =>
    intro s' n' h' hq'
    simp only [Listing.addQueued] at hq' ⊢
    split at hq'
    next heq => exact ⟨e, heq.1 ▸ he⟩
    next => exact hl.queued_known s' n' h' hq'

/-- A higher nonce expected, or a first one. -/
theorem setNext (hle : ∀ e', l.next s = some e' → e' ≤ e) : (l.setNext s e).Consistent := by
  refine { hl with pending_below := ?_, queued_known := ?_ }
  · intro s' n' h' hp
    obtain ⟨e', he', hlt⟩ := hl.pending_below s' n' h' hp
    by_cases heq : s' = s
    · subst heq
      exact ⟨e, if_pos rfl, Nat.lt_of_lt_of_le hlt (hle e' he')⟩
    · exact ⟨e', (if_neg heq).trans he', hlt⟩
  · intro s' n' h' hq
    obtain ⟨e', he'⟩ := hl.queued_known s' n' h' hq
    by_cases heq : s' = s
    · exact ⟨e, if_pos heq⟩
    · exact ⟨e', (if_neg heq).trans he'⟩

/-- The queued transaction with the expected nonce becomes pending. -/
theorem promote (hq : l.queued s n = some h) (he : l.next s = some n) :
    ((l.promote s n h).setNext s (n + 1)).Consistent := by
  have hnone := hl.pending_none he (Nat.le_refl n)
  constructor
  case stored_hash => exact hl.stored_hash
  case pending_stored =>
    intro s' n' h' hp'
    simp only [Listing.promote, Listing.setNext] at hp' ⊢
    split at hp'
    next heq =>
      obtain rfl := some.inj hp'
      rw [heq.1, heq.2]
      exact hl.queued_stored s n h hq
    next => exact hl.pending_stored s' n' h' hp'
  case queued_stored =>
    intro s' n' h' hq'
    simp only [Listing.promote, Listing.setNext] at hq' ⊢
    split at hq'
    next => cases hq'
    next => exact hl.queued_stored s' n' h' hq'
  case listed =>
    intro h' w hw
    simp only [Listing.promote, Listing.setNext] at hw ⊢
    split
    next heq =>
      -- the one place this transaction can have had is the queued one
      refine .inl ?_
      rcases hl.listed h' w hw with hp' | hq'
      · rw [heq.1, heq.2, hnone] at hp'
        cases hp'
      · rw [heq.1, heq.2, hq] at hq'
        exact hq'
    next => exact hl.listed h' w hw
  case apart =>
    intro s' n' h' hp'
    simp only [Listing.promote, Listing.setNext] at hp' ⊢
    split at hp'
    next heq => rw [if_pos heq]
    next heq => rw [if_neg heq, hl.apart s' n' h' hp']
  case pending_below =>
    intro s' n' h' hp'
    simp only [Listing.promote, Listing.setNext] at hp' ⊢
    split at hp'
    next heq => exact ⟨n + 1, by simp [heq.1], by omega⟩
    next =>
      obtain ⟨e', he', hlt⟩ := hl.pending_below s' n' h' hp'
      by_cases heq : s' = s
      · subst heq
        obtain rfl := some.inj (he.symm.trans he')
        exact ⟨n + 1, by simp, by omega⟩
      · exact ⟨e', by simp [heq, he'], hlt⟩
  case queued_known =>
    intro s' n' h' hq'
    simp only [Listing.promote, Listing.setNext] at hq' ⊢
    split at hq'
    next => cases hq'
    next =>
      obtain ⟨e', he'⟩ := hl.queued_known s' n' h' hq'
      by_cases heq : s' = s
      · exact ⟨n + 1, by simp [heq]⟩
      · exact ⟨e', by simp [heq, he']⟩

end Consistent

end Listing

end Minimmit
