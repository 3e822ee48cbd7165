/-
Minimmit.Validation.AccountHistory — the changes of one account in a block.

Addresses do not interact once the entries of a block are known, so what a
block does to an account is a list of changes of that account. Applied one
after the other (`applyAll`) they are the sequential execution. A diff keeps
less of them: the sum of the deltas, the last nonce and whether the account
was created (`recordAll`), from which a reader computes the account again
(`net`). The two agree exactly when the sum, cut to a `u64`, is what the
saturating steps leave, and an account that was opened by a credit and is
empty again has used no nonce (`net_same_iff`).
-/
import Minimmit.Library.CappedSum
import Minimmit.Validation.Ledger

namespace Minimmit

variable {x : Option AccountState} {cs : List Change}

open Minimmit.Library Option List AccountUpdate

/-- The largest `u64`. -/
def u64Max : Int := u64Size - 1

/-- What a reader, or the database, makes of an update: it is added to an
account that exists, and opens one if it is a gain. -/
def AccountUpdate.applyTo (update : Option AccountUpdate) (account : Option AccountState) :
    Option AccountState :=
  match update with
  | none => account
  | some u =>
    match account with
    | some st => some { balance := addDelta st.balance u.balanceDelta, nonce := u.newNonce }
    | none =>
      if 0 < u.balanceDelta then some { balance := asU64 u.balanceDelta, nonce := u.newNonce }
      else none

namespace Change

/-! ## One after the other -/

/-- The account after all changes. -/
def applyAll (account : Option AccountState) (cs : List Change) : Option AccountState :=
  cs.foldl apply account

/-- Each change is allowed on what the ones before it leave. -/
def AllAllowed : Option AccountState → List Change → Prop
  | _, [] => True
  | x, c :: cs => c.Allowed x ∧ AllAllowed (apply x c) cs

/-- The changes that use a nonce. -/
def spends (cs : List Change) : Nat :=
  cs.countP fun c => match c with
    | spend _ => true
    | _ => false

/-- The exact deltas. -/
def deltas (cs : List Change) : List Int := cs.map delta

variable {x : Option AccountState} {c : Change} {cs : List Change}

theorem isSome_apply (h : c.Allowed x) : (apply x c).isSome = true := by
  cases c with
  | spend amount =>
    obtain ⟨st, rfl, -, -⟩ := h
    rfl
  | credit amount => rfl
  | create => rfl

theorem isSome_applyAll (h : AllAllowed x cs) :
    (applyAll x cs).isSome = true ↔ x.isSome = true ∨ cs ≠ [] := by
  induction cs generalizing x with
  | nil => simp [applyAll]
  | cons c cs ih =>
    have hall : (applyAll (apply x c) cs).isSome = true :=
      (ih h.2).mpr (.inl (isSome_apply h.1))
    exact iff_of_true hall (.inr (cons_ne_nil _ _))

theorem balanceOf_apply (h : c.Allowed x) (hx : balanceOf x < u64Size) :
    (balanceOf (apply x c) : Int) = min (balanceOf x + c.delta) u64Max := by
  cases c with
  | spend amount =>
    obtain ⟨st, rfl, hle, -⟩ := h
    simp only [balanceOf, apply, delta, u64Max, map_some, getD_some] at hx ⊢
    omega
  | credit amount =>
    cases x <;>
      simp only [balanceOf, apply, delta, saturatingAdd, u64Max, u64Size, map_some,
        getD_some, map_none, getD_none] at hx ⊢ <;> omega
  | create =>
    obtain rfl : x = none := h
    simp [balanceOf, apply, delta, u64Max, u64Size]

theorem balanceOf_apply_lt (h : c.Allowed x) (hx : balanceOf x < u64Size) :
    balanceOf (apply x c) < u64Size := by
  have := balanceOf_apply h hx
  simp only [u64Max] at this
  omega

/-- **The balance** is the capped sum of the deltas. -/
theorem balanceOf_applyAll (h : AllAllowed x cs) (hx : balanceOf x < u64Size) :
    (balanceOf (applyAll x cs) : Int) = cappedSum u64Max (balanceOf x) (deltas cs) := by
  induction cs generalizing x with
  | nil => rfl
  | cons c cs ih =>
    have := ih h.2 (balanceOf_apply_lt h.1 hx)
    rw [balanceOf_apply h.1 hx] at this
    exact this

theorem nonceOf_apply (h : c.Allowed x) : nonceOf (apply x c) = nonceOf x + spends [c] := by
  cases c with
  | spend amount =>
    obtain ⟨st, rfl, -, -⟩ := h
    rfl
  | credit amount => cases x <;> rfl
  | create =>
    obtain rfl : x = none := h
    rfl

theorem spends_cons : spends (c :: cs) = spends [c] + spends cs := by
  simp only [spends, countP_cons, countP_nil]
  omega

/-- **The nonce** counts the debits. -/
theorem nonceOf_applyAll (h : AllAllowed x cs) :
    nonceOf (applyAll x cs) = nonceOf x + spends cs := by
  induction cs generalizing x with
  | nil => rfl
  | cons c cs ih =>
    rw [spends_cons, ← Nat.add_assoc, ← nonceOf_apply h.1]
    exact ih h.2

/-! ## What a diff keeps -/

/-- The sum a diff holds so far. -/
def recorded (u : Option AccountUpdate) : Int := (u.map (·.balanceDelta)).getD 0

/-- What a change of an account leaves in the update of a diff. -/
def record (x : Option AccountState) (u : Option AccountUpdate) : Change → Option AccountUpdate
  | spend amount =>
    some { balanceDelta := recorded u + -(amount : Int), newNonce := nonceOf x + 1 }
  | credit amount => some { balanceDelta := recorded u + amount, newNonce := nonceOf x }
  | create => u

/-- What several changes leave in it. -/
def recordAll : Option AccountState → Option AccountUpdate → List Change → Option AccountUpdate
  | _, u, [] => u
  | x, u, c :: cs => recordAll (apply x c) (record x u c) cs

/-- An account that exists is not created, so every change is recorded. -/
theorem recordAll_of_isSome {u : Option AccountUpdate} (h : AllAllowed x cs)
    (hx : x.isSome = true) : recordAll x u cs = if cs = [] then u else
      some { balanceDelta := recorded u + (deltas cs).sum, newNonce := nonceOf (applyAll x cs) } := by
  induction cs generalizing x u with
  | nil => rfl
  | cons c cs ih =>
    have hstep : record x u c =
        some { balanceDelta := recorded u + c.delta, newNonce := nonceOf (apply x c) } := by
      rw [nonceOf_apply h.1]
      cases c with
      | spend amount => rfl
      | credit amount => rfl
      | create =>
        obtain rfl : x = none := h.1
        cases hx
    rw [recordAll, hstep, ih h.2 (isSome_apply h.1), if_neg (cons_ne_nil _ _)]
    split
    case isTrue hnil =>
      subst hnil
      simp [deltas, applyAll]
    case isFalse =>
      simp only [recorded, map_some, getD_some, deltas, map_cons, sum_cons,
        Int.add_assoc]
      rfl

/-- **The update of a diff** is the sum of the deltas and the nonce at the
end; an account that is only created has none. -/
theorem recordAll_eq (h : AllAllowed x cs) : recordAll x none cs =
    if cs = [] ∨ cs = [create] then none else
      some { balanceDelta := (deltas cs).sum, newNonce := nonceOf (applyAll x cs) } := by
  cases hx : x.isSome with
  | true =>
    rw [recordAll_of_isSome h hx]
    have hone : cs ≠ [create] := by
      rintro rfl
      obtain rfl : x = none := h.1
      cases hx
    simp [hone, recorded]
  | false =>
    cases cs with
    | nil => rfl
    | cons c cs =>
      have hrest := recordAll_of_isSome (u := record x none c) h.2 (isSome_apply h.1)
      obtain rfl := isSome_eq_false_iff.mp hx |> isNone_iff_eq_none.mp
      cases c with
      | spend amount =>
        obtain ⟨st, hst, -, -⟩ := h.1
        cases hst
      | credit amount =>
        rw [recordAll, hrest]
        split
        case isTrue hnil =>
          subst hnil
          simp [record, recorded, deltas, applyAll, apply, nonceOf, delta]
        case isFalse =>
          simp [record, recorded, deltas, delta, applyAll]
      | create =>
        rw [recordAll, hrest]
        simp [record, recorded, deltas, delta, applyAll]

/-- The account as a reader of the diff computes it. -/
def net (x : Option AccountState) (cs : List Change) : Option AccountState :=
  AccountUpdate.applyTo (recordAll x none cs)
    (if create ∈ cs then some { balance := 0, nonce := 0 } else x)

/-- Only an account that does not exist is created, and as the first
change. -/
theorem eq_cons_of_create_mem (h : AllAllowed x cs) (hc : create ∈ cs) :
    x = none ∧ ∃ rest, cs = create :: rest ∧ create ∉ rest := by
  have hnot : ∀ {x : Option AccountState} {cs : List Change}, AllAllowed x cs →
      x.isSome = true → create ∉ cs := by
    intro x cs h hx hmem
    induction cs generalizing x with
    | nil => cases hmem
    | cons c cs ih =>
      rcases mem_cons.mp hmem with rfl | hmem
      · obtain rfl : x = none := h.1
        cases hx
      · exact ih h.2 (isSome_apply h.1) hmem
  cases cs with
  | nil => cases hc
  | cons c cs =>
    have hrest := hnot h.2 (isSome_apply h.1)
    rcases mem_cons.mp hc with rfl | hmem
    · exact ⟨h.1, cs, rfl, hrest⟩
    · exact absurd hmem hrest

/-- A reader whose account exists, or is created, adds the sum of the deltas
to the balance. -/
theorem net_of_base (h : AllAllowed x cs) (hbase : x.isSome = true ∨ create ∈ cs)
    (hx : balanceOf x < u64Size) :
    net x cs = some { balance := addDelta (balanceOf x) (deltas cs).sum
                      nonce := nonceOf (applyAll x cs) } := by
  have hzero : ∀ b, b < u64Size → addDelta b 0 = b := by
    intro b hb
    simp only [addDelta, saturatingAdd, asU64]
    simp
    omega
  unfold net applyTo
  rw [recordAll_eq h]
  by_cases hc : create ∈ cs
  · obtain ⟨rfl, rest, rfl, -⟩ := eq_cons_of_create_mem h hc
    cases rest with
    | nil => simp [deltas, delta, addDelta, saturatingAdd, asU64, balanceOf, nonceOf, applyAll, apply]
    | cons c rest => simp [balanceOf]
  · obtain ⟨st, rfl⟩ := isSome_iff_exists.mp (hbase.resolve_right hc)
    have hone : cs ≠ [create] := by
      rintro rfl
      exact hc mem_cons_self
    by_cases hnil : cs = []
    · subst hnil
      have : addDelta st.balance 0 = st.balance := hzero st.balance hx
      simp [deltas, applyAll, nonceOf, balanceOf, this]
    · simp [hc, hnil, hone, balanceOf]

/-- A reader without an account opens one if the sum is a gain. -/
theorem net_of_none (h : AllAllowed none cs) (hc : create ∉ cs) :
    net none cs = if 0 < (deltas cs).sum then
      some { balance := asU64 (deltas cs).sum, nonce := nonceOf (applyAll none cs) } else none := by
  unfold net applyTo
  rw [recordAll_eq h]
  by_cases hnil : cs = []
  · subst hnil
    simp [deltas]
  · have hone : cs ≠ [create] := by
      rintro rfl
      exact hc mem_cons_self
    simp [hc, hnil, hone]

/-- A reader who sees the account sees its nonce. -/
theorem nonceOf_net (h : AllAllowed x cs)
    (hseen : x.isSome = true ∨ create ∈ cs ∨ 0 < (deltas cs).sum) :
    nonceOf (net x cs) = nonceOf (applyAll x cs) := by
  unfold net
  rw [recordAll_eq h]
  by_cases hnil : cs = []
  · subst hnil
    rfl
  by_cases hone : cs = [create]
  · subst hone
    rfl
  rw [if_neg (not_or.mpr ⟨hnil, hone⟩)]
  by_cases hc : create ∈ cs
  · rw [if_pos hc]
    rfl
  rw [if_neg hc]
  cases x with
  | some st => rfl
  | none =>
    have hpos : 0 < (deltas cs).sum := (hseen.resolve_left (by simp)).resolve_left hc
    simp only [applyTo, if_pos hpos]
    rfl

/-- No reader sees a nonce go down. -/
theorem nonceOf_le_net (h : AllAllowed x cs) : nonceOf x ≤ nonceOf (net x cs) := by
  cases x with
  | none => exact Nat.zero_le _
  | some st =>
    rw [nonceOf_net h (.inl rfl), nonceOf_applyAll h]
    exact Nat.le_add_right _ _

end Change

/-! ## Agreement -/

/-- The same balance and nonce; and the same existence for an account that
was created or is not empty. -/
structure SameAccount (created : Prop) (seen executed : Option AccountState) : Prop where
  balance : balanceOf seen = balanceOf executed
  nonce : nonceOf seen = nonceOf executed
  isSome : created ∨ balanceOf executed ≠ 0 ∨ nonceOf executed ≠ 0 →
    (seen.isSome = true ↔ executed.isSome = true)

/-- The sum of the deltas gives the balance of the saturating steps: no
running total leaves the `u64` range; or one does, and the end result is the
same by the way the sum is cut. -/
def SumExact (before : Nat) (ds : List Int) (cut : Int → Int) : Prop :=
  peak before ds ≤ u64Max ∨
    0 ≤ ds.sum ∧ cut (ds.sum % u64Size) = before + ds.sum - (peak before ds - u64Max)

/-- The condition on one account under which a diff reproduces the execution:
`created` says that the block creates it, `used` that it uses a nonce. -/
structure NetExact (before : Option AccountState) (created used : Prop) (ds : List Int) :
    Prop where
  added : before.isSome = true ∨ created →
    SumExact (balanceOf before) ds fun sum => min (balanceOf before + sum) u64Max
  /-- An account the block opens by a credit starts from the sum alone. -/
  opened : before = none → ¬ created → 0 < ds.sum → SumExact 0 ds id
  /-- It is forgotten when nothing is left in it. -/
  forgotten : before = none → ¬ created → ds.sum ≤ 0 → ¬ used

/-- The condition looks at the deltas through their total and their peak. -/
theorem NetExact.congr {before : Option AccountState} {created used created' used' : Prop}
    {ds ds' : List Int} (hcreated : created ↔ created') (hused : before = none → (used ↔ used'))
    (hds : SameCourse ds ds') :
    NetExact before created used ds ↔ NetExact before created' used' ds' := by
  have hsum : ∀ b cut, SumExact b ds cut ↔ SumExact b ds' cut := fun b cut => by
    rw [SumExact, SumExact, hds.peak, hds.sum]
  constructor
  · intro h
    exact ⟨fun hb => (hsum _ _).mp (h.added (hb.imp_right hcreated.mpr)),
      fun hn hc hp => (hsum _ _).mp (h.opened hn (mt hcreated.mp hc) (hds.sum ▸ hp)),
      fun hn hc hle => mt (hused hn).mpr (h.forgotten hn (mt hcreated.mp hc) (hds.sum ▸ hle))⟩
  · intro h
    exact ⟨fun hb => (hsum _ _).mpr (h.added (hb.imp_right hcreated.mp)),
      fun hn hc hp => (hsum _ _).mpr (h.opened hn (mt hcreated.mpr hc) (hds.sum ▸ hp)),
      fun hn hc hle => mt (hused hn).mp (h.forgotten hn (mt hcreated.mpr hc) (hds.sum ▸ hle))⟩

section Sums

variable {b : Nat} {ds : List Int}

/-- Adding the sum to a balance. -/
theorem addDelta_eq_iff (hb : b < u64Size) (hnn : 0 ≤ cappedSum u64Max b ds) :
    (addDelta b ds.sum : Int) = cappedSum u64Max b ds ↔
      SumExact b ds fun sum => min (b + sum) u64Max := by
  have hle : cappedSum u64Max b ds ≤ u64Max := cappedSum_le (by simp only [u64Max]; omega) ds
  rw [cappedSum_eq (by simp only [u64Max]; omega)] at hnn hle ⊢
  have hpeak := add_sum_le_peak b ds
  have hstart := le_peak b ds
  simp only [SumExact, addDelta, saturatingAdd, asU64, u64Max, u64Size] at *
  generalize peak (b : Int) ds = p at *
  generalize ds.sum = sum at *
  split <;> omega

/-- Starting from the sum alone. -/
theorem asU64_eq_iff (hpos : 0 < ds.sum) :
    (asU64 ds.sum : Int) = cappedSum u64Max 0 ds ↔ SumExact 0 ds id := by
  have hle : cappedSum u64Max 0 ds ≤ u64Max :=
    cappedSum_le (by simp only [u64Max, u64Size]; omega) ds
  rw [cappedSum_eq (by simp only [u64Max, u64Size]; omega)] at hle ⊢
  have hpeak := add_sum_le_peak 0 ds
  have hstart := le_peak 0 ds
  simp only [SumExact, asU64, u64Max, u64Size, id, Nat.cast_zero] at *
  generalize peak (0 : Int) ds = p at *
  generalize ds.sum = sum at *
  omega

end Sums

theorem sameAccount_some {created : Prop} {n : Nat} {y : AccountState} :
    SameAccount created (some { balance := n, nonce := nonceOf (some y) }) (some y) ↔
      n = y.balance :=
  ⟨fun h => h.balance, fun h => ⟨h, rfl, fun _ => iff_of_true rfl rfl⟩⟩

/-- **A diff reproduces the execution of an account** exactly under
`NetExact`. -/
theorem Change.net_same_iff (h : AllAllowed x cs) (hx : balanceOf x < u64Size) :
    SameAccount (create ∈ cs) (net x cs) (applyAll x cs) ↔
      NetExact x (create ∈ cs) (spends cs ≠ 0) (deltas cs) := by
  have hbal := balanceOf_applyAll h hx
  have hnonce := nonceOf_applyAll h
  by_cases hbase : x.isSome = true ∨ create ∈ cs
  · -- the account exists at the end
    have hsome : (applyAll x cs).isSome = true := by
      refine (isSome_applyAll h).mpr (hbase.imp_right ?_)
      rintro hc rfl
      cases hc
    obtain ⟨st, hst⟩ := isSome_iff_exists.mp hsome
    rw [net_of_base h hbase hx, hst, sameAccount_some]
    rw [hst] at hbal
    have hiff := addDelta_eq_iff hx (show 0 ≤ cappedSum u64Max (balanceOf x) (deltas cs) by omega)
    rw [← hbal] at hiff
    have hnum : balanceOf (some st) = st.balance := rfl
    rw [hnum] at hiff
    constructor
    · intro heq
      refine ⟨fun _ => hiff.mp (by omega), fun hnone hc => ?_, fun hnone hc => ?_⟩ <;>
      · subst hnone
        exact absurd (hbase.resolve_right hc) (by simp)
    · intro hexact
      have := hiff.mpr (hexact.added hbase)
      omega
  · -- it is opened by a credit, if at all
    obtain ⟨hnone, hc⟩ := not_or.mp hbase
    obtain rfl : x = none := by simpa using hnone
    have hzero : nonceOf (none : Option AccountState) = 0 := rfl
    have hempty : balanceOf (none : Option AccountState) = 0 := rfl
    rw [net_of_none h hc]
    rw [hempty, Nat.cast_zero] at hbal
    by_cases hpos : 0 < (deltas cs).sum
    · rw [if_pos hpos]
      have hne : cs ≠ [] := by
        rintro rfl
        exact absurd hpos (by simp [deltas])
      obtain ⟨st, hst⟩ := isSome_iff_exists.mp ((isSome_applyAll h).mpr (.inr hne))
      rw [hst] at hbal ⊢
      rw [sameAccount_some]
      have hiff := asU64_eq_iff hpos
      rw [← hbal] at hiff
      have hnum : balanceOf (some st) = st.balance := rfl
      rw [hnum] at hiff
      constructor
      · intro heq
        exact ⟨fun hb => absurd hb hbase, fun _ _ _ => hiff.mp (by omega), fun _ _ hle => by omega⟩
      · intro hexact
        have := hiff.mpr (hexact.opened rfl hc hpos)
        omega
    · rw [if_neg hpos]
      -- nothing is left: the total is not positive and no balance is negative
      have hle : cappedSum u64Max 0 (deltas cs) ≤ 0 + (deltas cs).sum := by
        rw [cappedSum_eq (by simp only [u64Max, u64Size]; omega)]
        omega
      have hbal' : balanceOf (applyAll none cs) = 0 := by omega
      rw [hzero, Nat.zero_add] at hnonce
      constructor
      · intro hsame
        refine ⟨fun hb => absurd hb hbase, fun _ _ hp => absurd hp hpos, fun _ _ _ hused => hused ?_⟩
        exact hnonce.symm.trans (hsame.nonce.symm.trans hzero)
      · intro hexact
        have hused := hexact.forgotten rfl hc (by omega)
        have hnonce' : nonceOf (applyAll none cs) = 0 := hnonce.trans (not_not.mp hused)
        exact ⟨hempty.trans hbal'.symm, hzero.trans hnonce'.symm,
          fun hcase => absurd hcase (by simp [hc, hbal', hnonce'])⟩

/-- A reader who sees no account is right exactly when the block left it
empty and unused. -/
theorem Change.none_same_iff (h : AllAllowed none cs) :
    SameAccount (create ∈ cs) none (applyAll none cs) ↔
      create ∉ cs ∧ spends cs = 0 ∧ (deltas cs).sum = 0 := by
  have hbal := balanceOf_applyAll h (x := none) (by decide)
  have hnonce := nonceOf_applyAll h
  have hcap := cappedSum_eq (show (0 : Int) ≤ u64Max by decide) (deltas cs)
  have hzero : nonceOf (none : Option AccountState) = 0 := rfl
  have hempty : balanceOf (none : Option AccountState) = 0 := rfl
  rw [hempty, Nat.cast_zero] at hbal
  rw [hzero, Nat.zero_add] at hnonce
  constructor
  · intro hsame
    have hspends : spends cs = 0 := hnonce.symm.trans (hsame.nonce.symm.trans hzero)
    refine ⟨fun hc => ?_, hspends, ?_⟩
    · have hsome := (isSome_applyAll h).mpr (.inr (ne_nil_of_mem hc))
      exact nomatch (hsame.isSome (.inl hc)).mpr hsome
    -- only credits: the last total is the peak
    have hnn : ∀ d ∈ deltas cs, 0 ≤ d := by
      intro d hd
      obtain ⟨c, hc, rfl⟩ := mem_map.mp hd
      have := countP_eq_zero.mp hspends c hc
      cases c with
      | spend amount => exact absurd rfl this
      | credit amount => exact Int.natCast_nonneg amount
      | create => exact le_refl 0
    have hpeak := peak_of_nonneg hnn 0
    have := hsame.balance
    simp only [u64Max, u64Size] at hcap hpeak hbal
    omega
  · rintro ⟨hc, hspends, hsum⟩
    have hbal' : balanceOf (applyAll none cs) = 0 := by omega
    exact ⟨hempty.trans hbal'.symm, hzero.trans (hnonce.trans hspends).symm,
      fun hcase => absurd hcase (by simp [hc, hbal', hnonce, hspends])⟩

/-- **What a reader of the diff misses**: an account never ends above the
exact sum, and below it only if that is above `u64::MAX`. -/
theorem Change.balanceOf_net (h : AllAllowed x cs) (hx : balanceOf x < u64Size) :
    0 ≤ balanceOf x + (deltas cs).sum ∧
      (balanceOf (net x cs) : Int) ≤ balanceOf x + (deltas cs).sum ∧
      ((balanceOf (net x cs) : Int) = balanceOf x + (deltas cs).sum ↔
        balanceOf x + (deltas cs).sum ≤ u64Max) := by
  have hbal := balanceOf_applyAll h hx
  rw [cappedSum_eq (by simp only [u64Max]; omega)] at hbal
  have hnn : 0 ≤ balanceOf x + (deltas cs).sum := by omega
  refine ⟨hnn, ?_⟩
  by_cases hbase : x.isSome = true ∨ create ∈ cs
  · rw [net_of_base h hbase hx]
    have hnum : balanceOf (some { balance := addDelta (balanceOf x) (deltas cs).sum
                                  nonce := nonceOf (applyAll x cs) }) =
        addDelta (balanceOf x) (deltas cs).sum := rfl
    rw [hnum]
    simp only [addDelta, saturatingAdd, asU64, u64Max, u64Size] at *
    split <;> omega
  · obtain ⟨hnone, hc⟩ := not_or.mp hbase
    obtain rfl : x = none := by simpa using hnone
    rw [net_of_none h hc]
    have hempty : balanceOf (none : Option AccountState) = 0 := rfl
    rw [hempty] at hnn ⊢
    split
    · have hnum : balanceOf (some { balance := asU64 (deltas cs).sum
                                    nonce := nonceOf (applyAll none cs) }) =
          asU64 (deltas cs).sum := rfl
      rw [hnum]
      simp only [asU64, u64Max, u64Size] at *
      omega
    · simp only [u64Max, u64Size]
      omega

end Minimmit
