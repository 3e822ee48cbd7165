/-
Minimmit.Library.Outcome — state computations that keep their state when
they fail.

A Rust method on `&mut self` that returns `Result<T>` keeps every write it
made before the `?` that ended it, can end in a panic that no caller
catches, and can loop. `Act σ ε α` is that shape: from a state it returns
one of four outcomes TOGETHER with the state at that moment. The fourth
outcome, `exhausted`, is the fuel of a bounded unfolding running out; like
a panic it is never caught, so a run that ends in it is a prefix of the
real execution and nothing after it is invented.

`Act.Triple P m Q E B` is the triple of the development: from a state with
`P` the computation ends normally in `Q`, with an error in `E`, or for good
in `B k`, where `k` says in which way. Most statements make no difference
between the two ways; `Act.Spec P m Q E X` is the triple for them. The rules
follow the way a computation is built (`pure`, `bind`, `attempt`, a branch, a
loop over a list), and nothing here mentions the consensus protocol.
-/
import Mathlib.Logic.Basic
import Mathlib.Data.List.Basic

namespace Minimmit.Library

/-- How a computation ends: a value, a recoverable error (`Err(e)`), a
panic, or the fuel of the unfolding used up. -/
inductive Outcome (ε α : Type) where
  | ok (a : α)
  | err (e : ε)
  | panic
  | exhausted
  deriving Repr, DecidableEq

/-- Is it a normal outcome? -/
def Outcome.isOk {ε α : Type} : Outcome ε α → Bool
  | .ok _ => true
  | _ => false

theorem Outcome.isOk_iff {ε α : Type} {o : Outcome ε α} : o.isOk = true ↔ ∃ a, o = .ok a := by
  cases o <;> simp [isOk]

def Outcome.map {ε α β : Type} (f : α → β) : Outcome ε α → Outcome ε β
  | .ok a => .ok (f a)
  | .err e => .err e
  | .panic => .panic
  | .exhausted => .exhausted

/-- The two ways to end that no caller catches. -/
inductive Abort where
  | panic
  | exhausted
  deriving Repr, DecidableEq

/-- A state computation; the state is returned in every outcome. -/
def Act (σ ε α : Type) : Type := σ → Outcome ε α × σ

namespace Act

variable {σ τ ε α β : Type}

/-- Run `f` on the value of a normal outcome, pass every other outcome on. -/
def bind (m : Act σ ε α) (f : α → Act σ ε β) : Act σ ε β := fun s =>
  match m s with
  | (.ok a, s') => f a s'
  | (.err e, s') => (.err e, s')
  | (.panic, s') => (.panic, s')
  | (.exhausted, s') => (.exhausted, s')

instance : Monad (Act σ ε) where
  pure a := fun s => (.ok a, s)
  bind := bind

/-- The current state. -/
def get : Act σ ε σ := fun s => (.ok s, s)

/-- Replace the state by its image. -/
def modify (f : σ → σ) : Act σ ε Unit := fun s => (.ok (), f s)

/-- End with an error. -/
def throw (e : ε) : Act σ ε α := fun s => (.err e, s)

/-- End with a panic (`expect`, `unwrap`, indexing, checked overflow). -/
def panic : Act σ ε α := fun s => (.panic, s)

/-- The fuel ran out here. -/
def exhausted : Act σ ε α := fun s => (.exhausted, s)

/-- Turn an error into a value (`if let Err(e) = ..`, `match ..`); panics
and exhaustion still pass through. -/
def attempt (m : Act σ ε α) : Act σ ε (Except ε α) := fun s =>
  match m s with
  | (.ok a, s') => (.ok (.ok a), s')
  | (.err e, s') => (.ok (.error e), s')
  | (.panic, s') => (.panic, s')
  | (.exhausted, s') => (.exhausted, s')

/-- Run a computation on a component of the state. -/
def zoom (get : σ → τ) (put : τ → σ → σ) (m : Act τ ε α) : Act σ ε α := fun s =>
  match m (get s) with
  | (o, t) => (o, put t s)

@[simp] theorem pure_run (a : α) (s : σ) : (pure a : Act σ ε α) s = (.ok a, s) := rfl

@[simp] theorem bind_run (m : Act σ ε α) (f : α → Act σ ε β) (s : σ) : (m >>= f) s = match m s with
      | (.ok a, s') => f a s'
      | (.err e, s') => (.err e, s')
      | (.panic, s') => (.panic, s')
      | (.exhausted, s') => (.exhausted, s') := rfl

theorem bind_bind {γ : Type} (m : Act σ ε α) (f : α → Act σ ε β) (g : β → Act σ ε γ) :
    (m >>= f) >>= g = m >>= fun a => f a >>= g := by
  funext s
  simp only [bind_run]
  rcases m s with ⟨o, s'⟩
  cases o <;> rfl

theorem pure_bind (a : α) (f : α → Act σ ε β) : (pure a : Act σ ε α) >>= f = f a := rfl

theorem bind_pure_unit (m : Act σ ε Unit) : (m >>= fun _ => pure ()) = m := by
  funext s
  simp only [bind_run]
  rcases m s with ⟨o, s'⟩
  cases o <;> rfl

@[simp] theorem get_run (s : σ) : (get : Act σ ε σ) s = (.ok s, s) := rfl

@[simp] theorem modify_run (f : σ → σ) (s : σ) : (modify f : Act σ ε Unit) s = (.ok (), f s) := rfl

@[simp] theorem throw_run (e : ε) (s : σ) : (throw e : Act σ ε α) s = (.err e, s) := rfl

@[simp] theorem panic_run (s : σ) : (panic : Act σ ε α) s = (.panic, s) := rfl

@[simp] theorem exhausted_run (s : σ) : (exhausted : Act σ ε α) s = (.exhausted, s) := rfl

/-! ## Triples -/

/-- A result that is in `Q` when the end is normal, in `E` when it is an
error, and in `B k` when nothing comes after it, for the reason `k`. -/
def EndsBy (r : Outcome ε α × σ) (Q : α → σ → Prop) (E : σ → Prop) (B : Abort → σ → Prop) : Prop :=
  match r with
  | (.ok a, s) => Q a s
  | (.err _, s) => E s
  | (.panic, s) => B .panic s
  | (.exhausted, s) => B .exhausted s

/-- From `P` the computation ends in `Q`, `E` or `B`. -/
def Triple (P : σ → Prop) (m : Act σ ε α) (Q : α → σ → Prop) (E : σ → Prop)
    (B : Abort → σ → Prop) : Prop :=
  ∀ s, P s → EndsBy (m s) Q E B

/-- The reason does not matter. -/
def Ends (r : Outcome ε α × σ) (Q : α → σ → Prop) (E X : σ → Prop) : Prop :=
  EndsBy r Q E fun _ => X

/-- From `P` the computation ends in `Q`, `E` or `X`. -/
def Spec (P : σ → Prop) (m : Act σ ε α) (Q : α → σ → Prop) (E X : σ → Prop) : Prop :=
  ∀ s, P s → Ends (m s) Q E X

/-- From `P` the computation ends in `Q`, whatever the outcome. -/
abbrev Leaves (P : σ → Prop) (m : Act σ ε α) (Q : σ → Prop) : Prop := Spec P m (fun _ => Q) Q Q

section Triples

variable {P P' : σ → Prop} {Q Q' : α → σ → Prop} {R : β → σ → Prop} {E E' : σ → Prop}
variable {B B' : Abort → σ → Prop} {m : Act σ ε α} {f : α → Act σ ε β}

variable {r : Outcome ε α × σ}

theorem EndsBy.conseq (h : EndsBy r Q E B) (hQ : ∀ a s, Q a s → Q' a s)
    (hE : ∀ s, E s → E' s) (hB : ∀ k s, B k s → B' k s) : EndsBy r Q' E' B' := by
  obtain ⟨o, s⟩ := r
  cases o with
  | ok a => exact hQ a s h
  | err e => exact hE s h
  | panic | exhausted => exact hB _ s h

theorem EndsBy.and (h : EndsBy r Q E B) (h' : EndsBy r Q' E' B') :
    EndsBy r (fun a s => Q a s ∧ Q' a s) (fun s => E s ∧ E' s) (fun k s => B k s ∧ B' k s) := by
  obtain ⟨o, s⟩ := r
  cases o <;> exact ⟨h, h'⟩

theorem Triple.conseq (h : Triple P m Q E B) (hP : ∀ s, P' s → P s) (hQ : ∀ a s, Q a s → Q' a s)
    (hE : ∀ s, E s → E' s) (hB : ∀ k s, B k s → B' k s) : Triple P' m Q' E' B' :=
  fun s hs => (h s (hP s hs)).conseq hQ hE hB

/-- Strengthen the precondition, weaken the normal postcondition. -/
theorem Triple.weaken (h : Triple P m Q E B) (hP : ∀ s, P' s → P s)
    (hQ : ∀ a s, Q a s → Q' a s) : Triple P' m Q' E B :=
  h.conseq hP hQ (fun _ hs => hs) (fun _ _ hs => hs)

/-- Two triples of one computation. -/
theorem Triple.and (h : Triple P m Q E B) (h' : Triple P' m Q' E' B') :
    Triple (fun s => P s ∧ P' s) m (fun a s => Q a s ∧ Q' a s) (fun s => E s ∧ E' s)
      (fun k s => B k s ∧ B' k s) :=
  fun s hs => (h s hs.1).and (h' s hs.2)

theorem triple_of_prop {p : Prop} (h : p → Triple P m Q E B) : Triple (fun s => p ∧ P s) m Q E B :=
  fun s hs => h hs.1 s hs.2

theorem triple_pure {a : α} (h : ∀ s, P s → Q a s) : Triple P (pure a : Act σ ε α) Q E B :=
  fun s hs => h s hs

theorem triple_bind (hm : Triple P m Q E B) (hf : ∀ a, Triple (Q a) (f a) R E B) :
    Triple P (m >>= f) R E B := by
  intro s hs
  have h := hm s hs
  simp only [bind_run]
  rcases hr : m s with ⟨o, s'⟩
  rw [hr] at h
  cases o with
  | ok a => exact hf a s' h
  | err e => exact h
  | panic => exact h
  | exhausted => exact h

/-- Reading the state: the rest is proved for each value it may have. -/
theorem triple_get_bind {g : σ → Act σ ε β}
    (h : ∀ a, P a → Triple (fun s => s = a ∧ P s) (g a) R E B) :
    Triple P ((get : Act σ ε σ) >>= g) R E B :=
  fun s hs => h s hs s ⟨rfl, hs⟩

theorem triple_modify {g : σ → σ} {Q : Unit → σ → Prop} (h : ∀ s, P s → Q () (g s)) :
    Triple P (modify g : Act σ ε Unit) Q E B :=
  fun s hs => h s hs

theorem triple_throw {e : ε} (h : ∀ s, P s → E s) : Triple P (throw e : Act σ ε α) Q E B :=
  fun s hs => h s hs

theorem triple_panic (h : ∀ s, P s → B .panic s) : Triple P (panic : Act σ ε α) Q E B :=
  fun s hs => h s hs

theorem triple_exhausted (h : ∀ s, P s → B .exhausted s) : Triple P (exhausted : Act σ ε α) Q E B :=
  fun s hs => h s hs

/-- An attempted computation ends normally in `Q` or, with the error as a
value, in `E`. -/
theorem triple_attempt (h : Triple P m Q E B) :
    Triple P (attempt m) (fun r s => match r with
      | .ok a => Q a s
      | .error _ => E s) E' B := by
  intro s hs
  have hm := h s hs
  simp only [attempt]
  rcases hr : m s with ⟨o, s'⟩
  rw [hr] at hm
  cases o <;> exact hm

/-- A computation on a component: the triple is about the whole state. -/
theorem triple_zoom {get : σ → τ} {put : τ → σ → σ} {n : Act τ ε α}
    (h : ∀ s, P s → EndsBy (n (get s)) (fun a t => Q a (put t s)) (fun t => E (put t s))
      (fun k t => B k (put t s))) : Triple P (zoom get put n) Q E B := by
  intro s hs
  have hn := h s hs
  simp only [zoom]
  rcases hr : n (get s) with ⟨o, t⟩
  rw [hr] at hn
  cases o <;> exact hn

theorem triple_ite {c : Prop} [Decidable c] {m₁ m₂ : Act σ ε α} (h₁ : c → Triple P m₁ Q E B)
    (h₂ : ¬ c → Triple P m₂ Q E B) : Triple P (if c then m₁ else m₂) Q E B := by
  by_cases hc : c
  · simpa [hc] using h₁ hc
  · simpa [hc] using h₂ hc

variable {g : α → Act σ ε PUnit}

/-- A loop over a list keeps what every pass keeps. -/
theorem triple_forM {I : σ → Prop} {xs : List α}
    (h : ∀ x ∈ xs, Triple I (g x) (fun _ => I) E B) : Triple I (xs.forM g) (fun _ => I) E B := by
  induction xs with
  | nil => exact triple_pure fun s hs => hs
  | cons x xs ih => exact triple_bind (h x (by simp)) fun _ => ih fun y hy => h y (by simp [hy])

/-- A loop whose invariant speaks of the elements that are left. -/
theorem triple_forM_left {I : List α → σ → Prop} {xs : List α}
    (h : ∀ x rest, Triple (I (x :: rest)) (g x) (fun _ => I rest) E B) :
    Triple (I xs) (xs.forM g) (fun _ => I []) E B := by
  induction xs with
  | nil => exact triple_pure fun s hs => hs
  | cons x xs ih => exact triple_bind (h x xs) fun _ => ih

/-- A loop over consecutive numbers whose invariant speaks of the next one. -/
theorem triple_forM_range {I : Nat → σ → Prop} {a n : Nat} {g : Nat → Act σ ε PUnit}
    (h : ∀ i, a ≤ i → i < a + n → Triple (I i) (g i) (fun _ => I (i + 1)) E B) :
    Triple (I a) ((List.range' a n).forM g) (fun _ => I (a + n)) E B := by
  induction n generalizing a with
  | zero => exact triple_pure fun s hs => hs
  | succ n ih =>
    refine triple_bind (h a (Nat.le_refl a) (by omega)) fun _ => ?_
    have hrest := ih (a := a + 1) fun i hle hlt => h i (by omega) (by omega)
    rwa [show a + 1 + n = a + (n + 1) by omega] at hrest

end Triples

/-! ## Triples that do not ask for the reason -/

section Specs

variable {P P' : σ → Prop} {Q Q' : α → σ → Prop} {R : β → σ → Prop} {E E' X X' : σ → Prop}
variable {m : Act σ ε α} {f : α → Act σ ε β}

theorem Spec.triple (h : Spec P m Q E X) : Triple P m Q E fun _ => X := h

/-- What a spec of the same computation says of the normal end. -/
theorem Triple.with_spec {B : Abort → σ → Prop} (h : Triple P m Q E B)
    (hspec : Spec P' m Q' E' X) (hP : ∀ s, P s → P' s) :
    Triple P m (fun a s => Q' a s ∧ Q a s) E B :=
  (hspec.triple.and h).conseq (fun s hs => ⟨hP s hs, hs⟩) (fun _ _ hs => hs) (fun _ hs => hs.2)
    fun _ _ hs => hs.2

@[simp] theorem ends_err {e : ε} {s : σ} :
    Ends ((.err e, s) : Outcome ε α × σ) Q E X ↔ E s := Iff.rfl

variable {r : Outcome ε α × σ}

theorem Ends.conseq (h : Ends r Q E X) (hQ : ∀ a s, Q a s → Q' a s)
    (hE : ∀ s, E s → E' s) (hX : ∀ s, X s → X' s) : Ends r Q' E' X' :=
  EndsBy.conseq h hQ hE fun _ => hX

/-- A property of the final state, whatever the outcome. -/
theorem ends_iff_state : Ends r (fun _ => X) X X ↔ X r.2 := by
  obtain ⟨o, s⟩ := r
  cases o <;> exact Iff.rfl

theorem Spec.conseq (h : Spec P m Q E X) (hP : ∀ s, P' s → P s) (hQ : ∀ a s, Q a s → Q' a s)
    (hE : ∀ s, E s → E' s) (hX : ∀ s, X s → X' s) : Spec P' m Q' E' X' :=
  fun s hs => (h s (hP s hs)).conseq hQ hE hX

theorem Spec.weaken (h : Spec P m Q E X) (hP : ∀ s, P' s → P s) (hQ : ∀ a s, Q a s → Q' a s) :
    Spec P' m Q' E X :=
  h.triple.weaken hP hQ

/-- A fact about the values only can be taken out of the precondition. -/
theorem spec_of_prop {p : Prop} (h : p → Spec P m Q E X) : Spec (fun s => p ∧ P s) m Q E X :=
  triple_of_prop h

/-- Nothing is asked of the outcome. -/
theorem ends_true (r : Outcome ε α × σ) :
    Ends r (fun _ _ => True) (fun _ => True) fun _ => True := by
  obtain ⟨o, s⟩ := r
  cases o <;> trivial

theorem spec_pure {a : α} (h : ∀ s, P s → Q a s) : Spec P (pure a : Act σ ε α) Q E X :=
  triple_pure h

theorem spec_bind (hm : Spec P m Q E X) (hf : ∀ a, Spec (Q a) (f a) R E X) :
    Spec P (m >>= f) R E X :=
  triple_bind hm hf

theorem spec_get_bind {g : σ → Act σ ε β} (h : ∀ a, P a → Spec (fun s => s = a ∧ P s) (g a) R E X) :
    Spec P ((get : Act σ ε σ) >>= g) R E X :=
  triple_get_bind h

theorem spec_modify {g : σ → σ} {Q : Unit → σ → Prop} (h : ∀ s, P s → Q () (g s)) :
    Spec P (modify g : Act σ ε Unit) Q E X :=
  triple_modify h

theorem spec_throw {e : ε} (h : ∀ s, P s → E s) : Spec P (throw e : Act σ ε α) Q E X :=
  triple_throw h

theorem spec_panic (h : ∀ s, P s → X s) : Spec P (panic : Act σ ε α) Q E X :=
  triple_panic h

theorem spec_exhausted (h : ∀ s, P s → X s) : Spec P (exhausted : Act σ ε α) Q E X :=
  triple_exhausted h

theorem spec_attempt (h : Spec P m Q E X) :
    Spec P (attempt m) (fun r s => match r with
      | .ok a => Q a s
      | .error _ => E s) E' X :=
  triple_attempt h

/-- An attempt whose errors leave what a normal end leaves. -/
theorem spec_attempt_same {Q : σ → Prop} (h : Spec P m (fun _ => Q) Q X) :
    Spec P (attempt m) (fun _ => Q) E X :=
  (spec_attempt h).conseq (fun _ hs => hs) (fun r _ hs => by cases r <;> exact hs)
    (fun _ hs => hs) fun _ hs => hs

theorem spec_zoom {get : σ → τ} {put : τ → σ → σ} {n : Act τ ε α}
    (h : ∀ s, P s → Ends (n (get s)) (fun a t => Q a (put t s)) (fun t => E (put t s))
      (fun t => X (put t s))) : Spec P (zoom get put n) Q E X :=
  triple_zoom h

theorem spec_ite {c : Prop} [Decidable c] {m₁ m₂ : Act σ ε α}
    (h₁ : c → Spec P m₁ Q E X) (h₂ : ¬ c → Spec P m₂ Q E X) :
    Spec P (if c then m₁ else m₂) Q E X :=
  triple_ite h₁ h₂

theorem spec_forM {I : σ → Prop} {xs : List α} {g : α → Act σ ε PUnit}
    (h : ∀ x ∈ xs, Spec I (g x) (fun _ => I) E X) : Spec I (xs.forM g) (fun _ => I) E X :=
  triple_forM h

theorem spec_forM_range {I : Nat → σ → Prop} {a n : Nat} {g : Nat → Act σ ε PUnit}
    (h : ∀ i, a ≤ i → i < a + n → Spec (I i) (g i) (fun _ => I (i + 1)) E X) :
    Spec (I a) ((List.range' a n).forM g) (fun _ => I (a + n)) E X :=
  triple_forM_range h

end Specs

/-! ## Reasons that never come up -/

/-- The computation does not stop for this reason, from any state. -/
def Never (k : Abort) (m : Act σ ε α) : Prop :=
  Triple (fun _ => True) m (fun _ _ => True) (fun _ => True) fun k' _ => k' ≠ k

section Never

variable {k : Abort} {m : Act σ ε α} {f : α → Act σ ε β}

theorem EndsBy.ne_exhausted {r : Outcome ε α × σ} {Q : α → σ → Prop} {E : σ → Prop}
    (h : EndsBy r Q E fun k _ => k ≠ .exhausted) : r.1 ≠ .exhausted := by
  obtain ⟨o, s⟩ := r
  rintro rfl
  exact h rfl

theorem never_bind (hm : Never k m) (hf : ∀ a, Never k (f a)) : Never k (m >>= f) :=
  triple_bind hm hf

theorem never_pure {a : α} : Never k (pure a : Act σ ε α) := triple_pure fun _ _ => trivial

theorem never_modify {g : σ → σ} : Never k (modify g : Act σ ε Unit) :=
  triple_modify fun _ _ => trivial

theorem never_get_bind {g : σ → Act σ ε β} (h : ∀ s, Never k (g s)) :
    Never k ((get : Act σ ε σ) >>= g) :=
  triple_get_bind fun s _ => (h s).weaken (fun _ _ => trivial) fun _ _ h => h

theorem never_attempt (h : Never k m) : Never k (attempt m) :=
  (triple_attempt h).weaken (fun _ h => h) fun _ _ _ => trivial

theorem never_throw {e : ε} : Never k (throw e : Act σ ε α) := triple_throw fun _ _ => trivial

theorem never_ite {c : Prop} [Decidable c] {m' : Act σ ε α} (h : Never k m) (h' : Never k m') :
    Never k (if c then m else m') :=
  triple_ite (fun _ => h) fun _ => h'

theorem never_panic (hk : .panic ≠ k) : Never k (panic : Act σ ε α) := triple_panic fun _ _ => hk

end Never

/-! ## What a computation leaves alone -/

/-- The computation does not change the observation `obs`, whatever its
outcome. -/
def Preserves {γ : Type} (obs : σ → γ) (m : Act σ ε α) : Prop := ∀ s, obs (m s).2 = obs s

section Preserves

variable {γ : Type} {obs : σ → γ} {m m' : Act σ ε α} {f : α → Act σ ε β}

/-- A property of the observation is kept. -/
theorem Preserves.spec (h : Preserves obs m) (p : γ → Prop) :
    Spec (fun s => p (obs s)) m (fun _ s => p (obs s)) (fun s => p (obs s)) fun s => p (obs s) :=
  fun s hs => ends_iff_state.mpr (h s ▸ hs)

theorem preserves_bind (hm : Preserves obs m) (hf : ∀ a, Preserves obs (f a)) :
    Preserves obs (m >>= f) := by
  intro s
  have hms := hm s
  simp only [bind_run]
  rcases hr : m s with ⟨o, s'⟩
  rw [hr] at hms
  cases o with
  | ok a => exact (hf a s').trans hms
  | _ => exact hms

theorem preserves_pure (a : α) : Preserves obs (pure a : Act σ ε α) := fun _ => rfl

theorem preserves_get_bind {g : σ → Act σ ε β} (h : ∀ s, Preserves obs (g s)) :
    Preserves obs ((get : Act σ ε σ) >>= g) := fun s => h s s

theorem preserves_modify {g : σ → σ} (h : ∀ s, obs (g s) = obs s) :
    Preserves obs (modify g : Act σ ε Unit) := h

theorem preserves_ite {c : Prop} [Decidable c] (h : Preserves obs m) (h' : Preserves obs m') :
    Preserves obs (if c then m else m') := by
  split
  · exact h
  · exact h'

theorem preserves_attempt (h : Preserves obs m) : Preserves obs (attempt m) := by
  intro s
  have hs := h s
  unfold attempt
  rcases hr : m s with ⟨o, s'⟩
  rw [hr] at hs
  cases o <;> exact hs

theorem preserves_zoom {get : σ → τ} {put : τ → σ → σ} {n : Act τ ε α}
    (h : ∀ t s, obs (put t s) = obs s) : Preserves obs (zoom get put n) := fun s => h _ s

theorem preserves_forM {xs : List α} {g : α → Act σ ε PUnit} (h : ∀ x, Preserves obs (g x)) :
    Preserves obs (xs.forM g) :=
  fun s => ends_iff_state.mp (spec_forM (I := fun s' => obs s' = obs s)
    (fun x _ => (h x).spec (· = obs s)) s rfl)

end Preserves

/-! ## Properties that are kept -/

/-- The computation keeps `p`, whatever its outcome. -/
def Maintains (p : σ → Prop) (m : Act σ ε α) : Prop := ∀ s, p s → p (m s).2

section Maintains

variable {p : σ → Prop} {m m' : Act σ ε α} {f : α → Act σ ε β}

theorem Maintains.spec (h : Maintains p m) : Spec p m (fun _ => p) p p :=
  fun s hs => ends_iff_state.mpr (h s hs)

theorem maintains_of_spec (h : Spec p m (fun _ => p) p p) : Maintains p m :=
  fun s hs => ends_iff_state.mp (h s hs)

theorem maintains_bind (hm : Maintains p m) (hf : ∀ a, Maintains p (f a)) : Maintains p (m >>= f) :=
  maintains_of_spec (spec_bind hm.spec fun a => (hf a).spec)

theorem maintains_pure (a : α) : Maintains p (pure a : Act σ ε α) := fun _ hs => hs

theorem maintains_throw (e : ε) : Maintains p (throw e : Act σ ε α) := fun _ hs => hs

theorem maintains_panic : Maintains p (panic : Act σ ε α) := fun _ hs => hs

theorem maintains_exhausted : Maintains p (exhausted : Act σ ε α) := fun _ hs => hs

/-- The state that is read has the property. -/
theorem maintains_get_bind {g : σ → Act σ ε β} (h : ∀ s, p s → Maintains p (g s)) :
    Maintains p ((get : Act σ ε σ) >>= g) := fun s hs => h s hs s hs

theorem maintains_modify {g : σ → σ} (h : ∀ s, p s → p (g s)) :
    Maintains p (modify g : Act σ ε Unit) := h

theorem maintains_ite {c : Prop} [Decidable c] (h : Maintains p m) (h' : Maintains p m') :
    Maintains p (if c then m else m') := by
  split
  · exact h
  · exact h'

theorem maintains_attempt (h : Maintains p m) : Maintains p (attempt m) := by
  intro s hs
  have hm := h s hs
  unfold attempt
  rcases hr : m s with ⟨o, s'⟩
  rw [hr] at hm
  cases o <;> exact hm

/-- An attempt has no error, so it ends normally or not at all. -/
theorem ends_of_attempt {s : σ} {E : σ → Prop} (h : p (attempt m s).2) :
    Ends (attempt m s) (fun _ => p) E fun _ => True := by
  unfold attempt at h ⊢
  rcases hr : m s with ⟨o, s'⟩
  rw [hr] at h
  cases o with
  | ok a => exact h
  | err e => exact h
  | panic => trivial
  | exhausted => trivial

theorem maintains_zoom {get : σ → τ} {put : τ → σ → σ} {n : Act τ ε α} {q : τ → Prop}
    (h : Maintains q n) (hget : ∀ s, p s → q (get s)) (hput : ∀ t s, p s → q t → p (put t s)) :
    Maintains p (zoom get put n) :=
  fun s hs => hput _ s hs (h _ (hget s hs))

end Maintains

end Act

end Minimmit.Library
