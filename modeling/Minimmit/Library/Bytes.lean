/-
Minimmit.Library.Bytes — little-endian bytes and codes that can be cut off
the front of a byte string.

`leBytes k n` is `n` as `k` bytes, least significant first (Rust's
`to_le_bytes` at `k = 8`), `leNat` reads bytes back. A code `c : α → bytes`
is prefix-free when no code word starts another; then a concatenation of
code words followed by a tail of known length determines every word
(`concat_inj_of_prefixFree`), which is what makes the preimage of a hash
built by concatenation readable.
-/
import Mathlib.Data.List.Basic
import Mathlib.Tactic.Ring

namespace Minimmit.Library

open List

/-- The `k` low bytes of `n`, least significant first. -/
def leBytes (k n : Nat) : List UInt8 :=
  match k with
  | 0 => []
  | k + 1 => UInt8.ofNat (n % 256) :: leBytes k (n / 256)

/-- The number a little-endian byte string stands for. -/
def leNat : List UInt8 → Nat
  | [] => 0
  | b :: bs => b.toNat + 256 * leNat bs

@[simp] theorem leBytes_length (k n : Nat) : (leBytes k n).length = k := by
  induction k generalizing n with
  | zero => rfl
  | succ k ih => simp [leBytes, ih]

theorem leNat_leBytes (k n : Nat) : leNat (leBytes k n) = n % 256 ^ k := by
  induction k generalizing n with
  | zero => simp [leBytes, leNat, Nat.mod_one]
  | succ k ih =>
    have hb : (UInt8.ofNat (n % 256)).toNat = n % 256 := by simp
    rw [leBytes, leNat, hb, ih, Nat.pow_succ', Nat.mod_mul]

/-- Numbers that fit are determined by their bytes. -/
theorem leBytes_inj {k m n : Nat} (hm : m < 256 ^ k) (hn : n < 256 ^ k)
    (h : leBytes k m = leBytes k n) : m = n := by
  have h' := congrArg leNat h
  rwa [leNat_leBytes, leNat_leBytes, Nat.mod_eq_of_lt hm, Nat.mod_eq_of_lt hn] at h'

/-! ## Prefix-free codes -/

section PrefixFree

variable {α β : Type}

/-- No code word is the beginning of another one. -/
def PrefixFree (c : α → List β) : Prop := ∀ a b, c a <+: c b → a = b

/-- Two strings that start with code words of a prefix-free code start with
the same one. -/
theorem PrefixFree.append_inj {c : α → List β} (hc : PrefixFree c) {a b : α} {s t : List β}
    (h : c a ++ s = c b ++ t) : a = b ∧ s = t := by
  have hab : a = b := by
    have ha : c a <+: c b ++ t := ⟨s, h⟩
    have hb : c b <+: c b ++ t := ⟨t, rfl⟩
    rcases prefix_or_prefix_of_prefix ha hb with hp | hp
    · exact hc a b hp
    · exact (hc b a hp).symm
  subst hab
  exact ⟨rfl, append_cancel_left h⟩

/-- A sequence of non-empty code words is determined by their concatenation
up to a tail of fixed length. -/
theorem concat_inj_of_prefixFree {c : α → List β} (hc : PrefixFree c) (hne : ∀ a, c a ≠ [])
    {k : Nat} {s t : List β} (hs : s.length = k) (ht : t.length = k) :
    ∀ {xs ys : List α}, (xs.map c).flatten ++ s = (ys.map c).flatten ++ t → xs = ys ∧ s = t
  | [], [], h => ⟨rfl, h⟩
  | [], y :: ys, h => by
    have hl := congrArg length h
    have hpos : 0 < (c y).length := length_pos_of_ne_nil (hne y)
    simp only [map_nil, flatten_nil, nil_append, map_cons, flatten_cons,
      length_append] at hl
    omega
  | x :: xs, [], h => by
    have hl := congrArg length h
    have hpos : 0 < (c x).length := length_pos_of_ne_nil (hne x)
    simp only [map_nil, flatten_nil, nil_append, map_cons, flatten_cons,
      length_append] at hl
    omega
  | x :: xs, y :: ys, h => by
    simp only [map_cons, flatten_cons, append_assoc] at h
    obtain ⟨hxy, hrest⟩ := hc.append_inj h
    obtain ⟨htail, hst⟩ := concat_inj_of_prefixFree hc hne hs ht hrest
    exact ⟨by rw [hxy, htail], hst⟩

end PrefixFree

end Minimmit.Library
