/-
Minimmit.State.Block — transactions, blocks and the bytes they are hashed
from (state/transaction.rs, state/block.rs).

`Params` collects what the whole development is generic in: the const
generics `N`, `F` and `M_SIZE` of the source, the two signature schemes, the
hash and the iteration order of the standard library's hash containers.

A transaction carries its own hash and a block may carry its own hash; both
arrive from the network as they are. `Block.getHash` returns the carried
hash when there is one and computes it otherwise, exactly as the source.
-/
import Minimmit.Crypto.Aggregated
import Minimmit.Library.KeySet

namespace Minimmit

open Minimmit.Library List Function

/-- The Ed25519 functions the transactions use. -/
structure Ed25519 where
  Address : Type
  Signature : Type
  [decEq : DecidableEq Address]
  /-- `Address::as_bytes`, the 32 bytes an address is -/
  addressBytes : Address → List UInt8
  addressBytes_length : ∀ a, (addressBytes a).length = 32
  addressBytes_injective : Function.Injective addressBytes
  /-- `Address::to_public_key().is_some()`: the bytes are a curve point -/
  isPublicKey : Address → Bool
  /-- `TxPublicKey::verify` -/
  verify : Address → List UInt8 → Signature → Bool
  /-- `ed25519_dalek::verify_batch(..).is_ok()` -/
  verifyBatch : List (List UInt8 × Signature × Address) → Bool

attribute [instance] Ed25519.decEq

/-- Everything the replica's code is generic in. -/
structure Params where
  N : Nat
  F : Nat
  mSize : Nat
  hashing : Hashing
  curve : Curve
  ed25519 : Ed25519
  hashOrder : HashOrder

/-- The number of values of a `u64`. -/
def u64Size : Nat := 2 ^ 64

/-- `to_le_bytes` of a `u64`. -/
def u64Bytes (n : Nat) : List UInt8 := leBytes 8 n

theorem u64Bytes_inj {m n : Nat} (hm : m < u64Size) (hn : n < u64Size)
    (h : u64Bytes m = u64Bytes n) : m = n :=
  leBytes_inj (by simpa [u64Size] using hm) (by simpa [u64Size] using hn) h

variable (P : Params)

abbrev Hash : Type := P.hashing.Hash
abbrev Address : Type := P.ed25519.Address
abbrev BlsSignature : Type := P.curve.G1
abbrev BlsPublicKey : Type := P.curve.G2
abbrev BlsSecretKey : Type := P.curve.Fr

instance hash_lawfulBEq : LawfulBEq (Hash P) := inferInstance

/-! ## Transactions -/

inductive TransactionInstruction where
  | createAccount (address : Address P)
  | burn (address : Address P) (amount : Nat)
  | mint (recipient : Address P) (amount : Nat)
  | transfer (recipient : Address P) (amount : Nat)
  deriving DecidableEq

structure Transaction where
  sender : Address P
  instruction : TransactionInstruction P
  nonce : Nat
  timestamp : Nat
  fee : Nat
  txHash : Hash P
  signature : P.ed25519.Signature

variable {P}

/-- The part of the preimage that names the instruction, with the
discriminants 1 to 4 of the source. -/
def TransactionInstruction.hashBytes : TransactionInstruction P → List UInt8
  | .createAccount address => 1 :: P.ed25519.addressBytes address
  | .burn address amount => 2 :: P.ed25519.addressBytes address ++ u64Bytes amount
  | .mint recipient amount => 3 :: P.ed25519.addressBytes recipient ++ u64Bytes amount
  | .transfer recipient amount => 4 :: P.ed25519.addressBytes recipient ++ u64Bytes amount

/-- `Transaction::compute_hash` of the transaction's own content. -/
def Transaction.computeHash (t : Transaction P) : Hash P :=
  P.hashing.blake3 (P.ed25519.addressBytes t.sender ++ t.instruction.hashBytes ++
    u64Bytes t.nonce ++ u64Bytes t.timestamp ++ u64Bytes t.fee)

/-- The numbers of an instruction are `u64` values. -/
def TransactionInstruction.WellTyped : TransactionInstruction P → Prop
  | .createAccount _ => True
  | .burn _ amount => amount < u64Size
  | .mint _ amount => amount < u64Size
  | .transfer _ amount => amount < u64Size

instance (i : TransactionInstruction P) : Decidable i.WellTyped := by
  unfold TransactionInstruction.WellTyped
  split <;> infer_instance

/-- The numbers of a transaction are `u64` values. -/
def Transaction.WellTyped (t : Transaction P) : Prop :=
  t.instruction.WellTyped ∧ t.nonce < u64Size ∧ t.timestamp < u64Size ∧ t.fee < u64Size

instance (t : Transaction P) : Decidable t.WellTyped :=
  inferInstanceAs (Decidable (_ ∧ _ ∧ _ ∧ _))

/-! ## What a transaction hash determines -/

theorem u64Bytes_length (n : Nat) : (u64Bytes n).length = 8 := leBytes_length 8 n

theorem TransactionInstruction.hashBytes_inj {i j : TransactionInstruction P}
    (hi : i.WellTyped) (hj : j.WellTyped) (h : i.hashBytes = j.hashBytes) : i = j := by
  have htail : ∀ {a b : Address P} {m n : Nat}, m < u64Size → n < u64Size →
      P.ed25519.addressBytes a ++ u64Bytes m = P.ed25519.addressBytes b ++ u64Bytes n →
      a = b ∧ m = n := by
    intro a b m n hm hn heq
    obtain ⟨ha, hb⟩ := append_inj heq
      ((P.ed25519.addressBytes_length a).trans (P.ed25519.addressBytes_length b).symm)
    exact ⟨P.ed25519.addressBytes_injective ha, u64Bytes_inj hm hn hb⟩
  cases i <;> cases j <;> simp only [hashBytes, cons_append, cons.injEq] at h
  -- the discriminants separate the four instructions
  case createAccount.createAccount a b => rw [P.ed25519.addressBytes_injective h.2]
  case burn.burn a m b n => obtain ⟨rfl, rfl⟩ := htail hi hj h.2; rfl
  case mint.mint a m b n => obtain ⟨rfl, rfl⟩ := htail hi hj h.2; rfl
  case transfer.transfer a m b n => obtain ⟨rfl, rfl⟩ := htail hi hj h.2; rfl
  all_goals exact absurd h.1 (by decide)

/-- The transaction carries the hash of its content and the signature that
`sign` gives its sender on that hash. -/
def Transaction.Honest (sign : Address P → Hash P → P.ed25519.Signature) (t : Transaction P) :
    Prop :=
  t.txHash = t.computeHash ∧ t.signature = sign t.sender t.txHash

/-- The two transactions say the same: only hash and signature may differ. -/
structure Transaction.SameContent (t u : Transaction P) : Prop where
  sender : t.sender = u.sender
  instruction : t.instruction = u.instruction
  nonce : t.nonce = u.nonce
  timestamp : t.timestamp = u.timestamp
  fee : t.fee = u.fee

/-- Under a collision-free hash, `compute_hash` determines the content. -/
theorem Transaction.sameContent_of_computeHash (hinj : Injective P.hashing.blake3)
    {t u : Transaction P} (ht : t.WellTyped) (hu : u.WellTyped)
    (h : t.computeHash = u.computeHash) : t.SameContent u := by
  obtain ⟨hti, htn, htt, htf⟩ := ht
  obtain ⟨hui, hun, hut, huf⟩ := hu
  -- peel the three numbers off the end, then the sender off the front
  obtain ⟨hbytes, hfee⟩ := append_inj' (hinj h) ((u64Bytes_length _).trans (u64Bytes_length _).symm)
  obtain ⟨hbytes, htime⟩ := append_inj' hbytes ((u64Bytes_length _).trans (u64Bytes_length _).symm)
  obtain ⟨hbytes, hnonce⟩ := append_inj' hbytes ((u64Bytes_length _).trans (u64Bytes_length _).symm)
  obtain ⟨hsender, hinstr⟩ := append_inj hbytes
    ((P.ed25519.addressBytes_length _).trans (P.ed25519.addressBytes_length _).symm)
  exact ⟨P.ed25519.addressBytes_injective hsender,
    TransactionInstruction.hashBytes_inj hti hui hinstr, u64Bytes_inj htn hun hnonce,
    u64Bytes_inj htt hut htime, u64Bytes_inj htf huf hfee⟩

variable {sign : Address P → Hash P → P.ed25519.Signature}

/-- Under a collision-free hash, honest transactions are determined by the
hash they carry. -/
theorem Transaction.eq_of_txHash (hinj : Injective P.hashing.blake3)
    {t u : Transaction P} (ht : t.WellTyped)
    (hu : u.WellTyped) (hth : t.Honest sign) (huh : u.Honest sign) (h : t.txHash = u.txHash) :
    t = u := by
  obtain ⟨hs, hi, hn, htime, hf⟩ :=
    sameContent_of_computeHash hinj ht hu (hth.1.symm.trans (h.trans huh.1))
  have hsig : t.signature = u.signature := by rw [hth.2, huh.2, hs, h]
  cases t
  cases u
  simp_all

theorem Transaction.eq_of_map_txHash (hinj : Injective P.hashing.blake3)
    {ts us : List (Transaction P)}
    (ht : ∀ t ∈ ts, t.WellTyped ∧ t.Honest sign) (hu : ∀ u ∈ us, u.WellTyped ∧ u.Honest sign)
    (h : ts.map (·.txHash) = us.map (·.txHash)) : ts = us := by
  induction ts generalizing us with
  | nil =>
    cases us with
    | nil => rfl
    | cons u us => cases h
  | cons t ts ih =>
    cases us with
    | nil => cases h
    | cons u us =>
      obtain ⟨hhead, htail⟩ := cons.inj h
      obtain ⟨htt, hth⟩ := ht t mem_cons_self
      obtain ⟨hut, huh⟩ := hu u mem_cons_self
      rw [eq_of_txHash hinj htt hut hth huh hhead, ih (fun t hm => ht t (mem_cons_of_mem _ hm))
          (fun u hm => hu u (mem_cons_of_mem _ hm)) htail]

/-! ## Blocks -/

variable (P) in
structure BlockHeader where
  view : Nat
  parentBlockHash : Hash P
  timestamp : Nat

variable (P) in
structure Block where
  leader : Nat
  header : BlockHeader P
  leaderSignature : BlsSignature P
  transactions : List (Transaction P)
  /-- The hash the block came with, if any. -/
  hash : Option (Hash P)
  isFinalized : Bool
  height : Nat

namespace Block

/-- The per-transaction digests of the preimage: `blake3(i ‖ tx_hash)`. -/
def txDigests : Nat → List (Transaction P) → List (Hash P)
  | _, [] => []
  | i, t :: ts => P.hashing.blake3 (u64Bytes i ++ P.hashing.bytes t.txHash) :: txDigests (i + 1) ts

/-- The bytes a block's hash is taken over: parent, transactions, timestamp
and view. Leader, signature and height are not part of them. -/
def preimage (parent : Hash P) (txs : List (Transaction P)) (timestamp view : Nat) : List UInt8 :=
  P.hashing.bytes parent ++ (((txDigests 0 txs).map P.hashing.bytes).flatten ++
    (u64Bytes timestamp ++ u64Bytes view))

/-- `Block::compute_hash` -/
def computeHash (b : Block P) : Hash P :=
  P.hashing.blake3
    (preimage b.header.parentBlockHash b.transactions b.header.timestamp b.header.view)

/-- `Block::get_hash`: the hash the block came with, or the computed one. -/
def getHash (b : Block P) : Hash P := b.hash.getD b.computeHash

def view (b : Block P) : Nat := b.header.view

def parentBlockHash (b : Block P) : Hash P := b.header.parentBlockHash

/-- `Block::new`: the hash field is filled with the computed hash. -/
def new (view leader : Nat) (parentBlockHash : Hash P) (transactions : List (Transaction P))
    (timestamp : Nat) (leaderSignature : BlsSignature P) (isFinalized : Bool) (height : Nat) :
    Block P :=
  let block : Block P :=
    { leader, header := { view, parentBlockHash, timestamp }, leaderSignature, transactions,
      hash := none, isFinalized, height }
  { block with hash := some block.computeHash }

variable (P) in
/-- `Block::genesis_hash` -/
def genesisHash : Hash P :=
  P.hashing.blake3 (P.hashing.bytes P.hashing.zero ++ (u64Bytes 0 ++ u64Bytes 0))

/-- `Block::genesis` -/
def genesis (leader : Nat) (genesisBlockSignature : BlsSignature P) : Block P :=
  { leader, header := { view := 0, parentBlockHash := P.hashing.zero, timestamp := 0 },
    leaderSignature := genesisBlockSignature, transactions := [],
    hash := some (genesisHash P), isFinalized := true, height := 0 }

/-- The numbers of a block are `u64` values. -/
def WellTyped (b : Block P) : Prop :=
  b.header.view < u64Size ∧ b.header.timestamp < u64Size ∧ b.leader < u64Size ∧
    b.height < u64Size ∧ ∀ t ∈ b.transactions, t.WellTyped

instance (b : Block P) : Decidable b.WellTyped :=
  inferInstanceAs (Decidable (_ ∧ _ ∧ _ ∧ _ ∧ _))

/-! ### What the preimage determines -/

/-- Under a collision-free hash the digests fix the transaction hashes, in
order. -/
theorem txDigests_inj (hinj : Injective P.hashing.blake3) :
    ∀ {i : Nat} {ts us : List (Transaction P)}, txDigests i ts = txDigests i us →
      ts.map (·.txHash) = us.map (·.txHash)
  | _, [], [], _ => rfl
  | _, [], _ :: _, h => by simp [txDigests] at h
  | _, _ :: _, [], h => by simp [txDigests] at h
  | i, t :: ts, u :: us, h => by
    simp only [txDigests, cons.injEq] at h
    have hhead := P.hashing.bytes_injective (append_cancel_left (hinj h.1))
    simp only [map_cons, hhead, txDigests_inj hinj h.2]

/-- Equal preimages come from equal parents, transaction hashes, timestamps
and views. -/
theorem preimage_inj (hinj : Injective P.hashing.blake3) {p q : Hash P}
    {ts us : List (Transaction P)} {t₁ t₂ v₁ v₂ : Nat} (ht₁ : t₁ < u64Size) (ht₂ : t₂ < u64Size)
    (hv₁ : v₁ < u64Size) (hv₂ : v₂ < u64Size) (h : preimage p ts t₁ v₁ = preimage q us t₂ v₂) :
    p = q ∧ ts.map (·.txHash) = us.map (·.txHash) ∧ t₁ = t₂ ∧ v₁ = v₂ := by
  obtain ⟨hp, hrest⟩ := P.hashing.bytes_prefixFree.append_inj h
  have hlen : ∀ a b, (u64Bytes a ++ u64Bytes b).length = 16 := fun a b => by simp [u64Bytes]
  obtain ⟨htx, htail⟩ := concat_inj_of_prefixFree P.hashing.bytes_prefixFree
    P.hashing.bytes_ne_nil (hlen t₁ v₁) (hlen t₂ v₂) hrest
  obtain ⟨ht, hv⟩ := append_inj htail (by simp [u64Bytes])
  exact ⟨hp, txDigests_inj hinj htx, u64Bytes_inj ht₁ ht₂ ht, u64Bytes_inj hv₁ hv₂ hv⟩

end Block

end Minimmit
