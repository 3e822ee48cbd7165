/-
Minimmit.Storage.Store — the tables of storage/store.rs.

A table is a map from the key of `Storable` to the stored value; putting a
value replaces the one with the same key. Writes always succeed here: the
I/O errors of the database are not modelled. Reads by height scan the table
in key order, which for hashes is the iteration order of the table's entries
(`P.hashOrder`).
-/
import Minimmit.State.Notarizations

namespace Minimmit

open Minimmit.Library

/-- An account: balance and nonce under its public key. -/
structure Account where
  balance : Nat
  nonce : Nat
  deriving DecidableEq, Repr

/-- `Leader` and `View` records of the metadata tables. -/
structure ViewRecord (P : Params) where
  leader : BlsPublicKey P
  isCurrent : Bool
  nullified : Bool

/-- The database of a replica. -/
structure Store (P : Params) where
  finalizedBlocks : AList (fun _ : Hash P => Block P)
  nonFinalizedBlocks : AList (fun _ : Hash P => Block P)
  nullifiedBlocks : AList (fun _ : Hash P => Block P)
  votes : AList (fun _ : Hash P => Vote P)
  notarizations : AList (fun _ : Hash P => MNotarization P)
  lNotarizations : AList (fun _ : Hash P => LNotarization P)
  lNotarizationsByHeight : AList (fun _ : Nat => Hash P)
  nullifies : AList (fun _ : Nat => Nullify P)
  nullifications : AList (fun _ : Nat => Nullification P)
  leaders : AList (fun _ : Nat => Nat)
  views : AList (fun _ : Nat => ViewRecord P)
  transactions : AList (fun _ : Hash P => Transaction P)
  accounts : AList (fun _ : Address P => Account)
  /-- History: every block put into FINALIZED_BLOCKS, oldest first. -/
  finalizedWrites : List (Block P)

namespace Store

variable {P : Params}

/-- A database with empty tables (`ConsensusStore::open` on a new file). -/
def empty : Store P :=
  { finalizedBlocks := ∅, nonFinalizedBlocks := ∅, nullifiedBlocks := ∅, votes := ∅,
    notarizations := ∅, lNotarizations := ∅, lNotarizationsByHeight := ∅, nullifies := ∅,
    nullifications := ∅, leaders := ∅, views := ∅, transactions := ∅, accounts := ∅,
    finalizedWrites := [] }

variable (s : Store P)

def putFinalizedBlock (block : Block P) : Store P :=
  { s with
    finalizedBlocks := s.finalizedBlocks.insert block.getHash block
    finalizedWrites := s.finalizedWrites ++ [block] }

def getFinalizedBlock (hash : Hash P) : Option (Block P) :=
  s.finalizedBlocks.lookup hash

/-- `get_finalized_block_by_height`: the first block of that height met
while scanning the table. -/
def getFinalizedBlockByHeight (height : Nat) : Option (Block P) :=
  (P.hashOrder.find? 0 (fun e => e.2.height == height) s.finalizedBlocks.entries).map (·.2)

/-- `get_latest_finalized_block`: the block of the highest view, the last of
them met while scanning the table. -/
def getLatestFinalizedBlock : Option (Block P) :=
  ((P.hashOrder.apply 0 _ s.finalizedBlocks.entries).foldl (fun latest e =>
    if latest.2 ≤ e.2.view then (some e.2, e.2.view) else latest) (none, 0)).1

def putNonFinalizedBlock (block : Block P) : Store P :=
  { s with nonFinalizedBlocks := s.nonFinalizedBlocks.insert block.getHash block }

def getNonFinalizedBlock (hash : Hash P) : Option (Block P) :=
  s.nonFinalizedBlocks.lookup hash

def putNullifiedBlock (block : Block P) : Store P :=
  { s with nullifiedBlocks := s.nullifiedBlocks.insert block.getHash block }

def getNullifiedBlock (hash : Hash P) : Option (Block P) :=
  s.nullifiedBlocks.lookup hash

/-- The key of a vote: `blake3(view ‖ block_hash ‖ peer_id)`. -/
def voteKey (vote : Vote P) : Hash P :=
  P.hashing.blake3 (u64Bytes vote.view ++ P.hashing.bytes vote.blockHash ++ u64Bytes vote.peerId)

def putVote (vote : Vote P) : Store P :=
  { s with votes := s.votes.insert (voteKey vote) vote }

/-- `for vote in votes { put_vote(vote)? }` -/
def putVotes (votes : List (Vote P)) : Store P := votes.foldl putVote s

def putNotarization (notarization : MNotarization P) : Store P :=
  { s with notarizations := s.notarizations.insert notarization.blockHash notarization }

/-- `put_l_notarization`: the certificate under its block hash and the hash
under its height. -/
def putLNotarization (l : LNotarization P) : Store P :=
  { s with
    lNotarizations := s.lNotarizations.insert l.blockHash l
    lNotarizationsByHeight := s.lNotarizationsByHeight.insert l.height l.blockHash }

/-- `put_nullify`: keyed by the view alone. -/
def putNullify (nullify : Nullify P) : Store P :=
  { s with nullifies := s.nullifies.insert nullify.view nullify }

def putNullifies (nullifies : List (Nullify P)) : Store P :=
  nullifies.foldl putNullify s

def putNullification (n : Nullification P) : Store P :=
  { s with nullifications := s.nullifications.insert n.view n }

def putLeader (view leader : Nat) : Store P :=
  { s with leaders := s.leaders.insert view leader }

def putView (view : Nat) (record : ViewRecord P) : Store P :=
  { s with views := s.views.insert view record }

def putTransaction (transaction : Transaction P) : Store P :=
  { s with transactions := s.transactions.insert transaction.txHash transaction }

def putTransactions (transactions : List (Transaction P)) : Store P :=
  transactions.foldl putTransaction s

def putAccount (address : Address P) (account : Account) : Store P :=
  { s with accounts := s.accounts.insert address account }

def getAccount (address : Address P) : Option Account := s.accounts.lookup address

end Store

end Minimmit
