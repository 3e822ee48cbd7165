/-
Minimmit.Consensus.Sample — configurations of the sample network.

Replica `i` of the six runs over an environment in which no view times out,
every broadcast is queued and the mempool is empty, unless an environment is
given.
-/
import Minimmit.Consensus.Run
import Minimmit.State.Sample

namespace Minimmit

open Minimmit.Library Crypto

/-- Nothing times out, every queue has room, the mempool is empty. -/
def quietEnv (P : Params) : Env P where
  timedOut := fun _ _ => false
  cooldownOver := fun _ _ => false
  transactions := fun _ => []
  transactions_wellTyped := fun _ _ h => absurd h List.not_mem_nil
  timestamp := fun _ => 0
  timestamp_lt := fun _ => by decide
  broadcastOk := fun _ => true
  proposalQueueOk := fun _ => true

instance neZero_six : NeZero 6 := ⟨by decide⟩

/-- Replica `i` of the sample network without genesis accounts. -/
def sampleConfig (i : Fin 6) (env : Env sampleParams) : Config sampleParams where
  replicaId := i
  replicaId_lt := i.isLt.trans (by decide)
  peers := samplePeers
  secretKey := sampleSecret i
  genesisAccounts := []
  env := env

/-- The signature of replica `i` on a block hash. -/
def signHash (i : Nat) (h : Hash sampleParams) : BlsSignature sampleParams :=
  sign sampleParams.hashing sampleParams.curve (sampleSecret i) (blockMessage h)

/-- A block without transactions, signed by its leader `view % 6`, that
comes with the hash `hash`. -/
def sampleBlock (view : Nat) (parent : Hash sampleParams) (timestamp : Nat)
    (hash : Hash sampleParams) : Block sampleParams :=
  { leader := view % 6, header := { view, parentBlockHash := parent, timestamp }
    leaderSignature := signHash (view % 6) hash, transactions := [], hash := some hash
    isFinalized := false, height := view }

/-- The same with the hash of its content. -/
def emptyBlock (view : Nat) (parent : Hash sampleParams) (timestamp : Nat) : Block sampleParams :=
  sampleBlock view parent timestamp
    (sampleParams.hashing.blake3 (Block.preimage parent [] timestamp view))

/-- The vote of replica `i`. -/
def voteOf (i view : Nat) (h : Hash sampleParams) : Vote sampleParams :=
  { view, blockHash := h, signature := signHash i h, peerId := i, leaderId := view % 6 }

/-- The nullify message of replica `i`. -/
def nullifyOf (i view : Nat) : Nullify sampleParams :=
  { view, leaderId := view % 6
    signature := sign sampleParams.hashing sampleParams.curve (sampleSecret i)
      (nullifyMessage sampleParams view (view % 6))
    peerId := i }

/-- The first leader's block and a block of the next leader on top of it. -/
def firstBlock : Block sampleParams := emptyBlock 1 (Block.genesisHash sampleParams) 0

def secondBlock : Block sampleParams := emptyBlock 2 firstBlock.getHash 0

theorem length_three : [1, 2, 3].length = sampleParams.mSize := rfl

/-- The certificate of the first three voters of a view. -/
def certificateOf (view : Nat) (h : Hash sampleParams) : MNotarization sampleParams :=
  { view, blockHash := h
    aggregatedSignature := Crypto.aggregateSignatures sampleParams.curve
      [signHash 1 h, signHash 2 h, signHash 3 h]
    peerIds := [1, 2, 3], length_peerIds := length_three, leaderId := view % 6 }

/-- The nullification of a view by the last three replicas. -/
def nullificationOf (view : Nat) : Nullification sampleParams :=
  { view, leaderId := view % 6
    aggregatedSignature := Crypto.aggregateSignatures sampleParams.curve
      [(nullifyOf 3 view).signature, (nullifyOf 4 view).signature, (nullifyOf 5 view).signature]
    peerIds := [3, 4, 5], length_peerIds := rfl }

end Minimmit
