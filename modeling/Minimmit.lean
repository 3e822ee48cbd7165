import Minimmit.Consensus.BlockHashTheorems
import Minimmit.Consensus.BroadcastTheorems
import Minimmit.Consensus.CertificateTheorems
import Minimmit.Consensus.DeliveryTheorems
import Minimmit.Consensus.FlagTheorems
import Minimmit.Consensus.LossTheorems
import Minimmit.Consensus.PendingTheorems
import Minimmit.Consensus.QuorumTheorems
import Minimmit.Consensus.RecoveryTheorems
import Minimmit.Consensus.RestartTheorems
import Minimmit.Consensus.ViewTheorems
import Minimmit.Crypto.AggregatedTheorems
import Minimmit.Crypto.ThresholdTheorems
import Minimmit.Mempool.CapacityTheorems
import Minimmit.Mempool.NonceTheorems
import Minimmit.Mempool.Service
import Minimmit.P2p.Message
import Minimmit.Rpc.HoleTheorems
import Minimmit.Rpc.Paging
import Minimmit.Rpc.RequestTheorems
import Minimmit.State.NotarizationsTheorems
import Minimmit.Validation.ReplayTheorems
import Minimmit.Validation.SupplyTheorems
import Minimmit.Validation.VisibilityTheorems
