import Opolys.Library.MachineInt
import Opolys.Library.FiniteMap
import Opolys.Library.Registry
import Opolys.Library.IntegerSqrt
import Opolys.Library.BoundedSqrt
import Opolys.Library.FixedLog
import Opolys.Library.Clearing
import Opolys.Library.Codec
import Opolys.Library.Memory
import Opolys.Library.ParallelSearch
import Opolys.Library.Merkle
import Opolys.Library.RollingWindow
import Opolys.Library.FrontQueue
import Opolys.Library.Decimal
import Opolys.Library.Effect
import Opolys.Library.Transition
import Opolys.Library.OrderStatistic
import Opolys.Library.Ranking
import Opolys.Library.Tally
import Opolys.Library.DelayQueue
import Opolys.Core.Constants
import Opolys.Core.Types
import Opolys.Crypto.Hash
import Opolys.Crypto.Reference
import Opolys.EvoOmap.Machine
import Opolys.EvoOmap.Dataset
import Opolys.EvoOmap.Hash
import Opolys.Consensus.Account
import Opolys.Consensus.Balances
import Opolys.Consensus.Keys
import Opolys.Consensus.Emission
import Opolys.Consensus.Logarithm
import Opolys.Consensus.VeinYield
import Opolys.Consensus.Eviction
import Opolys.Consensus.Difficulty
import Opolys.Consensus.Retarget
import Opolys.Consensus.Pow
import Opolys.EvoOmap.Mining
import Opolys.EvoOmap.MemoryProof
import Opolys.Consensus.PowContext
import Opolys.Consensus.PowBinding
import Opolys.Consensus.PowView
import Opolys.Consensus.Block
import Opolys.Consensus.Limits
import Opolys.Consensus.Mempool
import Opolys.Consensus.Admission
import Opolys.Consensus.Refiner
import Opolys.Consensus.Replacement
import Opolys.Consensus.Custody
import Opolys.Consensus.RefinerAlike
import Opolys.Consensus.Lifecycle
import Opolys.Consensus.Fifo
import Opolys.Consensus.Standing
import Opolys.Consensus.Ranking
import Opolys.Consensus.Unbonding
import Opolys.Consensus.Genesis
import Opolys.Execution.Dispatcher
import Opolys.Execution.Assay
import Opolys.Execution.Executed
import Opolys.Execution.Parties
import Opolys.Execution.Verified
import Opolys.Execution.Alike
import Opolys.Wallet.Signing
import Opolys.Wallet.Amount
import Opolys.Storage.Store
import Opolys.Node.State
import Opolys.Node.Reward
import Opolys.Node.SquareRoots
import Opolys.Node.Credits
import Opolys.Node.Evidence
import Opolys.Node.ApplyBlock
import Opolys.Node.Run
import Opolys.Node.Produce
import Opolys.Node.Applied
import Opolys.Node.DoubleSign
import Opolys.Node.Candidate
import Opolys.Node.LedgerInvariant
import Opolys.Node.Tip
import Opolys.Node.Idle
import Opolys.Node.Refining
import Opolys.Node.Spacing
import Opolys.Node.Attesting
import Opolys.Node.Equivocation
import Opolys.Node.Retarget
import Opolys.Node.Routes
import Opolys.Rpc.Mining
import Opolys.Rpc.Access
import Opolys.Rpc.Confidence
import Opolys.Node.Alike
import Opolys.Node.Agreement
import Opolys.Node.Supply
import Opolys.Node.ActiveSet
import Opolys.Node.Books
import Opolys.Node.Hardness
import Opolys.Node.Replay
import Opolys.Node.Slashing
import Opolys.Node.BlockIdentity
import Opolys.Node.GenesisIdentity
import Opolys.Node.BodyBinding
import Opolys.Node.StateRoot
import Opolys.Node.Durability
import Opolys.Node.Finality
import Opolys.Node.Progress
import Opolys.Node.Authenticity
import Opolys.Node.Unbonding
import Opolys.Node.Restart
import Opolys.Node.Bans
import Opolys.Node.Pools
import Opolys.Node.Network
import Opolys.Node.Subnets
import Opolys.Node.Capacity
import Opolys.Node.Verification
import Opolys.Node.Gossip
import Opolys.Node.History
import Opolys.Node.Exactness
import Opolys.Node.Readmission
import Opolys.Node.Confirmation
import Opolys.Node.ConsensusFloor
import Opolys.Node.Archive
import Opolys.Node.Sync
import Opolys.Node.Assembly
import Opolys.Node.Mined
import Opolys.Node.EvidencePool
import Opolys.Rpc.Hallmark
import Opolys.Rpc.Submission
import Opolys.Consensus.Selection
import Opolys.Ceremony.Verification
import Opolys.Ceremony.Pages
