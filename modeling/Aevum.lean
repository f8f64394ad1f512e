import Aevum.Lib.Run
import Aevum.Lib.Matching
import Aevum.Lib.Word
import Aevum.Lib.BigEndian
import Aevum.Lib.Codec
import Aevum.Lib.Lists
import Aevum.Lib.Records
import Aevum.Lib.Checks
import Aevum.Lib.FinMap
import Aevum.Lib.Ledger
import Aevum.Lib.MerkleTree
import Aevum.Lib.HashChain
import Aevum.Lib.Tiling
import Aevum.Lib.Machine
import Aevum.Lib.RateWindow
import Aevum.Lib.Reader
import Aevum.Lib.OrderedSet
import Aevum.Lib.BoundedQueue
import Aevum.Lib.SplitTree
import Aevum.Lib.EvenSplit
import Aevum.Crypto
import Aevum.Core.StateRoot
import Aevum.Core.Commitment
import Aevum.Core.Transaction
import Aevum.Core.TransactionHash
import Aevum.Core.Address
import Aevum.Core.Heartbeat
import Aevum.Core.Economics
import Aevum.Core.Escrow
import Aevum.Core.EscrowShares
import Aevum.Core.Compute
import Aevum.Core.ComputeSolution
import Aevum.Core.ComputeNamespace
import Aevum.Consensus.Trust
import Aevum.Consensus.Admission
import Aevum.Consensus.Containment
import Aevum.Core.Block
import Aevum.Core.BlockRules
import Aevum.Core.BlockCommitment
import Aevum.Core.BlockNullifiers
import Aevum.Core.CoinbaseRules
import Aevum.Core.BlockOverflow
import Aevum.Core.BlockSize
import Aevum.Core.Wire
import Aevum.Core.WireHeader
import Aevum.Core.WireZeroCopy
import Aevum.Core.WireLazy
import Aevum.Core.WireFormat
import Aevum.Core.Settlement
import Aevum.Core.SettlementHistory
import Aevum.Core.SettlementAgreement
import Aevum.Core.Ledger
import Aevum.Core.Committee
import Aevum.Core.DnaRange
import Aevum.Core.DnaTree
import Aevum.Core.DnaLineage
import Aevum.Core.DnaChecks
import Aevum.Core.ChainState
import Aevum.Core.ChainView
import Aevum.Core.SingleChain
import Aevum.Core.TwoPhase
import Aevum.Core.Replicas
import Aevum.Core.HeightGaps
import Aevum.Core.Finality
import Aevum.Core.StoredState
import Aevum.L2.Transaction
import Aevum.L2.Inheritance
import Aevum.L2.State
import Aevum.L2.Conservation
import Aevum.L2.Replay
import Aevum.L2.Statement
import Aevum.L2.Payments
import Aevum.Node.Mempool
import Aevum.Node.MempoolSteps
import Aevum.Node.MempoolEntries
import Aevum.Node.MempoolInvariant
import Aevum.Node.MempoolBuild
import Aevum.Node.MempoolBlocks
import Aevum.Node.MempoolPriority
import Aevum.Node.MempoolEviction
import Aevum.Node.Config
import Aevum.Node.ConfigFingerprint
import Aevum.Node.MempoolLog
import Aevum.Node.HttpServer
import Aevum.Api.Auth
import Aevum.Api.Payload
import Aevum.Api.Replay
import Aevum.Api.Decisions
import Aevum.Api.Stats
import Aevum.Api.Isolation
import Aevum.Core.Presence
import Aevum.Core.PresenceParents
import Aevum.Core.PresenceDag
import Aevum.Db.Merge
import Aevum.Db.Bloom
import Aevum.Db.BloomStorage
import Aevum.Db.BloomKeys
import Aevum.Db.MergeSorted
import Aevum.Db.MergeDisorder
import Aevum.Db.MergePasses
import Aevum.P2p.Dht
import Aevum.P2p.DhtSearch
import Aevum.P2p.DhtOrder
import Aevum.P2p.DhtNearest
import Aevum.P2p.DhtAgeing
import Aevum.P2p.DhtRetention
import Aevum.P2p.Peers
import Aevum.P2p.PeerCounters
import Aevum.P2p.PeerIndex
import Aevum.P2p.Outbound
import Aevum.P2p.PeerRate
import Aevum.P2p.PeerAdmission
