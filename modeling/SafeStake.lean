import SafeStake.ConsensusTypes
import SafeStake.StateInvariant
import SafeStake.ConsensusVerify
import SafeStake.Aggregator
import SafeStake.Core
import SafeStake.CoreVoting
import SafeStake.Node
import SafeStake.CoreCommit
import SafeStake.CorePanics
import SafeStake.WeightedQuorum
import SafeStake.CoreAgreement
import SafeStake.ByteCodec
import SafeStake.Mempool
import SafeStake.ContractLogs
import SafeStake.LucasCertificate
import SafeStake.Interpolation
import SafeStake.ThresholdKeys
import SafeStake.Dkg
import SafeStake.DkgMalicious
import SafeStake.CommittedPolyCodec
import SafeStake.ThresholdAggregate
import SafeStake.CoreRounds
import SafeStake.Certificates
import SafeStake.ContractCommands
import SafeStake.DkgDispute
import SafeStake.DkgComplete
import SafeStake.Store
import SafeStake.ReliableSender
import SafeStake.CancelRegistry
import SafeStake.StoreClients
import SafeStake.PayloadWaiter
import SafeStake.QuorumWaiter
import SafeStake.Notify
import SafeStake.ListIndex
import SafeStake.MempoolPipeline
import SafeStake.OperatorCommittee
import SafeStake.RoundRobin
import SafeStake.LeaderRotation
import SafeStake.ConsensusSync
import SafeStake.MempoolSync
import SafeStake.CommitteeSign
