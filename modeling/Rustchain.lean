import Rustchain.Data
import Rustchain.Platform
import Rustchain.Lib.HashMap
import Rustchain.Lib.PrefixCode
import Rustchain.Lib.HashChain
import Rustchain.Storage.Block
import Rustchain.Reference
import Rustchain.Storage.BlockKeeper
import Rustchain.Storage.Changes
import Rustchain.Storage.Filenames
import Rustchain.Storage.Sequences
import Rustchain.Storage.Chain
import Rustchain.Ledger.Processor
import Rustchain.Ledger.Replay
import Rustchain.Consensus.RaftLogStore
import Rustchain.Consensus.Raft.State
import Rustchain.Consensus.Raft.Election
import Rustchain.Consensus.Raft.Replication
import Rustchain.Consensus.Raft.Merge
import Rustchain.Consensus.Raft.Accept
import Rustchain.Consensus.Raft.Handlers
import Rustchain.Consensus.Raft.Record
import Rustchain.Consensus.Voting
import Rustchain.Consensus.Engine
import Rustchain.Consensus.VoteOrder
import Rustchain.Peer.Effects
import Rustchain.Peer.Basic
import Rustchain.Peer.Packing
import Rustchain.Peer.Approval
import Rustchain.Peer.Acknowledge
import Rustchain.Peer.VotingStep
import Rustchain.System.Basic
import Rustchain.System.Agreement
import Rustchain.RaftCore.Basic
import Rustchain.RaftCore.Invariant
import Rustchain.RaftCore.Safety
import Rustchain.Cluster.Basic
import Rustchain.Cluster.Changes
import Rustchain.Cluster.Simulation
import Rustchain.Cluster.Script
import Rustchain.Cluster.Safety
import Rustchain.Consensus.Raft.History
import Rustchain.Cluster.Acknowledged
import Rustchain.Cluster.Forwarding
import Rustchain.Storage.Operations
import Rustchain.Peer.Services
import Rustchain.Storage.Transactions
import Rustchain.Peer.Transactions
import Rustchain.Peer.Ballots
import Rustchain.System.Lossless
import Rustchain.Consensus.Raft.Growth
import Rustchain.Storage.Recovery
import Rustchain.Peer.Refinement
import Rustchain.Ledger.Balances
import Rustchain.Ledger.Conservation
import Rustchain.Peer.Unwinding
import Rustchain.Lib.Moves
import Rustchain.Storage.Reopening
import Rustchain.Storage.Retention
import Rustchain.Discovery
import Rustchain.Peer.Coverage
import Rustchain.Consensus.Raft.MergeRule
import Rustchain.Consensus.Raft.Counters
import Rustchain.Consensus.FirstVotes
import Rustchain.Ledger.Arithmetic
import Rustchain.Peer.Synchronized
import Rustchain.Synchronization
import Rustchain.Peer.Truncation
import Rustchain.Consensus.Raft.CatchUp
import Rustchain.Storage.BlockTree
import Rustchain.Storage.ArrivalOrder
import Rustchain.RestNetwork
import Rustchain.Peer.Published
import Rustchain.Peer.Delegation
import Rustchain.System.Raft
import Rustchain.System.RaftSafety
import Rustchain.Server
import Rustchain.Synchronization.CatchUp
import Rustchain.PeerRuntime
import Rustchain.Membership
import Rustchain.Peer.Outgoing
import Rustchain.Peer.ReadState
import Rustchain.System.Provenance
import Rustchain.Lib.Quorum
