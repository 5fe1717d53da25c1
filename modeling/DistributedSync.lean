import DistributedSync.Library.Transition
import DistributedSync.Library.Positions
import DistributedSync.Library.Quorum
import DistributedSync.Library.ReplicatedLog
import DistributedSync.Library.CommitSafety
import DistributedSync.Message
import DistributedSync.Raft.Node
import DistributedSync.Raft.Cluster
import DistributedSync.Raft.Handlers
import DistributedSync.Raft.Steps
import DistributedSync.Raft.Bookkeeping
import DistributedSync.Raft.Election
import DistributedSync.Raft.Replication
import DistributedSync.Raft.Refinement
import DistributedSync.Raft.Acknowledgement
import DistributedSync.Raft.Commit
import DistributedSync.Raft.Proposal
import DistributedSync.Json
import DistributedSync.Library.Dict
import DistributedSync.Lock.Table
import DistributedSync.Lock.Manager
import DistributedSync.Lock.View
import DistributedSync.Lock.Sweep
import DistributedSync.Lock.Invariant
import DistributedSync.Lock.Replicas
import DistributedSync.Lock.Unified
import DistributedSync.Lock.Service
import DistributedSync.Lock.WaitFor
import DistributedSync.Lock.Deadlock
import DistributedSync.Queue.Message
import DistributedSync.Queue.Node
import DistributedSync.Queue.Invariant
import DistributedSync.Queue.Redelivery
import DistributedSync.Queue.Cluster
import DistributedSync.Queue.Placement
import DistributedSync.Cache.Lru
import DistributedSync.Queue.Unified
import DistributedSync.Queue.RingHistory
import DistributedSync.Library.Clockwise
import DistributedSync.Queue.Assignment
import DistributedSync.Cache.Node
import DistributedSync.Cache.Cluster
import DistributedSync.Cache.Coherence
import DistributedSync.Cache.Freshness
import DistributedSync.Cache.Sequential
import DistributedSync.Library.Causality
import DistributedSync.Geo.VectorClock
import DistributedSync.Geo.Replicator
import DistributedSync.Geo.Cluster
import DistributedSync.Geo.Causality
import DistributedSync.Library.LastWriter
import DistributedSync.Library.HashChain
import DistributedSync.Geo.Convergence
import DistributedSync.Security.AuditEntry
import DistributedSync.Security.AuditLogger
import DistributedSync.Security.Tampering
import DistributedSync.Security.AuditFile
import DistributedSync.Lock.Answer
import DistributedSync.Lock.Fencing
import DistributedSync.Lock.HandOver
import DistributedSync.Lock.Atomic
import DistributedSync.Lock.ExactSweep
import DistributedSync.Library.TicketLine
import DistributedSync.Lock.Overtaking
import DistributedSync.Lock.Lease
import DistributedSync.Raft.Backoff
import DistributedSync.Raft.Callbacks
import DistributedSync.Raft.NodeRun
import DistributedSync.Raft.Responses
import DistributedSync.Raft.Registration
import DistributedSync.Raft.LeaderHint
import DistributedSync.Cache.Objects
import DistributedSync.Library.Recency
import DistributedSync.Cache.LastUse
import DistributedSync.Queue.Durable
import DistributedSync.Queue.Fidelity
import DistributedSync.Library.Exposition
import DistributedSync.Metrics.Collector
import DistributedSync.Queue.Recovery
import DistributedSync.Metrics.Keys
import DistributedSync.Metrics.Export
import DistributedSync.Communication.FailureDetector
import DistributedSync.Raft.Leadership
import DistributedSync.Queue.Delivery
import DistributedSync.Cache.Deployed
import DistributedSync.Library.Hex
import DistributedSync.Security.Rbac
import DistributedSync.Security.Access
import DistributedSync.Communication.MessagePassing
import DistributedSync.Communication.NodeConfig
import DistributedSync.Raft.Takeover
import DistributedSync.Raft.Progress
import DistributedSync.Lock.BoundedWaiting
import DistributedSync.Raft.Acknowledged
import DistributedSync.Lock.Replicated
import DistributedSync.Library.Selection
import DistributedSync.Geo.Routing
import DistributedSync.Geo.Status
import DistributedSync.Communication.Heartbeat
import DistributedSync.Security.AuditQuery
import DistributedSync.Metrics.Summary
