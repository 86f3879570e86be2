import JouleDB.Amorphic.Hologram
import JouleDB.Amorphic.Isolation
import JouleDB.Amorphic.Release
import JouleDB.Amorphic.Rollback
import JouleDB.Art.Refinement
import JouleDB.BTree.Lending
import JouleDB.BTree.Prefix
import JouleDB.Branch.CowStorage
import JouleDB.Branch.Metadata
import JouleDB.ColumnarExec.Batches
import JouleDB.ColumnarExec.LikeCache
import JouleDB.ColumnarExec.ResultRows
import JouleDB.Crdt.LWWMapReplicas
import JouleDB.Crdt.MVRegisterReplicas
import JouleDB.Crdt.ORSetReplicas
import JouleDB.File.Metadata
import JouleDB.File.SecondCrash
import JouleDB.Index.Candidates
import JouleDB.Ledger.MerkleBinding
import JouleDB.Ledger.Retained
import JouleDB.Lsm.Faults
import JouleDB.Lsm.Range
import JouleDB.Mvcc.Interleaving
import JouleDB.Mvcc.Optimistic
import JouleDB.Mvcc.Savepoint
import JouleDB.Mvcc.TimeTravel
import JouleDB.Query.DatalogAnswers
import JouleDB.Query.Jsonb
import JouleDB.Query.WcojJoin
import JouleDB.Raft.Compaction
import JouleDB.Raft.Completeness
import JouleDB.Raft.Membership
import JouleDB.Raft.Recovery
import JouleDB.Raft.ShardAssembly
import JouleDB.Replication.Loss
import JouleDB.Replication.Messages
import JouleDB.Server.BinaryProtocol
import JouleDB.Server.Resp
import JouleDB.Sharding.Assigner
import JouleDB.Sharding.Movement
import JouleDB.Sharding.Queries
import JouleDB.Temporal.Table
import JouleDB.TwoPhase.Agreement
import JouleDB.TwoPhase.Restart
import JouleDB.TwoPhase.VoteCount
import JouleDB.Types.PrefixCode
import JouleDB.Wal.BatchOrder
import JouleDB.Wal.GroupSync
import JouleDB.Wal.RecoveryOrder
