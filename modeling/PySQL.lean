import PySQL.BTree.BulkLoad
import PySQL.BTree.Duplicates
import PySQL.BTree.Multimap
import PySQL.BTree.Structure
import PySQL.Lib.Handover
import PySQL.Mvcc.FirstUpdater
import PySQL.Mvcc.GarbageCollection
import PySQL.Mvcc.Outcome
import PySQL.Mvcc.OwnDeletes
import PySQL.Mvcc.Rollback
import PySQL.Mvcc.SnapshotRead
import PySQL.Parse.Built
import PySQL.Parse.Reread
import PySQL.Parse.Accepted
import PySQL.Query.AutoIncrement
import PySQL.Query.Distinct
import PySQL.Query.Expansions
import PySQL.Query.IndexScan
import PySQL.Query.Like
import PySQL.Query.CatalogFile
import PySQL.Query.Grouping
import PySQL.Query.Lossless
import PySQL.Query.Pipeline
import PySQL.Query.NestedLoopJoin
import PySQL.Query.Plannable
import PySQL.Query.Pushdown
import PySQL.Query.SessionRuns
import PySQL.Query.Sort
import PySQL.Query.SortKeys
import PySQL.Query.Update
import PySQL.Query.UsingJoin
import PySQL.Query.Vectorized
import PySQL.Raft.MatchIndex
import PySQL.Raft.OneVote
import PySQL.Distributed.Atomicity
import PySQL.Raft.Replication
import PySQL.Storage.PageAccounting
import PySQL.Storage.DiskPages
import PySQL.Storage.RecordStore
import PySQL.Storage.PageRoundTrip
import PySQL.Storage.PageUpdate
import PySQL.Storage.PoolTransparent
import PySQL.Storage.StringColumns
import PySQL.Storage.WalChain
import PySQL.Storage.WalRecovery
