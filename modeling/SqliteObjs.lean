import SqliteObjs.MainDb.AmongClients
import SqliteObjs.Vfs.Exclusion
import SqliteObjs.Journal.Reopen
import SqliteObjs.MainDb.Transaction
import SqliteObjs.Journal.Existence
import SqliteObjs.Journal.Durability
import SqliteObjs.Journal.HotJournal
import SqliteObjs.MainDb.Durability
import SqliteObjs.Journal.Isolation
import SqliteObjs.Journal.WalFence
import SqliteObjs.Journal.Recovery
import SqliteObjs.MainDb.LeaseState
import SqliteObjs.MainDb.DirtyMarks
import SqliteObjs.MainDb.Reuse
import SqliteObjs.MainDb.Coalesce
import SqliteObjs.MainDb.ParallelRead
import SqliteObjs.MainDb.FailedWrite
import SqliteObjs.Azure.RequestRetry
import SqliteObjs.Azure.Mutex
import SqliteObjs.MainDb.UnleasedFlush
import SqliteObjs.MainDb.IncrementalDiff
import SqliteObjs.MainDb.Growth
import SqliteObjs.MainDb.DiffMarks
import SqliteObjs.MainDb.PartialWrite
import SqliteObjs.MainDb.StateCorruption
import SqliteObjs.Metrics.RoundTrip
import SqliteObjs.Journal.FileLike
import SqliteObjs.MainDb.DirtyCount
import SqliteObjs.Azure.PageRangesParse
import SqliteObjs.Azure.SigningOrder
import SqliteObjs.Azure.SignedResource
import SqliteObjs.Uri.RoundTrip
