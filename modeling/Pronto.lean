import Pronto.Lib.Linked
import Pronto.Lib.Memory
import Pronto.Lib.OrderedReplay
import Pronto.Lib.Persist
import Pronto.Lib.Runs
import Pronto.Lib.Reach
import Pronto.Lib.Sharded
import Pronto.Lib.Tiling
import Pronto.Log.RedoLog
import Pronto.Log.Recover
import Pronto.Log.Entries
import Pronto.Log.RoundTrip
import Pronto.Log.Machine
import Pronto.Log.Invariants
import Pronto.Log.Replay
import Pronto.Log.CommitIds
import Pronto.Log.Drain
import Pronto.Log.Concurrent
import Pronto.Log.Resync
import Pronto.Thread.Quiescence
import Pronto.Thread.Persister
import Pronto.Thread.SyncEquivalence
import Pronto.Thread.Durable
import Pronto.Thread.CallLogs
import Pronto.Thread.NestedCommits
import Pronto.Thread.Progress
import Pronto.Log.Survivors
import Pronto.Objects.Calls
import Pronto.Objects.HashMap
import Pronto.Alloc.FreeList
import Pronto.Alloc.Layout
import Pronto.Alloc.Heap
import Pronto.Alloc.Steps
import Pronto.Alloc.Carve
import Pronto.Alloc.Allocate
import Pronto.Alloc.Coalesce
import Pronto.Alloc.Deallocate
import Pronto.Alloc.Extend
import Pronto.Alloc.Reallocate
import Pronto.Alloc.ListRuns
import Pronto.Alloc.Bitmap
import Pronto.Alloc.GlobalAlloc
import Pronto.Alloc.ObjectAlloc
import Pronto.Alloc.Regions
import Pronto.Alloc.GlobalRuns
import Pronto.Alloc.Merge
import Pronto.Alloc.BigChunks
import Pronto.Alloc.GlobalRace
import Pronto.Alloc.BestMatch
import Pronto.Alloc.Writes
import Pronto.Alloc.Owners
import Pronto.Alloc.Coverage
import Pronto.Alloc.Pages
import Pronto.Alloc.HeapShape
import Pronto.Alloc.HeapCalls
import Pronto.Alloc.HeapOps
import Pronto.Recovery.Threads
import Pronto.Recovery.Chains
import Pronto.Recovery.Invariant
import Pronto.Recovery.Steps
import Pronto.Recovery.Runs
import Pronto.Recovery.Progress
import Pronto.Snapshot.File
import Pronto.Snapshot.Sections
import Pronto.Snapshot.Image
import Pronto.Snapshot.Restore
import Pronto.Snapshot.Sessions
import Pronto.Snapshot.CopyOnWrite
import Pronto.Snapshot.Load
import Pronto.Snapshot.Tables
import Pronto.Snapshot.CopyProgress
import Pronto.Alloc.Release
import Pronto.Alloc.HeapRuns
import Pronto.Catalog.NVCatalog
import Pronto.Catalog.Creation
import Pronto.Catalog.CleanShutdown
import Pronto.Catalog.Slots
import Pronto.Recovery.AbortChains
import Pronto.Recovery.Repair
import Pronto.Log.Pdb
import Pronto.Thread.PersisterBounds
import Pronto.Log.Capacity
