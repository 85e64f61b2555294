import KeyVDB.Wal.LogManager
import KeyVDB.Wal.Codec
import KeyVDB.Wal.Counters
import KeyVDB.BTree.Defs
import KeyVDB.BTree.Map
import KeyVDB.Lib.Run
import KeyVDB.Lib.Monitor
import KeyVDB.Lib.Buffer
import KeyVDB.Txn.LockManager
import KeyVDB.Txn.LockTable
import KeyVDB.Txn.Wakeups
import KeyVDB.Wal.Recovery
import KeyVDB.Txn.System
import KeyVDB.Txn.Isolation
import KeyVDB.Txn.Log
import KeyVDB.Txn.Crash
import KeyVDB.Txn.WriteAhead
import KeyVDB.Txn.Shutdown
import KeyVDB.Txn.Failure
import KeyVDB.Txn.Exact
import KeyVDB.Txn.Life
import KeyVDB.Txn.PowerLoss
import KeyVDB.Server.Protocol
import KeyVDB.Server.Session
import KeyVDB.Server.Lifecycle
import KeyVDB.Server.Writes
import KeyVDB.Server.History
import KeyVDB.Server.Reader
import KeyVDB.Client.Connection
import KeyVDB.Client.Reconnect
import KeyVDB.Client.Reassembly
import KeyVDB.Client.Transaction
import KeyVDB.Client.Transact
import KeyVDB.Client.Pipeline
import KeyVDB.Storage.BufferPool
import KeyVDB.Storage.Frames
import KeyVDB.Storage.RawPage
import KeyVDB.Storage.FreeList
import KeyVDB.Storage.Coherence
import KeyVDB.Storage.Transparency
import KeyVDB.Storage.Accounts
import KeyVDB.Storage.LruList
import KeyVDB.Storage.Recency
import KeyVDB.BTree.Node
import KeyVDB.BTree.Tree
import KeyVDB.BTree.Parametric
import KeyVDB.BTree.CrashImage
import KeyVDB.BTree.Cells
import KeyVDB.BTree.NodeBytes
import KeyVDB.BTree.NodeRefine
import KeyVDB.BTree.SlottedPage
import KeyVDB.BTree.Fullness
import KeyVDB.BTree.Occupancy
import KeyVDB.BTree.Rotation
import KeyVDB.BTree.Store
import KeyVDB.BTree.Shape
import KeyVDB.BTree.Search
import KeyVDB.BTree.Insert
import KeyVDB.BTree.FullHeap
import KeyVDB.BTree.Links
import KeyVDB.BTree.InsertKeeps
import KeyVDB.BTree.Structure
import KeyVDB.BTree.Splits
import KeyVDB.BTree.NodeSplit
import KeyVDB.BTree.Neighbours
import KeyVDB.BTree.Remove
import KeyVDB.BTree.Siblings
import KeyVDB.BTree.Repair
import KeyVDB.BTree.Borrow
import KeyVDB.Lib.Chain
import KeyVDB.BTree.Refine
import KeyVDB.BTree.Watched
import KeyVDB.BTree.PinnedPages
import KeyVDB.BTree.Pins
import KeyVDB.BTree.PinDiscipline
import KeyVDB.Lib.Follow
import KeyVDB.Storage.Capacity
import KeyVDB.BTree.Paired
import KeyVDB.BTree.OnPool
import KeyVDB.BTree.Process
import KeyVDB.BTree.CalmCalls
import KeyVDB.BTree.CrashPoints
import KeyVDB.BTree.NodeCalls
