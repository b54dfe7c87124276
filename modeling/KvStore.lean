import KvStore.Lib.RedBlackRepair
import KvStore.Rbtree.Model
import KvStore.Rbtree.Shape
import KvStore.Rbtree.Pivot
import KvStore.Rbtree.Rotate
import KvStore.Rbtree.WellLinked
import KvStore.Rbtree.Insert
import KvStore.Rbtree.Delete
import KvStore.Lib.SearchTree
import KvStore.Rbtree.Remove
import KvStore.Rbtree.Search
import KvStore.Lib.FiniteMap
import KvStore.Spec
import KvStore.Rbtree.Engine
import KvStore.Rbtree.Runs
import KvStore.Rbtree.Detach
import KvStore.Rbtree.Depth
import KvStore.Lib.Blind
import KvStore.Rbtree.Sentinel
import KvStore.Rbtree.Heap
import KvStore.Rbtree.Destroy
import KvStore.Lib.Iterations
import KvStore.Rbtree.Repair
import KvStore.Array.Model
import KvStore.Array.Scan
import KvStore.Array.Runs
import KvStore.Lib.Ledger
import KvStore.Lib.Mutex
import KvStore.Lib.Interleaving
import KvStore.Lib.Ring
import KvStore.Lib.Bytes
import KvStore.Lib.Links
import KvStore.Lib.Codec
import KvStore.Lib.Alike
import KvStore.Hash.Model
import KvStore.Lib.Chain
import KvStore.Hash.Table
import KvStore.Hash.Runs
import KvStore.Hash.Heap
import KvStore.Lib.Avoids
import KvStore.Hash.Index
import KvStore.Hash.Locked
import KvStore.Engines
import KvStore.Allocation
import KvStore.Protocol.Model
import KvStore.Protocol.Runs
import KvStore.Protocol.Presence
import KvStore.Lib.Buffer
import KvStore.Protocol.Request
import KvStore.Protocol.Bounds
import KvStore.Protocol.Stale
import KvStore.Protocol.Answers
import KvStore.Protocol.FrontEnds
import KvStore.TaskQueue.Model
import KvStore.TaskQueue.Fifo
import KvStore.TaskQueue.Wakeup
import KvStore.ThreadPool.Model
import KvStore.ThreadPool.Ring
import KvStore.ThreadPool.Lock
import KvStore.Deadlock.Model
import KvStore.Deadlock.Graph
import KvStore.Deadlock.Table
import KvStore.Deadlock.Registered
import KvStore.Deadlock.Sequential
import KvStore.Deadlock.Mirror
import KvStore.Deadlock.Search
import KvStore.Deadlock.Wired
import KvStore.Lib.DepthFirst
import KvStore.Deadlock.Explore
import KvStore.Deadlock.Cycles
import KvStore.Deadlock.Detection
import KvStore.Pool.Blocks
import KvStore.Pool.Slots
import KvStore.Mempool.Model
import KvStore.Mempool.Nodes
import KvStore.Mempool.Small
import KvStore.Mempool.Large
import KvStore.Mempool.Free
import KvStore.Mempool.Safety
import KvStore.Mempool.Failure
import KvStore.Mempool.Stale
import KvStore.ConnectionPool.Model
import KvStore.ConnectionPool.Accounting
import KvStore.ConnectionPool.Idle
import KvStore.ConnectionPool.Waiters
import KvStore.IoUring.Model
import KvStore.IoUring.Echo
import KvStore.PosixNetwork.Model
import KvStore.PosixNetwork.PollRound
import KvStore.LockFree.Model
import KvStore.LockFree.Fifo
import KvStore.LockFree.Full
import KvStore.Lib.Simulation
import KvStore.Ypipe.Model
import KvStore.Ypipe.Chunks
import KvStore.Ypipe.Invariant
import KvStore.Ypipe.Writer
import KvStore.Ypipe.Reader
import KvStore.Ypipe.Pipe
import KvStore.Ypipe.Progress
import KvStore.ThreadPool11.Model
import KvStore.ThreadPool11.Changes
import KvStore.ThreadPool11.Tasks
import KvStore.ThreadPool11.Progress
import KvStore.Lib.Ownership
import KvStore.Thrdpool.Model
import KvStore.Thrdpool.Views
import KvStore.Thrdpool.Core
import KvStore.Thrdpool.Stage
import KvStore.Thrdpool.Steps
import KvStore.Thrdpool.Owner
import KvStore.Thrdpool.Runs
