import KvStore.Lib.Interleaving

set_option autoImplicit false

/-! # The thread pool, as written

The functions of `pool/thread_pool/thrd_pool_c.c`. What a critical section does to the pool is one
function of the pool: `addSection`, `threadSection` and `destroySection`. They are put together
twice.

* `sectionStep` takes a critical section as one atomic step. A worker that waits on the condition
  variable ends one section and begins the next one; it may be woken up at any time.
* `threadStep` has the operations on the lock and on the condition variable, the joins and
  `threadpool_free` as steps of their own. A call that has returned is `out`; it may have left the
  lock behind.

The calls of `pthread` succeed. The queue is an array of `queue_size` tasks with any contents at
first, and an access outside it is a fault; so is a use of the pool after `free(pool)`. -/

namespace KvStore.ThreadPool

open Function KvStore.Lib

/-! ## The pool -/

/-- `threadpool_task_t` -/
structure Task where
  function : Nat
  argument : Nat
  deriving DecidableEq

/-- `pool->shutdown`: `0` or a `threadpool_shutdown_t`. -/
inductive Shutdown where
  | none
  | immediate
  | graceful
  deriving DecidableEq

/-- What the calls return: `0` or a `threadpool_error_t`. -/
inductive Err where
  | ok
  | invalid
  | lockFailure
  | queueFull
  | shutdown
  | threadFailure
  deriving DecidableEq

/-- `struct threadpool_s` -/
structure Pool where
  threadCount : Int
  queueSize : Int
  queue : Nat → Task
  head : Int
  tail : Int
  count : Int
  shutdown : Shutdown
  started : Int

/-- `MAX_THREADS` -/
def maxThreads : Int := 64

/-- `MAX_QUEUE` -/
def maxQueue : Int := 65536

/-- `threadpool_create`, where the memory of the queue holds `queue`. -/
def threadpoolCreate (threadCount queueSize : Int) (queue : Nat → Task) : Option Pool :=
  if threadCount ≤ 0 ∨ threadCount > maxThreads ∨ queueSize ≤ 0 ∨ queueSize > maxQueue then
    .none
  else
    some ⟨threadCount, queueSize, queue, 0, 0, 0, .none, threadCount⟩

/-! ## The critical sections -/

def readQueue (i : Int) : Exec Pool Task := do
  let pool ← get
  if 0 ≤ i ∧ i < pool.queueSize then
    return pool.queue i.toNat
  else
    throw .outOfBounds

def writeQueue (i : Int) (task : Task) : Exec Pool Unit := do
  let pool ← get
  if 0 ≤ i ∧ i < pool.queueSize then
    set { pool with queue := update pool.queue i.toNat task }
  else
    throw .outOfBounds

/-- `threadpool_add`, from `pthread_mutex_lock` to the signal. -/
def addSection (task : Task) : Exec Pool Err := do
  let pool ← get
  let next := (pool.tail + 1).tmod pool.queueSize
  if pool.count = pool.queueSize then
    return .queueFull
  else if pool.shutdown ≠ .none then
    return .shutdown
  else
    writeQueue pool.tail task
    modify fun pool => { pool with tail := next, count := pool.count + 1 }
    return .ok

/-- How a section of a worker ends. -/
inductive Looked where
  /-- In `pthread_cond_wait`. -/
  | wait
  | exit
  | take (task : Task)
  deriving DecidableEq

/-- `threadpool_thread`, from a `pthread_mutex_lock` or the end of a `pthread_cond_wait` to the next
`pthread_cond_wait` or `pthread_mutex_unlock`. -/
def threadSection : Exec Pool Looked := do
  let pool ← get
  if pool.count = 0 ∧ pool.shutdown = .none then
    return .wait
  else if pool.shutdown = .immediate ∨ pool.shutdown = .graceful ∧ pool.count = 0 then
    set { pool with started := pool.started - 1 }
    return .exit
  else
    let task ← readQueue pool.head
    set { pool with head := (pool.head + 1).tmod pool.queueSize, count := pool.count - 1 }
    return .take task

/-- `(flags & threadpool_graceful) ? graceful_shutdown : immediate_shutdown` -/
def shutdownOf (flags : Int) : Shutdown := if flags % 2 = 1 then .graceful else .immediate

/-- `threadpool_destroy`, from `pthread_mutex_lock` to the broadcast. -/
def destroySection (flags : Int) : Exec Pool Err := do
  let pool ← get
  if pool.shutdown ≠ .none then
    return .shutdown
  else
    set { pool with shutdown := shutdownOf flags }
    return .ok

/-! ## Sections as steps -/

/-- What a step shows. -/
inductive Event where
  /-- The result of `threadpool_add` for the task. -/
  | added (task : Task) (err : Err)
  | waits (i : Nat)
  | takes (i : Nat) (task : Task)
  | exits (i : Nat)
  /-- The result of `threadpool_destroy` is `err`, unless a `pthread_join` fails. -/
  | destroys (flags : Int) (err : Err)
  deriving DecidableEq

/-- Where a worker is, between two sections. -/
inductive WorkerPc where
  /-- About to begin a section. -/
  | looking
  /-- It calls the function of its task. -/
  | running (task : Task)
  | exited
  deriving DecidableEq

/-- The pool and its workers. -/
structure Sys where
  pool : Pool
  worker : Nat → WorkerPc

namespace Sys

def setPool (pool : Pool) (s : Sys) : Sys := { s with pool := pool }
def setWorker (i : Nat) (pc : WorkerPc) (s : Sys) : Sys :=
  { s with worker := update s.worker i pc }

end Sys

/-- The atomic steps of this grain. -/
inductive Section where
  | add (task : Task)
  | look (i : Nat)
  /-- The function of the task returns. -/
  | done (i : Nat)
  | destroy (flags : Int)

/-- Where a section of a worker leaves it, and what it shows. -/
def Looked.pc : Looked → WorkerPc
  | .wait => .looking
  | .exit => .exited
  | .take t => .running t

def Looked.event (i : Nat) : Looked → Event
  | .wait => .waits i
  | .exit => .exits i
  | .take t => .takes i t

/-- Is the worker busy with a task? -/
def WorkerPc.IsRunning : WorkerPc → Prop
  | .running _ => True
  | _ => False

instance : DecidablePred WorkerPc.IsRunning := fun pc => by
  cases pc <;> unfold WorkerPc.IsRunning <;> infer_instance

/-- **One step**, with critical sections as steps. -/
def sectionStep : Section → Exec Sys (Option Event)
  | .add task =>
      if task.function = 0 then
        return some (.added task .invalid)
      else do
        let err ← zoom Sys.pool Sys.setPool (addSection task)
        return some (.added task err)
  | .look i => await (fun s => (i : Int) < s.pool.threadCount ∧ s.worker i = .looking) do
      let looked ← zoom Sys.pool Sys.setPool threadSection
      modify (Sys.setWorker i looked.pc)
      return some (looked.event i)
  | .done i => await (fun s => (s.worker i).IsRunning) do
      modify (Sys.setWorker i .looking)
      return none
  | .destroy flags => do
      let err ← zoom Sys.pool Sys.setPool (destroySection flags)
      return some (.destroys flags err)

/-- The pool, with its workers about to begin. -/
def start (pool : Pool) : Sys := ⟨pool, fun _ => .looking⟩

/-! ## Threads -/

/-- Where a caller of the interface is. -/
inductive CallerPc where
  /-- Outside: it has not called yet, or the call has returned. -/
  | out
  | addLock (task : Task)
  | addBody (task : Task)
  | addSignal
  | addUnlock
  | destroyLock (flags : Int)
  | destroyBody (flags : Int)
  | broadcast
  | destroyUnlock
  /-- At the test of the loop that joins the workers. -/
  | join (i : Nat)
  | free
  /-- `threadpool_free` has freed the two arrays, and takes the lock "just in case". -/
  | freeLock
  | freePool
  deriving DecidableEq

/-- Where a worker is. -/
inductive ThreadPc where
  | lock
  /-- It holds the lock, and begins a section. -/
  | body
  | waiting
  /-- Woken up, and about to take the lock again. -/
  | woken
  | unlock (task : Task)
  | running (task : Task)
  | exitUnlock
  | exited
  deriving DecidableEq

/-- Who holds the lock. -/
inductive Holder where
  | caller (p : Nat)
  | worker (i : Nat)
  deriving DecidableEq

/-- The pool, its lock and the threads. -/
structure Threads where
  pool : Pool
  freed : Bool
  lock : Option Holder
  caller : Nat → CallerPc
  worker : Nat → ThreadPc

namespace Threads

def setPool (pool : Pool) (t : Threads) : Threads := { t with pool := pool }
def setLock (h : Option Holder) (t : Threads) : Threads := { t with lock := h }
def setCaller (p : Nat) (pc : CallerPc) (t : Threads) : Threads :=
  { t with caller := update t.caller p pc }
def setWorker (i : Nat) (pc : ThreadPc) (t : Threads) : Threads :=
  { t with worker := update t.worker i pc }

/-- `pthread_cond_broadcast` -/
def wakeAll (t : Threads) : Threads :=
  { t with worker := fun i => if t.worker i = .waiting then .woken else t.worker i }

end Threads

/-- A call of the interface. -/
inductive Call where
  | add (task : Task)
  | destroy (flags : Int)

/-- The atomic steps of this grain. -/
inductive Step where
  /-- A thread outside calls the interface. -/
  | call (p : Nat) (c : Call)
  /-- The next step of a call, unless it is `pthread_cond_signal`. -/
  | caller (p : Nat)
  /-- `pthread_cond_signal`; `w` is the worker it wakes, `none` if no worker waits. -/
  | signal (p : Nat) (w : Option Nat)
  /-- The next step of a worker. -/
  | worker (i : Nat)
  /-- A wake-up without a signal. -/
  | spurious (i : Nat)

/-- `pthread_mutex_lock`, and then `f`. -/
def acquire (h : Holder) (f : Threads → Threads) : Exec Threads (Option Event) :=
  await (fun t => t.lock = none) do
    modify fun t => f (t.setLock (some h))
    return none

/-- A step that changes the threads only. -/
def move (f : Threads → Threads) : Exec Threads (Option Event) := do
  modify f
  return none

/-- The next step of the caller `p`, by where it is. -/
def callerStep (p : Nat) : CallerPc → Exec Threads (Option Event)
  | .out => throw .blocked
  | .addLock task => acquire (.caller p) (Threads.setCaller p (.addBody task))
  | .addBody task => do
      let err ← zoom Threads.pool Threads.setPool (addSection task)
      modify (Threads.setCaller p (if err = .ok then .addSignal else .addUnlock))
      return some (.added task err)
  | .addSignal => throw .blocked
  | .addUnlock => move fun t => (t.setLock none).setCaller p .out
  | .destroyLock flags => acquire (.caller p) (Threads.setCaller p (.destroyBody flags))
  | .destroyBody flags => do
      let err ← zoom Threads.pool Threads.setPool (destroySection flags)
      -- the `break` of the second call leaves the lock as it is
      modify (Threads.setCaller p (if err = .ok then .broadcast else .out))
      return some (.destroys flags err)
  | .broadcast => move fun t => t.wakeAll.setCaller p .destroyUnlock
  | .destroyUnlock => move fun t => (t.setLock none).setCaller p (.join 0)
  | .join i => await (fun t => (i : Int) < t.pool.threadCount → t.worker i = .exited) do
      move fun t => t.setCaller p (if (i : Int) < t.pool.threadCount then .join (i + 1) else .free)
  | .free => move fun t => t.setCaller p (if t.pool.started > 0 then .out else .freeLock)
  | .freeLock => acquire (.caller p) (Threads.setCaller p .freePool)
  | .freePool => move fun t => { t.setCaller p .out with freed := true }

/-- Where a section of a worker leaves it. -/
def Looked.threadPc : Looked → ThreadPc
  | .wait => .waiting
  | .exit => .exitUnlock
  | .take t => .unlock t

/-- The next step of the worker `i`, by where it is. -/
def workerStep (i : Nat) : ThreadPc → Exec Threads (Option Event)
  | .lock => acquire (.worker i) (Threads.setWorker i .body)
  | .body => do
      let looked ← zoom Threads.pool Threads.setPool threadSection
      -- `pthread_cond_wait` gives the lock back
      modify
        fun t => (t.setLock (if looked = .wait then none else t.lock)).setWorker i looked.threadPc
      return some (looked.event i)
  | .waiting => throw .blocked
  | .woken => acquire (.worker i) (Threads.setWorker i .body)
  | .unlock task => move fun t => (t.setLock none).setWorker i (.running task)
  | .running _ => move (Threads.setWorker i .lock)
  | .exitUnlock => move fun t => (t.setLock none).setWorker i .exited
  | .exited => throw .blocked

/-- The memory of the pool is used. -/
def usePool {α : Type} (c : Exec Threads α) : Exec Threads α := do
  if (← get).freed then throw .dangling else c

/-- **One step**, with the operations on the lock and the condition variable as steps. -/
def threadStep : Step → Exec Threads (Option Event)
  | .call p (.add task) => await (fun t => t.caller p = .out) do
      if task.function = 0 then
        return some (.added task .invalid)
      else
        move (Threads.setCaller p (.addLock task))
  | .call p (.destroy flags) => await (fun t => t.caller p = .out) do
      move (Threads.setCaller p (.destroyLock flags))
  | .caller p => usePool do callerStep p ((← get).caller p)
  | .signal p (some w) => usePool <|
      await (fun t => t.caller p = .addSignal ∧ t.worker w = .waiting) do
        move fun t => (t.setCaller p .addUnlock).setWorker w .woken
  | .signal p none => usePool <|
      await (fun t => t.caller p = .addSignal ∧
        ∀ i < t.pool.threadCount.toNat, t.worker i ≠ .waiting) do
        move (Threads.setCaller p .addUnlock)
  | .worker i => usePool <| await (fun t => (i : Int) < t.pool.threadCount) do
      workerStep i ((← get).worker i)
  | .spurious i => await (fun t => t.worker i = .waiting) do
      move (Threads.setWorker i .woken)

/-- The pool, with its workers about to take the lock. -/
def startThreads (pool : Pool) : Threads := ⟨pool, false, none, fun _ => .out, fun _ => .lock⟩

end KvStore.ThreadPool
