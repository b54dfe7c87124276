import KvStore.Lib.Interleaving

set_option autoImplicit false

/-! # The life of the worker pool, as written

All of `pool/thread_pool/0voice/thread_pool.c`, with the spinlock of `spinlock.h`: one thread, the
owner, creates the pool and waits for its end (`thrdpool_create`, `thrdpool_waitdone`), any number
of callers post tasks to it or terminate it, and the workers run. Every access to memory that
threads share is an atomic step of its own. The spinlock is the word it is in the source; a round of
its loop in which the word is set changes nothing and is left out. The mutex, the condition variable
and the threads are those of the system: `pthread_cond_signal` names the worker it wakes, and a
worker may wake up without a signal.

A task is a block of memory that `malloc` gives to `thrdpool_post`, at any address that is free. A
block, the pool, the queue, the thread array, the mutex or the condition variable is used only while
it is there; anything else is a fault. What can fail when the pool is created is an outcome of the
step. -/

namespace KvStore.Thrdpool

open KvStore.Lib

variable {τ : Type}

/-! ## Where a thread is -/

inductive Thread where
  | worker (i : Nat)
  | caller (p : Nat)
  /-- The thread that creates the pool and waits for its end. -/
  | owner
  deriving DecidableEq

/-- Who calls `__pop_task`: a worker, or the owner in `__taskqueue_destroy`; `failed` tells
`thrdpool_create`, when it gives up, from `thrdpool_waitdone`. -/
inductive Popper where
  | worker
  | owner (failed : Bool)

/-- In `__pop_task`. -/
inductive PopPc where
  /-- `spinlock_lock` -/
  | lock
  /-- `queue->head == NULL` -/
  | head
  /-- `queue->head = *link` -/
  | link (task : Nat)
  /-- `queue->head == NULL`, and `queue->tail = &queue->head` -/
  | tail (task : Nat)
  /-- `spinlock_unlock`, and the task is returned. -/
  | unlock (task : Nat)

/-- In `__add_task`. -/
inductive AddPc where
  /-- `*link = NULL` -/
  | clear
  | lock
  /-- `*queue->tail = link` -/
  | link
  /-- `queue->tail = link` -/
  | tail
  | unlock
  /-- `pthread_cond_signal` -/
  | signal

/-- Who calls `__nonblock`: `thrdpool_terminate`, or `__threads_terminate` when threads could not be
created. -/
inductive Closer where
  | caller
  | owner

/-- In `thrdpool_terminate` and `__threads_terminate`, up to the joins. -/
inductive ClosePc where
  /-- `atomic_store(&pool->quit, 1)` -/
  | store
  | lock
  /-- `queue->block = 0` -/
  | clear
  | unlock
  | broadcast

/-- Where a thread is. -/
inductive Pc (τ : Type) where
  /-- A worker that has not been created, or a caller outside. -/
  | out
  /-- A worker at the test of `quit`. -/
  | loop
  | pop (u : Popper) (pc : PopPc)
  /-- `__pop_task` has returned `NULL` in `__get_task`. -/
  | lockMutex
  /-- `queue->block == 0` -/
  | testBlock
  /-- `pthread_cond_wait`, with the mutex. -/
  | condWait
  /-- Asleep. -/
  | waiting
  /-- Woken up, and about to lock the mutex again. -/
  | woken
  /-- `pthread_cond_wait` has returned. -/
  | relocked
  /-- `__get_task` is about to return `NULL`. -/
  | giveUp
  /-- A worker has got a task, and reads it. -/
  | read (task : Nat)
  | free (task : Nat) (func : τ) (arg : Nat)
  /-- `func(ctx)` -/
  | run (func : τ) (arg : Nat)
  /-- A worker that has returned. -/
  | left
  /-- The test of `quit` in `thrdpool_post`. -/
  | testQuit (func : τ) (arg : Nat)
  | malloc (func : τ) (arg : Nat)
  /-- `task->func = func`, `task->arg = arg` -/
  | fill (task : Nat) (func : τ) (arg : Nat)
  | add (task : Nat) (func : τ) (arg : Nat) (pc : AddPc)
  | close (u : Closer) (pc : ClosePc)
  | mallocPool
  | mallocQueue
  | initMutex
  | initCond
  | initAttr
  | mallocThreads
  /-- `pthread_create` of the worker `i` -/
  | create (i : Nat)
  /-- `thrdpool_create` has returned the pool. -/
  | ready
  /-- `pthread_join` of the worker `i` -/
  | join (failed : Bool) (i : Nat)
  | freeThreads (failed : Bool)
  /-- `free(task)` in `__taskqueue_destroy` -/
  | drop (failed : Bool) (task : Nat)
  | destroyCond (failed : Bool)
  | destroyMutex (failed : Bool)
  | freeQueue (failed : Bool)
  | freePool (failed : Bool)
  /-- `thrdpool_waitdone` has returned, or `thrdpool_create` without a pool. -/
  | returned (failed : Bool)

def Pc.isOut : Pc τ → Bool
  | .out => true
  | _ => false

def Pc.isWaiting : Pc τ → Bool
  | .waiting => true
  | _ => false

def Pc.isLeft : Pc τ → Bool
  | .left => true
  | _ => false

def Pc.isReady : Pc τ → Bool
  | .ready => true
  | _ => false

def Pc.isReturned : Pc τ → Bool
  | .returned _ => true
  | _ => false

/-- Where the caller of `__pop_task` goes on. -/
def Popper.back : Popper → Nat → Pc τ
  | .worker, task => if task = 0 then .lockMutex else .read task
  | .owner failed, task => if task = 0 then .destroyCond failed else .drop failed task

/-- Where the caller of `__nonblock` goes on. -/
def Closer.back : Closer → Pc τ
  | .caller => .out
  | .owner => .join true 0

/-! ## The state -/

/-- `struct task_s`; a field is `none` until it has been written. -/
structure Task (τ : Type) where
  next : Option Nat
  func : Option τ
  arg : Option Nat

/-- What has been allocated or initialised, and not been given back. -/
structure Resources where
  pool : Bool
  queue : Bool
  mutex : Bool
  cond : Bool
  threads : Bool

/-- The pool, its queue, its tasks and the threads; `tail` is `none` for `&queue->head`. -/
structure Sys (τ : Type) where
  res : Resources
  tasks : Nat → Option (Task τ)
  quit : Bool
  thrdCount : Option Nat
  head : Nat
  tail : Option Nat
  block : Bool
  lock : Bool
  mutex : Option Thread
  pc : Thread → Pc τ

namespace Sys

def goto (t : Thread) (pc : Pc τ) (s : Sys τ) : Sys τ := { s with pc := Function.update s.pc t pc }
def setRes (f : Resources → Resources) (s : Sys τ) : Sys τ := { s with res := f s.res }
def setTask (a : Nat) (b : Option (Task τ)) (s : Sys τ) : Sys τ :=
  { s with tasks := Function.update s.tasks a b }
def setHead (a : Nat) (s : Sys τ) : Sys τ := { s with head := a }
def setTail (a : Option Nat) (s : Sys τ) : Sys τ := { s with tail := a }
def setLock (b : Bool) (s : Sys τ) : Sys τ := { s with lock := b }
def setMutex (t : Option Thread) (s : Sys τ) : Sys τ := { s with mutex := t }
def setQuit (b : Bool) (s : Sys τ) : Sys τ := { s with quit := b }
def setBlock (b : Bool) (s : Sys τ) : Sys τ := { s with block := b }
def setThrdCount (n : Nat) (s : Sys τ) : Sys τ := { s with thrdCount := some n }

/-- `pthread_cond_broadcast` -/
def wakeAll (s : Sys τ) : Sys τ :=
  { s with pc := fun t => if (s.pc t).isWaiting then .woken else s.pc t }

/-- The last part of `__taskqueue_create`, and `atomic_init(&pool->quit, 0)`. -/
def initQueue (s : Sys τ) : Sys τ :=
  { s with lock := false, head := 0, tail := none, block := true, quit := false }

end Sys

/-- The function and the argument in a block, once both have been written. -/
def Task.job (b : Task τ) : Option (τ × Nat) := do
  let func ← b.func
  let arg ← b.arg
  return (func, arg)

/-- The function and the argument of the task at an address. -/
def jobAt (tasks : Nat → Option (Task τ)) (a : Nat) : Option (τ × Nat) := (tasks a).bind Task.job

/-- What a step shows. -/
inductive Event (τ : Type) where
  /-- A task is put in the queue. -/
  | linked (t : Thread) (func : τ) (arg : Nat)
  /-- `thrdpool_post` returns `-1`. -/
  | refused (t : Thread) (func : τ) (arg : Nat)
  /-- A task is taken from the queue; `job` is what stands in its block. -/
  | took (t : Thread) (job : Option (τ × Nat))
  /-- The function of a task has been called, and has returned. -/
  | called (t : Thread) (func : τ) (arg : Nat)
  /-- A task is freed by `__taskqueue_destroy`; `job` is what stands in its block. -/
  | dropped (t : Thread) (job : Option (τ × Nat))
  /-- `thrdpool_waitdone` returns, or `thrdpool_create` without a pool. -/
  | returned (failed : Bool)

/-! ## Accesses -/

/-- Something is used that has to be there. -/
def live {α : Type} (p : Resources → Bool) (c : Exec (Sys τ) α) : Exec (Sys τ) α := do
  if p (← get).res then c else throw .dangling

/-- Something is given back that has to be there. -/
def release (p : Resources → Bool) (f : Resources → Resources) : Exec (Sys τ) Unit := do
  if p (← get).res then modify (Sys.setRes f) else throw .badFree

def readTask (a : Nat) : Exec (Sys τ) (Task τ) := do
  match (← get).tasks a with
  | some b => return b
  | none => throw (if a = 0 then .nullDeref else .dangling)

def readNext (a : Nat) : Exec (Sys τ) Nat := do
  match (← readTask a).next with
  | some next => return next
  | none => throw .uninit

def readJob (a : Nat) : Exec (Sys τ) (τ × Nat) := do
  match (← readTask a).job with
  | some job => return job
  | none => throw .uninit

def writeTask (a : Nat) (f : Task τ → Task τ) : Exec (Sys τ) Unit := do
  let b ← readTask a
  modify (Sys.setTask a (some (f b)))

def freeTask (a : Nat) : Exec (Sys τ) Unit := do
  match (← get).tasks a with
  | some _ => modify (Sys.setTask a none)
  | none => throw .badFree

/-! ## Steps -/

/-- The thread goes on, and the step shows nothing. -/
def go (t : Thread) (pc : Pc τ) : Exec (Sys τ) (Option (Event τ)) := do
  modify (Sys.goto t pc)
  return none

/-- The thread goes on, and the step shows an event. -/
def emit (e : Event τ) (t : Thread) (pc : Pc τ) : Exec (Sys τ) (Option (Event τ)) := do
  modify (Sys.goto t pc)
  return some e

/-- `pthread_mutex_lock` -/
def lockMutex (t : Thread) (pc : Pc τ) : Exec (Sys τ) (Option (Event τ)) :=
  live Resources.mutex <| await (fun s => s.mutex.isNone = true) do
    modify (Sys.setMutex (some t))
    go t pc

/-- `pthread_mutex_unlock` -/
def unlockMutex (t : Thread) (pc : Pc τ) : Exec (Sys τ) (Option (Event τ)) :=
  live Resources.mutex do
    modify (Sys.setMutex none)
    go t pc

/-- The round of `spinlock_lock` that ends it. -/
def spinlockLock (t : Thread) (pc : Pc τ) : Exec (Sys τ) (Option (Event τ)) :=
  live Resources.queue <| await (fun s => s.lock = false) do
    modify (Sys.setLock true)
    go t pc

def spinlockUnlock (t : Thread) (pc : Pc τ) : Exec (Sys τ) (Option (Event τ)) :=
  live Resources.queue do
    modify (Sys.setLock false)
    go t pc

def popStep (t : Thread) (u : Popper) : PopPc → Exec (Sys τ) (Option (Event τ))
  | .lock => spinlockLock t (.pop u .head)
  | .head => live Resources.queue do
      let head := (← get).head
      go t (.pop u (if head = 0 then .unlock 0 else .link head))
  | .link task => live Resources.queue do
      let next ← readNext task
      let job := jobAt (← get).tasks task
      modify (Sys.setHead next)
      emit (.took t job) t (.pop u (.tail task))
  | .tail task => live Resources.queue do
      modify fun s => s.setTail (if s.head = 0 then none else s.tail)
      go t (.pop u (.unlock task))
  | .unlock task => spinlockUnlock t (u.back task)

/-- `pthread_cond_signal` is a step of its own (`step`). -/
def addStep (t : Thread) (task : Nat) (func : τ) (arg : Nat) :
    AddPc → Exec (Sys τ) (Option (Event τ))
  | .clear => do
      writeTask task fun b => { b with next := some 0 }
      go t (.add task func arg .lock)
  | .lock => spinlockLock t (.add task func arg .link)
  | .link => live Resources.queue do
      match (← get).tail with
      | none => modify (Sys.setHead task)
      | some last => writeTask last fun b => { b with next := some task }
      emit (.linked t func arg) t (.add task func arg .tail)
  | .tail => live Resources.queue do
      modify (Sys.setTail (some task))
      go t (.add task func arg .unlock)
  | .unlock => spinlockUnlock t (.add task func arg .signal)
  | .signal => throw .blocked

def closeStep (t : Thread) (u : Closer) : ClosePc → Exec (Sys τ) (Option (Event τ))
  | .store => live Resources.pool do
      modify (Sys.setQuit true)
      go t (.close u .lock)
  | .lock => lockMutex t (.close u .clear)
  | .clear => live Resources.queue do
      modify (Sys.setBlock false)
      go t (.close u .unlock)
  | .unlock => unlockMutex t (.close u .broadcast)
  | .broadcast => live Resources.cond do
      modify Sys.wakeAll
      go t u.back

/-- `pthread_join` of the worker `i`; behind the last one, `__threads_terminate` returns, or
`thrdpool_waitdone` goes on. -/
def joinStep (failed : Bool) (i : Nat) : Exec (Sys τ) (Option (Event τ)) :=
  live Resources.pool <| live Resources.threads do
    match (← get).thrdCount with
    | none => throw .uninit
    | some count =>
        if i < count then
          await (fun s => (s.pc (.worker i)).isLeft = true) (go .owner (.join failed (i + 1)))
        else
          go .owner (if failed then .freeThreads true else .pop (.owner false) .lock)

/-- A worker sleeps. -/
def Sys.hasWaiter (s : Sys τ) : Bool :=
  (List.range (s.thrdCount.getD 0)).any fun i => (s.pc (.worker i)).isWaiting

/-- **The next step of a thread**, by where it is; the steps that make a choice, and the calls, are
in `step`. -/
def threadStep (n : Nat) (t : Thread) : Pc τ → Exec (Sys τ) (Option (Event τ))
  | .loop => live Resources.pool do
      go t (if (← get).quit then .left else .pop .worker .lock)
  | .pop u pc => popStep t u pc
  | .lockMutex => lockMutex t .testBlock
  | .testBlock => live Resources.queue do
      go t (if (← get).block then .condWait else .giveUp)
  | .condWait => live Resources.cond do
      modify (Sys.setMutex none)
      go t .waiting
  | .woken => lockMutex t .relocked
  | .relocked => unlockMutex t (.pop .worker .lock)
  | .giveUp => unlockMutex t .left
  | .read task => do
      let job ← readJob task
      go t (.free task job.1 job.2)
  | .free task func arg => do
      freeTask task
      go t (.run func arg)
  | .run func arg => emit (.called t func arg) t .loop
  | .testQuit func arg => live Resources.pool do
      if (← get).quit then emit (.refused t func arg) t .out else go t (.malloc func arg)
  | .fill task func arg => do
      writeTask task fun b => { b with func := some func, arg := some arg }
      go t (.add task func arg .clear)
  | .add task func arg pc => addStep t task func arg pc
  | .close u pc => closeStep t u pc
  | .create i => await (fun _ => n ≤ i) do
      modify (Sys.setThrdCount i)
      go t .ready
  | .join failed i => joinStep failed i
  | .freeThreads failed => do
      release Resources.threads fun r => { r with threads := false }
      go t (if failed then .pop (.owner true) .lock else .freePool false)
  | .drop failed task => do
      let job := jobAt (← get).tasks task
      freeTask task
      emit (.dropped t job) t (.pop (.owner failed) .lock)
  | .destroyCond failed => do
      if (← get).hasWaiter then throw .badFree
      else
        release Resources.cond fun r => { r with cond := false }
        go t (.destroyMutex failed)
  | .destroyMutex failed => do
      if (← get).mutex.isSome then throw .badFree
      else
        release Resources.mutex fun r => { r with mutex := false }
        go t (.freeQueue failed)
  | .freeQueue failed => do
      release Resources.queue fun r => { r with queue := false }
      go t (if failed then .freePool true else .freeThreads false)
  | .freePool failed => do
      release Resources.pool fun r => { r with pool := false }
      emit (.returned failed) t (.returned failed)
  | _ => throw .blocked

/-- A step of `thrdpool_create` that can fail. -/
def attempt (n : Nat) (ok : Bool) : Pc τ → Exec (Sys τ) (Option (Event τ))
  | .mallocPool =>
      if ok then do
        modify (Sys.setRes fun r => { r with pool := true })
        go .owner .mallocQueue
      else emit (.returned true) .owner (.returned true)
  | .mallocQueue =>
      if ok then do
        modify (Sys.setRes fun r => { r with queue := true })
        go .owner .initMutex
      else go .owner (.freePool true)
  | .initMutex =>
      if ok then do
        modify (Sys.setRes fun r => { r with mutex := true })
        go .owner .initCond
      else go .owner (.freeQueue true)
  | .initCond =>
      if ok then do
        modify (Sys.setRes fun r => { r with cond := true })
        modify Sys.initQueue
        go .owner .initAttr
      else go .owner (.destroyMutex true)
  | .initAttr => go .owner (if ok then .mallocThreads else .pop (.owner true) .lock)
  | .mallocThreads =>
      if ok then do
        modify (Sys.setRes fun r => { r with threads := true })
        go .owner (.create 0)
      else go .owner (.pop (.owner true) .lock)
  | .create i => await (fun _ => i < n) do
      if ok then
        modify (Sys.goto (.worker i) .loop)
        go .owner (.create (i + 1))
      else
        modify (Sys.setThrdCount i)
        go .owner (.close .owner .store)
  | _ => throw .blocked

/-- `malloc` in `thrdpool_post` gives the address `a`, or `NULL`. -/
def mallocStep (t : Thread) (a : Nat) : Pc τ → Exec (Sys τ) (Option (Event τ))
  | .malloc func arg =>
      if a = 0 then emit (.refused t func arg) t .out
      else await (fun s => (s.tasks a).isNone = true) do
        modify (Sys.setTask a (some ⟨none, none, none⟩))
        go t (.fill a func arg)
  | _ => throw .blocked

/-- `pthread_cond_signal` wakes the worker `w`; without a sleeping worker it has no effect. -/
def signalStep (n : Nat) (t : Thread) (w : Option Nat) : Pc τ → Exec (Sys τ) (Option (Event τ))
  | .add _ _ _ .signal => live Resources.cond <|
      match w with
      | some w => await (fun s => w < n ∧ (s.pc (.worker w)).isWaiting = true) do
          modify (Sys.goto (.worker w) .woken)
          go t .out
      | none => await (fun s => ∀ i < n, (s.pc (.worker i)).isWaiting = false) (go t .out)
  | _ => throw .blocked

/-- The atomic steps. -/
inductive Step (τ : Type) where
  /-- A caller outside calls `thrdpool_post`. -/
  | post (p : Nat) (func : τ) (arg : Nat)
  /-- A caller outside calls `thrdpool_terminate`. -/
  | terminate (p : Nat)
  /-- The owner calls `thrdpool_waitdone`. -/
  | waitdone
  | thread (t : Thread)
  | attempt (ok : Bool)
  | malloc (t : Thread) (a : Nat)
  | signal (t : Thread) (w : Option Nat)
  /-- A wake-up without a signal. -/
  | spurious (i : Nat)

/-- **One step** of a pool that is created with `thrd_count` equal to `n`. -/
def step (n : Nat) : Step τ → Exec (Sys τ) (Option (Event τ))
  | .post p func arg =>
      await (fun s => (s.pc (.caller p)).isOut = true) (go (.caller p) (.testQuit func arg))
  | .terminate p =>
      await (fun s => (s.pc (.caller p)).isOut = true) (go (.caller p) (.close .caller .store))
  | .waitdone => await (fun s => (s.pc .owner).isReady = true) (go .owner (.join false 0))
  | .thread t => do threadStep n t ((← get).pc t)
  | .attempt ok => do attempt n ok ((← get).pc .owner)
  | .malloc t a => do mallocStep t a ((← get).pc t)
  | .signal t w => do signalStep n t w ((← get).pc t)
  | .spurious i => await (fun s => (s.pc (.worker i)).isWaiting = true) (go (.worker i) .woken)

/-- Nothing is there, and `thrdpool_create` is called. -/
def start (τ : Type) : Sys τ where
  res := ⟨false, false, false, false, false⟩
  tasks _ := none
  quit := false
  thrdCount := none
  head := 0
  tail := none
  block := true
  lock := false
  mutex := none
  pc t := if t = .owner then .mallocPool else .out

end KvStore.Thrdpool
