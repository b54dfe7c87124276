import KvStore.Lib.Interleaving

set_option autoImplicit false

/-! # The task queue of the worker pool, as written

The queue of `pool/thread_pool/0voice/thread_pool.c`, with its threads. A task is named by its
address; its first word is the link to the next task. `queue->tail` is the address of the last link:
that of a task, or of `queue->head` while the queue is empty.

Workers are in `__get_task`, producers in `__add_task`, and a closer in `__nonblock`. The spinlock
sections, the operations on the mutex, the wait and the signals are atomic steps (`step`). A signal
names the worker it wakes; without a waiting worker it has no effect. A worker may also wake up
without a signal.
-/

namespace KvStore.TaskQueue

open Function KvStore.Lib

/-! ## The queue -/

/-- `struct task_queue_s`, with the links of the tasks; `tail` is `none` for `&queue->head`. -/
structure Queue where
  head : Nat
  tail : Option Nat
  next : Nat → Nat
  block : Bool

/-- `__taskqueue_create`, in a memory where the words at the addresses of tasks are `next`. -/
def taskqueueCreate (next : Nat → Nat) : Queue := ⟨0, none, next, true⟩

/-- `*link = NULL`, before `__add_task` takes the spinlock. -/
def clearLink (task : Nat) (q : Queue) : Queue := { q with next := update q.next task 0 }

/-- The spinlock section of `__add_task`. -/
def addTask (task : Nat) (q : Queue) : Queue :=
  match q.tail with
  | none => { q with head := task, tail := some task }
  | some t => { q with next := update q.next t task, tail := some task }

/-- `__pop_task`: the task, or `0`. -/
def popTask (q : Queue) : Nat × Queue :=
  if q.head = 0 then (0, q)
  else if q.next q.head = 0 then (q.head, { q with head := 0, tail := none })
  else (q.head, { q with head := q.next q.head })

/-! ## The threads -/

/-- Where a worker is. -/
inductive WorkerPc where
  /-- Outside `__get_task`: it has not called it, or has got a task. -/
  | idle
  /-- At the test of the loop, which calls `__pop_task`. -/
  | pop
  /-- `__pop_task` has returned `NULL`. -/
  | failed
  /-- It holds the mutex and is about to test `queue->block`. -/
  | locked
  /-- Asleep in `pthread_cond_wait`. -/
  | waiting
  /-- Woken up, and about to take the mutex again. -/
  | woken
  /-- `pthread_cond_wait` has returned; it holds the mutex. -/
  | relocked
  /-- `__get_task` has returned `NULL`. -/
  | left
  deriving DecidableEq

/-- Where a producer is. -/
inductive ProducerPc where
  /-- Outside `__add_task`. -/
  | out
  /-- Before the spinlock section. -/
  | entered (task : Nat)
  /-- Behind it, and about to signal. -/
  | linked
  deriving DecidableEq

/-- Where a closer is. -/
inductive CloserPc where
  /-- Outside `__nonblock`. -/
  | out
  /-- It holds the mutex. -/
  | locked
  /-- It has given the mutex back, and is about to broadcast. -/
  | cleared
  deriving DecidableEq

/-- Who holds the mutex. -/
inductive Owner where
  | worker (i : Nat)
  | closer (j : Nat)
  deriving DecidableEq

/-- The queue, its mutex and the threads. -/
structure Sys where
  queue : Queue
  mutex : Option Owner
  worker : Nat → WorkerPc
  producer : Nat → ProducerPc
  closer : Nat → CloserPc

namespace Sys

def setQueue (q : Queue) (s : Sys) : Sys := { s with queue := q }
def setMutex (o : Option Owner) (s : Sys) : Sys := { s with mutex := o }
def setWorker (i : Nat) (pc : WorkerPc) (s : Sys) : Sys :=
  { s with worker := update s.worker i pc }
def setProducer (p : Nat) (pc : ProducerPc) (s : Sys) : Sys :=
  { s with producer := update s.producer p pc }
def setCloser (j : Nat) (pc : CloserPc) (s : Sys) : Sys :=
  { s with closer := update s.closer j pc }

/-- `pthread_cond_broadcast` -/
def wakeAll (s : Sys) : Sys :=
  { s with worker := fun i => if s.worker i = .waiting then .woken else s.worker i }

end Sys

/-- The atomic steps; `i` is a worker, `p` a producer and `j` a closer. -/
inductive Step where
  /-- The worker calls `__get_task`. -/
  | get (i : Nat)
  | popTask (i : Nat)
  | lockMutex (i : Nat)
  /-- `block` is `0`: the mutex is given back, and `__get_task` returns `NULL`. -/
  | leave (i : Nat)
  /-- `block` is `1`: `pthread_cond_wait` gives the mutex back and sleeps. -/
  | condWait (i : Nat)
  /-- A wake-up without a signal. -/
  | spurious (i : Nat)
  /-- `pthread_cond_wait` takes the mutex again, and returns. -/
  | relock (i : Nat)
  | unlockMutex (i : Nat)
  /-- The producer calls `__add_task`. -/
  | post (p task : Nat)
  | addTask (p : Nat)
  /-- `pthread_cond_signal`; `w` is the worker it wakes, `none` if no worker waits. -/
  | signal (p : Nat) (w : Option Nat)
  /-- The closer calls `__nonblock`, and takes the mutex. -/
  | closeLock (j : Nat)
  /-- `block` is set to `0`, and the mutex given back. -/
  | closeClear (j : Nat)
  | broadcast (j : Nat)

/-- The producer is about to run its spinlock section. -/
def ProducerPc.task? : ProducerPc → Option Nat
  | .entered task => some task
  | _ => none

/-- **One step** of a pool with `n` workers. -/
def step (n : Nat) : Step → Exec Sys Unit
  | .get i => act (fun s => i < n ∧ s.worker i = .idle) (Sys.setWorker i .pop)
  | .popTask i => act (fun s => s.worker i = .pop) fun s =>
      (s.setQueue (TaskQueue.popTask s.queue).2).setWorker i
        (if (TaskQueue.popTask s.queue).1 = 0 then .failed else .idle)
  | .lockMutex i => act (fun s => s.worker i = .failed ∧ s.mutex = none) fun s =>
      (s.setMutex (some (.worker i))).setWorker i .locked
  | .leave i => act (fun s => s.worker i = .locked ∧ s.queue.block = false) fun s =>
      (s.setMutex none).setWorker i .left
  | .condWait i => act (fun s => s.worker i = .locked ∧ s.queue.block = true) fun s =>
      (s.setMutex none).setWorker i .waiting
  | .spurious i => act (fun s => s.worker i = .waiting) (Sys.setWorker i .woken)
  | .relock i => act (fun s => s.worker i = .woken ∧ s.mutex = none) fun s =>
      (s.setMutex (some (.worker i))).setWorker i .relocked
  | .unlockMutex i => act (fun s => s.worker i = .relocked) fun s =>
      (s.setMutex none).setWorker i .pop
  | .post p task => act (fun s => task ≠ 0 ∧ s.producer p = .out) fun s =>
      (s.setQueue (clearLink task s.queue)).setProducer p (.entered task)
  | .addTask p => act (fun s => (s.producer p).task? ≠ none) fun s =>
      (s.setQueue (TaskQueue.addTask ((s.producer p).task?.getD 0) s.queue)).setProducer p .linked
  | .signal p (some w) =>
      act (fun s => s.producer p = .linked ∧ w < n ∧ s.worker w = .waiting) fun s =>
      (s.setProducer p .out).setWorker w .woken
  | .signal p none => act (fun s => s.producer p = .linked ∧ ∀ i < n, s.worker i ≠ .waiting)
      (Sys.setProducer p .out)
  | .closeLock j => act (fun s => s.closer j = .out ∧ s.mutex = none) fun s =>
      (s.setMutex (some (.closer j))).setCloser j .locked
  | .closeClear j => act (fun s => s.closer j = .locked) fun s =>
      ((s.setQueue { s.queue with block := false }).setMutex none).setCloser j .cleared
  | .broadcast j => act (fun s => s.closer j = .cleared) fun s => s.wakeAll.setCloser j .out

/-- A new queue, with every thread outside its function. -/
def start (next : Nat → Nat) : Sys :=
  ⟨taskqueueCreate next, none, fun _ => .idle, fun _ => .out, fun _ => .out⟩

end KvStore.TaskQueue
