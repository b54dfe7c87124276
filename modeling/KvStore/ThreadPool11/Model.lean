import KvStore.Lib.Interleaving

set_option autoImplicit false

/-! # The thread pool of the C++ interface, as written

The class `ThreadPool` of `pool/thread_pool/thread_pool_c++11.h`, with its workers, any number of
threads in `enqueue`, and one in the destructor. The operations on `queue_mutex`, the wait, the
notifications and the joins are atomic steps; what is done under the mutex is one step. `notify_one`
names the worker it wakes; without a waiting worker it has no effect. A worker may also wake up
without a notification.

A task is a value of any type `τ`. The pool is used until its destructor returns; to use it
afterwards is a fault. -/

namespace KvStore.ThreadPool11

open KvStore.Lib

variable {τ : Type}

/-! ## The state -/

/-- Where a worker is, in the body of its loop. -/
inductive WorkerPc (τ : Type) where
  /-- About to lock the mutex. -/
  | lock
  /-- It holds the mutex and tests the predicate of the wait. -/
  | test
  /-- Asleep in `condition.wait`. -/
  | waiting
  /-- Woken up, and about to lock the mutex again. -/
  | woken
  /-- It has taken a task, and is about to unlock the mutex. -/
  | unlock (task : τ)
  /-- It calls the task. -/
  | run (task : τ)
  /-- It returns, and is about to unlock the mutex. -/
  | leave
  /-- It has returned. -/
  | left

/-- Where a caller of `enqueue` is. -/
inductive CallerPc (τ : Type) where
  /-- Outside. -/
  | out
  | lock (task : τ)
  /-- It holds the mutex. -/
  | emplace (task : τ)
  /-- The task has been accepted, or `enqueue` throws. -/
  | unlock (accepted : Bool)
  /-- About to call `notify_one`. -/
  | notify

/-- Where the destructor is. -/
inductive DestructorPc where
  /-- It has not been called. -/
  | out
  | lock
  /-- It holds the mutex, and is about to set `stop`. -/
  | stop
  | unlock
  /-- About to call `notify_all`. -/
  | notifyAll
  /-- About to join the worker `i`. -/
  | join (i : Nat)
  /-- It has returned. -/
  | returned

/-- Who holds the mutex. -/
inductive Holder where
  | worker (i : Nat)
  | caller (p : Nat)
  | destructor

/-- The pool and its threads. -/
structure Sys (τ : Type) where
  tasks : List τ
  stop : Bool
  queueMutex : Option Holder
  worker : Nat → WorkerPc τ
  caller : Nat → CallerPc τ
  destructor : DestructorPc

namespace Sys

def setTasks (tasks : List τ) (s : Sys τ) : Sys τ := { s with tasks := tasks }
def setMutex (h : Option Holder) (s : Sys τ) : Sys τ := { s with queueMutex := h }
def setWorker (i : Nat) (pc : WorkerPc τ) (s : Sys τ) : Sys τ :=
  { s with worker := Function.update s.worker i pc }
def setCaller (p : Nat) (pc : CallerPc τ) (s : Sys τ) : Sys τ :=
  { s with caller := Function.update s.caller p pc }
def setDestructor (pc : DestructorPc) (s : Sys τ) : Sys τ := { s with destructor := pc }

end Sys

def WorkerPc.isWaiting : WorkerPc τ → Bool
  | .waiting => true
  | _ => false

def WorkerPc.isLeft : WorkerPc τ → Bool
  | .left => true
  | _ => false

def CallerPc.isOut : CallerPc τ → Bool
  | .out => true
  | _ => false

def CallerPc.isNotify : CallerPc τ → Bool
  | .notify => true
  | _ => false

def DestructorPc.isOut : DestructorPc → Bool
  | .out => true
  | _ => false

def DestructorPc.isReturned : DestructorPc → Bool
  | .returned => true
  | _ => false

/-- `notify_all` -/
def Sys.wakeAll (s : Sys τ) : Sys τ :=
  { s with worker := fun i => if (s.worker i).isWaiting then .woken else s.worker i }

/-- What a step shows. -/
inductive Event (τ : Type) where
  /-- `enqueue` has accepted the task. -/
  | accepted (task : τ)
  /-- `enqueue` throws. -/
  | refused (task : τ)
  | took (i : Nat) (task : τ)
  /-- The task has been called, and has returned. -/
  | finished (i : Nat) (task : τ)
  | left (i : Nat)
  | stopped
  /-- The destructor returns. -/
  | destroyed

/-! ## Steps -/

/-- A step that shows nothing. -/
def move (f : Sys τ → Sys τ) : Exec (Sys τ) (Option (Event τ)) := do
  modify f
  return none

/-- A step that shows an event. -/
def emit (e : Event τ) (f : Sys τ → Sys τ) : Exec (Sys τ) (Option (Event τ)) := do
  modify f
  return some e

/-- The mutex is locked, and then `f`. -/
def acquire (h : Holder) (f : Sys τ → Sys τ) : Exec (Sys τ) (Option (Event τ)) :=
  await (fun s => s.queueMutex.isNone = true) (move fun s => f (s.setMutex (some h)))

/-- The predicate of the wait, the test of the loop, and the removal of the first task. -/
def testSection (i : Nat) (s : Sys τ) : Exec (Sys τ) (Option (Event τ)) :=
  match s.tasks with
  | [] =>
      if s.stop then emit (.left i) (Sys.setWorker i .leave)
      else move fun s => (s.setMutex none).setWorker i .waiting
  | task :: rest => emit (.took i task) fun s => (s.setTasks rest).setWorker i (.unlock task)

/-- The next step of the worker `i`, by where it is. -/
def workerStep (i : Nat) : WorkerPc τ → Exec (Sys τ) (Option (Event τ))
  | .lock => acquire (.worker i) (Sys.setWorker i .test)
  | .test => do testSection i (← get)
  | .waiting => throw .blocked
  | .woken => acquire (.worker i) (Sys.setWorker i .test)
  | .unlock task => move fun s => (s.setMutex none).setWorker i (.run task)
  | .run task => emit (.finished i task) (Sys.setWorker i .lock)
  | .leave => move fun s => (s.setMutex none).setWorker i .left
  | .left => throw .blocked

/-- The next step of a call of `enqueue`, by where it is. -/
def callerStep (p : Nat) : CallerPc τ → Exec (Sys τ) (Option (Event τ))
  | .out => throw .blocked
  | .lock task => acquire (.caller p) (Sys.setCaller p (.emplace task))
  | .emplace task => do
      if (← get).stop then
        emit (.refused task) (Sys.setCaller p (.unlock false))
      else
        emit (.accepted task) fun s => (s.setTasks (s.tasks ++ [task])).setCaller p (.unlock true)
  | .unlock accepted =>
      move fun s => (s.setMutex none).setCaller p (if accepted then .notify else .out)
  | .notify => throw .blocked

/-- The next step of the destructor of a pool of `n` workers, by where it is. -/
def destructorStep (n : Nat) : DestructorPc → Exec (Sys τ) (Option (Event τ))
  | .out => throw .blocked
  | .lock => acquire .destructor (Sys.setDestructor .stop)
  | .stop => emit .stopped fun s => { s.setDestructor .unlock with stop := true }
  | .unlock => move fun s => (s.setMutex none).setDestructor .notifyAll
  | .notifyAll => move fun s => s.wakeAll.setDestructor (.join 0)
  | .join i =>
      if i < n then
        await (fun s => (s.worker i).isLeft = true) (move (Sys.setDestructor (.join (i + 1))))
      else
        emit .destroyed (Sys.setDestructor .returned)
  | .returned => throw .blocked

/-- The atomic steps. -/
inductive Step (τ : Type) where
  /-- A thread outside calls `enqueue`. -/
  | enqueue (p : Nat) (task : τ)
  /-- The next step of a call of `enqueue`, unless it is `notify_one`. -/
  | caller (p : Nat)
  /-- `notify_one`; `w` is the worker it wakes, `none` if no worker waits. -/
  | notifyOne (p : Nat) (w : Option Nat)
  | worker (i : Nat)
  /-- A wake-up without a notification. -/
  | spurious (i : Nat)
  /-- The destructor is called. -/
  | destroy
  | destructor

/-- The pool is used. -/
def usePool {α : Type} (c : Exec (Sys τ) α) : Exec (Sys τ) α := do
  if (← get).destructor.isReturned then throw .dangling else c

/-- **One step** of a pool of `n` workers. -/
def step (n : Nat) : Step τ → Exec (Sys τ) (Option (Event τ))
  | .enqueue p task =>
      await (fun s => (s.caller p).isOut = true) (move (Sys.setCaller p (.lock task)))
  | .caller p => usePool do callerStep p ((← get).caller p)
  | .notifyOne p (some w) => usePool <|
      await (fun s => (s.caller p).isNotify = true ∧ w < n ∧ (s.worker w).isWaiting = true) <|
        move fun s => (s.setCaller p .out).setWorker w .woken
  | .notifyOne p none => usePool <|
      await (fun s => (s.caller p).isNotify = true ∧ ∀ i < n, (s.worker i).isWaiting = false) <|
        move (Sys.setCaller p .out)
  | .worker i => usePool <| await (fun _ => i < n) do workerStep i ((← get).worker i)
  | .spurious i => await (fun s => (s.worker i).isWaiting = true) (move (Sys.setWorker i .woken))
  | .destroy => await (fun s => s.destructor.isOut = true) (move (Sys.setDestructor .lock))
  | .destructor => do destructorStep n (← get).destructor

/-- The constructor: the workers are about to lock the mutex. -/
def start (τ : Type) : Sys τ := ⟨[], false, none, fun _ => .lock, fun _ => .out, .out⟩

end KvStore.ThreadPool11
