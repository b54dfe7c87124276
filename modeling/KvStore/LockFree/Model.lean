import KvStore.Lib.Interleaving

set_option autoImplicit false

/-! # The bounded lock-free queue, as written

`ArrayLockFreeQueue` of `hpc/zmq/ArrayLockFreeQueueImp.h`, with any number of threads in `enqueue`
and `dequeue`. Every read, write and `CAS` of a shared variable and every copy of an element is one
atomic step of its thread. An index is an `unsigned long`, so that `+ 1` is taken modulo `2 ^ 64`; a
cell of `m_thequeue` that has not been written holds `none`, and to copy it is a fault.

Two lists record the history: `enqueued` has the element of every `enqueue` that won its `CAS` on
`m_writeIndex`, and `dequeued` that of every `dequeue` that won its `CAS` on `m_readIndex`.
-/

namespace KvStore.LockFree

open KvStore.Lib

variable {α : Type}

/-- Where a thread is; the local variables are those that are still needed. -/
inductive Pc (α : Type) where
  /-- Outside the queue. -/
  | out
  /-- In `enqueue`, about to read `m_writeIndex`. -/
  | readWriteIndex (data : α)
  /-- About to read `m_readIndex`, for the test whether the queue is full. -/
  | testFull (data : α) (currentWriteIndex : Nat)
  /-- About to reserve a cell, with the `CAS` on `m_writeIndex`. -/
  | reserve (data : α) (currentWriteIndex : Nat)
  /-- About to copy the element into its cell. -/
  | store (data : α) (currentWriteIndex : Nat)
  /-- In the loop of the `CAS` on `m_maximumReadIndex`. -/
  | publish (currentWriteIndex : Nat)
  /-- About to add one to `m_count`. -/
  | countUp
  /-- In `dequeue`, about to read `m_readIndex`. -/
  | readReadIndex
  /-- About to read `m_maximumReadIndex`, for the test whether the queue is empty. -/
  | testEmpty (currentReadIndex : Nat)
  /-- About to copy the element out of its cell. -/
  | load (currentReadIndex : Nat)
  /-- About to take the element, with the `CAS` on `m_readIndex`. -/
  | take (data : α) (currentReadIndex : Nat)
  /-- About to take one from `m_count`. -/
  | countDown

structure Sys (α : Type) where
  theQueue : Nat → Option α
  count : Nat
  writeIndex : Nat
  readIndex : Nat
  maximumReadIndex : Nat
  thread : Nat → Pc α
  enqueued : List α
  dequeued : List α

/-- `+ 1` on an `unsigned long` -/
def next (i : Nat) : Nat := (i + 1) % 2 ^ 64

/-- `countToIndex` -/
def countToIndex (size a : Nat) : Nat := a % size

namespace Sys

def goto (t : Nat) (pc : Pc α) (s : Sys α) : Sys α :=
  { s with thread := Function.update s.thread t pc }

end Sys

/-- The next atomic step of the thread `t`, in a queue of `size` cells. -/
def advance (size t : Nat) : Exec (Sys α) Unit := do
  let s ← get
  match s.thread t with
  | .out => throw .blocked
  | .readWriteIndex data => set (s.goto t (.testFull data s.writeIndex))
  | .testFull data w =>
      if countToIndex size (next w) = countToIndex size s.readIndex then set (s.goto t .out)
      else set (s.goto t (.reserve data w))
  | .reserve data w =>
      if s.writeIndex = w then
        set { s.goto t (.store data w) with writeIndex := next w, enqueued := s.enqueued ++ [data] }
      else set (s.goto t (.readWriteIndex data))
  | .store data w =>
      set { s.goto t (.publish w) with
        theQueue := Function.update s.theQueue (countToIndex size w) (some data) }
  | .publish w =>
      if s.maximumReadIndex
        = w then set { s.goto t .countUp with maximumReadIndex := next w } else set s
  | .countUp => set { s.goto t .out with count := next s.count }
  | .readReadIndex => set (s.goto t (.testEmpty s.readIndex))
  | .testEmpty r =>
      if countToIndex size r = countToIndex size s.maximumReadIndex then set (s.goto t .out)
      else set (s.goto t (.load r))
  | .load r =>
      match s.theQueue (countToIndex size r) with
      | none => throw .uninit
      | some data => set (s.goto t (.take data r))
  | .take data r =>
      if s.readIndex = r then
        set { s.goto t .countDown with readIndex := next r, dequeued := s.dequeued ++ [data] }
      else set (s.goto t .readReadIndex)
  | .countDown => set { s.goto t .out with count := (s.count + (2 ^ 64 - 1)) % 2 ^ 64 }

/-- A thread calls one of the functions, or goes on in it. -/
inductive Step (α : Type) where
  | enqueue (t : Nat) (data : α)
  | dequeue (t : Nat)
  | advance (t : Nat)

def Pc.isOut : Pc α → Bool
  | .out => true
  | _ => false

/-- **One step.** -/
def step (size : Nat) : Step α → Exec (Sys α) Unit
  | .enqueue t data => act (fun s => (s.thread t).isOut = true) (Sys.goto t (.readWriteIndex data))
  | .dequeue t => act (fun s => (s.thread t).isOut = true) (Sys.goto t .readReadIndex)
  | .advance t => LockFree.advance size t

/-- The constructor. -/
def start (α : Type) : Sys α := ⟨fun _ => none, 0, 0, 0, 0, fun _ => .out, [], []⟩

end KvStore.LockFree
