import KvStore.Lib.Interleaving

set_option autoImplicit false

/-! # The deadlock detector, as written

The graph, the lock table and the hooks of `hpc/deadlock/deadlock.c`, with the threads that call the
hooks. `MAX` is the argument `max` of the functions; an access to `list` or `locklist` at an index
that is not below it, or at `-1`, is a fault. The list of edges of a vertex belongs to that vertex
alone, so a vertex holds the list itself. `malloc` succeeds.

The hooks, the real lock and the real unlock are atomic steps (`step`). A thread is known by its
`pthread_self()`, and a mutex by its address.
-/

namespace KvStore.Deadlock

open Function KvStore.Lib

/-- `enum Type` -/
inductive VertexType where
  | process
  | resource
  deriving DecidableEq

/-- `struct source_type`, as vertices use it. -/
structure SourceType where
  id : Nat
  type : VertexType
  deriving DecidableEq

/-- `struct vertex`; `next` holds the vertices that are linked from it. -/
structure Vertex where
  s : SourceType
  next : List SourceType
  deriving DecidableEq

/-- `struct source_type`, as the lock table uses it. -/
structure LockEntry where
  id : Nat
  lockId : Nat
  degress : Int
  deriving DecidableEq

/-- `struct task_graph` -/
structure TaskGraph where
  list : Nat → Vertex
  num : Nat
  locklist : Nat → LockEntry
  lockidx : Nat

/-- `MAX` -/
def maxSize : Nat := 100

/-- A zero-initialised graph. -/
def TaskGraph.zero : TaskGraph := ⟨fun _ => ⟨⟨0, .process⟩, []⟩, 0, fun _ => ⟨0, 0, 0⟩, 0⟩

abbrev Tg (α : Type) := Exec TaskGraph α

/-! ## The two arrays -/

variable (max : Nat)

def getVertex (i : Nat) : Tg Vertex := do
  if i < max then return (← get).list i else throw .outOfBounds

def setVertex (i : Nat) (v : Vertex) : Tg Unit := do
  if i < max then modify fun g => { g with list := update g.list i v } else throw .outOfBounds

def getLock (i : Nat) : Tg LockEntry := do
  if i < max then return (← get).locklist i else throw .outOfBounds

def setLock (i : Nat) (e : LockEntry) : Tg Unit := do
  if i < max then
    modify fun g => { g with locklist := update g.locklist i e }
  else
    throw .outOfBounds

/-! ## The graph -/

/-- `search_vertex`; `none` is `-1`. -/
def searchVertex (type : SourceType) : Tg (Option Nat) := do
  let num := (← get).num
  forLoop (fun i => do return if (← getVertex max i).s = type then some i else none) num 0

def addVertex (type : SourceType) : Tg Unit := do
  if (← searchVertex max type) = none then
    let num := (← get).num
    setVertex max num ⟨type, []⟩
    modify fun g => { g with num := num + 1 }

/-- The vertex at the index that `search_vertex` has returned. -/
def vertexAt : Option Nat → Tg Vertex
  | some i => getVertex max i
  | none => throw .outOfBounds

/-- The links of that vertex are changed. -/
def setNextAt (next : List SourceType) : Option Nat → Tg Unit
  | some i => do setVertex max i ⟨(← getVertex max i).s, next⟩
  | none => throw .outOfBounds

def addEdge (src dst : SourceType) : Tg Unit := do
  addVertex max src
  addVertex max dst
  let idx ← searchVertex max src
  let v ← vertexAt max idx
  setNextAt max (v.next ++ [dst]) idx

/-- `verify_edge`; the walk begins at the vertex itself, and looks at the `id` only. -/
def verifyEdge (i j : SourceType) : Tg Bool := do
  if (← get).num = 0 then
    return false
  else
    match ← searchVertex max i with
    | none => return false
    | some idx =>
        let v ← getVertex max idx
        return (v.s :: v.next).any fun w => w.id = j.id

/-- `remove_edge`: the first link to the `id` is taken out. -/
def removeEdge (src dst : SourceType) : Tg Unit := do
  let idxi ← searchVertex max src
  let idxj ← searchVertex max dst
  if idxi ≠ none ∧ idxj ≠ none then
    let v ← vertexAt max idxi
    setNextAt max (v.next.eraseP fun w => w.id = dst.id) idxi

/-! ## The lock table -/

/-- `search_lock`; `none` is `-1`. -/
def searchLock (lock : Nat) : Tg (Option Nat) := do
  let lockidx := (← get).lockidx
  forLoop (fun i => do return if (← getLock max i).lockId = lock then some i else none) lockidx 0

def searchEmptyLock : Tg Nat := do
  let lockidx := (← get).lockidx
  let found ← forLoop
    (fun i => do return if (← getLock max i).lockId = 0 then some i else none) lockidx 0
  return found.getD lockidx

/-! ## The hooks -/

/-- The body of the loop of `lock_before`; there is no `break`. -/
def lockBeforeBody (tid lockaddr : Nat) (idx : Nat) : Tg (Option Unit) := do
  if (← getLock max idx).lockId = lockaddr then
    let src : SourceType := ⟨tid, .process⟩
    addVertex max src
    let e ← getLock max idx
    let dst : SourceType := ⟨e.id, .process⟩
    addVertex max dst
    setLock max idx { e with degress := e.degress + 1 }
    if (← verifyEdge max src dst) = false then
      addEdge max src dst
  return none

def lockBefore (tid lockaddr : Nat) : Tg Unit := do
  let lockidx := (← get).lockidx
  let _ ← forLoop (lockBeforeBody max tid lockaddr) lockidx 0

def lockAfter (tid lockaddr : Nat) : Tg Unit := do
  match ← searchLock max lockaddr with
  | none =>
      let eidx ← searchEmptyLock max
      let e ← getLock max eidx
      setLock max eidx { e with id := tid, lockId := lockaddr }
      modify fun g => { g with lockidx := g.lockidx + 1 }
  | some idx =>
      let src : SourceType := ⟨tid, .process⟩
      addVertex max src
      let e ← getLock max idx
      let dst : SourceType := ⟨e.id, .process⟩
      addVertex max dst
      setLock max idx { e with degress := e.degress - 1 }
      if (← verifyEdge max src dst) = true then
        removeEdge max src dst
      let e ← getLock max idx
      setLock max idx { e with id := tid }

/-- `unlock_after`; the result of `search_lock` is not tested. -/
def unlockAfter (lockaddr : Nat) : Tg Unit := do
  match ← searchLock max lockaddr with
  | none => throw .outOfBounds
  | some idx =>
      let e ← getLock max idx
      if e.degress = 0 then
        setLock max idx { e with id := 0, lockId := 0 }

/-! ## The threads -/

/-- Where a thread is. -/
inductive Phase where
  /-- Outside the hooked functions. -/
  | run
  /-- Behind `lock_before`, and waiting for the mutex. -/
  | before (lock : Nat)
  /-- It has got the mutex, and `lock_after` is next. -/
  | locked (lock : Nat)
  /-- It has given the mutex back, and `unlock_after` is next. -/
  | unlocked (lock : Nat)
  deriving DecidableEq

/-- The detector, who holds which mutex, and the threads. -/
structure Sys where
  graph : TaskGraph
  owner : Nat → Option Nat
  phase : Nat → Phase

namespace Sys

def setGraph (g : TaskGraph) (s : Sys) : Sys := { s with graph := g }
def setOwner (lock : Nat) (o : Option Nat) (s : Sys) : Sys :=
  { s with owner := update s.owner lock o }
def setPhase (t : Nat) (ph : Phase) (s : Sys) : Sys :=
  { s with phase := update s.phase t ph }

/-- The detector has nothing registered, and nobody holds a mutex. -/
def zero : Sys := ⟨TaskGraph.zero, fun _ => none, fun _ => .run⟩

end Sys

/-- The atomic steps of the thread `t` with a mutex. -/
inductive Step where
  | lockBefore (t lock : Nat)
  | lock (t lock : Nat)
  | lockAfter (t lock : Nat)
  | unlock (t lock : Nat)
  | unlockAfter (t lock : Nat)

/-- A hook, after which the thread is in the phase `ph`. -/
def hook (t : Nat) (ph : Phase) (c : Tg Unit) : Exec Sys Unit := do
  zoom Sys.graph Sys.setGraph c
  modify (Sys.setPhase t ph)

/-- **One step.** The address of a mutex is not `NULL`; only the thread that holds a mutex unlocks
it. -/
def step : Step → Exec Sys Unit
  | .lockBefore t lock => await (fun s => s.phase t = .run ∧ lock ≠ 0) do
      hook t (.before lock) (Deadlock.lockBefore max t lock)
  | .lock t lock => act (fun s => s.phase t = .before lock ∧ s.owner lock = none) fun s =>
      (s.setOwner lock (some t)).setPhase t (.locked lock)
  | .lockAfter t lock => await (fun s => s.phase t = .locked lock) do
      hook t .run (Deadlock.lockAfter max t lock)
  | .unlock t lock => act (fun s => s.phase t = .run ∧ s.owner lock = some t) fun s =>
      (s.setOwner lock none).setPhase t (.unlocked lock)
  | .unlockAfter t lock => await (fun s => s.phase t = .unlocked lock) do
      hook t .run (Deadlock.unlockAfter max lock)

/-! ## Whole calls -/

/-- The hooked `pthread_mutex_lock`, run without an interruption. -/
def pthreadMutexLock (t lock : Nat) : Exec Sys Unit := do
  step max (.lockBefore t lock)
  step max (.lock t lock)
  step max (.lockAfter t lock)

/-- The hooked `pthread_mutex_unlock`, run without an interruption. -/
def pthreadMutexUnlock (t lock : Nat) : Exec Sys Unit := do
  step max (.unlock t lock)
  step max (.unlockAfter t lock)

/-- A call of the thread `t`. -/
inductive Call where
  | lock (t lock : Nat)
  | unlock (t lock : Nat)

def runCall : Call → Exec Sys Unit
  | .lock t lock => pthreadMutexLock max t lock
  | .unlock t lock => pthreadMutexUnlock max t lock

end KvStore.Deadlock
