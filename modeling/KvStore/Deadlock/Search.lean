import KvStore.Deadlock.Model

set_option autoImplicit false

/-! # The search for cycles, as written

`check_dead_lock` of `hpc/deadlock/deadlock.c` and what it calls, over the graph and the globals
`path`, `visited`, `k` and `deadlock`. An index of a vertex that is `-1` is `none`, in `path` as in
the result of `search_vertex`. An access outside an array is a fault; `path` has one element more
than the others.

`DFS` calls itself: its first argument here bounds the depth, and a run that would go deeper is the
fault `noFuel`. The searches only read the graph, so the links of a vertex are read once. -/

namespace KvStore.Deadlock

open KvStore.Lib

/-- A call of `printf`. -/
inductive Print where
  /-- `"cycle : "` -/
  | cycle
  /-- `"%ld --> "` -/
  | link (id : Nat)
  /-- `"%ld\n"` -/
  | last (id : Nat)
  /-- `"no deadlock\n"` -/
  | noDeadlock
  deriving DecidableEq

/-- The graph and the globals of the search, with what has been printed. -/
structure Detector where
  graph : TaskGraph
  path : Nat → Option Nat
  visited : Nat → Int
  k : Int
  deadlock : Int
  printed : List Print

def Detector.setGraph (g : TaskGraph) (d : Detector) : Detector := { d with graph := g }

/-- The globals as the program starts, with a graph. -/
def Detector.zero (g : TaskGraph) : Detector := ⟨g, fun _ => some 0, fun _ => 0, 0, 0, []⟩

abbrev Dd (α : Type) := Exec Detector α

/-- A function of the graph. -/
def onGraph {α : Type} (c : Tg α) : Dd α := zoom Detector.graph Detector.setGraph c

variable (max : Nat)

/-! ## The globals -/

def getVisited (i : Nat) : Dd Int := do
  if i < max then return (← get).visited i else throw .outOfBounds

def setVisited (i : Nat) (x : Int) : Dd Unit := do
  if i < max then
    modify fun d => { d with visited := Function.update d.visited i x }
  else
    throw .outOfBounds

def getPath (i : Int) : Dd (Option Nat) := do
  if 0 ≤ i ∧ i ≤ max then return (← get).path i.toNat else throw .outOfBounds

def setPath (i : Int) (x : Option Nat) : Dd Unit := do
  if 0 ≤ i ∧ i ≤ max then
    modify fun d => { d with path := Function.update d.path i.toNat x }
  else
    throw .outOfBounds

/-- `path[k++] = idx` -/
def pushPath (idx : Nat) : Dd Unit := do
  setPath max (← get).k (some idx)
  modify fun d => { d with k := d.k + 1 }

def printf (p : Print) : Dd Unit := modify fun d => { d with printed := d.printed ++ [p] }

/-! ## The search -/

/-- `tg->list[path[i]].s.id` -/
def pathId (i : Int) : Dd Nat := do
  let idx ← getPath max i
  return (← onGraph (vertexAt max idx)).s.id

/-- `print_deadlock`; behind the loop, `i` is `k - 1`, or `0` if that is negative. -/
def printDeadlock : Dd Unit := do
  printf .cycle
  let n := ((← get).k - 1).toNat
  let _ ← forLoop (fun i => do
    printf (.link (← pathId max i))
    return (none : Option Unit)) n 0
  printf (.last (← pathId max n))

/-- `DFS`; the first argument bounds the depth. -/
def dfs : Nat → Option Nat → Dd Int
  | 0, _ => throw .noFuel
  | _ + 1, none => throw .outOfBounds
  | fuel + 1, some idx => do
      if (← getVisited max idx) = 1 then
        pushPath max idx
        printDeadlock max
        modify fun d => { d with deadlock := 1 }
        return 0
      else
        setVisited max idx 1
        pushPath max idx
        let ver ← onGraph (getVertex max idx)
        ver.next.forM fun s => do
          let _ ← dfs fuel (← onGraph (searchVertex max s))
          modify fun d => { d with k := d.k - 1 }
        return 1

/-- The body of the loop of `search_for_cycle` that clears the marks of the other vertices. -/
def clearVisited (idx i : Nat) : Dd (Option Unit) := do
  if i ≠ idx then
    setVisited max i 0
  return none

/-- The body of the loop of `search_for_cycle` that clears the path. -/
def clearPath (i : Nat) : Dd (Option Unit) := do
  setPath max i none
  return none

/-- The body of the loop of `search_for_cycle` over the links of the vertex `idx`. -/
def searchLink (fuel idx : Nat) (s : SourceType) : Dd Unit := do
  let num := (← get).graph.num
  let _ ← forLoop (clearVisited max idx) num 0
  let _ ← forLoop (clearPath max) max 1
  modify fun d => { d with k := 1 }
  let _ ← dfs max fuel (← onGraph (searchVertex max s))

def searchForCycle (fuel idx : Nat) : Dd Unit := do
  setVisited max idx 1
  modify fun d => { d with k := 0 }
  pushPath max idx
  let ver ← onGraph (getVertex max idx)
  ver.next.forM (searchLink max fuel idx)

/-- The body of the loop of `check_dead_lock`. -/
def checkVertex (fuel i : Nat) : Dd (Option Unit) := do
  if (← get).deadlock = 1 then
    return some ()
  else
    searchForCycle max fuel i
    return none

def checkDeadLock (fuel : Nat) : Dd Unit := do
  modify fun d => { d with deadlock := 0 }
  let num := (← get).graph.num
  let _ ← forLoop (checkVertex max fuel) num 0
  if (← get).deadlock = 0 then
    printf .noDeadlock

/-! ## Building the graph -/

/-- A call that changes the graph. -/
inductive GraphCall where
  | addVertex (type : SourceType)
  | addEdge (src dst : SourceType)
  | removeEdge (src dst : SourceType)

def graphCall : GraphCall → Tg Unit
  | .addVertex type => Deadlock.addVertex max type
  | .addEdge src dst => Deadlock.addEdge max src dst
  | .removeEdge src dst => Deadlock.removeEdge max src dst

end KvStore.Deadlock
