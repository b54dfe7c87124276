import KvStore.Lib.Interleaving

set_option autoImplicit false

/-! # The connection pool, as written

The pool of `pool/mysql_pool/connection_pool.cpp`: the constructor, the producer
(`produceConnectionTask`), the scanner (`scannerConnectionTask`), the clients (`getConnection`) and
the deleter that gives a borrowed connection back. A connection is named by its address.

All of them work under `_queueMutex`. A critical section is one atomic step; a call of `notify_all`
at its end is a step of its own, made while the mutex is still held. What the environment decides
stands in the steps: the address `new` returns, whether `connect` succeeds, and what `clock`
returns. A pool without a configuration file has the sizes zero and starts no threads: its runs are
among those of the model. -/

namespace KvStore.ConnectionPool

open Function KvStore.Lib

/-! ## The pool -/

/-- What the pool reads from `mysql.ini`. -/
structure Config where
  initSize : Int
  maxSize : Int
  maxIdleTime : Int

/-- The connections of the pool. -/
structure Pool where
  connectionQue : List Nat
  connectionCnt : Int
  /-- The connections that exist, with their `_alivetime`. -/
  alivetime : Nat → Option Int
  /-- The connections in the hands of clients, each with the client that got it. -/
  lent : List (Nat × Nat)

/-- `new Connection()` and `connect`: the address, whether `connect` succeeds, and the time. -/
structure Attempt where
  address : Nat
  connects : Bool
  now : Int

/-- `_alivetime` of a connection is set, by `refreshAliveTime`. -/
def Pool.refresh (p : Pool) (conn : Nat) (now : Int) : Pool :=
  { p with alivetime := update p.alivetime conn (some now) }

/-- `_connectionQue.push(conn)` -/
def Pool.push (p : Pool) (conn : Nat) : Pool :=
  { p with connectionQue := p.connectionQue ++ [conn] }

/-- `++_connectionCnt` -/
def Pool.count (p : Pool) (d : Int) : Pool := { p with connectionCnt := p.connectionCnt + d }

/-- `delete conn` -/
def deleteConnection (conn : Nat) : Exec Pool Unit := do
  if (← get).alivetime conn = none then throw .badFree
  modify fun p => { p with alivetime := update p.alivetime conn none }

/-- A new connection: it goes to the queue when `connect` succeeds, else it is deleted. -/
def createConnection (o : Attempt) : Exec Pool Unit :=
  await (fun p => o.address ≠ 0 ∧ p.alivetime o.address = none) do
    modify fun p => p.refresh o.address o.now
    -- a connection that is deleted here is one whose time nobody has read
    if o.connects then
      modify fun p => (p.push o.address).count 1
    else
      deleteConnection o.address

/-- `_maxIdleTime * 1000`, an `int`. -/
def Config.idleLimit (cfg : Config) : Int := (cfg.maxIdleTime * 1000).bmod (2 ^ 32)

/-- An iteration of the scanner; `now i` is the time of the iteration `i`. -/
def scanBody (cfg : Config) (now : Nat → Int) (i : Nat) : Exec Pool (Nat ⊕ Unit) := do
  let p ← get
  if cfg.initSize < p.connectionCnt then
    match p.connectionQue with
    | [] => throw .outOfBounds
    | conn :: rest =>
        match p.alivetime conn with
        | none => throw .dangling
        | some t =>
            if cfg.idleLimit ≤ now i - t then do
              modify fun p => { p.count (-1) with connectionQue := rest }
              deleteConnection conn
              pure (.inl (i + 1))
            else
              pure (.inr ())
  else
    pure (.inr ())

/-- The critical section of `scannerConnectionTask`. -/
def scan (cfg : Config) (now : Nat → Int) : Exec Pool Unit := do
  let p ← get
  loop (scanBody cfg now) (p.connectionQue.length + 1) 0

/-- The deleter: the client `i` gives `conn` back. -/
def giveBack (i conn : Nat) (now : Int) : Exec Pool Unit := do
  if (← get).alivetime conn = none then throw .dangling
  modify fun p => ({ p.refresh conn now with lent := p.lent.erase (i, conn) }).push conn

/-- `front` and `pop` in `getConnection`, for the client `i`. -/
def Pool.borrow (i : Nat) (p : Pool) : Pool :=
  { p with
    connectionQue := p.connectionQue.tail
    lent := (i, p.connectionQue.headD 0) :: p.lent }

/-- The loop of the constructor. -/
def construct (cfg : Config) (attempts : Nat → Attempt) : Exec Pool Unit := do
  let _ ← forLoop (fun i => do
    createConnection (attempts i)
    pure (none : Option Unit)) cfg.initSize.toNat 0

/-- The pool before its constructor runs: static storage is zero. -/
def Pool.empty : Pool := ⟨[], 0, fun _ => none, []⟩

/-! ## The threads -/

/-- Where the producer is. -/
inductive ProducerPc where
  /-- At the test of its inner loop: at the start of an iteration, or behind a `wait`. -/
  | testing
  /-- Asleep in `cv.wait`. -/
  | waiting
  /-- It holds the mutex and is about to call `notify_all`. -/
  | notifying
  deriving DecidableEq

/-- Where a client is. -/
inductive ClientPc where
  /-- Outside `getConnection`. -/
  | out
  /-- Asleep in `cv.wait_for`. -/
  | waiting
  /-- Notified, or woken up without a notification. -/
  | woken
  /-- `cv.wait_for` ran out of time. -/
  | timedOut
  /-- It has taken a connection, holds the mutex and is about to call `notify_all`. -/
  | notifying
  deriving DecidableEq

/-- The pool and its threads; `locked` says whether `_queueMutex` is held between two steps. -/
structure Sys where
  pool : Pool
  locked : Bool
  producer : ProducerPc
  client : Nat → ClientPc

namespace Sys

def setClient (i : Nat) (pc : ClientPc) (s : Sys) : Sys :=
  { s with client := update s.client i pc }

/-- `cv.notify_all()` -/
def notifyAll (s : Sys) : Sys :=
  { s with
    producer := if s.producer = .waiting then .testing else s.producer
    client := fun i => if s.client i = .waiting then .woken else s.client i }

end Sys

/-- A critical section works on the pool. -/
def onPool (c : Exec Pool Unit) : Exec Sys Unit := zoom Sys.pool (fun p s => { s with pool := p }) c

/-- The critical section of the producer. -/
def produceConnectionTask (cfg : Config) (o : Attempt) : Exec Sys Unit := do
  let s ← get
  if s.pool.connectionQue ≠ [] then
    modify fun s => { s with producer := .waiting }
  else do
    if s.pool.connectionCnt < cfg.maxSize then
      onPool (createConnection o)
    modify fun s => { s with producer := .notifying, locked := true }

/-- The critical section of the client `i`. With an empty queue it waits, or returns `nullptr` when
it has waited in vain. -/
def getConnection (i : Nat) : Exec Sys Unit := do
  let s ← get
  if s.pool.connectionQue = [] then
    if s.client i = .timedOut then
      modify (Sys.setClient i .out)
    else
      modify (Sys.setClient i .waiting)
  else
    modify fun s => { s.setClient i .notifying with pool := s.pool.borrow i, locked := true }

/-- The atomic steps; `i` is a client. -/
inductive Step where
  | produce (o : Attempt)
  | produceNotify
  /-- `cv.wait` returns without a notification. -/
  | produceSpurious
  | get (i : Nat)
  | getNotify (i : Nat)
  | spurious (i : Nat)
  | timeout (i : Nat)
  /-- The last `shared_ptr` to `conn` is gone. -/
  | giveBack (i conn : Nat) (now : Int)
  | scan (now : Nat → Int)

/-- **One step.** -/
def step (cfg : Config) : Step → Exec Sys Unit
  | .produce o =>
      await (fun s => s.locked = false ∧ s.producer = .testing) (produceConnectionTask cfg o)
  | .produceNotify => act (fun s => s.producer = .notifying) fun s =>
      { s.notifyAll with producer := .testing, locked := false }
  | .produceSpurious =>
      act (fun s => s.producer = .waiting) fun s => { s with producer := .testing }
  | .get i => await (fun s => s.locked = false ∧ s.client i ≠ .waiting ∧ s.client i ≠ .notifying)
      (getConnection i)
  | .getNotify i => act (fun s => s.client i = .notifying) fun s =>
      { s.notifyAll.setClient i .out with locked := false }
  | .spurious i => act (fun s => s.client i = .waiting) (Sys.setClient i .woken)
  | .timeout i => act (fun s => s.client i = .waiting) (Sys.setClient i .timedOut)
  | .giveBack i conn now => await (fun s => s.locked = false ∧ (i, conn) ∈ s.pool.lent)
      (onPool (ConnectionPool.giveBack i conn now))
  | .scan now => await (fun s => s.locked = false) (onPool (ConnectionPool.scan cfg now))

/-- The pool before its constructor runs, with the threads where they start. -/
def start : Sys := ⟨Pool.empty, false, .testing, fun _ => .out⟩

/-- The constructor, and then the steps `ops` of the threads. -/
def session (cfg : Config) (attempts : Nat → Attempt) (ops : List Step) : Exec Sys (List Unit) := do
  onPool (construct cfg attempts)
  runAll (step cfg) ops

end KvStore.ConnectionPool
