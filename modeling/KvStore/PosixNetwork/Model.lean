import KvStore.Lib.Exec

set_option autoImplicit false

/-! # The poll loop of the network, as written

`runPoll` of `network/posix_network.cpp`, with the two handlers it calls. `poll_fds` is a
`std::vector`: its elements, its capacity, and the number of times it has got new storage.
`push_back` gets new storage when the capacity is used up; `erase` moves the later elements down and
keeps the storage. The range-`for` fixes its first and its last element at the start: an iteration
that reads an element of storage that has been given back is the fault `dangling`, and one that
reads behind the last element is the fault `outOfBounds`.

What the environment decides is an argument: what `accept`, `setNonBlocking` and `read` do, and how
much storage the vector gets. An exception ends the round. -/

namespace KvStore.PosixNetwork

open KvStore.Lib

/-- `struct pollfd` -/
structure PollFd where
  fd : Int
  events : Nat
  revents : Nat
  deriving DecidableEq

/-- `POLLIN` -/
def pollin : Nat := 1

/-- `revents & POLLIN` -/
def PollFd.ready (p : PollFd) : Bool := p.revents &&& pollin ≠ 0

/-- What the functions use of a `PosixNetwork` that polls. -/
structure Network where
  listenFd : Int
  pollFds : List PollFd
  capacity : Nat
  /-- How often `poll_fds` has got new storage. -/
  storage : Nat
  /-- The number of calls of `accept`. -/
  accepts : Nat
  /-- The arguments of the calls of `handleClientData`. -/
  handled : List Int
  deriving DecidableEq

/-- What comes of a call of `accept`. -/
inductive Accepted where
  /-- It fails. -/
  | failed
  /-- There is a connection; `setNonBlocking` may fail. If `poll_fds` has to get new storage, there
  is space for `spare` elements more than needed. -/
  | connected (fd : Int) (nonBlocking : Bool) (spare : Nat)

/-- What the calls of `accept` return, and those of `read`, which depends on the descriptor. -/
structure Env where
  accept : Nat → Accepted
  read : Nat → Int → Int

abbrev Net (α : Type) := Exec Network α

/-- `poll_fds.push_back(p)` -/
def Network.pushBack (p : PollFd) (spare : Nat) (s : Network) : Network :=
  if s.pollFds.length = s.capacity then
    { s with
      pollFds := s.pollFds ++ [p]
      capacity := s.capacity + 1 + spare
      storage := s.storage + 1 }
  else
    { s with pollFds := s.pollFds ++ [p] }

variable (env : Env)

/-- `handleNewConnection`; `false` when it throws. -/
def handleNewConnection : Net Bool := do
  let s ← get
  modify fun s => { s with accepts := s.accepts + 1 }
  match env.accept s.accepts with
  | .failed => return false
  | .connected clientFd nonBlocking spare =>
      if nonBlocking then
        modify (Network.pushBack ⟨clientFd, pollin, 0⟩ spare)
        return true
      else
        return false

/-- `handleClientData` -/
def handleClientData (clientFd : Int) : Net Unit := do
  let s ← get
  modify fun s => { s with handled := s.handled ++ [clientFd] }
  if env.read s.handled.length clientFd ≤ 0 then
    modify fun s => { s with pollFds := s.pollFds.filter fun pfd => pfd.fd ≠ clientFd }

/-- The iteration for the element `i` of the storage `storage`; `some ()` when an exception leaves
the loop. -/
def pollBody (storage i : Nat) : Net (Option Unit) := do
  let s ← get
  if s.storage = storage then
    match s.pollFds[i]? with
    | none => throw .outOfBounds
    | some pfd =>
        if pfd.ready then
          if pfd.fd = s.listenFd then
            return if ← handleNewConnection env then none else some ()
          else
            handleClientData env pfd.fd
            return none
        else
          return none
  else
    throw .dangling

/-- One round of `runPoll`, behind the call of `poll`. -/
def runPoll : Net (Option Unit) := do
  let s ← get
  forLoop (pollBody env s.storage) s.pollFds.length 0

end KvStore.PosixNetwork
