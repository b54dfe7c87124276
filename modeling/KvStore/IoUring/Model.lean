import KvStore.Lib.Interleaving

set_option autoImplicit false

/-! # The echo server on io_uring, as written

`IoUringNetwork::run` of `network/io_uring_network.cpp` with the kernel it talks to. The server
submits operations, and handles one completion in each iteration of its loop. All its `recv` and
`send` operations work on one `buffer`: a `recv` writes it when the kernel completes it, and a
`send` reads it when the kernel completes it. The kernel completes the operations in any order.

The bytes that a `recv` wrote go along with its completion, and with the `send` that this completion
triggers (`Received`); the server does not look at them. `transmitted` is what the completed sends
put on their connections. -/

namespace KvStore.IoUring

open KvStore.Lib

/-- `BUFFER_LENGTH` -/
def bufferLength : Nat := 1024

/-- `enum { EVENT_ACCEPT, EVENT_READ, EVENT_WRITE }` -/
inductive Event where
  | accept
  | read
  | write
  deriving DecidableEq

/-- `struct conn_info`, the user data of an operation and of its completion. -/
structure ConnInfo where
  fd : Int
  event : Event

/-- What a `recv` has brought, and on which connection. -/
structure Received where
  fd : Int
  bytes : List UInt8
  deriving DecidableEq

/-- An operation that the kernel has not completed yet. -/
inductive Op where
  | accept (fd : Int)
  | recv (fd : Int) (len : Nat)
  | send (fd : Int) (len : Nat) (trigger : Received)

/-- `struct io_uring_cqe` -/
structure Cqe where
  info : ConnInfo
  res : Int
  received : Received

/-- A completed `send`: its connection, the bytes it transmitted, and the `recv` that triggered
it. -/
structure Sent where
  fd : Int
  bytes : List UInt8
  trigger : Received
  deriving DecidableEq

structure Sys where
  buffer : List UInt8
  inFlight : List Op
  completions : List Cqe
  transmitted : List Sent

namespace Sys

def submit (op : Op) (s : Sys) : Sys := { s with inFlight := s.inFlight ++ [op] }

/-- `set_event_accept`, `set_event_recv` and `set_event_send`; `sqe` says whether `io_uring_get_sqe`
has an entry. -/
def setEvent (sqe : Bool) (op : Op) (s : Sys) : Sys := if sqe then s.submit op else s

end Sys

/-! ## The server -/

/-- The body of the loop for the completion `cqe`; `first` and `second` say whether there is an
entry for the operations it submits. -/
def handle (listenFd : Int) (first second : Bool) (cqe : Cqe) (s : Sys) : Sys :=
  match cqe.info.event with
  | .accept =>
      if 0 ≤ cqe.res then
        (s.setEvent first (.accept listenFd)).setEvent second (.recv cqe.res bufferLength)
      else s
  | .read =>
      -- the connection is closed at the end of its data or after an error
      if cqe.res ≤ 0 then s
      else s.setEvent first (.send cqe.info.fd cqe.res.toNat cqe.received)
  | .write => s.setEvent first (.recv cqe.info.fd bufferLength)

/-- One iteration: `io_uring_wait_cqe`, the body, and `io_uring_cqe_seen`. -/
def iterate (listenFd : Int) (first second : Bool) (s : Sys) : Sys :=
  match s.completions with
  | [] => s
  | cqe :: rest => { handle listenFd first second cqe s with completions := rest }

/-! ## The kernel -/

/-- What the kernel makes of an operation. -/
inductive Outcome where
  /-- A new connection, or an error. -/
  | accepted (connfd : Int)
  /-- The bytes that have come in. -/
  | arrived (data : List UInt8)
  /-- The connection is at its end, or has failed. -/
  | ended (res : Int)
  /-- The bytes are on the connection. -/
  | sent

/-- The outcomes that an operation can have. -/
def Op.Allows : Op → Outcome → Prop
  | .accept _, .accepted _ => True
  | .recv _ len, .arrived data => data ≠ [] ∧ data.length ≤ len
  | .recv _ _, .ended res => res ≤ 0
  | .send _ _ _, .sent => True
  | _, _ => False

instance (op : Op) (out : Outcome) : Decidable (op.Allows out) :=
  match op, out with
  | .accept _, .accepted _ => inferInstanceAs (Decidable True)
  | .recv _ len, .arrived data => inferInstanceAs (Decidable (data ≠ [] ∧ data.length ≤ len))
  | .recv _ _, .ended res => inferInstanceAs (Decidable (res ≤ 0))
  | .send _ _ _, .sent => inferInstanceAs (Decidable True)
  | .accept _, .arrived _ => inferInstanceAs (Decidable False)
  | .accept _, .ended _ => inferInstanceAs (Decidable False)
  | .accept _, .sent => inferInstanceAs (Decidable False)
  | .recv _ _, .accepted _ => inferInstanceAs (Decidable False)
  | .recv _ _, .sent => inferInstanceAs (Decidable False)
  | .send _ _ _, .accepted _ => inferInstanceAs (Decidable False)
  | .send _ _ _, .arrived _ => inferInstanceAs (Decidable False)
  | .send _ _ _, .ended _ => inferInstanceAs (Decidable False)

/-- The bytes from the start of the buffer on are overwritten. -/
def fill (buffer data : List UInt8) : List UInt8 := data ++ buffer.drop data.length

/-- The kernel completes the operation `op`, which is in flight no more. -/
def finish (op : Op) (out : Outcome) (s : Sys) : Sys :=
  match op, out with
  | .accept fd, .accepted connfd =>
      { s with completions := s.completions ++ [⟨⟨fd, .accept⟩, connfd, ⟨fd, []⟩⟩] }
  | .recv fd _, .arrived data =>
      { s with
        buffer := fill s.buffer data
        completions := s.completions ++ [⟨⟨fd, .read⟩, data.length, ⟨fd, data⟩⟩] }
  | .recv fd _, .ended res =>
      { s with completions := s.completions ++ [⟨⟨fd, .read⟩, res, ⟨fd, []⟩⟩] }
  | .send fd len trigger, .sent =>
      { s with
        transmitted := s.transmitted ++ [⟨fd, s.buffer.take len, trigger⟩]
        completions := s.completions ++ [⟨⟨fd, .write⟩, len, ⟨fd, []⟩⟩] }
  | _, _ => s

/-- The operation at `k` is taken out of those in flight. -/
def complete (k : Nat) (out : Outcome) (s : Sys) : Sys :=
  match s.inFlight[k]? with
  | none => s
  | some op => finish op out { s with inFlight := s.inFlight.eraseIdx k }

/-! ## Runs -/

/-- A step of the server or of the kernel. -/
inductive Step where
  | iterate (first second : Bool)
  | complete (k : Nat) (out : Outcome)

/-- The operation at `k` is in flight, and can have this outcome. -/
def Completes (k : Nat) (out : Outcome) (s : Sys) : Prop := ∃ op ∈ s.inFlight[k]?, op.Allows out

instance (k : Nat) (out : Outcome) : DecidablePred (Completes k out) := fun s =>
  inferInstanceAs (Decidable (∃ op ∈ s.inFlight[k]?, op.Allows out))

/-- **One step.** -/
def step (listenFd : Int) : Step → Exec Sys Unit
  | .iterate first second =>
      act (fun s => s.completions ≠ []) (IoUring.iterate listenFd first second)
  | .complete k out => act (Completes k out) (IoUring.complete k out)

/-- The server in front of its loop: the buffer is zero, and the first `accept` is submitted. -/
def start (listenFd : Int) : Sys := ⟨List.replicate bufferLength 0, [.accept listenFd], [], []⟩

end KvStore.IoUring
