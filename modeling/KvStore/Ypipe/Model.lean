import KvStore.Lib.Interleaving

set_option autoImplicit false

/-! # The pipe between two threads, as written

`ypipe_t` of `hpc/zmq/ypipe.hpp` over `yqueue_t` of `hpc/zmq/yqueue.hpp`, with one thread that
writes and one that reads. A chunk is named by its address, and `0` is `NULL`; a field of a chunk
that has not been written is `none`. The address of an element is its chunk with its index.

The variables of the two classes are those of the writer (`Writer`), those of the reader (`Reader`),
and those that both use: the chunks, `spare_chunk` and `c`. Every access to a chunk, every call of
`malloc` and `free` and every operation on the two atomic pointers is a step of its own; the
variables of one thread change along with its steps. `malloc` returns any address that is not in
use, also one that has been freed, or `NULL`.

A step that makes a call take effect shows the call with its result.
-/

namespace KvStore.Ypipe

open Function KvStore.Lib

variable {α : Type}

/-! ## The state -/

/-- `chunk_t` -/
structure Chunk (α : Type) where
  values : Nat → Option α
  prev : Option Nat
  next : Option Nat

/-- The address of an element: that of its chunk, and its index there. -/
abbrev Slot := Nat × Nat

/-- Where the writer is. -/
inductive WriterPc (α : Type) where
  /-- Outside. -/
  | out
  /-- In `write`, about to store the value. -/
  | store (value : α) (incomplete : Bool)
  /-- In `push`, about to take the spare chunk. -/
  | takeSpare (value : α) (incomplete : Bool)
  /-- There is none: about to call `malloc`. -/
  | malloc (value : α) (incomplete : Bool)
  /-- About to set `end_chunk->next`; `spare` tells the two branches apart. -/
  | linkNext (value : α) (incomplete : Bool) (chunk : Nat) (spare : Bool)
  /-- About to set the `prev` of the new chunk. -/
  | linkPrev (value : α) (incomplete : Bool) (chunk : Nat) (spare : Bool)
  /-- About to move `end_chunk` on to the new chunk. -/
  | moveEnd (value : α) (incomplete : Bool) (chunk : Nat)
  /-- In `unpush`, about to move `back`. -/
  | moveBack
  /-- About to move `end`. -/
  | unmoveEnd
  /-- About to free the chunk behind `end_chunk`. -/
  | freeNext
  /-- About to set `end_chunk->next` to `NULL`. -/
  | clearNext
  /-- In `unwrite`, about to copy the value. -/
  | load
  /-- In `flush`, about to compare and swap `c`. -/
  | cas
  /-- The reader is asleep: about to set `c`. -/
  | set

/-- A call of the reader that begins with `check_read`. -/
inductive Purpose where
  | check
  | read

/-- Where the reader is. -/
inductive ReaderPc where
  /-- Outside. -/
  | out
  /-- In `check_read`, about to compare and swap `c`. -/
  | prefetch (purpose : Purpose)
  /-- In `read`, about to copy the value. -/
  | load
  /-- In `pop`, about to move `begin_chunk`. -/
  | moveBegin
  /-- About to set `begin_chunk->prev` to `NULL`; `chunk` is the old `begin_chunk`. -/
  | clearPrev (chunk : Nat)
  /-- About to make the old chunk the spare one. -/
  | putSpare (chunk : Nat)
  /-- About to free what was the spare chunk. -/
  | free (chunk : Nat)

/-- The variables of the writer. -/
structure Writer (α : Type) where
  backChunk : Nat
  backPos : Nat
  endChunk : Nat
  endPos : Nat
  w : Slot
  f : Slot
  pc : WriterPc α

/-- The variables of the reader. -/
structure Reader where
  beginChunk : Nat
  beginPos : Nat
  r : Option Slot
  pc : ReaderPc

/-- The pipe and its two threads. -/
structure Sys (α : Type) where
  heap : Nat → Option (Chunk α)
  spareChunk : Nat
  c : Option Slot
  writer : Writer α
  reader : Reader

/-- `&queue.back()` -/
def Writer.back (wr : Writer α) : Slot := (wr.backChunk, wr.backPos)

/-- `&queue.front()` -/
def Reader.front (rd : Reader) : Slot := (rd.beginChunk, rd.beginPos)

/-- The calls of the pipe. -/
inductive Call (α : Type) where
  | write (value : α) (incomplete : Bool)
  | unwrite
  | flush
  | checkRead
  | read

/-- What they return; `unwrite` and `read` return their value along with `true`. -/
inductive Result (α : Type) where
  | unit
  | bool (b : Bool)
  | value (v : Option α)

/-- What a step shows. -/
abbrev Shown (α : Type) := Option (Call α × Result α)

/-! ## Access to the chunks -/

def readChunk (a : Nat) : Exec (Sys α) (Chunk α) := do
  if a = 0 then
    throw .nullDeref
  else
    match (← get).heap a with
    | none => throw .dangling
    | some chunk => return chunk

def writeChunk (a : Nat) (chunk : Chunk α) : Exec (Sys α) Unit :=
  modify fun s => { s with heap := update s.heap a (some chunk) }

def readField (a : Nat) (field : Chunk α → Option Nat) : Exec (Sys α) Nat := do
  match field (← readChunk a) with
  | none => throw .uninit
  | some b => return b

def writeNext (a b : Nat) : Exec (Sys α) Unit := do
  let chunk ← readChunk a
  writeChunk a { chunk with next := some b }

def writePrev (a b : Nat) : Exec (Sys α) Unit := do
  let chunk ← readChunk a
  writeChunk a { chunk with prev := some b }

def readValue (N : Nat) (slot : Slot) : Exec (Sys α) α := do
  let chunk ← readChunk slot.1
  if slot.2 < N then
    match chunk.values slot.2 with
    | none => throw .uninit
    | some value => return value
  else
    throw .outOfBounds

def writeValue (N : Nat) (slot : Slot) (value : α) : Exec (Sys α) Unit := do
  let chunk ← readChunk slot.1
  if slot.2 < N then
    writeChunk slot.1 { chunk with values := update chunk.values slot.2 (some value) }
  else
    throw .outOfBounds

/-- `free` -/
def freeChunk (a : Nat) : Exec (Sys α) Unit := do
  if a = 0 then
    return ()
  else
    match (← get).heap a with
    | none => throw .badFree
    | some _ => modify fun s => { s with heap := update s.heap a none }

/-! ## The writer -/

def setWriter (g : Writer α → Writer α) : Exec (Sys α) Unit :=
  modify fun s => { s with writer := g s.writer }

/-- The writer goes on at `pc`. -/
def writerGoto (pc : WriterPc α) : Exec (Sys α) (Shown α) := do
  setWriter fun wr => { wr with pc := pc }
  return none

/-- The call of the writer returns. -/
def writerReturn (call : Call α) (result : Result α) : Exec (Sys α) (Shown α) := do
  setWriter fun wr => { wr with pc := .out }
  return some (call, result)

/-- The end of `write`, behind `push`. -/
def finishWrite (value : α) (incomplete : Bool) : Exec (Sys α) (Shown α) := do
  if !incomplete then
    setWriter fun wr => { wr with f := wr.back }
  writerReturn (.write value incomplete) .unit

/-- The next step of the writer, by where it is. -/
def writerStep (N : Nat) : WriterPc α → Exec (Sys α) (Shown α)
  | .out => throw .blocked
  | .store value incomplete => do
      let wr := (← get).writer
      writeValue N wr.back value
      setWriter fun wr =>
        { wr with backChunk := wr.endChunk, backPos := wr.endPos, endPos := wr.endPos + 1 }
      if wr.endPos + 1 ≠ N then
        finishWrite value incomplete
      else
        writerGoto (.takeSpare value incomplete)
  | .takeSpare value incomplete => do
      let sc := (← get).spareChunk
      modify fun s => { s with spareChunk := 0 }
      if sc ≠ 0 then
        writerGoto (.linkNext value incomplete sc true)
      else
        writerGoto (.malloc value incomplete)
  | .malloc _ _ => throw .blocked
  | .linkNext value incomplete chunk spare => do
      writeNext (← get).writer.endChunk chunk
      writerGoto (.linkPrev value incomplete chunk spare)
  | .linkPrev value incomplete chunk spare => do
      let wr := (← get).writer
      -- `sc->prev` in one branch, `end_chunk->next->prev` in the other
      let target ← if spare then pure chunk else readField wr.endChunk Chunk.next
      writePrev target wr.endChunk
      writerGoto (.moveEnd value incomplete chunk)
  | .moveEnd value incomplete _ => do
      let next ← readField (← get).writer.endChunk Chunk.next
      setWriter fun wr => { wr with endChunk := next, endPos := 0 }
      finishWrite value incomplete
  | .moveBack => do
      let wr := (← get).writer
      if wr.backPos ≠ 0 then
        setWriter fun wr => { wr with backPos := wr.backPos - 1 }
      else
        let prev ← readField wr.backChunk Chunk.prev
        setWriter fun wr => { wr with backPos := N - 1, backChunk := prev }
      writerGoto .unmoveEnd
  | .unmoveEnd => do
      let wr := (← get).writer
      if wr.endPos ≠ 0 then
        setWriter fun wr => { wr with endPos := wr.endPos - 1 }
        writerGoto .load
      else
        let prev ← readField wr.endChunk Chunk.prev
        setWriter fun wr => { wr with endPos := N - 1, endChunk := prev }
        writerGoto .freeNext
  | .freeNext => do
      freeChunk (← readField (← get).writer.endChunk Chunk.next)
      writerGoto .clearNext
  | .clearNext => do
      writeNext (← get).writer.endChunk 0
      writerGoto .load
  | .load => do
      let value ← readValue N (← get).writer.back
      writerReturn .unwrite (.value (some value))
  | .cas => do
      let s ← get
      if s.c = some s.writer.w then
        modify fun s => { s with c := some s.writer.f }
        setWriter fun wr => { wr with w := wr.f }
        writerReturn .flush (.bool true)
      else
        writerGoto .set
  | .set => do
      modify fun s => { s with c := some s.writer.f }
      setWriter fun wr => { wr with w := wr.f }
      writerReturn .flush (.bool false)

/-! ## The reader -/

def setReader (g : Reader → Reader) : Exec (Sys α) Unit :=
  modify fun s => { s with reader := g s.reader }

/-- The reader goes on at `pc`. -/
def readerGoto (pc : ReaderPc) : Exec (Sys α) (Shown α) := do
  setReader fun rd => { rd with pc := pc }
  return none

/-- The end of `check_read`: `found` is its result. -/
def finishCheck (purpose : Purpose) (found : Bool) : Exec (Sys α) (Shown α) := do
  match purpose with
  | .check =>
      setReader fun rd => { rd with pc := .out }
      return some (.checkRead, .bool found)
  | .read =>
      if found then
        readerGoto .load
      else
        setReader fun rd => { rd with pc := .out }
        return some (.read, .value none)

/-- The next step of the reader, by where it is. -/
def readerStep (N : Nat) : ReaderPc → Exec (Sys α) (Shown α)
  | .out => throw .blocked
  | .prefetch purpose => do
      let s ← get
      if s.c = some s.reader.front then
        modify fun s => { s with c := none }
      setReader fun rd => { rd with r := s.c }
      finishCheck purpose (decide ¬(some s.reader.front = s.c ∨ s.c = none))
  | .load => do
      let rd := (← get).reader
      let value ← readValue N rd.front
      setReader fun rd => { rd with
        beginPos := rd.beginPos + 1, pc := if rd.beginPos + 1 = N then .moveBegin else .out }
      return some (.read, .value (some value))
  | .moveBegin => do
      let chunk := (← get).reader.beginChunk
      let next ← readField chunk Chunk.next
      setReader fun rd => { rd with beginChunk := next }
      readerGoto (.clearPrev chunk)
  | .clearPrev chunk => do
      writePrev (← get).reader.beginChunk 0
      setReader fun rd => { rd with beginPos := 0 }
      readerGoto (.putSpare chunk)
  | .putSpare chunk => do
      let cs := (← get).spareChunk
      modify fun s => { s with spareChunk := chunk }
      readerGoto (.free cs)
  | .free chunk => do
      freeChunk chunk
      readerGoto .out

/-! ## Steps -/

/-- The atomic steps. -/
inductive Step (α : Type) where
  | write (value : α) (incomplete : Bool)
  | unwrite
  | flush
  | checkRead
  | read
  /-- The next step of the writer, unless it is `malloc`. -/
  | writer
  /-- `malloc` returns `a`. -/
  | malloc (a : Nat)
  /-- The next step of the reader. -/
  | reader

def WriterPc.isOut : WriterPc α → Bool
  | .out => true
  | _ => false

def WriterPc.isMalloc : WriterPc α → Bool
  | .malloc _ _ => true
  | _ => false

def ReaderPc.isOut : ReaderPc → Bool
  | .out => true
  | _ => false

/-- A new chunk. -/
def Chunk.fresh (α : Type) : Chunk α := ⟨fun _ => none, none, none⟩

/-- The writer, outside, calls `c`. -/
def writerCall (c : Exec (Sys α) (Shown α)) : Exec (Sys α) (Shown α) :=
  await (fun s => s.writer.pc.isOut = true) c

/-- The reader, outside, calls a function that begins with `check_read`. -/
def readerCall (purpose : Purpose) : Exec (Sys α) (Shown α) :=
  await (fun s => s.reader.pc.isOut = true) do
    let rd := (← get).reader
    if some rd.front ≠ rd.r ∧ rd.r ≠ none then
      finishCheck purpose true
    else
      readerGoto (.prefetch purpose)

/-- The next step of the writer, which is `malloc`. -/
def mallocStep (a : Nat) : WriterPc α → Exec (Sys α) (Shown α)
  | .malloc value incomplete => do
      if a ≠ 0 then
        writeChunk a (.fresh α)
      -- `alloc_assert` prints a message when there is no memory, and goes on
      writerGoto (.linkNext value incomplete a false)
  | _ => throw .blocked

/-- **One step** of a pipe with `N` elements in a chunk. -/
def step (N : Nat) : Step α → Exec (Sys α) (Shown α)
  | .write value incomplete => writerCall (writerGoto (.store value incomplete))
  | .unwrite => writerCall do
      let wr := (← get).writer
      if wr.f = wr.back then
        writerReturn .unwrite (.value none)
      else
        writerGoto .moveBack
  | .flush => writerCall do
      let wr := (← get).writer
      if wr.w = wr.f then
        writerReturn .flush (.bool true)
      else
        writerGoto .cas
  | .checkRead => readerCall .check
  | .read => readerCall .read
  | .writer => do writerStep N (← get).writer.pc
  | .malloc a => await (fun s => (s.heap a).isNone = true) do mallocStep a (← get).writer.pc
  | .reader => do readerStep N (← get).reader.pc

/-! ## The constructors and the destructor -/

/-- The constructors: a chunk at `a`, and a first `push`, which links a second chunk at `b` when the
first one has a single element. -/
def start (α : Type) (N a b : Nat) : Sys α where
  heap :=
    if N = 1 then
      update (update (fun _ => none) a (some { Chunk.fresh α with next := some b })) b
        (some { Chunk.fresh α with prev := some a })
    else
      update (fun _ => none) a (some (.fresh α))
  spareChunk := 0
  c := some (a, 0)
  writer := ⟨a, 0, if N = 1 then b else a, if N = 1 then 0 else 1, (a, 0), (a, 0), .out⟩
  reader := ⟨a, 0, some (a, 0), .out⟩

/-- The body of the loop of the destructor of `yqueue_t`. -/
def destroyStep (_ : Unit) : Exec (Sys α) (Unit ⊕ Unit) := do
  let s ← get
  if s.reader.beginChunk = s.writer.endChunk then
    freeChunk s.reader.beginChunk
    return .inr ()
  else
    let next ← readField s.reader.beginChunk Chunk.next
    setReader fun rd => { rd with beginChunk := next }
    freeChunk s.reader.beginChunk
    return .inl ()

/-- The destructor of `yqueue_t`, with at most `n` iterations of its loop. -/
def destroy (n : Nat) : Exec (Sys α) Unit := do
  loop destroyStep n ()
  let sc := (← get).spareChunk
  modify fun s => { s with spareChunk := 0 }
  freeChunk sc

end KvStore.Ypipe
