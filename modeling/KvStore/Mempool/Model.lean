import KvStore.Lib.Codec
import KvStore.Lib.Interleaving

set_option autoImplicit false

/-! # The pool of small and large blocks, as written

`pool/mempool/fixsizememorypool.c` over a memory of bytes. The pool, its nodes and the headers of
its large blocks are records in this memory, between the blocks of the clients; every function reads
and writes them there.

The state also says what has been done so far: which regions `posix_memalign` has given and not got
back, which nodes the pool has linked, which headers are on its list, and which blocks the clients
have. The code does not see these lists; they say when it goes wrong. A function that follows a
pointer to something that is not a node of the pool, or not one of its headers, goes wrong with
`dangling`. -/

namespace KvStore.Mempool

open KvStore.Lib

/-! ## The records -/

/-- `struct mp_large_s` -/
structure MpLarge where
  next : Nat
  size : Int
  alloc : Nat

/-- `struct mp_node_s` -/
structure MpNode where
  end_ : Nat
  last : Nat
  next : Nat
  quote : Int
  failed : Int

/-- `struct mp_pool_s` -/
structure MpPool where
  large : Nat
  head : Nat
  current : Nat

/-- `alloc` is aligned to eight bytes. -/
def largeCodec : Codec MpLarge :=
  (Codec.word.prod (Codec.int.prod ((Codec.pad 4).prod Codec.word))).iso
    ⟨fun v => ⟨v.1, v.2.1, v.2.2.2⟩, fun l => (l.next, l.size, (), l.alloc), fun _ => rfl,
      fun _ => rfl⟩

def nodeCodec : Codec MpNode :=
  (Codec.word.prod (Codec.word.prod (Codec.word.prod (Codec.int.prod Codec.int)))).iso
    ⟨fun v => ⟨v.1, v.2.1, v.2.2.1, v.2.2.2.1, v.2.2.2.2⟩,
      fun n => (n.end_, n.last, n.next, n.quote, n.failed), fun _ => rfl, fun _ => rfl⟩

def poolCodec : Codec MpPool :=
  (Codec.word.prod (Codec.word.prod Codec.word)).iso
    ⟨fun v => ⟨v.1, v.2.1, v.2.2⟩, fun p => (p.large, p.head, p.current), fun _ => rfl,
      fun _ => rfl⟩

/-- `PAGE_SIZE` -/
def pageSize : Nat := 4096

/-- `sizeof(struct mp_node_s)` -/
def sizeofNode : Nat := nodeCodec.size

/-- `sizeof(struct mp_large_s)` -/
def sizeofLarge : Nat := largeCodec.size

/-- `sizeof(struct mp_pool_s)` -/
def sizeofPool : Nat := poolCodec.size

/-- The arithmetic of `int`. -/
def wrap (v : Int) : Int := v.bmod (2 ^ 32)

/-- `mp_align_ptr(p, MP_ALIGNMENT)` -/
def mpAlignPtr (p : Nat) : Nat := (p + 15) % 2 ^ 64 / 16 * 16

/-! ## The memory -/

/-- An address and a number of bytes. -/
abbrev Block := Nat × Nat

instance : LawfulBEq Block := inferInstance

/-- The memory, with what has been done. -/
structure State where
  bytes : Bytes
  /-- The number of calls of `posix_memalign`. -/
  calls : Nat
  /-- What `posix_memalign` has returned and has not been freed. -/
  regions : List Block
  /-- The nodes that the pool has linked. -/
  nodes : List Nat
  /-- The headers that are on the list of large blocks. -/
  headers : List Nat
  /-- The blocks that the clients have. -/
  outstanding : List Block

abbrev Mp (α : Type) := Exec State α

/-- What `posix_memalign` does: the address that each call returns, `none` when it fails, and what
is in the memory there. The latter is given apart for the calls of `mp_malloc_large`, so that a
condition can speak of the pool and the nodes alone. -/
structure Memalign where
  addr : Nat → Option Nat
  contents : Nat → Bytes
  large : Nat → Bytes

/-- What `posix_memalign` may return: an aligned place in the address space that is apart from those
it has returned before. -/
def Fresh (regions : List Block) (a size : Nat) : Prop :=
  a % 16 = 0 ∧ 0 < a ∧ a + size < 2 ^ 64 ∧ ∀ r ∈ regions, a + size ≤ r.1 ∨ r.1 + r.2 ≤ a

instance (regions : List Block) (a size : Nat) : Decidable (Fresh regions a size) :=
  inferInstanceAs (Decidable (_ ∧ _))

/-- `posix_memalign(…, MP_ALIGNMENT, size)`; a run in which it returns anything else is none. -/
def posixMemalign (env : Memalign) (contents : Nat → Bytes) (size : Nat) : Mp (Option Nat) := do
  let s ← get
  match env.addr s.calls with
  | none =>
      set { s with calls := s.calls + 1 }
      return none
  | some a =>
      if Fresh s.regions a size then
        set { s with
          calls := s.calls + 1
          regions := (a, size) :: s.regions
          bytes := overwrite s.bytes a size (contents s.calls) }
        return some a
      else throw .blocked

def free (a : Nat) : Mp Unit := do
  if a ∈ (← get).regions.map Prod.fst then
    modify fun s => { s with regions := s.regions.filter fun r => r.1 ≠ a }
  else throw .badFree

def getPool (pool : Nat) : Mp MpPool := return poolCodec.read (← get).bytes pool

def setPool (pool : Nat) (v : MpPool) : Mp Unit :=
  modify fun s => { s with bytes := poolCodec.write s.bytes pool v }

/-- `*cur`, for a node of the pool. -/
def getNode (cur : Nat) : Mp MpNode := do
  if cur ∈ (← get).nodes then return nodeCodec.read (← get).bytes cur else throw .dangling

def setNode (cur : Nat) (v : MpNode) : Mp Unit :=
  modify fun s => { s with bytes := nodeCodec.write s.bytes cur v }

/-- `*large`, for a header on the list. -/
def getLarge (large : Nat) : Mp MpLarge := do
  if large ∈ (← get).headers then return largeCodec.read (← get).bytes large else throw .dangling

def setLarge (large : Nat) (v : MpLarge) : Mp Unit :=
  modify fun s => { s with bytes := largeCodec.write s.bytes large v }

/-- A loop along the nodes: without a cycle, it is over after one iteration for each of them. -/
def alongNodes {α ρ : Type} (body : α → Mp (α ⊕ ρ)) (a : α) : Mp ρ := do
  loop body ((← get).nodes.length + 1) a

/-- A loop along the list of large blocks. -/
def alongLarge {α ρ : Type} (body : α → Mp (α ⊕ ρ)) (a : α) : Mp ρ := do
  loop body ((← get).headers.length + 1) a

/-! ## The functions -/

/-- The record of the pool and its first node; the `next` and the `quote` of the node are not
set. -/
def initPool (pool : Nat) : Mp Unit := do
  let head := pool + sizeofPool
  setPool pool ⟨0, head, head⟩
  modify fun s => { s with nodes := [head] }
  setNode head { ← getNode head with
    last := pool + sizeofPool + sizeofNode
    end_ := pool + pageSize
    failed := 0 }

/-- `mp_create_pool`; `0` for `NULL`. -/
def mpCreatePool (env : Memalign) (size : Nat) : Mp Nat := do
  let size := if size < pageSize ∨ size % pageSize ≠ 0 then pageSize else size
  match ← posixMemalign env env.contents size with
  | none => return 0
  | some pool => do
      initPool pool
      return pool

/-- The loop of `mp_malloc_block`: it returns the last node and the new value of `pool->current`. -/
def failBody : Nat × Nat → Mp ((Nat × Nat) ⊕ (Nat × Nat))
  | (cur, current) => do
      let node ← getNode cur
      if node.next = 0 then
        return .inr (cur, current)
      else
        setNode cur { node with failed := wrap (node.failed + 1) }
        return .inl (node.next, if node.failed > 4 then node.next else current)

/-- The second half of `mp_malloc_block`: the node is linked behind the last one. -/
def linkNode (pool newNode : Nat) : Mp Unit := do
  let current := (← getPool pool).current
  let (cur, current) ← alongNodes failBody (current, current)
  setNode cur { ← getNode cur with next := newNode }
  modify fun s => { s with nodes := s.nodes ++ [newNode] }
  setPool pool { ← getPool pool with current := current }

/-- `mp_malloc_block` -/
def mpMallocBlock (env : Memalign) (pool size : Nat) : Mp Nat := do
  match ← posixMemalign env env.contents pageSize with
  | none => return 0
  | some block => do
      let stale := nodeCodec.read (← get).bytes block
      let retAddr := mpAlignPtr (block + sizeofNode)
      setNode block ⟨block + pageSize, retAddr + size, 0, wrap (stale.quote + 1), stale.failed⟩
      linkNode pool block
      return retAddr

/-- The loop of `mp_malloc`: the address in the first node with enough space. -/
def carveBody (size : Nat) (cur : Nat) : Mp (Nat ⊕ Option Nat) := do
  if cur = 0 then
    return .inr none
  else
    let node ← getNode cur
    let memAddr := mpAlignPtr node.last
    -- the difference of the pointers is signed, and compared as an unsigned number
    if (size : Int) ≤ ((node.end_ : Int) - memAddr) % 2 ^ 64 then
      setNode cur { node with quote := wrap (node.quote + 1), last := memAddr + size }
      return .inr (some memAddr)
    else
      return .inl node.next

/-- The small branch of `mp_malloc`. -/
def mpMallocSmall (env : Memalign) (pool size : Nat) : Mp Nat := do
  match ← alongNodes (carveBody size) (← getPool pool).current with
  | some memAddr => return memAddr
  | none => mpMallocBlock env pool size

/-- The loop of `mp_malloc_large`, with `n`: the first header without a block, of the first five. -/
def releasedBody : Nat × Nat → Mp ((Nat × Nat) ⊕ Option Nat)
  | (large, n) => do
      if large = 0 then
        return .inr none
      else
        let l ← getLarge large
        if l.alloc = 0 then return .inr (some large)
        else if n > 3 then return .inr none
        else return .inl (l.next, n + 1)

/-- The end of `mp_malloc_large`: a new header in front of the list. -/
def linkLarge (pool large size bigAddr : Nat) : Mp Unit := do
  setLarge large ⟨(← getPool pool).large, wrap size, bigAddr⟩
  modify fun s => { s with headers := large :: s.headers }
  setPool pool { ← getPool pool with large := large }

/-- `mp_malloc_large`; the header has the size of a small block. -/
def mpMallocLarge (env : Memalign) (pool size : Nat) : Mp Nat := do
  match ← posixMemalign env env.large size with
  | none => return 0
  | some bigAddr => do
      match ← alongLarge releasedBody ((← getPool pool).large, 0) with
      | some large => do
          setLarge large { ← getLarge large with size := wrap size, alloc := bigAddr }
          return bigAddr
      | none => do
          let large ← mpMallocSmall env pool sizeofLarge
          if large = 0 then
            free bigAddr
            return 0
          else
            linkLarge pool large size bigAddr
            return bigAddr

/-- `mp_malloc` -/
def mpMalloc (env : Memalign) (pool size : Nat) : Mp Nat :=
  if size = 0 then return 0
  else if size > pageSize - sizeofNode then mpMallocLarge env pool size
  else mpMallocSmall env pool size

/-- `mp_calloc` -/
def mpCalloc (env : Memalign) (pool size : Nat) : Mp Nat := do
  let memAddr ← mpMalloc env pool size
  if memAddr ≠ 0 then
    modify fun s => { s with bytes := overwrite s.bytes memAddr size fun _ => 0 }
  return memAddr

/-- The first loop of `mp_free`: whether a large block has been freed. -/
def freeLargeBody (p : Nat) (large : Nat) : Mp (Nat ⊕ Bool) := do
  if large = 0 then
    return .inr false
  else
    let l ← getLarge large
    if p = l.alloc then
      free l.alloc
      setLarge large { l with size := 0, alloc := 0 }
      return .inr true
    else
      return .inl l.next

/-- A block of the node is given back; without blocks, the node is used again from its start. -/
def unquote (pool cur : Nat) (node : MpNode) : Mp Unit := do
  let quote := wrap (node.quote - 1)
  if quote = 0 then
    let head := (← getPool pool).head
    let last := if cur = head then pool + sizeofPool + sizeofNode else cur + sizeofNode
    setNode cur { node with quote := quote, last := last, failed := 0 }
    setPool pool { ← getPool pool with current := head }
  else
    setNode cur { node with quote := quote }

/-- The second loop of `mp_free`. -/
def freeSmallBody (pool p : Nat) (cur : Nat) : Mp (Nat ⊕ Unit) := do
  if cur = 0 then
    return .inr ()
  else
    let node ← getNode cur
    if cur ≤ p ∧ p ≤ node.end_ then
      unquote pool cur node
      return .inr ()
    else
      return .inl node.next

/-- `mp_free` -/
def mpFree (pool p : Nat) : Mp Unit := do
  if ← alongLarge (freeLargeBody p) (← getPool pool).large then
    return ()
  else
    alongNodes (freeSmallBody pool p) (← getPool pool).head

/-- The first loop of `mp_reset_pool`. -/
def resetLargeBody (large : Nat) : Mp (Nat ⊕ Unit) := do
  if large = 0 then
    return .inr ()
  else
    let l ← getLarge large
    if l.alloc ≠ 0 then free l.alloc
    return .inl l.next

/-- The second loop of `mp_reset_pool`. -/
def resetNodeBody (cur : Nat) : Mp (Nat ⊕ Unit) := do
  if cur = 0 then
    return .inr ()
  else
    let node ← getNode cur
    setNode cur { node with last := cur + sizeofNode, failed := 0, quote := 0 }
    return .inl node.next

/-- `mp_reset_pool` -/
def mpResetPool (pool : Nat) : Mp Unit := do
  alongLarge resetLargeBody (← getPool pool).large
  setPool pool { ← getPool pool with large := 0, current := (← getPool pool).head }
  modify fun s => { s with headers := [] }
  alongNodes resetNodeBody (← getPool pool).head

/-! ## The clients -/

/-- What the clients do. -/
inductive Op where
  | malloc (size : Nat)
  | calloc (size : Nat)
  | free (p : Nat)
  | reset
  /-- A block is overwritten. -/
  | write (b : Block) (data : Nat → UInt8)

/-- A client gets the block at `p`, unless `p` is `NULL`. -/
def grant (p size : Nat) : Mp Unit :=
  modify
    fun s => { s with outstanding := if p = 0 then s.outstanding else (p, size) :: s.outstanding }

/-- **One step**: the clients free and write only blocks that they have, and have none after a
reset. -/
def step (env : Memalign) (pool : Nat) : Op → Mp Nat
  | .malloc size => do
      let p ← mpMalloc env pool size
      grant p size
      return p
  | .calloc size => do
      let p ← mpCalloc env pool size
      grant p size
      return p
  | .free p => await (fun s => p ∈ s.outstanding.map Prod.fst) do
      mpFree pool p
      modify fun s => { s with outstanding := s.outstanding.eraseP fun b => b.1 = p }
      return 0
  | .reset => do
      mpResetPool pool
      modify fun s => { s with outstanding := [] }
      return 0
  | .write b data => await (fun s => b ∈ s.outstanding) do
      modify fun s => { s with bytes := overwrite s.bytes b.1 b.2 data }
      return 0

/-- A run: `mp_create_pool`, and what the clients then do; with a failure of `mp_create_pool`, there
is nothing to do. -/
def session (env : Memalign) (size : Nat) (ops : List Op) : Mp (Nat × List Nat) := do
  let pool ← mpCreatePool env size
  if pool = 0 then
    return (0, [])
  else
    return (pool, ← runAll (step env pool) ops)

/-- A memory in which nothing has been allocated. -/
def start (bytes : Bytes) : State := ⟨bytes, 0, [], [], [], []⟩

end KvStore.Mempool
