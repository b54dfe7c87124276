import KvStore.Lib.Memory

set_option autoImplicit false

/-! # The hash engine, as written

The functions of `kv_engine/kvstore_hash.c` over a memory of `hashnode_t` blocks and character
blocks; the descriptor is the global `hashtable_t Hash`, with the slot table in it. The functions
take the number of slots as a parameter, which the source fixes to `MAX_TABLE_SIZE`, and no pointer
to the table: every caller passes `&Hash`, so the tests for a `NULL` table are left out.

`put`, `get` and `modify` search a chain with the same loop, which is one definition here.
-/

namespace KvStore.Hash

open KvStore.Lib

/-- `MAX_TABLE_SIZE` -/
def maxTableSize : Nat := 102400

/-- `struct hashnode_s`; a field is `none` until it is written. -/
structure HashNode where
  key : Option Nat := none
  value : Option Nat := none
  next : Option Nat := none

/-- `struct hashtable_s`; a slot is `none` until it is written. -/
structure Hashtable where
  nodes : Nat → Option Nat
  maxSlots : Int
  count : Int

abbrev State := Store HashNode Hashtable

abbrev Hx (α : Type) := Exec State α

/-! ## Fields and slots -/

def getKey (p : Nat) : Hx Nat := readField (·.key) p
def getValue (p : Nat) : Hx Nat := readField (·.value) p
def getNext (p : Nat) : Hx Nat := readField (·.next) p

def HashNode.withKey (q : Nat) (n : HashNode) : HashNode := { n with key := some q }
def HashNode.withValue (q : Nat) (n : HashNode) : HashNode := { n with value := some q }
def HashNode.withNext (q : Nat) (n : HashNode) : HashNode := { n with next := some q }

def setKey (p q : Nat) : Hx Unit := writeField (HashNode.withKey q) p
def setValue (p q : Nat) : Hx Unit := writeField (HashNode.withValue q) p
def setNext (p q : Nat) : Hx Unit := writeField (HashNode.withNext q) p

/-- Read `hash->nodes[idx]`. -/
def getSlot (size : Nat) (idx : Int) : Hx Nat := do
  if 0 ≤ idx ∧ idx < size then
    match (← readDesc).nodes idx.toNat with
    | none => throw .uninit
    | some p => pure p
  else
    throw .outOfBounds

def Hashtable.withSlot (i p : Nat) (t : Hashtable) : Hashtable :=
  { t with nodes := Function.update t.nodes i (some p) }

/-- `count` is an `int`. -/
def Hashtable.addCount (d : Int) (t : Hashtable) : Hashtable :=
  { t with count := int32 (t.count + d) }

/-- Write `hash->nodes[idx]`. -/
def setSlot (size : Nat) (idx : Int) (p : Nat) : Hx Unit := do
  if 0 ≤ idx ∧ idx < size then
    writeDesc (Hashtable.withSlot idx.toNat p)
  else
    throw .outOfBounds

/-! ## The hash function -/

/-- The value of a `char` of the key: `char` is signed. -/
def charValue (b : UInt8) : Int := (b.toNat : Int).bmod 256

/-- The loop of `_hash`: the sum of the characters, in an `int` of 32 bits. -/
def hashSum : List UInt8 → Int → Int
  | [], sum => sum
  | b :: bs, sum => hashSum bs ((sum + charValue b).bmod 4294967296)

/-- `_hash`; the `%` of C rounds towards zero, so the remainder has the sign of the sum. -/
def hash (key : Option CStr) (size : Nat) : Int :=
  match key with
  | none => -1
  | some k => (hashSum k.bytes 0).tmod size

/-! ## Nodes -/

def createNode (alloc : AllocPlan) (key value : CStr) : Hx Nat := do
  let node ← mallocNode (alloc 0) {}
  if node = 0 then
    return 0
  setKey node (← mallocStr (alloc 1) (key.strlen + 1))
  if (← getKey node) = 0 then
    free node
    return 0
  strcpy (← getKey node) key
  setValue node (← mallocStr (alloc 2) (value.strlen + 1))
  if (← getValue node) = 0 then
    free (← getKey node)
    free node
    return 0
  strcpy (← getValue node) value
  setNext node 0
  return node

/-- Give a node and its two strings back. -/
def freeNode (node : Nat) : Hx Unit := do
  if (← getKey node) ≠ 0 then
    free (← getKey node)
  if (← getValue node) ≠ 0 then
    free (← getValue node)
  free node

/-! ## The table -/

/-- The slot table comes from `kvstore_malloc` and is not cleared. -/
def initHashtable (alloc : AllocPlan) (size : Nat) : Hx Int := do
  if alloc 0 then
    writeDesc (fun t => { t with nodes := fun _ => none })
    writeDesc (fun t => { t with maxSlots := size })
    writeDesc (fun t => { t with count := 0 })
    return 0
  else
    return -1

/-- One test of the search loop, with its body. -/
def findStep (key : CStr) (node : Nat) : Hx (Nat ⊕ Nat) := do
  if node ≠ 0 then
    if CStr.strcmp (← readStr (← getKey node)) key = 0 then
      return .inr node
    else
      return .inl (← getNext node)
  else
    return .inr 0

/-- The node of the key in the chain that starts at `node`, or `NULL`. -/
def findNode (key : CStr) (node : Nat) : Hx Nat := whileLoop (findStep key) node

def putKvHashtable (alloc : AllocPlan) (size : Nat) : Option CStr → Option CStr → Hx Int
  | some key, some value => do
      let idx := hash (some key) size
      let node ← findNode key (← getSlot size idx)
      if node ≠ 0 then
        return 1
      -- the result of `_create_node` is not tested
      let newNode ← createNode alloc key value
      setNext newNode (← getSlot size idx)
      setSlot size idx newNode
      writeDesc (Hashtable.addCount 1)
      return 0
  | _, _ => return -1

/-- Returns the pointer to the value, or `NULL`. -/
def getKvHashtable (size : Nat) : Option CStr → Hx Nat
  | some key => do
      let idx := hash (some key) size
      let node ← findNode key (← getSlot size idx)
      if node ≠ 0 then
        getValue node
      else
        return 0
  | none => return 0

/-- One test of the loop of `delete_kv_hashtable`, with its body: it looks one node ahead. -/
def deleteStep (key : CStr) (cur : Nat) : Hx (Nat ⊕ Nat) := do
  if (← getNext cur) ≠ 0 then
    if CStr.strcmp (← readStr (← getKey (← getNext cur))) key = 0 then
      return .inr cur
    else
      return .inl (← getNext cur)
  else
    return .inr cur

def deleteKvHashtable (size : Nat) : Option CStr → Hx Int
  | some key => do
      let idx := hash (some key) size
      let head ← getSlot size idx
      if head = 0 then
        return -1
      if CStr.strcmp (← readStr (← getKey head)) key = 0 then
        setSlot size idx (← getNext head)
        freeNode head
        writeDesc (Hashtable.addCount (-1))
        return 0
      let cur ← whileLoop (deleteStep key) head
      if (← getNext cur) = 0 then
        return -1
      let tmp ← getNext cur
      setNext cur (← getNext tmp)
      freeNode tmp
      writeDesc (Hashtable.addCount (-1))
      return 0
  | none => return -2

/-- `kvs_hash_modify` on a table of `size` slots. -/
def modifyKvHashtable (alloc : AllocPlan) (size : Nat) : Option CStr → Option CStr → Hx Int
  | some key, some value => do
      let idx := hash (some key) size
      let node ← findNode key (← getSlot size idx)
      if node ≠ 0 then
        free (← getValue node)
        setValue node (← mallocStr (alloc 0) (value.strlen + 1))
        if (← getValue node) ≠ 0 then
          strcpy (← getValue node) value
          return 0
        else
          throw .assertFail
      else
        return -1
  | _, _ => return -1

/-! ## The engine interface -/

def kvstoreHashCreate (alloc : AllocPlan) : Hx Int := initHashtable alloc maxTableSize

def kvsHashSet (alloc : AllocPlan) (key value : Option CStr) : Hx Int :=
  putKvHashtable alloc maxTableSize key value

def kvsHashGet (key : Option CStr) : Hx Nat := getKvHashtable maxTableSize key

def kvsHashDelete (key : Option CStr) : Hx Int := deleteKvHashtable maxTableSize key

def kvsHashModify (alloc : AllocPlan) (key value : Option CStr) : Hx Int :=
  modifyKvHashtable alloc maxTableSize key value

def kvsHashCount : Hx Int := do return (← readDesc).count

end KvStore.Hash
