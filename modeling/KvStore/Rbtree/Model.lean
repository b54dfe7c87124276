import KvStore.Lib.Memory
import KvStore.Lib.RedBlack

set_option autoImplicit false

/-! # The red-black tree engine, as written

The functions of `kv_engine/kvstore_rbtree.c` over a memory of `rbtree_node` blocks and character
blocks; the descriptor is the global `rbtree Tree`. Pointers, the shared sentinel `nil`, the
`parent` field and the order of the reads and writes are those of the source.

The source writes each rotation, and each half of the two repair loops, twice with `left` and
`right` exchanged. They are one definition here, with the side as a parameter.
-/

namespace KvStore.Rbtree

open KvStore.Lib

/-- `struct _rbtree_node`; a field is `none` until it is written. -/
structure RbtreeNode where
  color : Option Color := none
  right : Option Nat := none
  left : Option Nat := none
  parent : Option Nat := none
  key : Option Nat := none
  value : Option Nat := none

/-- `struct _rbtree`. -/
structure Tree where
  root : Nat
  nil : Nat
  count : Int

abbrev State := Store RbtreeNode Tree

abbrev Rb (α : Type) := Exec State α

/-! ## Fields -/

def RbtreeNode.child (d : Side) (n : RbtreeNode) : Option Nat :=
  match d with
  | .left => n.left
  | .right => n.right

def RbtreeNode.withChild (d : Side) (q : Nat) (n : RbtreeNode) : RbtreeNode :=
  match d with
  | .left => { n with left := some q }
  | .right => { n with right := some q }

def getColor (p : Nat) : Rb Color := readField (·.color) p
def getChild (d : Side) (p : Nat) : Rb Nat := readField (·.child d) p
def getParent (p : Nat) : Rb Nat := readField (·.parent) p
def getKey (p : Nat) : Rb Nat := readField (·.key) p
def getValue (p : Nat) : Rb Nat := readField (·.value) p

def setColor (p : Nat) (c : Color) : Rb Unit := writeField ({ · with color := some c }) p
def setChild (d : Side) (p q : Nat) : Rb Unit := writeField (·.withChild d q) p
def setParent (p q : Nat) : Rb Unit := writeField ({ · with parent := some q }) p
def setKey (p q : Nat) : Rb Unit := writeField ({ · with key := some q }) p
def setValue (p q : Nat) : Rb Unit := writeField ({ · with value := some q }) p

def getNil : Rb Nat := do return (← readDesc).nil
def getRoot : Rb Nat := do return (← readDesc).root
def setRoot (p : Nat) : Rb Unit := writeDesc ({ · with root := p })

/-- `count` is an `int`. -/
def Tree.addCount (d : Int) (t : Tree) : Tree := { t with count := int32 (t.count + d) }

/-- `strcmp(a->key, b->key)` -/
def strcmpKeys (a b : Nat) : Rb Int := do
  return CStr.strcmp (← readStr (← getKey a)) (← readStr (← getKey b))

/-! ## Walking the tree -/

/-- One test of the loop of `rbtree_mini`, with its body. -/
def miniStep (x : Nat) : Rb (Nat ⊕ Nat) := do
  if (← getChild .left x) ≠ (← getNil) then
    return .inl (← getChild .left x)
  else
    return .inr x

def rbtreeMini (x : Nat) : Rb Nat := whileLoop miniStep x

/-- One test of the loop of `rbtree_successor`, with its body, at the pair `(x, y)`. -/
def successorStep (p : Nat × Nat) : Rb (Nat × Nat ⊕ Nat) := do
  if p.2 ≠ (← getNil) then
    if p.1 = (← getChild .right p.2) then
      return .inl (p.2, ← getParent p.2)
    else
      return .inr p.2
  else
    return .inr p.2

def rbtreeSuccessor (x : Nat) : Rb Nat := do
  let y ← getParent x
  if (← getChild .right x) ≠ (← getNil) then
    rbtreeMini (← getChild .right x)
  else
    whileLoop successorStep (x, y)

/-- One test of the loop of `rbtree_search`, with its body. -/
def searchStep (key : Option CStr) (node : Nat) : Rb (Nat ⊕ Nat) := do
  if node ≠ (← getNil) then
    let c := CStr.strcmp (← argStr key) (← readStr (← getKey node))
    if c < 0 then
      return .inl (← getChild .left node)
    else if c > 0 then
      return .inl (← getChild .right node)
    else
      return .inr node
  else
    return .inr (← getNil)

def rbtreeSearch (key : Option CStr) : Rb Nat := do
  whileLoop (searchStep key) (← getRoot)

/-! ## Rotations -/

/-- Let the parent of `x` (the tree itself, when `x` is the root) point to `y` instead; the test
for the side starts with `d`. -/
def relink (d : Side) (x y : Nat) : Rb Unit := do
  let nil ← getNil
  if (← getParent x) = nil then
    setRoot y
  else if x = (← getChild d (← getParent x)) then
    setChild d (← getParent x) y
  else
    setChild d.flip (← getParent x) y

/-- Rotate at `x` towards side `d`. -/
def rotate (d : Side) (x : Nat) : Rb Unit := do
  let nil ← getNil
  let y ← getChild d.flip x
  setChild d.flip x (← getChild d y)
  if (← getChild d y) ≠ nil then
    setParent (← getChild d y) x
  setParent y (← getParent x)
  relink d x y
  setChild d y x
  setParent x y

def rbtreeLeftRotate (x : Nat) : Rb Unit := rotate .left x

def rbtreeRightRotate (y : Nat) : Rb Unit := rotate .right y

/-! ## Insertion -/

/-- The body of the loop of `rbtree_insert_fixup` when the parent of `z` is the child of its
parent on side `d`; returns the next `z`. -/
def insertFixupBody (d : Side) (z : Nat) : Rb Nat := do
  let y ← getChild d.flip (← getParent (← getParent z))
  if (← getColor y) = .red then
    setColor (← getParent z) .black
    setColor y .black
    setColor (← getParent (← getParent z)) .red
    getParent (← getParent z)
  else
    let z ← if z = (← getChild d.flip (← getParent z)) then do
        let z ← getParent z
        rotate d z
        pure z
      else pure z
    setColor (← getParent z) .black
    setColor (← getParent (← getParent z)) .red
    rotate d.flip (← getParent (← getParent z))
    return z

/-- One test of the loop of `rbtree_insert_fixup`, with its body. -/
def insertFixupStep (z : Nat) : Rb (Nat ⊕ Unit) := do
  if (← getColor (← getParent z)) = .red then
    if (← getParent z) = (← getChild .left (← getParent (← getParent z))) then
      return .inl (← insertFixupBody .left z)
    else
      return .inl (← insertFixupBody .right z)
  else
    return .inr ()

def rbtreeInsertFixup (z : Nat) : Rb Unit := do
  whileLoop insertFixupStep z
  setColor (← getRoot) .black

/-- One test of the loop of `rbtree_insert` that looks for the place of `z`, with its body, at the
pair `(x, y)`. The loop ends with the last node `y` on the way down, or with `none` when the key
is there already (the source returns). -/
def descendStep (z : Nat) (p : Nat × Nat) : Rb (Nat × Nat ⊕ Option Nat) := do
  if p.1 ≠ (← getNil) then
    if (← strcmpKeys z p.1) < 0 then
      return .inl (← getChild .left p.1, p.1)
    else if (← strcmpKeys z p.1) > 0 then
      return .inl (← getChild .right p.1, p.1)
    else
      return .inr none
  else
    return .inr (some p.2)

/-- `rbtree_insert` up to the call of `rbtree_insert_fixup`; `false` when it returns before. -/
def insertPlace (z : Nat) : Rb Bool := do
  let nil ← getNil
  match ← whileLoop (descendStep z) (← getRoot, nil) with
  | none => return false
  | some y =>
      setParent z y
      if y = nil then
        setRoot z
      else if (← strcmpKeys z y) < 0 then
        setChild .left y z
      else
        setChild .right y z
      setChild .left z nil
      setChild .right z nil
      setColor z .red
      return true

def rbtreeInsert (z : Nat) : Rb Unit := do
  if ← insertPlace z then
    rbtreeInsertFixup z

/-! ## Deletion -/

/-- `(w->left->color == BLACK) && (w->right->color == BLACK)` -/
def bothBlack (w : Nat) : Rb Bool := do
  if (← getColor (← getChild .left w)) = .black then
    return (← getColor (← getChild .right w)) = .black
  else
    return false

/-- The first part of the body of the loop of `rbtree_delete_fixup`, for `x` on side `d`: find the
sibling `w`, after a rotation when it is red. -/
def deleteFixupSibling (d : Side) (x : Nat) : Rb Nat := do
  let w ← getChild d.flip (← getParent x)
  if (← getColor w) = .red then
    setColor w .black
    setColor (← getParent x) .red
    rotate d (← getParent x)
    getChild d.flip (← getParent x)
  else
    pure w

/-- The body of the loop of `rbtree_delete_fixup` when `x` is the child of its parent on side `d`;
returns the next `x`. -/
def deleteFixupBody (d : Side) (x : Nat) : Rb Nat := do
  let w ← deleteFixupSibling d x
  if ← bothBlack w then
    setColor w .red
    getParent x
  else
    let w ← if (← getColor (← getChild d.flip w)) = .black then do
        setColor (← getChild d w) .black
        setColor w .red
        rotate d.flip w
        getChild d.flip (← getParent x)
      else pure w
    setColor w (← getColor (← getParent x))
    setColor (← getParent x) .black
    setColor (← getChild d.flip w) .black
    rotate d (← getParent x)
    getRoot

/-- One test of the loop of `rbtree_delete_fixup`, with its body. -/
def deleteFixupStep (x : Nat) : Rb (Nat ⊕ Nat) := do
  if x ≠ (← getRoot) then
    if (← getColor x) = .black then
      if x = (← getChild .left (← getParent x)) then
        return .inl (← deleteFixupBody .left x)
      else
        return .inl (← deleteFixupBody .right x)
    else
      return .inr x
  else
    return .inr x

def rbtreeDeleteFixup (x : Nat) : Rb Unit := do
  let x ← whileLoop deleteFixupStep x
  setColor x .black

/-- The node that `rbtree_delete` takes out of the tree for `z`. -/
def deleteVictim (z : Nat) : Rb Nat := do
  let nil ← getNil
  if (← getChild .left z) = nil then
    pure z
  else if (← getChild .right z) = nil then
    pure z
  else
    rbtreeSuccessor z

/-- The child of `y` that takes its place. -/
def deleteChild (y : Nat) : Rb Nat := do
  let nil ← getNil
  if (← getChild .left y) ≠ nil then
    getChild .left y
  else if (← getChild .right y) ≠ nil then
    getChild .right y
  else
    pure nil

/-- Exchange the key and value pointers of `z` and `y`. -/
def swapData (z y : Nat) : Rb Unit := do
  let tmp ← getKey z
  setKey z (← getKey y)
  setKey y tmp
  let tmp ← getValue z
  setValue z (← getValue y)
  setValue y tmp

/-- `rbtree_delete` up to the test in front of the call of `rbtree_delete_fixup`: the node `y` that
is taken out, and the child `x` that takes its place. -/
def deleteSplice (z : Nat) : Rb (Nat × Nat) := do
  let y ← deleteVictim z
  let x ← deleteChild y
  setParent x (← getParent y)
  relink .left y x
  if y ≠ z then
    swapData z y
  return (y, x)

def rbtreeDelete (z : Nat) : Rb Nat := do
  let (y, x) ← deleteSplice z
  if (← getColor y) = .black then
    rbtreeDeleteFixup x
  return y

/-! ## The engine interface -/

/-- A memory before `kvstore_rbtree_create`. -/
def blank : State := ⟨fun _ => none, fun _ => none, 1, ⟨0, 0, 0⟩⟩

def kvstoreRbtreeCreate (alloc : AllocPlan) : Rb Int := do
  -- `memset(tree, 0, sizeof(rbtree))`
  writeDesc fun _ => ⟨0, 0, 0⟩
  let nil ← mallocNode (alloc 0) {}
  writeDesc ({ · with nil := nil })
  setKey (← getNil) (← mallocStr (alloc 1) 1)
  strcpy (← getKey (← getNil)) default
  setColor (← getNil) .black
  setRoot (← getNil)
  return 0

def kvsRbtreeSet (alloc : AllocPlan) (key value : Option CStr) : Rb Int := do
  let node ← mallocNode (alloc 0) {}
  if node = 0 then
    return -1
  let k ← argStr key
  setKey node (← mallocStr (alloc 1) (k.strlen + 1))
  if (← getKey node) = 0 then
    free node
    return -1
  memsetZero (← getKey node) (k.strlen + 1)
  strcpy (← getKey node) k
  let v ← argStr value
  setValue node (← mallocStr (alloc 2) (v.strlen + 1))
  if (← getValue node) = 0 then
    free (← getKey node)
    free node
    return -1
  memsetZero (← getValue node) (v.strlen + 1)
  strcpy (← getValue node) v
  rbtreeInsert node
  writeDesc (Tree.addCount 1)
  return 0

/-- Returns the pointer to the value, or `NULL`. -/
def kvsRbtreeGet (key : Option CStr) : Rb Nat := do
  let node ← rbtreeSearch key
  if node = (← getNil) then
    return 0
  getValue node

def kvsRbtreeDelete (key : Option CStr) : Rb Int := do
  let node ← rbtreeSearch key
  if node = (← getNil) then
    return -1
  let cur ← rbtreeDelete node
  -- the test is the wrong way round in the source: nothing is freed
  if cur = 0 then
    free (← getKey cur)
    free (← getValue cur)
    free cur
  writeDesc (Tree.addCount (-1))
  return 0

def kvsRbtreeModify (alloc : AllocPlan) (key value : Option CStr) : Rb Int := do
  let node ← rbtreeSearch key
  if node = (← getNil) then
    return -1
  let tmp ← getValue node
  free tmp
  let v ← argStr value
  setValue node (← mallocStr (alloc 0) (v.strlen + 1))
  if (← getValue node) = 0 then
    return -1
  strcpy (← getValue node) v
  return 0

def kvsRbtreeCount : Rb Int := do return (← readDesc).count

/-- One test of the loop of `kvstore_rbtree_destory`, with its body, at the pair of `node` and the
number of calls of `rbtree_delete` so far, which the source does not count. -/
def destoryStep (p : Nat × Nat) : Rb (Nat × Nat ⊕ Nat) := do
  if p.1 ≠ (← getNil) then
    let node ← rbtreeMini (← getRoot)
    if node = (← getNil) then
      return .inr p.2
    let node ← rbtreeDelete node
    -- the test is the wrong way round here, too
    if node = 0 then
      free (← getKey node)
      free (← getValue node)
      free node
    return .inl (node, p.2 + 1)
  else
    return .inr p.2

/-- Returns the number of calls of `rbtree_delete`. -/
def kvstoreRbtreeDestory : Rb Nat := do
  if (← getKey (← getNil)) ≠ 0 then
    free (← getKey (← getNil))
  whileLoop destoryStep (← getRoot, 0)

end KvStore.Rbtree
