import KvStore.Lib.Memory

set_option autoImplicit false

/-! # The array engine, as written

The functions of `kv_engine/kvstore_array.c` over the global `array_t Array`. A string block of this
engine belongs to the one slot that points to it, so a slot holds the strings themselves; `none` is
`NULL`. An access outside the table is a fault, and so is a `strcmp` with `NULL`.
-/

namespace KvStore.Array

open KvStore.Lib

/-- `struct kvs_array_item`. -/
structure KvsArrayItem where
  key : Option CStr
  value : Option CStr
  deriving DecidableEq

/-- `KVS_ARRAY_SIZE` -/
def kvsArraySize : Nat := 1024

/-- `array_t` -/
structure ArrayT where
  arrayTable : Nat → KvsArrayItem
  arrayIdx : Nat

abbrev Arr (α : Type) := Exec ArrayT α

/-! ## The table -/

def getItem (i : Nat) : Arr KvsArrayItem := do
  if i < kvsArraySize then
    return (← get).arrayTable i
  else
    throw .outOfBounds

def setItem (i : Nat) (x : KvsArrayItem) : Arr Unit := do
  if i < kvsArraySize then
    modify fun s => { s with arrayTable := Function.update s.arrayTable i x }
  else
    throw .outOfBounds

def setArrayIdx (n : Nat) : Arr Unit := modify ({ · with arrayIdx := n })

/-- `strcmp`; either argument may be `NULL`. -/
def strcmpPtr (a b : Option CStr) : Arr Int := do
  let x ← argStr a
  let y ← argStr b
  return CStr.strcmp x y

/-- `for (i = 0; i < arr->array_idx; i++) body`; no body of this file goes on after it has changed
`array_idx`. -/
def forArrayIdx {ρ : Type} (body : Nat → Arr (Option ρ)) : Arr (Option ρ) := do
  forLoop body (← get).arrayIdx 0

/-! ## The engine interface -/

def kvstoreArrayCreate (alloc : AllocPlan) : Arr Int := do
  if alloc 0 then
    set (⟨fun _ => ⟨none, none⟩, 0⟩ : ArrayT)
    return 0
  else
    return -1

/-- The body of the loop of `kvs_array_set`. -/
def setBody (k v : CStr) (i : Nat) : Arr (Option Int) := do
  if (← getItem i).key = none then
    setItem i ⟨some k, some v⟩
    setArrayIdx ((← get).arrayIdx + 1)
    return some 0
  else
    return none

def kvsArraySet (alloc : AllocPlan) (key value : Option CStr) : Arr Int := do
  match key, value with
  | some k, some v =>
      if (← get).arrayIdx = kvsArraySize then
        return -1
      else if alloc 0 = false then
        return -1
      else if alloc 1 = false then
        -- `kcopy` is freed again
        return -1
      else
        match ← forArrayIdx (setBody k v) with
        | some r => return r
        | none =>
            let i := (← get).arrayIdx
            if i < kvsArraySize then
              setItem i ⟨some k, some v⟩
              setArrayIdx (i + 1)
            return 0
  | _, _ => return -1

/-- The body of the loop of `kvs_array_get`. -/
def getBody (key : Option CStr) (i : Nat) : Arr (Option (Option CStr)) := do
  if (← getItem i).key = none then
    return some none
  else if (← strcmpPtr (← getItem i).key key) = 0 then
    return some (← getItem i).value
  else
    return none

def kvsArrayGet (key : Option CStr) : Arr (Option CStr) := do
  match ← forArrayIdx (getBody key) with
  | some r => return r
  | none => return none

/-- The body of the loop of `kvs_array_delete`. -/
def deleteBody (k : CStr) (i : Nat) : Arr (Option Int) := do
  if (← strcmpPtr (← getItem i).key (some k)) = 0 then
    setItem i ⟨(← getItem i).key, none⟩
    setItem i ⟨none, none⟩
    setArrayIdx ((← get).arrayIdx - 1)
    return some 0
  else
    return none

def kvsArrayDelete (key : Option CStr) : Arr Int := do
  match key with
  | some k =>
      match ← forArrayIdx (deleteBody k) with
      | some r => return r
      | none => return (← get).arrayIdx
  | none => return -1

/-- The body of the loop of `kvs_array_modify`. -/
def modifyBody (alloc : AllocPlan) (k v : CStr) (i : Nat) : Arr (Option Int) := do
  if (← strcmpPtr (← getItem i).key (some k)) = 0 then
    setItem i ⟨(← getItem i).key, none⟩
    if alloc 0 = false then
      -- `strncpy` into `vcopy`, which is not checked
      throw .nullDeref
    else
      setItem i ⟨(← getItem i).key, some v⟩
      return some 0
  else
    return none

def kvsArrayModify (alloc : AllocPlan) (key value : Option CStr) : Arr Int := do
  match key, value with
  | some k, some v =>
      match ← forArrayIdx (modifyBody alloc k v) with
      | some r => return r
      | none => return (← get).arrayIdx
  | _, _ => return -1

def kvsArrayCount : Arr Int := do return (← get).arrayIdx

end KvStore.Array
