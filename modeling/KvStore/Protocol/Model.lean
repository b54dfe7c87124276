import KvStore.Array.Model
import KvStore.Hash.Model
import KvStore.Rbtree.Model
import KvStore.Spec

set_option autoImplicit false

/-! # The request dispatcher, as written

`kvstore_parser_protocol` of `kv_engine/kvstore.c`: it looks the first token up among the names of
the commands, calls an engine with the next two tokens, and prints what the engine returned into the
write buffer of the connection. The three engines are global, so their memories are the state.

The token array belongs to the caller, who fills as many entries as the message has words; the
others hold whatever was there. `conn_item` comes in through its write buffer only, and every caller
passes a connection, so the test for a `NULL` item is left out.
-/

namespace KvStore.Protocol

open KvStore.Lib

/-- `BUFFER_LENGTH` -/
def bufferLength : Nat := 512

/-- The globals `Array`, `Tree` and `Hash`. -/
structure Server where
  array : Array.ArrayT
  tree : Rbtree.State
  hash : Hash.State

abbrev Srv (α : Type) := Exec Server α

/-! ## The adaptation layer -/

section Adapters

variable {α : Type}

def Server.withArray (a : Array.ArrayT) (σ : Server) : Server := { σ with array := a }
def Server.withTree (t : Rbtree.State) (σ : Server) : Server := { σ with tree := t }
def Server.withHash (h : Hash.State) (σ : Server) : Server := { σ with hash := h }

def onArray (c : Array.Arr α) : Srv α := zoom Server.array Server.withArray c
def onTree (c : Rbtree.Rb α) : Srv α := zoom Server.tree Server.withTree c
def onHash (c : Hash.Hx α) : Srv α := zoom Server.hash Server.withHash c

end Adapters

def kvstoreArraySet (alloc : AllocPlan) (key value : Option CStr) : Srv Int :=
  onArray (Array.kvsArraySet alloc key value)

/-- The string itself, as the slots of the array hold strings and not pointers. -/
def kvstoreArrayGet (key : Option CStr) : Srv (Option CStr) := onArray (Array.kvsArrayGet key)

def kvstoreArrayDelete (key : Option CStr) : Srv Int := onArray (Array.kvsArrayDelete key)

def kvstoreArrayModify (alloc : AllocPlan) (key value : Option CStr) : Srv Int :=
  onArray (Array.kvsArrayModify alloc key value)

def kvstoreArrayCount : Srv Int := onArray Array.kvsArrayCount

def kvstoreRbtreeSet (alloc : AllocPlan) (key value : Option CStr) : Srv Int :=
  onTree (Rbtree.kvsRbtreeSet alloc key value)

def kvstoreRbtreeGet (key : Option CStr) : Srv Nat := onTree (Rbtree.kvsRbtreeGet key)

def kvstoreRbtreeDelete (key : Option CStr) : Srv Int := onTree (Rbtree.kvsRbtreeDelete key)

def kvstoreRbtreeModify (alloc : AllocPlan) (key value : Option CStr) : Srv Int :=
  onTree (Rbtree.kvsRbtreeModify alloc key value)

def kvstoreRbtreeCount : Srv Int := onTree Rbtree.kvsRbtreeCount

def kvstoreHashSet (alloc : AllocPlan) (key value : Option CStr) : Srv Int :=
  onHash (Hash.kvsHashSet alloc key value)

def kvstoreHashGet (key : Option CStr) : Srv Nat := onHash (Hash.kvsHashGet key)

def kvstoreHashDelete (key : Option CStr) : Srv Int := onHash (Hash.kvsHashDelete key)

def kvstoreHashModify (alloc : AllocPlan) (key value : Option CStr) : Srv Int :=
  onHash (Hash.kvsHashModify alloc key value)

def kvstoreHashCount : Srv Int := onHash Hash.kvsHashCount

/-! ## The commands -/

/-- The commands, in the order of the `enum`. -/
inductive Cmd where
  | set | get | del | mod | count
  | rset | rget | rdel | rmod | rcount
  | hset | hget | hdel | hmod | hcount
  deriving DecidableEq

/-- The entry of the table `commands` at the number of a command. -/
def Cmd.name : Cmd → CStr
  | .set => CStr.lit "SET"
  | .get => CStr.lit "GET"
  | .del => CStr.lit "DEL"
  | .mod => CStr.lit "MOD"
  | .count => CStr.lit "COUNT"
  | .rset => CStr.lit "RSET"
  | .rget => CStr.lit "RGET"
  | .rdel => CStr.lit "RDEL"
  | .rmod => CStr.lit "RMOD"
  | .rcount => CStr.lit "RCOUNT"
  | .hset => CStr.lit "HSET"
  | .hget => CStr.lit "HGET"
  | .hdel => CStr.lit "HDEL"
  | .hmod => CStr.lit "HMOD"
  | .hcount => CStr.lit "HCOUNT"

def commands : List Cmd :=
  [.set, .get, .del, .mod, .count, .rset, .rget, .rdel, .rmod, .rcount, .hset, .hget, .hdel, .hmod,
    .hcount]

/-- The loop over `commands`; `none` is `KVS_CMD_SIZE`. -/
def findCommand (token : CStr) : Option Cmd :=
  commands.find? fun cmd => CStr.strcmp cmd.name token = 0

/-! ## Replies

All fifteen cases of the `switch` print in one of four ways. -/

/-- `snprintf(msg, BUFFER_LENGTH, "%s", s)`: the buffer keeps room for the terminator. -/
def snprintf (s : CStr) : CStr :=
  ⟨s.bytes.take (bufferLength - 1), fun h => s.nul_notMem (List.mem_of_mem_take h)⟩

/-- The cases `SET`, `RSET` and `HSET`. -/
def setReply (res : Int) : CStr := if res = 0 then CStr.lit "SUCCESS" else CStr.lit "FAILED"

/-- The cases `GET`, `RGET` and `HGET`. -/
def getReply : Option CStr → CStr
  | some val => snprintf val
  | none => CStr.lit "NO EXIST"

/-- The cases `DEL` and `MOD`, `RDEL` and `RMOD`, `HDEL` and `HMOD`. -/
def changeReply (res : Int) : CStr :=
  if res < 0 then CStr.lit "ERROR" else if res = 0 then CStr.lit "SUCCESS" else CStr.lit "NO EXIST"

/-- The cases `COUNT`, `RCOUNT` and `HCOUNT`. -/
def countReply (count : Int) : CStr :=
  if count < 0 then CStr.lit "ERROR" else CStr.lit (Nat.repr count.toNat)

/-! ## The dispatcher -/

/-- The `switch` of `kvstore_parser_protocol`. -/
def execute (alloc : AllocPlan) (cmd : Cmd) (key value : Option CStr) : Srv CStr :=
  match cmd with
  | .set => do return setReply (← kvstoreArraySet alloc key value)
  | .get => do return getReply (← kvstoreArrayGet key)
  | .del => do return changeReply (← kvstoreArrayDelete key)
  | .mod => do return changeReply (← kvstoreArrayModify alloc key value)
  | .count => do return countReply (← kvstoreArrayCount)
  | .rset => do return setReply (← kvstoreRbtreeSet alloc key value)
  | .rget => do return getReply (← onTree (deref (← kvstoreRbtreeGet key)))
  | .rdel => do return changeReply (← kvstoreRbtreeDelete key)
  | .rmod => do return changeReply (← kvstoreRbtreeModify alloc key value)
  | .rcount => do return countReply (← kvstoreRbtreeCount)
  | .hset => do return setReply (← kvstoreHashSet alloc key value)
  | .hget => do return getReply (← onHash (deref (← kvstoreHashGet key)))
  | .hdel => do return changeReply (← kvstoreHashDelete key)
  | .hmod => do return changeReply (← kvstoreHashModify alloc key value)
  | .hcount => do return countReply (← kvstoreHashCount)

/-- The local array of the caller; a `NULL` entry is `none`. -/
abbrev Tokens := Nat → Option CStr

/-- `kvstore_parser_protocol`, with the string it leaves in `item->wbuffer`; `none` when it returns
`-1` at once and does not touch the buffer. -/
def kvstoreParserProtocol (alloc : AllocPlan) (tokens : Tokens) (count : Int) : Srv (Option CStr) :=
  match tokens 0 with
  | none => return none
  | some token => do
      if count = 0 then
        return none
      else
        match findCommand token with
        | some cmd => return some (← execute alloc cmd (tokens 1) (tokens 2))
        -- the `default` case reads `commands[KVS_CMD_SIZE]` before its `assert(0)`
        | none => throw .outOfBounds

end KvStore.Protocol
