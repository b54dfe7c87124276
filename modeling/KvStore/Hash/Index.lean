import KvStore.Hash.Runs
import KvStore.Lib.Avoids

set_option autoImplicit false

/-! # The slots that `_hash` finds

`_hash` adds the characters of the key, and `char` is signed. For a key that fits into a request the
sum is an `int` and less than the number of slots, so it is the index itself: a slot of the table if
and only if the characters do not add up to a negative number (`hash_index_valid_iff`). The bytes of
a UTF-8 letter outside ASCII are all negative (`hash_of_utf8`). -/

namespace KvStore.Hash

open KvStore.Lib

/-! ## The sum -/

theorem charValue_bounds (b : UInt8) : -128 ≤ charValue b ∧ charValue b ≤ 127 := by
  have hlow : -((256 : Nat) / 2 : Int) ≤ charValue b := Int.le_bmod (by omega)
  have hhigh : charValue b < ((256 : Nat) + 1) / 2 := Int.bmod_lt (by omega)
  generalize charValue b = c at hlow hhigh ⊢
  omega

theorem sum_charValue_bounds (bs : List UInt8) :
    -(128 * bs.length : Int) ≤ (bs.map charValue).sum ∧
    (bs.map charValue).sum ≤ 127 * bs.length := by
  induction bs with
  | nil => simp
  | cons b bs ih =>
      have hb := charValue_bounds b
      rw [List.map_cons, List.sum_cons, List.length_cons]
      push_cast
      omega

/-- The loop of `_hash` adds the characters up, as long as the sum is an `int`. -/
theorem hashSum_eq (bs : List UInt8) (sum : Int) (hlow : -2147483648 ≤ sum - 128 * bs.length)
    (hhigh : sum + 128 * bs.length < 2147483648) :
    hashSum bs sum = sum + (bs.map charValue).sum := by
  induction bs generalizing sum with
  | nil => simp [hashSum]
  | cons b bs ih =>
      have hb := charValue_bounds b
      rw [List.length_cons] at hlow hhigh
      push_cast at hlow hhigh
      have hadd : (sum + charValue b).bmod 4294967296 = sum + charValue b :=
        Int.bmod_eq_of_le_mul_two (by omega) (by omega)
      rw [hashSum, hadd, ih _ (by omega) (by omega), List.map_cons, List.sum_cons]
      omega

theorem hash_eq_sum {k : CStr} (hk : k.strlen ≤ 511) :
    hash (some k) maxTableSize = (k.bytes.map charValue).sum := by
  have hlen : k.bytes.length ≤ 511 := hk
  have hbounds := sum_charValue_bounds k.bytes
  have hsum := hashSum_eq k.bytes 0 (by omega) (by omega)
  rw [Int.zero_add] at hsum
  rw [hash, hsum, maxTableSize]
  rcases le_or_gt 0 (k.bytes.map charValue).sum with hnonneg | hneg
  · exact Int.tmod_eq_of_lt hnonneg (by push_cast; omega)
  · -- the remainder of a negative number is that of its absolute value, with the sign
    rw [← neg_neg (k.bytes.map charValue).sum, Int.neg_tmod]
    rw [Int.tmod_eq_of_lt (by omega) (by push_cast; omega)]

theorem inRange_iff_sum_nonneg {k : CStr} (hk : k.strlen ≤ 511) :
    InRange maxTableSize k ↔ 0 ≤ (k.bytes.map charValue).sum := by
  have hlen : k.bytes.length ≤ 511 := hk
  have hbounds := sum_charValue_bounds k.bytes
  rw [InRange, hash_eq_sum hk, maxTableSize]
  constructor
  · exact And.left
  · intro hnonneg
    refine ⟨hnonneg, ?_⟩
    push_cast
    omega

/-! ## The accesses -/

section Accesses

variable {size : Nat} {k v : CStr}

theorem avoids_getSlot (h : InRange size k) :
    Avoids .outOfBounds (getSlot size (hash (some k) size)) := by
  rw [getSlot, if_pos (show 0 ≤ hash (some k) size ∧ hash (some k) size < size from h)]
  refine avoids_bind avoids_readDesc fun t => ?_
  cases t.nodes (hash (some k) size).toNat with
  | none => exact avoids_throw (by decide)
  | some p => exact avoids_pure p

theorem avoids_setSlot (h : InRange size k) (p : Nat) :
    Avoids .outOfBounds (setSlot size (hash (some k) size) p) := by
  rw [setSlot, if_pos (show 0 ≤ hash (some k) size ∧ hash (some k) size < size from h)]
  exact avoids_writeDesc _

theorem avoids_findNode (p : Nat) : Avoids .outOfBounds (findNode k p) := by
  refine avoids_whileLoop (fun node => ?_) p
  refine avoids_ite (fun _ => ?_) fun _ => avoids_pure _
  refine avoids_bind (avoids_readField _ _) fun _ => avoids_bind (avoids_readStr _) fun _ => ?_
  exact avoids_ite (fun _ => avoids_pure _)
    fun _ => avoids_bind (avoids_readField _ _) fun _ => avoids_pure _

theorem avoids_createNode (alloc : AllocPlan) : Avoids .outOfBounds (createNode alloc k v) := by
  refine avoids_bind (avoids_mallocNode _ _) fun node => ?_
  refine avoids_ite (fun _ => avoids_pure 0) fun _ => ?_
  refine avoids_bind (avoids_mallocStr _ _) fun _ => avoids_bind (avoids_writeField _ _) fun _ => ?_
  refine avoids_bind (avoids_readField _ _) fun _ => ?_
  refine avoids_ite (fun _ => ?_) fun _ => ?_
  · exact avoids_bind (avoids_free _) fun _ => avoids_pure 0
  · refine avoids_bind (avoids_readField _ _) fun _ => avoids_bind (avoids_strcpy _ _) fun _ => ?_
    refine avoids_bind (avoids_mallocStr _ _)
      fun _ => avoids_bind (avoids_writeField _ _) fun _ => ?_
    refine avoids_bind (avoids_readField _ _) fun _ => avoids_ite (fun _ => ?_) fun _ => ?_
    · refine avoids_bind (avoids_readField _ _) fun _ => avoids_bind (avoids_free _) fun _ => ?_
      exact avoids_bind (avoids_free _) fun _ => avoids_pure 0
    · refine avoids_bind (avoids_readField _ _) fun _ => avoids_bind (avoids_strcpy _ _) fun _ => ?_
      exact avoids_bind (avoids_writeField _ _) fun _ => avoids_pure _

theorem avoids_putKvHashtable (alloc : AllocPlan) (h : InRange size k) :
    Avoids .outOfBounds (putKvHashtable alloc size (some k) (some v)) := by
  refine avoids_bind (avoids_getSlot h) fun _ => avoids_bind (avoids_findNode _) fun _ => ?_
  refine avoids_ite (fun _ => avoids_pure 1) fun _ => ?_
  refine avoids_bind (avoids_createNode alloc) fun _ => avoids_bind (avoids_getSlot h) fun _ => ?_
  refine avoids_bind (avoids_writeField _ _) fun _ => avoids_bind (avoids_setSlot h _) fun _ => ?_
  exact avoids_bind (avoids_writeDesc _) fun _ => avoids_pure 0

theorem avoids_getKvHashtable (h : InRange size k) :
    Avoids .outOfBounds (getKvHashtable size (some k)) := by
  refine avoids_bind (avoids_getSlot h) fun _ => avoids_bind (avoids_findNode _) fun _ => ?_
  exact avoids_ite (fun _ => avoids_readField _ _) fun _ => avoids_pure 0

theorem avoids_freeNode (p : Nat) : Avoids .outOfBounds (freeNode p) := by
  have hvalue : Avoids .outOfBounds (do
      if (← getValue p) ≠ 0 then
        free (← getValue p)
      free p : Hx Unit) := by
    refine avoids_bind (avoids_readField _ _)
      fun _ => avoids_ite (fun _ => ?_) fun _ => avoids_free p
    refine avoids_bind (avoids_readField _ _)
      fun _ => avoids_bind (avoids_free _) fun _ => avoids_free p
  refine avoids_bind (avoids_readField _ _) fun _ => avoids_ite (fun _ => ?_) fun _ => hvalue
  exact avoids_bind (avoids_readField _ _) fun _ => avoids_bind (avoids_free _) fun _ => hvalue

theorem avoids_deleteLoop (p : Nat) : Avoids .outOfBounds (whileLoop (deleteStep k) p) := by
  refine avoids_whileLoop (fun cur => ?_) p
  refine avoids_bind (avoids_readField _ _) fun _ => avoids_ite (fun _ => ?_) fun _ => avoids_pure _
  refine avoids_bind (avoids_readField _ _) fun _ => avoids_bind (avoids_readField _ _) fun _ => ?_
  refine avoids_bind (avoids_readStr _) fun _ => avoids_ite (fun _ => avoids_pure _) fun _ => ?_
  exact avoids_bind (avoids_readField _ _) fun _ => avoids_pure _

theorem avoids_deleteKvHashtable (h : InRange size k) :
    Avoids .outOfBounds (deleteKvHashtable size (some k)) := by
  refine avoids_bind (avoids_getSlot h) fun head => avoids_ite (fun _ => avoids_pure _) fun _ => ?_
  refine avoids_bind (avoids_readField _ _) fun _ => avoids_bind (avoids_readStr _) fun _ => ?_
  refine avoids_ite (fun _ => ?_) fun _ => ?_
  · refine avoids_bind (avoids_readField _ _) fun _ => avoids_bind (avoids_setSlot h _) fun _ => ?_
    refine avoids_bind (avoids_freeNode _)
      fun _ => avoids_bind (avoids_writeDesc _) fun _ => avoids_pure 0
  · refine avoids_bind (avoids_deleteLoop head)
      fun _ => avoids_bind (avoids_readField _ _) fun _ => ?_
    refine avoids_ite (fun _ => avoids_pure _) fun _ => ?_
    refine avoids_bind (avoids_readField _ _)
      fun _ => avoids_bind (avoids_readField _ _) fun _ => ?_
    refine avoids_bind (avoids_writeField _ _) fun _ => avoids_bind (avoids_freeNode _) fun _ => ?_
    exact avoids_bind (avoids_writeDesc _) fun _ => avoids_pure 0

theorem avoids_modifyKvHashtable (alloc : AllocPlan) (h : InRange size k) :
    Avoids .outOfBounds (modifyKvHashtable alloc size (some k) (some v)) := by
  refine avoids_bind (avoids_getSlot h) fun _ => avoids_bind (avoids_findNode _) fun _ => ?_
  refine avoids_ite (fun _ => ?_) fun _ => avoids_pure _
  refine avoids_bind (avoids_readField _ _) fun _ => avoids_bind (avoids_free _) fun _ => ?_
  refine avoids_bind (avoids_mallocStr _ _) fun _ => avoids_bind (avoids_writeField _ _) fun _ => ?_
  refine avoids_bind (avoids_readField _ _)
    fun _ => avoids_ite (fun _ => ?_) fun _ => avoids_throw (by decide)
  refine avoids_bind (avoids_readField _ _)
    fun _ => avoids_bind (avoids_strcpy _ _) fun _ => avoids_pure 0

theorem avoids_call (alloc : AllocPlan) (o : Op) (h : InRange maxTableSize o.key) :
    Avoids .outOfBounds (call alloc o) := by
  cases o with
  | set k v => exact avoids_bind (avoids_putKvHashtable alloc h) fun _ => avoids_pure _
  | get k =>
      refine avoids_bind (avoids_getKvHashtable h) fun p => avoids_bind ?_ fun _ => avoids_pure _
      exact avoids_ite (fun _ => avoids_pure none) fun _ =>
        avoids_bind (avoids_readStr _) fun _ => avoids_pure _
  | delete k => exact avoids_bind (avoids_deleteKvHashtable h) fun _ => avoids_pure _
  | modify k v => exact avoids_bind (avoids_modifyKvHashtable alloc h) fun _ => avoids_pure _

/-- A call with an index outside the table goes wrong at its first access. -/
theorem call_outOfBounds (alloc : AllocPlan) (o : Op) (h : ¬InRange maxTableSize o.key)
    (s : State) : (call alloc o).run s = .error .outOfBounds := by
  have hslot : ∀ k, ¬InRange maxTableSize k →
      (getSlot maxTableSize (hash (some k) maxTableSize)).run s = .error .outOfBounds := by
    intro k hk
    rw [getSlot, if_neg
      (show ¬(0 ≤ hash (some k) maxTableSize ∧ hash (some k) maxTableSize < maxTableSize) from hk)]
    rfl
  cases o with
  | set k v => exact run_bind_error (run_bind_error (hslot k h))
  | get k => exact run_bind_error (run_bind_error (hslot k h))
  | delete k => exact run_bind_error (run_bind_error (hslot k h))
  | modify k v => exact run_bind_error (run_bind_error (hslot k h))

end Accesses

/-- **When the index is a slot**: for a key of at most 511 bytes, `_hash` is a slot of the table,
and the calls with this key stay inside the table, if and only if the characters, as signed numbers,
do not add up to a negative number. -/
theorem hash_index_valid_iff (k : CStr) (hk : k.strlen ≤ 511) :
    (0 ≤ hash (some k) maxTableSize ∧ hash (some k) maxTableSize < maxTableSize ↔
        0 ≤ (k.bytes.map charValue).sum) ∧
      ((∀ alloc o, o.key = k → ∀ s, (call alloc o).run s ≠ .error .outOfBounds) ↔
        0 ≤ (k.bytes.map charValue).sum) := by
  have hiff := inRange_iff_sum_nonneg hk
  refine ⟨hiff, ?_⟩
  rw [← hiff]
  constructor
  · intro hcalls
    by_contra hrange
    let s : State := ⟨fun _ => none, fun _ => none, 1, ⟨fun _ => none, 0, 0⟩⟩
    exact hcalls allOk (.get k) rfl s (call_outOfBounds allOk (.get k) hrange s)
  · rintro hrange alloc o rfl s
    exact avoids_call alloc o hrange s

theorem hash_index_valid_sample :
    (CStr.lit "Name0").strlen ≤ 511 ∧ 0 ≤ ((CStr.lit "Name0").bytes.map charValue).sum ∧
      0 ≤ hash (some (CStr.lit "Name0")) maxTableSize :=
  ⟨by decide, by decide, ((hash_index_valid_iff _ (by decide)).1.mpr (by decide)).1⟩

/-- The two bytes of the letter é. -/
def eAcute : CStr := ⟨[0xC3, 0xA9], by decide⟩

theorem hash_of_utf8 :
    eAcute.strlen ≤ 511 ∧ hash (some eAcute) maxTableSize = -148 ∧
      ¬(0 ≤ hash (some eAcute) maxTableSize ∧ hash (some eAcute) maxTableSize < maxTableSize) := by
  decide

end KvStore.Hash
