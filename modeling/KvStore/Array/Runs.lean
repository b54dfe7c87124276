import KvStore.Array.Scan
import KvStore.Spec

set_option autoImplicit false

/-! # Runs of the array engine

`array_idx` counts the occupied slots and also bounds every walk over the table, while a delete
leaves its slot empty wherever it is. The count is right in every reachable state, and a set never
overwrites an entry (`reachable_occupancy`). What a walk can see is another matter: an entry behind
a hole is not read (`delete_keeps_get_iff`), a delete or modify that comes to a hole compares `NULL`
(`runs_without_null_iff`), and an entry behind a hole comes back when the hole is filled
(`stays_deleted_iff`).
-/

namespace KvStore.Array

open KvStore.Lib

/-! ## The client -/

/-- A call of the engine; any argument may be `NULL`. -/
inductive Call where
  | set (key value : Option CStr)
  | get (key : Option CStr)
  | delete (key : Option CStr)
  | modify (key value : Option CStr)

def call (alloc : AllocPlan) : Call → Arr Outcome
  | .set k v => do return .code (← kvsArraySet alloc k v)
  | .get k => do return .value (← kvsArrayGet k)
  | .delete k => do return .code (← kvsArrayDelete k)
  | .modify k v => do return .code (← kvsArrayModify alloc k v)

/-- A call together with the outcome of its allocations. -/
def planned (c : AllocPlan × Call) : Arr Outcome := call c.1 c.2

/-- The table after `kvstore_array_create`. -/
def created : ArrayT := ⟨fun _ => ⟨none, none⟩, 0⟩

/-- The states that calls lead to which do not go wrong, whether their allocations succeed or
not. -/
def Reachable (s : ArrayT) : Prop := Reach planned created s

/-! ## What a call can do -/

/-- The changes a call can make. -/
inductive Moves (s : ArrayT) : Call → ArrayT → Prop
  | stay (c : Call) : Moves s c s
  | fill {k v : CStr} {i : Nat} : FreeSlot s i → s.arrayIdx < kvsArraySize →
      Moves s (.set (some k) (some v)) (write s i ⟨some k, some v⟩ (s.arrayIdx + 1))
  | clear {k : CStr} {i : Nat} : Finds s k i →
      Moves s (.delete (some k)) (write s i ⟨none, none⟩ (s.arrayIdx - 1))
  | replace {k v : CStr} {i : Nat} : Finds s k i →
      Moves s (.modify (some k) (some v)) (write s i ⟨some k, some v⟩ s.arrayIdx)

variable {s s' : ArrayT} {r : Outcome}

/-- A run of `f` and then the packing of its result. -/
theorem run_packed {α : Type} {f : Arr α} {g : α → Outcome}
    (h : (do return g (← f) : Arr Outcome).run s = .ok (r, s')) :
    ∃ a, f.run s = .ok (a, s') ∧ r = g a := by
  cases hf : f.run s with
  | error e =>
      rw [run_bind_error hf] at h
      cases h
  | ok p =>
      obtain ⟨a, s₁⟩ := p
      rw [run_bind_ok hf, run_pure] at h
      cases h
      exact ⟨a, rfl, rfl⟩

/-- `kvs_array_get` changes nothing, also when its key is `NULL`. -/
theorem kvsArrayGet_state (hs : s.arrayIdx ≤ kvsArraySize) {key r : Option CStr}
    (h : (kvsArrayGet key).run s = .ok (r, s')) : s' = s := by
  cases key with
  | some k =>
      by_cases hf : ∃ i, Finds s k i
      · obtain ⟨i, hi⟩ := hf
        rw [kvsArrayGet_of_finds hs hi] at h
        cases h
        rfl
      · rw [kvsArrayGet_of_not_finds hs (not_exists.mp hf)] at h
        cases h
        rfl
  | none =>
      by_cases hfront : s.arrayIdx = 0 ∨ keyAt s 0 = none
      · rw [kvsArrayGet_of_front hs hfront] at h
        cases h
        rfl
      · rw [not_or] at hfront
        rw [kvsArrayGet_null hs (Nat.pos_of_ne_zero hfront.1) hfront.2] at h
        cases h

theorem call_moves {alloc : AllocPlan} {c : Call}
    (hs : s.arrayIdx ≤ kvsArraySize) (h : (call alloc c).run s = .ok (r, s')) : Moves s c s' := by
  cases c with
  | set key value =>
      obtain ⟨a, hrun, -⟩ := run_packed h
      cases key with
      | none => cases hrun; exact .stay _
      | some k =>
          cases value with
          | none => cases hrun; exact .stay _
          | some v =>
              rcases Nat.eq_or_lt_of_le hs with hfull | hlt
              · rw [kvsArraySet_full hfull] at hrun
                cases hrun
                exact .stay _
              · by_cases ha : alloc 0 = true ∧ alloc 1 = true
                · obtain ⟨i, hi⟩ := exists_freeSlot s
                  rw [kvsArraySet_of_freeSlot hi hlt ha] at hrun
                  cases hrun
                  exact .fill hi hlt
                · rw [kvsArraySet_failed ha] at hrun
                  cases hrun
                  exact .stay _
  | get key =>
      obtain ⟨a, hrun, -⟩ := run_packed h
      rw [kvsArrayGet_state hs hrun]
      exact .stay _
  | delete key =>
      obtain ⟨a, hrun, -⟩ := run_packed h
      cases key with
      | none => cases hrun; exact .stay _
      | some k =>
          rcases scan_cases s k with ⟨i, hi⟩ | ⟨i, hi⟩ | hmiss
          · rw [kvsArrayDelete_of_finds hs hi] at hrun
            cases hrun
            exact .clear hi
          · rw [kvsArrayDelete_of_hitsHole hs hi] at hrun
            cases hrun
          · rw [kvsArrayDelete_of_misses hs hmiss] at hrun
            cases hrun
            exact .stay _
  | modify key value =>
      obtain ⟨a, hrun, -⟩ := run_packed h
      cases key with
      | none => cases hrun; exact .stay _
      | some k =>
          cases value with
          | none => cases hrun; exact .stay _
          | some v =>
              rcases scan_cases s k with ⟨i, hi⟩ | ⟨i, hi⟩ | hmiss
              · cases ha : alloc 0 with
                | true =>
                    rw [kvsArrayModify_of_finds hs hi ha] at hrun
                    cases hrun
                    exact .replace hi
                | false =>
                    rw [kvsArrayModify_of_finds_failed hs hi ha] at hrun
                    cases hrun
              · rw [kvsArrayModify_of_hitsHole hs hi] at hrun
                cases hrun
              · rw [kvsArrayModify_of_misses hs hmiss] at hrun
                cases hrun
                exact .stay _

/-! ## Occupancy -/

/-- The occupied slots of the table. -/
def occupied (s : ArrayT) : Finset Nat :=
  (Finset.range kvsArraySize).filter fun i => keyAt s i ≠ none

theorem mem_occupied {i : Nat} : i ∈ occupied s ↔ i < kvsArraySize ∧ keyAt s i ≠ none := by
  rw [occupied, Finset.mem_filter, Finset.mem_range]

/-- **The invariant of the engine**: `array_idx` counts the occupied slots, and an occupied slot has
a value. -/
structure Inv (s : ArrayT) : Prop where
  idx : s.arrayIdx = (occupied s).card
  paired : ∀ i, keyAt s i ≠ none → valueAt s i ≠ none

section Occupancy

variable {s : ArrayT} {i : Nat}

theorem Inv.le (h : Inv s) : s.arrayIdx ≤ kvsArraySize := by
  rw [h.idx]
  refine (Finset.card_filter_le _ _).trans ?_
  rw [Finset.card_range]

theorem Finds.mem_occupied {k : CStr} (h : Finds s k i) (hinv : Inv s) : i ∈ occupied s := by
  have hlt := h.lt
  have hle := hinv.le
  exact Array.mem_occupied.mpr ⟨by omega, by rw [h.key]; simp⟩

/-- When the first `array_idx` slots are full, no other slot is. -/
theorem Inv.empty_above (h : Inv s) (hfull : ∀ j < s.arrayIdx, keyAt s j ≠ none)
    (hi : s.arrayIdx ≤ i) (hlt : i < kvsArraySize) : keyAt s i = none := by
  by_contra hne
  have hsub : insert i (Finset.range s.arrayIdx) ⊆ occupied s := by
    intro j hj
    rw [mem_occupied]
    rcases Finset.mem_insert.mp hj with rfl | hj'
    · exact ⟨hlt, hne⟩
    · rw [Finset.mem_range] at hj'
      exact ⟨by omega, hfull j hj'⟩
  have hcard := Finset.card_le_card hsub
  rw [Finset.card_insert_of_notMem (by simpa using hi), Finset.card_range, ← h.idx] at hcard
  omega

/-- The slot a set takes is free. -/
theorem FreeSlot.free (h : FreeSlot s i) (hinv : Inv s) (hlt : s.arrayIdx < kvsArraySize) :
    keyAt s i = none := by
  rcases Nat.eq_or_lt_of_le h.le with rfl | hidx
  · exact hinv.empty_above h.full le_rfl hlt
  · exact h.hole hidx

theorem occupied_write_some {k : CStr} {v : Option CStr} {n : Nat} (hi : i < kvsArraySize) :
    occupied (write s i ⟨some k, v⟩ n) = insert i (occupied s) := by
  ext j
  rw [Finset.mem_insert, mem_occupied, mem_occupied, keyAt_write]
  by_cases hj : j = i
  · subst hj; simp [hi]
  · simp [hj]

theorem occupied_write_none {v : Option CStr} {n : Nat} :
    occupied (write s i ⟨none, v⟩ n) = (occupied s).erase i := by
  ext j
  rw [Finset.mem_erase, mem_occupied, mem_occupied, keyAt_write]
  by_cases hj : j = i
  · subst hj; simp
  · simp [hj]

theorem paired_write {x : KvsArrayItem} {n : Nat} (h : Inv s) (hx : x.key ≠ none → x.value ≠ none) :
    ∀ j, keyAt (write s i x n) j ≠ none → valueAt (write s i x n) j ≠ none := by
  intro j
  rw [keyAt_write, valueAt_write]
  by_cases hj : j = i
  · rw [if_pos hj, if_pos hj]
    exact hx
  · rw [if_neg hj, if_neg hj]
    exact h.paired j

/-- Every change keeps the invariant. -/
theorem Moves.inv {c : Call} (hm : Moves s c s') (h : Inv s) : Inv s' := by
  have hle := h.le
  cases hm with
  | stay => exact h
  | fill hi hlt =>
      refine ⟨?_, paired_write h (by simp)⟩
      have hile := hi.le
      have hout : _ ∉ occupied s := fun hmem => (mem_occupied.mp hmem).2 (hi.free h hlt)
      rw [write_idx, occupied_write_some (by omega), Finset.card_insert_of_notMem hout, ← h.idx]
  | clear hi =>
      refine ⟨?_, paired_write h (by simp)⟩
      rw [write_idx, occupied_write_none, Finset.card_erase_of_mem (hi.mem_occupied h), ← h.idx]
  | replace hi =>
      refine ⟨?_, paired_write h (by simp)⟩
      have hlt := hi.lt
      rw [write_idx, occupied_write_some (by omega), Finset.insert_eq_of_mem (hi.mem_occupied h),
        ← h.idx]

end Occupancy

theorem inv_created : Inv created := by
  refine ⟨?_, fun i h => absurd rfl h⟩
  have hempty : occupied created = ∅ := by
    ext i
    simp [mem_occupied, keyAt, created]
  rw [hempty]
  rfl

theorem call_inv {alloc : AllocPlan} {c : Call} (h : Inv s)
    (hrun : (call alloc c).run s = .ok (r, s')) : Inv s' :=
  (call_moves h.le hrun).inv h

theorem planned_inv {c : AllocPlan × Call} (h : Inv s)
    (hrun : (planned c).run s = .ok (r, s')) : Inv s' :=
  call_inv h hrun

theorem Reachable.inv (h : Reachable s) : Inv s :=
  Reach.invariant (fun _ _ _ _ => planned_inv) inv_created h

/-- **Occupancy accounting.** In every reachable state `array_idx` is the number of occupied slots
and at most the size of the table. A set with a key and a value fails exactly when every slot is
occupied; otherwise it writes the pair into a slot of the table that was empty, and nothing
else. -/
theorem reachable_occupancy (s : ArrayT) (hs : Reachable s) :
    s.arrayIdx = (occupied s).card ∧ s.arrayIdx ≤ kvsArraySize ∧
      ∀ k v : CStr,
        ((∀ i < kvsArraySize, keyAt s i ≠ none) →
          (kvsArraySet allOk (some k) (some v)).run s = .ok (-1, s)) ∧
        ((∃ i < kvsArraySize, keyAt s i = none) →
          ∃ i < kvsArraySize, keyAt s i = none ∧
            (kvsArraySet allOk (some k) (some v)).run s
              = .ok (0, write s i ⟨some k, some v⟩ (s.arrayIdx + 1))) := by
  have hinv := hs.inv
  refine ⟨hinv.idx, hinv.le, fun k v => ⟨fun hfull => ?_, ?_⟩⟩
  · refine kvsArraySet_full ?_ allOk k v
    have hall : occupied s = Finset.range kvsArraySize :=
      Finset.filter_true_of_mem fun i hi => hfull i (Finset.mem_range.mp hi)
    rw [hinv.idx, hall, Finset.card_range]
  · rintro ⟨j, hj, hjnone⟩
    have hlt : s.arrayIdx < kvsArraySize := by
      have hsub : occupied s ⊆ (Finset.range kvsArraySize).erase j := by
        intro i hi
        obtain ⟨hisize, hikey⟩ := mem_occupied.mp hi
        refine Finset.mem_erase.mpr ⟨?_, Finset.mem_range.mpr hisize⟩
        rintro rfl
        exact hikey hjnone
      have hcard := Finset.card_le_card hsub
      rw [Finset.card_erase_of_mem (Finset.mem_range.mpr hj), Finset.card_range, ← hinv.idx]
        at hcard
      omega
    obtain ⟨i, hi⟩ := exists_freeSlot s
    have hile := hi.le
    exact ⟨i, by omega, hi.free hinv hlt, kvsArraySet_of_freeSlot hi hlt ⟨rfl, rfl⟩ k v⟩

/-- The table after sets of `a` and `b` and a delete of `a`, which clears the value before the
key. -/
def withHole : ArrayT :=
  write (write (write (write created 0 ⟨some (CStr.lit "a"), some (CStr.lit "1")⟩ 1) 1
    ⟨some (CStr.lit "b"), some (CStr.lit "2")⟩ 2) 0 ⟨some (CStr.lit "a"), none⟩ 2) 0 ⟨none, none⟩ 1

/-- One entry is left, behind a hole, and there is room for another one. -/
theorem occupancy_withHole :
    Reachable withHole ∧ keyAt withHole 0 = none ∧ (occupied withHole).card = 1 ∧
      ∃ i < kvsArraySize, keyAt withHole i = none ∧
        (kvsArraySet allOk (some (CStr.lit "c")) (some (CStr.lit "3"))).run withHole
          = .ok (0, write withHole i ⟨some (CStr.lit "c"), some (CStr.lit "3")⟩ 2) := by
  have hreach : Reachable withHole :=
    ⟨[(allOk, .set (some (CStr.lit "a")) (some (CStr.lit "1"))),
      (allOk, .set (some (CStr.lit "b")) (some (CStr.lit "2"))),
      (allOk, .delete (some (CStr.lit "a")))], [.code 0, .code 0, .code 0], rfl⟩
  obtain ⟨hcard, -, hset⟩ := reachable_occupancy withHole hreach
  exact ⟨hreach, rfl, hcard.symm, (hset _ _).2 ⟨0, by decide, rfl⟩⟩

/-! ## Entries behind a hole -/

section Delete

variable {s : ArrayT} {k k' : CStr} {i j : Nat}

/-- An entry in front of the slot that is cleared is still found. -/
theorem Finds.write_none_of_lt (hi : i < s.arrayIdx) (hj : Finds s k' j) (hlt : j < i) :
    Finds (write s i ⟨none, none⟩ (s.arrayIdx - 1)) k' j where
  lt := by rw [write_idx]; omega
  key := by rw [keyAt_write, if_neg (by omega)]; exact hj.key
  passes j' hj' := by
    rw [keyAt_write, if_neg (by omega)]
    exact hj.passes j' hj'

/-- What is found after a slot was cleared lies in front of it. -/
theorem Finds.of_write_none {n : Nat} (hj : Finds (write s i ⟨none, none⟩ n) k' j)
    (hn : n ≤ s.arrayIdx) : j < i ∧ Finds s k' j := by
  have hlt : j < i := by
    by_contra hge
    rcases Nat.eq_or_lt_of_le (Nat.le_of_not_lt hge) with heq | hgt
    · have hkey := hj.key
      rw [keyAt_write, if_pos heq.symm] at hkey
      cases hkey
    · have hpass := (hj.passes i hgt).1
      rw [keyAt_write, if_pos rfl] at hpass
      exact hpass rfl
  have hidx := hj.lt
  have hkey := hj.key
  rw [write_idx] at hidx
  rw [keyAt_write, if_neg (by omega)] at hkey
  refine ⟨hlt, by omega, hkey, fun j' hj' => ?_⟩
  have hpass := hj.passes j' hj'
  rwa [keyAt_write, if_neg (by omega)] at hpass

/-- What a delete that returns `0` has done: it has cleared the slot it found, or the table is
empty (the loop index, which is returned, is then `0` too). -/
theorem delete_zero (hs : s.arrayIdx ≤ kvsArraySize)
    (h : (kvsArrayDelete (some k)).run s = .ok (0, s')) :
    (∃ i, Finds s k i ∧ s' = write s i ⟨none, none⟩ (s.arrayIdx - 1)) ∨
      s.arrayIdx = 0 ∧ s' = s := by
  rcases scan_cases s k with ⟨i, hi⟩ | ⟨i, hi⟩ | hmiss
  · rw [kvsArrayDelete_of_finds hs hi] at h
    cases h
    exact Or.inl ⟨i, hi, rfl⟩
  · rw [kvsArrayDelete_of_hitsHole hs hi] at h
    cases h
  · rw [kvsArrayDelete_of_misses hs hmiss] at h
    injection h with h
    rw [Prod.mk.injEq] at h
    exact Or.inr ⟨by exact_mod_cast h.1, h.2.symm⟩

end Delete

/-- **When deleting a key leaves another readable**: exactly when the other key is not found behind
the slot that is cleared. -/
theorem delete_keeps_get_iff (s s' : ArrayT) (hs : Reachable s) (k k' : CStr) (hne : k ≠ k')
    (hdel : (kvsArrayDelete (some k)).run s = .ok (0, s')) :
    (∃ r, (kvsArrayGet (some k')).run s = .ok (r, s) ∧
      (kvsArrayGet (some k')).run s' = .ok (r, s')) ↔
      ¬∃ i j, Finds s k i ∧ Finds s k' j ∧ i < j := by
  have hinv := hs.inv
  have hle := hinv.le
  rcases delete_zero hle hdel with ⟨i, hi, rfl⟩ | ⟨h0, rfl⟩
  · have hle' : (write s i ⟨none, none⟩ (s.arrayIdx - 1)).arrayIdx ≤ kvsArraySize := by
      rw [write_idx]
      omega
    by_cases hf : ∃ j, Finds s k' j
    · obtain ⟨j, hj⟩ := hf
      have hji : j ≠ i := by
        rintro rfl
        have hkey := hj.key
        rw [hi.key] at hkey
        exact hne (Option.some.inj hkey)
      rcases Nat.lt_or_ge j i with hlt | hge
      · -- in front of the hole: found there before and after
        have hj' := hj.write_none_of_lt hi.lt hlt
        have hval : valueAt (write s i ⟨none, none⟩ (s.arrayIdx - 1)) j = valueAt s j := by
          rw [valueAt_write, if_neg hji]
        have hboth : ∃ r, (kvsArrayGet (some k')).run s = .ok (r, s) ∧
            (kvsArrayGet (some k')).run (write s i ⟨none, none⟩ (s.arrayIdx - 1))
              = .ok (r, write s i ⟨none, none⟩ (s.arrayIdx - 1)) :=
          ⟨_, kvsArrayGet_of_finds hle hj, by rw [kvsArrayGet_of_finds hle' hj', hval]⟩
        refine iff_of_true hboth ?_
        rintro ⟨i', j', hi', hj'', hlt'⟩
        rw [hi'.unique hi, hj''.unique hj] at hlt'
        omega
      · -- behind the hole: not found any more
        have hnone : ∀ j', ¬Finds (write s i ⟨none, none⟩ (s.arrayIdx - 1)) k' j' := by
          intro j' hj'
          obtain ⟨hlt, hold⟩ := hj'.of_write_none (Nat.sub_le ..)
          rw [hold.unique hj] at hlt
          omega
        refine iff_of_false ?_ (not_not_intro ⟨i, j, hi, hj, by omega⟩)
        rintro ⟨r, hbefore, hafter⟩
        rw [kvsArrayGet_of_finds hle hj] at hbefore
        rw [kvsArrayGet_of_not_finds hle' hnone] at hafter
        cases hafter
        injection hbefore with hbefore
        exact hinv.paired j (by rw [hj.key]; simp) (congrArg Prod.fst hbefore)
    · -- not found before, and not after
      have hno := not_exists.mp hf
      have hnone : ∀ j', ¬Finds (write s i ⟨none, none⟩ (s.arrayIdx - 1)) k' j' := fun j' hj' =>
        hno j' (hj'.of_write_none (Nat.sub_le ..)).2
      refine iff_of_true ⟨none, kvsArrayGet_of_not_finds hle hno,
        kvsArrayGet_of_not_finds hle' hnone⟩ ?_
      rintro ⟨i', j', -, hj', -⟩
      exact hno j' hj'
  · -- nothing was deleted
    have hno : ∀ j, ¬Finds s' k' j := by
      intro j hj
      have := hj.lt
      omega
    refine iff_of_true ⟨none, kvsArrayGet_of_not_finds hle hno, kvsArrayGet_of_not_finds hle hno⟩ ?_
    rintro ⟨i', j', -, hj', -⟩
    exact hno j' hj'

/-- The table after two sets. -/
def twoEntries : ArrayT :=
  write (write created 0 ⟨some (CStr.lit "a"), some (CStr.lit "1")⟩ 1) 1
    ⟨some (CStr.lit "b"), some (CStr.lit "2")⟩ 2

theorem reachable_twoEntries : Reachable twoEntries :=
  ⟨[(allOk, .set (some (CStr.lit "a")) (some (CStr.lit "1"))),
    (allOk, .set (some (CStr.lit "b")) (some (CStr.lit "2")))], [.code 0, .code 0], rfl⟩

theorem twoEntries_finds_a : Finds twoEntries (CStr.lit "a") 0 := ⟨by decide, rfl, nofun⟩

theorem twoEntries_finds_b : Finds twoEntries (CStr.lit "b") 1 := by
  refine ⟨by decide, rfl, fun j hj => ?_⟩
  obtain rfl : j = 0 := by omega
  exact ⟨by decide, by decide⟩

/-- Deleting the second of two entries leaves the first readable. -/
theorem delete_second_keeps_first :
    ∃ r, (kvsArrayGet (some (CStr.lit "a"))).run twoEntries = .ok (r, twoEntries) ∧
      (kvsArrayGet (some (CStr.lit "a"))).run (write twoEntries 1 ⟨none, none⟩ 1)
        = .ok (r, write twoEntries 1 ⟨none, none⟩ 1) := by
  refine (delete_keeps_get_iff twoEntries _ reachable_twoEntries (CStr.lit "b") (CStr.lit "a")
    (by decide) (kvsArrayDelete_of_finds (by decide) twoEntries_finds_b)).mpr ?_
  rintro ⟨i, j, hi, hj, hlt⟩
  rw [hi.unique twoEntries_finds_b, hj.unique twoEntries_finds_a] at hlt
  omega

/-- Deleting the first of two entries hides the second. -/
theorem delete_first_hides_second :
    Reachable twoEntries ∧ ∃ s',
      (kvsArrayDelete (some (CStr.lit "a"))).run twoEntries = .ok (0, s') ∧
      (kvsArrayGet (some (CStr.lit "b"))).run twoEntries = .ok (some (CStr.lit "2"), twoEntries) ∧
        (kvsArrayGet (some (CStr.lit "b"))).run s' = .ok (none, s') :=
  ⟨reachable_twoEntries, _, rfl, rfl, rfl⟩

/-! ## `strcmp` with `NULL` -/

/-- The calls with arguments other than `NULL`. -/
def Call.ofOp : Op → Call
  | .set k v => .set (some k) (some v)
  | .get k => .get (some k)
  | .delete k => .delete (some k)
  | .modify k v => .modify (some k) (some v)

section NoHole

variable {s : ArrayT} {k : CStr}

/-- A function of the engine whose result is packed into an outcome. -/
theorem packed_run {α : Type} {f : Arr α} (g : α → Outcome) {a : α}
    (h : f.run s = .ok (a, s')) : (do return g (← f) : Arr Outcome).run s = .ok (g a, s') := by
  rw [run_bind_ok h, run_pure]

end NoHole

/-- The call is a set with the key `k`. -/
def Call.Sets (k : CStr) : Call → Prop
  | .set key _ => key = some k
  | _ => False

/-- No slot of the table holds `k`. -/
def Gone (s : ArrayT) (k : CStr) : Prop := ∀ i < kvsArraySize, keyAt s i ≠ some k

section Gone

variable {s s' : ArrayT} {k : CStr}

/-- Without a set, a key that is gone stays so. -/
theorem Moves.gone {c : Call} (hm : Moves s c s') (hinv : Inv s) (hc : ¬c.Sets k) (h : Gone s k) :
    Gone s' k := by
  intro j hj
  have hle := hinv.le
  cases hm with
  | stay => exact h j hj
  | fill hi hlt =>
      rw [keyAt_write]
      split_ifs
      · intro heq
        exact hc heq
      · exact h j hj
  | clear hi =>
      rw [keyAt_write]
      split_ifs
      · simp
      · exact h j hj
  | replace hi =>
      rw [keyAt_write]
      split_ifs with heq
      · have hlt := hi.lt
        rw [← hi.key]
        exact h _ (by omega)
      · exact h j hj

/-- A key whose walk ends at `array_idx` is nowhere in the table. -/
theorem Misses.gone (h : Misses s k) (hinv : Inv s) : Gone s k := by
  intro i hi
  rcases Nat.lt_or_ge i s.arrayIdx with hlt | hge
  · exact (h i hlt).2
  · rw [hinv.empty_above (fun j hj => (h j hj).1) hge hi]
    exact nofun

theorem Gone.get (h : Gone s k) (hinv : Inv s) : (kvsArrayGet (some k)).run s = .ok (none, s) := by
  refine kvsArrayGet_of_not_finds hinv.le fun i hi => ?_
  have hlt := hi.lt
  have hle := hinv.le
  exact h i (by omega) hi.key

/-- A key in a table that is full is found, wherever it is. -/
theorem get_of_full (hinv : Inv s) (hfull : s.arrayIdx = kvsArraySize) {j : Nat}
    (hj : j < kvsArraySize) (hkey : keyAt s j = some k) :
    (kvsArrayGet (some k)).run s ≠ .ok (none, s) := by
  have hall : occupied s = Finset.range kvsArraySize := by
    refine Finset.eq_of_subset_of_card_le (Finset.filter_subset _ _) ?_
    rw [Finset.card_range, ← hfull, hinv.idx]
  have hfinds : ∃ i, Finds s k i := by
    rcases scan_cases s k with hf | ⟨i, hi⟩ | hmiss
    · exact hf
    · have hlt := hi.lt
      have hmem : i ∈ occupied s := by
        rw [hall, Finset.mem_range]
        omega
      exact absurd hi.key (mem_occupied.mp hmem).2
    · exact absurd hkey (hmiss j (by omega)).2
  obtain ⟨i, hi⟩ := hfinds
  rw [kvsArrayGet_of_finds hinv.le hi]
  intro heq
  injection heq with heq
  exact hinv.paired i (by rw [hi.key]; simp) (congrArg Prod.fst heq)

/-- Setting another key until the table is full; no entry is lost. -/
theorem fill_up (x : CStr) (n : Nat) : ∀ {s : ArrayT}, Inv s → s.arrayIdx + n = kvsArraySize →
    ∃ outs s', (runAll planned (List.replicate n (allOk, .set (some x) (some x)))).run s
        = .ok (outs, s') ∧
      s'.arrayIdx = kvsArraySize ∧ ∀ j, keyAt s j ≠ none → keyAt s' j = keyAt s j := by
  induction n with
  | zero =>
      intro s _ hn
      exact ⟨[], s, rfl, hn, fun _ _ => rfl⟩
  | succ n ih =>
      intro s hinv hn
      have hlt : s.arrayIdx < kvsArraySize := by omega
      obtain ⟨i, hi⟩ := exists_freeSlot s
      have hrun : (planned (allOk, .set (some x) (some x))).run s
          = .ok (.code 0, write s i ⟨some x, some x⟩ (s.arrayIdx + 1)) :=
        packed_run .code (kvsArraySet_of_freeSlot hi hlt ⟨rfl, rfl⟩ x x)
      obtain ⟨outs, s', hrest, hidx, hkeep⟩ := ih (planned_inv hinv hrun) (by rw [write_idx]; omega)
      refine ⟨_, s', runAll_cons_ok.mpr ⟨_, _, outs, hrun, hrest, rfl⟩, hidx, fun j hj => ?_⟩
      have hji : j ≠ i := by
        rintro rfl
        exact hj (hi.free hinv hlt)
      have hsame : keyAt (write s i ⟨some x, some x⟩ (s.arrayIdx + 1)) j = keyAt s j := by
        rw [keyAt_write, if_neg hji]
      rw [hkeep j (by rw [hsame]; exact hj), hsame]

end Gone

/-- A key other than `k`. -/
def otherKey (k : CStr) : CStr := ⟨1 :: k.bytes, by simpa using k.nul_notMem⟩

theorem otherKey_ne (k : CStr) : otherKey k ≠ k := by
  intro h
  have := congrArg (fun x => x.bytes.length) h
  simp [otherKey] at this

/-- **When a deleted key stays away.** After a delete of `k` that returned `0`, every later
`kvs_array_get` of `k` returns `NULL`, whatever is called in between apart from a set of `k`,
exactly when at most one slot of the table held `k` before the delete. -/
theorem stays_deleted_iff (s s' : ArrayT) (hs : Reachable s) (k : CStr)
    (hdel : (kvsArrayDelete (some k)).run s = .ok (0, s')) :
    (∀ calls outs s'', (∀ c ∈ calls, ¬c.2.Sets k) →
      (runAll planned calls).run s' = .ok (outs, s'') →
        (kvsArrayGet (some k)).run s'' = .ok (none, s'')) ↔
        ∀ i j, i < kvsArraySize → j < kvsArraySize → keyAt s i = some k → keyAt s j = some k →
          i = j := by
  have hinv := hs.inv
  have hcall : (call allOk (.delete (some k))).run s = .ok (.code 0, s') := packed_run .code hdel
  have hinv' : Inv s' := call_inv hinv hcall
  constructor
  · intro hstays i j hi hj hik hjk
    by_contra hij
    -- one of the two slots still holds `k`
    have hleft : ∃ l < kvsArraySize, keyAt s' l = some k := by
      rcases delete_zero hinv.le hdel with ⟨m, hm, rfl⟩ | ⟨-, rfl⟩
      · by_cases him : i = m
        · exact ⟨j, hj, by rw [keyAt_write, if_neg (by omega)]; exact hjk⟩
        · exact ⟨i, hi, by rw [keyAt_write, if_neg him]; exact hik⟩
      · exact ⟨i, hi, hik⟩
    obtain ⟨l, hl, hlk⟩ := hleft
    -- and it is found once the holes are filled
    have hle' := hinv'.le
    obtain ⟨outs, s'', hrun, hfull, hkeep⟩ :=
      fill_up (otherKey k) (kvsArraySize - s'.arrayIdx) hinv' (by omega)
    have hcalls : ∀ c ∈ List.replicate (kvsArraySize - s'.arrayIdx)
        (allOk, Call.set (some (otherKey k)) (some (otherKey k))), ¬c.2.Sets k := by
      intro c hc hsets
      rw [List.eq_of_mem_replicate hc] at hsets
      exact otherKey_ne k (Option.some.inj hsets)
    have hinv'' : Inv s'' := runAll_invariant (P := fun _ => True)
      (fun c s r s' _ => planned_inv) (fun _ _ => trivial) hinv' hrun
    have hkey : keyAt s'' l = some k := by
      rw [hkeep l (by rw [hlk]; simp), hlk]
    exact get_of_full hinv'' hfull hl hkey (hstays _ outs s'' hcalls hrun)
  · intro hone calls outs s'' hcalls hrun
    have hgone : Gone s' k := by
      intro j hj hjk
      rcases delete_zero hinv.le hdel with ⟨m, hm, rfl⟩ | ⟨h0, rfl⟩
      · have hlt := hm.lt
        have hle := hinv.le
        rw [keyAt_write] at hjk
        split_ifs at hjk with hjm
        exact hjm (hone j m hj (by omega) hjk hm.key)
      · have hmem : j ∈ occupied s' := mem_occupied.mpr ⟨hj, by rw [hjk]; simp⟩
        have hcard := Finset.card_pos.mpr ⟨j, hmem⟩
        rw [← hinv.idx] at hcard
        omega
    have hend : Inv s'' ∧ Gone s'' k := by
      refine runAll_invariant (I := fun s => Inv s ∧ Gone s k) (P := fun c => ¬c.2.Sets k)
        (fun c s₁ r s₂ hc h hcall => ?_) hcalls ⟨hinv', hgone⟩ hrun
      exact ⟨planned_inv h.1 hcall, (call_moves h.1.le hcall).gone h.1 hc h.2⟩
    exact hend.2.get hend.1

/-- A key that was set once stays deleted. -/
theorem stays_deleted_once :
    ∃ s', (kvsArrayDelete (some (CStr.lit "b"))).run twoEntries = .ok (0, s') ∧
      ∀ calls outs s'', (∀ c ∈ calls, ¬c.2.Sets (CStr.lit "b")) →
        (runAll planned calls).run s' = .ok (outs, s'') →
          (kvsArrayGet (some (CStr.lit "b"))).run s'' = .ok (none, s'') := by
  have hdel := kvsArrayDelete_of_finds (by decide) twoEntries_finds_b
  refine ⟨_, hdel, (stays_deleted_iff twoEntries _ reachable_twoEntries _ hdel).mpr ?_⟩
  have hkey : ∀ i, keyAt twoEntries i = some (CStr.lit "b") → i = 1 := by
    intro i hi
    by_contra hne
    rw [twoEntries, keyAt_write, if_neg hne, keyAt_write] at hi
    split_ifs at hi
    · exact absurd hi (by decide)
    · cases hi
  intro i j _ _ hi hj
  rw [hkey i hi, hkey j hj]

/-- A key that was set twice and deleted once comes back when the hole is filled. -/
theorem deleted_key_comes_back :
    ∃ s₁ s₂ s₃ outs outs',
      (runAll planned [(allOk, .set (some (CStr.lit "k")) (some (CStr.lit "1"))),
        (allOk, .set (some (CStr.lit "k")) (some (CStr.lit "2")))]).run created = .ok (outs, s₁) ∧
      (kvsArrayDelete (some (CStr.lit "k"))).run s₁ = .ok (0, s₂) ∧
        (runAll planned [(allOk, .set (some (CStr.lit "x")) (some (CStr.lit "3")))]).run s₂
            = .ok (outs', s₃) ∧
          (kvsArrayGet (some (CStr.lit "k"))).run s₃ = .ok (some (CStr.lit "2"), s₃) :=
  ⟨_, _, _, _, _, rfl, rfl, rfl, rfl⟩

/-! ## Reading what was set -/

/-- A key in front of the slot that a set takes is found. -/
theorem FreeSlot.finds_of_key {k : CStr} {i j : Nat} (hi : FreeSlot s i) (hj : j < i)
    (hkey : keyAt s j = some k) : ∃ l, Finds s k l := by
  have hle := hi.le
  rcases scan_cases s k with hf | ⟨h, hh⟩ | hmiss
  · exact hf
  · have hih : i ≤ h := by
      by_contra hlt
      exact hi.full h (by omega) hh.key
    exact absurd hkey (hh.passes j (by omega)).2
  · exact absurd hkey (hmiss j (by omega)).2

theorem get_cases (hinv : Inv s) (k : CStr) :
    (∀ i, ¬Finds s k i) ∧ (kvsArrayGet (some k)).run s = .ok (none, s) ∨
      ∃ i v, Finds s k i ∧ valueAt s i = some v ∧
      (kvsArrayGet (some k)).run s = .ok (some v, s) := by
  by_cases hf : ∃ i, Finds s k i
  · obtain ⟨i, hi⟩ := hf
    obtain ⟨v, hv⟩ := Option.ne_none_iff_exists'.mp (hinv.paired i (by rw [hi.key]; simp))
    exact Or.inr ⟨i, v, hi, hv, by rw [kvsArrayGet_of_finds hinv.le hi, hv]⟩
  · exact Or.inl ⟨not_exists.mp hf, kvsArrayGet_of_not_finds hinv.le (not_exists.mp hf)⟩

/-- A set that returned `0` can be read back exactly when a get of the key returned `NULL` before,
or this value. -/
theorem Reachable.set_get_iff (hs : Reachable s) {alloc : AllocPlan} {k v : CStr}
    (hset : (kvsArraySet alloc (some k) (some v)).run s = .ok (0, s')) :
    (kvsArrayGet (some k)).run s' = .ok (some v, s') ↔
      (kvsArrayGet (some k)).run s = .ok (none, s) ∨
        (kvsArrayGet (some k)).run s = .ok (some v, s) := by
  have hinv := hs.inv
  have ha : alloc 0 = true ∧ alloc 1 = true := by
    by_contra hfail
    rw [kvsArraySet_failed hfail] at hset
    cases hset
  have hlt : s.arrayIdx < kvsArraySize := by
    rcases Nat.eq_or_lt_of_le hinv.le with hfull | hlt
    · rw [kvsArraySet_full hfull] at hset
      cases hset
    · exact hlt
  obtain ⟨i, hi⟩ := exists_freeSlot s
  rw [kvsArraySet_of_freeSlot hi hlt ha] at hset
  cases hset
  have hle := hi.le
  have hfree := hi.free hinv hlt
  have hs' : (write s i ⟨some k, some v⟩ (s.arrayIdx + 1)).arrayIdx ≤ kvsArraySize := by
    rw [write_idx]
    omega
  rcases get_cases hinv k with ⟨hno, hget⟩ | ⟨j, w, hj, hw, hget⟩
  · -- the new entry is the first one with this key
    have hi' : Finds (write s i ⟨some k, some v⟩ (s.arrayIdx + 1)) k i := by
      refine ⟨by rw [write_idx]; omega, by rw [keyAt_write, if_pos rfl], fun l hl => ?_⟩
      rw [keyAt_write, if_neg (by omega)]
      refine ⟨hi.full l hl, fun hkey => ?_⟩
      obtain ⟨m, hm⟩ := hi.finds_of_key hl hkey
      exact hno m hm
    rw [kvsArrayGet_of_finds hs' hi', valueAt_write, if_pos rfl]
    exact iff_of_true rfl (Or.inl hget)
  · -- the old entry is in front of the new one
    have hji : j < i := by
      rcases Nat.lt_trichotomy i j with h | h | h
      · exact absurd hfree (hj.passes i h).1
      · have hkey := hj.key
        rw [← h, hfree] at hkey
        cases hkey
      · exact h
    have hj' : Finds (write s i ⟨some k, some v⟩ (s.arrayIdx + 1)) k j := by
      refine ⟨by rw [write_idx]; omega, ?_, fun l hl => ?_⟩
      · rw [keyAt_write, if_neg (by omega)]
        exact hj.key
      · rw [keyAt_write, if_neg (by omega)]
        exact hj.passes l hl
    rw [kvsArrayGet_of_finds hs' hj', valueAt_write, if_neg (by omega), hw, hget]
    simp

end KvStore.Array
