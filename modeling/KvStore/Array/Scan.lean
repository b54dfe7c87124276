import KvStore.Array.Model

set_option autoImplicit false

/-! # What the scans of the array engine see

Every function of the engine walks the slots below `array_idx` in order. For a key the walk ends in
one of three ways (`scan_cases`): it finds the key (`Finds`), it meets a hole first (`HitsHole`), or
it runs through (`Misses`). The functions are determined by that; the lemmas `kvsArrayGet_run`,
`kvsArrayDelete_run`, `kvsArrayModify_run` and `kvsArraySet_run` say how.
-/

namespace KvStore.Array

open KvStore.Lib

def keyAt (s : ArrayT) (i : Nat) : Option CStr := (s.arrayTable i).key

def valueAt (s : ArrayT) (i : Nat) : Option CStr := (s.arrayTable i).value

/-- The table with the slot `i` rewritten and `array_idx` set. -/
def write (s : ArrayT) (i : Nat) (x : KvsArrayItem) (n : Nat) : ArrayT :=
  ⟨Function.update s.arrayTable i x, n⟩

@[simp] theorem write_idx (s : ArrayT) (i : Nat) (x : KvsArrayItem) (n : Nat) :
    (write s i x n).arrayIdx = n := rfl

@[simp] theorem write_write (s : ArrayT) (i : Nat) (x y : KvsArrayItem) (n m : Nat) :
    write (write s i x n) i y m = write s i y m := by
  simp [write]

theorem keyAt_write (s : ArrayT) (i j : Nat) (x : KvsArrayItem) (n : Nat) :
    keyAt (write s i x n) j = if j = i then x.key else keyAt s j := by
  by_cases h : j = i
  · subst h; simp [keyAt, write]
  · simp [keyAt, write, h]

theorem valueAt_write (s : ArrayT) (i j : Nat) (x : KvsArrayItem) (n : Nat) :
    valueAt (write s i x n) j = if j = i then x.value else valueAt s j := by
  by_cases h : j = i
  · subst h; simp [valueAt, write]
  · simp [valueAt, write, h]

/-! ## The three ends of a walk -/

/-- The slots before `i` are occupied by other keys. -/
def Passes (s : ArrayT) (k : CStr) (i : Nat) : Prop :=
  ∀ j < i, keyAt s j ≠ none ∧ keyAt s j ≠ some k

/-- The walk for `k` ends at the slot `i`, with `k` in it. -/
structure Finds (s : ArrayT) (k : CStr) (i : Nat) : Prop where
  lt : i < s.arrayIdx
  key : keyAt s i = some k
  passes : Passes s k i

/-- The walk for `k` comes to the empty slot `i`. -/
structure HitsHole (s : ArrayT) (k : CStr) (i : Nat) : Prop where
  lt : i < s.arrayIdx
  key : keyAt s i = none
  passes : Passes s k i

/-- The walk for `k` ends at `array_idx`. -/
def Misses (s : ArrayT) (k : CStr) : Prop := Passes s k s.arrayIdx

variable {s : ArrayT}

theorem Finds.unique {k : CStr} {i j : Nat} (hi : Finds s k i) (hj : Finds s k j) : i = j := by
  rcases Nat.lt_trichotomy i j with h | h | h
  · exact absurd hi.key (hj.passes i h).2
  · exact h
  · exact absurd hj.key (hi.passes j h).2

/-- Every walk has one of the three ends. -/
theorem scan_cases (s : ArrayT) (k : CStr) :
    (∃ i, Finds s k i) ∨ (∃ i, HitsHole s k i) ∨ Misses s k := by
  by_cases h : ∃ i, i < s.arrayIdx ∧ (keyAt s i = none ∨ keyAt s i = some k)
  · classical
    obtain ⟨hlt, hkey⟩ := Nat.find_spec h
    have hpass : Passes s k (Nat.find h) := by
      intro j hj
      have hno := Nat.find_min h hj
      rw [not_and, not_or] at hno
      exact hno (by omega)
    rcases hkey with hkey | hkey
    · exact Or.inr (Or.inl ⟨_, hlt, hkey, hpass⟩)
    · exact Or.inl ⟨_, hlt, hkey, hpass⟩
  · refine Or.inr (Or.inr fun j hj => ?_)
    constructor
    · intro hkey
      exact h ⟨j, hj, Or.inl hkey⟩
    · intro hkey
      exact h ⟨j, hj, Or.inr hkey⟩

/-! ## The walk as a loop -/

section Walk

variable {s : ArrayT} {k : CStr} {i : Nat}

theorem getItem_run (h : i < kvsArraySize) : (getItem i).run s = .ok (s.arrayTable i, s) := by
  rw [getItem, if_pos h]
  rfl

theorem setItem_run (h : i < kvsArraySize) (x : KvsArrayItem) :
    (setItem i x).run s = .ok ((), write s i x s.arrayIdx) := by
  rw [setItem, if_pos h]
  rfl

theorem strcmpPtr_run (a b : CStr) :
    (strcmpPtr (some a) (some b)).run s = .ok (CStr.strcmp a b, s) := rfl

theorem strcmpPtr_null (b : Option CStr) : (strcmpPtr none b).run s = .error .nullDeref := rfl

/-- The body of a walk goes on at the slots that hold other keys. -/
def Skips {ρ : Type} (body : Nat → Arr (Option ρ)) (s : ArrayT) (k : CStr) : Prop :=
  ∀ i < s.arrayIdx, keyAt s i ≠ none ∧ keyAt s i ≠ some k → (body i).run s = .ok (none, s)

theorem Skips.of_misses {ρ : Type} {body : Nat → Arr (Option ρ)} (hskip : Skips body s k)
    (h : Misses s k) : (forArrayIdx body).run s = .ok (none, s) :=
  forLoop_skip fun j _ hj => hskip j (by omega) (h j (by omega))

theorem Skips.of_passes {ρ : Type} {body : Nat → Arr (Option ρ)} (hskip : Skips body s k)
    (hlt : i < s.arrayIdx) (h : Passes s k i) {r : Except Fault (Option ρ × ArrayT)}
    (hbody : (body i).run s = r) (hr : ∀ s', r ≠ .ok (none, s')) : (forArrayIdx body).run s = r :=
  forLoop_stop (Nat.zero_le i) (by omega) (fun j _ hj => hskip j (by omega) (h j hj)) hbody hr

/-- A body goes on if it does so where `strcmp` finds another key. -/
theorem skips_of_strcmp {ρ : Type} {body : Nat → Arr (Option ρ)} (hs : s.arrayIdx ≤ kvsArraySize)
    (h : ∀ i k', i < kvsArraySize → (s.arrayTable i).key = some k' → CStr.strcmp k' k ≠ 0 →
      (body i).run s = .ok (none, s)) : Skips body s k := by
  intro i hi ⟨hnone, hne⟩
  obtain ⟨k', hk'⟩ := Option.ne_none_iff_exists'.mp hnone
  refine h i k' (by omega) hk' ?_
  rw [Ne, CStr.strcmp_eq_zero_iff]
  rintro rfl
  exact hne hk'

end Walk

/-! ## `kvs_array_get` -/

section Get

variable {s : ArrayT} {k : CStr} {i : Nat} (hs : s.arrayIdx ≤ kvsArraySize)
include hs

theorem getBody_skips : Skips (getBody (some k)) s k := by
  refine skips_of_strcmp hs fun i k' hlt hslot hne => ?_
  rw [getBody, run_bind_ok (getItem_run hlt), hslot, if_neg (by simp),
    run_bind_ok (getItem_run hlt), hslot, run_bind_ok (strcmpPtr_run k' k),
    if_neg hne, run_pure]

theorem kvsArrayGet_of_finds (h : Finds s k i) :
    (kvsArrayGet (some k)).run s = .ok (valueAt s i, s) := by
  have hlt : i < kvsArraySize := by have := h.lt; omega
  have hslot : (s.arrayTable i).key = some k := h.key
  have hbody : (getBody (some k) i).run s = .ok (some (valueAt s i), s) := by
    rw [getBody, run_bind_ok (getItem_run hlt), hslot, if_neg (by simp),
      run_bind_ok (getItem_run hlt), hslot, run_bind_ok (strcmpPtr_run k k),
      if_pos ((CStr.strcmp_eq_zero_iff k k).mpr rfl), run_bind_ok (getItem_run hlt), run_pure]
    rfl
  have hwalk := (getBody_skips hs).of_passes h.lt h.passes hbody (by simp)
  rw [kvsArrayGet, run_bind_ok hwalk, run_pure]

theorem kvsArrayGet_of_not_finds (h : ∀ i, ¬Finds s k i) :
    (kvsArrayGet (some k)).run s = .ok (none, s) := by
  rcases scan_cases s k with ⟨i, hi⟩ | ⟨i, hi⟩ | hmiss
  · exact absurd hi (h i)
  · have hlt : i < kvsArraySize := by have := hi.lt; omega
    have hslot : (s.arrayTable i).key = none := hi.key
    have hbody : (getBody (some k) i).run s = .ok (some none, s) := by
      rw [getBody, run_bind_ok (getItem_run hlt), if_pos hslot, run_pure]
    have hwalk := (getBody_skips hs).of_passes hi.lt hi.passes hbody (by simp)
    rw [kvsArrayGet, run_bind_ok hwalk, run_pure]
  · rw [kvsArrayGet, run_bind_ok ((getBody_skips hs).of_misses hmiss), run_pure]

/-- Nothing is compared when the first slot is empty, or there is none below `array_idx`. -/
theorem kvsArrayGet_of_front (h : s.arrayIdx = 0 ∨ keyAt s 0 = none) (key : Option CStr) :
    (kvsArrayGet key).run s = .ok (none, s) := by
  rcases Nat.eq_zero_or_pos s.arrayIdx with h0 | hpos
  · have hwalk : (forArrayIdx (getBody key)).run s = .ok (none, s) :=
      forLoop_skip fun j _ hj => by omega
    rw [kvsArrayGet, run_bind_ok hwalk, run_pure]
  · have hlt : 0 < kvsArraySize := by omega
    have hslot : (s.arrayTable 0).key = none := h.resolve_left (by omega)
    have hbody : (getBody key 0).run s = .ok (some none, s) := by
      rw [getBody, run_bind_ok (getItem_run hlt), if_pos hslot, run_pure]
    have hwalk : (forArrayIdx (getBody key)).run s = .ok (some none, s) :=
      forLoop_stop le_rfl (by omega) (fun j _ hj => by omega) hbody (by simp)
    rw [kvsArrayGet, run_bind_ok hwalk, run_pure]

/-- Otherwise the first key is compared, also with `NULL`. -/
theorem kvsArrayGet_null (hpos : 0 < s.arrayIdx) (hk : keyAt s 0 ≠ none) :
    (kvsArrayGet none).run s = .error .nullDeref := by
  have hlt : 0 < kvsArraySize := by omega
  obtain ⟨k', hk'⟩ := Option.ne_none_iff_exists'.mp hk
  have hslot : (s.arrayTable 0).key = some k' := hk'
  have hbody : (getBody none 0).run s = .error .nullDeref := by
    rw [getBody, run_bind_ok (getItem_run hlt), hslot, if_neg (by simp),
      run_bind_ok (getItem_run hlt), hslot]
    rfl
  have hwalk : (forArrayIdx (getBody none)).run s = .error .nullDeref :=
    forLoop_stop le_rfl (by omega) (fun j _ hj => by omega) hbody (by simp)
  rw [kvsArrayGet, run_bind_error hwalk]

end Get

/-! ## `kvs_array_delete` and `kvs_array_modify` -/

section Strict

variable {s : ArrayT} {k v : CStr} {i : Nat} {alloc : AllocPlan} (hs : s.arrayIdx ≤ kvsArraySize)
include hs

theorem deleteBody_skips : Skips (deleteBody k) s k := by
  refine skips_of_strcmp hs fun i k' hlt hslot hne => ?_
  rw [deleteBody, run_bind_ok (getItem_run hlt), hslot, run_bind_ok (strcmpPtr_run k' k),
    if_neg hne, run_pure]

theorem modifyBody_skips : Skips (modifyBody alloc k v) s k := by
  refine skips_of_strcmp hs fun i k' hlt hslot hne => ?_
  rw [modifyBody, run_bind_ok (getItem_run hlt), hslot, run_bind_ok (strcmpPtr_run k' k),
    if_neg hne, run_pure]

theorem kvsArrayDelete_of_finds (h : Finds s k i) :
    (kvsArrayDelete (some k)).run s = .ok (0, write s i ⟨none, none⟩ (s.arrayIdx - 1)) := by
  have hlt : i < kvsArraySize := by have := h.lt; omega
  have hslot : (s.arrayTable i).key = some k := h.key
  have hbody : (deleteBody k i).run s
      = .ok (some 0, write s i ⟨none, none⟩ (s.arrayIdx - 1)) := by
    rw [deleteBody, run_bind_ok (getItem_run hlt), hslot, run_bind_ok (strcmpPtr_run k k),
      if_pos ((CStr.strcmp_eq_zero_iff k k).mpr rfl), run_bind_ok (getItem_run hlt),
      run_bind_ok (setItem_run hlt _), run_bind_ok (setItem_run hlt _), write_write]
    rfl
  have hwalk := (deleteBody_skips hs).of_passes h.lt h.passes hbody (by simp)
  rw [kvsArrayDelete, run_bind_ok hwalk, run_pure]

theorem kvsArrayDelete_of_hitsHole (h : HitsHole s k i) :
    (kvsArrayDelete (some k)).run s = .error .nullDeref := by
  have hlt : i < kvsArraySize := by have := h.lt; omega
  have hslot : (s.arrayTable i).key = none := h.key
  have hbody : (deleteBody k i).run s = .error .nullDeref := by
    rw [deleteBody, run_bind_ok (getItem_run hlt), hslot, run_bind_error (strcmpPtr_null _)]
  have hwalk := (deleteBody_skips hs).of_passes h.lt h.passes hbody (by simp)
  rw [kvsArrayDelete, run_bind_error hwalk]

theorem kvsArrayDelete_of_misses (h : Misses s k) :
    (kvsArrayDelete (some k)).run s = .ok (s.arrayIdx, s) := by
  rw [kvsArrayDelete, run_bind_ok ((deleteBody_skips hs).of_misses h)]
  rfl

theorem kvsArrayModify_of_finds (h : Finds s k i) (ha : alloc 0 = true) :
    (kvsArrayModify alloc (some k) (some v)).run s
      = .ok (0, write s i ⟨some k, some v⟩ s.arrayIdx) := by
  have hlt : i < kvsArraySize := by have := h.lt; omega
  have hslot : (s.arrayTable i).key = some k := h.key
  have hkept : ((write s i ⟨(s.arrayTable i).key, none⟩ s.arrayIdx).arrayTable i).key = some k := by
    simp [write, hslot]
  have hbody : (modifyBody alloc k v i).run s
      = .ok (some 0, write s i ⟨some k, some v⟩ s.arrayIdx) := by
    rw [modifyBody, run_bind_ok (getItem_run hlt), hslot, run_bind_ok (strcmpPtr_run k k),
      if_pos ((CStr.strcmp_eq_zero_iff k k).mpr rfl), run_bind_ok (getItem_run hlt),
      run_bind_ok (setItem_run hlt _), if_neg (by simp [ha]), run_bind_ok (getItem_run hlt),
      hkept, run_bind_ok (setItem_run hlt _), write_write]
    rfl
  have hwalk := (modifyBody_skips hs).of_passes h.lt h.passes hbody (by simp)
  rw [kvsArrayModify, run_bind_ok hwalk, run_pure]

/-- The copy of the value is not tested for `NULL`. -/
theorem kvsArrayModify_of_finds_failed (h : Finds s k i) (ha : alloc 0 = false) :
    (kvsArrayModify alloc (some k) (some v)).run s = .error .nullDeref := by
  have hlt : i < kvsArraySize := by have := h.lt; omega
  have hslot : (s.arrayTable i).key = some k := h.key
  have hbody : (modifyBody alloc k v i).run s = .error .nullDeref := by
    rw [modifyBody, run_bind_ok (getItem_run hlt), hslot, run_bind_ok (strcmpPtr_run k k),
      if_pos ((CStr.strcmp_eq_zero_iff k k).mpr rfl), run_bind_ok (getItem_run hlt),
      run_bind_ok (setItem_run hlt _), if_pos ha]
    rfl
  have hwalk := (modifyBody_skips hs).of_passes h.lt h.passes hbody (by simp)
  rw [kvsArrayModify, run_bind_error hwalk]

theorem kvsArrayModify_of_hitsHole (h : HitsHole s k i) :
    (kvsArrayModify alloc (some k) (some v)).run s = .error .nullDeref := by
  have hlt : i < kvsArraySize := by have := h.lt; omega
  have hslot : (s.arrayTable i).key = none := h.key
  have hbody : (modifyBody alloc k v i).run s = .error .nullDeref := by
    rw [modifyBody, run_bind_ok (getItem_run hlt), hslot, run_bind_error (strcmpPtr_null _)]
  have hwalk := (modifyBody_skips hs).of_passes h.lt h.passes hbody (by simp)
  rw [kvsArrayModify, run_bind_error hwalk]

theorem kvsArrayModify_of_misses (h : Misses s k) :
    (kvsArrayModify alloc (some k) (some v)).run s = .ok (s.arrayIdx, s) := by
  rw [kvsArrayModify, run_bind_ok ((modifyBody_skips hs).of_misses h)]
  rfl

end Strict

/-! ## `kvs_array_set` -/

/-- The slot that `kvs_array_set` takes: the first hole below `array_idx`, or the slot `array_idx`
itself when there is no hole. -/
structure FreeSlot (s : ArrayT) (i : Nat) : Prop where
  le : i ≤ s.arrayIdx
  full : ∀ j < i, keyAt s j ≠ none
  hole : i < s.arrayIdx → keyAt s i = none

theorem exists_freeSlot (s : ArrayT) : ∃ i, FreeSlot s i := by
  classical
  have hex : ∃ i, i = s.arrayIdx ∨ keyAt s i = none := ⟨_, Or.inl rfl⟩
  have hmin : ∀ j < Nat.find hex, j ≠ s.arrayIdx ∧ keyAt s j ≠ none := fun j hj =>
    not_or.mp (Nat.find_min hex hj)
  refine ⟨Nat.find hex, Nat.find_min' hex (Or.inl rfl), fun j hj => (hmin j hj).2, fun hlt => ?_⟩
  rcases Nat.find_spec hex with h | h
  · omega
  · exact h

theorem get_run (s : ArrayT) : (get : Arr ArrayT).run s = .ok (s, s) := rfl

theorem kvsArraySet_full (h : s.arrayIdx = kvsArraySize) (alloc : AllocPlan)
    (k v : CStr) : (kvsArraySet alloc (some k) (some v)).run s = .ok (-1, s) := by
  rw [kvsArraySet, run_bind_ok (get_run s), if_pos h, run_pure]

theorem kvsArraySet_failed {alloc : AllocPlan}
    (h : ¬(alloc 0 = true ∧ alloc 1 = true)) (k v : CStr) :
    (kvsArraySet alloc (some k) (some v)).run s = .ok (-1, s) := by
  rw [kvsArraySet, run_bind_ok (get_run s)]
  by_cases hfull : s.arrayIdx = kvsArraySize
  · rw [if_pos hfull, run_pure]
  · rw [if_neg hfull]
    cases ha₀ : alloc 0 with
    | false => rw [if_pos rfl, run_pure]
    | true =>
        have ha₁ : alloc 1 = false := by
          by_contra hne
          exact h ⟨ha₀, by simpa using hne⟩
        rw [if_neg (by simp), if_pos ha₁, run_pure]

theorem setBody_skip {i : Nat} (hlt : i < kvsArraySize) (h : keyAt s i ≠ none)
    (k v : CStr) : (setBody k v i).run s = .ok (none, s) := by
  have hslot : (s.arrayTable i).key ≠ none := h
  rw [setBody, run_bind_ok (getItem_run hlt), if_neg hslot, run_pure]

theorem kvsArraySet_of_freeSlot {i : Nat} (h : FreeSlot s i)
    (hs : s.arrayIdx < kvsArraySize) {alloc : AllocPlan} (ha : alloc 0 = true ∧ alloc 1 = true)
    (k v : CStr) :
    (kvsArraySet alloc (some k) (some v)).run s
      = .ok (0, write s i ⟨some k, some v⟩ (s.arrayIdx + 1)) := by
  have hle := h.le
  have hlt : i < kvsArraySize := by omega
  have hskip : ∀ j < i, (setBody k v j).run s = .ok (none, s) := fun j hj =>
    setBody_skip (by omega) (h.full j hj) k v
  rw [kvsArraySet, run_bind_ok (get_run s), if_neg (by omega), if_neg (by simp [ha.1]),
    if_neg (by simp [ha.2])]
  rcases Nat.eq_or_lt_of_le hle with rfl | hidx
  · -- no hole: the loop runs through and the pair is appended
    have hwalk : (forArrayIdx (setBody k v)).run s = .ok (none, s) :=
      forLoop_skip fun j _ hj => hskip j (by omega)
    rw [run_bind_ok hwalk]
    dsimp only
    rw [run_bind_ok (get_run s), if_pos hs, run_bind_ok (setItem_run hlt _)]
    rfl
  · -- the first hole is filled
    have hslot : (s.arrayTable i).key = none := h.hole hidx
    have hbody : (setBody k v i).run s
        = .ok (some 0, write s i ⟨some k, some v⟩ (s.arrayIdx + 1)) := by
      rw [setBody, run_bind_ok (getItem_run hlt), if_pos hslot, run_bind_ok (setItem_run hlt _)]
      rfl
    have hwalk : (forArrayIdx (setBody k v)).run s = .ok (some 0, _) :=
      forLoop_stop (Nat.zero_le i) (by omega) (fun j _ hj => hskip j hj) hbody (by simp)
    rw [run_bind_ok hwalk, run_pure]

end KvStore.Array
