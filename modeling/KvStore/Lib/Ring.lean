import Mathlib.Data.Nat.ModEq
import Mathlib.Logic.Function.Basic

set_option autoImplicit false

/-! # Ring buffers

A ring of `n` cells holds a queue: `count` values, from the cell `head` on and around the end.

* `ringList_push`: a value written behind the last one is the new last value, while there is room.
* `ringList_pop`: the value in the cell `head` is the first one.
-/

namespace KvStore.Lib

open Function

variable {α : Type} {cells : Nat → α} {n head count : Nat}

/-- The values of the queue, first to last. -/
def ringList (cells : Nat → α) (n head count : Nat) : List α :=
  (List.range count).map fun i => cells ((head + i) % n)

/-- Two offsets below `n` are two cells. -/
theorem ring_index_inj {i j : Nat} (hi : i < n) (hj : j < n) (h : (head + i) % n = (head + j) % n) :
    i = j := by
  have hmod : i ≡ j [MOD n] := Nat.ModEq.add_left_cancel' head h
  exact hmod.eq_of_lt_of_lt hi hj

/-- Fewer than `n` consecutive counts are in different cells. -/
theorem ring_count_inj {i j : Nat} (hi : head ≤ i) (hi' : i < head + n) (hj : head ≤ j)
    (hj' : j < head + n) (h : i % n = j % n) : i = j := by
  obtain ⟨a, rfl⟩ := Nat.exists_eq_add_of_le hi
  obtain ⟨b, rfl⟩ := Nat.exists_eq_add_of_le hj
  rw [ring_index_inj (by omega) (by omega) h]

theorem ringList_push (hcount : count < n) (x : α) :
    ringList (update cells ((head + count) % n) x) n head (count + 1) =
      ringList cells n head count ++ [x] := by
  have hold : ∀ i ∈ List.range count,
      update cells ((head + count) % n) x ((head + i) % n) = cells ((head + i) % n) := by
    intro i hi
    have hlt : i < count := List.mem_range.mp hi
    refine update_of_ne (fun heq => ?_) x cells
    have := ring_index_inj (by omega) hcount heq
    omega
  unfold ringList
  rw [List.range_succ, List.map_append, List.map_congr_left hold, List.map_singleton, update_self]

theorem ringList_pop (hhead : head < n) :
    ringList cells n head (count + 1) = cells head :: ringList cells n ((head + 1) % n) count := by
  unfold ringList
  rw [List.range_succ_eq_map, List.map_cons, List.map_map, Nat.add_zero, Nat.mod_eq_of_lt hhead]
  congr 1
  refine List.map_congr_left fun i _ => ?_
  show cells ((head + (i + 1)) % n) = cells (((head + 1) % n + i) % n)
  rw [Nat.mod_add_mod]
  congr 2
  omega

end KvStore.Lib
