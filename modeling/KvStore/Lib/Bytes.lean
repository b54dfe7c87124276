import Mathlib.Tactic

set_option autoImplicit false

/-! # Byte memory

A memory of bytes, with 64-bit words in it that are read and written in little-endian order. What a
word is depends on its eight bytes only (`load64_congr`); a word that is read back is the one that
was written (`load64_store64`), and a word elsewhere is what it was
(`load64_store64_of_disjoint`). -/

namespace KvStore.Lib

/-- A byte for every address. -/
abbrev Bytes := Nat → UInt8

/-- The little-endian number of `n` bytes. -/
def loadLE (m : Bytes) : Nat → Nat → Nat
  | _, 0 => 0
  | a, n + 1 => (m a).toNat + 256 * loadLE m (a + 1) n

/-- The memory with the `n` bytes from `a` on replaced by those of `f`. -/
def overwrite (m : Bytes) (a n : Nat) (f : Nat → UInt8) : Bytes :=
  fun b => if a ≤ b ∧ b < a + n then f (b - a) else m b

def load64 (m : Bytes) (a : Nat) : Nat := loadLE m a 8

def store64 (m : Bytes) (a v : Nat) : Bytes := overwrite m a 8 fun i => UInt8.ofNat (v / 256 ^ i)

variable {m m' : Bytes} {a b n v : Nat} {f : Nat → UInt8}

theorem overwrite_inside {i : Nat} (hi : i < n) : overwrite m a n f (a + i) = f i := by
  rw [overwrite, if_pos ⟨by omega, by omega⟩, Nat.add_sub_cancel_left]

theorem overwrite_outside (h : b < a ∨ a + n ≤ b) : overwrite m a n f b = m b := by
  rw [overwrite, if_neg (by omega)]

/-- A byte that is written does not depend on what was there. -/
theorem overwrite_inside_eq {i : Nat} (hi : i < n) :
    overwrite m' a n f (a + i) = overwrite m a n f (a + i) := by
  rw [overwrite_inside hi, overwrite_inside hi]

/-- A byte after a write depends on that byte before. -/
theorem overwrite_congr (h : m' b = m b) : overwrite m' a n f b = overwrite m a n f b := by
  unfold overwrite
  rw [h]

theorem store64_outside (h : b < a ∨ a + 8 ≤ b) : store64 m a v b = m b := overwrite_outside h

theorem loadLE_congr (h : ∀ i < n, m' (b + i) = m (a + i)) : loadLE m' b n = loadLE m a n := by
  induction n generalizing a b with
  | zero => rfl
  | succ n ih =>
      rw [loadLE, loadLE, ih fun i hi => ?_]
      · have hfirst := h 0 (by omega)
        rw [Nat.add_zero, Nat.add_zero] at hfirst
        rw [hfirst]
      · have hnext := h (i + 1) (by omega)
        rw [show b + 1 + i = b + (i + 1) by omega, show a + 1 + i = a + (i + 1) by omega]
        exact hnext

theorem loadLE_zero (a n : Nat) : loadLE (fun _ => 0) a n = 0 := by
  induction n generalizing a with
  | zero => rfl
  | succ n ih =>
      rw [loadLE, ih]
      rfl

theorem loadLE_digits (h : ∀ i < n, m (a + i) = UInt8.ofNat (v / 256 ^ i)) :
    loadLE m a n = v % 256 ^ n := by
  induction n generalizing a v with
  | zero => exact (Nat.mod_one v).symm
  | succ n ih =>
      have hfirst := h 0 (by omega)
      have hrest : loadLE m (a + 1) n = v / 256 % 256 ^ n := by
        refine ih fun i hi => ?_
        have hnext := h (i + 1) (by omega)
        rw [show a + 1 + i = a + (i + 1) by omega, hnext, Nat.div_div_eq_div_mul, pow_succ']
      rw [loadLE, hrest, ← Nat.add_zero a, hfirst, Nat.pow_zero, Nat.div_one, pow_succ',
        Nat.mod_mul]
      rfl

theorem loadLE_lt (m : Bytes) (a n : Nat) : loadLE m a n < 256 ^ n := by
  induction n generalizing a with
  | zero => exact Nat.one_pos
  | succ n ih =>
      have hrest := ih (a + 1)
      have hbyte : (m a).toNat < 256 := (m a).toNat_lt
      rw [loadLE, pow_succ']
      omega

theorem load64_lt (m : Bytes) (a : Nat) : load64 m a < 2 ^ 64 := loadLE_lt m a 8

theorem load64_congr (h : ∀ i < 8, m' (a + i) = m (a + i)) : load64 m' a = load64 m a :=
  loadLE_congr h

theorem load64_overwrite (h : b + 8 ≤ a ∨ a + n ≤ b) : load64 (overwrite m a n f) b = load64 m b :=
  load64_congr fun _ _ => overwrite_outside (by omega)

theorem load64_store64 (hv : v < 2 ^ 64) : load64 (store64 m a v) a = v := by
  have hload : loadLE (store64 m a v) a 8 = v % 256 ^ 8 :=
    loadLE_digits fun i hi => overwrite_inside hi
  rw [load64, hload]
  exact Nat.mod_eq_of_lt hv

theorem load64_store64_of_disjoint (h : b + 8 ≤ a ∨ a + 8 ≤ b) :
    load64 (store64 m a v) b = load64 m b := load64_overwrite h

end KvStore.Lib
