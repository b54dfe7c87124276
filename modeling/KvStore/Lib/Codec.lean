import KvStore.Lib.Bytes

set_option autoImplicit false

/-! # Records in a byte memory

A `Codec` says how the values of a type lie in memory: what is read depends on the bytes that hold
the value, is what has been written, and a write changes no other bytes. Records are put together
from words, integers and padding: `Codec.prod` places two fields one behind the other, `Codec.iso`
gives the fields their names.

* `Codec.read_write_of_disjoint`: a record elsewhere is what it was.
* `Codec.read_overwrite_inside`: a record in a part of the memory that is filled with given bytes.
-/

namespace KvStore.Lib

/-- How the values of a type lie in memory. -/
structure Codec (α : Type) where
  size : Nat
  /-- The offsets of the bytes that hold the value; the others are padding. -/
  Uses : Nat → Prop
  /-- The values that can be stored. -/
  Fits : α → Prop
  read : Bytes → Nat → α
  write : Bytes → Nat → α → Bytes
  uses_lt : ∀ {i : Nat}, Uses i → i < size
  read_fits : ∀ m a, Fits (read m a)
  read_congr : ∀ {m m' : Bytes} {a b : Nat}, (∀ i, Uses i → m' (b + i) = m (a + i)) →
    read m' b = read m a
  read_write : ∀ {v : α} (m : Bytes) (a : Nat), Fits v → read (write m a v) a = v
  write_outside : ∀ {m : Bytes} {a b : Nat} {v : α}, b < a ∨ a + size ≤ b → write m a v b = m b
  /-- What is written does not depend on what was there. -/
  write_uses : ∀ {m m' : Bytes} {a i : Nat} {v : α}, Uses i →
    write m' a v (a + i) = write m a v (a + i)
  write_congr : ∀ {m m' : Bytes} {a b : Nat} {v : α}, m' b = m b → write m' a v b = write m a v b

namespace Codec

variable {α β : Type} {m m' : Bytes} {a b n : Nat}

/-- A record depends on its own bytes. -/
theorem read_frame (c : Codec α) (h : ∀ x, a ≤ x → x < a + c.size → m' x = m x) :
    c.read m' a = c.read m a :=
  c.read_congr fun i hi => h _ (by omega) (by have := c.uses_lt hi; omega)

theorem read_write_of_disjoint (c : Codec α) (d : Codec β) {v : β}
    (h : a + c.size ≤ b ∨ b + d.size ≤ a) : c.read (d.write m b v) a = c.read m a :=
  c.read_frame fun _ _ _ => d.write_outside (by omega)

theorem read_overwrite_inside (c : Codec α) {f : Nat → UInt8} {off : Nat} (h : off + c.size ≤ n) :
    c.read (overwrite m a n f) (a + off) = c.read f off :=
  c.read_congr fun i hi => by
    have := c.uses_lt hi
    rw [Nat.add_assoc]
    exact overwrite_inside (by omega)

/-! ## The fields -/

/-- A 64-bit word. -/
def word : Codec Nat where
  size := 8
  Uses i := i < 8
  Fits v := v < 2 ^ 64
  read := load64
  write := store64
  uses_lt h := h
  read_fits := load64_lt
  read_congr := loadLE_congr
  read_write _ _ hv := load64_store64 hv
  write_outside := store64_outside
  write_uses hi := overwrite_inside_eq hi
  write_congr := overwrite_congr

/-- A 32-bit signed integer. -/
def int : Codec Int where
  size := 4
  Uses i := i < 4
  Fits v := -2 ^ 31 ≤ v ∧ v < 2 ^ 31
  read m a := (loadLE m a 4 : Int).bmod (2 ^ 32)
  write m a v := overwrite m a 4 fun i => UInt8.ofNat ((v % 2 ^ 32).toNat / 256 ^ i)
  uses_lt h := h
  read_fits m a := ⟨Int.le_bmod (by decide), Int.bmod_lt (by decide)⟩
  read_congr h := by rw [loadLE_congr h]
  read_write {v} m a hv := by
    rw [loadLE_digits fun i hi => overwrite_inside hi]
    have hmod : (((v % 2 ^ 32).toNat % 256 ^ 4 : Nat) : Int) = v % 2 ^ 32 := by omega
    rw [hmod]
    exact (Int.emod_bmod v (2 ^ 32)).trans (Int.bmod_eq_of_le (by omega) (by omega))
  write_outside := overwrite_outside
  write_uses hi := overwrite_inside_eq hi
  write_congr := overwrite_congr

theorem word_read_zero (a : Nat) : word.read (fun _ => 0) a = 0 := loadLE_zero a 8

theorem int_read_zero (a : Nat) : int.read (fun _ => 0) a = 0 := by
  unfold int
  dsimp only
  rw [loadLE_zero]
  exact Int.zero_bmod

/-- Bytes that hold nothing. -/
def pad (n : Nat) : Codec Unit where
  size := n
  Uses _ := False
  Fits _ := True
  read _ _ := ()
  write m _ _ := m
  uses_lt h := h.elim
  read_fits _ _ := trivial
  read_congr _ := rfl
  read_write _ _ _ := rfl
  write_outside _ := rfl
  write_uses h := h.elim
  write_congr h := h

/-- Two fields, one behind the other. -/
def prod (c : Codec α) (d : Codec β) : Codec (α × β) where
  size := c.size + d.size
  Uses i := c.Uses i ∨ ∃ j, d.Uses j ∧ i = c.size + j
  Fits v := c.Fits v.1 ∧ d.Fits v.2
  read m a := (c.read m a, d.read m (a + c.size))
  write m a v := d.write (c.write m a v.1) (a + c.size) v.2
  uses_lt h := by
    rcases h with hi | ⟨j, hj, rfl⟩
    · exact Nat.lt_add_right _ (c.uses_lt hi)
    · exact Nat.add_lt_add_left (d.uses_lt hj) _
  read_fits m a := ⟨c.read_fits m a, d.read_fits m (a + c.size)⟩
  read_congr {m m' a b} h := by
    have hc : c.read m' b = c.read m a := c.read_congr fun i hi => h i (Or.inl hi)
    have hd : d.read m' (b + c.size) = d.read m (a + c.size) := d.read_congr fun i hi => by
      rw [Nat.add_assoc, Nat.add_assoc]
      exact h (c.size + i) (Or.inr ⟨i, hi, rfl⟩)
    rw [hc, hd]
  read_write {v} m a hv := by
    have hc : c.read (d.write (c.write m a v.1) (a + c.size) v.2) a = v.1 :=
      (c.read_write_of_disjoint d (Or.inl le_rfl)).trans (c.read_write m a hv.1)
    rw [hc, d.read_write _ _ hv.2]
  write_outside h :=
    (d.write_outside (by omega)).trans (c.write_outside (by omega))
  write_uses {m m' a i v} h := by
    rcases h with hi | ⟨j, hj, rfl⟩
    · exact d.write_congr (c.write_uses hi)
    · rw [← Nat.add_assoc]
      exact d.write_uses hj
  write_congr h := d.write_congr (c.write_congr h)

/-- The same bytes for the values of another type. -/
def iso (c : Codec α) (e : α ≃ β) : Codec β where
  size := c.size
  Uses := c.Uses
  Fits v := c.Fits (e.symm v)
  read m a := e (c.read m a)
  write m a v := c.write m a (e.symm v)
  uses_lt := c.uses_lt
  read_fits m a := by
    rw [Equiv.symm_apply_apply]
    exact c.read_fits m a
  read_congr h := congrArg e (c.read_congr h)
  read_write m a hv := by rw [c.read_write m a hv, Equiv.apply_symm_apply]
  write_outside := c.write_outside
  write_uses := c.write_uses
  write_congr := c.write_congr

end Codec

end KvStore.Lib
