import Mathlib.Data.List.Nodup
import Mathlib.Logic.Function.Basic

set_option autoImplicit false

/-! # Who has what

Threads `t : ι` that share things.

* `HeldBy holder has`: of a lock, at most one thread `has` it, and `holder` says which.
* `Owned used L held`: every thing that is in use is in the shared list `L`, or held by one thread,
  and not both. A thread takes a thing that is not in use (`Owned.acquire`), puts one that it holds
  at the end of the list (`Owned.publish`), takes the first one of the list (`Owned.take`), or gives
  one up (`Owned.discard`). -/

namespace KvStore.Lib

open Function

variable {ι α : Type}

/-! ## A lock -/

/-- The thread that `has` the lock is `holder`. -/
def HeldBy (holder : Option ι) (has : ι → Bool) : Prop := ∀ t, has t = true ↔ holder = some t

section HeldBy

variable [DecidableEq ι] {has : ι → Bool} {t : ι}

theorem HeldBy.take (h : HeldBy none has) (t : ι) : HeldBy (some t) (update has t true) := by
  intro t'
  by_cases ht : t' = t
  · subst ht
    simp
  · have hno := h t'
    simp only [reduceCtorEq, iff_false] at hno
    simp [update_of_ne ht, hno, Ne.symm ht]

theorem HeldBy.drop (h : HeldBy (some t) has) : HeldBy none (update has t false) := by
  intro t'
  by_cases ht : t' = t
  · subst ht
    simp
  · have hno := h t'
    simp only [Option.some.injEq, Ne.symm ht, iff_false] at hno
    simp [update_of_ne ht, hno]

end HeldBy

/-! ## Things -/

/-- **Ownership**: what is in use is in the list, or held by one thread. -/
structure Owned (used : α → Bool) (L : List α) (held : ι → Option α) : Prop where
  nodup : L.Nodup
  used_iff : ∀ a, used a = true ↔ a ∈ L ∨ ∃ t, held t = some a
  apart : ∀ t a, held t = some a → a ∉ L
  unique : ∀ t t' a, held t = some a → held t' = some a → t = t'

section Owned

variable {used : α → Bool} {L : List α} {held : ι → Option α} {a : α} {t : ι}

theorem owned_empty : Owned (fun _ : α => false) [] (fun _ : ι => none) where
  nodup := List.nodup_nil
  used_iff a := by simp
  apart t a h := by cases h
  unique t t' a h := by cases h

theorem Owned.used_of_mem (h : Owned used L held) (ha : a ∈ L) : used a = true :=
  (h.used_iff a).mpr (Or.inl ha)

theorem Owned.used_of_held (h : Owned used L held) (ha : held t = some a) : used a = true :=
  (h.used_iff a).mpr (Or.inr ⟨t, ha⟩)

/-- When nothing is in the list or held, nothing is in use. -/
theorem Owned.used_eq_false (h : Owned used [] held) (hheld : ∀ t, held t = none) (a : α) :
    used a = false := by
  rw [← Bool.not_eq_true, h.used_iff]
  rintro (ha | ⟨t, ht⟩)
  · cases ha
  · rw [hheld t] at ht
    cases ht

/-- Another thing than the one that is held by `t`. -/
theorem Owned.ne_of_held (h : Owned used L held) {t' : ι} {b : α} (ht : held t = some a)
    (ht' : held t' = some b) (hne : t' ≠ t) : b ≠ a := by
  rintro rfl
  exact hne (h.unique t' t b ht' ht)

variable [DecidableEq ι]

/-- What a thread holds behind an update. -/
theorem held_update_iff {x : Option α} {t' : ι} :
    update held t x t' = some a ↔ t' = t ∧ x = some a ∨ t' ≠ t ∧ held t' = some a := by
  by_cases ht : t' = t
  · subst ht
    simp
  · simp [ht]

/-- A thread gives up what it holds: the others keep theirs. -/
theorem Owned.held_drop_iff (h : Owned used L held) (ht : held t = some a) {t' : ι} {b : α} :
    update held t none t' = some b ↔ held t' = some b ∧ b ≠ a := by
  rw [held_update_iff]
  constructor
  · rintro (⟨-, heq⟩ | ⟨hne, ht'⟩)
    · cases heq
    · exact ⟨ht', h.ne_of_held ht ht' hne⟩
  · rintro ⟨ht', hb⟩
    refine Or.inr ⟨?_, ht'⟩
    rintro rfl
    rw [ht] at ht'
    exact hb (Option.some.inj ht').symm

theorem Owned.take (h : Owned used (a :: L) held) (ht : held t = none) :
    Owned used L (update held t (some a)) := by
  obtain ⟨hnotMem, hnodup⟩ := List.nodup_cons.mp h.nodup
  constructor
  · exact hnodup
  · intro b
    simp only [h.used_iff, List.mem_cons, held_update_iff]
    constructor
    · rintro ((rfl | hb) | ⟨t', ht'⟩)
      · exact Or.inr ⟨t, Or.inl ⟨rfl, rfl⟩⟩
      · exact Or.inl hb
      · refine Or.inr ⟨t', Or.inr ⟨?_, ht'⟩⟩
        rintro rfl
        rw [ht] at ht'
        cases ht'
    · rintro (hb | ⟨t', ⟨-, heq⟩ | ⟨-, ht'⟩⟩)
      · exact Or.inl (Or.inr hb)
      · exact Or.inl (Or.inl (Option.some.inj heq).symm)
      · exact Or.inr ⟨t', ht'⟩
  · intro t' b ht'
    rcases held_update_iff.mp ht' with ⟨-, heq⟩ | ⟨-, ht'⟩
    · cases heq
      exact hnotMem
    · exact fun hb => h.apart t' b ht' (List.mem_cons_of_mem a hb)
  · intro t₁ t₂ b h₁ h₂
    rcases held_update_iff.mp h₁ with ⟨rfl, heq₁⟩ | ⟨-, h₁⟩
    · rcases held_update_iff.mp h₂ with ⟨rfl, -⟩ | ⟨-, h₂⟩
      · rfl
      · cases heq₁
        exact absurd List.mem_cons_self (h.apart t₂ _ h₂)
    · rcases held_update_iff.mp h₂ with ⟨-, heq₂⟩ | ⟨-, h₂⟩
      · cases heq₂
        exact absurd List.mem_cons_self (h.apart t₁ _ h₁)
      · exact h.unique t₁ t₂ b h₁ h₂

variable [DecidableEq α]

theorem Owned.acquire (h : Owned used L held) (ha : used a = false) (ht : held t = none) :
    Owned (update used a true) L (update held t (some a)) := by
  -- nobody has it so far
  have hunused : ¬(a ∈ L ∨ ∃ t, held t = some a) := by
    rw [← h.used_iff, ha]
    exact Bool.false_ne_true
  constructor
  · exact h.nodup
  · intro b
    simp only [held_update_iff]
    by_cases hb : b = a
    · subst hb
      simp
    · rw [update_of_ne hb, h.used_iff]
      refine or_congr_right (exists_congr fun t' => ?_)
      constructor
      · intro ht'
        refine Or.inr ⟨?_, ht'⟩
        rintro rfl
        rw [ht] at ht'
        cases ht'
      · rintro (⟨-, heq⟩ | ⟨-, ht'⟩)
        · exact absurd (Option.some.inj heq).symm hb
        · exact ht'
  · intro t' b ht'
    rcases held_update_iff.mp ht' with ⟨-, heq⟩ | ⟨-, ht'⟩
    · cases heq
      exact fun hmem => hunused (Or.inl hmem)
    · exact h.apart t' b ht'
  · intro t₁ t₂ b h₁ h₂
    rcases held_update_iff.mp h₁ with ⟨rfl, heq₁⟩ | ⟨-, h₁⟩
    · rcases held_update_iff.mp h₂ with ⟨rfl, -⟩ | ⟨-, h₂⟩
      · rfl
      · cases heq₁
        exact absurd (Or.inr ⟨t₂, h₂⟩) hunused
    · rcases held_update_iff.mp h₂ with ⟨-, heq₂⟩ | ⟨-, h₂⟩
      · cases heq₂
        exact absurd (Or.inr ⟨t₁, h₁⟩) hunused
      · exact h.unique t₁ t₂ b h₁ h₂

theorem Owned.publish (h : Owned used L held) (ht : held t = some a) :
    Owned used (L ++ [a]) (update held t none) := by
  constructor
  · exact List.nodup_append_comm.mp (List.nodup_cons.mpr ⟨h.apart t a ht, h.nodup⟩)
  · intro b
    simp only [h.held_drop_iff ht, List.mem_append, List.mem_singleton, h.used_iff]
    by_cases hb : b = a
    · subst hb
      simp only [or_true, true_or, iff_true]
      exact Or.inr ⟨t, ht⟩
    · simp [hb]
  · intro t' b ht'
    obtain ⟨ht', hb⟩ := (h.held_drop_iff ht).mp ht'
    rw [List.mem_append, List.mem_singleton]
    exact not_or.mpr ⟨h.apart t' b ht', hb⟩
  · intro t₁ t₂ b h₁ h₂
    exact h.unique t₁ t₂ b ((h.held_drop_iff ht).mp h₁).1 ((h.held_drop_iff ht).mp h₂).1

theorem Owned.discard (h : Owned used L held) (ht : held t = some a) :
    Owned (update used a false) L (update held t none) := by
  constructor
  · exact h.nodup
  · intro b
    simp only [h.held_drop_iff ht]
    by_cases hb : b = a
    · subst hb
      simp [h.apart t b ht]
    · rw [update_of_ne hb, h.used_iff]
      simp [hb]
  · intro t' b ht'
    exact h.apart t' b ((h.held_drop_iff ht).mp ht').1
  · intro t₁ t₂ b h₁ h₂
    exact h.unique t₁ t₂ b ((h.held_drop_iff ht).mp h₁).1 ((h.held_drop_iff ht).mp h₂).1

end Owned

end KvStore.Lib
