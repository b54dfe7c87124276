import KvStore.Lib.Memory

set_option autoImplicit false

/-! # Chains of blocks, and tables of chains

A pointer field `f` makes singly linked chains in a block memory. `s.Chain f p L` says that the
pointer `p` leads through the blocks at the addresses `L`, in this order, to `NULL`. A chain is
determined by its first pointer (`Chain.unique`), so it visits no block twice (`Chain.nodup`).

A chained table is a family of lists, one for each slot below `n`; `joined n tab` puts them one
after the other. An operation works on one slot, and `joined` splits into that slot and the
others (`joined_perm`, `joined_update_perm`).
-/

namespace KvStore.Lib

open Function

namespace Store

section Chain

variable {β γ : Type} {f : β → Option Nat}

/-- From `p`, the field `f` leads through the blocks `L` to `NULL`. -/
def Chain (f : β → Option Nat) (s : Store β γ) : Nat → List Nat → Prop
  | p, [] => p = 0
  | p, a :: L => p = a ∧ a ≠ 0 ∧ ∃ q, s.field f a = some q ∧ Chain f s q L

variable {s s' : Store β γ} {p a q : Nat} {L L₁ L₂ : List Nat}

theorem Chain.congr (h : s.Chain f p L) (hf : ∀ b ∈ L, s'.field f b = s.field f b) :
    s'.Chain f p L := by
  induction L generalizing p with
  | nil => exact h
  | cons b L ih =>
      obtain ⟨hp, hb, q, hq, hrest⟩ := h
      refine ⟨hp, hb, q, ?_, ih hrest fun b' hb' => hf b' (List.mem_cons_of_mem _ hb')⟩
      rw [hf b (by simp), hq]

/-- A chain that goes through `a` goes on from the pointer in `a`. -/
theorem Chain.after (h : s.Chain f p (L₁ ++ a :: L₂)) :
    ∃ q, s.field f a = some q ∧ s.Chain f q L₂ := by
  induction L₁ generalizing p with
  | nil => exact h.2.2
  | cons b L₁ ih =>
      obtain ⟨-, -, q, -, hrest⟩ := h
      exact ih hrest

/-- Let the chain go on differently after `a`. -/
theorem Chain.redirect (h : s.Chain f p (L₁ ++ a :: L)) (hf : ∀ b ∈ L₁, s'.field f b = s.field f b)
    (ha : s'.field f a = some q) (hq : s'.Chain f q L₂) : s'.Chain f p (L₁ ++ a :: L₂) := by
  induction L₁ generalizing p with
  | nil => exact ⟨h.1, h.2.1, q, ha, hq⟩
  | cons b L₁ ih =>
      obtain ⟨hp, hb, r, hr, hrest⟩ := h
      refine ⟨hp, hb, r, ?_, ih hrest fun b' hb' => hf b' (List.mem_cons_of_mem _ hb')⟩
      rw [hf b (by simp), hr]

/-- The pointer determines the chain. -/
theorem Chain.unique {L' : List Nat} (h : s.Chain f p L) (h' : s.Chain f p L') : L = L' := by
  induction L generalizing p L' with
  | nil =>
      cases L' with
      | nil => rfl
      | cons b L' =>
          have hp : p = 0 := h
          exact absurd (h'.1.symm.trans hp) h'.2.1
  | cons b L ih =>
      obtain ⟨rfl, hb, q, hq, hrest⟩ := h
      cases L' with
      | nil => exact absurd h' hb
      | cons b' L' =>
          obtain ⟨rfl, -, q', hq', hrest'⟩ := h'
          have hqq : q = q' := Option.some.inj (hq.symm.trans hq')
          subst hqq
          rw [ih hrest hrest']

/-- **A chain has no cycle.** -/
theorem Chain.nodup (h : s.Chain f p L) : L.Nodup := by
  induction L generalizing p with
  | nil => exact List.nodup_nil
  | cons b L ih =>
      obtain ⟨-, hb, q, hq, hrest⟩ := h
      refine List.nodup_cons.mpr ⟨fun hmem => ?_, ih hrest⟩
      -- a second visit of `b` would be followed by the same blocks as the first one
      obtain ⟨M₁, M₂, rfl⟩ := List.append_of_mem hmem
      obtain ⟨q', hq', hafter⟩ := hrest.after
      have hqq : q = q' := Option.some.inj (hq.symm.trans hq')
      subst hqq
      have hlen := congrArg List.length (hrest.unique hafter)
      simp only [List.length_append, List.length_cons] at hlen
      omega

theorem Chain.live (h : s.Chain f p L) (ha : a ∈ L) : (s.node a).isSome := by
  obtain ⟨L₁, L₂, rfl⟩ := List.append_of_mem ha
  obtain ⟨q, hq, -⟩ := h.after
  exact live_of_field hq

theorem Chain.length_le (h : s.Chain f p L) (hs : s.WF) : L.length ≤ s.next :=
  hs.length_le h.nodup fun _ => h.live

end Chain

end Store

/-! ## Tables -/

section Table

variable {α : Type} {n i : Nat} {tab : Nat → List α}

/-- The lists of the slots below `n`, one after the other. -/
def joined (n : Nat) (tab : Nat → List α) : List α := (List.range n).flatMap tab

/-- The lists of the slots below `n` other than `i`. -/
def others (n : Nat) (tab : Nat → List α) (i : Nat) : List α := ((List.range n).erase i).flatMap tab

theorem mem_joined {a : α} : a ∈ joined n tab ↔ ∃ j < n, a ∈ tab j := by
  simp [joined]

theorem mem_others {a : α} : a ∈ others n tab i ↔ ∃ j < n, j ≠ i ∧ a ∈ tab j := by
  simp only [others, List.mem_flatMap, List.nodup_range.mem_erase_iff, List.mem_range]
  constructor
  · rintro ⟨j, ⟨hj, hjn⟩, ha⟩
    exact ⟨j, hjn, hj, ha⟩
  · rintro ⟨j, hjn, hj, ha⟩
    exact ⟨j, ⟨hj, hjn⟩, ha⟩

theorem others_update (L : List α) : others n (update tab i L) i = others n tab i := by
  refine List.flatMap_congr fun j hj => ?_
  rw [List.nodup_range.mem_erase_iff] at hj
  exact update_of_ne hj.1 L tab

theorem joined_perm (hi : i < n) : (joined n tab).Perm (tab i ++ others n tab i) :=
  (List.perm_cons_erase (List.mem_range.mpr hi)).flatMap_right tab

theorem joined_update_perm (hi : i < n) (L : List α) :
    (joined n (update tab i L)).Perm (L ++ others n tab i) := by
  have h : (joined n (update tab i L)).Perm _ := joined_perm hi
  rwa [update_self, others_update] at h

@[simp] theorem joined_nil : joined n (fun _ => ([] : List α)) = [] := by
  simp [joined]

section Split

variable {L₁ L₂ R : List α} {a : α}

theorem perm_front : (L₁ ++ a :: L₂ ++ R).Perm (a :: (L₁ ++ L₂ ++ R)) := by
  rw [List.append_assoc, List.append_assoc]
  exact List.perm_middle

/-- An element of the slot `i`, and the rest of the table. -/
theorem joined_split_perm (hi : i < n) (h : tab i = L₁ ++ a :: L₂) :
    (joined n tab).Perm (a :: (L₁ ++ L₂ ++ others n tab i)) := by
  have hperm : (joined n tab).Perm (tab i ++ others n tab i) := joined_perm hi
  rw [h] at hperm
  exact hperm.trans perm_front

end Split

theorem map_joined {β : Type} (g : α → β) :
    (joined n tab).map g = joined n fun j => (tab j).map g :=
  List.map_flatMap ..

end Table

end KvStore.Lib
