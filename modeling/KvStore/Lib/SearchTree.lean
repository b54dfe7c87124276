import KvStore.Lib.RedBlack

set_option autoImplicit false

/-! # Search trees

Labels carry a key, given by a function `f` into a linear order. `IsSearchTree f t` is the search
order; it says that the keys from left to right increase (`isSearchTree_iff`). A search walks
down from the root to a position whose labels on the left have smaller keys and whose labels on
the right have greater ones (`Between`); at the end of an unsuccessful walk the key is nowhere in
the tree (`Between.not_mem`).
-/

namespace KvStore.Lib

open KvStore.Lib.RBTree

section Search

variable {α κ : Type} [LinearOrder κ]

/-- The search order: every key left of a node is smaller than its key, every key right of it is
greater. -/
def RBTree.IsSearchTree (f : α → κ) : RBTree α → Prop
  | .nil => True
  | .node _ l a r =>
      (∀ b ∈ l.toList, f b < f a) ∧ (∀ b ∈ r.toList, f a < f b) ∧ l.IsSearchTree f ∧
        r.IsSearchTree f

/-- The search order is that of the labels from left to right. -/
theorem isSearchTree_iff (f : α → κ) (t : RBTree α) :
    t.IsSearchTree f ↔ t.toList.Pairwise (fun a b => f a < f b) := by
  induction t with
  | nil => simp [IsSearchTree, toList]
  | node c l a r ihl ihr =>
      rw [IsSearchTree, toList, List.pairwise_append, List.pairwise_cons, ihl, ihr]
      constructor
      · rintro ⟨hl, hr, hL, hR⟩
        refine ⟨hL, ⟨hr, hR⟩, fun b hb b' hb' => ?_⟩
        rcases List.mem_cons.mp hb' with rfl | hb'
        · exact hl b hb
        · exact (hl b hb).trans (hr b' hb')
      · rintro ⟨hL, ⟨hr, hR⟩, hcross⟩
        exact ⟨fun b hb => hcross b hb a (by simp), hr, hL, hR⟩

/-- The key `x` belongs at the position `k`. -/
structure Between (f : α → κ) (k : Ctx α) (x : κ) : Prop where
  lt : ∀ a ∈ before k, f a < x
  gt : ∀ a ∈ after k, x < f a

theorem between_root (f : α → κ) (x : κ) : Between f [] x := ⟨nofun, nofun⟩

variable {f : α → κ} {k : Ctx α} {x : κ} {c : Color} {l r : RBTree α} {a : α}

/-- One step down to the left. -/
theorem Between.left (h : Between f k x) (hs : (plug k (node c l a r)).IsSearchTree f)
    (hx : x < f a) : Between f (⟨.left, c, a, r⟩ :: k) x where
  lt := h.lt
  gt b hb := by
    rw [isSearchTree_iff, toList_plug, toList, List.append_assoc, List.pairwise_append] at hs
    have hs' := (List.pairwise_append.mp (List.pairwise_append.mp hs.2.1).1).2.1
    rw [List.pairwise_cons] at hs'
    rcases List.mem_append.mp hb with hb | hb
    · rcases List.mem_cons.mp hb with rfl | hb
      · exact hx
      · exact hx.trans (hs'.1 b hb)
    · exact h.gt b hb

/-- One step down to the right. -/
theorem Between.right (h : Between f k x) (hs : (plug k (node c l a r)).IsSearchTree f)
    (hx : f a < x) : Between f (⟨.right, c, a, l⟩ :: k) x where
  lt b hb := by
    rw [isSearchTree_iff, toList_plug, toList, List.append_assoc, List.pairwise_append] at hs
    have hs' := (List.pairwise_append.mp (List.pairwise_append.mp hs.2.1).1).2.2
    rcases List.mem_append.mp hb with hb | hb
    · exact h.lt b hb
    · rcases List.mem_append.mp hb with hb | hb
      · exact (hs' b hb a (by simp)).trans hx
      · rw [List.mem_singleton.mp hb]
        exact hx
  gt := h.gt

/-- At the end of an unsuccessful walk the key is nowhere in the tree. -/
theorem Between.not_mem (h : Between f k x) {b : α} (hb : b ∈ (plug k nil).toList) : f b ≠ x := by
  rw [toList_plug] at hb
  rcases List.mem_append.mp hb with hb | hb
  · rw [toList, List.append_nil] at hb
    exact (h.lt b hb).ne
  · exact (h.gt b hb).ne'

/-- The side on which the last step went down. -/
theorem Between.side_iff {g : Frame α} (h : Between f (g :: k) x) :
    x < f g.label ↔ g.side = .left := by
  cases hs : g.side with
  | left => exact ⟨fun _ => rfl, fun _ => h.gt _ (by simp [after, hs])⟩
  | right =>
      have hlt : f g.label < x := h.lt _ (by simp [before, hs])
      exact ⟨fun hx => absurd hx hlt.not_gt, fun heq => absurd heq (by decide)⟩

end Search

/-- Every label of a tree is at some position. -/
theorem exists_plug_of_mem {α : Type} {t : RBTree α} {a : α} (h : a ∈ t.toList) (k : Ctx α) :
    ∃ k' c l r, plug k t = plug k' (node c l a r) := by
  induction t generalizing k with
  | nil => cases h
  | node c l b r ihl ihr =>
      rw [toList, List.mem_append, List.mem_cons] at h
      rcases h with h | rfl | h
      · exact ihl h (⟨.left, c, b, r⟩ :: k)
      · exact ⟨k, c, l, r, rfl⟩
      · exact ihr h (⟨.right, c, b, l⟩ :: k)

end KvStore.Lib
