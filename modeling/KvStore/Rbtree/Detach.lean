import KvStore.Rbtree.Runs

set_option autoImplicit false

/-! # What `rbtree_delete` hands back

`rbtree_delete(T, z)` does not always take the node `z` out: when `z` has two children it takes
the successor out and swaps the two pairs. Whichever node `y` it returns, the caller frees `y`
with its key and its value. `rbtreeDelete_detaches` says why that is right: the tree has lost
exactly the pair of `z`, `y` holds that pair, and nothing that is left in the tree refers to `y`
or to a block of it. The sentinel is not a node of the tree: its parent pointer, which the repair
borrows, is not cleared and may still be `y`.
-/

namespace KvStore.Rbtree

open KvStore.Lib KvStore.Lib.RBTree

/-! ## The nodes in order -/

/-- The nodes of the tree, in order. -/
def inOrder (s : State) : List Nat := nodesBelow s s.next s.desc.root

/-- The node has a pointer to the block `b`, as its key or as its value. -/
def OwnsBlock (s : State) (p b : Nat) : Prop := b ≠ 0 ∧ (keyAt s p = some b ∨ valueAt s p = some b)

section Tree

variable {s : State} {T : RBTree Nat}

theorem Rep.inOrder_eq (h : Rep s T) (hn : T.toList.length ≤ s.next) : inOrder s = T.toList :=
  h.wellLinked.hangs.nodesBelow_eq hn

/-- The parent of a node of a tree in memory. -/
theorem Linked.parent_mem {par : Nat} {t : RBTree Nat} (h : Linked s par t) {p q : Nat}
    (hp : p ∈ t.toList) (hq : parentAt s p = some q) : q = par ∨ q ∈ t.toList := by
  induction t generalizing par with
  | nil => cases hp
  | node c l a r ihl ihr =>
      obtain ⟨-, -, -, hpar, hL, hR⟩ := h
      simp only [toList, List.mem_append, List.mem_cons] at hp ⊢
      rcases hp with hp | rfl | hp
      · rcases ihl hL hp with hqa | hql
        · exact Or.inr (Or.inr (Or.inl hqa))
        · exact Or.inr (Or.inl hql)
      · rw [hpar] at hq
        exact Or.inl (Option.some.inj hq).symm
      · rcases ihr hR hp with hqa | hqr
        · exact Or.inr (Or.inr (Or.inl hqa))
        · exact Or.inr (Or.inr (Or.inr hqr))

/-- A block that is not in the tree and is not the sentinel is not linked to from the tree. -/
theorem Rep.not_linked (h : Rep s T) {y p : Nat} (hy : y ∉ T.toList) (hnil : y ≠ s.desc.nil)
    (hp : InTree s p) : (∀ d, childAt s d p ≠ some y) ∧ parentAt s p ≠ some y := by
  rw [h.inTree_iff] at hp
  constructor
  · intro d hd
    rcases h.linked.child_mem hp hd with hn | hm
    · exact hnil hn
    · exact hy hm
  · intro hpar
    rcases h.linked.parent_mem hp hpar with hn | hm
    · exact hnil hn
    · exact hy hm

theorem Entry.mem_blocks_of_owns {e : Entry} {p b : Nat} (hp : dataAt s p = e.ptrs)
    (hb : OwnsBlock s p b) : b ∈ e.blocks := by
  obtain ⟨hb0, hb⟩ := hb
  obtain ⟨hk, hv⟩ := Prod.mk.inj hp
  rcases hb with hb | hb
  · rw [hk] at hb
    rw [← Option.some.inj hb]
    exact List.mem_cons_self
  · rw [hv] at hb
    have hbv : e.valuePtr = b := Option.some.inj hb
    rw [Entry.blocks, if_neg (hbv ▸ hb0), hbv]
    exact List.mem_cons_of_mem _ (List.mem_singleton_self b)

/-- Entries at different places of the list own different blocks. -/
theorem blocks_disjoint {E₁ E₂ : List Entry} {e e' : Entry}
    (h : ((E₁ ++ e :: E₂).flatMap Entry.blocks).Nodup) (he' : e' ∈ E₁ ++ E₂) :
    e.blocks.Disjoint e'.blocks := by
  have hperm : (E₁ ++ e :: E₂).Perm (e :: (E₁ ++ E₂)) := List.perm_middle
  have hnd : (e.blocks ++ (E₁ ++ E₂).flatMap Entry.blocks).Nodup := by
    rw [← List.flatMap_cons]
    exact (hperm.flatMap_right Entry.blocks).nodup_iff.mp h
  intro b hb hb'
  exact (List.nodup_append.mp hnd).2.2 b hb b (List.mem_flatMap.mpr ⟨e', he', hb'⟩) rfl

end Tree

/-! ## Deletion -/

/-- **`rbtree_delete` detaches exactly the requested pair**, for every node `z` of every tree that
calls can build: the pairs that are left are the old ones without the pair of `z`, in the old
order, and the node that is returned holds the pair of `z`, is in the tree no longer, and shares no
link and no block with a node of the tree. -/
theorem rbtreeDelete_detaches {s : State} (hs : Reachable s) {z : Nat} (hz : InTree s z) :
    ∃ L₁ L₂, inOrder s = L₁ ++ z :: L₂ ∧
      Ok (rbtreeDelete z) s (fun y s' =>
        (inOrder s').map (dataAt s') = (L₁ ++ L₂).map (dataAt s) ∧
          (inOrder s).Perm (y :: inOrder s') ∧ ¬InTree s' y ∧
          (∀ p, InTree s' p → (∀ d, childAt s' d p ≠ some y) ∧ parentAt s' p ≠ some y) ∧
          dataAt s' y = dataAt s z ∧
          (∀ p b, InTree s' p → OwnsBlock s' y b → ¬OwnsBlock s' p b) ∧ s'.str = s.str) := by
  obtain ⟨T, es, h⟩ := hs.holds
  have hbound : T.toList.length ≤ s.next := h.length_lt.le
  rw [h.rep.inTree_iff] at hz
  obtain ⟨L₁, L₂, hL⟩ := List.append_of_mem hz
  rw [h.rep.inOrder_eq hbound]
  refine ⟨L₁, L₂, hL, ok_rbtreeDelete h.rep h.redBlack hbound hL h.data_written ?_⟩
  intro y s' T' h' _ hperm hdata hy hheap _
  have hlen : T'.toList.length ≤ s'.next := by
    have := hperm.length_eq
    rw [List.length_cons] at this
    rw [hheap.next]
    omega
  have hnot : y ∉ T'.toList := (List.nodup_cons.mp (hperm.nodup_iff.mp h.rep.nodup)).1
  have hyT : y ∈ T.toList := hperm.mem_iff.mpr List.mem_cons_self
  have hnil : y ≠ s'.desc.nil := by
    rintro rfl
    rw [hheap.nil] at hyT
    exact h.rep.nil_notMem hyT
  rw [h'.inOrder_eq hlen]
  refine ⟨hdata, hperm, fun hin => hnot ((h'.inTree_iff y).mp hin),
    fun p hp => h'.not_linked hnot hnil hp, hy, fun p b hp hyb hpb => ?_, hheap.str⟩
  -- the entries of the old tree, split at the entry of `z`
  have hes : es.map Entry.ptrs = L₁.map (dataAt s) ++ dataAt s z :: L₂.map (dataAt s) := by
    rw [← h.data, hL, List.map_append, List.map_cons]
  obtain ⟨E₁, E', rfl, hE₁, hE'⟩ := List.map_eq_append_iff.mp hes
  obtain ⟨e, E₂, rfl, he, hE₂⟩ := List.map_eq_cons_iff.mp hE'
  have hmem : dataAt s' p ∈ (E₁ ++ E₂).map Entry.ptrs := by
    rw [List.map_append, hE₁, hE₂, ← List.map_append, ← hdata]
    exact List.mem_map_of_mem ((h'.inTree_iff p).mp hp)
  obtain ⟨e', he', hp'⟩ := List.mem_map.mp hmem
  exact blocks_disjoint h.nodup he' (Entry.mem_blocks_of_owns (hy.trans he.symm) hyb)
    (Entry.mem_blocks_of_owns hp'.symm hpb)

/-- The root of a tree of three nodes has two children: the node that comes back is its
successor. -/
theorem rbtreeDelete_detaches_root :
    Reachable (afterCalls threeSets) ∧ InTree (afterCalls threeSets) 3 ∧
      inOrder (afterCalls threeSets) = [6, 3, 9] ∧
      Ok (rbtreeDelete 3) (afterCalls threeSets) (fun y s' => ¬InTree s' y ∧
        dataAt s' y = dataAt (afterCalls threeSets) 3) := by
  obtain ⟨L₁, L₂, -, hok⟩ := rbtreeDelete_detaches (reachable_afterCalls threeSets) inTree_threeSets
  refine ⟨reachable_afterCalls threeSets, inTree_threeSets, by decide +kernel, ?_⟩
  exact hok.mono fun y s' h => ⟨h.2.2.1, h.2.2.2.2.1⟩

-- after the deletion of `a` the sentinel's parent is the node of `b`, and stays so when `b` goes
example :
    ((rbtreeDelete 3).run
      (afterCalls (threeSets ++ [(allOk, .delete (CStr.lit "a"))]))).toOption.map
    (fun r => (r.1, parentAt r.2 r.2.desc.nil)) = some (3, some 3) := by decide +kernel

end KvStore.Rbtree
