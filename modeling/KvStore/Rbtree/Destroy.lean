import KvStore.Rbtree.Sentinel

set_option autoImplicit false

/-! # Destruction

`kvstore_rbtree_destory` frees the key of the sentinel and then deletes the least node until the
loop ends. The test of the loop looks at the node that has just been taken out, which is never the
sentinel. So after the last node has gone the loop goes on, and `rbtree_mini` starts at a root that
is the sentinel: it reads `nil->left`, which nobody has written. The function returns for the empty
tree only (`destory_iff`). -/

namespace KvStore.Rbtree

open KvStore.Lib KvStore.Lib.RBTree

/-! ## The key of the sentinel -/

/-- The sentinel has a key, and this string belongs to none of the entries. -/
def SentinelKey (s : State) (es : List Entry) : Prop :=
  ∃ k, keyAt s s.desc.nil = some k ∧ (s.str k).isSome ∧ k ∉ es.flatMap Entry.blocks

section SentinelKey

variable {s s' : State} {es es' : List Entry}

theorem SentinelKey.spared (h : SentinelKey s es) (hs : Spares s s' es es') :
    SentinelKey s' es' := by
  obtain ⟨k, hkey, hlive, hes⟩ := h
  refine ⟨k, ?_, hs.str k hlive hes⟩
  rw [hs.nil, hs.key, hkey]

theorem sentinelKey_created : SentinelKey created [] := ⟨2, rfl, rfl, List.not_mem_nil⟩

theorem Reachable.sentinelKey (h : Reachable s) :
    ∃ T es, Holds s T es ∧ SentinelKey s es := by
  refine Reach.invariant (I := fun s => ∃ T es, Holds s T es ∧ SentinelKey s es)
    (fun c s r s' hI hrun => ?_) ⟨_, _, holds_created, sentinelKey_created⟩ h
  obtain ⟨T, es, hs, hkey⟩ := hI
  obtain ⟨T', es', hs', hspares⟩ := (hs.ok_call c.1 c.2).returns r s' hrun
  exact ⟨T', es', hs', hkey.spared hspares⟩

theorem Reachable.bare (h : Reachable s) : Bare 1 s :=
  Reach.invariant (fun c _ r s' hb hrun =>
    (overlooks_call (h := ⟨none, none, none⟩) hb c).returns r s' hrun) bare_created h

end SentinelKey

/-! ## The loop -/

/-- What the loop needs of a memory with the tree `T`. -/
structure Doomed (s : State) (T : RBTree Nat) : Prop where
  rep : Rep s T
  redBlack : T.IsRedBlack
  length_le : T.toList.length ≤ s.next
  written : ∀ a ∈ T.toList, ∃ kp vp, dataAt s a = (some kp, some vp)
  positive : ∀ a ∈ T.toList, a ≠ 0
  bare : Bare s.desc.nil s

section Loop

variable {s : State} {T : RBTree Nat} {node calls : Nat}

/-- `rbtree_mini` reads the left child of the node it starts from. -/
theorem rbtreeMini_run_uninit {x : Nat} (hx : (s.node x).isSome)
    (hleft : childAt s .left x = none) : (rbtreeMini x).run s = .error .uninit :=
  run_loop_error (run_bind_error (run_readField_uninit hx hleft))

/-- An iteration with nodes left in the tree deletes one of them. -/
theorem Doomed.ok_destoryStep (h : Doomed s T) (hT : T ≠ .nil) (hnode : node ≠ s.desc.nil)
    (calls : Nat) :
    Ok (destoryStep (node, calls)) s fun x s' => ∃ y T', x = .inl (y, calls + 1) ∧ Doomed s' T' ∧
      y ≠ s'.desc.nil ∧ T'.toList.length + 1 = T.toList.length := by
  unfold destoryStep
  rw [ok_bind, ok_getNil, if_pos hnode, ok_bind, ok_getRoot, ok_bind, h.rep.root]
  refine ok_rbtreeMini (k := []) h.rep hT h.length_le fun k c z r hplug _ => ?_
  have hz : z ∈ T.toList := by
    have hmem : z ∈ (plug k (RBTree.node c .nil z r)).toList := by simp [toList_plug, toList]
    rwa [← hplug] at hmem
  have hznil : z ≠ s.desc.nil := fun heq => h.rep.nil_notMem (heq ▸ hz)
  obtain ⟨L₁, L₂, hL⟩ := List.append_of_mem hz
  rw [ok_bind, ok_getNil, if_neg hznil, ok_bind]
  have hbare : Returns (rbtreeDelete z) s fun _ s' => Bare s.desc.nil s' :=
    (overlooks_rbtreeDelete (h := ⟨none, none, none⟩) h.bare fun _ _ hb => hb).returns
  refine (Ok.and_returns (ok_rbtreeDelete h.rep h.redBlack h.length_le hL h.written
    (Q := fun y s' => ∃ T', Rep s' T' ∧ T'.IsRedBlack ∧ T.toList.Perm (y :: T'.toList) ∧
      T'.toList.map (dataAt s') = (L₁ ++ L₂).map (dataAt s) ∧ SameHeap s s')
    fun y s' T' hT' hrb hperm hdata _ hheap _ => ⟨T', hT', hrb, hperm, hdata, hheap⟩) hbare).mono ?_
  rintro y s' ⟨⟨T', hT', hrb, hperm, hdata, hheap⟩, hb⟩
  have hy : y ∈ T.toList := hperm.mem_iff.mpr List.mem_cons_self
  have hlen : T'.toList.length + 1 = T.toList.length := hperm.length_eq.symm
  rw [if_neg (h.positive y hy), ok_pure]
  refine ⟨y, T', rfl, ⟨hT', hrb, ?_, fun a ha => ?_, fun a ha => ?_, ?_⟩, ?_, hlen⟩
  · have hle := h.length_le
    rw [hheap.next]
    omega
  · have hmem : dataAt s' a ∈ (L₁ ++ L₂).map (dataAt s) := hdata ▸ List.mem_map_of_mem ha
    obtain ⟨b, hb, hba⟩ := List.mem_map.mp hmem
    rw [← hba]
    refine h.written b ?_
    rw [hL]
    exact List.perm_middle.mem_iff.mpr (List.mem_cons_of_mem z hb)
  · exact h.positive a (hperm.mem_iff.mpr (List.mem_cons_of_mem y ha))
  · rwa [hheap.nil]
  · rw [hheap.nil]
    exact fun heq => h.rep.nil_notMem (heq ▸ hy)

/-- When no node is left, the iteration descends through the sentinel. -/
theorem Doomed.destoryStep_run_nil (h : Doomed s .nil) (hnode : node ≠ s.desc.nil) :
    (destoryStep (node, calls)).run s = .error .uninit := by
  have hmini := rbtreeMini_run_uninit h.rep.live_nil (h.bare.childAt_eq_none .left)
  have hroot : s.desc.root = s.desc.nil := h.rep.root
  unfold destoryStep
  rw [run_bind_ok (show getNil.run s = .ok (s.desc.nil, s) from rfl), if_pos hnode,
    run_bind_ok (show getRoot.run s = .ok (s.desc.root, s) from rfl), hroot]
  exact run_bind_error hmini

/-- **The loop never ends well** once it has been entered: it deletes the nodes one by one, and goes
on. -/
theorem Doomed.loop_run (h : Doomed s T) (hnode : node ≠ s.desc.nil) {n : Nat}
    (hn : T.toList.length < n) : (loop destoryStep n (node, calls)).run s = .error .uninit := by
  induction n generalizing s T node calls with
  | zero => exact absurd hn (Nat.not_lt_zero _)
  | succ n ih =>
      by_cases hT : T = .nil
      · subst hT
        exact run_loop_error (h.destoryStep_run_nil hnode)
      · obtain ⟨x, s', hrun, y, T', rfl, h', hy, hlen⟩ := h.ok_destoryStep hT hnode calls
        rw [run_loop_next hrun]
        exact ih h' hy (by omega)

end Loop

/-! ## The whole function -/

section Destory

variable {s : State} {T : RBTree Nat} {es : List Entry}

/-- The first two statements: the key of the sentinel is given back. -/
theorem destory_run (h : Holds s T es) {k : Nat} (hkey : keyAt s s.desc.nil = some k)
    (hlive : (s.str k).isSome) :
    kvstoreRbtreeDestory.run s = (whileLoop destoryStep (s.desc.root, 0)).run (s.dropStr k) := by
  have hk : k ≠ 0 := by
    have := h.wf.str_bound k hlive
    omega
  have hfree : (free k).run s = .ok ((), s.dropStr k) := by
    obtain ⟨u, s', hrun, hs'⟩ := (ok_free_str h.wf hlive fun _ s' => s' = s.dropStr k).mpr rfl
    rw [hrun, hs']
  have hget : (getKey s.desc.nil).run s = .ok (k, s) := by
    obtain ⟨k', s', hrun, rfl, rfl⟩ := (ok_getKey hkey fun k' s' => k' = k ∧ s' = s).mpr ⟨rfl, rfl⟩
    exact hrun
  have hnil : getNil.run s = .ok (s.desc.nil, s) := rfl
  unfold kvstoreRbtreeDestory
  rw [run_bind_ok hnil, run_bind_ok hget, if_pos hk, run_bind_ok hnil, run_bind_ok hget,
    run_bind_ok hfree]
  rfl

theorem Holds.doomed (h : Holds s T es) (hb : Bare s.desc.nil s) (k : Nat) :
    Doomed (s.dropStr k) T where
  rep := by
    have hlinks : SameLinks s (s.dropStr k) := ⟨fun _ => rfl, fun _ _ => rfl, fun _ => rfl, rfl⟩
    exact hlinks.rep h.rep
  redBlack := h.redBlack
  length_le := h.length_lt.le
  written := h.data_written
  positive a ha := by
    have := h.wf.node_bound a (h.rep.linked.live ha)
    omega
  bare := hb.dropStr k

/-- **`kvstore_rbtree_destory` works for the empty tree only.** For every tree that calls can build,
it returns with the root at the sentinel, after one call of `rbtree_delete` for each node, exactly
when the tree has no node; otherwise it reads a field of the sentinel that has not been written. -/
theorem destory_iff (hs : Reachable s) :
    (Ok kvstoreRbtreeDestory s (fun calls s' =>
        s'.desc.root = s'.desc.nil ∧ calls = {p | InTree s p}.ncard) ↔ s.desc.root = s.desc.nil) ∧
      (s.desc.root ≠ s.desc.nil → kvstoreRbtreeDestory.run s = .error .uninit) := by
  obtain ⟨T, es, h, k, hkey, hlive, -⟩ := hs.sentinelKey
  have hrun := destory_run h hkey hlive
  have hbare : Bare s.desc.nil s := hs.bare.nil ▸ hs.bare
  have hdoomed : Doomed (s.dropStr k) T := h.doomed hbare k
  have herror : s.desc.root ≠ s.desc.nil → kvstoreRbtreeDestory.run s = .error .uninit := by
    intro hne
    rw [hrun]
    exact hdoomed.loop_run hne (Nat.lt_succ_of_le hdoomed.length_le)
  refine ⟨⟨fun hok => ?_, fun hroot => ?_⟩, herror⟩
  · by_contra hne
    obtain ⟨calls, s', hret, -⟩ := hok
    rw [herror hne] at hret
    cases hret
  · have hT : T = .nil := by
      by_contra hT
      rw [h.rep.root] at hroot
      exact h.rep.nil_notMem (hroot ▸ ptr_mem hT)
    have hexit : (destoryStep (s.desc.root, 0)).run (s.dropStr k) = .ok (.inr 0, s.dropStr k) := by
      have hnil : getNil.run (s.dropStr k) = .ok (s.desc.root, s.dropStr k) := hroot ▸ rfl
      unfold destoryStep
      rw [run_bind_ok hnil, if_neg (by simp)]
      rfl
    refine ⟨0, s.dropStr k, hrun.trans (run_loop_exit hexit), hroot, ?_⟩
    rw [h.rep.ncard_inTree, hT]
    rfl

end Destory

/-- A tree from which the only key has been deleted again can be destroyed. -/
theorem destory_emptied :
    let s :=
      afterCalls [(allOk, .set (CStr.lit "k") (CStr.lit "v")), (allOk, .delete (CStr.lit "k"))]
    Reachable s ∧ Ok kvstoreRbtreeDestory s fun calls s' =>
      s'.desc.root = s'.desc.nil ∧ calls = {p | InTree s p}.ncard :=
  ⟨reachable_afterCalls _, (destory_iff (reachable_afterCalls _)).1.mpr (by decide +kernel)⟩

/-- A tree with one key: its node is deleted, and then `nil->left` is read. -/
theorem destory_one_key :
    let s := afterCalls [(allOk, .set (CStr.lit "k") (CStr.lit "v"))]
    Reachable s ∧ fault (kvstoreRbtreeDestory.run s) = some .uninit :=
  ⟨reachable_afterCalls _, by decide +kernel⟩

end KvStore.Rbtree
