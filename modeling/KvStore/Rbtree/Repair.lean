import KvStore.Lib.Iterations
import KvStore.Rbtree.Runs

set_option autoImplicit false

/-! # The repair loops end

Each iteration of `rbtree_insert_fixup` brings `z` closer to the root, by two levels when the uncle
is red and by one when there is a rotation. An iteration of `rbtree_delete_fixup` brings `x` closer
to the root, or ends the loop there, with one exception: after a red sibling has been rotated above
the parent, `x` moves up to a node of its own level. That node is red then, and the loop ends
(`repairs_end`). -/

namespace KvStore.Rbtree

open KvStore.Lib KvStore.Lib.RBTree

/-! ## Levels -/

/-- The number of parent pointers from `p` to the root, at most `n`. -/
def levelIn (s : State) : Nat → Nat → Nat
  | 0, _ => 0
  | n + 1, p =>
      if p = s.desc.root then 0
      else match parentAt s p with
        | none => 0
        | some q => levelIn s n q + 1

/-- The level of a node in the tree; the sentinel has one when its parent has been borrowed. -/
def levelAt (s : State) (p : Nat) : Nat := levelIn s (s.next + 1) p

/-- The loop variable has come closer to the root. -/
def Closer (p q : Nat × State) : Prop := levelAt q.2 q.1 < levelAt p.2 p.1

section Level

variable {s : State} {k : Ctx Nat} {t : RBTree Nat}

theorem Focus.levelIn_eq (h : Focus s k t) {n : Nat} (hn : k.length < n) :
    levelIn s n (ptr s.desc.nil t) = k.length := by
  induction k generalizing t n with
  | nil =>
      obtain ⟨m, rfl⟩ : ∃ m, n = m + 1 := ⟨n - 1, by omega⟩
      have hroot : s.desc.root = ptr s.desc.nil t := h.rep.root
      rw [levelIn, if_pos hroot.symm]
      rfl
  | cons f k ih =>
      obtain ⟨m, rfl⟩ : ∃ m, n = m + 1 := ⟨n - 1, by omega⟩
      have hparent : parentAt s (ptr s.desc.nil t) = some f.label := h.parent
      have hup : Focus s k (f.fill t) := Rep.toFocus (k := k) h.rep (by simp [Frame.fill])
      have hptr : ptr s.desc.nil (f.fill t) = f.label := ptr_bin ..
      have hlevel := ih hup (Nat.lt_of_succ_lt_succ hn)
      rw [hptr] at hlevel
      rw [levelIn, if_neg h.rep.ptr_ne_root, hparent]
      dsimp only
      rw [hlevel, List.length_cons]

theorem Focus.levelAt_eq (h : Focus s k t) (hbound : (plug k t).toList.length ≤ s.next) :
    levelAt s (ptr s.desc.nil t) = k.length := by
  have hk := length_le_toList_plug k t
  exact h.levelIn_eq (by omega)

end Level

/-! ## The loops -/

section Loops

variable {s₀ s : State} {L : List Nat} {i : Ctx Nat × RBTree Nat} {z : Nat}

theorem InsertLoop.levelAt_eq (h : InsertLoop s₀ L i z s) (hbound : L.length ≤ s₀.next) :
    levelAt s z = i.1.length := by
  have hne : i.2 ≠ .nil := by
    obtain ⟨n, -, -, hc⟩ := h.inv
    exact ne_nil_of_color hc
  rw [h.ptr_eq]
  refine (h.rep.toFocus hne).levelAt_eq ?_
  rw [h.toList, h.moved.toSameData.next]
  exact hbound

theorem DeleteLoop.levelAt_eq (h : DeleteLoop s₀ L i z s) (hbound : L.length ≤ s₀.next) :
    levelAt s z = i.1.length := by
  rw [h.ptr_eq]
  refine h.focus.levelAt_eq ?_
  rw [h.toList, h.moved.toSameData.next]
  exact hbound

/-- The loop of `rbtree_insert_fixup`. -/
theorem insertFixup_iterates {k : Ctx Nat} {t : RBTree Nat} (h : Rep s (plug k t))
    (hinv : InsertInv k t) (hbound : (plug k t).toList.length ≤ s.next) :
    ∃ L s', Iterates insertFixupStep (ptr s.desc.nil t) s L () s' ∧
      Advances Closer 1 (ptr s.desc.nil t, s) L := by
  have hiter : ∃ L r s', Iterates insertFixupStep (ptr s.desc.nil t) s L r s' ∧
      L.length ≤ k.length ∧ Advances Closer 1 (ptr s.desc.nil t, s) L := by
    refine exists_iterates (InsertLoop s (plug k t).toList) (fun i => i.1.length) Closer ?_
      (i := (k, t)) ⟨h, hinv, rfl, rfl, Moved.refl s⟩
    rintro ⟨k', t'⟩ z s₁ hloop
    refine ok_insertFixupStep hloop (fun i' z' s' hloop' hlt => ⟨i', hloop', hlt, Or.inl ?_⟩)
      fun _ => trivial
    show levelAt s' z' < levelAt s₁ z
    rw [hloop'.levelAt_eq hbound, hloop.levelAt_eq hbound]
    exact hlt
  obtain ⟨L, r, s', hL, -, hadv⟩ := hiter
  exact ⟨L, s', hL, hadv⟩

/-- The loop of `rbtree_delete_fixup`. -/
theorem deleteFixup_iterates {k : Ctx Nat} {t : RBTree Nat} (h : Focus s k t) (hinv : DeleteInv k t)
    (hbound : (plug k t).toList.length ≤ s.next) :
    ∃ L x' s', Iterates deleteFixupStep (ptr s.desc.nil t) s L x' s' ∧
      Advances Closer 1 (ptr s.desc.nil t, s) L := by
  have hiter : ∃ L r s', Iterates deleteFixupStep (ptr s.desc.nil t) s L r s' ∧
      L.length ≤ deleteMeasure k t ∧ Advances Closer 1 (ptr s.desc.nil t, s) L := by
    refine exists_iterates (DeleteLoop s (plug k t).toList)
      (fun i => deleteMeasure i.1 i.2) Closer ?_ (i := (k, t)) ⟨h, hinv, rfl, rfl, Moved.refl s⟩
    rintro ⟨k', t'⟩ x s₁ hloop
    refine ok_deleteFixupStep hloop (fun i' x' s' hloop' hlt => ⟨i', hloop', hlt, ?_⟩)
      fun _ => trivial
    by_cases hred : i'.2.color = .red
    · -- the loop ends at a red node
      exact Or.inr (if_pos hred)
    · refine Or.inl ?_
      have hlevel := hloop.levelAt_eq hbound
      show levelAt s' x' < levelAt s₁ x
      rw [hloop'.levelAt_eq hbound, hlevel]
      dsimp only at hlt ⊢
      rw [deleteMeasure, if_neg hred, deleteMeasure] at hlt
      split_ifs at hlt <;> omega
  obtain ⟨L, r, s', hL, -, hadv⟩ := hiter
  exact ⟨L, r, s', hL, hadv⟩

end Loops

/-! ## Every call -/

section Calls

variable {s : State} {T : RBTree Nat} {es : List Entry}

/-- `kvs_rbtree_set` of a new key hangs its node into the tree, and the repair ends. -/
theorem Holds.insert_iterates (h : Holds s T es) {k : CStr} (hk : k ∉ es.map Entry.key) (v : CStr) :
    ∃ s₁, (insertPlace s.next).run (staged s k v) = .ok (true, s₁) ∧
      ∃ L s₂, Iterates insertFixupStep s.next s₁ L () s₂ ∧ Advances Closer 1 (s.next, s₁) L := by
  have hst : Holds (staged s k v) T es := h.grows (staged_grows h.wf) (staged_wf h.wf)
  have hz : Keyed (staged s k v) s.next ∧ keyOf (staged s k v) s.next = k :=
    keyed_of_cstr (congrArg Prod.fst staged_dataAt) staged_key
  have hfresh : ∀ p, (s.node p).isSome → s.next ≠ p := by
    intro p hp
    have := h.wf.node_bound p hp
    omega
  have hok : Ok (insertPlace s.next) (staged s k v) fun b s₁ => b = true ∧
      ∃ L s₂, Iterates insertFixupStep s.next s₁ L () s₂ ∧ Advances Closer 1 (s.next, s₁) L := by
    refine ok_insertPlace hst.rep hst.ordered hst.length_lt.le hz.1
      (fun hm => hfresh _ (h.rep.linked.live hm) rfl) (hfresh _ h.rep.live_nil) ?_ ?_
    · rintro ⟨a, ha, hak⟩
      refine absurd ?_ hk
      rw [← hst.keys, List.mem_map]
      exact ⟨a, ha, hak.trans hz.2⟩
    · rintro c rfl - hrep
      refine ⟨rfl, insertFixup_iterates hrep (insertInv_leaf h.redBlack s.next) ?_⟩
      rw [(sameData_attached _ c s.next).next]
      have hlt := hst.length_lt
      simp only [toList_plug, toList, List.length_append, List.length_cons, List.length_nil]
        at hlt ⊢
      omega
  obtain ⟨b, s₁, hrun, rfl, hiter⟩ := hok
  exact ⟨s₁, hrun, hiter⟩

/-- `rbtree_delete` of a node of the tree takes a node out, and the repair ends. -/
theorem Holds.delete_iterates (h : Holds s T es) {z : Nat} (hz : z ∈ T.toList) :
    ∃ y x s₁, (deleteSplice z).run s = .ok ((y, x), s₁) ∧ (colorAt s₁ y = some .black →
      ∃ L x' s₂, Iterates deleteFixupStep x s₁ L x' s₂ ∧ Advances Closer 1 (x, s₁) L) := by
  obtain ⟨L₁, L₂, hL⟩ := List.append_of_mem hz
  have hok : Ok (deleteSplice z) s fun p s₁ => colorAt s₁ p.1 = some .black →
      ∃ L x' s₂, Iterates deleteFixupStep p.2 s₁ L x' s₂ ∧ Advances Closer 1 (p.2, s₁) L := by
    refine ok_deleteSplice h.rep h.redBlack h.length_lt.le hL h.data_written ?_
    intro y k d c x s₁ hv hs₁ hblack
    rw [hs₁.color] at hblack
    obtain rfl : c = .black := Option.some.inj hblack
    refine deleteFixup_iterates hs₁.focus hs₁.inv ?_
    have hlen := hv.perm.length_eq
    have hlt := h.length_lt
    rw [List.length_cons] at hlen
    rw [hs₁.heap.next]
    omega
  obtain ⟨p, s₁, hrun, hiter⟩ := hok
  exact ⟨p.1, p.2, s₁, hrun, hiter⟩

/-- **The repair loops end**, in every tree that calls can build. The loop of `rbtree_insert_fixup`
that `rbtree_insert` of a new key starts, and the loop of `rbtree_delete_fixup` that `rbtree_delete`
starts when the node it takes out is black, run through finitely many iterations, and each of these
brings `z` or `x` closer to the root, or is the last one. -/
theorem repairs_end (hs : Reachable s) :
    (∀ k v, k ∉ contents s → ∃ s₁, (insertPlace s.next).run (staged s k v) = .ok (true, s₁) ∧
      ∃ L s₂, Iterates insertFixupStep s.next s₁ L () s₂ ∧ Advances Closer 1 (s.next, s₁) L) ∧
    ∀ z, InTree s z → ∃ y x s₁, (deleteSplice z).run s = .ok ((y, x), s₁) ∧
      (colorAt s₁ y = some .black →
        ∃ L x' s₂, Iterates deleteFixupStep x s₁ L x' s₂ ∧ Advances Closer 1 (x, s₁) L) := by
  obtain ⟨T, es, h⟩ := hs.holds
  refine ⟨fun k v hk => h.insert_iterates (mt h.mem_contents.mpr hk) v, fun z hz => ?_⟩
  exact h.delete_iterates ((h.rep.inTree_iff z).mp hz)

end Calls

/-- The tree of three nodes: a fourth key is inserted, and the root is deleted. -/
theorem repairs_end_threeSets :
    let s := afterCalls threeSets
    Reachable s ∧ CStr.lit "d" ∉ contents s ∧ InTree s 3 ∧
      (∃ s₁, (insertPlace s.next).run (staged s (CStr.lit "d") (CStr.lit "4")) = .ok (true, s₁) ∧
        ∃ L s₂, Iterates insertFixupStep s.next s₁ L () s₂ ∧ Advances Closer 1 (s.next, s₁) L) ∧
      ∃ y x s₁, (deleteSplice 3).run s = .ok ((y, x), s₁) ∧ (colorAt s₁ y = some .black →
        ∃ L x' s₂, Iterates deleteFixupStep x s₁ L x' s₂ ∧ Advances Closer 1 (x, s₁) L) := by
  have hnew : CStr.lit "d" ∉ contents (afterCalls threeSets) := by decide +kernel
  have hends := repairs_end (reachable_afterCalls threeSets)
  exact ⟨reachable_afterCalls threeSets, hnew, inTree_threeSets, hends.1 _ _ hnew,
    hends.2 3 inTree_threeSets⟩

end KvStore.Rbtree
