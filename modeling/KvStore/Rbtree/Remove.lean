import KvStore.Lib.SearchTree
import KvStore.Rbtree.Delete

set_option autoImplicit false

/-! # `rbtree_delete` on trees in memory

`rbtree_delete` takes a node with at most one child out of the tree: the node it is given, or that
node's successor, whose key and value it then moves. `ok_rbtreeDelete` says what the caller sees:
the list of the keys and values in the tree has lost exactly the pair of the given node, the tree
is a red-black tree again, and the node that was taken out holds the lost pair.
-/

namespace KvStore.Rbtree

open KvStore.Lib KvStore.Lib.RBTree Store

/-! ## The data of a node -/

/-- The key and the value pointer of a node. -/
def dataAt (s : State) (p : Nat) : Option Nat × Option Nat := (keyAt s p, valueAt s p)

variable {k : Ctx Nat} {x T : RBTree Nat} {s : State} {Q : Nat → State → Prop} {c : Color}
  {d : Side} {y : Nat}

theorem SameData.dataAt {s' : State} (h : SameData s s') (p : Nat) : dataAt s' p = dataAt s p :=
  Prod.ext (h.key p) (h.value p)

/-- `s'` differs from `s` at most in keys and values. -/
structure SameLinks (s s' : State) : Prop where
  color : ∀ p, colorAt s' p = colorAt s p
  child : ∀ d p, childAt s' d p = childAt s d p
  parent : ∀ p, parentAt s' p = parentAt s p
  desc : s'.desc = s.desc

theorem SameLinks.trans {s' s'' : State} (h : SameLinks s s') (h' : SameLinks s' s'') :
    SameLinks s s'' where
  color p := (h'.color p).trans (h.color p)
  child d p := (h'.child d p).trans (h.child d p)
  parent p := (h'.parent p).trans (h.parent p)
  desc := h'.desc.trans h.desc

theorem sameLinks_putKey (s : State) (p q : Nat) : SameLinks s (putKey s p q) where
  color r := field_modNode_other s p r (fun _ => rfl)
  child d r := field_modNode_other s p r (fun _ => by cases d <;> rfl)
  parent r := field_modNode_other s p r (fun _ => rfl)
  desc := rfl

theorem sameLinks_putValue (s : State) (p q : Nat) : SameLinks s (putValue s p q) where
  color r := field_modNode_other s p r (fun _ => rfl)
  child d r := field_modNode_other s p r (fun _ => by cases d <;> rfl)
  parent r := field_modNode_other s p r (fun _ => rfl)
  desc := rfl

theorem SameLinks.linked {s' : State} (h : SameLinks s s') {par : Nat} {t : RBTree Nat}
    (ht : Linked s par t) : Linked s' par t := by
  induction t generalizing par with
  | nil => trivial
  | node c l a r ihl ihr =>
      obtain ⟨hc, hl, hr, hp, hL, hR⟩ := ht
      refine ⟨?_, ?_, ?_, ?_, ihl hL, ihr hR⟩
      · rw [h.color, hc]
      · rw [h.child, h.desc, hl]
      · rw [h.child, h.desc, hr]
      · rw [h.parent, hp]

theorem SameLinks.rep {s' : State} (h : SameLinks s s') (hT : Rep s T) :
    Rep s' T where
  root := by rw [h.desc]; exact hT.root
  linked := by rw [h.desc]; exact h.linked hT.linked
  nodup := hT.nodup
  nil_notMem := by rw [h.desc]; exact hT.nil_notMem
  nil_black := by rw [h.color, h.desc]; exact hT.nil_black

theorem SameLinks.focus {s' : State} (h : SameLinks s s') (hx : Focus s k x) : Focus s' k x :=
  ⟨h.rep hx.rep, by rw [h.parent, h.desc]; exact hx.parent⟩

/-- The memory after `swapData`. -/
def swapped (s : State) (z y kz vz ky vy : Nat) : State :=
  putValue (putValue (putKey (putKey s z ky) y kz) z vy) y vz

section Swap

variable {s : State} {z y kz vz ky vy : Nat}

theorem sameLinks_swapped : SameLinks s (swapped s z y kz vz ky vy) :=
  (((sameLinks_putKey ..).trans (sameLinks_putKey ..)).trans (sameLinks_putValue ..)).trans
    (sameLinks_putValue ..)

theorem sameHeap_swapped : SameHeap s (swapped s z y kz vz ky vy) :=
  (((sameHeap_modNode ..).trans (sameHeap_modNode ..)).trans (sameHeap_modNode ..)).trans
    (sameHeap_modNode ..)

theorem dataAt_swapped_ne {p : Nat} (hz : p ≠ z) (hy : p ≠ y) :
    dataAt (swapped s z y kz vz ky vy) p = dataAt s p := by
  have hnode : (swapped s z y kz vz ky vy).node p = s.node p := by
    unfold swapped putValue putKey
    rw [modNode_node_ne _ _ hy, modNode_node_ne _ _ hz, modNode_node_ne _ _ hy,
      modNode_node_ne _ _ hz]
  exact Prod.ext (field_congr hnode _) (field_congr hnode _)

theorem keyAt_putValue (s : State) (p q r : Nat) : keyAt (putValue s p q) r = keyAt s r :=
  field_modNode_other s p r (fun _ => rfl)

theorem valueAt_putKey (s : State) (p q r : Nat) : valueAt (putKey s p q) r = valueAt s r :=
  field_modNode_other s p r (fun _ => rfl)

theorem keyAt_putKey_self {p q : Nat} (h : (s.node p).isSome) : keyAt (putKey s p q) p = some q :=
  field_modNode_self h (fun _ => rfl)

theorem keyAt_putKey_ne {p q r : Nat} (h : r ≠ p) : keyAt (putKey s p q) r = keyAt s r :=
  field_modNode_ne s _ _ h

theorem valueAt_putValue_self {p q : Nat} (h : (s.node p).isSome) :
    valueAt (putValue s p q) p = some q :=
  field_modNode_self h (fun _ => rfl)

theorem valueAt_putValue_ne {p q r : Nat} (h : r ≠ p) :
    valueAt (putValue s p q) r = valueAt s r :=
  field_modNode_ne s _ _ h

theorem dataAt_swapped_left (hz : (s.node z).isSome) (hne : z ≠ y) :
    dataAt (swapped s z y kz vz ky vy) z = (some ky, some vy) := by
  refine Prod.ext ?_ ?_
  · show keyAt (swapped s z y kz vz ky vy) z = some ky
    rw [swapped, keyAt_putValue, keyAt_putValue, keyAt_putKey_ne hne, keyAt_putKey_self hz]
  · show valueAt (swapped s z y kz vz ky vy) z = some vy
    rw [swapped, valueAt_putValue_ne hne, valueAt_putValue_self (by simpa using hz)]

theorem dataAt_swapped_right (hy : (s.node y).isSome) :
    dataAt (swapped s z y kz vz ky vy) y = (some kz, some vz) := by
  refine Prod.ext ?_ ?_
  · show keyAt (swapped s z y kz vz ky vy) y = some kz
    rw [swapped, keyAt_putValue, keyAt_putValue, keyAt_putKey_self (by simpa using hy)]
  · show valueAt (swapped s z y kz vz ky vy) y = some vz
    rw [swapped, valueAt_putValue_self (by simpa using hy)]

theorem ok_swapData (hkz : keyAt s z = some kz) (hvz : valueAt s z = some vz)
    (hky : keyAt s y = some ky) (hvy : valueAt s y = some vy) (Q : Unit → State → Prop) :
    Ok (swapData z y) s Q ↔ Q () (swapped s z y kz vz ky vy) := by
  have hz := live_of_field hkz
  have hy := live_of_field hky
  unfold swapData
  simp only [ok_bind]
  rw [ok_getKey hkz, ok_getKey hky, ok_setKey hz, ok_setKey (by simpa using hy),
    ok_getValue (by rw [valueAt_putKey, valueAt_putKey]; exact hvz),
    ok_getValue (by rw [valueAt_putKey, valueAt_putKey]; exact hvy),
    ok_setValue (by simpa using hz), ok_setValue (by simpa using hy)]
  rfl

end Swap

/-! ## The node that is taken out -/

/-- **`rbtree_mini`** finds the leftmost node of a tree; nothing lies between the position it
starts from and the node it finds. -/
theorem ok_rbtreeMini {t : RBTree Nat} (h : Rep s (plug k t))
    (ht : t ≠ .nil) (hbound : t.toList.length ≤ s.next)
    (hQ : ∀ k' c y r, plug k t = plug k' (node c .nil y r) → before k' = before k → Q y s) :
    Ok (rbtreeMini (ptr s.desc.nil t)) s Q := by
  refine Ok.whileLoop (fun (i : Ctx Nat × RBTree Nat) x s' => s' = s ∧ i.2 ≠ .nil ∧
    x = ptr s.desc.nil i.2 ∧ plug k t = plug i.1 i.2 ∧ before i.1 = before k)
    (fun i => i.2.toList.length) _ ?_ (i := (k, t)) hbound ⟨rfl, ht, rfl, rfl, rfl⟩
  rintro ⟨k', u⟩ x s' ⟨rfl, hu, rfl, hplug, hbefore⟩
  dsimp only at hu hplug hbefore ⊢
  cases u with
  | nil => exact absurd rfl hu
  | node c l a r =>
      have hrep : Rep s' (plug k' (node c l a r)) := hplug ▸ h
      obtain ⟨-, hl, -, -, -, -⟩ := hrep.focus
      have hptr : ptr s'.desc.nil (node c l a r) = a := rfl
      unfold miniStep
      simp only [ok_bind, hptr, ok_getChild hl, ok_getNil]
      by_cases hln : l = .nil
      · subst hln
        rw [if_neg (by simp), ok_pure]
        exact hQ k' c a r hplug hbefore
      · have hne : ptr s'.desc.nil l ≠ s'.desc.nil := by
          intro heq
          exact hrep.nil_sep (by rw [← heq]; simp [toList, ptr_mem hln])
        rw [if_pos hne, ok_bind, ok_getChild hl, ok_pure]
        exact ⟨(⟨.left, c, a, r⟩ :: k', l), ⟨rfl, hln, rfl, hplug, hbefore⟩,
          by simp [toList]⟩

/-- What `rbtree_delete` takes out for the node at `z`: a node `y` at the position `k` with at
most one child `x`, on side `d`. It is `z` itself, or comes right after it. -/
structure Victim (T : RBTree Nat) (L₁ L₂ : List Nat) (z y : Nat) (k : Ctx Nat) (d : Side)
    (c : Color) (x : RBTree Nat) : Prop where
  plug_eq : T = plug k (bin d c x y .nil)
  place : y = z ∧ before k ++ x.toList ++ after k = L₁ ++ L₂ ∨
    y ≠ z ∧ L₂ = y :: (x.toList ++ after k) ∧ before k = L₁ ++ [z]

/-- A list without repetition is split at a given element in one way. -/
theorem split_unique {L₁ L₂ M₁ M₂ : List Nat} {z : Nat} (h : L₁ ++ z :: L₂ = M₁ ++ z :: M₂)
    (hnd : (L₁ ++ z :: L₂).Nodup) : L₁ = M₁ ∧ L₂ = M₂ := by
  rw [List.nodup_append, List.nodup_cons] at hnd
  have hz : z ∉ L₁ := fun hm => hnd.2.2 z hm z (by simp) rfl
  obtain ⟨h₁, -, h₂⟩ := (List.append_cons_inj_of_notMem hz hnd.2.1.1).mp h
  exact ⟨h₁, h₂⟩

theorem Rep.ptr_ne_nil {t u : RBTree Nat} {a : Nat}
    (h : Rep s (plug k (bin d c t a u))) (ht : t ≠ .nil) : ptr s.desc.nil t ≠ s.desc.nil := by
  intro heq
  refine h.nil_sep (List.mem_append_left _ (mem_toList_bin.mpr (Or.inl ?_)))
  rw [← heq]
  exact ptr_mem ht

theorem ok_deleteVictim {L₁ L₂ : List Nat} {z : Nat} (h : Rep s T)
    (hbound : T.toList.length ≤ s.next) (hlist : T.toList = L₁ ++ z :: L₂)
    (hQ : ∀ y k d c x, Victim T L₁ L₂ z y k d c x → Q y s) : Ok (deleteVictim z) s Q := by
  obtain ⟨k, c, l, r, hT⟩ := exists_plug_of_mem (t := T) (a := z) (by simp [hlist]) []
  rw [plug_nil] at hT
  subst hT
  obtain ⟨-, hl, hr, hp, -, -⟩ := h.focus
  have hsplit : (before k ++ l.toList) ++ z :: (r.toList ++ after k) = L₁ ++ z :: L₂ := by
    rw [← hlist, toList_plug, toList]
    simp
  obtain ⟨rfl, rfl⟩ := split_unique hsplit (by
    have := h.nodup
    rwa [hlist, ← hsplit] at this)
  unfold deleteVictim
  simp only [ok_bind, ok_getNil, ok_getChild hl]
  by_cases hln : l = .nil
  · subst hln
    rw [if_pos (by simp), ok_pure]
    exact hQ z k .right c r ⟨rfl, Or.inl ⟨rfl, by simp [toList]⟩⟩
  · rw [if_neg (Rep.ptr_ne_nil (d := .left) h hln), ok_bind, ok_getChild hr]
    by_cases hrn : r = .nil
    · subst hrn
      rw [if_pos (by simp), ok_pure]
      exact hQ z k .left c l ⟨rfl, Or.inl ⟨rfl, by simp [toList]⟩⟩
    · -- two children: the successor is the leftmost node on the right
      have hr' := Rep.ptr_ne_nil (d := .right) h hrn
      rw [if_neg hr', rbtreeSuccessor]
      simp only [ok_bind]
      rw [ok_getParent hp, ok_getChild hr, ok_getNil, if_pos hr', ok_bind, ok_getChild hr]
      have hrep : Rep s (plug (⟨.right, c, z, l⟩ :: k) r) := h
      refine ok_rbtreeMini hrep hrn ?_ (fun k' c' y r' hplug hbefore => ?_)
      · refine le_trans ?_ hbound
        rw [toList_plug, toList]
        simp
        omega
      · have hbefore' : before k' = (before k ++ l.toList) ++ [z] := by
          rw [hbefore]
          simp [before]
        have htail : r.toList ++ after k = y :: (r'.toList ++ after k') := by
          have hl₁ := hlist
          have hplug' : plug k (node c l z r) = plug k' (node c' .nil y r') := hplug
          rw [hplug', toList_plug, hbefore', toList] at hl₁
          simpa [toList] using hl₁.symm
        refine hQ y k' .right c' r' ⟨hplug, Or.inr ⟨?_, htail, hbefore'⟩⟩
        rintro rfl
        have hnd := h.nodup
        rw [hlist, List.nodup_append, List.nodup_cons] at hnd
        exact hnd.2.1.1 (by simp [htail])

theorem ok_deleteChild (h : Rep s (plug k (bin d c x y .nil))) (Q : Nat → State → Prop) :
    Ok (deleteChild y) s Q ↔ Q (ptr s.desc.nil x) s := by
  obtain ⟨-, hx, hn, -, -, -⟩ := linked_bin.mp h.focus
  unfold deleteChild
  simp only [ok_bind, ok_getNil]
  cases d with
  | left =>
      rw [ok_getChild hx]
      by_cases hxn : x = .nil
      · subst hxn
        rw [if_neg (by simp), ok_bind, ok_getChild (d := .right) hn, if_neg (by simp), ok_pure]
        rfl
      · rw [if_pos (h.ptr_ne_nil hxn), ok_getChild hx]
  | right =>
      rw [ok_getChild (d := .left) hn, if_neg (by simp), ok_bind, ok_getChild hx]
      by_cases hxn : x = .nil
      · subst hxn
        rw [if_neg (by simp), ok_pure]
        rfl
      · rw [if_pos (h.ptr_ne_nil hxn), ok_getChild hx]

/-! ## Splicing -/

/-- The memory after the tree with pointer `x` has been hung at the position `k`. -/
def spliced (s : State) (k : Ctx Nat) (x : Nat) : State :=
  putLink (putParent s x (top s.desc.nil k)) k x

theorem sameData_spliced (s : State) (k : Ctx Nat) (x : Nat) : SameData s (spliced s k x) :=
  (sameData_putParent ..).trans (sameData_putLink ..)

theorem spliced_node_ne {x p : Nat} (hp : p ≠ x) (hk : p ∉ labels k) :
    (spliced s k x).node p = s.node p := by
  rw [spliced, putLink_node_ne hk, putParent_node_ne hp]

/-- The pointers around a node with one child `x`, apart from each other. -/
theorem Rep.child_sep
    (h : Rep s (plug k (bin d c x y .nil))) : (y :: (x.toList ++ labels k)).Nodup := by
  have hsep := h.sep
  have hperm := (toList_bin_perm d c x y .nil).append_right (labels k)
  rw [toList, List.append_nil] at hperm
  exact hperm.nodup_iff.mp hsep

theorem Rep.ptr_notMem_labels (hnil : s.desc.nil ∉ labels k) (hsep : (x.toList ++ labels k).Nodup) :
    ptr s.desc.nil x ∉ labels k := by
  intro hm
  rcases ptr_eq_nil_or_mem s.desc.nil x with ⟨hn, -⟩ | hx
  · exact hnil (hn ▸ hm)
  · exact (List.nodup_append.mp hsep).2.2 _ hx _ hm rfl

/-- **Splicing a node out**: its child takes its place, also when the child is the sentinel, whose
`parent` field is written all the same. -/
theorem Rep.splice (h : Rep s (plug k (bin d c x y .nil))) :
    Focus (spliced s k (ptr s.desc.nil x)) k x := by
  have hsep := (List.nodup_cons.mp h.child_sep).2
  obtain ⟨-, -, -, -, hX, -⟩ := linked_bin.mp h.focus
  have hnil : s.desc.nil ∉ x.toList ++ labels k := by
    intro hm
    refine h.nil_sep ?_
    rw [List.mem_append, mem_toList_bin]
    rw [List.mem_append] at hm
    tauto
  have hnilk : s.desc.nil ∉ labels k := fun hm => hnil (List.mem_append_right _ hm)
  have hpk := Rep.ptr_notMem_labels hnilk hsep
  have hlive : (s.node (ptr s.desc.nil x)).isSome :=
    live_of_field (colorAt_ptr hX h.nil_black)
  have hnil' : (spliced s k (ptr s.desc.nil x)).desc.nil = s.desc.nil := by simp [spliced]
  have hk : LinkedCtx (putParent s (ptr s.desc.nil x) (top s.desc.nil k)) k y := by
    have := h.ctx
    rw [ptr_bin] at this
    refine this.congr (fun b hb => putParent_node_ne ?_) rfl rfl
    rintro rfl
    exact hpk hb
  have hparent : parentAt (spliced s k (ptr s.desc.nil x)) (ptr s.desc.nil x)
      = some (top s.desc.nil k) := by
    rw [spliced, parentAt_putLink, parentAt_putParent_self hlive]
  refine ⟨Rep.of_parts ?_ ?_ hsep ?_ ?_, by rw [hnil']; exact hparent⟩
  · rw [hnil']
    exact linkedCtx_putLink hk (List.nodup_append.mp hsep).2.1 _
  · rw [hnil']
    refine hX.reparent (fun _ => ⟨?_, fun e => ?_, hparent⟩) (List.nodup_append.mp hsep).1 ?_ hnil'
    · simp [spliced]
    · rw [spliced, childAt_putLink_ne hpk, childAt_putParent]
    · intro b hb hne
      exact spliced_node_ne hne (fun hm => (List.nodup_append.mp hsep).2.2 _ hb _ hm rfl)
  · rwa [hnil']
  · rw [hnil', spliced, colorAt_putLink, colorAt_putParent]
    exact h.nil_black

/-- What is left to repair when a node of colour `c` has been taken out above `x`. -/
def SpliceInv (c : Color) (k : Ctx Nat) (x : RBTree Nat) : Prop :=
  match c with
  | .red => (plug k x).IsRedBlack
  | .black => DeleteInv k x

theorem spliceInv_of_isRedBlack (h : (plug k (bin d c x y .nil)).IsRedBlack) : SpliceInv c k x := by
  obtain ⟨n, hk, hg, hc⟩ := ctxOk_of_plug h
  rw [color_bin] at hc
  cases c with
  | red =>
      obtain ⟨hx, -, hxc, -⟩ := hg.of_red
      obtain ⟨hne, -⟩ := hc rfl
      obtain ⟨m, hm⟩ := hk.good_plug hx (fun hr => by rw [hxc] at hr; cases hr)
      exact hm.isRedBlack (hk.color_plug x hne)
  | black =>
      obtain ⟨m, hx, -, rfl⟩ := hg.of_black
      exact DeleteInv.of_good hk hx

/-! ## The whole function -/

/-- The end of `rbtree_delete`, after the node `y` has been taken out. -/
theorem ok_deleteRepair (h : Focus s k x) (hc : colorAt s y = some c) (hinv : SpliceInv c k x)
    (hbound : (plug k x).toList.length ≤ s.next)
    (hQ : ∀ s' T, Rep s' T → T.IsRedBlack → T.toList = (plug k x).toList → SameData s s' →
      Q y s') :
    Ok (do
      if (← getColor y) = .black then
        rbtreeDeleteFixup (ptr s.desc.nil x)
      return y : Rb Nat) s Q := by
  rw [ok_bind, ok_getColor hc]
  cases c with
  | red =>
      rw [if_neg (by decide)]
      exact (ok_pure ..).mpr (hQ s _ h.rep hinv rfl (SameData.refl s))
  | black =>
      rw [if_pos rfl, ok_bind]
      refine ok_rbtreeDeleteFixup h hinv hbound (fun s' T hT hrb hlist hsame => ?_)
      rw [ok_pure]
      exact hQ s' T hT hrb hlist hsame

/-- The data around the node that is taken out, once it holds the data of `z`. -/
theorem Victim.data {L₁ L₂ : List Nat} {z : Nat}
    (hv : Victim T L₁ L₂ z y k d c x) (hnd : (L₁ ++ z :: L₂).Nodup)
    {f g : Nat → Option Nat × Option Nat} (hz : y ≠ z → g z = f y)
    (hne : ∀ p, p ≠ z → p ≠ y → g p = f p) :
    (plug k x).toList.map g = (L₁ ++ L₂).map f := by
  rw [toList_plug]
  have hmap : ∀ L : List Nat, z ∉ L → y ∉ L → L.map g = L.map f := by
    intro L hzL hyL
    refine List.map_congr_left fun p hp => hne p ?_ ?_
    · rintro rfl
      exact hzL hp
    · rintro rfl
      exact hyL hp
  rw [List.nodup_append, List.nodup_cons] at hnd
  obtain ⟨hnd₁, ⟨hz₂, hnd₂⟩, hdis⟩ := hnd
  have hz₁ : z ∉ L₁ := fun hm => hdis z hm z (by simp) rfl
  rcases hv.place with ⟨rfl, hlist⟩ | ⟨hyz, rfl, hbefore⟩
  · have hzL : y ∉ L₁ ++ L₂ := by simp [hz₁, hz₂]
    rw [hlist, hmap _ hzL hzL]
  · have hy₁ : y ∉ L₁ := fun hm => hdis y hm y (by simp) rfl
    have htail := hmap (x.toList ++ after k) (fun hm => hz₂ (by simp [hm]))
      (List.nodup_cons.mp hnd₂).1
    rw [hbefore]
    calc (L₁ ++ [z] ++ x.toList ++ after k).map g
        = L₁.map g ++ g z :: (x.toList ++ after k).map g := by simp
      _ = L₁.map f ++ f y :: (x.toList ++ after k).map f := by
          rw [hmap L₁ hz₁ hy₁, hz hyz, htail]
      _ = (L₁ ++ y :: (x.toList ++ after k)).map f := by simp

/-- What `rbtree_delete` has done when it comes to the repair: the node `y` is out of the tree, the
tree `x` is at its place, and `y` holds the data of `z`. -/
structure Spliced (s s' : State) (z y : Nat) (k : Ctx Nat) (c : Color) (x : RBTree Nat) : Prop where
  focus : Focus s' k x
  color : colorAt s' y = some c
  inv : SpliceInv c k x
  heap : SameHeap s s'
  data_moved : y ≠ z → dataAt s' z = dataAt s y
  data_same : ∀ p, p ≠ z → p ≠ y → dataAt s' p = dataAt s p
  data_out : dataAt s' y = dataAt s z

theorem ok_deleteSplice {L₁ L₂ : List Nat} {z : Nat} (h : Rep s T)
    (hT : T.IsRedBlack) (hbound : T.toList.length ≤ s.next) (hlist : T.toList = L₁ ++ z :: L₂)
    (hdata : ∀ a ∈ T.toList, ∃ kp vp, dataAt s a = (some kp, some vp))
    {Q : Nat × Nat → State → Prop}
    (hQ : ∀ y k d c x s', Victim T L₁ L₂ z y k d c x → Spliced s s' z y k c x →
      Q (y, ptr s'.desc.nil x) s') :
    Ok (deleteSplice z) s Q := by
  unfold deleteSplice
  rw [ok_bind]
  refine ok_deleteVictim h hbound hlist (fun y k d c x hv => ?_)
  obtain ⟨rfl, -⟩ := id hv
  have hy : y ∈ (plug k (bin d c x y .nil)).toList :=
    (toList_plug_perm ..).mem_iff.mpr (List.mem_append_left _ (mem_toList_bin.mpr (by simp)))
  obtain ⟨hyc, -, -, hyp, hX, -⟩ := linked_bin.mp h.focus
  have hsep := List.nodup_cons.mp h.child_sep
  have hyx : y ≠ ptr s.desc.nil x := by
    rcases ptr_eq_nil_or_mem s.desc.nil x with ⟨hn, -⟩ | hm
    · rw [hn]; exact h.ne_nil
    · rintro rfl
      exact hsep.1 (List.mem_append_left _ hm)
  have hnilk : s.desc.nil ∉ labels k := fun hm => h.nil_sep (List.mem_append_right _ hm)
  have hyk : y ∉ labels k := fun hm => hsep.1 (List.mem_append_right _ hm)
  have hk : LinkedCtx (putParent s (ptr s.desc.nil x) (top s.desc.nil k)) k y := by
    have := h.ctx
    rw [ptr_bin] at this
    refine this.congr (fun b hb => putParent_node_ne ?_) rfl rfl
    rintro rfl
    exact Rep.ptr_notMem_labels hnilk hsep.2 hb
  rw [ok_bind, ok_deleteChild h, ok_bind, ok_getParent hyp, ok_bind,
    ok_setParent (live_of_field (colorAt_ptr hX h.nil_black)), ok_bind,
    ok_relink hk ((parentAt_putParent_ne hyx).trans hyp) hyk h.ne_nil hnilk]
  -- from here on the memory is `spliced`, up to the exchange of the data
  have hend : ∀ s₂, SameLinks (spliced s k (ptr s.desc.nil x)) s₂ →
      SameHeap (spliced s k (ptr s.desc.nil x)) s₂ →
      (y ≠ z → dataAt s₂ z = dataAt s y) → (∀ p, p ≠ z → p ≠ y → dataAt s₂ p = dataAt s p) →
      dataAt s₂ y = dataAt s z → Ok (pure (y, ptr s.desc.nil x)) s₂ Q := by
    intro s₂ hlinks hheap hz₂ hne₂ hy₂
    have hheap₂ : SameHeap s s₂ := (sameData_spliced ..).toSameHeap.trans hheap
    have hyc₂ : colorAt s₂ y = some c := by
      rw [hlinks.color, spliced, colorAt_putLink, colorAt_putParent, hyc]
    rw [ok_pure, ← hheap₂.nil]
    exact hQ y k d c x s₂ hv
      ⟨hlinks.focus h.splice, hyc₂, spliceInv_of_isRedBlack hT, hheap₂, hz₂, hne₂, hy₂⟩
  by_cases hyz : y = z
  · subst hyz
    rw [if_neg (by simp)]
    exact hend _ ⟨fun _ => rfl, fun _ _ => rfl, fun _ => rfl, rfl⟩ (SameHeap.refl _)
      (fun hne => absurd rfl hne) (fun p _ _ => (sameData_spliced ..).dataAt p)
      ((sameData_spliced ..).dataAt y)
  · obtain ⟨kz, vz, hz⟩ := hdata z (by simp [hlist])
    obtain ⟨ky, vy, hy'⟩ := hdata y hy
    have hz₁ := ((sameData_spliced s k (ptr s.desc.nil x)).dataAt z).trans hz
    have hy₁ := ((sameData_spliced s k (ptr s.desc.nil x)).dataAt y).trans hy'
    rw [dataAt, Prod.mk.injEq] at hz₁ hy₁
    rw [if_pos hyz, ok_bind]
    refine (ok_swapData hz₁.1 hz₁.2 hy₁.1 hy₁.2 _).mpr ?_
    refine hend _ sameLinks_swapped sameHeap_swapped (fun _ => ?_) (fun p hpz hpy => ?_) ?_
    · rw [dataAt_swapped_left (live_of_field hz₁.1) (Ne.symm hyz), hy']
    · rw [dataAt_swapped_ne hpz hpy]
      exact (sameData_spliced ..).dataAt p
    · rw [dataAt_swapped_right (live_of_field hy₁.1), hz]

/-- The nodes of the tree before and after a node has been taken out. -/
theorem Victim.perm {L₁ L₂ : List Nat} {z : Nat} (hv : Victim T L₁ L₂ z y k d c x) :
    T.toList.Perm (y :: (plug k x).toList) := by
  rw [hv.plug_eq]
  refine (toList_plug_perm ..).trans (((toList_bin_perm ..).append_right _).trans ?_)
  simpa [toList] using (toList_plug_perm k x).symm

/-- **`rbtree_delete`**, called with a node of a red-black tree, leaves a red-black tree in which
exactly the key and the value of that node are missing; the node it returns is not in the tree any
more and has them. The data of the other blocks are untouched. -/
theorem ok_rbtreeDelete {L₁ L₂ : List Nat} {z : Nat} (h : Rep s T)
    (hT : T.IsRedBlack) (hbound : T.toList.length ≤ s.next) (hlist : T.toList = L₁ ++ z :: L₂)
    (hdata : ∀ a ∈ T.toList, ∃ kp vp, dataAt s a = (some kp, some vp))
    (hQ : ∀ y s' T', Rep s' T' → T'.IsRedBlack → T.toList.Perm (y :: T'.toList) →
      T'.toList.map (dataAt s') = (L₁ ++ L₂).map (dataAt s) → dataAt s' y = dataAt s z →
        SameHeap s s' → (∀ p, p ∉ T.toList → dataAt s' p = dataAt s p) → Q y s') :
    Ok (rbtreeDelete z) s Q := by
  rw [rbtreeDelete, ok_bind]
  refine ok_deleteSplice h hT hbound hlist hdata fun y k d c x s₂ hv hs₂ => ?_
  have hperm := hv.perm
  refine ok_deleteRepair hs₂.focus hs₂.color hs₂.inv ?_ ?_
  · have := hperm.length_eq
    rw [List.length_cons] at this
    rw [hs₂.heap.next]
    omega
  · intro s' T' hT' hrb hlist' hsame
    refine hQ y s' T' hT' hrb (hlist' ▸ hperm) ?_ ((hsame.dataAt y).trans hs₂.data_out)
      (hs₂.heap.trans hsame.toSameHeap) fun p hp => (hsame.dataAt p).trans (hs₂.data_same p ?_ ?_)
    · rw [hlist', List.map_congr_left (fun p _ => hsame.dataAt p)]
      exact hv.data (hlist ▸ h.nodup) hs₂.data_moved hs₂.data_same
    · rintro rfl
      exact hp (by simp [hlist])
    · rintro rfl
      exact hp (hperm.mem_iff.mpr List.mem_cons_self)

end KvStore.Rbtree
