import KvStore.Rbtree.Pivot

set_option autoImplicit false

/-! # Changing a tree in memory at one position

The pointer code of the source works at a node anywhere in a tree. The lemmas here split the tree
in memory at that node, as `plug k t`, and say what the tree is afterwards:

* `Rep.recolor`: colouring a node;
* `ok_relink`: pointing the parent of a node to another node;
* `ok_rotate`: a rotation.
-/

namespace KvStore.Rbtree

open KvStore.Lib KvStore.Lib.RBTree Store

/-! ## A tree in memory, split at a position -/

/-- The same tree, looked at from the sibling. -/
theorem plug_flip (d : Side) (c : Color) (a : Nat) (t u : RBTree Nat) (k : Ctx Nat) :
    plug (⟨d.flip, c, a, t⟩ :: k) u = plug (⟨d, c, a, u⟩ :: k) t := by
  rw [plug_cons, plug_cons]
  dsimp only
  rw [bin_flip]

section Position

variable {s : State} {k : Ctx Nat} {t : RBTree Nat}

theorem Rep.ctx (h : Rep s (plug k t)) : LinkedCtx s k (ptr s.desc.nil t) :=
  (linked_plug.mp ⟨h.root, h.linked⟩).1

theorem Rep.focus (h : Rep s (plug k t)) : Linked s (top s.desc.nil k) t :=
  (linked_plug.mp ⟨h.root, h.linked⟩).2

theorem Rep.sep (h : Rep s (plug k t)) : (t.toList ++ labels k).Nodup :=
  (toList_plug_perm k t).nodup_iff.mp h.nodup

theorem Rep.nil_sep (h : Rep s (plug k t)) : s.desc.nil ∉ t.toList ++ labels k :=
  fun hm => h.nil_notMem ((toList_plug_perm k t).mem_iff.mpr hm)

theorem Rep.of_parts (hk : LinkedCtx s k (ptr s.desc.nil t)) (ht : Linked s (top s.desc.nil k) t)
    (hsep : (t.toList ++ labels k).Nodup) (hnil : s.desc.nil ∉ t.toList ++ labels k)
    (hb : colorAt s s.desc.nil = some .black) : Rep s (plug k t) where
  root := (linked_plug.mpr ⟨hk, ht⟩).1
  linked := (linked_plug.mpr ⟨hk, ht⟩).2
  nodup := (toList_plug_perm k t).nodup_iff.mpr hsep
  nil_notMem := fun hm => hnil ((toList_plug_perm k t).mem_iff.mp hm)
  nil_black := hb

/-- The colour of the node a subtree pointer leads to, the sentinel included. -/
theorem colorAt_ptr {par : Nat} (h : Linked s par t) (hb : colorAt s s.desc.nil = some .black) :
    colorAt s (ptr s.desc.nil t) = some t.color := by
  cases t with
  | nil => exact hb
  | node c l a r => exact h.1

/-- The colour above a position, read through the parent pointer. -/
theorem colorAt_top {p : Nat} (h : LinkedCtx s k p) (hb : colorAt s s.desc.nil = some .black) :
    colorAt s (top s.desc.nil k) = some (parentColor k) := by
  cases k with
  | nil => exact hb
  | cons f k => exact h.1

theorem Rep.color_focus (h : Rep s (plug k t)) : colorAt s (ptr s.desc.nil t) = some t.color :=
  colorAt_ptr h.focus h.nil_black

theorem Rep.parent_focus (h : Rep s (plug k t)) (ht : t ≠ .nil) :
    parentAt s (ptr s.desc.nil t) = some (top s.desc.nil k) := by
  cases t with
  | nil => exact absurd rfl ht
  | node c l a r => exact h.focus.2.2.2.1

theorem Rep.live_nil {T : RBTree Nat} (h : Rep s T) : (s.node s.desc.nil).isSome :=
  live_of_field h.nil_black

theorem Linked.live {par : Nat} (h : Linked s par t) {a : Nat} (ha : a ∈ t.toList) :
    (s.node a).isSome := by
  induction t generalizing par with
  | nil => cases ha
  | node c l b r ihl ihr =>
      obtain ⟨hc, -, -, -, hl, hr⟩ := h
      rw [toList, List.mem_append, List.mem_cons] at ha
      rcases ha with ha | rfl | ha
      · exact ihl hl ha
      · exact live_of_field hc
      · exact ihr hr ha

end Position

/-! ## Colouring -/

/-- `s'` is `s` after pointer code that changed no data and not the sentinel. -/
structure Moved (s s' : State) : Prop extends SameData s s' where
  nil_node : s'.node s.desc.nil = s.node s.desc.nil

theorem Moved.refl (s : State) : Moved s s := ⟨SameData.refl s, rfl⟩

variable {s : State} {k : Ctx Nat} {d : Side} {t : RBTree Nat}

theorem Moved.trans {s' s'' : State} (h : Moved s s') (h' : Moved s' s'') : Moved s s'' :=
  ⟨h.toSameData.trans h'.toSameData, by
    have := h'.nil_node
    rw [h.nil] at this
    rw [this, h.nil_node]⟩

theorem moved_putColor {p : Nat} (hp : p ≠ s.desc.nil) (c : Color) : Moved s (putColor s p c) :=
  ⟨sameData_putColor s p c, putColor_node_ne (Ne.symm hp)⟩

/-- Colouring the root of a subtree through its pointer. -/
theorem putColor_ptr_live (h : Rep s (plug k t)) :
    (s.node (ptr s.desc.nil t)).isSome := live_of_field h.color_focus

/-- The root of a subtree is not the sentinel. -/
theorem Rep.ne_nil {c : Color} {u : RBTree Nat} {a : Nat}
    (h : Rep s (plug k (bin d c t a u))) : a ≠ s.desc.nil := by
  intro ha
  exact h.nil_sep (List.mem_append_left _ (mem_toList_bin.mpr (Or.inr (Or.inl ha.symm))))

/-- **Colouring a node** anywhere in the tree. -/
theorem Rep.recolor {c : Color} {u : RBTree Nat} {a : Nat}
    (h : Rep s (plug k (bin d c t a u))) (c' : Color) :
    Rep (putColor s a c') (plug k (bin d c' t a u)) := by
  have hsep := h.sep
  have hperm := toList_bin_perm d c t a u
  have hsep' : (a :: (t.toList ++ u.toList) ++ labels k).Nodup :=
    ((hperm.append_right _).nodup_iff).mp hsep
  obtain ⟨hc, ht, hu, hp, hT, hU⟩ := linked_bin.mp h.focus
  have hk := h.ctx
  rw [ptr_bin] at hk
  have hlive := live_of_field hc
  rw [List.cons_append, List.nodup_cons] at hsep'
  -- the coloured node is in neither subtree and not on the way up
  have hout : ∀ b ∈ t.toList ++ u.toList ++ labels k, (putColor s a c').node b = s.node b := by
    intro b hb
    refine putColor_node_ne ?_
    rintro rfl
    exact hsep'.1 hb
  refine Rep.of_parts ?_ (linked_bin.mpr ⟨colorAt_putColor_self hlive, ?_, ?_, ?_, ?_, ?_⟩) ?_ ?_ ?_
  · rw [ptr_bin]
    exact hk.congr (fun b hb => hout b (by simp [hb])) rfl rfl
  · simpa using ht
  · simpa using hu
  · simpa using hp
  · exact hT.congr (fun b hb => hout b (by simp [hb])) rfl
  · exact hU.congr (fun b hb => hout b (by simp [hb])) rfl
  · exact (((toList_bin_perm d c' t a u).trans hperm.symm).append_right _).nodup_iff.mpr hsep
  · intro hm
    exact h.nil_sep
      ((((toList_bin_perm d c' t a u).trans hperm.symm).append_right _).mem_iff.mp hm)
  · rw [putColor_desc, colorAt_putColor_ne (Ne.symm h.ne_nil)]
    exact h.nil_black

/-! ## Relinking -/

/-- The memory after the parent above the position `k` points to `y`. -/
def putLink (s : State) : Ctx Nat → Nat → State
  | [], y => putRoot s y
  | f :: _, y => putChild s f.side f.label y

@[simp] theorem putLink_nil (s : State) (k : Ctx Nat) (y : Nat) :
    (putLink s k y).desc.nil = s.desc.nil := by
  cases k <;> rfl

@[simp] theorem putLink_live (s : State) (k : Ctx Nat) (y r : Nat) :
    ((putLink s k y).node r).isSome = (s.node r).isSome := by
  cases k with
  | nil => rfl
  | cons f k => simp [putLink]

theorem putLink_node_ne {y r : Nat} (h : r ∉ labels k) : (putLink s k y).node r = s.node r := by
  cases k with
  | nil => rfl
  | cons f k => exact putChild_node_ne (fun hr => h (by simp [labels, hr]))

@[simp] theorem colorAt_putLink (s : State) (k : Ctx Nat) (y r : Nat) :
    colorAt (putLink s k y) r = colorAt s r := by
  cases k with
  | nil => rfl
  | cons f k => simp [putLink]

@[simp] theorem parentAt_putLink (s : State) (k : Ctx Nat) (y r : Nat) :
    parentAt (putLink s k y) r = parentAt s r := by
  cases k with
  | nil => rfl
  | cons f k => simp [putLink]

theorem childAt_putLink_ne {y r : Nat} (h : r ∉ labels k) (e : Side) :
    childAt (putLink s k y) e r = childAt s e r :=
  field_congr (putLink_node_ne h) _

theorem sameData_putLink (s : State) (k : Ctx Nat) (y : Nat) : SameData s (putLink s k y) := by
  cases k with
  | nil => exact sameData_putRoot s y
  | cons f k => exact sameData_putChild s f.side f.label y

theorem linkedCtx_putLink {x : Nat} (h : LinkedCtx s k x)
    (hsep : (labels k).Nodup) (y : Nat) : LinkedCtx (putLink s k y) k y := by
  cases k with
  | nil => rfl
  | cons f k =>
      obtain ⟨hc, hs, hf, hp, hS, hk⟩ := h
      rw [labels, List.nodup_cons] at hsep
      have hout : ∀ b ∈ f.sib.toList ++ labels k,
          (putChild s f.side f.label y).node b = s.node b := by
        intro b hb
        refine putChild_node_ne ?_
        rintro rfl
        exact hsep.1 hb
      refine ⟨?_, ?_, ?_, ?_, ?_, ?_⟩
      · simpa [putLink] using hc
      · simp [putLink, live_of_field hc]
      · simpa [putLink] using hf
      · simpa [putLink] using hp
      · exact hS.congr (fun b hb => hout b (by simp [hb])) rfl
      · exact hk.congr (fun b hb => hout b (by simp [hb])) rfl rfl

/-- The side of its parent on which a position is; none for the root. -/
def linkSide : Ctx Nat → Option Side
  | [] => none
  | f :: _ => some f.side

theorem putLink_eq (s : State) (k : Ctx Nat) (y : Nat) :
    putLink s k y = putAbove s (top s.desc.nil k) (linkSide k) y := by
  cases k <;> rfl

theorem LinkedCtx.aboveIn {x : Nat} (hk : LinkedCtx s k x) :
    AboveIn s (labels k) x (top s.desc.nil k) (linkSide k) := by
  cases k with
  | nil => exact ⟨rfl, hk⟩
  | cons f k =>
      obtain ⟨-, hs, hf, -, -, -⟩ := hk
      refine ⟨by simp [labels, top], hs, ptr s.desc.nil f.sib, hf, ?_⟩
      rcases ptr_eq_nil_or_mem s.desc.nil f.sib with ⟨hn, -⟩ | hm
      · exact Or.inl hn
      · exact Or.inr (by simp [labels, hm])

/-- **Relinking**: the parent of `x` points to `y`, whichever side is tested first. -/
theorem ok_relink {x : Nat} (hk : LinkedCtx s k x)
    (hp : parentAt s x = some (top s.desc.nil k)) (hx : x ∉ labels k) (hxn : x ≠ s.desc.nil)
    (hnil : s.desc.nil ∉ labels k) (d : Side) (y : Nat) (Q : Unit → State → Prop) :
    Ok (relink d x y) s Q ↔ Q () (putLink s k y) := by
  rw [putLink_eq]
  exact ok_relink_above (hk.aboveIn.above hx hxn hnil) hp d Q

/-! ## Rotation -/

/-- The memory after a rotation towards `d` at `x`, at the position `k`, where `y` is the child
that comes up and `b` the pointer to the subtree that changes sides. -/
def rotated (s : State) (d : Side) (k : Ctx Nat) (x y b : Nat) : State :=
  putParent (putChild (putLink (putParent (putParentOf (putChild s d.flip x b) b x) y
    (top s.desc.nil k)) k y) d y x) x y

theorem rotated_eq (s : State) (d : Side) (k : Ctx Nat) (x y b : Nat) :
    rotated s d k x y b = turned s d x y b (top s.desc.nil k) (linkSide k) := by
  cases k <;> rfl

/-- The addresses a rotation works on, told apart. -/
structure RotateSep (s : State) (k : Ctx Nat) (A : RBTree Nat) (x : Nat) (B : RBTree Nat)
    (y : Nat) (C : RBTree Nat) : Prop where
  nodup : (x :: y :: (A.toList ++ B.toList ++ C.toList ++ labels k)).Nodup
  nil_notMem : s.desc.nil ∉ x :: y :: (A.toList ++ B.toList ++ C.toList ++ labels k)

theorem rotate_perm (d : Side) (c c' : Color) (A : RBTree Nat) (x : Nat) (B : RBTree Nat)
    (y : Nat) (C : RBTree Nat) :
    (bin d c A x (bin d c' B y C)).toList.Perm (x :: y :: (A.toList ++ B.toList ++ C.toList)) := by
  refine (toList_bin_perm ..).trans (List.Perm.cons x ?_)
  refine ((toList_bin_perm ..).append_left _).trans ?_
  refine List.perm_middle.trans ?_
  rw [List.append_assoc]

theorem rotate_perm' (d : Side) (c c' : Color) (A : RBTree Nat) (x : Nat) (B : RBTree Nat)
    (y : Nat) (C : RBTree Nat) :
    (bin d c' (bin d c A x B) y C).toList.Perm (x :: y :: (A.toList ++ B.toList ++ C.toList)) := by
  refine (toList_bin_perm ..).trans ?_
  refine (List.Perm.cons y ((toList_bin_perm ..).append_right _)).trans ?_
  rw [List.cons_append]
  exact List.Perm.swap x y _

theorem Rep.rotateSep {c c' : Color} {A B C : RBTree Nat}
    {x y : Nat} (h : Rep s (plug k (bin d c A x (bin d c' B y C)))) :
    RotateSep s k A x B y C := by
  have hperm := (rotate_perm d c c' A x B y C).append_right (labels k)
  exact ⟨hperm.nodup_iff.mp h.sep, fun hm => h.nil_sep (hperm.mem_iff.mpr hm)⟩

theorem RotateSep.apart {A B C : RBTree Nat} {x y : Nat} (h : RotateSep s k A x B y C) :
    Apart s.desc.nil x y A.toList B.toList C.toList (labels k) :=
  ⟨h.nodup, h.nil_notMem⟩

theorem Linked.parent_ptr {par : Nat} (h : Linked s par t)
    (ht : ptr s.desc.nil t ≠ s.desc.nil) : parentAt s (ptr s.desc.nil t) = some par := by
  cases t with
  | nil => exact absurd rfl ht
  | node c l a r => exact h.2.2.2.1

/-- The links around a node with a child, in a tree in memory. -/
theorem Rep.pivot {c c' : Color} {A B C : RBTree Nat}
    {x y : Nat} (h : Rep s (plug k (bin d c A x (bin d c' B y C)))) :
    Pivot s d x y (ptr s.desc.nil B) (top s.desc.nil k) (linkSide k) := by
  obtain ⟨-, -, hxy, hxp, -, hY⟩ := linked_bin.mp h.focus
  obtain ⟨-, hyB, -, hyp, hB, -⟩ := linked_bin.mp hY
  have hk := h.ctx
  rw [ptr_bin] at hxy hk
  exact h.rotateSep.apart.pivot hk.aboveIn hxy hyB hxp hyp hB.parent_ptr

theorem ok_rotate_run {c c' : Color} {A B C : RBTree Nat}
    {x y : Nat} (h : Rep s (plug k (bin d c A x (bin d c' B y C)))) (Q : Unit → State → Prop) :
    Ok (rotate d x) s Q ↔ Q () (rotated s d k x y (ptr s.desc.nil B)) := by
  rw [rotated_eq]
  exact h.pivot.ok_rotate Q

/-- Moving a tree in memory below another node. -/
theorem Linked.reparent {s' : State} {par par' : Nat} (h : Linked s par t)
    (hroot : t ≠ .nil → colorAt s' (ptr s.desc.nil t) = colorAt s (ptr s.desc.nil t) ∧
      (∀ e, childAt s' e (ptr s.desc.nil t) = childAt s e (ptr s.desc.nil t)) ∧
        parentAt s' (ptr s.desc.nil t) = some par')
    (hsep : t.toList.Nodup) (hnode : ∀ a ∈ t.toList, a ≠ ptr s.desc.nil t → s'.node a = s.node a)
    (hnil : s'.desc.nil = s.desc.nil) : Linked s' par' t := by
  cases t with
  | nil => trivial
  | node c l a r =>
      obtain ⟨hc, hl, hr, -, hL, hR⟩ := h
      obtain ⟨hc', hch', hp'⟩ := hroot (by simp)
      have hsep' := (toList_bin_perm .left c l a r).nodup_iff.mp hsep
      rw [List.nodup_cons] at hsep'
      have hbelow : ∀ b ∈ l.toList ++ r.toList, s'.node b = s.node b := by
        intro b hb
        refine hnode b ?_ ?_
        · simp only [toList, List.mem_append, List.mem_cons] at hb ⊢
          tauto
        · rintro rfl
          exact hsep'.1 hb
      refine ⟨hc'.trans hc, ?_, ?_, hp', ?_, ?_⟩
      · rw [hnil, ← hl]; exact hch' .left
      · rw [hnil, ← hr]; exact hch' .right
      · exact hL.congr (fun b hb => hbelow b (by simp [hb])) hnil
      · exact hR.congr (fun b hb => hbelow b (by simp [hb])) hnil

theorem rotated_nil (s : State) (d : Side) (k : Ctx Nat) (x y b : Nat) :
    (rotated s d k x y b).desc.nil = s.desc.nil := by
  simp [rotated]

theorem colorAt_rotated (s : State) (d : Side) (k : Ctx Nat) (x y b r : Nat) :
    colorAt (rotated s d k x y b) r = colorAt s r := by
  simp [rotated]

theorem sameData_rotated (s : State) (d : Side) (k : Ctx Nat) (x y b : Nat) :
    SameData s (rotated s d k x y b) := by
  rw [rotated_eq]
  exact sameData_turned ..

section RotatedTree

variable {s : State} {k : Ctx Nat} {d : Side} {c c' : Color} {A B C : RBTree Nat} {x y : Nat}

/-- The parent points to the node that came up. -/
theorem linkedCtx_rotated (hsep : RotateSep s k A x B y C) (hk : LinkedCtx s k x) :
    LinkedCtx (rotated s d k x y (ptr s.desc.nil B)) k y := by
  have hapart := hsep.apart
  have hx : ∀ r ∈ labels k, r ≠ x := fun r hr => hapart.ne_x (by simp [hr])
  have hy : ∀ r ∈ labels k, r ≠ y := fun r hr => hapart.ne_y (by simp [hr])
  have hb : ∀ r ∈ labels k, r ≠ ptr s.desc.nil B := fun r hr =>
    hapart.ne_inner ((ptr_eq_nil_or_mem s.desc.nil B).imp_left And.left) (by simp [hr])
  set s₃ := putParent (putParentOf (putChild s d.flip x (ptr s.desc.nil B)) (ptr s.desc.nil B) x) y
    (top s.desc.nil k) with hs₃
  have hk₃ : LinkedCtx s₃ k x := by
    refine hk.congr (fun r hr => ?_) (by simp [hs₃]) (by simp [hs₃])
    rw [hs₃, putParent_node_ne (hy r hr), putParentOf_node (Or.inr (hb r hr)),
      putChild_node_ne (hx r hr)]
  refine (linkedCtx_putLink hk₃ hapart.nodup_rest y).congr (fun r hr => ?_)
    (by simp [rotated, hs₃]) ?_
  · rw [KvStore.Rbtree.rotated, putParent_node_ne (hx r hr), putChild_node_ne (hy r hr)]
  · cases k <;> simp [rotated, putLink, hs₃]

/-- The subtree that changes sides hangs below `x` afterwards. -/
theorem Rep.rotated_inner (h : Rep s (plug k (bin d c A x (bin d c' B y C)))) :
    Linked (rotated s d k x y (ptr s.desc.nil B)) x B := by
  have hapart := h.rotateSep.apart
  have hk := h.ctx.aboveIn
  rw [ptr_bin] at hk
  obtain ⟨-, -, -, -, -, hY⟩ := linked_bin.mp h.focus
  obtain ⟨-, -, -, -, hB, -⟩ := linked_bin.mp hY
  rw [rotated_eq]
  refine hB.reparent (fun hBne => ?_) hapart.nodup_inner
    (fun r hr hrb => hapart.turned_inner hk hr hrb) (turned_nil ..)
  have hbm : ptr s.desc.nil B ∈ B.toList := ptr_mem hBne
  have hout := hk.none_or_ne (hapart.notMem_rest (r := ptr s.desc.nil B) (by simp [hbm]))
  refine ⟨colorAt_turned .., h.pivot.below_inner_turned hout, ?_⟩
  refine h.pivot.back.inner_parent ?_
  rw [turned_nil]
  exact hapart.ne_nil (by simp [hbm])

/-- **The tree in memory after a rotation.** -/
theorem Rep.rotated (h : Rep s (plug k (bin d c A x (bin d c' B y C)))) :
    Rep (rotated s d k x y (ptr s.desc.nil B)) (plug k (bin d c' (bin d c A x B) y C)) := by
  obtain ⟨hxc, hxA, -, -, hA, hY⟩ := linked_bin.mp h.focus
  obtain ⟨hyc, -, hyC, -, -, hC⟩ := linked_bin.mp hY
  have hk := h.ctx
  rw [ptr_bin] at hk
  have hctx := linkedCtx_rotated (d := d) h.rotateSep hk
  have hinner := h.rotated_inner
  have houter : ∀ r ∈ A.toList ++ C.toList,
      (KvStore.Rbtree.rotated s d k x y (ptr s.desc.nil B)).node r = s.node r := by
    intro r hr
    rw [rotated_eq]
    exact h.rotateSep.apart.turned_outer hk.aboveIn
      ((ptr_eq_nil_or_mem s.desc.nil B).imp_left And.left) hr
  set b := ptr s.desc.nil B with hb
  set s' := KvStore.Rbtree.rotated s d k x y b with hs'
  have hnil' : s'.desc.nil = s.desc.nil := rotated_nil ..
  have hcol : ∀ r, colorAt s' r = colorAt s r := colorAt_rotated s d k x y b
  -- the links between the two nodes are those of the rotation back
  have hback : Pivot s' d.flip y x b (top s.desc.nil k) (linkSide k) := by
    rw [hs', rotated_eq]
    exact h.pivot.back
  have hyx' : childAt s' d y = some x := by simpa using hback.pivot
  have hxA' : childAt s' d x = some (ptr s.desc.nil A) := by
    rw [hs', rotated_eq, h.pivot.outer_turned, hxA]
  have hyC' : childAt s' d.flip y = some (ptr s.desc.nil C) := by
    rw [hs', rotated_eq, h.pivot.far_turned, hyC]
  have hX : Linked s' y (bin d c A x B) :=
    linked_bin.mpr ⟨by rw [hcol, hxc], by rw [hnil', hxA'], by rw [hnil', hback.inner],
      hback.pivot_parent, hA.congr (fun r hr => houter r (by simp [hr])) hnil', hinner⟩
  have hperm := ((rotate_perm' d c c' A x B y C).trans (rotate_perm d c c' A x B y C).symm)
  refine Rep.of_parts ?_ ?_ ?_ ?_ ?_
  · rw [ptr_bin]
    exact hctx
  · rw [hnil']
    exact linked_bin.mpr ⟨by rw [hcol, hyc], by rw [ptr_bin, hyx'], by rw [hnil', hyC'],
      hback.parent, hX, hC.congr (fun r hr => houter r (by simp [hr])) hnil'⟩
  · exact (hperm.append_right _).nodup_iff.mpr h.sep
  · rw [hnil']
    exact fun hm => h.nil_sep ((hperm.append_right _).mem_iff.mp hm)
  · rw [hnil', hcol]
    exact h.nil_black

end RotatedTree

/-- **A rotation** at the node `x`, wherever it is in the tree: `y` takes its place and the middle
subtree changes sides. -/
theorem ok_rotate {c c' : Color} {A B C : RBTree Nat}
    {x y : Nat} (h : Rep s (plug k (bin d c A x (bin d c' B y C)))) {Q : Unit → State → Prop}
    (hQ : ∀ s', Rep s' (plug k (bin d c' (bin d c A x B) y C)) → Moved s s' → Q () s') :
    Ok (rotate d x) s Q := by
  rw [ok_rotate_run h]
  refine hQ _ h.rotated ⟨sameData_rotated .., ?_⟩
  rw [rotated_eq]
  exact h.pivot.nil_node

end KvStore.Rbtree
