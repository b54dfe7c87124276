import KvStore.Rbtree.Shape

set_option autoImplicit false

/-! # A rotation, read off the links around its pivot

A rotation at `x` reads and writes a handful of links: between `x` and its parent `p`, between `x`
and the child `y` that comes up, and between `y` and the pointer `b` to the subtree that changes
sides. `Pivot` says what these links have to be. Neither a colour nor a key occurs in it, so the
results hold in the middle of a repair as well:

* `Pivot.ok_rotate`: the rotation runs, and leaves the memory `turned`;
* `Pivot.back`: in that memory the links are those of the opposite rotation at `y`;
* `Pivot.turned_turned`: the opposite rotation restores the memory.
-/

namespace KvStore.Rbtree

open KvStore.Lib KvStore.Lib.RBTree Store

/-! ## Single links -/

section Links

variable {s : State} {d e : Side} {p q r : Nat}

theorem childAt_putChild (h : (s.node p).isSome) :
    childAt (putChild s d p q) e r = if r = p ∧ e = d then some q else childAt s e r := by
  by_cases hr : r = p
  · subst hr
    by_cases he : e = d
    · subst he
      simp [h]
    · obtain rfl : e = d.flip := Side.eq_flip_of_ne he
      simp
  · rw [childAt_putChild_ne hr, if_neg (fun hc => hr hc.1)]

theorem parentAt_putParent (h : (s.node p).isSome) :
    parentAt (putParent s p q) r = if r = p then some q else parentAt s r := by
  by_cases hr : r = p
  · subst hr
    simp [h]
  · rw [parentAt_putParent_ne hr, if_neg hr]

/-- A node is the same when all its fields are. -/
theorem node_eq_of_fields {s' : State} (hlive : (s'.node r).isSome = (s.node r).isSome)
    (hcolor : colorAt s' r = colorAt s r) (hchild : ∀ e, childAt s' e r = childAt s e r)
    (hparent : parentAt s' r = parentAt s r) (hkey : keyAt s' r = keyAt s r)
    (hvalue : valueAt s' r = valueAt s r) : s'.node r = s.node r := by
  have hl := hchild .left
  have hr := hchild .right
  unfold colorAt at hcolor
  unfold childAt at hl hr
  unfold parentAt at hparent
  unfold keyAt at hkey
  unfold valueAt at hvalue
  unfold field at hcolor hl hr hparent hkey hvalue
  cases hn' : s'.node r with
  | none =>
      rw [hn'] at hlive
      exact (Option.not_isSome_iff_eq_none.mp (by simp [← hlive])).symm
  | some n' =>
      rw [hn'] at hlive
      obtain ⟨n, hn⟩ := Option.isSome_iff_exists.mp hlive.symm
      rw [hn', hn] at hcolor hl hr hparent hkey hvalue
      obtain ⟨color', right', left', parent', key', value'⟩ := n'
      obtain ⟨color, right, left, parent, key, value⟩ := n
      simp only [Option.bind_some, RbtreeNode.child] at hcolor hl hr hparent hkey hvalue
      rw [hn, hcolor, hl, hr, hparent, hkey, hvalue]

end Links

/-! ## The link from above -/

/-- `x` hangs below `p`: as the root of the tree, with the sentinel for its parent, or as the child
of the node `p` on one side, with another pointer on the other side. -/
def Above (s : State) (x p : Nat) : Option Side → Prop
  | none => p = s.desc.nil ∧ s.desc.root = x
  | some e => p ≠ s.desc.nil ∧ childAt s e p = some x ∧ ∃ q, childAt s e.flip p = some q ∧ q ≠ x

/-- The memory after the link from above leads to `y`. -/
def putAbove (s : State) (p : Nat) : Option Side → Nat → State
  | none, y => putRoot s y
  | some e, y => putChild s e p y

section Above

variable (s : State) (o : Option Side) (x p y r : Nat)

@[simp] theorem putAbove_nil : (putAbove s p o y).desc.nil = s.desc.nil := by
  cases o <;> rfl

@[simp] theorem putAbove_live : ((putAbove s p o y).node r).isSome = (s.node r).isSome := by
  cases o with
  | none => rfl
  | some e => simp [putAbove]

@[simp] theorem colorAt_putAbove : colorAt (putAbove s p o y) r = colorAt s r := by
  cases o with
  | none => rfl
  | some e => simp [putAbove]

@[simp] theorem parentAt_putAbove : parentAt (putAbove s p o y) r = parentAt s r := by
  cases o with
  | none => rfl
  | some e => simp [putAbove]

theorem sameData_putAbove : SameData s (putAbove s p o y) := by
  cases o with
  | none => exact sameData_putRoot s y
  | some e => exact sameData_putChild s e p y

variable {s o x p y r}

theorem putAbove_node (h : o = none ∨ r ≠ p) : (putAbove s p o y).node r = s.node r := by
  cases o with
  | none => rfl
  | some e => exact putChild_node_ne (h.resolve_left (by simp))

theorem childAt_putAbove (h : o ≠ none → (s.node p).isSome) (e : Side) :
    childAt (putAbove s p o y) e r = if r = p ∧ o = some e then some y else childAt s e r := by
  cases o with
  | none =>
      have hsame : childAt (putAbove s p none y) e r = childAt s e r := rfl
      simp [hsame]
  | some f =>
      rw [putAbove, childAt_putChild (h (by simp))]
      simp only [Option.some.injEq, eq_comm]

theorem putAbove_root : (putAbove s p o y).desc.root = if o = none then y else s.desc.root := by
  cases o <;> rfl

theorem Above.congr {s' : State} (h : Above s x p o) (hnil : s'.desc.nil = s.desc.nil)
    (hroot : s'.desc.root = s.desc.root) (hchild : o ≠ none → ∀ e, childAt s' e p = childAt s e p) :
    Above s' x p o := by
  cases o with
  | none => exact ⟨h.1.trans hnil.symm, hroot.trans h.2⟩
  | some e =>
      obtain ⟨hp, hx, q, hq, hne⟩ := h
      have hc := hchild (by simp)
      exact ⟨hnil ▸ hp, (hc e).trans hx, q, (hc e.flip).trans hq, hne⟩

theorem Above.live (h : Above s x p o) (ho : o ≠ none) : (s.node p).isSome := by
  cases o with
  | none => exact absurd rfl ho
  | some e => exact live_of_field h.2.1

/-- **Relinking** from above: whichever side is tested first, the link to `x` is the one
written. -/
theorem ok_relink_above (h : Above s x p o) (hp : parentAt s x = some p) (d : Side)
    (Q : Unit → State → Prop) : Ok (relink d x y) s Q ↔ Q () (putAbove s p o y) := by
  unfold relink
  simp only [ok_bind, ok_getNil, ok_getParent hp]
  cases o with
  | none =>
      rw [if_pos h.1]
      exact ok_setRoot Q
  | some e =>
      obtain ⟨hpn, hx, q, hq, hne⟩ := h
      have hlive := live_of_field hx
      rw [if_neg hpn]
      by_cases hd : e = d
      · subst hd
        simp only [ok_bind, ok_getParent hp, ok_getChild hx, if_true, ok_setChild hlive]
        rfl
      · -- `x` is on the other side, so the tested child is another pointer
        obtain rfl : d = e.flip := Side.eq_flip_of_ne (Ne.symm hd)
        simp only [ok_bind, ok_getParent hp, ok_getChild hq, if_neg (Ne.symm hne),
          Side.flip_flip, ok_setChild hlive]
        rfl

end Above

/-! ## The link to the subtree that changes sides -/

/-- Hang the tree with pointer `b` below `x`; the sentinel is left alone. -/
def putParentOf (s : State) (b x : Nat) : State := if b = s.desc.nil then s else putParent s b x

section PutParentOf

variable (s : State) (d : Side) (b x r : Nat)

@[simp] theorem putParentOf_desc : (putParentOf s b x).desc = s.desc := by
  unfold putParentOf; split_ifs <;> rfl

@[simp] theorem putParentOf_live : ((putParentOf s b x).node r).isSome = (s.node r).isSome := by
  unfold putParentOf; split_ifs <;> simp

@[simp] theorem childAt_putParentOf : childAt (putParentOf s b x) d r = childAt s d r := by
  unfold putParentOf; split_ifs <;> simp

@[simp] theorem colorAt_putParentOf : colorAt (putParentOf s b x) r = colorAt s r := by
  unfold putParentOf; split_ifs <;> simp

theorem sameData_putParentOf : SameData s (putParentOf s b x) := by
  unfold putParentOf
  split_ifs
  · exact SameData.refl s
  · exact sameData_putParent s b x

variable {s b x r}

theorem putParentOf_node (h : b = s.desc.nil ∨ r ≠ b) : (putParentOf s b x).node r = s.node r := by
  unfold putParentOf
  split_ifs with hb
  · rfl
  · exact putParent_node_ne (h.resolve_left hb)

theorem parentAt_putParentOf (h : b ≠ s.desc.nil → (s.node b).isSome) :
    parentAt (putParentOf s b x) r =
      if r = b ∧ b ≠ s.desc.nil then some x else parentAt s r := by
  unfold putParentOf
  split_ifs with hb hr hr
  · exact absurd hb hr.2
  · rfl
  · rw [parentAt_putParent (h hb), if_pos hr.1]
  · rw [parentAt_putParent (h hb), if_neg (fun hc => hr ⟨hc, hb⟩)]

end PutParentOf

/-! ## The links a rotation moves -/

/-- **The links around a rotation** towards `d` at `x`: `y` is the child that comes up, `b` the
pointer to the subtree that changes sides, `p` the parent, which leads to `x` by `o`. -/
structure Pivot (s : State) (d : Side) (x y b p : Nat) (o : Option Side) : Prop where
  pivot : childAt s d.flip x = some y
  inner : childAt s d y = some b
  parent : parentAt s x = some p
  pivot_parent : parentAt s y = some x
  inner_parent : b ≠ s.desc.nil → parentAt s b = some y
  above : Above s x p o
  beside : ∀ e, o = some e → childAt s e.flip p ≠ some y
  x_ne_nil : x ≠ s.desc.nil
  y_ne_nil : y ≠ s.desc.nil
  parent_ne_x : p ≠ x
  parent_ne_y : p ≠ y

/-- The memory after a rotation. -/
def turned (s : State) (d : Side) (x y b p : Nat) (o : Option Side) : State :=
  putParent (putChild (putAbove (putParent (putParentOf (putChild s d.flip x b) b x) y p) p o y)
    d y x) x y

section Turned

variable (s : State) (d : Side) (x y b p : Nat) (o : Option Side)

@[simp] theorem turned_nil : (turned s d x y b p o).desc.nil = s.desc.nil := by
  simp [turned]

@[simp] theorem colorAt_turned (r : Nat) : colorAt (turned s d x y b p o) r = colorAt s r := by
  simp [turned]

theorem sameData_turned : SameData s (turned s d x y b p o) := by
  refine SameData.trans ?_ (sameData_putParent ..)
  refine SameData.trans ?_ (sameData_putChild ..)
  refine SameData.trans ?_ (sameData_putAbove ..)
  refine SameData.trans ?_ (sameData_putParent ..)
  exact (sameData_putChild ..).trans (sameData_putParentOf ..)

theorem turned_root : (turned s d x y b p o).desc.root = if o = none then y else s.desc.root := by
  simp [turned, putAbove_root]

variable {s d x y b p o}

/-- **The frame of a rotation**: it writes `x`, `y`, the root of the subtree that changes sides and
the parent, and of the last two only those that are not the sentinel. -/
theorem turned_node {r : Nat} (hx : r ≠ x) (hy : r ≠ y) (hb : b = s.desc.nil ∨ r ≠ b)
    (hp : o = none ∨ r ≠ p) : (turned s d x y b p o).node r = s.node r := by
  rw [turned, putParent_node_ne hx, putChild_node_ne hy, putAbove_node hp, putParent_node_ne hy,
    putParentOf_node (by simpa using hb), putChild_node_ne hx]

end Turned

section Pivot

variable {s : State} {d : Side} {x y b p : Nat} {o : Option Side} (h : Pivot s d x y b p o)

include h

theorem Pivot.ne : x ≠ y := by
  intro hxy
  have hp := h.parent
  rw [hxy, h.pivot_parent] at hp
  exact h.parent_ne_x (Option.some.inj hp).symm

theorem Pivot.inner_ne_x : b ≠ x := by
  intro hbx
  have hp := h.inner_parent (hbx ▸ h.x_ne_nil)
  rw [hbx, h.parent] at hp
  exact h.parent_ne_y (Option.some.inj hp)

theorem Pivot.inner_ne_y : b ≠ y := by
  intro hby
  have hp := h.inner_parent (hby ▸ h.y_ne_nil)
  rw [hby, h.pivot_parent] at hp
  exact h.ne (Option.some.inj hp)

theorem Pivot.live_x : (s.node x).isSome := live_of_field h.pivot

theorem Pivot.live_y : (s.node y).isSome := live_of_field h.inner

theorem Pivot.live_inner (hb : b ≠ s.desc.nil) : (s.node b).isSome :=
  live_of_field (h.inner_parent hb)

theorem Pivot.childAt_turned (e : Side) (r : Nat) :
    childAt (turned s d x y b p o) e r =
      if r = y ∧ e = d then some x
      else if r = p ∧ o = some e then some y
      else if r = x ∧ e = d.flip then some b
      else childAt s e r := by
  have hpl : o ≠ none → (s.node p).isSome := h.above.live
  rw [turned, childAt_putParent, childAt_putChild (by simp [h.live_y]),
    childAt_putAbove (by simpa using hpl), childAt_putParent, childAt_putParentOf,
    childAt_putChild h.live_x]

theorem Pivot.parentAt_turned (r : Nat) :
    parentAt (turned s d x y b p o) r =
      if r = x then some y
      else if r = y then some p
      else if r = b ∧ b ≠ s.desc.nil then some x
      else parentAt s r := by
  have hbl : b ≠ s.desc.nil → (s.node b).isSome := h.live_inner
  rw [turned, parentAt_putParent (by simp [h.live_x]), parentAt_putChild, parentAt_putAbove,
    parentAt_putParent (by simp [h.live_y]), parentAt_putParentOf (by simpa using hbl),
    parentAt_putChild, putChild_desc]

theorem Pivot.nil_node : (turned s d x y b p o).node s.desc.nil = s.node s.desc.nil := by
  refine turned_node h.x_ne_nil.symm h.y_ne_nil.symm ((eq_or_ne _ _).imp_right Ne.symm) ?_
  have habove := h.above
  cases o with
  | none => exact Or.inl rfl
  | some e => exact Or.inr habove.1.symm

/-! The outer subtrees stay where they are. -/

theorem Pivot.outer_turned : childAt (turned s d x y b p o) d x = childAt s d x := by
  simp [h.childAt_turned, h.ne, h.parent_ne_x.symm]

theorem Pivot.far_turned : childAt (turned s d x y b p o) d.flip y = childAt s d.flip y := by
  simp [h.childAt_turned, h.ne.symm, h.parent_ne_y.symm]

theorem Pivot.below_inner_turned (hb : o = none ∨ b ≠ p) (e : Side) :
    childAt (turned s d x y b p o) e b = childAt s e b := by
  have hnot : ¬(b = p ∧ o = some e) := by
    rintro ⟨hbp, ho⟩
    rcases hb with hb | hb
    · rw [hb] at ho
      cases ho
    · exact hb hbp
  simp [h.childAt_turned, h.inner_ne_x, h.inner_ne_y, hnot]

/-- **A rotation runs** where the links around it are right. -/
theorem Pivot.ok_rotate (Q : Unit → State → Prop) :
    Ok (rotate d x) s Q ↔ Q () (turned s d x y b p o) := by
  set s₁ := putChild s d.flip x b with hs₁
  set s₂ := putParentOf s₁ b x with hs₂
  set s₃ := putParent s₂ y p with hs₃
  have hinner₁ : childAt s₁ d y = some b := by rw [hs₁, childAt_putChild_of_flip, h.inner]
  have hparent₂ : parentAt s₂ x = some p := by
    rw [hs₂, parentAt_putParentOf (by simpa [hs₁] using h.live_inner),
      if_neg (fun hc => h.inner_ne_x hc.1.symm), hs₁, parentAt_putChild, h.parent]
  have hparent₃ : parentAt s₃ x = some p := by
    rw [hs₃, parentAt_putParent_ne h.ne, hparent₂]
  have habove₃ : Above s₃ x p o := by
    refine h.above.congr (by simp [hs₃, hs₂, hs₁]) (by simp [hs₃, hs₂, hs₁]) (fun _ e => ?_)
    rw [hs₃, childAt_putParent, hs₂, childAt_putParentOf, hs₁, childAt_putChild_ne h.parent_ne_x]
  -- from the write of `y->parent` on, both branches are the same code
  have htail : Ok (do
      let p ← getParent x
      setParent y p
      relink d x y
      setChild d y x
      setParent x y : Rb Unit) s₂ Q ↔ Q () (turned s d x y b p o) := by
    simp only [ok_bind]
    rw [ok_getParent hparent₂, ok_setParent (by simp [hs₂, hs₁, h.live_y]), ← hs₃,
      ok_relink_above habove₃ hparent₃, ok_setChild (by simp [hs₃, hs₂, hs₁, h.live_y]),
      ok_setParent (by simp [hs₃, hs₂, hs₁, h.live_x])]
    rfl
  unfold rotate
  simp only [ok_bind, ok_getNil]
  rw [ok_getChild h.pivot, ok_getChild h.inner, ok_setChild h.live_x, ← hs₁, ok_getChild hinner₁]
  by_cases hb : b = s.desc.nil
  · rw [if_neg (by simp [hb])]
    have : s₂ = s₁ := by rw [hs₂, putParentOf, if_pos (by simp [hs₁, hb])]
    rw [this] at htail
    exact htail
  · rw [if_pos hb]
    have : s₂ = putParent s₁ b x := by rw [hs₂, putParentOf, if_neg (by simpa [hs₁] using hb)]
    rw [ok_bind, ok_getChild hinner₁, ok_bind,
      ok_setParent (by simpa [hs₁] using h.live_inner hb), ← this]
    exact htail

theorem Pivot.run_rotate : (rotate d x).run s = .ok ((), turned s d x y b p o) := by
  obtain ⟨⟨⟩, s', hrun, hs'⟩ := (h.ok_rotate fun _ s' => s' = turned s d x y b p o).mpr rfl
  rw [hrun, hs']

/-- After a rotation, `y` stands where `x` stood, with another pointer beside it. -/
theorem Pivot.above_turned : Above (turned s d x y b p o) y p o := by
  have habove := h.above
  have hbeside := h.beside
  have hchild := h.childAt_turned
  cases o with
  | none => exact ⟨habove.1.trans (turned_nil ..).symm, by simp [turned_root]⟩
  | some e =>
      obtain ⟨hpn, -, q, hq, -⟩ := habove
      refine ⟨by simpa using hpn, ?_, q, ?_, fun hqy => hbeside e rfl (hqy ▸ hq)⟩
      · simp [hchild, h.parent_ne_y]
      · simp [hchild, h.parent_ne_y, h.parent_ne_x, hq]

/-- **After a rotation** the links are those of the opposite rotation at the node that came up. -/
theorem Pivot.back : Pivot (turned s d x y b p o) d.flip y x b p o where
  pivot := by simp [h.childAt_turned]
  inner := by simp [h.childAt_turned, h.ne, h.parent_ne_x.symm]
  parent := by simp [h.parentAt_turned, h.ne.symm]
  pivot_parent := by simp [h.parentAt_turned]
  inner_parent hb := by
    rw [turned_nil] at hb
    simp [h.parentAt_turned, h.inner_ne_x, h.inner_ne_y, hb]
  above := h.above_turned
  beside e he := by
    subst he
    obtain ⟨-, -, q, hq, hne⟩ := h.above
    simp [h.childAt_turned, h.parent_ne_y, h.parent_ne_x, hq, hne]
  x_ne_nil := by simpa using h.y_ne_nil
  y_ne_nil := by simpa using h.x_ne_nil
  parent_ne_x := h.parent_ne_y
  parent_ne_y := h.parent_ne_x

theorem Pivot.childAt_turned_turned (e : Side) (r : Nat) :
    childAt (turned (turned s d x y b p o) d.flip y x b p o) e r = childAt s e r := by
  rw [h.back.childAt_turned, h.childAt_turned, Side.flip_flip]
  -- each of the three written links is written back, and the others were never touched
  by_cases hx : r = x ∧ e = d.flip
  · rw [if_pos hx, hx.1, hx.2, h.pivot]
  · by_cases hp : r = p ∧ o = some e
    · have habove := h.above
      rw [hp.2] at habove
      rw [if_neg hx, if_pos hp, hp.1, habove.2.1]
    · by_cases hy : r = y ∧ e = d
      · rw [if_neg hx, if_neg hp, if_pos hy, hy.1, hy.2, h.inner]
      · simp only [if_neg hx, if_neg hp, if_neg hy]

theorem Pivot.parentAt_turned_turned (r : Nat) :
    parentAt (turned (turned s d x y b p o) d.flip y x b p o) r = parentAt s r := by
  rw [h.back.parentAt_turned, h.parentAt_turned, turned_nil]
  by_cases hy : r = y
  · rw [if_pos hy, hy, h.pivot_parent]
  · by_cases hx : r = x
    · rw [if_neg hy, if_pos hx, hx, h.parent]
    · by_cases hb : r = b ∧ b ≠ s.desc.nil
      · rw [if_neg hy, if_neg hx, if_pos hb, hb.1, h.inner_parent hb.2]
      · simp only [if_neg hy, if_neg hx, if_neg hb]

theorem Pivot.root_turned_turned :
    (turned (turned s d x y b p o) d.flip y x b p o).desc.root = s.desc.root := by
  rw [turned_root, turned_root]
  split_ifs with ho
  · have habove := h.above
    rw [ho] at habove
    exact habove.2.symm
  · rfl

/-- **The opposite rotation restores the memory**, every field of every node included. -/
theorem Pivot.turned_turned : turned (turned s d x y b p o) d.flip y x b p o = s := by
  have hdata := (sameData_turned s d x y b p o).trans (sameData_turned _ d.flip y x b p o)
  have hchild := h.childAt_turned_turned
  have hparent := h.parentAt_turned_turned
  have hroot := h.root_turned_turned
  have hcolor : ∀ r, colorAt (turned (turned s d x y b p o) d.flip y x b p o) r = colorAt s r := by
    simp
  generalize turned (turned s d x y b p o) d.flip y x b p o = s' at *
  have hnode : s'.node = s.node := by
    funext r
    exact node_eq_of_fields (hdata.live r) (hcolor r) (hchild · r) (hparent r) (hdata.key r)
      (hdata.value r)
  obtain ⟨node', str', next', root', nil', count'⟩ := s'
  obtain ⟨node, str, next, root, nil, count⟩ := s
  obtain rfl : node' = node := hnode
  obtain rfl : str' = str := hdata.str
  obtain rfl : next' = next := hdata.next
  obtain rfl : root' = root := hroot
  obtain rfl : nil' = nil := hdata.nil
  obtain rfl : count' = count := hdata.count
  rfl

end Pivot

/-! ## The nodes around a rotation, told apart -/

/-- The sentinel `n`, the two nodes of a rotation, the nodes of the three subtrees around them and
the nodes `K` of the rest of the tree are all different. -/
structure Apart (n x y : Nat) (A B C K : List Nat) : Prop where
  nodup : (x :: y :: (A ++ B ++ C ++ K)).Nodup
  nil_notMem : n ∉ x :: y :: (A ++ B ++ C ++ K)

section Apart

variable {n x y b r : Nat} {A B C K : List Nat} (h : Apart n x y A B C K)

include h

theorem Apart.x_ne_nil : x ≠ n := fun hx => h.nil_notMem (by simp [hx])

theorem Apart.y_ne_nil : y ≠ n := fun hy => h.nil_notMem (by simp [hy])

theorem Apart.ne_nil (hr : r ∈ A ++ B ++ C ++ K) : r ≠ n := by
  rintro rfl
  exact h.nil_notMem (List.mem_cons_of_mem _ (List.mem_cons_of_mem _ hr))

theorem Apart.ne_x (hr : r ∈ A ++ B ++ C ++ K) : r ≠ x := by
  rintro rfl
  exact (List.nodup_cons.mp h.nodup).1 (List.mem_cons_of_mem _ hr)

theorem Apart.ne_y (hr : r ∈ A ++ B ++ C ++ K) : r ≠ y := by
  rintro rfl
  exact (List.nodup_cons.mp (List.nodup_cons.mp h.nodup).2).1 hr

theorem Apart.nodup_around : (A ++ B ++ C ++ K).Nodup :=
  (List.nodup_cons.mp (List.nodup_cons.mp h.nodup).2).2

theorem Apart.nodup_rest : K.Nodup := (List.nodup_append.mp h.nodup_around).2.1

theorem Apart.nodup_inner : B.Nodup := by
  have hnd := (List.nodup_append.mp h.nodup_around).1
  exact (List.nodup_append.mp (List.nodup_append.mp hnd).1).2.1

theorem Apart.notMem_rest (hr : r ∈ A ++ B ++ C) : r ∉ K :=
  fun hk => (List.nodup_append.mp h.nodup_around).2.2 r hr r hk rfl

/-- The pointer to the inner subtree leads to none of the other nodes. -/
theorem Apart.ne_inner (hb : b = n ∨ b ∈ B) (hr : r ∈ A ++ C ++ K) : r ≠ b := by
  rintro rfl
  rcases hb with rfl | hb
  · exact h.ne_nil (by simp only [List.mem_append] at hr ⊢; tauto) rfl
  · have hnd := h.nodup_around
    simp only [List.nodup_append, List.mem_append] at hnd hr
    grind

end Apart

/-- The link to `x` comes from the root pointer or from the nodes `K`. -/
def AboveIn (s : State) (K : List Nat) (x p : Nat) : Option Side → Prop
  | none => p = s.desc.nil ∧ s.desc.root = x
  | some e => p ∈ K ∧ childAt s e p = some x ∧
      ∃ q, childAt s e.flip p = some q ∧ (q = s.desc.nil ∨ q ∈ K)

section AboveIn

variable {s : State} {d : Side} {x y b p r : Nat} {o : Option Side} {A B C K : List Nat}

theorem AboveIn.above (h : AboveIn s K x p o) (hx : x ∉ K) (hxn : x ≠ s.desc.nil)
    (hnil : s.desc.nil ∉ K) : Above s x p o := by
  cases o with
  | none => exact h
  | some e =>
      obtain ⟨hp, hx', q, hq, hqK⟩ := h
      refine ⟨fun hpn => hnil (hpn ▸ hp), hx', q, hq, ?_⟩
      rintro rfl
      exact hqK.elim hxn hx

theorem AboveIn.none_or_ne (h : AboveIn s K x p o) (hr : r ∉ K) : o = none ∨ r ≠ p := by
  cases o with
  | none => exact Or.inl rfl
  | some e =>
      refine Or.inr ?_
      rintro rfl
      exact hr h.1

theorem AboveIn.eq_nil_or_mem (h : AboveIn s K x p o) : p = s.desc.nil ∨ p ∈ K := by
  cases o with
  | none => exact Or.inl h.1
  | some e => exact Or.inr h.1

variable (h : Apart s.desc.nil x y A B C K) (ho : AboveIn s K x p o)

include h ho

/-- The links of a rotation, from those of a tree that has no node twice. -/
theorem Apart.pivot (hxy : childAt s d.flip x = some y) (hyb : childAt s d y = some b)
    (hxp : parentAt s x = some p) (hyx : parentAt s y = some x)
    (hby : b ≠ s.desc.nil → parentAt s b = some y) : Pivot s d x y b p o where
  pivot := hxy
  inner := hyb
  parent := hxp
  pivot_parent := hyx
  inner_parent := hby
  above := by
    refine ho.above (fun hx => h.ne_x (List.mem_append_right _ hx) rfl) h.x_ne_nil fun hn => ?_
    exact h.ne_nil (List.mem_append_right _ hn) rfl
  beside e he := by
    subst he
    obtain ⟨-, -, q, hq, hqK⟩ := ho
    rw [hq]
    rintro ⟨⟩
    exact hqK.elim h.y_ne_nil fun hy => h.ne_y (List.mem_append_right _ hy) rfl
  x_ne_nil := h.x_ne_nil
  y_ne_nil := h.y_ne_nil
  parent_ne_x := by
    rcases ho.eq_nil_or_mem with rfl | hp
    · exact h.x_ne_nil.symm
    · exact h.ne_x (List.mem_append_right _ hp)
  parent_ne_y := by
    rcases ho.eq_nil_or_mem with rfl | hp
    · exact h.y_ne_nil.symm
    · exact h.ne_y (List.mem_append_right _ hp)

/-- The outer subtrees are not written. -/
theorem Apart.turned_outer (hb : b = s.desc.nil ∨ b ∈ B) (hr : r ∈ A ++ C) :
    (turned s d x y b p o).node r = s.node r := by
  have hr' : r ∈ A ++ B ++ C := by
    simp only [List.mem_append] at hr ⊢
    tauto
  have hall := List.mem_append_left K hr'
  exact turned_node (h.ne_x hall) (h.ne_y hall) (Or.inr (h.ne_inner hb (List.mem_append_left K hr)))
    (ho.none_or_ne (h.notMem_rest hr'))

/-- Of the inner subtree only the root is written. -/
theorem Apart.turned_inner (hr : r ∈ B) (hrb : r ≠ b) :
    (turned s d x y b p o).node r = s.node r := by
  have hr' : r ∈ A ++ B ++ C := by simp [hr]
  have hall := List.mem_append_left K hr'
  exact turned_node (h.ne_x hall) (h.ne_y hall) (Or.inr hrb) (ho.none_or_ne (h.notMem_rest hr'))

end AboveIn

end KvStore.Rbtree
