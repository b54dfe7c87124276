import KvStore.Rbtree.Rotate

set_option autoImplicit false

/-! # Rotations of well-linked trees

`Rep` describes the trees the engine keeps, with their colours. Here a tree in memory is its links
and nothing else: `WellLinked s L` says that from `tree->root` hangs a tree whose child and parent
links agree, and that `L` is the sequence of its nodes in order. Colours and keys need not even be
written. A node of such a tree is reached by a way down (`Climb`), and with the way fixed the
links around it are a `Pivot`:

* `WellLinked.exists_site`: every node with a child is the site of a rotation;
* `Site.wellLinked_turned`: the rotation keeps the tree well linked, with the same sequence;
* `rotations_keep_tree`: both rotations of the source, with their frame and the way back.
-/

namespace KvStore.Rbtree

open KvStore.Lib KvStore.Lib.RBTree Store

/-! ## Sequences of nodes -/

/-- The nodes of a tree in order: `L` on the side `d` of the root `p`, `R` on the other. -/
def inorder (d : Side) (L : List Nat) (p : Nat) (R : List Nat) : List Nat :=
  match d with
  | .left => L ++ p :: R
  | .right => R ++ p :: L

/-- A rotation does not change the order. -/
theorem inorder_assoc (d : Side) (A : List Nat) (x : Nat) (B : List Nat) (y : Nat) (C : List Nat) :
    inorder d A x (inorder d B y C) = inorder d (inorder d A x B) y C := by
  cases d <;> simp [inorder]

theorem inorder_perm (d : Side) (L : List Nat) (p : Nat) (R : List Nat) :
    (inorder d L p R).Perm (p :: (L ++ R)) := by
  cases d with
  | left => exact List.perm_middle
  | right => exact List.perm_middle.trans (List.perm_append_comm.cons p)

/-! ## Trees of links -/

/-- From the node `par` hangs, by the pointer `p`, a tree with the given nodes in order. -/
inductive Hangs (s : State) : Nat → Nat → List Nat → Prop
  | nil (par : Nat) : Hangs s par s.desc.nil []
  | node {par p l r : Nat} {L R : List Nat} (hp : p ≠ s.desc.nil)
      (hl : childAt s .left p = some l) (hr : childAt s .right p = some r)
      (hpar : parentAt s p = some par) (hL : Hangs s p l L) (hR : Hangs s p r R) :
      Hangs s par p (L ++ p :: R)

/-- **A well-linked tree**: the tree that hangs from `tree->root`, below the sentinel, has the nodes
`L` in order, and no node twice. -/
structure WellLinked (s : State) (L : List Nat) : Prop where
  hangs : Hangs s s.desc.nil s.desc.root L
  nodup : L.Nodup

section Hangs

variable {s s' : State} {par p q : Nat} {L R M : List Nat}

theorem Hangs.bin {d : Side} {t u : Nat} (hp : p ≠ s.desc.nil) (ht : childAt s d p = some t)
    (hu : childAt s d.flip p = some u) (hpar : parentAt s p = some par) (hL : Hangs s p t L)
    (hR : Hangs s p u R) : Hangs s par p (inorder d L p R) := by
  cases d with
  | left => exact Hangs.node hp ht hu hpar hL hR
  | right => exact Hangs.node hp hu ht hpar hR hL

/-- A real pointer leads to a node with two trees, whichever side is named first. -/
theorem Hangs.exists_bin (h : Hangs s par p M) (hp : p ≠ s.desc.nil) (d : Side) :
    ∃ t u L R, childAt s d p = some t ∧ childAt s d.flip p = some u ∧ parentAt s p = some par ∧
      Hangs s p t L ∧ Hangs s p u R ∧ M = inorder d L p R := by
  cases h with
  | nil => exact absurd rfl hp
  | node _ hl hr hpar hL hR =>
      cases d with
      | left => exact ⟨_, _, _, _, hl, hr, hpar, hL, hR, rfl⟩
      | right => exact ⟨_, _, _, _, hr, hl, hpar, hR, hL, rfl⟩

theorem Hangs.eq_nil_or_mem (h : Hangs s par p M) : p = s.desc.nil ∨ p ∈ M := by
  cases h with
  | nil => exact Or.inl rfl
  | node => exact Or.inr (by simp)

theorem Hangs.nil_notMem (h : Hangs s par p M) : s.desc.nil ∉ M := by
  induction h with
  | nil => simp
  | node hp _ _ _ _ _ ihL ihR =>
      rw [List.mem_append, List.mem_cons]
      rintro (hm | hm | hm)
      · exact ihL hm
      · exact hp hm.symm
      · exact ihR hm

theorem Hangs.congr (h : Hangs s par p M) (hnil : s'.desc.nil = s.desc.nil)
    (hnode : ∀ a ∈ M, s'.node a = s.node a) : Hangs s' par p M := by
  induction h with
  | nil par => exact hnil ▸ Hangs.nil par
  | @node par p l r L R hp hl hr hpar hL hR ihL ihR =>
      have hsame : s'.node p = s.node p := hnode p (by simp)
      refine Hangs.node (hnil ▸ hp) ?_ ?_ ?_ (ihL fun a ha => hnode a (by simp [ha]))
        (ihR fun a ha => hnode a (by simp [ha]))
      · rw [← hl]; exact field_congr hsame _
      · rw [← hr]; exact field_congr hsame _
      · rw [← hpar]; exact field_congr hsame _

/-- A tree whose root is moved below another node. -/
theorem Hangs.reparent (h : Hangs s par p M) (hnd : M.Nodup) (hnil : s'.desc.nil = s.desc.nil)
    (hchild : p ≠ s.desc.nil → ∀ e, childAt s' e p = childAt s e p)
    (hparent : p ≠ s.desc.nil → parentAt s' p = some q)
    (hnode : ∀ a ∈ M, a ≠ p → s'.node a = s.node a) : Hangs s' q p M := by
  cases h with
  | nil => exact hnil ▸ Hangs.nil q
  | @node _ _ l r L R hp hl hr _ hL hR =>
      have hout := (List.nodup_cons.mp ((inorder_perm .left L p R).nodup_iff.mp hnd)).1
      have hbelow : ∀ a ∈ L ++ R, s'.node a = s.node a := by
        intro a ha
        refine hnode a ?_ ?_
        · simp only [List.mem_append, List.mem_cons] at ha ⊢
          tauto
        · rintro rfl
          exact hout ha
      refine Hangs.node (hnil ▸ hp) ?_ ?_ (hparent hp) (hL.congr hnil fun a ha => hbelow a ?_)
        (hR.congr hnil fun a ha => hbelow a ?_)
      · rw [hchild hp, hl]
      · rw [hchild hp, hr]
      · exact List.mem_append_left R ha
      · exact List.mem_append_right L ha

end Hangs

variable {s : State}

/-- The trees of the engine are well linked. -/
theorem Linked.hangs {par : Nat} {t : RBTree Nat} (h : Linked s par t)
    (hnil : s.desc.nil ∉ t.toList) : Hangs s par (ptr s.desc.nil t) t.toList := by
  induction t generalizing par with
  | nil => exact Hangs.nil par
  | node c l a r ihl ihr =>
      obtain ⟨-, hl, hr, hp, hL, hR⟩ := h
      rw [toList, List.mem_append, List.mem_cons, not_or, not_or] at hnil
      exact Hangs.node (Ne.symm hnil.2.1) hl hr hp (ihl hL hnil.1) (ihr hR hnil.2.2)

theorem Rep.wellLinked {T : RBTree Nat} (h : Rep s T) : WellLinked s T.toList where
  hangs := by
    rw [h.root]
    exact h.linked.hangs h.nil_notMem
  nodup := h.nodup

/-! ## The way down to a node -/

/-- A node passed on the way down: the side taken, the node, and the nodes on its other side. -/
structure Rung where
  side : Side
  node : Nat
  rest : List Nat

/-- The node above the end of a way; above the root stands the sentinel. -/
def upper (nil : Nat) : List Rung → Nat
  | [] => nil
  | f :: _ => f.node

/-- The side on which the last node of the way was left. -/
def upperSide : List Rung → Option Side
  | [] => none
  | f :: _ => some f.side

/-- The nodes of the tree in order, when those at the end of the way are `M`. -/
def fill : List Rung → List Nat → List Nat
  | [], M => M
  | f :: k, M => fill k (inorder f.side M f.node f.rest)

/-- The nodes on and beside the way. -/
def rungs : List Rung → List Nat
  | [] => []
  | f :: k => f.node :: (f.rest ++ rungs k)

/-- The memory holds the way `k`, the innermost node first, and its end leads to `q`. -/
def Climb (s : State) : List Rung → Nat → Prop
  | [], q => s.desc.root = q
  | f :: k, q =>
      f.node ≠ s.desc.nil ∧ childAt s f.side f.node = some q ∧
        (∃ u, childAt s f.side.flip f.node = some u ∧ Hangs s f.node u f.rest) ∧
          parentAt s f.node = some (upper s.desc.nil k) ∧ Climb s k f.node

theorem fill_perm (k : List Rung) (M : List Nat) : (fill k M).Perm (M ++ rungs k) := by
  induction k generalizing M with
  | nil => simp [fill, rungs]
  | cons f k ih =>
      calc (fill (f :: k) M).Perm (inorder f.side M f.node f.rest ++ rungs k) := ih _
        List.Perm _ (f.node :: (M ++ f.rest) ++ rungs k) := (inorder_perm ..).append_right _
        List.Perm _ (M ++ rungs (f :: k)) := by
            rw [List.cons_append, List.append_assoc]
            exact List.perm_middle.symm

section Climb

variable {s s' : State} {k : List Rung} {x q : Nat} {M : List Nat}

theorem Climb.aboveIn (hk : Climb s k x) :
    AboveIn s (rungs k) x (upper s.desc.nil k) (upperSide k) := by
  cases k with
  | nil => exact ⟨rfl, hk⟩
  | cons f k =>
      obtain ⟨-, hx, ⟨u, hu, hrest⟩, -, -⟩ := hk
      refine ⟨by simp [rungs, upper], hx, u, hu, hrest.eq_nil_or_mem.imp_right fun hm => ?_⟩
      simp [rungs, hm]

/-- What hangs at the end of a way hangs in the tree. -/
theorem Climb.hangs (hk : Climb s k q) (h : Hangs s (upper s.desc.nil k) q M) :
    Hangs s s.desc.nil s.desc.root (fill k M) := by
  induction k generalizing q M with
  | nil =>
      rw [show s.desc.root = q from hk]
      exact h
  | cons f k ih =>
      obtain ⟨hp, hq, ⟨u, hu, hrest⟩, hpar, hk⟩ := hk
      exact ih hk (Hangs.bin hp hq hu hpar h hrest)

/-- **Going down** from the end of a way to a node below it. -/
theorem Hangs.exists_climb {par : Nat} (h : Hangs s par q M) (hpar : upper s.desc.nil k = par)
    (hk : Climb s k q) (hx : x ∈ M) :
    ∃ k' N, Climb s k' x ∧ Hangs s (upper s.desc.nil k') x N ∧ fill k' N = fill k M := by
  -- on the way down, every node that is passed becomes the innermost one of the way
  induction h generalizing k with
  | nil => cases hx
  | @node par p l r L R hp hl hr hpp hL hR ihL ihR =>
      subst hpar
      rw [List.mem_append, List.mem_cons] at hx
      rcases hx with hx | rfl | hx
      · exact ihL (k := ⟨.left, p, R⟩ :: k) rfl ⟨hp, hl, ⟨r, hr, hR⟩, hpp, hk⟩ hx
      · exact ⟨k, _, hk, Hangs.node hp hl hr hpp hL hR, rfl⟩
      · exact ihR (k := ⟨.right, p, L⟩ :: k) rfl ⟨hp, hr, ⟨l, hl, hL⟩, hpp, hk⟩ hx

theorem Climb.congr (hk : Climb s k q) (hnil : s'.desc.nil = s.desc.nil)
    (hroot : s'.desc.root = s.desc.root) (hnode : ∀ a ∈ rungs k, s'.node a = s.node a) :
    Climb s' k q := by
  induction k generalizing q with
  | nil => exact hroot.trans hk
  | cons f k ih =>
      obtain ⟨hp, hq, ⟨u, hu, hrest⟩, hpar, hk⟩ := hk
      have hsame : s'.node f.node = s.node f.node := hnode _ (by simp [rungs])
      refine ⟨hnil ▸ hp, ?_, ⟨u, ?_, hrest.congr hnil fun a ha => hnode a (by simp [rungs, ha])⟩,
        ?_, ih hk fun a ha => hnode a (by simp [rungs, ha])⟩
      · rw [← hq]; exact field_congr hsame _
      · rw [← hu]; exact field_congr hsame _
      · rw [hnil, ← hpar]; exact field_congr hsame _

end Climb

/-! ## The site of a rotation -/

/-- A node `x` with a child `y` on the side opposite to `d`, at the end of the way `k`. Around them
hang, in the order seen from `d`, the trees `A`, `B` and `C`. -/
structure Site (s : State) (d : Side) (k : List Rung) (A : List Nat) (x : Nat) (B : List Nat)
    (y : Nat) (C : List Nat) (b : Nat) : Prop where
  climb : Climb s k x
  parent : parentAt s x = some (upper s.desc.nil k)
  outer : ∃ a, childAt s d x = some a ∧ Hangs s x a A
  pivot : childAt s d.flip x = some y
  pivot_parent : parentAt s y = some x
  inner : childAt s d y = some b
  inner_hangs : Hangs s y b B
  far : ∃ c, childAt s d.flip y = some c ∧ Hangs s y c C
  apart : Apart s.desc.nil x y A B C (rungs k)

theorem WellLinked.exists_site {L : List Nat} {d : Side} {x y : Nat}
    (h : WellLinked s L) (hx : x ∈ L) (hy : childAt s d.flip x = some y) (hyn : y ≠ s.desc.nil) :
    ∃ k A B C b, Site s d k A x B y C b ∧ L = fill k (inorder d A x (inorder d B y C)) := by
  have hnil := h.hangs.nil_notMem
  have hxn : x ≠ s.desc.nil := fun hn => hnil (hn ▸ hx)
  obtain ⟨k, N, hk, hN, hfill⟩ := h.hangs.exists_climb (k := []) rfl rfl hx
  obtain ⟨a, z, A, Y, ha, hz, hxp, hA, hY, rfl⟩ := hN.exists_bin hxn d
  obtain rfl : z = y := Option.some.inj (hz.symm.trans hy)
  obtain ⟨b, c, B, C, hb, hc, hyp, hB, hC, rfl⟩ := hY.exists_bin hyn d
  have hperm : L.Perm (x :: z :: (A ++ B ++ C ++ rungs k)) := by
    calc L.Perm (fill k (inorder d A x (inorder d B z C))) := by rw [hfill, fill]
      List.Perm _ (inorder d A x (inorder d B z C) ++ rungs k) := fill_perm ..
      List.Perm _ (x :: (A ++ inorder d B z C) ++ rungs k) := (inorder_perm ..).append_right _
      List.Perm _ (x :: (A ++ z :: (B ++ C)) ++ rungs k) :=
          (((inorder_perm ..).append_left A).cons x).append_right _
      List.Perm _ (x :: z :: (A ++ B ++ C ++ rungs k)) := by
          simp
  refine ⟨k, A, B, C, b, ?_, hfill.symm⟩
  exact
    { climb := hk
      parent := hxp
      outer := ⟨a, ha, hA⟩
      pivot := hz
      pivot_parent := hyp
      inner := hb
      inner_hangs := hB
      far := ⟨c, hc, hC⟩
      apart := ⟨hperm.nodup_iff.mp h.nodup, fun hm => hnil (hperm.mem_iff.mpr hm)⟩ }

section Site

variable {s : State} {d : Side} {k : List Rung} {A B C : List Nat} {x y b : Nat}
  (h : Site s d k A x B y C b)

include h

theorem Site.links : Pivot s d x y b (upper s.desc.nil k) (upperSide k) := by
  refine h.apart.pivot h.climb.aboveIn h.pivot h.inner h.parent h.pivot_parent fun hb => ?_
  obtain ⟨-, -, -, -, -, -, hparent, -⟩ := h.inner_hangs.exists_bin hb d
  exact hparent

theorem Site.inner_eq_nil_or_mem : b = s.desc.nil ∨ b ∈ B := h.inner_hangs.eq_nil_or_mem

/-- The way down leads to the node that came up. -/
theorem Site.climb_turned :
    Climb (turned s d x y b (upper s.desc.nil k) (upperSide k)) k y := by
  have hlinks := h.links
  have hclimb := h.climb
  have hapart := h.apart
  have hinner := h.inner_eq_nil_or_mem
  cases k with
  | nil => simp [Climb, turned_root, upperSide]
  | cons f k =>
      obtain ⟨hp, hx, ⟨u, hu, hrest⟩, hpar, hk⟩ := hclimb
      have hf : f.node ∈ rungs (f :: k) := by simp [rungs]
      have hfx : f.node ≠ x := hapart.ne_x (List.mem_append_right _ hf)
      have hfy : f.node ≠ y := hapart.ne_y (List.mem_append_right _ hf)
      have hfb : f.node ≠ b := hapart.ne_inner hinner (List.mem_append_right _ hf)
      -- of the nodes on and beside the way, only the parent is written
      have hout : ∀ a ∈ f.rest ++ rungs k,
          (turned s d x y b (upper s.desc.nil (f :: k)) (upperSide (f :: k))).node a
              = s.node a := by
        intro a ha
        have ha' : a ∈ rungs (f :: k) := List.mem_cons_of_mem _ ha
        refine turned_node (hapart.ne_x (List.mem_append_right _ ha'))
          (hapart.ne_y (List.mem_append_right _ ha'))
          (Or.inr (hapart.ne_inner hinner (List.mem_append_right _ ha'))) (Or.inr ?_)
        rintro rfl
        exact (List.nodup_cons.mp hapart.nodup_rest).1 ha
      refine ⟨by simpa using hp, hlinks.above_turned.2.1, ⟨u, ?_, ?_⟩, ?_, ?_⟩
      · rw [hlinks.childAt_turned]
        simp [hfx, hfy, upperSide, hu]
      · exact hrest.congr (turned_nil ..) fun a ha => hout a (List.mem_append_left _ ha)
      · rw [turned_nil, ← hpar, hlinks.parentAt_turned]
        simp [hfx, hfy, hfb]
      · refine hk.congr (turned_nil ..) ?_ fun a ha => hout a (List.mem_append_right _ ha)
        simp [turned_root, upperSide]

/-- The tree below the node that came up. -/
theorem Site.hangs_turned :
    Hangs (turned s d x y b (upper s.desc.nil k) (upperSide k)) (upper s.desc.nil k) y
      (inorder d (inorder d A x B) y C) := by
  have hback := h.links.back
  have hbeyond := h.climb.aboveIn
  obtain ⟨a, ha, hA⟩ := h.outer
  obtain ⟨c, hc, hC⟩ := h.far
  have houter : ∀ r ∈ A ++ C, _ := fun r hr =>
    h.apart.turned_outer (d := d) hbeyond h.inner_eq_nil_or_mem hr
  have hB : Hangs (turned s d x y b (upper s.desc.nil k) (upperSide k)) x b B := by
    refine h.inner_hangs.reparent h.apart.nodup_inner (turned_nil ..) (fun hb => ?_) (fun hb => ?_)
      fun r hr hrb => h.apart.turned_inner hbeyond hr hrb
    · have hbm := h.inner_eq_nil_or_mem.resolve_left hb
      exact h.links.below_inner_turned (hbeyond.none_or_ne (h.apart.notMem_rest (by simp [hbm])))
    · exact hback.inner_parent (by simpa using hb)
  rw [← h.links.outer_turned] at ha
  rw [← h.links.far_turned] at hc
  have hX : Hangs (turned s d x y b (upper s.desc.nil k) (upperSide k)) y x (inorder d A x B) := by
    refine Hangs.bin hback.y_ne_nil ha hback.inner hback.pivot_parent ?_ hB
    exact hA.congr (turned_nil ..) fun r hr => houter r (List.mem_append_left _ hr)
  refine Hangs.bin hback.x_ne_nil (by simpa using hback.pivot) hc hback.parent hX ?_
  exact hC.congr (turned_nil ..) fun r hr => houter r (List.mem_append_right _ hr)

/-- **A rotation keeps the tree well linked**, with the same nodes in the same order. -/
theorem Site.wellLinked_turned (hnd : (fill k (inorder d A x (inorder d B y C))).Nodup) :
    WellLinked (turned s d x y b (upper s.desc.nil k) (upperSide k))
      (fill k (inorder d A x (inorder d B y C))) where
  hangs := by
    rw [inorder_assoc]
    refine h.climb_turned.hangs ?_
    rw [turned_nil]
    exact h.hangs_turned
  nodup := hnd

end Site

/-! ## The rotations of the source -/

/-- What a rotation at `x` leaves of the tree with the nodes `L`, where `y` is the child that came
up, `b` the root of the subtree that changed sides and `p` the old parent. -/
structure KeepsTree (s s' : State) (L : List Nat) (x y b p : Nat) : Prop extends Moved s s' where
  wellLinked : WellLinked s' L
  frame : ∀ r, r ≠ x → r ≠ y → r ≠ b → r ≠ p → s'.node r = s.node r
  color : ∀ r, colorAt s' r = colorAt s r
  parent : parentAt s' x = some y

theorem WellLinked.rotate {L : List Nat} {d : Side} {x y : Nat} (h : WellLinked s L)
    (hx : x ∈ L) (hy : childAt s d.flip x = some y) (hyn : y ≠ s.desc.nil) :
    ∃ b p s', childAt s d y = some b ∧ parentAt s x = some p ∧
      (rotate d x).run s = .ok ((), s') ∧ KeepsTree s s' L x y b p ∧
        (rotate d.flip y).run s' = .ok ((), s) := by
  obtain ⟨k, A, B, C, b, hsite, rfl⟩ := h.exists_site hx hy hyn
  have hlinks := hsite.links
  have hback := hlinks.back.run_rotate
  rw [hlinks.turned_turned] at hback
  refine ⟨b, upper s.desc.nil k, _, hsite.inner, hsite.parent, hlinks.run_rotate, ?_, hback⟩
  exact
    { toSameData := sameData_turned ..
      nil_node := hlinks.nil_node
      wellLinked := hsite.wellLinked_turned h.nodup
      frame := fun r hx hy hb hp => turned_node hx hy (Or.inr hb) (Or.inr hp)
      color := colorAt_turned s d x y b _ _
      parent := hlinks.back.pivot_parent }

/-- **Rotations preserve the tree.** In every well-linked tree, at every node with a real child on
the right (for a left rotation) or on the left (for a right rotation), the rotation runs, keeps the
links consistent and the nodes in their order, writes at most four nodes and not the sentinel, and
the opposite rotation at the new parent restores the memory. -/
theorem rotations_keep_tree {s : State} {L : List Nat} (h : WellLinked s L) {x : Nat} (hx : x ∈ L) :
    (∀ y, childAt s .right x = some y → y ≠ s.desc.nil →
      ∃ b p s', childAt s .left y = some b ∧ parentAt s x = some p ∧
        (rbtreeLeftRotate x).run s = .ok ((), s') ∧ KeepsTree s s' L x y b p ∧
          (rbtreeRightRotate y).run s' = .ok ((), s)) ∧
    (∀ y, childAt s .left x = some y → y ≠ s.desc.nil →
      ∃ b p s', childAt s .right y = some b ∧ parentAt s x = some p ∧
        (rbtreeRightRotate x).run s = .ok ((), s') ∧ KeepsTree s s' L x y b p ∧
          (rbtreeLeftRotate y).run s' = .ok ((), s)) := by
  constructor
  · intro y hy hyn
    exact h.rotate (d := .left) hx hy hyn
  · intro y hy hyn
    exact h.rotate (d := .right) hx hy hyn

/-- A node with its three links only. -/
def bareNode (l r p : Nat) : RbtreeNode := { left := some l, right := some r, parent := some p }

/-- A memory with a tree of five nodes that have neither a colour nor a key. -/
def bareTree : State where
  node := fun p =>
    match p with
    | 1 => some {}
    | 2 => some (bareNode 3 4 5)
    | 3 => some (bareNode 1 1 2)
    | 4 => some (bareNode 6 1 2)
    | 5 => some (bareNode 2 1 1)
    | 6 => some (bareNode 1 1 4)
    | _ => none
  str := fun _ => none
  next := 7
  desc := { root := 5, nil := 1, count := 5 }

theorem bareTree_wellLinked : WellLinked bareTree [3, 2, 6, 4, 5] where
  hangs := by
    have h3 : Hangs bareTree 2 3 [3] := .node (by decide) rfl rfl rfl (.nil 3) (.nil 3)
    have h6 : Hangs bareTree 4 6 [6] := .node (by decide) rfl rfl rfl (.nil 6) (.nil 6)
    have h4 : Hangs bareTree 2 4 [6, 4] := .node (by decide) rfl rfl rfl h6 (.nil 4)
    have h2 : Hangs bareTree 5 2 [3, 2, 6, 4] := .node (by decide) rfl rfl rfl h3 h4
    exact .node (by decide) rfl rfl rfl h2 (.nil 5)
  nodup := by decide

theorem rotations_keep_tree_bareTree :
    WellLinked bareTree [3, 2, 6, 4, 5] ∧
    (∃ s', (rbtreeLeftRotate 2).run bareTree = .ok ((), s') ∧
      KeepsTree bareTree s' [3, 2, 6, 4, 5] 2 4 6 5 ∧
        (rbtreeRightRotate 4).run s' = .ok ((), bareTree)) ∧
    (∃ s', (rbtreeRightRotate 2).run bareTree = .ok ((), s') ∧
      KeepsTree bareTree s' [3, 2, 6, 4, 5] 2 3 1 5 ∧
        (rbtreeLeftRotate 3).run s' = .ok ((), bareTree)) := by
  have h := rotations_keep_tree bareTree_wellLinked (x := 2) (by decide)
  refine ⟨bareTree_wellLinked, ?_, ?_⟩
  · obtain ⟨b, p, s', hb, hp, hrest⟩ := h.1 4 rfl (by decide)
    cases hb
    cases hp
    exact ⟨s', hrest⟩
  · obtain ⟨b, p, s', hb, hp, hrest⟩ := h.2 3 rfl (by decide)
    cases hb
    cases hp
    exact ⟨s', hrest⟩

end KvStore.Rbtree
