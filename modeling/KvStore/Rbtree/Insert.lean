import KvStore.Lib.RedBlackRepair
import KvStore.Rbtree.Rotate

set_option autoImplicit false

/-! # `rbtree_insert_fixup` and `rbtree_insert` on trees in memory

One iteration of the loop of `rbtree_insert_fixup` does to the tree in memory what `insertStep`
does to the tree (`ok_insertFixupBody`), so the whole loop leaves a red-black tree with the same
nodes in the same order (`ok_rbtreeInsertFixup`).
-/

namespace KvStore.Rbtree

open KvStore.Lib KvStore.Lib.RBTree

/-! ## The repair loop -/

variable {k : Ctx Nat} {s : State}

/-- The end of the body of `rbtree_insert_fixup` when the uncle is black and `z` is the outer
grandchild (after the first rotation, when there was one). -/
theorem ok_insertTurn {d : Side} {gc c : Color} {X R U : RBTree Nat}
    {a q : Nat} (h : Rep s (plug k (bin d gc (bin d c X a R) q U))) (hX : X ≠ .nil)
    {Q : Nat → State → Prop}
    (hQ : ∀ s', Rep s' (plug k (bin d .black X a (bin d .red R q U))) → Moved s s' →
      Q (ptr s.desc.nil X) s') :
    Ok (do
      setColor (← getParent (ptr s.desc.nil X)) .black
      setColor (← getParent (← getParent (ptr s.desc.nil X))) .red
      rotate d.flip (← getParent (← getParent (ptr s.desc.nil X)))
      return ptr s.desc.nil X : Rb Nat) s Q := by
  -- the parent `a` is black after the first write, the grandparent `q` red after the second
  have ha : Rep s (plug (⟨d, gc, q, U⟩ :: k) (bin d c X a R)) := h
  have hz : Rep s (plug (⟨d, c, a, R⟩ :: ⟨d, gc, q, U⟩ :: k) X) := h
  have hzp : parentAt s (ptr s.desc.nil X) = some a := hz.parent_focus hX
  have hap : parentAt s a = some q := by
    have := ha.parent_focus (by simp)
    rwa [ptr_bin] at this
  have h₁ : Rep (putColor s a .black) (plug k (bin d gc (bin d .black X a R) q U)) :=
    ha.recolor .black
  have h₂ := h₁.recolor .red
  rw [← bin_flip d .red, ← bin_flip d .black R] at h₂
  have hal : (s.node a).isSome := Store.live_of_field hap
  have hql : (s.node q).isSome := by
    have := putColor_ptr_live h
    rwa [ptr_bin] at this
  have hmoved : Moved s (putColor (putColor s a .black) q .red) :=
    (moved_putColor ha.ne_nil .black).trans (moved_putColor h₁.ne_nil .red)
  simp only [ok_bind]
  rw [ok_getParent hzp, ok_setColor hal, ok_getParent (by simpa using hzp),
    ok_getParent (by simpa using hap), ok_setColor (by simpa using hql),
    ok_getParent (by simpa using hzp), ok_getParent (by simpa using hap)]
  refine ok_rotate h₂ (fun s' hs' hm => ?_)
  rw [bin_flip, bin_flip] at hs'
  exact (ok_pure _ _ _).mpr (hQ s' hs' (hmoved.trans hm))

/-- The body of `rbtree_insert_fixup` when the uncle `u` is not the sentinel and has to turn
black. -/
theorem ok_insertRecolor {d e : Side} {pc gc uc : Color} {z S ul ur : RBTree Nat} {p q u : Nat}
    (h : Rep s (plug (⟨e, pc, p, S⟩ :: ⟨d, gc, q, bin d uc ul u ur⟩ :: k) z)) (hz : z ≠ .nil)
    {Q : Nat → State → Prop}
    (hQ : ∀ s', Rep s' (plug k (bin d .red (bin e .black z p S) q (bin d .black ul u ur))) →
      Moved s s' → Q q s') :
    Ok (do
      setColor (← getParent (ptr s.desc.nil z)) .black
      setColor u .black
      setColor (← getParent (← getParent (ptr s.desc.nil z))) .red
      getParent (← getParent (ptr s.desc.nil z)) : Rb Nat) s Q := by
  have hzp : parentAt s (ptr s.desc.nil z) = some p := h.parent_focus hz
  obtain ⟨hpc, -, -, hpp, -, hqc, -, -, -, hU, -⟩ := h.ctx
  dsimp only at hpc hpp hqc hU
  -- the three colourings, seen from the coloured node each time
  have h₁ : Rep (putColor s p .black)
      (plug (⟨d, gc, q, bin d uc ul u ur⟩ :: k) (bin e .black z p S)) :=
    Rep.recolor (k := ⟨d, gc, q, bin d uc ul u ur⟩ :: k) h .black
  rw [← plug_flip] at h₁
  have h₂ := h₁.recolor .black
  rw [plug_flip] at h₂
  have h₃ : Rep _ (plug k (bin d .red (bin e .black z p S) q (bin d .black ul u ur))) :=
    Rep.recolor (k := k) h₂ .red
  have hm : Moved s (putColor (putColor (putColor s p .black) u .black) q .red) := by
    refine (moved_putColor ?_ .black).trans
      ((moved_putColor ?_ .black).trans (moved_putColor ?_ .red))
    · exact Rep.ne_nil (k := ⟨d, gc, q, bin d uc ul u ur⟩ :: k) h
    · exact h₁.ne_nil
    · exact Rep.ne_nil (k := k) h₂
  have hpl : (s.node p).isSome := Store.live_of_field hpc
  have hql : (s.node q).isSome := Store.live_of_field hqc
  have hul : (s.node u).isSome := Store.live_of_field (linked_bin.mp hU).1
  simp only [ok_bind]
  rw [ok_getParent hzp, ok_setColor hpl, ok_setColor (by simpa using hul),
    ok_getParent (by simpa using hzp), ok_getParent (by simpa using hpp),
    ok_setColor (by simpa [top] using hql), ok_getParent (by simpa using hzp),
    ok_getParent (by simpa using hpp)]
  exact hQ _ h₃ hm

/-- **One iteration of the repair loop** is one `insertStep`. -/
theorem ok_insertFixupBody {f g : Frame Nat} {z : RBTree Nat}
    (h : Rep s (plug (f :: g :: k) z)) (hf : f.color = .red) (hz : z ≠ .nil)
    {Q : Nat → State → Prop}
    (hQ : ∀ k' z' s', insertStep (f :: g :: k) z = some (k', z') → Rep s' (plug k' z') →
      Moved s s' → Q (ptr s.desc.nil z') s') :
    Ok (insertFixupBody g.side (ptr s.desc.nil z)) s Q := by
  obtain ⟨e, fc, p, S⟩ := f
  obtain ⟨d, gc, q, U⟩ := g
  dsimp only at hf ⊢
  subst hf
  have hzp : parentAt s (ptr s.desc.nil z) = some p := h.parent_focus hz
  obtain ⟨hpc, hpz, hpS, hpp, hS, hqc, hqp, hqU, hqq, hU, hk⟩ := h.ctx
  dsimp only at hpc hpz hpS hpp hS hqc hqp hqU hqq hU hk
  have huc : colorAt s (ptr s.desc.nil U) = some U.color := colorAt_ptr hU h.nil_black
  unfold insertFixupBody
  simp only [ok_bind]
  rw [ok_getParent hzp, ok_getParent hpp, top, ok_getChild hqU, ok_getColor huc]
  by_cases huncle : U.color = .red
  · -- red uncle: recolour the parent, the uncle and the grandparent
    obtain ⟨uc, ul, u, ur, rfl⟩ := exists_bin d (ne_nil_of_color huncle)
    have hstep : insertStep (⟨e, .red, p, S⟩ :: ⟨d, gc, q, bin d uc ul u ur⟩ :: k) z
        = some (k, bin d .red (bin e .black z p S) q (bin d .black ul u ur)) := by
      rw [color_bin] at huncle
      simp [insertStep, huncle]
    rw [if_pos huncle, ptr_bin]
    refine ok_insertRecolor h hz (fun s' hs' hm => ?_)
    have := hQ k _ s' hstep hs' hm
    rwa [ptr_bin] at this
  · rw [if_neg huncle]
    have hub : U.color = .black := color_ne_red huncle
    rw [ok_bind, ok_getParent hzp]
    by_cases hside : e = d
    · -- outer grandchild: `z` is not the inner child of its parent
      subst hside
      have hzS : ptr s.desc.nil z ≠ ptr s.desc.nil S := by
        intro heq
        have hsep := h.sep
        have hzm : ptr s.desc.nil z ∈ z.toList := ptr_mem hz
        rcases ptr_eq_nil_or_mem s.desc.nil S with ⟨hn, -⟩ | hm
        · exact h.nil_sep (List.mem_append_left _ (by rw [← hn, ← heq]; exact hzm))
        · rw [List.nodup_append] at hsep
          exact hsep.2.2 _ hzm _ (by rw [heq]; simp [labels, hm]) rfl
      have hstep : insertStep (⟨e, .red, p, S⟩ :: ⟨e, gc, q, U⟩ :: k) z
          = some (⟨e, .black, p, bin e .red S q U⟩ :: k, z) := by
        simp [insertStep, hub]
      simp only [ok_bind]
      rw [ok_getChild hpS, if_neg hzS, ok_bind, ok_pure]
      exact ok_insertTurn h hz (fun s' hs' hm => hQ _ _ s' hstep hs' hm)
    · -- inner grandchild: a first rotation at the parent
      obtain rfl : e = d.flip := Side.eq_flip_of_ne hside
      obtain ⟨zc, b, a, r, rfl⟩ := exists_bin d hz
      have hstep : insertStep (⟨d.flip, .red, p, S⟩ :: ⟨d, gc, q, U⟩ :: k) (bin d zc b a r)
          = some (⟨d, .black, a, bin d .red r q U⟩ :: k, bin d .red S p b) := by
        simp [insertStep, hub]
      have h' : Rep s (plug (⟨d, gc, q, U⟩ :: k) (bin d .red S p (bin d zc b a r))) := by
        rw [← bin_flip]
        exact h
      rw [ptr_bin] at hzp hpz ⊢
      simp only [ok_bind]
      rw [ok_getChild hpz, if_pos rfl, ok_bind, ok_getParent hzp, ok_bind]
      refine ok_rotate h' (fun s₁ hs₁ hm₁ => ?_)
      rw [ok_bind, ok_pure]
      have := ok_insertTurn (X := bin d .red S p b) hs₁ (by simp) (Q := Q)
        (fun s' hs' hm => ?_)
      · rwa [ptr_bin] at this
      · have := hQ _ _ s' hstep hs' (hm₁.trans hm)
        rwa [ptr_bin] at this ⊢

/-- The node on the other side is not the node on this side. -/
theorem Rep.label_ne_sib {f g : Frame Nat} {t : RBTree Nat}
    (h : Rep s (plug (f :: g :: k) t)) : f.label ≠ ptr s.desc.nil g.sib := by
  intro heq
  rcases ptr_eq_nil_or_mem s.desc.nil g.sib with ⟨hn, -⟩ | hm
  · exact h.nil_sep (by rw [← hn, ← heq]; simp [labels])
  · have hsep := (List.nodup_append.mp h.sep).2.1
    rw [labels, List.nodup_cons] at hsep
    exact hsep.1 (by rw [heq]; simp [labels, hm])

/-- The invariant of the loop of `rbtree_insert_fixup`, entered in `s₀` with the nodes `L`: the
zipper `i` is in memory, `z` points to its tree, and only links and colours have changed. -/
structure InsertLoop (s₀ : State) (L : List Nat) (i : Ctx Nat × RBTree Nat) (z : Nat) (s : State) :
    Prop where
  rep : Rep s (plug i.1 i.2)
  inv : InsertInv i.1 i.2
  ptr_eq : z = ptr s.desc.nil i.2
  toList : (plug i.1 i.2).toList = L
  moved : Moved s₀ s

theorem ok_insertFixupStep {s₀ : State} {L : List Nat} {t : RBTree Nat} {z : Nat}
    (h : InsertLoop s₀ L (k, t) z s) {Q : Nat ⊕ Unit → State → Prop}
    (hnext : ∀ i' z' s', InsertLoop s₀ L i' z' s' → i'.1.length < k.length → Q (.inl z') s')
    (hend : parentColor k = .black → Q (.inr ()) s) : Ok (insertFixupStep z) s Q := by
  obtain ⟨hrep, hinv, rfl, hlist, hm⟩ := h
  dsimp only at hrep hinv hlist ⊢
  have ht : t ≠ .nil := by
    obtain ⟨n, -, -, hc⟩ := hinv
    exact ne_nil_of_color hc
  have hzp := hrep.parent_focus ht
  have htc := colorAt_top hrep.ctx hrep.nil_black
  unfold insertFixupStep
  rw [ok_bind, ok_getParent hzp, ok_bind, ok_getColor htc]
  cases hpc : parentColor k with
  | black =>
      rw [if_neg (by decide)]
      exact (ok_pure _ _ _).mpr (hend hpc)
  | red =>
      -- another iteration: the parent is red, so there are a parent and a grandparent
      cases k with
      | nil => cases hpc
      | cons f k =>
          obtain ⟨g, k, rfl, -⟩ := hinv.grandparent hpc
          have hne := hrep.label_ne_sib
          obtain ⟨-, -, -, hpp, -, -, hqf, hqs, -, -, -⟩ := hrep.ctx
          have hbody : ∀ d, g.side = d → Ok (do return .inl (← insertFixupBody d
              (ptr s.desc.nil t)) : Rb (Nat ⊕ Unit)) s Q := by
            rintro d rfl
            rw [ok_bind]
            refine ok_insertFixupBody hrep hpc ht (fun k' t' s' hstep hs' hm' => ?_)
            refine (ok_pure _ _ _).mpr (hnext (k', t') _ s' ⟨hs', insertStep_inv hinv hstep, ?_,
              (insertStep_toList hstep).trans hlist, hm.trans hm'⟩ (insertStep_lt hstep))
            rw [hm'.nil]
          have hzf : parentAt s (ptr s.desc.nil t) = some f.label := hzp
          have hfg : parentAt s f.label = some g.label := hpp
          rw [if_pos rfl]
          simp only [ok_bind, ok_getParent hzf, ok_getParent hfg]
          cases hside : g.side with
          | left =>
              rw [hside] at hqf
              rw [ok_getChild hqf, if_pos rfl]
              exact hbody .left hside
          | right =>
              rw [hside] at hqs
              rw [ok_getChild (d := .left) hqs, if_neg hne]
              exact hbody .right hside

/-- **The repair loop** of `rbtree_insert_fixup`: started at a place where the trouble of an
insertion is, it ends, and the tree in memory is a red-black tree with the same nodes in the same
order. -/
theorem ok_rbtreeInsertFixup {z : RBTree Nat} (h : Rep s (plug k z))
    (hinv : InsertInv k z) (hbound : (plug k z).toList.length ≤ s.next) {Q : Unit → State → Prop}
    (hQ : ∀ s' T, Rep s' T → T.IsRedBlack → T.toList = (plug k z).toList → Moved s s' → Q () s') :
    Ok (rbtreeInsertFixup (ptr s.desc.nil z)) s Q := by
  unfold rbtreeInsertFixup
  rw [ok_bind]
  refine Ok.whileLoop (InsertLoop s (plug k z).toList) (fun i => i.1.length) _ ?_ (i := (k, z))
    ((length_le_toList_plug k z).trans hbound) ⟨h, hinv, rfl, rfl, Moved.refl s⟩
  rintro ⟨k', t⟩ a s₁ hloop
  refine ok_insertFixupStep hloop (fun i' z' s' hi' hlt => ⟨i', hi', hlt⟩) (fun hb => ?_)
  -- the loop is left: colour the root
  obtain ⟨hrep, hinv', -, hlist, hm⟩ := hloop
  dsimp only at hrep hinv' hlist
  have hne : plug k' t ≠ .nil := by
    intro hnil
    obtain ⟨n, hk', -, hc⟩ := hinv'
    cases k' with
    | nil => rw [plug_nil] at hnil; rw [hnil] at hc; cases hc
    | cons f k' =>
        have hl := length_le_toList_plug (f :: k') t
        rw [hnil] at hl
        simp [toList] at hl
  have hfin := hinv'.finish hb
  obtain ⟨c, l, a, r, hT⟩ := exists_bin .left hne
  rw [hT] at hrep hfin hlist
  rw [setColor_bin] at hfin
  have hroot : s₁.desc.root = a := by rw [hrep.root, ptr_bin]
  have hrep' : Rep s₁ (plug [] (bin .left c l a r)) := hrep
  have hal : (s₁.node a).isSome := by
    have := putColor_ptr_live hrep'
    rwa [ptr_bin] at this
  rw [ok_bind, ok_getRoot, hroot, ok_setColor hal]
  refine hQ _ _ (hrep'.recolor .black) hfin ?_ (hm.trans (moved_putColor hrep'.ne_nil .black))
  rw [← hlist]
  rfl

end KvStore.Rbtree
