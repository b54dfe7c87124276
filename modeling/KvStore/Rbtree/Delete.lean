import KvStore.Lib.RedBlackRepair
import KvStore.Rbtree.Rotate

set_option autoImplicit false

/-! # `rbtree_delete_fixup` on trees in memory

One iteration of the loop of `rbtree_delete_fixup` does to the tree in memory what `deleteStep`
does to the tree (`ok_deleteFixupBody`), so the whole loop leaves a red-black tree with the same
nodes in the same order (`ok_rbtreeDeleteFixup`). The tree `x` the loop works at may be empty;
its parent is then found through the `parent` field of the sentinel, which is why a position is
described by `Focus` here.
-/

namespace KvStore.Rbtree

open KvStore.Lib KvStore.Lib.RBTree Store

/-! ## Positions at which the tree may be empty -/

/-- The tree is in memory, and the pointer to its part `x` leads to a node (perhaps the sentinel)
whose `parent` field is right. -/
structure Focus (s : State) (k : Ctx Nat) (x : RBTree Nat) : Prop where
  rep : Rep s (plug k x)
  parent : parentAt s (ptr s.desc.nil x) = some (top s.desc.nil k)

variable {k : Ctx Nat} {s : State} {x : RBTree Nat} {Q : Nat → State → Prop} {f : Frame Nat}

theorem Rep.toFocus (h : Rep s (plug k x)) (hx : x ≠ .nil) : Focus s k x := ⟨h, h.parent_focus hx⟩

/-- Moving pointers around a position does not touch its `parent` field when the parent stays. -/
theorem Focus.of_moved {s' : State} {k' : Ctx Nat} (h : Focus s k x)
    (h' : Rep s' (plug k' x)) (hm : Moved s s') (htop : top s.desc.nil k' = top s.desc.nil k) :
    Focus s' k' x := by
  by_cases hx : x = .nil
  · subst hx
    refine ⟨h', ?_⟩
    have hp := h.parent
    rw [hm.nil, htop, ← hp]
    exact field_congr hm.nil_node _
  · exact h'.toFocus hx

/-- Under a parent the pointer to a part of the tree is not the pointer to its sibling. -/
theorem Rep.ptr_ne_sib (h : Rep s (plug (f :: k) x)) (hs : f.sib ≠ .nil) :
    ptr s.desc.nil x ≠ ptr s.desc.nil f.sib := by
  intro heq
  have hsm : ptr s.desc.nil f.sib ∈ labels (f :: k) := by
    simp [labels, ptr_mem hs]
  rcases ptr_eq_nil_or_mem s.desc.nil x with ⟨hn, -⟩ | hm
  · exact h.nil_sep (List.mem_append_right _ (by rw [← hn, heq]; exact hsm))
  · exact (List.nodup_append.mp h.sep).2.2 _ hm _ hsm heq

/-- A part of the tree below a parent is not the whole tree. -/
theorem Rep.ptr_ne_root (h : Rep s (plug (f :: k) x)) : ptr s.desc.nil x ≠ s.desc.root := by
  have hroot : ∀ (k : Ctx Nat) (f : Frame Nat) (t : RBTree Nat),
      ptr s.desc.nil (plug (f :: k) t) ∈ labels (f :: k) := by
    intro k
    induction k with
    | nil =>
        intro f t
        rw [plug_cons, plug_nil, ptr_bin]
        simp [labels]
    | cons g k ih =>
        intro f t
        have := ih g (f.fill t)
        rw [labels]
        exact List.mem_cons_of_mem _ (List.mem_append_right _ this)
  intro heq
  have hm := hroot k f x
  rw [← h.root, ← heq] at hm
  rcases ptr_eq_nil_or_mem s.desc.nil x with ⟨hn, -⟩ | hmem
  · exact h.nil_sep (List.mem_append_right _ (by rw [hn] at hm; exact hm))
  · exact (List.nodup_append.mp h.sep).2.2 _ hmem _ hm rfl

/-! ## The parts of an iteration -/

/-- The test on the children of the sibling. -/
theorem ok_bothBlack {par : Nat} {d : Side} {c : Color} {N F : RBTree Nat} {w : Nat}
    (h : Linked s par (bin d c N w F)) (hb : colorAt s s.desc.nil = some .black)
    (Q : Bool → State → Prop) :
    Ok (bothBlack w) s Q ↔ Q (decide (N.color = .black ∧ F.color = .black)) s := by
  obtain ⟨-, hN, hF, -, hNl, hFl⟩ := linked_bin.mp h
  have hNc := colorAt_ptr hNl hb
  have hFc := colorAt_ptr hFl hb
  unfold bothBlack
  cases d with
  | left =>
      simp only [ok_bind]
      rw [ok_getChild hN, ok_getColor hNc]
      by_cases hc : N.color = .black
      · rw [if_pos hc, ok_bind, ok_getChild (d := .right) hF, ok_bind, ok_getColor hFc, ok_pure]
        simp [hc]
      · rw [if_neg hc, ok_pure]
        simp [hc]
  | right =>
      simp only [ok_bind]
      rw [ok_getChild (d := .left) hF, ok_getColor hFc]
      by_cases hc : F.color = .black
      · rw [if_pos hc, ok_bind, ok_getChild (d := .right) hN, ok_bind, ok_getColor hNc, ok_pure]
        simp [hc]
      · rw [if_neg hc, ok_pure]
        simp [hc]

/-- **Finding a black sibling** is `deleteTurn`. -/
theorem ok_deleteFixupSibling (h : Focus s (f :: k) x) (hs : f.sib ≠ .nil)
    (hQ : ∀ s', Focus s' ((deleteTurn f k).1 :: (deleteTurn f k).2) x → Moved s s' →
      Q (ptr s.desc.nil (deleteTurn f k).1.sib) s') :
    Ok (deleteFixupSibling f.side (ptr s.desc.nil x)) s Q := by
  obtain ⟨d, pc, p, W⟩ := f
  dsimp only at hs ⊢
  obtain ⟨wc, N, w, F, rfl⟩ := exists_bin d hs
  have hxp : parentAt s (ptr s.desc.nil x) = some p := h.parent
  obtain ⟨hpc, hpx, hpw, -, hW, -⟩ := h.rep.ctx
  dsimp only at hpc hpx hpw hW
  rw [ptr_bin] at hpw
  have hwc : colorAt s w = some wc := (linked_bin.mp hW).1
  unfold deleteFixupSibling
  simp only [ok_bind]
  rw [ok_getParent hxp, ok_getChild hpw, ok_getColor hwc]
  cases wc with
  | black =>
      have hturn : deleteTurn
          ⟨d, pc, p, bin d .black N w F⟩ k = (⟨d, pc, p, bin d .black N w F⟩, k) := by
        simp [deleteTurn]
      rw [hturn] at hQ
      rw [if_neg (by decide), ok_pure]
      have := hQ s h (Moved.refl s)
      rwa [ptr_bin] at this
  | red =>
      have hturn : deleteTurn ⟨d, pc, p, bin d .red N w F⟩ k
          = (⟨d, .red, p, N⟩, ⟨d, .black, w, F⟩ :: k) := by
        simp [deleteTurn]
      rw [hturn] at hQ
      have hrep := h.rep
      rw [← plug_flip] at hrep
      have h₁ := hrep.recolor .black
      rw [plug_flip] at h₁
      have h₂ : Rep _ (plug k (bin d .red x p (bin d .black N w F))) := Rep.recolor (k := k) h₁ .red
      have hm₂ : Moved s (putColor (putColor s w .black) p .red) :=
        (moved_putColor hrep.ne_nil .black).trans (moved_putColor (Rep.ne_nil (k := k) h₁) .red)
      rw [if_pos rfl]
      simp only [ok_bind]
      rw [ok_setColor (live_of_field hwc), ok_getParent (by simpa using hxp),
        ok_setColor (by simpa using live_of_field hpc), ok_getParent (by simpa using hxp)]
      refine ok_rotate h₂ (fun s' hs' hm' => ?_)
      have hm := hm₂.trans hm'
      have hfoc : Focus s' (⟨d, .red, p, N⟩ :: ⟨d, .black, w, F⟩ :: k) x := h.of_moved hs' hm rfl
      obtain ⟨-, -, hpN, -⟩ := hfoc.rep.ctx
      have hxp' : parentAt s' (ptr s.desc.nil x) = some p := by
        rw [← hm.nil]
        exact hfoc.parent
      rw [ok_getParent hxp', ok_getChild hpN, hm.nil]
      exact hQ s' hfoc hm

/-- A red near child `y` of the sibling is rotated above it, when the far child is black. -/
theorem ok_raiseNephew {d : Side} {pc : Color} {p w y : Nat} {a b F : RBTree Nat}
    (h : Focus s (⟨d, pc, p, bin d .black (bin d .red a y b) w F⟩ :: k) x) {rest : Nat → Rb Nat}
    (hrest : ∀ s', Focus s' (⟨d, pc, p, bin d .black a y (bin d .red b w F)⟩ :: k) x → Moved s s' →
      Ok (rest y) s' Q) :
    Ok (do
      setColor (← getChild d w) .black
      setColor w .red
      rotate d.flip w
      rest (← getChild d.flip (← getParent (ptr s.desc.nil x)))) s Q := by
  obtain ⟨-, -, -, -, hW, -⟩ := h.rep.ctx
  dsimp only at hW
  obtain ⟨hwc, hwN, -, -, hN, -⟩ := linked_bin.mp hW
  rw [ptr_bin] at hwN
  have hyc : colorAt s y = some .red := (linked_bin.mp hN).1
  -- the two colourings, seen from the coloured node each time
  have hrep := h.rep
  rw [← plug_flip] at hrep
  have hy : Rep s (plug (⟨d, .black, w, F⟩ :: ⟨d.flip, pc, p, x⟩ :: k) (bin d .red a y b)) := hrep
  have h₁ : Rep (putColor s y .black)
      (plug (⟨d.flip, pc, p, x⟩ :: k) (bin d .black (bin d .black a y b) w F)) := hy.recolor .black
  have h₂ := h₁.recolor .red
  rw [← bin_flip d .red, ← bin_flip d .black b] at h₂
  have hm₂ := (moved_putColor hy.ne_nil .black).trans (moved_putColor h₁.ne_nil .red)
  simp only [ok_bind]
  rw [ok_getChild hwN, ok_setColor (live_of_field hyc),
    ok_setColor (by simpa using live_of_field hwc)]
  refine ok_rotate h₂ (fun s' hs' hm' => ?_)
  rw [bin_flip, bin_flip, plug_flip] at hs'
  have hm := hm₂.trans hm'
  have hfoc := h.of_moved hs' hm rfl
  obtain ⟨-, -, hpy, -⟩ := hs'.ctx
  dsimp only at hpy
  rw [ptr_bin] at hpy
  have hxp : parentAt s' (ptr s.desc.nil x) = some p := by
    rw [← hm.nil]
    exact hfoc.parent
  rw [ok_getParent hxp, ok_getChild hpy]
  exact hrest s' hfoc hm

/-- The end of the body of `rbtree_delete_fixup` when the far child of the sibling is not black. -/
theorem ok_deleteFinish {d : Side} {pc c : Color} {p w : Nat} {N F : RBTree Nat}
    (h : Focus s (⟨d, pc, p, bin d c N w F⟩ :: k) x) (hF : F ≠ .nil)
    (hQ : ∀ s', Rep s' (plug k (bin d pc (bin d .black x p N) w (F.setColor .black))) →
      Moved s s' → Q s'.desc.root s') :
    Ok (do
      setColor w (← getColor (← getParent (ptr s.desc.nil x)))
      setColor (← getParent (ptr s.desc.nil x)) .black
      setColor (← getChild d.flip w) .black
      rotate d (← getParent (ptr s.desc.nil x))
      getRoot : Rb Nat) s Q := by
  obtain ⟨fc, Fl, v, Fr, rfl⟩ := exists_bin d hF
  have hxp : parentAt s (ptr s.desc.nil x) = some p := h.parent
  obtain ⟨hpc, hpx, hpw, -, hW, -⟩ := h.rep.ctx
  dsimp only at hpc hpx hpw hW
  obtain ⟨hwc, hwN, hwF, -, -, hFl⟩ := linked_bin.mp hW
  rw [ptr_bin] at hwF
  have hvc : colorAt s v = some fc := (linked_bin.mp hFl).1
  have hne : p ≠ w := by
    rintro rfl
    have := (List.nodup_append.mp h.rep.sep).2.1
    rw [labels, List.nodup_cons] at this
    exact this.1 (List.mem_append_left _ (mem_toList_bin.mpr (Or.inr (Or.inl rfl))))
  -- the three colourings, seen from the coloured node each time
  have hrep := h.rep
  rw [← plug_flip] at hrep
  have h₁ := hrep.recolor pc
  rw [plug_flip] at h₁
  have h₂ : Rep _ (plug k (bin d .black x p (bin d pc N w (bin d fc Fl v Fr)))) :=
    Rep.recolor (k := k) h₁ .black
  have h₂' : Rep (putColor (putColor s w pc) p .black)
      (plug (⟨d.flip, pc, w, N⟩ :: ⟨d.flip, .black, p, x⟩ :: k) (bin d fc Fl v Fr)) := by
    rw [plug_flip]
    show Rep _ (plug (⟨d.flip, .black, p, x⟩ :: k) _)
    rw [plug_flip]
    exact h₂
  have h₃ := h₂'.recolor .black
  rw [plug_flip] at h₃
  have h₃' : Rep _ (plug (⟨d.flip, .black, p, x⟩ :: k) (bin d pc N w (bin d .black Fl v Fr))) := h₃
  rw [plug_flip] at h₃'
  have hm : Moved s (putColor (putColor (putColor s w pc) p .black) v .black) :=
    (moved_putColor hrep.ne_nil pc).trans ((moved_putColor (Rep.ne_nil (k := k) h₁) .black).trans
      (moved_putColor h₂'.ne_nil .black))
  simp only [ok_bind]
  rw [ok_getParent hxp, ok_getColor hpc, ok_setColor (live_of_field hwc),
    ok_getParent (by simpa using hxp), ok_setColor (by simpa using live_of_field hpc),
    ok_getChild (by simpa using hwF), ok_setColor (by simpa using live_of_field hvc),
    ok_getParent (by simpa using hxp)]
  refine ok_rotate (k := k) h₃' (fun s' hs' hm' => ?_)
  rw [ok_getRoot]
  refine hQ s' ?_ (hm.trans hm')
  rw [setColor_bin]
  exact hs'

/-- **One iteration of the repair loop** is one `deleteStep`. -/
theorem ok_deleteFixupBody
    (h : Focus s (f :: k) x) (hinv : DeleteInv (f :: k) x) (hxb : x.color = .black)
    (hQ : ∀ k' x' s', deleteStep (f :: k) x = some (k', x') → Focus s' k' x' → Moved s s' →
      Q (ptr s.desc.nil x') s') :
    Ok (deleteFixupBody f.side (ptr s.desc.nil x)) s Q := by
  have hside : (deleteTurn f k).1.side = f.side := by
    unfold deleteTurn
    split <;> rfl
  obtain ⟨hinv', hsb⟩ := deleteTurn_inv hinv
  have hstep : deleteStep (f :: k) x = deleteUse (deleteTurn f k).1 (deleteTurn f k).2 x := by
    rw [deleteStep, if_neg (by rw [hxb]; decide)]
  rw [hstep] at hQ
  unfold deleteFixupBody
  rw [ok_bind]
  refine ok_deleteFixupSibling h hinv.sib_ne_nil (fun s₁ hfoc hm₁ => ?_)
  rw [← hside]
  rw [← hm₁.nil] at hQ ⊢
  have hsn := hinv'.sib_ne_nil
  clear hinv' hstep hside
  generalize (deleteTurn f k).1 = f' at *
  generalize (deleteTurn f k).2 = k' at *
  obtain ⟨d, pc, p, W⟩ := f'
  dsimp only at hsb hsn ⊢
  obtain ⟨wc, N, w, F, rfl⟩ := exists_bin d hsn
  rw [color_bin] at hsb
  subst hsb
  have hxp : parentAt s₁ (ptr s₁.desc.nil x) = some p := hfoc.parent
  obtain ⟨hpc, hpx, hpw, -, hW, -⟩ := hfoc.rep.ctx
  dsimp only at hpc hpx hpw hW
  obtain ⟨hwc, hwN, hwF, -, hNl, hFl⟩ := linked_bin.mp hW
  have hNc := colorAt_ptr hNl hfoc.rep.nil_black
  have hFc := colorAt_ptr hFl hfoc.rep.nil_black
  rw [ptr_bin] at hpw ⊢
  rw [ok_bind, ok_bothBlack hW hfoc.rep.nil_black]
  have hrep := hfoc.rep
  rw [← plug_flip] at hrep
  -- the last two cases end at the root
  have hend : ∀ s' T, deleteUse ⟨d, pc, p, bin d .black N w F⟩ k' x = some ([], T) → Rep s' T →
      T ≠ .nil → Moved s₁ s' → Q s'.desc.root s' := by
    intro s' T huse hT hne hm'
    have := hQ [] T s' huse (Rep.toFocus (k := []) hT hne) (hm₁.trans hm')
    rwa [← hm'.nil, ← hT.root] at this
  by_cases hboth : N.color = .black ∧ F.color = .black
  · -- both nephews black: the sibling turns red and the trouble moves to the parent
    have huse : deleteUse ⟨d, pc, p, bin d .black N w F⟩ k' x
        = some (k', bin d pc x p (bin d .red N w F)) := by
      simp [deleteUse, hboth]
    have h₁ := hrep.recolor .red
    rw [plug_flip] at h₁
    have h₁' : Rep (putColor s₁ w .red) (plug k' (bin d pc x p (bin d .red N w F))) := h₁
    rw [if_pos (by simpa using hboth), ok_bind, ok_setColor (live_of_field hwc),
      ok_getParent (by simpa using hxp)]
    have := hQ _ _ _ huse (h₁'.toFocus (by simp)) (hm₁.trans (moved_putColor hrep.ne_nil .red))
    rwa [ptr_bin] at this
  · rw [if_neg (by simpa using hboth)]
    simp only [ok_bind]
    rw [ok_getChild hwF, ok_getColor hFc]
    by_cases hFb : F.color = .black
    · -- the near nephew is red and comes above the sibling first
      have hNr : N.color = .red := by
        cases hc : N.color with
        | red => rfl
        | black => exact absurd ⟨hc, hFb⟩ hboth
      obtain ⟨nc, a, y, b, rfl⟩ := exists_bin d (ne_nil_of_color hNr)
      rw [color_bin] at hNr
      subst hNr
      have huse : deleteUse ⟨d, pc, p, bin d .black (bin d .red a y b) w F⟩ k' x
          = some ([], plug k' (bin d pc (bin d .black x p a) y (bin d .black b w F))) := by
        simp [deleteUse, hFb]
      rw [if_pos hFb]
      refine ok_raiseNephew hfoc (fun s₂ hfoc₂ hm₂ => ?_)
      rw [← hm₂.nil]
      refine ok_deleteFinish hfoc₂ (by simp) (fun s' hs' hm' => ?_)
      rw [setColor_bin] at hs'
      refine hend s' _ huse hs' ?_ (hm₂.trans hm')
      exact plug_ne_nil k' (by simp)
    · -- the far nephew is red
      have huse : deleteUse ⟨d, pc, p, bin d .black N w F⟩ k' x
          = some ([], plug k' (bin d pc (bin d .black x p N) w (F.setColor .black))) := by
        simp [deleteUse, hFb]
      have hFn : F ≠ .nil := by
        rintro rfl
        exact hFb rfl
      rw [if_neg hFb]
      have hfin := ok_deleteFinish hfoc hFn (Q := Q) (fun s' hs' hm' => ?_)
      · rw [ok_bind, ok_pure]
        exact hfin
      · refine hend s' _ huse hs' ?_ hm'
        exact plug_ne_nil k' (by simp)

/-! ## The loop -/

/-- The invariant of the loop of `rbtree_delete_fixup`, entered in `s₀` with the nodes `L`. -/
structure DeleteLoop (s₀ : State) (L : List Nat) (i : Ctx Nat × RBTree Nat) (x : Nat) (s : State) :
    Prop where
  focus : Focus s i.1 i.2
  inv : DeleteInv i.1 i.2
  ptr_eq : x = ptr s.desc.nil i.2
  toList : (plug i.1 i.2).toList = L
  moved : Moved s₀ s

theorem ok_deleteFixupStep {s₀ : State} {L : List Nat} {t : RBTree Nat} {x : Nat}
    (h : DeleteLoop s₀ L (k, t) x s) {Q : Nat ⊕ Nat → State → Prop}
    (hnext : ∀ i' x' s', DeleteLoop s₀ L i' x' s' →
      deleteMeasure i'.1 i'.2 < deleteMeasure k t → Q (.inl x') s')
    (hend : k = [] ∨ t.color = .red → Q (.inr x) s) : Ok (deleteFixupStep x) s Q := by
  obtain ⟨hfoc, hinv, rfl, hlist, hm⟩ := h
  dsimp only at hfoc hinv hlist hend ⊢
  unfold deleteFixupStep
  rw [ok_bind, ok_getRoot]
  cases k with
  | nil =>
      have hroot : s.desc.root = ptr s.desc.nil t := hfoc.rep.root
      rw [if_neg (by simp [hroot]), ok_pure]
      exact hend (Or.inl rfl)
  | cons f k =>
      rw [if_pos hfoc.rep.ptr_ne_root, ok_bind, ok_getColor hfoc.rep.color_focus]
      cases hc : t.color with
      | red =>
          rw [if_neg (by decide), ok_pure]
          exact hend (Or.inr hc)
      | black =>
          have hne := hfoc.rep.ptr_ne_sib hinv.sib_ne_nil
          have hxp : parentAt s (ptr s.desc.nil t) = some f.label := hfoc.parent
          obtain ⟨-, hpx, hps, -⟩ := hfoc.rep.ctx
          have hbody : ∀ d, f.side = d → Ok (do return .inl (← deleteFixupBody d
              (ptr s.desc.nil t)) : Rb (Nat ⊕ Nat)) s Q := by
            rintro d rfl
            rw [ok_bind]
            refine ok_deleteFixupBody hfoc hinv hc (fun k' t' s' hstep hs' hm' => ?_)
            refine (ok_pure _ _ _).mpr (hnext (k', t') _ s' ⟨hs', deleteStep_inv hinv hstep, ?_,
              (deleteStep_toList hstep).trans hlist, hm.trans hm'⟩ (deleteStep_lt hstep))
            rw [hm'.nil]
          rw [if_pos rfl, ok_bind, ok_getParent hxp, ok_bind]
          cases hside : f.side with
          | left =>
              rw [hside] at hpx
              rw [ok_getChild hpx, if_pos rfl]
              exact hbody .left hside
          | right =>
              rw [hside] at hps
              rw [ok_getChild (d := .left) hps, if_neg hne]
              exact hbody .right hside

/-- Colouring the tree at a position black; an empty tree is the sentinel, black already. -/
theorem Rep.setColor_black {t : RBTree Nat} (h : Rep s (plug k t)) :
    Rep (putColor s (ptr s.desc.nil t) .black) (plug k (t.setColor .black)) := by
  by_cases ht : t = .nil
  · subst ht
    have hout : ∀ b ∈ (plug k nil).toList, (putColor s s.desc.nil .black).node b = s.node b := by
      intro b hb
      refine putColor_node_ne ?_
      rintro rfl
      exact h.nil_notMem hb
    exact ⟨h.root, h.linked.congr hout rfl, h.nodup, h.nil_notMem,
      colorAt_putColor_self h.live_nil⟩
  · obtain ⟨c, l, a, r, rfl⟩ := exists_bin .left ht
    rw [ptr_bin, setColor_bin]
    exact h.recolor .black

/-- **The repair loop** of `rbtree_delete_fixup`: started at a place where the trouble of a deletion
is, it ends, and the tree in memory is a red-black tree with the same nodes in the same order. -/
theorem ok_rbtreeDeleteFixup (h : Focus s k x)
    (hinv : DeleteInv k x) (hbound : (plug k x).toList.length ≤ s.next) {Q : Unit → State → Prop}
    (hQ : ∀ s' T, Rep s' T → T.IsRedBlack → T.toList = (plug k x).toList → SameData s s' →
      Q () s') :
    Ok (rbtreeDeleteFixup (ptr s.desc.nil x)) s Q := by
  have hμ : deleteMeasure k x ≤ s.next := by
    have := length_le_toList_plug k x
    unfold deleteMeasure
    split_ifs <;> omega
  unfold rbtreeDeleteFixup
  rw [ok_bind]
  refine Ok.whileLoop (DeleteLoop s (plug k x).toList) (fun i => deleteMeasure i.1 i.2) _ ?_
    (i := (k, x)) hμ ⟨h, hinv, rfl, rfl, Moved.refl s⟩
  rintro ⟨k', t⟩ a s₁ hloop
  refine ok_deleteFixupStep hloop (fun i' z' s' hi' hlt => ⟨i', hi', hlt⟩) (fun hend => ?_)
  obtain ⟨hfoc, hinv', rfl, hlist, hm⟩ := hloop
  dsimp only at hfoc hinv' hlist ⊢
  rw [ok_setColor (putColor_ptr_live hfoc.rep)]
  refine hQ _ _ hfoc.rep.setColor_black (hinv'.finish hend) ?_
    (hm.toSameData.trans (sameData_putColor ..))
  rw [← hlist]
  exact toList_plug_congr k' (toList_setColor ..)

end KvStore.Rbtree
