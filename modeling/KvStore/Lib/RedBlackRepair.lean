import KvStore.Lib.RedBlack

set_option autoImplicit false

/-! # Bottom-up repair of red-black trees

The two repairs of red-black trees that work from a position upwards: after a red leaf has been
hung into a tree (`insertStep`), and after a black node has been spliced out (`deleteStep`). Each
is a loop on zippers, and the functions here are one iteration of it, written for both sides at
once.

* `insertStep_inv`, `deleteStep_inv`: an iteration keeps the repair's invariant.
* `insertStep_lt`, `deleteStep_lt`: an iteration makes the repair's measure smaller.
* `insertStep_toList`, `deleteStep_toList`: an iteration keeps the labels and their order.
* `InsertInv.finish`, `DeleteInv.finish`: when no iteration applies, colouring one node black
  gives a red-black tree.
-/

namespace KvStore.Lib

open KvStore.Lib.RBTree

section Repair

variable {α : Type} {k : Ctx α} {f : Frame α} {x : RBTree α}

/-! ## After an insertion -/

/-- One iteration of the repair after an insertion, at a red tree `z` under a red parent `f` under
`g`. A red uncle is recoloured with the parent and the trouble moves up to `g`. Otherwise one or
two rotations bring a black node above `z` (or above the old parent, when `z` was an inner
grandchild). -/
def insertStep : Ctx α → RBTree α → Option (Ctx α × RBTree α)
  | f :: g :: k, z =>
      if f.color = .black then none
      else if g.sib.color = .red then
        some (k, bin g.side .red (bin f.side .black z f.label f.sib) g.label
          (g.sib.setColor .black))
      else if f.side = g.side then
        some (⟨g.side, .black, f.label, bin g.side .red f.sib g.label g.sib⟩ :: k, z)
      else
        match view g.side z with
        | none => none
        | some (_, b, a, c) =>
            some (⟨g.side, .black, a, bin g.side .red c g.label g.sib⟩ :: k,
              bin g.side .red f.sib f.label b)
  | _, _ => none

/-- The trouble is at one place: a red tree below a parent that may be red. -/
def InsertInv (k : Ctx α) (z : RBTree α) : Prop :=
  ∃ n, CtxOk k n ∧ z.Good n ∧ z.color = .red

/-- Above a red parent there is a black grandparent. -/
theorem InsertInv.grandparent {z : RBTree α} (h : InsertInv (f :: k) z) (hf : f.color = .red) :
    ∃ g k', k = g :: k' ∧ g.color = .black := by
  obtain ⟨n, ⟨-, hc, -⟩, -, -⟩ := h
  exact (hc hf).2

theorem insertStep_inv {k' : Ctx α} {z z' : RBTree α} (h : InsertInv k z)
    (hstep : insertStep k z = some (k', z')) : InsertInv k' z' := by
  cases k with
  | nil => cases hstep
  | cons f k =>
      cases k with
      | nil => cases hstep
      | cons g k =>
          obtain ⟨n, ⟨hS, hf, hU, hg, hk⟩, hz, hzc⟩ := h
          rw [insertStep] at hstep
          split_ifs at hstep with hfb huncle hside
          · -- red uncle: the trouble moves to the grandparent, now red
            have hfr : f.color = .red := by
              cases hfc : f.color with
              | red => rfl
              | black => exact absurd hfc hfb
            obtain ⟨hSc, g', k₀, hgk, hgb⟩ := hf hfr
            obtain ⟨rfl, rfl⟩ := List.cons.inj hgk
            cases hstep
            rw [hfr] at hU hk
            rw [hgb] at hk
            exact ⟨n + 1, hk, good_red (good_black hz hS) (hU.setColor_black_of_red huncle)
              (color_bin ..) (color_setColor_black _), color_bin ..⟩
          all_goals
            -- black uncle: `g` becomes a red child of the black node that replaces it
            have hfr : f.color = .red := by
              cases hfc : f.color with
              | red => rfl
              | black => exact absurd hfc hfb
            have hUc : g.sib.color = .black := color_ne_red huncle
            obtain ⟨hSc, g', k₀, hgk, hgb⟩ := hf hfr
            obtain ⟨rfl, rfl⟩ := List.cons.inj hgk
            rw [hfr] at hU hk
            rw [hgb] at hk
          · cases hstep
            exact ⟨n, ⟨good_red hS hU hSc hUc, nofun, hk⟩, hz, hzc⟩
          · split at hstep
            · cases hstep
            · next c b a r hview =>
                rw [view_eq_some] at hview
                subst hview
                rw [color_bin] at hzc
                subst hzc
                obtain ⟨hb, hr, hbc, hrc⟩ := hz.of_red
                cases hstep
                exact ⟨n, ⟨good_red hr hU hrc hUc, nofun, hk⟩, good_red hS hb hSc hbc,
                  color_bin ..⟩

theorem insertStep_lt {k' : Ctx α} {z z' : RBTree α}
    (hstep : insertStep k z = some (k', z')) : k'.length < k.length := by
  unfold insertStep at hstep
  split at hstep
  · split_ifs at hstep
    · cases hstep; simp
    · cases hstep; simp
    · split at hstep
      · cases hstep
      · cases hstep; simp
  · cases hstep

theorem insertStep_toList {k' : Ctx α} {z z' : RBTree α}
    (hstep : insertStep k z = some (k', z')) : (plug k' z').toList = (plug k z).toList := by
  cases k with
  | nil => cases hstep
  | cons f k =>
      cases k with
      | nil => cases hstep
      | cons g k =>
          rw [insertStep] at hstep
          split_ifs at hstep with hfb huncle hside
          · cases hstep
            refine toList_plug_congr _ ?_
            unfold Frame.fill
            cases g.side <;> cases f.side <;> simp [bin, toList]
          · cases hstep
            refine toList_plug_congr k ?_
            unfold Frame.fill
            rw [hside]
            cases g.side <;> simp [bin, toList]
          · split at hstep
            · cases hstep
            · next c b a r hview =>
                rw [view_eq_some] at hview
                subst hview
                cases hstep
                refine toList_plug_congr k ?_
                unfold Frame.fill
                rw [Side.eq_flip_of_ne hside, bin_flip]
                cases g.side <;> simp [bin, toList]

/-- The repair is over: colouring the root black gives a red-black tree. -/
theorem InsertInv.finish {z : RBTree α} (h : InsertInv k z)
    (hb : parentColor k = .black) : ((plug k z).setColor .black).IsRedBlack := by
  obtain ⟨n, hk, hz, -⟩ := h
  obtain ⟨m, hm⟩ := hk.good_plug hz (fun _ => hb)
  obtain ⟨m', hm'⟩ := hm.setColor_black
  exact hm'.isRedBlack (color_setColor_black _)

/-! ## After a deletion -/

/-- Make the sibling black: a red sibling is rotated above the parent. -/
def deleteTurn (f : Frame α) (k : Ctx α) : Frame α × Ctx α :=
  match view f.side f.sib with
  | some (.red, n, w, r) => (⟨f.side, .red, f.label, n⟩, ⟨f.side, .black, w, r⟩ :: k)
  | _ => (f, k)

/-- Use a black sibling: if both of its children are black it is coloured red and the trouble
moves up; otherwise one or two rotations end the repair. -/
def deleteUse (f : Frame α) (k : Ctx α) (x : RBTree α) : Option (Ctx α × RBTree α) :=
  match view f.side f.sib with
  | none => none
  | some (_, n, w, r) =>
      if n.color = .black ∧ r.color = .black then
        some (k, bin f.side f.color x f.label (bin f.side .red n w r))
      else if r.color = .black then
        match view f.side n with
        | none => none
        | some (_, a, y, b) =>
            some ([], plug k (bin f.side f.color (bin f.side .black x f.label a) y
              (bin f.side .black b w r)))
      else
        some ([], plug k (bin f.side f.color (bin f.side .black x f.label n) w
          (r.setColor .black)))

/-- One iteration of the repair after a deletion, at a tree `x` whose black height is one less than
its place wants. -/
def deleteStep : Ctx α → RBTree α → Option (Ctx α × RBTree α)
  | [], _ => none
  | f :: k, x =>
      if x.color = .red then none
      else deleteUse (deleteTurn f k).1 (deleteTurn f k).2 x

/-- The trouble is at one place: a tree whose black height is one too small, or a red tree that
fits as soon as it is coloured black (it may have a red child). -/
def DeleteInv (k : Ctx α) (x : RBTree α) : Prop :=
  ∃ n, CtxOk k (n + 1) ∧ (x.color = .red → (x.setColor .black).Good (n + 1)) ∧
    (x.color = .black → x.Good n)

/-- A good tree that is one too low. -/
theorem DeleteInv.of_good {n : Nat} (hk : CtxOk k (n + 1)) (hx : x.Good n) : DeleteInv k x :=
  ⟨n, hk, hx.setColor_black_of_red, fun _ => hx⟩

theorem ne_nil_of_good_succ {t : RBTree α} {n : Nat} (h : t.Good (n + 1)) : t ≠ nil := by
  rintro rfl
  rw [good_nil] at h
  omega

/-- A tree that is not empty has a sibling that is a node: it is at least as high. -/
theorem DeleteInv.sib_ne_nil (h : DeleteInv (f :: k) x) : f.sib ≠ nil := by
  obtain ⟨n, ⟨hs, -, -⟩, -, -⟩ := h
  exact ne_nil_of_good_succ hs

/-- After the turn the sibling is black, and the trouble is still at `x` alone. -/
theorem deleteTurn_inv (h : DeleteInv (f :: k) x) :
    DeleteInv ((deleteTurn f k).1 :: (deleteTurn f k).2) x ∧
      (deleteTurn f k).1.sib.color = .black := by
  obtain ⟨n, ⟨hs, hf, hk⟩, hx⟩ := h
  obtain ⟨c, l, w, r, hw⟩ := exists_bin f.side (ne_nil_of_good_succ hs)
  cases c with
  | black =>
      have hturn : deleteTurn f k = (f, k) := by simp [deleteTurn, hw]
      rw [hturn]
      exact ⟨⟨n, ⟨hs, hf, hk⟩, hx⟩, by rw [hw, color_bin]⟩
  | red =>
      have hturn : deleteTurn f k
          = (⟨f.side, .red, f.label, l⟩, ⟨f.side, .black, w, r⟩ :: k) := by
        simp [deleteTurn, hw]
      have hfb : f.color = .black := by
        cases hfc : f.color with
        | black => rfl
        | red =>
            have hb := (hf hfc).1
            rw [hw, color_bin] at hb
            cases hb
      rw [hw] at hs
      obtain ⟨hl, hr, hlc, hrc⟩ := hs.of_red
      rw [hfb] at hk
      rw [hturn]
      exact ⟨⟨n, ⟨hl, fun _ => ⟨hlc, _, _, rfl, rfl⟩, hr, nofun, hk⟩, hx⟩, hlc⟩

theorem deleteUse_inv {k' : Ctx α} {x' : RBTree α}
    (h : DeleteInv (f :: k) x) (hxc : x.color = .black) (hsc : f.sib.color = .black)
    (huse : deleteUse f k x = some (k', x')) : DeleteInv k' x' := by
  obtain ⟨n, ⟨hs, hf, hk⟩, -, hxb⟩ := h
  have hx := hxb hxc
  obtain ⟨c, l, w, r, hw⟩ := exists_bin f.side (ne_nil_of_good_succ hs)
  rw [hw, color_bin] at hsc
  subst hsc
  rw [hw] at hs
  obtain ⟨m, hl, hr, hm⟩ := hs.of_black
  obtain rfl : m = n := by omega
  -- the rebuilt node stands where `f` stood, so it is red only below a black parent
  have hfill : ∀ {t a u}, t.Good (m + 1) → u.Good (m + 1) → t.color = .black →
      u.color = .black → ∃ m', (plug k (bin f.side f.color t a u)).Good m' := by
    intro t a u ht hu htc huc
    refine hk.good_plug (good_bin.mpr ⟨fun _ => ⟨htc, huc⟩, _, ht, hu, rfl⟩) (fun hc => ?_)
    rw [color_bin] at hc
    obtain ⟨-, g, k₀, rfl, hg⟩ := hf hc
    exact hg
  rw [deleteUse, hw, view_bin] at huse
  dsimp only at huse
  split_ifs at huse with hboth hrb
  · -- both nephews black: the sibling turns red, the parent is now one too low
    cases huse
    have hw' : (bin f.side .red l w r).Good m := good_red hl hr hboth.1 hboth.2
    refine ⟨m + f.color.weight, ?_, fun hc => ?_, fun hc => ?_⟩
    · rw [show m + f.color.weight + 1 = m + 1 + f.color.weight by omega]
      exact hk
    · rw [color_bin] at hc
      rw [setColor_bin, hc]
      exact good_black hx hw'
    · rw [color_bin] at hc
      rw [hc]
      exact good_black hx hw'
  · -- the near nephew is red: it comes to the top
    split at huse
    · cases huse
    · next c a y b hview =>
        rw [view_eq_some] at hview
        subst hview
        obtain rfl : c = .red := by
          cases c with
          | red => rfl
          | black => exact absurd ⟨color_bin .., hrb⟩ hboth
        obtain ⟨ha, hb, -, -⟩ := hl.of_red
        cases huse
        obtain ⟨m', hm'⟩ := hfill (a := y) (good_black (a := f.label) (d := f.side) hx ha)
          (good_black (a := w) (d := f.side) hb hr) (color_bin ..) (color_bin ..)
        exact DeleteInv.of_good trivial hm'
  · -- the far nephew is red: the sibling comes to the top
    cases huse
    have hrr : r.color = .red := by
      cases hrc : r.color with
      | red => rfl
      | black => exact absurd hrc hrb
    obtain ⟨m', hm'⟩ := hfill (a := w) (good_black (a := f.label) (d := f.side) hx hl)
      (hr.setColor_black_of_red hrr) (color_bin ..) (color_setColor_black _)
    exact DeleteInv.of_good trivial hm'

theorem deleteStep_inv {k' : Ctx α} {x' : RBTree α} (h : DeleteInv k x)
    (hstep : deleteStep k x = some (k', x')) : DeleteInv k' x' := by
  cases k with
  | nil => cases hstep
  | cons f k =>
      rw [deleteStep] at hstep
      split_ifs at hstep with hxc
      obtain ⟨hturn, hsc⟩ := deleteTurn_inv h
      exact deleteUse_inv hturn (color_ne_red hxc) hsc hstep

/-- The measure of the repair: a red tree ends it, and so does the root. -/
def deleteMeasure (k : Ctx α) (x : RBTree α) : Nat := if x.color = .red then 0 else k.length

/-- A turn makes the parent red; without one the path stays. -/
theorem deleteTurn_path (f : Frame α) (k : Ctx α) :
    (deleteTurn f k).1.color = .red ∨ (deleteTurn f k).2 = k := by
  unfold deleteTurn
  split
  · exact Or.inl rfl
  · exact Or.inr rfl

/-- Using the sibling ends at the root or at the parent, whose colour stays. -/
theorem deleteUse_path {k' : Ctx α} {x' : RBTree α}
    (huse : deleteUse f k x = some (k', x')) : k' = [] ∨ k' = k ∧ x'.color = f.color := by
  unfold deleteUse at huse
  split at huse
  · cases huse
  · split_ifs at huse
    · cases huse
      exact Or.inr ⟨rfl, color_bin ..⟩
    · split at huse
      · cases huse
      · cases huse
        exact Or.inl rfl
    · cases huse
      exact Or.inl rfl

theorem deleteStep_lt {k' : Ctx α} {x' : RBTree α}
    (hstep : deleteStep k x = some (k', x')) : deleteMeasure k' x' < deleteMeasure k x := by
  cases k with
  | nil => cases hstep
  | cons f k =>
      rw [deleteStep] at hstep
      split_ifs at hstep with hxc
      have hμ : deleteMeasure (f :: k) x = k.length + 1 := by simp [deleteMeasure, hxc]
      rw [hμ, deleteMeasure]
      rcases deleteUse_path hstep with rfl | ⟨rfl, hc⟩
      · split_ifs <;> simp
      · rw [hc]
        rcases deleteTurn_path f k with hred | hk
        · rw [if_pos hred]; omega
        · rw [hk]; split_ifs <;> omega

theorem plug_deleteTurn_toList (f : Frame α) (k : Ctx α) (x : RBTree α) :
    (plug ((deleteTurn f k).1 :: (deleteTurn f k).2) x).toList = (plug (f :: k) x).toList := by
  unfold deleteTurn
  split
  · next n w r hview =>
      rw [view_eq_some] at hview
      refine toList_plug_congr k ?_
      unfold Frame.fill
      rw [hview]
      cases f.side <;> simp [bin, toList]
  · rfl

theorem deleteUse_toList {k' : Ctx α} {x' : RBTree α} (huse : deleteUse f k x = some (k', x')) :
    (plug k' x').toList = (plug (f :: k) x).toList := by
  unfold deleteUse at huse
  split at huse
  · cases huse
  · next c n w r hview =>
      rw [view_eq_some] at hview
      split_ifs at huse with hboth hrb
      · cases huse
        refine toList_plug_congr _ ?_
        unfold Frame.fill
        rw [hview]
        cases f.side <;> simp [bin, toList]
      · split at huse
        · cases huse
        · next c' a y b hview' =>
            rw [view_eq_some] at hview'
            subst hview'
            cases huse
            refine toList_plug_congr k ?_
            unfold Frame.fill
            rw [hview]
            cases f.side <;> simp [bin, toList]
      · cases huse
        refine toList_plug_congr k ?_
        unfold Frame.fill
        rw [hview]
        cases f.side <;> simp [bin, toList]

theorem deleteStep_toList {k' : Ctx α} {x' : RBTree α}
    (hstep : deleteStep k x = some (k', x')) : (plug k' x').toList = (plug k x).toList := by
  cases k with
  | nil => cases hstep
  | cons f k =>
      rw [deleteStep] at hstep
      split_ifs at hstep with hxc
      rw [deleteUse_toList hstep, plug_deleteTurn_toList]

/-- The repair is over: colouring the tree at the position black gives a red-black tree. -/
theorem DeleteInv.finish (h : DeleteInv k x)
    (hend : k = [] ∨ x.color = .red) : (plug k (x.setColor .black)).IsRedBlack := by
  obtain ⟨n, hk, hred, hblack⟩ := h
  cases hxc : x.color with
  | red =>
      obtain ⟨m, hm⟩ := hk.good_plug (hred hxc)
        (fun hc => by rw [color_setColor_black] at hc; cases hc)
      refine hm.isRedBlack ?_
      cases k with
      | nil => exact color_setColor_black x
      | cons f k => exact hk.color_plug _ (by simp)
  | black =>
      obtain rfl : k = [] := by
        rcases hend with hk' | hc
        · exact hk'
        · rw [hxc] at hc; cases hc
      obtain ⟨m, hm⟩ := (hblack hxc).setColor_black
      exact hm.isRedBlack (color_setColor_black x)

end Repair

end KvStore.Lib
