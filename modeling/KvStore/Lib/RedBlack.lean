import Mathlib.Tactic

set_option autoImplicit false

/-! # Red-black trees and positions in them

Trees over an arbitrary label type with a colour at every node, and the red-black invariant.
Left and right are treated at once: `bin d c t a u` is the node whose child on side `d` is `t`
and whose other child is `u`.

A position in a tree is a *zipper*: the subtree there and the list of frames from it up to the
root (`Ctx`, innermost frame first). `CtxOk k n` is the red-black invariant of a tree with a hole
at `k` that wants a subtree of black height `n`: `CtxOk.good_plug` fills the hole,
`ctxOk_of_plug` splits a red-black tree at any position.
-/

namespace KvStore.Lib

inductive Color where
  | red
  | black
  deriving DecidableEq, Repr

inductive Side where
  | left
  | right
  deriving DecidableEq, Repr

def Side.flip : Side → Side
  | .left => .right
  | .right => .left

@[simp] theorem Side.flip_flip (d : Side) : d.flip.flip = d := by cases d <;> rfl

@[simp] theorem Side.flip_ne (d : Side) : d.flip ≠ d := by cases d <;> decide

@[simp] theorem Side.ne_flip (d : Side) : d ≠ d.flip := by cases d <;> decide

variable {n : Nat} {d : Side}

theorem Side.eq_flip_of_ne {e : Side} (h : d ≠ e) : d = e.flip := by
  cases d <;> cases e <;> first | rfl | exact absurd rfl h

/-- What a node of this colour adds to the black height. -/
def Color.weight : Color → Nat
  | .red => 0
  | .black => 1

inductive RBTree (α : Type) where
  | nil
  | node (c : Color) (l : RBTree α) (a : α) (r : RBTree α)
  deriving DecidableEq, Repr

namespace RBTree

variable {α : Type} {t u : RBTree α} {a : α}

/-- The colour of the root; an empty tree counts as black. -/
def color : RBTree α → Color
  | nil => .black
  | node c _ _ _ => c

/-- The labels from left to right. -/
def toList : RBTree α → List α
  | nil => []
  | node _ l a r => l.toList ++ a :: r.toList

/-- Colour the root. -/
def setColor (c : Color) : RBTree α → RBTree α
  | nil => nil
  | node _ l a r => node c l a r

/-- The node with `t` on side `d` and `u` on the other side. -/
def bin (d : Side) (c : Color) (t : RBTree α) (a : α) (u : RBTree α) : RBTree α :=
  match d with
  | .left => node c t a u
  | .right => node c u a t

/-- Read a node as a `bin d`. -/
def view (d : Side) : RBTree α → Option (Color × RBTree α × α × RBTree α)
  | nil => none
  | node c l a r =>
      match d with
      | .left => some (c, l, a, r)
      | .right => some (c, r, a, l)

theorem view_eq_some {c : Color} {l : RBTree α}
    {r : RBTree α} : view d t = some (c, l, a, r) ↔ t = bin d c l a r := by
  cases t <;> cases d <;> simp [view, bin]
  tauto

@[simp] theorem view_bin (d : Side) (c : Color) (t : RBTree α) (a : α) (u : RBTree α) :
    view d (bin d c t a u) = some (c, t, a, u) := view_eq_some.mpr rfl

/-- Every node is a `bin d`. -/
theorem exists_bin (d : Side) (h : t ≠ nil) : ∃ c l a r, t = bin d c l a r := by
  cases t with
  | nil => exact absurd rfl h
  | node c l a r =>
      cases d with
      | left => exact ⟨c, l, a, r, rfl⟩
      | right => exact ⟨c, r, a, l, rfl⟩

theorem bin_flip (d : Side) (c : Color) (t : RBTree α) (a : α) (u : RBTree α) :
    bin d.flip c t a u = bin d c u a t := by
  cases d <;> rfl

@[simp] theorem bin_ne_nil (d : Side) (c : Color) (t : RBTree α) (a : α) (u : RBTree α) :
    bin d c t a u ≠ nil := by
  cases d <;> simp [bin]

@[simp] theorem color_bin (d : Side) (c : Color) (t : RBTree α) (a : α) (u : RBTree α) :
    (bin d c t a u).color = c := by
  cases d <;> rfl

@[simp] theorem setColor_bin (d : Side) (c c' : Color) (t : RBTree α) (a : α)
    (u : RBTree α) : (bin d c t a u).setColor c' = bin d c' t a u := by
  cases d <;> rfl

@[simp] theorem toList_setColor (c : Color) (t : RBTree α) :
    (t.setColor c).toList = t.toList := by
  cases t <;> rfl

theorem color_setColor_black (t : RBTree α) : (t.setColor .black).color = .black := by
  cases t <;> rfl

theorem ne_nil_of_color (h : t.color = .red) : t ≠ nil := by
  rintro rfl
  cases h

theorem color_ne_red (h : t.color ≠ .red) : t.color = .black := by
  cases hc : t.color with
  | red => exact absurd hc h
  | black => rfl

theorem mem_toList_bin {c : Color} {b : α} :
    b ∈ (bin d c t a u).toList ↔ b ∈ t.toList ∨ b = a ∨ b ∈ u.toList := by
  cases d <;> simp [bin, toList]
  tauto

/-! ## The red-black invariant -/

/-- No red node has a red child. -/
def NoRedRed : RBTree α → Prop
  | nil => True
  | node c l _ r => (c = .red → l.color = .black ∧ r.color = .black) ∧ l.NoRedRed ∧ r.NoRedRed

/-- Every path from the root to an empty tree passes `n` black nodes. -/
def BlackHeight : RBTree α → Nat → Prop
  | nil, n => n = 0
  | node c l _ r, n => ∃ m, l.BlackHeight m ∧ r.BlackHeight m ∧ n = m + c.weight

/-- **The red-black invariant.** -/
structure IsRedBlack (t : RBTree α) : Prop where
  root_black : t.color = .black
  noRedRed : t.NoRedRed
  blackHeight : ∃ n, t.BlackHeight n

/-! ## The depth -/

/-- The number of nodes on the longest path to an empty tree. -/
def depth : RBTree α → Nat
  | nil => 0
  | node _ l _ r => max l.depth r.depth + 1

theorem depth_le_length (t : RBTree α) : t.depth ≤ t.toList.length := by
  induction t with
  | nil => exact le_rfl
  | node c l a r ihl ihr =>
      rw [depth, toList, List.length_append, List.length_cons]
      omega

/-- A tree of black height `n` has room for `n` full levels. -/
theorem BlackHeight.two_pow_le (h : t.BlackHeight n) : 2 ^ n ≤ t.toList.length + 1 := by
  induction t generalizing n with
  | nil =>
      rw [BlackHeight] at h
      subst h
      exact le_rfl
  | node c l a r ihl ihr =>
      obtain ⟨m, hl, hr, rfl⟩ := h
      have hleft := ihl hl
      have hright := ihr hr
      rw [toList, List.length_append, List.length_cons]
      cases c with
      | red =>
          show 2 ^ m ≤ _
          omega
      | black =>
          show 2 ^ (m + 1) ≤ _
          rw [pow_succ]
          omega

/-- At most every second node of a path is red. -/
theorem depth_le_blackHeight (hc : t.NoRedRed) (h : t.BlackHeight n) :
    t.depth ≤ 2 * n + 1 ∧ (t.color = .black → t.depth ≤ 2 * n) := by
  induction t generalizing n with
  | nil => exact ⟨Nat.zero_le _, fun _ => Nat.zero_le _⟩
  | node c l a r ihl ihr =>
      obtain ⟨m, hl, hr, rfl⟩ := h
      obtain ⟨hred, hcl, hcr⟩ := hc
      have hleft := ihl hcl hl
      have hright := ihr hcr hr
      rw [depth]
      cases c with
      | red =>
          -- the children are black
          have hl' := hleft.2 (hred rfl).1
          have hr' := hright.2 (hred rfl).2
          refine ⟨?_, nofun⟩
          show max l.depth r.depth + 1 ≤ 2 * m + 1
          omega
      | black =>
          have hle : max l.depth r.depth + 1 ≤ 2 * (m + 1) := by omega
          exact ⟨hle.trans (Nat.le_succ _), fun _ => hle⟩

/-- **A red-black tree has logarithmic depth.** -/
theorem IsRedBlack.depth_le (h : t.IsRedBlack) : t.depth ≤ 2 * Nat.log 2 (t.toList.length + 1) := by
  obtain ⟨n, hn⟩ := h.blackHeight
  have hlog : n ≤ Nat.log 2 (t.toList.length + 1) :=
    Nat.le_log_of_pow_le (by decide) hn.two_pow_le
  have hdepth := (depth_le_blackHeight h.noRedRed hn).2 h.root_black
  omega

/-! ## Subtrees -/

/-- What the red-black invariant says of a subtree: everything but the colour of its root. -/
def Good (t : RBTree α) (n : Nat) : Prop := t.NoRedRed ∧ t.BlackHeight n

@[simp] theorem good_nil (n : Nat) : (nil : RBTree α).Good n ↔ n = 0 := by
  simp [Good, NoRedRed, BlackHeight]

theorem good_bin {c : Color} :
    (bin d c t a u).Good n ↔
      (c = .red → t.color = .black ∧ u.color = .black) ∧
        ∃ m, t.Good m ∧ u.Good m ∧ n = m + c.weight := by
  cases d with
  | left =>
      simp only [bin, Good, NoRedRed, BlackHeight]
      constructor
      · rintro ⟨⟨hc, ht, hu⟩, m, htm, hum, hn⟩
        exact ⟨hc, m, ⟨ht, htm⟩, ⟨hu, hum⟩, hn⟩
      · rintro ⟨hc, m, ⟨ht, htm⟩, ⟨hu, hum⟩, hn⟩
        exact ⟨⟨hc, ht, hu⟩, m, htm, hum, hn⟩
  | right =>
      simp only [bin, Good, NoRedRed, BlackHeight]
      constructor
      · rintro ⟨⟨hc, hu, ht⟩, m, hum, htm, hn⟩
        exact ⟨fun h => (hc h).symm, m, ⟨ht, htm⟩, ⟨hu, hum⟩, hn⟩
      · rintro ⟨hc, m, ⟨ht, htm⟩, ⟨hu, hum⟩, hn⟩
        exact ⟨⟨fun h => (hc h).symm, hu, ht⟩, m, hum, htm, hn⟩

/-- A black node over two good trees of the same height. -/
theorem good_black {m : Nat} (ht : t.Good m) (hu : u.Good m) : (bin d .black t a u).Good (m + 1) :=
  good_bin.mpr ⟨nofun, m, ht, hu, rfl⟩

/-- A red node over two good black trees of the same height. -/
theorem good_red {m : Nat}
    (ht : t.Good m) (hu : u.Good m) (htc : t.color = .black) (huc : u.color = .black) :
    (bin d .red t a u).Good m :=
  good_bin.mpr ⟨fun _ => ⟨htc, huc⟩, m, ht, hu, rfl⟩

/-- Inversion at a red node. -/
theorem Good.of_red (h : (bin d .red t a u).Good n) :
    t.Good n ∧ u.Good n ∧ t.color = .black ∧ u.color = .black := by
  obtain ⟨hc, m, ht, hu, rfl⟩ := good_bin.mp h
  exact ⟨ht, hu, hc rfl⟩

/-- Inversion at a black node. -/
theorem Good.of_black (h : (bin d .black t a u).Good n) : ∃ m, t.Good m ∧ u.Good m ∧ n = m + 1 := by
  obtain ⟨-, m, ht, hu, rfl⟩ := good_bin.mp h
  exact ⟨m, ht, hu, rfl⟩

theorem Good.setColor_black (h : t.Good n) : ∃ m, (t.setColor .black).Good m := by
  by_cases ht : t = nil
  · exact ⟨n, ht ▸ h⟩
  · obtain ⟨c, l, a, r, rfl⟩ := exists_bin .left ht
    obtain ⟨-, m, hl, hr, -⟩ := good_bin.mp h
    rw [setColor_bin]
    exact ⟨m + 1, good_black hl hr⟩

theorem Good.setColor_black_of_red (h : t.Good n)
    (hc : t.color = .red) : (t.setColor .black).Good (n + 1) := by
  obtain ⟨c, l, a, r, rfl⟩ := exists_bin .left (ne_nil_of_color hc)
  rw [color_bin] at hc
  subst hc
  obtain ⟨hl, hr, -, -⟩ := h.of_red
  rw [setColor_bin]
  exact good_black hl hr

theorem Good.isRedBlack (h : t.Good n) (hc : t.color = .black) :
    t.IsRedBlack := ⟨hc, h.1, n, h.2⟩

theorem IsRedBlack.good (h : t.IsRedBlack) : ∃ n, t.Good n := by
  obtain ⟨n, hn⟩ := h.blackHeight
  exact ⟨n, h.noRedRed, hn⟩

theorem isRedBlack_nil : (nil : RBTree α).IsRedBlack := ⟨rfl, trivial, 0, rfl⟩

end RBTree

open KvStore.Lib.RBTree

/-! ## Zippers -/

/-- One step up from a subtree: the side it is on, and the rest of the node above it. -/
structure Frame (α : Type) where
  side : Side
  color : Color
  label : α
  sib : RBTree α
  deriving DecidableEq, Repr

/-- The way from a subtree up to the root, innermost frame first. -/
abbrev Ctx (α : Type) := List (Frame α)

section Zipper

variable {α : Type}

def Frame.fill (f : Frame α) (t : RBTree α) : RBTree α := bin f.side f.color t f.label f.sib

/-- The tree with `t` at the position `k`. -/
def plug : Ctx α → RBTree α → RBTree α
  | [], t => t
  | f :: k, t => plug k (f.fill t)

@[simp] theorem plug_nil (t : RBTree α) : plug [] t = t := rfl

theorem plug_cons (f : Frame α) (k : Ctx α) (t : RBTree α) :
    plug (f :: k) t = plug k (bin f.side f.color t f.label f.sib) := rfl

theorem plug_ne_nil (k : Ctx α) {t : RBTree α} (ht : t ≠ nil) : plug k t ≠ nil := by
  induction k generalizing t with
  | nil => exact ht
  | cons f k ih => exact ih (by simp [Frame.fill])

/-- The labels left of the position. -/
def before : Ctx α → List α
  | [] => []
  | f :: k =>
      match f.side with
      | .left => before k
      | .right => before k ++ (f.sib.toList ++ [f.label])

/-- The labels right of the position. -/
def after : Ctx α → List α
  | [] => []
  | f :: k =>
      match f.side with
      | .left => f.label :: f.sib.toList ++ after k
      | .right => after k

theorem toList_plug (k : Ctx α) (t : RBTree α) :
    (plug k t).toList = before k ++ t.toList ++ after k := by
  induction k generalizing t with
  | nil => simp [before, after]
  | cons f k ih =>
      obtain ⟨d, c, a, u⟩ := f
      rw [plug_cons, ih]
      cases d <;> simp [before, after, bin, toList]

/-- Trees with the same labels at a position give trees with the same labels. -/
theorem toList_plug_congr (k : Ctx α) {t u : RBTree α} (h : t.toList = u.toList) :
    (plug k t).toList = (plug k u).toList := by
  rw [toList_plug, toList_plug, h]

/-- The labels around the position, in no particular order. -/
def labels : Ctx α → List α
  | [] => []
  | f :: k => f.label :: (f.sib.toList ++ labels k)

theorem toList_bin_perm (d : Side) (c : Color) (t : RBTree α) (a : α) (u : RBTree α) :
    (bin d c t a u).toList.Perm (a :: (t.toList ++ u.toList)) := by
  cases d with
  | left => exact List.perm_middle
  | right => exact List.perm_middle.trans (List.perm_append_comm.cons a)

theorem toList_plug_perm (k : Ctx α) (t : RBTree α) :
    (plug k t).toList.Perm (t.toList ++ labels k) := by
  induction k generalizing t with
  | nil => simp [labels]
  | cons f k ih =>
      refine (ih (f.fill t)).trans ?_
      refine ((toList_bin_perm ..).append_right (labels k)).trans ?_
      rw [labels, List.cons_append, List.append_assoc]
      exact List.perm_middle.symm

theorem length_le_toList_plug (k : Ctx α) (t : RBTree α) :
    k.length ≤ (plug k t).toList.length := by
  induction k generalizing t with
  | nil => simp
  | cons f k ih =>
      have h := ih nil
      obtain ⟨d, c, a, u⟩ := f
      rw [toList_plug] at h ⊢
      cases d <;> simp [before, after, toList] at h ⊢ <;> omega

/-- The colour above the position; above the root stands the black sentinel. -/
def parentColor : Ctx α → Color
  | [] => .black
  | f :: _ => f.color

/-- The invariant of the way up from a hole that wants a tree of black height `n`: the siblings
have the right height, no frame and its sibling or the frame above it are both red, and the
outermost frame (the root) is black. -/
def CtxOk : Ctx α → Nat → Prop
  | [], _ => True
  | f :: k, n =>
      f.sib.Good n ∧
        (f.color = .red → f.sib.color = .black ∧ ∃ g k', k = g :: k' ∧ g.color = .black) ∧
          CtxOk k (n + f.color.weight)

/-- Filling the hole with a good tree of the right height gives a good tree. -/
theorem CtxOk.good_plug {k : Ctx α} {t : RBTree α} (hk : CtxOk k n) (ht : t.Good n)
    (hc : t.color = .red → parentColor k = .black) : ∃ m, (plug k t).Good m := by
  induction k generalizing n t with
  | nil => exact ⟨n, ht⟩
  | cons f k ih =>
      obtain ⟨hs, hf, hk'⟩ := hk
      refine ih hk' (t := f.fill t) (good_bin.mpr ⟨fun h => ?_, n, ht, hs, rfl⟩) ?_
      · refine ⟨color_ne_red fun htr => ?_, (hf h).1⟩
        have := hc htr
        rw [parentColor, h] at this
        cases this
      · intro h
        rw [Frame.fill, color_bin] at h
        obtain ⟨-, g, k', rfl, hg⟩ := hf h
        exact hg

/-- Under a non-empty path the root is a frame, and it is black. -/
theorem CtxOk.color_plug {k : Ctx α} (t : RBTree α) (hk : CtxOk k n) (hne : k ≠ []) :
    (plug k t).color = .black := by
  induction k generalizing n t with
  | nil => exact absurd rfl hne
  | cons f k ih =>
      obtain ⟨-, hf, hk'⟩ := hk
      cases k with
      | nil =>
          rw [plug_cons, plug_nil, color_bin]
          cases hc : f.color with
          | black => rfl
          | red =>
              obtain ⟨-, g, k', h, -⟩ := hf hc
              cases h
      | cons g k => exact ih (f.fill t) hk' (by simp)

/-- A red-black tree, split at any position. -/
theorem ctxOk_of_plug {k : Ctx α} {t : RBTree α} (h : (plug k t).IsRedBlack) :
    ∃ n, CtxOk k n ∧ t.Good n ∧ (t.color = .red → k ≠ [] ∧ parentColor k = .black) := by
  induction k generalizing t with
  | nil =>
      obtain ⟨n, hn⟩ := h.good
      refine ⟨n, trivial, hn, fun hc => ?_⟩
      have hb := h.root_black
      rw [plug_nil, hc] at hb
      cases hb
  | cons f k ih =>
      obtain ⟨m, hk, hg, hc⟩ := ih (t := f.fill t) h
      obtain ⟨hcc, n, ht, hs, hm⟩ := good_bin.mp hg
      refine ⟨n, ⟨hs, fun hf => ⟨(hcc hf).2, ?_⟩, hm ▸ hk⟩, ht, fun htr => ⟨by simp, ?_⟩⟩
      · obtain ⟨hne, hp⟩ := hc (by rw [Frame.fill, color_bin]; exact hf)
        cases k with
        | nil => exact absurd rfl hne
        | cons g k' => exact ⟨g, k', rfl, hp⟩
      · show f.color = .black
        cases hf : f.color with
        | black => rfl
        | red =>
            have hb := (hcc hf).1
            rw [htr] at hb
            cases hb

end Zipper

end KvStore.Lib
