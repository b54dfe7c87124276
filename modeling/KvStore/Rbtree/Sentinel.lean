import KvStore.Lib.Blind
import KvStore.Rbtree.Runs

set_option autoImplicit false

/-! # The sentinel

`kvstore_rbtree_create` writes the key and the colour of the sentinel `tree->nil` and leaves its
other fields as `malloc` returned them. The repairs borrow its parent pointer; its children and its
value are written by nobody. So a read of one of these is a read of uninitialised memory, and the
code makes none: `sentinel_unread` says so of every run, and of what it rests on, the grandparent of
`rbtree_insert_fixup`, the sibling of `rbtree_delete_fixup` and the pivot of a rotation.

The argument does not need the shape of the tree. Wherever the code could write a child pointer or
the value of the sentinel it has read the same record before, or has compared it with `nil`.
-/

namespace KvStore.Rbtree

open KvStore.Lib KvStore.Lib.RBTree

/-! ## The fields that are not written -/

/-- Contents of the children and the value of the sentinel. -/
structure Hidden where
  left : Option Nat
  right : Option Nat
  value : Option Nat

def Hidden.fill (h : Hidden) (n : RbtreeNode) : RbtreeNode :=
  { n with left := h.left, right := h.right, value := h.value }

/-- The memory with these contents in its sentinel. -/
def Hidden.put (h : Hidden) (s : State) : State := s.modNode s.desc.nil h.fill

/-- The code does not use the children and the value of the sentinel `p`. -/
abbrev Overlooks {α : Type} (h : Hidden) (p : Nat) (c : Rb α) (s : State)
    (Q : α → State → Prop) : Prop :=
  Blind (Store.modNode · p h.fill) c s Q

/-- What the record `n` at `q` must be like when `p` is the sentinel: `p` is not its key or its
value, and if it is the sentinel itself, its children and its value have not been written. -/
def Clear (p q : Nat) (n : RbtreeNode) : Prop :=
  n.key ≠ some p ∧ n.value ≠ some p ∧ (q = p → (∀ d, n.child d = none) ∧ n.value = none)

/-- **The invariant** of a memory with the sentinel `p`. -/
structure Bare (p : Nat) (s : State) : Prop where
  nil : s.desc.nil = p
  ne_null : p ≠ 0
  lt_next : p < s.next
  clear : ∀ q n, s.node q = some n → Clear p q n

section Invariant

variable {s : State} {p q : Nat}

theorem Bare.childAt_eq_none (hb : Bare p s) (d : Side) : childAt s d p = none := by
  unfold childAt Store.field
  cases hn : s.node p with
  | none => rfl
  | some n => exact ((hb.clear p n hn).2.2 rfl).1 d

theorem Bare.valueAt_eq_none (hb : Bare p s) : valueAt s p = none := by
  unfold valueAt Store.field
  cases hn : s.node p with
  | none => rfl
  | some n => exact ((hb.clear p n hn).2.2 rfl).2

theorem Bare.keyAt_ne (hb : Bare p s) (q : Nat) : keyAt s q ≠ some p := by
  unfold keyAt Store.field
  cases hn : s.node q with
  | none => exact nofun
  | some n => exact (hb.clear q n hn).1

theorem Bare.valueAt_ne (hb : Bare p s) (q : Nat) : valueAt s q ≠ some p := by
  unfold valueAt Store.field
  cases hn : s.node q with
  | none => exact nofun
  | some n => exact (hb.clear q n hn).2.1

theorem Bare.modNode (hb : Bare p s) {u : RbtreeNode → RbtreeNode}
    (hu : ∀ n, Clear p q n → Clear p q (u n)) : Bare p (s.modNode q u) := by
  refine ⟨hb.nil, hb.ne_null, hb.lt_next, fun r m hm => ?_⟩
  by_cases hr : r = q
  · subst hr
    cases hn : s.node r with
    | none => simp [Store.modNode, hn] at hm
    | some n =>
        obtain rfl : u n = m := by simpa [Store.modNode, hn] using hm
        exact hu n (hb.clear r n hn)
  · rw [Store.modNode_node_ne s u hr] at hm
    exact hb.clear r m hm

theorem Bare.modDesc (hb : Bare p s) {u : Tree → Tree} (hu : (u s.desc).nil = s.desc.nil) :
    Bare p (s.modDesc u) := ⟨hu.trans hb.nil, hb.ne_null, hb.lt_next, hb.clear⟩

theorem Bare.allocNode (hb : Bare p s) : Bare p (s.allocNode {}) := by
  refine ⟨hb.nil, hb.ne_null, hb.lt_next.trans (Nat.lt_succ_self _), fun r m hm => ?_⟩
  by_cases hr : r = s.next
  · subst hr
    rw [Store.allocNode_node_self] at hm
    cases hm
    exact ⟨nofun, nofun, fun _ => ⟨fun d => by cases d <;> rfl, rfl⟩⟩
  · rw [Store.allocNode_node_ne s _ hr] at hm
    exact hb.clear r m hm

theorem Bare.allocStr (hb : Bare p s) (n : Nat) : Bare p (s.allocStr n) :=
  ⟨hb.nil, hb.ne_null, hb.lt_next.trans (Nat.lt_succ_self _), hb.clear⟩

theorem Bare.putStr (hb : Bare p s) (q : Nat) (v : CStr) : Bare p (s.putStr q v) :=
  ⟨hb.nil, hb.ne_null, hb.lt_next, hb.clear⟩

theorem Bare.dropStr (hb : Bare p s) (q : Nat) : Bare p (s.dropStr q) :=
  ⟨hb.nil, hb.ne_null, hb.lt_next, hb.clear⟩

theorem Bare.dropNode (hb : Bare p s) (q : Nat) : Bare p (s.dropNode q) := by
  refine ⟨hb.nil, hb.ne_null, hb.lt_next, fun r m hm => ?_⟩
  by_cases hr : r = q
  · subst hr
    simp [Store.dropNode] at hm
  · rw [Store.dropNode_node_ne s hr] at hm
    exact hb.clear r m hm

theorem bare_created : Bare 1 created := by
  -- the descriptor names the sentinel before the record is written
  have hblank : Bare 1 ((blank.allocNode {}).modDesc ({ · with nil := 1 })) := by
    refine ⟨rfl, by decide, by decide, fun r m hm => ?_⟩
    by_cases hr : r = 1
    · subst hr
      cases hm
      exact ⟨nofun, nofun, fun _ => ⟨fun d => by cases d <;> rfl, rfl⟩⟩
    · rw [Store.modDesc_node, Store.allocNode_node_ne blank _ hr] at hm
      cases hm
  unfold created putRoot putColor putKey
  refine Bare.modDesc (Bare.modNode (Bare.putStr (Bare.modNode (hblank.allocStr 1) ?_) _ _) ?_) rfl
  · exact fun n hn => ⟨fun h => absurd (Option.some.inj h) (by decide), hn.2.1, hn.2.2⟩
  · exact fun n hn => hn

end Invariant

/-! ## The accesses of the code -/

variable {Q : Nat → State → Prop}

section Access

variable {h : Hidden} {s : State} {p q r : Nat} {d : Side}

theorem overlooks_getNil (hb : Bare p s) (hQ : Q p s) : Overlooks h p getNil s Q :=
  blind_bind (blind_readDesc (blind_pure (hb.nil.symm ▸ hQ)))

theorem overlooks_getRoot (hQ : ∀ r, Q r s) : Overlooks h p getRoot s Q :=
  blind_bind (blind_readDesc (blind_pure (hQ _)))

theorem overlooks_getColor {Q : Color → State → Prop} (hQ : ∀ c, colorAt s q = some c → Q c s) :
    Overlooks h p (getColor q) s Q :=
  blind_readField hQ fun _ _ _ _ => rfl

theorem overlooks_getParent (hQ : ∀ r, parentAt s q = some r → Q r s) :
    Overlooks h p (getParent q) s Q :=
  blind_readField hQ fun _ _ _ _ => rfl

theorem overlooks_getKey (hb : Bare p s) (hQ : ∀ k, k ≠ p → Q k s) :
    Overlooks h p (getKey q) s Q := by
  refine blind_readField (fun k hk => hQ k ?_) fun _ _ _ _ => rfl
  rintro rfl
  exact hb.keyAt_ne q hk

/-- A read of a child is a read of a record other than the sentinel. -/
theorem overlooks_getChild (hb : Bare p s)
    (hQ : ∀ r, q ≠ p → childAt s d q = some r → Q r s) : Overlooks h p (getChild d q) s Q := by
  have hne : ∀ r, childAt s d q = some r → q ≠ p := by
    rintro r hr rfl
    rw [hb.childAt_eq_none d] at hr
    cases hr
  exact blind_readField (fun r hr => hQ r (hne r hr) hr) fun r hr hq => absurd hq (hne r hr)

theorem overlooks_getValue (hb : Bare p s)
    (hQ : ∀ v, q ≠ p → v ≠ p → Q v s) : Overlooks h p (getValue q) s Q := by
  have hne : ∀ v, valueAt s q = some v → q ≠ p := by
    rintro v hv rfl
    rw [hb.valueAt_eq_none] at hv
    cases hv
  refine blind_readField (fun v hv => hQ v (hne v hv) ?_) fun v hv hq => absurd hq (hne v hv)
  rintro rfl
  exact hb.valueAt_ne q hv

theorem overlooks_setRoot (hb : Bare p s) {Q : Unit → State → Prop}
    (hQ : ∀ s', Bare p s' → Q () s') : Overlooks h p (setRoot q) s Q :=
  blind_writeDesc (hQ _ (hb.modDesc rfl))

theorem overlooks_setColor (hb : Bare p s) {c : Color} {Q : Unit → State → Prop}
    (hQ : ∀ s', Bare p s' → Q () s') : Overlooks h p (setColor q c) s Q :=
  blind_writeField (hQ _ (hb.modNode fun _ hn => hn)) fun _ _ => rfl

theorem overlooks_setParent (hb : Bare p s) {Q : Unit → State → Prop}
    (hQ : ∀ s', Bare p s' → Q () s') : Overlooks h p (setParent q r) s Q :=
  blind_writeField (hQ _ (hb.modNode fun _ hn => hn)) fun _ _ => rfl

theorem overlooks_setKey (hb : Bare p s) (hr : r ≠ p) {Q : Unit → State → Prop}
    (hQ : ∀ s', Bare p s' → Q () s') : Overlooks h p (setKey q r) s Q := by
  refine blind_writeField (hQ _ (hb.modNode fun n hn => ⟨?_, hn.2⟩)) fun _ _ => rfl
  exact fun heq => hr (Option.some.inj heq)

theorem overlooks_setValue (hb : Bare p s) (hq : q ≠ p) (hr : r ≠ p) {Q : Unit → State → Prop}
    (hQ : ∀ s', Bare p s' → Q () s') : Overlooks h p (setValue q r) s Q := by
  refine blind_writeField (hQ _ (hb.modNode fun n hn => ⟨hn.1, ?_, ?_⟩)) fun heq => absurd heq hq
  · exact fun heq => hr (Option.some.inj heq)
  · exact fun heq => absurd heq hq

theorem overlooks_setChild (hb : Bare p s) (hq : q ≠ p) {Q : Unit → State → Prop}
    (hQ : ∀ s', Bare p s' → Q () s') : Overlooks h p (setChild d q r) s Q := by
  refine blind_writeField (hQ _ (hb.modNode fun n hn => ?_)) fun heq => absurd heq hq
  cases d <;> exact ⟨hn.1, hn.2.1, fun heq => absurd heq hq⟩

theorem overlooks_free (hb : Bare p s) (hq : q ≠ p) {Q : Unit → State → Prop}
    (hQ : ∀ s', Bare p s' → Q () s') : Overlooks h p (free q) s Q :=
  blind_free hq.symm (hQ _ hb) (hQ _ (hb.dropNode q)) (hQ _ (hb.dropStr q))

theorem overlooks_mallocStr (hb : Bare p s) (ok : Bool) (n : Nat)
    (hQ : ∀ q s', Bare p s' → q ≠ p → Q q s') : Overlooks h p (mallocStr ok n) s Q :=
  blind_mallocStr ok (hQ _ _ (hb.allocStr n) hb.lt_next.ne') (hQ _ _ hb hb.ne_null.symm)

theorem overlooks_mallocNode (hb : Bare p s) (ok : Bool)
    (hQ : ∀ q s', Bare p s' → q ≠ p → Q q s') : Overlooks h p (mallocNode ok {}) s Q :=
  blind_mallocNode ok hb.lt_next.ne (hQ _ _ hb.allocNode hb.lt_next.ne') (hQ _ _ hb hb.ne_null.symm)

theorem overlooks_strcpy (hb : Bare p s) {v : CStr} {Q : Unit → State → Prop}
    (hQ : ∀ s', Bare p s' → Q () s') : Overlooks h p (strcpy q v) s Q :=
  blind_strcpy (hQ _ (hb.putStr q v))

theorem overlooks_memsetZero (hb : Bare p s) {n : Nat} {Q : Unit → State → Prop}
    (hQ : ∀ s', Bare p s' → Q () s') : Overlooks h p (memsetZero q n) s Q :=
  blind_memsetZero (hQ _ (hb.putStr q default))

theorem overlooks_strcmpKeys (hb : Bare p s) {Q : Int → State → Prop} (hQ : ∀ c, Q c s) :
    Overlooks h p (strcmpKeys q r) s Q := by
  refine blind_bind (overlooks_getKey hb fun kq _ => ?_)
  refine blind_bind (blind_readStr fun vq => ?_)
  refine blind_bind (overlooks_getKey hb fun kr _ => ?_)
  exact blind_bind (blind_readStr fun vr => blind_pure (hQ _))

end Access

/-! ## Walks -/

section Walks

variable {h : Hidden} {s : State} {p x : Nat}

/-- A loop that changes nothing. -/
theorem overlooks_walk {α ρ : Type} {step : α → Rb (α ⊕ ρ)} {Q : ρ → State → Prop}
    (hstep : ∀ a (R : α ⊕ ρ → State → Prop), (∀ y, R y s) → Overlooks h p (step a) s R)
    (hQ : ∀ r, Q r s) (a : α) : Overlooks h p (whileLoop step a) s Q := by
  refine blind_whileLoop (fun _ s' => s' = s) ?_ rfl
  rintro a s' rfl
  refine hstep a _ fun y => ?_
  cases y with
  | inl a' => rfl
  | inr r => exact hQ r

theorem overlooks_rbtreeSearch (hb : Bare p s) {key : Option CStr}
    (hQ : ∀ r, Q r s) : Overlooks h p (rbtreeSearch key) s Q := by
  refine blind_bind (overlooks_getRoot fun r => overlooks_walk (fun a R hR => ?_) hQ r)
  refine blind_bind (overlooks_getNil hb ?_)
  split_ifs
  · refine blind_bind (blind_argStr fun v => ?_)
    refine blind_bind (overlooks_getKey hb fun k _ => ?_)
    refine blind_bind (blind_readStr fun w => ?_)
    dsimp only
    split_ifs
    · exact blind_bind (overlooks_getChild hb fun q _ _ => blind_pure (hR _))
    · exact blind_bind (overlooks_getChild hb fun q _ _ => blind_pure (hR _))
    · exact blind_pure (hR _)
  · exact blind_bind (overlooks_getNil hb (blind_pure (hR _)))

theorem overlooks_descend (hb : Bare p s) {z : Nat} {Q : Option Nat → State → Prop}
    (hQ : ∀ r, Q r s) (a : Nat × Nat) : Overlooks h p (whileLoop (descendStep z) a) s Q := by
  refine overlooks_walk (fun a R hR => ?_) hQ a
  refine blind_bind (overlooks_getNil hb ?_)
  split_ifs
  · refine blind_bind (overlooks_strcmpKeys hb fun c => ?_)
    split_ifs
    · exact blind_bind (overlooks_getChild hb fun q _ _ => blind_pure (hR _))
    · refine blind_bind (overlooks_strcmpKeys hb fun c' => ?_)
      split_ifs
      · exact blind_bind (overlooks_getChild hb fun q _ _ => blind_pure (hR _))
      · exact blind_pure (hR _)
  · exact blind_pure (hR _)

theorem overlooks_rbtreeMini (hb : Bare p s) (hQ : ∀ r, Q r s) :
    Overlooks h p (rbtreeMini x) s Q := by
  refine overlooks_walk (fun a R hR => ?_) hQ x
  refine blind_bind (overlooks_getChild hb fun q _ _ => ?_)
  refine blind_bind (overlooks_getNil hb ?_)
  split_ifs
  · exact blind_bind (overlooks_getChild hb fun q' _ _ => blind_pure (hR _))
  · exact blind_pure (hR _)

theorem overlooks_rbtreeSuccessor (hb : Bare p s) (hQ : ∀ r, Q r s) :
    Overlooks h p (rbtreeSuccessor x) s Q := by
  refine blind_bind (overlooks_getParent fun y _ => ?_)
  refine blind_bind (overlooks_getChild hb fun q _ _ => ?_)
  refine blind_bind (overlooks_getNil hb ?_)
  split_ifs
  · exact blind_bind (overlooks_getChild hb fun q' _ _ => overlooks_rbtreeMini hb hQ)
  · refine overlooks_walk (fun a R hR => ?_) hQ _
    refine blind_bind (overlooks_getNil hb ?_)
    split_ifs
    · refine blind_bind (overlooks_getChild hb fun q' _ _ => ?_)
      split_ifs
      · exact blind_bind (overlooks_getParent fun y' _ => blind_pure (hR _))
      · exact blind_pure (hR _)
    · exact blind_pure (hR _)

end Walks

/-! ## Rotations and repairs -/

section Repairs

variable {h : Hidden} {s : State} {p x y z : Nat} {d : Side} {Q : Unit → State → Prop}

theorem overlooks_relink (hb : Bare p s) (hQ : ∀ s', Bare p s' → Q () s') :
    Overlooks h p (relink d x y) s Q := by
  refine blind_bind (overlooks_getNil hb ?_)
  refine blind_bind (overlooks_getParent fun q hq => ?_)
  split_ifs with hnil
  · exact overlooks_setRoot hb hQ
  · refine blind_bind (overlooks_getParent fun q₁ _ => ?_)
    refine blind_bind (overlooks_getChild hb fun c hq₁ _ => ?_)
    -- all the reads of the parent give `q`
    have hset : ∀ e, Overlooks h p (do setChild e (← getParent x) y) s Q := by
      intro e
      refine blind_bind (overlooks_getParent fun q₂ hq₂ => overlooks_setChild hb ?_ hQ)
      rw [hq] at hq₂
      exact Option.some.inj hq₂ ▸ hnil
    split_ifs
    · exact hset d
    · exact hset d.flip

/-- A rotation at `x` returns only if the child that comes up is a node. -/
theorem overlooks_rotate (hb : Bare p s)
    (hQ : ∀ s', Bare p s' → (∃ y, childAt s d.flip x = some y ∧ y ≠ p) → Q () s') :
    Overlooks h p (rotate d x) s Q := by
  refine blind_bind (overlooks_getNil hb ?_)
  refine blind_bind (overlooks_getChild hb fun y hx hxy => ?_)
  refine blind_bind (overlooks_getChild hb fun c hy _ => ?_)
  refine blind_bind (overlooks_setChild hb hx fun s₁ hb₁ => ?_)
  have hrest : ∀ s₂, Bare p s₂ → Overlooks h p (do
      setParent y (← getParent x)
      relink d x y
      setChild d y x
      setParent x y) s₂ Q := by
    intro s₂ hb₂
    refine blind_bind (overlooks_getParent fun q _ => ?_)
    refine blind_bind (overlooks_setParent hb₂ fun s₃ hb₃ => ?_)
    refine blind_bind (overlooks_relink hb₃ fun s₄ hb₄ => ?_)
    refine blind_bind (overlooks_setChild hb₄ hy fun s₅ hb₅ => ?_)
    exact overlooks_setParent hb₅ fun s' hb' => hQ s' hb' ⟨y, hxy, hy⟩
  refine blind_bind (overlooks_getChild hb₁ fun c' _ _ => ?_)
  split_ifs
  · refine blind_bind (overlooks_getChild hb₁ fun c'' _ _ => ?_)
    exact blind_bind (overlooks_setParent hb₁ hrest)
  · exact hrest s₁ hb₁

theorem overlooks_insertFixupBody (hb : Bare p s) {Q : Nat → State → Prop}
    (hQ : ∀ z' s', Bare p s' → Q z' s') : Overlooks h p (insertFixupBody d z) s Q := by
  refine blind_bind (overlooks_getParent fun a _ => ?_)
  refine blind_bind (overlooks_getParent fun g _ => ?_)
  refine blind_bind (overlooks_getChild hb fun y _ _ => ?_)
  refine blind_bind (overlooks_getColor fun c _ => ?_)
  split_ifs
  · refine blind_bind (overlooks_getParent fun a₁ _ => ?_)
    refine blind_bind (overlooks_setColor hb fun s₁ hb₁ => ?_)
    refine blind_bind (overlooks_setColor hb₁ fun s₂ hb₂ => ?_)
    refine blind_bind (overlooks_getParent fun a₂ _ => ?_)
    refine blind_bind (overlooks_getParent fun g₂ _ => ?_)
    refine blind_bind (overlooks_setColor hb₂ fun s₃ hb₃ => ?_)
    refine blind_bind (overlooks_getParent fun a₃ _ => ?_)
    exact overlooks_getParent fun g₃ _ => hQ g₃ s₃ hb₃
  · have hrest : ∀ z' s₁, Bare p s₁ → Overlooks h p (do
        setColor (← getParent z') .black
        setColor (← getParent (← getParent z')) .red
        rotate d.flip (← getParent (← getParent z'))
        return z') s₁ Q := by
      intro z' s₁ hb₁
      refine blind_bind (overlooks_getParent fun a₁ _ => ?_)
      refine blind_bind (overlooks_setColor hb₁ fun s₂ hb₂ => ?_)
      refine blind_bind (overlooks_getParent fun a₂ _ => ?_)
      refine blind_bind (overlooks_getParent fun g₂ _ => ?_)
      refine blind_bind (overlooks_setColor hb₂ fun s₃ hb₃ => ?_)
      refine blind_bind (overlooks_getParent fun a₃ _ => ?_)
      refine blind_bind (overlooks_getParent fun g₃ _ => ?_)
      exact blind_bind (overlooks_rotate hb₃ fun s₄ hb₄ _ => blind_pure (hQ z' s₄ hb₄))
    refine blind_bind (overlooks_getParent fun a₁ _ => ?_)
    refine blind_bind (overlooks_getChild hb fun c₁ _ _ => ?_)
    split_ifs
    · refine blind_bind (overlooks_getParent fun z' _ => ?_)
      refine blind_bind (overlooks_rotate hb fun s₁ hb₁ _ => ?_)
      exact blind_bind (blind_pure (hrest z' s₁ hb₁))
    · exact blind_bind (blind_pure (hrest z s hb))

/-- An iteration returns only if the grandparent is a node, when the parent is red. -/
theorem overlooks_insertFixupStep (hb : Bare p s) {Q : Nat ⊕ Unit → State → Prop}
    (hQ : ∀ r s', Bare p s' → (∀ a, parentAt s z = some a → colorAt s a = some .red →
      ∃ g, parentAt s a = some g ∧ g ≠ p) → Q r s') : Overlooks h p (insertFixupStep z) s Q := by
  refine blind_bind (overlooks_getParent fun a ha => ?_)
  refine blind_bind (overlooks_getColor fun c hc => ?_)
  split_ifs with hred
  · refine blind_bind (overlooks_getParent fun a₁ _ => ?_)
    refine blind_bind (overlooks_getParent fun a₂ ha₂ => ?_)
    refine blind_bind (overlooks_getParent fun g hg => ?_)
    refine blind_bind (overlooks_getChild hb fun q hgp _ => ?_)
    have hgrand : ∀ b, parentAt s z = some b → colorAt s b = some .red →
        ∃ g, parentAt s b = some g ∧ g ≠ p := by
      intro b hbz _
      rw [ha₂] at hbz
      exact ⟨g, Option.some.inj hbz ▸ hg, hgp⟩
    split_ifs
    · exact blind_bind
        (overlooks_insertFixupBody hb fun z' s' hb' => blind_pure (hQ _ s' hb' hgrand))
    · exact blind_bind
        (overlooks_insertFixupBody hb fun z' s' hb' => blind_pure (hQ _ s' hb' hgrand))
  · refine blind_pure (hQ _ s hb fun b hbz hbred => absurd ?_ hred)
    rw [ha] at hbz
    obtain rfl := Option.some.inj hbz
    exact Option.some.inj (hc.symm.trans hbred)

theorem overlooks_rbtreeInsertFixup (hb : Bare p s) (hQ : ∀ s', Bare p s' → Q () s') :
    Overlooks h p (rbtreeInsertFixup z) s Q := by
  refine blind_bind (blind_whileLoop (fun _ s' => Bare p s') (fun a s' hb' => ?_) hb)
  refine overlooks_insertFixupStep hb' fun r s'' hb'' _ => ?_
  cases r with
  | inl z' => exact hb''
  | inr r => exact blind_bind (overlooks_getRoot fun q => overlooks_setColor hb'' hQ)

theorem overlooks_insertPlace (hb : Bare p s) (hz : z ≠ p) {Q : Bool → State → Prop}
    (hQ : ∀ b s', Bare p s' → Q b s') : Overlooks h p (insertPlace z) s Q := by
  refine blind_bind (overlooks_getNil hb ?_)
  refine blind_bind (overlooks_getRoot fun q => ?_)
  refine blind_bind (overlooks_descend hb (fun r => ?_) _)
  cases r with
  | none => exact blind_pure (hQ _ s hb)
  | some y =>
      refine blind_bind (overlooks_setParent hb fun s₁ hb₁ => ?_)
      have hrest : ∀ s₂, Bare p s₂ → Overlooks h p (do
          setChild .left z p
          setChild .right z p
          setColor z .red
          return true) s₂ Q := by
        intro s₂ hb₂
        refine blind_bind (overlooks_setChild hb₂ hz fun s₃ hb₃ => ?_)
        refine blind_bind (overlooks_setChild hb₃ hz fun s₄ hb₄ => ?_)
        exact blind_bind (overlooks_setColor hb₄ fun s₅ hb₅ => blind_pure (hQ _ s₅ hb₅))
      split_ifs with hy
      · exact blind_bind (overlooks_setRoot hb₁ hrest)
      · refine blind_bind (overlooks_strcmpKeys hb₁ fun c => ?_)
        split_ifs
        · exact blind_bind (overlooks_setChild hb₁ hy hrest)
        · exact blind_bind (overlooks_setChild hb₁ hy hrest)

/-- `rbtree_insert` of a record other than the sentinel. -/
theorem overlooks_rbtreeInsert (hb : Bare p s) (hz : z ≠ p) (hQ : ∀ s', Bare p s' → Q () s') :
    Overlooks h p (rbtreeInsert z) s Q := by
  refine blind_bind (overlooks_insertPlace hb hz fun b s₁ hb₁ => ?_)
  split_ifs
  · exact overlooks_rbtreeInsertFixup hb₁ hQ
  · exact blind_pure (hQ s₁ hb₁)

theorem overlooks_bothBlack (hb : Bare p s) {w : Nat} {Q : Bool → State → Prop}
    (hQ : ∀ b, w ≠ p → Q b s) : Overlooks h p (bothBlack w) s Q := by
  refine blind_bind (overlooks_getChild hb fun l hw _ => ?_)
  refine blind_bind (overlooks_getColor fun c _ => ?_)
  split_ifs
  · refine blind_bind (overlooks_getChild hb fun r _ _ => ?_)
    exact blind_bind (overlooks_getColor fun c' _ => blind_pure (hQ _ hw))
  · exact blind_pure (hQ _ hw)

theorem overlooks_deleteFixupSibling (hb : Bare p s) {Q : Nat → State → Prop}
    (hQ : ∀ w s', Bare p s' → Q w s') : Overlooks h p (deleteFixupSibling d x) s Q := by
  refine blind_bind (overlooks_getParent fun a _ => ?_)
  refine blind_bind (overlooks_getChild hb fun w _ _ => ?_)
  refine blind_bind (overlooks_getColor fun c _ => ?_)
  split_ifs
  · refine blind_bind (overlooks_setColor hb fun s₁ hb₁ => ?_)
    refine blind_bind (overlooks_getParent fun a₁ _ => ?_)
    refine blind_bind (overlooks_setColor hb₁ fun s₂ hb₂ => ?_)
    refine blind_bind (overlooks_getParent fun a₂ _ => ?_)
    refine blind_bind (overlooks_rotate hb₂ fun s₃ hb₃ _ => ?_)
    refine blind_bind (overlooks_getParent fun a₃ _ => ?_)
    exact overlooks_getChild hb₃ fun w' _ _ => hQ w' s₃ hb₃
  · exact blind_pure (hQ w s hb)

theorem overlooks_deleteFixupBody (hb : Bare p s) {Q : Nat → State → Prop}
    (hQ : ∀ x' s', Bare p s' → Q x' s') : Overlooks h p (deleteFixupBody d x) s Q := by
  refine blind_bind (overlooks_deleteFixupSibling hb fun w s₁ hb₁ => ?_)
  refine blind_bind (overlooks_bothBlack hb₁ fun b _ => ?_)
  split_ifs
  · refine blind_bind (overlooks_setColor hb₁ fun s₂ hb₂ => ?_)
    exact overlooks_getParent fun x' _ => hQ x' s₂ hb₂
  · have hrest : ∀ w' s₂, Bare p s₂ → Overlooks h p (do
        setColor w' (← getColor (← getParent x))
        setColor (← getParent x) .black
        setColor (← getChild d.flip w') .black
        rotate d (← getParent x)
        getRoot) s₂ Q := by
      intro w' s₂ hb₂
      refine blind_bind (overlooks_getParent fun a _ => ?_)
      refine blind_bind (overlooks_getColor fun c _ => ?_)
      refine blind_bind (overlooks_setColor hb₂ fun s₃ hb₃ => ?_)
      refine blind_bind (overlooks_getParent fun a₃ _ => ?_)
      refine blind_bind (overlooks_setColor hb₃ fun s₄ hb₄ => ?_)
      refine blind_bind (overlooks_getChild hb₄ fun q _ _ => ?_)
      refine blind_bind (overlooks_setColor hb₄ fun s₅ hb₅ => ?_)
      refine blind_bind (overlooks_getParent fun a₅ _ => ?_)
      refine blind_bind (overlooks_rotate hb₅ fun s₆ hb₆ _ => ?_)
      exact overlooks_getRoot fun r => hQ r s₆ hb₆
    refine blind_bind (overlooks_getChild hb₁ fun q _ _ => ?_)
    refine blind_bind (overlooks_getColor fun c _ => ?_)
    split_ifs
    · refine blind_bind (overlooks_getChild hb₁ fun q' _ _ => ?_)
      refine blind_bind (overlooks_setColor hb₁ fun s₂ hb₂ => ?_)
      refine blind_bind (overlooks_setColor hb₂ fun s₃ hb₃ => ?_)
      refine blind_bind (overlooks_rotate hb₃ fun s₄ hb₄ _ => ?_)
      refine blind_bind (overlooks_getParent fun a _ => ?_)
      exact blind_bind (overlooks_getChild hb₄ fun w' _ _ => hrest w' s₄ hb₄)
    · exact blind_bind (blind_pure (hrest w s₁ hb₁))

theorem overlooks_deleteFixupStep (hb : Bare p s) {Q : Nat ⊕ Nat → State → Prop}
    (hQ : ∀ r s', Bare p s' → Q r s') : Overlooks h p (deleteFixupStep x) s Q := by
  refine blind_bind (overlooks_getRoot fun r => ?_)
  split_ifs
  · refine blind_bind (overlooks_getColor fun c _ => ?_)
    split_ifs
    · refine blind_bind (overlooks_getParent fun a _ => ?_)
      refine blind_bind (overlooks_getChild hb fun q _ _ => ?_)
      split_ifs
      · exact blind_bind (overlooks_deleteFixupBody hb fun x' s' hb' => blind_pure (hQ _ s' hb'))
      · exact blind_bind (overlooks_deleteFixupBody hb fun x' s' hb' => blind_pure (hQ _ s' hb'))
    · exact blind_pure (hQ _ s hb)
  · exact blind_pure (hQ _ s hb)

theorem overlooks_rbtreeDeleteFixup (hb : Bare p s) (hQ : ∀ s', Bare p s' → Q () s') :
    Overlooks h p (rbtreeDeleteFixup x) s Q := by
  refine blind_bind (blind_whileLoop (fun _ s' => Bare p s') (fun a s' hb' => ?_) hb)
  refine overlooks_deleteFixupStep hb' fun r s'' hb'' => ?_
  cases r with
  | inl x' => exact hb''
  | inr x' => exact overlooks_setColor hb'' hQ

theorem overlooks_deleteVictim (hb : Bare p s) {Q : Nat → State → Prop} (hQ : ∀ y, Q y s) :
    Overlooks h p (deleteVictim z) s Q := by
  refine blind_bind (overlooks_getNil hb ?_)
  refine blind_bind (overlooks_getChild hb fun l _ _ => ?_)
  split_ifs
  · exact blind_pure (hQ z)
  · refine blind_bind (overlooks_getChild hb fun r _ _ => ?_)
    split_ifs
    · exact blind_pure (hQ z)
    · exact overlooks_rbtreeSuccessor hb hQ

theorem overlooks_deleteChild (hb : Bare p s) {Q : Nat → State → Prop} (hQ : ∀ x, Q x s) :
    Overlooks h p (deleteChild y) s Q := by
  refine blind_bind (overlooks_getNil hb ?_)
  refine blind_bind (overlooks_getChild hb fun l _ _ => ?_)
  split_ifs
  · exact overlooks_getChild hb fun q _ _ => hQ q
  · refine blind_bind (overlooks_getChild hb fun r _ _ => ?_)
    split_ifs
    · exact overlooks_getChild hb fun q _ _ => hQ q
    · exact blind_pure (hQ p)

theorem overlooks_swapData (hb : Bare p s) (hQ : ∀ s', Bare p s' → Q () s') :
    Overlooks h p (swapData z y) s Q := by
  refine blind_bind (overlooks_getKey hb fun k hk => ?_)
  refine blind_bind (overlooks_getKey hb fun k' hk' => ?_)
  refine blind_bind (overlooks_setKey hb hk' fun s₁ hb₁ => ?_)
  refine blind_bind (overlooks_setKey hb₁ hk fun s₂ hb₂ => ?_)
  refine blind_bind (overlooks_getValue hb₂ fun v hz hv => ?_)
  refine blind_bind (overlooks_getValue hb₂ fun v' hy hv' => ?_)
  refine blind_bind (overlooks_setValue hb₂ hz hv' fun s₃ hb₃ => ?_)
  exact overlooks_setValue hb₃ hy hv hQ

theorem overlooks_deleteSplice (hb : Bare p s) {Q : Nat × Nat → State → Prop}
    (hQ : ∀ r s', Bare p s' → Q r s') : Overlooks h p (deleteSplice z) s Q := by
  refine blind_bind (overlooks_deleteVictim hb fun y => ?_)
  refine blind_bind (overlooks_deleteChild hb fun x => ?_)
  refine blind_bind (overlooks_getParent fun a _ => ?_)
  refine blind_bind (overlooks_setParent hb fun s₁ hb₁ => ?_)
  refine blind_bind (overlooks_relink hb₁ fun s₂ hb₂ => ?_)
  split_ifs
  · exact blind_bind (overlooks_swapData hb₂ fun s₃ hb₃ => blind_pure (hQ _ s₃ hb₃))
  · exact blind_pure (hQ _ s₂ hb₂)

theorem overlooks_rbtreeDelete (hb : Bare p s) {Q : Nat → State → Prop}
    (hQ : ∀ y s', Bare p s' → Q y s') : Overlooks h p (rbtreeDelete z) s Q := by
  refine blind_bind (overlooks_deleteSplice hb fun r s₁ hb₁ => ?_)
  refine blind_bind (overlooks_getColor fun c _ => ?_)
  split_ifs
  · exact blind_bind (overlooks_rbtreeDeleteFixup hb₁ fun s₂ hb₂ => blind_pure (hQ _ s₂ hb₂))
  · exact blind_pure (hQ _ s₁ hb₁)

end Repairs

/-! ## The engine interface -/

section Engine

variable {h : Hidden} {s : State} {p : Nat}

theorem overlooks_kvsRbtreeSet (hb : Bare p s) (alloc : AllocPlan) (key value : Option CStr)
    {Q : Int → State → Prop} (hQ : ∀ r s', Bare p s' → Q r s') :
    Overlooks h p (kvsRbtreeSet alloc key value) s Q := by
  refine blind_bind (overlooks_mallocNode hb (alloc 0) fun z s₁ hb₁ hz => ?_)
  split_ifs
  · exact blind_pure (hQ _ s₁ hb₁)
  refine blind_bind (blind_argStr fun k => ?_)
  refine blind_bind (overlooks_mallocStr hb₁ (alloc 1) _ fun kp s₂ hb₂ hkp => ?_)
  refine blind_bind (overlooks_setKey hb₂ hkp fun s₃ hb₃ => ?_)
  refine blind_bind (overlooks_getKey hb₃ fun k₁ _ => ?_)
  split_ifs
  · exact blind_bind (overlooks_free hb₃ hz fun s₄ hb₄ => blind_pure (hQ _ s₄ hb₄))
  refine blind_bind (overlooks_getKey hb₃ fun k₂ _ => ?_)
  refine blind_bind (overlooks_memsetZero hb₃ fun s₄ hb₄ => ?_)
  refine blind_bind (overlooks_getKey hb₄ fun k₃ _ => ?_)
  refine blind_bind (overlooks_strcpy hb₄ fun s₅ hb₅ => ?_)
  refine blind_bind (blind_argStr fun v => ?_)
  refine blind_bind (overlooks_mallocStr hb₅ (alloc 2) _ fun vp s₆ hb₆ hvp => ?_)
  refine blind_bind (overlooks_setValue hb₆ hz hvp fun s₇ hb₇ => ?_)
  refine blind_bind (overlooks_getValue hb₇ fun v₁ _ _ => ?_)
  split_ifs
  · refine blind_bind (overlooks_getKey hb₇ fun k₄ hk₄ => ?_)
    refine blind_bind (overlooks_free hb₇ hk₄ fun s₈ hb₈ => ?_)
    exact blind_bind (overlooks_free hb₈ hz fun s₉ hb₉ => blind_pure (hQ _ s₉ hb₉))
  refine blind_bind (overlooks_getValue hb₇ fun v₂ _ _ => ?_)
  refine blind_bind (overlooks_memsetZero hb₇ fun s₈ hb₈ => ?_)
  refine blind_bind (overlooks_getValue hb₈ fun v₃ _ _ => ?_)
  refine blind_bind (overlooks_strcpy hb₈ fun s₉ hb₉ => ?_)
  refine blind_bind (overlooks_rbtreeInsert hb₉ hz fun s' hb' => ?_)
  exact blind_bind (blind_writeDesc (blind_pure (hQ _ _ (hb'.modDesc rfl))))

theorem overlooks_kvsRbtreeGet (hb : Bare p s) (key : Option CStr)
    (hQ : ∀ r, Q r s) : Overlooks h p (kvsRbtreeGet key) s Q := by
  refine blind_bind (overlooks_rbtreeSearch hb fun node => ?_)
  refine blind_bind (overlooks_getNil hb ?_)
  split_ifs
  · exact blind_pure (hQ 0)
  · exact overlooks_getValue hb fun v _ _ => hQ v

theorem overlooks_kvsRbtreeDelete (hb : Bare p s) (key : Option CStr) {Q : Int → State → Prop}
    (hQ : ∀ r s', Bare p s' → Q r s') : Overlooks h p (kvsRbtreeDelete key) s Q := by
  refine blind_bind (overlooks_rbtreeSearch hb fun node => ?_)
  refine blind_bind (overlooks_getNil hb ?_)
  split_ifs
  · exact blind_pure (hQ _ s hb)
  refine blind_bind (overlooks_rbtreeDelete hb fun cur s₁ hb₁ => ?_)
  have hrest : ∀ s₂, Bare p s₂ → Overlooks h p (do
      writeDesc (Tree.addCount (-1))
      return 0) s₂ Q := by
    intro s₂ hb₂
    exact blind_bind (blind_writeDesc (blind_pure (hQ _ _ (hb₂.modDesc rfl))))
  split_ifs with hcur
  · have hne : cur ≠ p := hcur ▸ hb.ne_null.symm
    refine blind_bind (overlooks_getKey hb₁ fun k hk => ?_)
    refine blind_bind (overlooks_free hb₁ hk fun s₂ hb₂ => ?_)
    refine blind_bind (overlooks_getValue hb₂ fun v _ hv => ?_)
    refine blind_bind (overlooks_free hb₂ hv fun s₃ hb₃ => ?_)
    exact blind_bind (overlooks_free hb₃ hne hrest)
  · exact hrest s₁ hb₁

theorem overlooks_kvsRbtreeModify (hb : Bare p s) (alloc : AllocPlan) (key value : Option CStr)
    {Q : Int → State → Prop} (hQ : ∀ r s', Bare p s' → Q r s') :
    Overlooks h p (kvsRbtreeModify alloc key value) s Q := by
  refine blind_bind (overlooks_rbtreeSearch hb fun node => ?_)
  refine blind_bind (overlooks_getNil hb ?_)
  split_ifs
  · exact blind_pure (hQ _ s hb)
  refine blind_bind (overlooks_getValue hb fun tmp hnode htmp => ?_)
  refine blind_bind (overlooks_free hb htmp fun s₁ hb₁ => ?_)
  refine blind_bind (blind_argStr fun v => ?_)
  refine blind_bind (overlooks_mallocStr hb₁ (alloc 0) _ fun vp s₂ hb₂ hvp => ?_)
  refine blind_bind (overlooks_setValue hb₂ hnode hvp fun s₃ hb₃ => ?_)
  refine blind_bind (overlooks_getValue hb₃ fun v₁ _ _ => ?_)
  split_ifs
  · exact blind_pure (hQ _ s₃ hb₃)
  refine blind_bind (overlooks_getValue hb₃ fun v₂ _ _ => ?_)
  exact blind_bind (overlooks_strcpy hb₃ fun s₄ hb₄ => blind_pure (hQ _ s₄ hb₄))

theorem overlooks_call (hb : Bare p s) (c : AllocPlan × Op) :
    Overlooks h p (call c.1 c.2) s fun _ s' => Bare p s' := by
  obtain ⟨alloc, o⟩ := c
  cases o with
  | set k v =>
      exact blind_bind (overlooks_kvsRbtreeSet hb alloc _ _ fun r s' hb' => blind_pure hb')
  | get k =>
      refine blind_bind (overlooks_kvsRbtreeGet hb _ fun r => blind_bind ?_)
      unfold deref
      split_ifs
      · exact blind_pure (blind_pure hb)
      · exact blind_bind (blind_readStr fun v => blind_pure (blind_pure hb))
  | delete k => exact blind_bind (overlooks_kvsRbtreeDelete hb _ fun r s' hb' => blind_pure hb')
  | modify k v =>
      exact blind_bind (overlooks_kvsRbtreeModify hb alloc _ _ fun r s' hb' => blind_pure hb')

end Engine

/-! ## Every run -/

/-- **The uninitialised fields of the sentinel are never read.** Every run of calls from
`kvstore_rbtree_create` returns, where a read of a field that has not been written would have been a
fault, and at its end the children and the value of the sentinel are still unwritten; with any other
contents in them the run is the same and leaves them as they are. It rests on what every part of the
code needs in order to return in such a memory: an iteration of `rbtree_insert_fixup` with a red
parent needs a grandparent, a look at the children of the sibling in `rbtree_delete_fixup`, or at
any others, needs a node to have them, and a rotation needs a pivot, other than the sentinel. -/
theorem sentinel_unread :
    (∀ cs : List (AllocPlan × Op), ∃ rs s',
      (runAll (fun c => call c.1 c.2) cs).run created = .ok (rs, s') ∧
        (∀ d, childAt s' d s'.desc.nil = none) ∧ valueAt s' s'.desc.nil = none ∧
        Bare s'.desc.nil s' ∧
        ∀ h : Hidden,
          (runAll (fun c => call c.1 c.2) cs).run (h.put created) = .ok (rs, h.put s')) ∧
      ∀ p s, Bare p s →
        (∀ z, Returns (insertFixupStep z) s fun _ s' => Bare p s' ∧
          ∀ a, parentAt s z = some a → colorAt s a = some .red → ∃ g,
            parentAt s a = some g ∧ g ≠ p) ∧
        (∀ x, Returns (deleteFixupStep x) s fun _ s' => Bare p s') ∧
        (∀ w, Returns (bothBlack w) s fun _ _ => w ≠ p) ∧
        (∀ d q, Returns (getChild d q) s fun _ _ => q ≠ p) ∧
        (∀ d x, Returns (rotate d x) s fun _ s' => Bare p s' ∧
          ∃ y, childAt s d.flip x = some y ∧ y ≠ p) := by
  refine ⟨fun cs => ?_, fun p s hb => ?_⟩
  · obtain ⟨rs, s', hrun, -⟩ := ok_calls cs
    have hblind : ∀ h : Hidden, Overlooks h 1 (runAll (fun c => call c.1 c.2) cs) created
        fun _ s'' => Bare 1 s'' :=
      fun h => Blind.runAll (fun c s hb => overlooks_call hb c) cs bare_created
    have hb : Bare 1 s' := (hblind ⟨none, none, none⟩).returns rs s' hrun
    have hnil : s'.desc.nil = 1 := hb.nil
    refine ⟨rs, s', hrun, ?_, ?_, ?_, fun h => ?_⟩
    · rw [hnil]
      exact hb.childAt_eq_none
    · rw [hnil]
      exact hb.valueAt_eq_none
    · rwa [hnil]
    · rw [Hidden.put, Hidden.put, hnil]
      exact (hblind h rs s' hrun).2
  · have hany : Hidden := ⟨none, none, none⟩
    refine ⟨fun z => ?_, fun x => ?_, fun w => ?_, fun d q => ?_, fun d x => ?_⟩
    · exact (overlooks_insertFixupStep (h := hany) hb fun _ _ hb' hg => ⟨hb', hg⟩).returns
    · exact (overlooks_deleteFixupStep (h := hany) hb fun _ _ hb' => hb').returns
    · exact (overlooks_bothBlack (h := hany) hb fun _ hw => hw).returns
    · exact (overlooks_getChild (h := hany) hb fun _ hq _ => hq).returns
    · exact (overlooks_rotate (h := hany) hb fun _ hb' hy => ⟨hb', hy⟩).returns

end KvStore.Rbtree
