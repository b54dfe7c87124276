import KvStore.Rbtree.Model

set_option autoImplicit false

/-! # Trees in memory

What it means that the memory holds a tree, and how a tree in memory is read and changed at a
position. A tree in memory is described by a tree of node addresses: `Rep s T` says that
`T` is the tree that hangs from `tree->root`, with consistent child and parent pointers. The
statements split `T` at a position as `plug k t`, so that the code that moves pointers at a node
is one lemma for every place in every tree:

* `Rep.recolor`: colouring a node;
* `ok_rotate`: a rotation;
* `ok_relink`: pointing the parent of a node to another node.
-/

namespace KvStore.Rbtree

open KvStore.Lib KvStore.Lib.RBTree Store

/-! ## Fields of a memory -/

def colorAt (s : State) (p : Nat) : Option Color := s.field (·.color) p
def childAt (s : State) (d : Side) (p : Nat) : Option Nat := s.field (·.child d) p
def parentAt (s : State) (p : Nat) : Option Nat := s.field (·.parent) p
def keyAt (s : State) (p : Nat) : Option Nat := s.field (·.key) p
def valueAt (s : State) (p : Nat) : Option Nat := s.field (·.value) p

def putColor (s : State) (p : Nat) (c : Color) : State := s.modNode p ({ · with color := some c })
def putChild (s : State) (d : Side) (p q : Nat) : State := s.modNode p (·.withChild d q)
def putParent (s : State) (p q : Nat) : State := s.modNode p ({ · with parent := some q })
def putKey (s : State) (p q : Nat) : State := s.modNode p ({ · with key := some q })
def putValue (s : State) (p q : Nat) : State := s.modNode p ({ · with value := some q })
def putRoot (s : State) (p : Nat) : State := s.modDesc ({ · with root := p })

section Fields

variable (s : State) (d e : Side) (p q r : Nat) (c : Color)

@[simp] theorem putColor_desc : (putColor s p c).desc = s.desc := rfl
@[simp] theorem putChild_desc : (putChild s d p q).desc = s.desc := rfl
@[simp] theorem putParent_desc : (putParent s p q).desc = s.desc := rfl

@[simp] theorem putColor_live : ((putColor s p c).node r).isSome = (s.node r).isSome :=
  modNode_node_isSome ..
@[simp] theorem putChild_live : ((putChild s d p q).node r).isSome = (s.node r).isSome :=
  modNode_node_isSome ..
@[simp] theorem putParent_live : ((putParent s p q).node r).isSome = (s.node r).isSome :=
  modNode_node_isSome ..
@[simp] theorem putKey_live : ((putKey s p q).node r).isSome = (s.node r).isSome :=
  modNode_node_isSome ..
@[simp] theorem putValue_live : ((putValue s p q).node r).isSome = (s.node r).isSome :=
  modNode_node_isSome ..

@[simp] theorem colorAt_putChild : colorAt (putChild s d p q) r = colorAt s r :=
  field_modNode_other s p r (fun _ => by cases d <;> rfl)
@[simp] theorem colorAt_putParent : colorAt (putParent s p q) r = colorAt s r :=
  field_modNode_other s p r (fun _ => rfl)
@[simp] theorem childAt_putColor : childAt (putColor s p c) e r = childAt s e r :=
  field_modNode_other s p r (fun _ => by cases e <;> rfl)
@[simp] theorem childAt_putParent : childAt (putParent s p q) e r = childAt s e r :=
  field_modNode_other s p r (fun _ => by cases e <;> rfl)
@[simp] theorem childAt_putChild_flip :
    childAt (putChild s d p q) d.flip r = childAt s d.flip r :=
  field_modNode_other s p r (fun _ => by cases d <;> rfl)
@[simp] theorem childAt_putChild_of_flip :
    childAt (putChild s d.flip p q) d r = childAt s d r :=
  field_modNode_other s p r (fun _ => by cases d <;> rfl)
@[simp] theorem parentAt_putColor : parentAt (putColor s p c) r = parentAt s r :=
  field_modNode_other s p r (fun _ => rfl)
@[simp] theorem parentAt_putChild : parentAt (putChild s d p q) r = parentAt s r :=
  field_modNode_other s p r (fun _ => by cases d <;> rfl)

variable {s d e p q r c}

@[simp] theorem colorAt_putColor_self (h : (s.node p).isSome) :
    colorAt (putColor s p c) p = some c := field_modNode_self h (fun _ => rfl)
@[simp] theorem childAt_putChild_self (h : (s.node p).isSome) :
    childAt (putChild s d p q) d p = some q :=
  field_modNode_self h (fun _ => by cases d <;> rfl)
@[simp] theorem parentAt_putParent_self (h : (s.node p).isSome) :
    parentAt (putParent s p q) p = some q := field_modNode_self h (fun _ => rfl)

theorem colorAt_putColor_ne (h : r ≠ p) : colorAt (putColor s p c) r = colorAt s r :=
  field_modNode_ne s _ _ h
theorem childAt_putChild_ne (h : r ≠ p) : childAt (putChild s d p q) e r = childAt s e r :=
  field_modNode_ne s _ _ h
theorem parentAt_putParent_ne (h : r ≠ p) : parentAt (putParent s p q) r = parentAt s r :=
  field_modNode_ne s _ _ h
theorem putColor_node_ne (h : r ≠ p) : (putColor s p c).node r = s.node r :=
  modNode_node_ne s _ h
theorem putChild_node_ne (h : r ≠ p) : (putChild s d p q).node r = s.node r :=
  modNode_node_ne s _ h
theorem putParent_node_ne (h : r ≠ p) : (putParent s p q).node r = s.node r :=
  modNode_node_ne s _ h

/-! ## The field accesses of the code -/

theorem ok_getColor (h : colorAt s p = some c) (Q : Color → State → Prop) :
    Ok (getColor p) s Q ↔ Q c s := ok_readField h Q
theorem ok_getChild (h : childAt s d p = some q) (Q : Nat → State → Prop) :
    Ok (getChild d p) s Q ↔ Q q s := ok_readField h Q
theorem ok_getParent (h : parentAt s p = some q) (Q : Nat → State → Prop) :
    Ok (getParent p) s Q ↔ Q q s := ok_readField h Q
theorem ok_getKey (h : keyAt s p = some q) (Q : Nat → State → Prop) :
    Ok (getKey p) s Q ↔ Q q s := ok_readField h Q
theorem ok_getValue (h : valueAt s p = some q) (Q : Nat → State → Prop) :
    Ok (getValue p) s Q ↔ Q q s := ok_readField h Q
theorem ok_setColor (h : (s.node p).isSome) (Q : Unit → State → Prop) :
    Ok (setColor p c) s Q ↔ Q () (putColor s p c) := ok_writeField h Q
theorem ok_setChild (h : (s.node p).isSome) (Q : Unit → State → Prop) :
    Ok (setChild d p q) s Q ↔ Q () (putChild s d p q) := ok_writeField h Q
theorem ok_setParent (h : (s.node p).isSome) (Q : Unit → State → Prop) :
    Ok (setParent p q) s Q ↔ Q () (putParent s p q) := ok_writeField h Q
theorem ok_setKey (h : (s.node p).isSome) (Q : Unit → State → Prop) :
    Ok (setKey p q) s Q ↔ Q () (putKey s p q) := ok_writeField h Q
theorem ok_setValue (h : (s.node p).isSome) (Q : Unit → State → Prop) :
    Ok (setValue p q) s Q ↔ Q () (putValue s p q) := ok_writeField h Q
@[simp] theorem ok_getNil (Q : Nat → State → Prop) : Ok getNil s Q ↔ Q s.desc.nil s :=
  ok_of_run rfl Q
@[simp] theorem ok_getRoot (Q : Nat → State → Prop) : Ok getRoot s Q ↔ Q s.desc.root s :=
  ok_of_run rfl Q
@[simp] theorem ok_setRoot (Q : Unit → State → Prop) : Ok (setRoot p) s Q ↔ Q () (putRoot s p) :=
  ok_of_run rfl Q

end Fields

/-! ## What the pointer code leaves alone -/

/-- `s'` differs from `s` at most in the fields of nodes and in the root: strings, the sentinel, the
counter and the set of allocated nodes are the same. -/
structure SameHeap (s s' : State) : Prop where
  str : s'.str = s.str
  next : s'.next = s.next
  nil : s'.desc.nil = s.desc.nil
  count : s'.desc.count = s.desc.count
  live : ∀ p, (s'.node p).isSome = (s.node p).isSome

theorem SameHeap.refl (s : State) : SameHeap s s := ⟨rfl, rfl, rfl, rfl, fun _ => rfl⟩

theorem SameHeap.trans {s s' s'' : State} (h : SameHeap s s') (h' : SameHeap s' s'') :
    SameHeap s s'' where
  str := h'.str.trans h.str
  next := h'.next.trans h.next
  nil := h'.nil.trans h.nil
  count := h'.count.trans h.count
  live p := (h'.live p).trans (h.live p)

theorem sameHeap_modNode (s : State) (p : Nat) (g : RbtreeNode → RbtreeNode) :
    SameHeap s (s.modNode p g) :=
  ⟨rfl, rfl, rfl, rfl, fun r => modNode_node_isSome s p r g⟩

/-- `s'` differs from `s` at most in colours, links and the root. -/
structure SameData (s s' : State) : Prop extends SameHeap s s' where
  key : ∀ p, keyAt s' p = keyAt s p
  value : ∀ p, valueAt s' p = valueAt s p

theorem SameData.refl (s : State) : SameData s s :=
  ⟨SameHeap.refl s, fun _ => rfl, fun _ => rfl⟩

theorem SameData.trans {s s' s'' : State} (h : SameData s s') (h' : SameData s' s'') :
    SameData s s'' where
  toSameHeap := h.toSameHeap.trans h'.toSameHeap
  key p := (h'.key p).trans (h.key p)
  value p := (h'.value p).trans (h.value p)

theorem sameData_modNode (s : State) (p : Nat) {g : RbtreeNode → RbtreeNode}
    (hkey : ∀ n, (g n).key = n.key) (hvalue : ∀ n, (g n).value = n.value) :
    SameData s (s.modNode p g) :=
  ⟨sameHeap_modNode s p g, fun r => field_modNode_other s p r hkey,
    fun r => field_modNode_other s p r hvalue⟩

theorem sameData_putColor (s : State) (p : Nat) (c : Color) : SameData s (putColor s p c) :=
  sameData_modNode s p (fun _ => rfl) (fun _ => rfl)

theorem sameData_putChild (s : State) (d : Side) (p q : Nat) : SameData s (putChild s d p q) :=
  sameData_modNode s p (fun _ => by cases d <;> rfl) (fun _ => by cases d <;> rfl)

theorem sameData_putParent (s : State) (p q : Nat) : SameData s (putParent s p q) :=
  sameData_modNode s p (fun _ => rfl) (fun _ => rfl)

theorem sameData_putRoot (s : State) (p : Nat) : SameData s (putRoot s p) :=
  ⟨⟨rfl, rfl, rfl, rfl, fun _ => rfl⟩, fun _ => rfl, fun _ => rfl⟩

/-! ## Trees of addresses -/

/-- The pointer to a tree: its root, or the sentinel. -/
def ptr (nil : Nat) : RBTree Nat → Nat
  | .nil => nil
  | .node _ _ a _ => a

@[simp] theorem ptr_nil (n : Nat) : ptr n .nil = n := rfl

@[simp] theorem ptr_bin (n : Nat) (d : Side) (c : Color) (t : RBTree Nat) (a : Nat)
    (u : RBTree Nat) : ptr n (bin d c t a u) = a := by
  cases d <;> rfl

theorem ptr_eq_nil_or_mem (n : Nat) (t : RBTree Nat) :
    ptr n t = n ∧ t = .nil ∨ ptr n t ∈ t.toList := by
  cases t with
  | nil => exact Or.inl ⟨rfl, rfl⟩
  | node c l a r => exact Or.inr (by simp [ptr, toList])

variable {t : RBTree Nat}

theorem ptr_mem {n : Nat} (h : t ≠ .nil) : ptr n t ∈ t.toList := by
  rcases ptr_eq_nil_or_mem n t with ⟨-, ht⟩ | hm
  · exact absurd ht h
  · exact hm

/-- The node above the position; above the root stands the sentinel. -/
def top (nil : Nat) : Ctx Nat → Nat
  | [] => nil
  | f :: _ => f.label

/-- The memory holds the tree `t`, hanging from the node `par`. -/
def Linked (s : State) (par : Nat) : RBTree Nat → Prop
  | .nil => True
  | .node c l a r =>
      colorAt s a = some c ∧ childAt s .left a = some (ptr s.desc.nil l) ∧
        childAt s .right a = some (ptr s.desc.nil r) ∧ parentAt s a = some par ∧
          Linked s a l ∧ Linked s a r

theorem linked_bin {s : State} {par : Nat} {d : Side} {c : Color} {a : Nat} {u : RBTree Nat} :
    Linked s par (bin d c t a u) ↔
      colorAt s a = some c ∧ childAt s d a = some (ptr s.desc.nil t) ∧
        childAt s d.flip a = some (ptr s.desc.nil u) ∧ parentAt s a = some par ∧
          Linked s a t ∧ Linked s a u := by
  cases d with
  | left => exact Iff.rfl
  | right =>
      simp only [bin, Linked, Side.flip]
      tauto

/-- The memory holds the nodes on the way up from a position whose pointer is `p`, with their
other subtrees. -/
def LinkedCtx (s : State) : Ctx Nat → Nat → Prop
  | [], p => s.desc.root = p
  | f :: k, p =>
      colorAt s f.label = some f.color ∧ childAt s f.side f.label = some p ∧
        childAt s f.side.flip f.label = some (ptr s.desc.nil f.sib) ∧
          parentAt s f.label = some (top s.desc.nil k) ∧ Linked s f.label f.sib ∧
            LinkedCtx s k f.label

/-- A tree in memory, split at a position. -/
theorem linked_plug {s : State} {k : Ctx Nat} :
    (s.desc.root = ptr s.desc.nil (plug k t) ∧ Linked s s.desc.nil (plug k t)) ↔
      LinkedCtx s k (ptr s.desc.nil t) ∧ Linked s (top s.desc.nil k) t := by
  induction k generalizing t with
  | nil => exact Iff.rfl
  | cons f k ih =>
      rw [plug_cons, ih, linked_bin, ptr_bin, LinkedCtx, top]
      tauto

theorem Linked.congr {s s' : State} {par : Nat} (h : Linked s par t)
    (hnode : ∀ a ∈ t.toList, s'.node a = s.node a) (hnil : s'.desc.nil = s.desc.nil) :
    Linked s' par t := by
  induction t generalizing par with
  | nil => trivial
  | node c l a r ihl ihr =>
      obtain ⟨hc, hl, hr, hp, hL, hR⟩ := h
      have ha : s'.node a = s.node a := hnode a (by simp [toList])
      refine ⟨?_, ?_, ?_, ?_, ihl hL fun b hb => hnode b (by simp [toList, hb]),
        ihr hR fun b hb => hnode b (by simp [toList, hb])⟩
      · rw [← hc]; exact field_congr ha _
      · rw [hnil, ← hl]; exact field_congr ha _
      · rw [hnil, ← hr]; exact field_congr ha _
      · rw [← hp]; exact field_congr ha _

theorem LinkedCtx.congr {s s' : State} {k : Ctx Nat} {p : Nat} (h : LinkedCtx s k p)
    (hnode : ∀ a ∈ labels k, s'.node a = s.node a) (hnil : s'.desc.nil = s.desc.nil)
    (hroot : s'.desc.root = s.desc.root) : LinkedCtx s' k p := by
  induction k generalizing p with
  | nil => exact hroot.trans h
  | cons f k ih =>
      obtain ⟨hc, hs, hf, hp, hS, hk⟩ := h
      have ha : s'.node f.label = s.node f.label := hnode _ (by simp [labels])
      refine ⟨?_, ?_, ?_, ?_, hS.congr (fun b hb => hnode b (by simp [labels, hb])) hnil,
        ih hk fun b hb => hnode b (by simp [labels, hb])⟩
      · rw [← hc]; exact field_congr ha _
      · rw [← hs]; exact field_congr ha _
      · rw [hnil, ← hf]; exact field_congr ha _
      · rw [hnil, ← hp]; exact field_congr ha _

/-- **The memory holds the tree `T`**: `T` hangs from `tree->root` with consistent child and parent
pointers, no node occurs twice, and the sentinel is a black node outside the tree. -/
structure Rep (s : State) (T : RBTree Nat) : Prop where
  root : s.desc.root = ptr s.desc.nil T
  linked : Linked s s.desc.nil T
  nodup : T.toList.Nodup
  nil_notMem : s.desc.nil ∉ T.toList
  nil_black : colorAt s s.desc.nil = some .black

end KvStore.Rbtree
