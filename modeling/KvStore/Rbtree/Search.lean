import KvStore.Lib.SearchTree
import KvStore.Rbtree.Insert
import KvStore.Rbtree.Remove

set_option autoImplicit false

/-! # `rbtree_search` and `rbtree_insert` on trees in memory

Both walk down from the root and compare keys. The loops keep the position they are at as a zipper
with the key between what is left and what is right of it (`Between`), so a walk that ends at the
sentinel has shown that the key is not in the tree, and has found the place where it belongs.
-/

namespace KvStore.Rbtree

open KvStore.Lib KvStore.Lib.RBTree

/-! ## Keys -/

/-- The key string of a node. -/
def keyOf (s : State) (p : Nat) : CStr := ((keyAt s p).bind s.cstr).getD default

/-- The node has a key string. -/
def Keyed (s : State) (p : Nat) : Prop := ∃ q, keyAt s p = some q ∧ s.cstr q = some (keyOf s p)

variable {T : RBTree Nat} {s : State} {k : Ctx Nat} {x : CStr}

theorem keyed_of_cstr {p q : Nat} (hq : keyAt s p = some q)
    (hx : s.cstr q = some x) : Keyed s p ∧ keyOf s p = x := by
  have : keyOf s p = x := by simp [keyOf, hq, hx]
  exact ⟨⟨q, hq, by rw [hx, this]⟩, this⟩

theorem SameData.keyOf {s' : State} (h : SameData s s') (p : Nat) : keyOf s' p = keyOf s p := by
  have hstr : s'.cstr = s.cstr := funext fun q => Store.cstr_congr (by rw [h.str])
  rw [Rbtree.keyOf, Rbtree.keyOf, h.key, hstr]

theorem SameData.keyed {s' : State} (h : SameData s s') {p : Nat} (hp : Keyed s p) :
    Keyed s' p := by
  obtain ⟨q, hq, hx⟩ := hp
  exact ⟨q, (h.key p).trans hq, by rw [h.keyOf, ← hx]; exact Store.cstr_congr (by rw [h.str])⟩

/-- The tree in memory is in search order. -/
structure Ordered (s : State) (T : RBTree Nat) : Prop where
  keyed : ∀ a ∈ T.toList, Keyed s a
  sorted : T.IsSearchTree (keyOf s)

theorem ok_strcmpKeys {a b : Nat} (ha : Keyed s a) (hb : Keyed s b) (Q : Int → State → Prop) :
    Ok (strcmpKeys a b) s Q ↔ Q (CStr.strcmp (keyOf s a) (keyOf s b)) s := by
  obtain ⟨p, hp, hpx⟩ := ha
  obtain ⟨q, hq, hqx⟩ := hb
  unfold strcmpKeys
  simp only [ok_bind]
  rw [ok_getKey hp, ok_readStr hpx, ok_getKey hq, ok_readStr hqx, ok_pure]

/-! ## Search -/

/-- The invariant of a walk down the tree `T` with the key `x`: at the position `i`, in the
unchanged memory. -/
structure Walk (s₀ : State) (T : RBTree Nat) (x : CStr) (i : Ctx Nat × RBTree Nat) (p : Nat)
    (s : State) : Prop where
  same : s = s₀
  plug_eq : T = plug i.1 i.2
  ptr_eq : p = ptr s.desc.nil i.2
  between : Between (keyOf s) i.1 x

theorem Walk.start (h : Rep s T) (x : CStr) :
    Walk s T x ([], T) s.desc.root s := ⟨rfl, rfl, h.root, between_root _ x⟩

/-- Where a walk goes from a node. -/
theorem Walk.step {s₀ : State} {c : Color}
    {l r : RBTree Nat} {a p : Nat} (h : Walk s₀ T x (k, node c l a r) p s) (ho : Ordered s T) :
    (x < keyOf s a → Walk s₀ T x (⟨.left, c, a, r⟩ :: k, l) (ptr s.desc.nil l) s) ∧
      (keyOf s a < x → Walk s₀ T x (⟨.right, c, a, l⟩ :: k, r) (ptr s.desc.nil r) s) := by
  have hsorted : (plug k (node c l a r)).IsSearchTree (keyOf s) := h.plug_eq ▸ ho.sorted
  exact ⟨fun hx => ⟨h.same, h.plug_eq, rfl, h.between.left hsorted hx⟩,
    fun hx => ⟨h.same, h.plug_eq, rfl, h.between.right hsorted hx⟩⟩

theorem Walk.mem {s₀ : State} {c : Color}
    {l r : RBTree Nat} {a p : Nat} (h : Walk s₀ T x (k, node c l a r) p s) : a ∈ T.toList := by
  have hplug := h.plug_eq
  dsimp only at hplug
  rw [hplug, toList_plug]
  simp [toList]

theorem Walk.absent {s₀ : State} {p : Nat}
    (h : Walk s₀ T x (k, nil) p s) : ∀ a ∈ T.toList, keyOf s a ≠ x := by
  intro a ha
  rw [h.plug_eq] at ha
  exact h.between.not_mem ha

theorem ok_searchStep {s₀ : State} {i : Ctx Nat × RBTree Nat}
    {p : Nat} (h : Walk s₀ T x i p s) (hT : Rep s T) (ho : Ordered s T)
    {Q : Nat ⊕ Nat → State → Prop}
    (hnext : ∀ i' p', Walk s₀ T x i' p' s → i'.2.toList.length < i.2.toList.length → Q (.inl p') s)
    (hfound : ∀ a ∈ T.toList, keyOf s a = x → Q (.inr a) s)
    (hmiss : (∀ a ∈ T.toList, keyOf s a ≠ x) → Q (.inr s.desc.nil) s) :
    Ok (searchStep (some x) p) s Q := by
  obtain ⟨k, t⟩ := i
  unfold searchStep
  rw [ok_bind, ok_getNil, h.ptr_eq]
  cases t with
  | nil =>
      rw [if_neg (by simp), ok_bind, ok_getNil, ok_pure]
      exact hmiss h.absent
  | node c l a r =>
      have hrep : Rep s (plug k (bin .left c l a r)) := h.plug_eq ▸ hT
      obtain ⟨-, hl, hr, -, -, -⟩ := linked_bin.mp hrep.focus
      obtain ⟨q, hq, hqx⟩ := ho.keyed a h.mem
      have hptr : ptr s.desc.nil (node c l a r) = a := rfl
      dsimp only
      rw [hptr, if_pos hrep.ne_nil]
      simp only [ok_bind, ok_argStr_some]
      rw [ok_getKey hq, ok_readStr hqx]
      by_cases hlt : x < keyOf s a
      · rw [if_pos ((CStr.strcmp_neg_iff ..).mpr hlt), ok_bind, ok_getChild hl, ok_pure]
        exact hnext _ _ ((h.step ho).1 hlt) (by simp [toList])
      · rw [if_neg (fun hc => hlt ((CStr.strcmp_neg_iff ..).mp hc))]
        by_cases hgt : keyOf s a < x
        · rw [if_pos ((CStr.strcmp_pos_iff ..).mpr hgt), ok_bind, ok_getChild (d := .right) hr,
            ok_pure]
          exact hnext _ _ ((h.step ho).2 hgt) (by simp [toList]; omega)
        · rw [if_neg (fun hc => hgt ((CStr.strcmp_pos_iff ..).mp hc)), ok_pure]
          exact hfound a h.mem (le_antisymm (not_lt.mp hlt) (not_lt.mp hgt))

/-- **`rbtree_search`** finds the node with the key, or returns the sentinel when there is none. -/
theorem ok_rbtreeSearch (h : Rep s T) (ho : Ordered s T)
    (hbound : T.toList.length ≤ s.next) (x : CStr) {Q : Nat → State → Prop}
    (hfound : ∀ a ∈ T.toList, keyOf s a = x → Q a s)
    (hmiss : (∀ a ∈ T.toList, keyOf s a ≠ x) → Q s.desc.nil s) :
    Ok (rbtreeSearch (some x)) s Q := by
  unfold rbtreeSearch
  rw [ok_bind, ok_getRoot]
  refine Ok.whileLoop (Walk s T x) (fun i => i.2.toList.length) _ ?_ hbound (Walk.start h x)
  intro i p s' hw
  obtain rfl := hw.same
  exact ok_searchStep hw h ho (fun i' p' hw' hlt => ⟨i', hw', hlt⟩) hfound hmiss

/-! ## Insertion -/

/-- The memory after the node `z` has been hung as a red leaf at the position `k`. -/
def attached (s : State) (k : Ctx Nat) (z : Nat) : State :=
  putColor (putChild (putChild (putLink (putParent s z (top s.desc.nil k)) k z) .left z s.desc.nil)
    .right z s.desc.nil) z .red

theorem sameData_attached (s : State) (k : Ctx Nat) (z : Nat) : SameData s (attached s k z) :=
  ((((sameData_putParent ..).trans (sameData_putLink ..)).trans (sameData_putChild ..)).trans
    (sameData_putChild ..)).trans (sameData_putColor ..)

/-- **A new leaf** at an empty position. -/
theorem Rep.attach {z : Nat} (h : Rep s (plug k .nil))
    (hz : (s.node z).isSome) (hzk : z ∉ labels k) (hzn : z ≠ s.desc.nil) :
    Rep (attached s k z) (plug k (node .red .nil z .nil)) := by
  have hsep : (labels k).Nodup := by simpa [toList] using h.sep
  have hnilk : s.desc.nil ∉ labels k := by simpa [toList] using h.nil_sep
  have hnil' : (attached s k z).desc.nil = s.desc.nil := by simp [attached]
  have hkz : LinkedCtx (putLink (putParent s z (top s.desc.nil k)) k z) k z := by
    refine linkedCtx_putLink (h.ctx.congr (fun b hb => putParent_node_ne ?_) rfl rfl) hsep z
    rintro rfl
    exact hzk hb
  refine Rep.of_parts ?_ ⟨?_, ?_, ?_, ?_, trivial, trivial⟩ ?_ ?_ ?_
  · refine hkz.congr (fun b hb => ?_) rfl rfl
    have hbz : b ≠ z := by
      rintro rfl
      exact hzk hb
    rw [attached, putColor_node_ne hbz, putChild_node_ne hbz, putChild_node_ne hbz]
  · exact colorAt_putColor_self (by simpa using hz)
  · rw [hnil', attached, childAt_putColor]
    rw [show Side.right = Side.left.flip from rfl, childAt_putChild_of_flip,
      childAt_putChild_self (by simpa using hz), ptr_nil]
  · rw [hnil', attached, childAt_putColor, childAt_putChild_self (by simpa using hz), ptr_nil]
  · rw [hnil']
    simp [attached, hz]
  · simpa [toList, hzk] using hsep
  · rw [hnil']
    simpa [toList, hnilk] using hzn.symm
  · rw [hnil', attached, colorAt_putColor_ne hzn.symm]
    simpa using h.nil_black

theorem insertInv_leaf (h : (plug k .nil).IsRedBlack) (z : Nat) :
    InsertInv k (node .red .nil z .nil) := by
  obtain ⟨n, hk, hg, -⟩ := ctxOk_of_plug h
  rw [good_nil] at hg
  subst hg
  exact ⟨0, hk, good_red (d := .left) (by simp) (by simp) rfl rfl, rfl⟩

/-- The place where the walk of `rbtree_insert` ends. -/
theorem ok_descend {z : Nat} (h : Rep s T) (ho : Ordered s T)
    (hbound : T.toList.length ≤ s.next) (hz : Keyed s z) {Q : Option Nat → State → Prop}
    (hfound : (∃ a ∈ T.toList, keyOf s a = keyOf s z) → Q none s)
    (hmiss : ∀ k, T = plug k .nil → Between (keyOf s) k (keyOf s z) →
      Q (some (top s.desc.nil k)) s) :
    Ok (whileLoop (descendStep z) (s.desc.root, s.desc.nil)) s Q := by
  -- besides the walk, the loop remembers the node above
  refine Ok.whileLoop (fun i p s' => Walk s T (keyOf s z) i p.1 s' ∧ p.2 = top s'.desc.nil i.1)
    (fun i => i.2.toList.length) _ ?_ hbound ⟨Walk.start h _, rfl⟩
  rintro ⟨k, t⟩ ⟨p, y⟩ s' ⟨hw, hy⟩
  obtain rfl := hw.same
  obtain rfl := hw.ptr_eq
  dsimp only at hy ⊢
  subst hy
  unfold descendStep
  rw [ok_bind, ok_getNil]
  cases t with
  | nil =>
      rw [if_neg (by simp), ok_pure]
      exact hmiss k hw.plug_eq hw.between
  | node c l a r =>
      have hrep : Rep s' (plug k (bin .left c l a r)) := hw.plug_eq ▸ h
      obtain ⟨-, hl, hr, -, -, -⟩ := linked_bin.mp hrep.focus
      have ha := ho.keyed a hw.mem
      have hptr : ptr s'.desc.nil (node c l a r) = a := rfl
      dsimp only
      rw [hptr, if_pos hrep.ne_nil, ok_bind, ok_strcmpKeys hz ha]
      by_cases hlt : keyOf s' z < keyOf s' a
      · rw [if_pos ((CStr.strcmp_neg_iff ..).mpr hlt), ok_bind, ok_getChild hl, ok_pure]
        exact ⟨_, ⟨(hw.step ho).1 hlt, rfl⟩, by simp [toList]⟩
      · rw [if_neg (fun hc => hlt ((CStr.strcmp_neg_iff ..).mp hc)), ok_bind, ok_strcmpKeys hz ha]
        by_cases hgt : keyOf s' a < keyOf s' z
        · rw [if_pos ((CStr.strcmp_pos_iff ..).mpr hgt), ok_bind, ok_getChild (d := .right) hr,
            ok_pure]
          exact ⟨_, ⟨(hw.step ho).2 hgt, rfl⟩, by simp [toList]; omega⟩
        · rw [if_neg (fun hc => hgt ((CStr.strcmp_pos_iff ..).mp hc)), ok_pure]
          exact hfound ⟨a, hw.mem, le_antisymm (not_lt.mp hlt) (not_lt.mp hgt)⟩

/-- The part of `rbtree_insert` that links `z` below the last node of the walk. -/
theorem ok_insertLink {z p : Nat} (hk : LinkedCtx s k p)
    (hnil : s.desc.nil ∉ labels k) (hbet : Between (keyOf s) k (keyOf s z)) (hz : Keyed s z)
    (hkeys : ∀ a ∈ labels k, Keyed s a) {α : Type} {rest : Rb α} {Q : α → State → Prop}
    (hrest : Ok rest (putLink s k z) Q) :
    Ok (do
      if top s.desc.nil k = s.desc.nil then
        setRoot z
      else if (← strcmpKeys z (top s.desc.nil k)) < 0 then
        setChild .left (top s.desc.nil k) z
      else
        setChild .right (top s.desc.nil k) z
      rest) s Q := by
  dsimp only
  cases k with
  | nil =>
      rw [if_pos (show top s.desc.nil [] = s.desc.nil from rfl), ok_bind, ok_setRoot]
      exact hrest
  | cons f k =>
      obtain ⟨hc, -⟩ := hk
      have hf : f.label ∈ labels (f :: k) := by simp [labels]
      have htop : top s.desc.nil (f :: k) = f.label := rfl
      have hne : f.label ≠ s.desc.nil := by
        intro heq
        exact hnil (heq ▸ hf)
      have hlt := (CStr.strcmp_neg_iff (keyOf s z) (keyOf s f.label)).trans hbet.side_iff
      rw [htop, if_neg hne, ok_bind, ok_strcmpKeys hz (hkeys _ hf)]
      rw [putLink] at hrest
      cases hside : f.side with
      | left =>
          rw [if_pos (hlt.mpr hside), ok_bind, ok_setChild (Store.live_of_field hc), ← hside]
          exact hrest
      | right =>
          have hge : ¬CStr.strcmp (keyOf s z) (keyOf s f.label) < 0 := by
            intro hc
            rw [hlt.mp hc] at hside
            cases hside
          rw [if_neg hge, ok_bind, ok_setChild (Store.live_of_field hc), ← hside]
          exact hrest

/-- `rbtree_insert` hangs `z` into the tree as a red leaf at the place of its key, unless the key is
there. -/
theorem ok_insertPlace {z : Nat} (h : Rep s T) (ho : Ordered s T)
    (hbound : T.toList.length ≤ s.next) (hz : Keyed s z) (hzT : z ∉ T.toList) (hzn : z ≠ s.desc.nil)
    {Q : Bool → State → Prop} (hfound : (∃ a ∈ T.toList, keyOf s a = keyOf s z) → Q false s)
    (hnew : ∀ k, T = plug k .nil → Between (keyOf s) k (keyOf s z) →
      Rep (attached s k z) (plug k (node .red .nil z .nil)) → Q true (attached s k z)) :
    Ok (insertPlace z) s Q := by
  obtain ⟨q, hq, -⟩ := id hz
  have hlive : (s.node z).isSome := Store.live_of_field hq
  unfold insertPlace
  rw [ok_bind, ok_getNil, ok_bind, ok_getRoot, ok_bind]
  refine ok_descend h ho hbound hz (fun hf => (ok_pure ..).mpr (hfound hf)) ?_
  rintro k rfl hbet
  have hmem : ∀ a ∈ labels k, a ∈ (plug k (.nil : RBTree Nat)).toList := by
    intro a ha
    exact (toList_plug_perm k nil).mem_iff.mpr (by simpa [toList] using ha)
  have hzk : z ∉ labels k := fun hm => hzT (hmem z hm)
  have hsame := sameData_putParent s z (top s.desc.nil k)
  have hk : LinkedCtx (putParent s z (top s.desc.nil k)) k s.desc.nil := by
    refine h.ctx.congr (fun b hb => putParent_node_ne ?_) rfl rfl
    rintro rfl
    exact hzk hb
  have hkeyOf : keyOf (putParent s z (top s.desc.nil k)) = keyOf s := funext hsame.keyOf
  dsimp only
  rw [ok_bind, ok_setParent hlive]
  refine ok_insertLink hk (fun hm => h.nil_notMem (hmem _ hm)) (by rw [hkeyOf]; exact hbet)
    (hsame.keyed hz) (fun a ha => hsame.keyed (ho.keyed a (hmem a ha))) ?_
  simp only [ok_bind]
  rw [ok_setChild (by simpa using hlive), ok_setChild (by simpa using hlive),
    ok_setColor (by simpa using hlive), ok_pure]
  exact hnew k rfl hbet (h.attach hlive hzk hzn)

/-- **`rbtree_insert`** leaves the memory alone when the key of `z` is in the tree. Otherwise `z` is
a node of the tree afterwards, at the place of its key, and the tree is red-black again. -/
theorem ok_rbtreeInsert {z : Nat} (h : Rep s T) (hT : T.IsRedBlack)
    (ho : Ordered s T) (hbound : T.toList.length < s.next) (hz : Keyed s z) (hzT : z ∉ T.toList)
    (hzn : z ≠ s.desc.nil) {Q : Unit → State → Prop}
    (hfound : (∃ a ∈ T.toList, keyOf s a = keyOf s z) → Q () s)
    (hnew : ∀ s' T' L₁ L₂, Rep s' T' → T'.IsRedBlack → T.toList = L₁ ++ L₂ →
      T'.toList = L₁ ++ z :: L₂ → (∀ a ∈ L₁, keyOf s a < keyOf s z) →
        (∀ a ∈ L₂, keyOf s z < keyOf s a) → SameData s s' → Q () s') :
    Ok (rbtreeInsert z) s Q := by
  rw [rbtreeInsert, ok_bind]
  refine ok_insertPlace h ho hbound.le hz hzT hzn (fun hf => (ok_pure ..).mpr (hfound hf)) ?_
  rintro k rfl hbet hrep
  have hold : (plug k (.nil : RBTree Nat)).toList = before k ++ after k := by
    simp [toList_plug, toList]
  have hlist : (plug k (node .red .nil z .nil)).toList = before k ++ z :: after k := by
    simp [toList_plug, toList]
  rw [if_pos rfl]
  refine ok_rbtreeInsertFixup hrep (insertInv_leaf hT z) ?_ (fun s' T' hT' hrb hl' hm => ?_)
  · have hnext : (attached s k z).next = s.next := (sameData_attached s k z).next
    rw [hlist]
    rw [hold] at hbound
    simp only [List.length_append, List.length_cons] at hbound ⊢
    omega
  · exact hnew s' T' (before k) (after k) hT' hrb hold (hl'.trans hlist) hbet.lt hbet.gt
      ((sameData_attached s k z).trans hm.toSameData)

end KvStore.Rbtree
