import KvStore.Lib.Ledger
import KvStore.Rbtree.Search
import KvStore.Spec

set_option autoImplicit false

/-! # The engine interface on trees in memory

`Holds s T es` is the invariant of the engine: the memory holds the red-black tree `T`, and its
nodes own the strings of the entries `es`, in the order of the keys. The functions of the
interface keep it, and change `es` as one expects of a store:

* `ok_kvsRbtreeSet`: a new entry at its place, or nothing when the key is there;
* `ok_kvsRbtreeGet`: the value of the entry;
* `ok_kvsRbtreeDelete`: the entry is gone;
* `ok_kvsRbtreeModify`: the entry has a new value block.
-/

namespace KvStore.Rbtree

open KvStore.Lib KvStore.Lib.RBTree Store

/-! ## The invariant -/

/-- What a node owns: its key block and its value block, with the strings in them. -/
structure Entry where
  keyPtr : Nat
  valuePtr : Nat
  key : CStr
  value : CStr

/-- The pointers of the node that owns the entry. -/
def Entry.ptrs (e : Entry) : Option Nat × Option Nat := (some e.keyPtr, some e.valuePtr)

/-- The blocks of an entry. A failed `kvs_rbtree_modify` leaves `NULL` in place of the value. -/
def Entry.blocks (e : Entry) : List Nat :=
  e.keyPtr :: if e.valuePtr = 0 then [] else [e.valuePtr]

def Entry.pair (e : Entry) : CStr × CStr := (e.key, e.value)

/-- The strings of the entry are in memory; no value counts as an empty one. -/
def Entry.Stored (s : State) (e : Entry) : Prop :=
  s.cstr e.keyPtr = some e.key ∧
    (s.cstr e.valuePtr = some e.value ∨ e.valuePtr = 0 ∧ e.value = default)

/-- **The invariant of the engine.** -/
structure Holds (s : State) (T : RBTree Nat) (es : List Entry) : Prop where
  rep : Rep s T
  redBlack : T.IsRedBlack
  data : T.toList.map (dataAt s) = es.map Entry.ptrs
  stored : ∀ e ∈ es, e.Stored s
  nodup : (es.flatMap Entry.blocks).Nodup
  sorted : (es.map Entry.key).Pairwise (· < ·)
  wf : s.WF

/-- The value string of a node. -/
def valueOf (s : State) (p : Nat) : CStr := ((valueAt s p).bind s.cstr).getD default

variable {Q : Int → State → Prop} {s : State} {es : List Entry} {T : RBTree Nat} {e : Entry}
  {p : Nat}

section Holds

variable {s s' : State} {T : RBTree Nat} {es : List Entry}

theorem Entry.Stored.keyOf_eq {a : Nat} (h : e.Stored s) (ha : dataAt s a = e.ptrs) :
    Keyed s a ∧ keyOf s a = e.key :=
  keyed_of_cstr (congrArg Prod.fst ha) h.1

theorem Entry.Stored.value_eq (h : e.Stored s) (hs : s.WF) :
    (s.cstr e.valuePtr).getD default = e.value := by
  rcases h.2 with hv | ⟨h0, hv⟩
  · rw [hv, Option.getD_some]
  · rw [h0, hs.cstr_null, hv, Option.getD_none]

theorem Entry.Stored.value_live (h : e.Stored s) : e.valuePtr = 0 ∨ (s.str e.valuePtr).isSome := by
  rcases h.2 with hv | ⟨h0, -⟩
  · exact Or.inr (live_of_cstr hv)
  · exact Or.inl h0

theorem Entry.Stored.congr (h : e.Stored s) (hs : s.WF)
    (hstr : ∀ p ∈ e.blocks, s'.cstr p = s.cstr p) : e.Stored s' := by
  refine ⟨(hstr _ (by simp [Entry.blocks])).trans h.1, h.2.imp_left fun hv => ?_⟩
  have h0 : e.valuePtr ≠ 0 := by
    intro h0
    rw [h0, hs.cstr_null] at hv
    cases hv
  exact (hstr _ (by simp [Entry.blocks, h0])).trans hv

/-- The entry of a node, and the entries before and after it. -/
theorem Holds.split (h : Holds s T es) {a : Nat} (ha : a ∈ T.toList) :
    ∃ (L₁ L₂ : List Nat) (E₁ : List Entry) (e : Entry) (E₂ : List Entry),
      T.toList = L₁ ++ a :: L₂ ∧ es = E₁ ++ e :: E₂ ∧
      L₁.map (dataAt s) = E₁.map Entry.ptrs ∧ dataAt s a = e.ptrs ∧
        L₂.map (dataAt s) = E₂.map Entry.ptrs := by
  obtain ⟨L₁, L₂, hL⟩ := List.append_of_mem ha
  have hdata := h.data
  rw [hL, List.map_append, List.map_cons] at hdata
  obtain ⟨E₁, E', rfl, h₁, h'⟩ := List.map_eq_append_iff.mp hdata.symm
  obtain ⟨e, E₂, rfl, he, h₂⟩ := List.map_eq_cons_iff.mp h'
  exact ⟨L₁, L₂, E₁, e, E₂, hL, rfl, h₁.symm, he.symm, h₂.symm⟩

theorem Holds.entry (h : Holds s T es) {a : Nat} (ha : a ∈ T.toList) :
    ∃ e ∈ es, dataAt s a = e.ptrs := by
  obtain ⟨L₁, L₂, E₁, e, E₂, -, rfl, -, he, -⟩ := h.split ha
  exact ⟨e, by simp, he⟩

/-- The strings of the nodes from left to right are those of the entries. -/
theorem Holds.strings (h : Holds s T es) :
    T.toList.map (fun a => (keyOf s a, valueOf s a)) = es.map Entry.pair := by
  let read : Option Nat × Option Nat → CStr × CStr := fun p =>
    ((p.1.bind s.cstr).getD default, (p.2.bind s.cstr).getD default)
  calc T.toList.map (fun a => (keyOf s a, valueOf s a))
      = (T.toList.map (dataAt s)).map read := by rw [List.map_map]; rfl
    _ = es.map (read ∘ Entry.ptrs) := by rw [h.data, List.map_map]
    _ = es.map Entry.pair := by
        refine List.map_congr_left fun e he => ?_
        have hst := h.stored e he
        simp [read, Entry.ptrs, Entry.pair, hst.1, hst.value_eq h.wf]

theorem Holds.keys (h : Holds s T es) : T.toList.map (keyOf s) = es.map Entry.key := by
  have := congrArg (List.map Prod.fst) h.strings
  rw [List.map_map, List.map_map] at this
  exact this

theorem Holds.ordered (h : Holds s T es) : Ordered s T where
  keyed a ha := by
    obtain ⟨e, he, hd⟩ := h.entry ha
    exact ((h.stored e he).keyOf_eq hd).1
  sorted := by
    rw [isSearchTree_iff, ← List.pairwise_map (f := keyOf s) (R := (· < ·)), h.keys]
    exact h.sorted

theorem Holds.keys_nodup (h : Holds s T es) : (es.map Entry.key).Nodup :=
  h.sorted.imp fun hlt => hlt.ne

theorem Holds.pairs_nodup (h : Holds s T es) : ((es.map Entry.pair).map Prod.fst).Nodup := by
  rw [List.map_map]
  exact h.keys_nodup

/-- There are fewer nodes than addresses: the loops that walk the tree have enough steps. -/
theorem Holds.length_lt (h : Holds s T es) : T.toList.length < s.next := by
  have hnd : (s.desc.nil :: T.toList).Nodup := List.nodup_cons.mpr ⟨h.rep.nil_notMem, h.rep.nodup⟩
  refine h.wf.length_le hnd fun p hp => ?_
  rcases List.mem_cons.mp hp with rfl | hp
  · exact h.rep.live_nil
  · exact h.rep.linked.live hp

theorem Holds.data_written (h : Holds s T es) :
    ∀ a ∈ T.toList, ∃ kp vp, dataAt s a = (some kp, some vp) := by
  intro a ha
  obtain ⟨e, -, he⟩ := h.entry ha
  exact ⟨_, _, he⟩

/-- The invariant in a memory with more blocks. -/
theorem Holds.grows (h : Holds s T es) (hg : Grows s s') (hs' : s'.WF) : Holds s' T es := by
  have hnode : ∀ a ∈ T.toList, s'.node a = s.node a := fun a ha =>
    hg.node a (h.rep.linked.live ha)
  have hnil : s'.desc.nil = s.desc.nil := by rw [hg.desc]
  refine ⟨⟨?_, ?_, h.rep.nodup, ?_, ?_⟩, h.redBlack, ?_, ?_, h.nodup, h.sorted, hs'⟩
  · rw [hg.desc]
    exact h.rep.root
  · rw [hnil]
    exact h.rep.linked.congr hnode hnil
  · rw [hnil]
    exact h.rep.nil_notMem
  · rw [hnil, ← h.rep.nil_black]
    exact field_congr (hg.node _ h.rep.live_nil) _
  · rw [← h.data]
    refine List.map_congr_left fun a ha => ?_
    exact Prod.ext (field_congr (hnode a ha) _) (field_congr (hnode a ha) _)
  · intro e he
    exact ⟨hg.cstr (h.stored e he).1, (h.stored e he).2.imp_left hg.cstr⟩

/-- The counter is no part of the invariant. -/
theorem Holds.addCount (h : Holds s T es) (d : Int) : Holds (s.modDesc (Tree.addCount d)) T es where
  rep := ⟨h.rep.root, h.rep.linked.congr (fun _ _ => rfl) rfl, h.rep.nodup, h.rep.nil_notMem,
    h.rep.nil_black⟩
  redBlack := h.redBlack
  data := h.data
  stored := h.stored
  nodup := h.nodup
  sorted := h.sorted
  wf := h.wf.modDesc _

end Holds

/-! ## Lookup -/

/-- `rbtree_search` finds the entry of the key. -/
theorem Holds.ok_search (h : Holds s T es) (x : CStr) {Q : Nat → State → Prop}
    (hfound : ∀ (a : Nat) (L₁ L₂ : List Nat) (E₁ : List Entry) (e : Entry) (E₂ : List Entry),
      T.toList = L₁ ++ a :: L₂ → es = E₁ ++ e :: E₂ →
      L₁.map (dataAt s) = E₁.map Entry.ptrs → dataAt s a = e.ptrs →
        L₂.map (dataAt s) = E₂.map Entry.ptrs → e.key = x → a ≠ s.desc.nil → Q a s)
    (hmiss : x ∉ es.map Entry.key → Q s.desc.nil s) : Ok (rbtreeSearch (some x)) s Q := by
  refine ok_rbtreeSearch h.rep h.ordered h.length_lt.le x (fun a ha hx => ?_) (fun habs => ?_)
  · obtain ⟨L₁, L₂, E₁, e, E₂, hL, hE, h₁, he, h₂⟩ := h.split ha
    have hkey := ((h.stored e (by simp [hE])).keyOf_eq he).2
    refine hfound a L₁ L₂ E₁ e E₂ hL hE h₁ he h₂ (hkey.symm.trans hx) ?_
    rintro rfl
    exact h.rep.nil_notMem ha
  · refine hmiss fun hmem => ?_
    rw [← h.keys] at hmem
    obtain ⟨a, ha, hx⟩ := List.mem_map.mp hmem
    exact habs a ha hx

/-- Nothing is compared in an empty tree. -/
theorem Holds.ok_search_nil (h : Holds s .nil es) (key : Option CStr)
    (Q : Nat → State → Prop) : Ok (rbtreeSearch key) s Q ↔ Q s.desc.nil s := by
  have hroot : s.desc.root = s.desc.nil := h.rep.root
  have hstep : ∀ R : Nat ⊕ Nat → State → Prop,
      Ok (searchStep key s.desc.nil) s R ↔ R (.inr s.desc.nil) s := by
    intro R
    rw [searchStep, ok_bind, ok_getNil, if_neg (by simp), ok_bind, ok_getNil, ok_pure]
  rw [rbtreeSearch, ok_bind, ok_getRoot, hroot, whileLoop, ok_bind, ok_get, loop, ok_bind, hstep,
    ok_pure]

/-- Otherwise the root is compared with the key, also with `NULL`. -/
theorem Holds.not_ok_search_null (h : Holds s T es)
    (hT : T ≠ .nil) (Q : Nat → State → Prop) : ¬Ok (rbtreeSearch none) s Q := by
  have hroot : s.desc.root ≠ s.desc.nil := by
    rw [h.rep.root]
    intro heq
    exact h.rep.nil_notMem (heq ▸ ptr_mem hT)
  rw [rbtreeSearch, ok_bind, ok_getRoot, whileLoop, ok_bind, ok_get, loop, ok_bind, searchStep,
    ok_bind, ok_getNil, if_pos hroot, ok_bind]
  exact ok_argStr_none s _

theorem ok_kvsRbtreeGet (h : Holds s T es) (x : CStr)
    {Q : Nat → State → Prop} (hfound : ∀ e ∈ es, e.key = x → Q e.valuePtr s)
    (hmiss : x ∉ es.map Entry.key → Q 0 s) : Ok (kvsRbtreeGet (some x)) s Q := by
  unfold kvsRbtreeGet
  rw [ok_bind]
  refine h.ok_search x ?_ ?_
  · intro a L₁ L₂ E₁ e E₂ _ hE _ he _ hx hne
    have hv : valueAt s a = some e.valuePtr := congrArg Prod.snd he
    rw [ok_bind, ok_getNil, if_neg hne, ok_getValue hv]
    exact hfound e (by simp [hE]) hx
  · intro habs
    rw [ok_bind, ok_getNil, if_pos rfl, ok_pure]
    exact hmiss habs

/-! ## What belongs to no entry -/

/-- From `s` to `s'`, the key of the sentinel is kept, and so are the strings that belong to none of
the entries `es`; they do not get into an entry either. -/
structure Spares (s s' : State) (es es' : List Entry) : Prop where
  nil : s'.desc.nil = s.desc.nil
  key : keyAt s' s.desc.nil = keyAt s s.desc.nil
  str : ∀ b, (s.str b).isSome → b ∉ es.flatMap Entry.blocks →
    (s'.str b).isSome ∧ b ∉ es'.flatMap Entry.blocks

section Spares

variable {s s' s'' : State} {T : RBTree Nat} {es es' : List Entry}

theorem Spares.refl (s : State) (es : List Entry) : Spares s s es es :=
  ⟨rfl, rfl, fun _ hb hes => ⟨hb, hes⟩⟩

theorem Holds.spares_of_grows (h : Holds s T es) (hg : Grows s s') : Spares s s' es es where
  nil := congrArg Tree.nil hg.desc
  key := field_congr (hg.node _ h.rep.live_nil) _
  str b hb hes := ⟨(hg.str b hb).symm ▸ hb, hes⟩

/-- Changes of the links, and of the counter. -/
theorem Spares.sameData (h : Spares s s' es es') (hsame : SameData s' s'') (g : Tree → Tree)
    (hg : ∀ t, (g t).nil = t.nil) : Spares s (s''.modDesc g) es es' where
  nil := (hg _).trans (hsame.nil.trans h.nil)
  key := (hsame.key _).trans h.key
  str b hb hes := by
    have hstr : (s''.modDesc g).str = s'.str := hsame.str
    rw [hstr]
    exact h.str b hb hes

/-- A string of one of the entries is another block. -/
theorem Holds.ne_valuePtr (h : Holds s T es) (he : e ∈ es) {b : Nat}
    (hb : (s.str b).isSome) (hes : b ∉ es.flatMap Entry.blocks) : b ≠ e.valuePtr := by
  rintro rfl
  have hpos := (h.wf.str_bound _ hb).1
  refine hes (List.mem_flatMap.mpr ⟨e, he, ?_⟩)
  rw [Entry.blocks, if_neg (by omega)]
  exact List.mem_cons_of_mem _ (List.mem_singleton_self _)

end Spares

/-! ## Deletion -/

/-- Nothing is allocated, and nothing is given back. -/
theorem SameHeap.trades {s' : State} (h : SameHeap s s') : Trades s s' [] [] := by
  refine Trades.of_live (fun p => ?_) h.next
  rw [Live, Live, h.live, h.str]

theorem ok_kvsRbtreeDelete (h : Holds s T es) (x : CStr)
    (hfound : ∀ s' T' E₁ e E₂, es = E₁ ++ e :: E₂ → e.key = x → Holds s' T' (E₁ ++ E₂) →
      s'.desc.count = int32 (s.desc.count + -1) →
        (∃ y, T.toList.Perm (y :: T'.toList)) ∧ Trades s s' [] [] →
          Spares s s' es (E₁ ++ E₂) → Q 0 s')
    (hmiss : x ∉ es.map Entry.key → Q (-1) s) : Ok (kvsRbtreeDelete (some x)) s Q := by
  unfold kvsRbtreeDelete
  rw [ok_bind]
  refine h.ok_search x ?_ ?_
  · intro a L₁ L₂ E₁ e E₂ hL hE h₁ he h₂ hx hne
    subst hE
    rw [ok_bind, ok_getNil, if_neg hne, ok_bind]
    refine ok_rbtreeDelete h.rep h.redBlack h.length_lt.le hL h.data_written ?_
    intro y s' T' hT' hrb hperm hdata _ hheap hframe
    have hy : y ∈ T.toList := hperm.mem_iff.mpr (by simp)
    have hy0 : y ≠ 0 := by
      have := h.wf.node_bound y (h.rep.linked.live hy)
      omega
    have hsub : (E₁ ++ E₂).Sublist (E₁ ++ e :: E₂) := (List.sublist_cons_self e E₂).append_left E₁
    have hHolds : Holds s' T' (E₁ ++ E₂) := by
      refine ⟨hT', hrb, ?_, fun e' he' => ?_, ?_, h.sorted.sublist (hsub.map _), ?_⟩
      · rw [hdata, List.map_append, List.map_append, h₁, h₂]
      · exact (h.stored e' (hsub.subset he')).congr h.wf
          fun p _ => cstr_congr (by rw [hheap.str])
      · exact h.nodup.sublist (hsub.flatMap _)
      · exact h.wf.of_dom hheap.live (fun p => by rw [hheap.str]) hheap.next
    dsimp only
    rw [if_neg hy0, ok_bind, ok_writeDesc, ok_pure]
    refine hfound _ T' E₁ e E₂ rfl hx (hHolds.addCount _) ?_ ⟨⟨y, hperm⟩, hheap.trades.modDesc _⟩
      ⟨hheap.nil, congrArg Prod.fst (hframe _ h.rep.nil_notMem), fun b hb hes => ⟨?_, ?_⟩⟩
    · show int32 (s'.desc.count + -1) = _
      rw [hheap.count]
    · show (s'.str b).isSome
      rwa [hheap.str]
    · exact fun hmem => hes ((hsub.flatMap _).subset hmem)
  · intro habs
    rw [ok_bind, ok_getNil, if_pos rfl, ok_pure]
    exact hmiss habs

/-! ## Insertion -/

def RbtreeNode.withKey (q : Nat) (n : RbtreeNode) : RbtreeNode := { n with key := some q }

def RbtreeNode.withValue (q : Nat) (n : RbtreeNode) : RbtreeNode := { n with value := some q }

/-- The memory before `kvs_rbtree_set` calls `rbtree_insert`: the new node with its two strings. -/
def staged (s : State) (k v : CStr) : State :=
  ((s.allocNode {}).attachStr s.next RbtreeNode.withKey k).attachStr s.next RbtreeNode.withValue v

section Staged

variable {s : State} {k v : CStr}

theorem staged_wf (hs : s.WF) : (staged s k v).WF := (hs.allocNode {}).attachStr.attachStr

theorem staged_grows (hs : s.WF) : Grows s (staged s k v) :=
  (((Grows.refl s).allocNode hs {}).attachStr hs le_rfl).attachStr hs le_rfl

theorem staged_dataAt : dataAt (staged s k v) s.next = (some (s.next + 1), some (s.next + 2)) := by
  have hlive := allocNode_isSome s {}
  refine Prod.ext ?_ ?_
  · show (staged s k v).field (·.key) s.next = some (s.next + 1)
    rw [staged, field_attachStr_other (g := RbtreeNode.withValue) (fun _ _ => rfl)]
    exact field_attachStr_self hlive fun _ _ => rfl
  · show (staged s k v).field (·.value) s.next = some (s.next + 2)
    exact field_attachStr_self (by simpa using hlive) fun _ _ => rfl

/-- The node and its two strings are new. -/
theorem staged_trades :
    Trades s (staged s k v) [] [s.next, s.next + 1, s.next + 2] where
  live p := by
    rw [staged, live_attachStr, live_attachStr, live_allocNode]
    simp [or_assoc]
  fresh p hp := by
    simp only [List.mem_cons, List.not_mem_nil, or_false] at hp
    omega
  next := by
    show s.next ≤ s.next + 1 + 1 + 1
    omega

theorem staged_key : (staged s k v).cstr (s.next + 1) = some k := by
  rw [staged, cstr_attachStr_ne (by simp)]
  exact cstr_attachStr_self

theorem staged_value : (staged s k v).cstr (s.next + 2) = some v := cstr_attachStr_self

/-- The copy of the key, its allocation succeeding. -/
theorem ok_copyKey (hs : s.WF) (hp : (s.node p).isSome) {failed rest : Rb Int} :
    Ok (do
      setKey p (← mallocStr true (k.strlen + 1))
      if (← getKey p) = 0 then failed
      else
        memsetZero (← getKey p) (k.strlen + 1)
        strcpy (← getKey p) k
        rest) s Q ↔ Ok rest (s.attachStr p RbtreeNode.withKey k) Q := by
  have hn : s.next ≠ 0 := hs.next_pos.ne'
  let s₁ := putKey (s.allocStr (k.strlen + 1)) p s.next
  have hk₁ : keyAt s₁ p = some s.next := keyAt_putKey_self hp
  have hb₁ : s₁.str s.next = some ⟨k.strlen + 1, none⟩ := allocStr_str_self s (k.strlen + 1)
  rw [ok_bind, ok_mallocStr_true, ok_bind, ok_setKey (by simpa using hp)]
  change Ok _ s₁ Q ↔ _
  rw [ok_bind, ok_getKey hk₁, if_neg hn, ok_bind, ok_getKey hk₁, ok_bind, ok_memsetZero hb₁ le_rfl,
    ok_bind, ok_getKey (show keyAt (s₁.putStr s.next default) p = _ from hk₁), ok_bind,
    ok_strcpy (putStr_str_self _ hb₁) le_rfl, putStr_putStr]
  exact Iff.rfl

/-- The copy of the value, its allocation succeeding. -/
theorem ok_copyValue (hs : s.WF) (hp : (s.node p).isSome) {failed rest : Rb Int} :
    Ok (do
      setValue p (← mallocStr true (v.strlen + 1))
      if (← getValue p) = 0 then failed
      else
        memsetZero (← getValue p) (v.strlen + 1)
        strcpy (← getValue p) v
        rest) s Q ↔ Ok rest (s.attachStr p RbtreeNode.withValue v) Q := by
  have hn : s.next ≠ 0 := hs.next_pos.ne'
  let s₁ := putValue (s.allocStr (v.strlen + 1)) p s.next
  have hv₁ : valueAt s₁ p = some s.next := valueAt_putValue_self hp
  have hb₁ : s₁.str s.next = some ⟨v.strlen + 1, none⟩ := allocStr_str_self s (v.strlen + 1)
  rw [ok_bind, ok_mallocStr_true, ok_bind, ok_setValue (by simpa using hp)]
  change Ok _ s₁ Q ↔ _
  rw [ok_bind, ok_getValue hv₁, if_neg hn, ok_bind, ok_getValue hv₁, ok_bind,
    ok_memsetZero hb₁ le_rfl, ok_bind,
    ok_getValue (show valueAt (s₁.putStr s.next default) p = _ from hv₁), ok_bind,
    ok_strcpy (putStr_str_self _ hb₁) le_rfl, putStr_putStr]
  exact Iff.rfl

/-- The allocations and copies of `kvs_rbtree_set`. -/
theorem ok_kvsRbtreeSet_staged {alloc : AllocPlan} (hs : s.WF)
    (ha₀ : alloc 0 = true) (ha₁ : alloc 1 = true) (ha₂ : alloc 2 = true) (h : Ok (do
      rbtreeInsert s.next
      writeDesc (Tree.addCount 1)
      return 0) (staged s k v) Q) :
    Ok (kvsRbtreeSet alloc (some k) (some v)) s Q := by
  have hn : s.next ≠ 0 := hs.next_pos.ne'
  have hlive := allocNode_isSome s {}
  unfold kvsRbtreeSet
  rw [ha₀, ha₁, ha₂, ok_bind, ok_mallocNode_true, if_neg hn, ok_bind, ok_argStr_some,
    ok_copyKey (hs.allocNode {}) hlive, ok_bind, ok_argStr_some,
    ok_copyValue (hs.allocNode {}).attachStr (by simpa using hlive)]
  exact h

/-- The value of `kvs_rbtree_set` is not tested for `NULL`. -/
theorem not_ok_kvsRbtreeSet_null (hs : s.WF) (key : Option CStr) (Q : Int → State → Prop) :
    ¬Ok (kvsRbtreeSet allOk key none) s Q := by
  have hn : s.next ≠ 0 := hs.next_pos.ne'
  have hlive := allocNode_isSome s {}
  unfold kvsRbtreeSet
  rw [show allOk 0 = true from rfl, show allOk 1 = true from rfl, ok_bind, ok_mallocNode_true,
    if_neg hn, ok_bind]
  cases key with
  | none => exact ok_argStr_none _ _
  | some k =>
      rw [ok_argStr_some, ok_copyKey (hs.allocNode {}) hlive, ok_bind]
      exact ok_argStr_none _ _

/-- A `kvs_rbtree_set` that runs out of memory gives back what it has allocated. -/
theorem ok_kvsRbtreeSet_failed {alloc : AllocPlan} (hs : s.WF)
    (hfail : ¬(alloc 0 = true ∧ alloc 1 = true ∧ alloc 2 = true))
    (h : ∀ s', Grows s s' → s'.WF → Q (-1) s') :
    Ok (kvsRbtreeSet alloc (some k) (some v)) s Q := by
  have hn : s.next ≠ 0 := hs.next_pos.ne'
  have hlive := allocNode_isSome s {}
  have hgrow : Grows s (s.allocNode {}) := (Grows.refl s).allocNode hs {}
  unfold kvsRbtreeSet
  cases ha₀ : alloc 0 with
  | false =>
      rw [ok_bind, ok_mallocNode_false, if_pos rfl, ok_pure]
      exact h s (Grows.refl s) hs
  | true =>
      rw [ok_bind, ok_mallocNode_true, if_neg hn, ok_bind, ok_argStr_some]
      cases ha₁ : alloc 1 with
      | false =>
          have hwf : (putKey (s.allocNode {}) s.next 0).WF := (hs.allocNode {}).modNode _ _
          rw [ok_bind, ok_mallocStr_false, ok_bind, ok_setKey hlive, ok_bind,
            ok_getKey (keyAt_putKey_self hlive), if_pos rfl, ok_bind,
            ok_free_node hwf (by simpa using hlive), ok_pure]
          exact h _ ((hgrow.modNode le_rfl hs _).dropNode le_rfl hs) (hwf.dropNode _)
      | true =>
          have ha₂ : alloc 2 = false := by
            by_contra hne
            exact hfail ⟨ha₀, ha₁, by simpa using hne⟩
          let s₂ := (s.allocNode {}).attachStr s.next RbtreeNode.withKey k
          have hlive₂ : (s₂.node s.next).isSome := by simp [s₂, hlive]
          have hkey : keyAt (putValue s₂ s.next 0) s.next = some (s.next + 1) :=
            (keyAt_putValue ..).trans (field_attachStr_self hlive fun _ _ => rfl)
          have hwf : (putValue s₂ s.next 0).WF := (hs.allocNode {}).attachStr.modNode _ _
          have hstr : ((putValue s₂ s.next 0).str (s.next + 1)).isSome :=
            live_of_cstr (s := s₂) cstr_attachStr_self
          rw [ok_copyKey (hs.allocNode {}) hlive, ok_bind, ok_argStr_some, ha₂, ok_bind,
            ok_mallocStr_false, ok_bind, ok_setValue hlive₂, ok_bind,
            ok_getValue (valueAt_putValue_self hlive₂), if_pos rfl, ok_bind,
            ok_getKey hkey, ok_bind,
            ok_free_str hwf hstr, ok_bind,
            ok_free_node (hwf.dropStr _) (by simpa using hlive₂), ok_pure]
          exact h _
            ((((hgrow.attachStr hs le_rfl).modNode le_rfl hs _).dropStr (by omega) hs).dropNode
            le_rfl hs) ((hwf.dropStr _).dropNode _)

end Staged

theorem blocks_middle (E₁ E₂ : List Entry) (e : Entry) :
    ((E₁ ++ e :: E₂).flatMap Entry.blocks).Perm (e.blocks ++ (E₁ ++ E₂).flatMap Entry.blocks) :=
  List.perm_middle.flatMap_right Entry.blocks

/-- Every block of an entry is allocated. -/
theorem Holds.block_bound
    (h : Holds s T es) (hp : p ∈ es.flatMap Entry.blocks) : 0 < p ∧ p < s.next := by
  obtain ⟨e, he, hpe⟩ := List.mem_flatMap.mp hp
  have hst := h.stored e he
  rcases List.mem_cons.mp hpe with rfl | hpe
  · exact h.wf.str_bound _ (live_of_cstr hst.1)
  · split_ifs at hpe with h0
    · cases hpe
    · rw [List.mem_singleton.mp hpe]
      exact h.wf.str_bound _ (hst.value_live.resolve_left h0)

/-- What holds of the keys of the nodes holds of the keys of their entries. -/
theorem forall_key_of_node {L : List Nat} {E : List Entry}
    (hdata : E.map Entry.ptrs = L.map (dataAt s)) (hst : ∀ e ∈ E, e.Stored s) {P : CStr → Prop}
    (hP : ∀ a ∈ L, P (keyOf s a)) : ∀ e ∈ E, P e.key := by
  intro e he
  have hmem : e.ptrs ∈ L.map (dataAt s) := hdata ▸ List.mem_map_of_mem he
  obtain ⟨a, ha, hae⟩ := List.mem_map.mp hmem
  rw [← ((hst e he).keyOf_eq hae).2]
  exact hP a ha

/-- **A new entry.** The node `z`, with the pointers of `e`, has got its place in the tree, and the
strings are as they were. -/
theorem Holds.enter {s' : State} {T' : RBTree Nat} {L₁ L₂ : List Nat} {E₁ E₂ : List Entry}
    {z : Nat} (h : Holds s T (E₁ ++ E₂)) (hT' : Rep s' T') (hrb : T'.IsRedBlack)
    (hL' : T'.toList = L₁ ++ z :: L₂) (h₁ : E₁.map Entry.ptrs = L₁.map (dataAt s))
    (hz : dataAt s z = e.ptrs) (h₂ : E₂.map Entry.ptrs = L₂.map (dataAt s))
    (hdata : ∀ a, dataAt s' a = dataAt s a) (hstr : ∀ p, s'.cstr p = s.cstr p) (he : e.Stored s)
    (hnodup : e.blocks.Nodup) (hfresh : ∀ p ∈ e.blocks, p ∉ (E₁ ++ E₂).flatMap Entry.blocks)
    (hbelow : ∀ e' ∈ E₁, e'.key < e.key) (habove : ∀ e' ∈ E₂, e.key < e'.key) (hwf : s'.WF) :
    Holds s' T' (E₁ ++ e :: E₂) := by
  refine ⟨hT', hrb, ?_, fun e' he' => ?_, ?_, ?_, hwf⟩
  · rw [hL', List.map_congr_left (fun a _ => hdata a), List.map_append, List.map_cons,
      hz, ← h₁, ← h₂, List.map_append, List.map_cons]
  · rw [Entry.Stored, hstr, hstr]
    rcases List.mem_cons.mp (List.perm_middle.mem_iff.mp he') with rfl | he'
    · exact he
    · exact h.stored e' he'
  · rw [(blocks_middle ..).nodup_iff, List.nodup_append]
    refine ⟨hnodup, h.nodup, ?_⟩
    rintro p hp q hq rfl
    exact hfresh p hp hq
  · -- the keys on the left, the new one and the keys on the right
    have hold := h.sorted
    rw [List.map_append, List.pairwise_append] at hold
    rw [List.map_append, List.map_cons, List.pairwise_append, List.pairwise_cons]
    refine ⟨hold.1, ⟨?_, hold.2.1⟩, ?_⟩
    · intro x hx
      obtain ⟨e', he', rfl⟩ := List.mem_map.mp hx
      exact habove e' he'
    · intro x hx y hy
      rcases List.mem_cons.mp hy with rfl | hy
      · obtain ⟨e', he', rfl⟩ := List.mem_map.mp hx
        exact hbelow e' he'
      · exact hold.2.2 x hx y hy

theorem ok_kvsRbtreeSet (h : Holds s T es) (alloc : AllocPlan) (k v : CStr)
    (hfail : ∀ s', ¬(alloc 0 = true ∧ alloc 1 = true ∧ alloc 2 = true) → Holds s' T es →
      s'.desc = s.desc → Spares s s' es es → Q (-1) s')
    (hfound : ∀ s', k ∈ es.map Entry.key → Holds s' T es →
      s'.desc.count = int32 (s.desc.count + 1) →
      Trades s s' [] [s.next, s.next + 1, s.next + 2] → Spares s s' es es → Q 0 s')
    (hnew : ∀ (s' : State) (T' : RBTree Nat) (E₁ : List Entry) (e : Entry) (E₂ : List Entry),
      es = E₁ ++ E₂ → k ∉ es.map Entry.key → e.pair = (k, v) → e.valuePtr ≠ 0 →
      Holds s' T' (E₁ ++ e :: E₂) → s'.desc.count = int32 (s.desc.count + 1) →
        e.blocks = [s.next + 1, s.next + 2] ∧ T'.toList.Perm (s.next :: T.toList) ∧
          Trades s s' [] [s.next, s.next + 1, s.next + 2] →
            Spares s s' es (E₁ ++ e :: E₂) → Q 0 s') :
    Ok (kvsRbtreeSet alloc (some k) (some v)) s Q := by
  by_cases halloc : alloc 0 = true ∧ alloc 1 = true ∧ alloc 2 = true
  swap
  · exact ok_kvsRbtreeSet_failed h.wf halloc fun s' hg hs' =>
      hfail s' halloc (h.grows hg hs') hg.desc (h.spares_of_grows hg)
  obtain ⟨ha₀, ha₁, ha₂⟩ := halloc
  have hst : Holds (staged s k v) T es := h.grows (staged_grows h.wf) (staged_wf h.wf)
  have hspares : Spares s (staged s k v) es es := h.spares_of_grows (staged_grows h.wf)
  have hz : Keyed (staged s k v) s.next ∧ keyOf (staged s k v) s.next = k :=
    keyed_of_cstr (congrArg Prod.fst staged_dataAt) staged_key
  have hfresh : ∀ p, (s.node p).isSome → s.next ≠ p := by
    intro p hp
    have := h.wf.node_bound p hp
    omega
  refine ok_kvsRbtreeSet_staged h.wf ha₀ ha₁ ha₂ ?_
  rw [ok_bind]
  refine ok_rbtreeInsert hst.rep hst.redBlack hst.ordered hst.length_lt hz.1
    (fun hm => hfresh _ (h.rep.linked.live hm) rfl) (hfresh _ h.rep.live_nil) ?_ ?_
  · rintro ⟨a, ha, hak⟩
    rw [ok_bind, ok_writeDesc, ok_pure]
    refine hfound _ ?_ (hst.addCount _) rfl (staged_trades.modDesc _)
      (hspares.sameData (SameData.refl _) _ fun _ => rfl)
    rw [← hst.keys, List.mem_map]
    exact ⟨a, ha, hak.trans hz.2⟩
  · intro s' T' L₁ L₂ hT' hrb hL hL' hlt hgt hsame
    rw [hz.2] at hlt hgt
    -- the entries are split where the nodes are
    have hdata := hst.data
    rw [hL, List.map_append] at hdata
    obtain ⟨E₁, E₂, rfl, h₁, h₂⟩ := List.map_eq_append_iff.mp hdata.symm
    have hbelow : ∀ e ∈ E₁, e.key < k :=
      forall_key_of_node (P := (· < k)) h₁
        (fun e he => hst.stored e (List.mem_append_left _ he)) hlt
    have habove : ∀ e ∈ E₂, k < e.key :=
      forall_key_of_node (P := (k < ·)) h₂
        (fun e he => hst.stored e (List.mem_append_right _ he)) hgt
    have habs : k ∉ (E₁ ++ E₂).map Entry.key := by
      intro hmem
      obtain ⟨e, he, rfl⟩ := List.mem_map.mp hmem
      rcases List.mem_append.mp he with he | he
      · exact lt_irrefl _ (hbelow e he)
      · exact lt_irrefl _ (habove e he)
    let e : Entry := ⟨s.next + 1, s.next + 2, k, v⟩
    have hblocks : e.blocks = [s.next + 1, s.next + 2] := by simp [e, Entry.blocks]
    -- the new blocks lie above all old ones
    have hfresh : ∀ p ∈ e.blocks, p ∉ (E₁ ++ E₂).flatMap Entry.blocks := by
      intro p hp hold
      have hlt := (h.block_bound hold).2
      simp only [hblocks, List.mem_cons, List.not_mem_nil, or_false] at hp
      omega
    have hentered : Holds s' T' (E₁ ++ e :: E₂) :=
      hst.enter hT' hrb hL' h₁ staged_dataAt h₂ hsame.dataAt
        (fun p => cstr_congr (by rw [hsame.str])) ⟨staged_key, Or.inl staged_value⟩
        (by simp [hblocks]) hfresh hbelow habove
        ((staged_wf h.wf).of_dom hsame.live (fun p => by rw [hsame.str]) hsame.next)
    rw [ok_bind, ok_writeDesc, ok_pure]
    have hspares' : Spares s (staged s k v) (E₁ ++ E₂) (E₁ ++ e :: E₂) := by
      refine ⟨hspares.nil, hspares.key, fun b hb hes => ⟨(hspares.str b hb hes).1, fun hmem => ?_⟩⟩
      rcases List.mem_append.mp ((blocks_middle E₁ E₂ e).mem_iff.mp hmem) with hnew | hold
      · have hlt := (h.wf.str_bound b hb).2
        simp only [hblocks, List.mem_cons, List.not_mem_nil, or_false] at hnew
        omega
      · exact hes hold
    refine hnew _ T' E₁ e E₂ rfl habs rfl (Nat.succ_ne_zero _) (hentered.addCount _) ?_
      ⟨hblocks, ?_, ?_⟩ (hspares'.sameData hsame _ fun _ => rfl)
    · show int32 (s'.desc.count + 1) = int32 (s.desc.count + 1)
      rw [hsame.count]
      rfl
    · rw [hL, hL']
      exact List.perm_middle
    · exact (staged_trades.trans_keep hsame.toSameHeap.trades).modDesc _

/-! ## Modification -/

section Revalue

variable {s s' : State} {T : RBTree Nat} {a : Nat} {L₁ L₂ : List Nat}
  {E₁ E₂ : List Entry} {e : Entry}

/-- The value block belongs to its entry alone. -/
theorem Holds.value_apart (h : Holds s T (E₁ ++ e :: E₂)) :
    ∀ q ∈ (E₁ ++ E₂).flatMap Entry.blocks, q ≠ e.valuePtr := by
  have hperm := blocks_middle E₁ E₂ e
  have hnd := hperm.nodup_iff.mp h.nodup
  rintro q hq rfl
  have hpos := (h.block_bound (hperm.mem_iff.mpr (List.mem_append_right _ hq))).1
  have hmem : e.valuePtr ∈ e.blocks := by
    rw [Entry.blocks, if_neg (by omega)]
    simp
  exact (List.nodup_append.mp hnd).2.2 _ hmem _ hq rfl

theorem Holds.keyPtr_ne_valuePtr (h : Holds s T (E₁ ++ e :: E₂)) : e.keyPtr ≠ e.valuePtr := by
  have hperm := blocks_middle E₁ E₂ e
  have hself := (List.nodup_append.mp (hperm.nodup_iff.mp h.nodup)).1
  have hpos := (h.block_bound (hperm.mem_iff.mpr
    (List.mem_append_left _ (List.mem_cons_self : e.keyPtr ∈ e.blocks)))).1
  intro heq
  rw [Entry.blocks, if_neg (by omega), ← heq] at hself
  simp at hself

/-- What a store into the value of `a` does to the nodes. -/
theorem dataAt_of_putValue {q : Nat} (he : dataAt s a = e.ptrs)
    (hnode : s'.node = (putValue s a q).node) :
    dataAt s' a = (some e.keyPtr, some q) ∧ ∀ b, b ≠ a → dataAt s' b = dataAt s b := by
  have hdata : ∀ b, dataAt s' b = dataAt (putValue s a q) b := fun b =>
    Prod.ext (field_congr (by rw [hnode]) _) (field_congr (by rw [hnode]) _)
  have hlive : (s.node a).isSome := live_of_field (congrArg Prod.fst he)
  constructor
  · rw [hdata a]
    exact Prod.ext ((keyAt_putValue ..).trans (congrArg Prod.fst he)) (valueAt_putValue_self hlive)
  · exact fun b hb => (hdata b).trans (Prod.ext (keyAt_putValue ..) (valueAt_putValue_ne hb))

theorem sameLinks_of_putValue {q : Nat} (hnode : s'.node = (putValue s a q).node)
    (hdesc : s'.desc = s.desc) : SameLinks s s' := by
  have hput := sameLinks_putValue s a q
  have hfield : ∀ {τ : Type} (f : RbtreeNode → Option τ) (b : Nat),
      s'.field f b = (putValue s a q).field f b := fun f b => field_congr (by rw [hnode]) f
  exact ⟨fun b => (hfield _ b).trans (hput.color b), fun d b => (hfield _ b).trans (hput.child d b),
    fun b => (hfield _ b).trans (hput.parent b), hdesc⟩

/-- The blocks stay apart when the entry `e` gets a new value block, or none. -/
theorem Holds.nodup_revalue (h : Holds s T (E₁ ++ e :: E₂)) {q : Nat} (hfresh : q = 0 ∨ s.next ≤ q)
    (v : CStr) : ((E₁ ++ ⟨e.keyPtr, q, e.key, v⟩ :: E₂).flatMap Entry.blocks).Nodup := by
  have hperm := blocks_middle E₁ E₂ e
  have hnd := hperm.nodup_iff.mp h.nodup
  rw [List.nodup_append] at hnd
  have hlt : ∀ b ∈ e.blocks ++ (E₁ ++ E₂).flatMap Entry.blocks, b < s.next :=
    fun b hb => (h.block_bound (hperm.mem_iff.mpr hb)).2
  have hkey : e.keyPtr < s.next := hlt _ (by simp [Entry.blocks])
  have hsub : ∀ b ∈ Entry.blocks ⟨e.keyPtr, q, e.key, v⟩, b = e.keyPtr ∨ s.next ≤ b := by
    intro b hb
    rw [Entry.blocks, List.mem_cons] at hb
    refine hb.imp_right fun hb => ?_
    split_ifs at hb with h0
    · cases hb
    · rw [List.mem_singleton.mp hb]
      exact hfresh.resolve_left h0
  rw [(blocks_middle ..).nodup_iff, List.nodup_append]
  refine ⟨?_, hnd.2.1, ?_⟩
  · rw [Entry.blocks]
    dsimp only
    split_ifs with h0
    · simp
    · have hle := hfresh.resolve_left h0
      have hne : e.keyPtr ≠ q := by omega
      simp [hne]
  · rintro b hb _ hb' rfl
    rcases hsub b hb with rfl | hle
    · exact hnd.2.2 _ (by simp [Entry.blocks]) _ hb' rfl
    · have := hlt b (List.mem_append_right _ hb')
      omega

/-- **Changing the value of one entry.** The node `a` gets the value pointer `q`, to a new block
with the string `v` or `NULL`; the old value block may be gone. -/
theorem Holds.revalue (h : Holds s T (E₁ ++ e :: E₂)) (hL : T.toList = L₁ ++ a :: L₂)
    (h₁ : L₁.map (dataAt s) = E₁.map Entry.ptrs) (he : dataAt s a = e.ptrs)
    (h₂ : L₂.map (dataAt s) = E₂.map Entry.ptrs) {q : Nat} {v : CStr}
    (hnode : s'.node = (putValue s a q).node) (hdesc : s'.desc = s.desc)
    (hstr : ∀ b, b ≠ e.valuePtr → b < s.next → s'.cstr b = s.cstr b)
    (hnew : s'.cstr q = some v ∨ q = 0 ∧ v = default) (hfresh : q = 0 ∨ s.next ≤ q) (hwf : s'.WF) :
    Holds s' T (E₁ ++ ⟨e.keyPtr, q, e.key, v⟩ :: E₂) := by
  obtain ⟨hdata, hother⟩ := dataAt_of_putValue he hnode
  have hst := h.stored e (by simp)
  have hlt : ∀ b ∈ e.blocks ++ (E₁ ++ E₂).flatMap Entry.blocks, b < s.next :=
    fun b hb => (h.block_bound ((blocks_middle E₁ E₂ e).mem_iff.mpr hb)).2
  have hkey : e.keyPtr < s.next := hlt _ (by simp [Entry.blocks])
  have hnodes := h.rep.nodup
  rw [hL, List.nodup_append, List.nodup_cons] at hnodes
  refine ⟨(sameLinks_of_putValue hnode hdesc).rep h.rep, h.redBlack, ?_, fun e₁ he₁ => ?_,
    h.nodup_revalue hfresh v, ?_, hwf⟩
  · have h₁' : L₁.map (dataAt s') = E₁.map Entry.ptrs := by
      rw [← h₁]
      exact List.map_congr_left fun q hq => hother q (hnodes.2.2 q hq a (by simp))
    have h₂' : L₂.map (dataAt s') = E₂.map Entry.ptrs := by
      rw [← h₂]
      refine List.map_congr_left fun q hq => hother q ?_
      rintro rfl
      exact hnodes.2.1.1 hq
    rw [hL, List.map_append, List.map_cons, h₁', h₂', hdata, List.map_append, List.map_cons]
    rfl
  · rcases List.mem_cons.mp (List.perm_middle.mem_iff.mp he₁) with rfl | hmem
    · exact ⟨(hstr _ h.keyPtr_ne_valuePtr hkey).trans hst.1, hnew⟩
    · have hst₁ := h.stored e₁ (List.perm_middle.mem_iff.mpr (List.mem_cons_of_mem _ hmem))
      refine hst₁.congr h.wf fun q hq => ?_
      have hq' : q ∈ (E₁ ++ E₂).flatMap Entry.blocks := List.mem_flatMap.mpr ⟨e₁, hmem, hq⟩
      exact hstr q (h.value_apart q hq') (hlt q (List.mem_append_right _ hq'))
  · simpa using h.sorted

end Revalue

/-- The memory after `kvs_rbtree_modify` at the node `a`, whose value was in the block `p`. -/
def revalued (s : State) (a p : Nat) (v : CStr) : State :=
  (s.release p).attachStr a RbtreeNode.withValue v

/-- The old value is given back, if there is one, and there is a new block. -/
theorem revalued_trades (hs : s.WF) (hp : p = 0 ∨ (s.str p).isSome) (a : Nat)
    (v : CStr) : Trades s (revalued s a p v) (if p = 0 then [] else [p]) [s.next] where
  live q := by
    rw [revalued, live_attachStr, release_next, live_release hs hp, List.mem_singleton]
  fresh q hq := (List.mem_singleton.mp hq).ge
  next := by
    rw [revalued, attachStr_next, release_next]
    exact Nat.le_succ _

/-- The memory after a `kvs_rbtree_modify` whose allocation failed: the value is lost. -/
def bereft (s : State) (a p : Nat) : State := putValue (s.release p) a 0

section Modified

variable {s : State} {T : RBTree Nat} {a : Nat} {L₁ L₂ : List Nat} {E₁ E₂ : List Entry} {e : Entry}

theorem revalued_node {v : CStr} : (revalued s a p v).node = (putValue s a s.next).node := by
  rw [revalued, attachStr, putStr_node, putValue, modNode, modNode,
    allocStr_node, release_node, release_next]
  rfl

theorem revalued_str_ne {b : Nat} {v : CStr} (hb : b ≠ p) (hlt : b < s.next) :
    (revalued s a p v).str b = s.str b := by
  rw [revalued, attachStr_str_ne (by rw [release_next]; omega), release_str_ne hb]

theorem bereft_node : (bereft s a p).node = (putValue s a 0).node := by
  rw [bereft, putValue, putValue, modNode, modNode, release_node]

theorem Holds.revalued (h : Holds s T (E₁ ++ e :: E₂)) (hL : T.toList = L₁ ++ a :: L₂)
    (h₁ : L₁.map (dataAt s) = E₁.map Entry.ptrs) (he : dataAt s a = e.ptrs)
    (h₂ : L₂.map (dataAt s) = E₂.map Entry.ptrs) (v : CStr) :
    Holds (revalued s a e.valuePtr v) T (E₁ ++ ⟨e.keyPtr, s.next, e.key, v⟩ :: E₂) := by
  refine h.revalue hL h₁ he h₂ revalued_node release_desc
    (fun b hb hlt => cstr_congr (revalued_str_ne hb hlt)) (Or.inl ?_) (Or.inr le_rfl)
    h.wf.release.attachStr
  have hself : (Rbtree.revalued s a e.valuePtr v).cstr (s.release e.valuePtr).next = some v :=
    cstr_attachStr_self
  rwa [release_next] at hself

theorem Holds.bereft (h : Holds s T (E₁ ++ e :: E₂)) (hL : T.toList = L₁ ++ a :: L₂)
    (h₁ : L₁.map (dataAt s) = E₁.map Entry.ptrs) (he : dataAt s a = e.ptrs)
    (h₂ : L₂.map (dataAt s) = E₂.map Entry.ptrs) :
    Holds (bereft s a e.valuePtr) T (E₁ ++ ⟨e.keyPtr, 0, e.key, default⟩ :: E₂) := by
  exact h.revalue hL h₁ he h₂ bereft_node release_desc
    (fun b hb _ => cstr_congr (release_str_ne hb)) (Or.inr ⟨rfl, rfl⟩) (Or.inl rfl)
    (h.wf.release.modNode _ _)

end Modified

/-- The memory that `kvs_rbtree_modify` leaves: the value of the node `a` is exchanged, or lost when
the allocation fails. -/
theorem ok_kvsRbtreeModify_state (h : Holds s T es) (alloc : AllocPlan) (k v : CStr)
    (hfound : ∀ (a : Nat) (L₁ L₂ : List Nat) (E₁ : List Entry) (e : Entry) (E₂ : List Entry),
      T.toList = L₁ ++ a :: L₂ → es = E₁ ++ e :: E₂ →
      L₁.map (dataAt s) = E₁.map Entry.ptrs → dataAt s a = e.ptrs →
        L₂.map (dataAt s) = E₂.map Entry.ptrs → e.key = k →
          (alloc 0 = true → Q 0 (revalued s a e.valuePtr v)) ∧
            (alloc 0 = false → Q (-1) (bereft s a e.valuePtr)))
    (hmiss : k ∉ es.map Entry.key → Q (-1) s) :
    Ok (kvsRbtreeModify alloc (some k) (some v)) s Q := by
  unfold kvsRbtreeModify
  rw [ok_bind]
  refine h.ok_search k ?_ ?_
  · intro a L₁ L₂ E₁ e E₂ hL hE h₁ he h₂ hk hne
    have hQ := hfound a L₁ L₂ E₁ e E₂ hL hE h₁ he h₂ hk
    have hv : valueAt s a = some e.valuePtr := congrArg Prod.snd he
    have hlive : ((s.release e.valuePtr).node a).isSome := by
      rw [release_node]
      exact live_of_field hv
    rw [ok_bind, ok_getNil, if_neg hne, ok_bind, ok_getValue hv, ok_bind,
      ok_free_release h.wf (h.stored e (by simp [hE])).value_live, ok_bind, ok_argStr_some, ok_bind]
    cases halloc : alloc 0 with
    | false =>
        rw [ok_mallocStr_false, ok_bind, ok_setValue hlive, ok_bind,
          ok_getValue (valueAt_putValue_self hlive), if_pos rfl, ok_pure]
        exact hQ.2 halloc
    | true =>
        -- the block `s.next` is allocated after the old value has been freed
        have hn : s.next ≠ 0 := by have := h.wf.next_pos; omega
        let s₁ := (s.release e.valuePtr).allocStr (v.strlen + 1)
        have hv₁ : valueAt (putValue s₁ a s.next) a = some s.next := valueAt_putValue_self hlive
        have hb₁ : (putValue s₁ a s.next).str s.next = some ⟨v.strlen + 1, none⟩ := by
          have := allocStr_str_self (s.release e.valuePtr) (v.strlen + 1)
          rwa [release_next] at this
        have hstate : (putValue s₁ a s.next).putStr s.next v = revalued s a e.valuePtr v := by
          rw [revalued, attachStr, release_next]
          rfl
        rw [ok_mallocStr_true, ok_bind, ok_setValue (show (s₁.node a).isSome from hlive),
          release_next]
        rw [ok_bind, ok_getValue hv₁, if_neg hn, ok_bind, ok_getValue hv₁, ok_bind,
          ok_strcpy hb₁ le_rfl, ok_pure, hstate]
        exact hQ.1 halloc
  · intro habs
    rw [ok_bind, ok_getNil, if_pos rfl, ok_pure]
    exact hmiss habs

/-- The blocks of an entry with another value. -/
theorem mem_blocks_revalue {E₁ E₂ : List Entry} {e' : Entry}
    (hkey : e'.keyPtr = e.keyPtr) {b : Nat} (hb : b ∈ (E₁ ++ e' :: E₂).flatMap Entry.blocks) :
    b ∈ (E₁ ++ e :: E₂).flatMap Entry.blocks ∨ b = e'.valuePtr ∧ b ≠ 0 := by
  rw [(blocks_middle ..).mem_iff, List.mem_append, Entry.blocks, List.mem_cons] at hb
  rw [(blocks_middle ..).mem_iff, List.mem_append, Entry.blocks, List.mem_cons, ← hkey]
  rcases hb with (hb | hb) | hb
  · exact Or.inl (Or.inl (Or.inl hb))
  · split_ifs at hb with h0
    · cases hb
    · rw [List.mem_singleton] at hb
      exact Or.inr ⟨hb, hb ▸ h0⟩
  · exact Or.inl (Or.inr hb)

/-- An exchange of the value of the node `a` touches the strings of its entry only. -/
theorem Holds.spares_revalue {s' : State} {E₁ E₂ : List Entry} {e' : Entry}
    {a q : Nat} (h : Holds s T (E₁ ++ e :: E₂)) (hnode : s'.node = (putValue s a q).node)
    (hdesc : s'.desc = s.desc) (hstr : ∀ b, b ≠ e.valuePtr → b < s.next → s'.str b = s.str b)
    (hkey : e'.keyPtr = e.keyPtr) (hvalue : e'.valuePtr = 0 ∨ s.next ≤ e'.valuePtr) :
    Spares s s' (E₁ ++ e :: E₂) (E₁ ++ e' :: E₂) where
  nil := congrArg Tree.nil hdesc
  key := by
    have hfield : keyAt s' s.desc.nil = keyAt (putValue s a q) s.desc.nil :=
      field_congr (by rw [hnode]) _
    exact hfield.trans (keyAt_putValue ..)
  str b hb hes := by
    have hlt := (h.wf.str_bound b hb).2
    refine ⟨?_, fun hmem => ?_⟩
    · rw [hstr b (h.ne_valuePtr (by simp) hb hes) hlt]
      exact hb
    · rcases mem_blocks_revalue hkey hmem with hold | ⟨rfl, h0⟩
      · exact hes hold
      · have hle := hvalue.resolve_left h0
        omega

theorem ok_kvsRbtreeModify (h : Holds s T es) (alloc : AllocPlan) (k v : CStr)
    (hfound : ∀ (s' : State) (E₁ : List Entry) (e e' : Entry) (E₂ : List Entry), alloc 0 = true →
      es = E₁ ++ e :: E₂ → e.key = k → e'.pair = (k, v) → e'.valuePtr ≠ 0 →
        Holds s' T (E₁ ++ e' :: E₂) → s'.desc = s.desc →
          e'.keyPtr = e.keyPtr ∧ Trades s s' e.blocks.tail [e'.valuePtr] →
          Spares s s' es (E₁ ++ e' :: E₂) → Q 0 s')
    (hlost : ∀ (s' : State) (E₁ : List Entry) (e e' : Entry) (E₂ : List Entry), alloc 0 = false →
      es = E₁ ++ e :: E₂ → e.key = k → e'.key = k → e'.valuePtr = 0 →
        Holds s' T (E₁ ++ e' :: E₂) → s'.desc = s.desc →
          Spares s s' es (E₁ ++ e' :: E₂) → Q (-1) s')
    (hmiss : k ∉ es.map Entry.key → Q (-1) s) :
    Ok (kvsRbtreeModify alloc (some k) (some v)) s Q := by
  refine ok_kvsRbtreeModify_state h alloc k v ?_ hmiss
  rintro a L₁ L₂ E₁ e E₂ hL rfl h₁ he h₂ hk
  have hn : s.next ≠ 0 := by have := h.wf.next_pos; omega
  constructor
  · intro halloc
    refine hfound _ E₁ e _ E₂ halloc rfl hk (by rw [Entry.pair, hk]) hn (h.revalued hL h₁ he h₂ v)
      release_desc ⟨rfl, revalued_trades h.wf (h.stored e (by simp)).value_live a v⟩ ?_
    exact h.spares_revalue revalued_node release_desc
      (fun b hb hlt => revalued_str_ne hb hlt) rfl (Or.inr le_rfl)
  · intro halloc
    refine hlost _ E₁ e ⟨e.keyPtr, 0, e.key, default⟩ E₂ halloc rfl hk hk rfl (h.bereft hL h₁ he h₂)
      release_desc ?_
    exact h.spares_revalue bereft_node release_desc
      (fun b hb _ => release_str_ne hb) rfl (Or.inl rfl)

/-- The new value is not tested for `NULL`, after the old one has been freed. -/
theorem Holds.not_ok_modify_null (h : Holds s T es)
    {k : CStr} (hk : k ∈ es.map Entry.key) (alloc : AllocPlan) (Q : Int → State → Prop) :
    ¬Ok (kvsRbtreeModify alloc (some k) none) s Q := by
  have hno : Ok (rbtreeSearch (some k)) s (fun node s' => ¬Ok (do
      if node = (← getNil) then return -1
      let tmp ← getValue node
      free tmp
      let v ← argStr none
      setValue node (← mallocStr (alloc 0) (v.strlen + 1))
      if (← getValue node) = 0 then return -1
      strcpy (← getValue node) v
      return 0) s' Q) := by
    refine h.ok_search k ?_ (fun habs => absurd hk habs)
    intro a L₁ L₂ E₁ e E₂ _ hE _ he _ _ hne
    have hv : valueAt s a = some e.valuePtr := congrArg Prod.snd he
    rw [ok_bind, ok_getNil, if_neg hne, ok_bind, ok_getValue hv, ok_bind,
      ok_free_release h.wf (h.stored e (by simp [hE])).value_live, ok_bind]
    exact ok_argStr_none _ _
  obtain ⟨node, s', hrun, hnot⟩ := hno
  rw [kvsRbtreeModify, ok_bind, ok_of_run hrun]
  exact hnot

/-! ## Creation -/

/-- The memory after `kvstore_rbtree_create` in the memory `s`. -/
def createdIn (s : State) : State :=
  putRoot (putColor (putStr (putKey ((((s.modDesc fun _ => ⟨0, 0, 0⟩).allocNode {}).modDesc
    ({ · with nil := s.next })).allocStr 1) s.next (s.next + 1)) (s.next + 1) default)
    s.next .black)
      s.next

theorem createdIn_live (s : State) (g : Tree → Tree) :
    ((((s.modDesc fun _ => ⟨0, 0, 0⟩).allocNode {}).modDesc g).node s.next).isSome := by
  rw [modDesc_node]
  exact Option.isSome_iff_exists.mpr ⟨_, allocNode_node_self (s.modDesc _) _⟩

theorem holds_createdIn (hs : s.WF) : Holds (createdIn s) .nil [] where
  rep := by
    refine ⟨rfl, trivial, List.nodup_nil, List.not_mem_nil, ?_⟩
    refine colorAt_putColor_self ?_
    rw [putStr_node, putKey, modNode_node_isSome]
    exact createdIn_live s ({ · with nil := s.next })
  redBlack := isRedBlack_nil
  data := rfl
  stored e he := absurd he List.not_mem_nil
  nodup := List.nodup_nil
  sorted := List.Pairwise.nil
  wf := by
    unfold createdIn putRoot putColor putKey putStr
    exact (((((((hs.modDesc _).allocNode {}).modDesc _).allocStr 1).modNode _ _).modStr _
      _).modNode _ _).modDesc _

theorem ok_kvstoreRbtreeCreate {alloc : AllocPlan} (h₀ : alloc 0 = true) (h₁ : alloc 1 = true)
    (s : State) : Ok (kvstoreRbtreeCreate alloc) s (fun r s' => r = 0 ∧ s' = createdIn s) := by
  let s₁ : State := ((s.modDesc fun _ => ⟨0, 0, 0⟩).allocNode {}).modDesc ({ · with nil := s.next })
  let s₂ : State := putKey (s₁.allocStr 1) s.next (s.next + 1)
  let s₃ : State := s₂.putStr (s.next + 1) default
  have hlive₁ : ((s₁.allocStr 1).node s.next).isSome := createdIn_live s ({ · with nil := s.next })
  have hkey : keyAt s₂ s.next = some (s.next + 1) := keyAt_putKey_self hlive₁
  have hblock : s₂.str (s.next + 1) = some ⟨1, none⟩ := allocStr_str_self s₁ 1
  have hlive₃ : (s₃.node s.next).isSome := live_of_field hkey
  unfold kvstoreRbtreeCreate
  rw [h₀, h₁, ok_bind, ok_writeDesc, ok_bind, ok_mallocNode_true, ok_bind, ok_writeDesc, ok_bind,
    ok_getNil, ok_bind, ok_mallocStr_true]
  change Ok (setKey s.next (s.next + 1) >>= _) (s₁.allocStr 1) _
  rw [ok_bind, ok_setKey hlive₁, ok_bind, ok_getNil]
  change Ok (getKey s.next >>= _) s₂ _
  rw [ok_bind, ok_getKey hkey, ok_bind, ok_strcpy hblock le_rfl, ok_bind, ok_getNil]
  change Ok (setColor s.next .black >>= _) s₃ _
  rw [ok_bind, ok_setColor hlive₃, ok_bind, ok_getNil, ok_bind, ok_setRoot, ok_pure]
  exact ⟨rfl, rfl⟩

/-- **Creation** in any memory: it makes an empty tree, or does not return. -/
theorem returns_kvstoreRbtreeCreate (hs : s.WF) (alloc : AllocPlan) :
    Returns (kvstoreRbtreeCreate alloc) s (fun _ s' => s' = createdIn s) := by
  cases h₀ : alloc 0 with
  | false =>
      refine returns_of_not_ok ?_
      unfold kvstoreRbtreeCreate
      rw [h₀, ok_bind, ok_writeDesc, ok_bind, ok_mallocNode_false, ok_bind, ok_writeDesc, ok_bind,
        ok_getNil, ok_bind]
      rintro ⟨q, s₁, hq, hset⟩
      -- the key of the sentinel is written through `NULL`
      have hnull : s₁.node 0 = none := by
        cases h₁ : alloc 1 <;> rw [h₁] at hq <;> cases hq <;> exact hs.node_null
      exact (returns_bind (returns_writeField_none hnull _)).not_ok _ hset
  | true =>
      cases h₁ : alloc 1 with
      | false =>
          let s₁ : State :=
            ((s.modDesc fun _ => ⟨0, 0, 0⟩).allocNode {}).modDesc ({ · with nil := s.next })
          have hlive : (s₁.node s.next).isSome := createdIn_live s ({ · with nil := s.next })
          refine returns_of_not_ok ?_
          unfold kvstoreRbtreeCreate
          rw [h₀, h₁, ok_bind, ok_writeDesc, ok_bind, ok_mallocNode_true, ok_bind,
            ok_writeDesc, ok_bind, ok_getNil, ok_bind, ok_mallocStr_false]
          change ¬Ok (setKey s.next 0 >>= _) s₁ _
          rw [ok_bind, ok_setKey hlive, ok_bind, ok_getNil, ok_bind]
          change ¬Ok (getKey s.next) (putKey s₁ s.next 0) _
          rw [ok_getKey (keyAt_putKey_self hlive)]
          -- the terminator of its key is written through `NULL`
          have hnull : (putKey s₁ s.next 0).str 0 = none := hs.str_null
          exact (returns_bind (returns_strcpy_none hnull _ _)).not_ok _
      | true => exact (ok_kvstoreRbtreeCreate h₀ h₁ s).returns.mono fun _ _ h => h.2

/-- The memory after `kvstore_rbtree_create`: the sentinel, with an empty key. -/
def created : State :=
  putRoot (putColor (putStr (putKey (((blank.allocNode {}).modDesc
    ({ · with nil := 1 })).allocStr 1) 1 2) 2 default) 1 .black) 1

theorem kvstoreRbtreeCreate_run : (kvstoreRbtreeCreate allOk).run blank = .ok (0, created) := rfl

theorem blank_wf : blank.WF := ⟨Nat.one_pos, nofun, nofun, nofun⟩

theorem createdIn_blank : createdIn blank = created := by
  have hdesc : blank.modDesc (fun _ => (⟨0, 0, 0⟩ : Tree)) = blank := rfl
  unfold createdIn
  rw [hdesc]
  rfl

theorem holds_created : Holds created .nil [] := createdIn_blank ▸ holds_createdIn blank_wf

end KvStore.Rbtree
