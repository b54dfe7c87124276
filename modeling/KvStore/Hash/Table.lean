import KvStore.Hash.Model
import KvStore.Lib.Ledger
import KvStore.Lib.Chain

set_option autoImplicit false

/-! # The chained table in memory

`Holds size s tab` is the invariant of the engine: the slots of the memory `s` hold the chains of
cells `tab`, every cell lies in the slot its key hashes to, no key and no block occurs twice, and
`count` is the number of cells. The functions of the interface work on the chain of one slot:

* `ok_putKvHashtable`: a new cell at the head, or nothing when the key is there;
* `ok_getKvHashtable`: the value of the cell;
* `ok_deleteKvHashtable`: the cell is unlinked, at the head or behind another one, and freed;
* `ok_modifyKvHashtable`: the cell has a new value block.
-/

namespace KvStore.Hash

open Function KvStore.Lib Store

/-! ## Fields -/

def keyAt (s : State) (p : Nat) : Option Nat := s.field (·.key) p
def valueAt (s : State) (p : Nat) : Option Nat := s.field (·.value) p
def nextAt (s : State) (p : Nat) : Option Nat := s.field (·.next) p

section Fields

variable {s : State} {p q : Nat}

theorem ok_getKey (h : keyAt s p = some q) (Q : Nat → State → Prop) :
    Ok (getKey p) s Q ↔ Q q s := ok_readField h Q

theorem ok_getValue (h : valueAt s p = some q) (Q : Nat → State → Prop) :
    Ok (getValue p) s Q ↔ Q q s := ok_readField h Q

theorem ok_getNext (h : nextAt s p = some q) (Q : Nat → State → Prop) :
    Ok (getNext p) s Q ↔ Q q s := ok_readField h Q

theorem ok_setKey (h : (s.node p).isSome) (Q : Unit → State → Prop) :
    Ok (setKey p q) s Q ↔ Q () (s.modNode p (HashNode.withKey q)) := ok_writeField h Q

theorem ok_setValue (h : (s.node p).isSome) (Q : Unit → State → Prop) :
    Ok (setValue p q) s Q ↔ Q () (s.modNode p (HashNode.withValue q)) := ok_writeField h Q

theorem ok_setNext (h : (s.node p).isSome) (Q : Unit → State → Prop) :
    Ok (setNext p q) s Q ↔ Q () (s.modNode p (HashNode.withNext q)) := ok_writeField h Q

variable {size i : Nat}

theorem ok_getSlot (hi : i < size) (h : s.desc.nodes i = some p) (Q : Nat → State → Prop) :
    Ok (getSlot size i) s Q ↔ Q p s := by
  have hbounds : 0 ≤ (i : Int) ∧ (i : Int) < size := by omega
  rw [getSlot, if_pos hbounds, ok_bind, ok_readDesc, Int.toNat_natCast, h]
  exact ok_pure ..

theorem ok_setSlot (hi : i < size) (Q : Unit → State → Prop) :
    Ok (setSlot size i p) s Q ↔ Q () (s.modDesc (Hashtable.withSlot i p)) := by
  have hbounds : 0 ≤ (i : Int) ∧ (i : Int) < size := by omega
  rw [setSlot, if_pos hbounds, ok_writeDesc, Int.toNat_natCast]

end Fields

/-! ## The invariant -/

/-- A node with the two strings it owns. -/
structure Cell where
  node : Nat
  keyPtr : Nat
  valuePtr : Nat
  key : CStr
  value : CStr

def Cell.blocks (c : Cell) : List Nat := [c.node, c.keyPtr, c.valuePtr]

def Cell.pair (c : Cell) : CStr × CStr := (c.key, c.value)

/-- The cell is in memory. -/
structure Cell.Stored (s : State) (c : Cell) : Prop where
  keyPtr : keyAt s c.node = some c.keyPtr
  valuePtr : valueAt s c.node = some c.valuePtr
  key : s.cstr c.keyPtr = some c.key
  value : s.cstr c.valuePtr = some c.value

/-- **The invariant of the engine.** -/
structure Holds (size : Nat) (s : State) (tab : Nat → List Cell) : Prop where
  chain : ∀ i < size, ∃ p, s.desc.nodes i = some p ∧ s.Chain (·.next) p ((tab i).map Cell.node)
  stored : ∀ c ∈ joined size tab, c.Stored s
  slot : ∀ i < size, ∀ c ∈ tab i, hash (some c.key) size = i
  keys : ((joined size tab).map Cell.key).Nodup
  blocks : ((joined size tab).flatMap Cell.blocks).Nodup
  count : s.desc.count = int32 (joined size tab).length
  wf : s.WF

section Holds

variable {s s' : State} {c : Cell} {size i : Nat} {tab : Nat → List Cell} {k : CStr}
  {L₁ L₂ : List Cell}

theorem Cell.Stored.congr (h : c.Stored s) (hk : keyAt s' c.node = keyAt s c.node)
    (hv : valueAt s' c.node = valueAt s c.node) (hks : s'.str c.keyPtr = s.str c.keyPtr)
    (hvs : s'.str c.valuePtr = s.str c.valuePtr) : c.Stored s' where
  keyPtr := hk.trans h.keyPtr
  valuePtr := hv.trans h.valuePtr
  key := (cstr_congr hks).trans h.key
  value := (cstr_congr hvs).trans h.value

theorem Cell.Stored.modDesc (h : c.Stored s) (g : Hashtable → Hashtable) : c.Stored (s.modDesc g) :=
  h.congr rfl rfl rfl rfl

theorem Cell.Stored.setNext (h : c.Stored s) (p q : Nat) :
    c.Stored (s.modNode p (HashNode.withNext q)) :=
  h.congr (field_modNode_other _ _ _ fun _ => rfl)
    (field_modNode_other _ _ _ fun _ => rfl) rfl rfl

theorem Cell.Stored.live (h : c.Stored s) : (s.node c.node).isSome := live_of_field h.keyPtr

theorem Holds.stored_slot (h : Holds size s tab) (hi : i < size) : ∀ c ∈ tab i, c.Stored s :=
  fun c hc => h.stored c (mem_joined.mpr ⟨i, hi, hc⟩)

/-- Every block of a cell is allocated. -/
theorem Holds.block_lt (h : Holds size s tab) {p : Nat}
    (hp : p ∈ (joined size tab).flatMap Cell.blocks) : p < s.next := by
  obtain ⟨c, hc, hpc⟩ := List.mem_flatMap.mp hp
  have hst := h.stored c hc
  simp only [Cell.blocks, List.mem_cons, List.not_mem_nil, or_false] at hpc
  rcases hpc with rfl | rfl | rfl
  · exact (h.wf.node_bound _ hst.live).2
  · exact (h.wf.str_bound _ (live_of_cstr hst.key)).2
  · exact (h.wf.str_bound _ (live_of_cstr hst.value)).2

/-- A key that is not in its slot is nowhere in the table. -/
theorem Holds.absent (h : Holds size s tab) (hk : hash (some k) size = i)
    (habs : k ∉ (tab i).map Cell.key) : k ∉ (joined size tab).map Cell.key := by
  intro hmem
  obtain ⟨c, hc, rfl⟩ := List.mem_map.mp hmem
  obtain ⟨j, hj, hcj⟩ := mem_joined.mp hc
  have hij : (i : Int) = j := hk.symm.trans (h.slot j hj c hcj)
  have hij' : i = j := by omega
  subst hij'
  exact habs (List.mem_map_of_mem hcj)

/-- **Replacing the chain of one slot.** What an operation on the slot `i` has to show: its chain
and the cells in it, and that it left the chains of the other slots alone. -/
theorem Holds.replace (h : Holds size s tab) (hi : i < size) {L : List Cell}
    (hchain : ∃ p, s'.desc.nodes i = some p ∧ s'.Chain (·.next) p (L.map Cell.node))
    (hslots : ∀ j, j ≠ i → s'.desc.nodes j = s.desc.nodes j)
    (hnext : ∀ c ∈ others size tab i, nextAt s' c.node = nextAt s c.node)
    (hstored : ∀ c ∈ L ++ others size tab i, c.Stored s')
    (hslot : ∀ c ∈ L, hash (some c.key) size = i)
    (hkeys : ((L ++ others size tab i).map Cell.key).Nodup)
    (hblocks : ((L ++ others size tab i).flatMap Cell.blocks).Nodup)
    (hcount : s'.desc.count = int32 (L ++ others size tab i).length) (hwf : s'.WF) :
    Holds size s' (update tab i L) := by
  have hperm : (joined size (update tab i L)).Perm (L ++ others size tab i) :=
    joined_update_perm hi L
  refine ⟨fun j hj => ?_, fun c hc => hstored c (hperm.mem_iff.mp hc), fun j hj c hc => ?_,
    (hperm.map _).nodup_iff.mpr hkeys, (hperm.flatMap_right _).nodup_iff.mpr hblocks, ?_, hwf⟩
  · by_cases hji : j = i
    · subst hji
      rw [update_self]
      exact hchain
    · obtain ⟨p, hp, hch⟩ := h.chain j hj
      rw [update_of_ne hji, hslots j hji]
      refine ⟨p, hp, hch.congr fun a ha => ?_⟩
      obtain ⟨c, hc, rfl⟩ := List.mem_map.mp ha
      exact hnext c (mem_others.mpr ⟨j, hj, hji, hc⟩)
  · by_cases hji : j = i
    · subst hji
      rw [update_self] at hc
      exact hslot c hc
    · rw [update_of_ne hji] at hc
      exact h.slot j hj c hc
  · rw [hcount, hperm.length_eq]

/-- The blocks of a cell belong to no other cell. -/
theorem Holds.apart (h : Holds size s tab) (hi : i < size) (hL : tab i = L₁ ++ c :: L₂) :
    c.blocks.Nodup ∧ ((L₁ ++ L₂ ++ others size tab i).flatMap Cell.blocks).Nodup ∧
      ∀ d ∈ L₁ ++ L₂ ++ others size tab i, ∀ p ∈ d.blocks, p ∉ c.blocks := by
  have hnd := ((joined_split_perm hi hL).flatMap_right Cell.blocks).nodup_iff.mp h.blocks
  rw [List.flatMap_cons, List.nodup_append] at hnd
  refine ⟨hnd.1, hnd.2.1, fun d hd p hp hpc => ?_⟩
  exact hnd.2.2 p hpc p (List.mem_flatMap.mpr ⟨d, hd, hp⟩) rfl

theorem Holds.value_ne_key (h : Holds size s tab) (hi : i < size) (hL : tab i = L₁ ++ c :: L₂) :
    c.valuePtr ≠ c.keyPtr := by
  have hnd := (h.apart hi hL).1
  simp only [Cell.blocks, List.nodup_cons, List.mem_singleton] at hnd
  exact Ne.symm hnd.2.1

end Holds

/-! ## Searching a chain -/

variable {Q : Nat → State → Prop} {alloc : AllocPlan} {q : Nat}

section Search

variable {s : State} {L : List Cell} {p : Nat}

/-- The search loop of `put`, `get` and `modify`. -/
theorem ok_findNode (hwf : s.WF) (hchain : s.Chain (·.next) p (L.map Cell.node))
    (hst : ∀ c ∈ L, c.Stored s) (k : CStr) (hfound : ∀ (L₁ : List Cell) (c : Cell) (L₂ : List Cell),
      L = L₁ ++ c :: L₂ → c.key = k → c.node ≠ 0 → Q c.node s)
    (hmiss : k ∉ L.map Cell.key → Q 0 s) : Ok (findNode k p) s Q := by
  -- the ghost value is the part of the chain that is still ahead
  refine Ok.whileLoop (fun (rest : List Cell) a t => t = s ∧
    s.Chain (·.next) a (rest.map Cell.node) ∧ ∃ L₁, L = L₁ ++ rest ∧ k ∉ L₁.map Cell.key)
    List.length Q ?_ (i := L) ?_ ⟨rfl, hchain, [], rfl, by simp⟩
  · rintro rest a t ⟨rfl, hrest, L₁, hL, hk⟩
    cases rest with
    | nil =>
        have ha : a = 0 := hrest
        rw [findStep, if_neg (by simp [ha]), ok_pure]
        apply hmiss
        rw [hL, List.append_nil]
        exact hk
    | cons c rest =>
        obtain ⟨rfl, hc0, q, hq, hnext⟩ := hrest
        have hc := hst c (by simp [hL])
        rw [findStep, if_pos hc0, ok_bind, ok_getKey hc.keyPtr, ok_bind, ok_readStr hc.key]
        by_cases heq : c.key = k
        · rw [if_pos ((CStr.strcmp_eq_zero_iff ..).mpr heq), ok_pure]
          exact hfound L₁ c rest hL heq hc0
        · rw [if_neg (mt (CStr.strcmp_eq_zero_iff ..).mp heq), ok_bind, ok_getNext hq, ok_pure]
          refine ⟨rest, ⟨rfl, hnext, L₁ ++ [c], by simp [hL], ?_⟩, by simp⟩
          rw [List.map_append, List.mem_append, not_or]
          exact ⟨hk, by simpa using Ne.symm heq⟩
  · simpa using hchain.length_le hwf

/-- The loop of `delete`, from a head that has another key: it stops before the node of the key, or
at the end of the chain. -/
theorem ok_deleteLoop (hwf : s.WF) {c₀ : Cell}
    (hchain : s.Chain (·.next) p ((c₀ :: L).map Cell.node)) (hst : ∀ c ∈ c₀ :: L, c.Stored s)
    (k : CStr) (hk₀ : c₀.key ≠ k) (hfound : ∀ (L₁ : List Cell) (b c : Cell) (L₂ : List Cell),
      c₀ :: L = L₁ ++ b :: c :: L₂ → c.key = k → Q b.node s)
    (hmiss : ∀ b : Cell, k ∉ (c₀ :: L).map Cell.key → nextAt s b.node = some 0 → Q b.node s) :
    Ok (whileLoop (deleteStep k) c₀.node) s Q := by
  -- the ghost value is the current cell with what is ahead of it
  refine Ok.whileLoop (fun (r : Cell × List Cell) a t => t = s ∧ a = r.1.node ∧
    ∃ L₁, c₀ :: L = L₁ ++ r.1 :: r.2 ∧ k ∉ (L₁ ++ [r.1]).map Cell.key)
    (fun r => r.2.length) Q ?_ (i := (c₀, L)) ?_ ⟨rfl, rfl, [], rfl, by simpa using Ne.symm hk₀⟩
  · rintro ⟨b, rest⟩ a t ⟨rfl, rfl, L₁, hL, hk⟩
    dsimp only at hL hk ⊢
    have hb := hchain
    rw [hL, List.map_append, List.map_cons] at hb
    obtain ⟨q, hq, hnext⟩ := hb.after
    cases rest with
    | nil =>
        have hq0 : q = 0 := hnext
        subst hq0
        rw [deleteStep, ok_bind, ok_getNext hq, if_neg (by simp), ok_pure]
        exact hmiss b (hL ▸ hk) hq
    | cons c rest =>
        obtain ⟨rfl, hc0, -⟩ := hnext
        have hc := hst c (by simp [hL])
        rw [deleteStep, ok_bind, ok_getNext hq, if_pos hc0, ok_bind, ok_getNext hq, ok_bind,
          ok_getKey hc.keyPtr, ok_bind, ok_readStr hc.key]
        by_cases heq : c.key = k
        · rw [if_pos ((CStr.strcmp_eq_zero_iff ..).mpr heq), ok_pure]
          exact hfound L₁ b c rest hL heq
        · rw [if_neg (mt (CStr.strcmp_eq_zero_iff ..).mp heq), ok_bind, ok_getNext hq, ok_pure]
          refine ⟨(c, rest), ⟨rfl, rfl, L₁ ++ [b], by simp [hL], ?_⟩, by simp⟩
          rw [List.map_append, List.mem_append, not_or]
          exact ⟨hk, by simpa using Ne.symm heq⟩
  · have hlen := hchain.length_le hwf
    simp only [List.length_map, List.length_cons] at hlen
    show L.length ≤ s.next
    omega

end Search

/-! ## Lookup -/

theorem ok_getKvHashtable {size i : Nat} {s : State} {tab : Nat → List Cell} (h : Holds size s tab)
    {k : CStr} (hk : hash (some k) size = i) (hi : i < size)
    (hfound : ∀ c ∈ joined size tab, c.key = k → Q c.valuePtr s)
    (hmiss : k ∉ (joined size tab).map Cell.key → Q 0 s) :
    Ok (getKvHashtable size (some k)) s Q := by
  obtain ⟨p, hp, hchain⟩ := h.chain i hi
  rw [getKvHashtable, hk]
  rw [ok_bind, ok_getSlot hi hp, ok_bind]
  refine ok_findNode h.wf hchain (h.stored_slot hi) k ?_ ?_
  · intro L₁ c L₂ hL hck hc0
    have hc : c ∈ tab i := by simp [hL]
    rw [if_pos hc0, ok_getValue (h.stored_slot hi c hc).valuePtr]
    exact hfound c (mem_joined.mpr ⟨i, hi, hc⟩) hck
  · intro habs
    rw [if_neg (by simp), ok_pure]
    exact hmiss (h.absent hk habs)

/-! ## Insertion -/

/-- The memory with a new node that holds `k` and `v` and points to `q`. -/
def staged (s : State) (k v : CStr) (q : Nat) : State :=
  (((s.allocNode {}).attachStr s.next HashNode.withKey k).attachStr s.next HashNode.withValue
    v).modNode s.next (HashNode.withNext q)

section Insert

variable {s : State} {k v : CStr} {q : Nat}

theorem staged_live : ((staged s k v q).node s.next).isSome := by
  rw [staged, modNode_node_isSome]
  simp [allocNode_node_self]

theorem staged_wf (hs : s.WF) :
    (staged s k v q).WF := (hs.allocNode {}).attachStr.attachStr.modNode _ _

theorem staged_grows (hs : s.WF) : Grows s (staged s k v q) :=
  ((((Grows.refl s).allocNode hs {}).attachStr hs le_rfl).attachStr hs le_rfl).modNode le_rfl
    hs _

theorem staged_relink (r : Nat) :
    (staged s k v q).modNode s.next (HashNode.withNext r) = staged s k v r :=
  modNode_modNode ..

/-- The new node with its strings. -/
theorem staged_stored : Cell.Stored (staged s k v q) ⟨s.next, s.next + 1, s.next + 2, k, v⟩ where
  keyPtr := by
    have hlive := allocNode_isSome s {}
    show (staged s k v q).field (·.key) s.next = some (s.next + 1)
    rw [staged, field_modNode_other (g := HashNode.withNext q) _ _ _ (fun _ => rfl),
      field_attachStr_other (g := HashNode.withValue) (fun _ _ => rfl)]
    exact field_attachStr_self hlive fun _ _ => rfl
  valuePtr := by
    have hlive := allocNode_isSome s {}
    show (staged s k v q).field (·.value) s.next = some (s.next + 2)
    rw [staged, field_modNode_other (g := HashNode.withNext q) _ _ _ (fun _ => rfl)]
    exact field_attachStr_self (by simpa using hlive) fun _ _ => rfl
  key := by
    show (((s.allocNode {}).attachStr s.next HashNode.withKey k).attachStr s.next
      HashNode.withValue v).cstr (s.next + 1) = some k
    rw [cstr_attachStr_ne (by simp)]
    exact cstr_attachStr_self
  value := by
    show (((s.allocNode {}).attachStr s.next HashNode.withKey k).attachStr s.next
      HashNode.withValue v).cstr (s.next + 2) = some v
    exact cstr_attachStr_self

theorem staged_next : nextAt (staged s k v q) s.next = some q := by
  refine field_modNode_self ?_ fun _ => rfl
  simp [allocNode_node_self]

/-- The node and its two strings are new. -/
theorem staged_trades :
    Trades s (staged s k v q) [] [s.next, s.next + 1, s.next + 2] where
  live p := by
    rw [staged, live_modNode, live_attachStr, live_attachStr, live_allocNode]
    simp [or_assoc]
  fresh p hp := by
    simp only [List.mem_cons, List.not_mem_nil, or_false] at hp
    omega
  next := by
    show s.next ≤ s.next + 1 + 1 + 1
    omega

/-- The copy of the key, its allocation succeeding. -/
theorem ok_copyKey {p : Nat} (hs : s.WF) (hp : (s.node p).isSome) {failed rest : Hx Nat} :
    Ok (do
      setKey p (← mallocStr true (k.strlen + 1))
      if (← getKey p) = 0 then failed
      else
        strcpy (← getKey p) k
        rest) s Q ↔ Ok rest (s.attachStr p HashNode.withKey k) Q := by
  have hn : s.next ≠ 0 := hs.next_pos.ne'
  let s₁ := (s.allocStr (k.strlen + 1)).modNode p (HashNode.withKey s.next)
  have hk₁ : keyAt s₁ p = some s.next := field_modNode_self hp fun _ => rfl
  have hb₁ : s₁.str s.next = some ⟨k.strlen + 1, none⟩ := allocStr_str_self s (k.strlen + 1)
  rw [ok_bind, ok_mallocStr_true, ok_bind, ok_setKey (by simpa using hp)]
  change Ok _ s₁ Q ↔ _
  rw [ok_bind, ok_getKey hk₁, if_neg hn, ok_bind, ok_getKey hk₁, ok_bind, ok_strcpy hb₁ le_rfl]
  exact Iff.rfl

/-- The copy of the value, its allocation succeeding. -/
theorem ok_copyValue {p : Nat} (hs : s.WF) (hp : (s.node p).isSome) {failed rest : Hx Nat} :
    Ok (do
      setValue p (← mallocStr true (v.strlen + 1))
      if (← getValue p) = 0 then failed
      else
        strcpy (← getValue p) v
        rest) s Q ↔ Ok rest (s.attachStr p HashNode.withValue v) Q := by
  have hn : s.next ≠ 0 := hs.next_pos.ne'
  let s₁ := (s.allocStr (v.strlen + 1)).modNode p (HashNode.withValue s.next)
  have hv₁ : valueAt s₁ p = some s.next := field_modNode_self hp fun _ => rfl
  have hb₁ : s₁.str s.next = some ⟨v.strlen + 1, none⟩ := allocStr_str_self s (v.strlen + 1)
  rw [ok_bind, ok_mallocStr_true, ok_bind, ok_setValue (by simpa using hp)]
  change Ok _ s₁ Q ↔ _
  rw [ok_bind, ok_getValue hv₁, if_neg hn, ok_bind, ok_getValue hv₁, ok_bind, ok_strcpy hb₁ le_rfl]
  exact Iff.rfl

/-- `_create_node`, with its allocations succeeding. -/
theorem ok_createNode (hs : s.WF)
    (ha : alloc 0 = true ∧ alloc 1 = true ∧ alloc 2 = true) (Q : Nat → State → Prop) :
    Ok (createNode alloc k v) s Q ↔ Q s.next (staged s k v 0) := by
  have hn : s.next ≠ 0 := hs.next_pos.ne'
  have hlive := allocNode_isSome s {}
  unfold createNode
  rw [ha.1, ha.2.1, ha.2.2, ok_bind, ok_mallocNode_true, if_neg hn,
    ok_copyKey (hs.allocNode {}) hlive,
    ok_copyValue (hs.allocNode {}).attachStr (by simpa using hlive), ok_bind,
    ok_setNext (by simpa using hlive), ok_pure]
  exact Iff.rfl

/-- A `_create_node` that runs out of memory returns `NULL`. -/
theorem ok_createNode_failed (hs : s.WF)
    (ha : ¬(alloc 0 = true ∧ alloc 1 = true ∧ alloc 2 = true)) :
    Ok (createNode alloc k v) s (fun p s' => p = 0 ∧ s'.WF ∧ s'.desc = s.desc) := by
  have hn : s.next ≠ 0 := hs.next_pos.ne'
  have hlive := allocNode_isSome s {}
  unfold createNode
  cases ha₀ : alloc 0 with
  | false =>
      rw [ok_bind, ok_mallocNode_false, if_pos rfl, ok_pure]
      exact ⟨rfl, hs, rfl⟩
  | true =>
      rw [ok_bind, ok_mallocNode_true, if_neg hn]
      cases ha₁ : alloc 1 with
      | false =>
          let s₁ := (s.allocNode {}).modNode s.next (HashNode.withKey 0)
          have hs₁ : s₁.WF := (hs.allocNode {}).modNode _ _
          have hk₁ : keyAt s₁ s.next = some 0 := field_modNode_self hlive fun _ => rfl
          rw [ok_bind, ok_mallocStr_false, ok_bind, ok_setKey hlive, ok_bind, ok_getKey hk₁,
            if_pos rfl, ok_bind, ok_free_node hs₁ (live_of_field hk₁), ok_pure]
          exact ⟨rfl, hs₁.dropNode _, rfl⟩
      | true =>
          have ha₂ : alloc 2 = false := by
            by_contra hne
            exact ha ⟨ha₀, ha₁, by simpa using hne⟩
          let s₂ := (s.allocNode {}).attachStr s.next HashNode.withKey k
          have hlive₂ : (s₂.node s.next).isSome := by simp [s₂, hlive]
          let s₃ := s₂.modNode s.next (HashNode.withValue 0)
          have hs₃ : s₃.WF := (hs.allocNode {}).attachStr.modNode _ _
          have hv₃ : valueAt s₃ s.next = some 0 := field_modNode_self hlive₂ fun _ => rfl
          have hk₂ : keyAt s₂ s.next = some (s.next + 1) :=
            field_attachStr_self hlive fun _ _ => rfl
          have hk₃ : keyAt s₃ s.next = some (s.next + 1) :=
            (field_modNode_other (g := HashNode.withValue 0) s₂ _ _ fun _ => rfl).trans hk₂
          have hstr : (s₃.str (s.next + 1)).isSome :=
            live_of_cstr (s := s₂) cstr_attachStr_self
          rw [ok_copyKey (hs.allocNode {}) hlive, ha₂, ok_bind, ok_mallocStr_false, ok_bind,
            ok_setValue hlive₂, ok_bind, ok_getValue hv₃, if_pos rfl, ok_bind,
            ok_getKey hk₃, ok_bind,
            ok_free_str hs₃ hstr, ok_bind, ok_free_node (hs₃.dropStr _) (live_of_field hv₃),
            ok_pure]
          exact ⟨rfl, (hs₃.dropStr _).dropNode _, rfl⟩

end Insert

section Put

variable {size i : Nat} {s : State} {tab : Nat → List Cell} {k v : CStr}

/-- The new cell at the head of the slot of its key. -/
theorem Holds.cons (h : Holds size s tab) (hk : hash (some k) size = i) (hi : i < size)
    (habs : k ∉ (joined size tab).map Cell.key) {p : Nat} (hp : s.desc.nodes i = some p) :
    Holds size (((staged s k v p).modDesc (Hashtable.withSlot i s.next)).modDesc
      (Hashtable.addCount 1))
      (update tab i (⟨s.next, s.next + 1, s.next + 2, k, v⟩ :: tab i)) := by
  have hgrow : Grows s (staged s k v p) := staged_grows h.wf
  have hperm : (joined size tab).Perm (tab i ++ others size tab i) := joined_perm hi
  have hold : ∀ c ∈ tab i ++ others size tab i, c.Stored s := fun c hc =>
    h.stored c (hperm.mem_iff.mpr hc)
  have hnode : ∀ c ∈ tab i ++ others size tab i, (staged s k v p).node c.node = s.node c.node :=
    fun c hc => hgrow.node _ (hold c hc).live
  obtain ⟨p', hp', hchain⟩ := h.chain i hi
  have hpp : p' = p := Option.some.inj (hp'.symm.trans hp)
  subst hpp
  refine h.replace hi ⟨s.next, ?_, ?_⟩ (fun j hj => ?_) (fun c hc => ?_) (fun c hc => ?_)
    (fun c hc => ?_) ?_ ?_ ?_ ?_
  · exact update_self ..
  · -- the new node points to the old head
    have hn : s.next ≠ 0 := by have := h.wf.next_pos; omega
    refine ⟨rfl, hn, p', staged_next, hchain.congr fun a ha => ?_⟩
    obtain ⟨c, hc, rfl⟩ := List.mem_map.mp ha
    exact field_congr (hnode c (by simp [hc])) _
  · show update (staged s k v p').desc.nodes i _ j = _
    rw [update_of_ne hj, hgrow.desc]
  · exact field_congr (hnode c (by simp [hc])) _
  · rcases List.mem_cons.mp hc with rfl | hc
    · exact (staged_stored.modDesc _).modDesc _
    · have hst := hold c hc
      exact hst.congr (field_congr (hnode c hc) _) (field_congr (hnode c hc) _)
        (hgrow.str _ (live_of_cstr hst.key)) (hgrow.str _ (live_of_cstr hst.value))
  · rcases List.mem_cons.mp hc with rfl | hc
    · exact hk
    · exact h.slot i hi c hc
  · rw [List.cons_append, List.map_cons, List.nodup_cons, ← (hperm.map _).mem_iff,
      ← (hperm.map _).nodup_iff]
    exact ⟨habs, h.keys⟩
  · -- the new blocks lie above all old ones
    have hlt : ∀ q ∈ (tab i ++ others size tab i).flatMap Cell.blocks, q < s.next := fun q hq =>
      h.block_lt ((hperm.flatMap_right _).mem_iff.mpr hq)
    rw [List.cons_append, List.flatMap_cons, List.nodup_append]
    refine ⟨by simp [Cell.blocks], (hperm.flatMap_right _).nodup_iff.mp h.blocks, ?_⟩
    rintro a ha b hb rfl
    have hb' := hlt a hb
    simp only [Cell.blocks, List.mem_cons, List.not_mem_nil, or_false] at ha
    omega
  · show int32 ((staged s k v p').desc.count + 1) = _
    rw [hgrow.desc, h.count, int32_int32_add, hperm.length_eq, List.cons_append, List.length_cons]
    push_cast
    rfl
  · exact ((staged_wf h.wf).modDesc _).modDesc _

theorem ok_putKvHashtable (h : Holds size s tab) (hk : hash (some k) size = i) (hi : i < size)
    (ha : k ∉ (joined size tab).map Cell.key → alloc 0 = true ∧ alloc 1 = true ∧ alloc 2 = true)
    {Q : Int → State → Prop} (hfound : k ∈ (joined size tab).map Cell.key → Q 1 s)
    (hnew : ∀ s' c, k ∉ (joined size tab).map Cell.key → c.pair = (k, v) →
      Holds size s' (update tab i (c :: tab i)) → Trades s s' [] c.blocks → Q 0 s') :
    Ok (putKvHashtable alloc size (some k) (some v)) s Q := by
  obtain ⟨p, hp, hchain⟩ := h.chain i hi
  rw [putKvHashtable, hk]
  rw [ok_bind, ok_getSlot hi hp, ok_bind]
  refine ok_findNode h.wf hchain (h.stored_slot hi) k ?_ ?_
  · intro L₁ c L₂ hL hck hc0
    rw [if_pos hc0, ok_pure]
    apply hfound
    exact List.mem_map.mpr ⟨c, mem_joined.mpr ⟨i, hi, by simp [hL]⟩, hck⟩
  · intro hmiss
    have habs := h.absent hk hmiss
    have hp' : (staged s k v 0).desc.nodes i = some p := by rw [(staged_grows h.wf).desc, hp]
    rw [if_neg (by simp), ok_bind, ok_createNode h.wf (ha habs), ok_bind,
      ok_getSlot hi hp', ok_bind, ok_setNext staged_live, staged_relink, ok_bind, ok_setSlot hi,
      ok_bind, ok_writeDesc, ok_pure]
    exact hnew _ _ habs rfl (h.cons hk hi habs hp) ((staged_trades.modDesc _).modDesc _)

/-- When an allocation is needed and fails, `put_kv_hashtable` writes to the node it did not get. -/
theorem returns_putKvHashtable_failed (h : Holds size s tab)
    (hk : hash (some k) size = i) (hi : i < size) (habs : k ∉ (joined size tab).map Cell.key)
    (ha : ¬(alloc 0 = true ∧ alloc 1 = true ∧ alloc 2 = true)) (Q : Int → State → Prop) :
    Returns (putKvHashtable alloc size (some k) (some v)) s Q := by
  obtain ⟨p, hp, hchain⟩ := h.chain i hi
  rw [putKvHashtable, hk]
  refine returns_bind ((ok_getSlot hi hp _).mpr ?_).returns
  refine returns_bind (Ok.returns (ok_findNode h.wf hchain (h.stored_slot hi) k ?_ ?_))
  · intro L₁ c L₂ hL hck _
    exact absurd (List.mem_map.mpr ⟨c, mem_joined.mpr ⟨i, hi, by simp [hL]⟩, hck⟩) habs
  · intro _
    rw [if_neg (by simp)]
    refine returns_bind ((ok_createNode_failed h.wf ha).mono ?_).returns
    rintro _ s' ⟨rfl, hs', hd⟩
    refine returns_bind ((ok_getSlot hi (hd ▸ hp) _).mpr ?_).returns
    exact returns_bind (returns_writeField_none hs'.node_null _)

end Put

/-! ## Deletion -/

/-- The memory without the blocks of the cell. -/
def dropCell (s : State) (c : Cell) : State :=
  ((s.dropStr c.keyPtr).dropStr c.valuePtr).dropNode c.node

section Delete

variable {size i : Nat} {s s' : State} {tab : Nat → List Cell} {c : Cell}
  {L₁ L₂ : List Cell} {k : CStr}

theorem dropCell_node_ne (h : q ∉ c.blocks) : (dropCell s c).node q = s.node q :=
  dropNode_node_ne _ fun hq => h (by simp [Cell.blocks, hq])

theorem dropCell_str_ne (h : q ∉ c.blocks) : (dropCell s c).str q = s.str q := by
  rw [dropCell, dropNode_str, dropStr_str_ne _ (fun hq => h (by simp [Cell.blocks, hq])),
    dropStr_str_ne _ (fun hq => h (by simp [Cell.blocks, hq]))]

theorem ok_freeNode (hs : s.WF) (hc : c.Stored s) (hne : c.valuePtr ≠ c.keyPtr)
    (Q : Unit → State → Prop) : Ok (freeNode c.node) s Q ↔ Q () (dropCell s c) := by
  have hkey := live_of_cstr hc.key
  have hvalue := live_of_cstr hc.value
  have hk0 : c.keyPtr ≠ 0 := by have := hs.str_bound _ hkey; omega
  have hv0 : c.valuePtr ≠ 0 := by have := hs.str_bound _ hvalue; omega
  let s₁ := s.dropStr c.keyPtr
  have hs₁ : s₁.WF := hs.dropStr _
  have hv₁ : valueAt s₁ c.node = some c.valuePtr := hc.valuePtr
  have hvalue₁ : (s₁.str c.valuePtr).isSome := by
    rw [dropStr_str_ne _ hne]
    exact hvalue
  rw [freeNode, ok_bind, ok_getKey hc.keyPtr, if_pos hk0, ok_bind, ok_getKey hc.keyPtr, ok_bind,
    ok_free_str hs hkey, ok_bind, ok_getValue hv₁, if_pos hv0, ok_bind, ok_getValue hv₁, ok_bind,
    ok_free_str hs₁ hvalue₁, ok_free_node (hs₁.dropStr _) hc.live]
  exact Iff.rfl

/-- The node and its two strings are given back. -/
theorem dropCell_trades (hs : s.WF) (hc : c.Stored s) (hne : c.valuePtr ≠ c.keyPtr) :
    Trades s (dropCell s c) c.blocks [] where
  live p := by
    have hvalue : ((s.dropStr c.keyPtr).str c.valuePtr).isSome := by
      rw [dropStr_str_ne _ hne]
      exact live_of_cstr hc.value
    have hs₁ : (s.dropStr c.keyPtr).WF := hs.dropStr _
    rw [dropCell, live_dropNode (hs₁.dropStr _) hc.live, live_dropStr hs₁ hvalue,
      live_dropStr hs (live_of_cstr hc.key)]
    simp only [Cell.blocks, List.mem_cons, List.not_mem_nil, or_false, not_or]
    tauto
  fresh p hp := absurd hp List.not_mem_nil
  next := le_rfl

/-- **Taking a cell out.** `s'` is the memory after the cell has been unlinked from its chain, by a
write to the slot or to the `next` field of another node of the chain. -/
theorem Holds.remove (h : Holds size s tab) (hi : i < size) (hL : tab i = L₁ ++ c :: L₂)
    (hkey : ∀ q, keyAt s' q = keyAt s q) (hvalue : ∀ q, valueAt s' q = valueAt s q)
    (hstr : s'.str = s.str) (hwf : s'.WF) (hslots : ∀ j, j ≠ i → s'.desc.nodes j = s.desc.nodes j)
    (hcount : s'.desc.count = s.desc.count)
    (hnext : ∀ d ∈ others size tab i, nextAt s' d.node = nextAt s d.node)
    (hchain : ∃ p, s'.desc.nodes i = some p ∧ s'.Chain (·.next) p ((L₁ ++ L₂).map Cell.node)) :
    Holds size ((dropCell s' c).modDesc (Hashtable.addCount (-1)))
      (update tab i (L₁ ++ L₂)) := by
  have hperm := joined_split_perm hi hL
  obtain ⟨-, hblocks, hapart⟩ := h.apart hi hL
  have hnode : ∀ d ∈ L₁ ++ L₂ ++ others size tab i, (dropCell s' c).node d.node = s'.node d.node :=
    fun d hd => dropCell_node_ne (hapart d hd _ (by simp [Cell.blocks]))
  have hkeys := (hperm.map Cell.key).nodup_iff.mp h.keys
  rw [List.map_cons, List.nodup_cons] at hkeys
  obtain ⟨p, hp, hch⟩ := hchain
  refine h.replace hi ⟨p, hp, hch.congr fun a ha => ?_⟩ hslots (fun d hd => ?_) (fun d hd => ?_)
    (fun d hd => h.slot i hi d ?_) hkeys.2 hblocks ?_ ?_
  · obtain ⟨d, hd, rfl⟩ := List.mem_map.mp ha
    exact field_congr (hnode d (List.mem_append_left _ hd)) _
  · rw [← hnext d hd]
    exact field_congr (hnode d (List.mem_append_right _ hd)) _
  · have hst := h.stored d (hperm.mem_iff.mpr (List.mem_cons_of_mem _ hd))
    have hstr' : ∀ q ∈ d.blocks, (dropCell s' c).str q = s.str q := fun q hq =>
      (dropCell_str_ne (hapart d hd q hq)).trans (by rw [hstr])
    refine hst.congr ?_ ?_ (hstr' _ (by simp [Cell.blocks])) (hstr' _ (by simp [Cell.blocks]))
    · exact (field_congr (hnode d hd) _).trans (hkey _)
    · exact (field_congr (hnode d hd) _).trans (hvalue _)
  · rw [hL]
    exact ((List.sublist_cons_self c L₂).append_left L₁).subset hd
  · show int32 (s'.desc.count + -1) = _
    rw [hcount, h.count, int32_int32_add, hperm.length_eq, List.length_cons]
    push_cast
    rw [add_neg_cancel_right]
  · exact (((hwf.dropStr _).dropStr _).dropNode _).modDesc _

/-- The head of the chain is taken out by a write to the slot. -/
theorem Holds.removeHead (h : Holds size s tab) (hi : i < size) (hL : tab i = c :: L₂)
    (hchain : s.Chain (·.next) q (L₂.map Cell.node)) :
    Holds size ((dropCell (s.modDesc (Hashtable.withSlot i q)) c).modDesc (Hashtable.addCount (-1)))
      (update tab i L₂) :=
  h.remove hi (show tab i = [] ++ c :: L₂ from hL) (fun _ => rfl) (fun _ => rfl) rfl
    (h.wf.modDesc _) (fun _ hj => update_of_ne hj ..) rfl (fun _ _ => rfl)
    ⟨q, update_self .., hchain.congr fun _ _ => rfl⟩

/-- A cell behind another one is taken out by a write to the `next` field before it. -/
theorem Holds.removeNext (h : Holds size s tab) (hi : i < size) {b : Cell}
    (hL : tab i = L₁ ++ b :: c :: L₂) (hrest : s.Chain (·.next) q (L₂.map Cell.node)) :
    Holds size ((dropCell (s.modNode b.node (HashNode.withNext q)) c).modDesc
      (Hashtable.addCount (-1))) (update tab i (L₁ ++ b :: L₂)) := by
  have hL' : tab i = (L₁ ++ [b]) ++ c :: L₂ := by simp [hL]
  have hb : b.Stored s := h.stored_slot hi b (by simp [hL])
  -- no other cell of the table has the node of `b`
  have hne : ∀ d ∈ L₁ ++ c :: L₂ ++ others size tab i, d.node ≠ b.node := by
    intro d hd heq
    exact (h.apart hi hL).2.2 d hd d.node (by simp [Cell.blocks]) (by simp [Cell.blocks, heq])
  obtain ⟨p, hp, hchain⟩ := h.chain i hi
  rw [hL, List.map_append, List.map_cons] at hchain
  have hnext : ∀ d ∈ L₁ ++ c :: L₂ ++ others size tab i,
      nextAt (s.modNode b.node (HashNode.withNext q)) d.node = nextAt s d.node := fun d hd =>
    field_modNode_ne _ _ _ (hne d hd)
  rw [show L₁ ++ b :: L₂ = (L₁ ++ [b]) ++ L₂ by simp]
  refine h.remove hi hL' (fun a => field_modNode_other _ _ _ fun _ => rfl)
    (fun a => field_modNode_other _ _ _ fun _ => rfl) rfl (h.wf.modNode _ _) (fun _ _ => rfl)
    rfl (fun d hd => hnext d (List.mem_append_right _ hd)) ⟨p, hp, ?_⟩
  have hrest' : (s.modNode b.node (HashNode.withNext q)).Chain (·.next) q (L₂.map Cell.node) := by
    refine hrest.congr fun a ha => ?_
    obtain ⟨d, hd, rfl⟩ := List.mem_map.mp ha
    exact hnext d (by simp [hd])
  rw [List.append_assoc, List.map_append]
  refine hchain.redirect (fun a ha => ?_) (field_modNode_self hb.live fun _ => rfl) hrest'
  obtain ⟨d, hd, rfl⟩ := List.mem_map.mp ha
  exact hnext d (by simp [hd])

theorem ok_deleteKvHashtable (h : Holds size s tab) (hk : hash (some k) size = i) (hi : i < size)
    {Q : Int → State → Prop} (hfound : ∀ (s' : State) (L₁ : List Cell) (c : Cell) (L₂ : List Cell),
      tab i = L₁ ++ c :: L₂ → c.key = k →
      Holds size s' (update tab i (L₁ ++ L₂)) → Trades s s' c.blocks [] → Q 0 s')
    (hmiss : k ∉ (joined size tab).map Cell.key → Q (-1) s) :
    Ok (deleteKvHashtable size (some k)) s Q := by
  obtain ⟨p, hp, hchain⟩ := h.chain i hi
  rw [deleteKvHashtable, hk]
  rw [ok_bind, ok_getSlot hi hp]
  cases hL : tab i with
  | nil =>
      rw [hL] at hchain
      have hp0 : p = 0 := hchain
      rw [if_pos hp0, ok_pure]
      exact hmiss (h.absent hk (by simp [hL]))
  | cons c₀ L =>
      rw [hL] at hchain
      obtain ⟨rfl, hc0, q, hq, hrest⟩ := id hchain
      have hst : ∀ c ∈ c₀ :: L, c.Stored s := hL ▸ h.stored_slot hi
      have hc₀ := hst c₀ (by simp)
      rw [if_neg hc0, ok_bind, ok_getKey hc₀.keyPtr, ok_bind, ok_readStr hc₀.key]
      by_cases heq : c₀.key = k
      · have hne := h.value_ne_key hi (show tab i = [] ++ c₀ :: L from hL)
        rw [if_pos ((CStr.strcmp_eq_zero_iff ..).mpr heq), ok_bind, ok_getNext hq, ok_bind,
          ok_setSlot hi, ok_bind, ok_freeNode (h.wf.modDesc _) (hc₀.modDesc _) hne,
          ok_bind, ok_writeDesc, ok_pure]
        have htrade := (dropCell_trades (h.wf.modDesc (Hashtable.withSlot i q)) (hc₀.modDesc _)
          hne).of_eq_live (fun _ => live_modDesc _) rfl
        exact hfound _ [] c₀ L hL heq (h.removeHead hi hL hrest) (htrade.modDesc _)
      · rw [if_neg (mt (CStr.strcmp_eq_zero_iff ..).mp heq), ok_bind]
        refine ok_deleteLoop h.wf hchain hst k heq ?_ ?_
        · intro L₁ b c L₂ hsplit hck
          rw [hsplit] at hL
          have hch := hchain
          rw [hsplit, List.map_append, List.map_cons] at hch
          obtain ⟨r, hr, hr', hc0', q', hq', hrest'⟩ := hch.after
          subst hr'
          have hb := hst b (by simp [hsplit])
          have hc := hst c (by simp [hsplit])
          have hL' : tab i = (L₁ ++ [b]) ++ c :: L₂ := by simp [hL]
          rw [ok_bind, ok_getNext hr, if_neg hc0', ok_bind, ok_getNext hr, ok_bind, ok_getNext hq',
            ok_bind, ok_setNext hb.live, ok_bind,
            ok_freeNode (h.wf.modNode _ _) (hc.setNext _ _) (h.value_ne_key hi hL'), ok_bind,
            ok_writeDesc, ok_pure]
          have htrade := (dropCell_trades (h.wf.modNode b.node (HashNode.withNext q'))
            (hc.setNext _ _) (h.value_ne_key hi hL')).of_eq_live (fun _ => live_modNode _) rfl
          refine hfound _ (L₁ ++ [b]) c L₂ hL' hck ?_ (htrade.modDesc _)
          simpa using h.removeNext hi hL hrest'
        · intro b habs hb
          rw [ok_bind, ok_getNext hb, if_pos rfl, ok_pure]
          exact hmiss (h.absent hk (hL ▸ habs))

end Delete

/-! ## Modification -/

/-- The memory with a new block for the value `v` in the cell `c`. -/
def revalued (s : State) (c : Cell) (v : CStr) : State :=
  (s.dropStr c.valuePtr).attachStr c.node HashNode.withValue v

section Modify

variable {size i : Nat} {s : State} {tab : Nat → List Cell} {c : Cell} {L₁ L₂ : List Cell}
  {k v : CStr}

theorem revalued_str_ne (hq : q ≠ c.valuePtr) (hlt : q < s.next) :
    (revalued s c v).str q = s.str q := by
  rw [revalued, attachStr_str_ne (s := s.dropStr c.valuePtr) (show q ≠ s.next by omega),
    dropStr_str_ne s hq]

theorem revalued_keyAt (q : Nat) : keyAt (revalued s c v) q = keyAt s q :=
  field_attachStr_other (s := s.dropStr c.valuePtr) (g := HashNode.withValue)
    (fun _ _ => rfl) q

theorem revalued_nextAt (q : Nat) : nextAt (revalued s c v) q = nextAt s q :=
  field_attachStr_other (s := s.dropStr c.valuePtr) (g := HashNode.withValue)
    (fun _ _ => rfl) q

theorem revalued_valueAt_ne (hq : q ≠ c.node) : valueAt (revalued s c v) q = valueAt s q :=
  field_congr (attachStr_node_ne hq) _

/-- The old value is given back, and there is a new block. -/
theorem revalued_trades (hs : s.WF) (hc : c.Stored s) (v : CStr) :
    Trades s (revalued s c v) [c.valuePtr] [s.next] where
  live p := by
    rw [revalued, live_attachStr, live_dropStr hs (live_of_cstr hc.value)]
    simp
  fresh p hp := (List.mem_singleton.mp hp).ge
  next := Nat.le_succ _

/-- Only the value of the cell changes. -/
theorem Holds.revalue (h : Holds size s tab) (hi : i < size) (hL : tab i = L₁ ++ c :: L₂)
    (v : CStr) :
    Holds size (revalued s c v)
      (update tab i (L₁ ++ { c with valuePtr := s.next, value := v } :: L₂)) := by
  have hperm := joined_split_perm hi hL
  obtain ⟨hself, hblocks, hapart⟩ := h.apart hi hL
  have hlt : ∀ d ∈ c :: (L₁ ++ L₂ ++ others size tab i), ∀ q ∈ d.blocks, q < s.next :=
    fun d hd q hq => h.block_lt (List.mem_flatMap.mpr ⟨d, hperm.mem_iff.mpr hd, hq⟩)
  have hc := h.stored c (hperm.mem_iff.mpr (by simp))
  -- where the cell stands in the list does not matter for the strings and the blocks
  have hmid : (L₁ ++ { c with valuePtr := s.next, value := v } :: L₂ ++ others size tab i).Perm
      ({ c with valuePtr := s.next, value := v } :: (L₁ ++ L₂ ++ others size tab i)) := perm_front
  obtain ⟨p, hp, hchain⟩ := h.chain i hi
  refine h.replace hi ⟨p, hp, ?_⟩ (fun _ _ => rfl) (fun d _ => revalued_nextAt _) (fun d hd => ?_)
    (fun d hd => ?_) ?_ ?_ ?_ ?_
  · rw [hL, List.map_append, List.map_cons] at hchain
    rw [List.map_append, List.map_cons]
    exact hchain.congr fun a _ => revalued_nextAt a
  · rcases List.mem_cons.mp (hmid.mem_iff.mp hd) with rfl | hd
    · refine ⟨(revalued_keyAt _).trans hc.keyPtr, ?_, ?_, cstr_attachStr_self⟩
      · exact field_attachStr_self (s := s.dropStr c.valuePtr) hc.live fun _ _ => rfl
      · have hne : c.keyPtr ≠ c.valuePtr := (h.value_ne_key hi hL).symm
        rw [cstr_congr (revalued_str_ne hne (hlt c (by simp) _ (by simp [Cell.blocks])))]
        exact hc.key
    · have hne : ∀ q ∈ d.blocks, q ≠ c.valuePtr ∧ q ≠ c.node := by
        intro q hq
        have hout := hapart d hd q hq
        simp only [Cell.blocks, List.mem_cons, not_or] at hout
        exact ⟨hout.2.2.1, hout.1⟩
      have hd' : d ∈ c :: (L₁ ++ L₂ ++ others size tab i) := List.mem_cons_of_mem _ hd
      refine (h.stored d (hperm.mem_iff.mpr hd')).congr (revalued_keyAt _)
        (revalued_valueAt_ne (hne _ (by simp [Cell.blocks])).2) ?_ ?_
      · exact revalued_str_ne (hne _ (by simp [Cell.blocks])).1
          (hlt d hd' _ (by simp [Cell.blocks]))
      · exact revalued_str_ne (hne _ (by simp [Cell.blocks])).1
          (hlt d hd' _ (by simp [Cell.blocks]))
  · have hkey : ∀ d ∈ L₁ ++ c :: L₂, hash (some d.key) size = i := hL ▸ h.slot i hi
    rcases List.mem_append.mp hd with hd | hd
    · exact hkey d (by simp [hd])
    · rcases List.mem_cons.mp hd with rfl | hd
      · exact hkey c (by simp)
      · exact hkey d (by simp [hd])
  · rw [(hmid.map _).nodup_iff]
    exact (hperm.map _).nodup_iff.mp h.keys
  · rw [(hmid.flatMap_right _).nodup_iff, List.flatMap_cons, List.nodup_append]
    refine ⟨?_, hblocks, ?_⟩
    · have hk := hlt c (by simp) c.keyPtr (by simp [Cell.blocks])
      have hn := hlt c (by simp) c.node (by simp [Cell.blocks])
      simp only [Cell.blocks, List.nodup_cons, List.mem_cons, List.not_mem_nil, or_false, not_or]
        at hself ⊢
      exact ⟨⟨hself.1.1, hn.ne⟩, hk.ne, not_false, List.nodup_nil⟩
    · rintro a ha b hb rfl
      obtain ⟨d, hd, had⟩ := List.mem_flatMap.mp hb
      have hout := hapart d hd a had
      have hbelow := hlt d (List.mem_cons_of_mem _ hd) a had
      simp only [Cell.blocks, List.mem_cons, List.not_mem_nil, or_false, not_or] at ha hout
      rcases ha with ha | ha | ha
      · exact hout.1 ha
      · exact hout.2.1 ha
      · omega
  · rw [hmid.length_eq]
    show s.desc.count = _
    rw [h.count, hperm.length_eq]
    rfl
  · exact (h.wf.dropStr _).attachStr

theorem ok_modifyKvHashtable (h : Holds size s tab) (hk : hash (some k) size = i) (hi : i < size)
    (ha : k ∈ (joined size tab).map Cell.key → alloc 0 = true) {Q : Int → State → Prop}
    (hfound : ∀ (s' : State) (L₁ : List Cell) (c : Cell) (L₂ : List Cell),
      tab i = L₁ ++ c :: L₂ → c.key = k →
      Holds size s'
        (update tab i (L₁ ++ { c with valuePtr := s.next, value := v } :: L₂)) →
        Trades s s' [c.valuePtr] [s.next] → Q 0 s')
    (hmiss : k ∉ (joined size tab).map Cell.key → Q (-1) s) :
    Ok (modifyKvHashtable alloc size (some k) (some v)) s Q := by
  obtain ⟨p, hp, hchain⟩ := h.chain i hi
  rw [modifyKvHashtable, hk]
  rw [ok_bind, ok_getSlot hi hp, ok_bind]
  refine ok_findNode h.wf hchain (h.stored_slot hi) k ?_ ?_
  · intro L₁ c L₂ hL hck hc0
    have hc := h.stored_slot hi c (by simp [hL])
    have hmem : k ∈ (joined size tab).map Cell.key :=
      List.mem_map.mpr ⟨c, mem_joined.mpr ⟨i, hi, by simp [hL]⟩, hck⟩
    have hn : s.next ≠ 0 := by have := h.wf.next_pos; omega
    let s₁ := ((s.dropStr c.valuePtr).allocStr (v.strlen + 1)).modNode c.node
      (HashNode.withValue s.next)
    have hv₁ : valueAt s₁ c.node = some s.next := field_modNode_self hc.live fun _ => rfl
    have hb₁ : s₁.str s.next = some ⟨v.strlen + 1, none⟩ :=
      allocStr_str_self (s.dropStr c.valuePtr) _
    rw [ha hmem, if_pos hc0, ok_bind, ok_getValue hc.valuePtr, ok_bind,
      ok_free_str h.wf (live_of_cstr hc.value), ok_bind, ok_mallocStr_true, ok_bind,
      ok_setValue (by simpa using hc.live)]
    change Ok _ s₁ Q
    rw [ok_bind, ok_getValue hv₁, if_pos hn, ok_bind, ok_getValue hv₁, ok_bind,
      ok_strcpy hb₁ le_rfl, ok_pure]
    exact hfound (revalued s c v) L₁ c L₂ hL hck (h.revalue hi hL v) (revalued_trades h.wf hc v)
  · intro habs
    rw [if_neg (by simp), ok_pure]
    exact hmiss (h.absent hk habs)

/-- When the allocation is needed and fails, the assertion does. -/
theorem returns_modifyKvHashtable_failed (h : Holds size s tab)
    (hk : hash (some k) size = i) (hi : i < size) (hmem : k ∈ (joined size tab).map Cell.key)
    (ha : alloc 0 = false) (Q : Int → State → Prop) :
    Returns (modifyKvHashtable alloc size (some k) (some v)) s Q := by
  obtain ⟨p, hp, hchain⟩ := h.chain i hi
  rw [modifyKvHashtable, hk]
  refine returns_bind ((ok_getSlot hi hp _).mpr ?_).returns
  refine returns_bind (Ok.returns (ok_findNode h.wf hchain (h.stored_slot hi) k ?_ ?_))
  · intro L₁ c L₂ hL _ hc0
    have hc := h.stored_slot hi c (by simp [hL])
    let s₁ := (s.dropStr c.valuePtr).modNode c.node (HashNode.withValue 0)
    have hv₁ : valueAt s₁ c.node = some 0 := field_modNode_self hc.live fun _ => rfl
    rw [if_pos hc0, ha]
    refine returns_bind ((ok_getValue hc.valuePtr _).mpr ?_).returns
    refine returns_bind ((ok_free_str h.wf (live_of_cstr hc.value) _).mpr ?_).returns
    refine returns_bind ((ok_mallocStr_false _ _).mpr ?_).returns
    refine returns_bind ((ok_setValue (by simpa using hc.live) _).mpr ?_).returns
    refine returns_bind ((ok_getValue hv₁ _).mpr ?_).returns
    rw [if_neg (by simp)]
    exact returns_throw .assertFail s₁ Q
  · intro habs
    exact absurd hmem (h.absent hk habs)

end Modify

end KvStore.Hash
