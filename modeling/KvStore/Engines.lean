import KvStore.Array.Runs
import KvStore.Hash.Runs
import KvStore.Rbtree.Runs

set_option autoImplicit false

/-! # What the three engines have in common, and what not

The engines treat a `set` of a key that is there in three ways: the array appends a second entry,
the tree drops the new node and reports success, and the hash table reports `1`. Only the last one
never reports a success that cannot be read back (`set_readable_iff`).

The array and the tree are empty after their creation, whatever the memory held before; the hash
table does not clear its slots, so that its first call reads what it has not written
(`creation_empty`).
-/

namespace KvStore

open KvStore.Lib

/-! ## Reading back -/

/-- **When a successful set can be read back.** In every reachable state of an engine, after a set
that returned `0`:

* array: a get of the key returns the value, exactly when it returned `NULL` or this value before;
* tree: exactly when the key was not stored, or a get returned this value before;
* hash table: always. -/
theorem set_readable_iff (alloc : AllocPlan) (k v : CStr) :
    (∀ s s' : Array.ArrayT, Array.Reachable s →
      (Array.kvsArraySet alloc (some k) (some v)).run s = .ok (0, s') →
        ((Array.kvsArrayGet (some k)).run s' = .ok (some v, s') ↔
          (Array.kvsArrayGet (some k)).run s = .ok (none, s) ∨
            (Array.kvsArrayGet (some k)).run s = .ok (some v, s))) ∧
    (∀ s s' : Rbtree.State, Rbtree.Reachable s →
      (Rbtree.kvsRbtreeSet alloc (some k) (some v)).run s = .ok (0, s') →
        (Rbtree.Reads s' k v ↔ k ∉ Rbtree.contents s ∨ Rbtree.Reads s k v)) ∧
    (∀ s s' : Hash.State, Hash.Reachable s →
      (Hash.kvsHashSet alloc (some k) (some v)).run s = .ok (0, s') → Hash.Reads s' k v) := by
  refine ⟨?_, ?_, ?_⟩
  · intro s s' hs hset
    exact hs.set_get_iff hset
  · intro s s' hs hset
    exact hs.set_reads_iff hset
  · intro s s' hs hset
    exact hs.set_reads hset

/-- The first set in a new tree can be read back. -/
theorem first_set_readable :
    ∃ s', (Rbtree.kvsRbtreeSet allOk (some (CStr.lit "k")) (some (CStr.lit "a"))).run Rbtree.created
      = .ok (0, s') ∧ Rbtree.Reads s' (CStr.lit "k") (CStr.lit "a") := by
  obtain ⟨r, s', hset, rfl, -⟩ := Rbtree.intact_created.ok_set (CStr.lit "k") (CStr.lit "a")
  refine ⟨s', hset, ((set_readable_iff allOk _ _).2.1 _ s' (Reach.refl ..) hset).mpr (Or.inl ?_)⟩
  rw [Rbtree.contents_created]
  exact Finmap.notMem_empty

/-- The second set of a key in a tree reports success, and a get still returns the first value. -/
theorem second_set_not_readable :
    ∃ s s', Rbtree.Reachable s ∧
      (Rbtree.kvsRbtreeSet allOk (some (CStr.lit "k")) (some (CStr.lit "b"))).run s = .ok (0, s') ∧
        Rbtree.Reads s' (CStr.lit "k") (CStr.lit "a") ∧
          ¬Rbtree.Reads s' (CStr.lit "k") (CStr.lit "b") := by
  obtain ⟨r, s, hset, rfl, hm, T, es, hs, -⟩ :=
    Rbtree.intact_created.ok_set (CStr.lit "k") (CStr.lit "a")
  obtain ⟨r, s', hset', rfl, hm', T', es', hs', -⟩ := hs.ok_set (CStr.lit "k") (CStr.lit "b")
  have hreach : Rbtree.Reachable s := by
    refine ⟨[(allOk, .set (CStr.lit "k") (CStr.lit "a"))], [.code 0], ?_⟩
    refine runAll_cons_ok.mpr ⟨_, s, [], ?_, rfl, rfl⟩
    show (Rbtree.call allOk (.set (CStr.lit "k") (CStr.lit "a"))).run Rbtree.created = _
    rw [Rbtree.call, run_bind_ok hset, run_pure]
  -- the contents are those after the first set
  have hlookup : (Rbtree.contents s').lookup (CStr.lit "k") = some (CStr.lit "a") := by
    rw [hm', hm, Rbtree.contents_created]
    decide
  have hget : Ok (Rbtree.call allOk (.get (CStr.lit "k"))) s'
      (fun r _ => r = .value (some (CStr.lit "a"))) := by
    refine (hs'.ok_step (.get (CStr.lit "k"))).mono ?_
    rintro r s'' ⟨hr, -⟩
    calc r = (KvMap.step 0 (Rbtree.contents s') (.get (CStr.lit "k"))).1 := congrArg Prod.fst hr
      _ = .value (some (CStr.lit "a")) := by rw [KvMap.step, hlookup]
  refine ⟨s, s', hreach, hset', hget, fun hb => ?_⟩
  obtain ⟨r, s'', hrun, hr⟩ := hget
  have hr' := hb.returns r s'' hrun
  rw [hr] at hr'
  exact absurd hr' (by decide)

/-! ## Creation -/

/-- What a client expects of an engine without entries: a get returns `NULL`, the count is `0`, and
a set stores its pair. -/
def StartsEmpty {σ : Type} (call : AllocPlan → Op → Exec σ Outcome) (count : Exec σ Int) (s : σ)
    (k v : CStr) : Prop :=
  Ok (call allOk (.get k)) s (fun out _ => out = .value none) ∧
    Ok count s (fun n _ => n = 0) ∧
      Ok (call allOk (.set k v)) s (fun out s' => out = .code 0 ∧
        Ok (call allOk (.get k)) s' (fun out _ => out = .value (some v)))

/-- A call of the array with arguments other than `NULL`. -/
abbrev Array.opCall (alloc : AllocPlan) (o : Op) : Arr Outcome := call alloc (.ofOp o)

theorem Array.startsEmpty_created (k v : CStr) : StartsEmpty opCall kvsArrayCount created k v := by
  have hslot : FreeSlot created 0 :=
    ⟨Nat.zero_le _, fun j hj => by omega, fun hlt => absurd hlt (by decide)⟩
  have hset : (kvsArraySet allOk (some k) (some v)).run created = _ :=
    kvsArraySet_of_freeSlot hslot (by decide) ⟨rfl, rfl⟩ k v
  have hfinds : Finds (write created 0 ⟨some k, some v⟩ 1) k 0 :=
    ⟨Nat.one_pos, by rw [keyAt_write, if_pos rfl], fun j hj => by omega⟩
  have hget := kvsArrayGet_of_finds (show 1 ≤ kvsArraySize by decide) hfinds
  refine ⟨⟨_, _, rfl, rfl⟩, ⟨_, _, rfl, rfl⟩, _, _, packed_run .code hset, rfl, _, _,
    packed_run .value hget, ?_⟩
  rw [valueAt_write, if_pos rfl]

theorem Rbtree.Intact.startsEmpty {s : State} (h : Intact s .nil []) (hcount : s.desc.count = 0)
    (k v : CStr) : StartsEmpty call kvsRbtreeCount s k v := by
  have hm : contents s = ∅ := h.contents_eq
  have hk : k ∉ contents s := hm ▸ Finmap.notMem_empty
  refine ⟨(h.ok_step (.get k)).mono ?_, ⟨_, _, rfl, hcount⟩, (h.ok_step (.set k v)).mono ?_⟩
  · rintro out s' ⟨hget, -⟩
    calc out = (KvMap.step 0 (contents s) (.get k)).1 := congrArg Prod.fst hget
      _ = .value none := by rw [KvMap.step, Finmap.lookup_eq_none.mpr hk]
  · rintro out s' ⟨hset, T', es', h', -⟩
    rw [KvMap.step, if_neg hk] at hset
    refine ⟨congrArg Prod.fst hset, (h'.ok_step (.get k)).mono ?_⟩
    rintro out' s'' ⟨hget, -⟩
    have hm' : contents s' = (contents s).insert k v := congrArg Prod.snd hset
    calc out' = (KvMap.step 0 (contents s') (.get k)).1 := congrArg Prod.fst hget
      _ = .value (some v) := by rw [KvMap.step, hm', Finmap.lookup_insert]

/-- A slot that has not been written cannot be read. -/
theorem Hash.returns_getSlot_unwritten {s : State} (h : s.desc.nodes = fun _ => none) (size : Nat)
    (idx : Int) (Q : Nat → State → Prop) : Returns (getSlot size idx) s Q := by
  rw [getSlot]
  split_ifs with hidx
  · refine returns_bind ((ok_readDesc ..).mpr ?_).returns
    rw [h]
    exact returns_throw .uninit s Q
  · exact returns_throw .outOfBounds s Q

/-- **Creation.** In any memory, and for every key and value: when the creation of the array or of
the tree returns `0`, the engine satisfies its invariant for the empty map and behaves accordingly;
when that of the hash table returns `0`, the engine never does. -/
theorem creation_empty (alloc : AllocPlan) (k v : CStr) :
    (∀ s s' : Array.ArrayT, (Array.kvstoreArrayCreate alloc).run s = .ok (0, s') →
      Array.Inv s' ∧ Array.occupied s' = ∅ ∧
        StartsEmpty Array.opCall Array.kvsArrayCount s' k v) ∧
    (∀ s s' : Rbtree.State, s.WF → (Rbtree.kvstoreRbtreeCreate alloc).run s = .ok (0, s') →
      Rbtree.Holds s' .nil [] ∧ StartsEmpty Rbtree.call Rbtree.kvsRbtreeCount s' k v) ∧
    (∀ s s' : Hash.State, (Hash.kvstoreHashCreate alloc).run s = .ok (0, s') →
      ¬StartsEmpty Hash.call Hash.kvsHashCount s' k v) := by
  refine ⟨?_, ?_, ?_⟩
  · intro s s' hrun
    rw [Array.kvstoreArrayCreate] at hrun
    split_ifs at hrun
    · cases hrun
      have hempty : Array.occupied Array.created = ∅ :=
        Finset.card_eq_zero.mp Array.inv_created.idx.symm
      exact ⟨Array.inv_created, hempty, Array.startsEmpty_created k v⟩
    · cases hrun
  · intro s s' hwf hrun
    obtain rfl := Rbtree.returns_kvstoreRbtreeCreate hwf alloc 0 s' hrun
    have hholds := Rbtree.holds_createdIn hwf
    exact ⟨hholds,
      Rbtree.Intact.startsEmpty ⟨hholds, fun e he => absurd he List.not_mem_nil⟩ rfl k v⟩
  · rintro s s' hrun ⟨⟨out, s'', hget, -⟩, -⟩
    have hnodes : s'.desc.nodes = fun _ => none := by
      rw [Hash.kvstoreHashCreate, Hash.initHashtable] at hrun
      split_ifs at hrun
      · cases hrun
        rfl
      · cases hrun
    have hno : Returns (Hash.call allOk (.get k)) s' (fun _ _ => False) := by
      rw [Hash.call, Hash.kvsHashGet, Hash.getKvHashtable]
      exact returns_bind (returns_bind (Hash.returns_getSlot_unwritten hnodes _ _ _))
    exact hno out s'' hget

/-- The first calls of an array in any memory, and of a tree in an empty one. -/
theorem creation_empty_run :
    StartsEmpty Array.opCall Array.kvsArrayCount Array.created (CStr.lit "k") (CStr.lit "v") ∧
      StartsEmpty Rbtree.call Rbtree.kvsRbtreeCount Rbtree.created (CStr.lit "k")
        (CStr.lit "v") := by
  obtain ⟨harray, htree, -⟩ := creation_empty allOk (CStr.lit "k") (CStr.lit "v")
  exact ⟨(harray Array.created _ rfl).2.2,
    (htree Rbtree.blank _ Rbtree.blank_wf Rbtree.kvstoreRbtreeCreate_run).2⟩

/-- The first get of a new hash table reads a slot that was never written. -/
theorem new_hash_table_unwritten :
    ∃ s', (Hash.kvstoreHashCreate allOk).run Hash.nulled = .ok (0, s') ∧
      (Hash.call allOk (.get (CStr.lit "k"))).run s' = .error .uninit :=
  ⟨_, rfl, rfl⟩

end KvStore
