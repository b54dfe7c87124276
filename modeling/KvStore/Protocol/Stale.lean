import KvStore.Protocol.Presence
import KvStore.Protocol.Request

set_option autoImplicit false

/-! # Old entries of the token array

`kvstore_parser_protocol` takes `tokens[1]` and `tokens[2]` for the key and the value, whatever the
number of tokens. In a message that is too short for its command these entries are not written, and
what they held before decides about the reply and about the engines, unless the engine answers
without looking at them (`request_steady_iff`).
-/

namespace KvStore.Protocol

open KvStore.Lib

/-! ## What a command uses -/

/-- How many tokens a command uses, its name included. -/
def Cmd.uses : Cmd → Nat
  | .set | .mod | .rset | .rmod | .hset | .hmod => 3
  | .get | .del | .rget | .rdel | .hget | .hdel => 2
  | .count | .rcount | .hcount => 1

/-- The engine answers without looking at the arguments that are missing; the option is the key, if
the message has one. -/
def Insensitive (σ : Server) : Cmd → Option CStr → Prop
  | .set, _ => σ.array.arrayIdx = Array.kvsArraySize
  | .get, _ => σ.array.arrayIdx = 0 ∨ Array.keyAt σ.array 0 = none
  | .rget, _ => Rbtree.contents σ.tree = ∅
  | .rdel, _ => Rbtree.contents σ.tree = ∅
  | .rmod, none => Rbtree.contents σ.tree = ∅
  | .rmod, some k => k ∉ Rbtree.contents σ.tree
  | .hset, some k => k ∈ Hash.contents Hash.maxTableSize σ.hash
  | .hmod, some k =>
      Hash.InRange Hash.maxTableSize k ∧ k ∉ Hash.contents Hash.maxTableSize σ.hash
  | _, _ => False

/-- All three engines are in states that calls lead to. -/
structure Server.Reachable (σ : Server) : Prop where
  array : Array.Reachable σ.array
  tree : Rbtree.Reachable σ.tree
  hash : Hash.Reachable σ.hash

/-! ## Commands without arguments -/

/-- A command is the call of an engine and the print of what it returns. -/
theorem ok_execute (alloc : AllocPlan) (cmd : Cmd) (key value : Option CStr) (σ : Server)
    (Q : CStr → Server → Prop) :
    Ok (execute alloc cmd key value) σ Q ↔
      match cmd with
      | .set => Ok (Array.kvsArraySet alloc key value) σ.array
          (fun r a => Q (setReply r) (σ.withArray a))
      | .get => Ok (Array.kvsArrayGet key) σ.array (fun v a => Q (getReply v) (σ.withArray a))
      | .del => Ok (Array.kvsArrayDelete key) σ.array
          (fun r a => Q (changeReply r) (σ.withArray a))
      | .mod => Ok (Array.kvsArrayModify alloc key value) σ.array
          (fun r a => Q (changeReply r) (σ.withArray a))
      | .count => Ok Array.kvsArrayCount σ.array (fun n a => Q (countReply n) (σ.withArray a))
      | .rset => Ok (Rbtree.kvsRbtreeSet alloc key value) σ.tree
          (fun r t => Q (setReply r) (σ.withTree t))
      | .rget => Ok (Rbtree.kvsRbtreeGet key >>= deref) σ.tree
          (fun v t => Q (getReply v) (σ.withTree t))
      | .rdel => Ok (Rbtree.kvsRbtreeDelete key) σ.tree
          (fun r t => Q (changeReply r) (σ.withTree t))
      | .rmod => Ok (Rbtree.kvsRbtreeModify alloc key value) σ.tree
          (fun r t => Q (changeReply r) (σ.withTree t))
      | .rcount => Ok Rbtree.kvsRbtreeCount σ.tree (fun n t => Q (countReply n) (σ.withTree t))
      | .hset => Ok (Hash.kvsHashSet alloc key value) σ.hash
          (fun r t => Q (setReply r) (σ.withHash t))
      | .hget => Ok (Hash.kvsHashGet key >>= deref) σ.hash
          (fun v t => Q (getReply v) (σ.withHash t))
      | .hdel => Ok (Hash.kvsHashDelete key) σ.hash (fun r t => Q (changeReply r) (σ.withHash t))
      | .hmod => Ok (Hash.kvsHashModify alloc key value) σ.hash
          (fun r t => Q (changeReply r) (σ.withHash t))
      | .hcount => Ok Hash.kvsHashCount σ.hash (fun n t => Q (countReply n) (σ.withHash t)) := by
  cases cmd <;>
    simp only [execute, kvstoreArraySet, kvstoreArrayGet, kvstoreArrayDelete, kvstoreArrayModify,
      kvstoreArrayCount, kvstoreRbtreeSet, kvstoreRbtreeGet, kvstoreRbtreeDelete,
      kvstoreRbtreeModify, kvstoreRbtreeCount, kvstoreHashSet, kvstoreHashGet, kvstoreHashDelete,
      kvstoreHashModify, kvstoreHashCount, onArray, onTree, onHash, ok_bind, ok_zoom,
      ok_pure] <;> rfl

section Settled

variable {σ : Server} {cmd : Cmd} {given : Option CStr}

/-- A search in an empty tree, or for a key that is not there, ends at the sentinel. -/
theorem search_settled {t : Rbtree.State} {T : RBTree Nat} {es : List Rbtree.Entry}
    (htree : Rbtree.Holds t T es) {key : Option CStr} (h : match given with
      | none => T = .nil
      | some k => k ∉ Rbtree.contents t) (hkey : ∀ k, given = some k → key = some k) :
    Ok (Rbtree.rbtreeSearch key) t (fun node t' => node = t'.desc.nil ∧ t' = t) := by
  cases given with
  | none =>
      obtain rfl : T = .nil := h
      exact (htree.ok_search_nil ..).mpr ⟨rfl, rfl⟩
  | some k =>
      rw [hkey k rfl]
      have habs : k ∉ es.map Rbtree.Entry.key := fun hk => h (htree.mem_contents.mpr hk)
      refine htree.ok_search k ?_ (fun _ => ⟨rfl, rfl⟩)
      rintro a L₁ L₂ E₁ e E₂ - rfl - - - rfl -
      exact absurd (by simp) habs

/-- A `set` of a key in the hash table is refused, whatever the value. -/
theorem hashSet_settled {t : Hash.State} {tab : Nat → List Hash.Cell} {k : CStr}
    (hhash : Hash.Holds Hash.maxTableSize t tab) (h : k ∈ Hash.contents Hash.maxTableSize t)
    (alloc : AllocPlan) (value : Option CStr) :
    Ok (Hash.kvsHashSet alloc (some k) value) t (fun r t' => setReply r = setReply 1 ∧ t' = t) := by
  obtain ⟨i, hi, hk⟩ := (hhash.inRange_of_mem h).slot
  cases value with
  | none => exact (ok_pure ..).mpr ⟨rfl, rfl⟩
  | some v =>
      rw [Hash.kvsHashSet]
      have hmem := hhash.mem_contents.mp h
      exact Hash.ok_putKvHashtable hhash hk hi (fun habs => absurd hmem habs)
        (fun _ => ⟨rfl, rfl⟩) (fun _ _ habs => absurd hmem habs)

/-- So is a `modify` of a key that is not there. -/
theorem hashModify_settled {t : Hash.State} {tab : Nat → List Hash.Cell} {k : CStr}
    (hhash : Hash.Holds Hash.maxTableSize t tab) (hr : Hash.InRange Hash.maxTableSize k)
    (h : k ∉ Hash.contents Hash.maxTableSize t) (alloc : AllocPlan) (value : Option CStr) :
    Ok (Hash.kvsHashModify alloc (some k) value) t (fun r t' => r = -1 ∧ t' = t) := by
  obtain ⟨i, hi, hk⟩ := hr.slot
  cases value with
  | none => exact (ok_pure ..).mpr ⟨rfl, rfl⟩
  | some v =>
      rw [Hash.kvsHashModify]
      have habs := mt hhash.mem_contents.mpr h
      refine Hash.ok_modifyKvHashtable hhash hk hi (fun hmem => absurd hmem habs) ?_
        (fun _ => ⟨rfl, rfl⟩)
      rintro s' L₁ c L₂ hL rfl - -
      exact absurd (List.mem_map_of_mem (mem_joined.mpr ⟨i, hi, by simp [hL]⟩)) habs

/-- What the engine answers does not depend on the missing arguments, nor on the allocations. -/
theorem Insensitive.settled (hσ : σ.Reachable) (h : Insensitive σ cmd given) :
    ∃ msg, ∀ alloc key value, (∀ k, given = some k → key = some k) →
      Ok (execute alloc cmd key value) σ (fun m σ' => m = msg ∧ σ' = σ) := by
  obtain ⟨T, es, htree⟩ := hσ.tree.holds
  obtain ⟨tab, hhash⟩ := hσ.hash.holds
  -- in an empty tree the search ends at the sentinel
  have hempty : Rbtree.contents σ.tree = ∅ → T = .nil := fun h0 => htree.contents_eq_empty.mp h0
  cases cmd with
  | set =>
      refine ⟨setReply (-1), fun alloc key value _ => ?_⟩
      have hrun : (Array.kvsArraySet alloc key value).run σ.array = .ok (-1, σ.array) := by
        cases key with
        | none => rfl
        | some k =>
            cases value with
            | none => rfl
            | some v => exact Array.kvsArraySet_full h alloc k v
      exact (ok_execute ..).mpr ((ok_of_run hrun _).mpr ⟨rfl, rfl⟩)
  | get =>
      refine ⟨getReply none, fun alloc key value _ => ?_⟩
      have hrun := Array.kvsArrayGet_of_front hσ.array.inv.le h key
      exact (ok_execute ..).mpr ((ok_of_run hrun _).mpr ⟨rfl, rfl⟩)
  | rget =>
      refine ⟨getReply none, fun alloc key value _ => (ok_execute ..).mpr ?_⟩
      obtain rfl := hempty h
      dsimp only
      rw [ok_bind, Rbtree.kvsRbtreeGet, ok_bind, htree.ok_search_nil, ok_bind, Rbtree.ok_getNil,
        if_pos rfl, ok_pure, deref, if_pos rfl, ok_pure]
      exact ⟨rfl, rfl⟩
  | rdel =>
      refine ⟨changeReply (-1), fun alloc key value _ => (ok_execute ..).mpr ?_⟩
      obtain rfl := hempty h
      dsimp only
      rw [Rbtree.kvsRbtreeDelete, ok_bind, htree.ok_search_nil, ok_bind, Rbtree.ok_getNil,
        if_pos rfl, ok_pure]
      exact ⟨rfl, rfl⟩
  | rmod =>
      refine ⟨changeReply (-1), fun alloc key value hkey => (ok_execute ..).mpr ?_⟩
      have hmiss : Ok (Rbtree.rbtreeSearch key) σ.tree
          (fun node t => node = t.desc.nil ∧ t = σ.tree) := by
        refine search_settled htree ?_ hkey
        cases given with
        | none => exact hempty h
        | some k => exact h
      dsimp only
      rw [Rbtree.kvsRbtreeModify, ok_bind]
      refine hmiss.mono ?_
      rintro node t ⟨rfl, rfl⟩
      rw [ok_bind, Rbtree.ok_getNil, if_pos rfl, ok_pure]
      exact ⟨rfl, rfl⟩
  | hset =>
      cases given with
      | none => exact absurd h id
      | some k =>
          refine ⟨setReply 1, fun alloc key value hkey => (ok_execute ..).mpr ?_⟩
          rw [hkey k rfl]
          refine (hashSet_settled hhash h alloc value).mono ?_
          rintro r t ⟨hr, rfl⟩
          exact ⟨hr, rfl⟩
  | hmod =>
      cases given with
      | none => exact absurd h id
      | some k =>
          refine ⟨changeReply (-1), fun alloc key value hkey => (ok_execute ..).mpr ?_⟩
          rw [hkey k rfl]
          refine (hashModify_settled hhash h.1 h.2 alloc value).mono ?_
          rintro r t ⟨rfl, rfl⟩
          exact ⟨rfl, rfl⟩
  | del => exact absurd h id
  | mod => exact absurd h id
  | count => exact absurd h id
  | rset => exact absurd h id
  | rcount => exact absurd h id
  | hget => exact absurd h id
  | hdel => exact absurd h id
  | hcount => exact absurd h id

end Settled

/-! ## Commands whose arguments matter -/

theorem snprintf_changeReply_iff (r : Int) :
    snprintf (changeReply r) = CStr.lit "ERROR" ↔ r < 0 := by
  rcases lt_trichotomy r 0 with hr | rfl | hr
  · rw [changeReply, if_pos hr]
    exact iff_of_true (by decide) hr
  · exact iff_of_false (by decide) (by omega)
  · rw [changeReply, if_neg (by omega), if_neg (by omega)]
    exact iff_of_false (by decide) (by omega)

/-- A client that looks at the reply can tell the two calls apart. -/
def Distinguished (σ : Server) (cmd : Cmd) (key value key' value' : Option CStr) : Prop :=
  ∃ P : CStr → Prop, ¬(Ok (execute allOk cmd key value) σ (fun m _ => P (snprintf m)) ↔
    Ok (execute allOk cmd key' value') σ (fun m _ => P (snprintf m)))

section Sensitive

variable {σ : Server} {cmd : Cmd} {key value key' value' : Option CStr} {o : Op} {k v : CStr}

theorem Distinguished.of_left {P : CStr → Prop}
    (h : Ok (execute allOk cmd key value) σ (fun m _ => P (snprintf m)))
    (h' : ¬Ok (execute allOk cmd key' value') σ (fun m _ => P (snprintf m))) :
    Distinguished σ cmd key value key' value' := ⟨P, fun hiff => h' (hiff.mp h)⟩

theorem Distinguished.of_right {P : CStr → Prop}
    (h : ¬Ok (execute allOk cmd key value) σ (fun m _ => P (snprintf m)))
    (h' : Ok (execute allOk cmd key' value') σ (fun m _ => P (snprintf m))) :
    Distinguished σ cmd key value key' value' := ⟨P, fun hiff => h (hiff.mpr h')⟩

theorem distinguished_set (hσ : Array.Reachable σ.array)
    (hfull : σ.array.arrayIdx ≠ Array.kvsArraySize) (key : Option CStr) (k v : CStr) :
    Distinguished σ .set key none (some k) (some v) := by
  have hnull : (Array.kvsArraySet allOk key none).run σ.array = .ok (-1, σ.array) := by
    cases key <;> rfl
  obtain ⟨i, hi⟩ := Array.exists_freeSlot σ.array
  have hset : (Array.kvsArraySet allOk (some k) (some v)).run σ.array = _ :=
    Array.kvsArraySet_of_freeSlot hi (lt_of_le_of_ne hσ.inv.le hfull) ⟨rfl, rfl⟩ k v
  refine .of_right (P := (· = CStr.lit "SUCCESS")) ?_ ?_
  · rw [ok_execute]
    dsimp only
    rw [ok_of_run hnull]
    decide
  · rw [ok_execute]
    dsimp only
    rw [ok_of_run hset]
    decide

theorem distinguished_get (hσ : Array.Reachable σ.array)
    (h : ¬(σ.array.arrayIdx = 0 ∨ Array.keyAt σ.array 0 = none)) :
    ∃ k, Distinguished σ .get none none (some k) (some k) := by
  rw [not_or] at h
  have hpos := Nat.pos_of_ne_zero h.1
  obtain ⟨k, hk⟩ := Option.ne_none_iff_exists'.mp h.2
  have hfinds : Array.Finds σ.array k 0 := ⟨hpos, hk, fun j hj => by omega⟩
  refine ⟨k, .of_right (P := fun _ => True) ?_ ?_⟩
  · rw [ok_execute]
    rintro ⟨r, a, hrun, -⟩
    rw [Array.kvsArrayGet_null hσ.inv.le hpos h.2] at hrun
    cases hrun
  · rw [ok_execute]
    exact ⟨_, _, Array.kvsArrayGet_of_finds hσ.inv.le hfinds, trivial⟩

/-- The array engine has no negative result for arguments other than `NULL`. -/
theorem array_change_not_error (hσ : Array.Reachable σ.array) (ho : Changes o) (stale : Tokens) :
    ¬Ok (array.execute allOk o stale) σ (fun m _ => snprintf m = CStr.lit "ERROR") := by
  intro hok
  obtain ⟨out, a, hrun, herr⟩ := (ok_execute_array o).mp hok
  rcases array_change hσ ho hrun with ⟨-, rfl⟩ | ⟨-, rfl⟩
  · rw [reply_change ho, snprintf_changeReply_iff] at herr
    omega
  · rw [reply_change ho, snprintf_changeReply_iff] at herr
    omega

/-- Every call of the tree with arguments other than `NULL` returns. -/
theorem ok_execute_rbtree_true (hσ : Rbtree.Reachable σ.tree) (o : Op) (stale : Tokens) :
    Ok (rbtree.execute allOk o stale) σ (fun _ _ => True) := by
  obtain ⟨T, es, h⟩ := hσ.holds
  exact (ok_execute_rbtree o).mpr ((h.ok_call allOk o).mono fun _ _ _ => trivial)

theorem not_ok_rbtree_null (hσ : Rbtree.Reachable σ.tree) (h : Rbtree.contents σ.tree ≠ ∅)
    (hcmd : cmd = .rget ∨ cmd = .rdel ∨ cmd = .rmod) (value : Option CStr) :
    ¬Ok (execute allOk cmd none value) σ (fun _ _ => True) := by
  obtain ⟨T, es, hholds⟩ := hσ.holds
  have hsearch := hholds.not_ok_search_null (mt hholds.contents_eq_empty.mpr h)
  rw [ok_execute]
  rcases hcmd with rfl | rfl | rfl
  · dsimp only
    rw [ok_bind, Rbtree.kvsRbtreeGet, ok_bind]
    exact hsearch _
  · dsimp only
    rw [Rbtree.kvsRbtreeDelete, ok_bind]
    exact hsearch _
  · dsimp only
    rw [Rbtree.kvsRbtreeModify, ok_bind]
    exact hsearch _

/-- A key whose only byte is `-1` as a `char`. -/
def negativeKey : CStr := ⟨[255], by decide⟩

theorem not_ok_negativeKey (ho : o.key = negativeKey) (stale : Tokens) :
    ¬Ok (hash.execute allOk o stale) σ (fun _ _ => True) := by
  intro h
  obtain ⟨out, s', hrun, -⟩ := (ok_execute_hash o).mp h
  have hr : Hash.InRange Hash.maxTableSize o.key := Hash.inRange_of_run hrun
  rw [ho] at hr
  exact absurd hr (by decide)

/-- A new key is stored with a value, and refused without one. -/
theorem distinguished_hset (hσ : Hash.Reachable σ.hash)
    (habs : k ∉ Hash.contents Hash.maxTableSize σ.hash) (v : CStr) :
    Distinguished σ .hset (some k) none (some k) (some v) := by
  have hfailed : snprintf (setReply (-1)) = CStr.lit "FAILED" := by decide
  refine .of_left (P := (· = CStr.lit "FAILED")) ⟨_, _, rfl, hfailed⟩ ?_
  intro hok
  have hcall : Ok (hash.execute allOk (.set k v) fun _ => none) σ
      (fun m _ => snprintf m = CStr.lit "FAILED") := hok
  obtain ⟨out, s', hrun, hout⟩ := (ok_execute_hash _).mp hcall
  have hr : Hash.InRange Hash.maxTableSize k := Hash.inRange_of_run hrun
  obtain ⟨tab, hhash⟩ := hσ.holds
  have hstep := ((hhash.ok_step (o := .set k v) hr).returns out s' hrun).1
  rw [KvMap.step, if_neg habs] at hstep
  obtain rfl : out = .code 0 := congrArg Prod.fst hstep
  have hsuccess : snprintf (setReply 0) ≠ CStr.lit "FAILED" := by decide
  exact hsuccess hout

/-- A stored key gets a new value, and is refused without one. -/
theorem distinguished_hmod (hσ : Hash.Reachable σ.hash) (h : ¬(Hash.InRange Hash.maxTableSize k ∧
    k ∉ Hash.contents Hash.maxTableSize σ.hash)) (v : CStr) :
    Distinguished σ .hmod (some k) none (some k) (some v) := by
  have herror : snprintf (changeReply (-1)) = CStr.lit "ERROR" := by decide
  refine .of_left (P := (· = CStr.lit "ERROR")) ⟨_, _, rfl, herror⟩ ?_
  intro hok
  have hcall : Ok (hash.execute allOk (.modify k v) fun _ => none) σ
      (fun m _ => snprintf m = CStr.lit "ERROR") := hok
  obtain ⟨out, s', hrun, herr⟩ := (ok_execute_hash _).mp hcall
  have hr : Hash.InRange Hash.maxTableSize k := Hash.inRange_of_run hrun
  have hchanges : Changes (.modify k v) := trivial
  rcases hash_change hσ hchanges hrun with ⟨-, rfl⟩ | ⟨habs, -⟩
  · rw [reply_change hchanges, snprintf_changeReply_iff] at herr
    omega
  · exact h ⟨hr, habs⟩

/-- **Where the missing arguments matter**, some entry of the token array makes a difference to
`NULL`. -/
theorem distinguished_of_sensitive {given : Option CStr} (hσ : σ.Reachable) (huses : 2 ≤ cmd.uses)
    (hgiven : given ≠ none → cmd.uses = 3) (h : ¬Insensitive σ cmd given) :
    ∃ x, Distinguished σ cmd given none (given.or (some x)) (some x) := by
  have hnone : cmd.uses = 2 → given = none := by
    intro h2
    by_contra hne
    have := hgiven hne
    omega
  have herror : snprintf (changeReply (-1)) = CStr.lit "ERROR" := by decide
  obtain ⟨T, es, htree⟩ := hσ.tree.holds
  -- the key, whether it comes from the message or not
  have hkey : ∀ x, ∃ k, given.or (some x) = some k := by
    intro x
    cases given with
    | none => exact ⟨x, rfl⟩
    | some k => exact ⟨k, rfl⟩
  cases cmd with
  | set =>
      obtain ⟨k, hk⟩ := hkey default
      exact ⟨default, hk ▸ distinguished_set hσ.array h given k default⟩
  | get =>
      obtain rfl := hnone rfl
      exact distinguished_get hσ.array h
  | del =>
      obtain rfl := hnone rfl
      refine ⟨default, .of_left (P := (· = CStr.lit "ERROR")) ?_ ?_⟩
      · exact ⟨_, _, rfl, herror⟩
      · exact array_change_not_error hσ.array (o := .delete default) trivial fun _ => some default
  | mod =>
      obtain ⟨k, hk⟩ := hkey default
      refine ⟨default, .of_left (P := (· = CStr.lit "ERROR")) ?_ ?_⟩
      · cases given <;> exact ⟨_, _, rfl, herror⟩
      · rw [hk]
        exact array_change_not_error hσ.array (o := .modify k default) trivial fun _ => none
  | rset =>
      obtain ⟨k, hk⟩ := hkey default
      refine ⟨default, .of_right (P := fun _ => True) ?_ ?_⟩
      · rw [ok_execute]
        exact Rbtree.not_ok_kvsRbtreeSet_null htree.wf given _
      · rw [hk]
        exact ok_execute_rbtree_true hσ.tree (.set k default) fun _ => none
  | rget =>
      obtain rfl := hnone rfl
      refine ⟨default, .of_right (P := fun _ => True) ?_ ?_⟩
      · exact not_ok_rbtree_null hσ.tree h (by simp) none
      · exact ok_execute_rbtree_true hσ.tree (.get default) fun _ => some default
  | rdel =>
      obtain rfl := hnone rfl
      refine ⟨default, .of_right (P := fun _ => True) ?_ ?_⟩
      · exact not_ok_rbtree_null hσ.tree h (by simp) none
      · exact ok_execute_rbtree_true hσ.tree (.delete default) fun _ => some default
  | rmod =>
      obtain ⟨k, hk⟩ := hkey default
      refine ⟨default, .of_right (P := fun _ => True) ?_ ?_⟩
      · cases given with
        | none => exact not_ok_rbtree_null hσ.tree h (by simp) none
        | some k =>
            rw [ok_execute]
            exact htree.not_ok_modify_null (htree.mem_contents.mp (not_not.mp h)) allOk _
      · rw [hk]
        exact ok_execute_rbtree_true hσ.tree (.modify k default) fun _ => none
  | hget =>
      obtain rfl := hnone rfl
      refine ⟨negativeKey, .of_left (P := fun _ => True) ⟨_, _, rfl, trivial⟩ ?_⟩
      exact not_ok_negativeKey (o := .get negativeKey) rfl fun _ => some negativeKey
  | hdel =>
      obtain rfl := hnone rfl
      refine ⟨negativeKey, .of_left (P := fun _ => True) ⟨_, _, rfl, trivial⟩ ?_⟩
      exact not_ok_negativeKey (o := .delete negativeKey) rfl fun _ => some negativeKey
  | hset =>
      cases given with
      | none =>
          refine ⟨negativeKey, .of_left (P := fun _ => True) ⟨_, _, rfl, trivial⟩ ?_⟩
          exact not_ok_negativeKey (o := .set negativeKey negativeKey) rfl fun _ => none
      | some k => exact ⟨default, distinguished_hset hσ.hash h default⟩
  | hmod =>
      cases given with
      | none =>
          refine ⟨negativeKey, .of_left (P := fun _ => True) ⟨_, _, rfl, trivial⟩ ?_⟩
          exact not_ok_negativeKey (o := .modify negativeKey negativeKey) rfl fun _ => none
      | some k => exact ⟨default, distinguished_hmod hσ.hash h default⟩
  | count => exact absurd huses (by decide)
  | rcount => exact absurd huses (by decide)
  | hcount => exact absurd huses (by decide)

end Sensitive

/-! ## Requests -/

/-- What a client and the engines see of a request: the write buffer and the engines after it. -/
def outcome (alloc : AllocPlan) (stale : Tokens) (w : Session) :
    Except Fault (Buffer bufferLength × Server) :=
  ((kvstoreRequest alloc stale).run w).map fun p => (p.2.item.wbuffer, p.2.server)

/-- The same after a command that returned the text `p.1`. -/
def printed (p : CStr × Server) : Buffer bufferLength × Server :=
  ((Buffer.zero _).write (snprintf p.1).bytes, p.2)

section Requests

variable {w : Session} {cmd : Cmd} {args : List CStr}

theorem snprintf_strlen (m : CStr) : (snprintf m).strlen < bufferLength := by
  show (m.bytes.take (bufferLength - 1)).length < bufferLength
  rw [List.length_take, bufferLength]
  omega

theorem printed_text (p : CStr × Server) : (printed p).1.text = snprintf p.1 :=
  Buffer.zero_write_text (snprintf_strlen p.1)

theorem printed_nul (p : CStr × Server) : 0 ∈ (printed p).1.bytes := by
  obtain ⟨rest, hrest⟩ := Buffer.zero_write_nul (snprintf_strlen p.1)
  simp [printed, hrest]

/-- A request whose first word is a command is the call of this command. -/
theorem outcome_eq (h0 : 0 ∈ w.item.rbuffer.bytes)
    (hwords : words space w.item.rbuffer.bytes = cmd.name :: args)
    (hlen : args.length < kvstoreMaxTokens) (alloc : AllocPlan) (stale : Tokens) :
    outcome alloc stale w = ((execute alloc cmd (args[0]?.or (stale 1)) (args[1]?.or (stale 2))).run
      w.server).map printed := by
  have hfit : (words space w.item.rbuffer.bytes).length ≤ kvstoreMaxTokens := by
    rw [hwords, List.length_cons]
    omega
  obtain ⟨rbuffer, -, hrun⟩ := kvstoreRequest_run h0 hfit
  rw [outcome, hrun, hwords, parserProtocol_command]
  cases hexec : (execute alloc cmd (args[0]?.or (stale 1)) (args[1]?.or (stale 2))).run
    w.server with
  | error e =>
      rw [run_bind_error hexec]
      rfl
  | ok p =>
      rw [run_bind_ok hexec]
      rfl

/-- Calls with the same outcome print the same text. -/
theorem ok_of_printed_eq {σ : Server} {c c' : Srv CStr}
    (h : (c.run σ).map printed = (c'.run σ).map printed) {P : CStr → Prop}
    (hok : Ok c σ (fun m _ => P (snprintf m))) : Ok c' σ (fun m _ => P (snprintf m)) := by
  obtain ⟨m, τ, hrun, hP⟩ := hok
  rw [hrun] at h
  cases hrun' : c'.run σ with
  | error e =>
      rw [hrun'] at h
      cases h
  | ok p =>
      rw [hrun'] at h
      have heq : printed (m, τ) = printed p := Except.ok.inj h
      refine ⟨p.1, p.2, hrun', ?_⟩
      show P (snprintf p.1)
      rw [← printed_text p, ← heq, printed_text]
      exact hP

/-- A command does not look at more arguments than it uses. -/
theorem execute_congr {alloc : AllocPlan} {key value key' value' : Option CStr}
    (hkey : 2 ≤ cmd.uses → key = key') (hvalue : 3 ≤ cmd.uses → value = value') :
    execute alloc cmd key value = execute alloc cmd key' value' := by
  cases cmd <;> simp_all [execute, Cmd.uses]

/-- **When a request depends on the request and the store only.** In reachable states of the
engines, the reply to a message whose first word is a command, and the engines after it, are the
same for all old contents of the token array, exactly when the message has as many words as the
command uses, or the engine answers without looking at those that are missing. -/
theorem request_steady_iff (w : Session) (hw : w.server.Reachable) (h0 : 0 ∈ w.item.rbuffer.bytes)
    (cmd : Cmd) (args : List CStr) (hwords : words space w.item.rbuffer.bytes = cmd.name :: args)
    (hlen : args.length < kvstoreMaxTokens) :
    (∀ alloc stale stale', outcome alloc stale w = outcome alloc stale' w) ↔
      cmd.uses ≤ args.length + 1 ∨ Insensitive w.server cmd args[0]? := by
  have heq := outcome_eq h0 hwords hlen
  constructor
  · intro h
    by_contra hnot
    rw [not_or, not_le] at hnot
    obtain ⟨hshort, hsens⟩ := hnot
    have huses : cmd.uses ≤ 3 := by cases cmd <;> decide
    have hgiven : args[0]? ≠ none → cmd.uses = 3 := by
      intro hne
      have hpos : 0 < args.length := by
        by_contra hlen
        exact hne (List.getElem?_eq_none (by omega))
      omega
    have hlast : args[1]? = none := List.getElem?_eq_none (by omega)
    obtain ⟨x, P, hdiff⟩ := distinguished_of_sensitive hw (by omega) hgiven hsens
    have hsame := h allOk (fun _ => none) (fun _ => some x)
    rw [heq, heq, hlast, Option.or_none, Option.none_or, Option.none_or] at hsame
    exact hdiff ⟨ok_of_printed_eq hsame, ok_of_printed_eq hsame.symm⟩
  · rintro (henough | hins) alloc stale stale'
    · rw [heq, heq, execute_congr]
      · intro huses
        rw [List.getElem?_eq_getElem (by omega), Option.some_or, Option.some_or]
      · intro huses
        rw [List.getElem?_eq_getElem (by omega), Option.some_or, Option.some_or]
    · obtain ⟨msg, hmsg⟩ := hins.settled hw
      have hrun : ∀ stale : Tokens, outcome alloc stale w = .ok (printed (msg, w.server)) := by
        intro stale
        obtain ⟨m, σ, hrun, rfl, rfl⟩ := hmsg alloc (args[0]?.or (stale 1)) (args[1]?.or (stale 2))
          fun k hk => by rw [hk, Option.some_or]
        rw [heq, hrun]
        rfl
      rw [hrun, hrun]

end Requests

theorem reachable_started : started.Reachable :=
  ⟨Reach.refl .., Reach.refl .., _, Hash.nullTable_nulled, Reach.refl ..⟩

/-- A complete message to the tree. -/
theorem request_steady_rset :
    outcome allOk (fun _ => none) (inbox started (CStr.lit "RSET k v").bytes)
      = outcome allOk (fun _ => some (CStr.lit "old"))
        (inbox started (CStr.lit "RSET k v").bytes) := by
  have hlen : (CStr.lit "RSET k v").bytes.length < bufferLength := by decide
  have hwords : words space (CStr.lit "RSET k v").bytes
      = Cmd.rset.name :: [CStr.lit "k", CStr.lit "v"] := by decide
  exact (request_steady_iff _ reachable_started (inbox_nul hlen) .rset _
    ((inbox_words hlen).trans hwords) (by decide)).mpr (Or.inl (by decide)) _ _ _

/-- A `SET` without a value: it fails where the old entry of the token array is `NULL`, and stores
the old entry where there is one. -/
theorem request_stores_old_entry :
    started.Reachable ∧
    outcome allOk (fun _ => none) (inbox started (CStr.lit "SET k").bytes)
      = .ok (printed (CStr.lit "FAILED", started)) ∧
    outcome allOk (fun _ => some (CStr.lit "old")) (inbox started (CStr.lit "SET k").bytes)
      = .ok (printed (CStr.lit "SUCCESS", started.withArray
        (Array.write Array.created 0 ⟨some (CStr.lit "k"), some (CStr.lit "old")⟩ 1))) := by
  have hlen : (CStr.lit "SET k").bytes.length < bufferLength := by decide
  have hwords : words space (CStr.lit "SET k").bytes = Cmd.set.name :: [CStr.lit "k"] := by decide
  have heq := fun stale => outcome_eq (inbox_nul hlen) ((inbox_words hlen).trans hwords) (by decide)
    allOk (w := inbox started _) stale
  refine ⟨reachable_started, ?_, ?_⟩
  · rw [heq]
    rfl
  · rw [heq]
    rfl

end KvStore.Protocol
