import KvStore.Hash.Runs
import KvStore.Lib.Mutex

set_option autoImplicit false

/-! # The hash table with a lock

The functions of `kv_engine/hash.c`. The file is a copy of `kvstore_hash.c` with fewer slots and a
mutex in the descriptor, which `put_kv_hashtable`, `get_kv_hashtable` and `delete_kv_hashtable` take
and which `kvs_hash_modify` does not take. What the two files share is used from `Hash.Model`, on
the table that the mutex guards.

* `Holds.ok_lockedCall` — a call that finds the mutex free does to the table what the call without a
  lock does. It gives the mutex back unless it is a `delete` of a key whose slot is empty.
* `tables_agree_iff` — which runs the two tables answer alike. -/

namespace KvStore.Hash

open KvStore.Lib

/-! ## The functions -/

namespace Locked

/-- `MAX_TABLE_SIZE` of `hash.c` -/
def maxTableSize : Nat := 1024

/-- The memory with the table in it, and `hash->lock`. -/
abbrev Lx (α : Type) := Exec (Guarded State) α

open Guarded (lock unlock inside)

def putKvHashtable (alloc : AllocPlan) : Option CStr → Option CStr → Lx Int
  | some key, some value => do
      let idx := hash (some key) maxTableSize
      lock
      let node ← inside (findNode key (← inside (getSlot maxTableSize idx)))
      -- the key is there
      if node ≠ 0 then
        unlock
        return 1
      -- the result of `_create_node` is not tested
      let newNode ← inside (createNode alloc key value)
      inside (setNext newNode (← inside (getSlot maxTableSize idx)))
      inside (setSlot maxTableSize idx newNode)
      inside (writeDesc (Hashtable.addCount 1))
      unlock
      return 0
  | _, _ => return -1

/-- The value of the node is read after the mutex has been given back. -/
def getKvHashtable : Option CStr → Lx Nat
  | some key => do
      let idx := hash (some key) maxTableSize
      lock
      let node ← inside (findNode key (← inside (getSlot maxTableSize idx)))
      if node ≠ 0 then
        unlock
        inside (getValue node)
      else
        unlock
        return 0
  | none => return 0

/-- A `delete` in an empty slot returns without `pthread_mutex_unlock`. -/
def deleteKvHashtable : Option CStr → Lx Int
  | some key => do
      let idx := hash (some key) maxTableSize
      lock
      let head ← inside (getSlot maxTableSize idx)
      -- the exit that keeps the mutex
      if head = 0 then
        return -1
      -- the head of the chain is the node
      if CStr.strcmp (← inside (readStr (← inside (getKey head)))) key = 0 then
        inside (setSlot maxTableSize idx (← inside (getNext head)))
        inside (freeNode head)
        inside (writeDesc (Hashtable.addCount (-1)))
        unlock
        return 0
      let cur ← inside (whileLoop (deleteStep key) head)
      -- the chain ends without the key
      if (← inside (getNext cur)) = 0 then
        unlock
        return -1
      let tmp ← inside (getNext cur)
      inside (setNext cur (← inside (getNext tmp)))
      inside (freeNode tmp)
      inside (writeDesc (Hashtable.addCount (-1)))
      unlock
      return 0
  | none => return -2

/-- `kvs_hash_modify` does not take the mutex. -/
def kvsHashModify (alloc : AllocPlan) (key value : Option CStr) : Lx Int :=
  inside (modifyKvHashtable alloc maxTableSize key value)

def kvsHashCount : Lx Int := inside Hash.kvsHashCount

end Locked

/-! ## The client -/

/-- A call of one of the two tables; an argument may be `NULL`. -/
inductive Call where
  | put (key value : Option CStr)
  | get (key : Option CStr)
  | delete (key : Option CStr)
  | modify (key value : Option CStr)

/-- The key that a call passes. -/
def Call.key : Call → Option CStr
  | .put k _ => k
  | .get k => k
  | .delete k => k
  | .modify k _ => k

/-- The operation that a call without a `NULL` asks for. -/
def Call.op? : Call → Option Op
  | .put (some k) (some v) => some (.set k v)
  | .get (some k) => some (.get k)
  | .delete (some k) => some (.delete k)
  | .modify (some k) (some v) => some (.modify k v)
  | _ => none

/-- What a call with a `NULL` returns. -/
def Call.refusal : Call → Outcome
  | .put _ _ => .code (-1)
  | .get _ => .value none
  | .delete _ => .code (-2)
  | .modify _ _ => .code (-1)

/-- A call of the abstract store. -/
def mapCall (m : KvMap) (c : Call) : Outcome × KvMap :=
  match c.op? with
  | some o => m.step 1 o
  | none => (c.refusal, m)

/-- A call on the table of `size` slots without a lock. -/
def tableCall (size : Nat) : Call → Hx Outcome
  | .put k v => do return .code (← putKvHashtable allOk size k v)
  | .get k => do return .value (← deref (← getKvHashtable size k))
  | .delete k => do return .code (← deleteKvHashtable size k)
  | .modify k v => do return .code (← modifyKvHashtable allOk size k v)

/-- A call on the locked table. -/
def Locked.call : Call → Locked.Lx Outcome
  | .put k v => do return .code (← Locked.putKvHashtable allOk k v)
  | .get k => do return .value (← Guarded.inside (deref (← Locked.getKvHashtable k)))
  | .delete k => do return .code (← Locked.deleteKvHashtable k)
  | .modify k v => do return .code (← Locked.kvsHashModify allOk k v)

/-- What `kvstore_hash.c` shows of a call: its outcome, and the count after it. -/
def observed (c : Call) : Hx (Outcome × Int) := do
  let r ← tableCall maxTableSize c
  return (r, ← kvsHashCount)

/-- What `hash.c` shows of a call: its outcome, the count after it, and whether the mutex is
held. -/
def Locked.observed (c : Call) : Locked.Lx ((Outcome × Int) × Bool) := do
  let r ← Locked.call c
  let n ← Locked.kvsHashCount
  return ((r, n), (← get).held)

/-! ## One call -/

section Calls

variable {size i p : Nat} {s : State} {tab : Nat → List Cell} {k v : CStr}

theorem Locked.ok_putKvHashtable (alloc : AllocPlan) (k v : Option CStr)
    (Q : Int → Guarded State → Prop) :
    Ok (Locked.putKvHashtable alloc k v) ⟨s, false⟩ Q ↔
      Ok (Hash.putKvHashtable alloc Locked.maxTableSize k v) s (fun r s' => Q r ⟨s', false⟩) := by
  cases k with
  | none => exact (ok_pure ..).trans (ok_pure (-1) s fun r s' => Q r ⟨s', false⟩).symm
  | some k =>
      cases v with
      | none => exact (ok_pure ..).trans (ok_pure (-1) s fun r s' => Q r ⟨s', false⟩).symm
      | some v =>
          simp only [Locked.putKvHashtable, Hash.putKvHashtable, ok_bind, Guarded.ok_lock,
            Guarded.ok_inside, ok_ite, Guarded.ok_unlock, ok_pure]

theorem Locked.ok_getKvHashtable (k : Option CStr) (Q : Nat → Guarded State → Prop) :
    Ok (Locked.getKvHashtable k) ⟨s, false⟩ Q ↔
      Ok (Hash.getKvHashtable Locked.maxTableSize k) s (fun r s' => Q r ⟨s', false⟩) := by
  cases k with
  | none => exact (ok_pure ..).trans (ok_pure 0 s fun r s' => Q r ⟨s', false⟩).symm
  | some k =>
      simp only [Locked.getKvHashtable, Hash.getKvHashtable, ok_bind, Guarded.ok_lock,
        Guarded.ok_inside, ok_ite, Guarded.ok_unlock, ok_pure]

/-- `p` is the head of the chain that the key is searched in. -/
theorem Locked.ok_deleteKvHashtable (hk : hash (some k) Locked.maxTableSize = i)
    (hi : i < Locked.maxTableSize) (hp : s.desc.nodes i = some p) (Q : Int → Guarded State → Prop) :
    Ok (Locked.deleteKvHashtable (some k)) ⟨s, false⟩ Q ↔
      Ok (Hash.deleteKvHashtable Locked.maxTableSize (some k)) s
        (fun r s' => Q r ⟨s', decide (p = 0)⟩) := by
  by_cases h0 : p = 0
  · simp [Locked.deleteKvHashtable, Hash.deleteKvHashtable, hk, ok_getSlot hi hp, h0]
  · simp only [Locked.deleteKvHashtable, Hash.deleteKvHashtable, hk, ok_bind, Guarded.ok_lock,
      Guarded.ok_inside, ok_getSlot hi hp, ok_ite, Guarded.ok_unlock, ok_pure, h0, if_false,
      decide_false]

/-- A call on the table without a lock does what the abstract store does. -/
theorem Holds.ok_tableCall (h : Holds size s tab) (c : Call)
    (hr : ∀ k, c.key = some k → InRange size k) :
    Ok (tableCall size c) s (fun r s' =>
      (r, contents size s') = mapCall (contents size s) c ∧ ∃ tab', Holds size s' tab') := by
  -- a call with a `NULL` changes nothing, the others are those of the engine
  have hnull : ∀ {d : Hx Outcome} {r : Outcome}, d.run s = .ok (r, s) →
      Ok d s (fun r' s' => (r', contents size s') = (r, contents size s) ∧
        ∃ tab', Holds size s' tab') :=
    fun hd => (ok_of_run hd _).mpr ⟨rfl, tab, h⟩
  have hop : ∀ o : Op, InRange size o.key → Ok (callOn allOk size o) s (fun r s' =>
      (r, contents size s') = KvMap.step 1 (contents size s) o ∧ ∃ tab', Holds size s' tab') :=
    fun o ho => h.ok_callOn ho (supplied_allOk _ _)
  match c with
  | .put none _ => exact hnull rfl
  | .put (some k) none => exact hnull rfl
  | .put (some k) (some v) => exact hop (.set k v) (hr k rfl)
  | .get none => exact hnull rfl
  | .get (some k) => exact hop (.get k) (hr k rfl)
  | .delete none => exact hnull rfl
  | .delete (some k) => exact hop (.delete k) (hr k rfl)
  | .modify none _ => exact hnull rfl
  | .modify (some k) none => exact hnull rfl
  | .modify (some k) (some v) => exact hop (.modify k v) (hr k rfl)

/-- The call gives the mutex back: it is not a `delete` of a key whose slot is empty. -/
def Releases (m : KvMap) : Call → Prop
  | .delete (some k) =>
      ∃ k' ∈ m, hash (some k') Locked.maxTableSize = hash (some k) Locked.maxTableSize
  | _ => True

/-- The head of a chain is `NULL` exactly if no stored key belongs there. -/
theorem Holds.head_ne_zero_iff (h : Holds size s tab) (hi : i < size)
    (hp : s.desc.nodes i = some p) : p ≠ 0 ↔ ∃ k ∈ contents size s, hash (some k) size = i := by
  obtain ⟨p', hp', hchain⟩ := h.chain i hi
  obtain rfl : p = p' := Option.some_injective _ (hp.symm.trans hp')
  constructor
  · intro h0
    cases hL : tab i with
    | nil =>
        rw [hL] at hchain
        exact absurd hchain h0
    | cons c L =>
        have hc : c ∈ tab i := hL ▸ List.mem_cons_self
        exact ⟨c.key, h.mem_contents.mpr (List.mem_map_of_mem (mem_joined.mpr ⟨i, hi, hc⟩)),
          h.slot i hi c hc⟩
  · rintro ⟨k, hk, hslot⟩ rfl
    -- the cell of the key is in the chain of its slot, which is this one
    obtain ⟨c, hc, rfl⟩ := List.mem_map.mp (h.mem_contents.mp hk)
    obtain ⟨j, hj, hcj⟩ := mem_joined.mp hc
    have hij : j = i := by
      have := h.slot j hj c hcj
      omega
    subst hij
    cases hL : tab j with
    | nil =>
        rw [hL] at hcj
        cases hcj
    | cons d L =>
        rw [hL] at hchain
        exact hchain.2.1 hchain.1.symm

/-- **One call** of the locked table that finds the mutex free. -/
theorem Holds.ok_lockedCall (h : Holds Locked.maxTableSize s tab) (c : Call)
    (hr : ∀ k, c.key = some k → InRange Locked.maxTableSize k) :
    Ok (Locked.call c) ⟨s, false⟩ (fun r g =>
      (r, contents Locked.maxTableSize g.resource) = mapCall (contents Locked.maxTableSize s) c ∧
        (∃ tab', Holds Locked.maxTableSize g.resource tab') ∧
          (g.held = false ↔ Releases (contents Locked.maxTableSize s) c)) := by
  have hplain := h.ok_tableCall c hr
  cases c with
  | put k v =>
      rw [tableCall, ok_bind] at hplain
      rw [Locked.call, ok_bind, Locked.ok_putKvHashtable]
      refine hplain.mono fun r s' hs' => ?_
      rw [ok_pure] at hs' ⊢
      exact ⟨hs'.1, hs'.2, iff_of_true rfl trivial⟩
  | get k =>
      rw [tableCall, ok_bind] at hplain
      rw [Locked.call, ok_bind, Locked.ok_getKvHashtable]
      refine hplain.mono fun q s' hs' => ?_
      rw [ok_bind] at hs' ⊢
      rw [Guarded.ok_inside]
      refine hs'.mono fun r s'' hs'' => ?_
      rw [ok_pure] at hs'' ⊢
      exact ⟨hs''.1, hs''.2, iff_of_true rfl trivial⟩
  | delete k =>
      rw [tableCall, ok_bind] at hplain
      cases k with
      | none => exact (ok_of_run rfl _).mpr ⟨rfl, ⟨tab, h⟩, iff_of_true rfl trivial⟩
      | some k =>
          obtain ⟨i, hi, hk⟩ := (hr k rfl).slot
          -- `p` decides which exit the call takes
          obtain ⟨p, hp, -⟩ := h.chain i hi
          rw [Locked.call, ok_bind, Locked.ok_deleteKvHashtable hk hi hp]
          refine hplain.mono fun r s' hs' => ?_
          rw [ok_pure] at hs' ⊢
          refine ⟨hs'.1, hs'.2, ?_⟩
          rw [Releases, hk, ← h.head_ne_zero_iff hi hp, decide_eq_false_iff_not]
  | modify k v =>
      rw [tableCall, ok_bind] at hplain
      rw [Locked.call, ok_bind, Locked.kvsHashModify, Guarded.ok_inside]
      refine hplain.mono fun r s' hs' => ?_
      rw [ok_pure] at hs' ⊢
      exact ⟨hs'.1, hs'.2, iff_of_true rfl trivial⟩

end Calls

/-! ## Whole runs -/

/-- The sum of the characters of the key is not negative. -/
def Call.SumNonneg (c : Call) : Prop := ∀ k ∈ c.key, 0 ≤ hashSum k.bytes 0

instance (c : Call) : Decidable c.SumNonneg := by
  unfold Call.SumNonneg
  infer_instance

theorem Call.SumNonneg.inRange {c : Call} (h : c.SumNonneg) {size : Nat} (hsize : 0 < size) :
    ∀ k, c.key = some k → InRange size k := fun k hk =>
  ⟨Int.tmod_nonneg _ (h k hk), Int.tmod_lt_of_pos _ (by omega)⟩

/-- **The two tables agree** on a run: all calls return, each shows the same outcome and the same
count in both tables, and after each of them the mutex is free. -/
def Agree (s : State) (g : Guarded State) (cs : List Call) : Prop :=
  ∃ shown s' g', (runAll observed cs).run s = .ok (shown, s') ∧
    (runAll Locked.observed cs).run g = .ok (shown.map (·, false), g')

/-- Both tables hold the map `m`, and the mutex is free. -/
structure Twins (s : State) (g : Guarded State) (m : KvMap) : Prop where
  plain : contents maxTableSize s = m
  holds : ∃ tab, Holds maxTableSize s tab
  guarded : contents Locked.maxTableSize g.resource = m
  holdsGuarded : ∃ tab, Holds Locked.maxTableSize g.resource tab
  free : g.held = false

section Runs

variable {s s' : State} {g g' : Guarded State} {m : KvMap} {c : Call} {cs : List Call}

/-- What the abstract store shows of a call. -/
def mapShows (m : KvMap) (c : Call) : Outcome × Int :=
  ((mapCall m c).1, int32 (mapCall m c).2.keys.card)

theorem Holds.ok_observed {tab : Nat → List Cell} (h : Holds maxTableSize s tab)
    (hm : contents maxTableSize s = m) (hc : c.SumNonneg) :
    Ok (observed c) s (fun shown s' => shown = mapShows m c ∧
      contents maxTableSize s' = (mapCall m c).2 ∧ ∃ tab', Holds maxTableSize s' tab') := by
  subst hm
  rw [observed, ok_bind]
  refine (h.ok_tableCall c (hc.inRange (by decide))).mono ?_
  rintro r s' ⟨hstep, tab', hs'⟩
  rw [ok_bind, hs'.ok_kvsHashCount, ok_pure, mapShows, ← hstep]
  exact ⟨rfl, rfl, tab', hs'⟩

theorem Holds.ok_lockedObserved {tab : Nat → List Cell} (h : Holds Locked.maxTableSize s tab)
    (hm : contents Locked.maxTableSize s = m) (hc : c.SumNonneg) :
    Ok (Locked.observed c) ⟨s, false⟩ (fun shown g => shown = (mapShows m c, g.held) ∧
      contents Locked.maxTableSize g.resource = (mapCall m c).2 ∧
        (∃ tab', Holds Locked.maxTableSize g.resource tab') ∧ (g.held = false ↔ Releases m c)) := by
  subst hm
  rw [Locked.observed, ok_bind]
  refine (h.ok_lockedCall c (hc.inRange (by decide))).mono ?_
  rintro r ⟨s', b⟩ ⟨hstep, ⟨tab', hs'⟩, hb⟩
  rw [ok_bind, Locked.kvsHashCount, Guarded.ok_inside, hs'.ok_kvsHashCount, ok_bind,
    Lib.ok_get, ok_pure, mapShows, ← hstep]
  exact ⟨rfl, rfl, ⟨tab', hs'⟩, hb⟩

/-- **One call** shows the same in both tables; they stay twins if it gives the mutex back. -/
theorem Twins.observed (h : Twins s g m) (hc : c.SumNonneg) :
    ∃ s' g', (Hash.observed c).run s = .ok (mapShows m c, s') ∧
      (Locked.observed c).run g = .ok ((mapShows m c, g'.held), g') ∧
        (g'.held = false ↔ Releases m c) ∧ (g'.held = false → Twins s' g' (mapCall m c).2) := by
  obtain ⟨hplain, ⟨tab, hs⟩, hguarded, ⟨tabg, hg⟩, hfree⟩ := h
  obtain ⟨sg, b⟩ := g
  obtain rfl : b = false := hfree
  obtain ⟨_, s', hrun, rfl, hm, hs'⟩ := hs.ok_observed hplain hc
  obtain ⟨_, g', hrun', rfl, hm', hg', hheld⟩ := hg.ok_lockedObserved hguarded hc
  exact ⟨s', g', hrun, hrun', hheld, fun hfree => ⟨hm, hs', hm', hg', hfree⟩⟩

theorem agree_nil (s : State) (g : Guarded State) : Agree s g [] := ⟨[], s, g, rfl, rfl⟩

theorem agree_cons {shown : Outcome × Int} (hs : (observed c).run s = .ok (shown, s'))
    (hg : (Locked.observed c).run g = .ok ((shown, g'.held), g')) :
    Agree s g (c :: cs) ↔ g'.held = false ∧ Agree s' g' cs := by
  constructor
  · -- the first call of both runs is known, and so is what it shows
    rintro ⟨all, s₂, g₂, hrun, hrun'⟩
    obtain ⟨_, _, rest, ho, hrest, rfl⟩ := runAll_cons_ok.mp hrun
    obtain ⟨_, _, rest', ho', hrest', heq⟩ := runAll_cons_ok.mp hrun'
    rw [hs] at ho
    rw [hg] at ho'
    cases ho
    cases ho'
    rw [List.map_cons, List.cons.injEq, Prod.mk.injEq] at heq
    obtain ⟨⟨-, hheld⟩, rfl⟩ := heq
    exact ⟨hheld.symm, rest, s₂, g₂, hrest, hrest'⟩
  · rintro ⟨hheld, rest, s₂, g₂, hrest, hrest'⟩
    rw [hheld] at hg
    exact ⟨shown :: rest, s₂, g₂, runAll_cons_ok.mpr ⟨_, _, _, hs, hrest, rfl⟩,
      runAll_cons_ok.mpr ⟨_, _, _, hg, hrest', rfl⟩⟩

/-- **A run** from twin tables. -/
theorem Twins.agree_iff (h : Twins s g m) (hkeys : ∀ c ∈ cs, c.SumNonneg) :
    Agree s g cs ↔ Allowed mapCall Releases m cs := by
  induction cs generalizing s g m with
  | nil => exact iff_of_true (agree_nil s g) trivial
  | cons c cs ih =>
      obtain ⟨s', g', hs, hg, hheld, htwins⟩ := h.observed (hkeys c (by simp))
      -- a call that keeps the mutex ends the agreement, any other leaves twins behind
      rw [agree_cons hs hg, Allowed, ← hheld]
      exact and_congr_right fun hfree =>
        ih (htwins hfree) fun c' hc' => hkeys c' (List.mem_cons_of_mem _ hc')

theorem NullTable.twins (hs : NullTable maxTableSize s)
    (hg : NullTable Locked.maxTableSize g.resource) (hfree : g.held = false) : Twins s g ∅ :=
  ⟨hs.contents, ⟨_, hs.holds⟩, hg.contents, ⟨_, hg.holds⟩, hfree⟩

end Runs

/-- **When the lock makes no difference.** Both tables start with `NULL` slots, and the mutex is
free. On calls whose keys have no negative sum they agree exactly when no `delete` of the run names
a key whose slot among the `1024` is empty. -/
theorem tables_agree_iff (s : State) (g : Guarded State) (hs : NullTable maxTableSize s)
    (hg : NullTable Locked.maxTableSize g.resource) (hfree : g.held = false) (cs : List Call)
    (hkeys : ∀ c ∈ cs, c.SumNonneg) : Agree s g cs ↔ Allowed mapCall Releases ∅ cs :=
  (hs.twins hg hfree).agree_iff hkeys

/-- A table whose `1024` slots have been set to `NULL`, in a memory without blocks. -/
def Locked.nulled : Guarded State :=
  ⟨⟨fun _ => none, fun _ => none, 1, ⟨fun _ => some 0, Locked.maxTableSize, 0⟩⟩, false⟩

theorem Locked.nullTable_nulled : NullTable Locked.maxTableSize Locked.nulled.resource :=
  ⟨fun _ _ => rfl, rfl, ⟨Nat.one_pos, nofun, nofun, nofun⟩⟩

/-- A key is missed in the chain of another one, which is then deleted. -/
theorem tables_agree_chain :
    Agree nulled Locked.nulled [.put (some (CStr.lit "ab")) (some (CStr.lit "1")),
      .delete (some (CStr.lit "ba")), .modify (some (CStr.lit "ab")) (some (CStr.lit "2")),
        .delete (some (CStr.lit "ab")), .get none] := by
  refine (tables_agree_iff nulled Locked.nulled nullTable_nulled Locked.nullTable_nulled
    rfl _ ?_).mpr
    ⟨trivial, ⟨CStr.lit "ab", by decide, by decide⟩, trivial, ⟨CStr.lit "ab", by decide, by decide⟩,
      trivial, trivial⟩
  decide

/-- A key is deleted that was never stored: the mutex stays held, and the next call does not
return. -/
theorem empty_slot_keeps_lock :
    ¬Agree nulled Locked.nulled [.delete (some (CStr.lit "k"))] ∧
      (runAll Locked.call [.delete (some (CStr.lit "k")), .get (some (CStr.lit "k"))]).run
        Locked.nulled = .error .blocked := by
  have htwins := nullTable_nulled.twins Locked.nullTable_nulled rfl
  refine ⟨?_, rfl⟩
  rw [htwins.agree_iff (by decide)]
  rintro ⟨⟨k, hk, -⟩, -⟩
  exact Finmap.notMem_empty hk

end KvStore.Hash
