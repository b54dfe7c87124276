import KvStore.Engines

set_option autoImplicit false

/-! # Calls that run out of memory

A call of an engine makes up to three allocations. What it does when one of them fails is written by
hand in every function: the `set` of the array and of the tree give back what they have got, the
other functions have freed the old value already, or do not look at the result of the allocation.

`failed_allocation_iff` says which calls leave the engine as it was.
-/

namespace KvStore

open KvStore.Lib

/-! ## Which allocations a call makes -/

/-- The allocations that the call makes succeed: a `set` copies both strings unless the table is
full, a `modify` copies the value if it finds the key. -/
def Array.Supplied (alloc : AllocPlan) (s : ArrayT) : Op → Prop
  | .set _ _ => s.arrayIdx ≠ kvsArraySize → alloc 0 = true ∧ alloc 1 = true
  | .get _ => True
  | .delete _ => True
  | .modify k _ => (∃ i, Finds s k i) → alloc 0 = true

/-- The allocations that the call makes succeed: a `set` always makes a node with two strings, a
`modify` copies the value if it finds the key. -/
def Rbtree.Supplied (alloc : AllocPlan) (s : State) : Op → Prop
  | .set _ _ => alloc 0 = true ∧ alloc 1 = true ∧ alloc 2 = true
  | .get _ => True
  | .delete _ => True
  | .modify k _ => k ∈ contents s → alloc 0 = true

/-- The call returns a code other than `0`, and afterwards every get and the count are what they
were before. -/
def Unharmed {σ : Type} (call : AllocPlan → Op → Exec σ Outcome) (count : Exec σ Int)
    (alloc : AllocPlan) (s : σ) (o : Op) : Prop :=
  Ok (call alloc o) s fun out s' => (∃ r, out = .code r ∧ r ≠ 0) ∧
    (∀ k,
      ((call alloc (.get k)).run s').map Prod.fst = ((call alloc (.get k)).run s).map Prod.fst) ∧
      (count.run s').map Prod.fst = (count.run s).map Prod.fst

/-- Code after which the state is the same has done no harm. -/
theorem unharmed_of_run {σ : Type} {call : AllocPlan → Op → Exec σ Outcome} {count : Exec σ Int}
    {alloc : AllocPlan} {s : σ} {o : Op} {r : Int} (hr : r ≠ 0)
    (h : (call alloc o).run s = .ok (.code r, s)) : Unharmed call count alloc s o :=
  ⟨.code r, s, h, ⟨r, rfl, hr⟩, fun _ => rfl, rfl⟩

/-- A call that goes wrong has done harm. -/
theorem not_unharmed_of_error {σ : Type} {call : AllocPlan → Op → Exec σ Outcome}
    {count : Exec σ Int} {alloc : AllocPlan} {s : σ} {o : Op} {e : Fault}
    (h : (call alloc o).run s = .error e) : ¬Unharmed call count alloc s o := by
  rintro ⟨out, s', hrun, -⟩
  rw [h] at hrun
  cases hrun

/-! ## The array -/

namespace Array

variable {alloc : AllocPlan} {s : ArrayT} {o : Op}

/-- A `set` that runs out of memory changes nothing, a `modify` writes through `NULL`. -/
theorem unharmed_iff (hs : Inv s) (h : ¬Supplied alloc s o) :
    Unharmed opCall kvsArrayCount alloc s o ↔ ∃ k v, o = .set k v := by
  cases o with
  | get k => exact absurd trivial h
  | delete k => exact absurd trivial h
  | set k v =>
      have hfail : ¬(alloc 0 = true ∧ alloc 1 = true) := fun ha => h fun _ => ha
      have hrun : (opCall alloc (.set k v)).run s = .ok (.code (-1), s) :=
        packed_run .code (kvsArraySet_failed hfail k v)
      exact iff_of_true (unharmed_of_run (by decide) hrun) ⟨k, v, rfl⟩
  | modify k v =>
      rw [Supplied, Classical.not_imp] at h
      obtain ⟨⟨i, hi⟩, ha⟩ := h
      have hrun : (opCall alloc (.modify k v)).run s = .error .nullDeref :=
        run_bind_error (kvsArrayModify_of_finds_failed hs.le hi (by simpa using ha))
      refine iff_of_false (not_unharmed_of_error hrun) ?_
      rintro ⟨k', v', heq⟩
      cases heq

end Array

/-! ## The tree -/

namespace Rbtree

variable {alloc : AllocPlan} {s s' : State} {T T' : RBTree Nat} {es es' : List Entry} {o : Op}

theorem kvsRbtreeCount_run (s : State) : kvsRbtreeCount.run s = .ok (s.desc.count, s) := rfl

/-- A get returns the value of the key, if it has one. -/
theorem Holds.get_run (h : Holds s T es) (alloc : AllocPlan) (k : CStr) :
    ∃ x, (call alloc (.get k)).run s = .ok (.value x, s) ∧ ∀ v, x = some v ↔ HasValue s k v := by
  obtain ⟨out, s', hrun, rfl, x, rfl, hx⟩ := h.ok_getCall alloc k
  exact ⟨x, hrun, fun v => (hx v).trans h.hasValue_iff.symm⟩

/-- Two trees answer a get in the same way exactly when the key has the same value in both. -/
theorem Holds.get_eq_iff (h : Holds s T es) (h' : Holds s' T' es') (alloc : AllocPlan) (k : CStr) :
    ((call alloc (.get k)).run s').map Prod.fst = ((call alloc (.get k)).run s).map Prod.fst ↔
      ∀ v, HasValue s' k v ↔ HasValue s k v := by
  obtain ⟨x, hrun, hx⟩ := h.get_run alloc k
  obtain ⟨x', hrun', hx'⟩ := h'.get_run alloc k
  rw [hrun, hrun']
  constructor
  · intro heq v
    have hxx : x' = x := Outcome.value.inj (Except.ok.inj heq)
    rw [← hx', ← hx, hxx]
  · intro hsame
    have hxx : x' = x := Option.ext fun v => (hx' v).trans ((hsame v).trans (hx v).symm)
    rw [hxx]
    rfl

theorem unharmed_set (hs : Holds s T es) (k v : CStr) (h : ¬Supplied alloc s (.set k v)) :
    Unharmed call kvsRbtreeCount alloc s (.set k v) := by
  rw [Unharmed, call, ok_bind]
  refine ok_kvsRbtreeSet_failed hs.wf h fun s' hgrows hwf => (ok_pure ..).mpr ?_
  have hs' := hs.grows hgrows hwf
  refine ⟨⟨-1, rfl, by decide⟩, fun k' => ?_, ?_⟩
  · rw [hs.get_eq_iff hs']
    intro v'
    rw [hs'.hasValue_iff, hs.hasValue_iff]
  · rw [kvsRbtreeCount_run, kvsRbtreeCount_run, hgrows.desc]
    rfl

/-- A `modify` that runs out of memory has freed the old value. -/
theorem unharmed_modify_iff (hs : Holds s T es) (k v : CStr) (h : ¬Supplied alloc s (.modify k v)) :
    Unharmed call kvsRbtreeCount alloc s (.modify k v) ↔ ∀ v', ¬HasValue s k v' := by
  rw [Supplied, Classical.not_imp] at h
  obtain ⟨hk, ha⟩ := h
  -- the entry of the key, before and after
  have hcall : Ok (call alloc (.modify k v)) s (fun out s' => out = .code (-1) ∧
      s'.desc = s.desc ∧ ∃ E₁ e e' E₂, es = E₁ ++ e :: E₂ ∧ e.key = k ∧ e'.key = k ∧
        e'.valuePtr = 0 ∧ Holds s' T (E₁ ++ e' :: E₂)) := by
    rw [call, ok_bind]
    refine ok_kvsRbtreeModify hs alloc k v (fun s' E₁ e e' E₂ ha' _ _ _ _ _ _ _ _ => absurd ha' ha)
      (fun s' E₁ e e' E₂ _ hE hek hek' h0 hs' hdesc _ => ?_)
      (fun habs => absurd (hs.mem_contents.mp hk) habs)
    exact (ok_pure ..).mpr ⟨rfl, hdesc, E₁, e, e', E₂, hE, hek, hek', h0, hs'⟩
  obtain ⟨out, s', hrun, rfl, hdesc, E₁, e, e', E₂, rfl, rfl, hek', h0, hs'⟩ := hcall
  -- the other keys keep their values, the key has none
  have hgone : ∀ v', ¬HasValue s' e.key v' := by
    intro v' hv'
    obtain ⟨e₁, he₁, hkey, hne, -⟩ := hs'.hasValue_iff.mp hv'
    have heq : e₁ = e' :=
      List.inj_on_of_nodup_map hs'.keys_nodup he₁ (by simp) (hkey.trans hek'.symm)
    exact hne (heq ▸ h0)
  have hkeep : ∀ k' v', k' ≠ e.key → (HasValue s' k' v' ↔ HasValue s k' v') := by
    intro k' v' hne
    rw [hs'.hasValue_iff, hs.hasValue_iff]
    refine exists_congr fun e₁ => and_congr_left fun hkey => ?_
    have hne₁ : e₁ ≠ e := fun heq => hne (by rw [← hkey.1, heq])
    have hne₂ : e₁ ≠ e' := fun heq => hne (by rw [← hkey.1, heq, hek'])
    simp [hne₁, hne₂]
  rw [Unharmed, ok_of_run hrun]
  constructor
  · rintro ⟨-, hget, -⟩ v' hv'
    exact hgone v' (((hs.get_eq_iff hs' alloc e.key).mp (hget e.key) v').mpr hv')
  · intro hnone
    refine ⟨⟨-1, rfl, by decide⟩, fun k' => (hs.get_eq_iff hs' alloc k').mpr fun v' => ?_, ?_⟩
    · by_cases hk' : k' = e.key
      · rw [hk']
        exact iff_of_false (hgone v') (hnone v')
      · exact hkeep k' v' hk'
    · rw [kvsRbtreeCount_run, kvsRbtreeCount_run, hdesc]
      rfl

end Rbtree

/-! ## All engines -/

/-- **Which calls survive a failed allocation.** In every reachable state of an engine, a call in
which an allocation fails returns an error and leaves all gets and the count as they were

* in the array: exactly when it is a `set`;
* in the tree: exactly when it is a `set`, or a `modify` of a key that has no value;
* in the hash table: never. -/
theorem failed_allocation_iff (alloc : AllocPlan) (o : Op) :
    (∀ s : Array.ArrayT, Array.Reachable s → ¬Array.Supplied alloc s o →
      (Unharmed Array.opCall Array.kvsArrayCount alloc s o ↔ ∃ k v, o = .set k v)) ∧
    (∀ s : Rbtree.State, Rbtree.Reachable s → ¬Rbtree.Supplied alloc s o →
      (Unharmed Rbtree.call Rbtree.kvsRbtreeCount alloc s o ↔
        (∃ k v, o = .set k v) ∨ ∀ v, ¬Rbtree.HasValue s o.key v)) ∧
    (∀ s : Hash.State, Hash.Reachable s →
      ¬Hash.Supplied alloc (Hash.contents Hash.maxTableSize s) o →
        ¬Unharmed Hash.call Hash.kvsHashCount alloc s o) := by
  refine ⟨?_, ?_, ?_⟩
  · intro s hs hfail
    exact Array.unharmed_iff hs.inv hfail
  · intro s hs hfail
    obtain ⟨T, es, hholds⟩ := hs.holds
    cases o with
    | get k => exact absurd trivial hfail
    | delete k => exact absurd trivial hfail
    | set k v => exact iff_of_true (Rbtree.unharmed_set hholds k v hfail) (Or.inl ⟨k, v, rfl⟩)
    | modify k v =>
        rw [Rbtree.unharmed_modify_iff hholds k v hfail, or_iff_right]
        · exact Iff.rfl
        · rintro ⟨k', v', heq⟩
          cases heq
  · rintro s hs hfail ⟨out, s', hrun, -⟩
    obtain ⟨tab, hholds⟩ := hs.holds
    exact hfail (hholds.supplied_of_run hrun)

/-- No allocation succeeds. -/
def noMemory : AllocPlan := fun _ => false

/-- A tree with one entry. -/
def oneEntry : Rbtree.State := Rbtree.afterCalls [(allOk, .set (CStr.lit "a") (CStr.lit "1"))]

/-- A `set` in an array and in a tree that have entries, without memory. -/
theorem failed_set_unharmed :
    (Array.opCall noMemory (.get (CStr.lit "a"))).run Array.twoEntries
        = .ok (.value (some (CStr.lit "1")), Array.twoEntries) ∧
      Unharmed Array.opCall Array.kvsArrayCount noMemory Array.twoEntries
        (.set (CStr.lit "k") (CStr.lit "v")) ∧
      ((Rbtree.call noMemory (.get (CStr.lit "a"))).run oneEntry).toOption.map Prod.fst
        = some (.value (some (CStr.lit "1"))) ∧
      Unharmed Rbtree.call Rbtree.kvsRbtreeCount noMemory oneEntry
        (.set (CStr.lit "k") (CStr.lit "v")) := by
  have harray : ¬Array.Supplied noMemory Array.twoEntries (.set (CStr.lit "k") (CStr.lit "v")) :=
    fun h => absurd (h (by decide)).1 (by decide)
  have htree : ¬Rbtree.Supplied noMemory oneEntry (.set (CStr.lit "k") (CStr.lit "v")) :=
    fun h => absurd h.1 (by decide)
  obtain ⟨h₁, h₂, -⟩ := failed_allocation_iff noMemory (.set (CStr.lit "k") (CStr.lit "v"))
  exact ⟨rfl, (h₁ _ Array.reachable_twoEntries harray).mpr ⟨_, _, rfl⟩, by decide +kernel,
    (h₂ _ (Rbtree.reachable_afterCalls _) htree).mpr (Or.inl ⟨_, _, rfl⟩)⟩

/-- The hash table writes the link of the node that was not made. -/
theorem failed_hash_set_faults :
    Hash.Reachable Hash.nulled ∧
      (Hash.call noMemory (.set (CStr.lit "k") (CStr.lit "v"))).run Hash.nulled
        = .error .nullDeref :=
  ⟨⟨_, Hash.nullTable_nulled, Reach.refl ..⟩, rfl⟩

end KvStore
