import KvStore.Lib.FiniteMap
import KvStore.Lib.Memory

set_option autoImplicit false

/-! # What a key-value engine is for

The abstract store is a finite map from keys to values with four operations. `KvMap.step` says what
each of them returns and how it changes the map; the engines differ in the code `dup` that a `set`
of a key returns which is there already (the map is unchanged then).
-/

namespace KvStore

open KvStore.Lib

/-- A finite map from keys to values. -/
abbrev KvMap := Finmap (fun _ : CStr => CStr)

/-- A call of an engine, with arguments other than `NULL`. -/
inductive Op where
  | set (key value : CStr)
  | get (key : CStr)
  | delete (key : CStr)
  | modify (key value : CStr)
  deriving DecidableEq

/-- The key a call is about. -/
def Op.key : Op → CStr
  | .set k _ => k
  | .get k => k
  | .delete k => k
  | .modify k _ => k

/-- What a call returns: a code, or a string (`none` is `NULL`). -/
inductive Outcome where
  | code (r : Int)
  | value (v : Option CStr)
  deriving DecidableEq

/-- One operation of the abstract store. -/
def KvMap.step (dup : Int) (m : KvMap) : Op → Outcome × KvMap
  | .set k v => if k ∈ m then (.code dup, m) else (.code 0, m.insert k v)
  | .get k => (.value (m.lookup k), m)
  | .delete k => if k ∈ m then (.code 0, m.erase k) else (.code (-1), m)
  | .modify k v => if k ∈ m then (.code 0, m.insert k v) else (.code (-1), m)

variable {m : KvMap} {o : Op}

section Step

variable {m m' : KvMap} {k v : CStr} {r dup : Int}

theorem KvMap.eq_step_set (h : if k ∈ m then r = dup ∧ m' = m else r = 0 ∧ m' = m.insert k v) :
    (Outcome.code r, m') = m.step dup (.set k v) := by
  by_cases hk : k ∈ m <;> simpa [KvMap.step, hk] using h

theorem KvMap.eq_step_delete (h : if k ∈ m then r = 0 ∧ m' = m.erase k else r = -1 ∧ m' = m) :
    (Outcome.code r, m') = m.step dup (.delete k) := by
  by_cases hk : k ∈ m <;> simpa [KvMap.step, hk] using h

theorem KvMap.eq_step_modify (h : if k ∈ m then r = 0 ∧ m' = m.insert k v else r = -1 ∧ m' = m) :
    (Outcome.code r, m') = m.step dup (.modify k v) := by
  by_cases hk : k ∈ m <;> simpa [KvMap.step, hk] using h

/-- Every operation but a get returns a code. -/
theorem KvMap.step_code (m : KvMap) (dup : Int) (h : ∀ k, o ≠ .get k) :
    ∃ r, (m.step dup o).1 = .code r := by
  cases o with
  | get k => exact absurd rfl (h k)
  | set k v =>
      rw [KvMap.step]
      split_ifs <;> exact ⟨_, rfl⟩
  | delete k =>
      rw [KvMap.step]
      split_ifs <;> exact ⟨_, rfl⟩
  | modify k v =>
      rw [KvMap.step]
      split_ifs <;> exact ⟨_, rfl⟩

end Step

/-- The operation does not set a key that is there already. -/
def KvMap.Fresh (m : KvMap) : Op → Prop
  | .set k _ => k ∉ m
  | _ => True

instance (m : KvMap) (o : Op) : Decidable (m.Fresh o) := by
  cases o <;> unfold KvMap.Fresh <;> infer_instance

/-- How many operations of the run set a key that is there already. -/
def KvMap.repeats (dup : Int) : KvMap → List Op → Nat
  | _, [] => 0
  | m, o :: ops => (if m.Fresh o then 0 else 1) + repeats dup (m.step dup o).2 ops

/-- Without such an operation the code `dup` does not matter. -/
theorem KvMap.step_fresh (h : m.Fresh o) (dup dup' : Int) : m.step dup o = m.step dup' o := by
  cases o with
  | set k v =>
      have hk : k ∉ m := h
      simp [KvMap.step, hk]
  | get k => rfl
  | delete k => rfl
  | modify k v => rfl

/-! ## Counting the keys -/

/-- The operation sets no key that is there already, and leaves no more keys than an `int`
counts. -/
def KvMap.Countable (m : KvMap) : Op → Prop
  | .set k _ => k ∉ m ∧ m.keys.card + 1 < 2 ^ 31
  | _ => True

/-- Of all operations only a set of a new key adds one. -/
theorem KvMap.card_step_lt (dup : Int) (hm : m.keys.card < 2 ^ 31)
    (h : m.Countable o) : (m.step dup o).2.keys.card < 2 ^ 31 := by
  cases o with
  | get k => exact hm
  | set k v =>
      rw [KvMap.step, if_neg h.1, keys_insert]
      exact lt_of_le_of_lt (Finset.card_insert_le ..) h.2
  | delete k =>
      rw [KvMap.step]
      split_ifs
      · rw [Finmap.keys_erase]
        exact lt_of_le_of_lt (Finset.card_erase_le) hm
      · exact hm
  | modify k v =>
      rw [KvMap.step]
      split_ifs with hk
      · rwa [keys_insert, Finset.insert_eq_self.mpr (Finmap.mem_keys.mpr hk)]
      · exact hm

/-- A counter, an `int`, that also counts the sets of keys that are there is right after the run. -/
def KvMap.CountRight (dup : Int) (m : KvMap) (ops : List Op) : Prop :=
  int32 ((specRun (KvMap.step dup) m ops).2.keys.card + m.repeats dup ops)
    = (specRun (KvMap.step dup) m ops).2.keys.card

theorem KvMap.countRight_nil (dup : Int) (hm : m.keys.card < 2 ^ 31) : m.CountRight dup [] := by
  rw [KvMap.CountRight, KvMap.repeats, Nat.cast_zero, add_zero, int32_natCast_iff]
  exact hm

theorem KvMap.countRight_cons {dup : Int} (h : m.Fresh o) (ops : List Op) :
    m.CountRight dup (o :: ops) ↔ (m.step dup o).2.CountRight dup ops := by
  rw [KvMap.CountRight, KvMap.repeats, if_pos h, zero_add]
  exact Iff.rfl

/-- Such a counter is right after one operation only if the operation is countable. -/
theorem KvMap.CountRight.countable {dup : Int} (h : m.CountRight dup [o]) : m.Countable o := by
  cases o with
  | get k => trivial
  | delete k => trivial
  | modify k v => trivial
  | set k v =>
      by_cases hk : k ∈ m
      · simp only [KvMap.CountRight, KvMap.repeats, KvMap.Fresh, hk, not_true, if_false] at h
        exact absurd h (int32_add_one_ne _)
      · have hfresh : m.Fresh (.set k v) := hk
        rw [KvMap.countRight_cons hfresh, KvMap.CountRight, KvMap.repeats, Nat.cast_zero, add_zero,
          int32_natCast_iff, specRun, KvMap.step, if_neg hk, keys_insert,
          Finset.card_insert_of_notMem (mt Finmap.mem_keys.mp hk)] at h
        exact ⟨hk, h⟩

theorem KvMap.Countable.fresh (h : m.Countable o) : m.Fresh o := by
  cases o with
  | set k v => exact h.1
  | get k => trivial
  | delete k => trivial
  | modify k v => trivial

/-- **When the counter is right all along**: exactly if every operation is countable. -/
theorem KvMap.countRight_iff (dup : Int) (hm : m.keys.card < 2 ^ 31) (ops : List Op) :
    (∀ ops', ops' <+: ops → m.CountRight dup ops') ↔
      Allowed (KvMap.step dup) KvMap.Countable m ops := by
  induction ops generalizing m with
  | nil =>
      refine iff_of_true (fun ops' hops' => ?_) trivial
      rw [List.prefix_nil.mp hops']
      exact KvMap.countRight_nil dup hm
  | cons o ops ih =>
      rw [Allowed]
      constructor
      · intro h
        have ho : m.Countable o := (h [o] (by simp)).countable
        refine ⟨ho, (ih (KvMap.card_step_lt dup hm ho)).mp fun ops' hops' => ?_⟩
        exact (KvMap.countRight_cons ho.fresh ops').mp
          (h _ (List.cons_prefix_cons.mpr ⟨rfl, hops'⟩))
      · rintro ⟨ho, hops⟩ ops' hops'
        rcases List.prefix_cons_iff.mp hops' with rfl | ⟨ops'', rfl, hops''⟩
        · exact KvMap.countRight_nil dup hm
        · exact (KvMap.countRight_cons ho.fresh ops'').mpr
            ((ih (KvMap.card_step_lt dup hm ho)).mpr hops ops'' hops'')

/-- Sets of different keys that are not there add as many. -/
theorem KvMap.card_sets (dup : Int) {ks : List CStr} (v : CStr) (hks : ks.Nodup)
    (hm : ∀ k ∈ ks, k ∉ m) :
    (specRun (KvMap.step dup) m (ks.map (.set · v))).2.keys.card = m.keys.card + ks.length := by
  induction ks generalizing m with
  | nil => rfl
  | cons k ks ih =>
      rw [List.nodup_cons] at hks
      have hk : k ∉ m := hm k (by simp)
      rw [List.map_cons, specRun, KvMap.step, if_neg hk, ih hks.2, keys_insert,
        Finset.card_insert_of_notMem (mt Finmap.mem_keys.mp hk), List.length_cons]
      · omega
      · intro k' hk'
        rw [Finmap.mem_insert, not_or]
        exact ⟨fun heq => hks.1 (heq ▸ hk'), hm k' (List.mem_cons_of_mem _ hk')⟩

/-! ## Returned values -/

section Deref

variable {β γ : Type}

/-- What a client sees of the pointer to a value that an engine returned. -/
def deref (p : Nat) : Exec (Store β γ) (Option CStr) := do
  if p = 0 then
    return none
  else
    return some (← readStr p)

theorem ok_deref {k : CStr} {p : Nat} {s : Store β γ} (hp : p = 0 ↔ k ∉ m)
    (hv : ∀ v, m.lookup k = some v → s.cstr p = some v) (Q : Option CStr → Store β γ → Prop) :
    Ok (deref p) s Q ↔ Q (m.lookup k) s := by
  rw [deref]
  cases hl : m.lookup k with
  | none => rw [if_pos (hp.mpr (Finmap.lookup_eq_none.mp hl)), ok_pure]
  | some v =>
      have hne : p ≠ 0 := fun h0 => hp.mp h0 (Finmap.mem_of_lookup_eq_some hl)
      rw [if_neg hne, ok_bind, ok_readStr (hv v hl), ok_pure]

end Deref

end KvStore
