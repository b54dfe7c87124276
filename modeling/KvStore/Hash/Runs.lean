import KvStore.Hash.Table
import KvStore.Spec

set_option autoImplicit false

/-! # Runs of the hash engine

A client calls the functions of the interface on a table whose slots are all `NULL`, in any order
and with any keys whose `_hash` index is a slot. Every call keeps the invariant `Holds` and does to
the stored bindings what the abstract store does (`ok_step`), so the same is true of every run
(`run_refinesMap`).
-/

namespace KvStore.Hash

open KvStore.Lib

/-! ## The client -/

/-- A call, and what the client sees of it: it reads the string that `kvs_hash_get` returns. -/
def call (alloc : AllocPlan) : Op → Hx Outcome
  | .set k v => do return .code (← kvsHashSet alloc (some k) (some v))
  | .get k => do return .value (← deref (← kvsHashGet (some k)))
  | .delete k => do return .code (← kvsHashDelete (some k))
  | .modify k v => do return .code (← kvsHashModify alloc (some k) (some v))

/-- A call whose allocations succeed. -/
def step (o : Op) : Hx Outcome := call allOk o

/-- The same on a table of `size` slots. -/
def callOn (alloc : AllocPlan) (size : Nat) : Op → Hx Outcome
  | .set k v => do return .code (← putKvHashtable alloc size (some k) (some v))
  | .get k => do return .value (← deref (← getKvHashtable size (some k)))
  | .delete k => do return .code (← deleteKvHashtable size (some k))
  | .modify k v => do return .code (← modifyKvHashtable alloc size (some k) (some v))

theorem call_eq_callOn (alloc : AllocPlan) (o : Op) :
    call alloc o = callOn alloc maxTableSize o := by
  cases o <;> rfl

/-- The `_hash` index of the key is a slot of the table. -/
def InRange (size : Nat) (k : CStr) : Prop := 0 ≤ hash (some k) size ∧ hash (some k) size < size

instance (size : Nat) (k : CStr) : Decidable (InRange size k) := by
  unfold InRange
  infer_instance

variable {alloc : AllocPlan} {size : Nat} {s : State} {o : Op}

theorem InRange.slot {k : CStr} (h : InRange size k) : ∃ i < size, hash (some k) size = i := by
  obtain ⟨hnonneg, hlt⟩ := h
  exact ⟨(hash (some k) size).toNat, by omega, by omega⟩

/-- The sum of characters up to `127` stays an `int` without wrapping around. -/
theorem hashSum_nonneg {bs : List UInt8} {sum : Int} (hbs : ∀ b ∈ bs, b < 128) (h0 : 0 ≤ sum)
    (hlt : sum + 127 * bs.length < 2147483648) : 0 ≤ hashSum bs sum := by
  induction bs generalizing sum with
  | nil => exact h0
  | cons b bs ih =>
      rw [List.length_cons] at hlt
      have hb : b.toNat < 128 := hbs b (by simp)
      have hchar : charValue b = b.toNat := Int.bmod_eq_of_le_mul_two (by omega) (by omega)
      have hsum : (sum + charValue b).bmod 4294967296 = sum + b.toNat := by
        rw [hchar]
        exact Int.bmod_eq_of_le_mul_two (by omega) (by omega)
      rw [hashSum, hsum]
      exact ih (fun b' hb' => hbs b' (List.mem_cons_of_mem _ hb')) (by omega)
        (by push_cast at hlt; omega)

/-- Keys of bytes up to `127` are in range, unless they are so long that the sum overflows. -/
theorem inRange_of_ascii (hsize : 0 < size) {k : CStr} (hk : ∀ b ∈ k.bytes, b < 128)
    (hlen : k.strlen < 2 ^ 24) : InRange size k := by
  have hlen' : k.bytes.length < 2 ^ 24 := hlen
  have hsum : 0 ≤ hashSum k.bytes 0 := hashSum_nonneg hk le_rfl (by omega)
  exact ⟨Int.tmod_nonneg _ hsum, Int.tmod_lt_of_pos _ (by omega)⟩

/-- A table before its first call: every slot is `NULL`. -/
structure NullTable (size : Nat) (s : State) : Prop where
  slots : ∀ i < size, s.desc.nodes i = some 0
  count : s.desc.count = 0
  wf : s.WF

theorem NullTable.holds (h : NullTable size s) :
    Holds size s fun _ => [] where
  chain i hi := ⟨0, h.slots i hi, rfl⟩
  stored c hc := by
    obtain ⟨i, -, hc⟩ := mem_joined.mp hc
    cases hc
  slot i _ c hc := by cases hc
  keys := by simp
  blocks := by simp
  count := by rw [h.count, joined_nil]; rfl
  wf := h.wf

/-! ## What is in the table -/

/-- The string behind a pointer. -/
def strAt (s : State) (p : Option Nat) : CStr := (p.bind s.cstr).getD default

/-- The keys and values of the chain that starts at `p`. -/
def chainPairs (s : State) : Nat → Nat → List (CStr × CStr)
  | 0, _ => []
  | n + 1, p =>
      if p = 0 then []
      else
        (strAt s (keyAt s p), strAt s (valueAt s p)) :: chainPairs s n ((nextAt s p).getD 0)

/-- **The finite map that a table in memory stands for.** Irreducible, so that nothing tries to walk
the `MAX_TABLE_SIZE` slots to decide whether a key is in it. -/
@[irreducible] def contents (size : Nat) (s : State) : KvMap :=
  ofPairs (joined size fun i => chainPairs s s.next ((s.desc.nodes i).getD 0))

section Contents

variable {size i : Nat} {s : State} {tab : Nat → List Cell} {k v : CStr}

theorem chainPairs_eq {n p : Nat} {L : List Cell} (hchain : s.Chain (·.next) p (L.map Cell.node))
    (hst : ∀ c ∈ L, c.Stored s) (hn : L.length ≤ n) : chainPairs s n p = L.map Cell.pair := by
  induction L generalizing n p with
  | nil =>
      have hp : p = 0 := hchain
      cases n <;> simp [chainPairs, hp]
  | cons c L ih =>
      obtain ⟨rfl, hc0, q, hq, hrest⟩ := hchain
      obtain ⟨m, rfl⟩ : ∃ m, n = m + 1 := ⟨n - 1, by rw [List.length_cons] at hn; omega⟩
      have hq' : nextAt s c.node = some q := hq
      have hc := hst c (by simp)
      rw [chainPairs, if_neg hc0, hq', Option.getD_some,
        ih hrest (fun d hd => hst d (List.mem_cons_of_mem _ hd)) (by simpa using hn)]
      simp [strAt, hc.keyPtr, hc.valuePtr, hc.key, hc.value, Cell.pair]

theorem Holds.pairs_nodup (h : Holds size s tab) :
    (((joined size tab).map Cell.pair).map Prod.fst).Nodup := by
  rw [List.map_map]
  exact h.keys

/-- The map of the cells, in any order. -/
theorem Holds.contents_eq (h : Holds size s tab) {L : List Cell} (hL : (joined size tab).Perm L) :
    contents size s = ofPairs (L.map Cell.pair) := by
  rw [← ofPairs_perm (hL.map Cell.pair) h.pairs_nodup, contents, map_joined]
  congr 1
  refine List.flatMap_congr fun i hi => ?_
  have hi' : i < size := List.mem_range.mp hi
  obtain ⟨p, hp, hchain⟩ := h.chain i hi'
  have hlen := hchain.length_le h.wf
  rw [List.length_map] at hlen
  rw [hp, Option.getD_some, chainPairs_eq hchain (h.stored_slot hi') hlen]

theorem Holds.mem_contents (h : Holds size s tab) :
    k ∈ contents size s ↔ k ∈ (joined size tab).map Cell.key := by
  rw [h.contents_eq (List.Perm.refl _), mem_ofPairs, List.map_map]
  exact Iff.rfl

/-- The stored keys are in range. -/
theorem Holds.inRange_of_mem (h : Holds size s tab) (hk : k ∈ contents size s) :
    InRange size k := by
  obtain ⟨c, hc, rfl⟩ := List.mem_map.mp (h.mem_contents.mp hk)
  obtain ⟨i, hi, hci⟩ := mem_joined.mp hc
  have hslot := h.slot i hi c hci
  exact ⟨by omega, by omega⟩

theorem Holds.lookup_contents (h : Holds size s tab) {c : Cell} (hc : c ∈ joined size tab) :
    (contents size s).lookup c.key = some c.value := by
  rw [h.contents_eq (List.Perm.refl _), lookup_ofPairs h.pairs_nodup]
  exact List.mem_map_of_mem (f := Cell.pair) hc

theorem Holds.card_contents (h : Holds size s tab) :
    (contents size s).keys.card = (joined size tab).length := by
  rw [h.contents_eq (List.Perm.refl _), card_keys_ofPairs h.pairs_nodup, List.length_map]

theorem NullTable.contents (h : NullTable size s) : contents size s = ∅ := by
  rw [h.holds.contents_eq (List.Perm.refl _), joined_nil]
  rfl

end Contents

/-! ## One call -/

section Calls

variable {size : Nat} {s : State} {tab : Nat → List Cell} {k v : CStr}

theorem Holds.ok_get (h : Holds size s tab) (hr : InRange size k) :
    Ok (getKvHashtable size (some k)) s (fun p s' => s' = s ∧ (p = 0 ↔ k ∉ contents size s) ∧
      ∀ v, (contents size s).lookup k = some v → s.cstr p = some v) := by
  obtain ⟨i, hi, hk⟩ := hr.slot
  refine ok_getKvHashtable h hk hi (fun c hc hck => ?_) (fun habs => ?_)
  · subst hck
    have hv := (h.stored c hc).value
    have hpos := h.wf.str_bound _ (Store.live_of_cstr hv)
    refine ⟨rfl, ⟨fun h0 => by omega, fun habs => ?_⟩, fun v hl => ?_⟩
    · exact absurd (h.mem_contents.mpr (List.mem_map_of_mem hc)) habs
    · rw [h.lookup_contents hc] at hl
      rw [hv, hl]
  · rw [← h.mem_contents] at habs
    refine ⟨rfl, by simp [habs], fun v hl => ?_⟩
    exact absurd (Finmap.mem_of_lookup_eq_some hl) habs

theorem Holds.ok_set (h : Holds size s tab) (hr : InRange size k)
    (ha : k ∉ contents size s → alloc 0 = true ∧ alloc 1 = true ∧ alloc 2 = true) :
    Ok (putKvHashtable alloc size (some k) (some v)) s (fun r s' =>
      (if k ∈ contents size s then r = 1 ∧ s' = s
        else r = 0 ∧ contents size s' = (contents size s).insert k v) ∧ ∃ tab',
        Holds size s' tab') := by
  obtain ⟨i, hi, hk⟩ := hr.slot
  rw [h.mem_contents] at ha
  refine ok_putKvHashtable h hk hi ha (fun hmem => ?_) (fun s' c habs hc hs' _ => ?_)
  · rw [if_pos (h.mem_contents.mpr hmem)]
    exact ⟨⟨rfl, rfl⟩, tab, h⟩
  · rw [if_neg (mt h.mem_contents.mp habs), hs'.contents_eq (joined_update_perm hi _),
      h.contents_eq (joined_perm hi), List.cons_append, List.map_cons, hc, ofPairs_cons]
    exact ⟨⟨rfl, rfl⟩, _, hs'⟩

theorem Holds.ok_delete (h : Holds size s tab) (hr : InRange size k) :
    Ok (deleteKvHashtable size (some k)) s (fun r s' =>
      (if k ∈ contents size s then r = 0 ∧ contents size s' = (contents size s).erase k
        else r = -1 ∧ s' = s) ∧ ∃ tab', Holds size s' tab') := by
  obtain ⟨i, hi, hk⟩ := hr.slot
  refine ok_deleteKvHashtable h hk hi (fun s' L₁ c L₂ hL hck hs' _ => ?_) (fun habs => ?_)
  · subst hck
    have hperm := joined_split_perm hi hL
    have hmem : c.key ∈ contents size s :=
      h.mem_contents.mpr (List.mem_map_of_mem (hperm.mem_iff.mpr (by simp)))
    -- the other cells, with the cell in front of them
    have hnd := ((hperm.map Cell.pair).map Prod.fst).nodup_iff.mp h.pairs_nodup
    rw [if_pos hmem, hs'.contents_eq (joined_update_perm hi _), h.contents_eq hperm]
    exact ⟨⟨rfl, @ofPairs_drop _ _ _ [] _ _ _ hnd⟩, _, hs'⟩
  · rw [if_neg (mt h.mem_contents.mp habs)]
    exact ⟨⟨rfl, rfl⟩, tab, h⟩

theorem Holds.ok_modify (h : Holds size s tab) (hr : InRange size k)
    (ha : k ∈ contents size s → alloc 0 = true) :
    Ok (modifyKvHashtable alloc size (some k) (some v)) s (fun r s' =>
      (if k ∈ contents size s then r = 0 ∧ contents size s' = (contents size s).insert k v
        else r = -1 ∧ s' = s) ∧ ∃ tab', Holds size s' tab') := by
  obtain ⟨i, hi, hk⟩ := hr.slot
  rw [h.mem_contents] at ha
  refine ok_modifyKvHashtable h hk hi ha (fun s' L₁ c L₂ hL hck hs' _ => ?_) (fun habs => ?_)
  · subst hck
    let c' : Cell := { c with valuePtr := s.next, value := v }
    have hperm := joined_split_perm hi hL
    have hmem : c.key ∈ contents size s :=
      h.mem_contents.mpr (List.mem_map_of_mem (hperm.mem_iff.mpr (by simp)))
    have hperm' : (joined size (Function.update tab i (L₁ ++ c' :: L₂))).Perm
        (c' :: (L₁ ++ L₂ ++ others size tab i)) := (joined_update_perm hi _).trans perm_front
    have hold : contents size s = (ofPairs _).insert c.key c.value := h.contents_eq hperm
    have hnew : contents size s' = (contents size s).insert c.key v := by
      rw [hs'.contents_eq hperm', List.map_cons, show c'.pair = (c.key, v) from rfl,
        ofPairs_cons, hold, Finmap.insert_insert]
    rw [if_pos hmem]
    exact ⟨⟨rfl, hnew⟩, _, hs'⟩
  · rw [if_neg (mt h.mem_contents.mp habs)]
    exact ⟨⟨rfl, rfl⟩, tab, h⟩

theorem Holds.ok_kvsHashCount (h : Holds size s tab) (Q : Int → State → Prop) :
    Ok kvsHashCount s Q ↔ Q (int32 (contents size s).keys.card) s := by
  rw [kvsHashCount, ok_bind, ok_readDesc, ok_pure, h.card_contents, h.count]

/-- The allocations that the call makes succeed. -/
def Supplied (alloc : AllocPlan) (m : KvMap) : Op → Prop
  | .set k _ => k ∉ m → alloc 0 = true ∧ alloc 1 = true ∧ alloc 2 = true
  | .get _ => True
  | .delete _ => True
  | .modify k _ => k ∈ m → alloc 0 = true

theorem supplied_allOk (m : KvMap) (o : Op) : Supplied allOk m o := by
  cases o with
  | set k v => exact fun _ => ⟨rfl, rfl, rfl⟩
  | get k => trivial
  | delete k => trivial
  | modify k v => exact fun _ => rfl

/-- **One call** with a key in range, whose allocations succeed, does what the abstract store does,
and keeps the invariant. -/
theorem Holds.ok_callOn (h : Holds size s tab) (hr : InRange size o.key)
    (ha : Supplied alloc (contents size s) o) :
    Ok (callOn alloc size o) s (fun r s' =>
      (r, contents size s') = KvMap.step 1 (contents size s) o ∧ ∃ tab', Holds size s' tab') := by
  cases o with
  | set k v =>
      have hk : InRange size k := hr
      rw [callOn, ok_bind]
      refine (h.ok_set hk ha).mono ?_
      rintro r s' ⟨hres, hs'⟩
      refine (ok_pure ..).mpr ⟨KvMap.eq_step_set ?_, hs'⟩
      split_ifs at hres ⊢
      · exact ⟨hres.1, by rw [hres.2]⟩
      · exact hres
  | get k =>
      have hk : InRange size k := hr
      rw [callOn, ok_bind]
      refine (h.ok_get hk).mono ?_
      rintro p s' ⟨rfl, hp, hv⟩
      rw [ok_bind, ok_deref hp hv, ok_pure]
      exact ⟨rfl, tab, h⟩
  | delete k =>
      have hk : InRange size k := hr
      rw [callOn, ok_bind]
      refine (h.ok_delete hk).mono ?_
      rintro r s' ⟨hres, hs'⟩
      refine (ok_pure ..).mpr ⟨KvMap.eq_step_delete ?_, hs'⟩
      split_ifs at hres ⊢
      · exact hres
      · exact ⟨hres.1, by rw [hres.2]⟩
  | modify k v =>
      have hk : InRange size k := hr
      rw [callOn, ok_bind]
      refine (h.ok_modify hk ha).mono ?_
      rintro r s' ⟨hres, hs'⟩
      refine (ok_pure ..).mpr ⟨KvMap.eq_step_modify ?_, hs'⟩
      split_ifs at hres ⊢
      · exact hres
      · exact ⟨hres.1, by rw [hres.2]⟩

theorem Holds.ok_call (h : Holds maxTableSize s tab) (hr : InRange maxTableSize o.key)
    (ha : Supplied alloc (contents maxTableSize s) o) :
    Ok (call alloc o) s (fun r s' =>
      (r, contents maxTableSize s') = KvMap.step 1 (contents maxTableSize s) o ∧
        ∃ tab', Holds maxTableSize s' tab') := by
  rw [call_eq_callOn]
  exact h.ok_callOn hr ha

theorem Holds.ok_step (h : Holds maxTableSize s tab) (hr : InRange maxTableSize o.key) :
    Ok (step o) s (fun r s' =>
      (r, contents maxTableSize s') = KvMap.step 1 (contents maxTableSize s) o ∧
        ∃ tab', Holds maxTableSize s' tab') :=
  h.ok_call hr (supplied_allOk _ _)

end Calls

/-! ## Whole runs -/

/-- The memory `s` holds the map `m`. -/
def Represents (s : State) (m : KvMap) : Prop :=
  contents maxTableSize s = m ∧ ∃ tab, Holds maxTableSize s tab

theorem NullTable.represents (h : NullTable maxTableSize s) : Represents s ∅ :=
  ⟨h.contents, _, h.holds⟩

/-- **A run** of calls with keys in range does what the abstract store does. -/
theorem ok_runAll {m : KvMap} (hs : Represents s m) {ops : List Op}
    (hkeys : ∀ o ∈ ops, InRange maxTableSize o.key) :
    Ok (runAll step ops) s (fun outs s' => outs = (specRun (KvMap.step 1) m ops).1 ∧
      Represents s' (specRun (KvMap.step 1) m ops).2) := by
  refine Ok.runAll_sim Represents (fun o s m (hr : InRange maxTableSize o.key) hrep => ?_) ops s m
    (allowed_of_forall hkeys) hs
  obtain ⟨rfl, tab, h⟩ := hrep
  refine (h.ok_step hr).mono ?_
  rintro r s' ⟨hstep, hs'⟩
  obtain ⟨hr, hm⟩ := Prod.ext_iff.mp hstep
  exact ⟨hr, hm, hs'⟩

/-- The key string of a node. -/
def keyOf (s : State) (a : Nat) : Option CStr := (keyAt s a).bind s.cstr

/-- The slots hold the chains of nodes `chains`: finite, without a cycle, every node in the slot its
key hashes to, no key twice, and as many nodes as `count`, an `int`, says. -/
structure WellChained (size : Nat) (s : State) (chains : Nat → List Nat) : Prop where
  chain : ∀ i < size, ∃ p, s.desc.nodes i = some p ∧ s.Chain (·.next) p (chains i)
  acyclic : ∀ i < size, (chains i).Nodup
  slot : ∀ i < size, ∀ a ∈ chains i, ∃ k, keyOf s a = some k ∧ hash (some k) size = i
  keys : ((joined size chains).map (keyOf s)).Nodup
  count : s.desc.count = int32 (joined size chains).length

theorem Holds.wellChained {tab : Nat → List Cell} (h : Holds size s tab) :
    WellChained size s fun i => (tab i).map Cell.node where
  chain := h.chain
  acyclic i hi := by
    obtain ⟨p, -, hchain⟩ := h.chain i hi
    exact hchain.nodup
  slot i hi a ha := by
    obtain ⟨c, hc, rfl⟩ := List.mem_map.mp ha
    have hst := h.stored_slot hi c hc
    exact ⟨c.key, by rw [keyOf, hst.keyPtr, Option.bind_some, hst.key], h.slot i hi c hc⟩
  keys := by
    -- reading the keys off the nodes gives the keys of the cells
    have hread : (joined size tab).map (keyOf s ∘ Cell.node)
        = ((joined size tab).map Cell.key).map some := by
      rw [List.map_map]
      refine List.map_congr_left fun c hc => ?_
      have hst := h.stored c hc
      show (keyAt s c.node).bind s.cstr = some c.key
      rw [hst.keyPtr, Option.bind_some, hst.key]
    rw [← map_joined, List.map_map, hread]
    exact h.keys.map (Option.some_injective _)
  count := by rw [← map_joined, List.length_map, h.count]

/-- In the state `s` the engine is the finite map `contents`, for keys in range. -/
structure ActsAsMap (s : State) : Prop where
  get : ∀ k, InRange maxTableSize k → Ok (kvsHashGet (some k)) s (fun p s' => s' = s ∧
    (p = 0 ↔ k ∉ contents maxTableSize s) ∧
      ∀ v, (contents maxTableSize s).lookup k = some v → s.cstr p = some v)
  set : ∀ k v, InRange maxTableSize k → Ok (kvsHashSet allOk (some k) (some v)) s (fun r s' =>
    if k ∈ contents maxTableSize s then r = 1 ∧ s' = s
      else r = 0 ∧ contents maxTableSize s' = (contents maxTableSize s).insert k v)
  delete : ∀ k, InRange maxTableSize k → Ok (kvsHashDelete (some k)) s (fun r s' =>
    if k ∈ contents maxTableSize s then
      r = 0 ∧ contents maxTableSize s' = (contents maxTableSize s).erase k
    else r = -1 ∧ s' = s)
  modify : ∀ k v, InRange maxTableSize k → Ok (kvsHashModify allOk (some k) (some v)) s (fun r s' =>
    if k ∈ contents maxTableSize s then
      r = 0 ∧ contents maxTableSize s' = (contents maxTableSize s).insert k v
    else r = -1 ∧ s' = s)

/-- **The engine refines a finite map, and counts its keys as an `int` can.** From a table of `NULL`
slots, every run of calls with keys in range has the outcomes and the final contents of the abstract
store; in the state it ends in the chains are well formed, the counter is the number of keys modulo
`2 ^ 32`, hence that number exactly if it is below `2 ^ 31`, and every further call acts on the
contents as on a map. -/
theorem run_refinesMap (s₀ : State) (h₀ : NullTable maxTableSize s₀) (ops : List Op)
    (hkeys : ∀ o ∈ ops, InRange maxTableSize o.key) :
    Ok (runAll step ops) s₀ (fun outs s =>
      (outs, contents maxTableSize s) = specRun (KvMap.step 1) ∅ ops ∧
        (∃ chains, WellChained maxTableSize s chains) ∧
          Ok kvsHashCount s (fun n _ => n = int32 (contents maxTableSize s).keys.card ∧
            (n = (contents maxTableSize s).keys.card ↔
              (contents maxTableSize s).keys.card < 2 ^ 31)) ∧ ActsAsMap s) := by
  refine (ok_runAll h₀.represents hkeys).mono ?_
  rintro outs s ⟨houts, hm, tab, h⟩
  refine ⟨Prod.ext houts hm, ⟨_, h.wellChained⟩, ?_, fun k hr => ?_, fun k v hr => ?_,
    fun k hr => ?_, fun k v hr => ?_⟩
  · exact (h.ok_kvsHashCount _).mpr ⟨rfl, int32_natCast_iff⟩
  · rw [kvsHashGet]
    exact h.ok_get hr
  · rw [kvsHashSet]
    exact (h.ok_set hr fun _ => ⟨rfl, rfl, rfl⟩).mono fun r s' hres => hres.1
  · rw [kvsHashDelete]
    exact (h.ok_delete hr).mono fun r s' hres => hres.1
  · rw [kvsHashModify]
    exact (h.ok_modify hr fun _ => rfl).mono fun r s' hres => hres.1

/-- A table whose slots have been set to `NULL`, in a memory without blocks. -/
def nulled : State := ⟨fun _ => none, fun _ => none, 1, ⟨fun _ => some 0, maxTableSize, 0⟩⟩

theorem nullTable_nulled : NullTable maxTableSize nulled :=
  ⟨fun _ _ => rfl, rfl, ⟨Nat.one_pos, nofun, nofun, nofun⟩⟩

/-- Two keys that share a chain; the first is deleted behind the second. -/
theorem run_refinesMap_collision :
    hash (some (CStr.lit "ab")) maxTableSize = hash (some (CStr.lit "ba")) maxTableSize ∧
      Ok (runAll step [.set (CStr.lit "ab") (CStr.lit "1"), .set (CStr.lit "ba") (CStr.lit "2"),
        .delete (CStr.lit "ab"), .get (CStr.lit "ba")]) nulled (fun outs _ =>
          outs = [.code 0, .code 0, .code 0, .value (some (CStr.lit "2"))]) := by
  refine ⟨by decide, (run_refinesMap nulled nullTable_nulled _ ?_).mono ?_⟩
  · decide
  · rintro outs s ⟨hrun, -⟩
    have houts := congrArg Prod.fst hrun
    exact houts.trans (by decide)

/-! ## More keys than an `int` counts -/

/-- The last 31 binary digits of a number, as text. -/
def digits (n : Nat) : CStr where
  bytes := (List.range 31).map fun i => bif n.testBit i then 49 else 48
  nul_notMem h := by
    obtain ⟨i, -, hi⟩ := List.mem_map.mp h
    cases hbit : n.testBit i <;> simp [hbit] at hi

theorem digits_inj {n m : Nat} (hn : n < 2 ^ 31) (hm : m < 2 ^ 31) (h : digits n = digits m) :
    n = m := by
  refine Nat.eq_of_testBit_eq fun i => ?_
  by_cases hi : i < 31
  · have hbit := congrArg (fun k : CStr => k.bytes[i]?) h
    simp only [digits, List.getElem?_map, List.getElem?_range hi, Option.map_some] at hbit
    cases hni : n.testBit i <;> cases hmi : m.testBit i <;> simp [hni, hmi] at hbit ⊢
  · have hle : 2 ^ 31 ≤ 2 ^ i := Nat.pow_le_pow_right (by decide) (by omega)
    rw [Nat.testBit_lt_two_pow (by omega), Nat.testBit_lt_two_pow (by omega)]

theorem inRange_digits (n : Nat) : InRange maxTableSize (digits n) := by
  refine inRange_of_ascii (by decide) (fun b hb => ?_) (by simp [digits, CStr.strlen])
  obtain ⟨i, -, rfl⟩ := List.mem_map.mp hb
  cases n.testBit i <;> decide

/-- `n` sets, each of another key. -/
def manySets (n : Nat) : List Op := ((List.range n).map digits).map (.set · (CStr.lit "v"))

theorem card_manySets {n : Nat} (hn : n ≤ 2 ^ 31) :
    (specRun (KvMap.step 1) ∅ (manySets n)).2.keys.card = n := by
  have hinj : ((List.range n).map digits).Nodup := by
    refine List.Nodup.map_on (fun i hi j hj => ?_) List.nodup_range
    rw [List.mem_range] at hi hj
    exact digits_inj (by omega) (by omega)
  rw [manySets, KvMap.card_sets 1 _ hinj fun _ _ => Finmap.notMem_empty]
  simp

/-- After `2 ^ 31` sets of different keys `kvs_hash_count` returns a negative number. -/
theorem count_manySets :
    (∀ o ∈ manySets (2 ^ 31), InRange maxTableSize o.key) ∧
      Ok (runAll step (manySets (2 ^ 31))) nulled (fun _ s =>
        (contents maxTableSize s).keys.card = 2 ^ 31 ∧
        Ok kvsHashCount s (fun n _ => n = -2 ^ 31)) := by
  have hkeys : ∀ o ∈ manySets (2 ^ 31), InRange maxTableSize o.key := by
    intro o ho
    rw [manySets, List.map_map] at ho
    obtain ⟨i, -, rfl⟩ := List.mem_map.mp ho
    exact inRange_digits i
  refine ⟨hkeys, (ok_runAll nullTable_nulled.represents hkeys).mono ?_⟩
  rintro outs s ⟨-, hm, tab, h⟩
  have hcard : (contents maxTableSize s).keys.card = 2 ^ 31 := by rw [hm, card_manySets le_rfl]
  refine ⟨hcard, ?_⟩
  rw [h.ok_kvsHashCount, hcard]
  decide

/-! ## Runs in which allocations may fail -/

/-- The states that calls lead to from a table of `NULL` slots, with any outcome of their
allocations, as long as no call goes wrong. -/
def Reachable (s : State) : Prop :=
  ∃ s₀, NullTable maxTableSize s₀ ∧ Reach (fun c : AllocPlan × Op => call c.1 c.2) s₀ s

/-- `kvs_hash_get` of the key returns a string equal to `v`. -/
def Reads (s : State) (k v : CStr) : Prop :=
  Ok (call allOk (.get k)) s (fun r _ => r = .value (some v))

section Failures

variable {s s' : State} {tab : Nat → List Cell} {k v : CStr}

/-- A key out of range is looked up outside the slot table. -/
theorem returns_getSlot (hr : ¬InRange size k) (Q : Nat → State → Prop) :
    Returns (getSlot size (hash (some k) size)) s Q := by
  have hout : ¬(0 ≤ hash (some k) size ∧ hash (some k) size < size) := hr
  rw [getSlot, if_neg hout]
  exact returns_throw .outOfBounds s Q

/-- A call that returns has a key in range. -/
theorem inRange_of_run {r : Outcome}
    (h : (call alloc o).run s = .ok (r, s')) : InRange maxTableSize o.key := by
  by_contra hr
  have hno : Returns (call alloc o) s (fun _ _ => False) := by
    cases o with
    | set k v =>
        rw [call, kvsHashSet, putKvHashtable]
        exact returns_bind (returns_bind (returns_getSlot hr _))
    | get k =>
        rw [call, kvsHashGet, getKvHashtable]
        exact returns_bind (returns_bind (returns_getSlot hr _))
    | delete k =>
        rw [call, kvsHashDelete, deleteKvHashtable]
        exact returns_bind (returns_bind (returns_getSlot hr _))
    | modify k v =>
        rw [call, kvsHashModify, modifyKvHashtable]
        exact returns_bind (returns_bind (returns_getSlot hr _))
  exact hno r s' h

/-- A call that returns has got the memory it needs. -/
theorem Holds.supplied_of_run (h : Holds maxTableSize s tab)
    {r : Outcome} (hrun : (call alloc o).run s = .ok (r, s')) :
    Supplied alloc (contents maxTableSize s) o := by
  obtain ⟨i, hi, hk⟩ := (inRange_of_run hrun).slot
  cases o with
  | get k => trivial
  | delete k => trivial
  | set k v =>
      intro habs
      by_contra ha
      rw [h.mem_contents] at habs
      have hno : Returns (call alloc (.set k v)) s (fun _ _ => False) := by
        rw [call, kvsHashSet]
        exact returns_bind (returns_putKvHashtable_failed h hk hi habs ha _)
      exact hno r s' hrun
  | modify k v =>
      intro hmem
      by_contra ha
      rw [h.mem_contents] at hmem
      have hno : Returns (call alloc (.modify k v)) s (fun _ _ => False) := by
        rw [call, kvsHashModify]
        exact returns_bind (returns_modifyKvHashtable_failed h hk hi hmem (by simpa using ha) _)
      exact hno r s' hrun

/-- Every call that returns does what the abstract store does, and keeps the invariant. -/
theorem Holds.returns_call (h : Holds maxTableSize s tab) (alloc : AllocPlan) (o : Op) :
    Returns (call alloc o) s (fun r s' =>
      (r, contents maxTableSize s') = KvMap.step 1 (contents maxTableSize s) o ∧
        ∃ tab', Holds maxTableSize s' tab') := by
  intro r s' hrun
  exact (h.ok_call (inRange_of_run hrun) (h.supplied_of_run hrun)).returns r s' hrun

theorem Reachable.holds (h : Reachable s) : ∃ tab, Holds maxTableSize s tab := by
  obtain ⟨s₀, h₀, hreach⟩ := h
  refine Reach.invariant (I := fun s => ∃ tab, Holds maxTableSize s tab)
    (fun c s r s' hI hrun => ?_) ⟨_, h₀.holds⟩ hreach
  obtain ⟨tab, hs⟩ := hI
  exact (hs.returns_call c.1 c.2 r s' hrun).2

/-- A `set` that returned `0` can be read back. -/
theorem Reachable.set_reads (hs : Reachable s)
    (hset : (kvsHashSet alloc (some k) (some v)).run s = .ok (0, s')) : Reads s' k v := by
  obtain ⟨tab, h⟩ := hs.holds
  have hrun : (call alloc (.set k v)).run s = .ok (.code 0, s') := by
    rw [call, run_bind_ok hset, run_pure]
  have hr : InRange maxTableSize k := inRange_of_run hrun
  obtain ⟨hstep, tab', h'⟩ := h.returns_call alloc _ _ _ hrun
  have hm : contents maxTableSize s' = (contents maxTableSize s).insert k v := by
    by_cases hk : k ∈ contents maxTableSize s
    · rw [KvMap.step, if_pos hk] at hstep
      exact absurd (congrArg Prod.fst hstep) (by simp)
    · rw [KvMap.step, if_neg hk] at hstep
      exact congrArg Prod.snd hstep
  refine (h'.ok_step (o := .get k) hr).mono ?_
  rintro r s'' ⟨hget, -⟩
  calc r = (KvMap.step 1 (contents maxTableSize s') (.get k)).1 := congrArg Prod.fst hget
    _ = .value (some v) := by rw [KvMap.step, hm, Finmap.lookup_insert]

end Failures

end KvStore.Hash
