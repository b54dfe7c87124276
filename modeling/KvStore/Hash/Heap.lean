import KvStore.Hash.Runs

set_option autoImplicit false

/-! # The blocks of the hash table

Every call of the engine trades blocks: a `set` of a new key allocates a node and two strings, a
`delete` gives those of its cell back, a `modify` exchanges the value. The ledger of the blocks that
the calls have allocated is therefore, in every state, the list of the blocks of the cells
(`run_heapExact`): nothing is lost, and nothing is given back twice.
-/

namespace KvStore.Hash

open Function KvStore.Lib

/-! ## The ledger -/

/-- The blocks of all cells of the table. -/
def tabBlocks (size : Nat) (tab : Nat → List Cell) : List Nat :=
  (joined size tab).flatMap Cell.blocks

section Ledger

variable {size i : Nat} {s s' s₀ : State} {tab tab' : Nat → List Cell} {k v : CStr}

/-- The invariant of the engine, and the ledger of its blocks since `s₀`. -/
structure Keeps (size : Nat) (s₀ s : State) (tab : Nat → List Cell) : Prop
    extends Holds size s tab where
  owns : s₀.Owns s (tabBlocks size tab)

theorem Keeps.ok_put (h : Keeps size s₀ s tab) (hs₀ : s₀.WF) (hr : InRange size k) (v : CStr) :
    Ok (putKvHashtable allOk size (some k) (some v)) s
      (fun _ s' => ∃ tab', Keeps size s₀ s' tab') := by
  obtain ⟨i, hi, hk⟩ := hr.slot
  refine ok_putKvHashtable h.toHolds hk hi (fun _ => ⟨rfl, rfl, rfl⟩) (fun _ => ⟨tab, h⟩) ?_
  intro s' c _ _ hs' htrade
  have hold : (joined size tab).Perm ([] ++ (tab i ++ others size tab i)) := joined_perm hi
  have hnew : (joined size (update tab i (c :: tab i))).Perm
      ([c] ++ (tab i ++ others size tab i)) := joined_update_perm hi _
  exact ⟨_, hs', h.owns.exchange hs₀ htrade h.blocks (hold.flatMap_right Cell.blocks)
    (hnew.flatMap_right Cell.blocks)⟩

theorem Keeps.ok_delete (h : Keeps size s₀ s tab) (hs₀ : s₀.WF) (hr : InRange size k) :
    Ok (deleteKvHashtable size (some k)) s (fun _ s' => ∃ tab', Keeps size s₀ s' tab') := by
  obtain ⟨i, hi, hk⟩ := hr.slot
  refine ok_deleteKvHashtable h.toHolds hk hi ?_ (fun _ => ⟨tab, h⟩)
  intro s' L₁ c L₂ hL _ hs' htrade
  have hold : (joined size tab).Perm ([c] ++ (L₁ ++ L₂ ++ others size tab i)) :=
    joined_split_perm hi hL
  have hnew : (joined size (update tab i (L₁ ++ L₂))).Perm
      ([] ++ (L₁ ++ L₂ ++ others size tab i)) := joined_update_perm hi _
  exact ⟨_, hs', h.owns.exchange hs₀ htrade h.blocks (hold.flatMap_right Cell.blocks)
    (hnew.flatMap_right Cell.blocks)⟩

theorem Keeps.ok_modify (h : Keeps size s₀ s tab) (hs₀ : s₀.WF) (hr : InRange size k) (v : CStr) :
    Ok (modifyKvHashtable allOk size (some k) (some v)) s
      (fun _ s' => ∃ tab', Keeps size s₀ s' tab') := by
  obtain ⟨i, hi, hk⟩ := hr.slot
  refine ok_modifyKvHashtable h.toHolds hk hi (fun _ => rfl) ?_ (fun _ => ⟨tab, h⟩)
  intro s' L₁ c L₂ hL _ hs' htrade
  have hold : (joined size tab).Perm ([c] ++ (L₁ ++ L₂ ++ others size tab i)) :=
    joined_split_perm hi hL
  have hnew : (joined size (update tab i
      (L₁ ++ { c with valuePtr := s.next, value := v } :: L₂))).Perm
        ([{ c with valuePtr := s.next, value := v }] ++ (L₁ ++ L₂ ++ others size tab i)) :=
    (joined_update_perm hi _).trans perm_front
  -- the node and the key stay, the value is exchanged
  let stay := c.node :: c.keyPtr :: (L₁ ++ L₂ ++ others size tab i).flatMap Cell.blocks
  have hfront : ∀ p, (c.node :: c.keyPtr :: p ::
      (L₁ ++ L₂ ++ others size tab i).flatMap Cell.blocks).Perm (p :: stay) := fun p =>
    ((List.Perm.swap ..).cons _).trans (List.Perm.swap ..)
  exact ⟨_, hs', h.owns.exchange hs₀ htrade h.blocks
    ((hold.flatMap_right Cell.blocks).trans (hfront _))
    ((hnew.flatMap_right Cell.blocks).trans (hfront _))⟩

/-- **One call** keeps the ledger. -/
theorem Keeps.ok_step (h : Keeps maxTableSize s₀ s tab) (hs₀ : s₀.WF) {o : Op}
    (hr : InRange maxTableSize o.key) :
    Ok (step o) s (fun _ s' => ∃ tab', Keeps maxTableSize s₀ s' tab') := by
  cases o with
  | set k v =>
      have hk : InRange maxTableSize k := hr
      rw [step, call, ok_bind, kvsHashSet]
      exact (h.ok_put hs₀ hk v).mono fun r s' hs' => (ok_pure ..).mpr hs'
  | get k =>
      have hk : InRange maxTableSize k := hr
      rw [step, call, ok_bind, kvsHashGet]
      refine (h.ok_get hk).mono ?_
      rintro p s' ⟨rfl, hp, hv⟩
      rw [ok_bind, ok_deref hp hv, ok_pure]
      exact ⟨tab, h⟩
  | delete k =>
      have hk : InRange maxTableSize k := hr
      rw [step, call, ok_bind, kvsHashDelete]
      exact (h.ok_delete hs₀ hk).mono fun r s' hs' => (ok_pure ..).mpr hs'
  | modify k v =>
      have hk : InRange maxTableSize k := hr
      rw [step, call, ok_bind, kvsHashModify]
      exact (h.ok_modify hs₀ hk v).mono fun r s' hs' => (ok_pure ..).mpr hs'

theorem NullTable.keeps (h : NullTable size s) : Keeps size s s fun _ => [] where
  toHolds := h.holds
  owns := by
    rw [tabBlocks, joined_nil]
    exact Store.Owns.refl s

end Ledger

/-! ## Whole runs -/

/-- The blocks of a node: the node, and the strings its fields point to. -/
def nodeBlocks (s : State) (a : Nat) : List Nat :=
  a :: ((keyAt s a).toList ++ (valueAt s a).toList)

/-- The slots hold the chains of nodes `chains`. The blocks of these nodes are pairwise distinct,
and they are the blocks that are allocated in `s` and were not in `s₀`; those of `s₀` are
untouched. -/
structure HeapExact (size : Nat) (s₀ s : State) (chains : Nat → List Nat) : Prop where
  chain : ∀ i < size, ∃ p, s.desc.nodes i = some p ∧ s.Chain (·.next) p (chains i)
  distinct : ((joined size chains).flatMap (nodeBlocks s)).Nodup
  owned : ∀ p, s₀.next ≤ p ∧ s.Live p ↔ p ∈ (joined size chains).flatMap (nodeBlocks s)
  kept : ∀ p < s₀.next, (s.Live p ↔ s₀.Live p)

theorem Keeps.heapExact {size : Nat} {s₀ s : State} {tab : Nat → List Cell}
    (h : Keeps size s₀ s tab) (hs₀ : s₀.WF) :
    HeapExact size s₀ s fun i => (tab i).map Cell.node := by
  -- the blocks of the nodes are those of the cells
  have hblocks : (joined size fun i => (tab i).map Cell.node).flatMap (nodeBlocks s)
      = tabBlocks size tab := by
    rw [← map_joined, List.flatMap_map, tabBlocks]
    refine List.flatMap_congr fun c hc => ?_
    have hst := h.stored c hc
    rw [nodeBlocks, hst.keyPtr, hst.valuePtr]
    rfl
  refine ⟨h.chain, hblocks ▸ h.blocks, fun p => ?_, fun p hp => ?_⟩
  · rw [hblocks]
    exact h.owns.mem_iff hs₀
  · rw [h.owns.live, or_iff_left]
    intro hmem
    have := h.owns.fresh p hmem
    omega

/-- **The heap of the hash table.** From a table of `NULL` slots, every run of calls with keys in
range returns, so no call frees a block twice or touches a freed one, and in the state it ends in
the blocks the calls have allocated are exactly those of the chained nodes, all of them distinct. -/
theorem run_heapExact (s₀ : State) (h₀ : NullTable maxTableSize s₀) (ops : List Op)
    (hkeys : ∀ o ∈ ops, InRange maxTableSize o.key) :
    Ok (runAll step ops) s₀ (fun _ s => ∃ chains, HeapExact maxTableSize s₀ s chains) := by
  have hrun : Ok (runAll step ops) s₀ (fun _ s => ∃ tab, Keeps maxTableSize s₀ s tab) := by
    refine Ok.runAll (fun s => ∃ tab, Keeps maxTableSize s₀ s tab) ?_ ops s₀ hkeys ⟨_, h₀.keeps⟩
    rintro o s hr ⟨tab, h⟩
    exact h.ok_step h₀.wf hr
  refine hrun.mono ?_
  rintro rs s ⟨tab, h⟩
  exact ⟨_, h.heapExact h₀.wf⟩

/-- Two keys of one slot, the first one modified and the second one deleted. -/
theorem run_heapExact_collision :
    Ok (runAll step [.set (CStr.lit "ab") (CStr.lit "1"), .set (CStr.lit "ba") (CStr.lit "2"),
      .modify (CStr.lit "ab") (CStr.lit "3"), .delete (CStr.lit "ba")]) nulled
        (fun _ s => ∃ chains, HeapExact maxTableSize nulled s chains) := by
  refine run_heapExact nulled nullTable_nulled _ ?_
  decide

end KvStore.Hash
