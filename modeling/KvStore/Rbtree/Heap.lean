import KvStore.Rbtree.Runs

set_option autoImplicit false

/-! # The blocks of the tree

Which of the blocks that the calls have allocated belong to a node of the tree, and which are lost.
A `set` of a key that is there allocates a node and two strings, and `rbtree_insert` drops them.
After a `delete` the node that has been taken out, with the strings of the key, should be given
back; the test in front of the calls of `kvstore_free` is the wrong way round, so it never is.

No call frees a block twice or touches a freed one. Nothing is lost in a run, exactly when no `set`
and no `delete` of it names a key that is there (`session_noLeak_iff`).
-/

namespace KvStore.Rbtree

open KvStore.Lib KvStore.Lib.RBTree

/-! ## The blocks of a tree -/

/-- The nodes of the tree, and the blocks of the entries. -/
def treeBlocks (T : RBTree Nat) (es : List Entry) : List Nat := T.toList ++ es.flatMap Entry.blocks

section Blocks

variable {T T' : RBTree Nat} {E₁ E₂ : List Entry} {e : Entry} {y : Nat}

theorem treeBlocks_middle :
    (treeBlocks T (E₁ ++ e :: E₂)).Perm (e.blocks ++ treeBlocks T (E₁ ++ E₂)) :=
  ((blocks_middle E₁ E₂ e).append_left T.toList).trans (List.perm_append_comm_assoc ..)

/-- A tree with one node more, and the entry it owns. -/
theorem treeBlocks_cons (h : T'.toList.Perm (y :: T.toList)) :
    (treeBlocks T' (E₁ ++ e :: E₂)).Perm ((y :: e.blocks) ++ treeBlocks T (E₁ ++ E₂)) := by
  refine treeBlocks_middle.trans ?_
  have hnode : (treeBlocks T' (E₁ ++ E₂)).Perm (y :: treeBlocks T (E₁ ++ E₂)) :=
    h.append_right ((E₁ ++ E₂).flatMap Entry.blocks)
  exact (hnode.append_left e.blocks).trans List.perm_middle

end Blocks

/-! ## The ledger -/

/-- The invariant of the engine, with the ledger of its blocks since `s₀`: those of the tree, and
the blocks `lost` that belong to no node. -/
structure Ledger (s₀ s : State) (T : RBTree Nat) (es : List Entry) (lost : List Nat) : Prop
    extends Intact s T es where
  owns : s₀.Owns s (treeBlocks T es ++ lost)
  distinct : (treeBlocks T es ++ lost).Nodup

/-- The call is no `set` or `delete` of a key that is there. -/
def Frugal (m : KvMap) : Op → Prop
  | .set k _ => k ∉ m
  | .get _ => True
  | .delete k => k ∉ m
  | .modify _ _ => True

section Ledger

variable {s₀ s s' : State} {T T' : RBTree Nat} {es es' : List Entry} {lost lost' : List Nat}

/-- What a call has to show: how it trades blocks, and where they stand in the new ledger. -/
theorem Ledger.exchange (h : Ledger s₀ s T es lost) (hs₀ : s₀.WF) (h' : Intact s' T' es')
    {freed made R : List Nat} (ht : Store.Trades s s' freed made) (hmade : made.Nodup)
    (hL : (treeBlocks T es ++ lost).Perm (freed ++ R))
    (hL' : (treeBlocks T' es' ++ lost').Perm (made ++ R)) : Ledger s₀ s' T' es' lost' where
  toIntact := h'
  owns := h.owns.exchange hs₀ ht h.distinct hL hL'
  distinct := h.owns.exchange_nodup h.wf ht hmade h.distinct hL hL'

/-- The blocks that a `kvs_rbtree_set` allocates. -/
theorem Ledger.ok_set (h : Ledger s₀ s T es lost) (hs₀ : s₀.WF) (k v : CStr) :
    Ok (kvsRbtreeSet allOk (some k) (some v)) s (fun _ s' => ∃ T' es' lost',
      Ledger s₀ s' T' es' lost' ∧ (lost' = [] ↔ lost = [] ∧ k ∉ contents s)) := by
  have hnodup : [s.next, s.next + 1, s.next + 2].Nodup := by simp
  refine ok_kvsRbtreeSet h.toHolds allOk k v (fun s' hfail => absurd ⟨rfl, rfl, rfl⟩ hfail) ?_ ?_
  · -- the new node is dropped
    intro s' hk hs' _ htrade _
    refine ⟨T, es, [s.next, s.next + 1, s.next + 2] ++ lost,
      h.exchange hs₀ ⟨hs', h.full⟩ htrade hnodup
      (List.Perm.refl _) (List.perm_append_comm_assoc ..), iff_of_false (by simp) ?_⟩
    rintro ⟨-, habs⟩
    exact habs (h.mem_contents.mpr hk)
  · -- the new node is in the tree
    rintro s' T' E₁ e E₂ rfl hk _ he0 hs' _ ⟨hblocks, hperm, htrade⟩ -
    have hcons : (treeBlocks T' (E₁ ++ e :: E₂) ++ lost).Perm _ :=
      (treeBlocks_cons hperm).append_right lost
    rw [hblocks, List.append_assoc] at hcons
    exact ⟨T', E₁ ++ e :: E₂, lost, h.exchange hs₀ ⟨hs', full_middle h.full he0⟩ htrade hnodup
      (List.Perm.refl _) hcons, (and_iff_left (mt h.mem_contents.mp hk)).symm⟩

/-- A `kvs_rbtree_delete` gives nothing back. -/
theorem Ledger.ok_delete (h : Ledger s₀ s T es lost) (hs₀ : s₀.WF) (k : CStr) :
    Ok (kvsRbtreeDelete (some k)) s (fun _ s' => ∃ T' es' lost',
      Ledger s₀ s' T' es' lost' ∧ (lost' = [] ↔ lost = [] ∧ k ∉ contents s)) := by
  refine ok_kvsRbtreeDelete h.toHolds k ?_ ?_
  · -- the node `y` that is taken out need not be the one that held the key
    rintro s' T' E₁ e E₂ rfl rfl hs' _ ⟨⟨y, hperm⟩, htrade⟩ -
    have hmove : (treeBlocks T' (E₁ ++ E₂) ++ ((y :: e.blocks) ++ lost)).Perm
        (treeBlocks T (E₁ ++ e :: E₂) ++ lost) := by
      refine (List.perm_append_comm_assoc ..).trans ?_
      rw [← List.append_assoc]
      exact (treeBlocks_cons hperm).symm.append_right lost
    refine ⟨T', E₁ ++ E₂, (y :: e.blocks) ++ lost, h.exchange hs₀ ⟨hs', full_drop h.full⟩ htrade
      List.nodup_nil (List.Perm.refl _) hmove, iff_of_false (by simp) ?_⟩
    rintro ⟨-, habs⟩
    exact habs (h.mem_contents.mpr (List.mem_map_of_mem (by simp)))
  · intro hk
    exact ⟨T, es, lost, h, (and_iff_left (mt h.mem_contents.mp hk)).symm⟩

/-- A `kvs_rbtree_modify` exchanges the block of the value. -/
theorem Ledger.ok_modify (h : Ledger s₀ s T es lost) (hs₀ : s₀.WF) (k v : CStr) :
    Ok (kvsRbtreeModify allOk (some k) (some v)) s (fun _ s' => ∃ T' es',
      Ledger s₀ s' T' es' lost) := by
  refine ok_kvsRbtreeModify h.toHolds allOk k v ?_
    (fun s' E₁ e e' E₂ hfail => absurd hfail (by decide)) (fun _ => ⟨T, es, h⟩)
  rintro s' E₁ e e' E₂ - rfl - - he0 hs' - ⟨hkey, htrade⟩ -
  -- an entry with its value in front of the other blocks
  have hfront : ∀ e₁ : Entry, e₁.valuePtr ≠ 0 → e₁.keyPtr = e.keyPtr →
      (treeBlocks T (E₁ ++ e₁ :: E₂) ++ lost).Perm
        ([e₁.valuePtr] ++ (e.keyPtr :: (treeBlocks T (E₁ ++ E₂) ++ lost))) := by
    intro e₁ hv hk₁
    have hmiddle : (treeBlocks T (E₁ ++ e₁ :: E₂) ++ lost).Perm _ :=
      treeBlocks_middle.append_right lost
    rw [Entry.blocks, if_neg hv, hk₁] at hmiddle
    exact hmiddle.trans (List.Perm.swap ..)
  have hold := h.full e (by simp)
  have htail : e.blocks.tail = [e.valuePtr] := by rw [Entry.blocks, if_neg hold, List.tail_cons]
  rw [htail] at htrade
  exact ⟨T, E₁ ++ e' :: E₂, h.exchange hs₀ ⟨hs', full_middle (full_drop h.full) he0⟩ htrade
    (List.nodup_singleton _) (hfront e hold rfl) (hfront e' he0 hkey)⟩

/-- **One call**: it loses blocks exactly when it is a `set` or `delete` of a key that is there. -/
theorem Ledger.ok_step (h : Ledger s₀ s T es lost) (hs₀ : s₀.WF) (o : Op) :
    Ok (step o) s (fun _ s' => ∃ T' es' lost',
      Ledger s₀ s' T' es' lost' ∧ (lost' = [] ↔ lost = [] ∧ Frugal (contents s) o)) := by
  cases o with
  | set k v =>
      rw [step, call, ok_bind]
      exact (h.ok_set hs₀ k v).mono fun r s' hs' => (ok_pure ..).mpr hs'
  | get k =>
      rw [step, call, ok_bind]
      refine (h.ok_get k).mono ?_
      rintro p s' ⟨rfl, hp, hv⟩
      rw [ok_bind, ok_deref hp hv, ok_pure]
      exact ⟨T, es, lost, h, (and_iff_left trivial).symm⟩
  | delete k =>
      rw [step, call, ok_bind]
      exact (h.ok_delete hs₀ k).mono fun r s' hs' => (ok_pure ..).mpr hs'
  | modify k v =>
      rw [step, call, ok_bind]
      refine (h.ok_modify hs₀ k v).mono ?_
      rintro r s' ⟨T', es', hs'⟩
      exact (ok_pure ..).mpr ⟨T', es', lost, hs', (and_iff_left trivial).symm⟩

/-- **A run** of calls. -/
theorem Ledger.ok_runAll (h : Ledger s₀ s T es lost) (hs₀ : s₀.WF) (ops : List Op) :
    Ok (runAll step ops) s (fun _ s' => ∃ T' es' lost', Ledger s₀ s' T' es' lost' ∧
      (lost' = [] ↔ lost = [] ∧ Allowed (KvMap.step 0) Frugal (contents s) ops)) := by
  induction ops generalizing s T es lost with
  | nil => exact ⟨[], s, rfl, T, es, lost, h, (and_iff_left trivial).symm⟩
  | cons o ops ih =>
      obtain ⟨r, s₁, ho, T₁, es₁, lost₁, h₁, hlost₁⟩ := h.ok_step hs₀ o
      obtain ⟨rs, s₂, hrun, T₂, es₂, lost₂, h₂, hlost₂⟩ := ih h₁
      -- the ledger knows the blocks; what the call does to the keys is in `Intact.ok_step`
      have hcontents : contents s₁ = (KvMap.step 0 (contents s) o).2 :=
        congrArg Prod.snd ((h.toIntact.ok_step o).returns r s₁ ho).1
      refine ⟨r :: rs, s₂, runAll_cons_ok.mpr ⟨r, s₁, rs, ho, hrun, rfl⟩, T₂, es₂, lost₂, h₂, ?_⟩
      rw [hlost₂, hlost₁, hcontents, Allowed, and_assoc]

end Ledger

/-! ## Leaks -/

/-- The block is a node that can be reached from `tree->root`, or the key or value of one. -/
def TreeBlock (s : State) (q : Nat) : Prop :=
  ∃ p, InTree s p ∧ (q = p ∨ keyAt s p = some q ∨ valueAt s p = some q)

/-- The blocks that are allocated in `s` and were not in `s₀` are those of the tree. -/
def NoLeak (s₀ s : State) : Prop := ∀ q, s₀.next ≤ q ∧ s.Live q ↔ TreeBlock s q

section NoLeak

variable {s₀ s : State} {T : RBTree Nat} {es : List Entry} {lost : List Nat}

theorem Intact.treeBlock_iff (h : Intact s T es) (q : Nat) :
    TreeBlock s q ↔ q ∈ treeBlocks T es := by
  -- the blocks of an entry are the pointers of its node
  have hptrs : ∀ {p : Nat} {e : Entry}, e ∈ es → dataAt s p = e.ptrs →
      (keyAt s p = some q ∨ valueAt s p = some q ↔ q ∈ e.blocks) := by
    intro p e he hp
    have hkey : keyAt s p = some e.keyPtr := congrArg Prod.fst hp
    have hvalue : valueAt s p = some e.valuePtr := congrArg Prod.snd hp
    rw [Entry.blocks, if_neg (h.full e he), hkey, hvalue]
    simp [eq_comm]
  rw [treeBlocks, List.mem_append, List.mem_flatMap]
  constructor
  · rintro ⟨p, hp, rfl | hq⟩
    · exact Or.inl ((h.rep.inTree_iff q).mp hp)
    · obtain ⟨e, he, hep⟩ := h.entry ((h.rep.inTree_iff p).mp hp)
      exact Or.inr ⟨e, he, (hptrs he hep).mp hq⟩
  · rintro (hq | ⟨e, he, hq⟩)
    · exact ⟨q, (h.rep.inTree_iff q).mpr hq, Or.inl rfl⟩
    · have hmem : e.ptrs ∈ T.toList.map (dataAt s) := h.data ▸ List.mem_map_of_mem he
      obtain ⟨p, hp, hep⟩ := List.mem_map.mp hmem
      exact ⟨p, (h.rep.inTree_iff p).mpr hp, Or.inr ((hptrs he hep).mpr hq)⟩

theorem Ledger.noLeak_iff (h : Ledger s₀ s T es lost) (hs₀ : s₀.WF) : NoLeak s₀ s ↔ lost = [] := by
  constructor
  · -- a lost block is live, so it would be a block of the tree as well
    intro hno
    refine List.eq_nil_iff_forall_not_mem.mpr fun q hq => ?_
    have htree : q ∈ treeBlocks T es := by
      rw [← h.treeBlock_iff, ← hno, h.owns.mem_iff hs₀]
      exact List.mem_append_right _ hq
    exact (List.nodup_append.mp h.distinct).2.2 q htree q hq rfl
  · rintro rfl q
    rw [h.owns.mem_iff hs₀, h.treeBlock_iff, List.append_nil]

end NoLeak

/-! ## Whole runs -/

theorem ledger_created : Ledger created created .nil [] [] where
  toIntact := intact_created
  owns := Store.Owns.refl created
  distinct := List.nodup_nil

theorem ok_session_ledger (ops : List Op) :
    Ok (session ops) blank (fun _ s => ∃ T es lost, Ledger created s T es lost ∧
      (lost = [] ↔ Allowed (KvMap.step 0) Frugal ∅ ops)) := by
  rw [session, ok_bind, ok_of_run kvstoreRbtreeCreate_run]
  refine (ledger_created.ok_runAll holds_created.wf ops).mono ?_
  rintro rs s ⟨T, es, lost, h, hlost⟩
  rw [contents_created, and_iff_right rfl] at hlost
  exact ⟨T, es, lost, h, hlost⟩

/-- **When the tree does not leak.** Every run of calls from `kvstore_rbtree_create` on returns, so
no call frees a block twice or touches a freed one. In the state it ends in, the blocks the calls
have allocated are those of the nodes in the tree, exactly when no `set` and no `delete` of the run
named a key that was there. -/
theorem session_noLeak_iff (ops : List Op) :
    Ok (session ops) blank (fun _ s =>
      NoLeak created s ↔ Allowed (KvMap.step 0) Frugal ∅ ops) := by
  refine (ok_session_ledger ops).mono ?_
  rintro rs s ⟨T, es, lost, h, hlost⟩
  exact (h.noLeak_iff holds_created.wf).trans hlost

/-- A key is set and deleted: its blocks stay. -/
theorem session_delete_leaks :
    Ok (session [.set (CStr.lit "k") (CStr.lit "v"), .delete (CStr.lit "k")]) blank
      (fun _ s => ¬NoLeak created s) := by
  refine (ok_session_ledger _).mono ?_
  rintro rs s ⟨T, es, lost, h, hlost⟩
  rw [h.noLeak_iff holds_created.wf, hlost]
  rintro ⟨-, hdelete, -⟩
  exact hdelete (by decide)

end KvStore.Rbtree
