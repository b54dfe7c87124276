import KvStore.Rbtree.Engine
import KvStore.Rbtree.WellLinked

set_option autoImplicit false

/-! # Runs of the red-black tree engine

A client calls `kvstore_rbtree_create` and then the functions of the interface, in any order and
with any keys and values (`session`). Every call keeps the invariant `Holds` and does to the stored
bindings what the abstract store does (`ok_step`), so the same is true of every run:

* `session_isRedBlack`: the tree is a red-black search tree, whatever was called;
* `session_actsAsMap`: the engine is a finite map;
* `session_count_iff`: the counter is the number of nodes as long as no key is set twice, and an
  `int` can count them.
-/

namespace KvStore.Rbtree

open KvStore.Lib KvStore.Lib.RBTree

/-! ## The client -/

/-- A call, and what the client sees of it: it reads the string that `kvs_rbtree_get` returns. -/
def call (alloc : AllocPlan) : Op → Rb Outcome
  | .set k v => do return .code (← kvsRbtreeSet alloc (some k) (some v))
  | .get k => do return .value (← deref (← kvsRbtreeGet (some k)))
  | .delete k => do return .code (← kvsRbtreeDelete (some k))
  | .modify k v => do return .code (← kvsRbtreeModify alloc (some k) (some v))

/-- A call whose allocations succeed. -/
def step (o : Op) : Rb Outcome := call allOk o

/-- Create the tree and make the calls `ops`. -/
def session (ops : List Op) : Rb (List Outcome) := do
  let _ ← kvstoreRbtreeCreate allOk
  runAll step ops

/-! ## What is in the tree -/

/-- The nodes that can be reached from `tree->root` by child pointers, the sentinel apart. -/
inductive InTree (s : State) : Nat → Prop
  | root : s.desc.root ≠ s.desc.nil → InTree s s.desc.root
  | child {p q : Nat} {d : Side} : InTree s p → childAt s d p = some q → q ≠ s.desc.nil → InTree s q

/-- The keys and values in the order in which `rbtree_traversal` prints the nodes below `p`. -/
def traversal (s : State) : Nat → Nat → List (CStr × CStr)
  | 0, _ => []
  | n + 1, p =>
      if p = s.desc.nil then []
      else
        traversal s n ((childAt s .left p).getD s.desc.nil) ++ (keyOf s p, valueOf s p) ::
          traversal s n ((childAt s .right p).getD s.desc.nil)

/-- The nodes below `p` in that order. -/
def nodesBelow (s : State) : Nat → Nat → List Nat
  | 0, _ => []
  | n + 1, p =>
      if p = s.desc.nil then []
      else
        nodesBelow s n ((childAt s .left p).getD s.desc.nil) ++ p ::
          nodesBelow s n ((childAt s .right p).getD s.desc.nil)

/-- **The finite map that a tree in memory stands for.** -/
def contents (s : State) : KvMap := ofPairs (traversal s s.next s.desc.root)

variable {e : Entry}

section Contents

variable {s : State} {T : RBTree Nat} {es : List Entry}

theorem inTree_of_mem {par : Nat} {t : RBTree Nat} (h : Linked s par t)
    (hnil : s.desc.nil ∉ t.toList) (hp : t ≠ .nil → InTree s (ptr s.desc.nil t)) :
    ∀ a ∈ t.toList, InTree s a := by
  induction t generalizing par with
  | nil => exact nofun
  | node c l a r ihl ihr =>
      obtain ⟨-, hl, hr, -, hL, hR⟩ := h
      have ha : InTree s a := hp (by simp)
      have hnl : s.desc.nil ∉ l.toList := fun hm => hnil (by simp [toList, hm])
      have hnr : s.desc.nil ∉ r.toList := fun hm => hnil (by simp [toList, hm])
      have hne : ∀ t' : RBTree Nat, s.desc.nil ∉ t'.toList → t' ≠ .nil →
          ptr s.desc.nil t' ≠ s.desc.nil := by
        intro t' hn ht' heq
        exact hn (heq ▸ ptr_mem ht')
      intro b hb
      rw [toList, List.mem_append, List.mem_cons] at hb
      rcases hb with hb | rfl | hb
      · exact ihl hL hnl (fun ht => ha.child hl (hne l hnl ht)) b hb
      · exact ha
      · exact ihr hR hnr (fun ht => ha.child hr (hne r hnr ht)) b hb

/-- The children of a node of a tree in memory. -/
theorem Linked.child_mem {par : Nat} {t : RBTree Nat} (h : Linked s par t) {p q : Nat} {d : Side}
    (hp : p ∈ t.toList) (hq : childAt s d p = some q) : q = s.desc.nil ∨ q ∈ t.toList := by
  induction t generalizing par with
  | nil => cases hp
  | node c l a r ihl ihr =>
      obtain ⟨-, hl, hr, -, hL, hR⟩ := h
      have hsub : ∀ t' : RBTree Nat, q = ptr s.desc.nil t' → q = s.desc.nil ∨ q ∈ t'.toList := by
        rintro t' rfl
        rcases ptr_eq_nil_or_mem s.desc.nil t' with ⟨hn, -⟩ | hm
        · exact Or.inl hn
        · exact Or.inr hm
      rw [toList, List.mem_append, List.mem_cons] at hp
      simp only [toList, List.mem_append, List.mem_cons]
      rcases hp with hp | rfl | hp
      · rcases ihl hL hp with hn | hm
        · exact Or.inl hn
        · exact Or.inr (Or.inl hm)
      · cases d with
        | left =>
            rw [hl] at hq
            rcases hsub l (Option.some.inj hq).symm with hn | hm
            · exact Or.inl hn
            · exact Or.inr (Or.inl hm)
        | right =>
            rw [hr] at hq
            rcases hsub r (Option.some.inj hq).symm with hn | hm
            · exact Or.inl hn
            · exact Or.inr (Or.inr (Or.inr hm))
      · rcases ihr hR hp with hn | hm
        · exact Or.inl hn
        · exact Or.inr (Or.inr (Or.inr hm))

/-- The reachable nodes are those of the tree. -/
theorem Rep.inTree_iff (h : Rep s T) (p : Nat) : InTree s p ↔ p ∈ T.toList := by
  constructor
  · intro hp
    induction hp with
    | root hne =>
        rw [h.root] at hne ⊢
        rcases ptr_eq_nil_or_mem s.desc.nil T with ⟨hn, -⟩ | hm
        · exact absurd hn hne
        · exact hm
    | child hp hq hne ih =>
        rcases h.linked.child_mem ih hq with hn | hm
        · exact absurd hn hne
        · exact hm
  · intro hp
    refine inTree_of_mem h.linked h.nil_notMem (fun hT => ?_) p hp
    have hne : s.desc.root ≠ s.desc.nil := by
      intro heq
      rw [h.root] at heq
      exact h.nil_notMem (heq ▸ ptr_mem hT)
    rw [← h.root]
    exact InTree.root hne

theorem Rep.ncard_inTree (h : Rep s T) : {p | InTree s p}.ncard = T.toList.length := by
  have hset : {p | InTree s p} = (T.toList.toFinset : Set Nat) := by
    ext p
    simp [h.inTree_iff p]
  rw [hset, Set.ncard_coe_finset, List.toFinset_card_of_nodup h.nodup]

/-- The nodes that the traversal passes in a well-linked tree. -/
theorem Hangs.nodesBelow_eq {par p n : Nat} {L : List Nat} (h : Hangs s par p L)
    (hn : L.length ≤ n) : nodesBelow s n p = L := by
  induction h generalizing n with
  | nil => cases n <;> simp [nodesBelow]
  | @node par p l r L R hp hl hr _ _ _ ihL ihR =>
      rw [List.length_append, List.length_cons] at hn
      obtain ⟨m, rfl⟩ : ∃ m, n = m + 1 := ⟨n - 1, by omega⟩
      rw [nodesBelow, if_neg hp, hl, hr, Option.getD_some, Option.getD_some, ihL (by omega),
        ihR (by omega)]

theorem nodesBelow_eq {par n : Nat} {t : RBTree Nat} (h : Linked s par t)
    (hnil : s.desc.nil ∉ t.toList) (hn : t.toList.length ≤ n) :
    nodesBelow s n (ptr s.desc.nil t) = t.toList :=
  (h.hangs hnil).nodesBelow_eq hn

theorem traversal_eq_map (n p : Nat) :
    traversal s n p = (nodesBelow s n p).map (fun q => (keyOf s q, valueOf s q)) := by
  induction n generalizing p with
  | zero => rfl
  | succ n ih =>
      rw [traversal, nodesBelow]
      split
      · rfl
      · rw [ih, ih, List.map_append, List.map_cons]

theorem Holds.contents_eq (h : Holds s T es) : contents s = ofPairs (es.map Entry.pair) := by
  rw [contents, h.rep.root, traversal_eq_map,
    nodesBelow_eq h.rep.linked h.rep.nil_notMem h.length_lt.le,
    h.strings]

theorem Holds.mem_contents (h : Holds s T es) {k : CStr} :
    k ∈ contents s ↔ k ∈ es.map Entry.key := by
  rw [h.contents_eq, mem_ofPairs, List.map_map]
  exact Iff.rfl

theorem Holds.contents_eq_empty (h : Holds s T es) : contents s = ∅ ↔ T = .nil := by
  constructor
  · intro h0
    cases T with
    | nil => rfl
    | node c l a r =>
        obtain ⟨e, he, -⟩ := h.entry (a := a) (by simp [toList])
        have hmem := h.mem_contents.mpr (List.mem_map_of_mem he)
        rw [h0] at hmem
        exact absurd hmem Finmap.notMem_empty
  · rintro rfl
    have hnil : es = [] := List.map_eq_nil_iff.mp h.data.symm
    rw [h.contents_eq, hnil]
    rfl

theorem Holds.lookup_contents (h : Holds s T es) (he : e ∈ es) :
    (contents s).lookup e.key = some e.value := by
  rw [h.contents_eq, lookup_ofPairs h.pairs_nodup]
  exact List.mem_map_of_mem (f := Entry.pair) he

theorem Holds.length_eq (h : Holds s T es) : T.toList.length = es.length := by
  simpa using congrArg List.length h.data

end Contents

/-! ## One call -/

/-- The invariant, and no value has been lost: what holds as long as the allocations succeed. -/
structure Intact (s : State) (T : RBTree Nat) (es : List Entry) : Prop extends Holds s T es where
  full : ∀ e ∈ es, e.valuePtr ≠ 0

/-- The counter, an `int`, is `d` ahead of the number of entries. -/
def Ahead (s : State) (es : List Entry) (d : Int) : Prop := s.desc.count = int32 (es.length + d)

section Calls

variable {s s' : State} {T : RBTree Nat} {es es' : List Entry}

theorem Ahead.add {d d' c : Int} (h : Ahead s es d) (hc : s'.desc.count = int32 (s.desc.count + c))
    (hd : es'.length + d' = es.length + d + c) : Ahead s' es' d' := by
  rw [Ahead, hc, h, int32_int32_add, hd]

theorem full_middle {E₁ E₂ : List Entry} (h : ∀ e' ∈ E₁ ++ E₂, e'.valuePtr ≠ 0)
    (he : e.valuePtr ≠ 0) : ∀ e' ∈ E₁ ++ e :: E₂, e'.valuePtr ≠ 0 := by
  intro e' he'
  rcases List.mem_cons.mp (List.perm_middle.mem_iff.mp he') with rfl | he'
  · exact he
  · exact h e' he'

theorem full_drop {E₁ E₂ : List Entry} (h : ∀ e' ∈ E₁ ++ e :: E₂, e'.valuePtr ≠ 0) :
    ∀ e' ∈ E₁ ++ E₂, e'.valuePtr ≠ 0 := fun e' he' =>
  h e' (List.perm_middle.mem_iff.mpr (List.mem_cons_of_mem _ he'))

theorem Intact.ok_get (h : Intact s T es) (k : CStr) :
    Ok (kvsRbtreeGet (some k)) s (fun p s' => s' = s ∧ (p = 0 ↔ k ∉ contents s) ∧
      ∀ v, (contents s).lookup k = some v → s.cstr p = some v) := by
  refine ok_kvsRbtreeGet h.toHolds k (fun e he hk => ?_) (fun habs => ?_)
  · subst hk
    have hpos := h.full e he
    have hv := (h.stored e he).2.resolve_right fun hv => hpos hv.1
    refine ⟨rfl, ⟨fun h0 => absurd h0 hpos, fun habs => ?_⟩, fun v hl => ?_⟩
    · exact absurd (h.mem_contents.mpr (List.mem_map_of_mem he)) habs
    · rw [h.lookup_contents he] at hl
      rw [hv, hl]
  · rw [← h.mem_contents] at habs
    refine ⟨rfl, by simp [habs], fun v hl => ?_⟩
    exact absurd (Finmap.mem_of_lookup_eq_some hl) habs

theorem Intact.ok_set (h : Intact s T es) (k v : CStr) :
    Ok (kvsRbtreeSet allOk (some k) (some v)) s (fun r s' => r = 0 ∧
      contents s' = (if k ∈ contents s then contents s else (contents s).insert k v) ∧
        ∃ T' es', Intact s' T' es' ∧
          ∀ d, Ahead s es d → Ahead s' es' (d + if k ∈ contents s then 1 else 0)) := by
  refine ok_kvsRbtreeSet h.toHolds allOk k v (fun s' hfail => absurd ⟨rfl, rfl, rfl⟩ hfail)
    (fun s' hk hs' hc _ _ => ?_) (fun s' T' E₁ e E₂ hE hk he he0 hs' hc _ _ => ?_)
  · rw [← h.mem_contents] at hk
    refine ⟨rfl, ?_, T, es, ⟨hs', h.full⟩, ?_⟩
    · rw [if_pos hk, hs'.contents_eq, h.contents_eq]
    · intro d hd
      rw [if_pos hk]
      exact hd.add hc (by omega)
  · rw [← h.mem_contents] at hk
    subst hE
    refine ⟨rfl, ?_, T', _, ⟨hs', full_middle h.full he0⟩, ?_⟩
    · have hnd := hs'.pairs_nodup
      rw [List.map_append, List.map_cons, he] at hnd
      rw [if_neg hk, hs'.contents_eq, h.contents_eq, List.map_append, List.map_cons, he,
        ofPairs_middle hnd, List.map_append]
    · intro d hd
      rw [if_neg hk]
      refine hd.add hc ?_
      simp only [List.length_append, List.length_cons]
      omega

theorem Intact.ok_delete (h : Intact s T es) (k : CStr) :
    Ok (kvsRbtreeDelete (some k)) s (fun r s' =>
      (if k ∈ contents s then r = 0 ∧ contents s' = (contents s).erase k
        else r = -1 ∧ contents s' = contents s) ∧
          ∃ T' es', Intact s' T' es' ∧ ∀ d, Ahead s es d → Ahead s' es' d) := by
  refine ok_kvsRbtreeDelete h.toHolds k (fun s' T' E₁ e E₂ hE hk hs' hc _ _ => ?_) (fun hk => ?_)
  · subst hE hk
    have hmem : e.key ∈ contents s := h.mem_contents.mpr (by simp)
    refine ⟨?_, T', _, ⟨hs', full_drop h.full⟩, ?_⟩
    · have hnd := h.pairs_nodup
      rw [List.map_append, List.map_cons] at hnd
      rw [if_pos hmem, hs'.contents_eq, h.contents_eq, List.map_append, List.map_append,
        List.map_cons]
      exact ⟨rfl, ofPairs_drop hnd⟩
    · intro d hd
      refine hd.add hc ?_
      simp only [List.length_append, List.length_cons]
      omega
  · rw [← h.mem_contents] at hk
    rw [if_neg hk]
    exact ⟨⟨rfl, rfl⟩, T, es, h, fun _ => id⟩

theorem Intact.ok_modify (h : Intact s T es) (k v : CStr) :
    Ok (kvsRbtreeModify allOk (some k) (some v)) s (fun r s' =>
      (if k ∈ contents s then r = 0 ∧ contents s' = (contents s).insert k v
        else r = -1 ∧ contents s' = contents s) ∧
          ∃ T' es', Intact s' T' es' ∧ ∀ d, Ahead s es d → Ahead s' es' d) := by
  refine ok_kvsRbtreeModify h.toHolds allOk k v (fun s' E₁ e e' E₂ _ hE hk he' he0 hs' hd _ _ => ?_)
    (fun s' E₁ e e' E₂ hfail => absurd hfail (by simp [allOk])) (fun hk => ?_)
  · subst hE hk
    have hmem : e.key ∈ contents s := h.mem_contents.mpr (by simp)
    refine ⟨?_, T, _, ⟨hs', full_middle (full_drop h.full) he0⟩, ?_⟩
    · have hnd := h.pairs_nodup
      rw [List.map_append, List.map_cons] at hnd
      rw [if_pos hmem, hs'.contents_eq, h.contents_eq, List.map_append, List.map_cons, he',
        List.map_append, List.map_cons]
      exact ⟨rfl, ofPairs_change hnd⟩
    · intro d hc
      rw [Ahead, hd, hc]
      simp
  · rw [← h.mem_contents] at hk
    rw [if_neg hk]
    exact ⟨⟨rfl, rfl⟩, T, es, h, fun _ => id⟩

/-- **One call** does what the abstract store does, and keeps the invariant; the counter moves away
from the number of nodes with every `set` of a key that is there. -/
theorem Intact.ok_step (h : Intact s T es) (o : Op) :
    Ok (step o) s (fun r s' => (r, contents s') = KvMap.step 0 (contents s) o ∧
      ∃ T' es', Intact s' T' es' ∧
        ∀ d, Ahead s es d → Ahead s' es' (d + if (contents s).Fresh o then 0 else 1)) := by
  cases o with
  | set k v =>
      rw [step, call, ok_bind]
      refine (h.ok_set k v).mono ?_
      rintro r s' ⟨rfl, hm, T', es', hs', hc⟩
      refine (ok_pure ..).mpr ⟨KvMap.eq_step_set ?_, T', es', hs', ?_⟩
      · rw [hm]
        split_ifs <;> exact ⟨rfl, rfl⟩
      · by_cases hk : k ∈ contents s <;> simpa [KvMap.Fresh, hk] using hc
  | get k =>
      rw [step, call, ok_bind]
      refine (h.ok_get k).mono ?_
      rintro p s' ⟨rfl, hp, hv⟩
      rw [ok_bind, ok_deref hp hv, ok_pure]
      exact ⟨rfl, T, es, h, by simp [KvMap.Fresh]⟩
  | delete k =>
      rw [step, call, ok_bind]
      refine (h.ok_delete k).mono ?_
      rintro r s' ⟨hr, T', es', hs', hc⟩
      exact (ok_pure ..).mpr
        ⟨KvMap.eq_step_delete hr, T', es', hs', by simpa [KvMap.Fresh] using hc⟩
  | modify k v =>
      rw [step, call, ok_bind]
      refine (h.ok_modify k v).mono ?_
      rintro r s' ⟨hr, T', es', hs', hc⟩
      exact (ok_pure ..).mpr
        ⟨KvMap.eq_step_modify hr, T', es', hs', by simpa [KvMap.Fresh] using hc⟩

end Calls

/-! ## Whole runs -/

theorem contents_created : contents created = ∅ := holds_created.contents_eq

theorem intact_created : Intact created .nil [] := ⟨holds_created, nofun⟩

/-- **A run** of calls does what the abstract store does, keeps the invariant, and moves the counter
away from the number of nodes with every `set` of a key that is there. -/
theorem Intact.ok_runAll {s : State} {T : RBTree Nat} {es : List Entry} (h : Intact s T es)
    (ops : List Op) :
    Ok (runAll step ops) s (fun outs s' =>
      (outs, contents s') = specRun (KvMap.step 0) (contents s) ops ∧
        ∃ T' es', Intact s' T' es' ∧
          ∀ d, Ahead s es d → Ahead s' es' (d + KvMap.repeats 0 (contents s) ops)) := by
  induction ops generalizing s T es with
  | nil => exact ⟨[], s, rfl, rfl, T, es, h, by simp [KvMap.repeats]⟩
  | cons o ops ih =>
      obtain ⟨r, s₁, ho, hr, T₁, es₁, h₁, hc₁⟩ := h.ok_step o
      obtain ⟨rs, s₂, hrun, hrs, T₂, es₂, h₂, hc₂⟩ := ih h₁
      rw [Prod.ext_iff] at hr hrs
      dsimp only at hr hrs
      refine ⟨r :: rs, s₂, runAll_cons_ok.mpr ⟨r, s₁, rs, ho, hrun, rfl⟩, ?_, T₂, es₂, h₂, ?_⟩
      · rw [specRun, ← hr.1, ← hr.2, ← hrs.1, ← hrs.2]
      · intro d hd
        have hd₂ := hc₂ _ (hc₁ d hd)
        rw [KvMap.repeats, ← hr.2]
        push_cast
        rwa [← add_assoc]

theorem ok_session (ops : List Op) :
    Ok (session ops) blank (fun outs s =>
      (outs, contents s) = specRun (KvMap.step 0) ∅ ops ∧
        ∃ T es, Intact s T es ∧ Ahead s es (KvMap.repeats 0 ∅ ops)) := by
  rw [session, ok_bind, ok_of_run kvstoreRbtreeCreate_run]
  refine (intact_created.ok_runAll ops).mono ?_
  rintro outs s ⟨hrun, T, es, hs, hc⟩
  rw [contents_created] at hrun hc
  have h0 : Ahead created [] 0 := rfl
  exact ⟨hrun, T, es, hs, by simpa using hc 0 h0⟩

/-- **The red-black invariant over whole runs.** After any calls of the interface, the nodes that
can be reached from `tree->root` form a finite tree with consistent child and parent pointers
(`Rep`, which also says that the sentinel is black and outside the tree), in strict `strcmp` order,
with a black root below the sentinel, no red node with a red child, and as many black nodes on every
path down. -/
theorem session_isRedBlack (ops : List Op) :
    Ok (session ops) blank (fun _ s => ∃ T : RBTree Nat,
      (∀ p, InTree s p ↔ p ∈ T.toList) ∧ Rep s T ∧
        (s.desc.root ≠ s.desc.nil →
          colorAt s s.desc.root = some .black ∧ parentAt s s.desc.root = some s.desc.nil) ∧
          T.NoRedRed ∧ (∃ n, T.BlackHeight n) ∧
            (∀ a ∈ T.toList, Keyed s a) ∧ T.IsSearchTree (keyOf s) ∧
              T.toList.Pairwise (fun a b => CStr.strcmp (keyOf s a) (keyOf s b) < 0)) := by
  refine (ok_session ops).mono ?_
  rintro outs s ⟨-, T, es, h, -⟩
  have hord := h.ordered
  refine ⟨T, h.rep.inTree_iff, h.rep, fun hne => ?_, h.redBlack.noRedRed, h.redBlack.blackHeight,
    hord.keyed, hord.sorted, ?_⟩
  · have hT : T ≠ .nil := by
      rintro rfl
      exact hne h.rep.root
    have hcol := Rep.color_focus (k := []) h.rep
    have hpar := Rep.parent_focus (k := []) h.rep hT
    rw [h.redBlack.root_black, ← h.rep.root] at hcol
    rw [← h.rep.root] at hpar
    exact ⟨hcol, hpar⟩
  · have hsorted := (isSearchTree_iff _ _).mp hord.sorted
    exact hsorted.imp fun hlt => (CStr.strcmp_neg_iff ..).mpr hlt

/-- In the state `s` the engine is the finite map `abs s`. -/
structure ActsAsMap (abs : State → KvMap) (s : State) : Prop where
  get : ∀ k, Ok (kvsRbtreeGet (some k)) s (fun p s' => s' = s ∧ (p = 0 ↔ k ∉ abs s) ∧
    ∀ v, (abs s).lookup k = some v → s.cstr p = some v)
  set : ∀ k v, Ok (kvsRbtreeSet allOk (some k) (some v)) s (fun _ s' =>
    abs s' = if k ∈ abs s then abs s else (abs s).insert k v)
  delete : ∀ k, Ok (kvsRbtreeDelete (some k)) s (fun r s' =>
    if k ∈ abs s then r = 0 ∧ abs s' = (abs s).erase k else r = -1 ∧ abs s' = abs s)
  modify : ∀ k v, Ok (kvsRbtreeModify allOk (some k) (some v)) s (fun r s' =>
    if k ∈ abs s then r = 0 ∧ abs s' = (abs s).insert k v else r = -1 ∧ abs s' = abs s)

/-- **The engine refines a finite map**: `contents` reads the map off the memory; it is empty after
`kvstore_rbtree_create`, every run has the outcomes and the final contents of the abstract store,
and in the state it ends in every further call acts on the contents as on a map. -/
theorem session_actsAsMap :
    contents created = ∅ ∧ ∀ ops : List Op, Ok (session ops) blank (fun outs s =>
      (outs, contents s) = specRun (KvMap.step 0) ∅ ops ∧ ActsAsMap contents s) := by
  refine ⟨contents_created, fun ops => (ok_session ops).mono ?_⟩
  rintro outs s ⟨hrun, T, es, h, -⟩
  refine ⟨hrun, h.ok_get, fun k v => ?_, fun k => ?_, fun k v => ?_⟩
  · exact (h.ok_set k v).mono fun r s' hr => hr.2.1
  · exact (h.ok_delete k).mono fun r s' hr => hr.1
  · exact (h.ok_modify k v).mono fun r s' hr => hr.1

theorem Holds.card_contents {s : State} {T : RBTree Nat} {es : List Entry} (h : Holds s T es) :
    (contents s).keys.card = es.length := by
  rw [h.contents_eq, card_keys_ofPairs h.pairs_nodup, List.length_map]

/-- There is a node for every key, and the counter, an `int`, is their number and, on top, one for
every `set` of a key that was there. -/
theorem session_count (ops : List Op) :
    Ok (session ops) blank (fun _ s =>
      {p | InTree s p}.ncard = (specRun (KvMap.step 0) ∅ ops).2.keys.card ∧
        s.desc.count = int32 ({p | InTree s p}.ncard + KvMap.repeats 0 ∅ ops)) := by
  refine (ok_session ops).mono ?_
  rintro outs s ⟨hrun, T, es, h, hc⟩
  rw [h.rep.ncard_inTree, h.length_eq, ← hrun, h.card_contents]
  exact ⟨rfl, hc⟩

/-- **What `kvs_rbtree_count` counts**: the number of nodes, in every state of a run exactly when no
`set` of the run names a key that is there, or adds one to `INT_MAX` others. -/
theorem session_count_iff (ops : List Op) :
    (∀ ops', ops' <+: ops → Ok (session ops') blank (fun _ s =>
      Ok kvsRbtreeCount s (fun n _ => n = {p | InTree s p}.ncard))) ↔
        Allowed (KvMap.step 0) KvMap.Countable ∅ ops := by
  rw [← KvMap.countRight_iff 0 (by decide)]
  refine forall₂_congr fun ops' _ => ?_
  obtain ⟨outs, s, hrun, hnodes, hc⟩ := session_count ops'
  rw [ok_of_run hrun, kvsRbtreeCount, ok_bind, ok_readDesc, ok_pure, hc, hnodes]
  exact Iff.rfl

/-- Two `set`s of one key leave one node, and the counter at two. -/
theorem session_count_repeated :
    Ok (session [.set (CStr.lit "k") (CStr.lit "a"), .set (CStr.lit "k") (CStr.lit "b")]) blank
      (fun _ s => Ok kvsRbtreeCount s (fun n _ => n = 2) ∧ {p | InTree s p}.ncard = 1) := by
  refine (ok_session _).mono ?_
  rintro outs s ⟨hrun, T, es, h, hc⟩
  have hm : contents s = _ := congrArg Prod.snd hrun
  have hlen : es.length = 1 := by
    rw [← h.card_contents, hm]
    decide
  refine ⟨?_, by rw [h.rep.ncard_inTree, h.length_eq, hlen]⟩
  rw [kvsRbtreeCount, ok_bind, ok_readDesc, ok_pure, hc, hlen]
  decide

/-! ## Runs in which allocations may fail -/

/-- The states that calls lead to, with any outcome of their allocations. -/
def Reachable (s : State) : Prop := Reach (fun c : AllocPlan × Op => call c.1 c.2) created s

/-- A node of the tree has the key `k` and a block with the value `v`. -/
def HasValue (s : State) (k v : CStr) : Prop :=
  ∃ p, InTree s p ∧ keyOf s p = k ∧ (valueAt s p).bind s.cstr = some v

/-- `kvs_rbtree_get` of the key returns a string equal to `v`. -/
def Reads (s : State) (k v : CStr) : Prop :=
  Ok (call allOk (.get k)) s (fun r _ => r = .value (some v))

section Failures

variable {s s' : State} {T : RBTree Nat} {es : List Entry} {k v : CStr}

theorem Entry.Stored.ok_deref (h : e.Stored s) (hs : s.WF) (Q : Option CStr → State → Prop) :
    Ok (deref e.valuePtr) s Q ↔ Q (s.cstr e.valuePtr) s := by
  rw [deref]
  rcases h.2 with hv | ⟨h0, -⟩
  · have hpos := hs.str_bound _ (Store.live_of_cstr hv)
    rw [if_neg (by omega), ok_bind, ok_readStr hv, ok_pure, hv]
  · rw [if_pos h0, ok_pure, h0, hs.cstr_null]

theorem code_of_run {alloc : AllocPlan} {o : Op} {out : Outcome} (ho : ∀ k, o ≠ .get k)
    (h : (call alloc o).run s = .ok (out, s')) : ∃ r, out = .code r := by
  have hcode : Returns (call alloc o) s (fun out _ => ∃ r, out = .code r) := by
    cases o with
    | get k => exact absurd rfl (ho k)
    | set k v => exact returns_bind fun r s' _ => ((ok_pure ..).mpr ⟨r, rfl⟩).returns
    | delete k => exact returns_bind fun r s' _ => ((ok_pure ..).mpr ⟨r, rfl⟩).returns
    | modify k v => exact returns_bind fun r s' _ => ((ok_pure ..).mpr ⟨r, rfl⟩).returns
  exact hcode out s' h

/-- Every call keeps the invariant, and spares the sentinel and the strings that belong to no
entry. -/
theorem Holds.ok_call (h : Holds s T es) (alloc : AllocPlan) (o : Op) :
    Ok (call alloc o) s (fun _ s' => ∃ T' es', Holds s' T' es' ∧ Spares s s' es es') := by
  cases o with
  | set k v =>
      rw [call, ok_bind]
      refine ok_kvsRbtreeSet h alloc k v (fun s' _ hs' _ hsp => ?_) (fun s' _ hs' _ _ hsp => ?_)
        (fun s' T' E₁ e E₂ _ _ _ _ hs' _ _ hsp => ?_)
      · exact (ok_pure ..).mpr ⟨T, es, hs', hsp⟩
      · exact (ok_pure ..).mpr ⟨T, es, hs', hsp⟩
      · exact (ok_pure ..).mpr ⟨T', _, hs', hsp⟩
  | get k =>
      rw [call, ok_bind]
      refine ok_kvsRbtreeGet h k (fun e he _ => ?_) (fun _ => ?_)
      · rw [ok_bind, (h.stored e he).ok_deref h.wf, ok_pure]
        exact ⟨T, es, h, Spares.refl s es⟩
      · exact (ok_pure ..).mpr ⟨T, es, h, Spares.refl s es⟩
  | delete k =>
      rw [call, ok_bind]
      refine ok_kvsRbtreeDelete h k (fun s' T' E₁ e E₂ _ _ hs' _ _ hsp => ?_) (fun _ => ?_)
      · exact (ok_pure ..).mpr ⟨T', _, hs', hsp⟩
      · exact (ok_pure ..).mpr ⟨T, es, h, Spares.refl s es⟩
  | modify k v =>
      rw [call, ok_bind]
      refine ok_kvsRbtreeModify h alloc k v (fun s' E₁ e e' E₂ _ _ _ _ _ hs' _ _ hsp => ?_)
        (fun s' E₁ e e' E₂ _ _ _ _ _ hs' _ hsp => ?_) (fun _ => ?_)
      · exact (ok_pure ..).mpr ⟨T, _, hs', hsp⟩
      · exact (ok_pure ..).mpr ⟨T, _, hs', hsp⟩
      · exact (ok_pure ..).mpr ⟨T, es, h, Spares.refl s es⟩

theorem ok_calls (cs : List (AllocPlan × Op)) :
    Ok (runAll (fun c => call c.1 c.2) cs) created (fun _ s' => ∃ T' es', Holds s' T' es') := by
  refine Ok.runAll (P := fun _ => True) (fun s => ∃ T es, Holds s T es) ?_ cs created
    (fun _ _ => trivial) ⟨_, _, holds_created⟩
  rintro c s - ⟨T, es, hs⟩
  refine (hs.ok_call c.1 c.2).mono ?_
  rintro r s' ⟨T', es', hs', -⟩
  exact ⟨T', es', hs'⟩

/-- The memory after the calls. -/
def afterCalls (cs : List (AllocPlan × Op)) : State :=
  match (runAll (fun c => call c.1 c.2) cs).run created with
  | .ok (_, s) => s
  | .error _ => created

theorem reachable_afterCalls (cs : List (AllocPlan × Op)) : Reachable (afterCalls cs) := by
  obtain ⟨rs, s, hrun, -⟩ := ok_calls cs
  have hs : afterCalls cs = s := by rw [afterCalls, hrun]
  exact ⟨cs, rs, hs ▸ hrun⟩

/-- Three calls that make the node of `b` with those of `a` and `c` below it. -/
def threeSets : List (AllocPlan × Op) :=
  [(allOk, .set (CStr.lit "b") (CStr.lit "1")), (allOk, .set (CStr.lit "a") (CStr.lit "2")),
    (allOk, .set (CStr.lit "c") (CStr.lit "3"))]

theorem inTree_threeSets : InTree (afterCalls threeSets) 3 := by
  have hroot : (afterCalls threeSets).desc.root = 3 := by decide +kernel
  have hnil : (afterCalls threeSets).desc.nil = 1 := by decide +kernel
  have hin : InTree (afterCalls threeSets) (afterCalls threeSets).desc.root := by
    refine .root ?_
    rw [hroot, hnil]
    decide
  rwa [hroot] at hin

theorem Reachable.holds (h : Reachable s) : ∃ T es, Holds s T es := by
  refine Reach.invariant (I := fun s => ∃ T es, Holds s T es) (fun c s r s' hI hrun => ?_)
    ⟨_, _, holds_created⟩ h
  obtain ⟨T, es, hs⟩ := hI
  obtain ⟨T', es', hs', -⟩ := (hs.ok_call c.1 c.2).returns r s' hrun
  exact ⟨T', es', hs'⟩

theorem Entry.Stored.cstr_value_iff (h : e.Stored s) (hs : s.WF) :
    s.cstr e.valuePtr = some v ↔ e.valuePtr ≠ 0 ∧ e.value = v := by
  rcases h.2 with hv | ⟨h0, -⟩
  · have hpos := hs.str_bound _ (Store.live_of_cstr hv)
    rw [hv, Option.some.injEq, and_iff_right (by omega)]
  · simp [h0, hs.cstr_null]

theorem Holds.hasValue_iff (h : Holds s T es) :
    HasValue s k v ↔ ∃ e ∈ es, e.key = k ∧ e.valuePtr ≠ 0 ∧ e.value = v := by
  -- the value of a node is that of its entry
  have hnode : ∀ {p : Nat} {e : Entry}, e ∈ es → dataAt s p = e.ptrs →
      (keyOf s p = k ∧ (valueAt s p).bind s.cstr = some v ↔
        e.key = k ∧ e.valuePtr ≠ 0 ∧ e.value = v) := by
    intro p e he hp
    have hst := h.stored e he
    have hvalue : valueAt s p = some e.valuePtr := congrArg Prod.snd hp
    rw [(hst.keyOf_eq hp).2, hvalue, Option.bind_some, hst.cstr_value_iff h.wf]
  constructor
  · rintro ⟨p, hp, hkv⟩
    obtain ⟨e, he, hep⟩ := h.entry ((h.rep.inTree_iff p).mp hp)
    exact ⟨e, he, (hnode he hep).mp hkv⟩
  · rintro ⟨e, he, hkv⟩
    have hmem : e.ptrs ∈ T.toList.map (dataAt s) := h.data ▸ List.mem_map_of_mem he
    obtain ⟨p, hp, hep⟩ := List.mem_map.mp hmem
    exact ⟨p, (h.rep.inTree_iff p).mpr hp, (hnode he hep).mpr hkv⟩

/-- What a get finds. -/
theorem Holds.ok_getCall (h : Holds s T es) (alloc : AllocPlan) (k : CStr) :
    Ok (call alloc (.get k)) s (fun out s' => s' = s ∧ ∃ o, out = .value o ∧
      ∀ v, o = some v ↔ ∃ e ∈ es, e.key = k ∧ e.valuePtr ≠ 0 ∧ e.value = v) := by
  rw [call, ok_bind]
  refine ok_kvsRbtreeGet h k (fun e he hek => ?_) (fun habs => ?_)
  · rw [ok_bind, (h.stored e he).ok_deref h.wf, ok_pure]
    refine ⟨rfl, _, rfl, fun v => ?_⟩
    rw [(h.stored e he).cstr_value_iff h.wf]
    constructor
    · intro hv
      exact ⟨e, he, hek, hv⟩
    · rintro ⟨e', he', hek', hv⟩
      have heq : e' = e := List.inj_on_of_nodup_map h.keys_nodup he' he (hek'.trans hek.symm)
      exact heq ▸ hv
  · refine (ok_pure ..).mpr ⟨rfl, none, rfl, fun v => iff_of_false (by simp) ?_⟩
    rintro ⟨e, he, hek, -⟩
    exact habs (hek ▸ List.mem_map_of_mem he)

theorem Holds.reads_iff (h : Holds s T es) :
    Reads s k v ↔ ∃ e ∈ es, e.key = k ∧ e.valuePtr ≠ 0 ∧ e.value = v := by
  obtain ⟨r, s', hrun, -, o, rfl, ho⟩ := h.ok_getCall allOk k
  rw [Reads, ok_of_run hrun, Outcome.value.injEq]
  exact ho v

/-- A `set` that returned `0` can be read back exactly when the key was not there, or had this value
already. -/
theorem Reachable.set_reads_iff (hs : Reachable s) {alloc : AllocPlan}
    (hset : (kvsRbtreeSet alloc (some k) (some v)).run s = .ok (0, s')) :
    Reads s' k v ↔ k ∉ contents s ∨ Reads s k v := by
  obtain ⟨T, es, h⟩ := hs.holds
  have hok : Ok (kvsRbtreeSet alloc (some k) (some v)) s (fun r s' => r = 0 →
      (Reads s' k v ↔ k ∉ contents s ∨ Reads s k v)) := by
    refine ok_kvsRbtreeSet h alloc k v (fun s' _ _ _ _ h0 => absurd h0 (by decide))
      (fun s' hk hs' _ _ _ _ => ?_) (fun s' T' E₁ e E₂ _ hk he he0 hs' _ _ _ _ => ?_)
    · -- the key was there, and its entry is what it was
      rw [← h.mem_contents] at hk
      rw [hs'.reads_iff, h.reads_iff, or_iff_right (not_not.mpr hk)]
    · rw [← h.mem_contents] at hk
      refine iff_of_true (hs'.reads_iff.mpr ⟨e, by simp, ?_, he0, ?_⟩) (Or.inl hk)
      · exact congrArg Prod.fst he
      · exact congrArg Prod.snd he
  exact hok.returns 0 s' hset rfl

end Failures

end KvStore.Rbtree
