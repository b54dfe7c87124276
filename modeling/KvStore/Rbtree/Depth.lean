import KvStore.Rbtree.Runs

set_option autoImplicit false

/-! # The depth of the tree

A path from `tree->root` to the sentinel in a tree of `n` nodes has at most `2 * log2 (n + 1)`
nodes, and the two loops that go down the tree, those of `rbtree_search` and `rbtree_insert`, make
at most as many iterations (`depth_logarithmic`).
-/

namespace KvStore.Rbtree

open KvStore.Lib KvStore.Lib.RBTree

/-! ## Paths -/

/-- The nodes on a way down from `p` to the sentinel. -/
inductive PathToNil (s : State) : Nat → List Nat → Prop
  | nil : PathToNil s s.desc.nil []
  | down {p q : Nat} {d : Side} {L : List Nat} : p ≠ s.desc.nil → childAt s d p = some q →
      PathToNil s q L → PathToNil s p (p :: L)

variable {s : State}

theorem PathToNil.length_le {par : Nat} {t : RBTree Nat} (h : Linked s par t)
    {L : List Nat} (hL : PathToNil s (ptr s.desc.nil t) L) : L.length ≤ t.depth := by
  induction t generalizing par L with
  | nil =>
      cases hL with
      | nil => exact le_rfl
      | down hne _ _ => exact absurd rfl hne
  | node c l a r ihl ihr =>
      obtain ⟨-, hl, hr, -, hLl, hLr⟩ := h
      generalize hp : ptr s.desc.nil (node c l a r) = p at hL
      cases hL with
      | nil => exact Nat.zero_le _
      | @down _ q d L' _ hq hL' =>
          obtain rfl : a = p := hp
          rw [depth, List.length_cons]
          cases d with
          | left =>
              rw [hl] at hq
              obtain rfl := Option.some.inj hq
              have := ihl hLl hL'
              omega
          | right =>
              rw [hr] at hq
              obtain rfl := Option.some.inj hq
              have := ihr hLr hL'
              omega

/-! ## Loops that go down -/

section Loops

variable {α ρ : Type}

/-- Every iteration of the loop goes from a node to one of its children; `pos` is the node. -/
def Descends (pos : α → Nat) (step : α → Rb (α ⊕ ρ)) : Prop :=
  ∀ a s, Returns (step a) s fun x s' =>
    ∀ a', x = .inl a' → s' = s ∧ pos a ≠ s.desc.nil ∧ ∃ d, childAt s d (pos a) = some (pos a')

/-- Such a loop makes no more iterations than the tree is deep. -/
theorem Descends.run_loop {pos : α → Nat} {step : α → Rb (α ⊕ ρ)}
    (h : Descends pos step) {par : Nat} {t : RBTree Nat} (hL : Linked s par t) {a : α}
    (ha : pos a = ptr s.desc.nil t) {n m : Nat} (hn : t.depth ≤ n) (hm : t.depth ≤ m) :
    (loop step (n + 1) a).run s = (loop step (m + 1) a).run s := by
  induction t generalizing a n m par with
  | nil =>
      refine run_loop_congr fun a' s' hstep => ?_
      obtain ⟨-, hne, -⟩ := h a s _ s' hstep a' rfl
      exact absurd ha hne
  | node c l b r ihl ihr =>
      obtain ⟨-, hl, hr, -, hLl, hLr⟩ := hL
      rw [depth] at hn hm
      obtain ⟨n, rfl⟩ : ∃ n', n = n' + 1 := ⟨n - 1, by omega⟩
      obtain ⟨m, rfl⟩ : ∃ m', m = m' + 1 := ⟨m - 1, by omega⟩
      refine run_loop_congr fun a' s' hstep => ?_
      obtain ⟨rfl, -, d, hd⟩ := h a s _ s' hstep a' rfl
      rw [ha] at hd
      cases d with
      | left => exact ihl hLl (Option.some.inj (hd.symm.trans hl)) (by omega) (by omega)
      | right => exact ihr hLr (Option.some.inj (hd.symm.trans hr)) (by omega) (by omega)

theorem Descends.run_whileLoop {pos : α → Nat} {step : α → Rb (α ⊕ ρ)} (h : Descends pos step)
    {T : RBTree Nat} (hT : Rep s T) (hbound : T.toList.length ≤ s.next) {a : α}
    (ha : pos a = s.desc.root) {n : Nat} (hn : T.depth ≤ n) :
    (loop step (n + 1) a).run s = (whileLoop step a).run s :=
  h.run_loop hT.linked (ha.trans hT.root) hn (T.depth_le_length.trans hbound)

end Loops

theorem returns_getNil {Q : Nat → State → Prop} (h : Q s.desc.nil s) :
    Returns getNil s Q := ((ok_getNil ..).mpr h).returns

theorem returns_strcmpKeys {a b : Nat} {Q : Int → State → Prop} (h : ∀ c, Q c s) :
    Returns (strcmpKeys a b) s Q := by
  refine returns_bind (returns_readField fun ka _ => ?_)
  refine returns_bind (returns_readStr fun va _ => ?_)
  refine returns_bind (returns_readField fun kb _ => ?_)
  exact returns_bind (returns_readStr fun vb _ => returns_pure (h _))

theorem returns_argStr {v : Option CStr} {Q : CStr → State → Prop} (h : ∀ x, Q x s) :
    Returns (argStr v) s Q := by
  cases v with
  | none => exact returns_throw _ s Q
  | some x => exact returns_pure (h x)

theorem descends_searchStep (key : Option CStr) : Descends id (searchStep key) := by
  intro p s
  have hdown : ∀ d, p ≠ s.desc.nil → Returns (do return .inl (← getChild d p) : Rb (Nat ⊕ Nat)) s
      fun x s' => ∀ q, x = .inl q → s' = s ∧ p ≠ s.desc.nil ∧ ∃ d, childAt s d p = some q := by
    intro d hne
    refine returns_bind (returns_readField fun q hq => returns_pure ?_)
    rintro q' ⟨⟩
    exact ⟨rfl, hne, d, hq⟩
  unfold searchStep
  refine returns_bind (returns_getNil ?_)
  split_ifs with hne
  · refine returns_bind (returns_argStr fun x => ?_)
    refine returns_bind (returns_readField fun k _ => ?_)
    refine returns_bind (returns_readStr fun y _ => ?_)
    dsimp only
    split_ifs
    · exact hdown .left hne
    · exact hdown .right hne
    · exact returns_pure nofun
  · exact returns_bind (returns_getNil (returns_pure nofun))

theorem descends_descendStep (z : Nat) : Descends Prod.fst (descendStep z) := by
  rintro ⟨p, y⟩ s
  have hdown : ∀ d, p ≠ s.desc.nil →
      Returns (do return .inl (← getChild d p, p) : Rb (Nat × Nat ⊕ Option Nat)) s fun x s' =>
        ∀ a, x = .inl a → s' = s ∧ p ≠ s.desc.nil ∧ ∃ d, childAt s d p = some a.1 := by
    intro d hne
    refine returns_bind (returns_readField fun q hq => returns_pure ?_)
    rintro a ⟨⟩
    exact ⟨rfl, hne, d, hq⟩
  unfold descendStep
  refine returns_bind (returns_getNil ?_)
  split_ifs with hne
  · refine returns_bind (returns_strcmpKeys fun c => ?_)
    split_ifs
    · exact hdown .left hne
    · refine returns_bind (returns_strcmpKeys fun c' => ?_)
      split_ifs
      · exact hdown .right hne
      · exact returns_pure nofun
  · exact returns_pure nofun

/-! ## The bound -/

/-- **Logarithmic depth**: in every tree that calls can build, of `n` nodes, a path from the root to
the sentinel has at most `2 * log2 (n + 1)` nodes. The loop of `rbtree_search` leaves after as many
iterations at the latest, whatever the key, and so does the loop of `rbtree_insert` when
`kvs_rbtree_set` calls it. -/
theorem depth_logarithmic {s : State} (hs : Reachable s) {n : Nat}
    (hn : {p | InTree s p}.ncard = n) :
    (∀ L, PathToNil s s.desc.root L → L.length ≤ 2 * Nat.log 2 (n + 1)) ∧
      (∀ k, ∃ node, (rbtreeSearch (some k)).run s = .ok (node, s) ∧
        (loop (searchStep (some k)) (2 * Nat.log 2 (n + 1) + 1) s.desc.root).run s
          = .ok (node, s)) ∧
      (∀ k v, ∃ y, (whileLoop (descendStep s.next) (s.desc.root, s.desc.nil)).run (staged s k v)
          = .ok (y, staged s k v) ∧
        (loop (descendStep s.next) (2 * Nat.log 2 (n + 1) + 1) (s.desc.root, s.desc.nil)).run
          (staged s k v) = .ok (y, staged s k v)) := by
  obtain ⟨T, es, h⟩ := hs.holds
  have hdepth : T.depth ≤ 2 * Nat.log 2 (n + 1) := by
    rw [← hn, h.rep.ncard_inTree]
    exact h.redBlack.depth_le
  refine ⟨fun L hL => ?_, fun k => ?_, fun k v => ?_⟩
  · rw [h.rep.root] at hL
    exact (hL.length_le h.rep.linked).trans hdepth
  · have hok : Ok (rbtreeSearch (some k)) s (fun _ s' => s' = s) :=
      ok_rbtreeSearch h.rep h.ordered h.length_lt.le k (fun _ _ _ => rfl) (fun _ => rfl)
    obtain ⟨node, s', hrun, rfl⟩ := hok
    refine ⟨node, hrun, ?_⟩
    rw [(descends_searchStep (some k)).run_whileLoop h.rep h.length_lt.le rfl hdepth]
    exact hrun
  · have hst : Holds (staged s k v) T es := h.grows (staged_grows h.wf) (staged_wf h.wf)
    have hz : Keyed (staged s k v) s.next :=
      (keyed_of_cstr (congrArg Prod.fst staged_dataAt) staged_key).1
    have hok : Ok (whileLoop (descendStep s.next) (s.desc.root, s.desc.nil)) (staged s k v)
        (fun _ s' => s' = staged s k v) :=
      ok_descend hst.rep hst.ordered hst.length_lt.le hz (fun _ => rfl) (fun _ _ _ => rfl)
    obtain ⟨y, s', hrun, rfl⟩ := hok
    refine ⟨y, hrun, ?_⟩
    rw [(descends_descendStep s.next).run_whileLoop hst.rep hst.length_lt.le rfl hdepth]
    exact hrun

/-- A path of the tree of three nodes. -/
theorem depth_logarithmic_threeSets :
    Reachable (afterCalls threeSets) ∧
      ∀ L, PathToNil (afterCalls threeSets) (afterCalls threeSets).desc.root L →
        L.length ≤ 2 * Nat.log 2 ({p | InTree (afterCalls threeSets) p}.ncard + 1) :=
  ⟨reachable_afterCalls threeSets, (depth_logarithmic (reachable_afterCalls threeSets) rfl).1⟩

end KvStore.Rbtree
