import KvStore.Lib.Links
import KvStore.Mempool.Model

set_option autoImplicit false

/-! # The nodes of the pool and the blocks in them

What holds of the nodes and of a list of blocks, whoever has them:

* `Chain`: the nodes are linked from the head on, each at the start of a region of its own (the head
  behind the record of the pool), and `current` is one of them.
* `Carved`: the blocks are apart from each other; a small one lies behind the header of a node and
  below its `last`, a large one is a region; `quote` counts the blocks inside the node.

The geometry that follows: the records of the pool and of the nodes are apart from each other and
from every block, and a new region is apart from all of them. -/

namespace KvStore.Mempool

open KvStore.Lib

/-! ## Reading the records -/

namespace State

def node (s : State) (cur : Nat) : MpNode := nodeCodec.read s.bytes cur
def header (s : State) (large : Nat) : MpLarge := largeCodec.read s.bytes large
def poolAt (s : State) (pool : Nat) : MpPool := poolCodec.read s.bytes pool

variable {s s' : State} {a : Nat}

theorem node_def (s : State) (a : Nat) : s.node a = nodeCodec.read s.bytes a := rfl
theorem header_def (s : State) (a : Nat) : s.header a = largeCodec.read s.bytes a := rfl
theorem poolAt_def (s : State) (a : Nat) : s.poolAt a = poolCodec.read s.bytes a := rfl

theorem node_frame (h : ∀ x, a ≤ x → x < a + 32 → s'.bytes x = s.bytes x) : s'.node a = s.node a :=
  nodeCodec.read_frame h

theorem header_frame (h : ∀ x, a ≤ x → x < a + 24 → s'.bytes x = s.bytes x) :
    s'.header a = s.header a :=
  largeCodec.read_frame h

theorem poolAt_frame (h : ∀ x, a ≤ x → x < a + 24 → s'.bytes x = s.bytes x) :
    s'.poolAt a = s.poolAt a :=
  poolCodec.read_frame h

theorem node_write {v : MpNode} (hv : nodeCodec.Fits v) :
    node { s with bytes := nodeCodec.write s.bytes a v } a = v :=
  nodeCodec.read_write _ _ hv

theorem header_write {v : MpLarge} (hv : largeCodec.Fits v) :
    header { s with bytes := largeCodec.write s.bytes a v } a = v :=
  largeCodec.read_write _ _ hv

theorem poolAt_write {v : MpPool} (hv : poolCodec.Fits v) :
    poolAt { s with bytes := poolCodec.write s.bytes a v } a = v :=
  poolCodec.read_write _ _ hv

attribute [irreducible] node header poolAt

end State

section Primitives

variable {s : State} {a : Nat} {bytes : Bytes} {x : Nat}

theorem ok_getPool (pool : Nat) (Q : MpPool → State → Prop) :
    Ok (getPool pool) s Q ↔ Q (s.poolAt pool) s := by
  unfold getPool
  rw [ok_bind, ok_get, ok_pure, State.poolAt_def]

theorem ok_getNode (ha : a ∈ s.nodes) (Q : MpNode → State → Prop) :
    Ok (getNode a) s Q ↔ Q (s.node a) s := by
  unfold getNode
  rw [ok_bind, ok_get, if_pos ha, ok_bind, ok_get, ok_pure, State.node_def]

theorem ok_getLarge (ha : a ∈ s.headers) (Q : MpLarge → State → Prop) :
    Ok (getLarge a) s Q ↔ Q (s.header a) s := by
  unfold getLarge
  rw [ok_bind, ok_get, if_pos ha, ok_bind, ok_get, ok_pure, State.header_def]

theorem writeNode_outside {v : MpNode} (h : x < a ∨ a + 32 ≤ x) :
    nodeCodec.write bytes a v x = bytes x :=
  nodeCodec.write_outside h

theorem writeLarge_outside {v : MpLarge} (h : x < a ∨ a + 24 ≤ x) :
    largeCodec.write bytes a v x = bytes x :=
  largeCodec.write_outside h

theorem writePool_outside {v : MpPool} (h : x < a ∨ a + 24 ≤ x) :
    poolCodec.write bytes a v x = bytes x :=
  poolCodec.write_outside h

/-- A new region, or none; the only fault is that there is no such run. -/
theorem takes_posixMemalign (env : Memalign) (contents : Nat → Bytes) (size : Nat) :
    Takes (posixMemalign env contents size) s fun r s' =>
      (r = none ∧ s' = { s with calls := s.calls + 1 }) ∨
      ∃ a, r = some a ∧ Fresh s.regions a size ∧ s' = { s with
        calls := s.calls + 1
        regions := (a, size) :: s.regions
        bytes := overwrite s.bytes a size (contents s.calls) } := by
  refine takes_bind ((ok_get s _).mpr ?_).takes
  cases env.addr s.calls with
  | none =>
      refine Ok.takes ?_
      rw [ok_bind, ok_set, ok_pure]
      exact Or.inl ⟨rfl, rfl⟩
  | some a =>
      dsimp only
      split_ifs with hfresh
      · refine Ok.takes ?_
        rw [ok_bind, ok_set, ok_pure]
        exact Or.inr ⟨a, rfl, hfresh, rfl⟩
      · exact Or.inl rfl

end Primitives

/-! ## The places of nodes and blocks -/

/-- Two blocks do not overlap. -/
def Apart (b b' : Block) : Prop := b.1 + b.2 ≤ b'.1 ∨ b'.1 + b'.2 ≤ b.1

/-- Where the region of a node starts: the head is behind the record of the pool. -/
def home (pool n : Nat) : Nat := if n = pool + sizeofPool then pool else n

/-- The block is between the header of the node and its end. -/
def Inside (pool n : Nat) (b : Block) : Prop :=
  n + sizeofNode ≤ b.1 ∧ b.1 + b.2 ≤ home pool n + pageSize

instance (pool n : Nat) : DecidablePred (Inside pool n) :=
  fun _ => inferInstanceAs (Decidable (_ ∧ _))

variable {b : Block}

theorem Apart.symm {b' : Block} (h : Apart b b') : Apart b' b := Or.symm h

theorem home_cases (pool n : Nat) :
    n = pool + 24 ∧ home pool n = pool ∨ n ≠ pool + 24 ∧ home pool n = n := by
  by_cases h : n = pool + 24
  · exact Or.inl ⟨h, if_pos h⟩
  · exact Or.inr ⟨h, if_neg h⟩

/-- The nodes of the pool. -/
structure Chain (pool : Nat) (s : State) : Prop where
  calls : 0 < s.calls
  region : ∀ r ∈ s.regions, r.1 % 16 = 0 ∧ 0 < r.1 ∧ r.1 + r.2 < 2 ^ 64
  regions : s.regions.Pairwise Apart
  homes : ∀ n ∈ s.nodes, ∃ z, 4096 ≤ z ∧ (home pool n, z) ∈ s.regions
  pool_notMem : pool ∉ s.nodes
  links : Links (fun n => (s.node n).next) (pool + 24) s.nodes 0
  head : (s.poolAt pool).head = pool + 24
  current : (s.poolAt pool).current ∈ s.nodes
  ends : ∀ n ∈ s.nodes, (s.node n).end_ = home pool n + 4096

/-- Where a block may be: a small one in the used part of a node, a large one in a region of its
own. -/
def Placed (pool : Nat) (s : State) (b : Block) : Prop :=
  b.2 ≤ 4064 ∧ (∃ n ∈ s.nodes, n + 32 ≤ b.1 ∧ b.1 + b.2 ≤ (s.node n).last) ∨
  4064 < b.2 ∧ b ∈ s.regions ∧ ∀ n ∈ s.nodes, b.1 ≠ home pool n

/-- The blocks in the nodes. Each of them has a byte at least, so that `quote` stays small. -/
structure Carved (pool : Nat) (B : List Block) (s : State) : Prop where
  last : ∀ n ∈ s.nodes, n + 32 ≤ (s.node n).last ∧ (s.node n).last ≤ home pool n + 4096
  quote : ∀ n ∈ s.nodes, (s.node n).quote = B.countP (Inside pool n)
  count : ∀ n ∈ s.nodes, n + B.countP (Inside pool n) ≤ (s.node n).last
  block : ∀ b ∈ B, 0 < b.2 ∧ b.1 % 16 = 0 ∧ Placed pool s b
  blocks : B.Pairwise Apart

section Places

variable {pool : Nat} {B : List Block} {s s' : State} {n n' : Nat}

theorem Chain.regions_apart (h : Chain pool s) {r r' : Block} (hr : r ∈ s.regions)
    (hr' : r' ∈ s.regions) (hne : r.1 ≠ r'.1) : Apart r r' := by
  have hsymm : Std.Symm Apart := ⟨fun _ _ h => h.symm⟩
  exact h.regions.forall hr hr' fun heq => hne (congrArg Prod.fst heq)

theorem Chain.node_bounds (h : Chain pool s) (hn : n ∈ s.nodes) :
    home pool n % 16 = 0 ∧ 0 < home pool n ∧ home pool n + 4096 < 2 ^ 64 ∧ home pool n ≤ n ∧
      n ≤ home pool n + 24 := by
  obtain ⟨z, hz, hr⟩ := h.homes n hn
  have hregion : home pool n % 16 = 0 ∧ 0 < home pool n ∧ home pool n + z < 2 ^ 64 := h.region _ hr
  rcases home_cases pool n with hc | hc <;> omega

theorem Chain.zero_notMem (h : Chain pool s) : 0 ∉ s.nodes := fun h0 => by
  have hbounds := h.node_bounds h0
  omega

theorem Chain.head_mem (h : Chain pool s) : pool + 24 ∈ s.nodes := by
  have hlinks := h.links
  cases hnodes : s.nodes with
  | nil =>
      rw [hnodes] at hlinks
      have hzero : pool + 24 = 0 := hlinks
      omega
  | cons a L =>
      rw [hnodes] at hlinks
      rw [hlinks.1]
      exact List.mem_cons_self

theorem home_head (pool : Nat) : home pool (pool + 24) = pool := if_pos rfl

/-- Different nodes are in different regions. -/
theorem Chain.homes_apart (h : Chain pool s) (hn : n ∈ s.nodes) (hn' : n' ∈ s.nodes)
    (hne : n ≠ n') : home pool n + 4096 ≤ home pool n' ∨ home pool n' + 4096 ≤ home pool n := by
  obtain ⟨z, hz, hr⟩ := h.homes n hn
  obtain ⟨z', hz', hr'⟩ := h.homes n' hn'
  have hpool : n ≠ pool := fun heq => h.pool_notMem (heq ▸ hn)
  have hpool' : n' ≠ pool := fun heq => h.pool_notMem (heq ▸ hn')
  have hhomes : home pool n ≠ home pool n' := by
    rcases home_cases pool n with hc | hc <;> rcases home_cases pool n' with hc' | hc' <;> omega
  rcases h.regions_apart hr hr' hhomes with hapart | hapart <;> dsimp only at hapart <;> omega

/-- A block is in the used part of a node, or outside its region. -/
theorem Carved.used_or_apart (hc : Chain pool s) (h : Carved pool B s) (hb : b ∈ B)
    (hn : n ∈ s.nodes) : n + 32 ≤ b.1 ∧ b.1 + b.2 ≤ (s.node n).last ∨ b.1 + b.2 ≤ home pool n ∨
      home pool n + 4096 ≤ b.1 := by
  rcases (h.block b hb).2.2 with ⟨-, n', hn', hused⟩ | ⟨-, hregion, hhome⟩
  · by_cases hnn : n = n'
    · exact Or.inl (hnn ▸ hused)
    · have hapart := hc.homes_apart hn hn' hnn
      have hbounds := hc.node_bounds hn'
      have hlast := h.last n' hn'
      omega
  · obtain ⟨z, hz, hr⟩ := hc.homes n hn
    rcases hc.regions_apart hregion hr (hhome n hn)
      with hapart | hapart <;> dsimp only at hapart <;> omega

/-- The header of a node is not in a block. -/
theorem Carved.node_apart (hc : Chain pool s) (h : Carved pool B s) (hb : b ∈ B)
    (hn : n ∈ s.nodes) : n + 32 ≤ b.1 ∨ b.1 + b.2 ≤ n := by
  have hbounds := hc.node_bounds hn
  have hcases := h.used_or_apart hc hb hn
  omega

/-- The record of the pool is not in a block. -/
theorem Carved.pool_apart (hc : Chain pool s) (h : Carved pool B s) (hb : b ∈ B) :
    pool + 24 ≤ b.1 ∨ b.1 + b.2 ≤ pool := by
  have hcases := h.used_or_apart hc hb hc.head_mem
  rw [home_head] at hcases
  omega

theorem Chain.cell_apart (h : Chain pool s) (hn : n ∈ s.nodes) (hn' : n' ∈ s.nodes) (hne : n ≠ n') :
    n + 32 ≤ n' ∨ n' + 32 ≤ n := by
  have hapart := h.homes_apart hn hn' hne
  have hbounds := h.node_bounds hn
  have hbounds' := h.node_bounds hn'
  omega

theorem Chain.pool_apart (h : Chain pool s) (hn : n ∈ s.nodes) : pool + 24 ≤ n ∨ n + 32 ≤ pool := by
  by_cases hhead : n = pool + 24
  · omega
  · have hapart := h.homes_apart hn h.head_mem hhead
    have hbounds := h.node_bounds hn
    rw [home_head] at hapart
    omega

/-- A new region is apart from those of the nodes. -/
theorem Chain.fresh_apart (h : Chain pool s) {a z : Nat} (hfresh : Fresh s.regions a z)
    (hn : n ∈ s.nodes) : a + z ≤ home pool n ∨ home pool n + 4096 ≤ a := by
  obtain ⟨z', hz', hr⟩ := h.homes n hn
  have hapart := hfresh.2.2.2 _ hr
  dsimp only at hapart
  omega

theorem Carved.fresh_apart (hc : Chain pool s) (h : Carved pool B s) {a z : Nat}
    (hfresh : Fresh s.regions a z) (hb : b ∈ B) : Apart (a, z) b := by
  rcases (h.block b hb).2.2 with ⟨-, n, hn, hused⟩ | ⟨-, hregion, -⟩
  · have hapart := hc.fresh_apart hfresh hn
    have hbounds := hc.node_bounds hn
    have hlast := h.last n hn
    unfold Apart
    omega
  · exact hfresh.2.2.2 b hregion

end Places

/-! ## What the invariants depend on -/

section Congruence

variable {pool : Nat} {B B' : List Block} {s s' : State} {n : Nat}

theorem Chain.congr (h : Chain pool s) (hcalls : 0 < s'.calls) (hregions : s'.regions = s.regions)
    (hnodes : s'.nodes = s.nodes)
    (hnode : ∀ n ∈ s.nodes, (s'.node n).next = (s.node n).next ∧ (s'.node n).end_ = (s.node n).end_)
    (hhead : (s'.poolAt pool).head = (s.poolAt pool).head)
    (hcurrent : (s'.poolAt pool).current ∈ s.nodes) : Chain pool s' where
  calls := hcalls
  region := by
    rw [hregions]
    exact h.region
  regions := by
    rw [hregions]
    exact h.regions
  homes := by
    rw [hregions, hnodes]
    exact h.homes
  pool_notMem := by
    rw [hnodes]
    exact h.pool_notMem
  links := by
    rw [hnodes]
    exact h.links.congr fun n hn => (hnode n hn).1
  head := hhead.trans h.head
  current := by
    rw [hnodes]
    exact hcurrent
  ends := by
    rw [hnodes]
    exact fun n hn => (hnode n hn).2.trans (h.ends n hn)

theorem Placed.mono (h : Placed pool s b)
    (hnodes : ∀ n ∈ s.nodes, n ∈ s'.nodes ∧ (s.node n).last ≤ (s'.node n).last)
    (hregion : b ∈ s.regions → b ∈ s'.regions ∧ ∀ n ∈ s'.nodes, n ∈ s.nodes ∨ b.1 ≠ home pool n) :
    Placed pool s' b := by
  rcases h with ⟨hsize, n, hn, hused⟩ | ⟨hsize, hmem, hhome⟩
  · obtain ⟨hn', hlast⟩ := hnodes n hn
    exact Or.inl ⟨hsize, n, hn', hused.1, hused.2.trans hlast⟩
  · obtain ⟨hmem', hnew⟩ := hregion hmem
    exact Or.inr ⟨hsize, hmem', fun n hn => (hnew n hn).elim (hhome n) id⟩

theorem Carved.congr (h : Carved pool B s) (hregions : ∀ b ∈ B, b ∈ s.regions → b ∈ s'.regions)
    (hnodes : s'.nodes = s.nodes) (hnode : ∀ n ∈ s.nodes, (s'.node n).last = (s.node n).last ∧
      (s'.node n).quote = (s.node n).quote) :
    Carved pool B s' where
  last := by
    rw [hnodes]
    intro n hn
    rw [(hnode n hn).1]
    exact h.last n hn
  quote := by
    rw [hnodes]
    intro n hn
    rw [(hnode n hn).2]
    exact h.quote n hn
  count := by
    rw [hnodes]
    intro n hn
    rw [(hnode n hn).1]
    exact h.count n hn
  block := by
    intro b hb
    obtain ⟨hpos, halign, hplaced⟩ := h.block b hb
    refine ⟨hpos, halign, hplaced.mono (fun n hn => ?_) fun hmem => ?_⟩
    · rw [hnodes, (hnode n hn).1]
      exact ⟨hn, le_rfl⟩
    · rw [hnodes]
      exact ⟨hregions b hb hmem, fun n hn => Or.inl hn⟩
  blocks := h.blocks

theorem Carved.perm (h : Carved pool B s) (hperm : B.Perm B') : Carved pool B' s where
  last := h.last
  quote n hn := by
    rw [← hperm.countP_eq]
    exact h.quote n hn
  count n hn := by
    rw [← hperm.countP_eq]
    exact h.count n hn
  block b hb := h.block b (hperm.mem_iff.mpr hb)
  blocks := hperm.pairwise h.blocks fun h => h.symm

end Congruence

end KvStore.Mempool
