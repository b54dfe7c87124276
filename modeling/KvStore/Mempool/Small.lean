import KvStore.Mempool.Nodes

set_option autoImplicit false

/-! # Small blocks

The small branch of `mp_malloc` and `mp_malloc_block`: a block is carved from the first node that
has enough space, or from a new node that is linked behind the last one. Both keep `Chain` and
`Carved`, with the new block, and write into no block that exists (`takes_mallocSmall`). -/

namespace KvStore.Mempool

open KvStore.Lib

/-! ## The arithmetic of the code -/

theorem wrap_bounds (v : Int) : -2 ^ 31 ≤ wrap v ∧ wrap v < 2 ^ 31 :=
  ⟨Int.le_bmod (by decide), Int.bmod_lt (by decide)⟩

theorem wrap_eq {v : Int} (h : -2 ^ 31 ≤ v) (h' : v < 2 ^ 31) : wrap v = v :=
  Int.bmod_eq_of_le (by omega) (by omega)

/-- Below an aligned end, the address is rounded up to one that is not behind the end. -/
theorem align_spec {p e : Nat} (hp : p ≤ e) (he : e % 16 = 0) (hlt : e < 2 ^ 64) :
    p ≤ mpAlignPtr p ∧ mpAlignPtr p ≤ e ∧ mpAlignPtr p % 16 = 0 := by
  unfold mpAlignPtr
  omega

theorem MpNode.fits_iff {v : MpNode} : nodeCodec.Fits v ↔ v.end_ < 2 ^ 64 ∧ v.last < 2 ^ 64 ∧
    v.next < 2 ^ 64 ∧ (-2 ^ 31 ≤ v.quote ∧ v.quote < 2 ^ 31) ∧ -2 ^ 31 ≤ v.failed ∧
    v.failed < 2 ^ 31 :=
  Iff.rfl

theorem MpPool.fits_iff {v : MpPool} :
    poolCodec.Fits v ↔ v.large < 2 ^ 64 ∧ v.head < 2 ^ 64 ∧ v.current < 2 ^ 64 :=
  Iff.rfl

theorem State.poolAt_fits (s : State) (a : Nat) :
    (s.poolAt a).large < 2 ^ 64 ∧ (s.poolAt a).head < 2 ^ 64 ∧ (s.poolAt a).current < 2 ^ 64 :=
  MpPool.fits_iff.mp (s.poolAt_def a ▸ poolCodec.read_fits _ _)

theorem State.node_fits (s : State) (n : Nat) :
    (s.node n).end_ < 2 ^ 64 ∧ (s.node n).last < 2 ^ 64 ∧
    (s.node n).next < 2 ^ 64 ∧ (-2 ^ 31 ≤ (s.node n).quote ∧ (s.node n).quote < 2 ^ 31) ∧
    -2 ^ 31 ≤ (s.node n).failed ∧ (s.node n).failed < 2 ^ 31 :=
  MpNode.fits_iff.mp (s.node_def n ▸ nodeCodec.read_fits _ _)

/-- What is required of the memory that `posix_memalign` returns: in the first region, which is that
of the pool, the link and the counter of the head are zero; in those of the nodes the counter
is. -/
structure Clean (env : Memalign) : Prop where
  headNext : (nodeCodec.read (env.contents 0) sizeofPool).next = 0
  headQuote : (nodeCodec.read (env.contents 0) sizeofPool).quote = 0
  quote : ∀ k, 0 < k → (nodeCodec.read (env.contents k) 0).quote = 0

section Write

variable {pool : Nat} {B : List Block} {s s' : State} {n : Nat}

/-- A write to one node. -/
theorem Chain.node_of_frame (h : Chain pool s) (hn : n ∈ s.nodes) {t t' : State}
    (hframe : ∀ x, x < n ∨ n + 32 ≤ x → t'.bytes x = t.bytes x) :
    (∀ n' ∈ s.nodes, n' ≠ n → t'.node n' = t.node n') ∧ t'.poolAt pool = t.poolAt pool := by
  refine ⟨fun n' hn' hne => State.node_frame fun x hx hx' => hframe x ?_,
    State.poolAt_frame fun x hx hx' => hframe x ?_⟩
  · have hapart := h.cell_apart hn hn' hne.symm
    omega
  · have hapart := h.pool_apart hn
    omega

/-- A write to the record of the pool. -/
theorem Chain.node_of_pool_frame (h : Chain pool s) {t t' : State}
    (hframe : ∀ x, x < pool ∨ pool + 24 ≤ x → t'.bytes x = t.bytes x) (hn : n ∈ s.nodes) :
    t'.node n = t.node n := by
  refine State.node_frame fun x hx hx' => hframe x ?_
  have hapart := h.pool_apart hn
  omega

/-- A write into a new region. -/
theorem Chain.of_fresh (h : Chain pool s) {a z : Nat} (hfresh : Fresh s.regions a z)
    (hframe : ∀ x, x < a ∨ a + z ≤ x → s'.bytes x = s.bytes x) :
    (∀ n ∈ s.nodes, s'.node n = s.node n) ∧ s'.poolAt pool = s.poolAt pool := by
  refine ⟨fun n hn => State.node_frame fun x hx hx' => hframe x ?_,
    State.poolAt_frame fun x hx hx' => hframe x ?_⟩
  · have hapart := h.fresh_apart hfresh hn
    have hbounds := h.node_bounds hn
    omega
  · have hapart := h.fresh_apart hfresh h.head_mem
    rw [home_head] at hapart
    omega

/-- A write into a block. -/
theorem Carved.of_block (hc : Chain pool s) (h : Carved pool B s) {b : Block} (hb : b ∈ B)
    (hframe : ∀ x, x < b.1 ∨ b.1 + b.2 ≤ x → s'.bytes x = s.bytes x) :
    (∀ n ∈ s.nodes, s'.node n = s.node n) ∧ s'.poolAt pool = s.poolAt pool := by
  refine ⟨fun n hn => State.node_frame fun x hx hx' => hframe x ?_,
    State.poolAt_frame fun x hx hx' => hframe x ?_⟩
  · have hapart := h.node_apart hc hb hn
    omega
  · have hapart := h.pool_apart hc hb
    omega

end Write

/-! ## A block in a node with enough space -/

section Carve

variable {pool : Nat} {B : List Block} {s s' : State} {n size : Nat}

/-- The address of the next block of a node. -/
theorem Carved.next_bounds (hc : Chain pool s) (h : Carved pool B s) (hn : n ∈ s.nodes) :
    (s.node n).last ≤ mpAlignPtr (s.node n).last ∧ mpAlignPtr (s.node n).last ≤ home pool n + 4096 ∧
      mpAlignPtr (s.node n).last % 16 = 0 := by
  have hbounds := hc.node_bounds hn
  have hlast := h.last n hn
  exact align_spec hlast.2 (by omega) (by omega)

/-- **A new block** behind the last one of the node `n`. -/
theorem Carved.carve (hc : Chain pool s) (h : Carved pool B s) (hn : n ∈ s.nodes) (hpos : 0 < size)
    (hle : size ≤ 4064) (hfit : mpAlignPtr (s.node n).last + size ≤ home pool n + 4096)
    (hregions : s'.regions = s.regions) (hnodes : s'.nodes = s.nodes)
    (hlast : (s'.node n).last = mpAlignPtr (s.node n).last + size)
    (hquote : (s'.node n).quote = wrap ((s.node n).quote + 1))
    (hother : ∀ n' ∈ s.nodes, n' ≠ n → s'.node n' = s.node n') :
    Carved pool ((mpAlignPtr (s.node n).last, size) :: B) s' := by
  have hbounds := hc.node_bounds hn
  have hmem := h.next_bounds hc hn
  have hlow := h.last n hn
  have hcount := h.count n hn
  have hinside : Inside pool n (mpAlignPtr (s.node n).last, size) := ⟨hlow.1.trans hmem.1, hfit⟩
  -- the new block is in no other node
  have houtside : ∀ n' ∈ s.nodes, n' ≠ n → ¬Inside pool n' (mpAlignPtr (s.node n).last, size) := by
    rintro n' hn' hne ⟨hin, hin'⟩
    have hapart := hc.homes_apart hn hn' hne.symm
    have hbounds' := hc.node_bounds hn'
    have h32 : n' + 32 ≤ mpAlignPtr (s.node n).last := hin
    have h4096 : mpAlignPtr (s.node n).last + size ≤ home pool n' + 4096 := hin'
    omega
  refine ⟨?_, ?_, ?_, ?_, ?_⟩
  · rw [hnodes]
    intro n' hn'
    by_cases hne : n' = n
    · subst hne
      rw [hlast]
      omega
    · rw [hother n' hn' hne]
      exact h.last n' hn'
  · rw [hnodes]
    intro n' hn'
    by_cases hne : n' = n
    · subst hne
      rw [hquote, h.quote n' hn', List.countP_cons_of_pos (by exact decide_eq_true hinside)]
      rw [wrap_eq (by omega) (by omega)]
      push_cast
      rfl
    · rw [hother n' hn' hne, h.quote n' hn',
        List.countP_cons_of_neg (by simpa using houtside n' hn' hne)]
  · rw [hnodes]
    intro n' hn'
    by_cases hne : n' = n
    · subst hne
      rw [hlast, List.countP_cons_of_pos (by exact decide_eq_true hinside)]
      omega
    · rw [hother n' hn' hne, List.countP_cons_of_neg (by simpa using houtside n' hn' hne)]
      exact h.count n' hn'
  · intro b hb
    rcases List.mem_cons.mp hb with rfl | hb
    · refine ⟨hpos, hmem.2.2, Or.inl ⟨hle, n, ?_, hlow.1.trans hmem.1, ?_⟩⟩
      · rw [hnodes]
        exact hn
      · rw [hlast]
    · obtain ⟨hbpos, halign, hplaced⟩ := h.block b hb
      refine ⟨hbpos, halign, hplaced.mono (fun n' hn' => ?_) fun hregion => ?_⟩
      · rw [hnodes]
        refine ⟨hn', ?_⟩
        by_cases hne : n' = n
        · subst hne
          rw [hlast]
          omega
        · rw [hother n' hn' hne]
      · rw [hnodes, hregions]
        exact ⟨hregion, fun n' hn' => Or.inl hn'⟩
  · refine List.pairwise_cons.mpr ⟨fun b hb => ?_, h.blocks⟩
    have hcases := h.used_or_apart hc hb hn
    unfold Apart
    omega

/-- The fit test of `mp_malloc`: the difference of the pointers is not negative. -/
theorem Carved.fit_iff (hc : Chain pool s) (h : Carved pool B s) (hn : n ∈ s.nodes) :
    (size : Int) ≤ (((s.node n).end_ : Int) - mpAlignPtr (s.node n).last) % 2 ^ 64 ↔
      mpAlignPtr (s.node n).last + size ≤ home pool n + 4096 := by
  have hmem := h.next_bounds hc hn
  have hbounds := hc.node_bounds hn
  rw [hc.ends n hn]
  omega

/-- The node `n` after the block has been carved. -/
def carved (s : State) (n size : Nat) : MpNode :=
  { s.node n with
    quote := wrap ((s.node n).quote + 1)
    last := mpAlignPtr (s.node n).last + size }

/-- **The loop of `mp_malloc`** changes one node that has enough space, or nothing. -/
theorem Carved.ok_carve (hc : Chain pool s) (h : Carved pool B s) (size : Nat) :
    Ok (alongNodes (carveBody size) (s.poolAt pool).current) s fun r s' =>
      r = none ∧ s' = s ∨ ∃ n ∈ s.nodes, r = some (mpAlignPtr (s.node n).last) ∧
        mpAlignPtr (s.node n).last + size ≤ home pool n + 4096 ∧
        s' = { s with bytes := nodeCodec.write s.bytes n (carved s n size) } := by
  obtain ⟨L, hsuffix, hlinks, -⟩ := hc.links.exists_suffix hc.current
  unfold alongNodes
  rw [ok_bind, ok_get]
  refine Ok.walk id (fun M _ s' => s = s' ∧ M ⊆ s.nodes) _ ?_ ?_
    (Nat.lt_succ_of_le hsuffix.length_le) hlinks ⟨rfl, hsuffix.subset⟩
  · rintro cur s' (hzero : cur = 0) ⟨rfl, -⟩
    rw [carveBody, if_pos hzero, ok_pure]
    exact ⟨none, rfl, Or.inl ⟨rfl, rfl⟩⟩
  · rintro - M cur s' rfl - ⟨rfl, hM⟩
    have hcur : cur ∈ s.nodes := hM List.mem_cons_self
    have hne : cur ≠ 0 := fun h0 => hc.zero_notMem (h0 ▸ hcur)
    rw [carveBody, if_neg hne, ok_bind, ok_getNode hcur]
    dsimp only
    rw [ok_ite]
    split_ifs with hfit
    · rw [ok_bind, setNode, ok_modify, ok_pure]
      exact Or.inr ⟨cur, hcur, rfl, (h.fit_iff hc hcur).mp hfit, rfl⟩
    · rw [ok_pure]
      exact ⟨rfl, rfl, fun a ha => hM (List.mem_cons_of_mem _ ha)⟩

end Carve

/-! ## A block in a new node -/

/-- Only the memory has changed. -/
structure OnlyBytes (s s' : State) : Prop where
  calls : s'.calls = s.calls
  regions : s'.regions = s.regions
  nodes : s'.nodes = s.nodes
  headers : s'.headers = s.headers
  outstanding : s'.outstanding = s.outstanding

/-- Only the `failed` of some nodes have been written. -/
structure OnlyFailed (s s' : State) : Prop extends OnlyBytes s s' where
  node : ∀ n ∈ s.nodes, ∃ f, s'.node n = { s.node n with failed := f }
  frame : ∀ x, (∀ n ∈ s.nodes, x < n ∨ n + 32 ≤ x) → s'.bytes x = s.bytes x

section NewNode

variable {pool : Nat} {B : List Block} {s s' : State} {n block size : Nat}

theorem OnlyFailed.setFailed (hc : Chain pool s) (h : OnlyFailed s s')
    (hn : n ∈ s.nodes) (f : Int) :
    OnlyFailed s { s' with
      bytes := nodeCodec.write s'.bytes n { s'.node n with failed := wrap f } } where
  toOnlyBytes := ⟨h.calls, h.regions, h.nodes, h.headers, h.outstanding⟩
  node := by
    intro n' hn'
    by_cases hne : n' = n
    · subst hne
      obtain ⟨f', hf'⟩ := h.node n' hn'
      refine ⟨wrap f, ?_⟩
      obtain ⟨hend, hlast, hnext, hquote, -⟩ := s'.node_fits n'
      have hfits : nodeCodec.Fits { s'.node n' with failed := wrap f } :=
        MpNode.fits_iff.mpr ⟨hend, hlast, hnext, hquote, wrap_bounds f⟩
      exact (State.node_write hfits).trans (by rw [hf'])
    · obtain ⟨f', hf'⟩ := h.node n' hn'
      refine ⟨f', Eq.trans ?_ hf'⟩
      have hapart := hc.cell_apart hn hn' fun heq => hne heq.symm
      exact State.node_frame fun x hx hx' => writeNode_outside (by omega)
  frame := fun x hx => (writeNode_outside (hx n hn)).trans (h.frame x hx)

/-- **The loop of `mp_malloc_block`** ends at the last node. -/
theorem Chain.ok_fail (hc : Chain pool s) :
    Ok (alongNodes failBody ((s.poolAt pool).current, (s.poolAt pool).current)) s fun r s' =>
      OnlyFailed s s' ∧ r.1 ∈ s.nodes ∧ (s.node r.1).next = 0 ∧ r.2 ∈ s.nodes := by
  obtain ⟨L, hsuffix, hlinks, hne⟩ := hc.links.exists_suffix hc.current
  have hrefl : OnlyFailed s s := ⟨⟨rfl, rfl, rfl, rfl, rfl⟩, fun n _ => ⟨_, rfl⟩, fun _ _ => rfl⟩
  unfold alongNodes
  rw [ok_bind, ok_get]
  refine Ok.walk Prod.fst
    (fun M a s' => M ≠ [] ∧ M ⊆ s.nodes ∧ a.2 ∈ s.nodes ∧ OnlyFailed s s') _ ?_ ?_
    (Nat.lt_succ_of_le hsuffix.length_le) hlinks ⟨hne, hsuffix.subset, hc.current, hrefl⟩
  · rintro a s' - ⟨hnil, -⟩
    exact absurd rfl hnil
  · rintro - M ⟨cur, current⟩ s' rfl hrest ⟨-, hM, hcurrent, hfailed⟩
    have hcur : cur ∈ s.nodes := hM List.mem_cons_self
    have hM' : M ⊆ s.nodes := fun a ha => hM (List.mem_cons_of_mem _ ha)
    obtain ⟨f, hf⟩ := hfailed.node cur hcur
    have hnext : (s'.node cur).next = (s.node cur).next := by rw [hf]
    rw [failBody, ok_bind, ok_getNode (hfailed.nodes.symm ▸ hcur)]
    dsimp only
    by_cases hzero : (s'.node cur).next = 0
    · rw [if_pos hzero, ok_pure]
      exact ⟨hfailed, hcur, hnext.symm.trans hzero, hcurrent⟩
    · rw [if_neg hzero, ok_bind, setNode, ok_modify, ok_pure]
      -- a link that is not `NULL` leads to a node
      have hlinked : M ≠ [] := by
        rintro rfl
        exact hzero (hnext.trans hrest)
      refine ⟨hnext, hlinked, hM', ?_, hfailed.setFailed hc hcur _⟩
      dsimp only
      split_ifs
      · cases M with
        | nil => exact absurd rfl hlinked
        | cons c M =>
            have hfirst : (s.node cur).next = c := hrest.1
            rw [hnext, hfirst]
            exact hM' List.mem_cons_self
      · exact hcurrent

/-- A new region, with anything in it, changes nothing for the nodes and the blocks. -/
theorem Chain.allocate (hc : Chain pool s) {a z : Nat} (hfresh : Fresh s.regions a z)
    (hcalls : 0 < s'.calls) (hregions : s'.regions = (a, z) :: s.regions)
    (hnodes : s'.nodes = s.nodes) (hframe : ∀ x, x < a ∨ a + z ≤ x → s'.bytes x = s.bytes x) :
    Chain pool s' := by
  obtain ⟨hnode, hpool⟩ := hc.of_fresh hfresh hframe
  refine ⟨hcalls, ?_, ?_, ?_, ?_, ?_, ?_, ?_, ?_⟩
  · rw [hregions]
    intro r hr
    rcases List.mem_cons.mp hr with rfl | hr
    · exact ⟨hfresh.1, hfresh.2.1, hfresh.2.2.1⟩
    · exact hc.region r hr
  · rw [hregions]
    exact List.pairwise_cons.mpr ⟨hfresh.2.2.2, hc.regions⟩
  · rw [hregions, hnodes]
    intro n hn
    obtain ⟨z', hz', hr⟩ := hc.homes n hn
    exact ⟨z', hz', List.mem_cons_of_mem _ hr⟩
  · rw [hnodes]
    exact hc.pool_notMem
  · rw [hnodes]
    exact hc.links.congr fun n hn => by rw [hnode n hn]
  · rw [hpool]
    exact hc.head
  · rw [hpool, hnodes]
    exact hc.current
  · rw [hnodes]
    intro n hn
    rw [hnode n hn]
    exact hc.ends n hn

theorem Carved.allocate (hc : Chain pool s) (h : Carved pool B s) {a z : Nat}
    (hfresh : Fresh s.regions a z) (hregions : s'.regions = (a, z) :: s.regions)
    (hnodes : s'.nodes = s.nodes) (hframe : ∀ x, x < a ∨ a + z ≤ x → s'.bytes x = s.bytes x) :
    Carved pool B s' := by
  obtain ⟨hnode, -⟩ := hc.of_fresh hfresh hframe
  refine h.congr (fun b _ hb => ?_) hnodes fun n hn => ?_
  · rw [hregions]
    exact List.mem_cons_of_mem _ hb
  · rw [hnode n hn]
    exact ⟨rfl, rfl⟩

theorem Chain.home_of_own (hc : Chain pool s) (hblock : (block, 4096) ∈ s.regions)
    (hown : ∀ n ∈ s.nodes, block ≠ home pool n) : home pool block = block := by
  obtain ⟨z, hz, hr⟩ := hc.homes _ hc.head_mem
  rw [home_head] at hr
  have hapart := hc.regions_apart hblock hr (home_head pool ▸ hown _ hc.head_mem)
  unfold Apart at hapart
  dsimp only at hapart
  rcases home_cases pool block with hcase | hcase <;> omega

/-- A node in a region of its own is linked behind the last node. -/
theorem Chain.link (hc : Chain pool s) (hblock : (block, 4096) ∈ s.regions)
    (hown : ∀ n ∈ s.nodes, block ≠ home pool n) (hcalls : 0 < s'.calls)
    (hregions : s'.regions = s.regions) (hnodes : s'.nodes = s.nodes ++ [block])
    (hn : n ∈ s.nodes) (hlast : (s.node n).next = 0)
    (hnode : ∀ n' ∈ s.nodes, (s'.node n').end_ = (s.node n').end_ ∧
      (s'.node n').next = if n' = n then block else (s.node n').next)
    (hnew : (s'.node block).end_ = block + 4096 ∧ (s'.node block).next = 0)
    (hhead : (s'.poolAt pool).head = (s.poolAt pool).head)
    (hcurrent : (s'.poolAt pool).current ∈ s.nodes) : Chain pool s' := by
  have hpool : block ≠ pool := home_head pool ▸ hown _ hc.head_mem
  have hhome := hc.home_of_own hblock hown
  refine ⟨hcalls, ?_, ?_, ?_, ?_, ?_, hhead.trans hc.head, ?_, ?_⟩
  · rw [hregions]
    exact hc.region
  · rw [hregions]
    exact hc.regions
  · rw [hregions, hnodes, List.forall_mem_append, List.forall_mem_singleton, hhome]
    exact ⟨hc.homes, 4096, le_rfl, hblock⟩
  · rw [hnodes, List.mem_append, List.mem_singleton]
    exact not_or.mpr ⟨hc.pool_notMem, hpool.symm⟩
  · rw [hnodes]
    have happend : Links (fun n => (s'.node n).next) (pool + 24) (s.nodes ++ [block])
        (s'.node block).next :=
      hc.links.append_last hc.zero_notMem hn hlast fun n' hn' => (hnode n' hn').2
    rwa [hnew.2] at happend
  · rw [hnodes]
    exact List.mem_append_left _ hcurrent
  · rw [hnodes, List.forall_mem_append, List.forall_mem_singleton, hhome]
    exact ⟨fun n' hn' => (hnode n' hn').1.trans (hc.ends n' hn'), hnew.1⟩

/-- What `linkNode` does: `n` is the node that was the last one. -/
structure Linked (pool block n : Nat) (s s' : State) : Prop where
  calls : s'.calls = s.calls
  regions : s'.regions = s.regions
  nodes : s'.nodes = s.nodes ++ [block]
  headers : s'.headers = s.headers
  outstanding : s'.outstanding = s.outstanding
  mem : n ∈ s.nodes
  last : (s.node n).next = 0
  node : ∀ n' ∈ s.nodes, ∃ f, s'.node n' =
    { s.node n' with next := if n' = n then block else (s.node n').next, failed := f }
  record : ∃ current ∈ s.nodes, s'.poolAt pool = { s.poolAt pool with current := current }
  frame : ∀ x, (∀ n ∈ s.nodes, x < n ∨ n + 32 ≤ x) → x < pool ∨ pool + 24 ≤ x →
    s'.bytes x = s.bytes x

theorem Chain.node_lt (hc : Chain pool s) (hn : n ∈ s.nodes) : n < 2 ^ 64 := by
  have hbounds := hc.node_bounds hn
  omega

theorem Chain.ok_linkNode (hc : Chain pool s) (hlt : block < 2 ^ 64) :
    Ok (linkNode pool block) s fun _ s' => ∃ n, Linked pool block n s s' := by
  unfold linkNode
  rw [ok_bind, ok_getPool, ok_bind]
  refine hc.ok_fail.mono ?_
  rintro ⟨n, current⟩ s₁ ⟨hfailed, hn, hlast, hcurrent⟩
  dsimp only at hn hlast hcurrent
  rw [ok_bind, ok_getNode (hfailed.nodes.symm ▸ hn), ok_bind, setNode, ok_modify,
    ok_bind, ok_modify, ok_bind, ok_getPool, setPool, ok_modify]
  obtain ⟨hend, hl, -, hq, hf⟩ := s₁.node_fits n
  have hfits : nodeCodec.Fits { s₁.node n with next := block } :=
    MpNode.fits_iff.mpr ⟨hend, hl, hlt, hq, hf⟩
  -- the state after the link is written
  let s₂ : State := { s₁ with bytes := nodeCodec.write s₁.bytes n { s₁.node n with next := block } }
  have hframe₂ : ∀ x, x < n ∨ n + 32 ≤ x → s₂.bytes x = s₁.bytes x :=
    fun x hx => writeNode_outside hx
  have hnode₂ : s₂.node n = { s₁.node n with next := block } := State.node_write hfits
  obtain ⟨hother₂, hpool₂⟩ := hc.node_of_frame hn hframe₂
  have hpool₁ : s₁.poolAt pool = s.poolAt pool := by
    refine State.poolAt_frame fun x hx hx' => hfailed.frame x fun n' hn' => ?_
    have hapart := hc.pool_apart hn'
    omega
  let s₃ : State := { s₂ with nodes := s₂.nodes ++ [block] }
  have hsame₃ : s₃.poolAt pool = s₂.poolAt pool := State.poolAt_frame fun _ _ _ => rfl
  have hpool₃ : s₃.poolAt pool = s.poolAt pool := hsame₃.trans (hpool₂.trans hpool₁)
  obtain ⟨hlarge, hhead, -⟩ := s₃.poolAt_fits pool
  have hfits₃ : poolCodec.Fits { s₃.poolAt pool with current := current } :=
    MpPool.fits_iff.mpr ⟨hlarge, hhead, hc.node_lt hcurrent⟩
  have hframe₄ : ∀ x, x < pool ∨ pool + 24 ≤ x →
      poolCodec.write s₃.bytes pool { s₃.poolAt pool with current := current } x = s₂.bytes x :=
    fun x hx => writePool_outside hx
  refine ⟨n, hfailed.calls, hfailed.regions, ?_, hfailed.headers, hfailed.outstanding, hn, hlast,
    fun n' hn' => ?_, ⟨current, hcurrent, ?_⟩, fun x hx hx' => ?_⟩
  · show s₁.nodes ++ [block] = s.nodes ++ [block]
    rw [hfailed.nodes]
  · obtain ⟨f, hnode₁⟩ := hfailed.node n' hn'
    refine ⟨f, (hc.node_of_pool_frame hframe₄ hn').trans ?_⟩
    by_cases hne : n' = n
    · subst hne
      rw [if_pos rfl, hnode₂, hnode₁]
    · rw [if_neg hne, hother₂ n' hn' hne, hnode₁]
  · exact (State.poolAt_write hfits₃).trans (by rw [hpool₃])
  · exact (hframe₄ x hx').trans ((hframe₂ x (hx n hn)).trans (hfailed.frame x hx))

/-- The first block of the new node. -/
theorem Carved.link (hc : Chain pool s) (h : Carved pool B s) (hblock : (block, 4096) ∈ s.regions)
    (hown : ∀ n ∈ s.nodes, block ≠ home pool n) (hapart : ∀ b ∈ B, Apart (block, 4096) b)
    (hregions : s'.regions = s.regions) (hnodes : s'.nodes = s.nodes ++ [block])
    (hnode : ∀ n ∈ s.nodes, (s'.node n).last = (s.node n).last ∧
      (s'.node n).quote = (s.node n).quote)
    (hpos : 0 < size) (hle : size ≤ 4064)
    (hnew : (s'.node block).last = block + 32 + size ∧ (s'.node block).quote = 1) :
    Carved pool ((block + 32, size) :: B) s' := by
  have hhome := hc.home_of_own hblock hown
  have halign : block % 16 = 0 := (hc.region _ hblock).1
  have hinside : Inside pool block (block + 32, size) := by
    refine ⟨le_rfl, ?_⟩
    have hend : block + 32 + size ≤ home pool block + 4096 := by omega
    exact hend
  have houtside : ∀ n ∈ s.nodes, ¬Inside pool n (block + 32, size) := by
    rintro n hn ⟨hin, hin'⟩
    obtain ⟨z, hz, hr⟩ := hc.homes n hn
    have hregion := hc.regions_apart hblock hr (hown n hn)
    have hbounds := hc.node_bounds hn
    have h32 : n + 32 ≤ block + 32 := hin
    have h4096 : block + 32 + size ≤ home pool n + 4096 := hin'
    unfold Apart at hregion
    dsimp only at hregion
    omega
  have hnone : B.countP (Inside pool block) = 0 := by
    refine List.countP_eq_zero.mpr fun b hb => ?_
    rw [decide_eq_true_eq]
    rintro ⟨hin, hin'⟩
    have hpos := (h.block b hb).1
    have hb' := hapart b hb
    have h32 : block + 32 ≤ b.1 := hin
    have h4096 : b.1 + b.2 ≤ home pool block + 4096 := hin'
    unfold Apart at hb'
    dsimp only at hb'
    omega
  refine ⟨?_, ?_, ?_, ?_, ?_⟩
  · rw [hnodes, List.forall_mem_append, List.forall_mem_singleton, hhome, hnew.1]
    refine ⟨fun n hn => ?_, by omega, by omega⟩
    rw [(hnode n hn).1]
    exact h.last n hn
  · rw [hnodes, List.forall_mem_append, List.forall_mem_singleton, hnew.2]
    refine ⟨fun n hn => ?_, ?_⟩
    · rw [(hnode n hn).2, h.quote n hn, List.countP_cons_of_neg (by simpa using houtside n hn)]
    · rw [List.countP_cons_of_pos (by exact decide_eq_true hinside), hnone]
      rfl
  · rw [hnodes, List.forall_mem_append, List.forall_mem_singleton, hnew.1]
    refine ⟨fun n hn => ?_, ?_⟩
    · rw [(hnode n hn).1, List.countP_cons_of_neg (by simpa using houtside n hn)]
      exact h.count n hn
    · rw [List.countP_cons_of_pos (by exact decide_eq_true hinside), hnone]
      omega
  · have hmem : block ∈ s'.nodes := by
      rw [hnodes]
      exact List.mem_append_right _ List.mem_cons_self
    rw [List.forall_mem_cons]
    refine ⟨⟨hpos, ?_, Or.inl ⟨hle, block, hmem, le_rfl, hnew.1.ge⟩⟩, fun b hb => ?_⟩
    · show (block + 32) % 16 = 0
      omega
    · obtain ⟨hbpos, hbalign, hplaced⟩ := h.block b hb
      refine ⟨hbpos, hbalign, hplaced.mono (fun n hn => ?_) fun hregion => ?_⟩
      · rw [hnodes, (hnode n hn).1]
        exact ⟨List.mem_append_left _ hn, le_rfl⟩
      · rw [hnodes, hregions, List.forall_mem_append, List.forall_mem_singleton, hhome]
        refine ⟨hregion, fun n hn => Or.inl hn, Or.inr ?_⟩
        have hb' := hapart b hb
        unfold Apart at hb'
        dsimp only at hb'
        omega
  · refine List.pairwise_cons.mpr ⟨fun b hb => ?_, h.blocks⟩
    have hb' := hapart b hb
    unfold Apart at hb' ⊢
    dsimp only at hb' ⊢
    omega

end NewNode

/-! ## The small branch -/

/-- What a request for a small block leaves as it was: the list of large blocks, and the contents of
the blocks `B`. -/
structure Keeps (pool : Nat) (B : List Block) (s s' : State) : Prop where
  headers : s'.headers = s.headers
  outstanding : s'.outstanding = s.outstanding
  large : (s'.poolAt pool).large = (s.poolAt pool).large
  bytes : ∀ b ∈ B, ∀ x, b.1 ≤ x → x < b.1 + b.2 → s'.bytes x = s.bytes x

/-- What a request for a small block does. -/
structure Served (pool : Nat) (B : List Block) (size p : Nat) (s s' : State) : Prop where
  chain : Chain pool s'
  carved : Carved pool (if p = 0 then B else (p, size) :: B) s'
  keeps : Keeps pool B s s'

section Small

variable {env : Memalign} {pool : Nat} {B : List Block} {s : State} {size : Nat}

/-- A call of `posix_memalign` that fails. -/
theorem Served.of_failure (hc : Chain pool s) (h : Carved pool B s) :
    Served pool B size 0 s { s with calls := s.calls + 1 } := by
  have hnode : ∀ n, State.node { s with calls := s.calls + 1 } n = s.node n :=
    fun n => State.node_frame fun _ _ _ => rfl
  have hpool : State.poolAt { s with calls := s.calls + 1 } pool = s.poolAt pool :=
    State.poolAt_frame fun _ _ _ => rfl
  refine ⟨?_, ?_, rfl, rfl, by rw [hpool], fun _ _ _ _ _ => rfl⟩
  · refine hc.congr (Nat.succ_pos _) rfl rfl (fun n _ => ?_) (by rw [hpool]) (hpool ▸ hc.current)
    rw [hnode n]
    exact ⟨rfl, rfl⟩
  · refine h.congr (fun _ _ hb => hb) rfl fun n _ => ?_
    rw [hnode n]
    exact ⟨rfl, rfl⟩

/-- What `mp_malloc_block` has done when it comes to link its node: there is a new page at `a`, with
the node and the block in it. -/
structure Paged (size a : Nat) (s s' : State) : Prop where
  regions : s'.regions = (a, 4096) :: s.regions
  nodes : s'.nodes = s.nodes
  calls : s'.calls = s.calls + 1
  headers : s'.headers = s.headers
  outstanding : s'.outstanding = s.outstanding
  frame : ∀ x, x < a ∨ a + 4096 ≤ x → s'.bytes x = s.bytes x
  node : ∃ failed, s'.node a = ⟨a + 4096, a + 32 + size, 0, 1, failed⟩

/-- The fields that are read from the page are clean, and the block is where the node ends. -/
theorem ok_newNode (henv : Clean env) (hc : Chain pool s) {a : Nat}
    (hfresh : Fresh s.regions a pageSize) {s₁ : State} (hs₁ : s₁ = { s with
      calls := s.calls + 1
      regions := (a, pageSize) :: s.regions
      bytes := overwrite s.bytes a pageSize (env.contents s.calls) }) (hle : size ≤ 4064) :
    mpAlignPtr (a + sizeofNode) = a + 32 ∧
      Ok (setNode a ⟨a + pageSize, a + 32 + size, 0, wrap ((nodeCodec.read s₁.bytes a).quote + 1),
        (nodeCodec.read s₁.bytes a).failed⟩) s₁ fun _ s₂ => Paged size a s s₂ := by
  obtain ⟨h16, -, hlt, -⟩ := hfresh
  have hpage : pageSize = 4096 := rfl
  rw [hpage] at hlt
  constructor
  · show (a + 32 + 15) % 2 ^ 64 / 16 * 16 = a + 32
    omega
  subst hs₁
  have hread : nodeCodec.read (overwrite s.bytes a pageSize (env.contents s.calls)) (a + 0) =
      nodeCodec.read (env.contents s.calls) 0 := nodeCodec.read_overwrite_inside (by decide)
  have hquote := (congrArg MpNode.quote hread).trans (henv.quote s.calls hc.calls)
  obtain ⟨-, -, -, -, hfailed⟩ := MpNode.fits_iff.mp
    (nodeCodec.read_fits (overwrite s.bytes a pageSize (env.contents s.calls)) a)
  rw [Nat.add_zero] at hquote
  have hone : wrap (0 + 1) = 1 := by decide
  rw [hquote, hone, setNode, ok_modify]
  generalize (nodeCodec.read (overwrite s.bytes a pageSize (env.contents s.calls)) a).failed
    = failed at hfailed ⊢
  refine ⟨rfl, rfl, rfl, rfl, rfl, fun x hx => ?_, failed,
    State.node_write (MpNode.fits_iff.mpr ?_)⟩
  · have hnode : x < a ∨ a + 32 ≤ x := by omega
    refine (writeNode_outside hnode).trans ?_
    exact overwrite_outside hx
  · have hlast : a + 32 + size < 2 ^ 64 := by omega
    exact ⟨hlt, hlast, Nat.two_pow_pos 64, ⟨by norm_num, by norm_num⟩, hfailed⟩

theorem Paged.chain (hc : Chain pool s) {a : Nat} (hfresh : Fresh s.regions a pageSize) {s₂ : State}
    (hpaged : Paged size a s s₂) : Chain pool s₂ :=
  hc.allocate hfresh (hpaged.calls ▸ Nat.succ_pos _) hpaged.regions hpaged.nodes hpaged.frame

/-- The cell of the new node is apart from those that are written when it is linked. -/
theorem Paged.node_linked (hc : Chain pool s) {a n : Nat} (hfresh : Fresh s.regions a pageSize)
    {s₂ s₃ : State} (hpaged : Paged size a s s₂) (hlinked : Linked pool a n s₂ s₃) :
    s₃.node a = s₂.node a := by
  refine State.node_frame fun x hx hx' => hlinked.frame x (fun n hn => ?_) ?_
  · rw [hpaged.nodes] at hn
    have hapart : a + 4096 ≤ home pool n ∨ home pool n + 4096 ≤ a := hc.fresh_apart hfresh hn
    have hbounds := hc.node_bounds hn
    omega
  · have hapart : a + 4096 ≤ home pool (pool + 24) ∨ home pool (pool + 24) + 4096 ≤ a :=
      hc.fresh_apart hfresh hc.head_mem
    rw [home_head] at hapart
    omega

/-- The new node is linked. -/
theorem Paged.served (hc : Chain pool s) (h : Carved pool B s) (hpos : 0 < size) (hle : size ≤ 4064)
    {a n : Nat} (hfresh : Fresh s.regions a pageSize) {s₂ s₃ : State} (hpaged : Paged size a s s₂)
    (hlinked : Linked pool a n s₂ s₃) : Served pool B size (a + 32) s s₃ := by
  have hc₂ : Chain pool s₂ := hpaged.chain hc hfresh
  have h₂ : Carved pool B s₂ := h.allocate hc hfresh hpaged.regions hpaged.nodes hpaged.frame
  have hblock : (a, 4096) ∈ s₂.regions := hpaged.regions ▸ List.mem_cons_self
  have hown : ∀ n ∈ s₂.nodes, a ≠ home pool n := by
    rw [hpaged.nodes]
    intro n hn heq
    have hapart : a + 4096 ≤ home pool n ∨ home pool n + 4096 ≤ a := hc.fresh_apart hfresh hn
    omega
  obtain ⟨failed, hnew⟩ := hpaged.node
  rw [← hpaged.node_linked hc hfresh hlinked] at hnew
  obtain ⟨current, hcurrent, hpool₃⟩ := hlinked.record
  refine ⟨?_, ?_, ?_⟩
  · refine hc₂.link hblock hown
      (hlinked.calls ▸ hc₂.calls) hlinked.regions hlinked.nodes hlinked.mem
      hlinked.last (fun n' hn' => ?_) (by rw [hnew]; exact ⟨rfl, rfl⟩) (by rw [hpool₃]) ?_
    · obtain ⟨f, hf⟩ := hlinked.node n' hn'
      rw [hf]
      exact ⟨rfl, rfl⟩
    · rw [hpool₃]
      exact hcurrent
  · rw [if_neg (by omega)]
    refine h₂.link hc₂ hblock hown (fun b hb => ?_) hlinked.regions hlinked.nodes (fun n' hn' => ?_)
      hpos hle (by rw [hnew]; exact ⟨rfl, rfl⟩)
    · exact h.fresh_apart hc hfresh hb
    · obtain ⟨f, hf⟩ := hlinked.node n' hn'
      rw [hf]
      exact ⟨rfl, rfl⟩
  · refine ⟨hlinked.headers.trans hpaged.headers, hlinked.outstanding.trans hpaged.outstanding, ?_,
      fun b hb x hx hx' => ?_⟩
    · rw [hpool₃, (hc.of_fresh hfresh hpaged.frame).2]
    · have hapart : a + 4096 ≤ b.1 ∨ b.1 + b.2 ≤ a := h.fresh_apart hc hfresh hb
      refine (hlinked.frame x (fun n hn => ?_) ?_).trans (hpaged.frame x (by omega))
      · have hnapart := h₂.node_apart hc₂ hb hn
        omega
      · have hpapart := h₂.pool_apart hc₂ hb
        omega

/-- **`mp_malloc_block`**: a block at the start of a new node. -/
theorem takes_mallocBlock (henv : Clean env) (hc : Chain pool s) (h : Carved pool B s)
    (hpos : 0 < size) (hle : size ≤ 4064) :
    Takes (mpMallocBlock env pool size) s fun p s' => Served pool B size p s s' := by
  refine takes_bind ((takes_posixMemalign env env.contents pageSize).mono ?_)
  rintro r s₁ (⟨rfl, rfl⟩ | ⟨a, rfl, hfresh, hs₁⟩)
  · exact Ok.takes ((ok_pure _ _ _).mpr (.of_failure hc h))
  refine Ok.takes ?_
  obtain ⟨halign, hset⟩ := ok_newNode henv hc hfresh hs₁ hle
  have hlt : a + 4096 < 2 ^ 64 := hfresh.2.2.1
  rw [ok_bind, ok_get, halign, ok_bind]
  refine hset.mono fun _ s₂ hpaged => ?_
  rw [ok_bind]
  refine ((hpaged.chain hc hfresh).ok_linkNode (by omega)).mono ?_
  rintro - s₃ ⟨n, hlinked⟩
  exact (ok_pure _ _ _).mpr (hpaged.served hc h hpos hle hfresh hlinked)

/-- **The small branch of `mp_malloc`.** -/
theorem takes_mallocSmall (henv : Clean env) (hc : Chain pool s) (h : Carved pool B s)
    (hpos : 0 < size) (hle : size ≤ 4064) :
    Takes (mpMallocSmall env pool size) s fun p s' => Served pool B size p s s' := by
  refine takes_bind ((ok_getPool pool _).mpr ?_).takes
  refine takes_bind ((h.ok_carve hc size).mono ?_).takes
  rintro r s' (⟨rfl, rfl⟩ | ⟨n, hn, rfl, hfit, rfl⟩)
  · exact takes_mallocBlock henv hc h hpos hle
  refine Ok.takes ((ok_pure _ _ _).mpr ?_)
  have hmem := h.next_bounds hc hn
  have hlast := h.last n hn
  have hbounds := hc.node_bounds hn
  obtain ⟨hend, -, hnext, -, hfailed⟩ := s.node_fits n
  have hfits : nodeCodec.Fits (carved s n size) := MpNode.fits_iff.mpr
    ⟨hend, show mpAlignPtr (s.node n).last + size < 2 ^ 64 by omega, hnext, wrap_bounds _, hfailed⟩
  let s' : State := { s with bytes := nodeCodec.write s.bytes n (carved s n size) }
  have hframe : ∀ x, x < n ∨ n + 32 ≤ x → s'.bytes x = s.bytes x := fun x hx => writeNode_outside hx
  have hnode : s'.node n = carved s n size := State.node_write hfits
  obtain ⟨hother, hpool⟩ := hc.node_of_frame hn hframe
  refine ⟨?_, ?_, rfl, rfl, by rw [hpool], fun b hb x hx hx' => hframe x ?_⟩
  · refine hc.congr hc.calls rfl rfl (fun n' hn' => ?_) (by rw [hpool]) (hpool ▸ hc.current)
    by_cases hne : n' = n
    · subst hne
      rw [hnode]
      exact ⟨rfl, rfl⟩
    · rw [hother n' hn' hne]
      exact ⟨rfl, rfl⟩
  · rw [if_neg (by omega)]
    exact h.carve hc hn hpos hle hfit rfl rfl (congrArg MpNode.last hnode)
      (congrArg MpNode.quote hnode) hother
  · have hapart := h.node_apart hc hb hn
    omega

end Small

end KvStore.Mempool
