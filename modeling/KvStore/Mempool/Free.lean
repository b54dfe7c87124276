import KvStore.Mempool.Large

set_option autoImplicit false

/-! # Giving blocks back

`mp_free` finds a large block by its header, and a small one by the node it is in; a node without
blocks is used again from its start. `mp_reset_pool` frees the large blocks and starts every node
anew. Both keep the invariant, without the blocks (`Inv.ok_mpFree`, `Inv.ok_mpResetPool`). -/

namespace KvStore.Mempool

open KvStore.Lib

/-! ## A large block -/

section FreeLarge

variable {pool : Nat} {U : List Block} {s s' : State} {b : Block} {h p : Nat}

/-- A large block is a region, and not that of a node. -/
theorem Inv.region (hinv : Inv pool U s) (hb : b ∈ U) (hlarge : 4064 < b.2) :
    b ∈ s.regions ∧ ∀ n ∈ s.nodes, b.1 ≠ home pool n := by
  have hplaced := (hinv.carved.block b (mem_blocks_of_mem hb)).2.2
  exact (hplaced.resolve_left fun hsmall => Nat.not_le_of_gt hlarge hsmall.1).2

/-- The region of a header's block. -/
theorem Inv.alloc_region (hinv : Inv pool U s) (hh : h ∈ s.headers) (hne : (s.header h).alloc ≠ 0) :
    (s.header h).alloc ∈ s.regions.map Prod.fst ∧ ∀ n ∈ s.nodes,
      (s.header h).alloc ≠ home pool n := by
  obtain ⟨z, hz, hmem⟩ := (hinv.large.alloc h hh).resolve_left hne
  obtain ⟨hregion, hown⟩ := hinv.region hmem hz
  exact ⟨List.mem_map_of_mem hregion, hown⟩

/-- **The first loop of `mp_free`** frees the block of one header, or changes nothing. -/
theorem Inv.ok_freeLarge (hinv : Inv pool U s) (hp : p ≠ 0) :
    Ok (alongLarge (freeLargeBody p) (s.poolAt pool).large) s fun r s' =>
      (r = false ∧ s' = s ∧ ∀ h ∈ s.headers, (s.header h).alloc ≠ p) ∨
      (r = true ∧ ∃ h ∈ s.headers, (s.header h).alloc = p ∧ s' = { s with
        regions := s.regions.filter fun r => r.1 ≠ p
        bytes := largeCodec.write s.bytes h { s.header h with size := 0, alloc := 0 } }) := by
  unfold alongLarge
  rw [ok_bind, ok_get]
  refine Ok.walk id
    (fun M _ s' => s' = s ∧ M ⊆ s.headers ∧ ∀ h ∈ s.headers, h ∉ M → (s.header h).alloc ≠ p) _ ?_ ?_
    (Nat.lt_succ_self _) hinv.large.links
    ⟨rfl, List.Subset.refl _, fun h hh hnot => absurd hh hnot⟩
  · rintro large s' (hzero : large = 0) ⟨rfl, -, hnone⟩
    rw [freeLargeBody, if_pos hzero, ok_pure]
    exact ⟨false, rfl, Or.inl ⟨rfl, rfl, fun h hh => hnone h hh List.not_mem_nil⟩⟩
  · rintro - M large s' rfl - ⟨rfl, hM, hnone⟩
    have hlarge : large ∈ s'.headers := hM List.mem_cons_self
    have hne : large ≠ 0 := fun h0 => hinv.zero_notMem (h0 ▸ hlarge)
    rw [freeLargeBody, if_neg hne, ok_bind, ok_getLarge hlarge]
    by_cases heq : p = (s'.header large).alloc
    · have hregion := (hinv.alloc_region hlarge (heq ▸ hp)).1
      rw [if_pos heq, ok_bind, ok_free hregion, ok_bind, setLarge, ok_modify, ok_pure]
      refine Or.inr ⟨rfl, large, hlarge, heq.symm, ?_⟩
      rw [← heq]
    · rw [if_neg heq, ok_pure]
      refine ⟨rfl, rfl, fun a ha => hM (List.mem_cons_of_mem _ ha), fun h hh hnot => ?_⟩
      by_cases hcur : h = large
      · exact hcur ▸ fun heq' => heq heq'.symm
      · exact hnone h hh fun hmem => (List.mem_cons.mp hmem).elim hcur hnot

/-- The header of the block `b` has no block any more. -/
theorem Headers.detach (hlarge : Headers pool (b :: U) s) (hh : h ∈ s.headers)
    (halloc : (s.header h).alloc = b.1) (hne : b.1 ≠ 0) (hU : ∀ b' ∈ U, b'.1 ≠ b.1)
    (hheaders : s'.headers = s.headers)
    (hlinks : Links (fun h => (s'.header h).next) (s'.poolAt pool).large s.headers 0)
    (hnew : (s'.header h).alloc = 0)
    (hold : ∀ h' ∈ s.headers, h' ≠ h → (s'.header h').alloc = (s.header h').alloc) :
    Headers pool U s' := by
  refine ⟨hheaders ▸ hlinks, ?_, fun b' hb' hsize => ?_, ?_⟩
  · rw [hheaders]
    intro h' hh'
    by_cases hcase : h' = h
    · exact Or.inl (hcase ▸ hnew)
    · rw [hold h' hh' hcase]
      refine (hlarge.alloc h' hh').imp_right fun ⟨z, hz, hmem⟩ => ⟨z, hz, ?_⟩
      refine (List.mem_cons.mp hmem).resolve_left fun heq => hcase ?_
      -- another header for the same block
      have hsame : (s.header h').alloc = b.1 := congrArg Prod.fst heq
      exact hlarge.distinct h' hh' h hh (hsame.trans halloc.symm) (hsame ▸ hne)
  · obtain ⟨h', hh', halloc'⟩ := hlarge.owner b' (List.mem_cons_of_mem _ hb') hsize
    have hcase : h' ≠ h := by
      rintro rfl
      exact hU b' hb' (halloc'.symm.trans halloc)
    rw [hheaders]
    exact ⟨h', hh', (hold h' hh' hcase).trans halloc'⟩
  · rw [hheaders]
    intro h₁ hh₁ h₂ hh₂ heq hne₁
    have hcase₁ : h₁ ≠ h := fun hc => hne₁ (hc ▸ hnew)
    have hcase₂ : h₂ ≠ h := fun hc => hne₁ (heq.trans (hc ▸ hnew))
    rw [hold h₁ hh₁ hcase₁, hold h₂ hh₂ hcase₂] at heq
    rw [hold h₁ hh₁ hcase₁] at hne₁
    exact hlarge.distinct h₁ hh₁ h₂ hh₂ heq hne₁

/-- The blocks of the clients start at different addresses. -/
theorem Inv.start_ne (hinv : Inv pool (b :: U) s) {b' : Block} (hb' : b' ∈ U) : b'.1 ≠ b.1 := by
  intro heq
  have hapart : b.1 + b.2 ≤ b'.1 ∨ b'.1 + b'.2 ≤ b.1 :=
    (List.pairwise_cons.mp hinv.carved.blocks).1 b' (mem_blocks_of_mem hb')
  have hpos := (hinv.carved.block b List.mem_cons_self).1
  have hpos' := (hinv.carved.block b' (List.mem_cons_of_mem _ (mem_blocks_of_mem hb'))).1
  omega

/-- The invariant after the first loop has freed the block. -/
theorem Inv.freeLarge (hinv : Inv pool (b :: U) s) (hh : h ∈ s.headers)
    (halloc : (s.header h).alloc = b.1) : Inv pool U { s with
      regions := s.regions.filter fun r => r.1 ≠ b.1
      bytes := largeCodec.write s.bytes h { s.header h with size := 0, alloc := 0 } } := by
  have hb : b.1 ≠ 0 := (hinv.carved.bounds hinv.chain List.mem_cons_self).1.ne'
  -- the block of the header is large, and is `b`
  have hsize : 4064 < b.2 := by
    obtain ⟨z, hz, hmem⟩ := (hinv.large.alloc h hh).resolve_left (halloc ▸ hb)
    rcases List.mem_cons.mp hmem with heq | hmem
    · exact heq ▸ hz
    · exact absurd halloc (hinv.start_ne hmem)
  obtain ⟨hnext, -, -⟩ := s.header_fits h
  have hfits : largeCodec.Fits { s.header h with size := 0, alloc := 0 } :=
    MpLarge.fits_iff.mpr ⟨hnext, ⟨by norm_num, by norm_num⟩, Nat.two_pow_pos 64⟩
  let s₁ : State :=
    { s with bytes := largeCodec.write s.bytes h { s.header h with size := 0, alloc := 0 } }
  have hheader₁ : s₁.header h = { s.header h with size := 0, alloc := 0 } :=
    State.header_write hfits
  have hframe₁ : ∀ x, x < h ∨ h + 24 ≤ x → s₁.bytes x = s.bytes x :=
    fun x hx => writeLarge_outside hx
  obtain ⟨hnode₁, hpool₁, hother₁⟩ :=
    hinv.carved.of_header hinv.chain (mem_blocks_of_header hh) hframe₁
  let s₂ : State := { s₁ with regions := s.regions.filter fun r => r.1 ≠ b.1 }
  have hnode : ∀ n ∈ s.nodes, s₂.node n = s.node n := fun n hn =>
    Eq.trans (State.node_frame (s := s₁) fun _ _ _ => rfl) (hnode₁ n hn)
  have hpool : s₂.poolAt pool = s.poolAt pool :=
    Eq.trans (State.poolAt_frame (s := s₁) fun _ _ _ => rfl) hpool₁
  have hheader : ∀ h, s₂.header h = s₁.header h := fun h => State.header_frame fun _ _ _ => rfl
  have hother : ∀ h' ∈ s.headers, h' ≠ h → s₂.header h' = s.header h' := fun h' hh' hne =>
    (hheader h').trans (hother₁ h' (mem_blocks_of_header hh') hne)
  show Inv pool U s₂
  refine ⟨?_, ?_, ?_⟩
  · exact hinv.chain.dropRegion (hinv.region List.mem_cons_self hsize).2 rfl rfl rfl hnode
      (by rw [hpool]; exact ⟨rfl, rfl⟩)
  · exact Carved.dropLarge (s := s) (z := b.2) hinv.carved hsize rfl rfl hnode
  · refine hinv.large.detach hh halloc hb (fun b' hb' => hinv.start_ne hb') rfl ?_
      (by rw [hheader, hheader₁]) fun h' hh' hne => by rw [hother h' hh' hne]
    rw [hpool]
    refine hinv.large.links.congr fun h' hh' => ?_
    by_cases hne : h' = h
    · subst hne
      rw [hheader, hheader₁]
    · rw [hother h' hh' hne]

end FreeLarge

/-! ## A small block -/

/-- A small block has no header. -/
theorem Headers.removeSmall {pool : Nat} {U : List Block} {s : State} {b : Block}
    (hlarge : Headers pool (b :: U) s) (hsmall : b.2 ≤ 4064) : Headers pool U s where
  links := hlarge.links
  alloc h hh := (hlarge.alloc h hh).imp_right fun ⟨z, hz, hmem⟩ =>
    ⟨z, hz, (List.mem_cons.mp hmem).resolve_left fun heq => by
      rw [← heq] at hsmall
      exact Nat.not_le_of_gt hz hsmall⟩
  owner b' hb' := hlarge.owner b' (List.mem_cons_of_mem _ hb')
  distinct := hlarge.distinct

section FreeSmall

variable {pool : Nat} {B U : List Block} {s s' : State} {b : Block} {n n' : Nat}

/-- A block is inside one node only. -/
theorem Chain.inside_unique (hc : Chain pool s) (hn : n ∈ s.nodes) (hn' : n' ∈ s.nodes)
    (hin : Inside pool n b) (hin' : Inside pool n' b) : n = n' := by
  by_contra hne
  have hapart := hc.homes_apart hn hn' hne
  have hbounds := hc.node_bounds hn
  have hbounds' := hc.node_bounds hn'
  have h₁ : n + 32 ≤ b.1 := hin.1
  have h₂ : b.1 + b.2 ≤ home pool n + 4096 := hin.2
  have h₃ : n' + 32 ≤ b.1 := hin'.1
  have h₄ : b.1 + b.2 ≤ home pool n' + 4096 := hin'.2
  omega

/-- The block `b` of the node `n` is given back; a node without blocks starts anew. -/
theorem Carved.uncarve (hc : Chain pool s) (h : Carved pool (b :: B) s) (hn : n ∈ s.nodes)
    (hin : Inside pool n b) (hregions : s'.regions = s.regions) (hnodes : s'.nodes = s.nodes)
    (hquote : (s'.node n).quote = B.countP (Inside pool n))
    (hlast : (s'.node n).last = (s.node n).last ∨
      B.countP (Inside pool n) = 0 ∧ (s'.node n).last = n + 32)
    (hother : ∀ n' ∈ s.nodes, n' ≠ n → (s'.node n').last = (s.node n').last ∧
      (s'.node n').quote = (s.node n').quote) : Carved pool B s' := by
  have hbounds := hc.node_bounds hn
  have hsame : ∀ n' ∈ s.nodes, n' ≠ n →
      (b :: B).countP (Inside pool n') = B.countP (Inside pool n') := by
    intro n' hn' hne
    have hout : ¬Inside pool n' b := fun hin' => hne (hc.inside_unique hn' hn hin' hin)
    exact List.countP_cons_of_neg (by simpa using hout)
  refine ⟨?_, ?_, ?_, fun b' hb' => ?_, (List.pairwise_cons.mp h.blocks).2⟩
  · rw [hnodes]
    intro n' hn'
    by_cases hne : n' = n
    · subst hne
      have hold := h.last n' hn'
      rcases hlast with heq | ⟨-, heq⟩ <;> rw [heq] <;> omega
    · rw [(hother n' hn' hne).1]
      exact h.last n' hn'
  · rw [hnodes]
    intro n' hn'
    by_cases hne : n' = n
    · exact hne ▸ hquote
    · rw [(hother n' hn' hne).2, h.quote n' hn', hsame n' hn' hne]
  · rw [hnodes]
    intro n' hn'
    by_cases hne : n' = n
    · subst hne
      have hcount := h.count n' hn'
      rw [List.countP_cons_of_pos (by exact decide_eq_true hin)] at hcount
      rcases hlast with heq | ⟨hzero, heq⟩ <;> rw [heq] <;> omega
    · rw [(hother n' hn' hne).1, ← hsame n' hn' hne]
      exact h.count n' hn'
  · obtain ⟨hpos, halign, hplaced⟩ := h.block b' (List.mem_cons_of_mem _ hb')
    refine ⟨hpos, halign, ?_⟩
    rcases hplaced with ⟨hsize, n', hn', hused⟩ | ⟨hsize, hregion, hown⟩
    · refine Or.inl ⟨hsize, n', hnodes ▸ hn', hused.1, ?_⟩
      by_cases hne : n' = n
      · subst hne
        rcases hlast with heq | ⟨hzero, -⟩
        · exact heq ▸ hused.2
        · -- a node without blocks has none of the others
          have hin' : Inside pool n' b' := ⟨hused.1, hused.2.trans (h.last n' hn').2⟩
          exact absurd (decide_eq_true hin') (List.countP_eq_zero.mp hzero b' hb')
      · exact (hother n' hn' hne).1 ▸ hused.2
    · exact Or.inr ⟨hsize, hregions ▸ hregion, hnodes ▸ hown⟩

/-- A write to the node `n`, and to `current`, that gives the block `b` back. -/
theorem Inv.uncarve (hinv : Inv pool (b :: U) s) (hn : n ∈ s.nodes) (hin : Inside pool n b)
    (hsmall : b.2 ≤ 4064) (hsame : OnlyBytes s s')
    (hframe : ∀ x, x < n ∨ n + 32 ≤ x → x < pool ∨ pool + 24 ≤ x → s'.bytes x = s.bytes x)
    (hnode : (s'.node n).next = (s.node n).next ∧ (s'.node n).end_ = (s.node n).end_)
    (hquote : (s'.node n).quote = (blocks U s).countP (Inside pool n))
    (hlast : (s'.node n).last = (s.node n).last ∨
      (blocks U s).countP (Inside pool n) = 0 ∧ (s'.node n).last = n + 32)
    (hpool : (s'.poolAt pool).head = (s.poolAt pool).head ∧
      (s'.poolAt pool).large = (s.poolAt pool).large ∧ (s'.poolAt pool).current ∈ s.nodes) :
    Inv pool U s' := by
  have hother : ∀ n' ∈ s.nodes, n' ≠ n → s'.node n' = s.node n' := by
    intro n' hn' hne
    have hcell := hinv.chain.cell_apart hn' hn hne
    have hrecord := hinv.chain.pool_apart hn'
    exact State.node_frame fun x hx hx' => hframe x (by omega) (by omega)
  refine ⟨?_, ?_, ?_⟩
  · refine hinv.chain.congr (hsame.calls ▸ hinv.chain.calls) hsame.regions hsame.nodes
      (fun n' hn' => ?_) hpool.1 hpool.2.2
    by_cases hne : n' = n
    · exact hne ▸ hnode
    · rw [hother n' hn' hne]
      exact ⟨rfl, rfl⟩
  · have hblocks : blocks U s' = blocks U s := by
      unfold blocks
      rw [hsame.headers]
    rw [hblocks]
    refine Carved.uncarve hinv.chain hinv.carved hn hin hsame.regions hsame.nodes hquote hlast
      fun n' hn' hne => ?_
    rw [hother n' hn' hne]
    exact ⟨rfl, rfl⟩
  · have hheader : ∀ h ∈ s.headers, s'.header h = s.header h := by
      intro h hh
      have hcell : n + 32 ≤ h ∨ h + 24 ≤ n :=
        hinv.carved.node_apart hinv.chain (mem_blocks_of_header hh) hn
      have hrecord : pool + 24 ≤ h ∨ h + 24 ≤ pool :=
        hinv.carved.pool_apart hinv.chain (mem_blocks_of_header hh)
      exact State.header_frame fun x hx hx' => hframe x (by omega) (by omega)
    exact (hinv.large.removeSmall hsmall).congr hsame.headers hpool.2.1 hheader

/-- The end of `mp_free`, at the node of the block. -/
theorem Inv.ok_unquote (hinv : Inv pool (b :: U) s) (hn : n ∈ s.nodes) (hin : Inside pool n b)
    (hsmall : b.2 ≤ 4064) :
    Ok (unquote pool n (s.node n)) s
      fun _ s' => Inv pool U s' ∧ s'.outstanding = s.outstanding := by
  have hbounds := hinv.chain.node_bounds hn
  have hlast := hinv.carved.last n hn
  have hcount := hinv.carved.count n hn
  have hcons : (blocks (b :: U) s).countP
      (Inside pool n) = (blocks U s).countP (Inside pool n) + 1 :=
    List.countP_cons_of_pos (by exact decide_eq_true hin)
  have hquote : wrap ((s.node n).quote - 1) = (blocks U s).countP (Inside pool n) := by
    rw [hinv.carved.quote n hn, hcons, wrap_eq (by omega) (by omega)]
    omega
  obtain ⟨hend, hl, hnext, hq, hf⟩ := s.node_fits n
  unfold unquote
  rw [hquote]
  generalize hk : (blocks U s).countP (Inside pool n) = k at hcons
  have hk64 : -2 ^ 31 ≤ (k : Int) ∧ (k : Int) < 2 ^ 31 := by omega
  by_cases hzero : k = 0
  · -- the node has no block left
    subst hzero
    have hstart :
      (if n = (s.poolAt pool).head then pool + sizeofPool + sizeofNode else n + sizeofNode) =
        n + 32 := by
      split_ifs with hhead
      · rw [hhead, hinv.chain.head]
        rfl
      · rfl
    dsimp only
    rw [Nat.cast_zero, if_pos rfl, ok_bind, ok_getPool, hstart, ok_bind, setNode,
      ok_modify, ok_bind, ok_getPool, setPool, ok_modify]
    have hfits : nodeCodec.Fits { s.node n with quote := 0, last := n + 32, failed := 0 } :=
      MpNode.fits_iff.mpr ⟨hend, show n + 32 < 2 ^ 64 by omega, hnext, hk64, hk64⟩
    let s₁ : State := { s with
      bytes := nodeCodec.write s.bytes n { s.node n with quote := 0, last := n + 32, failed := 0 } }
    have hnode₁ : s₁.node n = { s.node n with quote := 0, last := n + 32, failed := 0 } :=
      State.node_write hfits
    have hframe₁ : ∀ x, x < n ∨ n + 32 ≤ x → s₁.bytes x = s.bytes x :=
      fun x hx => writeNode_outside hx
    obtain ⟨-, hpool₁⟩ := hinv.chain.node_of_frame hn hframe₁
    obtain ⟨hlarge₁, hhead₁, -⟩ := s₁.poolAt_fits pool
    have hfits₁ : poolCodec.Fits { s₁.poolAt pool with current := (s.poolAt pool).head } :=
      MpPool.fits_iff.mpr ⟨hlarge₁, hhead₁, hpool₁ ▸ hhead₁⟩
    let s₂ : State := { s₁ with
      bytes :=
        poolCodec.write s₁.bytes pool { s₁.poolAt pool with current := (s.poolAt pool).head } }
    have hpool₂ : s₂.poolAt pool = { s.poolAt pool with current := (s.poolAt pool).head } :=
      (State.poolAt_write hfits₁).trans (by rw [hpool₁])
    have hframe₂ : ∀ x, x < pool ∨ pool + 24 ≤ x → s₂.bytes x = s₁.bytes x :=
      fun x hx => writePool_outside hx
    have hnode₂ : s₂.node n = { s.node n with quote := 0, last := n + 32, failed := 0 } :=
      (hinv.chain.node_of_pool_frame hframe₂ hn).trans hnode₁
    show Inv pool U s₂ ∧ s₂.outstanding = s.outstanding
    refine ⟨hinv.uncarve hn hin hsmall ⟨rfl, rfl, rfl, rfl, rfl⟩
      (fun x hx hx' => (hframe₂ x hx').trans (hframe₁ x hx)) ?_ ?_ ?_ ?_, rfl⟩
    · rw [hnode₂]
      exact ⟨rfl, rfl⟩
    · rw [hnode₂, hk]
      rfl
    · rw [hnode₂]
      exact Or.inr ⟨hk, rfl⟩
    · rw [hpool₂]
      exact ⟨rfl, rfl, hinv.chain.head.symm ▸ hinv.chain.head_mem⟩
  · rw [if_neg (by omega), setNode, ok_modify]
    have hfits : nodeCodec.Fits { s.node n with quote := (k : Int) } :=
      MpNode.fits_iff.mpr ⟨hend, hl, hnext, hk64, hf⟩
    let s' : State :=
      { s with bytes := nodeCodec.write s.bytes n { s.node n with quote := (k : Int) } }
    have hnode : s'.node n = { s.node n with quote := (k : Int) } := State.node_write hfits
    have hframe : ∀ x, x < n ∨ n + 32 ≤ x → s'.bytes x = s.bytes x :=
      fun x hx => writeNode_outside hx
    obtain ⟨-, hpool⟩ := hinv.chain.node_of_frame hn hframe
    show Inv pool U s' ∧ s'.outstanding = s.outstanding
    refine ⟨hinv.uncarve hn hin hsmall ⟨rfl, rfl, rfl, rfl, rfl⟩
      (fun x hx _ => hframe x hx) ?_ ?_ ?_ ?_, rfl⟩
    · rw [hnode]
      exact ⟨rfl, rfl⟩
    · rw [hnode, hk]
    · rw [hnode]
      exact Or.inl rfl
    · rw [hpool]
      exact ⟨rfl, rfl, hinv.chain.current⟩

/-- **The second loop of `mp_free`** finds the node of the block. -/
theorem Inv.ok_freeSmall (hinv : Inv pool (b :: U) s) (hsmall : b.2 ≤ 4064) :
    Ok (alongNodes (freeSmallBody pool b.1) (s.poolAt pool).head) s fun _ s' =>
      Inv pool U s' ∧ s'.outstanding = s.outstanding := by
  obtain ⟨hpos, -, hplaced⟩ := hinv.carved.block b List.mem_cons_self
  obtain ⟨-, n₀, hn₀, hused⟩ := hplaced.resolve_right fun hlarge => Nat.not_le_of_gt hlarge.1 hsmall
  have hlast := hinv.carved.last n₀ hn₀
  have hin : Inside pool n₀ b := ⟨hused.1, hused.2.trans hlast.2⟩
  -- the test of the loop tells the node of the block from the others
  have htest : ∀ n ∈ s.nodes, n ≤ b.1 ∧ b.1 ≤ (s.node n).end_ ↔ n = n₀ := by
    intro n hn
    have hbounds := hinv.chain.node_bounds hn
    rw [hinv.chain.ends n hn]
    constructor
    · intro hle
      by_contra hne
      have hbounds₀ := hinv.chain.node_bounds hn₀
      have hapart := hinv.chain.homes_apart hn hn₀ hne
      omega
    · rintro rfl
      omega
  unfold alongNodes
  rw [ok_bind, ok_get, hinv.chain.head]
  refine Ok.walk id (fun M _ s' => s' = s ∧ M ⊆ s.nodes ∧ n₀ ∈ M) _ ?_ ?_ (Nat.lt_succ_self _)
    hinv.chain.links ⟨rfl, List.Subset.refl _, hn₀⟩
  · rintro cur s' - ⟨-, -, hmem⟩
    cases hmem
  · rintro - M cur s' rfl - ⟨rfl, hM, hmem⟩
    have hcur : cur ∈ s'.nodes := hM List.mem_cons_self
    have hne : cur ≠ 0 := fun h0 => hinv.chain.zero_notMem (h0 ▸ hcur)
    rw [freeSmallBody, if_neg hne, ok_bind, ok_getNode hcur]
    by_cases heq : cur = n₀
    · rw [if_pos ((htest cur hcur).mpr heq), ok_bind]
      subst heq
      refine (hinv.ok_unquote hcur hin hsmall).mono ?_
      intro _ s'' hs''
      rw [ok_pure]
      exact hs''
    · rw [if_neg fun hle => heq ((htest cur hcur).mp hle), ok_pure]
      exact ⟨rfl, rfl, fun a ha => hM (List.mem_cons_of_mem _ ha),
        (List.mem_cons.mp hmem).resolve_left fun heq' => heq heq'.symm⟩

/-- **`mp_free`** keeps the invariant, without the block. -/
theorem Inv.ok_mpFree (hinv : Inv pool (b :: U) s) :
    Ok (mpFree pool b.1) s fun _ s' => Inv pool U s' ∧ s'.outstanding = s.outstanding := by
  have hb : b.1 ≠ 0 := (hinv.carved.bounds hinv.chain List.mem_cons_self).1.ne'
  unfold mpFree
  rw [ok_bind, ok_getPool, ok_bind]
  refine (hinv.ok_freeLarge hb).mono ?_
  rintro r s' (⟨rfl, rfl, hnone⟩ | ⟨rfl, h, hh, halloc, rfl⟩)
  · rw [if_neg Bool.false_ne_true, ok_bind, ok_getPool]
    refine hinv.ok_freeSmall (Nat.le_of_not_gt fun hlarge => ?_)
    obtain ⟨h, hh, halloc⟩ := hinv.large.owner b List.mem_cons_self hlarge
    exact hnone h hh halloc
  · rw [if_pos rfl, ok_pure]
    exact ⟨hinv.freeLarge hh halloc, rfl⟩

end FreeSmall

/-! ## A reset -/

section Reset

variable {pool : Nat} {U : List Block} {s s' : State} {n : Nat}

theorem Inv.headers_nodup (hinv : Inv pool U s) : s.headers.Nodup := by
  have hheaders := List.pairwise_map.mp (List.pairwise_append.mp hinv.carved.blocks).2.1
  refine hheaders.imp fun {h h'} hapart heq => ?_
  have hcells : h + 24 ≤ h' ∨ h' + 24 ≤ h := hapart
  omega

/-- **The first loop of `mp_reset_pool`** frees the blocks of the headers. -/
theorem Inv.ok_resetLarge (hinv : Inv pool U s) :
    Ok (alongLarge resetLargeBody (s.poolAt pool).large) s fun _ s' =>
      Chain pool s' ∧ s' = { s with regions := s'.regions } := by
  have hheader : ∀ regions h, State.header { s with regions := regions } h = s.header h :=
    fun _ _ => State.header_frame fun _ _ _ => rfl
  unfold alongLarge
  rw [ok_bind, ok_get]
  refine Ok.walk id (fun M _ s' => (Chain pool s' ∧ s' = { s with regions := s'.regions }) ∧
      M ⊆ s.headers ∧ M.Nodup ∧
      ∀ h ∈ M, (s.header h).alloc ≠ 0 → (s.header h).alloc ∈ s'.regions.map Prod.fst) _ ?_ ?_
    (Nat.lt_succ_self _) hinv.large.links
    ⟨⟨hinv.chain, rfl⟩, List.Subset.refl _, hinv.headers_nodup,
      fun h hh hne => (hinv.alloc_region hh hne).1⟩
  · rintro large s' (hzero : large = 0) ⟨hs', -⟩
    rw [resetLargeBody, if_pos hzero, ok_pure]
    exact ⟨(), rfl, hs'⟩
  · rintro - M large s' rfl - ⟨⟨hc, hs'⟩, hM, hnodup, hregions⟩
    obtain ⟨hnot, hnodup'⟩ := List.nodup_cons.mp hnodup
    have hlarge : large ∈ s.headers := hM List.mem_cons_self
    have hM' : M ⊆ s.headers := fun h hh => hM (List.mem_cons_of_mem _ hh)
    have hne : large ≠ 0 := fun h0 => hinv.zero_notMem (h0 ▸ hlarge)
    have hheaders : s'.headers = s.headers := by rw [hs']
    have hsame : s'.header large = s.header large := by
      rw [hs']
      exact hheader _ _
    rw [resetLargeBody, if_neg hne, ok_bind, ok_getLarge (hheaders.symm ▸ hlarge), hsame]
    by_cases halloc : (s.header large).alloc = 0
    · rw [if_neg (not_not_intro halloc), ok_pure]
      exact ⟨rfl, ⟨hc, hs'⟩, hM', hnodup', fun h hh => hregions h (List.mem_cons_of_mem _ hh)⟩
    · rw [if_pos halloc, ok_bind, ok_free (hregions large List.mem_cons_self halloc), ok_pure]
      refine ⟨rfl, ⟨?_, ?_⟩, hM', hnodup', fun h hh hne' => ?_⟩
      · have hnodes : s'.nodes = s.nodes := by rw [hs']
        refine hc.dropRegion (a := (s.header large).alloc) ?_ rfl rfl rfl
          (fun n _ => State.node_frame fun _ _ _ => rfl) ?_
        · rw [hnodes]
          exact (hinv.alloc_region hlarge halloc).2
        · have hpool : State.poolAt { s' with
              regions := s'.regions.filter fun r => r.1 ≠ (s.header large).alloc } pool
              = s'.poolAt pool :=
            State.poolAt_frame fun _ _ _ => rfl
          rw [hpool]
          exact ⟨rfl, rfl⟩
      · rw [hs']
      · -- the blocks of the other headers are still there
        obtain ⟨r, hr, heq⟩ := List.mem_map.mp (hregions h (List.mem_cons_of_mem _ hh) hne')
        refine List.mem_map.mpr ⟨r, List.mem_filter.mpr ⟨hr, decide_eq_true fun hsame' => ?_⟩, heq⟩
        have hcase := hinv.large.distinct h (hM' hh) large hlarge (heq.symm.trans hsame') hne'
        exact hnot (hcase ▸ hh)

/-- The node at its start. -/
def renewed (s : State) (n : Nat) : MpNode :=
  { s.node n with last := n + 32, failed := 0, quote := 0 }

/-- **The second loop of `mp_reset_pool`** starts every node anew. -/
theorem Chain.ok_resetNodes (hc : Chain pool s) :
    Ok (alongNodes resetNodeBody (pool + 24)) s fun _ s' =>
      OnlyBytes s s' ∧ (∀ n ∈ s.nodes, s'.node n = renewed s n) ∧
      s'.poolAt pool = s.poolAt pool := by
  unfold alongNodes
  rw [ok_bind, ok_get]
  refine Ok.walk id (fun M _ s' => (OnlyBytes s s' ∧ s'.poolAt pool = s.poolAt pool) ∧ M ⊆ s.nodes ∧
      ∀ n ∈ s.nodes, s'.node n = renewed s n ∨ n ∈ M ∧ s'.node n = s.node n) _ ?_ ?_
    (Nat.lt_succ_self _) hc.links
    ⟨⟨⟨rfl, rfl, rfl, rfl, rfl⟩, rfl⟩, List.Subset.refl _, fun n hn => Or.inr ⟨hn, rfl⟩⟩
  · rintro cur s' (hzero : cur = 0) ⟨⟨hsame, hpool⟩, -, hnodes⟩
    rw [resetNodeBody, if_pos hzero, ok_pure]
    refine ⟨(), rfl, hsame, fun n hn => (hnodes n hn).resolve_right fun hmem => ?_, hpool⟩
    cases hmem.1
  · rintro - M cur s' rfl - ⟨⟨hsame, hpool⟩, hM, hnodes⟩
    have hcur : cur ∈ s.nodes := hM List.mem_cons_self
    have hne : cur ≠ 0 := fun h0 => hc.zero_notMem (h0 ▸ hcur)
    have hbounds := hc.node_bounds hcur
    have hnext : (s'.node cur).next = (s.node cur).next := by
      rcases hnodes cur hcur with hcase | ⟨-, hcase⟩ <;> rw [hcase]
      rfl
    have hnew : { s'.node cur with last := cur + sizeofNode, failed := 0, quote := 0 }
        = renewed s cur := by
      rcases hnodes cur hcur with hcase | ⟨-, hcase⟩ <;> rw [hcase] <;> rfl
    rw [resetNodeBody, if_neg hne, ok_bind, ok_getNode (hsame.nodes.symm ▸ hcur), ok_bind,
      hnew, setNode, ok_modify, ok_pure]
    obtain ⟨hend, -, hnext', -⟩ := s.node_fits cur
    have hzero : -2 ^ 31 ≤ (0 : Int) ∧ (0 : Int) < 2 ^ 31 := ⟨by norm_num, by norm_num⟩
    have hfits : nodeCodec.Fits (renewed s cur) :=
      MpNode.fits_iff.mpr ⟨hend, show cur + 32 < 2 ^ 64 by omega, hnext', hzero, hzero⟩
    let s₁ : State := { s' with bytes := nodeCodec.write s'.bytes cur (renewed s cur) }
    have hnode₁ : s₁.node cur = renewed s cur := State.node_write hfits
    have hframe₁ : ∀ x, x < cur ∨ cur + 32 ≤ x → s₁.bytes x = s'.bytes x :=
      fun x hx => writeNode_outside hx
    obtain ⟨hother₁, hpool₁⟩ := hc.node_of_frame hcur hframe₁
    refine ⟨hnext, ⟨⟨hsame.calls, hsame.regions, hsame.nodes, hsame.headers, hsame.outstanding⟩,
      hpool₁.trans hpool⟩, fun n hn => hM (List.mem_cons_of_mem _ hn), fun n hn => ?_⟩
    by_cases heq : n = cur
    · rw [heq]
      exact Or.inl hnode₁
    · have hother := hother₁ n hn heq
      refine (hnodes n hn).imp hother.trans fun hold => ⟨?_, hother.trans hold.2⟩
      exact (List.mem_cons.mp hold.1).resolve_left heq

/-- **`mp_reset_pool`** keeps the invariant; no block is left. -/
theorem Inv.ok_mpResetPool (hinv : Inv pool U s) :
    Ok (mpResetPool pool) s fun _ s' => Inv pool [] s' ∧ s'.outstanding = s.outstanding := by
  unfold mpResetPool
  rw [ok_bind, ok_getPool, ok_bind]
  refine hinv.ok_resetLarge.mono ?_
  rintro - s₁ ⟨hc₁, hs₁⟩
  rw [ok_bind, ok_getPool, ok_bind, ok_getPool, ok_bind, setPool, ok_modify, ok_bind,
    ok_modify, ok_bind, ok_getPool]
  obtain ⟨-, hhead, -⟩ := s₁.poolAt_fits pool
  have hfits : poolCodec.Fits
      { s₁.poolAt pool with large := 0, current := (s₁.poolAt pool).head } :=
    MpPool.fits_iff.mpr ⟨Nat.two_pow_pos 64, hhead, hhead⟩
  -- the record of the pool is written, and the headers are off the list
  let s₂ : State := { s₁ with
    bytes := poolCodec.write s₁.bytes pool
      { s₁.poolAt pool with large := 0, current := (s₁.poolAt pool).head } }
  let s₃ : State := { s₂ with headers := [] }
  have hpool₂ : s₂.poolAt pool
      = { s₁.poolAt pool with large := 0, current := (s₁.poolAt pool).head } :=
    State.poolAt_write hfits
  have hpool₃ : s₃.poolAt pool
      = { s₁.poolAt pool with large := 0, current := (s₁.poolAt pool).head } :=
    Eq.trans (State.poolAt_frame (s := s₂) fun _ _ _ => rfl) hpool₂
  have hframe₃ : ∀ x, x < pool ∨ pool + 24 ≤ x → s₃.bytes x = s₁.bytes x :=
    fun x hx => writePool_outside hx
  have hc₃ : Chain pool s₃ := by
    refine hc₁.congr hc₁.calls rfl rfl (fun n hn => ?_) (by rw [hpool₃]) ?_
    · rw [hc₁.node_of_pool_frame hframe₃ hn]
      exact ⟨rfl, rfl⟩
    · rw [hpool₃]
      exact hc₁.head.symm ▸ hc₁.head_mem
  show Ok (alongNodes resetNodeBody (s₃.poolAt pool).head) s₃ _
  rw [hc₃.head]
  refine hc₃.ok_resetNodes.mono ?_
  rintro - s₄ ⟨hsame, hnodes, hpool₄⟩
  have hheaders : s₄.headers = [] := hsame.headers
  have hblocks : blocks [] s₄ = [] := by
    unfold blocks
    rw [hheaders]
    rfl
  refine ⟨⟨?_, ?_, ?_⟩, hsame.outstanding.trans (show s₁.outstanding = s.outstanding by rw [hs₁])⟩
  · refine hc₃.congr (hsame.calls ▸ hc₃.calls) hsame.regions hsame.nodes (fun n hn => ?_)
      (by rw [hpool₄]) (hpool₄ ▸ hc₃.current)
    rw [hnodes n hn]
    exact ⟨rfl, rfl⟩
  · rw [hblocks]
    have hbounds := fun n hn => hc₃.node_bounds (n := n) hn
    refine ⟨?_, ?_, ?_, fun b hb => absurd hb List.not_mem_nil, List.Pairwise.nil⟩
    · rw [hsame.nodes]
      intro n hn
      rw [hnodes n hn]
      have hn' := hbounds n hn
      exact ⟨le_rfl, show n + 32 ≤ home pool n + 4096 by omega⟩
    · rw [hsame.nodes]
      intro n hn
      rw [hnodes n hn]
      rfl
    · rw [hsame.nodes]
      intro n hn
      rw [hnodes n hn]
      exact Nat.le_add_right n 32
  · refine ⟨?_, ?_, fun b hb => absurd hb List.not_mem_nil, ?_⟩
    · rw [hpool₄, hpool₃, hheaders]
      rfl
    · rw [hheaders]
      exact fun h hh => absurd hh List.not_mem_nil
    · rw [hheaders]
      exact fun h hh => absurd hh List.not_mem_nil

end Reset

end KvStore.Mempool
