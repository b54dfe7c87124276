import KvStore.Mempool.Small

set_option autoImplicit false

/-! # Large blocks and their headers

A large block is a region of its own, with a header on the list `pool->large`; the header is a small
block that the pool keeps for itself. `Inv pool U s` is the invariant of the pool whose clients have
the blocks `U`: the nodes (`Chain`), the blocks of the clients and the headers (`Carved`), and which
header is for which large block (`Headers`).

`mp_malloc` keeps it, with the new block (`takes_malloc`).
-/

namespace KvStore.Mempool

open KvStore.Lib

/-! ## The invariant -/

/-- The blocks of the clients and the headers. -/
def blocks (U : List Block) (s : State) : List Block := U ++ s.headers.map fun h => (h, 24)

/-- Every large block of the clients has a header, and a header is for one of them or for none. -/
structure Headers (pool : Nat) (U : List Block) (s : State) : Prop where
  links : Links (fun h => (s.header h).next) (s.poolAt pool).large s.headers 0
  alloc : ∀ h ∈ s.headers, (s.header h).alloc = 0 ∨ ∃ z, 4064 < z ∧ ((s.header h).alloc, z) ∈ U
  owner : ∀ b ∈ U, 4064 < b.2 → ∃ h ∈ s.headers, (s.header h).alloc = b.1
  distinct : ∀ h ∈ s.headers, ∀ h' ∈ s.headers, (s.header h).alloc = (s.header h').alloc →
    (s.header h).alloc ≠ 0 → h = h'

/-- The invariant of a pool whose clients have the blocks `U`. -/
structure Inv (pool : Nat) (U : List Block) (s : State) : Prop where
  chain : Chain pool s
  carved : Carved pool (blocks U s) s
  large : Headers pool U s

variable {b : Block}

section Basics

variable {pool : Nat} {B U U' : List Block} {s s' : State} {h n : Nat}

theorem mem_blocks_of_header (hh : h ∈ s.headers) : (h, 24) ∈ blocks U s :=
  List.mem_append_right U (List.mem_map_of_mem hh)

theorem mem_blocks_of_mem (hb : b ∈ U) : b ∈ blocks U s := List.mem_append_left _ hb

theorem Carved.blocks_apart (hcarved : Carved pool B s) {b' : Block} (hb : b ∈ B) (hb' : b' ∈ B)
    (hne : b.1 ≠ b'.1) : Apart b b' := by
  have hsymm : Std.Symm Apart := ⟨fun _ _ h => h.symm⟩
  exact hcarved.blocks.forall hb hb' fun heq => hne (congrArg Prod.fst heq)

theorem Carved.bounds (hc : Chain pool s) (hcarved : Carved pool B s) (hb : b ∈ B) :
    0 < b.1 ∧ b.1 + b.2 < 2 ^ 64 := by
  rcases (hcarved.block b hb).2.2 with ⟨-, n, hn, hused⟩ | ⟨-, hregion, -⟩
  · have hlast := hcarved.last n hn
    have hnode := hc.node_bounds hn
    omega
  · exact (hc.region b hregion).2

theorem Inv.zero_notMem (hinv : Inv pool U s) : 0 ∉ s.headers := fun h0 =>
  (Nat.lt_irrefl 0) (hinv.carved.bounds hinv.chain (mem_blocks_of_header h0)).1

theorem Inv.blocks_apart (hinv : Inv pool U s) (hb : b ∈ U) (hh : h ∈ s.headers) :
    Apart b (h, 24) :=
  (List.pairwise_append.mp hinv.carved.blocks).2.2 b hb _ (List.mem_map_of_mem hh)

theorem Headers.congr (hlarge : Headers pool U s) (hheaders : s'.headers = s.headers)
    (hpool : (s'.poolAt pool).large = (s.poolAt pool).large)
    (hheader : ∀ h ∈ s.headers, s'.header h = s.header h) : Headers pool U s' where
  links := by
    rw [hheaders, hpool]
    exact hlarge.links.congr fun h hh => by rw [hheader h hh]
  alloc := by
    rw [hheaders]
    intro h hh
    rw [hheader h hh]
    exact hlarge.alloc h hh
  owner := by
    rw [hheaders]
    intro b hb hsize
    obtain ⟨h, hh, halloc⟩ := hlarge.owner b hb hsize
    exact ⟨h, hh, (hheader h hh).symm ▸ halloc⟩
  distinct := by
    rw [hheaders]
    intro h hh h' hh'
    rw [hheader h hh, hheader h' hh']
    exact hlarge.distinct h hh h' hh'

theorem Inv.perm (hinv : Inv pool U s) (hperm : U.Perm U') : Inv pool U' s where
  chain := hinv.chain
  carved := hinv.carved.perm (hperm.append_right _)
  large := ⟨hinv.large.links,
    fun h hh =>
    (hinv.large.alloc h hh).imp_right fun ⟨z, hz, hmem⟩ => ⟨z, hz, hperm.mem_iff.mp hmem⟩,
    fun b hb => hinv.large.owner b (hperm.mem_iff.mpr hb), hinv.large.distinct⟩

/-- The invariant does not depend on the calls and on what the state says of the clients. -/
theorem Inv.of_bytes (hinv : Inv pool U s) (hcalls : 0 < s'.calls) (hbytes : s'.bytes = s.bytes)
    (hregions : s'.regions = s.regions) (hnodes : s'.nodes = s.nodes)
    (hheaders : s'.headers = s.headers) : Inv pool U s' := by
  have hnode : ∀ n, s'.node n = s.node n := fun n => State.node_frame fun x _ _ => by rw [hbytes]
  have hheader : ∀ h, s'.header h = s.header h :=
    fun h => State.header_frame fun x _ _ => by rw [hbytes]
  have hpool : s'.poolAt pool = s.poolAt pool := State.poolAt_frame fun x _ _ => by rw [hbytes]
  refine ⟨?_, ?_, hinv.large.congr hheaders (by rw [hpool]) fun h _ => hheader h⟩
  · refine hinv.chain.congr hcalls hregions hnodes (fun n _ => ?_) (by rw [hpool])
      (hpool ▸ hinv.chain.current)
    rw [hnode n]
    exact ⟨rfl, rfl⟩
  · unfold blocks
    rw [hheaders]
    refine hinv.carved.congr (fun b _ hb => hregions ▸ hb) hnodes fun n _ => ?_
    rw [hnode n]
    exact ⟨rfl, rfl⟩

/-- A client writes into one of its blocks. -/
theorem Inv.write (hinv : Inv pool U s) (hb : b ∈ U) (data : Nat → UInt8) :
    Inv pool U { s with bytes := overwrite s.bytes b.1 b.2 data } := by
  let s' : State := { s with bytes := overwrite s.bytes b.1 b.2 data }
  have hframe : ∀ x, x < b.1 ∨ b.1 + b.2 ≤ x → s'.bytes x = s.bytes x :=
    fun x hx => overwrite_outside hx
  obtain ⟨hnode, hpool⟩ := hinv.carved.of_block hinv.chain (mem_blocks_of_mem hb) hframe
  refine ⟨?_, ?_, hinv.large.congr rfl (by rw [hpool]) fun h hh => ?_⟩
  · refine hinv.chain.congr hinv.chain.calls rfl rfl (fun n hn => ?_) (by rw [hpool])
      (hpool ▸ hinv.chain.current)
    rw [hnode n hn]
    exact ⟨rfl, rfl⟩
  · refine hinv.carved.congr (fun _ _ hb => hb) rfl fun n hn => ?_
    rw [hnode n hn]
    exact ⟨rfl, rfl⟩
  · have hapart : b.1 + b.2 ≤ h ∨ h + 24 ≤ b.1 := hinv.blocks_apart hb hh
    exact State.header_frame fun x hx hx' => hframe x (by omega)

end Basics

/-! ## Regions of their own -/

section Regions

variable {pool : Nat} {B U : List Block} {s s' : State} {a z n : Nat}

theorem not_inside_of_large (hb : 4064 < b.2) : ¬Inside pool n b := by
  rintro ⟨hin, hin'⟩
  have h32 : n + 32 ≤ b.1 := hin
  have h4096 : b.1 + b.2 ≤ home pool n + 4096 := hin'
  rcases home_cases pool n with hc | hc <;> omega

theorem countP_large (hb : 4064 < b.2) :
    (b :: B).countP (Inside pool n) = B.countP (Inside pool n) :=
  List.countP_cons_of_neg (by simpa using not_inside_of_large hb)

/-- A large block in a region that is not that of a node. -/
theorem Carved.addLarge (hc : Chain pool s) (h : Carved pool B s) (hz : 4064 < z)
    (hregion : (a, z) ∈ s.regions) (hown : ∀ n ∈ s.nodes, a ≠ home pool n)
    (hapart : ∀ b ∈ B, Apart (a, z) b) : Carved pool ((a, z) :: B) s where
  last := h.last
  quote n hn := by
    rw [countP_large hz]
    exact h.quote n hn
  count n hn := by
    rw [countP_large hz]
    exact h.count n hn
  block := by
    rw [List.forall_mem_cons]
    exact ⟨⟨by omega, (hc.region _ hregion).1, Or.inr ⟨hz, hregion, hown⟩⟩, h.block⟩
  blocks := List.pairwise_cons.mpr ⟨hapart, h.blocks⟩

/-- A large block is given back. -/
theorem Carved.dropLarge (h : Carved pool ((a, z) :: B) s) (hz : 4064 < z)
    (hregions : s'.regions = s.regions.filter fun r => r.1 ≠ a) (hnodes : s'.nodes = s.nodes)
    (hnode : ∀ n ∈ s.nodes, s'.node n = s.node n) : Carved pool B s' := by
  have hB : Carved pool B s := by
    refine ⟨h.last, fun n hn => ?_, fun n hn => ?_,
      fun b hb => h.block b (List.mem_cons_of_mem _ hb), (List.pairwise_cons.mp h.blocks).2⟩
    · have hquote := h.quote n hn
      rwa [countP_large hz] at hquote
    · have hcount := h.count n hn
      rwa [countP_large hz] at hcount
  refine hB.congr (fun b hb hregion => ?_) hnodes fun n hn => ?_
  · rw [hregions]
    refine List.mem_filter.mpr ⟨hregion, decide_eq_true ?_⟩
    have hapart : a + z ≤ b.1 ∨ b.1 + b.2 ≤ a := (List.pairwise_cons.mp h.blocks).1 b hb
    have hpos := (hB.block b hb).1
    omega
  · rw [hnode n hn]
    exact ⟨rfl, rfl⟩

/-- A region that is not that of a node is freed. -/
theorem Chain.dropRegion (hc : Chain pool s) (hown : ∀ n ∈ s.nodes, a ≠ home pool n)
    (hcalls : s'.calls = s.calls) (hregions : s'.regions = s.regions.filter fun r => r.1 ≠ a)
    (hnodes : s'.nodes = s.nodes) (hnode : ∀ n ∈ s.nodes, s'.node n = s.node n)
    (hpool : (s'.poolAt pool).head = (s.poolAt pool).head ∧
      (s'.poolAt pool).current = (s.poolAt pool).current) : Chain pool s' where
  calls := hcalls ▸ hc.calls
  region r hr := hc.region r (List.mem_of_mem_filter (hregions ▸ hr))
  regions := by
    rw [hregions]
    exact hc.regions.filter _
  homes := by
    rw [hregions, hnodes]
    intro n hn
    obtain ⟨z, hz, hr⟩ := hc.homes n hn
    exact ⟨z, hz, List.mem_filter.mpr ⟨hr, decide_eq_true (hown n hn).symm⟩⟩
  pool_notMem := hnodes ▸ hc.pool_notMem
  links := by
    rw [hnodes]
    exact hc.links.congr fun n hn => by rw [hnode n hn]
  head := hpool.1.trans hc.head
  current := by
    rw [hnodes, hpool.2]
    exact hc.current
  ends := by
    rw [hnodes]
    intro n hn
    rw [hnode n hn]
    exact hc.ends n hn

theorem ok_free (ha : a ∈ s.regions.map Prod.fst) (Q : Unit → State → Prop) :
    Ok (free a) s Q ↔ Q () { s with regions := s.regions.filter fun r => r.1 ≠ a } := by
  unfold free
  rw [ok_bind, ok_get, if_pos ha, ok_modify]

end Regions

/-! ## The headers -/

section Attach

variable {pool : Nat} {B U : List Block} {s s' : State} {a z h : Nat}

theorem MpLarge.fits_iff {v : MpLarge} : largeCodec.Fits v ↔
    v.next < 2 ^ 64 ∧ (-2 ^ 31 ≤ v.size ∧ v.size < 2 ^ 31) ∧ v.alloc < 2 ^ 64 :=
  ⟨fun h => ⟨h.1, h.2.1, h.2.2.2⟩, fun h => ⟨h.1, h.2.1, trivial, h.2.2⟩⟩

theorem State.header_fits (s : State) (h : Nat) : (s.header h).next < 2 ^ 64 ∧
    (-2 ^ 31 ≤ (s.header h).size ∧ (s.header h).size < 2 ^ 31) ∧ (s.header h).alloc < 2 ^ 64 :=
  MpLarge.fits_iff.mp (s.header_def h ▸ largeCodec.read_fits _ _)

/-- **The loop of `mp_malloc_large`** finds a header without a block, or none. -/
theorem Inv.ok_released (hinv : Inv pool U s) :
    Ok (alongLarge releasedBody ((s.poolAt pool).large, 0)) s fun r s' =>
      s' = s ∧ ∀ h, r = some h → h ∈ s.headers ∧ (s.header h).alloc = 0 := by
  unfold alongLarge
  rw [ok_bind, ok_get]
  refine Ok.walk Prod.fst (fun M _ s' => s' = s ∧ M ⊆ s.headers) _ ?_ ?_ (Nat.lt_succ_self _)
    hinv.large.links ⟨rfl, List.Subset.refl _⟩
  · rintro ⟨large, n⟩ s' (hzero : large = 0) ⟨rfl, -⟩
    rw [releasedBody, if_pos hzero, ok_pure]
    exact ⟨none, rfl, rfl, fun h hh => by cases hh⟩
  · rintro - M ⟨large, n⟩ s' rfl - ⟨rfl, hM⟩
    have hlarge : large ∈ s'.headers := hM List.mem_cons_self
    have hne : large ≠ 0 := fun h0 => hinv.zero_notMem (h0 ▸ hlarge)
    rw [releasedBody, if_neg hne, ok_bind, ok_getLarge hlarge]
    split_ifs with halloc hn
    · rw [ok_pure]
      refine ⟨rfl, fun h hh => ?_⟩
      cases hh
      exact ⟨hlarge, halloc⟩
    · rw [ok_pure]
      exact ⟨rfl, fun h hh => by cases hh⟩
    · rw [ok_pure]
      exact ⟨rfl, rfl, fun a ha => hM (List.mem_cons_of_mem _ ha)⟩

/-- A write to the cell of a header, which may be new. -/
theorem Carved.of_header (hc : Chain pool s) (hcarved : Carved pool B s) (hmem : (h, 24) ∈ B)
    (hframe : ∀ x, x < h ∨ h + 24 ≤ x → s'.bytes x = s.bytes x) :
    (∀ n ∈ s.nodes, s'.node n = s.node n) ∧ s'.poolAt pool = s.poolAt pool ∧
      ∀ h', (h', 24) ∈ B → h' ≠ h → s'.header h' = s.header h' := by
  obtain ⟨hnode, hpool⟩ := hcarved.of_block hc hmem hframe
  refine ⟨hnode, hpool, fun h' hh' hne => State.header_frame fun x hx hx' => hframe x ?_⟩
  have hapart : h' + 24 ≤ h ∨ h + 24 ≤ h' := hcarved.blocks_apart hh' hmem hne
  omega

/-- The header `h`, which is new or has no block, gets the block `(a, z)`. -/
theorem Headers.attach (hlarge : Headers pool U s)
    (hmem : ∀ h', h' ∈ s'.headers ↔ h' = h ∨ h' ∈ s.headers)
    (hlinks : Links (fun h => (s'.header h).next) (s'.poolAt pool).large s'.headers 0)
    (hold : ∀ h' ∈ s.headers, h' ≠ h → (s'.header h').alloc = (s.header h').alloc)
    (hfree : h ∈ s.headers → (s.header h).alloc = 0) (hnew : (s'.header h).alloc = a)
    (hz : 4064 < z) (hpos : ∀ b ∈ U, b.1 ≠ 0) (hfresh : ∀ z', (a, z') ∉ U) :
    Headers pool ((a, z) :: U) s' := by
  -- no other header is for the new block
  have hother : ∀ h' ∈ s.headers, h' ≠ h → (s'.header h').alloc = a → a = 0 := by
    intro h' hh' hne heq
    rw [hold h' hh' hne] at heq
    rcases hlarge.alloc h' hh' with hzero | ⟨z', -, hU⟩
    · exact heq.symm.trans hzero
    · exact absurd (heq ▸ hU) (hfresh z')
  refine ⟨hlinks, fun h' hh' => ?_, fun b hb hsize => ?_, fun h₁ hh₁ h₂ hh₂ heq hne => ?_⟩
  · rcases (hmem h').mp hh' with rfl | hh'
    · exact Or.inr ⟨z, hz, hnew ▸ List.mem_cons_self⟩
    · by_cases hne : h' = h
      · exact Or.inr ⟨z, hz, hne ▸ hnew ▸ List.mem_cons_self⟩
      · rw [hold h' hh' hne]
        exact (hlarge.alloc h' hh').imp_right
          fun ⟨z', hz', hU⟩ => ⟨z', hz', List.mem_cons_of_mem _ hU⟩
  · rcases List.mem_cons.mp hb with rfl | hb
    · exact ⟨h, (hmem h).mpr (Or.inl rfl), hnew⟩
    · obtain ⟨h', hh', halloc⟩ := hlarge.owner b hb hsize
      have hne : h' ≠ h := by
        rintro rfl
        exact hpos b hb (halloc.symm.trans (hfree hh'))
      exact ⟨h', (hmem h').mpr (Or.inr hh'), (hold h' hh' hne).trans halloc⟩
  · by_cases h₁h : h₁ = h
    · subst h₁h
      by_contra hne'
      have hh₂' := ((hmem h₂).mp hh₂).resolve_left fun heq' => hne' heq'.symm
      exact hne (hnew.trans (hother h₂ hh₂' (fun heq' => hne' heq'.symm) (heq.symm.trans hnew)))
    · have hh₁' := ((hmem h₁).mp hh₁).resolve_left h₁h
      by_cases h₂h : h₂ = h
      · subst h₂h
        exact absurd ((heq.trans hnew).trans (hother h₁ hh₁' h₁h (heq.trans hnew))) hne
      · have hh₂' := ((hmem h₂).mp hh₂).resolve_left h₂h
        rw [hold h₁ hh₁' h₁h, hold h₂ hh₂' h₂h] at heq
        rw [hold h₁ hh₁' h₁h] at hne
        exact hlarge.distinct h₁ hh₁' h₂ hh₂' heq hne

end Attach

/-! ## `mp_malloc_large` -/

section Malloc

variable {env : Memalign} {pool : Nat} {B U : List Block} {s s' : State} {a z h p : Nat}

/-- The region of a new large block. -/
theorem Inv.allocate (hinv : Inv pool U s) (hz : 4064 < z) (hfresh : Fresh s.regions a z)
    (hcalls : 0 < s'.calls) (hregions : s'.regions = (a, z) :: s.regions)
    (hnodes : s'.nodes = s.nodes) (hheaders : s'.headers = s.headers)
    (hframe : ∀ x, x < a ∨ a + z ≤ x → s'.bytes x = s.bytes x) :
    Inv pool U s' ∧ Carved pool ((a, z) :: blocks U s') s' := by
  have hblocks : blocks U s' = blocks U s := by
    unfold blocks
    rw [hheaders]
  have hchain := hinv.chain.allocate hfresh hcalls hregions hnodes hframe
  have hcarved := hinv.carved.allocate hinv.chain hfresh hregions hnodes hframe
  obtain ⟨-, hpool⟩ := hinv.chain.of_fresh hfresh hframe
  refine ⟨⟨hchain, hblocks ▸ hcarved, ?_⟩, hblocks ▸ hcarved.addLarge hchain hz ?_ ?_ ?_⟩
  · refine hinv.large.congr hheaders (by rw [hpool]) fun h hh => ?_
    have hapart : a + z ≤ h ∨ h + 24 ≤ a :=
      hinv.carved.fresh_apart hinv.chain hfresh (mem_blocks_of_header hh)
    exact State.header_frame fun x hx hx' => hframe x (by omega)
  · rw [hregions]
    exact List.mem_cons_self
  · rw [hnodes]
    intro n hn heq
    have hapart := hinv.chain.fresh_apart hfresh hn
    omega
  · exact fun b hb => hinv.carved.fresh_apart hinv.chain hfresh hb

/-- The new block is not one of those that the clients have. -/
theorem notMem_of_apart (hz : 4064 < z) (hU : ∀ b ∈ U, Apart (a, z) b ∧ 0 < b.2) (z' : Nat) :
    (a, z') ∉ U := by
  intro hmem
  obtain ⟨hapart, hpos⟩ := hU _ hmem
  have hsame : a + z ≤ a ∨ a + z' ≤ a := hapart
  have hz' : 0 < z' := hpos
  omega

/-- A header without a block is used again. -/
theorem Inv.reuse (hinv : Inv pool U s) (hbig : Carved pool ((a, z) :: blocks U s) s)
    (hz : 4064 < z) (ha : a < 2 ^ 64) (hh : h ∈ s.headers) (halloc : (s.header h).alloc = 0) :
    Inv pool ((a, z) :: U)
      { s with
        bytes := largeCodec.write s.bytes h { s.header h with size := wrap z, alloc := a } } := by
  obtain ⟨hnext, -, -⟩ := s.header_fits h
  have hsize := wrap_bounds z
  generalize wrap z = size at hsize ⊢
  have hfits : largeCodec.Fits { s.header h with size := size, alloc := a } :=
    MpLarge.fits_iff.mpr ⟨hnext, hsize, ha⟩
  let s' : State :=
    { s with bytes := largeCodec.write s.bytes h { s.header h with size := size, alloc := a } }
  have hheader : s'.header h = { s.header h with size := size, alloc := a } :=
    State.header_write hfits
  have hframe : ∀ x, x < h ∨ h + 24 ≤ x → s'.bytes x = s.bytes x :=
    fun x hx => writeLarge_outside hx
  obtain ⟨hnode, hpool, hother⟩ :=
    hinv.carved.of_header hinv.chain (mem_blocks_of_header hh) hframe
  have hother' : ∀ h' ∈ s.headers, h' ≠ h → s'.header h' = s.header h' :=
    fun h' hh' hne => hother h' (mem_blocks_of_header hh') hne
  refine ⟨?_, ?_, hinv.large.attach (h := h) (fun h' => ?_) ?_ (fun h' hh' hne => ?_)
    (fun _ => halloc) (congrArg MpLarge.alloc hheader) hz ?_ (notMem_of_apart hz fun b hb => ?_)⟩
  · refine hinv.chain.congr hinv.chain.calls rfl rfl (fun n hn => ?_) (by rw [hpool])
      (hpool ▸ hinv.chain.current)
    rw [hnode n hn]
    exact ⟨rfl, rfl⟩
  · refine Carved.congr (s := s) hbig (fun _ _ hb => hb) rfl fun n hn => ?_
    rw [hnode n hn]
    exact ⟨rfl, rfl⟩
  · exact ⟨Or.inr, fun hmem => hmem.elim (fun heq => heq ▸ hh) id⟩
  · rw [hpool]
    refine hinv.large.links.congr fun h' hh' => ?_
    by_cases hne : h' = h
    · subst hne
      show (s'.header h').next = (s.header h').next
      rw [hheader]
    · rw [hother' h' hh' hne]
  · rw [hother' h' hh' hne]
  · exact fun b hb => (hinv.carved.bounds hinv.chain (mem_blocks_of_mem hb)).1.ne'
  · have hb' := mem_blocks_of_mem (s := s) hb
    exact ⟨(List.pairwise_cons.mp hbig.blocks).1 b hb', (hinv.carved.block b hb').1⟩

/-- A new header in front of the list. -/
theorem Inv.ok_linkLarge (hc : Chain pool s)
    (hcarved : Carved pool ((p, 24) :: (a, z) :: blocks U s) s) (hlarge : Headers pool U s)
    (hz : 4064 < z) (hp : p < 2 ^ 64) (ha : a < 2 ^ 64) :
    Ok (linkLarge pool p z a) s
      fun _ s' => Inv pool ((a, z) :: U) s' ∧ s'.outstanding = s.outstanding := by
  unfold linkLarge
  rw [ok_bind, ok_getPool, ok_bind, setLarge, ok_modify, ok_bind, ok_modify, ok_bind,
    ok_getPool, setPool, ok_modify]
  have hsize := wrap_bounds z
  generalize wrap z = size at hsize ⊢
  obtain ⟨hnext, hhead, hcurrent⟩ := s.poolAt_fits pool
  -- the header is written, and counts as one
  have hfits : largeCodec.Fits ⟨(s.poolAt pool).large, size, a⟩ :=
    MpLarge.fits_iff.mpr ⟨hnext, hsize, ha⟩
  let s₁ : State := { s with bytes := largeCodec.write s.bytes p ⟨(s.poolAt pool).large, size, a⟩ }
  have hframe₁ : ∀ x, x < p ∨ p + 24 ≤ x → s₁.bytes x = s.bytes x :=
    fun x hx => writeLarge_outside hx
  have hheader₁ : s₁.header p = ⟨(s.poolAt pool).large, size, a⟩ := State.header_write hfits
  obtain ⟨hnode₁, hpool₁, hother₁⟩ := hcarved.of_header hc List.mem_cons_self hframe₁
  let s₂ : State := { s₁ with headers := p :: s₁.headers }
  have hpool₂ : s₂.poolAt pool = s.poolAt pool :=
    Eq.trans (State.poolAt_frame (s := s₁) fun _ _ _ => rfl) hpool₁
  -- the header is put in front
  have hfits₂ : poolCodec.Fits { s₂.poolAt pool with large := p } :=
    MpPool.fits_iff.mpr ⟨hp, hpool₂.symm ▸ hhead, hpool₂.symm ▸ hcurrent⟩
  let s₃ : State :=
    { s₂ with bytes := poolCodec.write s₂.bytes pool { s₂.poolAt pool with large := p } }
  have hframe₃ : ∀ x, x < pool ∨ pool + 24 ≤ x → s₃.bytes x = s₁.bytes x :=
    fun x hx => writePool_outside hx
  have hpool₃ : s₃.poolAt pool = { s.poolAt pool with large := p } :=
    (State.poolAt_write hfits₂).trans (by rw [hpool₂])
  have hnode₃ : ∀ n ∈ s.nodes, s₃.node n = s.node n :=
    fun n hn => (hc.node_of_pool_frame hframe₃ hn).trans (hnode₁ n hn)
  have hheader₃ : ∀ h, (h, 24) ∈ (p, 24) :: (a, z) :: blocks U s → s₃.header h = s₁.header h := by
    intro h hh
    have hapart : pool + 24 ≤ h ∨ h + 24 ≤ pool := hcarved.pool_apart hc hh
    exact State.header_frame fun x hx hx' => hframe₃ x (by omega)
  have hmem : ∀ h ∈ s.headers, (h, 24) ∈ (p, 24) :: (a, z) :: blocks U s := fun h hh =>
    List.mem_cons_of_mem _ (List.mem_cons_of_mem _ (mem_blocks_of_header hh))
  have hnew : ∀ h ∈ s.headers, h ≠ p := by
    rintro h hh rfl
    have hapart : h + 24 ≤ h ∨ h + 24 ≤ h := (List.pairwise_cons.mp hcarved.blocks).1 _
      (List.mem_cons_of_mem _ (mem_blocks_of_header hh))
    omega
  have hold : ∀ h ∈ s.headers, s₃.header h = s.header h := fun h hh =>
    (hheader₃ h (hmem h hh)).trans (hother₁ h (hmem h hh) (hnew h hh))
  have hheader : s₃.header p = ⟨(s.poolAt pool).large, size, a⟩ :=
    (hheader₃ p List.mem_cons_self).trans hheader₁
  show Inv pool ((a, z) :: U) s₃ ∧ s₃.outstanding = s.outstanding
  refine ⟨⟨?_, ?_, ?_⟩, rfl⟩
  · refine hc.congr hc.calls rfl rfl (fun n hn => ?_) (by rw [hpool₃]) (hpool₃ ▸ hc.current)
    rw [hnode₃ n hn]
    exact ⟨rfl, rfl⟩
  · have hperm : ((p, 24) :: ((a, z) :: U ++ s.headers.map fun h => (h, 24))).Perm
        ((a, z) :: U ++ (p, 24) :: s.headers.map fun h => (h, 24)) := List.perm_middle.symm
    refine Carved.perm (Carved.congr hcarved (fun _ _ hb => hb) rfl fun n hn => ?_) hperm
    rw [hnode₃ n hn]
    exact ⟨rfl, rfl⟩
  · refine hlarge.attach (h := p) (fun h => List.mem_cons) ?_ (fun h hh _ => by rw [hold h hh])
      (fun hp => absurd rfl (hnew p hp)) (congrArg MpLarge.alloc hheader) hz (fun b hb => ?_)
      (notMem_of_apart hz fun b hb => ?_)
    · rw [hpool₃]
      refine ⟨rfl, ?_⟩
      show Links _ (s₃.header p).next s.headers 0
      rw [hheader]
      exact hlarge.links.congr fun h hh => by rw [hold h hh]
    · have hb' :=
        List.mem_cons_of_mem (p, 24) (List.mem_cons_of_mem (a, z) (mem_blocks_of_mem (s := s) hb))
      exact (hcarved.bounds hc hb').1.ne'
    · have hb' := mem_blocks_of_mem (s := s) hb
      exact ⟨(List.pairwise_cons.mp (List.pairwise_cons.mp hcarved.blocks).2).1 b hb',
        (hcarved.block b (List.mem_cons_of_mem _ (List.mem_cons_of_mem _ hb'))).1⟩

/-- The new block is freed again when there is no place for its header. -/
theorem Inv.drop (hc : Chain pool s) (hcarved : Carved pool ((a, z) :: blocks U s) s)
    (hlarge : Headers pool U s) (hz : 4064 < z) :
    a ∈ s.regions.map Prod.fst ∧
      Inv pool U { s with regions := s.regions.filter fun r => r.1 ≠ a } := by
  have hplaced := (hcarved.block _ List.mem_cons_self).2.2
  obtain ⟨-, hregion, hown⟩ := hplaced.resolve_left fun hsmall => by
    have hle : z ≤ 4064 := hsmall.1
    omega
  let s' : State := { s with regions := s.regions.filter fun r => r.1 ≠ a }
  have hnode : ∀ n ∈ s.nodes, s'.node n = s.node n := fun n _ => State.node_frame fun _ _ _ => rfl
  have hpool : s'.poolAt pool = s.poolAt pool := State.poolAt_frame fun _ _ _ => rfl
  refine ⟨List.mem_map_of_mem hregion, ?_, ?_, ?_⟩
  · exact hc.dropRegion hown rfl rfl rfl hnode (by rw [hpool]; exact ⟨rfl, rfl⟩)
  · exact hcarved.dropLarge hz rfl rfl hnode
  · exact hlarge.congr rfl (by rw [hpool]) fun h _ => State.header_frame fun _ _ _ => rfl

/-- What `mp_malloc` does for a client. -/
def Granted (pool : Nat) (U : List Block) (size p : Nat) (s s' : State) : Prop :=
  Inv pool (if p = 0 then U else (p, size) :: U) s' ∧ s'.outstanding = s.outstanding

/-- **`mp_malloc_large`** -/
theorem takes_mallocLarge (henv : Clean env) (hinv : Inv pool U s) (hz : 4064 < z) :
    Takes (mpMallocLarge env pool z) s fun p s' => Granted pool U z p s s' := by
  refine takes_bind ((takes_posixMemalign env env.large z).mono ?_)
  rintro r s₁ (⟨rfl, rfl⟩ | ⟨a, rfl, hfresh, hs₁⟩)
  · refine Ok.takes ((ok_pure _ _ _).mpr ⟨?_, rfl⟩)
    exact hinv.of_bytes (Nat.succ_pos _) rfl rfl rfl rfl
  obtain ⟨-, hpos, hlt, -⟩ := id hfresh
  have hne : a ≠ 0 := hpos.ne'
  have hout : s₁.outstanding = s.outstanding := by rw [hs₁]
  obtain ⟨hinv₁, hbig⟩ : Inv pool U s₁ ∧ Carved pool ((a, z) :: blocks U s₁) s₁ := by
    refine hinv.allocate hz hfresh ?_ ?_ ?_ ?_ fun x hx => ?_
    · rw [hs₁]
      exact Nat.succ_pos _
    · rw [hs₁]
    · rw [hs₁]
    · rw [hs₁]
    · rw [hs₁]
      exact overwrite_outside hx
  refine takes_bind ((ok_getPool pool _).mpr ?_).takes
  refine takes_bind (hinv₁.ok_released.mono ?_).takes
  rintro r s₂ ⟨rfl, hreleased⟩
  cases r with
  | some h =>
      obtain ⟨hh, halloc⟩ := hreleased h rfl
      refine Ok.takes ?_
      rw [ok_bind, ok_getLarge hh, ok_bind, setLarge, ok_modify, ok_pure]
      refine ⟨?_, hout⟩
      rw [if_neg hne]
      exact hinv₁.reuse hbig hz (by omega) hh halloc
  | none =>
      refine takes_bind ((takes_mallocSmall henv hinv₁.chain hbig (by decide) (by decide)).mono ?_)
      rintro p s₃ ⟨hchain, hcarved, hkeeps⟩
      have hblocks : blocks U s₂ = blocks U s₃ := by
        unfold blocks
        rw [hkeeps.headers]
      have hlarge : Headers pool U s₃ := by
        refine hinv₁.large.congr hkeeps.headers hkeeps.large fun h hh => ?_
        have hmem : (h, 24) ∈ (a, z) :: blocks U s₂ :=
          List.mem_cons_of_mem _ (mem_blocks_of_header hh)
        exact State.header_frame fun x hx hx' => hkeeps.bytes _ hmem x hx hx'
      rw [hblocks] at hcarved
      refine Ok.takes ?_
      split_ifs with hp
      · rw [if_pos hp] at hcarved
        obtain ⟨hregion, hdrop⟩ := Inv.drop hchain hcarved hlarge hz
        rw [ok_bind, ok_free hregion, ok_pure]
        exact ⟨hdrop, hkeeps.outstanding.trans hout⟩
      · rw [if_neg hp] at hcarved
        have hplt : p + 24 < 2 ^ 64 := (hcarved.bounds hchain List.mem_cons_self).2
        rw [ok_bind]
        refine (Inv.ok_linkLarge hchain hcarved hlarge hz (by omega) (by omega)).mono ?_
        rintro - s₄ ⟨hinv₄, hout₄⟩
        rw [ok_pure]
        refine ⟨?_, hout₄.trans (hkeeps.outstanding.trans hout)⟩
        rw [if_neg hne]
        exact hinv₄

theorem Headers.addSmall (hlarge : Headers pool U s) (hz : z ≤ 4064) :
    Headers pool ((p, z) :: U) s where
  links := hlarge.links
  alloc h hh :=
    (hlarge.alloc h hh).imp_right fun ⟨z', hz', hmem⟩ => ⟨z', hz', List.mem_cons_of_mem _ hmem⟩
  owner := by
    rw [List.forall_mem_cons]
    exact ⟨fun hz' => absurd hz (Nat.not_le_of_gt hz'), hlarge.owner⟩
  distinct := hlarge.distinct

/-- **`mp_malloc`** keeps the invariant, with the new block. -/
theorem takes_malloc (henv : Clean env) (hinv : Inv pool U s) (size : Nat) :
    Takes (mpMalloc env pool size) s fun p s' => Granted pool U size p s s' := by
  unfold mpMalloc
  split_ifs with hzero hlarge
  · exact Ok.takes ((ok_pure _ _ _).mpr ⟨hinv, rfl⟩)
  · exact takes_mallocLarge henv hinv hlarge
  · have hle : size ≤ 4064 := Nat.le_of_not_gt hlarge
    refine (takes_mallocSmall henv hinv.chain hinv.carved (Nat.pos_of_ne_zero hzero) hle).mono ?_
    rintro p s' ⟨hchain, hcarved, hkeeps⟩
    have hheaders : Headers pool U s' := by
      refine hinv.large.congr hkeeps.headers hkeeps.large fun h hh => ?_
      exact State.header_frame fun x hx hx' => hkeeps.bytes _ (mem_blocks_of_header hh) x hx hx'
    have hblocks : blocks U s = blocks U s' := by
      unfold blocks
      rw [hkeeps.headers]
    rw [hblocks] at hcarved
    refine ⟨?_, hkeeps.outstanding⟩
    split_ifs at hcarved ⊢ with hp
    · exact ⟨hchain, hcarved, hheaders⟩
    · exact ⟨hchain, hcarved, hheaders.addSmall hle⟩

end Malloc

end KvStore.Mempool
