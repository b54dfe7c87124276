import KvStore.Mempool.Free

set_option autoImplicit false

/-! # The safety of the pool

`mp_create_pool` establishes the invariant, when the memory it gets is clean (`takes_create`), and
every step of the clients keeps it (`Inv.takes_step`). So in every run the blocks of the clients and
the headers are apart from each other, aligned and inside their nodes, and `quote` counts them
(`mempool_safe`). -/

namespace KvStore.Mempool

open KvStore.Lib

/-! ## A new pool -/

section Create

variable {env : Memalign} {contents : Nat → Bytes}

/-- The state after `posix_memalign` has returned `a`. -/
def allocated (contents : Nat → Bytes) (s : State) (a size : Nat) : State :=
  { s with
    calls := s.calls + 1
    regions := (a, size) :: s.regions
    bytes := overwrite s.bytes a size (contents s.calls) }

theorem le_poolSize {size z : Nat}
    (hz : (if size < pageSize ∨ size % pageSize ≠ 0 then pageSize else size) = z) : 4096 ≤ z := by
  rw [← hz]
  split_ifs with hsize
  · exact le_rfl
  · exact Nat.le_of_not_lt fun hlt => hsize (Or.inl hlt)

/-- What is at the place of the head. -/
theorem allocated_head {s : State} {a z : Nat} (hz : 4096 ≤ z) :
    (allocated contents s a z).node (a + 24) = nodeCodec.read (contents s.calls) sizeofPool := by
  rw [State.node_def]
  refine nodeCodec.read_overwrite_inside ?_
  show 24 + 32 ≤ z
  omega

/-- The memory of a new pool at `a`. -/
def initBytes (bytes : Bytes) (a : Nat) : Bytes :=
  nodeCodec.write (poolCodec.write bytes a ⟨0, a + 24, a + 24⟩) (a + 24)
    ⟨a + 4096, a + 24 + 32, 0, 0, 0⟩

/-- When the head is clean, the new pool does not depend on what was in the memory. -/
theorem ok_initPool {s : State} {a : Nat} (hnext : (s.node (a + 24)).next = 0)
    (hquote : (s.node (a + 24)).quote = 0) :
    Ok (initPool a) s
      fun _ s' => s' = { s with nodes := [a + 24], bytes := initBytes s.bytes a } := by
  have hmem : a + sizeofPool ∈ [a + sizeofPool] := List.mem_cons_self
  unfold initPool
  rw [ok_bind, setPool, ok_modify, ok_bind, ok_modify, ok_bind, ok_getNode hmem, setNode, ok_modify]
  -- the record of the pool is before the node
  let s₂ : State := { s with
    bytes := poolCodec.write s.bytes a ⟨0, a + sizeofPool, a + sizeofPool⟩
    nodes := [a + sizeofPool] }
  have hnode : s₂.node (a + 24) = s.node (a + 24) :=
    State.node_frame fun x hx _ => writePool_outside (Or.inr hx)
  show { s₂ with bytes := nodeCodec.write s₂.bytes (a + 24) { s₂.node (a + 24) with
    last := a + 24 + 32, end_ := a + 4096, failed := 0 } } = _
  rw [hnode]
  dsimp only
  rw [hnext, hquote]
  rfl

/-- **`mp_create_pool`** -/
theorem takes_create (henv : Clean env) (size : Nat) (bytes : Bytes) :
    Takes (mpCreatePool env size) (start bytes) fun pool s =>
      pool = 0 ∨ Inv pool s.outstanding s := by
  unfold mpCreatePool
  generalize hz : (if size < pageSize ∨ size % pageSize ≠ 0 then pageSize else size) = z
  have hpage := le_poolSize hz
  refine takes_bind ((takes_posixMemalign env env.contents z).mono ?_)
  rintro r s₁ (⟨rfl, rfl⟩ | ⟨a, rfl, ⟨halign, hpos, hlt, -⟩, hs₁⟩)
  · exact Ok.takes ((ok_pure _ _ _).mpr (Or.inl rfl))
  have hnode₁ : s₁.node (a + 24) = nodeCodec.read (env.contents 0) sizeofPool :=
    hs₁ ▸ allocated_head hpage
  refine Ok.takes ?_
  rw [ok_bind]
  refine (ok_initPool (hnode₁ ▸ henv.headNext) (hnode₁ ▸ henv.headQuote)).mono ?_
  rintro - s₄ hs₄
  rw [ok_pure]
  refine Or.inr ?_
  have hzero : -2 ^ 31 ≤ (0 : Int) ∧ (0 : Int) < 2 ^ 31 := ⟨by norm_num, by norm_num⟩
  have hfits : nodeCodec.Fits ⟨a + 4096, a + 24 + 32, 0, 0, 0⟩ := MpNode.fits_iff.mpr
    ⟨show a + 4096 < 2 ^ 64 by omega, show a + 24 + 32 < 2 ^ 64 by omega, Nat.two_pow_pos 64,
      hzero, hzero⟩
  have hfits' : poolCodec.Fits ⟨0, a + 24, a + 24⟩ :=
    MpPool.fits_iff.mpr
      ⟨Nat.two_pow_pos 64, show a + 24 < 2 ^ 64 by omega, show a + 24 < 2 ^ 64 by omega⟩
  have hnode : s₄.node (a + 24) = ⟨a + 4096, a + 24 + 32, 0, 0, 0⟩ := by
    rw [State.node_def, hs₄]
    exact nodeCodec.read_write _ _ hfits
  have hpool : s₄.poolAt a = ⟨0, a + 24, a + 24⟩ := by
    rw [State.poolAt_def, hs₄]
    exact (poolCodec.read_write_of_disjoint nodeCodec (Or.inl le_rfl)).trans
      (poolCodec.read_write _ _ hfits')
  have hregions : s₄.regions = [(a, z)] := by
    rw [hs₄, hs₁]
    rfl
  have hnodes : s₄.nodes = [a + 24] := by rw [hs₄]
  have hheaders : s₄.headers = [] := by
    rw [hs₄, hs₁]
    rfl
  have hout : s₄.outstanding = [] := by
    rw [hs₄, hs₁]
    rfl
  have hhome : home a (a + 24) = a := home_head a
  rw [hout]
  refine ⟨⟨?_, ?_, ?_, ?_, ?_, ?_, ?_, ?_, ?_⟩, ?_, ?_⟩
  · rw [hs₄, hs₁]
    exact Nat.succ_pos _
  · rw [hregions, List.forall_mem_singleton]
    exact ⟨halign, hpos, hlt⟩
  · rw [hregions]
    exact List.pairwise_singleton _ _
  · rw [hnodes, hregions, List.forall_mem_singleton, hhome]
    exact ⟨z, hpage, List.mem_cons_self⟩
  · rw [hnodes, List.mem_singleton]
    omega
  · rw [hnodes]
    exact ⟨rfl, show (s₄.node (a + 24)).next = 0 by rw [hnode]⟩
  · rw [hpool]
  · rw [hpool, hnodes]
    exact List.mem_cons_self
  · rw [hnodes, List.forall_mem_singleton, hnode, hhome]
  · have hblocks : blocks [] s₄ = [] := by
      unfold blocks
      rw [hheaders]
      rfl
    rw [hblocks]
    refine ⟨?_, ?_, ?_, fun b hb => absurd hb List.not_mem_nil, List.Pairwise.nil⟩ <;>
      rw [hnodes, List.forall_mem_singleton, hnode]
    · rw [hhome]
      exact ⟨le_rfl, show a + 24 + 32 ≤ a + 4096 by omega⟩
    · rfl
    · exact Nat.le_add_right _ 32
  · refine ⟨?_, ?_, fun b hb => absurd hb List.not_mem_nil, ?_⟩ <;> rw [hheaders]
    · rw [hpool]
      rfl
    · exact fun h hh => absurd hh List.not_mem_nil
    · exact fun h hh => absurd hh List.not_mem_nil

end Create

/-! ## The steps of the clients -/

section Steps

variable {env : Memalign} {pool : Nat} {s : State}

/-- A request of a client: the block is in its hands. -/
theorem takes_grant {c : Mp Nat} {size : Nat}
    (hc : Takes c s fun p s' => Granted pool s.outstanding size p s s') :
    Takes (do let p ← c; grant p size; return p) s fun p s' => Inv pool s'.outstanding s' ∧
      s'.outstanding = if p = 0 then s.outstanding else (p, size) :: s.outstanding := by
  refine takes_bind (hc.mono ?_)
  rintro p s₁ ⟨hinv₁, hout⟩
  refine Ok.takes ?_
  rw [ok_bind, grant, ok_modify, ok_pure, hout]
  exact ⟨hinv₁.of_bytes hinv₁.chain.calls rfl rfl rfl rfl, rfl⟩

/-- **`mp_calloc`** clears the new block. -/
theorem takes_calloc (henv : Clean env) {U : List Block} (hinv : Inv pool U s) (size : Nat) :
    Takes (mpCalloc env pool size) s fun p s' => Granted pool U size p s s' := by
  refine takes_bind ((takes_malloc henv hinv size).mono ?_)
  rintro p s₁ ⟨hinv₁, hout⟩
  refine Ok.takes ?_
  by_cases hp : p = 0
  · rw [if_neg (not_not_intro hp), ok_pure]
    exact ⟨hinv₁, hout⟩
  · rw [if_pos hp, ok_bind, ok_modify, ok_pure]
    refine ⟨?_, hout⟩
    rw [if_neg hp] at hinv₁ ⊢
    exact Inv.write hinv₁ List.mem_cons_self _

/-- The block that is freed, in front of the others. -/
theorem exists_perm_eraseP {U : List Block} {p : Nat} (hp : p ∈ U.map Prod.fst) :
    ∃ b : Block, b.1 = p ∧ U.Perm (b :: U.eraseP fun b => b.1 = p) := by
  obtain ⟨b₀, hb₀, hfst⟩ := List.mem_map.mp hp
  obtain ⟨b, l₁, l₂, -, hb, rfl, herase⟩ :=
    List.exists_of_eraseP (p := fun b : Block => decide (b.1 = p)) hb₀ (decide_eq_true hfst)
  refine ⟨b, of_decide_eq_true hb, ?_⟩
  rw [herase]
  exact List.perm_middle

/-- **One step** keeps the invariant, and goes wrong only where there is no such step. -/
theorem Inv.takes_step (henv : Clean env) (hinv : Inv pool s.outstanding s) (o : Op) :
    Takes (step env pool o) s fun _ s' => Inv pool s'.outstanding s' := by
  cases o with
  | malloc size => exact (takes_grant (takes_malloc henv hinv size)).mono fun _ _ h => h.1
  | calloc size => exact (takes_grant (takes_calloc henv hinv size)).mono fun _ _ h => h.1
  | free p =>
      refine takes_await fun hp => ?_
      obtain ⟨b, rfl, hperm⟩ := exists_perm_eraseP hp
      rw [ok_bind]
      refine (Inv.ok_mpFree (hinv.perm hperm)).mono ?_
      rintro - s₁ ⟨hinv₁, hout⟩
      rw [ok_bind, ok_modify, ok_pure, hout]
      exact hinv₁.of_bytes hinv₁.chain.calls rfl rfl rfl rfl
  | reset =>
      refine Ok.takes ?_
      rw [step, ok_bind]
      refine hinv.ok_mpResetPool.mono ?_
      rintro - s₁ ⟨hinv₁, -⟩
      rw [ok_bind, ok_modify, ok_pure]
      exact hinv₁.of_bytes hinv₁.chain.calls rfl rfl rfl rfl
  | write b data =>
      refine takes_await fun hb => ?_
      rw [ok_bind, ok_modify, ok_pure]
      exact hinv.write hb data

end Steps

/-! ## Every run -/

section Runs

variable {env : Memalign} {pool size : Nat} {bytes : Bytes} {s : State} {ops : List Op}
  {rs : List Nat}

/-- The invariant holds at the end of every run. -/
theorem Inv.of_session (henv : Clean env) (hpool : pool ≠ 0)
    (hrun : (session env size ops).run (start bytes) = .ok ((pool, rs), s)) :
    Inv pool s.outstanding s := by
  have hstep : ∀ pool o s r s', True → Inv pool s.outstanding s →
    (step env pool o).run s = .ok (r, s') →
      Inv pool s'.outstanding s' := fun pool o s r s' _ h ho => (h.takes_step henv o).of_run ho
  have hsession : Returns (session env size ops) (start bytes) fun r s =>
      r.1 ≠ 0 → Inv r.1 s.outstanding s := by
    refine returns_bind fun pool s₁ hcreate => ?_
    have hcreated := (takes_create henv size bytes).of_run hcreate
    dsimp only
    split_ifs with hzero
    · exact returns_pure fun hne => absurd rfl hne
    · refine returns_bind fun rs s₂ hrun₂ => returns_pure fun _ => ?_
      exact runAll_invariant (P := fun _ => True) (hstep pool) (fun _ _ => trivial)
        (hcreated.resolve_left hzero) hrun₂
  exact hsession _ _ hrun hpool

/-- A node in memory that is filled with zeros. -/
theorem node_read_zero (a : Nat) : nodeCodec.read (fun _ => 0) a = ⟨0, 0, 0, 0, 0⟩ := by
  dsimp only [nodeCodec, Codec.iso, Codec.prod, Equiv.coe_fn_mk]
  simp only [Codec.word_read_zero, Codec.int_read_zero]

theorem clean_of_zero (hzero : ∀ k i, env.contents k i = 0) : Clean env := by
  have hcontents : ∀ k, env.contents k = fun _ => 0 := fun k => funext (hzero k)
  refine ⟨?_, ?_, fun k _ => ?_⟩ <;> rw [hcontents, node_read_zero]

end Runs

/-- **The pool is safe.** When the pool and its nodes get zero-filled memory, then in every state of
every run the blocks of the clients and the headers of the pool are apart from each other and
aligned, those that are small lie between the header of a node and its end, and `quote` is the
number of blocks inside the node. What `mp_malloc` and `mp_calloc` return is aligned, and the block
that the client gets has the size it asked for. No step follows a pointer that is not one of the
pool. -/
theorem mempool_safe (env : Memalign) (hzero : ∀ k i, env.contents k i = 0) (size : Nat)
    (ops : List Op) (bytes : Bytes) (pool : Nat) (rs : List Nat) (s : State)
    (hrun : (session env size ops).run (start bytes) = .ok ((pool, rs), s)) (hpool : pool ≠ 0) :
    (blocks s.outstanding s).Pairwise Apart ∧
    (∀ b ∈ blocks s.outstanding s, b.1 % 16 = 0 ∧ 0 < b.2 ∧
      (b.2 ≤ pageSize - sizeofNode →
        ∃ n ∈ s.nodes, n + sizeofNode ≤ b.1 ∧ b.1 + b.2 ≤ (s.node n).end_) ∧
      (pageSize - sizeofNode < b.2 → b ∈ s.regions ∧
        ∀ n ∈ s.nodes, b.1 + b.2 ≤ n ∨ (s.node n).end_ ≤ b.1)) ∧
    (∀ n ∈ s.nodes, (s.node n).quote = (blocks s.outstanding s).countP fun b =>
      n + sizeofNode ≤ b.1 ∧ b.1 + b.2 ≤ (s.node n).end_) ∧
    Links (fun n => (s.node n).next) (s.poolAt pool).head s.nodes 0 ∧
    Links (fun h => (s.header h).next) (s.poolAt pool).large s.headers 0 ∧
    (∀ z r s', (step env pool (.malloc z)).run s = .ok (r, s') ∨
        (step env pool (.calloc z)).run s = .ok (r, s') →
      r % 16 = 0 ∧ s'.outstanding = if r = 0 then s.outstanding else (r, z) :: s.outstanding) ∧
    ∀ o e, (step env pool o).run s = .error e → e = .blocked := by
  have henv := clean_of_zero hzero
  have hinv := Inv.of_session henv hpool hrun
  have hc := hinv.chain
  refine ⟨hinv.carved.blocks, fun b hb => ?_, fun n hn => ?_, hc.head.symm ▸ hc.links,
    hinv.large.links, fun z r s' hr => ?_, fun o e ho => (hinv.takes_step henv o).eq_blocked ho⟩
  · obtain ⟨hpos, halign, hplaced⟩ := hinv.carved.block b hb
    refine ⟨halign, hpos, fun hsmall => ?_, fun hlarge => ?_⟩
    · obtain ⟨-, n, hn, hused⟩ :=
        hplaced.resolve_right fun hlarge => Nat.not_le_of_gt hlarge.1 hsmall
      exact ⟨n, hn, hused.1, (hc.ends n hn).symm ▸ hused.2.trans (hinv.carved.last n hn).2⟩
    · obtain ⟨-, hregion, hown⟩ :=
        hplaced.resolve_left fun hsmall => Nat.not_le_of_gt hlarge hsmall.1
      refine ⟨hregion, fun n hn => ?_⟩
      obtain ⟨z, hz, hr⟩ := hc.homes n hn
      have hapart := hc.regions_apart hregion hr (hown n hn)
      have hbounds := hc.node_bounds hn
      unfold Apart at hapart
      dsimp only at hapart
      rw [hc.ends n hn]
      omega
  · rw [hinv.carved.quote n hn, hc.ends n hn]
    rfl
  · have hstep : Inv pool s'.outstanding s' ∧
        s'.outstanding = if r = 0 then s.outstanding else (r, z) :: s.outstanding := by
      rcases hr with hr | hr
      · exact (takes_grant (takes_malloc henv hinv z)).of_run hr
      · exact (takes_grant (takes_calloc henv hinv z)).of_run hr
    obtain ⟨hinv', hout⟩ := hstep
    refine ⟨?_, hout⟩
    by_cases hr0 : r = 0
    · rw [hr0]
    · rw [if_neg hr0] at hout
      have hmem : (r, z) ∈ blocks s'.outstanding s' := mem_blocks_of_mem (hout ▸ List.mem_cons_self)
      exact (hinv'.carved.block _ hmem).2.1

/-- Regions at the multiples of `8192`: one client asks for a small block and for a large one, and
gives the small one back. -/
def sampleEnv : Memalign := ⟨fun k => some (8192 * (k + 1)), fun _ _ => 0, fun _ _ => 0⟩

def sampleOps : List Op := [.malloc 100, .calloc 5000, .free 8256]

theorem mempool_safe_sample :
    ∃ s,
      (session sampleEnv 0 sampleOps).run (start fun _ => 0) = .ok ((8192, [8256, 16384, 0]), s) ∧
      (blocks s.outstanding s).Pairwise Apart := by
  have hresult : ((session sampleEnv 0 sampleOps).run (start fun _ => 0)).toOption.map Prod.fst =
      some (8192, [8256, 16384, 0]) := by decide +kernel
  obtain ⟨s, hrun⟩ := exists_of_result hresult
  exact ⟨s, hrun, (mempool_safe sampleEnv (fun _ _ => rfl) 0 sampleOps _ _ _ s hrun (by decide)).1⟩

end KvStore.Mempool
