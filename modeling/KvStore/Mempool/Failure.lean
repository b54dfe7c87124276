import KvStore.Mempool.Safety

set_option autoImplicit false

/-! # Allocations that fail

`mp_malloc` and `mp_calloc` return `NULL` for the size zero, and when `posix_memalign` fails: for
the new node of a small block, for a large block, or for the node that the header of a large block
needs. The last case comes after the large block has been allocated, which is then freed again. In
each of them the pool is as it was before the call (`failed_malloc_untouched`). -/

namespace KvStore.Mempool

open KvStore.Lib

/-- The pool is as before: its record, its nodes and the list of its large blocks; and what is
allocated now was so before the call, and is not lost. -/
structure Untouched (pool : Nat) (s s' : State) : Prop where
  pool : s'.poolAt pool = s.poolAt pool
  nodes : s'.nodes = s.nodes
  node : ∀ n ∈ s.nodes, s'.node n = s.node n
  headers : s'.headers = s.headers
  header : ∀ h ∈ s.headers, s'.header h = s.header h
  freed : ∀ r ∈ s'.regions, r ∈ s.regions
  kept : ∀ r ∈ s.regions, 0 < r.2 → r ∈ s'.regions
  outstanding : s'.outstanding = s.outstanding

section Failure

variable {env : Memalign} {pool size z : Nat} {B U : List Block} {s : State}

theorem untouched_calls (pool : Nat) (s : State) (calls : Nat) :
    Untouched pool s { s with calls := calls } :=
  ⟨State.poolAt_frame fun _ _ _ => rfl, rfl, fun _ _ => State.node_frame fun _ _ _ => rfl, rfl,
    fun _ _ => State.header_frame fun _ _ _ => rfl, fun _ hr => hr, fun _ hr _ => hr, rfl⟩

/-- `mp_malloc_block` returns `NULL` only when `posix_memalign` fails, before anything is
changed. -/
theorem mallocBlock_null (env : Memalign) (pool size : Nat) (s : State) :
    Returns (mpMallocBlock env pool size) s
      fun p s' => p = 0 → s' = { s with calls := s.calls + 1 } := by
  refine returns_bind fun r s₁ hrun => ?_
  rcases (takes_posixMemalign env env.contents pageSize).of_run hrun
    with ⟨rfl, rfl⟩ | ⟨a, rfl, ⟨h16, hpos, hlt, -⟩, -⟩
  · exact returns_pure fun _ => rfl
  · have hne : mpAlignPtr (a + sizeofNode) ≠ 0 := by
      have hpage : pageSize = 4096 := rfl
      have halign := align_spec (p := a + 32) (e := a + 4096) (by omega) (by omega) (by omega)
      show mpAlignPtr (a + 32) ≠ 0
      omega
    refine returns_get_bind (returns_bind fun _ s₂ _ => returns_bind fun _ s₃ _ => returns_pure ?_)
    exact fun hnull => absurd hnull hne

/-- The small branch of `mp_malloc` returns `NULL` only when no node has space and no new one is to
be had. -/
theorem Carved.mallocSmall_null (hc : Chain pool s) (h : Carved pool B s) (env : Memalign)
    (size : Nat) :
    Returns (mpMallocSmall env pool size) s
      fun p s' => p = 0 → s' = { s with calls := s.calls + 1 } := by
  refine returns_bind (((ok_getPool pool _).mpr ?_).returns)
  refine returns_bind ((h.ok_carve hc size).returns.mono ?_)
  rintro r s₁ (⟨rfl, rfl⟩ | ⟨n, hn, rfl, -, rfl⟩)
  · exact mallocBlock_null env pool size s₁
  · refine returns_pure fun hnull => ?_
    have hlast := h.last n hn
    have hnext := h.next_bounds hc hn
    omega

/-- A region is allocated for a large block, and freed again. -/
theorem Inv.untouched_freed (hinv : Inv pool U s) {a : Nat} (hz : 0 < z)
    (hfresh : Fresh s.regions a z) (calls : Nat) (contents : Nat → UInt8) :
    Untouched pool s { s with
      calls := calls
      regions := ((a, z) :: s.regions).filter fun r => r.1 ≠ a
      bytes := overwrite s.bytes a z contents } := by
  have hframe : ∀ x, x < a ∨ a + z ≤ x → State.bytes { s with
      calls := calls
      regions := ((a, z) :: s.regions).filter fun r => r.1 ≠ a
      bytes := overwrite s.bytes a z contents } x = s.bytes x := fun x hx => overwrite_outside hx
  obtain ⟨hnode, hpool⟩ := hinv.chain.of_fresh hfresh hframe
  refine ⟨hpool, rfl, hnode, rfl, fun h hh => ?_, fun r hr => ?_, fun r hr hpos => ?_, rfl⟩
  · have hapart : a + z ≤ h ∨ h + 24 ≤ a :=
      hinv.carved.fresh_apart hinv.chain hfresh (mem_blocks_of_header hh)
    exact State.header_frame fun x hx hx' => overwrite_outside (by omega)
  · obtain ⟨hmem, hne⟩ := List.mem_filter.mp hr
    rcases List.mem_cons.mp hmem with rfl | hmem
    · exact absurd rfl (of_decide_eq_true hne)
    · exact hmem
  · have hne : r.1 ≠ a := by
      have hapart := hfresh.2.2.2 r hr
      omega
    exact List.mem_filter.mpr ⟨List.mem_cons_of_mem _ hr, decide_eq_true hne⟩

/-- `mp_malloc_large` returns `NULL` when there is no region for the block, or no place for its
header. -/
theorem Inv.mallocLarge_null (hinv : Inv pool U s) (env : Memalign) (hz : 4064 < z) :
    Returns (mpMallocLarge env pool z) s fun p s' => p = 0 → Untouched pool s s' := by
  refine returns_bind fun r s₁ hrun => ?_
  rcases (takes_posixMemalign env env.large z).of_run hrun with
    ⟨rfl, rfl⟩ | ⟨a, rfl, hfresh, rfl⟩
  · exact returns_pure fun _ => untouched_calls pool s _
  have hne : a ≠ 0 := hfresh.2.1.ne'
  have hallocated : Inv pool U (allocated env.large s a z) ∧ _ :=
    hinv.allocate hz hfresh (Nat.succ_pos _) rfl rfl rfl fun x hx => overwrite_outside hx
  have hinv₁ := hallocated.1
  refine returns_bind (((ok_getPool pool _).mpr ?_).returns)
  refine returns_bind (hinv₁.ok_released.returns.mono ?_)
  rintro r s₂ ⟨rfl, -⟩
  cases r with
  | some h =>
      -- a vacated header is used again
      refine returns_bind fun _ s₃ _ => returns_bind fun _ s₄ _ => returns_pure fun hnull => ?_
      exact absurd hnull hne
  | none =>
      refine returns_bind ((hinv₁.carved.mallocSmall_null hinv₁.chain env sizeofLarge).mono ?_)
      intro p s₃ hs₃
      split_ifs with hp
      · obtain rfl := hs₃ hp
        refine returns_bind (((ok_free ?_ _).mpr ?_).returns)
        · exact List.mem_cons_self
        · exact returns_pure fun _ => hinv.untouched_freed (by omega) hfresh _ _
      · exact returns_bind fun _ s₄ _ => returns_pure fun hnull => absurd hnull hne

theorem Inv.malloc_null (hinv : Inv pool U s) (env : Memalign) (size : Nat) :
    Returns (mpMalloc env pool size) s fun p s' => p = 0 → Untouched pool s s' := by
  unfold mpMalloc
  split_ifs with hzero hlarge
  · exact returns_pure fun _ => untouched_calls pool s s.calls
  · exact hinv.mallocLarge_null env hlarge
  · refine (hinv.carved.mallocSmall_null hinv.chain env size).mono fun p s' hs' hnull => ?_
    rw [hs' hnull]
    exact untouched_calls pool s _

theorem Inv.calloc_null (hinv : Inv pool U s) (env : Memalign) (size : Nat) :
    Returns (mpCalloc env pool size) s fun p s' => p = 0 → Untouched pool s s' := by
  refine returns_bind ((hinv.malloc_null env size).mono fun p s₁ hs₁ => ?_)
  split_ifs with hp
  · exact returns_bind fun _ s₂ _ => returns_pure fun hnull => absurd hnull hp
  · exact returns_pure hs₁

end Failure

/-- **A failed allocation changes nothing.** In every state of every run, and whichever calls of
`posix_memalign` fail: when `mp_malloc` or `mp_calloc` returns `NULL`, the record of the pool, its
nodes and the list of its large blocks are what they were, and every region that was allocated
during the call has been freed. -/
theorem failed_malloc_untouched (env : Memalign) (hzero : ∀ k i, env.contents k i = 0) (size : Nat)
    (ops : List Op) (bytes : Bytes) (pool : Nat) (rs : List Nat) (s : State)
    (hrun : (session env size ops).run (start bytes) = .ok ((pool, rs), s))
    (hpool : pool ≠ 0) (z : Nat) (s' : State) (hnull : (mpMalloc env pool z).run s = .ok (0, s') ∨
      (mpCalloc env pool z).run s = .ok (0, s')) :
    Links (fun n => (s.node n).next) (s.poolAt pool).head s.nodes 0 ∧
      Links (fun h => (s.header h).next) (s.poolAt pool).large s.headers 0 ∧
      Untouched pool s s' := by
  have hinv := Inv.of_session (clean_of_zero hzero) hpool hrun
  refine ⟨hinv.chain.head.symm ▸ hinv.chain.links, hinv.large.links, ?_⟩
  rcases hnull with hnull | hnull
  · exact hinv.malloc_null env z 0 s' hnull rfl
  · exact hinv.calloc_null env z 0 s' hnull rfl

/-- Two regions are to be had: one for the pool, and one for a large block. -/
def failingEnv : Memalign :=
  ⟨fun k => if k < 2 then some (8192 * (k + 1)) else none, fun _ _ => 0, fun _ _ => 0⟩

/-- A client fills the first node, so that the header of a large block would need a new one. -/
theorem failed_malloc_untouched_header :
    ∃ s s', (session failingEnv 0 [.malloc 4032]).run (start fun _ => 0) = .ok ((8192, [8256]), s) ∧
      (mpMalloc failingEnv 8192 5000).run s = .ok (0, s') ∧ s'.calls = 3 ∧ Untouched 8192 s s' := by
  have hresult : ((session failingEnv 0 [.malloc 4032]).run (start fun _ => 0)).toOption.map
      Prod.fst = some (8192, [8256]) := by decide +kernel
  have hok : Ok (session failingEnv 0 [.malloc 4032]) (start fun _ => 0) fun _ s =>
      ((mpMalloc failingEnv 8192 5000).run s).toOption.map
          (fun r => (r.1, r.2.calls)) = some (0, 3) :=
    ok_of_view
      (fun s => ((mpMalloc failingEnv 8192 5000).run s).toOption.map fun r => (r.1, r.2.calls))
      (by decide +kernel)
  obtain ⟨s, hrun⟩ := exists_of_result hresult
  have hmalloc := (ok_of_run hrun _).mp hok
  cases hc : (mpMalloc failingEnv 8192 5000).run s with
  | error e =>
      rw [hc] at hmalloc
      cases hmalloc
  | ok q =>
      obtain ⟨p, s'⟩ := q
      rw [hc] at hmalloc
      obtain ⟨hp, hcalls⟩ := Prod.mk.inj (Option.some.inj hmalloc)
      change p = 0 at hp
      subst hp
      exact ⟨s, s', hrun, hc, hcalls,
        (failed_malloc_untouched failingEnv (fun _ _ => rfl) 0 _ _ _ _ s hrun
        (by decide) 5000 s' (Or.inl hc)).2.2⟩

end KvStore.Mempool
