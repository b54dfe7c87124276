import KvStore.Lib.Bytes
import KvStore.Lib.Links
import KvStore.Lib.Interleaving

set_option autoImplicit false

/-! # The pool of fixed blocks

The functions of `pool/kvstore_mp.c`, over a memory of bytes. The free blocks of a page are linked
through their first eight bytes, and the clients write what they like into the blocks they have. The
last link leads out of the page, so it is `free_count` that ends the list: it has exactly that many
blocks (`Inv`). Hence `mp_alloc` never hands out a block twice, or anything that is not a block
(`mp_alloc_disjoint`).

The writes of `mp_init` succeed, also the one behind the last block; whether that one is in the page
is `mp_init_inside_iff`. -/

namespace KvStore.Pool.Blocks

open KvStore.Lib

/-! ## The pool, as written -/

/-- `MEM_PAGE_SIZE` -/
def memPageSize : Nat := 4096

/-- `mempool_t` -/
structure Mempool where
  blockSize : Nat
  freeCount : Nat
  freePtr : Nat
  mem : Nat

/-- A page that `malloc` may return: not `NULL`, and not over the end of the address space. -/
structure Page where
  addr : Nat
  addr_pos : 0 < addr
  addr_lt : addr + memPageSize < 2 ^ 64

/-- The pool and the memory, with the blocks that the clients have. -/
structure State where
  pool : Mempool
  bytes : Bytes
  outstanding : List Nat

abbrev Mp (α : Type) := Exec State α

def loadPtr (ptr : Nat) : Mp Nat := do return load64 (← get).bytes ptr

def storePtr (ptr v : Nat) : Mp Unit := modify fun s => { s with bytes := store64 s.bytes ptr v }

def setPool (m : Mempool) : Mp Unit := modify ({ · with pool := m })

/-- The loop of `mp_init`, with `n` iterations left; it returns the last `ptr`. -/
def linkLoop (size : Nat) : Nat → Nat → Mp Nat
  | 0, ptr => return ptr
  | n + 1, ptr => do
      storePtr ptr (ptr + size)
      linkLoop size n (ptr + size)

/-- The block size for the argument of `mp_init`. -/
def sizeOf (size : Int) : Nat := if size < 16 then 16 else size.toNat

theorem sixteen_le_sizeOf (size : Int) : 16 ≤ sizeOf size := by
  unfold sizeOf
  split_ifs <;> omega

/-- `mp_init`, where `malloc` returns `page`. -/
def mpInit (size : Int) (page : Option Page) : Mp Int := do
  let size := sizeOf size
  match page with
  | none =>
      setPool { (← get).pool with blockSize := size, mem := 0 }
      return -1
  | some page =>
      setPool ⟨size, memPageSize / size, page.addr, page.addr⟩
      let ptr ← linkLoop size (← get).pool.freeCount (← get).pool.freePtr
      storePtr ptr 0
      return 0

def mpAlloc : Mp Nat := do
  let m := (← get).pool
  if m.freeCount = 0 then
    return 0
  else
    let ptr := m.freePtr
    setPool { m with freePtr := ← loadPtr ptr, freeCount := m.freeCount - 1 }
    return ptr

def mpFree (ptr : Nat) : Mp Unit := do
  let m := (← get).pool
  storePtr ptr m.freePtr
  setPool { m with freePtr := ptr, freeCount := m.freeCount + 1 }

/-! ## The clients -/

/-- What the clients do. -/
inductive Op where
  | alloc
  /-- A block is given back. -/
  | free (ptr : Nat)
  /-- The bytes of a block are overwritten by `data`. -/
  | write (ptr : Nat) (data : Nat → UInt8)

/-- **One step**: a client frees and writes only blocks that it has. -/
def step : Op → Mp Nat
  | .alloc => do
      let ptr ← mpAlloc
      modify
        fun s => { s with outstanding := if ptr = 0 then s.outstanding else ptr :: s.outstanding }
      return ptr
  | .free ptr => await (fun s => ptr ∈ s.outstanding) do
      mpFree ptr
      modify fun s => { s with outstanding := s.outstanding.erase ptr }
      return 0
  | .write ptr data => await (fun s => ptr ∈ s.outstanding) do
      modify fun s => { s with bytes := overwrite s.bytes ptr s.pool.blockSize data }
      return 0

/-! ## The invariant -/

/-- The block `i` of the page at `mem`. -/
def block (mem size i : Nat) : Nat := mem + i * size

/-- The blocks of the page. -/
def blocks (mem size : Nat) : List Nat := (List.range (memPageSize / size)).map (block mem size)

/-- **The free list and the clients share the blocks of the page.** -/
structure Inv (page : Page) (size : Nat) (s : State) : Prop where
  size_le : 16 ≤ size
  blockSize : s.pool.blockSize = size
  mem : s.pool.mem = page.addr
  freePtr_lt : s.pool.freePtr < 2 ^ 64
  free : ∃ L q, Links (load64 s.bytes) s.pool.freePtr L q ∧ L.length = s.pool.freeCount ∧
    (L ++ s.outstanding).Perm (blocks page.addr size)

section Blocks

variable {page : Page} {size mem : Nat} {s : State}

theorem mem_blocks {p : Nat} :
    p ∈ blocks mem size ↔ ∃ i < memPageSize / size, p = block mem size i := by
  unfold blocks
  rw [List.mem_map]
  simp only [List.mem_range]
  exact exists_congr fun i => and_congr_right fun _ => eq_comm

theorem block_le {i : Nat} (hi : i < memPageSize / size) :
    block mem size i + size ≤ mem + memPageSize := by
  have hle : (i + 1) * size ≤ memPageSize :=
    (Nat.mul_le_mul_right size hi).trans (Nat.div_mul_le_self memPageSize size)
  unfold block
  rw [Nat.succ_mul] at hle
  omega

/-- Two blocks do not overlap. -/
theorem block_disjoint (mem size : Nat) {i j : Nat} (hij : i ≠ j) :
    block mem size i + size ≤ block mem size j ∨ block mem size j + size ≤ block mem size i := by
  unfold block
  rcases Nat.lt_or_gt_of_ne hij with h | h
  · have := Nat.mul_le_mul_right size (Nat.succ_le_of_lt h)
    rw [Nat.succ_mul] at this
    omega
  · have := Nat.mul_le_mul_right size (Nat.succ_le_of_lt h)
    rw [Nat.succ_mul] at this
    omega

theorem blocks_disjoint {p p' : Nat} (hp : p ∈ blocks mem size) (hp' : p' ∈ blocks mem size)
    (hne : p ≠ p') : p + size ≤ p' ∨ p' + size ≤ p := by
  obtain ⟨i, -, rfl⟩ := mem_blocks.mp hp
  obtain ⟨j, -, rfl⟩ := mem_blocks.mp hp'
  exact block_disjoint mem size fun hij => hne (by rw [hij])

theorem nodup_blocks (hsize : 16 ≤ size) : (blocks mem size).Nodup := by
  refine List.Nodup.map_on (fun i _ j _ heq => ?_) List.nodup_range
  by_contra hij
  rcases block_disjoint mem size hij with h | h <;> omega

theorem length_blocks : (blocks mem size).length = memPageSize / size := by
  unfold blocks
  rw [List.length_map, List.length_range]

theorem blocks_bounds {p : Nat} (hp : p ∈ blocks page.addr size) : 0 < p ∧ p < 2 ^ 64 := by
  obtain ⟨i, hi, rfl⟩ := mem_blocks.mp hp
  have hle : block page.addr size i + size ≤ page.addr + memPageSize := block_le hi
  have hpos := page.addr_pos
  have hlt := page.addr_lt
  unfold block at hle ⊢
  omega

end Blocks

/-! ## What the functions do -/

section Steps

variable {page : Page} {size : Nat} {s : State}

theorem ok_loadPtr (ptr : Nat) (Q : Nat → State → Prop) :
    Ok (loadPtr ptr) s Q ↔ Q (load64 s.bytes ptr) s := by
  unfold loadPtr
  rw [ok_bind, ok_get, ok_pure]

/-- The loop of `mp_init` links the blocks from `ptr` on, and writes nothing else. -/
theorem ok_linkLoop (hsize : 16 ≤ size) : ∀ (n ptr : Nat) (s : State), ptr + n * size < 2 ^ 64 →
    Ok (linkLoop size n ptr) s fun r s' =>
      r = ptr + n * size ∧ s'.pool = s.pool ∧ s'.outstanding = s.outstanding ∧
      (∀ i < n, load64 s'.bytes (ptr + i * size) = ptr + (i + 1) * size) ∧
      ∀ a, a + 8 ≤ ptr → load64 s'.bytes a = load64 s.bytes a := by
  intro n
  induction n with
  | zero =>
      intro ptr s _
      refine (ok_pure _ _ _).mpr ⟨by omega, rfl, rfl, fun i hi => absurd hi (Nat.not_lt_zero i), ?_⟩
      exact fun _ _ => rfl
  | succ n ih =>
      intro ptr s hlt
      have hnext : ptr + size + n * size = ptr + (n + 1) * size := by
        rw [Nat.succ_mul]
        omega
      rw [linkLoop, ok_bind, storePtr, ok_modify]
      refine (ih (ptr + size) _ (by omega)).mono ?_
      rintro r s' ⟨rfl, hpool, hout, hlinks, hframe⟩
      refine ⟨hnext, hpool, hout, fun i hi => ?_, fun a ha => ?_⟩
      · cases i with
        | zero =>
            have hfirst := hframe ptr (by omega)
            rw [load64_store64 (by rw [← hnext] at hlt; omega)] at hfirst
            rw [Nat.zero_mul, Nat.add_zero, Nat.zero_add, Nat.one_mul]
            exact hfirst
        | succ i =>
            have hrest := hlinks i (by omega)
            have hplace : ∀ j, ptr + size + j * size = ptr + (j + 1) * size := by
              intro j
              rw [Nat.succ_mul]
              omega
            rw [hplace, hplace] at hrest
            exact hrest
      · rw [hframe a (by omega), load64_store64_of_disjoint (by omega)]

/-- **`mp_init`** puts all the blocks of the page on the free list. -/
theorem ok_mpInit (size : Int) (page : Page) (hs : s.outstanding = []) :
    Ok (mpInit size (some page)) s fun r s' =>
      r = 0 ∧ Inv page (sizeOf size) s' ∧ s'.outstanding = [] := by
  have hsize := sixteen_le_sizeOf size
  unfold mpInit
  dsimp only
  generalize sizeOf size = n at hsize ⊢
  rw [ok_bind, setPool, ok_modify, ok_bind, ok_get, ok_bind, ok_get, ok_bind]
  have hend : memPageSize / n * n ≤ memPageSize := Nat.div_mul_le_self memPageSize n
  have hpage := page.addr_lt
  refine (ok_linkLoop hsize (memPageSize / n) page.addr _ (by omega)).mono ?_
  rintro r s' ⟨rfl, hpool, hout, hlinks, -⟩
  rw [ok_bind, storePtr, ok_modify, ok_pure]
  refine ⟨rfl, ⟨hsize, congrArg Mempool.blockSize hpool, congrArg Mempool.mem hpool, ?_, ?_⟩,
    hout.trans hs⟩
  · show s'.pool.freePtr < 2 ^ 64
    rw [hpool]
    show page.addr < 2 ^ 64
    omega
  · refine ⟨blocks page.addr n, block page.addr n (memPageSize / n), ?_, ?_, ?_⟩
    · have hrow : ∀ i < memPageSize / n,
          load64 (store64 s'.bytes (page.addr + memPageSize / n * n) 0) (block page.addr n i) =
            block page.addr n (i + 1) := by
        intro i hi
        have hbefore := Nat.mul_le_mul_right n (Nat.succ_le_of_lt hi)
        rw [Nat.succ_mul] at hbefore
        unfold block
        rw [load64_store64_of_disjoint (by omega), hlinks i hi]
      have hfirst : block page.addr n 0 = s'.pool.freePtr := by
        rw [hpool, block, Nat.zero_mul]
        rfl
      show Links _ s'.pool.freePtr _ _
      rw [← hfirst]
      exact links_row hrow
    · show (blocks page.addr n).length = s'.pool.freeCount
      rw [hpool, length_blocks]
    · show (blocks page.addr n ++ s'.outstanding).Perm _
      rw [hout, hs, List.append_nil]

/-- **`mp_alloc`** returns a block that nobody has, or `NULL` when there is none. -/
theorem Inv.ok_alloc (h : Inv page size s) :
    Ok (step .alloc) s fun r s' => Inv page size s' ∧
      (r = 0 ↔ s.outstanding.length = memPageSize / size) ∧
      (r ≠ 0 → r ∈ blocks page.addr size ∧ r ∉ s.outstanding) := by
  obtain ⟨L, q, hlinks, hlen, hperm⟩ := h.free
  have hcount := hperm.length_eq
  rw [List.length_append, length_blocks] at hcount
  rw [step, ok_bind, mpAlloc, ok_bind, ok_get]
  dsimp only
  split_ifs with hzero
  · rw [ok_pure, ok_bind, ok_modify, ok_pure]
    refine ⟨⟨h.size_le, h.blockSize, h.mem, h.freePtr_lt, L, q, hlinks, hlen, hperm⟩, ?_, ?_⟩
    · exact iff_of_true rfl (by omega)
    · exact fun hne => absurd rfl hne
  · rw [ok_bind, ok_loadPtr, ok_bind, setPool, ok_modify, ok_pure, ok_bind, ok_modify, ok_pure]
    cases L with
    | nil => exact absurd hlen.symm hzero
    | cons a L =>
        obtain ⟨ha, hrest⟩ := hlinks
        have hmem : a ∈ blocks page.addr size := hperm.subset (by simp)
        have hnodup : (a :: L ++ s.outstanding).Nodup :=
          hperm.nodup_iff.mpr (nodup_blocks h.size_le)
        have hne : a ≠ 0 := (blocks_bounds hmem).1.ne'
        rw [ha]
        refine ⟨⟨h.size_le, h.blockSize, h.mem, load64_lt _ _, L, q, hrest, ?_, ?_⟩, ?_,
          fun _ => ?_⟩
        · show L.length = s.pool.freeCount - 1
          rw [← hlen]
          rfl
        · show (L ++ if a = 0 then s.outstanding else a :: s.outstanding).Perm _
          rw [if_neg hne]
          exact List.perm_middle.trans hperm
        · refine iff_of_false hne fun heq => ?_
          rw [List.length_cons] at hcount
          omega
        · refine ⟨hmem, fun hout => ?_⟩
          exact (List.nodup_cons.mp hnodup).1 (List.mem_append_right L hout)

/-- A block that a client has is not on the free list. -/
theorem Inv.disjoint {L : List Nat} (hsize : 16 ≤ size)
    (hperm : (L ++ s.outstanding).Perm (blocks page.addr size)) {ptr : Nat}
    (hptr : ptr ∈ s.outstanding) {a : Nat} (ha : a ∈ L) : a + size ≤ ptr ∨ ptr + size ≤ a := by
  have hnodup : (L ++ s.outstanding).Nodup := hperm.nodup_iff.mpr (nodup_blocks hsize)
  refine blocks_disjoint (hperm.subset (List.mem_append_left _ ha))
    (hperm.subset (List.mem_append_right L hptr)) ?_
  rintro rfl
  exact (List.disjoint_of_nodup_append hnodup) ha hptr

/-- **`mp_free`** puts the block back. -/
theorem Inv.takes_free (h : Inv page size s) (ptr : Nat) :
    Takes (step (.free ptr)) s fun _ s' => Inv page size s' := by
  refine takes_await fun hptr => ?_
  obtain ⟨L, q, hlinks, hlen, hperm⟩ := h.free
  rw [ok_bind, mpFree, ok_bind, ok_get, ok_bind, storePtr, ok_modify, setPool, ok_modify, ok_bind,
    ok_modify, ok_pure]
  have hmem : ptr ∈ blocks page.addr size := hperm.subset (List.mem_append_right L hptr)
  have hsize := h.size_le
  refine ⟨h.size_le, h.blockSize, h.mem, (blocks_bounds hmem).2, ptr :: L, q, ⟨rfl, ?_⟩, ?_, ?_⟩
  · show Links _ (load64 (store64 s.bytes ptr s.pool.freePtr) ptr) L q
    rw [load64_store64 h.freePtr_lt]
    refine hlinks.congr fun a ha => load64_store64_of_disjoint ?_
    have := Inv.disjoint h.size_le hperm hptr ha
    omega
  · show (ptr :: L).length = s.pool.freeCount + 1
    rw [List.length_cons, hlen]
  · show (ptr :: L ++ s.outstanding.erase ptr).Perm _
    refine List.Perm.trans ?_ hperm
    exact List.perm_middle.symm.trans ((List.perm_cons_erase hptr).symm.append_left L)

/-- **A client** writes into its blocks only. -/
theorem Inv.takes_write (h : Inv page size s) (ptr : Nat) (data : Nat → UInt8) :
    Takes (step (.write ptr data)) s fun _ s' => Inv page size s' := by
  refine takes_await fun hptr => ?_
  obtain ⟨L, q, hlinks, hlen, hperm⟩ := h.free
  rw [ok_bind, ok_modify, ok_pure]
  refine ⟨h.size_le, h.blockSize, h.mem, h.freePtr_lt, L, q, ?_, hlen, hperm⟩
  have hsize := h.size_le
  refine hlinks.congr fun a ha => load64_overwrite ?_
  have := Inv.disjoint h.size_le hperm hptr ha
  rw [h.blockSize]
  omega

/-- **One step** keeps the invariant, and goes wrong only where a client does not have the block. -/
theorem Inv.takes_step (h : Inv page size s) (o : Op) :
    Takes (step o) s fun _ s' => Inv page size s' := by
  cases o with
  | alloc => exact Or.inr (h.ok_alloc.mono fun _ _ h' => h'.1)
  | free ptr => exact h.takes_free ptr
  | write ptr data => exact h.takes_write ptr data

end Steps

/-- **`mp_alloc` hands out disjoint blocks.** After `mp_init` and any sequence of allocations, frees
and writes of the clients, it returns `NULL` exactly when all blocks are handed out, and otherwise a
block inside the page that nobody has. No step goes wrong. -/
theorem mp_alloc_disjoint (size : Int) (page : Page) (s₀ : State)
    (hs₀ : s₀.outstanding = []) (r₀ : Int) (s₁ : State)
    (hinit : (mpInit size (some page)).run s₀ = .ok (r₀, s₁)) (ops : List Op) (rs : List Nat)
    (s : State) (hrun : (runAll step ops).run s₁ = .ok (rs, s)) :
    s.pool.blockSize = sizeOf size ∧
    (Ok (step .alloc) s fun r _ =>
      (r = 0 ↔ s.outstanding.length = memPageSize / sizeOf size) ∧
      (r ≠ 0 → (∃ i < memPageSize / sizeOf size, r = page.addr + i * sizeOf size) ∧
        r + sizeOf size ≤ page.addr + memPageSize ∧ r ∉ s.outstanding)) ∧
    s.outstanding.Nodup ∧ ∀ o e, (step o).run s = .error e → e = .blocked := by
  have hinv₁ : Inv page (sizeOf size) s₁ := ((ok_of_run hinit _).mp (ok_mpInit size page hs₀)).2.1
  have hstep : ∀ o s r s', True → Inv page (sizeOf size) s → (step o).run s = .ok (r, s') →
      Inv page (sizeOf size) s' := fun o s r s' _ h ho => (h.takes_step o).of_run ho
  have h : Inv page (sizeOf size) s :=
    runAll_invariant (P := fun _ => True) hstep (fun _ _ => trivial) hinv₁ hrun
  refine ⟨h.blockSize, h.ok_alloc.mono ?_, ?_, fun o e ho => (h.takes_step o).eq_blocked ho⟩
  · rintro r s' ⟨-, hnull, hblock⟩
    refine ⟨hnull, fun hne => ?_⟩
    obtain ⟨hmem, hnew⟩ := hblock hne
    obtain ⟨i, hi, rfl⟩ := mem_blocks.mp hmem
    exact ⟨⟨i, hi, rfl⟩, block_le hi, hnew⟩
  · obtain ⟨L, q, -, -, hperm⟩ := h.free
    exact (hperm.nodup_iff.mpr (nodup_blocks h.size_le)).of_append_right

/-- A page for blocks of `2000` bytes, and a memory in which nothing has been written yet. -/
def samplePage : Page := ⟨4096, by decide, by decide⟩

def sampleState : State := ⟨⟨0, 0, 0, 0⟩, fun _ => 0, []⟩

/-- The page has two blocks: the third allocation gets `NULL`, and the last one a block that has
been given back. -/
def sampleOps : List Op := [.alloc, .alloc, .alloc, .free 4096, .alloc]

theorem mp_alloc_sample :
    ∃ s₁ s, (mpInit 2000 (some samplePage)).run sampleState = .ok (0, s₁) ∧
      (runAll step sampleOps).run s₁ = .ok ([4096, 6096, 0, 0, 4096], s) ∧
      s.pool.blockSize = 2000 ∧ s.outstanding.Nodup := by
  obtain ⟨s₁, hinit, hresult⟩ :
      ∃ s₁, (mpInit 2000 (some samplePage)).run sampleState = .ok (0, s₁) ∧
        ((runAll step sampleOps).run s₁).toOption.map Prod.fst = some [4096, 6096, 0, 0, 4096] :=
    ⟨_, rfl, by decide +kernel⟩
  obtain ⟨s, hrun⟩ := exists_of_result hresult
  obtain ⟨hsize, -, hnodup, -⟩ :=
    mp_alloc_disjoint 2000 samplePage sampleState rfl 0 s₁ hinit sampleOps _ s hrun
  exact ⟨s₁, s, hinit, hrun, hsize, hnodup⟩

/-! ## The stores of `mp_init` -/

section Stores

/-- The stores of the loop of `mp_init`, as addresses and values. -/
def linkStores (size : Nat) : Nat → Nat → List (Nat × Nat)
  | 0, _ => []
  | n + 1, ptr => (ptr, ptr + size) :: linkStores size n (ptr + size)

/-- The stores of `mp_init`: one for each block, and the `NULL` behind the loop. -/
def initStores (size : Int) (page : Page) : List (Nat × Nat) :=
  linkStores (sizeOf size) (memPageSize / sizeOf size) page.addr ++
    [(page.addr + memPageSize / sizeOf size * sizeOf size, 0)]

/-- The memory after a sequence of stores. -/
def storeAll (b : Bytes) (stores : List (Nat × Nat)) : Bytes :=
  stores.foldl (fun b st => store64 b st.1 st.2) b

/-- All eight bytes of a store at `ptr` are in the page. -/
def Page.Inside (page : Page) (ptr : Nat) : Prop :=
  page.addr ≤ ptr ∧ ptr + 8 ≤ page.addr + memPageSize

variable {s : State} {size : Nat}

theorem run_linkLoop (n ptr : Nat) : (linkLoop size n ptr).run s =
    .ok (ptr + n * size, { s with bytes := storeAll s.bytes (linkStores size n ptr) }) := by
  induction n generalizing ptr s with
  | zero =>
      rw [Nat.zero_mul]
      rfl
  | succ n ih =>
      have hnext : ptr + (n + 1) * size = ptr + size + n * size := by
        rw [Nat.succ_mul]
        omega
      rw [hnext]
      exact ih (ptr + size)

/-- `mp_init` performs these stores, and no other. -/
theorem run_mpInit (size : Int) (page : Page) : (mpInit size (some page)).run s =
    .ok (0, { s with
      pool := ⟨sizeOf size, memPageSize / sizeOf size, page.addr, page.addr⟩
      bytes := storeAll s.bytes (initStores size page) }) := by
  have hstores : storeAll s.bytes (initStores size page) =
      store64 (storeAll s.bytes (linkStores (sizeOf size) (memPageSize / sizeOf size) page.addr))
        (page.addr + memPageSize / sizeOf size * sizeOf size) 0 :=
    List.foldl_append
  rw [hstores]
  show ((linkLoop (sizeOf size) (memPageSize / sizeOf size) page.addr >>= fun ptr =>
    storePtr ptr 0 >>= fun _ => pure 0).run _) = _
  rw [StateT.run_bind, run_linkLoop]
  rfl

theorem mem_linkStores {n ptr : Nat} {st : Nat × Nat} (h : st ∈ linkStores size n ptr) :
    ∃ i < n, st.1 = ptr + i * size := by
  induction n generalizing ptr with
  | zero => cases h
  | succ n ih =>
      rcases List.mem_cons.mp h with rfl | h
      · exact ⟨0, Nat.succ_pos n, by rw [Nat.zero_mul, Nat.add_zero]⟩
      · obtain ⟨i, hi, hplace⟩ := ih h
        refine ⟨i + 1, Nat.succ_lt_succ hi, ?_⟩
        rw [hplace, Nat.succ_mul]
        omega

/-- The stores of the loop are at the blocks. -/
theorem inside_linkStores (size : Int) (page : Page) {st : Nat × Nat}
    (h : st ∈ linkStores (sizeOf size) (memPageSize / sizeOf size) page.addr) :
    page.Inside st.1 := by
  obtain ⟨i, hi, hplace⟩ := mem_linkStores h
  have hsize := sixteen_le_sizeOf size
  have hblock : block page.addr (sizeOf size) i + sizeOf size ≤ page.addr + memPageSize :=
    block_le hi
  unfold block at hblock
  rw [hplace]
  constructor <;> omega

/-- **The stores of `mp_init` stay in the page exactly when the last block leaves room for the
`NULL` behind it.** -/
theorem mp_init_inside_iff (size : Int) (page : Page) (s : State) :
    (mpInit size (some page)).run s =
      .ok (0, { s with
        pool := ⟨sizeOf size, memPageSize / sizeOf size, page.addr, page.addr⟩
        bytes := storeAll s.bytes (initStores size page) }) ∧
    ((∀ st ∈ initStores size page, page.Inside st.1) ↔ 8 ≤ memPageSize % sizeOf size) := by
  refine ⟨run_mpInit size page, ?_⟩
  have hdiv : memPageSize / sizeOf size * sizeOf size + memPageSize % sizeOf size = memPageSize :=
    Nat.div_add_mod' memPageSize (sizeOf size)
  have hlast : page.Inside (page.addr + memPageSize / sizeOf size * sizeOf size) ↔
      8 ≤ memPageSize % sizeOf size := by
    unfold Page.Inside
    omega
  rw [← hlast]
  constructor
  · intro h
    exact h _ (List.mem_append_right _ (List.mem_singleton_self _))
  · intro h st hst
    rcases List.mem_append.mp hst with hst | hst
    · exact inside_linkStores size page hst
    · rw [List.mem_singleton.mp hst]
      exact h

/-- The size with which `init_ctx` calls `mp_init`: the page is one block, and the `NULL` is behind
it. -/
theorem mp_init_whole_page : ¬∀ st ∈ initStores 4096 samplePage, samplePage.Inside st.1 := by
  intro h
  exact absurd (h (8192, 0) (by decide)).2 (by decide)

end Stores

end KvStore.Pool.Blocks
