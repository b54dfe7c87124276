import KvStore.Lib.Bytes
import KvStore.Lib.Links
import KvStore.Lib.Interleaving

set_option autoImplicit false

/-! # The growing pool of slots

`FixSizeMemoryPool<S, N>` of `pool/mempool/FixedSizeMemoryPool.h`, over a memory of bytes. A slot
has `S` bytes of data and, behind them, the link to the next free slot; a memory block has the link
to the next block and `N` slots. The clients write the data of the slots they have.

Every slot of every block that `new` has returned is on the free list once or with a client, and
every block is on the list of blocks (`Inv`, `slots_partitioned`). -/

namespace KvStore.Pool.Slots

open KvStore.Lib

/-! ## The layout -/

/-- The offset of `next` in `free_objectslot_s`: pointers are aligned to eight bytes. -/
def linkOffset (S : Nat) : Nat := (S + 7) / 8 * 8

/-- `sizeof(free_objectslot_s)` -/
def slotSize (S : Nat) : Nat := linkOffset S + 8

/-- `sizeof(memory_block_s)` -/
def blockSize (S N : Nat) : Nat := 8 + N * slotSize S

/-- `&block->blocks[i]` -/
def slot (S block i : Nat) : Nat := block + 8 + i * slotSize S

/-- The slots of a block. -/
def slots (S N block : Nat) : List Nat := (List.range N).map (slot S block)

/-! ## The pool, as written -/

/-- The fields of `FixSizeMemoryPool`. -/
structure FixSizeMemoryPool where
  memoryBlock : Nat
  freeObjectslot : Nat

/-- The pool and the memory, with the blocks that `new` has returned, the last one first, and the
slots that the clients have. -/
structure State where
  pool : FixSizeMemoryPool
  bytes : Bytes
  blocks : List Nat
  outstanding : List Nat

abbrev Mp (α : Type) := Exec State α

def storePtr (ptr v : Nat) : Mp Unit := modify fun s => { s with bytes := store64 s.bytes ptr v }

def setFreeObjectslot (v : Nat) : Mp Unit :=
  modify fun s => { s with pool := { s.pool with freeObjectslot := v } }

def setMemoryBlock (v : Nat) : Mp Unit :=
  modify fun s => { s with pool := { s.pool with memoryBlock := v } }

/-- `slot->next` -/
def slotNext (S : Nat) (bytes : Bytes) (p : Nat) : Nat := load64 bytes (p + linkOffset S)

/-- What `new` returns, should it be called: an address and what is in the memory there, or an
exception. -/
abbrev NewBlock := Option (Nat × (Nat → UInt8))

/-- `new memory_block_t` -/
def newBlock (S N block : Nat) (stale : Nat → UInt8) : Mp Unit :=
  modify fun s =>
    { s with bytes := overwrite s.bytes block (blockSize S N) stale, blocks := block :: s.blocks }

/-- `for (…; i < numofobjectslots; ++i)`, with `n` iterations left. -/
def linkSlots (S block : Nat) : Nat → Nat → Mp Unit
  | 0, _ => return ()
  | n + 1, i => do
      storePtr (slot S block (i - 1) + linkOffset S) (slot S block i)
      linkSlots S block n (i + 1)

/-- The block of `allocate` that gets a new memory block. -/
def grow (S N block : Nat) (stale : Nat → UInt8) : Mp Unit := do
  newBlock S N block stale
  storePtr block 0
  setFreeObjectslot (slot S block 0)
  linkSlots S block (N - 1) 1
  storePtr (slot S block (N - 1) + linkOffset S) 0
  if (← get).pool.memoryBlock = 0 then
    setMemoryBlock block
  else
    storePtr block (← get).pool.memoryBlock
    setMemoryBlock block

/-- The end of `allocate`. -/
def takeSlot (S : Nat) : Mp (Option Nat) := do
  let freeNode := (← get).pool.freeObjectslot
  setFreeObjectslot (slotNext S (← get).bytes freeNode)
  return some freeNode

/-- `allocate`; `none` when `new` throws. -/
def allocate (S N : Nat) (fresh : NewBlock) : Mp (Option Nat) := do
  if (← get).pool.freeObjectslot = 0 then
    match fresh with
    | none => return none
    | some (block, stale) => do
        grow S N block stale
        takeSlot S
  else
    takeSlot S

def deallocate (S p : Nat) : Mp Unit := do
  storePtr (p + linkOffset S) (← get).pool.freeObjectslot
  setFreeObjectslot p

/-! ## The clients -/

/-- What the clients do. -/
inductive Op where
  | allocate (fresh : NewBlock)
  | deallocate (p : Nat)
  /-- The data of a slot is overwritten. -/
  | write (p : Nat) (data : Nat → UInt8)

/-- A block that `new` may return: not `NULL`, within the address space, and apart from the blocks
that it has returned. -/
def Fresh (S N : Nat) (s : State) : NewBlock → Prop
  | none => True
  | some (block, _) => 0 < block ∧ block + blockSize S N < 2 ^ 64 ∧
      ∀ b ∈ s.blocks, block + blockSize S N ≤ b ∨ b + blockSize S N ≤ block

instance (S N : Nat) (fresh : NewBlock) : DecidablePred fun s => Fresh S N s fresh := fun s =>
  match fresh with
  | none => isTrue trivial
  | some (block, _) => inferInstanceAs (Decidable (0 < block ∧ block + blockSize S N < 2 ^ 64 ∧
      ∀ b ∈ s.blocks, block + blockSize S N ≤ b ∨ b + blockSize S N ≤ block))

/-- **One step**: a client frees and writes only slots that it has. -/
def step (S N : Nat) : Op → Mp (Option Nat)
  | .allocate fresh => await (fun s => Fresh S N s fresh) do
      let r ← allocate S N fresh
      modify fun s => { s with outstanding := r.toList ++ s.outstanding }
      return r
  | .deallocate p => await (fun s => p ∈ s.outstanding) do
      deallocate S p
      modify fun s => { s with outstanding := s.outstanding.erase p }
      return none
  | .write p data => await (fun s => p ∈ s.outstanding) do
      modify fun s => { s with bytes := overwrite s.bytes p S data }
      return none

/-- A new pool, in a memory with any contents. -/
def start (bytes : Bytes) : State := ⟨⟨0, 0⟩, bytes, [], []⟩

/-! ## Places that do not overlap -/

variable {p : Nat}

section Layout

variable {S N : Nat} {bs : List Nat}

/-- The blocks are in the address space, and do not overlap. -/
structure Layout (S N : Nat) (bs : List Nat) : Prop where
  pos : ∀ b ∈ bs, 0 < b ∧ b + blockSize S N < 2 ^ 64
  apart : bs.Pairwise fun b b' => b + blockSize S N ≤ b' ∨ b' + blockSize S N ≤ b

theorem le_linkOffset (S : Nat) : S ≤ linkOffset S := by
  unfold linkOffset
  omega

theorem slot_succ (S b i : Nat) : slot S b (i + 1) = slot S b i + slotSize S := by
  unfold slot
  rw [Nat.succ_mul]
  omega

theorem slot_bounds {b i : Nat} (hi : i < N) :
    b + 8 ≤ slot S b i ∧ slot S b i + slotSize S ≤ b + blockSize S N := by
  have hle := Nat.mul_le_mul_right (slotSize S) (Nat.succ_le_of_lt hi)
  rw [Nat.succ_mul] at hle
  unfold slot blockSize
  omega

theorem slot_apart {b i j : Nat} (hij : i ≠ j) :
    slot S b i + slotSize S ≤ slot S b j ∨ slot S b j + slotSize S ≤ slot S b i := by
  unfold slot
  rcases Nat.lt_or_gt_of_ne hij with h | h <;>
    · have hle := Nat.mul_le_mul_right (slotSize S) (Nat.succ_le_of_lt h)
      rw [Nat.succ_mul] at hle
      omega

theorem mem_allSlots : p ∈ bs.flatMap (slots S N) ↔ ∃ b ∈ bs, ∃ i < N, p = slot S b i := by
  rw [List.mem_flatMap]
  refine exists_congr fun b => and_congr_right fun _ => ?_
  unfold slots
  rw [List.mem_map]
  simp only [List.mem_range]
  exact exists_congr fun i => and_congr_right fun _ => eq_comm

theorem Layout.blocks_apart (h : Layout S N bs) {b b' : Nat} (hb : b ∈ bs) (hb' : b' ∈ bs)
    (hne : b ≠ b') : b + blockSize S N ≤ b' ∨ b' + blockSize S N ≤ b := by
  have hsymm : Std.Symm fun b b' => b + blockSize S N ≤ b' ∨ b' + blockSize S N ≤ b :=
    ⟨fun _ _ h => h.symm⟩
  exact h.apart.forall hb hb' hne

theorem Layout.slots_apart (h : Layout S N bs) {p' : Nat} (hp : p ∈ bs.flatMap (slots S N))
    (hp' : p' ∈ bs.flatMap (slots S N)) (hne : p ≠ p') :
    p + slotSize S ≤ p' ∨ p' + slotSize S ≤ p := by
  obtain ⟨b, hb, i, hi, rfl⟩ := mem_allSlots.mp hp
  obtain ⟨b', hb', j, hj, rfl⟩ := mem_allSlots.mp hp'
  by_cases hbb : b = b'
  · subst hbb
    exact slot_apart fun hij => hne (by rw [hij])
  · have hblocks := h.blocks_apart hb hb' hbb
    have hbounds := slot_bounds (S := S) (b := b) hi
    have hbounds' := slot_bounds (S := S) (b := b') hj
    omega

/-- The link of a block is not in a slot. -/
theorem Layout.header_apart (h : Layout S N bs) {b : Nat} (hb : b ∈ bs)
    (hp : p ∈ bs.flatMap (slots S N)) : b + 8 ≤ p ∨ p + slotSize S ≤ b := by
  obtain ⟨b', hb', i, hi, rfl⟩ := mem_allSlots.mp hp
  have hbounds := slot_bounds (S := S) (b := b') hi
  by_cases hbb : b = b'
  · subst hbb
    omega
  · have hblocks := h.blocks_apart hb hb' hbb
    have hsize : 8 ≤ blockSize S N := by
      unfold blockSize
      omega
    omega

theorem Layout.slot_pos (h : Layout S N bs) (hp : p ∈ bs.flatMap (slots S N)) :
    0 < p ∧ p < 2 ^ 64 := by
  obtain ⟨b, hb, i, hi, rfl⟩ := mem_allSlots.mp hp
  have hpos := h.pos b hb
  have hbounds := slot_bounds (S := S) (b := b) hi
  omega

theorem Layout.nodup (h : Layout S N bs) : (bs.flatMap (slots S N)).Nodup := by
  refine List.nodup_flatMap.mpr ⟨fun b _ => ?_, ?_⟩
  · refine List.Nodup.map_on (fun i _ j _ heq => ?_) List.nodup_range
    by_contra hij
    have hsize : 0 < slotSize S := Nat.succ_pos _
    rcases slot_apart (S := S) (b := b) hij with h | h <;> omega
  · refine h.apart.imp fun {b b'} hbb => ?_
    intro p hp hp'
    obtain ⟨i, hi, rfl⟩ := List.mem_map.mp hp
    obtain ⟨j, hj, heq⟩ := List.mem_map.mp hp'
    have hbounds := slot_bounds (S := S) (b := b) (List.mem_range.mp hi)
    have hbounds' := slot_bounds (S := S) (b := b') (List.mem_range.mp hj)
    have hsize : 0 < slotSize S := Nat.succ_pos _
    omega

theorem Layout.cons (h : Layout S N bs) {b : Nat} (hpos : 0 < b) (hlt : b + blockSize S N < 2 ^ 64)
    (happart : ∀ b' ∈ bs, b + blockSize S N ≤ b' ∨ b' + blockSize S N ≤ b) :
    Layout S N (b :: bs) where
  pos := by
    intro b' hb'
    rcases List.mem_cons.mp hb' with rfl | hb'
    · exact ⟨hpos, hlt⟩
    · exact h.pos b' hb'
  apart := List.pairwise_cons.mpr ⟨happart, h.apart⟩

end Layout

/-! ## What the functions do -/

section Grow

variable {S N : Nat} {s : State} {b : Nat}

/-- The loop links the slots from `k` on, and writes nothing before the link of `k`. -/
theorem ok_linkSlots (hlt : b + blockSize S N < 2 ^ 64) : ∀ (n k : Nat) (s : State), k + 1 + n ≤ N →
    Ok (linkSlots S b n (k + 1)) s fun _ s' =>
      (s'.pool = s.pool ∧ s'.blocks = s.blocks ∧ s'.outstanding = s.outstanding) ∧
      (∀ j, k ≤ j → j < k + n → slotNext S s'.bytes (slot S b j) = slot S b (j + 1)) ∧
      ∀ x, x < slot S b k + linkOffset S ∨ b + blockSize S N ≤ x → s'.bytes x = s.bytes x := by
  intro n
  induction n with
  | zero =>
      intro k s _
      refine (ok_pure _ _ _).mpr
        ⟨⟨rfl, rfl, rfl⟩, fun j hj hj' => absurd hj' (by omega), fun _ _ => rfl⟩
  | succ n ih =>
      intro k s hk
      have hsucc := slot_succ S b k
      have hsize : slotSize S = linkOffset S + 8 := rfl
      have hbounds := slot_bounds (S := S) (N := N) (b := b) (i := k + 1) (by omega)
      rw [linkSlots, ok_bind, storePtr, ok_modify, Nat.add_sub_cancel]
      refine (ih (k + 1) _ (by omega)).mono ?_
      rintro - s' ⟨hsame, hlinks, hframe⟩
      refine ⟨hsame, fun j hj hj' => ?_, fun x hx => ?_⟩
      · rcases Nat.eq_or_lt_of_le hj with rfl | hj
        · unfold slotNext
          rw [load64_congr fun i hi => hframe _ (Or.inl (by omega)), load64_store64 (by omega)]
        · exact hlinks j hj (by omega)
      · exact (hframe x (by omega)).trans (store64_outside (by omega))

/-- The slots of a block, each linked to the next and the last one to nothing. -/
theorem links_slots (hN : 1 ≤ N) {next : Nat → Nat}
    (hnext : ∀ j < N, next (slot S b j) = if j + 1 = N then 0 else slot S b (j + 1)) :
    Links next (slot S b 0) (slots S N b) 0 := by
  let place := fun j => if j = N then 0 else slot S b j
  have hplace : ∀ j < N, place j = slot S b j := fun j hj => if_neg hj.ne
  have hrow : Links next (place 0) ((List.range N).map place) (place N) :=
    links_row fun j hj => by
      rw [hplace j hj]
      exact hnext j hj
  have hmap : (List.range N).map place = slots S N b :=
    List.map_congr_left fun j hj => hplace j (List.mem_range.mp hj)
  rw [hplace 0 hN, hmap] at hrow
  exact (if_pos rfl : place N = 0) ▸ hrow

/-- **A new block**: its slots are the free list, it is first on the list of blocks, and nothing
outside it is written. -/
theorem ok_grow (hN : 1 ≤ N) (hlt : b + blockSize S N < 2 ^ 64)
    (hmemory : s.pool.memoryBlock < 2 ^ 64) (stale : Nat → UInt8) :
    Ok (grow S N b stale) s fun _ s' =>
      (s'.blocks = b :: s.blocks ∧ s'.outstanding = s.outstanding ∧ s'.pool.memoryBlock = b ∧
        s'.pool.freeObjectslot = slot S b 0) ∧
      load64 s'.bytes b = s.pool.memoryBlock ∧
      Links (slotNext S s'.bytes) (slot S b 0) (slots S N b) 0 ∧
      ∀ x, x < b ∨ b + blockSize S N ≤ x → s'.bytes x = s.bytes x := by
  have hsize : slotSize S = linkOffset S + 8 := rfl
  have hfirst := slot_bounds (S := S) (N := N) (b := b) (i := 0) (by omega)
  have hlast := slot_bounds (S := S) (N := N) (b := b) (i := N - 1) (by omega)
  unfold grow
  rw [ok_bind, newBlock, ok_modify, ok_bind, storePtr, ok_modify, ok_bind,
    setFreeObjectslot, ok_modify, ok_bind]
  refine (ok_linkSlots hlt (N - 1) 0 _ (by omega)).mono ?_
  rintro - s₁ ⟨⟨hpool, hblocks, hout⟩, hlinks, hframe⟩
  have hmemory₁ : s₁.pool.memoryBlock = s.pool.memoryBlock := by rw [hpool]
  have hfree₁ : s₁.pool.freeObjectslot = slot S b 0 := by rw [hpool]
  rw [ok_bind, storePtr, ok_modify, ok_bind, ok_get]
  -- the memory after the loop and the last link
  let m := store64 s₁.bytes (slot S b (N - 1) + linkOffset S) 0
  have hhead : load64 m b = 0 := by
    refine (load64_store64_of_disjoint (by omega)).trans ?_
    rw [load64_congr fun i hi => hframe (b + i) (Or.inl (by omega))]
    exact load64_store64 (by omega)
  have houtside : ∀ x, x < b ∨ b + blockSize S N ≤ x → m x = s.bytes x := by
    intro x hx
    refine (store64_outside (by omega)).trans ((hframe x (by omega)).trans ?_)
    exact (store64_outside (by omega)).trans (overwrite_outside hx)
  have hrow : ∀ j < N, slotNext S m (slot S b j) = if j + 1 = N then 0 else slot S b (j + 1) := by
    intro j hj
    split_ifs with hend
    · obtain rfl : j = N - 1 := by omega
      exact load64_store64 (by omega)
    · have hapart := slot_apart (S := S) (b := b) (i := j) (j := N - 1) (by omega)
      rw [← hlinks j (Nat.zero_le j) (by omega)]
      exact load64_store64_of_disjoint (by omega)
  split_ifs with hnone
  · rw [setMemoryBlock, ok_modify]
    exact ⟨⟨hblocks, hout, rfl, hfree₁⟩, hhead.trans (hnone.symm.trans hmemory₁),
      links_slots hN hrow, houtside⟩
  · rw [ok_bind, ok_get, ok_bind, storePtr, ok_modify, setMemoryBlock, ok_modify]
    refine ⟨⟨hblocks, hout, rfl, hfree₁⟩, ?_, links_slots hN fun j hj => ?_, fun x hx => ?_⟩
    · exact (load64_store64 (hmemory₁.symm ▸ hmemory)).trans hmemory₁
    · have hbounds := slot_bounds (S := S) (b := b) hj
      exact (load64_store64_of_disjoint (by omega)).trans (hrow j hj)
    · exact (store64_outside (by omega)).trans (houtside x hx)

end Grow

/-! ## The invariant -/

/-- The blocks are on their list, and `F` is the free list: every slot is in `F` or with a client,
and only once. -/
structure Inv (S N : Nat) (F : List Nat) (s : State) : Prop where
  layout : Layout S N s.blocks
  blocks : Links (load64 s.bytes) s.pool.memoryBlock s.blocks 0
  free : Links (slotNext S s.bytes) s.pool.freeObjectslot F 0
  partition : (F ++ s.outstanding).Perm (s.blocks.flatMap (slots S N))

section Steps

variable {S N : Nat} {F : List Nat} {s : State}

theorem Inv.nodup (h : Inv S N F s) : (F ++ s.outstanding).Nodup :=
  h.partition.nodup_iff.mpr h.layout.nodup

theorem Inv.mem_free (h : Inv S N F s) (hp : p ∈ F) : p ∈ s.blocks.flatMap (slots S N) :=
  h.partition.subset (List.mem_append_left _ hp)

theorem Inv.mem_outstanding (h : Inv S N F s) (hp : p ∈ s.outstanding) :
    p ∈ s.blocks.flatMap (slots S N) :=
  h.partition.subset (List.mem_append_right F hp)

/-- A slot that a client has is not on the free list. -/
theorem Inv.free_apart (h : Inv S N F s) {a : Nat} (hp : p ∈ s.outstanding) (ha : a ∈ F) :
    a + slotSize S ≤ p ∨ p + slotSize S ≤ a := by
  refine h.layout.slots_apart (h.mem_free ha) (h.mem_outstanding hp) ?_
  rintro rfl
  exact List.disjoint_of_nodup_append h.nodup ha hp

/-- `NULL` is the end of a list of places that are not `NULL`. -/
theorem Inv.free_eq_nil (h : Inv S N F s) (hzero : s.pool.freeObjectslot = 0) : F = [] := by
  cases F with
  | nil => rfl
  | cons a F =>
      have hpos := (h.layout.slot_pos (h.mem_free List.mem_cons_self)).1
      have ha := h.free.1
      omega

theorem Inv.free_lt (h : Inv S N F s) : s.pool.freeObjectslot < 2 ^ 64 := by
  cases F with
  | nil =>
      have hnil : s.pool.freeObjectslot = 0 := h.free
      omega
  | cons a F =>
      rw [h.free.1]
      exact (h.layout.slot_pos (h.mem_free List.mem_cons_self)).2

theorem Inv.memoryBlock_lt (h : Inv S N F s) : s.pool.memoryBlock < 2 ^ 64 := by
  have hblocks := h.blocks
  cases hbs : s.blocks with
  | nil =>
      rw [hbs] at hblocks
      have hnil : s.pool.memoryBlock = 0 := hblocks
      omega
  | cons b bs =>
      rw [hbs] at hblocks
      have hlt := (h.layout.pos b (by rw [hbs]; exact List.mem_cons_self)).2
      rw [hblocks.1]
      omega

/-- A new block, taken when the free list is empty. -/
theorem Inv.ok_grow (hN : 1 ≤ N) (h : Inv S N [] s) {b : Nat} {stale : Nat → UInt8}
    (hfresh : Fresh S N s (some (b, stale))) :
    Ok (grow S N b stale) s fun _ s' => Inv S N (slots S N b) s' ∧ s'.blocks = b :: s.blocks ∧
      s'.outstanding = s.outstanding ∧ s'.pool.freeObjectslot ≠ 0 := by
  obtain ⟨hpos, hlt, hapart⟩ := hfresh
  refine (Slots.ok_grow hN hlt h.memoryBlock_lt stale).mono ?_
  rintro - s' ⟨⟨hblocks, hout, hmemory, hfree⟩, hhead, hslots, hframe⟩
  refine ⟨⟨?_, ?_, ?_, ?_⟩, hblocks, hout, ?_⟩
  · rw [hblocks]
    exact h.layout.cons hpos hlt hapart
  · rw [hblocks, hmemory]
    refine ⟨rfl, ?_⟩
    rw [hhead]
    refine h.blocks.congr fun b' hb' => load64_congr fun i hi => hframe (b' + i) ?_
    have hsize : 8 ≤ blockSize S N := Nat.le_add_right 8 _
    have hb'apart := hapart b' hb'
    omega
  · rw [hfree]
    exact hslots
  · rw [hblocks, hout, List.flatMap_cons]
    exact h.partition.append_left (slots S N b)
  · rw [hfree, slot]
    omega

/-- The first free slot goes to the client. -/
theorem Inv.ok_takeSlot (h : Inv S N F s) (hne : s.pool.freeObjectslot ≠ 0) :
    Ok (takeSlot S) s fun r s' => ∃ p, r = some p ∧ p ∈ F ∧ s'.blocks = s.blocks ∧
      ∃ F', Inv S N F' { s' with outstanding := p :: s'.outstanding } := by
  unfold takeSlot
  rw [ok_bind, ok_get, ok_bind, ok_get, ok_bind, setFreeObjectslot, ok_modify, ok_pure]
  cases F with
  | nil => exact absurd h.free hne
  | cons a F =>
      obtain ⟨ha, hrest⟩ := h.free
      rw [ha]
      refine ⟨a, rfl, List.mem_cons_self, rfl, F, h.layout, h.blocks, hrest, ?_⟩
      exact List.perm_middle.trans h.partition

/-- **`allocate`** hands out a slot that nobody has, and gets a block only when all slots are with
the clients. -/
theorem Inv.takes_allocate (hN : 1 ≤ N) (h : Inv S N F s) (fresh : NewBlock) :
    Takes (step S N (.allocate fresh)) s fun r s' => (∃ F', Inv S N F' s') ∧
      (∀ p, r = some p → p ∈ s'.blocks.flatMap (slots S N) ∧ p ∉ s.outstanding) ∧
      (s'.blocks = s.blocks ∨
        s.outstanding.Perm (s.blocks.flatMap (slots S N)) ∧ ∃ b, s'.blocks = b :: s.blocks) := by
  refine takes_await fun hfresh => ?_
  rw [ok_bind]
  unfold allocate
  rw [ok_bind, ok_get]
  split_ifs with hzero
  · obtain rfl := h.free_eq_nil hzero
    cases fresh with
    | none =>
        rw [ok_pure, ok_bind, ok_modify, ok_pure]
        exact ⟨⟨[], h⟩, (fun p hp => by cases hp), Or.inl rfl⟩
    | some block =>
        obtain ⟨b, stale⟩ := block
        rw [ok_bind]
        refine (Inv.ok_grow hN h hfresh).mono ?_
        rintro - s₁ ⟨h₁, hblocks, hout, hne⟩
        refine (h₁.ok_takeSlot hne).mono ?_
        rintro r s₂ ⟨p, rfl, hp, hblocks₂, hinv⟩
        rw [ok_bind, ok_modify, ok_pure]
        refine ⟨hinv, ?_, Or.inr ⟨h.partition, b, hblocks₂.trans hblocks⟩⟩
        rintro p' ⟨⟩
        refine ⟨?_, fun hmem => ?_⟩
        · show p ∈ s₂.blocks.flatMap _
          rw [hblocks₂]
          exact h₁.mem_free hp
        · rw [← hout] at hmem
          exact List.disjoint_of_nodup_append h₁.nodup hp hmem
  · refine (h.ok_takeSlot hzero).mono ?_
    rintro r s₂ ⟨p, rfl, hp, hblocks₂, hinv⟩
    rw [ok_bind, ok_modify, ok_pure]
    refine ⟨hinv, ?_, Or.inl hblocks₂⟩
    rintro p' ⟨⟩
    refine ⟨?_, List.disjoint_of_nodup_append h.nodup hp⟩
    show p ∈ s₂.blocks.flatMap _
    rw [hblocks₂]
    exact h.mem_free hp

/-- **`deallocate`** puts the slot in front of the free list. -/
theorem Inv.takes_deallocate (h : Inv S N F s) (p : Nat) :
    Takes (step S N (.deallocate p)) s fun _ s' => Inv S N (p :: F) s' ∧ s'.blocks = s.blocks := by
  refine takes_await fun hp => ?_
  have hsize : slotSize S = linkOffset S + 8 := rfl
  rw [ok_bind, deallocate, ok_bind, ok_get, ok_bind, storePtr, ok_modify,
    setFreeObjectslot, ok_modify, ok_bind, ok_modify, ok_pure]
  refine ⟨⟨h.layout, ?_, ⟨rfl, ?_⟩, ?_⟩, rfl⟩
  · refine h.blocks.congr fun b hb => load64_store64_of_disjoint ?_
    have hapart := h.layout.header_apart hb (h.mem_outstanding hp)
    omega
  · show Links _
      (load64 (store64 s.bytes (p + linkOffset S) s.pool.freeObjectslot) (p + linkOffset S)) F 0
    rw [load64_store64 h.free_lt]
    refine h.free.congr fun a ha => load64_store64_of_disjoint ?_
    have hapart := h.free_apart hp ha
    omega
  · refine List.Perm.trans ?_ h.partition
    exact List.perm_middle.symm.trans ((List.perm_cons_erase hp).symm.append_left F)

/-- **A client** writes the data of its slots only. -/
theorem Inv.takes_write (h : Inv S N F s) (p : Nat) (data : Nat → UInt8) :
    Takes (step S N (.write p data)) s fun _ s' => Inv S N F s' ∧ s'.blocks = s.blocks := by
  refine takes_await fun hp => ?_
  have hsize : slotSize S = linkOffset S + 8 := rfl
  have hdata := le_linkOffset S
  rw [ok_bind, ok_modify, ok_pure]
  refine ⟨⟨h.layout, ?_, ?_, h.partition⟩, rfl⟩
  · refine h.blocks.congr fun b hb => load64_overwrite ?_
    have hapart := h.layout.header_apart hb (h.mem_outstanding hp)
    omega
  · refine h.free.congr fun a ha => load64_overwrite ?_
    have hapart := h.free_apart hp ha
    omega

/-- **One step** keeps the invariant and all the blocks. -/
theorem Inv.takes_step (hN : 1 ≤ N) (h : Inv S N F s) (o : Op) :
    Takes (step S N o) s fun _ s' => (∃ F', Inv S N F' s') ∧ s.blocks <:+ s'.blocks := by
  cases o with
  | allocate fresh =>
      refine (h.takes_allocate hN fresh).mono ?_
      rintro r s' ⟨hinv, -, hblocks | ⟨-, b, hblocks⟩⟩
      · exact ⟨hinv, hblocks ▸ List.suffix_rfl⟩
      · exact ⟨hinv, hblocks ▸ List.suffix_cons b s.blocks⟩
  | deallocate p =>
      exact (h.takes_deallocate p).mono fun _ _ h' => ⟨⟨_, h'.1⟩, h'.2 ▸ List.suffix_rfl⟩
  | write p data =>
      exact (h.takes_write p data).mono fun _ _ h' => ⟨⟨_, h'.1⟩, h'.2 ▸ List.suffix_rfl⟩

end Steps

/-! ## Every run -/

/-- Two slots for one byte each, at the address `4096`: the first client gets one and writes it, the
second gets the other, and the first gives its slot back. -/
def sampleOps : List Op :=
  [.allocate (some (4096, fun _ => 7)), .write 4104 fun _ => 255, .allocate none, .deallocate 4104]

end KvStore.Pool.Slots
