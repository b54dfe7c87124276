import KvStore.Lib.Alike
import KvStore.Mempool.Safety

set_option autoImplicit false

/-! # What the pool reads of the memory it gets

Two runs in which `posix_memalign` returns the same addresses, with different contents. `Agree`
relates their states: everything is the same but the bytes, and these agree on the records that the
pool has written. Every function reads only these records, so both runs go along with each other
(`alike_step`).

`mp_create_pool` does not set the `next` and the `quote` of the head, and `mp_malloc_block` not the
`quote` and the `failed` of a new node. When these are clean, the runs return the same addresses and
follow only links of the pool (`session_insensitive`); otherwise they need not
(`session_sensitive`). -/

namespace KvStore.Mempool

open KvStore.Lib

/-! ## The relation -/

/-- The byte `x` is one of those that hold the record at `a`. -/
def Cell {α : Type} (c : Codec α) (a x : Nat) : Prop := ∃ i, c.Uses i ∧ x = a + i

/-- The byte `x` is part of a record of the pool; `extra` are nodes that are not linked yet. -/
def Watched (pool : Nat) (extra : List Nat) (s : State) (x : Nat) : Prop :=
  Cell poolCodec pool x ∨ (∃ n ∈ s.nodes ++ extra, Cell nodeCodec n x) ∨
    ∃ h ∈ s.headers, Cell largeCodec h x

/-- The records lie in the regions, so that a new region does not touch them. -/
structure Ready (pool : Nat) (extra : List Nat) (s : State) : Prop where
  calls : 0 < s.calls
  covered : ∀ x, Watched pool extra s x → ∃ r ∈ s.regions, r.1 ≤ x ∧ x < r.1 + r.2

/-- The states are the same but for the bytes, which agree on the records; with `C`, the pool is
ready for a new region. -/
structure Agree (pool : Nat) (C : Prop) (extra : List Nat) (s s' : State) : Prop extends
    OnlyBytes s s' where
  bytes : ∀ x, Watched pool extra s x → s'.bytes x = s.bytes x
  ready : C → Ready pool extra s

section Primitives

variable {env env' : Memalign} {contents contents' : Nat → Bytes} {pool : Nat} {C : Prop}
  {extra : List Nat} {s s' : State}

theorem Agree.weaken (h : Agree pool C extra s s') : Agree pool False extra s s' :=
  ⟨h.toOnlyBytes, h.bytes, False.elim⟩

theorem Agree.upgrade (h : Agree pool C extra s s') (hready : Ready pool extra s) :
    Agree pool True extra s s' :=
  ⟨h.toOnlyBytes, h.bytes, fun _ => hready⟩

/-- Both memories are changed in the same way, byte by byte. -/
theorem Agree.write (h : Agree pool C extra s s') {f : Bytes → Bytes}
    (hf : ∀ {m m' : Bytes} {x : Nat}, m' x = m x → f m' x = f m x) :
    Agree pool C extra { s with bytes := f s.bytes } { s' with bytes := f s'.bytes } :=
  ⟨⟨h.calls, h.regions, h.nodes, h.headers, h.outstanding⟩, fun x hx => hf (h.bytes x hx),
    fun hC => ⟨(h.ready hC).calls, (h.ready hC).covered⟩⟩

theorem alike_getPool (h : Agree pool C extra s s') :
    Alike (getPool pool) (getPool pool) s s' fun _ => Agree pool C extra := by
  refine alike_get_bind ?_
  have hread : poolCodec.read s'.bytes pool = poolCodec.read s.bytes pool :=
    poolCodec.read_congr fun i hi => h.bytes _ (Or.inl ⟨i, hi, rfl⟩)
  rw [hread]
  exact alike_pure h

theorem alike_getNode (h : Agree pool C extra s s') (n : Nat) :
    Alike (getNode n) (getNode n) s s' fun _ => Agree pool C extra := by
  refine alike_get_bind
    (alike_ite (by rw [h.nodes]) (fun hn => alike_get_bind ?_) fun _ => alike_throw _)
  have hread : nodeCodec.read s'.bytes n = nodeCodec.read s.bytes n :=
    nodeCodec.read_congr fun i hi =>
    h.bytes _ (Or.inr (Or.inl ⟨n, List.mem_append_left _ hn, i, hi, rfl⟩))
  rw [hread]
  exact alike_pure h

theorem alike_getLarge (h : Agree pool C extra s s') (l : Nat) :
    Alike (getLarge l) (getLarge l) s s' fun _ => Agree pool C extra := by
  refine alike_get_bind
    (alike_ite (by rw [h.headers]) (fun hl => alike_get_bind ?_) fun _ => alike_throw _)
  have hread : largeCodec.read s'.bytes l = largeCodec.read s.bytes l :=
    largeCodec.read_congr fun i hi =>
    h.bytes _ (Or.inr (Or.inr ⟨l, hl, i, hi, rfl⟩))
  rw [hread]
  exact alike_pure h

theorem alike_setPool (h : Agree pool C extra s s') (p : Nat) (v : MpPool) :
    Alike (setPool p v) (setPool p v) s s' fun _ => Agree pool C extra :=
  alike_modify (h.write poolCodec.write_congr)

theorem alike_setNode (h : Agree pool C extra s s') (n : Nat) (v : MpNode) :
    Alike (setNode n v) (setNode n v) s s' fun _ => Agree pool C extra :=
  alike_modify (h.write nodeCodec.write_congr)

theorem alike_setLarge (h : Agree pool C extra s s') (l : Nat) (v : MpLarge) :
    Alike (setLarge l v) (setLarge l v) s s' fun _ => Agree pool C extra :=
  alike_modify (h.write largeCodec.write_congr)

theorem alike_free (h : Agree pool C extra s s') (a : Nat) :
    Alike (free a) (free a) s s' fun _ => Agree pool False extra := by
  refine alike_get_bind
    (alike_ite (by rw [h.regions]) (fun _ => alike_modify ?_) fun _ => alike_throw _)
  have hregions : (s'.regions.filter fun r => r.1 ≠ a) = s.regions.filter fun r => r.1 ≠ a := by
    rw [h.regions]
  exact ⟨⟨h.calls, hregions, h.nodes, h.headers, h.outstanding⟩, h.bytes, False.elim⟩

theorem alike_alongNodes {α ρ : Type} {body : α → Mp (α ⊕ ρ)} (a : α) (h : Agree pool C extra s s')
    (hbody : ∀ a s s', Agree pool C extra s s' →
      Alike (body a) (body a) s s' fun _ => Agree pool C extra) :
    Alike (alongNodes body a) (alongNodes body a) s s' fun _ => Agree pool C extra := by
  refine alike_get_bind ?_
  rw [h.nodes]
  exact alike_loop hbody _ a s s' h

theorem alike_alongLarge {α ρ : Type} {body : α → Mp (α ⊕ ρ)} (a : α) (h : Agree pool C extra s s')
    (hbody : ∀ a s s', Agree pool C extra s s' →
      Alike (body a) (body a) s s' fun _ => Agree pool C extra) :
    Alike (alongLarge body a) (alongLarge body a) s s' fun _ => Agree pool C extra := by
  refine alike_get_bind ?_
  rw [h.headers]
  exact alike_loop hbody _ a s s' h

/-- `posix_memalign`, in two runs with the same addresses. -/
theorem alike_posixMemalign (h : OnlyBytes s s') (haddr : env'.addr = env.addr)
    (size : Nat) : Alike (posixMemalign env contents size) (posixMemalign env' contents' size) s s'
      fun r t t' =>
      (r = none ∧ t = { s with calls := s.calls + 1 } ∧ t' = { s' with calls := s'.calls + 1 }) ∨
      ∃ a, r = some a ∧ Fresh s.regions a size ∧ t = allocated contents s a size ∧
        t' = allocated contents' s' a size := by
  refine alike_get_bind ?_
  rw [haddr, h.calls]
  cases env.addr s.calls with
  | none =>
      exact alike_bind (alike_set (alike_pure (Or.inl ⟨rfl, rfl, rfl⟩)))
  | some a =>
      refine alike_ite (by rw [h.regions]) (fun hfresh => ?_) fun _ => alike_throw _
      refine alike_bind (alike_set (alike_pure (Or.inr ⟨a, rfl, hfresh, rfl, ?_⟩)))
      unfold allocated
      rw [h.calls]

end Primitives

/-! ## The loops -/

section Loops

variable {pool : Nat} {C : Prop} {extra : List Nat} {s s' : State}

theorem alike_carveBody (size cur : Nat) (h : Agree pool C extra s s') :
    Alike (carveBody size cur) (carveBody size cur) s s' fun _ => Agree pool C extra := by
  refine alike_ite Iff.rfl (fun _ => alike_pure h) fun _ => ?_
  refine alike_bind ((alike_getNode h cur).mono fun node t t' h => ?_)
  refine alike_ite Iff.rfl (fun _ => ?_) fun _ => alike_pure h
  exact alike_bind ((alike_setNode h cur _).mono fun _ _ _ h => alike_pure h)

theorem alike_failBody (a : Nat × Nat) (h : Agree pool C extra s s') :
    Alike (failBody a) (failBody a) s s' fun _ => Agree pool C extra := by
  obtain ⟨cur, current⟩ := a
  refine alike_bind ((alike_getNode h cur).mono fun node t t' h => ?_)
  refine alike_ite Iff.rfl (fun _ => alike_pure h) fun _ => ?_
  exact alike_bind ((alike_setNode h cur _).mono fun _ _ _ h => alike_pure h)

theorem alike_releasedBody (a : Nat × Nat) (h : Agree pool C extra s s') :
    Alike (releasedBody a) (releasedBody a) s s' fun _ => Agree pool C extra := by
  obtain ⟨large, n⟩ := a
  refine alike_ite Iff.rfl (fun _ => alike_pure h) fun _ => ?_
  refine alike_bind ((alike_getLarge h large).mono fun l t t' h => ?_)
  refine alike_ite Iff.rfl (fun _ => alike_pure h) fun _ => ?_
  exact alike_ite Iff.rfl (fun _ => alike_pure h) fun _ => alike_pure h

theorem alike_freeLargeBody (p large : Nat) (h : Agree pool False extra s s') :
    Alike (freeLargeBody p large) (freeLargeBody p large) s s' fun _ => Agree pool False extra := by
  refine alike_ite Iff.rfl (fun _ => alike_pure h) fun _ => ?_
  refine alike_bind ((alike_getLarge h large).mono fun l t t' h => ?_)
  refine alike_ite Iff.rfl (fun _ => ?_) fun _ => alike_pure h
  refine alike_bind ((alike_free h _).mono fun _ t t' h => ?_)
  exact alike_bind ((alike_setLarge h large _).mono fun _ _ _ h => alike_pure h)

theorem alike_unquote (cur : Nat) (node : MpNode) (h : Agree pool C extra s s') :
    Alike (unquote pool cur node) (unquote pool cur node) s s' fun _ => Agree pool C extra := by
  refine alike_ite Iff.rfl (fun _ => ?_) fun _ => alike_setNode h cur _
  refine alike_bind ((alike_getPool h).mono fun v t t' h => ?_)
  refine alike_bind ((alike_setNode h cur _).mono fun _ t t' h => ?_)
  exact alike_bind ((alike_getPool h).mono fun _ _ _ h => alike_setPool h pool _)

theorem alike_freeSmallBody (p cur : Nat) (h : Agree pool C extra s s') :
    Alike (freeSmallBody pool p cur) (freeSmallBody pool p cur) s s'
      fun _ => Agree pool C extra := by
  refine alike_ite Iff.rfl (fun _ => alike_pure h) fun _ => ?_
  refine alike_bind ((alike_getNode h cur).mono fun node t t' h => ?_)
  refine alike_ite Iff.rfl (fun _ => ?_) fun _ => alike_pure h
  exact alike_bind ((alike_unquote cur node h).mono fun _ _ _ h => alike_pure h)

theorem alike_resetLargeBody (large : Nat) (h : Agree pool False extra s s') :
    Alike (resetLargeBody large) (resetLargeBody large) s s' fun _ => Agree pool False extra := by
  refine alike_ite Iff.rfl (fun _ => alike_pure h) fun _ => ?_
  refine alike_bind ((alike_getLarge h large).mono fun l t t' h => ?_)
  refine alike_ite Iff.rfl (fun _ => ?_) fun _ => alike_pure h
  exact alike_bind ((alike_free h _).mono fun _ _ _ h => alike_pure h)

theorem alike_resetNodeBody (cur : Nat) (h : Agree pool C extra s s') :
    Alike (resetNodeBody cur) (resetNodeBody cur) s s' fun _ => Agree pool C extra := by
  refine alike_ite Iff.rfl (fun _ => alike_pure h) fun _ => ?_
  refine alike_bind ((alike_getNode h cur).mono fun node t t' h => ?_)
  exact alike_bind ((alike_setNode h cur _).mono fun _ _ _ h => alike_pure h)

end Loops

/-! ## The functions -/

/-- What two runs must have in common besides the addresses: the memory is clean in both, and a new
node starts with the same `failed`. -/
structure SameStart (env env' : Memalign) : Prop where
  addr : env'.addr = env.addr
  clean : Clean env
  clean' : Clean env'
  failed : ∀ k, 0 < k →
    (nodeCodec.read (env'.contents k) 0).failed = (nodeCodec.read (env.contents k) 0).failed

section Functions

variable {env env' : Memalign} {contents contents' : Nat → Bytes} {pool : Nat} {C : Prop}
  {extra : List Nat} {s s' : State}

theorem alike_mpFree (p : Nat) (h : Agree pool False [] s s') :
    Alike (mpFree pool p) (mpFree pool p) s s' fun _ => Agree pool False [] := by
  refine alike_bind ((alike_getPool h).mono fun v t t' h => ?_)
  refine alike_bind
    ((alike_alongLarge _ h fun _ _ _ h => alike_freeLargeBody p _ h).mono fun r t t' h => ?_)
  refine alike_ite Iff.rfl (fun _ => alike_pure h) fun _ => ?_
  refine alike_bind ((alike_getPool h).mono fun v t t' h => ?_)
  exact alike_alongNodes _ h fun _ _ _ h => alike_freeSmallBody p _ h

theorem alike_mpResetPool (h : Agree pool False [] s s') :
    Alike (mpResetPool pool) (mpResetPool pool) s s' fun _ => Agree pool False [] := by
  refine alike_bind ((alike_getPool h).mono fun v t t' h => ?_)
  refine alike_bind
    ((alike_alongLarge _ h fun _ _ _ h => alike_resetLargeBody _ h).mono fun _ t t' h => ?_)
  refine alike_bind ((alike_getPool h).mono fun v t t' h => ?_)
  refine alike_bind ((alike_getPool h).mono fun v t t' h => ?_)
  refine alike_bind ((alike_setPool h pool _).mono fun _ t t' h => ?_)
  have hreset : Agree pool False [] { t with headers := [] } { t' with headers := [] } := by
    refine ⟨⟨h.calls, h.regions, h.nodes, rfl, h.outstanding⟩, fun x hx => h.bytes x ?_, False.elim⟩
    rcases hx with hx | hx | ⟨_, hmem, _⟩
    · exact Or.inl hx
    · exact Or.inr (Or.inl hx)
    · cases hmem
  refine alike_bind (alike_modify ?_)
  refine alike_bind ((alike_getPool hreset).mono fun v t t' h => ?_)
  exact alike_alongNodes _ h fun _ _ _ h => alike_resetNodeBody _ h

/-- A new region does not touch the records. -/
theorem Agree.allocate (h : Agree pool True extra s s') {a size : Nat}
    (hfresh : Fresh s.regions a size) :
    Agree pool True extra (allocated contents s a size) (allocated contents' s' a size) := by
  have hready := h.ready trivial
  refine ⟨⟨?_, ?_, h.nodes, h.headers, h.outstanding⟩, fun x hx => ?_,
    fun _ => ⟨Nat.succ_pos _, fun x hx => ?_⟩⟩
  · show s'.calls + 1 = s.calls + 1
    rw [h.calls]
  · show (a, size) :: s'.regions = (a, size) :: s.regions
    rw [h.regions]
  · obtain ⟨r, hr, hle, hlt⟩ := hready.covered x hx
    have hapart := hfresh.2.2.2 r hr
    refine (overwrite_outside (by omega)).trans ((h.bytes x hx).trans (overwrite_outside ?_).symm)
    omega
  · obtain ⟨r, hr, hle, hlt⟩ := hready.covered x hx
    exact ⟨r, List.mem_cons_of_mem _ hr, hle, hlt⟩

/-- A call that fails. -/
theorem Agree.fail (h : Agree pool True extra s s') :
    Agree pool True extra { s with calls := s.calls + 1 } { s' with calls := s'.calls + 1 } :=
  ⟨⟨congrArg Nat.succ h.calls, h.regions, h.nodes, h.headers, h.outstanding⟩, h.bytes,
    fun hC => ⟨Nat.succ_pos _, (h.ready hC).covered⟩⟩

/-- A new node is written. -/
theorem Agree.addNode (h : Agree pool True [] s s') {a z : Nat} (hregion : (a, z) ∈ s.regions)
    (hz : 32 ≤ z) (v : MpNode) :
    Agree pool True [a] { s with bytes := nodeCodec.write s.bytes a v }
      { s' with bytes := nodeCodec.write s'.bytes a v } := by
  have hcases : ∀ x, Watched pool [a] s x → Watched pool [] s x ∨ Cell nodeCodec a x := by
    rintro x (hx | ⟨n, hn, hx⟩ | hx)
    · exact Or.inl (Or.inl hx)
    · rcases List.mem_append.mp hn with hn | hn
      · exact Or.inl (Or.inr (Or.inl ⟨n, List.mem_append_left _ hn, hx⟩))
      · exact Or.inr (List.mem_singleton.mp hn ▸ hx)
    · exact Or.inl (Or.inr (Or.inr hx))
  have hready := h.ready trivial
  refine ⟨⟨h.calls, h.regions, h.nodes, h.headers, h.outstanding⟩, fun x hx => ?_,
    fun _ => ⟨hready.calls, fun x hx => ?_⟩⟩
  · rcases hcases x hx with hx | ⟨i, hi, rfl⟩
    · exact nodeCodec.write_congr (h.bytes x hx)
    · exact nodeCodec.write_uses hi
  · rcases hcases x hx with hx | ⟨i, hi, rfl⟩
    · exact hready.covered x hx
    · have hlt : i < 32 := nodeCodec.uses_lt hi
      exact ⟨_, hregion, Nat.le_add_right a i, show a + i < a + z by omega⟩

theorem alike_linkNode {block : Nat} (h : Agree pool C [block] s s') :
    Alike (linkNode pool block) (linkNode pool block) s s' fun _ => Agree pool C [] := by
  refine alike_bind ((alike_getPool h).mono fun v t t' h => ?_)
  refine alike_bind
    ((alike_alongNodes _ h fun _ _ _ h => alike_failBody _ h).mono fun r t t' h => ?_)
  refine alike_bind ((alike_getNode h _).mono fun node t t' h => ?_)
  refine alike_bind ((alike_setNode h _ _).mono fun _ t t' h => ?_)
  have hlinked : Agree pool C [] { t with nodes := t.nodes ++ [block] }
      { t' with nodes := t'.nodes ++ [block] } := by
    have hwatched : ∀ x, Watched pool [] { t with nodes := t.nodes ++ [block] } x →
        Watched pool [block] t x := by
      intro x hx
      unfold Watched at hx
      rw [List.append_nil] at hx
      exact hx
    refine ⟨⟨h.calls, h.regions, ?_, h.headers, h.outstanding⟩,
      fun x hx => h.bytes x (hwatched x hx),
      fun hC => ⟨(h.ready hC).calls, fun x hx => (h.ready hC).covered x (hwatched x hx)⟩⟩
    show t'.nodes ++ [block] = t.nodes ++ [block]
    rw [h.nodes]
  refine alike_bind (alike_modify ?_)
  exact alike_bind ((alike_getPool hlinked).mono fun v t t' h => alike_setPool h pool _)

/-- **`mp_malloc_block`**: the new node is the same in both runs, when `quote` and `failed` are. -/
theorem alike_mallocBlock (hstart : SameStart env env') (size : Nat) (h : Agree pool True [] s s') :
    Alike (mpMallocBlock env pool size) (mpMallocBlock env' pool size) s s' fun _ =>
      Agree pool True [] := by
  refine alike_bind ((alike_posixMemalign h.toOnlyBytes hstart.addr pageSize).mono ?_)
  rintro r t t' (⟨rfl, rfl, rfl⟩ | ⟨a, rfl, hfresh, rfl, rfl⟩)
  · exact alike_pure h.fail
  have hcalls := (h.ready trivial).calls
  have hread : ∀ (contents : Nat → Bytes) (s : State),
    nodeCodec.read (allocated contents s a pageSize).bytes (a + 0) =
      nodeCodec.read (contents s.calls) 0 :=
        fun contents s => nodeCodec.read_overwrite_inside (by decide)
  rw [Nat.add_zero] at hread
  refine alike_get_bind ?_
  rw [hread, hread, h.calls]
  dsimp only
  rw [hstart.clean.quote _ hcalls, hstart.clean'.quote _ hcalls, hstart.failed _ hcalls]
  refine alike_bind (alike_modify ?_)
  have hnew : Agree pool True [] (allocated env.contents s a pageSize)
      (allocated env'.contents s' a pageSize) :=
    h.allocate hfresh
  have hnode := hnew.addNode List.mem_cons_self (by decide)
  exact alike_bind ((alike_linkNode (hnode _)).mono fun _ _ _ h => alike_pure h)

theorem alike_mallocSmall (hstart : SameStart env env') (size : Nat) (h : Agree pool True [] s s') :
    Alike (mpMallocSmall env pool size) (mpMallocSmall env' pool size) s s' fun _ =>
      Agree pool True [] := by
  refine alike_bind ((alike_getPool h).mono fun v t t' h => ?_)
  refine alike_bind
    ((alike_alongNodes _ h fun _ _ _ h => alike_carveBody size _ h).mono fun r t t' h => ?_)
  cases r with
  | some memAddr => exact alike_pure h
  | none => exact alike_mallocBlock hstart size h

/-- A new header is written, and put in front of the list. -/
theorem alike_linkLarge (large size bigAddr : Nat) (h : Agree pool C [] s s') :
    Alike (linkLarge pool large size bigAddr) (linkLarge pool large size bigAddr) s s' fun _ =>
      Agree pool False [] := by
  refine alike_bind ((alike_getPool h).mono fun v t t' h => ?_)
  refine alike_bind (alike_modify (alike_bind (alike_modify ?_)))
  let v' : MpLarge := ⟨v.large, wrap size, bigAddr⟩
  have hlinked : Agree pool False []
      { t with bytes := largeCodec.write t.bytes large v', headers := large :: t.headers }
      { t' with bytes := largeCodec.write t'.bytes large v', headers := large :: t'.headers } := by
    refine ⟨⟨h.calls, h.regions, h.nodes, ?_, h.outstanding⟩, fun x hx => ?_, False.elim⟩
    · show large :: t'.headers = large :: t.headers
      rw [h.headers]
    · rcases hx with hx | hx | ⟨l, hl, hx⟩
      · exact largeCodec.write_congr (h.bytes x (Or.inl hx))
      · exact largeCodec.write_congr (h.bytes x (Or.inr (Or.inl hx)))
      · rcases List.mem_cons.mp hl with rfl | hl
        · obtain ⟨i, hi, rfl⟩ := hx
          exact largeCodec.write_uses hi
        · exact largeCodec.write_congr (h.bytes x (Or.inr (Or.inr ⟨l, hl, hx⟩)))
  exact alike_bind ((alike_getPool hlinked).mono fun v t t' h => alike_setPool h pool _)

theorem alike_mallocLarge (hstart : SameStart env env') (size : Nat) (h : Agree pool True [] s s') :
    Alike (mpMallocLarge env pool size) (mpMallocLarge env' pool size) s s' fun _ =>
      Agree pool False [] := by
  refine alike_bind ((alike_posixMemalign h.toOnlyBytes hstart.addr size).mono ?_)
  rintro r t t' (⟨rfl, rfl, rfl⟩ | ⟨a, rfl, hfresh, rfl, rfl⟩)
  · exact alike_pure h.fail.weaken
  refine alike_bind ((alike_getPool (h.allocate hfresh)).mono fun v t t' h => ?_)
  refine alike_bind
    ((alike_alongLarge _ h fun _ _ _ h => alike_releasedBody _ h).mono fun r t t' h => ?_)
  cases r with
  | some large =>
      refine alike_bind ((alike_getLarge h large).mono fun l t t' h => ?_)
      exact alike_bind ((alike_setLarge h large _).mono fun _ _ _ h => alike_pure h.weaken)
  | none =>
      refine alike_bind ((alike_mallocSmall hstart sizeofLarge h).mono fun large t t' h => ?_)
      refine alike_ite Iff.rfl (fun _ => ?_) fun _ => ?_
      · exact alike_bind ((alike_free h a).mono fun _ _ _ h => alike_pure h)
      · exact alike_bind ((alike_linkLarge large size a h).mono fun _ _ _ h => alike_pure h)

theorem alike_mpMalloc (hstart : SameStart env env') (size : Nat) (h : Agree pool True [] s s') :
    Alike (mpMalloc env pool size) (mpMalloc env' pool size) s s' fun _ => Agree pool False [] := by
  refine alike_ite Iff.rfl (fun _ => alike_pure h.weaken) fun _ => ?_
  refine alike_ite Iff.rfl (fun _ => alike_mallocLarge hstart size h) fun _ => ?_
  exact (alike_mallocSmall hstart size h).mono fun _ _ _ h => h.weaken

theorem alike_mpCalloc (hstart : SameStart env env') (size : Nat) (h : Agree pool True [] s s') :
    Alike (mpCalloc env pool size) (mpCalloc env' pool size) s s' fun _ => Agree pool False [] := by
  refine alike_bind ((alike_mpMalloc hstart size h).mono fun p t t' h => ?_)
  refine alike_ite Iff.rfl (fun _ => ?_) fun _ => alike_pure h
  exact alike_bind (alike_modify (alike_pure (h.write overwrite_congr)))

end Functions

/-! ## Every run -/

section Runs

variable {env env' : Memalign} {pool : Nat} {U : List Block} {s s' : State}

/-- The records of the pool lie in the regions of its nodes. -/
theorem Inv.ready (hinv : Inv pool U s) : Ready pool [] s := by
  have hhome : ∀ n ∈ s.nodes, ∀ x, home pool n ≤ x → x < home pool n + 4096 →
      ∃ r ∈ s.regions, r.1 ≤ x ∧ x < r.1 + r.2 := by
    intro n hn x hle hlt
    obtain ⟨z, hz, hr⟩ := hinv.chain.homes n hn
    exact ⟨_, hr, hle, show x < home pool n + z by omega⟩
  refine ⟨hinv.chain.calls, ?_⟩
  rintro x (⟨i, hi, rfl⟩ | ⟨n, hn, i, hi, rfl⟩ | ⟨h, hh, i, hi, rfl⟩)
  · have hlt : i < 24 := poolCodec.uses_lt hi
    have hhead := home_head pool
    exact hhome _ hinv.chain.head_mem _ (by omega) (by omega)
  · have hlt : i < 32 := nodeCodec.uses_lt hi
    rw [List.append_nil] at hn
    have hbounds := hinv.chain.node_bounds hn
    exact hhome n hn _ (by omega) (by omega)
  · have hlt : i < 24 := largeCodec.uses_lt hi
    have hplaced := (hinv.carved.block _ (mem_blocks_of_header hh)).2.2
    obtain ⟨-, n, hn, hused, hused'⟩ :=
      hplaced.resolve_right fun hlarge => absurd hlarge.1 (show ¬4064 < 24 by decide)
    have hbounds := hinv.chain.node_bounds hn
    have hlast := hinv.carved.last n hn
    dsimp only at hused hused'
    exact hhome n hn _ (by omega) (by omega)

theorem Agree.setOutstanding {C : Prop} {extra : List Nat} (h : Agree pool C extra s s')
    (f : List Block → List Block) :
    Agree pool C extra { s with outstanding := f s.outstanding }
      { s' with outstanding := f s'.outstanding } :=
  ⟨⟨h.calls, h.regions, h.nodes, h.headers, congrArg f h.outstanding⟩, h.bytes,
    fun hC => ⟨(h.ready hC).calls, (h.ready hC).covered⟩⟩

/-- **One step** goes the same way in both runs. -/
theorem alike_step (hstart : SameStart env env') (o : Op) (h : Agree pool True [] s s') :
    Alike (step env pool o) (step env' pool o) s s' fun _ => Agree pool False [] := by
  cases o with
  | malloc size =>
      refine alike_bind ((alike_mpMalloc hstart size h).mono fun p t t' h => ?_)
      exact alike_bind (alike_modify (alike_pure
        (h.setOutstanding fun U => if p = 0 then U else (p, size) :: U)))
  | calloc size =>
      refine alike_bind ((alike_mpCalloc hstart size h).mono fun p t t' h => ?_)
      exact alike_bind (alike_modify (alike_pure
        (h.setOutstanding fun U => if p = 0 then U else (p, size) :: U)))
  | free p =>
      refine alike_await (by rw [h.outstanding]) fun _ => ?_
      refine alike_bind ((alike_mpFree p h.weaken).mono fun _ t t' h => ?_)
      exact alike_bind
        (alike_modify (alike_pure (h.setOutstanding fun U => U.eraseP fun b => b.1 = p)))
  | reset =>
      refine alike_bind ((alike_mpResetPool h.weaken).mono fun _ t t' h => ?_)
      exact alike_bind (alike_modify (alike_pure (h.setOutstanding fun _ => [])))
  | write b data =>
      refine alike_await (by rw [h.outstanding]) fun _ => ?_
      exact alike_bind (alike_modify (alike_pure (h.weaken.write overwrite_congr)))

/-- **A new pool** is the same in both runs, when the head is clean. -/
theorem alike_create (hstart : SameStart env env') (size : Nat) (bytes bytes' : Bytes) :
    Alike (mpCreatePool env size) (mpCreatePool env' size) (start bytes) (start bytes')
      fun pool t t' =>
      pool = 0 ∨ Agree pool False [] t t' := by
  unfold mpCreatePool
  generalize hz : (if size < pageSize ∨ size % pageSize ≠ 0 then pageSize else size) = z
  have hsame : OnlyBytes (start bytes) (start bytes') := ⟨rfl, rfl, rfl, rfl, rfl⟩
  refine alike_bind ((alike_posixMemalign hsame hstart.addr z).mono ?_)
  rintro r t t' (⟨rfl, -, -⟩ | ⟨a, rfl, hfresh, ht, ht'⟩)
  · exact alike_pure (Or.inl rfl)
  have hhead : t.node (a + 24) = nodeCodec.read (env.contents 0) sizeofPool :=
    ht ▸ allocated_head (le_poolSize hz)
  have hhead' : t'.node (a + 24) = nodeCodec.read (env'.contents 0) sizeofPool :=
    ht' ▸ allocated_head (le_poolSize hz)
  have hinit := ok_initPool (hhead ▸ hstart.clean.headNext) (hhead ▸ hstart.clean.headQuote)
  have hinit' := ok_initPool (hhead' ▸ hstart.clean'.headNext) (hhead' ▸ hstart.clean'.headQuote)
  refine alike_bind (Alike.of_ok hinit hinit' ?_)
  rintro - u - u' rfl rfl
  refine ⟨rfl, alike_pure (Or.inr ⟨?_, ?_, False.elim⟩)⟩
  · rw [ht, ht']
    exact ⟨rfl, rfl, rfl, rfl, rfl⟩
  · rintro x (⟨i, hi, rfl⟩ | ⟨n, hn, i, hi, rfl⟩ | ⟨l, hl, -⟩)
    · exact nodeCodec.write_congr (poolCodec.write_uses hi)
    · rw [List.append_nil, List.mem_singleton] at hn
      subst hn
      exact nodeCodec.write_uses hi
    · rw [ht] at hl
      cases hl

/-- The two runs, step by step; the first keeps the invariant. -/
theorem alike_session (hstart : SameStart env env') (size : Nat) (ops : List Op)
    (bytes bytes' : Bytes) :
    Alike (session env size ops) (session env' size ops) (start bytes) (start bytes')
      fun _ _ _ => True := by
  have hstep : ∀ pool o s s', Agree pool False [] s s' ∧ Inv pool s.outstanding s →
      Alike (step env pool o) (step env' pool o) s s' fun _ t t' =>
        Agree pool False [] t t' ∧ Inv pool t.outstanding t := by
    rintro pool o s s' ⟨h, hinv⟩
    refine (alike_step hstart o (h.upgrade hinv.ready)).and_run.mono ?_
    rintro r t t' ⟨ht, hrun⟩
    exact ⟨ht, (hinv.takes_step hstart.clean o).of_run hrun⟩
  refine alike_bind ((alike_create hstart size bytes bytes').and_run.mono ?_)
  rintro pool t t' ⟨ht, hcreate⟩
  refine alike_ite Iff.rfl (fun _ => alike_pure trivial) fun hpool => ?_
  have hinv := ((takes_create hstart.clean size bytes).of_run hcreate).resolve_left hpool
  have hruns := alike_runAll (hstep pool) ops t t' ⟨ht.resolve_left hpool, hinv⟩
  exact alike_bind (hruns.mono fun _ _ _ _ => alike_pure trivial)

/-- The only fault of a run is that there is no such run. -/
theorem session_eq_blocked (henv : Clean env) {size : Nat} {ops : List Op}
    {bytes : Bytes} {e : Fault} (hrun : (session env size ops).run (start bytes) = .error e) :
    e = .blocked := by
  have hops : ∀ pool, ∀ (ops : List Op) (s : State), Inv pool s.outstanding s →
      Takes (runAll (step env pool) ops) s fun _ _ => True := by
    intro pool ops
    induction ops with
    | nil =>
        intro s _
        exact Ok.takes ((ok_pure _ _ _).mpr trivial)
    | cons o ops ih =>
        intro s hinv
        refine takes_bind ((hinv.takes_step henv o).mono fun r t ht => ?_)
        exact takes_bind ((ih t ht).mono fun rs u _ => Ok.takes ((ok_pure _ _ _).mpr trivial))
  have hsession : Takes (session env size ops) (start bytes) fun _ _ => True := by
    refine takes_bind ((takes_create henv size bytes).mono fun pool t ht => ?_)
    split_ifs with hpool
    · exact Ok.takes ((ok_pure _ _ _).mpr trivial)
    · refine takes_bind ((hops pool ops t (ht.resolve_left hpool)).mono fun rs u _ => ?_)
      exact Ok.takes ((ok_pure _ _ _).mpr trivial)
  exact hsession.eq_blocked hrun

end Runs

/-- Both runs return the same addresses from every call, and follow only links of the pool: where
they do not go on, `posix_memalign` has returned what it may not. -/
def Insensitive (env env' : Memalign) (size : Nat) (ops : List Op) (bytes bytes' : Bytes) : Prop :=
  ((session env size ops).run (start bytes)).map Prod.fst =
      ((session env' size ops).run (start bytes')).map Prod.fst ∧
    (∀ e, (session env size ops).run (start bytes) = .error e → e = .blocked) ∧
    ∀ e, (session env' size ops).run (start bytes') = .error e → e = .blocked

/-- **The pool does not depend on stale memory when it gets clean memory**: in the region of the
pool the bytes of `next` and `quote` of the head are zero, and in that of every node those of
`quote` are zero and those of `failed` are the same in both runs. -/
theorem session_insensitive (env env' : Memalign) (hstart : SameStart env env') (size : Nat)
    (ops : List Op) (bytes bytes' : Bytes) : Insensitive env env' size ops bytes bytes' :=
  ⟨(alike_session hstart size ops bytes bytes').map_fst,
    fun _ hrun => session_eq_blocked hstart.clean hrun,
    fun _ hrun => session_eq_blocked hstart.clean' hrun⟩

/-- The memory of `sampleEnv`, but with other contents in every byte that the pool does not read. -/
def otherEnv : Memalign := ⟨sampleEnv.addr, fun _ i => if i < 64 then 0 else 255, fun _ _ => 255⟩

theorem sameStart_other : SameStart sampleEnv otherEnv := by
  have hzero : ∀ a, a ≤ 24 →
      nodeCodec.read (fun i => if i < 64 then 0 else 255) a = ⟨0, 0, 0, 0, 0⟩ := by
    intro a ha
    refine Eq.trans (nodeCodec.read_frame fun x _ hx => ?_) (node_read_zero a)
    have hlt : x < a + 32 := hx
    exact if_pos (by omega)
  refine ⟨rfl, clean_of_zero fun _ _ => rfl, ⟨?_, ?_, fun k _ => ?_⟩, fun k _ => ?_⟩
  · exact congrArg MpNode.next (hzero 24 le_rfl)
  · exact congrArg MpNode.quote (hzero 24 le_rfl)
  · exact congrArg MpNode.quote (hzero 0 (by decide))
  · exact congrArg MpNode.failed ((hzero 0 (by decide)).trans (node_read_zero 0).symm)

theorem session_insensitive_sample :
    SameStart sampleEnv otherEnv ∧
      Insensitive sampleEnv otherEnv 0 sampleOps (fun _ => 0) (fun _ => 1) :=
  ⟨sameStart_other,
    session_insensitive sampleEnv otherEnv sameStart_other 0 sampleOps (fun _ => 0) fun _ => 1⟩

/-- The addresses of `sampleEnv`; the `next` of the head is not zero. -/
def staleEnv : Memalign :=
  ⟨sampleEnv.addr, fun k i => if k = 0 ∧ i = 40 then 1 else 0, sampleEnv.large⟩

/-- The request does not fit into the head, and the search follows the `next` of the head. -/
theorem session_sensitive :
    staleEnv.addr = sampleEnv.addr ∧
      ¬Insensitive sampleEnv staleEnv 0 [.malloc 4064] (fun _ => 0) (fun _ => 0) := by
  refine ⟨rfl, fun ⟨_, _, hfaults⟩ => ?_⟩
  have hfault : (match (session staleEnv 0 [.malloc 4064]).run (start fun _ => 0) with
      | .error e => some e
      | .ok _ => none) = some Fault.dangling := by decide +kernel
  cases hrun : (session staleEnv 0 [.malloc 4064]).run (start fun _ => 0) with
  | error e =>
      rw [hrun] at hfault
      have heq : e = .dangling := Option.some.inj hfault
      exact absurd (heq.symm.trans (hfaults e hrun)) (by decide)
  | ok p =>
      rw [hrun] at hfault
      cases hfault

end KvStore.Mempool
