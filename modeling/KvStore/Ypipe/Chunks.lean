import KvStore.Ypipe.Model

set_option autoImplicit false

/-! # The chunks of the queue

The elements have positions `0, 1, 2, …` in the order in which they were pushed; the element at the
position `i` is in the chunk number `i / N`, at the index `i % N` (`slotAt`). The chunks in the list
have the numbers `first, …, last`, at the addresses `chunk first, …, chunk last` (`Layout`).

`Memory heap g own`: the chunks that are allocated are those in the list and those in `own`, each of
them once, and the links between the chunks in the list are right in both directions. The operations
on the list and on the memory keep it. -/

namespace KvStore.Ypipe

open Function KvStore.Lib

variable {α : Type}

/-! ## Positions -/

/-- The address of the element at the position `i`. -/
def slotAt (N : Nat) (chunk : Nat → Nat) (i : Nat) : Slot := (chunk (i / N), i % N)

/-- The next position is in the same chunk. -/
theorem succ_in_chunk {N i : Nat} (h : i % N + 1 < N) :
    (i + 1) / N = i / N ∧ (i + 1) % N = i % N + 1 := by
  have hN : 0 < N := by omega
  have hsplit : i + 1 = i % N + 1 + N * (i / N) := by
    have := Nat.mod_add_div i N
    omega
  rw [hsplit, Nat.add_mul_div_left _ _ hN, Nat.div_eq_of_lt h, Nat.add_mul_mod_self_left,
    Nat.mod_eq_of_lt h]
  exact ⟨Nat.zero_add _, rfl⟩

/-- The next position is the first one of the next chunk. -/
theorem succ_new_chunk {N i : Nat} (hN : 0 < N) (h : i % N + 1 = N) :
    i + 1 = (i / N + 1) * N ∧ (i + 1) / N = i / N + 1 ∧ (i + 1) % N = 0 := by
  have hsplit : i + 1 = (i / N + 1) * N := by
    have := Nat.mod_add_div i N
    rw [Nat.add_mul, Nat.mul_comm (i / N) N]
    omega
  refine ⟨hsplit, ?_, ?_⟩
  · rw [hsplit, Nat.mul_div_cancel _ hN]
  · rw [hsplit, Nat.mul_mod_left]

/-- The last position of a chunk. -/
theorem last_of_chunk {N i k : Nat} (h : i + 1 = (k + 1) * N) : i / N = k ∧ i % N = N - 1 := by
  have hN : 0 < N := by
    rcases Nat.eq_zero_or_pos N with rfl | hN
    · omega
    · exact hN
  have hsplit : i = N - 1 + N * k := by
    rw [Nat.add_mul, Nat.mul_comm k N] at h
    omega
  have hlt : N - 1 < N := by omega
  rw [hsplit, Nat.add_mul_div_left _ _ hN, Nat.div_eq_of_lt hlt, Nat.add_mul_mod_self_left,
    Nat.mod_eq_of_lt hlt]
  exact ⟨Nat.zero_add k, rfl⟩

/-! ## The memory -/

def nextOf (heap : Nat → Option (Chunk α)) (a : Nat) : Option Nat := (heap a).bind Chunk.next
def prevOf (heap : Nat → Option (Chunk α)) (a : Nat) : Option Nat := (heap a).bind Chunk.prev
def valueAt (heap : Nat → Option (Chunk α)) (slot : Slot) : Option α :=
  (heap slot.1).bind fun chunk => chunk.values slot.2

/-- Change the chunk at `a`, if there is one. -/
def modAt (heap : Nat → Option (Chunk α)) (a : Nat) (g : Chunk α → Chunk α) :
    Nat → Option (Chunk α) :=
  update heap a ((heap a).map g)

def Chunk.setNext (b : Nat) (chunk : Chunk α) : Chunk α := { chunk with next := some b }
def Chunk.setPrev (b : Nat) (chunk : Chunk α) : Chunk α := { chunk with prev := some b }
def Chunk.setValue (j : Nat) (value : α) (chunk : Chunk α) : Chunk α :=
  { chunk with values := update chunk.values j (some value) }

section Heap

variable {heap : Nat → Option (Chunk α)} {a b : Nat} {g : Chunk α → Chunk α} {s : Sys α}

theorem modAt_of_ne (h : b ≠ a) : modAt heap a g b = heap b := update_of_ne h _ _

theorem modAt_self : modAt heap a g a = (heap a).map g := update_self ..

@[simp] theorem isSome_modAt : (modAt heap a g b).isSome = (heap b).isSome := by
  by_cases hb : b = a
  · rw [hb, modAt_self, Option.isSome_map]
  · rw [modAt_of_ne hb]

/-- What a change of a chunk does to a part of it. -/
theorem bind_modAt {β : Type} (field : Chunk α → Option β)
    (hfield : ∀ chunk, field (g chunk) = field chunk) :
    (modAt heap a g b).bind field = (heap b).bind field := by
  by_cases hb : b = a
  · rw [hb, modAt_self]
    cases heap a with
    | none => rfl
    | some chunk => exact hfield chunk
  · rw [modAt_of_ne hb]

@[simp] theorem prevOf_setNext (c : Nat) : prevOf (modAt heap a (.setNext b)) c = prevOf heap c :=
  bind_modAt _ fun _ => rfl

@[simp] theorem valueAt_setNext (slot : Slot) :
    valueAt (modAt heap a (.setNext b)) slot = valueAt heap slot :=
  bind_modAt (fun chunk => chunk.values slot.2) fun _ => rfl

@[simp] theorem nextOf_setPrev (c : Nat) : nextOf (modAt heap a (.setPrev b)) c = nextOf heap c :=
  bind_modAt _ fun _ => rfl

@[simp] theorem valueAt_setPrev (slot : Slot) :
    valueAt (modAt heap a (.setPrev b)) slot = valueAt heap slot :=
  bind_modAt (fun chunk => chunk.values slot.2) fun _ => rfl

@[simp] theorem nextOf_setValue (j : Nat) (v : α) (c : Nat) :
    nextOf (modAt heap a (.setValue j v)) c = nextOf heap c :=
  bind_modAt _ fun _ => rfl

@[simp] theorem prevOf_setValue (j : Nat) (v : α) (c : Nat) :
    prevOf (modAt heap a (.setValue j v)) c = prevOf heap c :=
  bind_modAt _ fun _ => rfl

theorem nextOf_setNext_self (h : (heap a).isSome) :
    nextOf (modAt heap a (.setNext b)) a = some b := by
  obtain ⟨chunk, hchunk⟩ := Option.isSome_iff_exists.mp h
  rw [nextOf, modAt_self, hchunk]
  rfl

theorem prevOf_setPrev_self (h : (heap a).isSome) :
    prevOf (modAt heap a (.setPrev b)) a = some b := by
  obtain ⟨chunk, hchunk⟩ := Option.isSome_iff_exists.mp h
  rw [prevOf, modAt_self, hchunk]
  rfl

theorem valueAt_setValue_self {slot : Slot} {v : α} (h : (heap slot.1).isSome) :
    valueAt (modAt heap slot.1 (.setValue slot.2 v)) slot = some v := by
  obtain ⟨chunk, hchunk⟩ := Option.isSome_iff_exists.mp h
  rw [valueAt, modAt_self, hchunk]
  exact update_self ..

theorem valueAt_setValue_of_ne {slot slot' : Slot} {v : α} (h : slot' ≠ slot) :
    valueAt (modAt heap slot.1 (.setValue slot.2 v)) slot' = valueAt heap slot' := by
  by_cases hchunk : slot'.1 = slot.1
  · have hindex : slot'.2 ≠ slot.2 := fun hindex => h (Prod.ext hchunk hindex)
    rw [valueAt, valueAt, hchunk, modAt_self]
    cases heap slot.1 with
    | none => rfl
    | some chunk => exact update_of_ne hindex _ _
  · rw [valueAt, modAt_of_ne hchunk]
    rfl

/-! ## What the accesses do -/

theorem isSome_ne_zero (hnull : heap 0 = none) (h : (heap a).isSome) : a ≠ 0 := by
  rintro rfl
  rw [hnull] at h
  cases h

theorem ok_readChunk {chunk : Chunk α} (hnull : s.heap 0 = none) (h : s.heap a = some chunk)
    (Q : Chunk α → Sys α → Prop) : Ok (readChunk a) s Q ↔ Q chunk s := by
  have ha : a ≠ 0 := isSome_ne_zero hnull (by rw [h]; rfl)
  unfold readChunk
  rw [if_neg ha, ok_bind, ok_get, h]
  exact ok_pure ..

theorem ok_readField {field : Chunk α → Option Nat} (hnull : s.heap 0 = none)
    (h : (s.heap a).bind field = some b) (Q : Nat → Sys α → Prop) :
    Ok (readField a field) s Q ↔ Q b s := by
  obtain ⟨chunk, hchunk, hfield⟩ := Option.bind_eq_some_iff.mp h
  unfold readField
  rw [ok_bind, ok_readChunk hnull hchunk, hfield]
  exact ok_pure ..

/-- A chunk is changed where it stands. -/
theorem ok_update {chunk : Chunk α} (hnull : s.heap 0 = none) (h : s.heap a = some chunk)
    (g : Chunk α → Chunk α) (Q : Unit → Sys α → Prop) :
    Ok (do let chunk ← readChunk a; writeChunk a (g chunk)) s Q ↔
      Q () { s with heap := modAt s.heap a g } := by
  rw [ok_bind, ok_readChunk hnull h, writeChunk, ok_modify, modAt, h]
  rfl

theorem ok_writeNext (hnull : s.heap 0 = none) (h : (s.heap a).isSome) (Q : Unit → Sys α → Prop) :
    Ok (writeNext a b) s Q ↔ Q () { s with heap := modAt s.heap a (.setNext b) } := by
  obtain ⟨chunk, hchunk⟩ := Option.isSome_iff_exists.mp h
  exact ok_update hnull hchunk (.setNext b) Q

theorem ok_writePrev (hnull : s.heap 0 = none) (h : (s.heap a).isSome) (Q : Unit → Sys α → Prop) :
    Ok (writePrev a b) s Q ↔ Q () { s with heap := modAt s.heap a (.setPrev b) } := by
  obtain ⟨chunk, hchunk⟩ := Option.isSome_iff_exists.mp h
  exact ok_update hnull hchunk (.setPrev b) Q

theorem ok_writeValue {N : Nat} {slot : Slot} {v : α} (hnull : s.heap 0 = none)
    (h : (s.heap slot.1).isSome) (hindex : slot.2 < N) (Q : Unit → Sys α → Prop) :
    Ok (writeValue N slot v) s Q ↔
    Q () { s with heap := modAt s.heap slot.1 (.setValue slot.2 v) } := by
  obtain ⟨chunk, hchunk⟩ := Option.isSome_iff_exists.mp h
  unfold writeValue
  simp only [if_pos hindex]
  exact ok_update hnull hchunk (.setValue slot.2 v) Q

theorem ok_readValue {N : Nat} {slot : Slot} {v : α} (hnull : s.heap 0 = none)
    (h : valueAt s.heap slot = some v) (hindex : slot.2 < N) (Q : α → Sys α → Prop) :
    Ok (readValue N slot) s Q ↔ Q v s := by
  obtain ⟨chunk, hchunk, hvalue⟩ := Option.bind_eq_some_iff.mp h
  unfold readValue
  rw [ok_bind, ok_readChunk hnull hchunk, if_pos hindex, hvalue]
  exact ok_pure ..

theorem ok_freeChunk (hnull : s.heap 0 = none) (h : (s.heap a).isSome) (Q : Unit → Sys α → Prop) :
    Ok (freeChunk a) s Q ↔ Q () { s with heap := update s.heap a none } := by
  obtain ⟨chunk, hchunk⟩ := Option.isSome_iff_exists.mp h
  unfold freeChunk
  rw [if_neg (isSome_ne_zero hnull h), ok_bind, ok_get, hchunk]
  exact ok_modify ..

theorem ok_freeChunk_null (Q : Unit → Sys α → Prop) : Ok (freeChunk 0) s Q ↔ Q () s := by
  unfold freeChunk
  rw [if_pos rfl]
  exact ok_pure ..

end Heap

/-! ## The list of chunks -/

/-- The chunks in the list, and the position of the first element. -/
structure Layout where
  chunk : Nat → Nat
  first : Nat
  last : Nat
  front : Nat

/-- The addresses of the chunks in the list. -/
def Layout.chain (g : Layout) : List Nat := (List.range' g.first (g.last + 1 - g.first)).map g.chunk

/-- The first chunk is taken from the list. -/
def Layout.dropFirst (g : Layout) : Layout := ⟨g.chunk, g.first + 1, g.last, g.front⟩

/-- The last chunk is taken from the list. -/
def Layout.dropLast (g : Layout) : Layout := ⟨g.chunk, g.first, g.last - 1, g.front⟩

/-- The chunk at `a` is put at the end of the list. -/
def Layout.append (g : Layout) (a : Nat) : Layout :=
  ⟨update g.chunk (g.last + 1) a, g.first, g.last + 1, g.front⟩

section Chain

variable {g : Layout} {k : Nat}

theorem Layout.mem_chain (hfirst : g.first ≤ k) (hlast : k ≤ g.last) : g.chunk k ∈ g.chain :=
  List.mem_map_of_mem (List.mem_range'_1.mpr ⟨hfirst, by omega⟩)

theorem Layout.chain_dropFirst (h : g.first ≤ g.last) :
    g.chain = g.chunk g.first :: g.dropFirst.chain := by
  have hlen : g.last + 1 - g.first = (g.last + 1 - (g.first + 1)) + 1 := by omega
  unfold Layout.chain
  rw [hlen, List.range'_succ]
  rfl

theorem Layout.chain_dropLast (h : g.first < g.last) :
    g.chain = g.dropLast.chain ++ [g.chunk g.last] := by
  have hlen : g.last + 1 - g.first = (g.last - 1 + 1 - g.first) + 1 := by omega
  have hend : g.first + (g.last - 1 + 1 - g.first) = g.last := by omega
  unfold Layout.chain
  rw [hlen, List.range'_1_concat, List.map_append, hend]
  rfl

theorem Layout.chain_append (h : g.first ≤ g.last) (a : Nat) :
    (g.append a).chain = g.chain ++ [a] := by
  have hlen : g.last + 1 + 1 - g.first = (g.last + 1 - g.first) + 1 := by omega
  have hend : g.first + (g.last + 1 - g.first) = g.last + 1 := by omega
  show (List.range' g.first (g.last + 1 + 1 - g.first)).map (update g.chunk (g.last + 1) a) = _
  rw [hlen, List.range'_1_concat, List.map_append, hend]
  congr 1
  · apply List.map_congr_left
    intro k hk
    have hne : k ≠ g.last + 1 := by
      have := List.mem_range'_1.mp hk
      omega
    exact update_of_ne hne _ _
  · exact congrArg (fun x => [x]) (update_self ..)

end Chain

/-- **The memory is in order**: the chunks in use are those in the list and those in `own`, and each
is there once; the list is linked in both directions. -/
structure Memory (heap : Nat → Option (Chunk α)) (g : Layout) (own : List Nat) : Prop where
  census : ∀ a, g.chain.count a + own.count a = (heap a).isSome.toNat
  null : heap 0 = none
  ordered : g.first ≤ g.last
  next : ∀ k, g.first ≤ k → k < g.last → nextOf heap (g.chunk k) = some (g.chunk (k + 1))
  prev : ∀ k, g.first ≤ k → k < g.last → prevOf heap (g.chunk (k + 1)) = some (g.chunk k)

namespace Memory

variable {heap : Nat → Option (Chunk α)} {g : Layout} {own own' : List Nat} {a b k : Nat}

theorem isSome_of_mem (h : Memory heap g own) (ha : a ∈ g.chain ++ own) : (heap a).isSome := by
  have hcount := List.count_pos_iff.mpr ha
  rw [List.count_append, h.census a] at hcount
  cases hlive : (heap a).isSome with
  | false => rw [hlive] at hcount; cases hcount
  | true => rfl

theorem isSome_chunk (h : Memory heap g own) (hfirst : g.first ≤ k) (hlast : k ≤ g.last) :
    (heap (g.chunk k)).isSome :=
  h.isSome_of_mem (List.mem_append_left _ (g.mem_chain hfirst hlast))

theorem isSome_own (h : Memory heap g own) (ha : a ∈ own) : (heap a).isSome :=
  h.isSome_of_mem (List.mem_append_right _ ha)

theorem nodup (h : Memory heap g own) : (g.chain ++ own).Nodup := by
  rw [List.nodup_iff_count_le_one]
  intro a
  rw [List.count_append, h.census a]
  exact Bool.toNat_le _

theorem chunk_inj (h : Memory heap g own) {j : Nat} (hj : g.first ≤ j) (hj' : j ≤ g.last)
    (hk : g.first ≤ k) (hk' : k ≤ g.last) (heq : g.chunk j = g.chunk k) : j = k := by
  have hchain : g.chain.Nodup := (List.nodup_append.mp h.nodup).1
  refine List.inj_on_of_nodup_map hchain ?_ ?_ heq
  · exact List.mem_range'_1.mpr ⟨hj, by omega⟩
  · exact List.mem_range'_1.mpr ⟨hk, by omega⟩

theorem chunk_ne_own (h : Memory heap g own) (hfirst : g.first ≤ k) (hlast : k ≤ g.last)
    (ha : a ∈ own) : g.chunk k ≠ a :=
  (List.nodup_append.mp h.nodup).2.2 _ (g.mem_chain hfirst hlast) a ha

/-- Two positions in the list have one address only if they are one. -/
theorem slotAt_inj (h : Memory heap g own) {N i j : Nat} (hi : g.first ≤ i / N)
    (hi' : i / N ≤ g.last) (hj : g.first ≤ j / N) (hj' : j / N ≤ g.last)
    (heq : slotAt N g.chunk i = slotAt N g.chunk j) : i = j := by
  have hchunk : i / N = j / N := h.chunk_inj hi hi' hj hj' (congrArg Prod.fst heq)
  have hindex : i % N = j % N := congrArg Prod.snd heq
  rw [← Nat.mod_add_div i N, ← Nat.mod_add_div j N, hchunk, hindex]

/-! ### Changes -/

/-- Chunks that are not in the list change hands. -/
theorem move (h : Memory heap g own) (hown : ∀ a, own'.count a = own.count a) :
    Memory heap g own' :=
  ⟨fun a => by rw [hown a]; exact h.census a, h.null, h.ordered, h.next, h.prev⟩

/-- A chunk is changed, and the links of the list are not. -/
theorem modAt {f : Chunk α → Chunk α} (h : Memory heap g own)
    (hnext : ∀ k, g.first ≤ k → k < g.last →
      nextOf (modAt heap a f) (g.chunk k) = nextOf heap (g.chunk k))
    (hprev : ∀ k, g.first ≤ k → k < g.last →
      prevOf (Ypipe.modAt heap a f) (g.chunk (k + 1)) = prevOf heap (g.chunk (k + 1))) :
    Memory (Ypipe.modAt heap a f) g own where
  census b := by rw [isSome_modAt]; exact h.census b
  null := by
    by_cases ha : 0 = a
    · rw [← ha, modAt_self, h.null]
      rfl
    · rw [modAt_of_ne ha, h.null]
  ordered := h.ordered
  next k hk hk' := (hnext k hk hk').trans (h.next k hk hk')
  prev k hk hk' := (hprev k hk hk').trans (h.prev k hk hk')

theorem setValue (h : Memory heap g own) (j : Nat) (v : α) :
    Memory (Ypipe.modAt heap a (.setValue j v)) g own :=
  h.modAt (fun _ _ _ => nextOf_setValue ..) fun _ _ _ => prevOf_setValue ..

/-- The link behind the last chunk is free. -/
theorem setNext_last (h : Memory heap g own) :
    Memory (Ypipe.modAt heap (g.chunk g.last) (.setNext b)) g own := by
  refine h.modAt (fun k hk hk' => ?_) fun _ _ _ => prevOf_setNext ..
  have hne : g.chunk k ≠ g.chunk g.last := by
    intro heq
    have := h.chunk_inj hk hk'.le h.ordered le_rfl heq
    omega
  rw [nextOf, modAt_of_ne hne]
  rfl

/-- The link before the first chunk is free, and so are those of chunks that are not in the list. -/
theorem setPrev (h : Memory heap g own) (ha : ∀ k, g.first < k → k ≤ g.last → g.chunk k ≠ a) :
    Memory (Ypipe.modAt heap a (.setPrev b)) g own := by
  refine h.modAt (fun _ _ _ => nextOf_setPrev ..) fun k hk hk' => ?_
  rw [prevOf, modAt_of_ne (ha (k + 1) (by omega) hk')]
  rfl

theorem setPrev_first (h : Memory heap g own) :
    Memory (Ypipe.modAt heap (g.chunk g.first) (.setPrev b)) g own := by
  refine h.setPrev fun k hk hk' heq => ?_
  have := h.chunk_inj hk.le hk' le_rfl h.ordered heq
  omega

theorem setPrev_own (h : Memory heap g own) (ha : a ∈ own) :
    Memory (Ypipe.modAt heap a (.setPrev b)) g own :=
  h.setPrev fun _ hk hk' => h.chunk_ne_own hk.le hk' ha

/-- The memory, when what is allocated changes at one address that is not in the list. -/
theorem setChunk {chunk : Option (Chunk α)} (h : Memory heap g own) (ha : a ∉ g.chain)
    (hnull : a ≠ 0) (hown : own'.count a = chunk.isSome.toNat)
    (hown' : ∀ b, b ≠ a → own'.count b = own.count b) : Memory (update heap a chunk) g own' where
  census b := by
    by_cases hb : b = a
    · subst hb
      rw [update_self, List.count_eq_zero.mpr ha, Nat.zero_add, hown]
    · rw [update_of_ne hb, hown' b hb]
      exact h.census b
  null := by rw [update_of_ne hnull.symm, h.null]
  ordered := h.ordered
  next k hk hk' := by
    have hne : g.chunk k ≠ a := fun heq => ha (heq ▸ g.mem_chain hk hk'.le)
    rw [nextOf, update_of_ne hne]
    exact h.next k hk hk'
  prev k hk hk' := by
    have hne : g.chunk (k + 1) ≠ a := fun heq => ha (heq ▸ g.mem_chain (by omega) hk')
    rw [prevOf, update_of_ne hne]
    exact h.prev k hk hk'

/-- `malloc` -/
theorem malloc (h : Memory heap g own) (hfree : heap a = none) (ha : a ≠ 0) (chunk : Chunk α) :
    Memory (update heap a (some chunk)) g (a :: own) := by
  have hcount := h.census a
  rw [hfree] at hcount
  have hchain : g.chain.count a = 0 := by
    change _ = 0 at hcount
    omega
  have hown : own.count a = 0 := by
    change _ = 0 at hcount
    omega
  refine h.setChunk (List.count_eq_zero.mp hchain) ha ?_ fun b hb => List.count_cons_of_ne hb.symm
  rw [List.count_cons_self, hown]
  rfl

/-- `free`, of a chunk that is not in the list -/
theorem free (h : Memory heap g (a :: own)) : Memory (update heap a none) g own := by
  have hlive := h.isSome_own List.mem_cons_self
  have hcount := h.census a
  rw [hlive, List.count_cons_self] at hcount
  have hchain : g.chain.count a = 0 := by
    change _ = 1 at hcount
    omega
  have hown : own.count a = 0 := by
    change _ = 1 at hcount
    omega
  refine h.setChunk (List.count_eq_zero.mp hchain) (isSome_ne_zero h.null hlive) hown fun b hb => ?_
  rw [List.count_cons_of_ne hb.symm]

/-- The first chunk is taken from the list. -/
theorem dropFirst (h : Memory heap g own) (hne : g.first < g.last) :
    Memory heap g.dropFirst (g.chunk g.first :: own) where
  census a := by
    rw [← h.census a, g.chain_dropFirst h.ordered, List.count_cons, List.count_cons]
    omega
  null := h.null
  ordered := hne
  next k hk := h.next k (Nat.le_of_succ_le hk)
  prev k hk := h.prev k (Nat.le_of_succ_le hk)

/-- The last chunk is taken from the list. -/
theorem dropLast (h : Memory heap g own) (hne : g.first < g.last) :
    Memory heap g.dropLast (g.chunk g.last :: own) where
  census a := by
    rw [← h.census a, g.chain_dropLast hne, List.count_append, List.count_cons, List.count_cons,
      List.count_nil]
    omega
  null := h.null
  ordered := Nat.le_sub_one_of_lt hne
  next k hk hk' := h.next k hk (by change k < g.last - 1 at hk'; omega)
  prev k hk hk' := h.prev k hk (by change k < g.last - 1 at hk'; omega)

/-- A chunk that is linked to the last one in both directions is put at the end of the list. -/
theorem append (h : Memory heap g (a :: own)) (hnext : nextOf heap (g.chunk g.last) = some a)
    (hprev : prevOf heap a = some (g.chunk g.last)) : Memory heap (g.append a) own := by
  have hold : ∀ k, k ≤ g.last → (g.append a).chunk k = g.chunk k := fun k hk =>
    update_of_ne (by omega) _ _
  have hnew : (g.append a).chunk (g.last + 1) = a := update_self ..
  refine ⟨fun b => ?_, h.null, Nat.le_succ_of_le h.ordered, fun k hk hk' => ?_, fun k hk hk' => ?_⟩
  · rw [← h.census b, Layout.chain_append h.ordered, List.count_append, List.count_cons,
      List.count_cons, List.count_nil]
    omega
  · rw [hold k (Nat.le_of_lt_succ hk')]
    rcases Nat.lt_succ_iff_lt_or_eq.mp hk' with hlt | rfl
    · rw [hold (k + 1) hlt]
      exact h.next k hk hlt
    · rw [hnew, hnext]
  · rw [hold k (Nat.le_of_lt_succ hk')]
    rcases Nat.lt_succ_iff_lt_or_eq.mp hk' with hlt | rfl
    · rw [hold (k + 1) hlt]
      exact h.prev k hk hlt
    · rw [hnew, hprev]

end Memory

end KvStore.Ypipe
