import KvStore.Ypipe.Chunks

set_option autoImplicit false

/-! # What the pipe is for, and its invariant

`Pipe` is a pipe without threads, chunks or pointers: the elements that the reader may take, those
that a `flush` will give it, those that are not complete yet, and whether the reader has been told
that there is nothing (`asleep`). `Pipe.call` says what each call does to it.

`Inv N s p g`: the threads and the memory `s` stand for the pipe `p`, with the chunks laid out as in
`g`. -/

namespace KvStore.Ypipe

open KvStore.Lib

variable {α : Type}

/-! ## The pipe as one object -/

/-- A pipe, with its elements first to last. -/
structure Pipe (α : Type) where
  flushed : List α
  complete : List α
  incomplete : List α
  asleep : Bool

/-- **What the calls do**, one at a time. -/
def Pipe.call (p : Pipe α) : Call α → Result α × Pipe α
  | .write v true => (.unit, ⟨p.flushed, p.complete, p.incomplete ++ [v], p.asleep⟩)
  | .write v false => (.unit, ⟨p.flushed, p.complete ++ p.incomplete ++ [v], [], p.asleep⟩)
  | .unwrite =>
      (.value p.incomplete.getLast?, ⟨p.flushed, p.complete, p.incomplete.dropLast, p.asleep⟩)
  | .flush =>
      if p.complete.isEmpty then (.bool true, p)
      else (.bool !p.asleep, ⟨p.flushed ++ p.complete, [], p.incomplete, false⟩)
  | .checkRead =>
      (.bool !p.flushed.isEmpty,
        ⟨p.flushed, p.complete, p.incomplete, p.asleep || p.flushed.isEmpty⟩)
  | .read =>
      (.value p.flushed.head?,
        ⟨p.flushed.tail, p.complete, p.incomplete, p.asleep || p.flushed.isEmpty⟩)

/-- The pipe that has been constructed. -/
def Pipe.empty (α : Type) : Pipe α := ⟨[], [], [], false⟩

/-- All its elements. -/
def Pipe.items (p : Pipe α) : List α := p.flushed ++ (p.complete ++ p.incomplete)

theorem Pipe.items_write (p : Pipe α) (v : α) (incomplete : Bool) :
    (p.call (.write v incomplete)).2.items = p.items ++ [v] := by
  cases incomplete with
  | true => simp only [Pipe.call, Pipe.items, List.append_assoc]
  | false => simp only [Pipe.call, Pipe.items, List.append_assoc, List.append_nil]

/-! ## The invariant -/

def nonNull (a : Nat) : List Nat := if a = 0 then [] else [a]

/-- The chunk that only the writer knows. -/
def WriterPc.own : WriterPc α → List Nat
  | .linkNext _ _ chunk _ => [chunk]
  | .linkPrev _ _ chunk _ => [chunk]
  | .moveEnd _ _ chunk => [chunk]
  | _ => []

/-- The chunk that only the reader knows. -/
def ReaderPc.own : ReaderPc → List Nat
  | .clearPrev chunk => [chunk]
  | .putSpare chunk => [chunk]
  | .free chunk => nonNull chunk
  | _ => []

/-- The chunks that are not in the list. -/
def Sys.own (s : Sys α) : List Nat := nonNull s.spareChunk ++ (s.reader.pc.own ++ s.writer.pc.own)

/-- The position behind the last element. -/
def Layout.top (g : Layout) (p : Pipe α) : Nat := g.front + p.items.length

/-- Where `end` is. -/
def Writer.endSlot (wr : Writer α) : Slot := (wr.endChunk, wr.endPos)

/-- The writer's positions, outside and where nothing has been changed yet. -/
structure Resting (N : Nat) (g : Layout) (top : Nat) (wr : Writer α) : Prop where
  back : wr.back = slotAt N g.chunk top
  endSlot : wr.endSlot = slotAt N g.chunk (top + 1)
  last : (top + 1) / N = g.last

/-- The writer's positions in `push`, where the last chunk is full; `v` is the new element. -/
structure Filled (N : Nat) (g : Layout) (top : Nat) (heap : Nat → Option (Chunk α)) (v : α)
    (wr : Writer α) : Prop where
  value : valueAt heap (slotAt N g.chunk top) = some v
  back : wr.back = slotAt N g.chunk (top + 1)
  endChunk : wr.endChunk = g.chunk g.last
  full : top + 2 = (g.last + 1) * N

/-- The writer's positions in `unpush`, when `back` has been moved. -/
structure Unpushed (N : Nat) (g : Layout) (top : Nat) (incomplete : List α)
    (wr : Writer α) : Prop where
  item : incomplete ≠ []
  back : wr.back = slotAt N g.chunk (top - 1)

/-- What holds where the writer is. -/
def WriterAt (N : Nat) (g : Layout) (p : Pipe α) (top : Nat) (heap : Nat → Option (Chunk α))
    (c : Option Slot) (wr : Writer α) : Prop :=
  match wr.pc with
  | .out => Resting N g top wr
  | .store _ _ => Resting N g top wr
  | .cas => Resting N g top wr ∧ p.complete ≠ []
  | .set => Resting N g top wr ∧ p.complete ≠ [] ∧ c = none
  | .moveBack => Resting N g top wr ∧ p.incomplete ≠ []
  | .takeSpare v _ => Filled N g top heap v wr
  | .malloc v _ => Filled N g top heap v wr
  | .linkNext v _ _ _ => Filled N g top heap v wr
  | .linkPrev v _ a _ => Filled N g top heap v wr ∧ nextOf heap (g.chunk g.last) = some a
  | .moveEnd v _ a => Filled N g top heap v wr ∧ nextOf heap (g.chunk g.last) = some a ∧
      prevOf heap a = some (g.chunk g.last)
  | .unmoveEnd => Unpushed N g top p.incomplete wr ∧ wr.endSlot = slotAt N g.chunk (top + 1) ∧
      (top + 1) / N = g.last
  | .freeNext =>
      Unpushed N g top p.incomplete wr ∧ wr.endSlot = slotAt N g.chunk top ∧ top + 1 = g.last * N
  | .clearNext =>
      Unpushed N g top p.incomplete wr ∧ wr.endSlot = slotAt N g.chunk top ∧ top / N = g.last
  | .load => Unpushed N g top p.incomplete wr ∧ wr.endSlot = slotAt N g.chunk top ∧ top / N = g.last

/-- What holds where the reader is. -/
def ReaderAt (N : Nat) (g : Layout) (rd : Reader) : Prop :=
  match rd.pc with
  | .moveBegin => rd.front = (g.chunk g.first, N) ∧ g.front = (g.first + 1) * N
  | .clearPrev _ => rd.front = (g.chunk g.first, N) ∧ g.front = g.first * N
  | _ => rd.front = slotAt N g.chunk g.front ∧ g.front / N = g.first

/-- How far the reader may go without a look at `c`. -/
def Prefetched (N : Nat) (g : Layout) (p : Pipe α) (rd : Reader) : Prop :=
  match rd.r with
  | none => rd.pc ≠ .load
  | some slot =>
      ∃ d ≤ p.flushed.length, slot = slotAt N g.chunk (g.front + d) ∧ (rd.pc = .load → 0 < d)

/-- `c` is behind the last flushed element, unless the reader is asleep. -/
def Published (N : Nat) (g : Layout) (p : Pipe α) (c : Option Slot) : Prop :=
  if p.asleep then c = none ∧
    p.flushed = [] else c = some (slotAt N g.chunk (g.front + p.flushed.length))

/-- What does not depend on where the writer is. -/
structure Core (N : Nat) (s : Sys α) (p : Pipe α) (g : Layout) : Prop where
  items : ∀ i v, p.items[i]? = some v → valueAt s.heap (slotAt N g.chunk (g.front + i)) = some v
  w : s.writer.w = slotAt N g.chunk (g.front + p.flushed.length)
  f : s.writer.f = slotAt N g.chunk (g.front + (p.flushed.length + p.complete.length))
  c : Published N g p s.c
  r : Prefetched N g p s.reader
  reader : ReaderAt N g s.reader

/-- **The invariant.** -/
structure Inv (N : Nat) (s : Sys α) (p : Pipe α) (g : Layout) : Prop where
  memory : Memory s.heap g s.own
  core : Core N s p g
  writer : WriterAt N g p (g.top p) s.heap s.c s.writer

section Facts

variable {N : Nat} {s : Sys α} {p : Pipe α} {g : Layout} {top : Nat}
  {heap heap' : Nat → Option (Chunk α)} {c : Option Slot} {wr : Writer α}

theorem Pipe.length_items (p : Pipe α) :
    p.items.length = p.flushed.length + (p.complete.length + p.incomplete.length) := by
  simp only [Pipe.items, List.length_append]

/-- The first element is not before the first chunk. -/
theorem ReaderAt.first_le (hN : 0 < N) {rd : Reader} (h : ReaderAt N g rd) :
    g.first ≤ g.front / N := by
  unfold ReaderAt at h
  split at h
  · rw [h.2, Nat.mul_div_cancel _ hN]
    omega
  · rw [h.2, Nat.mul_div_cancel _ hN]
  · rw [h.2]

theorem Filled.top_div {v : α} (h : Filled N g top heap v wr) : (top + 1) / N = g.last :=
  (last_of_chunk h.full).1

/-- The element behind the last one is not behind the last chunk. -/
theorem WriterAt.top_le (h : WriterAt N g p top heap c wr) : top / N ≤ g.last := by
  have hmono : top / N ≤ (top + 1) / N := Nat.div_le_div_right (Nat.le_succ top)
  have hfilled : ∀ {v : α}, Filled N g top heap v wr → top / N ≤ g.last := fun hf =>
    hmono.trans hf.top_div.le
  unfold WriterAt at h
  split at h
  · exact hmono.trans h.last.le
  · exact hmono.trans h.last.le
  · exact hmono.trans h.1.last.le
  · exact hmono.trans h.1.last.le
  · exact hmono.trans h.1.last.le
  · exact hfilled h
  · exact hfilled h
  · exact hfilled h
  · exact hfilled h.1
  · exact hfilled h.1
  · exact hmono.trans h.2.2.le
  · have hN : 0 < N := by
      rcases Nat.eq_zero_or_pos N with rfl | hN
      · exact absurd h.2.2 (by omega)
      · exact hN
    calc top / N ≤ (top + 1) / N := hmono
      _ = g.last := by rw [h.2.2, Nat.mul_div_cancel _ hN]
  · exact h.2.2.le
  · exact h.2.2.le

/-- A position between the first element and the end is in a chunk of the list. -/
theorem Inv.in_list (h : Inv N s p g) (hN : 0 < N) {i : Nat} (hfront : g.front ≤ i)
    (htop : i ≤ g.top p) : g.first ≤ i / N ∧ i / N ≤ g.last :=
  ⟨(h.core.reader.first_le hN).trans (Nat.div_le_div_right hfront),
    (Nat.div_le_div_right htop).trans h.writer.top_le⟩

/-- Pointers between the first element and the end are equal only if their positions are. -/
theorem Inv.slotAt_inj (h : Inv N s p g) (hN : 0 < N) {i j : Nat} (hi : i ≤ p.items.length)
    (hj : j ≤ p.items.length)
    (heq : slotAt N g.chunk (g.front + i) = slotAt N g.chunk (g.front + j)) : i = j := by
  obtain ⟨hi₁, hi₂⟩ := h.in_list hN (Nat.le_add_right g.front i) (Nat.add_le_add_left hi _)
  obtain ⟨hj₁, hj₂⟩ := h.in_list hN (Nat.le_add_right g.front j) (Nat.add_le_add_left hj _)
  exact Nat.add_left_cancel (h.memory.slotAt_inj hi₁ hi₂ hj₁ hj₂ heq)

/-- A list of chunks that is longer has the old elements where they were. -/
theorem slotAt_append {a i : Nat} (hi : i / N ≤ g.last) :
    slotAt N (g.append a).chunk i = slotAt N g.chunk i := by
  have hne : i / N ≠ g.last + 1 := by omega
  exact Prod.ext (Function.update_of_ne hne _ _) rfl

end Facts

end KvStore.Ypipe
