import KvStore.Lib.Simulation
import KvStore.Ypipe.Invariant

set_option autoImplicit false

/-! # The steps of the writer

Every step of `write`, `unwrite` and `flush` keeps the invariant. Where it shows a call, the pipe as
one object does the same call with the same result (`Keeps`). -/

namespace KvStore.Ypipe

open Function KvStore.Lib

variable {α : Type}

/-- What a step has to do: show what the pipe `p` does, and keep the invariant. -/
def Keeps (N : Nat) (p : Pipe α) (shown : Shown α) (s : Sys α) : Prop :=
  Shows Pipe.call p shown fun p' => ∃ g, Inv N s p' g

section Rules

variable {s : Sys α} {Q : Unit → Sys α → Prop} {R : Shown α → Sys α → Prop}

theorem ok_setWriter (f : Writer α → Writer α) :
    Ok (setWriter f) s Q ↔ Q () { s with writer := f s.writer } := ok_modify ..

theorem ok_writerGoto (pc : WriterPc α) :
    Ok (writerGoto pc) s R ↔ R none { s with writer := { s.writer with pc := pc } } :=
  ok_of_run rfl R

theorem ok_writerReturn (call : Call α) (result : Result α) :
    Ok (writerReturn call result) s R ↔
      R (some (call, result)) { s with writer := { s.writer with pc := .out } } := ok_of_run rfl R

end Rules

section Steps

variable {N : Nat} {s : Sys α} {p : Pipe α} {g : Layout} {v : α} {incomplete : Bool} {a : Nat}
  {pc : WriterPc α}

/-- The elements are read from the memory only. -/
theorem Core.congr_heap (h : Core N s p g) (heap' : Nat → Option (Chunk α))
    (hvalue : ∀ i < p.items.length, valueAt heap' (slotAt N g.chunk (g.front + i)) =
      valueAt s.heap (slotAt N g.chunk (g.front + i))) : Core N { s with heap := heap' } p g where
  items i v hv := by
    have hi : i < p.items.length := (List.getElem?_eq_some_iff.mp hv).1
    exact (hvalue i hi).trans (h.items i v hv)
  w := h.w
  f := h.f
  c := h.c
  r := h.r
  reader := h.reader

/-- The writer moves, and `w` and `f` stay. -/
theorem Core.congr_writer (h : Core N s p g) (wr : Writer α) (hw : wr.w = s.writer.w)
    (hf : wr.f = s.writer.f) : Core N { s with writer := wr } p g :=
  ⟨h.items, hw.trans h.w, hf.trans h.f, h.c, h.r, h.reader⟩

/-! ## `write` -/

/-- The end of `write`: the new element is in its place, and `back` and `end` behind it. -/
theorem Core.finishWrite (h : Core N s p g)
    (hmem : Memory s.heap g (nonNull s.spareChunk ++ (s.reader.pc.own ++ [])))
    (hvalue : valueAt s.heap (slotAt N g.chunk (g.top p)) = some v)
    (hback : s.writer.back = slotAt N g.chunk (g.top p + 1))
    (hend : s.writer.endSlot = slotAt N g.chunk (g.top p + 2))
    (hlast : (g.top p + 2) / N = g.last) : Ok (finishWrite v incomplete) s (Keeps N p) := by
  have htop : g.top (p.call (.write v incomplete)).2 = g.top p + 1 := by
    rw [Layout.top, Pipe.items_write, List.length_append]
    rfl
  have hitems : ∀ i u, (p.call (.write v incomplete)).2.items[i]? = some u →
      valueAt s.heap (slotAt N g.chunk (g.front + i)) = some u := by
    intro i u hu
    rw [Pipe.items_write, List.getElem?_append] at hu
    split_ifs at hu with hi
    · exact h.items i u hu
    · have hi' : i = p.items.length := by
        have := (List.getElem?_eq_some_iff.mp hu).1
        simp only [List.length_singleton] at this
        omega
      subst hi'
      rw [Nat.sub_self] at hu
      cases hu
      exact hvalue
  have hresting : ∀ {wr : Writer α}, wr.back = s.writer.back → wr.endSlot = s.writer.endSlot →
      Resting N g (g.top (p.call (.write v incomplete)).2) wr := by
    intro wr hb he
    rw [htop]
    exact ⟨hb.trans hback, he.trans hend, hlast⟩
  unfold Ypipe.finishWrite
  cases incomplete with
  | true =>
      simp only [Bool.not_true, Bool.false_eq_true, if_false, ok_writerReturn]
      exact ⟨rfl, g, hmem, ⟨hitems, h.w, h.f, h.c, h.r, h.reader⟩, hresting rfl rfl⟩
  | false =>
      simp only [Bool.not_false, if_true, ok_bind, ok_setWriter, ok_writerReturn]
      refine ⟨rfl, g, hmem, ⟨hitems, h.w, ?_, h.c, h.r, h.reader⟩, hresting rfl rfl⟩
      have hpos : g.top p + 1 =
          g.front + (p.flushed.length + (p.complete ++ p.incomplete ++ [v]).length) := by
        rw [Layout.top, p.length_items]
        simp only [List.length_append, List.length_singleton]
        omega
      rw [hpos] at hback
      exact hback

/-- The element is stored behind the last one. -/
theorem Inv.store (h : Inv N s p g) (hN : 0 < N) (hpc : s.writer.pc = .store v incomplete) :
    Ok (writerStep N (.store v incomplete)) s (Keeps N p) := by
  obtain ⟨hmem, hcore, hwriter⟩ := h
  have hinv : Inv N s p g := ⟨hmem, hcore, hwriter⟩
  rw [WriterAt, hpc] at hwriter
  obtain ⟨hback, hend, hlast⟩ := hwriter
  obtain ⟨hfirst, hle⟩ := hinv.in_list hN (Nat.le_add_right g.front _) le_rfl
  have hlive : (s.heap s.writer.back.1).isSome := by
    rw [hback]
    exact hmem.isSome_chunk hfirst hle
  have hindex : s.writer.back.2 < N := by
    rw [hback]
    exact Nat.mod_lt _ hN
  have hendPos : s.writer.endPos = (g.top p + 1) % N := congrArg Prod.snd hend
  have hendChunk : s.writer.endChunk = g.chunk ((g.top p + 1) / N) := congrArg Prod.fst hend
  -- the new element is at the top, the others are below it
  have hvalue : valueAt (modAt s.heap s.writer.back.1 (.setValue s.writer.back.2 v))
      (slotAt N g.chunk (g.top p)) = some v := by
    rw [← hback]
    exact valueAt_setValue_self hlive
  have hother : ∀ i < p.items.length,
      valueAt (modAt s.heap s.writer.back.1 (.setValue s.writer.back.2 v))
        (slotAt N g.chunk (g.front + i)) = valueAt s.heap (slotAt N g.chunk (g.front + i)) := by
    intro i hi
    apply valueAt_setValue_of_ne
    rw [hback]
    intro heq
    exact absurd (hinv.slotAt_inj hN hi.le le_rfl heq) hi.ne
  have hmem' := hmem.setValue (a := s.writer.back.1) s.writer.back.2 v
  have hown : s.own = nonNull s.spareChunk ++ (s.reader.pc.own ++ []) := by rw [Sys.own, hpc]; rfl
  rw [hown] at hmem'
  have hcore' := (hcore.congr_heap _ hother).congr_writer
    { s.writer with
      backChunk := s.writer.endChunk, backPos := s.writer.endPos
      endPos := s.writer.endPos + 1 } rfl rfl
  simp only [writerStep, ok_bind, ok_get, ok_writeValue hmem.null hlive hindex, ok_setWriter]
  split_ifs with hfull
  · have hmod : (g.top p + 1) % N + 1 < N := by
      have := Nat.mod_lt (g.top p + 1) hN
      omega
    obtain ⟨hdiv, hmod'⟩ := succ_in_chunk hmod
    refine hcore'.finishWrite hmem' hvalue hend ?_ (hdiv.trans hlast)
    show (s.writer.endChunk, s.writer.endPos + 1) = _
    rw [slotAt, hdiv, hmod', hendChunk, hendPos]
  · rw [ok_writerGoto]
    have hmod : (g.top p + 1) % N + 1 = N := by omega
    obtain ⟨hnew, -, -⟩ := succ_new_chunk hN hmod
    refine ⟨g, hmem', hcore'.congr_writer _ rfl rfl, hvalue, hend, ?_, ?_⟩
    · rw [← hlast]
      exact hendChunk
    · rw [← hlast]
      exact hnew

theorem count_nonNull (ha : a ≠ 0) (b : Nat) : (nonNull a).count b = [a].count b := by
  rw [nonNull, if_neg ha]

/-- The spare chunk is taken, or there is none. -/
theorem Inv.takeSpare (h : Inv N s p g) (hpc : s.writer.pc = .takeSpare v incomplete) :
    Ok (writerStep N (.takeSpare v incomplete)) s (Keeps N p) := by
  obtain ⟨hmem, hcore, hwriter⟩ := h
  rw [WriterAt, hpc] at hwriter
  rw [Sys.own, hpc] at hmem
  have hfilled : ∀ pc, Filled N g (g.top p) s.heap v { s.writer with pc := pc } := fun _ =>
    ⟨hwriter.value, hwriter.back, hwriter.endChunk, hwriter.full⟩
  have hcore' : ∀ pc, Core N { s with spareChunk := 0, writer := { s.writer with pc := pc } } p g :=
    fun _ =>
    ⟨hcore.items, hcore.w, hcore.f, hcore.c, hcore.r, hcore.reader⟩
  simp only [writerStep, ok_bind, ok_get, ok_modify]
  split_ifs with hsc
  · rw [ok_writerGoto]
    refine ⟨g, hmem.move fun a => ?_, hcore' _, hfilled _⟩
    show (nonNull 0 ++ (s.reader.pc.own ++ [s.spareChunk])).count a =
      (nonNull s.spareChunk ++ (s.reader.pc.own ++ [])).count a
    rw [List.count_append, List.count_append, List.count_append, List.count_append,
      count_nonNull hsc a]
    simp only [nonNull, if_true, List.count_nil]
    omega
  · rw [ok_writerGoto]
    have hnull : s.spareChunk = 0 := not_not.mp hsc
    rw [hnull] at hmem
    exact ⟨g, hmem, hcore' _, hfilled _⟩

/-- An address that is not in use is not that of a chunk in the list. -/
theorem Inv.slotAt_ne_of_free (h : Inv N s p g) (hN : 0 < N) {i : Nat} (ha : s.heap a = none)
    (hi : i ≤ p.items.length) : (slotAt N g.chunk (g.front + i)).1 ≠ a := by
  obtain ⟨hfirst, hlast⟩ := h.in_list hN (Nat.le_add_right g.front i) (Nat.add_le_add_left hi _)
  have hlive := h.memory.isSome_chunk hfirst hlast
  rintro rfl
  exact absurd ha (Option.isSome_iff_ne_none.mp hlive)

theorem valueAt_update {heap : Nat → Option (Chunk α)} {slot : Slot}
    {chunk : Option (Chunk α)} (h : slot.1 ≠ a) :
    valueAt (update heap a chunk) slot = valueAt heap slot := by
  rw [valueAt, update_of_ne h]
  rfl

/-- A new chunk is allocated. -/
theorem Inv.malloc (h : Inv N s p g) (hN : 0 < N) (ha : a ≠ 0) (hfree : s.heap a = none)
    (hpc : s.writer.pc = .malloc v incomplete) :
    Ok (mallocStep a (.malloc v incomplete)) s (Keeps N p) := by
  obtain ⟨hmem, hcore, hwriter⟩ := h
  have hinv : Inv N s p g := ⟨hmem, hcore, hwriter⟩
  rw [WriterAt, hpc] at hwriter
  rw [Sys.own, hpc] at hmem
  have hcore' := hcore.congr_heap (update s.heap a (some (.fresh α))) fun i hi =>
    valueAt_update (hinv.slotAt_ne_of_free hN hfree hi.le)
  simp only [mallocStep, ne_eq, ha, not_false_eq_true, if_true, writeChunk, ok_bind, ok_modify,
    ok_writerGoto]
  refine ⟨g, (hmem.malloc hfree ha _).move fun b => ?_, hcore'.congr_writer _ rfl rfl, ?_,
    hwriter.back, hwriter.endChunk, hwriter.full⟩
  · show (nonNull s.spareChunk ++ (s.reader.pc.own ++ [a])).count b =
      (a :: (nonNull s.spareChunk ++ (s.reader.pc.own ++ []))).count b
    simp only [List.count_append, List.count_cons, List.count_nil]
    omega
  · exact (valueAt_update (hinv.slotAt_ne_of_free hN hfree le_rfl)).trans hwriter.value

/-- The last chunk is linked to the new one. -/
theorem Inv.linkNext (h : Inv N s p g) {spare : Bool}
    (hpc : s.writer.pc = .linkNext v incomplete a spare) :
    Ok (writerStep N (.linkNext v incomplete a spare)) s (Keeps N p) := by
  obtain ⟨hmem, hcore, hwriter⟩ := h
  rw [WriterAt, hpc] at hwriter
  rw [Sys.own, hpc] at hmem
  obtain ⟨hvalue, hback, hend, hfull⟩ := hwriter
  have hlive : (s.heap s.writer.endChunk).isSome := by
    rw [hend]
    exact hmem.isSome_chunk hmem.ordered le_rfl
  have hmem' := hmem.setNext_last (b := a)
  have hcore' := hcore.congr_heap (modAt s.heap s.writer.endChunk (.setNext a)) fun _ _ =>
    valueAt_setNext _
  have hnext := nextOf_setNext_self (b := a) hlive
  rw [← hend] at hmem'
  simp only [writerStep, ok_bind, ok_get, ok_writeNext hmem.null hlive, ok_writerGoto]
  refine ⟨g, hmem', hcore'.congr_writer _ rfl rfl, ⟨?_, hback, hend, hfull⟩, ?_⟩
  · exact (valueAt_setNext _).trans hvalue
  · rw [← hend]
    exact hnext

/-- The new chunk is linked to the last one. -/
theorem Inv.linkPrev (h : Inv N s p g) {spare : Bool}
    (hpc : s.writer.pc = .linkPrev v incomplete a spare) :
    Ok (writerStep N (.linkPrev v incomplete a spare)) s (Keeps N p) := by
  obtain ⟨hmem, hcore, hwriter⟩ := h
  rw [WriterAt, hpc] at hwriter
  rw [Sys.own, hpc] at hmem
  obtain ⟨⟨hvalue, hback, hend, hfull⟩, hnext⟩ := hwriter
  rw [← hend] at hnext
  have hmemOwn : a ∈ nonNull s.spareChunk ++ (s.reader.pc.own ++ [a]) := by simp
  have hlive : (s.heap a).isSome := hmem.isSome_own hmemOwn
  have hcore' := hcore.congr_heap (modAt s.heap a (.setPrev s.writer.endChunk)) fun _ _ =>
    valueAt_setPrev _
  have hprev := prevOf_setPrev_self (b := s.writer.endChunk) hlive
  have hkeep : Keeps N p none
      { s with
        heap := modAt s.heap a (.setPrev s.writer.endChunk)
        writer := { s.writer with pc := .moveEnd v incomplete a } } := by
    refine ⟨g, hmem.setPrev_own hmemOwn, hcore'.congr_writer _ rfl rfl,
      ⟨?_, hback, hend, hfull⟩, ?_, ?_⟩
    · exact (valueAt_setPrev _).trans hvalue
    · rw [← hend]
      exact (nextOf_setPrev _).trans hnext
    · rw [← hend]
      exact hprev
  cases spare with
  | true =>
      simp only [writerStep, if_true, pure_bind, ok_bind, ok_get, ok_writePrev hmem.null hlive,
        ok_writerGoto]
      exact hkeep
  | false =>
      simp only [writerStep, Bool.false_eq_true, if_false, ok_bind, ok_get,
        ok_readField hmem.null hnext, ok_writePrev hmem.null hlive, ok_writerGoto]
      exact hkeep

/-- In a list of chunks that is longer, everything is where it was. -/
theorem Core.append (h : Core N s p g) (hmem : Memory s.heap g s.own) (a : Nat)
    (htop : g.top p / N ≤ g.last) : Core N s p (g.append a) := by
  have hslot : ∀ i ≤ p.items.length,
      slotAt N (g.append a).chunk (g.front + i) = slotAt N g.chunk (g.front + i) := fun i hi =>
    slotAt_append ((Nat.div_le_div_right (Nat.add_le_add_left hi _)).trans htop)
  have hlength := p.length_items
  have hfirst : (g.append a).chunk g.first = g.chunk g.first :=
    update_of_ne (by have := hmem.ordered; omega) _ _
  refine ⟨fun i v hv => ?_, ?_, ?_, ?_, ?_, ?_⟩
  · have hi := (List.getElem?_eq_some_iff.mp hv).1
    exact (congrArg _ (hslot i hi.le)).trans (h.items i v hv)
  · exact h.w.trans (hslot _ (by omega)).symm
  · exact h.f.trans (hslot _ (by omega)).symm
  · have hc := h.c
    unfold Published at hc ⊢
    split_ifs at hc ⊢
    · exact hc
    · exact hc.trans (congrArg some (hslot _ (by omega)).symm)
  · have hr := h.r
    unfold Prefetched at hr ⊢
    split at hr
    · exact hr
    · obtain ⟨d, hd, hd', hload⟩ := hr
      exact ⟨d, hd, hd'.trans (hslot d (by omega)).symm, hload⟩
  · have hr := h.reader
    unfold ReaderAt at hr ⊢
    split at hr
    · exact ⟨hr.1.trans (congrArg (·, N) hfirst.symm), hr.2⟩
    · exact ⟨hr.1.trans (congrArg (·, N) hfirst.symm), hr.2⟩
    · exact ⟨hr.1.trans (hslot 0 (Nat.zero_le _)).symm, hr.2⟩

/-- `end` is moved on to the new chunk, and `write` returns. -/
theorem Inv.moveEnd (h : Inv N s p g) (hN : 0 < N) (hpc : s.writer.pc = .moveEnd v incomplete a) :
    Ok (writerStep N (.moveEnd v incomplete a)) s (Keeps N p) := by
  have htop := h.writer.top_le
  obtain ⟨hmem, hcore, hwriter⟩ := h
  have hcore' := hcore.append hmem a htop
  rw [WriterAt, hpc] at hwriter
  rw [Sys.own, hpc] at hmem
  obtain ⟨hfilled, hnext, hprev⟩ := hwriter
  have hmem' : Memory s.heap (g.append a) (nonNull s.spareChunk ++ (s.reader.pc.own ++ [])) := by
    refine Memory.append (hmem.move fun b => ?_) hnext hprev
    show (a :: (nonNull s.spareChunk ++ (s.reader.pc.own ++ []))).count b =
      (nonNull s.spareChunk ++ (s.reader.pc.own ++ [a])).count b
    simp only [List.count_append, List.count_cons, List.count_nil]
    omega
  have hdiv : (g.top p + 2) / N = g.last + 1 := by rw [hfilled.full, Nat.mul_div_cancel _ hN]
  have hmod : (g.top p + 2) % N = 0 := by rw [hfilled.full, Nat.mul_mod_left]
  rw [← hfilled.endChunk] at hnext
  simp only [writerStep, ok_bind, ok_get, ok_readField hmem.null hnext, ok_setWriter]
  refine (hcore'.congr_writer
    { s.writer with endChunk := a, endPos := 0 } rfl rfl).finishWrite hmem'
    ?_ ?_ ?_ hdiv
  · exact (congrArg _ (slotAt_append htop)).trans hfilled.value
  · exact hfilled.back.trans (slotAt_append hfilled.top_div.le).symm
  · show (a, 0) = (update g.chunk (g.last + 1) a ((g.top p + 2) / N), (g.top p + 2) % N)
    rw [hdiv, hmod, update_self]

/-! ## `unwrite` -/

/-- The position before the top is that of an element that is not complete. -/
theorem Layout.lt_top {l : List α} (hl : p.incomplete = l) (hne : l ≠ []) : g.front < g.top p := by
  have := List.length_pos_of_ne_nil hne
  rw [Layout.top, p.length_items, hl]
  omega

/-- `back` is moved back, into the chunk before if it has to. -/
theorem Inv.moveBack (h : Inv N s p g) (hN : 0 < N) (hpc : s.writer.pc = .moveBack) :
    Ok (writerStep N .moveBack) s (Keeps N p) := by
  obtain ⟨hmem, hcore, hwriter⟩ := h
  have hinv : Inv N s p g := ⟨hmem, hcore, hwriter⟩
  rw [WriterAt, hpc] at hwriter
  obtain ⟨⟨hback, hend, hlast⟩, hitem⟩ := hwriter
  have hmem' := hmem
  rw [Sys.own, hpc] at hmem'
  have htop := Layout.lt_top (g := g) rfl hitem
  have hpos : s.writer.backPos = g.top p % N := congrArg Prod.snd hback
  have hchunk : s.writer.backChunk = g.chunk (g.top p / N) := congrArg Prod.fst hback
  obtain ⟨hfirst, hle⟩ := hinv.in_list hN (i := g.top p - 1) (by omega) (by omega)
  have hsucc : g.top p - 1 + 1 = g.top p := by omega
  have hmod := Nat.mod_lt (g.top p - 1) hN
  simp only [writerStep, ok_bind, ok_get]
  by_cases hsame : (g.top p - 1) % N + 1 < N
  · -- the element before is in the same chunk
    obtain ⟨hdiv, hmod'⟩ := succ_in_chunk hsame
    rw [hsucc] at hdiv hmod'
    have hne : s.writer.backPos ≠ 0 := by omega
    simp only [hne, ne_eq, not_false_eq_true, if_true, ok_bind, ok_setWriter, ok_writerGoto]
    refine ⟨g, hmem', hcore.congr_writer _ rfl rfl, ⟨hitem, ?_⟩, hend, hlast⟩
    show (s.writer.backChunk, s.writer.backPos - 1)
      = (g.chunk ((g.top p - 1) / N), (g.top p - 1) % N)
    rw [hchunk, hdiv, hpos, hmod', Nat.add_sub_cancel]
  · obtain ⟨-, hdiv, hmod'⟩ := succ_new_chunk hN (i := g.top p - 1) (by omega)
    rw [hsucc] at hdiv hmod'
    have hzero : s.writer.backPos = 0 := hpos.trans hmod'
    have hlt : (g.top p - 1) / N < g.last := by
      have := hinv.writer.top_le
      omega
    have hprev : prevOf s.heap s.writer.backChunk = some (g.chunk ((g.top p - 1) / N)) := by
      rw [hchunk, hdiv]
      exact hmem.prev _ hfirst hlt
    simp only [hzero, ne_eq, not_true_eq_false, if_false, ok_bind, ok_readField hmem.null hprev,
      ok_setWriter, ok_writerGoto]
    refine ⟨g, hmem', hcore.congr_writer _ rfl rfl, ⟨hitem, ?_⟩, hend, hlast⟩
    show (g.chunk ((g.top p - 1) / N), N - 1) = (g.chunk ((g.top p - 1) / N), (g.top p - 1) % N)
    congr 1
    omega

/-- `end` is moved back, into the chunk before if it has to. -/
theorem Inv.unmoveEnd (h : Inv N s p g) (hN : 0 < N) (hpc : s.writer.pc = .unmoveEnd) :
    Ok (writerStep N .unmoveEnd) s (Keeps N p) := by
  obtain ⟨hmem, hcore, hwriter⟩ := h
  have hinv : Inv N s p g := ⟨hmem, hcore, hwriter⟩
  rw [WriterAt, hpc] at hwriter
  obtain ⟨⟨hitem, hback⟩, hend, hlast⟩ := hwriter
  have hmem' := hmem
  rw [Sys.own, hpc] at hmem'
  have hpos : s.writer.endPos = (g.top p + 1) % N := congrArg Prod.snd hend
  have hchunk : s.writer.endChunk = g.chunk ((g.top p + 1) / N) := congrArg Prod.fst hend
  obtain ⟨hfirst, hle⟩ := hinv.in_list hN (i := g.top p) (Nat.le_add_right _ _) le_rfl
  have hmod := Nat.mod_lt (g.top p) hN
  simp only [writerStep, ok_bind, ok_get]
  by_cases hsame : g.top p % N + 1 < N
  · obtain ⟨hdiv, hmod'⟩ := succ_in_chunk hsame
    have hne : s.writer.endPos ≠ 0 := by omega
    simp only [hne, ne_eq, not_false_eq_true, if_true, ok_bind, ok_setWriter, ok_writerGoto]
    refine ⟨g, hmem', hcore.congr_writer _ rfl rfl, ⟨hitem, hback⟩, ?_, hdiv.symm.trans hlast⟩
    show (s.writer.endChunk, s.writer.endPos - 1) = (g.chunk (g.top p / N), g.top p % N)
    rw [hchunk, hdiv, hpos, hmod', Nat.add_sub_cancel]
  · obtain ⟨hnew, hdiv, hmod'⟩ := succ_new_chunk hN (i := g.top p) (by omega)
    have hzero : s.writer.endPos = 0 := hpos.trans hmod'
    have hprev : prevOf s.heap s.writer.endChunk = some (g.chunk (g.top p / N)) := by
      rw [hchunk, hdiv]
      exact hmem.prev _ hfirst (by omega)
    simp only [hzero, ne_eq, not_true_eq_false, if_false, ok_bind, ok_readField hmem.null hprev,
      ok_setWriter, ok_writerGoto]
    refine ⟨g, hmem', hcore.congr_writer _ rfl rfl, ⟨hitem, hback⟩, ?_, ?_⟩
    · show (g.chunk (g.top p / N), N - 1) = (g.chunk (g.top p / N), g.top p % N)
      congr 1
      omega
    · rw [hnew, ← hlast, hdiv]

/-- The chunk that is not needed any more is freed. -/
theorem Inv.freeNext (h : Inv N s p g) (hN : 0 < N) (hpc : s.writer.pc = .freeNext) :
    Ok (writerStep N .freeNext) s (Keeps N p) := by
  obtain ⟨hmem, hcore, hwriter⟩ := h
  have hinv : Inv N s p g := ⟨hmem, hcore, hwriter⟩
  rw [WriterAt, hpc] at hwriter
  obtain ⟨⟨hitem, hback⟩, hend, htop⟩ := hwriter
  rw [Sys.own, hpc] at hmem
  have hpos : 0 < g.last := by
    rcases Nat.eq_zero_or_pos g.last with h0 | hpos
    · rw [h0, Nat.zero_mul] at htop
      omega
    · exact hpos
  have hsucc : g.last - 1 + 1 = g.last := by omega
  have hdiv : g.top p / N = g.last - 1 := (last_of_chunk (by rw [hsucc]; exact htop)).1
  obtain ⟨hfirst, -⟩ := hinv.in_list hN (i := g.top p) (Nat.le_add_right _ _) le_rfl
  have hlt : g.first < g.last := by omega
  have hchunk : s.writer.endChunk = g.chunk (g.last - 1) := by
    rw [← hdiv]
    exact congrArg Prod.fst hend
  have hnext : nextOf s.heap s.writer.endChunk = some (g.chunk g.last) := by
    have := hmem.next (g.last - 1) (by omega) (by omega)
    rwa [hsucc, ← hchunk] at this
  have hlive : (s.heap (g.chunk g.last)).isSome := hmem.isSome_chunk hlt.le le_rfl
  -- the elements are in the chunks before
  have hother : ∀ i < p.items.length,
      valueAt (update s.heap (g.chunk g.last) none) (slotAt N g.chunk (g.front + i)) =
        valueAt s.heap (slotAt N g.chunk (g.front + i)) := by
    intro i hi
    apply valueAt_update
    intro heq
    obtain ⟨hfirst', hle'⟩ :=
      hinv.in_list hN (Nat.le_add_right g.front i) (Nat.add_le_add_left hi.le _)
    have hchunkEq : (g.front + i) / N = g.last := hmem.chunk_inj hfirst' hle' hlt.le le_rfl heq
    have hmono : (g.front + i) / N ≤ g.top p / N :=
      Nat.div_le_div_right (Nat.add_le_add_left hi.le _)
    omega
  have hcore' := (hcore.congr_heap _ hother).congr_writer
    { s.writer with pc := .clearNext } rfl rfl
  simp only [writerStep, ok_bind, ok_get, ok_readField hmem.null hnext,
    ok_freeChunk hmem.null hlive, ok_writerGoto]
  exact ⟨g.dropLast, (hmem.dropLast hlt).free,
    ⟨hcore'.items, hcore'.w, hcore'.f, hcore'.c, hcore'.r, hcore'.reader⟩,
    ⟨hitem, hback⟩, hend, hdiv⟩

theorem Inv.clearNext (h : Inv N s p g) (hpc : s.writer.pc = .clearNext) :
    Ok (writerStep N .clearNext) s (Keeps N p) := by
  obtain ⟨hmem, hcore, hwriter⟩ := h
  rw [WriterAt, hpc] at hwriter
  obtain ⟨⟨hitem, hback⟩, hend, hlast⟩ := hwriter
  rw [Sys.own, hpc] at hmem
  have hchunk : s.writer.endChunk = g.chunk g.last := by
    rw [← hlast]
    exact congrArg Prod.fst hend
  have hlive : (s.heap s.writer.endChunk).isSome := by
    rw [hchunk]
    exact hmem.isSome_chunk hmem.ordered le_rfl
  have hmem' := hmem.setNext_last (b := 0)
  have hcore' := hcore.congr_heap (modAt s.heap s.writer.endChunk (.setNext 0)) fun _ _ =>
    valueAt_setNext _
  rw [← hchunk] at hmem'
  simp only [writerStep, ok_bind, ok_get, ok_writeNext hmem.null hlive, ok_writerGoto]
  exact ⟨g, hmem', hcore'.congr_writer _ rfl rfl, ⟨hitem, hback⟩, hend, hlast⟩

theorem Pipe.items_unwrite (p : Pipe α) (hitem : p.incomplete ≠ []) :
    (p.call .unwrite).2.items = p.items.dropLast := by
  show p.flushed ++ (p.complete ++ p.incomplete.dropLast) = _
  rw [Pipe.items, List.dropLast_append_of_ne_nil (List.append_ne_nil_of_right_ne_nil _ hitem),
    List.dropLast_append_of_ne_nil hitem]

/-- The element that is taken back is copied, and `unwrite` returns. -/
theorem Inv.loadBack (h : Inv N s p g) (hN : 0 < N) (hpc : s.writer.pc = .load) :
    Ok (writerStep N .load) s (Keeps N p) := by
  obtain ⟨hmem, hcore, hwriter⟩ := h
  rw [WriterAt, hpc] at hwriter
  obtain ⟨⟨hitem, hback⟩, hend, hlast⟩ := hwriter
  rw [Sys.own, hpc] at hmem
  have htop := Layout.lt_top (g := g) rfl hitem
  obtain ⟨v, hv⟩ : ∃ v, p.incomplete.getLast? = some v := ⟨_, List.getLast?_eq_some_getLast hitem⟩
  have hlast' : p.items[p.items.length - 1]? = some v := by
    rw [← List.getLast?_eq_getElem?, Pipe.items, List.getLast?_append, List.getLast?_append, hv]
    rfl
  have hposition : g.front + (p.items.length - 1) = g.top p - 1 := by
    rw [Layout.top] at htop ⊢
    omega
  have hvalue : valueAt s.heap s.writer.back = some v := by
    rw [hback, ← hposition]
    exact hcore.items _ v hlast'
  have hindex : s.writer.back.2 < N := by
    rw [hback]
    exact Nat.mod_lt _ hN
  have htop' : g.top (p.call .unwrite).2 = g.top p - 1 := by
    rw [Layout.top, Pipe.items_unwrite p hitem, List.length_dropLast]
    exact hposition
  have hsucc : g.top p - 1 + 1 = g.top p := by omega
  simp only [writerStep, ok_bind, ok_get, ok_readValue hmem.null hvalue hindex, ok_writerReturn]
  refine ⟨congrArg Result.value hv, g, hmem,
    ⟨fun i u hu => ?_, hcore.w, hcore.f, hcore.c, hcore.r, hcore.reader⟩, ?_⟩
  · rw [Pipe.items_unwrite p hitem] at hu
    rw [List.getElem?_dropLast] at hu
    split_ifs at hu
    exact hcore.items i u hu
  · show Resting N g _ _
    rw [htop']
    exact ⟨hback, by rw [hsucc]; exact hend, by rw [hsucc]; exact hlast⟩

/-! ## `flush` -/

/-- The pipe behind a `flush` that has something to do. -/
theorem Pipe.call_flush (p : Pipe α) (h : p.complete ≠ []) :
    p.call .flush = (.bool !p.asleep, ⟨p.flushed ++ p.complete, [], p.incomplete, false⟩) := by
  rw [Pipe.call, if_neg]
  rwa [List.isEmpty_iff]

/-- The reader may still go as far when more has been flushed. -/
theorem Prefetched.mono {p' : Pipe α} {rd : Reader} (h : Prefetched N g p rd)
    (hlength : p.flushed.length ≤ p'.flushed.length) : Prefetched N g p' rd := by
  unfold Prefetched at h ⊢
  split at h
  · exact h
  · obtain ⟨d, hd, hrest⟩ := h
    exact ⟨d, hd.trans hlength, hrest⟩

/-- The complete elements are given to the reader. -/
theorem Inv.published (h : Inv N s p g) (hcomplete : p.complete ≠ [])
    (hpc : s.writer.pc = .cas ∨ s.writer.pc = .set) :
    ∃ g',
      Inv N { s with c := some s.writer.f, writer := { s.writer with w := s.writer.f, pc := .out } }
      (p.call .flush).2 g' := by
  obtain ⟨hmem, hcore, hwriter⟩ := h
  have hresting : Resting N g (g.top p) s.writer := by
    rcases hpc with hpc | hpc
    · rw [WriterAt, hpc] at hwriter
      exact hwriter.1
    · rw [WriterAt, hpc] at hwriter
      exact hwriter.1
  have hown : s.own = nonNull s.spareChunk ++ (s.reader.pc.own ++ []) := by
    rcases hpc with hpc | hpc
    · rw [Sys.own, hpc]
      rfl
    · rw [Sys.own, hpc]
      rfl
  rw [hown] at hmem
  rw [Pipe.call_flush p hcomplete]
  have hlength : (p.flushed ++ p.complete).length = p.flushed.length + p.complete.length :=
    List.length_append
  have hitems : (⟨p.flushed ++ p.complete, [], p.incomplete, false⟩ : Pipe α).items = p.items := by
    simp only [Pipe.items, List.nil_append, List.append_assoc]
  have hpub : s.writer.f = slotAt N g.chunk (g.front + (p.flushed ++ p.complete).length) := by
    rw [hlength]
    exact hcore.f
  refine ⟨g, hmem, ⟨fun i v hv => ?_, hpub, hpub, congrArg some hpub, ?_, hcore.reader⟩, ?_⟩
  · rw [hitems] at hv
    exact hcore.items i v hv
  · exact hcore.r.mono (by rw [hlength]; omega)
  · show Resting N g _ _
    rw [Layout.top, hitems]
    exact ⟨hresting.back, hresting.endSlot, hresting.last⟩

/-- `c` still stands where this thread has left it, or the reader is asleep. -/
theorem Core.asleep_iff (h : Core N s p g) : p.asleep = true ↔ s.c ≠ some s.writer.w := by
  have hc := h.c
  unfold Published at hc
  split_ifs at hc with hasleep
  · rw [hc.1]
    exact iff_of_true hasleep (by simp)
  · rw [hc, h.w]
    exact iff_of_false hasleep (by simp)

theorem Core.c_eq_none_iff (h : Core N s p g) : p.asleep = true ↔ s.c = none := by
  have hc := h.c
  unfold Published at hc
  split_ifs at hc with hasleep
  · exact iff_of_true hasleep hc.1
  · rw [hc]
    exact iff_of_false hasleep (by simp)

theorem Inv.cas (h : Inv N s p g) (hpc : s.writer.pc = .cas) :
    Ok (writerStep N .cas) s (Keeps N p) := by
  have hwriter := h.writer
  rw [WriterAt, hpc] at hwriter
  obtain ⟨hresting, hcomplete⟩ := hwriter
  simp only [writerStep, ok_bind, ok_get]
  split_ifs with hc
  · simp only [ok_bind, ok_modify, ok_setWriter, ok_writerReturn]
    have hasleep : p.asleep = false := by
      rw [← Bool.not_eq_true, h.core.asleep_iff]
      exact not_not.mpr hc
    refine ⟨?_, h.published hcomplete (Or.inl hpc)⟩
    rw [Pipe.call_flush p hcomplete, hasleep]
    rfl
  · rw [ok_writerGoto]
    have hmem := h.memory
    rw [Sys.own, hpc] at hmem
    exact ⟨g, hmem, h.core.congr_writer _ rfl rfl,
      ⟨hresting.back, hresting.endSlot, hresting.last⟩, hcomplete,
      h.core.c_eq_none_iff.mp (h.core.asleep_iff.mpr hc)⟩

theorem Inv.set (h : Inv N s p g) (hpc : s.writer.pc = .set) :
    Ok (writerStep N .set) s (Keeps N p) := by
  have hwriter := h.writer
  rw [WriterAt, hpc] at hwriter
  obtain ⟨-, hcomplete, hc⟩ := hwriter
  simp only [writerStep, ok_bind, ok_modify, ok_setWriter, ok_writerReturn]
  refine ⟨?_, h.published hcomplete (Or.inr hpc)⟩
  rw [Pipe.call_flush p hcomplete, h.core.c_eq_none_iff.mpr hc]
  rfl

/-! ## The calls -/

/-- **A step of the writer** in one of its calls. -/
theorem Inv.writerStep (h : Inv N s p g) (hN : 0 < N) (hout : s.writer.pc.isOut = false)
    (hmalloc : s.writer.pc.isMalloc = false) : Ok (writerStep N s.writer.pc) s (Keeps N p) := by
  cases hpc : s.writer.pc with
  | out => rw [hpc] at hout; cases hout
  | store v incomplete => exact h.store hN hpc
  | takeSpare v incomplete => exact h.takeSpare hpc
  | malloc v incomplete => rw [hpc] at hmalloc; cases hmalloc
  | linkNext v incomplete a spare => exact h.linkNext hpc
  | linkPrev v incomplete a spare => exact h.linkPrev hpc
  | moveEnd v incomplete a => exact h.moveEnd hN hpc
  | moveBack => exact h.moveBack hN hpc
  | unmoveEnd => exact h.unmoveEnd hN hpc
  | freeNext => exact h.freeNext hN hpc
  | clearNext => exact h.clearNext hpc
  | load => exact h.loadBack hN hpc
  | cas => exact h.cas hpc
  | set => exact h.set hpc

/-- Outside, and before `malloc`, the writer has no step of its own. -/
theorem writerStep_blocked (h : pc.isOut = true ∨ pc.isMalloc = true) :
    (writerStep N pc).run s = .error .blocked := by
  cases pc <;> first | rfl | rcases h with h | h <;> cases h

theorem mallocStep_blocked (h : pc.isMalloc = false) :
    (mallocStep a pc).run s = .error .blocked := by
  cases pc <;> first | rfl | cases h

theorem WriterPc.eq_out (h : pc.isOut = true) : pc = .out := by
  cases pc <;> first | rfl | cases h

/-- The writer, outside, goes on at `pc`. -/
theorem Inv.enter (h : Inv N s p g) (hpc : s.writer.pc = .out)
    (hown : pc.own = []) (hat : ∀ wr : Writer α, Resting N g (g.top p) wr → wr.pc = pc →
      WriterAt N g p (g.top p) s.heap s.c wr) :
    ∃ g', Inv N { s with writer := { s.writer with pc := pc } } p g' := by
  obtain ⟨hmem, hcore, hwriter⟩ := h
  rw [WriterAt, hpc] at hwriter
  rw [Sys.own, hpc] at hmem
  refine ⟨g, ?_, hcore.congr_writer _ rfl rfl,
    hat _ ⟨hwriter.back, hwriter.endSlot, hwriter.last⟩ rfl⟩
  rw [Sys.own]
  show Memory s.heap g (nonNull s.spareChunk ++ (s.reader.pc.own ++ pc.own))
  rw [hown]
  exact hmem

/-- `write` is called. -/
theorem Inv.callWrite (h : Inv N s p g) (v : α) (incomplete : Bool) :
    Takes (step N (.write v incomplete)) s (Keeps N p) := by
  refine takes_await fun hout => ?_
  rw [ok_writerGoto]
  refine h.enter (WriterPc.eq_out hout) rfl fun wr hwr hpc => ?_
  rw [WriterAt, hpc]
  exact hwr

/-- `unwrite` is called: it returns at once when every element is complete. -/
theorem Inv.callUnwrite (h : Inv N s p g) (hN : 0 < N) :
    Takes (step N (.unwrite : Step α)) s (Keeps N p) := by
  refine takes_await fun hout => ?_
  have hpc := WriterPc.eq_out hout
  have hwriter := h.writer
  rw [WriterAt, hpc] at hwriter
  simp only [ok_bind, ok_get]
  have hlength := p.length_items
  split_ifs with hf
  · -- `f` and `back` have one position
    have heq : p.flushed.length + p.complete.length = p.items.length := by
      refine h.slotAt_inj hN (by omega) le_rfl ?_
      rw [← h.core.f, hf, hwriter.back]
      rfl
    have hnil : p.incomplete = [] := List.length_eq_zero_iff.mp (by omega)
    rw [ok_writerReturn]
    have hp : (p.call .unwrite).2 = p := by
      cases p
      simp only at hnil
      subst hnil
      rfl
    refine ⟨by rw [Pipe.call, hnil]; rfl, ?_⟩
    rw [hp]
    refine h.enter hpc rfl fun wr hwr hpc => ?_
    rw [WriterAt, hpc]
    exact hwr
  · rw [ok_writerGoto]
    have hitem : p.incomplete ≠ [] := by
      intro hnil
      apply hf
      rw [h.core.f, hwriter.back, Layout.top, hlength, hnil]
      rfl
    refine h.enter hpc rfl fun wr hwr hpc => ?_
    rw [WriterAt, hpc]
    exact ⟨hwr, hitem⟩

/-- `flush` is called: it returns at once when nothing is complete. -/
theorem Inv.callFlush (h : Inv N s p g) (hN : 0 < N) :
    Takes (step N (.flush : Step α)) s (Keeps N p) := by
  refine takes_await fun hout => ?_
  have hpc := WriterPc.eq_out hout
  simp only [ok_bind, ok_get]
  have hlength := p.length_items
  split_ifs with hw
  · have heq : p.flushed.length = p.flushed.length + p.complete.length := by
      refine h.slotAt_inj hN (by omega) (by omega) ?_
      rw [← h.core.w, hw, h.core.f]
    have hnil : p.complete = [] := List.length_eq_zero_iff.mp (by omega)
    have hp : p.call .flush = (.bool true, p) := by rw [Pipe.call, hnil]; rfl
    rw [ok_writerReturn]
    refine ⟨by rw [hp], ?_⟩
    rw [hp]
    refine h.enter hpc rfl fun wr hwr hpc => ?_
    rw [WriterAt, hpc]
    exact hwr
  · rw [ok_writerGoto]
    have hcomplete : p.complete ≠ [] := by
      intro hnil
      apply hw
      rw [h.core.w, h.core.f, hnil]
      rfl
    refine h.enter hpc rfl fun wr hwr hpc => ?_
    rw [WriterAt, hpc]
    exact ⟨hwr, hcomplete⟩

/-- `malloc` returns an address. -/
theorem Inv.mallocStep (h : Inv N s p g) (hN : 0 < N) (ha : a ≠ 0)
    (hfree : s.heap a = none) (hmalloc : s.writer.pc.isMalloc = true) :
    Ok (mallocStep a s.writer.pc) s (Keeps N p) := by
  cases hpc : s.writer.pc with
  | malloc v incomplete => exact h.malloc hN ha hfree hpc
  | _ => rw [hpc] at hmalloc; cases hmalloc

end Steps

end KvStore.Ypipe
