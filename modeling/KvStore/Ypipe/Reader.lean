import KvStore.Ypipe.Writer

set_option autoImplicit false

/-! # The steps of the reader

Every step of `check_read` and `read` keeps the invariant. The writer does not notice them: the
reader changes no element, no link behind a chunk, and no link before a chunk that only the writer
knows (`WriterAt.congr`). -/

namespace KvStore.Ypipe

open Function KvStore.Lib

variable {α : Type}

section Rules

variable {s : Sys α} {Q : Unit → Sys α → Prop} {R : Shown α → Sys α → Prop}

theorem ok_setReader (f : Reader → Reader) :
    Ok (setReader f) s Q ↔ Q () { s with reader := f s.reader } := ok_modify ..

theorem ok_readerGoto (pc : ReaderPc) :
    Ok (readerGoto pc) s R ↔ R none { s with reader := { s.reader with pc := pc } } :=
  ok_of_run rfl R

end Rules

section Steps

variable {N : Nat} {s : Sys α} {p : Pipe α} {g : Layout}

/-- What the writer does not notice. -/
theorem WriterAt.congr {g' : Layout} {p' : Pipe α} {top : Nat} {heap heap' : Nat → Option (Chunk α)}
    {c c' : Option Slot} {wr : Writer α} (h : WriterAt N g p top heap c wr)
    (hchunk : g'.chunk = g.chunk) (hlast : g'.last = g.last) (hcomplete : p'.complete = p.complete)
    (hincomplete : p'.incomplete = p.incomplete) (hc : c = none → c' = none)
    (hvalue : valueAt heap' (slotAt N g.chunk top) = valueAt heap (slotAt N g.chunk top))
    (hnext : nextOf heap' (g.chunk g.last) = nextOf heap (g.chunk g.last))
    (hprev : ∀ a ∈ wr.pc.own, prevOf heap' a = prevOf heap a) :
    WriterAt N g' p' top heap' c' wr := by
  have hresting : Resting N g top wr → Resting N g' top wr := by
    rintro ⟨h₁, h₂, h₃⟩
    rw [← hchunk] at h₁ h₂
    rw [← hlast] at h₃
    exact ⟨h₁, h₂, h₃⟩
  have hfilled : ∀ {v : α}, Filled N g top heap v wr → Filled N g' top heap' v wr := by
    rintro v ⟨h₁, h₂, h₃, h₄⟩
    rw [← hvalue] at h₁
    rw [← hchunk] at h₁ h₂ h₃
    rw [← hlast] at h₃ h₄
    exact ⟨h₁, h₂, h₃, h₄⟩
  have hunpushed : Unpushed N g top p.incomplete wr → Unpushed N g' top p'.incomplete wr := by
    rintro ⟨h₁, h₂⟩
    rw [← hincomplete] at h₁
    rw [← hchunk] at h₂
    exact ⟨h₁, h₂⟩
  have hown := hprev
  unfold WriterAt at h ⊢
  rw [hchunk, hlast, hcomplete, hincomplete]
  rw [hincomplete] at hunpushed
  cases hpc : wr.pc with
  | out => rw [hpc] at h; exact hresting h
  | store v incomplete => rw [hpc] at h; exact hresting h
  | cas => rw [hpc] at h; exact ⟨hresting h.1, h.2⟩
  | set => rw [hpc] at h; exact ⟨hresting h.1, h.2.1, hc h.2.2⟩
  | moveBack => rw [hpc] at h; exact ⟨hresting h.1, h.2⟩
  | takeSpare v incomplete => rw [hpc] at h; exact hfilled h
  | malloc v incomplete => rw [hpc] at h; exact hfilled h
  | linkNext v incomplete a spare => rw [hpc] at h; exact hfilled h
  | linkPrev v incomplete a spare => rw [hpc] at h; exact ⟨hfilled h.1, hnext.trans h.2⟩
  | moveEnd v incomplete a =>
      rw [hpc] at h hown
      exact ⟨hfilled h.1, hnext.trans h.2.1, (hown a (List.mem_singleton_self a)).trans h.2.2⟩
  | unmoveEnd => rw [hpc] at h; exact ⟨hunpushed h.1, h.2⟩
  | freeNext => rw [hpc] at h; exact ⟨hunpushed h.1, h.2⟩
  | clearNext => rw [hpc] at h; exact ⟨hunpushed h.1, h.2⟩
  | load => rw [hpc] at h; exact ⟨hunpushed h.1, h.2⟩

/-- The writer does not notice what is done without the memory. -/
theorem WriterAt.congr_pipe {g' : Layout} {p' : Pipe α} {top : Nat} {heap : Nat → Option (Chunk α)}
    {c c' : Option Slot} {wr : Writer α} (h : WriterAt N g p top heap c wr)
    (hchunk : g'.chunk = g.chunk) (hlast : g'.last = g.last) (hcomplete : p'.complete = p.complete)
    (hincomplete : p'.incomplete = p.incomplete) (hc : c = none → c' = none) :
    WriterAt N g' p' top heap c' wr :=
  h.congr hchunk hlast hcomplete hincomplete hc rfl rfl fun _ _ => rfl

/-! ## `check_read` -/

/-- The reader is asleep from now on, if there is nothing for it. -/
def Pipe.checked (p : Pipe α) : Pipe α :=
  ⟨p.flushed, p.complete, p.incomplete, p.asleep || p.flushed.isEmpty⟩

theorem Pipe.checked_of_ne_nil (h : p.flushed ≠ []) : p.checked = p := by
  have hempty : p.flushed.isEmpty = false := by rwa [← Bool.not_eq_true, List.isEmpty_iff]
  unfold Pipe.checked
  rw [hempty, Bool.or_false]

theorem Pipe.call_read_nil (h : p.flushed = []) : p.call .read = (.value none, p.checked) := by
  unfold Pipe.call Pipe.checked
  rw [h]
  rfl

def ReaderPc.isLoad : ReaderPc → Bool
  | .load => true
  | _ => false

/-- The reader goes on, outside `load`. -/
theorem Prefetched.goto {rd rd' : Reader} (h : Prefetched N g p rd) (hr : rd'.r = rd.r)
    (hisLoad : rd'.pc.isLoad = false) : Prefetched N g p rd' := by
  have hpc : rd'.pc ≠ .load := by
    intro hload
    rw [hload] at hisLoad
    cases hisLoad
  unfold Prefetched at h ⊢
  rw [hr]
  cases hslot : rd.r with
  | none => exact hpc
  | some slot =>
      rw [hslot] at h
      obtain ⟨d, hd, hd', -⟩ := h
      exact ⟨d, hd, hd', fun hload => absurd hload hpc⟩

/-- `check_read` has found something. -/
theorem Inv.finishCheck_true (h : Inv N s p g) (hp : p.flushed ≠ []) (hown : s.reader.pc.own = [])
    (hat : s.reader.front = slotAt N g.chunk g.front ∧ g.front / N = g.first) {d : Nat} (hd : 0 < d)
    (hd' : d ≤ p.flushed.length) (hr : s.reader.r = some (slotAt N g.chunk (g.front + d)))
    (purpose : Purpose) : Ok (finishCheck purpose true) s (Keeps N p) := by
  obtain ⟨hmem, hcore, hwriter⟩ := h
  rw [Sys.own, hown] at hmem
  have hprefetched : ∀ pc, Prefetched N g p { s.reader with pc := pc } := by
    intro pc
    unfold Prefetched
    simp only [hr]
    exact ⟨d, hd', rfl, fun _ => hd⟩
  cases purpose with
  | check =>
      simp only [finishCheck, ok_bind, ok_setReader, ok_pure]
      have hp' : (p.call .checkRead).2 = p := Pipe.checked_of_ne_nil hp
      refine ⟨?_, ?_⟩
      · have hempty : p.flushed.isEmpty = false := by rwa [← Bool.not_eq_true, List.isEmpty_iff]
        rw [Pipe.call, hempty]
        rfl
      · rw [hp']
        exact ⟨g, hmem, ⟨hcore.items, hcore.w, hcore.f, hcore.c, hprefetched _, hat⟩, hwriter⟩
  | read =>
      simp only [finishCheck, if_true, ok_readerGoto]
      exact ⟨g, hmem, ⟨hcore.items, hcore.w, hcore.f, hcore.c, hprefetched _, hat⟩, hwriter⟩

/-- `check_read` has found nothing. -/
theorem Inv.finishCheck_false (h : Inv N s p.checked g) (hp : p.flushed = [])
    (hown : s.reader.pc.own = [])
    (hat : s.reader.front = slotAt N g.chunk g.front ∧ g.front / N = g.first) (purpose : Purpose) :
    Ok (finishCheck purpose false) s (Keeps N p) := by
  obtain ⟨hmem, hcore, hwriter⟩ := h
  rw [Sys.own, hown] at hmem
  have hprefetched : Prefetched N g p.checked { s.reader with pc := .out } := hcore.r.goto rfl rfl
  have hinv : ∃ g', Inv N { s with reader := { s.reader with pc := .out } } p.checked g' :=
    ⟨g, hmem, ⟨hcore.items, hcore.w, hcore.f, hcore.c, hprefetched, hat⟩, hwriter⟩
  cases purpose with
  | check =>
      simp only [finishCheck, ok_bind, ok_setReader, ok_pure]
      refine ⟨?_, hinv⟩
      rw [Pipe.call, hp]
      rfl
  | read =>
      simp only [finishCheck, Bool.false_eq_true, if_false, ok_bind, ok_setReader, ok_pure]
      refine ⟨?_, ?_⟩
      · rw [Pipe.call_read_nil hp]
      · rw [Pipe.call_read_nil hp]
        exact hinv

/-- `c` is read, and set to `NULL` when there is nothing behind the first element. -/
theorem Inv.prefetch (h : Inv N s p g) (hN : 0 < N) {purpose : Purpose}
    (hpc : s.reader.pc = .prefetch purpose) :
    Ok (readerStep N (.prefetch purpose)) s (Keeps N p) := by
  obtain ⟨hmem, hcore, hwriter⟩ := h
  have hinv : Inv N s p g := ⟨hmem, hcore, hwriter⟩
  have hat := hcore.reader
  rw [ReaderAt, hpc] at hat
  have hown : s.reader.pc.own = [] := by rw [hpc]; rfl
  have hlength := p.length_items
  have hpub := hcore.c
  unfold Published at hpub
  by_cases hasleep : p.asleep = true
  · -- the reader has been asleep before
    rw [if_pos hasleep] at hpub
    obtain ⟨hc, hp⟩ := hpub
    have hne : ¬s.c = some s.reader.front := by
      rw [hc]
      exact fun heq => by cases heq
    have hchecked : p.checked = p := by
      unfold Pipe.checked
      rw [hasleep, Bool.true_or, ← hasleep]
    have hfound : (decide ¬(some s.reader.front = s.c ∨ s.c = none)) = false := by
      rw [decide_eq_false_iff_not, not_not]
      exact Or.inr hc
    simp only [readerStep, ok_bind, ok_get, hne, if_false, ok_setReader, hfound]
    have hread :=
      Inv.finishCheck_false (s := { s with reader := { s.reader with r := s.c } }) (g := g)
      (p := p) ?_ hp hown hat purpose
    · exact hread
    rw [hchecked]
    refine ⟨hmem, ⟨hcore.items, hcore.w, hcore.f, hcore.c, ?_, hcore.reader⟩, hwriter⟩
    show Prefetched N g p { s.reader with r := s.c }
    unfold Prefetched
    simp only [hc]
    rw [hpc]
    exact fun heq => by cases heq
  · rw [if_neg hasleep] at hpub
    by_cases hp : p.flushed = []
    · -- `c` is at the first element: the reader falls asleep
      have hc : s.c = some s.reader.front := by
        rw [hpub, hat.1, hp]
        rfl
      have hfound : (decide ¬(some s.reader.front = s.c ∨ s.c = none)) = false := by
        rw [decide_eq_false_iff_not, not_not]
        exact Or.inl hc.symm
      simp only [readerStep, ok_bind, ok_get, if_pos hc, ok_modify, ok_setReader, hfound]
      have hread := Inv.finishCheck_false (g := g) (p := p)
        (s := { s with c := none, reader := { s.reader with r := s.c } }) ?_ hp hown hat purpose
      · exact hread
      refine ⟨hmem, ⟨hcore.items, hcore.w, hcore.f, ?_, ?_, hcore.reader⟩,
        hwriter.congr_pipe rfl rfl rfl rfl fun _ => rfl⟩
      · have hnow : p.checked.asleep = true := by
          show (p.asleep || p.flushed.isEmpty) = true
          rw [hp, List.isEmpty_nil, Bool.or_true]
        unfold Published
        rw [if_pos hnow]
        exact ⟨rfl, hp⟩
      · show Prefetched N g p.checked { s.reader with r := s.c }
        unfold Prefetched
        simp only [hc]
        exact ⟨0, Nat.zero_le _, hat.1, by rw [hpc]; exact fun heq => by cases heq⟩
    · -- there is something to read
      have hpos := List.length_pos_of_ne_nil hp
      have hne : ¬s.c = some s.reader.front := by
        rw [hpub, hat.1, Option.some.injEq]
        intro heq
        have := hinv.slotAt_inj hN (i := p.flushed.length) (j := 0) (by omega) (Nat.zero_le _) heq
        omega
      have hfound : (decide ¬(some s.reader.front = s.c ∨ s.c = none)) = true := by
        rw [decide_eq_true_iff, not_or]
        refine ⟨fun heq => hne heq.symm, ?_⟩
        rw [hpub]
        exact fun heq => by cases heq
      simp only [readerStep, ok_bind, ok_get, hne, if_false, ok_setReader, hfound]
      have hread :=
        Inv.finishCheck_true (s := { s with reader := { s.reader with r := s.c } }) (g := g)
        (p := p) ?_ hp hown hat hpos le_rfl hpub purpose
      · exact hread
      refine ⟨hmem, ⟨hcore.items, hcore.w, hcore.f, hcore.c, ?_, hcore.reader⟩, hwriter⟩
      show Prefetched N g p { s.reader with r := s.c }
      unfold Prefetched
      simp only [hpub]
      exact ⟨p.flushed.length, le_rfl, rfl, fun _ => hpos⟩

/-! ## `read` -/

theorem Pipe.items_read {v : α} {rest : List α} (h : p.flushed = v :: rest) :
    p.items = v :: (p.call .read).2.items := by
  show p.flushed ++ (p.complete ++ p.incomplete)
    = v :: (p.flushed.tail ++ (p.complete ++ p.incomplete))
  rw [h]
  rfl

/-- The first element is copied, and the front moves on. -/
theorem Inv.loadFront (h : Inv N s p g) (hN : 0 < N) (hpc : s.reader.pc = .load) :
    Ok (readerStep N .load) s (Keeps N p) := by
  obtain ⟨hmem, hcore, hwriter⟩ := h
  have hat := hcore.reader
  rw [ReaderAt, hpc] at hat
  have hr := hcore.r
  unfold Prefetched at hr
  cases hslot : s.reader.r with
  | none =>
      rw [hslot] at hr
      exact absurd hpc hr
  | some slot =>
      rw [hslot] at hr
      obtain ⟨d, hd, hd', hload⟩ := hr
      have hpos := hload hpc
      cases hp : p.flushed with
      | nil =>
          rw [hp] at hd
          exact absurd hd (by simp only [List.length_nil]; omega)
      | cons v rest =>
          have hitems := Pipe.items_read hp
          have hvalue : valueAt s.heap s.reader.front = some v := by
            rw [hat.1]
            exact hcore.items 0 v (by rw [hitems]; rfl)
          have hindex : s.reader.front.2 < N := by
            rw [hat.1]
            exact Nat.mod_lt _ hN
          have hbeginPos : s.reader.beginPos = g.front % N := congrArg Prod.snd hat.1
          have hbeginChunk : s.reader.beginChunk = g.chunk (g.front / N) := congrArg Prod.fst hat.1
          have hnonempty : p.flushed ≠ [] := by rw [hp]; exact List.cons_ne_nil _ _
          have hlength : p.flushed.length = p.flushed.tail.length + 1 := by rw [hp]; rfl
          have hchecked : (p.asleep || p.flushed.isEmpty) = p.asleep :=
            congrArg Pipe.asleep (Pipe.checked_of_ne_nil hnonempty)
          have htop : (Layout.mk g.chunk g.first g.last (g.front + 1)).top
              (p.call .read).2 = g.top p := by
            rw [Layout.top, Layout.top, hitems, List.length_cons]
            show g.front + 1 + _ = _
            omega
          simp only [readerStep, ok_bind, ok_get, ok_readValue hmem.null hvalue hindex,
            ok_setReader, ok_pure]
          refine ⟨congrArg Result.value (by rw [hp]; rfl),
            ⟨g.chunk, g.first, g.last, g.front + 1⟩, ?_, ⟨fun i u hu => ?_, ?_, ?_, ?_, ?_, ?_⟩, ?_⟩
          · -- the chunks are where they were
            rw [Sys.own, hpc] at hmem
            have hown : (if s.reader.beginPos + 1 = N then ReaderPc.moveBegin else .out).own
                = [] := by
              split_ifs <;> rfl
            rw [Sys.own]
            show Memory s.heap _ (nonNull s.spareChunk ++ (ReaderPc.own _ ++ s.writer.pc.own))
            rw [hown]
            exact ⟨hmem.census, hmem.null, hmem.ordered, hmem.next, hmem.prev⟩
          · have := hcore.items (i + 1) u (by rw [hitems]; exact hu)
            rwa [← Nat.add_assoc, Nat.add_right_comm] at this
          · show s.writer.w = slotAt N g.chunk (g.front + 1 + p.flushed.tail.length)
            rw [hcore.w, hlength]
            congr 1
            omega
          · show s.writer.f
              = slotAt N g.chunk (g.front + 1 + (p.flushed.tail.length + p.complete.length))
            rw [hcore.f, hlength]
            congr 1
            omega
          · have hc := hcore.c
            unfold Published at hc ⊢
            show if (p.asleep || p.flushed.isEmpty) = true then s.c = none ∧
              p.flushed.tail = [] else
              s.c = some (slotAt N g.chunk (g.front + 1 + p.flushed.tail.length))
            rw [hchecked]
            split_ifs at hc ⊢
            · exact absurd hc.2 hnonempty
            · rw [hc, hlength]
              congr 2
              omega
          · unfold Prefetched
            simp only [hslot]
            refine ⟨d - 1, ?_, ?_, ?_⟩
            · show d - 1 ≤ p.flushed.tail.length
              omega
            · rw [hd']
              show slotAt N g.chunk (g.front + d) = slotAt N g.chunk (g.front + 1 + (d - 1))
              congr 1
              omega
            · split_ifs <;> exact fun heq => by cases heq
          · by_cases hlast : s.reader.beginPos + 1 = N
            · obtain ⟨hnew, -, -⟩ := succ_new_chunk hN (i := g.front) (by omega)
              simp only [hlast, if_true, ReaderAt]
              refine ⟨?_, ?_⟩
              · show (s.reader.beginChunk, N) = (g.chunk g.first, N)
                rw [hbeginChunk, hat.2]
              · rw [hnew, hat.2]
            · have hmodlt := Nat.mod_lt g.front hN
              obtain ⟨hdiv, hmod⟩ := succ_in_chunk (N := N) (i := g.front) (by omega)
              simp only [hlast, if_false, ReaderAt]
              refine ⟨?_, hdiv.trans hat.2⟩
              show (s.reader.beginChunk, s.reader.beginPos + 1)
                = (g.chunk ((g.front + 1) / N), (g.front + 1) % N)
              rw [hdiv, hmod, hbeginChunk, hbeginPos]
          · rw [htop]
            exact hwriter.congr_pipe rfl rfl rfl rfl id

/-- The front moves on to the next chunk. -/
theorem Inv.moveBegin (h : Inv N s p g) (hN : 0 < N) (hpc : s.reader.pc = .moveBegin) :
    Ok (readerStep N .moveBegin) s (Keeps N p) := by
  obtain ⟨hmem, hcore, hwriter⟩ := h
  have hat := hcore.reader
  rw [ReaderAt, hpc] at hat
  obtain ⟨hfront, hpos⟩ := hat
  have hlt : g.first < g.last := by
    have hle : g.front / N ≤ g.top p / N := Nat.div_le_div_right (Nat.le_add_right _ _)
    rw [hpos, Nat.mul_div_cancel _ hN] at hle
    have := hwriter.top_le
    omega
  have hchunk : s.reader.beginChunk = g.chunk g.first := congrArg Prod.fst hfront
  have hbeginPos : s.reader.beginPos = N := congrArg Prod.snd hfront
  have hnext : nextOf s.heap s.reader.beginChunk = some (g.chunk (g.first + 1)) := by
    rw [hchunk]
    exact hmem.next g.first le_rfl hlt
  rw [Sys.own, hpc] at hmem
  simp only [readerStep, ok_bind, ok_get, ok_readField hmem.null hnext, ok_setReader, ok_readerGoto]
  refine ⟨g.dropFirst, (hmem.dropFirst hlt).move fun a => ?_,
    ⟨hcore.items, hcore.w, hcore.f, hcore.c, ?_, ?_⟩, hwriter.congr_pipe rfl rfl rfl rfl id⟩
  · show (nonNull s.spareChunk ++ ([s.reader.beginChunk] ++ s.writer.pc.own)).count a =
      (g.chunk g.first :: (nonNull s.spareChunk ++ ([] ++ s.writer.pc.own))).count a
    rw [hchunk]
    simp only [List.count_append, List.count_cons, List.count_nil]
    omega
  · exact hcore.r.goto rfl rfl
  · refine ⟨?_, hpos⟩
    show (g.chunk (g.first + 1), s.reader.beginPos) = (g.chunk (g.first + 1), N)
    rw [hbeginPos]

/-- The chunk at the front is the first one now. -/
theorem Inv.clearPrev (h : Inv N s p g) (hN : 0 < N) {a : Nat} (hpc : s.reader.pc = .clearPrev a) :
    Ok (readerStep N (.clearPrev a)) s (Keeps N p) := by
  obtain ⟨hmem, hcore, hwriter⟩ := h
  have hat := hcore.reader
  rw [ReaderAt, hpc] at hat
  obtain ⟨hfront, hpos⟩ := hat
  have hchunk : s.reader.beginChunk = g.chunk g.first := congrArg Prod.fst hfront
  have hlive : (s.heap s.reader.beginChunk).isSome := by
    rw [hchunk]
    exact hmem.isSome_chunk le_rfl hmem.ordered
  have hdiv : g.front / N = g.first := by rw [hpos, Nat.mul_div_cancel _ hN]
  have hmod : g.front % N = 0 := by rw [hpos, Nat.mul_mod_left]
  -- the link that is cleared is not that of a chunk of the writer
  have hprev : ∀ b ∈ s.writer.pc.own,
      prevOf (modAt s.heap s.reader.beginChunk (.setPrev 0)) b = prevOf s.heap b := by
    intro b hb
    have hown : b ∈ s.own := List.mem_append_right _ (List.mem_append_right _ hb)
    have hne : b ≠ s.reader.beginChunk := by
      rw [hchunk]
      exact (hmem.chunk_ne_own le_rfl hmem.ordered hown).symm
    rw [prevOf, modAt_of_ne hne]
    rfl
  have hmem' := hmem.setPrev_first (b := 0)
  rw [← hchunk, Sys.own, hpc] at hmem'
  have hcore' :=
    hcore.congr_heap (modAt s.heap s.reader.beginChunk (.setPrev 0)) fun _ _ => valueAt_setPrev _
  simp only [readerStep, ok_bind, ok_get, ok_writePrev hmem.null hlive, ok_setReader, ok_readerGoto]
  refine ⟨g, hmem', ⟨hcore'.items, hcore'.w, hcore'.f, hcore'.c, hcore.r.goto rfl rfl, ?_, hdiv⟩,
    hwriter.congr rfl rfl rfl rfl id (valueAt_setPrev _) (nextOf_setPrev _) hprev⟩
  show (s.reader.beginChunk, 0) = (g.chunk (g.front / N), g.front % N)
  rw [hdiv, hmod, hchunk]

/-- The old chunk becomes the spare one. -/
theorem Inv.putSpare (h : Inv N s p g) {a : Nat} (hpc : s.reader.pc = .putSpare a) :
    Ok (readerStep N (.putSpare a)) s (Keeps N p) := by
  obtain ⟨hmem, hcore, hwriter⟩ := h
  have hat := hcore.reader
  rw [ReaderAt, hpc] at hat
  have hlive : a ∈ s.own := by
    rw [Sys.own, hpc]
    exact List.mem_append_right _ (List.mem_append_left _ (List.mem_singleton_self a))
  have ha : a ≠ 0 := isSome_ne_zero hmem.null (hmem.isSome_own hlive)
  rw [Sys.own, hpc] at hmem
  simp only [readerStep, ok_bind, ok_get, ok_modify, ok_readerGoto]
  refine ⟨g, hmem.move fun b => ?_,
    ⟨hcore.items, hcore.w, hcore.f, hcore.c, hcore.r.goto rfl rfl, hat⟩, hwriter⟩
  show (nonNull a ++ (nonNull s.spareChunk ++ s.writer.pc.own)).count b =
    (nonNull s.spareChunk ++ ([a] ++ s.writer.pc.own)).count b
  rw [List.count_append, List.count_append, List.count_append, List.count_append, count_nonNull ha]
  omega

/-- The chunk that was the spare one before is freed. -/
theorem Inv.freeSpare (h : Inv N s p g) (hN : 0 < N) {a : Nat} (hpc : s.reader.pc = .free a) :
    Ok (readerStep N (.free a)) s (Keeps N p) := by
  obtain ⟨hmem, hcore, hwriter⟩ := h
  have hinv : Inv N s p g := ⟨hmem, hcore, hwriter⟩
  have hat := hcore.reader
  rw [ReaderAt, hpc] at hat
  rw [Sys.own, hpc] at hmem
  by_cases ha : a = 0
  · subst ha
    simp only [readerStep, ok_bind, ok_freeChunk_null, ok_readerGoto]
    exact ⟨g, hmem, ⟨hcore.items, hcore.w, hcore.f, hcore.c, hcore.r.goto rfl rfl, hat⟩, hwriter⟩
  · have hmem₁ : Memory s.heap g (a :: (nonNull s.spareChunk ++ s.writer.pc.own)) := by
      refine hmem.move fun b => ?_
      show (a :: (nonNull s.spareChunk ++ s.writer.pc.own)).count b =
        (nonNull s.spareChunk ++ (nonNull a ++ s.writer.pc.own)).count b
      rw [List.count_append, List.count_append, List.count_cons, List.count_append,
        count_nonNull ha, List.count_cons, List.count_nil]
      omega
    have hlive : (s.heap a).isSome := hmem₁.isSome_own List.mem_cons_self
    -- no chunk that is still in use is freed
    have hlist : ∀ i ≤ p.items.length, (slotAt N g.chunk (g.front + i)).1 ≠ a := by
      intro i hi
      obtain ⟨hfirst, hlast⟩ :=
        hinv.in_list hN (Nat.le_add_right g.front i) (Nat.add_le_add_left hi _)
      exact hmem₁.chunk_ne_own hfirst hlast List.mem_cons_self
    have hlast : g.chunk g.last ≠ a := hmem₁.chunk_ne_own hmem.ordered le_rfl List.mem_cons_self
    have hother : ∀ b ∈ s.writer.pc.own, b ≠ a := by
      rintro b hb rfl
      have hnodup := (List.nodup_append.mp hmem₁.nodup).2.1
      exact (List.nodup_cons.mp hnodup).1 (List.mem_append_right _ hb)
    have hcore' :=
      hcore.congr_heap (update s.heap a none) fun i hi => valueAt_update (hlist i hi.le)
    simp only [readerStep, ok_bind, ok_freeChunk hmem.null hlive, ok_readerGoto]
    refine ⟨g, hmem₁.free, ⟨hcore'.items, hcore'.w, hcore'.f, hcore'.c, hcore.r.goto rfl rfl, hat⟩,
      hwriter.congr rfl rfl rfl rfl id (valueAt_update (hlist _ le_rfl)) ?_ fun b hb => ?_⟩
    · show nextOf (update s.heap a none) _ = _
      rw [nextOf, update_of_ne hlast]
      rfl
    · show prevOf (update s.heap a none) _ = _
      rw [prevOf, update_of_ne (hother b hb)]
      rfl

/-! ## The calls -/

/-- **A step of the reader** in one of its calls. -/
theorem Inv.readerStep (h : Inv N s p g) (hN : 0 < N) (hout : s.reader.pc.isOut = false) :
    Ok (readerStep N s.reader.pc) s (Keeps N p) := by
  cases hpc : s.reader.pc with
  | out => rw [hpc] at hout; cases hout
  | prefetch purpose => exact h.prefetch hN hpc
  | load => exact h.loadFront hN hpc
  | moveBegin => exact h.moveBegin hN hpc
  | clearPrev a => exact h.clearPrev hN hpc
  | putSpare a => exact h.putSpare hpc
  | free a => exact h.freeSpare hN hpc

theorem ReaderPc.eq_out {pc : ReaderPc} (h : pc.isOut = true) : pc = .out := by
  cases pc <;> first | rfl | cases h

/-- `check_read` or `read` is called: what has been prefetched is used without a look at `c`. -/
theorem Inv.readerCall (h : Inv N s p g) (purpose : Purpose) :
    Takes (readerCall purpose) s (Keeps N p) := by
  refine takes_await fun hout => ?_
  have hpc := ReaderPc.eq_out hout
  have hat := h.core.reader
  rw [ReaderAt, hpc] at hat
  have hown : s.reader.pc.own = [] := by rw [hpc]; rfl
  simp only [ok_bind, ok_get]
  split_ifs with hprefetched
  · obtain ⟨hne, hsome⟩ := hprefetched
    have hr := h.core.r
    unfold Prefetched at hr
    cases hslot : s.reader.r with
    | none => exact absurd hslot hsome
    | some slot =>
        rw [hslot] at hr
        obtain ⟨d, hd, rfl, -⟩ := hr
        have hpos : 0 < d := by
          refine Nat.pos_of_ne_zero ?_
          rintro rfl
          apply hne
          rw [hslot, hat.1]
          rfl
        have hp : p.flushed ≠ [] := List.ne_nil_of_length_pos (by omega)
        exact h.finishCheck_true hp hown hat hpos hd hslot purpose
  · rw [ok_readerGoto]
    obtain ⟨hmem, hcore, hwriter⟩ := h
    rw [Sys.own, hown] at hmem
    exact ⟨g, hmem, ⟨hcore.items, hcore.w, hcore.f, hcore.c, hcore.r.goto rfl rfl, hat⟩, hwriter⟩

end Steps

end KvStore.Ypipe
