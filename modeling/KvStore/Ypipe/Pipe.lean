import KvStore.Ypipe.Reader

set_option autoImplicit false

/-! # The pipe does what it is for

Over any interleaving of the two threads, wherever `malloc` puts its chunks, the calls have the
results that the pipe as one object gives them (`calls_as_one_object`), and no step goes wrong
(`steps_never_fault`). When both threads are outside, the destructor gives all the memory back
(`destroy_frees_everything`). -/

namespace KvStore.Ypipe

open Function KvStore.Lib

variable {α : Type}

/-- The step is not a `malloc` that fails. -/
def Step.Allocates : Step α → Prop
  | .malloc a => a ≠ 0
  | _ => True

/-! ## Runs -/

/-- A step that begins with a look at the state. -/
theorem takes_get_bind {f : Sys α → Exec (Sys α) (Shown α)} {s : Sys α} {Q : Shown α → Sys α → Prop}
    (h : Takes (f s) s Q) : Takes (get >>= f) s Q :=
  takes_bind (Ok.takes ((ok_get s _).mpr h))

/-- **One step** shows what the pipe does, and keeps the invariant. -/
theorem Inv.step {N : Nat} (hN : 0 < N) {s : Sys α} {p : Pipe α} {g : Layout} (h : Inv N s p g)
    (o : Step α) (ho : o.Allocates) : Takes (step N o) s (Keeps N p) := by
  cases o with
  | write v incomplete => exact h.callWrite v incomplete
  | unwrite => exact h.callUnwrite hN
  | flush => exact h.callFlush hN
  | checkRead => exact h.readerCall .check
  | read => exact h.readerCall .read
  | writer =>
      refine takes_get_bind ?_
      by_cases hout : s.writer.pc.isOut = true
      · exact Or.inl (writerStep_blocked (Or.inl hout))
      · by_cases hmalloc : s.writer.pc.isMalloc = true
        · exact Or.inl (writerStep_blocked (Or.inr hmalloc))
        · rw [Bool.not_eq_true] at hout hmalloc
          exact (h.writerStep hN hout hmalloc).takes
  | malloc a =>
      refine takes_await_of fun hfree => takes_get_bind ?_
      by_cases hmalloc : s.writer.pc.isMalloc = true
      · exact (h.mallocStep hN ho (Option.isNone_iff_eq_none.mp hfree) hmalloc).takes
      · rw [Bool.not_eq_true] at hmalloc
        exact Or.inl (mallocStep_blocked hmalloc)
  | reader =>
      refine takes_get_bind ?_
      by_cases hout : s.reader.pc.isOut = true
      · rw [ReaderPc.eq_out hout]
        exact Or.inl rfl
      · rw [Bool.not_eq_true] at hout
        exact (h.readerStep hN hout).takes

/-- The pipe at its start, with the chunks laid out as in `g`. -/
theorem inv_start_of_memory {N a b : Nat} {g : Layout} (hfront : g.front = 0) (hfirst : g.first = 0)
    (ha : g.chunk 0 = a) (hmem : Memory (start α N a b).heap g [])
    (hend : (start α N a b).writer.endSlot = slotAt N g.chunk 1) (hlast : 1 / N = g.last) :
    Inv N (start α N a b) (.empty α) g := by
  have hzero : slotAt N g.chunk g.front = (a, 0) := by
    rw [slotAt, hfront, Nat.zero_div, Nat.zero_mod, ha]
  refine ⟨hmem,
    ⟨fun i v hv => ?_, hzero.symm, hzero.symm, congrArg some hzero.symm, ?_, hzero.symm, ?_⟩,
    hzero.symm, ?_, ?_⟩
  · exact absurd hv (by simp [Pipe.empty, Pipe.items])
  · exact ⟨0, le_rfl, hzero.symm, fun hpc => by cases hpc⟩
  · rw [hfront, hfirst, Nat.zero_div]
  · rw [hend, Layout.top, hfront]
    rfl
  · rw [Layout.top, hfront]
    exact hlast

/-- The constructors leave an empty pipe. -/
theorem inv_start (α : Type) {N a b : Nat} (hN : 0 < N) (ha : a ≠ 0) (hb : b ≠ 0) (hab : a ≠ b) :
    ∃ g, Inv N (start α N a b) (.empty α) g := by
  by_cases hone : N = 1
  · -- the first `push` has linked a second chunk
    subst hone
    have hne : ∀ x, x ≠ a → x ≠ b → (start α 1 a b).heap x = none := by
      intro x hxa hxb
      show update (update (fun _ => none) a _) b _ x = _
      rw [update_of_ne hxb, update_of_ne hxa]
    have hheapb : (start α 1 a b).heap b = some { Chunk.fresh α with prev := some a } :=
      update_self ..
    have hheapa : (start α 1 a b).heap a = some { Chunk.fresh α with next := some b } := by
      show update (update (fun _ => none) a _) b _ a = _
      rw [update_of_ne hab, update_self]
    refine ⟨⟨fun k => if k = 0 then a else b, 0, 1, 0⟩,
      inv_start_of_memory rfl rfl rfl ⟨fun x => ?_, ?_, ?_,
      fun k _ hk => ?_, fun k _ hk => ?_⟩ rfl rfl⟩
    · show [a, b].count x + [].count x = _
      by_cases hxa : x = a
      · rw [hxa, hheapa, List.count_cons_self, List.count_cons_of_ne hab.symm]
        rfl
      · by_cases hxb : x = b
        · rw [hxb, hheapb, List.count_cons_of_ne hab, List.count_cons_self]
          rfl
        · rw [hne x hxa hxb, List.count_cons_of_ne (Ne.symm hxa),
            List.count_cons_of_ne (Ne.symm hxb)]
          rfl
    · exact hne 0 ha.symm hb.symm
    · exact Nat.zero_le 1
    · obtain rfl : k = 0 := Nat.lt_one_iff.mp hk
      show nextOf (start α 1 a b).heap a = some b
      rw [nextOf, hheapa]
      rfl
    · obtain rfl : k = 0 := Nat.lt_one_iff.mp hk
      show prevOf (start α 1 a b).heap b = some a
      rw [prevOf, hheapb]
      rfl
  · have hheap : (start α N a b).heap = update (fun _ => none) a (some (.fresh α)) := if_neg hone
    have hlt : 1 < N := by omega
    refine ⟨⟨fun _ => a, 0, 0, 0⟩,
      inv_start_of_memory rfl rfl rfl ⟨fun x => ?_, ?_, ?_, fun k _ hk => ?_,
      fun k _ hk => ?_⟩ ?_ (Nat.div_eq_of_lt hlt)⟩
    · show [a].count x + [].count x = _
      rw [hheap]
      by_cases hxa : x = a
      · rw [hxa, update_self, List.count_cons_self]
        rfl
      · rw [update_of_ne hxa, List.count_cons_of_ne (Ne.symm hxa)]
        rfl
    · rw [hheap, update_of_ne ha.symm]
    · exact le_rfl
    · exact absurd hk (Nat.not_lt_zero k)
    · exact absurd hk (Nat.not_lt_zero k)
    · show (if N = 1 then b else a, if N = 1 then 0 else 1) = (a, 1 % N)
      rw [if_neg hone, if_neg hone, Nat.mod_eq_of_lt hlt]

/-- What the steps keep, whatever the chunks are. -/
def Stands (N : Nat) (s : Sys α) (p : Pipe α) : Prop := ∃ g, Inv N s p g

theorem Stands.step {N : Nat} (hN : 0 < N) (o : Step α) (s : Sys α) (p : Pipe α) (ho : o.Allocates)
    (h : Stands N s p) :
    Takes (step N o) s fun shown s' => Shows Pipe.call p shown (Stands N s') := by
  obtain ⟨g, hinv⟩ := h
  exact hinv.step hN o ho

/-- **The pipe is one object.** In every run of the writer and the reader in which `malloc`
succeeds, the results of the calls are those that the pipe gives to the same calls, one at a time,
in the order in which they take effect: elements come out in the order in which they were written,
none before it has been flushed, and a `flush` that has something to flush says that the reader is
asleep exactly when the reader has been told that there is nothing and nothing has been flushed
since. -/
theorem calls_as_one_object (N a b : Nat) (hN : 0 < N) (ha : a ≠ 0) (hb : b ≠ 0) (hab : a ≠ b)
    (steps : List (Step α)) (hsteps : ∀ o ∈ steps, o.Allocates) (shown : List (Shown α)) (s : Sys α)
    (hrun : (runAll (step N) steps).run (start α N a b) = .ok (shown, s)) :
    (specRun Pipe.call (.empty α) (calls shown)).1 = results shown :=
  (runAll_simulates (Stands.step hN) hsteps (inv_start α hN ha hb hab) hrun).1

/-- An element is written, flushed and read, and the reader finds nothing more; another one is
written and taken back, and the next `flush` says that the reader is asleep. A chunk has two
elements. -/
def exampleSteps : List (Step Nat) :=
  [.write 5 false, .writer, .writer, .malloc 24, .writer, .writer, .writer, .flush, .writer, .read,
    .reader, .reader, .read, .reader, .write 7 true, .writer, .unwrite, .writer, .writer, .writer,
    .write 6 false, .writer, .flush,
    .writer, .writer]

/-- What its calls return. -/
def exampleResults : List (Result Nat) :=
  [.unit, .bool true, .value (some 5), .value none, .unit, .value (some 7), .unit, .bool false]

theorem allocates_exampleSteps : ∀ o ∈ exampleSteps, o.Allocates := by
  simp [exampleSteps, Step.Allocates]

theorem calls_as_one_object_exampleSteps :
    ∃ shown s, (runAll (step 2) exampleSteps).run (start Nat 2 8 16) = .ok (shown, s) ∧
      results shown = exampleResults ∧
      (specRun Pipe.call (.empty Nat) (calls shown)).1 = results shown :=
  ⟨_, _, rfl, rfl,
    calls_as_one_object 2 8 16 (by decide) (by decide) (by decide) (by decide) exampleSteps
    allocates_exampleSteps _ _ rfl⟩

/-- **No step goes wrong**: no chunk is used after it has been freed, none is freed twice, no link
and no element is read before it has been written, and no index leaves its chunk. -/
theorem steps_never_fault (N a b : Nat) (hN : 0 < N) (ha : a ≠ 0) (hb : b ≠ 0) (hab : a ≠ b)
    (steps : List (Step α)) (hsteps : ∀ o ∈ steps, o.Allocates) :
    (runAll (step N) steps).run (start α N a b) = .error .blocked ∨
      ∃ shown s, (runAll (step N) steps).run (start α N a b) = .ok (shown, s) := by
  cases hrun : (runAll (step N) steps).run (start α N a b) with
  | error e =>
      rw [runAll_only_blocked (Stands.step hN) hsteps (inv_start α hN ha hb hab) hrun]
      exact Or.inl rfl
  | ok result => exact Or.inr ⟨result.1, result.2, rfl⟩

theorem steps_never_fault_exampleSteps :
    ∃ shown s, (runAll (step 2) exampleSteps).run (start Nat 2 8 16) = .ok (shown, s) :=
  (steps_never_fault 2 8 16 (by decide) (by decide) (by decide) (by decide) exampleSteps
    allocates_exampleSteps).resolve_left fun h => by cases h

/-! ## The destructor -/

/-- The chunks from the first one to the last one are still there, and the spare one. -/
def Undestroyed (g : Layout) (_ : Unit) (s : Sys α) : Prop :=
  Memory s.heap g (nonNull s.spareChunk) ∧ s.reader.beginChunk = g.chunk g.first ∧
    s.writer.endChunk = g.chunk g.last

/-- Only the spare chunk is still there. -/
def SpareLeft (s : Sys α) : Prop :=
  s.heap 0 = none ∧ ∀ a, (nonNull s.spareChunk).count a = (s.heap a).isSome.toNat

/-- An iteration frees the first chunk; the last one ends the loop. -/
theorem ok_destroyStep {g : Layout} {s : Sys α} (u : Unit) (h : Undestroyed g u s) :
    Ok (destroyStep u) s fun x s' =>
      match x with
      | .inl u => ∃ g' : Layout, Undestroyed g' u s' ∧ g'.last - g'.first < g.last - g.first
      | .inr _ => SpareLeft s' := by
  obtain ⟨hmem, hbegin, hend⟩ := h
  have hlive : (s.heap s.reader.beginChunk).isSome := by
    rw [hbegin]
    exact hmem.isSome_chunk le_rfl hmem.ordered
  simp only [destroyStep, ok_bind, ok_get]
  split_ifs with heq
  · rw [ok_bind, ok_freeChunk hmem.null hlive, ok_pure]
    have hone : g.first = g.last := by
      refine hmem.chunk_inj le_rfl hmem.ordered hmem.ordered le_rfl ?_
      rw [← hbegin, ← hend, heq]
    have hchain : g.chain = [g.chunk g.first] := by
      rw [Layout.chain, hone, Nat.add_sub_cancel_left]
      rfl
    have hnull := isSome_ne_zero hmem.null hlive
    refine ⟨?_, fun a => ?_⟩
    · show update s.heap s.reader.beginChunk none 0 = none
      rw [update_of_ne hnull.symm]
      exact hmem.null
    · have hcensus := hmem.census a
      rw [hchain, ← hbegin] at hcensus
      show (nonNull s.spareChunk).count a = (update s.heap s.reader.beginChunk none a).isSome.toNat
      by_cases ha : a = s.reader.beginChunk
      · rw [ha, update_self]
        rw [ha, hlive, List.count_cons_self] at hcensus
        change _ = 1 at hcensus
        show _ = 0
        omega
      · rw [update_of_ne ha, ← hcensus, List.count_cons_of_ne (Ne.symm ha), List.count_nil,
          Nat.zero_add]
  · have hlt : g.first < g.last := by
      refine lt_of_le_of_ne hmem.ordered fun hone => heq ?_
      rw [hbegin, hend, hone]
    have hnext : nextOf s.heap s.reader.beginChunk = some (g.chunk (g.first + 1)) := by
      rw [hbegin]
      exact hmem.next g.first le_rfl hlt
    have hmem' := (hmem.dropFirst hlt).free
    rw [← hbegin] at hmem'
    simp only [ok_bind, ok_readField hmem.null hnext, ok_setReader, ok_pure]
    refine (ok_freeChunk
      (s := { s with reader := { s.reader with beginChunk := g.chunk (g.first + 1) } })
      hmem.null hlive _).mpr ?_
    refine ⟨g.dropFirst, ⟨hmem', rfl, hend⟩, ?_⟩
    show g.last - (g.first + 1) < g.last - g.first
    omega

/-- **The destructor frees everything**: when both threads are outside, it frees every chunk there
is, each of them once. -/
theorem destroy_frees_everything (N a b : Nat) (hN : 0 < N) (ha : a ≠ 0) (hb : b ≠ 0) (hab : a ≠ b)
    (steps : List (Step α)) (hsteps : ∀ o ∈ steps, o.Allocates) (shown : List (Shown α)) (s : Sys α)
    (hrun : (runAll (step N) steps).run (start α N a b) = .ok (shown, s))
    (hwriter : s.writer.pc.isOut = true) (hreader : s.reader.pc.isOut = true) :
    ∃ k, ∀ n, k < n → Ok (destroy n) s fun _ s' => ∀ x, s'.heap x = none := by
  obtain ⟨-, g, hmem, hcore, hat⟩ :=
    runAll_simulates (Stands.step hN) hsteps (inv_start α hN ha hb hab) hrun
  rw [WriterAt, WriterPc.eq_out hwriter] at hat
  have hread := hcore.reader
  rw [ReaderAt, ReaderPc.eq_out hreader] at hread
  rw [Sys.own, WriterPc.eq_out hwriter, ReaderPc.eq_out hreader] at hmem
  have hstart : Undestroyed g () s := by
    refine ⟨?_, ?_, ?_⟩
    · have hown : nonNull s.spareChunk ++ (ReaderPc.out.own ++ (WriterPc.out : WriterPc α).own) =
          nonNull s.spareChunk := List.append_nil _
      rwa [hown] at hmem
    · rw [← hread.2]
      exact congrArg Prod.fst hread.1
    · rw [← hat.last]
      exact congrArg Prod.fst hat.endSlot
  refine ⟨g.last - g.first, fun n hn => ?_⟩
  unfold destroy
  rw [ok_bind]
  refine (Ok.loop Undestroyed (fun g => g.last - g.first) (fun _ s' => SpareLeft s')
    (fun g u s h => ?_) n g () s hn hstart).mono ?_
  · refine (ok_destroyStep u h).mono fun x s' hx => ?_
    cases x with
    | inl u => exact hx
    | inr u => exact hx
  rintro u s' ⟨hnull, hspare⟩
  simp only [ok_bind, ok_get, ok_modify]
  by_cases hsc : s'.spareChunk = 0
  · rw [hsc, ok_freeChunk_null]
    intro x
    have hx := hspare x
    rw [hsc] at hx
    cases hheap : s'.heap x with
    | none => rfl
    | some chunk => rw [hheap] at hx; cases hx
  · have hcount : ∀ x, [s'.spareChunk].count x = (s'.heap x).isSome.toNat := fun x => by
      rw [← count_nonNull hsc]
      exact hspare x
    have hlive : (s'.heap s'.spareChunk).isSome := by
      have hself := hcount s'.spareChunk
      rw [List.count_cons_self] at hself
      cases hheap : (s'.heap s'.spareChunk).isSome with
      | true => rfl
      | false => rw [hheap] at hself; cases hself
    refine (ok_freeChunk (s := { s' with spareChunk := 0 }) hnull hlive _).mpr fun x => ?_
    show update s'.heap s'.spareChunk none x = none
    by_cases hx : x = s'.spareChunk
    · rw [hx, update_self]
    · rw [update_of_ne hx]
      have hzero := hcount x
      rw [List.count_cons_of_ne (Ne.symm hx)] at hzero
      cases hheap : s'.heap x with
      | none => rfl
      | some chunk => rw [hheap] at hzero; cases hzero

theorem destroy_frees_everything_exampleSteps :
    ∃ shown s, (runAll (step 2) exampleSteps).run (start Nat 2 8 16) = .ok (shown, s) ∧
      s.writer.pc.isOut = true ∧ s.reader.pc.isOut = true ∧
      ∃ k, ∀ n, k < n → Ok (destroy n) s fun _ s' => ∀ x, s'.heap x = none :=
  ⟨_, _, rfl, rfl, rfl,
    destroy_frees_everything 2 8 16 (by decide) (by decide) (by decide) (by decide)
    exampleSteps allocates_exampleSteps _ _ rfl rfl rfl⟩

end KvStore.Ypipe
