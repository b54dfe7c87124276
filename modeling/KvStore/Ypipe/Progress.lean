import KvStore.Ypipe.Pipe

set_option autoImplicit false

/-! # Every call of the pipe returns

A call takes at most six steps of its own thread, whatever the other thread does in between, and as
long as it has not returned its next step can be taken (`calls_wait_free`).

The rank of a place is the number of steps that are left there. A step of one thread lowers its rank
and leaves the place of the other thread as it is (`step_rank`). -/

namespace KvStore.Ypipe

open KvStore.Lib

variable {α : Type} {n : Nat}

/-! ## Ranks -/

/-- The number of steps that the call of the writer takes at most. -/
def WriterPc.rank : WriterPc α → Nat
  | .out => 0
  | .store _ _ => 6
  | .takeSpare _ _ => 5
  | .malloc _ _ => 4
  | .linkNext _ _ _ _ => 3
  | .linkPrev _ _ _ _ => 2
  | .moveEnd _ _ _ => 1
  | .moveBack => 5
  | .unmoveEnd => 4
  | .freeNext => 3
  | .clearNext => 2
  | .load => 1
  | .cas => 2
  | .set => 1

/-- The number of steps that the call of the reader takes at most. -/
def ReaderPc.rank : ReaderPc → Nat
  | .out => 0
  | .prefetch _ => 6
  | .load => 5
  | .moveBegin => 4
  | .clearPrev _ => 3
  | .putSpare _ => 2
  | .free _ => 1

inductive Thread where
  | writer
  | reader
  deriving DecidableEq

/-- Whose step it is. -/
def Step.thread : Step α → Thread
  | .write _ _ => .writer
  | .unwrite => .writer
  | .flush => .writer
  | .checkRead => .reader
  | .read => .reader
  | .writer => .writer
  | .malloc _ => .writer
  | .reader => .reader

/-- A call is made. -/
def Step.isCall : Step α → Bool
  | .writer => false
  | .malloc _ => false
  | .reader => false
  | _ => true

/-- The number of steps that the call of a thread takes at most; `0` outside. -/
def Sys.rank (s : Sys α) : Thread → Nat
  | .writer => s.writer.pc.rank
  | .reader => s.reader.pc.rank

/-! ## Where the threads are -/

def Sys.pcs (s : Sys α) : WriterPc α × ReaderPc := (s.writer.pc, s.reader.pc)

/-- The threads stay where they are. -/
def Quiet {β : Type} (c : Exec (Sys α) β) : Prop := ∀ s, Returns c s fun _ s' => s'.pcs = s.pcs

/-- What is done after a quiet computation, as far as the places of the threads go. -/
theorem Quiet.bind {β γ : Type} {c : Exec (Sys α) β} {f : β → Exec (Sys α) γ}
    {G : WriterPc α × ReaderPc → WriterPc α × ReaderPc → Prop} (hc : Quiet c)
    (hf : ∀ x s, Returns (f x) s fun _ s' => G s.pcs s'.pcs) (s : Sys α) :
    Returns (c >>= f) s fun _ s' => G s.pcs s'.pcs := by
  refine returns_bind ((hc s).mono fun x s₁ hpcs => ?_)
  have h := hf x s₁
  rw [hpcs] at h
  exact h

theorem quiet_bind {β γ : Type} {c : Exec (Sys α) β} {f : β → Exec (Sys α) γ} (hc : Quiet c)
    (hf : ∀ x, Quiet (f x)) : Quiet (c >>= f) :=
  hc.bind (G := fun before after => after = before) hf

theorem quiet_pure {β : Type} (x : β) : Quiet (pure x : Exec (Sys α) β) := fun _ => returns_pure rfl

theorem quiet_throw {β : Type} (e : Fault) : Quiet (throw e : Exec (Sys α) β) :=
  fun s => returns_throw e s _

theorem quiet_get : Quiet (get : Exec (Sys α) (Sys α)) := by
  intro s x s' hrun
  cases hrun
  rfl

theorem quiet_modify {f : Sys α → Sys α} (h : ∀ s, (f s).pcs = s.pcs) :
    Quiet (modify f : Exec (Sys α) Unit) :=
  fun s => returns_modify (h s)

theorem quiet_readChunk (a : Nat) : Quiet (readChunk a : Exec (Sys α) (Chunk α)) := by
  unfold readChunk
  split_ifs
  · exact quiet_throw _
  · refine quiet_bind quiet_get fun s => ?_
    split
    · exact quiet_throw _
    · exact quiet_pure _

theorem quiet_writeChunk (a : Nat) (chunk : Chunk α) : Quiet (writeChunk a chunk) :=
  quiet_modify fun _ => rfl

theorem quiet_readField (a : Nat) (field : Chunk α → Option Nat) : Quiet (readField a field) := by
  refine quiet_bind (quiet_readChunk a) fun chunk => ?_
  split
  · exact quiet_throw _
  · exact quiet_pure _

theorem quiet_writeNext (a b : Nat) : Quiet (writeNext a b : Exec (Sys α) Unit) :=
  quiet_bind (quiet_readChunk a) fun _ => quiet_writeChunk _ _

theorem quiet_writePrev (a b : Nat) : Quiet (writePrev a b : Exec (Sys α) Unit) :=
  quiet_bind (quiet_readChunk a) fun _ => quiet_writeChunk _ _

theorem quiet_readValue (N : Nat) (slot : Slot) : Quiet (readValue N slot : Exec (Sys α) α) := by
  refine quiet_bind (quiet_readChunk _) fun chunk => ?_
  split_ifs
  · split
    · exact quiet_throw _
    · exact quiet_pure _
  · exact quiet_throw _

theorem quiet_writeValue (N : Nat) (slot : Slot) (v : α) : Quiet (writeValue N slot v) := by
  refine quiet_bind (quiet_readChunk _) fun chunk => ?_
  split_ifs
  · exact quiet_writeChunk _ _
  · exact quiet_throw _

theorem quiet_freeChunk (a : Nat) : Quiet (freeChunk a : Exec (Sys α) Unit) := by
  unfold freeChunk
  split_ifs
  · exact quiet_pure _
  · refine quiet_bind quiet_get fun s => ?_
    split
    · exact quiet_throw _
    · exact quiet_modify fun _ => rfl

theorem quiet_setWriter {f : Writer α → Writer α} (h : ∀ wr, (f wr).pc = wr.pc) :
    Quiet (setWriter f) :=
  quiet_modify fun s => Prod.ext (h s.writer) rfl

theorem quiet_setReader {f : Reader → Reader} (h : ∀ rd, (f rd).pc = rd.pc) :
    Quiet (setReader f : Exec (Sys α) Unit) :=
  quiet_modify fun s => Prod.ext rfl (h s.reader)

/-! ## The writer -/

/-- The writer has fewer than `n` steps left, and the reader is where it was. -/
def WriterBelow (n : Nat) (before after : WriterPc α × ReaderPc) : Prop :=
  after.1.rank < n ∧ after.2 = before.2

theorem writerGoto_below {pc : WriterPc α} (h : pc.rank < n) (s : Sys α) :
    Returns (writerGoto pc) s fun _ s' => WriterBelow n s.pcs s'.pcs :=
  ((ok_writerGoto pc).mpr ⟨h, rfl⟩).returns

theorem writerReturn_below (call : Call α) (result : Result α) (h : 0 < n) (s : Sys α) :
    Returns (writerReturn call result) s fun _ s' => WriterBelow n s.pcs s'.pcs :=
  ((ok_writerReturn call result).mpr ⟨h, rfl⟩).returns

theorem finishWrite_below (v : α) (incomplete : Bool) (h : 0 < n) (s : Sys α) :
    Returns (finishWrite v incomplete) s fun _ s' => WriterBelow n s.pcs s'.pcs := by
  unfold finishWrite
  dsimp only
  split_ifs
  · exact Quiet.bind (quiet_setWriter fun _ => by rfl) (fun _ => writerReturn_below _ _ h) s
  · exact writerReturn_below _ _ h s

/-- A step of the writer lowers its rank. -/
theorem writerStep_below (N : Nat) (pc : WriterPc α) (s : Sys α) :
    Returns (writerStep N pc) s fun _ s' => WriterBelow pc.rank s.pcs s'.pcs := by
  cases pc with
  | out => exact returns_throw _ _ _
  | store v incomplete =>
      refine Quiet.bind quiet_get (fun s₁ => ?_) s
      refine Quiet.bind (quiet_writeValue N _ v) fun _ => ?_
      refine Quiet.bind (quiet_setWriter fun _ => by rfl) fun _ s₂ => ?_
      split_ifs
      · exact finishWrite_below v incomplete (by decide : 0 < 6) s₂
      · exact writerGoto_below (by decide : 5 < 6) s₂
  | takeSpare v incomplete =>
      refine Quiet.bind quiet_get
        (fun s₁ => Quiet.bind (quiet_modify fun _ => by rfl) fun _ s₂ => ?_) s
      split_ifs
      · exact writerGoto_below (by decide : 3 < 5) s₂
      · exact writerGoto_below (by decide : 4 < 5) s₂
  | malloc v incomplete => exact returns_throw _ _ _
  | linkNext v incomplete a spare =>
      refine Quiet.bind quiet_get (fun s₁ => Quiet.bind (quiet_writeNext _ a) fun _ => ?_) s
      exact writerGoto_below (by decide : 2 < 3)
  | linkPrev v incomplete a spare =>
      refine Quiet.bind quiet_get (fun s₁ s₂ => ?_) s
      dsimp only
      split_ifs
      · exact Quiet.bind (quiet_writePrev _ _) (fun _ => writerGoto_below (by decide : 1 < 2)) s₂
      · refine Quiet.bind (quiet_readField _ _) (fun target => ?_) s₂
        exact Quiet.bind (quiet_writePrev _ _) fun _ => writerGoto_below (by decide : 1 < 2)
  | moveEnd v incomplete a =>
      refine Quiet.bind quiet_get (fun s₁ => Quiet.bind (quiet_readField _ _) fun next => ?_) s
      exact Quiet.bind (quiet_setWriter fun _ => by rfl) fun _ =>
        finishWrite_below v incomplete (by decide : 0 < 1)
  | moveBack =>
      refine Quiet.bind quiet_get (fun s₁ s₂ => ?_) s
      dsimp only
      split_ifs
      · exact Quiet.bind (quiet_setWriter fun _ => by rfl)
          (fun _ s₃ => writerGoto_below (by decide : 4 < 5) s₃) s₂
      · refine Quiet.bind (quiet_readField _ _) (fun prev => ?_) s₂
        exact Quiet.bind (quiet_setWriter fun _ => by rfl)
          fun _ => writerGoto_below (by decide : 4 < 5)
  | unmoveEnd =>
      refine Quiet.bind quiet_get (fun s₁ s₂ => ?_) s
      dsimp only
      split_ifs
      · exact Quiet.bind (quiet_setWriter fun _ => by rfl)
          (fun _ s₃ => writerGoto_below (by decide : 1 < 4) s₃) s₂
      · refine Quiet.bind (quiet_readField _ _) (fun prev => ?_) s₂
        exact Quiet.bind (quiet_setWriter fun _ => by rfl)
          fun _ => writerGoto_below (by decide : 3 < 4)
  | freeNext =>
      refine Quiet.bind quiet_get (fun s₁ => Quiet.bind (quiet_readField _ _) fun next => ?_) s
      exact Quiet.bind (quiet_freeChunk next) fun _ => writerGoto_below (by decide : 2 < 3)
  | clearNext =>
      refine Quiet.bind quiet_get (fun s₁ => Quiet.bind (quiet_writeNext _ 0) fun _ => ?_) s
      exact writerGoto_below (by decide : 1 < 2)
  | load =>
      refine Quiet.bind quiet_get (fun s₁ => Quiet.bind (quiet_readValue N _) fun v => ?_) s
      exact writerReturn_below _ _ (by decide : 0 < 1)
  | cas =>
      refine Quiet.bind quiet_get (fun s₁ s₂ => ?_) s
      split_ifs
      · refine Quiet.bind (quiet_modify fun _ => by rfl) (fun _ => ?_) s₂
        exact Quiet.bind (quiet_setWriter fun _ => by rfl)
          fun _ => writerReturn_below _ _ (by decide : 0 < 2)
      · exact writerGoto_below (by decide : 1 < 2) s₂
  | set =>
      refine Quiet.bind (quiet_modify fun _ => by rfl) (fun _ => ?_) s
      exact Quiet.bind (quiet_setWriter fun _ => by rfl)
        fun _ => writerReturn_below _ _ (by decide : 0 < 1)

theorem mallocStep_below (a : Nat) (pc : WriterPc α) (s : Sys α) :
    Returns (mallocStep a pc) s fun _ s' => WriterBelow pc.rank s.pcs s'.pcs := by
  cases pc with
  | malloc v incomplete =>
      unfold mallocStep
      dsimp only
      split_ifs
      · exact Quiet.bind (quiet_writeChunk a _) (fun _ => writerGoto_below (by decide : 3 < 4)) s
      · exact writerGoto_below (by decide : 3 < 4) s
  | _ => exact returns_throw _ _ _

/-! ## The reader -/

/-- The reader has fewer than `n` steps left, and the writer is where it was. -/
def ReaderBelow (n : Nat) (before after : WriterPc α × ReaderPc) : Prop :=
  after.2.rank < n ∧ after.1 = before.1

theorem readerGoto_below {pc : ReaderPc} (h : pc.rank < n) (s : Sys α) :
    Returns (readerGoto pc) s fun _ s' => ReaderBelow n s.pcs s'.pcs :=
  ((ok_readerGoto pc).mpr ⟨h, rfl⟩).returns

/-- The reader returns. -/
theorem readerReturn_below {f : Reader → Reader} (shown : Shown α)
    (h : ∀ rd, (f rd).pc.rank < n) (s : Sys α) :
    Returns (do setReader f; return shown) s fun _ s' => ReaderBelow n s.pcs s'.pcs := by
  refine returns_bind (returns_modify (returns_pure ?_))
  exact ⟨h s.reader, rfl⟩

theorem finishCheck_below (purpose : Purpose) (found : Bool) (h : 5 < n) (s : Sys α) :
    Returns (finishCheck purpose found) s fun _ s' => ReaderBelow n s.pcs s'.pcs := by
  have hpos : 0 < n := by omega
  cases purpose with
  | check => exact readerReturn_below _ (fun _ => hpos) s
  | read =>
      unfold finishCheck
      dsimp only
      split_ifs
      · exact readerGoto_below h s
      · exact readerReturn_below _ (fun _ => hpos) s

/-- A step of the reader lowers its rank. -/
theorem readerStep_below (N : Nat) (pc : ReaderPc) (s : Sys α) :
    Returns (readerStep N pc) s fun _ s' => ReaderBelow pc.rank s.pcs s'.pcs := by
  cases pc with
  | out => exact returns_throw _ _ _
  | prefetch purpose =>
      refine Quiet.bind quiet_get (fun s₁ s₂ => ?_) s
      dsimp only
      split_ifs
      · refine Quiet.bind (quiet_modify fun _ => by rfl) (fun _ => ?_) s₂
        exact Quiet.bind (quiet_setReader fun _ => by rfl)
          fun _ => finishCheck_below purpose _ (by decide : 5 < 6)
      · refine Quiet.bind (quiet_setReader fun _ => by rfl) (fun _ => ?_) s₂
        exact finishCheck_below purpose _ (by decide : 5 < 6)
  | load =>
      refine Quiet.bind quiet_get (fun s₁ => Quiet.bind (quiet_readValue N _) fun v => ?_) s
      refine readerReturn_below _ fun rd => ?_
      show (if rd.beginPos + 1 = N then ReaderPc.moveBegin else .out).rank < 5
      split_ifs <;> decide
  | moveBegin =>
      refine Quiet.bind quiet_get (fun s₁ => Quiet.bind (quiet_readField _ _) fun next => ?_) s
      exact Quiet.bind (quiet_setReader fun _ => by rfl)
        fun _ => readerGoto_below (by decide : 3 < 4)
  | clearPrev a =>
      refine Quiet.bind quiet_get (fun s₁ => Quiet.bind (quiet_writePrev _ 0) fun _ => ?_) s
      exact Quiet.bind (quiet_setReader fun _ => by rfl)
        fun _ => readerGoto_below (by decide : 2 < 3)
  | putSpare a =>
      refine Quiet.bind quiet_get
        (fun s₁ => Quiet.bind (quiet_modify fun _ => by rfl) fun _ => ?_) s
      exact readerGoto_below (by decide : 1 < 2)
  | free a => exact Quiet.bind (quiet_freeChunk a) (fun _ => readerGoto_below (by decide : 0 < 1)) s

/-! ## Both -/

/-- A call of the writer leaves the reader where it was. -/
theorem writerCall_reader {c : Exec (Sys α) (Shown α)} {s : Sys α}
    (h : Returns c s fun _ s' => WriterBelow n s.pcs s'.pcs) :
    Returns (writerCall c) s fun _ s' => s'.reader.pc = s.reader.pc := by
  intro x s' hrun
  exact (h x s' (run_await_ok.mp hrun).2).2

/-- A call of the reader leaves the writer where it was. -/
theorem readerCall_writer (purpose : Purpose) (s : Sys α) :
    Returns (readerCall purpose) s fun _ s' => s'.writer.pc = s.writer.pc := by
  intro x s' hrun
  refine (Quiet.bind quiet_get (fun s₁ s₂ => ?_) s x s' (run_await_ok.mp hrun).2 :
    ReaderBelow 7 s.pcs s'.pcs).2
  dsimp only
  split_ifs
  · exact finishCheck_below purpose true (by decide) s₂
  · exact readerGoto_below (by decide : 6 < 7) s₂

/-- **A step** of one thread lowers the rank of that thread, unless it is a call, and does not
change that of the other. -/
theorem step_rank {N : Nat} {o : Step α} {s s' : Sys α} {shown : Shown α}
    (hrun : (step N o).run s = .ok (shown, s')) (t : Thread) :
    (o.thread = t → o.isCall = false → s'.rank t < s.rank t) ∧
    (o.thread ≠ t → s'.rank t = s.rank t) := by
  -- what is known of the place of one thread is enough
  have hwriter : s'.reader.pc = s.reader.pc → .writer ≠ t → s'.rank t = s.rank t := by
    intro hpc hne
    cases t with
    | writer => exact absurd rfl hne
    | reader => exact congrArg ReaderPc.rank hpc
  have hreader : s'.writer.pc = s.writer.pc → .reader ≠ t → s'.rank t = s.rank t := by
    intro hpc hne
    cases t with
    | writer => exact congrArg WriterPc.rank hpc
    | reader => exact absurd rfl hne
  have hwriterBelow : WriterBelow s.writer.pc.rank s.pcs s'.pcs → .writer = t →
      s'.rank t < s.rank t := by
    rintro hbelow rfl
    exact hbelow.1
  have hreaderBelow : ReaderBelow s.reader.pc.rank s.pcs s'.pcs → .reader = t →
      s'.rank t < s.rank t := by
    rintro hbelow rfl
    exact hbelow.1
  cases o with
  | write v incomplete =>
      refine ⟨fun _ hcall => (by cases hcall), hwriter ?_⟩
      exact writerCall_reader (writerGoto_below (Nat.lt_succ_self _) s) _ _ hrun
  | unwrite =>
      refine ⟨fun _ hcall => (by cases hcall), hwriter (writerCall_reader (n := 6) ?_ _ _ hrun)⟩
      refine Quiet.bind quiet_get (fun s₁ s₂ => ?_) s
      dsimp only
      split_ifs
      · exact writerReturn_below _ _ (by decide) s₂
      · exact writerGoto_below (by decide : 5 < 6) s₂
  | flush =>
      refine ⟨fun _ hcall => (by cases hcall), hwriter (writerCall_reader (n := 6) ?_ _ _ hrun)⟩
      refine Quiet.bind quiet_get (fun s₁ s₂ => ?_) s
      dsimp only
      split_ifs
      · exact writerReturn_below _ _ (by decide) s₂
      · exact writerGoto_below (by decide : 2 < 6) s₂
  | checkRead =>
      exact ⟨fun _ hcall => (by cases hcall), hreader (readerCall_writer .check s _ _ hrun)⟩
  | read => exact ⟨fun _ hcall => (by cases hcall), hreader (readerCall_writer .read s _ _ hrun)⟩
  | writer =>
      have hstep : Returns (step N (.writer : Step α)) s
          fun _ s' => WriterBelow s.writer.pc.rank s.pcs s'.pcs :=
        returns_get_bind (writerStep_below N s.writer.pc s)
      have hbelow := hstep _ _ hrun
      exact ⟨fun ht _ => hwriterBelow hbelow ht, hwriter hbelow.2⟩
  | malloc a =>
      have hstep : Returns (do mallocStep a (← get).writer.pc) s fun _ s' =>
          WriterBelow s.writer.pc.rank s.pcs s'.pcs :=
        returns_get_bind (mallocStep_below a s.writer.pc s)
      have hbelow := hstep _ _ (run_await_ok.mp hrun).2
      exact ⟨fun ht _ => hwriterBelow hbelow ht, hwriter hbelow.2⟩
  | reader =>
      have hstep : Returns (step N (.reader : Step α)) s
          fun _ s' => ReaderBelow s.reader.pc.rank s.pcs s'.pcs :=
        returns_get_bind (readerStep_below N s.reader.pc s)
      have hbelow := hstep _ _ hrun
      exact ⟨fun ht _ => hreaderBelow hbelow ht, hreader hbelow.2⟩

/-- The steps of a thread in a run without a call of it. -/
theorem count_steps_le {N : Nat} (t : Thread) :
    ∀ {steps : List (Step α)} {s s' : Sys α} {shown : List (Shown α)},
      (∀ o ∈ steps, o.thread = t → o.isCall = false) →
      (runAll (step N) steps).run s = .ok (shown, s') →
        steps.countP (fun o => o.thread = t) + s'.rank t ≤ s.rank t := by
  intro steps
  induction steps with
  | nil =>
      intro s s' shown _ hrun
      cases hrun
      exact (Nat.zero_add _).le
  | cons o steps ih =>
      intro s s' shown hcalls hrun
      obtain ⟨r, s₁, rest, ho, hrest, rfl⟩ := runAll_cons_ok.mp hrun
      have hle := ih (fun o' ho' => hcalls o' (List.mem_cons_of_mem o ho')) hrest
      obtain ⟨hown, hother⟩ := step_rank ho t
      rw [List.countP_cons]
      by_cases ht : o.thread = t
      · have := hown ht (hcalls o List.mem_cons_self ht)
        simp only [ht, decide_true, if_true]
        omega
      · have := hother ht
        simp only [ht, decide_false, Bool.false_eq_true, if_false]
        omega

theorem rank_le (s : Sys α) (t : Thread) : s.rank t ≤ 6 := by
  cases t with
  | writer =>
      show s.writer.pc.rank ≤ 6
      cases s.writer.pc <;> simp [WriterPc.rank]
  | reader =>
      show s.reader.pc.rank ≤ 6
      cases s.reader.pc <;> simp [ReaderPc.rank]

/-- The thread is outside. -/
def Sys.isOut (s : Sys α) : Thread → Bool
  | .writer => s.writer.pc.isOut
  | .reader => s.reader.pc.isOut

/-- A thread that is inside can go on: with `malloc` where it needs a chunk, which may be
anywhere. -/
theorem can_step_of_inv {N : Nat} (hN : 0 < N) {s : Sys α} {p : Pipe α} {g : Layout}
    (h : Inv N s p g) {t : Thread} (hout : s.isOut t = false) {x : Nat} (hx : x ≠ 0)
    (hfree : s.heap x = none) :
    ∃ o, o.thread = t ∧ o.isCall = false ∧ Ok (step N o) s (Keeps N p) := by
  cases t with
  | reader => exact ⟨.reader, rfl, rfl, by rw [step, ok_bind, ok_get]; exact h.readerStep hN hout⟩
  | writer =>
      by_cases hmalloc : s.writer.pc.isMalloc = true
      · refine ⟨.malloc x, rfl, rfl, ?_⟩
        obtain ⟨shown, s', hrun, hkeeps⟩ := h.mallocStep hN hx hfree hmalloc
        refine ⟨shown, s', ?_, hkeeps⟩
        rw [step, run_await_ok]
        exact ⟨Option.isNone_iff_eq_none.mpr hfree, hrun⟩
      · rw [Bool.not_eq_true] at hmalloc
        exact ⟨.writer, rfl, rfl, by rw [step, ok_bind, ok_get]; exact h.writerStep hN hout hmalloc⟩

/-- **The calls are wait-free.** Behind any run, let the threads go on with `more`, in which the
thread `t` makes no new call. Then `t` takes at most six steps, whatever the other thread does; and
while it is inside a call, its next step can be taken. -/
theorem calls_wait_free (N a b : Nat) (hN : 0 < N) (ha : a ≠ 0) (hb : b ≠ 0) (hab : a ≠ b)
    (steps more : List (Step α)) (hsteps : ∀ o ∈ steps ++ more, o.Allocates)
    (shown shown' : List (Shown α)) (s s' : Sys α)
    (hrun : (runAll (step N) steps).run (start α N a b) = .ok (shown, s))
    (hmore : (runAll (step N) more).run s = .ok (shown', s')) (t : Thread)
    (hcalls : ∀ o ∈ more, o.thread = t → o.isCall = false) :
    more.countP (fun o => o.thread = t) ≤ 6 ∧
      (s'.isOut t = false → ∀ x, x ≠ 0 → s'.heap x = none →
        ∃ o, o.thread = t ∧ o.isCall = false ∧ ∃ shown'' s'',
          (step N o).run s' = .ok (shown'', s'')) := by
  have hleft : ∀ o ∈ steps, o.Allocates := fun o ho => hsteps o (List.mem_append_left _ ho)
  have hright : ∀ o ∈ more, o.Allocates := fun o ho => hsteps o (List.mem_append_right _ ho)
  have hstands := (runAll_simulates (Stands.step hN) hleft (inv_start α hN ha hb hab) hrun).2
  obtain ⟨g, hinv⟩ := (runAll_simulates (Stands.step hN) hright hstands hmore).2
  constructor
  · have hcount := count_steps_le t hcalls hmore
    have hrank := rank_le s t
    omega
  · intro hout x hx hfree
    obtain ⟨o, ho, ho', shown'', s'', hstep, -⟩ := can_step_of_inv hN hinv hout hx hfree
    exact ⟨o, ho, ho', shown'', s'', hstep⟩

/-- The writer is in `write`, and the reader calls `read` and returns in between. -/
theorem calls_wait_free_write :
    ∃ shown s shown' s',
      (runAll (step 2) [.write 5 false]).run (start Nat 2 8 16) = .ok (shown, s) ∧
      (runAll (step 2) [.writer, .read, .writer, .reader]).run s = .ok (shown', s') ∧
      s'.isOut .writer = false ∧
      [(.writer : Step Nat), .read, .writer, .reader].countP (fun o => o.thread = .writer) ≤ 6 ∧
      (s'.isOut .writer = false → ∀ x, x ≠ 0 → s'.heap x = none →
        ∃ o, o.thread = .writer ∧ o.isCall = false ∧ ∃ shown'' s'',
          (step 2 o).run s' = .ok (shown'', s'')) :=
  ⟨_, _, _, _, rfl, rfl, rfl, calls_wait_free 2 8 16 (by decide) (by decide) (by decide) (by decide)
    [.write 5 false] [.writer, .read, .writer, .reader]
    (by simp [Step.Allocates]) _ _ _ _ rfl rfl .writer
    (by simp [Step.thread, Step.isCall])⟩

end KvStore.Ypipe
