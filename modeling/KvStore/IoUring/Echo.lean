import KvStore.IoUring.Model

set_option autoImplicit false

/-! # What the echo server sends back

A message waits to be echoed from the completion of its `recv` to the completion of the `send` that
this triggers. In between it is only in the shared buffer, and the next `recv` to complete
overwrites it, also when that is one of another client: the first client gets the bytes of the
second (`echo_mixed`). In a run in which every `recv` that completes agrees with the messages that
still wait, in the bytes it overwrites, every client gets its own bytes back (`echo_own_bytes`). -/

namespace KvStore.IoUring

open KvStore.Lib

/-- The message that the handling of a completion will send back. -/
def Cqe.echo (cqe : Cqe) : Option Received :=
  if cqe.info.event = .read ∧ 0 < cqe.res then some cqe.received else none

/-- The message that an operation sends back. -/
def Op.echo : Op → Option Received
  | .send _ _ trigger => some trigger
  | _ => none

/-- The messages that wait to be echoed. -/
def Sys.waiting (s : Sys) : List Received :=
  s.completions.filterMap Cqe.echo ++ s.inFlight.filterMap Op.echo

/-- The `recv` that completes overwrites the waiting messages with their own bytes only; in
particular this holds when none waits. -/
def Harmless (s : Sys) : Step → Prop
  | .complete _ (.arrived data) => ∀ r ∈ s.waiting, data <+: r.bytes ∨ r.bytes <+: data
  | _ => True

/-! ## The invariant -/

/-- A completion that is handled with an echo is about the bytes of its own `recv`. -/
def Cqe.Sound (cqe : Cqe) : Prop :=
  ∀ r ∈ cqe.echo, cqe.res = r.bytes.length ∧ r.fd = cqe.info.fd

/-- A `send` sends as many bytes as its `recv` has brought, on the same connection. -/
def Op.Sound : Op → Prop
  | .send fd len trigger => len = trigger.bytes.length ∧ trigger.fd = fd
  | _ => True

/-- The client got its own bytes back. -/
def Sent.Own (e : Sent) : Prop := e.trigger.fd = e.fd ∧ e.bytes = e.trigger.bytes

structure Inv (s : Sys) : Prop where
  completions : ∀ cqe ∈ s.completions, cqe.Sound
  inFlight : ∀ op ∈ s.inFlight, op.Sound
  /-- The messages that wait are in the buffer. -/
  waiting : ∀ r ∈ s.waiting, s.buffer.take r.bytes.length = r.bytes
  transmitted : ∀ e ∈ s.transmitted, e.Own

section Steps

variable {listenFd : Int} {s s' : Sys}

/-! ## The server -/

/-- An operation is submitted that is about a message of the buffer, or about none. -/
theorem Inv.setEvent (h : Inv s) (sqe : Bool) (op : Op) (hop : op.Sound)
    (hecho : ∀ r ∈ op.echo, s.buffer.take r.bytes.length = r.bytes) : Inv (s.setEvent sqe op) := by
  cases sqe with
  | false => exact h
  | true =>
      refine ⟨h.completions, fun op' hop' => ?_, fun r hr => ?_, h.transmitted⟩
      · rcases List.mem_append.mp hop' with hold | hnew
        · exact h.inFlight op' hold
        · rw [List.mem_singleton.mp hnew]
          exact hop
      · change r ∈ s.completions.filterMap Cqe.echo ++ (s.inFlight ++ [op]).filterMap Op.echo at hr
        rw [List.filterMap_append, ← List.append_assoc] at hr
        rcases List.mem_append.mp hr with hold | hnew
        · exact h.waiting r hold
        · obtain ⟨op', hop', hr'⟩ := List.mem_filterMap.mp hnew
          rw [List.mem_singleton.mp hop'] at hr'
          exact hecho r hr'

theorem Inv.setRecv (h : Inv s) (sqe : Bool) (fd : Int) :
    Inv (s.setEvent sqe (.recv fd bufferLength)) :=
  h.setEvent sqe _ trivial fun _ hr => by cases hr

theorem Inv.handle (h : Inv s) (listenFd : Int) (first second : Bool) {cqe : Cqe}
    (hcqe : cqe ∈ s.completions) : Inv (handle listenFd first second cqe s) := by
  unfold IoUring.handle
  cases hevent : cqe.info.event with
  | accept =>
      dsimp only
      split_ifs
      · exact (h.setEvent first (.accept listenFd) trivial fun _ hr => by cases hr).setRecv second _
      · exact h
  | read =>
      dsimp only
      split_ifs with hres
      · exact h
      · have hecho : cqe.echo = some cqe.received := if_pos ⟨hevent, not_le.mp hres⟩
        obtain ⟨hlen, hfd⟩ := h.completions cqe hcqe _ hecho
        refine h.setEvent first _ ⟨by rw [hlen, Int.toNat_natCast], hfd⟩ fun r hr => ?_
        cases hr
        exact h.waiting _ (List.mem_append_left _ (List.mem_filterMap.mpr ⟨cqe, hcqe, hecho⟩))
  | write => exact h.setRecv first _

/-- The server takes the first completion out of its queue. -/
theorem Inv.dropCompletion (h : Inv s) {rest : List Cqe} (hrest : rest ⊆ s.completions) :
    Inv { s with completions := rest } := by
  refine ⟨fun cqe hcqe => h.completions cqe (hrest hcqe), h.inFlight, fun r hr => ?_, h.transmitted⟩
  rcases List.mem_append.mp hr with hcqe | hop
  · obtain ⟨cqe, hmem, hr'⟩ := List.mem_filterMap.mp hcqe
    exact h.waiting r (List.mem_append_left _ (List.mem_filterMap.mpr ⟨cqe, hrest hmem, hr'⟩))
  · exact h.waiting r (List.mem_append_right _ hop)

theorem completions_handle (first second : Bool) (cqe : Cqe) (s : Sys) :
    (handle listenFd first second cqe s).completions = s.completions := by
  have hset : ∀ sqe op (s : Sys), (s.setEvent sqe op).completions = s.completions := by
    intro sqe op s
    cases sqe <;> rfl
  unfold IoUring.handle
  cases cqe.info.event with
  | accept =>
      dsimp only
      split_ifs
      · rw [hset, hset]
      · rfl
  | read =>
      dsimp only
      split_ifs
      · rfl
      · rw [hset]
  | write => rw [hset]

theorem Inv.iterate (h : Inv s) (first second : Bool) : Inv (iterate listenFd first second s) := by
  unfold IoUring.iterate
  cases hcompletions : s.completions with
  | nil => exact h
  | cons cqe rest =>
      have hhandle := h.handle listenFd first second (hcompletions ▸ List.mem_cons_self)
      refine hhandle.dropCompletion ?_
      rw [completions_handle, hcompletions]
      exact List.subset_cons_self cqe rest

/-! ## The kernel -/

/-- A message keeps its place in the buffer when what overwrites it agrees with it. -/
theorem take_fill {buffer data b : List UInt8} (hb : buffer.take b.length = b)
    (h : data <+: b ∨ b <+: data) : (fill buffer data).take b.length = b := by
  rcases h with ⟨c, rfl⟩ | ⟨c, rfl⟩
  · -- the rest of the message is behind what is overwritten
    have hrest : (buffer.drop data.length).take c.length = c := by
      have hdrop := congrArg (List.drop data.length) hb
      rwa [List.drop_take, List.length_append, Nat.add_sub_cancel_left, List.drop_left] at hdrop
    rw [fill, List.length_append, List.take_length_add_append, hrest]
  · rw [fill, List.append_assoc, List.take_left]

theorem waiting_eraseIdx (s : Sys) (k : Nat) :
    ∀ r ∈ ({ s with inFlight := s.inFlight.eraseIdx k } : Sys).waiting, r ∈ s.waiting := by
  intro r hr
  rcases List.mem_append.mp hr with hcqe | hop
  · exact List.mem_append_left _ hcqe
  · obtain ⟨op, hmem, hr'⟩ := List.mem_filterMap.mp hop
    have hop' := (List.eraseIdx_sublist s.inFlight k).subset hmem
    exact List.mem_append_right _ (List.mem_filterMap.mpr ⟨op, hop', hr'⟩)

/-- An operation is in flight no more. -/
theorem Inv.eraseIdx (h : Inv s) (k : Nat) : Inv { s with inFlight := s.inFlight.eraseIdx k } :=
  ⟨h.completions, fun op hop => h.inFlight op ((List.eraseIdx_sublist s.inFlight k).subset hop),
    fun r hr => h.waiting r (waiting_eraseIdx s k r hr), h.transmitted⟩

/-- A completion is queued; the buffer may have changed with it. -/
theorem Inv.queue (h : Inv s) {buffer : List UInt8} {cqe : Cqe} (hcqe : cqe.Sound)
    (hbuffer : ∀ r ∈ s.waiting, buffer.take r.bytes.length = r.bytes)
    (hnew : ∀ r ∈ cqe.echo, buffer.take r.bytes.length = r.bytes) :
    Inv { s with buffer := buffer, completions := s.completions ++ [cqe] } := by
  refine ⟨fun cqe' hcqe' => ?_, h.inFlight, fun r hr => ?_, h.transmitted⟩
  · rcases List.mem_append.mp hcqe' with hold | hlast
    · exact h.completions cqe' hold
    · rw [List.mem_singleton.mp hlast]
      exact hcqe
  · change r ∈ (s.completions ++ [cqe]).filterMap Cqe.echo ++ s.inFlight.filterMap Op.echo at hr
    rw [List.filterMap_append, List.append_assoc] at hr
    rcases List.mem_append.mp hr with hold | hr
    · exact hbuffer r (List.mem_append_left _ hold)
    · rcases List.mem_append.mp hr with hlast | hop
      · obtain ⟨cqe', hcqe', hr'⟩ := List.mem_filterMap.mp hlast
        rw [List.mem_singleton.mp hcqe'] at hr'
        exact hnew r hr'
      · exact hbuffer r (List.mem_append_right _ hop)

/-- A completion that triggers no `send`. -/
theorem Inv.queueSilent (h : Inv s) (cqe : Cqe) (hcqe : cqe.echo = none) :
    Inv { s with completions := s.completions ++ [cqe] } :=
  h.queue (fun r hr => by rw [hcqe] at hr; cases hr) h.waiting fun r hr => by
    rw [hcqe] at hr; cases hr

theorem Inv.arrived (h : Inv s) (fd : Int) (data : List UInt8)
    (hharmless : ∀ r ∈ s.waiting, data <+: r.bytes ∨ r.bytes <+: data) :
    Inv { s with
      buffer := fill s.buffer data
      completions := s.completions ++ [⟨⟨fd, .read⟩, data.length, ⟨fd, data⟩⟩] } := by
  have hecho : ∀ r ∈ (⟨⟨fd, .read⟩, data.length, ⟨fd, data⟩⟩ : Cqe).echo, r = ⟨fd, data⟩ := by
    intro r hr
    simp only [Cqe.echo] at hr
    split_ifs at hr
    · exact (Option.some.inj hr).symm
    · cases hr
  refine h.queue (fun r hr => ?_) (fun r hr => take_fill (h.waiting r hr) (hharmless r hr))
    fun r hr => ?_
  · rw [hecho r hr]
    exact ⟨rfl, rfl⟩
  · rw [hecho r hr]
    exact List.take_left

/-- A `send` reads the buffer while its message is in it. -/
theorem Inv.sent (h : Inv s) {fd : Int} {len : Nat} {trigger : Received}
    (hop : (.send fd len trigger : Op).Sound)
    (hbuffer : s.buffer.take trigger.bytes.length = trigger.bytes) :
    Inv { s with
      transmitted := s.transmitted ++ [⟨fd, s.buffer.take len, trigger⟩]
      completions := s.completions ++ [⟨⟨fd, .write⟩, len, ⟨fd, []⟩⟩] } := by
  have hqueue := h.queueSilent ⟨⟨fd, .write⟩, len, ⟨fd, []⟩⟩ rfl
  refine ⟨hqueue.completions, hqueue.inFlight, hqueue.waiting, fun e he => ?_⟩
  rcases List.mem_append.mp he with hold | hlast
  · exact h.transmitted e hold
  · rw [List.mem_singleton.mp hlast]
    exact ⟨hop.2, by rw [hop.1]; exact hbuffer⟩

theorem Inv.complete (h : Inv s) {k : Nat} {out : Outcome} (hcompletes : Completes k out s)
    (hharmless : Harmless s (.complete k out)) : Inv (complete k out s) := by
  obtain ⟨op, hop, hallows⟩ := hcompletes
  have hmem : op ∈ s.inFlight := List.mem_of_getElem? hop
  rw [IoUring.complete, hop]
  cases op with
  | accept fd =>
      cases out with
      | accepted connfd => exact (h.eraseIdx k).queueSilent _ rfl
      | _ => exact False.elim hallows
  | recv fd len =>
      cases out with
      | arrived data =>
          exact (h.eraseIdx k).arrived fd data fun r hr => hharmless r (waiting_eraseIdx s k r hr)
      | ended res =>
          exact (h.eraseIdx k).queueSilent _
            (if_neg fun hecho => absurd hecho.2 (not_lt.mpr hallows))
      | _ => exact False.elim hallows
  | send fd len trigger =>
      cases out with
      | sent =>
          refine (h.eraseIdx k).sent (h.inFlight _ hmem) (h.waiting trigger ?_)
          exact List.mem_append_right _ (List.mem_filterMap.mpr ⟨_, hmem, rfl⟩)
      | _ => exact False.elim hallows

theorem Inv.step (h : Inv s) {o : Step} {u : Unit} (hharmless : Harmless s o)
    (hrun : (step listenFd o).run s = .ok (u, s')) : Inv s' := by
  cases o with
  | iterate first second =>
      obtain ⟨-, rfl⟩ := run_act_ok.mp hrun
      exact h.iterate first second
  | complete k out =>
      obtain ⟨hcompletes, rfl⟩ := run_act_ok.mp hrun
      exact h.complete hcompletes hharmless

theorem inv_start (listenFd : Int) : Inv (start listenFd) := by
  refine ⟨fun _ hcqe => absurd hcqe List.not_mem_nil, fun op hop => ?_,
    fun _ hr => absurd hr List.not_mem_nil, fun _ he => absurd he List.not_mem_nil⟩
  rw [List.mem_singleton.mp hop]
  trivial

end Steps

/-- **Every client gets its own bytes back**, in every run in which no `recv` overwrites a message
that waits with other bytes. -/
theorem echo_own_bytes (listenFd : Int) (ops : List Step)
    (hharmless : AllSteps (step listenFd) Harmless (start listenFd) ops) (rs : List Unit) (s : Sys)
    (hrun : (runAll (step listenFd) ops).run (start listenFd) = .ok (rs, s)) :
    ∀ e ∈ s.transmitted, e.trigger.fd = e.fd ∧ e.bytes = e.trigger.bytes :=
  (AllSteps.invariant (fun _ _ _ _ h hP hstep => h.step hP hstep) (inv_start listenFd) hharmless
    hrun).transmitted

/-- Two clients are accepted, as `5` and `6`; both have a `recv` in flight. -/
def twoClients : List Step :=
  [.complete 0 (.accepted 5), .iterate true true, .complete 0 (.accepted 6), .iterate true true]

/-- The first client sends `1` and is answered; then the second one sends `2`. -/
def inTurn : List Step :=
  twoClients ++ [.complete 0 (.arrived [1]), .iterate true true, .complete 2 .sent,
    .complete 1 (.arrived [2])]

theorem harmless_inTurn : AllSteps (step 3) Harmless (start 3) inTurn := by
  refine allSteps_cons trivial rfl (allSteps_cons trivial rfl (allSteps_cons trivial rfl
    (allSteps_cons trivial rfl (allSteps_cons (fun r hr => ?_) rfl (allSteps_cons trivial rfl
      (allSteps_cons trivial rfl (allSteps_cons (fun r hr => ?_) rfl trivial)))))))
  · cases hr
  · cases hr

theorem echo_own_bytes_sample :
    AllSteps (step 3) Harmless (start 3) inTurn ∧
      ∃ rs s, (runAll (step 3) inTurn).run (start 3) = .ok (rs, s) ∧
        ∀ e ∈ s.transmitted, e.trigger.fd = e.fd ∧ e.bytes = e.trigger.bytes :=
  ⟨harmless_inTurn, _, _, rfl, echo_own_bytes 3 inTurn harmless_inTurn _ _ rfl⟩

/-- The second client sends `2` before the first is answered. -/
def crossed : List Step :=
  twoClients ++ [.complete 0 (.arrived [1]), .complete 1 (.arrived [2]), .iterate true true,
    .complete 1 .sent]

/-- The first client sent `1`, and gets `2` back. -/
theorem echo_mixed :
    ((runAll (step 3) crossed).run (start 3)).toOption.map (fun r => r.2.transmitted) =
        some [⟨5, [2], ⟨5, [1]⟩⟩] ∧
      ¬(⟨5, [2], ⟨5, [1]⟩⟩ : Sent).bytes = (⟨5, [2], ⟨5, [1]⟩⟩ : Sent).trigger.bytes := by
  decide +kernel

end KvStore.IoUring
