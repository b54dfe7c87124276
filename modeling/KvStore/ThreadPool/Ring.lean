import Mathlib.Data.List.ReduceOption
import KvStore.Lib.Ring
import KvStore.ThreadPool.Model

set_option autoImplicit false

/-! # The queue of the thread pool

With critical sections as steps, the ring holds the tasks that have been accepted and not yet taken,
in the order in which they were accepted. `Effect` says what each event means for the pool;
everything about runs is derived from it (`History`), and `tasks_taken_once_in_order` puts it
together. -/

namespace KvStore.ThreadPool

open Function KvStore.Lib

/-! ## The ring -/

/-- The tasks in the queue, first to last. -/
def Pool.contents (pool : Pool) : List Task :=
  ringList pool.queue pool.queueSize.toNat pool.head.toNat pool.count.toNat

/-- **The ring is sound.** -/
structure RingOk (pool : Pool) : Prop where
  head_nonneg : 0 ≤ pool.head
  head_lt : pool.head < pool.queueSize
  count_nonneg : 0 ≤ pool.count
  count_le : pool.count ≤ pool.queueSize
  tail_eq : pool.tail = (pool.head + pool.count) % pool.queueSize

variable {pool : Pool}

theorem ringOk_create {threadCount queueSize : Int} {queue : Nat → Task}
    (h : threadpoolCreate threadCount queueSize queue = some pool) :
    RingOk pool ∧ pool.contents = [] := by
  unfold threadpoolCreate at h
  split_ifs at h with hbad
  obtain rfl := Option.some.inj h
  have hpos : 0 < queueSize := by omega
  exact ⟨⟨le_refl _, hpos, le_refl _, hpos.le, (Int.zero_emod _).symm⟩, rfl⟩

section Sections

variable {pool : Pool}

theorem RingOk.size_pos (h : RingOk pool) : 0 < pool.queueSize := lt_of_le_of_lt h.1 h.2

theorem RingOk.tail_bounds (h : RingOk pool) : 0 ≤ pool.tail ∧ pool.tail < pool.queueSize := by
  rw [h.tail_eq]
  exact ⟨Int.emod_nonneg _ h.size_pos.ne', Int.emod_lt_of_pos _ h.size_pos⟩

/-- The ring after a task has been written behind the last one. -/
def Pool.push (pool : Pool) (task : Task) : Pool :=
  { pool with
    queue := update pool.queue pool.tail.toNat task
    tail := (pool.tail + 1).tmod pool.queueSize
    count := pool.count + 1 }

/-- The ring after its first task has been read. -/
def Pool.pop (pool : Pool) : Pool :=
  { pool with head := (pool.head + 1).tmod pool.queueSize, count := pool.count - 1 }

theorem RingOk.push (h : RingOk pool) (hfull : pool.count ≠ pool.queueSize) (task : Task) :
    RingOk (pool.push task) ∧ (pool.push task).contents = pool.contents ++ [task] := by
  have hcount := h.count_nonneg
  have hle := h.count_le
  have htail := h.tail_bounds
  have hnext : (pool.tail + 1).tmod pool.queueSize =
      (pool.head + (pool.count + 1)) % pool.queueSize := by
    rw [Int.tmod_eq_emod_of_nonneg (by omega), h.tail_eq, Int.emod_add_emod, add_assoc]
  refine ⟨⟨h.head_nonneg, h.head_lt, ?_, ?_, hnext⟩, ?_⟩
  · show 0 ≤ pool.count + 1
    omega
  · show pool.count + 1 ≤ pool.queueSize
    omega
  · have hcell : pool.tail.toNat = (pool.head.toNat + pool.count.toNat) % pool.queueSize.toNat := by
      rw [h.tail_eq, Int.toNat_emod (by have := h.head_nonneg; omega) h.size_pos.le,
        Int.toNat_add h.head_nonneg hcount]
    have hsucc : (pool.count + 1).toNat = pool.count.toNat + 1 := by omega
    show ringList (update pool.queue pool.tail.toNat task) pool.queueSize.toNat
      pool.head.toNat (pool.count + 1).toNat = _
    rw [hcell, hsucc, ringList_push (by omega)]
    rfl

theorem RingOk.pop (h : RingOk pool) (hne : pool.count ≠ 0) :
    RingOk pool.pop ∧ pool.contents = pool.queue pool.head.toNat :: pool.pop.contents := by
  have hhead := h.head_nonneg
  have hlt := h.head_lt
  have hcount := h.count_nonneg
  have hle := h.count_le
  have hnext : (pool.head + 1).tmod pool.queueSize = (pool.head + 1) % pool.queueSize :=
    Int.tmod_eq_emod_of_nonneg (by omega)
  refine ⟨⟨?_, ?_, ?_, ?_, ?_⟩, ?_⟩
  · show 0 ≤ (pool.head + 1).tmod pool.queueSize
    rw [hnext]
    exact Int.emod_nonneg _ h.size_pos.ne'
  · show (pool.head + 1).tmod pool.queueSize < pool.queueSize
    rw [hnext]
    exact Int.emod_lt_of_pos _ h.size_pos
  · show 0 ≤ pool.count - 1
    omega
  · show pool.count - 1 ≤ pool.queueSize
    omega
  · show pool.tail = ((pool.head + 1).tmod pool.queueSize + (pool.count - 1)) % pool.queueSize
    rw [hnext, Int.emod_add_emod, h.tail_eq]
    congr 1
    omega
  · have hpred : pool.count.toNat = (pool.count - 1).toNat + 1 := by omega
    have hcell : ((pool.head + 1).tmod pool.queueSize).toNat =
        (pool.head.toNat + 1) % pool.queueSize.toNat := by
      rw [hnext, Int.toNat_emod (by omega) h.size_pos.le, Int.toNat_add hhead (by omega)]
      rfl
    show ringList _ _ _ pool.count.toNat
      = _ :: ringList _ _ ((pool.head + 1).tmod pool.queueSize).toNat _
    rw [hcell, hpred, ringList_pop (by omega)]
    rfl

/-! ## What the sections do -/

theorem ok_readQueue {i : Int} {Q : Task → Pool → Prop} (hi : 0 ≤ i ∧ i < pool.queueSize)
    (h : Q (pool.queue i.toNat) pool) : Ok (readQueue i) pool Q := by
  unfold readQueue
  rw [ok_bind, ok_get, if_pos hi, ok_pure]
  exact h

theorem ok_writeQueue {i : Int} {task : Task} {Q : Unit → Pool → Prop}
    (hi : 0 ≤ i ∧ i < pool.queueSize)
    (h : Q () { pool with queue := update pool.queue i.toNat task }) :
    Ok (writeQueue i task) pool Q := by
  unfold writeQueue
  rw [ok_bind, ok_get, if_pos hi, ok_set]
  exact h

/-- **`threadpool_add`** enqueues the task and returns `0`, or leaves the pool as it is. -/
theorem ok_addSection (h : RingOk pool) (task : Task) :
    Ok (addSection task) pool fun err pool' =>
      (err = .ok ∧ pool.shutdown = .none ∧ pool.count ≠ pool.queueSize ∧ pool' = pool.push task) ∨
        (err ≠ .ok ∧ pool' = pool) := by
  unfold addSection
  rw [ok_bind, ok_get]
  split_ifs with hfull hshut
  · rw [ok_pure]
    exact Or.inr ⟨by decide, rfl⟩
  · rw [ok_pure]
    exact Or.inr ⟨by decide, rfl⟩
  · rw [ok_bind]
    refine ok_writeQueue h.tail_bounds ?_
    rw [ok_bind, ok_modify, ok_pure]
    exact Or.inl ⟨rfl, not_not.mp hshut, hfull, rfl⟩

/-- **A section of a worker** waits, takes the first task, or ends the worker: with a graceful
shutdown, only when the queue is empty. -/
theorem ok_threadSection (h : RingOk pool) :
    Ok threadSection pool fun looked pool' =>
      (looked = .wait ∧ pool' = pool) ∨
      (looked = .exit ∧ (pool.shutdown = .graceful → pool.count = 0) ∧
        pool' = { pool with started := pool.started - 1 }) ∨
      (looked = .take (pool.queue pool.head.toNat) ∧ pool.count ≠ 0 ∧ pool' = pool.pop) := by
  unfold threadSection
  rw [ok_bind, ok_get]
  split_ifs with hwait hexit
  · rw [ok_pure]
    exact Or.inl ⟨rfl, rfl⟩
  · rw [ok_bind, ok_set, ok_pure]
    refine Or.inr (Or.inl ⟨rfl, fun hgraceful => ?_, rfl⟩)
    rcases hexit with himm | ⟨-, hzero⟩
    · rw [himm] at hgraceful
      cases hgraceful
    · exact hzero
  · rw [ok_bind]
    refine ok_readQueue ⟨h.head_nonneg, h.head_lt⟩ ?_
    rw [ok_bind, ok_set, ok_pure]
    refine Or.inr (Or.inr ⟨rfl, fun hzero => ?_, rfl⟩)
    -- the loop has ended, so there is a shutdown; with an empty queue both kinds end the worker
    cases hs : pool.shutdown with
    | none => exact hwait ⟨hzero, hs⟩
    | immediate => exact hexit (Or.inl hs)
    | graceful => exact hexit (Or.inr ⟨hs, hzero⟩)

theorem ok_destroySection (pool : Pool) (flags : Int) :
    Ok (destroySection flags) pool fun err pool' =>
      (err = .ok ∧ pool.shutdown = .none ∧ pool' = { pool with shutdown := shutdownOf flags }) ∨
        (err ≠ .ok ∧ pool.shutdown ≠ .none ∧ pool' = pool) := by
  unfold destroySection
  rw [ok_bind, ok_get]
  split_ifs with hshut
  · rw [ok_pure]
    exact Or.inr ⟨by decide, hshut, rfl⟩
  · rw [ok_bind, ok_set, ok_pure]
    exact Or.inl ⟨rfl, not_not.mp hshut, rfl⟩

end Sections

/-! ## Events -/

/-- **What an event means** for the pool before and after it. -/
def Effect (pool pool' : Pool) : Event → Prop
  | .added task err =>
      (err = .ok ∧ pool.shutdown = .none ∧ pool'.contents = pool.contents ++ [task] ∧
        pool'.shutdown = .none) ∨ (err ≠ .ok ∧ pool' = pool)
  | .waits _ => pool' = pool
  | .takes _ task => pool.contents = task :: pool'.contents ∧ pool'.shutdown = pool.shutdown
  | .exits _ =>
      (pool.shutdown = .graceful → pool.contents = []) ∧ pool'.contents = pool.contents ∧
        pool'.shutdown = pool.shutdown
  | .destroys flags err =>
      (err = .ok ∧ pool.shutdown = .none ∧ pool'.contents = pool.contents ∧
        pool'.shutdown = shutdownOf flags) ∨ (err ≠ .ok ∧ pool' = pool)

/-- A step without an event leaves the pool as it is. -/
def StepEffect (pool pool' : Pool) (r : Option Event) : Prop :=
  RingOk pool' ∧ pool'.queueSize = pool.queueSize ∧ r.elim (pool' = pool) (Effect pool pool')

theorem effect_add (h : RingOk pool) (task : Task) :
    Ok (addSection task) pool fun err pool' => StepEffect pool pool' (some (.added task err)) := by
  refine (ok_addSection h task).mono ?_
  rintro err pool' (⟨herr, hopen, hroom, rfl⟩ | ⟨herr, rfl⟩)
  · obtain ⟨hring, hcontents⟩ := h.push hroom task
    exact ⟨hring, rfl, Or.inl ⟨herr, hopen, hcontents, hopen⟩⟩
  · exact ⟨h, rfl, Or.inr ⟨herr, rfl⟩⟩

theorem effect_look (h : RingOk pool) (i : Nat) :
    Ok threadSection pool fun looked pool' => StepEffect pool pool' (some (looked.event i)) := by
  refine (ok_threadSection h).mono ?_
  rintro looked pool' (⟨rfl, rfl⟩ | ⟨rfl, hdrained, rfl⟩ | ⟨rfl, hne, rfl⟩)
  · exact ⟨h, rfl, rfl⟩
  · refine ⟨⟨h.1, h.2, h.3, h.4, h.5⟩, rfl, fun hgraceful => ?_, rfl, rfl⟩
    unfold Pool.contents
    rw [hdrained hgraceful]
    rfl
  · obtain ⟨hring, hcontents⟩ := h.pop hne
    exact ⟨hring, rfl, hcontents, rfl⟩

theorem effect_destroy (h : RingOk pool) (flags : Int) :
    Ok (destroySection flags) pool fun err pool' =>
      StepEffect pool pool' (some (.destroys flags err)) := by
  refine (ok_destroySection pool flags).mono ?_
  rintro err pool' (⟨herr, hopen, rfl⟩ | ⟨herr, -, rfl⟩)
  · exact ⟨⟨h.1, h.2, h.3, h.4, h.5⟩, rfl, Or.inl ⟨herr, hopen, rfl, rfl⟩⟩
  · exact ⟨h, rfl, Or.inr ⟨herr, rfl⟩⟩

/-- A call of `threadpool_add` is never blocked at this grain. -/
theorem ok_sectionStep_add {s : Sys} (h : RingOk s.pool) (task : Task) :
    Ok (sectionStep (.add task)) s fun r s' =>
      ∃ err, r = some (.added task err) ∧ StepEffect s.pool s'.pool (some (.added task err)) := by
  rw [sectionStep]
  split_ifs with hnull
  · rw [ok_pure]
    exact ⟨_, rfl, h, rfl, Or.inr ⟨by decide, rfl⟩⟩
  · rw [ok_bind, ok_zoom]
    refine (effect_add h task).mono fun err pool' heffect => ?_
    rw [ok_pure]
    exact ⟨err, rfl, heffect⟩

/-- **One step** has the effect of its event, and goes wrong only where it is blocked. -/
theorem takes_sectionStep {s : Sys} (h : RingOk s.pool) (o : Section) :
    Takes (sectionStep o) s fun r s' => StepEffect s.pool s'.pool r := by
  cases o with
  | add task =>
      refine Or.inr ((ok_sectionStep_add h task).mono ?_)
      rintro r s' ⟨err, rfl, heffect⟩
      exact heffect
  | look i =>
      refine takes_await fun _ => ?_
      rw [ok_bind, ok_zoom]
      refine (effect_look h i).mono fun looked pool' heffect => ?_
      rw [ok_bind, ok_modify, ok_pure]
      exact heffect
  | done i =>
      refine takes_await fun _ => ?_
      rw [ok_bind, ok_modify, ok_pure]
      exact ⟨h, rfl, rfl⟩
  | destroy flags =>
      refine Or.inr ?_
      rw [sectionStep, ok_bind, ok_zoom]
      refine (effect_destroy h flags).mono fun err pool' heffect => ?_
      rw [ok_pure]
      exact heffect

/-! ## Histories -/

/-- The task that the event accepts. -/
def Event.accepted? : Event → Option Task
  | .added task .ok => some task
  | _ => none

/-- The task that the event takes. -/
def Event.taken? : Event → Option Task
  | .takes _ task => some task
  | _ => none

/-- The tasks that `threadpool_add` has accepted, in order. -/
def accepted (es : List Event) : List Task := es.filterMap Event.accepted?

/-- The tasks that the workers have taken, in order. -/
def taken (es : List Event) : List Task := es.filterMap Event.taken?

theorem accepted_snoc (es : List Event) (e : Event) :
    accepted (es ++ [e]) = accepted es ++ e.accepted?.toList := by
  rw [accepted, List.filterMap_append]
  cases h : e.accepted? <;> simp [accepted, h]

theorem taken_snoc (es : List Event) (e : Event) :
    taken (es ++ [e]) = taken es ++ e.taken?.toList := by
  rw [taken, List.filterMap_append]
  cases h : e.taken? <;> simp [taken, h]

/-- **The history of a pool**: the events `es` so far have led to the pool. -/
structure History (es : List Event) (pool : Pool) : Prop where
  ring : RingOk pool
  /-- First in, first out; and the ring holds the rest. -/
  fifo : accepted es = taken es ++ pool.contents
  kind : ∀ flags, .destroys flags .ok ∈ es → pool.shutdown = shutdownOf flags
  closed : ∀ es₁ flags es₂, es = es₁ ++ .destroys flags .ok :: es₂ → accepted es₂ = []
  drained : ∀ es₁ i es₂ flags, es = es₁ ++ .exits i :: es₂ → .destroys flags .ok ∈ es₁ →
    shutdownOf flags = .graceful → accepted es₁ = taken es₁

theorem shutdownOf_ne_none (flags : Int) : shutdownOf flags ≠ .none := by
  unfold shutdownOf
  split_ifs <;> decide

/-- A place in a list with one more element: the last, or one of before. -/
theorem snoc_eq_append_cons {α : Type} {xs ys zs : List α} {x y : α}
    (h : xs ++ [x] = ys ++ y :: zs) :
    (zs = [] ∧ xs = ys ∧ x = y) ∨ ∃ zs', zs = zs' ++ [x] ∧ xs = ys ++ y :: zs' := by
  rcases List.eq_nil_or_concat zs with rfl | ⟨zs', z, rfl⟩
  · obtain ⟨hxs, hx⟩ := List.append_inj' h rfl
    exact Or.inl ⟨rfl, hxs, List.head_eq_of_cons_eq hx⟩
  · rw [List.concat_eq_append, ← List.cons_append, ← List.append_assoc] at h
    obtain ⟨hxs, hx⟩ := List.append_inj' h rfl
    obtain rfl := List.head_eq_of_cons_eq hx
    exact Or.inr ⟨zs', List.concat_eq_append, hxs⟩

section Snoc

variable {es : List Event} {e : Event} {pool pool' : Pool}

/-- An event accepts a task only while there is no shutdown. -/
theorem Effect.accepted_eq_none (h : Effect pool pool' e) (hshut : pool.shutdown ≠ .none) :
    e.accepted? = none := by
  cases e with
  | added task err =>
      cases err with
      | ok =>
          rcases h with ⟨-, hopen, -⟩ | ⟨herr, -⟩
          · exact absurd hopen hshut
          · exact absurd rfl herr
      | _ => rfl
  | _ => rfl

theorem Effect.fifo (h : Effect pool pool' e) :
    pool.contents ++ e.accepted?.toList = e.taken?.toList ++ pool'.contents := by
  cases e with
  | added task err =>
      rcases h with ⟨rfl, -, hcontents, -⟩ | ⟨herr, rfl⟩
      · exact hcontents.symm
      · cases err with
        | ok => exact absurd rfl herr
        | _ => exact List.append_nil _
  | waits i =>
      obtain rfl := h
      exact List.append_nil _
  | takes i task => exact (List.append_nil _).trans h.1
  | exits i => exact (List.append_nil _).trans h.2.1.symm
  | destroys flags err =>
      refine (List.append_nil _).trans ?_
      rcases h with ⟨-, -, hcontents, -⟩ | ⟨-, rfl⟩
      · exact hcontents.symm
      · rfl

/-- A shutdown stays as it is. -/
theorem Effect.shutdown_eq (h : Effect pool pool' e) (hshut : pool.shutdown ≠ .none) :
    pool'.shutdown = pool.shutdown := by
  cases e with
  | added task err =>
      rcases h with ⟨-, hopen, -⟩ | ⟨-, rfl⟩
      · exact absurd hopen hshut
      · rfl
  | waits i => rw [show pool' = pool from h]
  | takes i task => exact h.2
  | exits i => exact h.2.2
  | destroys flags err =>
      rcases h with ⟨-, hopen, -⟩ | ⟨-, rfl⟩
      · exact absurd hopen hshut
      · rfl

theorem History.shutdown_ne (h : History es pool) {flags : Int} (hmem : .destroys flags .ok ∈ es) :
    pool.shutdown ≠ .none := by
  rw [h.kind flags hmem]
  exact shutdownOf_ne_none flags

/-- **One more event.** -/
theorem History.snoc (h : History es pool) (hring : RingOk pool') (heffect : Effect pool pool' e) :
    History (es ++ [e]) pool' where
  ring := hring
  fifo := by
    rw [accepted_snoc, taken_snoc, h.fifo, List.append_assoc, heffect.fifo, List.append_assoc]
  kind := by
    intro flags hmem
    rcases List.mem_append.mp hmem with hold | hnew
    · rw [heffect.shutdown_eq (h.shutdown_ne hold), h.kind flags hold]
    · obtain rfl := List.mem_singleton.mp hnew
      rcases heffect with ⟨-, -, -, hshut⟩ | ⟨herr, -⟩
      · exact hshut
      · exact absurd rfl herr
  closed := by
    intro es₁ flags es₂ heq
    rcases snoc_eq_append_cons heq with ⟨rfl, -, -⟩ | ⟨es₂', rfl, hes⟩
    · rfl
    · have hmem : Event.destroys flags .ok ∈ es := by
        rw [hes]
        exact List.mem_append_right _ List.mem_cons_self
      rw [accepted_snoc, h.closed es₁ flags es₂' hes, heffect.accepted_eq_none (h.shutdown_ne hmem)]
      rfl
  drained := by
    intro es₁ i es₂ flags heq hmem hgraceful
    rcases snoc_eq_append_cons heq with ⟨-, rfl, rfl⟩ | ⟨es₂', -, hes⟩
    · -- the worker exits now: the ring is empty
      have hempty : pool.contents = [] := heffect.1 ((h.kind flags hmem).trans hgraceful)
      rw [h.fifo, hempty, List.append_nil]
    · exact h.drained es₁ i es₂' flags hes hmem hgraceful

theorem History.step {rs : List (Option Event)} {r : Option Event}
    (h : History rs.reduceOption pool) (heffect : StepEffect pool pool' r) :
    History (rs ++ [r]).reduceOption pool' := by
  rw [List.reduceOption_append]
  cases r with
  | none =>
      rw [show pool' = pool from heffect.2.2]
      simpa using h
  | some e => exact h.snoc heffect.1 heffect.2.2

end Snoc

/-! ## Runs -/

section Runs

variable {threadCount queueSize : Int} {queue : Nat → Task} {pool : Pool}

theorem history_create (h : threadpoolCreate threadCount queueSize queue = some pool) :
    History [] pool where
  ring := (ringOk_create h).1
  fifo := (ringOk_create h).2.symm
  kind _ hmem := absurd hmem List.not_mem_nil
  closed _ _ _ heq := absurd heq (by simp)
  drained _ _ _ _ heq := absurd heq (by simp)

theorem queueSize_create (h : threadpoolCreate threadCount queueSize queue = some pool) :
    pool.queueSize = queueSize := by
  unfold threadpoolCreate at h
  split_ifs at h
  obtain rfl := Option.some.inj h
  rfl

/-- Every run has a history. -/
theorem history_of_run (hcreate : threadpoolCreate threadCount queueSize queue = some pool)
    {sections : List Section} {rs : List (Option Event)} {s : Sys}
    (hrun : (runAll sectionStep sections).run (start pool) = .ok (rs, s)) :
    History rs.reduceOption s.pool ∧ s.pool.queueSize = queueSize := by
  have hstep : ∀ rs o s r s',
      (History rs.reduceOption (Sys.pool s) ∧ (Sys.pool s).queueSize = queueSize) →
        (sectionStep o).run s = .ok (r, s') →
          History (rs ++ [r]).reduceOption (Sys.pool s') ∧ (Sys.pool s').queueSize = queueSize := by
    rintro rs o s r s' ⟨h, hsize⟩ ho
    have heffect := (takes_sectionStep h.ring o).of_run ho
    exact ⟨h.step heffect, heffect.2.1.trans hsize⟩
  exact runAll_history hstep ⟨history_create hcreate, queueSize_create hcreate⟩ hrun

/-- **The pool is a bounded queue.** After every run, with `rs` what the steps have shown: the ring
is sound; the accepted tasks are the taken ones followed by those in the ring, in order; the next
`threadpool_add` returns `0` exactly when it appends the task; nothing was accepted behind a
shutdown; a worker has left behind a graceful shutdown only when all that was accepted was taken;
and no step goes wrong, though a worker may have to wait. -/
theorem tasks_taken_once_in_order
    (hcreate : threadpoolCreate threadCount queueSize queue = some pool) (sections : List Section)
    (rs : List (Option Event)) (s : Sys)
    (hrun : (runAll sectionStep sections).run (start pool) = .ok (rs, s)) :
    (s.pool.queueSize = queueSize ∧ 0 ≤ s.pool.count ∧ s.pool.count ≤ s.pool.queueSize ∧
      s.pool.tail = (s.pool.head + s.pool.count) % s.pool.queueSize) ∧
    accepted rs.reduceOption = taken rs.reduceOption ++ s.pool.contents ∧
    (∀ task, Ok (sectionStep (.add task)) s fun r s' => ∃ err, r = some (.added task err) ∧
      (err = .ok ↔ s'.pool.contents = s.pool.contents ++ [task]) ∧ (err ≠ .ok → s'.pool = s.pool)) ∧
    (∀ es₁ flags es₂, rs.reduceOption = es₁ ++ .destroys flags .ok :: es₂ → accepted es₂ = []) ∧
    (∀ es₁ i es₂ flags, rs.reduceOption = es₁ ++ .exits i :: es₂ → .destroys flags .ok ∈ es₁ →
      shutdownOf flags = .graceful → accepted es₁ = taken es₁) ∧
    ∀ o e, (sectionStep o).run s = .error e → e = .blocked := by
  obtain ⟨h, hsize⟩ := history_of_run hcreate hrun
  refine ⟨⟨hsize, h.ring.count_nonneg, h.ring.count_le, h.ring.tail_eq⟩, h.fifo, fun task => ?_,
    h.closed, h.drained, fun o e ho => (takes_sectionStep h.ring o).eq_blocked ho⟩
  refine (ok_sectionStep_add h.ring task).mono ?_
  rintro r s' ⟨err, rfl, -, -, heffect⟩
  refine ⟨err, rfl, ?_⟩
  rcases heffect with ⟨rfl, -, hcontents, -⟩ | ⟨herr, heq⟩
  · exact ⟨iff_of_true rfl hcontents, fun hne => absurd rfl hne⟩
  · refine ⟨iff_of_false herr fun hcontents => ?_, fun _ => heq⟩
    rw [heq] at hcontents
    exact absurd hcontents (by simp)

end Runs

/-- Three tasks in a ring of two slots: the third one is in the slot of the first. -/
def sampleSections : List Section :=
  [.add ⟨8, 1⟩, .add ⟨8, 2⟩, .look 0, .done 0, .add ⟨8, 3⟩, .look 0, .done 0, .destroy 1]

theorem tasks_taken_sampleSections :
    ∃ pool rs s, threadpoolCreate 1 2 (fun _ => ⟨0, 0⟩) = some pool ∧
      (runAll sectionStep sampleSections).run (start pool) = .ok (rs, s) ∧
      taken rs.reduceOption = [⟨8, 1⟩, ⟨8, 2⟩] ∧ s.pool.contents = [⟨8, 3⟩] ∧
      s.pool.queue 0 = ⟨8, 3⟩ ∧
      accepted rs.reduceOption = taken rs.reduceOption ++ s.pool.contents := by
  have hcreate : threadpoolCreate 1 2 (fun _ => ⟨0, 0⟩) =
      some ⟨1, 2, fun _ => ⟨0, 0⟩, 0, 0, 0, .none, 1⟩ := rfl
  have hview : ((runAll sectionStep sampleSections).run
      (start ⟨1, 2, fun _ => ⟨0, 0⟩, 0, 0, 0, .none, 1⟩)).toOption.map
        (fun r => (taken r.1.reduceOption, r.2.pool.contents, r.2.pool.queue 0))
          = some ([⟨8, 1⟩, ⟨8, 2⟩], [⟨8, 3⟩], ⟨8, 3⟩) := by decide +kernel
  obtain ⟨rs, s, hrun, h⟩ := exists_of_view _ hview
  obtain ⟨htaken, h⟩ := Prod.mk.inj h
  obtain ⟨hcontents, hslot⟩ := Prod.mk.inj h
  exact ⟨_, rs, s, hcreate, hrun, htaken, hcontents, hslot,
    (tasks_taken_once_in_order hcreate sampleSections rs s hrun).2.1⟩

end KvStore.ThreadPool
