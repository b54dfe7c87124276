import KvStore.ThreadPool.Ring

set_option autoImplicit false

/-! # The lock of the thread pool

With the operations on the lock as steps of their own. The sections are still taken one at a time,
so what holds at the coarse grain holds here (`history_of_threads`).

A second `threadpool_destroy` finds the shutdown set, leaves by a `break` and returns with the lock
held (`second_destroy_keeps_lock`). In a run in which every `threadpool_destroy` finds no shutdown,
only threads inside the functions of the pool hold the lock (`lock_held_inside`). -/

namespace KvStore.ThreadPool

open Function KvStore.Lib

/-! ## The two grains -/

/-- Where a worker is at the coarse grain. -/
def ThreadPc.view : ThreadPc → WorkerPc
  | .unlock task => .running task
  | .running task => .running task
  | .exitUnlock => .exited
  | .exited => .exited
  | _ => .looking

/-- The state at the coarse grain. -/
def Threads.view (t : Threads) : Sys := ⟨t.pool, fun i => (t.worker i).view⟩

/-- A step of the fine grain is one of the coarse grain, or invisible there. -/
def Refines (t : Threads) (r : Option Event) (t' : Threads) : Prop :=
  (r = none ∧ t'.view = t.view) ∨ ∃ o, (sectionStep o).run t.view = .ok (r, t'.view)

section Inversion

variable {t t' : Threads} {r : Option Event} {f : Threads → Threads}

theorem run_move_ok : (move f).run t = .ok (r, t') ↔ r = none ∧ t' = f t := by
  show Except.ok (none, f t) = .ok (r, t') ↔ _
  rw [Except.ok.injEq, Prod.mk.injEq]
  exact and_congr eq_comm eq_comm

theorem run_acquire_ok {h : Holder} :
    (acquire h f).run t = .ok (r, t') ↔ t.lock = none ∧ r = none ∧ t' = f (t.setLock (some h)) := by
  rw [acquire, run_await_ok]
  exact and_congr_right fun _ => run_move_ok (f := fun t => f (t.setLock (some h)))

theorem run_usePool_ok {c : Exec Threads (Option Event)} :
    (usePool c).run t = .ok (r, t') ↔ t.freed = false ∧ c.run t = .ok (r, t') := by
  rw [usePool, run_get_bind]
  cases t.freed with
  | false => exact (and_iff_right rfl).symm
  | true => exact iff_of_false (fun h => by cases h) fun h => by cases h.1

end Inversion

variable {pc : ThreadPc}

section Refinement

variable {t t' : Threads} {r : Option Event} {p i : Nat}

theorem view_setWorker (i : Nat) (pc : ThreadPc) :
    (t.setWorker i pc).view = t.view.setWorker i pc.view := by
  unfold Threads.view Sys.setWorker Threads.setWorker
  congr 1
  funext j
  exact apply_update (fun _ => ThreadPc.view) t.worker i pc j

theorem view_setWorker_of_eq (h : pc.view = (t.worker i).view) :
    (t.setWorker i pc).view = t.view := by
  rw [view_setWorker, h]
  show (⟨t.pool, update t.view.worker i (t.view.worker i)⟩ : Sys) = t.view
  rw [update_eq_self]
  rfl

theorem view_wakeAll : t.wakeAll.view = t.view := by
  unfold Threads.view Threads.wakeAll
  congr 1
  funext j
  show ThreadPc.view (if t.worker j = .waiting then .woken else t.worker j) = _
  split_ifs with hj
  · rw [hj]
    rfl
  · rfl

/-- A call of `threadpool_add` goes on with a function. -/
def CallerPc.HasFunction : CallerPc → Prop
  | .addLock task => task.function ≠ 0
  | .addBody task => task.function ≠ 0
  | _ => True

def Calls (t : Threads) : Prop := ∀ p, (t.caller p).HasFunction

theorem Calls.setCaller (h : Calls t) {pc : CallerPc} (hpc : pc.HasFunction) :
    Calls (t.setCaller p pc) :=
  (forall_update_iff t.caller (p := fun _ pc => CallerPc.HasFunction pc)).mpr
    ⟨hpc, fun q _ => h q⟩

theorem Refines.caller {pc : CallerPc} (hcalls : Calls t) (hpc : t.caller p = pc)
    (h : (callerStep p pc).run t = .ok (r, t')) : Refines t r t' ∧ Calls t' := by
  have hfunction := hcalls p
  rw [hpc] at hfunction
  cases pc with
  | out => cases h
  | addLock task =>
      obtain ⟨-, rfl, rfl⟩ := run_acquire_ok.mp h
      exact ⟨Or.inl ⟨rfl, rfl⟩, hcalls.setCaller hfunction⟩
  | addBody task =>
      obtain ⟨err, pool', hsection, h⟩ := run_zoom_bind_ok.mp h
      cases h
      refine ⟨Or.inr ⟨.add task, ?_⟩, hcalls.setCaller (by split_ifs <;> trivial)⟩
      rw [sectionStep, if_neg hfunction]
      exact run_zoom_bind_ok.mpr ⟨err, pool', hsection, rfl⟩
  | addSignal => cases h
  | addUnlock =>
      obtain ⟨rfl, rfl⟩ := run_move_ok.mp h
      exact ⟨Or.inl ⟨rfl, rfl⟩, hcalls.setCaller trivial⟩
  | destroyLock flags =>
      obtain ⟨-, rfl, rfl⟩ := run_acquire_ok.mp h
      exact ⟨Or.inl ⟨rfl, rfl⟩, hcalls.setCaller trivial⟩
  | destroyBody flags =>
      obtain ⟨err, pool', hsection, h⟩ := run_zoom_bind_ok.mp h
      cases h
      refine ⟨Or.inr ⟨.destroy flags, ?_⟩, hcalls.setCaller (by split_ifs <;> trivial)⟩
      exact run_zoom_bind_ok.mpr ⟨err, pool', hsection, rfl⟩
  | broadcast =>
      obtain ⟨rfl, rfl⟩ := run_move_ok.mp h
      exact ⟨Or.inl ⟨rfl, view_wakeAll (t := t)⟩, hcalls.setCaller trivial⟩
  | destroyUnlock =>
      obtain ⟨rfl, rfl⟩ := run_move_ok.mp h
      exact ⟨Or.inl ⟨rfl, rfl⟩, hcalls.setCaller trivial⟩
  | join i =>
      obtain ⟨-, h⟩ := run_await_ok.mp h
      obtain ⟨rfl, rfl⟩ := run_move_ok.mp h
      exact ⟨Or.inl ⟨rfl, rfl⟩, hcalls.setCaller (by split_ifs <;> trivial)⟩
  | free =>
      obtain ⟨rfl, rfl⟩ := run_move_ok.mp h
      exact ⟨Or.inl ⟨rfl, rfl⟩, hcalls.setCaller (by split_ifs <;> trivial)⟩
  | freeLock =>
      obtain ⟨-, rfl, rfl⟩ := run_acquire_ok.mp h
      exact ⟨Or.inl ⟨rfl, rfl⟩, hcalls.setCaller trivial⟩
  | freePool =>
      obtain ⟨rfl, rfl⟩ := run_move_ok.mp h
      have hout : Calls (t.setCaller p .out) := hcalls.setCaller trivial
      exact ⟨Or.inl ⟨rfl, rfl⟩, hout⟩

theorem Looked.view_threadPc (looked : Looked) : looked.threadPc.view = looked.pc := by
  cases looked <;> rfl

theorem Refines.worker (hpc : t.worker i = pc) (hi : (i : Int) < t.pool.threadCount)
    (h : (workerStep i pc).run t = .ok (r, t')) : Refines t r t' ∧ t'.caller = t.caller := by
  have hquiet : ∀ (l : Option Holder) {pc' : ThreadPc}, pc'.view = pc.view →
      ((t.setLock l).setWorker i pc').view = t.view := by
    intro l pc' hview
    have hview' : pc'.view = (t.worker i).view := by rw [hpc, hview]
    exact view_setWorker_of_eq hview'
  cases pc with
  | lock =>
      obtain ⟨-, rfl, rfl⟩ := run_acquire_ok.mp h
      exact ⟨Or.inl ⟨rfl, hquiet _ rfl⟩, rfl⟩
  | body =>
      obtain ⟨looked, pool', hsection, h⟩ := run_zoom_bind_ok.mp h
      cases h
      refine ⟨Or.inr ⟨.look i, run_await_ok.mpr ⟨⟨hi, ?_⟩, ?_⟩⟩, rfl⟩
      · show (t.worker i).view = .looking
        rw [hpc]
        rfl
      · refine run_zoom_bind_ok.mpr ⟨looked, pool', hsection, ?_⟩
        rw [view_setWorker, looked.view_threadPc]
        rfl
  | waiting => cases h
  | woken =>
      obtain ⟨-, rfl, rfl⟩ := run_acquire_ok.mp h
      exact ⟨Or.inl ⟨rfl, hquiet _ rfl⟩, rfl⟩
  | unlock task =>
      obtain ⟨rfl, rfl⟩ := run_move_ok.mp h
      exact ⟨Or.inl ⟨rfl, hquiet _ rfl⟩, rfl⟩
  | running task =>
      obtain ⟨rfl, rfl⟩ := run_move_ok.mp h
      refine ⟨Or.inr ⟨.done i, run_await_ok.mpr ⟨?_, ?_⟩⟩, rfl⟩
      · show (t.worker i).view.IsRunning
        rw [hpc]
        trivial
      · rw [view_setWorker]
        rfl
  | exitUnlock =>
      obtain ⟨rfl, rfl⟩ := run_move_ok.mp h
      exact ⟨Or.inl ⟨rfl, hquiet _ rfl⟩, rfl⟩
  | exited => cases h

/-- **One step** of the fine grain. -/
theorem refines_threadStep {o : Step} (hcalls : Calls t) (h : (threadStep o).run t = .ok (r, t')) :
    Refines t r t' ∧ Calls t' := by
  have hwake : ∀ {w : Nat}, t.worker w = .waiting → (t.setWorker w .woken).view = t.view := by
    intro w hw
    have hview : ThreadPc.woken.view = (t.worker w).view := by rw [hw]; rfl
    exact view_setWorker_of_eq hview
  cases o with
  | call p c =>
      cases c with
      | add task =>
          obtain ⟨-, h⟩ := run_await_ok.mp h
          split_ifs at h with hnull
          · cases h
            refine ⟨Or.inr ⟨.add task, ?_⟩, hcalls⟩
            rw [sectionStep, if_pos hnull]
            rfl
          · obtain ⟨rfl, rfl⟩ := run_move_ok.mp h
            exact ⟨Or.inl ⟨rfl, rfl⟩, hcalls.setCaller hnull⟩
      | destroy flags =>
          obtain ⟨-, h⟩ := run_await_ok.mp h
          obtain ⟨rfl, rfl⟩ := run_move_ok.mp h
          exact ⟨Or.inl ⟨rfl, rfl⟩, hcalls.setCaller trivial⟩
  | caller p =>
      obtain ⟨-, h⟩ := run_usePool_ok.mp h
      exact Refines.caller hcalls rfl h
  | signal p w =>
      cases w with
      | none =>
          obtain ⟨-, h⟩ := run_usePool_ok.mp h
          obtain ⟨-, h⟩ := run_await_ok.mp h
          obtain ⟨rfl, rfl⟩ := run_move_ok.mp h
          exact ⟨Or.inl ⟨rfl, rfl⟩, hcalls.setCaller trivial⟩
      | some w =>
          obtain ⟨-, h⟩ := run_usePool_ok.mp h
          obtain ⟨⟨-, hw⟩, h⟩ := run_await_ok.mp h
          obtain ⟨rfl, rfl⟩ := run_move_ok.mp h
          exact ⟨Or.inl ⟨rfl, hwake hw⟩, hcalls.setCaller trivial⟩
  | worker i =>
      obtain ⟨-, h⟩ := run_usePool_ok.mp h
      obtain ⟨hi, h⟩ := run_await_ok.mp h
      obtain ⟨hrefines, hcaller⟩ := Refines.worker rfl hi h
      refine ⟨hrefines, fun p => ?_⟩
      rw [hcaller]
      exact hcalls p
  | spurious i =>
      obtain ⟨hi, h⟩ := run_await_ok.mp h
      obtain ⟨rfl, rfl⟩ := run_move_ok.mp h
      exact ⟨Or.inl ⟨rfl, hwake hi⟩, hcalls⟩

end Refinement

/-- **The fine grain refines the coarse one**: what the threads show in a run is the history of the
pool. -/
theorem history_of_threads {threadCount queueSize : Int} {queue : Nat → Task} {pool : Pool}
    (hcreate : threadpoolCreate threadCount queueSize queue = some pool) {steps : List Step}
    {rs : List (Option Event)} {t : Threads}
    (hrun : (runAll threadStep steps).run (startThreads pool) = .ok (rs, t)) :
    History rs.reduceOption t.pool := by
  have hstep : ∀ rs o t r t', (History rs.reduceOption (Threads.pool t) ∧ Calls t) →
      (threadStep o).run t = .ok (r, t') →
        History (rs ++ [r]).reduceOption (Threads.pool t') ∧ Calls t' := by
    rintro rs o t r t' ⟨h, hcalls⟩ ho
    obtain ⟨hrefines, hcalls'⟩ := refines_threadStep hcalls ho
    refine ⟨?_, hcalls'⟩
    rcases hrefines with ⟨rfl, hview⟩ | ⟨o', ho'⟩
    · have hpool : t'.pool = t.pool := congrArg Sys.pool hview
      rw [hpool]
      exact h.step ⟨h.ring, rfl, rfl⟩
    · exact h.step ((takes_sectionStep (s := t.view) h.ring o').of_run ho')
  have hcalls : Calls (startThreads pool) := fun _ => trivial
  exact (runAll_history hstep ⟨history_create hcreate, hcalls⟩ hrun).1

/-! ## The lock -/

/-- The thread is inside a function of the pool. -/
def Threads.Inside (t : Threads) : Holder → Prop
  | .caller p => t.caller p ≠ .out
  | .worker i => t.worker i ≠ .exited

/-- Between `pthread_mutex_lock` and `pthread_mutex_unlock`. -/
def CallerPc.Holding : CallerPc → Prop
  | .addBody _ => True
  | .addSignal => True
  | .addUnlock => True
  | .destroyBody _ => True
  | .broadcast => True
  | .destroyUnlock => True
  | .freePool => True
  | _ => False

def ThreadPc.Holding : ThreadPc → Prop
  | .body => True
  | .unlock _ => True
  | .exitUnlock => True
  | _ => False

def Threads.Holding (t : Threads) : Holder → Prop
  | .caller p => (t.caller p).Holding
  | .worker i => (t.worker i).Holding

/-- The lock is held by a thread that is to give it back. -/
def Held (t : Threads) : Prop := ∀ h, t.lock = some h → t.Holding h

/-- The critical section of `threadpool_destroy` finds no shutdown. -/
def FirstDestroy (t : Threads) : Step → Prop
  | .caller p => ∀ flags, t.caller p = .destroyBody flags → t.pool.shutdown = .none
  | _ => True

theorem Threads.Holding.inside {t : Threads} {h : Holder} (hh : t.Holding h) : t.Inside h := by
  cases h with
  | caller p =>
      intro hout
      rw [Threads.Holding, hout] at hh
      exact hh
  | worker i =>
      intro hexited
      rw [Threads.Holding, hexited] at hh
      exact hh

section Held

variable {t t' : Threads} {r : Option Event} {p i : Nat}

theorem held_of_unlocked (h : t.lock = none) : Held t := by
  intro holder hlock
  rw [h] at hlock
  cases hlock

theorem Held.setCaller {pc : CallerPc} (h : Held t) (hpc : (t.caller p).Holding → pc.Holding) :
    Held (t.setCaller p pc) := by
  intro holder hlock
  have hold := h holder hlock
  cases holder with
  | worker i => exact hold
  | caller q =>
      show (update t.caller p pc q).Holding
      by_cases hq : q = p
      · subst hq
        rw [update_self]
        exact hpc hold
      · rwa [update_of_ne hq]

theorem Held.setWorker (h : Held t) (hpc : (t.worker i).Holding → pc.Holding) :
    Held (t.setWorker i pc) := by
  intro holder hlock
  have hold := h holder hlock
  cases holder with
  | caller p => exact hold
  | worker j =>
      show (update t.worker i pc j).Holding
      by_cases hj : j = i
      · subst hj
        rw [update_self]
        exact hpc hold
      · rwa [update_of_ne hj]

theorem held_acquire_caller {pc : CallerPc} (hpc : pc.Holding) :
    Held ((t.setLock (some (.caller p))).setCaller p pc) := by
  intro holder hlock
  cases hlock
  show (update t.caller p pc p).Holding
  rwa [update_self]

theorem held_acquire_worker (hpc : pc.Holding) :
    Held ((t.setLock (some (.worker i))).setWorker i pc) := by
  intro holder hlock
  cases hlock
  show (update t.worker i pc i).Holding
  rwa [update_self]

theorem Held.wakeAll (h : Held t) : Held t.wakeAll := by
  intro holder hlock
  have hold := h holder hlock
  cases holder with
  | caller p => exact hold
  | worker i =>
      show ThreadPc.Holding (if t.worker i = .waiting then .woken else t.worker i)
      split_ifs with hw
      · rw [Threads.Holding, hw] at hold
        exact hold
      · exact hold

theorem Held.caller {pc : CallerPc} (hheld : Held t) (hpc : t.caller p = pc)
    (hfirst : ∀ flags, pc = .destroyBody flags → t.pool.shutdown = .none)
    (h : (callerStep p pc).run t = .ok (r, t')) : t'.freed = false → Held t' := by
  have hkeep : ∀ (pool : Pool) {pc' : CallerPc}, (pc.Holding → pc'.Holding) →
      Held ((t.setPool pool).setCaller p pc') := by
    intro pool pc' himp
    have himp' : (t.caller p).Holding → pc'.Holding := by rwa [hpc]
    exact Held.setCaller (t := t.setPool pool) hheld himp'
  intro hfreed
  cases pc with
  | out => cases h
  | addLock task =>
      obtain ⟨-, rfl, rfl⟩ := run_acquire_ok.mp h
      exact held_acquire_caller trivial
  | addBody task =>
      obtain ⟨err, pool', -, h⟩ := run_zoom_bind_ok.mp h
      cases h
      exact hkeep pool' fun _ => by split_ifs <;> trivial
  | addSignal => cases h
  | addUnlock =>
      obtain ⟨rfl, rfl⟩ := run_move_ok.mp h
      exact held_of_unlocked rfl
  | destroyLock flags =>
      obtain ⟨-, rfl, rfl⟩ := run_acquire_ok.mp h
      exact held_acquire_caller trivial
  | destroyBody flags =>
      obtain ⟨err, pool', hsection, h⟩ := run_zoom_bind_ok.mp h
      cases h
      -- there is no shutdown, so the section does not leave by the first `break`
      have herr : err = .ok := by
        rcases (ok_of_run hsection _).mp (ok_destroySection t.pool flags)
          with ⟨herr, -⟩ | ⟨-, hshut, -⟩
        · exact herr
        · exact absurd (hfirst flags rfl) hshut
      rw [if_pos herr]
      exact hkeep pool' fun _ => trivial
  | broadcast =>
      obtain ⟨rfl, rfl⟩ := run_move_ok.mp h
      exact hheld.wakeAll.setCaller fun _ => trivial
  | destroyUnlock =>
      obtain ⟨rfl, rfl⟩ := run_move_ok.mp h
      exact held_of_unlocked rfl
  | join i =>
      obtain ⟨-, h⟩ := run_await_ok.mp h
      obtain ⟨rfl, rfl⟩ := run_move_ok.mp h
      exact hkeep t.pool False.elim
  | free =>
      obtain ⟨rfl, rfl⟩ := run_move_ok.mp h
      exact hkeep t.pool False.elim
  | freeLock =>
      obtain ⟨-, rfl, rfl⟩ := run_acquire_ok.mp h
      exact held_acquire_caller trivial
  | freePool =>
      obtain ⟨rfl, rfl⟩ := run_move_ok.mp h
      cases hfreed

theorem Held.worker (hheld : Held t) (hpc : t.worker i = pc)
    (h : (workerStep i pc).run t = .ok (r, t')) : Held t' := by
  cases pc with
  | lock =>
      obtain ⟨-, rfl, rfl⟩ := run_acquire_ok.mp h
      exact held_acquire_worker trivial
  | body =>
      obtain ⟨looked, pool', -, h⟩ := run_zoom_bind_ok.mp h
      cases h
      cases looked with
      | wait => exact held_of_unlocked rfl
      | exit => exact Held.setWorker (t := t.setPool pool') hheld fun _ => trivial
      | take task => exact Held.setWorker (t := t.setPool pool') hheld fun _ => trivial
  | waiting => cases h
  | woken =>
      obtain ⟨-, rfl, rfl⟩ := run_acquire_ok.mp h
      exact held_acquire_worker trivial
  | unlock task =>
      obtain ⟨rfl, rfl⟩ := run_move_ok.mp h
      exact held_of_unlocked rfl
  | running task =>
      obtain ⟨rfl, rfl⟩ := run_move_ok.mp h
      refine hheld.setWorker fun hold => ?_
      rw [hpc] at hold
      exact hold
  | exitUnlock =>
      obtain ⟨rfl, rfl⟩ := run_move_ok.mp h
      exact held_of_unlocked rfl
  | exited => cases h

/-- **One step** keeps the lock with a thread that is to give it back. -/
theorem Held.step {o : Step} (hheld : t.freed = false → Held t) (hfirst : FirstDestroy t o)
    (h : (threadStep o).run t = .ok (r, t')) : t'.freed = false → Held t' := by
  have hcalled : ∀ {p : Nat} {pc : CallerPc}, t.caller p = .out → t.freed = false →
      Held (t.setCaller p pc) := by
    intro p pc hout hfreed
    refine (hheld hfreed).setCaller fun hold => ?_
    rw [hout] at hold
    exact hold.elim
  intro hfreed
  cases o with
  | call p c =>
      cases c with
      | add task =>
          obtain ⟨hout, h⟩ := run_await_ok.mp h
          split_ifs at h
          · cases h
            exact hheld hfreed
          · obtain ⟨rfl, rfl⟩ := run_move_ok.mp h
            exact hcalled hout hfreed
      | destroy flags =>
          obtain ⟨hout, h⟩ := run_await_ok.mp h
          obtain ⟨rfl, rfl⟩ := run_move_ok.mp h
          exact hcalled hout hfreed
  | caller p =>
      obtain ⟨hfreed₀, h⟩ := run_usePool_ok.mp h
      exact (hheld hfreed₀).caller rfl hfirst h hfreed
  | signal p w =>
      cases w with
      | none =>
          obtain ⟨hfreed₀, h⟩ := run_usePool_ok.mp h
          obtain ⟨-, h⟩ := run_await_ok.mp h
          obtain ⟨rfl, rfl⟩ := run_move_ok.mp h
          exact (hheld hfreed₀).setCaller fun _ => trivial
      | some w =>
          obtain ⟨hfreed₀, h⟩ := run_usePool_ok.mp h
          obtain ⟨⟨-, hw⟩, h⟩ := run_await_ok.mp h
          obtain ⟨rfl, rfl⟩ := run_move_ok.mp h
          have hcaller : Held (t.setCaller p .addUnlock) :=
            (hheld hfreed₀).setCaller fun _ => trivial
          refine hcaller.setWorker fun hold => ?_
          change (t.worker w).Holding at hold
          rw [hw] at hold
          exact hold
  | worker i =>
      obtain ⟨hfreed₀, h⟩ := run_usePool_ok.mp h
      obtain ⟨-, h⟩ := run_await_ok.mp h
      exact (hheld hfreed₀).worker rfl h
  | spurious i =>
      obtain ⟨hi, h⟩ := run_await_ok.mp h
      obtain ⟨rfl, rfl⟩ := run_move_ok.mp h
      refine (hheld hfreed).setWorker fun hold => ?_
      rw [hi] at hold
      exact hold

end Held

/-- **Only threads inside hold the lock**, in a run in which every `threadpool_destroy` that has
taken the lock finds no shutdown. -/
theorem lock_held_inside (pool : Pool) (steps : List Step) (rs : List (Option Event)) (t : Threads)
    (hrun : (runAll threadStep steps).run (startThreads pool) = .ok (rs, t))
    (hfirst : AllSteps threadStep FirstDestroy (startThreads pool) steps) (hfreed : t.freed = false)
    (h : Holder) (hlock : t.lock = some h) : t.Inside h := by
  have hstep : ∀ o t r t', (Threads.freed t = false → Held t) → FirstDestroy t o →
      (threadStep o).run t = .ok (r, t') → Threads.freed t' = false → Held t' :=
    fun o t r t' hheld hfirst ho => Held.step hheld hfirst ho
  have hstart : (startThreads pool).freed = false → Held (startThreads pool) :=
    fun _ => held_of_unlocked rfl
  exact (AllSteps.invariant hstep hstart hfirst hrun hfreed h hlock).inside

/-- A pool of one worker and one place. -/
def smallPool : Pool := ⟨1, 1, fun _ => ⟨0, 0⟩, 0, 0, 0, .none, 1⟩

/-- The first destroyer has the lock. -/
def oneDestroy : List Step := [.call 0 (.destroy 0), .caller 0]

/-- The first destroyer waits for the worker; then a second one calls. -/
def twoDestroys : List Step :=
  [.call 0 (.destroy 0), .caller 0, .caller 0, .caller 0, .caller 0,
    .call 1 (.destroy 0), .caller 1, .caller 1]

theorem lock_held_oneDestroy :
    ∃ rs t, threadpoolCreate 1 1 (fun _ => ⟨0, 0⟩) = some smallPool ∧
      (runAll threadStep oneDestroy).run (startThreads smallPool) = .ok (rs, t) ∧
      AllSteps threadStep FirstDestroy (startThreads smallPool) oneDestroy ∧ t.freed = false ∧
      t.lock = some (.caller 0) ∧ t.Inside (.caller 0) := by
  have hfirst : AllSteps threadStep FirstDestroy (startThreads smallPool) oneDestroy :=
    allSteps_cons trivial rfl <| allSteps_cons (fun _ _ => rfl) rfl trivial
  exact ⟨_, _, rfl, rfl, hfirst, rfl, rfl,
    lock_held_inside smallPool oneDestroy _ _ rfl hfirst rfl _ rfl⟩

/-- **A second `threadpool_destroy`** returns with the lock, while the first one has not freed the
pool. -/
theorem second_destroy_keeps_lock :
    ∃ rs t, threadpoolCreate 1 1 (fun _ => ⟨0, 0⟩) = some smallPool ∧
      (runAll threadStep twoDestroys).run (startThreads smallPool) = .ok (rs, t) ∧ t.freed = false ∧
      t.lock = some (.caller 1) ∧ ¬t.Inside (.caller 1) :=
  ⟨_, _, rfl, rfl, rfl, rfl, fun hinside => hinside rfl⟩

end KvStore.ThreadPool
