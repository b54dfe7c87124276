import KvStore.ThreadPool11.Model

set_option autoImplicit false

/-! # What a step of the pool can do

`Change n s r s'`: everything a step of a pool of `n` workers can do in the state `s`, with where
its thread must be. Everything about runs is derived from it (`change_of_step`). -/

namespace KvStore.ThreadPool11

open KvStore.Lib

variable {τ : Type} {n : Nat} {s s' : Sys τ} {r : Option (Event τ)}

/-- One step, with what it shows. -/
inductive Change (n : Nat) (s : Sys τ) : Option (Event τ) → Sys τ → Prop where
  | call (p : Nat) (task : τ) (h : s.caller p = .out) : Change n s none (s.setCaller p (.lock task))
  | callerLock (p : Nat) (task : τ) (h : s.caller p = .lock task) :
      Change n s none ((s.setMutex (some (.caller p))).setCaller p (.emplace task))
  | refuse (p : Nat) (task : τ) (h : s.caller p = .emplace task) (hstop : s.stop = true) :
      Change n s (some (.refused task)) (s.setCaller p (.unlock false))
  | accept (p : Nat) (task : τ) (h : s.caller p = .emplace task) (hstop : s.stop = false) :
      Change n s (some (.accepted task))
        ((s.setTasks (s.tasks ++ [task])).setCaller p (.unlock true))
  | callerUnlock (p : Nat) (accepted : Bool) (h : s.caller p = .unlock accepted) :
      Change n s none ((s.setMutex none).setCaller p (if accepted then .notify else .out))
  | notifyOne (p w : Nat) (h : s.caller p = .notify) (hw : w < n) (hwait : s.worker w = .waiting) :
      Change n s none ((s.setCaller p .out).setWorker w .woken)
  | notifyNone (p : Nat) (h : s.caller p = .notify)
        (hwait : ∀ i < n, (s.worker i).isWaiting = false) :
      Change n s none (s.setCaller p .out)
  | workerLock (i : Nat) (hi : i < n) (h : s.worker i = .lock ∨ s.worker i = .woken) :
      Change n s none ((s.setMutex (some (.worker i))).setWorker i .test)
  | leave (i : Nat) (hi : i < n) (h : s.worker i = .test) (htasks : s.tasks = [])
        (hstop : s.stop = true) :
      Change n s (some (.left i)) (s.setWorker i .leave)
  | wait (i : Nat) (hi : i < n) (h : s.worker i = .test) (htasks : s.tasks = [])
        (hstop : s.stop = false) :
      Change n s none ((s.setMutex none).setWorker i .waiting)
  | take (i : Nat) (hi : i < n) (h : s.worker i = .test) (task : τ) (rest : List τ)
      (htasks : s.tasks = task :: rest) :
      Change n s (some (.took i task)) ((s.setTasks rest).setWorker i (.unlock task))
  | workerUnlock (i : Nat) (hi : i < n) (task : τ) (h : s.worker i = .unlock task) :
      Change n s none ((s.setMutex none).setWorker i (.run task))
  | finish (i : Nat) (hi : i < n) (task : τ) (h : s.worker i = .run task) :
      Change n s (some (.finished i task)) (s.setWorker i .lock)
  | left (i : Nat) (hi : i < n) (h : s.worker i = .leave) :
      Change n s none ((s.setMutex none).setWorker i .left)
  | spurious (i : Nat) (h : s.worker i = .waiting) : Change n s none (s.setWorker i .woken)
  | destroy (h : s.destructor = .out) : Change n s none (s.setDestructor .lock)
  | destructorLock (h : s.destructor = .lock) :
      Change n s none ((s.setMutex (some .destructor)).setDestructor .stop)
  | stop (h : s.destructor = .stop) :
      Change n s (some .stopped) { s.setDestructor .unlock with stop := true }
  | destructorUnlock (h : s.destructor = .unlock) :
      Change n s none ((s.setMutex none).setDestructor .notifyAll)
  | notifyAll (h : s.destructor = .notifyAll) : Change n s none (s.wakeAll.setDestructor (.join 0))
  | join (i : Nat) (hi : i < n) (h : s.destructor = .join i) (hleft : s.worker i = .left) :
      Change n s none (s.setDestructor (.join (i + 1)))
  | destroyed (i : Nat) (hi : n ≤ i) (h : s.destructor = .join i) :
      Change n s (some .destroyed) (s.setDestructor .returned)

/-! ## Inversion -/

theorem run_move_ok {f : Sys τ → Sys τ} : (move f).run s = .ok (r, s') ↔ r = none ∧ s' = f s := by
  show Except.ok (none, f s) = .ok (r, s') ↔ _
  rw [Except.ok.injEq, Prod.mk.injEq]
  exact and_congr eq_comm eq_comm

theorem run_emit_ok {e : Event τ} {f : Sys τ → Sys τ} :
    (emit e f).run s = .ok (r, s') ↔ r = some e ∧ s' = f s := by
  show Except.ok (some e, f s) = .ok (r, s') ↔ _
  rw [Except.ok.injEq, Prod.mk.injEq]
  exact and_congr eq_comm eq_comm

theorem run_acquire_ok {h : Holder} {f : Sys τ → Sys τ} :
    (acquire h f).run s = .ok (r, s') ↔ s.queueMutex.isNone = true ∧ r = none ∧
    s' = f (s.setMutex (some h)) := by
  rw [acquire, run_await_ok, run_move_ok]

theorem run_usePool_ok {c : Exec (Sys τ) (Option (Event τ))} :
    (usePool c).run s = .ok (r, s') ↔ s.destructor.isReturned = false ∧ c.run s = .ok (r, s') := by
  rw [usePool, run_get_bind]
  cases s.destructor.isReturned with
  | false => exact (and_iff_right rfl).symm
  | true => exact iff_of_false (fun h => by cases h) fun h => by cases h.1

theorem WorkerPc.eq_waiting {pc : WorkerPc τ} (h : pc.isWaiting = true) : pc = .waiting := by
  cases pc <;> first | rfl | cases h

theorem WorkerPc.eq_left {pc : WorkerPc τ} (h : pc.isLeft = true) : pc = .left := by
  cases pc <;> first | rfl | cases h

theorem CallerPc.eq_out {pc : CallerPc τ} (h : pc.isOut = true) : pc = .out := by
  cases pc <;> first | rfl | cases h

theorem CallerPc.eq_notify {pc : CallerPc τ} (h : pc.isNotify = true) : pc = .notify := by
  cases pc <;> first | rfl | cases h

theorem DestructorPc.eq_out {pc : DestructorPc} (h : pc.isOut = true) : pc = .out := by
  cases pc <;> first | rfl | cases h

theorem DestructorPc.eq_returned {pc : DestructorPc} (h : pc.isReturned = true) :
    pc = .returned := by
  cases pc <;> first | rfl | cases h

theorem change_of_testSection {i : Nat} (hi : i < n) (hpc : s.worker i = .test)
    (h : (testSection i s).run s = .ok (r, s')) : Change n s r s' := by
  unfold testSection at h
  cases htasks : s.tasks with
  | nil =>
      rw [htasks] at h
      simp only at h
      split_ifs at h with hstop
      · obtain ⟨rfl, rfl⟩ := run_emit_ok.mp h
        exact .leave i hi hpc htasks hstop
      · obtain ⟨rfl, rfl⟩ := run_move_ok.mp h
        exact .wait i hi hpc htasks (Bool.not_eq_true _ ▸ hstop)
  | cons task rest =>
      rw [htasks] at h
      obtain ⟨rfl, rfl⟩ := run_emit_ok.mp h
      exact .take i hi hpc task rest htasks

theorem change_of_workerStep {i : Nat} (hi : i < n) {pc : WorkerPc τ} (hpc : s.worker i = pc)
    (h : (workerStep i pc).run s = .ok (r, s')) : Change n s r s' := by
  cases pc with
  | lock =>
      obtain ⟨-, rfl, rfl⟩ := run_acquire_ok.mp h
      exact .workerLock i hi (Or.inl hpc)
  | test => exact change_of_testSection hi hpc h
  | waiting => cases h
  | woken =>
      obtain ⟨-, rfl, rfl⟩ := run_acquire_ok.mp h
      exact .workerLock i hi (Or.inr hpc)
  | unlock task =>
      obtain ⟨rfl, rfl⟩ := run_move_ok.mp h
      exact .workerUnlock i hi task hpc
  | run task =>
      obtain ⟨rfl, rfl⟩ := run_emit_ok.mp h
      exact .finish i hi task hpc
  | leave =>
      obtain ⟨rfl, rfl⟩ := run_move_ok.mp h
      exact .left i hi hpc
  | left => cases h

theorem change_of_callerStep {p : Nat} {pc : CallerPc τ} (hpc : s.caller p = pc)
    (h : (callerStep p pc).run s = .ok (r, s')) : Change n s r s' := by
  cases pc with
  | out => cases h
  | lock task =>
      obtain ⟨-, rfl, rfl⟩ := run_acquire_ok.mp h
      exact .callerLock p task hpc
  | emplace task =>
      change (if s.stop = true then emit _ _ else emit _ _ : Exec (Sys τ) (Option (Event τ))).run s
        = _ at h
      split_ifs at h with hstop
      · obtain ⟨rfl, rfl⟩ := run_emit_ok.mp h
        exact .refuse p task hpc hstop
      · obtain ⟨rfl, rfl⟩ := run_emit_ok.mp h
        exact .accept p task hpc (Bool.not_eq_true _ ▸ hstop)
  | unlock accepted =>
      obtain ⟨rfl, rfl⟩ := run_move_ok.mp h
      exact .callerUnlock p accepted hpc
  | notify => cases h

theorem change_of_destructorStep {pc : DestructorPc} (hpc : s.destructor = pc)
    (h : (destructorStep n pc).run s = .ok (r, s')) : Change n s r s' := by
  cases pc with
  | out => cases h
  | lock =>
      obtain ⟨-, rfl, rfl⟩ := run_acquire_ok.mp h
      exact .destructorLock hpc
  | stop =>
      obtain ⟨rfl, rfl⟩ := run_emit_ok.mp h
      exact .stop hpc
  | unlock =>
      obtain ⟨rfl, rfl⟩ := run_move_ok.mp h
      exact .destructorUnlock hpc
  | notifyAll =>
      obtain ⟨rfl, rfl⟩ := run_move_ok.mp h
      exact .notifyAll hpc
  | join i =>
      simp only [destructorStep] at h
      split_ifs at h with hi
      · obtain ⟨hleft, h⟩ := run_await_ok.mp h
        obtain ⟨rfl, rfl⟩ := run_move_ok.mp h
        exact .join i hi hpc (WorkerPc.eq_left hleft)
      · obtain ⟨rfl, rfl⟩ := run_emit_ok.mp h
        exact .destroyed i (Nat.le_of_not_lt hi) hpc
  | returned => cases h

/-- **The steps of the pool.** -/
theorem change_of_step {o : Step τ} (h : (step n o).run s = .ok (r, s')) : Change n s r s' := by
  cases o with
  | enqueue p task =>
      obtain ⟨hout, h⟩ := run_await_ok.mp h
      obtain ⟨rfl, rfl⟩ := run_move_ok.mp h
      exact .call p task (CallerPc.eq_out hout)
  | caller p => exact change_of_callerStep rfl (run_usePool_ok.mp h).2
  | notifyOne p w =>
      cases w with
      | none =>
          obtain ⟨⟨hnotify, hwait⟩, h⟩ := run_await_ok.mp (run_usePool_ok.mp h).2
          obtain ⟨rfl, rfl⟩ := run_move_ok.mp h
          exact .notifyNone p (CallerPc.eq_notify hnotify) hwait
      | some w =>
          obtain ⟨⟨hnotify, hw, hwait⟩, h⟩ := run_await_ok.mp (run_usePool_ok.mp h).2
          obtain ⟨rfl, rfl⟩ := run_move_ok.mp h
          exact .notifyOne p w (CallerPc.eq_notify hnotify) hw (WorkerPc.eq_waiting hwait)
  | worker i =>
      obtain ⟨hi, h⟩ := run_await_ok.mp (run_usePool_ok.mp h).2
      exact change_of_workerStep hi rfl h
  | spurious i =>
      obtain ⟨hwait, h⟩ := run_await_ok.mp h
      obtain ⟨rfl, rfl⟩ := run_move_ok.mp h
      exact .spurious i (WorkerPc.eq_waiting hwait)
  | destroy =>
      obtain ⟨hout, h⟩ := run_await_ok.mp h
      obtain ⟨rfl, rfl⟩ := run_move_ok.mp h
      exact .destroy (DestructorPc.eq_out hout)
  | destructor => exact change_of_destructorStep rfl h

end KvStore.ThreadPool11
