import KvStore.TaskQueue.Model

set_option autoImplicit false

/-! # Wake-ups of the task queue

`pthread_cond_signal` is called without the mutex. A worker whose `__pop_task` has failed is not
asleep yet, and a signal that is given before it sleeps is lost on it. When every worker is in this
window the task is stranded (`signal_in_window`); in a run without such a signal none ever is
(`not_stranded_of_heard`). -/

namespace KvStore.TaskQueue

open Function KvStore.Lib

/-- **A stranded task**: the pool is open, the queue is not empty, all its workers sleep, and no
producer is about to wake one of them. -/
def Stranded (n : Nat) (s : Sys) : Prop :=
  s.queue.block = true ∧ s.queue.head ≠ 0 ∧ (∀ i < n, s.worker i = .waiting) ∧
    ∀ p, s.producer p = .out

/-- The worker is between its failed `__pop_task` and its sleep. -/
def WorkerPc.InWindow : WorkerPc → Prop
  | .failed => True
  | .locked => True
  | _ => False

/-- The signal is given to an empty queue, or some worker is outside the window. -/
def Heard (n : Nat) (s : Sys) : Step → Prop
  | .signal _ _ => s.queue.head = 0 ∨ ∃ i < n, ¬(s.worker i).InWindow
  | _ => True

/-! ## The invariant -/

/-- The worker will look at the queue before it sleeps. -/
def WorkerPc.Awake : WorkerPc → Prop
  | .idle => True
  | .pop => True
  | .woken => True
  | .relocked => True
  | _ => False

/-- Someone will see to the tasks in the queue. -/
def Attended (n : Nat) (s : Sys) : Prop :=
  (∃ p, s.producer p = .linked) ∨ ∃ i < n, (s.worker i).Awake

/-- No worker has left while the pool is open, and the tasks in the queue are attended. -/
structure Inv (n : Nat) (s : Sys) : Prop where
  open_of_left : ∀ i, s.worker i = .left → s.queue.block = false
  attended : s.queue.block = true → s.queue.head ≠ 0 → Attended n s

theorem Inv.not_stranded {n : Nat} {s : Sys} (h : Inv n s) : ¬Stranded n s := by
  rintro ⟨hopen, hhead, hworkers, hproducers⟩
  rcases h.attended hopen hhead with ⟨p, hp⟩ | ⟨i, hi, hawake⟩
  · rw [hproducers p] at hp
    cases hp
  · rw [hworkers i hi] at hawake
    exact hawake

section Steps

variable {n : Nat} {s : Sys} {i : Nat} {pc : WorkerPc}

/-- A worker that goes on, when it was not awake or stays awake. -/
theorem Attended.setWorker (h : Attended n s) (hpc : (s.worker i).Awake → pc.Awake) :
    Attended n (s.setWorker i pc) := by
  refine h.imp_right ?_
  rintro ⟨i', hi', hawake⟩
  refine ⟨i', hi', ?_⟩
  show (update s.worker i pc i').Awake
  by_cases heq : i' = i
  · subst heq
    rw [update_self]
    exact hpc hawake
  · rwa [update_of_ne heq]

/-- A producer that goes on, and was not about to signal. -/
theorem Attended.setProducer (h : Attended n s) {p : Nat} {pc : ProducerPc}
    (hp : s.producer p ≠ .linked) : Attended n (s.setProducer p pc) := by
  refine h.imp_left ?_
  rintro ⟨p', hp'⟩
  refine ⟨p', ?_⟩
  have hne : p' ≠ p := by
    rintro rfl
    exact hp hp'
  show update s.producer p pc p' = .linked
  rwa [update_of_ne hne]

theorem Inv.setMutex (h : Inv n s) (o : Option Owner) : Inv n (s.setMutex o) := ⟨h.1, h.2⟩

theorem Inv.setCloser (h : Inv n s) (j : Nat) (pc : CloserPc) :
    Inv n (s.setCloser j pc) := ⟨h.1, h.2⟩

theorem Inv.left_setWorker (h : Inv n s) (hleft : pc = .left → s.queue.block = false) :
    ∀ i', (s.setWorker i pc).worker i' = .left → s.queue.block = false :=
  (forall_update_iff s.worker (p := fun _ pc' => pc' = .left → s.queue.block = false)).mpr
    ⟨hleft, fun i' _ => h.open_of_left i'⟩

theorem Inv.setWorker (h : Inv n s) (hleft : pc = .left → s.queue.block = false)
    (hpc : (s.worker i).Awake → pc.Awake) : Inv n (s.setWorker i pc) :=
  ⟨h.left_setWorker hleft, fun hopen hhead => (h.attended hopen hhead).setWorker hpc⟩

/-- Only the emptiness of the queue matters. -/
theorem Inv.setQueue (h : Inv n s) {q : Queue} (hblock : q.block = s.queue.block)
    (hhead : q.head ≠ 0 → s.queue.head ≠ 0) : Inv n (s.setQueue q) := by
  refine ⟨fun i hi => hblock.trans (h.open_of_left i hi), fun hopen hne => ?_⟩
  exact h.attended (hblock.symm.trans hopen) (hhead hne)

theorem popTask_block (q : Queue) : (popTask q).2.block = q.block := by
  unfold popTask
  split_ifs <;> rfl

theorem popTask_of_head_eq_zero {q : Queue} (h : q.head = 0) : popTask q = (0, q) := if_pos h

theorem popTask_ne_zero {q : Queue} (h : q.head ≠ 0) : (popTask q).1 ≠ 0 := by
  rw [popTask, if_neg h]
  split_ifs <;> exact h

/-- A worker looks at the queue: it gets a task and is awake, or the queue is empty. -/
theorem Inv.popTask (h : Inv n s) (i : Nat) :
    Inv n ((s.setQueue (TaskQueue.popTask s.queue).2).setWorker i
      (if (TaskQueue.popTask s.queue).1 = 0 then .failed else .idle)) := by
  by_cases hhead : s.queue.head = 0
  · rw [popTask_of_head_eq_zero hhead, if_pos rfl]
    exact ⟨h.left_setWorker (fun hpc => absurd hpc (by decide)), fun _ hne => absurd hhead hne⟩
  · rw [if_neg (popTask_ne_zero hhead)]
    have hqueue := h.setQueue (popTask_block s.queue) fun _ => hhead
    exact hqueue.setWorker (fun hpc => absurd hpc (by decide)) fun _ => trivial

theorem addTask_block (task : Nat) (q : Queue) : (addTask task q).block = q.block := by
  unfold addTask
  split <;> rfl

/-- The producer of a new task attends to the queue until it has signalled. -/
theorem Inv.addTask (h : Inv n s) (task p : Nat) :
    Inv n ((s.setQueue (TaskQueue.addTask task s.queue)).setProducer p .linked) where
  open_of_left i hi := (addTask_block _ _).trans (h.open_of_left i hi)
  attended _ _ := Or.inl ⟨p, update_self ..⟩

/-- **A signal that is heard** leaves a worker awake. -/
theorem Inv.signal_none (h : Inv n s) {p : Nat} (hheard : Heard n s (.signal p none))
    (hwait : ∀ i < n, s.worker i ≠ .waiting) : Inv n (s.setProducer p .out) := by
  refine ⟨h.open_of_left, fun hopen hhead => Or.inr ?_⟩
  obtain ⟨i, hi, hout⟩ := hheard.resolve_left hhead
  refine ⟨i, hi, ?_⟩
  show (s.worker i).Awake
  -- the worker does not sleep, is not about to, and has not left an open pool
  have hne := hwait i hi
  have hleft := h.open_of_left i
  change s.queue.block = true at hopen
  cases hpc : s.worker i with
  | idle => trivial
  | pop => trivial
  | woken => trivial
  | relocked => trivial
  | failed => rw [hpc] at hout; exact hout trivial
  | locked => rw [hpc] at hout; exact hout trivial
  | waiting => exact hne hpc
  | left => rw [hleft hpc] at hopen; cases hopen

theorem Inv.signal_some (h : Inv n s) {p w : Nat} (hw : w < n) :
    Inv n ((s.setProducer p .out).setWorker w .woken) := by
  refine ⟨h.left_setWorker (fun hpc => absurd hpc (by decide)), fun _ _ => Or.inr ⟨w, hw, ?_⟩⟩
  show (update s.worker w .woken w).Awake
  rw [update_self]
  trivial

theorem Inv.wakeAll (h : Inv n s) : Inv n s.wakeAll := by
  refine ⟨fun i hi => h.open_of_left i ?_, fun hopen hhead => (h.attended hopen hhead).imp_right ?_⟩
  · change (if s.worker i = .waiting then .woken else s.worker i) = WorkerPc.left at hi
    split_ifs at hi
    exact hi
  · rintro ⟨i, hi, hawake⟩
    refine ⟨i, hi, ?_⟩
    show WorkerPc.Awake (if s.worker i = .waiting then .woken else s.worker i)
    split_ifs
    · trivial
    · exact hawake

/-- **One step** keeps the invariant, when a signal is heard. -/
theorem Inv.step (h : Inv n s) {o : Step} {u : Unit} {s' : Sys} (hheard : Heard n s o)
    (hrun : (step n o).run s = .ok (u, s')) : Inv n s' := by
  -- a step that leaves a worker as awake as it was
  have hawake : ∀ {i : Nat} {pc pc' : WorkerPc}, s.worker i = pc → (pc.Awake → pc'.Awake) →
      (s.worker i).Awake → pc'.Awake := by
    intro i pc pc' hpc himp ha
    rw [hpc] at ha
    exact himp ha
  cases o with
  | get i =>
      obtain ⟨-, rfl⟩ := run_act_ok.mp hrun
      exact h.setWorker (fun hpc => absurd hpc (by decide)) fun _ => trivial
  | popTask i =>
      obtain ⟨-, rfl⟩ := run_act_ok.mp hrun
      exact h.popTask i
  | lockMutex i =>
      obtain ⟨⟨hpc, -⟩, rfl⟩ := run_act_ok.mp hrun
      exact (h.setMutex _).setWorker (fun hpc => absurd hpc (by decide)) (hawake hpc id)
  | leave i =>
      obtain ⟨⟨hpc, hblock⟩, rfl⟩ := run_act_ok.mp hrun
      exact (h.setMutex _).setWorker (fun _ => hblock) (hawake hpc id)
  | condWait i =>
      obtain ⟨⟨hpc, -⟩, rfl⟩ := run_act_ok.mp hrun
      exact (h.setMutex _).setWorker (fun hpc => absurd hpc (by decide)) (hawake hpc id)
  | spurious i =>
      obtain ⟨-, rfl⟩ := run_act_ok.mp hrun
      exact h.setWorker (fun hpc => absurd hpc (by decide)) fun _ => trivial
  | relock i =>
      obtain ⟨-, rfl⟩ := run_act_ok.mp hrun
      exact (h.setMutex _).setWorker (fun hpc => absurd hpc (by decide)) fun _ => trivial
  | unlockMutex i =>
      obtain ⟨-, rfl⟩ := run_act_ok.mp hrun
      exact (h.setMutex _).setWorker (fun hpc => absurd hpc (by decide)) fun _ => trivial
  | post p task =>
      obtain ⟨⟨-, hp⟩, rfl⟩ := run_act_ok.mp hrun
      have hqueue : Inv n (s.setQueue (clearLink task s.queue)) := h.setQueue rfl id
      refine ⟨hqueue.open_of_left, fun hopen hhead => (hqueue.attended hopen hhead).setProducer ?_⟩
      intro hlinked
      exact absurd (hp.symm.trans hlinked) (by decide)
  | addTask p =>
      obtain ⟨-, rfl⟩ := run_act_ok.mp hrun
      exact h.addTask _ p
  | signal p w =>
      cases w with
      | none =>
          obtain ⟨⟨-, hwait⟩, rfl⟩ := run_act_ok.mp hrun
          exact h.signal_none hheard hwait
      | some w =>
          obtain ⟨⟨-, hw, -⟩, rfl⟩ := run_act_ok.mp hrun
          exact h.signal_some hw
  | closeLock j =>
      obtain ⟨-, rfl⟩ := run_act_ok.mp hrun
      exact (h.setMutex _).setCloser j _
  | closeClear j =>
      obtain ⟨-, rfl⟩ := run_act_ok.mp hrun
      exact ⟨fun _ _ => rfl, fun hopen => absurd (show false = true from hopen) (by decide)⟩
  | broadcast j =>
      obtain ⟨-, rfl⟩ := run_act_ok.mp hrun
      exact h.wakeAll.setCloser j _

end Steps

/-! ## Runs -/

theorem inv_start (n : Nat) (next : Nat → Nat) : Inv n (start next) where
  open_of_left _ hi := absurd (show WorkerPc.idle = .left from hi) (by decide)
  attended _ hhead := absurd rfl hhead

/-- **No task is stranded** in a run whose signals are all heard: each of them finds the queue
empty, or some worker outside the window between a failed `__pop_task` and the sleep. -/
theorem not_stranded_of_heard (n : Nat) (next : Nat → Nat) (steps : List Step) (us : List Unit)
    (s : Sys) (hrun : (runAll (step n) steps).run (start next) = .ok (us, s))
    (hheard : AllSteps (step n) (Heard n) (start next) steps) : ¬Stranded n s := by
  have hstep : ∀ o s r s', Inv n s → Heard n s o → (step n o).run s = .ok (r, s') → Inv n s' :=
    fun o s r s' h hP hrun => h.step hP hrun
  exact (AllSteps.invariant hstep (inv_start n next) hheard hrun).not_stranded

/-- A worker sleeps, and the signal for the task at `64` wakes it. -/
def heardSteps : List Step :=
  [.get 0, .popTask 0, .lockMutex 0, .condWait 0, .post 0 64, .addTask 0, .signal 0 (some 0)]

/-- The same signal, given when the worker has not found a task and does not sleep yet. -/
def unheardSteps : List Step :=
  [.get 0, .popTask 0, .post 0 64, .addTask 0, .signal 0 none, .lockMutex 0, .condWait 0]

theorem not_stranded_heardSteps :
    ∃ s, (runAll (step 1) heardSteps).run (start fun _ => 0) = .ok (List.replicate 7 (), s) ∧
      AllSteps (step 1) (Heard 1) (start fun _ => 0) heardSteps ∧ ¬Stranded 1 s := by
  have hheard : AllSteps (step 1) (Heard 1) (start fun _ => 0) heardSteps := by
    refine allSteps_cons trivial rfl <| allSteps_cons trivial rfl <| allSteps_cons trivial rfl <|
      allSteps_cons trivial rfl <| allSteps_cons trivial rfl <| allSteps_cons trivial rfl <|
      allSteps_cons ?_ rfl trivial
    -- at the signal the worker sleeps
    exact Or.inr ⟨0, by decide, id⟩
  exact ⟨_, rfl, hheard, not_stranded_of_heard 1 _ heardSteps _ _ rfl hheard⟩

/-- **A signal in the window is lost**: the task is in the queue, its producer has returned, and the
only worker sleeps. -/
theorem signal_in_window :
    ∃ s, (runAll (step 1) unheardSteps).run (start fun _ => 0) = .ok (List.replicate 7 (), s) ∧
      Stranded 1 s := by
  refine ⟨_, rfl, rfl, by decide, ?_, ?_⟩
  · intro i hi
    obtain rfl : i = 0 := by omega
    rfl
  · intro p
    by_cases hp : p = 0
    · subst hp
      rfl
    · show update (update (update (fun _ => ProducerPc.out) 0 (.entered 64))
        0 .linked) 0 .out p = .out
      rw [update_of_ne hp, update_of_ne hp, update_of_ne hp]

end KvStore.TaskQueue
