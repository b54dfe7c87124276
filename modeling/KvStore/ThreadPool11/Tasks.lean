import KvStore.Lib.Simulation
import KvStore.ThreadPool11.Changes

set_option autoImplicit false

/-! # The tasks of the pool

`History n rs s`: what the events so far say about the state. The tasks that `enqueue` has accepted
are those that the workers have taken, followed by those in the queue, in this order; a worker has
called the tasks that it has taken, but for the one it has. When the destructor returns, every task
that has been accepted has been called (`tasks_run_once`).
-/

namespace KvStore.ThreadPool11

open Function KvStore.Lib

variable {τ : Type}

/-! ## Events -/

def Event.accepted? : Event τ → Option τ
  | .accepted task => some task
  | _ => none

def Event.took? : Event τ → Option (Nat × τ)
  | .took i task => some (i, task)
  | _ => none

def Event.finished? : Event τ → Option (Nat × τ)
  | .finished i task => some (i, task)
  | _ => none

/-- The tasks that `enqueue` has accepted, in this order. -/
def accepted (rs : List (Option (Event τ))) : List τ := pick Event.accepted? rs

/-- The tasks that workers have taken, in this order, with who has taken them. -/
def took (rs : List (Option (Event τ))) : List (Nat × τ) := pick Event.took? rs

/-- The tasks that have been called and have returned, in this order, with who has called them. -/
def finished (rs : List (Option (Event τ))) : List (Nat × τ) := pick Event.finished? rs

/-- Those of one worker. -/
def ofWorker (i : Nat) (l : List (Nat × τ)) : List (Nat × τ) := l.filter fun e => e.1 = i

theorem ofWorker_self (i : Nat) (task : τ) : ofWorker i [(i, task)] = [(i, task)] := by
  simp [ofWorker]

theorem ofWorker_of_ne {i j : Nat} (h : j ≠ i) (task : τ) : ofWorker j [(i, task)] = [] := by
  simp [ofWorker, Ne.symm h]

/-! ## Histories -/

/-- The task that a worker has. -/
def WorkerPc.held : WorkerPc τ → List τ
  | .unlock task => [task]
  | .run task => [task]
  | _ => []

/-- The worker has left the loop. -/
def WorkerPc.Gone : WorkerPc τ → Prop
  | .leave => True
  | .left => True
  | _ => False

/-- Up to which worker the destructor has joined. -/
def DestructorPc.Joined (w : Nat → WorkerPc τ) (n : Nat) : DestructorPc → Prop
  | .join k => ∀ i < n, i < k → w i = .left
  | .returned => ∀ i < n, w i = .left
  | _ => True

/-- **What has happened so far.** -/
structure History (n : Nat) (rs : List (Option (Event τ))) (s : Sys τ) : Prop where
  order : accepted rs = (took rs).map Prod.snd ++ s.tasks
  mine : ∀ i, ofWorker i (took rs) = ofWorker i (finished rs) ++ (s.worker i).held.map (i, ·)
  idle : ∀ i, n ≤ i → (s.worker i).held = []
  gone : ∀ i, (s.worker i).Gone → s.stop = true ∧ s.tasks = []
  joined : s.destructor.Joined s.worker n

/-- What a step means for the history: the changes of the tasks, of one worker and of the events
fit. -/
structure Fits (n : Nat) (s : Sys τ) (r : Option (Event τ)) (s' : Sys τ) : Prop where
  order : s.tasks ++ (r.bind Event.accepted?).toList =
    (r.bind Event.took?).toList.map Prod.snd ++ s'.tasks
  mine : ∀ i, (s.worker i).held.map (i, ·) ++ ofWorker i (r.bind Event.took?).toList =
    ofWorker i (r.bind Event.finished?).toList ++ (s'.worker i).held.map (i, ·)
  idle : ∀ i, n ≤ i → (s.worker i).held = [] → (s'.worker i).held = []

section Steps

variable {n : Nat} {s s' : Sys τ} {r : Option (Event τ)}

/-- A step that takes or ends no task, and leaves every worker with the task it had. -/
theorem fits_quiet (htasks : s.tasks ++ (r.bind Event.accepted?).toList = s'.tasks)
    (htook : r.bind Event.took? = none) (hfinished : r.bind Event.finished? = none)
    (hheld : ∀ i, (s'.worker i).held = (s.worker i).held) : Fits n s r s' where
  order := by
    rw [htasks, htook]
    rfl
  mine i := by
    rw [htook, hfinished, hheld]
    exact List.append_nil _
  idle i _ h := (hheld i).trans h

theorem held_wakeAll (i : Nat) : (s.wakeAll.worker i).held = (s.worker i).held := by
  show (if (s.worker i).isWaiting = true then WorkerPc.woken else s.worker i).held = _
  split_ifs with hwait
  · rw [WorkerPc.eq_waiting hwait]
    rfl
  · rfl

theorem Change.fits (h : Change n s r s') : Fits n s r s' := by
  have hnil : s.tasks ++ [] = s.tasks := List.append_nil _
  -- a worker that has the same before and behind the step
  have hsame : ∀ {i : Nat} {pc pc' : WorkerPc τ}, s.worker i = pc → pc'.held = pc.held →
      ∀ j, (update s.worker i pc' j).held = (s.worker j).held := by
    intro i pc pc' hpc heq
    refine (forall_update_iff s.worker
      (p := fun j pc'' => pc''.held = (s.worker j).held)).mpr ⟨by rw [hpc, heq], fun _ _ => rfl⟩
  cases h with
  | accept p task h hstop => exact fits_quiet rfl rfl rfl fun _ => rfl
  | notifyOne p w h hw hwait => exact fits_quiet hnil rfl rfl (hsame hwait rfl)
  | workerLock i hi h =>
      rcases h with h | h
      · exact fits_quiet hnil rfl rfl (hsame h rfl)
      · exact fits_quiet hnil rfl rfl (hsame h rfl)
  | leave i hi h htasks hstop => exact fits_quiet hnil rfl rfl (hsame h rfl)
  | wait i hi h htasks hstop => exact fits_quiet hnil rfl rfl (hsame h rfl)
  | take i hi h task rest htasks =>
      have hold : (s.worker i).held = [] := by rw [h]; rfl
      refine ⟨hnil.trans htasks, fun j => ?_, fun j hj hj0 => ?_⟩
      · show _ ++ ofWorker j [(i, task)] = [] ++ (update s.worker i _ j).held.map (j, ·)
        by_cases hji : j = i
        · subst hji
          rw [hold, ofWorker_self, update_self]
          rfl
        · rw [ofWorker_of_ne hji, update_of_ne hji, List.append_nil, List.nil_append]
      · show (update s.worker i _ j).held = []
        rwa [update_of_ne (by omega)]
  | workerUnlock i hi task h => exact fits_quiet hnil rfl rfl (hsame h rfl)
  | finish i hi task h =>
      have hold : (s.worker i).held = [task] := by rw [h]; rfl
      refine ⟨hnil, fun j => ?_, fun j hj hj0 => ?_⟩
      · show _ ++ [] = ofWorker j [(i, task)] ++ (update s.worker i _ j).held.map (j, ·)
        by_cases hji : j = i
        · subst hji
          rw [hold, ofWorker_self, update_self]
          rfl
        · rw [ofWorker_of_ne hji, update_of_ne hji, List.append_nil, List.nil_append]
      · show (update s.worker i _ j).held = []
        rwa [update_of_ne (by omega)]
  | left i hi h => exact fits_quiet hnil rfl rfl (hsame h rfl)
  | spurious i h => exact fits_quiet hnil rfl rfl (hsame h rfl)
  | notifyAll h => exact fits_quiet hnil rfl rfl held_wakeAll
  | _ => exact fits_quiet hnil rfl rfl fun _ => rfl

/-- A worker leaves only when the pool is stopped and has no task, and then it has none for good. -/
theorem Change.gone (h : Change n s r s')
    (hgone : ∀ i, (s.worker i).Gone → s.stop = true ∧ s.tasks = []) :
    ∀ i, (s'.worker i).Gone → s'.stop = true ∧ s'.tasks = [] := by
  -- the other workers, and this one if it has not left now
  have hworker : ∀ {i : Nat} {pc : WorkerPc τ}, (pc.Gone → s.stop = true ∧ s.tasks = []) →
      ∀ j, (update s.worker i pc j).Gone → s.stop = true ∧ s.tasks = [] := by
    intro i pc hpc
    exact (forall_update_iff s.worker
      (p := fun _ pc' => WorkerPc.Gone pc' → s.stop = true ∧ s.tasks = [])).mpr
      ⟨hpc, fun j _ => hgone j⟩
  cases h with
  | call p task h => exact hgone
  | callerLock p task h => exact hgone
  | refuse p task h hstop => exact hgone
  | accept p task h hstop =>
      intro i hi
      have hstopped := (hgone i hi).1
      rw [hstop] at hstopped
      cases hstopped
  | callerUnlock p accepted h => exact hgone
  | notifyOne p w h hw hwait => exact hworker False.elim
  | notifyNone p h hwait => exact hgone
  | workerLock i hi h => exact hworker False.elim
  | leave i hi h htasks hstop => exact hworker fun _ => ⟨hstop, htasks⟩
  | wait i hi h htasks hstop => exact hworker False.elim
  | take i hi h task rest htasks =>
      intro j hj
      have hempty := (hworker False.elim j hj).2
      rw [htasks] at hempty
      cases hempty
  | workerUnlock i hi task h => exact hworker False.elim
  | finish i hi task h => exact hworker False.elim
  | left i hi h => exact hworker fun _ => hgone i (by rw [h]; trivial)
  | spurious i h => exact hworker False.elim
  | destroy h => exact hgone
  | destructorLock h => exact hgone
  | stop h => exact fun i hi => ⟨rfl, (hgone i hi).2⟩
  | destructorUnlock h => exact hgone
  | notifyAll h =>
      intro i hi
      change (if (s.worker i).isWaiting = true then WorkerPc.woken else s.worker i).Gone at hi
      split_ifs at hi
      · exact hi.elim
      · exact hgone i hi
  | join i hi h hleft => exact hgone
  | destroyed i hi h => exact hgone

/-- A worker that has returned does not come back. -/
theorem Change.left_stays (h : Change n s r s') {i : Nat} (hleft : s.worker i = .left) :
    s'.worker i = .left := by
  have hworker : ∀ {j : Nat} {pc : WorkerPc τ}, s.worker j ≠ .left →
      update s.worker j pc i = .left := by
    intro j pc hj
    have hne : i ≠ j := by
      rintro rfl
      exact hj hleft
    rw [update_of_ne hne, hleft]
  have hne : ∀ {j : Nat} {pc : WorkerPc τ}, s.worker j = pc → pc.isLeft = false →
      s.worker j ≠ .left := by
    intro j pc hpc hpcLeft heq
    rw [← hpc, heq] at hpcLeft
    cases hpcLeft
  cases h with
  | notifyOne p w h hw hwait => exact hworker (hne hwait rfl)
  | workerLock j hj h =>
      rcases h with h | h
      · exact hworker (hne h rfl)
      · exact hworker (hne h rfl)
  | leave j hj h htasks hstop => exact hworker (hne h rfl)
  | wait j hj h htasks hstop => exact hworker (hne h rfl)
  | take j hj h task rest htasks => exact hworker (hne h rfl)
  | workerUnlock j hj task h => exact hworker (hne h rfl)
  | finish j hj task h => exact hworker (hne h rfl)
  | left j hj h => exact hworker (hne h rfl)
  | spurious j h => exact hworker (hne h rfl)
  | notifyAll h =>
      show (if (s.worker i).isWaiting = true then WorkerPc.woken else s.worker i) = .left
      rw [hleft]
      rfl
  | _ => exact hleft

theorem DestructorPc.Joined.mono {w w' : Nat → WorkerPc τ} {pc : DestructorPc} (h : pc.Joined w n)
    (hw : ∀ i, w i = .left → w' i = .left) : pc.Joined w' n := by
  cases pc with
  | join k => exact fun i hi hik => hw i (h i hi hik)
  | returned => exact fun i hi => hw i (h i hi)
  | _ => trivial

/-- The destructor goes on to the next worker when this one has returned. -/
theorem Change.joined (h : Change n s r s') (hjoined : s.destructor.Joined s.worker n) :
    s'.destructor.Joined s'.worker n := by
  have hstays : ∀ i, s.worker i = .left → s'.worker i = .left := fun i => h.left_stays
  have hkeep := hjoined.mono hstays
  cases h with
  | destroy h => trivial
  | destructorLock h => trivial
  | stop h => trivial
  | destructorUnlock h => trivial
  | notifyAll h => exact fun i _ hi => absurd hi (Nat.not_lt_zero i)
  | join k hk h hleft =>
      rw [h] at hjoined
      intro i hi hik
      rcases Nat.lt_succ_iff_lt_or_eq.mp hik with hlt | rfl
      · exact hjoined i hi hlt
      · exact hleft
  | destroyed k hk h =>
      rw [h] at hjoined
      exact fun i hi => hjoined i hi (lt_of_lt_of_le hi hk)
  | _ => exact hkeep

theorem History.step {rs : List (Option (Event τ))} (h : History n rs s)
    (hchange : Change n s r s') : History n (rs ++ [r]) s' := by
  have hfits := hchange.fits
  refine ⟨?_, fun i => ?_, fun i hi => hfits.idle i hi (h.idle i hi), hchange.gone h.gone,
    hchange.joined h.joined⟩
  · rw [accepted, took, pick_append, pick_append, List.map_append]
    show accepted rs ++ _ = (took rs).map Prod.snd ++ _ ++ _
    rw [h.order, List.append_assoc, hfits.order, List.append_assoc]
  · rw [took, finished, pick_append, pick_append, ofWorker, ofWorker, List.filter_append,
      List.filter_append]
    show ofWorker i (took rs) ++ _ = ofWorker i (finished rs) ++ _ ++ _
    rw [h.mine, List.append_assoc, List.append_assoc]
    exact congrArg _ (hfits.mine i)

end Steps

theorem history_start (τ : Type) (n : Nat) : History n [] (start τ) where
  order := rfl
  mine _ := rfl
  idle _ _ := rfl
  gone _ h := h.elim
  joined := trivial

/-- **Every task is called once.** In every run of a pool of `n` workers, at least one, the tasks
that `enqueue` has accepted are those that workers have taken, in the same order, and then those in
the queue; every worker calls the tasks that it has taken, in this order, and no others. When the
destructor has returned, the queue is empty, every worker has returned, and every task that was
accepted has been called exactly once. -/
theorem tasks_run_once (n : Nat) (hn : 0 < n) (steps : List (Step τ))
    (rs : List (Option (Event τ))) (s : Sys τ)
    (hrun : (runAll (step n) steps).run (start τ) = .ok (rs, s)) :
    accepted rs = (took rs).map Prod.snd ++ s.tasks ∧
      (∀ i, ofWorker i (took rs) = ofWorker i (finished rs) ++ (s.worker i).held.map (i, ·)) ∧
      (s.destructor.isReturned = true → s.tasks = [] ∧ (∀ i < n, s.worker i = .left) ∧
        ((finished rs).map Prod.snd).Perm (accepted rs)) := by
  have hstep : ∀ (rs : List (Option (Event τ))) o s r s', History n rs s →
      (step n o).run s = .ok (r, s') → History n (rs ++ [r]) s' :=
    fun rs o s r s' h ho => h.step (change_of_step ho)
  have h := runAll_history hstep (history_start τ n) hrun
  refine ⟨h.order, h.mine, fun hreturned => ?_⟩
  have hleft := h.joined
  rw [DestructorPc.eq_returned hreturned] at hleft
  have htasks : s.tasks = [] := (h.gone 0 (by rw [hleft 0 hn]; trivial)).2
  refine ⟨htasks, hleft, ?_⟩
  rw [h.order, htasks, List.append_nil]
  refine (perm_of_filter_eq Prod.fst fun i => ?_).map Prod.snd
  have hheld : (s.worker i).held = [] := by
    rcases lt_or_ge i n with hi | hi
    · rw [hleft i hi]
      rfl
    · exact h.idle i hi
  have hmine := h.mine i
  rw [hheld] at hmine
  exact (hmine.trans (List.append_nil _)).symm

/-- A task is accepted while the one worker is busy with another one; the pool is destroyed before
the worker is back. -/
def exampleSteps : List (Step Nat) :=
  [.enqueue 0 7, .caller 0, .caller 0, .caller 0, .notifyOne 0 none, .worker 0,
    .worker 0, .worker 0, .enqueue 1 8, .caller 1, .caller 1, .caller 1, .destroy, .destructor,
    .destructor, .destructor,
    .destructor, .notifyOne 1 none, .worker 0, .worker 0, .worker 0, .worker 0,
    .worker 0, .worker 0,
    .worker 0, .worker 0, .destructor, .destructor]

theorem tasks_run_once_exampleSteps :
    ∃ rs s, (runAll (step 1) exampleSteps).run (start Nat) = .ok (rs, s) ∧
      s.destructor.isReturned = true ∧ accepted rs = [7, 8] ∧ finished rs = [(0, 7), (0, 8)] ∧
        s.tasks = [] ∧ ((finished rs).map Prod.snd).Perm (accepted rs) := by
  refine ⟨_, _, rfl, rfl, rfl, rfl, ?_⟩
  obtain ⟨-, -, hreturned⟩ := tasks_run_once 1 (by decide) exampleSteps _ _ rfl
  exact ⟨(hreturned rfl).1, (hreturned rfl).2.2⟩

end KvStore.ThreadPool11
