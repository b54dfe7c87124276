import KvStore.ThreadPool11.Tasks

set_option autoImplicit false

/-! # The pool is never stuck

`enqueue` notifies a worker behind every task it accepts, and a worker looks at the queue, under the
mutex, before it sleeps. So while there is a task in the queue, some worker is awake or about to be
notified (`Inv.attended`); and when the pool is stopped, no worker sleeps behind `notify_all`
(`Inv.stopping`). It follows that while there is something to do for the workers, some thread of the
pool can take a step (`pool_never_stuck`). -/

namespace KvStore.ThreadPool11

open Function KvStore.Lib

variable {τ : Type}

/-! ## The invariant -/

/-- Between the lock and the unlock of the mutex. -/
def WorkerPc.Holding : WorkerPc τ → Prop
  | .test => True
  | .unlock _ => True
  | .leave => True
  | _ => False

def CallerPc.Holding : CallerPc τ → Prop
  | .emplace _ => True
  | .unlock _ => True
  | _ => False

def DestructorPc.Holding : DestructorPc → Prop
  | .stop => True
  | .unlock => True
  | _ => False

/-- The thread is one of the pool's, and is to unlock the mutex. -/
def Sys.Holding (n : Nat) (s : Sys τ) : Holder → Prop
  | .worker i => i < n ∧ (s.worker i).Holding
  | .caller p => (s.caller p).Holding
  | .destructor => s.destructor.Holding

/-- The worker will look at the queue before it sleeps or leaves. -/
def WorkerPc.Awake : WorkerPc τ → Prop
  | .lock => True
  | .test => True
  | .woken => True
  | .unlock _ => True
  | .run _ => True
  | _ => False

/-- `notify_one` will be called. -/
def CallerPc.Notifies : CallerPc τ → Prop
  | .unlock accepted => accepted = true
  | .notify => True
  | _ => False

/-- `notify_all` will be called. -/
def DestructorPc.Notifies : DestructorPc → Prop
  | .unlock => True
  | .notifyAll => True
  | _ => False

/-- **The invariant**: who holds the mutex, and who sees to the tasks and to the end. -/
structure Inv (n : Nat) (s : Sys τ) : Prop where
  held : ∀ h, s.queueMutex = some h → s.Holding n h
  attended : s.tasks ≠ [] → (∃ p, (s.caller p).Notifies) ∨ AnyOf n s.worker WorkerPc.Awake
  stopping : s.stop = true → s.destructor.Notifies ∨ ∀ i < n, (s.worker i).isWaiting = false

section Steps

variable {n : Nat} {s s' : Sys τ} {r : Option (Event τ)}

/-! ## The mutex -/

/-- Nobody holds the mutex. -/
theorem held_of_none (h : s.queueMutex = none) : ∀ h, s.queueMutex = some h → s.Holding n h := by
  intro holder hsome
  rw [h] at hsome
  cases hsome

theorem holding_setWorker {i : Nat} {pc : WorkerPc τ} (hpc : (s.worker i).Holding → pc.Holding)
    {h : Holder} (hold : s.Holding n h) : (s.setWorker i pc).Holding n h := by
  cases h with
  | caller p => exact hold
  | destructor => exact hold
  | worker j =>
      refine ⟨hold.1, ?_⟩
      show (update s.worker i pc j).Holding
      by_cases hj : j = i
      · subst hj
        rw [update_self]
        exact hpc hold.2
      · rw [update_of_ne hj]
        exact hold.2

theorem holding_setCaller {p : Nat} {pc : CallerPc τ} (hpc : (s.caller p).Holding → pc.Holding)
    {h : Holder} (hold : s.Holding n h) : (s.setCaller p pc).Holding n h := by
  cases h with
  | worker i => exact hold
  | destructor => exact hold
  | caller q =>
      show (update s.caller p pc q).Holding
      by_cases hq : q = p
      · subst hq
        rw [update_self]
        exact hpc hold
      · rw [update_of_ne hq]
        exact hold

theorem holding_setDestructor {pc : DestructorPc} (hpc : s.destructor.Holding → pc.Holding)
    {h : Holder} (hold : s.Holding n h) : (s.setDestructor pc).Holding n h := by
  cases h with
  | worker i => exact hold
  | caller p => exact hold
  | destructor => exact hpc hold

/-- The mutex stays with a thread that is to unlock it. -/
theorem Change.held (h : Change n s r s') (hheld : ∀ h, s.queueMutex = some h → s.Holding n h) :
    ∀ h, s'.queueMutex = some h → s'.Holding n h := by
  cases h with
  | call p task h =>
      exact fun x hx =>
        holding_setCaller (fun hold => by rw [h] at hold; exact hold.elim) (hheld x hx)
  | callerLock p task h =>
      rintro x hx
      cases hx
      show (update s.caller p (.emplace task) p).Holding
      rw [update_self]
      trivial
  | refuse p task h hstop => exact fun x hx => holding_setCaller (fun _ => by trivial) (hheld x hx)
  | accept p task h hstop =>
      exact fun x hx => holding_setCaller (s := s.setTasks _) (fun _ => by trivial) (hheld x hx)
  | callerUnlock p accepted h => exact held_of_none rfl
  | notifyOne p w h hw hwait =>
      intro x hx
      refine holding_setWorker (fun hold => ?_) (holding_setCaller (fun hold => ?_) (hheld x hx))
      · change (s.worker w).Holding at hold
        rw [hwait] at hold
        exact hold
      · rw [h] at hold
        exact hold
  | notifyNone p h hwait =>
      exact fun x hx => holding_setCaller (fun hold => by rw [h] at hold; exact hold) (hheld x hx)
  | workerLock i hi h =>
      rintro x hx
      cases hx
      refine ⟨hi, ?_⟩
      show (update s.worker i .test i).Holding
      rw [update_self]
      trivial
  | leave i hi h htasks hstop =>
      exact fun x hx => holding_setWorker (fun _ => by trivial) (hheld x hx)
  | wait i hi h htasks hstop => exact held_of_none rfl
  | take i hi h task rest htasks =>
      exact fun x hx => holding_setWorker (s := s.setTasks _) (fun _ => by trivial) (hheld x hx)
  | workerUnlock i hi task h => exact held_of_none rfl
  | finish i hi task h =>
      exact fun x hx => holding_setWorker (fun hold => by rw [h] at hold; exact hold) (hheld x hx)
  | left i hi h => exact held_of_none rfl
  | spurious i h =>
      exact fun x hx => holding_setWorker (fun hold => by rw [h] at hold; exact hold) (hheld x hx)
  | destroy h =>
      exact fun x hx =>
        holding_setDestructor (fun hold => by rw [h] at hold; exact hold) (hheld x hx)
  | destructorLock h =>
      rintro x hx
      cases hx
      trivial
  | stop h =>
      intro x hx
      have hold : (s.setDestructor .unlock).Holding n x :=
        holding_setDestructor (fun _ => by trivial) (hheld x hx)
      cases x <;> exact hold
  | destructorUnlock h => exact held_of_none rfl
  | notifyAll h =>
      intro x hx
      refine holding_setDestructor (fun hold => ?_) ?_
      · change s.destructor.Holding at hold
        rw [h] at hold
        exact hold
      · have hold := hheld x hx
        cases x with
        | caller p => exact hold
        | destructor => exact hold
        | worker i =>
            refine ⟨hold.1, ?_⟩
            show (if (s.worker i).isWaiting = true then WorkerPc.woken else s.worker i).Holding
            split_ifs with hwait
            · have hno := hold.2
              rw [WorkerPc.eq_waiting hwait] at hno
              exact hno
            · exact hold.2
  | join i hi h hleft =>
      exact fun x hx =>
        holding_setDestructor (fun hold => by rw [h] at hold; exact hold) (hheld x hx)
  | destroyed i hi h =>
      exact fun x hx =>
        holding_setDestructor (fun hold => by rw [h] at hold; exact hold) (hheld x hx)

/-! ## Tasks and wake-ups -/

/-- A worker that goes on stays awake, or was not. -/
theorem anyOf_awake {i : Nat} {pc pc' : WorkerPc τ} (h : AnyOf n s.worker WorkerPc.Awake)
    (hpc : s.worker i = pc) (hpc' : pc.Awake → pc'.Awake) :
    AnyOf n (update s.worker i pc') WorkerPc.Awake :=
  h.update fun hawake => hpc' (by rwa [hpc] at hawake)

/-- A caller that goes on still notifies, or did not. -/
theorem notifies_setCaller {p : Nat} {pc pc' : CallerPc τ} (h : ∃ q, (s.caller q).Notifies)
    (hpc : s.caller p = pc) (hpc' : pc.Notifies → pc'.Notifies) :
    ∃ q, (update s.caller p pc' q).Notifies := by
  obtain ⟨q, hq⟩ := h
  refine ⟨q, ?_⟩
  by_cases hqp : q = p
  · subst hqp
    rw [update_self]
    exact hpc' (by rwa [hpc] at hq)
  · rwa [update_of_ne hqp]

/-- **While there is a task**, some worker is awake, or about to be notified. -/
theorem Change.attended (h : Change n s r s')
    (hgone : ∀ i, (s.worker i).Gone → s.stop = true ∧ s.tasks = []) (hn : 0 < n)
    (hattended : s.tasks ≠ [] → (∃ p, (s.caller p).Notifies) ∨ AnyOf n s.worker WorkerPc.Awake) :
    s'.tasks ≠ [] → (∃ p, (s'.caller p).Notifies) ∨ AnyOf n s'.worker WorkerPc.Awake := by
  cases h with
  | call p task h =>
      exact fun hne => (hattended hne).imp_left fun hp => notifies_setCaller hp h False.elim
  | callerLock p task h =>
      exact fun hne => (hattended hne).imp_left fun hp => notifies_setCaller hp h False.elim
  | refuse p task h hstop =>
      exact fun hne => (hattended hne).imp_left fun hp => notifies_setCaller hp h False.elim
  | accept p task h hstop =>
      refine fun _ => Or.inl ⟨p, ?_⟩
      show (update s.caller p (.unlock true) p).Notifies
      rw [update_self]
      rfl
  | callerUnlock p accepted h =>
      refine fun hne =>
        (hattended hne).imp_left fun hp => notifies_setCaller hp h fun haccepted => ?_
      change accepted = true at haccepted
      rw [if_pos haccepted]
      trivial
  | notifyOne p w h hw hwait => exact fun _ => Or.inr (anyOf_update_self hw trivial)
  | notifyNone p h hwait =>
      -- nobody sleeps, and nobody has left a pool with tasks
      refine fun hne => Or.inr ⟨0, hn, ?_⟩
      have hnowait := hwait 0 hn
      have hgone0 := hgone 0
      change s.tasks ≠ [] at hne
      show (s.worker 0).Awake
      cases hpc : s.worker 0 with
      | waiting => rw [hpc] at hnowait; cases hnowait
      | leave => rw [hpc] at hgone0; exact absurd (hgone0 trivial).2 hne
      | left => rw [hpc] at hgone0; exact absurd (hgone0 trivial).2 hne
      | _ => trivial
  | workerLock i hi h => exact fun _ => Or.inr (anyOf_update_self hi trivial)
  | leave i hi h htasks hstop => exact fun hne => absurd htasks hne
  | wait i hi h htasks hstop => exact fun hne => absurd htasks hne
  | take i hi h task rest htasks => exact fun _ => Or.inr (anyOf_update_self hi trivial)
  | workerUnlock i hi task h => exact fun _ => Or.inr (anyOf_update_self hi trivial)
  | finish i hi task h => exact fun _ => Or.inr (anyOf_update_self hi trivial)
  | left i hi h => exact fun hne => (hattended hne).imp_right fun hany => anyOf_awake hany h id
  | spurious i h =>
      exact fun hne => (hattended hne).imp_right fun hany => anyOf_awake hany h fun _ => trivial
  | destroy h => exact hattended
  | destructorLock h => exact hattended
  | stop h => exact hattended
  | destructorUnlock h => exact hattended
  | notifyAll h =>
      refine fun hne => (hattended hne).imp_right fun hany => hany.map fun i _ hawake => ?_
      show (if (s.worker i).isWaiting = true then WorkerPc.woken else s.worker i).Awake
      split_ifs
      · trivial
      · exact hawake
  | join i hi h hleft => exact hattended
  | destroyed i hi h => exact hattended

/-- **When the pool is stopped**, no worker sleeps behind `notify_all`. -/
theorem Change.stopping (h : Change n s r s')
    (hstopping : s.stop = true → s.destructor.Notifies ∨ ∀ i < n, (s.worker i).isWaiting = false) :
    s'.stop = true → s'.destructor.Notifies ∨ ∀ i < n, (s'.worker i).isWaiting = false := by
  -- a worker goes on, and does not fall asleep
  have hworker : ∀ {i : Nat} {pc : WorkerPc τ}, pc.isWaiting = false → s.stop = true →
      s.destructor.Notifies ∨ ∀ j < n, (update s.worker i pc j).isWaiting = false := by
    intro i pc hpc hstop
    refine (hstopping hstop).imp_right fun hall j hj => ?_
    by_cases hji : j = i
    · subst hji
      rwa [update_self]
    · rw [update_of_ne hji]
      exact hall j hj
  cases h with
  | call p task h => exact hstopping
  | callerLock p task h => exact hstopping
  | refuse p task h hstop => exact hstopping
  | accept p task h hstop => exact hstopping
  | callerUnlock p accepted h => exact hstopping
  | notifyOne p w h hw hwait => exact hworker rfl
  | notifyNone p h hwait => exact hstopping
  | workerLock i hi h => exact hworker rfl
  | leave i hi h htasks hstop => exact hworker rfl
  | wait i hi h htasks hstop =>
      intro hstop'
      change s.stop = true at hstop'
      rw [hstop] at hstop'
      cases hstop'
  | take i hi h task rest htasks => exact hworker rfl
  | workerUnlock i hi task h => exact hworker rfl
  | finish i hi task h => exact hworker rfl
  | left i hi h => exact hworker rfl
  | spurious i h => exact hworker rfl
  | destroy h =>
      exact fun hstop => (hstopping hstop).imp_left fun hd => by rw [h] at hd; exact hd
  | destructorLock h =>
      exact fun hstop => (hstopping hstop).imp_left fun hd => by rw [h] at hd; exact hd
  | stop h => exact fun _ => Or.inl trivial
  | destructorUnlock h => exact fun _ => Or.inl trivial
  | notifyAll h =>
      refine fun _ => Or.inr fun i _ => ?_
      show (if (s.worker i).isWaiting = true then WorkerPc.woken else s.worker i).isWaiting = false
      split_ifs with hwait
      · rfl
      · exact Bool.not_eq_true _ ▸ hwait
  | join i hi h hleft =>
      exact fun hstop => (hstopping hstop).imp_left fun hd => by rw [h] at hd; exact hd
  | destroyed i hi h =>
      exact fun hstop => (hstopping hstop).imp_left fun hd => by rw [h] at hd; exact hd

theorem Inv.step {rs : List (Option (Event τ))} (h : Inv n s) (hhistory : History n rs s)
    (hn : 0 < n) (hchange : Change n s r s') : Inv n s' :=
  ⟨hchange.held h.held, hchange.attended hhistory.gone hn h.attended, hchange.stopping h.stopping⟩

theorem inv_start (τ : Type) (n : Nat) : Inv n (start τ) where
  held := held_of_none rfl
  attended hne := absurd rfl hne
  stopping hstop := by cases hstop

/-! ## Steps that can be taken -/

/-- A step of the pool's own threads: not a new call, and no wake-up without a cause. -/
def Step.Internal : Step τ → Prop
  | .caller _ => True
  | .notifyOne _ _ => True
  | .worker _ => True
  | .destructor => True
  | _ => False

/-- Some thread of the pool can go on. -/
def CanStep (n : Nat) (s : Sys τ) : Prop :=
  ∃ o : Step τ, o.Internal ∧ ∃ r s', (step n o).run s = .ok (r, s')

theorem run_usePool {c : Exec (Sys τ) (Option (Event τ))} (huse : s.destructor.isReturned = false)
    (h : ∃ r s', c.run s = .ok (r, s')) : ∃ r s', (usePool c).run s = .ok (r, s') := by
  obtain ⟨r, s', hrun⟩ := h
  exact ⟨r, s', run_usePool_ok.mpr ⟨huse, hrun⟩⟩

/-- A worker can go on, unless it sleeps, has returned, or needs a mutex that is held. -/
theorem canStep_worker {i : Nat} (hi : i < n) (huse : s.destructor.isReturned = false)
    (h : (s.worker i).Holding ∨ s.queueMutex = none ∧ (s.worker i).isWaiting = false ∧
      s.worker i ≠ .left) :
    CanStep n s := by
  refine ⟨.worker i, trivial, run_usePool huse ?_⟩
  have hworker : ∃ r s', (workerStep i (s.worker i)).run s = .ok (r, s') := by
    have hacquire : s.queueMutex = none → ∃ r s',
        (acquire (.worker i) (Sys.setWorker i .test)).run s = .ok (r, s') :=
      fun hm => ⟨_, _, run_acquire_ok.mpr ⟨by rw [hm]; rfl, rfl, rfl⟩⟩
    cases hpc : s.worker i with
    | lock =>
        rw [hpc] at h
        exact hacquire (h.resolve_left id).1
    | test =>
        show ∃ r s', (testSection i s).run s = .ok (r, s')
        unfold testSection
        cases s.tasks with
        | nil =>
            dsimp only
            split_ifs
            · exact ⟨_, _, rfl⟩
            · exact ⟨_, _, rfl⟩
        | cons task rest => exact ⟨_, _, rfl⟩
    | waiting =>
        rw [hpc] at h
        cases (h.resolve_left id).2.1
    | woken =>
        rw [hpc] at h
        exact hacquire (h.resolve_left id).1
    | unlock task => exact ⟨_, _, rfl⟩
    | run task => exact ⟨_, _, rfl⟩
    | leave => exact ⟨_, _, rfl⟩
    | left =>
        rw [hpc] at h
        exact absurd rfl (h.resolve_left id).2.2
  obtain ⟨r, s', hrun⟩ := hworker
  exact ⟨r, s', run_await_ok.mpr ⟨hi, hrun⟩⟩

/-- A caller that holds the mutex can go on. -/
theorem canStep_caller {p : Nat} (huse : s.destructor.isReturned = false)
    (h : (s.caller p).Holding) : CanStep n s := by
  refine ⟨.caller p, trivial, run_usePool huse ?_⟩
  have hcaller : ∃ r s', (callerStep p (s.caller p)).run s = .ok (r, s') := by
    cases hpc : s.caller p with
    | emplace task =>
        show ∃ r s',
          (if s.stop = true then emit _ _ else emit _ _ : Exec (Sys τ) (Option (Event τ))).run s =
          .ok (r, s')
        split_ifs
        · exact ⟨_, _, rfl⟩
        · exact ⟨_, _, rfl⟩
    | unlock accepted => exact ⟨_, _, rfl⟩
    | out => rw [hpc] at h; exact h.elim
    | lock task => rw [hpc] at h; exact h.elim
    | notify => rw [hpc] at h; exact h.elim
  exact hcaller

/-- `notify_one` can always be called. -/
theorem canStep_notify {p : Nat} (huse : s.destructor.isReturned = false)
    (h : s.caller p = .notify) : CanStep n s := by
  have hnotify : (s.caller p).isNotify = true := by rw [h]; rfl
  by_cases hwait : ∃ w, w < n ∧ (s.worker w).isWaiting = true
  · obtain ⟨w, hw, hwait⟩ := hwait
    exact ⟨.notifyOne p (some w), trivial,
      run_usePool huse ⟨_, _, run_await_ok.mpr ⟨⟨hnotify, hw, hwait⟩, rfl⟩⟩⟩
  · refine ⟨.notifyOne p none, trivial,
      run_usePool huse ⟨_, _, run_await_ok.mpr ⟨⟨hnotify, fun i hi => ?_⟩, rfl⟩⟩⟩
    rw [← Bool.not_eq_true]
    exact fun hi' => hwait ⟨i, hi, hi'⟩

/-- The destructor can go on to `notify_all`. -/
theorem canStep_destructor (h : s.destructor.Holding ∨ s.destructor.Notifies) : CanStep n s := by
  refine ⟨.destructor, trivial, ?_⟩
  show ∃ r s', (destructorStep n s.destructor).run s = .ok (r, s')
  cases hpc : s.destructor with
  | stop => exact ⟨_, _, rfl⟩
  | unlock => exact ⟨_, _, rfl⟩
  | notifyAll => exact ⟨_, _, rfl⟩
  | out => rw [hpc] at h; exact (h.elim id id).elim
  | lock => rw [hpc] at h; exact (h.elim id id).elim
  | join i => rw [hpc] at h; exact (h.elim id id).elim
  | returned => rw [hpc] at h; exact (h.elim id id).elim

/-- There is something to do: a task in the queue, or a worker of a stopped pool that has not
returned. -/
def Pending (n : Nat) (s : Sys τ) : Prop :=
  s.tasks ≠ [] ∨ s.stop = true ∧ ∃ i < n, s.worker i ≠ .left

theorem Inv.canStep {rs : List (Option (Event τ))} (h : Inv n s) (hhistory : History n rs s)
    (hn : 0 < n) (hpending : Pending n s) : CanStep n s := by
  -- the destructor has not returned
  have huse : s.destructor.isReturned = false := by
    rw [← Bool.not_eq_true]
    intro hreturned
    have hleft := hhistory.joined
    rw [DestructorPc.eq_returned hreturned] at hleft
    rcases hpending with hne | ⟨-, i, hi, hne⟩
    · exact hne (hhistory.gone 0 (by rw [hleft 0 hn]; trivial)).2
    · exact hne (hleft i hi)
  cases hmutex : s.queueMutex with
  | some holder =>
      have hold := h.held holder hmutex
      cases holder with
      | worker i => exact canStep_worker hold.1 huse (Or.inl hold.2)
      | caller p => exact canStep_caller huse hold
      | destructor => exact canStep_destructor (Or.inl hold)
  | none =>
      -- an awake worker can lock the mutex
      have hawake : ∀ i < n, (s.worker i).isWaiting = false → s.worker i ≠ .left → CanStep n s :=
        fun i hi hwait hleft => canStep_worker hi huse (Or.inr ⟨hmutex, hwait, hleft⟩)
      rcases hpending with hne | ⟨hstop, i, hi, hleft⟩
      · rcases h.attended hne with ⟨p, hp⟩ | ⟨i, hi, hp⟩
        · cases hpc : s.caller p with
          | unlock accepted => exact canStep_caller huse (by rw [hpc]; trivial)
          | notify => exact canStep_notify huse hpc
          | out => rw [hpc] at hp; exact hp.elim
          | lock task => rw [hpc] at hp; exact hp.elim
          | emplace task => rw [hpc] at hp; exact hp.elim
        · refine hawake i hi ?_ ?_
          · cases hpc : s.worker i with
            | waiting => rw [hpc] at hp; exact hp.elim
            | _ => rfl
          · intro hleft
            rw [hleft] at hp
            exact hp
      · rcases h.stopping hstop with hnotifies | hall
        · exact canStep_destructor (Or.inr hnotifies)
        · exact hawake i hi (hall i hi) hleft

end Steps

/-- **The pool is never stuck.** In every run, while there is a task in the queue, or the pool is
stopped and a worker has not returned, some thread of the pool can take a step: no wake-up is lost,
and nobody waits for a mutex that is not given back. -/
theorem pool_never_stuck (n : Nat) (hn : 0 < n) (steps : List (Step τ))
    (rs : List (Option (Event τ))) (s : Sys τ)
    (hrun : (runAll (step n) steps).run (start τ) = .ok (rs, s)) (hpending : Pending n s) :
    CanStep n s := by
  have hstep : ∀ (rs : List (Option (Event τ))) o s r s', (History n rs s ∧ Inv n s) →
      (step n o).run s = .ok (r, s') → History n (rs ++ [r]) s' ∧ Inv n s' := by
    rintro rs o s r s' ⟨hhistory, hinv⟩ ho
    have hchange := change_of_step ho
    exact ⟨hhistory.step hchange, hinv.step hhistory hn hchange⟩
  obtain ⟨hhistory, hinv⟩ := runAll_history hstep ⟨history_start τ n, inv_start τ n⟩ hrun
  exact hinv.canStep hhistory hn hpending

/-- A task is in the queue, and the worker sleeps until it is notified. -/
def sleepingSteps : List (Step Nat) :=
  [.worker 0, .worker 0, .enqueue 0 7, .caller 0, .caller 0, .caller 0]

theorem pool_never_stuck_sleepingSteps :
    ∃ rs s, (runAll (step 1) sleepingSteps).run (start Nat) = .ok (rs, s) ∧
      (s.worker 0).isWaiting = true ∧ CanStep 1 s :=
  ⟨_, _, rfl, rfl, pool_never_stuck 1 (by decide) sleepingSteps _ _ rfl (Or.inl (by decide))⟩

end KvStore.ThreadPool11
