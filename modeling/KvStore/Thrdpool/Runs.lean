import KvStore.Thrdpool.Owner

set_option autoImplicit false

/-! # Runs of the worker pool

In every run whose users keep to `Disciplined`, no step goes wrong (`pool_never_faults`), and every
task is handled once (`tasks_handled_once`): tasks are taken in the order in which they were linked,
each one is called by the worker that has taken it or dropped by `__taskqueue_destroy`, and when
`thrdpool_waitdone` has returned, or `thrdpool_create` has failed, nothing is left behind. -/

namespace KvStore.Thrdpool

open KvStore.Lib

variable {τ : Type}

section Step

variable {rs : List (Option (Event τ))} {s : Sys τ}

theorem Inv.threadStep (h : Inv rs s) (n : Nat) (t : Thread)
    (hdisciplined : Disciplined s (.thread t)) :
    Takes (threadStep n t (s.pc t)) s fun r s' => Inv (rs ++ [r]) s' := by
  have ht := h.1.fits t
  cases hpc : s.pc t with
  | pop u pc => exact h.popStep hpc
  | add task func arg pc => exact h.addStep hpc
  | close u pc => exact h.closeStep hpc
  | fill task func arg => exact h.fillStep hpc n
  | testQuit func arg => exact h.testQuitStep hpc n
  | create i =>
      rw [hpc] at ht
      obtain rfl : t = .owner := ht
      refine takes_await fun _ => ?_
      rw [ok_bind, ok_modify, ok_go]
      exact h.writeCount hpc .ready rfl rfl rfl rfl rfl rfl rfl
  | join failed i =>
      rw [hpc] at ht
      obtain rfl : t = .owner := ht
      exact h.joinStep hpc hdisciplined
  | loop => exact h.workStep hpc rfl n
  | lockMutex => exact h.workStep hpc rfl n
  | testBlock => exact h.workStep hpc rfl n
  | condWait => exact h.workStep hpc rfl n
  | woken => exact h.workStep hpc rfl n
  | relocked => exact h.workStep hpc rfl n
  | giveUp => exact h.workStep hpc rfl n
  | read task => exact h.workStep hpc rfl n
  | free task func arg => exact h.workStep hpc rfl n
  | run func arg => exact h.workStep hpc rfl n
  | freeThreads failed => exact h.teardownStep hpc rfl n
  | drop failed task => exact h.teardownStep hpc rfl n
  | destroyCond failed => exact h.teardownStep hpc rfl n
  | destroyMutex failed => exact h.teardownStep hpc rfl n
  | freeQueue failed => exact h.teardownStep hpc rfl n
  | freePool failed => exact h.teardownStep hpc rfl n
  | _ => exact Or.inl rfl

/-- A caller outside makes a call. -/
theorem Inv.call (h : Inv rs s) {p : Nat} (hpub : (s.pc .owner).isPublished = true)
    (hout : (s.pc (.caller p)).isOut = true) {pc : Pc τ} (hfits : pc.Fits (.caller p))
    (hview : pc.view = .idle) : Inv (rs ++ [none]) (s.goto (.caller p) pc) := by
  have hcaller : (Thread.caller p).IsCaller := trivial
  refine (h.goto (moves_of_ne (h.1.goto_caller hcaller hpub hfits) (by simp)) ?_).silent silent_none
  rw [hview, Pc.eq_out hout]
  rfl

/-- **One step** is blocked, or keeps the invariant. -/
theorem Inv.step (h : Inv rs s) (n : Nat) (o : Step τ) (hdisciplined : Disciplined s o) :
    Takes (step n o) s fun r s' => Inv (rs ++ [r]) s' := by
  -- a step that looks at where its thread is
  have hget : ∀ {f : Sys τ → Exec (Sys τ) (Option (Event τ))},
      Takes (f s) s (fun r s' => Inv (rs ++ [r]) s') →
          Takes (get >>= f) s fun r s' => Inv (rs ++ [r]) s' :=
    fun htakes => takes_bind (Ok.takes ((ok_get s _).mpr htakes))
  cases o with
  | post p func arg =>
      refine takes_await fun hout => ?_
      rw [ok_go]
      exact h.call hdisciplined hout trivial rfl
  | terminate p =>
      refine takes_await fun hout => ?_
      rw [ok_go]
      exact h.call hdisciplined hout trivial rfl
  | waitdone =>
      refine takes_await fun hready => ?_
      rw [ok_go]
      have hpc : s.pc .owner = .ready := by
        cases hpc : s.pc .owner with
        | ready => rfl
        | _ => rw [hpc] at hready; cases hready
      have hres := h.1.res
      have hcounts := h.1.counts
      have hcreated : (s.pc .owner).created s.thrdCount = s.thrdCount.getD 0 := by rw [hpc]; rfl
      rw [hpc] at hres hcounts
      have hstage : Stage (s.goto .owner (.join false 0)) :=
        h.1.goto_owner (f := id) rfl rfl hres hcounts hcreated.symm
          (fun i hi => absurd hi (Nat.not_lt_zero i)) fun hpub => (by cases hpub)
      exact (h.goto (moves_owner hstage fun h => (by cases h)) (by rw [hpc]; rfl)).silent
        silent_none
  | thread t => exact hget (h.threadStep n t hdisciplined)
  | attempt ok => exact hget (h.attempt n ok)
  | malloc t a => exact hget (h.mallocStep t a)
  | signal t w => exact hget (h.signalStep n t w)
  | spurious i =>
      refine takes_await fun hwaiting => ?_
      rw [ok_go]
      exact (h.wake hwaiting).1.silent silent_none

theorem takes_step (n : Nat) (rs : List (Option (Event τ))) (o : Step τ) (s : Sys τ) (h : Inv rs s)
    (hdisciplined : Disciplined s o) : Takes (step n o) s fun r s' => Inv (rs ++ [r]) s' :=
  h.step n o hdisciplined

end Step

theorem inv_start (τ : Type) : Inv [] (start τ) := by
  have hview : (start τ).views = fun _ => View.idle := by
    funext t
    show (if t = .owner then Pc.mallocPool else Pc.out : Pc τ).view = View.idle
    split_ifs <;> rfl
  have hstage : Stage (start τ) := by
    refine ⟨fun t => ?_, rfl, rfl, fun i => ?_, fun i hi => ?_, fun _ p => rfl⟩
    · show (if t = .owner then Pc.mallocPool else Pc.out : Pc τ).Fits t
      split_ifs with ht
      · exact ht
      · exact ht
    · exact ⟨fun _ => Nat.zero_le i, fun _ => rfl⟩
    · exact absurd hi (Nat.not_lt_zero i)
  refine ⟨hstage, [], ?_, fun _ => rfl⟩
  rw [hview]
  refine ⟨⟨none, rfl, fun t => ?_, fun _ => rfl, fun t h => (by cases h)⟩, fun t => ?_, ?_,
    fun t a h => (by cases h), ?_⟩
  · exact ⟨fun h => (by cases h), fun h => (by cases h)⟩
  · exact ⟨fun h => (by cases h), fun h => (by cases h)⟩
  · exact ⟨rfl, owned_empty, fun a ha => absurd ha List.not_mem_nil,
      fun t a b h => (by cases h), rfl⟩
  · exact ⟨rfl, fun t => rfl⟩

/-- **The pool never goes wrong.** In every run whose users keep to `Disciplined`, with any failures
while the pool is made and any choice of addresses by `malloc`: no block, no queue, no pool, no
thread array, no mutex and no condition variable is used when it is not there, none is given back
twice or while it is in use, and no field of a task is read before it has been written. -/
theorem pool_never_faults (n : Nat) (steps : List (Step τ))
    (hdisciplined : AllSteps (step n) Disciplined (start τ) steps) :
    (runAll (step n) steps).run (start τ) = .error .blocked ∨
      ∃ rs s, (runAll (step n) steps).run (start τ) = .ok (rs, s) := by
  cases hrun : (runAll (step n) steps).run (start τ) with
  | error e =>
      rw [AllSteps.only_blocked (takes_step n) (inv_start τ) hdisciplined hrun]
      exact Or.inl rfl
  | ok result => exact Or.inr ⟨result.1, result.2, rfl⟩

/-- A test for `Disciplined` that does not look behind the last join. -/
def isDisciplined (s : Sys τ) : Step τ → Bool
  | .post _ _ _ => (s.pc .owner).isPublished
  | .terminate _ => (s.pc .owner).isPublished
  | .thread .owner =>
      match s.pc .owner with
      | .join false i => decide (i < s.thrdCount.getD 0)
      | _ => true
  | _ => true

theorem disciplined_of_isDisciplined (s : Sys τ) (o : Step τ) (h : isDisciplined s o = true) :
    Disciplined s o := by
  cases o with
  | thread t =>
      cases t with
      | owner =>
          intro i hpc hi
          rw [isDisciplined, hpc] at h
          exact absurd (of_decide_eq_true h) (not_lt.mpr hi)
      | _ => trivial
  | post p func arg => exact h
  | terminate p => exact h
  | _ => trivial

/-- The second thread cannot be created; the first one is told to leave, and everything is given
back. -/
def failedSteps : List (Step Nat) :=
  [.attempt true, .attempt true, .attempt true, .attempt true, .attempt true, .attempt true,
    .attempt true, .attempt false, .thread .owner, .thread .owner, .thread (.worker 0),
    .thread .owner, .thread .owner,
    .thread .owner, .thread .owner, .thread .owner, .thread .owner, .thread .owner, .thread .owner,
    .thread .owner,
    .thread .owner, .thread .owner, .thread .owner, .thread .owner]

theorem pool_never_faults_failedSteps :
    ∃ rs s, (runAll (step 2) failedSteps).run (start Nat) = .ok (rs, s) :=
  (pool_never_faults 2 failedSteps
    (allSteps_of_checkAll disciplined_of_isDisciplined rfl)).resolve_left fun h => by cases h

example : ∃ rs s, (runAll (step 2) failedSteps).run (start Nat) = .ok (rs, s) ∧
    (s.pc .owner).isReturned = true := ⟨_, _, rfl, rfl⟩

/-! ## Tasks -/

/-- Nothing is there any more. -/
def Released (s : Sys τ) : Prop :=
  s.res = ⟨false, false, false, false, false⟩ ∧ ∀ a, s.tasks a = none

theorem Inv.released {rs : List (Option (Event τ))} {s : Sys τ} (h : Inv rs s)
    (hreturned : (s.pc .owner).isReturned = true) :
    (took rs).map Prod.snd = linked rs ∧ (took rs).Perm (ended rs) ∧ Released s := by
  obtain ⟨failed, hpc⟩ : ∃ failed, s.pc .owner = .returned failed := by
    cases hpc : s.pc .owner with
    | returned failed => exact ⟨failed, rfl⟩
    | _ => rw [hpc] at hreturned; cases hreturned
  obtain ⟨hstage, L, hcore, hempty⟩ := h
  obtain rfl := hempty (by rw [hpc]; rfl)
  have hphase : (s.pc .owner).phase = .late := by rw [hpc]; rfl
  have hidle : ∀ t, s.views t = .idle := by
    intro t
    by_cases ht : t = .owner
    · rw [Sys.views, ht, hpc]
      rfl
    · exact hstage.idle_of_late hphase ht
  refine ⟨?_, ?_, ?_, ?_⟩
  · rw [hcore.history.order, List.filterMap_nil, List.append_nil]
  · refine perm_of_filter_eq Prod.fst fun t => ?_
    have hmine := hcore.history.mine t
    rw [hidle t] at hmine
    exact hmine.trans (List.append_nil _)
  · rw [hstage.res, hpc]
    rfl
  · intro a
    have hunused := hcore.memory.owned.used_eq_false (fun t => by rw [hidle t]; rfl) a
    rwa [Option.isSome_eq_false_iff, Option.isNone_iff_eq_none] at hunused

/-- A thread is at most at one task. -/
theorem length_jobs_le (tasks : Nat → Option (Task τ)) (taken : Taken τ) :
    (taken.jobs tasks).length ≤ 1 := by
  cases taken with
  | none => exact Nat.zero_le 1
  | block a =>
      rw [Taken.jobs]
      cases jobAt tasks a with
      | none => exact Nat.zero_le 1
      | some job => exact le_rfl
  | read func arg => exact le_rfl

/-- **Every task is handled once.** In every run whose users keep to `Disciplined`: the tasks are
taken in the order in which they were put in the queue; each thread has called, or dropped, the
tasks that it has taken, in their order, but for the last one, which it may still be at. When
`thrdpool_waitdone` has returned, or `thrdpool_create` has failed, every task that was put in the
queue has been called or dropped exactly once, and all memory, the mutex and the condition variable
have been given back. -/
theorem tasks_handled_once (n : Nat) (steps : List (Step τ))
    (rs : List (Option (Event τ))) (s : Sys τ)
    (hdisciplined : AllSteps (step n) Disciplined (start τ) steps)
    (hrun : (runAll (step n) steps).run (start τ) = .ok (rs, s)) :
    (took rs).map Prod.snd <+: linked rs ∧
      (∀ t, ofThread t (ended rs) <+: ofThread t (took rs) ∧
        (ofThread t (took rs)).length ≤ (ofThread t (ended rs)).length + 1) ∧
      ((s.pc .owner).isReturned = true →
        (took rs).map Prod.snd = linked rs ∧ (took rs).Perm (ended rs) ∧ Released s) := by
  have hinv : Inv rs s := AllSteps.history (takes_step n) (inv_start τ) hdisciplined hrun
  refine ⟨?_, fun t => ?_, hinv.released⟩
  · obtain ⟨-, L, hcore, -⟩ := hinv
    exact ⟨_, hcore.history.order.symm⟩
  · obtain ⟨-, L, hcore, -⟩ := hinv
    have hmine := hcore.history.mine t
    refine ⟨⟨_, hmine.symm⟩, ?_⟩
    rw [hmine, List.length_append, List.length_map]
    exact Nat.add_le_add_left (length_jobs_le s.tasks (s.views t).taken) _

/-- A pool of one worker is made, a task is posted, and the worker calls it. -/
def postedSteps : List (Step Nat) :=
  [.attempt true, .attempt true, .attempt true, .attempt true, .attempt true, .attempt true,
    .attempt true, .thread .owner, .post 0 5 9, .thread (.caller 0), .malloc (.caller 0) 64,
    .thread (.caller 0),
    .thread (.caller 0), .thread (.caller 0), .thread (.caller 0), .thread (.worker 0),
    .thread (.caller 0),
    .thread (.caller 0), .thread (.worker 0), .thread (.worker 0), .thread (.worker 0),
    .thread (.worker 0),
    .thread (.worker 0), .thread (.worker 0), .thread (.worker 0), .thread (.worker 0)]

theorem tasks_handled_once_postedSteps :
    ∃ rs s, (runAll (step 1) postedSteps).run (start Nat) = .ok (rs, s) ∧ linked rs = [(5, 9)] ∧
      called rs = [(.worker 0, 5, 9)] ∧ (took rs).map Prod.snd <+: linked rs := by
  refine ⟨_, _, rfl, rfl, rfl, ?_⟩
  exact (tasks_handled_once 1 postedSteps _ _
    (allSteps_of_checkAll disciplined_of_isDisciplined rfl) rfl).1

end KvStore.Thrdpool
