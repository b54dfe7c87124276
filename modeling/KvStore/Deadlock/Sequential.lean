import KvStore.Deadlock.Registered

set_option autoImplicit false

/-! # Sequential use of the lock table

`lock_after` adds one to `lockidx` also when it reuses a slot that `unlock_after` has cleared. So in
a run of calls one after the other, `lockidx` is the number of calls of `pthread_mutex_lock` so far
(`Sequential`), and not the number of mutexes in use: the table is within its array exactly as long
as there have been at most `MAX` such calls (`lockidx_le_iff`), whatever the number of mutexes
(`lockidx_outgrows`). -/

namespace KvStore.Deadlock

open Function KvStore.Lib

/-- The calls can be made one after the other, when `owner` says who holds which mutex: a mutex is
locked when it is free, and unlocked by the thread that holds it. -/
def Matched (owner : Nat → Option Nat) : List Call → Prop
  | [] => True
  | .lock t lock :: calls =>
      lock ≠ 0 ∧ owner lock = none ∧ Matched (update owner lock (some t)) calls
  | .unlock t lock :: calls => owner lock = some t ∧ Matched (update owner lock none) calls

/-- The number of calls of `pthread_mutex_lock`. -/
def lockCalls : List Call → Nat
  | [] => 0
  | .lock _ _ :: calls => lockCalls calls + 1
  | .unlock _ _ :: calls => lockCalls calls

/-- **Between two calls**: the entries are those of the mutexes that are held, nobody waits, and `n`
locks have been made. -/
structure Sequential (max : Nat) (s : Sys) (owner : Nat → Option Nat) (n : Nat) : Prop where
  sound : Sound max s
  owner_eq : s.owner = owner
  phase : ∀ t, s.phase t = .run
  entry : ∀ lock, s.graph.entry lock = (owner lock).map fun t => (t, 0)
  lockidx : s.graph.lockidx = n

section Calls

variable {max : Nat} {s : Sys} {owner : Nat → Option Nat} {n t lock : Nat}

theorem sequential_zero : Sequential max Sys.zero (fun _ => none) 0 where
  sound := sound_zero
  owner_eq := rfl
  phase _ := rfl
  entry lock := by
    unfold TaskGraph.entry
    split_ifs <;> rfl
  lockidx := rfl

theorem phase_run_of_update {ph : Phase} {s' : Sys} (h : ∀ u, u ≠ t → s.phase u = .run)
    (hph : ph = .run) (hphase : s'.phase = update s.phase t ph) : ∀ u, s'.phase u = .run := by
  intro u
  by_cases hu : u = t
  · rw [hphase, hu, update_self, hph]
  · rw [phase_of_ne hphase hu]
    exact h u hu

theorem map_update_owner {o : Option Nat} :
    (fun m => (update owner lock o m).map fun t => (t, (0 : Int))) =
      update (fun m => (owner m).map fun t => (t, (0 : Int))) lock (o.map fun t => (t, 0)) := by
  funext m
  exact apply_update (fun _ (o : Option Nat) => o.map fun t => (t, (0 : Int))) owner lock o m

/-- A call of `pthread_mutex_lock` that returns. -/
theorem Sequential.returns_lock (h : Sequential max s owner n) (hfree : owner lock = none) :
    Returns (pthreadMutexLock max t lock) s fun _ s' =>
      Sequential max s' (update owner lock (some t)) (n + 1) := by
  refine returns_bind fun _ s₁ h₁ => returns_bind fun _ s₂ h₂ => fun _ s₃ h₃ => ?_
  have heffect₁ := step_effect h.sound h₁
  have hsound₁ := h.sound.effect heffect₁
  have heffect₂ := step_effect hsound₁ h₂
  have hsound₂ := hsound₁.effect heffect₂
  have heffect₃ := step_effect hsound₂ h₃
  have hsound₃ := hsound₂.effect heffect₃
  obtain ⟨-, -, howner₁, hphase₁, hgraph₁, -⟩ := heffect₁
  obtain ⟨-, -, hgraph₂, howner₂, hphase₂⟩ := heffect₂
  obtain ⟨-, howner₃, hphase₃, hnew, -⟩ := heffect₃
  have hnone : s.graph.entry lock = none := by rw [h.entry, hfree]; rfl
  have hgraph : s₂.graph = s.graph := hgraph₂.trans (hgraph₁ hnone)
  rw [hgraph] at hnew
  obtain ⟨-, hentry, -, hidx⟩ := hnew hnone
  refine ⟨hsound₃, ?_, ?_, ?_, ?_⟩
  · rw [howner₃, howner₂, howner₁, h.owner_eq]
  · refine phase_run_of_update (fun u hu => ?_) rfl hphase₃
    rw [phase_of_ne hphase₂ hu, phase_of_ne hphase₁ hu]
    exact h.phase u
  · intro m
    rw [hentry, show s.graph.entry = _ from funext h.entry]
    exact congrFun (map_update_owner (o := some t)).symm m
  · rw [hidx, h.lockidx]

/-- A call of `pthread_mutex_unlock` that returns. -/
theorem Sequential.returns_unlock (h : Sequential max s owner n) (hheld : owner lock = some t) :
    Returns (pthreadMutexUnlock max t lock) s fun _ s' =>
      Sequential max s' (update owner lock none) n := by
  refine returns_bind fun _ s₁ h₁ => fun _ s₂ h₂ => ?_
  have heffect₁ := step_effect h.sound h₁
  have hsound₁ := h.sound.effect heffect₁
  have heffect₂ := step_effect hsound₁ h₂
  have hsound₂ := hsound₁.effect heffect₂
  obtain ⟨-, -, hgraph₁, howner₁, hphase₁⟩ := heffect₁
  obtain ⟨-, howner₂, hphase₂, u, d, hsome, hshows⟩ := heffect₂
  rw [hgraph₁] at hsome hshows
  have hzero : d = 0 := by
    rw [h.entry, hheld] at hsome
    cases hsome
    rfl
  rw [if_pos hzero] at hshows
  refine ⟨hsound₂, ?_, ?_, ?_, ?_⟩
  · rw [howner₂, howner₁, h.owner_eq]
  · refine phase_run_of_update (fun u hu => ?_) rfl hphase₂
    rw [phase_of_ne hphase₁ hu]
    exact h.phase u
  · intro m
    rw [hshows.entry, show s.graph.entry = _ from funext h.entry]
    exact congrFun (map_update_owner (o := none)).symm m
  · rw [hshows.lockidx, h.lockidx]

/-! ## Calls within the array -/

variable {g : TaskGraph}

theorem run_getLock {i : Nat} (hi : i < max) : (getLock max i).run g = .ok (g.locklist i, g) := by
  rw [getLock, if_pos hi]
  rfl

theorem run_setLock {i : Nat} (hi : i < max) (e : LockEntry) :
    (setLock max i e).run g = .ok ((), g.write i e g.lockidx) := by
  rw [setLock, if_pos hi]
  rfl

/-- A search through the table. -/
theorem run_search (hle : g.lockidx ≤ max) (m : Nat) :
    (forLoop (fun i => do return if (← getLock max i).lockId = m then some i else none : Nat →
      Tg (Option Nat)) g.lockidx 0).run g = .ok (g.find m, g) := by
  refine run_forLoop_find (fun i => (g.locklist i).lockId = m) fun i hi => ?_
  rw [run_bind_ok (run_getLock (by omega))]
  rfl

theorem run_lockBefore_of_none (h : TableOk max g) (hle : g.lockidx ≤ max) (hlock : lock ≠ 0)
    (hnone : g.entry lock = none) : (lockBefore max t lock).run g = .ok ((), g) := by
  have hskip : (forLoop (lockBeforeBody max t lock) g.lockidx 0).run g = .ok (none, g) := by
    refine forLoop_skip fun i _ hi => ?_
    rw [lockBeforeBody, run_bind_ok (run_getLock (by omega)),
      if_neg ((h.entry_eq_none hlock).mp hnone i)]
    rfl
  rw [lockBefore, run_get_bind, run_bind_ok hskip]
  rfl

theorem exists_run_lockAfter (h : TableOk max g) (hlt : g.lockidx < max) (hlock : lock ≠ 0)
    (hnone : g.entry lock = none) : ∃ g', (lockAfter max t lock).run g = .ok ((), g') := by
  have hsearch : (searchLock max lock).run g = .ok (none, g) := by
    rw [searchLock, run_get_bind,
      run_search hlt.le, (h.find_eq_none hlock).mpr ((h.entry_eq_none hlock).mp hnone)]
  have hempty : (searchEmptyLock max).run g = .ok ((g.find 0).getD g.lockidx, g) := by
    rw [searchEmptyLock, run_get_bind, run_bind_ok (run_search hlt.le 0)]
    rfl
  obtain ⟨-, -, hle⟩ := returns_searchEmptyLock h _ _ hempty
  have hmax : (g.find 0).getD g.lockidx < max := by omega
  rw [lockAfter, run_bind_ok hsearch]
  show ∃ g', (searchEmptyLock max >>= _).run g = .ok ((), g')
  rw [run_bind_ok hempty, run_bind_ok (run_getLock hmax), run_bind_ok (run_setLock hmax _)]
  exact ⟨_, rfl⟩

theorem exists_run_unlockAfter (h : TableOk max g) (hentry : g.entry lock ≠ none) :
    ∃ g', (unlockAfter max lock).run g = .ok ((), g') := by
  obtain ⟨i, hi, hsearch⟩ := run_searchLock_of_entry h hentry
  rw [unlockAfter, run_bind_ok hsearch]
  show ∃ g', (getLock max i >>= _).run g = .ok ((), g')
  rw [run_bind_ok (run_getLock hi)]
  split_ifs
  · exact ⟨_, run_setLock hi _⟩
  · exact ⟨_, rfl⟩

/-- **`pthread_mutex_lock`** returns while fewer than `MAX` locks have been made. -/
theorem Sequential.ok_lock (h : Sequential max s owner n) (hlock : lock ≠ 0)
    (hfree : owner lock = none) (hn : n < max) :
    Ok (pthreadMutexLock max t lock) s fun _ s' =>
      Sequential max s' (update owner lock (some t)) (n + 1) := by
  have htable := h.sound.detector.table
  have hidx : s.graph.lockidx < max := by rw [h.lockidx]; exact hn
  have hnone : s.graph.entry lock = none := by rw [h.entry, hfree]; rfl
  obtain ⟨g, hafter⟩ := exists_run_lockAfter (t := t) htable hidx hlock hnone
  have hbefore := run_lockBefore_of_none (t := t) htable hidx.le hlock hnone
  -- the three steps, one after the other
  let s₁ := (s.setGraph s.graph).setPhase t (.before lock)
  let s₂ := (s₁.setOwner lock (some t)).setPhase t (.locked lock)
  have h₁ : (step max (.lockBefore t lock)).run s = .ok ((), s₁) :=
    run_await_ok.mpr ⟨⟨h.phase t, hlock⟩, run_hook_ok.mpr ⟨s.graph, hbefore, rfl⟩⟩
  have hphase₁ : s₁.phase t = .before lock := update_self ..
  have howner₁ : s₁.owner lock = none := by
    show s.owner lock = none
    rw [h.owner_eq, hfree]
  have h₂ : (step max (.lock t lock)).run s₁ = .ok ((), s₂) :=
    run_act_ok.mpr ⟨⟨hphase₁, howner₁⟩, rfl⟩
  have hphase₂ : s₂.phase t = .locked lock := update_self ..
  have h₃ : (step max (.lockAfter t lock)).run s₂ = .ok ((), (s₂.setGraph g).setPhase t .run) :=
    run_await_ok.mpr ⟨hphase₂, run_hook_ok.mpr ⟨g, hafter, rfl⟩⟩
  have hrun : (pthreadMutexLock max t lock).run s = .ok ((), (s₂.setGraph g).setPhase t .run) := by
    rw [pthreadMutexLock, run_bind_ok h₁, run_bind_ok h₂, h₃]
  exact ⟨_, _, hrun, h.returns_lock hfree _ _ hrun⟩

/-- **`pthread_mutex_unlock`** returns, however many locks have been made. -/
theorem Sequential.ok_unlock (h : Sequential max s owner n) (hheld : owner lock = some t) :
    Ok (pthreadMutexUnlock max t lock) s fun _ s' =>
      Sequential max s' (update owner lock none) n := by
  have hentry : s.graph.entry lock ≠ none := by
    rw [h.entry, hheld]
    exact Option.some_ne_none _
  obtain ⟨g, hafter⟩ := exists_run_unlockAfter h.sound.detector.table hentry
  let s₁ := (s.setOwner lock none).setPhase t (.unlocked lock)
  have howner : s.owner lock = some t := by rw [h.owner_eq, hheld]
  have h₁ : (step max (.unlock t lock)).run s = .ok ((), s₁) :=
    run_act_ok.mpr ⟨⟨h.phase t, howner⟩, rfl⟩
  have hphase₁ : s₁.phase t = .unlocked lock := update_self ..
  have h₂ : (step max (.unlockAfter t lock)).run s₁ = .ok ((), (s₁.setGraph g).setPhase t .run) :=
    run_await_ok.mpr ⟨hphase₁, run_hook_ok.mpr ⟨g, hafter, rfl⟩⟩
  have hrun : (pthreadMutexUnlock max t lock).run s
      = .ok ((), (s₁.setGraph g).setPhase t .run) := by
    rw [pthreadMutexUnlock, run_bind_ok h₁, h₂]
  exact ⟨_, _, hrun, h.returns_unlock hheld _ _ hrun⟩

end Calls

/-! ## Runs -/

/-- After a run that returns, `lockidx` has grown by the number of locks. -/
theorem Sequential.lockidx_of_run {max : Nat} :
    ∀ {calls : List Call} {s s' : Sys} {owner : Nat → Option Nat} {n : Nat} {rs : List Unit},
      Sequential max s owner n → Matched owner calls →
        (runAll (runCall max) calls).run s = .ok (rs, s') →
        s'.graph.lockidx = n + lockCalls calls := by
  intro calls
  induction calls with
  | nil =>
      intro s s' owner n rs h _ hrun
      cases hrun
      exact h.lockidx
  | cons c calls ih =>
      intro s s' owner n rs h hmatched hrun
      obtain ⟨r, s₁, rs', hc, hrest, -⟩ := runAll_cons_ok.mp hrun
      cases c with
      | lock t lock =>
          obtain ⟨-, hfree, hmatched⟩ := hmatched
          rw [ih (h.returns_lock hfree r s₁ hc) hmatched hrest, lockCalls]
          omega
      | unlock t lock =>
          obtain ⟨hheld, hmatched⟩ := hmatched
          rw [ih (h.returns_unlock hheld r s₁ hc) hmatched hrest, lockCalls]

/-- A run with few enough locks returns. -/
theorem Sequential.exists_run {max : Nat} :
    ∀ {calls : List Call} {s : Sys} {owner : Nat → Option Nat} {n : Nat},
      Sequential max s owner n → Matched owner calls → n + lockCalls calls ≤ max →
        ∃ rs s', (runAll (runCall max) calls).run s = .ok (rs, s') := by
  intro calls
  induction calls with
  | nil =>
      intro s owner n _ _ _
      exact ⟨[], s, rfl⟩
  | cons c calls ih =>
      intro s owner n h hmatched hle
      cases c with
      | lock t lock =>
          rw [lockCalls] at hle
          obtain ⟨hlock, hfree, hmatched⟩ := hmatched
          obtain ⟨r, s₁, hc, h₁⟩ := h.ok_lock (t := t) hlock hfree (by omega)
          obtain ⟨rs, s', hrest⟩ := ih h₁ hmatched (by omega)
          exact ⟨r :: rs, s', runAll_cons_ok.mpr ⟨r, s₁, rs, hc, hrest, rfl⟩⟩
      | unlock t lock =>
          obtain ⟨hheld, hmatched⟩ := hmatched
          obtain ⟨r, s₁, hc, h₁⟩ := h.ok_unlock hheld
          obtain ⟨rs, s', hrest⟩ := ih h₁ hmatched hle
          exact ⟨r :: rs, s', runAll_cons_ok.mpr ⟨r, s₁, rs, hc, hrest, rfl⟩⟩

theorem Matched.of_append : ∀ {pre calls : List Call} {owner : Nat → Option Nat},
    Matched owner (pre ++ calls) → Matched owner pre := by
  intro pre calls
  induction pre with
  | nil => exact fun _ => trivial
  | cons c pre ih =>
      intro owner h
      cases c with
      | lock t lock => exact ⟨h.1, h.2.1, ih h.2.2⟩
      | unlock t lock => exact ⟨h.1, ih h.2⟩

theorem lockCalls_append (pre calls : List Call) :
    lockCalls (pre ++ calls) = lockCalls pre + lockCalls calls := by
  induction pre with
  | nil => exact (Nat.zero_add _).symm
  | cons c pre ih =>
      cases c with
      | lock t lock =>
          rw [List.cons_append, lockCalls, lockCalls, ih]
          omega
      | unlock t lock => rw [List.cons_append, lockCalls, lockCalls, ih]

/-- **The lock table stays within its array**, at every point of a run of calls one after the other,
exactly when the run has at most `MAX` calls of `pthread_mutex_lock`. -/
theorem lockidx_le_iff (calls : List Call) (hmatched : Matched (fun _ => none) calls) :
    (∀ pre, pre <+: calls → ∃ rs s, (runAll (runCall maxSize) pre).run Sys.zero = .ok (rs, s) ∧
      s.graph.lockidx ≤ maxSize) ↔ lockCalls calls ≤ maxSize := by
  constructor
  · intro h
    obtain ⟨rs, s, hrun, hle⟩ := h calls (List.prefix_refl calls)
    rw [sequential_zero.lockidx_of_run hmatched hrun] at hle
    omega
  · rintro hle pre ⟨rest, rfl⟩
    rw [lockCalls_append] at hle
    have hpre := hmatched.of_append
    have hzero : Sequential maxSize Sys.zero (fun _ => none) 0 := sequential_zero
    obtain ⟨rs, s, hrun⟩ := hzero.exists_run hpre (by omega)
    refine ⟨rs, s, hrun, ?_⟩
    rw [hzero.lockidx_of_run hpre hrun]
    omega

/-- The thread `1` locks and unlocks the mutex at `8`, `n` times. -/
def lockUnlock : Nat → List Call
  | 0 => []
  | n + 1 => .lock 1 8 :: .unlock 1 8 :: lockUnlock n

theorem matched_lockUnlock (n : Nat) : Matched (fun _ => none) (lockUnlock n) := by
  induction n with
  | zero => trivial
  | succ n ih =>
      refine ⟨by decide, rfl, update_self .., ?_⟩
      rw [update_idem, update_eq_self]
      exact ih

theorem lockCalls_lockUnlock (n : Nat) : lockCalls (lockUnlock n) = n := by
  induction n with
  | zero => rfl
  | succ n ih => rw [lockUnlock, lockCalls, lockCalls, ih]

theorem lockidx_le_lockUnlock :
    Matched (fun _ => none) (lockUnlock 100) ∧
      ∀ pre, pre <+: lockUnlock 100 → ∃ rs s,
        (runAll (runCall maxSize) pre).run Sys.zero = .ok (rs, s) ∧ s.graph.lockidx ≤ maxSize := by
  have hle : lockCalls (lockUnlock 100) ≤ maxSize := by
    rw [lockCalls_lockUnlock]
    decide
  exact ⟨matched_lockUnlock 100, (lockidx_le_iff _ (matched_lockUnlock 100)).mpr hle⟩

/-- **One mutex is enough**: its lock number `101` takes `lockidx` out of the array. -/
theorem lockidx_outgrows :
    Matched (fun _ => none) (lockUnlock 101) ∧
      ¬∃ rs s, (runAll (runCall maxSize) (lockUnlock 101)).run Sys.zero = .ok (rs, s) ∧
        s.graph.lockidx ≤ maxSize := by
  refine ⟨matched_lockUnlock 101, ?_⟩
  rintro ⟨rs, s, hrun, hle⟩
  rw [sequential_zero.lockidx_of_run (matched_lockUnlock 101) hrun, lockCalls_lockUnlock] at hle
  exact absurd hle (by decide)

end KvStore.Deadlock
