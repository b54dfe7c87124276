import KvStore.Thrdpool.Steps

set_option autoImplicit false

/-! # The owner of the worker pool

The steps of `thrdpool_create`, `thrdpool_waitdone` and `__taskqueue_destroy`. When the owner takes
the queue apart, every other thread is out (`Stage.idle_of_late`): no worker sleeps on the condition
variable, and nobody holds the mutex. -/

namespace KvStore.Thrdpool

open KvStore.Lib

variable {τ : Type}

section Owner

variable {rs : List (Option (Event τ))} {s : Sys τ} {pc : Pc τ} {t : Thread}

/-! ## Behind the joins -/

theorem Pc.eq_out (h : pc.isOut = true) : pc = .out := by
  cases pc with
  | out => rfl
  | _ => cases h

theorem Pc.eq_left (h : pc.isLeft = true) : pc = .left := by
  cases pc with
  | left => rfl
  | _ => cases h

theorem Pc.not_published_of_late (h : pc.phase = .late) : pc.isPublished = false := by
  cases pc with
  | ready => cases h
  | join failed i => cases h
  | _ => rfl

/-- Behind the joins, every other thread is out. -/
theorem Stage.quiet_of_late (h : Stage s) (hphase : (s.pc .owner).phase = .late)
    (ht : t ≠ .owner) : s.pc t = .out ∨ s.pc t = .left := by
  cases t with
  | worker i =>
      obtain ⟨hjoined, hcreated⟩ := Pc.joined_of_late hphase s.thrdCount
      rcases Nat.lt_or_ge i (s.thrdCount.getD 0) with hlt | hge
      · exact Or.inr (Pc.eq_left (h.joined i (by rwa [hjoined])))
      · exact Or.inl (Pc.eq_out ((h.created i).mpr (by rwa [hcreated])))
  | caller p => exact Or.inl (Pc.eq_out (h.unpublished (Pc.not_published_of_late hphase) p))
  | owner => exact absurd rfl ht

theorem Stage.idle_of_late (h : Stage s) (hphase : (s.pc .owner).phase = .late)
    (ht : t ≠ .owner) : s.views t = .idle := by
  rw [Sys.views]
  rcases h.quiet_of_late hphase ht with heq | heq <;> rw [heq] <;> rfl

theorem Stage.not_hasWaiter (h : Stage s) (hphase : (s.pc .owner).phase = .late) :
    s.hasWaiter = false := by
  rw [Sys.hasWaiter, List.any_eq_false]
  intro i _
  rcases h.quiet_of_late hphase (t := .worker i) (by simp)
    with heq | heq <;> rw [heq] <;> exact Bool.false_ne_true

/-- Nobody holds the mutex. -/
theorem Inv.mutex_eq_none (h : Inv rs s) (hphase : (s.pc .owner).phase = .late)
    (hholds : (s.pc .owner).view.holds = false) : s.mutex = none := by
  obtain ⟨hstage, L, hcore, -⟩ := h
  cases hmutex : s.mutex with
  | none => rfl
  | some t =>
      have hheld : (s.views t).holds = true := (hcore.mutex t).mpr hmutex
      by_cases ht : t = .owner
      · subst ht
        rw [Sys.views, hholds] at hheld
        cases hheld
      · rw [hstage.idle_of_late hphase ht] at hheld
        cases hheld

/-- **The owner goes on behind the joins**, and what has been allocated changes with its place. -/
theorem Stage.goto_late (h : Stage s) (hphase : (s.pc .owner).phase = .late)
    (hphase' : pc.phase = .late) (hfits : pc.Fits .owner) (hcounts : pc.Counts s.thrdCount)
    {f : Sys τ → Sys τ} (hpc : (f s).pc = s.pc) (hcount : (f s).thrdCount = s.thrdCount)
    (hres : (f s).res = pc.resources) : Stage ((f s).goto .owner pc) := by
  obtain ⟨hjoined, hcreated⟩ := Pc.joined_of_late hphase s.thrdCount
  obtain ⟨hjoined', hcreated'⟩ := Pc.joined_of_late hphase' s.thrdCount
  refine h.goto_owner hpc hfits hres (by rwa [hcount]) ?_ ?_ ?_
  · rw [hcount, hcreated, hcreated']
  · rw [hcount, hjoined', ← hjoined]
    exact h.joined
  · exact fun _ => h.unpublished (Pc.not_published_of_late hphase)

/-- **Something is given back**, behind the joins. -/
theorem Inv.release (h : Inv rs s) {old : Pc τ} (hpc : s.pc .owner = old)
    (hphase : old.phase = .late) (f : Resources → Resources) (pc : Pc τ)
    (hphase' : pc.phase = .late) (hfits : pc.Fits .owner) (hcounts : pc.Counts s.thrdCount)
    (hempty : pc.isEmpty = true → old.isEmpty = true) (hres : f old.resources = pc.resources)
    (hview : pc.view = old.view) {r : Option (Event τ)} (hr : Silent r) :
    Inv (rs ++ [r]) ((s.setRes f).goto .owner pc) := by
  subst hpc
  have hstage := h.1.goto_late hphase hphase' hfits hcounts (f := Sys.setRes f) rfl rfl
    ((congrArg f h.1.res).trans hres)
  obtain ⟨-, L, hcore, hempty'⟩ := h
  refine Inv.silent ⟨hstage, L, ?_, fun h => ?_⟩ hr
  · have hviews : ((s.setRes f).goto .owner pc).views = s.views := views_goto_eq hview
    rw [hviews]
    exact hcore.congr rfl rfl rfl rfl rfl
  · rw [pc_goto_self] at h
    exact hempty' (hempty h)

/-! ## The joins -/

theorem Inv.joinStep (h : Inv rs s) {failed : Bool} {i : Nat} (hpc : s.pc .owner = .join failed i)
    (hdisciplined : Disciplined s (.thread .owner)) :
    Takes (joinStep failed i) s fun r s' => Inv (rs ++ [r]) s' := by
  have hres := h.1.res
  have hcounts := h.1.counts
  have hjoined := h.1.joined
  have hunpublished := h.1.unpublished
  rw [hpc] at hres hcounts hjoined hunpublished
  have hcreated : (s.pc .owner).created s.thrdCount = s.thrdCount.getD 0 := by rw [hpc]; rfl
  obtain ⟨count, hcount⟩ :=
    Option.isSome_iff_exists.mp (show s.thrdCount.isSome = true from hcounts)
  have hsome : s.thrdCount.isSome = true := hcounts
  have hview : (s.pc .owner).view = View.idle := by rw [hpc]; rfl
  refine takes_live (by rw [hres]; rfl) (takes_live (by rw [hres]; rfl) ?_)
  refine takes_bind (Ok.takes ((ok_get s _).mpr ?_))
  rw [hcount]
  dsimp only
  by_cases hi : i < count
  · -- the worker has returned
    rw [if_pos hi]
    refine takes_await fun hleft => ?_
    rw [ok_go]
    refine (h.goto (moves_owner ?_ ?_) ?_).silent silent_none
    · refine h.1.goto_owner (f := id) rfl rfl hres hsome hcreated.symm (fun j hj => ?_) ?_
      · rcases Nat.lt_succ_iff_lt_or_eq.mp hj with hlt | rfl
        · exact hjoined j hlt
        · exact hleft
      · cases failed with
        | true => exact fun _ => hunpublished rfl
        | false => exact fun hpub => (by cases hpub)
    · exact fun h => (by cases h)
    · rw [hview]
      rfl
  · -- all of them have
    have hall : ∀ j, j < s.thrdCount.getD 0 → (s.pc (.worker j)).isLeft = true := by
      intro j hj
      rw [hcount] at hj
      exact hjoined j (lt_of_lt_of_le hj (not_lt.mp hi))
    rw [if_neg hi, Takes, ok_go]
    refine Or.inr ?_
    cases failed with
    | true =>
        have hstage : Stage (s.goto .owner (.freeThreads true)) :=
          h.1.goto_owner (f := id) rfl rfl hres trivial hcreated.symm hall fun _ => hunpublished rfl
        have hmoves := moves_owner hstage fun h => (by cases h)
        exact (h.goto hmoves (by rw [hview]; rfl)).silent silent_none
    | false =>
        have hout := hdisciplined i hpc (by rw [hcount]; exact not_lt.mp hi)
        have hstage : Stage (s.goto .owner (.pop (.owner false) .lock)) :=
          h.1.goto_owner (f := id) rfl rfl hres trivial hcreated.symm hall fun _ => hout
        have hmoves := moves_owner hstage fun h => (by cases h)
        exact (h.goto hmoves (by rw [hview]; rfl)).silent silent_none

/-! ## Taking the pool apart -/

/-- A place of the owner behind the joins, outside `__pop_task`. -/
def Pc.isTeardown : Pc τ → Bool
  | .freeThreads _ => true
  | .drop _ _ => true
  | .destroyCond _ => true
  | .destroyMutex _ => true
  | .freeQueue _ => true
  | .freePool _ => true
  | _ => false

theorem Inv.teardownStep (h : Inv rs s) (hpc : s.pc t = pc)
    (hteardown : pc.isTeardown = true) (n : Nat) :
    Takes (threadStep n t pc) s fun r s' => Inv (rs ++ [r]) s' := by
  have ht := h.1.fits t
  rw [hpc] at ht
  obtain rfl : t = .owner := by
    cases pc with
    | freeThreads failed => exact ht
    | drop failed task => exact ht
    | destroyCond failed => exact ht
    | destroyMutex failed => exact ht
    | freeQueue failed => exact ht
    | freePool failed => exact ht
    | _ => cases hteardown
  have hres := h.1.res
  rw [hpc] at hres
  refine Ok.takes ?_
  cases pc with
  | freeThreads failed =>
      rw [threadStep, ok_bind]
      refine ok_release (by rw [hres]; cases failed <;> rfl) ?_
      rw [ok_go]
      cases failed with
      | true =>
          exact h.release hpc rfl _
            (.pop (.owner true) .lock) rfl rfl trivial id rfl rfl silent_none
      | false => exact h.release hpc rfl _ (.freePool false) rfl rfl trivial id rfl rfl silent_none
  | drop failed task =>
      have hphase : (s.pc .owner).phase = .late := by rw [hpc]; rfl
      have hview : s.views .owner = View.full task := congrArg Pc.view hpc
      have hphase' : (Pc.pop (.owner failed) .lock : Pc τ).phase = .late := rfl
      have hstage := h.1.goto_late hphase hphase' rfl trivial (f := id) rfl rfl hres
      have hmoves := moves_owner hstage fun h => (by cases h)
      obtain ⟨-, L, hcore, hempty⟩ := h
      have hheld : (s.views .owner).held = some task := by rw [hview]; rfl
      obtain ⟨b, job, hb, -, hjobAt⟩ := hcore.exists_job hview
      have hcore' := hcore.drop hheld (by rw [hview]; rfl) hjobAt
      rw [hview] at hcore'
      rw [threadStep, ok_bind, ok_get, ok_bind]
      refine ok_freeTask hb ?_
      rw [ok_emit, hjobAt]
      exact inv_moves hmoves hempty hcore' rfl rfl rfl rfl
  | destroyCond failed =>
      rw [threadStep, ok_bind, ok_get, h.1.not_hasWaiter (by rw [hpc]; rfl),
        if_neg Bool.false_ne_true, ok_bind]
      refine ok_release (by rw [hres]; rfl) ?_
      rw [ok_go]
      exact h.release hpc rfl _ (.destroyMutex failed) rfl rfl trivial id rfl rfl silent_none
  | destroyMutex failed =>
      rw [threadStep, ok_bind, ok_get, h.mutex_eq_none (by rw [hpc]; rfl) (by rw [hpc]; rfl),
        Option.isSome_none, if_neg Bool.false_ne_true, ok_bind]
      refine ok_release (by rw [hres]; rfl) ?_
      rw [ok_go]
      exact h.release hpc rfl _ (.freeQueue failed) rfl rfl trivial id rfl rfl silent_none
  | freeQueue failed =>
      rw [threadStep, ok_bind]
      refine ok_release (by rw [hres]; rfl) ?_
      rw [ok_go]
      cases failed with
      | true => exact h.release hpc rfl _ (.freePool true) rfl rfl trivial id rfl rfl silent_none
      | false =>
          exact h.release hpc rfl _ (.freeThreads false) rfl rfl trivial id rfl rfl silent_none
  | freePool failed =>
      rw [threadStep, ok_bind]
      refine ok_release (by rw [hres]; rfl) ?_
      rw [ok_emit]
      exact h.release hpc rfl _ (.returned failed) rfl rfl trivial id rfl rfl ⟨rfl, rfl, rfl⟩
  | _ => cases hteardown

/-! ## Making the pool -/

/-- Before threads are created, every other thread is out. -/
theorem Stage.idle_of_early (h : Stage s) (hphase : (s.pc .owner).phase = .early)
    (ht : t ≠ .owner) : s.views t = .idle := by
  have hout : (s.pc t).isOut = true := by
    cases t with
    | worker i =>
        exact (h.created i).mpr (by rw [Pc.created_of_early hphase h.counts]; exact Nat.zero_le i)
    | caller p =>
        refine h.unpublished ?_ p
        cases hpc : s.pc .owner with
        | ready => rw [hpc] at hphase; cases hphase
        | join failed i => rw [hpc] at hphase; cases hphase
        | _ => rfl
    | owner => exact absurd rfl ht
  rw [Sys.views, Pc.eq_out hout]
  rfl

theorem Pc.idle_of_early (h : pc.phase = .early) :
    pc.view = .idle ∧ pc.isPublished = false ∧ pc.isEmpty = true := by
  cases pc with
  | pop u _ => cases u <;> cases h
  | _ => first | exact ⟨rfl, rfl, rfl⟩ | cases h

/-- While the pool is being made, its queue is empty, and the spinlock free. -/
theorem Inv.fresh (h : Inv rs s) (hphase : (s.pc .owner).phase = .early) :
    Core rs s s.views [] ∧ s.lock = false ∧ s.head = 0 ∧ s.tail = none := by
  obtain ⟨hstage, L, hcore, hempty⟩ := h
  obtain rfl := hempty (Pc.idle_of_early hphase).2.2
  refine ⟨hcore, ?_⟩
  obtain ⟨holder, hlock, hheld, hidle, -⟩ := hcore.sections
  cases holder with
  | some t =>
      have hinside : (s.views t).sec.isInside = true := (hheld t).mpr rfl
      by_cases ht : t = .owner
      · subst ht
        rw [Sys.views, (Pc.idle_of_early hphase).1] at hinside
        cases hinside
      · rw [hstage.idle_of_early hphase ht] at hinside
        cases hinside
  | none => exact ⟨hlock, hcore.memory.links, hidle rfl⟩

/-- The queue is written, while the pool is being made. -/
theorem Inv.initQueue (h : Inv rs s) (hphase : (s.pc .owner).phase = .early) :
    Inv rs s.initQueue := by
  obtain ⟨hcore, hlock, hhead, htail⟩ := h.fresh hphase
  exact ⟨h.1.congr rfl rfl rfl, [], hcore.congr hlock.symm hhead.symm htail.symm rfl rfl,
    fun _ => rfl⟩

/-- A place of the owner that it can get to before it has created a thread. -/
structure Pc.Unstarted (pc : Pc τ) : Prop where
  fits : pc.Fits .owner
  counts : pc.Counts none
  created : pc.created none = 0
  joined : pc.joined none = 0
  view : pc.view = .idle

/-- **The owner goes on before it has created a thread.** -/
theorem Inv.goto_unstarted (h : Inv rs s) {old : Pc τ} (hpc : s.pc .owner = old)
    (hphase : old.phase = .early) (f : Resources → Resources) (pc : Pc τ) (hnew : pc.Unstarted)
    (hres : f old.resources = pc.resources) {r : Option (Event τ)} (hr : Silent r) :
    Inv (rs ++ [r]) ((s.setRes f).goto .owner pc) := by
  subst hpc
  have hnone : s.thrdCount = none := Pc.count_of_early hphase h.1.counts
  obtain ⟨hidle, hpub, -⟩ := Pc.idle_of_early hphase
  have hstage : Stage ((s.setRes f).goto .owner pc) := by
    refine h.1.goto_owner (f := Sys.setRes f) rfl hnew.fits ?_ ?_ ?_ (fun i hi => ?_)
      fun _ => h.1.unpublished hpub
    · exact (congrArg f h.1.res).trans hres
    · show pc.Counts s.thrdCount
      rw [hnone]
      exact hnew.counts
    · refine Eq.trans ?_ (Pc.created_of_early hphase h.1.counts).symm
      show pc.created s.thrdCount = 0
      rw [hnone]
      exact hnew.created
    · change i < pc.joined s.thrdCount at hi
      rw [hnone, hnew.joined] at hi
      exact absurd hi (Nat.not_lt_zero i)
  have hviews : ((s.setRes f).goto .owner pc).views = s.views :=
    views_goto_eq (hnew.view.trans hidle.symm)
  refine Inv.silent ⟨hstage, [], ?_, fun _ => rfl⟩ hr
  rw [hviews]
  exact (h.fresh hphase).1.congr rfl rfl rfl rfl rfl

/-- `pthread_create` has returned a new worker. -/
theorem Inv.createWorker (h : Inv rs s) {i : Nat} (hpc : s.pc .owner = .create i) :
    Inv (rs ++ [none]) ((s.goto (.worker i) .loop).goto .owner (.create (i + 1))) := by
  obtain ⟨hstage, L, hcore, -⟩ := h
  have hworker : ∀ j, j ≠ i →
    ((s.goto (.worker i) .loop).goto .owner (.create (i + 1))).pc (.worker j) =
      s.pc (.worker j) := by
    intro j hj
    rw [pc_goto_of_ne (by simp), pc_goto_of_ne (by simpa using hj)]
  have hself : ((s.goto (.worker i) .loop).goto .owner (.create (i + 1))).pc
      (.worker i) = .loop := by
    rw [pc_goto_of_ne (by simp), pc_goto_self]
  have hres := hstage.res
  have hcounts := hstage.counts
  have hcreated := hstage.created
  rw [hpc] at hres hcounts hcreated
  have hstage' : Stage ((s.goto (.worker i) .loop).goto .owner (.create (i + 1))) := by
    refine ⟨fits_goto (fits_goto hstage.fits trivial) rfl, ?_, ?_, fun j => ?_, fun j hj => ?_,
      fun _ p => ?_⟩
    · rw [pc_goto_self]
      exact hres
    · rw [pc_goto_self]
      exact hcounts
    · rw [pc_goto_self]
      show _ ↔ i + 1 ≤ j
      by_cases hj : j = i
      · subst hj
        rw [hself]
        exact ⟨fun hout => (by cases hout), fun hle => absurd hle (Nat.not_succ_le_self j)⟩
      · rw [hworker j hj]
        refine (hcreated j).trans ?_
        show i ≤ j ↔ i + 1 ≤ j
        omega
    · rw [pc_goto_self] at hj
      exact absurd hj (Nat.not_lt_zero j)
    · rw [pc_goto_of_ne (by simp), pc_goto_of_ne (by simp)]
      exact hstage.unpublished (by rw [hpc]; rfl) p
  -- both threads have nothing, before and after
  have hout : s.pc (.worker i) = .out := Pc.eq_out ((hcreated i).mpr le_rfl)
  have hviews : ((s.goto (.worker i) .loop).goto .owner (.create (i + 1))).views = s.views := by
    refine (views_goto_eq ?_).trans (views_goto_eq ?_)
    · rw [pc_goto_of_ne (by simp), hpc]
      rfl
    · rw [hout]
      rfl
  refine ⟨hstage', L, ?_, fun hempty => ?_⟩
  · rw [hviews]
    exact (hcore.silent silent_none).congr rfl rfl rfl rfl rfl
  · rw [pc_goto_self] at hempty
    cases hempty

/-- `pthread_create` fails, or the loop is over: `pool->thrd_count` is written. -/
theorem Inv.writeCount (h : Inv rs s) {i : Nat} (hpc : s.pc .owner = .create i) (pc : Pc τ)
    (hfits : pc.Fits .owner) (hres : pc.resources = .all) (hcounts : pc.Counts (some i))
    (hcreated : pc.created (some i) = i) (hjoined : pc.joined (some i) = 0)
    (hempty : pc.isEmpty = false) (hview : pc.view = .idle) :
    Inv (rs ++ [none]) ((s.setThrdCount i).goto .owner pc) := by
  have hres' := h.1.res
  rw [hpc] at hres'
  have hcreated' : (s.pc .owner).created s.thrdCount = i := by rw [hpc]; rfl
  have hstage : Stage ((s.setThrdCount i).goto .owner pc) := by
    refine h.1.goto_owner (f := fun s => s.setThrdCount i) rfl hfits (hres'.trans hres.symm) hcounts
      (hcreated.trans hcreated'.symm) (fun j hj => ?_) fun _ => h.1.unpublished (by rw [hpc]; rfl)
    rw [show pc.joined (s.setThrdCount i).thrdCount = 0 from hjoined] at hj
    exact absurd hj (Nat.not_lt_zero j)
  obtain ⟨-, L, hcore, -⟩ := h
  refine ⟨hstage, L, ?_, fun hempty' => ?_⟩
  · have hviews : ((s.setThrdCount i).goto .owner pc).views = s.views :=
      views_goto_eq (s := s.setThrdCount i)
        (by rw [hview]; show _ = (s.pc .owner).view; rw [hpc]; rfl)
    rw [hviews]
    exact (hcore.silent silent_none).congr rfl rfl rfl rfl rfl
  · rw [pc_goto_self, hempty] at hempty'
    cases hempty'

theorem Inv.attempt (h : Inv rs s) (n : Nat) (ok : Bool) :
    Takes (attempt n ok (s.pc .owner)) s fun r s' => Inv (rs ++ [r]) s' := by
  cases hpc : s.pc .owner with
  | mallocPool =>
      refine Ok.takes ?_
      cases ok with
      | true =>
          rw [Thrdpool.attempt, if_pos rfl, ok_bind, ok_modify, ok_go]
          exact h.goto_unstarted hpc rfl _ .mallocQueue ⟨rfl, rfl, rfl, rfl, rfl⟩ rfl silent_none
      | false =>
          rw [Thrdpool.attempt, if_neg Bool.false_ne_true, ok_emit]
          exact h.goto_unstarted hpc rfl id (.returned true) ⟨rfl, trivial, rfl, rfl, rfl⟩ rfl
            ⟨rfl, rfl, rfl⟩
  | mallocQueue =>
      refine Ok.takes ?_
      cases ok with
      | true =>
          rw [Thrdpool.attempt, if_pos rfl, ok_bind, ok_modify, ok_go]
          exact h.goto_unstarted hpc rfl _ .initMutex ⟨rfl, rfl, rfl, rfl, rfl⟩ rfl silent_none
      | false =>
          rw [Thrdpool.attempt, if_neg Bool.false_ne_true, ok_go]
          exact h.goto_unstarted hpc rfl id (.freePool true)
            ⟨rfl, trivial, rfl, rfl, rfl⟩ rfl silent_none
  | initMutex =>
      refine Ok.takes ?_
      cases ok with
      | true =>
          rw [Thrdpool.attempt, if_pos rfl, ok_bind, ok_modify, ok_go]
          exact h.goto_unstarted hpc rfl _ .initCond ⟨rfl, rfl, rfl, rfl, rfl⟩ rfl silent_none
      | false =>
          rw [Thrdpool.attempt, if_neg Bool.false_ne_true, ok_go]
          exact h.goto_unstarted hpc rfl id (.freeQueue true)
            ⟨rfl, trivial, rfl, rfl, rfl⟩ rfl silent_none
  | initCond =>
      refine Ok.takes ?_
      cases ok with
      | true =>
          rw [Thrdpool.attempt, if_pos rfl, ok_bind, ok_modify, ok_bind, ok_modify, ok_go]
          exact (h.initQueue (by rw [hpc]; rfl)).goto_unstarted hpc rfl
            (fun r => { r with cond := true }) .initAttr ⟨rfl, rfl, rfl, rfl, rfl⟩ rfl silent_none
      | false =>
          rw [Thrdpool.attempt, if_neg Bool.false_ne_true, ok_go]
          exact h.goto_unstarted hpc rfl id (.destroyMutex true)
            ⟨rfl, trivial, rfl, rfl, rfl⟩ rfl silent_none
  | initAttr =>
      refine Ok.takes ?_
      rw [Thrdpool.attempt, ok_go]
      cases ok with
      | true =>
          exact h.goto_unstarted hpc rfl id .mallocThreads ⟨rfl, rfl, rfl, rfl, rfl⟩ rfl silent_none
      | false =>
          exact h.goto_unstarted hpc rfl id (.pop (.owner true) .lock)
            ⟨rfl, trivial, rfl, rfl, rfl⟩ rfl silent_none
  | mallocThreads =>
      refine Ok.takes ?_
      cases ok with
      | true =>
          rw [Thrdpool.attempt, if_pos rfl, ok_bind, ok_modify, ok_go]
          exact h.goto_unstarted hpc rfl _ (.create 0) ⟨rfl, rfl, rfl, rfl, rfl⟩ rfl silent_none
      | false =>
          rw [Thrdpool.attempt, if_neg Bool.false_ne_true, ok_go]
          exact h.goto_unstarted hpc rfl id (.pop (.owner true) .lock)
            ⟨rfl, trivial, rfl, rfl, rfl⟩ rfl silent_none
  | create i =>
      refine takes_await fun _ => ?_
      cases ok with
      | true =>
          rw [if_pos rfl, ok_bind, ok_modify, ok_go]
          exact h.createWorker hpc
      | false =>
          rw [if_neg Bool.false_ne_true, ok_bind, ok_modify, ok_go]
          exact h.writeCount hpc (.close .owner .store) rfl rfl rfl rfl rfl rfl rfl
  | _ => exact Or.inl rfl

end Owner

end KvStore.Thrdpool
