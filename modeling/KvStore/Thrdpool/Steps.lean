import KvStore.Thrdpool.Stage

set_option autoImplicit false

/-! # The steps of the worker pool

`Inv rs s`: the pool is in some stage, and its memory and threads are as `Core` says, where `rs` is
what the steps so far have shown. Every step is blocked or keeps this (`Inv.step`), for every thread
and every choice; in particular no step goes wrong. -/

namespace KvStore.Thrdpool

open Function KvStore.Lib

variable {τ : Type}

/-- **What holds in every run**; while the pool is being made, and when `__taskqueue_destroy` is
done with it, the queue is empty. -/
def Inv (rs : List (Option (Event τ))) (s : Sys τ) : Prop :=
  Stage s ∧ ∃ L, Core rs s s.views L ∧ ((s.pc .owner).isEmpty = true → L = [])

/-! ## Rules -/

section Rules

variable {s : Sys τ} {t : Thread} {pc : Pc τ} {a : Nat} {b : Task τ}
  {Q : Option (Event τ) → Sys τ → Prop}

theorem takes_live {α : Type} {p : Resources → Bool} {c : Exec (Sys τ) α} {Q : α → Sys τ → Prop}
    (hp : p s.res = true) (h : Takes c s Q) : Takes (live p c) s Q := by
  have hrun : (live p c).run s = c.run s := by
    rw [live, run_get_bind, if_pos hp]
  rw [Takes, Ok, hrun]
  exact h

theorem ok_live {α : Type} {p : Resources → Bool} {c : Exec (Sys τ) α} {Q : α → Sys τ → Prop}
    (hp : p s.res = true) (h : Ok c s Q) : Ok (live p c) s Q := by
  rw [live, ok_bind, ok_get, if_pos hp]
  exact h

@[simp] theorem ok_go (Q : Option (Event τ) → Sys τ → Prop) :
    Ok (go t pc) s Q ↔ Q none (s.goto t pc) := by
  rw [go, ok_bind, ok_modify, ok_pure]

@[simp] theorem ok_emit (e : Event τ) (Q : Option (Event τ) → Sys τ → Prop) :
    Ok (emit e t pc) s Q ↔ Q (some e) (s.goto t pc) := by
  rw [emit, ok_bind, ok_modify, ok_pure]

theorem ok_release {p : Resources → Bool} {f : Resources → Resources} {Q : Unit → Sys τ → Prop}
    (hp : p s.res = true) (h : Q () (s.setRes f)) : Ok (release p f) s Q := by
  rw [release, ok_bind, ok_get, if_pos hp, ok_modify]
  exact h

theorem ok_readTask {Q : Task τ → Sys τ → Prop} (hb : s.tasks a = some b) (h : Q b s) :
    Ok (readTask a) s Q := by
  rw [readTask, ok_bind, ok_get, hb]
  exact (ok_pure b s Q).mpr h

theorem ok_readNext {Q : Nat → Sys τ → Prop} {next : Nat} (hb : s.tasks a = some b)
    (hnext : b.next = some next) (h : Q next s) : Ok (readNext a) s Q := by
  rw [readNext, ok_bind]
  refine ok_readTask hb ?_
  rw [hnext]
  exact (ok_pure next s Q).mpr h

theorem ok_readJob {Q : τ × Nat → Sys τ → Prop} {job : τ × Nat} (hb : s.tasks a = some b)
    (hjob : b.job = some job) (h : Q job s) : Ok (readJob a) s Q := by
  rw [readJob, ok_bind]
  refine ok_readTask hb ?_
  rw [hjob]
  exact (ok_pure job s Q).mpr h

theorem ok_writeTask {f : Task τ → Task τ} {Q : Unit → Sys τ → Prop} (hb : s.tasks a = some b)
    (h : Q () (s.setTask a (some (f b)))) : Ok (writeTask a f) s Q := by
  rw [writeTask, ok_bind]
  refine ok_readTask hb ?_
  rw [ok_modify]
  exact h

theorem ok_freeTask {Q : Unit → Sys τ → Prop} (hb : s.tasks a = some b)
    (h : Q () (s.setTask a none)) : Ok (freeTask a) s Q := by
  rw [freeTask, ok_bind, ok_get, hb]
  exact (ok_modify _ s Q).mpr h

theorem takes_lockMutex (hres : s.res.mutex = true)
    (h : s.mutex = none → Q none ((s.setMutex (some t)).goto t pc)) :
    Takes (lockMutex t pc) s Q := by
  refine takes_live hres (takes_await fun hmutex => ?_)
  rw [ok_bind, ok_modify, ok_go]
  exact h (Option.isNone_iff_eq_none.mp hmutex)

theorem ok_unlockMutex (hres : s.res.mutex = true)
    (h : Q none ((s.setMutex none).goto t pc)) : Ok (unlockMutex t pc) s Q := by
  refine ok_live hres ?_
  rw [ok_bind, ok_modify, ok_go]
  exact h

theorem takes_spinlockLock (hres : s.res.queue = true)
    (h : s.lock = false → Q none ((s.setLock true).goto t pc)) : Takes (spinlockLock t pc) s Q := by
  refine takes_live hres (takes_await fun hlock => ?_)
  rw [ok_bind, ok_modify, ok_go]
  exact h hlock

theorem ok_spinlockUnlock (hres : s.res.queue = true)
    (h : Q none ((s.setLock false).goto t pc)) : Ok (spinlockUnlock t pc) s Q := by
  refine ok_live hres ?_
  rw [ok_bind, ok_modify, ok_go]
  exact h

end Rules

/-! ## Parts of steps -/

/-- The thread can go on to `pc`, and nothing more is said about the queue there. -/
def Moves (s : Sys τ) (t : Thread) (pc : Pc τ) : Prop :=
  Stage (s.goto t pc) ∧ (((s.goto t pc).pc .owner).isEmpty = true → (s.pc .owner).isEmpty = true)

section Parts

variable {rs : List (Option (Event τ))} {s s₀ : Sys τ} {t : Thread} {pc : Pc τ} {L : List Nat}
  {x : View τ} {r : Option (Event τ)}

theorem Inv.silent (h : Inv rs s) (hr : Silent r) : Inv (rs ++ [r]) s := by
  obtain ⟨hstage, L, hcore, hempty⟩ := h
  exact ⟨hstage, L, hcore.silent hr, hempty⟩

/-- A step of a thread, from what it does to the memory and to the view of the thread. -/
theorem inv_goto (hstage : Stage (s.goto t pc))
    (hempty : ((s.goto t pc).pc .owner).isEmpty = true → L = [])
    (hcore : Core rs s₀ (update s.views t x) L) (hview : pc.view = x) (hpc : s₀.pc = s.pc)
    (hres : s₀.res = s.res) (hcount : s₀.thrdCount = s.thrdCount) : Inv rs (s₀.goto t pc) := by
  have hpc' : (s₀.goto t pc).pc = (s.goto t pc).pc := by rw [Sys.goto, Sys.goto, hpc]
  have hviews : (s₀.goto t pc).views = update s.views t x := by
    rw [views_goto, hview]
    congr 1
    funext t'
    rw [Sys.views, Sys.views, hpc]
  refine ⟨hstage.congr hpc' hres hcount, L, ?_, ?_⟩
  · rw [hviews]
    exact hcore.congr rfl rfl rfl rfl rfl
  · rw [hpc']
    exact hempty

/-- The same, when nothing more is said about the queue. -/
theorem inv_moves (hmoves : Moves s t pc) (hempty : (s.pc .owner).isEmpty = true → L = [])
    (hcore : Core rs s₀ (update s.views t x) L) (hview : pc.view = x) (hpc : s₀.pc = s.pc)
    (hres : s₀.res = s.res) (hcount : s₀.thrdCount = s.thrdCount) : Inv rs (s₀.goto t pc) :=
  inv_goto hmoves.1 (fun h => hempty (hmoves.2 h)) hcore hview hpc hres hcount

/-- A step that changes nothing but the place of its thread. -/
theorem Inv.goto (h : Inv rs s) (hmoves : Moves s t pc) (hview : pc.view = (s.pc t).view) :
    Inv rs (s.goto t pc) := by
  obtain ⟨-, L, hcore, hempty⟩ := h
  refine inv_moves (L := L) hmoves hempty ?_ hview rfl rfl rfl
  have heq : update s.views t (s.pc t).view = s.views := update_eq_self t s.views
  rw [heq]
  exact hcore

theorem Inv.spinlockLock (h : Inv rs s) (hlock : s.lock = false) (hmoves : Moves s t pc)
    (hview : pc.view = (s.pc t).view.setSec .inside) :
    Inv (rs ++ [none]) ((s.setLock true).goto t pc) := by
  obtain ⟨-, L, hcore, hempty⟩ := h
  exact (inv_moves hmoves hempty (hcore.spinlockLock hlock t) hview rfl rfl rfl).silent silent_none

theorem Inv.spinlockUnlock (h : Inv rs s) (hsec : (s.pc t).view.sec = .inside)
    (hmoves : Moves s t pc) (hview : pc.view = (s.pc t).view.setSec .outside) :
    Inv (rs ++ [none]) ((s.setLock false).goto t pc) := by
  obtain ⟨-, L, hcore, hempty⟩ := h
  exact (inv_moves hmoves hempty (hcore.spinlockUnlock hsec) hview rfl rfl rfl).silent silent_none

theorem Inv.lockMutex (h : Inv rs s) (hmutex : s.mutex = none) (hmoves : Moves s t pc)
    (hview : pc.view = (s.pc t).view.setHolds true) :
    Inv (rs ++ [none]) ((s.setMutex (some t)).goto t pc) := by
  obtain ⟨-, L, hcore, hempty⟩ := h
  exact (inv_moves hmoves hempty (hcore.lockMutex hmutex t) hview rfl rfl rfl).silent silent_none

theorem Inv.unlockMutex (h : Inv rs s) (hholds : (s.pc t).view.holds = true) (hmoves : Moves s t pc)
    (hview : pc.view = (s.pc t).view.setHolds false) :
    Inv (rs ++ [none]) ((s.setMutex none).goto t pc) := by
  obtain ⟨-, L, hcore, hempty⟩ := h
  exact (inv_moves hmoves hempty (hcore.unlockMutex hholds) hview rfl rfl rfl).silent silent_none

theorem moves_of_ne (h : Stage (s.goto t pc)) (ht : t ≠ .owner) : Moves s t pc := by
  refine ⟨h, ?_⟩
  rw [pc_goto_of_ne ht.symm]
  exact id

theorem moves_owner (h : Stage (s.goto .owner pc))
    (hempty : pc.isEmpty = true → (s.pc .owner).isEmpty = true) : Moves s .owner pc := by
  refine ⟨h, ?_⟩
  rw [pc_goto_self]
  exact hempty

theorem Thread.IsWorker.ne_owner (h : t.IsWorker) : t ≠ .owner := by
  rintro rfl
  exact h

theorem Thread.IsCaller.ne_owner (h : t.IsCaller) : t ≠ .owner := by
  rintro rfl
  exact h

/-- A worker that runs: everything is there, and it can go on to any place of a worker. -/
theorem Stage.worker (h : Stage s) (hpc : s.pc t = pc) (ht : t.IsWorker) (hout : pc.isOut = false)
    (hleft : pc.isLeft = false) :
    s.res = .all ∧ ∀ pc' : Pc τ, pc'.Fits t → pc'.isOut = false → Moves s t pc' := by
  subst hpc
  exact ⟨h.res_of_worker ht hout hleft, fun _ hfits hout' =>
    moves_of_ne (h.goto_worker ht hout hleft hfits hout') ht.ne_owner⟩

/-- A caller that is inside: everything is there, and it can go on to any place of a caller. -/
theorem Stage.caller (h : Stage s) (hpc : s.pc t = pc) (ht : t.IsCaller) (hout : pc.isOut = false) :
    s.res = .all ∧ ∀ pc' : Pc τ, pc'.Fits t → Moves s t pc' := by
  subst hpc
  exact ⟨(h.res_of_caller ht hout).1, fun _ hfits =>
    moves_of_ne (h.goto_caller ht (h.published_of_caller ht hout) hfits) ht.ne_owner⟩

end Parts

/-! ## `__pop_task` -/

section Pop

variable {rs : List (Option (Event τ))} {s : Sys τ} {t : Thread} {u : Popper} {pc : PopPc}

/-- A thread in `__pop_task` can go on to any place in it, and to its caller. -/
theorem Stage.goto_pop (h : Stage s) (hpc : s.pc t = .pop u pc) :
    s.res.queue = true ∧ (∀ pc', Stage (s.goto t (.pop u pc'))) ∧ ∀ task,
      Stage (s.goto t (u.back task)) := by
  have hfits := h.fits t
  rw [hpc] at hfits
  cases u with
  | worker =>
      obtain ⟨hres, hmoves⟩ := h.worker hpc hfits rfl rfl
      refine ⟨by rw [hres]; rfl, fun pc' => (hmoves (.pop .worker pc') hfits rfl).1, fun task => ?_⟩
      by_cases htask : task = 0
      · rw [Popper.back, if_pos htask]
        exact (hmoves .lockMutex hfits rfl).1
      · rw [Popper.back, if_neg htask]
        exact (hmoves (.read task) hfits rfl).1
  | owner failed =>
      obtain rfl : t = .owner := hfits
      have hjoined := h.joined
      have hres := h.res
      rw [hpc] at hjoined hres
      have hout := h.unpublished (by rw [hpc]; rfl)
      have hcreated : (s.pc .owner).created s.thrdCount = s.thrdCount.getD 0 := by rw [hpc]; rfl
      refine ⟨by rw [hres]; rfl, fun pc' => ?_, fun task => ?_⟩
      · exact h.goto_owner (f := id) rfl rfl hres trivial hcreated.symm hjoined fun _ => hout
      · by_cases htask : task = 0
        · rw [Popper.back, if_pos htask]
          exact h.goto_owner (f := id) rfl rfl hres trivial hcreated.symm hjoined fun _ => hout
        · rw [Popper.back, if_neg htask]
          exact h.goto_owner (f := id) rfl rfl hres trivial hcreated.symm hjoined fun _ => hout

/-- A place in `__pop_task` says that the queue is empty only when the owner is about to get
`NULL`. -/
theorem Stage.isEmpty_pop (h : Stage s) (hpc : s.pc t = .pop u pc) (pc' : PopPc) :
    ((s.goto t (.pop u pc')).pc .owner).isEmpty = true → pc'.isEmpty = true := by
  have hfits := h.fits t
  rw [hpc] at hfits
  cases u with
  | worker =>
      have hout : (s.pc t).isOut = false := by rw [hpc]; rfl
      have hleft : (s.pc t).isLeft = false := by rw [hpc]; rfl
      rw [pc_goto_of_ne (Thread.IsWorker.ne_owner hfits).symm,
        h.not_empty_of_worker hfits hout hleft]
      exact fun h => (by cases h)
  | owner failed =>
      obtain rfl : t = .owner := hfits
      rw [pc_goto_self]
      exact id

theorem Stage.isEmpty_back (h : Stage s) {task : Nat} (hpc : s.pc t = .pop u (.unlock task)) :
    ((s.goto t (u.back task)).pc .owner).isEmpty = true → (s.pc .owner).isEmpty = true := by
  have hfits := h.fits t
  rw [hpc] at hfits
  cases u with
  | worker =>
      rw [pc_goto_of_ne (Thread.IsWorker.ne_owner hfits).symm]
      exact id
  | owner failed =>
      obtain rfl : t = .owner := hfits
      rw [pc_goto_self, hpc, Popper.back]
      split_ifs with htask
      · subst htask
        exact fun _ => rfl
      · exact fun h => (by cases h)

theorem Popper.view_back (u : Popper) (task : Nat) :
    (u.back task : Pc τ).view = (PopPc.unlock task).view.setSec .outside := by
  by_cases htask : task = 0
  · cases u <;> rw [Popper.back, if_pos htask, PopPc.view, if_pos htask] <;> rfl
  · cases u <;> rw [Popper.back, if_neg htask, PopPc.view, if_neg htask] <;> rfl

theorem Inv.popStep (h : Inv rs s) (hpc : s.pc t = .pop u pc) :
    Takes (popStep t u pc) s fun r s' => Inv (rs ++ [r]) s' := by
  obtain ⟨hres, hstage, hback⟩ := h.1.goto_pop hpc
  have hview : s.views t = pc.view := congrArg Pc.view hpc
  -- nothing is said about the queue at most places
  have hempty : ∀ {L : List Nat} (pc' : PopPc), pc'.isEmpty = false →
      ((s.goto t (.pop u pc')).pc .owner).isEmpty = true → L = [] := by
    intro L pc' hpc' h'
    have hempty' := h.1.isEmpty_pop hpc pc' h'
    rw [hpc'] at hempty'
    cases hempty'
  cases pc with
  | lock =>
      obtain ⟨-, L, hcore, -⟩ := h
      refine takes_spinlockLock hres fun hlock => ?_
      have hcore' := hcore.spinlockLock hlock t
      rw [hview] at hcore'
      exact (inv_goto (hstage .head) (hempty .head rfl) hcore' rfl rfl rfl rfl).silent silent_none
  | head =>
      obtain ⟨-, L, hcore, -⟩ := h
      have hsec : (s.views t).sec = .inside := by rw [hview]; rfl
      have htail : s.tail = L.getLast? := hcore.holds hsec rfl
      have hinside : (s.views t).sec.isInside = true := by rw [hsec]; rfl
      refine (ok_live hres ?_).takes
      rw [ok_bind, ok_get, ok_go]
      split_ifs with hhead
      · have hcore' := hcore.goSection hinside .inside rfl htail
        rw [hview] at hcore'
        exact (inv_goto (hstage (.unlock 0))
          (fun _ => hcore.memory.head_eq_zero.mp hhead) hcore' rfl rfl rfl rfl).silent silent_none
      · have hcore' := hcore.goSection hinside (.found s.head) rfl ⟨htail, rfl, hhead⟩
        rw [hview] at hcore'
        exact (inv_goto (hstage _) (hempty (.link s.head) rfl) hcore' rfl rfl rfl rfl).silent
          silent_none
  | link task =>
      obtain ⟨-, L, hcore, -⟩ := h
      have hsec : (s.views t).sec = .found task := by rw [hview]; rfl
      obtain ⟨-, hhead, hne⟩ := hcore.holds hsec rfl
      obtain ⟨M, hM⟩ := hcore.memory.eq_cons (by rwa [hhead])
      obtain ⟨b, hb, hnext, hjob⟩ := hcore.memory.exists_queued (a := task) (by
        rw [hM, hhead]
        exact List.mem_cons_self)
      obtain ⟨next, hnext⟩ := Option.isSome_iff_exists.mp hnext
      obtain ⟨job, hjob⟩ := Option.isSome_iff_exists.mp hjob
      refine (ok_live hres ?_).takes
      rw [ok_bind]
      refine ok_readNext hb hnext ?_
      rw [ok_bind, ok_get, ok_bind, ok_modify, ok_emit]
      have hjobAt : jobAt s.tasks task = some job := by
        rw [jobAt, hb]
        exact hjob
      rw [hjobAt]
      obtain ⟨M', -, hcore'⟩ := hcore.pop hview hb hnext hjob
      exact inv_goto (hstage _) (hempty (.tail task) rfl) hcore' rfl rfl rfl rfl
  | tail task =>
      obtain ⟨-, L, hcore, -⟩ := h
      have hsec : (s.views t).sec = .popped task := by rw [hview]; rfl
      have hinside : (s.views t).sec.isInside = true := by rw [hsec]; rfl
      have htail : s.tail = (task :: L).getLast? := hcore.holds hsec rfl
      have hne : task ≠ 0 := hcore.memory.ne_zero_of_held (t := t) (by rw [hview]; rfl)
      have hunlock : (Pc.pop u (.unlock task) : Pc τ).view = (s.views t).setSec .inside := by
        rw [hview]
        exact if_neg hne
      have hlast : (if s.head = 0 then none else s.tail) = L.getLast? := by
        split_ifs with hhead
        · rw [hcore.memory.head_eq_zero.mp hhead]
          rfl
        · obtain ⟨M, rfl⟩ := hcore.memory.eq_cons hhead
          rw [htail, List.getLast?_cons_cons]
      refine (ok_live hres ?_).takes
      rw [ok_bind, ok_modify, ok_go]
      exact (inv_goto (hstage _) (hempty (.unlock task) (beq_false_of_ne hne))
        (hcore.goSection hinside .inside rfl hlast) hunlock rfl rfl rfl).silent silent_none
  | unlock task =>
      refine (ok_spinlockUnlock hres
        (h.spinlockUnlock ?_ ⟨hback task, h.1.isEmpty_back hpc⟩ ?_)).takes
      · rw [hpc]
        show (PopPc.view (.unlock task) : View τ).sec = .inside
        rw [PopPc.view]
        split_ifs <;> rfl
      · rw [hpc]
        exact u.view_back task

end Pop

/-! ## `__add_task` -/

section Callers

variable {rs : List (Option (Event τ))} {s : Sys τ} {t : Thread}

theorem Inv.addStep (h : Inv rs s) {task : Nat} {func : τ} {arg : Nat} {pc : AddPc}
    (hpc : s.pc t = .add task func arg pc) :
    Takes (addStep t task func arg pc) s fun r s' => Inv (rs ++ [r]) s' := by
  have ht := h.1.fits t
  rw [hpc] at ht
  obtain ⟨hres, hmoves⟩ := h.1.caller hpc ht rfl
  have hqueue : s.res.queue = true := by rw [hres]; rfl
  have hview : s.views t = pc.view task func arg := congrArg Pc.view hpc
  cases pc with
  | clear =>
      obtain ⟨-, L, hcore, hempty⟩ := h
      have hheld : (s.views t).held = some task := by rw [hview]; rfl
      obtain ⟨b, hb, hexpects⟩ := hcore.memory.exists_block hheld
      rw [hview] at hexpects
      have hlast : Task.Last func arg { b with next := some 0 } := ⟨hexpects, rfl⟩
      have hcore' := hcore.write hheld (by rw [hview]; rfl) hlast
      rw [hview] at hcore'
      refine Ok.takes ?_
      rw [Thrdpool.addStep, ok_bind]
      refine ok_writeTask hb ?_
      rw [ok_go]
      exact (inv_moves (hmoves (.add task func arg .lock) ht) hempty hcore' rfl rfl rfl rfl).silent
        silent_none
  | lock =>
      refine takes_spinlockLock hqueue
        fun hlock => h.spinlockLock hlock (hmoves (.add task func arg .link) ht) ?_
      rw [hpc]
      rfl
  | link =>
      -- the queue is not known to be empty while a caller is inside
      have hnotEmpty : ∀ {L : List Nat}, (s.pc .owner).isEmpty = true → L = [] := by
        intro L hempty
        rw [(h.1.res_of_caller ht (by rw [hpc]; rfl)).2] at hempty
        cases hempty
      obtain ⟨-, L, hcore, -⟩ := h
      refine (ok_live hqueue ?_).takes
      rw [ok_bind, ok_get]
      cases htail : s.tail with
      | none =>
          dsimp only
          rw [ok_bind, ok_modify, ok_emit]
          exact inv_moves (hmoves (.add task func arg .tail) ht) hnotEmpty
            (hcore.linkFirst hview htail) rfl rfl rfl rfl
      | some last =>
          obtain ⟨c, hc, hcore'⟩ := hcore.linkLast hview htail
          dsimp only
          rw [ok_bind]
          refine ok_writeTask hc ?_
          rw [ok_emit]
          exact inv_moves (hmoves (.add task func arg .tail) ht) hnotEmpty hcore' rfl rfl rfl rfl
  | tail =>
      obtain ⟨-, L, hcore, hempty⟩ := h
      have hsec : (s.views t).sec = .linked task := by rw [hview]; rfl
      obtain ⟨M, rfl, -⟩ := hcore.holds hsec rfl
      have hlast : some task = (M ++ [task]).getLast? := List.getLast?_concat.symm
      have hcore' := hcore.goSection (by rw [hsec]; rfl) .inside rfl hlast
      rw [hview] at hcore'
      refine (ok_live hqueue ?_).takes
      rw [ok_bind, ok_modify, ok_go]
      exact (inv_moves (hmoves (.add task func arg .unlock) ht) hempty hcore' rfl rfl rfl
        rfl).silent silent_none
  | unlock =>
      refine (ok_spinlockUnlock hqueue
        (h.spinlockUnlock ?_ (hmoves (.add task func arg .signal) ht) ?_)).takes
      · rw [hpc]
        rfl
      · rw [hpc]
        rfl
  | signal => exact Or.inl rfl

/-- `malloc` in `thrdpool_post` -/
theorem Inv.mallocStep (h : Inv rs s) (t : Thread) (a : Nat) :
    Takes (mallocStep t a (s.pc t)) s fun r s' => Inv (rs ++ [r]) s' := by
  cases hpc : s.pc t with
  | malloc func arg =>
      have ht := h.1.fits t
      rw [hpc] at ht
      obtain ⟨-, hmoves⟩ := h.1.caller hpc ht rfl
      rw [Thrdpool.mallocStep]
      split_ifs with ha
      · rw [Takes, ok_emit]
        refine Or.inr ((h.goto (hmoves _ ?_) ?_).silent ⟨rfl, rfl, rfl⟩)
        · rintro rfl
          exact ht
        · rw [hpc]
          rfl
      · refine takes_await fun hfree => ?_
        rw [ok_bind, ok_modify, ok_go]
        obtain ⟨-, L, hcore, hempty⟩ := h
        have hview : s.views t = View.idle := congrArg Pc.view hpc
        have hcore' := hcore.malloc hview ha (Option.isNone_iff_eq_none.mp hfree) ⟨none, none, none⟩
        rw [hview] at hcore'
        exact (inv_moves (hmoves (.fill a func arg) ht) hempty hcore' rfl rfl rfl rfl).silent
          silent_none
  | _ => exact Or.inl rfl

/-- `task->func = func`, `task->arg = arg` -/
theorem Inv.fillStep (h : Inv rs s) {task : Nat} {func : τ} {arg : Nat}
    (hpc : s.pc t = .fill task func arg) (n : Nat) :
    Takes (threadStep n t (.fill task func arg)) s fun r s' => Inv (rs ++ [r]) s' := by
  have ht := h.1.fits t
  rw [hpc] at ht
  obtain ⟨-, hmoves⟩ := h.1.caller hpc ht rfl
  obtain ⟨-, L, hcore, hempty⟩ := h
  have hview : s.views t = View.idle.setHeld (some task) fun _ => True := congrArg Pc.view hpc
  have hheld : (s.views t).held = some task := by rw [hview]; rfl
  obtain ⟨b, hb, -⟩ := hcore.memory.exists_block hheld
  have hfilled : Task.Filled func arg { b with func := some func, arg := some arg } := rfl
  have hcore' := hcore.write hheld (by rw [hview]; rfl) hfilled
  rw [hview] at hcore'
  refine Ok.takes ?_
  rw [threadStep, ok_bind]
  refine ok_writeTask hb ?_
  rw [ok_go]
  exact (inv_moves (hmoves (.add task func arg .clear) ht) hempty hcore' rfl rfl rfl rfl).silent
    silent_none

end Callers

/-! ## `__nonblock` -/

section Close

variable {rs : List (Option (Event τ))} {s : Sys τ} {t : Thread}

/-- What is the same of a worker that sleeps and of one that has been woken stays as it is. -/
theorem wakeAll_congr {β : Type} (f : Pc τ → β) (hf : f .woken = f .waiting) (t : Thread) :
    f (s.wakeAll.pc t) = f (s.pc t) := by
  show f (if (s.pc t).isWaiting = true then .woken else s.pc t) = f (s.pc t)
  cases hpc : s.pc t with
  | waiting => exact hf
  | _ => rfl

theorem views_wakeAll (s : Sys τ) : s.wakeAll.views = s.views :=
  funext fun t => wakeAll_congr Pc.view rfl t

theorem Stage.wakeAll (h : Stage s) : Stage s.wakeAll := by
  refine ⟨fun t => ?_, ?_, ?_, fun i => ?_, fun i hi => ?_, fun hpub p => ?_⟩
  · rw [wakeAll_congr (Pc.Fits t) rfl]
    exact h.fits t
  · rw [wakeAll_congr Pc.resources rfl]
    exact h.res
  · rw [wakeAll_congr (Pc.Counts _) rfl]
    exact h.counts
  · rw [wakeAll_congr Pc.isOut rfl, wakeAll_congr (Pc.created _) rfl]
    exact h.created i
  · rw [wakeAll_congr (Pc.joined _) rfl] at hi
    rw [wakeAll_congr Pc.isLeft rfl]
    exact h.joined i hi
  · rw [wakeAll_congr Pc.isPublished rfl] at hpub
    rw [wakeAll_congr Pc.isOut rfl]
    exact h.unpublished hpub p

theorem Inv.wakeAll (h : Inv rs s) : Inv rs s.wakeAll := by
  obtain ⟨hstage, L, hcore, hempty⟩ := h
  refine ⟨hstage.wakeAll, L, ?_, ?_⟩
  · rw [views_wakeAll]
    exact hcore.congr rfl rfl rfl rfl rfl
  · rw [wakeAll_congr Pc.isEmpty rfl]
    exact hempty

/-- A thread in `__nonblock`: everything is there, and it can go on in it, and to its caller. -/
theorem Stage.moves_close (h : Stage s) {u : Closer} {pc : ClosePc} (hpc : s.pc t = .close u pc) :
    s.res = .all ∧ (∀ pc', Moves s t (.close u pc')) ∧ Moves s t u.back := by
  have ht := h.fits t
  rw [hpc] at ht
  cases u with
  | caller =>
      obtain ⟨hres, hmoves⟩ := h.caller hpc ht rfl
      refine ⟨hres, fun pc' => hmoves _ ht, hmoves .out ?_⟩
      rintro rfl
      exact ht
  | owner =>
      obtain rfl : t = .owner := ht
      have hres := h.res
      have hcounts := h.counts
      have hcreated : (s.pc .owner).created s.thrdCount = s.thrdCount.getD 0 := by rw [hpc]; rfl
      have hout := h.unpublished (by rw [hpc]; rfl)
      rw [hpc] at hres hcounts
      have hgo : ∀ pc' : Pc τ, pc'.Fits .owner → pc'.resources = .all → pc'.Counts s.thrdCount →
          pc'.created s.thrdCount = s.thrdCount.getD 0 → pc'.joined s.thrdCount = 0 →
              Stage (s.goto .owner pc') := by
        intro pc' hfits hres' hcounts' hcreated' hjoined'
        refine h.goto_owner (f := id) rfl hfits (hres.trans hres'.symm) hcounts'
          (hcreated'.trans hcreated.symm) (fun i hi => ?_) fun _ => hout
        rw [id, hjoined'] at hi
        exact absurd hi (Nat.not_lt_zero i)
      exact ⟨hres, fun pc' =>
        moves_owner (hgo (.close .owner pc') rfl rfl hcounts rfl rfl) fun h => (by cases h),
        moves_owner (hgo (.join true 0) rfl rfl hcounts rfl rfl) fun h => (by cases h)⟩

theorem Inv.closeStep (h : Inv rs s) {u : Closer} {pc : ClosePc} (hpc : s.pc t = .close u pc) :
    Takes (closeStep t u pc) s fun r s' => Inv (rs ++ [r]) s' := by
  obtain ⟨hres, hmoves, hback⟩ := h.1.moves_close hpc
  have hview : s.views t = pc.view := congrArg Pc.view hpc
  have hself : update s.views t pc.view = s.views := by
    rw [← hview]
    exact update_eq_self t s.views
  cases pc with
  | store =>
      obtain ⟨-, L, hcore, hempty⟩ := h
      refine (ok_live (by rw [hres]; rfl) ?_).takes
      rw [ok_bind, ok_modify, ok_go]
      rw [← hself] at hcore
      have hcore' : Core rs (s.setQuit true) _ L := hcore.congr rfl rfl rfl rfl rfl
      exact (inv_moves (hmoves .lock) hempty hcore' rfl rfl rfl rfl).silent silent_none
  | lock =>
      refine takes_lockMutex (by rw [hres]; rfl) fun hmutex => h.lockMutex hmutex (hmoves .clear) ?_
      rw [hpc]
      rfl
  | clear =>
      obtain ⟨-, L, hcore, hempty⟩ := h
      refine (ok_live (by rw [hres]; rfl) ?_).takes
      rw [ok_bind, ok_modify, ok_go]
      rw [← hself] at hcore
      have hcore' : Core rs (s.setBlock false) _ L := hcore.congr rfl rfl rfl rfl rfl
      exact (inv_moves (hmoves .unlock) hempty hcore' rfl rfl rfl rfl).silent silent_none
  | unlock =>
      refine (ok_unlockMutex (by rw [hres]; rfl) (h.unlockMutex ?_ (hmoves .broadcast) ?_)).takes
      · rw [hpc]
        rfl
      · rw [hpc]
        rfl
  | broadcast =>
      refine (ok_live (by rw [hres]; rfl) ?_).takes
      rw [ok_bind, ok_modify, ok_go]
      -- the thread goes on first, and then the sleepers wake up
      have hgoto : Inv rs (s.goto t u.back) := h.goto hback (by rw [hpc]; cases u <;> rfl)
      have hcomm : s.wakeAll.goto t u.back = (s.goto t u.back).wakeAll := by
        rw [Sys.goto, Sys.goto, Sys.wakeAll, Sys.wakeAll]
        congr 1
        funext t'
        by_cases heq : t' = t
        · subst heq
          simp only [update_self]
          cases u <;> rfl
        · simp only [update_of_ne heq]
      rw [hcomm]
      exact hgoto.wakeAll.silent silent_none

end Close

/-! ## Workers -/

section Workers

variable {rs : List (Option (Event τ))} {s : Sys τ} {t : Thread}

/-- A place of a worker outside `__pop_task`. -/
def Pc.isWork : Pc τ → Bool
  | .loop => true
  | .lockMutex => true
  | .testBlock => true
  | .condWait => true
  | .woken => true
  | .relocked => true
  | .giveUp => true
  | .read _ => true
  | .free _ _ _ => true
  | .run _ _ => true
  | _ => false

theorem Inv.workStep (h : Inv rs s) {pc : Pc τ} (hpc : s.pc t = pc)
    (hwork : pc.isWork = true) (n : Nat) :
    Takes (threadStep n t pc) s fun r s' => Inv (rs ++ [r]) s' := by
  have hview : s.views t = pc.view := congrArg Pc.view hpc
  have ht := h.1.fits t
  rw [hpc] at ht
  cases pc with
  | loop =>
      obtain ⟨hres, hmoves⟩ := h.1.worker hpc ht rfl rfl
      refine (ok_live (by rw [hres]; rfl) ?_).takes
      rw [ok_bind, ok_get, ok_go]
      split_ifs with hquit
      · exact (h.goto (hmoves .left ht rfl) (by rw [hpc]; rfl)).silent silent_none
      · exact (h.goto (hmoves (.pop .worker .lock) ht rfl) (by rw [hpc]; rfl)).silent silent_none
  | lockMutex =>
      obtain ⟨hres, hmoves⟩ := h.1.worker hpc ht rfl rfl
      refine takes_lockMutex (by rw [hres]; rfl)
        fun hmutex => h.lockMutex hmutex (hmoves .testBlock ht rfl) ?_
      rw [hpc]
      rfl
  | testBlock =>
      obtain ⟨hres, hmoves⟩ := h.1.worker hpc ht rfl rfl
      refine (ok_live (by rw [hres]; rfl) ?_).takes
      rw [ok_bind, ok_get, ok_go]
      split_ifs with hblock
      · exact (h.goto (hmoves .condWait ht rfl) (by rw [hpc]; rfl)).silent silent_none
      · exact (h.goto (hmoves .giveUp ht rfl) (by rw [hpc]; rfl)).silent silent_none
  | condWait =>
      obtain ⟨hres, hmoves⟩ := h.1.worker hpc ht rfl rfl
      refine (ok_live (by rw [hres]; rfl) ?_).takes
      rw [ok_bind, ok_modify, ok_go]
      refine h.unlockMutex ?_ (hmoves .waiting ht rfl) ?_
      · rw [hpc]
        rfl
      · rw [hpc]
        rfl
  | woken =>
      obtain ⟨hres, hmoves⟩ := h.1.worker hpc ht rfl rfl
      refine takes_lockMutex (by rw [hres]; rfl)
        fun hmutex => h.lockMutex hmutex (hmoves .relocked ht rfl) ?_
      rw [hpc]
      rfl
  | relocked =>
      obtain ⟨hres, hmoves⟩ := h.1.worker hpc ht rfl rfl
      refine (ok_unlockMutex (by rw [hres]; rfl)
        (h.unlockMutex ?_ (hmoves (.pop .worker .lock) ht rfl) ?_)).takes
      · rw [hpc]
        rfl
      · rw [hpc]
        rfl
  | giveUp =>
      obtain ⟨hres, hmoves⟩ := h.1.worker hpc ht rfl rfl
      refine (ok_unlockMutex (by rw [hres]; rfl) (h.unlockMutex ?_ (hmoves .left ht rfl) ?_)).takes
      · rw [hpc]
        rfl
      · rw [hpc]
        rfl
  | read task =>
      obtain ⟨-, hmoves⟩ := h.1.worker hpc ht rfl rfl
      obtain ⟨-, L, hcore, hempty⟩ := h
      obtain ⟨b, job, hb, hjob, hjobAt⟩ := hcore.exists_job hview
      have hcore' := hcore.read (by rw [hview]; rfl) hjobAt
      rw [hview] at hcore'
      refine Ok.takes ?_
      rw [threadStep, ok_bind]
      refine ok_readJob hb hjob ?_
      rw [ok_go]
      exact (inv_moves (hmoves (.free task job.1 job.2) ht rfl) hempty hcore' rfl rfl rfl
        rfl).silent silent_none
  | free task func arg =>
      obtain ⟨-, hmoves⟩ := h.1.worker hpc ht rfl rfl
      obtain ⟨-, L, hcore, hempty⟩ := h
      have hheld : (s.views t).held = some task := by rw [hview]; rfl
      obtain ⟨b, hb, -⟩ := hcore.memory.exists_block hheld
      have hcore' := hcore.free hheld (by rw [hview]; rfl)
      rw [hview] at hcore'
      refine Ok.takes ?_
      rw [threadStep, ok_bind]
      refine ok_freeTask hb ?_
      rw [ok_go]
      exact (inv_moves (hmoves (.run func arg) ht rfl) hempty hcore' rfl rfl rfl rfl).silent
        silent_none
  | run func arg =>
      obtain ⟨-, hmoves⟩ := h.1.worker hpc ht rfl rfl
      obtain ⟨-, L, hcore, hempty⟩ := h
      have htaken : (s.views t).taken = .read func arg := by rw [hview]; rfl
      have hcore' := hcore.called htaken
      rw [hview] at hcore'
      refine Ok.takes ?_
      rw [threadStep, ok_emit]
      exact inv_moves (hmoves .loop ht rfl) hempty hcore' rfl rfl rfl rfl
  | _ => cases hwork

/-- The test of `quit` in `thrdpool_post`. -/
theorem Inv.testQuitStep (h : Inv rs s) {func : τ} {arg : Nat}
    (hpc : s.pc t = .testQuit func arg) (n : Nat) :
    Takes (threadStep n t (.testQuit func arg)) s fun r s' => Inv (rs ++ [r]) s' := by
  have ht := h.1.fits t
  rw [hpc] at ht
  obtain ⟨hres, hmoves⟩ := h.1.caller hpc ht rfl
  have hne : t ≠ .owner := by
    rintro rfl
    exact ht
  refine (ok_live (by rw [hres]; rfl) ?_).takes
  rw [ok_bind, ok_get]
  split_ifs with hquit
  · rw [ok_emit]
    exact (h.goto (hmoves .out hne) (by rw [hpc]; rfl)).silent ⟨rfl, rfl, rfl⟩
  · rw [ok_go]
    exact (h.goto (hmoves (.malloc func arg) ht) (by rw [hpc]; rfl)).silent silent_none

/-- A sleeping worker is woken. -/
theorem Inv.wake (h : Inv rs s) {i : Nat} (hwaiting : (s.pc (.worker i)).isWaiting = true) :
    Inv rs (s.goto (.worker i) .woken) ∧ s.pc (.worker i) = .waiting := by
  have hpc : s.pc (.worker i) = .waiting := by
    cases hpc : s.pc (.worker i) with
    | waiting => rfl
    | _ => rw [hpc] at hwaiting; cases hwaiting
  obtain ⟨-, hmoves⟩ := h.1.worker hpc trivial rfl rfl
  exact ⟨h.goto (hmoves .woken trivial rfl) (by rw [hpc]; rfl), hpc⟩

/-- `pthread_cond_signal` -/
theorem Inv.signalStep (h : Inv rs s) (n : Nat) (t : Thread) (w : Option Nat) :
    Takes (signalStep n t w (s.pc t)) s fun r s' => Inv (rs ++ [r]) s' := by
  cases hpc : s.pc t with
  | add task func arg pc =>
      cases pc with
      | signal =>
          have ht := h.1.fits t
          rw [hpc] at ht
          obtain ⟨hres, hmoves⟩ := h.1.caller hpc ht rfl
          have hne : t ≠ .owner := by
            rintro rfl
            exact ht
          cases w with
          | none =>
              refine takes_live (by rw [hres]; rfl) (takes_await fun _ => ?_)
              rw [ok_go]
              exact (h.goto (hmoves .out hne) (by rw [hpc]; rfl)).silent silent_none
          | some w =>
              refine takes_live (by rw [hres]; rfl) (takes_await fun hw => ?_)
              rw [ok_bind, ok_modify, ok_go]
              obtain ⟨hinv, -⟩ := h.wake hw.2
              have hne' : t ≠ .worker w := by
                rintro rfl
                exact ht
              have hpc' : (s.goto (.worker w) .woken).pc t = .add task func arg .signal := by
                rw [pc_goto_of_ne hne', hpc]
              obtain ⟨-, hmoves'⟩ := hinv.1.caller hpc' ht rfl
              exact (hinv.goto (hmoves' .out hne) (by rw [hpc']; rfl)).silent silent_none
      | _ => exact Or.inl rfl
  | _ => exact Or.inl rfl

end Workers

end KvStore.Thrdpool
