import KvStore.Thrdpool.Core

set_option autoImplicit false

/-! # The stages of the worker pool

The place of the owner says what has been allocated (`Pc.resources`), how many workers there are and
how many of them have been joined. While a worker or a caller is inside, everything is there
(`Stage.res_of_worker`, `Stage.res_of_caller`): the workers have all returned before anything is
given back, and so have the callers, when the program makes no call behind the last join
(`Disciplined`). -/

namespace KvStore.Thrdpool

open Function KvStore.Lib

variable {τ : Type}

/-! ## Who is where -/

def Thread.IsWorker : Thread → Prop
  | .worker _ => True
  | _ => False

def Thread.IsCaller : Thread → Prop
  | .caller _ => True
  | _ => False

/-- Who can be at a place. -/
def Pc.Fits (t : Thread) : Pc τ → Prop
  | .out => t ≠ .owner
  | .loop => t.IsWorker
  | .pop .worker _ => t.IsWorker
  | .lockMutex => t.IsWorker
  | .testBlock => t.IsWorker
  | .condWait => t.IsWorker
  | .waiting => t.IsWorker
  | .woken => t.IsWorker
  | .relocked => t.IsWorker
  | .giveUp => t.IsWorker
  | .read _ => t.IsWorker
  | .free _ _ _ => t.IsWorker
  | .run _ _ => t.IsWorker
  | .left => t.IsWorker
  | .testQuit _ _ => t.IsCaller
  | .malloc _ _ => t.IsCaller
  | .fill _ _ _ => t.IsCaller
  | .add _ _ _ _ => t.IsCaller
  | .close .caller _ => t.IsCaller
  | _ => t = .owner

/-! ## The place of the owner -/

/-- Everything is there. -/
def Resources.all : Resources := ⟨true, true, true, true, true⟩

/-- What has been allocated, by where the owner is. -/
def Pc.resources : Pc τ → Resources
  | .mallocPool => ⟨false, false, false, false, false⟩
  | .mallocQueue => ⟨true, false, false, false, false⟩
  | .initMutex => ⟨true, true, false, false, false⟩
  | .initCond => ⟨true, true, true, false, false⟩
  | .initAttr => ⟨true, true, true, true, false⟩
  | .mallocThreads => ⟨true, true, true, true, false⟩
  | .pop (.owner failed) _ => ⟨true, true, true, true, !failed⟩
  | .drop failed _ => ⟨true, true, true, true, !failed⟩
  | .destroyCond failed => ⟨true, true, true, true, !failed⟩
  | .destroyMutex failed => ⟨true, true, true, false, !failed⟩
  | .freeQueue failed => ⟨true, true, false, false, !failed⟩
  | .freeThreads false => ⟨true, false, false, false, true⟩
  | .freePool _ => ⟨true, false, false, false, false⟩
  | .returned _ => ⟨false, false, false, false, false⟩
  | _ => .all

/-- The parts of the owner's life. -/
inductive Phase where
  /-- No thread has been created. -/
  | early
  | active
  /-- Every thread that was created has been joined. -/
  | late

def Pc.phase : Pc τ → Phase
  | .mallocPool => .early
  | .mallocQueue => .early
  | .initMutex => .early
  | .initCond => .early
  | .initAttr => .early
  | .mallocThreads => .early
  | .pop (.owner _) _ => .late
  | .drop _ _ => .late
  | .destroyCond _ => .late
  | .destroyMutex _ => .late
  | .freeQueue _ => .late
  | .freeThreads _ => .late
  | .freePool _ => .late
  | .returned _ => .late
  | _ => .active

/-- The task that `__pop_task` returns is `NULL`. -/
def PopPc.isEmpty : PopPc → Bool
  | .unlock task => task == 0
  | _ => false

/-- The queue is empty: the pool is being made, or `__taskqueue_destroy` has found it so. -/
def Pc.isEmpty : Pc τ → Bool
  | .pop (.owner _) pc => pc.isEmpty
  | .destroyCond _ => true
  | .destroyMutex _ => true
  | .freeQueue _ => true
  | .freeThreads failed => !failed
  | .freePool _ => true
  | .returned _ => true
  | pc =>
      match pc.phase with
      | .early => true
      | _ => false

/-- The pool has been returned to its users, and `thrdpool_waitdone` is not behind the joins. -/
def Pc.isPublished : Pc τ → Bool
  | .ready => true
  | .join false _ => true
  | _ => false

/-- When `pool->thrd_count` has been written. -/
def Pc.Counts (count : Option Nat) : Pc τ → Prop
  | .create _ => count = none
  | .ready => count.isSome = true
  | .close .owner _ => count.isSome = true
  | .join _ _ => count.isSome = true
  | pc =>
      match pc.phase with
      | .early => count = none
      | _ => True

/-- How many workers have been created. -/
def Pc.created (count : Option Nat) : Pc τ → Nat
  | .create i => i
  | _ => count.getD 0

/-- How many workers have been joined. -/
def Pc.joined (count : Option Nat) : Pc τ → Nat
  | .join _ i => i
  | pc =>
      match pc.phase with
      | .late => count.getD 0
      | _ => 0

/-- **The stage of the pool.** -/
structure Stage (s : Sys τ) : Prop where
  fits : ∀ t, (s.pc t).Fits t
  res : s.res = (s.pc .owner).resources
  counts : (s.pc .owner).Counts s.thrdCount
  created : ∀ i, (s.pc (.worker i)).isOut = true ↔ (s.pc .owner).created s.thrdCount ≤ i
  joined : ∀ i, i < (s.pc .owner).joined s.thrdCount → (s.pc (.worker i)).isLeft = true
  unpublished : (s.pc .owner).isPublished = false → ∀ p, (s.pc (.caller p)).isOut = true

/-- **What the users of the pool keep to**: it is used when `thrdpool_create` has returned it, and
no call is going on or made when `thrdpool_waitdone` is behind the joins. -/
def Disciplined (s : Sys τ) : Step τ → Prop
  | .post _ _ _ => (s.pc .owner).isPublished = true
  | .terminate _ => (s.pc .owner).isPublished = true
  | .thread .owner => ∀ i, s.pc .owner = .join false i → s.thrdCount.getD 0 ≤ i → ∀ p,
        (s.pc (.caller p)).isOut = true
  | _ => True

section Stage

variable {s : Sys τ} {t : Thread} {pc : Pc τ}

/-- Only the places of the threads and what has been allocated matter. -/
theorem Stage.congr {s' : Sys τ} (h : Stage s) (hpc : s'.pc = s.pc) (hres : s'.res = s.res)
    (hcount : s'.thrdCount = s.thrdCount) : Stage s' := by
  refine ⟨?_, ?_, ?_, ?_, ?_, ?_⟩
  · rw [hpc]
    exact h.fits
  · rw [hpc, hres]
    exact h.res
  · rw [hpc, hcount]
    exact h.counts
  · rw [hpc, hcount]
    exact h.created
  · rw [hpc, hcount]
    exact h.joined
  · rw [hpc]
    exact h.unpublished

theorem Pc.resources_of_active (hfits : pc.Fits .owner) (hphase : pc.phase = .active) :
    pc.resources = .all := by
  cases pc with
  | pop u _ =>
      cases u with
      | worker => cases hfits
      | owner failed => cases hphase
  | freeThreads failed => cases hphase
  | _ => first | rfl | cases hphase

theorem Pc.joined_of_late (hphase : pc.phase = .late) (count : Option Nat) :
    pc.joined count = count.getD 0 ∧ pc.created count = count.getD 0 := by
  cases pc with
  | join failed i => cases hphase
  | create i => cases hphase
  | _ => exact ⟨by rw [Pc.joined, hphase]; exact fun _ _ h => (by cases h), rfl⟩

theorem Pc.count_of_early (hphase : pc.phase = .early) {count : Option Nat} (h : pc.Counts count) :
    count = none := by
  cases pc with
  | mallocPool => exact h
  | mallocQueue => exact h
  | initMutex => exact h
  | initCond => exact h
  | initAttr => exact h
  | mallocThreads => exact h
  | pop u _ => cases u <;> cases hphase
  | _ => cases hphase

theorem Pc.created_of_early (hphase : pc.phase = .early) {count : Option Nat}
    (h : pc.Counts count) : pc.created count = 0 := by
  rw [Pc.count_of_early hphase h]
  cases pc with
  | create i => cases hphase
  | _ => rfl

/-- While a worker runs, threads have been created, and not all of them joined. -/
theorem Stage.active_of_worker (h : Stage s) (ht : t.IsWorker) (hout : (s.pc t).isOut = false)
    (hleft : (s.pc t).isLeft = false) : (s.pc .owner).phase = .active := by
  cases t with
  | worker i =>
      have hcreated := h.created i
      rw [hout] at hcreated
      have hlt : i < (s.pc .owner).created s.thrdCount := by
        rw [← not_le]
        exact fun hle => Bool.false_ne_true (hcreated.mpr hle)
      cases hphase : (s.pc .owner).phase with
      | early =>
          rw [Pc.created_of_early hphase h.counts] at hlt
          exact absurd hlt (Nat.not_lt_zero i)
      | active => rfl
      | late =>
          obtain ⟨hjoined, heq⟩ := Pc.joined_of_late hphase s.thrdCount
          have hleft' := h.joined i (by rw [hjoined, ← heq]; exact hlt)
          rw [hleft] at hleft'
          cases hleft'
  | caller p => exact ht.elim
  | owner => exact ht.elim

/-- While a worker runs, everything is there. -/
theorem Stage.res_of_worker (h : Stage s) (ht : t.IsWorker) (hout : (s.pc t).isOut = false)
    (hleft : (s.pc t).isLeft = false) : s.res = .all :=
  h.res.trans (Pc.resources_of_active (h.fits .owner) (h.active_of_worker ht hout hleft))

/-- While a caller is inside, the pool is in use. -/
theorem Stage.published_of_caller (h : Stage s) (ht : t.IsCaller) (hout : (s.pc t).isOut = false) :
    (s.pc .owner).isPublished = true := by
  cases t with
  | caller p =>
      by_contra hpublished
      have hout' := h.unpublished (by rwa [Bool.not_eq_true] at hpublished) p
      rw [hout] at hout'
      cases hout'
  | worker i => exact ht.elim
  | owner => exact ht.elim

theorem fits_goto (h : ∀ t, (s.pc t).Fits t) (hfits : pc.Fits t) :
    ∀ t', ((s.goto t pc).pc t').Fits t' := by
  intro t'
  show (update s.pc t pc t').Fits t'
  by_cases heq : t' = t
  · subst heq
    rwa [update_self]
  · rw [update_of_ne heq]
    exact h t'

theorem pc_goto_of_ne {t' : Thread} (h : t' ≠ t) :
    (s.goto t pc).pc t' = s.pc t' := update_of_ne h ..

theorem pc_goto_self : (s.goto t pc).pc t = pc := update_self ..

theorem Pc.not_empty_of_active (hfits : pc.Fits .owner) (hphase : pc.phase = .active) :
    pc.isEmpty = false := by
  cases pc with
  | pop u _ =>
      cases u with
      | worker => cases hfits
      | owner failed => cases hphase
  | freeThreads failed => cases hphase
  | _ => first | rfl | cases hphase

/-- While a worker runs, the queue is not known to be empty. -/
theorem Stage.not_empty_of_worker (h : Stage s) (ht : t.IsWorker) (hout : (s.pc t).isOut = false)
    (hleft : (s.pc t).isLeft = false) : (s.pc .owner).isEmpty = false :=
  Pc.not_empty_of_active (h.fits .owner) (h.active_of_worker ht hout hleft)

theorem Pc.active_of_published (h : pc.isPublished = true) : pc.phase = .active := by
  cases pc with
  | ready => rfl
  | join failed i => rfl
  | _ => cases h

/-- While a caller is inside, everything is there, and the queue is not known to be empty. -/
theorem Stage.res_of_caller (h : Stage s) (ht : t.IsCaller) (hout : (s.pc t).isOut = false) :
    s.res = .all ∧ (s.pc .owner).isEmpty = false := by
  have hactive := Pc.active_of_published (h.published_of_caller ht hout)
  exact ⟨h.res.trans (Pc.resources_of_active (h.fits .owner) hactive),
    Pc.not_empty_of_active (h.fits .owner) hactive⟩

/-- A worker that runs goes on. -/
theorem Stage.goto_worker (h : Stage s) (ht : t.IsWorker) (hout : (s.pc t).isOut = false)
    (hleft : (s.pc t).isLeft = false) (hfits : pc.Fits t) (hout' : pc.isOut = false) :
    Stage (s.goto t pc) := by
  cases t with
  | worker i =>
      have howner : (s.goto (.worker i) pc).pc .owner = s.pc .owner := pc_goto_of_ne (by simp)
      refine ⟨fits_goto h.fits hfits, ?_, ?_, fun j => ?_, fun j hj => ?_, fun hpub p => ?_⟩
      · rw [howner]
        exact h.res
      · rw [howner]
        exact h.counts
      · rw [howner]
        by_cases hji : j = i
        · subst hji
          rw [pc_goto_self, hout', ← hout]
          exact h.created j
        · rw [pc_goto_of_ne (by simpa using hji)]
          exact h.created j
      · rw [howner] at hj
        have hleftj := h.joined j hj
        by_cases hji : j = i
        · subst hji
          rw [hleft] at hleftj
          cases hleftj
        · rw [pc_goto_of_ne (by simpa using hji)]
          exact hleftj
      · rw [howner] at hpub
        rw [pc_goto_of_ne (by simp)]
        exact h.unpublished hpub p
  | caller p => exact ht.elim
  | owner => exact ht.elim

/-- A caller goes on, while the pool is in use. -/
theorem Stage.goto_caller (h : Stage s) (ht : t.IsCaller) (hpub : (s.pc .owner).isPublished = true)
    (hfits : pc.Fits t) : Stage (s.goto t pc) := by
  cases t with
  | caller p =>
      have howner : (s.goto (.caller p) pc).pc .owner = s.pc .owner := pc_goto_of_ne (by simp)
      have hworker : ∀ i, (s.goto (.caller p) pc).pc (.worker i) = s.pc (.worker i) :=
        fun i => pc_goto_of_ne (by simp)
      refine ⟨fits_goto h.fits hfits, ?_, ?_, fun j => ?_, fun j hj => ?_, fun hpub' p => ?_⟩
      · rw [howner]
        exact h.res
      · rw [howner]
        exact h.counts
      · rw [howner, hworker]
        exact h.created j
      · rw [howner] at hj
        rw [hworker]
        exact h.joined j hj
      · rw [howner, hpub] at hpub'
        cases hpub'
  | worker i => exact ht.elim
  | owner => exact ht.elim

/-- The owner goes on. -/
theorem Stage.goto_owner (h : Stage s) {f : Sys τ → Sys τ} (hpc : (f s).pc = s.pc)
    (hfits : pc.Fits .owner) (hres : (f s).res = pc.resources) (hcounts : pc.Counts (f s).thrdCount)
    (hcreated : pc.created (f s).thrdCount = (s.pc .owner).created s.thrdCount)
    (hjoined : ∀ i, i < pc.joined (f s).thrdCount → (s.pc (.worker i)).isLeft = true)
    (hpub : pc.isPublished = false → ∀ p, (s.pc (.caller p)).isOut = true) :
    Stage ((f s).goto .owner pc) := by
  have hworker : ∀ i, ((f s).goto .owner pc).pc (.worker i) = s.pc (.worker i) := fun i => by
    rw [pc_goto_of_ne (by simp), hpc]
  refine ⟨fits_goto (by rw [hpc]; exact h.fits) hfits, ?_, ?_, fun j => ?_, fun j hj => ?_,
    fun hpub' p => ?_⟩
  · rw [pc_goto_self]
    exact hres
  · rw [pc_goto_self]
    exact hcounts
  · rw [pc_goto_self, hworker]
    show _ ↔ pc.created (f s).thrdCount ≤ j
    rw [hcreated]
    exact h.created j
  · rw [pc_goto_self] at hj
    rw [hworker]
    exact hjoined j hj
  · rw [pc_goto_self] at hpub'
    rw [pc_goto_of_ne (by simp), hpc]
    exact hpub hpub' p

end Stage

end KvStore.Thrdpool
