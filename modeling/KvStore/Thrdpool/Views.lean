import KvStore.Lib.Links
import KvStore.Lib.Ownership
import KvStore.Lib.Simulation
import KvStore.Thrdpool.Model

set_option autoImplicit false

/-! # What the places of the worker pool mean

The threads of the pool meet in four things: the spinlock, the mutex, the task blocks, and the tasks
they are at. `Pc.view` says what each place in the code means for them; a step that changes none of
them leaves the view as it is. `Core` holds of the views and of the memory:

* one thread is in a section of the spinlock (`Sections`), and `queue->tail` is the last link of the
  list, but for the moment in which this thread is changing it;
* the mutex is held by one thread;
* a block is in the list, or one thread has it (`Memory`), and its fields have been written as far
  as the place of this thread says;
* the tasks were taken in the order in which they were linked, and each one is with the thread that
  has taken it until it has been called, or dropped (`History`). -/

namespace KvStore.Thrdpool

open Function KvStore.Lib

variable {τ : Type}

/-! ## Views -/

/-- Where a thread is in a section of the spinlock. -/
inductive Section where
  | outside
  | inside
  /-- It has found the first task. -/
  | found (task : Nat)
  /-- It has taken the first task, and `tail` is as it was. -/
  | popped (task : Nat)
  /-- It has linked a task, and `tail` is as it was. -/
  | linked (task : Nat)

def Section.isInside : Section → Bool
  | .outside => false
  | _ => true

/-- The task that a thread has taken and that has not been called or dropped. -/
inductive Taken (τ : Type) where
  | none
  /-- It is in its block. -/
  | block (task : Nat)
  /-- It has been read. -/
  | read (func : τ) (arg : Nat)

def Taken.jobs (tasks : Nat → Option (Task τ)) : Taken τ → List (τ × Nat)
  | .none => []
  | .block a => (jobAt tasks a).toList
  | .read func arg => [(func, arg)]

/-- Every field of the block has been written. -/
def Task.Full (b : Task τ) : Prop := b.next.isSome = true ∧ b.job.isSome = true

structure View (τ : Type) where
  sec : Section
  /-- It holds the mutex. -/
  holds : Bool
  /-- The block it has. -/
  held : Option Nat
  /-- What has been written to this block. -/
  expects : Task τ → Prop
  taken : Taken τ

/-- A thread that has nothing. -/
def View.idle : View τ := ⟨.outside, false, none, fun _ => True, .none⟩

/-- A task has been taken, and is in its block. -/
def View.full (task : Nat) : View τ := ⟨.outside, false, some task, Task.Full, .block task⟩

namespace View

def setSec (x : View τ) (sec : Section) : View τ := { x with sec := sec }
def setHolds (x : View τ) (b : Bool) : View τ := { x with holds := b }
def setHeld (x : View τ) (held : Option Nat) (P : Task τ → Prop) : View τ :=
  { x with held := held, expects := P }
def setTaken (x : View τ) (taken : Taken τ) : View τ := { x with taken := taken }

end View

/-- The function and the argument have been written. -/
def Task.Filled (func : τ) (arg : Nat) (b : Task τ) : Prop := b.job = some (func, arg)

/-- The block is to be the last one of the list. -/
def Task.Last (func : τ) (arg : Nat) (b : Task τ) : Prop :=
  b.job = some (func, arg) ∧ b.next = some 0

def PopPc.view : PopPc → View τ
  | .lock => .idle
  | .head => View.idle.setSec .inside
  | .link task => View.idle.setSec (.found task)
  | .tail task => (View.full task).setSec (.popped task)
  | .unlock task => if task = 0 then View.idle.setSec .inside else (View.full task).setSec .inside

def AddPc.view (task : Nat) (func : τ) (arg : Nat) : AddPc → View τ
  | .clear => View.idle.setHeld (some task) (Task.Filled func arg)
  | .lock => View.idle.setHeld (some task) (Task.Last func arg)
  | .link => (View.idle.setHeld (some task) (Task.Last func arg)).setSec .inside
  | .tail => View.idle.setSec (.linked task)
  | .unlock => View.idle.setSec .inside
  | .signal => .idle

def ClosePc.view : ClosePc → View τ
  | .clear => View.idle.setHolds true
  | .unlock => View.idle.setHolds true
  | _ => .idle

/-- **What a place means** for the things that threads share. -/
def Pc.view : Pc τ → View τ
  | .pop _ pc => pc.view
  | .testBlock => View.idle.setHolds true
  | .condWait => View.idle.setHolds true
  | .relocked => View.idle.setHolds true
  | .giveUp => View.idle.setHolds true
  | .read task => .full task
  | .free task func arg => (View.full task).setTaken (.read func arg)
  | .run func arg => View.idle.setTaken (.read func arg)
  | .fill task _ _ => View.idle.setHeld (some task) fun _ => True
  | .add task func arg pc => pc.view task func arg
  | .close _ pc => pc.view
  | .drop _ task => .full task
  | _ => .idle

def Sys.views (s : Sys τ) (t : Thread) : View τ := (s.pc t).view

theorem views_goto (s : Sys τ) (t : Thread) (pc : Pc τ) :
    (s.goto t pc).views = update s.views t pc.view :=
  comp_update Pc.view s.pc t pc

/-- A thread goes on to a place that means the same. -/
theorem views_goto_eq {s : Sys τ} {t : Thread} {pc : Pc τ} (h : pc.view = (s.pc t).view) :
    (s.goto t pc).views = s.views := by
  rw [views_goto, h]
  exact update_eq_self t s.views

section Update

variable {v : Thread → View τ} {t : Thread} {x : View τ}

/-- A part of the views, behind an update. -/
theorem part_update {β : Type} (f : View τ → β) :
    (fun t' => f (update v t x t')) = update (fun t' => f (v t')) t (f x) :=
  comp_update f v t x

theorem part_update_eq {β : Type} (f : View τ → β) (h : f x = f (v t)) :
    (fun t' => f (update v t x t')) = fun t' => f (v t') := by
  rw [part_update, h]
  exact update_eq_self t fun t' => f (v t')

end Update

/-! ## The spinlock -/

/-- What the thread in a section knows of the list. -/
def Section.Holds (head : Nat) (tail : Option Nat) (L : List Nat) : Section → Prop
  | .outside => False
  | .inside => tail = L.getLast?
  | .found a => tail = L.getLast? ∧ head = a ∧ a ≠ 0
  | .popped a => tail = (a :: L).getLast?
  | .linked a => ∃ M, L = M ++ [a] ∧ tail = M.getLast?

/-- **At most one thread is inside**, and it knows what `tail` is; when nobody is inside, `tail` is
the last link. -/
def Sections (lock : Bool) (head : Nat) (tail : Option Nat) (L : List Nat)
    (sec : Thread → Section) : Prop :=
  ∃ holder : Option Thread, lock = holder.isSome ∧ HeldBy holder (fun t => (sec t).isInside) ∧
    (holder = none → tail = L.getLast?) ∧ ∀ t, holder = some t → (sec t).Holds head tail L

section Sections

variable {lock : Bool} {head head' : Nat} {tail tail' : Option Nat} {L L' : List Nat}
  {sec : Thread → Section} {t : Thread}

theorem isInside_update (x : Section) :
    (fun t' => (update sec t x t').isInside) =
      update (fun t' => (sec t').isInside) t x.isInside :=
  comp_update Section.isInside sec t x

theorem Sections.enter (h : Sections false head tail L sec) (t : Thread) :
    Sections true head tail L (update sec t .inside) := by
  obtain ⟨holder, hlock, hheld, hidle, -⟩ := h
  cases holder with
  | some t' => cases hlock
  | none =>
      refine ⟨some t, rfl, ?_, fun h => (by cases h), ?_⟩
      · rw [isInside_update]
        exact hheld.take t
      · rintro t' ⟨⟩
        rw [update_self]
        exact hidle rfl

/-- The holder, when a thread is inside. -/
theorem Sections.holds (h : Sections lock head tail L sec) (ht : (sec t).isInside = true) :
    (sec t).Holds head tail L := by
  obtain ⟨holder, -, hheld, -, hholds⟩ := h
  exact hholds t ((hheld t).mp ht)

/-- The thread inside goes on, and stays inside. -/
theorem Sections.go (h : Sections lock head tail L sec) (ht : (sec t).isInside = true) {x : Section}
    (hx : x.isInside = true) (hholds : x.Holds head' tail' L') :
    Sections lock head' tail' L' (update sec t x) := by
  obtain ⟨holder, hlock, hheld, -, -⟩ := h
  obtain rfl := (hheld t).mp ht
  refine ⟨some t, hlock, ?_, fun h => (by cases h), ?_⟩
  · rw [isInside_update, hx, ← ht]
    have heq : update (fun t' => (sec t').isInside) t
        (sec t).isInside = fun t' => (sec t').isInside :=
      update_eq_self t fun t' => (sec t').isInside
    rw [heq]
    exact hheld
  · rintro t' ⟨⟩
    rw [update_self]
    exact hholds

theorem Sections.leave (h : Sections lock head tail L sec) (ht : sec t = .inside) :
    Sections false head tail L (update sec t .outside) := by
  have hinside : (sec t).isInside = true := by rw [ht]; rfl
  have htail := h.holds hinside
  rw [ht] at htail
  obtain ⟨holder, -, hheld, -, -⟩ := h
  obtain rfl := (hheld t).mp hinside
  refine ⟨none, rfl, ?_, fun _ => htail, fun t' h => (by cases h)⟩
  rw [isInside_update]
  exact hheld.drop

end Sections

/-! ## The blocks -/

/-- The link in the block at `a`. -/
def nextAt (tasks : Nat → Option (Task τ)) (a : Nat) : Nat := ((tasks a).bind Task.next).getD 0

/-- **The blocks**: the list leads through `L`, and every other block is with one thread. -/
structure Memory (tasks : Nat → Option (Task τ)) (head : Nat) (L : List Nat)
    (v : Thread → View τ) : Prop where
  null : tasks 0 = none
  owned : Owned (fun a => (tasks a).isSome) L (fun t => (v t).held)
  full : ∀ a ∈ L, ∀ b, tasks a = some b → b.Full
  expects : ∀ t a b, (v t).held = some a → tasks a = some b → (v t).expects b
  links : Links (nextAt tasks) head L 0

section Memory

variable {tasks : Nat → Option (Task τ)} {head : Nat} {L : List Nat} {v : Thread → View τ}
  {t : Thread} {a : Nat} {x : View τ} {b : Task τ}

theorem Memory.exists_block (h : Memory tasks head L v) (hheld : (v t).held = some a) :
    ∃ b, tasks a = some b ∧ (v t).expects b := by
  obtain ⟨b, hb⟩ := Option.isSome_iff_exists.mp (h.owned.used_of_held hheld)
  exact ⟨b, hb, h.expects t a b hheld hb⟩

theorem Memory.exists_queued (h : Memory tasks head L v) (ha : a ∈ L) :
    ∃ b, tasks a = some b ∧ b.Full := by
  obtain ⟨b, hb⟩ := Option.isSome_iff_exists.mp (h.owned.used_of_mem ha)
  exact ⟨b, hb, h.full a ha b hb⟩

theorem Memory.ne_zero_of_held (h : Memory tasks head L v)
    (hheld : (v t).held = some a) : a ≠ 0 := by
  rintro rfl
  obtain ⟨b, hb, -⟩ := h.exists_block hheld
  rw [h.null] at hb
  cases hb

theorem Memory.zero_notMem (h : Memory tasks head L v) : 0 ∉ L := by
  intro h0
  obtain ⟨b, hb, -⟩ := h.exists_queued h0
  rw [h.null] at hb
  cases hb

/-- The list is empty exactly when `head` is `NULL`. -/
theorem Memory.head_eq_zero (h : Memory tasks head L v) : head = 0 ↔ L = [] := by
  constructor
  · rintro rfl
    exact h.links.eq_nil h.zero_notMem
  · rintro rfl
    exact h.links

theorem Memory.eq_cons (h : Memory tasks head L v) (hhead : head ≠ 0) : ∃ M, L = head :: M := by
  cases L with
  | nil => exact absurd h.links hhead
  | cons a M => exact ⟨M, by rw [h.links.1]⟩

/-- A thread goes on with what it has. -/
theorem Memory.keep (h : Memory tasks head L v) (hheld : x.held = (v t).held)
    (hexpects : ∀ b, (v t).expects b → x.expects b) : Memory tasks head L (update v t x) where
  null := h.null
  owned := by
    rw [part_update_eq View.held hheld]
    exact h.owned
  full := h.full
  links := h.links
  expects t' a b ht' hb := by
    by_cases heq : t' = t
    · subst heq
      rw [update_self] at ht' ⊢
      rw [hheld] at ht'
      exact hexpects b (h.expects t' a b ht' hb)
    · rw [update_of_ne heq] at ht' ⊢
      exact h.expects t' a b ht' hb

theorem isSome_update (b : Option (Task τ)) :
    (fun a' => (update tasks a b a').isSome) = update (fun a' => (tasks a').isSome) a b.isSome :=
  comp_update Option.isSome tasks a b

theorem nextAt_update_of_ne {b : Option (Task τ)} {a' : Nat} (hne : a' ≠ a) :
    nextAt (update tasks a b) a' = nextAt tasks a' := by
  rw [nextAt, update_of_ne hne]
  rfl

/-- **A block is changed** that is not in the list, and that no other thread has. -/
theorem Memory.setBlock (h : Memory tasks head L v) (ha : a ≠ 0) (hnotMem : a ∉ L)
    (hothers : ∀ t', t' ≠ t → (v t').held ≠ some a) {b : Option (Task τ)}
    (howned : Owned (update (fun a' => (tasks a').isSome) a b.isSome) L
      (update (fun t' => (v t').held) t x.held))
    (hx : ∀ a' b', x.held = some a' → update tasks a b a' = some b' → x.expects b') :
    Memory (update tasks a b) head L (update v t x) := by
  constructor
  · rw [update_of_ne ha.symm]
    exact h.null
  · rw [isSome_update, part_update]
    exact howned
  · intro a' ha' b' hb'
    have hne : a' ≠ a := fun heq => hnotMem (heq ▸ ha')
    rw [update_of_ne hne] at hb'
    exact h.full a' ha' b' hb'
  · intro t' a' b' ht' hb'
    by_cases heq : t' = t
    · subst heq
      rw [update_self] at ht' ⊢
      exact hx a' b' ht' hb'
    · rw [update_of_ne heq] at ht' ⊢
      have hne : a' ≠ a := by
        rintro rfl
        exact hothers t' heq ht'
      rw [update_of_ne hne] at hb'
      exact h.expects t' a' b' ht' hb'
  · exact h.links.congr fun a' ha' => nextAt_update_of_ne fun heq => hnotMem (heq ▸ ha')

/-- The block that is written is as it should be. -/
theorem expects_written (hheld : x.held = some a) (hexpects : x.expects b) (a' : Nat)
    (b' : Task τ) (ha' : x.held = some a') (hb' : update tasks a (some b) a' = some b') :
    x.expects b' := by
  rw [hheld] at ha'
  cases ha'
  rw [update_self] at hb'
  cases hb'
  exact hexpects

/-- A new block. -/
theorem Memory.malloc (h : Memory tasks head L v) (ha : a ≠ 0) (hnotMem : a ∉ L)
    (hothers : ∀ t', t' ≠ t → (v t').held ≠ some a) (hfree : tasks a = none)
    (hold : (v t).held = none) (hheld : x.held = some a) (hexpects : x.expects b) :
    Memory (update tasks a (some b)) head L (update v t x) := by
  refine h.setBlock ha hnotMem hothers ?_ (expects_written hheld hexpects)
  rw [hheld]
  exact h.owned.acquire (by rw [hfree]; rfl) hold

/-- Nobody else has the block of a thread. -/
theorem Memory.held_ne (h : Memory tasks head L v) (hold : (v t).held = some a) (t' : Thread)
    (hne : t' ≠ t) : (v t').held ≠ some a :=
  fun ht' => hne (h.owned.unique t' t a ht' hold)

/-- A thread writes to the block it has. -/
theorem Memory.write (h : Memory tasks head L v) (hold : (v t).held = some a)
    (hheld : x.held = some a) (hexpects : x.expects b) :
    Memory (update tasks a (some b)) head L (update v t x) := by
  refine h.setBlock (h.ne_zero_of_held hold) (h.owned.apart t a hold) (h.held_ne hold) ?_
    (expects_written hheld hexpects)
  have hused : (tasks a).isSome = true := h.owned.used_of_held hold
  have heq : update (fun a' => (tasks a').isSome) a
      (some b).isSome = fun a' => (tasks a').isSome := by
    rw [Option.isSome_some, ← hused]
    exact update_eq_self a _
  have heq' : update (fun t' => (v t').held) t x.held = fun t' => (v t').held := by
    rw [hheld, ← hold]
    exact update_eq_self t _
  rw [heq, heq']
  exact h.owned

/-- A thread frees the block it has. -/
theorem Memory.free (h : Memory tasks head L v) (hold : (v t).held = some a)
    (hheld : x.held = none) : Memory (update tasks a none) head L (update v t x) := by
  refine h.setBlock (h.ne_zero_of_held hold) (h.owned.apart t a hold) (h.held_ne hold) ?_
    fun a' b' ha' => ?_
  · rw [hheld]
    exact h.owned.discard hold
  · rw [hheld] at ha'
    cases ha'

/-- The first task of the list is taken. -/
theorem Memory.pop (h : Memory tasks a (a :: L) v) (hold : (v t).held = none)
    (hheld : x.held = some a) (hexpects : x.expects = Task.Full) :
    Memory tasks (nextAt tasks a) L (update v t x) := by
  constructor
  · exact h.null
  · rw [part_update, hheld]
    exact h.owned.take hold
  · exact fun a' ha' => h.full a' (List.mem_cons_of_mem a ha')
  · intro t' a' b' ht' hb'
    by_cases heq : t' = t
    · subst heq
      rw [update_self, hheld] at ht'
      cases ht'
      rw [update_self, hexpects]
      exact h.full _ List.mem_cons_self b' hb'
    · rw [update_of_ne heq] at ht' ⊢
      exact h.expects t' a' b' ht' hb'
  · exact h.links.2

/-- A thread that has a block which is not in the list keeps it, and the others keep theirs, when
its block gets into the list. -/
theorem Memory.expects_publish (h : Memory tasks head L v) (hold : (v t).held = some a)
    (hheld : x.held = none) {t' : Thread} {a' : Nat} {b' : Task τ}
    (ht' : (update v t x t').held = some a') (hb' : tasks a' = some b') :
    (update v t x t').expects b' ∧ a' ≠ a ∧ a' ∉ L := by
  by_cases heq : t' = t
  · subst heq
    rw [update_self, hheld] at ht'
    cases ht'
  · rw [update_of_ne heq] at ht' ⊢
    exact ⟨h.expects t' a' b' ht' hb', h.owned.ne_of_held hold ht' heq, h.owned.apart t' a' ht'⟩

/-- A task is linked to an empty list. -/
theorem Memory.linkFirst (h : Memory tasks head [] v) (hold : (v t).held = some a)
    (hb : tasks a = some b) (hfull : b.Full) (hnext : b.next = some 0) (hheld : x.held = none) :
    Memory tasks a [a] (update v t x) := by
  constructor
  · exact h.null
  · rw [part_update, hheld]
    exact h.owned.publish hold
  · intro a' ha' b' hb'
    obtain rfl := List.mem_singleton.mp ha'
    rw [hb] at hb'
    cases hb'
    exact hfull
  · exact fun t' a' b' ht' hb' => (h.expects_publish hold hheld ht' hb').1
  · refine ⟨rfl, ?_⟩
    show nextAt tasks a = 0
    rw [nextAt, hb]
    show b.next.getD 0 = 0
    rw [hnext]
    rfl

/-- A task is linked to the last task of the list. -/
theorem Memory.linkLast {last : Nat} {M : List Nat} (h : Memory tasks head (M ++ [last]) v)
    (hold : (v t).held = some a) {c : Task τ} (hb : tasks a = some b) (hfull : b.Full)
    (hnext : b.next = some 0) (hc : tasks last = some c) (hheld : x.held = none) :
    Memory (update tasks last (some { c with next := some a })) head (M ++ [last] ++ [a])
      (update v t x) := by
  have hmem : last ∈ M ++ [last] := List.mem_append_right M (List.mem_singleton_self last)
  have hne : a ≠ last := fun heq => h.owned.apart t a hold (heq ▸ hmem)
  have hc' := h.full last hmem c hc
  have hused : (fun a' => (update tasks last (some { c with next := some a }) a').isSome) =
      fun a' => (tasks a').isSome := by
    rw [isSome_update]
    refine Eq.trans ?_ (update_eq_self last fun a' => (tasks a').isSome)
    rw [hc]
    rfl
  constructor
  · have hlast : last ≠ 0 := fun heq => h.zero_notMem (heq ▸ hmem)
    rw [update_of_ne hlast.symm]
    exact h.null
  · rw [hused, part_update, hheld]
    exact h.owned.publish hold
  · intro a' ha' b' hb'
    by_cases heq : a' = last
    · subst heq
      rw [update_self] at hb'
      cases hb'
      exact ⟨rfl, hc'.2⟩
    · rw [update_of_ne heq] at hb'
      rcases List.mem_append.mp ha' with ha' | ha'
      · exact h.full a' ha' b' hb'
      · obtain rfl := List.mem_singleton.mp ha'
        rw [hb] at hb'
        cases hb'
        exact hfull
  · intro t' a' b' ht' hb'
    -- the last block is with no thread
    have hne' : a' ≠ last := by
      rintro rfl
      by_cases heq : t' = t
      · subst heq
        rw [update_self, hheld] at ht'
        cases ht'
      · rw [update_of_ne heq] at ht'
        exact h.owned.apart t' a' ht' hmem
    rw [update_of_ne hne'] at hb'
    exact (h.expects_publish hold hheld ht' hb').1
  · have hend : nextAt (update tasks last (some { c with next := some a })) a = 0 := by
      rw [nextAt_update_of_ne hne, nextAt, hb]
      show b.next.getD 0 = 0
      rw [hnext]
      rfl
    rw [← hend]
    refine h.links.append_last h.zero_notMem hmem h.links.next_last fun a' ha' => ?_
    split_ifs with heq
    · subst heq
      rw [nextAt, update_self]
      rfl
    · exact nextAt_update_of_ne heq

end Memory

end KvStore.Thrdpool
