import KvStore.Thrdpool.Views

set_option autoImplicit false

/-! # What the threads of the worker pool keep

`History`: what the events of a run say about the queue and about the tasks that threads are at.
`Core` puts it together with the spinlock, the mutex and the blocks; the lemmas below say how each
kind of step keeps it, whoever takes the step. -/

namespace KvStore.Thrdpool

open Function KvStore.Lib

variable {τ : Type}

/-! ## Events -/

def Event.linked? : Event τ → Option (τ × Nat)
  | .linked _ func arg => some (func, arg)
  | _ => none

def Event.took? : Event τ → Option (Thread × τ × Nat)
  | .took t job => job.map (t, ·)
  | _ => none

def Event.called? : Event τ → Option (Thread × τ × Nat)
  | .called t func arg => some (t, func, arg)
  | _ => none

def Event.dropped? : Event τ → Option (Thread × τ × Nat)
  | .dropped t job => job.map (t, ·)
  | _ => none

/-- A task that was taken has been called, or dropped. -/
def Event.ended? (e : Event τ) : Option (Thread × τ × Nat) := e.called?.or e.dropped?

/-- The tasks that have been put in the queue. -/
def linked (rs : List (Option (Event τ))) : List (τ × Nat) := pick Event.linked? rs

/-- The tasks that have been taken from the queue, with who has taken them. -/
def took (rs : List (Option (Event τ))) : List (Thread × τ × Nat) := pick Event.took? rs

/-- The tasks that have been called, with who has called them. -/
def called (rs : List (Option (Event τ))) : List (Thread × τ × Nat) := pick Event.called? rs

/-- The tasks that have been called or dropped. -/
def ended (rs : List (Option (Event τ))) : List (Thread × τ × Nat) := pick Event.ended? rs

/-- Those of one thread. -/
def ofThread (t : Thread) (l : List (Thread × τ × Nat)) : List (Thread × τ × Nat) :=
  l.filter fun e => e.1 = t

theorem ofThread_append (t : Thread) (l m : List (Thread × τ × Nat)) :
    ofThread t (l ++ m) = ofThread t l ++ ofThread t m :=
  List.filter_append l m

/-- **What has happened**: the tasks `Q` are in the queue, and each thread `t` is at the tasks
`J t`. -/
structure History (rs : List (Option (Event τ))) (Q : List (τ × Nat))
    (J : Thread → List (τ × Nat)) : Prop where
  order : linked rs = (took rs).map Prod.snd ++ Q
  mine : ∀ t, ofThread t (took rs) = ofThread t (ended rs) ++ (J t).map (t, ·)

/-- The step says nothing about tasks in the queue. -/
def Silent (r : Option (Event τ)) : Prop :=
  r.bind Event.linked? = none ∧ r.bind Event.took? = none ∧ r.bind Event.ended? = none

section History

variable {rs : List (Option (Event τ))} {Q : List (τ × Nat)} {J : Thread → List (τ × Nat)}
  {r : Option (Event τ)} {t : Thread} {job : τ × Nat}

theorem silent_none : Silent (none : Option (Event τ)) := ⟨rfl, rfl, rfl⟩

theorem History.silent (h : History rs Q J) (hr : Silent r) : History (rs ++ [r]) Q J := by
  obtain ⟨hlinked, htook, hended⟩ := hr
  constructor
  · rw [linked, took, pick_append, pick_append, hlinked, htook, Option.toList_none,
      Option.toList_none, List.append_nil, List.append_nil]
    exact h.order
  · intro t
    rw [took, ended, pick_append, pick_append, htook, hended, Option.toList_none, List.append_nil,
      List.append_nil]
    exact h.mine t

theorem History.link (h : History rs Q J) (t : Thread) (func : τ) (arg : Nat) :
    History (rs ++ [some (.linked t func arg)]) (Q ++ [(func, arg)]) J := by
  constructor
  · rw [linked, took, pick_append, pick_append]
    show linked rs ++ [(func, arg)] = (took rs ++ []).map Prod.snd ++ (Q ++ [(func, arg)])
    rw [h.order, List.append_nil, List.append_assoc]
  · intro t
    rw [took, ended, pick_append, pick_append]
    show ofThread t (took rs ++ []) = ofThread t (ended rs ++ []) ++ _
    rw [List.append_nil, List.append_nil]
    exact h.mine t

/-- What a thread is at, behind an update. -/
theorem ofThread_append_singleton {t' : Thread} (l : List (Thread × τ × Nat)) (job : τ × Nat) :
    ofThread t' (l ++ [(t, job)]) = ofThread t' l ++ if t' = t then [(t, job)] else [] := by
  rw [ofThread_append]
  congr 1
  by_cases ht : t' = t
  · subst ht
    simp [ofThread]
  · have hne : ¬t = t' := fun heq => ht heq.symm
    simp [ofThread, ht, hne]

theorem History.take (h : History rs (job :: Q) J) (ht : J t = []) :
    History (rs ++ [some (.took t (some job))]) Q (update J t [job]) := by
  constructor
  · rw [linked, took, pick_append, pick_append]
    show linked rs ++ [] = (took rs ++ [(t, job)]).map Prod.snd ++ Q
    rw [List.append_nil, h.order, List.map_append, List.append_assoc]
    rfl
  · intro t'
    rw [took, ended, pick_append, pick_append]
    show ofThread t' (took rs ++ [(t, job)]) = ofThread t' (ended rs ++ []) ++ _
    rw [ofThread_append_singleton, List.append_nil, h.mine t']
    by_cases heq : t' = t
    · subst heq
      rw [if_pos rfl, update_self, ht, List.map_nil, List.append_nil, List.map_singleton]
    · rw [if_neg heq, List.append_nil, update_of_ne heq]

theorem History.end (h : History rs Q J) (ht : J t = [job]) {e : Event τ}
    (hlinked : e.linked? = none) (htook : e.took? = none) (hended : e.ended? = some (t, job)) :
    History (rs ++ [some e]) Q (update J t []) := by
  constructor
  · rw [linked, took, pick_append, pick_append]
    show linked rs ++ e.linked?.toList = (took rs ++ e.took?.toList).map Prod.snd ++ Q
    rw [hlinked, htook, Option.toList_none, Option.toList_none, List.append_nil, List.append_nil]
    exact h.order
  · intro t'
    rw [took, ended, pick_append, pick_append]
    show ofThread t' (took rs ++ e.took?.toList) = ofThread t' (ended rs ++ e.ended?.toList) ++ _
    rw [htook, hended]
    show ofThread t' (took rs ++ []) = ofThread t' (ended rs ++ [(t, job)]) ++ _
    rw [ofThread_append_singleton, List.append_nil, h.mine t']
    by_cases heq : t' = t
    · subst heq
      rw [if_pos rfl, update_self, ht, List.map_singleton, List.map_nil, List.append_nil]
    · rw [if_neg heq, List.append_nil, update_of_ne heq]

end History

/-! ## The whole -/

/-- **What holds between steps**, with the views `v` of the threads and the tasks `L` in the
queue. -/
structure Core (rs : List (Option (Event τ))) (s : Sys τ) (v : Thread → View τ)
    (L : List Nat) : Prop where
  sections : Sections s.lock s.head s.tail L (fun t => (v t).sec)
  mutex : HeldBy s.mutex (fun t => (v t).holds)
  memory : Memory s.tasks s.head L v
  known : ∀ t a, (v t).taken = .block a → (v t).held = some a
  history : History rs (L.filterMap (jobAt s.tasks)) (fun t => (v t).taken.jobs s.tasks)

section Core

variable {rs : List (Option (Event τ))} {s : Sys τ} {v : Thread → View τ} {L : List Nat}
  {t : Thread} {r : Option (Event τ)} {a : Nat} {tasks : Nat → Option (Task τ)}
  {b : Option (Task τ)} {x : View τ} {func : τ} {arg : Nat}

theorem Core.silent (h : Core rs s v L) (hr : Silent r) : Core (rs ++ [r]) s v L :=
  ⟨h.sections, h.mutex, h.memory, h.known, h.history.silent hr⟩

/-- Only the lock, the list, the mutex and the blocks matter. -/
theorem Core.congr {s' : Sys τ} (h : Core rs s v L) (hlock : s'.lock = s.lock)
    (hhead : s'.head = s.head) (htail : s'.tail = s.tail) (hmutex : s'.mutex = s.mutex)
    (htasks : s'.tasks = s.tasks) : Core rs s' v L := by
  refine ⟨?_, ?_, ?_, h.known, ?_⟩
  · rw [hlock, hhead, htail]
    exact h.sections
  · rw [hmutex]
    exact h.mutex
  · rw [htasks, hhead]
    exact h.memory
  · rw [htasks]
    exact h.history

/-- What the thread in a section knows of the list. -/
theorem Core.holds (h : Core rs s v L) {sec : Section} (hsec : (v t).sec = sec)
    (hinside : sec.isInside = true) : sec.Holds s.head s.tail L := by
  subst hsec
  exact h.sections.holds hinside

/-- What a thread knows, when the view of one is updated. -/
theorem known_update (h : ∀ t a, (v t).taken = .block a → (v t).held = some a)
    (hx : ∀ a, x.taken = .block a → x.held = some a) :
    ∀ t' a, (update v t x t').taken = .block a → (update v t x t').held = some a := by
  intro t' a
  by_cases heq : t' = t
  · subst heq
    rw [update_self]
    exact hx a
  · rw [update_of_ne heq]
    exact h t' a

section Update

variable {x : View τ}

/-- A thread goes on, and stays where it is in its section. -/
theorem sections_update {lock : Bool} {head : Nat} {tail : Option Nat}
    (h : Sections lock head tail L (fun t => (v t).sec)) (hx : x.sec = (v t).sec) :
    Sections lock head tail L (fun t' => (update v t x t').sec) := by
  rw [part_update_eq View.sec hx]
  exact h

/-- A thread goes on, and holds the mutex as before. -/
theorem heldBy_update {holder : Option Thread} (h : HeldBy holder (fun t => (v t).holds))
    (hx : x.holds = (v t).holds) : HeldBy holder (fun t' => (update v t x t').holds) := by
  rw [part_update_eq View.holds hx]
  exact h

/-- A thread goes on, and is at the same task. -/
theorem history_update {Q : List (τ × Nat)} (h : History rs Q (fun t => (v t).taken.jobs tasks))
    (hx : x.taken.jobs tasks = (v t).taken.jobs tasks) :
    History rs Q (fun t' => (update v t x t').taken.jobs tasks) := by
  rw [part_update_eq (fun x => x.taken.jobs tasks) hx]
  exact h

end Update

/-- A thread changes where it is in its section, and `tail`; or it enters or leaves one. -/
theorem Core.setSection (h : Core rs s v L) {sec : Section} {lock : Bool} {tail : Option Nat}
    (hsections : Sections lock s.head tail L (update (fun t => (v t).sec) t sec)) :
    Core rs ((s.setLock lock).setTail tail) (update v t ((v t).setSec sec)) L where
  sections := by
    rw [part_update]
    exact hsections
  mutex := heldBy_update h.mutex (by rfl)
  memory := h.memory.keep rfl fun _ hb => hb
  known := known_update h.known (h.known t)
  history := history_update h.history (by rfl)

theorem Core.spinlockLock (h : Core rs s v L) (hlock : s.lock = false) (t : Thread) :
    Core rs (s.setLock true) (update v t ((v t).setSec .inside)) L := by
  have hsections := h.sections
  rw [hlock] at hsections
  exact h.setSection (hsections.enter t)

theorem Core.spinlockUnlock (h : Core rs s v L) (ht : (v t).sec = .inside) :
    Core rs (s.setLock false) (update v t ((v t).setSec .outside)) L :=
  h.setSection (h.sections.leave ht)

/-- A thread goes on in its section. -/
theorem Core.goSection (h : Core rs s v L) (ht : (v t).sec.isInside = true) (sec : Section)
    {tail : Option Nat} (hsec : sec.isInside = true) (hholds : sec.Holds s.head tail L) :
    Core rs (s.setTail tail) (update v t ((v t).setSec sec)) L :=
  h.setSection (h.sections.go ht hsec hholds)

theorem Core.setMutex (h : Core rs s v L) {holder : Option Thread} {b : Bool}
    (hmutex : HeldBy holder (update (fun t => (v t).holds) t b)) :
    Core rs (s.setMutex holder) (update v t ((v t).setHolds b)) L where
  sections := sections_update h.sections (by rfl)
  mutex := by
    rw [part_update]
    exact hmutex
  memory := h.memory.keep rfl fun _ hb => hb
  known := known_update h.known (h.known t)
  history := history_update h.history (by rfl)

theorem Core.lockMutex (h : Core rs s v L) (hmutex : s.mutex = none) (t : Thread) :
    Core rs (s.setMutex (some t)) (update v t ((v t).setHolds true)) L := by
  have hheld := h.mutex
  rw [hmutex] at hheld
  exact h.setMutex (hheld.take t)

theorem Core.unlockMutex (h : Core rs s v L) (ht : (v t).holds = true) :
    Core rs (s.setMutex none) (update v t ((v t).setHolds false)) L := by
  have hheld := h.mutex
  rw [(h.mutex t).mp ht] at hheld
  exact h.setMutex hheld.drop

/-! ## Blocks -/

theorem jobs_congr {tasks' : Nat → Option (Task τ)} {taken : Taken τ}
    (h : ∀ a, taken = .block a → jobAt tasks' a = jobAt tasks a) :
    taken.jobs tasks' = taken.jobs tasks := by
  cases taken with
  | none => rfl
  | block a => rw [Taken.jobs, Taken.jobs, h a rfl]
  | read func arg => rfl

theorem jobAt_update_of_ne {a' : Nat}
    (hne : a' ≠ a) : jobAt (update tasks a b) a' = jobAt tasks a' := by
  rw [jobAt, update_of_ne hne]
  rfl

/-- A block that is not in the list is changed. -/
theorem filterMap_update (ha : a ∉ L) :
    L.filterMap (jobAt (update tasks a b)) = L.filterMap (jobAt tasks) :=
  List.filterMap_congr fun _ ha' => jobAt_update_of_ne fun heq => ha (heq ▸ ha')

/-- The tasks that threads are at, when a block is changed that no other thread has. -/
theorem jobs_update (h : Core rs s v L) (hothers : ∀ t', t' ≠ t → (v t').held ≠ some a) :
    (fun t' => (update v t x t').taken.jobs (update s.tasks a b)) =
      update (fun t' => (v t').taken.jobs s.tasks) t (x.taken.jobs (update s.tasks a b)) := by
  funext t'
  by_cases heq : t' = t
  · subst heq
    rw [update_self, update_self]
  · rw [update_of_ne heq, update_of_ne heq]
    refine jobs_congr fun a' ha' => jobAt_update_of_ne ?_
    rintro rfl
    exact hothers t' heq (h.known t' a' ha')

/-- **The history, when a block is changed** that is not in the list and that no other thread has,
and the thread is at the same task. -/
theorem Core.history_write (h : Core rs s v L) (hnotMem : a ∉ L)
    (hothers : ∀ t', t' ≠ t → (v t').held ≠ some a)
    (hx : x.taken.jobs (update s.tasks a b) = (v t).taken.jobs s.tasks) :
    History rs (L.filterMap (jobAt (update s.tasks a b)))
      (fun t' => (update v t x t').taken.jobs (update s.tasks a b)) := by
  have heq : update (fun t' => (v t').taken.jobs s.tasks) t ((v t).taken.jobs s.tasks) =
      fun t' => (v t').taken.jobs s.tasks := update_eq_self t _
  rw [filterMap_update hnotMem, jobs_update h hothers, hx, heq]
  exact h.history

theorem Core.malloc (h : Core rs s v L) (hview : v t = .idle) (ha : a ≠ 0)
    (hfree : s.tasks a = none) (b : Task τ) :
    Core rs (s.setTask a (some b)) (update v t ((v t).setHeld (some a) fun _ => True)) L := by
  have hheld : (v t).held = none := by rw [hview]; rfl
  have hnotMem : a ∉ L := by
    intro ha'
    obtain ⟨b', hb', -⟩ := h.memory.exists_queued ha'
    rw [hfree] at hb'
    cases hb'
  have hothers : ∀ t', t' ≠ t → (v t').held ≠ some a := by
    intro t' _ ht'
    obtain ⟨b', hb', -⟩ := h.memory.exists_block ht'
    rw [hfree] at hb'
    cases hb'
  constructor
  · exact sections_update h.sections (by rfl)
  · exact heldBy_update h.mutex (by rfl)
  · exact h.memory.malloc ha hnotMem hothers hfree hheld rfl trivial
  · refine known_update h.known fun a' ha' => ?_
    rw [hview] at ha'
    cases ha'
  · refine h.history_write hnotMem hothers ?_
    rw [hview]
    rfl

/-- A thread changes the block it has, when its task is not in it. -/
theorem Core.setOwn (h : Core rs s v L) (hold : (v t).held = some a)
    (htaken : ∀ a', (v t).taken ≠ .block a')
    (hsec : x.sec = (v t).sec) (hholds : x.holds = (v t).holds) (hx : x.taken = (v t).taken)
    (hmemory : Memory (update s.tasks a b) s.head L (update v t x)) :
    Core rs (s.setTask a b) (update v t x) L := by
  refine ⟨sections_update h.sections hsec, heldBy_update h.mutex hholds, hmemory, ?_, ?_⟩
  · refine known_update h.known fun a' ha' => ?_
    rw [hx] at ha'
    exact absurd ha' (htaken a')
  · refine h.history_write (h.memory.owned.apart t a hold) (h.memory.held_ne hold) ?_
    rw [hx]
    exact jobs_congr fun a' ha' => absurd ha' (htaken a')

/-- A thread writes to the block it has, which is not a task that was taken. -/
theorem Core.write (h : Core rs s v L) (hold : (v t).held = some a) (htaken : (v t).taken = .none)
    {b : Task τ} {P : Task τ → Prop} (hb : P b) :
    Core rs (s.setTask a (some b)) (update v t ((v t).setHeld (some a) P)) L :=
  h.setOwn hold (by simp [htaken]) rfl rfl rfl (h.memory.write hold rfl hb)

/-- A thread frees the block it has, when it has read the task in it. -/
theorem Core.free (h : Core rs s v L) (hold : (v t).held = some a)
    (htaken : (v t).taken = .read func arg) :
    Core rs (s.setTask a none) (update v t ((v t).setHeld none fun _ => True)) L :=
  h.setOwn hold (by simp [htaken]) rfl rfl rfl (h.memory.free hold rfl)

/-- The task in the block of a thread that has taken it. -/
theorem Core.exists_job (h : Core rs s v L) (hview : v t = .full a) :
    ∃ b job, s.tasks a = some b ∧ b.job = some job ∧ jobAt s.tasks a = some job := by
  obtain ⟨b, hb, hfull⟩ := h.memory.exists_block (show (v t).held = some a by rw [hview]; rfl)
  rw [hview] at hfull
  obtain ⟨job, hjob⟩ := Option.isSome_iff_exists.mp hfull.2
  refine ⟨b, job, hb, hjob, ?_⟩
  rw [jobAt, hb]
  exact hjob

/-- A thread reads the task in its block. -/
theorem Core.read (h : Core rs s v L) {job : τ × Nat} (htaken : (v t).taken = .block a)
    (hjob : jobAt s.tasks a = some job) :
    Core rs s (update v t ((v t).setTaken (.read job.1 job.2))) L := by
  constructor
  · exact sections_update h.sections (by rfl)
  · exact heldBy_update h.mutex (by rfl)
  · exact h.memory.keep rfl fun _ hb => hb
  · exact known_update h.known fun a' ha' => (by cases ha')
  · refine history_update h.history ?_
    show [(job.1, job.2)] = (v t).taken.jobs s.tasks
    rw [htaken, Taken.jobs, hjob]
    rfl

/-- The task of a thread has been called. -/
theorem Core.called (h : Core rs s v L) (htaken : (v t).taken = .read func arg) :
    Core (rs ++ [some (.called t func arg)]) s (update v t ((v t).setTaken .none)) L := by
  constructor
  · exact sections_update h.sections (by rfl)
  · exact heldBy_update h.mutex (by rfl)
  · exact h.memory.keep rfl fun _ hb => hb
  · exact known_update h.known fun a' ha' => (by cases ha')
  · rw [part_update (fun x => x.taken.jobs s.tasks)]
    have hJ : (v t).taken.jobs s.tasks = [(func, arg)] := by rw [htaken]; rfl
    exact h.history.end hJ rfl rfl rfl

/-- A thread drops its task. -/
theorem Core.drop (h : Core rs s v L) (hold : (v t).held = some a) (htaken : (v t).taken = .block a)
    {job : τ × Nat} (hjob : jobAt s.tasks a = some job) :
    Core (rs ++ [some (.dropped t (some job))]) (s.setTask a none)
      (update v t (((v t).setTaken .none).setHeld none fun _ => True)) L := by
  constructor
  · exact sections_update h.sections (by rfl)
  · exact heldBy_update h.mutex (by rfl)
  · exact h.memory.free hold rfl
  · exact known_update h.known fun a' ha' => (by cases ha')
  · show History _ (L.filterMap (jobAt (update s.tasks a none))) fun t' =>
      (update v t (((v t).setTaken .none).setHeld none fun _ => True) t').taken.jobs
        (update s.tasks a none)
    rw [filterMap_update (h.memory.owned.apart t a hold), jobs_update h (h.memory.held_ne hold)]
    have hJ : (v t).taken.jobs s.tasks = [job] := by
      rw [htaken, Taken.jobs, hjob]
      rfl
    exact h.history.end hJ rfl rfl rfl

/-! ## The list -/

/-- The first task is taken. -/
theorem Core.pop (h : Core rs s v L) (hview : v t = View.idle.setSec (.found a)) {b : Task τ}
    (hb : s.tasks a = some b) {next : Nat} (hnext : b.next = some next) {job : τ × Nat}
    (hjob : b.job = some job) :
    ∃ M, L = a :: M ∧ Core (rs ++ [some (.took t (some job))]) (s.setHead next)
      (update v t ((View.full a).setSec (.popped a))) M := by
  have hsec : (v t).sec = .found a := by rw [hview]; rfl
  have hinside : (v t).sec.isInside = true := by rw [hsec]; rfl
  have hheld : (v t).held = none := by rw [hview]; rfl
  obtain ⟨htail, rfl, hne⟩ := h.holds hsec rfl
  obtain ⟨M, rfl⟩ := h.memory.eq_cons hne
  have hnextAt : nextAt s.tasks s.head = next := by
    rw [nextAt, hb]
    show b.next.getD 0 = next
    rw [hnext]
    rfl
  have hjobAt : jobAt s.tasks s.head = some job := by
    rw [jobAt, hb]
    exact hjob
  refine ⟨M, rfl, ?_⟩
  constructor
  · rw [part_update View.sec]
    exact h.sections.go hinside rfl htail
  · exact heldBy_update h.mutex (by rw [hview]; rfl)
  · have hmemory := h.memory.pop (x := (View.full s.head).setSec (.popped s.head)) hheld rfl rfl
    rw [hnextAt] at hmemory
    exact hmemory
  · exact known_update h.known fun a' ha' => (by cases ha'; rfl)
  · show History _ (M.filterMap (jobAt s.tasks)) fun t' =>
      (update v t ((View.full s.head).setSec (.popped s.head)) t').taken.jobs s.tasks
    rw [part_update (fun x => x.taken.jobs s.tasks)]
    have hhistory := h.history
    rw [List.filterMap_cons_some hjobAt] at hhistory
    have hJ : (v t).taken.jobs s.tasks = [] := by rw [hview]; rfl
    have hJ' : ((View.full s.head).setSec (.popped s.head)).taken.jobs s.tasks = [job] := by
      show (jobAt s.tasks s.head).toList = [job]
      rw [hjobAt]
      rfl
    rw [hJ']
    exact hhistory.take hJ

/-- The views behind the link of a task. -/
theorem Core.linked_jobs (h : Core rs s v L)
    (hjobs : ∀ a, jobAt tasks a = jobAt s.tasks a) (hx : x.taken = (v t).taken)
    (func : τ) (arg : Nat) (ha : jobAt s.tasks a = some (func, arg)) :
    History (rs ++ [some (.linked t func arg)]) ((L ++ [a]).filterMap (jobAt tasks))
      (fun t' => (update v t x t').taken.jobs tasks) := by
  have hjobs' : jobAt tasks = jobAt s.tasks := funext hjobs
  have hJ : (fun t' => (update v t x t').taken.jobs tasks)
      = fun t' => (v t').taken.jobs s.tasks := by
    funext t'
    rw [jobs_congr fun a' _ => hjobs a']
    by_cases heq : t' = t
    · subst heq
      rw [update_self, hx]
    · rw [update_of_ne heq]
  rw [hJ, hjobs', List.filterMap_append, List.filterMap_cons_some ha]
  exact h.history.link t func arg

/-- A thread that is about to put its task in the list. -/
theorem Core.last_block (h : Core rs s v L)
    (hview : v t = (View.idle.setHeld (some a) (Task.Last func arg)).setSec .inside) :
    (v t).sec.isInside = true ∧ (v t).held = some a ∧ s.tail = L.getLast? ∧
      ∃ b, s.tasks a = some b ∧ b.Full ∧ b.next = some 0 ∧ jobAt s.tasks a = some (func, arg) := by
  have hsec : (v t).sec = .inside := by rw [hview]; rfl
  have hheld : (v t).held = some a := by rw [hview]; rfl
  obtain ⟨b, hb, hexpects⟩ := h.memory.exists_block hheld
  rw [hview] at hexpects
  obtain ⟨hjob, hnext⟩ : Task.Last func arg b := hexpects
  refine ⟨by rw [hsec]; rfl, hheld, h.holds hsec rfl, b, hb,
    ⟨by rw [hnext]; rfl, by rw [hjob]; rfl⟩, hnext, ?_⟩
  rw [jobAt, hb]
  exact hjob

/-- A task is put in the list, when it is empty. -/
theorem Core.linkFirst (h : Core rs s v L)
    (hview : v t = (View.idle.setHeld (some a) (Task.Last func arg)).setSec .inside)
    (htail : s.tail = none) :
    Core (rs ++ [some (.linked t func arg)]) (s.setHead a)
      (update v t (View.idle.setSec (.linked a))) (L ++ [a]) := by
  obtain ⟨hinside, hheld, hlast, b, hb, hfull, hnext, hjobAt⟩ := h.last_block hview
  obtain rfl : L = [] := List.getLast?_eq_none_iff.mp (hlast.symm.trans htail)
  constructor
  · rw [part_update View.sec]
    exact h.sections.go hinside rfl ⟨[], rfl, htail⟩
  · exact heldBy_update h.mutex (by rw [hview]; rfl)
  · exact h.memory.linkFirst hheld hb hfull hnext rfl
  · exact known_update h.known fun a' ha' => (by cases ha')
  · exact h.linked_jobs (fun _ => rfl) (by rw [hview]; rfl) func arg hjobAt

/-- A task is put in the list, behind the last one. -/
theorem Core.linkLast (h : Core rs s v L)
    (hview : v t = (View.idle.setHeld (some a) (Task.Last func arg)).setSec .inside) {last : Nat}
    (htail : s.tail = some last) :
    ∃ c, s.tasks last = some c ∧
      Core (rs ++ [some (.linked t func arg)]) (s.setTask last (some { c with next := some a }))
        (update v t (View.idle.setSec (.linked a))) (L ++ [a]) := by
  obtain ⟨hinside, hheld, hlast, b, hb, hfull, hnext, hjobAt⟩ := h.last_block hview
  obtain ⟨M, rfl⟩ := List.getLast?_eq_some_iff.mp (hlast.symm.trans htail)
  obtain ⟨c, hc, -⟩ :=
    h.memory.exists_queued (List.mem_append_right M (List.mem_singleton_self last))
  -- the write changes the link of the block, not its task
  have hjobs : ∀ a',
      jobAt (update s.tasks last (some { c with next := some a })) a' = jobAt s.tasks a' := by
    intro a'
    by_cases heq : a' = last
    · subst heq
      rw [jobAt, jobAt, update_self, hc]
      rfl
    · exact jobAt_update_of_ne heq
  refine ⟨c, hc, ?_⟩
  constructor
  · rw [part_update View.sec]
    exact h.sections.go hinside rfl ⟨M ++ [last], rfl, hlast⟩
  · exact heldBy_update h.mutex (by rw [hview]; rfl)
  · exact h.memory.linkLast hheld hb hfull hnext hc rfl
  · exact known_update h.known fun a' ha' => (by cases ha')
  · exact h.linked_jobs hjobs (by rw [hview]; rfl) func arg hjobAt

end Core

end KvStore.Thrdpool
