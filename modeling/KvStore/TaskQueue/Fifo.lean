import KvStore.Lib.Links
import KvStore.TaskQueue.Model

set_option autoImplicit false

/-! # The order of the task queue

`Lined q L`: the links lead from `queue->head` through the tasks `L` to `NULL`, and `queue->tail` is
the last of these links. `__add_task` appends its task to `L` and `__pop_task` takes the first one
away, also when the queue gets empty and `tail` is aimed at `head` again (`Lined.addTask`,
`Lined.popTask`). Over any sequence of calls, the tasks come out in the order in which they went in
(`popped_in_order`). -/

namespace KvStore.TaskQueue

open Function KvStore.Lib

/-! ## Sequences of calls -/

/-- A call on the queue. -/
inductive Call where
  | add (task : Nat)
  | pop

/-- One call, with what `__pop_task` has returned. -/
def call : Call → Queue → List Nat × Queue
  | .add task, q => ([], addTask task (clearLink task q))
  | .pop, q => ([(popTask q).1], (popTask q).2)

/-- A sequence of calls, with everything `__pop_task` has returned. -/
def callAll : List Call → Queue → List Nat × Queue
  | [], q => ([], q)
  | c :: cs, q => ((call c q).1 ++ (callAll cs (call c q).2).1, (callAll cs (call c q).2).2)

/-- The tasks that are added by a sequence of calls. -/
def added : List Call → List Nat
  | [] => []
  | .add task :: cs => task :: added cs
  | .pop :: cs => added cs

/-- The tasks among the values that `__pop_task` has returned. -/
def tasks (returned : List Nat) : List Nat := returned.filter (· ≠ 0)

/-! ## The tasks in the queue -/

/-- The tasks `L` are in the queue, in this order, and `queue->tail` is the last link. -/
structure Lined (q : Queue) (L : List Nat) : Prop where
  links : Links q.next q.head L 0
  tail : q.tail = L.getLast?

variable {q : Queue} {L : List Nat}

theorem lined_taskqueueCreate (next : Nat → Nat) : Lined (taskqueueCreate next) [] := ⟨rfl, rfl⟩

theorem Lined.clearLink (h : Lined q L) {task : Nat} (hnew : task ∉ L) :
    Lined (clearLink task q) L where
  links := by
    apply h.links.congr
    intro a ha
    have hne : a ≠ task := fun heq => hnew (heq ▸ ha)
    exact update_of_ne hne 0 q.next
  tail := h.tail

/-- The link of the last task is `NULL`. -/
theorem Lined.next_last (h : Lined q L) {t : Nat} (ht : q.tail = some t) :
    t ∈ L ∧ q.next t = 0 := by
  have hlast : L.getLast? = some t := h.tail ▸ ht
  obtain ⟨M, rfl⟩ := List.getLast?_eq_some_iff.mp hlast
  exact ⟨List.mem_append_right M (List.mem_singleton_self t), h.links.next_last⟩

/-- `__add_task` appends its task, which has been cleared before. -/
theorem Lined.addTask (h : Lined q L) (hnull : 0 ∉ L) {task : Nat} (hnew : task ∉ L)
    (hclear : q.next task = 0) : Lined (addTask task q) (L ++ [task]) := by
  unfold TaskQueue.addTask
  cases htail : q.tail with
  | none =>
      -- `queue->tail` is `&queue->head`: the store goes to `queue->head`
      have hL : L = [] := List.getLast?_eq_none_iff.mp (h.tail ▸ htail)
      subst hL
      exact ⟨⟨rfl, hclear⟩, rfl⟩
  | some t =>
      obtain ⟨hmem, hlast⟩ := h.next_last htail
      have htask : task ≠ t := fun heq => hnew (heq ▸ hmem)
      refine ⟨?_, List.getLast?_concat.symm⟩
      have hlinks := h.links.append_last hnull hmem hlast (b := task)
        (fun c _ => update_apply q.next t task c)
      rw [update_of_ne htask, hclear] at hlinks
      exact hlinks

/-- `__pop_task` returns `NULL` when the queue is empty. -/
theorem Lined.popTask_nil (h : Lined q []) : popTask q = (0, q) := if_pos h.links

/-- `__pop_task` takes the first task away. -/
theorem Lined.popTask_cons {task : Nat} (h : Lined q (task :: L)) (htask : task ≠ 0)
    (hnull : 0 ∉ L) : (popTask q).1 = task ∧ Lined (popTask q).2 L := by
  obtain ⟨hhead, hrest⟩ := h.links
  have hhead0 : q.head ≠ 0 := hhead ▸ htask
  unfold TaskQueue.popTask
  rw [if_neg hhead0]
  cases L with
  | nil =>
      have hnext : q.next q.head = 0 := hhead ▸ hrest
      rw [if_pos hnext]
      exact ⟨hhead, rfl, rfl⟩
  | cons a L =>
      have hnext : q.next q.head ≠ 0 := by
        rw [hhead, hrest.1]
        exact fun ha => hnull (ha ▸ List.mem_cons_self)
      rw [if_neg hnext]
      refine ⟨hhead, ?_, ?_⟩
      · exact hhead ▸ hrest
      · exact h.tail.trans List.getLast?_cons_cons

/-- `__pop_task` returns `NULL` only when the queue is empty. -/
theorem Lined.popTask_eq_zero_iff (h : Lined q L) (hnull : 0 ∉ L) : (popTask q).1 = 0 ↔ L = [] := by
  constructor
  · intro hpop
    cases L with
    | nil => rfl
    | cons task L =>
        have htask : task ≠ 0 := fun h0 => hnull (h0 ▸ List.mem_cons_self)
        have hrest : 0 ∉ L := fun h0 => hnull (List.mem_cons_of_mem task h0)
        exact absurd ((h.popTask_cons htask hrest).1.symm.trans hpop) htask
  · rintro rfl
    rw [h.popTask_nil]

/-! ## Runs -/

/-- The tasks that are in the queue and those that are added leave it, or are still there, in this
order. -/
theorem Lined.callAll (cs : List Call) (h : Lined q L) (hdistinct : (L ++ added cs).Nodup)
    (hnull : 0 ∉ L ++ added cs) :
    ∃ waiting, L ++ added cs = tasks (callAll cs q).1 ++ waiting ∧
    Lined (callAll cs q).2 waiting := by
  induction cs generalizing q L with
  | nil => exact ⟨L, List.append_nil L, h⟩
  | cons c cs ih =>
      cases c with
      | add task =>
          have hassoc : L ++ added (.add task :: cs) = (L ++ [task]) ++ added cs :=
            List.append_cons ..
          rw [hassoc] at hdistinct hnull ⊢
          have hnew : task ∉ L := by
            have := (List.nodup_append.mp hdistinct).1
            rw [List.nodup_append] at this
            exact fun hmem => this.2.2 task hmem task (List.mem_singleton_self task) rfl
          have hL : 0 ∉ L := fun h0 =>
            hnull (List.mem_append_left _ (List.mem_append_left _ h0))
          have hclear : (TaskQueue.clearLink task q).next task = 0 := update_self ..
          exact ih ((h.clearLink hnew).addTask hL hnew hclear) hdistinct hnull
      | pop =>
          cases L with
          | nil =>
              obtain ⟨waiting, hsplit, hlined⟩ := ih h hdistinct hnull
              simp only [TaskQueue.callAll, call, h.popTask_nil, tasks, List.singleton_append]
              exact ⟨waiting, hsplit, hlined⟩
          | cons task L =>
              have htask : task ≠ 0 := fun h0 => hnull (h0 ▸ List.mem_cons_self)
              have hrest : 0 ∉ L ++ added cs := fun h0 => hnull (List.mem_cons_of_mem task h0)
              obtain ⟨hpop, hlined⟩ :=
                h.popTask_cons htask fun h0 => hrest (List.mem_append_left _ h0)
              obtain ⟨waiting, hsplit, hwaiting⟩ := ih hlined (List.nodup_cons.mp hdistinct).2 hrest
              refine ⟨waiting, ?_, hwaiting⟩
              simp only [TaskQueue.callAll, call, hpop, tasks, List.singleton_append,
                List.filter_cons, htask, ne_eq, not_false_eq_true, decide_true, if_true]
              exact congrArg (task :: ·) hsplit

/-- **The task queue is first in, first out.** After any sequence of calls with distinct task
blocks, the tasks that have been popped followed by those that wait are the tasks that were added;
the next `__pop_task` returns `NULL` exactly when none waits; and the links lead from `queue->head`
through the waiting tasks, with `queue->tail` at the link of the last one, or at `queue->head` when
there is none. -/
theorem popped_in_order (next : Nat → Nat) (cs : List Call) (hdistinct : (added cs).Nodup)
    (hnull : 0 ∉ added cs) :
    let returned := (callAll cs (taskqueueCreate next)).1
    let q := (callAll cs (taskqueueCreate next)).2
    ∃ waiting, added cs = tasks returned ++ waiting ∧ ((popTask q).1 = 0 ↔ waiting = []) ∧
      Links q.next q.head waiting 0 ∧ q.tail = waiting.getLast? := by
  obtain ⟨waiting, hsplit, hlined⟩ :=
    (lined_taskqueueCreate next).callAll cs hdistinct hnull
  have hwaiting : 0 ∉ waiting := by
    intro h0
    rw [List.nil_append] at hsplit
    exact hnull (hsplit ▸ List.mem_append_right _ h0)
  exact ⟨waiting, hsplit, hlined.popTask_eq_zero_iff hwaiting, hlined.links, hlined.tail⟩

/-- Two tasks are added, three calls pop, and a third task is added to the queue that is empty
again. -/
theorem popped_in_order_emptied :
    let cs := [.add 8, .add 16, .pop, .pop, .pop, .add 24]
    (added cs).Nodup ∧ 0 ∉ added cs ∧
      let q := (callAll cs (taskqueueCreate fun _ => 5)).2
      ∃ waiting, added cs = tasks [8, 16, 0] ++ waiting ∧ ((popTask q).1 = 0 ↔ waiting = []) ∧
        Links q.next q.head waiting 0 ∧ q.tail = waiting.getLast? :=
  ⟨by decide, by decide, popped_in_order (fun _ => 5) _ (by decide) (by decide)⟩

end KvStore.TaskQueue
