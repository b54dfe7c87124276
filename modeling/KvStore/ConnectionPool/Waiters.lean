import KvStore.ConnectionPool.Accounting
import KvStore.Lib.Ownership

set_option autoImplicit false

/-! # Waiting clients of the connection pool

A client that finds the queue empty sleeps in `cv.wait_for`. The producer and the clients call
`notify_all` after they have changed the queue, but the deleter does not: a connection that is given
back while a client sleeps wakes nobody, and the producer, which would have notified, now waits
itself (`given_back_unheard`). No client is stranded in a run in which connections are given back
only while no client sleeps (`not_stranded_iff_unwatched`). -/

namespace KvStore.ConnectionPool

open Function KvStore.Lib

/-- Some thread has changed the queue, and is about to notify. -/
def Notifier (s : Sys) : Prop := s.producer = .notifying ∨ ∃ j, s.client j = .notifying

/-- **A stranded client**: there is an idle connection, the client sleeps, and no thread is about to
notify it. -/
def Stranded (s : Sys) : Prop :=
  s.pool.connectionQue ≠ [] ∧ (∃ i, s.client i = .waiting) ∧ ¬Notifier s

/-- A connection is given back while no client sleeps. -/
def Unwatched (s : Sys) : Step → Prop
  | .giveBack _ _ _ => ∀ i, s.client i ≠ .waiting
  | _ => True

/-! ## The mutex -/

/-- Which threads are about to notify; the producer is `none`. -/
def Sys.notifies (s : Sys) : Option Nat → Bool
  | none => decide (s.producer = .notifying)
  | some i => decide (s.client i = .notifying)

/-- The mutex is held, between two steps, by the one thread that is about to notify. -/
def Exclusive (s : Sys) : Prop := ∃ holder, s.locked = holder.isSome ∧ HeldBy holder s.notifies

section Mutex

variable {cfg : Config} {s s' : Sys} {t : Option Nat} {b : Bool}

theorem notifies_notifyAll (s : Sys) : s.notifyAll.notifies = s.notifies := by
  funext t
  cases t with
  | none =>
      show decide ((if s.producer = .waiting then .testing else s.producer) = .notifying) = _
      split_ifs with h
      · simp [Sys.notifies, h]
      · rfl
  | some i =>
      show decide ((if s.client i = .waiting then .woken else s.client i) = .notifying) = _
      split_ifs with h
      · simp [Sys.notifies, h]
      · rfl

theorem Exclusive.free (h : Exclusive s) (hfree : s.locked = false) : HeldBy none s.notifies := by
  obtain ⟨holder, hlocked, hheld⟩ := h
  cases holder with
  | none => exact hheld
  | some t => cases hfree.symm.trans hlocked

theorem Exclusive.not_notifier (h : Exclusive s) (hfree : s.locked = false) : ¬Notifier s := by
  rintro (hproducer | ⟨j, hj⟩)
  · cases (h.free hfree none).mp (decide_eq_true hproducer)
  · cases (h.free hfree (some j)).mp (decide_eq_true hj)

/-- The producer goes on. -/
theorem notifies_of_client (h : s'.client = s.client) :
    s'.notifies = update s.notifies none (decide (s'.producer = .notifying)) := by
  refine eq_update_iff.mpr ⟨rfl, fun t ht => ?_⟩
  cases t with
  | none => exact absurd rfl ht
  | some i => rw [Sys.notifies, h]; rfl

theorem notifies_setClient (s : Sys) (i : Nat) (pc : ClientPc) :
    (s.setClient i pc).notifies = update s.notifies (some i) (decide (pc = .notifying)) := by
  refine eq_update_iff.mpr ⟨by simp [Sys.notifies, Sys.setClient], fun t ht => ?_⟩
  cases t with
  | none => rfl
  | some j =>
      have hj : j ≠ i := fun hj => ht (congrArg some hj)
      simp [Sys.notifies, Sys.setClient, update_of_ne hj]

/-- The thread `t` goes on: it takes the mutex, it gives it back, or neither. -/
theorem Exclusive.move (h : Exclusive s) (hnotifies : s'.notifies = update s.notifies t b)
    (hmove : b = s.notifies t ∧ s'.locked = s.locked ∨
      b = true ∧ s.locked = false ∧ s'.locked = true ∨
      b = false ∧ s.notifies t = true ∧ s'.locked = false) : Exclusive s' := by
  rw [Exclusive, hnotifies]
  rcases hmove with ⟨rfl, hlocked⟩ | ⟨rfl, hfree, hlocked⟩ | ⟨rfl, ht, hlocked⟩
  · rw [update_eq_self, hlocked]
    exact h
  · exact ⟨some t, hlocked, (h.free hfree).take t⟩
  · obtain ⟨holder, -, hheld⟩ := h
    obtain rfl := (hheld t).mp ht
    exact ⟨none, hlocked, hheld.drop⟩

/-- **One step** keeps the mutex with one thread. -/
theorem Exclusive.step (h : Exclusive s) {o : Step} (hrun : (step cfg o).run s = .ok ((), s')) :
    Exclusive s' := by
  cases o with
  | produce o =>
      obtain ⟨⟨hfree, htesting⟩, hrun⟩ := run_await_ok.mp hrun
      have hclient : s'.client = s.client ∧ (s'.producer = .waiting ∧ s'.locked = s.locked ∨
          s'.producer = .notifying ∧ s'.locked = true) := by
        rw [produceConnectionTask, run_get_bind] at hrun
        split_ifs at hrun
        · cases hrun
          exact ⟨rfl, Or.inl ⟨rfl, rfl⟩⟩
        · obtain ⟨u, p, -, hmodify⟩ := run_zoom_bind_ok.mp hrun
          cases hmodify
          exact ⟨rfl, Or.inr ⟨rfl, rfl⟩⟩
        · cases hrun
          exact ⟨rfl, Or.inr ⟨rfl, rfl⟩⟩
      refine h.move (notifies_of_client hclient.1) ?_
      rcases hclient.2 with ⟨hpc, hlocked⟩ | ⟨hpc, hlocked⟩
      · exact Or.inl ⟨by simp [Sys.notifies, hpc, htesting], hlocked⟩
      · exact Or.inr (Or.inl ⟨by simp [hpc], hfree, hlocked⟩)
  | produceNotify =>
      obtain ⟨hpc, rfl⟩ := run_act_ok.mp hrun
      refine h.move (t := none) (b := false) ?_ (Or.inr (Or.inr ⟨rfl, decide_eq_true hpc, rfl⟩))
      -- `notify_all` wakes threads, and these do not notify
      rw [show s.notifies = s.notifyAll.notifies from (notifies_notifyAll s).symm]
      exact notifies_of_client rfl
  | produceSpurious =>
      obtain ⟨hpc, rfl⟩ := run_act_ok.mp hrun
      exact h.move (notifies_of_client rfl) (Or.inl ⟨by simp [Sys.notifies, hpc], rfl⟩)
  | get i =>
      obtain ⟨⟨hfree, -, hpc⟩, hrun⟩ := run_await_ok.mp hrun
      have hno : s.notifies (some i) = false := decide_eq_false hpc
      rw [getConnection, run_get_bind] at hrun
      split_ifs at hrun
      · cases hrun
        exact h.move (notifies_setClient s i .out) (Or.inl ⟨hno.symm, rfl⟩)
      · cases hrun
        exact h.move (notifies_setClient s i .waiting) (Or.inl ⟨hno.symm, rfl⟩)
      · cases hrun
        exact h.move (notifies_setClient s i .notifying) (Or.inr (Or.inl ⟨rfl, hfree, rfl⟩))
  | getNotify i =>
      obtain ⟨hpc, rfl⟩ := run_act_ok.mp hrun
      refine h.move (t := some i) (b := false) ?_ (Or.inr (Or.inr ⟨rfl, decide_eq_true hpc, rfl⟩))
      rw [show s.notifies = s.notifyAll.notifies from (notifies_notifyAll s).symm]
      exact notifies_setClient s.notifyAll i .out
  | spurious i =>
      obtain ⟨hpc, rfl⟩ := run_act_ok.mp hrun
      exact h.move (notifies_setClient s i .woken) (Or.inl ⟨by simp [Sys.notifies, hpc], rfl⟩)
  | timeout i =>
      obtain ⟨hpc, rfl⟩ := run_act_ok.mp hrun
      exact h.move (notifies_setClient s i .timedOut) (Or.inl ⟨by simp [Sys.notifies, hpc], rfl⟩)
  | giveBack i conn now =>
      rw [(run_onPool_ok (run_await_ok.mp hrun).2).2]
      exact h
  | scan now =>
      rw [(run_onPool_ok (run_await_ok.mp hrun).2).2]
      exact h

end Mutex

/-! ## The clients -/

/-- What every step keeps: a client that sleeps beside a connection is about to be notified. -/
structure Watched (cfg : Config) (s : Sys) : Prop where
  accounted : Accounted cfg s
  exclusive : Exclusive s
  attended : s.pool.connectionQue ≠ [] → (∃ i, s.client i = .waiting) → Notifier s

section Steps

variable {cfg : Config} {s s' : Sys}

theorem Watched.not_stranded (h : Watched cfg s) : ¬Stranded s :=
  fun hs => hs.2.2 (h.attended hs.1 hs.2.1)

theorem client_notifyAll (s : Sys) (i : Nat) : s.notifyAll.client i ≠ .waiting := by
  show (if s.client i = .waiting then ClientPc.woken else s.client i) ≠ .waiting
  split_ifs with h
  · decide
  · exact h

/-- A client that leaves its sleep: the others stay where they are. -/
theorem Watched.attended_wake (h : Watched cfg s) {i : Nat} {pc : ClientPc}
    (hi : s.client i = .waiting) (hpc : pc ≠ .waiting) (hque : s.pool.connectionQue ≠ [])
    (hwait : ∃ j, (s.setClient i pc).client j = .waiting) : Notifier (s.setClient i pc) := by
  obtain ⟨j, hj⟩ := hwait
  have hne : j ≠ i := by
    rintro rfl
    exact hpc ((update_self ..).symm.trans hj)
  refine (h.attended hque ⟨i, hi⟩).imp_right ?_
  rintro ⟨k, hk⟩
  have hki : k ≠ i := by
    rintro rfl
    rw [hi] at hk
    cases hk
  exact ⟨k, (update_of_ne hki ..).trans hk⟩

theorem Watched.produce (h : Watched cfg s) {o : Attempt} (htesting : s.producer = .testing)
    (hrun : (produceConnectionTask cfg o).run s = .ok ((), s')) :
    s'.pool.connectionQue ≠ [] → (∃ i, s'.client i = .waiting) → Notifier s' := by
  rw [produceConnectionTask, run_get_bind] at hrun
  split_ifs at hrun with hque hcount
  · cases hrun
    intro _ hwait
    -- the producer was not the notifier
    refine Or.inr ((h.attended hque hwait).resolve_left ?_)
    rw [htesting]
    decide
  · obtain ⟨u, p, -, hmodify⟩ := run_zoom_bind_ok.mp hrun
    cases hmodify
    exact fun _ _ => Or.inl rfl
  · cases hrun
    exact fun _ _ => Or.inl rfl

theorem Watched.getConnection {i : Nat} (hrun : (getConnection i).run s = .ok ((), s')) :
    s'.pool.connectionQue ≠ [] → (∃ i, s'.client i = .waiting) → Notifier s' := by
  rw [ConnectionPool.getConnection, run_get_bind] at hrun
  split_ifs at hrun with hque htimedOut
  · cases hrun
    exact fun hne => absurd hque hne
  · cases hrun
    exact fun hne => absurd hque hne
  · cases hrun
    exact fun _ _ => Or.inr ⟨i, update_self ..⟩

/-- A scan leaves no connection in an empty queue. -/
theorem Watched.scan (h : Watched cfg s) {now : Nat → Int} (hsafe : FrontSafe cfg s (.scan now))
    (hrun : (step cfg (.scan now)).run s = .ok ((), s')) :
    s'.pool.connectionQue ≠ [] → (∃ i, s'.client i = .waiting) → Notifier s' := by
  obtain ⟨hfree, hrun⟩ := run_await_ok.mp hrun
  have hloop := (h.accounted.partition.scan_loop cfg now (s.pool.connectionQue.length + 1) 0 s.pool
    (Nat.lt_succ_self _)).1 (hsafe hfree)
  obtain ⟨u, p, hscan, hkeeps⟩ := hloop
  have hpool : (onPool (ConnectionPool.scan cfg now)).run s = .ok ((), { s with pool := p }) := by
    rw [onPool, run_zoom, ConnectionPool.scan, run_get_bind, hscan]
    rfl
  rw [hpool] at hrun
  cases hrun
  intro hne hwait
  refine h.attended (fun hnil => hne ?_) hwait
  exact List.suffix_nil.mp (hnil ▸ hkeeps.2.2)

/-- **One step** strands no client, when nothing is given back beside a client that sleeps. -/
theorem Watched.step (h : Watched cfg s) {o : Step} (hcond : Unwatched s o)
    (hrun : (step cfg o).run s = .ok ((), s')) : Watched cfg s' := by
  have hsafe : FrontSafe cfg s o := by
    by_contra hbare
    rw [h.accounted.step_faults o hbare] at hrun
    cases hrun
  refine ⟨((h.accounted.takes_step o hsafe).of_run hrun).1, h.exclusive.step hrun, ?_⟩
  cases o with
  | produce o =>
      obtain ⟨hguard, hrun⟩ := run_await_ok.mp hrun
      exact h.produce hguard.2 hrun
  | produceNotify =>
      obtain ⟨-, rfl⟩ := run_act_ok.mp hrun
      rintro _ ⟨i, hi⟩
      exact absurd hi (client_notifyAll s i)
  | produceSpurious =>
      obtain ⟨hwaiting, rfl⟩ := run_act_ok.mp hrun
      intro hque hwait
      refine Or.inr ((h.attended hque hwait).resolve_left ?_)
      rw [hwaiting]
      decide
  | get i => exact Watched.getConnection (run_await_ok.mp hrun).2
  | getNotify i =>
      obtain ⟨-, rfl⟩ := run_act_ok.mp hrun
      rintro _ ⟨j, hj⟩
      change update s.notifyAll.client i .out j = .waiting at hj
      by_cases hji : j = i
      · rw [hji, update_self] at hj
        cases hj
      · rw [update_of_ne hji] at hj
        exact absurd hj (client_notifyAll s j)
  | spurious i =>
      obtain ⟨hi, rfl⟩ := run_act_ok.mp hrun
      exact h.attended_wake hi (by decide)
  | timeout i =>
      obtain ⟨hi, rfl⟩ := run_act_ok.mp hrun
      exact h.attended_wake hi (by decide)
  | giveBack i conn now =>
      obtain ⟨-, hrun⟩ := run_await_ok.mp hrun
      rintro _ ⟨j, hj⟩
      rw [(run_onPool_ok hrun).2] at hj
      exact absurd hj (hcond j)
  | scan now => exact h.scan hsafe hrun

/-- A connection that is given back beside a client that sleeps strands it. -/
theorem Watched.strands (h : Watched cfg s) {i j conn : Nat} {now : Int}
    (hj : s.client j = .waiting)
    (hrun : (ConnectionPool.step cfg (.giveBack i conn now)).run s = .ok ((), s')) :
    Stranded s' := by
  obtain ⟨⟨hfree, hlent⟩, hrun⟩ := run_await_ok.mp hrun
  obtain ⟨hback, heq⟩ := run_onPool_ok hrun
  have hpool := (ok_of_run hback _).mp (h.accounted.partition.ok_giveBack_eq hlent now)
  refine ⟨?_, ⟨j, by rwa [heq]⟩, ?_⟩
  · rw [hpool]
    exact List.append_ne_nil_of_right_ne_nil _ (List.cons_ne_nil conn [])
  · rw [heq]
    exact h.exclusive.not_notifier hfree

/-- What a step has to meet: the condition is exact. -/
theorem Watched.unwatched_iff (h : Watched cfg s) {o : Step}
    (hrun : (ConnectionPool.step cfg o).run s = .ok ((), s')) : Unwatched s o ↔ ¬Stranded s' := by
  refine ⟨fun hcond => (h.step hcond hrun).not_stranded, fun hnot => ?_⟩
  cases o with
  | giveBack i conn now => exact fun j hj => hnot (h.strands hj hrun)
  | _ => trivial

end Steps

/-- **When a client is stranded**: no state of a run strands a client exactly if nothing is given
back while a client sleeps. -/
theorem not_stranded_iff_unwatched (cfg : Config) (attempts : Nat → Attempt) (ops : List Step)
    (rs : List Unit) (s : Sys) (hrun : (session cfg attempts ops).run start = .ok (rs, s)) :
    (∀ pre rs' s', pre <+: ops → (session cfg attempts pre).run start = .ok (rs', s') →
      ¬Stranded s') ↔ SessionSteps cfg Unwatched attempts ops := by
  obtain ⟨p, hconstruct, hsteps⟩ := session_ok hrun
  have hp := (takes_construct cfg attempts).of_run hconstruct
  have hstart : Watched cfg { start with pool := p } := by
    refine ⟨⟨hp.1, hp.2⟩, ⟨none, rfl, fun t => ?_⟩, ?_⟩
    · cases t <;> simp [Sys.notifies, start]
    · rintro _ ⟨i, hi⟩
      cases hi
  have hiff := allSteps_iff_never (fun o s r s' h ho => h.unwatched_iff ho)
    (fun o s r s' h hP ho => h.step hP ho) hstart hstart.not_stranded hsteps
  -- every prefix starts from the pool `p` that the constructor leaves
  constructor
  · intro hnever p' hp'
    cases hconstruct.symm.trans hp'
    exact hiff.mpr fun pre rs' s' hpre hrun' =>
      hnever pre rs' s' hpre (run_zoom_bind_ok.mpr ⟨(), p, hconstruct, hrun'⟩)
  · intro hall pre rs' s' hpre hrun'
    obtain ⟨p', hp', hrun'⟩ := session_ok hrun'
    cases hconstruct.symm.trans hp'
    exact hiff.mp (hall p hconstruct) pre rs' s' hpre hrun'

/-- The client `1` sleeps until the producer has made a connection, and gives it back. -/
def unwatchedOps : List Step :=
  [.get 1, .produce ⟨1, true, 0⟩, .produceNotify, .get 1, .getNotify 1, .giveBack 1 1 5]

theorem not_stranded_unwatchedOps :
    ∃ rs s, (session ⟨0, 1, 60⟩ sampleAttempts unwatchedOps).run start = .ok (rs, s) ∧
      s.pool.connectionQue = [1] ∧ SessionSteps ⟨0, 1, 60⟩ Unwatched sampleAttempts unwatchedOps ∧
      ¬Stranded s := by
  have hunwatched : SessionSteps ⟨0, 1, 60⟩ Unwatched sampleAttempts unwatchedOps := by
    intro p hconstruct
    cases hconstruct
    refine allSteps_cons trivial rfl <| allSteps_cons trivial rfl <| allSteps_cons trivial rfl <|
      allSteps_cons trivial rfl <| allSteps_cons trivial rfl <| allSteps_cons ?_ rfl trivial
    rintro (_ | _ | i) hi <;> cases hi
  exact ⟨_, _, rfl, rfl, hunwatched,
    (not_stranded_iff_unwatched _ _ _ _ _ rfl).mpr hunwatched _ _ _ List.prefix_rfl rfl⟩

/-- The client `0` borrows the only connection, and the client `1` sleeps. -/
def watchedOps : List Step := [.produce ⟨1, true, 0⟩, .produceNotify, .get 0, .getNotify 0, .get 1]

/-- The connection is given back while the client `1` sleeps. -/
theorem given_back_unheard :
    ∃ rs s, (session ⟨0, 1, 60⟩ sampleAttempts (watchedOps ++ [.giveBack 0 1 5])).run start
      = .ok (rs, s) ∧ Stranded s := by
  refine ⟨_, _, rfl, List.cons_ne_nil 1 [], ⟨1, rfl⟩, ?_⟩
  rintro (hproducer | ⟨j, hj⟩)
  · cases hproducer
  · match j with
    | 0 => cases hj
    | 1 => cases hj
    | j + 2 => cases hj

end KvStore.ConnectionPool
