import KvStore.Deadlock.Cycles
import KvStore.Deadlock.Mirror

set_option autoImplicit false

/-! # The detector and the real locks

In the quiet states of an orderly run the graph is the relation "waits for" of the threads
(`Mirror.hasEdge_iff`), and a thread has at most one edge, as it waits for one mutex. In such a
graph what is reached twice lies on a cycle, so that `check_dead_lock` tells exactly whether threads
wait for each other in a circle (`deadlock_iff_circle`). -/

namespace KvStore.Deadlock

open KvStore.Lib

variable {max : Nat} {g : TaskGraph}

/-- The thread `t` is blocked on a mutex of the thread `u`. -/
def WaitsFor (s : Sys) (t u : Nat) : Prop := ∃ lock, Blocked s t lock u

/-! ## The graph that the hooks build -/

/-- Every vertex is a thread. -/
def TaskGraph.OnlyThreads (g : TaskGraph) : Prop := ∀ i < g.num, (g.list i).s.type = .process

/-- **What the hooks keep** of the graph. -/
def Built (max : Nat) (g : TaskGraph) : Prop := Wired max g ∧ g.OnlyThreads

section Reading

variable {P : TaskGraph → Prop}

theorem maintains_searchVertex (x : SourceType) : Maintains P (searchVertex max x) :=
  maintains_of_eq fun _ => (returns_searchVertex x).mono fun _ _ h => h.1

theorem maintains_getVertex (i : Nat) : Maintains P (getVertex max i) :=
  maintains_of_eq fun _ => returns_getVertex.mono fun _ _ h => h.1

theorem maintains_getLock (i : Nat) : Maintains P (getLock max i) :=
  maintains_of_eq fun _ => returns_getLock.mono fun _ _ h => h.1

theorem maintains_searchLock (lock : Nat) : Maintains P (searchLock max lock) :=
  maintains_of_eq fun _ => (returns_searchLock lock).mono fun _ _ h => h.1

theorem maintains_searchEmptyLock : Maintains P (searchEmptyLock max) := by
  refine maintains_get.bind
    fun g => (maintains_forLoop (fun i => ?_) g.lockidx 0).bind fun _ => maintains_pure _
  exact (maintains_getLock i).bind fun _ => maintains_pure _

theorem maintains_verifyEdge (x y : SourceType) : Maintains P (verifyEdge max x y) := by
  refine maintains_get.bind fun g => ?_
  split_ifs
  · exact maintains_pure _
  · refine (maintains_searchVertex x).bind fun idx => ?_
    cases idx with
    | none => exact maintains_pure _
    | some i => exact (maintains_getVertex i).bind fun _ => maintains_pure _

end Reading

theorem maintains_setLock (i : Nat) (e : LockEntry) : Maintains (Built max) (setLock max i e) := by
  intro g h
  refine returns_setLock.mono ?_
  rintro - g' ⟨-, rfl⟩
  exact ⟨⟨h.1.ok, h.1.num_le, h.1.linked⟩, h.2⟩

theorem onlyThreads_addVertex (t : Nat) :
    Maintains TaskGraph.OnlyThreads (addVertex max ⟨t, .process⟩) := by
  refine (maintains_searchVertex _).bind fun idx => ?_
  split_ifs
  · intro g h
    refine returns_get_bind (returns_bind (returns_setVertex.mono ?_))
    rintro - g' ⟨-, rfl⟩
    refine returns_modify fun i hi => ?_
    rcases Nat.lt_succ_iff_lt_or_eq.mp hi with hi | rfl
    · simpa [Function.update_of_ne hi.ne] using h i hi
    · simp
  · exact maintains_pure _

theorem onlyThreads_relink {f : Vertex → List SourceType} (idx : Option Nat) :
    Maintains TaskGraph.OnlyThreads (do
      let v ← vertexAt max idx
      setNextAt max (f v) idx) := by
  cases idx with
  | none => exact (maintains_throw _).bind fun _ => maintains_throw _
  | some i =>
      refine (maintains_getVertex i).bind fun v => ?_
      intro g h
      refine returns_bind (returns_getVertex.mono ?_)
      rintro - g' ⟨rfl, rfl⟩
      refine returns_setVertex.mono ?_
      rintro - g'' ⟨-, rfl⟩ j hj
      exact (congrArg SourceType.type relink_s).trans (h j hj)

theorem built_addVertex (t : Nat) : Maintains (Built max) (addVertex max ⟨t, .process⟩) :=
  Maintains.and (fun _ h => (h.returns_addVertex _).mono fun _ _ h' => h'.1)
    (onlyThreads_addVertex t)

theorem built_addEdge (t u : Nat) :
    Maintains (Built max) (addEdge max ⟨t, .process⟩ ⟨u, .process⟩) := by
  refine Maintains.and (fun g h => h.returns_graphCall (.addEdge _ _)) ?_
  refine (onlyThreads_addVertex t).bind fun _ => (onlyThreads_addVertex u).bind fun _ => ?_
  exact (maintains_searchVertex _).bind fun idx => onlyThreads_relink idx

theorem built_removeEdge (x y : SourceType) : Maintains (Built max) (removeEdge max x y) := by
  refine Maintains.and (fun g h => h.returns_graphCall (.removeEdge x y)) ?_
  refine (maintains_searchVertex x).bind fun i => (maintains_searchVertex y).bind fun j => ?_
  split_ifs
  · exact onlyThreads_relink i
  · exact maintains_pure _

theorem built_lockBefore (t lock : Nat) : Maintains (Built max) (lockBefore max t lock) := by
  refine maintains_get.bind
    fun g => (maintains_forLoop (fun i => ?_) g.lockidx 0).bind fun _ => maintains_pure _
  refine (maintains_getLock i).bind fun e => ?_
  split_ifs
  · refine (built_addVertex t).bind
      fun _ => (maintains_getLock i).bind fun e => (built_addVertex e.id).bind fun _ =>
      (maintains_setLock i _).bind fun _ => (maintains_verifyEdge _ _).bind fun r => ?_
    split_ifs
    · exact (built_addEdge t e.id).bind fun _ => maintains_pure _
    · exact maintains_pure _
  · exact maintains_pure _

theorem built_lockAfter (t lock : Nat) : Maintains (Built max) (lockAfter max t lock) := by
  refine (maintains_searchLock lock).bind fun idx => ?_
  cases idx with
  | none =>
      refine maintains_searchEmptyLock.bind fun i => (maintains_getLock i).bind fun e =>
        (maintains_setLock i _).bind fun _ => ?_
      exact fun g h => returns_modify ⟨⟨h.1.ok, h.1.num_le, h.1.linked⟩, h.2⟩
  | some i =>
      have hend : Maintains (Built max) (do
          let e ← getLock max i
          setLock max i { e with id := t }) :=
          (maintains_getLock i).bind fun _ => maintains_setLock i _
      refine (built_addVertex t).bind
        fun _ => (maintains_getLock i).bind fun e => (built_addVertex e.id).bind fun _ =>
        (maintains_setLock i _).bind fun _ => (maintains_verifyEdge _ _).bind fun r => ?_
      split_ifs
      · exact (built_removeEdge _ _).bind fun _ => hend
      · exact hend

theorem built_unlockAfter (lock : Nat) : Maintains (Built max) (unlockAfter max lock) := by
  refine (maintains_searchLock lock).bind fun idx => ?_
  cases idx with
  | none => exact maintains_throw _
  | some i =>
      refine (maintains_getLock i).bind fun e => ?_
      split_ifs
      · exact maintains_setLock i _
      · exact maintains_pure _

/-- **One step** keeps the graph built. -/
theorem Built.step {s s' : Sys} {o : Step} {r : Unit} (h : Built max s.graph)
    (hrun : (step max o).run s = .ok (r, s')) : Built max s'.graph := by
  cases o with
  | lockBefore t lock =>
      obtain ⟨g, hc, rfl⟩ := run_hook_ok.mp (run_await_ok.mp hrun).2
      exact built_lockBefore t lock s.graph h () g hc
  | lock t lock =>
      obtain ⟨-, rfl⟩ := run_act_ok.mp hrun
      exact h
  | lockAfter t lock =>
      obtain ⟨g, hc, rfl⟩ := run_hook_ok.mp (run_await_ok.mp hrun).2
      exact built_lockAfter t lock s.graph h () g hc
  | unlock t lock =>
      obtain ⟨-, rfl⟩ := run_act_ok.mp hrun
      exact h
  | unlockAfter t lock =>
      obtain ⟨g, hc, rfl⟩ := run_hook_ok.mp (run_await_ok.mp hrun).2
      exact built_unlockAfter lock s.graph h () g hc

/-! ## Circles -/

/-- Where a vertex has one link at most, what is reached twice lies on a cycle. -/
theorem TaskGraph.Rejoins.hasCycle (h : g.Rejoins) (hone : ∀ x, (g.links x).length ≤ 1) :
    g.HasCycle := by
  have hunique : Relator.RightUnique fun a b => b ∈ g.links a := by
    intro x y z hy hz
    obtain ⟨i, hi, rfl⟩ := List.mem_iff_getElem.mp hy
    obtain ⟨j, hj, rfl⟩ := List.mem_iff_getElem.mp hz
    have hx := hone x
    congr 1
    omega
  -- of two vertices with a link to `y`, one comes behind the other
  have hbehind : ∀ {u u' y}, u ≠ u' → g.Leads u u' → y ∈ g.links u → y ∈ g.links u' →
      g.HasCycle := by
    intro u u' y hne hleads hy hy'
    rcases hleads.cases_head with heq | ⟨z, hz, hleads'⟩
    · exact absurd heq hne
    · rw [hunique hz hy] at hleads'
      exact ⟨u', y, hy', hleads'⟩
  obtain ⟨x, w, -, ⟨u, -, htwice⟩ | ⟨u, u', y, hne, hu, hu', hy, hy'⟩⟩ := h
  · have hu := hone u
    rcases hlinks : g.links u with - | ⟨a, - | ⟨b, l⟩⟩ <;> simp_all
  · rcases Relation.ReflTransGen.total_of_right_unique hunique hu hu' with hleads | hleads
    · exact hbehind hne hleads hy hy'
    · exact hbehind hne.symm hleads hy' hy

section Quiet

variable {s : Sys}

/-- A thread has one edge at most. -/
theorem Mirror.length_edges_le (h : Mirror max s) (hquiet : Quiet s) (t : Nat) :
    (s.graph.edges t).length ≤ 1 := by
  cases ht : s.phase t with
  | run => simp [h.edges t (Or.inl ht)]
  | locked lock => exact absurd ht (hquiet t lock).1
  | unlocked lock => exact absurd ht (hquiet t lock).2
  | before lock =>
      rcases h.quiet_mode hquiet lock with ⟨-, -, hnone⟩ | ⟨u, W, -, hW, -, hedges⟩
      · simp [hnone t ht]
      · simp [hedges t ((hW t).mpr ht)]

/-- The links of a vertex are the edges of a thread. -/
theorem Built.mem_links (h : Built max g) {x y : SourceType} :
    y ∈ g.links x ↔ x.type = .process ∧ y.type = .process ∧ g.HasEdge x.id y.id := by
  have htype : ∀ i < g.num, ∀ w ∈ (g.list i).next, w.type = .process := by
    intro i hi w hw
    obtain ⟨j, hj, rfl⟩ := h.1.linked i hi w hw
    exact h.2 j hj
  rw [← h.1.ok.firstLinks_num]
  constructor
  · rintro ⟨i, hi, rfl, hy⟩
    have hs : (g.list i).s = ⟨(g.list i).s.id, .process⟩ := by rw [← h.2 i hi]
    exact ⟨h.2 i hi, htype i hi y hy, i, hi, hs, y, hy, rfl⟩
  · rintro ⟨hx, hy, i, hi, hs, w, hw, hid⟩
    have hwy : w = y := by
      have htw := htype i hi w hw
      rcases w with ⟨id, type⟩
      rcases y with ⟨id', type'⟩
      simp_all
    refine ⟨i, hi, ?_, hwy ▸ hw⟩
    rw [hs, ← hx]

/-- A vertex has one link at most. -/
theorem Mirror.length_links_le (h : Mirror max s) (hbuilt : Built max s.graph) (hquiet : Quiet s)
    (x : SourceType) : (s.graph.links x).length ≤ 1 := by
  cases hidx : s.graph.index x with
  | none => simp [TaskGraph.links, hidx]
  | some i =>
      obtain ⟨hi, rfl⟩ := hbuilt.1.ok.index_eq_some.mp hidx
      have hs : (s.graph.list i).s = ⟨(s.graph.list i).s.id, .process⟩ := by rw [← hbuilt.2 i hi]
      have hle := h.length_edges_le hquiet (s.graph.list i).s.id
      rw [hbuilt.1.ok.edges_eq hi hs, List.length_map] at hle
      rwa [hbuilt.1.ok.links_eq hi]

/-- **Cycles in the graph are circles of threads.** -/
theorem Mirror.hasCycle_iff (h : Mirror max s) (hbuilt : Built max s.graph) (hquiet : Quiet s) :
    s.graph.HasCycle ↔ ∃ t, Relation.TransGen (WaitsFor s) t t := by
  have hlinks : ∀ {x y}, y ∈ s.graph.links x ↔ x.type = .process ∧ y.type = .process ∧
      WaitsFor s x.id y.id := by
    intro x y
    rw [hbuilt.mem_links, h.hasEdge_iff hquiet]
    rfl
  constructor
  · rintro ⟨x, w, hw, hleads⟩
    have hcycle : Relation.TransGen (fun a b => b ∈ s.graph.links a) x x := .head' hw hleads
    exact ⟨x.id, hcycle.lift SourceType.id fun a b hab => (hlinks.mp hab).2.2⟩
  · rintro ⟨t, hcircle⟩
    have hcycle : Relation.TransGen (fun a b => b ∈ s.graph.links a) ⟨t, .process⟩ ⟨t, .process⟩ :=
      hcircle.lift (fun t => (⟨t, .process⟩ : SourceType)) fun a b hab => hlinks.mpr ⟨rfl, rfl, hab⟩
    obtain ⟨w, hw, hleads⟩ := Relation.TransGen.head'_iff.mp hcycle
    exact ⟨_, w, hw, hleads⟩

end Quiet

/-- **The detector is exact.** In every quiet state of an orderly run, `check_dead_lock` returns,
and `deadlock` is `1` exactly if there are threads that wait for each other in a circle. -/
theorem deadlock_iff_circle (max : Nat) (steps : List Step) (rs : List Unit) (s : Sys)
    (hrun : (runAll (step max) steps).run Sys.zero = .ok (rs, s))
    (horderly : AllSteps (step max) Orderly Sys.zero steps) (hquiet : Quiet s) {d : Detector}
    (hd : d.graph = s.graph) {fuel : Nat} (hfuel : s.graph.num ≤ fuel) :
    Ok (checkDeadLock max fuel) d
      fun _ d' => d'.deadlock = 1 ↔ ∃ t, Relation.TransGen (WaitsFor s) t t := by
  have hstep : ∀ o s r s', Mirror max s ∧ Built max s.graph → Orderly s o →
    (step max o).run s = .ok (r, s') →
      Mirror max s' ∧ Built max s'.graph :=
    fun o s r s' h horderly ho => ⟨h.1.effect horderly (step_effect h.1.sound ho), h.2.step ho⟩
  have hzero : Built max Sys.zero.graph :=
    ⟨wired_of_reach rfl ⟨[], [], rfl⟩, fun i hi => absurd hi (Nat.not_lt_zero i)⟩
  obtain ⟨h, hbuilt⟩ := AllSteps.invariant hstep ⟨mirror_zero, hzero⟩ horderly hrun
  have hone := h.length_links_le hbuilt hquiet
  rw [← h.hasCycle_iff hbuilt hquiet]
  rw [← hd] at hbuilt hfuel hone ⊢
  refine (hbuilt.1.ok_checkDeadLock hfuel).mono ?_
  rintro - d' (⟨hnone, hall⟩ | ⟨hone', x, w, hw, hhit⟩)
  · rw [hnone]
    exact iff_of_false (by decide) (not_rejoins_of_trials hall).1
  · refine iff_of_true hone' ?_
    rcases hhit.hasCycle_or_rejoins hw with hcycle | hrejoins
    · exact hcycle
    · exact hrejoins.hasCycle hone

/-- Each of two threads holds a mutex and waits for that of the other. -/
def crossed : List Step :=
  [.lockBefore 1 8, .lock 1 8, .lockAfter 1 8, .lockBefore 2 16, .lock 2 16, .lockAfter 2 16,
    .lockBefore 1 16, .lockBefore 2 8]

theorem deadlock_iff_circle_crossed :
    ∃ rs s, (runAll (step maxSize) crossed).run Sys.zero = .ok (rs, s) ∧
      WaitsFor s 1 2 ∧ WaitsFor s 2 1 ∧
      Ok (checkDeadLock maxSize maxSize) (Detector.zero s.graph) fun _ d' => d'.deadlock = 1 := by
  have horderly : AllSteps (step maxSize) Orderly Sys.zero crossed := by
    refine allSteps_cons ?_ rfl <|
      allSteps_cons trivial rfl <| allSteps_cons ?_ rfl <| allSteps_cons ?_ rfl <|
      allSteps_cons trivial rfl <|
        allSteps_cons ?_ rfl <| allSteps_cons ?_ rfl <| allSteps_cons ?_ rfl trivial
    all_goals
      simp [Orderly, Sys.setPhase, Sys.setOwner, Sys.setGraph, Sys.zero, Function.update_apply]
    -- one thread is busy in each of the states that are left
    all_goals
      intro u
      split_ifs <;> simp
  have hrun : ∃ rs s, (runAll (step maxSize) crossed).run Sys.zero = .ok (rs, s) ∧
      (s.phase 1, s.phase 2) = (.before 16, .before 8) ∧
        (s.owner 8, s.owner 16) = (some 1, some 2) ∧
        s.graph.num ≤ maxSize := ⟨_, _, rfl, rfl, rfl, by decide⟩
  obtain ⟨rs, s, hrun, hphase, howner, hnum⟩ := hrun
  obtain ⟨h₁, h₂⟩ := Prod.mk.inj hphase
  obtain ⟨h₈, h₁₆⟩ := Prod.mk.inj howner
  have hquiet : Quiet s := by
    intro t lock
    by_cases ht : t = 1 ∨ t = 2
    · rcases ht with rfl | rfl <;> simp [h₁, h₂]
    · have hsteps : ∀ o ∈ crossed, t ≠ o.thread := by simp_all [crossed, Step.thread]
      simp [(phase_of_not_mem sound_zero hrun hsteps).2, Sys.zero]
  have h₁₂ : WaitsFor s 1 2 := ⟨16, h₁, h₁₆⟩
  have h₂₁ : WaitsFor s 2 1 := ⟨8, h₂, h₈⟩
  refine ⟨rs, s, hrun, h₁₂, h₂₁, ?_⟩
  refine (deadlock_iff_circle maxSize crossed rs s hrun horderly hquiet rfl hnum).mono
    fun _ d' h => ?_
  exact h.mpr ⟨1, .tail (.single h₁₂) h₂₁⟩

end KvStore.Deadlock
