import KvStore.Deadlock.Graph

set_option autoImplicit false

/-! # The lock table and the hooks

A lock table in which no mutex is registered twice (`TableOk`) is determined by the entry of each
mutex (`TaskGraph.entry`): the thread that is recorded as its owner, and its `degress`. The hooks
are described by what they do to the entries and to the edges: `returns_lockBefore`,
`returns_lockAfter`, `returns_unlockAfter`. -/

namespace KvStore.Deadlock

open Function KvStore.Lib

variable {max : Nat} {g : TaskGraph} {e : LockEntry}

/-! ## Entries -/

/-- **The lock table is sound.** -/
structure TableOk (max : Nat) (g : TaskGraph) : Prop where
  /-- No mutex is registered twice. -/
  unique : ∀ i j, (g.locklist i).lockId ≠ 0 → (g.locklist i).lockId = (g.locklist j).lockId → i = j
  /-- Nobody waits for an entry that is not in use. -/
  clean : ∀ i, (g.locklist i).lockId = 0 → (g.locklist i).degress = 0
  lt : ∀ i, (g.locklist i).lockId ≠ 0 → i < g.lockidx ∧ i < max

/-- Where `search_lock` finds the mutex. -/
def TaskGraph.find (g : TaskGraph) (lock : Nat) : Option Nat :=
  (List.range g.lockidx).find? fun i => (g.locklist i).lockId = lock

/-- The entry of a mutex: the recorded owner and the number of those who wait. -/
def TaskGraph.entry (g : TaskGraph) (lock : Nat) : Option (Nat × Int) :=
  if lock = 0 then none
  else (g.find lock).map fun i => ((g.locklist i).id, (g.locklist i).degress)

section Entries

variable {lock i : Nat}

theorem TableOk.find_eq_some (h : TableOk max g) (hlock : lock ≠ 0) :
    g.find lock = some i ↔ (g.locklist i).lockId = lock := by
  unfold TaskGraph.find
  rw [List.find?_range_eq_some]
  constructor
  · rintro ⟨hi, -, -⟩
    exact of_decide_eq_true hi
  · intro hi
    have hne : (g.locklist i).lockId ≠ 0 := by rwa [hi]
    refine ⟨decide_eq_true hi, List.mem_range.mpr (h.lt i hne).1, fun j hj => ?_⟩
    have hji : (g.locklist j).lockId ≠ lock := fun hj' =>
      absurd (h.unique i j hne (hi.trans hj'.symm)) (by omega)
    simpa using hji

theorem TableOk.find_eq_none (h : TableOk max g) (hlock : lock ≠ 0) :
    g.find lock = none ↔ ∀ i, (g.locklist i).lockId ≠ lock := by
  constructor
  · intro hnone i hi
    rw [(h.find_eq_some hlock).mpr hi] at hnone
    cases hnone
  · intro hall
    cases hfind : g.find lock with
    | none => rfl
    | some i => exact absurd ((h.find_eq_some hlock).mp hfind) (hall i)

theorem TableOk.entry_eq_some (h : TableOk max g) {u : Nat} {d : Int} :
    g.entry lock = some (u, d) ↔ lock ≠ 0 ∧ ∃ i, g.locklist i = ⟨u, lock, d⟩ := by
  unfold TaskGraph.entry
  by_cases hlock : lock = 0
  · rw [if_pos hlock]
    simp [hlock]
  · rw [if_neg hlock, Option.map_eq_some_iff]
    refine Iff.trans ?_ (and_iff_right hlock).symm
    refine exists_congr fun i => ?_
    rw [h.find_eq_some hlock]
    constructor
    · rintro ⟨rfl, heq⟩
      cases heq
      rfl
    · intro heq
      rw [heq]
      exact ⟨rfl, rfl⟩

theorem TableOk.entry_eq_none (h : TableOk max g) (hlock : lock ≠ 0) :
    g.entry lock = none ↔ ∀ i, (g.locklist i).lockId ≠ lock := by
  rw [TaskGraph.entry, if_neg hlock, Option.map_eq_none_iff, h.find_eq_none hlock]

/-- The slot `i` is written, and `lockidx` set. -/
def TaskGraph.write (g : TaskGraph) (i : Nat) (e : LockEntry) (lockidx : Nat) : TaskGraph :=
  { g with locklist := update g.locklist i e, lockidx := lockidx }

theorem write_self {n : Nat} : (g.write i e n).locklist i = e := update_self ..

theorem write_of_ne {n j : Nat} (hj : j ≠ i) :
    (g.write i e n).locklist j = g.locklist j := update_of_ne hj _ _

/-- **A write** to the slot of a mutex, or to an unused slot for it, changes the entry of that mutex
only. -/
theorem TableOk.write (h : TableOk max g) (hlock : lock ≠ 0)
    (hother : ∀ j, j ≠ i → (g.locklist j).lockId ≠ lock)
    (hold : (g.locklist i).lockId = lock ∨ (g.locklist i).lockId = 0)
    (hnew : e.lockId = lock ∨ e.lockId = 0 ∧ e.degress = 0) (hi : i < max) {n : Nat} (hin : i < n)
    (hn : g.lockidx ≤ n) :
    TableOk max (g.write i e n) ∧
      (g.write i e n).entry =
        update g.entry lock (if e.lockId = 0 then none else some (e.id, e.degress)) := by
  have hok : TableOk max (g.write i e n) := by
    refine ⟨fun j k hj heq => ?_, fun j hj => ?_, fun j hj => ?_⟩
    · by_cases hji : j = i <;> by_cases hki : k = i
      · rw [hji, hki]
      · rw [hji, write_self] at hj heq
        rw [write_of_ne hki] at heq
        have he := hnew.resolve_right fun h0 => hj h0.1
        exact absurd (heq.symm.trans he) (hother k hki)
      · rw [hki, write_self] at heq
        rw [write_of_ne hji] at hj heq
        have he := hnew.resolve_right fun h0 => hj (heq.trans h0.1)
        exact absurd (heq.trans he) (hother j hji)
      · rw [write_of_ne hji] at hj heq
        rw [write_of_ne hki] at heq
        exact h.unique j k hj heq
    · by_cases hji : j = i
      · rw [hji, write_self] at hj ⊢
        rcases hnew with he | ⟨-, he⟩
        · exact absurd (he.symm.trans hj) hlock
        · exact he
      · rw [write_of_ne hji] at hj ⊢
        exact h.clean j hj
    · by_cases hji : j = i
      · rw [hji]
        exact ⟨hin, hi⟩
      · rw [write_of_ne hji] at hj
        obtain ⟨hlt, hmax⟩ := h.lt j hj
        exact ⟨hlt.trans_le hn, hmax⟩
  refine ⟨hok, ?_⟩
  funext m
  by_cases hm : m = lock
  · subst hm
    rw [update_self]
    split_ifs with he
    · refine (hok.entry_eq_none hlock).mpr fun j => ?_
      by_cases hji : j = i
      · rw [hji, write_self, he]
        exact hlock.symm
      · rw [write_of_ne hji]
        exact hother j hji
    · refine hok.entry_eq_some.mpr ⟨hlock, i, ?_⟩
      rw [write_self, ← hnew.resolve_right fun h0 => he h0.1]
  · rw [update_of_ne hm]
    refine Option.ext fun p => ?_
    obtain ⟨u, d⟩ := p
    rw [hok.entry_eq_some, h.entry_eq_some]
    refine and_congr_right fun hm0 => exists_congr fun j => ?_
    by_cases hji : j = i
    · -- the slot `i` is not one of `m`, before or after
      rw [hji, write_self]
      refine iff_of_false (fun he => ?_) fun he => ?_
      · rcases hnew with h0 | ⟨h0, -⟩ <;> rw [he] at h0
        · exact hm h0
        · exact hm0 h0
      · rcases hold with h0 | h0 <;> rw [he] at h0
        · exact hm h0
        · exact hm0 h0
    · rw [write_of_ne hji]

end Entries

/-- **The detector is sound.** -/
structure DetectorOk (max : Nat) (g : TaskGraph) : Prop where
  graph : GraphOk g
  table : TableOk max g

theorem detectorOk_zero : DetectorOk max TaskGraph.zero where
  graph _ _ hi := absurd hi (Nat.not_lt_zero _)
  table := ⟨fun _ _ h => absurd rfl h, fun _ _ => rfl, fun _ h => absurd rfl h⟩

theorem Grows.detectorOk {g' : TaskGraph} (h : Grows g g') (htable : TableOk max g) :
    DetectorOk max g' ∧ g'.entry = g.entry := by
  obtain ⟨hok, -, hlist, hidx⟩ := h
  refine ⟨⟨hok, ?_⟩, ?_⟩
  · obtain ⟨hunique, hclean, hlt⟩ := htable
    constructor <;> (try rw [hlist]) <;> (try rw [hidx]) <;> assumption
  · unfold TaskGraph.entry TaskGraph.find
    rw [hlist, hidx]

/-! ## The hooks -/

/-- The graph is as sound as before, with these entries and edges. -/
structure Shows (max : Nat) (g : TaskGraph) (entry : Nat → Option (Nat × Int))
    (edges : Nat → List Nat) (lockidx : Nat) : Prop where
  ok : DetectorOk max g
  entry : g.entry = entry
  edges : g.edges = edges
  lockidx : g.lockidx = lockidx

theorem Shows.grows {g' : TaskGraph} {entry : Nat → Option (Nat × Int)}
    {edges edges' : Nat → List Nat} {lockidx : Nat} (h : Shows max g entry edges lockidx)
    (hgrows : Grows g g') (hedges : g'.edges = edges') : Shows max g' entry edges' lockidx := by
  obtain ⟨hok, hentry⟩ := hgrows.detectorOk h.ok.table
  exact ⟨hok, hentry.trans h.entry, hedges, hgrows.lockidx.trans h.lockidx⟩

/-- The targets of `t` after `lock_before`: an edge that is there, or would lead back, is not
added. -/
def linkTo (t u : Nat) (es : List Nat) : List Nat := if t = u ∨ u ∈ es then es else es ++ [u]

theorem returns_getLock {i : Nat} :
    Returns (getLock max i) g fun e g' => g' = g ∧ e = g.locklist i := by
  unfold getLock
  split_ifs
  · exact returns_get_bind (returns_pure ⟨rfl, rfl⟩)
  · exact returns_throw _ _ _

theorem returns_setLock {i : Nat} :
    Returns (setLock max i e) g fun _ g' => i < max ∧ g' = g.write i e g.lockidx := by
  unfold setLock
  split_ifs with hi
  · exact returns_modify ⟨hi, rfl⟩
  · exact returns_throw _ _ _

theorem returns_searchLock (lock : Nat) :
    Returns (searchLock max lock) g fun r g' => g' = g ∧ r = g.find lock := by
  refine returns_get_bind
    (returns_forLoop_find (fun i => (g.locklist i).lockId = lock) (fun i => ?_) _)
  refine returns_bind (returns_getLock.mono ?_)
  rintro e g' ⟨rfl, rfl⟩
  exact returns_pure ⟨rfl, rfl⟩

/-- The slot that `search_empty_lock` returns is not in use. -/
theorem returns_searchEmptyLock (h : TableOk max g) :
    Returns (searchEmptyLock max) g
      fun i g' => g' = g ∧ (g.locklist i).lockId = 0 ∧ i ≤ g.lockidx := by
  refine returns_get_bind (returns_bind ?_)
  refine (returns_forLoop_find (fun i => (g.locklist i).lockId = 0) (fun i => ?_) _).mono ?_
  · refine returns_bind (returns_getLock.mono ?_)
    rintro e g' ⟨rfl, rfl⟩
    exact returns_pure ⟨rfl, rfl⟩
  · rintro found g' ⟨rfl, rfl⟩
    refine returns_pure ⟨rfl, ?_⟩
    cases hfind : (List.range g'.lockidx).find? fun i => (g'.locklist i).lockId = 0 with
    | none =>
        refine ⟨?_, le_refl _⟩
        by_contra hne
        exact absurd (h.lt _ hne).1 (lt_irrefl _)
    | some i =>
        obtain ⟨hi, hlt, -⟩ := List.find?_range_eq_some.mp hfind
        exact ⟨of_decide_eq_true hi, (List.mem_range.mp hlt).le⟩

section Hooks

variable {t lock : Nat}

/-- The entry of a mutex is rewritten. -/
theorem DetectorOk.rewrite (h : DetectorOk max g) {i u : Nat} {d : Int} (hlock : lock ≠ 0)
    (hi : g.locklist i = ⟨u, lock, d⟩) (u' : Nat) (d' : Int) :
    Shows max (g.write i ⟨u', lock, d'⟩ g.lockidx) (update g.entry lock (some (u', d')))
      g.edges g.lockidx := by
  have hid : (g.locklist i).lockId = lock := by rw [hi]
  have hne : (g.locklist i).lockId ≠ 0 := by rwa [hid]
  have hother : ∀ j, j ≠ i → (g.locklist j).lockId ≠ lock := fun j hj hj' =>
    hj (h.table.unique i j hne (hid.trans hj'.symm)).symm
  obtain ⟨hlt, hmax⟩ := h.table.lt i hne
  obtain ⟨htable, hentry⟩ :=
    h.table.write hlock hother (Or.inl hid) (e := ⟨u', lock, d'⟩) (Or.inl rfl) hmax hlt (le_refl _)
  rw [if_neg hlock] at hentry
  exact ⟨⟨h.graph, htable⟩, hentry, rfl, rfl⟩

/-- The iteration of `lock_before` at another mutex. -/
theorem returns_lockBeforeBody_skip {i : Nat} (hi : (g.locklist i).lockId ≠ lock) :
    Returns (lockBeforeBody max t lock i) g fun r g' => r = none ∧ g' = g := by
  refine returns_bind (returns_getLock.mono ?_)
  rintro e g' ⟨rfl, rfl⟩
  rw [if_neg hi]
  exact returns_pure ⟨rfl, rfl⟩

/-- What `lock_before` and `lock_after` do first at the slot of the mutex: both threads get a
vertex, the number of waiting threads changes, and the edge is looked for. -/
theorem returns_countWaiting (h : DetectorOk max g) (hlock : lock ≠ 0) {i u : Nat} {d d' : Int}
    (hi : g.locklist i = ⟨u, lock, d⟩) {α : Type} {f : LockEntry → LockEntry}
    {rest : LockEntry → Bool → Tg α} {Q : α → TaskGraph → Prop}
    (hf : f ⟨u, lock, d⟩ = ⟨u, lock, d'⟩)
    (hrest : ∀ r g', g'.locklist i = ⟨u, lock, d'⟩ → g'.HasVertex ⟨t, .process⟩ →
      g'.HasVertex ⟨u, .process⟩ → (r = true ↔ t = u ∨ u ∈ g.edges t) →
      Shows max g' (update g.entry lock (some (u, d'))) g.edges g.lockidx →
      Returns (rest ⟨u, lock, d⟩ r) g' Q) :
    Returns (do
      addVertex max ⟨t, .process⟩
      let e ← getLock max i
      addVertex max ⟨e.id, .process⟩
      setLock max i (f e)
      rest e (← verifyEdge max ⟨t, .process⟩ ⟨e.id, .process⟩)) g Q := by
  refine returns_bind ((returns_addVertex h.graph _).mono ?_)
  rintro - g₁ ⟨hgrows₁, hedges₁, hvertex₁⟩
  refine returns_bind (returns_getLock.mono ?_)
  rintro e g₁' ⟨rfl, rfl⟩
  rw [hgrows₁.locklist, hi]
  refine returns_bind ((returns_addVertex hgrows₁.ok _).mono ?_)
  rintro - g₂ ⟨hgrows₂, hedges₂, huser⟩
  have hgrows := hgrows₁.trans hgrows₂
  obtain ⟨hok₂, hentry₂⟩ := hgrows.detectorOk h.table
  have hi₂ : g₂.locklist i = ⟨u, lock, d⟩ := by rw [hgrows.locklist, hi]
  refine returns_bind (returns_setLock.mono ?_)
  rw [hf]
  rintro - g₃ ⟨-, rfl⟩
  have hshows : Shows max (g₂.write i ⟨u, lock, d'⟩ g₂.lockidx)
      (update g.entry lock (some (u, d'))) g.edges g.lockidx := by
    rw [← hentry₂, ← hedges₁, ← hedges₂, ← hgrows.lockidx]
    exact hok₂.rewrite hlock hi₂ u d'
  have hvertex : (g₂.write i ⟨u, lock, d'⟩ g₂.lockidx).HasVertex ⟨t, .process⟩ :=
    hgrows₂.vertex _ hvertex₁
  refine returns_bind ((returns_verifyEdge hshows.ok.graph hvertex u).mono ?_)
  rintro r g₄ ⟨rfl, hr⟩
  rw [hshows.edges] at hr
  exact hrest r _ write_self hvertex huser hr hshows

/-- The iteration of `lock_before` at the mutex. -/
theorem returns_lockBeforeBody (h : DetectorOk max g) (hlock : lock ≠ 0) {i u : Nat} {d : Int}
    (hi : g.locklist i = ⟨u, lock, d⟩) :
    Returns (lockBeforeBody max t lock i) g fun r g' => r = none ∧
      g'.locklist i = ⟨u, lock, d + 1⟩ ∧
      Shows max g' (update g.entry lock (some (u, d + 1)))
        (update g.edges t (linkTo t u (g.edges t))) g.lockidx := by
  refine returns_bind (returns_getLock.mono ?_)
  rintro e g₀ ⟨rfl, rfl⟩
  rw [if_pos (by rw [hi])]
  refine returns_countWaiting h hlock hi rfl ?_
  rintro r g₁ hi₁ - - hr hshows
  split_ifs with hfalse
  · have hnot : ¬(t = u ∨ u ∈ g₀.edges t) := by
      rw [← hr, hfalse]
      decide
    refine returns_bind ((returns_addEdge hshows.ok.graph t u).mono ?_)
    rintro - g₂ ⟨hgrows, hedges⟩
    refine returns_pure ⟨rfl, hgrows.locklist ▸ hi₁, hshows.grows hgrows ?_⟩
    rw [hedges, hshows.edges, linkTo, if_neg hnot]
  · have hyes : t = u ∨ u ∈ g₀.edges t := hr.mp (Bool.not_eq_false _ ▸ hfalse)
    refine returns_pure ⟨rfl, hi₁, ?_⟩
    rw [linkTo, if_pos hyes, update_eq_self]
    exact hshows

/-- **`lock_before`** of a mutex that is not registered does nothing; otherwise one more thread
waits, with an edge to the recorded owner. -/
theorem returns_lockBefore (h : DetectorOk max g) (hlock : lock ≠ 0) :
    Returns (lockBefore max t lock) g fun _ g' =>
      (g.entry lock = none → g' = g) ∧
      ∀ u d, g.entry lock = some (u, d) →
        Shows max g' (update g.entry lock (some (u, d + 1)))
          (update g.edges t (linkTo t u (g.edges t))) g.lockidx := by
  refine returns_get_bind (returns_bind ?_)
  cases hentry : g.entry lock with
  | none =>
      have hnone := (h.table.entry_eq_none hlock).mp hentry
      refine (returns_forLoop (fun _ g' => g' = g) ?_ rfl).mono ?_
      · rintro i - g' rfl
        exact returns_lockBeforeBody_skip (hnone i)
      · rintro r g' ⟨-, rfl⟩
        exact returns_pure
          ⟨fun _ => rfl, fun u d hsome => absurd hsome.symm (Option.some_ne_none _)⟩
  | some p =>
      obtain ⟨u, d⟩ := p
      obtain ⟨-, i, hi⟩ := h.table.entry_eq_some.mp hentry
      have hne : (g.locklist i).lockId ≠ 0 := by rwa [hi]
      have hlt := (h.table.lt i hne).1
      -- the graph is as it was up to the slot of the mutex, and changed behind it
      let Done (g' : TaskGraph) : Prop := g'.locklist i = ⟨u, lock, d + 1⟩ ∧
        Shows max g' (update g.entry lock (some (u, d + 1)))
          (update g.edges t (linkTo t u (g.edges t))) g.lockidx
      refine (returns_forLoop (fun j g' => (j ≤ i → g' = g) ∧ (i < j → Done g')) ?_
        ⟨fun _ => rfl, fun hi0 => absurd hi0 (Nat.not_lt_zero _)⟩).mono ?_
      · rintro j - g' ⟨hbefore, hafter⟩
        rcases lt_trichotomy j i with hj | rfl | hj
        · obtain rfl := hbefore hj.le
          have hskip : (g'.locklist j).lockId ≠ lock := fun hj' =>
            hj.ne (h.table.unique i j hne (by rw [hi, hj'])).symm
          refine (returns_lockBeforeBody_skip hskip).mono ?_
          rintro r g'' ⟨rfl, rfl⟩
          exact ⟨rfl, fun _ => rfl, fun hlt' => absurd hlt' (by omega)⟩
        · obtain rfl := hbefore le_rfl
          refine (returns_lockBeforeBody h hlock hi).mono ?_
          rintro r g'' ⟨rfl, hdone⟩
          exact ⟨rfl, fun hle => absurd hle (by omega), fun _ => hdone⟩
        · have hdone := hafter hj
          have hne' : (g'.locklist i).lockId ≠ 0 := by rwa [hdone.1]
          have hskip : (g'.locklist j).lockId ≠ lock := fun hj' =>
            hj.ne (hdone.2.ok.table.unique i j hne' (by rw [hdone.1, hj']))
          refine (returns_lockBeforeBody_skip hskip).mono ?_
          rintro r g'' ⟨rfl, rfl⟩
          exact ⟨rfl, fun hle => absurd hle (by omega), fun _ => hdone⟩
      · rintro r g' ⟨-, -, hafter⟩
        refine returns_pure
          ⟨fun hnone => absurd hnone (Option.some_ne_none _), fun u' d' hsome => ?_⟩
        cases hsome
        exact (hafter hlt).2

/-- `lock_after` of a mutex that is not registered: it gets a slot, and `lockidx` goes up. -/
theorem returns_lockAfter_new (h : DetectorOk max g) (hlock : lock ≠ 0)
    (hnone : g.entry lock = none) :
    Returns (lockAfter max t lock) g fun _ g' =>
      Shows max g' (update g.entry lock (some (t, 0))) g.edges (g.lockidx + 1) := by
  have hfree := (h.table.entry_eq_none hlock).mp hnone
  refine returns_bind ((returns_searchLock lock).mono ?_)
  rintro r g' ⟨rfl, rfl⟩
  rw [(h.table.find_eq_none hlock).mpr hfree]
  refine returns_bind ((returns_searchEmptyLock h.table).mono ?_)
  rintro i g'' ⟨rfl, hempty, hle⟩
  refine returns_bind (returns_getLock.mono ?_)
  rintro e g' ⟨rfl, rfl⟩
  refine returns_bind (returns_setLock.mono ?_)
  rintro - g'' ⟨hmax, rfl⟩
  refine returns_modify ?_
  obtain ⟨htable, hentry⟩ := h.table.write (n := g'.lockidx + 1) hlock (fun j _ => hfree j)
    (Or.inr hempty) (e := ⟨t, lock, (g'.locklist i).degress⟩) (Or.inl rfl) hmax
      (by omega) (by omega)
  rw [if_neg hlock, h.table.clean i hempty] at hentry
  rw [h.table.clean i hempty] at htable
  have hgraph : GraphOk g' := h.graph
  show Shows max (g'.write i ⟨t, lock, (g'.locklist i).degress⟩ (g'.lockidx + 1)) _ _ _
  rw [h.table.clean i hempty]
  exact ⟨⟨hgraph, htable⟩, hentry, rfl, rfl⟩

/-- `lock_after` of a registered mutex: one thread fewer waits, its edge to the recorded owner goes,
and it is recorded instead. -/
theorem returns_lockAfter_old (h : DetectorOk max g) {u : Nat} {d : Int}
    (hsome : g.entry lock = some (u, d)) :
    Returns (lockAfter max t lock) g fun _ g' =>
      Shows max g' (update g.entry lock (some (t, d - 1)))
        (update g.edges t ((g.edges t).erase u)) g.lockidx := by
  obtain ⟨hlock, i, hi⟩ := h.table.entry_eq_some.mp hsome
  refine returns_bind ((returns_searchLock lock).mono ?_)
  rintro r g₀ ⟨rfl, rfl⟩
  rw [(h.table.find_eq_some hlock).mpr (by rw [hi])]
  -- the entry is written once more, for the new owner
  have hfinal : ∀ g₄, g₄.locklist i = ⟨u, lock, d - 1⟩ →
      Shows max g₄ (update g₀.entry lock (some (u, d - 1)))
        (update g₀.edges t ((g₀.edges t).erase u)) g₀.lockidx →
      Returns (do
        let e ← getLock max i
        setLock max i { e with id := t }) g₄ fun _ g' =>
          Shows max g' (update g₀.entry lock (some (t, d - 1)))
            (update g₀.edges t ((g₀.edges t).erase u)) g₀.lockidx := by
    intro g₄ hi₄ hshows₄
    refine returns_bind (returns_getLock.mono ?_)
    rintro e g₄' ⟨rfl, rfl⟩
    refine returns_setLock.mono ?_
    rintro - g₅ ⟨-, rfl⟩
    rw [hi₄]
    obtain ⟨hok, hentry, hedges, hidx⟩ := hshows₄.ok.rewrite hlock hi₄ t (d - 1)
    refine ⟨hok, ?_, hedges.trans hshows₄.edges, hidx.trans hshows₄.lockidx⟩
    rw [hentry, hshows₄.entry, update_idem]
  refine returns_countWaiting h hlock hi rfl ?_
  intro r g₁ hi₁ hvertex huser hr hshows
  split_ifs with htrue
  · refine returns_bind ((returns_removeEdge hshows.ok.graph hvertex huser).mono ?_)
    rintro - g₂ ⟨hgrows, hedges⟩
    rw [hshows.edges] at hedges
    exact hfinal g₂ (hgrows.locklist ▸ hi₁) (hshows.grows hgrows hedges)
  · refine hfinal g₁ hi₁ ?_
    have hnot : u ∉ g₀.edges t := fun hmem => htrue (hr.mpr (Or.inr hmem))
    rw [List.erase_of_not_mem hnot, update_eq_self]
    exact hshows

/-- **`unlock_after`** clears the entry that nobody waits for. Without an entry it does not
return. -/
theorem returns_unlockAfter (h : DetectorOk max g) (hlock : lock ≠ 0) :
    Returns (unlockAfter max lock) g fun _ g' => ∃ u d, g.entry lock = some (u, d) ∧
      Shows max g' (if d = 0 then update g.entry lock none else g.entry) g.edges
        g.lockidx := by
  refine returns_bind ((returns_searchLock lock).mono ?_)
  rintro r g' ⟨rfl, rfl⟩
  cases hfind : g'.find lock with
  | none => exact returns_throw _ _ _
  | some i =>
      have hid := (h.table.find_eq_some hlock).mp hfind
      have hne : (g'.locklist i).lockId ≠ 0 := by rwa [hid]
      have hentry : g'.entry lock = some ((g'.locklist i).id, (g'.locklist i).degress) :=
        h.table.entry_eq_some.mpr ⟨hlock, i, by rw [← hid]⟩
      refine returns_bind (returns_getLock.mono ?_)
      rintro e g'' ⟨rfl, rfl⟩
      split_ifs with hzero
      · refine returns_setLock.mono ?_
        rintro - g₁ ⟨hmax, rfl⟩
        refine ⟨_, _, hentry, ?_⟩
        have hother : ∀ j, j ≠ i → (g''.locklist j).lockId ≠ lock := fun j hj hj' =>
          hj (h.table.unique i j hne (hid.trans hj'.symm)).symm
        obtain ⟨htable, hcleared⟩ := h.table.write hlock hother (Or.inl hid)
          (e := { g''.locklist i with id := 0, lockId := 0 }) (Or.inr ⟨rfl, hzero⟩) hmax
          (h.table.lt i hne).1 (le_refl _)
        rw [if_pos rfl] at hcleared
        rw [if_pos hzero]
        exact ⟨⟨h.graph, htable⟩, hcleared, rfl, rfl⟩
      · refine returns_pure ⟨_, _, hentry, ?_⟩
        rw [if_neg hzero]
        exact ⟨h, rfl, rfl, rfl⟩

end Hooks

end KvStore.Deadlock
