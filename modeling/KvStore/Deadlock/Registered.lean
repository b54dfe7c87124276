import KvStore.Deadlock.Table

set_option autoImplicit false

/-! # The steps of the threads, and the entry that `unlock_after` looks for

`Effect` says what each step does, in terms of the entries and edges; the results about
interleavings use nothing else.

The real unlock comes before its hook. When another thread gets the mutex in between, and its
`lock_after` runs first, the late `unlock_after` clears the entry of the new owner, and the next
`unlock_after` reads `locklist[-1]` (`late_unlock_after`). When every `lock_after` waits for that
hook, every `unlock_after` finds its entry (`unlock_after_finds_entry`). -/

namespace KvStore.Deadlock

open Function KvStore.Lib

variable {max : Nat} {ph : Phase} {o : Step}

/-! ## What the steps do -/

/-- **What a step does.** -/
def Effect (max : Nat) (s s' : Sys) : Step → Prop
  | .lockBefore t lock =>
      s.phase t = .run ∧ lock ≠ 0 ∧ s'.owner = s.owner ∧
        s'.phase = update s.phase t (.before lock) ∧
        (s.graph.entry lock = none → s'.graph = s.graph) ∧
        ∀ u d, s.graph.entry lock = some (u, d) →
          Shows max s'.graph (update s.graph.entry lock (some (u, d + 1)))
            (update s.graph.edges t (linkTo t u (s.graph.edges t))) s.graph.lockidx
  | .lock t lock =>
      s.phase t = .before lock ∧ s.owner lock = none ∧ s'.graph = s.graph ∧
        s'.owner = update s.owner lock (some t) ∧
        s'.phase = update s.phase t (.locked lock)
  | .lockAfter t lock =>
      s.phase t = .locked lock ∧ s'.owner = s.owner ∧ s'.phase = update s.phase t .run ∧
        (s.graph.entry lock = none →
          Shows max s'.graph (update s.graph.entry lock (some (t, 0))) s.graph.edges
            (s.graph.lockidx + 1)) ∧
        ∀ u d, s.graph.entry lock = some (u, d) →
          Shows max s'.graph (update s.graph.entry lock (some (t, d - 1)))
            (update s.graph.edges t ((s.graph.edges t).erase u)) s.graph.lockidx
  | .unlock t lock =>
      s.phase t = .run ∧ s.owner lock = some t ∧ s'.graph = s.graph ∧
        s'.owner = update s.owner lock none ∧
        s'.phase = update s.phase t (.unlocked lock)
  | .unlockAfter t lock =>
      s.phase t = .unlocked lock ∧ s'.owner = s.owner ∧ s'.phase = update s.phase t .run ∧
        ∃ u d, s.graph.entry lock = some (u, d) ∧
          Shows max s'.graph (if d = 0 then update s.graph.entry lock none else s.graph.entry)
            s.graph.edges s.graph.lockidx

/-- The mutex that the thread is about. -/
def Phase.lock? : Phase → Option Nat
  | .run => none
  | .before lock => some lock
  | .locked lock => some lock
  | .unlocked lock => some lock

/-- **What holds in every state**: the detector is sound, the mutexes have addresses, and a thread
that has got a mutex is its owner. -/
structure Sound (max : Nat) (s : Sys) : Prop where
  detector : DetectorOk max s.graph
  phase_ne : ∀ t lock, (s.phase t).lock? = some lock → lock ≠ 0
  owner_ne : ∀ t lock, s.owner lock = some t → lock ≠ 0
  owner_of_locked : ∀ t lock, s.phase t = .locked lock → s.owner lock = some t

theorem run_hook_ok {t : Nat} {c : Tg Unit} {s s' : Sys} {r : Unit} :
    (hook t ph c).run s = .ok (r, s') ↔
      ∃ g, c.run s.graph = .ok ((), g) ∧ s' = (s.setGraph g).setPhase t ph := by
  refine run_zoom_bind_ok.trans ?_
  constructor
  · rintro ⟨⟨⟩, g, hc, h⟩
    exact ⟨g, hc, (congrArg Prod.snd (Except.ok.inj h)).symm⟩
  · rintro ⟨g, hc, rfl⟩
    exact ⟨(), g, hc, rfl⟩

theorem step_effect {s s' : Sys} {r : Unit} (h : Sound max s)
    (hrun : (step max o).run s = .ok (r, s')) : Effect max s s' o := by
  cases o with
  | lockBefore t lock =>
      obtain ⟨⟨hphase, hlock⟩, hrun⟩ := run_await_ok.mp hrun
      obtain ⟨g, hc, rfl⟩ := run_hook_ok.mp hrun
      exact ⟨hphase, hlock, rfl, rfl, returns_lockBefore h.detector hlock () g hc⟩
  | lock t lock =>
      obtain ⟨⟨hphase, howner⟩, rfl⟩ := run_act_ok.mp hrun
      exact ⟨hphase, howner, rfl, rfl, rfl⟩
  | lockAfter t lock =>
      obtain ⟨hphase, hrun⟩ := run_await_ok.mp hrun
      obtain ⟨g, hc, rfl⟩ := run_hook_ok.mp hrun
      have hlock := h.phase_ne t lock (by rw [hphase]; rfl)
      exact ⟨hphase, rfl, rfl, fun hnone => returns_lockAfter_new h.detector hlock hnone () g hc,
        fun u d hsome => returns_lockAfter_old h.detector hsome () g hc⟩
  | unlock t lock =>
      obtain ⟨⟨hphase, howner⟩, rfl⟩ := run_act_ok.mp hrun
      exact ⟨hphase, howner, rfl, rfl, rfl⟩
  | unlockAfter t lock =>
      obtain ⟨hphase, hrun⟩ := run_await_ok.mp hrun
      obtain ⟨g, hc, rfl⟩ := run_hook_ok.mp hrun
      have hlock := h.phase_ne t lock (by rw [hphase]; rfl)
      exact ⟨hphase, rfl, rfl, returns_unlockAfter h.detector hlock () g hc⟩

section Sound

variable {s s' : Sys} {t lock : Nat}

theorem sound_zero : Sound max Sys.zero where
  detector := detectorOk_zero
  phase_ne _ _ h := absurd h.symm (Option.some_ne_none _)
  owner_ne _ _ h := absurd h.symm (Option.some_ne_none _)
  owner_of_locked _ _ h := absurd (show Phase.run = .locked _ from h) Phase.noConfusion

theorem Sound.phase_ne_update (h : Sound max s)
    (hphase : s'.phase = update s.phase t ph) (hne : ∀ lock, ph.lock? = some lock → lock ≠ 0) :
    ∀ u m, (s'.phase u).lock? = some m → m ≠ 0 := by
  rw [hphase]
  exact (forall_update_iff s.phase
    (p := fun _ ph => ∀ lock, Phase.lock? ph = some lock → lock ≠ 0)).mpr
    ⟨hne, fun u _ => h.phase_ne u⟩

/-- A step that sets the phase of one thread and leaves the owners as they are. -/
theorem Sound.setPhase (h : Sound max s) (hdetector : DetectorOk max s'.graph)
    (howner : s'.owner = s.owner) (hphase : s'.phase = update s.phase t ph)
    (hne : ∀ lock, ph.lock? = some lock → lock ≠ 0) (hlocked : ∀ lock, ph ≠ .locked lock) :
    Sound max s' := by
  refine ⟨hdetector, h.phase_ne_update hphase hne, ?_, ?_⟩
  · rw [howner]
    exact h.owner_ne
  · rw [hphase, howner]
    exact (forall_update_iff s.phase
      (p := fun u ph => ∀ lock, ph = Phase.locked lock → s.owner lock = some u)).mpr
      ⟨fun lock hlock => absurd hlock (hlocked lock), fun u _ => h.owner_of_locked u⟩

/-- A step that sets the owner of a mutex that no other thread has got. -/
theorem Sound.setOwner (h : Sound max s) {o : Option Nat} (hlock : lock ≠ 0)
    (hgraph : s'.graph = s.graph) (howner : s'.owner = update s.owner lock o)
    (hphase : s'.phase = update s.phase t ph) (hph : ph.lock? = some lock)
    (ho : ph = .locked lock → o = some t) (hothers : ∀ u, u ≠ t → s.phase u ≠ .locked lock) :
    Sound max s' := by
  refine ⟨hgraph ▸ h.detector, h.phase_ne_update hphase fun m hm => ?_, fun u m hu => ?_,
    fun u m hu => ?_⟩
  · rw [hph] at hm
    exact Option.some.inj hm ▸ hlock
  · by_cases hm : m = lock
    · rwa [hm]
    · rw [howner, update_of_ne hm] at hu
      exact h.owner_ne u m hu
  · rw [hphase] at hu
    rw [howner]
    by_cases hut : u = t
    · subst hut
      rw [update_self] at hu
      subst hu
      obtain rfl : m = lock := Option.some.inj hph
      rw [update_self, ho rfl]
    · rw [update_of_ne hut] at hu
      have hm : m ≠ lock := by
        rintro rfl
        exact hothers u hut hu
      rw [update_of_ne hm]
      exact h.owner_of_locked u m hu

theorem Sound.effect (h : Sound max s) (heffect : Effect max s s' o) : Sound max s' := by
  cases o with
  | lockBefore t lock =>
      obtain ⟨-, hlock, howner, hphase, hnone, hsome⟩ := heffect
      refine h.setPhase ?_ howner hphase (fun m hm => ?_) (fun _ hm => by cases hm)
      · cases hentry : s.graph.entry lock with
        | none =>
            rw [hnone hentry]
            exact h.detector
        | some p => exact (hsome p.1 p.2 hentry).ok
      · cases hm
        exact hlock
  | lock t lock =>
      obtain ⟨hbefore, hfree, hgraph, howner, hphase⟩ := heffect
      have hlock := h.phase_ne t lock (by rw [hbefore]; rfl)
      refine h.setOwner hlock hgraph howner hphase rfl (fun _ => rfl) fun u _ hu => ?_
      rw [h.owner_of_locked u lock hu] at hfree
      cases hfree
  | lockAfter t lock =>
      obtain ⟨-, howner, hphase, hnone, hsome⟩ := heffect
      refine h.setPhase ?_ howner hphase (fun _ hm => by cases hm) (fun _ hm => by cases hm)
      cases hentry : s.graph.entry lock with
      | none => exact (hnone hentry).ok
      | some p => exact (hsome p.1 p.2 hentry).ok
  | unlock t lock =>
      obtain ⟨hrun, hheld, hgraph, howner, hphase⟩ := heffect
      have hlock := h.owner_ne t lock hheld
      refine h.setOwner hlock hgraph howner hphase rfl (fun hph => by cases hph) fun u hut hu => ?_
      rw [h.owner_of_locked u lock hu] at hheld
      exact hut (Option.some.inj hheld)
  | unlockAfter t lock =>
      obtain ⟨-, howner, hphase, u, d, -, hshows⟩ := heffect
      exact h.setPhase hshows.ok howner hphase (fun _ hm => by cases hm) (fun _ hm => by cases hm)

end Sound

/-! ## The entry of `unlock_after` -/

/-- The thread needs the entry of the mutex: its `unlock_after` is to come, or it has the mutex and
its `lock_after` has run. -/
def NeedsEntry (s : Sys) (t lock : Nat) : Prop :=
  s.phase t = .unlocked lock ∨ s.owner lock = some t ∧ s.phase t ≠ .locked lock

/-- No thread is between its real unlock of the mutex and its `unlock_after`, when a `lock_after` of
the mutex runs. -/
def Settled (s : Sys) : Step → Prop
  | .lockAfter _ lock => ∀ u, s.phase u ≠ .unlocked lock
  | _ => True

/-- **The entries that are needed are there**; while the `unlock_after` of a thread is to come, no
other thread needs its entry. -/
structure Registered (max : Nat) (s : Sys) : Prop where
  sound : Sound max s
  needed : ∀ t lock, NeedsEntry s t lock → s.graph.entry lock ≠ none
  released : ∀ t lock, s.phase t = .unlocked lock →
    s.owner lock ≠ some t ∧ ∀ u, NeedsEntry s u lock → u = t

section Registered

variable {s s' : Sys} {t lock : Nat}

theorem update_entry_ne_none {entry : Nat → Option (Nat × Int)} {x : Nat × Int} {m : Nat}
    (h : m = lock ∨ entry m ≠ none) : update entry lock (some x) m ≠ none := by
  by_cases hm : m = lock
  · rw [hm, update_self]
    exact Option.some_ne_none _
  · rw [update_of_ne hm]
    exact h.resolve_left hm

/-- A mutex stays registered, unless its `unlock_after` runs. -/
theorem Effect.entry_ne_none (h : Effect max s s' o) {m : Nat}
    (hm : s.graph.entry m ≠ none) (ho : ∀ t, o ≠ .unlockAfter t m) : s'.graph.entry m ≠ none := by
  cases o with
  | lockBefore t lock =>
      obtain ⟨-, -, -, -, hnone, hsome⟩ := h
      cases hentry : s.graph.entry lock with
      | none => rwa [hnone hentry]
      | some p =>
          rw [(hsome p.1 p.2 hentry).entry]
          exact update_entry_ne_none (Or.inr hm)
  | lock t lock => rwa [h.2.2.1]
  | lockAfter t lock =>
      obtain ⟨-, -, -, hnone, hsome⟩ := h
      cases hentry : s.graph.entry lock with
      | none =>
          rw [(hnone hentry).entry]
          exact update_entry_ne_none (Or.inr hm)
      | some p =>
          rw [(hsome p.1 p.2 hentry).entry]
          exact update_entry_ne_none (Or.inr hm)
  | unlock t lock => rwa [h.2.2.1]
  | unlockAfter t lock =>
      obtain ⟨-, -, -, u, d, -, hshows⟩ := h
      have hne : m ≠ lock := by
        rintro rfl
        exact ho t rfl
      rw [hshows.entry]
      split_ifs
      · rwa [update_of_ne hne]
      · exact hm

/-- `lock_after` registers its mutex. -/
theorem Effect.entry_lockAfter (h : Effect max s s' (.lockAfter t lock)) :
    s'.graph.entry lock ≠ none := by
  obtain ⟨-, -, -, hnone, hsome⟩ := h
  cases hentry : s.graph.entry lock with
  | none =>
      rw [(hnone hentry).entry]
      exact update_entry_ne_none (Or.inl rfl)
  | some p =>
      rw [(hsome p.1 p.2 hentry).entry]
      exact update_entry_ne_none (Or.inl rfl)

/-- A value other than the one that has been set was there before. -/
theorem of_update {α : Type} {f f' : Nat → α} {u : Nat} {x y : α} (hf : f' = update f t x)
    (hu : f' u = y) (hne : x ≠ y) : u ≠ t ∧ f u = y := by
  rw [hf] at hu
  have hut : u ≠ t := by
    rintro rfl
    rw [update_self] at hu
    exact hne hu
  rw [update_of_ne hut] at hu
  exact ⟨hut, hu⟩

theorem phase_of_ne {u : Nat} (hphase : s'.phase = update s.phase t ph)
    (hut : u ≠ t) : s'.phase u = s.phase u := by
  rw [hphase, update_of_ne hut]

/-- A thread that needs an entry after a step has needed it before, or its `lock_after` has run. -/
theorem Effect.needsEntry (h : Effect max s s' o) {u m : Nat}
    (hneed : NeedsEntry s' u m) : NeedsEntry s u m ∨ ∃ t, o = .lockAfter t m := by
  -- a step that leaves the owners as they are, of a thread that does not get the mutex
  have hhook : ∀ t ph, s'.owner = s.owner → s'.phase = update s.phase t ph → ph ≠ .unlocked m →
      s.phase t ≠ .locked m → NeedsEntry s u m := by
    intro t ph howner hphase hph ht
    rcases hneed with hu | ⟨hu, hum⟩
    · exact Or.inl (of_update hphase hu hph).2
    · refine Or.inr ⟨howner ▸ hu, ?_⟩
      by_cases hut : u = t
      · rwa [hut]
      · rwa [phase_of_ne hphase hut] at hum
  cases o with
  | lockBefore t lock =>
      obtain ⟨hrun, -, howner, hphase, -⟩ := h
      exact Or.inl (hhook t _ howner hphase (fun hm => by cases hm) fun hm => by cases hrun ▸ hm)
  | lockAfter t lock =>
      obtain ⟨hlocked, howner, hphase, -⟩ := h
      by_cases hm : m = lock
      · exact Or.inr ⟨t, by rw [hm]⟩
      · refine Or.inl (hhook t _ howner hphase (fun hm' => by cases hm') fun hm' => hm ?_)
        exact (Phase.locked.inj (hlocked.symm.trans hm')).symm
  | unlockAfter t lock =>
      obtain ⟨hunlocked, howner, hphase, -⟩ := h
      refine Or.inl (hhook t _ howner hphase (fun hm => by cases hm) fun hm => ?_)
      cases hunlocked.symm.trans hm
  | lock t lock =>
      obtain ⟨hbefore, -, -, howner, hphase⟩ := h
      rcases hneed with hu | ⟨hu, hum⟩
      · exact Or.inl (Or.inl (of_update hphase hu fun hm => by cases hm).2)
      · by_cases hm : m = lock
        · -- the new owner has not run its `lock_after`
          subst hm
          rw [howner, update_self] at hu
          cases hu
          rw [hphase, update_self] at hum
          exact absurd rfl hum
        · rw [howner, update_of_ne hm] at hu
          refine Or.inl (Or.inr ⟨hu, ?_⟩)
          by_cases hut : u = t
          · rw [hut, hbefore]
            exact fun h => by cases h
          · rwa [phase_of_ne hphase hut] at hum
  | unlock t lock =>
      obtain ⟨hrun, hheld, -, howner, hphase⟩ := h
      have hnot : s.phase t ≠ .locked m := fun h => by cases hrun ▸ h
      refine Or.inl ?_
      rcases hneed with hu | ⟨hu, hum⟩
      · by_cases hut : u = t
        · subst hut
          rw [hphase, update_self] at hu
          cases hu
          exact Or.inr ⟨hheld, hnot⟩
        · rw [phase_of_ne hphase hut] at hu
          exact Or.inl hu
      · refine Or.inr ⟨(of_update howner hu fun h => by cases h).2, ?_⟩
        by_cases hut : u = t
        · rwa [hut]
        · rwa [phase_of_ne hphase hut] at hum

/-- A thread comes before its `unlock_after` by its real unlock, and gets no mutex there. -/
theorem Effect.of_unlocked (h : Effect max s s' o) {u m : Nat} (hu : s'.phase u = .unlocked m) :
    (s.phase u = .unlocked m ∧ (s'.owner m = some u → s.owner m = some u)) ∨ o = .unlock u m := by
  -- a step that leaves the owners as they are
  have hhook : ∀ t ph, s'.owner = s.owner → s'.phase = update s.phase t ph → ph ≠ .unlocked m →
      s.phase u = .unlocked m ∧ (s'.owner m = some u → s.owner m = some u) :=
    fun t ph howner hphase hph => ⟨(of_update hphase hu hph).2, fun hm => howner ▸ hm⟩
  cases o with
  | lockBefore t lock =>
      obtain ⟨-, -, howner, hphase, -⟩ := h
      exact Or.inl (hhook t _ howner hphase fun hph => by cases hph)
  | lockAfter t lock =>
      obtain ⟨-, howner, hphase, -⟩ := h
      exact Or.inl (hhook t _ howner hphase fun hph => by cases hph)
  | unlockAfter t lock =>
      obtain ⟨-, howner, hphase, -⟩ := h
      exact Or.inl (hhook t _ howner hphase fun hph => by cases hph)
  | lock t lock =>
      obtain ⟨-, -, -, howner, hphase⟩ := h
      obtain ⟨hut, hu⟩ := of_update hphase hu fun hph => by cases hph
      exact Or.inl ⟨hu, fun hm => (of_update howner hm fun h => hut (Option.some.inj h).symm).2⟩
  | unlock t lock =>
      obtain ⟨-, -, -, howner, hphase⟩ := h
      by_cases hut : u = t
      · subst hut
        rw [hphase, update_self] at hu
        exact Or.inr (by rw [Phase.unlocked.inj hu])
      · rw [phase_of_ne hphase hut] at hu
        exact Or.inl ⟨hu, fun hm => (of_update howner hm fun h => by cases h).2⟩

/-- **One step** keeps the entries that are needed. -/
theorem Registered.effect (h : Registered max s) (hsettled : Settled s o)
    (heffect : Effect max s s' o) : Registered max s' := by
  refine ⟨h.sound.effect heffect, fun u m hneed => ?_, fun u m hu => ?_⟩
  · rcases heffect.needsEntry hneed with hneed₀ | ⟨t, rfl⟩
    · by_cases ho : ∃ t, o = .unlockAfter t m
      · -- only `t` itself may need the entry, and it does not any more
        obtain ⟨t, rfl⟩ := ho
        obtain ⟨hunlocked, howner, hphase, -⟩ := heffect
        obtain ⟨hnot, halone⟩ := h.released t m hunlocked
        obtain rfl := halone u hneed₀
        rcases hneed with hu | ⟨hu, -⟩
        · rw [hphase, update_self] at hu
          cases hu
        · exact absurd (howner ▸ hu) hnot
      · exact heffect.entry_ne_none (h.needed u m hneed₀) fun t ht => ho ⟨t, ht⟩
    · exact heffect.entry_lockAfter
  · rcases heffect.of_unlocked hu with ⟨hu, hown⟩ | rfl
    · obtain ⟨hnot, halone⟩ := h.released u m hu
      refine ⟨fun hm => hnot (hown hm), fun v hv => ?_⟩
      rcases heffect.needsEntry hv with hv | ⟨t, rfl⟩
      · exact halone v hv
      · exact absurd hu (hsettled u)
    · obtain ⟨hrun, hheld, -, howner, -⟩ := id heffect
      have hneed : NeedsEntry s u m := Or.inr ⟨hheld, fun h => by cases hrun ▸ h⟩
      refine ⟨fun hm => ?_, fun v hv => ?_⟩
      · rw [howner, update_self] at hm
        cases hm
      · rcases heffect.needsEntry hv with (hv | ⟨hv, -⟩) | ⟨t, ht⟩
        · exact ((h.released v m hv).2 u hneed).symm
        · exact Option.some.inj (hv.symm.trans hheld)
        · cases ht

end Registered

theorem registered_zero : Registered max Sys.zero where
  sound := sound_zero
  needed _ _ h := by rcases h with h | ⟨h, -⟩ <;> cases h
  released _ _ h := by cases h

/-- `search_lock` of a registered mutex. -/
theorem run_searchLock_of_entry {g : TaskGraph} {lock : Nat} (h : TableOk max g)
    (hentry : g.entry lock ≠ none) :
    ∃ i, i < max ∧ (searchLock max lock).run g = .ok (some i, g) := by
  obtain ⟨⟨u, d⟩, hsome⟩ := Option.ne_none_iff_exists'.mp hentry
  obtain ⟨hlock, i, hi⟩ := h.entry_eq_some.mp hsome
  have hid : (g.locklist i).lockId = lock := by rw [hi]
  have hne : (g.locklist i).lockId ≠ 0 := by rwa [hid]
  obtain ⟨hlt, hmax⟩ := h.lt i hne
  have hread : ∀ j < max, (getLock max j).run g = .ok (g.locklist j, g) := by
    intro j hj
    rw [getLock, if_pos hj]
    rfl
  refine ⟨i, hmax, ?_⟩
  have hbody : ∀ j < max, (do return if (← getLock max j).lockId = lock then some j else none :
      Tg (Option Nat)).run g = .ok (if (g.locklist j).lockId = lock then some j else none, g) := by
    intro j hj
    rw [run_bind_ok (hread j hj)]
    rfl
  have hstop := hbody i hmax
  rw [if_pos hid] at hstop
  rw [searchLock, run_get_bind,
    forLoop_stop (Nat.zero_le i) (by omega) (fun j _ hj => ?_) hstop (by simp)]
  have hj' : (g.locklist j).lockId ≠ lock := fun hj' =>
    absurd (h.unique i j hne (hid.trans hj'.symm)) (by omega)
  rw [hbody j (by omega), if_neg hj']

/-- **`unlock_after` finds its entry**, in a run in which no `lock_after` of a mutex runs between a
real unlock of it and the `unlock_after`. -/
theorem unlock_after_finds_entry (max : Nat) (steps : List Step) (rs : List Unit) (s : Sys)
    (hrun : (runAll (step max) steps).run Sys.zero = .ok (rs, s))
    (hsettled : AllSteps (step max) Settled Sys.zero steps) (t lock : Nat)
    (ht : s.phase t = .unlocked lock) :
    ∃ i, i < max ∧ (searchLock max lock).run s.graph = .ok (some i, s.graph) := by
  have hstep : ∀ o s r s', Registered max s → Settled s o → (step max o).run s = .ok (r, s') →
      Registered max s' :=
    fun o s r s' h hsettled ho => h.effect hsettled (step_effect h.sound ho)
  have h : Registered max s := AllSteps.invariant hstep registered_zero hsettled hrun
  exact run_searchLock_of_entry h.sound.detector.table (h.needed t lock (Or.inl ht))

/-- The thread `2` waits for the mutex at `8`, and gets it between the real unlock of the thread `1`
and its `unlock_after`; it is about to run its own. -/
def passedOn : List Step :=
  [.lockBefore 1 8, .lock 1 8, .lockAfter 1 8, .lockBefore 2 8, .unlock 1 8, .lock 2 8,
    .unlockAfter 1 8, .lockAfter 2 8, .unlock 2 8]

theorem unlock_after_finds_passedOn :
    ∃ rs s, (runAll (step maxSize) passedOn).run Sys.zero = .ok (rs, s) ∧
      AllSteps (step maxSize) Settled Sys.zero passedOn ∧ s.phase 2 = .unlocked 8 ∧
      ∃ i, i < maxSize ∧ (searchLock maxSize 8).run s.graph = .ok (some i, s.graph) := by
  have hsettled : AllSteps (step maxSize) Settled Sys.zero passedOn := by
    refine allSteps_cons trivial rfl <| allSteps_cons trivial rfl <| allSteps_cons ?_ rfl <|
      allSteps_cons trivial rfl <| allSteps_cons trivial rfl <| allSteps_cons trivial rfl <|
      allSteps_cons trivial rfl <| allSteps_cons ?_ rfl <| allSteps_cons trivial rfl trivial
    all_goals rintro (_ | _ | _ | u) hu <;> cases hu
  exact ⟨_, _, rfl, hsettled, rfl,
    unlock_after_finds_entry maxSize passedOn _ _ rfl hsettled 2 8 rfl⟩

/-- The thread `2` waits for the mutex; it is locked, and registered, before the `unlock_after` of
the thread `1`. -/
def lateRelease : List Step :=
  [.lockBefore 1 8, .lock 1 8, .lockAfter 1 8, .lockBefore 2 8, .unlock 1 8, .lock 2 8,
    .lockAfter 2 8, .unlockAfter 1 8, .unlock 2 8]

/-- **A late `unlock_after`** clears the entry of the new owner: the next one finds none. -/
theorem late_unlock_after :
    ∃ rs s, (runAll (step maxSize) lateRelease).run Sys.zero = .ok (rs, s) ∧
    s.phase 2 = .unlocked 8 ∧
      (searchLock maxSize 8).run s.graph = .ok (none, s.graph) :=
  ⟨_, _, rfl, rfl, rfl⟩

end KvStore.Deadlock
