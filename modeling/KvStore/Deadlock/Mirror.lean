import KvStore.Deadlock.Registered

set_option autoImplicit false

/-! # The detector as a mirror of the locks

Edges name the owner that `lock_before` has seen, and nobody corrects them when a mutex changes
hands: with two threads waiting, the one that stays behind points to the old owner (`stale_edge`).

A mutex is handed over cleanly when at most one thread waits for it, when that thread gets it before
the `unlock_after` of the old owner, and when its `lock_after` comes after that hook. `Orderly` says
this of each step, and `Mode` lists the states in which a mutex can then be. Between the hooks the
graph and the table are the ones of the real locks (`mirrors_of_orderly`). -/

namespace KvStore.Deadlock

open Function KvStore.Lib

variable {max : Nat} {ph : Phase}

/-- The thread `t` is blocked on the mutex, which is held by `u`. -/
def Blocked (s : Sys) (t lock u : Nat) : Prop := s.phase t = .before lock ∧ s.owner lock = some u

/-- No thread is between a real lock or unlock and the hook that follows it. -/
def Quiet (s : Sys) : Prop := ∀ t lock, s.phase t ≠ .locked lock ∧ s.phase t ≠ .unlocked lock

/-- The lock table has an entry for the mutex, with the owner `u`. -/
def TaskGraph.Records (g : TaskGraph) (lock u : Nat) : Prop :=
  ∃ i < g.lockidx, (g.locklist i).lockId = lock ∧ (g.locklist i).id = u

/-- **What a step has to wait for.** -/
def Orderly (s : Sys) : Step → Prop
  | .lockBefore t lock =>
      (∀ u, s.phase u ≠ .locked lock ∧ s.phase u ≠ .unlocked lock) ∧ s.owner lock ≠ some t ∧
        (s.owner lock = none → ∀ u, s.phase u ≠ .before lock)
  | .lockAfter _ lock => ∀ u, s.phase u ≠ .unlocked lock
  | .unlock _ lock => ∀ u v, s.phase u = .before lock → s.phase v = .before lock → u = v
  | .unlockAfter _ lock => ∀ u, s.phase u ≠ .before lock
  | .lock _ _ => True

/-- All threads but those of the list have nothing to do with the mutex. -/
def Alone (s : Sys) (lock : Nat) (ts : List Nat) : Prop :=
  ∀ u, u ∉ ts → (s.phase u).lock? ≠ some lock

/-- **The states of a mutex** in an orderly run. -/
inductive Mode (s : Sys) (lock : Nat) : Prop where
  | idle (howner : s.owner lock = none) (halone : Alone s lock [])
        (hentry : s.graph.entry lock = none)
  /-- `t` is about to get it. -/
  | pending (t : Nat) (howner : s.owner lock = none) (ht : s.phase t = .before lock)
      (halone : Alone s lock [t]) (hentry : s.graph.entry lock = none)
        (hedges : s.graph.edges t = [])
  /-- `t` has got it, and is about to register. -/
  | taking (t : Nat) (howner : s.owner lock = some t) (ht : s.phase t = .locked lock)
      (halone : Alone s lock [t]) (hentry : s.graph.entry lock = none)
        (hedges : s.graph.edges t = [])
  /-- `u` holds it, and `W` wait. -/
  | held (u : Nat) (W : Finset Nat) (howner : s.owner lock = some u)
      (hquiet : ∀ t, s.phase t ≠ .locked lock ∧ s.phase t ≠ .unlocked lock)
      (hW : ∀ t, t ∈ W ↔ s.phase t = .before lock)
        (hentry : s.graph.entry lock = some (u, (W.card : Int)))
      (hedges : ∀ t ∈ W, s.graph.edges t = [u])
  /-- `u` has given it back, and nobody waits. -/
  | releasing (u : Nat) (howner : s.owner lock = none) (hu : s.phase u = .unlocked lock)
      (halone : Alone s lock [u]) (hentry : s.graph.entry lock = some (u, 0))
  /-- `u` has given it back, and `t` is about to get it. -/
  | handing (u t : Nat) (howner : s.owner lock = none) (hu : s.phase u = .unlocked lock)
      (ht : s.phase t = .before lock) (halone : Alone s lock [u, t])
      (hentry : s.graph.entry lock = some (u, 1)) (hedges : s.graph.edges t = [u])
  /-- `t` has got it, and the `unlock_after` of `u` is to come. -/
  | handed (u t : Nat) (howner : s.owner lock = some t) (hu : s.phase u = .unlocked lock)
      (ht : s.phase t = .locked lock) (halone : Alone s lock [u, t])
      (hentry : s.graph.entry lock = some (u, 1)) (hedges : s.graph.edges t = [u])
  /-- `t` has got it, and is about to be recorded in the place of `u`. -/
  | passing (u t : Nat) (howner : s.owner lock = some t) (ht : s.phase t = .locked lock)
      (halone : Alone s lock [t]) (hentry : s.graph.entry lock = some (u, 1))
      (hedges : s.graph.edges t = [u])

/-- **The mirror**: every mutex is in one of these states, and a thread that does not wait has no
edge. -/
structure Mirror (max : Nat) (s : Sys) : Prop where
  sound : Sound max s
  mode : ∀ lock, Mode s lock
  edges : ∀ t, s.phase t = .run ∨ (∃ lock, s.phase t = .unlocked lock) → s.graph.edges t = []

theorem mirror_zero : Mirror max Sys.zero where
  sound := sound_zero
  mode lock := by
    refine .idle rfl (fun _ _ h => absurd h.symm (Option.some_ne_none _)) ?_
    unfold TaskGraph.entry
    split_ifs <;> rfl
  edges t _ := rfl

section Frame

variable {s s' : Sys} {t lock : Nat}

/-- What a step of `t` with one mutex leaves as it is for another. -/
structure Apart (s s' : Sys) (t m : Nat) : Prop where
  owner : s'.owner m = s.owner m
  entry : s'.graph.entry m = s.graph.entry m
  phase : ∀ u, u ≠ t → s'.phase u = s.phase u
  edges : ∀ u, u ≠ t → s'.graph.edges u = s.graph.edges u
  before : (s.phase t).lock? ≠ some m
  after : (s'.phase t).lock? ≠ some m

variable {m : Nat}

/-- A phase that has to do with the mutex is one of another thread. -/
theorem Apart.phase_iff (h : Apart s s' t m) (hph : ph.lock? = some m) (u : Nat) :
    s'.phase u = ph ↔ s.phase u = ph := by
  by_cases hu : u = t
  · subst hu
    refine iff_of_false (fun heq => ?_) fun heq => ?_
    · exact h.after (by rw [heq, hph])
    · exact h.before (by rw [heq, hph])
  · rw [h.phase u hu]

theorem Apart.alone (h : Apart s s' t m) {ts : List Nat} (ha : Alone s m ts) : Alone s' m ts := by
  intro u hu
  by_cases hut : u = t
  · rw [hut]
    exact h.after
  · rw [h.phase u hut]
    exact ha u hu

theorem Apart.edges_eq (h : Apart s s' t m) (hph : ph.lock? = some m) {u : Nat}
    (hu : s.phase u = ph) : s'.graph.edges u = s.graph.edges u := by
  refine h.edges u ?_
  rintro rfl
  exact h.before (by rw [hu, hph])

/-- **The frame rule** of a mutex. -/
theorem Apart.mode (h : Apart s s' t m) (hmode : Mode s m) : Mode s' m := by
  cases hmode with
  | idle howner halone hentry =>
      exact .idle (h.owner.trans howner) (h.alone halone) (h.entry.trans hentry)
  | pending t' howner ht halone hentry hedges =>
      exact .pending t' (h.owner.trans howner) ((h.phase_iff rfl t').mpr ht) (h.alone halone)
        (h.entry.trans hentry) ((h.edges_eq rfl ht).trans hedges)
  | taking t' howner ht halone hentry hedges =>
      exact .taking t' (h.owner.trans howner) ((h.phase_iff rfl t').mpr ht) (h.alone halone)
        (h.entry.trans hentry) ((h.edges_eq rfl ht).trans hedges)
  | held u W howner hquiet hW hentry hedges =>
      refine .held u W (h.owner.trans howner) (fun v => ?_) (fun v => ?_) (h.entry.trans hentry) ?_
      · rw [Ne, Ne, h.phase_iff rfl, h.phase_iff rfl]
        exact hquiet v
      · rw [h.phase_iff rfl]
        exact hW v
      · intro v hv
        rw [h.edges_eq rfl ((hW v).mp hv)]
        exact hedges v hv
  | releasing u howner hu halone hentry =>
      exact .releasing u (h.owner.trans howner) ((h.phase_iff rfl u).mpr hu) (h.alone halone)
        (h.entry.trans hentry)
  | handing u t' howner hu ht halone hentry hedges =>
      exact .handing u t' (h.owner.trans howner) ((h.phase_iff rfl u).mpr hu)
        ((h.phase_iff rfl t').mpr ht) (h.alone halone) (h.entry.trans hentry)
        ((h.edges_eq rfl ht).trans hedges)
  | handed u t' howner hu ht halone hentry hedges =>
      exact .handed u t' (h.owner.trans howner) ((h.phase_iff rfl u).mpr hu)
        ((h.phase_iff rfl t').mpr ht) (h.alone halone) (h.entry.trans hentry)
        ((h.edges_eq rfl ht).trans hedges)
  | passing u t' howner ht halone hentry hedges =>
      exact .passing u t' (h.owner.trans howner) ((h.phase_iff rfl t').mpr ht) (h.alone halone)
        (h.entry.trans hentry) ((h.edges_eq rfl ht).trans hedges)

/-- The thread of a step, and its mutex. -/
def Step.thread : Step → Nat
  | .lockBefore t _ => t
  | .lock t _ => t
  | .lockAfter t _ => t
  | .unlock t _ => t
  | .unlockAfter t _ => t

def Step.mutex : Step → Nat
  | .lockBefore _ lock => lock
  | .lock _ lock => lock
  | .lockAfter _ lock => lock
  | .unlock _ lock => lock
  | .unlockAfter _ lock => lock

/-- The parts of `Apart` that come from the entries and the edges. -/
theorem apart_of_update (hphase : s'.phase = update s.phase t ph)
    (howner : s'.owner m = s.owner m) (hentry : s'.graph.entry m = s.graph.entry m)
    (hedges : ∀ u, u ≠ t → s'.graph.edges u = s.graph.edges u)
    (hbefore : (s.phase t).lock? ≠ some m) (hafter : ph.lock? ≠ some m) : Apart s s' t m := by
  refine ⟨howner, hentry, fun u hu => phase_of_ne hphase hu, hedges, hbefore, ?_⟩
  rw [hphase, update_self]
  exact hafter

/-- **A step leaves the other mutexes alone.** -/
theorem Effect.apart {o : Step} (h : Effect max s s' o) (hm : m ≠ o.mutex) :
    Apart s s' o.thread m := by
  cases o with
  | lockBefore t lock =>
      change m ≠ lock at hm
      obtain ⟨hrun, -, howner, hphase, hnone, hsome⟩ := h
      have hgraph : s'.graph.entry m = s.graph.entry m ∧
          ∀ u, u ≠ t → s'.graph.edges u = s.graph.edges u := by
        cases hentry : s.graph.entry lock with
        | none =>
            rw [hnone hentry]
            exact ⟨rfl, fun _ _ => rfl⟩
        | some p =>
            obtain ⟨-, hentry', hedges', -⟩ := hsome p.1 p.2 hentry
            rw [hentry', hedges']
            exact ⟨update_of_ne hm _ _, fun u hu => update_of_ne hu _ _⟩
      refine apart_of_update (t := t) hphase (congrFun howner m) hgraph.1 hgraph.2 ?_ ?_
      · rw [hrun]
        exact (Option.some_ne_none _).symm
      · exact fun heq => hm (Option.some.inj heq).symm
  | lock t lock =>
      change m ≠ lock at hm
      obtain ⟨hbefore, -, hgraph, howner, hphase⟩ := h
      refine apart_of_update (t := t) hphase ?_ (by rw [hgraph]) (fun u _ => by rw [hgraph]) ?_ ?_
      · rw [howner, update_of_ne hm]
      · rw [hbefore]
        exact fun heq => hm (Option.some.inj heq).symm
      · exact fun heq => hm (Option.some.inj heq).symm
  | lockAfter t lock =>
      change m ≠ lock at hm
      obtain ⟨hlocked, howner, hphase, hnone, hsome⟩ := h
      have hgraph : s'.graph.entry m = s.graph.entry m ∧
          ∀ u, u ≠ t → s'.graph.edges u = s.graph.edges u := by
        cases hentry : s.graph.entry lock with
        | none =>
            obtain ⟨-, hentry', hedges', -⟩ := hnone hentry
            rw [hentry', hedges']
            exact ⟨update_of_ne hm _ _, fun _ _ => rfl⟩
        | some p =>
            obtain ⟨-, hentry', hedges', -⟩ := hsome p.1 p.2 hentry
            rw [hentry', hedges']
            exact ⟨update_of_ne hm _ _, fun u hu => update_of_ne hu _ _⟩
      refine apart_of_update (t := t) hphase (congrFun howner m) hgraph.1 hgraph.2 ?_ ?_
      · rw [hlocked]
        exact fun heq => hm (Option.some.inj heq).symm
      · exact (Option.some_ne_none _).symm
  | unlock t lock =>
      change m ≠ lock at hm
      obtain ⟨hrun, -, hgraph, howner, hphase⟩ := h
      refine apart_of_update (t := t) hphase ?_ (by rw [hgraph]) (fun u _ => by rw [hgraph]) ?_ ?_
      · rw [howner, update_of_ne hm]
      · rw [hrun]
        exact (Option.some_ne_none _).symm
      · exact fun heq => hm (Option.some.inj heq).symm
  | unlockAfter t lock =>
      change m ≠ lock at hm
      obtain ⟨hunlocked, howner, hphase, u, d, -, hshows⟩ := h
      refine apart_of_update (t := t) hphase (congrFun howner m) ?_
        (fun u _ => by rw [hshows.edges]) ?_ ?_
      · rw [hshows.entry]
        split_ifs
        · exact update_of_ne hm _ _
        · rfl
      · rw [hunlocked]
        exact fun heq => hm (Option.some.inj heq).symm
      · exact (Option.some_ne_none _).symm

end Frame

/-! ## Orderly steps -/

section Steps

variable {s s' : Sys} {t lock : Nat}

/-- It is enough to look at the mutex and the thread of the step. -/
theorem Mirror.of_effect {o : Step} (h : Mirror max s) (heffect : Effect max s s' o)
    (hmode : Mode s' o.mutex)
    (hedges : s'.phase o.thread = .run ∨ (∃ lock, s'.phase o.thread = .unlocked lock) →
      s'.graph.edges o.thread = []) : Mirror max s' := by
  refine ⟨h.sound.effect heffect, fun m => ?_, fun u hu => ?_⟩
  · by_cases hm : m = o.mutex
    · rwa [hm]
    · exact (heffect.apart hm).mode (h.mode m)
  · by_cases hut : u = o.thread
    · rw [hut] at hu ⊢
      exact hedges hu
    · have hapart := heffect.apart (m := o.mutex + 1) (by omega)
      rw [hapart.edges u hut]
      rw [hapart.phase u hut] at hu
      exact h.edges u hu

/-- A phase of the only thread that has to do with the mutex. -/
theorem Alone.eq (h : Alone s lock [t]) {u : Nat} (hu : s.phase u = ph)
    (hph : ph.lock? = some lock) : u = t := by
  by_contra hut
  exact h u (by simpa using hut) (by rw [hu, hph])

/-- The thread `t` moves, and those of `ts'` are the ones of `ts` with `t`, or without. -/
theorem Alone.move {ts ts' : List Nat} (h : Alone s lock ts)
    (hphase : s'.phase = update s.phase t ph) (hts : ∀ u, u ∉ ts' → u ∉ ts)
    (ht : t ∉ ts' → ph.lock? ≠ some lock) : Alone s' lock ts' := by
  intro u hu
  by_cases hut : u = t
  · subst hut
    rw [hphase, update_self]
    exact ht hu
  · rw [phase_of_ne hphase hut]
    exact h u (hts u hu)

theorem Mirror.lockBefore (h : Mirror max s) (heffect : Effect max s s' (.lockBefore t lock))
    (horderly : Orderly s (.lockBefore t lock)) : Mirror max s' := by
  have hall := heffect
  obtain ⟨hrun, hlock, howner, hphase, hnone, hsome⟩ := heffect
  obtain ⟨hwindow, hnotme, hnowait⟩ := horderly
  have hself : s'.phase t = .before lock := by rw [hphase, update_self]
  have hfree : s.graph.edges t = [] := h.edges t (Or.inl hrun)
  have hmode : Mode s' lock := by
    cases h.mode lock with
    | idle howner₀ halone hentry =>
        refine .pending t (howner ▸ howner₀) hself ?_ ?_ ?_
        · exact halone.move hphase (fun _ _ => List.not_mem_nil) (fun hmem => absurd (by simp) hmem)
        · rw [hnone hentry, hentry]
        · rw [hnone hentry, hfree]
    | pending t' howner₀ ht halone hentry hedges => exact absurd ht (hnowait howner₀ t')
    | taking t' howner₀ ht halone hentry hedges => exact absurd ht (hwindow t').1
    | releasing u howner₀ hu halone hentry => exact absurd hu (hwindow u).2
    | handing u t' howner₀ hu ht halone hentry hedges => exact absurd hu (hwindow u).2
    | handed u t' howner₀ hu ht halone hentry hedges => exact absurd hu (hwindow u).2
    | passing u t' howner₀ ht halone hentry hedges => exact absurd ht (hwindow t').1
    | held u W howner₀ hquiet hW hentry hedges =>
        have hnew : t ∉ W := fun hmem => by
          rw [(hW t).mp hmem] at hrun
          cases hrun
        have htu : t ≠ u := by
          rintro rfl
          exact hnotme howner₀
        obtain ⟨-, hentry', hedges', -⟩ := hsome u W.card hentry
        refine .held u (insert t W) (howner ▸ howner₀) (fun v => ?_) (fun v => ?_) ?_ ?_
        · by_cases hv : v = t
          · rw [hv, hself]
            exact ⟨(fun heq => by cases heq), (fun heq => by cases heq)⟩
          · rw [phase_of_ne hphase hv]
            exact hquiet v
        · by_cases hv : v = t
          · rw [hv, hself]
            exact iff_of_true (Finset.mem_insert_self t W) rfl
          · rw [phase_of_ne hphase hv, Finset.mem_insert, or_iff_right hv]
            exact hW v
        · rw [hentry', update_self, Finset.card_insert_of_notMem hnew]
          norm_cast
        · intro v hv
          rw [hedges']
          rcases Finset.mem_insert.mp hv with rfl | hv
          · rw [update_self, hfree, linkTo, if_neg (by simp [htu])]
            rfl
          · have hvt : v ≠ t := fun heq => hnew (heq ▸ hv)
            rw [update_of_ne hvt]
            exact hedges v hv
  refine h.of_effect hall hmode ?_
  rintro (heq | ⟨m, heq⟩)
  · exact absurd (hself.symm.trans heq) (fun hne => by cases hne)
  · exact absurd (hself.symm.trans heq) (fun hne => by cases hne)

theorem Mirror.realLock (h : Mirror max s) (heffect : Effect max s s' (.lock t lock)) :
    Mirror max s' := by
  have hall := heffect
  obtain ⟨hbefore, hfree, hgraph, howner, hphase⟩ := heffect
  have hself : s'.phase t = .locked lock := by rw [hphase, update_self]
  have hown : s'.owner lock = some t := by rw [howner, update_self]
  have hmode : Mode s' lock := by
    cases h.mode lock with
    | idle howner₀ halone hentry => exact absurd (by rw [hbefore]; rfl) (halone t List.not_mem_nil)
    | pending t' howner₀ ht halone hentry hedges =>
        obtain rfl := halone.eq hbefore rfl
        refine .taking t hown hself (halone.move hphase (fun _ hu => hu) ?_) ?_ ?_
        · exact fun hmem => absurd (by simp) hmem
        · rw [hgraph, hentry]
        · rw [hgraph, hedges]
    | handing u t' howner₀ hu ht halone hentry hedges =>
        have htu : t ≠ u := by
          rintro rfl
          rw [hu] at hbefore
          cases hbefore
        obtain rfl : t = t' := by
          by_contra hne
          exact halone t (by simp [htu, hne]) (by rw [hbefore]; rfl)
        refine .handed u t hown ?_ hself (halone.move hphase (fun _ hu => hu) ?_) ?_ ?_
        · rw [phase_of_ne hphase htu.symm, hu]
        · exact fun hmem => absurd (by simp) hmem
        · rw [hgraph, hentry]
        · rw [hgraph, hedges]
    | taking t' howner₀ ht halone hentry hedges => exact absurd (hfree.symm.trans howner₀) (by simp)
    | held u W howner₀ hquiet hW hentry hedges => exact absurd (hfree.symm.trans howner₀) (by simp)
    | handed u t' howner₀ hu ht halone hentry hedges =>
        exact absurd (hfree.symm.trans howner₀) (by simp)
    | passing u t' howner₀ ht halone hentry hedges =>
        exact absurd (hfree.symm.trans howner₀) (by simp)
    | releasing u howner₀ hu halone hentry =>
        obtain rfl := halone.eq hbefore rfl
        rw [hu] at hbefore
        cases hbefore
  refine h.of_effect hall hmode ?_
  rintro (heq | ⟨m, heq⟩)
  · exact absurd (hself.symm.trans heq) (fun hne => by cases hne)
  · exact absurd (hself.symm.trans heq) (fun hne => by cases hne)

/-- The mutex is held by `t`, and nobody waits. -/
theorem mode_held_empty (hphase : s'.phase = update s.phase t ph)
    (hph : ph = .run) (howner : s'.owner lock = some t) (halone : Alone s lock [t])
    (hentry : s'.graph.entry lock = some (t, 0)) : Mode s' lock := by
  have hnobody : Alone s' lock [] := by
    subst hph
    intro u _
    by_cases hut : u = t
    · rw [hut, hphase, update_self]
      exact (Option.some_ne_none _).symm
    · rw [phase_of_ne hphase hut]
      exact halone u (by simpa using hut)
  have hnot : ∀ {ph' : Phase}, ph'.lock? = some lock → ∀ u, s'.phase u ≠ ph' :=
    fun hlock u heq => hnobody u List.not_mem_nil (by rw [heq, hlock])
  refine .held t ∅ howner (fun u => ⟨hnot rfl u, hnot rfl u⟩) (fun u => ?_) hentry (fun u hu => ?_)
  · exact iff_of_false (Finset.notMem_empty u) (hnot rfl u)
  · exact absurd hu (Finset.notMem_empty u)

theorem Mirror.lockAfter (h : Mirror max s) (heffect : Effect max s s' (.lockAfter t lock))
    (horderly : Orderly s (.lockAfter t lock)) : Mirror max s' := by
  have hall := heffect
  obtain ⟨hlocked, howner, hphase, hnone, hsome⟩ := heffect
  have hown : s'.owner lock = some t := by
    rw [howner]
    exact h.sound.owner_of_locked t lock hlocked
  -- the thread is recorded as the owner, and has no edge any more
  have hdone : Mode s' lock ∧ s'.graph.edges t = [] := by
    cases h.mode lock with
    | taking t' howner₀ ht halone hentry hedges =>
        obtain rfl := halone.eq hlocked rfl
        obtain ⟨-, hentry', hedges', -⟩ := hnone hentry
        refine ⟨mode_held_empty hphase rfl hown halone ?_, hedges' ▸ hedges⟩
        rw [hentry', update_self]
    | passing u t' howner₀ ht halone hentry hedges =>
        obtain rfl := halone.eq hlocked rfl
        obtain ⟨-, hentry', hedges', -⟩ := hsome u 1 hentry
        refine ⟨mode_held_empty hphase rfl hown halone ?_, ?_⟩
        · rw [hentry', update_self]
          rfl
        · rw [hedges', update_self, hedges, List.erase_cons_head]
    | idle howner₀ halone hentry => exact absurd (by rw [hlocked]; rfl) (halone t List.not_mem_nil)
    | pending t' howner₀ ht halone hentry hedges =>
        obtain rfl := halone.eq hlocked rfl
        exact absurd (hlocked.symm.trans ht) (fun hne => by cases hne)
    | held u W howner₀ hquiet hW hentry hedges => exact absurd hlocked (hquiet t).1
    | releasing u howner₀ hu halone hentry => exact absurd hu (horderly u)
    | handing u t' howner₀ hu ht halone hentry hedges => exact absurd hu (horderly u)
    | handed u t' howner₀ hu ht halone hentry hedges => exact absurd hu (horderly u)
  exact h.of_effect hall hdone.1 fun _ => hdone.2

theorem Mirror.realUnlock (h : Mirror max s) (heffect : Effect max s s' (.unlock t lock))
    (horderly : Orderly s (.unlock t lock)) : Mirror max s' := by
  have hall := heffect
  obtain ⟨hrun, hheld, hgraph, howner, hphase⟩ := heffect
  have hself : s'.phase t = .unlocked lock := by rw [hphase, update_self]
  have hown : s'.owner lock = none := by rw [howner, update_self]
  have hmode : Mode s' lock := by
    cases h.mode lock with
    | held u W howner₀ hquiet hW hentry hedges =>
        obtain rfl : t = u := Option.some.inj (hheld.symm.trans howner₀)
        have hother : ∀ v, v ∉ W → (s.phase v).lock? ≠ some lock := by
          intro v hv heq
          cases hv' : s.phase v with
          | run => rw [hv'] at heq; cases heq
          | before m =>
              rw [hv'] at heq
              cases heq
              exact hv ((hW v).mpr hv')
          | locked m =>
              rw [hv'] at heq
              cases heq
              exact (hquiet v).1 hv'
          | unlocked m =>
              rw [hv'] at heq
              cases heq
              exact (hquiet v).2 hv'
        rcases W.eq_empty_or_nonempty with rfl | ⟨v, hv⟩
        · refine .releasing t hown hself ?_ (by rw [hgraph, hentry]; rfl)
          have halone : Alone s lock [] := fun v _ => hother v (Finset.notMem_empty v)
          exact halone.move hphase (fun _ _ => List.not_mem_nil) (fun hmem => absurd (by simp) hmem)
        · -- the only thread that waits
          have hW' : W = {v} := by
            refine Finset.eq_singleton_iff_unique_mem.mpr ⟨hv, fun w hw => ?_⟩
            exact horderly w v ((hW w).mp hw) ((hW v).mp hv)
          have hvt : v ≠ t := by
            rintro rfl
            rw [(hW v).mp hv] at hrun
            cases hrun
          have halone : Alone s lock [v] := fun w hw => hother w (by rw [hW']; simpa using hw)
          refine .handing t v hown hself ?_ ?_ ?_ ?_
          · rw [phase_of_ne hphase hvt]
            exact (hW v).mp hv
          · refine halone.move hphase (fun w hw => ?_) (fun hmem => absurd (by simp) hmem)
            exact fun hmem => hw (List.mem_cons_of_mem t hmem)
          · rw [hgraph, hentry, hW']
            rfl
          · rw [hgraph]
            exact hedges v hv
    | idle howner₀ halone hentry => exact absurd (hheld.symm.trans howner₀) (by simp)
    | pending t' howner₀ ht halone hentry hedges =>
        exact absurd (hheld.symm.trans howner₀) (by simp)
    | releasing u howner₀ hu halone hentry => exact absurd (hheld.symm.trans howner₀) (by simp)
    | handing u t' howner₀ hu ht halone hentry hedges =>
        exact absurd (hheld.symm.trans howner₀) (by simp)
    | taking t' howner₀ ht halone hentry hedges =>
        obtain rfl : t = t' := Option.some.inj (hheld.symm.trans howner₀)
        exact absurd (hrun.symm.trans ht) (fun hne => by cases hne)
    | handed u t' howner₀ hu ht halone hentry hedges =>
        obtain rfl : t = t' := Option.some.inj (hheld.symm.trans howner₀)
        exact absurd (hrun.symm.trans ht) (fun hne => by cases hne)
    | passing u t' howner₀ ht halone hentry hedges =>
        obtain rfl : t = t' := Option.some.inj (hheld.symm.trans howner₀)
        exact absurd (hrun.symm.trans ht) (fun hne => by cases hne)
  refine h.of_effect hall hmode fun _ => ?_
  rw [hgraph]
  exact h.edges t (Or.inl hrun)

theorem Mirror.unlockAfter (h : Mirror max s) (heffect : Effect max s s' (.unlockAfter t lock))
    (horderly : Orderly s (.unlockAfter t lock)) : Mirror max s' := by
  have hall := heffect
  obtain ⟨hunlocked, howner, hphase, u, d, hsome, hshows⟩ := heffect
  have hself : s'.phase t = .run := by rw [hphase, update_self]
  have hmode : Mode s' lock := by
    cases h.mode lock with
    | releasing u' howner₀ hu halone hentry =>
        obtain rfl := halone.eq hunlocked rfl
        obtain ⟨rfl, rfl⟩ := Prod.mk.inj (Option.some.inj (hsome.symm.trans hentry))
        refine .idle (howner ▸ howner₀) ?_ ?_
        · refine fun v _ => ?_
          by_cases hvt : v = u
          · rw [hvt, hself]
            exact (Option.some_ne_none _).symm
          · rw [phase_of_ne hphase hvt]
            exact halone v (by simpa using hvt)
        · rw [hshows.entry, if_pos rfl, update_self]
    | handed u' t' howner₀ hu ht halone hentry hedges =>
        have htt' : t ≠ t' := by
          rintro rfl
          exact absurd (hunlocked.symm.trans ht) (fun hne => by cases hne)
        obtain rfl : t = u' := by
          by_contra hne
          exact halone t (by simp [hne, htt']) (by rw [hunlocked]; rfl)
        obtain ⟨rfl, rfl⟩ := Prod.mk.inj (Option.some.inj (hsome.symm.trans hentry))
        rw [if_neg (by decide)] at hshows
        refine .passing u t' (howner ▸ howner₀) ?_ ?_ ?_ ?_
        · rw [phase_of_ne hphase htt'.symm]
          exact ht
        · intro v hv
          by_cases hvu : v = u
          · rw [hvu, hself]
            exact (Option.some_ne_none _).symm
          · rw [phase_of_ne hphase hvu]
            exact halone v (by simpa [hvu] using hv)
        · rw [hshows.entry, hentry]
        · rw [hshows.edges, hedges]
    | idle howner₀ halone hentry =>
        exact absurd (by rw [hunlocked]; rfl) (halone t List.not_mem_nil)
    | pending t' howner₀ ht halone hentry hedges => exact absurd ht (horderly t')
    | handing u' t' howner₀ hu ht halone hentry hedges => exact absurd ht (horderly t')
    | held u' W howner₀ hquiet hW hentry hedges => exact absurd hunlocked (hquiet t).2
    | taking t' howner₀ ht halone hentry hedges =>
        obtain rfl := halone.eq hunlocked rfl
        exact absurd (hunlocked.symm.trans ht) (fun hne => by cases hne)
    | passing u' t' howner₀ ht halone hentry hedges =>
        obtain rfl := halone.eq hunlocked rfl
        exact absurd (hunlocked.symm.trans ht) (fun hne => by cases hne)
  refine h.of_effect hall hmode fun _ => ?_
  rw [hshows.edges]
  exact h.edges t (Or.inr ⟨lock, hunlocked⟩)

/-- **One orderly step** keeps the mirror. -/
theorem Mirror.effect {o : Step} (h : Mirror max s) (horderly : Orderly s o)
    (heffect : Effect max s s' o) : Mirror max s' := by
  cases o with
  | lockBefore t lock => exact h.lockBefore heffect horderly
  | lock t lock => exact h.realLock heffect
  | lockAfter t lock => exact h.lockAfter heffect horderly
  | unlock t lock => exact h.realUnlock heffect horderly
  | unlockAfter t lock => exact h.unlockAfter heffect horderly

end Steps

/-! ## Between the hooks -/

section Quiet

variable {s : Sys}

/-- In a quiet state a mutex is idle, wanted by one thread, or held. -/
theorem Mirror.quiet_mode (h : Mirror max s) (hquiet : Quiet s) (lock : Nat) :
    (s.owner lock = none ∧ s.graph.entry lock = none ∧
      ∀ t, s.phase t = .before lock → s.graph.edges t = []) ∨
    ∃ u, ∃ W : Finset Nat, s.owner lock = some u ∧ (∀ t, t ∈ W ↔ s.phase t = .before lock) ∧
      s.graph.entry lock = some (u, (W.card : Int)) ∧ ∀ t ∈ W, s.graph.edges t = [u] := by
  cases h.mode lock with
  | idle howner halone hentry =>
      refine Or.inl ⟨howner, hentry, fun t ht => ?_⟩
      exact absurd (by rw [ht]; rfl) (halone t List.not_mem_nil)
  | pending t howner ht halone hentry hedges =>
      refine Or.inl ⟨howner, hentry, fun v hv => ?_⟩
      obtain rfl := halone.eq hv rfl
      exact hedges
  | held u W howner hwindow hW hentry hedges => exact Or.inr ⟨u, W, howner, hW, hentry, hedges⟩
  | taking t howner ht halone hentry hedges => exact absurd ht (hquiet t lock).1
  | releasing u howner hu halone hentry => exact absurd hu (hquiet u lock).2
  | handing u t howner hu ht halone hentry hedges => exact absurd hu (hquiet u lock).2
  | handed u t howner hu ht halone hentry hedges => exact absurd hu (hquiet u lock).2
  | passing u t howner ht halone hentry hedges => exact absurd ht (hquiet t lock).1

theorem Mirror.hasEdge_iff (h : Mirror max s) (hquiet : Quiet s) (t u : Nat) :
    s.graph.HasEdge t u ↔ ∃ lock, Blocked s t lock u := by
  rw [h.sound.detector.graph.hasEdge_iff]
  constructor
  · intro hmem
    cases ht : s.phase t with
    | run =>
        rw [h.edges t (Or.inl ht)] at hmem
        exact absurd hmem List.not_mem_nil
    | locked lock => exact absurd ht (hquiet t lock).1
    | unlocked lock => exact absurd ht (hquiet t lock).2
    | before lock =>
        refine ⟨lock, ht, ?_⟩
        rcases h.quiet_mode hquiet lock with ⟨-, -, hnone⟩ | ⟨v, W, howner, hW, -, hedges⟩
        · rw [hnone t ht] at hmem
          exact absurd hmem List.not_mem_nil
        · rw [hedges t ((hW t).mpr ht)] at hmem
          rw [howner, List.mem_singleton.mp hmem]
  · rintro ⟨lock, ht, howner⟩
    rcases h.quiet_mode hquiet lock with ⟨hfree, -, -⟩ | ⟨v, W, howner', hW, -, hedges⟩
    · rw [hfree] at howner
      cases howner
    · rw [hedges t ((hW t).mpr ht), Option.some.inj (howner.symm.trans howner')]
      exact List.mem_singleton_self v

theorem Mirror.entry_owner (h : Mirror max s) (hquiet : Quiet s) {lock u : Nat} :
    (∃ d, s.graph.entry lock = some (u, d)) ↔ s.owner lock = some u := by
  rcases h.quiet_mode hquiet lock with ⟨hfree, hnone, -⟩ | ⟨v, W, howner, -, hentry, -⟩
  · rw [hfree, hnone]
    simp
  · rw [howner, hentry]
    simp

end Quiet

/-- **The detector mirrors the real locks**, in every quiet state of an orderly run: the edges are
the waits for an owner, the owners are recorded, and the threads that wait are counted. -/
theorem mirrors_of_orderly (max : Nat) (steps : List Step) (rs : List Unit) (s : Sys)
    (hrun : (runAll (step max) steps).run Sys.zero = .ok (rs, s))
    (horderly : AllSteps (step max) Orderly Sys.zero steps) (hquiet : Quiet s) :
    (∀ t u, s.graph.HasEdge t u ↔ ∃ lock, Blocked s t lock u) ∧
    (∀ lock u, lock ≠ 0 → (s.graph.Records lock u ↔ s.owner lock = some u)) ∧
    ∀ lock u i, s.owner lock = some u → i < s.graph.lockidx → (s.graph.locklist i).lockId = lock →
      ∃ W : Finset Nat, (∀ t, t ∈ W ↔ Blocked s t lock u) ∧
      (s.graph.locklist i).degress = W.card := by
  have hstep : ∀ o s r s', Mirror max s → Orderly s o → (step max o).run s = .ok (r, s') →
      Mirror max s' :=
    fun o s r s' h horderly ho => h.effect horderly (step_effect h.sound ho)
  have h : Mirror max s := AllSteps.invariant hstep mirror_zero horderly hrun
  have htable := h.sound.detector.table
  refine ⟨h.hasEdge_iff hquiet, fun lock u hlock => ?_, fun lock u i howner _ hid => ?_⟩
  · rw [← h.entry_owner hquiet]
    constructor
    · rintro ⟨i, -, hid, hu⟩
      exact ⟨_, htable.entry_eq_some.mpr ⟨hlock, i, by rw [← hid, ← hu]⟩⟩
    · rintro ⟨d, hsome⟩
      obtain ⟨-, i, hi⟩ := htable.entry_eq_some.mp hsome
      have hne : (s.graph.locklist i).lockId ≠ 0 := by rwa [hi]
      exact ⟨i, (htable.lt i hne).1, by rw [hi], by rw [hi]⟩
  · have hlock := h.sound.owner_ne u lock howner
    rcases h.quiet_mode hquiet lock with ⟨hfree, -, -⟩ | ⟨v, W, howner', hW, hentry, -⟩
    · rw [hfree] at howner
      cases howner
    · have hsome : s.graph.entry lock
          = some ((s.graph.locklist i).id, (s.graph.locklist i).degress) :=
        htable.entry_eq_some.mpr ⟨hlock, i, by rw [← hid]⟩
      refine ⟨W, fun t => ?_, ?_⟩
      · rw [hW t, Blocked, and_iff_left howner]
      · exact congrArg Prod.snd (Option.some.inj (hsome.symm.trans hentry))

/-- The thread `2` waits for the thread `1`. -/
def oneWaits : List Step := [.lockBefore 1 8, .lock 1 8, .lockAfter 1 8, .lockBefore 2 8]

/-- The threads `2` and `3` wait for the thread `1`, which hands the mutex over to the thread
`2`. -/
def twoWait : List Step :=
  [.lockBefore 1 8, .lock 1 8, .lockAfter 1 8, .lockBefore 2 8, .lockBefore 3 8, .unlock 1 8,
    .lock 2 8, .unlockAfter 1 8, .lockAfter 2 8]

theorem mirrors_oneWaits :
    ∃ rs s, (runAll (step maxSize) oneWaits).run Sys.zero = .ok (rs, s) ∧
      AllSteps (step maxSize) Orderly Sys.zero oneWaits ∧ Quiet s ∧
      (s.graph.HasEdge 2 1 ↔ ∃ lock, Blocked s 2 lock 1) := by
  have horderly : AllSteps (step maxSize) Orderly Sys.zero oneWaits := by
    refine allSteps_cons ?_ rfl <| allSteps_cons trivial rfl <| allSteps_cons ?_ rfl <|
      allSteps_cons ?_ rfl trivial
    · exact ⟨fun u => ⟨(fun h => by cases h), (fun h => by cases h)⟩, (fun h => by cases h),
        fun _ u h => by cases h⟩
    · intro u hu
      by_cases hu1 : u = 1
      · subst hu1
        cases hu
      · rw [phase_of_ne rfl hu1, phase_of_ne rfl hu1] at hu
        cases hu
    · refine ⟨fun u => ?_, (fun heq => by cases heq), (fun heq => by cases heq)⟩
      by_cases hu1 : u = 1
      · subst hu1
        exact ⟨(fun heq => by cases heq), (fun heq => by cases heq)⟩
      · rw [phase_of_ne rfl hu1, phase_of_ne rfl hu1, phase_of_ne rfl hu1]
        exact ⟨(fun heq => by cases heq), (fun heq => by cases heq)⟩
  have hrun : ∃ rs s, (runAll (step maxSize) oneWaits).run Sys.zero = .ok (rs, s) ∧ Quiet s := by
    refine ⟨_, _, rfl, fun u lock => ?_⟩
    by_cases hu2 : u = 2
    · subst hu2
      exact ⟨(fun heq => by cases heq), (fun heq => by cases heq)⟩
    rw [phase_of_ne rfl hu2]
    by_cases hu1 : u = 1
    · subst hu1
      exact ⟨(fun heq => by cases heq), (fun heq => by cases heq)⟩
    · rw [phase_of_ne rfl hu1, phase_of_ne rfl hu1, phase_of_ne rfl hu1]
      exact ⟨(fun heq => by cases heq), (fun heq => by cases heq)⟩
  obtain ⟨rs, s, hrun, hquiet⟩ := hrun
  exact ⟨rs, s, hrun, horderly, hquiet,
    (mirrors_of_orderly maxSize oneWaits rs s hrun horderly hquiet).1 2 1⟩

/-- A thread that takes no step is where it was. -/
theorem phase_of_not_mem {steps : List Step} {rs : List Unit} {s s' : Sys} {t : Nat}
    (hs : Sound max s) (hrun : (runAll (step max) steps).run s = .ok (rs, s'))
    (ht : ∀ o ∈ steps, t ≠ o.thread) : Sound max s' ∧ s'.phase t = s.phase t := by
  induction steps generalizing s rs with
  | nil =>
      cases hrun
      exact ⟨hs, rfl⟩
  | cons o steps ih =>
      obtain ⟨r, s₁, rs', ho, hrest, -⟩ := runAll_cons_ok.mp hrun
      have heffect := step_effect hs ho
      obtain ⟨hs', hphase⟩ :=
        ih (hs.effect heffect) hrest fun o' ho' => ht o' (List.mem_cons_of_mem o ho')
      have hapart := heffect.apart (m := o.mutex + 1) (by omega)
      exact ⟨hs', hphase.trans (hapart.phase t (ht o List.mem_cons_self))⟩

/-- What a reader of the state sees of the threads `1`, `2` and `3` and the mutex at `8`. -/
def observe (s : Sys) : (Phase × Phase × Phase) × Option Nat × List Nat :=
  ((s.phase 1, s.phase 2, s.phase 3), s.owner 8, s.graph.edges 3)

theorem observe_twoWait :
    ((runAll (step maxSize) twoWait).run Sys.zero).toOption.map (fun p => observe p.2) =
      some ((.run, .run, .before 8), some 2, [1]) := by
  decide +kernel

/-- **A stale edge**: the thread `3` is blocked on the mutex of the thread `2`, and points to the
thread `1`. -/
theorem stale_edge :
    ∃ rs s, (runAll (step maxSize) twoWait).run Sys.zero = .ok (rs, s) ∧ Quiet s ∧ Blocked s 3 8 2 ∧
      s.graph.HasEdge 3 1 ∧ ¬s.graph.HasEdge 3 2 ∧ ¬∃ lock, Blocked s 3 lock 1 := by
  have hobserve := observe_twoWait
  cases hrun : (runAll (step maxSize) twoWait).run Sys.zero with
  | error e =>
      rw [hrun] at hobserve
      cases hobserve
  | ok p =>
      obtain ⟨rs, s⟩ := p
      rw [hrun] at hobserve
      obtain ⟨hphases, hrest⟩ := Prod.mk.inj (Option.some.inj hobserve)
      obtain ⟨h1, hphases⟩ := Prod.mk.inj hphases
      obtain ⟨h2, h3⟩ := Prod.mk.inj hphases
      obtain ⟨howner, hedges⟩ := Prod.mk.inj hrest
      have hphase : ∀ t, s.phase t = .run ∨ s.phase t = .before 8 := by
        intro t
        by_cases ht1 : t = 1
        · exact Or.inl (ht1 ▸ h1)
        by_cases ht2 : t = 2
        · exact Or.inl (ht2 ▸ h2)
        by_cases ht3 : t = 3
        · exact Or.inr (ht3 ▸ h3)
        refine Or.inl (phase_of_not_mem sound_zero hrun fun o ho => ?_).2
        fin_cases ho <;> assumption
      have hsound := (phase_of_not_mem (t := 4) sound_zero hrun (by decide)).1
      have hedge : ∀ u, s.graph.HasEdge 3 u ↔ u = 1 := by
        intro u
        rw [hsound.detector.graph.hasEdge_iff, hedges, List.mem_singleton]
      refine ⟨rs, s, rfl, fun t lock => ?_, ⟨h3, howner⟩, (hedge 1).mpr rfl, ?_, ?_⟩
      · rcases hphase t with ht | ht <;> rw [ht] <;>
          exact ⟨(fun heq => by cases heq), (fun heq => by cases heq)⟩
      · rw [hedge]
        decide
      · rintro ⟨lock, hbefore, howner'⟩
        obtain rfl := Phase.before.inj (h3.symm.trans hbefore)
        exact absurd (howner.symm.trans howner') (by decide)

end KvStore.Deadlock
