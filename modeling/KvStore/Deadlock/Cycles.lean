import KvStore.Deadlock.Explore

set_option autoImplicit false

/-! # What the search for cycles finds

`check_dead_lock` makes one search along every link, with a mark on the vertex that the link leaves,
until one meets a mark (`Wired.ok_checkDeadLock`). Where there is a cycle, the search along one of
its links meets that mark: `deadlock` is `1` (`cycles_found`). But a search also meets its own marks
when it comes to a vertex for a second time: `deadlock` is `1` without a cycle exactly if, behind
some link, two links lead to the same vertex (`cycles_sound_iff`). -/

namespace KvStore.Deadlock

open Function KvStore.Lib

variable {max : Nat} {g : TaskGraph} {d : Detector}

/-! ## The searches from every vertex -/

/-- The search along the link from `x` to `w`, with a mark on `x` only. -/
def TaskGraph.Trial (g : TaskGraph) (x w : SourceType) (hit : Bool) : Prop :=
  ∃ W, Search g.links [w] {x} W hit

/-- What `deadlock` tells about searches along the links `E`: it is set if one of them had a hit. -/
def TaskGraph.Found (g : TaskGraph) (E : SourceType → SourceType → Prop)
    (before after : Int) : Prop :=
  (after = before ∧ ∀ x w, E x w → g.Trial x w false) ∨
    (after = 1 ∧ ∃ x w, E x w ∧ g.Trial x w true)

section Found

variable {E E' : SourceType → SourceType → Prop} {a b c : Int}

theorem TaskGraph.Found.congr (h : g.Found E a b) (hE : ∀ x w, E x w ↔ E' x w) :
    g.Found E' a b := by
  obtain rfl : E = E' := by
    funext x w
    exact propext (hE x w)
  exact h

theorem TaskGraph.Found.trans (h : g.Found E a b) (h' : g.Found E' b c) :
    g.Found (fun x w => E x w ∨ E' x w) a c := by
  rcases h with ⟨rfl, hall⟩ | ⟨rfl, x, w, hxw, hhit⟩
  · rcases h' with ⟨rfl, hall'⟩ | ⟨rfl, x, w, hxw, hhit⟩
    · refine Or.inl ⟨rfl, fun x w hxw => ?_⟩
      rcases hxw with hxw | hxw
      · exact hall x w hxw
      · exact hall' x w hxw
    · exact Or.inr ⟨rfl, x, w, Or.inr hxw, hhit⟩
  · refine Or.inr ⟨?_, x, w, Or.inl hxw, hhit⟩
    rcases h' with ⟨rfl, -⟩ | ⟨rfl, -⟩ <;> rfl

end Found

/-- The loop that clears the marks leaves the one of the vertex `idx`. -/
theorem ok_clearVisited {idx : Nat} (hnum : d.graph.num ≤ max) (hidx : d.visited idx = 1) :
    Ok (forLoop (clearVisited max idx) d.graph.num 0) d fun _ d' =>
      ∃ v, d' = { d with visited := v } ∧ v idx = 1 ∧ ∀ j < d.graph.num, j ≠ idx → v j = 0 := by
  refine Ok.forLoop
    (fun i d' => ∃ v, d' = { d with visited := v } ∧ v idx = 1 ∧ ∀ j < i, j ≠ idx → v j = 0) _ ?_ ?_
    ⟨d.visited, rfl, hidx, fun j hj => absurd hj (Nat.not_lt_zero j)⟩
  · rintro i - hi d' ⟨v, rfl, hv, hzero⟩
    unfold clearVisited
    by_cases hne : i = idx
    · subst hne
      rw [if_neg (not_not_intro rfl), ok_pure]
      refine ⟨fun _ => ⟨v, rfl, hv, fun j hj hji => hzero j (by omega) hji⟩, fun h => absurd rfl h⟩
    · rw [if_pos hne, ok_bind, ok_setVisited (by omega), ok_pure]
      refine ⟨fun _ => ⟨_, rfl, ?_, fun j hj hji => ?_⟩, fun h => absurd rfl h⟩
      · rwa [update_of_ne (Ne.symm hne)]
      · by_cases hj' : j = i
        · subst hj'
          exact update_self ..
        · rw [update_of_ne hj']
          exact hzero j (by omega) hji
  · rintro d' ⟨v, rfl, hv, hzero⟩
    rw [Nat.zero_add] at hzero
    exact ⟨v, rfl, hv, hzero⟩

/-- The loop that clears the path leaves its first element. -/
theorem ok_clearPath :
    Ok (forLoop (clearPath max) max 1) d
      fun _ d' => ∃ p, d' = { d with path := p } ∧ p 0 = d.path 0 := by
  refine Ok.forLoop (fun _ d' => ∃ p, d' = { d with path := p } ∧ p 0 = d.path 0) _ ?_
    (fun _ h => h) ⟨d.path, rfl, rfl⟩
  rintro i hi hi' d' ⟨p, rfl, hp⟩
  unfold clearPath
  rw [ok_bind, ok_setPath (by omega) (by omega), ok_pure, Int.toNat_natCast]
  refine ⟨fun _ => ⟨_, rfl, ?_⟩, fun h => absurd rfl h⟩
  rwa [update_of_ne (by omega)]

/-- Behind the two loops, one vertex has a mark. -/
theorem marks_eq_singleton {idx : Nat} (hidx : idx < d.graph.num)
    (hmark : d.visited idx = 1) (hzero : ∀ j < d.graph.num, j ≠ idx → d.visited j = 0) :
    d.marks = {(d.graph.list idx).s} ∧ d.unmarked.card + 1 = d.graph.num := by
  have hvisited : ∀ j < d.graph.num, d.visited j = 1 ↔ j = idx := by
    intro j hj
    constructor
    · intro h
      by_contra hne
      rw [hzero j hj hne] at h
      cases h
    · rintro rfl
      exact hmark
  constructor
  · ext x
    constructor
    · rintro ⟨j, hj, rfl, h⟩
      rw [(hvisited j hj).mp h]
      rfl
    · rintro rfl
      exact ⟨idx, hidx, rfl, hmark⟩
  · have herase : d.unmarked = (Finset.range d.graph.num).erase idx := by
      ext j
      rw [mem_unmarked, Finset.mem_erase, Finset.mem_range, and_comm, and_congr_left_iff]
      exact fun hj => not_congr (hvisited j hj)
    rw [herase, Finset.card_erase_add_one (Finset.mem_range.mpr hidx), Finset.card_range]

/-- What holds between the searches along the links of the vertex `idx`. -/
structure Based (max idx : Nat) (d : Detector) : Prop where
  wired : Wired max d.graph
  lt : idx < d.graph.num
  marked : d.visited idx = 1
  path : ∃ j < d.graph.num, d.path 0 = some j

/-- `DFS` along a link, with one mark. -/
theorem Traced.ok_trial (h : Traced max d) {idx fuel : Nat} (hidx : idx < d.graph.num)
    (hk : d.k = 1) (hmarks : d.marks = {(d.graph.list idx).s})
    (hcard : d.unmarked.card + 1 = d.graph.num) {w : SourceType} (hw : d.graph.HasVertex w)
    (hfuel : d.graph.num ≤ fuel) :
    Ok (do let _ ← dfs max fuel (← onGraph (searchVertex max w))) d fun _ d' =>
      d'.graph = d.graph ∧ Based max idx d' ∧
        d.graph.Found (fun x y => x = (d.graph.list idx).s ∧ y = w) d.deadlock d'.deadlock := by
  obtain ⟨j, hj, rfl⟩ := hw
  rw [ok_bind, ok_search h.wired.num_le, h.wired.ok.index_eq_some.mpr ⟨hj, rfl⟩, ok_bind]
  refine (explores max fuel d j h hj (by omega) (by omega)).mono ?_
  rintro - d' ⟨hk', hit, h'⟩
  rw [ok_pure]
  have hsearch := h'.search
  have hidx' : idx < d'.graph.num := h'.graph ▸ hidx
  refine ⟨h'.graph, ⟨h'.traced.wired, hidx', ?_, h'.traced.path 0 (by omega)⟩, ?_⟩
  · rw [← mem_marks h'.traced.wired.ok hidx', h'.graph]
    exact hsearch.subset (hmarks ▸ Set.mem_singleton _)
  · rw [hmarks] at hsearch
    cases hit with
    | false => exact Or.inl ⟨h'.deadlock, fun x y ⟨hx, hy⟩ => hx ▸ hy ▸ ⟨_, hsearch⟩⟩
    | true => exact Or.inr ⟨h'.deadlock, _, _, ⟨rfl, rfl⟩, _, hsearch⟩

theorem Based.ok_searchLink {idx fuel : Nat} (h : Based max idx d) {w : SourceType}
    (hw : d.graph.HasVertex w) (hfuel : d.graph.num ≤ fuel) :
    Ok (searchLink max fuel idx w) d fun _ d' => d'.graph = d.graph ∧ Based max idx d' ∧
      d.graph.Found (fun x y => x = (d.graph.list idx).s ∧ y = w) d.deadlock d'.deadlock := by
  unfold searchLink
  rw [ok_bind, ok_get, ok_bind]
  refine (ok_clearVisited h.wired.num_le h.marked).mono ?_
  rintro - d₁ ⟨v, rfl, hv, hzero⟩
  rw [ok_bind]
  refine ok_clearPath.mono ?_
  rintro - d₂ ⟨p, rfl, hp⟩
  rw [ok_bind, ok_modify]
  have htraced : Traced max { d with visited := v, path := p, k := 1 } := by
    refine ⟨h.wired, Int.one_nonneg, fun i hi => ?_⟩
    obtain rfl : i = 0 := by
      change (i : Int) < 1 at hi
      omega
    show ∃ j < d.graph.num, p 0 = some j
    rw [hp]
    exact h.path
  obtain ⟨hmarks, hcard⟩ :=
    marks_eq_singleton (d := { d with visited := v, path := p, k := 1 }) h.lt hv hzero
  exact htraced.ok_trial h.lt rfl hmarks hcard hw hfuel

/-- The loop of `search_for_cycle`. -/
theorem Based.ok_links {idx fuel : Nat} (h : Based max idx d) (hfuel : d.graph.num ≤ fuel)
    {ws : List SourceType} (hws : ∀ w ∈ ws, d.graph.HasVertex w) :
    Ok (ws.forM (searchLink max fuel idx)) d fun _ d' => d'.graph = d.graph ∧
      d.graph.Found (fun x y => x = (d.graph.list idx).s ∧ y ∈ ws) d.deadlock d'.deadlock := by
  induction ws generalizing d with
  | nil => exact (ok_pure _ d _).mpr ⟨rfl, Or.inl ⟨rfl, fun x y hy => absurd hy.2 List.not_mem_nil⟩⟩
  | cons w ws ih =>
      show Ok (_ >>= fun _ => ws.forM _) d _
      rw [ok_bind]
      refine (h.ok_searchLink (hws w List.mem_cons_self) hfuel).mono ?_
      rintro - d₁ ⟨hgraph, h₁, hfound⟩
      refine (ih h₁ (hgraph ▸ hfuel) ?_).mono ?_
      · rw [hgraph]
        exact fun y hy => hws y (List.mem_cons_of_mem w hy)
      · rintro - d₂ ⟨hgraph₂, hfound₂⟩
        rw [hgraph] at hgraph₂ hfound₂
        refine ⟨hgraph₂, (hfound.trans hfound₂).congr fun x y => ?_⟩
        rw [List.mem_cons, ← and_or_left]

theorem Wired.ok_searchForCycle (h : Wired max d.graph) {idx fuel : Nat} (hidx : idx < d.graph.num)
    (hfuel : d.graph.num ≤ fuel) :
    Ok (searchForCycle max fuel idx) d fun _ d' => d'.graph = d.graph ∧
      d.graph.Found (fun x y => x = (d.graph.list idx).s ∧ y ∈ (d.graph.list idx).next) d.deadlock
        d'.deadlock := by
  have hmax : idx < max := by
    have := h.num_le
    omega
  unfold searchForCycle
  rw [ok_bind, ok_mark hmax, ok_bind, ok_modify, ok_bind,
    ok_pushPath (d := { d.mark idx with k := 0 }) le_rfl (Int.natCast_nonneg max), ok_bind,
    ok_vertex hmax]
  have hpath : update d.path 0 (some idx) 0 = some idx := update_self ..
  have hbased : Based max idx (Detector.push idx { d.mark idx with k := 0 }) :=
    ⟨h, hidx, update_self .., idx, hidx, hpath⟩
  exact hbased.ok_links hfuel (h.linked idx hidx)

/-- **`check_dead_lock` makes a search along every link**, until one has a hit. -/
theorem Wired.ok_checkDeadLock (h : Wired max d.graph) {fuel : Nat} (hfuel : d.graph.num ≤ fuel) :
    Ok (checkDeadLock max fuel) d fun _ d' =>
      d.graph.Found (fun x w => w ∈ d.graph.links x) 0 d'.deadlock := by
  unfold checkDeadLock
  rw [ok_bind, ok_modify, ok_bind, ok_get, ok_bind]
  refine (Ok.forLoop
    (fun i d' => d'.graph = d.graph ∧ d.graph.Found (d.graph.FirstLinks i) 0 d'.deadlock)
    (fun d' => d.graph.Found (fun x w => w ∈ d.graph.links x) 0 d'.deadlock) ?_ ?_ ?_).mono ?_
  · rintro i - hi d' ⟨hgraph, hfound⟩
    rw [Nat.zero_add] at hi
    change i < d.graph.num at hi
    unfold checkVertex
    rw [ok_bind, ok_get]
    by_cases hdead : d'.deadlock = 1
    · rw [if_pos hdead, ok_pure]
      refine ⟨nofun, fun _ => ?_⟩
      rcases hfound with ⟨hzero, -⟩ | ⟨hone, x, w, ⟨j, hj, hx, hw⟩, hhit⟩
      · rw [hdead] at hzero
        cases hzero
      · exact Or.inr ⟨hone, x, w, h.ok.firstLinks_num.mp ⟨j, by omega, hx, hw⟩, hhit⟩
    · rw [if_neg hdead, ok_bind]
      refine (Wired.ok_searchForCycle (hgraph ▸ h) (hgraph ▸ hi) (hgraph ▸ hfuel)).mono ?_
      rintro - d'' ⟨hgraph', hfound'⟩
      rw [hgraph] at hgraph' hfound'
      rw [ok_pure]
      exact ⟨fun _ => ⟨hgraph', (hfound.trans hfound').congr fun x y => firstLinks_succ.symm⟩,
        fun hne => absurd rfl hne⟩
  · rintro d' ⟨-, hfound⟩
    rw [Nat.zero_add] at hfound
    exact hfound.congr fun x y => h.ok.firstLinks_num
  · exact ⟨rfl, Or.inl ⟨rfl, fun x y ⟨i, hi, _⟩ => absurd hi (Nat.not_lt_zero i)⟩⟩
  · intro _ d' hfound
    unfold printf
    rw [ok_bind, ok_get, ok_ite]
    split_ifs
    · rw [ok_modify]
      exact hfound
    · rw [ok_pure]
      exact hfound

/-! ## Cycles -/

/-- One can get from `x` to `y` along links. -/
def TaskGraph.Leads (g : TaskGraph) : SourceType → SourceType → Prop :=
  Relation.ReflTransGen fun a b => b ∈ g.links a

/-- One can get from a vertex back to it, along one link or more. -/
def TaskGraph.HasCycle (g : TaskGraph) : Prop := ∃ x, ∃ w ∈ g.links x, g.Leads w x

/-- Behind some link, two links lead to the same vertex. -/
def TaskGraph.Rejoins (g : TaskGraph) : Prop :=
  ∃ x, ∃ w ∈ g.links x, (∃ u, g.Leads w u ∧ ¬(g.links u).Nodup) ∨
    ∃ u u' y, u ≠ u' ∧ g.Leads w u ∧ g.Leads w u' ∧ y ∈ g.links u ∧ y ∈ g.links u'

theorem below_singleton {w u : SourceType} : Below g.links [w] u ↔ g.Leads w u := by
  constructor
  · rintro ⟨w', hw', hu⟩
    rwa [List.mem_singleton.mp hw'] at hu
  · exact fun hu => ⟨w, List.mem_singleton_self w, hu⟩

/-- Searches without a hit, along all links: there is no cycle, and nothing is reached twice. -/
theorem not_rejoins_of_trials (h : ∀ x w, w ∈ g.links x → g.Trial x w false) :
    ¬g.HasCycle ∧ ¬g.Rejoins := by
  have hbelow : ∀ {x w W}, Search g.links [w] {x} W false → ∀ {u}, g.Leads w u → u ∈ W \ {x} :=
    fun hsearch _ hu => hsearch.closed.of_below (below_singleton.mpr hu)
  constructor
  · rintro ⟨x, w, hw, hx⟩
    obtain ⟨W, hsearch⟩ := h x w hw
    exact (hbelow hsearch hx).2 rfl
  · rintro ⟨x, w, hw, ⟨u, hu, htwice⟩ | ⟨u, u', y, hne, hu, hu', hy, hy'⟩⟩
    · obtain ⟨W, hsearch⟩ := h x w hw
      exact htwice (hsearch.forest.links u (hbelow hsearch hu))
    · obtain ⟨W, hsearch⟩ := h x w hw
      exact hne (hsearch.forest.parent u (hbelow hsearch hu) u' (hbelow hsearch hu') y hy hy')

/-- A hit means that there is a cycle, or that something is reached twice. -/
theorem TaskGraph.Trial.hasCycle_or_rejoins {x w : SourceType} (h : g.Trial x w true)
    (hw : w ∈ g.links x) : g.HasCycle ∨ g.Rejoins := by
  obtain ⟨W, hsearch⟩ := h
  by_contra hnot
  obtain ⟨hcycle, hrejoin⟩ := not_or.mp hnot
  have hforest : Forest g.links [w] {u | Below g.links [w] u} := by
    refine ⟨List.nodup_singleton w, fun u hu => ?_, fun u hu u' hu' y hy hy' => ?_,
      fun u hu y hy hmem => ?_⟩
    · by_contra htwice
      exact hrejoin ⟨x, w, hw, Or.inl ⟨u, below_singleton.mp hu, htwice⟩⟩
    · by_contra hne
      exact hrejoin
        ⟨x, w, hw, Or.inr ⟨u, u', y, hne, below_singleton.mp hu, below_singleton.mp hu', hy, hy'⟩⟩
    · -- a link back to `w`
      rw [List.mem_singleton.mp hmem] at hy
      exact hcycle ⟨u, w, hy, below_singleton.mp hu⟩
  have hfree : ∀ u, Below g.links [w] u → u ∉ ({x} : Set SourceType) := by
    rintro u hu rfl
    exact hcycle ⟨u, w, hw, below_singleton.mp hu⟩
  cases hsearch.eq_false hforest hfree

/-- Two threads that wait for each other. -/
theorem exists_mutual :
    ∃ g, Reach (graphCall maxSize) TaskGraph.zero g ∧ g.num ≤ maxSize ∧ g.HasCycle := by
  have hbuilt : Ok (runAll (graphCall maxSize) [.addEdge ⟨1, .process⟩ ⟨2, .process⟩,
      .addEdge ⟨2, .process⟩ ⟨1, .process⟩]) TaskGraph.zero fun _ g =>
        (g.num, g.links ⟨1, .process⟩, g.links ⟨2, .process⟩) =
          (2, [⟨2, .process⟩], [⟨1, .process⟩]) :=
    ok_of_view _ (by decide +kernel)
  obtain ⟨rs, g, hrun, hg⟩ := hbuilt
  simp only [Prod.mk.injEq] at hg
  obtain ⟨hnum, h₁, h₂⟩ := hg
  refine ⟨g, ⟨_, rs, hrun⟩, hnum ▸ by decide, ⟨1, .process⟩, ⟨2, .process⟩, ?_, .single ?_⟩
  · exact h₁ ▸ List.mem_singleton_self _
  · exact h₂ ▸ List.mem_singleton_self _

/-- **The search for cycles is complete.** For every graph that some calls have built,
`check_dead_lock` returns without leaving an array, `search_vertex` finds the vertex for every call
of `DFS`, and `deadlock` is `1` if there is a cycle. -/
theorem cycles_found {g₀ : TaskGraph} (h₀ : g₀.num = 0) (hbuilt : Reach (graphCall max) g₀ g)
    {fuel : Nat} (hfuel : g.num ≤ fuel) (hd : d.graph = g) :
    (∀ i < g.num, ∀ w ∈ (g.list i).next, ∃ j < g.num,
      (searchVertex max w).run g = .ok (some j, g)) ∧
      Ok (checkDeadLock max fuel) d fun _ d' => g.HasCycle → d'.deadlock = 1 := by
  subst hd
  have hwired := wired_of_reach h₀ hbuilt
  constructor
  · intro i hi w hw
    obtain ⟨j, hj, hs⟩ := hwired.linked i hi w hw
    rw [run_searchVertex hwired.num_le, hwired.ok.index_eq_some.mpr ⟨hj, hs⟩]
    exact ⟨j, hj, rfl⟩
  · refine (hwired.ok_checkDeadLock hfuel).mono ?_
    rintro - d' (⟨-, hall⟩ | ⟨hone, -⟩) hcycle
    · exact absurd hcycle (not_rejoins_of_trials hall).1
    · exact hone

theorem cycles_found_mutual :
    ∃ g, Reach (graphCall maxSize) TaskGraph.zero g ∧ g.HasCycle ∧
      (∀ i < g.num, ∀ w ∈ (g.list i).next,
        ∃ j < g.num, (searchVertex maxSize w).run g = .ok (some j, g)) ∧
      Ok (checkDeadLock maxSize maxSize) (Detector.zero g)
        fun _ d' => g.HasCycle → d'.deadlock = 1 := by
  obtain ⟨g, hreach, hnum, hcycle⟩ := exists_mutual
  exact ⟨g, hreach, hcycle, cycles_found rfl hreach hnum rfl⟩

/-- **When the answer is right**: `deadlock` is `1` without a cycle exactly if, behind some link,
two links lead to the same vertex. -/
theorem cycles_sound_iff {g₀ : TaskGraph} (h₀ : g₀.num = 0) (hbuilt : Reach (graphCall max) g₀ g)
    {fuel : Nat} (hfuel : g.num ≤ fuel) (hd : d.graph = g) :
    Ok (checkDeadLock max fuel) d fun _ d' =>
      (d'.deadlock = 1 → g.HasCycle) ↔ g.HasCycle ∨ ¬g.Rejoins := by
  subst hd
  have hwired := wired_of_reach h₀ hbuilt
  refine (hwired.ok_checkDeadLock hfuel).mono ?_
  rintro - d' (⟨hzero, hall⟩ | ⟨hone, x, w, hw, hhit⟩)
  · refine iff_of_true (fun hone => ?_) (Or.inr (not_rejoins_of_trials hall).2)
    rw [hzero] at hone
    cases hone
  · have hor := hhit.hasCycle_or_rejoins hw
    constructor
    · exact fun h => Or.inl (h hone)
    · rintro (hcycle | hrejoin) -
      · exact hcycle
      · exact hor.resolve_right hrejoin

theorem cycles_sound_iff_mutual :
    ∃ g, Reach (graphCall maxSize) TaskGraph.zero g ∧ g.HasCycle ∧
      Ok (checkDeadLock maxSize maxSize) (Detector.zero g) fun _ d' =>
        (d'.deadlock = 1 → g.HasCycle) ↔ g.HasCycle ∨ ¬g.Rejoins := by
  obtain ⟨g, hreach, hnum, hcycle⟩ := exists_mutual
  exact ⟨g, hreach, hcycle, cycles_sound_iff rfl hreach hnum rfl⟩

/-- Links that lead to larger ids only make no cycle. -/
theorem GraphOk.not_hasCycle_of_id_lt (h : GraphOk g)
    (hlt : ∀ i < g.num, ∀ w ∈ (g.list i).next, (g.list i).s.id < w.id) : ¬g.HasCycle := by
  have hlinks : ∀ x, ∀ w ∈ g.links x, x.id < w.id := by
    intro x w hw
    obtain ⟨i, hi, rfl, hmem⟩ := h.firstLinks_num.mpr hw
    exact hlt i hi w hmem
  have hleads : ∀ {w x}, g.Leads w x → w.id ≤ x.id := by
    intro w x hx
    induction hx with
    | refl => exact le_rfl
    | tail _ hy ih => exact ih.trans (hlinks _ _ hy).le
  rintro ⟨x, w, hw, hx⟩
  exact absurd (hlinks x w hw) (Nat.not_lt.mpr (hleads hx))

/-- The thread `1` waits for `2`, and `2` for `5` on two ways: there is no cycle, but `deadlock` is
`1`. -/
theorem rejoin_reported :
    ∃ g, Reach (graphCall maxSize) TaskGraph.zero g ∧ ¬g.HasCycle ∧
      Ok (checkDeadLock maxSize maxSize) (Detector.zero g) fun _ d' => d'.deadlock = 1 := by
  have hbuilt : Ok (runAll (graphCall maxSize) [.addEdge ⟨1, .process⟩ ⟨2, .process⟩,
      .addEdge ⟨2, .process⟩ ⟨3, .process⟩, .addEdge ⟨2, .process⟩ ⟨4, .process⟩,
      .addEdge ⟨3, .process⟩ ⟨5, .process⟩, .addEdge ⟨4, .process⟩ ⟨5, .process⟩]) TaskGraph.zero
      fun _ g => (decide (∀ i < g.num, ∀ w ∈ (g.list i).next, (g.list i).s.id < w.id),
        ((checkDeadLock maxSize maxSize).run (Detector.zero g)).toOption.map
          fun r => r.2.deadlock) = (true, some 1) :=
    ok_of_view _ (by decide +kernel)
  obtain ⟨rs, g, hrun, hg⟩ := hbuilt
  obtain ⟨hlt, hcheck⟩ := Prod.mk.inj hg
  have hreach : Reach (graphCall maxSize) TaskGraph.zero g := ⟨_, rs, hrun⟩
  have hok := (wired_of_reach rfl hreach).ok
  exact ⟨g, hreach, hok.not_hasCycle_of_id_lt (of_decide_eq_true hlt), ok_of_view _ hcheck⟩

end KvStore.Deadlock
