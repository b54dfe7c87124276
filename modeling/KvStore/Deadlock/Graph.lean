import KvStore.Deadlock.Model

set_option autoImplicit false

/-! # The wait-for graph

A graph without duplicate vertices (`GraphOk`) is determined by the list of targets of each thread
(`TaskGraph.edges`). The functions of the graph keep that, and change the lists as one would think:
`returns_addVertex`, `returns_addEdge`, `returns_verifyEdge` and `returns_removeEdge`. None of them
touches the lock table.
-/

namespace KvStore.Deadlock

open Function KvStore.Lib

variable {max : Nat} {g : TaskGraph} {x : SourceType} {t i : Nat}

/-! ## Vertices and edges -/

/-- Where `search_vertex` finds the vertex. -/
def TaskGraph.index (g : TaskGraph) (x : SourceType) : Option Nat :=
  (List.range g.num).find? fun i => (g.list i).s = x

def TaskGraph.HasVertex (g : TaskGraph) (x : SourceType) : Prop := ∃ i < g.num, (g.list i).s = x

/-- The targets of the edges of the thread `t`. -/
def TaskGraph.edges (g : TaskGraph) (t : Nat) : List Nat :=
  match g.index ⟨t, .process⟩ with
  | some i => (g.list i).next.map SourceType.id
  | none => []

/-- **No vertex is there twice.** -/
def GraphOk (g : TaskGraph) : Prop :=
  ∀ i j, i < g.num → j < g.num → (g.list i).s = (g.list j).s → i = j

theorem index_eq_none : g.index x = none ↔ ¬g.HasVertex x := by
  unfold TaskGraph.index TaskGraph.HasVertex
  rw [List.find?_range_eq_none]
  simp

theorem GraphOk.index_eq_some (h : GraphOk g) :
    g.index x = some i ↔ i < g.num ∧ (g.list i).s = x := by
  unfold TaskGraph.index
  rw [List.find?_range_eq_some]
  constructor
  · rintro ⟨hx, hi, -⟩
    exact ⟨List.mem_range.mp hi, of_decide_eq_true hx⟩
  · rintro ⟨hi, hx⟩
    refine ⟨decide_eq_true hx, List.mem_range.mpr hi, fun j hj => ?_⟩
    have hne : (g.list j).s ≠ x :=
      fun hjx => absurd (h j i (by omega) hi (hjx.trans hx.symm)) (by omega)
    simpa using hne

theorem GraphOk.edges_eq (h : GraphOk g) (hi : i < g.num)
    (hs : (g.list i).s = ⟨t, .process⟩) : g.edges t = (g.list i).next.map SourceType.id := by
  rw [TaskGraph.edges, h.index_eq_some.mpr ⟨hi, hs⟩]

theorem edges_eq_nil (h : ¬g.HasVertex ⟨t, .process⟩) : g.edges t = [] := by
  rw [TaskGraph.edges, index_eq_none.mpr h]

/-- The thread `t` waits for the thread `u`: `u` is in the list of the vertex `t`. -/
def TaskGraph.HasEdge (g : TaskGraph) (t u : Nat) : Prop :=
  ∃ i < g.num, (g.list i).s = ⟨t, .process⟩ ∧ ∃ w ∈ (g.list i).next, w.id = u

theorem GraphOk.hasEdge_iff (h : GraphOk g) {u : Nat} : g.HasEdge t u ↔ u ∈ g.edges t := by
  constructor
  · rintro ⟨i, hi, hs, w, hw, rfl⟩
    rw [h.edges_eq hi hs]
    exact List.mem_map_of_mem hw
  · intro hu
    by_cases hv : g.HasVertex ⟨t, .process⟩
    · obtain ⟨i, hi, hs⟩ := hv
      rw [h.edges_eq hi hs] at hu
      obtain ⟨w, hw, rfl⟩ := List.mem_map.mp hu
      exact ⟨i, hi, hs, w, hw, rfl⟩
    · rw [edges_eq_nil hv] at hu
      exact absurd hu List.not_mem_nil

/-! ## Changes of the graph -/

/-- A new vertex, without edges. -/
def TaskGraph.push (g : TaskGraph) (x : SourceType) : TaskGraph :=
  { g with list := update g.list g.num ⟨x, []⟩, num := g.num + 1 }

/-- The links of the vertex `i` are replaced. -/
def TaskGraph.relink (g : TaskGraph) (i : Nat) (next : List SourceType) : TaskGraph :=
  { g with list := update g.list i ⟨(g.list i).s, next⟩ }

/-- What the functions of the graph leave alone: the table, and the vertices that are there. -/
structure Grows (g g' : TaskGraph) : Prop where
  ok : GraphOk g'
  vertex : ∀ x, g.HasVertex x → g'.HasVertex x
  locklist : g'.locklist = g.locklist
  lockidx : g'.lockidx = g.lockidx

theorem Grows.refl (h : GraphOk g) : Grows g g := ⟨h, fun _ hx => hx, rfl, rfl⟩

theorem Grows.trans {g₁ g₂ g₃ : TaskGraph} (h : Grows g₁ g₂) (h' : Grows g₂ g₃) : Grows g₁ g₃ :=
  ⟨h'.ok, fun x hx => h'.vertex x (h.vertex x hx), h'.locklist.trans h.locklist,
    h'.lockidx.trans h.lockidx⟩

theorem push_list_of_lt (hi : i < g.num) : (g.push x).list i = g.list i :=
  update_of_ne hi.ne _ _

theorem push_list_num : (g.push x).list g.num = ⟨x, []⟩ := update_self ..

theorem GraphOk.push (h : GraphOk g) (hx : ¬g.HasVertex x) :
    Grows g (g.push x) ∧ (g.push x).edges = g.edges ∧ (g.push x).HasVertex x := by
  have hnew : ∀ i < g.num, (g.list i).s ≠ x := fun i hi hs => hx ⟨i, hi, hs⟩
  have hok : GraphOk (g.push x) := by
    intro i j hi hj heq
    change i < g.num + 1 at hi
    change j < g.num + 1 at hj
    rcases Nat.lt_succ_iff_lt_or_eq.mp hi with hi | rfl <;>
      rcases Nat.lt_succ_iff_lt_or_eq.mp hj with hj | rfl
    · rw [push_list_of_lt hi, push_list_of_lt hj] at heq
      exact h i j hi hj heq
    · rw [push_list_of_lt hi, push_list_num] at heq
      exact absurd heq (hnew i hi)
    · rw [push_list_of_lt hj, push_list_num] at heq
      exact absurd heq.symm (hnew j hj)
    · rfl
  have hvertex : ∀ y, g.HasVertex y → (g.push x).HasVertex y := by
    rintro y ⟨i, hi, hy⟩
    refine ⟨i, Nat.lt_succ_of_lt hi, ?_⟩
    rw [push_list_of_lt hi]
    exact hy
  have hlast : (g.push x).HasVertex x := ⟨g.num, Nat.lt_succ_self _, by rw [push_list_num]⟩
  refine ⟨⟨hok, hvertex, rfl, rfl⟩, ?_, hlast⟩
  funext t
  by_cases ht : g.HasVertex ⟨t, .process⟩
  · obtain ⟨i, hi, hs⟩ := ht
    rw [h.edges_eq hi hs, hok.edges_eq (Nat.lt_succ_of_lt hi) (by rw [push_list_of_lt hi, hs]),
      push_list_of_lt hi]
  · rw [edges_eq_nil ht]
    by_cases hxt : x = ⟨t, .process⟩
    · rw [hok.edges_eq (Nat.lt_succ_self _) (by rw [push_list_num]; exact hxt), push_list_num]
      rfl
    · refine edges_eq_nil ?_
      rintro ⟨i, hi, hs⟩
      rcases Nat.lt_succ_iff_lt_or_eq.mp hi with hi | rfl
      · rw [push_list_of_lt hi] at hs
        exact ht ⟨i, hi, hs⟩
      · rw [push_list_num] at hs
        exact hxt hs

theorem relink_s {j : Nat} {next : List SourceType} :
    ((g.relink i next).list j).s = (g.list j).s := by
  by_cases hj : j = i
  · subst hj
    show (update g.list j _ j).s = _
    rw [update_self]
  · show (update g.list i _ j).s = _
    rw [update_of_ne hj]

theorem GraphOk.relink (h : GraphOk g) {next : List SourceType} (hi : i < g.num)
    (hs : (g.list i).s = ⟨t, .process⟩) :
    Grows g (g.relink i next) ∧
      (g.relink i next).edges = update g.edges t (next.map SourceType.id) := by
  have hok : GraphOk (g.relink i next) := by
    intro j k hj hk heq
    rw [relink_s, relink_s] at heq
    exact h j k hj hk heq
  refine ⟨⟨hok, ?_, rfl, rfl⟩, ?_⟩
  · rintro x ⟨j, hj, hx⟩
    exact ⟨j, hj, relink_s.trans hx⟩
  · funext u
    by_cases hu : u = t
    · subst hu
      rw [update_self, hok.edges_eq hi (relink_s.trans hs)]
      show (update g.list i _ i).next.map _ = _
      rw [update_self]
    · rw [update_of_ne hu]
      by_cases hv : g.HasVertex ⟨u, .process⟩
      · obtain ⟨j, hj, hsj⟩ := hv
        have hne : j ≠ i := by
          rintro rfl
          rw [hs] at hsj
          exact hu (congrArg SourceType.id hsj).symm
        rw [h.edges_eq hj hsj, hok.edges_eq hj (relink_s.trans hsj)]
        show (update g.list i _ j).next.map _ = _
        rw [update_of_ne hne]
      · rw [edges_eq_nil hv]
        refine edges_eq_nil ?_
        rintro ⟨j, hj, hsj⟩
        exact hv ⟨j, hj, relink_s.symm.trans hsj⟩

/-! ## The functions -/

theorem returns_getVertex : Returns (getVertex max i) g fun v g' => g' = g ∧ v = g.list i := by
  unfold getVertex
  split_ifs
  · exact returns_get_bind (returns_pure ⟨rfl, rfl⟩)
  · exact returns_throw _ _ _

theorem returns_setVertex {v : Vertex} :
    Returns (setVertex max i v) g fun _ g' =>
      i < max ∧ g' = { g with list := update g.list i v } := by
  unfold setVertex
  split_ifs with hi
  · exact returns_modify ⟨hi, rfl⟩
  · exact returns_throw _ _ _

theorem returns_searchVertex (x : SourceType) :
    Returns (searchVertex max x) g fun r g' => g' = g ∧ r = g.index x := by
  refine returns_get_bind (returns_forLoop_find (fun i => (g.list i).s = x) (fun i => ?_) g.num)
  refine returns_bind (returns_getVertex.mono ?_)
  rintro v g' ⟨rfl, rfl⟩
  exact returns_pure ⟨rfl, rfl⟩

theorem returns_addVertex (h : GraphOk g) (x : SourceType) :
    Returns (addVertex max x) g fun _ g' =>
      Grows g g' ∧ g'.edges = g.edges ∧ g'.HasVertex x := by
  refine returns_bind ((returns_searchVertex x).mono ?_)
  rintro r g' ⟨rfl, rfl⟩
  split_ifs with hnone
  · have hx := index_eq_none.mp hnone
    refine returns_get_bind (returns_bind (returns_setVertex.mono ?_))
    rintro - g' ⟨-, rfl⟩
    exact returns_modify (h.push hx)
  · have hx : g'.HasVertex x := by
      by_contra hx
      exact hnone (index_eq_none.mpr hx)
    exact returns_pure ⟨Grows.refl h, rfl, hx⟩

/-- The links of a vertex that has been found are replaced. -/
theorem returns_setNextAt (h : GraphOk g) (ht : g.HasVertex ⟨t, .process⟩)
    (next : List SourceType) :
    Returns (setNextAt max next (g.index ⟨t, .process⟩)) g fun _ g' =>
      Grows g g' ∧ g'.edges = update g.edges t (next.map SourceType.id) := by
  obtain ⟨i, hi, hs⟩ := ht
  rw [h.index_eq_some.mpr ⟨hi, hs⟩]
  refine returns_bind (returns_getVertex.mono ?_)
  rintro v g' ⟨rfl, rfl⟩
  refine returns_setVertex.mono ?_
  rintro - g'' ⟨-, rfl⟩
  exact h.relink hi hs

/-- The links of a vertex that has been found are read. -/
theorem returns_vertexAt (h : GraphOk g) (ht : g.HasVertex ⟨t, .process⟩) :
    Returns (vertexAt max (g.index ⟨t, .process⟩)) g fun v g' =>
      g' = g ∧ v.s = ⟨t, .process⟩ ∧ v.next.map SourceType.id = g.edges t := by
  obtain ⟨i, hi, hs⟩ := ht
  rw [h.index_eq_some.mpr ⟨hi, hs⟩, h.edges_eq hi hs]
  refine returns_getVertex.mono ?_
  rintro v g' ⟨rfl, rfl⟩
  exact ⟨rfl, hs, rfl⟩

theorem returns_addEdge (h : GraphOk g) (t u : Nat) :
    Returns (addEdge max ⟨t, .process⟩ ⟨u, .process⟩) g fun _ g' =>
      Grows g g' ∧ g'.edges = update g.edges t (g.edges t ++ [u]) := by
  refine returns_bind ((returns_addVertex h _).mono ?_)
  rintro - g₁ ⟨hgrows₁, hedges₁, hvertex₁⟩
  refine returns_bind ((returns_addVertex hgrows₁.ok _).mono ?_)
  rintro - g₂ ⟨hgrows₂, hedges₂, -⟩
  have hvertex₂ := hgrows₂.vertex _ hvertex₁
  refine returns_bind ((returns_searchVertex _).mono ?_)
  rintro idx g₃ ⟨rfl, rfl⟩
  refine returns_bind ((returns_vertexAt hgrows₂.ok hvertex₂).mono ?_)
  rintro v g₄ ⟨rfl, -, hnext⟩
  refine (returns_setNextAt hgrows₂.ok hvertex₂ _).mono ?_
  rintro - g₅ ⟨hgrows₅, hedges₅⟩
  refine ⟨(hgrows₁.trans hgrows₂).trans hgrows₅, ?_⟩
  rw [hedges₅, List.map_append, hnext, hedges₂, hedges₁]
  rfl

/-- An edge from a vertex to itself is always found. -/
theorem returns_verifyEdge (h : GraphOk g) (ht : g.HasVertex ⟨t, .process⟩) (u : Nat) :
    Returns (verifyEdge max ⟨t, .process⟩ ⟨u, .process⟩) g fun r g' =>
      g' = g ∧ (r = true ↔ t = u ∨ u ∈ g.edges t) := by
  obtain ⟨i, hi, hs⟩ := ht
  refine returns_get_bind ?_
  rw [if_neg (by omega)]
  refine returns_bind ((returns_searchVertex _).mono ?_)
  rintro idx g' ⟨rfl, rfl⟩
  rw [h.index_eq_some.mpr ⟨hi, hs⟩]
  refine returns_bind (returns_getVertex.mono ?_)
  rintro v g'' ⟨rfl, rfl⟩
  refine returns_pure ⟨rfl, ?_⟩
  rw [h.edges_eq hi hs, hs, List.mem_map]
  simp

theorem map_id_eraseP (next : List SourceType) (u : Nat) :
    (next.eraseP fun w => w.id = u).map SourceType.id = (next.map SourceType.id).erase u := by
  induction next with
  | nil => rfl
  | cons w next ih =>
      by_cases hw : w.id = u
      · rw [List.eraseP_cons_of_pos (by simpa using hw), List.map_cons, hw, List.erase_cons_head]
      · rw [List.eraseP_cons_of_neg (by simpa using hw), List.map_cons, List.map_cons, ih,
          List.erase_cons_tail (by simpa using hw)]

theorem returns_removeEdge (h : GraphOk g) {u : Nat} (ht : g.HasVertex ⟨t, .process⟩)
    (hu : g.HasVertex ⟨u, .process⟩) :
    Returns (removeEdge max ⟨t, .process⟩ ⟨u, .process⟩) g fun _ g' =>
      Grows g g' ∧ g'.edges = update g.edges t ((g.edges t).erase u) := by
  refine returns_bind ((returns_searchVertex _).mono ?_)
  rintro idxi g₁ ⟨rfl, rfl⟩
  refine returns_bind ((returns_searchVertex _).mono ?_)
  rintro idxj g₂ ⟨rfl, rfl⟩
  have hi : g₂.index ⟨t, .process⟩ ≠ none := fun hnone => index_eq_none.mp hnone ht
  have hj : g₂.index ⟨u, .process⟩ ≠ none := fun hnone => index_eq_none.mp hnone hu
  rw [if_pos ⟨hi, hj⟩]
  refine returns_bind ((returns_vertexAt h ht).mono ?_)
  rintro v g₃ ⟨rfl, -, hnext⟩
  refine (returns_setNextAt h ht _).mono ?_
  rintro - g₄ ⟨hgrows, hedges⟩
  refine ⟨hgrows, ?_⟩
  rw [hedges, map_id_eraseP, hnext]

end KvStore.Deadlock
