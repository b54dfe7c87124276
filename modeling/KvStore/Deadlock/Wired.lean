import KvStore.Deadlock.Graph
import KvStore.Deadlock.Search

set_option autoImplicit false

/-! # Graphs that are built by calls

In a graph that `add_vertex`, `add_edge` and `remove_edge` have built, every link leads to a vertex
(`Wired`, `wired_of_reach`): `search_vertex` finds the target of every link.
-/

namespace KvStore.Deadlock

open Function KvStore.Lib

variable {max : Nat} {g : TaskGraph} {x : SourceType}

/-- **Every link leads to a vertex**, and no vertex is there twice. -/
structure Wired (max : Nat) (g : TaskGraph) : Prop where
  ok : GraphOk g
  num_le : g.num ≤ max
  linked : ∀ i < g.num, ∀ y ∈ (g.list i).next, g.HasVertex y

theorem Wired.push (h : Wired max g) (hx : ¬g.HasVertex x) (hnum : g.num < max) :
    Wired max (g.push x) := by
  have hgrows := (h.ok.push hx).1
  refine ⟨hgrows.ok, hnum, fun i hi y hy => ?_⟩
  rcases Nat.lt_succ_iff_lt_or_eq.mp hi with hi | rfl
  · rw [push_list_of_lt hi] at hy
    exact hgrows.vertex y (h.linked i hi y hy)
  · rw [push_list_num] at hy
    exact absurd hy List.not_mem_nil

theorem relink_hasVertex {i : Nat} {next : List SourceType} (hx : g.HasVertex x) :
    (g.relink i next).HasVertex x := by
  obtain ⟨j, hj, hs⟩ := hx
  exact ⟨j, hj, relink_s.trans hs⟩

theorem Wired.relink (h : Wired max g) {i : Nat} {next : List SourceType}
    (hnext : ∀ y ∈ next, g.HasVertex y) : Wired max (g.relink i next) where
  ok := by
    intro j k hj hk heq
    rw [relink_s, relink_s] at heq
    exact h.ok j k hj hk heq
  num_le := h.num_le
  linked := by
    intro j hj y hy
    apply relink_hasVertex
    by_cases hji : j = i
    · subst hji
      refine hnext y ?_
      change y ∈ (update g.list j _ j).next at hy
      rwa [update_self] at hy
    · change y ∈ (update g.list i _ j).next at hy
      rw [update_of_ne hji] at hy
      exact h.linked j hj y hy

theorem Wired.returns_addVertex (h : Wired max g) (x : SourceType) :
    Returns (addVertex max x) g fun _ g' =>
      Wired max g' ∧ g'.HasVertex x ∧ ∀ y, g.HasVertex y → g'.HasVertex y := by
  refine returns_bind ((returns_searchVertex x).mono ?_)
  rintro r g' ⟨rfl, rfl⟩
  split_ifs with hnone
  · have hx := index_eq_none.mp hnone
    refine returns_get_bind (returns_bind (returns_setVertex.mono ?_))
    rintro - g₁ ⟨hnum, rfl⟩
    obtain ⟨hgrows, -, hvertex⟩ := h.ok.push hx
    exact returns_modify ⟨h.push hx hnum, hvertex, hgrows.vertex⟩
  · have hx : g'.HasVertex x := by
      by_contra hx
      exact hnone (index_eq_none.mpr hx)
    exact returns_pure ⟨h, hx, fun y hy => hy⟩

/-- The links of a vertex are read, and replaced by others. -/
theorem Wired.returns_relink (h : Wired max g) {f : List SourceType → List SourceType}
    (hf : ∀ next, (∀ y ∈ next, g.HasVertex y) → ∀ y ∈ f next, g.HasVertex y) :
    Returns (do
      let v ← vertexAt max (g.index x)
      setNextAt max (f v.next) (g.index x)) g fun _ g' => Wired max g' := by
  cases hidx : g.index x with
  | none => exact returns_bind (returns_throw _ _ _)
  | some i =>
      obtain ⟨hi, -⟩ := h.ok.index_eq_some.mp hidx
      refine returns_bind (returns_getVertex.mono ?_)
      rintro v g₁ ⟨rfl, rfl⟩
      refine returns_bind (returns_getVertex.mono ?_)
      rintro v g₂ ⟨rfl, rfl⟩
      refine returns_setVertex.mono ?_
      rintro - g₃ ⟨-, rfl⟩
      exact h.relink (hf _ (h.linked i hi))

theorem Wired.returns_graphCall (h : Wired max g) (c : GraphCall) :
    Returns (graphCall max c) g fun _ g' => Wired max g' := by
  cases c with
  | addVertex x => exact (h.returns_addVertex x).mono fun _ _ h' => h'.1
  | addEdge src dst =>
      refine returns_bind ((h.returns_addVertex src).mono ?_)
      rintro - g₁ ⟨h₁, -, -⟩
      refine returns_bind ((h₁.returns_addVertex dst).mono ?_)
      rintro - g₂ ⟨h₂, hdst, -⟩
      refine returns_bind ((returns_searchVertex src).mono ?_)
      rintro idx g₃ ⟨rfl, rfl⟩
      refine h₂.returns_relink (f := fun next => next ++ [dst]) fun next hnext y hy => ?_
      rcases List.mem_append.mp hy with hy | hy
      · exact hnext y hy
      · exact List.mem_singleton.mp hy ▸ hdst
  | removeEdge src dst =>
      refine returns_bind ((returns_searchVertex src).mono ?_)
      rintro idxi g₁ ⟨rfl, rfl⟩
      refine returns_bind ((returns_searchVertex dst).mono ?_)
      rintro idxj g₂ ⟨rfl, rfl⟩
      split_ifs
      · refine h.returns_relink (f := fun next => next.eraseP _) fun next hnext y hy => ?_
        exact hnext y (List.mem_of_mem_eraseP hy)
      · exact returns_pure h

/-- A graph that some calls have built, beginning with no vertex. -/
theorem wired_of_reach {g₀ : TaskGraph} (h₀ : g₀.num = 0) (h : Reach (graphCall max) g₀ g) :
    Wired max g := by
  have hstart : Wired max g₀ := by
    refine ⟨fun i _ hi => ?_, ?_, fun i hi => ?_⟩ <;> omega
  exact Reach.invariant (fun c s r s' hs hrun => hs.returns_graphCall c r s' hrun) hstart h

/-! ## Links -/

/-- The links of a vertex. -/
def TaskGraph.links (g : TaskGraph) (x : SourceType) : List SourceType :=
  match g.index x with
  | some i => (g.list i).next
  | none => []

theorem GraphOk.links_eq (h : GraphOk g) {i : Nat} (hi : i < g.num) :
    g.links (g.list i).s = (g.list i).next := by
  rw [TaskGraph.links, h.index_eq_some.mpr ⟨hi, rfl⟩]

/-- The links of the first `n` vertices. -/
def TaskGraph.FirstLinks (g : TaskGraph) (n : Nat) (x y : SourceType) : Prop :=
  ∃ i < n, (g.list i).s = x ∧ y ∈ (g.list i).next

theorem firstLinks_succ {n : Nat} {y : SourceType} : g.FirstLinks (n + 1) x y ↔
    g.FirstLinks n x y ∨ x = (g.list n).s ∧ y ∈ (g.list n).next := by
  constructor
  · rintro ⟨i, hi, rfl, hy⟩
    rcases Nat.lt_succ_iff_lt_or_eq.mp hi with hi | rfl
    · exact Or.inl ⟨i, hi, rfl, hy⟩
    · exact Or.inr ⟨rfl, hy⟩
  · rintro (⟨i, hi, rfl, hy⟩ | ⟨rfl, hy⟩)
    · exact ⟨i, Nat.lt_succ_of_lt hi, rfl, hy⟩
    · exact ⟨n, Nat.lt_succ_self n, rfl, hy⟩

theorem GraphOk.firstLinks_num (h : GraphOk g) {y : SourceType} :
    g.FirstLinks g.num x y ↔ y ∈ g.links x := by
  constructor
  · rintro ⟨i, hi, rfl, hy⟩
    rwa [h.links_eq hi]
  · intro hy
    cases hidx : g.index x with
    | none =>
        rw [TaskGraph.links, hidx] at hy
        exact absurd hy List.not_mem_nil
    | some i =>
        obtain ⟨hi, rfl⟩ := h.index_eq_some.mp hidx
        rw [h.links_eq hi] at hy
        exact ⟨i, hi, rfl, hy⟩

theorem run_searchVertex (hnum : g.num ≤ max) (x : SourceType) :
    (searchVertex max x).run g = .ok (g.index x, g) := by
  refine run_forLoop_find (fun i => (g.list i).s = x) fun i hi => ?_
  unfold getVertex
  rw [if_pos (by omega : i < max)]
  rfl

end KvStore.Deadlock
