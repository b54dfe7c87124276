import KvStore.Deadlock.Wired
import KvStore.Lib.DepthFirst

set_option autoImplicit false

/-! # The depth-first search

`DFS` is a `Search` along the links of the graph, with the marks in `visited` (`explores`): it
returns when the bound on the depth is above the number of vertices without a mark, and it sets
`deadlock` exactly when it meets a mark. The length of the path and this number are together at most
the number of vertices, so that `path[k]` exists whenever it is written. -/

namespace KvStore.Deadlock

open Function KvStore.Lib

variable {max : Nat} {d : Detector} {i idx : Nat}

/-! ## The globals -/

namespace Detector

/-- The vertices that are marked. -/
def marks (d : Detector) : Set SourceType :=
  {x | ∃ i < d.graph.num, (d.graph.list i).s = x ∧ d.visited i = 1}

/-- The indexes of the other vertices. -/
def unmarked (d : Detector) : Finset Nat := {i ∈ Finset.range d.graph.num | d.visited i ≠ 1}

def mark (idx : Nat) (d : Detector) : Detector := { d with visited := update d.visited idx 1 }

def push (idx : Nat) (d : Detector) : Detector :=
  { d with path := update d.path d.k.toNat (some idx), k := d.k + 1 }

end Detector

/-- The graph is in order, and below `k` the path holds indexes of vertices. -/
structure Traced (max : Nat) (d : Detector) : Prop where
  wired : Wired max d.graph
  k_nonneg : 0 ≤ d.k
  path : ∀ i : Nat, i < d.k → ∃ j < d.graph.num, d.path i = some j

theorem ok_getVisited (hi : i < max) (Q : Int → Detector → Prop) :
    Ok (getVisited max i) d Q ↔ Q (d.visited i) d := by
  unfold getVisited
  rw [if_pos hi, ok_bind, ok_get, ok_pure]

theorem ok_setVisited (hi : i < max) (x : Int) (Q : Unit → Detector → Prop) :
    Ok (setVisited max i x) d Q ↔ Q () { d with visited := update d.visited i x } := by
  unfold setVisited
  rw [if_pos hi, ok_modify]

theorem ok_mark (hi : i < max) (Q : Unit → Detector → Prop) :
    Ok (setVisited max i 1) d Q ↔ Q () (d.mark i) := ok_setVisited hi 1 Q

theorem ok_setPath {i : Int} (h₀ : 0 ≤ i) (hi : i ≤ max) (x : Option Nat)
    (Q : Unit → Detector → Prop) :
    Ok (setPath max i x) d Q ↔ Q () { d with path := update d.path i.toNat x } := by
  unfold setPath
  rw [if_pos ⟨h₀, hi⟩, ok_modify]

theorem ok_pushPath (h₀ : 0 ≤ d.k) (hk : d.k ≤ max) (idx : Nat) (Q : Unit → Detector → Prop) :
    Ok (pushPath max idx) d Q ↔ Q () (d.push idx) := by
  unfold pushPath
  rw [ok_bind, ok_get, ok_bind, ok_setPath h₀ hk, ok_modify]
  rfl

theorem ok_vertex (hi : i < max) (Q : Vertex → Detector → Prop) :
    Ok (onGraph (getVertex max i)) d Q ↔ Q (d.graph.list i) d := by
  unfold onGraph getVertex
  rw [ok_zoom, if_pos hi, ok_bind, ok_get, ok_pure]
  rfl

theorem ok_search (hnum : d.graph.num ≤ max) (x : SourceType) (Q : Option Nat → Detector → Prop) :
    Ok (onGraph (searchVertex max x)) d Q ↔ Q (d.graph.index x) d := by
  unfold onGraph
  rw [ok_zoom, ok_of_run (run_searchVertex hnum x)]
  rfl

theorem Traced.push (h : Traced max d) (hidx : idx < d.graph.num) :
    Traced max (d.push idx) where
  wired := h.wired
  k_nonneg := by
    change 0 ≤ d.k + 1
    have := h.k_nonneg
    omega
  path := by
    intro i hi
    have hk := h.k_nonneg
    change (i : Int) < d.k + 1 at hi
    show ∃ j < d.graph.num, update d.path d.k.toNat (some idx) i = some j
    by_cases hik : i = d.k.toNat
    · subst hik
      exact ⟨idx, hidx, update_self ..⟩
    · rw [update_of_ne hik]
      exact h.path i (by omega)

theorem Traced.mark (h : Traced max d) (idx : Nat) : Traced max (d.mark idx) :=
  ⟨h.wired, h.k_nonneg, h.path⟩

theorem marks_mark (hidx : idx < d.graph.num) :
    (d.mark idx).marks = insert (d.graph.list idx).s d.marks := by
  ext x
  constructor
  · rintro ⟨i, hi, rfl, hmark⟩
    change update d.visited idx 1 i = 1 at hmark
    by_cases hne : i = idx
    · subst hne
      exact Set.mem_insert ..
    · rw [update_of_ne hne] at hmark
      exact Set.mem_insert_of_mem _ ⟨i, hi, rfl, hmark⟩
  · rintro (rfl | ⟨i, hi, rfl, hmark⟩)
    · exact ⟨idx, hidx, rfl, update_self ..⟩
    · refine ⟨i, hi, rfl, ?_⟩
      show update d.visited idx 1 i = 1
      by_cases hne : i = idx
      · subst hne
        exact update_self ..
      · rwa [update_of_ne hne]

theorem mem_marks (hok : GraphOk d.graph) (hidx : idx < d.graph.num) :
    (d.graph.list idx).s ∈ d.marks ↔ d.visited idx = 1 := by
  constructor
  · rintro ⟨i, hi, hs, hmark⟩
    rwa [hok i idx hi hidx hs] at hmark
  · exact fun hmark => ⟨idx, hidx, rfl, hmark⟩

theorem mem_unmarked : i ∈ d.unmarked ↔ i < d.graph.num ∧ d.visited i ≠ 1 := by
  rw [Detector.unmarked, Finset.mem_filter, Finset.mem_range]

/-- A vertex that is marked now is not counted any more. -/
theorem card_unmarked_mark (hidx : idx < d.graph.num) (hmark : d.visited idx ≠ 1) :
    (d.mark idx).unmarked.card + 1 = d.unmarked.card := by
  have herase : (d.mark idx).unmarked = d.unmarked.erase idx := by
    ext i
    rw [Finset.mem_erase, mem_unmarked, mem_unmarked]
    show i < d.graph.num ∧ update d.visited idx 1 i ≠ 1 ↔ _
    by_cases hne : i = idx
    · subst hne
      simp
    · rw [update_of_ne hne]
      simp [hne]
  rw [herase, Finset.card_erase_add_one (mem_unmarked.mpr ⟨hidx, hmark⟩)]

/-! ## The functions of the search -/

theorem Traced.run_pathId (h : Traced max d) (hi : i < d.k) (hk : d.k ≤ max + 1) :
    ∃ id, (pathId max i).run d = .ok (id, d) := by
  obtain ⟨j, hj, hpath⟩ := h.path i hi
  have hnum := h.wired.num_le
  refine ⟨(d.graph.list j).s.id, ?_⟩
  have hget : (getPath max i).run d = .ok (some j, d) := by
    unfold getPath
    rw [if_pos ⟨Int.natCast_nonneg i, by omega⟩, ← hpath]
    rfl
  have hvertex : Ok (onGraph (vertexAt max (some j))) d fun v d' => v = d.graph.list j ∧ d' = d :=
    (ok_vertex (by omega) _).mpr ⟨rfl, rfl⟩
  obtain ⟨v, d', hrun, rfl, rfl⟩ := hvertex
  unfold pathId
  rw [run_bind_ok hget, run_bind_ok hrun]
  rfl

/-- `print_deadlock` changes nothing but the output. -/
theorem Traced.ok_printDeadlock (h : Traced max d) (hpos : 0 < d.k) (hk : d.k ≤ max + 1) :
    Ok (printDeadlock max) d fun _ d' => ∃ printed, d' = { d with printed := printed } := by
  have hprint : ∀ printed, ∀ i : Nat, (i : Int) < d.k →
      ∃ id, (pathId max i).run
          { d with printed := printed } = .ok (id, { d with printed := printed }) :=
    fun printed i hi => Traced.run_pathId (d := { d with printed := printed })
      ⟨h.wired, h.k_nonneg, h.path⟩ hi hk
  unfold printDeadlock printf
  rw [ok_bind, ok_modify, ok_bind, ok_get, ok_bind]
  refine (Ok.forLoop (fun _ d' => ∃ printed, d' = { d with printed := printed })
    (fun d' => ∃ printed, d' = { d with printed := printed }) ?_ (fun _ h => h) ⟨_, rfl⟩).mono ?_
  · rintro i - hi d' ⟨printed, rfl⟩
    change i < 0 + (d.k - 1).toNat at hi
    obtain ⟨id, hrun⟩ := hprint printed i (by omega)
    rw [ok_bind, ok_of_run hrun, ok_bind, ok_modify, ok_pure]
    exact ⟨fun _ => ⟨_, rfl⟩, fun hne => absurd rfl hne⟩
  · rintro - d' ⟨printed, rfl⟩
    obtain ⟨id, hrun⟩ := hprint printed (d.k - 1).toNat (by omega)
    rw [ok_bind, ok_of_run hrun, ok_modify]
    exact ⟨_, rfl⟩

/-- What a search from the vertices `ws` has done. -/
structure Searched (max : Nat) (ws : List SourceType) (hit : Bool) (d d' : Detector) : Prop where
  search : Search d.graph.links ws d.marks d'.marks hit
  traced : Traced max d'
  graph : d'.graph = d.graph
  unmarked : d'.unmarked.card ≤ d.unmarked.card
  deadlock : d'.deadlock = if hit then 1 else d.deadlock

/-- `DFS` with this bound on the depth, from a state that has few enough vertices without a mark. -/
def Explores (max fuel : Nat) : Prop :=
  ∀ d idx, Traced max d → idx < d.graph.num → d.unmarked.card < fuel →
    d.k + d.unmarked.card ≤ d.graph.num →
    Ok (dfs max fuel (some idx)) d fun _ d' =>
      d'.k = d.k + 1 ∧ ∃ hit, Searched max [(d.graph.list idx).s] hit d d'

/-- The loop of `DFS` over the links. -/
theorem Explores.ok_links {fuel : Nat} (hdfs : Explores max fuel) (ws : List SourceType)
    (h : Traced max d) (hws : ∀ w ∈ ws, d.graph.HasVertex w) (hfuel : d.unmarked.card < fuel)
    (hk : d.k + d.unmarked.card ≤ d.graph.num) :
    Ok (ws.forM fun s => do
      let _ ← dfs max fuel (← onGraph (searchVertex max s))
      modify fun d => { d with k := d.k - 1 }) d fun _ d' =>
        d'.k = d.k ∧ ∃ hit, Searched max ws hit d d' := by
  induction ws generalizing d with
  | nil => exact (ok_pure _ d _).mpr ⟨rfl, false, .nil _, h, rfl, le_rfl, rfl⟩
  | cons w ws ih =>
      obtain ⟨idx, hidx, rfl⟩ := hws w List.mem_cons_self
      show Ok (_ >>= fun _ => ws.forM _) d _
      rw [ok_bind]
      beta_reduce
      rw [ok_bind, ok_search h.wired.num_le, h.wired.ok.index_eq_some.mpr ⟨hidx, rfl⟩, ok_bind]
      refine (hdfs d idx h hidx hfuel hk).mono ?_
      rintro - d₁ ⟨hk₁, hit, h₁⟩
      rw [ok_modify]
      have hnonneg := h.k_nonneg
      have htraced : Traced max { d₁ with k := d₁.k - 1 } := by
        refine ⟨h₁.traced.wired, ?_, fun i hi => h₁.traced.path i ?_⟩
        · change 0 ≤ d₁.k - 1
          omega
        · change (i : Int) < d₁.k - 1 at hi
          omega
      have hcard : ({ d₁ with k := d₁.k - 1 } : Detector).unmarked.card ≤ d.unmarked.card :=
        h₁.unmarked
      refine (ih htraced (fun w' hw' => ?_) (by omega) ?_).mono ?_
      · show d₁.graph.HasVertex w'
        rw [h₁.graph]
        exact hws w' (List.mem_cons_of_mem _ hw')
      · have hnum : d₁.graph.num = d.graph.num := congrArg TaskGraph.num h₁.graph
        show d₁.k - 1 + (d₁.unmarked.card : Int) ≤ d₁.graph.num
        have hle := h₁.unmarked
        omega
      · rintro - d₂ ⟨hk₂, hit', h₂⟩
        have hgraph : d₂.graph = d.graph := h₂.graph.trans h₁.graph
        have hsearch : Search d.graph.links ws d₁.marks d₂.marks hit' := h₁.graph ▸ h₂.search
        have hdeadlock : d₂.deadlock = if hit' then 1 else d₁.deadlock := h₂.deadlock
        refine ⟨?_, hit || hit', h₁.search.cons hsearch, h₂.traced, hgraph,
          h₂.unmarked.trans hcard, ?_⟩
        · change d₂.k = d₁.k - 1 at hk₂
          omega
        · rw [hdeadlock, h₁.deadlock]
          cases hit <;> cases hit' <;> rfl

/-- **`DFS` is a search**: it returns when the bound on the depth is above the number of vertices
without a mark, and it sets `deadlock` when it meets a mark. -/
theorem explores (max fuel : Nat) : Explores max fuel := by
  induction fuel with
  | zero => exact fun d idx _ _ hfuel => absurd hfuel (Nat.not_lt_zero _)
  | succ fuel ih =>
      intro d idx h hidx hfuel hk
      have hnum := h.wired.num_le
      have hnonneg := h.k_nonneg
      unfold dfs
      rw [ok_bind, ok_getVisited (by omega)]
      by_cases hmark : d.visited idx = 1
      · rw [if_pos hmark, ok_bind, ok_pushPath hnonneg (by omega), ok_bind]
        have hpush : (d.push idx).k = d.k + 1 := rfl
        refine ((h.push hidx).ok_printDeadlock (by omega) (by omega)).mono ?_
        rintro - d' ⟨printed, rfl⟩
        rw [ok_bind, ok_modify, ok_pure]
        have hseen := (mem_marks h.wired.ok hidx).mpr hmark
        have htraced := h.push hidx
        exact ⟨rfl, true, .seen hseen (.nil _),
          ⟨htraced.wired, htraced.k_nonneg, htraced.path⟩, rfl, le_rfl, rfl⟩
      · rw [if_neg hmark, ok_bind, ok_mark (by omega), ok_bind,
          ok_pushPath (d := d.mark idx) hnonneg (by show d.k ≤ max; omega), ok_bind,
          ok_vertex (by omega), ok_bind]
        have hcard := card_unmarked_mark hidx hmark
        have hcard' : ((d.mark idx).push idx).unmarked.card = (d.mark idx).unmarked.card := rfl
        have hk' : ((d.mark idx).push idx).k = d.k + 1 := rfl
        refine (ih.ok_links _ ((h.mark idx).push hidx) (h.wired.linked idx hidx)
          (by omega) ?_).mono ?_
        · show _ ≤ (d.graph.num : Int)
          omega
        · rintro - d' ⟨hk₁, hit, h₁⟩
          have hw := mt (mem_marks h.wired.ok hidx).mp hmark
          have hsearch : Search d.graph.links (d.graph.links (d.graph.list idx).s)
              (insert (d.graph.list idx).s d.marks) d'.marks hit := by
            rw [h.wired.ok.links_eq hidx, ← marks_mark hidx]
            exact h₁.search
          have hunmarked := h₁.unmarked
          rw [ok_pure]
          refine ⟨hk₁, hit, ?_, h₁.traced, h₁.graph, by omega, h₁.deadlock⟩
          have henter := Search.enter hw hsearch (.nil _)
          rwa [Bool.or_false] at henter

end KvStore.Deadlock
