import Mathlib.Logic.Relation
import Mathlib.Data.Set.Insert
import Mathlib.Data.List.Nodup
import Mathlib.Tactic

set_option autoImplicit false

/-! # Depth-first search with marks that stay

A search goes along lists of successors and marks every vertex it enters. It stops at a vertex that
is marked already, and reports it. `Search succ ws V W hit`: the search that starts from the
vertices `ws`, one after the other, with the marks `V`, ends with the marks `W`, and has met a
marked vertex if `hit` is true.

A search without a hit has entered each vertex along one way only: what it has entered is closed
under successors and branches like a forest (`Search.closed`, `Search.forest`). A search for which
this holds of everything below the starting vertices has no hit (`Search.eq_false`). -/

namespace KvStore.Lib

section Search

variable {α : Type} (succ : α → List α)

/-- Search from the vertices of a list, with the marks before and after, and whether a marked vertex
has been met. -/
inductive Search : List α → Set α → Set α → Bool → Prop
  | nil (V : Set α) : Search [] V V false
  | seen {w : α} {ws : List α} {V W : Set α} {hit : Bool} : w ∈ V → Search ws V W hit →
      Search (w :: ws) V W true
  | enter {w : α} {ws : List α} {V V₁ W : Set α} {hit hit' : Bool} : w ∉ V →
      Search (succ w) (insert w V) V₁ hit → Search ws V₁ W hit' → Search (w :: ws) V W (hit || hit')

/-- The vertices that can be reached from one of the list. -/
def Below (ws : List α) (u : α) : Prop :=
  ∃ w ∈ ws, Relation.ReflTransGen (fun a b => b ∈ succ a) w u

/-- In the set `R`, together with the starting vertices `ws`, every vertex has one way in at
most. -/
structure Forest (ws : List α) (R : Set α) : Prop where
  roots : ws.Nodup
  links : ∀ u ∈ R, (succ u).Nodup
  parent : ∀ u ∈ R, ∀ u' ∈ R, ∀ x, x ∈ succ u → x ∈ succ u' → u = u'
  root : ∀ u ∈ R, ∀ x ∈ succ u, x ∉ ws

variable {succ} {ws : List α} {V W : Set α} {hit : Bool} {u : α}

/-! ## Marks -/

theorem Search.subset (h : Search succ ws V W hit) : V ⊆ W := by
  induction h with
  | nil V => exact subset_rfl
  | seen _ _ ih => exact ih
  | enter _ _ _ ih ih' => exact (Set.subset_insert _ _).trans (ih.trans ih')

theorem Below.mono {ws' : List α} (hws : ∀ w ∈ ws, w ∈ ws') (h : Below succ ws u) :
    Below succ ws' u := by
  obtain ⟨w, hw, hu⟩ := h
  exact ⟨w, hws w hw, hu⟩

theorem below_self {w : α} (hw : w ∈ ws) : Below succ ws w := ⟨w, hw, .refl⟩

/-- What is below a successor is below the vertex. -/
theorem Below.of_succ {w : α} (hw : w ∈ ws) (h : Below succ (succ w) u) : Below succ ws u := by
  obtain ⟨x, hx, hu⟩ := h
  exact ⟨w, hw, .head hx hu⟩

/-- A vertex below the list is of the list, or a successor of another vertex below it. -/
theorem Below.cases (h : Below succ ws u) : u ∈ ws ∨ ∃ a, Below succ ws a ∧ u ∈ succ a := by
  obtain ⟨w, hw, hu⟩ := h
  cases hu with
  | refl => exact Or.inl hw
  | tail ha hu => exact Or.inr ⟨_, ⟨w, hw, ha⟩, hu⟩

/-- Only what is below the starting vertices gets a mark. -/
theorem Search.mem_or_below (h : Search succ ws V W hit) : ∀ x ∈ W, x ∈ V ∨ Below succ ws x := by
  induction h with
  | nil V => exact fun x hx => Or.inl hx
  | seen _ _ ih =>
      intro x hx
      exact (ih x hx).imp_right (Below.mono fun _ => List.mem_cons_of_mem _)
  | @enter w ws V V₁ W hit hit' _ _ _ ih ih' =>
      intro x hx
      rcases ih' x hx with hx | hx
      · rcases ih x hx with hx | hx
        · rcases hx with rfl | hx
          · exact Or.inr (below_self List.mem_cons_self)
          · exact Or.inl hx
        · exact Or.inr (hx.of_succ List.mem_cons_self)
      · exact Or.inr (hx.mono fun _ => List.mem_cons_of_mem _)

/-- The search from the first vertex, and then from the others. -/
theorem Search.cons {w : α} {V₁ : Set α} {hit' : Bool} (h : Search succ [w] V V₁ hit)
    (h' : Search succ ws V₁ W hit') : Search succ (w :: ws) V W (hit || hit') := by
  cases h with
  | seen hw hnil =>
      cases hnil
      exact .seen hw h'
  | enter hw hbelow hnil =>
      cases hnil
      rw [Bool.or_false]
      exact .enter hw hbelow h'

/-! ## Searches without a hit -/

/-- The starting vertices and the successors of what has been entered have been entered. -/
structure Closed (succ : α → List α) (ws : List α) (R : Set α) : Prop where
  roots : ∀ w ∈ ws, w ∈ R
  step : ∀ u ∈ R, ∀ x ∈ succ u, x ∈ R

theorem Closed.of_below {R : Set α} (h : Closed succ ws R) (hu : Below succ ws u) : u ∈ R := by
  obtain ⟨w, hw, hu⟩ := hu
  induction hu with
  | refl => exact h.roots w hw
  | tail _ hx ih => exact h.step _ ih _ hx

/-- What a search enters without a hit, in two parts: below the first vertex, and below the
others. -/
theorem diff_eq_insert {w : α} {V₁ : Set α} (hw : w ∉ V) (h₁ : insert w V ⊆ V₁) (h₂ : V₁ ⊆ W) :
    W \ V = insert w (V₁ \ insert w V ∪ W \ V₁) := by
  have hw₁ : w ∈ V₁ := h₁ (Set.mem_insert w V)
  ext x
  have hx₁ : x ∈ V → x ∈ V₁ := fun hx => h₁ (Set.mem_insert_of_mem w hx)
  have hx₂ : x ∈ V₁ → x ∈ W := fun hx => h₂ hx
  by_cases hxw : x = w
  · subst hxw
    simp [hw, h₂ hw₁]
  · simp only [Set.mem_sdiff, Set.mem_insert_iff, Set.mem_union, hxw, false_or]
    tauto

theorem Search.closed (h : Search succ ws V W false) : Closed succ ws (W \ V) := by
  generalize hb : false = b at h
  induction h with
  | nil V => exact ⟨nofun, fun u hu => absurd hu.1 hu.2⟩
  | seen _ _ _ => cases hb
  | @enter w ws V V₁ W hit hit' hw h₁ h₂ ih ih' =>
      obtain ⟨rfl, rfl⟩ : false = hit ∧ false = hit' := by simpa using hb
      rw [diff_eq_insert hw h₁.subset h₂.subset]
      refine ⟨fun x hx => ?_, fun u hu x hx => ?_⟩
      · rcases List.mem_cons.mp hx with rfl | hx
        · exact Set.mem_insert x _
        · exact Set.mem_insert_of_mem w (Or.inr ((ih' rfl).roots x hx))
      · rcases hu with rfl | hu | hu
        · exact Set.mem_insert_of_mem u (Or.inl ((ih rfl).roots x hx))
        · exact Set.mem_insert_of_mem w (Or.inl ((ih rfl).step u hu x hx))
        · exact Set.mem_insert_of_mem w (Or.inr ((ih' rfl).step u hu x hx))

theorem Search.forest (h : Search succ ws V W false) : Forest succ ws (W \ V) := by
  generalize hb : false = b at h
  induction h with
  | nil V =>
      refine ⟨List.nodup_nil, fun u hu => ?_, fun u hu => ?_, fun _ _ _ _ => List.not_mem_nil⟩
      · exact absurd hu.1 hu.2
      · exact absurd hu.1 hu.2
  | seen _ _ _ => cases hb
  | @enter w ws V V₁ W hit hit' hw h₁ h₂ ih ih' =>
      obtain ⟨rfl, rfl⟩ : false = hit ∧ false = hit' := by simpa using hb
      have hclosed₁ := h₁.closed
      have hclosed₂ := h₂.closed
      obtain ⟨hroots₁, hlinks₁, hparent₁, hroot₁⟩ := ih rfl
      obtain ⟨hroots₂, hlinks₂, hparent₂, hroot₂⟩ := ih' rfl
      -- the successors of the vertices on either side stay there
      have hleft : ∀ u, u = w ∨ u ∈ V₁ \ insert w V → ∀ x ∈ succ u, x ∈ V₁ ∧ x ≠ w := by
        rintro u hu x hx
        have hx₁ : x ∈ V₁ \ insert w V := by
          rcases hu with rfl | hu
          · exact hclosed₁.roots x hx
          · exact hclosed₁.step u hu x hx
        exact ⟨hx₁.1, fun hxw => hx₁.2 (hxw ▸ Set.mem_insert w V)⟩
      have hright : ∀ u ∈ W \ V₁, ∀ x ∈ succ u, x ∉ V₁ := fun u hu x hx =>
        (hclosed₂.step u hu x hx).2
      have hw₁ : w ∈ V₁ := h₁.subset (Set.mem_insert w V)
      have hcases : ∀ u ∈ W \ V, (u = w ∨ u ∈ V₁ \ insert w V) ∨ u ∈ W \ V₁ := by
        intro u hu
        rw [diff_eq_insert hw h₁.subset h₂.subset] at hu
        rcases hu with hu | hu | hu
        · exact Or.inl (Or.inl hu)
        · exact Or.inl (Or.inr hu)
        · exact Or.inr hu
      refine ⟨?_, fun u hu => ?_, fun u hu u' hu' x hx hx' => ?_, fun u hu x hx hmem => ?_⟩
      · exact List.nodup_cons.mpr ⟨fun hmem => (hclosed₂.roots w hmem).2 hw₁, hroots₂⟩
      · rcases hcases u hu with (rfl | hu) | hu
        · exact hroots₁
        · exact hlinks₁ u hu
        · exact hlinks₂ u hu
      · rcases hcases u hu with hu | hu <;> rcases hcases u' hu' with hu' | hu'
        · rcases hu with rfl | hu <;> rcases hu' with rfl | hu'
          · rfl
          · exact absurd hx (hroot₁ u' hu' x hx')
          · exact absurd hx' (hroot₁ u hu x hx)
          · exact hparent₁ u hu u' hu' x hx hx'
        · exact absurd (hleft u hu x hx).1 (hright u' hu' x hx')
        · exact absurd (hleft u' hu' x hx').1 (hright u hu x hx)
        · exact hparent₂ u hu u' hu' x hx hx'
      · rcases List.mem_cons.mp hmem with rfl | hmem
        · rcases hcases u hu with hu | hu
          · exact (hleft u hu x hx).2 rfl
          · exact hright u hu x hx hw₁
        · rcases hcases u hu with hu | hu
          · exact (hclosed₂.roots x hmem).2 (hleft u hu x hx).1
          · exact hroot₂ u hu x hx hmem

/-! ## Searches in a forest -/

section Forest

variable {w : α}

/-- In a forest the first starting vertex is below none of its successors. -/
theorem Forest.not_below_self (h : Forest succ (w :: ws) {u | Below succ (w :: ws) u}) :
    ¬Below succ (succ w) w := by
  intro hself
  rcases hself.cases with hmem | ⟨a, ha, hmem⟩
  · exact h.root w (below_self List.mem_cons_self) w hmem List.mem_cons_self
  · exact h.root a (ha.of_succ List.mem_cons_self) w hmem List.mem_cons_self

/-- The trees of a forest are apart. -/
theorem Forest.not_below_both (h : Forest succ (w :: ws) {u | Below succ (w :: ws) u})
    (hu : Below succ [w] u) : ¬Below succ ws u := by
  obtain ⟨w', hw', hu⟩ := hu
  obtain rfl := List.mem_singleton.mp hw'
  have hmono : ∀ {x}, Below succ ws x → Below succ (w' :: ws) x :=
    Below.mono fun _ => List.mem_cons_of_mem _
  induction hu with
  | refl =>
      intro hbelow
      rcases hbelow.cases with hmem | ⟨a, ha, hmem⟩
      · exact (List.nodup_cons.mp h.roots).1 hmem
      · exact h.root a (hmono ha) w' hmem List.mem_cons_self
  | @tail b c hb hc ih =>
      intro hbelow
      have hb' : Below succ (w' :: ws) b := ⟨w', List.mem_cons_self, hb⟩
      rcases hbelow.cases with hmem | ⟨a, ha, hmem⟩
      · exact h.root b hb' c hc (List.mem_cons_of_mem _ hmem)
      · -- the only way into `c` is the one from `b`
        have hab : a = b := h.parent a (hmono ha) b hb' c hmem hc
        exact ih (hab ▸ ha)

theorem Forest.tail (h : Forest succ (w :: ws) {u | Below succ (w :: ws) u}) :
    Forest succ ws {u | Below succ ws u} := by
  have hmono : ∀ u, Below succ ws u → Below succ (w :: ws) u := fun _ =>
    Below.mono fun _ => List.mem_cons_of_mem _
  refine ⟨(List.nodup_cons.mp h.roots).2, fun u hu => h.links u (hmono u hu),
    fun u hu u' hu' => h.parent u (hmono u hu) u' (hmono u' hu'), fun u hu x hx hmem => ?_⟩
  exact h.root u (hmono u hu) x hx (List.mem_cons_of_mem w hmem)

theorem Forest.head (h : Forest succ (w :: ws) {u | Below succ (w :: ws) u}) :
    Forest succ (succ w) {u | Below succ (succ w) u} := by
  have hmono : ∀ u, Below succ (succ w) u → Below succ (w :: ws) u := fun _ hu =>
    hu.of_succ List.mem_cons_self
  have hw : Below succ (w :: ws) w := below_self List.mem_cons_self
  refine ⟨h.links w hw, fun u hu => h.links u (hmono u hu),
    fun u hu u' hu' => h.parent u (hmono u hu) u' (hmono u' hu'), fun u hu x hx hmem => ?_⟩
  have huw : u = w := h.parent u (hmono u hu) w hw x hx hmem
  exact h.not_below_self (huw ▸ hu)

end Forest

/-- A search in a forest that has no marks meets none. -/
theorem Search.eq_false (h : Search succ ws V W hit)
    (hforest : Forest succ ws {u | Below succ ws u}) (hfree : ∀ u, Below succ ws u → u ∉ V) :
    hit = false := by
  induction h with
  | nil V => rfl
  | seen hw _ _ => exact absurd hw (hfree _ (below_self List.mem_cons_self))
  | @enter w ws V V₁ W hit hit' hw h₁ h₂ ih ih' =>
      have hhit : hit = false := by
        refine ih hforest.head fun u hu hmem => ?_
        rcases hmem with rfl | hmem
        · exact hforest.not_below_self hu
        · exact hfree u (hu.of_succ List.mem_cons_self) hmem
      have hhit' : hit' = false := by
        refine ih' hforest.tail fun u hu hmem => ?_
        rcases h₁.mem_or_below u hmem with (rfl | hV) | hbelow
        · exact hforest.not_below_both (below_self (List.mem_singleton_self u)) hu
        · exact hfree u (hu.mono fun _ => List.mem_cons_of_mem _) hV
        · exact hforest.not_below_both (hbelow.of_succ (List.mem_singleton_self w)) hu
      rw [hhit, hhit']
      rfl

end Search

end KvStore.Lib
