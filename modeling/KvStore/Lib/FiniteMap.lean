import Mathlib.Data.Finmap
import Mathlib.Tactic

set_option autoImplicit false

/-! # The finite map of a list of bindings

A concrete store keeps its bindings in some order; `ofPairs es` is the finite map they stand for.
When no key occurs twice, adding, dropping or changing one binding anywhere in the list is
`Finmap.insert` or `Finmap.erase` on the map.
-/

namespace KvStore.Lib

section FiniteMap

variable {κ ν : Type} [DecidableEq κ] {es : List (κ × ν)}

/-- The finite map with the bindings `es`. -/
def ofPairs (es : List (κ × ν)) : Finmap (fun _ : κ => ν) :=
  (es.map fun p => (⟨p.1, p.2⟩ : Sigma fun _ : κ => ν)).toFinmap

@[simp] theorem ofPairs_cons (k : κ) (v : ν) (es : List (κ × ν)) :
    ofPairs ((k, v) :: es) = (ofPairs es).insert k v := Finmap.toFinmap_cons ..

theorem mem_ofPairs {k : κ} : k ∈ ofPairs es ↔ k ∈ es.map Prod.fst := by
  induction es with
  | nil => exact iff_of_false Finmap.notMem_empty List.not_mem_nil
  | cons p es ih =>
      obtain ⟨k', v⟩ := p
      rw [ofPairs_cons, Finmap.mem_insert, ih]
      simp

/-- The map of a list in which no key occurs twice. -/
theorem lookup_ofPairs (h : (es.map Prod.fst).Nodup) {k : κ} {v : ν} :
    (ofPairs es).lookup k = some v ↔ (k, v) ∈ es := by
  induction es with
  | nil =>
      have hnone : (ofPairs ([] : List (κ × ν))).lookup k = none := rfl
      simp [hnone]
  | cons p es ih =>
      obtain ⟨k', v'⟩ := p
      rw [List.map_cons, List.nodup_cons] at h
      rw [ofPairs_cons, List.mem_cons]
      by_cases hk : k = k'
      · subst hk
        have hout : (k, v) ∉ es := fun hm => h.1 (List.mem_map.mpr ⟨_, hm, rfl⟩)
        rw [Finmap.lookup_insert]
        simp [hout, eq_comm]
      · rw [Finmap.lookup_insert_of_ne _ hk, ih h.2]
        simp [hk]

theorem ofPairs_perm {es' : List (κ × ν)} (hp : es.Perm es') (h : (es.map Prod.fst).Nodup) :
    ofPairs es = ofPairs es' := by
  have h' : (es'.map Prod.fst).Nodup := (hp.map Prod.fst).nodup_iff.mp h
  refine Finmap.ext_lookup fun k => Option.ext fun v => ?_
  rw [lookup_ofPairs h, lookup_ofPairs h', hp.mem_iff]

section Middle

variable {E₁ E₂ : List (κ × ν)} {k : κ} {v v' : ν}

/-- A binding added somewhere in the list. -/
theorem ofPairs_middle (h : ((E₁ ++ (k, v) :: E₂).map Prod.fst).Nodup) :
    ofPairs (E₁ ++ (k, v) :: E₂) = (ofPairs (E₁ ++ E₂)).insert k v := by
  rw [ofPairs_perm List.perm_middle h, ofPairs_cons]

theorem notMem_ofPairs_middle (h : ((E₁ ++ (k, v) :: E₂).map Prod.fst).Nodup) :
    k ∉ ofPairs (E₁ ++ E₂) := by
  have h' := (List.perm_middle.map Prod.fst).nodup_iff.mp h
  rw [List.map_cons, List.nodup_cons] at h'
  rw [mem_ofPairs]
  exact h'.1

/-- A binding dropped. -/
theorem ofPairs_drop (h : ((E₁ ++ (k, v) :: E₂).map Prod.fst).Nodup) :
    ofPairs (E₁ ++ E₂) = (ofPairs (E₁ ++ (k, v) :: E₂)).erase k := by
  have hk := notMem_ofPairs_middle h
  rw [ofPairs_middle h]
  refine Finmap.ext_lookup fun x => ?_
  by_cases hx : x = k
  · subst hx
    rw [Finmap.lookup_erase, Finmap.lookup_eq_none.mpr hk]
  · rw [Finmap.lookup_erase_ne hx, Finmap.lookup_insert_of_ne _ hx]

/-- A binding changed. -/
theorem ofPairs_change (h : ((E₁ ++ (k, v) :: E₂).map Prod.fst).Nodup) :
    ofPairs (E₁ ++ (k, v') :: E₂) = (ofPairs (E₁ ++ (k, v) :: E₂)).insert k v' := by
  have h' : ((E₁ ++ (k, v') :: E₂).map Prod.fst).Nodup := by simpa using h
  rw [ofPairs_middle h, ofPairs_middle h', Finmap.insert_insert]

end Middle

theorem keys_insert (m : Finmap fun _ : κ => ν) (k : κ) (v : ν) :
    (m.insert k v).keys = insert k m.keys := by
  ext x
  rw [Finmap.mem_keys, Finmap.mem_insert, Finset.mem_insert, Finmap.mem_keys]

theorem card_keys_ofPairs (h : (es.map Prod.fst).Nodup) : (ofPairs es).keys.card = es.length := by
  have hkeys : (ofPairs es).keys = (es.map Prod.fst).toFinset := by
    ext k
    rw [Finmap.mem_keys, mem_ofPairs, List.mem_toFinset]
  rw [hkeys, List.toFinset_card_of_nodup h, List.length_map]

end FiniteMap

end KvStore.Lib
