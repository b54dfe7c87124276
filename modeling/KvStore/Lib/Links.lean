import KvStore.Lib.Exec

set_option autoImplicit false

/-! # Linked lists in a memory

`Links next p L q`: when `next` gives the link of each place, the pointer `p` leads through the
places `L`, in this order, to `q`. A list keeps its links when those of its own places are kept
(`Links.congr`); a place in front of it is pushed, or popped, by the definition itself. From each of
its places on there is a list again (`Links.exists_suffix`), the last link leads to the end
(`Links.next_last`), and a place is appended by a write to it (`Links.append_last`). A loop that
follows the links is proved with `Ok.walk`. -/

namespace KvStore.Lib

/-- From `p`, the links lead through `L` to `q`. -/
def Links (next : Nat → Nat) : Nat → List Nat → Nat → Prop
  | p, [], q => p = q
  | p, a :: L, q => p = a ∧ Links next (next a) L q

variable {next next' : Nat → Nat} {p q : Nat} {L : List Nat}

theorem Links.congr (h : Links next p L q) (hnext : ∀ a ∈ L, next' a = next a) :
    Links next' p L q := by
  induction L generalizing p with
  | nil => exact h
  | cons a L ih =>
      refine ⟨h.1, ?_⟩
      rw [hnext a List.mem_cons_self]
      exact ih h.2 fun b hb => hnext b (List.mem_cons_of_mem a hb)

/-- The part of the list from one of its places on. -/
theorem Links.exists_suffix (h : Links next p L q) {a : Nat} (ha : a ∈ L) :
    ∃ M, M <:+ L ∧ Links next a M q ∧ M ≠ [] := by
  induction L generalizing p with
  | nil => cases ha
  | cons b L ih =>
      rcases List.mem_cons.mp ha with rfl | ha
      · exact ⟨a :: L, List.suffix_rfl, ⟨rfl, h.2⟩, List.cons_ne_nil a L⟩
      · obtain ⟨M, hM, hlinks⟩ := ih h.2 ha
        exact ⟨M, hM.trans (List.suffix_cons b L), hlinks⟩

/-- A list whose places are not `NULL` is empty when it starts with `NULL`. -/
theorem Links.eq_nil (h : Links next 0 L q) (hL : 0 ∉ L) : L = [] := by
  cases L with
  | nil => rfl
  | cons a L => exact absurd (h.1 ▸ List.mem_cons_self) hL

/-- The link of the last place. -/
theorem Links.next_last {a : Nat} (h : Links next p (L ++ [a]) q) : next a = q := by
  induction L generalizing p with
  | nil => exact h.2
  | cons b L ih => exact ih h.2

/-- The place `b` is appended by a write to the link of the last place `a`. -/
theorem Links.append_last (h : Links next p L 0) (hL : 0 ∉ L) {a b : Nat} (ha : a ∈ L)
    (hlast : next a = 0) (hnext : ∀ c ∈ L, next' c = if c = a then b else next c) :
    Links next' p (L ++ [b]) (next' b) := by
  induction L generalizing p with
  | nil => cases ha
  | cons c L ih =>
      refine ⟨h.1, ?_⟩
      rw [hnext c List.mem_cons_self]
      split_ifs with hc
      · subst hc
        have hnil : L = [] := Links.eq_nil (hlast ▸ h.2) fun h0 => hL (List.mem_cons_of_mem c h0)
        subst hnil
        exact ⟨rfl, rfl⟩
      · have ha' : a ∈ L := (List.mem_cons.mp ha).resolve_left fun hac => hc hac.symm
        exact ih h.2 (fun h0 => hL (List.mem_cons_of_mem c h0)) ha' fun d hd =>
          hnext d (List.mem_cons_of_mem c hd)

/-- A row of places, each linked to the next. -/
theorem links_row {place : Nat → Nat} {n : Nat} (h : ∀ i < n, next (place i) = place (i + 1)) :
    Links next (place 0) ((List.range n).map place) (place n) := by
  have key : ∀ k i, i + k = n → Links next (place i) ((List.range' i k).map place) (place n) := by
    intro k
    induction k with
    | zero =>
        rintro i rfl
        rfl
    | succ k ih =>
        intro i hi
        rw [List.range'_succ, List.map_cons]
        refine ⟨rfl, ?_⟩
        rw [h i (by omega)]
        exact ih (i + 1) (by omega)
  rw [List.range_eq_range']
  exact key n 0 (Nat.zero_add n)

/-! ## Loops along a list -/

section Walk

variable {σ α ρ : Type}

/-- **The rule for a loop along a list.** `ptr a` is the place the iteration `a` is at, and
`I M a s` holds when `M` is what is left of the list; every iteration leaves the loop in `Q` or goes
on to the next place. -/
theorem Ok.walk {body : α → Exec σ (α ⊕ ρ)} (ptr : α → Nat) (I : List Nat → α → σ → Prop)
    (Q : ρ → σ → Prop)
    (hend : ∀ a s, ptr a = 0 → I [] a s → Ok (body a) s fun x s' => ∃ r, x = .inr r ∧ Q r s')
    (hcons : ∀ c M a s, ptr a = c → Links next (next c) M 0 → I (c :: M) a s →
      Ok (body a) s fun x s' =>
        match x with
        | .inl a' => ptr a' = next c ∧ I M a' s'
        | .inr r => Q r s')
    {n : Nat} {a : α} {s : σ} (hn : L.length < n) (hlinks : Links next (ptr a) L 0) (hI : I L a s) :
    Ok (Lib.loop body n a) s Q := by
  refine Ok.loop (ι := List Nat) (fun M a s => Links next (ptr a) M 0 ∧ I M a s) List.length Q ?_
    n L a s hn ⟨hlinks, hI⟩
  rintro M a s ⟨hlinks, hI⟩
  cases M with
  | nil =>
      refine (hend a s hlinks hI).mono ?_
      rintro x s' ⟨r, rfl, hQ⟩
      exact hQ
  | cons c M =>
      refine (hcons c M a s hlinks.1 hlinks.2 hI).mono ?_
      intro x s' hx
      cases x with
      | inl a' => exact ⟨M, ⟨hx.1.symm ▸ hlinks.2, hx.2⟩, Nat.lt_succ_self _⟩
      | inr r => exact hx

end Walk

end KvStore.Lib
