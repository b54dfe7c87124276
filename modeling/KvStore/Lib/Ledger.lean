import KvStore.Lib.Memory

set_option autoImplicit false

/-! # Which blocks are allocated

A ledger of the blocks of a memory. `Trades s s' freed made` says how the allocated blocks of `s'`
differ from those of `s`: the blocks `freed` have been given back and the blocks `made` are new.
`Owns s₀ s L` says that since `s₀` the program has allocated and not given back exactly the blocks
`L`; an operation that trades blocks of `L` keeps the ledger (`Owns.trade`).
-/

namespace KvStore.Lib.Store

variable {β γ : Type} {s s' s'' s₀ : Store β γ} {p q : Nat}

/-! ## Live blocks -/

/-- A block is allocated at `p`. -/
def Live (s : Store β γ) (p : Nat) : Prop := (s.node p).isSome ∨ (s.str p).isSome

theorem Live.lt (h : s.Live p) (hs : s.WF) : p < s.next := by
  rcases h with h | h
  · exact (hs.node_bound p h).2
  · exact (hs.str_bound p h).2

@[simp] theorem live_modDesc (g : γ → γ) : (s.modDesc g).Live p ↔ s.Live p := Iff.rfl

@[simp] theorem live_modNode (g : β → β) : (s.modNode q g).Live p ↔ s.Live p := by
  rw [Live, modNode_node_isSome]
  exact Iff.rfl

@[simp] theorem live_modStr (g : StrBlock → StrBlock) : (s.modStr q g).Live p ↔ s.Live p := by
  have hstr : ∀ r, ((s.modStr q g).str r).isSome = (s.str r).isSome := by
    intro r
    by_cases hr : r = q
    · subst hr
      simp [modStr]
    · rw [modStr_str_ne s g hr]
  rw [Live, hstr]
  exact Iff.rfl

@[simp] theorem live_putStr (v : CStr) : (s.putStr q v).Live p ↔ s.Live p := live_modStr _

theorem live_allocNode (b : β) : (s.allocNode b).Live p ↔ s.Live p ∨ p = s.next := by
  by_cases hp : p = s.next
  · subst hp
    simp [Live, allocNode_node_self]
  · simp [Live, allocNode_node_ne s b hp, hp]

theorem live_allocStr (n : Nat) : (s.allocStr n).Live p ↔ s.Live p ∨ p = s.next := by
  by_cases hp : p = s.next
  · subst hp
    simp [Live, allocStr_str_self]
  · simp [Live, allocStr_str_ne s n hp, hp]

theorem live_dropNode (hs : s.WF) (hq : (s.node q).isSome) :
    (s.dropNode q).Live p ↔ s.Live p ∧ p ≠ q := by
  have hstr : s.str q = none := by
    by_contra hne
    have hnone := hs.disjoint q (Option.isSome_iff_ne_none.mpr hne)
    rw [hnone] at hq
    cases hq
  by_cases hp : p = q
  · subst hp
    simp [Live, dropNode, hstr]
  · simp [Live, dropNode_node_ne s hp, hp]

theorem live_dropStr (hs : s.WF) (hq : (s.str q).isSome) :
    (s.dropStr q).Live p ↔ s.Live p ∧ p ≠ q := by
  have hnode : s.node q = none := hs.disjoint q hq
  by_cases hp : p = q
  · subst hp
    simp [Live, dropStr, hnode]
  · simp [Live, dropStr_str_ne s hp, hp]

theorem live_release (hs : s.WF) (hq : q = 0 ∨ (s.str q).isSome) :
    (s.release q).Live p ↔ s.Live p ∧ p ∉ if q = 0 then [] else [q] := by
  unfold release
  split_ifs with h0
  · simp
  · rw [live_dropStr hs (hq.resolve_left h0), List.mem_singleton]

theorem live_attachStr {g : Nat → β → β} {v : CStr} :
    (s.attachStr q g v).Live p ↔ s.Live p ∨ p = s.next := by
  rw [attachStr, live_putStr, live_modNode, live_allocStr]

/-! ## Trades -/

/-- From `s` to `s'` the blocks `freed` have been given back and the blocks `made` allocated. -/
structure Trades (s s' : Store β γ) (freed made : List Nat) : Prop where
  live : ∀ p, s'.Live p ↔ s.Live p ∧ p ∉ freed ∨ p ∈ made
  fresh : ∀ p ∈ made, s.next ≤ p
  next : s.next ≤ s'.next

/-- Operations that neither allocate nor free. -/
theorem Trades.of_live (hlive : ∀ p, s'.Live p ↔ s.Live p) (hnext : s'.next = s.next) :
    Trades s s' [] [] where
  live p := by simp [hlive p]
  fresh p hp := absurd hp List.not_mem_nil
  next := hnext.ge

/-- The memory before may differ in the contents of its blocks. -/
theorem Trades.of_eq_live {freed made : List Nat} (h : Trades s' s'' freed made)
    (hlive : ∀ p, s'.Live p ↔ s.Live p) (hnext : s'.next = s.next) : Trades s s'' freed made where
  live p := by rw [h.live, hlive]
  fresh p hp := hnext ▸ h.fresh p hp
  next := hnext ▸ h.next

theorem Trades.trans_keep {freed made : List Nat} (h : Trades s s' freed made)
    (h' : Trades s' s'' [] []) : Trades s s'' freed made where
  live p := by
    rw [h'.live, h.live]
    simp
  fresh := h.fresh
  next := h.next.trans h'.next

theorem Trades.modDesc {freed made : List Nat} (h : Trades s s' freed made) (g : γ → γ) :
    Trades s (s'.modDesc g) freed made := ⟨h.live, h.fresh, h.next⟩

/-! ## The ledger -/

/-- The allocated blocks are those of `s₀`, and the blocks `L` that have been allocated since. -/
structure Owns (s₀ s : Store β γ) (L : List Nat) : Prop where
  live : ∀ p, s.Live p ↔ s₀.Live p ∨ p ∈ L
  fresh : ∀ p ∈ L, s₀.next ≤ p
  next : s₀.next ≤ s.next

theorem Owns.refl (s : Store β γ) : Owns s s [] where
  live p := by simp
  fresh p hp := absurd hp List.not_mem_nil
  next := le_rfl

/-- The blocks allocated since `s₀` are those of the list. -/
theorem Owns.mem_iff {L : List Nat} (h : Owns s₀ s L) (hs₀ : s₀.WF) :
    s₀.next ≤ p ∧ s.Live p ↔ p ∈ L := by
  constructor
  · rintro ⟨hp, hlive⟩
    rcases (h.live p).mp hlive with hold | hnew
    · have := hold.lt hs₀
      omega
    · exact hnew
  · intro hp
    exact ⟨h.fresh p hp, (h.live p).mpr (Or.inr hp)⟩

/-- An operation that gives back blocks of the ledger and allocates others. -/
theorem Owns.trade {L L' freed made : List Nat} (h : Owns s₀ s L) (hs₀ : s₀.WF)
    (ht : Trades s s' freed made) (hsub : ∀ p ∈ freed, p ∈ L)
    (hL' : ∀ p, p ∈ L' ↔ p ∈ L ∧ p ∉ freed ∨ p ∈ made) : Owns s₀ s' L' where
  live p := by
    -- no block of `s₀` is given back
    have hkeep : s₀.Live p → p ∉ freed := by
      intro hold hp
      have hlt := hold.lt hs₀
      have hge := h.fresh p (hsub p hp)
      omega
    rw [ht.live, h.live, hL']
    tauto
  fresh p hp := by
    rcases (hL' p).mp hp with hold | hnew
    · exact h.fresh p hold.1
    · exact h.next.trans (ht.fresh p hnew)
  next := h.next.trans ht.next

section Exchange

variable {L L' R freed made : List Nat}

/-- The blocks `freed` of the ledger are exchanged for the blocks `made`. -/
theorem Owns.exchange (h : Owns s₀ s L) (hs₀ : s₀.WF) (ht : Trades s s' freed made) (hnd : L.Nodup)
    (hL : L.Perm (freed ++ R)) (hL' : L'.Perm (made ++ R)) : Owns s₀ s' L' := by
  refine h.trade hs₀ ht (fun p hp => hL.mem_iff.mpr (List.mem_append_left _ hp)) fun p => ?_
  -- what stays is not given back
  have hstay : p ∈ R → p ∉ freed := by
    intro hR hp
    exact (List.nodup_append.mp (hL.nodup_iff.mp hnd)).2.2 p hp p hR rfl
  rw [hL'.mem_iff, hL.mem_iff, List.mem_append, List.mem_append]
  tauto

/-- The new blocks differ from those that stay. -/
theorem Owns.exchange_nodup (h : Owns s₀ s L) (hs : s.WF) (ht : Trades s s' freed made)
    (hmade : made.Nodup) (hnd : L.Nodup) (hL : L.Perm (freed ++ R)) (hL' : L'.Perm (made ++ R)) :
    L'.Nodup := by
  have hR := (List.nodup_append.mp (hL.nodup_iff.mp hnd)).2.1
  rw [hL'.nodup_iff, List.nodup_append]
  refine ⟨hmade, hR, ?_⟩
  rintro p hp q hq rfl
  have hge := ht.fresh p hp
  have hlive : s.Live p := (h.live p).mpr (Or.inr (hL.mem_iff.mpr (List.mem_append_right _ hq)))
  have hlt := hlive.lt hs
  omega

end Exchange

end KvStore.Lib.Store
