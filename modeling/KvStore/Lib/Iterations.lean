import KvStore.Lib.Exec

set_option autoImplicit false

/-! # The iterations of a loop

`Iterates step a s L r s'`: the loop with the body `step`, entered at `a` in the state `s`, goes
through the points `L`, one for each iteration, and ends with the result `r` in the state `s'`.
There is no bound in it, so that it says that the loop ends by itself. `Advances P m p L` says of a
sequence of points that every iteration makes progress in the sense of `P`, apart from at most the
last `m`; `exists_iterates` finds such a sequence from an invariant and a measure. -/

namespace KvStore.Lib

variable {σ α ρ : Type}

/-- The iterations of a loop, from its entry to its end. -/
inductive Iterates (step : α → Exec σ (α ⊕ ρ)) : α → σ → List (α × σ) → ρ → σ → Prop
  | exit {a : α} {s s' : σ} {r : ρ} : (step a).run s = .ok (.inr r, s') → Iterates step a s [] r s'
  | next {a a' : α} {s s₁ s' : σ} {L : List (α × σ)} {r : ρ} : (step a).run s = .ok (.inl a', s₁) →
      Iterates step a' s₁ L r s' → Iterates step a s ((a', s₁) :: L) r s'

/-- Each iteration makes progress, or is one of the last `m`. -/
def Advances (P : α × σ → α × σ → Prop) (m : Nat) : α × σ → List (α × σ) → Prop
  | _, [] => True
  | p, q :: L => (P p q ∨ L.length < m) ∧ Advances P m q L

/-- **A loop with a measure ends.** Every iteration makes the measure smaller; it makes progress, or
it makes the measure zero, so that no other follows. -/
theorem exists_iterates {ι : Type} {step : α → Exec σ (α ⊕ ρ)} (I : ι → α → σ → Prop) (μ : ι → Nat)
    (P : α × σ → α × σ → Prop) (hstep : ∀ i a s, I i a s → Ok (step a) s fun x s' =>
      match x with
      | .inl a' => ∃ i', I i' a' s' ∧ μ i' < μ i ∧ (P (a, s) (a', s') ∨ μ i' = 0)
      | .inr _ => True)
    {i : ι} {a : α} {s : σ} (hI : I i a s) :
    ∃ L r s', Iterates step a s L r s' ∧ L.length ≤ μ i ∧ Advances P 1 (a, s) L := by
  induction hμ : μ i using Nat.strong_induction_on generalizing i a s with
  | _ m ih =>
      obtain ⟨x, s₁, hrun, hx⟩ := hstep i a s hI
      cases x with
      | inr r => exact ⟨[], r, s₁, .exit hrun, Nat.zero_le _, trivial⟩
      | inl a' =>
          obtain ⟨i', hI', hlt, hprogress⟩ := hx
          rw [hμ] at hlt
          obtain ⟨L, r, s', hL, hlen, hadv⟩ := ih (μ i') hlt hI' rfl
          refine ⟨(a', s₁) :: L, r, s', .next hrun hL, ?_, ?_, hadv⟩
          · rw [List.length_cons]
            omega
          · refine hprogress.imp_right fun h0 => ?_
            omega

end KvStore.Lib
