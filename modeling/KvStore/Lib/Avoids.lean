import KvStore.Lib.Memory

set_option autoImplicit false

/-! # Faults that cannot happen

`Avoids e c`: whatever the state, the computation `c` does not go wrong with the fault `e`. A
computation avoids a fault when its parts do, and a loop when its body does, so the question comes
down to the few primitives that have the fault at all. -/

namespace KvStore.Lib

section Rules

variable {σ α β ρ : Type} {e : Fault}

/-- From no state does `c` go wrong with `e`. -/
def Avoids (e : Fault) (c : Exec σ α) : Prop := ∀ s, c.run s ≠ .error e

theorem avoids_pure (a : α) : Avoids e (pure a : Exec σ α) := by
  intro s hrun
  cases hrun

theorem avoids_get : Avoids e (get : Exec σ σ) := by
  intro s hrun
  cases hrun

theorem avoids_modify (f : σ → σ) : Avoids e (modify f : Exec σ Unit) := by
  intro s hrun
  cases hrun

theorem avoids_throw {e' : Fault} (h : e' ≠ e) : Avoids e (throw e' : Exec σ α) := by
  intro s hrun
  cases hrun
  exact h rfl

theorem avoids_bind {c : Exec σ α} {f : α → Exec σ β} (hc : Avoids e c) (hf : ∀ a, Avoids e (f a)) :
    Avoids e (c >>= f) := by
  intro s hrun
  cases hfirst : c.run s with
  | error e' =>
      rw [run_bind_error hfirst] at hrun
      cases hrun
      exact hc s hfirst
  | ok p =>
      rw [run_bind_ok hfirst] at hrun
      exact hf p.1 p.2 hrun

theorem avoids_ite {p : Prop} [Decidable p] {c d : Exec σ α} (hc : p → Avoids e c)
    (hd : ¬p → Avoids e d) : Avoids e (if p then c else d) := by
  split_ifs with h
  · exact hc h
  · exact hd h

theorem avoids_loop {step : α → Exec σ (α ⊕ ρ)} (he : Fault.noFuel ≠ e)
    (hstep : ∀ a, Avoids e (step a)) : ∀ n a, Avoids e (loop step n a) := by
  intro n
  induction n with
  | zero => exact fun _ => avoids_throw he
  | succ n ih =>
      intro a
      refine avoids_bind (hstep a) fun x => ?_
      cases x with
      | inl a' => exact ih a'
      | inr r => exact avoids_pure r

end Rules

/-! ## The block memory has no arrays -/

section Memory

variable {β γ τ : Type}

theorem badAccess_ne (p : Nat) : badAccess p ≠ .outOfBounds := by
  unfold badAccess
  split_ifs <;> decide

theorem avoids_readField (f : β → Option τ) (p : Nat) :
    Avoids .outOfBounds (readField f p : Exec (Store β γ) τ) := by
  refine avoids_bind avoids_get fun s => ?_
  cases s.node p with
  | none => exact avoids_throw (badAccess_ne p)
  | some b =>
      dsimp only
      cases f b with
      | none => exact avoids_throw (by decide)
      | some v => exact avoids_pure v

theorem avoids_writeField (g : β → β) (p : Nat) :
    Avoids .outOfBounds (writeField g p : Exec (Store β γ) Unit) := by
  refine avoids_bind avoids_get fun s => ?_
  cases s.node p with
  | none => exact avoids_throw (badAccess_ne p)
  | some b => exact avoids_modify _

theorem avoids_readDesc : Avoids .outOfBounds (readDesc : Exec (Store β γ) γ) :=
  avoids_bind avoids_get fun _ => avoids_pure _

theorem avoids_writeDesc (g : γ → γ) : Avoids .outOfBounds (writeDesc g : Exec (Store β γ) Unit) :=
  avoids_modify _

theorem avoids_readStr (p : Nat) : Avoids .outOfBounds (readStr p : Exec (Store β γ) CStr) := by
  refine avoids_bind avoids_get fun s => ?_
  cases s.str p with
  | none => exact avoids_throw (badAccess_ne p)
  | some b =>
      dsimp only
      cases b.str with
      | none => exact avoids_throw (by decide)
      | some v => exact avoids_pure v

theorem avoids_mallocNode (ok : Bool) (b : β) :
    Avoids .outOfBounds (mallocNode ok b : Exec (Store β γ) Nat) :=
  avoids_ite
    (fun _ => avoids_bind avoids_get fun _ => avoids_bind (avoids_modify _) fun _ => avoids_pure _)
    fun _ => avoids_pure 0

theorem avoids_mallocStr (ok : Bool) (n : Nat) :
    Avoids .outOfBounds (mallocStr ok n : Exec (Store β γ) Nat) :=
  avoids_ite
    (fun _ => avoids_bind avoids_get fun _ => avoids_bind (avoids_modify _) fun _ => avoids_pure _)
    fun _ => avoids_pure 0

theorem avoids_free (p : Nat) : Avoids .outOfBounds (free p : Exec (Store β γ) Unit) := by
  refine avoids_bind avoids_get fun s => ?_
  refine avoids_ite (fun _ => avoids_pure ())
    fun _ => avoids_ite (fun _ => avoids_modify _) fun _ => ?_
  exact avoids_ite (fun _ => avoids_modify _) fun _ => avoids_throw (by decide)

theorem avoids_strcpy (p : Nat) (v : CStr) :
    Avoids .outOfBounds (strcpy p v : Exec (Store β γ) Unit) := by
  refine avoids_bind avoids_get fun s => ?_
  cases s.str p with
  | none => exact avoids_throw (badAccess_ne p)
  | some b => exact avoids_ite (fun _ => avoids_throw (by decide)) fun _ => avoids_modify _

theorem avoids_whileLoop {α ρ : Type} {step : α → Exec (Store β γ) (α ⊕ ρ)}
    (hstep : ∀ a, Avoids .outOfBounds (step a)) (a : α) : Avoids .outOfBounds (whileLoop step a) :=
  avoids_bind avoids_get fun _ => avoids_loop (by decide) hstep _ _

end Memory

end KvStore.Lib
