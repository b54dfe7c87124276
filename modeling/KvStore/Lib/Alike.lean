import KvStore.Lib.Interleaving

set_option autoImplicit false

/-! # Two runs side by side

`Alike c c' s s' R`: the computation `c` from `s` and the computation `c'` from `s'` return the same
value, in states that are related by `R`, or go wrong in the same way. There is one rule for each
construct: for the same program in two states that differ, the rules go along with it.

* `alike_bind`, `alike_ite`, `alike_loop`, `alike_await`: the constructs.
* `Alike.of_ok`: two computations that are known separately.
* `alike_runAll`: two machines, step by step.
-/

namespace KvStore.Lib

section Rules

variable {σ α β ρ : Type} {c c' : Exec σ α} {s s' : σ} {R R' : α → σ → σ → Prop}

/-- The same value in related states, or the same fault. -/
def Alike (c c' : Exec σ α) (s s' : σ) (R : α → σ → σ → Prop) : Prop :=
  (∃ e, c.run s = .error e ∧ c'.run s' = .error e) ∨
    ∃ a t t', c.run s = .ok (a, t) ∧ c'.run s' = .ok (a, t') ∧ R a t t'

theorem Alike.mono (h : Alike c c' s s' R) (hR : ∀ a t t', R a t t' → R' a t t') :
    Alike c c' s s' R' :=
  h.imp_right fun ⟨a, t, t', hrun, hrun', hr⟩ => ⟨a, t, t', hrun, hrun', hR a t t' hr⟩

/-- What is known of the first run may be used. -/
theorem Alike.and_run (h : Alike c c' s s' R) :
    Alike c c' s s' fun a t t' => R a t t' ∧ c.run s = .ok (a, t) :=
  h.imp_right fun ⟨a, t, t', hrun, hrun', hr⟩ => ⟨a, t, t', hrun, hrun', hr, hrun⟩

theorem Alike.of_ok {P P' : α → σ → Prop} (h : Ok c s P) (h' : Ok c' s' P')
    (hR : ∀ a t a' t', P a t → P' a' t' → a' = a ∧ R a t t') : Alike c c' s s' R := by
  obtain ⟨a, t, hrun, hP⟩ := h
  obtain ⟨a', t', hrun', hP'⟩ := h'
  obtain ⟨rfl, hr⟩ := hR a t a' t' hP hP'
  exact Or.inr ⟨a', t, t', hrun, hrun', hr⟩

/-- The results are the same. -/
theorem Alike.map_fst (h : Alike c c' s s' R) :
    (c.run s).map Prod.fst = (c'.run s').map Prod.fst := by
  rcases h with ⟨e, hrun, hrun'⟩ | ⟨a, t, t', hrun, hrun', -⟩
  · rw [hrun, hrun']
  · rw [hrun, hrun']
    rfl

theorem alike_pure {a : α} (h : R a s s') : Alike (pure a) (pure a) s s' R :=
  Or.inr ⟨a, s, s', rfl, rfl, h⟩

theorem alike_throw (e : Fault) : Alike (throw e) (throw e) s s' R := Or.inl ⟨e, rfl, rfl⟩

theorem alike_modify {f f' : σ → σ} {R : Unit → σ → σ → Prop} (h : R () (f s) (f' s')) :
    Alike (modify f) (modify f') s s' R :=
  Or.inr ⟨(), f s, f' s', rfl, rfl, h⟩

theorem alike_set {t t' : σ} {R : Unit → σ → σ → Prop} (h : R () t t') :
    Alike (set t) (set t') s s' R :=
  Or.inr ⟨(), t, t', rfl, rfl, h⟩

theorem alike_bind {f f' : α → Exec σ β} {Q : β → σ → σ → Prop}
    (h : Alike c c' s s' fun a t t' => Alike (f a) (f' a) t t' Q) :
    Alike (c >>= f) (c' >>= f') s s' Q := by
  rcases h with ⟨e, hrun, hrun'⟩ | ⟨a, t, t', hrun, hrun', hf⟩
  · exact Or.inl ⟨e, run_bind_error hrun, run_bind_error hrun'⟩
  · unfold Alike at hf ⊢
    rw [run_bind_ok hrun, run_bind_ok hrun']
    exact hf

/-- The states are read first. -/
theorem alike_get_bind {f f' : σ → Exec σ β} {Q : β → σ → σ → Prop}
    (h : Alike (f s) (f' s') s s' Q) : Alike (get >>= f) (get >>= f') s s' Q := by
  unfold Alike at h ⊢
  rw [run_get_bind, run_get_bind]
  exact h

theorem alike_ite {p p' : Prop} [Decidable p] [Decidable p'] {d d' : Exec σ α} (hp : p ↔ p')
    (hthen : p → Alike c c' s s' R) (helse : ¬p → Alike d d' s s' R) :
    Alike (if p then c else d) (if p' then c' else d') s s' R := by
  by_cases h : p
  · rw [if_pos h, if_pos (hp.mp h)]
    exact hthen h
  · rw [if_neg h, if_neg fun h' => h (hp.mpr h')]
    exact helse h

/-- A loop whose iterations keep `I`. -/
theorem alike_loop {body body' : α → Exec σ (α ⊕ ρ)} {I : σ → σ → Prop}
    (hbody : ∀ a s s', I s s' → Alike (body a) (body' a) s s' fun _ => I) :
    ∀ (n : Nat) (a : α) (s s' : σ), I s s' → Alike (loop body n a) (loop body' n a) s s'
      fun _ => I := by
  intro n
  induction n with
  | zero =>
      intro a s s' _
      exact alike_throw _
  | succ n ih =>
      intro a s s' hI
      refine alike_bind ((hbody a s s' hI).mono fun x t t' ht => ?_)
      cases x with
      | inl a' => exact ih a' t t' ht
      | inr r => exact alike_pure ht

theorem alike_await {p : σ → Prop} [DecidablePred p] (hp : p s ↔ p s')
    (h : p s → Alike c c' s s' R) : Alike (await p c) (await p c') s s' R :=
  alike_get_bind (alike_ite hp h fun _ => alike_throw _)

/-- **Two machines, step by step.** -/
theorem alike_runAll {ω : Type} {step step' : ω → Exec σ ρ} {I : σ → σ → Prop}
    (hstep : ∀ o s s', I s s' → Alike (step o) (step' o) s s' fun _ => I) :
    ∀ (ops : List ω) (s s' : σ), I s s' → Alike (runAll step ops) (runAll step' ops) s s'
      fun _ => I := by
  intro ops
  induction ops with
  | nil =>
      intro s s' hI
      exact alike_pure hI
  | cons o ops ih =>
      intro s s' hI
      refine alike_bind ((hstep o s s' hI).mono fun r t t' ht => ?_)
      exact alike_bind ((ih t t' ht).mono fun rs u u' hu => alike_pure hu)

end Rules

end KvStore.Lib
