import KvStore.Lib.Exec

set_option autoImplicit false

/-! # Interleaved threads

A concurrent program is a machine whose operations are the atomic steps of its threads: a run is one
interleaving of them. A step that its thread cannot take now, for example because the mutex it wants
is held, goes wrong with `blocked`; so the runs that return are the interleavings there are.

* `await p c` does `c` where `p` holds, and is blocked elsewhere; `act p f` changes the state by
  `f`.
* `Takes c s Q`: the step `c` is blocked or returns with `Q`, so that `blocked` is its only fault.
* `AllSteps.invariant`: what holds in every state of the runs whose steps all meet a condition.
* `runAll_history`: what holds of the results of a run so far and its state.
* `instants step s ops`: the states that a run goes through.
* `AnyOf n w P`: one of the threads `0, …, n - 1` is at a place with `P`. -/

namespace KvStore.Lib

open Function

section Steps

variable {σ α : Type} {p : σ → Prop} [DecidablePred p] {s s' : σ} {Q : α → σ → Prop} {c : Exec σ α}

/-- The step `c`, which can be taken where `p` holds. -/
def await (p : σ → Prop) [DecidablePred p] (c : Exec σ α) : Exec σ α := do
  if p (← get) then c else throw .blocked

/-- A step that is a function of the state. -/
def act (p : σ → Prop) [DecidablePred p] (f : σ → σ) : Exec σ Unit := await p (modify f)

theorem run_await (c : Exec σ α) (s : σ) :
    (await p c).run s = if p s then c.run s else .error .blocked := by
  rw [await, run_get_bind]
  split_ifs <;> rfl

theorem run_await_ok {a : α} : (await p c).run s = .ok (a, s') ↔ p s ∧ c.run s = .ok (a, s') := by
  rw [run_await]
  split_ifs with h <;> simp [h]

theorem run_act_ok {f : σ → σ} {u : Unit} : (act p f).run s = .ok (u, s') ↔ p s ∧ s' = f s := by
  rw [act, run_await_ok]
  refine and_congr_right fun _ => ?_
  constructor
  · intro h
    exact (congrArg Prod.snd (Except.ok.inj h)).symm
  · rintro rfl
    rfl

/-- The step cannot be taken in `s`, or it is taken with `Q`. -/
def Takes (c : Exec σ α) (s : σ) (Q : α → σ → Prop) : Prop :=
  c.run s = .error .blocked ∨ Ok c s Q

theorem Takes.of_run {a : α} (h : Takes c s Q) (hrun : c.run s = .ok (a, s')) : Q a s' := by
  rcases h with hblocked | hok
  · rw [hblocked] at hrun
    cases hrun
  · exact (ok_of_run hrun Q).mp hok

theorem Takes.eq_blocked {e : Fault} (h : Takes c s Q)
    (hrun : c.run s = .error e) : e = .blocked := by
  rcases h with hblocked | ⟨a, s', hok, -⟩
  · rw [hblocked] at hrun
    cases hrun
    rfl
  · rw [hok] at hrun
    cases hrun

theorem Takes.mono {R : α → σ → Prop} (h : Takes c s Q)
    (hQR : ∀ a s', Q a s' → R a s') : Takes c s R :=
  h.imp_right fun hok => hok.mono hQR

theorem Ok.takes (h : Ok c s Q) : Takes c s Q := Or.inr h

theorem takes_bind {β : Type} {f : α → Exec σ β} {Q : β → σ → Prop}
    (h : Takes c s fun a s' => Takes (f a) s' Q) : Takes (c >>= f) s Q := by
  rcases h with hblocked | ⟨a, s', hrun, hf⟩
  · exact Or.inl (run_bind_error hblocked)
  · rcases hf with hblocked | hok
    · exact Or.inl ((run_bind_ok hrun).trans hblocked)
    · refine Or.inr ?_
      rw [ok_bind]
      exact (ok_of_run hrun _).mpr hok

theorem takes_await_of (h : p s → Takes c s Q) : Takes (await p c) s Q := by
  by_cases hp : p s
  · rw [Takes, Ok, run_await, if_pos hp]
    exact h hp
  · exact Or.inl ((run_await c s).trans (if_neg hp))

theorem takes_await (h : p s → Ok c s Q) : Takes (await p c) s Q :=
  takes_await_of fun hp => (h hp).takes

theorem takes_act {f : σ → σ} {Q : Unit → σ → Prop} (h : p s → Q () (f s)) : Takes (act p f) s Q :=
  takes_await fun hp => (ok_modify f s Q).mpr (h hp)

theorem takes_zoom {τ : Type} {view : σ → τ} {put : τ → σ → σ} {c : Exec τ α}
    (h : Takes c (view s) fun a t => Q a (put t s)) : Takes (zoom view put c) s Q := by
  rcases h with hblocked | hok
  · refine Or.inl ?_
    rw [run_zoom, hblocked]
    rfl
  · exact Or.inr ((ok_zoom view put c s Q).mpr hok)

end Steps

section Runs

variable {σ ω ρ : Type} {step : ω → Exec σ ρ} {P : σ → ω → Prop} {I : σ → Prop}

/-- The steps after one that returns. -/
theorem allSteps_cons {o : ω} {ops : List ω} {s s' : σ} {r : ρ} (hP : P s o)
    (hrun : (step o).run s = .ok (r, s')) (hrest : AllSteps step P s' ops) :
    AllSteps step P s (o :: ops) := by
  refine ⟨hP, fun r₁ s₁ hrun₁ => ?_⟩
  rw [hrun] at hrun₁
  cases hrun₁
  exact hrest

theorem allSteps_of_forall {P : ω → Prop} {ops : List ω} (h : ∀ o ∈ ops, P o) {s : σ} :
    AllSteps step (fun _ o => P o) s ops := by
  induction ops generalizing s with
  | nil => trivial
  | cons o ops ih =>
      exact ⟨h o (by simp), fun _ _ _ => ih fun o' ho' => h o' (List.mem_cons_of_mem _ ho')⟩

/-- **The invariant rule for conditional runs**: what every step that meets the condition preserves
holds at the end of every run whose steps all meet it. -/
theorem AllSteps.invariant (hstep : ∀ o s r s', I s → P s o → (step o).run s = .ok (r, s') → I s') :
    ∀ {ops : List ω} {s s' : σ} {rs : List ρ}, I s → AllSteps step P s ops →
      (runAll step ops).run s = .ok (rs, s') → I s' := by
  intro ops
  induction ops with
  | nil =>
      intro s s' rs hI _ hrun
      cases hrun
      exact hI
  | cons o ops ih =>
      intro s s' rs hI hall hrun
      obtain ⟨r, s₁, rs', ho, hrest, rfl⟩ := runAll_cons_ok.mp hrun
      exact ih (hstep o s r s₁ hI hall.1 ho) (hall.2 r s₁ ho) hrest

/-- **Runs that stay away from bad states.** When a step from a state of the invariant meets `P`
exactly if it does not lead to a bad state, a run comes to no bad state exactly if all its steps
meet `P`. -/
theorem allSteps_iff_never {Bad : σ → Prop}
    (hstep : ∀ o s r s', I s → (step o).run s = .ok (r, s') → (P s o ↔ ¬Bad s'))
    (hinv : ∀ o s r s', I s → P s o → (step o).run s = .ok (r, s') → I s') :
    ∀ {ops : List ω} {s s' : σ} {rs : List ρ}, I s → ¬Bad s →
      (runAll step ops).run s = .ok (rs, s') →
      (AllSteps step P s ops ↔ ∀ pre rs' s'', pre <+: ops →
        (runAll step pre).run s = .ok (rs', s'') → ¬Bad s'') := by
  intro ops
  induction ops with
  | nil =>
      intro s s' rs _ hs _
      refine ⟨fun _ pre rs' s'' hpre hrun => ?_, fun _ => trivial⟩
      rw [List.prefix_nil.mp hpre] at hrun
      cases hrun
      exact hs
  | cons o ops ih =>
      intro s s' rs hI hs hrun
      obtain ⟨r, s₁, rs', ho, hrest, rfl⟩ := runAll_cons_ok.mp hrun
      constructor
      · intro hall pre rs' s'' hpre hrun'
        cases pre with
        | nil =>
            cases hrun'
            exact hs
        | cons o' pre =>
            obtain ⟨rfl, hpre'⟩ := List.cons_prefix_cons.mp hpre
            obtain ⟨r', s₂, rs'', ho', hrest', rfl⟩ := runAll_cons_ok.mp hrun'
            cases ho.symm.trans ho'
            have hI₁ := hinv o' s r s₁ hI hall.1 ho
            have hs₁ := (hstep o' s r s₁ hI ho).mp hall.1
            exact (ih hI₁ hs₁ hrest).mp (hall.2 r s₁ ho) pre rs'' s'' hpre' hrest'
      · intro hnever
        -- the prefix `[o]` shows that the first step meets the condition
        have hs₁ : ¬Bad s₁ :=
          hnever [o] [r] s₁ (List.prefix_append [o] ops)
            (runAll_cons_ok.mpr ⟨r, s₁, [], ho, rfl, rfl⟩)
        have hP := (hstep o s r s₁ hI ho).mpr hs₁
        refine allSteps_cons hP ho ((ih (hinv o s r s₁ hI hP ho) hs₁ hrest).mpr ?_)
        intro pre rs'' s'' hpre hrun'
        exact hnever (o :: pre) (r :: rs'') s'' (List.cons_prefix_cons.mpr ⟨rfl, hpre⟩)
          (runAll_cons_ok.mpr ⟨r, s₁, rs'', ho, hrun', rfl⟩)

/-- **The invariant rule for histories**: what holds of the results so far and the state, and is
kept by every step with its result appended. -/
theorem runAll_history {I : List ρ → σ → Prop}
    (hstep : ∀ rs o s r s', I rs s → (step o).run s = .ok (r, s') → I (rs ++ [r]) s')
    {ops : List ω} {s s' : σ} {rs : List ρ} (hI : I [] s)
    (hrun : (runAll step ops).run s = .ok (rs, s')) : I rs s' := by
  have key : ∀ (ops : List ω) (s : σ) (rs₀ rs : List ρ), I rs₀ s →
      (runAll step ops).run s = .ok (rs, s') → I (rs₀ ++ rs) s' := by
    intro ops
    induction ops with
    | nil =>
        intro s rs₀ rs hI hrun
        cases hrun
        rwa [List.append_nil]
    | cons o ops ih =>
        intro s rs₀ rs hI hrun
        obtain ⟨r, s₁, rs', ho, hrest, rfl⟩ := runAll_cons_ok.mp hrun
        rw [List.append_cons]
        exact ih s₁ (rs₀ ++ [r]) rs' (hstep rs₀ o s r s₁ hI ho) hrest
  exact key ops s [] rs hI hrun

/-- The states before, between and behind the steps of a run. -/
def instants (step : ω → Exec σ ρ) : σ → List ω → List σ
  | s, [] => [s]
  | s, o :: ops =>
      match (step o).run s with
      | .ok (_, s') => s :: instants step s' ops
      | .error _ => [s]

theorem instants_cons {o : ω} {s s' : σ} {r : ρ} (hrun : (step o).run s = .ok (r, s'))
    (ops : List ω) : instants step s (o :: ops) = s :: instants step s' ops := by
  rw [instants, hrun]

theorem mem_instants_self (s : σ) (ops : List ω) : s ∈ instants step s ops := by
  cases ops with
  | nil => exact List.mem_singleton_self s
  | cons o ops =>
      rw [instants]
      split <;> exact List.mem_cons_self

end Runs

section Crew

variable {π : Type} {n i : Nat} {w : Nat → π} {pc : π} {P : π → Prop}

/-- One of the first `n` threads is at a place with `P`. -/
def AnyOf (n : Nat) (w : Nat → π) (P : π → Prop) : Prop := ∃ i < n, P (w i)

/-- A thread goes on, and was not at such a place or still is. -/
theorem AnyOf.update (h : AnyOf n w P) (hpc : P (w i) → P pc) :
    AnyOf n (update w i pc) P := by
  obtain ⟨j, hj, hP⟩ := h
  refine ⟨j, hj, ?_⟩
  by_cases hji : j = i
  · subst hji
    rw [update_self]
    exact hpc hP
  · rwa [update_of_ne hji]

theorem anyOf_update_self (hi : i < n) (hpc : P pc) : AnyOf n (update w i pc) P :=
  ⟨i, hi, by rwa [update_self]⟩

/-- Every thread goes on, and none loses `P`. -/
theorem AnyOf.map {w' : Nat → π} (h : AnyOf n w P) (hP : ∀ i < n, P (w i) → P (w' i)) :
    AnyOf n w' P := by
  obtain ⟨i, hi, hPi⟩ := h
  exact ⟨i, hi, hP i hi hPi⟩

end Crew

end KvStore.Lib
