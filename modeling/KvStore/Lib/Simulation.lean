import Mathlib.Data.List.ReduceOption
import KvStore.Lib.Interleaving

set_option autoImplicit false

/-! # Machines that do what a sequential object does

A sequential object is a function `f : τ → κ → ρ × τ`: in the state `t` the call `k` has the result
`(f t k).1` and leaves the state `(f t k).2`. A machine of interleaved threads shows a call with its
result at the step where the call takes effect, and nothing at its other steps.

* `Shows f t shown Q`: what a step shows is what the object does in `t`, and `Q` holds of the state
  the object is left in.
* `runAll_simulates`: when every step shows what the object does, so does a run: the results that it
  shows are those of the object, for the calls in the order in which they are shown.
* `runAll_only_blocked`: when every step is taken or blocked, a run goes wrong in no other way.
* `AllSteps.history`, `AllSteps.only_blocked`: the same for what holds of the events so far and the
  state, in the runs whose steps all meet a condition; `checkAll` tests the condition along one run.
* `pick g shown`: what `g` makes of the events that a run shows. Lists of events that agree on the
  events of each thread have the same events (`perm_of_filter_eq`). -/

namespace KvStore.Lib

variable {σ τ ω κ ρ : Type}

/-- The calls that a run shows. -/
def calls (shown : List (Option (κ × ρ))) : List κ := shown.reduceOption.map Prod.fst

/-- The results that it shows. -/
def results (shown : List (Option (κ × ρ))) : List ρ := shown.reduceOption.map Prod.snd

/-- The object, in the state `t`, does what is shown, and is left in a state with `Q`. -/
def Shows (f : τ → κ → ρ × τ) (t : τ) (shown : Option (κ × ρ)) (Q : τ → Prop) : Prop :=
  match shown with
  | none => Q t
  | some (k, r) => (f t k).1 = r ∧ Q (f t k).2

/-- What `g` makes of the events that a run shows. -/
def pick {ε β : Type} (g : ε → Option β) (shown : List (Option ε)) : List β :=
  shown.filterMap (·.bind g)

theorem pick_append {ε β : Type} (g : ε → Option β) (shown : List (Option ε)) (e : Option ε) :
    pick g (shown ++ [e]) = pick g shown ++ (e.bind g).toList := by
  rw [pick, List.filterMap_append]
  cases h : e.bind g <;> simp [pick, h]

theorem perm_of_filter_eq {α β : Type} [DecidableEq β] (f : α → β) {l m : List α}
    (h : ∀ b, l.filter (fun a => f a = b) = m.filter (fun a => f a = b)) : l.Perm m := by
  classical
  rw [List.perm_iff_count]
  intro a
  have hcount : ∀ l : List α, l.count a = (l.filter fun a' => f a' = f a).count a := by
    intro l
    rw [List.count_filter (by simp)]
  rw [hcount l, hcount m, h]

section Conditional

variable {step : ω → Exec σ ρ} {P : σ → ω → Prop} {I : List ρ → σ → Prop}

/-- **The invariant rule for histories of conditional runs.** -/
theorem AllSteps.history
    (hstep : ∀ rs o s, I rs s → P s o → Takes (step o) s fun r s' => I (rs ++ [r]) s') :
    ∀ {ops : List ω} {s s' : σ} {rs₀ rs : List ρ}, I rs₀ s → AllSteps step P s ops →
      (runAll step ops).run s = .ok (rs, s') → I (rs₀ ++ rs) s' := by
  intro ops
  induction ops with
  | nil =>
      intro s s' rs₀ rs hI _ hrun
      cases hrun
      rwa [List.append_nil]
  | cons o ops ih =>
      intro s s' rs₀ rs hI hall hrun
      obtain ⟨r, s₁, rs', ho, hrest, rfl⟩ := runAll_cons_ok.mp hrun
      rw [List.append_cons]
      exact ih ((hstep rs₀ o s hI hall.1).of_run ho) (hall.2 r s₁ ho) hrest

/-- **The safety rule for conditional runs.** -/
theorem AllSteps.only_blocked
    (hstep : ∀ rs o s, I rs s → P s o → Takes (step o) s fun r s' => I (rs ++ [r]) s') :
    ∀ {ops : List ω} {s : σ} {l : List ρ} {e : Fault}, I l s → AllSteps step P s ops →
      (runAll step ops).run s = .error e → e = .blocked := by
  intro ops
  induction ops with
  | nil =>
      intro s l e _ _ hrun
      cases hrun
  | cons o ops ih =>
      intro s l e hI hall hrun
      have htakes := hstep l o s hI hall.1
      cases ho : (step o).run s with
      | error e' =>
          have herror : (runAll step (o :: ops)).run s = .error e' := run_bind_error ho
          rw [herror] at hrun
          cases hrun
          exact htakes.eq_blocked ho
      | ok p =>
          obtain ⟨r, s₁⟩ := p
          refine ih (htakes.of_run ho) (hall.2 r s₁ ho) ?_
          cases hc : (runAll step ops).run s₁ with
          | error e' =>
              rw [runAll, run_bind_ok ho, run_bind_error hc] at hrun
              exact hrun
          | ok q =>
              rw [runAll, run_bind_ok ho, run_bind_ok hc] at hrun
              cases hrun

/-- The steps of a run meet a condition that can be tested. -/
def checkAll (step : ω → Exec σ ρ) (check : σ → ω → Bool) : σ → List ω → Bool
  | _, [] => true
  | s, o :: ops =>
      check s o &&
        match (step o).run s with
        | .ok (_, s') => checkAll step check s' ops
        | .error _ => true

theorem allSteps_of_checkAll {check : σ → ω → Bool} (hcheck : ∀ s o, check s o = true → P s o) :
    ∀ {ops : List ω} {s : σ}, checkAll step check s ops = true → AllSteps step P s ops := by
  intro ops
  induction ops with
  | nil => exact fun _ => trivial
  | cons o ops ih =>
      intro s h
      rw [checkAll, Bool.and_eq_true] at h
      refine ⟨hcheck s o h.1, fun r s' ho => ?_⟩
      have hrest := h.2
      rw [ho] at hrest
      exact ih hrest

end Conditional

section Runs

variable {step : ω → Exec σ (Option (κ × ρ))} {f : τ → κ → ρ × τ} {P : ω → Prop}
  {Rel : σ → τ → Prop}

/-- **The simulation rule**: the results that a run shows are those of the object. -/
theorem runAll_simulates
    (hstep : ∀ o s t, P o → Rel s t → Takes (step o) s fun shown s' => Shows f t shown (Rel s')) :
    ∀ {ops : List ω} {s s' : σ} {t : τ} {shown : List (Option (κ × ρ))},
      (∀ o ∈ ops, P o) → Rel s t → (runAll step ops).run s = .ok (shown, s') →
        (specRun f t (calls shown)).1 = results shown ∧ Rel s' (specRun f t (calls shown)).2 := by
  intro ops
  induction ops with
  | nil =>
      intro s s' t shown _ hrel hrun
      cases hrun
      exact ⟨rfl, hrel⟩
  | cons o ops ih =>
      intro s s' t shown hops hrel hrun
      obtain ⟨shown₁, s₁, rest, ho, hrest, rfl⟩ := runAll_cons_ok.mp hrun
      have hshows := (hstep o s t (hops o List.mem_cons_self) hrel).of_run ho
      have hops' : ∀ o ∈ ops, P o := fun o' ho' => hops o' (List.mem_cons_of_mem o ho')
      cases shown₁ with
      | none =>
          have hsim := ih hops' hshows hrest
          exact hsim
      | some e =>
          obtain ⟨hresult, hrel₁⟩ := hshows
          obtain ⟨hresults, hrel'⟩ := ih hops' hrel₁ hrest
          exact ⟨congrArg₂ List.cons hresult hresults, hrel'⟩

/-- **The safety rule**: a run goes wrong only where a step is blocked. -/
theorem runAll_only_blocked
    (hstep : ∀ o s t, P o → Rel s t → Takes (step o) s fun shown s' => Shows f t shown (Rel s'))
    {ops : List ω} {s : σ} {t : τ} {e : Fault} (hops : ∀ o ∈ ops, P o) (hrel : Rel s t)
    (hrun : (runAll step ops).run s = .error e) : e = .blocked := by
  -- the object is in some state all along
  refine AllSteps.only_blocked (I := fun _ s => ∃ t, Rel s t) (P := fun _ o => P o) (l := [])
    (fun rs o s ht ho => ?_) ⟨t, hrel⟩ (allSteps_of_forall hops) hrun
  obtain ⟨t, ht⟩ := ht
  refine (hstep o s t ho ht).mono fun shown s' hshows => ?_
  cases shown with
  | none => exact ⟨t, hshows⟩
  | some e => exact ⟨_, hshows.2⟩

end Runs

end KvStore.Lib
