import Mathlib.Tactic

set_option autoImplicit false

/-! # Programs over a state that can go wrong

A C function that reads and writes memory is a computation `Exec σ α`: from a state it either
returns a value and a new state, or it goes wrong with a `Fault`. Undefined behaviour is a
fault, so a theorem that a computation returns is also a theorem that it stays defined.

* `Ok c s Q` (total correctness): `c` started in `s` returns, and `Q` holds of what it returns.
* `Returns c s Q` (partial correctness): `Q` holds of what `c` returns, should it return.
* `loop step n a` runs a loop body at most `n` times; `Ok.loop` is its rule, with an invariant
  indexed by a ghost value and a measure on that value.
* `Maintains P c`: `c` keeps `P`, should it return.
* `zoom view put c` runs `c` on a part of the state.
* `runAll step ops` runs a list of operations; `Reach step s₀ s` says that some list of
  operations leads from `s₀` to `s` without a fault.
* `Ok.runAll_sim`: runs that do what a specification does.
-/

namespace KvStore.Lib

/-- What a C program does when it leaves the behaviour the language defines, or stops itself. -/
inductive Fault where
  /-- A null pointer was dereferenced. -/
  | nullDeref
  /-- A block was accessed that is not allocated (any more). -/
  | dangling
  /-- A field was read before it was written. -/
  | uninit
  /-- `free` was called on something that is not an allocated block. -/
  | badFree
  /-- A write went past the end of its block. -/
  | overflow
  /-- An array was indexed outside its bounds. -/
  | outOfBounds
  /-- `assert` failed. -/
  | assertFail
  /-- The step cannot be taken: the mutex it waits for is held. -/
  | blocked
  /-- A mutex was unlocked that is not held. -/
  | badUnlock
  /-- A loop did not stop within its bound. -/
  | noFuel
  deriving DecidableEq, Repr

/-- Which of the allocations a call makes succeed, in the order they are made. -/
abbrev AllocPlan := Nat → Bool

/-- Every allocation succeeds. -/
def allOk : AllocPlan := fun _ => true

/-- A computation over the state `σ` that returns an `α` or goes wrong. -/
abbrev Exec (σ α : Type) := StateT σ (Except Fault) α

section Rules

variable {σ α β ρ : Type} {c : Exec σ α} {s : σ} {body : Nat → Exec σ (Option ρ)}
  {step : α → Exec σ (α ⊕ ρ)} {f : α → Exec σ β} {Q : α → σ → Prop} {a : α} {n : Nat}

/-! ## Total correctness -/

/-- `c` started in `s` returns, and what it returns satisfies `Q`. -/
def Ok (c : Exec σ α) (s : σ) (Q : α → σ → Prop) : Prop :=
  ∃ a s', c.run s = .ok (a, s') ∧ Q a s'

theorem Ok.mono {R : α → σ → Prop} (h : Ok c s Q) (hQR : ∀ a s', Q a s' → R a s') : Ok c s R := by
  obtain ⟨a, s', hc, hQ⟩ := h
  exact ⟨a, s', hc, hQR a s' hQ⟩

@[simp] theorem ok_pure (a : α) (s : σ) (Q : α → σ → Prop) :
    Ok (pure a : Exec σ α) s Q ↔ Q a s := by
  constructor
  · rintro ⟨a', s', h, hQ⟩
    cases h
    exact hQ
  · intro hQ
    exact ⟨a, s, rfl, hQ⟩

@[simp] theorem ok_bind (c : Exec σ α) (f : α → Exec σ β) (s : σ) (Q : β → σ → Prop) :
    Ok (c >>= f) s Q ↔ Ok c s (fun a s' => Ok (f a) s' Q) := by
  constructor
  · rintro ⟨b, s', h, hQ⟩
    rw [StateT.run_bind] at h
    cases hc : c.run s with
    | error e => rw [hc] at h; cases h
    | ok p =>
        rw [hc] at h
        exact ⟨p.1, p.2, hc, b, s', h, hQ⟩
  · rintro ⟨a, s', hc, b, s'', hf, hQ⟩
    refine ⟨b, s'', ?_, hQ⟩
    rw [StateT.run_bind, hc]
    exact hf

/-- The rule for a computation whose outcome is known. -/
theorem ok_of_run {s' : σ} (hc : c.run s = .ok (a, s')) (Q : α → σ → Prop) : Ok c s Q ↔ Q a s' := by
  constructor
  · rintro ⟨a', s'', h, hQ⟩
    rw [hc] at h
    cases h
    exact hQ
  · intro hQ
    exact ⟨a, s', hc, hQ⟩

theorem ok_ite (p : Prop) [Decidable p] (c d : Exec σ α) (s : σ) (Q : α → σ → Prop) :
    Ok (if p then c else d) s Q ↔ if p then Ok c s Q else Ok d s Q := by
  split_ifs <;> rfl

@[simp] theorem ok_get (s : σ) (Q : σ → σ → Prop) : Ok (get : Exec σ σ) s Q ↔ Q s s :=
  ok_of_run rfl Q

@[simp] theorem ok_modify (f : σ → σ) (s : σ) (Q : Unit → σ → Prop) :
    Ok (modify f : Exec σ Unit) s Q ↔ Q () (f s) :=
  ok_of_run rfl Q

theorem ok_set (t s : σ) (Q : Unit → σ → Prop) : Ok (set t : Exec σ Unit) s Q ↔ Q () t :=
  ok_of_run rfl fun u => Q u

/-! ## Partial correctness -/

/-- What `c` started in `s` returns satisfies `Q`; it need not return. -/
def Returns (c : Exec σ α) (s : σ) (Q : α → σ → Prop) : Prop :=
  ∀ a s', c.run s = .ok (a, s') → Q a s'

theorem Ok.returns (h : Ok c s Q) : Returns c s Q :=
  fun _ _ hrun => (ok_of_run hrun Q).mp h

theorem Returns.mono {R : α → σ → Prop} (h : Returns c s Q)
    (hQR : ∀ a s', Q a s' → R a s') : Returns c s R :=
  fun a s' hrun => hQR a s' (h a s' hrun)

/-- What is known of the same run in two ways. -/
theorem Ok.and_returns {R : α → σ → Prop} (h : Ok c s Q)
    (h' : Returns c s R) : Ok c s fun a s' => Q a s' ∧ R a s' := by
  obtain ⟨a, s', hrun, hQ⟩ := h
  exact ⟨a, s', hrun, hQ, h' a s' hrun⟩

/-- A computation that does not return satisfies everything. -/
theorem returns_of_not_ok (h : ¬Ok c s fun _ _ => True) : Returns c s Q :=
  fun a s' hrun => absurd ⟨a, s', hrun, trivial⟩ h

theorem Returns.not_ok (h : Returns c s fun _ _ => False) (Q : α → σ → Prop) : ¬Ok c s Q := by
  rintro ⟨a, s', hrun, -⟩
  exact h a s' hrun

theorem returns_throw (e : Fault) (s : σ) (Q : α → σ → Prop) :
    Returns (throw e : Exec σ α) s Q := by
  intro a s' h
  cases h

theorem returns_bind {Q : β → σ → Prop}
    (h : Returns c s fun a s' => Returns (f a) s' Q) : Returns (c >>= f) s Q := by
  intro b s'' hrun
  rw [StateT.run_bind] at hrun
  cases hc : c.run s with
  | error e => rw [hc] at hrun; cases hrun
  | ok p =>
      rw [hc] at hrun
      exact h p.1 p.2 hc b s'' hrun

theorem returns_pure (h : Q a s) : Returns (pure a : Exec σ α) s Q := by
  intro a' s' hrun
  cases hrun
  exact h

theorem returns_modify {f : σ → σ} {Q : Unit → σ → Prop} (h : Q () (f s)) :
    Returns (modify f : Exec σ Unit) s Q :=
  ((ok_modify f s Q).mpr h).returns

/-- The state is read first. -/
theorem returns_get_bind {f : σ → Exec σ β} {Q : β → σ → Prop} (h : Returns (f s) s Q) :
    Returns (get >>= f) s Q :=
  returns_bind ((ok_get s _).mpr h).returns

/-! ## Outcomes -/

theorem run_pure (a : α) (s : σ) : (pure a : Exec σ α).run s = .ok (a, s) := rfl

/-- A run that is known by a part of what it ends with. -/
theorem exists_of_view (f : α × σ → β) {b : β}
    (h : (c.run s).toOption.map f = some b) : ∃ a s', c.run s = .ok (a, s') ∧ f (a, s') = b := by
  cases hc : c.run s with
  | error e =>
      rw [hc] at h
      cases h
  | ok p =>
      rw [hc] at h
      exact ⟨p.1, p.2, rfl, Option.some.inj h⟩

theorem exists_of_result
    (h : (c.run s).toOption.map Prod.fst = some a) : ∃ s', c.run s = .ok (a, s') := by
  obtain ⟨a', s', hrun, rfl⟩ := exists_of_view Prod.fst h
  exact ⟨s', hrun⟩

theorem ok_of_view (f : σ → β) {b : β}
    (h : (c.run s).toOption.map (fun r => f r.2) = some b) : Ok c s fun _ s' => f s' = b :=
  exists_of_view (fun r => f r.2) h

/-- The fault a run ends with, if it does not return. -/
def fault : Except Fault α → Option Fault
  | .error e => some e
  | .ok _ => none

theorem run_bind_ok {s' : σ} (h : c.run s = .ok (a, s')) : (c >>= f).run s = (f a).run s' := by
  rw [StateT.run_bind, h]
  rfl

theorem run_get_bind {f : σ → Exec σ β} : (get >>= f).run s = (f s).run s := rfl

theorem run_bind_error {e : Fault} (h : c.run s = .error e) : (c >>= f).run s = .error e := by
  rw [StateT.run_bind, h]
  rfl

/-! ## Parts of a state -/

/-- Run `c` on the part `view s` of the state `s`; `put` writes the part back. -/
def zoom {τ : Type} (view : σ → τ) (put : τ → σ → σ) (c : Exec τ α) : Exec σ α := do
  let s ← get
  match c.run (view s) with
  | .ok (a, t) => do
      set (put t s)
      pure a
  | .error e => throw e

theorem run_zoom {τ : Type} (view : σ → τ) (put : τ → σ → σ) (c : Exec τ α) (s : σ) :
    (zoom view put c).run s = (c.run (view s)).map fun p => (p.1, put p.2 s) := by
  rw [zoom, run_get_bind]
  cases c.run (view s) with
  | error e => rfl
  | ok p => rfl

/-- What is left of a run behind a part that returns. -/
theorem run_zoom_bind_ok {τ : Type} {view : σ → τ} {put : τ → σ → σ} {c : Exec τ α}
    {s' : σ} {b : β} :
    (zoom view put c >>= f).run s = .ok (b, s') ↔
      ∃ a t, c.run (view s) = .ok (a, t) ∧ (f a).run (put t s) = .ok (b, s') := by
  have hzoom := run_zoom view put c s
  cases hc : c.run (view s) with
  | error e =>
      rw [hc] at hzoom
      rw [run_bind_error hzoom]
      simp
  | ok p =>
      rw [hc] at hzoom
      rw [run_bind_ok hzoom]
      constructor
      · intro h
        exact ⟨p.1, p.2, rfl, h⟩
      · rintro ⟨a, t, heq, h⟩
        cases heq
        exact h

theorem ok_zoom {τ : Type} (view : σ → τ) (put : τ → σ → σ) (c : Exec τ α) (s : σ)
    (Q : α → σ → Prop) :
    Ok (zoom view put c) s Q ↔ Ok c (view s) (fun a t => Q a (put t s)) := by
  cases hc : c.run (view s) with
  | error e =>
      refine iff_of_false ?_ ?_
      · rintro ⟨a, s', h, -⟩
        rw [run_zoom, hc] at h
        cases h
      · rintro ⟨a, t, h, -⟩
        rw [hc] at h
        cases h
  | ok p => rw [ok_of_run hc, ok_of_run ((run_zoom view put c s).trans (by rw [hc]; rfl))]

/-! ## Loops -/

/-- Run the loop body `step` from `a` until it leaves the loop with `.inr`, at most `n` times. -/
def loop (step : α → Exec σ (α ⊕ ρ)) : Nat → α → Exec σ ρ
  | 0, _ => throw .noFuel
  | n + 1, a => do
      match ← step a with
      | .inl a' => loop step n a'
      | .inr r => pure r

/-! The first iteration of a loop goes on, leaves the loop, or goes wrong. -/

theorem run_loop_next {a' : α} {s' : σ} (h : (step a).run s = .ok (.inl a', s')) :
    (loop step (n + 1) a).run s = (loop step n a').run s' := by
  rw [loop, run_bind_ok h]

theorem run_loop_exit {r : ρ} {s' : σ}
    (h : (step a).run s = .ok (.inr r, s')) : (loop step (n + 1) a).run s = .ok (r, s') := by
  rw [loop, run_bind_ok h]
  rfl

theorem run_loop_error {e : Fault}
    (h : (step a).run s = .error e) : (loop step (n + 1) a).run s = .error e := by
  rw [loop, run_bind_error h]

/-- Two bounds give the same loop if they do so behind the first iteration. -/
theorem run_loop_congr {m : Nat} (h : ∀ a' s', (step a).run s = .ok (.inl a', s') →
      (loop step n a').run s' = (loop step m a').run s') :
    (loop step (n + 1) a).run s = (loop step (m + 1) a).run s := by
  cases hstep : (step a).run s with
  | error e => rw [run_loop_error hstep, run_loop_error hstep]
  | ok x =>
      obtain ⟨y, s'⟩ := x
      cases y with
      | inl a' =>
          rw [run_loop_next hstep, run_loop_next hstep]
          exact h a' s' hstep
      | inr r => rw [run_loop_exit hstep, run_loop_exit hstep]

/-- **The loop rule.** `I i a s` is the invariant, `i` a ghost value; every iteration leaves the
loop in `Q` or restores the invariant at a value of smaller measure. -/
theorem Ok.loop {ι : Type} (I : ι → α → σ → Prop) (μ : ι → Nat)
    (Q : ρ → σ → Prop) (hstep : ∀ i a s, I i a s → Ok (step a) s (fun x s' =>
      match x with
      | .inl a' => ∃ i', I i' a' s' ∧ μ i' < μ i
      | .inr r => Q r s')) :
    ∀ (n : Nat) (i : ι) (a : α) (s : σ), μ i < n → I i a s → Ok (loop step n a) s Q := by
  intro n
  induction n with
  | zero => intro i a s hn; omega
  | succ n ih =>
      intro i a s hn hI
      show Ok (step a >>= _) s Q
      rw [ok_bind]
      refine (hstep i a s hI).mono ?_
      intro x s' hx
      cases x with
      | inl a' =>
          obtain ⟨i', hI', hlt⟩ := hx
          exact ih i' a' s' (by omega) hI'
      | inr r => exact (ok_pure r s' Q).mpr hx

/-- `for (…; n iterations left; i++) body`: run `body` at `i`, `i + 1`, … until it returns a
value. -/
def forLoop (body : Nat → Exec σ (Option ρ)) : Nat → Nat → Exec σ (Option ρ)
  | 0, _ => pure none
  | n + 1, i => do
      match ← body i with
      | some r => pure (some r)
      | none => forLoop body n (i + 1)

theorem forLoop_succ (body : Nat → Exec σ (Option ρ)) (n i : Nat) :
    forLoop body (n + 1) i = (do
      match ← body i with
      | some r => pure (some r)
      | none => forLoop body n (i + 1)) := rfl

/-- A loop whose iterations all go on, without a change of the state. -/
theorem forLoop_skip {i : Nat} (h : ∀ j, i ≤ j → j < i + n → (body j).run s = .ok (none, s)) :
    (forLoop body n i).run s = .ok (none, s) := by
  induction n generalizing i with
  | zero => rfl
  | succ n ih =>
      rw [forLoop_succ, run_bind_ok (h i le_rfl (by omega))]
      exact ih fun j hj hj' => h j (by omega) (by omega)

/-- A loop that ends in the iteration `j`, and changes nothing before. -/
theorem forLoop_stop {i j : Nat} {r : Except Fault (Option ρ × σ)} (hij : i ≤ j)
    (hj : j < i + n) (h : ∀ j', i ≤ j' → j' < j → (body j').run s = .ok (none, s))
    (hbody : (body j).run s = r) (hr : ∀ s', r ≠ .ok (none, s')) :
    (forLoop body n i).run s = r := by
  induction n generalizing i with
  | zero => omega
  | succ n ih =>
      rw [forLoop_succ]
      rcases Nat.eq_or_lt_of_le hij with rfl | hlt
      · cases r with
        | error e => exact run_bind_error hbody
        | ok q =>
            obtain ⟨o, s'⟩ := q
            rw [run_bind_ok hbody]
            cases o with
            | none => exact absurd rfl (hr s')
            | some r => rfl
      · rw [run_bind_ok (h i le_rfl hlt)]
        exact ih (by omega) (by omega) fun j' hj₁ hj₂ => h j' (by omega) hj₂

/-- The rule for such a loop: `I i` holds before the iteration `i`, and `Q` when the loop is
left. -/
theorem Ok.forLoop (I : Nat → σ → Prop) (Q : σ → Prop) {i : Nat}
    (hbody : ∀ j, i ≤ j → j < i + n → ∀ s, I j s →
      Ok (body j) s fun r s' => (r = none → I (j + 1) s') ∧ (r ≠ none → Q s'))
    (hend : ∀ s, I (i + n) s → Q s) (hs : I i s) : Ok (forLoop body n i) s fun _ s' => Q s' := by
  induction n generalizing i s with
  | zero => exact (ok_pure _ s _).mpr (hend s hs)
  | succ n ih =>
      rw [forLoop_succ, ok_bind]
      refine (hbody i le_rfl (by omega) s hs).mono ?_
      rintro r s' ⟨hnext, hexit⟩
      cases r with
      | none =>
          refine ih (fun j hj hj' => hbody j (by omega) (by omega))
            (fun s'' h => hend s'' ?_) (hnext rfl)
          rwa [Nat.succ_add_eq_add_succ] at h
      | some r => exact (ok_pure _ s' _).mpr (hexit nofun)

/-- The partial correctness of a loop whose iterations all go on; `I i` holds before the iteration
`i`. -/
theorem returns_forLoop (I : Nat → σ → Prop)
    (hbody : ∀ i < n, ∀ s, I i s → Returns (body i) s fun r s' => r = none ∧ I (i + 1) s')
    (hs : I 0 s) : Returns (forLoop body n 0) s fun r s' => r = none ∧ I n s' := by
  have key : ∀ m i s, i + m = n → I i s →
      Returns (forLoop body m i) s fun r s' => r = none ∧ I n s' := by
    intro m
    induction m with
    | zero =>
        rintro i s rfl hI
        exact returns_pure ⟨rfl, hI⟩
    | succ m ih =>
        intro i s hn hI
        rw [forLoop_succ]
        refine returns_bind ((hbody i (by omega) s hI).mono ?_)
        rintro r s' ⟨rfl, hI'⟩
        exact ih (i + 1) s' (by omega) hI'
  exact key n 0 s (Nat.zero_add n) hs

/-- A search: what a loop returns that looks for the first `i` with `P i`. -/
theorem returns_forLoop_find {body : Nat → Exec σ (Option Nat)} (P : Nat → Prop) [DecidablePred P]
    (hbody : ∀ i, Returns (body i) s fun r s' => s' = s ∧ r = if P i then some i else none)
    (n : Nat) :
    Returns (forLoop body n 0) s fun r s' => s' = s ∧ r = (List.range n).find? fun i => P i := by
  have key : ∀ n i, Returns (forLoop body n i) s fun r s' =>
      s' = s ∧ r = (List.range' i n).find? fun i => P i := by
    intro n
    induction n with
    | zero =>
        intro i
        exact returns_pure ⟨rfl, rfl⟩
    | succ n ih =>
        intro i
        rw [forLoop_succ, List.range'_succ]
        refine returns_bind ((hbody i).mono ?_)
        rintro r s' ⟨rfl, rfl⟩
        by_cases hi : P i
        · rw [if_pos hi, List.find?_cons_of_pos (by simpa using hi)]
          exact returns_pure ⟨rfl, rfl⟩
        · rw [if_neg hi, List.find?_cons_of_neg (by simpa using hi)]
          exact ih (i + 1)
  rw [List.range_eq_range']
  exact key n 0

/-- The same search, where every iteration returns. -/
theorem run_forLoop_find {body : Nat → Exec σ (Option Nat)} (P : Nat → Prop) [DecidablePred P]
    (hbody : ∀ i < n, (body i).run s = .ok (if P i then some i else none, s)) :
    (forLoop body n 0).run s = .ok ((List.range n).find? fun i => P i, s) := by
  have key : ∀ m i, i + m = n →
      (forLoop body m i).run s = .ok ((List.range' i m).find? fun i => P i, s) := by
    intro m
    induction m with
    | zero =>
        intro i _
        rfl
    | succ m ih =>
        intro i hn
        rw [forLoop_succ, List.range'_succ, run_bind_ok (hbody i (by omega))]
        by_cases hi : P i
        · rw [if_pos hi, List.find?_cons_of_pos (by simpa using hi)]
          rfl
        · rw [if_neg hi, List.find?_cons_of_neg (by simpa using hi)]
          exact ih (i + 1) (by omega)
  rw [List.range_eq_range']
  exact key n 0 (Nat.zero_add n)

/-! ## What a computation keeps -/

/-- **`P` still holds of the state** when `c` has returned. -/
def Maintains (P : σ → Prop) (c : Exec σ α) : Prop := ∀ s, P s → Returns c s fun _ s' => P s'

section Maintains

variable {P Q : σ → Prop} {c : Exec σ α}

theorem maintains_pure (a : α) : Maintains P (pure a : Exec σ α) := fun _ h => returns_pure h

theorem maintains_throw (e : Fault) : Maintains P (throw e : Exec σ α) :=
  fun s _ => returns_throw e s _

theorem maintains_get : Maintains P (get : Exec σ σ) := fun s h => ((ok_get s _).mpr h).returns

/-- A computation that does not change the state keeps everything. -/
theorem maintains_of_eq (h : ∀ s, Returns c s fun _ s' => s' = s) : Maintains P c := by
  intro s hs
  refine (h s).mono ?_
  rintro a s' rfl
  exact hs

theorem Maintains.bind (h : Maintains P c) (hf : ∀ a, Maintains P (f a)) : Maintains P (c >>= f) :=
  fun s hs => returns_bind ((h s hs).mono fun a s' hs' => hf a s' hs')

theorem Maintains.and (h : Maintains P c) (h' : Maintains Q c) : Maintains (fun s => P s ∧ Q s) c :=
  fun s hs a s' hrun => ⟨h s hs.1 a s' hrun, h' s hs.2 a s' hrun⟩

theorem maintains_forLoop (h : ∀ i, Maintains P (body i))
    (n i : Nat) : Maintains P (forLoop body n i) := by
  induction n generalizing i with
  | zero => exact maintains_pure none
  | succ n ih =>
      refine (h i).bind fun r => ?_
      cases r with
      | none => exact ih (i + 1)
      | some r => exact maintains_pure (some r)

end Maintains

end Rules

/-! ## Runs of operations -/

section Runs

variable {σ ω ρ : Type} {step : ω → Exec σ ρ} {I : σ → Prop} {ops : List ω}

/-- Run the operations `ops` one after the other and collect what they return. -/
def runAll (step : ω → Exec σ ρ) : List ω → Exec σ (List ρ)
  | [] => pure []
  | o :: ops => do
      let r ← step o
      let rs ← runAll step ops
      pure (r :: rs)

/-- Inversion of a run that returned: its first operation returned, and so did the rest. -/
theorem runAll_cons_ok {o : ω} {s s' : σ} {rs : List ρ} :
    (runAll step (o :: ops)).run s = .ok (rs, s') ↔
      ∃ r s₁ rs', (step o).run s = .ok (r, s₁) ∧ (runAll step ops).run s₁ = .ok (rs', s') ∧
        rs = r :: rs' := by
  rw [runAll, StateT.run_bind]
  constructor
  · intro h
    cases hc : (step o).run s with
    | error e => rw [hc] at h; cases h
    | ok p =>
        obtain ⟨r, s₁⟩ := p
        rw [hc] at h
        change ((runAll step ops >>= fun rs => pure (r :: rs)).run s₁) = _ at h
        rw [StateT.run_bind] at h
        cases hr : (runAll step ops).run s₁ with
        | error e => rw [hr] at h; cases h
        | ok q =>
            rw [hr] at h
            cases h
            exact ⟨r, s₁, q.1, rfl, hr, rfl⟩
  · rintro ⟨r, s₁, rs', hc, hr, rfl⟩
    rw [hc]
    change ((runAll step ops >>= fun rs => pure (r :: rs)).run s₁) = _
    rw [StateT.run_bind, hr]
    rfl

/-- `s` is reached from `s₀` by some operations, none of which went wrong. -/
def Reach (step : ω → Exec σ ρ) (s₀ s : σ) : Prop :=
  ∃ ops rs, (runAll step ops).run s₀ = .ok (rs, s)

theorem Reach.refl (step : ω → Exec σ ρ) (s : σ) : Reach step s s := ⟨[], [], rfl⟩

/-- A property that holds at the end of a run if it holds at its start and no operation that
returns destroys it. -/
theorem runAll_invariant {P : ω → Prop}
    (hstep : ∀ o s r s', P o → I s → (step o).run s = .ok (r, s') → I s') :
    ∀ {ops : List ω} {s s' : σ} {rs : List ρ}, (∀ o ∈ ops, P o) → I s →
      (runAll step ops).run s = .ok (rs, s') → I s' := by
  intro ops
  induction ops with
  | nil =>
      intro s s' rs _ hI h
      cases h
      exact hI
  | cons o ops ih =>
      intro s s' rs hP hI h
      obtain ⟨r, s₁, rs', ho, hrun, rfl⟩ := runAll_cons_ok.mp h
      exact ih (fun o' ho' => hP o' (by simp [ho'])) (hstep o s r s₁ (hP o (by simp)) hI ho) hrun

/-- The invariant rule for reachable states. -/
theorem Reach.invariant
    (hstep : ∀ o s r s', I s → (step o).run s = .ok (r, s') → I s') {s₀ s : σ} (h₀ : I s₀)
    (h : Reach step s₀ s) : I s := by
  obtain ⟨ops, rs, hrun⟩ := h
  exact runAll_invariant (fun o s r s' (_ : True) => hstep o s r s') (fun _ _ => trivial) h₀ hrun

/-- **The rule for runs**: operations that return and keep an invariant make up a run that does. -/
theorem Ok.runAll {P : ω → Prop} (I : σ → Prop)
    (hstep : ∀ o s, P o → I s → Ok (step o) s (fun _ s' => I s')) :
    ∀ (ops : List ω) (s : σ), (∀ o ∈ ops, P o) → I s →
      Ok (Lib.runAll step ops) s (fun _ s' => I s') := by
  intro ops
  induction ops with
  | nil => intro s _ hI; exact ⟨[], s, rfl, hI⟩
  | cons o ops ih =>
      intro s hP hI
      obtain ⟨r, s₁, ho, hI₁⟩ := hstep o s (hP o (by simp)) hI
      obtain ⟨rs, s₂, hr, hI₂⟩ := ih s₁ (fun o' ho' => hP o' (List.mem_cons_of_mem _ ho')) hI₁
      exact ⟨r :: rs, s₂, runAll_cons_ok.mpr ⟨r, s₁, rs, ho, hr, rfl⟩, hI₂⟩

/-- Every operation of the run is made in a state that satisfies `P` for it. -/
def AllSteps (step : ω → Exec σ ρ) (P : σ → ω → Prop) : σ → List ω → Prop
  | _, [] => True
  | s, o :: ops => P s o ∧ ∀ r s', (step o).run s = .ok (r, s') → AllSteps step P s' ops

theorem AllSteps.mono {P P' : σ → ω → Prop} (himp : ∀ o s, I s → P s o → P' s o)
    (hinv : ∀ o s r s', I s → P s o → (step o).run s = .ok (r, s') → I s') :
    ∀ {ops : List ω} {s : σ}, I s → AllSteps step P s ops → AllSteps step P' s ops := by
  intro ops
  induction ops with
  | nil => intro s _ _; trivial
  | cons o ops ih =>
      intro s hs h
      exact ⟨himp o s hs h.1, fun r s' hrun => ih (hinv o s r s' hs h.1 hrun) (h.2 r s' hrun)⟩

/-! ## Simulation -/

variable {τ : Type}

/-- Run the operations on a specification, whose steps are a function. -/
def specRun (f : τ → ω → ρ × τ) : τ → List ω → List ρ × τ
  | t, [] => ([], t)
  | t, o :: ops => ((f t o).1 :: (specRun f (f t o).2 ops).1, (specRun f (f t o).2 ops).2)

/-- Every operation of the run is allowed in the state of the specification it is made in. -/
def Allowed (f : τ → ω → ρ × τ) (P : τ → ω → Prop) : τ → List ω → Prop
  | _, [] => True
  | t, o :: ops => P t o ∧ Allowed f P (f t o).2 ops

theorem allowed_of_forall {f : τ → ω → ρ × τ} {P : ω → Prop} (h : ∀ o ∈ ops, P o)
    {t : τ} : Allowed f (fun _ o => P o) t ops := by
  induction ops generalizing t with
  | nil => trivial
  | cons o ops ih => exact ⟨h o (by simp), ih fun o' ho' => h o' (List.mem_cons_of_mem _ ho')⟩

theorem Allowed.and_forall {f : τ → ω → ρ × τ} {P : τ → ω → Prop} {P' : ω → Prop}
    {t : τ} (h : Allowed f P t ops) (h' : ∀ o ∈ ops, P' o) :
    Allowed f (fun t o => P t o ∧ P' o) t ops := by
  induction ops generalizing t with
  | nil => trivial
  | cons o ops ih =>
      exact ⟨⟨h.1, h' o (by simp)⟩, ih h.2 fun o' ho' => h' o' (List.mem_cons_of_mem _ ho')⟩

/-- A specification that looks at a part `g o` of every operation only. -/
theorem specRun_map {ω' : Type} (f : τ → ω' → ρ × τ) (g : ω → ω') (t : τ) (ops : List ω) :
    specRun (fun t o => f t (g o)) t ops = specRun f t (ops.map g) := by
  induction ops generalizing t with
  | nil => rfl
  | cons o ops ih => rw [List.map_cons, specRun, specRun, ih]

theorem allowed_map {ω' : Type} {f : τ → ω' → ρ × τ} {P : τ → ω' → Prop} {g : ω → ω'} {t : τ} :
    Allowed (fun t o => f t (g o)) (fun t o => P t (g o)) t ops ↔ Allowed f P t (ops.map g) := by
  induction ops generalizing t with
  | nil => exact Iff.rfl
  | cons o ops ih => rw [List.map_cons, Allowed, Allowed, ih]

/-- **The simulation rule**: when every allowed operation returns what the specification returns
and keeps the relation `R`, so does every run of allowed operations. -/
theorem Ok.runAll_sim {f : τ → ω → ρ × τ} {P : τ → ω → Prop} (R : σ → τ → Prop)
    (hstep : ∀ o s t, P t o → R s t → Ok (step o) s (fun r s' => r = (f t o).1 ∧ R s' (f t o).2)) :
    ∀ (ops : List ω) (s : σ) (t : τ), Allowed f P t ops → R s t →
      Ok (Lib.runAll step ops) s
        (fun rs s' => rs = (specRun f t ops).1 ∧ R s' (specRun f t ops).2) := by
  intro ops
  induction ops with
  | nil => intro s t _ hR; exact ⟨[], s, rfl, rfl, hR⟩
  | cons o ops ih =>
      intro s t hP hR
      obtain ⟨r, s₁, ho, rfl, hR₁⟩ := hstep o s t hP.1 hR
      obtain ⟨rs, s₂, hr, rfl, hR₂⟩ := ih s₁ _ hP.2 hR₁
      exact ⟨_, s₂, runAll_cons_ok.mpr ⟨_, s₁, _, ho, hr, rfl⟩, rfl, hR₂⟩

/-- **Two machines in step**: when every step of the one is the step of the other on the part
`view s` of its state, or both go wrong in the same way, so is every run. -/
theorem runAll_lockstep {step' : ω → Exec τ ρ} {P : σ → ω → Prop}
    (view : σ → τ) (hstep : ∀ o s, I s → P s o →
      ((step o).run s).map (Prod.map id view) = (step' o).run (view s))
    (hinv : ∀ o s r s', I s → P s o → (step o).run s = .ok (r, s') → I s') :
    ∀ {ops : List ω} {s : σ}, I s → AllSteps step P s ops →
      ((runAll step ops).run s).map (Prod.map id view) = (runAll step' ops).run (view s) := by
  intro ops
  induction ops with
  | nil => intro s _ _; rfl
  | cons o ops ih =>
      intro s hs h
      have hfirst := hstep o s hs h.1
      rw [runAll, runAll]
      cases ho : (step o).run s with
      | error e =>
          rw [ho] at hfirst
          rw [run_bind_error ho, run_bind_error hfirst.symm]
          rfl
      | ok p =>
          obtain ⟨r, s'⟩ := p
          rw [ho] at hfirst
          have hrest := ih (hinv o s r s' hs h.1 ho) (h.2 r s' ho)
          rw [run_bind_ok ho, run_bind_ok hfirst.symm]
          cases hr : (runAll step ops).run s' with
          | error e =>
              rw [hr] at hrest
              rw [run_bind_error hr]
              exact (run_bind_error hrest.symm).symm
          | ok q =>
              rw [hr] at hrest
              rw [run_bind_ok hr]
              refine Eq.trans ?_ (run_bind_ok hrest.symm).symm
              rfl

end Runs

end KvStore.Lib
