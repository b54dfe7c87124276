import KvStore.LockFree.Fifo

set_option autoImplicit false

/-! # When `enqueue` reports a full queue

`enqueue` reads `m_writeIndex` and then `m_readIndex`, and returns `false` when the two are one
apart modulo `Q_SIZE`. In between, other threads may fill and empty the queue, and `m_readIndex` may
pass the index that was read first: the two agree modulo `Q_SIZE` then, although the queue has never
been full (`full_of_nothing`). As long as `m_readIndex` has not passed that index, the queue was
full when `m_writeIndex` was read; and a queue with one usable cell is full whenever there is
something in it (`full_was_full`). -/

namespace KvStore.LockFree

open Function KvStore.Lib

variable {α : Type} {size : Nat} {s s' : Sys α} {t : Nat}

/-- Every cell that may be used is taken. -/
def Full (size : Nat) (s : Sys α) : Prop := s.writeIndex - s.readIndex = size - 1

instance (size : Nat) (s : Sys α) : Decidable (Full size s) := inferInstanceAs (Decidable (_ = _))

/-! ## One step -/

/-- What one step does to `m_writeIndex` and `m_readIndex`: it adds one to the first, to the second,
or to none of them. -/
def Ticks (s s' : Sys α) : Prop :=
  (s'.writeIndex = s.writeIndex ∧ s'.readIndex = s.readIndex) ∨
    (s'.writeIndex = s.writeIndex + 1 ∧ s'.readIndex = s.readIndex) ∨
    (s'.writeIndex = s.writeIndex ∧ s'.readIndex = s.readIndex + 1)

theorem Inv.ticks (h : Inv size s) {o : Step α} {u : Unit}
    (hrun : (step size o).run s = .ok (u, s')) (hfew : s'.enqueued.length < 2 ^ 64) :
    Ticks s s' := by
  have hlength := h.shared.length
  have hmaximum := h.shared.maximum_le
  cases change_of_step hrun with
  | goto t pc hthread hfull hwrite hread henqueued => exact Or.inl ⟨hwrite, hread⟩
  | reserve t data hpc hthread hwrite hread henqueued =>
      rw [henqueued, List.length_append, List.length_singleton] at hfew
      rw [next_of_lt (by omega)] at hwrite
      exact Or.inr (Or.inl ⟨hwrite, hread⟩)
  | take t data hpc hthread hwrite hread henqueued =>
      have hknown := h.known t
      rw [hpc] at hknown
      have hready := hknown.2.1
      rw [henqueued] at hfew
      rw [next_of_lt (by omega)] at hread
      exact Or.inr (Or.inr ⟨hwrite, hread⟩)
  | spin hsame =>
      subst hsame
      exact Or.inl ⟨rfl, rfl⟩

/-- A thread that is at the test for a full queue was there before, or has just read
`m_writeIndex`. -/
theorem step_testFull {o : Step α} {u : Unit} (hrun : (step size o).run s = .ok (u, s'))
    {data : α} {w : Nat} (hpc : s'.thread t = .testFull data w) :
    s.thread t = .testFull data w ∨ s.writeIndex = w := by
  -- what is known of a step that moves the thread `t'` to `pc`
  have hmoved : ∀ t' pc, s'.thread = update s.thread t' pc →
      (∀ data w, pc = .testFull data w → s.writeIndex = w) →
      s.thread t = .testFull data w ∨ s.writeIndex = w := by
    intro t' pc hthread hfull
    rw [hthread] at hpc
    by_cases ht : t = t'
    · subst ht
      rw [update_self] at hpc
      exact Or.inr (hfull data w hpc)
    · rw [update_of_ne ht] at hpc
      exact Or.inl hpc
  cases change_of_step hrun with
  | goto t' pc hthread hfull hwrite hread henqueued => exact hmoved t' pc hthread hfull
  | reserve t' data' hpc' hthread hwrite hread henqueued =>
      exact hmoved t' _ hthread fun _ _ => nofun
  | take t' data' hpc' hthread hwrite hread henqueued => exact hmoved t' _ hthread fun _ _ => nofun
  | spin hsame => exact Or.inl (hsame ▸ hpc)

/-! ## Runs -/

section Runs

variable {ops : List (Step α)} {rs : List Unit}

theorem length_le_of_run (hrun : (runAll (step size) ops).run s = .ok (rs, s')) :
    s.enqueued.length ≤ s'.enqueued.length :=
  runAll_invariant (I := fun s₁ => s.enqueued.length ≤ s₁.enqueued.length) (P := fun _ => True)
    (fun _ _ _ _ _ hle hstep => hle.trans (length_le_of_step hstep))
      (fun _ _ => trivial) le_rfl hrun

theorem Inv.of_step (h : Inv size s) {o : Step α} {u : Unit}
    (hrun : (step size o).run s = .ok (u, s')) (hfew : s'.enqueued.length < 2 ^ 64) : Inv size s' :=
  (h.takes_step ((length_le_of_step hrun).trans_lt hfew) o).of_run hrun hfew

/-- In a run, `m_readIndex` does not decrease; and with one usable cell, `m_writeIndex` does not
change unless the queue is full at some instant. -/
theorem Inv.indices_of_run (h : Inv size s) (hrun : (runAll (step size) ops).run s = .ok (rs, s'))
    (hfew : s'.enqueued.length < 2 ^ 64) :
    Inv size s' ∧ s.readIndex ≤ s'.readIndex ∧
      (size = 2 → (∃ s₁ ∈ instants (step size) s ops, Full size s₁) ∨
        s'.writeIndex = s.writeIndex) := by
  induction ops generalizing s rs with
  | nil =>
      cases hrun
      exact ⟨h, le_rfl, fun _ => Or.inr rfl⟩
  | cons o ops ih =>
      obtain ⟨u, s₁, rs', ho, hrest, rfl⟩ := runAll_cons_ok.mp hrun
      have hfew₁ := (length_le_of_run hrest).trans_lt hfew
      have h₁ := h.of_step ho hfew₁
      obtain ⟨h', hle, hone⟩ := ih h₁ hrest
      have hticks := h.ticks ho hfew₁
      refine ⟨h', ?_, fun hsize => ?_⟩
      · unfold Ticks at hticks
        omega
      · rw [instants_cons ho]
        rcases hone hsize with ⟨s₂, hmem, hfull⟩ | hsame
        · exact Or.inl ⟨s₂, List.mem_cons_of_mem s hmem, hfull⟩
        · -- an element that is put into the empty queue fills it
          by_cases hwrite : s₁.writeIndex = s.writeIndex
          · exact Or.inr (hsame.trans hwrite)
          · refine Or.inl ⟨s₁, List.mem_cons_of_mem s (mem_instants_self s₁ ops), ?_⟩
            have hread := h.shared.read_le.trans h.shared.maximum_le
            have hroom := h₁.shared.write_lt
            unfold Ticks at hticks
            unfold Full
            omega

/-- Where a thread that is at the test for a full queue has read `m_writeIndex`. -/
theorem Inv.loaded (h : Inv size s) (hrun : (runAll (step size) ops).run s = .ok (rs, s'))
    (hfew : s'.enqueued.length < 2 ^ 64) {data : α} {w : Nat}
    (hpc : s'.thread t = .testFull data w) :
    s.thread t = .testFull data w ∨ ∃ s₁ ops₁ rs₁, Inv size s₁ ∧ s₁.writeIndex = w ∧
      (runAll (step size) ops₁).run s₁ = .ok (rs₁, s') ∧
      instants (step size) s₁ ops₁ ⊆ instants (step size) s ops := by
  induction ops generalizing s rs with
  | nil =>
      cases hrun
      exact Or.inl hpc
  | cons o ops ih =>
      obtain ⟨u, s₁, rs', ho, hrest, rfl⟩ := runAll_cons_ok.mp hrun
      have h₁ := h.of_step ho ((length_le_of_run hrest).trans_lt hfew)
      rcases ih h₁ hrest with hthere | ⟨s₂, ops₂, rs₂, h₂, hw, hrun₂, hsub⟩
      · rcases step_testFull ho hthere with hbefore | hread
        · exact Or.inl hbefore
        · exact Or.inr ⟨s, o :: ops, _, h, hread, hrun, List.Subset.refl _⟩
      · refine Or.inr ⟨s₂, ops₂, rs₂, h₂, hw, hrun₂, ?_⟩
        rw [instants_cons ho]
        exact List.subset_cons_of_subset s hsub

end Runs

/-- The two indices that are compared, when `m_readIndex` has not passed the other one. -/
theorem full_of_mod_eq {w r r' : Nat} (hmod : (w + 1) % size = r % size) (hle : r ≤ w)
    (hread : r' ≤ r) (hroom : w < r' + size) : w - r' = size - 1 := by
  have hdvd : size ∣ w + 1 - r := Nat.dvd_of_mod_eq_zero (Nat.sub_mod_eq_zero_of_mod_eq hmod)
  have hsize : size ≤ w + 1 - r := Nat.le_of_dvd (by omega) hdvd
  omega

/-- What makes `enqueue` return `false`. -/
theorem mod_eq_of_out {data : α} {w : Nat} {u : Unit} (hrun : (advance size t).run s = .ok (u, s'))
    (htest : s.thread t = .testFull data w) (hout : s'.thread t = .out) :
    countToIndex size (next w) = countToIndex size s.readIndex := by
  by_contra hroom
  have hgoto : (advance size t).run s = .ok ((), s.goto t (.reserve data w)) := by
    unfold advance
    rw [run_get_bind, htest]
    dsimp only
    rw [if_neg hroom]
    rfl
  rw [hgoto] at hrun
  cases hrun
  have hreserve : (s.goto t (.reserve data w)).thread t = .reserve data w := update_self ..
  rw [hreserve] at hout
  cases hout

/-- **A full queue that is reported was full.** A thread calls `enqueue` in some state of a run, and
later, in the state `s`, it reads `m_readIndex` and returns `false`. With this call there are fewer
than `2 ^ 64` enqueues. If `m_readIndex` has not passed the index `w` that the thread has read
before, or if `size` is two, the queue was full at some instant since the call. -/
theorem full_was_full (size : Nat) (hsize : 2 ≤ size) (before during : List (Step α))
    (rs rs' : List Unit) (t : Nat) (data data' : α) (w : Nat) (s₀ s₁ s s' : Sys α)
    (hbefore : (runAll (step size) before).run (start α) = .ok (rs, s₀))
    (hcall : (step size (.enqueue t data)).run s₀ = .ok ((), s₁))
    (hduring : (runAll (step size) during).run s₁ = .ok (rs', s))
    (htest : s.thread t = .testFull data' w)
    (hreturn : (step size (.advance t)).run s = .ok ((), s')) (hout : s'.thread t = .out)
    (hfew : s.enqueued.length + 1 < 2 ^ 64) (hpassed : size = 2 ∨ s.readIndex ≤ w) :
    ∃ s₂ ∈ instants (step size) s₁ during, s₂.writeIndex - s₂.readIndex = size - 1 := by
  have hfew₁ : s₁.enqueued.length < 2 ^ 64 := (length_le_of_run hduring).trans_lt (by omega)
  have h₀ : Inv size s₀ := Inv.of_run (by omega) hbefore ((length_le_of_step hcall).trans_lt hfew₁)
  have h₁ : Inv size s₁ := h₀.of_step hcall hfew₁
  have hstart : s₁.thread t = .readWriteIndex data := by
    obtain ⟨-, rfl⟩ := run_act_ok.mp hcall
    exact update_self ..
  obtain ⟨s₂, ops₂, rs₂, h₂, hw, hrun₂, hsub⟩ := (h₁.loaded hduring (by omega) htest).resolve_left
    fun heq => by rw [hstart] at heq; cases heq
  obtain ⟨h, hread, hone⟩ := h₂.indices_of_run hrun₂ (by omega)
  rcases Nat.lt_or_ge w s.readIndex with hlt | hle
  · -- somebody has put an element into the one cell and taken it out since
    have htwo : size = 2 := hpassed.resolve_right (by omega)
    rcases hone htwo with ⟨s₃, hmem, hfull⟩ | hsame
    · exact ⟨s₃, hsub hmem, hfull⟩
    · have hbound := h.shared.read_le.trans h.shared.maximum_le
      omega
  · have hmod : (w + 1) % size = s.readIndex % size := by
      have hknown := h.known t
      rw [htest] at hknown
      have hlength := h.shared.length
      have hnext : next w = w + 1 := next_of_lt (by have hbound : w ≤ s.writeIndex := hknown; omega)
      rw [← hnext]
      exact mod_eq_of_out hreturn htest hout
    refine ⟨s₂, hsub (mem_instants_self s₂ ops₂), ?_⟩
    rw [hw]
    exact full_of_mod_eq hmod hle hread (hw ▸ h₂.shared.write_lt)

/-- The thread `1` puts two elements into the queue. -/
def fillingOps : List (Step Nat) :=
  .enqueue 1 8 :: List.replicate 6 (.advance 1) ++ .enqueue 1 9 :: List.replicate 6 (.advance 1)

/-- The two usable cells of three are taken when the thread `0` comes. -/
theorem full_was_full_sample :
    ∃ rs rs' s₀ s₁ s s', (runAll (step 3) fillingOps).run (start Nat) = .ok (rs, s₀) ∧
      (step 3 (.enqueue 0 7)).run s₀ = .ok ((), s₁) ∧
      (runAll (step 3) [.advance 0]).run s₁ = .ok (rs', s) ∧ s.thread 0 = .testFull 7 2 ∧
      (step 3 (.advance 0)).run s = .ok ((), s') ∧ s'.thread 0 = .out ∧
      ∃ s₂ ∈ instants (step 3) s₁ [.advance 0], s₂.writeIndex - s₂.readIndex = 3 - 1 := by
  have hruns : ∃ rs rs' s₀ s₁ s s', (runAll (step 3) fillingOps).run (start Nat) = .ok (rs, s₀) ∧
      (step 3 (.enqueue 0 7)).run s₀ = .ok ((), s₁) ∧
      (runAll (step 3) [.advance 0]).run s₁ = .ok (rs', s) ∧ s.thread 0 = .testFull 7 2 ∧
      (step 3 (.advance 0)).run s = .ok ((), s') ∧ s'.thread 0 = .out ∧
      (s.enqueued.length, s.readIndex) = (2, 0) :=
    ⟨_, _, _, _, _, _, rfl, rfl, rfl, rfl, rfl, rfl, rfl⟩
  obtain ⟨rs, rs', s₀, s₁, s, s', hbefore, hcall, hduring, htest, hreturn, hout, hs⟩ := hruns
  obtain ⟨hlength, hread⟩ := Prod.mk.inj hs
  exact ⟨rs, rs', s₀, s₁, s, s', hbefore, hcall, hduring, htest, hreturn, hout,
    full_was_full 3 (by decide) _ _ _ _ 0 7 7 2 s₀ s₁ s s' hbefore hcall hduring htest hreturn hout
      (by rw [hlength]; decide) (Or.inr (by omega))⟩

/-- While the thread `0` is between its two reads, an element goes through the queue. -/
def passingOps : List (Step Nat) :=
  [.advance 0, .enqueue 1 8, .advance 1, .advance 1, .advance 1, .advance 1, .advance 1, .advance 1,
    .dequeue 2, .advance 2, .advance 2, .advance 2, .advance 2, .advance 2]

/-- A queue of three cells never has two elements, and is reported as full. -/
theorem full_of_nothing :
    ∃ rs s₁ s s', (step 3 (.enqueue 0 7)).run (start Nat) = .ok ((), s₁) ∧
      (runAll (step 3) passingOps).run s₁ = .ok (rs, s) ∧ s.thread 0 = .testFull 7 0 ∧
      (step 3 (.advance 0)).run s = .ok ((), s') ∧ s'.thread 0 = .out ∧ s.enqueued.length = 1 ∧
      ∀ s₂ ∈ instants (step 3) s₁ passingOps, s₂.writeIndex - s₂.readIndex ≠ 3 - 1 :=
  ⟨_, _, _, _, rfl, rfl, rfl, rfl, rfl, rfl, by decide +kernel⟩

end KvStore.LockFree
