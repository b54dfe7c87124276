import KvStore.LockFree.Model
import KvStore.Lib.Ring

set_option autoImplicit false

/-! # The lock-free queue is a FIFO

The three indices cut the elements that were enqueued into four parts: taken, ready, reserved, and
free cells (`Inv`). A thread that has reserved a cell is the only one with that index, up to its
`CAS` on `m_maximumReadIndex`. What a thread has read may be stale; but a `CAS` that succeeds finds
the index that was read, and since the indices only grow, it has not changed in between.

* `Inv.takes_advance`: every step keeps the invariant, and copies no cell that was not written.
* `first_in_first_out`: the order of the indices, and that the elements come out in the order they
  went in. -/

namespace KvStore.LockFree

open Function KvStore.Lib

variable {α : Type} {size : Nat} {s : Sys α} {t : Nat} {data : α} {s' : Sys α}

/-- The index of the cell that the thread has reserved. -/
def Pc.reserved : Pc α → Option Nat
  | .store _ w => some w
  | .publish w => some w
  | _ => none

/-- What a thread knows at its place. -/
def Local (size : Nat) (s : Sys α) : Pc α → Prop
  | .testFull _ w => w ≤ s.writeIndex
  | .reserve _ w =>
      w ≤ s.writeIndex ∧ (s.writeIndex = w → w + 1 < 2 ^ 64 → w + 1 < s.readIndex + size)
  | .store data w => s.maximumReadIndex ≤ w ∧ w < s.writeIndex ∧ s.enqueued[w]? = some data
  | .publish w =>
      s.maximumReadIndex ≤ w ∧ w < s.writeIndex ∧ s.theQueue (w % size) = s.enqueued[w]?
  | .testEmpty r => r ≤ s.readIndex
  | .load r => r ≤ s.readIndex ∧ r < s.maximumReadIndex
  | .take data r =>
      r ≤ s.readIndex ∧ r < s.maximumReadIndex ∧ (s.readIndex = r → s.enqueued[r]? = some data)
  | _ => True

/-- What holds of the shared variables. -/
structure Shared (size : Nat) (s : Sys α) : Prop where
  read_le : s.readIndex ≤ s.maximumReadIndex
  maximum_le : s.maximumReadIndex ≤ s.writeIndex
  write_lt : s.writeIndex < s.readIndex + size
  length : s.enqueued.length = s.writeIndex
  dequeued : s.dequeued = s.enqueued.take s.readIndex
  /-- The elements that are ready are in their cells. -/
  ready : ∀ k, s.readIndex ≤ k → k < s.maximumReadIndex → s.theQueue (k % size) = s.enqueued[k]?
  written : ∀ k < s.maximumReadIndex, s.theQueue (k % size) ≠ none

/-- **The invariant.** -/
structure Inv (size : Nat) (s : Sys α) : Prop where
  shared : Shared size s
  known : ∀ t, Local size s (s.thread t)
  apart : ∀ t t' w, w ∈ (s.thread t).reserved → w ∈ (s.thread t').reserved → t = t'
  held : ∀ w, s.maximumReadIndex ≤ w → w < s.writeIndex → ∃ t, w ∈ (s.thread t).reserved

/-! ## Frames -/

/-- The thread `t` moves on and keeps what it has reserved. -/
theorem Inv.move (h : Inv size s) {pc : Pc α}
    (hthread : s'.thread = update s.thread t pc) (hshared : Shared size s')
    (hreserved : pc.reserved = (s.thread t).reserved)
    (hmaximum : s'.maximumReadIndex = s.maximumReadIndex) (hwrite : s'.writeIndex = s.writeIndex)
    (hpc : Local size s' pc) (hothers : ∀ t' ≠ t, Local size s' (s.thread t')) : Inv size s' := by
  have hsame : ∀ t', (s'.thread t').reserved = (s.thread t').reserved := by
    rw [hthread]
    exact (forall_update_iff s.thread fun t' pc' => pc'.reserved = (s.thread t').reserved).mpr
      ⟨hreserved, fun _ _ => rfl⟩
  refine ⟨hshared, ?_, fun t₁ t₂ w h₁ h₂ => ?_, fun w hw hw' => ?_⟩
  · rw [hthread]
    exact (forall_update_iff s.thread fun _ pc' => Local size s' pc').mpr ⟨hpc, hothers⟩
  · rw [hsame] at h₁ h₂
    exact h.apart t₁ t₂ w h₁ h₂
  · rw [hmaximum] at hw
    rw [hwrite] at hw'
    obtain ⟨t', ht'⟩ := h.held w hw hw'
    exact ⟨t', by rwa [hsame]⟩

/-- A step that changes no shared variable. -/
theorem Inv.goto (h : Inv size s) (pc : Pc α) (hreserved : pc.reserved = (s.thread t).reserved)
    (hpc : Local size s pc) : Inv size (s.goto t pc) := by
  have hlocal : ∀ pc', Local size s pc' → Local size (s.goto t pc) pc' := by
    intro pc' h'
    cases pc' <;> exact h'
  refine h.move rfl ?_ hreserved rfl rfl (hlocal pc hpc) fun t' _ => hlocal _ (h.known t')
  obtain ⟨h₁, h₂, h₃, h₄, h₅, h₆, h₇⟩ := h.shared
  exact ⟨h₁, h₂, h₃, h₄, h₅, h₆, h₇⟩

/-! ## `enqueue` -/

theorem next_of_lt {i : Nat} (h : i + 1 < 2 ^ 64) : next i = i + 1 := Nat.mod_eq_of_lt h

/-- The test for a full queue, when nobody has reserved a cell since. -/
theorem Inv.local_reserve (h : Inv size s) {w : Nat} (hw : w ≤ s.writeIndex)
    (hroom : countToIndex size (next w) ≠ countToIndex size s.readIndex) :
    Local size s (.reserve data w) := by
  refine ⟨hw, fun heq hbound => ?_⟩
  have hlt := h.shared.write_lt
  rw [next_of_lt hbound] at hroom
  have hne : w + 1 ≠ s.readIndex + size := by
    intro hfull
    refine hroom ?_
    rw [countToIndex, countToIndex, hfull, Nat.add_mod_right]
  omega

/-- What a thread has reserved is between the elements that are ready and the free cells. -/
theorem Inv.reserved_bounds (h : Inv size s) {w : Nat} (hw : w ∈ (s.thread t).reserved) :
    s.maximumReadIndex ≤ w ∧ w < s.writeIndex := by
  have hknown := h.known t
  cases hpc : s.thread t with
  | store data w' =>
      rw [hpc] at hw hknown
      cases hw
      exact ⟨hknown.1, hknown.2.1⟩
  | publish w' =>
      rw [hpc] at hw hknown
      cases hw
      exact ⟨hknown.1, hknown.2.1⟩
  | _ => rw [hpc] at hw; cases hw

/-- The state behind the `CAS` on `m_writeIndex`. -/
def Sys.reserve (t : Nat) (data : α) (s : Sys α) : Sys α :=
  { s.goto t (.store data s.writeIndex) with
    writeIndex := s.writeIndex + 1, enqueued := s.enqueued ++ [data] }

theorem Shared.getElem?_reserve (h : Shared size s) (data : α) {k : Nat} (hk : k < s.writeIndex) :
    (s.reserve t data).enqueued[k]? = s.enqueued[k]? :=
  List.getElem?_append_left (h.length.symm ▸ hk)

theorem Shared.reserve (h : Shared size s) (data : α)
    (hroom : s.writeIndex + 1 < s.readIndex + size) : Shared size (s.reserve t data) where
  read_le := h.read_le
  maximum_le := Nat.le_succ_of_le h.maximum_le
  write_lt := hroom
  length := by
    show (s.enqueued ++ [data]).length = s.writeIndex + 1
    rw [List.length_append, List.length_singleton, h.length]
  dequeued := by
    show s.dequeued = (s.enqueued ++ [data]).take s.readIndex
    rw [List.take_append_of_le_length (h.length.symm ▸ h.read_le.trans h.maximum_le)]
    exact h.dequeued
  ready k hk hk' :=
    (h.ready k hk hk').trans (h.getElem?_reserve data (lt_of_lt_of_le hk' h.maximum_le)).symm
  written := h.written

/-- What the other threads know. -/
theorem Local.reserve (h : Shared size s) (data : α) {pc : Pc α} (hpc : Local size s pc) :
    Local size (s.reserve t data) pc := by
  cases pc with
  | testFull data' w => exact Nat.le_succ_of_le hpc
  | reserve data' w =>
      refine ⟨Nat.le_succ_of_le hpc.1, fun heq => ?_⟩
      have hle := hpc.1
      change s.writeIndex + 1 = w at heq
      omega
  | store data' w =>
      exact ⟨hpc.1, Nat.lt_succ_of_lt hpc.2.1, (h.getElem?_reserve data hpc.2.1).trans hpc.2.2⟩
  | publish w =>
      exact ⟨hpc.1, Nat.lt_succ_of_lt hpc.2.1, hpc.2.2.trans (h.getElem?_reserve data hpc.2.1).symm⟩
  | take data' r =>
      refine ⟨hpc.1, hpc.2.1, fun heq => ?_⟩
      exact (h.getElem?_reserve data (lt_of_lt_of_le hpc.2.1 h.maximum_le)).trans (hpc.2.2 heq)
  | testEmpty r => exact hpc
  | load r => exact hpc
  | _ => trivial

/-- **The `CAS` on `m_writeIndex`** reserves the next cell. -/
theorem Inv.reserve (h : Inv size s) (hpc : s.thread t = .reserve data s.writeIndex)
    (hbound : s.writeIndex + 1 < 2 ^ 64) : Inv size (s.reserve t data) := by
  have hknown := h.known t
  rw [hpc] at hknown
  have hnew : (s.enqueued ++ [data])[s.writeIndex]? = some data := by
    rw [← h.shared.length, List.getElem?_concat_length]
  have hmem : ∀ t' w, w ∈ ((s.reserve t data).thread t').reserved ↔
      (t' = t ∧ s.writeIndex = w) ∨ w ∈ (s.thread t').reserved := by
    intro t' w
    show w ∈ (update s.thread t (.store data s.writeIndex) t').reserved ↔ _
    by_cases ht' : t' = t
    · subst ht'
      rw [update_self, hpc]
      simp [Pc.reserved]
    · rw [update_of_ne ht']
      simp [ht']
  refine ⟨h.shared.reserve data (hknown.2 rfl hbound), ?_, fun t₁ t₂ w h₁ h₂ => ?_,
    fun w hw hw' => ?_⟩
  · exact (forall_update_iff s.thread fun _ pc => Local size (s.reserve t data) pc).mpr
      ⟨⟨h.shared.maximum_le, Nat.lt_succ_self _, hnew⟩,
        fun t' _ => (h.known t').reserve h.shared data⟩
  · -- the new index is above those of the other threads
    rcases (hmem t₁ w).mp h₁ with ⟨rfl, rfl⟩ | hold₁ <;> rcases (hmem t₂ _).mp h₂
      with ⟨rfl, heq⟩ | hold₂
    · rfl
    · exact absurd (h.reserved_bounds hold₂).2 (lt_irrefl _)
    · exact absurd (h.reserved_bounds hold₁).2 (heq ▸ lt_irrefl _)
    · exact h.apart t₁ t₂ w hold₁ hold₂
  · rcases Nat.lt_succ_iff_lt_or_eq.mp hw' with hlt | heq
    · obtain ⟨t', ht'⟩ := h.held w hw hlt
      exact ⟨t', (hmem t' w).mpr (Or.inr ht')⟩
    · exact ⟨t, (hmem t w).mpr (Or.inl ⟨rfl, heq.symm⟩)⟩

/-- The state behind the copy into a cell. -/
def Sys.store (size t : Nat) (data : α) (w : Nat) (s : Sys α) : Sys α :=
  { s.goto t (.publish w) with theQueue := update s.theQueue (countToIndex size w) (some data) }

/-- A cell that is reserved is the cell of no other element that counts. -/
theorem Inv.store_other (h : Inv size s) {w k : Nat} (hw : w ∈ (s.thread t).reserved)
    (hk : s.readIndex ≤ k) (hk' : k < s.writeIndex) (hne : k ≠ w) :
    (s.store size t data w).theQueue (k % size) = s.theQueue (k % size) := by
  refine update_of_ne (fun heq => hne ?_) _ _
  have hbounds := h.reserved_bounds hw
  have hread := h.shared.read_le
  have hroom := h.shared.write_lt
  exact ring_count_inj hk (by omega) (by omega) (by omega) heq

/-- **An element is copied** into its cell. -/
theorem Inv.store (h : Inv size s) {w : Nat} (hpc : s.thread t = .store data w) :
    Inv size (s.store size t data w) := by
  have hknown := h.known t
  rw [hpc] at hknown
  have hw : w ∈ (s.thread t).reserved := by rw [hpc]; rfl
  have hread := h.shared.read_le
  have hmaximum := h.shared.maximum_le
  refine h.move rfl ?_ (by rw [hpc]; rfl) rfl rfl ⟨hknown.1, hknown.2.1, ?_⟩ fun t' ht' => ?_
  · refine ⟨hread, hmaximum, h.shared.write_lt, h.shared.length, h.shared.dequeued,
      fun k hk hk' => ?_, fun k hk => ?_⟩
    · change k < s.maximumReadIndex at hk'
      have hlow := hknown.1
      exact (h.store_other hw hk (by omega) (by omega)).trans (h.shared.ready k hk hk')
    · show update s.theQueue (countToIndex size w) (some data) (k % size) ≠ none
      by_cases heq : k % size = countToIndex size w
      · rw [heq, update_self]
        exact Option.some_ne_none data
      · rw [update_of_ne heq]
        exact h.shared.written k hk
  · show update s.theQueue (countToIndex size w) (some data) (w % size) = s.enqueued[w]?
    rw [hknown.2.2]
    exact update_self ..
  · have hknown' := h.known t'
    cases hpc' : s.thread t' with
    | publish w' =>
        rw [hpc'] at hknown'
        have hw' : w' ∈ (s.thread t').reserved := by rw [hpc']; rfl
        have hne : w' ≠ w := by
          rintro rfl
          exact ht' (h.apart t' t w' hw' hw)
        refine ⟨hknown'.1, hknown'.2.1, (h.store_other hw ?_ hknown'.2.1 hne).trans hknown'.2.2⟩
        exact hread.trans hknown'.1
    | _ => rw [hpc'] at hknown'; exact hknown'

/-- The state behind the `CAS` on `m_maximumReadIndex`. -/
def Sys.publish (t w : Nat) (s : Sys α) : Sys α :=
  { s.goto t .countUp with maximumReadIndex := w + 1 }

/-- **The `CAS` on `m_maximumReadIndex`** makes the first reserved element ready. -/
theorem Inv.publish (h : Inv size s) (hpc : s.thread t = .publish s.maximumReadIndex) :
    Inv size (s.publish t s.maximumReadIndex) := by
  have hknown := h.known t
  rw [hpc] at hknown
  have hw : s.maximumReadIndex ∈ (s.thread t).reserved := by rw [hpc]; rfl
  have hmem : ∀ t' w, w ∈ ((s.publish t s.maximumReadIndex).thread t').reserved ↔
      t' ≠ t ∧ w ∈ (s.thread t').reserved := by
    intro t' w
    show w ∈ (update s.thread t .countUp t').reserved ↔ _
    by_cases ht' : t' = t
    · subst ht'
      rw [update_self]
      simp [Pc.reserved]
    · rw [update_of_ne ht']
      simp [ht']
  -- what the other threads have reserved comes later
  have hlater : ∀ t' ≠ t, ∀ w ∈ (s.thread t').reserved, s.maximumReadIndex + 1 ≤ w := by
    intro t' ht' w hw'
    refine Nat.lt_of_le_of_ne (h.reserved_bounds hw').1 ?_
    rintro rfl
    exact ht' (h.apart t' t _ hw' hw)
  refine ⟨?_, ?_, fun t₁ t₂ w h₁ h₂ => ?_, fun w hlow hhigh => ?_⟩
  · refine ⟨Nat.le_succ_of_le h.shared.read_le, hknown.2.1, h.shared.write_lt, h.shared.length,
      h.shared.dequeued, fun k hk hk' => ?_, fun k hk => ?_⟩
    · rcases Nat.lt_succ_iff_lt_or_eq.mp hk' with hlt | rfl
      · exact h.shared.ready k hk hlt
      · exact hknown.2.2
    · rcases Nat.lt_succ_iff_lt_or_eq.mp hk with hlt | rfl
      · exact h.shared.written k hlt
      · refine fun hnone => absurd (hknown.2.2.symm.trans hnone) ?_
        rw [List.getElem?_eq_none_iff, h.shared.length]
        exact not_le.mpr hknown.2.1
  · refine (forall_update_iff s.thread fun _ pc =>
      Local size (s.publish t s.maximumReadIndex) pc).mpr ⟨trivial, fun t' ht' => ?_⟩
    have hknown' := h.known t'
    cases hpc' : s.thread t' with
    | store data w =>
        rw [hpc'] at hknown'
        exact ⟨hlater t' ht' w (by rw [hpc']; rfl), hknown'.2⟩
    | publish w =>
        rw [hpc'] at hknown'
        exact ⟨hlater t' ht' w (by rw [hpc']; rfl), hknown'.2⟩
    | load r => rw [hpc'] at hknown'; exact ⟨hknown'.1, Nat.lt_succ_of_lt hknown'.2⟩
    | take data r =>
        rw [hpc'] at hknown'; exact ⟨hknown'.1, Nat.lt_succ_of_lt hknown'.2.1, hknown'.2.2⟩
    | _ => rw [hpc'] at hknown'; exact hknown'
  · exact h.apart t₁ t₂ w ((hmem t₁ w).mp h₁).2 ((hmem t₂ w).mp h₂).2
  · obtain ⟨t', ht'⟩ := h.held w (Nat.le_of_succ_le hlow) hhigh
    refine ⟨t', (hmem t' w).mpr ⟨?_, ht'⟩⟩
    rintro rfl
    rw [hpc] at ht'
    cases ht'
    exact absurd hlow (Nat.not_succ_le_self _)

/-! ## `dequeue` -/

/-- The state behind the `CAS` on `m_readIndex`. -/
def Sys.take (t : Nat) (data : α) (r : Nat) (s : Sys α) : Sys α :=
  { s.goto t .countDown with readIndex := r + 1, dequeued := s.dequeued ++ [data] }

/-- **The `CAS` on `m_readIndex`** takes the first element that is ready. -/
theorem Inv.take (h : Inv size s) (hpc : s.thread t = .take data s.readIndex) :
    Inv size (s.take t data s.readIndex) := by
  have hknown := h.known t
  rw [hpc] at hknown
  have hfirst := hknown.2.2 rfl
  refine h.move rfl ?_ (by rw [hpc]; rfl) rfl rfl trivial fun t' _ => ?_
  · have hroom := h.shared.write_lt
    refine ⟨hknown.2.1, h.shared.maximum_le, ?_, h.shared.length, ?_, fun k hk => ?_,
      h.shared.written⟩
    · show s.writeIndex < s.readIndex + 1 + size
      omega
    · show s.dequeued ++ [data] = s.enqueued.take (s.readIndex + 1)
      rw [List.take_add_one, hfirst, h.shared.dequeued]
      rfl
    · exact h.shared.ready k (Nat.le_of_succ_le hk)
  · have hknown' := h.known t'
    cases hpc' : s.thread t' with
    | reserve data' w =>
        rw [hpc'] at hknown'
        refine ⟨hknown'.1, fun heq hbound => ?_⟩
        have hroom := hknown'.2 heq hbound
        show w + 1 < s.readIndex + 1 + size
        omega
    | testEmpty r => rw [hpc'] at hknown'; exact Nat.le_succ_of_le hknown'
    | load r => rw [hpc'] at hknown'; exact ⟨Nat.le_succ_of_le hknown'.1, hknown'.2⟩
    | take data' r =>
        rw [hpc'] at hknown'
        refine ⟨Nat.le_succ_of_le hknown'.1, hknown'.2.1, fun heq => ?_⟩
        -- an index that was read before is not the new one
        change s.readIndex + 1 = r at heq
        have hle := hknown'.1
        omega
    | _ => rw [hpc'] at hknown'; exact hknown'

/-! ## Runs -/

/-- The invariant is kept as long as the indices do not wrap around. -/
def Kept (size : Nat) (s' : Sys α) : Prop := s'.enqueued.length < 2 ^ 64 → Inv size s'

/-- A step that moves its thread only. -/
theorem Inv.takes_goto (h : Inv size s) (pc : Pc α) {pc₀ : Pc α} (hpc₀ : s.thread t = pc₀)
    (hreserved : pc.reserved = pc₀.reserved) (hpc : Local size s pc) :
    Takes (set (s.goto t pc) : Exec (Sys α) Unit) s fun _ s' => Kept size s' :=
  ((ok_set _ _ _).mpr fun _ => h.goto pc (hpc₀ ▸ hreserved) hpc).takes

/-- A change of `m_count` does not matter. -/
theorem Inv.setCount (h : Inv size s) (n : Nat) : Inv size { s with count := n } := by
  obtain ⟨⟨h₁, h₂, h₃, h₄, h₅, h₆, h₇⟩, hknown, hapart, hheld⟩ := h
  refine ⟨⟨h₁, h₂, h₃, h₄, h₅, h₆, h₇⟩, fun t => ?_, hapart, hheld⟩
  have hlocal := hknown t
  show Local size _ (s.thread t)
  cases hpc : s.thread t <;> rw [hpc] at hlocal <;> exact hlocal

/-- **One step of a thread.** -/
theorem Inv.takes_advance (h : Inv size s) (hbound : s.enqueued.length < 2 ^ 64) (t : Nat) :
    Takes (advance size t) s fun _ s' => Kept size s' := by
  have hknown := h.known t
  have hlength := h.shared.length
  have hread := h.shared.read_le
  have hmaximum := h.shared.maximum_le
  refine takes_bind (Ok.takes ((ok_get s _).mpr ?_))
  cases hpc : s.thread t with
  | out => exact Or.inl rfl
  | readWriteIndex data => exact h.takes_goto _ hpc rfl (le_refl s.writeIndex)
  | testFull data w =>
      rw [hpc] at hknown
      dsimp only
      split_ifs with hfull
      · exact h.takes_goto .out hpc rfl trivial
      · exact h.takes_goto _ hpc rfl (h.local_reserve hknown hfull)
  | reserve data w =>
      dsimp only
      split_ifs with hwin
      · subst hwin
        refine ((ok_set _ _ _).mpr fun hbound' => ?_).takes
        have hlt : s.writeIndex + 1 < 2 ^ 64 := by
          simp only [List.length_append, List.length_singleton] at hbound'
          omega
        rw [next_of_lt hlt]
        exact h.reserve hpc hlt
      · exact h.takes_goto (.readWriteIndex data) hpc rfl trivial
  | store data w => exact ((ok_set _ _ _).mpr fun _ => h.store hpc).takes
  | publish w =>
      dsimp only
      rw [hpc] at hknown
      split_ifs with hwin
      · subst hwin
        refine ((ok_set _ _ _).mpr fun _ => ?_).takes
        have hlt := hknown.2.1
        rw [next_of_lt (by omega)]
        exact h.publish hpc
      · exact ((ok_set _ _ _).mpr fun _ => h).takes
  | countUp =>
      exact ((ok_set _ _ _).mpr fun _ => (h.goto .out (hpc ▸ rfl) trivial).setCount _).takes
  | readReadIndex => exact h.takes_goto (.testEmpty s.readIndex) hpc rfl (le_refl s.readIndex)
  | testEmpty r =>
      rw [hpc] at hknown
      dsimp only
      split_ifs with hempty
      · exact h.takes_goto .out hpc rfl trivial
      · refine h.takes_goto (.load r) hpc rfl
          ⟨hknown, Nat.lt_of_le_of_ne (le_trans hknown hread) ?_⟩
        rintro rfl
        exact hempty rfl
  | load r =>
      rw [hpc] at hknown
      dsimp only
      cases hcell : s.theQueue (countToIndex size r) with
      | none => exact absurd hcell (h.shared.written r hknown.2)
      | some data =>
          refine h.takes_goto (.take data r) hpc rfl ⟨hknown.1, hknown.2, ?_⟩
          rintro rfl
          exact (h.shared.ready s.readIndex le_rfl hknown.2).symm.trans hcell
  | take data r =>
      rw [hpc] at hknown
      dsimp only
      split_ifs with hwin
      · subst hwin
        refine ((ok_set _ _ _).mpr fun _ => ?_).takes
        have hlt := hknown.2.1
        rw [next_of_lt (by omega)]
        exact h.take hpc
      · exact h.takes_goto .readReadIndex hpc rfl trivial
  | countDown =>
      exact ((ok_set _ _ _).mpr fun _ => (h.goto .out (hpc ▸ rfl) trivial).setCount _).takes

theorem reserved_of_isOut {pc : Pc α} (h : pc.isOut = true) : pc.reserved = none := by
  cases pc with
  | out => rfl
  | _ => cases h

theorem Inv.takes_step (h : Inv size s) (hbound : s.enqueued.length < 2 ^ 64) (o : Step α) :
    Takes (step size o) s fun _ s' => Kept size s' := by
  cases o with
  | enqueue t data => exact takes_act fun hout _ => h.goto _ (reserved_of_isOut hout).symm trivial
  | dequeue t => exact takes_act fun hout _ => h.goto _ (reserved_of_isOut hout).symm trivial
  | advance t => exact h.takes_advance hbound t

/-- What one step does to the threads, to `m_writeIndex` and `m_readIndex`, and to what was
enqueued. -/
inductive Change (s s' : Sys α) : Prop where
  /-- A thread goes to `pc`; to the test for a full queue, it brings `m_writeIndex`. -/
  | goto (t : Nat) (pc : Pc α) (hthread : s'.thread = update s.thread t pc)
      (hfull : ∀ data w, pc = .testFull data w → s.writeIndex = w)
        (hwrite : s'.writeIndex = s.writeIndex)
      (hread : s'.readIndex = s.readIndex) (henqueued : s'.enqueued = s.enqueued)
  /-- The `CAS` of `enqueue` succeeds. -/
  | reserve (t : Nat) (data : α) (hpc : s.thread t = .reserve data s.writeIndex)
      (hthread : s'.thread = update s.thread t (.store data s.writeIndex))
      (hwrite : s'.writeIndex = next s.writeIndex) (hread : s'.readIndex = s.readIndex)
      (henqueued : s'.enqueued = s.enqueued ++ [data])
  /-- The `CAS` of `dequeue` succeeds. -/
  | take (t : Nat) (data : α) (hpc : s.thread t = .take data s.readIndex)
      (hthread : s'.thread = update s.thread t .countDown) (hwrite : s'.writeIndex = s.writeIndex)
      (hread : s'.readIndex = next s.readIndex) (henqueued : s'.enqueued = s.enqueued)
  /-- The second `CAS` of `enqueue` has to be tried again. -/
  | spin (hsame : s' = s)

theorem change_of_advance {u : Unit} (hrun : (advance size t).run s = .ok (u, s')) :
    Change s s' := by
  refine returns_get_bind (Q := fun _ s'' => Change s s'') ?_ u s' hrun
  have hset : ∀ s₁ : Sys α, Change s s₁ → Returns (set s₁ : Exec (Sys α) Unit) s
      fun _ s'' => Change s s'' :=
    fun s₁ hchange => ((ok_set _ _ _).mpr hchange).returns
  cases hpc : s.thread t with
  | out => exact returns_throw _ s _
  | readWriteIndex data =>
      refine hset _ (.goto t _ rfl (fun data' w heq => ?_) rfl rfl rfl)
      cases heq
      rfl
  | reserve data w =>
      dsimp only
      split_ifs with hwin
      · subst hwin
        exact hset _ (.reserve t data hpc rfl rfl rfl rfl)
      · exact hset _ (.goto t (.readWriteIndex data) rfl (fun _ _ => nofun) rfl rfl rfl)
  | take data r =>
      dsimp only
      split_ifs with hwin
      · subst hwin
        exact hset _ (.take t data hpc rfl rfl rfl rfl)
      · exact hset _ (.goto t .readReadIndex rfl (fun _ _ => nofun) rfl rfl rfl)
  | load r =>
      dsimp only
      cases s.theQueue (countToIndex size r) with
      | none => exact returns_throw _ s _
      | some data => exact hset _ (.goto t (.take data r) rfl (fun _ _ => nofun) rfl rfl rfl)
  | publish w =>
      dsimp only
      split_ifs
      · exact hset _ (.goto t .countUp rfl (fun _ _ => nofun) rfl rfl rfl)
      · exact hset _ (.spin rfl)
  | testFull data w | testEmpty r =>
      dsimp only
      split_ifs <;> exact hset _ (.goto t _ rfl (fun _ _ => nofun) rfl rfl rfl)
  | _ => exact hset _ (.goto t _ rfl (fun _ _ => nofun) rfl rfl rfl)

theorem change_of_step {o : Step α} {u : Unit}
    (hrun : (step size o).run s = .ok (u, s')) : Change s s' := by
  cases o with
  | enqueue t data =>
      obtain ⟨-, rfl⟩ := run_act_ok.mp hrun
      exact .goto t (.readWriteIndex data) rfl (fun _ _ => nofun) rfl rfl rfl
  | dequeue t =>
      obtain ⟨-, rfl⟩ := run_act_ok.mp hrun
      exact .goto t .readReadIndex rfl (fun _ _ => nofun) rfl rfl rfl
  | advance t => exact change_of_advance hrun

/-- No step forgets what was enqueued. -/
theorem length_le_of_step {o : Step α} {u : Unit}
    (hrun : (step size o).run s = .ok (u, s')) : s.enqueued.length ≤ s'.enqueued.length := by
  cases change_of_step hrun with
  | goto t pc hthread hfull hwrite hread henqueued => exact henqueued ▸ le_rfl
  | reserve t data hpc hthread hwrite hread henqueued =>
      rw [henqueued, List.length_append]
      exact Nat.le_add_right _ _
  | take t data hpc hthread hwrite hread henqueued => exact henqueued ▸ le_rfl
  | spin hsame => exact hsame ▸ le_rfl

theorem inv_start (hsize : 0 < size) : Inv size (start α) := by
  refine ⟨⟨le_rfl, le_rfl, ?_, rfl, rfl, fun k _ hk => absurd hk (Nat.not_lt_zero k),
    fun k hk => absurd hk (Nat.not_lt_zero k)⟩, fun _ => trivial, fun _ _ _ hw => ?_,
    fun w _ hw => absurd hw (Nat.not_lt_zero w)⟩
  · show 0 < 0 + size
    omega
  · cases hw

theorem Inv.of_run (hsize : 0 < size) {ops : List (Step α)} {rs : List Unit}
    (hrun : (runAll (step size) ops).run (start α) = .ok (rs, s))
    (hbound : s.enqueued.length < 2 ^ 64) : Inv size s := by
  refine runAll_invariant (I := Kept size) (P := fun _ => True)
    (fun o s r s' _ h hstep hbound' => ?_)
    (fun _ _ => trivial) (fun _ => inv_start hsize) hrun hbound
  have hbefore := (length_le_of_step hstep).trans_lt hbound'
  exact ((h hbefore).takes_step hbefore o).of_run hstep hbound'

/-- **The queue is a FIFO.** In every interleaving of fewer than `2 ^ 64` enqueues the indices are
in order and at most `size - 1` apart; the elements that were dequeued are the first ones that were
enqueued, the next ones are in their cells, and the others are with exactly one thread each; and no
thread ever copies a cell that was not written. -/
theorem first_in_first_out (size : Nat) (hsize : 2 ≤ size) (ops : List (Step α))
    (rs : List Unit) (s : Sys α) (hrun : (runAll (step size) ops).run (start α) = .ok (rs, s))
    (hfew : s.enqueued.length < 2 ^ 64) :
    (s.readIndex ≤ s.maximumReadIndex ∧ s.maximumReadIndex ≤ s.writeIndex ∧
        s.writeIndex ≤ s.readIndex + size - 1) ∧
      s.dequeued <+: s.enqueued ∧
      (s.dequeued.length = s.readIndex ∧ s.enqueued.length = s.writeIndex) ∧
      (∀ k, s.readIndex ≤ k → k < s.maximumReadIndex →
        s.theQueue (countToIndex size k) = s.enqueued[k]?) ∧
      (∀ k, s.maximumReadIndex ≤ k → k < s.writeIndex → ∃! t, k ∈ (s.thread t).reserved) ∧
      ∀ o e, (step size o).run s = .error e → e = .blocked := by
  have h : Inv size s := Inv.of_run (by omega) hrun hfew
  have hread := h.shared.read_le
  have hmaximum := h.shared.maximum_le
  have hroom := h.shared.write_lt
  refine ⟨⟨hread, hmaximum, by omega⟩, ?_, ⟨?_, h.shared.length⟩, h.shared.ready,
    fun k hk hk' => ?_, ?_⟩
  · rw [h.shared.dequeued]
    exact List.take_prefix _ _
  · rw [h.shared.dequeued, List.length_take, h.shared.length]
    omega
  · obtain ⟨t, ht⟩ := h.held k hk hk'
    exact ⟨t, ht, fun t' ht' => h.apart t' t k ht' ht⟩
  · intro o e hrun'
    exact (h.takes_step hfew o).eq_blocked hrun'

/-- Two producers race for the one free cell of two: the second wins the `CAS`, the first then finds
the queue full, and a consumer takes the element. -/
def sampleOps : List (Step Nat) :=
  [.enqueue 0 7, .enqueue 1 8, .dequeue 2, .advance 0, .advance 1, .advance 0,
    .advance 1, .advance 1, .advance 0, .advance 1, .advance 1, .advance 2, .advance 2, .advance 2,
    .advance 0, .advance 0, .advance 2]

theorem first_in_first_out_sample :
    ∃ rs s, (runAll (step 2) sampleOps).run (start Nat) = .ok (rs, s) ∧ s.dequeued = [8] ∧
      s.dequeued <+: s.enqueued :=
  ⟨_, _, rfl, rfl, (first_in_first_out 2 le_rfl sampleOps _ _ rfl (by decide)).2.1⟩

end KvStore.LockFree
