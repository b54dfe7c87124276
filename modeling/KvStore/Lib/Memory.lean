import KvStore.Lib.CString
import KvStore.Lib.Exec

set_option autoImplicit false

/-! # A block memory for C programs

The memory of a component whose heap blocks are records of one type `β` and character blocks. A
block is named by its address; addresses are handed out in increasing order and never used
again, so an access to a freed block is always seen (`Fault.dangling`), and so is a second
`free` (`Fault.badFree`). A record field is `none` until it is written and reading it before is
`Fault.uninit`, so a program that does not go wrong does not depend on what `malloc` left in a
block. `γ` is the component's own descriptor, a global variable outside the heap. An address is
a number, and `0` is `NULL`. An `int` has 32 bits and wraps around (`int32`).
-/

namespace KvStore.Lib

open Function

/-- The value of an `int` of 32 bits that is assigned `v`. -/
def int32 (v : Int) : Int := v.bmod (2 ^ 32)

/-- Wrapping around on the way does not change the result. -/
theorem int32_int32_add (a b : Int) : int32 (int32 a + b) = int32 (a + b) := Int.bmod_add_bmod ..

theorem int32_add_one_ne (v : Int) : int32 (v + 1) ≠ v := by
  intro h
  have hmod : int32 (v + 1) % 2 ^ 32 = (v + 1) % 2 ^ 32 := Int.bmod_emod
  omega

theorem int32_natCast_iff {n : Nat} : int32 n = n ↔ n < 2 ^ 31 := by
  constructor
  · intro h
    have hlt : int32 n < 2 ^ 31 := Int.bmod_lt (by decide)
    omega
  · intro h
    exact Int.bmod_eq_of_le_mul_two (by omega) (by omega)

/-- A character block: its size, and the C string in it once one has been written. -/
structure StrBlock where
  size : Nat
  str : Option CStr
  deriving DecidableEq

/-- The memory of a component: the allocated record blocks, the allocated character blocks, the
next address `malloc` returns, and the component's descriptor. -/
structure Store (β γ : Type) where
  node : Nat → Option β
  str : Nat → Option StrBlock
  next : Nat
  desc : γ

variable {p : Nat} {b : StrBlock}

namespace Store

variable {β γ τ : Type} {s : Store β γ} {f : β → Option τ} {q : Nat}

/-! ## Reading and updating a memory -/

/-- Field `f` of the record at `p`, if `p` is allocated and the field has been written. -/
def field (s : Store β γ) (f : β → Option τ) (p : Nat) : Option τ := (s.node p).bind f

/-- The C string in the character block at `p`. -/
def cstr (s : Store β γ) (p : Nat) : Option CStr := (s.str p).bind (·.str)

/-- Update the record at `p`. -/
def modNode (s : Store β γ) (p : Nat) (g : β → β) : Store β γ :=
  { s with node := update s.node p ((s.node p).map g) }

def modStr (s : Store β γ) (p : Nat) (g : StrBlock → StrBlock) : Store β γ :=
  { s with str := update s.str p ((s.str p).map g) }

/-- Write the string `v` into the character block at `p`. -/
def putStr (s : Store β γ) (p : Nat) (v : CStr) : Store β γ :=
  s.modStr p fun b => { b with str := some v }

def modDesc (s : Store β γ) (g : γ → γ) : Store β γ := { s with desc := g s.desc }

/-- The memory after a record block with contents `b` has been allocated at `s.next`. -/
def allocNode (s : Store β γ) (b : β) : Store β γ :=
  { s with node := update s.node s.next (some b), next := s.next + 1 }

/-- The memory after a character block of `n` bytes has been allocated at `s.next`. -/
def allocStr (s : Store β γ) (n : Nat) : Store β γ :=
  { s with str := update s.str s.next (some ⟨n, none⟩), next := s.next + 1 }

def dropNode (s : Store β γ) (p : Nat) : Store β γ :=
  { s with node := update s.node p none }

def dropStr (s : Store β γ) (p : Nat) : Store β γ :=
  { s with str := update s.str p none }

@[simp] theorem modNode_str (s : Store β γ) (p : Nat) (g : β → β) :
    (s.modNode p g).str = s.str := rfl
@[simp] theorem modDesc_node (s : Store β γ) (g : γ → γ) : (s.modDesc g).node = s.node := rfl
@[simp] theorem allocNode_str (s : Store β γ) (b : β) : (s.allocNode b).str = s.str := rfl
@[simp] theorem allocNode_next (s : Store β γ) (b : β) :
    (s.allocNode b).next = s.next + 1 := rfl
@[simp] theorem allocStr_node (s : Store β γ) (n : Nat) : (s.allocStr n).node = s.node := rfl
@[simp] theorem allocStr_next (s : Store β γ) (n : Nat) :
    (s.allocStr n).next = s.next + 1 := rfl
@[simp] theorem dropStr_node (s : Store β γ) (p : Nat) : (s.dropStr p).node = s.node := rfl
@[simp] theorem dropStr_next (s : Store β γ) (p : Nat) : (s.dropStr p).next = s.next := rfl
@[simp] theorem dropNode_str (s : Store β γ) (p : Nat) : (s.dropNode p).str = s.str := rfl

theorem field_congr {δ : Type} {s' : Store β δ}
    (h : s'.node p = s.node p) (f : β → Option τ) : s'.field f p = s.field f p := by
  simp [field, h]

theorem cstr_congr {β' δ : Type} {s' : Store β' δ}
    (h : s'.str p = s.str p) : s'.cstr p = s.cstr p := by
  simp [cstr, h]

/-- A written field belongs to an allocated block. -/
theorem live_of_field {v : τ} (h : s.field f p = some v) : (s.node p).isSome := by
  cases hn : s.node p with
  | none => rw [field, hn] at h; cases h
  | some n => rfl

theorem live_of_cstr {v : CStr} (h : s.cstr p = some v) : (s.str p).isSome := by
  cases hn : s.str p with
  | none => rw [cstr, hn] at h; cases h
  | some n => rfl

theorem modNode_node_ne (s : Store β γ) (g : β → β) (h : q ≠ p) :
    (s.modNode p g).node q = s.node q := by
  simp [modNode, update_of_ne h]

theorem modNode_node_isSome (s : Store β γ) (p q : Nat) (g : β → β) :
    ((s.modNode p g).node q).isSome = (s.node q).isSome := by
  by_cases h : q = p
  · subst h; simp [modNode]
  · rw [modNode_node_ne s g h]

theorem field_modNode_ne (s : Store β γ) (g : β → β) (f : β → Option τ)
    (h : q ≠ p) : (s.modNode p g).field f q = s.field f q :=
  field_congr (modNode_node_ne s g h) f

/-- An update does not change the fields it does not write. -/
theorem field_modNode_other (s : Store β γ) (p q : Nat) {g : β → β}
    (hfg : ∀ n, f (g n) = f n) : (s.modNode p g).field f q = s.field f q := by
  by_cases h : q = p
  · subst h
    cases hn : s.node q <;> simp [field, modNode, hn, hfg]
  · exact field_modNode_ne s g f h

/-- The field an update writes has the written value. -/
theorem field_modNode_self {g : β → β} {v : τ}
    (hp : (s.node p).isSome) (hfg : ∀ n, f (g n) = some v) :
    (s.modNode p g).field f p = some v := by
  obtain ⟨n, hn⟩ := Option.isSome_iff_exists.mp hp
  simp [field, modNode, hn, hfg]

theorem modNode_modNode (s : Store β γ) (p : Nat) (g g' : β → β) :
    (s.modNode p g).modNode p g' = s.modNode p (g' ∘ g) := by
  simp [modNode]

theorem allocNode_node_ne (s : Store β γ) (b : β) (h : q ≠ s.next) :
    (s.allocNode b).node q = s.node q := by
  simp [allocNode, update_of_ne h]

theorem allocNode_node_self (s : Store β γ) (b : β) : (s.allocNode b).node s.next = some b := by
  simp [allocNode]

theorem allocNode_isSome (s : Store β γ) (b : β) : ((s.allocNode b).node s.next).isSome := by
  rw [allocNode_node_self]
  rfl

theorem allocStr_str_ne (s : Store β γ) (n : Nat) (h : q ≠ s.next) :
    (s.allocStr n).str q = s.str q := by
  simp [allocStr, update_of_ne h]

theorem allocStr_str_self (s : Store β γ) (n : Nat) :
    (s.allocStr n).str s.next = some ⟨n, none⟩ := by
  simp [allocStr]

theorem modStr_str_ne (s : Store β γ) (g : StrBlock → StrBlock) (h : q ≠ p) :
    (s.modStr p g).str q = s.str q := by
  simp [modStr, update_of_ne h]

theorem modStr_str_self (g : StrBlock → StrBlock)
    (hb : s.str p = some b) : (s.modStr p g).str p = some (g b) := by
  simp [modStr, hb]

@[simp] theorem putStr_node (s : Store β γ) (p : Nat) (v : CStr) :
    (s.putStr p v).node = s.node := rfl

theorem putStr_str_self (v : CStr) (hb : s.str p = some b) :
    (s.putStr p v).str p = some { b with str := some v } := modStr_str_self _ hb

theorem putStr_putStr (s : Store β γ) (p : Nat) (v w : CStr) :
    (s.putStr p v).putStr p w = s.putStr p w := by
  cases hb : s.str p <;> simp [putStr, modStr, hb]

theorem dropStr_str_ne (s : Store β γ) (h : q ≠ p) : (s.dropStr p).str q = s.str q := by
  simp [dropStr, update_of_ne h]

theorem dropNode_node_ne (s : Store β γ) (h : q ≠ p) : (s.dropNode p).node q = s.node q := by
  simp [dropNode, update_of_ne h]

/-! ## Well-formed memories -/

/-- Allocated blocks have an address below `next` other than `NULL`, and no address is both a
record and a character block. -/
structure WF (s : Store β γ) : Prop where
  next_pos : 0 < s.next
  node_bound : ∀ p, (s.node p).isSome → 0 < p ∧ p < s.next
  str_bound : ∀ p, (s.str p).isSome → 0 < p ∧ p < s.next
  disjoint : ∀ p, (s.str p).isSome → s.node p = none

theorem WF.of_dom {s' : Store β γ} (h : s.WF) (hnode : ∀ p, (s'.node p).isSome = (s.node p).isSome)
    (hstr : ∀ p, (s'.str p).isSome = (s.str p).isSome) (hnext : s'.next = s.next) : s'.WF where
  next_pos := hnext ▸ h.next_pos
  node_bound p hp := by rw [hnext]; exact h.node_bound p (hnode p ▸ hp)
  str_bound p hp := by rw [hnext]; exact h.str_bound p (hstr p ▸ hp)
  disjoint p hp := by
    have hn := h.disjoint p (hstr p ▸ hp)
    have := hnode p
    rw [hn] at this
    simpa using this

theorem WF.modDesc (h : s.WF) (g : γ → γ) : (s.modDesc g).WF :=
  h.of_dom (fun _ => rfl) (fun _ => rfl) rfl

theorem WF.modNode (h : s.WF) (p : Nat) (g : β → β) : (s.modNode p g).WF :=
  h.of_dom (modNode_node_isSome s p · g) (fun _ => rfl) rfl

theorem WF.modStr (h : s.WF) (p : Nat) (g : StrBlock → StrBlock) : (s.modStr p g).WF := by
  refine h.of_dom (fun _ => rfl) (fun q => ?_) rfl
  by_cases hq : q = p
  · subst hq; simp [Store.modStr]
  · rw [modStr_str_ne s g hq]

theorem WF.next_node (h : s.WF) : s.node s.next = none := by
  by_contra hne
  have := h.node_bound s.next (Option.isSome_iff_ne_none.mpr hne)
  omega

theorem WF.allocNode (h : s.WF) (b : β) : (s.allocNode b).WF where
  next_pos := Nat.succ_pos _
  node_bound p hp := by
    rw [allocNode_next]
    by_cases hq : p = s.next
    · have := h.next_pos; omega
    · rw [allocNode_node_ne s b hq] at hp
      have := h.node_bound p hp; omega
  str_bound p hp := by
    have := h.str_bound p hp
    rw [allocNode_next]; omega
  disjoint p hp := by
    have hlt := h.str_bound p hp
    rw [allocNode_node_ne s b (by omega)]
    exact h.disjoint p hp

theorem WF.allocStr (h : s.WF) (n : Nat) : (s.allocStr n).WF where
  next_pos := Nat.succ_pos _
  node_bound p hp := by
    have := h.node_bound p hp
    rw [allocStr_next]; omega
  str_bound p hp := by
    rw [allocStr_next]
    by_cases hq : p = s.next
    · have := h.next_pos; omega
    · rw [allocStr_str_ne s n hq] at hp
      have := h.str_bound p hp; omega
  disjoint p hp := by
    rw [allocStr_node]
    by_cases hq : p = s.next
    · rw [hq]; exact h.next_node
    · rw [allocStr_str_ne s n hq] at hp
      exact h.disjoint p hp

theorem WF.dropStr (h : s.WF) (p : Nat) : (s.dropStr p).WF where
  next_pos := h.next_pos
  node_bound := h.node_bound
  str_bound q hq := by
    by_cases hqp : q = p
    · subst hqp; simp [Store.dropStr] at hq
    · rw [dropStr_str_ne s hqp] at hq; exact h.str_bound q hq
  disjoint q hq := by
    by_cases hqp : q = p
    · subst hqp; simp [Store.dropStr] at hq
    · rw [dropStr_str_ne s hqp] at hq; exact h.disjoint q hq

theorem WF.dropNode (h : s.WF) (p : Nat) : (s.dropNode p).WF where
  next_pos := h.next_pos
  node_bound q hq := by
    by_cases hqp : q = p
    · subst hqp; simp [Store.dropNode] at hq
    · simp only [Store.dropNode, update_of_ne hqp] at hq
      exact h.node_bound q hq
  str_bound := h.str_bound
  disjoint q hq := by
    by_cases hqp : q = p
    · subst hqp; simp [Store.dropNode]
    · simp only [Store.dropNode, update_of_ne hqp]
      exact h.disjoint q hq

theorem WF.node_null (h : s.WF) : s.node 0 = none := by
  by_contra hne
  have := h.node_bound 0 (Option.isSome_iff_ne_none.mpr hne)
  omega

theorem WF.str_null (h : s.WF) : s.str 0 = none := by
  by_contra hne
  have := h.str_bound 0 (Option.isSome_iff_ne_none.mpr hne)
  omega

theorem WF.cstr_null (h : s.WF) : s.cstr 0 = none := by
  by_contra hne
  obtain ⟨v, hv⟩ := Option.ne_none_iff_exists'.mp hne
  have := h.str_bound 0 (live_of_cstr hv)
  omega

/-- There are fewer allocated blocks than addresses. -/
theorem WF.length_le (h : s.WF) {L : List Nat} (hnd : L.Nodup)
    (hlive : ∀ p ∈ L, (s.node p).isSome) : L.length ≤ s.next := by
  have hsub : L.toFinset ⊆ Finset.range s.next := by
    intro p hp
    rw [Finset.mem_range]
    exact (h.node_bound p (hlive p (List.mem_toFinset.mp hp))).2
  have hcard := Finset.card_le_card hsub
  rwa [List.toFinset_card_of_nodup hnd, Finset.card_range] at hcard

/-! ## Growing memories -/

/-- `s'` is `s` with more blocks: what is allocated in `s` is unchanged in `s'`. -/
structure Grows (s s' : Store β γ) : Prop where
  node : ∀ p, (s.node p).isSome → s'.node p = s.node p
  str : ∀ p, (s.str p).isSome → s'.str p = s.str p
  desc : s'.desc = s.desc
  next : s.next ≤ s'.next

theorem Grows.refl (s : Store β γ) : Grows s s := ⟨fun _ _ => rfl, fun _ _ => rfl, rfl, le_rfl⟩

section Grows

variable {s s' : Store β γ}

theorem Grows.allocNode (h : Grows s s') (hs : s.WF) (b : β) : Grows s (s'.allocNode b) where
  node p hp := by
    have hlt := hs.node_bound p hp
    have hle := h.next
    rw [allocNode_node_ne s' b (by omega)]
    exact h.node p hp
  str := h.str
  desc := h.desc
  next := Nat.le_succ_of_le h.next

theorem Grows.allocStr (h : Grows s s') (hs : s.WF) (n : Nat) : Grows s (s'.allocStr n) where
  node := h.node
  str p hp := by
    have hlt := hs.str_bound p hp
    have hle := h.next
    rw [allocStr_str_ne s' n (by omega)]
    exact h.str p hp
  desc := h.desc
  next := Nat.le_succ_of_le h.next

/-- A block that is new can be written. -/
theorem Grows.modNode (h : Grows s s') (hp : s.next ≤ p) (hs : s.WF) (g : β → β) :
    Grows s (s'.modNode p g) where
  node q hq := by
    have hlt := hs.node_bound q hq
    rw [modNode_node_ne s' g (by omega)]
    exact h.node q hq
  str := h.str
  desc := h.desc
  next := h.next

theorem Grows.modStr (h : Grows s s') (hp : s.next ≤ p) (hs : s.WF)
    (g : StrBlock → StrBlock) : Grows s (s'.modStr p g) where
  node := h.node
  str q hq := by
    have hlt := hs.str_bound q hq
    rw [modStr_str_ne s' g (by omega)]
    exact h.str q hq
  desc := h.desc
  next := h.next

theorem Grows.dropNode (h : Grows s s') (hp : s.next ≤ p) (hs : s.WF) :
    Grows s (s'.dropNode p) where
  node q hq := by
    have hlt := hs.node_bound q hq
    rw [dropNode_node_ne s' (by omega)]
    exact h.node q hq
  str := h.str
  desc := h.desc
  next := h.next

theorem Grows.dropStr (h : Grows s s') (hp : s.next ≤ p) (hs : s.WF) :
    Grows s (s'.dropStr p) where
  node := h.node
  str q hq := by
    have hlt := hs.str_bound q hq
    rw [dropStr_str_ne s' (by omega)]
    exact h.str q hq
  desc := h.desc
  next := h.next

theorem Grows.cstr (h : Grows s s') {v : CStr} (hp : s.cstr p = some v) : s'.cstr p = some v :=
  (cstr_congr (h.str p (live_of_cstr hp))).trans hp

end Grows

/-! ## Giving a string back -/

/-- The memory after `free` of a character block, or of `NULL`. -/
def release (s : Store β γ) (p : Nat) : Store β γ := if p = 0 then s else s.dropStr p

section Release

variable {s : Store β γ} {p : Nat}

@[simp] theorem release_node : (s.release p).node = s.node := by
  unfold release
  split_ifs <;> rfl

@[simp] theorem release_next : (s.release p).next = s.next := by
  unfold release
  split_ifs <;> rfl

@[simp] theorem release_desc : (s.release p).desc = s.desc := by
  unfold release
  split_ifs <;> rfl

theorem release_str_ne (h : q ≠ p) : (s.release p).str q = s.str q := by
  unfold release
  split_ifs
  · rfl
  · exact dropStr_str_ne s h

theorem WF.release (h : s.WF) : (s.release p).WF := by
  unfold Store.release
  split_ifs
  · exact h
  · exact h.dropStr p

end Release

/-! ## A string in a block of its own -/

/-- The memory after a new block has been allocated for the string `v`, its address has been
stored into the record at `p` with `g`, and `v` has been copied into it. -/
def attachStr (s : Store β γ) (p : Nat) (g : Nat → β → β) (v : CStr) : Store β γ :=
  ((s.allocStr (v.strlen + 1)).modNode p (g s.next)).putStr s.next v

section AttachStr

variable {s : Store β γ} {p : Nat} {g : Nat → β → β} {v : CStr}

@[simp] theorem attachStr_next : (s.attachStr p g v).next = s.next + 1 := rfl

@[simp] theorem attachStr_live (q : Nat) :
    ((s.attachStr p g v).node q).isSome = (s.node q).isSome :=
  modNode_node_isSome ..

theorem attachStr_node_ne (h : q ≠ p) : (s.attachStr p g v).node q = s.node q :=
  modNode_node_ne _ _ h

theorem attachStr_str_ne (h : q ≠ s.next) : (s.attachStr p g v).str q = s.str q := by
  rw [attachStr, putStr, modStr_str_ne _ _ h, modNode_str, allocStr_str_ne _ _ h]

theorem cstr_attachStr_self : (s.attachStr p g v).cstr s.next = some v := by
  have hb : ((s.allocStr (v.strlen + 1)).modNode p (g s.next)).str s.next
      = some ⟨v.strlen + 1, none⟩ := allocStr_str_self ..
  rw [cstr, attachStr, putStr, modStr_str_self _ hb]
  rfl

theorem cstr_attachStr_ne (h : q ≠ s.next) : (s.attachStr p g v).cstr q = s.cstr q :=
  cstr_congr (attachStr_str_ne h)

theorem field_attachStr_self {f : β → Option Nat} (hp : (s.node p).isSome)
    (hfg : ∀ q n, f (g q n) = some q) : (s.attachStr p g v).field f p = some s.next :=
  field_modNode_self (s := s.allocStr (v.strlen + 1)) hp (hfg s.next)

theorem field_attachStr_other (hfg : ∀ q n, f (g q n) = f n) (q : Nat) :
    (s.attachStr p g v).field f q = s.field f q :=
  field_modNode_other (s.allocStr (v.strlen + 1)) p q (hfg s.next)

theorem WF.attachStr (h : s.WF) : (s.attachStr p g v).WF :=
  ((h.allocStr _).modNode _ _).modStr _ _

theorem Grows.attachStr {s₀ : Store β γ} (h : Grows s₀ s) (hs : s₀.WF) (hp : s₀.next ≤ p) :
    Grows s₀ (s.attachStr p g v) :=
  ((h.allocStr hs _).modNode hp hs _).modStr h.next hs _

end AttachStr

end Store

/-! ## The memory operations of C -/

section Operations

variable {β γ τ : Type}

/-- The fault of an access through `p` when no block is allocated there. -/
def badAccess (p : Nat) : Fault := if p = 0 then .nullDeref else .dangling

/-- Read `p->f`. -/
def readField (f : β → Option τ) (p : Nat) : Exec (Store β γ) τ := do
  match (← get).node p with
  | none => throw (badAccess p)
  | some n =>
      match f n with
      | none => throw .uninit
      | some v => pure v

/-- Write fields of the record at `p`. -/
def writeField (g : β → β) (p : Nat) : Exec (Store β γ) Unit := do
  match (← get).node p with
  | none => throw (badAccess p)
  | some _ => modify (·.modNode p g)

/-- Read the descriptor. -/
def readDesc : Exec (Store β γ) γ := do return (← get).desc

def writeDesc (g : γ → γ) : Exec (Store β γ) Unit := modify (·.modDesc g)

/-- Read the C string that `p` points to. -/
def readStr (p : Nat) : Exec (Store β γ) CStr := do
  match (← get).str p with
  | none => throw (badAccess p)
  | some b =>
      match b.str with
      | none => throw .uninit
      | some v => pure v

/-- Allocate a record block with contents `b`; `ok` says whether the allocation succeeds. -/
def mallocNode (ok : Bool) (b : β) : Exec (Store β γ) Nat := do
  if ok then
    let p := (← get).next
    modify (·.allocNode b)
    return p
  else return 0

/-- Allocate a character block of `n` bytes. -/
def mallocStr (ok : Bool) (n : Nat) : Exec (Store β γ) Nat := do
  if ok then
    let p := (← get).next
    modify (·.allocStr n)
    return p
  else return 0

/-- `free p`: `NULL` is ignored, an allocated block is given back. -/
def free (p : Nat) : Exec (Store β γ) Unit := do
  let s ← get
  if p = 0 then pure ()
  else if (s.node p).isSome then modify (·.dropNode p)
  else if (s.str p).isSome then modify (·.dropStr p)
  else throw .badFree

/-- `strcpy(p, v)`. -/
def strcpy (p : Nat) (v : CStr) : Exec (Store β γ) Unit := do
  match (← get).str p with
  | none => throw (badAccess p)
  | some b =>
      if b.size < v.strlen + 1 then throw .overflow
      else modify (·.putStr p v)

/-- `memset(p, 0, n)` with `n` positive: the block then starts with the empty string. -/
def memsetZero (p : Nat) (n : Nat) : Exec (Store β γ) Unit := do
  match (← get).str p with
  | none => throw (badAccess p)
  | some b =>
      if b.size < n then throw .overflow
      else modify (·.putStr p default)

/-- A loop over the blocks. An iteration for every address handed out so far, and one to leave the
loop, are enough for a loop that visits no block twice. -/
def whileLoop {α ρ : Type} (step : α → Exec (Store β γ) (α ⊕ ρ)) (a : α) :
    Exec (Store β γ) ρ := do
  loop step ((← get).next + 1) a

/-- Use a string argument; a caller may pass `NULL`. -/
def argStr {σ : Type} : Option CStr → Exec σ CStr
  | none => throw .nullDeref
  | some v => pure v

variable {s : Store β γ}

@[simp] theorem ok_argStr_some {σ : Type} (v : CStr) (s : σ) (Q : CStr → σ → Prop) :
    Ok (argStr (some v)) s Q ↔ Q v s := ok_pure v s Q

@[simp] theorem ok_argStr_none {σ : Type} (s : σ) (Q : CStr → σ → Prop) :
    ¬Ok (argStr none) s Q := by
  rintro ⟨v, s', h, -⟩
  cases h

/-- The rule for loops over the blocks. -/
theorem Ok.whileLoop {ι α ρ : Type} {step : α → Exec (Store β γ) (α ⊕ ρ)}
    (I : ι → α → Store β γ → Prop) (μ : ι → Nat) (Q : ρ → Store β γ → Prop)
    (hstep : ∀ i a s, I i a s → Ok (step a) s (fun x s' =>
      match x with
      | .inl a' => ∃ i', I i' a' s' ∧ μ i' < μ i
      | .inr r => Q r s'))
    {i : ι} {a : α} (hμ : μ i ≤ s.next) (hI : I i a s) : Ok (whileLoop step a) s Q := by
  rw [Lib.whileLoop, ok_bind, ok_get]
  exact Ok.loop I μ Q hstep (s.next + 1) i a s (by omega) hI

theorem ok_readField {f : β → Option τ} {v : τ} (h : s.field f p = some v)
    (Q : τ → Store β γ → Prop) : Ok (readField f p) s Q ↔ Q v s := by
  cases hn : s.node p with
  | none => rw [Store.field, hn] at h; cases h
  | some n =>
      have hf : f n = some v := by simpa [Store.field, hn] using h
      simp [readField, hn, hf]

/-- A field that has not been written. -/
theorem run_readField_uninit {f : β → Option τ} (hp : (s.node p).isSome)
    (h : s.field f p = none) : (readField f p).run s = .error .uninit := by
  obtain ⟨n, hn⟩ := Option.isSome_iff_exists.mp hp
  have hf : f n = none := by simpa [Store.field, hn] using h
  rw [readField, run_get_bind, hn]
  dsimp only
  rw [hf]
  rfl

theorem ok_writeField {g : β → β} (h : (s.node p).isSome)
    (Q : Unit → Store β γ → Prop) : Ok (writeField g p) s Q ↔ Q () (s.modNode p g) := by
  obtain ⟨n, hn⟩ := Option.isSome_iff_exists.mp h
  simp [writeField, hn]

/-- A read that returns, returns what is in the field. -/
theorem returns_readField {f : β → Option τ} {Q : τ → Store β γ → Prop}
    (h : ∀ v, s.field f p = some v → Q v s) : Returns (readField f p) s Q := by
  rw [readField]
  refine returns_get_bind ?_
  cases hn : s.node p with
  | none => exact returns_throw _ s Q
  | some n =>
      dsimp only
      cases hf : f n with
      | none => exact returns_throw _ s Q
      | some v => exact returns_pure (h v (by rw [Store.field, hn]; exact hf))

theorem returns_readStr {Q : CStr → Store β γ → Prop}
    (h : ∀ v, s.cstr p = some v → Q v s) : Returns (readStr p) s Q := by
  rw [readStr]
  refine returns_get_bind ?_
  cases hb : s.str p with
  | none => exact returns_throw _ s Q
  | some b =>
      dsimp only
      cases hv : b.str with
      | none => exact returns_throw _ s Q
      | some v => exact returns_pure (h v (by rw [Store.cstr, hb]; exact hv))

/-- A write to no block does not return. -/
theorem returns_writeField_none {g : β → β} (h : s.node p = none)
    (Q : Unit → Store β γ → Prop) : Returns (writeField g p) s Q := by
  rw [writeField]
  refine returns_bind ((ok_get s _).mpr ?_).returns
  rw [h]
  exact returns_throw (badAccess p) s Q

/-- A copy to no block does not return. -/
theorem returns_strcpy_none (h : s.str p = none) (v : CStr)
    (Q : Unit → Store β γ → Prop) : Returns (strcpy p v) s Q := by
  rw [strcpy]
  refine returns_bind ((ok_get s _).mpr ?_).returns
  rw [h]
  exact returns_throw (badAccess p) s Q

@[simp] theorem ok_readDesc (Q : γ → Store β γ → Prop) : Ok readDesc s Q ↔ Q s.desc s :=
  ok_of_run rfl Q

@[simp] theorem ok_writeDesc (g : γ → γ) (Q : Unit → Store β γ → Prop) :
    Ok (writeDesc g) s Q ↔ Q () (s.modDesc g) :=
  ok_of_run rfl Q

theorem ok_readStr {v : CStr} (h : s.cstr p = some v)
    (Q : CStr → Store β γ → Prop) : Ok (readStr p) s Q ↔ Q v s := by
  cases hn : s.str p with
  | none => rw [Store.cstr, hn] at h; cases h
  | some b =>
      have hb : b.str = some v := by simpa [Store.cstr, hn] using h
      simp [readStr, hn, hb]

@[simp] theorem ok_mallocNode_true (b : β) (Q : Nat → Store β γ → Prop) :
    Ok (mallocNode true b) s Q ↔ Q s.next (s.allocNode b) :=
  ok_of_run rfl Q

@[simp] theorem ok_mallocStr_true (n : Nat) (Q : Nat → Store β γ → Prop) :
    Ok (mallocStr true n) s Q ↔ Q s.next (s.allocStr n) :=
  ok_of_run rfl Q

@[simp] theorem ok_mallocNode_false (b : β) (Q : Nat → Store β γ → Prop) :
    Ok (mallocNode false b) s Q ↔ Q 0 s :=
  ok_of_run rfl Q

@[simp] theorem ok_mallocStr_false (n : Nat) (Q : Nat → Store β γ → Prop) :
    Ok (mallocStr false n) s Q ↔ Q 0 s :=
  ok_of_run rfl Q

theorem ok_free_str (hs : s.WF) (hp : (s.str p).isSome)
    (Q : Unit → Store β γ → Prop) : Ok (free p) s Q ↔ Q () (s.dropStr p) := by
  have hpos : p ≠ 0 := by have := hs.str_bound p hp; omega
  simp [free, hpos, hs.disjoint p hp, hp]

theorem ok_free_release (hs : s.WF) (hp : p = 0 ∨ (s.str p).isSome)
    (Q : Unit → Store β γ → Prop) : Ok (free p) s Q ↔ Q () (s.release p) := by
  by_cases h0 : p = 0
  · simp [free, Store.release, h0]
  · rw [ok_free_str hs (hp.resolve_left h0), Store.release, if_neg h0]

theorem ok_free_node (hs : s.WF) (hp : (s.node p).isSome)
    (Q : Unit → Store β γ → Prop) : Ok (free p) s Q ↔ Q () (s.dropNode p) := by
  have hpos : p ≠ 0 := by have := hs.node_bound p hp; omega
  simp [free, hpos, hp]

theorem ok_strcpy {v : CStr} (hb : s.str p = some b)
    (hsize : v.strlen + 1 ≤ b.size) (Q : Unit → Store β γ → Prop) :
    Ok (strcpy p v) s Q ↔ Q () (s.putStr p v) := by
  have hlt : ¬b.size ≤ v.strlen := by omega
  simp [strcpy, hb, hlt]

theorem ok_memsetZero {n : Nat} (hb : s.str p = some b)
    (hsize : n ≤ b.size) (Q : Unit → Store β γ → Prop) :
    Ok (memsetZero p n) s Q ↔ Q () (s.putStr p default) := by
  simp [memsetZero, hb, Nat.not_lt.mpr hsize]

end Operations

end KvStore.Lib
