import KvStore.Lib.Memory

set_option autoImplicit false

/-! # What a computation does not use

`φ` changes a part of the state. `Blind φ c s Q` says that the computation `c`, if it returns from
`s`, does so in `Q`, and that it neither reads nor writes that part on the way: from `φ s` it
returns the same result, and its final state has the change `φ` and no other difference. The rules
are those of `Returns`; in a block memory, where `φ` is an update of one record, an access is blind
to it when it goes to another record or to a field that the update leaves alone. -/

namespace KvStore.Lib

open Function

section Rules

variable {σ α β ρ ω : Type} {φ : σ → σ} {s : σ}

/-- If `c` returns from `s`, it does so in `Q`, and returns from `φ s` alike. -/
def Blind (φ : σ → σ) (c : Exec σ α) (s : σ) (Q : α → σ → Prop) : Prop :=
  Returns c s fun a s' => Q a s' ∧ c.run (φ s) = .ok (a, φ s')

theorem Blind.returns {c : Exec σ α} {Q : α → σ → Prop} (h : Blind φ c s Q) : Returns c s Q :=
  Returns.mono h fun _ _ h' => h'.1

theorem blind_pure {a : α} {Q : α → σ → Prop} (h : Q a s) : Blind φ (pure a : Exec σ α) s Q :=
  returns_pure ⟨h, rfl⟩

theorem blind_throw (e : Fault) (s : σ) (Q : α → σ → Prop) : Blind φ (throw e : Exec σ α) s Q :=
  returns_throw e s _

theorem blind_bind {c : Exec σ α} {f : α → Exec σ β} {Q : β → σ → Prop}
    (h : Blind φ c s fun a s' => Blind φ (f a) s' Q) : Blind φ (c >>= f) s Q := by
  intro b s'' hrun
  cases hc : c.run s with
  | error e =>
      rw [run_bind_error hc] at hrun
      cases hrun
  | ok p =>
      obtain ⟨hrest, hφ⟩ := h p.1 p.2 hc
      rw [run_bind_ok hc] at hrun
      obtain ⟨hQ, hφ'⟩ := hrest b s'' hrun
      exact ⟨hQ, (run_bind_ok hφ).trans hφ'⟩

/-- The state is read first, and looks alike. -/
theorem blind_get_bind {f : σ → Exec σ β} {Q : β → σ → Prop} (hf : f (φ s) = f s)
    (h : Blind φ (f s) s Q) : Blind φ (get >>= f) s Q := by
  intro b s' hrun
  obtain ⟨hQ, hφ⟩ := h b s' hrun
  rw [← hf] at hφ
  exact ⟨hQ, hφ⟩

theorem blind_modify {u : σ → σ} {Q : Unit → σ → Prop} (hu : u (φ s) = φ (u s))
    (h : Q () (u s)) : Blind φ (modify u : Exec σ Unit) s Q := by
  refine returns_modify ⟨h, ?_⟩
  rw [← hu]
  rfl

theorem blind_loop {step : α → Exec σ (α ⊕ ρ)} {Q : ρ → σ → Prop} (I : α → σ → Prop)
    (hstep : ∀ a s, I a s → Blind φ (step a) s fun x s' =>
      match x with
      | .inl a' => I a' s'
      | .inr r => Q r s') :
    ∀ (n : Nat) {a : α} {s : σ}, I a s → Blind φ (loop step n a) s Q := by
  intro n
  induction n with
  | zero => exact fun {_ s} _ => blind_throw _ s Q
  | succ n ih =>
      intro a s hI
      refine blind_bind fun x s' hx => ?_
      obtain ⟨hI', hφ⟩ := hstep a s hI x s' hx
      refine ⟨?_, hφ⟩
      cases x with
      | inl a' => exact ih hI'
      | inr r => exact blind_pure hI'

/-- A run of operations that are blind. -/
theorem Blind.runAll {step : ω → Exec σ ρ} {I : σ → Prop}
    (hstep : ∀ o s, I s → Blind φ (step o) s fun _ s' => I s') :
    ∀ (ops : List ω) {s : σ}, I s → Blind φ (Lib.runAll step ops) s fun _ s' => I s' := by
  intro ops
  induction ops with
  | nil => exact fun hI => blind_pure hI
  | cons o ops ih =>
      intro s hI
      refine blind_bind (Returns.mono (hstep o s hI) fun r s' h => ⟨?_, h.2⟩)
      exact blind_bind (Returns.mono (ih h.1) fun rs s'' h' => ⟨blind_pure h'.1, h'.2⟩)

theorem blind_argStr {v : Option CStr} {Q : CStr → σ → Prop} (h : ∀ x, Q x s) :
    Blind φ (argStr v) s Q := by
  cases v with
  | none => exact blind_throw _ s Q
  | some x => exact blind_pure (h x)

end Rules

/-! ## An update of one record -/

section Memory

variable {β γ τ : Type} {s : Store β γ} {p : Nat} {g : β → β} {Q : Unit → Store β γ → Prop}
  {q : Nat}

theorem Store.modNode_comm {u : β → β} (h : q = p → ∀ n, u (g n) = g (u n)) :
    (s.modNode p g).modNode q u = (s.modNode q u).modNode p g := by
  by_cases hq : q = p
  · subst hq
    rw [modNode_modNode, modNode_modNode]
    exact congrArg _ (funext (h rfl))
  · simp only [modNode, update_of_ne hq, update_of_ne (Ne.symm hq)]
    rw [update_comm hq]

theorem Store.modNode_allocNode (h : p ≠ s.next) (b : β) :
    (s.modNode p g).allocNode b = (s.allocNode b).modNode p g := by
  simp only [modNode, allocNode, update_of_ne h]
  rw [update_comm h]

theorem Store.modNode_dropNode (h : p ≠ q) :
    (s.modNode p g).dropNode q = (s.dropNode q).modNode p g := by
  simp only [modNode, dropNode, update_of_ne h]
  rw [update_comm h]

theorem blind_readDesc {Q : γ → Store β γ → Prop} (h : Q s.desc s) :
    Blind (Store.modNode · p g) readDesc s Q := blind_get_bind rfl (blind_pure h)

theorem blind_writeDesc {u : γ → γ} (h : Q () (s.modDesc u)) :
    Blind (Store.modNode · p g) (writeDesc u) s Q := blind_modify rfl h

/-- A read of a field that `g` leaves alone, or of another record. -/
theorem blind_readField {f : β → Option τ} {Q : τ → Store β γ → Prop}
    (hQ : ∀ v, s.field f q = some v → Q v s)
    (hfg : ∀ v, s.field f q = some v → q = p → ∀ n, f (g n) = f n) :
    Blind (Store.modNode · p g) (readField f q) s Q := by
  refine returns_readField fun v hv => ⟨hQ v hv, ?_⟩
  have hv' : (s.modNode p g).field f q = some v := by
    by_cases hq : q = p
    · rw [Store.field_modNode_other s p q (hfg v hv hq), hv]
    · rw [Store.field_modNode_ne s g f hq, hv]
  obtain ⟨w, t, hrun, rfl, rfl⟩ :=
    (ok_readField hv' fun w t => w = v ∧ t = s.modNode p g).mpr ⟨rfl, rfl⟩
  exact hrun

/-- A write that commutes with `g`, or to another record. -/
theorem blind_writeField {u : β → β}
    (hQ : Q () (s.modNode q u)) (hug : q = p → ∀ n, u (g n) = g (u n)) :
    Blind (Store.modNode · p g) (writeField u q) s Q := by
  cases hn : s.node q with
  | none => exact returns_writeField_none hn _
  | some n =>
      obtain ⟨n', hn'⟩ : ∃ n', (s.modNode p g).node q = some n' := by
        rw [← Option.isSome_iff_exists, Store.modNode_node_isSome, hn]
        rfl
      unfold writeField
      refine blind_get_bind ?_ ?_
      · rw [hn, hn']
      · rw [hn]
        exact blind_modify (Store.modNode_comm hug) hQ

theorem blind_readStr {Q : CStr → Store β γ → Prop} (hQ : ∀ v, Q v s) :
    Blind (Store.modNode · p g) (readStr q) s Q := by
  refine blind_get_bind rfl ?_
  cases s.str q with
  | none => exact blind_throw _ s Q
  | some b =>
      dsimp only
      cases b.str with
      | none => exact blind_throw _ s Q
      | some v => exact blind_pure (hQ v)

theorem blind_mallocNode {b : β} (ok : Bool) {Q : Nat → Store β γ → Prop} (hp : p ≠ s.next)
    (htrue : Q s.next (s.allocNode b)) (hfalse : Q 0 s) :
    Blind (Store.modNode · p g) (mallocNode ok b) s Q := by
  cases ok with
  | false => exact blind_pure hfalse
  | true =>
      refine blind_get_bind rfl (blind_bind ?_)
      exact blind_modify (Store.modNode_allocNode hp b) (blind_pure htrue)

theorem blind_mallocStr (ok : Bool) {n : Nat} {Q : Nat → Store β γ → Prop}
    (htrue : Q s.next (s.allocStr n)) (hfalse : Q 0 s) :
    Blind (Store.modNode · p g) (mallocStr ok n) s Q := by
  cases ok with
  | false => exact blind_pure hfalse
  | true => exact blind_get_bind rfl (blind_bind (blind_modify rfl (blind_pure htrue)))

theorem blind_free (hp : p ≠ q) (hnull : Q () s)
    (hnode : Q () (s.dropNode q)) (hstr : Q () (s.dropStr q)) :
    Blind (Store.modNode · p g) (free q) s Q := by
  refine blind_get_bind ?_ ?_
  · rw [Store.modNode_node_isSome]
    rfl
  · split_ifs
    · exact blind_pure hnull
    · exact blind_modify (Store.modNode_dropNode hp) hnode
    · exact blind_modify rfl hstr
    · exact blind_throw _ s Q

theorem blind_strcpy {v : CStr} (hQ : Q () (s.putStr q v)) :
    Blind (Store.modNode · p g) (strcpy q v) s Q := by
  refine blind_get_bind rfl ?_
  cases s.str q with
  | none => exact blind_throw _ s Q
  | some b =>
      dsimp only
      split_ifs
      · exact blind_throw _ s Q
      · exact blind_modify rfl hQ

theorem blind_memsetZero {n : Nat}
    (hQ : Q () (s.putStr q default)) : Blind (Store.modNode · p g) (memsetZero q n) s Q := by
  refine blind_get_bind rfl ?_
  cases s.str q with
  | none => exact blind_throw _ s Q
  | some b =>
      dsimp only
      split_ifs
      · exact blind_throw _ s Q
      · exact blind_modify rfl hQ

theorem blind_whileLoop {α ρ : Type} {step : α → Exec (Store β γ) (α ⊕ ρ)}
    {Q : ρ → Store β γ → Prop} (I : α → Store β γ → Prop)
    (hstep : ∀ a s, I a s → Blind (Store.modNode · p g) (step a) s fun x s' =>
      match x with
      | .inl a' => I a' s'
      | .inr r => Q r s') {a : α} (hI : I a s) : Blind (Store.modNode · p g)
            (whileLoop step a) s Q :=
  blind_loop I hstep (s.next + 1) hI

end Memory

end KvStore.Lib
