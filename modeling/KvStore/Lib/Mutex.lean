import KvStore.Lib.Exec

set_option autoImplicit false

/-! # A resource behind a mutex

`Guarded σ` is a resource with the mutex that is to guard it, in a program of one thread: a mutex
that is held stays held while the thread waits for it, so `Guarded.lock` goes wrong there.

Code that works on the resource alone is lifted by `Guarded.inside`. The rules below take the lock
out of a program: what is left is a statement about the resource.
-/

namespace KvStore.Lib

/-- A resource and the state of its mutex. -/
structure Guarded (σ : Type) where
  resource : σ
  held : Bool

namespace Guarded

variable {σ α : Type} {s : σ} {b : Bool}

/-- `pthread_mutex_lock` -/
def lock : Exec (Guarded σ) Unit := do
  if (← get).held then
    throw .blocked
  else
    modify fun g => { g with held := true }

/-- `pthread_mutex_unlock` -/
def unlock : Exec (Guarded σ) Unit := do
  if (← get).held then
    modify fun g => { g with held := false }
  else
    throw .badUnlock

/-- Work on the resource, whatever the state of the mutex. -/
def inside (c : Exec σ α) : Exec (Guarded σ) α :=
  zoom Guarded.resource (fun s g => { g with resource := s }) c

@[simp] theorem ok_lock (Q : Unit → Guarded σ → Prop) :
    Ok lock ⟨s, false⟩ Q ↔ Q () ⟨s, true⟩ :=
  ok_of_run rfl Q

@[simp] theorem ok_unlock (Q : Unit → Guarded σ → Prop) :
    Ok unlock ⟨s, true⟩ Q ↔ Q () ⟨s, false⟩ :=
  ok_of_run rfl Q

@[simp] theorem ok_inside (c : Exec σ α) (Q : α → Guarded σ → Prop) :
    Ok (inside c) ⟨s, b⟩ Q ↔ Ok c s (fun a s' => Q a ⟨s', b⟩) :=
  ok_zoom ..

end Guarded

end KvStore.Lib
