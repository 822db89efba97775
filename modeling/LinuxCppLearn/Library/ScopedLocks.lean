/-!
# Code that throws, and locks that follow the scopes

A piece of code works on a state: it returns, it throws, or it waits for
something that does not come while it stands there.  An exception leaves every
scope it passes, and a scope that owns a lock releases it then.  The lock is not
recursive: whoever holds it and takes it again waits for himself.

* `bind_apply` — what happens to the rest of the code.
* `withLock_apply`, `withLock_locked` — a scope that owns the lock.
-/

namespace ScopedLocks

variable {σ α β : Type}

/-- How a piece of code ends. -/
inductive Ends (α : Type)
  | returns (a : α)
  | throws
  | waits
deriving DecidableEq, Repr

/-- Code over a state: how it ends, and the state it leaves. -/
def Code (σ α : Type) := σ → Ends α × σ

instance : Monad (Code σ) where
  pure a := fun s => (.returns a, s)
  bind first next := fun s =>
    match first s with
    | (.returns a, t) => next a t
    | (.throws, t) => (.throws, t)
    | (.waits, t) => (.waits, t)

theorem bind_apply (first : Code σ α) (next : α → Code σ β) (s : σ) :
    (first >>= next) s =
      match first s with
      | (.returns a, t) => next a t
      | (.throws, t) => (.throws, t)
      | (.waits, t) => (.waits, t) := rfl

def read : Code σ σ := fun s => (.returns s, s)

def throws : Code σ α := fun s => (.throws, s)

def throwIf (fails : Bool) : Code σ Unit := if fails then throws else pure ()

/-- A state and the lock that guards it. -/
structure Locked (σ : Type) where
  locked : Bool
  val : σ

def change (f : σ → σ) : Code (Locked σ) Unit := fun s => (.returns (), { s with val := f s.val })

/-- Waiting on a condition variable gives the lock up. -/
def sleep : Code (Locked σ) α := fun s => (.waits, { s with locked := false })

/-- A block that owns the lock, as with `lock_guard` and `unique_lock`. -/
def withLock (body : Code (Locked σ) α) : Code (Locked σ) α := fun s =>
  if s.locked then (.waits, s)
  else
    match body { s with locked := true } with
    | (.waits, t) => (.waits, t)
    | (.returns a, t) => (.returns a, { t with locked := false })
    | (.throws, t) => (.throws, { t with locked := false })

@[simp] theorem read_apply (s : σ) : read s = (.returns s, s) := rfl

@[simp] theorem change_apply (f : σ → σ) (s : Locked σ) :
    change f s = (.returns (), { s with val := f s.val }) := rfl

/-- The thread holds the lock already. -/
@[simp] theorem withLock_locked (body : Code (Locked σ) α) (x : σ) :
    withLock body ⟨true, x⟩ = (.waits, ⟨true, x⟩) := rfl

theorem withLock_apply (body : Code (Locked σ) α) (x : σ) :
    withLock body ⟨false, x⟩ =
      match body ⟨true, x⟩ with
      | (.waits, t) => (.waits, t)
      | (.returns a, t) => (.returns a, { t with locked := false })
      | (.throws, t) => (.throws, { t with locked := false }) := rfl

end ScopedLocks
