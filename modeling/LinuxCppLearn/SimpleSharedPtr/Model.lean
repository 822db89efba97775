import LinuxCppLearn.Library.StepSystem
import Mathlib.Algebra.Group.Int.Defs

/-!
# The shared pointer class

The handles of `myShared_ptr<T>`, the counters they point to, and what was
deleted.  Every statement is code over this state; `none` is undefined behaviour:
the counter of a handle that has none or a dangling one, `delete` of what is
deleted, and an `int` out of range.

The objects of type `T` are given by their addresses.  None of them is a handle
or has one in it, so `delete ptr` does nothing to the handles.
-/

namespace LinuxCppLearn
namespace SimpleSharedPtr

abbrev HandleId := Nat
abbrev ObjId := Nat
abbrev CountId := Nat

/-- The members of a handle. -/
structure SharedPtr where
  ptr : ObjId
  count : Option CountId
deriving DecidableEq, Repr

structure State where
  handle : HandleId → Option SharedPtr
  /-- the live counters -/
  counter : CountId → Option Int
  nextCount : CountId
  deletedObjects : List ObjId
  deletedCounts : List CountId
  /-- the objects given to the pointer constructor, and the counters they got -/
  given : List (ObjId × CountId)

def State.init : State where
  handle _ := none
  counter _ := none
  nextCount := 0
  deletedObjects := []
  deletedCounts := []
  given := []

abbrev Code := StateT State Option

/-! ## Statements -/

/-- The members of a live handle. -/
def members (x : HandleId) : Code SharedPtr := fun s =>
  (s.handle x).map fun h => (h, s)

def setMembers (x : HandleId) (h : SharedPtr) : Code Unit :=
  modify fun s => { s with handle := Function.update s.handle x (some h) }

/-- `*count` -/
def load (count : Option CountId) : Code Int := fun s =>
  (count.bind s.counter).map fun v => (v, s)

/-- `*count = v` -/
def store (count : Option CountId) (v : Int) : Code Unit := fun s =>
  match count with
  | none => none
  | some c =>
      if s.counter c ≠ none ∧ -2 ^ 31 ≤ v ∧ v < 2 ^ 31 then
        some ((), { s with counter := Function.update s.counter c (some v) })
      else none

/-- `new int(v)` for the object. -/
def newCount (ptr : ObjId) (v : Int) : Code CountId := fun s =>
  some (s.nextCount,
    { s with
      counter := Function.update s.counter s.nextCount (some v)
      nextCount := s.nextCount + 1
      given := s.given ++ [(ptr, s.nextCount)] })

/-- `delete ptr` -/
def deleteObject (ptr : ObjId) : Code Unit := fun s =>
  if ptr ∈ s.deletedObjects then none
  else some ((), { s with deletedObjects := s.deletedObjects ++ [ptr] })

/-- `delete count` -/
def deleteCount (count : Option CountId) : Code Unit := fun s =>
  match count with
  | none => some ((), s)
  | some c =>
      if s.counter c = none then none
      else some ((),
        { s with
          counter := Function.update s.counter c none
          deletedCounts := s.deletedCounts ++ [c] })

/-! ## The operations of the class -/

/-- `explicit myShared_ptr(T *ptr)` -/
def ctor (this : HandleId) (ptr : ObjId) : Code Unit := do
  setMembers this ⟨ptr, some (← newCount ptr 1)⟩

def release (this : HandleId) : Code Unit := do
  let h ← members this
  store h.count ((← load h.count) - 1)
  if (← load h.count) = 0 then
    deleteObject h.ptr
    deleteCount h.count

/-- `~myShared_ptr()` -/
def dtor (this : HandleId) : Code Unit := do
  release this
  modify fun s => { s with handle := Function.update s.handle this none }

/-- `myShared_ptr(const myShared_ptr<T> &other)` -/
def ctorCopy (this other : HandleId) : Code Unit := do
  let o ← members other
  setMembers this ⟨o.ptr, o.count⟩
  if o.count ≠ none then
    store o.count ((← load o.count) + 1)

/-- `operator=(const myShared_ptr<T> &other)` -/
def assign (this other : HandleId) : Code Unit := do
  if this ≠ other then
    release this
    setMembers this { ← members this with ptr := (← members other).ptr }
    setMembers this { ← members this with count := (← members other).count }
    let h ← members this
    store h.count ((← load h.count) + 1)

/-! ## The program that uses the class -/

inductive Op
  | ctor (this : HandleId) (ptr : ObjId)
  | ctorCopy (this other : HandleId)
  | assign (this other : HandleId)
  | dtor (this : HandleId)
deriving DecidableEq, Repr

def exec : Op → Code Unit
  | .ctor this ptr => ctor this ptr
  | .ctorCopy this other => ctorCopy this other
  | .assign this other => assign this other
  | .dtor this => dtor this

def step (s : State) (a : Op) : Option State :=
  ((exec a).run s).map Prod.snd

/-- What the program sees to: a new handle for a constructor, live handles
elsewhere, and every object is given to one constructor. -/
def Usage (s : State) : Op → Prop
  | .ctor this ptr => s.handle this = none ∧ ptr ∉ s.given.map Prod.fst
  | .ctorCopy this other => s.handle this = none ∧ s.handle other ≠ none
  | .assign this other => s.handle this ≠ none ∧ s.handle other ≠ none
  | .dtor this => s.handle this ≠ none

instance (s : State) (a : Op) : Decidable (Usage s a) := by
  cases a <;> unfold Usage <;> infer_instance

end SimpleSharedPtr
end LinuxCppLearn
