import LinuxCppLearn.Library.Buffers
import LinuxCppLearn.Library.StepSystem
import Mathlib.Data.UInt

/-!
# The string class

Every operation of `myString` is code over the objects and the heap: it returns,
or `new char[]` throws, or it does something that C++ leaves undefined.  The
members are read and written in the order of the source, so an operation whose
argument is the object itself meets its own half-done work.

`unsigned int` has 32 bits; the sum that goes to `new char[]` is an
`unsigned int` and wraps.
-/

namespace LinuxCppLearn
namespace SimpleString

open Buffers

abbrev ObjId := Nat

/-- The members of an object; `data = none` is `nullptr`. -/
structure MyString where
  data : Option Nat
  length : UInt32
deriving DecidableEq, Repr

/-- The live objects, and the buffers they have got. -/
structure State where
  obj : ObjId → Option MyString
  heap : Heap UInt8

def State.init : State where
  obj _ := none
  heap := .empty

/-- How an operation ends that does not return. -/
inductive Fault
  | badAlloc
  | undefined
deriving DecidableEq, Repr

abbrev Code := EStateM Fault State

/-- What `new char[]` answers: a buffer with anything in it, or `bad_alloc`. -/
abbrev Answer := Option (Nat → UInt8)

/-! ## Statements -/

/-- The members of a live object. -/
def members (o : ObjId) : Code MyString := fun s =>
  match s.obj o with
  | none => .error .undefined s
  | some m => .ok m s

def setMembers (o : ObjId) (m : MyString) : Code Unit := fun s =>
  .ok () { s with obj := Function.update s.obj o (some m) }

def setData (this : ObjId) (data : Option Nat) : Code Unit := do
  setMembers this { ← members this with data := data }

def setLength (this : ObjId) (length : UInt32) : Code Unit := do
  setMembers this { ← members this with length := length }

/-- The buffer behind `data`, when it is read or written. -/
def buffer (o : ObjId) : Code Nat := do
  match (← members o).data with
  | none => throw .undefined
  | some b => pure b

/-- A statement on the heap that may be undefined. -/
def onHeap (f : Heap UInt8 → Option (Heap UInt8)) : Code Unit := fun s =>
  match f s.heap with
  | none => .error .undefined s
  | some heap => .ok () { s with heap := heap }

/-- `new char[size]` -/
def newChars (size : UInt32) (answer : Answer) : Code Nat := fun s =>
  match answer with
  | none => .error .badAlloc { s with heap := s.heap.refuse size.toNat }
  | some fill => .ok s.heap.next { s with heap := s.heap.new size.toNat fill }

/-- `delete[] data` -/
def deleteData (this : ObjId) : Code Unit := do
  match (← members this).data with
  | none => pure ()
  | some b => onHeap (·.delete b)

def strlen (str : CharPtr UInt8) : Code Nat := fun s =>
  match s.heap.strlen str with
  | none => .error .undefined s
  | some n => .ok n s

def strcpy (dst : Nat) (src : CharPtr UInt8) : Code Unit :=
  onHeap (·.strcpy ⟨dst, 0⟩ src)

def strcat (dst : Nat) (src : CharPtr UInt8) : Code Unit :=
  onHeap (·.strcat ⟨dst, 0⟩ src)

/-- The C string behind `data`. -/
def chars (o : ObjId) : Code (CharPtr UInt8) := do
  pure (.inside ⟨← buffer o, 0⟩)

/-- `data = new char[length + 1]` and the copy into it. -/
def copyFrom (this : ObjId) (src : Code (CharPtr UInt8)) (answer : Answer) : Code Unit := do
  setData this (some (← newChars ((← members this).length + 1) answer))
  strcpy (← buffer this) (← src)

/-- `data[0] = '\0'` -/
def terminate (this : ObjId) : Code Unit := do
  let data ← buffer this
  onHeap (·.write ⟨data, 0⟩ [0])

/-! ## The operations of the class -/

/-- `myString()` -/
def ctor (this : ObjId) (answer : Answer) : Code Unit := do
  setData this (some (← newChars 1 answer))
  setLength this 0
  terminate this

/-- `myString(const char *str)` -/
def ctorChars (this : ObjId) (str : Option (CharPtr UInt8)) (answer : Answer) : Code Unit := do
  match str with
  | some str =>
      setLength this (UInt32.ofNat (← strlen str))
      copyFrom this (pure str) answer
  | none =>
      setLength this 0
      setData this (some (← newChars 1 answer))
      terminate this

/-- `myString(const myString &str)` -/
def ctorCopy (this str : ObjId) (answer : Answer) : Code Unit := do
  setLength this (← members str).length
  copyFrom this (chars str) answer

/-- `~myString()` -/
def dtor (this : ObjId) : Code Unit := do
  if (← members this).data ≠ none then
    deleteData this
    setData this none

/-- `operator=(const myString &str)` -/
def assign (this str : ObjId) (answer : Answer) : Code Unit := do
  if this ≠ str then
    deleteData this
    setLength this (← members str).length
    copyFrom this (chars str) answer

/-- `operator=(const char *str)` -/
def assignChars (this : ObjId) (str : CharPtr UInt8) (answer : Answer) : Code Unit := do
  deleteData this
  setLength this (UInt32.ofNat (← strlen str))
  copyFrom this (pure str) answer

/-- `operator+=` -/
def append (this str : ObjId) (answer : Answer) : Code Unit := do
  setLength this ((← members this).length + (← members str).length)
  let tmp ← newChars ((← members this).length + (← members str).length + 1) answer
  strcpy tmp (← chars this)
  strcat tmp (← chars str)
  deleteData this
  setData this (some tmp)

/-! ## The program that uses the class -/

/-- A `const char *` the program may have: null, a C string of its own, or
`o.c_str() + off`. -/
inductive CharArg
  | null
  | outside (chars : List UInt8)
  | within (o : ObjId) (off : Nat)
deriving DecidableEq, Repr

def CharArg.eval : CharArg → Code (Option (CharPtr UInt8))
  | .null => pure none
  | .outside chars => pure (some (.outside chars))
  | .within o off => do pure (some (.inside ⟨← buffer o, off⟩))

inductive Call
  | ctor (this : ObjId)
  | ctorChars (this : ObjId) (str : CharArg)
  | ctorCopy (this str : ObjId)
  | dtor (this : ObjId)
  | assign (this str : ObjId)
  | assignChars (this : ObjId) (str : CharArg)
  | append (this str : ObjId)
deriving DecidableEq, Repr

/-- The object begins with its constructor, and has never been there if that
throws.  No constructor reads a member it has not written. -/
def construct (this : ObjId) (body : Code Unit) : Code Unit := fun s =>
  if s.obj this ≠ none then .error .undefined s
  else
    match body { s with obj := Function.update s.obj this (some ⟨none, 0⟩) } with
    | .ok () t => .ok () t
    | .error e t => .error e { t with obj := Function.update t.obj this none }

def exec (answer : Answer) : Call → Code Unit
  | .ctor this => construct this (ctor this answer)
  | .ctorChars this str => do construct this (ctorChars this (← str.eval) answer)
  | .ctorCopy this str => construct this (ctorCopy this str answer)
  | .dtor this => do
      dtor this
      modify fun s => { s with obj := Function.update s.obj this none }
  | .assign this str => assign this str answer
  | .assignChars this str => do
      match ← str.eval with
      | none => throw .undefined
      | some src => assignChars this src answer
  | .append this str => append this str answer

/-- A call that returns. -/
def step (s : State) (a : Call × (Nat → UInt8)) : Option State :=
  match (exec (some a.2) a.1).run s with
  | .ok () t => some t
  | .error _ _ => none

end SimpleString
end LinuxCppLearn
