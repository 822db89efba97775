import Mathlib.Data.Finset.Basic
import Mathlib.Logic.Function.Basic
import LinuxCppLearn.Library.StepSystem

/-!
# The leak tracker that replaces `malloc` and `free`

`dlsym_hook.c` keeps one file `./mem/<ptr>.mem` for every block in use: its
`malloc` creates the file, its `free` removes it, and a `free` that finds no
file reports a double free.  `fopen` and `fprintf` allocate themselves; the two
flags `enable_malloc_hook` and `enable_free_hook` send such a nested call past
the tracker.

The directory is a map from pointers to the lines written, `NULL` is 0.  The
requests of `fopen` and `fprintf` inside `malloc` meet the cleared flag and
leave nothing behind, so they are no part of the model; the one request made
inside `free`, for the buffer of `stdout` at the first `printf`, meets
`enable_malloc_hook` set.

Besides the tracker the state holds the blocks of the real allocator and, as a
record of what the application did, the pointers it has got and not given back.
-/

namespace LinuxCppLearn
namespace LeakCheck

abbrev Ptr := Nat

/-- The line in a record file: `ConvertToELF(caller)`, `p`, `size`. -/
structure Record where
  caller : Nat
  addr : Ptr
  size : Nat
deriving DecidableEq, Repr

structure Tracker where
  enableMallocHook : Bool
  enableFreeHook : Bool
  /-- the files of `./mem`, each under the pointer in its name -/
  mem : Ptr → Option Record
  /-- the pointers printed as double free -/
  doubleFree : List Ptr
  /-- allocated by the real `malloc` and not freed -/
  heap : Finset Ptr
  /-- got by the application and not given back -/
  live : Finset Ptr

/-- Behind `init_hook`, with `./mem` empty. -/
def Tracker.init : Tracker where
  enableMallocHook := true
  enableFreeHook := true
  mem _ := none
  doubleFree := []
  heap := ∅
  live := ∅

/-- A request and what the environment answers: the address `malloc_f` returns
and the caller's address. -/
structure Request where
  p : Ptr
  size : Nat
  caller : Nat
deriving DecidableEq, Repr

namespace Tracker

/-- `malloc_f` returns `p`. -/
def mallocF (t : Tracker) (p : Ptr) : Tracker :=
  { t with heap := insert p t.heap }

def freeF (t : Tracker) (ptr : Ptr) : Tracker :=
  { t with heap := t.heap.erase ptr }

/-- `fopen(buff, "w")` with the line printed to it. -/
def writeRecord (t : Tracker) (r : Request) : Tracker :=
  { t with mem := Function.update t.mem r.p (some ⟨r.caller, r.p, r.size⟩) }

/-- `unlink(buff)`, `none` when it fails. -/
def unlink (t : Tracker) (ptr : Ptr) : Option Tracker :=
  match t.mem ptr with
  | none => none
  | some _ => some { t with mem := Function.update t.mem ptr none }

def report (t : Tracker) (ptr : Ptr) : Tracker :=
  { t with doubleFree := t.doubleFree ++ [ptr] }

/-- `malloc` -/
def malloc (t : Tracker) (r : Request) : Tracker :=
  if t.enableMallocHook then
    let t := { t with enableMallocHook := false }
    let t := (t.mallocF r.p).writeRecord r
    { t with enableMallocHook := true }
  else t.mallocF r.p

/-- `free`.  The first `printf` asks for the buffer of `stdout`. -/
def free (t : Tracker) (ptr : Ptr) (stdoutBuffer : Option Request) : Tracker :=
  if t.enableFreeHook then
    let t := { t with enableFreeHook := false }
    match t.unlink ptr with
    | none =>
        let t :=
          match stdoutBuffer with
          | none => t
          | some r => t.malloc r
        -- `return;` in front of the line that sets the flag again
        t.report ptr
    | some t => { t.freeF ptr with enableFreeHook := true }
  else t.freeF ptr

end Tracker

/-- A call of the application. -/
inductive Call
  | malloc (r : Request)
  | free (ptr : Ptr) (stdoutBuffer : Option Request)
deriving DecidableEq, Repr

/-- A call by the only thread.  `malloc` returns no pointer in use; `free` may
be given any pointer but `NULL`. -/
def step (t : Tracker) : Call → Option Tracker
  | .malloc r =>
      if r.p ≠ 0 ∧ r.p ∉ t.live then some { t.malloc r with live := insert r.p t.live }
      else none
  | .free ptr stdoutBuffer =>
      if ptr ≠ 0 then some { t.free ptr stdoutBuffer with live := t.live.erase ptr } else none

end LeakCheck
end LinuxCppLearn
