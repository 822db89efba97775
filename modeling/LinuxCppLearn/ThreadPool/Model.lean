import Mathlib.Logic.Function.Basic
import Mathlib.Data.Fintype.Basic
import LinuxCppLearn.Library.StepSystem

/-!
# The thread pools and their step model

The repository holds three pools with one design: `thread_pool/cpp11`,
`thread_pool/raw_version` and the pool of `echo_tcpServer`.  They share the
queue `m_tasks` under one mutex, the flag `m_stop` written without it, one
condition variable, and a destructor which sets the flag, broadcasts and
joins.  What differs is written down once for each of them as an `Impl`.

The step model has one action for every point at which another thread can get
in between.  A worker evaluates its wait condition in one step (`workerTest`)
and blocks in a later one (`workerBlock`), both while it holds the mutex; the
destructor's two statements are two steps which do not take the mutex.

Tasks are named by the `addTask` call that submits them, so an equal function
submitted twice is two tasks.
-/

namespace LinuxCppLearn
namespace ThreadPool

/-- What the test at the top of `addTask`'s critical section decides. -/
inductive Verdict
  | accept
  | throws
  | refuse
deriving DecidableEq, Repr

/-- What the statement after the worker's critical section does with the task. -/
inductive Invocation
  | called
  | skipped
  | terminates
deriving DecidableEq, Repr

/-- The parts of the code in which the three pools differ. -/
structure Impl where
  /-- test of `addTask` on `m_stop` and `m_tasks.size()` -/
  addTask : Bool → Nat → Verdict
  /-- the worker goes to sleep, on `m_stop` and `m_tasks.empty()` -/
  keepsWaiting : Bool → Bool → Bool
  /-- the worker returns, on `m_stop` and `m_tasks.empty()` -/
  exits : Bool → Bool → Bool
  /-- invoking a task, on whether the `std::function` holds a callable -/
  invoke : Bool → Invocation
  /-- the mutex is released when the insertion into `m_tasks` throws -/
  unlocksOnThrow : Bool

/-- `thread_pool/cpp11`: `wait(lock, pred)` sleeps while `pred` is false, and
`unique_lock` unlocks during stack unwinding. -/
def cpp11 : Impl where
  addTask m_stop _ := if m_stop then .throws else .accept
  keepsWaiting m_stop empty := !(!empty || m_stop)
  exits m_stop empty := m_stop && empty
  invoke task := if task then .called else .skipped
  unlocksOnThrow := true

/-- `thread_pool/raw_version`: `job()` is called unconditionally; an empty
`std::function` throws out of the thread function. -/
def raw : Impl where
  addTask m_stop _ := if m_stop then .throws else .accept
  keepsWaiting m_stop empty := !m_stop && empty
  exits m_stop empty := m_stop && empty
  invoke job := if job then .called else .terminates
  unlocksOnThrow := false

/-- `m_max_tasks` of the echo server's pool. -/
def maxTasks : Nat := 65535

/-- `echo_tcpServer/threadPool`: a bounded queue, and no test of `m_stop`. -/
def echo : Impl where
  addTask _ size := if maxTasks ≤ size then .refuse else .accept
  keepsWaiting m_stop empty := !m_stop && empty
  exits m_stop empty := m_stop && empty
  invoke job := if job then .called else .terminates
  unlocksOnThrow := false

/-- The three pools of the repository. -/
inductive Variant
  | cpp11
  | raw
  | echo
deriving DecidableEq, Repr

def Variant.impl : Variant → Impl
  | .cpp11 => ThreadPool.cpp11
  | .raw => ThreadPool.raw
  | .echo => ThreadPool.echo

/-- The predicate version of `wait` and the explicit loop sleep in the same
states. -/
@[simp] theorem Variant.impl_keepsWaiting (v : Variant) (mStop empty : Bool) :
    v.impl.keepsWaiting mStop empty = (!mStop && empty) := by
  cases v <;> cases mStop <;> cases empty <;> rfl

@[simp] theorem Variant.impl_exits (v : Variant) (mStop empty : Bool) :
    v.impl.exits mStop empty = (mStop && empty) := by
  cases v <;> rfl

/-- Where a worker is in `worker()` / `run()`. -/
inductive WorkerPc
  /-- at the top of the loop, without the mutex -/
  | top
  /-- holds the mutex and is about to evaluate the wait condition -/
  | test
  /-- holds the mutex, has decided to sleep, has not blocked yet -/
  | goingToSleep
  /-- blocked on the condition variable, no wake-up pending -/
  | blocked
  /-- woken up, about to lock the mutex again -/
  | woken
  /-- holds the mutex behind the wait loop -/
  | awake
  /-- has popped this task and released the mutex -/
  | running (task : Nat)
  | exited
deriving DecidableEq, Repr

/-- Where a call of `addTask` is. -/
inductive CallerPc
  /-- not called yet, or waiting for the mutex -/
  | ready
  /-- holds the mutex, about to test -/
  | test
  /-- holds the mutex, the test passed -/
  | push
  /-- has pushed and released the mutex, about to signal -/
  | signal
  | returned
  | threw
  /-- `return false` of the bounded queue -/
  | refused
deriving DecidableEq, Repr

/-- Where the destructor is. -/
inductive DtorPc
  | notCalled
  /-- `m_stop = true` done -/
  | stopSet
  /-- past the broadcast, joining the workers -/
  | joining
  | finished
deriving DecidableEq, Repr

/-- A thread that can hold the mutex. -/
inductive Holder (n : Nat)
  | worker (w : Fin n)
  | caller (c : Nat)
deriving DecidableEq, Repr

/-- A pool with `n` workers, the `addTask` calls and the destructor.
`accepted`, `taken` and `executed` record the history of the tasks. -/
structure State (n : Nat) where
  mStop : Bool
  mTasks : List Nat
  mutex : Option (Holder n)
  worker : Fin n → WorkerPc
  caller : Nat → CallerPc
  dtor : DtorPc
  terminated : Bool
  accepted : List Nat
  taken : List (Fin n × Nat)
  executed : List Nat

/-- The pool after its constructor: every worker thread is about to start. -/
def init (n : Nat) : State n where
  mStop := false
  mTasks := []
  mutex := none
  worker _ := .top
  caller _ := .ready
  dtor := .notCalled
  terminated := false
  accepted := []
  taken := []
  executed := []

inductive Action (n : Nat)
  | workerLock (w : Fin n)
  | workerTest (w : Fin n)
  | workerBlock (w : Fin n)
  | spuriousWake (w : Fin n)
  | workerTake (w : Fin n)
  | workerRun (w : Fin n) (task : Nat)
  | callerLock (c : Nat)
  | callerTest (c : Nat)
  | callerPush (c : Nat)
  | callerPushThrows (c : Nat)
  | callerSignal (c : Nat) (woken : Option (Fin n))
  | dtorStop
  | dtorBroadcast
  | dtorJoin
deriving DecidableEq, Repr

section State

variable {n : Nat}

def State.setWorker (s : State n) (w : Fin n) (pc : WorkerPc) : State n :=
  { s with worker := Function.update s.worker w pc }

def State.setCaller (s : State n) (c : Nat) (pc : CallerPc) : State n :=
  { s with caller := Function.update s.caller c pc }

/-- `notify_all` / `pthread_cond_broadcast`. -/
def wakeAll (worker : Fin n → WorkerPc) : Fin n → WorkerPc := fun w =>
  if worker w = .blocked then .woken else worker w

/-- When an action can be taken. -/
def Enabled (s : State n) : Action n → Prop
  | .workerLock w => s.mutex = none ∧ (s.worker w = .top ∨ s.worker w = .woken)
  | .workerTest w => s.worker w = .test
  | .workerBlock w => s.worker w = .goingToSleep
  | .spuriousWake w => s.worker w = .blocked
  | .workerTake w => s.worker w = .awake
  | .workerRun w task => s.worker w = .running task
  | .callerLock c => s.mutex = none ∧ s.caller c = .ready
  | .callerTest c => s.caller c = .test
  | .callerPush c => s.caller c = .push
  | .callerPushThrows c => s.caller c = .push
  -- a signal wakes a blocked worker if there is one
  | .callerSignal c (some w) => s.caller c = .signal ∧ s.worker w = .blocked
  | .callerSignal c none => s.caller c = .signal ∧ ∀ w, s.worker w ≠ .blocked
  | .dtorStop => s.dtor = .notCalled
  | .dtorBroadcast => s.dtor = .stopSet
  | .dtorJoin => s.dtor = .joining ∧ ∀ w, s.worker w = .exited

instance (s : State n) (a : Action n) : Decidable (Enabled s a) := by
  induction a using Action.casesOn with
  | callerSignal c woken => cases woken <;> exact inferInstanceAs (Decidable (_ ∧ _))
  | workerLock w => exact inferInstanceAs (Decidable (_ ∧ _))
  | callerLock c => exact inferInstanceAs (Decidable (_ ∧ _))
  | dtorJoin => exact inferInstanceAs (Decidable (_ ∧ _))
  | _ => exact inferInstanceAs (Decidable (_ = _))

/-- The state after an enabled action.  `callable c` says whether the
`std::function` passed to the call `c` holds a callable. -/
def effect (impl : Impl) (callable : Nat → Bool) (s : State n) : Action n → State n
  | .workerLock w => { s.setWorker w .test with mutex := some (.worker w) }
  | .workerTest w =>
      if impl.keepsWaiting s.mStop s.mTasks.isEmpty then s.setWorker w .goingToSleep
      else s.setWorker w .awake
  -- `wait` releases the mutex and blocks atomically
  | .workerBlock w => { s.setWorker w .blocked with mutex := none }
  | .spuriousWake w => s.setWorker w .woken
  | .workerTake w =>
      if impl.exits s.mStop s.mTasks.isEmpty then { s.setWorker w .exited with mutex := none }
      else
        match s.mTasks with
        -- `front()` of an empty queue: behind the wait loop with no exit it has a task
        | [] => s
        | task :: rest =>
            { s.setWorker w (.running task) with
              mutex := none
              mTasks := rest
              taken := s.taken ++ [(w, task)] }
  | .workerRun w task =>
      match impl.invoke (callable task) with
      | .called => { s.setWorker w .top with executed := s.executed ++ [task] }
      | .skipped => s.setWorker w .top
      | .terminates => { s with terminated := true }
  | .callerLock c => { s.setCaller c .test with mutex := some (.caller c) }
  | .callerTest c =>
      match impl.addTask s.mStop s.mTasks.length with
      | .accept => s.setCaller c .push
      | .throws => { s.setCaller c .threw with mutex := none }
      | .refuse => { s.setCaller c .refused with mutex := none }
  | .callerPush c =>
      { s.setCaller c .signal with
        mutex := none
        mTasks := s.mTasks ++ [c]
        accepted := s.accepted ++ [c] }
  | .callerPushThrows c =>
      if impl.unlocksOnThrow then { s.setCaller c .threw with mutex := none }
      else s.setCaller c .threw
  | .callerSignal c (some w) => (s.setCaller c .returned).setWorker w .woken
  | .callerSignal c none => s.setCaller c .returned
  | .dtorStop => { s with mStop := true, dtor := .stopSet }
  | .dtorBroadcast => { s with worker := wakeAll s.worker, dtor := .joining }
  | .dtorJoin => { s with dtor := .finished }

/-- One step of the pool; after `std::terminate` nothing runs any more. -/
def step (impl : Impl) (callable : Nat → Bool) (s : State n) (a : Action n) :
    Option (State n) :=
  if s.terminated = false ∧ Enabled s a then some (effect impl callable s a) else none

/-- **Inversion of a step**: it was enabled, and the new state is its effect. -/
theorem step_eq_some {impl : Impl} {callable : Nat → Bool} {s s' : State n} {a : Action n} :
    step impl callable s a = some s' ↔
      (s.terminated = false ∧ Enabled s a) ∧ effect impl callable s a = s' := by
  unfold step
  split
  · rename_i hEnabled
    simp [hEnabled]
  · rename_i hDisabled
    simp [hDisabled]

end State

end ThreadPool
end LinuxCppLearn
