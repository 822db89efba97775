import LinuxCppLearn.Library.StepSystem
import LinuxCppLearn.DeadlockCheck.Hooks

/-!
# Threads under the detector

A hooked `pthread_mutex_lock` is the three steps `lock_before`, real acquire,
`lock_after`; a hooked `pthread_mutex_unlock` is real release and
`unlock_after`.  The hooks are atomic, the mutexes are not recursive, and a
thread releases only what it holds.  `check_dead_lock` is one more step, taken
at any time.

* `Enabled`, `effect`, `step` — a step that is enabled and indexes outside an
  array has the effect `none`.
* `Move`, `step_move` — what a step can do, said once; every invariant below
  is a case analysis of it.
* `Consistent` — the part of the state that no schedule can break.
-/

namespace LinuxCppLearn
namespace DeadlockCheck

open StepSystem TaskGraph

/-- The threads and mutexes of a program; neither is ever `0`. -/
structure Scope where
  threads : Finset Nat
  locks : Finset Nat
  thread_ne_zero : 0 ∉ threads
  lock_ne_zero : 0 ∉ locks

/-- Where a thread is. -/
inductive Pc
  /-- outside the hooked functions -/
  | run
  /-- `lock_before` is done, the real lock is not taken -/
  | requested (lock : Nat)
  /-- the real lock is taken, `lock_after` is not done -/
  | acquired (lock : Nat)
  /-- the real lock is released, `unlock_after` is not done -/
  | released (lock : Nat)
deriving DecidableEq, Repr

/-- The lock a thread is busy with. -/
def Pc.lock : Pc → Option Nat
  | .run => none
  | .requested lock | .acquired lock | .released lock => some lock

/-- The lock a thread has asked for: between `lock_before` and `lock_after`. -/
def Pc.asks : Pc → Option Nat
  | .requested lock | .acquired lock => some lock
  | .run | .released _ => none

structure State where
  tg : TaskGraph
  /-- which thread really holds a mutex -/
  owner : Nat → Option Nat
  pc : Nat → Pc

/-- A zero-filled `task_graph`. -/
def TaskGraph.zero : TaskGraph where
  graph :=
    { vertexList _ := ⟨⟨0, .process⟩, []⟩
      vertexNum := 0
      vertexNum_le := Nat.zero_le MAX }
  locks :=
    { lockList _ := ⟨0, 0, 0⟩
      lockNum := 0
      lockNum_le := Nat.zero_le MAX }
  search :=
    { path _ := 0
      visited _ := 0
      k := 0
      deadlock := 0
      printed := [] }

def init : State where
  tg := .zero
  owner _ := none
  pc _ := .run

inductive Action
  | lockBefore (thread lock : Nat)
  | acquire (thread lock : Nat)
  | lockAfter (thread lock : Nat)
  | release (thread lock : Nat)
  | unlockAfter (thread lock : Nat)
  | check
deriving DecidableEq, Repr

def Enabled (sc : Scope) (s : State) : Action → Prop
  | .lockBefore thread lock => thread ∈ sc.threads ∧ lock ∈ sc.locks ∧ s.pc thread = .run
  | .acquire thread lock => s.pc thread = .requested lock ∧ s.owner lock = none
  | .lockAfter thread lock => s.pc thread = .acquired lock
  | .release thread lock => s.pc thread = .run ∧ s.owner lock = some thread
  | .unlockAfter thread lock => s.pc thread = .released lock
  | .check => True

instance (sc : Scope) (s : State) (a : Action) : Decidable (Enabled sc s a) := by
  induction a using Action.casesOn <;> unfold Enabled <;> infer_instance

def State.setPc (s : State) (thread : Nat) (pc : Pc) : State :=
  { s with pc := Function.update s.pc thread pc }

/-- What an enabled action does; `none` when it indexes outside an array. -/
def effect (s : State) : Action → Option State
  | .lockBefore thread lock => do
      let tg ← s.tg.lockBefore thread lock
      some { s.setPc thread (.requested lock) with tg := tg }
  | .acquire thread lock =>
      some { s.setPc thread (.acquired lock) with
        owner := Function.update s.owner lock (some thread) }
  | .lockAfter thread lock => do
      let tg ← s.tg.lockAfter thread lock
      some { s.setPc thread .run with tg := tg }
  | .release thread lock =>
      some { s.setPc thread (.released lock) with
        owner := Function.update s.owner lock none }
  | .unlockAfter thread lock => do
      let tg ← s.tg.unlockAfter thread lock
      some { s.setPc thread .run with tg := tg }
  | .check => do
      let search ← s.tg.graph.checkDeadLock s.tg.search
      some { s with tg := { s.tg with search := search } }

def step (sc : Scope) (s : State) (a : Action) : Option State :=
  if Enabled sc s a then effect s a else none

theorem step_eq_some {sc : Scope} {s s' : State} {a : Action} :
    step sc s a = some s' ↔ Enabled sc s a ∧ effect s a = some s' := by
  unfold step
  by_cases h : Enabled sc s a
  · simp [h]
  · simp [h]

/-- The thread recorded as the owner of a lock: `lock_list[search_lock(lock)].th_id`. -/
def State.recorded (s : State) (lock : Nat) : Option Nat :=
  (s.tg.locks.slot? lock).map LockSlot.thId

/-- No thread is between a real acquire or release and the hook behind it. -/
def Quiescent (s : State) : Prop :=
  ∀ thread lock, s.pc thread ≠ .acquired lock ∧ s.pc thread ≠ .released lock

/-- Not between a real acquire or release and the hook behind it. -/
def Pc.quiet : Pc → Bool
  | .run | .requested _ => true
  | .acquired _ | .released _ => false

/-! ## What a step can do -/

inductive Move (sc : Scope) (s : State) : Action → State → Prop
  | requestNew {thread lock : Nat} (hThread : thread ∈ sc.threads) (hLock : lock ∈ sc.locks)
      (hPc : s.pc thread = .run) (hSlot : s.tg.locks.slot? lock = none) :
      Move sc s (.lockBefore thread lock) (s.setPc thread (.requested lock))
  | requestOld {thread lock : Nat} {slot : LockSlot} {tg : TaskGraph}
      (hThread : thread ∈ sc.threads) (hLock : lock ∈ sc.locks) (hPc : s.pc thread = .run)
      (hSlot : s.tg.locks.slot? lock = some slot)
      (hRecord : s.tg.RecordRequest thread lock slot tg) :
      Move sc s (.lockBefore thread lock) { s.setPc thread (.requested lock) with tg := tg }
  | acquire {thread lock : Nat} (hPc : s.pc thread = .requested lock)
      (hFree : s.owner lock = none) :
      Move sc s (.acquire thread lock)
        { s.setPc thread (.acquired lock) with
          owner := Function.update s.owner lock (some thread) }
  | takeSlot {thread lock : Nat} {tg : TaskGraph} (hPc : s.pc thread = .acquired lock)
      (hSlot : s.tg.locks.slot? lock = none) (hTake : s.tg.TakeSlot thread lock tg) :
      Move sc s (.lockAfter thread lock) { s.setPc thread .run with tg := tg }
  | changeOwner {thread lock : Nat} {slot : LockSlot} {tg : TaskGraph}
      (hPc : s.pc thread = .acquired lock) (hSlot : s.tg.locks.slot? lock = some slot)
      (hChange : s.tg.ChangeOwner thread lock slot tg) :
      Move sc s (.lockAfter thread lock) { s.setPc thread .run with tg := tg }
  | release {thread lock : Nat} (hPc : s.pc thread = .run)
      (hOwner : s.owner lock = some thread) :
      Move sc s (.release thread lock)
        { s.setPc thread (.released lock) with owner := Function.update s.owner lock none }
  | keepSlot {thread lock : Nat} {slot : LockSlot} (hPc : s.pc thread = .released lock)
      (hSlot : s.tg.locks.slot? lock = some slot) (hCount : slot.degress ≠ 0) :
      Move sc s (.unlockAfter thread lock) (s.setPc thread .run)
  | clearSlot {thread lock : Nat} {slot : LockSlot} {tg : TaskGraph}
      (hPc : s.pc thread = .released lock) (hSlot : s.tg.locks.slot? lock = some slot)
      (hCount : slot.degress = 0) (hClear : s.tg.ClearSlot lock slot tg) :
      Move sc s (.unlockAfter thread lock) { s.setPc thread .run with tg := tg }
  | check (search : Search)
      (hRun : s.tg.graph.checkDeadLock s.tg.search = some search) :
      Move sc s .check { s with tg := { s.tg with search := search } }

/-- What holds in every reachable state, whatever the schedule. -/
structure Consistent (sc : Scope) (s : State) : Prop where
  wellFormed : s.tg.WellFormed
  pc_scope : ∀ thread lock, (s.pc thread).lock = some lock →
    thread ∈ sc.threads ∧ lock ∈ sc.locks
  owner_scope : ∀ thread lock, s.owner lock = some thread →
    thread ∈ sc.threads ∧ lock ∈ sc.locks
  acquired_owner : ∀ thread lock, s.pc thread = .acquired lock → s.owner lock = some thread
  released_owner : ∀ thread lock, s.pc thread = .released lock → s.owner lock ≠ some thread
  slot_scope : ∀ lock ≠ 0, ∀ slot, s.tg.locks.slot? lock = some slot →
    slot.thId ∈ sc.threads ∧ lock ∈ sc.locks
  vertex_scope : ∀ q, s.tg.graph.IsVertex q → q.type = .process ∧ q.thId ∈ sc.threads

theorem Scope.lock_ne {sc : Scope} {lock : Nat} (h : lock ∈ sc.locks) : lock ≠ 0 := by
  rintro rfl
  exact sc.lock_ne_zero h

theorem step_move {sc : Scope} {s s' : State} {a : Action} (hCons : Consistent sc s)
    (h : step sc s a = some s') : Move sc s a s' := by
  obtain ⟨hEnabled, hEffect⟩ := step_eq_some.mp h
  have hNonzero : ∀ thread lock, (s.pc thread).lock = some lock → lock ≠ 0 := by
    intro thread lock hLock
    exact Scope.lock_ne (hCons.pc_scope thread lock hLock).2
  cases a with
  | lockBefore thread lock =>
      obtain ⟨hThread, hLock, hPc⟩ := hEnabled
      simp only [effect, Option.bind_eq_bind, Option.bind_eq_some_iff, Option.some.injEq]
        at hEffect
      obtain ⟨tg, hHook, rfl⟩ := hEffect
      rcases lockBefore_cases hCons.wellFormed hHook with ⟨hSlot, rfl⟩ | ⟨slot, hSlot, hRecord⟩
      · exact .requestNew hThread hLock hPc hSlot
      · exact .requestOld hThread hLock hPc hSlot hRecord
  | acquire thread lock =>
      simp only [effect, Option.some.injEq] at hEffect
      subst hEffect
      exact .acquire hEnabled.1 hEnabled.2
  | lockAfter thread lock =>
      have hPc : s.pc thread = .acquired lock := hEnabled
      simp only [effect, Option.bind_eq_bind, Option.bind_eq_some_iff, Option.some.injEq]
        at hEffect
      obtain ⟨tg, hHook, rfl⟩ := hEffect
      have hLock : lock ≠ 0 := hNonzero thread lock (by rw [hPc]; rfl)
      rcases lockAfter_cases hCons.wellFormed hLock hHook with
        ⟨hSlot, hTake⟩ | ⟨slot, hSlot, hChange⟩
      · exact .takeSlot hPc hSlot hTake
      · exact .changeOwner hPc hSlot hChange
  | release thread lock =>
      simp only [effect, Option.some.injEq] at hEffect
      subst hEffect
      exact .release hEnabled.1 hEnabled.2
  | unlockAfter thread lock =>
      have hPc : s.pc thread = .released lock := hEnabled
      simp only [effect, Option.bind_eq_bind, Option.bind_eq_some_iff, Option.some.injEq]
        at hEffect
      obtain ⟨tg, hHook, rfl⟩ := hEffect
      have hLock : lock ≠ 0 := hNonzero thread lock (by rw [hPc]; rfl)
      obtain ⟨slot, hSlot, ⟨hCount, rfl⟩ | ⟨hCount, hClear⟩⟩ :=
        unlockAfter_cases hCons.wellFormed hLock hHook
      · exact .keepSlot hPc hSlot hCount
      · exact .clearSlot hPc hSlot hCount hClear
  | check =>
      simp only [effect, Option.bind_eq_bind, Option.bind_eq_some_iff, Option.some.injEq]
        at hEffect
      obtain ⟨search, hRun, rfl⟩ := hEffect
      exact .check search hRun

/-! ## Consistency -/

theorem consistent_init (sc : Scope) : Consistent sc init := by
  have hVertex : ∀ q, ¬ init.tg.graph.IsVertex q := by
    intro q h
    obtain ⟨i, hLt, -⟩ := Digraph.isVertex_iff.mp h
    exact Nat.not_lt_zero i hLt
  have hSlot : ∀ lock, init.tg.locks.slot? lock = none := by
    intro lock
    rw [LockTable.slot?_eq_none, LockTable.searchLock_eq_none]
    intro i hLt
    exact absurd hLt (Nat.not_lt_zero i)
  constructor
  · refine ⟨⟨?_, ?_⟩, ?_⟩
    · intro i hLt
      exact absurd hLt (Nat.not_lt_zero i)
    · intro i hLt
      exact absurd hLt (Nat.not_lt_zero i)
    · intro i hLt
      exact absurd hLt (Nat.not_lt_zero i)
  · intro thread lock h
    simp [init, Pc.lock] at h
  · intro thread lock h
    simp [init] at h
  · intro thread lock h
    simp [init] at h
  · intro thread lock h
    simp [init] at h
  · intro lock _ slot h
    rw [hSlot] at h
    simp at h
  · intro q h
    exact absurd h (hVertex q)

section Steps

variable {sc : Scope} {s : State}

/-- A thread moves on without taking or releasing a mutex. -/
theorem Consistent.setPc (h : Consistent sc s) {thread : Nat} {pc : Pc} {tg : TaskGraph}
    (hScope : ∀ lock, pc.lock = some lock → thread ∈ sc.threads ∧ lock ∈ sc.locks)
    (hPc : ∀ lock, pc ≠ .acquired lock ∧ pc ≠ .released lock)
    (hWf : tg.WellFormed)
    (hSlots : ∀ lock ≠ 0, ∀ slot, tg.locks.slot? lock = some slot →
      slot.thId ∈ sc.threads ∧ lock ∈ sc.locks)
    (hVertex : ∀ q, tg.graph.IsVertex q → q.type = .process ∧ q.thId ∈ sc.threads) :
    Consistent sc { s.setPc thread pc with tg := tg } where
  wellFormed := hWf
  pc_scope other lock hLock := by
    by_cases hEq : other = thread
    · subst hEq
      exact hScope lock (by simpa [State.setPc] using hLock)
    · exact h.pc_scope other lock (by simpa [State.setPc, hEq] using hLock)
  owner_scope := h.owner_scope
  acquired_owner other lock hAcquired := by
    by_cases hEq : other = thread
    · subst hEq
      exact absurd (by simpa [State.setPc] using hAcquired) (hPc lock).1
    · exact h.acquired_owner other lock (by simpa [State.setPc, hEq] using hAcquired)
  released_owner other lock hReleased := by
    by_cases hEq : other = thread
    · subst hEq
      exact absurd (by simpa [State.setPc] using hReleased) (hPc lock).2
    · exact h.released_owner other lock (by simpa [State.setPc, hEq] using hReleased)
  slot_scope := hSlots
  vertex_scope := hVertex

/-- A free mutex is taken. -/
theorem Consistent.acquire (h : Consistent sc s) {thread lock : Nat}
    (hPc : s.pc thread = .requested lock) (hFree : s.owner lock = none) :
    Consistent sc { s.setPc thread (.acquired lock) with
      owner := Function.update s.owner lock (some thread) } where
  wellFormed := h.wellFormed
  pc_scope other m hLock := by
    by_cases hEq : other = thread
    · subst hEq
      obtain rfl : lock = m := by simpa [State.setPc, Pc.lock] using hLock
      exact h.pc_scope other lock (by rw [hPc]; rfl)
    · exact h.pc_scope other m (by simpa [State.setPc, hEq] using hLock)
  owner_scope other m hOwner := by
    by_cases hEq : m = lock
    · subst hEq
      obtain rfl : thread = other := by simpa using hOwner
      exact h.pc_scope thread m (by rw [hPc]; rfl)
    · exact h.owner_scope other m (by simpa [hEq] using hOwner)
  acquired_owner other m hAcquired := by
    by_cases hEq : other = thread
    · subst hEq
      obtain rfl : lock = m := by simpa [State.setPc] using hAcquired
      simp
    · have hOld := h.acquired_owner other m (by simpa [State.setPc, hEq] using hAcquired)
      have hNe : m ≠ lock := by
        rintro rfl
        rw [hFree] at hOld
        simp at hOld
      simpa [hNe] using hOld
  released_owner other m hReleased := by
    have hNe : other ≠ thread := by
      rintro rfl
      simp [State.setPc] at hReleased
    have hOld := h.released_owner other m (by simpa [State.setPc, hNe] using hReleased)
    by_cases hEq : m = lock
    · subst hEq
      simpa using hNe.symm
    · simpa [hEq] using hOld
  slot_scope := h.slot_scope
  vertex_scope := h.vertex_scope

/-- A mutex is released by its holder. -/
theorem Consistent.release (h : Consistent sc s) {thread lock : Nat}
    (hPc : s.pc thread = .run) (hOwner : s.owner lock = some thread) :
    Consistent sc { s.setPc thread (.released lock) with
      owner := Function.update s.owner lock none } where
  wellFormed := h.wellFormed
  pc_scope other m hLock := by
    by_cases hEq : other = thread
    · subst hEq
      obtain rfl : lock = m := by simpa [State.setPc, Pc.lock] using hLock
      exact h.owner_scope other lock hOwner
    · exact h.pc_scope other m (by simpa [State.setPc, hEq] using hLock)
  owner_scope other m hOwn := by
    by_cases hEq : m = lock
    · subst hEq
      simp at hOwn
    · exact h.owner_scope other m (by simpa [hEq] using hOwn)
  acquired_owner other m hAcquired := by
    have hNe : other ≠ thread := by
      rintro rfl
      simp [State.setPc] at hAcquired
    -- nobody else is in front of `lock_after` with the mutex of this thread
    have hOld := h.acquired_owner other m (by simpa [State.setPc, hNe] using hAcquired)
    have hOther : m ≠ lock := by
      rintro rfl
      rw [hOwner, Option.some.injEq] at hOld
      exact hNe hOld.symm
    simpa [hOther] using hOld
  released_owner other m hReleased := by
    by_cases hEq : m = lock
    · subst hEq
      simp
    · have hNe : other ≠ thread := by
        rintro rfl
        have hSame : lock = m := by simpa [State.setPc] using hReleased
        exact hEq hSame.symm
      have hOld := h.released_owner other m (by simpa [State.setPc, hNe] using hReleased)
      simpa [hEq] using hOld
  slot_scope := h.slot_scope
  vertex_scope := h.vertex_scope

/-- A hook writes the slot of one mutex, for a thread of the program. -/
theorem Consistent.slot_scope_write (h : Consistent sc s) {tg : TaskGraph} {lock : Nat}
    {new : LockSlot} (hLock : lock ∈ sc.locks) (hThread : new.thId ∈ sc.threads)
    (hSlots : ∀ m ≠ 0, tg.locks.slot? m = if m = lock then some new else s.tg.locks.slot? m) :
    ∀ m ≠ 0, ∀ slot, tg.locks.slot? m = some slot →
      slot.thId ∈ sc.threads ∧ m ∈ sc.locks := by
  intro m hm slot hSlot
  rw [hSlots m hm] at hSlot
  split at hSlot
  · rename_i hEq
    obtain rfl := Option.some.inj hSlot
    exact ⟨hThread, hEq ▸ hLock⟩
  · exact h.slot_scope m hm slot hSlot

theorem consistent_move {s' : State} {a : Action} (h : Consistent sc s)
    (hMove : Move sc s a s') : Consistent sc s' := by
  have hRun : ∀ (thread : Nat) (lock : Nat), Pc.run.lock = some lock →
      thread ∈ sc.threads ∧ lock ∈ sc.locks := by
    intro thread lock hLock
    simp [Pc.lock] at hLock
  cases hMove with
  | requestNew hThread hLock hPc hSlot =>
      refine h.setPc ?_ (by simp) h.wellFormed h.slot_scope h.vertex_scope
      intro m hm
      obtain rfl := Option.some.inj hm
      exact ⟨hThread, hLock⟩
  | @requestOld thread lock slot tg hThread hLock hPc hSlot hRecord =>
      -- the recorded owner is a thread of the program as well
      have hOwner : slot.thId ∈ sc.threads :=
        (h.slot_scope lock (Scope.lock_ne hLock) slot hSlot).1
      have hNew : ({ slot with degress := slot.degress + 1 } : LockSlot).thId ∈ sc.threads :=
        hOwner
      have hScope := h.slot_scope_write hLock hNew fun m _ => hRecord.slots m
      refine h.setPc ?_ (by simp) hRecord.wellFormed hScope ?_
      · intro m hm
        obtain rfl := Option.some.inj hm
        exact ⟨hThread, hLock⟩
      -- the new vertices are the thread and the recorded owner
      · intro q hq
        rcases (hRecord.vertex q).mp hq with hOld | rfl | rfl
        · exact h.vertex_scope q hOld
        · exact ⟨rfl, hThread⟩
        · exact ⟨rfl, hOwner⟩
  | acquire hPc hFree => exact h.acquire hPc hFree
  | @takeSlot thread lock tg hPc hSlot hTake =>
      have hIn := h.pc_scope thread lock (by rw [hPc]; rfl)
      refine h.setPc (hRun thread) (by simp) hTake.wellFormed
        (h.slot_scope_write hIn.2 (show (LockSlot.mk thread lock _).thId ∈ sc.threads from hIn.1)
          hTake.slots) ?_
      rw [hTake.graph]
      exact h.vertex_scope
  | @changeOwner thread lock slot tg hPc hSlot hChange =>
      have hIn := h.pc_scope thread lock (by rw [hPc]; rfl)
      have hNew : ({ slot with thId := thread, degress := slot.degress - 1 } : LockSlot).thId ∈
          sc.threads := hIn.1
      have hScope := h.slot_scope_write hIn.2 hNew fun m _ => hChange.slots m
      refine h.setPc (hRun thread) (by simp) hChange.wellFormed hScope ?_
      intro q hq
      exact h.vertex_scope q ((hChange.vertex q).mp hq)
  | release hPc hOwner => exact h.release hPc hOwner
  | keepSlot hPc hSlot hCount =>
      exact h.setPc (hRun _) (by simp) h.wellFormed h.slot_scope h.vertex_scope
  | @clearSlot thread lock slot tg hPc hSlot hCount hClear =>
      refine h.setPc (hRun thread) (by simp) hClear.wellFormed ?_ ?_
      · intro m hm slot' hSlot'
        rw [hClear.slots m hm] at hSlot'
        split at hSlot'
        · simp at hSlot'
        · exact h.slot_scope m hm slot' hSlot'
      · rw [hClear.graph]
        exact h.vertex_scope
  | check search hRun' =>
      exact ⟨⟨h.wellFormed.graph, h.wellFormed.locks⟩, h.pc_scope, h.owner_scope,
        h.acquired_owner, h.released_owner, h.slot_scope, h.vertex_scope⟩

end Steps

theorem consistent_reach {sc : Scope} {s : State} (h : Reachable (step sc) init s) :
    Consistent sc s :=
  h.invariant (consistent_init sc) fun _ _ _ hCons _ hStep =>
    consistent_move hCons (step_move hCons hStep)

/-- Only the threads of the program need to be looked at. -/
theorem quiescent_of_threads {sc : Scope} {s : State} (hCons : Consistent sc s)
    (h : ∀ thread ∈ sc.threads, (s.pc thread).quiet = true) : Quiescent s := by
  intro thread lock
  constructor
  · intro hAcquired
    have hIn := (hCons.pc_scope thread lock (by rw [hAcquired]; rfl)).1
    have hQuiet := h thread hIn
    simp [hAcquired, Pc.quiet] at hQuiet
  · intro hReleased
    have hIn := (hCons.pc_scope thread lock (by rw [hReleased]; rfl)).1
    have hQuiet := h thread hIn
    simp [hReleased, Pc.quiet] at hQuiet

/-- An invariant over a guarded run may use consistency and the moves. -/
theorem reach_invariant {sc : Scope} {guard : State → Action → Prop} {P : State → Prop}
    {s : State} (h : Reach (step sc) guard init s) (hInit : P init)
    (hMove : ∀ s a s', Consistent sc s → P s → guard s a → Move sc s a s' → P s') : P s := by
  have hBoth : Consistent sc s ∧ P s := by
    refine Reach.invariant (P := fun s => Consistent sc s ∧ P s) h
      ⟨consistent_init sc, hInit⟩ ?_
    rintro s a s' ⟨hCons, hP⟩ hMet hStep
    have hMoved := step_move hCons hStep
    exact ⟨consistent_move hCons hMoved, hMove s a s' hCons hP hMet hMoved⟩
  exact hBoth.2

end DeadlockCheck
end LinuxCppLearn
