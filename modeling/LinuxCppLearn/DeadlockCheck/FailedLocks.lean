import LinuxCppLearn.DeadlockCheck.Structure

/-!
# When the real function fails

The hooked functions do not look at what `pthread_mutex_lock_f` and
`pthread_mutex_unlock_f` return: `lock_after` and `unlock_after` run behind a
failed call as they do behind a successful one.  The mutexes may be of any kind,
so the real functions may return anything at any time.

* `step` — the hooked functions, with the result of the real one in between.
* `FailedLock`, `FailedUnlock` — a call up to its last hook, whose real function
  has failed, with the steps of the other threads in between.
* `NoNetChange` — the two hooks of a call cancel out.
* `failed_calls_leave_view_exactly` — when they do.
-/

namespace LinuxCppLearn
namespace DeadlockCheck
namespace FailedLocks

open StepSystem TaskGraph

/-- Where a thread is; `0` is success. -/
inductive Pc
  | run
  | requested (lock : Nat)
  | locked (lock result : Nat)
  | unlocked (lock result : Nat)
deriving DecidableEq, Repr

/-- The parts of the hooked functions. -/
inductive Part
  | lockBefore
  /-- `pthread_mutex_lock_f` -/
  | lockF (result : Nat)
  | lockAfter
  /-- `pthread_mutex_unlock_f` -/
  | unlockF (result : Nat)
  | unlockAfter
deriving DecidableEq, Repr

structure Action where
  thread : Nat
  lock : Nat
  part : Part
deriving DecidableEq, Repr

structure State where
  tg : TaskGraph
  pc : Nat → Pc

/-- The part of `pthread_mutex_lock` or `pthread_mutex_unlock` that comes next. -/
def Pc.allows (lock : Nat) : Pc → Part → Bool
  | .run, .lockBefore | .run, .unlockF _ => true
  | .requested m, .lockF _ => m = lock
  -- whatever the real function has returned
  | .locked m _, .lockAfter => m = lock
  | .unlocked m _, .unlockAfter => m = lock
  | _, _ => false

def Part.next (lock : Nat) : Part → Pc
  | .lockBefore => .requested lock
  | .lockF result => .locked lock result
  | .unlockF result => .unlocked lock result
  | .lockAfter | .unlockAfter => .run

def Part.hook (tg : TaskGraph) (thread lock : Nat) : Part → Option TaskGraph
  | .lockBefore => tg.lockBefore thread lock
  | .lockAfter => tg.lockAfter thread lock
  | .unlockAfter => tg.unlockAfter thread lock
  | .lockF _ | .unlockF _ => some tg

/-- Thread ids and addresses of mutexes are not `0`. -/
def step (s : State) (a : Action) : Option State :=
  if a.thread ≠ 0 ∧ a.lock ≠ 0 ∧ (s.pc a.thread).allows a.lock a.part = true then do
    let tg ← a.part.hook s.tg a.thread a.lock
    some
      { tg := tg
        pc := Function.update s.pc a.thread (a.part.next a.lock) }
  else none

def start (tg : TaskGraph) : State where
  tg := tg
  pc _ := .run

end FailedLocks

namespace TaskGraph

/-- The thread recorded for a lock, if it has a slot. -/
def recorded (tg : TaskGraph) (lock : Nat) : Option Nat :=
  (tg.locks.slot? lock).map LockSlot.thId

/-- The `degress` of a lock, `0` without a slot. -/
def counted (tg : TaskGraph) (lock : Nat) : Int :=
  ((tg.locks.slot? lock).map LockSlot.degress).getD 0

/-- How often `v` is in the list of `u`. -/
def edgeCount (tg : TaskGraph) (u v : Pair) : Int :=
  (tg.graph.succ u).count v

end TaskGraph

namespace FailedLocks

open StepSystem TaskGraph ConcurrentCheck

/-- A call of `pthread_mutex_lock` whose real function has failed: `lock_before`
is the step to `s₁'`, `lock_after` is to follow in `s₂`, and the other threads
move in between. -/
structure FailedLock (thread lock : Nat) (s₁ s₁' s₂ : State) : Prop where
  before : step s₁ ⟨thread, lock, .lockBefore⟩ = some s₁'
  between : Reach step (fun _ a => a.thread ≠ thread ∨ ∃ result ≠ 0, a.part = .lockF result)
    s₁' s₂
  failed : ∃ result ≠ 0, s₂.pc thread = .locked lock result

/-- A call of `pthread_mutex_unlock` whose real function has failed, before
`unlock_after`. -/
def FailedUnlock (thread lock : Nat) (s : State) : Prop :=
  ∃ result ≠ 0, s.pc thread = .unlocked lock result

/-- What the hooks have changed, from `tg₁` to `tg₁'` and from `tg₂` to `tg₂'`,
cancels out, and no recorded owner has been changed. -/
structure NoNetChange (tg₁ tg₁' tg₂ tg₂' : TaskGraph) : Prop where
  owner : ∀ lock ≠ 0, tg₁'.recorded lock = tg₁.recorded lock ∧
    tg₂'.recorded lock = tg₂.recorded lock
  degress : ∀ lock ≠ 0,
    (tg₁'.counted lock - tg₁.counted lock) + (tg₂'.counted lock - tg₂.counted lock) = 0
  edges : ∀ u v,
    (tg₁'.edgeCount u v - tg₁.edgeCount u v) + (tg₂'.edgeCount u v - tg₂.edgeCount u v) = 0

/-- The lock is recorded for the thread itself when `lock_after` runs, and when
`lock_before` runs it is recorded for the thread itself or one to which the
thread has an edge already. -/
def AlreadyRecorded (thread lock : Nat) (tg₁ tg₂ : TaskGraph) : Prop :=
  (∃ owner, tg₁.recorded lock = some owner ∧ tg₁.Asks thread owner) ∧
    tg₂.recorded lock = some thread

section Steps

variable {tg₀ tg tg' : TaskGraph} {s s' : State} {a : Action} {thread lock : Nat} {slot : LockSlot}

theorem step_eq_some (h : step s a = some s') :
    (a.thread ≠ 0 ∧ a.lock ≠ 0) ∧ a.part.hook s.tg a.thread a.lock = some s'.tg := by
  unfold step at h
  split at h
  · rename_i hAllowed
    simp only [Option.bind_eq_bind, Option.bind_eq_some_iff, Option.some.injEq] at h
    obtain ⟨tg, hHook, rfl⟩ := h
    exact ⟨⟨hAllowed.1, hAllowed.2.1⟩, hHook⟩
  · simp at h

/-- The hook a thread has come to is called. -/
theorem step_of_hook (hNonzero : a.thread ≠ 0 ∧ a.lock ≠ 0)
    (hAllows : (s.pc a.thread).allows a.lock a.part = true)
    (hHook : a.part.hook s.tg a.thread a.lock = some tg) :
    ∃ s', step s a = some s' ∧ s'.tg = tg := by
  refine ⟨⟨tg, Function.update s.pc a.thread (a.part.next a.lock)⟩, ?_, rfl⟩
  unfold step
  rw [if_pos ⟨hNonzero.1, hNonzero.2, hAllows⟩, hHook]
  rfl

/-- The mutex of a call that is not over. -/
def Pc.lock? : Pc → Option Nat
  | .run => none
  | .requested lock | .locked lock _ | .unlocked lock _ => some lock

/-- The tables are in order, whatever the real functions return. -/
def InOrder (tg : TaskGraph) : Prop :=
  tg.WellFormed ∧ Tidy tg.graph

theorem inOrder_step (h : InOrder s.tg) (hStep : step s a = some s') : InOrder s'.tg := by
  obtain ⟨thread, lock, part⟩ := a
  obtain ⟨⟨-, hLock⟩, hHook⟩ := step_eq_some hStep
  have hRun : ∀ hook : Hook, hook.lock = lock → hook.run s.tg = some s'.tg → InOrder s'.tg := by
    rintro hook rfl hHook
    exact Hook.run_tidy h.1 hLock h.2 hHook
  cases part with
  | lockBefore => exact hRun (.lockBefore thread lock) rfl hHook
  | lockAfter => exact hRun (.lockAfter thread lock) rfl hHook
  | unlockAfter => exact hRun (.unlockAfter thread lock) rfl hHook
  | lockF result | unlockF result =>
      obtain hSame : s.tg = s'.tg := Option.some.inj hHook
      exact hSame ▸ h

theorem inOrder_reach {guard : State → Action → Prop} (h : InOrder s.tg)
    (hReach : Reach step guard s s') : InOrder s'.tg :=
  hReach.invariant (P := fun s => InOrder s.tg) h fun _ _ _ hIn _ hStep => inOrder_step hIn hStep

/-- Calls are made by threads, on mutexes. -/
def CallsNamed (s : State) : Prop :=
  ∀ thread lock, (s.pc thread).lock? = some lock → thread ≠ 0 ∧ lock ≠ 0

theorem callsNamed_step (h : CallsNamed s) (hStep : step s a = some s') : CallsNamed s' := by
  obtain ⟨hNonzero, -⟩ := step_eq_some hStep
  unfold step at hStep
  split at hStep
  · simp only [Option.bind_eq_bind, Option.bind_eq_some_iff, Option.some.injEq] at hStep
    obtain ⟨tg, -, rfl⟩ := hStep
    intro thread lock hLock
    by_cases hEq : thread = a.thread
    · subst hEq
      have hNext : (a.part.next a.lock).lock? = some lock := by
        simpa only [Function.update_self] using hLock
      refine ⟨hNonzero.1, ?_⟩
      cases hPart : a.part with
      | lockBefore | lockF | unlockF =>
          obtain rfl : a.lock = lock := by simpa [hPart, Part.next, Pc.lock?] using hNext
          exact hNonzero.2
      | lockAfter | unlockAfter => simp [hPart, Part.next, Pc.lock?] at hNext
    · exact h thread lock (by simpa [hEq] using hLock)
  · simp at hStep

theorem callsNamed_reach {guard : State → Action → Prop} (h : CallsNamed s)
    (hReach : Reach step guard s s') : CallsNamed s' :=
  hReach.invariant h fun _ _ _ hNamed _ hStep => callsNamed_step hNamed hStep

/-- A thread has no edge to itself, so `lock_after` takes none away if it finds
the thread itself recorded. -/
theorem ownEdges_stay (hTidy : InOrder tg) (hChange : tg.ChangeOwner thread lock slot tg')
    (hSelf : slot.thId = thread) (q : Pair) : tg'.graph.succ q = tg.graph.succ q := by
  rw [hChange.edge]
  split
  · rename_i hHere
    obtain ⟨rfl, -⟩ := hHere
    apply List.eraseP_of_forall_not
    intro p hMem hId
    have hType := hTidy.2.process p (hTidy.1.graph.isVertex_of_mem_succ hMem)
    have hSame : p = process thread := by
      have hThread : p.thId = slot.thId := of_decide_eq_true hId
      unfold process
      rw [← hType, ← hSelf, ← hThread]
    exact hTidy.2.loopless _ (hSame ▸ hMem)
  · rfl

theorem recorded_eq (hSlot : tg.locks.slot? lock = some slot) :
    tg.recorded lock = some slot.thId := by
  unfold TaskGraph.recorded
  rw [hSlot]
  rfl

theorem counted_eq (hSlot : tg.locks.slot? lock = some slot) : tg.counted lock = slot.degress := by
  unfold TaskGraph.counted
  rw [hSlot]
  rfl

/-- Behind `lock_after` its thread is recorded. -/
theorem lockAfter_recorded (hWf : tg.WellFormed) (hLock : lock ≠ 0)
    (h : tg.lockAfter thread lock = some tg') : tg'.recorded lock = some thread := by
  rcases lockAfter_cases hWf hLock h with ⟨-, hTake⟩ | ⟨slot, -, hChange⟩
  · exact recorded_eq (by rw [hTake.slots lock hLock, if_pos rfl])
  · exact recorded_eq (by rw [hChange.slots, if_pos rfl])

/-- `lock_after` finds a slot that is there. -/
theorem exists_lockAfter (thread : Nat) {owner : Nat} (h : tg.recorded lock = some owner) :
    ∃ tg', tg.lockAfter thread lock = some tg' := by
  obtain ⟨slot, hSlot, -⟩ := Option.map_eq_some_iff.mp h
  obtain ⟨idx, hFound, -⟩ := LockTable.slot?_eq_some.mp hSlot
  unfold TaskGraph.lockAfter
  rw [hFound]
  exact ⟨_, rfl⟩

/-- `unlock_after` finds a slot of which somebody is counted. -/
theorem exists_unlockAfter (thread : Nat) (h : tg.counted lock ≠ 0) :
    ∃ tg', tg.unlockAfter thread lock = some tg' := by
  unfold TaskGraph.unlockAfter
  cases hFound : tg.locks.searchLock lock with
  | none => simp [TaskGraph.counted, LockTable.slot?_eq_none.mpr hFound] at h
  | some idx =>
      dsimp only
      split <;> exact ⟨_, rfl⟩

/-- `lock_after` for the recorded owner counts it out, and that is all. -/
theorem lockAfter_self (hOrder : InOrder tg) (hLock : lock ≠ 0)
    (h : tg.lockAfter thread lock = some tg') (hSelf : tg.recorded lock = some thread) :
    (∀ other, tg'.recorded other = tg.recorded other) ∧
      (∀ other, tg'.counted other = tg.counted other - if other = lock then 1 else 0) ∧
      ∀ q, tg'.graph.succ q = tg.graph.succ q := by
  rcases lockAfter_cases hOrder.1 hLock h with ⟨hNone, -⟩ | ⟨slot, hSlot, hChange⟩
  · unfold TaskGraph.recorded at hSelf
    rw [hNone] at hSelf
    simp at hSelf
  · have hOwner : slot.thId = thread := by
      rw [recorded_eq hSlot] at hSelf
      exact Option.some.inj hSelf
    refine ⟨fun other => ?_, fun other => ?_, ownEdges_stay hOrder hChange hOwner⟩
    · unfold TaskGraph.recorded
      rw [hChange.slots]
      split
      · rename_i hHere
        rw [hHere, hSlot, ← hOwner]
        rfl
      · rfl
    · unfold TaskGraph.counted
      rw [hChange.slots]
      split
      · rename_i hHere
        rw [hHere, hSlot]
        rfl
      · exact (Int.sub_zero _).symm

/-- `lock_before` for a recorded lock counts its thread, and adds an edge if the
thread has none to the owner. -/
theorem lockBefore_recorded (hRecord : tg.RecordRequest thread lock slot tg')
    (hSlot : tg.locks.slot? lock = some slot) :
    (∀ other, tg'.recorded other = tg.recorded other) ∧
      ∀ other, tg'.counted other = tg.counted other + if other = lock then 1 else 0 := by
  constructor
  · intro other
    unfold TaskGraph.recorded
    rw [hRecord.slots]
    split
    · rename_i hHere
      rw [hHere, hSlot]
      rfl
    · rfl
  · intro other
    unfold TaskGraph.counted
    rw [hRecord.slots]
    split
    · rename_i hHere
      rw [hHere, hSlot]
      rfl
    · exact (Int.add_zero _).symm

/-- `lock_before` leaves the edges exactly if the thread had one. -/
theorem lockBefore_edges (hRecord : tg.RecordRequest thread lock slot tg') :
    (∀ u v, tg'.edgeCount u v = tg.edgeCount u v) ↔ tg.Asks thread slot.thId := by
  constructor
  · intro hSame
    by_contra hNone
    have hNew := hSame (process thread) (process slot.thId)
    unfold TaskGraph.edgeCount at hNew
    rw [hRecord.edge_new hNone, if_pos rfl, List.count_append, List.count_singleton_self] at hNew
    omega
  · intro hOld u v
    unfold TaskGraph.edgeCount
    rw [hRecord.edge_old hOld]

/-! ## The two hooks of a failed call -/

theorem noNetChange_iff {tg₁ tg₁' tg₂ tg₂' : TaskGraph} (hOrder₁ : InOrder tg₁)
    (hOrder₂ : InOrder tg₂) (hLock : lock ≠ 0) (hBefore : tg₁.lockBefore thread lock = some tg₁')
    (hAfter : tg₂.lockAfter thread lock = some tg₂') :
    NoNetChange tg₁ tg₁' tg₂ tg₂' ↔ AlreadyRecorded thread lock tg₁ tg₂ := by
  have hOwner := lockAfter_recorded hOrder₂.1 hLock hAfter
  constructor
  · intro hNone
    have hSelf : tg₂.recorded lock = some thread := (hNone.owner lock hLock).2.symm.trans hOwner
    obtain ⟨-, hCounted, hEdges⟩ := lockAfter_self hOrder₂ hLock hAfter hSelf
    rcases lockBefore_cases hOrder₁.1 hBefore with ⟨-, rfl⟩ | ⟨slot, hSlot, hRecord⟩
    -- nothing was counted in, and one is counted out
    · have hCount := hNone.degress lock hLock
      rw [hCounted lock, if_pos rfl] at hCount
      omega
    · refine ⟨⟨slot.thId, recorded_eq hSlot, (lockBefore_edges hRecord).mp fun u v => ?_⟩, hSelf⟩
      have hEdge := hNone.edges u v
      have hKept : tg₂'.edgeCount u v = tg₂.edgeCount u v := by
        unfold TaskGraph.edgeCount
        rw [hEdges]
      omega
  · rintro ⟨⟨owner, hFirst, hAsks⟩, hSelf⟩
    obtain ⟨hRecorded, hCounted, hEdges⟩ := lockAfter_self hOrder₂ hLock hAfter hSelf
    rcases lockBefore_cases hOrder₁.1 hBefore with ⟨hNone, -⟩ | ⟨slot, hSlot, hRecord⟩
    · unfold TaskGraph.recorded at hFirst
      rw [hNone] at hFirst
      simp at hFirst
    · obtain rfl : slot.thId = owner := Option.some.inj ((recorded_eq hSlot).symm.trans hFirst)
      obtain ⟨hRecorded₁, hCounted₁⟩ := lockBefore_recorded hRecord hSlot
      refine ⟨fun m _ => ⟨hRecorded₁ m, hRecorded m⟩, fun m _ => ?_, fun u v => ?_⟩
      · rw [hCounted₁ m, hCounted m]
        omega
      · have hKept : tg₂'.edgeCount u v = tg₂.edgeCount u v := by
          unfold TaskGraph.edgeCount
          rw [hEdges]
        rw [(lockBefore_edges hRecord).mpr hAsks, hKept]
        omega

/-- `unlock_after` leaves the owners exactly if somebody is counted. -/
theorem unlockAfter_recorded_iff (hWf : tg.WellFormed) (hLock : lock ≠ 0)
    (h : tg.unlockAfter thread lock = some tg') :
    (∀ other ≠ 0, tg'.recorded other = tg.recorded other) ↔ tg.counted lock ≠ 0 := by
  obtain ⟨slot, hSlot, hCases⟩ := unlockAfter_cases hWf hLock h
  rw [counted_eq hSlot]
  rcases hCases with ⟨hCount, rfl⟩ | ⟨hZero, hClear⟩
  · exact ⟨fun _ => hCount, fun _ _ _ => rfl⟩
  · refine ⟨fun hSame => ?_, fun hCount => absurd hZero hCount⟩
    have hGone := hSame lock hLock
    unfold TaskGraph.recorded at hGone
    rw [hClear.slots lock hLock, if_pos rfl, hSlot] at hGone
    simp at hGone

end Steps

/-- A whole call of `pthread_mutex_lock`. -/
def lockCall (thread lock result : Nat) : List Action :=
  [⟨thread, lock, .lockBefore⟩, ⟨thread, lock, .lockF result⟩, ⟨thread, lock, .lockAfter⟩]

/-- Behind the real function the thread has its result. -/
theorem result_noted {thread lock result : Nat} :
    (∀ s', step s ⟨thread, lock, .lockF result⟩ = some s' →
      s'.pc thread = .locked lock result) ∧
    ∀ s', step s ⟨thread, lock, .unlockF result⟩ = some s' →
      s'.pc thread = .unlocked lock result := by
  constructor <;>
  · intro s' h
    unfold step at h
    split at h
    · obtain rfl := Option.some.inj h
      exact Function.update_self ..
    · simp at h

/-- A call of `pthread_mutex_lock` that fails behind `before`, with nobody in
between. -/
theorem exists_failedLock {before : List Action} {thread lock result : Nat}
    {test : State → State → Bool} (hResult : result ≠ 0)
    (hRun : ((run step (start .zero) before).bind fun s₁ =>
      (step s₁ ⟨thread, lock, .lockBefore⟩).bind fun s₁' =>
      (step s₁' ⟨thread, lock, .lockF result⟩).map fun s₂ => test s₁ s₂) = some true) :
    ∃ s₁ s₁' s₂, Reachable step (start .zero) s₁ ∧ FailedLock thread lock s₁ s₁' s₂ ∧
      test s₁ s₂ = true := by
  simp only [Option.bind_eq_some_iff, Option.map_eq_some_iff] at hRun
  obtain ⟨s₁, hFirst, s₁', hBefore, s₂, hFails, hTest⟩ := hRun
  exact ⟨s₁, s₁', s₂, reachable_of_run hFirst,
    ⟨hBefore, Reach.next _ Reach.start (.inr ⟨result, hResult, rfl⟩) hFails,
      ⟨result, hResult, result_noted.1 s₂ hFails⟩⟩, hTest⟩

/-- A call of `pthread_mutex_unlock` that fails behind `before`. -/
theorem exists_failedUnlock {before : List Action} {thread lock result : Nat}
    {test : State → Bool} (hResult : result ≠ 0)
    (hRun : ((run step (start .zero) before).bind fun s₀ =>
      (step s₀ ⟨thread, lock, .unlockF result⟩).map fun s => test s) = some true) :
    ∃ s, Reachable step (start .zero) s ∧ FailedUnlock thread lock s ∧ test s = true := by
  simp only [Option.bind_eq_some_iff, Option.map_eq_some_iff] at hRun
  obtain ⟨s₀, hFirst, s, hFails, hTest⟩ := hRun
  exact ⟨s, Reach.next _ (reachable_of_run hFirst) trivial hFails,
    ⟨result, hResult, result_noted.2 s hFails⟩, hTest⟩

theorem nothingRecorded_zero : NothingRecorded TaskGraph.zero :=
  ⟨rfl, fun i hi => absurd hi (Nat.not_lt_zero i)⟩

end FailedLocks
end DeadlockCheck
end LinuxCppLearn
