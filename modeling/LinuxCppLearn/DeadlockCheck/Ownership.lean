import LinuxCppLearn.DeadlockCheck.Interleaving

/-!
# The recorded owners

`unlock_after` runs behind the real release, so another thread may have taken
the mutex and run its `lock_after` in between; `unlock_after` looks only at
`degress`, not at the recorded owner, and empties the slot of the new holder.

* `NoWipe` — that this does not happen: an `unlock_after` that finds
  `degress = 0` runs while no other thread holds the mutex behind its
  `lock_after`.
* `RecordedInv` — every holder behind its `lock_after` is the recorded owner.
* `wipe_loses_owner` — an `unlock_after` that is not clear of the condition
  leaves a held mutex without a record.
-/

namespace LinuxCppLearn
namespace DeadlockCheck

open StepSystem TaskGraph

/-- `unlock_after` does not empty the slot of a mutex whose new holder has
already run `lock_after`. -/
def NoWipe (s : State) : Action → Prop
  | .unlockAfter _ lock =>
      ∀ slot ∈ s.tg.locks.slot? lock, slot.degress = 0 →
        ∀ holder ∈ s.owner lock, s.pc holder = .acquired lock
  | _ => True

instance (s : State) (a : Action) : Decidable (NoWipe s a) := by
  induction a using Action.casesOn <;> unfold NoWipe <;> infer_instance

/-- A holder behind its `lock_after` is recorded. -/
def RecordedInv (s : State) : Prop :=
  ∀ lock thread, s.owner lock = some thread → s.pc thread ≠ .acquired lock →
    s.recorded lock = some thread

theorem recorded_eq_some {s : State} {lock thread : Nat} :
    s.recorded lock = some thread ↔
      ∃ slot, s.tg.locks.slot? lock = some slot ∧ slot.thId = thread := by
  unfold State.recorded
  rw [Option.map_eq_some_iff]

/-- A step that keeps the holders, the records of held mutexes and who is
between a real acquire and `lock_after`. -/
theorem RecordedInv.congr {s s' : State} (h : RecordedInv s) (hOwner : s'.owner = s.owner)
    (hPc : ∀ thread lock, s.pc thread = .acquired lock → s'.pc thread = .acquired lock)
    (hRecorded : ∀ lock thread, s.owner lock = some thread → s.recorded lock = some thread →
      s'.recorded lock = some thread) : RecordedInv s' := by
  intro lock thread hOwn hBehind
  rw [hOwner] at hOwn
  apply hRecorded lock thread hOwn
  apply h lock thread hOwn
  intro hAcquired
  exact hBehind (hPc thread lock hAcquired)

/-- Only the thread that moves can come behind its `lock_after`. -/
theorem setPc_acquired {s : State} {thread other lock : Nat} {pc : Pc}
    (hNot : s.pc thread ≠ .acquired lock) (hAcquired : s.pc other = .acquired lock) :
    (s.setPc thread pc).pc other = .acquired lock := by
  have hNe : other ≠ thread := by
    rintro rfl
    exact hNot hAcquired
  simpa [State.setPc, hNe] using hAcquired

/-- Behind `lock_after` the thread is recorded, and nobody else is affected. -/
theorem recordedInv_lockAfter {sc : Scope} {s : State} (hCons : Consistent sc s)
    (h : RecordedInv s) {thread lock : Nat} {tg : TaskGraph}
    (hPc : s.pc thread = .acquired lock)
    (hSelf : (tg.locks.slot? lock).map LockSlot.thId = some thread)
    (hOther : ∀ m ≠ 0, m ≠ lock → tg.locks.slot? m = s.tg.locks.slot? m) :
    RecordedInv { s.setPc thread .run with tg := tg } := by
  intro m holder hOwn hBehind
  have hOwn' : s.owner m = some holder := hOwn
  by_cases hEq : m = lock
  · subst hEq
    have hHolder := hCons.acquired_owner thread m hPc
    rw [hOwn', Option.some.injEq] at hHolder
    subst hHolder
    exact hSelf
  · have hNonzero : m ≠ 0 := Scope.lock_ne (hCons.owner_scope holder m hOwn').2
    show (tg.locks.slot? m).map LockSlot.thId = some holder
    rw [hOther m hNonzero hEq]
    apply h m holder hOwn'
    exact fun hAcquired => hBehind (setPc_acquired (by simp [hPc, Ne.symm hEq]) hAcquired)

theorem recordedInv_move {sc : Scope} {s s' : State} {a : Action} (hCons : Consistent sc s)
    (h : RecordedInv s) (hMet : NoWipe s a) (hMove : Move sc s a s') : RecordedInv s' := by
  cases hMove with
  | requestNew _ _ hPc _ =>
      exact h.congr rfl (fun _ _ => setPc_acquired (by simp [hPc])) fun _ _ _ hRec => hRec
  | @requestOld thread lock slot tg _ _ hPc hSlot hRecord =>
      refine h.congr rfl (fun _ _ => setPc_acquired (by simp [hPc])) fun m holder _ hRec => ?_
      obtain ⟨old, hOld, hThread⟩ := recorded_eq_some.mp hRec
      show (tg.locks.slot? m).map LockSlot.thId = some holder
      rw [hRecord.slots]
      by_cases hEq : m = lock
      · subst hEq
        rw [hSlot, Option.some.injEq] at hOld
        subst hOld
        simpa using hThread
      · rw [if_neg hEq]
        exact hRec
  | @acquire thread lock hPc hFree =>
      intro m holder hOwn hBehind
      by_cases hEq : m = lock
      -- the new holder is still in front of its `lock_after`
      · subst hEq
        obtain rfl : thread = holder := by simpa using hOwn
        exact absurd (by simp [State.setPc]) hBehind
      · have hOld : s.owner m = some holder := by simpa [hEq] using hOwn
        apply h m holder hOld
        exact fun hAcquired => hBehind (setPc_acquired (by simp [hPc]) hAcquired)
  | @takeSlot thread lock tg hPc hSlot hTake =>
      have hLock : lock ≠ 0 := Scope.lock_ne (hCons.pc_scope thread lock (by rw [hPc]; rfl)).2
      refine recordedInv_lockAfter hCons h hPc ?_ fun m hm hNe => ?_
      · rw [hTake.slots lock hLock, if_pos rfl]
        rfl
      · rw [hTake.slots m hm, if_neg hNe]
  | @changeOwner thread lock slot tg hPc hSlot hChange =>
      refine recordedInv_lockAfter hCons h hPc ?_ fun m hm hNe => ?_
      · rw [hChange.slots lock, if_pos rfl]
        rfl
      · rw [hChange.slots m, if_neg hNe]
  | @release thread lock hPc hOwner =>
      intro m holder hOwn hBehind
      by_cases hEq : m = lock
      · subst hEq
        simp at hOwn
      · have hOld : s.owner m = some holder := by simpa [hEq] using hOwn
        apply h m holder hOld
        intro hAcquired
        apply hBehind
        exact setPc_acquired (by simp [hPc]) hAcquired
  | keepSlot hPc _ _ =>
      exact h.congr rfl (fun _ _ => setPc_acquired (by simp [hPc])) fun _ _ _ hRec => hRec
  | @clearSlot thread lock slot tg hPc hSlot hCount hClear =>
      intro m holder hOwn hBehind
      have hOwn' : s.owner m = some holder := hOwn
      have hStill : s.pc holder ≠ .acquired m := by
        intro hAcquired
        exact hBehind (setPc_acquired (by simp [hPc]) hAcquired)
      -- the guard: behind its `lock_after` nobody holds the emptied mutex
      have hNe : m ≠ lock := by
        rintro rfl
        exact hStill (hMet slot hSlot hCount holder hOwn')
      have hNonzero : m ≠ 0 := Scope.lock_ne (hCons.owner_scope holder m hOwn').2
      show (tg.locks.slot? m).map LockSlot.thId = some holder
      rw [hClear.slots m hNonzero, if_neg hNe]
      exact h m holder hOwn' hStill
  | check search _ => exact h

theorem recordedInv_reach {sc : Scope} {guard : State → Action → Prop} {s : State}
    (hGuard : ∀ s a, guard s a → NoWipe s a) (h : Reach (step sc) guard init s) :
    RecordedInv s := by
  apply reach_invariant h
  · intro lock thread hOwn
    simp [init] at hOwn
  · intro s a s' hCons hInv hMet hMove
    exact recordedInv_move hCons hInv (hGuard s a hMet) hMove

/-- **A wiped record**: an `unlock_after` that finds `degress = 0` while
another thread holds the mutex behind its `lock_after` leaves that mutex
without a slot. -/
theorem wipe_loses_owner {sc : Scope} {s s' : State} {a : Action}
    (hReach : Reachable (step sc) init s) (hWipe : ¬ NoWipe s a)
    (hStep : step sc s a = some s') :
    ∃ lock holder, s'.owner lock = some holder ∧ s'.pc holder ≠ .acquired lock ∧
      s'.recorded lock = none := by
  have hCons := consistent_reach hReach
  have hMove := step_move hCons hStep
  cases hMove with
  | @clearSlot thread lock slot tg hPc hSlot hCount hClear =>
      simp only [NoWipe, not_forall] at hWipe
      obtain ⟨_, _, _, holder, hOwner, hBehind⟩ := hWipe
      have hLock : lock ≠ 0 := Scope.lock_ne (hCons.pc_scope thread lock (by rw [hPc]; rfl)).2
      refine ⟨lock, holder, hOwner, ?_, ?_⟩
      · by_cases hEq : holder = thread
        · simp [State.setPc, hEq]
        · simpa [State.setPc, hEq] using hBehind
      · show (tg.locks.slot? lock).map LockSlot.thId = none
        rw [hClear.slots lock hLock, if_pos rfl]
        rfl
  | @keepSlot thread lock slot hPc hSlot hCount =>
      -- a slot that is kept is no wipe
      refine absurd (fun found hFound hZero => ?_) hWipe
      rw [hSlot, Option.mem_some_iff] at hFound
      subst hFound
      exact absurd hZero hCount
  | _ => exact absurd trivial hWipe

/-- **The recorded owners are accurate** in every quiescent state of a run
without a wipe, and every wipe loses the owner of a held mutex. -/
theorem recorded_owner_accurate_exactly (sc : Scope) :
    (∀ s, Reach (step sc) NoWipe init s → Quiescent s →
      ∀ lock thread, s.owner lock = some thread → s.recorded lock = some thread) ∧
    ∀ s a s', Reachable (step sc) init s → ¬ NoWipe s a → step sc s a = some s' →
      ∃ lock holder, s'.owner lock = some holder ∧ s'.pc holder ≠ .acquired lock ∧
        s'.recorded lock = none := by
  constructor
  · intro s hReach hQuiet lock thread hOwner
    exact recordedInv_reach (fun _ _ hMet => hMet) hReach lock thread hOwner
      (hQuiet thread lock).1
  · intro s a s' hReach hWipe hStep
    exact wipe_loses_owner hReach hWipe hStep

/-- Two threads and two mutexes. -/
def twoThreads : Scope where
  threads := {1, 2}
  locks := {1, 2}
  thread_ne_zero := by decide
  lock_ne_zero := by decide

/-- A hooked `pthread_mutex_lock` that is not disturbed. -/
def lockCall (thread lock : Nat) : List Action :=
  [.lockBefore thread lock, .acquire thread lock, .lockAfter thread lock]

/-- The first thread is done with its unlock before the waiting one goes on. -/
theorem recorded_owner_accurate_exactly_handOver :
    ∃ s, Quiescent s ∧ s.owner 1 = some 2 ∧ s.recorded 1 = some 2 := by
  let actions : List Action := lockCall 1 1 ++
    [.lockBefore 2 1, .release 1 1, .unlockAfter 1 1, .acquire 2 1, .lockAfter 2 1]
  let final := run (guarded (step twoThreads) NoWipe) init actions
  have hFinal : final = some (final.get (by decide)) := by simp
  have hReach : Reach (step twoThreads) NoWipe init (final.get (by decide)) :=
    reach_of_run_guarded hFinal
  have hQuiet : Quiescent (final.get (by decide)) :=
    quiescent_of_threads (consistent_reach hReach.reachable) (by decide)
  have hOwner : (final.get (by decide)).owner 1 = some 2 := by decide
  exact ⟨_, hQuiet, hOwner,
    (recorded_owner_accurate_exactly twoThreads).1 _ hReach hQuiet 1 2 hOwner⟩

/-- The waiting thread takes the mutex and is recorded; then the first thread's
`unlock_after` runs and empties the slot. -/
def wipeTrace : List Action :=
  lockCall 1 1 ++
    [.lockBefore 2 1, .release 1 1, .acquire 2 1, .lockAfter 2 1, .unlockAfter 1 1]

/-- The second thread holds the mutex, nobody is inside a hook, and the mutex
has no slot. -/
theorem held_lock_not_recorded :
    ∃ s, Reachable (step twoThreads) init s ∧ Quiescent s ∧ s.owner 1 = some 2 ∧
      s.recorded 1 = none := by
  have hRun : (run (step twoThreads) init wipeTrace).map (fun s =>
      decide ((∀ thread ∈ twoThreads.threads, (s.pc thread).quiet = true) ∧
        s.owner 1 = some 2 ∧ s.recorded 1 = none)) = some true := by decide
  obtain ⟨s, hReach, hTest⟩ := exists_reachable_of_run hRun
  obtain ⟨hThreads, hRest⟩ := of_decide_eq_true hTest
  exact ⟨s, hReach, quiescent_of_threads (consistent_reach hReach) hThreads, hRest⟩

end DeadlockCheck
end LinuxCppLearn
