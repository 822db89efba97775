import LinuxCppLearn.Library.Counting
import LinuxCppLearn.ThreadPool.HandOut

/-!
# No lost wake-up

`addTask` signals after it has released the mutex, so a queued task may have
its signal still to come, and a signal may be spent on a worker whose task
another worker takes first.  While some worker sleeps, the queue is covered all
the same: each task in it by a signal to come or by a worker on its way to the
queue.

* `unsignalled`, `examiners` — the two sides of the count.
* `WakeInv`, `wakeInv_step` — the count as an invariant.  What carries it past
  the block of a worker is that the queue has been empty since its test.
* `queued_tasks_covered` — the law over every run of the three pools.
-/

namespace LinuxCppLearn
namespace ThreadPool

open StepSystem Counting

variable {n : Nat}

/-- The worker is awake and will look at the queue before it blocks: it runs no
task, has not returned and has not decided to sleep. -/
def WorkerPc.examines : WorkerPc → Bool
  | .top | .test | .woken | .awake => true
  | _ => false

/-- The call has pushed and has not signalled. -/
def CallerPc.owesSignal : CallerPc → Bool
  | .signal => true
  | _ => false

/-- `addTask` calls that have pushed and not yet signalled. -/
noncomputable def unsignalled (s : State n) : Nat :=
  tally CallerPc.owesSignal s.caller

/-- Workers about to examine the queue. -/
noncomputable def examiners (s : State n) : Nat :=
  tally WorkerPc.examines s.worker

/-- Some worker is blocked with no wake-up pending. -/
def Sleeps (s : State n) : Prop :=
  ∃ w, s.worker w = .blocked

structure WakeInv (s : State n) : Prop where
  /-- the mutex is held between the test and the block, so nothing was pushed -/
  asleep_empty : ∀ w, s.worker w = .goingToSleep → s.mTasks = []
  finite : {c | (s.caller c).owesSignal = true}.Finite
  covered : Sleeps s → s.mTasks.length ≤ unsignalled s + examiners s

theorem wakeInv_init : WakeInv (init n) where
  asleep_empty w h := by simp [init] at h
  finite := by simp [init, CallerPc.owesSignal]
  covered := by
    rintro ⟨w, hBlocked⟩
    simp [init] at hBlocked

theorem examiners_update {s t : State n} {w : Fin n} {pc : WorkerPc}
    (hWorker : t.worker = Function.update s.worker w pc) :
    examiners t + (s.worker w).examines.toNat = examiners s + pc.examines.toNat := by
  unfold examiners
  rw [hWorker]
  exact tally_update (Set.toFinite _) w pc

theorem WakeInv.unsignalled_update {s t : State n} (h : WakeInv s) {c : Nat} {pc : CallerPc}
    (hCaller : t.caller = Function.update s.caller c pc) :
    unsignalled t + (s.caller c).owesSignal.toNat = unsignalled s + pc.owesSignal.toNat := by
  unfold unsignalled
  rw [hCaller]
  exact tally_update h.finite c pc

/-- A worker moves to a place other than the block, and the queue does not
grow. -/
theorem WakeInv.moveWorker {s t : State n} {w : Fin n} {pc : WorkerPc} (h : WakeInv s)
    (hWorker : t.worker = Function.update s.worker w pc) (hCaller : t.caller = s.caller)
    (hAsleep : pc = .goingToSleep → t.mTasks = []) (hAwake : pc ≠ .blocked)
    (hTasks : s.mTasks = [] → t.mTasks = [])
    (hCount : t.mTasks.length + (s.worker w).examines.toNat ≤
      s.mTasks.length + pc.examines.toNat ∨ t.mTasks = []) : WakeInv t where
  asleep_empty w' hPc := by
    rw [hWorker] at hPc
    by_cases hEq : w' = w
    · subst hEq
      rw [Function.update_self] at hPc
      exact hAsleep hPc
    · rw [Function.update_of_ne hEq] at hPc
      exact hTasks (h.asleep_empty w' hPc)
  finite := by rw [hCaller]; exact h.finite
  covered := by
    rintro ⟨w', hBlocked⟩
    rw [hWorker] at hBlocked
    have hSleeps : Sleeps s := by
      by_cases hEq : w' = w
      · subst hEq
        rw [Function.update_self] at hBlocked
        exact absurd hBlocked hAwake
      · rw [Function.update_of_ne hEq] at hBlocked
        exact ⟨w', hBlocked⟩
    have hCovered := h.covered hSleeps
    have hMoved := examiners_update hWorker
    have hSame : unsignalled t = unsignalled s := by rw [unsignalled, hCaller, unsignalled]
    rcases hCount with hLess | hEmpty
    · omega
    · simp [hEmpty]

/-- A call of `addTask` moves, and the queue grows by no more than the signals
it owes. -/
theorem WakeInv.moveCaller {s t : State n} {c : Nat} {pc : CallerPc} (h : WakeInv s)
    (hCaller : t.caller = Function.update s.caller c pc) (hWorker : t.worker = s.worker)
    (hAsleep : t.mTasks = s.mTasks ∨ ∀ w, s.worker w ≠ .goingToSleep)
    (hCount : t.mTasks.length + (s.caller c).owesSignal.toNat ≤
      s.mTasks.length + pc.owesSignal.toNat) : WakeInv t where
  asleep_empty w hPc := by
    rw [hWorker] at hPc
    rcases hAsleep with hSame | hNobody
    · rw [hSame]
      exact h.asleep_empty w hPc
    · exact absurd hPc (hNobody w)
  finite := by
    rw [hCaller]
    exact finite_update h.finite c pc
  covered := by
    rintro ⟨w, hBlocked⟩
    rw [hWorker] at hBlocked
    have hCovered := h.covered ⟨w, hBlocked⟩
    have hMoved := h.unsignalled_update hCaller
    have hSame : examiners t = examiners s := by rw [examiners, hWorker, examiners]
    omega

theorem WakeInv.congr {s t : State n} (h : WakeInv s) (hWorker : t.worker = s.worker)
    (hCaller : t.caller = s.caller) (hTasks : t.mTasks = s.mTasks) : WakeInv t where
  asleep_empty w := by rw [hWorker, hTasks]; exact h.asleep_empty w
  finite := by rw [hCaller]; exact h.finite
  covered := by
    rintro ⟨w, hBlocked⟩
    rw [hWorker] at hBlocked
    have hCovered := h.covered ⟨w, hBlocked⟩
    rwa [hTasks, unsignalled, examiners, hCaller, hWorker]

/-- The signal a call owed turns into a worker on its way to the queue. -/
theorem WakeInv.signal {s : State n} {c : Nat} {w : Fin n} (h : WakeInv s)
    (hCaller : s.caller c = .signal) (hBlocked : s.worker w = .blocked) :
    WakeInv ((s.setCaller c .returned).setWorker w .woken) where
  asleep_empty w' hPc := by
    by_cases hEq : w' = w
    · subst hEq
      simp [State.setWorker] at hPc
    · exact h.asleep_empty w' (by simpa [State.setWorker, State.setCaller, hEq] using hPc)
  finite := finite_update h.finite c .returned
  covered := by
    intro _
    have hCovered := h.covered ⟨w, hBlocked⟩
    let t := (s.setCaller c .returned).setWorker w .woken
    have hSignals : unsignalled t + (s.caller c).owesSignal.toNat =
        unsignalled s + CallerPc.returned.owesSignal.toNat := h.unsignalled_update rfl
    have hWorkers : examiners t + (s.worker w).examines.toNat =
        examiners s + WorkerPc.woken.examines.toNat := examiners_update rfl
    simp only [hCaller, hBlocked, CallerPc.owesSignal, WorkerPc.examines, Bool.toNat_true,
      Bool.toNat_false] at hSignals hWorkers
    show s.mTasks.length ≤ unsignalled t + examiners t
    omega

/-- The worker holds the mutex, so no call of `addTask` pushes meanwhile. -/
theorem MutexInv.nobody_falls_asleep {s : State n} {c : Nat} (h : MutexInv s)
    (hPush : s.caller c = .push) (w : Fin n) : s.worker w ≠ .goingToSleep := by
  intro hPc
  have hWorker : s.mutex = some (.worker w) := h.worker_at hPc rfl
  have hCaller : s.mutex = some (.caller c) := h.caller_at hPush rfl
  simp [hWorker] at hCaller

/-- **The queue stays covered in every step**, in all three pools. -/
theorem wakeInv_step (v : Variant) {callable : Nat → Bool} {s s' : State n} {a : Action n}
    (h : WakeInv s) (hMutex : MutexInv s) (hStep : step v.impl callable s a = some s') :
    WakeInv s' := by
  obtain ⟨⟨_, hEnabled⟩, rfl⟩ := step_eq_some.mp hStep
  cases a with
  | workerLock w =>
      rcases hEnabled.2 with hPc | hPc <;>
        exact h.moveWorker rfl rfl (by simp) (by simp) id
          (.inl (by simp [effect, hPc, WorkerPc.examines, State.setWorker]))
  | workerTest w =>
      have hPc : s.worker w = .test := hEnabled
      simp only [effect, Variant.impl_keepsWaiting]
      split
      -- a worker decides to sleep only on an empty queue
      · rename_i hWaits
        have hEmpty : s.mTasks = [] := by
          rw [Bool.and_eq_true, List.isEmpty_iff] at hWaits
          exact hWaits.2
        exact h.moveWorker rfl rfl (fun _ => hEmpty) (by simp) id (.inr hEmpty)
      · exact h.moveWorker rfl rfl (by simp) (by simp) id
          (.inl (by simp [hPc, WorkerPc.examines, State.setWorker]))
  | workerBlock w =>
      have hEmpty : s.mTasks = [] := h.asleep_empty w hEnabled
      refine ⟨fun _ _ => hEmpty, h.finite, fun _ => ?_⟩
      show s.mTasks.length ≤ _
      simp [hEmpty]
  | spuriousWake w =>
      have hPc : s.worker w = .blocked := hEnabled
      exact h.moveWorker rfl rfl (by simp) (by simp) id
        (.inl (by simp [effect, hPc, WorkerPc.examines, State.setWorker]))
  | workerTake w =>
      have hPc : s.worker w = .awake := hEnabled
      simp only [effect, Variant.impl_exits]
      split
      -- a worker returns only with the queue empty
      · rename_i hExits
        have hEmpty : s.mTasks = [] := by
          rw [Bool.and_eq_true, List.isEmpty_iff] at hExits
          exact hExits.2
        exact h.moveWorker rfl rfl (by simp) (by simp) id (.inr hEmpty)
      · split
        · exact h
        · rename_i task rest hTasks
          exact h.moveWorker rfl rfl (by simp) (by simp) (by simp [hTasks])
            (.inl (by simp [hPc, hTasks, WorkerPc.examines]))
  | workerRun w task =>
      have hPc : s.worker w = .running task := hEnabled
      simp only [effect]
      split
      · exact h.moveWorker rfl rfl (by simp) (by simp) id
          (.inl (by simp [hPc, WorkerPc.examines, State.setWorker]))
      · exact h.moveWorker rfl rfl (by simp) (by simp) id
          (.inl (by simp [hPc, WorkerPc.examines, State.setWorker]))
      · exact h.congr rfl rfl rfl
  | callerLock c =>
      exact h.moveCaller rfl rfl (.inl rfl)
        (by simp [effect, hEnabled.2, CallerPc.owesSignal, State.setCaller])
  | callerTest c =>
      have hPc : s.caller c = .test := hEnabled
      simp only [effect]
      split <;> exact h.moveCaller rfl rfl (.inl rfl)
        (by simp [hPc, CallerPc.owesSignal, State.setCaller])
  | callerPush c =>
      have hPc : s.caller c = .push := hEnabled
      exact h.moveCaller rfl rfl (.inr (hMutex.nobody_falls_asleep hPc))
        (by simp [effect, hPc, CallerPc.owesSignal])
  | callerPushThrows c =>
      have hPc : s.caller c = .push := hEnabled
      simp only [effect]
      split <;> exact h.moveCaller rfl rfl (.inl rfl)
        (by simp [hPc, CallerPc.owesSignal, State.setCaller])
  | callerSignal c woken =>
      cases woken with
      -- a signal that nobody hears finds nobody asleep
      | none =>
          refine ⟨h.asleep_empty, finite_update h.finite c .returned, ?_⟩
          rintro ⟨w, hBlocked⟩
          exact absurd hBlocked (hEnabled.2 w)
      | some w => exact h.signal hEnabled.1 hEnabled.2
  | dtorStop => exact h.congr rfl rfl rfl
  | dtorBroadcast =>
      refine ⟨fun w hPc => ?_, h.finite, ?_⟩
      · simp only [effect, wakeAll] at hPc
        split at hPc
        · simp at hPc
        · exact h.asleep_empty w hPc
      · rintro ⟨w, hBlocked⟩
        simp only [effect, wakeAll] at hBlocked
        split at hBlocked
        · simp at hBlocked
        · contradiction
  | dtorJoin => exact h.congr rfl rfl rfl

theorem wakeInv_reach (v : Variant) {callable : Nat → Bool} {s : State n}
    (h : Reachable (step v.impl callable) (init n) s) : MutexInv s ∧ WakeInv s := by
  refine h.invariant (P := fun s => MutexInv s ∧ WakeInv s) ⟨mutexInv_init, wakeInv_init⟩ ?_
  rintro s a s' ⟨hMutex, hWake⟩ _ hStep
  exact ⟨mutexInv_step hMutex hStep, wakeInv_step v hWake hMutex hStep⟩

/-- **No task waits while enough workers sleep**: in every reachable state with
a sleeping worker, each queued task has a signal still to come or a worker about
to examine the queue. -/
theorem queued_tasks_covered (v : Variant) (callable : Nat → Bool) {s : State n}
    (hReach : Reachable (step v.impl callable) (init n) s)
    (hSleeps : ∃ w, s.worker w = .blocked) :
    s.mTasks.length ≤
      {c | s.caller c = .signal}.ncard + {w | (s.worker w).examines = true}.ncard := by
  have hCovered := (wakeInv_reach v hReach).2.covered hSleeps
  have hSignals : {c | (s.caller c).owesSignal = true} = {c | s.caller c = .signal} := by
    ext c
    simp only [Set.mem_ofPred_eq]
    cases s.caller c <;> simp [CallerPc.owesSignal]
  rwa [unsignalled, examiners, tally, tally, hSignals] at hCovered

/-- Two workers block; two tasks are pushed and one of them is signalled. -/
def halfSignalledTrace (w v : Fin n) : List (Action n) :=
  [.workerLock w, .workerTest w, .workerBlock w, .workerLock v, .workerTest v, .workerBlock v,
    .callerLock 0, .callerTest 0, .callerPush 0, .callerSignal 0 (some v),
    .callerLock 1, .callerTest 1, .callerPush 1]

theorem queued_tasks_covered_halfSignalledTrace :
    ∃ s : State 2, s.mTasks = [0, 1] ∧ s.worker 0 = .blocked ∧
      2 ≤ {c | s.caller c = .signal}.ncard + {w | (s.worker w).examines = true}.ncard := by
  let final := run (step cpp11 fun _ => true) (init 2) (halfSignalledTrace 0 1)
  have hFinal : final = some (final.get (by decide)) := by simp
  have hReach : Reachable (step Variant.cpp11.impl fun _ => true) (init 2)
      (final.get (by decide)) := reachable_of_run hFinal
  have hTasks : (final.get (by decide)).mTasks = [0, 1] := by decide
  have hBlocked : (final.get (by decide)).worker 0 = .blocked := by decide
  have hLaw := queued_tasks_covered .cpp11 (fun _ => true) hReach ⟨0, hBlocked⟩
  rw [hTasks] at hLaw
  exact ⟨_, hTasks, hBlocked, hLaw⟩

end ThreadPool
end LinuxCppLearn
