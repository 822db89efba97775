import LinuxCppLearn.Library.Quiescence
import LinuxCppLearn.ThreadPool.Shutdown
import LinuxCppLearn.ThreadPool.Wakeup

/-!
# The pools come to rest

The environment of a pool calls `addTask` and the destructor, and spurious
wake-ups and failing insertions are its doing too.  Everything else the pool does
on its own, and it cannot go on with that for ever: each task is taken once, each
signal wakes one worker, and a worker that finds nothing blocks.

* `Own` — the steps of the pool itself; `work` — how many of them are left.
* `pool_drains` — when they have come to an end, every accepted task has been
  executed and every worker is blocked or has returned.
* `destructor_returns` — if the broadcast does not come between the test and the
  block of a worker, the destructor returns then.
-/

namespace LinuxCppLearn
namespace ThreadPool

open StepSystem Quiescence

variable {n : Nat}

/-- The pool does this on its own. -/
def Own : Action n → Prop
  | .callerLock _ | .spuriousWake _ | .callerPushThrows _ | .dtorStop => False
  | _ => True

instance (a : Action n) : Decidable (Own a) := by
  induction a using Action.casesOn <;> unfold Own <;> infer_instance

/-- An insertion that throws leaves the mutex unlocked. -/
def Unlocks (v : Variant) (_ : State n) (a : Action n) : Prop :=
  ∀ c, a = .callerPushThrows c → v.impl.unlocksOnThrow = true

/-! ## Who holds the mutex -/

/-- The owner of the mutex is inside a critical section. -/
structure OwnerInv (s : State n) : Prop where
  worker : ∀ w, s.mutex = some (.worker w) → (s.worker w).holds = true
  caller : ∀ c, s.mutex = some (.caller c) → (s.caller c).holds = true

theorem ownerInv_init : OwnerInv (init n) where
  worker w h := by simp [init] at h
  caller c h := by simp [init] at h

/-- A worker moves, with the mutex or without it. -/
theorem OwnerInv.moveWorker {s t : State n} {w : Fin n} {pc : WorkerPc} (h : OwnerInv s)
    (hWorker : t.worker = Function.update s.worker w pc) (hCaller : t.caller = s.caller)
    (hMutex : t.mutex = none ∨ (t.mutex = some (.worker w) ∧ pc.holds = true) ∨
      (t.mutex = s.mutex ∧ (pc.holds = true ∨ (s.worker w).holds = false))) : OwnerInv t := by
  constructor
  · intro w' hOwner
    rw [hWorker]
    by_cases hEq : w' = w
    · subst hEq
      rw [Function.update_self]
      rcases hMutex with hFree | ⟨-, hHolds⟩ | ⟨hSame, hHolds | hOut⟩
      · simp [hFree] at hOwner
      · exact hHolds
      · exact hHolds
      · have hIn := h.worker w' (hSame ▸ hOwner)
        simp [hOut] at hIn
    · rw [Function.update_of_ne hEq]
      rcases hMutex with hFree | ⟨hOwn, -⟩ | ⟨hSame, -⟩
      · simp [hFree] at hOwner
      · rw [hOwn] at hOwner
        simp only [Option.some.injEq, Holder.worker.injEq] at hOwner
        exact absurd hOwner.symm hEq
      · exact h.worker w' (hSame ▸ hOwner)
  · intro c hOwner
    rw [hCaller]
    rcases hMutex with hFree | ⟨hOwn, -⟩ | ⟨hSame, -⟩
    · simp [hFree] at hOwner
    · simp [hOwn] at hOwner
    · exact h.caller c (hSame ▸ hOwner)

/-- A call of `addTask` moves. -/
theorem OwnerInv.moveCaller {s t : State n} {c : Nat} {pc : CallerPc} (h : OwnerInv s)
    (hCaller : t.caller = Function.update s.caller c pc) (hWorker : t.worker = s.worker)
    (hMutex : t.mutex = none ∨ (t.mutex = some (.caller c) ∧ pc.holds = true) ∨
      (t.mutex = s.mutex ∧ (pc.holds = true ∨ (s.caller c).holds = false))) : OwnerInv t := by
  constructor
  · intro w hOwner
    rw [hWorker]
    rcases hMutex with hFree | ⟨hOwn, -⟩ | ⟨hSame, -⟩
    · simp [hFree] at hOwner
    · simp [hOwn] at hOwner
    · exact h.worker w (hSame ▸ hOwner)
  · intro c' hOwner
    rw [hCaller]
    by_cases hEq : c' = c
    · subst hEq
      rw [Function.update_self]
      rcases hMutex with hFree | ⟨-, hHolds⟩ | ⟨hSame, hHolds | hOut⟩
      · simp [hFree] at hOwner
      · exact hHolds
      · exact hHolds
      · have hIn := h.caller c' (hSame ▸ hOwner)
        simp [hOut] at hIn
    · rw [Function.update_of_ne hEq]
      rcases hMutex with hFree | ⟨hOwn, -⟩ | ⟨hSame, -⟩
      · simp [hFree] at hOwner
      · rw [hOwn] at hOwner
        simp only [Option.some.injEq, Holder.caller.injEq] at hOwner
        exact absurd hOwner.symm hEq
      · exact h.caller c' (hSame ▸ hOwner)

/-- **The owner is inside**, kept by every step that does not leave the mutex
locked behind an exception. -/
theorem ownerInv_step {v : Variant} {callable : Nat → Bool} {s s' : State n} {a : Action n}
    (h : OwnerInv s) (hUnlocks : Unlocks v s a) (hStep : step v.impl callable s a = some s') :
    OwnerInv s' := by
  obtain ⟨⟨_, hEnabled⟩, rfl⟩ := step_eq_some.mp hStep
  cases a with
  | workerLock w => exact h.moveWorker rfl rfl (.inr (.inl ⟨rfl, rfl⟩))
  | workerTest w =>
      simp only [effect]
      split <;> exact h.moveWorker rfl rfl (.inr (.inr ⟨rfl, .inl rfl⟩))
  | workerBlock w => exact h.moveWorker rfl rfl (.inl rfl)
  | spuriousWake w =>
      have hPc : s.worker w = .blocked := hEnabled
      exact h.moveWorker rfl rfl (.inr (.inr ⟨rfl, .inr (by rw [hPc]; rfl)⟩))
  | workerTake w =>
      simp only [effect]
      split
      · exact h.moveWorker rfl rfl (.inl rfl)
      · split
        · exact h
        · exact h.moveWorker rfl rfl (.inl rfl)
  | workerRun w task =>
      have hPc : s.worker w = .running task := hEnabled
      have hOut : (s.worker w).holds = false := by
        rw [hPc]
        rfl
      simp only [effect]
      split
      · exact h.moveWorker rfl rfl (.inr (.inr ⟨rfl, .inr hOut⟩))
      · exact h.moveWorker rfl rfl (.inr (.inr ⟨rfl, .inr hOut⟩))
      · exact ⟨h.worker, h.caller⟩
  | callerLock c => exact h.moveCaller rfl rfl (.inr (.inl ⟨rfl, rfl⟩))
  | callerTest c =>
      simp only [effect]
      split
      · exact h.moveCaller rfl rfl (.inr (.inr ⟨rfl, .inl rfl⟩))
      · exact h.moveCaller rfl rfl (.inl rfl)
      · exact h.moveCaller rfl rfl (.inl rfl)
  | callerPush c => exact h.moveCaller rfl rfl (.inl rfl)
  | callerPushThrows c =>
      simp only [effect, hUnlocks c rfl, if_true]
      exact h.moveCaller rfl rfl (.inl rfl)
  | callerSignal c woken =>
      cases woken with
      | none =>
          have hOut : (s.caller c).holds = false := by
            rw [hEnabled.1]
            rfl
          exact h.moveCaller rfl rfl (.inr (.inr ⟨rfl, .inr hOut⟩))
      | some w =>
          have hOut : (s.caller c).holds = false := by
            rw [hEnabled.1]
            rfl
          have hCalled : OwnerInv (s.setCaller c .returned) :=
            h.moveCaller rfl rfl (.inr (.inr ⟨rfl, .inr hOut⟩))
          have hBlocked : ((s.setCaller c .returned).worker w).holds = false := by
            show (s.worker w).holds = false
            rw [hEnabled.2]
            rfl
          exact hCalled.moveWorker rfl rfl (.inr (.inr ⟨rfl, .inr hBlocked⟩))
  | dtorStop => exact ⟨h.worker, h.caller⟩
  | dtorBroadcast =>
      refine ⟨fun w hOwner => ?_, h.caller⟩
      show (wakeAll s.worker w).holds = true
      rw [wakeAll_holds]
      exact h.worker w hOwner
  | dtorJoin => exact ⟨h.worker, h.caller⟩

/-! ## Behind the wait loop -/

/-- A worker behind the wait loop has a task to take or a reason to return. -/
def AwakeInv (s : State n) : Prop :=
  ∀ w, s.worker w = .awake → s.mStop = true ∨ s.mTasks ≠ []

theorem awake_of_update {worker : Fin n → WorkerPc} {w w' : Fin n} {pc : WorkerPc}
    (hPc : pc ≠ .awake) (h : Function.update worker w pc w' = .awake) : worker w' = .awake := by
  by_cases hEq : w' = w
  · subst hEq
    rw [Function.update_self] at h
    exact absurd h hPc
  · rwa [Function.update_of_ne hEq] at h

theorem AwakeInv.congr {s t : State n} (h : AwakeInv s)
    (hWorker : ∀ w, t.worker w = .awake → s.worker w = .awake)
    (hStop : s.mStop = true → t.mStop = true) (hTasks : s.mTasks ≠ [] → t.mTasks ≠ []) :
    AwakeInv t :=
  fun w hPc => (h w (hWorker w hPc)).imp hStop hTasks

theorem awakeInv_step (v : Variant) {callable : Nat → Bool} {s s' : State n} {a : Action n}
    (h : AwakeInv s) (hMutex : MutexInv s) (hStep : step v.impl callable s a = some s') :
    AwakeInv s' := by
  obtain ⟨⟨_, hEnabled⟩, rfl⟩ := step_eq_some.mp hStep
  cases a with
  | workerLock w => exact h.congr (fun _ => awake_of_update (by simp)) id id
  | workerTest w =>
      simp only [effect, Variant.impl_keepsWaiting]
      split
      · exact h.congr (fun _ => awake_of_update (by simp)) id id
      · rename_i hGoesOn
        intro w' _
        have hReason : s.mStop = true ∨ s.mTasks.isEmpty = false := by
          cases hStop : s.mStop with
          | true => exact .inl rfl
          | false =>
              right
              simpa [hStop] using hGoesOn
        exact hReason.imp_right fun hSome => by simpa [State.setWorker] using hSome
  | workerBlock w => exact h.congr (fun _ => awake_of_update (by simp)) id id
  | spuriousWake w => exact h.congr (fun _ => awake_of_update (by simp)) id id
  | workerTake w =>
      have hOwn : s.mutex = some (.worker w) := hMutex.worker_at hEnabled rfl
      simp only [effect]
      split
      · exact h.congr (fun _ => awake_of_update (by simp)) id id
      · split
        · exact h
        -- the worker that pops is the only one behind the wait loop
        · intro w' hPc
          have hOld : s.worker w' = .awake := awake_of_update (by simp) hPc
          have hOwn' : s.mutex = some (.worker w') := hMutex.worker_at hOld rfl
          obtain rfl : w = w' := by simpa [hOwn] using hOwn'
          simp [State.setWorker] at hPc
  | workerRun w task =>
      simp only [effect]
      split
      · exact h.congr (fun _ => awake_of_update (by simp)) id id
      · exact h.congr (fun _ => awake_of_update (by simp)) id id
      · exact h.congr (fun _ => id) id id
  | callerLock c => exact h.congr (fun _ => id) id id
  | callerTest c =>
      simp only [effect]
      split <;> exact h.congr (fun _ => id) id id
  | callerPush c => exact h.congr (fun _ => id) id fun _ => by simp [effect]
  | callerPushThrows c =>
      simp only [effect]
      split <;> exact h.congr (fun _ => id) id id
  | callerSignal c woken =>
      cases woken with
      | none => exact h.congr (fun _ => id) id id
      | some w => exact h.congr (fun _ => awake_of_update (by simp)) id id
  | dtorStop => exact h.congr (fun _ => id) (fun _ => rfl) id
  | dtorBroadcast =>
      refine h.congr (fun w hPc => ?_) id id
      simp only [effect, wakeAll] at hPc
      split at hPc
      · simp at hPc
      · exact hPc
  | dtorJoin => exact h.congr (fun _ => id) id id

/-! ## The work that is left -/

/-- The steps of a worker until it blocks or returns, if it finds no task. -/
def WorkerPc.work : WorkerPc → Nat
  | .running _ => 4
  | .top | .woken => 3
  | .test => 2
  | .goingToSleep | .awake => 1
  | .blocked | .exited => 0

/-- Those of a call, with those of the worker it wakes and of its task. -/
def CallerPc.work : CallerPc → Nat
  | .test => 10
  | .push => 9
  | .signal => 4
  | .ready | .returned | .threw | .refused => 0

/-- Those of the destructor, with those of the workers it wakes. -/
def DtorPc.work (n : Nat) : DtorPc → Nat
  | .stopSet => 3 * n + 2
  | .joining => 1
  | .notCalled | .finished => 0

/-- A bound on the steps that the pool can take on its own. -/
noncomputable def work (s : State n) : Nat :=
  totalWeight WorkerPc.work s.worker + 4 * s.mTasks.length + totalWeight CallerPc.work s.caller +
    s.dtor.work n

theorem worker_work_update {s t : State n} {w : Fin n} {pc : WorkerPc}
    (hWorker : t.worker = Function.update s.worker w pc) :
    totalWeight WorkerPc.work t.worker + (s.worker w).work =
      totalWeight WorkerPc.work s.worker + pc.work := by
  rw [hWorker]
  exact totalWeight_update (Set.toFinite _) w pc

/-- Only finitely many calls are under way. -/
def CallersFinite (s : State n) : Prop :=
  (Busy CallerPc.work s.caller).Finite

theorem CallersFinite.work_update {s t : State n} (h : CallersFinite s) {c : Nat} {pc : CallerPc}
    (hCaller : t.caller = Function.update s.caller c pc) :
    totalWeight CallerPc.work t.caller + (s.caller c).work =
      totalWeight CallerPc.work s.caller + pc.work := by
  rw [hCaller]
  exact totalWeight_update h c pc

theorem callersFinite_init : CallersFinite (init n) := by
  have hNone : Busy CallerPc.work (init n).caller = ∅ := by
    ext c
    simp [Busy, init, CallerPc.work]
  unfold CallersFinite
  rw [hNone]
  exact Set.finite_empty

theorem CallersFinite.moveCaller {s t : State n} (h : CallersFinite s) {c : Nat} {pc : CallerPc}
    (hCaller : t.caller = Function.update s.caller c pc) : CallersFinite t := by
  unfold CallersFinite
  rw [hCaller]
  exact Busy.update h c pc

theorem CallersFinite.congr {s t : State n} (h : CallersFinite s) (hCaller : t.caller = s.caller) :
    CallersFinite t := by
  unfold CallersFinite
  rw [hCaller]
  exact h

theorem callersFinite_step {impl : Impl} {callable : Nat → Bool} {s s' : State n} {a : Action n}
    (h : CallersFinite s) (hStep : step impl callable s a = some s') : CallersFinite s' := by
  obtain ⟨-, rfl⟩ := step_eq_some.mp hStep
  cases a with
  | callerLock c => exact h.moveCaller rfl
  | callerTest c =>
      simp only [effect]
      split <;> exact h.moveCaller rfl
  | callerPush c => exact h.moveCaller rfl
  | callerPushThrows c =>
      simp only [effect]
      split <;> exact h.moveCaller rfl
  | callerSignal c woken => cases woken <;> exact h.moveCaller rfl
  | workerTest w =>
      simp only [effect]
      split <;> exact h.congr rfl
  | workerTake w =>
      simp only [effect]
      split
      · exact h.congr rfl
      · split <;> exact h.congr rfl
  | workerRun w task =>
      simp only [effect]
      split <;> exact h.congr rfl
  | workerLock w => exact h.congr rfl
  | workerBlock w => exact h.congr rfl
  | spuriousWake w => exact h.congr rfl
  | dtorStop => exact h.congr rfl
  | dtorBroadcast => exact h.congr rfl
  | dtorJoin => exact h.congr rfl

theorem wakeAll_work (worker : Fin n → WorkerPc) (w : Fin n) :
    (wakeAll worker w).work ≤ (worker w).work + 3 := by
  unfold wakeAll
  split
  · simp [WorkerPc.work]
  · omega

/-- A worker moves, and the queue does not grow. -/
theorem work_moveWorker {s t : State n} {w : Fin n} {pc : WorkerPc}
    (hWorker : t.worker = Function.update s.worker w pc) (hCaller : t.caller = s.caller)
    (hDtor : t.dtor = s.dtor)
    (hLess : pc.work + 4 * t.mTasks.length < (s.worker w).work + 4 * s.mTasks.length) :
    work t < work s := by
  have hMoved := worker_work_update hWorker
  unfold work
  rw [hCaller, hDtor]
  omega

/-- A call of `addTask` moves. -/
theorem work_moveCaller {s t : State n} {c : Nat} {pc : CallerPc} (h : CallersFinite s)
    (hCaller : t.caller = Function.update s.caller c pc) (hWorker : t.worker = s.worker)
    (hDtor : t.dtor = s.dtor)
    (hLess : pc.work + 4 * t.mTasks.length < (s.caller c).work + 4 * s.mTasks.length) :
    work t < work s := by
  have hMoved := h.work_update hCaller
  unfold work
  rw [hWorker, hDtor]
  omega

/-- **Every step of the pool itself lowers the work.** -/
theorem work_step (v : Variant) {callable : Nat → Bool} (hCallable : ∀ c, callable c = true)
    {s s' : State n} {a : Action n} (hFinite : CallersFinite s) (hAwake : AwakeInv s)
    (hOwn : Own a) (hStep : step v.impl callable s a = some s') : work s' < work s := by
  obtain ⟨⟨_, hEnabled⟩, rfl⟩ := step_eq_some.mp hStep
  cases a with
  | workerLock w =>
      refine work_moveWorker rfl rfl rfl ?_
      rcases hEnabled.2 with hPc | hPc <;> simp [effect, hPc, WorkerPc.work, State.setWorker]
  | workerTest w =>
      have hPc : s.worker w = .test := hEnabled
      simp only [effect]
      split <;> exact work_moveWorker rfl rfl rfl (by simp [hPc, WorkerPc.work, State.setWorker])
  | workerBlock w =>
      have hPc : s.worker w = .goingToSleep := hEnabled
      exact work_moveWorker rfl rfl rfl (by simp [effect, hPc, WorkerPc.work, State.setWorker])
  | workerTake w =>
      have hPc : s.worker w = .awake := hEnabled
      simp only [effect, Variant.impl_exits]
      split
      · exact work_moveWorker rfl rfl rfl (by simp [hPc, WorkerPc.work, State.setWorker])
      · rename_i hStays
        split
        · rename_i hEmpty
          rcases hAwake w hPc with hStop | hSome
          · simp [hStop, hEmpty] at hStays
          · exact absurd hEmpty hSome
        · rename_i task rest hTasks
          refine work_moveWorker rfl rfl rfl ?_
          simp only [hPc, hTasks, WorkerPc.work, List.length_cons]
          omega
  | workerRun w task =>
      have hPc : s.worker w = .running task := hEnabled
      simp only [effect, hCallable, Variant.impl_invoke_callable]
      exact work_moveWorker rfl rfl rfl (by simp [hPc, WorkerPc.work, State.setWorker])
  | callerTest c =>
      have hPc : s.caller c = .test := hEnabled
      simp only [effect]
      split <;> exact work_moveCaller hFinite rfl rfl rfl
        (by simp [hPc, CallerPc.work, State.setCaller])
  | callerPush c =>
      have hPc : s.caller c = .push := hEnabled
      refine work_moveCaller hFinite rfl rfl rfl ?_
      simp only [effect, hPc, CallerPc.work, List.length_append, List.length_cons, List.length_nil]
      omega
  | callerSignal c woken =>
      cases woken with
      | none =>
          exact work_moveCaller hFinite rfl rfl rfl
            (by simp [effect, hEnabled.1, CallerPc.work, State.setCaller])
      | some w =>
          have hCall := hFinite.work_update (t := s.setCaller c .returned) rfl
          have hWake := worker_work_update
            (t := (s.setCaller c .returned).setWorker w .woken) (s := s) rfl
          rw [hEnabled.1] at hCall
          rw [hEnabled.2] at hWake
          simp only [CallerPc.work, WorkerPc.work] at hCall hWake
          unfold work
          show totalWeight WorkerPc.work ((s.setCaller c .returned).setWorker w .woken).worker +
            4 * s.mTasks.length + totalWeight CallerPc.work (s.setCaller c .returned).caller +
            s.dtor.work n < _
          omega
  | dtorBroadcast =>
      have hPc : s.dtor = .stopSet := hEnabled
      have hWoken := totalWeight_le (wakeAll_work s.worker)
      rw [Fintype.card_fin] at hWoken
      unfold work
      simp only [effect, hPc, DtorPc.work]
      omega
  | dtorJoin =>
      have hPc : s.dtor = .joining := hEnabled.1
      unfold work
      simp only [effect, hPc, DtorPc.work]
      omega
  | callerLock c | spuriousWake w | callerPushThrows c | dtorStop => exact hOwn.elim

/-! ## States at rest -/

structure PoolInv (v : Variant) (s : State n) : Prop where
  mutex : MutexInv s
  owner : OwnerInv s
  awake : AwakeInv s
  wake : WakeInv s
  queue : QueueInv s
  run : RunInv s
  exit : v ≠ .echo → ExitInv s
  finite : CallersFinite s
  alive : s.terminated = false

theorem terminated_step (v : Variant) {callable : Nat → Bool} (hCallable : ∀ c, callable c = true)
    {s s' : State n} {a : Action n} (hStep : step v.impl callable s a = some s') :
    s'.terminated = false := by
  obtain ⟨⟨hAlive, -⟩, rfl⟩ := step_eq_some.mp hStep
  cases a with
  | workerTest w =>
      simp only [effect]
      split <;> exact hAlive
  | workerTake w =>
      simp only [effect]
      split
      · exact hAlive
      · split <;> exact hAlive
  | workerRun w task =>
      simp only [effect, hCallable, Variant.impl_invoke_callable]
      exact hAlive
  | callerTest c =>
      simp only [effect]
      split <;> exact hAlive
  | callerPushThrows c =>
      simp only [effect]
      split <;> exact hAlive
  | callerSignal c woken => cases woken <;> exact hAlive
  | workerLock w | workerBlock w | spuriousWake w => exact hAlive
  | callerLock c | callerPush c => exact hAlive
  | dtorStop | dtorBroadcast | dtorJoin => exact hAlive

theorem Variant.refuses_of_ne {v : Variant} (hv : v ≠ .echo) : v = .cpp11 ∨ v = .raw := by
  cases v with
  | cpp11 => exact .inl rfl
  | raw => exact .inr rfl
  | echo => exact absurd rfl hv

theorem poolInv_init (v : Variant) : PoolInv v (init n) where
  mutex := mutexInv_init
  owner := ownerInv_init
  awake w h := by simp [init] at h
  wake := wakeInv_init
  queue := queueInv_init
  run := runInv_init
  exit _ := exitInv_init
  finite := callersFinite_init
  alive := rfl

variable {v : Variant} {callable : Nat → Bool} {s s' : State n} {a : Action n}

theorem poolInv_step (hCallable : ∀ c, callable c = true) (h : PoolInv v s)
    (hUnlocks : Unlocks v s a) (hStep : step v.impl callable s a = some s') : PoolInv v s' where
  mutex := mutexInv_step h.mutex hStep
  owner := ownerInv_step h.owner hUnlocks hStep
  awake := awakeInv_step v h.awake h.mutex hStep
  wake := wakeInv_step v h.wake h.mutex hStep
  queue := queueInv_step h.queue hStep
  run := runInv_step v hCallable h.run h.queue hStep
  exit hv := exitInv_step (Variant.refuses_of_ne hv) (h.exit hv) h.mutex hStep
  finite := callersFinite_step h.finite hStep
  alive := terminated_step v hCallable hStep

theorem Own.unlocks (hOwn : Own a) : Unlocks v s a := by
  rintro c rfl
  exact hOwn.elim

/-- **The pool's own steps run out.** -/
theorem pool_runsOut (hCallable : ∀ c, callable c = true) :
    RunsOut (step (n := n) v.impl callable) Own (PoolInv v) work where
  keeps _ _ _ hInv hOwn hStep := poolInv_step hCallable hInv hOwn.unlocks hStep
  less _ _ _ hInv hOwn hStep := work_step v hCallable hInv.finite hInv.awake hOwn hStep

/-- Nothing can be done by the pool on its own. -/
theorem not_enabled (h : PoolInv v s) (hStuck : Stuck (step v.impl callable) Own s)
    (hOwn : Own a) : ¬ Enabled s a := by
  intro hEnabled
  have hNone := hStuck a hOwn
  unfold step at hNone
  rw [if_pos ⟨h.alive, hEnabled⟩] at hNone
  simp at hNone

/-- Somebody who holds the mutex can go on. -/
theorem PoolInv.mutex_free (h : PoolInv v s) (hStuck : Stuck (step v.impl callable) Own s) :
    s.mutex = none := by
  cases hMutex : s.mutex with
  | none => rfl
  | some owner =>
      cases owner with
      | worker w =>
          have hHolds := h.owner.worker w hMutex
          cases hPc : s.worker w with
          | test => exact (not_enabled (a := .workerTest w) h hStuck trivial hPc).elim
          | goingToSleep => exact (not_enabled (a := .workerBlock w) h hStuck trivial hPc).elim
          | awake => exact (not_enabled (a := .workerTake w) h hStuck trivial hPc).elim
          | _ => simp [hPc, WorkerPc.holds] at hHolds
      | caller c =>
          have hHolds := h.owner.caller c hMutex
          cases hPc : s.caller c with
          | test => exact (not_enabled (a := .callerTest c) h hStuck trivial hPc).elim
          | push => exact (not_enabled (a := .callerPush c) h hStuck trivial hPc).elim
          | _ => simp [hPc, CallerPc.holds] at hHolds

theorem PoolInv.workers_rest (h : PoolInv v s) (hStuck : Stuck (step v.impl callable) Own s)
    (w : Fin n) : s.worker w = .blocked ∨ s.worker w = .exited := by
  have hFree := h.mutex_free hStuck
  cases hPc : s.worker w with
  | blocked => exact .inl rfl
  | exited => exact .inr rfl
  | top => exact (not_enabled (a := .workerLock w) h hStuck trivial ⟨hFree, .inl hPc⟩).elim
  | woken => exact (not_enabled (a := .workerLock w) h hStuck trivial ⟨hFree, .inr hPc⟩).elim
  | test => exact (not_enabled (a := .workerTest w) h hStuck trivial hPc).elim
  | goingToSleep => exact (not_enabled (a := .workerBlock w) h hStuck trivial hPc).elim
  | awake => exact (not_enabled (a := .workerTake w) h hStuck trivial hPc).elim
  | running task => exact (not_enabled (a := .workerRun w task) h hStuck trivial hPc).elim

/-- The call has not begun, or has come to its end. -/
def CallerPc.outside : CallerPc → Bool
  | .ready | .returned | .threw | .refused => true
  | .test | .push | .signal => false

theorem PoolInv.callers_rest (h : PoolInv v s) (hStuck : Stuck (step v.impl callable) Own s)
    (c : Nat) : (s.caller c).outside = true := by
  cases hPc : s.caller c with
  | test => exact (not_enabled (a := .callerTest c) h hStuck trivial hPc).elim
  | push => exact (not_enabled (a := .callerPush c) h hStuck trivial hPc).elim
  | signal =>
      by_cases hSleeps : ∃ w, s.worker w = .blocked
      · obtain ⟨w, hBlocked⟩ := hSleeps
        exact (not_enabled (a := .callerSignal c (some w)) h hStuck trivial
          ⟨hPc, hBlocked⟩).elim
      · simp only [not_exists] at hSleeps
        exact (not_enabled (a := .callerSignal c none) h hStuck trivial ⟨hPc, hSleeps⟩).elim
  | ready | returned | threw | refused => rfl

/-- Nobody is left who would look at the queue, so there is nothing in it. -/
theorem PoolInv.queue_empty (h : PoolInv v s) (hStuck : Stuck (step v.impl callable) Own s)
    (hWorkers : 0 < n) (hServed : v ≠ .echo ∨ ∃ w, s.worker w ≠ .exited) : s.mTasks = [] := by
  by_cases hSleeps : ∃ w, s.worker w = .blocked
  · have hCovered := h.wake.covered hSleeps
    have hSignals : unsignalled s = 0 := by
      have hNone : {c | (s.caller c).owesSignal = true} = ∅ := by
        ext c
        have hOutside := h.callers_rest hStuck c
        cases hPc : s.caller c <;> simp_all [CallerPc.owesSignal, CallerPc.outside]
      unfold unsignalled Counting.tally
      rw [hNone, Set.ncard_empty]
    have hExaminers : examiners s = 0 := by
      have hNone : {w | (s.worker w).examines = true} = ∅ := by
        ext w
        rcases h.workers_rest hStuck w with hPc | hPc <;> simp [hPc, WorkerPc.examines]
      unfold examiners Counting.tally
      rw [hNone, Set.ncard_empty]
    exact List.eq_nil_of_length_eq_zero (by omega)
  · have hExited : ∀ w, s.worker w = .exited := fun w =>
      (h.workers_rest hStuck w).resolve_left fun hBlocked => hSleeps ⟨w, hBlocked⟩
    rcases hServed with hv | ⟨w, hNot⟩
    · exact ((h.exit hv) ⟨⟨0, hWorkers⟩, hExited _⟩).2.1
    · exact absurd (hExited w) hNot

/-- With an empty queue and nobody at a task, all accepted tasks have run. -/
theorem PoolInv.all_executed (h : PoolInv v s) (hStuck : Stuck (step v.impl callable) Own s)
    (hEmpty : s.mTasks = []) : s.executed.Perm s.accepted := by
  rw [List.perm_ext_iff_of_nodup h.run.nodup h.queue.nodup]
  intro c
  rw [h.queue.order, hEmpty, List.append_nil]
  constructor
  · intro hExecuted
    obtain ⟨w, hTaken⟩ := h.run.executed c hExecuted
    exact List.mem_map_of_mem hTaken
  · intro hMem
    obtain ⟨⟨w, c'⟩, hTaken, rfl⟩ := List.mem_map.mp hMem
    rcases h.run.taken w c' hTaken with hExecuted | hRunning
    · exact hExecuted
    · rcases h.workers_rest hStuck w with hPc | hPc <;> simp [hPc] at hRunning

/-- The pool at rest: nobody is inside, every worker is blocked or has returned,
and every accepted task has been executed once, unless the workers of the echo
server have all returned before it was accepted. -/
structure Drained (v : Variant) (s : State n) : Prop where
  mutex_free : s.mutex = none
  callers : ∀ c, (s.caller c).outside = true
  workers : ∀ w, s.worker w = .blocked ∨ s.worker w = .exited
  executed : v ≠ .echo ∨ (∃ w, s.worker w ≠ .exited) →
    s.mTasks = [] ∧ s.executed.Perm s.accepted

theorem PoolInv.drained (h : PoolInv v s) (hStuck : Stuck (step v.impl callable) Own s)
    (hWorkers : 0 < n) : Drained v s where
  mutex_free := h.mutex_free hStuck
  callers := h.callers_rest hStuck
  workers := h.workers_rest hStuck
  executed hServed :=
    ⟨h.queue_empty hStuck hWorkers hServed,
      h.all_executed hStuck (h.queue_empty hStuck hWorkers hServed)⟩

theorem poolInv_reach (hCallable : ∀ c, callable c = true)
    (hReach : Reach (step v.impl callable) (Unlocks v) (init n) s) : PoolInv v s :=
  hReach.invariant (poolInv_init v) fun _ _ _ hInv hUnlocks hStep =>
    poolInv_step hCallable hInv hUnlocks hStep

/-- **The pools drain.**  From any state, the pool on its own takes no more than
`work` steps; it can always come to an end, and wherever it does, all accepted
tasks have been executed. -/
theorem pool_drains (hCallable : ∀ c, callable c = true) (hWorkers : 0 < n)
    (hReach : Reach (step v.impl callable) (Unlocks v) (init n) s) {as : List (Action n)}
    (hOwn : ∀ a ∈ as, Own a) (hRun : run (step v.impl callable) s as = some s') :
    as.length + work s' ≤ work s ∧
      (Stuck (step v.impl callable) Own s' → Drained v s') ∧
      ∃ bs t, (∀ b ∈ bs, Own b) ∧ run (step v.impl callable) s' bs = some t ∧ Drained v t := by
  have hOut : RunsOut (step (n := n) v.impl callable) Own (PoolInv v) work :=
    pool_runsOut hCallable
  obtain ⟨hLength, hInv⟩ := hOut.length_le (poolInv_reach hCallable hReach) hOwn hRun
  obtain ⟨bs, t, hAll, hEnd, hStuck⟩ := hOut.exists_stuck hInv
  have hInv' := (hOut.length_le hInv hAll hEnd).2
  exact ⟨hLength, fun hStuck' => hInv.drained hStuck' hWorkers, bs, t, hAll, hEnd,
    hInv'.drained hStuck hWorkers⟩

/-- A task has been pushed, and the call is about to signal. -/
def pushedTrace : List (Action n) := [.callerLock 0, .callerTest 0, .callerPush 0]

theorem pool_drains_pushedTrace : ∃ s s' : State 1, s.mTasks = [0] ∧ s'.mTasks = [] ∧
    work s' + 4 ≤ work s ∧
      ∃ bs t, (∀ b ∈ bs, Own b) ∧ run (step cpp11 fun _ => true) s' bs = some t ∧
        Drained .cpp11 t := by
  let pushed := run (step cpp11 fun _ => true) (init 1) pushedTrace
  have hPushed : pushed = some (pushed.get (by decide)) := by simp
  have hReach : Reach (step Variant.cpp11.impl fun _ => true) (Unlocks .cpp11) (init 1)
      (pushed.get (by decide)) :=
    (reachable_of_run hPushed).mono fun _ _ _ _ _ => rfl
  let own : List (Action 1) := [.callerSignal 0 none, .workerLock 0, .workerTest 0, .workerTake 0]
  let taken := run (step Variant.cpp11.impl fun _ => true) (pushed.get (by decide)) own
  have hTaken : taken = some (taken.get (by decide)) := by simp
  have hLaw := pool_drains (fun _ => rfl) Nat.one_pos hReach (show ∀ a ∈ own, Own a by decide)
    hTaken
  refine ⟨pushed.get (by decide), taken.get (by decide), by decide, by decide, ?_, hLaw.2.2⟩
  rw [Nat.add_comm]
  exact hLaw.1

/-- **The destructor returns** when the pool has come to rest, if it never
broadcasts between the test and the block of a worker. -/
theorem destructor_returns (hCallable : ∀ c, callable c = true) (hWorkers : 0 < n)
    (hReach : Reach (step v.impl callable) (fun s a => Unlocks v s a ∧ BroadcastClear s a)
      (init n) s)
    (hCalled : s.dtor ≠ .notCalled) (hStuck : Stuck (step v.impl callable) Own s) :
    s.dtor = .finished ∧ (∀ w, s.worker w = .exited) ∧
      (v ≠ .echo → s.executed.Perm s.accepted) := by
  have hInv := poolInv_reach hCallable (hReach.mono fun _ _ hBoth => hBoth.1)
  have hStop : StopInv s := hReach.invariant stopInv_init fun _ _ _ hInv hBoth hStep =>
    stopInv_step v hInv hBoth.2 hStep
  have hPast : s.dtor = .joining ∨ s.dtor = .finished := by
    cases hPc : s.dtor with
    | notCalled => exact absurd hPc hCalled
    | stopSet => exact (not_enabled (a := .dtorBroadcast) hInv hStuck trivial hPc).elim
    | joining => exact .inl rfl
    | finished => exact .inr rfl
  have hExited : ∀ w, s.worker w = .exited := by
    intro w
    refine (hInv.workers_rest hStuck w).resolve_left fun hBlocked => ?_
    apply hStop.none_asleep hPast w
    rw [hBlocked]
    trivial
  refine ⟨hPast.resolve_left fun hJoining => ?_, hExited, fun hv => ?_⟩
  · exact not_enabled (a := .dtorJoin) hInv hStuck trivial ⟨hJoining, hExited⟩
  · exact hInv.all_executed hStuck (hInv.queue_empty hStuck hWorkers (.inl hv))

/-- A pool without tasks is destroyed before its worker starts. -/
def unusedTrace (w : Fin n) : List (Action n) :=
  [.dtorStop, .dtorBroadcast, .workerLock w, .workerTest w, .workerTake w, .dtorJoin]

theorem destructor_returns_unusedTrace : ∃ s : State 1, s.accepted = [] ∧
    s.dtor = .finished ∧ (∀ w, s.worker w = .exited) ∧ s.executed.Perm s.accepted := by
  let final := run (guarded (step cpp11 fun _ => true) BroadcastClear) (init 1) (unusedTrace 0)
  have hFinal : final = some (final.get (by decide)) := by simp
  have hReach : Reach (step Variant.cpp11.impl fun _ => true)
      (fun s a => Unlocks .cpp11 s a ∧ BroadcastClear s a) (init 1) (final.get (by decide)) :=
    (reach_of_run_guarded hFinal).mono fun _ _ hClear => ⟨fun _ _ => rfl, hClear⟩
  have hExited : ∀ w, (final.get (by decide)).worker w = .exited := by decide
  have hReady : ∀ c, (final.get (by decide)).caller c = .ready := fun _ => rfl
  have hStuck : Stuck (step Variant.cpp11.impl fun _ => true) Own (final.get (by decide)) := by
    intro a hOwn
    unfold step
    refine if_neg fun hBoth => ?_
    have hEnabled := hBoth.2
    cases a with
    | callerSignal c woken =>
        cases woken <;> exact absurd hEnabled.1 (by rw [hReady c]; simp)
    | workerLock w => rcases hEnabled.2 with hPc | hPc <;> simp [hExited w] at hPc
    | dtorJoin => exact absurd hEnabled.1 (by decide)
    | dtorBroadcast => exact absurd hEnabled (by decide)
    | callerTest c | callerPush c => simp [Enabled, hReady c] at hEnabled
    | workerTest w | workerBlock w | workerTake w | workerRun w task =>
        simp [Enabled, hExited w] at hEnabled
    | callerLock c | spuriousWake w | callerPushThrows c | dtorStop => exact hOwn.elim
  have hLaw := destructor_returns (fun _ => rfl) Nat.one_pos hReach (by decide) hStuck
  exact ⟨_, by decide, hLaw.1, hLaw.2.1, hLaw.2.2 (by decide)⟩

end ThreadPool
end LinuxCppLearn
