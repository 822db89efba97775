import Mathlib.Data.List.Nodup
import LinuxCppLearn.ThreadPool.Model

/-!
# Exactly-once, in-order hand-out of accepted tasks

For the pools whose `addTask` refuses work once `m_stop` is set (`cpp11` and
`raw`), every interleaving of submitters, workers and the destructor hands out
each accepted task once and in order.

* `MutexInv` — whoever is inside a critical section owns the mutex.
* `QueueInv` — the accepted tasks are the taken ones followed by the queued
  ones, and a task is accepted exactly when its `addTask` passed the push.
* `RunInv` — a taken task is being run by its taker or has been executed, once.
* `ExitInv` — once a worker has returned, the flag is set, the queue is empty
  and no `addTask` is about to push.  This is the clause against the race: the
  flag is read by `addTask` under the mutex, so a call that saw it clear left
  its critical section before any worker's exit test.
-/

namespace LinuxCppLearn
namespace ThreadPool

open StepSystem

variable {n : Nat}

/-- Program points inside the worker's critical section. -/
def WorkerPc.holds : WorkerPc → Bool
  | .test | .goingToSleep | .awake => true
  | _ => false

/-- Program points inside the critical section of `addTask`. -/
def CallerPc.holds : CallerPc → Bool
  | .test | .push => true
  | _ => false

/-- Whoever is inside a critical section owns the mutex. -/
structure MutexInv (s : State n) : Prop where
  worker : ∀ w, (s.worker w).holds = true → s.mutex = some (.worker w)
  caller : ∀ c, (s.caller c).holds = true → s.mutex = some (.caller c)

theorem mutexInv_init : MutexInv (init n) where
  worker w h := by simp [init, WorkerPc.holds] at h
  caller c h := by simp [init, CallerPc.holds] at h

theorem MutexInv.worker_at {s : State n} {w : Fin n} {pc : WorkerPc} (h : MutexInv s)
    (hPc : s.worker w = pc) (hHolds : pc.holds = true) : s.mutex = some (.worker w) := by
  apply h.worker
  rw [hPc]
  exact hHolds

theorem MutexInv.caller_at {s : State n} {c : Nat} {pc : CallerPc} (h : MutexInv s)
    (hPc : s.caller c = pc) (hHolds : pc.holds = true) : s.mutex = some (.caller c) := by
  apply h.caller
  rw [hPc]
  exact hHolds

/-- A worker moves; the others own nothing they did not own before. -/
theorem MutexInv.moveWorker {s t : State n} {w : Fin n} {pc : WorkerPc} (h : MutexInv s)
    (hWorker : t.worker = Function.update s.worker w pc) (hCaller : t.caller = s.caller)
    (hSelf : pc.holds = true → t.mutex = some (.worker w))
    (hRest : s.mutex = none ∨ s.mutex = some (.worker w) ∨ t.mutex = s.mutex) :
    MutexInv t := by
  constructor
  · intro w' hHolds
    rw [hWorker] at hHolds
    by_cases hEq : w' = w
    · subst hEq
      rw [Function.update_self] at hHolds
      exact hSelf hHolds
    · rw [Function.update_of_ne hEq] at hHolds
      have hOwner := h.worker w' hHolds
      rcases hRest with hFree | hOwn | hSame
      · simp [hFree] at hOwner
      · rw [hOwn] at hOwner
        simp only [Option.some.injEq, Holder.worker.injEq] at hOwner
        exact absurd hOwner.symm hEq
      · rw [hSame]
        exact hOwner
  · intro c hHolds
    rw [hCaller] at hHolds
    have hOwner := h.caller c hHolds
    rcases hRest with hFree | hOwn | hSame
    · simp [hFree] at hOwner
    · simp [hOwn] at hOwner
    · rw [hSame]
      exact hOwner

/-- A call of `addTask` moves. -/
theorem MutexInv.moveCaller {s t : State n} {c : Nat} {pc : CallerPc} (h : MutexInv s)
    (hCaller : t.caller = Function.update s.caller c pc) (hWorker : t.worker = s.worker)
    (hSelf : pc.holds = true → t.mutex = some (.caller c))
    (hRest : s.mutex = none ∨ s.mutex = some (.caller c) ∨ t.mutex = s.mutex) :
    MutexInv t := by
  constructor
  · intro w hHolds
    rw [hWorker] at hHolds
    have hOwner := h.worker w hHolds
    rcases hRest with hFree | hOwn | hSame
    · simp [hFree] at hOwner
    · simp [hOwn] at hOwner
    · rw [hSame]
      exact hOwner
  · intro c' hHolds
    rw [hCaller] at hHolds
    by_cases hEq : c' = c
    · subst hEq
      rw [Function.update_self] at hHolds
      exact hSelf hHolds
    · rw [Function.update_of_ne hEq] at hHolds
      have hOwner := h.caller c' hHolds
      rcases hRest with hFree | hOwn | hSame
      · simp [hFree] at hOwner
      · rw [hOwn] at hOwner
        simp only [Option.some.injEq, Holder.caller.injEq] at hOwner
        exact absurd hOwner.symm hEq
      · rw [hSame]
        exact hOwner

theorem wakeAll_holds (worker : Fin n → WorkerPc) (w : Fin n) :
    (wakeAll worker w).holds = (worker w).holds := by
  unfold wakeAll
  split
  · rename_i hBlocked
    simp [hBlocked, WorkerPc.holds]
  · rfl

/-- **Mutual exclusion is kept by every step**, in all three pools. -/
theorem mutexInv_step {impl : Impl} {callable : Nat → Bool} {s s' : State n} {a : Action n}
    (h : MutexInv s) (hStep : step impl callable s a = some s') : MutexInv s' := by
  obtain ⟨⟨_, hEnabled⟩, rfl⟩ := step_eq_some.mp hStep
  cases a with
  | workerLock w =>
      exact h.moveWorker rfl rfl (fun _ => rfl) (.inl hEnabled.1)
  | workerTest w =>
      have hOwn : s.mutex = some (.worker w) := h.worker_at hEnabled rfl
      simp only [effect]
      split <;> exact h.moveWorker rfl rfl (fun _ => hOwn) (.inr (.inr rfl))
  | workerBlock w =>
      have hOwn : s.mutex = some (.worker w) := h.worker_at hEnabled rfl
      exact h.moveWorker rfl rfl (by simp [WorkerPc.holds]) (.inr (.inl hOwn))
  | spuriousWake w =>
      exact h.moveWorker rfl rfl (by simp [WorkerPc.holds]) (.inr (.inr rfl))
  | workerTake w =>
      have hOwn : s.mutex = some (.worker w) := h.worker_at hEnabled rfl
      simp only [effect]
      split
      · exact h.moveWorker rfl rfl (by simp [WorkerPc.holds]) (.inr (.inl hOwn))
      · split
        · exact h
        · exact h.moveWorker rfl rfl (by simp [WorkerPc.holds]) (.inr (.inl hOwn))
  | workerRun w task =>
      simp only [effect]
      split
      · exact h.moveWorker rfl rfl (by simp [WorkerPc.holds]) (.inr (.inr rfl))
      · exact h.moveWorker rfl rfl (by simp [WorkerPc.holds]) (.inr (.inr rfl))
      · exact ⟨h.worker, h.caller⟩
  | callerLock c =>
      exact h.moveCaller rfl rfl (fun _ => rfl) (.inl hEnabled.1)
  | callerTest c =>
      have hOwn : s.mutex = some (.caller c) := h.caller_at hEnabled rfl
      simp only [effect]
      split
      · exact h.moveCaller rfl rfl (fun _ => hOwn) (.inr (.inr rfl))
      · exact h.moveCaller rfl rfl (by simp [CallerPc.holds]) (.inr (.inl hOwn))
      · exact h.moveCaller rfl rfl (by simp [CallerPc.holds]) (.inr (.inl hOwn))
  | callerPush c =>
      have hOwn : s.mutex = some (.caller c) := h.caller_at hEnabled rfl
      exact h.moveCaller rfl rfl (by simp [CallerPc.holds]) (.inr (.inl hOwn))
  | callerPushThrows c =>
      have hOwn : s.mutex = some (.caller c) := h.caller_at hEnabled rfl
      simp only [effect]
      split
      · exact h.moveCaller rfl rfl (by simp [CallerPc.holds]) (.inr (.inl hOwn))
      · exact h.moveCaller rfl rfl (by simp [CallerPc.holds]) (.inr (.inr rfl))
  | callerSignal c woken =>
      have hCalled : MutexInv (s.setCaller c .returned) :=
        h.moveCaller rfl rfl (by simp [CallerPc.holds]) (.inr (.inr rfl))
      cases woken with
      | none => exact hCalled
      | some w => exact hCalled.moveWorker rfl rfl (by simp [WorkerPc.holds]) (.inr (.inr rfl))
  | dtorStop => exact ⟨h.worker, h.caller⟩
  | dtorBroadcast =>
      refine ⟨fun w hHolds => h.worker w ?_, h.caller⟩
      rw [← wakeAll_holds]
      exact hHolds
  | dtorJoin => exact ⟨h.worker, h.caller⟩

/-! ## The queue -/

/-- The call has pushed its task. -/
def CallerPc.pushed : CallerPc → Bool
  | .signal | .returned => true
  | _ => false

/-- Accepted tasks are the taken ones followed by the queued ones, each once;
a task is accepted exactly when its call passed the push. -/
structure QueueInv (s : State n) : Prop where
  order : s.accepted = s.taken.map Prod.snd ++ s.mTasks
  nodup : s.accepted.Nodup
  accepted_iff : ∀ c, c ∈ s.accepted ↔ (s.caller c).pushed = true

theorem queueInv_init : QueueInv (init n) where
  order := rfl
  nodup := List.nodup_nil
  accepted_iff c := by simp [init, CallerPc.pushed]

theorem QueueInv.congr {s t : State n} (h : QueueInv s) (hAccepted : t.accepted = s.accepted)
    (hTaken : t.taken = s.taken) (hTasks : t.mTasks = s.mTasks)
    (hCaller : t.caller = s.caller) : QueueInv t where
  order := by rw [hAccepted, hTaken, hTasks, h.order]
  nodup := by rw [hAccepted]; exact h.nodup
  accepted_iff c := by rw [hAccepted, hCaller]; exact h.accepted_iff c

/-- A call of `addTask` moves without passing the push. -/
theorem QueueInv.moveCaller {s t : State n} {c : Nat} {pc pc' : CallerPc} (h : QueueInv s)
    (hAt : s.caller c = pc) (hCaller : t.caller = Function.update s.caller c pc')
    (hSame : pc'.pushed = pc.pushed) (hAccepted : t.accepted = s.accepted)
    (hTaken : t.taken = s.taken) (hTasks : t.mTasks = s.mTasks) : QueueInv t where
  order := by rw [hAccepted, hTaken, hTasks, h.order]
  nodup := by rw [hAccepted]; exact h.nodup
  accepted_iff c' := by
    rw [hAccepted, h.accepted_iff c', hCaller]
    by_cases hEq : c' = c
    · subst hEq
      rw [Function.update_self, hSame, hAt]
    · rw [Function.update_of_ne hEq]

/-- **The queue hands out in order**: kept by every step. -/
theorem queueInv_step {impl : Impl} {callable : Nat → Bool} {s s' : State n} {a : Action n}
    (h : QueueInv s) (hStep : step impl callable s a = some s') : QueueInv s' := by
  obtain ⟨⟨_, hEnabled⟩, rfl⟩ := step_eq_some.mp hStep
  cases a with
  | workerTake w =>
      simp only [effect]
      split
      · exact h.congr rfl rfl rfl rfl
      · split
        · exact h
        · rename_i task rest hTasks
          refine ⟨?_, h.nodup, h.accepted_iff⟩
          show s.accepted = (s.taken ++ [(w, task)]).map Prod.snd ++ rest
          rw [h.order, hTasks]
          simp
  | callerPush c =>
      have hPc : s.caller c = .push := hEnabled
      -- a call pushes once, so its task is not in the queue's history yet
      have hFresh : c ∉ s.accepted := by
        rw [h.accepted_iff, hPc]
        simp [CallerPc.pushed]
      refine ⟨?_, ?_, fun c' => ?_⟩
      · show s.accepted ++ [c] = s.taken.map Prod.snd ++ (s.mTasks ++ [c])
        rw [h.order, List.append_assoc]
      · show (s.accepted ++ [c]).Nodup
        rw [List.nodup_append_comm]
        exact List.nodup_cons.mpr ⟨hFresh, h.nodup⟩
      · show c' ∈ s.accepted ++ [c] ↔ (Function.update s.caller c .signal c').pushed = true
        by_cases hEq : c' = c
        · subst hEq
          simp [CallerPc.pushed]
        · rw [Function.update_of_ne hEq, ← h.accepted_iff]
          simp [hEq]
  | callerLock c => exact h.moveCaller hEnabled.2 rfl rfl rfl rfl rfl
  | callerTest c =>
      have hPc : s.caller c = .test := hEnabled
      simp only [effect]
      split <;> exact h.moveCaller hPc rfl rfl rfl rfl rfl
  | callerPushThrows c =>
      have hPc : s.caller c = .push := hEnabled
      simp only [effect]
      split <;> exact h.moveCaller hPc rfl rfl rfl rfl rfl
  | callerSignal c woken =>
      cases woken with
      | none => exact h.moveCaller hEnabled.1 rfl rfl rfl rfl rfl
      | some w => exact h.moveCaller hEnabled.1 rfl rfl rfl rfl rfl
  | workerTest w =>
      simp only [effect]
      split <;> exact h.congr rfl rfl rfl rfl
  | workerRun w task =>
      simp only [effect]
      split <;> exact h.congr rfl rfl rfl rfl
  | workerLock w => exact h.congr rfl rfl rfl rfl
  | workerBlock w => exact h.congr rfl rfl rfl rfl
  | spuriousWake w => exact h.congr rfl rfl rfl rfl
  | dtorStop => exact h.congr rfl rfl rfl rfl
  | dtorBroadcast => exact h.congr rfl rfl rfl rfl
  | dtorJoin => exact h.congr rfl rfl rfl rfl

theorem QueueInv.taken_nodup {s : State n} (h : QueueInv s) : (s.taken.map Prod.snd).Nodup := by
  have hNodup := h.nodup
  rw [h.order] at hNodup
  exact hNodup.of_append_left

/-- No accepted task is taken by two workers. -/
theorem QueueInv.taker_unique {s : State n} (h : QueueInv s) {w w' : Fin n} {c : Nat}
    (hTaken : (w, c) ∈ s.taken) (hTaken' : (w', c) ∈ s.taken) : w = w' := by
  have hEq := List.inj_on_of_nodup_map h.taken_nodup hTaken hTaken' rfl
  exact congrArg Prod.fst hEq

/-! ## Execution -/

/-- A taken task is being run by its taker or has been executed, once. -/
structure RunInv (s : State n) : Prop where
  running : ∀ w c, s.worker w = .running c → (w, c) ∈ s.taken ∧ c ∉ s.executed
  taken : ∀ w c, (w, c) ∈ s.taken → c ∈ s.executed ∨ s.worker w = .running c
  executed : ∀ c ∈ s.executed, ∃ w, (w, c) ∈ s.taken
  nodup : s.executed.Nodup

theorem runInv_init : RunInv (init n) where
  running w c h := by simp [init] at h
  taken w c h := by simp [init] at h
  executed c h := by simp [init] at h
  nodup := List.nodup_nil

/-- A worker moves between places where it runs no task. -/
theorem RunInv.moveIdle {s t : State n} {w : Fin n} {pc : WorkerPc} (h : RunInv s)
    (hOld : ∀ c, s.worker w ≠ .running c) (hNew : ∀ c, pc ≠ .running c)
    (hWorker : t.worker = Function.update s.worker w pc) (hTaken : t.taken = s.taken)
    (hExecuted : t.executed = s.executed) : RunInv t := by
  have hSame : ∀ w' c, t.worker w' = .running c ↔ s.worker w' = .running c := by
    intro w' c
    rw [hWorker]
    by_cases hEq : w' = w
    · subst hEq
      rw [Function.update_self]
      exact ⟨fun hRun => absurd hRun (hNew c), fun hRun => absurd hRun (hOld c)⟩
    · rw [Function.update_of_ne hEq]
  constructor
  · intro w' c hRun
    rw [hTaken, hExecuted]
    exact h.running w' c ((hSame w' c).mp hRun)
  · intro w' c hMem
    rw [hExecuted, hSame]
    rw [hTaken] at hMem
    exact h.taken w' c hMem
  · rw [hTaken, hExecuted]
    exact h.executed
  · rw [hExecuted]
    exact h.nodup

theorem RunInv.congr {s t : State n} (h : RunInv s) (hWorker : t.worker = s.worker)
    (hTaken : t.taken = s.taken) (hExecuted : t.executed = s.executed) : RunInv t where
  running w c hRun := by
    rw [hTaken, hExecuted]
    exact h.running w c (hWorker ▸ hRun)
  taken w c hMem := by
    rw [hExecuted, hWorker]
    exact h.taken w c (hTaken ▸ hMem)
  executed := by rw [hTaken, hExecuted]; exact h.executed
  nodup := by rw [hExecuted]; exact h.nodup

/-- The worker pops the front task. -/
theorem RunInv.take {s : State n} {w : Fin n} {task : Nat} {rest : List Nat} (h : RunInv s)
    (hQueue : QueueInv s) (hPc : s.worker w = .awake) (hTasks : s.mTasks = task :: rest) :
    RunInv { s.setWorker w (.running task) with
      mutex := none, mTasks := rest, taken := s.taken ++ [(w, task)] } := by
  -- the accepted tasks have no repetition, so the front task was not taken before
  have hFresh : task ∉ s.taken.map Prod.snd := by
    have hNodup := hQueue.nodup
    rw [hQueue.order, hTasks, List.nodup_append] at hNodup
    intro hMem
    exact hNodup.2.2 task hMem task (by simp) rfl
  have hNotRun : task ∉ s.executed := by
    intro hMem
    obtain ⟨w', hTaken⟩ := h.executed task hMem
    exact hFresh (List.mem_map_of_mem hTaken)
  constructor
  · intro w' c hRun
    by_cases hEq : w' = w
    · subst hEq
      have hTask : task = c := by simpa [State.setWorker] using hRun
      subst hTask
      exact ⟨by simp, hNotRun⟩
    · have hOld : s.worker w' = .running c := by
        simpa [State.setWorker, Function.update_of_ne hEq] using hRun
      obtain ⟨hTaken, hExecuted⟩ := h.running w' c hOld
      exact ⟨List.mem_append_left _ hTaken, hExecuted⟩
  · intro w' c hMem
    rcases List.mem_append.mp hMem with hMem | hMem
    · rcases h.taken w' c hMem with hExecuted | hRun
      · exact .inl hExecuted
      -- `w` ran nothing before the pop, so another worker is meant
      · have hNe : w' ≠ w := by
          rintro rfl
          simp [hPc] at hRun
        exact .inr (by simpa [State.setWorker, Function.update_of_ne hNe] using hRun)
    · obtain ⟨rfl, rfl⟩ : w' = w ∧ c = task := by simpa using hMem
      exact .inr (by simp [State.setWorker])
  · intro c hMem
    obtain ⟨w', hTaken⟩ := h.executed c hMem
    exact ⟨w', List.mem_append_left _ hTaken⟩
  · exact h.nodup

/-- The worker's task returns. -/
theorem RunInv.finish {s : State n} {w : Fin n} {task : Nat} (h : RunInv s)
    (hQueue : QueueInv s) (hPc : s.worker w = .running task) :
    RunInv { s.setWorker w .top with executed := s.executed ++ [task] } := by
  obtain ⟨hTaken, hFresh⟩ := h.running w task hPc
  constructor
  · intro w' c hRun
    have hNe : w' ≠ w := by
      rintro rfl
      simp [State.setWorker] at hRun
    have hOld : s.worker w' = .running c := by
      simpa [State.setWorker, Function.update_of_ne hNe] using hRun
    obtain ⟨hTaken', hExecuted⟩ := h.running w' c hOld
    refine ⟨hTaken', fun hMem => ?_⟩
    rcases List.mem_append.mp hMem with hMem | hMem
    · exact hExecuted hMem
    · obtain rfl : c = task := by simpa using hMem
      -- a second worker running the task would have taken it too
      exact hNe (hQueue.taker_unique hTaken' hTaken)
  · intro w' c hMem
    rcases h.taken w' c hMem with hExecuted | hRun
    · exact .inl (List.mem_append_left _ hExecuted)
    · by_cases hEq : w' = w
      · subst hEq
        rw [hPc] at hRun
        obtain rfl : task = c := by simpa using hRun
        exact .inl (by simp)
      · exact .inr (by simpa [State.setWorker, Function.update_of_ne hEq] using hRun)
  · intro c hMem
    rcases List.mem_append.mp hMem with hMem | hMem
    · exact h.executed c hMem
    · obtain rfl : c = task := by simpa using hMem
      exact ⟨w, hTaken⟩
  · show (s.executed ++ [task]).Nodup
    rw [List.nodup_append_comm]
    exact List.nodup_cons.mpr ⟨hFresh, h.nodup⟩

theorem Variant.impl_invoke_callable (v : Variant) : v.impl.invoke true = .called := by
  cases v <;> rfl

theorem wakeAll_eq_running {worker : Fin n → WorkerPc} {w : Fin n} {c : Nat} :
    wakeAll worker w = .running c ↔ worker w = .running c := by
  unfold wakeAll
  split
  · rename_i hBlocked
    simp [hBlocked]
  · rfl

/-- **Every taken task runs once**: kept by every step, when tasks are
callables that return. -/
theorem runInv_step (v : Variant) {callable : Nat → Bool} (hCallable : ∀ c, callable c = true)
    {s s' : State n} {a : Action n} (h : RunInv s) (hQueue : QueueInv s)
    (hStep : step v.impl callable s a = some s') : RunInv s' := by
  obtain ⟨⟨_, hEnabled⟩, rfl⟩ := step_eq_some.mp hStep
  cases a with
  | workerLock w =>
      refine h.moveIdle (fun c hRun => ?_) (by simp) rfl rfl rfl
      rcases hEnabled.2 with hPc | hPc <;> simp [hPc] at hRun
  | workerTest w =>
      have hPc : s.worker w = .test := hEnabled
      simp only [effect]
      split <;> exact h.moveIdle (by simp [hPc]) (by simp) rfl rfl rfl
  | workerBlock w =>
      have hPc : s.worker w = .goingToSleep := hEnabled
      exact h.moveIdle (by simp [hPc]) (by simp) rfl rfl rfl
  | spuriousWake w =>
      have hPc : s.worker w = .blocked := hEnabled
      exact h.moveIdle (by simp [hPc]) (by simp) rfl rfl rfl
  | workerTake w =>
      have hPc : s.worker w = .awake := hEnabled
      simp only [effect]
      split
      · exact h.moveIdle (by simp [hPc]) (by simp) rfl rfl rfl
      · split
        · exact h
        · rename_i task rest hTasks
          exact h.take hQueue hPc hTasks
  | workerRun w task =>
      have hPc : s.worker w = .running task := hEnabled
      simp only [effect, hCallable, Variant.impl_invoke_callable]
      exact h.finish hQueue hPc
  | callerLock c => exact h.congr rfl rfl rfl
  | callerTest c =>
      simp only [effect]
      split <;> exact h.congr rfl rfl rfl
  | callerPush c => exact h.congr rfl rfl rfl
  | callerPushThrows c =>
      simp only [effect]
      split <;> exact h.congr rfl rfl rfl
  | callerSignal c woken =>
      cases woken with
      | none => exact h.congr rfl rfl rfl
      | some w =>
          have hPc : s.worker w = .blocked := hEnabled.2
          exact h.moveIdle (by simp [hPc]) (by simp) rfl rfl rfl
  | dtorStop => exact h.congr rfl rfl rfl
  | dtorBroadcast =>
      refine ⟨fun w c hRun => h.running w c (wakeAll_eq_running.mp hRun), fun w c hMem => ?_,
        h.executed, h.nodup⟩
      rcases h.taken w c hMem with hExecuted | hRun
      · exact .inl hExecuted
      · exact .inr (wakeAll_eq_running.mpr hRun)
  | dtorJoin => exact h.congr rfl rfl rfl

/-! ## The exit test against a racing `addTask` -/

/-- Once a worker has returned, the flag is set, the queue is empty and no
call is about to push. -/
def ExitInv (s : State n) : Prop :=
  (∃ w, s.worker w = .exited) → s.mStop = true ∧ s.mTasks = [] ∧ ∀ c, s.caller c ≠ .push

theorem exitInv_init : ExitInv (init n) := by
  rintro ⟨w, hExited⟩
  simp [init] at hExited

/-- `addTask` of `cpp11` and `raw` throws once it sees the flag. -/
theorem Variant.impl_addTask_stopped {v : Variant} (hv : v = .cpp11 ∨ v = .raw) (size : Nat) :
    v.impl.addTask true size = .throws := by
  rcases hv with rfl | rfl <;> rfl

/-- Steps that make no worker return, touch neither flag nor queue, and bring
no call to the push. -/
theorem ExitInv.congr {s t : State n} (h : ExitInv s)
    (hWorker : ∀ w, t.worker w = .exited → s.worker w = .exited) (hStop : t.mStop = s.mStop)
    (hTasks : t.mTasks = s.mTasks) (hCaller : ∀ c, t.caller c = .push → s.caller c = .push) :
    ExitInv t := by
  rintro ⟨w, hExited⟩
  obtain ⟨hSet, hEmpty, hNoPush⟩ := h ⟨w, hWorker w hExited⟩
  exact ⟨hStop.trans hSet, hTasks.trans hEmpty, fun c hPush => hNoPush c (hCaller c hPush)⟩

theorem exited_of_update {worker : Fin n → WorkerPc} {w w' : Fin n} {pc : WorkerPc}
    (hPc : pc ≠ .exited) (h : Function.update worker w pc w' = .exited) :
    worker w' = .exited := by
  by_cases hEq : w' = w
  · subst hEq
    rw [Function.update_self] at h
    exact absurd h hPc
  · rwa [Function.update_of_ne hEq] at h

theorem push_of_update {caller : Nat → CallerPc} {c c' : Nat} {pc : CallerPc}
    (hPc : pc ≠ .push) (h : Function.update caller c pc c' = .push) : caller c' = .push := by
  by_cases hEq : c' = c
  · subst hEq
    rw [Function.update_self] at h
    exact absurd h hPc
  · rwa [Function.update_of_ne hEq] at h

/-- **No `addTask` gets past a worker's exit test**: kept by every step. -/
theorem exitInv_step {v : Variant} (hv : v = .cpp11 ∨ v = .raw) {callable : Nat → Bool}
    {s s' : State n} {a : Action n} (h : ExitInv s) (hMutex : MutexInv s)
    (hStep : step v.impl callable s a = some s') : ExitInv s' := by
  obtain ⟨⟨_, hEnabled⟩, rfl⟩ := step_eq_some.mp hStep
  cases a with
  | workerLock w =>
      exact h.congr (fun _ => exited_of_update (by simp)) rfl rfl fun _ hPush => hPush
  | workerTest w =>
      simp only [effect]
      split <;> exact h.congr (fun _ => exited_of_update (by simp)) rfl rfl fun _ hPush => hPush
  | workerBlock w =>
      exact h.congr (fun _ => exited_of_update (by simp)) rfl rfl fun _ hPush => hPush
  | spuriousWake w =>
      exact h.congr (fun _ => exited_of_update (by simp)) rfl rfl fun _ hPush => hPush
  | workerTake w =>
      have hOwn : s.mutex = some (.worker w) := hMutex.worker_at hEnabled rfl
      simp only [effect, Variant.impl_exits]
      split
      -- the exit test is made under the mutex, so nobody is about to push
      · rename_i hExits
        rw [Bool.and_eq_true, List.isEmpty_iff] at hExits
        rintro -
        refine ⟨hExits.1, hExits.2, fun c hPush => ?_⟩
        have hOther := hMutex.caller_at hPush rfl
        simp [hOwn] at hOther
      · split
        · exact h
        · rename_i task rest hTasks
          rintro ⟨w', hExited⟩
          obtain ⟨_, hEmpty, _⟩ := h ⟨w', exited_of_update (by simp) hExited⟩
          simp [hTasks] at hEmpty
  | workerRun w task =>
      simp only [effect]
      split
      · exact h.congr (fun _ => exited_of_update (by simp)) rfl rfl fun _ hPush => hPush
      · exact h.congr (fun _ => exited_of_update (by simp)) rfl rfl fun _ hPush => hPush
      · exact h.congr (fun _ hExited => hExited) rfl rfl fun _ hPush => hPush
  | callerLock c =>
      exact h.congr (fun _ hExited => hExited) rfl rfl fun _ => push_of_update (by simp)
  | callerTest c =>
      simp only [effect]
      split
      -- the flag is clear here, so no worker has returned yet
      · rename_i hAccept
        rintro ⟨w, hExited⟩
        obtain ⟨hSet, _, _⟩ := h ⟨w, hExited⟩
        rw [hSet, Variant.impl_addTask_stopped hv] at hAccept
        simp at hAccept
      · exact h.congr (fun _ hExited => hExited) rfl rfl fun _ => push_of_update (by simp)
      · exact h.congr (fun _ hExited => hExited) rfl rfl fun _ => push_of_update (by simp)
  | callerPush c =>
      rintro ⟨w, hExited⟩
      obtain ⟨_, _, hNoPush⟩ := h ⟨w, hExited⟩
      exact absurd hEnabled (hNoPush c)
  | callerPushThrows c =>
      simp only [effect]
      split <;>
        exact h.congr (fun _ hExited => hExited) rfl rfl fun _ => push_of_update (by simp)
  | callerSignal c woken =>
      cases woken with
      | none =>
          exact h.congr (fun _ hExited => hExited) rfl rfl fun _ => push_of_update (by simp)
      | some w =>
          exact h.congr (fun _ => exited_of_update (by simp)) rfl rfl
            fun _ => push_of_update (by simp)
  | dtorStop =>
      rintro ⟨w, hExited⟩
      -- the flag is written without the mutex, but only to `true`
      obtain ⟨_, hEmpty, hNoPush⟩ := h ⟨w, hExited⟩
      exact ⟨rfl, hEmpty, hNoPush⟩
  | dtorBroadcast =>
      refine h.congr (fun w hExited => ?_) rfl rfl fun _ hPush => hPush
      simp only [effect, wakeAll] at hExited
      split at hExited
      · simp at hExited
      · exact hExited
  | dtorJoin => exact h.congr (fun _ hExited => hExited) rfl rfl fun _ hPush => hPush

/-! ## The law over whole runs -/

/-- What every state of a run satisfies. -/
structure HandOutInv (s : State n) : Prop where
  mutex : MutexInv s
  queue : QueueInv s
  run : RunInv s
  exit : ExitInv s

theorem handOutInv_reach {v : Variant} (hv : v = .cpp11 ∨ v = .raw) {callable : Nat → Bool}
    (hCallable : ∀ c, callable c = true) {s : State n}
    (h : Reachable (step v.impl callable) (init n) s) : HandOutInv s := by
  refine h.invariant ⟨mutexInv_init, queueInv_init, runInv_init, exitInv_init⟩ ?_
  intro s a s' hInv _ hStep
  exact ⟨mutexInv_step hInv.mutex hStep, queueInv_step hInv.queue hStep,
    runInv_step v hCallable hInv.run hInv.queue hStep, exitInv_step hv hInv.exit hInv.mutex hStep⟩

/-- When all workers have returned, every accepted task has been executed. -/
theorem HandOutInv.drained {s : State n} (h : HandOutInv s) (hWorkers : 0 < n)
    (hAll : ∀ w, s.worker w = .exited) {c : Nat} (hAccepted : c ∈ s.accepted) :
    c ∈ s.executed := by
  obtain ⟨_, hEmpty, _⟩ := h.exit ⟨⟨0, hWorkers⟩, hAll _⟩
  rw [h.queue.order, hEmpty, List.append_nil] at hAccepted
  obtain ⟨⟨w, c'⟩, hTaken, rfl⟩ := List.mem_map.mp hAccepted
  rcases h.run.taken w c' hTaken with hExecuted | hRun
  · exact hExecuted
  · simp [hAll w] at hRun

/-- An executed task was accepted. -/
theorem HandOutInv.accepted_of_executed {s : State n} (h : HandOutInv s) {c : Nat}
    (hExecuted : c ∈ s.executed) : (s.caller c).pushed = true := by
  obtain ⟨w, hTaken⟩ := h.run.executed c hExecuted
  rw [← h.queue.accepted_iff, h.queue.order]
  exact List.mem_append_left _ (List.mem_map_of_mem hTaken)

/-- **Exactly-once, in-order hand-out**, over every interleaving: the taken
tasks are a prefix of the accepted ones, none is taken twice, when all workers
have returned every call that returned normally had its task executed once,
and a call that threw never has. -/
theorem tasks_handed_out_once_in_order {v : Variant} (hv : v = .cpp11 ∨ v = .raw)
    {callable : Nat → Bool} (hCallable : ∀ c, callable c = true) (hWorkers : 0 < n)
    {s : State n} (hReach : Reachable (step v.impl callable) (init n) s) :
    s.taken.map Prod.snd <+: s.accepted ∧
      (s.taken.map Prod.snd).Nodup ∧
      ((∀ w, s.worker w = .exited) → ∀ c, s.caller c = .returned → s.executed.count c = 1) ∧
      ∀ c, s.caller c = .threw → c ∉ s.executed := by
  have hInv := handOutInv_reach hv hCallable hReach
  refine ⟨⟨s.mTasks, hInv.queue.order.symm⟩, hInv.queue.taken_nodup, ?_, ?_⟩
  · intro hAll c hReturned
    have hAccepted : c ∈ s.accepted := by
      rw [hInv.queue.accepted_iff, hReturned]
      rfl
    exact List.count_eq_one_of_mem hInv.run.nodup (hInv.drained hWorkers hAll hAccepted)
  · intro c hThrew hExecuted
    have hPushed := hInv.accepted_of_executed hExecuted
    simp [hThrew, CallerPc.pushed] at hPushed

/-- One task is submitted and run, then the pool is shut down. -/
def oneTaskTrace (w : Fin n) : List (Action n) :=
  [.callerLock 0, .callerTest 0, .callerPush 0, .callerSignal 0 none,
    .workerLock w, .workerTest w, .workerTake w, .workerRun w 0,
    .dtorStop, .workerLock w, .workerTest w, .workerTake w]

theorem tasks_handed_out_once_in_order_oneTaskTrace :
    ∃ s : State 1, (∀ w, s.worker w = .exited) ∧ s.caller 0 = .returned ∧
      s.executed.count 0 = 1 := by
  let final := run (step cpp11 fun _ => true) (init 1) (oneTaskTrace 0)
  have hFinal : final = some (final.get (by decide)) := by simp
  have hReach : Reachable (step Variant.cpp11.impl fun _ => true) (init 1)
      (final.get (by decide)) := reachable_of_run hFinal
  have hExited : ∀ w, (final.get (by decide)).worker w = .exited := by decide
  have hReturned : (final.get (by decide)).caller 0 = .returned := by decide
  have hLaw := tasks_handed_out_once_in_order (.inl rfl) (fun _ => rfl) Nat.one_pos hReach
  exact ⟨_, hExited, hReturned, hLaw.2.2.1 hExited 0 hReturned⟩

end ThreadPool
end LinuxCppLearn
