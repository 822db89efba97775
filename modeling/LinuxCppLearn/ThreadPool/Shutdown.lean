import LinuxCppLearn.ThreadPool.Model

/-!
# Shutdown of the thread pools

The destructor writes `m_stop` and broadcasts without taking the mutex.  A
worker that has already found its wait condition true but has not blocked yet
misses both: it blocks behind the broadcast and `join` waits for it for ever.

* `Hung` — the destructor only joins, and some worker is blocked with no
  wake-up pending.
* `BroadcastClear` — the broadcast is not made while a worker is in that
  window.
* `StopInv`, `stopInv_step` — under it, no worker is asleep or about to sleep
  behind the broadcast.
* `broadcast_in_window_hangs` — whenever the window is hit, a hung state is
  one step away.
-/

namespace LinuxCppLearn
namespace ThreadPool

open StepSystem

variable {n : Nat}

/-- The destructor is past its broadcast and waits for a worker nobody will
wake up. -/
def Hung (s : State n) : Prop :=
  s.dtor = .joining ∧ ∃ w, s.worker w = .blocked

instance (s : State n) : Decidable (Hung s) :=
  inferInstanceAs (Decidable (_ ∧ _))

/-- No worker stands between its wait condition and its block when the
destructor broadcasts. -/
def BroadcastClear (s : State n) (a : Action n) : Prop :=
  a = .dtorBroadcast → ∀ w, s.worker w ≠ .goingToSleep

/-- A worker that is blocked or has decided to block. -/
def WorkerPc.asleep : WorkerPc → Prop
  | .goingToSleep | .blocked => True
  | _ => False

/-- Once the destructor runs the flag is set; behind its broadcast no worker
is asleep. -/
structure StopInv (s : State n) : Prop where
  stop_set : s.dtor ≠ .notCalled → s.mStop = true
  none_asleep : s.dtor = .joining ∨ s.dtor = .finished → ∀ w, ¬ (s.worker w).asleep

theorem stopInv_init : StopInv (init n) where
  stop_set h := absurd rfl h
  none_asleep h := by simp [init] at h

/-- Moving one worker to a place where it is not asleep keeps the invariant. -/
theorem StopInv.setWorker {s t : State n} {w : Fin n} {pc : WorkerPc} (h : StopInv s)
    (hWorker : t.worker = Function.update s.worker w pc) (hDtor : t.dtor = s.dtor)
    (hStop : t.mStop = s.mStop)
    (hPc : s.dtor = .joining ∨ s.dtor = .finished → ¬ pc.asleep) : StopInv t where
  stop_set hCalled := by
    rw [hStop]
    exact h.stop_set (hDtor ▸ hCalled)
  none_asleep hJoin w' := by
    rw [hDtor] at hJoin
    rw [hWorker]
    by_cases hEq : w' = w
    · subst hEq
      rw [Function.update_self]
      exact hPc hJoin
    · rw [Function.update_of_ne hEq]
      exact h.none_asleep hJoin w'

/-- Steps which leave the workers, the flag and the destructor alone. -/
theorem StopInv.congr {s t : State n} (h : StopInv s) (hWorker : t.worker = s.worker)
    (hDtor : t.dtor = s.dtor) (hStop : t.mStop = s.mStop) : StopInv t where
  stop_set hCalled := by
    rw [hStop]
    exact h.stop_set (hDtor ▸ hCalled)
  none_asleep hJoin := by
    rw [hWorker]
    exact h.none_asleep (hDtor ▸ hJoin)

theorem wakeAll_not_asleep {worker : Fin n → WorkerPc}
    (hClear : ∀ w, worker w ≠ .goingToSleep) (w : Fin n) : ¬ (wakeAll worker w).asleep := by
  unfold wakeAll
  split
  · simp [WorkerPc.asleep]
  · rename_i hNotBlocked
    cases hPc : worker w with
    | goingToSleep => exact absurd hPc (hClear w)
    | blocked => exact absurd hPc hNotBlocked
    | _ => simp [WorkerPc.asleep]

/-- **One step keeps the shutdown invariant**, if it is no broadcast into the
window of a worker. -/
theorem stopInv_step (v : Variant) {callable : Nat → Bool} {s s' : State n} {a : Action n}
    (h : StopInv s) (hClear : BroadcastClear s a)
    (hStep : step v.impl callable s a = some s') : StopInv s' := by
  obtain ⟨⟨_, hEnabled⟩, rfl⟩ := step_eq_some.mp hStep
  cases a with
  | workerLock w => exact h.setWorker rfl rfl rfl fun _ => by simp [WorkerPc.asleep]
  | workerTest w =>
      simp only [effect, Variant.impl_keepsWaiting]
      split
      -- a worker only decides to sleep while the flag is not set
      · rename_i hWaits
        refine h.setWorker rfl rfl rfl fun hJoin => ?_
        have hStop : s.mStop = true := h.stop_set (by rcases hJoin with hJ | hJ <;> simp [hJ])
        simp [hStop] at hWaits
      · exact h.setWorker rfl rfl rfl fun _ => by simp [WorkerPc.asleep]
  | workerBlock w =>
      refine h.setWorker rfl rfl rfl fun hJoin => ?_
      -- behind the broadcast no worker is on its way to sleep
      have hAwake := h.none_asleep hJoin w
      simp only [Enabled] at hEnabled
      simp [hEnabled, WorkerPc.asleep] at hAwake
  | spuriousWake w => exact h.setWorker rfl rfl rfl fun _ => by simp [WorkerPc.asleep]
  | workerTake w =>
      simp only [effect]
      split
      · exact h.setWorker rfl rfl rfl fun _ => by simp [WorkerPc.asleep]
      · split
        · exact h
        · exact h.setWorker rfl rfl rfl fun _ => by simp [WorkerPc.asleep]
  | workerRun w task =>
      simp only [effect]
      split
      · exact h.setWorker rfl rfl rfl fun _ => by simp [WorkerPc.asleep]
      · exact h.setWorker rfl rfl rfl fun _ => by simp [WorkerPc.asleep]
      · exact h.congr rfl rfl rfl
  | callerLock c => exact h.congr rfl rfl rfl
  | callerTest c =>
      simp only [effect]
      split <;> exact h.congr rfl rfl rfl
  | callerPush c => exact h.congr rfl rfl rfl
  | callerPushThrows c =>
      simp only [effect]
      split <;> exact h.congr rfl rfl rfl
  | callerSignal c woken =>
      cases woken with
      | none => exact h.congr rfl rfl rfl
      | some w => exact h.setWorker rfl rfl rfl fun _ => by simp [WorkerPc.asleep]
  | dtorStop =>
      refine ⟨fun _ => rfl, fun hJoin => ?_⟩
      simp [effect] at hJoin
  | dtorBroadcast =>
      refine ⟨fun _ => h.stop_set ?_, fun _ => wakeAll_not_asleep (hClear rfl)⟩
      simp only [Enabled] at hEnabled
      simp [hEnabled]
  | dtorJoin =>
      simp only [Enabled] at hEnabled
      refine ⟨fun _ => h.stop_set (by simp [hEnabled.1]), fun _ => h.none_asleep (.inl hEnabled.1)⟩

/-- The shutdown invariant in every state of a run whose broadcast is clear. -/
theorem stopInv_reach (v : Variant) {callable : Nat → Bool} {s : State n}
    (h : Reach (step v.impl callable) BroadcastClear (init n) s) : StopInv s :=
  h.invariant stopInv_init fun _ _ _ hInv hMet hStep => stopInv_step v hInv hMet hStep

/-- **A broadcast into the window hangs the pool**: the worker blocks behind
it, whatever happened before. -/
theorem broadcast_in_window_hangs (v : Variant) {callable : Nat → Bool} {s : State n}
    {w : Fin n} (hRunning : s.terminated = false) (hStop : s.dtor = .stopSet)
    (hWindow : s.worker w = .goingToSleep) :
    ∃ s', run (step v.impl callable) s [.dtorBroadcast, .workerBlock w] = some s' ∧ Hung s' := by
  let t := effect v.impl callable s .dtorBroadcast
  have hBroadcast : step v.impl callable s .dtorBroadcast = some t :=
    step_eq_some.mpr ⟨⟨hRunning, hStop⟩, rfl⟩
  have hStays : t.worker w = .goingToSleep := by
    simp [t, effect, wakeAll, hWindow]
  have hBlock : step v.impl callable t (.workerBlock w) =
      some (effect v.impl callable t (.workerBlock w)) :=
    step_eq_some.mpr ⟨⟨hRunning, hStays⟩, rfl⟩
  refine ⟨effect v.impl callable t (.workerBlock w), ?_, rfl, w, ?_⟩
  · simp [run, hBroadcast, hBlock]
  · simp [effect, State.setWorker]

/-- **Shutdown and its window.**  In a run whose broadcast falls into no
worker's window, no state is hung; a broadcast into a window leads to a hung
state in every case. -/
theorem shutdown_hangs_exactly_in_window (v : Variant) (callable : Nat → Bool) :
    (∀ s : State n, Reach (step v.impl callable) BroadcastClear (init n) s → ¬ Hung s) ∧
      ∀ s s' : State n, Reachable (step v.impl callable) (init n) s →
        ¬ BroadcastClear s .dtorBroadcast →
        step v.impl callable s .dtorBroadcast = some s' →
        ∃ t, Reachable (step v.impl callable) s' t ∧ Hung t := by
  constructor
  · rintro s hReach ⟨hJoin, w, hBlocked⟩
    have hAwake := (stopInv_reach v hReach).none_asleep (.inl hJoin) w
    simp [hBlocked, WorkerPc.asleep] at hAwake
  -- the schedule: broadcast into the window, then the worker blocks
  · intro s s' _ hWindow hStep
    simp only [BroadcastClear, true_implies, not_forall, ne_eq, not_not] at hWindow
    obtain ⟨w, hWindow⟩ := hWindow
    obtain ⟨⟨hRunning, hStop⟩, _⟩ := step_eq_some.mp hStep
    obtain ⟨t, hRun, hHung⟩ : ∃ t, run (step v.impl callable) s
        [.dtorBroadcast, .workerBlock w] = some t ∧ Hung t :=
      broadcast_in_window_hangs v hRunning hStop hWindow
    rw [run_cons, hStep, Option.bind_some] at hRun
    exact ⟨t, reachable_of_run hRun, hHung⟩

/-- The only worker is already blocked when the destructor runs, and is woken. -/
def clearTrace (w : Fin n) : List (Action n) :=
  [.workerLock w, .workerTest w, .workerBlock w, .dtorStop, .dtorBroadcast]

instance (s : State n) (a : Action n) : Decidable (BroadcastClear s a) :=
  inferInstanceAs (Decidable (_ → _))

theorem shutdown_hangs_exactly_in_window_clearTrace :
    ∃ s : State 1, s.dtor = .joining ∧ s.worker 0 = .woken ∧ ¬ Hung s := by
  let final := run (guarded (step cpp11 fun _ => true) BroadcastClear) (init 1) (clearTrace 0)
  have hFinal : final = some (final.get (by decide)) := by simp
  have hReach : Reach (step Variant.cpp11.impl fun _ => true) BroadcastClear (init 1)
      (final.get (by decide)) := reach_of_run_guarded hFinal
  exact ⟨_, by decide, by decide,
    (shutdown_hangs_exactly_in_window .cpp11 fun _ => true).1 _ hReach⟩

/-- One worker evaluates its wait condition, the destructor sets the flag and
broadcasts, the worker blocks. -/
def hangTrace (w : Fin n) : List (Action n) :=
  [.workerLock w, .workerTest w, .dtorStop, .dtorBroadcast, .workerBlock w]

/-- Each of the three pools can hang in its destructor. -/
theorem shutdown_hang_reachable :
    (∃ s, Reachable (step Variant.cpp11.impl fun _ => true) (init 1) s ∧ Hung s) ∧
      (∃ s, Reachable (step Variant.raw.impl fun _ => true) (init 1) s ∧ Hung s) ∧
      ∃ s, Reachable (step Variant.echo.impl fun _ => true) (init 1) s ∧ Hung s := by
  have hHung (v : Variant)
      (hRun : (run (step v.impl fun _ => true) (init 1) (hangTrace 0)).map
        (fun s => decide (Hung s)) = some true) :
      ∃ s, Reachable (step v.impl fun _ => true) (init 1) s ∧ Hung s := by
    obtain ⟨s, hReach, hTest⟩ := exists_reachable_of_run hRun
    exact ⟨s, hReach, of_decide_eq_true hTest⟩
  exact ⟨hHung .cpp11 (by decide), hHung .raw (by decide), hHung .echo (by decide)⟩

end ThreadPool
end LinuxCppLearn
