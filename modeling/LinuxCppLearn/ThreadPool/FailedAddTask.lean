import LinuxCppLearn.ThreadPool.HandOut

/-!
# A call of `addTask` that fails

`addTask` fails in three ways: the pool is stopped, the queue is full, or the
insertion of the `std::function` throws.  All exits but one release the mutex.
A failed call is compared with the same steps of the other threads without it.

* `Holding c pc t` — the call `c` is inside its critical section, and all else is
  as in `t`.
* `run_holding` — the others do what they would do without the call.
* `failed_addTask_usable_exactly` — the pool behind the call.
-/

namespace LinuxCppLearn
namespace ThreadPool

open StepSystem

variable {n : Nat}

/-- The step is not one of the call `c`. -/
def Action.OfOthers (c : Nat) : Action n → Prop
  | .callerLock c' | .callerTest c' | .callerPush c' | .callerPushThrows c'
  | .callerSignal c' _ => c' ≠ c
  | _ => True

instance (c : Nat) (a : Action n) : Decidable (a.OfOthers c) := by
  induction a using Action.casesOn <;> unfold Action.OfOthers <;> infer_instance

/-- How a call of `addTask` fails. -/
inductive Failure
  | stopped
  | full
  | insertThrows
deriving DecidableEq, Repr

/-- The call `c` locks the mutex in `s`, and has tested the queue in `s'`; the
other threads make the steps `others` in between. -/
def Tests (impl : Impl) (callable : Nat → Bool) (c : Nat) (s s' : State n)
    (others : List (Action n)) : Prop :=
  (∀ a ∈ others, a.OfOthers c) ∧
    run (step impl callable) s (.callerLock c :: (others ++ [.callerTest c])) = some s'

/-- The call `c` fails, from `s` to `s'`. -/
inductive FailedCall (impl : Impl) (callable : Nat → Bool) (c : Nat) (s s' : State n) :
    Failure → List (Action n) → Prop
  | stopped (others : List (Action n)) (hTests : Tests impl callable c s s' others)
      (hThrew : s'.caller c = .threw) : FailedCall impl callable c s s' .stopped others
  | full (others : List (Action n)) (hTests : Tests impl callable c s s' others)
      (hRefused : s'.caller c = .refused) : FailedCall impl callable c s s' .full others
  | insertThrows (u : State n) (others later : List (Action n))
      (hTests : Tests impl callable c s u others) (hAccepted : u.caller c = .push)
      (hLater : ∀ a ∈ later, a.OfOthers c)
      (hRun : run (step impl callable) u (later ++ [.callerPushThrows c]) = some s') :
      FailedCall impl callable c s s' .insertThrows (others ++ later)

/-- The pool in `s'` can be used as in `t`; `s` is the state before the call. -/
structure UsableAs (impl : Impl) (callable : Nat → Bool) (c : Nat) (s t s' : State n) : Prop where
  free : s'.mutex = none
  queue : s'.mTasks = s.mTasks
  enabled : ∀ a : Action n, a.OfOthers c →
    ((step impl callable s' a).isSome ↔ (step impl callable t a).isSome)

/-- The call `c` owns the mutex; all else is as in `t`. -/
def Holding (c : Nat) (pc : CallerPc) (t : State n) : State n :=
  { t.setCaller c pc with mutex := some (.caller c) }

section Steps

variable {impl : Impl} {callable : Nat → Bool} {s s' t u : State n} {a : Action n} {c : Nat}
  {pc pc' : CallerPc}

/-- What the others can do does not depend on where the call is. -/
theorem enabled_setCaller (hOther : a.OfOthers c) : Enabled (t.setCaller c pc) a ↔ Enabled t a := by
  have hCaller : ∀ c' ≠ c, (t.setCaller c pc).caller c' = t.caller c' := fun c' hNe =>
    Function.update_of_ne hNe ..
  cases a with
  | callerLock c' =>
      simp only [Enabled, hCaller c' hOther]
      exact Iff.rfl
  | callerTest c' | callerPush c' | callerPushThrows c' =>
      simp only [Enabled, hCaller c' hOther]
  | callerSignal c' woken =>
      cases woken with
      | none | some w =>
          simp only [Enabled, hCaller c' hOther]
          exact Iff.rfl
  | _ => exact Iff.rfl

theorem isSome_step :
    (step impl callable s a).isSome ↔ s.terminated = false ∧ Enabled s a := by
  unfold step
  split <;> simp [*]

theorem isSome_step_setCaller (hOther : a.OfOthers c) :
    (step impl callable (t.setCaller c pc) a).isSome ↔ (step impl callable t a).isSome := by
  rw [isSome_step, isSome_step, enabled_setCaller hOther]
  exact Iff.rfl

/-- While the call owns the mutex, no worker is in a critical section. -/
theorem MutexInv.worker_outside {w : Fin n} {pc' : WorkerPc} (hInv : MutexInv (Holding c pc t))
    (hPc : (Holding c pc t).worker w = pc') : pc'.holds = false := by
  subst hPc
  by_contra hHolds
  have hOwner := hInv.worker w (eq_true_of_ne_false hHolds)
  simp [Holding] at hOwner

/-- Nor is another call. -/
theorem MutexInv.caller_outside {c' : Nat} (hInv : MutexInv (Holding c pc t)) (hNe : c' ≠ c) :
    ((Holding c pc t).caller c').holds = false := by
  by_contra hHolds
  have hOwner := hInv.caller c' (eq_true_of_ne_false hHolds)
  exact hNe (by simpa [Holding] using hOwner.symm)

/-- A step of another thread while the call owns the mutex. -/
theorem step_holding (hInv : MutexInv (Holding c pc t)) (hFree : t.mutex = none)
    (hOther : a.OfOthers c) (hStep : step impl callable (Holding c pc t) a = some u) :
    ∃ t', step impl callable t a = some t' ∧ u = Holding c pc t' ∧ t'.mutex = none ∧
      t'.mTasks = t.mTasks := by
  obtain ⟨⟨hRuns, hEnabled⟩, rfl⟩ := step_eq_some.mp hStep
  cases a with
  | workerLock w => exact absurd hEnabled.1 (by simp [Holding])
  | workerTest w | workerBlock w | workerTake w =>
      exact absurd (hInv.worker_outside hEnabled) (by decide)
  | spuriousWake w =>
      exact ⟨t.setWorker w .woken, step_eq_some.mpr ⟨⟨hRuns, hEnabled⟩, rfl⟩, rfl, hFree, rfl⟩
  | workerRun w task =>
      refine ⟨effect impl callable t (.workerRun w task),
        step_eq_some.mpr ⟨⟨hRuns, hEnabled⟩, rfl⟩, ?_⟩
      simp only [effect]
      split <;> exact ⟨rfl, hFree, rfl⟩
  | callerLock c' => exact absurd hEnabled.1 (by simp [Holding])
  | callerTest c' | callerPush c' | callerPushThrows c' =>
      have hHolds := hInv.caller_outside hOther
      rw [hEnabled] at hHolds
      simp [CallerPc.holds] at hHolds
  | callerSignal c' woken =>
      have hCalled : Enabled (t.setCaller c pc) (.callerSignal c' woken) := by
        cases woken <;> exact hEnabled
      have hEnabled' : Enabled t (.callerSignal c' woken) := (enabled_setCaller hOther).mp hCalled
      have hUpdate := Function.update_comm (Ne.symm hOther) pc .returned t.caller
      have hComm : (Holding c pc t).setCaller c' .returned =
          Holding c pc (t.setCaller c' .returned) :=
        congrArg (fun caller => { t with caller := caller, mutex := some (.caller c) }) hUpdate
      cases woken with
      | none =>
          exact ⟨t.setCaller c' .returned, step_eq_some.mpr ⟨⟨hRuns, hEnabled'⟩, rfl⟩, hComm,
            hFree, rfl⟩
      | some w =>
          refine ⟨(t.setCaller c' .returned).setWorker w .woken,
            step_eq_some.mpr ⟨⟨hRuns, hEnabled'⟩, rfl⟩, ?_, hFree, rfl⟩
          exact congrArg (State.setWorker · w .woken) hComm
  | dtorStop =>
      exact ⟨_, step_eq_some.mpr ⟨⟨hRuns, hEnabled⟩, rfl⟩, rfl, hFree, rfl⟩
  | dtorBroadcast =>
      exact ⟨_, step_eq_some.mpr ⟨⟨hRuns, hEnabled⟩, rfl⟩, rfl, hFree, rfl⟩
  | dtorJoin =>
      exact ⟨_, step_eq_some.mpr ⟨⟨hRuns, hEnabled⟩, rfl⟩, rfl, hFree, rfl⟩

theorem run_holding {others : List (Action n)} (hInv : MutexInv (Holding c pc t))
    (hFree : t.mutex = none) (hOthers : ∀ a ∈ others, a.OfOthers c)
    (hRun : run (step impl callable) (Holding c pc t) others = some u) :
    ∃ t', run (step impl callable) t others = some t' ∧ u = Holding c pc t' ∧
      t'.mutex = none ∧ t'.mTasks = t.mTasks ∧ MutexInv u := by
  induction others generalizing t with
  | nil =>
      obtain rfl := Option.some.inj hRun
      exact ⟨t, rfl, rfl, hFree, rfl, hInv⟩
  | cons a others ih =>
      rw [run_cons, Option.bind_eq_some_iff] at hRun
      obtain ⟨v, hStep, hRest⟩ := hRun
      obtain ⟨t₁, hStep', rfl, hFree', hTasks⟩ :=
        step_holding hInv hFree (hOthers a List.mem_cons_self) hStep
      obtain ⟨t', hRun', hHolding, hFree'', hTasks', hInv'⟩ := ih (mutexInv_step hInv hStep) hFree'
        (fun b hMem => hOthers b (List.mem_cons_of_mem _ hMem)) hRest
      refine ⟨t', ?_, hHolding, hFree'', hTasks'.trans hTasks, hInv'⟩
      rw [run_cons, hStep']
      exact hRun'

/-- Inside its critical section the call moves on. -/
theorem setCaller_holding : (Holding c pc t).setCaller c pc' = Holding c pc' t :=
  congrArg (fun caller => { t with caller := caller, mutex := some (.caller c) })
    (Function.update_idem ..)

/-- An exit that releases the mutex. -/
theorem release_holding (hFree : t.mutex = none) :
    { (Holding c pc t).setCaller c pc' with mutex := none } = t.setCaller c pc' := by
  rw [setCaller_holding, ← hFree]
  rfl

theorem usableAs_setCaller (hFree : t.mutex = none) (hTasks : t.mTasks = s.mTasks) :
    UsableAs impl callable c s t (t.setCaller c pc) :=
  ⟨hFree, hTasks, fun _ hOther => isSome_step_setCaller hOther⟩

/-- The call has passed its test, or has left its critical section. -/
theorem callerTest_cases :
    effect impl callable (Holding c .test t) (.callerTest c) = Holding c .push t ∨
      effect impl callable (Holding c .test t) (.callerTest c) =
        { (Holding c .test t).setCaller c .threw with mutex := none } ∨
      effect impl callable (Holding c .test t) (.callerTest c) =
        { (Holding c .test t).setCaller c .refused with mutex := none } := by
  simp only [effect]
  split
  · exact .inl setCaller_holding
  · exact .inr (.inl rfl)
  · exact .inr (.inr rfl)

theorem Tests.outcome {others : List (Action n)} (hInv : MutexInv s)
    (h : Tests impl callable c s s' others) :
    ∃ t, run (step impl callable) s others = some t ∧ t.mutex = none ∧ t.mTasks = s.mTasks ∧
      MutexInv s' ∧ (s' = Holding c .push t ∨ s' = t.setCaller c .threw ∨
        s' = t.setCaller c .refused) := by
  obtain ⟨hOthers, hRun⟩ := h
  rw [run_cons, Option.bind_eq_some_iff] at hRun
  obtain ⟨s₁, hLock, hRun⟩ := hRun
  have hInv₁ := mutexInv_step hInv hLock
  obtain ⟨⟨-, hFree, -⟩, rfl⟩ := step_eq_some.mp hLock
  rw [run_append, Option.bind_eq_some_iff] at hRun
  obtain ⟨s₂, hBetween, hTest⟩ := hRun
  obtain ⟨t, hRun', rfl, hFree', hTasks, hInv₂⟩ := run_holding hInv₁ hFree hOthers hBetween
  rw [run_cons, Option.bind_eq_some_iff] at hTest
  obtain ⟨s₃, hStep, hEq⟩ := hTest
  obtain rfl := Option.some.inj hEq
  have hInv₃ := mutexInv_step hInv₂ hStep
  obtain ⟨-, rfl⟩ := step_eq_some.mp hStep
  refine ⟨t, hRun', hFree', hTasks, hInv₃, ?_⟩
  rw [← release_holding hFree', ← release_holding hFree']
  exact callerTest_cases

theorem setCaller_caller : (t.setCaller c pc).caller c = pc := Function.update_self ..

/-- The state behind a failed call: the call has left, or it owns the mutex for
ever. -/
theorem FailedCall.outcome {failure : Failure} {others : List (Action n)} (hInv : MutexInv s)
    (h : FailedCall impl callable c s s' failure others) :
    ∃ t, run (step impl callable) s others = some t ∧ t.mutex = none ∧ t.mTasks = s.mTasks ∧
      s' = if failure = .insertThrows ∧ impl.unlocksOnThrow = false then Holding c .threw t
        else t.setCaller c (s'.caller c) := by
  cases h with
  | stopped others hTests hThrew =>
      obtain ⟨t, hRun, hFree, hTasks, -, hCases⟩ := hTests.outcome hInv
      refine ⟨t, hRun, hFree, hTasks, ?_⟩
      rw [if_neg (by simp)]
      rcases hCases with rfl | rfl | rfl
      · exact absurd (setCaller_caller.symm.trans hThrew) (by decide)
      · rw [setCaller_caller]
      · rw [setCaller_caller]
  | full others hTests hRefused =>
      obtain ⟨t, hRun, hFree, hTasks, -, hCases⟩ := hTests.outcome hInv
      refine ⟨t, hRun, hFree, hTasks, ?_⟩
      rw [if_neg (by simp)]
      rcases hCases with rfl | rfl | rfl
      · exact absurd (setCaller_caller.symm.trans hRefused) (by decide)
      · rw [setCaller_caller]
      · rw [setCaller_caller]
  | insertThrows u others later hTests hAccepted hLater hRun =>
      obtain ⟨t, hBefore, hFree, hTasks, hInv', hCases⟩ := hTests.outcome hInv
      have hPush : u = Holding c .push t := by
        rcases hCases with hPush | rfl | rfl
        · exact hPush
        · exact absurd (setCaller_caller.symm.trans hAccepted) (by decide)
        · exact absurd (setCaller_caller.symm.trans hAccepted) (by decide)
      subst hPush
      rw [run_append, Option.bind_eq_some_iff] at hRun
      obtain ⟨v, hBetween, hThrows⟩ := hRun
      obtain ⟨t', hAfter, rfl, hFree', hTasks', -⟩ := run_holding hInv' hFree hLater hBetween
      rw [run_cons, Option.bind_eq_some_iff] at hThrows
      obtain ⟨v, hStep, hEq⟩ := hThrows
      obtain rfl := Option.some.inj hEq
      obtain ⟨-, rfl⟩ := step_eq_some.mp hStep
      refine ⟨t', ?_, hFree', hTasks'.trans hTasks, ?_⟩
      · rw [run_append, hBefore]
        exact hAfter
      · simp only [effect]
        cases hUnlocks : impl.unlocksOnThrow with
        | false => simp [setCaller_holding]
        | true => simp [release_holding hFree', setCaller_caller]

end Steps

theorem Variant.impl_unlocksOnThrow (v : Variant) :
    v.impl.unlocksOnThrow = false ↔ v ≠ .cpp11 := by
  cases v <;> decide

/-- **A failed `addTask` leaves the pool usable** exactly if it is the C++11 pool
or the insertion does not throw. -/
theorem failed_addTask_usable_exactly (v : Variant) (callable : Nat → Bool) (c : Nat)
    (failure : Failure) (others : List (Action n)) {s s' : State n}
    (hReach : Reachable (step v.impl callable) (init n) s)
    (hCall : FailedCall v.impl callable c s s' failure others) :
    (∃ t, run (step v.impl callable) s others = some t ∧
      UsableAs v.impl callable c s t s') ↔ v = .cpp11 ∨ failure ≠ .insertThrows := by
  have hInv : MutexInv s :=
    hReach.invariant mutexInv_init fun _ _ _ hBefore _ hStep => mutexInv_step hBefore hStep
  obtain ⟨t, hRun, hFree, hTasks, hEffect⟩ := hCall.outcome hInv
  simp only [v.impl_unlocksOnThrow] at hEffect
  by_cases hLocked : failure = .insertThrows ∧ v ≠ .cpp11
  · rw [if_pos hLocked] at hEffect
    refine iff_of_false ?_ ?_
    · rintro ⟨_, -, hUsable⟩
      have hFree' := hUsable.free
      rw [hEffect] at hFree'
      simp [Holding] at hFree'
    · rintro (hCpp | hOther)
      · exact hLocked.2 hCpp
      · exact hOther hLocked.1
  · rw [if_neg hLocked] at hEffect
    refine iff_of_true ⟨t, hRun, ?_⟩ ?_
    · rw [hEffect]
      exact usableAs_setCaller hFree hTasks
    · by_cases hCpp : v = .cpp11
      · exact .inl hCpp
      · exact .inr fun hInsert => hLocked ⟨hInsert, hCpp⟩

/-- In the C++11 pool an insertion throws while the destructor is called. -/
theorem failed_addTask_usable_exactly_cpp11 :
    ∃ s' t : State 1, s'.caller 0 = .threw ∧
      run (step cpp11 fun _ => true) (init 1) [.dtorStop] = some t ∧
        UsableAs cpp11 (fun _ => true) 0 (init 1) t s' := by
  let impl := Variant.cpp11.impl
  let u := run (step impl fun _ => true) (init 1) [.callerLock 0, .callerTest 0]
  have hTest : u = some (u.get (by decide)) := by simp
  let s' := run (step impl fun _ => true) (u.get (by decide)) [.dtorStop, .callerPushThrows 0]
  have hThrows : s' = some (s'.get (by decide)) := by simp
  have hCall : FailedCall impl (fun _ => true) 0 (init 1) (s'.get (by decide)) .insertThrows
      ([] ++ [.dtorStop]) :=
    .insertThrows _ [] [.dtorStop] ⟨by simp, hTest⟩ (by decide) (by decide) hThrows
  obtain ⟨t, hRun, hUsable⟩ := (failed_addTask_usable_exactly .cpp11 (fun _ => true) 0
    .insertThrows _ Reach.start hCall).mpr (.inl rfl)
  exact ⟨_, t, by decide, hRun, hUsable⟩

/-- The first call of a pool with one worker fails like this. -/
theorem insertThrows_alone (impl : Impl)
    (hRun : ((run (step impl fun _ => true) (init 1) [.callerLock 0, .callerTest 0]).bind fun u =>
      (run (step impl fun _ => true) u [.callerPushThrows 0]).map fun s' =>
        decide (u.caller 0 = .push ∧ s'.mutex = some (.caller 0))) = some true) :
    ∃ s' : State 1, FailedCall impl (fun _ => true) 0 (init 1) s' .insertThrows [] ∧
      s'.mutex = some (.caller 0) := by
  simp only [Option.bind_eq_some_iff, Option.map_eq_some_iff] at hRun
  obtain ⟨u, hTest, s', hThrows, hBoth⟩ := hRun
  obtain ⟨hAccepted, hMutex⟩ := of_decide_eq_true hBoth
  exact ⟨s', .insertThrows u [] [] ⟨by simp, hTest⟩ hAccepted (by simp) hThrows, hMutex⟩

/-- In the two pthread pools the mutex stays locked: no worker and no other call
of `addTask` gets in. -/
theorem failed_addTask_keeps_mutex :
    (∃ s' : State 1, FailedCall raw (fun _ => true) 0 (init 1) s' .insertThrows [] ∧
      Enabled (init 1) (.workerLock 0) ∧ ¬ Enabled s' (.workerLock 0) ∧
      ¬ Enabled s' (.callerLock 1) ∧ ¬ UsableAs raw (fun _ => true) 0 (init 1) (init 1) s') ∧
    ∃ s' : State 1, FailedCall echo (fun _ => true) 0 (init 1) s' .insertThrows [] ∧
      Enabled (init 1) (.workerLock 0) ∧ ¬ Enabled s' (.workerLock 0) ∧
      ¬ Enabled s' (.callerLock 1) ∧ ¬ UsableAs echo (fun _ => true) 0 (init 1) (init 1) s' := by
  have hFree : Enabled (init 1) (.workerLock 0) := by decide
  constructor
  · obtain ⟨s', hCall, hMutex⟩ := insertThrows_alone raw (by decide)
    have hLocked : s'.mutex ≠ none := by simp [hMutex]
    exact ⟨s', hCall, hFree, fun h => hLocked h.1, fun h => hLocked h.1, fun h => hLocked h.free⟩
  · obtain ⟨s', hCall, hMutex⟩ := insertThrows_alone echo (by decide)
    have hLocked : s'.mutex ≠ none := by simp [hMutex]
    exact ⟨s', hCall, hFree, fun h => hLocked h.1, fun h => hLocked h.1, fun h => hLocked h.free⟩

end ThreadPool
end LinuxCppLearn
