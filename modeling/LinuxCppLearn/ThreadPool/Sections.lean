import LinuxCppLearn.Library.Lockstep
import LinuxCppLearn.ThreadPool.Model

/-!
# The pools by critical sections

The pthread pool and the C++11 pool side by side.  A step is a whole critical
section, or what lies between two of them: a call of `addTask`, a worker that
takes a task, runs it or returns, and `m_stop = true`.  Both are made of the
parts that an `Impl` writes down.

* `section_is_run`, `sections_are_run` — every such step is a run of the step
  model of `Model`, from and to a state in which the mutex is free.
* `sectionStep_eq`, `sectionStep_ne` — the two pools answer a step alike unless
  it runs an empty `std::function`, and then they do not.
* `pools_in_lockstep_exactly` — so they are the same pool exactly as long as no
  worker runs one.
-/

namespace LinuxCppLearn
namespace ThreadPool

open StepSystem Lockstep

/-- What a submitted `std::function` does when it is invoked. -/
inductive TaskKind
  /-- it holds no callable -/
  | empty
  | returns
  /-- an exception escapes -/
  | throws
deriving DecidableEq, Repr

def TaskKind.callable : TaskKind → Bool
  | .empty => false
  | .returns | .throws => true

/-- Where a worker is, between critical sections. -/
inductive SectionPc
  | top
  | running (task : Nat)
  | exited
deriving DecidableEq, Repr

structure Sections (n : Nat) where
  mStop : Bool
  mTasks : List Nat
  worker : Fin n → SectionPc
  /-- how each call of `addTask` has ended -/
  answer : Nat → Option Verdict
  executed : List Nat
  terminated : Bool

def Sections.init (n : Nat) : Sections n where
  mStop := false
  mTasks := []
  worker _ := .top
  answer _ := none
  executed := []
  terminated := false

inductive SectionStep (n : Nat)
  | addTask (c : Nat)
  | take (w : Fin n)
  | run (w : Fin n)
  | stop
  | exit (w : Fin n)
deriving DecidableEq, Repr

section

variable {n : Nat}

def Sections.setWorker (s : Sections n) (w : Fin n) (pc : SectionPc) : Sections n :=
  { s with worker := Function.update s.worker w pc }

def sectionAddTask (impl : Impl) (s : Sections n) (c : Nat) : Option (Sections n) :=
  if s.answer c = none then
    let verdict := impl.addTask s.mStop s.mTasks.length
    some { s with
      answer := Function.update s.answer c (some verdict)
      mTasks := if verdict = .accept then s.mTasks ++ [c] else s.mTasks }
  else none

/-- The worker's critical section, if it does not sleep in it and does not
return. -/
def sectionTake (impl : Impl) (s : Sections n) (w : Fin n) : Option (Sections n) :=
  if s.worker w = .top ∧ impl.keepsWaiting s.mStop s.mTasks.isEmpty = false ∧
      impl.exits s.mStop s.mTasks.isEmpty = false then
    match s.mTasks with
    | [] => none
    | task :: rest => some { s.setWorker w (.running task) with mTasks := rest }
  else none

def sectionExit (impl : Impl) (s : Sections n) (w : Fin n) : Option (Sections n) :=
  if s.worker w = .top ∧ impl.keepsWaiting s.mStop s.mTasks.isEmpty = false ∧
      impl.exits s.mStop s.mTasks.isEmpty = true then
    some (s.setWorker w .exited)
  else none

/-- An exception that leaves the thread function ends the process. -/
def sectionRun (impl : Impl) (kind : Nat → TaskKind) (s : Sections n) (w : Fin n) :
    Option (Sections n) :=
  match s.worker w with
  | .running task =>
      match impl.invoke (kind task).callable with
      | .called =>
          some { s.setWorker w .top with
            executed := s.executed ++ [task]
            terminated := kind task = .throws }
      | .skipped => some (s.setWorker w .top)
      | .terminates => some { s with terminated := true }
  | .top | .exited => none

def sectionStep (impl : Impl) (kind : Nat → TaskKind) (s : Sections n) (a : SectionStep n) :
    Option (Sections n) :=
  if s.terminated then none
  else
    match a with
    | .addTask c => sectionAddTask impl s c
    | .take w => sectionTake impl s w
    | .run w => sectionRun impl kind s w
    | .stop => some { s with mStop := true }
    | .exit w => sectionExit impl s w

/-! ## A section is a run of the step model -/

/-- The place of a worker between critical sections: before its next one it may
also be asleep, or on its way back from that. -/
def SectionPc.Stands : SectionPc → WorkerPc → Prop
  | .top, pc => pc = .top ∨ pc = .blocked ∨ pc = .woken
  | .running task, pc => pc = .running task
  | .exited, pc => pc = .exited

/-- How a call that is not under way has ended. -/
def CallerPc.Ended : CallerPc → Option Verdict → Prop
  | .ready, answer => answer = none
  | .returned, answer => answer = some .accept
  | .threw, answer => answer = some .throws
  | .refused, answer => answer = some .refuse
  | .test, _ | .push, _ | .signal, _ => False

/-- A state of the step model in which nobody is inside a critical section. -/
structure Between (f : State n) (s : Sections n) : Prop where
  mutex : f.mutex = none
  mStop : f.mStop = s.mStop
  mTasks : f.mTasks = s.mTasks
  executed : f.executed = s.executed
  terminated : f.terminated = s.terminated
  worker : ∀ w, (s.worker w).Stands (f.worker w)
  caller : ∀ c, (f.caller c).Ended (s.answer c)
  dtor : f.dtor ≠ .notCalled → f.mStop = true

theorem between_init (n : Nat) : Between (init n) (Sections.init n) :=
  ⟨rfl, rfl, rfl, rfl, rfl, fun _ => .inl rfl, fun _ => rfl, fun h => absurd rfl h⟩

section Runs

variable {impl : Impl} {kind : Nat → TaskKind} {f : State n} {s s' : Sections n}

/-- The step model sees of a task whether it holds a callable. -/
def fineStep (impl : Impl) (kind : Nat → TaskKind) : State n → Action n → Option (State n) :=
  step impl fun c => (kind c).callable

theorem fineStep_to {f' : State n} {a : Action n} (hAlive : f.terminated = false)
    (h : Enabled f a) (hEffect : effect impl (fun c => (kind c).callable) f a = f') :
    fineStep impl kind f a = some f' :=
  step_eq_some.mpr ⟨⟨hAlive, h⟩, hEffect⟩

/-- A worker inside its critical section. -/
def State.inside (f : State n) (w : Fin n) (pc : WorkerPc) : State n :=
  { f.setWorker w pc with mutex := some (.worker w) }

theorem Between.setWorker (h : Between f s) {w : Fin n} {pc : WorkerPc} {at' : SectionPc}
    (hStands : at'.Stands pc) (v : Fin n) :
    (Function.update s.worker w at' v).Stands (Function.update f.worker w pc v) := by
  by_cases hEq : v = w
  · subst hEq
    rw [Function.update_self, Function.update_self]
    exact hStands
  · rw [Function.update_of_ne hEq, Function.update_of_ne hEq]
    exact h.worker v

theorem Between.setCaller (h : Between f s) {c : Nat} {pc : CallerPc} {answer : Option Verdict}
    (hEnded : pc.Ended answer) (d : Nat) :
    (Function.update f.caller c pc d).Ended (Function.update s.answer c answer d) := by
  by_cases hEq : d = c
  · subst hEq
    rw [Function.update_self, Function.update_self]
    exact hEnded
  · rw [Function.update_of_ne hEq, Function.update_of_ne hEq]
    exact h.caller d

/-- A worker before its critical section locks the mutex and gets past the wait
loop, if the loop does not keep it. -/
theorem run_past_wait (h : Between f s) (hAlive : s.terminated = false) {w : Fin n}
    (hPc : s.worker w = .top) (hWait : impl.keepsWaiting s.mStop s.mTasks.isEmpty = false) :
    ∃ as, run (fineStep impl kind) f as = some (f.inside w .awake) := by
  have hAlive' : f.terminated = false := h.terminated.trans hAlive
  have hWait' : impl.keepsWaiting f.mStop f.mTasks.isEmpty = false := by
    rw [h.mStop, h.mTasks]
    exact hWait
  -- from the top of the loop, or woken up
  have hLock : ∀ g : State n, g.terminated = false → g.mutex = none →
      g.worker w = .top ∨ g.worker w = .woken →
      impl.keepsWaiting g.mStop g.mTasks.isEmpty = false →
      run (fineStep impl kind) g [.workerLock w, .workerTest w] = some (g.inside w .awake) := by
    intro g hG hMutex hAt hLoop
    have hFirst : fineStep impl kind g (.workerLock w) = some (g.inside w .test) :=
      fineStep_to hG ⟨hMutex, hAt⟩ rfl
    have hSecond : fineStep impl kind (g.inside w .test) (.workerTest w) =
        some (g.inside w .awake) := by
      refine fineStep_to hG ?_ ?_
      · simp [Enabled, State.inside, State.setWorker]
      · simp [effect, State.inside, State.setWorker, hLoop]
    rw [run_cons, hFirst, Option.bind_some, run_cons, hSecond, Option.bind_some, run_nil]
  have hAt := h.worker w
  rw [hPc] at hAt
  rcases hAt with hTop | hBlocked | hWoken
  · exact ⟨_, hLock f hAlive' h.mutex (.inl hTop) hWait'⟩
  · have hWake : fineStep impl kind f (.spuriousWake w) = some (f.setWorker w .woken) :=
      fineStep_to hAlive' hBlocked rfl
    refine ⟨.spuriousWake w :: [.workerLock w, .workerTest w], ?_⟩
    rw [run_cons, hWake, Option.bind_some,
      hLock (f.setWorker w .woken) hAlive' h.mutex (.inr (by simp [State.setWorker])) hWait']
    simp [State.inside, State.setWorker]
  · exact ⟨_, hLock f hAlive' h.mutex (.inr hWoken) hWait'⟩

theorem take_is_run (h : Between f s) (hAlive : s.terminated = false) {w : Fin n}
    (hStep : sectionTake impl s w = some s') :
    ∃ as f', run (fineStep impl kind) f as = some f' ∧ Between f' s' := by
  unfold sectionTake at hStep
  split at hStep
  · rename_i hMet
    obtain ⟨hPc, hWait, hStays⟩ := hMet
    obtain ⟨as, hPast⟩ : ∃ as, run (fineStep impl kind) f as = some (f.inside w .awake) :=
      run_past_wait h hAlive hPc hWait
    split at hStep
    · simp at hStep
    · rename_i task rest hQueue
      obtain rfl := Option.some.inj hStep
      have hQueue' : f.mTasks = task :: rest := h.mTasks.trans hQueue
      have hStays' : impl.exits f.mStop false = false := by
        rw [h.mStop]
        simpa [hQueue] using hStays
      have hTake : fineStep impl kind (f.inside w .awake) (.workerTake w) =
          some { f.setWorker w (.running task) with
            mutex := none, mTasks := rest, taken := f.taken ++ [(w, task)] } := by
        refine fineStep_to (h.terminated.trans hAlive) ?_ ?_
        · simp [Enabled, State.inside, State.setWorker]
        · simp [effect, State.inside, State.setWorker, hStays', hQueue']
      refine ⟨as ++ [.workerTake w], { f.setWorker w (.running task) with
        mutex := none, mTasks := rest, taken := f.taken ++ [(w, task)] }, ?_, ?_⟩
      · rw [run_append, hPast, Option.bind_some, run_cons, hTake, Option.bind_some, run_nil]
      · exact ⟨rfl, h.mStop, rfl, h.executed, h.terminated, h.setWorker rfl, h.caller, h.dtor⟩
  · simp at hStep

theorem exit_is_run (h : Between f s) (hAlive : s.terminated = false) {w : Fin n}
    (hStep : sectionExit impl s w = some s') :
    ∃ as f', run (fineStep impl kind) f as = some f' ∧ Between f' s' := by
  unfold sectionExit at hStep
  split at hStep
  · rename_i hMet
    obtain ⟨hPc, hWait, hLeaves⟩ := hMet
    obtain rfl := Option.some.inj hStep
    obtain ⟨as, hPast⟩ : ∃ as, run (fineStep impl kind) f as = some (f.inside w .awake) :=
      run_past_wait h hAlive hPc hWait
    have hLeaves' : impl.exits f.mStop f.mTasks.isEmpty = true := by
      rw [h.mStop, h.mTasks]
      exact hLeaves
    have hExit : fineStep impl kind (f.inside w .awake) (.workerTake w) =
        some { f.setWorker w .exited with mutex := none } := by
      refine fineStep_to (h.terminated.trans hAlive) ?_ ?_
      · simp [Enabled, State.inside, State.setWorker]
      · simp [effect, State.inside, State.setWorker, hLeaves']
    refine ⟨as ++ [.workerTake w], { f.setWorker w .exited with mutex := none }, ?_, ?_⟩
    · rw [run_append, hPast, Option.bind_some, run_cons, hExit, Option.bind_some, run_nil]
    · exact ⟨rfl, h.mStop, h.mTasks, h.executed, h.terminated, h.setWorker rfl, h.caller, h.dtor⟩
  · simp at hStep

/-- The task of a call is in the queue, and the call is at `pc`. -/
def State.pushed (f : State n) (c : Nat) (pc : CallerPc) : State n :=
  { f.setCaller c pc with
    mutex := none
    mTasks := f.mTasks ++ [c]
    accepted := f.accepted ++ [c] }

/-- The signal wakes a sleeping worker, if there is one. -/
theorem signal_is_run (h : Between f s) (hAlive : s.terminated = false) (c : Nat) :
    ∃ who worker, fineStep impl kind (f.pushed c .signal) (.callerSignal c who) =
        some { f.pushed c .returned with worker := worker } ∧
      ∀ w, (s.worker w).Stands (worker w) := by
  have hAlive' : f.terminated = false := h.terminated.trans hAlive
  by_cases hSleeps : ∃ w, f.worker w = .blocked
  · obtain ⟨w, hBlocked⟩ := hSleeps
    refine ⟨some w, Function.update f.worker w .woken, ?_, fun v => ?_⟩
    · refine fineStep_to hAlive' ⟨?_, hBlocked⟩ ?_
      · simp [State.pushed, State.setCaller]
      · simp [effect, State.pushed, State.setCaller, State.setWorker]
    · have hAt := h.worker v
      by_cases hEq : v = w
      · subst hEq
        rw [hBlocked] at hAt
        rw [Function.update_self]
        cases hPc : s.worker v with
        | top => exact .inr (.inr rfl)
        | running task | exited =>
            rw [hPc] at hAt
            simp [SectionPc.Stands] at hAt
      · rw [Function.update_of_ne hEq]
        exact hAt
  · refine ⟨none, f.worker, ?_, h.worker⟩
    refine fineStep_to hAlive' ⟨?_, fun w hBlocked => hSleeps ⟨w, hBlocked⟩⟩ ?_
    · simp [State.pushed, State.setCaller]
    · simp [effect, State.pushed, State.setCaller]

theorem addTask_is_run (h : Between f s) (hAlive : s.terminated = false) {c : Nat}
    (hStep : sectionAddTask impl s c = some s') :
    ∃ as f', run (fineStep impl kind) f as = some f' ∧ Between f' s' := by
  have hAlive' : f.terminated = false := h.terminated.trans hAlive
  unfold sectionAddTask at hStep
  split at hStep
  · rename_i hNew
    have hReady : f.caller c = .ready := by
      have hEnded := h.caller c
      rw [hNew] at hEnded
      cases hPc : f.caller c with
      | ready => rfl
      | test | push | signal | returned | threw | refused =>
          rw [hPc] at hEnded
          simp [CallerPc.Ended] at hEnded
    have hLock : fineStep impl kind f (.callerLock c) =
        some { f.setCaller c .test with mutex := some (.caller c) } :=
      fineStep_to hAlive' ⟨h.mutex, hReady⟩ rfl
    -- the test, if it does not let the call through
    have hTurnedAway : ∀ pc : CallerPc, effect impl (fun c => (kind c).callable)
          { f.setCaller c .test with mutex := some (.caller c) } (.callerTest c) =
          { f.setCaller c pc with mutex := none } →
        run (fineStep impl kind) f [.callerLock c, .callerTest c] =
          some { f.setCaller c pc with mutex := none } := by
      intro pc hEffect
      have hTest : fineStep impl kind { f.setCaller c .test with mutex := some (.caller c) }
          (.callerTest c) = some { f.setCaller c pc with mutex := none } :=
        fineStep_to hAlive' (by simp [Enabled, State.setCaller]) hEffect
      rw [run_cons, hLock, Option.bind_some, run_cons, hTest, Option.bind_some, run_nil]
    obtain rfl := Option.some.inj hStep
    cases hVerdict : impl.addTask s.mStop s.mTasks.length with
    | accept =>
        have hTest : fineStep impl kind { f.setCaller c .test with mutex := some (.caller c) }
            (.callerTest c) = some { f.setCaller c .push with mutex := some (.caller c) } := by
          refine fineStep_to hAlive' ?_ ?_
          · simp [Enabled, State.setCaller]
          · simp [effect, State.setCaller, h.mStop, h.mTasks, hVerdict]
        have hPush : fineStep impl kind { f.setCaller c .push with mutex := some (.caller c) }
            (.callerPush c) = some (f.pushed c .signal) := by
          refine fineStep_to hAlive' ?_ ?_
          · simp [Enabled, State.setCaller]
          · simp [effect, State.setCaller, State.pushed]
        obtain ⟨who, worker, hSignal, hStands⟩ : ∃ who worker,
            fineStep impl kind (f.pushed c .signal) (.callerSignal c who) =
              some { f.pushed c .returned with worker := worker } ∧
            ∀ w, (s.worker w).Stands (worker w) := signal_is_run h hAlive c
        refine ⟨[.callerLock c, .callerTest c, .callerPush c, .callerSignal c who],
          { f.pushed c .returned with worker := worker }, ?_, ?_⟩
        · rw [run_cons, hLock, Option.bind_some, run_cons, hTest, Option.bind_some, run_cons,
            hPush, Option.bind_some, run_cons, hSignal, Option.bind_some, run_nil]
        · refine ⟨rfl, h.mStop, ?_, h.executed, h.terminated, hStands, h.setCaller rfl, h.dtor⟩
          show f.mTasks ++ [c] = _
          rw [if_pos rfl, h.mTasks]
    | throws =>
        refine ⟨_, { f.setCaller c .threw with mutex := none }, hTurnedAway .threw ?_, ?_⟩
        · simp [effect, State.setCaller, h.mStop, h.mTasks, hVerdict]
        · exact ⟨rfl, h.mStop, h.mTasks, h.executed, h.terminated, h.worker, h.setCaller rfl,
            h.dtor⟩
    | refuse =>
        refine ⟨_, { f.setCaller c .refused with mutex := none }, hTurnedAway .refused ?_, ?_⟩
        · simp [effect, State.setCaller, h.mStop, h.mTasks, hVerdict]
        · exact ⟨rfl, h.mStop, h.mTasks, h.executed, h.terminated, h.worker, h.setCaller rfl,
            h.dtor⟩
  · simp at hStep

theorem run_is_run (h : Between f s) (hAlive : s.terminated = false) {w : Fin n}
    (hKind : ∀ c, kind c ≠ .throws) (hStep : sectionRun impl kind s w = some s') :
    ∃ as f', run (fineStep impl kind) f as = some f' ∧ Between f' s' := by
  have hAlive' : f.terminated = false := h.terminated.trans hAlive
  unfold sectionRun at hStep
  cases hPc : s.worker w with
  | top | exited => simp [hPc] at hStep
  | running task =>
      have hAt : f.worker w = .running task := by
        have hStands := h.worker w
        rw [hPc] at hStands
        exact hStands
      have hQuiet : decide (kind task = .throws) = false := decide_eq_false (hKind task)
      simp only [hPc, hQuiet] at hStep
      have hRun : ∀ f', effect impl (fun c => (kind c).callable) f (.workerRun w task) = f' →
          run (fineStep impl kind) f [.workerRun w task] = some f' := by
        intro f' hEffect
        have hStepTo : fineStep impl kind f (.workerRun w task) = some f' :=
          fineStep_to hAlive' hAt hEffect
        rw [run_cons, hStepTo, Option.bind_some, run_nil]
      cases hInvoke : impl.invoke (kind task).callable with
      | called =>
          simp only [hInvoke, Option.some.injEq] at hStep
          subst hStep
          refine ⟨_, _, hRun { f.setWorker w .top with executed := f.executed ++ [task] } ?_, ?_⟩
          · simp only [effect, hInvoke]
          · refine ⟨h.mutex, h.mStop, h.mTasks, ?_, hAlive', h.setWorker (.inl rfl), h.caller,
              h.dtor⟩
            show f.executed ++ [task] = s.executed ++ [task]
            rw [h.executed]
      | skipped =>
          simp only [hInvoke, Option.some.injEq] at hStep
          subst hStep
          refine ⟨_, _, hRun (f.setWorker w .top) ?_, ?_⟩
          · simp only [effect, hInvoke]
          · exact ⟨h.mutex, h.mStop, h.mTasks, h.executed, h.terminated, h.setWorker (.inl rfl),
              h.caller, h.dtor⟩
      | terminates =>
          simp only [hInvoke, Option.some.injEq] at hStep
          subst hStep
          refine ⟨_, _, hRun { f with terminated := true } ?_, ?_⟩
          · simp only [effect, hInvoke]
          · exact ⟨h.mutex, h.mStop, h.mTasks, h.executed, rfl, h.worker, h.caller, h.dtor⟩

/-- `m_stop = true` a second time changes nothing. -/
theorem stop_is_run (h : Between f s) (hAlive : s.terminated = false) :
    ∃ as f', run (fineStep impl kind) f as = some f' ∧ Between f' { s with mStop := true } := by
  by_cases hCalled : f.dtor = .notCalled
  · have hStop : fineStep impl kind f .dtorStop =
        some { f with mStop := true, dtor := .stopSet } :=
      fineStep_to (h.terminated.trans hAlive) hCalled rfl
    refine ⟨[.dtorStop], { f with mStop := true, dtor := .stopSet }, ?_, ?_⟩
    · rw [run_cons, hStop, Option.bind_some, run_nil]
    · exact ⟨h.mutex, rfl, h.mTasks, h.executed, h.terminated, h.worker, h.caller, fun _ => rfl⟩
  · exact ⟨[], f, rfl, h.mutex, h.dtor hCalled, h.mTasks, h.executed, h.terminated, h.worker,
      h.caller, h.dtor⟩

/-- **Every section is a run of the step model**, for tasks that do not throw
(the step model has none that do). -/
theorem section_is_run (hKind : ∀ c, kind c ≠ .throws) (h : Between f s) {a : SectionStep n}
    (hStep : sectionStep impl kind s a = some s') :
    ∃ as f', run (fineStep impl kind) f as = some f' ∧ Between f' s' := by
  unfold sectionStep at hStep
  split at hStep
  · simp at hStep
  · rename_i hEnded
    have hAlive : s.terminated = false := by simpa using hEnded
    cases a with
    | addTask c => exact addTask_is_run h hAlive hStep
    | take w => exact take_is_run h hAlive hStep
    | run w => exact run_is_run h hAlive hKind hStep
    | stop =>
        obtain rfl := Option.some.inj hStep
        exact stop_is_run h hAlive
    | exit w => exact exit_is_run h hAlive hStep

theorem sections_are_run (hKind : ∀ c, kind c ≠ .throws) {steps : List (SectionStep n)}
    (hRun : run (sectionStep impl kind) (Sections.init n) steps = some s) :
    ∃ f, Reachable (fineStep impl kind) (init n) f ∧ Between f s := by
  have hReach := reachable_of_run hRun
  refine hReach.invariant
    (P := fun s => ∃ f, Reachable (fineStep impl kind) (init n) f ∧ Between f s)
    ⟨init n, Reach.start, between_init n⟩ ?_
  rintro s a s' ⟨f, hF, hBetween⟩ - hStep
  obtain ⟨as, f', hAs, hBetween'⟩ := section_is_run hKind hBetween hStep
  exact ⟨f', hF.run hAs, hBetween'⟩

end Runs

/-! ## Two pools, one step -/

/-- A step that runs a task runs one that holds a callable. -/
def RunsCallable (kind : Nat → TaskKind) (s : Sections n) : SectionStep n → Prop
  | .run w => s.terminated = false → ∀ task, s.worker w = .running task → kind task ≠ .empty
  | _ => True

theorem cpp11_keepsWaiting (mStop isEmpty : Bool) :
    cpp11.keepsWaiting mStop isEmpty = raw.keepsWaiting mStop isEmpty := by
  cases mStop <;> cases isEmpty <;> rfl

/-- **The two pools answer alike** to a step that runs no empty task. -/
theorem sectionStep_eq {kind : Nat → TaskKind} {s : Sections n} {a : SectionStep n}
    (h : RunsCallable kind s a) : sectionStep cpp11 kind s a = sectionStep raw kind s a := by
  cases a with
  | addTask c => rfl
  | stop => rfl
  | take w =>
      simp only [sectionStep, sectionTake, cpp11_keepsWaiting]
      rfl
  | exit w =>
      simp only [sectionStep, sectionExit, cpp11_keepsWaiting]
      rfl
  | run w =>
      cases hEnded : s.terminated with
      | true => simp [sectionStep, hEnded]
      | false =>
          simp only [sectionStep, sectionRun]
          cases hPc : s.worker w with
          | top | exited => rfl
          | running task =>
              have hKind := h hEnded task hPc
              have hInvoke : cpp11.invoke (kind task).callable =
                  raw.invoke (kind task).callable := by
                cases hIs : kind task with
                | empty => exact absurd hIs hKind
                | returns | throws => rfl
              simp only [hInvoke]

/-- The C++11 pool goes on behind an empty task, the pthread pool does not. -/
theorem sectionStep_ne {kind : Nat → TaskKind} {s : Sections n} {w : Fin n} {task : Nat}
    (hAlive : s.terminated = false) (hPc : s.worker w = .running task)
    (hEmpty : kind task = .empty) :
    sectionStep cpp11 kind s (.run w) = some (s.setWorker w .top) ∧
      sectionStep raw kind s (.run w) = some { s with terminated := true } := by
  simp [sectionStep, sectionRun, hAlive, hPc, hEmpty, TaskKind.callable, cpp11, raw]

/-- **The pthread pool and the C++11 pool are the same pool exactly as long as**
no worker runs an empty `std::function`: they answer every call of `addTask`
alike, enable the same steps, and execute the same tasks in the same order. -/
theorem pools_in_lockstep_exactly (n : Nat) (kind : Nat → TaskKind)
    (steps : List (SectionStep n)) :
    InStep (sectionStep cpp11 kind) (sectionStep raw kind) (fun _ s t => s = t)
        (Sections.init n) (Sections.init n) steps ↔
      Guarded (sectionStep cpp11 kind) (sectionStep raw kind)
        (fun s _ a => RunsCallable kind s a) (Sections.init n) (Sections.init n) steps := by
  refine inStep_iff (R := fun s t => s = t) ?_ ?_ rfl
  · rintro s t a rfl hMet
    rw [sectionStep_eq hMet]
    cases sectionStep raw kind s a with
    | none => exact .none
    | some u => exact .some ⟨rfl, rfl⟩
  · rintro s t a rfl hStep
    cases a with
    | addTask | take | stop | exit => trivial
    | run w =>
        intro hAlive task hPc hEmpty
        obtain ⟨hCpp, hRaw⟩ := sectionStep_ne hAlive hPc hEmpty
        rw [hCpp, hRaw] at hStep
        cases hStep with
        | some hSame =>
            have hFlag := congrArg Sections.terminated hSame
            simp [Sections.setWorker, hAlive] at hFlag

/-- Submitted tasks that all hold a callable are enough. -/
theorem guarded_of_callable {kind : Nat → TaskKind} (hKind : ∀ c, kind c ≠ .empty)
    (steps : List (SectionStep n)) :
    Guarded (sectionStep cpp11 kind) (sectionStep raw kind) (fun s _ a => RunsCallable kind s a)
      (Sections.init n) (Sections.init n) steps := by
  refine guarded_of_invariant (R := fun _ _ => True) ?_ (fun _ _ _ _ _ _ _ _ => trivial) trivial
  intro s _ a _
  cases a with
  | run w => exact fun _ task _ => hKind task
  | addTask | take | stop | exit => trivial

/-- One worker and a call that submits an empty `std::function`: the worker of
the C++11 pool is back at the top of its loop, and the pool takes another task;
the process of the pthread pool is gone. -/
theorem pools_part_on_empty_task :
    ∃ s t : Sections 1,
      run (sectionStep cpp11 fun _ => .empty) (.init 1) [.addTask 0, .take 0, .run 0] = some s ∧
      run (sectionStep raw fun _ => .empty) (.init 1) [.addTask 0, .take 0, .run 0] = some t ∧
      (sectionStep cpp11 (fun _ => .empty) s (.addTask 1)).isSome = true ∧
      sectionStep raw (fun _ => .empty) t (.addTask 1) = none ∧
      ¬ InStep (sectionStep cpp11 fun _ => .empty) (sectionStep raw fun _ => .empty)
        (fun _ s t => s = t) (Sections.init 1) (Sections.init 1)
        [.addTask 0, .take 0, .run 0] := by
  have hCpp : (run (sectionStep cpp11 fun _ => .empty) (Sections.init 1)
      [.addTask 0, .take 0, .run 0]).map (fun s => decide (s.terminated = false ∧
        (sectionStep cpp11 (fun _ => .empty) s (.addTask 1)).isSome = true)) = some true := by
    decide
  have hRaw : (run (sectionStep raw fun _ => .empty) (Sections.init 1)
      [.addTask 0, .take 0, .run 0]).map (fun t => decide (t.terminated = true)) =
      some true := by
    decide
  obtain ⟨s, hS, hTest⟩ := Option.map_eq_some_iff.mp hCpp
  obtain ⟨t, hT, hTest'⟩ := Option.map_eq_some_iff.mp hRaw
  obtain ⟨hAlive, hTakes⟩ := of_decide_eq_true hTest
  have hEnded := of_decide_eq_true hTest'
  refine ⟨s, t, hS, hT, hTakes, by simp [sectionStep, hEnded], fun hStep => ?_⟩
  have hLast : ([.addTask 0, .take 0, .run 0] : List (SectionStep 1)) =
      [.addTask 0, .take 0] ++ [.run 0] := rfl
  rw [hLast] at hS hT hStep
  have hSame : s = t := hStep.obs_of_run hS hT
  rw [hSame, hEnded] at hAlive
  simp at hAlive

end

end ThreadPool
end LinuxCppLearn
