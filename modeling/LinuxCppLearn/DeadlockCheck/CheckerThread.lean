import LinuxCppLearn.DeadlockCheck.PrintedLine
import LinuxCppLearn.DeadlockCheck.Undisturbed

/-!
# The checking thread beside the program

The threads of a program, whose hooks take `tg->mutex`, and the checking thread, which
does not, work on one `task_graph`: a step is one of the program's threads or one of the
checking thread, which reads one pointer at a time.

* `System`, `step` — both together; `System.view` is what the program's threads see.
* `exists_threads` — without the steps of the checking thread a run is one of the threads
  alone, up to the state of the search.
* `Round` — the checking thread wakes up and goes on until it sleeps again, while no
  thread of the program calls a hook.
* `checker_prints` — what it prints in a round.
* `deadlock_found` — so a deadlock is found whenever it sleeps and wakes up again.
-/

namespace LinuxCppLearn
namespace DeadlockCheck
namespace CheckerThread

open StepSystem OptionLoop Relation Lassos

structure System where
  owner : Nat → Option Nat
  pc : Nat → Pc
  detector : ConcurrentCheck.State

/-- What the threads of the program see. -/
def System.view (s : System) : State :=
  ⟨s.detector.tg, s.owner, s.pc⟩

def start : System where
  owner _ := none
  pc _ := .run
  detector := ConcurrentCheck.init .zero

/-- The part of the program; a step of the checking thread is none of it. -/
def programStep (sc : Scope) (s : State) : Action → Option State
  | .check => some s
  | a => DeadlockCheck.step sc s a

/-- The part of the detector. -/
def detectorStep (d : ConcurrentCheck.State) : Action → Option ConcurrentCheck.State
  | .check => ConcurrentCheck.step d .check
  | .lockBefore thread lock => ConcurrentCheck.step d (.hook (.lockBefore thread lock))
  | .lockAfter thread lock => ConcurrentCheck.step d (.hook (.lockAfter thread lock))
  | .unlockAfter thread lock => ConcurrentCheck.step d (.hook (.unlockAfter thread lock))
  | .acquire _ _ | .release _ _ => some d

/-- One step of a thread of the program, or of the checking thread. -/
def step (sc : Scope) (s : System) (a : Action) : Option System := do
  let v ← programStep sc s.view a
  let d ← detectorStep s.detector a
  some ⟨v.owner, v.pc, d⟩

variable {sc : Scope} {s s' t : System} {a : Action} {as : List Action}

theorem step_eq_some : step sc s a = some s' ↔
    ∃ v d, programStep sc s.view a = some v ∧ detectorStep s.detector a = some d ∧
      s' = ⟨v.owner, v.pc, d⟩ := by
  unfold step
  simp only [Option.bind_eq_bind, Option.bind_eq_some_iff, Option.some.injEq]
  constructor
  · rintro ⟨v, hProgram, d, hDetector, rfl⟩
    exact ⟨v, d, hProgram, hDetector, rfl⟩
  · rintro ⟨v, d, hProgram, hDetector, rfl⟩
    exact ⟨v, hProgram, d, hDetector, rfl⟩

/-! ## The two parts agree -/

theorem hook_tg {d d' : ConcurrentCheck.State} {hook : ConcurrentCheck.Hook}
    (h : ConcurrentCheck.step d (.hook hook) = some d') : hook.run d.tg = some d'.tg := by
  simp only [ConcurrentCheck.step] at h
  split at h
  · simp only [Option.bind_eq_bind, Option.bind_eq_some_iff, Option.some.injEq] at h
    obtain ⟨tg, hRun, rfl⟩ := h
    exact hRun
  · simp at h

/-- A hook does the same to the `task_graph` of both parts. -/
theorem parts_agree {v : State} {d : ConcurrentCheck.State} (hOther : a ≠ .check)
    (hProgram : programStep sc s.view a = some v) (hDetector : detectorStep s.detector a = some d) :
    d.tg = v.tg := by
  cases a with
  | check => exact absurd rfl hOther
  | acquire | release =>
      obtain ⟨-, hEffect⟩ := DeadlockCheck.step_eq_some.mp hProgram
      simp only [effect, Option.some.injEq] at hEffect
      obtain rfl := Option.some.inj hDetector
      rw [← hEffect]
      rfl
  | lockBefore | lockAfter | unlockAfter =>
      obtain ⟨-, hEffect⟩ := DeadlockCheck.step_eq_some.mp hProgram
      obtain ⟨tg, hHook, hEq⟩ := Option.bind_eq_some_iff.mp hEffect
      obtain rfl := Option.some.inj hEq
      exact Option.some.inj ((hook_tg hDetector).symm.trans hHook)

/-- A step of the program is one of its threads, as they see it. -/
theorem view_step (hOther : a ≠ .check) (h : step sc s a = some s') :
    DeadlockCheck.step sc s.view a = some s'.view := by
  obtain ⟨v, d, hProgram, hDetector, rfl⟩ := step_eq_some.mp h
  have hSame := parts_agree hOther hProgram hDetector
  have hView : System.view ⟨v.owner, v.pc, d⟩ = v := by
    unfold System.view
    rw [hSame]
  rw [hView]
  cases a with
  | check => exact absurd rfl hOther
  | _ => exact hProgram

/-! ## What the hooks do not look at -/

section Search

variable {tg : TaskGraph} {thread lock : Nat} {search : Search}

/-- The same but for the state of the search. -/
def withSearch (tg : TaskGraph) (search : Search) : TaskGraph :=
  { tg with search := search }

theorem lockBefore_withSearch : (withSearch tg search).lockBefore thread lock =
    (tg.lockBefore thread lock).map (withSearch · search) := by
  unfold TaskGraph.lockBefore withSearch
  simp only
  split
  · rfl
  · simp only [Option.bind_eq_bind, Option.map_bind, Function.comp_def, Option.map_some]

theorem lockAfter_withSearch : (withSearch tg search).lockAfter thread lock =
    (tg.lockAfter thread lock).map (withSearch · search) := by
  unfold TaskGraph.lockAfter withSearch
  simp only
  split
  · simp only [Option.bind_eq_bind, Option.map_bind]
    rfl
  · rfl

theorem unlockAfter_withSearch : (withSearch tg search).unlockAfter thread lock =
    (tg.unlockAfter thread lock).map (withSearch · search) := by
  unfold TaskGraph.unlockAfter withSearch
  simp only
  split
  · rfl
  · split <;> rfl

def withSearchAt (u : State) (search : Search) : State :=
  { u with tg := withSearch u.tg search }

theorem step_withSearch {u u' : State} (search : Search) (hOther : a ≠ .check)
    (h : DeadlockCheck.step sc u a = some u') :
    DeadlockCheck.step sc (withSearchAt u search) a = some (withSearchAt u' search) := by
  obtain ⟨hEnabled, hEffect⟩ := DeadlockCheck.step_eq_some.mp h
  refine DeadlockCheck.step_eq_some.mpr ⟨?_, ?_⟩
  · cases a with
    | check => trivial
    | _ => exact hEnabled
  · cases a with
    | check => exact absurd rfl hOther
    | acquire | release =>
        obtain rfl := Option.some.inj hEffect
        rfl
    | lockBefore =>
        obtain ⟨tg, hHook, hEq⟩ := Option.bind_eq_some_iff.mp hEffect
        obtain rfl := Option.some.inj hEq
        simp only [effect, Option.bind_eq_bind]
        show ((withSearch u.tg search).lockBefore _ _).bind _ = _
        rw [lockBefore_withSearch, hHook]
        rfl
    | lockAfter =>
        obtain ⟨tg, hHook, hEq⟩ := Option.bind_eq_some_iff.mp hEffect
        obtain rfl := Option.some.inj hEq
        simp only [effect, Option.bind_eq_bind]
        show ((withSearch u.tg search).lockAfter _ _).bind _ = _
        rw [lockAfter_withSearch, hHook]
        rfl
    | unlockAfter =>
        obtain ⟨tg, hHook, hEq⟩ := Option.bind_eq_some_iff.mp hEffect
        obtain rfl := Option.some.inj hEq
        simp only [effect, Option.bind_eq_bind]
        show ((withSearch u.tg search).unlockAfter _ _).bind _ = _
        rw [unlockAfter_withSearch, hHook]
        rfl

end Search

/-! ## The runs of the two parts -/

section Parts

/-- **The threads alone**: the same steps but those of the checking thread. -/
theorem exists_threads (guard : State → Action → Prop)
    (hStable : ∀ u search a, guard (withSearchAt u search) a → guard u a)
    (h : Reach (step sc) (fun s a => guard s.view a) start s) :
    ∃ u, Reach (DeadlockCheck.step sc) guard init u ∧
      s.view = withSearchAt u s.detector.tg.search := by
  refine h.invariant (P := fun s => ∃ u, Reach (DeadlockCheck.step sc) guard init u ∧
    s.view = withSearchAt u s.detector.tg.search) ⟨init, Reach.start, rfl⟩ ?_
  rintro s a s' ⟨u, hReach, hView⟩ hMet hStep
  by_cases hCheck : a = .check
  · subst hCheck
    obtain ⟨v, d, hProgram, hDetector, rfl⟩ := step_eq_some.mp hStep
    obtain rfl := Option.some.inj hProgram
    obtain ⟨hGraph, hLocks⟩ := ConcurrentCheck.checkStep_sameGraph hDetector
    refine ⟨u, hReach, ?_⟩
    have hTg : d.tg = withSearch s.detector.tg d.tg.search := by
      unfold withSearch
      rw [← hGraph, ← hLocks]
    have hOld : s.detector.tg = withSearch u.tg s.detector.tg.search := congrArg State.tg hView
    have hOwner : s.view.owner = u.owner := by rw [hView]; rfl
    have hPc : s.view.pc = u.pc := by rw [hView]; rfl
    show State.mk d.tg s.view.owner s.view.pc = State.mk (withSearch u.tg d.tg.search) u.owner u.pc
    rw [hOwner, hPc, hTg, hOld]
    rfl
  · have hOld : withSearchAt s.view u.tg.search = u := by rw [hView]; rfl
    have hTaken := step_withSearch u.tg.search hCheck (view_step hCheck hStep)
    rw [hOld] at hTaken
    rw [hView] at hMet
    exact ⟨_, hReach.next a (hStable _ _ _ hMet) hTaken, rfl⟩

/-- The detector makes the steps of its own model. -/
theorem detector_reach {guard : System → Action → Prop} (h : Reach (step sc) guard start s) :
    Reachable ConcurrentCheck.step (ConcurrentCheck.init .zero) s.detector := by
  refine h.invariant (P := fun s => Reachable ConcurrentCheck.step (ConcurrentCheck.init .zero)
    s.detector) Reach.start ?_
  intro s a s' hReach _ hStep
  obtain ⟨v, d, -, hDetector, rfl⟩ := step_eq_some.mp hStep
  cases a with
  | acquire | release =>
      obtain rfl := Option.some.inj hDetector
      exact hReach
  | check => exact hReach.next .check trivial hDetector
  | lockBefore thread lock => exact hReach.next (.hook (.lockBefore thread lock)) trivial hDetector
  | lockAfter thread lock => exact hReach.next (.hook (.lockAfter thread lock)) trivial hDetector
  | unlockAfter thread lock =>
      exact hReach.next (.hook (.unlockAfter thread lock)) trivial hDetector

theorem consistent_withSearch {u : State} {search : Search} (h : Consistent sc u) :
    Consistent sc (withSearchAt u search) :=
  ⟨⟨h.wellFormed.graph, h.wellFormed.locks⟩, h.pc_scope, h.owner_scope, h.acquired_owner,
    h.released_owner, h.slot_scope, h.vertex_scope⟩

theorem waitInv_withSearch {u : State} {search : Search} (h : WaitInv sc u) :
    WaitInv sc (withSearchAt u search) :=
  ⟨h.edges, h.count, h.clean⟩

theorem view_consistent {guard : System → Action → Prop} (h : Reach (step sc) guard start s) :
    Consistent sc s.view := by
  obtain ⟨u, hReach, hView⟩ :=
    exists_threads (fun _ _ => True) (fun _ _ _ _ => trivial) h.reachable
  rw [hView]
  exact consistent_withSearch (consistent_reach hReach)

theorem view_waitInv (h : Reach (step sc) (fun s a => HandoverOk sc s.view a) start s) :
    WaitInv sc s.view := by
  have hStable : ∀ (u : State) (search : Search) (a : Action),
      HandoverOk sc (withSearchAt u search) a → HandoverOk sc u a := by
    intro u search a hMet
    cases a with
    | lockAfter => exact hMet
    | _ => trivial
  obtain ⟨u, hReach, hView⟩ := exists_threads _ hStable h
  rw [hView]
  exact waitInv_withSearch (waitInv_reach (fun _ _ hMet => hMet) hReach)

theorem view_recordedInv (h : Reach (step sc) (fun s a => KeepsView sc s.view a) start s) :
    RecordedInv s.view := by
  have hStable : ∀ (u : State) (search : Search) (a : Action),
      KeepsView sc (withSearchAt u search) a → KeepsView sc u a := by
    intro u search a hMet
    cases a with
    | lockAfter | unlockAfter => exact hMet
    | _ => exact ⟨trivial, trivial⟩
  obtain ⟨u, hReach, hView⟩ := exists_threads _ hStable h
  have hInv : RecordedInv u := recordedInv_reach (fun _ _ hMet => hMet.2) hReach
  rw [hView]
  exact hInv

end Parts

/-! ## A check on its own -/

/-- Steps of the checking thread until it sleeps, while the program calls no hook. -/
def Alone (sc : Scope) : System → System → Prop :=
  ReflTransGen fun s s' => s.detector.checker ≠ .sleep ∧ step sc s .check = some s'

/-- The checking thread wakes up, and its steps alone bring it back to sleep. -/
def Round (sc : Scope) (s s' : System) : Prop :=
  ∃ t, step sc s .check = some t ∧ Alone sc t s' ∧ s'.detector.checker = .sleep

theorem round_of_detector {d : ConcurrentCheck.State} (h : ConcurrentCheck.Round s.detector d) :
    Round sc s { s with detector := d } := by
  have hCheck : ∀ d d', ConcurrentCheck.step d .check = some d' →
      step sc ⟨s.owner, s.pc, d⟩ .check = some ⟨s.owner, s.pc, d'⟩ := fun d d' hStep =>
    step_eq_some.mpr ⟨_, d', rfl, hStep, rfl⟩
  obtain ⟨t, hWakes, hChecks, hSleeps⟩ := h
  refine ⟨⟨s.owner, s.pc, t⟩, hCheck _ _ hWakes, ?_, hSleeps⟩
  refine ReflTransGen.lift (fun d => (⟨s.owner, s.pc, d⟩ : System)) ?_ _ _ hChecks
  rintro d d' ⟨hAwake, hStep⟩
  exact ⟨hAwake, hCheck d d' hStep⟩

/-- **What a round prints** in a state with its edges. -/
theorem round_prints {guard : System → Action → Prop} (hReach : Reach (step sc) guard start s)
    (hInv : WaitInv sc s.view) (hSleep : s.detector.checker = .sleep) :
    ∃ d, Round sc s { s with detector := d } ∧
      ((∀ u, ¬ TransGen (Requests s.view) u u) ∧
          d.tg.search.printed = s.detector.tg.search.printed ∨
        ∃ tail knot circle, Lasso (Requests s.view) tail knot circle ∧
          d.tg.search.printed = s.detector.tg.search.printed ++ [looped tail knot circle]) := by
  obtain ⟨search, reported, hCheck, hGoes⟩ :=
    ConcurrentCheck.undisturbed_check ⟨rfl, rfl⟩ (detector_reach hReach) hSleep
  obtain ⟨v, hStep, hLine⟩ := check_line hInv (view_consistent hReach)
  obtain ⟨-, hEffect⟩ := DeadlockCheck.step_eq_some.mp hStep
  obtain ⟨search', hCheck', hEq⟩ := Option.bind_eq_some_iff.mp hEffect
  obtain rfl := Option.some.inj hEq
  obtain rfl : search = search' := Option.some.inj (hCheck.symm.trans hCheck')
  exact ⟨_, round_of_detector hGoes, hLine⟩

/-- **What the checking thread prints** in any run that keeps the edges, if it wakes up and
no hook runs before it sleeps again: what `check_dead_lock` prints in one piece. -/
theorem checker_prints (hReach : Reach (step sc) (fun s a => HandoverOk sc s.view a) start s)
    (hSleep : s.detector.checker = .sleep) :
    ∃ d, Round sc s { s with detector := d } ∧
      ((∀ u, ¬ TransGen (Requests s.view) u u) ∧
          d.tg.search.printed = s.detector.tg.search.printed ∨
        ∃ tail knot circle, Lasso (Requests s.view) tail knot circle ∧
          d.tg.search.printed = s.detector.tg.search.printed ++ [looped tail knot circle] ∧
          (NoStaleCycle s.view → (knot :: (circle ++ [knot])).IsChain (BlockedBy s.view))) := by
  obtain ⟨d, hRound, hNone | ⟨tail, knot, circle, hLasso, hPrinted⟩⟩ :=
    round_prints hReach (view_waitInv hReach) hSleep
  · exact ⟨d, hRound, .inl hNone⟩
  · exact ⟨d, hRound, .inr ⟨tail, knot, circle, hLasso, hPrinted,
      fun hClear => blocked_around (view_consistent hReach) hClear hLasso⟩⟩

/-! ## A deadlock is found -/

section Circle

variable {n : Nat} {thread lock : Nat → Nat}

/-- The checking thread does not touch the threads and their mutexes. -/
theorem circularWait_step {guard : System → Action → Prop} (hReach : Reach (step sc) guard start s)
    (h : CircularWait s.view n thread lock) (hStep : step sc s a = some s') :
    CircularWait s'.view n thread lock := by
  by_cases hCheck : a = .check
  · subst hCheck
    obtain ⟨v, d, hProgram, -, rfl⟩ := step_eq_some.mp hStep
    obtain rfl := Option.some.inj hProgram
    exact ⟨h.requested, h.held⟩
  · exact circularWait_move h (step_move (view_consistent hReach) (view_step hCheck hStep))

/-- **A deadlock is found** in runs that keep the edges and the records: its threads wait
for ever, and whenever the checking thread wakes up behind it and no hook runs before it
sleeps again, it prints a line that leads into a circle and around it. -/
theorem deadlock_found (hReach : Reach (step sc) (fun s a => KeepsView sc s.view a) start s)
    (hTwo : 2 ≤ n) (hDistinct : ∀ i < n, ∀ j < n, thread i = thread j → i = j)
    (hWait : CircularWait s.view n thread lock)
    (hLater : Reach (step sc) (fun s a => KeepsView sc s.view a) s t) :
    CircularWait t.view n thread lock ∧
      (t.detector.checker = .sleep →
        ∃ d, Round sc t { t with detector := d } ∧
          ∃ tail knot circle, Lasso (Requests t.view) tail knot circle ∧
            d.tg.search.printed = t.detector.tg.search.printed ++ [looped tail knot circle]) := by
  obtain ⟨hReachT, hWaitT⟩ := hLater.invariant
    (P := fun t => Reach (step sc) (fun s a => KeepsView sc s.view a) start t ∧
      CircularWait t.view n thread lock) ⟨hReach, hWait⟩ (by
      rintro u a u' ⟨hBefore, hStill⟩ hMet hStep
      exact ⟨hBefore.next a hMet hStep, circularWait_step hBefore hStill hStep⟩)
  refine ⟨hWaitT, fun hSleep => ?_⟩
  have hInv := view_waitInv (hReachT.mono fun _ _ hMet => hMet.1)
  have hCycle := hWaitT.cycle (view_recordedInv hReachT) hTwo hDistinct
  obtain ⟨d, hRound, ⟨hNone, -⟩ | hLine⟩ := round_prints hReachT hInv hSleep
  · exact absurd hCycle (hNone (thread 0))
  · exact ⟨d, hRound, hLine⟩

end Circle

/-! ## Two threads that wait for each other -/

/-- The circle forms while the checking thread sleeps; then it wakes up. -/
theorem checker_prints_circle :
    ∃ s d, Round twoThreads s { s with detector := d } ∧ s.detector.tg.search.printed = [] ∧
      ∃ tail knot circle, Lasso (Requests s.view) tail knot circle ∧
        d.tg.search.printed = [looped tail knot circle] := by
  let guard : System → Action → Prop := fun s a => HandoverOk twoThreads s.view a
  let final := run (guarded (step twoThreads) guard) start circleTrace
  have hFinal : final = some (final.get (by decide)) := by simp
  have hReach : Reach (step twoThreads) guard start (final.get (by decide)) :=
    reach_of_run_guarded hFinal
  have hEmpty : (final.get (by decide)).detector.tg.search.printed = [] := by decide
  have hThere : Requests (final.get (by decide)).view 1 2 :=
    ⟨2, by decide, by decide, by decide⟩
  have hBack : Requests (final.get (by decide)).view 2 1 :=
    ⟨1, by decide, by decide, by decide⟩
  obtain ⟨d, hRound, ⟨hNone, -⟩ | ⟨tail, knot, circle, hLasso, hPrinted, -⟩⟩ :=
    checker_prints hReach (by decide)
  · exact absurd ((TransGen.single hThere).tail hBack) (hNone 1)
  · rw [hEmpty] at hPrinted
    exact ⟨_, d, hRound, hEmpty, tail, knot, circle, hLasso, hPrinted⟩

theorem deadlock_found_circle :
    ∃ s d, CircularWait s.view 2 circleThread circleLock ∧
      Round twoThreads s { s with detector := d } ∧ ∃ line, d.tg.search.printed = [line] := by
  let guard : System → Action → Prop := fun s a => KeepsView twoThreads s.view a
  let final := run (guarded (step twoThreads) guard) start circleTrace
  have hFinal : final = some (final.get (by decide)) := by simp
  have hReach : Reach (step twoThreads) guard start (final.get (by decide)) :=
    reach_of_run_guarded hFinal
  have hEmpty : (final.get (by decide)).detector.tg.search.printed = [] := by decide
  have hWait : CircularWait (final.get (by decide)).view 2 circleThread circleLock :=
    circularWait_two (by decide)
  obtain ⟨hStill, hFound⟩ :=
    deadlock_found hReach (by decide) circleThread_distinct hWait Reach.start
  obtain ⟨d, hRound, tail, knot, circle, -, hPrinted⟩ := hFound (by decide)
  rw [hEmpty] at hPrinted
  exact ⟨_, d, hStill, hRound, _, hPrinted⟩

end CheckerThread
end DeadlockCheck
end LinuxCppLearn
