import Mathlib.Tactic.IntervalCases
import LinuxCppLearn.DeadlockCheck.Ownership
import LinuxCppLearn.DeadlockCheck.WaitFor

/-!
# What the verdict of the detector is worth

* `no_missed_deadlock_exactly` — in runs that keep the edges (`HandoverOk`) and
  the records of held mutexes (`NoWipe`), a circular wait in a quiescent state
  is reported.  A step against `HandoverOk` leaves a waiting thread without its
  edge.
* `no_false_report_exactly` — in runs that keep the edges, a report made while
  no stale request lies on a cycle (`NoStaleCycle`) means a circular wait.  A
  stale request on a cycle is reported too.

A request is stale when its mutex is recorded for a thread that has released
it: the record stays until the next `lock_after`.
-/

namespace LinuxCppLearn
namespace DeadlockCheck

open StepSystem TaskGraph OptionLoop Relation

/-! ## Cycles of requests and cycles of the graph -/

theorem edges_of_requests {sc : Scope} {s : State} (hInv : WaitInv sc s)
    (hCons : Consistent sc s) {u v : Nat} (h : TransGen (Requests s) u v) :
    ∃ i j, s.tg.graph.searchVertex (process u) = some i ∧
      s.tg.graph.searchVertex (process v) = some j ∧ TransGen s.tg.graph.Edge i j := by
  induction h with
  | single hReq =>
      obtain ⟨i, j, hI, hJ, hEdge⟩ := hInv.edge_of_requests hCons hReq
      exact ⟨i, j, hI, hJ, TransGen.single hEdge⟩
  | tail _ hReq ih =>
      obtain ⟨i, k, hI, hK, hPath⟩ := ih
      obtain ⟨k', j, hK', hJ, hEdge⟩ := hInv.edge_of_requests hCons hReq
      rw [hK, Option.some.injEq] at hK'
      subst hK'
      exact ⟨i, j, hI, hJ, hPath.tail hEdge⟩

/-- A cycle of requests is reported. -/
theorem check_reports_requests {sc : Scope} {s : State} (hInv : WaitInv sc s)
    (hCons : Consistent sc s) {u : Nat} (hCycle : TransGen (Requests s) u u) :
    ∃ s', step sc s .check = some s' ∧ s'.tg.search.deadlock = 1 := by
  obtain ⟨search, hRun⟩ := Digraph.checkDeadLock_returns hCons.wellFormed.graph s.tg.search
  obtain ⟨i, j, hI, hJ, hPath⟩ := edges_of_requests hInv hCons hCycle
  rw [hI, Option.some.injEq] at hJ
  subst hJ
  refine ⟨{ s with tg := { s.tg with search := search } }, ?_, ?_⟩
  · exact step_eq_some.mpr ⟨trivial, by simp [effect, hRun]⟩
  · exact Digraph.checkDeadLock_complete hCons.wellFormed.graph hPath hRun

/-- A report comes from a cycle of requests. -/
theorem requests_of_report {sc : Scope} {s s' : State} (hInv : WaitInv sc s)
    (hCons : Consistent sc s) (hStep : step sc s .check = some s')
    (hReport : s'.tg.search.deadlock = 1) : ∃ u, TransGen (Requests s) u u := by
  have hMove := step_move hCons hStep
  cases hMove with
  | check search hRun =>
      obtain ⟨i, hCycle⟩ := Digraph.checkDeadLock_report hCons.wellFormed.graph
        (hInv.functional hCons) hRun hReport
      refine ⟨(s.tg.graph.vertexList i).pair.thId, ?_⟩
      exact TransGen.lift (fun k => (s.tg.graph.vertexList k).pair.thId)
        (fun _ _ hEdge => hInv.requests_of_edge hCons hEdge) i i hCycle

/-! ## No missed deadlock -/

/-- The steps keep the edges and the records of held mutexes. -/
def KeepsView (sc : Scope) (s : State) (a : Action) : Prop :=
  HandoverOk sc s a ∧ NoWipe s a

instance (sc : Scope) (s : State) (a : Action) : Decidable (KeepsView sc s a) :=
  inferInstanceAs (Decidable (_ ∧ _))

/-- Threads that wait in a circle form a cycle of requests. -/
theorem requests_of_circularWait {s : State} (hRecorded : RecordedInv s) (hQuiet : Quiescent s)
    {n : Nat} {thread lock : Nat → Nat} (hTwo : 2 ≤ n)
    (hDistinct : ∀ i < n, ∀ j < n, thread i = thread j → i = j)
    (hWait : CircularWait s n thread lock) : TransGen (Requests s) (thread 0) (thread 0) := by
  have hReq : ∀ i < n, Requests s (thread i) (thread ((i + 1) % n)) := by
    intro i hi
    have hHeld := hWait.held i hi
    refine ⟨lock i, by rw [hWait.requested i hi]; rfl, ?_, ?_⟩
    · exact hRecorded _ _ hHeld (hQuiet _ _).1
    · intro hSame
      -- a thread that waits for itself would make the circle one long
      have hNext : (i + 1) % n = i := hDistinct _ (Nat.mod_lt _ (by omega)) i hi hSame
      by_cases hEnd : i + 1 < n
      · rw [Nat.mod_eq_of_lt hEnd] at hNext
        omega
      · have hLast : i + 1 = n := by omega
        rw [hLast, Nat.mod_self] at hNext
        omega
  -- induction on the distance from the first thread of the circle
  have hChain : ∀ k < n, TransGen (Requests s) (thread 0) (thread ((k + 1) % n)) := by
    intro k
    induction k with
    | zero =>
        intro hk
        exact TransGen.single (hReq 0 hk)
    | succ k ih =>
        intro hk
        have hBefore := ih (by omega)
        rw [Nat.mod_eq_of_lt (by omega)] at hBefore
        exact hBefore.tail (hReq (k + 1) hk)
  have hBack := hChain (n - 1) (by omega)
  have hLast : n - 1 + 1 = n := by omega
  rwa [hLast, Nat.mod_self] at hBack

/-- A `lock_after` that changes the owner under a waiting thread leaves that
thread without its edge. -/
theorem handover_loses_edge {sc : Scope} {s s' : State} {a : Action} (hInv : WaitInv sc s)
    (hCons : Consistent sc s) (hBad : ¬ HandoverOk sc s a) (hStep : step sc s a = some s') :
    ∃ u v lock, s'.pc u = .requested lock ∧ s'.owner lock = some v ∧
      process v ∉ s'.tg.graph.succ (process u) := by
  have hMove := step_move hCons hStep
  cases hMove with
  | @takeSlot thread lock tg hPc hSlot hTake =>
      simp only [HandoverOk, not_forall] at hBad
      obtain ⟨other, _, hNe, hWaits, _⟩ := hBad
      have hAsks : (s.pc other).asks = some lock := by
        rw [hWaits]
        rfl
      have hNone : s.recorded lock = none := by
        unfold State.recorded
        rw [hSlot]
        rfl
      refine ⟨other, thread, lock, ?_, hCons.acquired_owner thread lock hPc, ?_⟩
      · simpa [State.setPc, hNe] using hWaits
      · show process thread ∉ tg.graph.succ (process other)
        -- the mutex had no record, so the waiting thread got no edge
        rw [hTake.graph, hInv.edges, target_of_asks hAsks, hNone]
        simp
  | @changeOwner thread lock slot tg hPc hSlot hChange =>
      simp only [HandoverOk, not_forall] at hBad
      obtain ⟨other, _, hNe, hWaits, hDiffers⟩ := hBad
      have hAsks : (s.pc other).asks = some lock := by
        rw [hWaits]
        rfl
      have hOwner : s.recorded lock = some slot.thId := by
        unfold State.recorded
        rw [hSlot]
        rfl
      refine ⟨other, thread, lock, ?_, hCons.acquired_owner thread lock hPc, ?_⟩
      · simpa [State.setPc, hNe] using hWaits
      · show process thread ∉ tg.graph.succ (process other)
        have hNot : ¬ (process other = process thread ∧
            s.tg.graph.IsVertex (process slot.thId)) := by
          rw [process_injective]
          exact fun hBoth => hNe hBoth.1
        rw [hChange.edge, if_neg hNot, hInv.edges,
          target_of_asks hAsks, hOwner]
        rw [hOwner, Option.some.injEq] at hDiffers
        -- its edge still leads to the former owner
        show process thread ∉ if slot.thId = other then [] else [process slot.thId]
        split
        · simp
        · rw [List.mem_singleton, process_injective]
          exact fun hSame => hDiffers hSame.symm
  | _ => exact absurd trivial hBad

/-- **No missed deadlock** in runs that keep the edges and the records, and
the first step that changes an owner under a waiting thread drops an edge. -/
theorem no_missed_deadlock_exactly (sc : Scope) :
    (∀ s, Reach (step sc) (KeepsView sc) init s → Quiescent s →
      ∀ (n : Nat) (thread lock : Nat → Nat), 2 ≤ n →
        (∀ i < n, ∀ j < n, thread i = thread j → i = j) → CircularWait s n thread lock →
        ∃ s', step sc s .check = some s' ∧ s'.tg.search.deadlock = 1) ∧
    ∀ s a s', Reach (step sc) (KeepsView sc) init s → ¬ HandoverOk sc s a →
      step sc s a = some s' →
      ∃ u v lock, s'.pc u = .requested lock ∧ s'.owner lock = some v ∧
        process v ∉ s'.tg.graph.succ (process u) := by
  constructor
  · intro s hReach hQuiet n thread lock hTwo hDistinct hWait
    have hCons := consistent_reach hReach.reachable
    have hInv := waitInv_reach (fun _ _ hMet => hMet.1) hReach
    have hRecorded := recordedInv_reach (fun _ _ hMet => hMet.2) hReach
    exact check_reports_requests hInv hCons
      (requests_of_circularWait hRecorded hQuiet hTwo hDistinct hWait)
  · intro s a s' hReach hBad hStep
    exact handover_loses_edge (waitInv_reach (fun _ _ hMet => hMet.1) hReach)
      (consistent_reach hReach.reachable) hBad hStep

/-- Both threads hold one mutex and ask for the other one. -/
def circleTrace : List Action :=
  lockCall 1 1 ++ lockCall 2 2 ++ [.lockBefore 1 2, .lockBefore 2 1]

/-- The circle of two threads: the first one waits for the second mutex. -/
def circleThread (i : Nat) : Nat := if i = 0 then 1 else 2

def circleLock (i : Nat) : Nat := if i = 0 then 2 else 1

/-- A circular wait of two threads, tested index by index. -/
theorem circularWait_two {s : State}
    (h : s.pc 1 = .requested 2 ∧ s.owner 2 = some 2 ∧ s.pc 2 = .requested 1 ∧
      s.owner 1 = some 1) : CircularWait s 2 circleThread circleLock := by
  obtain ⟨hPc, hOwner, hPc', hOwner'⟩ := h
  constructor
  · intro i hi
    interval_cases i
    · exact hPc
    · exact hPc'
  · intro i hi
    interval_cases i
    · exact hOwner
    · exact hOwner'

theorem circleThread_distinct : ∀ i < 2, ∀ j < 2, circleThread i = circleThread j → i = j := by
  decide

theorem no_missed_deadlock_exactly_circle :
    ∃ s, CircularWait s 2 circleThread circleLock ∧
      ∃ s', step twoThreads s .check = some s' ∧ s'.tg.search.deadlock = 1 := by
  let final := run (guarded (step twoThreads) (KeepsView twoThreads)) init circleTrace
  have hFinal : final = some (final.get (by decide)) := by simp
  have hReach : Reach (step twoThreads) (KeepsView twoThreads) init (final.get (by decide)) :=
    reach_of_run_guarded hFinal
  have hQuiet : Quiescent (final.get (by decide)) :=
    quiescent_of_threads (consistent_reach hReach.reachable) (by decide)
  have hWait : CircularWait (final.get (by decide)) 2 circleThread circleLock :=
    circularWait_two (by decide)
  exact ⟨_, hWait, (no_missed_deadlock_exactly twoThreads).1 _ hReach hQuiet 2 circleThread
    circleLock (by decide) circleThread_distinct hWait⟩

/-- The first thread asks for the second mutex while it is free, and the second
thread takes it: the first one waits without an edge. -/
def missedTrace : List Action :=
  lockCall 1 1 ++ [.lockBefore 1 2] ++ lockCall 2 2 ++ [.lockBefore 2 1]

/-- The two threads wait for each other and the check finds nothing. -/
theorem circular_wait_not_reported :
    ∃ s s', Reachable (step twoThreads) init s ∧ Quiescent s ∧
      CircularWait s 2 circleThread circleLock ∧ step twoThreads s .check = some s' ∧
      s'.tg.search.deadlock ≠ 1 := by
  have hRun : (run (step twoThreads) init missedTrace).map (fun s =>
      decide ((∀ thread ∈ twoThreads.threads, (s.pc thread).quiet = true) ∧
        (s.pc 1 = .requested 2 ∧ s.owner 2 = some 2 ∧ s.pc 2 = .requested 1 ∧
          s.owner 1 = some 1) ∧
        (step twoThreads s .check).map (fun s' => s'.tg.search.deadlock) = some 0)) =
      some true := by decide
  obtain ⟨s, hReach, hTest⟩ := exists_reachable_of_run hRun
  obtain ⟨hThreads, hCircle, hCheck⟩ := of_decide_eq_true hTest
  obtain ⟨s', hStep, hZero⟩ := Option.map_eq_some_iff.mp hCheck
  refine ⟨s, s', hReach, quiescent_of_threads (consistent_reach hReach) hThreads,
    circularWait_two hCircle, hStep, ?_⟩
  rw [hZero]
  decide

/-! ## No false report -/

/-- A request for a mutex recorded for a thread that does not hold it. -/
def Stale (s : State) (u v : Nat) : Prop :=
  ∃ lock, (s.pc u).asks = some lock ∧ s.recorded lock = some v ∧ v ≠ u ∧
    s.owner lock ≠ some v

/-- No stale request lies on a cycle of requests. -/
def NoStaleCycle (s : State) : Prop :=
  ∀ u v, Stale s u v → ¬ ReflTransGen (Requests s) v u

/-- The steps keep the edges, and the check meets no stale request on a
cycle. -/
def CheckClear (sc : Scope) (s : State) : Action → Prop
  | .check => NoStaleCycle s
  | a => HandoverOk sc s a

theorem CheckClear.handoverOk {sc : Scope} {s : State} {a : Action} (h : CheckClear sc s a) :
    HandoverOk sc s a := by
  cases a with
  | check => trivial
  | _ => exact h

theorem Stale.requests {s : State} {u v : Nat} (h : Stale s u v) : Requests s u v := by
  obtain ⟨lock, hAsks, hRecorded, hNe, _⟩ := h
  exact ⟨lock, hAsks, hRecorded, hNe⟩

/-- A request that is not stale blocks its thread on a mutex the other one
holds. -/
theorem blocked_of_not_stale {sc : Scope} {s : State} (hCons : Consistent sc s) {u v : Nat}
    (hReq : Requests s u v) (hFresh : ¬ Stale s u v) :
    ∃ lock, s.pc u = .requested lock ∧ s.owner lock = some v := by
  obtain ⟨lock, hAsks, hRecorded, hNe⟩ := hReq
  have hHeld : s.owner lock = some v := by
    by_contra hOther
    exact hFresh ⟨lock, hAsks, hRecorded, hNe, hOther⟩
  refine ⟨lock, ?_, hHeld⟩
  cases hAt : s.pc u with
  | run | released m =>
      rw [hAt] at hAsks
      simp [Pc.asks] at hAsks
  | requested m =>
      rw [hAt] at hAsks
      rw [Option.some.inj hAsks]
  | acquired m =>
      rw [hAt] at hAsks
      obtain rfl := Option.some.inj hAsks
      rw [hCons.acquired_owner u m hAt, Option.some.injEq] at hHeld
      exact absurd hHeld.symm hNe

/-- Along a closed walk every point is reached from the next one. -/
theorem walk_back {R : Nat → Nat → Prop} {n : Nat} {point : Nat → Nat}
    (hStep : ∀ i < n, R (point i) (point (i + 1))) (hClosed : point n = point 0) {i : Nat}
    (hi : i < n) : ReflTransGen R (point (i + 1)) (point i) := by
  have hForward : ∀ d j, j + d ≤ n → ReflTransGen R (point j) (point (j + d)) := by
    intro d
    induction d with
    | zero =>
        intro j _
        exact ReflTransGen.refl
    | succ d ih =>
        intro j hLe
        exact (ih j (by omega)).tail (hStep (j + d) (by omega))
  have hToEnd := hForward (n - (i + 1)) (i + 1) (by omega)
  have hFromStart := hForward i 0 (by omega)
  rw [show i + 1 + (n - (i + 1)) = n by omega, hClosed] at hToEnd
  rw [Nat.zero_add] at hFromStart
  exact hToEnd.trans hFromStart

/-- A cycle of requests without a stale one is a circular wait. -/
theorem circularWait_of_requests {sc : Scope} {s : State} (hCons : Consistent sc s)
    (hClear : NoStaleCycle s) {u : Nat} (hCycle : TransGen (Requests s) u u) :
    ∃ n thread lock, 1 ≤ n ∧ CircularWait s n thread lock := by
  obtain ⟨n, point, hPos, hFirst, hLast, hStep⟩ := exists_sequence_of_transGen hCycle
  have hClosed : point n = point 0 := by rw [hFirst, hLast]
  have hBlocked : ∀ i, ∃ lock, i < n →
      s.pc (point i) = .requested lock ∧ s.owner lock = some (point (i + 1)) := by
    intro i
    by_cases hi : i < n
    -- every request of the walk lies on the cycle, so none is stale
    · have hFresh : ¬ Stale s (point i) (point (i + 1)) := fun hStale =>
        hClear _ _ hStale (walk_back hStep hClosed hi)
      obtain ⟨lock, hAt, hHeld⟩ := blocked_of_not_stale hCons (hStep i hi) hFresh
      exact ⟨lock, fun _ => ⟨hAt, hHeld⟩⟩
    · exact ⟨0, fun hLt => absurd hLt hi⟩
  choose lock hLock using hBlocked
  refine ⟨n, point, lock, hPos, fun i hi => (hLock i hi).1, fun i hi => ?_⟩
  rw [(hLock i hi).2]
  by_cases hEnd : i + 1 < n
  · rw [Nat.mod_eq_of_lt hEnd]
  · have hLastIndex : i + 1 = n := by omega
    rw [hLastIndex, Nat.mod_self, hClosed]

/-- **No false report** in runs that keep the edges, when the check meets no
stale request on a cycle; a stale request on a cycle is reported. -/
theorem no_false_report_exactly (sc : Scope) :
    (∀ s s', Reach (step sc) (CheckClear sc) init s → CheckClear sc s .check →
      step sc s .check = some s' → s'.tg.search.deadlock = 1 →
      ∃ n thread lock, 1 ≤ n ∧ CircularWait s n thread lock) ∧
    ∀ s, Reach (step sc) (CheckClear sc) init s → ¬ CheckClear sc s .check →
      ∃ s', step sc s .check = some s' ∧ s'.tg.search.deadlock = 1 := by
  constructor
  · intro s s' hReach hClear hStep hReport
    have hCons := consistent_reach hReach.reachable
    have hInv := waitInv_reach (fun _ _ hMet => CheckClear.handoverOk hMet) hReach
    obtain ⟨u, hCycle⟩ := requests_of_report hInv hCons hStep hReport
    exact circularWait_of_requests hCons hClear hCycle
  · intro s hReach hBad
    have hCons := consistent_reach hReach.reachable
    have hInv := waitInv_reach (fun _ _ hMet => CheckClear.handoverOk hMet) hReach
    simp only [CheckClear, NoStaleCycle, not_forall, not_not] at hBad
    obtain ⟨u, v, hStale, hBack⟩ := hBad
    exact check_reports_requests hInv hCons (TransGen.head' hStale.requests hBack)

/-- Only the threads and mutexes of the program need to be looked at. -/
theorem noStaleCycle_of_threads {sc : Scope} {s : State} (hCons : Consistent sc s)
    (h : ∀ u ∈ sc.threads, ∀ lock ∈ sc.locks, (s.pc u).asks = some lock →
      ∀ v ∈ s.recorded lock, v ≠ u → s.owner lock = some v) : NoStaleCycle s := by
  rintro u v ⟨lock, hAsks, hRecorded, hNe, hOther⟩ _
  obtain ⟨hU, hLock⟩ := hCons.pc_scope u lock (asks_lock hAsks)
  exact hOther (h u hU lock hLock hAsks v hRecorded hNe)

theorem no_false_report_exactly_circle :
    ∃ s s', step twoThreads s .check = some s' ∧ s'.tg.search.deadlock = 1 ∧
      ∃ n thread lock, 1 ≤ n ∧ CircularWait s n thread lock := by
  let guard : State → Action → Prop := fun s a => HandoverOk twoThreads s a ∧ a ≠ .check
  let final := run (guarded (step twoThreads) guard) init circleTrace
  have hFinal : final = some (final.get (by decide)) := by simp
  have hReach : Reach (step twoThreads) (CheckClear twoThreads) init (final.get (by decide)) := by
    apply (reach_of_run_guarded hFinal).mono
    rintro s a ⟨hHandover, hNotCheck⟩
    cases a with
    | check => exact absurd rfl hNotCheck
    | _ => exact hHandover
  have hClear : CheckClear twoThreads (final.get (by decide)) .check :=
    noStaleCycle_of_threads (consistent_reach hReach.reachable) (by decide)
  have hCheck : (step twoThreads (final.get (by decide)) .check).map
      (fun s' => s'.tg.search.deadlock) = some 1 := by decide
  obtain ⟨s', hStep, hReport⟩ := Option.map_eq_some_iff.mp hCheck
  exact ⟨_, s', hStep, hReport,
    (no_false_report_exactly twoThreads).1 _ s' hReach hClear hStep hReport⟩

/-- The second thread waits for the first mutex; the first thread releases it
and asks for the mutex of the second one before that has run again. -/
def falseTrace : List Action :=
  lockCall 2 2 ++ lockCall 1 1 ++
    [.lockBefore 2 1, .release 1 1, .unlockAfter 1 1, .lockBefore 1 2]

/-- The first mutex is free, so nobody waits in a circle, and the check
reports. -/
theorem report_without_circular_wait :
    ∃ s s', Reachable (step twoThreads) init s ∧ step twoThreads s .check = some s' ∧
      s'.tg.search.deadlock = 1 ∧ ¬ ∃ n thread lock, 1 ≤ n ∧ CircularWait s n thread lock := by
  have hRun : (run (step twoThreads) init falseTrace).map (fun s =>
      decide ((∀ u ∈ twoThreads.threads, ∀ lock ∈ twoThreads.locks, ∀ v ∈ twoThreads.threads,
          s.pc u = .requested lock → s.owner lock = some v → u = 1 ∧ v = 2) ∧
        (step twoThreads s .check).map (fun s' => s'.tg.search.deadlock) = some 1)) =
      some true := by decide
  obtain ⟨s, hReach, hTest⟩ := exists_reachable_of_run hRun
  obtain ⟨hBlocked, hCheck⟩ := of_decide_eq_true hTest
  obtain ⟨s', hStep, hReport⟩ := Option.map_eq_some_iff.mp hCheck
  refine ⟨s, s', hReach, hStep, hReport, ?_⟩
  rintro ⟨n, thread, lock, hPos, hWait⟩
  have hCons := consistent_reach hReach
  -- the only blocked thread is the first one, and it waits for the second
  have hOnly : ∀ i < n, thread i = 1 ∧ thread ((i + 1) % n) = 2 := by
    intro i hi
    have hAt := hWait.requested i hi
    have hHeld := hWait.held i hi
    have hIn := hCons.pc_scope (thread i) (lock i) (by rw [hAt]; rfl)
    exact hBlocked _ hIn.1 _ hIn.2 _ (hCons.owner_scope _ _ hHeld).1 hAt hHeld
  have hNext := (hOnly 0 hPos).2
  have hFirst := (hOnly ((0 + 1) % n) (Nat.mod_lt _ hPos)).1
  rw [hFirst] at hNext
  simp at hNext

end DeadlockCheck
end LinuxCppLearn
