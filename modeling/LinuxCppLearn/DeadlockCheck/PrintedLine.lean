import LinuxCppLearn.Library.Lassos
import LinuxCppLearn.DeadlockCheck.FirstReport
import LinuxCppLearn.DeadlockCheck.Verdicts

/-!
# The line of a report

A thread asks for one mutex at a time, so that in runs that keep the edges no vertex
has two.  The search from a root then follows the only way there is.

* `checkDeadLock_line` — a check prints one line if it reports, and none otherwise.
* `meeting_lasso` — the way it has gone leads into a circle and once around it.
* `check_prints` — so every line names the threads of a circle of requests, in their
  order, behind those that led there.
* `circularWait_lasts` — threads that wait in a circle never move again.
* `deadlock_reported_for_good` — every check from then on prints a line.
-/

namespace LinuxCppLearn
namespace DeadlockCheck

open StepSystem OptionLoop Relation WalkOrder Lassos

namespace Digraph

variable {g : Digraph} {s s' : Search}

/-! ## How many lines -/

/-- Along the only edge of each vertex `DFS` comes to at most one marked one. -/
theorem dfs_prints (hWf : g.WellFormed) (hFun : g.Functional) (fuel : Nat) :
    ∀ (idx : Nat) (s s' : Search), idx < g.vertexNum → g.dfs fuel idx s = some s' →
      s'.printed.length ≤ s.printed.length + 1 := by
  induction fuel with
  | zero =>
      intro idx s s' _ h
      simp [dfs] at h
  | succ fuel ih =>
      intro idx s s' hLt h
      by_cases hOld : s.visited idx = 1
      · rw [dfs_marked hOld, Option.bind_eq_some_iff] at h
        obtain ⟨t, hPush, h⟩ := h
        obtain ⟨line, -, h⟩ := Option.bind_eq_some_iff.mp h
        obtain rfl := Option.some.inj h
        obtain ⟨-, rfl⟩ := push_eq_some.mp hPush
        simp
      · rw [dfs_unmarked hWf hLt hOld, Option.bind_eq_some_iff] at h
        obtain ⟨t, hPush, hLoop⟩ := h
        obtain ⟨-, rfl⟩ := push_eq_some.mp hPush
        rcases hFun.adj_cases hLt with hNone | ⟨j, hNext⟩
        · rw [hNone] at hLoop
          obtain rfl := Option.some.inj hLoop
          exact Nat.le_succ _
        · rw [hNext] at hLoop
          obtain ⟨u, hRound, hEnd⟩ := foldlM_cons_eq_some.mp hLoop
          obtain rfl := Option.some.inj hEnd
          obtain ⟨v, hRun, rfl⟩ := dfsRound_eq_some.mp hRound
          have hMem : j ∈ g.adj idx := by
            rw [hNext]
            exact List.mem_singleton_self j
          have hOne := ih j _ v (adj_lt hMem) hRun
          exact hOne

theorem searchForCycle_prints (hWf : g.WellFormed) (hFun : g.Functional) {idx : Nat}
    (hLt : idx < g.vertexNum) (h : g.searchForCycle s idx = some s') :
    s'.printed.length ≤ s.printed.length + 1 := by
  rw [searchForCycle_eq hWf hLt] at h
  rcases hFun.adj_cases hLt with hNone | ⟨j, hNext⟩
  · rw [hNone] at h
    obtain rfl := Option.some.inj h
    exact Nat.le_succ _
  · rw [hNext] at h
    obtain ⟨u, hRound, hEnd⟩ := foldlM_cons_eq_some.mp h
    obtain rfl := Option.some.inj hEnd
    have hMem : j ∈ g.adj idx := by
      rw [hNext]
      exact List.mem_singleton_self j
    have hOne := dfs_prints hWf hFun _ j _ u (adj_lt hMem) hRound
    exact hOne

/-- The searches behind a report are not made any more. -/
theorem checkDeadLock_prints (hWf : g.WellFormed) (hFun : g.Functional)
    (h : g.checkDeadLock s = some s') : s'.printed.length ≤ s.printed.length + 1 := by
  rw [checkDeadLock_eq] at h
  have hLoop : (s'.deadlock ≠ 1 → s'.printed = s.printed) ∧
      s'.printed.length ≤ s.printed.length + 1 := by
    refine foldlM_invariant (P := fun t : Search => (t.deadlock ≠ 1 → t.printed = s.printed) ∧
      t.printed.length ≤ s.printed.length + 1) h ⟨fun _ => rfl, Nat.le_succ _⟩ ?_
    rintro i hMem t u ⟨hQuiet, hOne⟩ hRound
    by_cases hSet : t.deadlock = 1
    · obtain rfl := checkRound_deadlock hRound hSet
      exact ⟨hQuiet, hOne⟩
    · unfold checkRound at hRound
      rw [if_neg hSet] at hRound
      have hLt := List.mem_range.mp hMem
      have hPrints := searchForCycle_prints hWf hFun hLt hRound
      have hOutcome := searchForCycle_outcome hWf hLt hRound
      rw [hQuiet hSet] at hPrints
      refine ⟨fun hZero => ?_, hPrints⟩
      cases hMet : g.rootMeeting i with
      | none => rw [(hOutcome.quiet hMet).2, hQuiet hSet]
      | some w => exact absurd (hOutcome.report w hMet).1 hZero
  exact hLoop.2

/-- **What a check prints** where every vertex has at most one edge. -/
theorem checkDeadLock_line (hWf : g.WellFormed) (hFun : g.Functional)
    (h : g.checkDeadLock s = some s') :
    s'.printed = s.printed ++ g.meeting.toList.map fun w => g.line w.points := by
  have hOutcome := checkDeadLock_outcome hWf h
  cases hMet : g.meeting with
  | none => simpa using (hOutcome.quiet hMet).2
  | some w =>
      have hPrefix := (hOutcome.report w hMet).2
      have hLength := checkDeadLock_prints hWf hFun h
      refine (hPrefix.eq_of_length_le ?_).symm
      simpa using hLength

/-! ## Which line -/

/-- The only way from a root that comes back to itself. -/
theorem meeting_lasso (hFun : g.Functional) {w : Walk Nat} (hMet : g.meeting = some w) :
    ∃ tail knot circle, w.points = looped tail knot circle ∧ Lasso g.Edge tail knot circle := by
  obtain ⟨root, hRoot, hRootMet⟩ := List.exists_of_findSome?_eq_some hMet
  obtain ⟨i, hStep, hFirst⟩ := List.exists_of_findSome?_eq_some hRootMet
  have hEdge : g.Edge root i := ⟨List.mem_range.mp hRoot, hStep⟩
  refine lasso_of_firstMeeting (D := fun v => v < g.vertexNum) (R := g.Edge)
    (fun v j hV hAdj => ⟨⟨hV, hAdj⟩, adj_lt hAdj⟩) hFun (g.vertexNum + 1) [root] i
    (adj_lt hStep) ?_ (List.nodup_singleton root) w ?_
  · exact List.isChain_pair.mpr hEdge
  · simpa [walksOver] using hFirst

end Digraph

/-! ## The line of a check -/

section Check

variable {sc : Scope} {s : State}

/-- The vertices of different indices are different threads. -/
theorem Consistent.thread_injective (h : Consistent sc s) {i j : Nat}
    (hi : i < s.tg.graph.vertexNum) (hj : j < s.tg.graph.vertexNum)
    (hSame : (s.tg.graph.vertexList i).pair.thId = (s.tg.graph.vertexList j).pair.thId) :
    i = j := by
  apply h.wellFormed.graph.distinct i hi j hj
  have hPair {i : Nat} (hi : i < s.tg.graph.vertexNum) :
      (s.tg.graph.vertexList i).pair = process (s.tg.graph.vertexList i).pair.thId := by
    have hType := (h.vertex_scope _ (Digraph.isVertex_iff.mpr ⟨i, hi, rfl⟩)).1
    unfold process
    rw [← hType]
  rw [hPair hi, hPair hj, hSame]

/-- **The line of a check** in a state with its edges: none without a circle of requests,
and else one that leads into a circle and around it. -/
theorem check_line (hInv : WaitInv sc s) (hCons : Consistent sc s) :
    ∃ s', step sc s .check = some s' ∧
      ((∀ u, ¬ TransGen (Requests s) u u) ∧ s'.tg.search.printed = s.tg.search.printed ∨
        ∃ tail knot circle, Lasso (Requests s) tail knot circle ∧
          s'.tg.search.printed = s.tg.search.printed ++ [looped tail knot circle]) := by
  have hWf := hCons.wellFormed.graph
  have hFun := hInv.functional hCons
  obtain ⟨search, hRun⟩ := Digraph.checkDeadLock_returns hWf s.tg.search
  have hPrinted := Digraph.checkDeadLock_line hWf hFun hRun
  refine ⟨{ s with tg := { s.tg with search := search } },
    step_eq_some.mpr ⟨trivial, by simp [effect, hRun]⟩, ?_⟩
  cases hMet : s.tg.graph.meeting with
  | none =>
      rw [hMet] at hPrinted
      refine .inl ⟨fun u hCycle => ?_, by simpa using hPrinted⟩
      obtain ⟨i, j, hI, hJ, hPath⟩ := edges_of_requests hInv hCons hCycle
      rw [hI, Option.some.injEq] at hJ
      subst hJ
      have hReport := Digraph.checkDeadLock_complete hWf hPath hRun
      have hZero : search.deadlock = 0 :=
        ((Digraph.checkDeadLock_outcome hWf hRun).quiet hMet).1
      omega
  | some w =>
      obtain ⟨tail, knot, circle, hPoints, hLasso⟩ := Digraph.meeting_lasso hFun hMet
      obtain ⟨hLast, hFront⟩ := Digraph.meeting_leads hMet
      have hLt : ∀ i ∈ tail ++ knot :: circle, i < s.tg.graph.vertexNum := by
        intro i hMem
        have hOn : i ∈ w.points := by
          rw [hPoints]
          simp only [looped, List.mem_append, List.mem_cons] at hMem ⊢
          tauto
        rcases List.mem_append.mp hOn with hIn | hEnd
        · exact (hFront i hIn).1
        · rwa [List.mem_singleton.mp hEnd]
      have hMapped := hLasso.map (fun i => (s.tg.graph.vertexList i).pair.thId)
        (fun _ _ hEdge => hInv.requests_of_edge hCons hEdge)
        (fun i hI j hJ hSame => hCons.thread_injective (hLt i hI) (hLt j hJ) hSame)
      refine .inr ⟨_, _, _, hMapped, ?_⟩
      rw [← looped_map, ← hPoints, ← Digraph.line]
      simpa [hMet] using hPrinted

/-- A thread is blocked on a mutex that the other one holds. -/
def BlockedBy (s : State) (u v : Nat) : Prop :=
  ∃ lock, s.pc u = .requested lock ∧ s.owner lock = some v

/-- Around a circle without a stale request, each thread is blocked by the next. -/
theorem blocked_around (hCons : Consistent sc s) (hClear : NoStaleCycle s)
    {tail circle : List Nat} {knot : Nat} (hLasso : Lasso (Requests s) tail knot circle) :
    (knot :: (circle ++ [knot])).IsChain (BlockedBy s) := by
  refine hLasso.around_imp fun u v hReq hBack => ?_
  exact blocked_of_not_stale hCons hReq fun hStale => hClear u v hStale hBack

end Check

/-- **What a check prints** in any run that keeps the edges: nothing without a circle of
requests, and else one line, along requests into a circle and around it.  Without a stale
request on a circle each thread from the knot on waits for a mutex that the next one
holds. -/
theorem check_prints {sc : Scope} {s : State} (hReach : Reach (step sc) (HandoverOk sc) init s) :
    ∃ s', step sc s .check = some s' ∧
      ((∀ u, ¬ TransGen (Requests s) u u) ∧ s'.tg.search.printed = s.tg.search.printed ∨
        ∃ tail knot circle, Lasso (Requests s) tail knot circle ∧
          s'.tg.search.printed = s.tg.search.printed ++ [looped tail knot circle] ∧
          (NoStaleCycle s → (knot :: (circle ++ [knot])).IsChain (BlockedBy s))) := by
  have hCons := consistent_reach hReach.reachable
  have hInv := waitInv_reach (fun _ _ hMet => hMet) hReach
  obtain ⟨s', hStep, hNone | ⟨tail, knot, circle, hLasso, hPrinted⟩⟩ := check_line hInv hCons
  · exact ⟨s', hStep, .inl hNone⟩
  · exact ⟨s', hStep, .inr ⟨tail, knot, circle, hLasso, hPrinted,
      fun hClear => blocked_around hCons hClear hLasso⟩⟩

/-- Two threads that wait for each other: the line is `1->2->1`. -/
theorem check_prints_circle :
    ∃ s s', step twoThreads s .check = some s' ∧ s'.tg.search.printed = [[1, 2, 1]] ∧
      ∃ tail knot circle, Lasso (Requests s) tail knot circle ∧
        s'.tg.search.printed = s.tg.search.printed ++ [looped tail knot circle] ∧
        (knot :: (circle ++ [knot])).IsChain (BlockedBy s) := by
  let final := run (guarded (step twoThreads) (HandoverOk twoThreads)) init circleTrace
  have hFinal : final = some (final.get (by decide)) := by simp
  have hReach : Reach (step twoThreads) (HandoverOk twoThreads) init (final.get (by decide)) :=
    reach_of_run_guarded hFinal
  have hClear : NoStaleCycle (final.get (by decide)) :=
    noStaleCycle_of_threads (consistent_reach hReach.reachable) (by decide)
  have hEmpty : (final.get (by decide)).tg.search.printed = [] := by decide
  have hCheck : (step twoThreads (final.get (by decide)) .check).map
      (fun s' => s'.tg.search.printed) = some [[1, 2, 1]] := by decide
  obtain ⟨s', hStep, hLine⟩ := Option.map_eq_some_iff.mp hCheck
  obtain ⟨t, hTaken, ⟨-, hNone⟩ | ⟨tail, knot, circle, hLasso, hPrinted, hBlocked⟩⟩ :=
    check_prints hReach
  · obtain rfl : t = s' := Option.some.inj (hTaken.symm.trans hStep)
    rw [hLine, hEmpty] at hNone
    simp at hNone
  · obtain rfl : t = s' := Option.some.inj (hTaken.symm.trans hStep)
    exact ⟨_, t, hStep, hLine, tail, knot, circle, hLasso, hPrinted, hBlocked hClear⟩

/-! ## A circle is for good -/

section Circle

variable {sc : Scope} {s s' t : State} {n : Nat} {thread lock : Nat → Nat} {as : List Action}

theorem CircularWait.congr (h : CircularWait s n thread lock)
    (hPc : ∀ i < n, s'.pc (thread i) = s.pc (thread i))
    (hOwner : ∀ i < n, s'.owner (lock i) = s.owner (lock i)) : CircularWait s' n thread lock :=
  ⟨fun i hi => (hPc i hi).trans (h.requested i hi), fun i hi => (hOwner i hi).trans (h.held i hi)⟩

/-- A thread that is not in front of its real acquire is none of the circle. -/
theorem CircularWait.setPc (h : CircularWait s n thread lock) {other : Nat} {pc : Pc}
    (hOther : ∀ m, s.pc other ≠ .requested m) :
    ∀ i < n, (s.setPc other pc).pc (thread i) = s.pc (thread i) := by
  intro i hi
  have hNe : thread i ≠ other := by
    rintro rfl
    exact hOther _ (h.requested i hi)
  simp [State.setPc, hNe]

/-- **A circular wait lasts**: nobody in it has a free mutex to take, and its mutexes are
released by nobody else. -/
theorem circularWait_move {a : Action} (h : CircularWait s n thread lock)
    (hMove : Move sc s a s') : CircularWait s' n thread lock := by
  cases hMove with
  | requestNew _ _ hPc => exact h.congr (h.setPc (by simp [hPc])) fun _ _ => rfl
  | requestOld _ _ hPc => exact h.congr (h.setPc (by simp [hPc])) fun _ _ => rfl
  | @acquire other m hPc hFree =>
      refine h.congr (fun i hi => ?_) fun i hi => ?_
      · have hNe : thread i ≠ other := by
          rintro rfl
          have hHeld := h.held i hi
          rw [h.requested i hi, Pc.requested.injEq] at hPc
          rw [hPc, hFree] at hHeld
          simp at hHeld
        simp [State.setPc, hNe]
      · have hNe : lock i ≠ m := by
          rintro rfl
          rw [h.held i hi] at hFree
          simp at hFree
        exact Function.update_of_ne hNe _ _
  | takeSlot hPc => exact h.congr (h.setPc (by simp [hPc])) fun _ _ => rfl
  | changeOwner hPc => exact h.congr (h.setPc (by simp [hPc])) fun _ _ => rfl
  | @release other m hPc hOwner =>
      refine h.congr (h.setPc (by simp [hPc])) fun i hi => ?_
      have hNe : lock i ≠ m := by
        rintro rfl
        -- the holder is the next of the circle, which waits
        rw [h.held i hi, Option.some.injEq] at hOwner
        have hWaits := h.requested ((i + 1) % n) (Nat.mod_lt _ (by omega))
        rw [hOwner, hPc] at hWaits
        simp at hWaits
      exact Function.update_of_ne hNe _ _
  | keepSlot hPc => exact h.congr (h.setPc (by simp [hPc])) fun _ _ => rfl
  | clearSlot hPc => exact h.congr (h.setPc (by simp [hPc])) fun _ _ => rfl
  | check => exact h.congr (fun _ _ => rfl) fun _ _ => rfl

/-- The threads of a circle are behind no real acquire, so their mutexes are recorded. -/
theorem CircularWait.cycle (h : CircularWait s n thread lock) (hRecorded : RecordedInv s)
    (hTwo : 2 ≤ n) (hDistinct : ∀ i < n, ∀ j < n, thread i = thread j → i = j) :
    TransGen (Requests s) (thread 0) (thread 0) := by
  let point (i : Nat) := thread (i % n)
  have hStep : ∀ i < n, Requests s (point i) (point (i + 1)) := by
    intro i hi
    have hNext : (i + 1) % n < n := Nat.mod_lt _ (by omega)
    show Requests s (thread (i % n)) (thread ((i + 1) % n))
    rw [Nat.mod_eq_of_lt hi]
    refine ⟨lock i, by rw [h.requested i hi]; rfl, ?_, fun hSame => ?_⟩
    · exact hRecorded _ _ (h.held i hi) (by simp [h.requested _ hNext])
    · have hIndex := hDistinct _ hNext i hi hSame
      by_cases hEnd : i + 1 < n
      · rw [Nat.mod_eq_of_lt hEnd] at hIndex
        omega
      · have hLast : i + 1 = n := by omega
        rw [hLast, Nat.mod_self] at hIndex
        omega
  have hClosed : point n = point 0 := by
    show thread (n % n) = thread (0 % n)
    rw [Nat.mod_self, Nat.zero_mod]
  have hCycle := TransGen.head' (hStep 0 (by omega)) (walk_back hStep hClosed (by omega))
  have hFirst : point 0 = thread 0 := congrArg thread (Nat.zero_mod n)
  rwa [hFirst] at hCycle

/-- Only a check prints. -/
theorem printed_step {a : Action} (hStep : step sc s a = some s') (hOther : a ≠ .check) :
    s'.tg.search.printed = s.tg.search.printed := by
  obtain ⟨-, hEffect⟩ := step_eq_some.mp hStep
  cases a with
  | check => exact absurd rfl hOther
  | acquire | release =>
      simp only [effect, Option.some.injEq] at hEffect
      rw [← hEffect]
      rfl
  | lockBefore =>
      obtain ⟨tg, hHook, hEq⟩ := Option.bind_eq_some_iff.mp hEffect
      obtain rfl := Option.some.inj hEq
      exact congrArg Search.printed (TaskGraph.lockBefore_search hHook)
  | lockAfter =>
      obtain ⟨tg, hHook, hEq⟩ := Option.bind_eq_some_iff.mp hEffect
      obtain rfl := Option.some.inj hEq
      exact congrArg Search.printed (TaskGraph.lockAfter_search hHook)
  | unlockAfter =>
      obtain ⟨tg, hHook, hEq⟩ := Option.bind_eq_some_iff.mp hEffect
      obtain rfl := Option.some.inj hEq
      exact congrArg Search.printed (TaskGraph.unlockAfter_search hHook)

/-- What a check prints while some threads wait in a circle. -/
theorem check_reports_circle (hReach : Reach (step sc) (KeepsView sc) init s) (hTwo : 2 ≤ n)
    (hDistinct : ∀ i < n, ∀ j < n, thread i = thread j → i = j)
    (hWait : CircularWait s n thread lock) :
    ∃ s', step sc s .check = some s' ∧ ∃ tail knot circle, Lasso (Requests s) tail knot circle ∧
      s'.tg.search.printed = s.tg.search.printed ++ [looped tail knot circle] := by
  have hInv := waitInv_reach (fun _ _ hMet => hMet.1) hReach
  have hRecorded := recordedInv_reach (fun _ _ hMet => hMet.2) hReach
  obtain ⟨s', hStep, ⟨hNone, -⟩ | hLine⟩ := check_line hInv (consistent_reach hReach.reachable)
  · exact absurd (hWait.cycle hRecorded hTwo hDistinct) (hNone (thread 0))
  · exact ⟨s', hStep, hLine⟩

/-- **A deadlock is reported for good** in runs that keep the edges and the records: the
threads of a circle wait in it for ever, each check from then on prints one line, and so
does a check at the end. -/
theorem deadlock_reported_for_good (hReach : Reach (step sc) (KeepsView sc) init s) (hTwo : 2 ≤ n)
    (hDistinct : ∀ i < n, ∀ j < n, thread i = thread j → i = j)
    (hWait : CircularWait s n thread lock)
    (hRun : run (guarded (step sc) (KeepsView sc)) s as = some t) :
    CircularWait t n thread lock ∧
      t.tg.search.printed.length = s.tg.search.printed.length + as.count .check ∧
      ∃ t', step sc t .check = some t' ∧ ∃ tail knot circle,
        Lasso (Requests t) tail knot circle ∧
        t'.tg.search.printed = t.tg.search.printed ++ [looped tail knot circle] := by
  have hAll : Reach (step sc) (KeepsView sc) init t ∧ CircularWait t n thread lock ∧
      t.tg.search.printed.length = s.tg.search.printed.length + as.count .check := by
    refine run_invariant (P := fun as t => Reach (step sc) (KeepsView sc) init t ∧
      CircularWait t n thread lock ∧
      t.tg.search.printed.length = s.tg.search.printed.length + as.count .check) hRun
      ⟨hReach, hWait, rfl⟩ ?_
    rintro as u a u' - ⟨hBefore, hStill, hLines⟩ hGuarded
    obtain ⟨hMet, hStep⟩ : KeepsView sc u a ∧ step sc u a = some u' := by
      unfold guarded at hGuarded
      split at hGuarded
      · rename_i hMet
        exact ⟨hMet, hGuarded⟩
      · simp at hGuarded
    have hMove := step_move (consistent_reach hBefore.reachable) hStep
    refine ⟨hBefore.next a hMet hStep, circularWait_move hStill hMove, ?_⟩
    by_cases hCheck : a = .check
    · subst hCheck
      obtain ⟨v, hTaken, _, _, _, -, hPrinted⟩ :=
        check_reports_circle hBefore hTwo hDistinct hStill
      obtain rfl : v = u' := Option.some.inj (hTaken.symm.trans hStep)
      rw [hPrinted, List.length_append, hLines, List.count_append]
      simp
      omega
    · rw [printed_step hStep hCheck, hLines, List.count_append]
      simp [hCheck]
  obtain ⟨hReachT, hWaitT, hLines⟩ := hAll
  exact ⟨hWaitT, hLines, check_reports_circle hReachT hTwo hDistinct hWaitT⟩

end Circle

/-- Both checks behind the circle print. -/
theorem deadlock_reported_for_good_circle :
    ∃ s t : State, CircularWait t 2 circleThread circleLock ∧
      t.tg.search.printed.length = s.tg.search.printed.length + 2 := by
  let final := run (guarded (step twoThreads) (KeepsView twoThreads)) init circleTrace
  have hFinal : final = some (final.get (by decide)) := by simp
  have hReach : Reach (step twoThreads) (KeepsView twoThreads) init (final.get (by decide)) :=
    reach_of_run_guarded hFinal
  have hWait : CircularWait (final.get (by decide)) 2 circleThread circleLock :=
    circularWait_two (by decide)
  let later := run (guarded (step twoThreads) (KeepsView twoThreads)) (final.get (by decide))
    [.check, .check]
  have hLater : later = some (later.get (by decide)) := by simp
  obtain ⟨hStill, hLines, -⟩ := deadlock_reported_for_good hReach (by decide)
    circleThread_distinct hWait hLater
  exact ⟨_, _, hStill, hLines⟩

end DeadlockCheck
end LinuxCppLearn
