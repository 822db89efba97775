import LinuxCppLearn.DeadlockCheck.CheckMoments

/-!
# The checker on its own

With no hook between its steps the checker does what `check_dead_lock` does in
one piece: the stack of frames is the recursion of `DFS` written out.

* `Simple` — no list of edges has a target twice, in any reachable state; so a
  node is named by its target.
* `goes_call` — a call of `DFS` comes back to the loop that has made it, with
  the search that `dfs` computes.
* `Round` — the checker wakes up and goes on until it sleeps again.
* `undisturbed_check` — from any reachable state in which the checker sleeps, a
  round leaves the search that `checkDeadLock` computes.
-/

namespace LinuxCppLearn
namespace DeadlockCheck
namespace ConcurrentCheck

open StepSystem TaskGraph OptionLoop Relation

/-! ## Lists of edges -/

/-- No list of edges has a target twice. -/
def Simple (g : Digraph) : Prop :=
  ∀ q, (g.succ q).Nodup

section
variable {tg tg' : TaskGraph} {thread lock : Nat}

/-- `lock_before` adds a target only where `verify_edge` has not found its
thread. -/
theorem lockBefore_simple (hWf : tg.WellFormed) (hSimple : Simple tg.graph)
    (h : tg.lockBefore thread lock = some tg') : Simple tg'.graph := by
  rcases lockBefore_cases hWf h with ⟨-, rfl⟩ | ⟨slot, -, hRecord⟩
  · exact hSimple
  · intro q
    by_cases hOld : tg.Asks thread slot.thId
    · rw [hRecord.edge_old hOld]
      exact hSimple q
    · rw [hRecord.edge_new hOld]
      split
      · rename_i hSame
        subst hSame
        refine List.nodup_append.mpr ⟨hSimple _, List.nodup_singleton _, ?_⟩
        rintro p hMem p' hNew rfl
        rw [List.mem_singleton.mp hNew] at hMem
        exact hOld (.inr ⟨_, hMem, rfl⟩)
      · exact hSimple q

theorem lockAfter_simple (hWf : tg.WellFormed) (hLock : lock ≠ 0) (hSimple : Simple tg.graph)
    (h : tg.lockAfter thread lock = some tg') : Simple tg'.graph := by
  rcases lockAfter_cases hWf hLock h with ⟨-, hTake⟩ | ⟨slot, -, hChange⟩
  · rw [hTake.graph]
    exact hSimple
  · intro q
    rw [hChange.edge]
    split
    · exact (hSimple _).sublist List.eraseP_sublist
    · exact hSimple q

/-- Every hook keeps the graph in order. -/
theorem Hook.run_simple {hook : Hook} (hWf : tg.WellFormed) (hLock : hook.lock ≠ 0)
    (hSimple : Simple tg.graph) (h : hook.run tg = some tg') :
    tg'.WellFormed ∧ Simple tg'.graph := by
  cases hook with
  | lockBefore thread lock =>
      exact ⟨(lockBefore_edge hWf h).1, lockBefore_simple hWf hSimple h⟩
  | lockAfter thread lock =>
      exact ⟨(lockAfter_edge hWf hLock h).1, lockAfter_simple hWf hLock hSimple h⟩
  | unlockAfter thread lock =>
      have hSame := @unlockAfter_graph _ _ thread _ h
      exact ⟨(@unlockAfter_edge _ _ thread _ hWf hLock h).1, hSame ▸ hSimple⟩

end

/-! ## The checker changes no graph -/

/-- The checker writes the search only. -/
def SameGraph (s s' : State) : Prop :=
  s'.tg.graph = s.tg.graph ∧ s'.tg.locks = s.tg.locks

section
variable {s s' : State} {i j : Nat} {top : Frame} {below : List Frame}

theorem leave_sameGraph : SameGraph s (leave s i below) := by
  cases below with
  | nil => exact ⟨rfl, rfl⟩
  | cons caller below => exact ⟨rfl, rfl⟩

theorem callDfs_sameGraph (h : callDfs s i top below j = some s') : SameGraph s s' := by
  unfold callDfs at h
  split at h
  · unfold report at h
    simp only [Option.bind_eq_bind, Option.bind_eq_some_iff, Option.some.injEq] at h
    obtain ⟨search, -, line, -, rfl⟩ := h
    exact ⟨rfl, rfl⟩
  · simp only [Option.bind_eq_bind, Option.bind_eq_some_iff, Option.some.injEq] at h
    obtain ⟨search, -, rfl⟩ := h
    exact ⟨rfl, rfl⟩

theorem loopStep_sameGraph (h : loopStep s i top below = some s') : SameGraph s s' := by
  unfold loopStep at h
  cases hPc : top.pc with
  | test =>
      simp only [hPc] at h
      split at h
      · obtain rfl := Option.some.inj h
        exact ⟨rfl, rfl⟩
      · obtain rfl := Option.some.inj h
        exact leave_sameGraph
      · obtain rfl := Option.some.inj h
        by_cases hRoot : below = []
        · subst hRoot
          exact ⟨rfl, rfl⟩
        · rw [if_neg hRoot]
          exact ⟨rfl, rfl⟩
  | argument | advance =>
      simp only [hPc] at h
      split at h <;>
      · obtain rfl := Option.some.inj h
        exact ⟨rfl, rfl⟩
  | target ptr =>
      cases ptr with
      | node p =>
          simp only [hPc, Option.bind_eq_bind, Option.bind_eq_some_iff] at h
          obtain ⟨j, -, hCall⟩ := h
          exact callDfs_sameGraph hCall
      | null | head | dangling =>
          simp only [hPc] at h
          obtain rfl := Option.some.inj h
          exact ⟨rfl, rfl⟩

theorem checkStep_sameGraph (h : checkStep s = some s') : SameGraph s s' := by
  unfold checkStep at h
  split at h
  · obtain rfl := Option.some.inj h
    exact ⟨rfl, rfl⟩
  · split at h <;>
    · obtain rfl := Option.some.inj h
      exact ⟨rfl, rfl⟩
  · exact loopStep_sameGraph h

end

/-- The graph of a started checker is in order, whatever the hooks do. -/
theorem graph_in_order {tg : TaskGraph} (hInit : Started tg) {s : State}
    (h : Reachable step (init tg) s) : s.tg.WellFormed ∧ Simple s.tg.graph := by
  refine h.invariant (P := fun s => s.tg.WellFormed ∧ Simple s.tg.graph) ?_ ?_
  · refine ⟨(momentInv_init hInit).wellFormed, fun q => ?_⟩
    have hNone : ¬ tg.graph.IsVertex q := by
      rw [Digraph.isVertex_iff]
      rintro ⟨i, hLt, -⟩
      simp [hInit.1] at hLt
    show (tg.graph.succ q).Nodup
    rw [Digraph.succ_of_not_isVertex hNone]
    exact List.nodup_nil
  · rintro s a s' ⟨hWf, hSimple⟩ - hStep
    cases a with
    | check =>
        obtain ⟨hGraph, hLocks⟩ := checkStep_sameGraph hStep
        exact ⟨⟨hGraph ▸ hWf.graph, hLocks ▸ hWf.locks⟩, hGraph ▸ hSimple⟩
    | hook hook =>
        simp only [step] at hStep
        split at hStep
        · rename_i hLock
          simp only [Option.bind_eq_bind, Option.bind_eq_some_iff, Option.some.injEq] at hStep
          obtain ⟨tg', hRun, rfl⟩ := hStep
          exact Hook.run_simple hWf hLock hSimple hRun
        · simp at hStep

/-! ## The steps of the checker -/

/-- Steps of the checker until it sleeps, with no hook between them. -/
def Checks : State → State → Prop :=
  ReflTransGen fun s s' => s.checker ≠ .sleep ∧ step s .check = some s'

/-- The checker wakes up, and its steps alone bring it back to sleep. -/
def Round (s s' : State) : Prop :=
  ∃ t, step s .check = some t ∧ Checks t s' ∧ s'.checker = .sleep

/-- The state with another position and another search. -/
def State.put (s : State) (c : Checker) (search : Search) (reported : List (List Nat)) : State :=
  { s with
    tg := { s.tg with search := search }
    checker := c
    reported := reported }

/-- The checker gets from one position to another, with these searches. -/
def Goes (s : State) (c : Checker) (search : Search) (c' : Checker) (search' : Search) : Prop :=
  ∀ reported, ∃ reported',
    Checks (s.put c search reported) (s.put c' search' reported')

section
variable {s : State} {c c' c'' : Checker} {search search' search'' : Search}

theorem Goes.refl : Goes s c search c search :=
  fun reported => ⟨reported, ReflTransGen.refl⟩

theorem Goes.trans (h : Goes s c search c' search') (h' : Goes s c' search' c'' search'') :
    Goes s c search c'' search'' := by
  intro reported
  obtain ⟨reported', hFirst⟩ := h reported
  obtain ⟨reported'', hSecond⟩ := h' reported'
  exact ⟨reported'', ReflTransGen.trans hFirst hSecond⟩

theorem Goes.step (hAwake : c ≠ .sleep) (h : ∀ reported, ∃ reported',
    checkStep (s.put c search reported) = some (s.put c' search' reported')) :
    Goes s c search c' search' := by
  intro reported
  obtain ⟨reported', hStep⟩ := h reported
  exact ⟨reported', ReflTransGen.single ⟨hAwake, hStep⟩⟩

/-- A step that reports nothing. -/
theorem Goes.quiet (hAwake : c ≠ .sleep)
    (h : ∀ reported, checkStep (s.put c search reported) = some (s.put c' search' reported)) :
    Goes s c search c' search' :=
  .step hAwake fun reported => ⟨reported, h reported⟩

end

/-- The pointer stands in front of `rest`. -/
def NodePtr.Before (list : List Pair) (ptr : NodePtr) (rest : List Pair) : Prop :=
  ptr.next list = some (.first rest)

theorem NodePtr.before_node {list before rest : List Pair} {p : Pair}
    (hSimple : list.Nodup) (hSplit : list = before ++ p :: rest) :
    (NodePtr.node p).Before list rest := by
  subst hSplit
  have hNew : p ∉ before := fun hMem =>
    (List.nodup_append.mp hSimple).2.2 p hMem p List.mem_cons_self rfl
  have hSkip : ∀ q ∈ before, decide (q ≠ p) = true := fun q hMem => by
    simpa using ne_of_mem_of_not_mem hMem hNew
  simp only [NodePtr.Before, NodePtr.next]
  rw [List.dropWhile_append_of_pos hSkip, List.dropWhile_cons_of_neg (by simp), List.tail_cons]

/-- What the loop does in front of its call of `DFS`. -/
def enterRound (g : Digraph) (i : Nat) (below : List Frame) (search : Search) : Search :=
  if below = [] then g.resetFor i search else search

/-- What the loop does behind its call of `DFS`. -/
def leaveRound (below : List Frame) (search : Search) : Search :=
  { search with k := if below = [] then search.k else search.k - 1 }

/-- A round of a loop. -/
def loopRound (g : Digraph) (fuel i : Nat) (below : List Frame) (search : Search) (pair : Pair) :
    Option Search := do
  let j ← g.searchVertex pair
  let search ← g.dfs fuel j (enterRound g i below search)
  some (leaveRound below search)

section
variable {s : State} {i idx fuel : Nat} {below : List Frame} {search search' : Search}

/-- The calls of `DFS` with this bound come back. -/
def CallsReturn (s : State) (fuel : Nat) : Prop :=
  ∀ i top below p j search search', top.pc = .target (.node p) →
    s.tg.graph.searchVertex p = some j → s.tg.graph.dfs fuel j search = some search' →
    Goes s (.search i top below) search (.search i { top with pc := .advance } below)
      (leaveRound below search')

/-- **The loop** over the rest of a list of edges, if its calls come back. -/
theorem goes_loop (hCalls : CallsReturn s fuel)
    (hSimple : (s.tg.graph.vertexList idx).next.Nodup) (before : List Pair) (ver : NodePtr)
    {rest : List Pair} (hSplit : (s.tg.graph.vertexList idx).next = before ++ rest)
    (hVer : ver.Before (s.tg.graph.vertexList idx).next rest)
    (hLoop : rest.foldlM (loopRound s.tg.graph fuel i below) search = some search') :
    ∃ last, last.Before (s.tg.graph.vertexList idx).next [] ∧
      Goes s (.search i ⟨idx, ver, .test⟩ below) search
        (.search i ⟨idx, last, .test⟩ below) search' := by
  induction rest generalizing before ver search with
  | nil =>
      obtain rfl : search = search' := by simpa using hLoop
      exact ⟨ver, hVer, .refl⟩
  | cons p rest ih =>
      obtain ⟨found, hRound, hRest⟩ := foldlM_cons_eq_some.mp hLoop
      simp only [loopRound, Option.bind_eq_bind, Option.bind_eq_some_iff,
        Option.some.injEq] at hRound
      obtain ⟨j, hFound, done, hDfs, rfl⟩ := hRound
      have hNext : ver.next (s.tg.graph.vertexList idx).next = some (.node p) := hVer
      have hTest : Goes s (.search i ⟨idx, ver, .test⟩ below) search
          (.search i ⟨idx, ver, .argument⟩ below) (enterRound s.tg.graph i below search) := by
        apply Goes.quiet (by simp)
        intro reported
        simp only [checkStep, loopStep, State.put, hNext, enterRound]
        split <;> rfl
      have hArgument : Goes s (.search i ⟨idx, ver, .argument⟩ below)
          (enterRound s.tg.graph i below search)
          (.search i ⟨idx, ver, .target (.node p)⟩ below)
          (enterRound s.tg.graph i below search) := by
        apply Goes.quiet (by simp)
        intro reported
        simp only [checkStep, loopStep, State.put, hNext]
        rfl
      have hCall := hCalls i ⟨idx, ver, .target (.node p)⟩ below p j _ _ rfl hFound hDfs
      have hAdvance : Goes s (.search i ⟨idx, ver, .advance⟩ below) (leaveRound below done)
          (.search i ⟨idx, .node p, .test⟩ below) (leaveRound below done) := by
        apply Goes.quiet (by simp)
        intro reported
        simp only [checkStep, loopStep, State.put, hNext]
        rfl
      obtain ⟨last, hLast, hGoes⟩ := ih (before ++ [p]) (.node p)
        (by rw [hSplit, List.append_assoc, List.singleton_append])
        (NodePtr.before_node hSimple hSplit) hRest
      exact ⟨last, hLast, hTest.trans (hArgument.trans (hCall.trans (hAdvance.trans hGoes)))⟩

/-- The loop of a `DFS` ends and goes back to its caller. -/
theorem goes_back {caller : Frame} {last : NodePtr}
    (hLast : last.Before (s.tg.graph.vertexList idx).next []) :
    Goes s (.search i ⟨idx, last, .test⟩ (caller :: below)) search
      (.search i caller below) (leaveRound below search) := by
  apply Goes.quiet (by simp)
  intro reported
  have hNext : last.next (s.tg.graph.vertexList idx).next = some .null := hLast
  simp only [checkStep, loopStep, State.put, hNext]
  rfl

/-- `DFS` of an unmarked vertex is a loop that takes back an entry of the path
behind every call. -/
theorem dfs_new {g : Digraph} {j : Nat} (hNew : search.visited j ≠ 1) (i : Nat) (top : Frame)
    (below : List Frame) :
    g.dfs (fuel + 1) j search =
      ((search.mark j).push j).bind fun search =>
        (g.vertexList j).next.foldlM (loopRound g fuel i (top :: below)) search := by
  rw [Digraph.dfs, if_neg hNew]
  rfl

/-- **A call of `DFS`** comes back to the loop that has made it. -/
theorem goes_call (hSimple : ∀ j < s.tg.graph.vertexNum, (s.tg.graph.vertexList j).next.Nodup)
    (fuel : Nat) : CallsReturn s fuel := by
  induction fuel with
  | zero =>
      intro i top below p j search search' _ _ hDfs
      simp [Digraph.dfs] at hDfs
  | succ fuel ih =>
      intro i top below p j search search' hPc hFound hDfs
      by_cases hOld : search.visited j = 1
      -- a marked vertex: the report is one step
      · rw [Digraph.dfs_marked hOld] at hDfs
        simp only [Option.bind_eq_some_iff, Option.some.injEq] at hDfs
        obtain ⟨pushed, hPush, line, hLine, rfl⟩ := hDfs
        apply Goes.step (by simp)
        intro reported
        refine ⟨reported ++ [pathList pushed], ?_⟩
        simp only [checkStep, loopStep, hPc, State.put, hFound, Option.bind_eq_bind,
          Option.bind_some, callDfs, if_pos hOld, report, hPush, hLine]
        rfl
      -- a new one: its loop runs on top of the stack
      · let caller : Frame := { top with pc := .advance }
        rw [dfs_new hOld i caller below, Option.bind_eq_some_iff] at hDfs
        obtain ⟨pushed, hPush, hLoop⟩ := hDfs
        have hEnter : Goes s (.search i top below) search
            (.search i (.enter j) (caller :: below)) pushed := by
          apply Goes.quiet (by simp)
          intro reported
          simp only [checkStep, loopStep, hPc, State.put, hFound, Option.bind_eq_bind,
            Option.bind_some, callDfs, if_neg hOld, hPush]
          rfl
        obtain ⟨last, hLast, hGoes⟩ := goes_loop ih (hSimple j (Digraph.searchVertex_lt hFound))
          [] .head rfl rfl hLoop
        exact hEnter.trans (hGoes.trans (goes_back hLast))

/-! ## The whole check -/

@[simp] theorem leaveRound_root (search : Search) : leaveRound [] search = search := rfl

/-- A round of `search_for_cycle`, which leaves `k` alone behind its call. -/
theorem loopRound_root (g : Digraph) (search : Search) (pair : Pair) :
    loopRound g fuel i [] search pair =
      (g.searchVertex pair).bind fun j => g.dfs fuel j (g.resetFor i search) := by
  simp [loopRound, enterRound]

/-- **`search_for_cycle`** comes to its end. -/
theorem goes_searchForCycle
    (hSimple : ∀ j < s.tg.graph.vertexNum, (s.tg.graph.vertexList j).next.Nodup)
    (hLt : i < s.tg.graph.vertexNum) (hQuiet : search.deadlock ≠ 1)
    (hRun : s.tg.graph.searchForCycle search i = some search') :
    Goes s (.outer i) search (.outer (i + 1)) search' := by
  let first := { search.mark i with path := Function.update search.path 0 (i : Int), k := 1 }
  have hStart : Goes s (.outer i) search (.search i (.enter i) []) first := by
    apply Goes.quiet (by simp)
    intro reported
    exact if_pos ⟨hLt, hQuiet⟩
  have hLoop : (s.tg.graph.vertexList i).next.foldlM
      (loopRound s.tg.graph (s.tg.graph.vertexNum + 1) i []) first = some search' := by
    rw [← hRun]
    congr 1
    funext search pair
    exact loopRound_root s.tg.graph search pair
  obtain ⟨last, hLast, hGoes⟩ := goes_loop (goes_call hSimple _) (hSimple i hLt)
    [] .head rfl rfl hLoop
  have hEnd : Goes s (.search i ⟨i, last, .test⟩ []) search' (.outer (i + 1)) search' := by
    apply Goes.quiet (by simp)
    intro reported
    have hNext : last.next (s.tg.graph.vertexList i).next = some .null := hLast
    simp only [checkStep, loopStep, State.put, hNext]
    rfl
  exact hStart.trans (hGoes.trans hEnd)

/-- The loop of `check_dead_lock` from `i` on. -/
theorem goes_outer
    (hSimple : ∀ j < s.tg.graph.vertexNum, (s.tg.graph.vertexList j).next.Nodup) {count : Nat}
    (hCount : i + count = s.tg.graph.vertexNum)
    (hRun : (List.range' i count).foldlM s.tg.graph.checkRound search = some search') :
    Goes s (.outer i) search .sleep search' := by
  induction count generalizing i search with
  | zero =>
      obtain rfl : search = search' := by simpa using hRun
      apply Goes.quiet (by simp)
      intro reported
      exact if_neg fun hNext => absurd hNext.1 (by simp only [State.put]; omega)
  | succ count ih =>
      by_cases hSet : search.deadlock = 1
      -- the `break`: the rounds left do nothing
      · obtain rfl : search' = search := by
          refine foldlM_invariant (P := fun t => t = search) hRun rfl ?_
          rintro j - t t' rfl hRound
          exact Digraph.checkRound_deadlock hRound hSet
        apply Goes.quiet (by simp)
        intro reported
        exact if_neg fun hNext => hNext.2 hSet
      · rw [List.range'_succ] at hRun
        obtain ⟨found, hRound, hRest⟩ := foldlM_cons_eq_some.mp hRun
        unfold Digraph.checkRound at hRound
        rw [if_neg hSet] at hRound
        have hSearch := goes_searchForCycle hSimple (by omega) hSet hRound
        exact hSearch.trans (ih (by omega) hRest)

end

/-- **The checker on its own computes `checkDeadLock`**: in any reachable state
in which it sleeps, a round leaves that search, and the checker has followed
neither null nor a freed node on the way. -/
theorem undisturbed_check {tg : TaskGraph} (hInit : Started tg) {s : State}
    (hReach : Reachable step (init tg) s) (hSleep : s.checker = .sleep) :
    ∃ search reported, s.tg.graph.checkDeadLock s.tg.search = some search ∧
      Round s { s.put .sleep search reported with moments := [s.tg.graph] } := by
  obtain ⟨hWf, hSimple⟩ := graph_in_order hInit hReach
  have hNext : ∀ j < s.tg.graph.vertexNum, (s.tg.graph.vertexList j).next.Nodup := by
    intro j hLt
    rw [← hWf.graph.succ_eq hLt rfl]
    exact hSimple _
  obtain ⟨search, hRun⟩ := Digraph.checkDeadLock_returns hWf.graph s.tg.search
  rw [Digraph.checkDeadLock_eq, List.range_eq_range'] at hRun
  let begun : State := { s with moments := [s.tg.graph] }
  obtain ⟨reported, hGoes⟩ :=
    goes_outer (s := begun) hNext (Nat.zero_add _) hRun []
  have hFirst : step s .check =
      some (begun.put (.outer 0) { s.tg.search with deadlock := 0 } []) := by
    simp only [step, checkStep, hSleep]
    rfl
  refine ⟨search, reported, ?_, _, hFirst, hGoes, rfl⟩
  rw [Digraph.checkDeadLock_eq, List.range_eq_range']
  exact hRun

end ConcurrentCheck
end DeadlockCheck
end LinuxCppLearn
