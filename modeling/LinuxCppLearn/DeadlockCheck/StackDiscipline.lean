import LinuxCppLearn.DeadlockCheck.CycleSearch
import Mathlib.Data.List.Chain

/-!
# The stack of the search for a cycle

`path[0 .. k - 1]` is the stack of `DFS`: the callee increments `k`, the caller
decrements it, and both the report and the expansion push.  The search is written
here once more, with a log of what it does to `k` and to `path`, of the vertices it
expands and of the paths it prints; the writes are made wherever `k` points to.

* `Stacked` — the path is a way along edges from the root, and its vertices are
  marked and distinct.
* `Disciplined` — what a piece of the search logs and marks; pieces one after
  another are one piece.
* `dfs_runs` — `DFS`, by induction on the bound of its depth.
* `stack_discipline` — every call of `check_dead_lock`.
-/

namespace LinuxCppLearn
namespace DeadlockCheck

open OptionLoop

inductive Event
  /-- `k` gets a value -/
  | setK (k : Nat)
  /-- `path[i]` is written -/
  | write (i : Nat)
  /-- `DFS` goes on from an unmarked vertex -/
  | expand (idx : Nat)
  /-- `print_deadlock` runs, with this in `path[0 .. k - 1]` -/
  | print (path : List Int)
deriving DecidableEq, Repr

/-- The search, and what it has logged. -/
structure Traced where
  search : Search
  log : List Event

/-- `path[0 .. k - 1]` -/
def Search.stack (s : Search) : List Int :=
  (List.range s.k).map s.path

namespace Traced

/-- `path[k++] = idx` -/
def push (t : Traced) (idx : Nat) : Traced where
  search :=
    { t.search with
      path := Function.update t.search.path t.search.k idx
      k := t.search.k + 1 }
  log := t.log ++ [.write t.search.k, .setK (t.search.k + 1)]

/-- `k--` -/
def pop (t : Traced) : Traced where
  search := { t.search with k := t.search.k - 1 }
  log := t.log ++ [.setK (t.search.k - 1)]

end Traced

/-- What `search_for_cycle` logs: for the push of the root, and for each neighbour. -/
structure RootLog where
  root : Nat
  start : List Event
  rounds : List (List Event)
deriving DecidableEq, Repr

namespace Digraph

/-- `DFS` -/
def dfsTraced (g : Digraph) : Nat → Nat → Traced → Option Traced
  | 0, _, _ => none
  | fuel + 1, idx, t =>
      if t.search.visited idx = 1 then do
        let t := t.push idx
        let line ← g.printDeadlock t.search
        some
          { search := { t.search with deadlock := 1, printed := t.search.printed ++ [line] }
            log := t.log ++ [.print t.search.stack] }
      else
        let t := Traced.push ⟨t.search.mark idx, t.log ++ [.expand idx]⟩ idx
        (g.vertexList idx).next.foldlM
          (fun t pair => do
            let i ← g.searchVertex pair
            let t ← dfsTraced g fuel i t
            some t.pop) t

/-- The loops of `search_for_cycle` in front of its call of `DFS`. -/
def resetTraced (g : Digraph) (idx : Nat) (s : Search) : Traced where
  search := g.resetFor idx s
  log := (List.range MAX).map (fun i => .write (i + 1)) ++ [.setK 1]

/-- `search_for_cycle` -/
def searchForCycleTraced (g : Digraph) (s : Search) (idx : Nat) : Option (Search × RootLog) :=
  let t := Traced.push ⟨{ s.mark idx with k := 0 }, [.setK 0]⟩ idx
  (g.vertexList idx).next.foldlM
    (fun r pair => do
      let i ← g.searchVertex pair
      let t ← g.dfsTraced (g.vertexNum + 1) i (g.resetTraced idx r.1)
      some (t.search, { r.2 with rounds := r.2.rounds ++ [t.log] }))
    (t.search, ⟨idx, t.log, []⟩)

/-- `check_dead_lock` -/
def checkDeadLockTraced (g : Digraph) (s : Search) : Option (Search × List RootLog) :=
  (List.range g.vertexNum).foldlM
    (fun r i =>
      if r.1.deadlock = 1 then some r
      else do
        let (s, log) ← g.searchForCycleTraced r.1 i
        some (s, r.2 ++ [log]))
    ({ s with deadlock := 0 }, [])

/-! ## What the log is to say -/

variable {g : Digraph} {root : Nat}

/-- A way along edges from the root, the vertices of which are distinct up to the
last one. -/
def WalkFrom (g : Digraph) (root : Nat) (path : List Int) : Prop :=
  ∃ vs : List Nat, path = vs.map Int.ofNat ∧ vs.head? = some root ∧ vs.IsChain g.Edge ∧
    vs.dropLast.Nodup

def EventOk (g : Digraph) (root : Nat) : Event → Prop
  | .setK k => 1 ≤ k ∧ k ≤ g.vertexNum + 1
  | .write i => i ≤ MAX
  | .expand idx => idx < g.vertexNum
  | .print path => g.WalkFrom root path

/-- The vertices that `DFS` expands. -/
def expanded (es : List Event) : List Nat :=
  es.filterMap fun
    | .expand idx => some idx
    | _ => none

/-- What a piece of the search between two states logs and marks: a vertex is
expanded where it is unmarked, and is marked then. -/
structure Disciplined (g : Digraph) (root : Nat) (s s' : Search) (es : List Event) : Prop where
  ok : ∀ e ∈ es, g.EventOk root e
  once : (expanded es).Nodup
  fresh : ∀ v ∈ expanded es, s.visited v ≠ 1 ∧ s'.visited v = 1
  grows : ∀ v, s.visited v = 1 → s'.visited v = 1

theorem Disciplined.append {s t u : Search} {es es' : List Event}
    (h : Disciplined g root s t es) (h' : Disciplined g root t u es') :
    Disciplined g root s u (es ++ es') where
  ok e hMem := by
    rcases List.mem_append.mp hMem with hFirst | hSecond
    · exact h.ok e hFirst
    · exact h'.ok e hSecond
  once := by
    rw [expanded, List.filterMap_append, List.nodup_append]
    refine ⟨h.once, h'.once, ?_⟩
    rintro v hFirst w hSecond rfl
    exact (h'.fresh v hSecond).1 (h.fresh v hFirst).2
  fresh v hMem := by
    rw [expanded, List.filterMap_append, List.mem_append] at hMem
    rcases hMem with hFirst | hSecond
    · exact ⟨(h.fresh v hFirst).1, h'.grows v (h.fresh v hFirst).2⟩
    · exact ⟨fun hOld => (h'.fresh v hSecond).1 (h.grows v hOld), (h'.fresh v hSecond).2⟩
  grows v hOld := h'.grows v (h.grows v hOld)

/-- Where nothing is expanded. -/
theorem disciplined_of_quiet {s s' : Search} {es : List Event} (hOk : ∀ e ∈ es, g.EventOk root e)
    (hNone : expanded es = []) (hVisited : s'.visited = s.visited) :
    Disciplined g root s s' es where
  ok := hOk
  once := by rw [hNone]; exact List.nodup_nil
  fresh v hMem := by simp [hNone] at hMem
  grows v hOld := by rw [hVisited]; exact hOld

/-! ## The stack -/

/-- The path is a way along edges from the root, and its vertices are marked and
distinct. -/
structure Stacked (g : Digraph) (root : Nat) (s : Search) (vs : List Nat) : Prop where
  stack : s.stack = vs.map Int.ofNat
  head : vs.head? = some root
  chain : vs.IsChain g.Edge
  nodup : vs.Nodup
  marked : ∀ v ∈ vs, v ∈ g.marked s

variable {s s' : Search} {vs : List Nat} {t : Traced} {idx : Nat}

theorem stack_length (s : Search) : s.stack.length = s.k := by
  rw [Search.stack, List.length_map, List.length_range]

theorem stack_push (t : Traced) (idx : Nat) :
    (t.push idx).search.stack = t.search.stack ++ [(idx : Int)] := by
  show (List.range (t.search.k + 1)).map (Function.update t.search.path t.search.k idx) = _
  rw [List.range_succ, List.map_append, List.map_singleton, Function.update_self]
  congr 1
  refine List.map_congr_left fun i hMem => ?_
  rw [Function.update_of_ne (List.mem_range.mp hMem).ne]

theorem stack_pop (t : Traced) : t.pop.search.stack = t.search.stack.dropLast := by
  show (List.range (t.search.k - 1)).map t.search.path = _
  rw [Search.stack, List.dropLast_eq_take, ← List.map_take, List.take_range, List.length_map,
    List.length_range, Nat.min_eq_left (Nat.sub_le _ 1)]

/-- The stack gives `k` and the entries of `path` in front of it. -/
theorem pathInRange_of_stack (vs : List Nat) (hStack : s.stack = vs.map Int.ofNat)
    (hLt : ∀ v ∈ vs, v < g.vertexNum) : PathInRange s := by
  intro i hi
  have hMem : s.path i ∈ s.stack := List.mem_map_of_mem (List.mem_range.mpr hi)
  rw [hStack, List.mem_map] at hMem
  obtain ⟨v, hMem, hEq⟩ := hMem
  have hVertex := hLt v hMem
  have hMax := g.vertexNum_le
  rw [← hEq]
  constructor
  · exact Int.natCast_nonneg v
  · show (v : Int) < MAX
    omega

namespace Stacked

theorem k_eq (h : Stacked g root s vs) : s.k = vs.length := by
  rw [← stack_length, h.stack, List.length_map]

theorem k_pos (h : Stacked g root s vs) : 1 ≤ s.k := by
  rw [h.k_eq, Nat.one_le_iff_ne_zero, Ne, List.length_eq_zero_iff]
  rintro rfl
  simpa using h.head

/-- The stack is not longer than there are marks, and so fits into `path`. -/
theorem k_le (h : Stacked g root s vs) : s.k ≤ (g.marked s).card := by
  rw [h.k_eq, ← List.toFinset_card_of_nodup h.nodup]
  exact Finset.card_le_card fun v hMem => h.marked v (List.mem_toFinset.mp hMem)

theorem k_le_vertexNum (h : Stacked g root s vs) : s.k ≤ g.vertexNum :=
  h.k_le.trans marked_card_le

theorem k_le_MAX (h : Stacked g root s vs) : s.k ≤ MAX :=
  h.k_le_vertexNum.trans g.vertexNum_le

theorem lt (h : Stacked g root s vs) : ∀ v ∈ vs, v < g.vertexNum :=
  fun v hMem => (mem_marked.mp (h.marked v hMem)).1

/-- With the marks kept and the stack as it was. -/
theorem keep (h : Stacked g root s vs) (hStack : s'.stack = s.stack)
    (hGrows : ∀ v, s.visited v = 1 → s'.visited v = 1) : Stacked g root s' vs where
  stack := hStack.trans h.stack
  head := h.head
  chain := h.chain
  nodup := h.nodup
  marked v hMem := by
    obtain ⟨hLt, hMark⟩ := mem_marked.mp (h.marked v hMem)
    exact mem_marked.mpr ⟨hLt, hGrows v hMark⟩

theorem head_append (h : Stacked g root s vs) (idx : Nat) : (vs ++ [idx]).head? = some root := by
  rw [List.head?_append, h.head]
  rfl

theorem chain_append (h : Stacked g root s vs)
    (hEdge : ∀ u, vs.getLast? = some u → g.Edge u idx) : (vs ++ [idx]).IsChain g.Edge := by
  rw [List.isChain_append]
  refine ⟨h.chain, List.isChain_singleton idx, ?_⟩
  intro u hLast v hHead
  obtain rfl : v = idx := by simpa using hHead.symm
  exact hEdge u hLast

/-- The path with a marked vertex on top. -/
theorem walk (h : Stacked g root t.search vs)
    (hEdge : ∀ u, vs.getLast? = some u → g.Edge u idx) :
    g.WalkFrom root (t.push idx).search.stack := by
  refine ⟨vs ++ [idx], ?_, h.head_append idx, h.chain_append hEdge, ?_⟩
  · rw [stack_push, h.stack, List.map_append]
    rfl
  · rw [List.dropLast_concat]
    exact h.nodup

/-- The stack with a vertex that is marked only now. -/
theorem expand (es : List Event) (h : Stacked g root s vs)
    (hEdge : ∀ u, vs.getLast? = some u → g.Edge u idx) (hLt : idx < g.vertexNum)
    (hNew : s.visited idx ≠ 1) :
    Stacked g root (Traced.push ⟨s.mark idx, es⟩ idx).search (vs ++ [idx]) where
  stack := by
    rw [stack_push, List.map_append]
    exact congrArg (· ++ [(idx : Int)]) h.stack
  head := h.head_append idx
  chain := h.chain_append hEdge
  nodup := by
    rw [List.nodup_append]
    refine ⟨h.nodup, List.nodup_singleton idx, ?_⟩
    rintro v hMem w hMem' rfl
    obtain rfl : v = idx := by simpa using hMem'
    exact hNew (mem_marked.mp (h.marked v hMem)).2
  marked v hMem := by
    refine mem_marked.mpr ?_
    rcases List.mem_append.mp hMem with hOld | hTop
    · obtain ⟨hLt', hMark⟩ := mem_marked.mp (h.marked v hOld)
      exact ⟨hLt', mark_visited.mpr (.inr hMark)⟩
    · obtain rfl : v = idx := by simpa using hTop
      exact ⟨hLt, mark_visited.mpr (.inl rfl)⟩

end Stacked

/-! ## `DFS` -/

/-- One round of the loop in `DFS`. -/
def tracedRound (g : Digraph) (fuel : Nat) (t : Traced) (i : Nat) : Option Traced := do
  let t ← g.dfsTraced fuel i t
  some t.pop

theorem dfsTraced_expands {fuel : Nat} (hTarget : ∀ p ∈ (g.vertexList idx).next, g.IsVertex p)
    (hNew : t.search.visited idx ≠ 1) :
    g.dfsTraced (fuel + 1) idx t = (g.adj idx).foldlM (g.tracedRound fuel)
      (Traced.push ⟨t.search.mark idx, t.log ++ [.expand idx]⟩ idx) := by
  rw [dfsTraced, if_neg hNew]
  exact foldlM_targets hTarget (g.tracedRound fuel) _

/-- A piece of the search: the traced one runs through, it is the search itself, and
what it logs is disciplined. -/
def Runs (g : Digraph) (root : Nat) (t : Traced) (traced : Option Traced)
    (plain : Option Search) (stack : List Int) : Prop :=
  ∃ t' es, traced = some t' ∧ plain = some t'.search ∧ t'.log = t.log ++ es ∧
    Disciplined g root t.search t'.search es ∧ t'.search.stack = stack

/-- `DFS` at a vertex that the path may go on to pushes it, whether it reports or
expands it. -/
def DfsRuns (g : Digraph) (root fuel : Nat) : Prop :=
  ∀ (idx : Nat) (t : Traced) (vs : List Nat), Stacked g root t.search vs → idx < g.vertexNum →
    (∀ u, vs.getLast? = some u → g.Edge u idx) →
    g.vertexNum < (g.marked t.search).card + fuel →
    Runs g root t (g.dfsTraced fuel idx t) (g.dfs fuel idx t.search)
      (t.search.stack ++ [(idx : Int)])

theorem marked_subset (hGrows : ∀ v, s.visited v = 1 → s'.visited v = 1) :
    g.marked s ⊆ g.marked s' := by
  intro v hMem
  obtain ⟨hLt, hMark⟩ := mem_marked.mp hMem
  exact mem_marked.mpr ⟨hLt, hGrows v hMark⟩

/-- The report at a marked vertex. -/
theorem dfs_reports {fuel : Nat} (h : Stacked g root t.search vs) (hLt : idx < g.vertexNum)
    (hEdge : ∀ u, vs.getLast? = some u → g.Edge u idx) (hOld : t.search.visited idx = 1) :
    Runs g root t (g.dfsTraced (fuel + 1) idx t) (g.dfs (fuel + 1) idx t.search)
      (t.search.stack ++ [(idx : Int)]) := by
  have hStack := stack_push t idx
  have hRange : PathInRange (t.push idx).search := by
    refine pathInRange_of_stack (g := g) (vs ++ [idx]) ?_ ?_
    · rw [hStack, h.stack, List.map_append]
      rfl
    · intro v hMem
      rcases List.mem_append.mp hMem with hIn | hTop
      · exact h.lt v hIn
      · obtain rfl : v = idx := by simpa using hTop
        exact hLt
  obtain ⟨line, hLine⟩ := printDeadlock_returns (g := g) (Nat.succ_pos t.search.k) hRange
  have hPush : t.search.push idx = some (t.push idx).search :=
    push_eq_some.mpr ⟨h.k_le_MAX, rfl⟩
  refine ⟨⟨{ (t.push idx).search with
        deadlock := 1
        printed := (t.push idx).search.printed ++ [line] },
      (t.push idx).log ++ [.print (t.push idx).search.stack]⟩,
    [.write t.search.k, .setK (t.search.k + 1), .print (t.push idx).search.stack],
    ?_, ?_, ?_, ?_, hStack⟩
  · rw [dfsTraced, if_pos hOld]
    simp only [hLine, Option.bind_eq_bind, Option.bind_some]
  · rw [dfs_marked hOld, hPush, Option.bind_some, hLine, Option.bind_some]
  · show t.log ++ _ ++ _ = _
    rw [List.append_assoc]
    rfl
  · refine disciplined_of_quiet ?_ rfl rfl
    intro e hMem
    simp only [List.mem_cons, List.not_mem_nil, or_false] at hMem
    rcases hMem with rfl | rfl | rfl
    · exact h.k_le_MAX
    · exact ⟨Nat.le_add_left 1 _, Nat.succ_le_succ h.k_le_vertexNum⟩
    · exact h.walk hEdge

/-- The marking and the push of a vertex that is expanded. -/
theorem expand_disciplined (h : Stacked g root s vs) (hLt : idx < g.vertexNum)
    (hNew : s.visited idx ≠ 1) (es : List Event) :
    Disciplined g root s (Traced.push ⟨s.mark idx, es⟩ idx).search
      [.expand idx, .write s.k, .setK (s.k + 1)] where
  ok e hMem := by
    simp only [List.mem_cons, List.not_mem_nil, or_false] at hMem
    rcases hMem with rfl | rfl | rfl
    · exact hLt
    · exact h.k_le_MAX
    · exact ⟨Nat.le_add_left 1 _, Nat.succ_le_succ h.k_le_vertexNum⟩
  once := List.nodup_singleton idx
  fresh v hMem := by
    obtain rfl : v = idx := by simpa [expanded] using hMem
    exact ⟨hNew, mark_visited.mpr (.inl rfl)⟩
  grows v hOld := mark_visited.mpr (.inr hOld)

/-- The loop of `DFS`: every round pushes a vertex and takes it off again, so the
stack is the same for the next one. -/
theorem loop_runs {fuel v : Nat} (hDfs : DfsRuns g root fuel) (js : List Nat)
    (hEdges : ∀ j ∈ js, g.Edge v j) (h : Stacked g root t.search vs)
    (hTop : vs.getLast? = some v) (hFuel : g.vertexNum < (g.marked t.search).card + fuel) :
    Runs g root t (js.foldlM (g.tracedRound fuel) t) (js.foldlM (g.dfsRound fuel) t.search)
      t.search.stack := by
  induction js generalizing t with
  | nil =>
      refine ⟨t, [], rfl, rfl, (List.append_nil _).symm, ?_, rfl⟩
      exact disciplined_of_quiet (by simp) rfl rfl
  | cons j js ih =>
      have hEdge : g.Edge v j := hEdges j List.mem_cons_self
      obtain ⟨t₁, es₁, hTraced, hPlain, hLog, hFirst, hStack⟩ :=
        hDfs j t vs h hEdge.lt_right (by rw [hTop]; rintro u ⟨⟩; exact hEdge) hFuel
      have hK : t₁.search.k = t.search.k + 1 := by
        have hLength := congrArg List.length hStack
        rwa [stack_length, List.length_append, stack_length, List.length_singleton] at hLength
      have hPop : t₁.pop.search.stack = t.search.stack := by
        rw [stack_pop, hStack, List.dropLast_concat]
      have hQuiet : Disciplined g root t₁.search t₁.pop.search [.setK (t₁.search.k - 1)] := by
        refine disciplined_of_quiet ?_ rfl rfl
        intro e hMem
        obtain rfl := List.mem_singleton.mp hMem
        have hPos := h.k_pos
        have hLe := h.k_le_vertexNum
        constructor <;> omega
      have hRound := hFirst.append hQuiet
      have hMore := Finset.card_le_card (marked_subset (g := g) hRound.grows)
      obtain ⟨t', es, hTraced', hPlain', hLog', hRest, hStack'⟩ :=
        ih (t := t₁.pop) (fun i hMem => hEdges i (List.mem_cons_of_mem j hMem))
          (h.keep hPop hRound.grows) (by omega)
      refine ⟨t', es₁ ++ [.setK (t₁.search.k - 1)] ++ es, ?_, ?_, ?_, hRound.append hRest,
        hStack'.trans hPop⟩
      · rw [List.foldlM_cons, tracedRound, hTraced]
        exact hTraced'
      · rw [List.foldlM_cons, dfsRound, hPlain]
        exact hPlain'
      · rw [hLog']
        show t₁.log ++ _ ++ _ = _
        rw [hLog, List.append_assoc, List.append_assoc, List.append_assoc]

/-- **`DFS`**: the induction is on the bound of the depth, which is larger than the
number of unmarked vertices. -/
theorem dfs_runs (hTarget : ∀ i < g.vertexNum, ∀ p ∈ (g.vertexList i).next, g.IsVertex p)
    (fuel : Nat) : DfsRuns g root fuel := by
  induction fuel with
  | zero =>
      intro idx t vs _ _ _ hFuel
      have hCard : (g.marked t.search).card ≤ g.vertexNum := marked_card_le
      omega
  | succ fuel ih =>
      intro idx t vs h hLt hEdge hFuel
      by_cases hOld : t.search.visited idx = 1
      · exact dfs_reports h hLt hEdge hOld
      · have hStart := expand_disciplined h hLt hOld (t.log ++ [.expand idx])
        have hStacked := h.expand (t.log ++ [.expand idx]) hEdge hLt hOld
        have hMore : (g.marked (t.search.mark idx)).card = (g.marked t.search).card + 1 := by
          rw [marked_mark hLt hOld, Finset.card_insert_of_notMem]
          rw [mem_marked]
          exact fun hMem => hOld hMem.2
        set u := Traced.push ⟨t.search.mark idx, t.log ++ [.expand idx]⟩ idx with hU
        have hSame : g.marked u.search = g.marked (t.search.mark idx) := rfl
        obtain ⟨t', es, hTraced, hPlain, hLog, hRest, hStack⟩ :=
          loop_runs (v := idx) ih (g.adj idx) (fun j hMem => ⟨hLt, hMem⟩) hStacked
            List.getLast?_concat (by rw [hSame]; omega)
        refine ⟨t', _, ?_, ?_, ?_, hStart.append hRest, ?_⟩
        · rw [dfsTraced_expands (hTarget idx hLt) hOld]
          exact hTraced
        · have hPush : (t.search.mark idx).push idx = some u.search :=
            push_eq_some.mpr ⟨h.k_le_MAX, rfl⟩
          rw [dfs_expands (hTarget idx hLt) hOld, hPush]
          exact hPlain
        · rw [hLog]
          show t.log ++ [.expand idx] ++ [.write t.search.k, .setK (t.search.k + 1)] ++ es = _
          simp only [List.append_assoc]
          rfl
        · rw [hStack, hU, stack_push]
          rfl

/-! ## `search_for_cycle` -/

/-- What the search for one neighbour of the root logs. -/
structure RoundOk (g : Digraph) (root : Nat) (round : List Event) : Prop where
  ok : ∀ e ∈ round, g.EventOk root e
  once : (expanded round).Nodup

/-- The root is marked and at the bottom of the path. -/
structure RootAt (s : Search) (root : Nat) : Prop where
  marked : s.visited root = 1
  path : s.path 0 = root

/-- One round of the loop in `search_for_cycle`. -/
def tracedRootRound (g : Digraph) (idx : Nat) (r : Search × RootLog) (i : Nat) :
    Option (Search × RootLog) := do
  let t ← g.dfsTraced (g.vertexNum + 1) i (g.resetTraced idx r.1)
  some (t.search, { r.2 with rounds := r.2.rounds ++ [t.log] })

theorem resetTraced_stacked (h : RootAt s root) (hLt : root < g.vertexNum) :
    Stacked g root (g.resetTraced root s).search [root] where
  stack := by
    show [(g.resetFor root s).path 0] = _
    simp [resetFor, h.path]
  head := rfl
  chain := List.isChain_singleton root
  nodup := List.nodup_singleton root
  marked v hMem := by
    obtain rfl := List.mem_singleton.mp hMem
    exact mem_marked.mpr ⟨hLt, (resetFor_visited h.marked hLt).mpr rfl⟩

theorem resetTraced_disciplined (g : Digraph) (root : Nat) (s : Search) :
    Disciplined g root (g.resetTraced root s).search (g.resetTraced root s).search
      (g.resetTraced root s).log := by
  refine disciplined_of_quiet ?_ rfl rfl
  intro e hMem
  rcases List.mem_append.mp hMem with hWrite | hSet
  · obtain ⟨i, hRange, rfl⟩ := List.mem_map.mp hWrite
    exact List.mem_range.mp hRange
  · obtain rfl := List.mem_singleton.mp hSet
    exact ⟨Nat.le_refl 1, Nat.le_add_left 1 _⟩

/-- The search for one neighbour. -/
theorem rootRound_runs (hTarget : ∀ i < g.vertexNum, ∀ p ∈ (g.vertexList i).next, g.IsVertex p)
    {i : Nat} (hEdge : g.Edge root i) (h : RootAt s root) (log : RootLog) :
    ∃ s' round, g.tracedRootRound root (s, log) i =
        some (s', { log with rounds := log.rounds ++ [round] }) ∧
      g.rootRound root s i = some s' ∧ RoundOk g root round ∧ RootAt s' root := by
  have hStacked := resetTraced_stacked h hEdge.1
  have hMarked : (g.marked (g.resetTraced root s).search).card = 1 := by
    rw [resetTraced, marked_resetFor hEdge.1 h.marked, Finset.card_singleton]
  obtain ⟨t', es, hTraced, hPlain, hLog, hDisciplined, hStack⟩ :=
    dfs_runs hTarget (g.vertexNum + 1) i (g.resetTraced root s) [root] hStacked hEdge.lt_right
      (by rintro u ⟨⟩; exact hEdge) (by omega)
  have hRound := (resetTraced_disciplined g root s).append hDisciplined
  refine ⟨t'.search, t'.log, ?_, hPlain, ?_, ?_⟩
  · rw [tracedRootRound, hTraced]
    rfl
  · rw [hLog]
    exact ⟨hRound.ok, hRound.once⟩
  · refine ⟨hDisciplined.grows root ((resetFor_visited h.marked hEdge.1).mpr rfl), ?_⟩
    have hTwo : t'.search.stack = [(root : Int), (i : Int)] := by
      rw [hStack, hStacked.stack]
      rfl
    have hK : t'.search.k = 2 := by
      rw [← stack_length, hTwo]
      rfl
    rw [Search.stack, hK] at hTwo
    exact (List.cons.inj hTwo).1

theorem rootLoop_runs (hTarget : ∀ i < g.vertexNum, ∀ p ∈ (g.vertexList i).next, g.IsVertex p)
    {js : List Nat} (hEdges : ∀ j ∈ js, g.Edge root j) (h : RootAt s root) (log : RootLog) :
    ∃ s' rounds, js.foldlM (g.tracedRootRound root) (s, log) =
        some (s', { log with rounds := log.rounds ++ rounds }) ∧
      js.foldlM (g.rootRound root) s = some s' ∧ rounds.length = js.length ∧
      ∀ round ∈ rounds, RoundOk g root round := by
  induction js generalizing s log with
  | nil => exact ⟨s, [], by simp, rfl, rfl, by simp⟩
  | cons j js ih =>
      obtain ⟨s₁, round, hTraced, hPlain, hOk, hAt⟩ :=
        rootRound_runs hTarget (hEdges j List.mem_cons_self) h log
      obtain ⟨s', rounds, hTraced', hPlain', hLength, hAll⟩ :=
        ih (fun i hMem => hEdges i (List.mem_cons_of_mem j hMem)) hAt
          { log with rounds := log.rounds ++ [round] }
      refine ⟨s', round :: rounds, ?_, ?_, by simp [hLength], ?_⟩
      · rw [List.foldlM_cons, hTraced, Option.bind_eq_bind, Option.bind_some, hTraced']
        simp
      · rw [List.foldlM_cons, hPlain, Option.bind_eq_bind, Option.bind_some, hPlain']
      · exact List.forall_mem_cons.mpr ⟨hOk, hAll⟩

/-- What `search_for_cycle` logs: the push of the root, for which `k` is 0, and a
round for each neighbour. -/
structure RootLogOk (g : Digraph) (log : RootLog) : Prop where
  root : log.root < g.vertexNum
  start : log.start = [.setK 0, .write 0, .setK 1]
  neighbours : log.rounds.length = (g.adj log.root).length
  rounds : ∀ round ∈ log.rounds, RoundOk g log.root round

theorem searchForCycle_runs
    (hTarget : ∀ i < g.vertexNum, ∀ p ∈ (g.vertexList i).next, g.IsVertex p)
    (hLt : idx < g.vertexNum) (s : Search) :
    ∃ s' log, g.searchForCycleTraced s idx = some (s', log) ∧ g.searchForCycle s idx = some s' ∧
      RootLogOk g log := by
  let start := Traced.push ⟨{ s.mark idx with k := 0 }, [.setK 0]⟩ idx
  have hAt : RootAt start.search idx := by
    refine ⟨mark_visited.mpr (.inl rfl), ?_⟩
    exact Function.update_self 0 (idx : Int) s.path
  obtain ⟨s', rounds, hTraced, hPlain, hLength, hOk⟩ :=
    rootLoop_runs hTarget (fun j hMem => ⟨hLt, hMem⟩) hAt ⟨idx, start.log, []⟩
  refine ⟨s', ⟨idx, start.log, rounds⟩, ?_, ?_, hLt, rfl, hLength, hOk⟩
  · rw [searchForCycleTraced]
    exact (foldlM_targets (hTarget idx hLt) (g.tracedRootRound idx) _).trans hTraced
  · rw [searchForCycle_rounds (hTarget idx hLt)]
    exact hPlain

/-! ## `check_dead_lock` -/

/-- One round of the loop in `check_dead_lock`. -/
def tracedCheckRound (g : Digraph) (r : Search × List RootLog) (i : Nat) :
    Option (Search × List RootLog) :=
  if r.1.deadlock = 1 then some r
  else do
    let (s, log) ← g.searchForCycleTraced r.1 i
    some (s, r.2 ++ [log])

theorem checkLoop_runs
    (hTarget : ∀ i < g.vertexNum, ∀ p ∈ (g.vertexList i).next, g.IsVertex p) {roots : List Nat}
    (hLt : ∀ i ∈ roots, i < g.vertexNum) (s : Search) (logs : List RootLog) :
    ∃ s' logs', roots.foldlM g.tracedCheckRound (s, logs) = some (s', logs ++ logs') ∧
      roots.foldlM g.checkRound s = some s' ∧ ∀ log ∈ logs', RootLogOk g log := by
  induction roots generalizing s logs with
  | nil => exact ⟨s, [], by simp, rfl, by simp⟩
  | cons i roots ih =>
      have hRest : ∀ j ∈ roots, j < g.vertexNum := fun j hMem => hLt j (List.mem_cons_of_mem i hMem)
      by_cases hSet : s.deadlock = 1
      · obtain ⟨s', logs', hTraced, hPlain, hOk⟩ := ih hRest s logs
        refine ⟨s', logs', ?_, ?_, hOk⟩
        · rw [List.foldlM_cons, tracedCheckRound, if_pos hSet]
          exact hTraced
        · rw [List.foldlM_cons, checkRound, if_pos hSet]
          exact hPlain
      · obtain ⟨s₁, log, hFirst, hFirst', hLog⟩ :=
          searchForCycle_runs hTarget (hLt i List.mem_cons_self) s
        obtain ⟨s', logs', hTraced, hPlain, hOk⟩ := ih hRest s₁ (logs ++ [log])
        refine ⟨s', log :: logs', ?_, ?_, List.forall_mem_cons.mpr ⟨hLog, hOk⟩⟩
        · rw [List.foldlM_cons, tracedCheckRound, if_neg hSet, hFirst]
          simpa using hTraced
        · rw [List.foldlM_cons, checkRound, if_neg hSet, hFirst']
          exact hPlain

/-- **The stack discipline**: every call of `check_dead_lock` returns, whatever the
search was left with by the one before, and what it logs is disciplined.  Dropping the
log gives the search of the other modules. -/
theorem stack_discipline (g : Digraph)
    (hTarget : ∀ i < g.vertexNum, ∀ p ∈ (g.vertexList i).next, g.IsVertex p) (s : Search) :
    ∃ s' logs, g.checkDeadLockTraced s = some (s', logs) ∧ g.checkDeadLock s = some s' ∧
      ∀ log ∈ logs, RootLogOk g log := by
  obtain ⟨s', logs, hTraced, hPlain, hOk⟩ :=
    checkLoop_runs hTarget (fun i hMem => List.mem_range.mp hMem) { s with deadlock := 0 } []
  exact ⟨s', logs, hTraced, hPlain, hOk⟩

/-- Two vertices, with parallel edges and a self-loop. -/
def knot : Digraph where
  vertexList i :=
    if i = 0 then ⟨⟨7, .process⟩, [⟨8, .process⟩, ⟨8, .process⟩, ⟨7, .process⟩]⟩
    else ⟨⟨8, .process⟩, [⟨7, .process⟩]⟩
  vertexNum := 2
  vertexNum_le := by decide

/-- Memory as `malloc` returned it. -/
def rawSearch : Search where
  path _ := 77
  visited _ := 77
  k := 77
  deadlock := 77
  printed := []

theorem stack_discipline_knot :
    ∃ s' logs, knot.checkDeadLockTraced rawSearch = some (s', logs) ∧
      knot.checkDeadLock rawSearch = some s' ∧ ∀ log ∈ logs, RootLogOk knot log :=
  stack_discipline knot (by decide) rawSearch

/-- One vertex without edges. -/
def lone : Digraph where
  vertexList _ := ⟨⟨7, .process⟩, []⟩
  vertexNum := 1
  vertexNum_le := by decide

/-- `search_for_cycle` sets `k` to 0 for the push of the root. -/
theorem k_zero_before_root :
    (∀ i < lone.vertexNum, ∀ p ∈ (lone.vertexList i).next, lone.IsVertex p) ∧
      ∃ s' log, lone.checkDeadLockTraced rawSearch = some (s', [log]) ∧
        .setK 0 ∈ log.start := by
  refine ⟨by decide, _, ⟨0, [.setK 0, .write 0, .setK 1], []⟩, rfl, ?_⟩
  exact List.mem_cons_self

end Digraph

end DeadlockCheck
end LinuxCppLearn
