import Mathlib.Data.List.Chain
import LinuxCppLearn.DeadlockCheck.ConcurrentCheck

/-!
# When the edges of a reported cycle were there together

The checker keeps a path and the hooks change the graph under it.  A path is the
more suspicious the more its edges are a memory of the checker: an edge may be
gone by the time the next one is made, and the report combines the two.

* `Digraph.edge_iff`, `lockBefore_edge`, `lockAfter_edge` — edges by index, and
  what the hooks do to them.
* `Steady` — an edge is added only while the path of the checker is there, and
  the checker follows no freed node.
* `MomentInv` — under it some graph of this check has the whole path, and at
  least the edges of the present one.
* `reports_at_one_moment_if_steady` — the law.
-/

namespace LinuxCppLearn
namespace DeadlockCheck

open StepSystem TaskGraph

namespace Digraph

variable {g g' : Digraph} {i j : Nat}

/-- A vertex keeps its index. -/
theorem Extends.index_lt (h : Extends g g') (hWf' : g'.WellFormed) (hLt : i < g'.vertexNum)
    (hOld : g.IsVertex (g'.vertexList i).pair) : i < g.vertexNum := by
  obtain ⟨j, hj, hPair⟩ := isVertex_iff.mp hOld
  have hNum := h.num
  have hSame : (g'.vertexList j).pair = (g'.vertexList i).pair := by
    rw [h.pair j hj, hPair]
  rw [← hWf'.distinct j (by omega) i hLt hSame]
  exact hj

theorem Extends.edge_mono (h : Extends g g') (hWf : g.WellFormed) (hWf' : g'.WellFormed)
    (hSucc : ∀ q, g.succ q ⊆ g'.succ q) (hEdge : g.Edge i j) : g'.Edge i j := by
  have hNum := h.num
  obtain ⟨hi, hj, hMem⟩ := hWf.edge_iff.mp hEdge
  refine hWf'.edge_iff.mpr ⟨by omega, by omega, ?_⟩
  rw [h.pair i hi, h.pair j hj]
  exact hSucc _ hMem

theorem Extends.edge_of_edge (h : Extends g g') (hWf : g.WellFormed) (hWf' : g'.WellFormed)
    (hSucc : ∀ q, g'.succ q ⊆ g.succ q) (hEdge : g'.Edge i j) : g.Edge i j := by
  obtain ⟨hi, hj, hMem⟩ := hWf'.edge_iff.mp hEdge
  have hMem' := hSucc _ hMem
  -- both ends were vertices already: one has an edge, the other is a target
  have hFrom : g.IsVertex (g'.vertexList i).pair := by
    by_contra hNot
    rw [succ_of_not_isVertex hNot] at hMem'
    simp at hMem'
  have hi' := h.index_lt hWf' hi hFrom
  have hj' := h.index_lt hWf' hj (hWf.isVertex_of_mem_succ hMem')
  rw [h.pair i hi', h.pair j hj'] at hMem'
  exact hWf.edge_iff.mpr ⟨hi', hj', hMem'⟩

/-- The node a loop of `DFS` has found leads to an edge. -/
theorem edge_of_mem_next {target : Pair} (hLt : i < g.vertexNum)
    (hMem : target ∈ (g.vertexList i).next) (hFound : g.searchVertex target = some j) :
    g.Edge i j :=
  ⟨hLt, List.mem_filterMap.mpr ⟨target, hMem, hFound⟩⟩

instance (g : Digraph) (i j : Nat) : Decidable (g.Edge i j) :=
  inferInstanceAs (Decidable (_ ∧ _))

end Digraph

namespace TaskGraph

variable {tg tg' : TaskGraph} {thread lock i j : Nat}

/-- `lock_before` finds an owner and no edge to it. -/
def AddsEdge (tg : TaskGraph) (thread lock : Nat) : Prop :=
  ∃ slot, tg.locks.slot? lock = some slot ∧ ¬ tg.Asks thread slot.thId

/-- Recording a request removes no edge, and adds one only if `AddsEdge`. -/
theorem lockBefore_edge (hWf : tg.WellFormed) (h : tg.lockBefore thread lock = some tg') :
    tg'.WellFormed ∧ (∀ i j, tg.graph.Edge i j → tg'.graph.Edge i j) ∧
      (¬ tg.AddsEdge thread lock → ∀ i j, tg'.graph.Edge i j → tg.graph.Edge i j) := by
  have hExt := lockBefore_extends h
  rcases lockBefore_cases hWf h with ⟨-, rfl⟩ | ⟨slot, hSlot, hRecord⟩
  · exact ⟨hWf, fun _ _ hEdge => hEdge, fun _ _ _ hEdge => hEdge⟩
  · refine ⟨hRecord.wellFormed, fun i j => ?_, fun hNot i j => ?_⟩
    · refine hExt.edge_mono hWf.graph hRecord.wellFormed.graph fun q => ?_
      by_cases hOld : tg.Asks thread slot.thId
      · rw [hRecord.edge_old hOld]
        exact fun _ hMem => hMem
      · rw [hRecord.edge_new hOld]
        split
        · exact List.subset_append_left _ _
        · exact fun _ hMem => hMem
    · refine hExt.edge_of_edge hWf.graph hRecord.wellFormed.graph fun q => ?_
      have hOld : tg.Asks thread slot.thId := by
        by_contra hNew
        exact hNot ⟨slot, hSlot, hNew⟩
      rw [hRecord.edge_old hOld]
      exact fun _ hMem => hMem

/-- `lock_after` adds no edge. -/
theorem lockAfter_edge (hWf : tg.WellFormed) (hLock : lock ≠ 0)
    (h : tg.lockAfter thread lock = some tg') :
    tg'.WellFormed ∧ ∀ i j, tg'.graph.Edge i j → tg.graph.Edge i j := by
  have hExt := lockAfter_extends h
  rcases lockAfter_cases hWf hLock h with ⟨-, hTake⟩ | ⟨slot, -, hChange⟩
  · refine ⟨hTake.wellFormed, fun i j hEdge => ?_⟩
    rwa [hTake.graph] at hEdge
  · refine ⟨hChange.wellFormed, fun i j => ?_⟩
    refine hExt.edge_of_edge hWf.graph hChange.wellFormed.graph fun q => ?_
    rw [hChange.edge]
    split
    · exact List.eraseP_subset
    · exact fun _ hMem => hMem

theorem unlockAfter_edge (hWf : tg.WellFormed) (hLock : lock ≠ 0)
    (h : tg.unlockAfter thread lock = some tg') :
    tg'.WellFormed ∧ ∀ i j, tg'.graph.Edge i j → tg.graph.Edge i j := by
  refine ⟨?_, fun i j hEdge => by rwa [unlockAfter_graph h] at hEdge⟩
  obtain ⟨slot, -, ⟨-, rfl⟩ | ⟨-, hClear⟩⟩ := unlockAfter_cases hWf hLock h
  · exact hWf
  · exact hClear.wellFormed

end TaskGraph

namespace ConcurrentCheck

/-! ## Pointers into a list -/

theorem NodePtr.first_eq_node {list : List Pair} {target : Pair}
    (h : NodePtr.first list = .node target) : target ∈ list := by
  cases list with
  | nil => simp [NodePtr.first] at h
  | cons p list =>
      simp only [NodePtr.first, NodePtr.node.injEq] at h
      simp [h]

/-- Reading `next` leads to a node of the list. -/
theorem NodePtr.next_mem {list : List Pair} {ptr : NodePtr} {target : Pair}
    (h : ptr.next list = some (.node target)) : target ∈ list := by
  cases ptr with
  | head => exact NodePtr.first_eq_node (Option.some.inj h)
  | node p =>
      have hMem := NodePtr.first_eq_node (Option.some.inj h)
      exact List.dropWhile_subset _ (List.mem_of_mem_tail hMem)
  | null => simp [NodePtr.next] at h
  | dangling => simp [NodePtr.next] at h

/-- A pointer that does not dangle points into the list. -/
theorem NodePtr.after_mem {list : List Pair} {ptr : NodePtr} {target : Pair}
    (h : ptr.after list = .node target) : target ∈ list := by
  cases ptr with
  | node p =>
      simp only [NodePtr.after] at h
      split at h
      · rename_i hMem
        exact NodePtr.node.inj h ▸ hMem
      · simp at h
  | head => simp [NodePtr.after] at h
  | null => simp [NodePtr.after] at h
  | dangling => simp [NodePtr.after] at h

@[simp] theorem Frame.after_idx (g : Digraph) (f : Frame) : (f.after g).idx = f.idx := rfl

/-! ## The path of the checker -/

def Checker.stack : Checker → List Frame
  | .search _ top below => top :: below
  | _ => []

/-- The vertices of the calls, from the root on. -/
def Checker.path (c : Checker) : List Nat :=
  (c.stack.map Frame.idx).reverse

@[simp] theorem Checker.after_path (g : Digraph) (c : Checker) :
    (c.after g).path = c.path := by
  cases c with
  | search i top below =>
      have hIdx : Frame.idx ∘ Frame.after g = Frame.idx := rfl
      simp [Checker.after, Checker.path, Checker.stack, hIdx]
  | sleep => rfl
  | outer i => rfl

@[simp] theorem Checker.after_eq_sleep {g : Digraph} {c : Checker} :
    c.after g = .sleep ↔ c = .sleep := by
  cases c <;> simp [Checker.after]

/-- The loop is between its test and its call of `DFS`. -/
def LoopPc.InBody : LoopPc → Prop
  | .argument | .target _ => True
  | _ => False

/-- The stack of calls, `path` and `k` belong together. -/
structure Walk (tg : TaskGraph) (top : Frame) (below : List Frame) : Prop where
  range : ∀ f ∈ top :: below, f.idx < tg.graph.vertexNum
  waiting : ∀ f ∈ below, f.pc = .advance
  target : ∀ p, top.pc = .target (.node p) → p ∈ (tg.graph.vertexList top.idx).next
  path : (List.range (below.length + 1)).map (fun n => (tg.search.path n).toNat) =
    ((top :: below).map Frame.idx).reverse
  depth : below ≠ [] ∨ top.pc.InBody → tg.search.k = below.length + 1

section
variable {tg tg' : TaskGraph} {top top' : Frame} {below : List Frame}

/-- The loop goes on without a call. -/
theorem Walk.stay (h : Walk tg top below) (hIdx : top'.idx = top.idx)
    (hTarget : ∀ p, top'.pc = .target (.node p) → p ∈ (tg.graph.vertexList top.idx).next)
    (hBody : top'.pc.InBody → below ≠ [] ∨ top.pc.InBody) : Walk tg top' below where
  range f hMem := by
    rcases List.mem_cons.mp hMem with rfl | hMem
    · rw [hIdx]
      exact h.range top List.mem_cons_self
    · exact h.range f (List.mem_cons_of_mem _ hMem)
  waiting := h.waiting
  target p hPc := by
    rw [hIdx]
    exact hTarget p hPc
  path := by
    rw [h.path]
    simp [hIdx]
  depth hDeep := h.depth (hDeep.elim .inl hBody)

/-- `search_for_cycle` starts a round: everything behind the root is reset. -/
theorem Walk.reset (h : Walk tg top []) (i : Nat) :
    Walk { tg with search := tg.graph.resetFor i tg.search } { top with pc := .argument } [] where
  range f hMem := by
    rw [List.mem_singleton.mp hMem]
    exact h.range top List.mem_cons_self
  waiting f hMem := by simp at hMem
  target p hPc := by simp at hPc
  path := by simpa [Digraph.resetFor] using h.path
  depth _ := rfl

/-- `path` behind a push at `path[below.length + 1]`. -/
theorem Walk.path_update (h : Walk tg top below) (j : Nat) :
    (List.range (below.length + 2)).map
        (fun n => (Function.update tg.search.path (below.length + 1) (j : Int) n).toNat) =
      ((top :: below).map Frame.idx).reverse ++ [j] := by
  have hOld : (List.range (below.length + 1)).map
      (fun n => (Function.update tg.search.path (below.length + 1) (j : Int) n).toNat) =
        (List.range (below.length + 1)).map fun n => (tg.search.path n).toNat := by
    refine List.map_congr_left fun n hMem => ?_
    rw [List.mem_range] at hMem
    rw [Function.update_of_ne (by omega)]
  rw [List.range_succ, List.map_append, hOld, h.path]
  simp

/-- `DFS(j)` marks its vertex and starts its loop. -/
theorem Walk.push (h : Walk tg top below) {j : Nat} (hBody : top.pc.InBody)
    (hLt : j < tg.graph.vertexNum) {search : Search}
    (hPush : (tg.search.mark j).push j = some search) :
    Walk { tg with search := search } (.enter j) ({ top with pc := .advance } :: below) := by
  obtain ⟨-, rfl⟩ := Digraph.push_eq_some.mp hPush
  have hK : tg.search.k = below.length + 1 := h.depth (.inr hBody)
  refine ⟨?_, ?_, fun p hPc => by simp [Frame.enter] at hPc, ?_, fun _ => ?_⟩
  · intro f hMem
    rcases List.mem_cons.mp hMem with rfl | hMem
    · exact hLt
    · rcases List.mem_cons.mp hMem with rfl | hMem
      · exact h.range top List.mem_cons_self
      · exact h.range f (List.mem_cons_of_mem _ hMem)
  · intro f hMem
    rcases List.mem_cons.mp hMem with rfl | hMem
    · rfl
    · exact h.waiting f hMem
  · simpa [Search.mark, hK, Frame.enter] using h.path_update j
  · simp [Search.mark, hK]

/-- A frame that has come back to its caller takes its entry of `path` along. -/
theorem Walk.pop {caller : Frame} (h : Walk tg top (caller :: below)) :
    Walk { tg with search :=
        { tg.search with k := if below = [] then tg.search.k else tg.search.k - 1 } }
      caller below := by
  have hPc : caller.pc = .advance := h.waiting caller List.mem_cons_self
  refine ⟨fun f hMem => h.range f (List.mem_cons_of_mem _ hMem),
    fun f hMem => h.waiting f (List.mem_cons_of_mem _ hMem), ?_, ?_, ?_⟩
  · intro p hTarget
    simp [hPc] at hTarget
  · have hPath := h.path
    have hSplit : ((top :: caller :: below).map Frame.idx).reverse =
        ((caller :: below).map Frame.idx).reverse ++ [top.idx] := by simp
    rw [List.length_cons, List.range_succ, List.map_append, hSplit] at hPath
    exact (List.append_inj' hPath rfl).1
  · rintro (hDeep | hBody)
    · have hK : tg.search.k = (caller :: below).length + 1 := h.depth (.inl (by simp))
      simp only [hDeep, if_false, hK, List.length_cons]
      omega
    · simp [hPc, LoopPc.InBody] at hBody

/-- The path that `print_deadlock` finds when `DFS(j)` reports. -/
theorem Walk.pathList_push (h : Walk tg top below) {j : Nat} (hBody : top.pc.InBody)
    {search : Search} (hPush : tg.search.push j = some search) :
    search.k = below.length + 2 ∧
      pathList search = ((top :: below).map Frame.idx).reverse ++ [j] := by
  obtain ⟨-, rfl⟩ := Digraph.push_eq_some.mp hPush
  have hK : tg.search.k = below.length + 1 := h.depth (.inr hBody)
  constructor
  · simp [hK]
  · simpa [pathList, hK] using h.path_update j

/-- The report leaves the entry of `j` behind `path[k - 1]`. -/
theorem Walk.report (h : Walk tg top below) {j : Nat} (hBody : top.pc.InBody)
    {search : Search} (hPush : tg.search.push j = some search) {search' : Search}
    (hPath : search'.path = search.path)
    (hK' : search'.k = if below = [] then search.k else search.k - 1) :
    Walk { tg with search := search' } { top with pc := .advance } below := by
  have hK := (h.pathList_push hBody hPush).1
  obtain ⟨-, rfl⟩ := Digraph.push_eq_some.mp hPush
  have hDepth : tg.search.k = below.length + 1 := h.depth (.inr hBody)
  refine ⟨?_, h.waiting, fun p hPc => by simp at hPc, ?_, ?_⟩
  · intro f hMem
    rcases List.mem_cons.mp hMem with rfl | hMem
    · exact h.range top List.mem_cons_self
    · exact h.range f (List.mem_cons_of_mem _ hMem)
  · have hPath' := h.path
    rw [List.map_cons] at hPath' ⊢
    rw [← hPath']
    refine List.map_congr_left fun n hMem => ?_
    rw [List.mem_range] at hMem
    simp only [hPath]
    rw [Function.update_of_ne (by omega)]
  · rintro (hDeep | hBody')
    · simp only [hK', hDeep, if_false]
      omega
    · simp [LoopPc.InBody] at hBody'

/-- A hook moves no frame. -/
theorem Walk.hook (h : Walk tg top below) (hExt : Digraph.Extends tg.graph tg'.graph)
    (hSearch : tg'.search = tg.search) :
    Walk tg' (top.after tg'.graph) (below.map (Frame.after tg'.graph)) := by
  have hIdx : Frame.idx ∘ Frame.after tg'.graph = Frame.idx := rfl
  refine ⟨?_, ?_, ?_, ?_, ?_⟩
  · intro f hMem
    rw [← List.map_cons] at hMem
    obtain ⟨f', hMem', rfl⟩ := List.mem_map.mp hMem
    exact Nat.lt_of_lt_of_le (h.range f' hMem') hExt.num
  · intro f hMem
    obtain ⟨f', hMem', rfl⟩ := List.mem_map.mp hMem
    simp [Frame.after, h.waiting f' hMem']
  · intro p hPc
    simp only [Frame.after] at hPc
    split at hPc
    · exact NodePtr.after_mem (LoopPc.target.inj hPc)
    · rename_i hNot
      exact absurd hPc (hNot _)
  · simpa [hSearch, hIdx] using h.path
  · intro hDeep
    rw [hSearch, List.length_map]
    refine h.depth ?_
    rcases hDeep with hDeep | hBody
    · exact .inl (by simpa using hDeep)
    · right
      unfold LoopPc.InBody at hBody ⊢
      simp only [Frame.after] at hBody
      cases hPc : top.pc <;> simp [hPc] at hBody ⊢

/-- `search_for_cycle(i)` begins. -/
theorem Walk.start {i : Nat} (hLt : i < tg.graph.vertexNum) :
    Walk { tg with search :=
        { tg.search.mark i with path := Function.update tg.search.path 0 (i : Int), k := 1 } }
      (.enter i) [] where
  range f hMem := by
    rw [List.mem_singleton.mp hMem]
    exact hLt
  waiting f hMem := by simp at hMem
  target p hPc := by simp [Frame.enter] at hPc
  path := by simp [Frame.enter]
  depth _ := rfl

end

/-! ## The law -/

/-- The checker has a pointer it can read through. -/
def Checker.Readable : Checker → Prop
  | .search _ top _ =>
      match top.pc with
      | .target (.node _) => True
      | .target _ => False
      | _ => top.ver ≠ .null ∧ top.ver ≠ .dangling
  | _ => True

/-- An edge is added only while every edge on the path of the checker is in the
graph, and the checker follows neither null nor a freed node. -/
def Steady (s : State) : Action → Prop
  | .check => s.checker.Readable
  | .hook (.lockBefore thread lock) =>
      s.tg.AddsEdge thread lock → s.checker.path.IsChain s.tg.graph.Edge
  | .hook _ => True

/-- The edges of every reported cycle were in the graph together, at some moment
of the check. -/
def State.AtOneMoment (s : State) : Prop :=
  ∀ path ∈ s.reported, ∀ before v cycle, path = before ++ v :: (cycle ++ [v]) →
    ∃ g ∈ s.moments, (v :: (cycle ++ [v])).IsChain g.Edge

/-- A graph of this check that has the path, and whose edges are at least those
of the graph now. -/
def State.Seen (s : State) (path : List Nat) : Prop :=
  ∃ g ∈ s.moments, path.IsChain g.Edge ∧ ∀ i j, s.tg.graph.Edge i j → g.Edge i j

structure MomentInv (s : State) : Prop where
  wellFormed : s.tg.WellFormed
  seen : s.checker ≠ .sleep → s.Seen s.checker.path
  walk : ∀ i top below, s.checker = .search i top below → Walk s.tg top below
  reports : ∀ path ∈ s.reported, ∃ g ∈ s.moments, path.IsChain g.Edge
  undefined : s.undefined = false

theorem MomentInv.atOneMoment {s : State} (h : MomentInv s) : s.AtOneMoment := by
  intro path hMem before v cycle hPath
  obtain ⟨g, hMoment, hChain⟩ := h.reports path hMem
  rw [hPath] at hChain
  exact ⟨g, hMoment, hChain.right_of_append⟩

theorem momentInv_init {tg : TaskGraph} (h : Started tg) : MomentInv (init tg) where
  wellFormed := by
    constructor
    · constructor
      · intro i hLt
        simp [init, h.1] at hLt
      · intro i hLt
        simp [init, h.1] at hLt
    · intro i hLt
      simp [init, h.2] at hLt
  seen hAwake := absurd rfl hAwake
  walk i top below hSearch := by simp [init] at hSearch
  reports path hMem := by simp [init] at hMem
  undefined := rfl

/-- A path gets longer by an edge of the present graph. -/
theorem State.Seen.snoc {s : State} {path : List Nat} {i j : Nat} (h : s.Seen (path ++ [i]))
    (hEdge : s.tg.graph.Edge i j) : s.Seen (path ++ [i] ++ [j]) := by
  obtain ⟨g, hMem, hChain, hLater⟩ := h
  refine ⟨g, hMem, ?_, hLater⟩
  rw [List.append_assoc, List.singleton_append, List.isChain_append_cons_cons]
  exact ⟨hChain, hLater i j hEdge, List.isChain_singleton j⟩

theorem State.Seen.shorter {s : State} {path rest : List Nat} (h : s.Seen (path ++ rest)) :
    s.Seen path := by
  obtain ⟨g, hMem, hChain, hLater⟩ := h
  exact ⟨g, hMem, hChain.left_of_append, hLater⟩

theorem NodePtr.next_ne_none {ptr : NodePtr} {list : List Pair}
    (h : ptr ≠ .null ∧ ptr ≠ .dangling) : ptr.next list ≠ none := by
  cases ptr with
  | head => simp [NodePtr.next]
  | node target => simp [NodePtr.next]
  | null => exact absurd rfl h.1
  | dangling => exact absurd rfl h.2

/-- A step that leaves graph, locks and reports alone. -/
theorem MomentInv.move {s s' : State} (h : MomentInv s) (hGraph : s'.tg.graph = s.tg.graph)
    (hLocks : s'.tg.locks = s.tg.locks) (hMoments : s'.moments = s.moments)
    (hReported : s'.reported = s.reported) (hUndefined : s'.undefined = s.undefined)
    (hSeen : s.Seen s'.checker.path)
    (hWalk : ∀ i top below, s'.checker = .search i top below → Walk s'.tg top below) :
    MomentInv s' where
  wellFormed := ⟨hGraph ▸ h.wellFormed.graph, hLocks ▸ h.wellFormed.locks⟩
  seen _ := by
    unfold State.Seen at hSeen ⊢
    rwa [hMoments, hGraph]
  walk := hWalk
  reports := by
    rw [hReported, hMoments]
    exact h.reports
  undefined := hUndefined.trans h.undefined

section
variable {s s' : State} {i : Nat} {top : Frame} {below : List Frame}

theorem MomentInv.seen_stack (h : MomentInv s) (hChecker : s.checker = .search i top below) :
    s.Seen ((top :: below).map Frame.idx).reverse := by
  have hPath := h.seen (by simp [hChecker])
  rwa [hChecker] at hPath

/-- A step within the search, which leaves graph, locks and reports alone. -/
theorem MomentInv.moveTo (h : MomentInv s) (hChecker : s'.checker = .search i top below)
    (hGraph : s'.tg.graph = s.tg.graph) (hLocks : s'.tg.locks = s.tg.locks)
    (hMoments : s'.moments = s.moments) (hReported : s'.reported = s.reported)
    (hUndefined : s'.undefined = s.undefined)
    (hSeen : s.Seen ((top :: below).map Frame.idx).reverse) (hWalk : Walk s'.tg top below) :
    MomentInv s' := by
  refine h.move hGraph hLocks hMoments hReported hUndefined (hChecker ▸ hSeen) ?_
  intro i' top' below' hEq
  obtain ⟨rfl, rfl, rfl⟩ := Checker.search.inj (hChecker.symm.trans hEq)
  exact hWalk

/-- The loop has ended: its call returns. -/
theorem inv_leave (h : MomentInv s) (hChecker : s.checker = .search i top below) :
    MomentInv (leave s i below) := by
  have hSeen := h.seen_stack hChecker
  have hWalk := h.walk i top below hChecker
  rw [List.map_cons, List.reverse_cons] at hSeen
  cases below with
  | nil =>
      refine h.move rfl rfl rfl rfl rfl hSeen.shorter ?_
      intro i' top' below' hEq
      simp [leave] at hEq
  | cons caller below =>
      exact h.moveTo rfl rfl rfl rfl rfl rfl hSeen.shorter hWalk.pop

/-- The loop of `top` calls `DFS(j)`. -/
theorem inv_callDfs (h : MomentInv s) (hChecker : s.checker = .search i top below) {j : Nat}
    (hBody : top.pc.InBody) (hEdge : s.tg.graph.Edge top.idx j)
    (hStep : callDfs s i top below j = some s') : MomentInv s' := by
  have hSeen := h.seen_stack hChecker
  have hWalk := h.walk i top below hChecker
  have hLonger : s.Seen (((top :: below).map Frame.idx).reverse ++ [j]) := by
    rw [List.map_cons, List.reverse_cons] at hSeen ⊢
    exact hSeen.snoc hEdge
  unfold callDfs at hStep
  split at hStep
  · unfold report at hStep
    simp only [Option.bind_eq_bind, Option.bind_eq_some_iff, Option.some.injEq] at hStep
    obtain ⟨search, hPush, line, -, rfl⟩ := hStep
    have hList := (hWalk.pathList_push hBody hPush).2
    refine ⟨⟨h.wellFormed.graph, h.wellFormed.locks⟩, fun _ => hSeen, ?_, ?_, h.undefined⟩
    · intro i' top' below' hEq
      obtain ⟨rfl, rfl, rfl⟩ := Checker.search.inj hEq
      exact hWalk.report hBody hPush rfl rfl
    · intro path hMem
      rcases List.mem_append.mp hMem with hOld | hNew
      · exact h.reports path hOld
      · obtain ⟨g, hMoment, hChain, -⟩ := hLonger
        rw [List.mem_singleton.mp hNew]
        refine ⟨g, hMoment, ?_⟩
        have hSame : pathList { search with deadlock := 1, printed := search.printed ++ [line] } =
            pathList search := rfl
        rw [hSame, hList]
        exact hChain
  · simp only [Option.bind_eq_bind, Option.bind_eq_some_iff, Option.some.injEq] at hStep
    obtain ⟨search, hPush, rfl⟩ := hStep
    refine h.moveTo rfl rfl rfl rfl rfl rfl ?_ (hWalk.push hBody hEdge.lt_right hPush)
    simpa [Frame.enter] using hLonger

theorem inv_loopStep (h : MomentInv s) (hChecker : s.checker = .search i top below)
    (hRead : s.checker.Readable) (hStep : loopStep s i top below = some s') : MomentInv s' := by
  have hSeen := h.seen_stack hChecker
  have hWalk := h.walk i top below hChecker
  rw [hChecker] at hRead
  unfold loopStep at hStep
  unfold Checker.Readable at hRead
  simp only at hRead
  cases hPc : top.pc with
  | test =>
      simp only [hPc] at hStep hRead
      split at hStep
      · rename_i hNone
        exact absurd hNone (NodePtr.next_ne_none hRead)
      · obtain rfl := Option.some.inj hStep
        exact inv_leave h hChecker
      · obtain rfl := Option.some.inj hStep
        by_cases hRoot : below = []
        · subst hRoot
          exact h.moveTo rfl rfl rfl rfl rfl rfl hSeen (hWalk.reset i)
        · simp only [hRoot, if_false]
          exact h.moveTo rfl rfl rfl rfl rfl rfl hSeen
            (hWalk.stay rfl (by simp) fun _ => .inl hRoot)
  | argument =>
      simp only [hPc] at hStep hRead
      split at hStep
      · rename_i hNone
        exact absurd hNone (NodePtr.next_ne_none hRead)
      · rename_i ptr hNext
        obtain rfl := Option.some.inj hStep
        refine h.moveTo rfl rfl rfl rfl rfl rfl hSeen
          (hWalk.stay rfl ?_ fun _ => .inr (by simp [hPc, LoopPc.InBody]))
        intro p hTarget
        obtain rfl := LoopPc.target.inj hTarget
        exact NodePtr.next_mem hNext
  | target ptr =>
      cases ptr with
      | node p =>
          simp only [hPc, Option.bind_eq_bind, Option.bind_eq_some_iff] at hStep
          obtain ⟨j, hFound, hCall⟩ := hStep
          have hLt := hWalk.range top List.mem_cons_self
          have hEdge := Digraph.edge_of_mem_next hLt (hWalk.target p hPc) hFound
          exact inv_callDfs h hChecker (by simp [hPc, LoopPc.InBody]) hEdge hCall
      | null => simp [hPc] at hRead
      | head => simp [hPc] at hRead
      | dangling => simp [hPc] at hRead
  | advance =>
      simp only [hPc] at hStep hRead
      split at hStep
      · rename_i hNone
        exact absurd hNone (NodePtr.next_ne_none hRead)
      · obtain rfl := Option.some.inj hStep
        exact h.moveTo rfl rfl rfl rfl rfl rfl hSeen
          (hWalk.stay rfl (by simp) fun hBody => by simp [LoopPc.InBody] at hBody)

theorem inv_checkStep (h : MomentInv s) (hRead : s.checker.Readable)
    (hStep : checkStep s = some s') : MomentInv s' := by
  unfold checkStep at hStep
  split at hStep
  · obtain rfl := Option.some.inj hStep
    refine ⟨⟨h.wellFormed.graph, h.wellFormed.locks⟩, fun _ => ?_, ?_, ?_, h.undefined⟩
    · exact ⟨s.tg.graph, List.mem_singleton_self _, List.isChain_nil, fun _ _ hEdge => hEdge⟩
    · intro i top below hEq
      simp at hEq
    · intro path hMem
      simp at hMem
  · rename_i i hChecker
    obtain ⟨g, hMem, -, hLater⟩ := h.seen (by simp [hChecker])
    split at hStep
    · rename_i hNext
      obtain rfl := Option.some.inj hStep
      exact h.moveTo rfl rfl rfl rfl rfl rfl ⟨g, hMem, List.isChain_singleton i, hLater⟩
        (Walk.start hNext.1)
    · obtain rfl := Option.some.inj hStep
      refine h.move rfl rfl rfl rfl rfl ⟨g, hMem, List.isChain_nil, hLater⟩ ?_
      intro i' top below hEq
      simp at hEq
  · rename_i i top below hChecker
    exact inv_loopStep h hChecker hRead hStep

end

section
variable {tg tg' : TaskGraph} {hook : Hook}

theorem Hook.run_extends (h : hook.run tg = some tg') :
    Digraph.Extends tg.graph tg'.graph := by
  cases hook with
  | lockBefore thread lock => exact lockBefore_extends h
  | lockAfter thread lock => exact lockAfter_extends h
  | unlockAfter thread lock => exact @unlockAfter_graph _ _ thread _ h ▸ .refl _

theorem Hook.run_search (h : hook.run tg = some tg') : tg'.search = tg.search := by
  cases hook with
  | lockBefore thread lock => exact lockBefore_search h
  | lockAfter thread lock => exact lockAfter_search h
  | unlockAfter thread lock => exact @unlockAfter_search _ _ thread _ h

end

/-- Behind a steady hook the path is still seen: it is there now, or no edge has
come. -/
theorem seen_hook {s : State} {hook : Hook} {tg' : TaskGraph} (h : MomentInv s)
    (hLock : hook.lock ≠ 0) (hMet : Steady s (.hook hook)) (hRun : hook.run s.tg = some tg') :
    tg'.WellFormed ∧ (s.Seen s.checker.path →
      ∃ g ∈ s.moments ++ [tg'.graph], s.checker.path.IsChain g.Edge ∧
        ∀ i j, tg'.graph.Edge i j → g.Edge i j) := by
  cases hook with
  | lockBefore thread lock =>
      obtain ⟨hWf', hMono, hNoNew⟩ := lockBefore_edge h.wellFormed hRun
      refine ⟨hWf', fun ⟨g, hMem, hChain, hLater⟩ => ?_⟩
      by_cases hAdds : s.tg.AddsEdge thread lock
      · exact ⟨tg'.graph, List.mem_append_right _ (List.mem_singleton_self _),
          (hMet hAdds).imp fun _ _ hEdge => hMono _ _ hEdge, fun _ _ hEdge => hEdge⟩
      · exact ⟨g, List.mem_append_left _ hMem, hChain,
          fun i j hEdge => hLater i j (hNoNew hAdds i j hEdge)⟩
  | lockAfter thread lock =>
      obtain ⟨hWf', hNoNew⟩ := lockAfter_edge h.wellFormed hLock hRun
      exact ⟨hWf', fun ⟨g, hMem, hChain, hLater⟩ => ⟨g, List.mem_append_left _ hMem, hChain,
        fun i j hEdge => hLater i j (hNoNew i j hEdge)⟩⟩
  | unlockAfter thread lock =>
      obtain ⟨hWf', hNoNew⟩ := @unlockAfter_edge _ _ thread _ h.wellFormed hLock hRun
      exact ⟨hWf', fun ⟨g, hMem, hChain, hLater⟩ => ⟨g, List.mem_append_left _ hMem, hChain,
        fun i j hEdge => hLater i j (hNoNew i j hEdge)⟩⟩

/-- **Every steady step keeps the path of the checker within one moment.** -/
theorem inv_step {s s' : State} {a : Action} (h : MomentInv s) (hMet : Steady s a)
    (hStep : step s a = some s') : MomentInv s' := by
  cases a with
  | check => exact inv_checkStep h hMet hStep
  | hook hook =>
      simp only [step] at hStep
      split at hStep
      · rename_i hLock
        simp only [Option.bind_eq_bind, Option.bind_eq_some_iff, Option.some.injEq] at hStep
        obtain ⟨tg', hRun, rfl⟩ := hStep
        obtain ⟨hWf', hSeen⟩ := seen_hook h hLock hMet hRun
        refine ⟨hWf', fun hAwake => ?_, ?_, ?_, h.undefined⟩
        · have hAwake' : s.checker ≠ .sleep := by simpa using hAwake
          unfold State.Seen
          simp only [hAwake', if_false, Checker.after_path]
          exact hSeen (h.seen hAwake')
        · intro i top below hEq
          cases hChecker : s.checker with
          | sleep => simp [hChecker, Checker.after] at hEq
          | outer i' => simp [hChecker, Checker.after] at hEq
          | search i' top' below' =>
              simp only [hChecker, Checker.after] at hEq
              obtain ⟨rfl, rfl, rfl⟩ := Checker.search.inj hEq
              exact (h.walk _ _ _ hChecker).hook (Hook.run_extends hRun) (Hook.run_search hRun)
        · intro path hMem
          obtain ⟨g, hMoment, hChain⟩ := h.reports path hMem
          refine ⟨g, ?_, hChain⟩
          simp only
          split
          · exact hMoment
          · exact List.mem_append_left _ hMoment
      · simp at hStep

/-- **The checker combines no edges from different moments**, in every run that
is steady: the edges of a reported cycle were all in the graph at one moment of
the check. -/
theorem reports_at_one_moment_if_steady {tg : TaskGraph} (hInit : Started tg) {s : State}
    (hRun : Reach step Steady (init tg) s) : s.AtOneMoment ∧ s.undefined = false := by
  have hInv : MomentInv s :=
    hRun.invariant (momentInv_init hInit) fun _ _ _ hInv hMet hStep => inv_step hInv hMet hStep
  exact ⟨hInv.atOneMoment, hInv.undefined⟩

instance (tg : TaskGraph) (thread owner : Nat) : Decidable (tg.Asks thread owner) :=
  inferInstanceAs (Decidable (_ ∨ ∃ q ∈ tg.graph.succ (process thread), q.thId = owner))

instance (tg : TaskGraph) (thread lock : Nat) : Decidable (tg.AddsEdge thread lock) :=
  decidable_of_iff (∃ slot ∈ tg.locks.slot? lock, ¬ tg.Asks thread slot.thId) Iff.rfl

instance : (c : Checker) → Decidable c.Readable
  | .search _ ⟨_, _, .target (.node _)⟩ _ => isTrue trivial
  | .search _ ⟨_, _, .target .null⟩ _ | .search _ ⟨_, _, .target .head⟩ _
  | .search _ ⟨_, _, .target .dangling⟩ _ => isFalse id
  | .search _ ⟨_, _, .test⟩ _ | .search _ ⟨_, _, .argument⟩ _
  | .search _ ⟨_, _, .advance⟩ _ => inferInstanceAs (Decidable (_ ∧ _))
  | .sleep | .outer _ => isTrue trivial

instance (s : State) : (a : Action) → Decidable (Steady s a)
  | .check => inferInstanceAs (Decidable s.checker.Readable)
  | .hook (.lockBefore thread lock) =>
      inferInstanceAs (Decidable (s.tg.AddsEdge thread lock → _))
  | .hook (.lockAfter _ _) | .hook (.unlockAfter _ _) => isTrue trivial

/-- Thread 1 has mutex 11, thread 2 has mutex 12, and thread 1 asks for 12; the
checker starts from thread 1 and comes to thread 2. -/
def halfWay : List Action :=
  [.hook (.lockBefore 1 11), .hook (.lockAfter 1 11), .hook (.lockBefore 2 12),
    .hook (.lockAfter 2 12), .hook (.lockBefore 1 12),
    .check, .check, .check, .check, .check]

/-- Thread 2 asks for 11 while thread 1 still waits: a deadlock, and reported. -/
theorem reports_at_one_moment_if_steady_deadlock :
    ∃ s : State, s.reported = [[0, 1, 0]] ∧ s.AtOneMoment ∧ s.undefined = false := by
  let actions : List Action := halfWay ++ [.hook (.lockBefore 2 11), .check, .check, .check]
  let final := run (guarded step Steady) (init .zero) actions
  have hFinal : final = some (final.get (by decide)) := by simp
  have hRun := reach_of_run_guarded hFinal
  exact ⟨final.get (by decide), by decide,
    reports_at_one_moment_if_steady ⟨rfl, rfl⟩ hRun⟩

/-- The law for every interleaving. -/
def ReportsAtOneMoment (tg : TaskGraph) : Prop :=
  ∀ s, Reachable step (init tg) s → s.AtOneMoment

/-- Thread 1 gets 12 and only then thread 2 asks for 11: thread 1 does not wait
any more, but the checker, on its way from 1 to 2, finds the new edge. -/
theorem edges_of_two_moments_reported : ¬ ReportsAtOneMoment .zero := by
  intro hLaw
  let actions : List Action :=
    halfWay ++ [.hook (.unlockAfter 2 12), .hook (.lockAfter 1 12), .hook (.lockBefore 2 11),
      .check, .check, .check]
  let final := run step (init .zero) actions
  have hFinal : final = some (final.get (by decide)) := by simp
  have hReported : (final.get (by decide)).reported = [[] ++ 0 :: ([1] ++ [0])] := by decide
  have hNever : ∀ g ∈ (final.get (by decide)).moments,
      ¬ (0 :: ([1] ++ [0])).IsChain g.Edge := by decide
  obtain ⟨g, hMoment, hChain⟩ := hLaw _ (reachable_of_run hFinal) ([] ++ 0 :: ([1] ++ [0]))
    (by rw [hReported]; exact List.mem_singleton_self _) [] 0 [1] rfl
  exact hNever g hMoment hChain

end ConcurrentCheck

end DeadlockCheck
end LinuxCppLearn
