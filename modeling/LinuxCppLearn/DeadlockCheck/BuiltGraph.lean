import LinuxCppLearn.Library.StepSystem
import LinuxCppLearn.DeadlockCheck.CycleSearch

/-!
# Graphs built by calls

The graphs that `add_vertex`, `add_edge` and `remove_edge` build from the empty
one, with vertices of type `PROCESS`.

* `Built.wellFormed`, `Built.process` — what holds of all of them.
* `hasCycle_iff` — a directed cycle of vertices is a cycle of indices, on which
  the search works.
* `built_cycle_reported` — `check_dead_lock` reports whenever there is one.
-/

namespace LinuxCppLearn
namespace DeadlockCheck

open StepSystem Relation

/-- A call that edits the graph. -/
inductive GraphCall
  | addVertex (pair : Pair)
  | addEdge (u v : Pair)
  | removeEdge (u v : Pair)
deriving DecidableEq, Repr

namespace GraphCall

def run (g : Digraph) : GraphCall → Option Digraph
  | addVertex pair => g.addVertex pair
  | addEdge u v => g.addEdge u v
  | removeEdge u v => some (g.removeEdge u v)

/-- The pairs it names. -/
def pairs : GraphCall → List Pair
  | addVertex pair => [pair]
  | addEdge u v | removeEdge u v => [u, v]

/-- All of type `PROCESS`. -/
def OnProcesses (call : GraphCall) : Prop :=
  ∀ pair ∈ call.pairs, pair.type = .process

instance (call : GraphCall) : Decidable call.OnProcesses :=
  inferInstanceAs (Decidable (∀ pair ∈ call.pairs, pair.type = .process))

end GraphCall

namespace Digraph

/-- No vertex; the array holds anything. -/
def empty (vertexList : Nat → Vertex) : Digraph where
  vertexList := vertexList
  vertexNum := 0
  vertexNum_le := Nat.zero_le MAX

/-- Built from the empty graph. -/
def Built (g : Digraph) : Prop :=
  ∃ vertexList, Reach GraphCall.run (fun _ call => call.OnProcesses) (empty vertexList) g

/-- There is an edge from the first to the second. -/
def Points (g : Digraph) (u v : Pair) : Prop :=
  v ∈ g.succ u

instance (g : Digraph) (u v : Pair) : Decidable (g.Points u v) :=
  inferInstanceAs (Decidable (v ∈ g.succ u))

def HasCycle (g : Digraph) : Prop :=
  ∃ pair, TransGen g.Points pair pair

variable {g g' : Digraph}

theorem not_isVertex_of_vertexNum (h : g.vertexNum = 0) (pair : Pair) : ¬ g.IsVertex pair := by
  rw [isVertex_iff]
  rintro ⟨i, hLt, -⟩
  omega

theorem wellFormed_of_vertexNum (h : g.vertexNum = 0) : g.WellFormed := by
  constructor
  · intro i hLt
    omega
  · intro i hLt
    omega

theorem removeEdge_vertices (hWf : g.WellFormed) (u v : Pair) :
    (g.removeEdge u v).WellFormed ∧ ∀ q, (g.removeEdge u v).IsVertex q ↔ g.IsVertex q := by
  by_cases hBoth : g.IsVertex u ∧ g.IsVertex v
  · obtain ⟨hWf', -, hVertex⟩ := removeEdge_spec hWf hBoth.1 hBoth.2
    exact ⟨hWf', hVertex⟩
  · have hSame : g.removeEdge u v = g := by
      unfold removeEdge
      split
      · rename_i i j hU hV
        exact absurd ⟨by simp [IsVertex, hU], by simp [IsVertex, hV]⟩ hBoth
      · rfl
    rw [hSame]
    exact ⟨hWf, fun q => Iff.rfl⟩

/-- What a call keeps and which vertices there are behind it. -/
theorem GraphCall.run_spec {call : GraphCall} (hWf : g.WellFormed)
    (h : call.run g = some g') :
    g'.WellFormed ∧ ∀ q, g'.IsVertex q → g.IsVertex q ∨ q ∈ call.pairs := by
  cases call with
  | addVertex pair =>
      obtain ⟨hWf', -, hVertex⟩ := addVertex_spec hWf h
      refine ⟨hWf', fun q hIs => ?_⟩
      simpa [GraphCall.pairs] using (hVertex q).mp hIs
  | addEdge u v =>
      obtain ⟨hWf', -, hVertex⟩ := addEdge_spec hWf h
      refine ⟨hWf', fun q hIs => ?_⟩
      simpa [GraphCall.pairs] using (hVertex q).mp hIs
  | removeEdge u v =>
      obtain rfl : g.removeEdge u v = g' := Option.some.inj h
      obtain ⟨hWf', hVertex⟩ := removeEdge_vertices hWf u v
      exact ⟨hWf', fun q hIs => .inl ((hVertex q).mp hIs)⟩

namespace Built

theorem invariant (h : g.Built) :
    g.WellFormed ∧ ∀ q, g.IsVertex q → q.type = .process := by
  obtain ⟨vertexList, hReach⟩ := h
  refine hReach.invariant (P := fun g => g.WellFormed ∧ ∀ q, g.IsVertex q → q.type = .process)
    ⟨wellFormed_of_vertexNum rfl, fun q hIs => absurd hIs (not_isVertex_of_vertexNum rfl q)⟩ ?_
  rintro g call g' ⟨hWf, hProcess⟩ hTypes hRun
  obtain ⟨hWf', hVertex⟩ := GraphCall.run_spec hWf hRun
  refine ⟨hWf', fun q hIs => ?_⟩
  rcases hVertex q hIs with hOld | hNew
  · exact hProcess q hOld
  · exact hTypes q hNew

theorem wellFormed (h : g.Built) : g.WellFormed := h.invariant.1

theorem process (h : g.Built) {q : Pair} (hIs : g.IsVertex q) : q.type = .process :=
  h.invariant.2 q hIs

/-- Vertices with the same thread are the same. -/
theorem index_eq (h : g.Built) {i j : Nat} (hi : i < g.vertexNum) (hj : j < g.vertexNum)
    (hSame : (g.vertexList i).pair.thId = (g.vertexList j).pair.thId) : i = j := by
  have hTypeI := h.process (isVertex_iff.mpr ⟨i, hi, rfl⟩)
  have hTypeJ := h.process (isVertex_iff.mpr ⟨j, hj, rfl⟩)
  apply h.wellFormed.distinct i hi j hj
  cases hPairI : (g.vertexList i).pair with
  | mk thId type =>
      cases hPairJ : (g.vertexList j).pair with
      | mk thId' type' =>
          simp_all

end Built

/-! ## Cycles of vertices and of indices -/

theorem WellFormed.points_iff (hWf : g.WellFormed) {u v : Pair} :
    g.Points u v ↔ ∃ i j, g.Edge i j ∧ (g.vertexList i).pair = u ∧ (g.vertexList j).pair = v := by
  constructor
  · intro hPoints
    have hU : g.IsVertex u := by
      by_contra hNot
      rw [Points, succ_of_not_isVertex hNot] at hPoints
      simp at hPoints
    obtain ⟨i, hi, rfl⟩ := isVertex_iff.mp hU
    obtain ⟨j, hj, rfl⟩ := isVertex_iff.mp (hWf.isVertex_of_mem_succ hPoints)
    exact ⟨i, j, hWf.edge_iff.mpr ⟨hi, hj, hPoints⟩, rfl, rfl⟩
  · rintro ⟨i, j, hEdge, rfl, rfl⟩
    exact (hWf.edge_iff.mp hEdge).2.2

theorem WellFormed.transGen_edge (hWf : g.WellFormed) {u v : Pair} (h : TransGen g.Points u v) :
    ∃ i j, TransGen g.Edge i j ∧ (g.vertexList i).pair = u ∧ (g.vertexList j).pair = v := by
  induction h with
  | single hPoints =>
      obtain ⟨i, j, hEdge, hU, hV⟩ := hWf.points_iff.mp hPoints
      exact ⟨i, j, .single hEdge, hU, hV⟩
  | tail _ hPoints ih =>
      obtain ⟨i, j, hChain, hU, hV⟩ := ih
      obtain ⟨j', k, hEdge, hV', hW⟩ := hWf.points_iff.mp hPoints
      -- the vertices are distinct, so the two indices of the middle one agree
      obtain ⟨l, -, hLast⟩ := TransGen.tail'_iff.mp hChain
      obtain rfl : j' = j := hWf.distinct _ hEdge.1 _ hLast.lt_right (hV'.trans hV.symm)
      exact ⟨i, k, hChain.tail hEdge, hU, hW⟩

theorem WellFormed.hasCycle_iff (hWf : g.WellFormed) :
    g.HasCycle ↔ ∃ i, TransGen g.Edge i i := by
  constructor
  · rintro ⟨pair, hCycle⟩
    obtain ⟨i, j, hChain, hFirst, hLast⟩ := hWf.transGen_edge hCycle
    obtain ⟨k, hEdge, -⟩ := TransGen.head'_iff.mp hChain
    obtain ⟨l, -, hEdge'⟩ := TransGen.tail'_iff.mp hChain
    obtain rfl : i = j := hWf.distinct _ hEdge.1 _ hEdge'.lt_right (hFirst.trans hLast.symm)
    exact ⟨i, hChain⟩
  · rintro ⟨i, hCycle⟩
    refine ⟨(g.vertexList i).pair, hCycle.lift (fun k => (g.vertexList k).pair) ?_⟩
    intro j k hEdge
    exact hWf.points_iff.mpr ⟨j, k, hEdge, rfl, rfl⟩

/-! ## Completeness -/

/-- **Every cycle is reported**, whatever the search was left with before: the
check returns, and the verdict is `1`. -/
theorem built_cycle_reported (hBuilt : g.Built) (hCycle : g.HasCycle) (s : Search) :
    ∃ s', g.checkDeadLock s = some s' ∧ s'.deadlock = 1 := by
  obtain ⟨i, hIndices⟩ := hBuilt.wellFormed.hasCycle_iff.mp hCycle
  obtain ⟨s', hCheck⟩ := checkDeadLock_returns hBuilt.wellFormed s
  exact ⟨s', hCheck, checkDeadLock_complete hBuilt.wellFormed hIndices hCheck⟩

/-- A search that has been left with anything in it. -/
def usedSearch : Search where
  path _ := 7
  visited _ := 1
  k := 3
  deadlock := 1
  printed := []

/-- Two vertices that point to each other, and a second edge from the first. -/
theorem built_cycle_reported_two :
    ∃ g : Digraph, g.Built ∧ g.HasCycle ∧
      ∃ s', g.checkDeadLock usedSearch = some s' ∧ s'.deadlock = 1 := by
  have hRun : ((run (guarded GraphCall.run fun _ call => call.OnProcesses)
      (empty fun _ => ⟨⟨9, .process⟩, []⟩)
      [.addEdge ⟨1, .process⟩ ⟨3, .process⟩,
        .addEdge ⟨1, .process⟩ ⟨2, .process⟩,
        .addEdge ⟨2, .process⟩ ⟨1, .process⟩]).map fun g =>
        decide (g.Points ⟨1, .process⟩ ⟨2, .process⟩ ∧
          g.Points ⟨2, .process⟩ ⟨1, .process⟩)) = some true := by decide
  obtain ⟨g, hG, hTest⟩ := Option.map_eq_some_iff.mp hRun
  obtain ⟨hThere, hBack⟩ := of_decide_eq_true hTest
  have hBuilt : g.Built := ⟨_, reach_of_run_guarded hG⟩
  have hCycle : g.HasCycle := ⟨_, TransGen.tail (TransGen.single hThere) hBack⟩
  exact ⟨g, hBuilt, hCycle, built_cycle_reported hBuilt hCycle usedSearch⟩

end Digraph

end DeadlockCheck
end LinuxCppLearn
