import LinuxCppLearn.DeadlockCheck.BuiltGraph
import LinuxCppLearn.DeadlockCheck.Undisturbed

/-!
# The tables under any sequence of hooks

The hooks in any order, whether or not a mutex stands behind the calls.

* `Tidy` — every vertex is a thread, no list holds a target twice or its own
  vertex; one lemma a hook says that it is kept.
* `TablesInOrder` — the same in terms of the two arrays, with what
  `WellFormed` says.
-/

namespace LinuxCppLearn
namespace DeadlockCheck
namespace ConcurrentCheck

open StepSystem TaskGraph

def Hook.thread : Hook → Nat
  | .lockBefore thread _ | .lockAfter thread _ | .unlockAfter thread _ => thread

/-- A thread and a mutex are passed, neither of them `0`. -/
def Hook.NonzeroIds (h : Hook) : Prop :=
  h.thread ≠ 0 ∧ h.lock ≠ 0

instance (h : Hook) : Decidable h.NonzeroIds :=
  inferInstanceAs (Decidable (_ ∧ _))

/-- No vertex, and no slot that holds a lock; the rest of the arrays is as it
was. -/
def NothingRecorded (tg : TaskGraph) : Prop :=
  tg.graph.vertexNum = 0 ∧ ∀ i < tg.locks.lockNum, (tg.locks.lockList i).lockId = 0

/-- What the hooks keep of the graph beyond `WellFormed`. -/
structure Tidy (g : Digraph) : Prop where
  simple : Simple g
  loopless : ∀ q, q ∉ g.succ q
  process : ∀ q, g.IsVertex q → q.type = .process

section
variable {tg tg' : TaskGraph} {thread lock : Nat}

/-- The test of `lock_before` starts at the vertex itself, so a thread that
waits for itself gets no edge. -/
theorem lockBefore_tidy (hWf : tg.WellFormed) (hTidy : Tidy tg.graph)
    (h : tg.lockBefore thread lock = some tg') : Tidy tg'.graph := by
  have hSimple := lockBefore_simple hWf hTidy.simple h
  rcases lockBefore_cases hWf h with ⟨-, rfl⟩ | ⟨slot, -, hRecord⟩
  · exact hTidy
  · refine ⟨hSimple, fun q => ?_, fun q hIs => ?_⟩
    · by_cases hOld : tg.Asks thread slot.thId
      · rw [hRecord.edge_old hOld]
        exact hTidy.loopless q
      · rw [hRecord.edge_new hOld]
        split
        · rename_i hSame
          subst hSame
          rw [List.mem_append, List.mem_singleton]
          rintro (hMem | hSelf)
          · exact hTidy.loopless _ hMem
          · exact hOld (.inl (congrArg Pair.thId hSelf))
        · exact hTidy.loopless q
    · rcases (hRecord.vertex q).mp hIs with hOld | rfl | rfl
      · exact hTidy.process q hOld
      · rfl
      · rfl

theorem lockAfter_tidy (hWf : tg.WellFormed) (hLock : lock ≠ 0) (hTidy : Tidy tg.graph)
    (h : tg.lockAfter thread lock = some tg') : Tidy tg'.graph := by
  have hSimple := lockAfter_simple hWf hLock hTidy.simple h
  rcases lockAfter_cases hWf hLock h with ⟨-, hTake⟩ | ⟨slot, -, hChange⟩
  · rw [hTake.graph]
    exact hTidy
  · refine ⟨hSimple, fun q hMem => ?_, fun q hIs => ?_⟩
    · rw [hChange.edge] at hMem
      split at hMem
      · exact hTidy.loopless q (List.mem_of_mem_eraseP hMem)
      · exact hTidy.loopless q hMem
    · exact hTidy.process q ((hChange.vertex q).mp hIs)

theorem Hook.run_tidy {hook : Hook} (hWf : tg.WellFormed) (hLock : hook.lock ≠ 0)
    (hTidy : Tidy tg.graph) (h : hook.run tg = some tg') :
    tg'.WellFormed ∧ Tidy tg'.graph := by
  refine ⟨(Hook.run_simple hWf hLock hTidy.simple h).1, ?_⟩
  cases hook with
  | lockBefore thread lock => exact lockBefore_tidy hWf hTidy h
  | lockAfter thread lock => exact lockAfter_tidy hWf hLock hTidy h
  | unlockAfter thread lock =>
      rw [@unlockAfter_graph _ _ thread _ h]
      exact hTidy

theorem NothingRecorded.tidy (h : NothingRecorded tg) : tg.WellFormed ∧ Tidy tg.graph := by
  have hNone := Digraph.not_isVertex_of_vertexNum h.1
  refine ⟨⟨Digraph.wellFormed_of_vertexNum h.1, ?_⟩, ?_, ?_, ?_⟩
  · intro i hi j _ _ hNonzero
    exact absurd (h.2 i hi) hNonzero
  · intro q
    rw [Digraph.succ_of_not_isVertex (hNone q)]
    exact List.nodup_nil
  · intro q
    rw [Digraph.succ_of_not_isVertex (hNone q)]
    exact List.not_mem_nil
  · intro q hIs
    exact absurd hIs (hNone q)

theorem tidy_reach (hInit : NothingRecorded tg)
    (h : Reach Hook.run (fun _ hook => hook.NonzeroIds) tg tg') :
    tg'.WellFormed ∧ Tidy tg'.graph := by
  refine h.invariant (P := fun tg => tg.WellFormed ∧ Tidy tg.graph) hInit.tidy ?_
  rintro tg hook tg' ⟨hWf, hTidy⟩ hMet hRun
  exact Hook.run_tidy hWf hMet.2 hTidy hRun

end

/-- The two arrays. -/
structure TablesInOrder (tg : TaskGraph) : Prop where
  distinct : ∀ i < tg.graph.vertexNum, ∀ j < tg.graph.vertexNum,
    (tg.graph.vertexList i).pair = (tg.graph.vertexList j).pair → i = j
  target : ∀ i < tg.graph.vertexNum, ∀ q ∈ (tg.graph.vertexList i).next,
    ∃ j < tg.graph.vertexNum, (tg.graph.vertexList j).pair = q
  once : ∀ i < tg.graph.vertexNum, (tg.graph.vertexList i).next.Nodup
  loopless : ∀ i < tg.graph.vertexNum,
    (tg.graph.vertexList i).pair ∉ (tg.graph.vertexList i).next
  lock_once : ∀ i < tg.locks.lockNum, ∀ j < tg.locks.lockNum,
    (tg.locks.lockList i).lockId = (tg.locks.lockList j).lockId →
    (tg.locks.lockList i).lockId ≠ 0 → i = j

/-- **Any sequence of hooks** leaves the vertices distinct, every target a
vertex, every list without a repetition and without its own vertex, and every
lock in one slot. -/
theorem hooks_keep_tables_in_order {tg tg' : TaskGraph} (hInit : NothingRecorded tg)
    (h : Reach Hook.run (fun _ hook => hook.NonzeroIds) tg tg') : TablesInOrder tg' := by
  obtain ⟨hWf, hTidy⟩ := tidy_reach hInit h
  -- the list in the array is the list of the pair at its index
  have hList : ∀ i < tg'.graph.vertexNum,
      (tg'.graph.vertexList i).next = tg'.graph.succ (tg'.graph.vertexList i).pair :=
    fun i hi => (hWf.graph.succ_eq hi rfl).symm
  refine ⟨hWf.graph.distinct, fun i hi q hMem => ?_, fun i hi => ?_, fun i hi => ?_, hWf.locks⟩
  · exact Digraph.isVertex_iff.mp (hWf.graph.target i hi q hMem)
  · rw [hList i hi]
    exact hTidy.simple _
  · rw [hList i hi]
    exact hTidy.loopless _

/-- A second thread asks twice for a lock, gets it behind the first one's
`unlock_after`, and a lock is released that nobody asks for. -/
theorem hooks_keep_tables_in_order_two :
    NothingRecorded TaskGraph.zero ∧ ∃ tg',
      Reach Hook.run (fun _ hook => hook.NonzeroIds) TaskGraph.zero tg' ∧
        tg'.graph.vertexNum = 2 ∧ TablesInOrder tg' := by
  have hInit : NothingRecorded TaskGraph.zero := ⟨rfl, fun i hi => absurd hi (Nat.not_lt_zero i)⟩
  have hRun : ((run (guarded Hook.run fun _ hook => hook.NonzeroIds) TaskGraph.zero
      [.lockAfter 1 7, .lockBefore 2 7, .lockBefore 2 7, .lockAfter 1 8, .unlockAfter 1 8,
        .unlockAfter 1 7, .lockAfter 2 7]).map fun tg => decide (tg.graph.vertexNum = 2)) =
      some true := by decide
  obtain ⟨tg', hTg, hTest⟩ := Option.map_eq_some_iff.mp hRun
  have hReach := reach_of_run_guarded hTg
  exact ⟨hInit, tg', hReach, of_decide_eq_true hTest, hooks_keep_tables_in_order hInit hReach⟩

end ConcurrentCheck
end DeadlockCheck
end LinuxCppLearn
