import LinuxCppLearn.Library.Lockstep
import LinuxCppLearn.DeadlockCheck.FirstReport
import LinuxCppLearn.DeadlockCheck.ConcurrentCheck

/-!
# What `start_check` leaves unset

`start_check` sets `vertex_num` and `lock_num` to `0`; the rest of the
`task_graph` is what `malloc` returned.  Two detectors that were started on
different memory run the same calls side by side.

* `Same`, `SameSlots` — the arrays agree below `vertex_num` and, in `lock_id` and
  `th_id`, below `lock_num`; every operation keeps that.
* `checkDeadLock_verdict` — the verdict of a check depends on the graph only:
  marks, path and verdict are set before they are read.
* `degress` is set nowhere: two counters of one slot differ for ever by as much
  as at the start.  The one place where that is seen is the test of
  `unlock_after`, `ClearsAlike`.
* `detectors_agree_exactly` — the law.
-/

namespace LinuxCppLearn
namespace DeadlockCheck

open Lockstep WalkOrder

theorem firstIndex_congr {num : Nat} {test test' : Nat → Bool}
    (h : ∀ i < num, test' i = test i) : firstIndex num test' = firstIndex num test := by
  cases hFound : firstIndex num test with
  | none =>
      rw [firstIndex_eq_none] at hFound ⊢
      intro i hi
      rw [h i hi]
      exact hFound i hi
  | some i =>
      obtain ⟨hLt, hTest, hFirst⟩ := firstIndex_eq_some.mp hFound
      refine firstIndex_eq_some.mpr ⟨hLt, (h i hLt).trans hTest, fun j hj => ?_⟩
      rw [h j (Nat.lt_trans hj hLt)]
      exact hFirst j hj

namespace Digraph

/-- The same vertices and lists; the rest of the array is not looked at. -/
structure Same (g g' : Digraph) : Prop where
  num : g'.vertexNum = g.vertexNum
  list : ∀ i < g.vertexNum, g'.vertexList i = g.vertexList i

namespace Same

variable {g g' : Digraph} {u v pair : Pair}

theorem searchVertex (h : Same g g') (pair : Pair) :
    g'.searchVertex pair = g.searchVertex pair := by
  unfold Digraph.searchVertex
  rw [h.num]
  apply firstIndex_congr
  intro i hi
  rw [h.list i hi]

theorem isVertex_iff (h : Same g g') (pair : Pair) : g'.IsVertex pair ↔ g.IsVertex pair := by
  unfold IsVertex
  rw [h.searchVertex]

theorem wellFormed (h : Same g g') (hWf : g.WellFormed) : g'.WellFormed := by
  have hNum := h.num
  constructor
  · intro i hi j hj hPair
    rw [h.list i (by omega), h.list j (by omega)] at hPair
    exact hWf.distinct i (by omega) j (by omega) hPair
  · intro i hi q hMem
    rw [h.list i (by omega)] at hMem
    exact (h.isVertex_iff q).mpr (hWf.target i (by omega) q hMem)

theorem addVertex (h : Same g g') (pair : Pair) :
    Option.Rel Same (g.addVertex pair) (g'.addVertex pair) := by
  have hNum := h.num
  unfold Digraph.addVertex
  rw [h.searchVertex]
  cases g.searchVertex pair with
  | some i => exact .some h
  | none =>
      simp only [hNum]
      split
      · refine .some ⟨rfl, fun i hi => ?_⟩
        have hLt : i < g.vertexNum + 1 := hi
        by_cases hEq : i = g.vertexNum
        · subst hEq
          simp
        · simp only [Function.update_of_ne hEq]
          exact h.list i (by omega)
      · exact .none

theorem setNext (h : Same g g') {i : Nat} (hi : i < g.vertexNum) (next : List Pair) :
    Same (g.setNext i next) (g'.setNext i next) := by
  refine ⟨h.num, fun j hj => ?_⟩
  unfold Digraph.setNext
  by_cases hEq : j = i
  · subst hEq
    simp only [Function.update_self]
    rw [h.list j hi]
  · simp only [Function.update_of_ne hEq]
    exact h.list j hj

theorem addEdge (h : Same g g') (u v : Pair) :
    Option.Rel Same (g.addEdge u v) (g'.addEdge u v) := by
  unfold Digraph.addEdge
  refine rel_bind (h.addVertex u) fun g₁ g₁' h₁ => ?_
  refine rel_bind (h₁.addVertex v) fun g₂ g₂' h₂ => ?_
  rw [h₂.searchVertex]
  cases hFound : g₂.searchVertex u with
  | none => exact .none
  | some i =>
      have hi := searchVertex_lt hFound
      refine .some ?_
      rw [h₂.list i hi]
      exact h₂.setNext hi _

theorem verifyEdge (h : Same g g') (u v : Pair) : g'.verifyEdge u v = g.verifyEdge u v := by
  unfold Digraph.verifyEdge
  rw [h.num, h.searchVertex]
  cases hFound : g.searchVertex u with
  | none => rfl
  | some i =>
      simp only
      rw [h.list i (searchVertex_lt hFound)]

theorem removeEdge (h : Same g g') (u v : Pair) :
    Same (g.removeEdge u v) (g'.removeEdge u v) := by
  unfold Digraph.removeEdge
  rw [h.searchVertex, h.searchVertex]
  split
  · rename_i i j hU hV
    have hi := searchVertex_lt hU
    rw [h.list i hi]
    exact h.setNext hi _
  · exact h

theorem addMissingEdge (h : Same g g') (u v : Pair) :
    Option.Rel Same (TaskGraph.addMissingEdge g u v) (TaskGraph.addMissingEdge g' u v) := by
  unfold TaskGraph.addMissingEdge
  rw [h.verifyEdge]
  split
  · exact .some h
  · exact h.addEdge u v

theorem adj (h : Same g g') {i : Nat} (hi : i < g.vertexNum) : g'.adj i = g.adj i := by
  unfold Digraph.adj
  rw [h.list i hi]
  congr 1
  funext pair
  exact h.searchVertex pair

theorem meeting (h : Same g g') : g'.meeting = g.meeting := by
  have hWalks : ∀ root i, i < g.vertexNum → g'.walksOver root i = g.walksOver root i := by
    intro root i hi
    unfold walksOver
    rw [h.num]
    exact walks_congr (D := fun j => j < g.vertexNum) (fun j hj => h.adj hj)
      (fun _ _ _ hMem => adj_lt hMem) _ [root] i hi
  unfold Digraph.meeting
  rw [h.num]
  apply OptionLoop.findSome?_congr
  intro root hRoot
  have hLt := List.mem_range.mp hRoot
  unfold rootMeeting
  rw [h.adj hLt]
  apply OptionLoop.findSome?_congr
  intro i hMem
  rw [hWalks root i (adj_lt hMem)]

end Same

/-- **The verdict of a check** depends on the graph only. -/
theorem checkDeadLock_verdict {g : Digraph} (hWf : g.WellFormed) {s s' : Search}
    (h : g.checkDeadLock s = some s') : s'.deadlock = if g.meeting = none then 0 else 1 := by
  have hOutcome := checkDeadLock_outcome hWf h
  cases hMet : g.meeting with
  | none => exact (hOutcome.quiet hMet).1
  | some w => exact (hOutcome.report w hMet).1

end Digraph

namespace LockTable

/-- The same locks with the same owners, slot by slot; `degress` is not looked
at. -/
structure SameSlots (t t' : LockTable) : Prop where
  num : t'.lockNum = t.lockNum
  slots : ∀ i < t.lockNum, (t'.lockList i).lockId = (t.lockList i).lockId ∧
    (t'.lockList i).thId = (t.lockList i).thId

/-- By how much the counters differ. -/
def Offset (δ : Nat → Int) (t t' : LockTable) : Prop :=
  ∀ i, (t'.lockList i).degress = (t.lockList i).degress + δ i

variable {t t' : LockTable} {lock : Nat} {δ : Nat → Int}

namespace SameSlots

theorem searchLock (h : SameSlots t t') (lock : Nat) : t'.searchLock lock = t.searchLock lock := by
  unfold LockTable.searchLock
  rw [h.num]
  apply firstIndex_congr
  intro i hi
  rw [(h.slots i hi).1]

theorem searchEmptyLock (h : SameSlots t t') : t'.searchEmptyLock = t.searchEmptyLock := by
  unfold LockTable.searchEmptyLock
  rw [h.num]
  congr 1
  apply firstIndex_congr
  intro i hi
  rw [(h.slots i hi).1]

theorem setSlot (h : SameSlots t t') {i : Nat} {new new' : LockSlot}
    (hId : new'.lockId = new.lockId) (hThread : new'.thId = new.thId) :
    SameSlots (t.setSlot i new) (t'.setSlot i new') := by
  refine ⟨h.num, fun j hj => ?_⟩
  unfold LockTable.setSlot
  by_cases hEq : j = i
  · subst hEq
    simp only [Function.update_self]
    exact ⟨hId, hThread⟩
  · simp only [Function.update_of_ne hEq]
    exact h.slots j hj

end SameSlots

theorem Offset.setSlot (h : Offset δ t t') {i : Nat} {new new' : LockSlot}
    (hCount : new'.degress = new.degress + δ i) :
    Offset δ (t.setSlot i new) (t'.setSlot i new') := by
  intro j
  unfold LockTable.setSlot
  by_cases hEq : j = i
  · subst hEq
    simp only [Function.update_self]
    exact hCount
  · simp only [Function.update_of_ne hEq]
    exact h j

/-- A new slot keeps the counter it finds. -/
theorem occupy_alike (h : SameSlots t t') (hOffset : Offset δ t t') (thread lock : Nat) :
    Option.Rel (fun u u' => SameSlots u u' ∧ Offset δ u u')
      (t.occupy thread lock) (t'.occupy thread lock) := by
  have hNum := h.num
  unfold occupy
  simp only [h.searchEmptyLock, hNum]
  split
  · refine .some ⟨⟨rfl, fun j hj => ?_⟩, fun j => ?_⟩
    · by_cases hEq : j = t.searchEmptyLock
      · subst hEq
        simp
      · simp only [Function.update_of_ne hEq]
        -- the only slot that can be new is the one written
        have hCases := t.searchEmptyLock_cases
        have hj' : j < if t.lockNum ≤ t.searchEmptyLock then t.lockNum + 1 else t.lockNum := hj
        refine h.slots j ?_
        split at hj' <;> omega
    · by_cases hEq : j = t.searchEmptyLock
      · subst hEq
        simp only [Function.update_self]
        exact hOffset _
      · simp only [Function.update_of_ne hEq]
        exact hOffset j
  · exact .none

end LockTable

/-! ## The calls -/

/-- A call of a hook or of `check_dead_lock`. -/
inductive DetectorCall
  | hook (h : ConcurrentCheck.Hook)
  | check
deriving DecidableEq, Repr

def DetectorCall.run (tg : TaskGraph) : DetectorCall → Option TaskGraph
  | .hook h => h.run tg
  | .check => do
      let search ← tg.graph.checkDeadLock tg.search
      some { tg with search := search }

/-- What is seen of two detectors behind a call: the slots, and behind a check the
verdict. -/
def SeenAlike (call : DetectorCall) (tg tg' : TaskGraph) : Prop :=
  LockTable.SameSlots tg.locks tg'.locks ∧
    (call = .check → tg'.search.deadlock = tg.search.deadlock)

/-- In `unlock_after`: the slot that is found is blank already, or both detectors
empty it, or neither does. -/
def ClearsAlike (tg tg' : TaskGraph) : DetectorCall → Prop
  | .hook (.unlockAfter _ lock) =>
      ∀ i, tg.locks.searchLock lock = some i →
        ((tg.locks.lockList i).lockId = 0 ∧ (tg.locks.lockList i).thId = 0) ∨
          ((tg'.locks.lockList i).degress = 0 ↔ (tg.locks.lockList i).degress = 0)
  | _ => True

/-- Two detectors with the same graph and slots. -/
structure Alike (δ : Nat → Int) (tg tg' : TaskGraph) : Prop where
  wellFormed : tg.graph.WellFormed
  graph : Digraph.Same tg.graph tg'.graph
  slots : LockTable.SameSlots tg.locks tg'.locks
  offset : LockTable.Offset δ tg.locks tg'.locks

section Calls

variable {δ : Nat → Int} {tg tg' u u' : TaskGraph}

/-- The hooks keep the graph in order, whatever ids they are called with. -/
theorem hook_wellFormed {hook : ConcurrentCheck.Hook} (hWf : tg.graph.WellFormed)
    (h : hook.run tg = some u) : u.graph.WellFormed := by
  cases hook with
  | lockBefore thread lock =>
      simp only [ConcurrentCheck.Hook.run, TaskGraph.lockBefore] at h
      split at h
      · exact Option.some.inj h ▸ hWf
      · simp only [Option.bind_eq_bind, Option.bind_eq_some_iff, Option.some.injEq] at h
        obtain ⟨g₁, hU, g₂, hV, g₃, hEdge, rfl⟩ := h
        have hWf₂ := (Digraph.addVertex_spec (Digraph.addVertex_spec hWf hU).1 hV).1
        unfold TaskGraph.addMissingEdge at hEdge
        split at hEdge
        · exact Option.some.inj hEdge ▸ hWf₂
        · exact (Digraph.addEdge_spec hWf₂ hEdge).1
  | lockAfter thread lock =>
      simp only [ConcurrentCheck.Hook.run, TaskGraph.lockAfter] at h
      split at h
      · simp only [Option.bind_eq_bind, Option.bind_eq_some_iff, Option.some.injEq] at h
        obtain ⟨locks, -, rfl⟩ := h
        exact hWf
      · obtain rfl := Option.some.inj h
        simp only
        split
        · exact (Digraph.removeEdge_vertices hWf _ _).1
        · exact hWf
  | unlockAfter thread lock =>
      rw [@TaskGraph.unlockAfter_graph _ _ thread _ h]
      exact hWf

theorem lockBefore_alike (h : Alike δ tg tg') (thread lock : Nat) :
    Option.Rel (fun a b => Digraph.Same a.graph b.graph ∧ LockTable.SameSlots a.locks b.locks ∧
        LockTable.Offset δ a.locks b.locks)
      (tg.lockBefore thread lock) (tg'.lockBefore thread lock) := by
  unfold TaskGraph.lockBefore
  rw [h.slots.searchLock]
  cases hFound : tg.locks.searchLock lock with
  | none => exact .some ⟨h.graph, h.slots, h.offset⟩
  | some idx =>
      obtain ⟨hId, hThread⟩ := h.slots.slots idx (LockTable.searchLock_lt hFound)
      simp only [hThread]
      refine rel_bind (h.graph.addVertex _) fun g₁ g₁' h₁ => ?_
      refine rel_bind (h₁.addVertex _) fun g₂ g₂' h₂ => ?_
      refine rel_bind (h₂.addMissingEdge _ _) fun g₃ g₃' h₃ => ?_
      refine .some ⟨h₃, h.slots.setSlot hId rfl, h.offset.setSlot ?_⟩
      have hCount := h.offset idx
      simp only
      omega

theorem lockAfter_alike (h : Alike δ tg tg') (thread lock : Nat) :
    Option.Rel (fun a b => Digraph.Same a.graph b.graph ∧ LockTable.SameSlots a.locks b.locks ∧
        LockTable.Offset δ a.locks b.locks)
      (tg.lockAfter thread lock) (tg'.lockAfter thread lock) := by
  unfold TaskGraph.lockAfter
  rw [h.slots.searchLock]
  cases hFound : tg.locks.searchLock lock with
  | none =>
      refine rel_bind (LockTable.occupy_alike h.slots h.offset thread lock) fun t t' hTables => ?_
      exact .some ⟨h.graph, hTables⟩
  | some idx =>
      obtain ⟨hId, hThread⟩ := h.slots.slots idx (LockTable.searchLock_lt hFound)
      simp only [hThread, h.graph.verifyEdge]
      refine .some ⟨?_, h.slots.setSlot hId rfl, h.offset.setSlot ?_⟩
      · simp only
        split
        · exact h.graph.removeEdge _ _
        · exact h.graph
      · have hCount := h.offset idx
        simp only
        omega

/-- The slot behind `unlock_after`. -/
def LockSlot.emptied (slot : LockSlot) : LockSlot :=
  if slot.degress = 0 then { slot with thId := 0, lockId := 0 } else slot

theorem LockSlot.emptied_degress (slot : LockSlot) : slot.emptied.degress = slot.degress := by
  unfold emptied
  split <;> rfl

theorem unlockAfter_found {thread lock idx : Nat} (hFound : tg.locks.searchLock lock = some idx) :
    tg.unlockAfter thread lock =
      some { tg with locks := tg.locks.setSlot idx (tg.locks.lockList idx).emptied } := by
  unfold TaskGraph.unlockAfter LockSlot.emptied
  rw [hFound]
  simp only
  split
  · rfl
  · have hSame : tg.locks.setSlot idx (tg.locks.lockList idx) = tg.locks := by
      unfold LockTable.setSlot
      rw [Function.update_eq_self]
    rw [hSame]

/-- A slot that one detector empties and the other does not must have been
blank. -/
theorem emptied_alike {slot slot' : LockSlot} (hId : slot'.lockId = slot.lockId)
    (hThread : slot'.thId = slot.thId) :
    (slot'.emptied.lockId = slot.emptied.lockId ∧ slot'.emptied.thId = slot.emptied.thId) ↔
      (slot.lockId = 0 ∧ slot.thId = 0) ∨ (slot'.degress = 0 ↔ slot.degress = 0) := by
  unfold LockSlot.emptied
  by_cases hZero : slot.degress = 0
  · by_cases hZero' : slot'.degress = 0
    · simp [hZero, hZero']
    · simp [hZero, hZero', hId, hThread]
  · by_cases hZero' : slot'.degress = 0
    · simp only [hZero, hZero', if_true, if_false]
      constructor
      · rintro ⟨hBlank, hBlank'⟩
        exact .inl ⟨hBlank.symm, hBlank'.symm⟩
      · rintro (⟨hBlank, hBlank'⟩ | hNever)
        · exact ⟨hBlank.symm, hBlank'.symm⟩
        · simp at hNever
    · simp [hZero, hZero', hId, hThread]

theorem unlockAfter_alike (h : Alike δ tg tg') (thread lock : Nat)
    (hMet : ClearsAlike tg tg' (.hook (.unlockAfter thread lock))) :
    Option.Rel (fun a b => Digraph.Same a.graph b.graph ∧ LockTable.SameSlots a.locks b.locks ∧
        LockTable.Offset δ a.locks b.locks)
      (tg.unlockAfter thread lock) (tg'.unlockAfter thread lock) := by
  cases hFound : tg.locks.searchLock lock with
  | none =>
      have hFound' := (h.slots.searchLock lock).trans hFound
      unfold TaskGraph.unlockAfter
      rw [hFound, hFound']
      exact .none
  | some idx =>
      have hFound' := (h.slots.searchLock lock).trans hFound
      obtain ⟨hId, hThread⟩ := h.slots.slots idx (LockTable.searchLock_lt hFound)
      obtain ⟨hId', hThread'⟩ := (emptied_alike hId hThread).mpr (hMet idx hFound)
      rw [unlockAfter_found hFound, unlockAfter_found hFound']
      refine .some ⟨h.graph, h.slots.setSlot hId' hThread', h.offset.setSlot ?_⟩
      rw [LockSlot.emptied_degress, LockSlot.emptied_degress]
      exact h.offset idx

/-- **One call** under the condition. -/
theorem call_alike (h : Alike δ tg tg') (call : DetectorCall) (hMet : ClearsAlike tg tg' call) :
    Option.Rel (fun a b => SeenAlike call a b ∧ Alike δ a b) (call.run tg) (call.run tg') := by
  cases call with
  | hook hook =>
      have hTables : Option.Rel (fun a b => Digraph.Same a.graph b.graph ∧
          LockTable.SameSlots a.locks b.locks ∧ LockTable.Offset δ a.locks b.locks)
          (hook.run tg) (hook.run tg') := by
        cases hook with
        | lockBefore thread lock => exact lockBefore_alike h thread lock
        | lockAfter thread lock => exact lockAfter_alike h thread lock
        | unlockAfter thread lock => exact unlockAfter_alike h thread lock hMet
      refine rel_imp hTables fun a b hA _ hRel => ?_
      obtain ⟨hGraph, hSlots, hOffset⟩ := hRel
      exact ⟨⟨hSlots, fun hCheck => by simp at hCheck⟩, hook_wellFormed h.wellFormed hA, hGraph,
        hSlots, hOffset⟩
  | check =>
      have hWf' := h.graph.wellFormed h.wellFormed
      obtain ⟨search, hRun⟩ := Digraph.checkDeadLock_returns h.wellFormed tg.search
      obtain ⟨search', hRun'⟩ := Digraph.checkDeadLock_returns hWf' tg'.search
      have hVerdict : search'.deadlock = search.deadlock := by
        rw [Digraph.checkDeadLock_verdict h.wellFormed hRun,
          Digraph.checkDeadLock_verdict hWf' hRun', h.graph.meeting]
      simp only [DetectorCall.run, hRun, hRun', Option.bind_eq_bind, Option.bind_some]
      exact .some ⟨⟨h.slots, fun _ => hVerdict⟩, h.wellFormed, h.graph, h.slots, h.offset⟩

/-- Where the slots agree behind an `unlock_after`, it has met the condition. -/
theorem clearsAlike_of_seen (h : Alike δ tg tg') (call : DetectorCall)
    (hSeen : Option.Rel (SeenAlike call) (call.run tg) (call.run tg')) :
    ClearsAlike tg tg' call := by
  cases call with
  | check => trivial
  | hook hook =>
      cases hook with
      | lockBefore | lockAfter => trivial
      | unlockAfter thread lock =>
          intro idx hFound
          have hIdx := LockTable.searchLock_lt hFound
          have hFound' := (h.slots.searchLock lock).trans hFound
          obtain ⟨hId, hThread⟩ := h.slots.slots idx hIdx
          have hRun : Option.Rel (SeenAlike (.hook (.unlockAfter thread lock)))
              (tg.unlockAfter thread lock) (tg'.unlockAfter thread lock) := hSeen
          rw [unlockAfter_found hFound, unlockAfter_found hFound'] at hRun
          cases hRun with
          | some hAlike =>
              apply (emptied_alike hId hThread).mp
              simpa [LockTable.setSlot] using hAlike.1.slots idx hIdx

end Calls

/-! ## Two started detectors -/

open ConcurrentCheck (Started)

theorem alike_started {tg tg' : TaskGraph} (hStart : Started tg) (hStart' : Started tg') :
    Alike (fun i => (tg'.locks.lockList i).degress - (tg.locks.lockList i).degress) tg tg' := by
  refine ⟨Digraph.wellFormed_of_vertexNum hStart.1, ⟨hStart'.1.trans hStart.1.symm, ?_⟩,
    ⟨hStart'.2.trans hStart.2.symm, ?_⟩, fun i => by omega⟩
  · intro i hi
    rw [hStart.1] at hi
    exact absurd hi (Nat.not_lt_zero i)
  · intro i hi
    rw [hStart.2] at hi
    exact absurd hi (Nat.not_lt_zero i)

/-- **Two detectors started on different memory agree exactly if** every
`unlock_after` empties its slot in both of them or in neither. -/
theorem detectors_agree_exactly {tg tg' : TaskGraph} (hStart : Started tg)
    (hStart' : Started tg') (calls : List DetectorCall) :
    InStep DetectorCall.run DetectorCall.run SeenAlike tg tg' calls ↔
      Guarded DetectorCall.run DetectorCall.run ClearsAlike tg tg' calls :=
  inStep_iff (fun _ _ call hAlike hMet => call_alike hAlike call hMet)
    (fun _ _ call hAlike hSeen => clearsAlike_of_seen hAlike call hSeen)
    (alike_started hStart hStart')

/-- Memory in which the counters agree is enough. -/
theorem guarded_of_same_counts {tg tg' : TaskGraph} (hStart : Started tg)
    (hStart' : Started tg')
    (hCounts : ∀ i, (tg'.locks.lockList i).degress = (tg.locks.lockList i).degress)
    (calls : List DetectorCall) :
    Guarded DetectorCall.run DetectorCall.run ClearsAlike tg tg' calls := by
  have hClears : ∀ (u u' : TaskGraph) (call : DetectorCall), Alike (fun _ => 0) u u' →
      ClearsAlike u u' call := by
    intro u u' call hAlike
    cases call with
    | check => trivial
    | hook hook =>
        cases hook with
        | lockBefore | lockAfter => trivial
        | unlockAfter thread lock =>
            intro i _
            rw [hAlike.offset i, Int.add_zero]
            exact .inr Iff.rfl
  refine guarded_of_invariant (R := Alike fun _ => 0) hClears ?_ ?_
  · intro u u' call v v' hAlike hV hV'
    have hNext := call_alike hAlike call (hClears u u' call hAlike)
    rw [hV, hV'] at hNext
    cases hNext with
    | some hRel => exact hRel.2
  · have hAlike := alike_started hStart hStart'
    refine ⟨hAlike.wellFormed, hAlike.graph, hAlike.slots, fun i => ?_⟩
    rw [hCounts i, Int.add_zero]

/-- Memory behind `start_check` in which every other word holds `x`. -/
def startedOn (x : Int) : TaskGraph where
  graph := Digraph.empty fun _ => ⟨⟨7, .resource⟩, [⟨7, .process⟩]⟩
  locks :=
    { lockList _ := ⟨7, 7, x⟩
      lockNum := 0
      lockNum_le := Nat.zero_le MAX }
  search :=
    { path _ := x
      visited _ := x
      k := 7
      deadlock := x
      printed := [] }

/-- A mutex is locked and unlocked, its slot is used again, and two threads ask
for each other's mutexes. -/
def slotTwiceCalls : List DetectorCall :=
  [.hook (.lockAfter 1 7), .hook (.unlockAfter 1 7), .hook (.lockAfter 2 8),
    .hook (.lockBefore 2 7), .hook (.lockBefore 1 8), .check]

/-- Against zero-filled memory, with rubbish in everything but the counters. -/
theorem detectors_agree_exactly_zero :
    InStep DetectorCall.run DetectorCall.run SeenAlike TaskGraph.zero (startedOn 0)
      slotTwiceCalls := by
  have hZero : Started TaskGraph.zero := ⟨rfl, rfl⟩
  have hFilled : Started (startedOn 0) := ⟨rfl, rfl⟩
  exact (detectors_agree_exactly hZero hFilled slotTwiceCalls).mpr
    (guarded_of_same_counts hZero hFilled (fun _ => rfl) slotTwiceCalls)

/-- With a counter that starts at `5` the first slot is never emptied: the thread
that has long released the mutex is still recorded, and the check reports a
deadlock. -/
theorem detectors_differ :
    (∃ u u', StepSystem.run DetectorCall.run (startedOn 0) slotTwiceCalls = some u ∧
      StepSystem.run DetectorCall.run (startedOn 5) slotTwiceCalls = some u' ∧
      u.search.deadlock = 0 ∧ u'.search.deadlock = 1) ∧
    ¬ InStep DetectorCall.run DetectorCall.run SeenAlike (startedOn 0) (startedOn 5)
      slotTwiceCalls := by
  have hRun : (StepSystem.run DetectorCall.run (startedOn 0) slotTwiceCalls).map
      (fun u => u.search.deadlock) = some 0 := by decide
  have hRun' : (StepSystem.run DetectorCall.run (startedOn 5) slotTwiceCalls).map
      (fun u => u.search.deadlock) = some 1 := by decide
  obtain ⟨u, hU, hVerdict⟩ := Option.map_eq_some_iff.mp hRun
  obtain ⟨u', hU', hVerdict'⟩ := Option.map_eq_some_iff.mp hRun'
  refine ⟨⟨u, u', hU, hU', hVerdict, hVerdict'⟩, fun hStep => ?_⟩
  have hLast : slotTwiceCalls = slotTwiceCalls.dropLast ++ [.check] := rfl
  rw [hLast] at hU hU' hStep
  have hSame : u'.search.deadlock = u.search.deadlock := (hStep.obs_of_run hU hU').2 rfl
  omega

end DeadlockCheck
end LinuxCppLearn
