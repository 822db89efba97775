import LinuxCppLearn.DeadlockCheck.Digraph
import LinuxCppLearn.DeadlockCheck.CycleSearch

/-!
# The lock table and the hooks

`lock_list` maps a lock to the thread that is recorded as its owner and counts
the threads that have asked for it; a slot with `lock_id = 0` is empty.  The
hooks `lock_before`, `lock_after` and `unlock_after` each run under
`tg->mutex`.  A hook answers `none` when it indexes `vertex_list` or
`lock_list` outside the array: a new vertex or slot behind the last one, or
`lock_list[-1]` in `unlock_after`, which does not test the answer of
`search_lock`.

* `slot?` — the slot of a lock; `setSlot_slot?`, `clearSlot_slot?` and
  `occupy_slot?` say how the three writes change it.
* `lockBefore_cases`, `lockAfter_cases`, `unlockAfter_cases` — each hook, taken
  apart once.
-/

namespace LinuxCppLearn
namespace DeadlockCheck

/-- The part of `struct pair_t` that a slot of `lock_list` uses. -/
structure LockSlot where
  thId : Nat
  lockId : Nat
  /-- how many threads ask for the lock -/
  degress : Int
deriving DecidableEq, Repr

structure LockTable where
  lockList : Nat → LockSlot
  lockNum : Nat
  lockNum_le : lockNum ≤ MAX

namespace LockTable

/-- `search_lock`, `none` for `-1`. -/
def searchLock (t : LockTable) (lock : Nat) : Option Nat :=
  firstIndex t.lockNum fun i => (t.lockList i).lockId = lock

/-- `search_empty_lock` -/
def searchEmptyLock (t : LockTable) : Nat :=
  (firstIndex t.lockNum fun i => (t.lockList i).lockId = 0).getD t.lockNum

def setSlot (t : LockTable) (i : Nat) (slot : LockSlot) : LockTable :=
  { t with lockList := Function.update t.lockList i slot }

/-- The first branch of `lock_after`: the lock gets an empty slot, whose
`degress` is left as it is. -/
def occupy (t : LockTable) (thread lock : Nat) : Option LockTable :=
  let i := t.searchEmptyLock
  if hRoom : i < MAX then
    some
      { lockList := Function.update t.lockList i ⟨thread, lock, (t.lockList i).degress⟩
        lockNum := if t.lockNum ≤ i then t.lockNum + 1 else t.lockNum
        lockNum_le := by
          have hLe := t.lockNum_le
          split <;> omega }
  else none

/-- The slot a lock is recorded in. -/
def slot? (t : LockTable) (lock : Nat) : Option LockSlot :=
  (t.searchLock lock).map t.lockList

/-- No lock has two slots. -/
def WellFormed (t : LockTable) : Prop :=
  ∀ i < t.lockNum, ∀ j < t.lockNum, (t.lockList i).lockId = (t.lockList j).lockId →
    (t.lockList i).lockId ≠ 0 → i = j

variable {t : LockTable} {lock : Nat}

theorem searchLock_lt {i : Nat} (h : t.searchLock lock = some i) : i < t.lockNum :=
  (firstIndex_eq_some.mp h).1

theorem searchLock_lockId {i : Nat} (h : t.searchLock lock = some i) :
    (t.lockList i).lockId = lock := by
  simpa using (firstIndex_eq_some.mp h).2.1

theorem searchLock_eq_none : t.searchLock lock = none ↔
    ∀ i < t.lockNum, (t.lockList i).lockId ≠ lock := by
  unfold searchLock
  rw [firstIndex_eq_none]
  simp

theorem WellFormed.searchLock_eq (hWf : t.WellFormed) {i : Nat} (hLt : i < t.lockNum)
    (hId : (t.lockList i).lockId = lock) (hLock : lock ≠ 0) : t.searchLock lock = some i := by
  cases h : t.searchLock lock with
  | none => exact absurd hId (searchLock_eq_none.mp h i hLt)
  | some j =>
      have hSame : (t.lockList i).lockId = (t.lockList j).lockId := by
        rw [searchLock_lockId h, hId]
      rw [hWf i hLt j (searchLock_lt h) hSame (by rw [hId]; exact hLock)]

theorem slot?_eq_some {slot : LockSlot} :
    t.slot? lock = some slot ↔ ∃ i, t.searchLock lock = some i ∧ t.lockList i = slot := by
  unfold slot?
  rw [Option.map_eq_some_iff]

theorem slot?_eq_none : t.slot? lock = none ↔ t.searchLock lock = none := by
  unfold slot?
  rw [Option.map_eq_none_iff]

theorem searchEmptyLock_cases :
    (t.searchEmptyLock < t.lockNum ∧ (t.lockList t.searchEmptyLock).lockId = 0) ∨
      (t.searchEmptyLock = t.lockNum ∧ ∀ i < t.lockNum, (t.lockList i).lockId ≠ 0) := by
  unfold searchEmptyLock
  cases h : firstIndex t.lockNum fun i => (t.lockList i).lockId = 0 with
  | none =>
      right
      rw [firstIndex_eq_none] at h
      exact ⟨rfl, by simpa using h⟩
  | some i =>
      left
      obtain ⟨hLt, hId, -⟩ := firstIndex_eq_some.mp h
      exact ⟨hLt, by simpa using hId⟩

/-! ## The three writes -/

/-- Rewriting the slot of a lock without changing its id. -/
theorem setSlot_slot? (hWf : t.WellFormed) {i : Nat} {slot : LockSlot}
    (hFound : t.searchLock lock = some i) (hId : slot.lockId = lock) :
    (t.setSlot i slot).WellFormed ∧
      ∀ other, (t.setSlot i slot).slot? other = if other = lock then some slot else t.slot? other := by
  have hIds : ∀ j, ((t.setSlot i slot).lockList j).lockId = (t.lockList j).lockId := by
    intro j
    simp only [setSlot]
    by_cases hEq : j = i
    · subst hEq
      rw [Function.update_self, hId, searchLock_lockId hFound]
    · rw [Function.update_of_ne hEq]
  have hSearch : ∀ other, (t.setSlot i slot).searchLock other = t.searchLock other := by
    intro other
    unfold searchLock
    simp only [hIds]
    rfl
  constructor
  · intro j hj k hk hSame hNe
    rw [hIds, hIds] at hSame
    rw [hIds] at hNe
    exact hWf j hj k hk hSame hNe
  · intro other
    unfold slot?
    rw [hSearch]
    by_cases hEq : other = lock
    · subst hEq
      simp [hFound, setSlot]
    · rw [if_neg hEq]
      cases h : t.searchLock other with
      | none => rfl
      | some j =>
          have hNe : j ≠ i := by
            rintro rfl
            exact hEq ((searchLock_lockId h).symm.trans (searchLock_lockId hFound))
          simp [setSlot, Function.update_of_ne hNe]

/-- `t'` is `t` with the slot at `e` written, which may be the first free one. -/
structure Writes (t t' : LockTable) (e : Nat) : Prop where
  other : ∀ j ≠ e, t'.lockList j = t.lockList j
  grows : t.lockNum ≤ t'.lockNum
  inside : ∀ j < t'.lockNum, j ≠ e → j < t.lockNum

namespace Writes

variable {t' : LockTable} {e : Nat}

/-- The lock written, if any, must not be recorded in another slot. -/
theorem wellFormed (h : Writes t t' e) (hWf : t.WellFormed)
    (hNew : (t'.lockList e).lockId ≠ 0 → ∀ j < t.lockNum, j ≠ e →
      (t.lockList j).lockId ≠ (t'.lockList e).lockId) : t'.WellFormed := by
  intro j hj k hk hSame hNe
  by_cases hje : j = e
  · by_cases hke : k = e
    · omega
    · subst hje
      rw [h.other k hke] at hSame
      exact absurd hSame.symm (hNew hNe k (h.inside k hk hke) hke)
  · by_cases hke : k = e
    · subst hke
      rw [hSame] at hNe
      rw [h.other j hje] at hSame
      exact absurd hSame (hNew hNe j (h.inside j hj hje) hje)
    · rw [h.other j hje, h.other k hke] at hSame
      rw [h.other j hje] at hNe
      exact hWf j (h.inside j hj hje) k (h.inside k hk hke) hSame hNe

/-- The slot of a lock that is neither overwritten nor written. -/
theorem slot?_other (h : Writes t t' e) (hWf' : t'.WellFormed) {other : Nat}
    (hNonzero : other ≠ 0) (hNew : (t'.lockList e).lockId ≠ other)
    (hOld : e < t.lockNum → (t.lockList e).lockId ≠ other) : t'.slot? other = t.slot? other := by
  cases hSearch : t.searchLock other with
  | none =>
      rw [slot?_eq_none.mpr hSearch, slot?_eq_none, searchLock_eq_none]
      intro j hj hSame
      by_cases hje : j = e
      · subst hje
        exact hNew hSame
      · rw [h.other j hje] at hSame
        exact searchLock_eq_none.mp hSearch j (h.inside j hj hje) hSame
  | some j =>
      have hj := searchLock_lt hSearch
      have hId := searchLock_lockId hSearch
      have hje : j ≠ e := by
        rintro rfl
        exact hOld hj hId
      have hStill : t'.searchLock other = some j :=
        hWf'.searchLock_eq (Nat.lt_of_lt_of_le hj h.grows) (by rw [h.other j hje]; exact hId)
          hNonzero
      rw [slot?_eq_some.mpr ⟨j, hSearch, rfl⟩, slot?_eq_some.mpr ⟨j, hStill, h.other j hje⟩]

end Writes

/-- Emptying the slot of a lock. -/
theorem clearSlot_slot? (hWf : t.WellFormed) {i : Nat} {slot : LockSlot}
    (hFound : t.searchLock lock = some i) (hLock : lock ≠ 0) (hId : slot.lockId = 0) :
    (t.setSlot i slot).WellFormed ∧ ∀ other ≠ 0,
      (t.setSlot i slot).slot? other = if other = lock then none else t.slot? other := by
  have hWrites : Writes t (t.setSlot i slot) i := by
    refine ⟨?_, Nat.le_refl _, fun j hj _ => hj⟩
    intro j hNe
    simp [setSlot, Function.update_of_ne hNe]
  have hSelf : ((t.setSlot i slot).lockList i).lockId = 0 := by simp [setSlot, hId]
  have hWf' := hWrites.wellFormed hWf fun hNonzero => absurd hSelf hNonzero
  refine ⟨hWf', fun other hNonzero => ?_⟩
  by_cases hEq : other = lock
  · subst hEq
    rw [if_pos rfl, slot?_eq_none, searchLock_eq_none]
    intro j hj hSame
    by_cases hji : j = i
    · subst hji
      exact hNonzero (hSame.symm.trans hSelf)
    -- the lock had no second slot
    · rw [hWrites.other j hji] at hSame
      have hFirst := hWf.searchLock_eq (hWrites.inside j hj hji) hSame hNonzero
      rw [hFound, Option.some.injEq] at hFirst
      exact hji hFirst.symm
  · rw [if_neg hEq]
    apply hWrites.slot?_other hWf' hNonzero
    · rw [hSelf]
      exact hNonzero.symm
    · intro _
      rw [searchLock_lockId hFound]
      exact Ne.symm hEq

theorem occupy_eq_none {thread : Nat} :
    t.occupy thread lock = none ↔ t.searchEmptyLock = MAX := by
  have hLe := t.lockNum_le
  have hCases := t.searchEmptyLock_cases
  unfold occupy
  by_cases hRoom : t.searchEmptyLock < MAX
  · simp only [hRoom, dite_true]
    simp
    omega
  · simp only [hRoom, dite_false]
    simp
    omega

/-- Giving an unrecorded lock a slot. -/
theorem occupy_slot? (hWf : t.WellFormed) {thread : Nat} {t' : LockTable}
    (hNew : t.searchLock lock = none) (hLock : lock ≠ 0)
    (h : t.occupy thread lock = some t') :
    t'.WellFormed ∧
      (∀ other ≠ 0, t'.slot? other =
        if other = lock then some ⟨thread, lock, (t.lockList t.searchEmptyLock).degress⟩
        else t.slot? other) ∧
      t'.lockList = Function.update t.lockList t.searchEmptyLock
        ⟨thread, lock, (t.lockList t.searchEmptyLock).degress⟩ ∧
      t.lockNum ≤ t'.lockNum ∧ t.searchEmptyLock < t'.lockNum := by
  set e := t.searchEmptyLock with he
  have hCases := t.searchEmptyLock_cases
  rw [← he] at hCases
  unfold occupy at h
  simp only [← he] at h
  split at h
  · simp only [Option.some.injEq] at h
    have hList : t'.lockList = Function.update t.lockList e
        ⟨thread, lock, (t.lockList e).degress⟩ := by rw [← h]
    have hNum : t'.lockNum = if t.lockNum ≤ e then t.lockNum + 1 else t.lockNum := by rw [← h]
    have hIn : e < t'.lockNum := by
      rw [hNum]
      split <;> omega
    have hWrites : Writes t t' e := by
      refine ⟨?_, ?_, ?_⟩
      · intro j hNe
        rw [hList, Function.update_of_ne hNe]
      · rw [hNum]
        split <;> omega
      · intro j hj hNe
        rw [hNum] at hj
        split at hj <;> omega
    have hSelf : t'.lockList e = ⟨thread, lock, (t.lockList e).degress⟩ := by
      rw [hList, Function.update_self]
    have hWf' : t'.WellFormed := by
      apply hWrites.wellFormed hWf
      intro _ j hj _
      rw [hSelf]
      exact searchLock_eq_none.mp hNew j hj
    refine ⟨hWf', fun other hNonzero => ?_, hList, hWrites.grows, hIn⟩
    by_cases hEq : other = lock
    · subst hEq
      rw [if_pos rfl, slot?_eq_some]
      exact ⟨e, hWf'.searchLock_eq hIn (by rw [hSelf]) hNonzero, hSelf⟩
    · rw [if_neg hEq]
      apply hWrites.slot?_other hWf' hNonzero
      · rw [hSelf]
        exact Ne.symm hEq
      -- a slot below `lock_num` is only taken when it is empty
      · intro hLt
        rcases hCases with ⟨-, hEmpty⟩ | ⟨hEnd, -⟩
        · rw [hEmpty]
          exact hNonzero.symm
        · omega
  · simp at h

end LockTable

/-- `struct task_graph` -/
structure TaskGraph where
  graph : Digraph
  locks : LockTable
  search : Search

/-- A pair of type `PROCESS`. -/
def process (thread : Nat) : Pair :=
  ⟨thread, .process⟩

namespace TaskGraph

open LinuxCppLearn.DeadlockCheck.Digraph LockTable

/-- `if (!verify_edge(u, v)) add_edge(u, v);` -/
def addMissingEdge (g : Digraph) (u v : Pair) : Option Digraph :=
  if g.verifyEdge u v then some g else g.addEdge u v

/-- `lock_before` -/
def lockBefore (tg : TaskGraph) (thread lock : Nat) : Option TaskGraph :=
  match tg.locks.searchLock lock with
  -- the first request for a lock leaves no trace
  | none => some tg
  | some idx => do
      let slot := tg.locks.lockList idx
      let u := process thread
      let v := process slot.thId
      let g ← tg.graph.addVertex u
      let g ← g.addVertex v
      let g ← addMissingEdge g u v
      some { tg with
        graph := g
        locks := tg.locks.setSlot idx { slot with degress := slot.degress + 1 } }

/-- `lock_after` -/
def lockAfter (tg : TaskGraph) (thread lock : Nat) : Option TaskGraph :=
  match tg.locks.searchLock lock with
  | none => do
      let locks ← tg.locks.occupy thread lock
      some { tg with locks := locks }
  | some idx =>
      let slot := tg.locks.lockList idx
      let u := process thread
      let v := process slot.thId
      let g := if tg.graph.verifyEdge u v then tg.graph.removeEdge u v else tg.graph
      some { tg with
        graph := g
        locks := tg.locks.setSlot idx
          { slot with thId := thread, degress := slot.degress - 1 } }

/-- `unlock_after`; `none` when it reads `lock_list[-1]`. -/
def unlockAfter (tg : TaskGraph) (_thread lock : Nat) : Option TaskGraph :=
  match tg.locks.searchLock lock with
  | none => none
  | some idx =>
      let slot := tg.locks.lockList idx
      if slot.degress = 0 then
        some { tg with locks := tg.locks.setSlot idx { slot with thId := 0, lockId := 0 } }
      else some tg

structure WellFormed (tg : TaskGraph) : Prop where
  graph : tg.graph.WellFormed
  locks : tg.locks.WellFormed

variable {tg tg' : TaskGraph} {thread lock : Nat}

/-- Edges from a pair to a thread, as `verify_edge` sees them. -/
def Asks (tg : TaskGraph) (thread owner : Nat) : Prop :=
  thread = owner ∨ ∃ q ∈ tg.graph.succ (process thread), q.thId = owner

/-- What `lock_before` does for a recorded lock. -/
structure RecordRequest (tg : TaskGraph) (thread lock : Nat) (slot : LockSlot)
    (tg' : TaskGraph) : Prop where
  wellFormed : tg'.WellFormed
  slots : ∀ other, tg'.locks.slot? other =
    if other = lock then some { slot with degress := slot.degress + 1 }
    else tg.locks.slot? other
  table : ∃ idx, tg.locks.searchLock lock = some idx ∧ tg.locks.lockList idx = slot ∧
    tg'.locks = tg.locks.setSlot idx { slot with degress := slot.degress + 1 }
  vertex : ∀ q, tg'.graph.IsVertex q ↔
    tg.graph.IsVertex q ∨ q = process thread ∨ q = process slot.thId
  edge_old : tg.Asks thread slot.thId → ∀ q, tg'.graph.succ q = tg.graph.succ q
  edge_new : ¬ tg.Asks thread slot.thId → ∀ q, tg'.graph.succ q =
    if q = process thread then tg.graph.succ q ++ [process slot.thId] else tg.graph.succ q

theorem lockBefore_cases (hWf : tg.WellFormed) (h : tg.lockBefore thread lock = some tg') :
    (tg.locks.slot? lock = none ∧ tg' = tg) ∨
      ∃ slot, tg.locks.slot? lock = some slot ∧ tg.RecordRequest thread lock slot tg' := by
  unfold lockBefore at h
  cases hFound : tg.locks.searchLock lock with
  | none =>
      simp only [hFound, Option.some.injEq] at h
      exact .inl ⟨slot?_eq_none.mpr hFound, h.symm⟩
  | some idx =>
      right
      simp only [hFound, Option.bind_eq_bind, Option.bind_eq_some_iff] at h
      obtain ⟨g₁, hU, g₂, hV, g₃, hEdge, hSet⟩ := h
      unfold addMissingEdge at hEdge
      set slot := tg.locks.lockList idx with hSlot
      obtain ⟨hWf₁, hSucc₁, hVertex₁⟩ := addVertex_spec hWf.graph hU
      obtain ⟨hWf₂, hSucc₂, hVertex₂⟩ := addVertex_spec hWf₁ hV
      -- the two new vertices have no edges, so the test sees the old ones
      have hAsks : g₂.verifyEdge (process thread) (process slot.thId) = true ↔
          tg.Asks thread slot.thId := by
        rw [verifyEdge_eq_true, hSucc₂, hSucc₁, hVertex₂, hVertex₁]
        unfold Asks process
        simp
      have hId : slot.lockId = lock := searchLock_lockId hFound
      obtain ⟨hWfLocks, hSlots⟩ := setSlot_slot? hWf.locks hFound
        (show ({ slot with degress := slot.degress + 1 } : LockSlot).lockId = lock from hId)
      simp only [Option.some.injEq] at hSet
      refine ⟨slot, slot?_eq_some.mpr ⟨idx, hFound, rfl⟩, ?_⟩
      by_cases hOld : tg.Asks thread slot.thId
      · rw [if_pos (hAsks.mpr hOld), Option.some.injEq] at hEdge
        subst hEdge hSet
        refine ⟨⟨hWf₂, hWfLocks⟩, hSlots, ⟨idx, hFound, rfl, rfl⟩, ?_, ?_, ?_⟩
        · intro q
          rw [hVertex₂, hVertex₁, or_assoc]
        · intro _ q
          rw [hSucc₂, hSucc₁]
        · intro hNew
          exact absurd hOld hNew
      · have hVerify : ¬ g₂.verifyEdge (process thread) (process slot.thId) = true := by
          rw [hAsks]
          exact hOld
        rw [if_neg hVerify] at hEdge
        obtain ⟨hWf₃, hSucc₃, hVertex₃⟩ := addEdge_spec hWf₂ hEdge
        subst hSet
        refine ⟨⟨hWf₃, hWfLocks⟩, hSlots, ⟨idx, hFound, rfl, rfl⟩, ?_, ?_, ?_⟩
        · intro q
          rw [hVertex₃, hVertex₂, hVertex₁]
          constructor
          · rintro (((hq | hq) | hq) | hq | hq)
            · exact .inl hq
            · exact .inr (.inl hq)
            · exact .inr (.inr hq)
            · exact .inr (.inl hq)
            · exact .inr (.inr hq)
          · rintro (hq | hq | hq)
            · exact .inl (.inl (.inl hq))
            · exact .inr (.inl hq)
            · exact .inr (.inr hq)
        · intro hAsk
          exact absurd hAsk hOld
        · intro _ q
          rw [hSucc₃]
          by_cases hq : q = process thread
          · subst hq
            rw [if_pos rfl, if_pos rfl, hSucc₂, hSucc₁]
          · rw [if_neg hq, if_neg hq, hSucc₂, hSucc₁]

/-- What `lock_after` does for a lock without a slot. -/
structure TakeSlot (tg : TaskGraph) (thread lock : Nat) (tg' : TaskGraph) : Prop where
  wellFormed : tg'.WellFormed
  slots : ∀ other ≠ 0, tg'.locks.slot? other =
    if other = lock then
      some ⟨thread, lock, (tg.locks.lockList tg.locks.searchEmptyLock).degress⟩
    else tg.locks.slot? other
  table : tg'.locks.lockList = Function.update tg.locks.lockList tg.locks.searchEmptyLock
    ⟨thread, lock, (tg.locks.lockList tg.locks.searchEmptyLock).degress⟩
  num : tg.locks.lockNum ≤ tg'.locks.lockNum ∧ tg.locks.searchEmptyLock < tg'.locks.lockNum
  graph : tg'.graph = tg.graph

/-- What `lock_after` does for a recorded lock. -/
structure ChangeOwner (tg : TaskGraph) (thread lock : Nat) (slot : LockSlot)
    (tg' : TaskGraph) : Prop where
  wellFormed : tg'.WellFormed
  slots : ∀ other, tg'.locks.slot? other =
    if other = lock then some { slot with thId := thread, degress := slot.degress - 1 }
    else tg.locks.slot? other
  table : ∃ idx, tg.locks.searchLock lock = some idx ∧ tg.locks.lockList idx = slot ∧
    tg'.locks = tg.locks.setSlot idx { slot with thId := thread, degress := slot.degress - 1 }
  vertex : ∀ q, tg'.graph.IsVertex q ↔ tg.graph.IsVertex q
  edge : ∀ q, tg'.graph.succ q =
    if q = process thread ∧ tg.graph.IsVertex (process slot.thId) then
      (tg.graph.succ q).eraseP fun p => p.thId = slot.thId
    else tg.graph.succ q

theorem lockAfter_cases (hWf : tg.WellFormed) (hLock : lock ≠ 0)
    (h : tg.lockAfter thread lock = some tg') :
    (tg.locks.slot? lock = none ∧ tg.TakeSlot thread lock tg') ∨
      ∃ slot, tg.locks.slot? lock = some slot ∧ tg.ChangeOwner thread lock slot tg' := by
  unfold lockAfter at h
  cases hFound : tg.locks.searchLock lock with
  | none =>
      left
      simp only [hFound, Option.bind_eq_bind, Option.bind_eq_some_iff, Option.some.injEq] at h
      obtain ⟨locks, hOccupy, rfl⟩ := h
      obtain ⟨hWf', hSlots, hList, hNum⟩ := occupy_slot? hWf.locks hFound hLock hOccupy
      exact ⟨slot?_eq_none.mpr hFound, ⟨hWf.graph, hWf'⟩, hSlots, hList, hNum, rfl⟩
  | some idx =>
      right
      simp only [hFound, Option.some.injEq] at h
      set slot := tg.locks.lockList idx with hSlot
      -- only `th_id` and `degress` are written, so the slot stays where it is
      have hId : slot.lockId = lock := searchLock_lockId hFound
      obtain ⟨hWfLocks, hSlots⟩ := setSlot_slot? hWf.locks hFound
        (show ({ slot with thId := thread, degress := slot.degress - 1 } : LockSlot).lockId = lock
          from hId)
      refine ⟨slot, slot?_eq_some.mpr ⟨idx, hFound, rfl⟩, ?_⟩
      subst h
      by_cases hV : tg.graph.IsVertex (process slot.thId)
      · obtain ⟨hWf', hSucc, hVertex⟩ := removeVerified_spec hWf.graph hV rfl
        refine ⟨⟨hWf', hWfLocks⟩, hSlots, ⟨idx, hFound, rfl, rfl⟩, hVertex, ?_⟩
        intro q
        simp only [hV, and_true]
        exact hSucc q
      -- `remove_edge` does not find the old owner
      · have hGraph : (if tg.graph.verifyEdge (process thread) (process slot.thId) then
            tg.graph.removeEdge (process thread) (process slot.thId) else tg.graph) =
              tg.graph := by
          rw [removeEdge_of_not_isVertex hV, ite_self]
        refine ⟨⟨by simpa [hGraph] using hWf.graph, hWfLocks⟩, hSlots, ⟨idx, hFound, rfl, rfl⟩,
          ?_, ?_⟩
        · intro q
          simp only [hGraph]
        · intro q
          simp only [hGraph, hV, and_false, if_false]

/-- What `unlock_after` does when nobody asks for the lock. -/
structure ClearSlot (tg : TaskGraph) (lock : Nat) (slot : LockSlot) (tg' : TaskGraph) :
    Prop where
  wellFormed : tg'.WellFormed
  slots : ∀ other ≠ 0, tg'.locks.slot? other =
    if other = lock then none else tg.locks.slot? other
  table : ∃ idx, tg.locks.searchLock lock = some idx ∧ tg.locks.lockList idx = slot ∧
    tg'.locks = tg.locks.setSlot idx { slot with thId := 0, lockId := 0 }
  graph : tg'.graph = tg.graph

theorem unlockAfter_cases (hWf : tg.WellFormed) (hLock : lock ≠ 0)
    (h : tg.unlockAfter thread lock = some tg') :
    ∃ slot, tg.locks.slot? lock = some slot ∧
      ((slot.degress ≠ 0 ∧ tg' = tg) ∨ (slot.degress = 0 ∧ tg.ClearSlot lock slot tg')) := by
  unfold unlockAfter at h
  cases hFound : tg.locks.searchLock lock with
  | none => simp [hFound] at h
  | some idx =>
      simp only [hFound] at h
      refine ⟨tg.locks.lockList idx, slot?_eq_some.mpr ⟨idx, hFound, rfl⟩, ?_⟩
      split at h
      · rename_i hZero
        right
        simp only [Option.some.injEq] at h
        subst h
        obtain ⟨hWf', hSlots⟩ := clearSlot_slot? hWf.locks hFound hLock
          (show ({ tg.locks.lockList idx with thId := 0, lockId := 0 } : LockSlot).lockId = 0
            from rfl)
        exact ⟨hZero, ⟨hWf.graph, hWf'⟩, hSlots, ⟨idx, hFound, rfl, rfl⟩, rfl⟩
      · rename_i hNonzero
        simp only [Option.some.injEq] at h
        exact .inl ⟨hNonzero, h.symm⟩

theorem lockBefore_extends (h : tg.lockBefore thread lock = some tg') :
    Extends tg.graph tg'.graph := by
  unfold lockBefore at h
  cases hFound : tg.locks.searchLock lock with
  | none =>
      simp only [hFound, Option.some.injEq] at h
      exact h ▸ .refl _
  | some idx =>
      simp only [hFound, Option.bind_eq_bind, Option.bind_eq_some_iff, Option.some.injEq] at h
      obtain ⟨g₁, hU, g₂, hV, g₃, hEdge, rfl⟩ := h
      have hVertices := (addVertex_extends hU).trans (addVertex_extends hV)
      unfold addMissingEdge at hEdge
      split at hEdge
      · exact Option.some.inj hEdge ▸ hVertices
      · exact hVertices.trans (addEdge_extends hEdge)

theorem lockAfter_extends (h : tg.lockAfter thread lock = some tg') :
    Extends tg.graph tg'.graph := by
  unfold lockAfter at h
  cases hFound : tg.locks.searchLock lock with
  | none =>
      simp only [hFound, Option.bind_eq_bind, Option.bind_eq_some_iff, Option.some.injEq] at h
      obtain ⟨locks, -, rfl⟩ := h
      exact .refl _
  | some idx =>
      simp only [hFound, Option.some.injEq] at h
      subst h
      simp only
      split
      · exact removeEdge_extends _ _ _
      · exact .refl _

theorem unlockAfter_graph (h : tg.unlockAfter thread lock = some tg') :
    tg'.graph = tg.graph := by
  unfold unlockAfter at h
  split at h
  · simp at h
  · simp only at h
    split at h <;> exact Option.some.inj h ▸ rfl

/-- The hooks leave the state of the search alone. -/
theorem lockBefore_search (h : tg.lockBefore thread lock = some tg') :
    tg'.search = tg.search := by
  unfold lockBefore at h
  split at h
  · exact Option.some.inj h ▸ rfl
  · simp only [Option.bind_eq_bind, Option.bind_eq_some_iff, Option.some.injEq] at h
    obtain ⟨-, -, -, -, -, -, rfl⟩ := h
    rfl

theorem lockAfter_search (h : tg.lockAfter thread lock = some tg') :
    tg'.search = tg.search := by
  unfold lockAfter at h
  split at h
  · simp only [Option.bind_eq_bind, Option.bind_eq_some_iff, Option.some.injEq] at h
    obtain ⟨-, -, rfl⟩ := h
    rfl
  · exact Option.some.inj h ▸ rfl

theorem unlockAfter_search (h : tg.unlockAfter thread lock = some tg') :
    tg'.search = tg.search := by
  unfold unlockAfter at h
  split at h
  · simp at h
  · simp only at h
    split at h <;> exact Option.some.inj h ▸ rfl

end TaskGraph

end DeadlockCheck
end LinuxCppLearn
