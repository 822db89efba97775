import LinuxCppLearn.DeadlockCheck.Ownership
import LinuxCppLearn.DeadlockCheck.WaitFor

/-!
# The count of those who ask

`lock_before` counts its thread in the slot of the mutex, if there is one, and
`lock_after` counts it out of the slot, if there is one then.  A thread that has
asked before the slot was there is never counted in, and counted out later.

* `CountsWaiters` — `degress` is the number of threads that ask.
* `SlotForOnlyAsker` — a slot is taken while nobody else asks for its mutex.
* `degress_counts_waiters_exactly` — a run has the first in all of its states if
  and only if it has the second in all of its steps.
-/

namespace LinuxCppLearn
namespace DeadlockCheck

open StepSystem TaskGraph

/-- For every slot in use, `degress` is the number of threads between their
`lock_before` for the mutex and their `lock_after`. -/
def CountsWaiters (sc : Scope) (s : State) : Prop :=
  ∀ i < s.tg.locks.lockNum, (s.tg.locks.lockList i).lockId ≠ 0 →
    0 ≤ (s.tg.locks.lockList i).degress ∧
      (s.tg.locks.lockList i).degress =
        (askers sc s.pc (s.tg.locks.lockList i).lockId).card

instance (sc : Scope) (s : State) : Decidable (CountsWaiters sc s) :=
  inferInstanceAs (Decidable (∀ i < s.tg.locks.lockNum, _ → _))

/-- `lock_after` takes a slot for its mutex only while no other thread asks for
it. -/
def SlotForOnlyAsker (sc : Scope) (s : State) : Action → Prop
  | .lockAfter thread lock =>
      s.tg.locks.slot? lock = none →
        ∀ other ∈ sc.threads, other ≠ thread → (s.pc other).asks ≠ some lock
  | _ => True

instance (sc : Scope) (s : State) (a : Action) : Decidable (SlotForOnlyAsker sc s a) := by
  induction a using Action.casesOn <;> unfold SlotForOnlyAsker <;> infer_instance

section Steps

variable {sc : Scope} {s s' : State} {a : Action} {thread lock : Nat}

theorem CountInv.countsWaiters (h : CountInv sc s) (hWf : s.tg.locks.WellFormed) :
    CountsWaiters sc s := by
  intro i hi hLock
  have hSearch := hWf.searchLock_eq hi rfl hLock
  have hCount := h.count _ hLock _ (LockTable.slot?_eq_some.mpr ⟨i, hSearch, rfl⟩)
  rw [hCount]
  exact ⟨Int.natCast_nonneg _, rfl⟩

theorem CountsWaiters.count (h : CountsWaiters sc s) (hLock : lock ≠ 0) {slot : LockSlot}
    (hSlot : s.tg.locks.slot? lock = some slot) :
    slot.degress = (askers sc s.pc lock).card := by
  obtain ⟨i, hSearch, rfl⟩ := LockTable.slot?_eq_some.mp hSlot
  have hId := LockTable.searchLock_lockId hSearch
  have hCount := h i (LockTable.searchLock_lt hSearch) (by rw [hId]; exact hLock)
  rw [hId] at hCount
  exact hCount.2

theorem countInv_move (hCons : Consistent sc s) (h : CountInv sc s)
    (hMet : SlotForOnlyAsker sc s a) (hMove : Move sc s a s') : CountInv sc s' := by
  cases hMove with
  | requestNew _ _ hPc hSlot => exact h.requestNew hPc hSlot
  | requestOld hThread hLock hPc hSlot hRecord =>
      exact h.requestOld hThread (Scope.lock_ne hLock) hPc hSlot hRecord
  | acquire hPc _ => exact h.setPc (by rw [hPc]; rfl)
  | @takeSlot thread lock tg hPc hSlot hTake =>
      have hLock := Scope.lock_ne (hCons.pc_scope thread lock (by rw [hPc]; rfl)).2
      refine h.takeSlot hLock hPc hTake fun other hNe hAsks => ?_
      exact hMet hSlot other (hCons.pc_scope other lock (asks_lock hAsks)).1 hNe hAsks
  | changeOwner hPc hSlot hChange => exact h.changeOwner hCons hPc hSlot hChange
  | release hPc _ => exact h.setPc (by rw [hPc]; rfl)
  | keepSlot hPc _ _ => exact h.setPc (by rw [hPc]; rfl)
  | clearSlot hPc _ hCount hClear => exact h.clearSlot hPc hCount hClear
  | check search _ => exact ⟨h.count, h.clean⟩

/-- A slot taken while another thread asks does not count that thread. -/
theorem slotForOnlyAsker_of_counts (hCons : Consistent sc s) (h : CountInv sc s)
    (h' : CountsWaiters sc s') (hMove : Move sc s a s') : SlotForOnlyAsker sc s a := by
  cases hMove with
  | @takeSlot thread lock tg hPc hSlot hTake =>
      intro _ other hThread hNe hAsks
      have hLock : lock ≠ 0 := Scope.lock_ne (hCons.pc_scope thread lock (by rw [hPc]; rfl)).2
      have hNew : tg.locks.slot? lock =
          some ⟨thread, lock, (s.tg.locks.lockList s.tg.locks.searchEmptyLock).degress⟩ := by
        rw [hTake.slots lock hLock, if_pos rfl]
      have hCount := h'.count hLock hNew
      change (s.tg.locks.lockList s.tg.locks.searchEmptyLock).degress =
        (askers sc (Function.update s.pc thread .run) lock).card at hCount
      rw [h.clean.empty_zero] at hCount
      have hMem : other ∈ askers sc (Function.update s.pc thread .run) lock := by
        rw [mem_askers, Function.update_of_ne hNe]
        exact ⟨hThread, hAsks⟩
      have hPos := Finset.card_pos.mpr ⟨other, hMem⟩
      omega
  | @changeOwner thread lock slot tg hPc hSlot hChange =>
      intro hNone
      rw [hSlot] at hNone
      simp at hNone
  | requestNew | requestOld | acquire | release | keepSlot | clearSlot | check => trivial

end Steps

theorem countInv_init (sc : Scope) : CountInv sc init :=
  (waitInv_init sc).counts

/-- **`degress` counts the waiters** in all states of a run exactly if every slot
is taken while nobody else asks for its mutex. -/
theorem degress_counts_waiters_exactly (sc : Scope) (as : List Action) :
    AlongRun (step sc) (fun _ _ s' => CountsWaiters sc s') init as ↔
      AlongRun (step sc) (fun s a _ => SlotForOnlyAsker sc s a) init as := by
  have hStep : ∀ s a s', Consistent sc s ∧ CountInv sc s → step sc s a = some s' →
      (CountsWaiters sc s' ↔ SlotForOnlyAsker sc s a) ∧
        (SlotForOnlyAsker sc s a → Consistent sc s' ∧ CountInv sc s') := by
    rintro s a s' ⟨hCons, hInv⟩ hStep
    have hMove := step_move hCons hStep
    have hCons' := consistent_move hCons hMove
    have hKeeps : SlotForOnlyAsker sc s a → CountInv sc s' := fun hMet =>
      countInv_move hCons hInv hMet hMove
    refine ⟨⟨fun h' => slotForOnlyAsker_of_counts hCons hInv h' hMove, fun hMet => ?_⟩,
      fun hMet => ⟨hCons', hKeeps hMet⟩⟩
    exact (hKeeps hMet).countsWaiters hCons'.wellFormed.locks
  exact alongRun_iff hStep ⟨consistent_init sc, countInv_init sc⟩

/-- The second thread asks before there is a slot; when it has taken the mutex
behind the first one, the slot has counted it out, but not in. -/
def uncountedTrace : List Action :=
  [.lockBefore 2 1] ++ lockCall 1 1 ++ [.release 1 1, .acquire 2 1, .lockAfter 2 1]

theorem waiter_not_counted :
    ∃ s, Reachable (step twoThreads) init s ∧ s.tg.locks.slot? 1 = some ⟨2, 1, -1⟩ ∧
      askers twoThreads s.pc 1 = ∅ ∧ ¬ CountsWaiters twoThreads s := by
  have hRun : (run (step twoThreads) init uncountedTrace).map (fun s =>
      decide (s.tg.locks.slot? 1 = some ⟨2, 1, -1⟩ ∧ askers twoThreads s.pc 1 = ∅ ∧
        ¬ CountsWaiters twoThreads s)) = some true := by decide
  obtain ⟨s, hReach, hTest⟩ := exists_reachable_of_run hRun
  exact ⟨s, hReach, of_decide_eq_true hTest⟩

end DeadlockCheck
end LinuxCppLearn
