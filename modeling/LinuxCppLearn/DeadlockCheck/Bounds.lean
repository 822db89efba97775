import LinuxCppLearn.DeadlockCheck.Interleaving
import LinuxCppLearn.DeadlockCheck.Ownership

/-!
# The indices of the hooks

`vertex_list` and `lock_list` have `MAX` entries, vertices are never removed,
and `unlock_after` indexes with the answer of `search_lock` without testing it
for `-1`.

* `IndexGuard` — what keeps the indices in range: room for the vertices and
  the slot that a hook is about to add, and no `unlock_after` that empties a
  slot which another releasing or holding thread will still look for.
* `SlotInv` — under the guard every releasing thread and every holder behind
  its `lock_after` has a slot.
* `effect_ne_none` — no enabled step then leaves the arrays.
* `lockBefore_overflows`, `lockAfter_overflows`, `second_unlock_misses` — each
  part of the guard is needed.
* `lockBefore_room`, `lockAfter_room` — a program with at most `MAX` threads and
  mutexes always has room.
-/

namespace LinuxCppLearn
namespace DeadlockCheck

open StepSystem TaskGraph LinuxCppLearn.DeadlockCheck.Digraph LockTable

/-- How many vertices `lock_before` adds for a thread and a recorded owner. -/
def newVertices (g : Digraph) (thread owner : Nat) : Nat :=
  (if g.IsVertex (process thread) then 0 else 1) +
    if g.IsVertex (process owner) ∨ owner = thread then 0 else 1

/-- The indices of the next hook are in range, and the slot it empties is not
needed any more. -/
def IndexGuard (sc : Scope) (s : State) : Action → Prop
  | .lockBefore thread lock =>
      ∀ slot ∈ s.tg.locks.slot? lock,
        s.tg.graph.vertexNum + newVertices s.tg.graph thread slot.thId ≤ MAX
  | .lockAfter _ lock =>
      s.tg.locks.slot? lock = none → s.tg.locks.searchEmptyLock < MAX
  | .unlockAfter thread lock =>
      ∀ slot ∈ s.tg.locks.slot? lock, slot.degress = 0 →
        (∀ other ∈ sc.threads, other ≠ thread → s.pc other ≠ .released lock) ∧
          ∀ holder ∈ s.owner lock, s.pc holder = .acquired lock
  | _ => True

instance (sc : Scope) (s : State) (a : Action) : Decidable (IndexGuard sc s a) := by
  induction a using Action.casesOn <;> unfold IndexGuard <;> infer_instance

/-- Whoever will run `unlock_after` finds a slot. -/
structure SlotInv (s : State) : Prop where
  released : ∀ thread lock, s.pc thread = .released lock → s.tg.locks.slot? lock ≠ none
  held : ∀ thread lock, s.owner lock = some thread → s.pc thread ≠ .acquired lock →
    s.tg.locks.slot? lock ≠ none

/-! ## The vertices -/

theorem addVertex_num {g g' : Digraph} {p : Pair} (h : g.addVertex p = some g') :
    g'.vertexNum = g.vertexNum + if g.IsVertex p then 0 else 1 := by
  rcases addVertex_cases h with ⟨hOld, rfl⟩ | ⟨hNew, -, hNum, -⟩
  · rw [if_pos hOld]
    omega
  · rw [if_neg hNew, hNum]

/-- An edge between two vertices always finds its slot. -/
theorem addMissingEdge_returns {g : Digraph} {u v : Pair} (hU : g.IsVertex u)
    (hV : g.IsVertex v) : addMissingEdge g u v ≠ none := by
  have hAdd : ∀ p, g.IsVertex p → g.addVertex p = some g := by
    intro p hp
    obtain ⟨i, hFound⟩ := Option.ne_none_iff_exists'.mp hp
    simp [addVertex, hFound]
  obtain ⟨i, hFound⟩ := Option.ne_none_iff_exists'.mp hU
  unfold addMissingEdge
  split
  · simp
  · simp [addEdge, hAdd u hU, hAdd v hV, hFound]

/-- **`lock_before` leaves `vertex_list`** exactly when the new vertices do not
fit. -/
theorem lockBefore_eq_none {tg : TaskGraph} {thread lock : Nat} (hWf : tg.WellFormed) :
    tg.lockBefore thread lock = none ↔
      ∃ slot, tg.locks.slot? lock = some slot ∧
        MAX < tg.graph.vertexNum + newVertices tg.graph thread slot.thId := by
  have hLe := tg.graph.vertexNum_le
  unfold lockBefore
  cases hFound : tg.locks.searchLock lock with
  | none => simp [slot?_eq_none.mpr hFound]
  | some idx =>
      have hSlot := slot?_eq_some.mpr ⟨idx, hFound, rfl⟩
      simp only [hSlot, Option.some.injEq, exists_eq_left', newVertices]
      set owner := (tg.locks.lockList idx).thId with hOwner
      cases hU : tg.graph.addVertex (process thread) with
      | none =>
          -- the first `add_vertex` is already behind the array
          obtain ⟨hNew, hFull⟩ := addVertex_eq_none.mp hU
          simp only [Option.bind_eq_bind, Option.bind_none, hNew, if_false, true_iff]
          omega
      | some g₁ =>
          obtain ⟨hWf₁, -, hVertex₁⟩ := addVertex_spec hWf.graph hU
          have hNum₁ := addVertex_num hU
          have hSame : g₁.IsVertex (process owner) ↔
              tg.graph.IsVertex (process owner) ∨ owner = thread := by
            rw [hVertex₁]
            unfold process
            simp
          cases hV : g₁.addVertex (process owner) with
          | none =>
              -- the thread fits, the recorded owner does not
              obtain ⟨hNew, hFull⟩ := addVertex_eq_none.mp hV
              rw [hSame] at hNew
              simp only [Option.bind_eq_bind, Option.bind_some, hV, Option.bind_none, hNew,
                if_false, true_iff]
              omega
          | some g₂ =>
              -- both fit, and the edge needs no further vertex
              obtain ⟨-, -, hVertex₂⟩ := addVertex_spec hWf₁ hV
              have hNum₂ := addVertex_num hV
              have hLe₂ := g₂.vertexNum_le
              have hEdge : addMissingEdge g₂ (process thread) (process owner) ≠ none := by
                apply addMissingEdge_returns
                · exact (hVertex₂ _).mpr (.inl ((hVertex₁ _).mpr (.inr rfl)))
                · exact (hVertex₂ _).mpr (.inr rfl)
              obtain ⟨g₃, hEdge⟩ := Option.ne_none_iff_exists'.mp hEdge
              simp only [Option.bind_eq_bind, Option.bind_some, hV, hEdge, reduceCtorEq,
                false_iff]
              simp only [hSame] at hNum₂
              omega

/-- **`lock_after` leaves `lock_list`** exactly when the table is full. -/
theorem lockAfter_eq_none {tg : TaskGraph} {thread lock : Nat} :
    tg.lockAfter thread lock = none ↔
      tg.locks.slot? lock = none ∧ tg.locks.searchEmptyLock = MAX := by
  unfold lockAfter
  cases hFound : tg.locks.searchLock lock with
  | none =>
      cases hOccupy : tg.locks.occupy thread lock with
      | none =>
          rw [occupy_eq_none] at hOccupy
          simp [slot?_eq_none.mpr hFound, hOccupy]
      | some locks =>
          have hRoom : ¬ tg.locks.searchEmptyLock = MAX := by
            intro hFull
            rw [occupy_eq_none.mpr hFull] at hOccupy
            simp at hOccupy
          simp [hRoom]
  | some idx => simp [slot?_eq_some.mpr ⟨idx, hFound, rfl⟩]

/-- **`unlock_after` reads `lock_list[-1]`** exactly when the lock has no
slot. -/
theorem unlockAfter_eq_none {tg : TaskGraph} {thread lock : Nat} :
    tg.unlockAfter thread lock = none ↔ tg.locks.slot? lock = none := by
  unfold unlockAfter
  rw [slot?_eq_none]
  cases hFound : tg.locks.searchLock lock with
  | none => simp
  | some idx =>
      simp only [reduceCtorEq, iff_false]
      split <;> simp

/-! ## Runs -/

/-- A step that keeps the holders, empties no slot, and moves a thread to
where it needs none, or a slot it has. -/
theorem SlotInv.congr {s s' : State} {thread : Nat} {pc : Pc} (h : SlotInv s)
    (hPc' : s'.pc = Function.update s.pc thread pc)
    (hNot : ∀ lock, s.pc thread ≠ .acquired lock)
    (hReleased : ∀ lock, pc = .released lock → s'.tg.locks.slot? lock ≠ none)
    (hOwner : ∀ lock holder, s'.owner lock = some holder → s.owner lock = some holder)
    (hSlots : ∀ lock ≠ 0, s.tg.locks.slot? lock ≠ none → s'.tg.locks.slot? lock ≠ none)
    {sc : Scope} (hCons : Consistent sc s) : SlotInv s' := by
  constructor
  · intro other lock hAt
    rw [hPc'] at hAt
    by_cases hEq : other = thread
    · subst hEq
      rw [Function.update_self] at hAt
      exact hReleased lock hAt
    · rw [Function.update_of_ne hEq] at hAt
      have hNonzero : lock ≠ 0 := Scope.lock_ne (hCons.pc_scope other lock (by rw [hAt]; rfl)).2
      exact hSlots lock hNonzero (h.released other lock hAt)
  · intro holder lock hOwn hBehind
    have hOld := hOwner lock holder hOwn
    have hNonzero : lock ≠ 0 := Scope.lock_ne (hCons.owner_scope holder lock hOld).2
    apply hSlots lock hNonzero
    apply h.held holder lock hOld
    intro hAcquired
    have hNe : holder ≠ thread := by
      rintro rfl
      exact hNot lock hAcquired
    apply hBehind
    rw [hPc', Function.update_of_ne hNe]
    exact hAcquired

/-- Behind `lock_after` the lock has a slot. -/
theorem slotInv_lockAfter {sc : Scope} {s : State} (hCons : Consistent sc s) (h : SlotInv s)
    {thread lock : Nat} {tg : TaskGraph} (hPc : s.pc thread = .acquired lock)
    (hSelf : tg.locks.slot? lock ≠ none)
    (hOther : ∀ m ≠ 0, m ≠ lock → tg.locks.slot? m = s.tg.locks.slot? m) :
    SlotInv { s.setPc thread .run with tg := tg } := by
  have hSlots : ∀ m ≠ 0, s.tg.locks.slot? m ≠ none → tg.locks.slot? m ≠ none := by
    intro m hm hSlot
    by_cases hEq : m = lock
    · rw [hEq]
      exact hSelf
    · rw [hOther m hm hEq]
      exact hSlot
  constructor
  · intro other m hAt
    have hNe : other ≠ thread := by
      rintro rfl
      simp [State.setPc] at hAt
    have hOld : s.pc other = .released m := by simpa [State.setPc, hNe] using hAt
    have hNonzero : m ≠ 0 := Scope.lock_ne (hCons.pc_scope other m (by rw [hOld]; rfl)).2
    exact hSlots m hNonzero (h.released other m hOld)
  · intro holder m hOwn hBehind
    have hNonzero : m ≠ 0 := Scope.lock_ne (hCons.owner_scope holder m hOwn).2
    by_cases hEq : m = lock
    · rw [hEq]
      exact hSelf
    · apply hSlots m hNonzero
      apply h.held holder m hOwn
      exact fun hAcquired => hBehind (setPc_acquired (by simp [hPc, Ne.symm hEq]) hAcquired)

/-- The thread that takes a free mutex still has its `lock_after` to run. -/
theorem slotInv_acquire {s : State} (h : SlotInv s) {thread lock : Nat}
    (hPc : s.pc thread = .requested lock) :
    SlotInv { s.setPc thread (.acquired lock) with
      owner := Function.update s.owner lock (some thread) } := by
  constructor
  · intro other m hAt
    have hNe : other ≠ thread := by
      rintro rfl
      simp [State.setPc] at hAt
    exact h.released other m (by simpa [State.setPc, hNe] using hAt)
  · intro holder m hOwn hBehind
    by_cases hEq : m = lock
    · subst hEq
      obtain rfl : thread = holder := by simpa using hOwn
      exact absurd (by simp [State.setPc]) hBehind
    · apply h.held holder m (by simpa [hEq] using hOwn)
      exact fun hAcquired => hBehind (setPc_acquired (by simp [hPc]) hAcquired)

/-- A slot is emptied which nobody will look for. -/
theorem slotInv_clearSlot {sc : Scope} {s : State} (hCons : Consistent sc s) (h : SlotInv s)
    {thread lock : Nat} {slot : LockSlot} {tg : TaskGraph} (hPc : s.pc thread = .released lock)
    (hNoOther : ∀ other ∈ sc.threads, other ≠ thread → s.pc other ≠ .released lock)
    (hNoHolder : ∀ holder ∈ s.owner lock, s.pc holder = .acquired lock)
    (hClear : s.tg.ClearSlot lock slot tg) :
    SlotInv { s.setPc thread .run with tg := tg } := by
  constructor
  · intro other m hAt
    have hNe : other ≠ thread := by
      rintro rfl
      simp [State.setPc] at hAt
    have hOld : s.pc other = .released m := by simpa [State.setPc, hNe] using hAt
    have hIn := hCons.pc_scope other m (by rw [hOld]; rfl)
    have hOther : m ≠ lock := by
      rintro rfl
      exact hNoOther other hIn.1 hNe hOld
    show tg.locks.slot? m ≠ none
    rw [hClear.slots m (Scope.lock_ne hIn.2), if_neg hOther]
    exact h.released other m hOld
  · intro holder m hOwn hBehind
    have hOwn' : s.owner m = some holder := hOwn
    have hStill : s.pc holder ≠ .acquired m := by
      intro hAcquired
      exact hBehind (setPc_acquired (by simp [hPc]) hAcquired)
    have hOther : m ≠ lock := by
      rintro rfl
      exact hStill (hNoHolder holder hOwn')
    show tg.locks.slot? m ≠ none
    rw [hClear.slots m (Scope.lock_ne (hCons.owner_scope holder m hOwn').2), if_neg hOther]
    exact h.held holder m hOwn' hStill

theorem slotInv_move {sc : Scope} {s s' : State} {a : Action} (hCons : Consistent sc s)
    (h : SlotInv s) (hMet : IndexGuard sc s a) (hMove : Move sc s a s') : SlotInv s' := by
  cases hMove with
  | requestNew _ _ hPc _ =>
      exact h.congr rfl (by simp [hPc]) (by simp) (fun _ _ hOwn => hOwn) (fun _ _ hSlot => hSlot)
        hCons
  | @requestOld thread lock slot tg _ _ hPc hSlot hRecord =>
      refine h.congr rfl (by simp [hPc]) (by simp) (fun _ _ hOwn => hOwn) ?_ hCons
      intro m _ hOld
      show tg.locks.slot? m ≠ none
      rw [hRecord.slots]
      split
      · simp
      · exact hOld
  | acquire hPc _ => exact slotInv_acquire h hPc
  | @takeSlot thread lock tg hPc hSlot hTake =>
      have hLock : lock ≠ 0 := Scope.lock_ne (hCons.pc_scope thread lock (by rw [hPc]; rfl)).2
      refine slotInv_lockAfter hCons h hPc ?_ fun m hm hNe => ?_
      · rw [hTake.slots lock hLock, if_pos rfl]
        simp
      · rw [hTake.slots m hm, if_neg hNe]
  | @changeOwner thread lock slot tg hPc hSlot hChange =>
      refine slotInv_lockAfter hCons h hPc ?_ fun m hm hNe => ?_
      · rw [hChange.slots lock, if_pos rfl]
        simp
      · rw [hChange.slots m, if_neg hNe]
  | @release thread lock hPc hOwner =>
      refine h.congr rfl (by simp [hPc]) ?_ ?_ (fun _ _ hSlot => hSlot) hCons
      -- the holder has a record, which its `unlock_after` will look for
      · intro m hm
        obtain rfl := Pc.released.inj hm
        exact h.held thread lock hOwner (by simp [hPc])
      · intro m holder hOwn
        by_cases hEq : m = lock
        · subst hEq
          simp at hOwn
        · simpa [hEq] using hOwn
  | keepSlot hPc _ _ =>
      exact h.congr rfl (by simp [hPc]) (by simp) (fun _ _ hOwn => hOwn) (fun _ _ hSlot => hSlot)
        hCons
  | clearSlot hPc hSlot hCount hClear =>
      obtain ⟨hNoOther, hNoHolder⟩ := hMet _ hSlot hCount
      exact slotInv_clearSlot hCons h hPc hNoOther hNoHolder hClear
  | check search _ => exact ⟨h.released, h.held⟩

theorem slotInv_reach {sc : Scope} {s : State} (h : Reach (step sc) (IndexGuard sc) init s) :
    SlotInv s := by
  apply reach_invariant h
  · constructor
    · intro thread lock hAt
      simp [init] at hAt
    · intro thread lock hOwn
      simp [init] at hOwn
  · intro s a s' hCons hInv hMet hMove
    exact slotInv_move hCons hInv hMet hMove

/-- **In range**: in a guarded run every enabled step that meets the guard has
a result. -/
theorem effect_ne_none {sc : Scope} {s : State} {a : Action}
    (hReach : Reach (step sc) (IndexGuard sc) init s) (hEnabled : Enabled sc s a)
    (hMet : IndexGuard sc s a) : effect s a ≠ none := by
  have hCons := consistent_reach hReach.reachable
  cases a with
  | lockBefore thread lock =>
      have hHook : s.tg.lockBefore thread lock ≠ none := by
        rw [ne_eq, lockBefore_eq_none hCons.wellFormed]
        rintro ⟨slot, hSlot, hOver⟩
        have hRoom := hMet slot hSlot
        omega
      obtain ⟨tg, hHook⟩ := Option.ne_none_iff_exists'.mp hHook
      simp [effect, hHook]
  | acquire thread lock => simp [effect]
  | lockAfter thread lock =>
      have hHook : s.tg.lockAfter thread lock ≠ none := by
        rw [ne_eq, lockAfter_eq_none]
        rintro ⟨hSlot, hFull⟩
        have hRoom := hMet hSlot
        omega
      obtain ⟨tg, hHook⟩ := Option.ne_none_iff_exists'.mp hHook
      simp [effect, hHook]
  | release thread lock => simp [effect]
  | unlockAfter thread lock =>
      have hHook : s.tg.unlockAfter thread lock ≠ none := by
        rw [ne_eq, unlockAfter_eq_none]
        exact (slotInv_reach hReach).released thread lock hEnabled
      obtain ⟨tg, hHook⟩ := Option.ne_none_iff_exists'.mp hHook
      simp [effect, hHook]
  | check =>
      obtain ⟨search, hRun⟩ :=
        Digraph.checkDeadLock_returns hCons.wellFormed.graph s.tg.search
      simp [effect, hRun]

/-! ## Programs that always have room -/

/-- The vertices are processes of threads that are not missing. -/
theorem vertexNum_add_missing {sc : Scope} {s : State} (hCons : Consistent sc s)
    (hSmall : sc.threads.card ≤ MAX) {missing : Finset Nat} (hSub : missing ⊆ sc.threads)
    (hMissing : ∀ t ∈ missing, ¬ s.tg.graph.IsVertex (process t)) :
    s.tg.graph.vertexNum + missing.card ≤ MAX := by
  have hProcesses : ∀ p, s.tg.graph.IsVertex p →
      p ∈ (sc.threads \ missing).image process := by
    intro p hp
    obtain ⟨hType, hIn⟩ := hCons.vertex_scope p hp
    have hEq : process p.thId = p := by
      unfold process
      rw [← hType]
    rw [Finset.mem_image]
    refine ⟨p.thId, ?_, hEq⟩
    rw [Finset.mem_sdiff]
    refine ⟨hIn, fun hMem => hMissing p.thId hMem ?_⟩
    rw [hEq]
    exact hp
  have hNum := hCons.wellFormed.graph.vertexNum_le_card _ hProcesses
  have hImage : ((sc.threads \ missing).image process).card ≤ (sc.threads \ missing).card :=
    Finset.card_image_le
  have hSplit := Finset.card_sdiff_add_card_eq_card hSub
  omega

/-- `lock_before` has room for its vertices in a program of at most `MAX`
threads. -/
theorem lockBefore_room {sc : Scope} {s : State} {thread lock : Nat}
    (hReach : Reachable (step sc) init s) (hSmall : sc.threads.card ≤ MAX)
    (hEnabled : Enabled sc s (.lockBefore thread lock)) :
    IndexGuard sc s (.lockBefore thread lock) := by
  have hCons := consistent_reach hReach
  intro slot hSlot
  have hThread : thread ∈ sc.threads := hEnabled.1
  have hOwner : slot.thId ∈ sc.threads :=
    (hCons.slot_scope lock (Scope.lock_ne hEnabled.2.1) slot hSlot).1
  have hBound : ∀ missing ⊆ sc.threads,
      (∀ t ∈ missing, ¬ s.tg.graph.IsVertex (process t)) →
        s.tg.graph.vertexNum + missing.card ≤ MAX :=
    fun missing hSub hMissing => vertexNum_add_missing hCons hSmall hSub hMissing
  -- none, one or both of the two threads are missing
  unfold newVertices
  by_cases hT : s.tg.graph.IsVertex (process thread)
  · by_cases hO : s.tg.graph.IsVertex (process slot.thId)
    · have hAll := hBound ∅ (Finset.empty_subset _) (by simp)
      simpa [hT, hO] using hAll
    · have hOne := hBound {slot.thId} (by simpa using hOwner) (by simpa using hO)
      have hNe : slot.thId ≠ thread := by
        rintro hEq
        rw [hEq] at hO
        exact hO hT
      simpa [hT, hO, hNe] using hOne
  · by_cases hO : s.tg.graph.IsVertex (process slot.thId) ∨ slot.thId = thread
    · have hOne := hBound {thread} (by simpa using hThread) (by simpa using hT)
      simpa [hT, hO] using hOne
    · have hNe : thread ≠ slot.thId := fun hEq => hO (.inr hEq.symm)
      have hTwo := hBound {thread, slot.thId} (by
        intro t ht
        rw [Finset.mem_insert, Finset.mem_singleton] at ht
        rcases ht with rfl | rfl
        · exact hThread
        · exact hOwner) (by
        intro t ht
        rw [Finset.mem_insert, Finset.mem_singleton] at ht
        rcases ht with rfl | rfl
        · exact hT
        · exact fun hV => hO (.inl hV))
      rw [Finset.card_pair hNe] at hTwo
      simpa [hT, hO] using hTwo

/-- `lock_after` has a slot for its lock in a program of at most `MAX`
mutexes. -/
theorem lockAfter_room {sc : Scope} {s : State} {thread lock : Nat}
    (hReach : Reachable (step sc) init s) (hSmall : sc.locks.card ≤ MAX)
    (hEnabled : Enabled sc s (.lockAfter thread lock)) :
    IndexGuard sc s (.lockAfter thread lock) := by
  have hCons := consistent_reach hReach
  intro hSlot
  -- an empty slot below `lock_num` is in range anyway
  rcases s.tg.locks.searchEmptyLock_cases with ⟨hLt, -⟩ | ⟨hEnd, hUsed⟩
  · have hLe := s.tg.locks.lockNum_le
    omega
  have hLock : lock ∈ sc.locks :=
    (hCons.pc_scope thread lock (by rw [show s.pc thread = _ from hEnabled]; rfl)).2
  rw [slot?_eq_none, searchLock_eq_none] at hSlot
  -- the slots in use record different mutexes, all but the one asked for
  have hCard : (Finset.range s.tg.locks.lockNum).card ≤ (sc.locks.erase lock).card := by
    apply Finset.card_le_card_of_injOn fun i => (s.tg.locks.lockList i).lockId
    · intro i hMem
      have hLt : i < s.tg.locks.lockNum := by simpa using hMem
      have hFound := hCons.wellFormed.locks.searchLock_eq hLt rfl (hUsed i hLt)
      have hIn := (hCons.slot_scope _ (hUsed i hLt) _ (slot?_eq_some.mpr ⟨i, hFound, rfl⟩)).2
      exact Finset.mem_erase.mpr ⟨hSlot i hLt, hIn⟩
    · intro i hMem j hMem' hSame
      have hLt : i < s.tg.locks.lockNum := by simpa using hMem
      have hLt' : j < s.tg.locks.lockNum := by simpa using hMem'
      exact hCons.wellFormed.locks i hLt j hLt' hSame (hUsed i hLt)
  rw [Finset.card_range, Finset.card_erase_of_mem hLock] at hCard
  have hPos : 0 < sc.locks.card := Finset.card_pos.mpr ⟨lock, hLock⟩
  omega

/-! ## Each part of the guard is needed -/

theorem lockBefore_overflows {sc : Scope} {s : State} {thread lock : Nat}
    (hReach : Reachable (step sc) init s)
    (hBad : ¬ IndexGuard sc s (.lockBefore thread lock)) :
    effect s (.lockBefore thread lock) = none := by
  have hHook : s.tg.lockBefore thread lock = none := by
    rw [lockBefore_eq_none (consistent_reach hReach).wellFormed]
    simp only [IndexGuard, not_forall] at hBad
    obtain ⟨slot, hSlot, hOver⟩ := hBad
    exact ⟨slot, hSlot, by omega⟩
  simp [effect, hHook]

theorem lockAfter_overflows {sc : Scope} {s : State} {thread lock : Nat}
    (hBad : ¬ IndexGuard sc s (.lockAfter thread lock)) :
    effect s (.lockAfter thread lock) = none := by
  have hHook : s.tg.lockAfter thread lock = none := by
    rw [lockAfter_eq_none]
    simp only [IndexGuard, not_forall] at hBad
    obtain ⟨hSlot, hFull⟩ := hBad
    refine ⟨hSlot, ?_⟩
    have hLe := s.tg.locks.lockNum_le
    have hCases := s.tg.locks.searchEmptyLock_cases
    omega
  simp [effect, hHook]

/-- Two threads behind a release of the same mutex: the first `unlock_after`
that finds `degress = 0` makes the other one read `lock_list[-1]`. -/
theorem second_unlock_misses {sc : Scope} {s s' : State} {thread other lock : Nat}
    {slot : LockSlot} (hReach : Reachable (step sc) init s)
    (hSlot : s.tg.locks.slot? lock = some slot) (hCount : slot.degress = 0)
    (hOther : s.pc other = .released lock) (hNe : other ≠ thread)
    (hStep : step sc s (.unlockAfter thread lock) = some s') :
    Enabled sc s' (.unlockAfter other lock) ∧ effect s' (.unlockAfter other lock) = none := by
  have hCons := consistent_reach hReach
  have hLock : lock ≠ 0 := Scope.lock_ne (hCons.pc_scope other lock (by rw [hOther]; rfl)).2
  have hMove := step_move hCons hStep
  cases hMove with
  | keepSlot _ hSlot' hCount' =>
      rw [hSlot, Option.some.injEq] at hSlot'
      subst hSlot'
      exact absurd hCount hCount'
  | @clearSlot _ _ slot' tg hPc hSlot' _ hClear =>
      constructor
      · show (s.setPc thread .run).pc other = .released lock
        simpa [State.setPc, hNe] using hOther
      · have hHook : tg.unlockAfter other lock = none := by
          rw [unlockAfter_eq_none, hClear.slots lock hLock, if_pos rfl]
        simp [effect, hHook]

/-- The slot of a holder is emptied: its own `unlock_after` reads
`lock_list[-1]`. -/
theorem holder_unlock_misses {sc : Scope} {s s' : State} {thread holder lock : Nat}
    {slot : LockSlot} (hReach : Reachable (step sc) init s)
    (hSlot : s.tg.locks.slot? lock = some slot) (hCount : slot.degress = 0)
    (hOwner : s.owner lock = some holder) (hRun : s.pc holder = .run)
    (hStep : step sc s (.unlockAfter thread lock) = some s') :
    ∃ s'', step sc s' (.release holder lock) = some s'' ∧
      Enabled sc s'' (.unlockAfter holder lock) ∧ effect s'' (.unlockAfter holder lock) = none := by
  have hCons := consistent_reach hReach
  have hLock : lock ≠ 0 := Scope.lock_ne (hCons.owner_scope holder lock hOwner).2
  have hMove := step_move hCons hStep
  cases hMove with
  | keepSlot _ hSlot' hCount' =>
      rw [hSlot, Option.some.injEq] at hSlot'
      subst hSlot'
      exact absurd hCount hCount'
  | @clearSlot _ _ slot' tg hPc hSlot' _ hClear =>
      have hNe : holder ≠ thread := by
        rintro rfl
        rw [hRun] at hPc
        simp at hPc
      have hHook : tg.unlockAfter holder lock = none := by
        rw [unlockAfter_eq_none, hClear.slots lock hLock, if_pos rfl]
      refine ⟨_, step_eq_some.mpr ⟨⟨?_, hOwner⟩, rfl⟩, ?_, ?_⟩
      · simpa [State.setPc, hNe] using hRun
      · show (State.setPc _ holder (.released lock)).pc holder = .released lock
        simp [State.setPc]
      · simp [effect, State.setPc, hHook]

/-- **The indices of the hooks**: in range in every run that meets the guard,
out of range at a step that has no room, and out of range behind an
`unlock_after` that empties a slot another thread still has to look for. -/
theorem hook_indices_in_range_exactly (sc : Scope) :
    (∀ s a, Reach (step sc) (IndexGuard sc) init s → Enabled sc s a → IndexGuard sc s a →
      effect s a ≠ none) ∧
    (∀ s thread lock, Reachable (step sc) init s →
      (¬ IndexGuard sc s (.lockBefore thread lock) →
        effect s (.lockBefore thread lock) = none) ∧
      (¬ IndexGuard sc s (.lockAfter thread lock) →
        effect s (.lockAfter thread lock) = none)) ∧
    ∀ s s' thread other lock slot, Reachable (step sc) init s →
      s.tg.locks.slot? lock = some slot → slot.degress = 0 → other ≠ thread →
      step sc s (.unlockAfter thread lock) = some s' →
      (s.pc other = .released lock →
        Enabled sc s' (.unlockAfter other lock) ∧
          effect s' (.unlockAfter other lock) = none) ∧
      (s.owner lock = some other → s.pc other = .run →
        ∃ s'', step sc s' (.release other lock) = some s'' ∧
          Enabled sc s'' (.unlockAfter other lock) ∧
          effect s'' (.unlockAfter other lock) = none) := by
  refine ⟨fun s a => effect_ne_none, fun s thread lock hReach => ⟨?_, ?_⟩, ?_⟩
  · exact lockBefore_overflows hReach
  · exact lockAfter_overflows
  · intro s s' thread other lock slot hReach hSlot hCount hNe hStep
    constructor
    · intro hOther
      exact second_unlock_misses hReach hSlot hCount hOther hNe hStep
    · intro hOwner hRun
      exact holder_unlock_misses hReach hSlot hCount hOwner hRun hStep

/-- A second thread waits while the first one unlocks, and the tables are
still in range when it has unlocked too. -/
theorem hook_indices_in_range_exactly_handOver :
    ∃ s, s.pc 2 = .released 1 ∧ effect s (.unlockAfter 2 1) ≠ none := by
  let actions : List Action := lockCall 1 1 ++
    [.lockBefore 2 1, .release 1 1, .unlockAfter 1 1, .acquire 2 1, .lockAfter 2 1, .release 2 1]
  let final := run (guarded (step twoThreads) (IndexGuard twoThreads)) init actions
  have hFinal : final = some (final.get (by decide)) := by simp
  have hReach : Reach (step twoThreads) (IndexGuard twoThreads) init (final.get (by decide)) :=
    reach_of_run_guarded hFinal
  have hPc : (final.get (by decide)).pc 2 = .released 1 := by decide
  exact ⟨_, hPc, (hook_indices_in_range_exactly twoThreads).1 _ (.unlockAfter 2 1) hReach hPc
    (by decide)⟩

/-- The second thread locks and unlocks between the release and the
`unlock_after` of the first one. -/
def missTrace : List Action :=
  lockCall 1 1 ++ [.lockBefore 2 1, .release 1 1, .acquire 2 1, .lockAfter 2 1, .release 2 1,
    .unlockAfter 1 1]

/-- The second `unlock_after` reads `lock_list[-1]`. -/
theorem unlock_after_reads_minus_one :
    ∃ s, Reachable (step twoThreads) init s ∧ Enabled twoThreads s (.unlockAfter 2 1) ∧
      effect s (.unlockAfter 2 1) = none := by
  have hRun : (run (step twoThreads) init missTrace).map (fun s =>
      decide (Enabled twoThreads s (.unlockAfter 2 1)) &&
        (effect s (.unlockAfter 2 1)).isNone) = some true := by decide
  obtain ⟨s, hReach, hTest⟩ := exists_reachable_of_run hRun
  rw [Bool.and_eq_true, decide_eq_true_eq, Option.isNone_iff_eq_none] at hTest
  exact ⟨s, hReach, hTest⟩

end DeadlockCheck
end LinuxCppLearn
