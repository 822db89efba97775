import LinuxCppLearn.DeadlockCheck.Interleaving

/-!
# The graph and the requests of the threads

An edge is added towards the owner recorded when the request is made, and
removed towards the owner recorded when the mutex is taken.  If another thread
is still waiting when the owner changes, its edge keeps the old target.

* `HandoverOk` — that this does not happen: `lock_after` records a new owner
  only while no other thread is waiting for the mutex.
* `target` — the one edge a thread should have: to the recorded owner of the
  mutex it asks for, if that is another thread.
* `WaitInv` — under the guard the lists are exactly these edges, `degress`
  counts the threads that ask, and empty slots count nobody.
* `CountInv` — the two last of these, which need less than the guard.
-/

namespace LinuxCppLearn
namespace DeadlockCheck

open StepSystem TaskGraph

/-- `lock_after` changes the recorded owner only while nobody else waits. -/
def HandoverOk (sc : Scope) (s : State) : Action → Prop
  | .lockAfter thread lock =>
      ∀ other ∈ sc.threads, other ≠ thread → s.pc other = .requested lock →
        s.recorded lock = some thread
  | _ => True

instance (sc : Scope) (s : State) (a : Action) : Decidable (HandoverOk sc s a) := by
  induction a using Action.casesOn <;> unfold HandoverOk <;> infer_instance

/-- The edges a thread should have. -/
def target (s : State) (thread : Nat) : List Pair :=
  match (s.pc thread).asks with
  | none => []
  | some lock =>
      match s.recorded lock with
      | none => []
      | some owner => if owner = thread then [] else [process owner]

/-- The threads that ask for a mutex. -/
def askers (sc : Scope) (pc : Nat → Pc) (lock : Nat) : Finset Nat :=
  sc.threads.filter fun thread => (pc thread).asks = some lock

structure WaitInv (sc : Scope) (s : State) : Prop where
  edges : ∀ thread, s.tg.graph.succ (process thread) = target s thread
  count : ∀ lock ≠ 0, ∀ slot, s.tg.locks.slot? lock = some slot →
    slot.degress = (askers sc s.pc lock).card
  clean : ∀ i, s.tg.locks.lockNum ≤ i ∨ (s.tg.locks.lockList i).lockId = 0 →
    (s.tg.locks.lockList i).degress = 0

theorem process_injective {t u : Nat} : process t = process u ↔ t = u := by
  unfold process
  simp

/-! ## Who asks -/

section Askers

variable {sc : Scope} {pc : Nat → Pc} {thread lock : Nat} {new : Pc}

theorem mem_askers {other : Nat} :
    other ∈ askers sc pc lock ↔ other ∈ sc.threads ∧ (pc other).asks = some lock := by
  unfold askers
  rw [Finset.mem_filter]

theorem askers_update (hSame : new.asks = some lock ↔ (pc thread).asks = some lock) :
    askers sc (Function.update pc thread new) lock = askers sc pc lock := by
  ext other
  rw [mem_askers, mem_askers]
  by_cases hEq : other = thread
  · subst hEq
    rw [Function.update_self, hSame]
  · rw [Function.update_of_ne hEq]

theorem askers_card_add (hThread : thread ∈ sc.threads) (hOld : (pc thread).asks ≠ some lock)
    (hNew : new.asks = some lock) :
    (askers sc (Function.update pc thread new) lock).card = (askers sc pc lock).card + 1 := by
  have hInsert : askers sc (Function.update pc thread new) lock =
      insert thread (askers sc pc lock) := by
    ext other
    rw [Finset.mem_insert, mem_askers, mem_askers]
    by_cases hEq : other = thread
    · subst hEq
      simp [hThread, hNew]
    · rw [Function.update_of_ne hEq]
      simp [hEq]
  have hNotMem : thread ∉ askers sc pc lock := by
    rw [mem_askers]
    exact fun h => hOld h.2
  rw [hInsert, Finset.card_insert_of_notMem hNotMem]

theorem askers_card_sub (hThread : thread ∈ sc.threads) (hOld : (pc thread).asks = some lock)
    (hNew : new.asks ≠ some lock) :
    (askers sc (Function.update pc thread new) lock).card + 1 = (askers sc pc lock).card := by
  have hErase : askers sc (Function.update pc thread new) lock =
      (askers sc pc lock).erase thread := by
    ext other
    rw [Finset.mem_erase, mem_askers, mem_askers]
    by_cases hEq : other = thread
    · subst hEq
      simp [hNew]
    · rw [Function.update_of_ne hEq]
      simp [hEq]
  have hMem : thread ∈ askers sc pc lock := mem_askers.mpr ⟨hThread, hOld⟩
  rw [hErase]
  exact Finset.card_erase_add_one hMem

end Askers

/-! ## Counting those who ask -/

/-- Empty slots count nobody. -/
def LockTable.Clean (t : LockTable) : Prop :=
  ∀ i, t.lockNum ≤ i ∨ (t.lockList i).lockId = 0 → (t.lockList i).degress = 0

/-- The slot taken for a mutex keeps the `degress` of its former use, which is 0. -/
theorem LockTable.Clean.empty_zero {t : LockTable} (h : t.Clean) :
    (t.lockList t.searchEmptyLock).degress = 0 := by
  apply h
  rcases t.searchEmptyLock_cases with ⟨-, hId⟩ | ⟨hEnd, -⟩
  · exact .inr hId
  · exact .inl (by omega)

/-- The counts of `WaitInv`, which do not depend on the edges. -/
structure CountInv (sc : Scope) (s : State) : Prop where
  count : ∀ lock ≠ 0, ∀ slot, s.tg.locks.slot? lock = some slot →
    slot.degress = (askers sc s.pc lock).card
  clean : s.tg.locks.Clean

section Counts

variable {sc : Scope} {s : State}

theorem WaitInv.counts (h : WaitInv sc s) : CountInv sc s :=
  ⟨h.count, h.clean⟩

theorem CountInv.waitInv (h : CountInv sc s)
    (hEdges : ∀ thread, s.tg.graph.succ (process thread) = target s thread) : WaitInv sc s :=
  ⟨hEdges, h.count, h.clean⟩

/-- Rewriting a slot in use leaves the empty slots alone. -/
theorem clean_setSlot (hClean : s.tg.locks.Clean) {lock idx : Nat} {old new : LockSlot}
    (hSearch : s.tg.locks.searchLock lock = some idx) (hAt : s.tg.locks.lockList idx = old)
    (hLock : lock ≠ 0) (hId : new.lockId = old.lockId) :
    (s.tg.locks.setSlot idx new).Clean := by
  intro i hi
  have hUsed : old.lockId = lock := by
    rw [← hAt]
    exact LockTable.searchLock_lockId hSearch
  have hLt := LockTable.searchLock_lt hSearch
  by_cases hEq : i = idx
  · subst hEq
    simp only [LockTable.setSlot, Function.update_self] at hi
    rcases hi with hOut | hZero
    · omega
    · exact absurd (by rw [← hUsed, ← hId, hZero]) hLock
  · simp only [LockTable.setSlot, Function.update_of_ne hEq] at hi ⊢
    exact hClean i hi

/-- A slot taken for a mutex leaves the other empty slots alone. -/
theorem clean_takeSlot (hClean : s.tg.locks.Clean) {thread lock : Nat} {tg : TaskGraph}
    (hTake : s.tg.TakeSlot thread lock tg) (hLock : lock ≠ 0) : tg.locks.Clean := by
  intro i hi
  have hNum := hTake.num
  rw [hTake.table] at hi ⊢
  by_cases hEq : i = s.tg.locks.searchEmptyLock
  · subst hEq
    rw [Function.update_self] at hi
    rcases hi with hOut | hZero
    · omega
    · exact absurd hZero hLock
  · rw [Function.update_of_ne hEq] at hi ⊢
    apply hClean
    rcases hi with hOut | hZero
    · exact .inl (by omega)
    · exact .inr hZero

/-- An emptied slot counted nobody. -/
theorem clean_clearSlot (hClean : s.tg.locks.Clean) {lock : Nat} {slot : LockSlot}
    {tg : TaskGraph} (hCount : slot.degress = 0) (hClear : s.tg.ClearSlot lock slot tg) :
    tg.locks.Clean := by
  obtain ⟨idx, -, -, hTable⟩ := hClear.table
  intro i hi
  rw [hTable] at hi ⊢
  by_cases hEq : i = idx
  · subst hEq
    simpa [LockTable.setSlot] using hCount
  · simp only [LockTable.setSlot, Function.update_of_ne hEq] at hi ⊢
    exact hClean i hi

/-- A step of a thread that does not change what it asks for, and no table. -/
theorem CountInv.setPc (h : CountInv sc s) {thread : Nat} {pc : Pc} {owner : Nat → Option Nat}
    (hAsks : pc.asks = (s.pc thread).asks) :
    CountInv sc { s.setPc thread pc with owner := owner } := by
  refine ⟨fun lock hLock slot hSlot => ?_, h.clean⟩
  have hAskers : askers sc (Function.update s.pc thread pc) lock = askers sc s.pc lock :=
    askers_update (by rw [hAsks])
  show slot.degress = (askers sc (Function.update s.pc thread pc) lock).card
  rw [hAskers]
  exact h.count lock hLock slot hSlot

/-- A step of a thread that asks neither before nor behind it for the mutex. -/
theorem CountInv.count_other (h : CountInv sc s) {thread lock : Nat} {pc : Pc} {slot : LockSlot}
    (hLock : lock ≠ 0) (hSlot : s.tg.locks.slot? lock = some slot)
    (hOld : (s.pc thread).asks ≠ some lock) (hNew : pc.asks ≠ some lock) :
    slot.degress = (askers sc (Function.update s.pc thread pc) lock).card := by
  rw [askers_update ⟨fun hAsks => absurd hAsks hNew, fun hAsks => absurd hAsks hOld⟩]
  exact h.count lock hLock slot hSlot

/-- A request for a mutex that has no slot is counted nowhere. -/
theorem CountInv.requestNew (h : CountInv sc s) {thread lock : Nat} (hPc : s.pc thread = .run)
    (hSlot : s.tg.locks.slot? lock = none) :
    CountInv sc (s.setPc thread (.requested lock)) := by
  refine ⟨fun m hm slot hFound => ?_, h.clean⟩
  have hNe : m ≠ lock := by
    rintro rfl
    have hSome : s.tg.locks.slot? m = some slot := hFound
    rw [hSlot] at hSome
    simp at hSome
  exact h.count_other hm hFound (by simp [hPc, Pc.asks]) (by simp [Pc.asks, hNe.symm])

/-- A request for a recorded mutex. -/
theorem CountInv.requestOld (h : CountInv sc s) {thread lock : Nat} {slot : LockSlot}
    {tg : TaskGraph} (hThread : thread ∈ sc.threads) (hLock : lock ≠ 0)
    (hPc : s.pc thread = .run) (hSlot : s.tg.locks.slot? lock = some slot)
    (hRecord : s.tg.RecordRequest thread lock slot tg) :
    CountInv sc { s.setPc thread (.requested lock) with tg := tg } := by
  refine ⟨fun m hm found hFound => ?_, ?_⟩
  · show found.degress = (askers sc (Function.update s.pc thread (.requested lock)) m).card
    have hFound' : tg.locks.slot? m = some found := hFound
    rw [hRecord.slots] at hFound'
    by_cases hEq : m = lock
    · subst hEq
      rw [if_pos rfl, Option.some.injEq] at hFound'
      subst hFound'
      have hCount := h.count m hm slot hSlot
      have hMore : (askers sc (Function.update s.pc thread (.requested m)) m).card =
          (askers sc s.pc m).card + 1 :=
        askers_card_add hThread (by simp [hPc, Pc.asks]) (by simp [Pc.asks])
      rw [hMore]
      show slot.degress + 1 = _
      omega
    · rw [if_neg hEq] at hFound'
      have hNe : lock ≠ m := fun hSame => hEq hSame.symm
      exact h.count_other hm hFound' (by simp [hPc, Pc.asks]) (by simp [Pc.asks, hNe])
  · obtain ⟨idx, hSearch, hAt, hTable⟩ := hRecord.table
    show tg.locks.Clean
    rw [hTable]
    exact clean_setSlot h.clean hSearch hAt hLock rfl

/-- A new slot counts nobody, so nobody else may ask. -/
theorem CountInv.takeSlot (h : CountInv sc s) {thread lock : Nat} {tg : TaskGraph}
    (hLock : lock ≠ 0) (hPc : s.pc thread = .acquired lock)
    (hTake : s.tg.TakeSlot thread lock tg)
    (hAlone : ∀ other ≠ thread, (s.pc other).asks ≠ some lock) :
    CountInv sc { s.setPc thread .run with tg := tg } := by
  refine ⟨fun m hm found hFound => ?_, clean_takeSlot h.clean hTake hLock⟩
  show found.degress = (askers sc (Function.update s.pc thread .run) m).card
  have hFound' : tg.locks.slot? m = some found := hFound
  rw [hTake.slots m hm] at hFound'
  by_cases hEq : m = lock
  · subst hEq
    rw [if_pos rfl, Option.some.injEq] at hFound'
    subst hFound'
    -- the thread was the only one to ask, and it has its mutex now
    have hEmpty : askers sc (Function.update s.pc thread .run) m = ∅ := by
      ext other
      rw [mem_askers]
      simp only [Finset.notMem_empty, iff_false, not_and]
      intro _
      by_cases hOther : other = thread
      · subst hOther
        simp [Pc.asks]
      · rw [Function.update_of_ne hOther]
        exact hAlone other hOther
    rw [hEmpty]
    exact h.clean.empty_zero
  · rw [if_neg hEq] at hFound'
    have hNe : lock ≠ m := fun hSame => hEq hSame.symm
    exact h.count_other hm hFound' (by simp [hPc, Pc.asks, hNe]) (by simp [Pc.asks])

/-- A new owner of a recorded mutex asks no more. -/
theorem CountInv.changeOwner (h : CountInv sc s) (hCons : Consistent sc s) {thread lock : Nat}
    {slot : LockSlot} {tg : TaskGraph} (hPc : s.pc thread = .acquired lock)
    (hSlot : s.tg.locks.slot? lock = some slot)
    (hChange : s.tg.ChangeOwner thread lock slot tg) :
    CountInv sc { s.setPc thread .run with tg := tg } := by
  have hIn := hCons.pc_scope thread lock (by rw [hPc]; rfl)
  have hLock : lock ≠ 0 := Scope.lock_ne hIn.2
  refine ⟨fun m hm found hFound => ?_, ?_⟩
  · show found.degress = (askers sc (Function.update s.pc thread .run) m).card
    have hFound' : tg.locks.slot? m = some found := hFound
    rw [hChange.slots] at hFound'
    by_cases hEq : m = lock
    · subst hEq
      rw [if_pos rfl, Option.some.injEq] at hFound'
      subst hFound'
      have hCount := h.count m hm slot hSlot
      have hLess : (askers sc (Function.update s.pc thread .run) m).card + 1 =
          (askers sc s.pc m).card :=
        askers_card_sub hIn.1 (by rw [hPc]; rfl) (by simp [Pc.asks])
      show slot.degress - 1 = _
      omega
    · rw [if_neg hEq] at hFound'
      have hNe : lock ≠ m := fun hSame => hEq hSame.symm
      exact h.count_other hm hFound' (by simp [hPc, Pc.asks, hNe]) (by simp [Pc.asks])
  · obtain ⟨idx, hSearch, hAt, hTable⟩ := hChange.table
    show tg.locks.Clean
    rw [hTable]
    exact clean_setSlot h.clean hSearch hAt hLock rfl

theorem CountInv.clearSlot (h : CountInv sc s) {thread lock : Nat} {slot : LockSlot}
    {tg : TaskGraph} (hPc : s.pc thread = .released lock) (hCount : slot.degress = 0)
    (hClear : s.tg.ClearSlot lock slot tg) :
    CountInv sc { s.setPc thread .run with tg := tg } := by
  refine ⟨fun m hm found hFound => ?_, clean_clearSlot h.clean hCount hClear⟩
  show found.degress = (askers sc (Function.update s.pc thread .run) m).card
  have hFound' : tg.locks.slot? m = some found := hFound
  rw [hClear.slots m hm] at hFound'
  split at hFound'
  · simp at hFound'
  · exact h.count_other hm hFound' (by simp [hPc, Pc.asks]) (by simp [Pc.asks])

end Counts

/-! ## The edge of one thread -/

theorem target_of_not_asks {s : State} {thread : Nat} (h : (s.pc thread).asks = none) :
    target s thread = [] := by
  unfold target
  rw [h]

theorem target_of_asks {s : State} {thread lock : Nat} (h : (s.pc thread).asks = some lock) :
    target s thread =
      match s.recorded lock with
      | none => []
      | some owner => if owner = thread then [] else [process owner] := by
  unfold target
  rw [h]

/-- The edge of a thread depends on what it asks for and on that record. -/
theorem target_congr {s s' : State} {thread : Nat} (hPc : (s'.pc thread).asks = (s.pc thread).asks)
    (hRecorded : ∀ lock, (s.pc thread).asks = some lock → s'.recorded lock = s.recorded lock) :
    target s' thread = target s thread := by
  unfold target
  rw [hPc]
  cases hAsks : (s.pc thread).asks with
  | none => rfl
  | some lock => simp only [hRecorded lock hAsks]

/-- The edge of a thread that does not move. -/
theorem target_other {s : State} {thread other : Nat} {pc : Pc} {tg : TaskGraph}
    (hNe : other ≠ thread)
    (hRecorded : ∀ lock, (s.pc other).asks = some lock →
      (tg.locks.slot? lock).map LockSlot.thId = s.recorded lock) :
    target { s.setPc thread pc with tg := tg } other = target s other := by
  apply target_congr
  · simp [State.setPc, hNe]
  · exact hRecorded

theorem asks_lock {pc : Pc} {lock : Nat} (h : pc.asks = some lock) : pc.lock = some lock := by
  cases pc with
  | run | released m => simp [Pc.asks] at h
  | requested m | acquired m => exact h

section Moves

variable {sc : Scope} {s : State}

/-- A step of a thread that does not change what it asks for, and no table. -/
theorem WaitInv.setPc (h : WaitInv sc s) {thread : Nat} {pc : Pc} {owner : Nat → Option Nat}
    (hAsks : pc.asks = (s.pc thread).asks) :
    WaitInv sc { s.setPc thread pc with owner := owner } := by
  refine (h.counts.setPc hAsks).waitInv fun other => ?_
  have hSame : target { s.setPc thread pc with owner := owner } other = target s other := by
    apply target_congr
    · by_cases hEq : other = thread
      · subst hEq
        simpa [State.setPc] using hAsks
      · simp [State.setPc, hEq]
    · intro lock _
      rfl
  rw [hSame]
  exact h.edges other

/-- A request for a mutex that has no record. -/
theorem WaitInv.requestNew (h : WaitInv sc s) {thread lock : Nat} (hPc : s.pc thread = .run)
    (hSlot : s.tg.locks.slot? lock = none) :
    WaitInv sc (s.setPc thread (.requested lock)) := by
  have hNone : s.recorded lock = none := by
    unfold State.recorded
    rw [hSlot]
    rfl
  refine (h.counts.requestNew hPc hSlot).waitInv fun other => ?_
  have hEdges := h.edges other
  by_cases hEq : other = thread
  · subst hEq
    rw [target_of_not_asks (by rw [hPc]; rfl)] at hEdges
    have hAsks : ((s.setPc other (.requested lock)).pc other).asks = some lock := by
      simp [State.setPc, Pc.asks]
    rw [target_of_asks hAsks]
    show s.tg.graph.succ (process other) = match s.recorded lock with
      | none => []
      | some owner => if owner = other then [] else [process owner]
    rw [hNone]
    exact hEdges
  · have hSame : target (s.setPc thread (.requested lock)) other = target s other :=
      target_other hEq fun _ _ => rfl
    rw [hSame]
    exact hEdges

/-- The edges behind a request for a recorded mutex: the thread had none, and
gets one to the recorded owner unless it is that owner itself. -/
theorem edges_requestOld (h : WaitInv sc s) {thread lock : Nat} {slot : LockSlot}
    {tg : TaskGraph} (hPc : s.pc thread = .run) (hSlot : s.tg.locks.slot? lock = some slot)
    (hRecord : s.tg.RecordRequest thread lock slot tg) (other : Nat) :
    tg.graph.succ (process other) =
      target { s.setPc thread (.requested lock) with tg := tg } other := by
  have hNone : s.tg.graph.succ (process thread) = [] := by
    rw [h.edges thread]
    exact target_of_not_asks (by rw [hPc]; rfl)
  have hAsks : s.tg.Asks thread slot.thId ↔ thread = slot.thId := by
    unfold Asks
    rw [hNone]
    simp
  by_cases hEq : other = thread
  · subst hEq
    have hNew : target { s.setPc other (.requested lock) with tg := tg } other =
        if slot.thId = other then [] else [process slot.thId] := by
      have hAsked : (({ s.setPc other (.requested lock) with tg := tg } : State).pc other).asks =
          some lock := by simp [State.setPc, Pc.asks]
      have hOwner : ({ s.setPc other (.requested lock) with tg := tg } : State).recorded lock =
          some slot.thId := by
        show (tg.locks.slot? lock).map LockSlot.thId = _
        rw [hRecord.slots, if_pos rfl]
        rfl
      rw [target_of_asks hAsked, hOwner]
    rw [hNew]
    by_cases hSelf : other = slot.thId
    · rw [hRecord.edge_old (hAsks.mpr hSelf), hNone, if_pos hSelf.symm]
    · rw [hRecord.edge_new (fun hOld => hSelf (hAsks.mp hOld)), if_pos rfl, hNone,
        if_neg (fun hEq => hSelf hEq.symm)]
      rfl
  -- the records keep their owners, so no other edge changes
  · have hRecorded : ∀ m, (tg.locks.slot? m).map LockSlot.thId = s.recorded m := by
      intro m
      unfold State.recorded
      rw [hRecord.slots]
      by_cases hSame : m = lock
      · subst hSame
        rw [if_pos rfl, hSlot]
        rfl
      · rw [if_neg hSame]
    rw [target_other hEq fun m _ => hRecorded m, ← h.edges other]
    by_cases hOld : s.tg.Asks thread slot.thId
    · exact hRecord.edge_old hOld _
    · rw [hRecord.edge_new hOld, if_neg]
      rw [process_injective]
      exact hEq

/-- A request for a recorded mutex adds the edge and counts the thread. -/
theorem WaitInv.requestOld (h : WaitInv sc s) {thread lock : Nat} {slot : LockSlot}
    {tg : TaskGraph} (hThread : thread ∈ sc.threads) (hLock : lock ≠ 0)
    (hPc : s.pc thread = .run) (hSlot : s.tg.locks.slot? lock = some slot)
    (hRecord : s.tg.RecordRequest thread lock slot tg) :
    WaitInv sc { s.setPc thread (.requested lock) with tg := tg } :=
  (h.counts.requestOld hThread hLock hPc hSlot hRecord).waitInv
    (edges_requestOld h hPc hSlot hRecord)

/-- The first record of a mutex: nobody else asks for it. -/
theorem WaitInv.takeSlot (h : WaitInv sc s) (hCons : Consistent sc s) {thread lock : Nat}
    {tg : TaskGraph} (hPc : s.pc thread = .acquired lock)
    (hSlot : s.tg.locks.slot? lock = none) (hTake : s.tg.TakeSlot thread lock tg)
    (hAlone : ∀ other ≠ thread, (s.pc other).asks ≠ some lock) :
    WaitInv sc { s.setPc thread .run with tg := tg } := by
  have hIn := hCons.pc_scope thread lock (by rw [hPc]; rfl)
  have hLock : lock ≠ 0 := Scope.lock_ne hIn.2
  have hNone : s.recorded lock = none := by
    unfold State.recorded
    rw [hSlot]
    rfl
  refine (h.counts.takeSlot hLock hPc hTake hAlone).waitInv fun other => ?_
  show tg.graph.succ (process other) = _
  rw [hTake.graph, h.edges other]
  by_cases hEq : other = thread
  · subst hEq
    have hAsks : (s.pc other).asks = some lock := by
      rw [hPc]
      rfl
    rw [target_of_asks hAsks, hNone]
    exact (target_of_not_asks (by simp [State.setPc, Pc.asks])).symm
  · rw [target_other hEq]
    intro m hAsks
    have hNe : m ≠ lock := by
      rintro rfl
      exact hAlone other hEq hAsks
    have hNonzero : m ≠ 0 := Scope.lock_ne (hCons.pc_scope other m (asks_lock hAsks)).2
    rw [hTake.slots m hNonzero, if_neg hNe]
    rfl

/-- The edges behind a change of owner: the edge of the new owner goes, and
nobody else has one because of the mutex, unless the owner stays the same. -/
theorem edges_changeOwner (h : WaitInv sc s) (hCons : Consistent sc s) {thread lock : Nat}
    {slot : LockSlot} {tg : TaskGraph} (hPc : s.pc thread = .acquired lock)
    (hSlot : s.tg.locks.slot? lock = some slot)
    (hChange : s.tg.ChangeOwner thread lock slot tg)
    (hAlone : ∀ other ≠ thread, (s.pc other).asks = some lock → slot.thId = thread)
    (other : Nat) :
    tg.graph.succ (process other) = target { s.setPc thread .run with tg := tg } other := by
  have hOwner : s.recorded lock = some slot.thId := by
    unfold State.recorded
    rw [hSlot]
    rfl
  have hAsked : (s.pc thread).asks = some lock := by
    rw [hPc]
    rfl
  have hEdge : s.tg.graph.succ (process thread) =
      if slot.thId = thread then [] else [process slot.thId] := by
    rw [h.edges thread, target_of_asks hAsked, hOwner]
  by_cases hEq : other = thread
  · subst hEq
    have hNew : target { s.setPc other .run with tg := tg } other = [] :=
      target_of_not_asks (by simp [State.setPc, Pc.asks])
    rw [hNew, hChange.edge]
    by_cases hSelf : slot.thId = other
    · rw [hEdge, if_pos hSelf]
      simp
    -- the edge ends in a vertex, so `remove_edge` finds both ends
    · rw [if_neg hSelf] at hEdge
      have hVertex : s.tg.graph.IsVertex (process slot.thId) := by
        apply hCons.wellFormed.graph.isVertex_of_mem_succ (u := process other)
        rw [hEdge]
        exact List.mem_singleton_self _
      rw [if_pos ⟨rfl, hVertex⟩, hEdge]
      simp [process]
  · have hNe : ¬ (process other = process thread ∧ s.tg.graph.IsVertex (process slot.thId)) := by
      rw [process_injective]
      exact fun hBoth => hEq hBoth.1
    rw [hChange.edge, if_neg hNe, h.edges other, target_other hEq]
    intro m hAsks
    rw [hChange.slots]
    by_cases hSame : m = lock
    · subst hSame
      rw [if_pos rfl, hOwner, hAlone other hEq hAsks]
      rfl
    · rw [if_neg hSame]
      rfl

/-- A new owner of a recorded mutex: the edge of the thread goes, and nobody
else's edge gets a wrong target. -/
theorem WaitInv.changeOwner (h : WaitInv sc s) (hCons : Consistent sc s) {thread lock : Nat}
    {slot : LockSlot} {tg : TaskGraph} (hPc : s.pc thread = .acquired lock)
    (hSlot : s.tg.locks.slot? lock = some slot)
    (hChange : s.tg.ChangeOwner thread lock slot tg)
    (hAlone : ∀ other ≠ thread, (s.pc other).asks = some lock → slot.thId = thread) :
    WaitInv sc { s.setPc thread .run with tg := tg } :=
  (h.counts.changeOwner hCons hPc hSlot hChange).waitInv
    (edges_changeOwner h hCons hPc hSlot hChange hAlone)

/-- An emptied slot: nobody asks for the mutex. -/
theorem WaitInv.clearSlot (h : WaitInv sc s) (hCons : Consistent sc s) {thread lock : Nat}
    {slot : LockSlot} {tg : TaskGraph} (hPc : s.pc thread = .released lock)
    (hSlot : s.tg.locks.slot? lock = some slot) (hCount : slot.degress = 0)
    (hClear : s.tg.ClearSlot lock slot tg) :
    WaitInv sc { s.setPc thread .run with tg := tg } := by
  have hIn := hCons.pc_scope thread lock (by rw [hPc]; rfl)
  have hLock : lock ≠ 0 := Scope.lock_ne hIn.2
  -- `degress` counts the threads that ask, and it is 0
  have hNobody : ∀ other, (s.pc other).asks ≠ some lock := by
    intro other hAsks
    have hCard := h.count lock hLock slot hSlot
    rw [hCount] at hCard
    have hMem : other ∈ askers sc s.pc lock :=
      mem_askers.mpr ⟨(hCons.pc_scope other lock (asks_lock hAsks)).1, hAsks⟩
    have hPos : 0 < (askers sc s.pc lock).card := Finset.card_pos.mpr ⟨other, hMem⟩
    omega
  refine (h.counts.clearSlot hPc hCount hClear).waitInv fun other => ?_
  show tg.graph.succ (process other) = _
  rw [hClear.graph, h.edges other]
  by_cases hEq : other = thread
  · subst hEq
    rw [target_of_not_asks (by rw [hPc]; rfl)]
    exact (target_of_not_asks (by simp [State.setPc, Pc.asks])).symm
  · rw [target_other hEq]
    intro m hAsks
    have hNe : m ≠ lock := by
      rintro rfl
      exact hNobody other hAsks
    have hNonzero : m ≠ 0 := Scope.lock_ne (hCons.pc_scope other m (asks_lock hAsks)).2
    rw [hClear.slots m hNonzero, if_neg hNe]
    rfl

/-- Under the guard, behind a real acquire nobody else asks for the mutex
unless the thread is the recorded owner already. -/
theorem handover_alone (hCons : Consistent sc s) {thread lock : Nat}
    (hMet : HandoverOk sc s (.lockAfter thread lock)) (hPc : s.pc thread = .acquired lock) :
    ∀ other ≠ thread, (s.pc other).asks = some lock → s.recorded lock = some thread := by
  intro other hNe hAsks
  have hIn := (hCons.pc_scope other lock (asks_lock hAsks)).1
  cases hAt : s.pc other with
  | run | released m =>
      rw [hAt] at hAsks
      simp [Pc.asks] at hAsks
  | requested m =>
      rw [hAt] at hAsks
      obtain rfl := Option.some.inj hAsks
      exact hMet other hIn hNe hAt
  | acquired m =>
      -- both would hold the mutex
      rw [hAt] at hAsks
      obtain rfl := Option.some.inj hAsks
      have hOne := hCons.acquired_owner other m hAt
      rw [hCons.acquired_owner thread m hPc, Option.some.injEq] at hOne
      exact absurd hOne.symm hNe

theorem waitInv_move {s' : State} {a : Action} (hCons : Consistent sc s) (h : WaitInv sc s)
    (hMet : HandoverOk sc s a) (hMove : Move sc s a s') : WaitInv sc s' := by
  cases hMove with
  | requestNew _ _ hPc hSlot => exact h.requestNew hPc hSlot
  | requestOld hThread hLock hPc hSlot hRecord =>
      exact h.requestOld hThread (Scope.lock_ne hLock) hPc hSlot hRecord
  | acquire hPc _ => exact h.setPc (by rw [hPc]; rfl)
  | @takeSlot thread lock tg hPc hSlot hTake =>
      refine h.takeSlot hCons hPc hSlot hTake ?_
      intro other hNe hAsks
      have hRecorded := handover_alone hCons hMet hPc other hNe hAsks
      unfold State.recorded at hRecorded
      rw [hSlot] at hRecorded
      simp at hRecorded
  | @changeOwner thread lock slot tg hPc hSlot hChange =>
      refine h.changeOwner hCons hPc hSlot hChange ?_
      intro other hNe hAsks
      have hRecorded := handover_alone hCons hMet hPc other hNe hAsks
      unfold State.recorded at hRecorded
      rw [hSlot] at hRecorded
      simpa using hRecorded
  | release hPc _ => exact h.setPc (by rw [hPc]; rfl)
  | keepSlot hPc _ _ =>
      exact h.setPc (by rw [hPc]; rfl)
  | clearSlot hPc hSlot hCount hClear => exact h.clearSlot hCons hPc hSlot hCount hClear
  | check search _ => exact ⟨h.edges, h.count, h.clean⟩

end Moves

theorem waitInv_init (sc : Scope) : WaitInv sc init := by
  refine ⟨fun thread => ?_, fun lock _ slot hSlot => ?_, fun i _ => rfl⟩
  · have hNot : ¬ init.tg.graph.IsVertex (process thread) := by
      intro hVertex
      obtain ⟨i, hLt, -⟩ := Digraph.isVertex_iff.mp hVertex
      exact Nat.not_lt_zero i hLt
    rw [Digraph.succ_of_not_isVertex hNot]
    exact (target_of_not_asks rfl).symm
  · obtain ⟨i, hFound, -⟩ := LockTable.slot?_eq_some.mp hSlot
    exact absurd (LockTable.searchLock_lt hFound) (Nat.not_lt_zero i)

theorem waitInv_reach {sc : Scope} {guard : State → Action → Prop} {s : State}
    (hGuard : ∀ s a, guard s a → HandoverOk sc s a) (h : Reach (step sc) guard init s) :
    WaitInv sc s := by
  apply reach_invariant h (waitInv_init sc)
  intro s a s' hCons hInv hMet hMove
  exact waitInv_move hCons hInv (hGuard s a hMet) hMove

/-! ## Requests as edges of the searched graph -/

/-- A thread asks for a mutex recorded for another thread. -/
def Requests (s : State) (u v : Nat) : Prop :=
  ∃ lock, (s.pc u).asks = some lock ∧ s.recorded lock = some v ∧ v ≠ u

theorem target_eq_singleton {s : State} {u v : Nat} (h : Requests s u v) :
    target s u = [process v] := by
  obtain ⟨lock, hAsks, hRecorded, hNe⟩ := h
  rw [target_of_asks hAsks, hRecorded]
  simp [hNe]

theorem target_cases (s : State) (u : Nat) :
    target s u = [] ∨ ∃ v, Requests s u v ∧ target s u = [process v] := by
  cases hAsks : (s.pc u).asks with
  | none => exact .inl (target_of_not_asks hAsks)
  | some lock =>
      rw [target_of_asks hAsks]
      cases hRecorded : s.recorded lock with
      | none => exact .inl rfl
      | some v =>
          by_cases hEq : v = u
          · left
            simp [hEq]
          · right
            exact ⟨v, ⟨lock, hAsks, hRecorded, hEq⟩, by simp [hEq]⟩

namespace WaitInv

variable {sc : Scope} {s : State}

/-- A request is an edge of the graph on indices. -/
theorem edge_of_requests (h : WaitInv sc s) (hCons : Consistent sc s) {u v : Nat}
    (hReq : Requests s u v) :
    ∃ i j, s.tg.graph.searchVertex (process u) = some i ∧
      s.tg.graph.searchVertex (process v) = some j ∧ s.tg.graph.Edge i j := by
  have hSucc : s.tg.graph.succ (process u) = [process v] := by
    rw [h.edges u, target_eq_singleton hReq]
  have hU : s.tg.graph.IsVertex (process u) := by
    by_contra hNot
    rw [Digraph.succ_of_not_isVertex hNot] at hSucc
    simp at hSucc
  have hV : s.tg.graph.IsVertex (process v) := by
    apply hCons.wellFormed.graph.isVertex_of_mem_succ (u := process u)
    rw [hSucc]
    exact List.mem_singleton_self _
  obtain ⟨i, hI⟩ := Option.ne_none_iff_exists'.mp hU
  obtain ⟨j, hJ⟩ := Option.ne_none_iff_exists'.mp hV
  refine ⟨i, j, hI, hJ, Digraph.searchVertex_lt hI, ?_⟩
  have hNext : (s.tg.graph.vertexList i).next = [process v] := by
    rw [← hSucc]
    simp [Digraph.succ, hI]
  unfold Digraph.adj
  rw [hNext]
  simp [hJ]

/-- An edge of the graph on indices is a request. -/
theorem requests_of_edge (h : WaitInv sc s) (hCons : Consistent sc s) {i j : Nat}
    (hEdge : s.tg.graph.Edge i j) :
    Requests s (s.tg.graph.vertexList i).pair.thId (s.tg.graph.vertexList j).pair.thId := by
  obtain ⟨hLt, hMem⟩ := hEdge
  set u := (s.tg.graph.vertexList i).pair.thId with hU
  have hPair : (s.tg.graph.vertexList i).pair = process u := by
    have hType := (hCons.vertex_scope _ (Digraph.isVertex_iff.mpr ⟨i, hLt, rfl⟩)).1
    unfold process
    rw [← hType]
  have hNext : (s.tg.graph.vertexList i).next = target s u := by
    rw [← h.edges u, hCons.wellFormed.graph.succ_eq hLt hPair]
  unfold Digraph.adj at hMem
  rw [hNext, List.mem_filterMap] at hMem
  obtain ⟨p, hp, hFound⟩ := hMem
  rcases target_cases s u with hNone | ⟨v, hReq, hOne⟩
  · rw [hNone] at hp
    simp at hp
  · rw [hOne, List.mem_singleton] at hp
    subst hp
    rw [Digraph.searchVertex_pair hFound]
    exact hReq

/-- Every thread asks for at most one mutex. -/
theorem functional (h : WaitInv sc s) (hCons : Consistent sc s) : s.tg.graph.Functional := by
  intro i hLt
  have hPair : (s.tg.graph.vertexList i).pair =
      process (s.tg.graph.vertexList i).pair.thId := by
    have hType := (hCons.vertex_scope _ (Digraph.isVertex_iff.mpr ⟨i, hLt, rfl⟩)).1
    unfold process
    rw [← hType]
  have hNext : (s.tg.graph.vertexList i).next.length ≤ 1 := by
    rw [← hCons.wellFormed.graph.succ_eq hLt hPair, h.edges]
    rcases target_cases s (s.tg.graph.vertexList i).pair.thId with hNone | ⟨v, -, hOne⟩
    · rw [hNone]
      simp
    · rw [hOne]
      simp
  have hFilter : (s.tg.graph.adj i).length ≤ (s.tg.graph.vertexList i).next.length :=
    List.length_filterMap_le _ _
  omega

end WaitInv

/-- Threads that wait in a circle: each one is blocked on a mutex that the
next one holds. -/
structure CircularWait (s : State) (n : Nat) (thread lock : Nat → Nat) : Prop where
  requested : ∀ i < n, s.pc (thread i) = .requested (lock i)
  held : ∀ i < n, s.owner (lock i) = some (thread ((i + 1) % n))

end DeadlockCheck
end LinuxCppLearn
