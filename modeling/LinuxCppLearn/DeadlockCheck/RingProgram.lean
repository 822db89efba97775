import LinuxCppLearn.DeadlockCheck.Programs

/-!
# The test program

`n` threads and `n` mutexes in a ring: thread `i` locks mutex `i`, sleeps, and
locks mutex `i + 1`, the last one mutex 0.  The source has four of them.

* `threadRountine`, `ringProgram` — the routines.
* `RingInv` — the tables while no thread has got its second mutex.
* `ring_report_exactly` — a closed ring is reported exactly if each thread has
  asked for its second mutex behind the first `lock_after` of its neighbour.
* `sleeping_ring_deadlocks` — if the sleep is long enough, every schedule ends in
  the closed ring, and the check reports it then and never before.
-/

namespace LinuxCppLearn
namespace DeadlockCheck

open StepSystem Quiescence Relation

/-- The neighbour of a thread. -/
def next (n i : Nat) : Nat :=
  (i + 1) % n

/-- `thread_rountine_1` to `thread_rountine_4`; ids start at 1. -/
def threadRountine (n i : Nat) : List Call :=
  [.lock (i + 1), .lock (next n i + 1), .unlock (next n i + 1), .unlock (i + 1)]

def ringScope (n : Nat) : Scope where
  threads := (Finset.range n).image Nat.succ
  locks := (Finset.range n).image Nat.succ
  thread_ne_zero := by simp
  lock_ne_zero := by simp

theorem mem_ring {n i : Nat} (h : i < n) : i + 1 ∈ (Finset.range n).image Nat.succ :=
  Finset.mem_image.mpr ⟨i, Finset.mem_range.mpr h, rfl⟩

theorem of_mem_ring {n t : Nat} (h : t ∈ (Finset.range n).image Nat.succ) :
    ∃ i < n, t = i + 1 := by
  obtain ⟨i, hMem, rfl⟩ := Finset.mem_image.mp h
  exact ⟨i, Finset.mem_range.mp hMem, rfl⟩

section Ring

variable {n i : Nat}

theorem next_lt (hTwo : 2 ≤ n) (i : Nat) : next n i < n :=
  Nat.mod_lt _ (by omega)

theorem next_ne (hTwo : 2 ≤ n) (hLt : i < n) : next n i ≠ i := by
  unfold next
  rcases Nat.lt_or_ge (i + 1) n with hIn | hOver
  · rw [Nat.mod_eq_of_lt hIn]
    omega
  · rw [show i + 1 = n by omega, Nat.mod_self]
    omega

theorem threadRountine_balanced (hNe : next n i ≠ i) : Balanced ∅ (threadRountine n i) := by
  have hOther : next n i + 1 ≠ i + 1 := by omega
  simp only [threadRountine, Balanced]
  refine ⟨Finset.notMem_empty _, ?_, Finset.mem_insert_self _ _, ?_, ?_⟩
  · simpa using hNe
  · simpa [Finset.mem_erase] using hNe.symm
  · ext l
    simp only [Finset.mem_erase, Finset.mem_insert, Finset.notMem_empty, iff_false]
    tauto

/-- The routine of the thread with the id `thread`. -/
def ringRoutine (n thread : Nat) : List Call :=
  if thread ∈ (ringScope n).threads then threadRountine n (thread - 1) else []

theorem ringRoutine_eq (hLt : i < n) : ringRoutine n (i + 1) = threadRountine n i := by
  unfold ringRoutine
  rw [if_pos (show i + 1 ∈ (ringScope n).threads from mem_ring hLt), Nat.add_sub_cancel]

/-- The program of `main`. -/
def ringProgram (n : Nat) (hTwo : 2 ≤ n) : Program (ringScope n) where
  routine := ringRoutine n
  balanced thread := by
    unfold ringRoutine
    split
    · rename_i hMem
      obtain ⟨i, hLt, rfl⟩ := of_mem_ring hMem
      exact threadRountine_balanced (next_ne hTwo hLt)
    · rfl
  scope thread lock hMem := by
    unfold ringRoutine at hMem
    split at hMem
    · rename_i hThread
      obtain ⟨i, hLt, rfl⟩ := of_mem_ring hThread
      refine ⟨hThread, ?_⟩
      simp only [threadRountine, Nat.add_sub_cancel, List.mem_cons, Call.lock.injEq,
        reduceCtorEq, List.not_mem_nil, or_false] at hMem
      rcases hMem with rfl | rfl
      · exact mem_ring hLt
      · exact mem_ring (next_lt hTwo i)
    · simp at hMem

/-- The four routines of the source. -/
example : (List.range 4).map (fun i => (ringProgram 4 (by decide)).routine (i + 1)) =
    [[.lock 1, .lock 2, .unlock 2, .unlock 1], [.lock 2, .lock 3, .unlock 3, .unlock 2],
      [.lock 3, .lock 4, .unlock 4, .unlock 3], [.lock 4, .lock 1, .unlock 1, .unlock 4]] := by
  decide

/-! ## The tables before anybody gets a second mutex -/

/-- Thread `i` has its first mutex recorded. -/
def lockedFirst (i : Nat) : Action :=
  .lockAfter (i + 1) (i + 1)

/-- Thread `i` asks for its second mutex. -/
def asksSecond (n i : Nat) : Action :=
  .lockBefore (i + 1) (next n i + 1)

/-- Thread `i` gets its second mutex. -/
def getsSecond (n i : Nat) : Action :=
  .acquire (i + 1) (next n i + 1)

/-- Thread `i` has asked for its second mutex behind the first `lock_after` of
its neighbour. -/
def InOrder (n : Nat) (as : List Action) (i : Nat) : Prop :=
  [lockedFirst (next n i), asksSecond n i].Sublist as

instance (n : Nat) (as : List Action) (i : Nat) : Decidable (InOrder n as i) :=
  inferInstanceAs (Decidable (List.Sublist _ _))

/-- Where thread `i` is, and what it has done for it. -/
inductive Place (n : Nat) (m : Machine) (as : List Action) (i : Nat) : Prop
  | first (hCalls : m.calls (i + 1) = threadRountine n i)
      (hPc : m.hooks.pc (i + 1) = .run ∨ m.hooks.pc (i + 1) = .requested (i + 1) ∨
        m.hooks.pc (i + 1) = .acquired (i + 1))
      (hNot : lockedFirst i ∉ as) (hNever : asksSecond n i ∉ as)
  | between (hCalls : m.calls (i + 1) = (threadRountine n i).tail)
      (hPc : m.hooks.pc (i + 1) = .run) (hIn : lockedFirst i ∈ as)
      (hNever : asksSecond n i ∉ as)
  | second (hCalls : m.calls (i + 1) = (threadRountine n i).tail)
      (hPc : m.hooks.pc (i + 1) = .requested (next n i + 1)) (hIn : lockedFirst i ∈ as)
      (hAsked : asksSecond n i ∈ as)

structure RingInv (n : Nat) (m : Machine) (as : List Action) : Prop where
  place : ∀ i < n, Place n m as i
  owner : ∀ i < n, lockedFirst i ∈ as → m.hooks.owner (i + 1) = some (i + 1)
  recorded : ∀ i < n, m.hooks.recorded (i + 1) =
    if lockedFirst i ∈ as then some (i + 1) else none
  edges : ∀ i < n, m.hooks.tg.graph.succ (process (i + 1)) =
    if InOrder n as i then [process (next n i + 1)] else []

theorem pair_sublist_concat {α : Type*} {x y a : α} {as : List α} :
    [x, y].Sublist (as ++ [a]) ↔ [x, y].Sublist as ∨ (y = a ∧ x ∈ as) := by
  constructor
  · intro h
    obtain ⟨before, behind, hSplit, hBefore, hBehind⟩ := List.sublist_append_iff.mp h
    rcases List.sublist_cons_iff.mp hBehind with hNil | ⟨rest, rfl, hRest⟩
    · rw [List.sublist_nil.mp hNil, List.append_nil] at hSplit
      exact .inl (hSplit ▸ hBefore)
    · rw [List.sublist_nil.mp hRest] at hSplit
      obtain ⟨hInit, hLast⟩ := List.append_inj' (show [x] ++ [y] = before ++ [a] from hSplit) rfl
      subst hInit
      exact .inr ⟨List.head_eq_of_cons_eq hLast, List.singleton_sublist.mp hBefore⟩
  · rintro (h | ⟨rfl, hMem⟩)
    · exact h.trans (List.sublist_append_left as [a])
    · exact (List.singleton_sublist.mpr hMem).append (List.Sublist.refl [y])

theorem inOrder_concat {as : List Action} {a : Action} :
    InOrder n (as ++ [a]) i ↔
      InOrder n as i ∨ (asksSecond n i = a ∧ lockedFirst (next n i) ∈ as) :=
  pair_sublist_concat

/-! ## What the steps do to them -/

variable {m m' : Machine} {as : List Action} {a : Action}

theorem ringInv_start (hTwo : 2 ≤ n) : RingInv n (ringProgram n hTwo).start [] where
  place i hi := .first (ringRoutine_eq hi) (.inl rfl) (by simp) (by simp)
  owner i _ hMem := by simp at hMem
  recorded i _ := by
    rw [if_neg (by simp)]
    rfl
  edges i _ := by
    rw [if_neg (by simp [InOrder])]
    rfl

theorem Place.keep (h : Place n m as i) (hPc : m'.hooks.pc (i + 1) = m.hooks.pc (i + 1))
    (hCalls : m'.calls (i + 1) = m.calls (i + 1)) (hLocked : lockedFirst i ≠ a)
    (hAsked : asksSecond n i ≠ a) : Place n m' (as ++ [a]) i := by
  have hMem : ∀ b, b ≠ a → (b ∈ as ++ [a] ↔ b ∈ as) := by
    intro b hNe
    simp [hNe]
  cases h with
  | first hAt hOld hNot hNever =>
      refine .first (hCalls.trans hAt) (hPc ▸ hOld) ?_ ?_
      · rwa [hMem _ hLocked]
      · rwa [hMem _ hAsked]
  | between hAt hOld hIn hNever =>
      refine .between (hCalls.trans hAt) (hPc.trans hOld) ?_ ?_
      · rwa [hMem _ hLocked]
      · rwa [hMem _ hAsked]
  | second hAt hOld hIn hIs =>
      refine .second (hCalls.trans hAt) (hPc.trans hOld) ?_ ?_
      · rwa [hMem _ hLocked]
      · rwa [hMem _ hAsked]

/-- The first call in every place is one of `pthread_mutex_lock`. -/
theorem Place.locks (h : Place n m as i) {c : Call} {calls : List Call}
    (hAt : m.calls (i + 1) = c :: calls) :
    (c = .lock (i + 1) ∧ calls = (threadRountine n i).tail ∧ lockedFirst i ∉ as) ∨
      (c = .lock (next n i + 1) ∧ lockedFirst i ∈ as ∧
        m.calls (i + 1) = (threadRountine n i).tail) := by
  cases h with
  | first hCalls _ hNot _ =>
      rw [hCalls] at hAt
      obtain ⟨rfl, rfl⟩ := List.cons.inj hAt
      exact .inl ⟨rfl, rfl, hNot⟩
  | between hCalls _ hIn _ =>
      have hHead := hAt.symm.trans hCalls
      obtain ⟨rfl, -⟩ := List.cons.inj hHead
      exact .inr ⟨rfl, hIn, hCalls⟩
  | second hCalls _ hIn _ =>
      have hHead := hAt.symm.trans hCalls
      obtain ⟨rfl, -⟩ := List.cons.inj hHead
      exact .inr ⟨rfl, hIn, hCalls⟩

/-- One thread moves, with an action of its own. -/
theorem RingInv.places (h : RingInv n m as) {pc : Pc} {owner : Nat → Option Nat}
    (hMoved : Moved m.hooks m'.hooks (i + 1) pc owner)
    (hCalls : ∀ j ≠ i, m'.calls (j + 1) = m.calls (j + 1))
    (hOwn : ∀ j ≠ i, lockedFirst j ≠ a ∧ asksSecond n j ≠ a)
    (hHere : Place n m' (as ++ [a]) i) : ∀ j < n, Place n m' (as ++ [a]) j := by
  intro j hj
  by_cases hEq : j = i
  · exact hEq ▸ hHere
  · refine (h.place j hj).keep ?_ (hCalls j hEq) (hOwn j hEq).1 (hOwn j hEq).2
    rw [hMoved.pc, Function.update_of_ne (by omega)]

/-- The tables are not touched, and no first `lock_after` or second `lock_before`
happens. -/
theorem RingInv.quiet (h : RingInv n m as) (hPlace : ∀ j < n, Place n m' (as ++ [a]) j)
    (hLocks : m'.hooks.tg.locks = m.hooks.tg.locks)
    (hGraph : m'.hooks.tg.graph = m.hooks.tg.graph)
    (hOwner : ∀ j < n, m.hooks.owner (j + 1) = some (j + 1) →
      m'.hooks.owner (j + 1) = some (j + 1))
    (hOther : ∀ j, lockedFirst j ≠ a ∧ asksSecond n j ≠ a) : RingInv n m' (as ++ [a]) := by
  have hMem : ∀ j, lockedFirst j ∈ as ++ [a] ↔ lockedFirst j ∈ as := by
    intro j
    simp [(hOther j).1]
  refine ⟨hPlace, fun j hj hIn => ?_, fun j hj => ?_, fun j hj => ?_⟩
  · exact hOwner j hj (h.owner j hj ((hMem j).mp hIn))
  · simp only [hMem]
    rw [← h.recorded j hj]
    unfold State.recorded
    rw [hLocks]
  · have hSame : InOrder n (as ++ [a]) j ↔ InOrder n as j := by
      rw [inOrder_concat]
      simp [(hOther j).2]
    simp only [hSame]
    rw [hGraph]
    exact h.edges j hj

theorem slot_none_iff {s : State} {lock : Nat} :
    s.recorded lock = none ↔ s.tg.locks.slot? lock = none := by
  unfold State.recorded
  rw [Option.map_eq_none_iff]

/-- The first request: there is no slot yet. -/
theorem ring_asks_first (hHeld : HeldInv (ringScope n) m) (h : RingInv n m as) (hi : i < n)
    (hStep : step (ringScope n) m.hooks (.lockBefore (i + 1) (i + 1)) = some m'.hooks)
    (hMoved : Moved m.hooks m'.hooks (i + 1) (.requested (i + 1)) m.hooks.owner)
    (hCalls : m'.calls = m.calls) (hNe : next n i ≠ i) (hNot : lockedFirst i ∉ as)
    (hAt : m.calls (i + 1) = threadRountine n i) (hNever : asksSecond n i ∉ as) :
    RingInv n m' (as ++ [.lockBefore (i + 1) (i + 1)]) := by
  have hNone : m.hooks.tg.locks.slot? (i + 1) = none := by
    rw [← slot_none_iff, h.recorded i hi, if_neg hNot]
  have hOther : ∀ j, lockedFirst j ≠ .lockBefore (i + 1) (i + 1) ∧
      asksSecond n j ≠ .lockBefore (i + 1) (i + 1) := by
    intro j
    refine ⟨by simp [lockedFirst], ?_⟩
    simp only [asksSecond, ne_eq, Action.lockBefore.injEq, Nat.add_right_cancel_iff, not_and]
    rintro rfl
    exact hNe
  have hHere : Place n m' (as ++ [.lockBefore (i + 1) (i + 1)]) i := by
    refine .first (by rw [hCalls, hAt]) (.inr (.inl ?_)) ?_ ?_
    · rw [hMoved.pc, Function.update_self]
    · simpa [lockedFirst] using hNot
    · simpa [(hOther i).2] using hNever
  have hPlaces := h.places hMoved (fun j _ => by rw [hCalls]) (fun j _ => hOther j) hHere
  have hSame : m'.hooks.tg = m.hooks.tg := by
    generalize hEq : m'.hooks = s' at hStep
    cases step_move hHeld.consistent hStep with
    | requestNew _ _ _ _ => rfl
    | requestOld _ _ _ hSlot _ =>
        rw [hNone] at hSlot
        simp at hSlot
  refine h.quiet hPlaces (by rw [hSame]) (by rw [hSame]) (fun j _ hOwn => ?_) hOther
  rwa [hMoved.owner]

/-- The second request: an edge to the neighbour, if it is recorded. -/
theorem ring_asks_second (hHeld : HeldInv (ringScope n) m) (h : RingInv n m as) (hi : i < n)
    (hNext : next n i < n) (hNe : next n i ≠ i)
    (hStep : step (ringScope n) m.hooks (asksSecond n i) = some m'.hooks)
    (hMoved : Moved m.hooks m'.hooks (i + 1) (.requested (next n i + 1)) m.hooks.owner)
    (hCalls : m'.calls = m.calls) (hAt : m.calls (i + 1) = (threadRountine n i).tail)
    (hIn : lockedFirst i ∈ as) (hNever : asksSecond n i ∉ as) :
    RingInv n m' (as ++ [asksSecond n i]) := by
  have hLocked : ∀ j, lockedFirst j ≠ asksSecond n i := by simp [lockedFirst, asksSecond]
  have hMem : ∀ j, lockedFirst j ∈ as ++ [asksSecond n i] ↔ lockedFirst j ∈ as := by
    intro j
    simp [hLocked j]
  have hOther : ∀ j ≠ i, asksSecond n j ≠ asksSecond n i := by
    intro j hj
    simp [asksSecond, hj]
  have hHere : Place n m' (as ++ [asksSecond n i]) i := by
    refine .second (by rw [hCalls, hAt]) ?_ ((hMem i).mpr hIn) (by simp)
    rw [hMoved.pc, Function.update_self]
  have hPlaces := h.places hMoved (fun j _ => by rw [hCalls])
    (fun j hj => ⟨hLocked j, hOther j hj⟩) hHere
  have hBefore : ¬ InOrder n as i := fun hIs =>
    hNever (hIs.subset (List.mem_cons_of_mem _ (List.mem_singleton_self _)))
  have hEdge := h.edges i hi
  rw [if_neg hBefore] at hEdge
  have hRecorded := h.recorded (next n i) hNext
  -- the requests of the others are in order or not, as before
  have hKept : ∀ j ≠ i, InOrder n (as ++ [asksSecond n i]) j ↔ InOrder n as j := by
    intro j hj
    rw [inOrder_concat]
    simp [hOther j hj]
  have hNow : InOrder n (as ++ [asksSecond n i]) i ↔ lockedFirst (next n i) ∈ as := by
    rw [inOrder_concat]
    simp [hBefore]
  have hTables : (∀ l, m'.hooks.recorded l = m.hooks.recorded l) ∧
      ∀ q, m'.hooks.tg.graph.succ q = if q = process (i + 1) ∧ lockedFirst (next n i) ∈ as
        then [process (next n i + 1)] else m.hooks.tg.graph.succ q := by
    generalize hEq : m'.hooks = s' at hStep
    cases step_move hHeld.consistent hStep with
    | requestNew _ _ _ hSlot =>
        have hNot : lockedFirst (next n i) ∉ as := by
          intro hIs
          rw [if_pos hIs, recorded_eq_some] at hRecorded
          obtain ⟨slot, hSome, -⟩ := hRecorded
          rw [hSlot] at hSome
          simp at hSome
        refine ⟨fun _ => rfl, fun q => ?_⟩
        rw [if_neg (by simp [hNot])]
        rfl
    | @requestOld _ _ slot tg _ _ _ hSlot hRecord =>
        have hIs : lockedFirst (next n i) ∈ as := by
          by_contra hNot
          rw [if_neg hNot, slot_none_iff] at hRecorded
          rw [hSlot] at hRecorded
          simp at hRecorded
        rw [if_pos hIs, recorded_eq_some] at hRecorded
        obtain ⟨slot', hSome, hThread⟩ := hRecorded
        obtain rfl : slot = slot' := Option.some.inj (hSlot.symm.trans hSome)
        refine ⟨fun l => ?_, fun q => ?_⟩
        · show (tg.locks.slot? l).map LockSlot.thId = (m.hooks.tg.locks.slot? l).map LockSlot.thId
          rw [hRecord.slots]
          by_cases hSame : l = next n i + 1
          · subst hSame
            rw [if_pos rfl, hSlot]
            rfl
          · rw [if_neg hSame]
        · have hAsks : ¬ m.hooks.tg.Asks (i + 1) slot.thId := by
            unfold TaskGraph.Asks
            rw [hEdge, hThread]
            simpa using hNe.symm
          show tg.graph.succ q = _
          rw [hRecord.edge_new hAsks, hThread]
          by_cases hSelf : q = process (i + 1)
          · rw [if_pos hSelf, if_pos ⟨hSelf, hIs⟩, hSelf, hEdge]
            rfl
          · rw [if_neg hSelf, if_neg (fun hBoth => hSelf hBoth.1)]
  refine ⟨hPlaces, fun j hj hIs => ?_, fun j hj => ?_, fun j hj => ?_⟩
  · rw [hMoved.owner]
    exact h.owner j hj ((hMem j).mp hIs)
  · simp only [hMem]
    rw [hTables.1]
    exact h.recorded j hj
  · rw [hTables.2]
    by_cases hEq : j = i
    · subst hEq
      simp only [hNow, true_and, hEdge]
    · simp only [hKept j hEq]
      rw [if_neg, h.edges j hj]
      rintro ⟨hSame, -⟩
      exact hEq (by simpa using process_injective.mp hSame)

/-- The first `lock_after`: a slot is taken. -/
theorem ring_locks_first (hHeld : HeldInv (ringScope n) m) (h : RingInv n m as) (hi : i < n)
    (hStep : step (ringScope n) m.hooks (lockedFirst i) = some m'.hooks)
    (hMoved : Moved m.hooks m'.hooks (i + 1) .run m.hooks.owner)
    (hPc : m.hooks.pc (i + 1) = .acquired (i + 1))
    (hCalls : m'.calls = Function.update m.calls (i + 1) (threadRountine n i).tail)
    (hNot : lockedFirst i ∉ as) (hNever : asksSecond n i ∉ as) :
    RingInv n m' (as ++ [lockedFirst i]) := by
  have hNone : m.hooks.tg.locks.slot? (i + 1) = none := by
    rw [← slot_none_iff, h.recorded i hi, if_neg hNot]
  have hAsked : ∀ j, asksSecond n j ≠ lockedFirst i := by simp [lockedFirst, asksSecond]
  have hOther : ∀ j ≠ i, lockedFirst j ≠ lockedFirst i := by
    intro j hj
    simp [lockedFirst, hj]
  have hMem : ∀ j, lockedFirst j ∈ as ++ [lockedFirst i] ↔ lockedFirst j ∈ as ∨ j = i := by
    intro j
    simp [lockedFirst]
  have hHere : Place n m' (as ++ [lockedFirst i]) i := by
    refine .between (by rw [hCalls, Function.update_self]) ?_ (by simp) ?_
    · rw [hMoved.pc, Function.update_self]
    · simpa [hAsked i] using hNever
  have hPlaces := h.places hMoved
    (fun j hj => by rw [hCalls, Function.update_of_ne (by omega)])
    (fun j hj => ⟨hOther j hj, hAsked j⟩) hHere
  have hTables : (∀ l ≠ 0, m'.hooks.recorded l =
      if l = i + 1 then some (i + 1) else m.hooks.recorded l) ∧
        m'.hooks.tg.graph = m.hooks.tg.graph := by
    generalize hEq : m'.hooks = s' at hStep
    cases step_move hHeld.consistent hStep with
    | @takeSlot _ _ tg _ _ hTake =>
        refine ⟨fun l hl => ?_, hTake.graph⟩
        show (tg.locks.slot? l).map LockSlot.thId = _
        rw [hTake.slots l hl]
        split
        · rfl
        · rfl
    | changeOwner _ hSlot _ =>
        rw [hNone] at hSlot
        simp at hSlot
  refine ⟨hPlaces, fun j hj hIs => ?_, fun j hj => ?_, fun j hj => ?_⟩
  · rw [hMoved.owner]
    rcases (hMem j).mp hIs with hOld | rfl
    · exact h.owner j hj hOld
    · exact hHeld.consistent.acquired_owner (j + 1) (j + 1) hPc
  · rw [hTables.1 (j + 1) (by omega)]
    by_cases hEq : j = i
    · subst hEq
      rw [if_pos rfl, if_pos (by simp)]
    · rw [if_neg (by omega), h.recorded j hj]
      simp only [hMem, hEq, or_false]
  · have hSame : InOrder n (as ++ [lockedFirst i]) j ↔ InOrder n as j := by
      rw [inOrder_concat]
      simp [hAsked j]
    simp only [hSame]
    rw [hTables.2]
    exact h.edges j hj

/-- **A step in the ring** keeps the tables, or a thread gets its second mutex. -/
theorem ring_step (hTwo : 2 ≤ n) (hHeld : HeldInv (ringScope n) m) (h : RingInv n m as)
    (hStep : Machine.step (ringScope n) m a = some m') :
    (∃ i < n, a = getsSecond n i) ∨ RingInv n m' (as ++ [a]) := by
  have hHooks := (machine_step_eq_some.mp hStep).2.1
  have hScope : ∀ thread lock, (m.hooks.pc thread).lock = some lock → ∃ i < n, thread = i + 1 :=
    fun thread lock hLock => of_mem_ring (hHeld.consistent.pc_scope thread lock hLock).1
  cases step_shift hStep with
  | @asks thread lock calls hThread hPc hAt hMoved hCalls =>
      right
      obtain ⟨i, hi, rfl⟩ := of_mem_ring hThread
      cases h.place i hi with
      | first hRoutine _ hNot hNever =>
          obtain rfl : lock = i + 1 := by
            have hHead := hAt.symm.trans hRoutine
            exact Call.lock.inj (List.cons.inj hHead).1
          exact ring_asks_first hHeld h hi hHooks hMoved hCalls (next_ne hTwo hi) hNot hRoutine
            hNever
      | between hRoutine _ hIn hNever =>
          obtain rfl : lock = next n i + 1 := by
            have hHead := hAt.symm.trans hRoutine
            exact Call.lock.inj (List.cons.inj hHead).1
          exact ring_asks_second hHeld h hi (next_lt hTwo i) (next_ne hTwo hi) hHooks hMoved
            hCalls hRoutine hIn hNever
      | second _ hAsked _ _ =>
          rw [hPc] at hAsked
          simp at hAsked
  | @takes thread lock calls hPc hAt hFree hMoved hCalls =>
      obtain ⟨i, hi, rfl⟩ := hScope thread lock (by rw [hPc]; rfl)
      rcases (h.place i hi).locks hAt with ⟨hCall, hRest, hNot⟩ | ⟨hCall, -, -⟩
      · right
        obtain rfl : lock = i + 1 := Call.lock.inj hCall
        have hOther : ∀ j, lockedFirst j ≠ .acquire (i + 1) (i + 1) ∧
            asksSecond n j ≠ .acquire (i + 1) (i + 1) := by
          simp [lockedFirst, asksSecond]
        have hNever : asksSecond n i ∉ as := by
          cases h.place i hi with
          | first _ _ _ hNever => exact hNever
          | between _ _ hIn _ | second _ _ hIn _ => exact absurd hIn hNot
        have hHere : Place n m' (as ++ [.acquire (i + 1) (i + 1)]) i := by
          refine .first (by rw [hCalls, hAt, hRest]; rfl) (.inr (.inr ?_)) ?_ ?_
          · rw [hMoved.pc, Function.update_self]
          · simpa [(hOther i).1] using hNot
          · simpa [(hOther i).2] using hNever
        have hPlaces := h.places hMoved (fun j _ => by rw [hCalls]) (fun j _ => hOther j) hHere
        have hSame : m'.hooks.tg = m.hooks.tg := by
          generalize hEq : m'.hooks = s' at hHooks
          cases step_move hHeld.consistent hHooks with
          | acquire _ _ => rfl
        refine h.quiet hPlaces (by rw [hSame]) (by rw [hSame]) (fun j _ hOwn => ?_) hOther
        rw [hMoved.owner]
        by_cases hEq : j + 1 = i + 1
        · rw [hEq, Function.update_self]
        · rwa [Function.update_of_ne hEq]
      · obtain rfl : lock = next n i + 1 := Call.lock.inj hCall
        exact .inl ⟨i, hi, rfl⟩
  | @locked thread lock calls hPc hAt hMoved hCalls =>
      right
      obtain ⟨i, hi, rfl⟩ := hScope thread lock (by rw [hPc]; rfl)
      cases h.place i hi with
      | first hRoutine _ hNot hNever =>
          obtain ⟨hCall, rfl⟩ := List.cons.inj (hAt.symm.trans hRoutine)
          obtain rfl : lock = i + 1 := Call.lock.inj hCall
          exact ring_locks_first hHeld h hi hHooks hMoved hPc hCalls hNot hNever
      | between _ hAsked _ _ | second _ hAsked _ _ =>
          rw [hPc] at hAsked
          simp at hAsked
  | @gives thread lock calls hPc hAt hOwn hMoved hCalls =>
      obtain ⟨i, hi, rfl⟩ := of_mem_ring (hHeld.consistent.owner_scope thread lock hOwn).1
      rcases (h.place i hi).locks hAt with ⟨hCall, -⟩ | ⟨hCall, -⟩
      · simp at hCall
      · simp at hCall
  | @unlocked thread lock calls hPc hAt hMoved hCalls =>
      obtain ⟨i, hi, rfl⟩ := hScope thread lock (by rw [hPc]; rfl)
      rcases (h.place i hi).locks hAt with ⟨hCall, -⟩ | ⟨hCall, -⟩
      · simp at hCall
      · simp at hCall
  | looks hPc hOwner hCalls =>
      right
      have hOther : ∀ j, lockedFirst j ≠ .check ∧ asksSecond n j ≠ .check := by
        simp [lockedFirst, asksSecond]
      have hPlaces : ∀ j < n, Place n m' (as ++ [.check]) j := fun j hj =>
        (h.place j hj).keep (by rw [hPc]) (by rw [hCalls]) (hOther j).1 (hOther j).2
      have hSame : m'.hooks.tg.locks = m.hooks.tg.locks ∧
          m'.hooks.tg.graph = m.hooks.tg.graph := by
        generalize hEq : m'.hooks = s' at hHooks
        cases step_move hHeld.consistent hHooks with
        | check _ _ => exact ⟨rfl, rfl⟩
      refine h.quiet hPlaces hSame.1 hSame.2 (fun j _ hOwn => ?_) hOther
      rwa [hOwner]

/-! ## The closed ring -/

/-- The threads of a closed ring, and the mutexes that they wait for. -/
def ringThread (i : Nat) : Nat :=
  i + 1

def ringLock (n i : Nat) : Nat :=
  next n i + 1

/-- Every thread waits for its neighbour. -/
def RingClosed (n : Nat) (m : Machine) : Prop :=
  CircularWait m.hooks n ringThread (ringLock n)

/-- Thread `i` has got its second mutex, now or earlier. -/
def GotSecond (n : Nat) (m : Machine) (i : Nat) : Prop :=
  (∀ lock, .lock lock ∉ m.calls (i + 1)) ∨
    (m.calls (i + 1) = (threadRountine n i).tail ∧
      m.hooks.pc (i + 1) = .acquired (next n i + 1))

/-- It stays so. -/
theorem gotSecond_step (h : GotSecond n m i)
    (hStep : Machine.step (ringScope n) m a = some m') : GotSecond n m' i := by
  have hKept : ∀ {thread : Nat} {pc : Pc} {owner : Nat → Option Nat},
      Moved m.hooks m'.hooks thread pc owner → i + 1 ≠ thread →
        m'.calls (i + 1) = m.calls (i + 1) → GotSecond n m' i := by
    intro thread pc owner hMoved hNe hCalls
    unfold GotSecond
    rwa [hCalls, hMoved.pc, Function.update_of_ne hNe]
  have hHere : ∀ {thread : Nat} {c : Call} {calls : List Call}, i + 1 = thread →
      m.calls thread = c :: calls → m.hooks.pc thread ≠ .acquired (next n i + 1) →
        ∀ lock, .lock lock ∉ m.calls (i + 1) := by
    rintro thread c calls rfl hAt hPc
    rcases h with hNone | ⟨-, hAcquired⟩
    · exact hNone
    · exact absurd hAcquired hPc
  cases step_shift hStep with
  | @asks thread lock calls _ hPc hAt hMoved hCalls =>
      by_cases hEq : i + 1 = thread
      · exact .inl (by rw [hCalls]; exact hHere hEq hAt (by simp [hPc]))
      · exact hKept hMoved hEq (by rw [hCalls])
  | @takes thread lock calls hPc hAt _ hMoved hCalls =>
      by_cases hEq : i + 1 = thread
      · exact .inl (by rw [hCalls]; exact hHere hEq hAt (by simp [hPc]))
      · exact hKept hMoved hEq (by rw [hCalls])
  | @locked thread lock calls hPc hAt hMoved hCalls =>
      by_cases hEq : i + 1 = thread
      · left
        subst hEq
        rw [hCalls, Function.update_self]
        rcases h with hNone | ⟨hTail, -⟩
        · rw [hAt] at hNone
          exact fun l hMem => hNone l (List.mem_cons_of_mem _ hMem)
        · obtain ⟨-, rfl⟩ := List.cons.inj (hAt.symm.trans hTail)
          simp
      · exact hKept hMoved hEq (by rw [hCalls, Function.update_of_ne hEq])
  | @gives thread lock calls hPc hAt _ hMoved hCalls =>
      by_cases hEq : i + 1 = thread
      · exact .inl (by rw [hCalls]; exact hHere hEq hAt (by simp [hPc]))
      · exact hKept hMoved hEq (by rw [hCalls])
  | @unlocked thread lock calls hPc hAt hMoved hCalls =>
      by_cases hEq : i + 1 = thread
      · left
        have hNone := hHere hEq hAt (by simp [hPc])
        subst hEq
        rw [hAt] at hNone
        rw [hCalls, Function.update_self]
        exact fun l hMem => hNone l (List.mem_cons_of_mem _ hMem)
      · exact hKept hMoved hEq (by rw [hCalls, Function.update_of_ne hEq])
  | looks hPc _ hCalls =>
      unfold GotSecond
      rwa [hCalls, hPc]

/-- In a closed ring nobody has got a second mutex. -/
theorem RingClosed.not_gotSecond (h : RingClosed n m) (hHeld : HeldInv (ringScope n) m)
    (hi : i < n) : ¬ GotSecond n m i := by
  have hPc : m.hooks.pc (i + 1) = .requested (next n i + 1) := h.requested i hi
  rintro (hNone | ⟨-, hAcquired⟩)
  · obtain ⟨held, -, -, hCall⟩ := hHeld.thread (i + 1)
    have hHead := hCall (.lock (next n i + 1)) (by rw [hPc]; rfl)
    obtain ⟨calls, hAt⟩ := List.head?_eq_some_iff.mp hHead
    exact hNone _ (by rw [hAt]; exact List.mem_cons_self)
  · rw [hPc] at hAcquired
    simp at hAcquired

/-- The thread of a vertex of the ring. -/
theorem ring_vertex (hHeld : HeldInv (ringScope n) m) {u : Nat}
    (hLt : u < m.hooks.tg.graph.vertexNum) :
    ∃ i < n, (m.hooks.tg.graph.vertexList u).pair = process (i + 1) := by
  obtain ⟨hType, hMem⟩ :=
    hHeld.consistent.vertex_scope _ (Digraph.isVertex_iff.mpr ⟨u, hLt, rfl⟩)
  obtain ⟨i, hi, hId⟩ := of_mem_ring hMem
  refine ⟨i, hi, ?_⟩
  unfold process
  rw [← hType, ← hId]

/-- An edge is a request made in order. -/
theorem ring_link_of_edge (hHeld : HeldInv (ringScope n) m) (h : RingInv n m as) {u v : Nat}
    (hEdge : m.hooks.tg.graph.Edge u v) :
    Circles.Link n (InOrder n as) ((m.hooks.tg.graph.vertexList u).pair.thId - 1)
      ((m.hooks.tg.graph.vertexList v).pair.thId - 1) := by
  obtain ⟨hLt, -, hMem⟩ := hHeld.consistent.wellFormed.graph.edge_iff.mp hEdge
  obtain ⟨i, hi, hPair⟩ := ring_vertex hHeld hLt
  rw [hPair, h.edges i hi] at hMem
  split at hMem
  · rename_i hOrder
    rw [List.mem_singleton.mp hMem, hPair]
    exact ⟨hi, hOrder, rfl⟩
  · simp at hMem

/-- A request made in order is an edge. -/
theorem ring_edge_of_link (hHeld : HeldInv (ringScope n) m) (h : RingInv n m as) {i j : Nat}
    (hLink : Circles.Link n (InOrder n as) i j) :
    m.hooks.tg.graph.Edge ((m.hooks.tg.graph.searchVertex (process (i + 1))).getD 0)
      ((m.hooks.tg.graph.searchVertex (process (j + 1))).getD 0) := by
  have hWf := hHeld.consistent.wellFormed.graph
  obtain ⟨hi, hOrder, rfl⟩ := hLink
  have hMem : process (next n i + 1) ∈ m.hooks.tg.graph.succ (process (i + 1)) := by
    rw [h.edges i hi, if_pos hOrder]
    exact List.mem_singleton_self _
  have hU : m.hooks.tg.graph.IsVertex (process (i + 1)) := by
    by_contra hNot
    rw [Digraph.succ_of_not_isVertex hNot] at hMem
    simp at hMem
  obtain ⟨u, hFound⟩ := Option.ne_none_iff_exists'.mp hU
  obtain ⟨v, hFound'⟩ := Option.ne_none_iff_exists'.mp (hWf.isVertex_of_mem_succ hMem)
  rw [hFound, show (i + 1) % n = next n i from rfl, hFound', Option.getD_some, Option.getD_some,
    hWf.edge_iff, Digraph.searchVertex_pair hFound, Digraph.searchVertex_pair hFound']
  exact ⟨Digraph.searchVertex_lt hFound, Digraph.searchVertex_lt hFound', hMem⟩

/-- Every thread has one edge at most. -/
theorem ring_functional (hHeld : HeldInv (ringScope n) m) (h : RingInv n m as) :
    m.hooks.tg.graph.Functional := by
  intro u hLt
  obtain ⟨i, hi, hPair⟩ := ring_vertex hHeld hLt
  have hNext : (m.hooks.tg.graph.vertexList u).next.length ≤ 1 := by
    rw [← hHeld.consistent.wellFormed.graph.succ_eq hLt hPair, h.edges i hi]
    split <;> simp
  have hFilter : (m.hooks.tg.graph.adj u).length ≤ (m.hooks.tg.graph.vertexList u).next.length :=
    List.length_filterMap_le _ _
  omega

/-- **What the check reports** before anybody has got a second mutex. -/
theorem ring_reported_iff (hTwo : 2 ≤ n) (hHeld : HeldInv (ringScope n) m)
    (h : RingInv n m as) : Reported (ringScope n) m ↔ ∀ i < n, InOrder n as i := by
  have hWf := hHeld.consistent.wellFormed.graph
  constructor
  · rintro ⟨m', hStep, hReport⟩
    have hHooks := (machine_step_eq_some.mp hStep).2.1
    generalize m'.hooks = s' at hHooks hReport
    cases step_move hHeld.consistent hHooks with
    | check search hRun =>
        obtain ⟨u, hCycle⟩ :=
          Digraph.checkDeadLock_report hWf (ring_functional hHeld h) hRun hReport
        exact Circles.ring_all (TransGen.lift
          (fun k => (m.hooks.tg.graph.vertexList k).pair.thId - 1)
          (fun _ _ hEdge => ring_link_of_edge hHeld h hEdge) u u hCycle)
  · intro hAll
    obtain ⟨search, hRun⟩ := Digraph.checkDeadLock_returns hWf m.hooks.tg.search
    have hCycle := TransGen.lift
      (fun k => (m.hooks.tg.graph.searchVertex (process (k + 1))).getD 0)
      (fun _ _ hLink => ring_edge_of_link hHeld h hLink) 0 0
      (Circles.ring_closed (by omega) hAll)
    refine reported_of_check (s := { m.hooks with tg := { m.hooks.tg with search := search } })
      ?_ ?_
    · exact step_eq_some.mpr ⟨trivial, by simp [effect, hRun]⟩
    · exact Digraph.checkDeadLock_complete hWf hCycle hRun

/-- The tables in front of a closed ring. -/
theorem ringInv_of_closed (hTwo : 2 ≤ n)
    (hRun : run (Machine.step (ringScope n)) (ringProgram n hTwo).start as = some m)
    (hClosed : RingClosed n m) : RingInv n m as := by
  have hBoth : HeldInv (ringScope n) m ∧ ((∃ i < n, GotSecond n m i) ∨ RingInv n m as) := by
    refine run_invariant (P := fun as m => HeldInv (ringScope n) m ∧
      ((∃ i < n, GotSecond n m i) ∨ RingInv n m as)) hRun
      ⟨heldInv_start _, .inr (ringInv_start hTwo)⟩ ?_
    rintro as m a m' - ⟨hHeld, hOld⟩ hStep
    refine ⟨heldInv_step hHeld hStep, ?_⟩
    rcases hOld with ⟨i, hi, hGot⟩ | hInv
    · exact .inl ⟨i, hi, gotSecond_step hGot hStep⟩
    · rcases ring_step hTwo hHeld hInv hStep with ⟨i, hi, rfl⟩ | hNew
      · left
        refine ⟨i, hi, .inr ?_⟩
        cases step_shift hStep with
        | takes hPc hAt _ hMoved hCalls =>
            rw [hCalls, hMoved.pc, Function.update_self]
            rcases (hInv.place i hi).locks hAt with ⟨hCall, -, -⟩ | ⟨-, -, hTail⟩
            · have hSame := Call.lock.inj hCall
              exact absurd (by omega) (next_ne hTwo hi)
            · exact ⟨hTail, rfl⟩
      · exact .inr hNew
  obtain ⟨hHeld, ⟨i, hi, hGot⟩ | hInv⟩ := hBoth
  · exact absurd hGot (hClosed.not_gotSecond hHeld hi)
  · exact hInv

/-- **The closed ring is reported exactly** if every thread has asked for its
second mutex behind the first `lock_after` of its neighbour. -/
theorem ring_report_exactly (hTwo : 2 ≤ n)
    (hRun : run (Machine.step (ringScope n)) (ringProgram n hTwo).start as = some m)
    (hClosed : RingClosed n m) :
    Reported (ringScope n) m ↔ ∀ i < n, InOrder n as i := by
  have hHeld : HeldInv (ringScope n) m := heldInv_reach (reachable_of_run hRun)
  exact ring_reported_iff hTwo hHeld (ringInv_of_closed hTwo hRun hClosed)

/-- A closed ring, tested thread by thread. -/
def closedTest (n : Nat) (m : Machine) : Bool :=
  decide (∀ i < n, m.hooks.pc (i + 1) = .requested (next n i + 1) ∧
    m.hooks.owner (next n i + 1) = some (next n i + 1))

theorem ringClosed_of_test (h : closedTest n m = true) : RingClosed n m := by
  have hAll := of_decide_eq_true h
  exact ⟨fun i hi => (hAll i hi).1, fun i hi => (hAll i hi).2⟩

/-- All first mutexes, then all second requests. -/
def sleptTrace (n : Nat) : List Action :=
  (List.range n).flatMap (fun i => lockCall (i + 1) (i + 1)) ++
    (List.range n).map (asksSecond n)

/-- The first thread asks for its second mutex before its neighbour has the first one. -/
def hastyTrace (n : Nat) : List Action :=
  lockCall 1 1 ++ [asksSecond n 0] ++
    ((List.range n).tail.flatMap fun i => lockCall (i + 1) (i + 1)) ++
      (List.range n).tail.map (asksSecond n)

/-- The four threads of the source, with the sleep and without it. -/
theorem ring_report_exactly_four :
    (∃ m, RingClosed 4 m ∧ Reported (ringScope 4) m) ∧
      ∃ m, RingClosed 4 m ∧ ¬ Reported (ringScope 4) m := by
  have hClosed : ∀ as, (run (Machine.step (ringScope 4)) (ringProgram 4 (by decide)).start as).map
      (closedTest 4) = some true →
        ∃ m, RingClosed 4 m ∧ (Reported (ringScope 4) m ↔ ∀ i < 4, InOrder 4 as i) := by
    intro as hRun
    obtain ⟨m, hRun, hTest⟩ := Option.map_eq_some_iff.mp hRun
    have hRing := ringClosed_of_test hTest
    exact ⟨m, hRing, ring_report_exactly (by decide) hRun hRing⟩
  obtain ⟨m, hRing, hIff⟩ := hClosed (sleptTrace 4) (by decide)
  obtain ⟨m', hRing', hIff'⟩ := hClosed (hastyTrace 4) (by decide)
  refine ⟨⟨m, hRing, hIff.mpr (by decide)⟩, m', hRing', fun hReport => ?_⟩
  exact absurd (hIff'.mp hReport) (by decide)

/-! ## With the sleep -/

/-- A thread asks for its second mutex when every thread has locked its first
one: what `sleep(1)` is there for. -/
def Sleeps (n : Nat) (m : Machine) (a : Action) : Prop :=
  ∀ i < n, a = asksSecond n i → ∀ j < n, .lock (j + 1) ∉ m.calls (j + 1)

instance (n : Nat) (m : Machine) (a : Action) : Decidable (Sleeps n m a) :=
  inferInstanceAs (Decidable (∀ i < n, _ → _))

/-- The tables in a run with the sleep. -/
structure SleepInv (n : Nat) (m : Machine) (as : List Action) : Prop where
  held : HeldInv (ringScope n) m
  ring : RingInv n m as
  inOrder : ∀ i < n, asksSecond n i ∈ as → InOrder n as i
  allLocked : ∀ i < n, asksSecond n i ∈ as → ∀ j < n, lockedFirst j ∈ as

/-- The call of the first mutex is over. -/
theorem Place.locked_iff (h : Place n m as i) (hNe : next n i ≠ i) :
    .lock (i + 1) ∉ m.calls (i + 1) ↔ lockedFirst i ∈ as := by
  cases h with
  | first hCalls _ hNot _ =>
      rw [hCalls]
      simp [threadRountine, hNot]
  | between hCalls _ hIn _ | second hCalls _ hIn _ =>
      rw [hCalls]
      simp [threadRountine, hIn, hNe.symm]

theorem sleepInv_step (hTwo : 2 ≤ n) (h : SleepInv n m as) (hMet : Sleeps n m a)
    (hStep : Machine.step (ringScope n) m a = some m') : SleepInv n m' (as ++ [a]) := by
  have hMono : ∀ {i}, InOrder n as i → InOrder n (as ++ [a]) i := fun hOld =>
    inOrder_concat.mpr (.inl hOld)
  rcases ring_step hTwo h.held h.ring hStep with ⟨i, hi, rfl⟩ | hRing
  · -- the second mutex is held by its first owner
    exfalso
    cases step_shift hStep with
    | takes hPc hAt hFree _ _ =>
        have hAsked : asksSecond n i ∈ as := by
          cases h.ring.place i hi with
          | first _ hOld _ _ =>
              rw [hPc] at hOld
              have hNe := next_ne hTwo hi
              simp [hNe] at hOld
          | between _ hOld _ _ =>
              rw [hPc] at hOld
              simp at hOld
          | second _ _ _ hAsked => exact hAsked
        have hOwn := h.ring.owner _ (next_lt hTwo i)
          (h.allLocked i hi hAsked _ (next_lt hTwo i))
        rw [hFree] at hOwn
        simp at hOwn
  · refine ⟨heldInv_step h.held hStep, hRing, fun i hi hMem => ?_, fun i hi hMem => ?_⟩
    · rcases List.mem_append.mp hMem with hOld | hNew
      · exact hMono (h.inOrder i hi hOld)
      · have hEq := List.mem_singleton.mp hNew
        have hLt := next_lt hTwo i
        exact inOrder_concat.mpr (.inr ⟨hEq,
          ((h.ring.place _ hLt).locked_iff (next_ne hTwo hLt)).mp (hMet i hi hEq.symm _ hLt)⟩)
    · intro j hj
      refine List.mem_append_left _ ?_
      rcases List.mem_append.mp hMem with hOld | hNew
      · exact h.allLocked i hi hOld j hj
      · exact ((h.ring.place j hj).locked_iff (next_ne hTwo hj)).mp
          (hMet i hi (List.mem_singleton.mp hNew).symm j hj)

theorem sleepInv_run (hTwo : 2 ≤ n)
    (hRun : run (guarded (Machine.step (ringScope n)) (Sleeps n)) (ringProgram n hTwo).start as =
      some m) : SleepInv n m as := by
  refine run_invariant (P := fun as m => SleepInv n m as) hRun ?_ ?_
  · exact ⟨heldInv_start _, ringInv_start hTwo, by simp, by simp⟩
  · intro as m a m' _ hInv hStep
    unfold guarded at hStep
    split at hStep
    · rename_i hMet
      exact sleepInv_step hTwo hInv hMet hStep
    · simp at hStep

theorem SleepInv.closed_iff (h : SleepInv n m as) (hTwo : 2 ≤ n) :
    RingClosed n m ↔ ∀ i < n, asksSecond n i ∈ as := by
  constructor
  · intro hClosed i hi
    have hPc : m.hooks.pc (i + 1) = .requested (next n i + 1) := hClosed.requested i hi
    cases h.ring.place i hi with
    | first _ hOld _ _ =>
        rw [hPc] at hOld
        simp [next_ne hTwo hi] at hOld
    | between _ hOld _ _ =>
        rw [hPc] at hOld
        simp at hOld
    | second _ _ _ hAsked => exact hAsked
  · intro hAll
    refine ⟨fun i hi => ?_, fun i hi => ?_⟩
    · cases h.ring.place i hi with
      | first _ _ _ hNever | between _ _ _ hNever => exact absurd (hAll i hi) hNever
      | second _ hPc _ _ => exact hPc
    · exact h.ring.owner _ (next_lt hTwo i) (h.allLocked i hi (hAll i hi) _ (next_lt hTwo i))

/-- A thread holds its own first mutex at most. -/
theorem ring_owner (hHeld : HeldInv (ringScope n) m) (h : RingInv n m as) (hTwo : 2 ≤ n)
    {lock thread : Nat} (hOwn : m.hooks.owner lock = some thread) :
    lock = thread ∧ (m.hooks.pc thread = .acquired thread ∨ lockedFirst (thread - 1) ∈ as) := by
  obtain ⟨i, hi, rfl⟩ := of_mem_ring (hHeld.consistent.owner_scope thread lock hOwn).1
  obtain ⟨held, hBalanced, hOwner, -⟩ := hHeld.thread (i + 1)
  have hClaims := (hOwner lock).mp hOwn
  have hNe := next_ne hTwo hi
  rw [Nat.add_sub_cancel]
  cases h.place i hi with
  | first hCalls hPc _ _ =>
      rw [hCalls] at hBalanced
      obtain ⟨hA, hB, -, -, hEmpty⟩ := hBalanced
      have hNone : held = ∅ := by
        ext l
        have hAt := Finset.ext_iff.mp hEmpty l
        simp only [Finset.mem_erase, Finset.mem_insert, Finset.notMem_empty, iff_false] at hAt hB ⊢
        intro hIn
        refine hAt ⟨?_, ?_, .inr (.inr hIn)⟩
        · rintro rfl
          exact hA hIn
        · rintro rfl
          exact hB (.inr hIn)
      subst hNone
      rcases hPc with hPc | hPc | hPc
      · simp [hPc, Pc.claims] at hClaims
      · simp [hPc, Pc.claims] at hClaims
      · rw [hPc] at hClaims
        exact ⟨by simpa [Pc.claims] using hClaims, .inl hPc⟩
  | between hCalls hPc hIn _ | second hCalls hPc hIn _ =>
      rw [hCalls] at hBalanced
      obtain ⟨hA, -, -, hEmpty⟩ := hBalanced
      rw [hPc] at hClaims
      have hMem : lock ∈ held := hClaims
      refine ⟨?_, .inr hIn⟩
      by_contra hOther
      have hAt := Finset.ext_iff.mp hEmpty lock
      simp only [Finset.mem_erase, Finset.mem_insert, Finset.notMem_empty, iff_false] at hAt
      refine hAt ⟨hOther, ?_, .inr hMem⟩
      rintro rfl
      exact hA hMem

theorem ringScope_card (n : Nat) :
    (ringScope n).threads.card = n ∧ (ringScope n).locks.card = n := by
  have hCard : ((Finset.range n).image Nat.succ).card = n := by
    rw [Finset.card_image_of_injective _ Nat.succ_injective, Finset.card_range]
  exact ⟨hCard, hCard⟩

/-- What a stuck thread cannot be at: there is room for every hook in front of a
release. -/
theorem ring_not_enabled (hTwo : 2 ≤ n) (hMax : n ≤ MAX)
    (hReach : Reachable (Machine.step (ringScope n)) (ringProgram n hTwo).start m)
    (hStuck : Stuck (guarded (Machine.step (ringScope n)) (Sleeps n)) ByThread m)
    (hAct : ByThread a) (hMet : Sleeps n m a) (hTurn : Turn m a)
    (hUnlock : ∀ thread lock, a ≠ .unlockAfter thread lock) :
    ¬ Enabled (ringScope n) m.hooks a := by
  intro hEnabled
  have hNone := hStuck a hAct
  unfold guarded at hNone
  rw [if_pos hMet] at hNone
  obtain ⟨hThreads, hLocks⟩ := ringScope_card n
  rcases step_or_outOfRange hTurn hEnabled with hStep | hOut
  · exact hStep hNone
  · obtain ⟨thread, lock, hEq, -⟩ :=
      outOfRange_small hReach (hThreads.le.trans hMax) (hLocks.le.trans hMax) hOut
    exact hUnlock thread lock hEq

/-- A thread without its first mutex can go on. -/
theorem first_goes_on (hTwo : 2 ≤ n) (hMax : n ≤ MAX)
    (hReach : Reachable (Machine.step (ringScope n)) (ringProgram n hTwo).start m)
    (h : SleepInv n m as) (hi : i < n)
    (hStuck : Stuck (guarded (Machine.step (ringScope n)) (Sleeps n)) ByThread m) :
    lockedFirst i ∈ as := by
  cases h.ring.place i hi with
  | between _ _ hIn _ | second _ _ hIn _ => exact hIn
  | first hCalls hPc hNot _ =>
      exfalso
      have hHead : (m.calls (i + 1)).head? = some (.lock (i + 1)) := by
        rw [hCalls]
        rfl
      have hGo := fun a => ring_not_enabled (a := a) hTwo hMax hReach hStuck
      rcases hPc with hPc | hPc | hPc
      · refine hGo (.lockBefore (i + 1) (i + 1)) (by simp [ByThread])
          (fun j hj hEq => ?_) hHead (by simp) ⟨mem_ring hi, mem_ring hi, hPc⟩
        -- the first mutex is not the second one
        simp only [asksSecond, Action.lockBefore.injEq, Nat.add_right_cancel_iff] at hEq
        obtain ⟨rfl, hSame⟩ := hEq
        exact absurd hSame.symm (next_ne hTwo hj)
      · refine hGo (.acquire (i + 1) (i + 1)) (by simp [ByThread])
          (fun j hj hEq => by simp [asksSecond] at hEq) hHead (by simp) ⟨hPc, ?_⟩
        by_contra hTaken
        obtain ⟨thread, hOwn⟩ := Option.ne_none_iff_exists'.mp hTaken
        obtain ⟨rfl, hAcquired | hIn⟩ := ring_owner h.held h.ring hTwo hOwn
        · rw [hPc] at hAcquired
          simp at hAcquired
        · rw [Nat.add_sub_cancel] at hIn
          exact hNot hIn
      · exact hGo (.lockAfter (i + 1) (i + 1)) (by simp [ByThread])
          (fun j hj hEq => by simp [asksSecond] at hEq) hHead (by simp) hPc

/-- A thread that has slept can go on, up to its second request. -/
theorem second_goes_on (hTwo : 2 ≤ n) (hMax : n ≤ MAX)
    (hReach : Reachable (Machine.step (ringScope n)) (ringProgram n hTwo).start m)
    (h : SleepInv n m as) (hi : i < n)
    (hStuck : Stuck (guarded (Machine.step (ringScope n)) (Sleeps n)) ByThread m) :
    asksSecond n i ∈ as := by
  have hAll : ∀ j < n, lockedFirst j ∈ as := fun j hj =>
    first_goes_on hTwo hMax hReach h hj hStuck
  cases h.ring.place i hi with
  | first _ _ hNot _ => exact absurd (hAll i hi) hNot
  | second _ _ _ hAsked => exact hAsked
  | between hCalls hPc _ _ =>
      exfalso
      have hMet : Sleeps n m (asksSecond n i) := fun _ _ _ j hj =>
        ((h.ring.place j hj).locked_iff (next_ne hTwo hj)).mpr (hAll j hj)
      have hTurn : Turn m (asksSecond n i) := by
        show (m.calls (i + 1)).head? = some (.lock (next n i + 1))
        rw [hCalls]
        rfl
      have hEnabled : Enabled (ringScope n) m.hooks (asksSecond n i) :=
        ⟨mem_ring hi, mem_ring (next_lt hTwo i), hPc⟩
      exact ring_not_enabled hTwo hMax hReach hStuck (by simp [ByThread, asksSecond]) hMet hTurn
        (by simp [asksSecond]) hEnabled

theorem ring_work_start (hTwo : 2 ≤ n) :
    work (ringScope n) (ringProgram n hTwo).start = 10 * n := by
  have hEach : ∀ thread ∈ (ringScope n).threads,
      stepsLeft ((ringProgram n hTwo).start.hooks.pc thread)
        ((ringProgram n hTwo).start.calls thread) = 10 := by
    intro thread hMem
    obtain ⟨i, hi, rfl⟩ := of_mem_ring hMem
    rw [show (ringProgram n hTwo).start.calls (i + 1) = threadRountine n i from ringRoutine_eq hi]
    rfl
  unfold work
  rw [Finset.sum_congr rfl hEach, Finset.sum_const, (ringScope_card n).1, smul_eq_mul,
    Nat.mul_comm]

/-- No thread gets beyond its second request. -/
theorem RingInv.le_work (h : RingInv n m as) : 6 * n ≤ work (ringScope n) m := by
  have hEach : ∀ thread ∈ (ringScope n).threads,
      6 ≤ stepsLeft (m.hooks.pc thread) (m.calls thread) := by
    intro thread hMem
    obtain ⟨i, hi, rfl⟩ := of_mem_ring hMem
    cases h.place i hi with
    | first hCalls hPc _ _ =>
        rcases hPc with hPc | hPc | hPc <;>
          simp [hCalls, hPc, stepsLeft, threadRountine, Call.steps, Pc.behind]
    | between hCalls hPc _ _ | second hCalls hPc _ _ =>
        simp [hCalls, hPc, stepsLeft, threadRountine, Call.steps, Pc.behind]
  have hSum := Finset.card_nsmul_le_sum _ _ 6 hEach
  rw [(ringScope_card n).1, smul_eq_mul, Nat.mul_comm] at hSum
  exact hSum

/-- **With the sleep every schedule ends in the closed ring**, after four steps of
each thread at most, and the check reports a deadlock exactly when it is closed. -/
theorem sleeping_ring_deadlocks (hTwo : 2 ≤ n) (hMax : n ≤ MAX)
    (hRun : run (guarded (Machine.step (ringScope n)) (Sleeps n)) (ringProgram n hTwo).start as =
      some m) :
    as.countP (fun a => ByThread a) ≤ 4 * n ∧
      (Stuck (guarded (Machine.step (ringScope n)) (Sleeps n)) ByThread m → RingClosed n m) ∧
      (Reported (ringScope n) m ↔ RingClosed n m) := by
  have hInv := sleepInv_run hTwo hRun
  have hPlain := run_of_run_guarded hRun
  refine ⟨?_, fun hStuck => ?_, ?_⟩
  · have hBound := steps_le_work (ringProgram n hTwo) hPlain
    have hLeft := hInv.ring.le_work
    rw [ring_work_start hTwo] at hBound
    omega
  · exact (hInv.closed_iff hTwo).mpr fun i hi =>
      second_goes_on hTwo hMax (reachable_of_run hPlain) hInv hi hStuck
  · rw [ring_reported_iff hTwo hInv.held hInv.ring, hInv.closed_iff hTwo]
    refine forall_congr' fun i => forall_congr' fun hi => ⟨fun hOrder => ?_, hInv.inOrder i hi⟩
    exact hOrder.subset (List.mem_cons_of_mem _ (List.mem_singleton_self _))

theorem sleeping_ring_deadlocks_four :
    ∃ m, RingClosed 4 m ∧ Reported (ringScope 4) m ∧
      (sleptTrace 4).countP (fun a => ByThread a) ≤ 16 := by
  have hRun : (run (guarded (Machine.step (ringScope 4)) (Sleeps 4))
      (ringProgram 4 (by decide)).start (sleptTrace 4)).map (closedTest 4) = some true := by decide
  obtain ⟨m, hRun, hTest⟩ := Option.map_eq_some_iff.mp hRun
  have hRing := ringClosed_of_test hTest
  obtain ⟨hSteps, -, hReported⟩ := sleeping_ring_deadlocks (by decide) (by decide) hRun
  exact ⟨m, hRing, hReported.mpr hRing, hSteps⟩

end Ring

end DeadlockCheck
end LinuxCppLearn
