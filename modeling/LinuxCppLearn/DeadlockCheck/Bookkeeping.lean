import LinuxCppLearn.DeadlockCheck.Ownership
import LinuxCppLearn.DeadlockCheck.WaitFor

/-!
# What is left when nobody is busy

`lock_before` adds an edge to the owner it finds and counts the thread in
`degress`; `lock_after` looks the lock up once more and takes back an edge to
the owner and a count that it finds then.  In between the lock may have been
recorded for another owner, or recorded at all.

* `HandsBack` — that `lock_after` takes back what `lock_before` has put in.
* `BookInv` — under it a thread that asks for nothing has no edge, `degress` is
  not negative and at most the number of threads that ask, and a slot belongs to
  a mutex that is held, being released or asked for.
* `bookInv_move_iff` — such steps keep it, and no other `lock_after` does.
* `nothing_left_when_idle` — so the tables are empty when nobody is busy.
-/

namespace LinuxCppLearn
namespace DeadlockCheck

open StepSystem TaskGraph

/-- In `lock_after`: the edges of the thread lead to the owner recorded now, and
a slot that is found has counted somebody. -/
def HandsBack (s : State) : Action → Prop
  | .lockAfter thread lock =>
      (∀ q ∈ s.tg.graph.succ (process thread), s.recorded lock = some q.thId) ∧
        ∀ slot ∈ s.tg.locks.slot? lock, 0 < slot.degress
  | _ => True

instance (s : State) (a : Action) : Decidable (HandsBack s a) := by
  induction a using Action.casesOn <;> unfold HandsBack <;> infer_instance

/-- Somebody holds the mutex, is about to run its `unlock_after`, or asks for
it. -/
def InUse (s : State) (lock : Nat) : Prop :=
  (∃ thread, s.owner lock = some thread) ∨ (∃ thread, s.pc thread = .released lock) ∨
    ∃ thread, (s.pc thread).asks = some lock

structure BookInv (sc : Scope) (s : State) : Prop where
  edges : ∀ thread, (s.pc thread).asks = none → s.tg.graph.succ (process thread) = []
  short : ∀ thread, (s.tg.graph.succ (process thread)).length ≤ 1
  count : ∀ lock ≠ 0, ∀ slot, s.tg.locks.slot? lock = some slot →
    0 ≤ slot.degress ∧ slot.degress ≤ (askers sc s.pc lock).card
  clean : s.tg.locks.Clean
  live : ∀ lock ≠ 0, s.tg.locks.slot? lock ≠ none → InUse s lock

/-- A step of a thread that is not busy with the mutex. -/
theorem InUse.other {s s' : State} {lock : Nat} (h : InUse s lock) (thread : Nat)
    (hThread : (s.pc thread).lock ≠ some lock) (hOwner : s'.owner lock = s.owner lock)
    (hPc : ∀ other ≠ thread, s'.pc other = s.pc other) : InUse s' lock := by
  rcases h with ⟨other, hHolds⟩ | ⟨other, hReleases⟩ | ⟨other, hAsks⟩
  · exact .inl ⟨other, hOwner.trans hHolds⟩
  · refine .inr (.inl ⟨other, ?_⟩)
    rw [hPc other, hReleases]
    rintro rfl
    exact hThread (by rw [hReleases]; rfl)
  · refine .inr (.inr ⟨other, ?_⟩)
    rw [hPc other]
    · exact hAsks
    · rintro rfl
      exact hThread (asks_lock hAsks)

/-- A step of a thread that is busy with `lock`, if it leaves that one in use. -/
theorem InUse.moved {s s' : State} {m : Nat} (h : InUse s m) (thread lock : Nat)
    (hThread : (s.pc thread).lock = some lock) (hOwner : ∀ m ≠ lock, s'.owner m = s.owner m)
    (hPc : ∀ other ≠ thread, s'.pc other = s.pc other) (hSelf : InUse s' lock) : InUse s' m := by
  by_cases hEq : m = lock
  · subst hEq
    exact hSelf
  · refine h.other thread ?_ (hOwner m hEq) hPc
    rw [hThread]
    exact fun hSame => hEq (Option.some.inj hSame).symm

namespace BookInv

variable {sc : Scope} {s : State} {thread lock : Nat} {pc : Pc} {slot : LockSlot}

/-- The bounds of a count, if the thread that moves asks neither before nor
behind it. -/
theorem count_other (h : BookInv sc s) (hLock : lock ≠ 0)
    (hSlot : s.tg.locks.slot? lock = some slot)
    (hOld : (s.pc thread).asks ≠ some lock) (hNew : pc.asks ≠ some lock) :
    0 ≤ slot.degress ∧
      slot.degress ≤ (askers sc (Function.update s.pc thread pc) lock).card := by
  rw [askers_update ⟨fun hAsks => absurd hAsks hNew, fun hAsks => absurd hAsks hOld⟩]
  exact h.count lock hLock slot hSlot

/-- A step that leaves the tables alone. -/
theorem setPc (h : BookInv sc s) {owner : Nat → Option Nat}
    (hAsks : pc.asks = (s.pc thread).asks)
    (hLive : ∀ lock, InUse s lock → InUse { s.setPc thread pc with owner := owner } lock) :
    BookInv sc { s.setPc thread pc with owner := owner } := by
  refine ⟨fun other hNone => ?_, h.short, fun m hm found hFound => ?_, h.clean,
    fun m hm hFound => hLive m (h.live m hm hFound)⟩
  · apply h.edges
    by_cases hEq : other = thread
    · subst hEq
      rw [← hAsks]
      simpa [State.setPc] using hNone
    · simpa [State.setPc, hEq] using hNone
  · have hAskers : askers sc (Function.update s.pc thread pc) m = askers sc s.pc m :=
      askers_update (by rw [hAsks])
    show 0 ≤ found.degress ∧
      found.degress ≤ (askers sc (Function.update s.pc thread pc) m).card
    rw [hAskers]
    exact h.count m hm found hFound

/-- What a hook leaves that touches the edges of its own thread only. -/
theorem edges_behind (h : BookInv sc s) {tg : TaskGraph} {pc : Pc}
    (hOther : ∀ other ≠ thread, tg.graph.succ (process other) = s.tg.graph.succ (process other))
    (hOwn : pc.asks = none → tg.graph.succ (process thread) = []) :
    ∀ other, ((s.setPc thread pc).pc other).asks = none → tg.graph.succ (process other) = [] := by
  intro other hAsks
  by_cases hEq : other = thread
  · subst hEq
    exact hOwn (by simpa [State.setPc] using hAsks)
  · rw [hOther other hEq]
    exact h.edges other (by simpa [State.setPc, hEq] using hAsks)

theorem short_behind (h : BookInv sc s) {tg : TaskGraph}
    (hOther : ∀ other ≠ thread, tg.graph.succ (process other) = s.tg.graph.succ (process other))
    (hOwn : (tg.graph.succ (process thread)).length ≤ 1) :
    ∀ other, (tg.graph.succ (process other)).length ≤ 1 := by
  intro other
  by_cases hEq : other = thread
  · subst hEq
    exact hOwn
  · rw [hOther other hEq]
    exact h.short other

/-- What a hook leaves of the mutexes in use, if the thread is busy with no other
one than `lock`. -/
theorem live_behind (h : BookInv sc s) {tg : TaskGraph} {pc : Pc} (lock : Nat)
    (hThread : ∀ m, (s.pc thread).lock = some m → m = lock)
    (hOther : ∀ m ≠ 0, m ≠ lock → tg.locks.slot? m = s.tg.locks.slot? m)
    (hSelf : tg.locks.slot? lock ≠ none → InUse { s.setPc thread pc with tg := tg } lock) :
    ∀ m ≠ 0, tg.locks.slot? m ≠ none → InUse { s.setPc thread pc with tg := tg } m := by
  intro m hm hFound
  by_cases hEq : m = lock
  · subst hEq
    exact hSelf hFound
  · rw [hOther m hm hEq] at hFound
    refine (h.live m hm hFound).other thread ?_ rfl ?_
    · exact fun hSame => hEq (hThread m hSame)
    · intro other hNe
      exact Function.update_of_ne hNe _ _

theorem requestNew (h : BookInv sc s) (hPc : s.pc thread = .run)
    (hSlot : s.tg.locks.slot? lock = none) :
    BookInv sc (s.setPc thread (.requested lock)) := by
  refine ⟨h.edges_behind (fun _ _ => rfl) (by simp [Pc.asks]), h.short,
    fun m hm found hFound => ?_, h.clean,
    h.live_behind lock (by simp [hPc, Pc.lock]) (fun _ _ _ => rfl) (absurd hSlot)⟩
  have hNe : lock ≠ m := by
    rintro rfl
    have hSome : s.tg.locks.slot? lock = some found := hFound
    rw [hSlot] at hSome
    simp at hSome
  exact h.count_other hm hFound (by simp [hPc, Pc.asks]) (by simp [Pc.asks, hNe])

/-- The one edge a request adds is the thread's own, and it had none. -/
theorem requestOld (h : BookInv sc s) {tg : TaskGraph} (hThread : thread ∈ sc.threads)
    (hLock : lock ≠ 0) (hPc : s.pc thread = .run)
    (hSlot : s.tg.locks.slot? lock = some slot)
    (hRecord : s.tg.RecordRequest thread lock slot tg) :
    BookInv sc { s.setPc thread (.requested lock) with tg := tg } := by
  have hNone : s.tg.graph.succ (process thread) = [] := h.edges thread (by rw [hPc]; rfl)
  have hOther : ∀ other ≠ thread,
      tg.graph.succ (process other) = s.tg.graph.succ (process other) := by
    intro other hNe
    by_cases hOld : s.tg.Asks thread slot.thId
    · exact hRecord.edge_old hOld _
    · rw [hRecord.edge_new hOld, if_neg]
      rw [process_injective]
      exact hNe
  have hOwn : (tg.graph.succ (process thread)).length ≤ 1 := by
    by_cases hOld : s.tg.Asks thread slot.thId
    · rw [hRecord.edge_old hOld, hNone]
      exact Nat.zero_le 1
    · rw [hRecord.edge_new hOld, if_pos rfl, hNone]
      exact Nat.le_refl 1
  refine ⟨h.edges_behind hOther (by simp [Pc.asks]), h.short_behind hOther hOwn,
    fun m hm found hFound => ?_, ?_, h.live_behind lock (by simp [hPc, Pc.lock]) (fun m _ hNe => ?_)
    fun _ => .inr (.inr ⟨thread, by simp [State.setPc, Pc.asks]⟩)⟩
  · have hFound' : tg.locks.slot? m = some found := hFound
    rw [hRecord.slots] at hFound'
    show 0 ≤ found.degress ∧
      found.degress ≤ (askers sc (Function.update s.pc thread (.requested lock)) m).card
    by_cases hEq : m = lock
    · subst hEq
      rw [if_pos rfl, Option.some.injEq] at hFound'
      subst hFound'
      obtain ⟨hLow, hHigh⟩ := h.count m hm slot hSlot
      rw [askers_card_add hThread (by simp [hPc, Pc.asks]) rfl]
      show 0 ≤ slot.degress + 1 ∧ slot.degress + 1 ≤ _
      push_cast
      omega
    · rw [if_neg hEq] at hFound'
      exact h.count_other hm hFound' (by simp [hPc, Pc.asks]) (by simp [Pc.asks, Ne.symm hEq])
  · obtain ⟨idx, hSearch, hAt, hTable⟩ := hRecord.table
    show tg.locks.Clean
    rw [hTable]
    exact clean_setSlot h.clean hSearch hAt hLock rfl
  · rw [hRecord.slots, if_neg hNe]

/-- A new slot has counted nobody. -/
theorem takeSlot (h : BookInv sc s) (hCons : Consistent sc s) {tg : TaskGraph}
    (hPc : s.pc thread = .acquired lock) (hSlot : s.tg.locks.slot? lock = none)
    (hTake : s.tg.TakeSlot thread lock tg)
    (hEdges : s.tg.graph.succ (process thread) = []) :
    BookInv sc { s.setPc thread .run with tg := tg } := by
  have hIn := hCons.pc_scope thread lock (by rw [hPc]; rfl)
  have hLock : lock ≠ 0 := Scope.lock_ne hIn.2
  have hSame : ∀ q, tg.graph.succ q = s.tg.graph.succ q := fun q => by rw [hTake.graph]
  refine ⟨h.edges_behind (fun _ _ => hSame _) fun _ => (hSame _).trans hEdges,
    h.short_behind (fun _ _ => hSame _) (by rw [hSame, hEdges]; exact Nat.zero_le 1),
    fun m hm found hFound => ?_, clean_takeSlot h.clean hTake hLock, ?_⟩
  · have hFound' : tg.locks.slot? m = some found := hFound
    rw [hTake.slots m hm] at hFound'
    show 0 ≤ found.degress ∧ found.degress ≤ (askers sc (Function.update s.pc thread .run) m).card
    by_cases hEq : m = lock
    · subst hEq
      rw [if_pos rfl, Option.some.injEq] at hFound'
      subst hFound'
      have hZero : (s.tg.locks.lockList s.tg.locks.searchEmptyLock).degress = 0 :=
        h.clean.empty_zero
      show 0 ≤ (s.tg.locks.lockList s.tg.locks.searchEmptyLock).degress ∧ _ ≤ _
      rw [hZero]
      exact ⟨Int.le_refl 0, Int.natCast_nonneg _⟩
    · rw [if_neg hEq] at hFound'
      exact h.count_other hm hFound' (by simp [hPc, Pc.asks, Ne.symm hEq]) (by simp [Pc.asks])
  · refine h.live_behind lock (by simp [hPc, Pc.lock]) (fun m hm hNe => ?_) fun _ => ?_
    · rw [hTake.slots m hm, if_neg hNe]
    · exact .inl ⟨thread, hCons.acquired_owner thread lock hPc⟩

/-- The thread has one edge at most, so nothing is left when that one goes. -/
theorem own_edge_gone (h : BookInv sc s) (hCons : Consistent sc s) {tg : TaskGraph}
    (hChange : s.tg.ChangeOwner thread lock slot tg)
    (hEdges : ∀ q ∈ s.tg.graph.succ (process thread), q.thId = slot.thId) :
    tg.graph.succ (process thread) = [] := by
  rw [hChange.edge]
  have hShort := h.short thread
  cases hList : s.tg.graph.succ (process thread) with
  | nil => simp
  | cons q rest =>
      rw [hList, List.length_cons] at hShort
      obtain rfl : rest = [] := List.length_eq_zero_iff.mp (by omega)
      have hMem : q ∈ s.tg.graph.succ (process thread) := by
        rw [hList]
        exact List.mem_singleton_self q
      have hVertex := hCons.wellFormed.graph.isVertex_of_mem_succ hMem
      have hSame : q = process slot.thId := by
        have hType := (hCons.vertex_scope q hVertex).1
        have hThread := hEdges q hMem
        unfold process
        rw [← hType, ← hThread]
      rw [if_pos ⟨rfl, hSame ▸ hVertex⟩, hSame]
      simp [process]

/-- The thread's edge goes, and so does its count. -/
theorem changeOwner (h : BookInv sc s) (hCons : Consistent sc s) {tg : TaskGraph}
    (hPc : s.pc thread = .acquired lock) (hSlot : s.tg.locks.slot? lock = some slot)
    (hChange : s.tg.ChangeOwner thread lock slot tg)
    (hEdges : ∀ q ∈ s.tg.graph.succ (process thread), q.thId = slot.thId)
    (hCount : 0 < slot.degress) :
    BookInv sc { s.setPc thread .run with tg := tg } := by
  have hIn := hCons.pc_scope thread lock (by rw [hPc]; rfl)
  have hLock : lock ≠ 0 := Scope.lock_ne hIn.2
  have hGone : tg.graph.succ (process thread) = [] := h.own_edge_gone hCons hChange hEdges
  have hOther : ∀ other ≠ thread,
      tg.graph.succ (process other) = s.tg.graph.succ (process other) := by
    intro other hNe
    rw [hChange.edge, if_neg]
    rintro ⟨hSame, -⟩
    exact hNe (process_injective.mp hSame)
  refine ⟨h.edges_behind hOther fun _ => hGone,
    h.short_behind hOther (by rw [hGone]; exact Nat.zero_le 1), fun m hm found hFound => ?_, ?_, ?_⟩
  · have hFound' : tg.locks.slot? m = some found := hFound
    rw [hChange.slots] at hFound'
    show 0 ≤ found.degress ∧ found.degress ≤ (askers sc (Function.update s.pc thread .run) m).card
    by_cases hEq : m = lock
    · subst hEq
      rw [if_pos rfl, Option.some.injEq] at hFound'
      subst hFound'
      obtain ⟨-, hHigh⟩ := h.count m hm slot hSlot
      have hLess : (askers sc (Function.update s.pc thread .run) m).card + 1 =
          (askers sc s.pc m).card :=
        askers_card_sub hIn.1 (by rw [hPc]; rfl) (by simp [Pc.asks])
      show 0 ≤ slot.degress - 1 ∧ slot.degress - 1 ≤ _
      omega
    · rw [if_neg hEq] at hFound'
      exact h.count_other hm hFound' (by simp [hPc, Pc.asks, Ne.symm hEq]) (by simp [Pc.asks])
  · obtain ⟨idx, hSearch, hAt, hTable⟩ := hChange.table
    show tg.locks.Clean
    rw [hTable]
    exact clean_setSlot h.clean hSearch hAt hLock rfl
  · refine h.live_behind lock (by simp [hPc, Pc.lock]) (fun m _ hNe => ?_) fun _ => ?_
    · rw [hChange.slots, if_neg hNe]
    · exact .inl ⟨thread, hCons.acquired_owner thread lock hPc⟩

theorem clearSlot (h : BookInv sc s) (hCons : Consistent sc s) {tg : TaskGraph}
    (hPc : s.pc thread = .released lock) (hCount : slot.degress = 0)
    (hClear : s.tg.ClearSlot lock slot tg) :
    BookInv sc { s.setPc thread .run with tg := tg } := by
  have hIn := hCons.pc_scope thread lock (by rw [hPc]; rfl)
  have hLock : lock ≠ 0 := Scope.lock_ne hIn.2
  have hSame : ∀ q, tg.graph.succ q = s.tg.graph.succ q := fun q => by rw [hClear.graph]
  have hEdges : s.tg.graph.succ (process thread) = [] := h.edges thread (by rw [hPc]; rfl)
  refine ⟨h.edges_behind (fun _ _ => hSame _) fun _ => (hSame _).trans hEdges,
    h.short_behind (fun _ _ => hSame _) (by rw [hSame, hEdges]; exact Nat.zero_le 1),
    fun m hm found hFound => ?_, clean_clearSlot h.clean hCount hClear, ?_⟩
  · have hFound' : tg.locks.slot? m = some found := hFound
    rw [hClear.slots m hm] at hFound'
    split at hFound'
    · simp at hFound'
    · exact h.count_other hm hFound' (by simp [hPc, Pc.asks]) (by simp [Pc.asks])
  · refine h.live_behind lock (by simp [hPc, Pc.lock]) (fun m hm hNe => ?_) fun hFound => ?_
    · rw [hClear.slots m hm, if_neg hNe]
    · rw [hClear.slots lock hLock, if_pos rfl] at hFound
      exact absurd rfl hFound

end BookInv

section Moves

variable {sc : Scope} {s s' : State}

/-- A slot that `unlock_after` leaves has counted a thread that still asks. -/
theorem inUse_keepSlot (h : BookInv sc s) {thread lock : Nat} {slot : LockSlot}
    (hPc : s.pc thread = .released lock) (hLock : lock ≠ 0)
    (hSlot : s.tg.locks.slot? lock = some slot) (hCount : slot.degress ≠ 0) :
    InUse (s.setPc thread .run) lock := by
  obtain ⟨hLow, hHigh⟩ := h.count lock hLock slot hSlot
  have hPos : 0 < (askers sc s.pc lock).card := by omega
  obtain ⟨other, hMem⟩ := Finset.card_pos.mp hPos
  have hAsks := (mem_askers.mp hMem).2
  have hNe : other ≠ thread := by
    rintro rfl
    simp [hPc, Pc.asks] at hAsks
  exact .inr (.inr ⟨other, by simpa [State.setPc, hNe] using hAsks⟩)

theorem bookInv_move {a : Action} (hCons : Consistent sc s) (h : BookInv sc s)
    (hMet : HandsBack s a) (hMove : Move sc s a s') : BookInv sc s' := by
  cases hMove with
  | requestNew _ _ hPc hSlot => exact h.requestNew hPc hSlot
  | requestOld hThread hLock hPc hSlot hRecord =>
      exact h.requestOld hThread (Scope.lock_ne hLock) hPc hSlot hRecord
  | @acquire thread lock hPc hFree =>
      refine h.setPc (by rw [hPc]; rfl) fun m hUse => ?_
      refine hUse.moved thread lock (by rw [hPc]; rfl) ?_ ?_ (.inl ⟨thread, by simp⟩)
      · exact fun m hNe => Function.update_of_ne hNe _ _
      · exact fun other hNe => Function.update_of_ne hNe _ _
  | @takeSlot thread lock tg hPc hSlot hTake =>
      refine h.takeSlot hCons hPc hSlot hTake ?_
      apply List.eq_nil_iff_forall_not_mem.mpr
      intro q hMem
      have hRecorded := hMet.1 q hMem
      unfold State.recorded at hRecorded
      rw [hSlot] at hRecorded
      simp at hRecorded
  | @changeOwner thread lock slot tg hPc hSlot hChange =>
      refine h.changeOwner hCons hPc hSlot hChange ?_ (hMet.2 slot hSlot)
      intro q hMem
      have hRecorded := hMet.1 q hMem
      unfold State.recorded at hRecorded
      rw [hSlot] at hRecorded
      exact (Option.some.inj hRecorded).symm
  | @release thread lock hPc hOwner =>
      refine h.setPc (by rw [hPc]; rfl) fun m hUse => ?_
      by_cases hEq : m = lock
      · subst hEq
        exact .inr (.inl ⟨thread, by simp [State.setPc]⟩)
      · refine hUse.other thread ?_ (Function.update_of_ne hEq _ _) ?_
        · simp [hPc, Pc.lock]
        · exact fun other hNe => Function.update_of_ne hNe _ _
  | @keepSlot thread lock slot hPc hSlot hCount =>
      have hLock : lock ≠ 0 := Scope.lock_ne (hCons.pc_scope thread lock (by rw [hPc]; rfl)).2
      refine h.setPc (by rw [hPc]; rfl) fun m hUse => ?_
      refine hUse.moved thread lock (by rw [hPc]; rfl) (fun _ _ => rfl) ?_
        (inUse_keepSlot h hPc hLock hSlot hCount)
      exact fun other hNe => Function.update_of_ne hNe _ _
  | clearSlot hPc _ hCount hClear => exact h.clearSlot hCons hPc hCount hClear
  | check search _ => exact ⟨h.edges, h.short, h.count, h.clean, h.live⟩

/-- **Each half of the condition is needed**: any other `lock_after` leaves an
edge of a thread that asks for nothing, or a negative count. -/
theorem handsBack_of_bookInv {a : Action} (hCons : Consistent sc s) (h' : BookInv sc s')
    (hMove : Move sc s a s') : HandsBack s a := by
  cases hMove with
  | @takeSlot thread lock tg hPc hSlot hTake =>
      have hGone : tg.graph.succ (process thread) = [] :=
        h'.edges thread (by simp [State.setPc, Pc.asks])
      rw [hTake.graph] at hGone
      refine ⟨fun q hMem => ?_, fun slot hFound => ?_⟩
      · rw [hGone] at hMem
        simp at hMem
      · rw [hSlot] at hFound
        simp at hFound
  | @changeOwner thread lock slot tg hPc hSlot hChange =>
      have hLock : lock ≠ 0 := Scope.lock_ne (hCons.pc_scope thread lock (by rw [hPc]; rfl)).2
      have hOwner : s.recorded lock = some slot.thId := by
        unfold State.recorded
        rw [hSlot]
        rfl
      refine ⟨fun q hMem => ?_, fun found hFound => ?_⟩
      · have hGone : tg.graph.succ (process thread) = [] :=
          h'.edges thread (by simp [State.setPc, Pc.asks])
        rw [hOwner]
        by_contra hNot
        have hNe : q.thId ≠ slot.thId := fun hSame => hNot (by rw [hSame])
        rw [hChange.edge] at hGone
        split at hGone
        -- `remove_edge` passes over a node with another `th_id`
        · have hStays : q ∈ (s.tg.graph.succ (process thread)).eraseP fun p =>
              p.thId = slot.thId :=
            (List.mem_eraseP_of_neg (by simpa using hNe)).mpr hMem
          rw [hGone] at hStays
          simp at hStays
        · rw [hGone] at hMem
          simp at hMem
      · rw [hSlot, Option.mem_some_iff] at hFound
        subst hFound
        have hNew : tg.locks.slot? lock =
            some { slot with thId := thread, degress := slot.degress - 1 } := by
          rw [hChange.slots, if_pos rfl]
        have hLow : 0 ≤ slot.degress - 1 := (h'.count lock hLock _ hNew).1
        omega
  | requestNew | requestOld | acquire | release | keepSlot | clearSlot | check => trivial

theorem bookInv_move_iff {a : Action} (hCons : Consistent sc s) (h : BookInv sc s)
    (hMove : Move sc s a s') : BookInv sc s' ↔ HandsBack s a :=
  ⟨fun h' => handsBack_of_bookInv hCons h' hMove, fun hMet => bookInv_move hCons h hMet hMove⟩

end Moves

theorem bookInv_init (sc : Scope) : BookInv sc init := by
  have hNone : ∀ q, init.tg.graph.succ q = [] := by
    intro q
    apply Digraph.succ_of_not_isVertex
    intro hVertex
    obtain ⟨i, hLt, -⟩ := Digraph.isVertex_iff.mp hVertex
    exact Nat.not_lt_zero i hLt
  have hSlot : ∀ lock, init.tg.locks.slot? lock = none := by
    intro lock
    rw [LockTable.slot?_eq_none, LockTable.searchLock_eq_none]
    intro i hLt
    exact absurd hLt (Nat.not_lt_zero i)
  refine ⟨fun thread _ => hNone _, fun thread => ?_, fun lock _ slot hFound => ?_,
    fun i _ => rfl, fun lock _ hFound => absurd (hSlot lock) hFound⟩
  · rw [hNone]
    exact Nat.zero_le 1
  · rw [hSlot] at hFound
    simp at hFound

theorem bookInv_reach {sc : Scope} {s : State}
    (h : Reach (step sc) (fun s a => HandsBack s a) init s) : BookInv sc s := by
  apply reach_invariant h (bookInv_init sc)
  intro s a s' hCons hInv hMet hMove
  exact (bookInv_move_iff hCons hInv hMove).mpr hMet

/-! ## Nobody is busy -/

/-- No thread holds a mutex, asks for one or is inside a hook. -/
def Idle (s : State) : Prop :=
  (∀ thread, s.pc thread = .run) ∧ ∀ lock, s.owner lock = none

/-- No vertex has an edge, and every slot is empty. -/
def NothingLeft (tg : TaskGraph) : Prop :=
  (∀ i < tg.graph.vertexNum, (tg.graph.vertexList i).next = []) ∧
    ∀ i < tg.locks.lockNum, (tg.locks.lockList i).lockId = 0

instance (tg : TaskGraph) : Decidable (NothingLeft tg) :=
  inferInstanceAs (Decidable (_ ∧ _))

theorem idle_of_scope {sc : Scope} {s : State} (hCons : Consistent sc s)
    (hThreads : ∀ thread ∈ sc.threads, s.pc thread = .run)
    (hLocks : ∀ lock ∈ sc.locks, s.owner lock = none) : Idle s := by
  constructor
  · intro thread
    by_contra hBusy
    cases hPc : s.pc thread with
    | run => exact hBusy hPc
    | requested lock | acquired lock | released lock =>
        have hIn := (hCons.pc_scope thread lock (by rw [hPc]; rfl)).1
        exact hBusy (hThreads thread hIn)
  · intro lock
    by_contra hHeld
    obtain ⟨thread, hOwner⟩ := Option.ne_none_iff_exists'.mp hHeld
    exact hHeld (hLocks lock (hCons.owner_scope thread lock hOwner).2)

/-- **Nothing is left when nobody is busy**, if every `lock_after` has taken back
what its `lock_before` had put in. -/
theorem nothing_left_when_idle (sc : Scope) {s : State}
    (h : Reach (step sc) (fun s a => HandsBack s a) init s) (hIdle : Idle s) :
    NothingLeft s.tg := by
  have hInv := bookInv_reach h
  have hCons := consistent_reach h.reachable
  constructor
  · intro i hi
    have hType := (hCons.vertex_scope _ (Digraph.isVertex_iff.mpr ⟨i, hi, rfl⟩)).1
    have hPair : (s.tg.graph.vertexList i).pair =
        process (s.tg.graph.vertexList i).pair.thId := by
      unfold process
      rw [← hType]
    rw [← hCons.wellFormed.graph.succ_eq hi hPair]
    exact hInv.edges _ (by rw [hIdle.1]; rfl)
  · intro i hi
    by_contra hLock
    have hFound : s.tg.locks.slot? (s.tg.locks.lockList i).lockId ≠ none := by
      rw [ne_eq, LockTable.slot?_eq_none,
        hCons.wellFormed.locks.searchLock_eq hi rfl hLock]
      simp
    rcases hInv.live _ hLock hFound with ⟨thread, hOwner⟩ | ⟨thread, hPc⟩ | ⟨thread, hAsks⟩
    · rw [hIdle.2] at hOwner
      simp at hOwner
    · rw [hIdle.1] at hPc
      simp at hPc
    · rw [hIdle.1] at hAsks
      simp [Pc.asks] at hAsks

/-- A hooked `pthread_mutex_unlock` that is not disturbed. -/
def unlockCall (thread lock : Nat) : List Action :=
  [.release thread lock, .unlockAfter thread lock]

/-- A thread waits while another one holds the mutex, and takes it behind the
other one's unlock. -/
theorem nothing_left_when_idle_handOver :
    ∃ s, Idle s ∧ s.tg.graph.vertexNum = 2 ∧ NothingLeft s.tg := by
  have hRun : (run (guarded (step twoThreads) fun s a => HandsBack s a) init
      (lockCall 1 1 ++ [.lockBefore 2 1] ++ unlockCall 1 1 ++
        [.acquire 2 1, .lockAfter 2 1] ++ unlockCall 2 1)).map (fun s =>
      decide ((∀ thread ∈ twoThreads.threads, s.pc thread = .run) ∧
        (∀ lock ∈ twoThreads.locks, s.owner lock = none) ∧ s.tg.graph.vertexNum = 2)) =
      some true := by decide
  obtain ⟨s, hFinal, hTest⟩ := Option.map_eq_some_iff.mp hRun
  obtain ⟨hThreads, hLocks, hNum⟩ := of_decide_eq_true hTest
  have hReach := reach_of_run_guarded hFinal
  have hIdle := idle_of_scope (consistent_reach hReach.reachable) hThreads hLocks
  exact ⟨s, hIdle, hNum, nothing_left_when_idle twoThreads hReach hIdle⟩

/-- Three threads and one mutex. -/
def threeThreads : Scope where
  threads := {1, 2, 3}
  locks := {1}
  thread_ne_zero := by decide
  lock_ne_zero := by decide

/-- Two threads wait for the first one; the third gets the mutex first. -/
def staleEdgeTrace : List Action :=
  lockCall 1 1 ++ [.lockBefore 2 1, .lockBefore 3 1] ++ unlockCall 1 1 ++
    [.acquire 3 1, .lockAfter 3 1] ++ unlockCall 3 1 ++
    [.acquire 2 1, .lockAfter 2 1] ++ unlockCall 2 1

/-- Both threads ask before there is a slot; the second one takes the mutex
before the first one's `unlock_after`. -/
def negativeCountTrace : List Action :=
  [.lockBefore 2 1] ++ lockCall 1 1 ++
    [.release 1 1, .acquire 2 1, .lockAfter 2 1, .unlockAfter 1 1] ++ unlockCall 2 1

/-- Behind the first trace the second thread keeps its edge to the first one;
behind the second trace the mutex keeps its slot. -/
theorem something_left_when_idle :
    (∃ s, Reachable (step threeThreads) init s ∧ Idle s ∧
      process 1 ∈ s.tg.graph.succ (process 2) ∧ ¬ NothingLeft s.tg) ∧
    ∃ s, Reachable (step twoThreads) init s ∧ Idle s ∧
      s.tg.locks.slot? 1 = some ⟨2, 1, -1⟩ ∧ ¬ NothingLeft s.tg := by
  constructor
  · have hRun : (run (step threeThreads) init staleEdgeTrace).map (fun s =>
        decide ((∀ thread ∈ threeThreads.threads, s.pc thread = .run) ∧
          (∀ lock ∈ threeThreads.locks, s.owner lock = none) ∧
          process 1 ∈ s.tg.graph.succ (process 2) ∧ ¬ NothingLeft s.tg)) = some true := by decide
    obtain ⟨s, hReach, hTest⟩ := exists_reachable_of_run hRun
    obtain ⟨hThreads, hLocks, hRest⟩ := of_decide_eq_true hTest
    exact ⟨s, hReach, idle_of_scope (consistent_reach hReach) hThreads hLocks, hRest⟩
  · have hRun : (run (step twoThreads) init negativeCountTrace).map (fun s =>
        decide ((∀ thread ∈ twoThreads.threads, s.pc thread = .run) ∧
          (∀ lock ∈ twoThreads.locks, s.owner lock = none) ∧
          s.tg.locks.slot? 1 = some ⟨2, 1, -1⟩ ∧ ¬ NothingLeft s.tg)) = some true := by decide
    obtain ⟨s, hReach, hTest⟩ := exists_reachable_of_run hRun
    obtain ⟨hThreads, hLocks, hRest⟩ := of_decide_eq_true hTest
    exact ⟨s, hReach, idle_of_scope (consistent_reach hReach) hThreads hLocks, hRest⟩

end DeadlockCheck
end LinuxCppLearn
