import LinuxCppLearn.Library.ScopedLocks
import LinuxCppLearn.ConnPool.Placement

/-!
# `getConn` when an allocation fails

The functions of the pool as code that may throw.  `getConn` owns `m_mutexQ`
through its `unique_lock` and gives it back however it is left; the custom
deleter takes the mutex itself.  If the control block of the `shared_ptr` cannot
be allocated, the constructor runs the deleter, in the middle of `getConn`.
-/

namespace LinuxCppLearn
namespace ConnPool
namespace Exceptions

open StepSystem ScopedLocks

/-- Where an allocation may fail in `getConn`. -/
inductive ThrowPoint
  /-- `new MysqlConn` -/
  | newConn
  /-- the strings that `connect` takes by value -/
  | connectArgs
  /-- `m_connQ.push(conn)` -/
  | push
  /-- the control block of the `shared_ptr` -/
  | controlBlock
deriving DecidableEq, Repr

/-- A call of `getConn`, and the answers of the environment. -/
structure Call where
  group : Nat
  new : NewConn
  who : Notified
  /-- the clock, if the deleter reads it -/
  now : Time
  fails : Option ThrowPoint

def addConn (c : NewConn) (fails : Option ThrowPoint) : Code (Locked Pool) Unit := do
  throwIf (fails = some .newConn)
  change fun p => { p with live := c.ptr :: p.live }
  throwIf (fails = some .connectArgs)
  change fun p => { p with connected := Function.update p.connected c.ptr c.connectOk }
  change fun p => { p with aliveTime := Function.update p.aliveTime c.ptr c.now, clock := c.now }
  throwIf (fails = some .push)
  change fun p => { p with connQ := p.connQ ++ [c.ptr] }

/-- The custom deleter. -/
def deleter (conn : Ptr) (now : Time) : Code (Locked Pool) Unit :=
  withLock do
    change fun p => { p with aliveTime := Function.update p.aliveTime conn now, clock := now }
    change fun p => { p with connQ := p.connQ ++ [conn] }

/-- The constructor of the `shared_ptr`: if it throws, it runs the deleter first. -/
def sharedPtr (conn : Ptr) (call : Call) : Code (Locked Pool) Unit :=
  if call.fails = some .controlBlock then do
    deleter conn call.now
    throws
  else change fun p => { p with held := (call.group, conn) :: p.held }

/-- `m_connQ.front()`; behind the loop the queue is not empty. -/
def front : Code (Locked Pool) Ptr := fun s =>
  match s.val.connQ with
  | [] => (.waits, s)
  | conn :: _ => (.returns conn, s)

/-- The end of `getConn`. -/
def handOut (call : Call) : Code (Locked Pool) Unit := do
  let conn ← front
  sharedPtr conn call
  change fun p => { p with connQ := p.connQ.tail }
  change fun p => notifyOne p call.who

/-- `getConn`, from the last time it comes to the head of its loop. -/
def getConn (cfg : Config) (call : Call) : Code (Locked Pool) Unit :=
  withLock do
    let s ← read
    if s.val.connQ.isEmpty then
      if s.val.connQ.length + 1 ≤ cfg.maxSize then addConn call.new call.fails
      else sleep
    handOut call

/-- `getConn` comes to this point. -/
def Reached (cfg : Config) (p : Pool) : ThrowPoint → Prop
  | .newConn | .connectArgs | .push => p.connQ = [] ∧ 0 < cfg.maxSize
  | .controlBlock => p.connQ = [] → 0 < cfg.maxSize

instance (cfg : Config) (p : Pool) (point : ThrowPoint) : Decidable (Reached cfg p point) := by
  cases point <;> unfold Reached <;> infer_instance

/-- What a failed call of `getConn` should leave: the exception has got out, the
mutex is free, what was idle is still queued, once, and no connection has become
one that nobody knows. -/
structure Intact (p : Pool) (r : Ends Unit × Locked Pool) : Prop where
  left : r.1 = .throws
  free : r.2.locked = false
  idle : ∀ conn ∈ p.connQ, r.2.val.connQ.count conn = 1
  known : ∀ conn ∈ r.2.val.live, conn ∉ r.2.val.placed → conn ∈ p.live ∧ conn ∉ p.placed

inductive Action
  /-- a critical section in which nothing fails -/
  | step (a : ConnPool.Action)
  /-- a call of `getConn` in which an allocation fails -/
  | getConn (call : Call) (point : ThrowPoint)

/-- The pool with its mutex, between critical sections. -/
def step (cfg : Config) (s : Locked Pool) : Action → Option (Locked Pool)
  | .step a => if s.locked then none else (ConnPool.step cfg s.val a).map fun p => ⟨false, p⟩
  | .getConn call point =>
      if s.locked = false ∧ call.fails = some point ∧ Reached cfg s.val point ∧
          (s.val.connQ = [] → call.new.Fresh s.val) then
        some (getConn cfg call s).2
      else none

section Calls

variable {cfg : Config} {p p' : Pool} {call : Call} {point : ThrowPoint}

/-- `addConn` without a failure is that of the model. -/
theorem addConn_returns {c : NewConn} {fails : Option ThrowPoint}
    (hFails : fails = none ∨ fails = some .controlBlock) (locked : Bool) :
    addConn c fails ⟨locked, p⟩ = (.returns (), ⟨locked, ConnPool.addConn p c⟩) := by
  rcases hFails with rfl | rfl <;> rfl

/-- The end of `getConn` without a failure is that of the model. -/
theorem handOut_returns (hFails : call.fails = none)
    (h : ConnPool.handOut p call.group call.who = some p') (locked : Bool) :
    handOut call ⟨locked, p⟩ = (.returns (), ⟨locked, p'⟩) := by
  unfold ConnPool.handOut at h
  split at h
  · simp at h
  · rename_i conn rest hQueue
    obtain rfl := Option.some.inj h
    simp [handOut, bind_apply, front, sharedPtr, hQueue, hFails]

/-- The deleter waits for the mutex that `getConn` has. -/
theorem handOut_waits (hFails : call.fails = some .controlBlock) (hQueue : p.connQ ≠ []) :
    handOut call ⟨true, p⟩ = (.waits, ⟨true, p⟩) := by
  obtain ⟨conn, rest, hCons⟩ := List.exists_cons_of_ne_nil hQueue
  simp [handOut, bind_apply, front, sharedPtr, deleter, hCons, hFails]

/-- The queue is not empty. -/
theorem getConn_some (hQueue : p.connQ ≠ []) :
    getConn cfg call ⟨false, p⟩ = withLock (handOut call) ⟨false, p⟩ := by
  simp [getConn, withLock_apply, bind_apply, hQueue]

/-- The queue is empty and grows. -/
theorem getConn_grows (hEmpty : p.connQ = []) (hMax : 0 < cfg.maxSize) :
    getConn cfg call ⟨false, p⟩ =
      withLock (addConn call.new call.fails >>= fun _ => handOut call) ⟨false, p⟩ := by
  have hGrow : ([] : List Ptr).length + 1 ≤ cfg.maxSize := hMax
  simp only [getConn, withLock_apply, bind_apply, read_apply, hEmpty, List.isEmpty_nil, if_true,
    if_pos hGrow]

/-- `getConn` without a failure is that of the model. -/
theorem getConn_returns (hFails : call.fails = none)
    (h : ConnPool.getConn cfg p call.group call.new call.who = some p') :
    getConn cfg call ⟨false, p⟩ = (.returns (), ⟨false, p'⟩) := by
  unfold ConnPool.getConn at h
  split at h
  · rename_i hEmpty
    rw [List.isEmpty_iff] at hEmpty
    split at h
    · rename_i hMax
      rw [getConn_grows hEmpty (Nat.lt_of_lt_of_le (Nat.succ_pos _) hMax), withLock_apply,
        bind_apply, addConn_returns (.inl hFails)]
      simp only [handOut_returns hFails h]
    · simp at h
  · rename_i hSome
    rw [List.isEmpty_iff] at hSome
    rw [getConn_some hSome, withLock_apply, handOut_returns hFails h]

/-- `new` fails before anything has been changed. -/
theorem getConn_newConn (hFails : call.fails = some .newConn) (hReached : Reached cfg p .newConn) :
    getConn cfg call ⟨false, p⟩ = (.throws, ⟨false, p⟩) := by
  rw [getConn_grows hReached.1 hReached.2, hFails]
  rfl

/-- `connect` or the queue fails behind `new`: the new connection is in no place. -/
theorem getConn_loses (hFails : call.fails = some point)
    (hPoint : point = .connectArgs ∨ point = .push) (hReached : Reached cfg p point) :
    ∃ p', getConn cfg call ⟨false, p⟩ = (.throws, ⟨false, p'⟩) ∧
      p'.live = call.new.ptr :: p.live ∧ p'.placed = p.placed := by
  have hGrows : p.connQ = [] ∧ 0 < cfg.maxSize := by
    rcases hPoint with rfl | rfl <;> exact hReached
  rw [getConn_grows hGrows.1 hGrows.2, hFails]
  rcases hPoint with rfl | rfl
  · exact ⟨_, rfl, rfl, rfl⟩
  · exact ⟨_, rfl, rfl, rfl⟩

theorem getConn_waits (hFails : call.fails = some .controlBlock)
    (hReached : Reached cfg p .controlBlock) :
    ∃ p', getConn cfg call ⟨false, p⟩ = (.waits, ⟨true, p'⟩) := by
  by_cases hEmpty : p.connQ = []
  · have hQueue : (ConnPool.addConn p call.new).connQ ≠ [] := by simp [ConnPool.addConn]
    refine ⟨ConnPool.addConn p call.new, ?_⟩
    rw [getConn_grows hEmpty (hReached hEmpty), withLock_apply, bind_apply,
      addConn_returns (.inr hFails)]
    simp only [handOut_waits hFails hQueue]
  · refine ⟨p, ?_⟩
    rw [getConn_some hEmpty, withLock_apply, handOut_waits hFails hEmpty]

end Calls

/-! ## Runs with failed calls -/

section Runs

variable {cfg : Config} {p p' : Pool} {s s' : Locked Pool} {a : Action} {call : Call}
  {point : ThrowPoint}

/-- Idle and held connections exist, each in one place; there may be others. -/
structure Listed (p : Pool) : Prop where
  nodup : p.placed.Nodup
  live : ∀ conn ∈ p.placed, conn ∈ p.live

theorem Listed.relisted (h : Listed p) (hRelisted : Relisted p p') : Listed p' := by
  cases hRelisted with
  | same hPerm hLive =>
      refine ⟨hPerm.nodup_iff.mpr h.nodup, fun conn hMem => ?_⟩
      rw [hLive]
      exact h.live conn (hPerm.mem_iff.mp hMem)
  | created conn hNew hPerm hLive =>
      constructor
      · exact hPerm.nodup_iff.mpr (List.nodup_cons.mpr ⟨fun hMem => hNew (h.live _ hMem), h.nodup⟩)
      · intro other hMem
        rw [hLive, List.mem_cons]
        exact (List.mem_cons.mp (hPerm.mem_iff.mp hMem)).imp_right (h.live other)
  | deleted dead hPlaced hLive =>
      have hNodup := h.nodup
      rw [hPlaced, List.nodup_append] at hNodup
      refine ⟨hNodup.2.1, fun conn hMem => ?_⟩
      rw [hLive, List.mem_filter, decide_eq_true_iff]
      refine ⟨h.live conn (hPlaced ▸ List.mem_append_right _ hMem), fun hDead => ?_⟩
      exact hNodup.2.2 conn hDead conn hMem rfl

/-- Nothing is known of a pool whose mutex is never released. -/
def ListedInv (s : Locked Pool) : Prop :=
  s.locked = false → Listed s.val

theorem listedInv_step (h : ListedInv s) (hStep : step cfg s a = some s') : ListedInv s' := by
  obtain ⟨locked, p⟩ := s
  cases a with
  | step a =>
      simp only [step] at hStep
      split at hStep
      · simp at hStep
      · rename_i hFree
        obtain ⟨p', hPool, rfl⟩ := Option.map_eq_some_iff.mp hStep
        have hListed : Listed p := h (eq_false_of_ne_true hFree)
        exact fun _ => hListed.relisted (step_move hPool).relisted
  | getConn call point =>
      simp only [step] at hStep
      split at hStep
      · rename_i hCall
        obtain ⟨hFree, hFails, hReached, -⟩ := hCall
        obtain rfl := Option.some.inj hStep
        have hListed : Listed p := h hFree
        obtain rfl : locked = false := hFree
        cases point with
        | newConn =>
            rw [getConn_newConn hFails hReached]
            exact fun _ => hListed
        | connectArgs | push =>
            obtain ⟨p', hThrows, hLive, hPlaced⟩ := getConn_loses hFails (by simp) hReached
            rw [hThrows]
            refine fun _ => ⟨hPlaced ▸ hListed.nodup, fun conn hMem => ?_⟩
            rw [hLive]
            exact List.mem_cons_of_mem _ (hListed.live conn (hPlaced ▸ hMem))
        | controlBlock =>
            obtain ⟨p', hWaits⟩ := getConn_waits hFails hReached
            rw [hWaits]
            exact fun hFree => absurd hFree (by simp)
      · simp at hStep

theorem listed_reach {p₀ : Pool} (hInit : Constructed cfg p₀)
    (hReach : Reachable (step cfg) ⟨false, p₀⟩ s) : ListedInv s := by
  refine hReach.invariant ?_ fun _ _ _ hInv _ hStep => listedInv_step hInv hStep
  obtain ⟨cs, -, hFill⟩ := hInit
  have hPlaced := placedInv_fill placedInv_emptyPool hFill
  exact fun _ => ⟨hPlaced.nodup, fun conn hMem => (hPlaced.live_iff conn).mpr hMem⟩

/-- **A failed `getConn` leaves the pool intact** exactly if it is `new` that has
failed. -/
theorem getConn_throws_intact_exactly {p₀ : Pool} (hInit : Constructed cfg p₀)
    (hReach : Reachable (step cfg) ⟨false, p₀⟩ ⟨false, p⟩) (hFails : call.fails = some point)
    (hReached : Reached cfg p point) (hFresh : p.connQ = [] → call.new.Fresh p) :
    Intact p (getConn cfg call ⟨false, p⟩) ↔ point = .newConn := by
  have hListed : Listed p := listed_reach hInit hReach rfl
  constructor
  · intro hIntact
    cases point with
    | newConn => rfl
    | connectArgs | push =>
        -- the new connection exists and is in no place
        obtain ⟨p', hThrows, hLive, hPlaced⟩ := getConn_loses hFails (by simp) hReached
        rw [hThrows] at hIntact
        have hNew : call.new.ptr ∉ p.live := (hFresh hReached.1).1
        have hLost : call.new.ptr ∉ p'.placed := fun hMem =>
          hNew (hListed.live _ (hPlaced ▸ hMem))
        have hKnown := hIntact.known call.new.ptr (hLive ▸ List.mem_cons_self) hLost
        exact absurd hKnown.1 hNew
    | controlBlock =>
        obtain ⟨p', hWaits⟩ := getConn_waits hFails hReached
        rw [hWaits] at hIntact
        exact absurd hIntact.left (by simp)
  · rintro rfl
    rw [getConn_newConn hFails hReached]
    refine ⟨rfl, rfl, fun conn hMem => ?_, fun conn hLive hOut => ⟨hLive, hOut⟩⟩
    exact List.count_eq_one_of_mem (List.nodup_append.mp hListed.nodup).1 hMem

/-- There is no memory for the first connection. -/
theorem getConn_throws_intact_exactly_new :
    Intact emptyPool (getConn ⟨0, 1, 0⟩ ⟨0, ⟨1, true, 0⟩, .nobody, 0, some .newConn⟩
      ⟨false, emptyPool⟩) := by
  have hInit : Constructed ⟨0, 1, 0⟩ emptyPool := ⟨[], rfl, rfl⟩
  exact (getConn_throws_intact_exactly hInit Reach.start rfl (by decide) (by decide)).mpr rfl

/-- Without memory for the control block, the client waits for its own mutex for
ever; without memory in the queue, a connection is lost. -/
theorem getConn_failures_not_intact :
    ∃ (cfg : Config) (p : Pool) (call lost : Call), Constructed cfg p ∧
      Reached cfg p .controlBlock ∧ call.fails = some .controlBlock ∧
      (getConn cfg call ⟨false, p⟩).1 = .waits ∧ (getConn cfg call ⟨false, p⟩).2.locked = true ∧
      ¬ Intact p (getConn cfg call ⟨false, p⟩) ∧
      Reached cfg p .push ∧ lost.fails = some .push ∧ lost.new.Fresh p ∧
      (getConn cfg lost ⟨false, p⟩).2.val.live = [1] ∧
      (getConn cfg lost ⟨false, p⟩).2.val.placed = [] ∧
      ¬ Intact p (getConn cfg lost ⟨false, p⟩) := by
  refine ⟨⟨0, 1, 0⟩, emptyPool, ⟨0, ⟨1, true, 0⟩, .nobody, 0, some .controlBlock⟩,
    ⟨0, ⟨1, true, 0⟩, .nobody, 0, some .push⟩, ⟨[], rfl, rfl⟩, by decide, rfl, rfl, rfl, ?_,
    by decide, rfl, by decide, rfl, rfl, ?_⟩
  · intro hIntact
    exact absurd hIntact.left (by decide)
  · intro hIntact
    have hKnown := hIntact.known 1 (by decide) (by decide)
    exact absurd hKnown.1 (by decide)

end Runs

end Exceptions
end ConnPool
end LinuxCppLearn
