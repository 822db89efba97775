import LinuxCppLearn.ConnPool.Placement

/-!
# The destructor of the pool against its threads

`~ConnPool` drains `m_connQ` with `front`, `pop` and `delete` and takes no lock;
the producer and the recycler are detached and nobody stops them, and clients
may still drop handles.  Here every access to the queue is a step.  `m_mutexQ`
admits one thread: `inside` says which one holds it and where it is.

* `section_in_one_piece` — a critical section with nobody in between is one step
  of the pool.
* `Undisturbed` — nothing is pushed behind the destructor's last look at the
  queue, and the front that the destructor or the recycler has read stays until
  that thread pops it.
* `TeardownInv` — under it every connection has one owner: the queue, a handle,
  or the thread that is about to push or delete it.
* `teardown_exactly_once_if_undisturbed` — the law.
-/

namespace LinuxCppLearn
namespace ConnPool
namespace Teardown

open StepSystem

/-- Where `~ConnPool` is. -/
inductive Destructor
  | before
  | test
  | front
  | pop (conn : Ptr)
  | delete (conn : Ptr)
  | finished
deriving DecidableEq, Repr

/-- Where the thread that holds `m_mutexQ` is. -/
inductive Inside
  | producerTest
  /-- in `addConn`, behind `new`, `connect` and `refreshAliveTime` -/
  | producerPush (conn : Ptr)
  | producerNotify
  | recyclerTest
  | recyclerFront
  | recyclerAge (conn : Ptr)
  | recyclerPop (conn : Ptr)
  | recyclerDelete (conn : Ptr)
  | releaseRefresh (group : Nat) (conn : Ptr)
  | releasePush (group : Nat) (conn : Ptr)
  /-- at the end of its scope -/
  | leave
deriving DecidableEq, Repr

structure State where
  pool : Pool
  destructor : Destructor
  inside : Option Inside
  /-- `delete` was called on a connection that did not exist any more -/
  deletedTwice : Bool
  /-- `front` or `pop` was called on the empty queue -/
  undefined : Bool

/-- The destructor starts here, or one of the threads before it. -/
def State.start (p : Pool) : State where
  pool := p
  destructor := .before
  inside := none
  deletedTwice := false
  undefined := false

inductive Action
  | destructor
  | enterProducer
  | wakeProducer
  | enterRecycler
  | enterRelease (group : Nat)
  /-- the thread inside goes on; what it asks the environment for is here -/
  | inside (new : NewConn)

/-- `new MysqlConn`, `connect` and `refreshAliveTime` in `addConn`. -/
def newConn (p : Pool) (c : NewConn) : Pool :=
  { p with
    live := c.ptr :: p.live
    aliveTime := Function.update p.aliveTime c.ptr c.now
    connected := Function.update p.connected c.ptr c.connectOk
    clock := c.now }

/-- `m_connQ.push(conn)`. -/
def push (p : Pool) (conn : Ptr) : Pool := { p with connQ := p.connQ ++ [conn] }

/-- The two halves of `addConn` as the pool's model has it. -/
theorem addConn_eq (p : Pool) (c : NewConn) : addConn p c = push (newConn p c) c.ptr := rfl

/-- `delete conn`. -/
def State.delete (s : State) (conn : Ptr) : State :=
  if conn ∈ s.pool.live then
    { s with pool := { s.pool with live := s.pool.live.filter (· ≠ conn) } }
  else { s with deletedTwice := true }

/-- A step of `while (!m_connQ.empty()) { front; pop; delete; }`. -/
def destructorStep (s : State) : Option State :=
  match s.destructor with
  | .before => some { s with destructor := .test }
  | .test =>
      some { s with destructor := if s.pool.connQ.isEmpty then .finished else .front }
  | .front =>
      match s.pool.connQ with
      | [] => some { s with undefined := true }
      | conn :: _ => some { s with destructor := .pop conn }
  | .pop conn =>
      match s.pool.connQ with
      | [] => some { s with undefined := true }
      | _ :: rest =>
          some { s with pool := { s.pool with connQ := rest }, destructor := .delete conn }
  | .delete conn => some { s.delete conn with destructor := .test }
  | .finished => none

/-- A step of the thread that holds `m_mutexQ`. -/
def insideStep (cfg : Config) (s : State) (new : NewConn) : Inside → Option State
  | .producerTest =>
      -- `m_cond.wait` gives the mutex back
      if cfg.minSize ≤ s.pool.connQ.length then
        some { s with pool := { s.pool with producerWaits := true }, inside := none }
      else if new.Fresh s.pool then
        some { s with pool := newConn s.pool new, inside := some (.producerPush new.ptr) }
      else none
  | .producerPush conn =>
      some { s with pool := push s.pool conn, inside := some .producerNotify }
  | .producerNotify => some { s with pool := notifyAll s.pool, inside := some .leave }
  | .recyclerTest =>
      some { s with
        inside := some (if cfg.minSize < s.pool.connQ.length then .recyclerFront else .leave) }
  | .recyclerFront =>
      match s.pool.connQ with
      | [] => some { s with undefined := true }
      | conn :: _ => some { s with inside := some (.recyclerAge conn) }
  | .recyclerAge conn =>
      if s.pool.clock ≤ new.now then
        some { s with
          pool := { s.pool with clock := new.now }
          inside := some (if cfg.maxIdleTime ≤ getAliveTime s.pool conn new.now
            then .recyclerPop conn else .leave) }
      else none
  | .recyclerPop conn =>
      match s.pool.connQ with
      | [] => some { s with undefined := true }
      | _ :: rest =>
          some { s with
            pool := { s.pool with connQ := rest }, inside := some (.recyclerDelete conn) }
  | .recyclerDelete conn => some { s.delete conn with inside := some .recyclerTest }
  | .releaseRefresh group conn =>
      if s.pool.clock ≤ new.now then
        some { s with
          pool := { s.pool with
            aliveTime := Function.update s.pool.aliveTime conn new.now
            clock := new.now }
          inside := some (.releasePush group conn) }
      else none
  | .releasePush group conn =>
      some { s with
        pool := { push s.pool conn with held := s.pool.held.erase (group, conn) }
        inside := some .leave }
  | .leave => some { s with inside := none }

def step (cfg : Config) (s : State) : Action → Option State
  | .destructor => destructorStep s
  | .enterProducer =>
      if s.inside = none ∧ s.pool.producerWaits = false then
        some { s with inside := some .producerTest }
      else none
  | .wakeProducer =>
      if s.pool.producerWaits = true then
        some { s with pool := { s.pool with producerWaits := false } }
      else none
  | .enterRecycler =>
      if s.inside = none then some { s with inside := some .recyclerTest } else none
  | .enterRelease group =>
      match s.inside, s.pool.held.find? (fun entry => entry.1 == group) with
      | none, some entry => some { s with inside := some (.releaseRefresh group entry.2) }
      | _, _ => none
  | .inside new =>
      match s.inside with
      | none => none
      | some pc => insideStep cfg s new pc

/-! ## A critical section in one piece -/

/-- The queue holds different connections, and none that was deleted. -/
def QueueLive (p : Pool) : Prop :=
  p.connQ.Nodup ∧ ∀ conn ∈ p.connQ, conn ∈ p.live

section
variable {cfg : Config} {s : State} {p p' : Pool}

theorem queueLive_of_placed (h : PlacedInv p) : QueueLive p := by
  have hOnce := h.once
  unfold Pool.placed at hOnce
  refine ⟨(List.nodup_append.mp hOnce.nodup).1, fun conn hMem => ?_⟩
  exact (hOnce.mem_iff conn).mpr (List.mem_append_left _ hMem)

theorem QueueLive.delete_front {conn : Ptr} {rest : List Ptr} {now : Time} (h : QueueLive p)
    (hQueue : p.connQ = conn :: rest) :
    QueueLive { p with connQ := rest, live := p.live.filter (· ≠ conn), clock := now } := by
  obtain ⟨hNodup, hLive⟩ := h
  rw [hQueue] at hNodup hLive
  obtain ⟨hNew, hNodup⟩ := List.nodup_cons.mp hNodup
  refine ⟨hNodup, fun c hMem => ?_⟩
  have hNe : c ≠ conn := ne_of_mem_of_not_mem hMem hNew
  exact List.mem_filter.mpr ⟨hLive c (List.mem_cons_of_mem _ hMem), by simpa using hNe⟩

theorem release_in_one_piece {group : Nat} {now : Time} (hFree : s.inside = none)
    (hClock : s.pool.clock ≤ now) (hRelease : release s.pool group now = some p') :
    ∃ as, .destructor ∉ as ∧ run (step cfg) s as = some { s with pool := p' } := by
  unfold release at hRelease
  cases hFind : s.pool.held.find? (fun entry => entry.1 == group) with
  | none => simp [hFind] at hRelease
  | some entry =>
      simp only [hFind, Option.some.injEq] at hRelease
      subst hRelease
      have hGroup : entry.1 = group := by simpa using List.find?_some hFind
      subst hGroup
      let go : Action := .inside ⟨0, true, now⟩
      refine ⟨[.enterRelease entry.1, go, go, go], by simp [go], ?_⟩
      simp [run, step, insideStep, hFree, hFind, hClock, go, push]

theorem produce_in_one_piece {new : NewConn} (hFree : s.inside = none)
    (hAwake : s.pool.producerWaits = false)
    (hFresh : s.pool.connQ.length < cfg.minSize → new.Fresh s.pool) :
    ∃ as, .destructor ∉ as ∧
      run (step cfg) s as = some { s with pool := produceConn cfg s.pool new } := by
  unfold produceConn
  by_cases hFull : cfg.minSize ≤ s.pool.connQ.length
  · refine ⟨[.enterProducer, .inside new], by simp, ?_⟩
    simp [run, step, insideStep, hFree, hAwake, hFull]
  · have hNew := hFresh (Nat.lt_of_not_le hFull)
    refine ⟨[.enterProducer, .inside new, .inside new, .inside new, .inside new], by simp, ?_⟩
    simp [run, step, insideStep, hFree, hAwake, hFull, hNew, addConn_eq]

/-- The loop of the recycler, from its test on. -/
theorem recycleLoop_in_one_piece {readings : List Time} (hPc : s.inside = some .recyclerTest)
    (hLive : QueueLive s.pool) (hLoop : recycleLoop cfg readings s.pool = some p') :
    ∃ as, .destructor ∉ as ∧
      run (step cfg) s as = some { s with pool := p', inside := none } := by
  induction readings generalizing s with
  | nil =>
      unfold recycleLoop at hLoop
      split at hLoop
      · simp at hLoop
      · rename_i hEnough
        obtain rfl := Option.some.inj hLoop
        let go : Action := .inside ⟨0, true, 0⟩
        refine ⟨[go, go], by simp [go], ?_⟩
        simp [run, step, insideStep, hPc, hEnough, go]
  | cons now readings ih =>
      unfold recycleLoop at hLoop
      obtain ⟨⟨hMany, hClock⟩, hLoop⟩ := Option.ite_none_right_eq_some.mp hLoop
      let go : Action := .inside ⟨0, true, now⟩
      cases hQueue : s.pool.connQ with
      | nil => simp [hQueue] at hLoop
      | cons conn rest =>
          simp only [hQueue] at hLoop
          rw [hQueue, List.length_cons] at hMany
          split at hLoop
          -- pop and delete, and back to the test
          · rename_i hOld
            let t : State := { s with
              pool := { s.pool with
                connQ := rest
                live := s.pool.live.filter (· ≠ conn)
                clock := now } }
            have hMem : conn ∈ s.pool.live := hLive.2 conn (by rw [hQueue]; exact List.mem_cons_self)
            have hRound : run (step cfg) s [go, go, go, go, go] = some t := by
              simp [run, step, insideStep, hPc, hQueue, hMany, hClock, hOld, State.delete, hMem,
                go, t]
            obtain ⟨as, hOthers, hRest⟩ := ih (s := t) hPc (hLive.delete_front hQueue) hLoop
            refine ⟨[go, go, go, go, go] ++ as, by simp [go, hOthers], ?_⟩
            rw [run_append, hRound]
            exact hRest
          -- the `break`
          · rename_i hYoung
            obtain ⟨-, hLast⟩ := Option.ite_none_right_eq_some.mp hLoop
            obtain rfl := Option.some.inj hLast
            refine ⟨[go, go, go, go], by simp [go], ?_⟩
            simp [run, step, insideStep, hPc, hQueue, hMany, hClock, hYoung, go]

/-- The steps of the pool that can happen beside the destructor. -/
def Beside : ConnPool.Action → Prop
  | .release _ _ | .produce _ | .producerWake | .recycle _ => True
  | .getConn _ _ _ | .getConnWait | .clientWake => False

/-- **A critical section with nobody in between** is one step of the pool. -/
theorem section_in_one_piece {a : ConnPool.Action} (hBeside : Beside a) (hFree : s.inside = none)
    (hPlaced : PlacedInv s.pool) (hStep : ConnPool.step cfg s.pool a = some p') :
    ∃ as, .destructor ∉ as ∧ run (step cfg) s as = some { s with pool := p' } := by
  cases a with
  | release group now =>
      obtain ⟨hClock, hRelease⟩ := Option.ite_none_right_eq_some.mp hStep
      exact release_in_one_piece hFree hClock hRelease
  | produce new =>
      obtain ⟨⟨hAwake, hFresh⟩, hProduce⟩ := Option.ite_none_right_eq_some.mp hStep
      obtain rfl := Option.some.inj hProduce
      exact produce_in_one_piece hFree hAwake hFresh
  | producerWake =>
      obtain ⟨hWaits, hWake⟩ := Option.ite_none_right_eq_some.mp hStep
      obtain rfl := Option.some.inj hWake
      exact ⟨[.wakeProducer], by simp, by simp [run, step, hWaits]⟩
  | recycle readings =>
      let t : State := { s with inside := some .recyclerTest }
      obtain ⟨as, hOthers, hRun⟩ :=
        recycleLoop_in_one_piece (s := t) rfl (queueLive_of_placed hPlaced) hStep
      refine ⟨.enterRecycler :: as, by simp [hOthers], ?_⟩
      have hEnter : step cfg s .enterRecycler = some t := if_pos hFree
      rw [run_cons, hEnter, Option.bind_some, hRun, ← hFree]
  | getConn group new who => exact hBeside.elim
  | getConnWait => exact hBeside.elim
  | clientWake => exact hBeside.elim

end

/-! ## What the destructor is for -/

/-- What the destructor is for: no connection is deleted twice, and when it has
finished and nobody holds a handle or the mutex, none is left. -/
def State.ExactlyOnce (s : State) : Prop :=
  s.deletedTwice = false ∧
    (s.destructor = .finished → s.inside = none → s.pool.held = [] →
      s.pool.connQ = [] ∧ s.pool.live = [])

/-- The queue still has the front that was read from it. -/
def State.FrontIs (s : State) (conn : Ptr) : Prop := s.pool.connQ.head? = some conn

instance (s : State) (conn : Ptr) : Decidable (s.FrontIs conn) :=
  inferInstanceAs (Decidable (_ = _))

/-- No other thread gets in the way of the thread inside. -/
def Inside.Undisturbed (s : State) : Inside → Prop
  | .producerPush _ | .releasePush _ _ => s.destructor ≠ .finished
  | .recyclerFront => s.pool.connQ ≠ []
  | .recyclerAge conn | .recyclerPop conn => s.FrontIs conn
  | _ => True

/-- No other thread gets in the way of the destructor. -/
def Destructor.Undisturbed (s : State) : Destructor → Prop
  | .front => s.pool.connQ ≠ []
  | .pop conn => s.FrontIs conn
  | _ => True

/-- The destructor and the recycler never take connections from each other, and
no connection is pushed behind the destructor's last look at the queue. -/
def Undisturbed (s : State) : Action → Prop
  | .destructor => s.destructor.Undisturbed s
  | .inside _ => ∀ pc ∈ s.inside, pc.Undisturbed s
  | _ => True

instance (s : State) : (pc : Inside) → Decidable (pc.Undisturbed s)
  | .producerPush _ | .releasePush _ _ => inferInstanceAs (Decidable (_ ≠ _))
  | .recyclerFront => inferInstanceAs (Decidable (_ ≠ _))
  | .recyclerAge conn | .recyclerPop conn => inferInstanceAs (Decidable (s.FrontIs conn))
  | .producerTest | .producerNotify | .recyclerTest | .recyclerDelete _
  | .releaseRefresh _ _ | .leave => isTrue trivial

instance (s : State) : (pc : Destructor) → Decidable (pc.Undisturbed s)
  | .front => inferInstanceAs (Decidable (_ ≠ _))
  | .pop conn => inferInstanceAs (Decidable (s.FrontIs conn))
  | .before | .test | .delete _ | .finished => isTrue trivial

instance (s : State) : (pc : Option Inside) → Decidable (∀ pc' ∈ pc, pc'.Undisturbed s)
  | none => isTrue fun _ hMem => by simp at hMem
  | some pc => decidable_of_iff (pc.Undisturbed s) (by simp)

instance (s : State) : (a : Action) → Decidable (Undisturbed s a)
  | .destructor => inferInstanceAs (Decidable (s.destructor.Undisturbed s))
  | .inside _ => inferInstanceAs (Decidable (∀ pc ∈ s.inside, pc.Undisturbed s))
  | .enterProducer | .wakeProducer | .enterRecycler | .enterRelease _ => isTrue trivial

/-- The connection that the destructor is about to delete. -/
def Destructor.carried : Destructor → List Ptr
  | .delete conn => [conn]
  | _ => []

/-- The connection that the thread inside is about to push or to delete. -/
def Inside.carried : Inside → List Ptr
  | .producerPush conn | .recyclerDelete conn => [conn]
  | _ => []

/-- The handle whose deleter runs. -/
def Inside.releasing : Inside → Option (Nat × Ptr)
  | .releaseRefresh group conn | .releasePush group conn => some (group, conn)
  | _ => none

/-- The connections by their owners: queue, handles, destructor, thread inside. -/
def State.owned (s : State) : List Ptr :=
  s.pool.placed ++ (s.destructor.carried ++ s.inside.elim [] Inside.carried)

structure TeardownInv (s : State) : Prop where
  once : OwnedOnce s.owned s.pool.live
  handle : ∀ pc ∈ s.inside, ∀ entry ∈ pc.releasing, entry ∈ s.pool.held
  drained : s.destructor = .finished → s.pool.connQ = []
  deletedTwice : s.deletedTwice = false
  undefined : s.undefined = false

theorem teardownInv_start {p : Pool} (h : PlacedInv p) : TeardownInv (.start p) where
  once := by simpa [State.owned, State.start, Destructor.carried] using h.once
  handle pc hPc := by simp [State.start] at hPc
  drained hDone := by simp [State.start] at hDone
  deletedTwice := rfl
  undefined := rfl

/-- A connection that has an owner exists, so deleting it is no second delete. -/
theorem TeardownInv.delete_eq {s : State} {conn : Ptr} (h : TeardownInv s)
    (hMem : conn ∈ s.owned) :
    s.delete conn =
      { s with pool := { s.pool with live := s.pool.live.filter (· ≠ conn) } } := by
  unfold State.delete
  rw [if_pos ((h.once.mem_iff conn).mpr hMem)]

theorem inv_destructorStep {s s' : State} (h : TeardownInv s)
    (hMet : s.destructor.Undisturbed s) (hStep : destructorStep s = some s') :
    TeardownInv s' := by
  unfold destructorStep at hStep
  unfold Destructor.Undisturbed at hMet
  have hOnce := h.once
  unfold State.owned Pool.placed at hOnce
  split at hStep
  · rename_i hPc
    obtain rfl := Option.some.inj hStep
    refine ⟨?_, h.handle, fun hDone => ?_, h.deletedTwice, h.undefined⟩
    · simpa [State.owned, Pool.placed, Destructor.carried, hPc] using hOnce
    · simp at hDone
  · rename_i hPc
    obtain rfl := Option.some.inj hStep
    refine ⟨?_, h.handle, fun hDone => ?_, h.deletedTwice, h.undefined⟩
    · refine hOnce.perm (List.Perm.of_eq ?_)
      unfold State.owned Pool.placed
      simp only [hPc]
      split <;> rfl
    · simp only at hDone
      split at hDone
      · rwa [← List.isEmpty_iff]
      · simp at hDone
  · rename_i hPc
    split at hStep
    · rename_i hEmpty
      simp [hPc, hEmpty] at hMet
    · obtain rfl := Option.some.inj hStep
      refine ⟨?_, h.handle, fun hDone => ?_, h.deletedTwice, h.undefined⟩
      · simpa [State.owned, Pool.placed, Destructor.carried, hPc] using hOnce
      · simp at hDone
  · rename_i conn hPc
    split at hStep
    · rename_i hEmpty
      simp [hPc, State.FrontIs, hEmpty] at hMet
    · rename_i front rest hQueue
      obtain rfl := Option.some.inj hStep
      refine ⟨?_, h.handle, fun hDone => ?_, h.deletedTwice, h.undefined⟩
      · obtain rfl : front = conn := by simpa [hPc, State.FrontIs, hQueue] using hMet
        refine hOnce.perm ?_
        simp only [State.owned, Pool.placed, Destructor.carried, hPc, hQueue]
        refine List.perm_iff_count.mpr fun c => ?_
        simp only [List.count_append, List.count_cons, List.count_nil]
        omega
      · simp at hDone
  · rename_i conn hPc
    obtain rfl := Option.some.inj hStep
    have hMem : conn ∈ s.owned := by simp [State.owned, Destructor.carried, hPc]
    rw [h.delete_eq hMem]
    refine ⟨?_, h.handle, fun hDone => ?_, h.deletedTwice, h.undefined⟩
    · refine hOnce.remove ?_
      simp only [State.owned, Pool.placed, Destructor.carried, hPc]
      refine List.perm_iff_count.mpr fun c => ?_
      simp only [List.count_append, List.count_cons, List.count_nil]
      omega
    · simp at hDone
  · simp at hStep

theorem inv_insideStep {cfg : Config} {s s' : State} {new : NewConn} {pc : Inside}
    (h : TeardownInv s) (hPc : s.inside = some pc) (hMet : pc.Undisturbed s)
    (hStep : insideStep cfg s new pc = some s') : TeardownInv s' := by
  have hOnce := h.once
  unfold State.owned Pool.placed at hOnce
  rw [hPc] at hOnce
  cases pc with
  | producerTest =>
      simp only [insideStep] at hStep
      split at hStep
      · obtain rfl := Option.some.inj hStep
        refine ⟨hOnce, ?_, h.drained, h.deletedTwice, h.undefined⟩
        intro pc' hPc'
        simp at hPc'
      · split at hStep
        · rename_i hFresh
          obtain rfl := Option.some.inj hStep
          refine ⟨hOnce.create hFresh.1 ?_, ?_, h.drained, h.deletedTwice, h.undefined⟩
          · simp only [State.owned, Pool.placed, newConn, Inside.carried, Option.elim]
            refine List.perm_iff_count.mpr fun c => ?_
            simp only [List.count_append, List.count_cons, List.count_nil]
            omega
          · simp [Inside.releasing]
        · simp at hStep
  | producerPush conn =>
      obtain rfl := Option.some.inj hStep
      refine ⟨hOnce.perm ?_, ?_, fun hDone => absurd hDone hMet, h.deletedTwice, h.undefined⟩
      · simp only [State.owned, Pool.placed, push, Inside.carried, Option.elim]
        refine List.perm_iff_count.mpr fun c => ?_
        simp only [List.count_append, List.count_cons, List.count_nil]
        omega
      · simp [Inside.releasing]
  | producerNotify =>
      obtain rfl := Option.some.inj hStep
      exact ⟨hOnce, by simp [Inside.releasing], h.drained, h.deletedTwice, h.undefined⟩
  | recyclerTest =>
      obtain rfl := Option.some.inj hStep
      refine ⟨?_, ?_, h.drained, h.deletedTwice, h.undefined⟩
      · unfold State.owned Pool.placed
        split <;> exact hOnce
      · split <;> simp [Inside.releasing]
  | recyclerFront =>
      simp only [insideStep] at hStep
      split at hStep
      · rename_i hEmpty
        exact absurd hEmpty hMet
      · obtain rfl := Option.some.inj hStep
        exact ⟨hOnce, by simp [Inside.releasing], h.drained, h.deletedTwice, h.undefined⟩
  | recyclerAge conn =>
      simp only [insideStep] at hStep
      split at hStep
      · obtain rfl := Option.some.inj hStep
        refine ⟨?_, ?_, h.drained, h.deletedTwice, h.undefined⟩
        · unfold State.owned Pool.placed
          split <;> exact hOnce
        · split <;> simp [Inside.releasing]
      · simp at hStep
  | recyclerPop conn =>
      simp only [insideStep] at hStep
      split at hStep
      · rename_i hEmpty
        simp [Inside.Undisturbed, State.FrontIs, hEmpty] at hMet
      · rename_i front rest hQueue
        obtain rfl := Option.some.inj hStep
        refine ⟨?_, by simp [Inside.releasing], fun hDone => ?_, h.deletedTwice, h.undefined⟩
        · obtain rfl : front = conn := by
            simpa [Inside.Undisturbed, State.FrontIs, hQueue] using hMet
          refine hOnce.perm ?_
          simp only [State.owned, Pool.placed, Inside.carried, hQueue, Option.elim]
          refine List.perm_iff_count.mpr fun c => ?_
          simp only [List.count_append, List.count_cons, List.count_nil]
          omega
        · simp [h.drained hDone] at hQueue
  | recyclerDelete conn =>
      obtain rfl := Option.some.inj hStep
      have hMem : conn ∈ s.owned := by simp [State.owned, Inside.carried, hPc]
      rw [h.delete_eq hMem]
      refine ⟨hOnce.remove ?_, by simp [Inside.releasing], h.drained, h.deletedTwice,
        h.undefined⟩
      simp only [State.owned, Pool.placed, Inside.carried, Option.elim]
      refine List.perm_iff_count.mpr fun c => ?_
      simp only [List.count_append, List.count_cons, List.count_nil]
      omega
  | releaseRefresh group conn =>
      simp only [insideStep] at hStep
      split at hStep
      · obtain rfl := Option.some.inj hStep
        have hHandle := h.handle _ hPc
        exact ⟨hOnce, by simpa [Inside.releasing] using hHandle, h.drained, h.deletedTwice,
          h.undefined⟩
      · simp at hStep
  | releasePush group conn =>
      obtain rfl := Option.some.inj hStep
      refine ⟨hOnce.perm ?_, by simp [Inside.releasing], fun hDone => absurd hDone hMet,
        h.deletedTwice, h.undefined⟩
      have hMem : (group, conn) ∈ s.pool.held := h.handle _ hPc _ rfl
      -- the group that is given up stands somewhere in the list
      have hPerm := (List.perm_cons_erase hMem).map Prod.snd
      simp only [State.owned, Pool.placed, push, Inside.carried, Option.elim]
      refine List.perm_iff_count.mpr fun c => ?_
      have hCount := List.perm_iff_count.mp hPerm c
      simp only [List.map_cons, List.count_append, List.count_cons, List.count_nil] at hCount ⊢
      omega
  | leave =>
      obtain rfl := Option.some.inj hStep
      exact ⟨hOnce, by simp, h.drained, h.deletedTwice, h.undefined⟩

/-- **Every undisturbed step keeps the owners apart.** -/
theorem inv_step {cfg : Config} {s s' : State} {a : Action} (h : TeardownInv s)
    (hMet : Undisturbed s a) (hStep : step cfg s a = some s') : TeardownInv s' := by
  cases a with
  | destructor => exact inv_destructorStep h hMet hStep
  | enterProducer =>
      simp only [step] at hStep
      split at hStep
      · rename_i hFree
        obtain rfl := Option.some.inj hStep
        have hOnce := h.once
        unfold State.owned at hOnce
        rw [hFree.1] at hOnce
        exact ⟨hOnce, by simp [Inside.releasing], h.drained, h.deletedTwice, h.undefined⟩
      · simp at hStep
  | wakeProducer =>
      simp only [step] at hStep
      split at hStep
      · obtain rfl := Option.some.inj hStep
        exact ⟨h.once, h.handle, h.drained, h.deletedTwice, h.undefined⟩
      · simp at hStep
  | enterRecycler =>
      simp only [step] at hStep
      split at hStep
      · rename_i hFree
        obtain rfl := Option.some.inj hStep
        have hOnce := h.once
        unfold State.owned at hOnce
        rw [hFree] at hOnce
        exact ⟨hOnce, by simp [Inside.releasing], h.drained, h.deletedTwice, h.undefined⟩
      · simp at hStep
  | enterRelease group =>
      simp only [step] at hStep
      split at hStep
      · rename_i entry hFree hFind
        obtain rfl := Option.some.inj hStep
        have hOnce := h.once
        unfold State.owned at hOnce
        rw [hFree] at hOnce
        have hGroup : entry.1 = group := by simpa using List.find?_some hFind
        have hMem : (group, entry.2) ∈ s.pool.held := by
          rw [← hGroup]
          exact List.mem_of_find?_eq_some hFind
        exact ⟨hOnce, by simpa [Inside.releasing] using hMem, h.drained, h.deletedTwice,
          h.undefined⟩
      · simp at hStep
  | inside new =>
      simp only [step] at hStep
      split at hStep
      · simp at hStep
      · rename_i pc hPc
        exact inv_insideStep h hPc (hMet pc hPc) hStep

/-- With nobody left who could own a connection, none is left. -/
theorem TeardownInv.exactlyOnce {s : State} (h : TeardownInv s) : s.ExactlyOnce := by
  refine ⟨h.deletedTwice, fun hDone hFree hHeld => ?_⟩
  have hQueue := h.drained hDone
  have hOnce := h.once
  simp only [State.owned, Pool.placed, hDone, hFree, hHeld, hQueue, Destructor.carried,
    Option.elim, List.map_nil, List.append_nil] at hOnce
  exact ⟨hQueue, hOnce.live_eq_nil⟩

/-- **The teardown destroys every connection exactly once**, in every run that
is undisturbed, from every pool that the constructor and the clients have left. -/
theorem teardown_exactly_once_if_undisturbed {cfg : Config} {p₀ p : Pool} {s : State}
    (hInit : Constructed cfg p₀) (hBefore : Reachable (ConnPool.step cfg) p₀ p)
    (hRun : Reach (step cfg) Undisturbed (.start p) s) :
    s.ExactlyOnce ∧ s.undefined = false := by
  have hInv : TeardownInv s :=
    hRun.invariant (teardownInv_start (placedInv_reach hInit hBefore))
      fun _ _ _ hInv hMet hStep => inv_step hInv hMet hStep
  exact ⟨hInv.exactlyOnce, hInv.undefined⟩

/-- A client holds the first connection, the producer has added a second one. -/
def oneBorrowed (cfg : Config) : Option Pool :=
  run (ConnPool.step cfg) (addConn emptyPool ⟨1, true, 0⟩)
    [.getConn 0 ⟨0, true, 0⟩ .nobody, .produce ⟨3, true, 5⟩]

/-- The threads come and go before the destructor: the client drops its handle,
the recycler deletes the older connection. -/
theorem teardown_exactly_once_if_undisturbed_lastInTheHouse :
    ∃ s : State, s.destructor = .finished ∧ s.inside = none ∧ s.pool.held = [] ∧
      s.ExactlyOnce ∧ s.undefined = false := by
  let cfg : Config := ⟨1, 4, 0⟩
  let before := oneBorrowed cfg
  have hBefore : before = some (before.get (by decide)) := by simp
  have hInit : Constructed cfg (addConn emptyPool ⟨1, true, 0⟩) := ⟨[⟨1, true, 0⟩], rfl, rfl⟩
  let inside : Action := .inside ⟨0, true, 9⟩
  let actions : List Action :=
    [.enterRelease 0, inside, inside, inside,
      .enterRecycler, inside, inside, inside, inside, inside, inside, inside,
      .destructor, .destructor, .destructor, .destructor, .destructor, .destructor]
  let final := run (guarded (step cfg) Undisturbed) (.start (before.get (by decide))) actions
  have hFinal : final = some (final.get (by decide)) := by simp
  have hRun := reach_of_run_guarded hFinal
  exact ⟨final.get (by decide), by decide, by decide, by decide,
    teardown_exactly_once_if_undisturbed hInit (reachable_of_run hBefore) hRun⟩

/-- The teardown as it is meant: no run deletes twice or leaves a connection. -/
def TeardownExactlyOnce (cfg : Config) : Prop :=
  ∀ p₀ p s, Constructed cfg p₀ → Reachable (ConnPool.step cfg) p₀ p →
    Reachable (step cfg) (.start p) s → s.ExactlyOnce

/-- A handle dropped behind the destructor's loop puts a connection into the
queue that nobody empties any more; and a recycler that reads the front behind
the destructor's `front()` deletes the same connection. -/
theorem connection_left_or_deleted_twice :
    ¬ TeardownExactlyOnce ⟨1, 4, 0⟩ ∧
      ∃ p, oneBorrowed ⟨1, 4, 0⟩ = some p ∧
        ∃ s, Reachable (step ⟨1, 4, 0⟩) (.start p) s ∧ s.deletedTwice = true := by
  let cfg : Config := ⟨1, 4, 0⟩
  let before := oneBorrowed cfg
  have hBefore : before = some (before.get (by decide)) := by simp
  let inside : Action := .inside ⟨0, true, 9⟩
  constructor
  · intro hLaw
    have hInit : Constructed cfg (addConn emptyPool ⟨1, true, 0⟩) := ⟨[⟨1, true, 0⟩], rfl, rfl⟩
    let actions : List Action :=
      [.destructor, .destructor, .destructor, .destructor, .destructor, .destructor,
        .enterRelease 0, inside, inside, inside]
    let final := run (step cfg) (.start (before.get (by decide))) actions
    have hFinal : final = some (final.get (by decide)) := by simp
    have hExact := hLaw _ _ _ hInit (reachable_of_run hBefore) (reachable_of_run hFinal)
    have hLeft : (final.get (by decide)).pool.live = [1] := by decide
    have hNone := (hExact.2 (by decide) (by decide) (by decide)).2
    rw [hLeft] at hNone
    simp at hNone
  · let actions : List Action :=
      [.enterRelease 0, inside, inside, inside, .destructor, .destructor, .destructor,
        .enterRecycler, inside, inside, inside, inside, inside, .destructor, .destructor]
    have hTwice : (run (step cfg) (.start (before.get (by decide))) actions).map
        State.deletedTwice = some true := by decide
    exact ⟨_, hBefore, exists_reachable_of_run hTwice⟩

end Teardown
end ConnPool
end LinuxCppLearn
