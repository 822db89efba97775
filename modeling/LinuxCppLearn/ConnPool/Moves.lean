import Mathlib.Tactic.Common
import LinuxCppLearn.ConnPool.Model

/-!
# What a step of the pool moves

The three collections the laws are about are the idle queue, the ownership
groups and the set of existing connections.  `Move` lists everything a step
can do to them, and `step_move` proves the list complete; the invariants are
derived from it and never look at the code again.
-/

namespace LinuxCppLearn
namespace ConnPool

/-- The action creates a connection in this state. -/
def Creates (cfg : Config) (p : Pool) : Action → Prop
  | .getConn .. => p.connQ = []
  | .produce _ => p.connQ.length < cfg.minSize
  | _ => False

/-- The effect of a step on idle, held and existing connections. -/
inductive Move (cfg : Config) (p : Pool) (a : Action) (p' : Pool) : Prop
  /-- `getConn` takes the front connection -/
  | take (group : Nat) (conn : Ptr)
      (hCall : ∃ new who, a = .getConn group new who)
      (hGroup : group ∉ p.held.map Prod.fst)
      (hQueue : p.connQ = conn :: p'.connQ)
      (hHeld : p'.held = (group, conn) :: p.held)
      (hLive : p'.live = p.live)
  /-- `getConn` creates a connection and takes it at once -/
  | grow (group : Nat) (conn : Ptr)
      (hCall : ∃ new who, a = .getConn group new who)
      (hCreates : Creates cfg p a)
      (hGroup : group ∉ p.held.map Prod.fst)
      (hNew : conn ∉ p.live)
      (hEmpty : p.connQ = [])
      (hQueue : p'.connQ = [])
      (hHeld : p'.held = (group, conn) :: p.held)
      (hLive : p'.live = conn :: p.live)
  /-- the deleter puts a connection back -/
  | giveBack (group : Nat) (conn : Ptr)
      (hMem : (group, conn) ∈ p.held)
      (hQueue : p'.connQ = p.connQ ++ [conn])
      (hHeld : p'.held = p.held.erase (group, conn))
      (hLive : p'.live = p.live)
  /-- the producer adds a connection -/
  | create (conn : Ptr)
      (hCreates : Creates cfg p a)
      (hNew : conn ∉ p.live)
      (hQueue : p'.connQ = p.connQ ++ [conn])
      (hHeld : p'.held = p.held)
      (hLive : p'.live = conn :: p.live)
  /-- the recycler deletes a prefix of the queue -/
  | recycle (dead : List Ptr)
      (hQueue : p.connQ = dead ++ p'.connQ)
      (hEnough : dead ≠ [] → cfg.minSize ≤ p'.connQ.length)
      (hHeld : p'.held = p.held)
      (hLive : p'.live = p.live.filter (· ∉ dead))
  | stay
      (hQueue : p'.connQ = p.connQ)
      (hHeld : p'.held = p.held)
      (hLive : p'.live = p.live)

@[simp] theorem notifyOne_connQ (p : Pool) (who : Notified) :
    (notifyOne p who).connQ = p.connQ := by
  cases who <;> rfl

@[simp] theorem notifyOne_held (p : Pool) (who : Notified) :
    (notifyOne p who).held = p.held := by
  cases who <;> rfl

@[simp] theorem notifyOne_live (p : Pool) (who : Notified) :
    (notifyOne p who).live = p.live := by
  cases who <;> rfl

@[simp] theorem notifyOne_aliveTime (p : Pool) (who : Notified) :
    (notifyOne p who).aliveTime = p.aliveTime := by
  cases who <;> rfl

@[simp] theorem notifyOne_clock (p : Pool) (who : Notified) :
    (notifyOne p who).clock = p.clock := by
  cases who <;> rfl

@[simp] theorem notifyOne_connected (p : Pool) (who : Notified) :
    (notifyOne p who).connected = p.connected := by
  cases who <;> rfl

/-- The critical section or the wake-up that a step is, with what enables it. -/
inductive Section (cfg : Config) (p : Pool) : Action → Pool → Prop
  | getConn {group : Nat} {new : NewConn} {who : Notified} {p' : Pool}
      (hGroup : group ∉ p.held.map Prod.fst) (hWho : who.Possible p)
      (hFresh : p.connQ = [] → new.Fresh p) (hRun : getConn cfg p group new who = some p') :
      Section cfg p (.getConn group new who) p'
  | getConnWait (hEmpty : p.connQ = []) (hFull : cfg.maxSize < p.connQ.length + 1) :
      Section cfg p .getConnWait { p with clientWaits := p.clientWaits + 1 }
  | clientWake (hWaits : 0 < p.clientWaits) :
      Section cfg p .clientWake { p with clientWaits := p.clientWaits - 1 }
  | release {group : Nat} {now : Time} {p' : Pool} (hClock : p.clock ≤ now)
      (hRun : release p group now = some p') : Section cfg p (.release group now) p'
  | produce {new : NewConn} (hAwake : p.producerWaits = false)
      (hFresh : p.connQ.length < cfg.minSize → new.Fresh p) :
      Section cfg p (.produce new) (produceConn cfg p new)
  | producerWake (hWaits : p.producerWaits = true) :
      Section cfg p .producerWake { p with producerWaits := false }
  | recycle {readings : List Time} {p' : Pool} (hRun : recycleLoop cfg readings p = some p') :
      Section cfg p (.recycle readings) p'

theorem step_section {cfg : Config} {p p' : Pool} {a : Action} (h : step cfg p a = some p') :
    Section cfg p a p' := by
  cases a with
  | recycle readings => exact .recycle h
  | getConn group new who =>
      simp only [step] at h
      split at h
      · rename_i hEnabled
        exact .getConn hEnabled.1 hEnabled.2.1 hEnabled.2.2 h
      · simp at h
  | getConnWait =>
      simp only [step] at h
      split at h
      · rename_i hEnabled
        obtain rfl := Option.some.inj h
        exact .getConnWait hEnabled.1 hEnabled.2
      · simp at h
  | clientWake =>
      simp only [step] at h
      split at h
      · rename_i hWaits
        obtain rfl := Option.some.inj h
        exact .clientWake hWaits
      · simp at h
  | release group now =>
      simp only [step] at h
      split at h
      · rename_i hClock
        exact .release hClock h
      · simp at h
  | produce new =>
      simp only [step] at h
      split at h
      · rename_i hEnabled
        obtain rfl := Option.some.inj h
        exact .produce hEnabled.1 hEnabled.2
      · simp at h
  | producerWake =>
      simp only [step] at h
      split at h
      · rename_i hWaits
        obtain rfl := Option.some.inj h
        exact .producerWake hWaits
      · simp at h

/-- The end of `getConn` moves the front connection into a new group. -/
theorem handOut_eq_some {p p' : Pool} {group : Nat} {who : Notified}
    (h : handOut p group who = some p') :
    ∃ conn, p.connQ = conn :: p'.connQ ∧ p'.held = (group, conn) :: p.held ∧
      p'.live = p.live := by
  unfold handOut at h
  split at h
  · simp at h
  · rename_i conn rest hQueue
    obtain rfl := Option.some.inj h
    exact ⟨conn, by simp [hQueue], by simp, by simp⟩

/-- The results of `connect`, the stamps and the clock stay. -/
theorem handOut_keeps {p p' : Pool} {group : Nat} {who : Notified}
    (h : handOut p group who = some p') :
    p'.connected = p.connected ∧ p'.aliveTime = p.aliveTime ∧ p'.clock = p.clock := by
  unfold handOut at h
  split at h
  · simp at h
  · obtain rfl := Option.some.inj h
    simp

theorem getConn_move {cfg : Config} {p p' : Pool} {group : Nat} {new : NewConn}
    {who : Notified} (hGroup : group ∉ p.held.map Prod.fst)
    (hFresh : p.connQ = [] → new.Fresh p) (h : getConn cfg p group new who = some p') :
    Move cfg p (.getConn group new who) p' := by
  unfold getConn at h
  split at h
  · rename_i hEmpty
    rw [List.isEmpty_iff] at hEmpty
    split at h
    · obtain ⟨conn, hQueue, hHeld, hLive⟩ := handOut_eq_some h
      -- the queue holds just the connection made in this call
      have hSingle : new.ptr = conn ∧ [] = p'.connQ := by
        simpa [addConn, hEmpty] using hQueue
      obtain ⟨rfl, hQueue'⟩ := hSingle
      exact .grow group new.ptr ⟨new, who, rfl⟩ hEmpty hGroup (hFresh hEmpty).1 hEmpty
        hQueue'.symm hHeld hLive
    · simp at h
  · obtain ⟨conn, hQueue, hHeld, hLive⟩ := handOut_eq_some h
    exact .take group conn ⟨new, who, rfl⟩ hGroup hQueue hHeld hLive

theorem release_move {cfg : Config} {p p' : Pool} {group : Nat} {now : Time}
    (h : release p group now = some p') : Move cfg p (.release group now) p' := by
  unfold release at h
  split at h
  · simp at h
  · rename_i entry hFind
    obtain rfl := Option.some.inj h
    exact .giveBack entry.1 entry.2 (List.mem_of_find?_eq_some hFind) rfl rfl rfl

theorem produceConn_move {cfg : Config} {p : Pool} {new : NewConn}
    (hFresh : p.connQ.length < cfg.minSize → new.Fresh p) :
    Move cfg p (.produce new) (produceConn cfg p new) := by
  unfold produceConn
  split
  · exact .stay rfl rfl rfl
  · rename_i hShort
    have hShort' : p.connQ.length < cfg.minSize := Nat.lt_of_not_le hShort
    exact .create new.ptr hShort' (hFresh hShort').1 rfl rfl rfl

/-- A pass of the recycler deletes a prefix of the queue, and only while more
than `minSize` connections are idle. -/
theorem recycleLoop_prefix {cfg : Config} {readings : List Time} {p p' : Pool}
    (h : recycleLoop cfg readings p = some p') :
    ∃ dead, p.connQ = dead ++ p'.connQ ∧ (dead ≠ [] → cfg.minSize ≤ p'.connQ.length) ∧
      p'.held = p.held ∧ p'.live = p.live.filter (· ∉ dead) := by
  induction readings generalizing p with
  | nil =>
      simp only [recycleLoop] at h
      split at h
      · simp at h
      · obtain rfl := Option.some.inj h
        exact ⟨[], by simp⟩
  | cons now readings ih =>
      simp only [recycleLoop] at h
      split at h
      · rename_i hMore
        split at h
        · simp at h
        · rename_i conn rest hQueue
          split at h
          · obtain ⟨dead, hRest, hEnough, hHeld, hLive⟩ := ih h
            refine ⟨conn :: dead, ?_, fun _ => ?_, hHeld, ?_⟩
            · rw [hQueue, List.cons_append]
              exact congrArg (conn :: ·) hRest
            · by_cases hDead : dead = []
              · subst hDead
                have hLength := hMore.1
                rw [hQueue, List.length_cons] at hLength
                have hRest' : rest = p'.connQ := by simpa using hRest
                rw [← hRest']
                omega
              · exact hEnough hDead
            · rw [hLive, List.filter_filter]
              congr 1
              funext c
              by_cases hEq : c = conn <;> simp [hEq]
          · split at h
            · obtain rfl := Option.some.inj h
              exact ⟨[], by simp⟩
            · simp at h
      · simp at h

/-- A pass of the recycler restamps nothing and notifies nobody. -/
theorem recycleLoop_keeps {cfg : Config} {readings : List Time} {p p' : Pool}
    (h : recycleLoop cfg readings p = some p') :
    p'.connected = p.connected ∧ p'.aliveTime = p.aliveTime ∧
      p'.producerWaits = p.producerWaits ∧ p'.clientWaits = p.clientWaits ∧
      p.clock ≤ p'.clock := by
  induction readings generalizing p with
  | nil =>
      simp only [recycleLoop] at h
      split at h
      · simp at h
      · obtain rfl := Option.some.inj h
        exact ⟨rfl, rfl, rfl, rfl, Nat.le_refl _⟩
  | cons now readings ih =>
      simp only [recycleLoop] at h
      split at h
      · rename_i hMore
        split at h
        · simp at h
        · split at h
          · obtain ⟨hConnected, hAlive, hProducer, hClients, hClock⟩ := ih h
            exact ⟨hConnected, hAlive, hProducer, hClients, Nat.le_trans hMore.2 hClock⟩
          · split at h
            · obtain rfl := Option.some.inj h
              exact ⟨rfl, rfl, rfl, rfl, hMore.2⟩
            · simp at h
      · simp at h

/-- **Inversion of a step**: every step of the pool is one of the moves. -/
theorem step_move {cfg : Config} {p p' : Pool} {a : Action} (h : step cfg p a = some p') :
    Move cfg p a p' := by
  cases step_section h with
  | getConn hGroup _ hFresh hRun => exact getConn_move hGroup hFresh hRun
  | getConnWait | clientWake | producerWake => exact .stay rfl rfl rfl
  | release _ hRun => exact release_move hRun
  | produce _ hFresh => exact produceConn_move hFresh
  | recycle hRun =>
      obtain ⟨dead, hQueue, hEnough, hHeld, hLive⟩ := recycleLoop_prefix hRun
      exact .recycle dead hQueue hEnough hHeld hLive

/-- The constructor's loop adds one idle connection for each answer. -/
theorem fill_connQ {cs : List NewConn} {p p' : Pool} (h : fill cs p = some p') :
    p'.connQ = p.connQ ++ cs.map NewConn.ptr ∧ p'.held = p.held := by
  induction cs generalizing p with
  | nil =>
      obtain rfl := Option.some.inj h
      simp
  | cons c cs ih =>
      simp only [fill] at h
      split at h
      · obtain ⟨hQueue, hHeld⟩ := ih h
        rw [hQueue, hHeld]
        simp [addConn]
      · simp at h

end ConnPool
end LinuxCppLearn
