import Mathlib.Order.Nat
import LinuxCppLearn.Library.TimedQueue
import LinuxCppLearn.ConnPool.Placement

/-!
# The recycler may stop at the first young connection

`recycleConn` looks at the front of `m_connQ` and leaves the loop when that
connection has not been idle for `m_maxIdleTime`.  It misses none, since the
queue is in the order of `m_aliveTime`: a connection is stamped where it is
pushed, under `m_mutexQ`, and never while it is queued.
-/

namespace LinuxCppLearn
namespace ConnPool

open StepSystem TimedQueue

/-- The queue is in the order of `m_aliveTime`, and no stamp lies in the future. -/
abbrev Pool.InOrder (p : Pool) : Prop :=
  TimedQueue.InOrder p.aliveTime p.clock p.connQ

/-- `conn` has been idle for `m_maxIdleTime` at `now`, to the nanosecond. -/
def IdleLong (cfg : Config) (p : Pool) (conn : Ptr) (now : Time) : Prop :=
  cfg.maxIdleTime * 1000000 ≤ (now : Int) - p.aliveTime conn

/-- A pass of the recycler from `p` to `p'`, with the readings of the clock that
it takes. -/
structure RecyclesExactly (cfg : Config) (readings : List Time) (p p' : Pool) : Prop where
  /-- what is deleted has been idle for long when the recycler looks at it -/
  deleted : ∃ dead : List (Ptr × Time), p.connQ = dead.map Prod.fst ++ p'.connQ ∧
    p'.live = p.live.filter (· ∉ dead.map Prod.fst) ∧ dead.map Prod.snd <+: readings ∧
      ∀ entry ∈ dead, IdleLong cfg p entry.1 entry.2
  /-- the queue is not taken below `minSize` -/
  enough : min cfg.minSize p.connQ.length ≤ p'.connQ.length
  /-- at the last reading nothing is left to delete -/
  complete : p'.connQ.length ≤ cfg.minSize ∨
    ∃ now, readings.getLast? = some now ∧ ∀ conn ∈ p'.connQ, ¬ IdleLong cfg p' conn now

section Steps

variable {cfg : Config} {p p' : Pool}

/-- What a step does to the queue and to the stamps. -/
inductive Restamp (p p' : Pool) : Prop
  /-- connections leave at the front -/
  | leave (hQueue : p'.connQ <:+ p.connQ) (hAlive : p'.aliveTime = p.aliveTime)
      (hClock : p.clock ≤ p'.clock)
  /-- a connection is stamped and joins at the back; `getConn` takes it at once -/
  | join (conn : Ptr) (hOut : conn ∉ p.connQ) (hQueue : p'.connQ <:+ p.connQ ++ [conn])
      (hAlive : p'.aliveTime = Function.update p.aliveTime conn p'.clock)
      (hClock : p.clock ≤ p'.clock)

theorem Pool.InOrder.restamp (h : p.InOrder) (hStamp : Restamp p p') : p'.InOrder := by
  cases hStamp with
  | leave hQueue hAlive hClock =>
      unfold Pool.InOrder
      rw [hAlive]
      exact h.leave hQueue hClock
  | join conn hOut hQueue hAlive hClock =>
      unfold Pool.InOrder
      rw [hAlive]
      exact (h.join hOut hClock).leave hQueue le_rfl

/-- More connections leave at the front. -/
theorem Restamp.then_leave {q : Pool} (h : Restamp p q) (hQueue : p'.connQ <:+ q.connQ)
    (hAlive : p'.aliveTime = q.aliveTime) (hClock : p'.clock = q.clock) : Restamp p p' := by
  cases h with
  | leave hQueue' hAlive' hClock' =>
      exact .leave (hQueue.trans hQueue') (hAlive.trans hAlive') (hClock'.trans hClock.ge)
  | join conn hOut hQueue' hAlive' hClock' =>
      refine .join conn hOut (hQueue.trans hQueue') ?_ (hClock'.trans hClock.ge)
      rw [hAlive, hAlive', hClock]

theorem addConn_restamp {c : NewConn} (hPlaced : PlacedInv p) (hFresh : c.Fresh p) :
    Restamp p (addConn p c) := by
  refine .join c.ptr (fun hMem => ?_) (List.suffix_refl _) rfl hFresh.2
  exact hFresh.1 ((hPlaced.live_iff _).mpr (List.mem_append_left _ hMem))

theorem getConn_restamp {group : Nat} {new : NewConn} {who : Notified} (hPlaced : PlacedInv p)
    (hFresh : p.connQ = [] → new.Fresh p) (h : getConn cfg p group new who = some p') :
    Restamp p p' := by
  unfold getConn at h
  split at h
  · rename_i hEmpty
    rw [List.isEmpty_iff] at hEmpty
    split at h
    · obtain ⟨conn, hQueue : _ = [conn] ++ p'.connQ, -⟩ := handOut_eq_some h
      obtain ⟨-, hAlive, hClock⟩ := handOut_keeps h
      exact (addConn_restamp hPlaced (hFresh hEmpty)).then_leave ⟨_, hQueue.symm⟩ hAlive hClock
    · simp at h
  · obtain ⟨conn, hQueue : _ = [conn] ++ p'.connQ, -⟩ := handOut_eq_some h
    obtain ⟨-, hAlive, hClock⟩ := handOut_keeps h
    exact .leave ⟨_, hQueue.symm⟩ hAlive hClock.ge

theorem release_restamp {group : Nat} {now : Time} (hPlaced : PlacedInv p)
    (hClock : p.clock ≤ now) (h : release p group now = some p') : Restamp p p' := by
  unfold release at h
  split at h
  · simp at h
  · rename_i entry hFind
    obtain rfl := Option.some.inj h
    have hHeld : (entry.1, entry.2) ∈ p.held := List.mem_of_find?_eq_some hFind
    exact .join entry.2 (fun hIdle => hPlaced.connQ_disjoint_held hIdle hHeld)
      (List.suffix_refl _) rfl hClock

theorem produceConn_restamp {new : NewConn} (hPlaced : PlacedInv p)
    (hFresh : p.connQ.length < cfg.minSize → new.Fresh p) :
    Restamp p (produceConn cfg p new) := by
  unfold produceConn
  split
  · exact .leave (List.suffix_refl _) rfl le_rfl
  · rename_i hShort
    have hAdd := addConn_restamp hPlaced (hFresh (Nat.lt_of_not_le hShort))
    exact hAdd.then_leave (List.suffix_refl _) rfl rfl

theorem step_restamp {a : Action} (hPlaced : PlacedInv p) (h : step cfg p a = some p') :
    Restamp p p' := by
  cases step_section h with
  | getConn _ _ hFresh hRun => exact getConn_restamp hPlaced hFresh hRun
  | getConnWait | clientWake | producerWake => exact .leave (List.suffix_refl _) rfl le_rfl
  | release hClock hRun => exact release_restamp hPlaced hClock hRun
  | produce _ hFresh => exact produceConn_restamp hPlaced hFresh
  | recycle hRun =>
      obtain ⟨dead, hQueue, -⟩ := recycleLoop_prefix hRun
      obtain ⟨-, hAlive, -, -, hClock⟩ := recycleLoop_keeps hRun
      exact .leave ⟨dead, hQueue.symm⟩ hAlive hClock

theorem inOrder_fill {cs : List NewConn} (hPlaced : PlacedInv p) (h : p.InOrder)
    (hFill : fill cs p = some p') : p'.InOrder := by
  induction cs generalizing p with
  | nil =>
      obtain rfl := Option.some.inj hFill
      exact h
  | cons c cs ih =>
      have hOne : c.Fresh p := by
        by_contra hStale
        simp [fill, hStale] at hFill
      rw [fill, if_pos hOne] at hFill
      have hFirst : fill [c] p = some (addConn p c) := by simp [fill, hOne]
      exact ih (placedInv_fill hPlaced hFirst) (h.restamp (addConn_restamp hPlaced hOne)) hFill

theorem inOrder_reach {p₀ : Pool} (hInit : Constructed cfg p₀)
    (h : Reachable (step cfg) p₀ p) : p.InOrder := by
  refine (h.invariant (P := fun p => PlacedInv p ∧ p.InOrder) ?_ ?_).2
  · obtain ⟨cs, -, hFill⟩ := hInit
    exact ⟨placedInv_fill placedInv_emptyPool hFill,
      inOrder_fill placedInv_emptyPool (.nil _ _) hFill⟩
  · rintro p a p' ⟨hPlaced, hOrder⟩ - hStep
    exact ⟨placedInv_step hPlaced hStep, hOrder.restamp (step_restamp hPlaced hStep)⟩

/-! ## A pass of the recycler -/

/-- The truncation to milliseconds is harmless for a stamp of the past. -/
theorem le_getAliveTime_iff {conn : Ptr} {now : Time} (hPast : p.aliveTime conn ≤ now) :
    cfg.maxIdleTime ≤ getAliveTime p conn now ↔ IdleLong cfg p conn now := by
  have hNonneg : 0 ≤ (now : Int) - p.aliveTime conn :=
    Int.sub_nonneg_of_le (Int.ofNat_le.mpr hPast)
  unfold getAliveTime IdleLong
  rw [Int.tdiv_eq_ediv_of_nonneg hNonneg]
  exact Int.le_ediv_iff_mul_le (by decide)

/-- Nothing in the queue is older than the front. -/
theorem Pool.InOrder.none_idle {conn : Ptr} {rest : List Ptr} {now : Time} (h : p.InOrder)
    (hQueue : p.connQ = conn :: rest) (hYoung : ¬ IdleLong cfg p conn now) :
    ∀ other ∈ p.connQ, ¬ IdleLong cfg p other now := by
  unfold Pool.InOrder at h
  rw [hQueue] at h ⊢
  intro other hMem hLong
  have hOldest := h.front_oldest other hMem
  exact hYoung (Int.le_trans hLong (Int.sub_le_sub_left (Int.ofNat_le.mpr hOldest) _))

/-- The front connection is deleted; the rest of the pass starts later. -/
theorem RecyclesExactly.delete {conn : Ptr} {rest : List Ptr} {now : Time}
    {readings : List Time} (hQueue : p.connQ = conn :: rest)
    (hMore : cfg.minSize < p.connQ.length) (hLong : IdleLong cfg p conn now)
    (h : RecyclesExactly cfg readings
      { p with connQ := rest, live := p.live.filter (· ≠ conn), clock := now } p') :
    RecyclesExactly cfg (now :: readings) p p' := by
  obtain ⟨dead, hDead, hLive, hReadings, hOld⟩ := h.deleted
  refine ⟨⟨(conn, now) :: dead, ?_, ?_, ?_, ?_⟩, ?_, ?_⟩
  · rw [hQueue, List.map_cons, List.cons_append]
    exact congrArg (conn :: ·) hDead
  · rw [hLive, List.filter_filter]
    congr 1
    funext c
    by_cases hEq : c = conn <;> simp [hEq]
  · exact List.cons_prefix_cons.mpr ⟨rfl, hReadings⟩
  · intro entry hMem
    rcases List.mem_cons.mp hMem with rfl | hTail
    · exact hLong
    · exact hOld entry hTail
  · have hEnough : min cfg.minSize rest.length ≤ p'.connQ.length := h.enough
    rw [hQueue, List.length_cons] at hMore ⊢
    omega
  · refine h.complete.imp_right ?_
    rintro ⟨last, hLast, hNone⟩
    refine ⟨last, ?_, hNone⟩
    rw [List.getLast?_cons, hLast, Option.getD_some]

/-- Nothing is deleted. -/
theorem RecyclesExactly.keep {readings : List Time} {clock : Time}
    (hComplete : p.connQ.length ≤ cfg.minSize ∨
      ∃ now, readings.getLast? = some now ∧ ∀ conn ∈ p.connQ, ¬ IdleLong cfg p conn now) :
    RecyclesExactly cfg readings p { p with clock := clock } :=
  ⟨⟨[], by simp⟩, Nat.min_le_right .., hComplete⟩

theorem recycleLoop_exactly {readings : List Time} (hOrder : p.InOrder)
    (h : recycleLoop cfg readings p = some p') : RecyclesExactly cfg readings p p' := by
  induction readings generalizing p with
  | nil =>
      simp only [recycleLoop] at h
      split at h
      · simp at h
      · rename_i hFew
        obtain rfl := Option.some.inj h
        exact .keep (.inl (Nat.le_of_not_lt hFew))
  | cons now readings ih =>
      simp only [recycleLoop] at h
      split at h
      · rename_i hMore
        split at h
        · simp at h
        · rename_i conn rest hQueue
          have hPast : p.aliveTime conn ≤ now :=
            (hOrder.past conn (hQueue ▸ List.mem_cons_self)).trans hMore.2
          split at h
          · rename_i hOld
            have hOrder' : TimedQueue.InOrder p.aliveTime now rest :=
              hOrder.leave ⟨[conn], hQueue.symm⟩ hMore.2
            exact .delete hQueue hMore.1 ((le_getAliveTime_iff hPast).mp hOld) (ih hOrder' h)
          · rename_i hYoung
            split at h
            · rename_i hLast
              rw [List.isEmpty_iff] at hLast
              obtain rfl := Option.some.inj h
              refine .keep (.inr ⟨now, by simp [hLast], ?_⟩)
              exact hOrder.none_idle hQueue (mt (le_getAliveTime_iff hPast).mpr hYoung)
            · simp at h
      · simp at h

end Steps

/-- **The recycler misses nothing**: the queue is in the order of `m_aliveTime` in
every state, so that a pass deletes only what has been idle for `m_maxIdleTime`,
keeps `minSize` connections, and leaves more only if none has been. -/
theorem early_exit_misses_nothing {cfg : Config} {p₀ p : Pool} (hInit : Constructed cfg p₀)
    (hReach : Reachable (step cfg) p₀ p) :
    p.InOrder ∧ ∀ readings p', step cfg p (.recycle readings) = some p' →
      RecyclesExactly cfg readings p p' := by
  have hOrder := inOrder_reach hInit hReach
  exact ⟨hOrder, fun readings p' hStep => recycleLoop_exactly hOrder hStep⟩

/-- Of four connections, one of them used in between, a pass deletes two. -/
theorem early_exit_misses_nothing_two_deleted :
    ∃ p p' : Pool, p.connQ = [2, 3, 4, 1] ∧ p'.connQ = [4, 1] ∧
      RecyclesExactly ⟨1, 4, 1⟩ [1000010, 1000025, 1000030] p p' := by
  let cfg : Config := ⟨1, 4, 1⟩
  let p₀ : Pool := addConn emptyPool ⟨1, true, 0⟩
  have hInit : Constructed cfg p₀ := ⟨[⟨1, true, 0⟩], rfl, rfl⟩
  let actions : List Action :=
    [.getConn 0 ⟨0, true, 0⟩ .nobody, .getConn 1 ⟨2, true, 5⟩ .nobody,
      .getConn 2 ⟨3, true, 6⟩ .nobody, .getConn 3 ⟨4, true, 7⟩ .nobody,
      .release 1 10, .release 2 20, .release 3 40, .release 0 50]
  let before := run (step cfg) p₀ actions
  have hBefore : before = some (before.get (by decide)) := by simp
  have hReach : Reachable (step cfg) p₀ (before.get (by decide)) := reachable_of_run hBefore
  let after := step cfg (before.get (by decide)) (.recycle [1000010, 1000025, 1000030])
  have hAfter : after = some (after.get (by decide)) := by simp
  exact ⟨_, _, by decide, by decide, (early_exit_misses_nothing hInit hReach).2 _ _ hAfter⟩

end ConnPool
end LinuxCppLearn
