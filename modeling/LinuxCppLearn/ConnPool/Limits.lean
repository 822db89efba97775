import Mathlib.Data.Fintype.EquivFin
import LinuxCppLearn.ConnPool.Moves

/-!
# The number of live connections

`getConn` and the producer decide by the length of the idle queue, not by the
number of connections that exist.  The lower limit holds in every run: the
recycler is the only one to delete, and it leaves `minSize` connections idle.
The producer fills the queue up to `minSize` whatever is checked out, so the
upper limit holds exactly as long as the clients leave room for that: at most
`maxSize - minSize` handles out.

* `step_total` — what a step does to the number of live connections.
* `withinLimits_step` — both limits over a step that creates nothing at
  `maxSize`.
* `withinLimits_of_few_handles` — no step does, with few handles out.
* `producer_fills` — the producer alone brings the queue to `minSize`.
* `live_count_within_limits_exactly` — the limits, and what one handle too many
  leads to.
-/

namespace LinuxCppLearn
namespace ConnPool

open StepSystem

/-- Idle connections and those held through outstanding `shared_ptr`s. -/
def Pool.total (p : Pool) : Nat :=
  p.connQ.length + p.held.length

/-- The number of live connections lies between the configured limits. -/
def WithinLimits (cfg : Config) (p : Pool) : Prop :=
  cfg.minSize ≤ p.total ∧ p.total ≤ cfg.maxSize

instance (cfg : Config) (p : Pool) : Decidable (WithinLimits cfg p) :=
  inferInstanceAs (Decidable (_ ∧ _))

/-- A step that creates a connection starts with fewer than `maxSize` alive. -/
def CreatesBelowMax (cfg : Config) (p : Pool) (a : Action) : Prop :=
  Creates cfg p a → p.total < cfg.maxSize

/-- A step keeps the number of live connections, creates one, or deletes idle
ones down to no fewer than `minSize`. -/
theorem step_total {cfg : Config} {p p' : Pool} {a : Action} (h : step cfg p a = some p') :
    p'.total = p.total ∨ (Creates cfg p a ∧ p'.total = p.total + 1) ∨
      (cfg.minSize ≤ p'.total ∧ p'.total ≤ p.total) := by
  unfold Pool.total
  cases step_move h with
  | take group conn _ _ hQueue hHeld _ =>
      left
      rw [hQueue, hHeld, List.length_cons, List.length_cons]
      omega
  | grow group conn _ hCreates _ _ hEmpty hQueue hHeld _ =>
      right; left
      refine ⟨hCreates, ?_⟩
      rw [hEmpty, hQueue, hHeld, List.length_cons, List.length_nil]
      omega
  | giveBack group conn hMem hQueue hHeld _ =>
      left
      have hErase : (p.held.erase (group, conn)).length = p.held.length - 1 :=
        List.length_erase_of_mem hMem
      have hPos : 0 < p.held.length := List.length_pos_of_mem hMem
      rw [hQueue, hHeld, hErase, List.length_append, List.length_singleton]
      omega
  | create conn hCreates _ hQueue hHeld _ =>
      right; left
      refine ⟨hCreates, ?_⟩
      rw [hQueue, hHeld, List.length_append, List.length_singleton]
      omega
  | recycle dead hQueue hEnough hHeld _ =>
      have hLength : p.connQ.length = dead.length + p'.connQ.length := by
        rw [hQueue, List.length_append]
      rw [hHeld]
      -- a pass that deletes leaves `minSize` connections idle
      by_cases hDead : dead = []
      · subst hDead
        left
        simp only [List.length_nil] at hLength
        omega
      · have hIdle := hEnough hDead
        right; right
        omega
  | stay hQueue hHeld _ =>
      left
      rw [hQueue, hHeld]

/-- Only `getConn` lengthens the list of ownership groups. -/
theorem step_held_length {cfg : Config} {p p' : Pool} {a : Action}
    (h : step cfg p a = some p') :
    p'.held.length ≤ p.held.length ∨
      (∃ group new who, a = .getConn group new who) ∧ p'.held.length = p.held.length + 1 := by
  cases step_move h with
  | take group _ hCall _ _ hHeld _ =>
      right
      obtain ⟨new, who, rfl⟩ := hCall
      exact ⟨⟨group, new, who, rfl⟩, by rw [hHeld, List.length_cons]⟩
  | grow group _ hCall _ _ _ _ _ hHeld _ =>
      right
      obtain ⟨new, who, rfl⟩ := hCall
      exact ⟨⟨group, new, who, rfl⟩, by rw [hHeld, List.length_cons]⟩
  | giveBack group conn _ _ hHeld _ =>
      left
      rw [hHeld]
      exact List.length_erase_le
  | create _ _ _ _ hHeld _ => exact .inl (Nat.le_of_eq (congrArg List.length hHeld))
  | recycle _ _ _ hHeld _ => exact .inl (Nat.le_of_eq (congrArg List.length hHeld))
  | stay _ hHeld _ => exact .inl (Nat.le_of_eq (congrArg List.length hHeld))

/-- The constructor leaves `minSize` connections. -/
theorem total_of_constructed {cfg : Config} {p : Pool} (h : Constructed cfg p) :
    p.total = cfg.minSize := by
  obtain ⟨cs, hLength, hFill⟩ := h
  obtain ⟨hQueue, hHeld⟩ := fill_connQ hFill
  simp [Pool.total, hQueue, hHeld, emptyPool, hLength]

/-- **One step keeps the limits**, if it creates nothing at `maxSize`. -/
theorem withinLimits_step {cfg : Config} {p p' : Pool} {a : Action}
    (hWithin : WithinLimits cfg p) (hBelow : CreatesBelowMax cfg p a)
    (h : step cfg p a = some p') : WithinLimits cfg p' := by
  obtain ⟨hLow, hHigh⟩ := hWithin
  rcases step_total h with hSame | ⟨hCreates, hMore⟩ | ⟨hEnough, hLess⟩
  · exact ⟨by omega, by omega⟩
  · have hRoom := hBelow hCreates
    exact ⟨by omega, by omega⟩
  · exact ⟨by omega, by omega⟩

/-- The lower limit needs no condition. -/
theorem minSize_le_total {cfg : Config} {p₀ p : Pool} (hInit : Constructed cfg p₀)
    (h : Reachable (step cfg) p₀ p) : cfg.minSize ≤ p.total := by
  refine h.invariant (P := fun p => cfg.minSize ≤ p.total)
    (Nat.le_of_eq (total_of_constructed hInit).symm) ?_
  intro p a p' hLow _ hStep
  rcases step_total hStep with hSame | ⟨_, hMore⟩ | ⟨hEnough, _⟩ <;> omega

/-- A client asks for a connection only while fewer than `maxSize - minSize`
handles are out. -/
def FewHandles (cfg : Config) (p : Pool) : Action → Prop
  | .getConn .. => p.held.length + cfg.minSize < cfg.maxSize
  | _ => True

instance (cfg : Config) (p : Pool) (a : Action) : Decidable (FewHandles cfg p a) := by
  induction a using Action.casesOn <;> unfold FewHandles <;> infer_instance

/-- With few handles out, neither the producer nor `getConn` ever creates a
connection beyond `maxSize`. -/
theorem withinLimits_of_few_handles {cfg : Config} {p₀ p : Pool}
    (hSizes : cfg.minSize ≤ cfg.maxSize) (hInit : Constructed cfg p₀)
    (h : Reach (step cfg) (FewHandles cfg) p₀ p) : WithinLimits cfg p := by
  suffices hInv : WithinLimits cfg p ∧ p.held.length + cfg.minSize ≤ cfg.maxSize from hInv.1
  refine h.invariant
    (P := fun p => WithinLimits cfg p ∧ p.held.length + cfg.minSize ≤ cfg.maxSize) ⟨?_, ?_⟩ ?_
  · have hTotal := total_of_constructed hInit
    exact ⟨by omega, by omega⟩
  · obtain ⟨cs, _, hFill⟩ := hInit
    rw [(fill_connQ hFill).2]
    simpa [emptyPool] using hSizes
  · rintro p a p' ⟨hWithin, hFew⟩ hMet hStep
    have hBelow : CreatesBelowMax cfg p a := by
      intro hCreates
      cases a with
      | getConn group new who =>
          -- an empty queue: every connection alive is held
          have hEmpty : p.connQ = [] := hCreates
          have hRoom : p.held.length + cfg.minSize < cfg.maxSize := hMet
          simp only [Pool.total, hEmpty, List.length_nil]
          omega
      | produce new =>
          -- fewer than `minSize` are idle, and the handles leave room for that many
          have hShort : p.connQ.length < cfg.minSize := hCreates
          simp only [Pool.total]
          omega
      | _ => exact absurd hCreates id
    refine ⟨withinLimits_step hWithin hBelow hStep, ?_⟩
    rcases step_held_length hStep with hLe | ⟨⟨group, new, who, rfl⟩, hMore⟩
    · omega
    · have hRoom : p.held.length + cfg.minSize < cfg.maxSize := hMet
      omega

/-! ## One handle too many -/

/-- A client that gets through `getConn` has a handle. -/
theorem getConn_held_length {cfg : Config} {p p' : Pool} {group : Nat} {new : NewConn}
    {who : Notified} (h : step cfg p (.getConn group new who) = some p') :
    p'.held.length = p.held.length + 1 := by
  cases step_section h with
  | getConn _ _ _ hRun =>
      unfold getConn at hRun
      split at hRun
      · split at hRun
        · obtain ⟨conn, -, hHeld, -⟩ := handOut_eq_some hRun
          rw [hHeld, List.length_cons]
          rfl
        · simp at hRun
      · obtain ⟨conn, -, hHeld, -⟩ := handOut_eq_some hRun
        rw [hHeld, List.length_cons]

/-- `new` finds an address. -/
theorem exists_fresh (p : Pool) : ∃ new : NewConn, new.Fresh p := by
  obtain ⟨ptr, hNew⟩ := Infinite.exists_notMem_finset p.live.toFinset
  exact ⟨⟨ptr, true, p.clock⟩, by simpa using hNew, Nat.le_refl _⟩

/-- The producer adds a connection to a short queue, woken up if it waits. -/
theorem producer_adds {cfg : Config} {p : Pool} (hShort : p.connQ.length < cfg.minSize) :
    ∃ p', Reachable (step cfg) p p' ∧ p'.connQ.length = p.connQ.length + 1 ∧
      p'.held = p.held := by
  -- awake, with everything else as it is
  let awake : Pool := { p with producerWaits := false }
  obtain ⟨new, hFresh⟩ := exists_fresh awake
  have hAdd : step cfg awake (.produce new) = some (notifyAll (addConn awake new)) := by
    have hRuns : produceConn cfg awake new = notifyAll (addConn awake new) :=
      if_neg (Nat.not_le_of_lt hShort)
    rw [← hRuns]
    exact if_pos ⟨rfl, fun _ => hFresh⟩
  have hAwake : Reachable (step cfg) p awake := by
    cases hWaits : p.producerWaits with
    | true => exact .next .producerWake .start trivial (if_pos hWaits)
    | false =>
        have hSame : awake = p := by
          simp only [awake, ← hWaits]
        rw [hSame]
        exact .start
  exact ⟨_, .next (.produce new) hAwake trivial hAdd, List.length_append, rfl⟩

/-- **The producer fills the queue**, whatever is checked out. -/
theorem producer_fills (cfg : Config) (p : Pool) :
    ∃ p', Reachable (step cfg) p p' ∧ cfg.minSize ≤ p'.connQ.length ∧ p'.held = p.held := by
  induction hMissing : cfg.minSize - p.connQ.length generalizing p with
  | zero => exact ⟨p, .start, Nat.le_of_sub_eq_zero hMissing, rfl⟩
  | succ k ih =>
      have hShort : p.connQ.length < cfg.minSize := by omega
      obtain ⟨q, hFirst, hLength, hHeld⟩ := producer_adds hShort
      obtain ⟨p', hRest, hEnough, hSame⟩ := ih q (by omega)
      exact ⟨p', hFirst.trans hRest, hEnough, hSame.trans hHeld⟩

/-- **The limits and their exact condition.**  In a run in which the clients
never have more than `maxSize - minSize` handles out, the number of live
connections stays within the limits.  The first handle beyond that leads out of
them: the producer has only to go on. -/
theorem live_count_within_limits_exactly {cfg : Config} {p₀ : Pool}
    (hSizes : cfg.minSize ≤ cfg.maxSize) (hInit : Constructed cfg p₀) :
    (∀ p, Reach (step cfg) (FewHandles cfg) p₀ p → WithinLimits cfg p) ∧
      ∀ p a p', Reach (step cfg) (FewHandles cfg) p₀ p → ¬ FewHandles cfg p a →
        step cfg p a = some p' →
        ∃ p'', Reachable (step cfg) p' p'' ∧ ¬ WithinLimits cfg p'' := by
  constructor
  · intro p hReach
    exact withinLimits_of_few_handles hSizes hInit hReach
  · intro p a p' _ hMany hStep
    cases a with
    | getConn group new who =>
        have hFull : ¬ p.held.length + cfg.minSize < cfg.maxSize := hMany
        have hMore := getConn_held_length hStep
        obtain ⟨p'', hReach, hEnough, hHeld⟩ := producer_fills cfg p'
        refine ⟨p'', hReach, fun hWithin => ?_⟩
        have hHigh : p''.connQ.length + p''.held.length ≤ cfg.maxSize := hWithin.2
        rw [hHeld] at hHigh
        omega
    | _ => exact absurd trivial hMany

/-- One idle connection at the start, at most two alive. -/
def smallConfig : Config where
  minSize := 1
  maxSize := 2
  maxIdleTime := 0

/-- The pool of `smallConfig` behind its constructor. -/
def smallPool : Pool := addConn emptyPool ⟨1, true, 0⟩

theorem smallPool_constructed : Constructed smallConfig smallPool :=
  ⟨[⟨1, true, 0⟩], rfl, rfl⟩

/-- A client takes the idle connection and the producer makes the second one. -/
theorem live_count_within_limits_exactly_smallConfig :
    ∃ p, p.connQ = [2] ∧ p.held = [(0, 1)] ∧ WithinLimits smallConfig p := by
  let actions : List Action := [.getConn 0 ⟨0, true, 0⟩ .nobody, .produce ⟨2, true, 0⟩]
  let final := run (guarded (step smallConfig) (FewHandles smallConfig)) smallPool actions
  have hFinal : final = some (final.get (by decide)) := by simp
  have hReach : Reach (step smallConfig) (FewHandles smallConfig) smallPool
      (final.get (by decide)) := reach_of_run_guarded hFinal
  exact ⟨_, by decide, by decide,
    (live_count_within_limits_exactly (by decide) smallPool_constructed).1 _ hReach⟩

/-- With `minSize = maxSize = 1`, a second client gets a second connection. -/
theorem live_count_exceeds_maxSize :
    ∃ cfg p₀ p, 1 ≤ cfg.minSize ∧ cfg.minSize ≤ cfg.maxSize ∧ Constructed cfg p₀ ∧
      Reachable (step cfg) p₀ p ∧ ¬ WithinLimits cfg p := by
  let cfg : Config := ⟨1, 1, 0⟩
  have hInit : Constructed cfg smallPool := ⟨[⟨1, true, 0⟩], rfl, rfl⟩
  have hRun : (run (step cfg) smallPool
      [.getConn 0 ⟨0, true, 0⟩ .nobody, .getConn 1 ⟨2, true, 0⟩ .nobody]).map
        (fun p => decide (¬ WithinLimits cfg p)) = some true := by decide
  obtain ⟨p, hReach, hTest⟩ := exists_reachable_of_run hRun
  exact ⟨cfg, smallPool, p, by decide, by decide, hInit, hReach, of_decide_eq_true hTest⟩

end ConnPool
end LinuxCppLearn
