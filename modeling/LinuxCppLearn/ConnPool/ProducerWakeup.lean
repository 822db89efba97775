import LinuxCppLearn.ConnPool.Moves

/-!
# The producer is woken

`m_cond` is shared by the clients and the producer, and `notify_one` at the end
of `getConn` may pick any waiter.  A client waits only if
`m_connQ.size() + 1 <= m_maxSize` fails for the empty queue, which `1 ≤ maxSize`
rules out; so the only waiter there can be is the producer.

* `WakeInv` — no client waits, and the producer only while `minSize`
  connections are idle.
* `wakeInv_step` — who can take a connection out of the queue: `getConn`, which
  notifies, and the recycler, which leaves `minSize` of them.
-/

namespace LinuxCppLearn
namespace ConnPool

open StepSystem

variable {cfg : Config} {p p' : Pool}

structure WakeInv (cfg : Config) (p : Pool) : Prop where
  no_client : p.clientWaits = 0
  enough : p.producerWaits = true → cfg.minSize ≤ p.connQ.length

/-! ## Who waits behind a call -/

/-- With no client waiting, `notify_one` reaches the producer if it waits. -/
theorem notifyOne_wakes {who : Notified} (hWho : who.Possible p) (hClients : p.clientWaits = 0)
    {q : Pool} (hProducer : q.producerWaits = p.producerWaits)
    (hSame : q.clientWaits = p.clientWaits) :
    (notifyOne q who).producerWaits = false ∧ (notifyOne q who).clientWaits = 0 := by
  cases who with
  | producer => exact ⟨rfl, hSame.trans hClients⟩
  | client =>
      have hPos : 0 < p.clientWaits := hWho
      omega
  | nobody => exact ⟨hProducer.trans hWho.1, hSame.trans hWho.2⟩

theorem handOut_wakes {group : Nat} {who : Notified} (hWho : who.Possible p)
    (hClients : p.clientWaits = 0) {q : Pool} (hProducer : q.producerWaits = p.producerWaits)
    (hSame : q.clientWaits = p.clientWaits) (h : handOut q group who = some p') :
    p'.producerWaits = false ∧ p'.clientWaits = 0 := by
  unfold handOut at h
  split at h
  · simp at h
  · obtain rfl := Option.some.inj h
    exact notifyOne_wakes hWho hClients hProducer hSame

/-- Behind `getConn` nobody waits. -/
theorem getConn_wakes {group : Nat} {new : NewConn} {who : Notified} (hWho : who.Possible p)
    (hClients : p.clientWaits = 0) (h : getConn cfg p group new who = some p') :
    p'.producerWaits = false ∧ p'.clientWaits = 0 := by
  unfold getConn at h
  split at h
  · split at h
    · exact handOut_wakes (q := addConn p new) hWho hClients rfl rfl h
    · simp at h
  · exact handOut_wakes hWho hClients rfl rfl h

theorem release_waits {group : Nat} {now : Time} (h : release p group now = some p') :
    p'.producerWaits = p.producerWaits ∧ p'.clientWaits = p.clientWaits ∧
      p.connQ.length ≤ p'.connQ.length := by
  unfold release at h
  split at h
  · simp at h
  · obtain rfl := Option.some.inj h
    refine ⟨rfl, rfl, ?_⟩
    rw [List.length_append]
    omega

theorem fill_waits {cs : List NewConn} (h : fill cs p = some p') :
    p'.producerWaits = p.producerWaits ∧ p'.clientWaits = p.clientWaits := by
  induction cs generalizing p with
  | nil => exact Option.some.inj h ▸ ⟨rfl, rfl⟩
  | cons c cs ih =>
      simp only [fill] at h
      split at h
      · have hRest := ih h
        exact hRest
      · simp at h

/-! ## The invariant -/

theorem wakeInv_constructed (h : Constructed cfg p) : WakeInv cfg p := by
  obtain ⟨cs, -, hFill⟩ := h
  obtain ⟨hProducer, hClients⟩ := fill_waits hFill
  refine ⟨hClients, fun hWaits => ?_⟩
  rw [hProducer] at hWaits
  exact absurd hWaits (by decide)

/-- A pass of the recycler that deletes leaves `minSize` connections. -/
theorem recycle_keeps_enough {readings : List Time} (h : recycleLoop cfg readings p = some p')
    (hEnough : cfg.minSize ≤ p.connQ.length) : cfg.minSize ≤ p'.connQ.length := by
  obtain ⟨dead, hQueue, hLeft, -, -⟩ := recycleLoop_prefix h
  by_cases hDead : dead = []
  · subst hDead
    rw [List.nil_append] at hQueue
    rwa [← hQueue]
  · exact hLeft hDead

theorem wakeInv_step (hMax : 1 ≤ cfg.maxSize) {a : Action} (hInv : WakeInv cfg p)
    (h : step cfg p a = some p') : WakeInv cfg p' := by
  have hAwake : p'.producerWaits = false ∧ p'.clientWaits = 0 → WakeInv cfg p' := by
    rintro ⟨hProducer, hClients⟩
    refine ⟨hClients, fun hWaits => ?_⟩
    rw [hProducer] at hWaits
    exact absurd hWaits Bool.false_ne_true
  cases step_section h with
  | getConn _ hWho _ hRun => exact hAwake (getConn_wakes hWho hInv.no_client hRun)
  | getConnWait hEmpty hFull =>
      -- the empty queue could grow to one connection
      rw [hEmpty, List.length_nil] at hFull
      omega
  | clientWake hWaits =>
      have hClients := hInv.no_client
      omega
  | release _ hRun =>
      obtain ⟨hProducer, hClients, hLength⟩ := release_waits hRun
      refine ⟨hClients.trans hInv.no_client, fun hWaits => ?_⟩
      have hEnough := hInv.enough (hProducer.symm.trans hWaits)
      omega
  | produce _ _ =>
      unfold produceConn
      split
      · rename_i hEnough
        exact ⟨hInv.no_client, fun _ => hEnough⟩
      · exact ⟨rfl, fun hWaits => absurd hWaits Bool.false_ne_true⟩
  | producerWake _ => exact hAwake ⟨rfl, hInv.no_client⟩
  | recycle hRun =>
      obtain ⟨-, -, hProducer, hClients, -⟩ := recycleLoop_keeps hRun
      refine ⟨hClients.trans hInv.no_client, fun hWaits => ?_⟩
      exact recycle_keeps_enough hRun (hInv.enough (hProducer.symm.trans hWaits))

theorem wakeInv_reach {p₀ : Pool} (hMax : 1 ≤ cfg.maxSize) (hInit : Constructed cfg p₀)
    (h : Reachable (step cfg) p₀ p) : WakeInv cfg p :=
  h.invariant (P := WakeInv cfg) (wakeInv_constructed hInit)
    fun _ _ _ hInv _ hStep => wakeInv_step hMax hInv hStep

/-- **No wake-up of the producer is lost**: while it is blocked in `m_cond.wait`
without a notification, at least `minSize` connections are idle. -/
theorem producer_sleeps_only_with_enough {p₀ : Pool} (hMax : 1 ≤ cfg.maxSize)
    (hInit : Constructed cfg p₀) (h : Reachable (step cfg) p₀ p)
    (hWaits : p.producerWaits = true) : cfg.minSize ≤ p.connQ.length :=
  (wakeInv_reach hMax hInit h).enough hWaits

/-- Two connections at first.  The producer sleeps, a client takes one and wakes
it, it makes a third and sleeps again behind that; the first one comes back. -/
theorem producer_sleeps_only_with_enough_two :
    ∃ p₀ p, Constructed ⟨2, 4, 1000⟩ p₀ ∧ Reachable (step ⟨2, 4, 1000⟩) p₀ p ∧
      p.producerWaits = true ∧ 2 ≤ p.connQ.length := by
  have hFill : (fill [⟨1, true, 0⟩, ⟨2, true, 0⟩] emptyPool).isSome = true := by decide
  obtain ⟨p₀, hFill⟩ := Option.isSome_iff_exists.mp hFill
  have hRun : ((fill [⟨1, true, 0⟩, ⟨2, true, 0⟩] emptyPool).bind fun p =>
      run (step ⟨2, 4, 1000⟩) p [.produce ⟨0, true, 0⟩, .getConn 0 ⟨0, true, 0⟩ .producer,
        .produce ⟨3, true, 1⟩, .produce ⟨0, true, 0⟩, .release 0 2]).map
        (fun p => p.producerWaits) = some true := by decide
  rw [hFill, Option.bind_some] at hRun
  have hInit : Constructed ⟨2, 4, 1000⟩ p₀ := ⟨_, rfl, hFill⟩
  obtain ⟨p, hReach, hWaits⟩ := exists_reachable_of_run hRun
  exact ⟨p₀, p, hInit, hReach, hWaits,
    producer_sleeps_only_with_enough (by decide) hInit hReach hWaits⟩

end ConnPool
end LinuxCppLearn
