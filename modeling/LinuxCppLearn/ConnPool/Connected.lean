import LinuxCppLearn.ConnPool.Placement

/-!
# Connections that were never established

`addConn` drops the result of `connect`, so that a connection to nowhere is
queued like any other.  It is handed out unless the recycler deletes it first.
-/

namespace LinuxCppLearn
namespace ConnPool

open StepSystem

/-- Every connection that clients have was established. -/
def ClientsConnected (p : Pool) : Prop :=
  ∀ entry ∈ p.held, p.connected entry.2 = true

instance (p : Pool) : Decidable (ClientsConnected p) :=
  inferInstanceAs (Decidable (∀ entry ∈ p.held, _))

/-- `getConn` comes to no connection whose `connect` failed: neither at the front
of the queue, nor when it makes one itself. -/
def MeetsConnected (p : Pool) : Action → Prop
  | .getConn _ new _ =>
      match p.connQ with
      | [] => new.connectOk = true
      | conn :: _ => p.connected conn = true
  | _ => True

instance (p : Pool) (a : Action) : Decidable (MeetsConnected p a) := by
  induction a using Action.casesOn with
  | getConn group new who =>
      unfold MeetsConnected
      dsimp only
      split <;> infer_instance
  | _ => exact inferInstanceAs (Decidable True)

/-- The `connect` of an `addConn` in this step succeeds. -/
def ConnectsOk (cfg : Config) (p : Pool) : Action → Prop
  | .getConn _ new _ => p.connQ = [] → new.connectOk = true
  | .produce new => p.connQ.length < cfg.minSize → new.connectOk = true
  | _ => True

instance (cfg : Config) (p : Pool) (a : Action) : Decidable (ConnectsOk cfg p a) := by
  induction a using Action.casesOn <;> unfold ConnectsOk <;> infer_instance

section Steps

variable {cfg : Config} {p p' : Pool} {a : Action}

/-- What a step does to the connections that exist and to the results of
`connect`. -/
inductive Connects (cfg : Config) (p : Pool) (a : Action) (p' : Pool) : Prop
  /-- no connection is made -/
  | none (hLive : p'.live ⊆ p.live) (hConnected : p'.connected = p.connected)
  /-- one is made -/
  | one (new : NewConn) (hNew : new.ptr ∉ p.live) (hOk : ConnectsOk cfg p a → new.connectOk = true)
      (hLive : p'.live = new.ptr :: p.live)
      (hConnected : p'.connected = Function.update p.connected new.ptr new.connectOk)

theorem getConn_connects {group : Nat} {new : NewConn} {who : Notified}
    (hFresh : p.connQ = [] → new.Fresh p) (h : getConn cfg p group new who = some p') :
    Connects cfg p (.getConn group new who) p' := by
  unfold getConn at h
  split at h
  · rename_i hEmpty
    rw [List.isEmpty_iff] at hEmpty
    split at h
    · obtain ⟨-, -, -, hLive⟩ := handOut_eq_some h
      exact .one new (hFresh hEmpty).1 (fun hOk => hOk hEmpty) hLive (handOut_keeps h).1
    · simp at h
  · obtain ⟨-, -, -, hLive⟩ := handOut_eq_some h
    exact .none (hLive ▸ List.Subset.refl _) (handOut_keeps h).1

theorem release_connects {group : Nat} {now : Time} (h : release p group now = some p') :
    Connects cfg p (.release group now) p' := by
  unfold release at h
  split at h
  · simp at h
  · obtain rfl := Option.some.inj h
    exact .none (List.Subset.refl _) rfl

theorem produceConn_connects {new : NewConn} (hFresh : p.connQ.length < cfg.minSize → new.Fresh p) :
    Connects cfg p (.produce new) (produceConn cfg p new) := by
  unfold produceConn
  split
  · exact .none (List.Subset.refl _) rfl
  · rename_i hShort
    have hShort' : p.connQ.length < cfg.minSize := Nat.lt_of_not_le hShort
    exact .one new (hFresh hShort').1 (fun hOk => hOk hShort') rfl rfl

theorem step_connects (h : step cfg p a = some p') : Connects cfg p a p' := by
  cases step_section h with
  | getConn _ _ hFresh hRun => exact getConn_connects hFresh hRun
  | getConnWait | clientWake | producerWake => exact .none (List.Subset.refl _) rfl
  | release _ hRun => exact release_connects hRun
  | produce _ hFresh => exact produceConn_connects hFresh
  | recycle hRun =>
      obtain ⟨dead, -, -, -, hLive⟩ := recycleLoop_prefix hRun
      refine .none (fun conn hMem => ?_) (recycleLoop_keeps hRun).1
      rw [hLive] at hMem
      exact List.mem_of_mem_filter hMem

/-- Results of `connect` that are known stay as they are. -/
theorem connected_eq {conn : Ptr} (hStep : step cfg p a = some p') (hLive : conn ∈ p.live) :
    p'.connected conn = p.connected conn := by
  cases step_connects hStep with
  | none _ hConnected => rw [hConnected]
  | one new hNew _ _ hConnected =>
      rw [hConnected]
      refine Function.update_of_ne ?_ _ _
      rintro rfl
      exact hNew hLive

/-- `getConn` returns an established connection exactly if it meets one. -/
theorem getConn_takes {group : Nat} {new : NewConn} {who : Notified}
    (h : getConn cfg p group new who = some p') :
    ∃ conn, p'.held = (group, conn) :: p.held ∧
      (p'.connected conn = true ↔ MeetsConnected p (.getConn group new who)) := by
  unfold getConn at h
  split at h
  · rename_i hEmpty
    rw [List.isEmpty_iff] at hEmpty
    split at h
    · obtain ⟨conn, hQueue, hHeld, -⟩ := handOut_eq_some h
      have hConn : new.ptr = conn := by
        rw [addConn, hEmpty] at hQueue
        exact (List.cons.inj hQueue).1
      refine ⟨conn, hHeld, ?_⟩
      simp [MeetsConnected, hEmpty, (handOut_keeps h).1, addConn, hConn]
    · simp at h
  · obtain ⟨conn, hQueue, hHeld, -⟩ := handOut_eq_some h
    refine ⟨conn, hHeld, ?_⟩
    simp [MeetsConnected, hQueue, (handOut_keeps h).1]

/-- Only `getConn` gives connections to clients. -/
theorem held_subset (hStep : step cfg p a = some p')
    (hOther : ∀ group new who, a ≠ .getConn group new who) : p'.held ⊆ p.held := by
  cases step_move hStep with
  | take _ _ hCall | grow _ _ hCall =>
      obtain ⟨new, who, hEq⟩ := hCall
      exact absurd hEq (hOther _ new who)
  | giveBack _ _ _ _ hHeld _ =>
      rw [hHeld]
      exact List.erase_subset
  | create _ _ _ _ hHeld _ | recycle _ _ _ hHeld _ | stay _ hHeld _ =>
      rw [hHeld]
      exact List.Subset.refl _

theorem PlacedInv.held_live (hPlaced : PlacedInv p) {entry : Nat × Ptr} (hMem : entry ∈ p.held) :
    entry.2 ∈ p.live :=
  (hPlaced.live_iff _).mpr (List.mem_append_right _ (List.mem_map_of_mem hMem))

/-- **One step**: the clients' connections stay established exactly if `getConn`
comes to one that is. -/
theorem clientsConnected_iff (hPlaced : PlacedInv p) (h : ClientsConnected p)
    (hStep : step cfg p a = some p') : ClientsConnected p' ↔ MeetsConnected p a := by
  have hOld : ∀ entry ∈ p.held, p'.connected entry.2 = true := fun entry hMem =>
    (connected_eq hStep (hPlaced.held_live hMem)).trans (h entry hMem)
  by_cases hCall : ∃ group new who, a = .getConn group new who
  · obtain ⟨group, new, who, rfl⟩ := hCall
    obtain hRun : getConn cfg p group new who = some p' := by
      cases step_section hStep with
      | getConn _ _ _ hRun => exact hRun
    obtain ⟨conn, hHeld, hIff⟩ := getConn_takes hRun
    rw [← hIff]
    constructor
    · intro h'
      exact h' (group, conn) (hHeld ▸ List.mem_cons_self)
    · intro hConn entry hMem
      rw [hHeld] at hMem
      rcases List.mem_cons.mp hMem with rfl | hBefore
      · exact hConn
      · exact hOld entry hBefore
  · have hOther : ∀ group new who, a ≠ .getConn group new who :=
      fun group new who hEq => hCall ⟨group, new, who, hEq⟩
    have hMeets : MeetsConnected p a := by
      cases a with
      | getConn group new who => exact absurd rfl (hOther group new who)
      | getConnWait | clientWake | release | produce | producerWake | recycle => trivial
    refine ⟨fun _ => hMeets, fun _ entry hMem => ?_⟩
    exact hOld entry (held_subset hStep hOther hMem)

/-- If every `connect` succeeds, all connections that exist are established. -/
theorem allConnected_step (h : ∀ conn ∈ p.live, p.connected conn = true)
    (hStep : step cfg p a = some p') (hOk : ConnectsOk cfg p a) :
    ∀ conn ∈ p'.live, p'.connected conn = true := by
  intro conn hMem
  cases step_connects hStep with
  | none hLive hConnected =>
      rw [hConnected]
      exact h conn (hLive hMem)
  | one new hNew hOk' hLive hConnected =>
      rw [hLive] at hMem
      rcases List.mem_cons.mp hMem with rfl | hOld
      · rw [hConnected, Function.update_self]
        exact hOk' hOk
      · exact (connected_eq hStep hOld).trans (h conn hOld)

end Steps

/-- **Clients get established connections** in a run exactly if `getConn` never
comes to one whose `connect` failed; in particular if no `connect` fails. -/
theorem clients_connected_exactly {cfg : Config} {p₀ : Pool} (hInit : Constructed cfg p₀)
    (as : List Action) :
    (AlongRun (step cfg) (fun _ _ p' => ClientsConnected p') p₀ as ↔
      AlongRun (step cfg) (fun p a _ => MeetsConnected p a) p₀ as) ∧
    ((∀ conn ∈ p₀.live, p₀.connected conn = true) →
      AlongRun (step cfg) (fun p a _ => ConnectsOk cfg p a) p₀ as →
        AlongRun (step cfg) (fun _ _ p' => ClientsConnected p') p₀ as) := by
  obtain ⟨cs, -, hFill⟩ := hInit
  have hPlaced₀ := placedInv_fill placedInv_emptyPool hFill
  constructor
  · have hStep : ∀ p a p', PlacedInv p ∧ ClientsConnected p → step cfg p a = some p' →
        (ClientsConnected p' ↔ MeetsConnected p a) ∧
          (MeetsConnected p a → PlacedInv p' ∧ ClientsConnected p') := by
      rintro p a p' ⟨hPlaced, hClients⟩ hStep
      have hIff := clientsConnected_iff hPlaced hClients hStep
      exact ⟨hIff, fun hMeets => ⟨placedInv_step hPlaced hStep, hIff.mpr hMeets⟩⟩
    refine alongRun_iff hStep ⟨hPlaced₀, fun entry hMem => ?_⟩
    rw [(fill_connQ hFill).2] at hMem
    exact absurd hMem List.not_mem_nil
  · intro hAll hRun
    have hStep : ∀ p a p', (PlacedInv p ∧ ∀ conn ∈ p.live, p.connected conn = true) →
        step cfg p a = some p' → ConnectsOk cfg p a →
          ClientsConnected p' ∧ PlacedInv p' ∧ ∀ conn ∈ p'.live, p'.connected conn = true := by
      rintro p a p' ⟨hPlaced, hAll⟩ hStep hOk
      have hPlaced' := placedInv_step hPlaced hStep
      have hAll' := allConnected_step hAll hStep hOk
      exact ⟨fun entry hMem => hAll' _ (hPlaced'.held_live hMem), hPlaced', hAll'⟩
    exact hRun.imp hStep ⟨hPlaced₀, hAll⟩

/-- A connection whose `connect` failed is recycled behind one that works. -/
def recycledTrace : List Action :=
  [.getConn 0 ⟨0, false, 0⟩ .nobody, .produce ⟨2, false, 3⟩, .release 0 7,
    .recycle [9], .getConn 1 ⟨0, false, 0⟩ .nobody]

theorem clients_connected_exactly_recycled :
    AlongRun (step ⟨1, 4, 0⟩) (fun _ _ p' => ClientsConnected p')
      (addConn emptyPool ⟨1, true, 0⟩) recycledTrace := by
  have hInit : Constructed ⟨1, 4, 0⟩ (addConn emptyPool ⟨1, true, 0⟩) :=
    ⟨[⟨1, true, 0⟩], rfl, rfl⟩
  exact (clients_connected_exactly hInit recycledTrace).1.mpr (by decide)

/-- The server is down when the pool is made. -/
theorem dead_connection_handed_out :
    ∃ (cfg : Config) (p₀ p : Pool), Constructed cfg p₀ ∧ Reachable (step cfg) p₀ p ∧
      (0, 1) ∈ p.held ∧ p.connected 1 = false ∧ ¬ ClientsConnected p := by
  have hInit : Constructed ⟨1, 4, 0⟩ (addConn emptyPool ⟨1, false, 0⟩) :=
    ⟨[⟨1, false, 0⟩], rfl, rfl⟩
  have hRun : (run (step ⟨1, 4, 0⟩) (addConn emptyPool ⟨1, false, 0⟩)
      [.getConn 0 ⟨0, true, 0⟩ .nobody]).map (fun p =>
      decide ((0, 1) ∈ p.held ∧ p.connected 1 = false ∧ ¬ ClientsConnected p)) = some true := by
    decide
  obtain ⟨p, hReach, hTest⟩ := exists_reachable_of_run hRun
  exact ⟨_, _, p, hInit, hReach, of_decide_eq_true hTest⟩

end ConnPool
end LinuxCppLearn
