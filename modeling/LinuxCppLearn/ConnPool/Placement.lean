import LinuxCppLearn.Library.OwnedOnce
import LinuxCppLearn.ConnPool.Moves

/-!
# Each connection is in exactly one place

A connection wanders between the idle queue, an ownership group and the
recycler.  `PlacedInv` says that queue and groups together list every existing
connection exactly once; every `Move` keeps it.  What the clients rely on
follows: no two groups share a connection, and the recycler deletes only
connections nobody holds.
-/

namespace LinuxCppLearn
namespace ConnPool

open StepSystem

/-- The connections that are idle or held, with their multiplicities. -/
def Pool.placed (p : Pool) : List Ptr :=
  p.connQ ++ p.held.map Prod.snd

/-- Idle and held connections together are the existing ones, each once. -/
structure PlacedInv (p : Pool) : Prop where
  nodup : p.placed.Nodup
  live_iff : ∀ conn, conn ∈ p.live ↔ conn ∈ p.placed

theorem PlacedInv.once {p : Pool} (h : PlacedInv p) : OwnedOnce p.placed p.live :=
  ⟨h.nodup, h.live_iff⟩

theorem PlacedInv.of_once {p : Pool} (h : OwnedOnce p.placed p.live) : PlacedInv p :=
  ⟨h.nodup, h.mem_iff⟩

/-- The connections of `p'` are placed as those of `p` up to order. -/
theorem PlacedInv.perm {p p' : Pool} (h : PlacedInv p) (hPerm : p'.placed.Perm p.placed)
    (hLive : p'.live = p.live) : PlacedInv p' := by
  refine .of_once ?_
  rw [hLive]
  exact h.once.perm hPerm

/-- A new connection is put in one place. -/
theorem PlacedInv.new {p p' : Pool} {conn : Ptr} (h : PlacedInv p) (hNew : conn ∉ p.live)
    (hPerm : p'.placed.Perm (conn :: p.placed)) (hLive : p'.live = conn :: p.live) :
    PlacedInv p' := by
  refine .of_once ?_
  rw [hLive]
  exact h.once.create hNew hPerm

/-- Connections at the front of the queue are deleted. -/
theorem PlacedInv.delete {p p' : Pool} {dead : List Ptr} (h : PlacedInv p)
    (hPlaced : p.placed = dead ++ p'.placed) (hLive : p'.live = p.live.filter (· ∉ dead)) :
    PlacedInv p' := by
  refine .of_once ?_
  rw [hLive]
  exact h.once.destroy (.of_eq hPlaced)

/-- How the places of the connections change, and which connections exist. -/
inductive Relisted (p p' : Pool) : Prop
  | same (hPerm : p'.placed.Perm p.placed) (hLive : p'.live = p.live)
  | created (conn : Ptr) (hNew : conn ∉ p.live) (hPerm : p'.placed.Perm (conn :: p.placed))
      (hLive : p'.live = conn :: p.live)
  | deleted (dead : List Ptr) (hPlaced : p.placed = dead ++ p'.placed)
      (hLive : p'.live = p.live.filter (· ∉ dead))

theorem Move.relisted {cfg : Config} {p p' : Pool} {a : Action} (h : Move cfg p a p') :
    Relisted p p' := by
  cases h with
  | take group conn _ _ hQueue hHeld hLive =>
      refine .same ?_ hLive
      unfold Pool.placed
      rw [hQueue, hHeld, List.map_cons, List.cons_append]
      exact List.perm_middle
  | grow group conn _ _ _ hNew hEmpty hQueue hHeld hLive =>
      refine .created conn hNew ?_ hLive
      unfold Pool.placed
      rw [hEmpty, hQueue, hHeld, List.map_cons]
      exact List.Perm.refl _
  | giveBack group conn hMem hQueue hHeld hLive =>
      refine .same ?_ hLive
      unfold Pool.placed
      rw [hQueue, hHeld, List.append_assoc]
      refine List.Perm.append_left _ ?_
      -- the group that is given up stands somewhere in the list
      have hPerm : (p.held.map Prod.snd).Perm
          (((group, conn) :: p.held.erase (group, conn)).map Prod.snd) :=
        (List.perm_cons_erase hMem).map Prod.snd
      exact hPerm.symm
  | create conn _ hNew hQueue hHeld hLive =>
      refine .created conn hNew ?_ hLive
      unfold Pool.placed
      rw [hQueue, hHeld, List.append_assoc]
      exact List.perm_middle
  | recycle dead hQueue _ hHeld hLive =>
      refine .deleted dead ?_ hLive
      unfold Pool.placed
      rw [hQueue, hHeld, List.append_assoc]
  | stay hQueue hHeld hLive =>
      refine .same ?_ hLive
      unfold Pool.placed
      rw [hQueue, hHeld]

/-- **Every step keeps each connection in one place.** -/
theorem placedInv_step {cfg : Config} {p p' : Pool} {a : Action} (h : PlacedInv p)
    (hStep : step cfg p a = some p') : PlacedInv p' := by
  cases (step_move hStep).relisted with
  | same hPerm hLive => exact h.perm hPerm hLive
  | created conn hNew hPerm hLive => exact h.new hNew hPerm hLive
  | deleted dead hPlaced hLive => exact h.delete hPlaced hLive

theorem placedInv_emptyPool : PlacedInv emptyPool := .of_once .nil

theorem placedInv_fill {cs : List NewConn} {p p' : Pool} (h : PlacedInv p)
    (hFill : fill cs p = some p') : PlacedInv p' := by
  induction cs generalizing p with
  | nil =>
      obtain rfl := Option.some.inj hFill
      exact h
  | cons c cs ih =>
      simp only [fill] at hFill
      split at hFill
      · rename_i hFresh
        refine ih (h.new hFresh.1 ?_ rfl) hFill
        unfold Pool.placed
        simp only [addConn, List.append_assoc]
        exact List.perm_middle
      · simp at hFill

/-- The invariant in every state behind the constructor. -/
theorem placedInv_reach {cfg : Config} {p₀ p : Pool} (hInit : Constructed cfg p₀)
    (h : Reachable (step cfg) p₀ p) : PlacedInv p := by
  refine h.invariant ?_ fun _ _ _ hInv _ hStep => placedInv_step hInv hStep
  obtain ⟨cs, _, hFill⟩ := hInit
  exact placedInv_fill placedInv_emptyPool hFill

/-- `conn` is queued once and managed by no `shared_ptr`. -/
def Idle (p : Pool) (conn : Ptr) : Prop :=
  p.connQ.count conn = 1 ∧ ∀ group, (group, conn) ∉ p.held

/-- `conn` is not queued and managed by exactly one ownership group. -/
def Held (p : Pool) (conn : Ptr) : Prop :=
  conn ∉ p.connQ ∧ ∃ group, p.held.filter (fun entry => entry.2 == conn) = [(group, conn)]

/-- A list whose second components differ has at most one entry for each. -/
theorem filter_snd_eq_singleton {entries : List (Nat × Ptr)} {group : Nat} {conn : Ptr}
    (hNodup : (entries.map Prod.snd).Nodup) (hMem : (group, conn) ∈ entries) :
    entries.filter (fun entry => entry.2 == conn) = [(group, conn)] := by
  induction entries with
  | nil => simp at hMem
  | cons entry entries ih =>
      rw [List.map_cons, List.nodup_cons] at hNodup
      rcases List.mem_cons.mp hMem with rfl | hMem'
      · have hRest : entries.filter (fun entry => entry.2 == conn) = [] := by
          rw [List.filter_eq_nil_iff]
          intro other hOther hEq
          rw [beq_iff_eq] at hEq
          exact hNodup.1 (List.mem_map.mpr ⟨other, hOther, hEq⟩)
        simp [hRest]
      · have hNe : entry.2 ≠ conn := by
          intro hEq
          exact hNodup.1 (List.mem_map.mpr ⟨(group, conn), hMem', hEq.symm⟩)
        rw [List.filter_cons_of_neg (by simpa using hNe)]
        exact ih hNodup.2 hMem'

theorem PlacedInv.connQ_disjoint_held {p : Pool} (h : PlacedInv p) {group : Nat} {conn : Ptr}
    (hIdle : conn ∈ p.connQ) : (group, conn) ∉ p.held := by
  intro hHeld
  have hNodup := h.nodup
  rw [Pool.placed, List.nodup_append] at hNodup
  exact hNodup.2.2 conn hIdle conn (List.mem_map_of_mem hHeld) rfl

/-- An existing connection is idle or held, never both. -/
theorem PlacedInv.idle_or_held {p : Pool} (h : PlacedInv p) {conn : Ptr}
    (hLive : conn ∈ p.live) : Idle p conn ∨ Held p conn := by
  have hNodup := h.nodup
  rw [Pool.placed, List.nodup_append] at hNodup
  have hPlaced := (h.live_iff conn).mp hLive
  rcases List.mem_append.mp hPlaced with hIdle | hHeld
  · left
    exact ⟨List.count_eq_one_of_mem hNodup.1 hIdle, fun _ => h.connQ_disjoint_held hIdle⟩
  · right
    obtain ⟨⟨group, conn'⟩, hMem, rfl⟩ := List.mem_map.mp hHeld
    refine ⟨fun hIdle => h.connQ_disjoint_held hIdle hMem, group, ?_⟩
    exact filter_snd_eq_singleton hNodup.2.1 hMem

/-- Two ownership groups never manage one connection. -/
theorem PlacedInv.group_unique {p : Pool} (h : PlacedInv p) {group group' : Nat} {conn : Ptr}
    (hMem : (group, conn) ∈ p.held) (hMem' : (group', conn) ∈ p.held) : group = group' := by
  have hNodup := h.nodup
  rw [Pool.placed, List.nodup_append] at hNodup
  exact congrArg Prod.fst (List.inj_on_of_nodup_map hNodup.2.1 hMem hMem' rfl)

/-- **Each connection is in exactly one place**, over every interleaving: an
existing connection is idle once or held by one group, a deleted one is
neither, no two groups share one, and no step deletes one that is held. -/
theorem each_connection_in_one_place {cfg : Config} {p₀ p : Pool}
    (hInit : Constructed cfg p₀) (hReach : Reachable (step cfg) p₀ p) :
    (∀ conn ∈ p.live, Idle p conn ∨ Held p conn) ∧
      (∀ conn ∉ p.live, conn ∉ p.connQ ∧ ∀ group, (group, conn) ∉ p.held) ∧
      (∀ group group' conn, (group, conn) ∈ p.held → (group', conn) ∈ p.held →
        group = group') ∧
      ∀ a p', step cfg p a = some p' → ∀ conn ∈ p.live, conn ∉ p'.live →
        ∀ group, (group, conn) ∉ p.held := by
  have hInv := placedInv_reach hInit hReach
  refine ⟨fun conn hLive => hInv.idle_or_held hLive, fun conn hDead => ?_,
    fun _ _ _ hMem hMem' => hInv.group_unique hMem hMem', ?_⟩
  · have hOut : conn ∉ p.placed := fun hMem => hDead ((hInv.live_iff conn).mpr hMem)
    rw [Pool.placed, List.mem_append, not_or] at hOut
    exact ⟨hOut.1, fun group hMem => hOut.2 (List.mem_map_of_mem hMem)⟩
  · intro a p' hStep conn hLive hDeleted group
    cases step_move hStep with
    | recycle dead hQueue _ _ hLive' =>
        -- only the recycler deletes, and what it deletes was idle
        have hDead : conn ∈ dead := by
          by_contra hAlive
          rw [hLive', List.mem_filter] at hDeleted
          exact hDeleted ⟨hLive, by simpa using hAlive⟩
        refine hInv.connQ_disjoint_held ?_
        rw [hQueue]
        exact List.mem_append_left _ hDead
    | take _ _ _ _ _ _ hLive' => exact absurd (hLive' ▸ hLive) hDeleted
    | giveBack _ _ _ _ _ hLive' => exact absurd (hLive' ▸ hLive) hDeleted
    | stay _ _ hLive' => exact absurd (hLive' ▸ hLive) hDeleted
    | grow _ _ _ _ _ _ _ _ _ hLive' =>
        exact absurd (hLive' ▸ List.mem_cons_of_mem _ hLive) hDeleted
    | create _ _ _ _ _ hLive' =>
        exact absurd (hLive' ▸ List.mem_cons_of_mem _ hLive) hDeleted

/-- Two clients, one release and a pass of the recycler. -/
theorem each_connection_in_one_place_two_clients :
    ∃ p : Pool, p.connQ = [1] ∧ p.held = [(1, 3)] ∧
      ∀ conn ∈ p.live, Idle p conn ∨ Held p conn := by
  let cfg : Config := ⟨1, 4, 0⟩
  let p₀ : Pool := addConn emptyPool ⟨1, true, 0⟩
  have hInit : Constructed cfg p₀ := ⟨[⟨1, true, 0⟩], rfl, rfl⟩
  let actions : List Action :=
    [.getConn 0 ⟨0, true, 0⟩ .nobody, .produce ⟨3, true, 5⟩, .release 0 7,
      .getConn 1 ⟨0, true, 0⟩ .nobody, .getConn 2 ⟨0, true, 0⟩ .nobody,
      .produce ⟨2, false, 8⟩, .release 2 9, .recycle [20]]
  let final := run (step cfg) p₀ actions
  have hFinal : final = some (final.get (by decide)) := by simp
  have hReach : Reachable (step cfg) p₀ (final.get (by decide)) := reachable_of_run hFinal
  exact ⟨_, by decide, by decide, (each_connection_in_one_place hInit hReach).1⟩

end ConnPool
end LinuxCppLearn
