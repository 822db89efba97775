import LinuxCppLearn.ConnPool.Limits
import LinuxCppLearn.ConnPool.Connected
import LinuxCppLearn.Library.Quiescence

/-!
# The clients that insert rows

Several threads run `op2` on one pool: for each `i` of its range a thread takes a
handle, inserts the row `i` over it and drops the handle.  The pool's own threads
run beside them.

* `step` — one thread's next step, or one of the pool's threads.
* `HandlesInv` — a thread has a handle exactly inside of its loop body.
* `total_le` — the true limit of the number of connections: one for each thread,
  and `minSize` more.
* `IssuedInv` — which statements a thread has issued.
* `inserts_complete` — what every schedule comes to.
-/

namespace LinuxCppLearn
namespace ConnPool
namespace Inserts

open StepSystem Quiescence

/-- Where a thread is in `op2`. -/
inductive ClientPc
  /-- in front of the test `i < end` -/
  | loop (i : Nat)
  /-- `getConn` has returned -/
  | holding (i : Nat)
  /-- `conn->update(sql)` has returned, and the handle goes out of scope -/
  | updated (i : Nat)
deriving DecidableEq, Repr

/-- A call of `conn->update(sql)` for the row `i`, and what it returned. -/
structure Update (k : Nat) where
  client : Fin k
  i : Nat
  conn : Ptr
  ok : Bool
deriving DecidableEq, Repr

structure State (k : Nat) where
  pool : Pool
  pc : Fin k → ClientPc
  updates : List (Update k)

/-- `begin` and `end` of each thread. -/
abbrev Ranges (k : Nat) := Fin k → Nat × Nat

/-- The five threads of `test2`. -/
def test2 : Ranges 5 := fun t => (1000 * t, 1000 * t + 1000)

def init {k : Nat} (ranges : Ranges k) (p₀ : Pool) : State k where
  pool := p₀
  pc t := .loop (ranges t).1
  updates := []

/-- The threads of the pool itself. -/
def Background : ConnPool.Action → Prop
  | .produce _ | .producerWake | .recycle _ => True
  | _ => False

instance (a : ConnPool.Action) : Decidable (Background a) := by
  induction a using Action.casesOn <;> unfold Background <;> infer_instance

inductive Action (k : Nat)
  | getConn (t : Fin k) (new : NewConn) (who : Notified)
  /-- `answer`: what the server says to a statement that reaches it -/
  | update (t : Fin k) (answer : Bool)
  | release (t : Fin k) (now : Time)
  | pool (a : ConnPool.Action)

/-- The steps of the threads that run `op2`. -/
def Action.Own {k : Nat} : Action k → Prop
  | .pool _ => False
  | _ => True

instance {k : Nat} (a : Action k) : Decidable a.Own := by
  induction a using Action.casesOn <;> unfold Action.Own <;> infer_instance

variable {k : Nat}

/-- The connection behind the handle of a thread. -/
def connOf (p : Pool) (t : Fin k) : Option Ptr :=
  (p.held.find? fun entry => entry.1 == t.val).map Prod.snd

/-- A thread moves on, and the pool has changed. -/
def State.move (s : State k) (t : Fin k) (pc : ClientPc) (p : Pool) : State k :=
  { s with pool := p, pc := Function.update s.pc t pc }

/-- A statement has been issued. -/
def State.log (s : State k) (u : Update k) : State k :=
  { s with
    pc := Function.update s.pc u.client (.updated u.i)
    updates := s.updates ++ [u] }

/-- The ownership group of a handle is named by its thread.  `getConn` waits only if
`maxSize` is 0; then it is not enabled. -/
def step (cfg : Config) (ranges : Ranges k) (s : State k) : Action k → Option (State k)
  | .getConn t new who =>
      match s.pc t with
      | .loop i =>
          if i < (ranges t).2 then
            (ConnPool.step cfg s.pool (.getConn t new who)).map (s.move t (.holding i))
          else none
      | _ => none
  | .update t answer =>
      match s.pc t with
      | .holding i =>
          -- over a connection that was not established nothing reaches the server
          (connOf s.pool t).map fun conn => s.log ⟨t, i, conn, s.pool.connected conn && answer⟩
      | _ => none
  | .release t now =>
      match s.pc t with
      | .updated i => (ConnPool.step cfg s.pool (.release t now)).map (s.move t (.loop (i + 1)))
      | _ => none
  | .pool a =>
      if Background a then (ConnPool.step cfg s.pool a).map fun p => { s with pool := p } else none

/-! ## What a step is -/

variable {cfg : Config} {ranges : Ranges k} {s s' : State k}

inductive Step (cfg : Config) (ranges : Ranges k) (s : State k) : Action k → State k → Prop
  | getConn {t : Fin k} {new : NewConn} {who : Notified} {i : Nat} {p : Pool}
      (hPc : s.pc t = .loop i) (hMore : i < (ranges t).2)
      (hPool : ConnPool.step cfg s.pool (.getConn t new who) = some p) :
      Step cfg ranges s (.getConn t new who) (s.move t (.holding i) p)
  | update {t : Fin k} {answer : Bool} {i : Nat} {conn : Ptr} (hPc : s.pc t = .holding i)
      (hConn : connOf s.pool t = some conn) :
      Step cfg ranges s (.update t answer)
        (s.log ⟨t, i, conn, s.pool.connected conn && answer⟩)
  | release {t : Fin k} {now : Time} {i : Nat} {p : Pool} (hPc : s.pc t = .updated i)
      (hPool : ConnPool.step cfg s.pool (.release t now) = some p) :
      Step cfg ranges s (.release t now) (s.move t (.loop (i + 1)) p)
  | pool {a : ConnPool.Action} {p : Pool} (hBackground : Background a)
      (hPool : ConnPool.step cfg s.pool a = some p) :
      Step cfg ranges s (.pool a) { s with pool := p }

theorem step_cases {a : Action k} (h : step cfg ranges s a = some s') :
    Step cfg ranges s a s' := by
  cases a with
  | getConn t new who =>
      simp only [step] at h
      split at h
      · rename_i i hPc
        split at h
        · rename_i hMore
          obtain ⟨p, hPool, rfl⟩ := Option.map_eq_some_iff.mp h
          exact .getConn hPc hMore hPool
        · simp at h
      · simp at h
  | update t answer =>
      simp only [step] at h
      split at h
      · rename_i i hPc
        obtain ⟨conn, hConn, rfl⟩ := Option.map_eq_some_iff.mp h
        exact .update hPc hConn
      · simp at h
  | release t now =>
      simp only [step] at h
      split at h
      · rename_i i hPc
        obtain ⟨p, hPool, rfl⟩ := Option.map_eq_some_iff.mp h
        exact .release hPc hPool
      · simp at h
  | pool a =>
      simp only [step] at h
      split at h
      · rename_i hBackground
        obtain ⟨p, hPool, rfl⟩ := Option.map_eq_some_iff.mp h
        exact .pool hBackground hPool
      · simp at h

/-- What the threads do to the pool is a run of the pool. -/
theorem pool_reach {p₀ : Pool} {as : List (Action k)}
    (hRun : run (step cfg ranges) (init ranges p₀) as = some s) :
    Reachable (ConnPool.step cfg) p₀ s.pool := by
  refine (reachable_of_run hRun).invariant
    (P := fun s => Reachable (ConnPool.step cfg) p₀ s.pool) Reach.start ?_
  intro s a s' hReach _ hStep
  cases step_cases hStep with
  | getConn _ _ hPool => exact hReach.next _ trivial hPool
  | update => exact hReach
  | release _ hPool => exact hReach.next _ trivial hPool
  | pool _ hPool => exact hReach.next _ trivial hPool

/-! ## Handles -/

section Pool

variable {p p' : Pool} {group : Nat}

theorem getConn_held {new : NewConn} {who : Notified}
    (h : ConnPool.step cfg p (.getConn group new who) = some p') :
    group ∉ p.held.map Prod.fst ∧ ∃ conn, p'.held = (group, conn) :: p.held := by
  cases step_section h with
  | getConn hGroup _ _ hRun =>
      obtain ⟨conn, hHeld, -⟩ := getConn_takes hRun
      exact ⟨hGroup, conn, hHeld⟩

theorem release_held {now : Time} (h : ConnPool.step cfg p (.release group now) = some p') :
    ∃ conn, (group, conn) ∈ p.held ∧ p'.held = p.held.erase (group, conn) := by
  cases step_section h with
  | release _ hRun =>
      unfold release at hRun
      split at hRun
      · simp at hRun
      · rename_i entry hFind
        have hGroup : entry.1 = group := by simpa using List.find?_some hFind
        obtain rfl := Option.some.inj hRun
        exact ⟨entry.2, hGroup ▸ List.mem_of_find?_eq_some hFind, by rw [← hGroup]⟩

theorem background_held {a : ConnPool.Action} (hBackground : Background a)
    (h : ConnPool.step cfg p a = some p') : p'.held = p.held := by
  cases step_section h with
  | getConn | getConnWait | clientWake | release => exact absurd hBackground id
  | produce =>
      unfold produceConn
      split <;> rfl
  | producerWake => rfl
  | recycle hRun =>
      obtain ⟨-, -, -, hHeld, -⟩ := recycleLoop_prefix hRun
      exact hHeld

end Pool

/-- The thread is in the body of its loop, behind `getConn`. -/
def ClientPc.Inside : ClientPc → Prop
  | .loop _ => False
  | _ => True

/-- The groups are those of the threads with a handle, one for each. -/
structure HandlesInv (s : State k) : Prop where
  nodup : (s.pool.held.map Prod.fst).Nodup
  mem_iff : ∀ group, group ∈ s.pool.held.map Prod.fst ↔
    ∃ t : Fin k, group = t.val ∧ (s.pc t).Inside

theorem handlesInv_init {p₀ : Pool} (hEmpty : p₀.held = []) : HandlesInv (init ranges p₀) := by
  have hHeld : (init ranges p₀).pool.held = [] := hEmpty
  refine ⟨by simp [hHeld], fun group => ?_⟩
  rw [hHeld]
  simp [init, ClientPc.Inside]

/-- A thread moves within its loop body, or outside of it. -/
theorem inside_update {pc : Fin k → ClientPc} {t : Fin k} {at' : ClientPc}
    (hSame : at'.Inside ↔ (pc t).Inside) (group : Nat) :
    (∃ j : Fin k, group = j.val ∧ (Function.update pc t at' j).Inside) ↔
      ∃ j : Fin k, group = j.val ∧ (pc j).Inside := by
  refine exists_congr fun j => and_congr_right fun _ => ?_
  by_cases hHere : j = t
  · rw [hHere, Function.update_self, hSame]
  · rw [Function.update_of_ne hHere]

/-- Among different groups, erasing an entry is erasing its group. -/
theorem map_fst_erase {held : List (Nat × Ptr)} {group : Nat} {conn : Ptr}
    (hNodup : (held.map Prod.fst).Nodup) (hMem : (group, conn) ∈ held) :
    (held.erase (group, conn)).map Prod.fst = (held.map Prod.fst).erase group := by
  induction held with
  | nil => simp at hMem
  | cons entry held ih =>
      rw [List.map_cons, List.nodup_cons] at hNodup
      by_cases hHere : entry = (group, conn)
      · subst hHere
        rw [List.erase_cons_head, List.map_cons, List.erase_cons_head]
      · have hRest : (group, conn) ∈ held := by
          rcases List.mem_cons.mp hMem with hEq | hRest
          · exact absurd hEq.symm hHere
          · exact hRest
        have hGroup : entry.1 ≠ group := by
          rintro rfl
          exact hNodup.1 (List.mem_map.mpr ⟨_, hRest, rfl⟩)
        rw [List.erase_cons_tail (by simpa using hHere), List.map_cons, List.map_cons,
          List.erase_cons_tail (by simpa using hGroup), ih hNodup.2 hRest]

/-- **Handles**, step by step. -/
theorem handlesInv_step {a : Action k} (hInv : HandlesInv s) (h : step cfg ranges s a = some s') :
    HandlesInv s' := by
  obtain ⟨hNodup, hIff⟩ := hInv
  cases step_cases h with
  | @getConn t new who i p hPc _ hPool =>
      obtain ⟨hGroup, conn, hHeld⟩ := getConn_held hPool
      have hGroups : p.held.map Prod.fst = t.val :: s.pool.held.map Prod.fst := by
        rw [hHeld, List.map_cons]
      refine ⟨hGroups ▸ List.nodup_cons.mpr ⟨hGroup, hNodup⟩, fun group => ?_⟩
      show group ∈ p.held.map Prod.fst ↔
        ∃ j : Fin k, group = j.val ∧ (Function.update s.pc t (.holding i) j).Inside
      rw [hGroups, List.mem_cons, hIff]
      constructor
      · rintro (rfl | ⟨j, rfl, hInside⟩)
        · exact ⟨t, rfl, by rw [Function.update_self]; trivial⟩
        · refine ⟨j, rfl, ?_⟩
          by_cases hHere : j = t
          · rw [hHere, Function.update_self]
            trivial
          · rwa [Function.update_of_ne hHere]
      · rintro ⟨j, rfl, hInside⟩
        by_cases hHere : j = t
        · exact .inl (congrArg Fin.val hHere)
        · rw [Function.update_of_ne hHere] at hInside
          exact .inr ⟨j, rfl, hInside⟩
  | update hPc _ =>
      refine ⟨hNodup, fun group => (hIff group).trans (inside_update ?_ group).symm⟩
      rw [hPc]
      simp [ClientPc.Inside]
  | @release t now i p hPc hPool =>
      obtain ⟨conn, hMem, hHeld⟩ := release_held hPool
      have hGroups : p.held.map Prod.fst = (s.pool.held.map Prod.fst).erase t.val := by
        rw [hHeld, map_fst_erase hNodup hMem]
      refine ⟨hGroups ▸ hNodup.erase t.val, fun group => ?_⟩
      show group ∈ p.held.map Prod.fst ↔
        ∃ j : Fin k, group = j.val ∧ (Function.update s.pc t (.loop (i + 1)) j).Inside
      rw [hGroups, hNodup.mem_erase_iff, hIff]
      constructor
      · rintro ⟨hOther, j, rfl, hInside⟩
        have hNotHere : j ≠ t := fun hSame => hOther (congrArg Fin.val hSame)
        exact ⟨j, rfl, by rwa [Function.update_of_ne hNotHere]⟩
      · rintro ⟨j, rfl, hInside⟩
        by_cases hHere : j = t
        · rw [hHere, Function.update_self] at hInside
          exact absurd hInside id
        · rw [Function.update_of_ne hHere] at hInside
          exact ⟨fun hSame => hHere (Fin.ext hSame), j, rfl, hInside⟩
  | pool hBackground hPool =>
      have hHeld := background_held hBackground hPool
      exact ⟨by rw [hHeld]; exact hNodup, fun group => by rw [hHeld]; exact hIff group⟩

/-- There are no more handles than threads. -/
theorem HandlesInv.length_le (hInv : HandlesInv s) : s.pool.held.length ≤ k := by
  have hSub : s.pool.held.map Prod.fst ⊆ List.range k := by
    intro group hMem
    obtain ⟨t, rfl, -⟩ := (hInv.mem_iff group).mp hMem
    exact List.mem_range.mpr t.isLt
  have hLength := (List.subperm_of_subset hInv.nodup hSub).length_le
  rwa [List.length_map, List.length_range] at hLength

/-- The handle of a thread in its loop body. -/
theorem HandlesInv.connOf_isSome (hInv : HandlesInv s) {t : Fin k} (hInside : (s.pc t).Inside) :
    ∃ conn, connOf s.pool t = some conn := by
  obtain ⟨entry, hMem, hGroup⟩ := List.mem_map.mp ((hInv.mem_iff t.val).mpr ⟨t, rfl, hInside⟩)
  have hFind : (s.pool.held.find? fun entry => entry.1 == t.val).isSome := by
    rw [List.find?_isSome]
    exact ⟨entry, hMem, by simpa using hGroup⟩
  obtain ⟨found, hFound⟩ := Option.isSome_iff_exists.mp hFind
  exact ⟨found.2, by rw [connOf, hFound, Option.map_some]⟩

theorem connOf_mem {p : Pool} {t : Fin k} {conn : Ptr} (h : connOf p t = some conn) :
    (t.val, conn) ∈ p.held := by
  obtain ⟨entry, hFind, rfl⟩ := Option.map_eq_some_iff.mp h
  have hGroup : entry.1 = t.val := by simpa using List.find?_some hFind
  exact hGroup ▸ List.mem_of_find?_eq_some hFind

/-! ## The limit of the number of connections -/

theorem total_step {a : Action k} (hInv : HandlesInv s) (hLe : s.pool.total ≤ k + cfg.minSize)
    (h : step cfg ranges s a = some s') : s'.pool.total ≤ k + cfg.minSize := by
  have hHandles := (handlesInv_step hInv h).length_le
  have hBefore := hInv.length_le
  have hPool {a : ConnPool.Action} {p : Pool} (hStep : ConnPool.step cfg s.pool a = some p)
      (hHeld : p.held.length ≤ k) : p.total ≤ k + cfg.minSize := by
    rcases step_total hStep with hSame | ⟨hCreates, hMore⟩ | ⟨-, hLess⟩
    · omega
    · cases a with
      | getConn =>
          -- the queue was empty, so that every connection is behind a handle
          have hEmpty : s.pool.connQ = [] := hCreates
          obtain ⟨-, conn, hNew⟩ := getConn_held hStep
          rw [hNew, List.length_cons] at hHeld
          unfold Pool.total at hMore ⊢
          rw [hEmpty, List.length_nil] at hMore
          omega
      | produce =>
          have hShort : s.pool.connQ.length < cfg.minSize := hCreates
          unfold Pool.total at hMore ⊢
          omega
      | _ => exact absurd hCreates id
    · omega
  cases step_cases h with
  | getConn _ _ hStep => exact hPool hStep hHandles
  | update => exact hLe
  | release _ hStep => exact hPool hStep hHandles
  | pool _ hStep => exact hPool hStep hHandles

/-! ## Which statements have been issued -/

/-- The rows of a thread's statements, in the order of the calls. -/
def issuedBy (us : List (Update k)) (t : Fin k) : List Nat :=
  (us.filter fun u => u.client = t).map Update.i

/-- How far a thread has got with its statements. -/
def ClientPc.pos : ClientPc → Nat
  | .loop i => i
  | .holding i => i
  | .updated i => i + 1

/-- The thread has issued the statements in front of its position, and no others. -/
structure Issued (range : Nat × Nat) (pc : ClientPc) (rows : List Nat) : Prop where
  low : range.1 ≤ pc.pos
  high : pc.pos ≤ max range.1 range.2
  inside : ∀ i, pc = .holding i ∨ pc = .updated i → i < range.2
  rows : rows = List.range' range.1 (pc.pos - range.1)

theorem Issued.keep {range : Nat × Nat} {pc pc' : ClientPc} {rows : List Nat}
    (h : Issued range pc rows) (hPos : pc'.pos = pc.pos)
    (hInside : ∀ i, pc' = .holding i ∨ pc' = .updated i → i < range.2) : Issued range pc' rows := by
  obtain ⟨hLow, hHigh, -, hRows⟩ := h
  rw [← hPos] at hLow hHigh hRows
  exact ⟨hLow, hHigh, hInside, hRows⟩

theorem Issued.next {range : Nat × Nat} {i : Nat} {rows : List Nat}
    (h : Issued range (.holding i) rows) : Issued range (.updated i) (rows ++ [i]) := by
  have hLow : range.1 ≤ i := h.low
  have hMore := h.inside i (.inl rfl)
  have hRows : rows = List.range' range.1 (i - range.1) := h.rows
  refine ⟨?_, ?_, fun i' hEq => ?_, ?_⟩
  · show range.1 ≤ i + 1
    omega
  · show i + 1 ≤ max range.1 range.2
    omega
  · obtain rfl : i = i' := by simpa using hEq
    exact hMore
  · have hCount : (ClientPc.updated i).pos - range.1 = i - range.1 + 1 := by
      show i + 1 - range.1 = i - range.1 + 1
      omega
    have hLast : range.1 + (i - range.1) = i := by omega
    rw [hCount, List.range'_1_concat, hLast, ← hRows]

def IssuedInv (ranges : Ranges k) (s : State k) : Prop :=
  ∀ t, Issued (ranges t) (s.pc t) (issuedBy s.updates t)

theorem issuedInv_init {p₀ : Pool} : IssuedInv ranges (init ranges p₀) := by
  intro t
  refine ⟨Nat.le_refl _, Nat.le_max_left _ _, by simp [init], ?_⟩
  simp [issuedBy, init, ClientPc.pos]

theorem issuedBy_append_self (us : List (Update k)) (u : Update k) :
    issuedBy (us ++ [u]) u.client = issuedBy us u.client ++ [u.i] := by
  simp [issuedBy]

theorem issuedBy_append_of_ne (us : List (Update k)) {u : Update k} {t : Fin k}
    (h : u.client ≠ t) : issuedBy (us ++ [u]) t = issuedBy us t := by
  simp [issuedBy, h]

theorem issuedInv_step {a : Action k} (hInv : IssuedInv ranges s)
    (h : step cfg ranges s a = some s') : IssuedInv ranges s' := by
  intro j
  have hOld := hInv j
  cases step_cases h with
  | @getConn t _ _ i _ hPc hMore _ =>
      show Issued (ranges j) (Function.update s.pc t (.holding i) j) (issuedBy s.updates j)
      by_cases hHere : j = t
      · subst hHere
        rw [Function.update_self]
        rw [hPc] at hOld
        refine hOld.keep rfl fun i' hEq => ?_
        obtain rfl : i = i' := by simpa using hEq
        exact hMore
      · rwa [Function.update_of_ne hHere]
  | @update t answer i conn hPc _ =>
      show Issued (ranges j) (Function.update s.pc t (.updated i) j) (issuedBy (s.updates ++ [_]) j)
      by_cases hHere : j = t
      · subst hHere
        rw [Function.update_self, issuedBy_append_self]
        rw [hPc] at hOld
        exact hOld.next
      · rw [Function.update_of_ne hHere, issuedBy_append_of_ne _ (Ne.symm hHere)]
        exact hOld
  | @release t _ i _ hPc _ =>
      show Issued (ranges j) (Function.update s.pc t (.loop (i + 1)) j) (issuedBy s.updates j)
      by_cases hHere : j = t
      · subst hHere
        rw [Function.update_self]
        rw [hPc] at hOld
        exact hOld.keep rfl (by simp)
      · rwa [Function.update_of_ne hHere]
  | pool => exact hOld

/-! ## The work that is left -/

/-- The calls that a thread still makes. -/
def ClientPc.left (stop : Nat) : ClientPc → Nat
  | .loop i => 3 * (stop - i)
  | .holding i => 3 * (stop - i) - 1
  | .updated i => 3 * (stop - i) - 2

section Left

variable {stop i : Nat}

@[simp] theorem left_loop : (ClientPc.loop i).left stop = 3 * (stop - i) := rfl

@[simp] theorem left_holding : (ClientPc.holding i).left stop = 3 * (stop - i) - 1 := rfl

@[simp] theorem left_updated : (ClientPc.updated i).left stop = 3 * (stop - i) - 2 := rfl

end Left

def work (ranges : Ranges k) (s : State k) : Nat :=
  ∑ t, (s.pc t).left (ranges t).2

/-- One thread moves. -/
theorem work_update (ranges : Ranges k) (pc : Fin k → ClientPc) (t : Fin k) (at' : ClientPc) :
    (∑ j, (Function.update pc t at' j).left (ranges j).2) + (pc t).left (ranges t).2 =
      (∑ j, (pc j).left (ranges j).2) + at'.left (ranges t).2 := by
  have hRest : ∑ j ∈ Finset.univ.erase t, (Function.update pc t at' j).left (ranges j).2 =
      ∑ j ∈ Finset.univ.erase t, (pc j).left (ranges j).2 := by
    refine Finset.sum_congr rfl fun j hMem => ?_
    rw [Function.update_of_ne (Finset.ne_of_mem_erase hMem)]
  have hNew := Finset.add_sum_erase Finset.univ
    (fun j => (Function.update pc t at' j).left (ranges j).2) (Finset.mem_univ t)
  have hOld := Finset.add_sum_erase Finset.univ (fun j => (pc j).left (ranges j).2)
    (Finset.mem_univ t)
  simp only [Function.update_self] at hNew
  omega

/-- **Each own step** is one call less; the pool's threads make no work. -/
theorem work_step {a : Action k} (hInv : IssuedInv ranges s) (h : step cfg ranges s a = some s') :
    work ranges s' + (if a.Own then 1 else 0) = work ranges s := by
  cases step_cases h with
  | @getConn t _ _ i _ hPc hMore _ =>
      have hMove := work_update ranges s.pc t (.holding i)
      have hOld : (s.pc t).left (ranges t).2 = 3 * ((ranges t).2 - i) := by rw [hPc, left_loop]
      rw [left_holding] at hMove
      show (∑ j, (Function.update s.pc t (.holding i) j).left (ranges j).2) + 1 = work ranges s
      unfold work
      omega
  | @update t answer i conn hPc _ =>
      have hMove := work_update ranges s.pc t (.updated i)
      have hMore := (hInv t).inside i (.inl hPc)
      have hOld : (s.pc t).left (ranges t).2 = 3 * ((ranges t).2 - i) - 1 := by
        rw [hPc, left_holding]
      rw [left_updated] at hMove
      show (∑ j, (Function.update s.pc t (.updated i) j).left (ranges j).2) + 1 = work ranges s
      unfold work
      omega
  | @release t _ i _ hPc _ =>
      have hMove := work_update ranges s.pc t (.loop (i + 1))
      have hMore := (hInv t).inside i (.inr hPc)
      have hOld : (s.pc t).left (ranges t).2 = 3 * ((ranges t).2 - i) - 2 := by
        rw [hPc, left_updated]
      rw [left_loop] at hMove
      show (∑ j, (Function.update s.pc t (.loop (i + 1)) j).left (ranges j).2) + 1 =
        work ranges s
      unfold work
      omega
  | pool => rfl

/-! ## Nothing blocks a thread -/

theorem exists_possible (p : Pool) : ∃ who : Notified, who.Possible p := by
  by_cases hProducer : p.producerWaits = true
  · exact ⟨.producer, hProducer⟩
  · by_cases hClients : 0 < p.clientWaits
    · exact ⟨.client, hClients⟩
    · exact ⟨.nobody, by simpa using hProducer, by omega⟩

/-- With `maxSize` at least 1, `getConn` returns at once. -/
theorem exists_getConn {p : Pool} {group : Nat} (hMax : 1 ≤ cfg.maxSize)
    (hGroup : group ∉ p.held.map Prod.fst) :
    ∃ new who p', ConnPool.step cfg p (.getConn group new who) = some p' := by
  obtain ⟨who, hWho⟩ := exists_possible p
  obtain ⟨new, hFresh⟩ := exists_fresh p
  refine ⟨new, who, ?_⟩
  simp only [ConnPool.step]
  rw [if_pos ⟨hGroup, hWho, fun _ => hFresh⟩]
  unfold getConn
  cases hQueue : p.connQ with
  | nil => simp [addConn, handOut, hQueue, hMax]
  | cons conn rest => simp [handOut, hQueue]

theorem exists_release (cfg : Config) {p : Pool} {t : Fin k} {conn : Ptr}
    (h : connOf p t = some conn) :
    ∃ p', ConnPool.step cfg p (.release t p.clock) = some p' := by
  obtain ⟨entry, hFind, rfl⟩ := Option.map_eq_some_iff.mp h
  simp only [ConnPool.step, Nat.le_refl, if_true, release, hFind]
  exact ⟨_, rfl⟩

/-- Where no thread can go on, all have returned from `op2`. -/
theorem stuck_returned (hMax : 1 ≤ cfg.maxSize) (hInv : HandlesInv s)
    (hStuck : Stuck (step cfg ranges) Action.Own s) (t : Fin k) :
    ∃ i, s.pc t = .loop i ∧ (ranges t).2 ≤ i := by
  cases hPc : s.pc t with
  | loop i =>
      refine ⟨i, rfl, Nat.le_of_not_lt fun hMore => ?_⟩
      have hGroup : t.val ∉ s.pool.held.map Prod.fst := by
        intro hMem
        obtain ⟨j, hSame, hInside⟩ := (hInv.mem_iff _).mp hMem
        obtain rfl : t = j := Fin.ext hSame
        rw [hPc] at hInside
        exact hInside
      obtain ⟨new, who, p, hPool⟩ := exists_getConn hMax hGroup
      have hNone := hStuck (.getConn t new who) trivial
      simp [step, hPc, hMore, hPool] at hNone
  | holding i =>
      obtain ⟨conn, hConn⟩ := hInv.connOf_isSome (t := t) (by rw [hPc]; trivial)
      have hNone := hStuck (.update t true) trivial
      simp [step, hPc, hConn] at hNone
  | updated i =>
      obtain ⟨conn, hConn⟩ := hInv.connOf_isSome (t := t) (by rw [hPc]; trivial)
      obtain ⟨p, hPool⟩ := exists_release cfg hConn
      have hNone := hStuck (.release t s.pool.clock) trivial
      simp [step, hPc, hPool] at hNone

/-! ## What the table gets -/

/-- Every statement is one of one thread. -/
theorem countP_eq_sum (us : List (Update k)) (i : Nat) :
    us.countP (fun u => u.i = i) = ∑ t, (issuedBy us t).count i := by
  induction us with
  | nil => simp [issuedBy]
  | cons u us ih =>
      have hEach (t : Fin k) : (issuedBy (u :: us) t).count i =
          (issuedBy us t).count i + if u.client = t ∧ u.i = i then 1 else 0 := by
        by_cases hClient : u.client = t
        · simp [issuedBy, hClient, List.count_cons]
        · simp [issuedBy, hClient]
      rw [List.countP_cons, ih, Finset.sum_congr rfl fun t _ => hEach t, Finset.sum_add_distrib]
      congr 1
      by_cases hRow : u.i = i
      · simp [hRow]
      · simp [hRow]

/-- The threads whose range has the row `i`. -/
def wanting (ranges : Ranges k) (i : Nat) : Nat :=
  (Finset.univ.filter fun t => (ranges t).1 ≤ i ∧ i < (ranges t).2).card

theorem count_range' (first stop i : Nat) :
    (List.range' first (stop - first)).count i = if first ≤ i ∧ i < stop then 1 else 0 := by
  split
  · rename_i hIn
    exact List.count_eq_one_of_mem List.nodup_range' (List.mem_range'_1.mpr (by omega))
  · rename_i hOut
    refine List.count_eq_zero_of_not_mem fun hMem => hOut ?_
    have hBounds := List.mem_range'_1.mp hMem
    omega

/-- Every `connect` succeeds, and the server takes every statement. -/
def Action.Smooth : Action k → Prop
  | .getConn _ new _ => new.connectOk = true
  | .update _ answer => answer = true
  | .release _ _ => True
  | .pool a =>
      match a with
      | .produce new => new.connectOk = true
      | _ => True

theorem smooth_pool {a : ConnPool.Action} (h : (Action.pool a : Action k).Smooth)
    (hBackground : Background a) (p : Pool) : ConnectsOk cfg p a := by
  cases a with
  | produce new => exact fun _ => h
  | producerWake | recycle => trivial
  | getConn | getConnWait | clientWake | release => exact absurd hBackground id

/-- All connections are established, and all statements have been accepted. -/
structure SmoothInv (s : State k) : Prop where
  connected : ∀ conn ∈ s.pool.live, s.pool.connected conn = true
  accepted : ∀ u ∈ s.updates, u.ok = true

theorem smoothInv_step {a : Action k} (hPlaced : PlacedInv s.pool) (hInv : SmoothInv s)
    (hSmooth : a.Smooth) (h : step cfg ranges s a = some s') : SmoothInv s' := by
  obtain ⟨hConnected, hAccepted⟩ := hInv
  cases step_cases h with
  | getConn _ _ hPool =>
      exact ⟨allConnected_step hConnected hPool fun _ => hSmooth, hAccepted⟩
  | update _ hConn =>
      refine ⟨hConnected, fun u hMem => ?_⟩
      rcases List.mem_append.mp hMem with hOld | hNew
      · exact hAccepted u hOld
      · obtain rfl := List.mem_singleton.mp hNew
        have hAnswer : _ = true := hSmooth
        simp [hAnswer, hConnected _ (hPlaced.held_live (connOf_mem hConn))]
  | release _ hPool => exact ⟨allConnected_step hConnected hPool trivial, hAccepted⟩
  | pool hBackground hPool =>
      exact ⟨allConnected_step hConnected hPool (smooth_pool hSmooth hBackground _), hAccepted⟩

/-! ## Every schedule -/

section Runs

variable {p₀ : Pool} {as : List (Action k)}

theorem invs_reach (hInit : Constructed cfg p₀)
    (hRun : run (step cfg ranges) (init ranges p₀) as = some s) :
    HandlesInv s ∧ s.pool.total ≤ k + cfg.minSize ∧ IssuedInv ranges s := by
  refine (reachable_of_run hRun).invariant
    (P := fun s => HandlesInv s ∧ s.pool.total ≤ k + cfg.minSize ∧ IssuedInv ranges s)
    ⟨?_, ?_, issuedInv_init⟩ ?_
  · obtain ⟨cs, -, hFill⟩ := hInit
    exact handlesInv_init (fill_connQ hFill).2
  · have hTotal := total_of_constructed hInit
    show p₀.total ≤ k + cfg.minSize
    omega
  · rintro s a s' ⟨hHandles, hTotal, hIssued⟩ - hStep
    exact ⟨handlesInv_step hHandles hStep, total_step hHandles hTotal hStep,
      issuedInv_step hIssued hStep⟩

/-- The calls made and the calls left. -/
theorem calls_and_work (hInit : Constructed cfg p₀)
    (hRun : run (step cfg ranges) (init ranges p₀) as = some s) :
    as.countP (fun a => a.Own) + work ranges s =
      3 * ∑ t, ((ranges t).2 - (ranges t).1) := by
  refine run_invariant (P := fun as s => as.countP (fun a => a.Own) + work ranges s =
    3 * ∑ t, ((ranges t).2 - (ranges t).1)) hRun ?_ ?_
  · rw [List.countP_nil, Nat.zero_add, Finset.mul_sum]
    rfl
  · intro as s a s' hBefore hWork hStep
    have hLess := work_step (invs_reach hInit hBefore).2.2 hStep
    rw [List.countP_append, List.countP_singleton]
    simp only [decide_eq_true_eq]
    omega

theorem smoothInv_run (hInit : Constructed cfg p₀)
    (hConnected : ∀ conn ∈ p₀.live, p₀.connected conn = true) (hSmooth : ∀ a ∈ as, a.Smooth)
    (hRun : run (step cfg ranges) (init ranges p₀) as = some s) : SmoothInv s := by
  refine run_invariant (P := fun as s => (∀ a ∈ as, a.Smooth) → SmoothInv s) hRun ?_ ?_ hSmooth
  · exact fun _ => ⟨hConnected, by simp [init]⟩
  · intro as s a s' hBefore hInv hStep hAll
    have hPlaced := placedInv_reach hInit (pool_reach hBefore)
    exact smoothInv_step hPlaced (hInv fun b hMem => hAll b (List.mem_append_left _ hMem))
      (hAll a (List.mem_append_right _ (List.mem_singleton.mpr rfl))) hStep

theorem Issued.isPrefix {range : Nat × Nat} {pc : ClientPc} {rows : List Nat}
    (h : Issued range pc rows) : rows <+: List.range' range.1 (range.2 - range.1) := by
  have hHigh := h.high
  obtain ⟨more, hMore⟩ : ∃ more, range.2 - range.1 = (pc.pos - range.1) + more :=
    ⟨range.2 - range.1 - (pc.pos - range.1), by omega⟩
  rw [h.rows, hMore]
  exact ⟨_, List.range'_append_1⟩

/-- The handle of a thread leads to a connection that nobody else has. -/
theorem handle_alone (hPlaced : PlacedInv s.pool) (hHandles : HandlesInv s) {t : Fin k}
    (hInside : (s.pc t).Inside) :
    ∃ conn ∈ s.pool.live, connOf s.pool t = some conn ∧ conn ∉ s.pool.connQ ∧
      ∀ t', connOf s.pool t' = some conn → t' = t := by
  obtain ⟨conn, hConn⟩ := hHandles.connOf_isSome hInside
  have hMem := connOf_mem hConn
  refine ⟨conn, hPlaced.held_live hMem, hConn, fun hIdle => ?_, fun t' hConn' => ?_⟩
  · exact hPlaced.connQ_disjoint_held hIdle hMem
  · exact Fin.ext (hPlaced.group_unique (connOf_mem hConn') hMem)

/-- **What every schedule comes to.**  There are never fewer than `minSize` connections
and never more than one for each thread and `minSize` others; a thread's connection is its
own; no thread ever waits, so that all calls are made in the end, each row by the threads
that have it in their range, and no handle is left.  If every `connect` succeeds and
the server takes every statement, every row gets into the table. -/
theorem inserts_complete (hMax : 1 ≤ cfg.maxSize) (hInit : Constructed cfg p₀)
    (hRun : run (step cfg ranges) (init ranges p₀) as = some s) :
    (cfg.minSize ≤ s.pool.total ∧ s.pool.total ≤ k + cfg.minSize) ∧
    (∀ t, issuedBy s.updates t <+: List.range' (ranges t).1 ((ranges t).2 - (ranges t).1)) ∧
    (∀ t, (s.pc t).Inside → ∃ conn ∈ s.pool.live, connOf s.pool t = some conn ∧
      conn ∉ s.pool.connQ ∧ ∀ t', connOf s.pool t' = some conn → t' = t) ∧
    as.countP (fun a => a.Own) + work ranges s =
      3 * ∑ t, ((ranges t).2 - (ranges t).1) ∧
    ((∀ conn ∈ p₀.live, p₀.connected conn = true) → (∀ a ∈ as, a.Smooth) →
      ∀ u ∈ s.updates, u.ok = true) ∧
    (Stuck (step cfg ranges) Action.Own s →
      work ranges s = 0 ∧ s.pool.held = [] ∧
      (∀ t, issuedBy s.updates t = List.range' (ranges t).1 ((ranges t).2 - (ranges t).1)) ∧
      ∀ i, s.updates.countP (fun u => u.i = i) = wanting ranges i) := by
  obtain ⟨hHandles, hTotal, hIssued⟩ := invs_reach hInit hRun
  have hPool := pool_reach hRun
  refine ⟨⟨minSize_le_total hInit hPool, hTotal⟩, fun t => (hIssued t).isPrefix,
    fun t => handle_alone (placedInv_reach hInit hPool) hHandles, calls_and_work hInit hRun,
    fun hConnected hSmooth => (smoothInv_run hInit hConnected hSmooth hRun).accepted,
    fun hStuck => ?_⟩
  have hReturned := stuck_returned hMax hHandles hStuck
  have hRows (t : Fin k) :
      issuedBy s.updates t = List.range' (ranges t).1 ((ranges t).2 - (ranges t).1) := by
    obtain ⟨i, hPc, hEnd⟩ := hReturned t
    have hAt := hIssued t
    rw [hPc] at hAt
    have hLow : (ranges t).1 ≤ i := hAt.low
    have hHigh : i ≤ max (ranges t).1 (ranges t).2 := hAt.high
    have hPos : (ClientPc.loop i).pos - (ranges t).1 = (ranges t).2 - (ranges t).1 := by
      show i - (ranges t).1 = (ranges t).2 - (ranges t).1
      omega
    rw [hAt.rows, hPos]
  refine ⟨?_, ?_, hRows, fun i => ?_⟩
  · refine Finset.sum_eq_zero fun t _ => ?_
    obtain ⟨i, hPc, hEnd⟩ := hReturned t
    rw [hPc, left_loop]
    omega
  · rw [List.eq_nil_iff_forall_not_mem]
    intro entry hMem
    obtain ⟨t, -, hInside⟩ := (hHandles.mem_iff _).mp (List.mem_map_of_mem hMem)
    obtain ⟨i, hPc, -⟩ := hReturned t
    rw [hPc] at hInside
    exact hInside
  · rw [countP_eq_sum, Finset.sum_congr rfl fun t _ => by rw [hRows t, count_range']]
    exact (Finset.card_filter _ _).symm

end Runs

/-! ## Two threads with a row each -/

def twoRows : Ranges 2 := fun t => (t.val, t.val + 1)

def onePool : Pool := addConn emptyPool ⟨1, true, 0⟩

theorem onePool_constructed : Constructed ⟨1, 1, 1000⟩ onePool :=
  ⟨[⟨1, true, 0⟩], rfl, rfl⟩

/-- The producer refills the queue behind each `getConn`. -/
def fullTrace : List (Action 2) :=
  [.getConn 0 ⟨0, true, 0⟩ .nobody, .pool (.produce ⟨2, true, 0⟩),
    .getConn 1 ⟨0, true, 0⟩ .nobody, .pool (.produce ⟨3, true, 0⟩),
    .update 0 true, .update 1 true, .release 0 5, .release 1 6]

/-- With `maxSize` 1 there are three connections, as many as the theorem allows. -/
theorem inserts_complete_fullTrace :
    ∃ s, run (step ⟨1, 1, 1000⟩ twoRows) (init twoRows onePool) fullTrace = some s ∧
      s.pool.total = 3 ∧ s.pool.total ≤ 2 + 1 ∧ (∀ u ∈ s.updates, u.ok = true) ∧
      work twoRows s = 0 := by
  have hSome : ((run (step ⟨1, 1, 1000⟩ twoRows) (init twoRows onePool) fullTrace).map
      fun s => s.pool.total) = some 3 := by decide
  obtain ⟨s, hRun, hTotal⟩ := Option.map_eq_some_iff.mp hSome
  obtain ⟨⟨-, hLimit⟩, -, -, hCalls, hAccepted, -⟩ :=
    inserts_complete (by decide) onePool_constructed hRun
  refine ⟨s, hRun, hTotal, hLimit, hAccepted (by decide) ?_, ?_⟩
  · simp [fullTrace, Action.Smooth]
  · have hCount : fullTrace.countP (fun a => a.Own) = 6 := by decide
    rw [hCount] at hCalls
    have hSum : ∑ t, ((twoRows t).2 - (twoRows t).1) = 2 := by decide
    omega

end Inserts
end ConnPool
end LinuxCppLearn
