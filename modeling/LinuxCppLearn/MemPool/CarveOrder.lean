import LinuxCppLearn.MemPool.Simulation

/-!
# What is taken from one block does not overlap

A block hands out its memory upwards, so that what is taken from it later lies
above what was taken before, until the next reset.  A search that does not stay
inside may put a header over the structure of another node, and from then on
that node hands out memory again that is in use.

* `reach_models` — a run of the memory of bytes whose searches stay inside is a
  run of typed structures.
* `carves_ordered_if_inside` — its blocks hand out their memory upwards.
* `carves_overlap` — a run in which a block hands out the same memory twice.
-/

namespace LinuxCppLearn
namespace MemPool
namespace Bytes

open ByteMemory Regions LinkedChain StepSystem

/-- The search of the call comes to no node that overshoots. -/
def StaysInside (f : Pool) (a : Action) : Prop :=
  MemPool.StaysInside f.view a

variable {f f₀ : Pool} {s s₀ : MemPool.Pool} {nodes larges : List Nat} {size n p : Nat}

/-! ## Searches on both sides -/

theorem SameSystem.grants {heap heap' : Heap} (h : SameSystem heap heap') (alignment n : Nat) :
    heap.Grants alignment n ↔ heap'.Grants alignment n := by
  obtain ⟨node, header, answer, asked, live, calls⟩ := heap
  obtain ⟨node', header', answer', asked', live', calls'⟩ := heap'
  obtain ⟨hAnswer, hAsked, hLive, -⟩ := h
  simp only at hAnswer hAsked hLive
  subst hAnswer hAsked hLive
  exact Iff.rfl

theorem Refines.meets (h : Refines f s nodes larges)
    (hNext : ∀ b ∈ nodes, (s.node b).next = 0 ∨ (s.node b).next ∈ nodes)
    (hMeets : MeetsOvershoot s.node n p) (hMem : p ∈ nodes) :
    MeetsOvershoot (nodeAt f.mem) n p := by
  induction hMeets with
  | @here p hOver =>
      apply MeetsOvershoot.here
      unfold Overshoots at hOver ⊢
      rwa [h.node_eq p hMem]
  | @later p hFull hMore hRest ih =>
      have hSame := h.node_eq p hMem
      have hLater := ih ((hNext p hMem).resolve_left hMore)
      apply MeetsOvershoot.later
      · unfold HasRoom at hFull ⊢
        rwa [hSame]
      · rwa [hSame]
      · rwa [hSame]

theorem Models.smallRequest_eq (h : Models size f s nodes larges []) (op : Op) :
    smallRequest f.view op = smallRequest s op := by
  have hMax : f.view.max = s.max := h.refines.max_eq
  have hGrants : ∀ alignment n, f.view.Grants alignment n ↔ s.Grants alignment n :=
    h.refines.system.grants
  have hSlot : freeSlot f.view.header 5 f.view.large = freeSlot s.header 5 s.large := by
    show freeSlot (headerAt f.mem) 5 (poolAt f.mem f.addr).large = _
    rw [h.refines.large_eq]
    exact freeSlot_refines h.refines h.header_next h.inv.headers.start_mem
  cases op with
  | alloc n => simp only [smallRequest, hMax, hGrants, hSlot]
  | calloc n => simp only [smallRequest, hMax, hGrants, hSlot]
  | memalign n alignment => simp only [smallRequest, hMax, hGrants]
  | free p => rfl
  | reset => rfl

theorem Models.stays_inside (h : Models size f s nodes larges []) {a : Action}
    (hInside : StaysInside f a) : MemPool.StaysInside s a := by
  intro k hRequest hMeets
  rw [← h.smallRequest_eq] at hRequest
  apply hInside k hRequest
  show MeetsOvershoot (nodeAt f.mem) k (poolAt f.mem f.addr).current
  rw [h.refines.current_eq]
  exact h.refines.meets h.node_next hMeets h.inv.current_mem

/-! ## Runs -/

/-- What `mp_create_pool` writes at `p`. -/
theorem created_written (mem : Memory) {max x y : Nat} (hMax : max < 2 ^ 64)
    (hHead : p + sizeofPool < 2 ^ 64) (hLast : x < 2 ^ 64) (hEnd : y < 2 ^ 64) :
    let mem' := setFailed (setEnd (setLast
      (setLarge (setCurrent (setMax mem p max) p (p + sizeofPool)) p 0)
      (p + sizeofPool) x) (p + sizeofPool) y) (p + sizeofPool) 0
    poolAt mem' p = ⟨max, p + sizeofPool, 0⟩ ∧
      nodeAt mem' (p + sizeofPool) =
        { nodeAt mem (p + sizeofPool) with last := x, end_ := y, failed := 0 } := by
  intro mem'
  have hZero : 0 < 2 ^ 64 := by decide
  have hApart : Region.Apart ⟨p, sizeofPool⟩ ⟨p + sizeofPool, sizeofNode⟩ := .inl (Nat.le_refl _)
  constructor
  · have hNode := ((setLast_outside (setLarge (setCurrent (setMax mem p max) p (p + sizeofPool)) p 0)
      (p + sizeofPool) x).trans (setEnd_outside _ (p + sizeofPool) y)).trans
      (setFailed_outside _ (p + sizeofPool) 0)
    rw [poolAt_eq hNode hApart.symm, poolAt_setLarge hZero, poolAt_setCurrent hHead,
      poolAt_setMax hMax]
  · have hPool := ((setMax_outside mem p max).trans (setCurrent_outside _ p (p + sizeofPool))).trans
      (setLarge_outside _ p 0)
    rw [nodeAt_setFailed hZero, nodeAt_setEnd hEnd, nodeAt_setLast hLast, nodeAt_eq hPool hApart]

theorem create_models {mem : Memory} {answer : Nat → Nat}
    (hSize : size + (sizeofPool + sizeofNode) < 2 ^ 64)
    (hCreate : mpCreatePool (Ram.start mem answer) size = some f₀)
    (hNull : (nodeAt f₀.mem f₀.head).next = 0) :
    ∃ s₀, MemPool.mpCreatePool (Heap.start (nodeAt mem) (headerAt mem) answer) size = some s₀ ∧
      (s₀.node s₀.head).next = 0 ∧ Models size f₀ s₀ [s₀.head] [] [] := by
  unfold mpCreatePool at hCreate
  rcases hAsk : (Heap.start (nodeAt mem) (headerAt mem) answer).posixMemalign mpAlignment
    (ptrAdd size (sizeofPool + sizeofNode)) with ⟨p, t⟩
  have hTyped : (Ram.start mem answer).typed = Heap.start (nodeAt mem) (headerAt mem) answer := rfl
  simp only [Ram.posixMemalign, hTyped, hAsk] at hCreate
  split at hCreate
  · simp at hCreate
  · rename_i hPtr
    have hZero : 0 < 2 ^ 64 := by decide
    have hWord : ptrAdd p (sizeofPool + sizeofNode) < 2 ^ 64 := Nat.mod_lt _ hZero
    have hWord' : ptrAdd (ptrAdd p (sizeofPool + sizeofNode)) size < 2 ^ 64 := Nat.mod_lt _ hZero
    have hMax : (if size < mpMaxAllocFromPool then size else mpMaxAllocFromPool) < 2 ^ 64 := by
      have hPage : mpMaxAllocFromPool = 4095 := rfl
      split <;> omega
    rw [nodeAt_setLast hWord] at hCreate
    obtain rfl := Option.some.inj hCreate
    have hRun : MemPool.mpCreatePool (Heap.start (nodeAt mem) (headerAt mem) answer) size = some {
        toHeap := { t with
          node := Function.update t.node (p + sizeofPool)
            { t.node (p + sizeofPool) with
              last := ptrAdd p (sizeofPool + sizeofNode)
              end_ := ptrAdd (ptrAdd p (sizeofPool + sizeofNode)) size
              failed := 0 } }
        addr := p
        max := if size < mpMaxAllocFromPool then size else mpMaxAllocFromPool
        current := p + sizeofPool
        large := 0
        carved := [] } := by
      unfold MemPool.mpCreatePool
      simp only [hAsk, if_neg hPtr]
    obtain ⟨hNode, hAnswer, hTop⟩ :
        t.node = nodeAt mem ∧ t.answer = answer ∧ p + sizeofPool < 2 ^ 64 := by
      rcases request_cases hAsk with ⟨hFailed, -, -⟩ | ⟨-, hGrants, hBase, rfl⟩
      · exact absurd hFailed hPtr
      · have hInside := hGrants.2.2.1.2.2
        have hLen : ((Heap.start (nodeAt mem) (headerAt mem) answer).proposal
            (ptrAdd size (sizeofPool + sizeofNode))).len =
              max (ptrAdd size (sizeofPool + sizeofNode)) 1 := rfl
        have hPool : sizeofPool = 24 := rfl
        have hStruct : sizeofNode = 32 := rfl
        have hBound : addressTop < 2 ^ 64 := by decide
        rw [← hBase, hLen, ptrAdd_eq hSize] at hInside
        exact ⟨rfl, rfl, by omega⟩
    obtain ⟨hPoolAt, hNodeAt⟩ := created_written mem hMax hTop hWord hWord'
    have hFirst : Function.update t.node (p + sizeofPool)
        { t.node (p + sizeofPool) with
          last := ptrAdd p (sizeofPool + sizeofNode)
          end_ := ptrAdd (ptrAdd p (sizeofPool + sizeofNode)) size
          failed := 0 } (p + sizeofPool) =
        { nodeAt mem (p + sizeofPool) with
          last := ptrAdd p (sizeofPool + sizeofNode)
          end_ := ptrAdd (ptrAdd p (sizeofPool + sizeofNode)) size
          failed := 0 } := by
      rw [Function.update_self, hNode]
    have hNull' : (nodeAt mem (p + sizeofPool)).next = 0 := by
      have hRead := congrArg MpNode.next hNodeAt
      exact hRead.symm.trans hNull
    refine ⟨_, hRun, ?_, mpCreatePool_inv hSize hRun ?_, ⟨rfl, hPoolAt, ?_, by simp, ?_⟩, by simp,
      Stacked.empty _ _⟩
    · exact (congrArg MpNode.next hFirst).trans hNull'
    · exact (congrArg MpNode.next hFirst).trans hNull'
    · intro b hMem
      obtain rfl := List.mem_singleton.mp hMem
      exact hNodeAt.trans hFirst.symm
    · exact ⟨hAnswer.symm, rfl, rfl, rfl⟩

/-- **Runs on bytes are runs on typed structures** while the searches stay
inside. -/
theorem reach_models (hInit : ∃ nodes larges, Models size f₀ s₀ nodes larges [])
    (h : Reach step StaysInside f₀ f) :
    ∃ s nodes larges, Reach MemPool.step MemPool.StaysInside s₀ s ∧
      Models size f s nodes larges [] := by
  refine h.invariant (P := fun f => ∃ s nodes larges,
    Reach MemPool.step MemPool.StaysInside s₀ s ∧ Models size f s nodes larges []) ?_ ?_
  · obtain ⟨nodes, larges, hModels⟩ := hInit
    exact ⟨s₀, nodes, larges, Reach.start, hModels⟩
  · rintro f a f' ⟨s, nodes, larges, hReach, hModels⟩ hInside hStep
    obtain ⟨⟨m, g⟩, hRun, rfl⟩ := Option.map_eq_some_iff.mp hStep
    have hInside' := hModels.stays_inside hInside
    obtain ⟨s', nodes', larges', hRun', hModels'⟩ := exec_models hModels hInside' hRun
    have hStep' : MemPool.step s a = some s' := Option.map_eq_some_iff.mpr ⟨(m, s'), hRun', rfl⟩
    exact ⟨s', nodes', larges', Reach.next a hReach hInside' hStep', hModels'⟩

/-- Regions taken from one block are disjoint, the later one above the earlier
one, and each is aligned and behind the structure of its block. -/
def CarvesOrdered (carves : List Carve) : Prop :=
  (carves.Pairwise fun later earlier => later.block = earlier.block →
    later.region.Apart earlier.region ∧
      earlier.region.base + earlier.region.len ≤ later.region.base) ∧
  ∀ c ∈ carves, c.region.base % 32 = 0 ∧ c.block + sizeofNode ≤ c.region.base

instance (carves : List Carve) : Decidable (CarvesOrdered carves) :=
  inferInstanceAs (Decidable (_ ∧ _))

theorem Stacked.carvesOrdered {carves : List Carve} {node : Nat → MpNode}
    (h : Stacked carves node nodes) : CarvesOrdered carves := by
  constructor
  · refine h.ordered.imp ?_
    intro later earlier hOrder hSame
    exact ⟨.inr (hOrder hSame), hOrder hSame⟩
  · intro c hMem
    obtain ⟨-, hLow, hAligned, -⟩ := h.inside c hMem
    exact ⟨hAligned, hLow⟩

/-- **Blocks hand out their memory upwards while the searches stay inside**, to
clients and for headers, from one reset to the next. -/
theorem carves_ordered_if_inside {mem : Memory} {answer : Nat → Nat}
    (hSize : size + (sizeofPool + sizeofNode) < 2 ^ 64)
    (hCreate : mpCreatePool (Ram.start mem answer) size = some f₀)
    (hNull : (nodeAt f₀.mem f₀.head).next = 0) (hReach : Reach step StaysInside f₀ f) :
    CarvesOrdered f.carves := by
  obtain ⟨s₀, -, -, hModels⟩ := create_models hSize hCreate hNull
  obtain ⟨s, nodes, larges, -, hModels'⟩ := reach_models ⟨_, _, hModels⟩ hReach
  exact hModels'.stacked.carvesOrdered

/-- The first node has room for what the call takes. -/
def FirstHasRoom (f : Pool) (a : Action) : Prop :=
  ∀ n ∈ smallRequest f.view a.1, HasRoom f.view.node n f.view.current

instance (f : Pool) (a : Action) : Decidable (FirstHasRoom f a) :=
  inferInstanceAs (Decidable (∀ n ∈ smallRequest f.view a.1, _))

/-- Zeroed memory and a system that grants every 64 kB. -/
def zeroedRam : Ram := Ram.start (fun _ => 0) fun k => 65536 * (k + 1)

/-- The pool of 4096 bytes that `main` creates. -/
def mainPool : Pool := (mpCreatePool zeroedRam 4096).get (by decide +kernel)

theorem mainPool_created : mpCreatePool zeroedRam 4096 = some mainPool := by
  simp [mainPool]

/-- The first two requests of `main`, of 512 bytes each. -/
theorem carves_ordered_if_inside_mainPool :
    ∃ f : Pool, f.carves = [⟨65560, ⟨66112, 512⟩⟩, ⟨65560, ⟨65600, 512⟩⟩] ∧ CarvesOrdered f.carves := by
  let calls : List Action := [(.alloc 512, 3), (.alloc 512, 3)]
  have hRun : run (guarded step FirstHasRoom) mainPool calls =
      some ((run (guarded step FirstHasRoom) mainPool calls).get (by decide +kernel)) := by simp
  have hReach := (reach_of_run_guarded hRun).mono fun f a hRoom =>
    (show StaysInside f a from staysInside_of_room hRoom)
  exact ⟨_, by decide +kernel,
    carves_ordered_if_inside (by decide) mainPool_created (by decide +kernel) hReach⟩

/-- A system that puts the third block of a pool of 4104 bytes right in front of
the second one. -/
def adjacentRam : Ram :=
  Ram.start (fun _ => 0) fun k => [65536, 200000, 131072, 126912, 300000].getD k 0

def adjacentPool : Pool := (mpCreatePool adjacentRam 4104).get (by decide +kernel)

theorem adjacentPool_created : mpCreatePool adjacentRam 4104 = some adjacentPool := by
  simp [adjacentPool]

/-- The first large request puts its header at 131104, at the start of the
second block.  The second one puts its header behind the end of the third block,
over the structure of the second: its `last` is the address of the first header
now, and its `end` that of the second large allocation. -/
def overwriteNode : List Action :=
  [(.alloc 4095, 6), (.alloc 5000, 6), (.alloc 4064, 6), (.alloc 4064, 6), (.alloc 40, 6),
    (.alloc 5000, 6), (.alloc 16, 6)]

/-- The last request gets the memory of the first header. -/
theorem carves_overlap :
    ∃ (size : Nat) (f₀ f : Pool), size + (sizeofPool + sizeofNode) < 2 ^ 64 ∧
      mpCreatePool adjacentRam size = some f₀ ∧ (nodeAt f₀.mem f₀.head).next = 0 ∧
      Reachable step f₀ f ∧ f.carves.head? = some ⟨131072, ⟨131104, 16⟩⟩ ∧
      ⟨131072, ⟨131104, 16⟩⟩ ∈ f.carves.tail ∧ ¬ CarvesOrdered f.carves := by
  have hRun : run step adjacentPool overwriteNode =
      some ((run step adjacentPool overwriteNode).get (by decide +kernel)) := by simp
  exact ⟨4104, adjacentPool, _, by decide, adjacentPool_created, by decide +kernel,
    reachable_of_run hRun, by decide +kernel, by decide +kernel, by decide +kernel⟩

end Bytes
end MemPool
end LinuxCppLearn
