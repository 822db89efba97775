import LinuxCppLearn.MemPool.CarveOrder
import LinuxCppLearn.MemPool.Reuse

/-!
# At most seven blocks are searched

`mp_alloc` starts its search at `current`, and `mp_alloc_block` moves `current`
on with the failures it counts: the nodes before `current` have failed six times
and are not looked at any more, and from `current` on there are at most seven,
whose counters fall.  Nothing else touches the counters, a reset included.

* `SearchBounded` — this, for the node list that a memory shows.
* `Windowed` — the exact counters, which every call keeps.
* `search_bounded_if_inside` — runs in the memory of bytes.
* `search_leaves_list` — a run in which a header is written over the pool
  structure, so that `current` points to no node.
-/

namespace LinuxCppLearn
namespace MemPool

open LinkedChain Regions StepSystem

/-! ## The counters from `current` on -/

/-- The list from `head` ends; the nodes in `front`, before `current`, have
failed six times; those from `current` on, at most seven, have failed at most
five times and less and less often.  So the search for a node ends within seven. -/
structure SearchBounded (node : Nat → MpNode) (head current : Nat) (front window : List Nat) :
    Prop where
  chain : Chain (nodeNext node) 0 head (front ++ window)
  current_first : window.head? = some current
  front_failed : ∀ h ∈ front, (node h).failed = 6
  falling : window.Pairwise fun h h' => (node h').failed ≤ (node h).failed
  failed_le : ∀ h ∈ window, (node h).failed ≤ 5
  length_le : window.length ≤ 7
  search_ends : ∀ n, ∃ q, findFit node n 7 current = some q

section Counters

variable {node node' : Nat → MpNode} {nodes front behind l : List Nat} {head current n p fuel : Nat}

theorem tally_falling (m : Nat) : (tally m).Pairwise fun k k' => k' ≤ k := by
  induction m with
  | zero => exact List.Pairwise.nil
  | succ m ih =>
      cases m with
      | zero => exact List.pairwise_singleton _ _
      | succ m =>
          refine List.pairwise_cons.mpr ⟨?_, ih⟩
          intro k hMem
          have hLe := tally_le hMem
          omega

/-- The search visits the nodes of the list only. -/
theorem findFit_ends (hChain : Chain (nodeNext node) 0 p l) (hStart : p ≠ 0)
    (hFuel : l.length ≤ fuel) : ∃ q, findFit node n fuel p = some q := by
  induction fuel generalizing p l with
  | zero =>
      obtain ⟨l', rfl, -⟩ := hChain.exists_cons hStart
      simp at hFuel
  | succ fuel ih =>
      obtain ⟨l', rfl, hRest⟩ := hChain.exists_cons hStart
      unfold findFit
      split
      · exact ⟨p, rfl⟩
      · split
        · exact ⟨0, rfl⟩
        · rename_i hMore
          exact ih hRest hMore (Nat.le_of_succ_le_succ hFuel)

theorem Counted.searchBounded (h : Counted node nodes current front behind)
    (hChain : Chain (nodeNext node) 0 head nodes) :
    SearchBounded node head current front (current :: behind) := by
  have hCounts : (current :: behind).map (fun h => (node h).failed) = tally (behind.length + 1) :=
    h.window_failed
  have hLe := h.behind_le
  refine ⟨h.nodes_eq ▸ hChain, rfl, h.front_failed, ?_, ?_, Nat.succ_le_succ hLe, ?_⟩
  · have hFalling := tally_falling (behind.length + 1)
    rw [← hCounts] at hFalling
    exact List.pairwise_map.mp hFalling
  · intro b hMem
    have hIn : (node b).failed ∈ tally (behind.length + 1) := hCounts ▸ List.mem_map_of_mem hMem
    have hBound := tally_le hIn
    omega
  · intro n
    exact findFit_ends (h.chain_window hChain) (hChain.ne_null_of_mem h.current_mem)
      (Nat.succ_le_succ hLe)

end Counters

/-! ## Every call keeps them -/

/-- The list of the pool has the counters that `mp_alloc_block` gives it. -/
def Windowed (s : Pool) : Prop :=
  ∃ nodes front behind, Chain (nodeNext s.node) 0 s.head nodes ∧
    Counted s.node nodes s.current front behind

variable {size : Nat} {s s' : Pool} {nodes larges pending : List Nat} {m n p q fuel : Nat}

/-- The list, its counters and `current` are the same. -/
structure SameWindow (s s' : Pool) : Prop where
  head_eq : s'.head = s.head
  current_eq : s'.current = s.current
  next_eq : ∀ b, (s'.node b).next = (s.node b).next
  failed_eq : ∀ b, (s'.node b).failed = (s.node b).failed

theorem Windowed.congr (h : Windowed s) (hSame : SameWindow s s') : Windowed s' := by
  obtain ⟨nodes, front, behind, hChain, hCounted⟩ := h
  refine ⟨nodes, front, behind, ?_, ?_⟩
  · rw [hSame.head_eq]
    exact hChain.congr fun b _ => hSame.next_eq b
  · rw [hSame.current_eq]
    exact hCounted.congr hSame.failed_eq

/-- Calls to the system and what is written into headers leave the nodes. -/
theorem Windowed.of_node_eq (h : Windowed s) (hHead : s'.head = s.head)
    (hCurrent : s'.current = s.current) (hNode : s'.node = s.node) : Windowed s' :=
  h.congr ⟨hHead, hCurrent, fun b => by rw [hNode], fun b => by rw [hNode]⟩

theorem carve_windowed (h : Windowed s) : Windowed (carve s q n).2 := by
  refine h.congr ⟨rfl, rfl, ?_, ?_⟩
  · intro b
    exact (takenFrom_same b).2.1
  · intro b
    exact (takenFrom_same b).2.2

theorem mpAllocBlock_windowed (hInv : Inv size s nodes larges pending) (h : Windowed s)
    (hRun : mpAllocBlock fuel s n = some (m, s')) : Windowed s' := by
  obtain ⟨nodes', front, behind, hChain, hCounted⟩ := h
  obtain rfl := hInv.chain.unique hChain
  unfold mpAllocBlock at hRun
  rw [psize_eq hInv] at hRun
  rcases hAsk : s.posixMemalign mpAlignment (sizeofNode + size) with ⟨c, heap⟩
  simp only [hAsk] at hRun
  obtain ⟨⟨hNodes, -⟩, hAnswer⟩ := inv_request hInv hAsk
  rcases hAnswer with ⟨rfl, -, -⟩ | ⟨hPtr, -, -, hLive, hGranted⟩
  · rw [if_pos rfl] at hRun
    obtain ⟨-, rfl⟩ := Prod.mk.inj (Option.some.inj hRun)
    refine ⟨nodes, front, behind, ?_, ?_⟩
    · rwa [show nodeNext heap.node = nodeNext s.node by rw [hNodes]]
    · rwa [show heap.node = s.node from hNodes]
  · have hNode : sizeofNode = 32 := rfl
    rw [Nat.max_eq_left (by omega)] at hLive
    have hNew : c ∉ nodes := new_node_not_mem hGranted hLive
    rw [if_neg hPtr, hNodes] at hRun
    split at hRun
    · simp at hRun
    · rename_i t current' node' hWalk
      obtain ⟨-, rfl⟩ := Prod.mk.inj (Option.some.inj hRun)
      obtain ⟨-, -, hChain'⟩ := hCounted.link hChain hNew hPtr rfl hWalk
      obtain ⟨front', behind', hCounted'⟩ := hCounted.grow hChain hNew rfl hWalk
      have hCurrent : current' ≠ 0 := hChain'.ne_null_of_mem hCounted'.current_mem
      refine ⟨nodes ++ [c], front', behind', hChain', ?_⟩
      show Counted _ _ (if current' ≠ 0 then current' else c) _ _
      rwa [if_pos hCurrent]

theorem attachLarge_windowed {alloc : Pool → Nat → Option (Nat × Pool)}
    (hAlloc : ∀ {l t}, alloc s sizeofLarge = some (l, t) → Windowed t)
    (hRun : attachLarge alloc s p = some (m, s')) : Windowed s' := by
  unfold attachLarge at hRun
  split at hRun
  · simp at hRun
  · rename_i l t hHeader
    have hWindowed := hAlloc hHeader
    split at hRun
    · obtain ⟨-, rfl⟩ := Prod.mk.inj (Option.some.inj hRun)
      exact hWindowed.of_node_eq rfl rfl (free_node _ _)
    · obtain ⟨-, rfl⟩ := Prod.mk.inj (Option.some.inj hRun)
      exact hWindowed.of_node_eq rfl rfl rfl

/-- The header of a large allocation is allocated with its memory pending. -/
theorem mpAlloc_windowed (hInv : Inv size s nodes larges pending) (h : Windowed s)
    (hRun : mpAlloc fuel s n = some (m, s')) : Windowed s' := by
  induction fuel generalizing s s' pending m n with
  | zero => simp [mpAlloc] at hRun
  | succ fuel ih =>
      unfold mpAlloc at hRun
      split at hRun
      · split at hRun
        · simp at hRun
        · split at hRun
          · obtain ⟨-, rfl⟩ := Prod.mk.inj (Option.some.inj hRun)
            exact carve_windowed h
          · exact mpAllocBlock_windowed hInv h hRun
      · unfold mpAllocLarge at hRun
        rcases hAsk : s.malloc n with ⟨p, heap⟩
        simp only [hAsk] at hRun
        obtain ⟨⟨hNodes, -⟩, hAnswer⟩ := inv_request hInv hAsk
        have hAsked : Windowed { s with toHeap := heap } := h.of_node_eq rfl rfl hNodes
        split at hRun
        · obtain ⟨-, rfl⟩ := Prod.mk.inj (Option.some.inj hRun)
          exact hAsked
        · rename_i hPtr
          obtain ⟨-, -, -, -, hGranted⟩ := hAnswer.resolve_left fun hFailed => hPtr hFailed.1
          split at hRun
          · obtain ⟨-, rfl⟩ := Prod.mk.inj (Option.some.inj hRun)
            exact h.of_node_eq rfl rfl hNodes
          · exact attachLarge_windowed (fun hHeader => ih hGranted hAsked hHeader) hRun

theorem mpMemalign_windowed {alignment : Nat} (hInv : Inv size s nodes larges pending)
    (h : Windowed s) (hRun : mpMemalign fuel s n alignment = some (m, s')) : Windowed s' := by
  unfold mpMemalign at hRun
  rcases hAsk : s.posixMemalign alignment n with ⟨p, heap⟩
  simp only [hAsk] at hRun
  obtain ⟨⟨hNodes, -⟩, hAnswer⟩ := inv_request hInv hAsk
  have hAsked : Windowed { s with toHeap := heap } := h.of_node_eq rfl rfl hNodes
  split at hRun
  · obtain ⟨-, rfl⟩ := Prod.mk.inj (Option.some.inj hRun)
    exact hAsked
  · rename_i hPtr
    obtain ⟨-, -, -, -, hGranted⟩ := hAnswer.resolve_left fun hFailed => hPtr hFailed.1
    exact attachLarge_windowed (fun hHeader => mpAlloc_windowed hGranted hAsked hHeader) hRun

theorem mpFree_windowed (h : Windowed s) (hRun : mpFree fuel s p = some s') : Windowed s' := by
  unfold mpFree at hRun
  split at hRun
  · simp at hRun
  · split at hRun
    · obtain rfl := Option.some.inj hRun
      exact h
    · obtain rfl := Option.some.inj hRun
      exact h.of_node_eq rfl rfl (free_node _ _)

/-- A reset writes `last` only. -/
theorem mpResetPool_windowed (h : Windowed s) (hRun : mpResetPool fuel s = some s') :
    Windowed s' := by
  obtain ⟨nodes, front, behind, hChain, hCounted⟩ := h
  unfold mpResetPool at hRun
  split at hRun
  · simp at hRun
  · rename_i heap hFree
    have hNode : heap.node = s.node := (freeLarge_structures hFree).1
    split at hRun
    · simp at hRun
    · rename_i node' hRewind
      obtain rfl := Option.some.inj hRun
      rw [hNode] at hRewind
      obtain ⟨hRewound, hOther⟩ := rewindNodes_spec hChain hRewind
      have hKept : ∀ b, (node' b).next = (s.node b).next ∧
          (node' b).failed = (s.node b).failed := by
        intro b
        by_cases hMem : b ∈ nodes
        · rw [hRewound b hMem]
          exact ⟨rfl, rfl⟩
        · rw [hOther b hMem]
          exact ⟨rfl, rfl⟩
      exact ⟨nodes, front, behind, hChain.congr fun b _ => (hKept b).1,
        hCounted.congr fun b => (hKept b).2⟩

/-- **One call** keeps the counters. -/
theorem exec_windowed {op : Op} (hInv : Inv size s nodes larges []) (h : Windowed s)
    (hRun : exec fuel s op = some (m, s')) : Windowed s' := by
  cases op with
  | alloc n => exact mpAlloc_windowed hInv h hRun
  | calloc n => exact mpAlloc_windowed hInv h hRun
  | memalign n alignment => exact mpMemalign_windowed hInv h hRun
  | free p =>
      obtain ⟨t, hFree, hEq⟩ := Option.map_eq_some_iff.mp hRun
      obtain ⟨-, rfl⟩ := Prod.mk.inj hEq
      exact mpFree_windowed h hFree
  | reset =>
      obtain ⟨t, hReset, hEq⟩ := Option.map_eq_some_iff.mp hRun
      obtain ⟨-, rfl⟩ := Prod.mk.inj hEq
      exact mpResetPool_windowed h hReset

namespace Bytes

open ByteMemory

/-! ## Runs in the memory of bytes -/

variable {f f₀ : Pool}

/-- A new pool has one node, which has not failed. -/
theorem create_windowed {s₀ : MemPool.Pool} {node : Nat → MpNode} {header : Nat → MpLarge}
    {answer : Nat → Nat} (hSize : size + (sizeofPool + sizeofNode) < 2 ^ 64)
    (hCreate : MemPool.mpCreatePool (Heap.start node header answer) size = some s₀)
    (hNull : (s₀.node s₀.head).next = 0) : Windowed s₀ := by
  have hPacked := mpCreatePool_packed hSize hCreate hNull
  obtain ⟨front, behind, hCounted⟩ := hPacked.counted
  exact ⟨[s₀.head], front, behind, hPacked.chain, hCounted⟩

/-- The memory shows the counters of the typed nodes. -/
theorem Models.searchBounded {s : MemPool.Pool} (h : Models size f s nodes larges pending)
    (hWindowed : Windowed s) :
    ∃ front window, SearchBounded (nodeAt f.mem) f.head (poolAt f.mem f.addr).current
      front window := by
  obtain ⟨nodes', front, behind, hChain, hCounted⟩ := hWindowed
  obtain rfl := h.inv.chain.unique hChain
  have hSame : ∀ b ∈ nodes, nodeAt f.mem b = s.node b := h.refines.node_eq
  have hChain' : Chain (nodeNext (nodeAt f.mem)) 0 f.head nodes := by
    rw [h.refines.head_eq]
    exact hChain.congr fun b hMem => congrArg MpNode.next (hSame b hMem)
  have hCounted' : Counted (nodeAt f.mem) nodes s.current front behind := by
    refine { hCounted with front_failed := ?_, window_failed := ?_ }
    · intro b hMem
      rw [hSame b (hCounted.nodes_eq ▸ List.mem_append_left _ hMem)]
      exact hCounted.front_failed b hMem
    · refine (counts_congr fun b hMem => ?_).trans hCounted.window_failed
      exact congrArg MpNode.failed (hSame b (hCounted.window_subset hMem))
  rw [h.refines.current_eq]
  exact ⟨front, s.current :: behind, hCounted'.searchBounded hChain'⟩

/-- **At most seven blocks are searched**, in every state of a run whose searches
stay inside. -/
theorem search_bounded_if_inside {mem : Memory} {answer : Nat → Nat}
    (hSize : size + (sizeofPool + sizeofNode) < 2 ^ 64)
    (hCreate : mpCreatePool (Ram.start mem answer) size = some f₀)
    (hNull : (nodeAt f₀.mem f₀.head).next = 0) (hReach : Reach step StaysInside f₀ f) :
    ∃ front window, SearchBounded (nodeAt f.mem) f.head (poolAt f.mem f.addr).current
      front window := by
  obtain ⟨s₀, hCreate', hNull', hModels⟩ := create_models hSize hCreate hNull
  obtain ⟨s, nodes, larges, hReach', hModels'⟩ := reach_models ⟨_, _, hModels⟩ hReach
  refine hModels'.searchBounded (hReach'.invariant
    (P := fun s => Windowed s ∧ ∃ nodes larges, Inv size s nodes larges []) ?_ ?_).1
  · exact ⟨create_windowed hSize hCreate' hNull', _, _, hModels.inv⟩
  · rintro s a s' ⟨hWindowed, nodes, larges, hInv⟩ hInside hStep
    obtain ⟨⟨m, t⟩, hRun, rfl⟩ := Option.map_eq_some_iff.mp hStep
    exact ⟨exec_windowed hInv hWindowed hRun, exec_inv hInv hInside hRun⟩

/-- The first two requests of `main`, of 512 bytes each. -/
theorem search_bounded_if_inside_mainPool :
    ∃ f : Pool, f.carves = [⟨65560, ⟨66112, 512⟩⟩, ⟨65560, ⟨65600, 512⟩⟩] ∧
      ∃ front window, SearchBounded (nodeAt f.mem) f.head (poolAt f.mem f.addr).current
        front window := by
  let calls : List Action := [(.alloc 512, 3), (.alloc 512, 3)]
  have hRun : run (guarded step FirstHasRoom) mainPool calls =
      some ((run (guarded step FirstHasRoom) mainPool calls).get (by decide +kernel)) := by simp
  have hReach := (reach_of_run_guarded hRun).mono fun f a hRoom =>
    (show StaysInside f a from staysInside_of_room hRoom)
  exact ⟨_, by decide +kernel,
    search_bounded_if_inside (by decide) mainPool_created (by decide +kernel) hReach⟩

/-- A system that puts the second block of a pool of 4104 bytes right in front
of the first one. -/
def frontRam : Ram :=
  Ram.start (fun _ => 0) fun k => [65536, 61376, 200000].getD k 0

def frontPool : Pool := (mpCreatePool frontRam 4104).get (by decide +kernel)

theorem frontPool_created : mpCreatePool frontRam 4104 = some frontPool := by
  simp [frontPool]

/-- The second block is filled to its end at 65512, and the header of the large
request is put at the next aligned address, where the pool structure lies. -/
def overwritePool : List Action :=
  [(.alloc 4095, 6), (.alloc 4064, 6), (.alloc 40, 6), (.alloc 5000, 6)]

def overwrittenPool : Pool := (run step frontPool overwritePool).get (by decide +kernel)

theorem overwrittenPool_reached : run step frontPool overwritePool = some overwrittenPool := by
  simp [overwrittenPool]

theorem overwrittenPool_nodes :
    Chain (nodeNext (nodeAt overwrittenPool.mem)) 0 overwrittenPool.head [65560, 61376] := by
  have hHead : overwrittenPool.head = 65560 := by decide +kernel
  have hFirst : nodeNext (nodeAt overwrittenPool.mem) 65560 = 61376 := by decide +kernel
  have hSecond : nodeNext (nodeAt overwrittenPool.mem) 61376 = 0 := by decide +kernel
  rw [hHead]
  refine ⟨rfl, by decide, ?_⟩
  rw [hFirst]
  exact ⟨rfl, by decide, hSecond⟩

/-- `current` is the address of the large allocation now. -/
theorem search_leaves_list :
    ∃ (size : Nat) (f₀ f : Pool), size + (sizeofPool + sizeofNode) < 2 ^ 64 ∧
      mpCreatePool frontRam size = some f₀ ∧ (nodeAt f₀.mem f₀.head).next = 0 ∧
      Reachable step f₀ f ∧ (poolAt f.mem f.addr).current = 200000 ∧
      ¬ ∃ front window, SearchBounded (nodeAt f.mem) f.head (poolAt f.mem f.addr).current
        front window := by
  have hCurrent : (poolAt overwrittenPool.mem overwrittenPool.addr).current = 200000 := by
    decide +kernel
  refine ⟨4104, frontPool, overwrittenPool, by decide, frontPool_created, by decide +kernel,
    reachable_of_run overwrittenPool_reached, hCurrent, ?_⟩
  rintro ⟨front, window, hBounded⟩
  have hFirst := hBounded.current_first
  rw [hCurrent] at hFirst
  have hMem : 200000 ∈ front ++ window := List.mem_append_right _ (List.mem_of_head? hFirst)
  rw [← overwrittenPool_nodes.unique hBounded.chain] at hMem
  simp at hMem

end Bytes
end MemPool
end LinuxCppLearn
