import LinuxCppLearn.MemPool.Refinement

/-!
# The calls on the memory of bytes

`Models` says that a memory shows a pool of typed structures which has its
invariant, and that what has been taken from each block is stacked upwards.
Every call whose search stays inside keeps it.
-/

namespace LinuxCppLearn
namespace MemPool
namespace Bytes

open ByteMemory Regions LinkedChain StepSystem

/-! ## What has been taken from each block -/

/-- Everything taken from a block lies below its `last`, and above all that was
taken from it before. -/
structure Stacked (carves : List Carve) (node : Nat → MpNode) (nodes : List Nat) : Prop where
  inside : ∀ c ∈ carves, c.block ∈ nodes ∧ c.block + sizeofNode ≤ c.region.base ∧
    c.region.base % 32 = 0 ∧ c.region.base + c.region.len ≤ (node c.block).last
  ordered : carves.Pairwise fun later earlier => later.block = earlier.block →
    earlier.region.base + earlier.region.len ≤ later.region.base

section StackedLemmas

variable {carves : List Carve} {node node' : Nat → MpNode} {nodes nodes' : List Nat} {q m n : Nat}

theorem Stacked.empty (node : Nat → MpNode) (nodes : List Nat) : Stacked [] node nodes :=
  ⟨by simp, List.Pairwise.nil⟩

/-- Moving up `last` and adding nodes. -/
theorem Stacked.mono (h : Stacked carves node nodes) (hSub : nodes ⊆ nodes')
    (hGrow : ∀ b ∈ nodes, (node b).last ≤ (node' b).last) : Stacked carves node' nodes' := by
  refine ⟨?_, h.ordered⟩
  intro c hMem
  obtain ⟨hBlock, hLow, hAligned, hHigh⟩ := h.inside c hMem
  exact ⟨hSub hBlock, hLow, hAligned, Nat.le_trans hHigh (hGrow _ hBlock)⟩

/-- Taking a region above `last`. -/
theorem Stacked.push (h : Stacked carves node nodes) (hSub : nodes ⊆ nodes')
    (hGrow : ∀ b ∈ nodes, (node b).last ≤ (node' b).last) (hMem : q ∈ nodes')
    (hStart : q ∈ nodes → (node q).last ≤ m) (hLow : q + sizeofNode ≤ m) (hAligned : m % 32 = 0)
    (hEnd : m + n ≤ (node' q).last) : Stacked (⟨q, ⟨m, n⟩⟩ :: carves) node' nodes' := by
  refine ⟨List.forall_mem_cons.mpr ⟨⟨hMem, hLow, hAligned, hEnd⟩, (h.mono hSub hGrow).inside⟩,
    List.pairwise_cons.mpr ⟨?_, h.ordered⟩⟩
  intro c hOld hSame
  obtain ⟨hBlock, -, -, hHigh⟩ := h.inside c hOld
  have hSame' : c.block = q := Eq.symm hSame
  rw [hSame'] at hBlock hHigh
  exact Nat.le_trans hHigh (hStart hBlock)

end StackedLemmas

/-! ## The relation -/

structure Models (size : Nat) (f : Pool) (s : MemPool.Pool) (nodes larges pending : List Nat) :
    Prop where
  inv : Inv size s nodes larges pending
  refines : Refines f s nodes larges
  headers_apart : ∀ l ∈ larges, ∀ l' ∈ larges, l ≠ l' →
    Region.Apart ⟨l, sizeofLarge⟩ ⟨l', sizeofLarge⟩
  stacked : Stacked f.carves s.node nodes

variable {f f' : Pool} {s s' : MemPool.Pool} {nodes larges pending : List Nat}
  {alignment size m n p q l fuel : Nat} {call : Nat → SysCall} {t t' : Heap} {r : Region}

theorem Models.layout (h : Models size f s nodes larges pending) : Layout s.addr nodes larges :=
  layout_of_inv h.inv h.headers_apart

theorem Models.node_next (h : Models size f s nodes larges pending) :
    ∀ b ∈ nodes, (s.node b).next = 0 ∨ (s.node b).next ∈ nodes :=
  fun _ hMem => h.inv.chain.next_mem hMem

theorem Models.header_next (h : Models size f s nodes larges pending) :
    ∀ b ∈ larges, (s.header b).next = 0 ∨ (s.header b).next ∈ larges :=
  fun _ hMem => h.inv.headers.next_mem hMem

theorem node_lt (hInv : Inv size s nodes larges pending) (hMem : q ∈ nodes) : q < 2 ^ 64 := by
  have hTop := hInv.end_le_top hMem
  have hBound : addressTop < 2 ^ 64 := by decide
  omega

theorem live_lt {live : LiveRegions addressTop} (hLive : r ∈ live.regions) : r.base < 2 ^ 64 := by
  have hTop := (live.inside r hLive).2.2
  have hBound : addressTop < 2 ^ 64 := by decide
  omega

theorem Unused.mono {addr : Nat} {part : Region} (h : Unused addr nodes larges r)
    (hPart : part.Within r) : Unused addr nodes larges part :=
  ⟨h.pool.mono hPart (Region.Within.refl _),
    fun b hMem => (h.node b hMem).mono hPart (Region.Within.refl _),
    fun l hMem => (h.header l hMem).mono hPart (Region.Within.refl _)⟩

/-- Memory apart from all blocks holds no structure. -/
theorem unused_of_apart (hInv : Inv size s nodes larges pending)
    (hApart : ∀ b ∈ nodes, r.Apart (s.block size b)) : Unused s.addr nodes larges r := by
  refine ⟨?_, ?_, ?_⟩
  · exact (hApart s.head hInv.head_mem).mono (Region.Within.refl r) (pool_within_block s size)
  · intro b hMem
    exact (hApart b hMem).mono (Region.Within.refl r) (node_within_block s size b)
  · intro l hMem
    obtain ⟨b, hNode, hLow, hHigh⟩ := header_within_block hInv hMem
    exact (hApart b hNode).mono (Region.Within.refl r) (within_block (by simp only; omega) hHigh)

/-- Memory of the system that is no block holds no structure. -/
theorem unused_of_live (hInv : Inv size s nodes larges pending) (hLive : r ∈ s.live.regions)
    (hNot : ∀ b ∈ nodes, s.block size b ≠ r) : Unused s.addr nodes larges r :=
  unused_of_apart hInv fun b hMem =>
    (s.live.apart.forall (hInv.block_live b hMem) hLive (hNot b hMem)).symm

theorem unused_of_pending {k : Nat} (hInv : Inv size s nodes larges (p :: pending))
    (hLive : ⟨p, k⟩ ∈ s.live.regions) : Unused s.addr nodes larges ⟨p, k⟩ := by
  apply unused_of_live hInv hLive
  intro b hMem hSame
  apply hInv.pending_not_block hMem
  rw [hSame]

/-- The memory of a header is no block. -/
theorem unused_of_alloc {k : Nat} (hInv : Inv size s nodes larges pending)
    (hAlloc : p ∈ allocs s.header larges) (hLive : ⟨p, k⟩ ∈ s.live.regions) :
    Unused s.addr nodes larges ⟨p, k⟩ := by
  apply unused_of_live hInv hLive
  intro b hMem hSame
  have hNodup := hInv.ledger.nodup_iff.mp s.live.bases_nodup
  have hBase : p ∈ pending ++ nodes.map fun h => (s.block size h).base := by
    refine List.mem_append_right _ (List.mem_map.mpr ⟨b, hMem, ?_⟩)
    rw [hSame]
  exact (List.nodup_append.mp hNodup).2.2 p hBase p hAlloc rfl

/-! ## System calls -/

theorem request_live {heap heap' : Heap} (hAsk : heap.request alignment n call = (p, heap')) :
    ∀ r ∈ heap.live.regions, r ∈ heap'.live.regions := by
  intro r hIn
  rcases request_cases hAsk with ⟨-, -, rfl⟩ | ⟨-, hGrants, -, rfl⟩
  · exact hIn
  · exact List.mem_cons_of_mem _ hIn

theorem Models.request (h : Models size f s nodes larges pending)
    (hAsk : f.typed.request alignment n call = (p, t)) :
    ∃ t', s.request alignment n call = (p, t') ∧
      (p = 0 ∧ Models size { f with toRam := f.withSystem t } { s with toHeap := t' } nodes larges
          pending ∨
        p ≠ 0 ∧ s.Grants alignment n ∧ p % alignment = 0 ∧ ⟨p, max n 1⟩ ∈ t'.live.regions ∧
          Models size { f with toRam := f.withSystem t } { s with toHeap := t' } nodes larges
            (p :: pending)) := by
  obtain ⟨t', hAsk', hRefines⟩ := h.refines.request hAsk
  obtain ⟨⟨hNodes, -⟩, hAnswer⟩ := inv_request h.inv hAsk'
  have hStacked : Stacked f.carves t'.node nodes := hNodes ▸ h.stacked
  refine ⟨t', hAsk', ?_⟩
  rcases hAnswer with ⟨hNull, -, hInv⟩ | ⟨hPtr, hGrants, hAligned, hLive, hInv⟩
  · exact .inl ⟨hNull, hInv, hRefines, h.headers_apart, hStacked⟩
  · exact .inr ⟨hPtr, hGrants, hAligned, hLive, hInv, hRefines, h.headers_apart, hStacked⟩

theorem Models.free (h : Models size f s nodes larges (p :: pending)) (hPtr : p ≠ 0) :
    Models size { f with toRam := f.free p } { s with toHeap := s.free p } nodes larges
      pending where
  inv := inv_free h.inv hPtr
  refines := h.refines.free p
  headers_apart := h.headers_apart
  stacked := by
    show Stacked f.carves (s.free p).node nodes
    rw [free_node]
    exact h.stacked

/-! ## Small requests -/

/-- A small request served, with the memory's side of it. -/
structure Taken (size : Nat) (f' : Pool) (s s' : MemPool.Pool) (nodes larges pending : List Nat)
    (m n : Nat) : Prop where
  served : Served size s s' nodes larges pending m n
  models : Models size f' s' nodes larges pending
  apart : ∀ l ∈ larges, Region.Apart ⟨m, n⟩ ⟨l, sizeofLarge⟩
  live : ∀ r ∈ s.live.regions, r ∈ s'.live.regions

/-- The region holds no structure of the pool. -/
theorem Taken.unused (h : Taken size f' s s' nodes larges pending m n) :
    Unused s'.addr nodes larges ⟨m, n⟩ := by
  obtain ⟨b, hMem, hLow, hHigh⟩ := h.served.place
  obtain ⟨hPool, hNodes⟩ := apart_of_inside h.served.inv hMem
    (r := ⟨m, n⟩) hLow (Nat.le_trans hHigh (h.served.inv.last_le hMem))
  exact ⟨hPool, hNodes, h.apart⟩

/-- Headers lie below the `last` of their nodes, so apart from what lies above
the `last` of one node and within its block. -/
theorem header_apart_of_above (hInv : Inv size s nodes larges pending) (hMem : q ∈ nodes)
    (hAbove : (s.node q).last ≤ m) (hHigh : m + n ≤ (s.node q).end_) :
    ∀ l ∈ larges, Region.Apart ⟨m, n⟩ ⟨l, sizeofLarge⟩ := by
  intro l hIn
  obtain ⟨b, hNodeMem, hStart, hBelow⟩ := hInv.header_inside l hIn
  obtain ⟨hEnd, hLow, -⟩ := hInv.spans q hMem
  by_cases hHere : b = q
  · subst hHere
    exact .inr (by simp only; omega)
  -- the header lies in another block
  · have hLast := hInv.last_le hNodeMem
    have hApart := hInv.block_apart hMem hNodeMem (Ne.symm hHere)
    exact hApart.mono (within_block (by simp only; omega) (by simp only; omega))
      (within_block (by simp only; omega) (by simp only; omega))

theorem carve_taken (h : Models size f s nodes larges pending) (hMem : q ∈ nodes)
    (hRoom : HasRoom s.node n q) :
    (carve f q n).1 = (MemPool.carve s q n).1 ∧
      Taken size (carve f q n).2 s (MemPool.carve s q n).2 nodes larges pending
        (MemPool.carve s q n).1 n := by
  have hServed := carve_served h.inv hMem hRoom
  obtain ⟨hStart, hAbove, hEnd, hTop⟩ := carve_bounds (n := n) h.inv hMem
  have hNode : sizeofNode = 32 := rfl
  have hBound : addressTop < 2 ^ 64 := by decide
  have hFits : (MemPool.carve s q n).1 + n ≤ (s.node q).end_ := hRoom
  have hWord : ptrAdd (MemPool.carve s q n).1 n < 2 ^ 64 := Nat.mod_lt _ (by decide)
  have hAdd : ptrAdd (MemPool.carve s q n).1 n = (MemPool.carve s q n).1 + n :=
    ptrAdd_eq (by omega)
  have hResult : (carve f q n).1 = (MemPool.carve s q n).1 := by
    show mpAlignPtr (nodeAt f.mem q).last mpAlignment = mpAlignPtr (s.node q).last mpAlignment
    rw [h.refines.node_eq q hMem]
  have hRefines : Refines (carve f q n).2 (MemPool.carve s q n).2 nodes larges := by
    have hState : (carve f q n).2 =
        { f with
          mem := setLast f.mem q (ptrAdd (MemPool.carve s q n).1 n)
          carves := ⟨q, ⟨(carve f q n).1, n⟩⟩ :: f.carves } := by
      rw [← hResult]
      rfl
    rw [hState]
    exact (h.refines.setLast h.layout hMem hWord).record _ _
  have hLast : ∀ b, ((MemPool.carve s q n).2.node b).last =
      if b = q then (MemPool.carve s q n).1 + n else (s.node b).last := by
    intro b
    show (Function.update s.node q _ b).last = _
    by_cases hHere : b = q
    · rw [hHere, Function.update_self, if_pos rfl]
      exact hAdd
    · rw [Function.update_of_ne hHere, if_neg hHere]
  refine ⟨hResult, hServed, ⟨hServed.inv, hRefines, h.headers_apart, ?_⟩, ?_, fun r hIn => hIn⟩
  · have hTop' : (s.node q).last ≤ addressTop := Nat.le_trans (h.inv.last_le hMem) hTop
    show Stacked (⟨q, ⟨(carve f q n).1, n⟩⟩ :: f.carves) (MemPool.carve s q n).2.node nodes
    rw [hResult]
    refine h.stacked.push (List.Subset.refl _) ?_ hMem (fun _ => hAbove) (by omega)
      (mpAlignPtr_spec hTop').2.2.1 ?_
    · intro b hIn
      rw [hLast b]
      split
      · rename_i hHere
        rw [hHere]
        omega
      · exact Nat.le_refl _
    · rw [hLast q, if_pos rfl]
  · exact header_apart_of_above h.inv hMem hAbove hFits

/-- The structure of a new node is written into its own memory. -/
theorem newNode_written (mem : Memory) (c : Nat) {x e : Nat} (hLast : x < 2 ^ 64)
    (hEnd : e < 2 ^ 64) :
    SameOutside mem (setLast (setFailed (setNext (setEnd mem c e) c 0) c 0) c x)
        ⟨c, sizeofNode⟩ ∧
      nodeAt (setLast (setFailed (setNext (setEnd mem c e) c 0) c 0) c x) c = ⟨x, e, 0, 0⟩ := by
  have hZero : 0 < 2 ^ 64 := by decide
  constructor
  · exact (((setEnd_outside mem c e).trans (setNext_outside _ c 0)).trans
      (setFailed_outside _ c 0)).trans (setLast_outside _ c x)
  · rw [nodeAt_setLast hLast, nodeAt_setFailed hZero, nodeAt_setNext hZero, nodeAt_setEnd hEnd]

/-- The list stays within its nodes when a node is added that ends it. -/
theorem next_new_node {node : Nat → MpNode} {c : Nat} {x : MpNode}
    (hNext : ∀ b ∈ nodes, (node b).next = 0 ∨ (node b).next ∈ nodes) (hNew : c ∉ nodes)
    (hEnd : x.next = 0) :
    ∀ b ∈ nodes ++ [c], (Function.update node c x b).next = 0 ∨
      (Function.update node c x b).next ∈ nodes ++ [c] := by
  intro b hIn
  rcases List.mem_append.mp hIn with hOld | hHere
  · rw [Function.update_of_ne (ne_of_mem_of_not_mem hOld hNew)]
    exact (hNext b hOld).imp_right fun hMem => List.mem_append_left _ hMem
  · rw [List.mem_singleton.mp hHere, Function.update_self]
    exact .inl hEnd

theorem mpAllocBlock_taken (h : Models size f s nodes larges pending) (hSize : n ≤ s.max)
    (hRun : mpAllocBlock fuel f n = some (m, f')) :
    ∃ s', MemPool.mpAllocBlock fuel s n = some (m, s') ∧
      (m = 0 ∧ Models size f' s' nodes larges pending ∨
        ∃ nodes', Taken size f' s s' nodes' larges pending m n) := by
  unfold mpAllocBlock at hRun
  rw [h.refines.head_eq, h.refines.node_eq s.head h.inv.head_mem, psize_eq h.inv] at hRun
  rcases hAsk : f.typed.posixMemalign mpAlignment (sizeofNode + size) with ⟨c, t⟩
  simp only [Ram.posixMemalign, hAsk] at hRun
  obtain ⟨t', hAsk', hAnswer⟩ := h.request hAsk
  have hAsk'' : s.posixMemalign mpAlignment (sizeofNode + size) = (c, t') := hAsk'
  rcases hAnswer with ⟨rfl, hFailed⟩ | ⟨hPtr, -, hAligned, hLive, hGranted⟩
  · rw [if_pos rfl] at hRun
    obtain ⟨rfl, rfl⟩ := Prod.mk.inj (Option.some.inj hRun)
    refine ⟨{ s with toHeap := t' }, ?_, .inl ⟨rfl, hFailed⟩⟩
    unfold MemPool.mpAllocBlock
    simp only [psize_eq h.inv, hAsk'', if_true]
  · rw [if_neg hPtr] at hRun
    have hNode : sizeofNode = 32 := rfl
    have hMax := h.inv.max_le.1
    have hBound : addressTop < 2 ^ 64 := by decide
    have hZero : 0 < 2 ^ 64 := by decide
    rw [Nat.max_eq_left (by omega)] at hLive
    have hInside : c + (sizeofNode + size) ≤ addressTop := (t'.live.inside _ hLive).2.2
    have hNew : c ∉ nodes := new_node_not_mem hGranted.inv hLive
    have hWord : ptrAdd (c + sizeofNode) n < 2 ^ 64 := Nat.mod_lt _ hZero
    have hWord' : ptrAdd c (sizeofNode + size) < 2 ^ 64 := Nat.mod_lt _ hZero
    have hBlock : Unused s.addr nodes larges ⟨c, sizeofNode + size⟩ :=
      unused_of_pending (s := { s with toHeap := t' }) hGranted.inv hLive
    have hStruct : Unused s.addr nodes larges ⟨c, sizeofNode⟩ :=
      hBlock.mono ⟨Nat.le_refl _, by simp only; omega⟩
    have hLayout := hGranted.layout.new_node hStruct
    rw [new_block_data hAligned hInside] at hRun
    obtain ⟨hSame, hWritten⟩ := newNode_written f.mem c hWord hWord'
    have hRefines := hGranted.refines.new_node hStruct hNew hSame
    rw [hWritten] at hRefines
    have hCurrent := hRefines.current_eq
    simp only at hCurrent
    simp only [Ram.withSystem] at hRun
    rw [hCurrent] at hRun
    split at hRun
    · simp at hRun
    · rename_i tail current' mem' hWalk
      obtain ⟨rfl, rfl⟩ := Prod.mk.inj (Option.some.inj hRun)
      have hNext := next_new_node hGranted.node_next hNew
        (x := ⟨ptrAdd (c + sizeofNode) n, ptrAdd c (sizeofNode + size), 0, 0⟩) rfl
      obtain ⟨node', hWalk', hWalked⟩ := bumpFailed_refines hRefines hLayout hNext
        (List.mem_append_left _ h.inv.current_mem) hWalk
      obtain ⟨⟨hTail, -⟩, hCurrent', hOnly⟩ :=
        bumpFailed_new (s := { s with toHeap := t' }) hGranted.inv hNew hWalk'
      have hPtrs : tail ∈ nodes ++ [c] := List.mem_append_left _ hTail
      have hStart : (if current' ≠ 0 then current' else c) < 2 ^ 64 := by
        split
        · exact node_lt h.inv hCurrent'
        · exact live_lt hLive
      have hLinked := (hWalked.setNext hLayout hPtrs (live_lt hLive)).setCurrent hLayout hStart
      have hRun' : MemPool.mpAllocBlock fuel s n = some (c + sizeofNode, { s with
          toHeap := { t' with node := Function.update node' tail { node' tail with next := c } }
          current := if current' ≠ 0 then current' else c
          carved := ⟨c + sizeofNode, n⟩ :: s.carved }) := by
        unfold MemPool.mpAllocBlock
        simp only [psize_eq h.inv, hAsk'', if_neg hPtr, new_block_data hAligned hInside, hWalk']
      rcases mpAllocBlock_served h.inv hSize hRun' with ⟨hNull, -, -⟩ | ⟨c', hHere, hServed⟩
      · omega
      · obtain rfl : c' = c := by omega
        have hLasts := linked_nodes hNew hTail hOnly
        refine ⟨_, hRun', .inr ⟨nodes ++ [c'], hServed, ⟨hServed.inv, ?_, h.headers_apart, ?_⟩,
          ?_, ?_⟩⟩
        · exact hLinked.record _ _
        · refine hGranted.stacked.push (List.subset_append_left _ _) ?_
            (List.mem_append_right _ List.mem_cons_self) (fun hOld => absurd hOld hNew)
            (Nat.le_refl _) ?_ ?_
          · intro b hIn
            exact Nat.le_of_eq ((hLasts b).2 hIn).1.symm
          · have hMultiple : c' % 32 = 0 := hAligned
            omega
          · have hLast : ptrAdd (c' + sizeofNode) n = c' + sizeofNode + n := ptrAdd_eq (by omega)
            exact Nat.le_of_eq (hLast.symm.trans ((hLasts c').1 rfl).1.symm)
        · have hData : Unused s.addr nodes larges ⟨c' + sizeofNode, n⟩ :=
            hBlock.mono ⟨Nat.le_add_right _ _, by simp only; omega⟩
          exact hData.header
        · exact fun r hIn => request_live hAsk' r hIn

/-- A request up to `max` whose search stays inside. -/
theorem mpAlloc_small_taken (h : Models size f s nodes larges pending) (hSize : n ≤ s.max)
    (hClear : ¬ MeetsOvershoot s.node n s.current) (hRun : mpAlloc fuel f n = some (m, f')) :
    ∃ s', MemPool.mpAlloc fuel s n = some (m, s') ∧
      (m = 0 ∧ Models size f' s' nodes larges pending ∨
        ∃ nodes', Taken size f' s s' nodes' larges pending m n) := by
  cases fuel with
  | zero => simp [mpAlloc] at hRun
  | succ fuel =>
      unfold mpAlloc at hRun
      rw [h.refines.max_eq, h.refines.current_eq, if_pos hSize] at hRun
      split at hRun
      · simp at hRun
      · rename_i q hFit
        have hFit' := findFit_refines h.refines h.node_next h.inv.current_mem hFit
        unfold MemPool.mpAlloc
        simp only [if_pos hSize, hFit']
        rcases h.inv.search_hasRoom hSize hClear hFit' with rfl | ⟨hNodes, hRoom⟩
        · rw [if_neg (by simp)] at hRun ⊢
          exact mpAllocBlock_taken h hSize hRun
        · have hNe := h.inv.chain.ne_null_of_mem hNodes
          rw [if_pos hNe] at hRun ⊢
          obtain ⟨hResult, hTaken⟩ := carve_taken h hNodes hRoom
          have hPair := Option.some.inj hRun
          obtain rfl : (carve f q n).2 = f' := congrArg Prod.snd hPair
          obtain rfl : (MemPool.carve s q n).1 = m := hResult.symm.trans (congrArg Prod.fst hPair)
          exact ⟨_, rfl, .inr ⟨nodes, hTaken⟩⟩

/-! ## Large requests -/

/-- In a pool too small for a header nothing is written. -/
theorem mpAlloc_tiny_models (h : Models size f s nodes [] pending) (hTiny : s.max < sizeofLarge)
    (hSize : s.max < n) (hRun : mpAlloc fuel f n = some (m, f')) :
    ∃ s', MemPool.mpAlloc fuel s n = some (m, s') ∧ m = 0 ∧ Models size f' s' nodes [] pending := by
  induction fuel generalizing f f' s pending m n with
  | zero => simp [mpAlloc] at hRun
  | succ fuel ih =>
      have hEmpty : s.large = 0 := h.inv.headers
      unfold mpAlloc mpAllocLarge at hRun
      rw [h.refines.max_eq, if_neg (Nat.not_le_of_lt hSize)] at hRun
      unfold MemPool.mpAlloc MemPool.mpAllocLarge
      rw [if_neg (Nat.not_le_of_lt hSize)]
      rcases hAsk : f.typed.malloc n with ⟨p, t⟩
      simp only [Ram.malloc, hAsk] at hRun
      obtain ⟨t', hAsk', hAnswer⟩ := h.request hAsk
      have hAsk'' : s.malloc n = (p, t') := hAsk'
      simp only [hAsk'']
      rcases hAnswer with ⟨rfl, hFailed⟩ | ⟨hPtr, -, -, -, hGranted⟩
      · rw [if_pos rfl] at hRun
        obtain ⟨rfl, rfl⟩ := Prod.mk.inj (Option.some.inj hRun)
        exact ⟨_, rfl, rfl, hFailed⟩
      · have hNoSlot : freeSlot (headerAt f.mem) 5 (poolAt f.mem f.addr).large = none := by
          rw [h.refines.large_eq, hEmpty, freeSlot_null]
        have hNoSlot' : freeSlot s.header 5 s.large = none := by
          rw [hEmpty, freeSlot_null]
        rw [if_neg hPtr] at hRun ⊢
        simp only [Ram.withSystem, hNoSlot] at hRun
        simp only [hNoSlot']
        unfold attachLarge at hRun
        unfold MemPool.attachLarge
        split at hRun
        · simp at hRun
        · rename_i l f₂ hHeader
          obtain ⟨s₂, hHeader', rfl, hModels⟩ := ih hGranted hTiny hTiny hHeader
          rw [if_pos rfl] at hRun
          obtain ⟨rfl, rfl⟩ := Prod.mk.inj (Option.some.inj hRun)
          simp only [hHeader', if_true]
          exact ⟨_, rfl, trivial, hModels.free hPtr⟩

/-- A new header is written into its own memory. -/
theorem header_written (mem : Memory) (l : Nat) {v : Nat} (hp : p < 2 ^ 64) (hv : v < 2 ^ 64) :
    SameOutside mem (setLargeNext (setAlloc mem l p) l v) ⟨l, sizeofLarge⟩ ∧
      headerAt (setLargeNext (setAlloc mem l p) l v) l = ⟨v, p⟩ := by
  constructor
  · exact (setAlloc_outside mem l p).trans (setLargeNext_outside _ l v)
  · rw [headerAt_setLargeNext hv, headerAt_setAlloc hp]

/-- What a served large request leaves: its memory belongs to a header. -/
def Attached (s s' : MemPool.Pool) (larges : List Nat) (m p : Nat) : Prop :=
  m ≠ 0 → m = p ∧ p ∈ allocs s'.header larges ∧ ∀ r ∈ s.live.regions, r ∈ s'.live.regions

/-- A header apart from the others joins them. -/
theorem apart_cons (hNew : ∀ d ∈ larges, Region.Apart ⟨l, sizeofLarge⟩ ⟨d, sizeofLarge⟩)
    (hOld : ∀ d ∈ larges, ∀ d' ∈ larges, d ≠ d' →
      Region.Apart ⟨d, sizeofLarge⟩ ⟨d', sizeofLarge⟩) :
    ∀ d ∈ l :: larges, ∀ d' ∈ l :: larges, d ≠ d' →
      Region.Apart ⟨d, sizeofLarge⟩ ⟨d', sizeofLarge⟩ := by
  intro d hIn d' hIn' hNe
  rcases List.mem_cons.mp hIn with rfl | hMem
  · rcases List.mem_cons.mp hIn' with rfl | hMem'
    · exact absurd rfl hNe
    · exact hNew d' hMem'
  · rcases List.mem_cons.mp hIn' with rfl | hMem'
    · exact (hNew d hMem).symm
    · exact hOld d hMem d' hMem' hNe

theorem attachLarge_models (h : Models size f s nodes larges (p :: pending)) (hPtr : p ≠ 0)
    (hWord : p < 2 ^ 64)
    (hClear : sizeofLarge ≤ s.max → ¬ MeetsOvershoot s.node sizeofLarge s.current)
    (hRun : attachLarge (mpAlloc fuel) f p = some (m, f')) :
    ∃ s' nodes' larges', MemPool.attachLarge (MemPool.mpAlloc fuel) s p = some (m, s') ∧
      Models size f' s' nodes' larges' pending ∧ Attached s s' larges' m p := by
  unfold attachLarge at hRun
  split at hRun
  · simp at hRun
  · rename_i l f₁ hHeader
    unfold MemPool.attachLarge
    by_cases hMax : sizeofLarge ≤ s.max
    · obtain ⟨s₁, hHeader', hOutcome⟩ := mpAlloc_small_taken h hMax (hClear hMax) hHeader
      simp only [hHeader']
      rcases hOutcome with ⟨rfl, hFailed⟩ | ⟨nodes', hTaken⟩
      · rw [if_pos rfl] at hRun
        obtain ⟨rfl, rfl⟩ := Prod.mk.inj (Option.some.inj hRun)
        exact ⟨_, nodes, larges, if_pos rfl, hFailed.free hPtr, fun hNe => absurd rfl hNe⟩
      · have hFresh : l ∉ larges := hTaken.served.fresh (by decide)
        rw [if_neg hTaken.served.ne_null] at hRun ⊢
        obtain ⟨rfl, rfl⟩ := Prod.mk.inj (Option.some.inj hRun)
        have hPool : (poolAt (setAlloc f₁.mem l p) f₁.addr).large = s₁.large := by
          have hApart := hTaken.unused.pool
          rw [← hTaken.models.refines.addr_eq] at hApart
          rw [poolAt_eq (setAlloc_outside f₁.mem l p) hApart, hTaken.models.refines.large_eq]
        have hFirst : s₁.large < 2 ^ 64 := by
          rw [← hTaken.models.refines.large_eq]
          exact load_word_lt _ _
        obtain ⟨hSame, hWritten⟩ := header_written f₁.mem l hWord hFirst
        have hNew := hTaken.models.refines.new_header hTaken.unused hFresh hSame
        rw [hWritten] at hNew
        obtain ⟨b, hMem, hLow, hHigh⟩ := hTaken.served.place
        have hInv := inv_push hTaken.served.inv hPtr hTaken.served.ne_null hFresh hMem hLow hHigh
          (hTaken.served.max_eq ▸ hMax)
        have hApart := apart_cons hTaken.apart h.headers_apart
        have hLayout := layout_of_inv hInv hApart
        have hBelow : l < 2 ^ 64 := by
          have hLast := hTaken.served.inv.last_le hMem
          have hTop := hTaken.served.inv.end_le_top hMem
          have hBound : addressTop < 2 ^ 64 := by decide
          omega
        rw [hPool]
        refine ⟨_, nodes', l :: larges, rfl,
          ⟨hInv, hNew.setLarge hLayout hBelow, hApart, hTaken.models.stacked⟩, ?_⟩
        intro _
        refine ⟨rfl, ?_, hTaken.live⟩
        show p ∈ allocs (Function.update s₁.header l ⟨s₁.large, p⟩) (l :: larges)
        rw [allocs_cons, Function.update_self, if_neg hPtr]
        exact List.mem_cons_self
    · have hTiny : s.max < sizeofLarge := Nat.lt_of_not_le hMax
      obtain rfl := h.inv.no_headers hTiny
      obtain ⟨s₁, hHeader', rfl, hModels⟩ := mpAlloc_tiny_models h hTiny hTiny hHeader
      rw [if_pos rfl] at hRun
      obtain ⟨rfl, rfl⟩ := Prod.mk.inj (Option.some.inj hRun)
      simp only [hHeader', if_true]
      exact ⟨_, nodes, [], rfl, hModels.free hPtr, fun hNe => absurd rfl hNe⟩

theorem mpAllocLarge_models (h : Models size f s nodes larges pending)
    (hClear : sizeofLarge ≤ s.max → s.Grants 16 n → freeSlot s.header 5 s.large = none →
      ¬ MeetsOvershoot s.node sizeofLarge s.current)
    (hRun : mpAllocLarge (mpAlloc fuel) f n = some (m, f')) :
    ∃ s' nodes' larges', MemPool.mpAllocLarge (MemPool.mpAlloc fuel) s n = some (m, s') ∧
      Models size f' s' nodes' larges' pending ∧
      (m ≠ 0 → Unused s'.addr nodes' larges' ⟨m, n⟩) := by
  unfold mpAllocLarge at hRun
  unfold MemPool.mpAllocLarge
  rcases hAsk : f.typed.malloc n with ⟨p, t⟩
  simp only [Ram.malloc, hAsk] at hRun
  obtain ⟨t', hAsk', hAnswer⟩ := h.request hAsk
  have hAsk'' : s.malloc n = (p, t') := hAsk'
  simp only [hAsk'']
  rcases hAnswer with ⟨rfl, hFailed⟩ | ⟨hPtr, hGrants, -, hLive, hGranted⟩
  · rw [if_pos rfl] at hRun
    obtain ⟨rfl, rfl⟩ := Prod.mk.inj (Option.some.inj hRun)
    exact ⟨_, nodes, larges, if_pos rfl, hFailed, fun hNe => absurd rfl hNe⟩
  · have hSlots : freeSlot (headerAt f.mem) 5 (poolAt f.mem f.addr).large =
        freeSlot s.header 5 s.large := by
      rw [h.refines.large_eq]
      exact freeSlot_refines h.refines h.header_next h.inv.headers.start_mem
    have hWord : p < 2 ^ 64 := live_lt hLive
    rw [if_neg hPtr] at hRun ⊢
    simp only [Ram.withSystem, hSlots] at hRun
    cases hSlot : freeSlot s.header 5 s.large with
    | some l =>
        simp only [hSlot] at hRun ⊢
        obtain ⟨rfl, rfl⟩ := Prod.mk.inj (Option.some.inj hRun)
        obtain ⟨hMem, hEmpty⟩ := freeSlot_spec h.inv.headers hSlot
        obtain ⟨hNodes, hHeaders⟩ := (inv_request h.inv hAsk').1
        have hEmpty' : (t'.header l).alloc = 0 := by
          rw [hHeaders]
          exact hEmpty
        have hInv := inv_fill hGranted.inv hPtr hMem hEmpty'
        have hRefines := hGranted.refines.setAlloc hGranted.layout hMem hWord
        refine ⟨_, nodes, larges, rfl, ⟨hInv, hRefines, h.headers_apart, hGranted.stacked⟩, ?_⟩
        intro _
        have hGot := unused_of_pending (s := { s with toHeap := t' }) hGranted.inv hLive
        exact hGot.mono ⟨Nat.le_refl _, Nat.add_le_add_left (Nat.le_max_left _ _) _⟩
    | none =>
        simp only [hSlot] at hRun ⊢
        obtain ⟨hNodes, -⟩ := (inv_request h.inv hAsk').1
        have hClear' : sizeofLarge ≤ s.max → ¬ MeetsOvershoot t'.node sizeofLarge s.current := by
          intro hMax
          rw [hNodes]
          exact hClear hMax hGrants hSlot
        obtain ⟨s', nodes', larges', hRun', hModels, hAttached⟩ :=
          attachLarge_models hGranted hPtr hWord hClear' hRun
        refine ⟨s', nodes', larges', hRun', hModels, ?_⟩
        intro hNe
        obtain ⟨rfl, hAlloc, hKept⟩ := hAttached hNe
        have hGot := unused_of_alloc hModels.inv hAlloc (hKept _ hLive)
        exact hGot.mono ⟨Nat.le_refl _, Nat.add_le_add_left (Nat.le_max_left _ _) _⟩

theorem mpAlloc_models (h : Models size f s nodes larges pending)
    (hClear : ∀ k, smallRequest s (.alloc n) = some k → ¬ MeetsOvershoot s.node k s.current)
    (hRun : mpAlloc fuel f n = some (m, f')) :
    ∃ s' nodes' larges', MemPool.mpAlloc fuel s n = some (m, s') ∧
      Models size f' s' nodes' larges' pending ∧
      (m ≠ 0 → Unused s'.addr nodes' larges' ⟨m, n⟩) := by
  simp only [smallRequest] at hClear
  by_cases hSize : n ≤ s.max
  · rw [if_pos hSize] at hClear
    obtain ⟨s', hRun', hOutcome⟩ := mpAlloc_small_taken h hSize (hClear n rfl) hRun
    rcases hOutcome with ⟨rfl, hFailed⟩ | ⟨nodes', hTaken⟩
    · exact ⟨s', nodes, larges, hRun', hFailed, fun hNe => absurd rfl hNe⟩
    · exact ⟨s', nodes', larges, hRun', hTaken.models, fun _ => hTaken.unused⟩
  · rw [if_neg hSize] at hClear
    cases fuel with
    | zero => simp [mpAlloc] at hRun
    | succ fuel =>
        unfold mpAlloc at hRun
        rw [h.refines.max_eq, if_neg hSize] at hRun
        unfold MemPool.mpAlloc
        rw [if_neg hSize]
        refine mpAllocLarge_models h ?_ hRun
        intro hMax hGrants hNoSlot
        exact hClear sizeofLarge (if_pos ⟨hMax, hGrants, hNoSlot⟩)

/-- The region that `mp_calloc` clears holds no structure. -/
theorem mpCalloc_models (h : Models size f s nodes larges pending)
    (hClear : ∀ k, smallRequest s (.calloc n) = some k → ¬ MeetsOvershoot s.node k s.current)
    (hRun : mpCalloc fuel f n = some (m, f')) :
    ∃ s' nodes' larges', MemPool.mpCalloc fuel s n = some (m, s') ∧
      Models size f' s' nodes' larges' pending := by
  unfold mpCalloc at hRun
  split at hRun
  · simp at hRun
  · rename_i p f₁ hAlloc
    obtain ⟨s', nodes', larges', hRun', hModels, hUnused⟩ := mpAlloc_models h hClear hAlloc
    split at hRun
    · obtain ⟨rfl, rfl⟩ := Prod.mk.inj (Option.some.inj hRun)
      exact ⟨s', nodes', larges', hRun', hModels⟩
    · rename_i hPtr
      obtain ⟨rfl, rfl⟩ := Prod.mk.inj (Option.some.inj hRun)
      have hSame : SameOutside f₁.mem (fill f₁.mem p n 0) ⟨p, n⟩ := fill_sameOutside
      have hCleared := hModels.refines.frame hSame (hUnused hPtr)
      exact ⟨s', nodes', larges', hRun', hModels.inv, hCleared, hModels.headers_apart,
        hModels.stacked⟩

theorem mpMemalign_models (h : Models size f s nodes larges pending)
    (hClear : ∀ k, smallRequest s (.memalign n alignment) = some k →
      ¬ MeetsOvershoot s.node k s.current)
    (hRun : mpMemalign fuel f n alignment = some (m, f')) :
    ∃ s' nodes' larges', MemPool.mpMemalign fuel s n alignment = some (m, s') ∧
      Models size f' s' nodes' larges' pending := by
  simp only [smallRequest] at hClear
  unfold mpMemalign at hRun
  unfold MemPool.mpMemalign
  rcases hAsk : f.typed.posixMemalign alignment n with ⟨p, t⟩
  simp only [Ram.posixMemalign, hAsk] at hRun
  obtain ⟨t', hAsk', hAnswer⟩ := h.request hAsk
  have hAsk'' : s.posixMemalign alignment n = (p, t') := hAsk'
  simp only [hAsk'']
  rcases hAnswer with ⟨rfl, hFailed⟩ | ⟨hPtr, hGrants, -, hLive, hGranted⟩
  · rw [if_pos rfl] at hRun
    obtain ⟨rfl, rfl⟩ := Prod.mk.inj (Option.some.inj hRun)
    exact ⟨_, nodes, larges, if_pos rfl, hFailed⟩
  · obtain ⟨hNodes, -⟩ := (inv_request h.inv hAsk').1
    have hClear' : sizeofLarge ≤ s.max → ¬ MeetsOvershoot t'.node sizeofLarge s.current := by
      intro hMax
      rw [hNodes]
      exact hClear sizeofLarge (if_pos ⟨hMax, hGrants⟩)
    rw [if_neg hPtr] at hRun ⊢
    obtain ⟨s', nodes', larges', hRun', hModels, -⟩ :=
      attachLarge_models hGranted hPtr (live_lt hLive) hClear' hRun
    exact ⟨s', nodes', larges', hRun', hModels⟩

/-! ## Giving back -/

theorem mpFree_models (h : Models size f s nodes larges pending)
    (hRun : mpFree fuel f p = some f') :
    ∃ s', MemPool.mpFree fuel s p = some s' ∧ Models size f' s' nodes larges pending := by
  unfold mpFree at hRun
  split at hRun
  · simp at hRun
  · rename_i l hFind
    rw [h.refines.large_eq] at hFind
    have hFind' := findAlloc_refines h.refines h.header_next h.inv.headers.start_mem hFind
    have hTyped : MemPool.mpFree fuel s p = if l = 0 then some s else
        some { s with
          toHeap := { s.free (s.header l).alloc with
            header := Function.update s.header l { s.header l with alloc := 0 } } } := by
      unfold MemPool.mpFree
      simp only [hFind']
    split at hRun
    · rename_i hNone
      obtain rfl := Option.some.inj hRun
      rw [if_pos hNone] at hTyped
      exact ⟨s, hTyped, h⟩
    · rename_i hFound
      obtain rfl := Option.some.inj hRun
      rw [if_neg hFound] at hTyped
      obtain ⟨hMem, -⟩ := (findAlloc_spec h.inv.headers hFind').resolve_left hFound
      have hFreed := (h.refines.free (s.header l).alloc).setAlloc h.layout hMem
        (show 0 < 2 ^ 64 by decide)
      simp only [free_header] at hFreed
      rw [h.refines.header_eq l hMem]
      refine ⟨_, hTyped, mpFree_inv h.inv hTyped, hFreed, h.headers_apart, ?_⟩
      show Stacked f.carves (s.free (s.header l).alloc).node nodes
      rw [free_node]
      exact h.stacked

theorem mpResetPool_models (h : Models size f s nodes larges pending)
    (hRun : mpResetPool fuel f = some f') :
    ∃ s', MemPool.mpResetPool fuel s = some s' ∧ Models size f' s' nodes [] pending := by
  unfold mpResetPool at hRun
  split at hRun
  · simp at hRun
  · rename_i t hFree
    rw [h.refines.large_eq] at hFree
    obtain ⟨t', hFree', hFreed⟩ :=
      freeLarge_refines h.refines h.header_next h.inv.headers.start_mem hFree
    have hNode : t'.node = s.node := (freeLarge_structures hFree').1
    split at hRun
    · simp at hRun
    · rename_i mem' hRewind
      obtain rfl := Option.some.inj hRun
      rw [h.refines.head_eq] at hRewind
      have hForgot := hFreed.setLarge h.layout (show 0 < 2 ^ 64 by decide)
      have hNext : ∀ b ∈ nodes, (t'.node b).next = 0 ∨ (t'.node b).next ∈ nodes := by
        rw [hNode]
        exact h.node_next
      obtain ⟨node', hRewind', hRewound⟩ :=
        rewindNodes_refines hForgot h.layout hNext (.inr h.inv.head_mem) hRewind
      have hRun' : MemPool.mpResetPool fuel s =
          some { s with toHeap := { t' with node := node' }, large := 0 } := by
        unfold MemPool.mpResetPool
        simp only at hRewind'
        simp only [hFree', hRewind']
      refine ⟨_, hRun', mpResetPool_inv h.inv hRun', ?_, by simp, Stacked.empty _ _⟩
      exact ⟨hRewound.addr_eq, hRewound.pool_eq, hRewound.node_eq, by simp,
        hRewound.system.answer_eq, hRewound.system.asked_eq, hRewound.system.live_eq,
        hRewound.system.calls_eq⟩

/-- **One call** on the memory of bytes is the same call on typed structures. -/
theorem exec_models {op : Op} (h : Models size f s nodes larges [])
    (hInside : ∀ k, smallRequest s op = some k → ¬ MeetsOvershoot s.node k s.current)
    (hRun : exec fuel f op = some (m, f')) :
    ∃ s' nodes' larges', MemPool.exec fuel s op = some (m, s') ∧
      Models size f' s' nodes' larges' [] := by
  cases op with
  | alloc n =>
      obtain ⟨s', nodes', larges', hRun', hModels, -⟩ := mpAlloc_models h hInside hRun
      exact ⟨s', nodes', larges', hRun', hModels⟩
  | calloc n => exact mpCalloc_models h hInside hRun
  | memalign n alignment => exact mpMemalign_models h hInside hRun
  | free p =>
      obtain ⟨g, hFree, hEq⟩ := Option.map_eq_some_iff.mp hRun
      obtain ⟨rfl, rfl⟩ := Prod.mk.inj hEq
      obtain ⟨s', hFree', hModels⟩ := mpFree_models h hFree
      exact ⟨s', nodes, larges, Option.map_eq_some_iff.mpr ⟨s', hFree', rfl⟩, hModels⟩
  | reset =>
      obtain ⟨g, hReset, hEq⟩ := Option.map_eq_some_iff.mp hRun
      obtain ⟨rfl, rfl⟩ := Prod.mk.inj hEq
      obtain ⟨s', hReset', hModels⟩ := mpResetPool_models h hReset
      exact ⟨s', nodes, [], Option.map_eq_some_iff.mpr ⟨s', hReset', rfl⟩, hModels⟩

end Bytes
end MemPool
end LinuxCppLearn
