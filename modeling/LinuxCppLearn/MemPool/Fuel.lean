import LinuxCppLearn.Library.FuelLoop
import LinuxCppLearn.MemPool.Containment

/-!
# The fuel of the memory pool

The loops of `mempool.c` walk over lists that end, so a bound on the lengths of
the lists bounds their rounds, and a pool that has room for a header needs one
recursive call of `mp_alloc` at most.

* `findFit_loop`, `bumpFailed_loop`, `findAlloc_loop`, `freeLarge_loop`,
  `rewindNodes_loop`, `freeNodes_loop` — each loop by its body.
* `exec_mono` — more fuel does not change the result of a call.
* `exec_returns` — fuel above the lengths of the two lists suffices for every
  call, whether its search stays inside or not.
* `exec_result` — both, over runs.
-/

namespace LinuxCppLearn
namespace MemPool

open LinkedChain Regions FuelLoop StepSystem

/-! ## The bodies of the loops -/

def findFitBody (node : Nat → MpNode) (size p : Nat) : Nat ⊕ Nat :=
  if size ≤ ptrDiff (node p).end_ (mpAlignPtr (node p).last mpAlignment) then .inr p
  else if (node p).next = 0 then .inr 0
  else .inl (node p).next

theorem findFit_loop (node : Nat → MpNode) (size : Nat) :
    IsLoop (findFit node size) (findFitBody node size) where
  zero _ := rfl
  succ fuel p := by
    simp only [findFit, findFitBody]
    split
    · rfl
    · split
      · rfl
      · rfl

/-- The memory, the node the walk is at, and `current`. -/
def bumpFailedBody : (Nat → MpNode) × Nat × Nat →
    ((Nat → MpNode) × Nat × Nat) ⊕ (Nat × Nat × (Nat → MpNode))
  | (node, p, current) =>
      if (node p).next = 0 then .inr (p, current, node)
      else .inl
        (Function.update node p { node p with failed := ((node p).failed + 1) % 2 ^ 64 },
          (node p).next, if 4 < (node p).failed then (node p).next else current)

theorem bumpFailed_loop :
    IsLoop (fun fuel s => bumpFailed fuel s.1 s.2.1 s.2.2) bumpFailedBody where
  zero _ := rfl
  succ fuel s := by
    obtain ⟨node, p, current⟩ := s
    simp only [bumpFailed, bumpFailedBody]
    split
    · rfl
    · rfl

def findAllocBody (header : Nat → MpLarge) (p l : Nat) : Nat ⊕ Nat :=
  if l = 0 then .inr 0
  else if p = (header l).alloc then .inr l
  else .inl (header l).next

theorem findAlloc_loop (header : Nat → MpLarge) (p : Nat) :
    IsLoop (findAlloc header p) (findAllocBody header p) where
  zero _ := rfl
  succ fuel l := by
    simp only [findAlloc, findAllocBody]
    split
    · rfl
    · split
      · rfl
      · rfl

def freeLargeBody : Heap × Nat → (Heap × Nat) ⊕ Heap
  | (heap, l) =>
      if l = 0 then .inr heap
      else .inl (heap.free (heap.header l).alloc, (heap.header l).next)

theorem freeLarge_loop : IsLoop (fun fuel s => freeLarge fuel s.1 s.2) freeLargeBody where
  zero _ := rfl
  succ fuel s := by
    obtain ⟨heap, l⟩ := s
    simp only [freeLarge, freeLargeBody]
    split
    · rfl
    · rfl

def rewindNodesBody : (Nat → MpNode) × Nat → ((Nat → MpNode) × Nat) ⊕ (Nat → MpNode)
  | (node, h) =>
      if h = 0 then .inr node
      else .inl
        (Function.update node h { node h with last := ptrAdd h sizeofNode }, (node h).next)

theorem rewindNodes_loop : IsLoop (fun fuel s => rewindNodes fuel s.1 s.2) rewindNodesBody where
  zero _ := rfl
  succ fuel s := by
    obtain ⟨node, h⟩ := s
    simp only [rewindNodes, rewindNodesBody]
    split
    · rfl
    · rfl

def freeNodesBody : Heap × Nat → (Heap × Nat) ⊕ Heap
  | (heap, h) => if h = 0 then .inr heap else .inl (heap.free h, (heap.node h).next)

theorem freeNodes_loop : IsLoop (fun fuel s => freeNodes fuel s.1 s.2) freeNodesBody where
  zero _ := rfl
  succ fuel s := by
    obtain ⟨heap, h⟩ := s
    simp only [freeNodes, freeNodesBody]
    split
    · rfl
    · rfl

/-! ## More fuel -/

section More

variable {s s' : Pool} {m n p fuel fuel' : Nat} {r : Nat × Pool}

theorem bumpFailed_mono {node : Nat → MpNode} {current : Nat} {t : Nat × Nat × (Nat → MpNode)}
    (hRun : bumpFailed fuel node p current = some t) (hLe : fuel ≤ fuel') :
    bumpFailed fuel' node p current = some t :=
  bumpFailed_loop.mono (s := (node, p, current)) hRun hLe

theorem freeLarge_mono {heap heap' : Heap} {l : Nat} (hRun : freeLarge fuel heap l = some heap')
    (hLe : fuel ≤ fuel') : freeLarge fuel' heap l = some heap' :=
  freeLarge_loop.mono (s := (heap, l)) hRun hLe

theorem rewindNodes_mono {node node' : Nat → MpNode} {h : Nat}
    (hRun : rewindNodes fuel node h = some node') (hLe : fuel ≤ fuel') :
    rewindNodes fuel' node h = some node' :=
  rewindNodes_loop.mono (s := (node, h)) hRun hLe

theorem mpAllocBlock_mono (hRun : mpAllocBlock fuel s n = some r) (hLe : fuel ≤ fuel') :
    mpAllocBlock fuel' s n = some r := by
  unfold mpAllocBlock at hRun ⊢
  simp only at hRun ⊢
  split
  · rename_i hNull
    rw [if_pos hNull] at hRun
    exact hRun
  · rename_i hPtr
    rw [if_neg hPtr] at hRun
    split at hRun
    · simp at hRun
    · rename_i hWalk
      rw [bumpFailed_mono hWalk hLe]
      exact hRun

/-- A call that asks `mp_alloc` for a header gets the same answer from any
`mp_alloc` that answers at least as often. -/
theorem attachLarge_mono {alloc alloc' : Pool → Nat → Option (Nat × Pool)}
    (hAlloc : ∀ s n r, alloc s n = some r → alloc' s n = some r)
    (hRun : attachLarge alloc s p = some r) : attachLarge alloc' s p = some r := by
  unfold attachLarge at hRun ⊢
  split at hRun
  · simp at hRun
  · rename_i hHeader
    rw [hAlloc _ _ _ hHeader]
    exact hRun

theorem mpAllocLarge_mono {alloc alloc' : Pool → Nat → Option (Nat × Pool)}
    (hAlloc : ∀ s n r, alloc s n = some r → alloc' s n = some r)
    (hRun : mpAllocLarge alloc s n = some r) : mpAllocLarge alloc' s n = some r := by
  unfold mpAllocLarge at hRun ⊢
  simp only at hRun ⊢
  split
  · rename_i hNull
    rw [if_pos hNull] at hRun
    exact hRun
  · rename_i hPtr
    rw [if_neg hPtr] at hRun
    split
    · rename_i hSlot
      rw [hSlot] at hRun
      exact hRun
    · rename_i hSlot
      rw [hSlot] at hRun
      exact attachLarge_mono hAlloc hRun

theorem mpAlloc_mono (hRun : mpAlloc fuel s n = some r) (hLe : fuel ≤ fuel') :
    mpAlloc fuel' s n = some r := by
  induction fuel generalizing fuel' s n r with
  | zero => simp [mpAlloc] at hRun
  | succ fuel ih =>
      obtain ⟨k, rfl⟩ : ∃ k, fuel' = k + 1 := ⟨fuel' - 1, by omega⟩
      have hLess : fuel ≤ k := by omega
      unfold mpAlloc at hRun ⊢
      by_cases hSize : n ≤ s.max
      · rw [if_pos hSize] at hRun ⊢
        split at hRun
        · simp at hRun
        · rename_i q hFit
          rw [(findFit_loop s.node n).mono hFit hLess]
          by_cases hFound : q ≠ 0
          · rw [if_pos hFound] at hRun
            simp only [if_pos hFound]
            exact hRun
          · rw [if_neg hFound] at hRun
            simp only [if_neg hFound]
            exact mpAllocBlock_mono hRun hLess
      · rw [if_neg hSize] at hRun ⊢
        exact mpAllocLarge_mono (fun s n r hHeader => ih hHeader hLess) hRun

theorem mpMemalign_mono {alignment : Nat} (hRun : mpMemalign fuel s n alignment = some r)
    (hLe : fuel ≤ fuel') : mpMemalign fuel' s n alignment = some r := by
  unfold mpMemalign at hRun ⊢
  simp only at hRun ⊢
  split
  · rename_i hNull
    rw [if_pos hNull] at hRun
    exact hRun
  · rename_i hPtr
    rw [if_neg hPtr] at hRun
    exact attachLarge_mono (fun s n r hHeader => mpAlloc_mono hHeader hLe) hRun

theorem mpFree_mono (hRun : mpFree fuel s p = some s') (hLe : fuel ≤ fuel') :
    mpFree fuel' s p = some s' := by
  unfold mpFree at hRun ⊢
  split at hRun
  · simp at hRun
  · rename_i hFind
    rw [(findAlloc_loop s.header p).mono hFind hLe]
    exact hRun

theorem mpResetPool_mono (hRun : mpResetPool fuel s = some s') (hLe : fuel ≤ fuel') :
    mpResetPool fuel' s = some s' := by
  unfold mpResetPool at hRun ⊢
  split at hRun
  · simp at hRun
  · rename_i hFree
    rw [freeLarge_mono hFree hLe]
    split at hRun
    · simp at hRun
    · rename_i hRewind
      simp only
      rw [rewindNodes_mono hRewind hLe]
      exact hRun

theorem mpDestoryPool_mono {heap : Heap} (hRun : mpDestoryPool fuel s = some heap)
    (hLe : fuel ≤ fuel') : mpDestoryPool fuel' s = some heap := by
  unfold mpDestoryPool at hRun ⊢
  split at hRun
  · simp at hRun
  · rename_i heap' hFree
    rw [freeLarge_mono hFree hLe]
    split at hRun
    · simp at hRun
    · rename_i hNodes
      have hNodes' := freeNodes_loop.mono (s := (heap', (heap'.node s.head).next)) hNodes hLe
      simp only at hNodes' ⊢
      rw [hNodes']
      exact hRun

/-- **Fuel is a bound and nothing else**: more of it gives the same result. -/
theorem exec_mono {op : Op} (hRun : exec fuel s op = some r) (hLe : fuel ≤ fuel') :
    exec fuel' s op = some r := by
  cases op with
  | alloc n => exact mpAlloc_mono hRun hLe
  | calloc n => exact mpAlloc_mono hRun hLe
  | memalign n alignment => exact mpMemalign_mono hRun hLe
  | free p =>
      obtain ⟨t, hFree, rfl⟩ := Option.map_eq_some_iff.mp hRun
      exact Option.map_eq_some_iff.mpr ⟨t, mpFree_mono hFree hLe, rfl⟩
  | reset =>
      obtain ⟨t, hReset, rfl⟩ := Option.map_eq_some_iff.mp hRun
      exact Option.map_eq_some_iff.mpr ⟨t, mpResetPool_mono hReset hLe, rfl⟩

end More

/-! ## Enough fuel -/

section Enough

variable {size : Nat} {s : Pool} {nodes larges pending l : List Nat} {n p fuel : Nat}

theorem findFit_returns {node : Nat → MpNode} (hChain : Chain (nodeNext node) 0 p l)
    (hStart : p ≠ 0) (hFuel : l.length < fuel) : ∃ q, findFit node n fuel p = some q := by
  refine (findFit_loop node n).returns
    (R := fun p k => p ≠ 0 ∧ EndsIn (nodeNext node) 0 p k) ?_ ⟨hStart, l, hChain, rfl⟩ hFuel
  intro p k p' hRank hBody
  unfold findFitBody at hBody
  split at hBody
  · simp at hBody
  · split at hBody
    · simp at hBody
    · rename_i hMore
      obtain rfl := Sum.inl.inj hBody
      obtain ⟨j, hLess, hRest⟩ := hRank.2.step hRank.1
      exact ⟨j, hLess, hMore, hRest⟩

theorem bumpFailed_returns {node : Nat → MpNode} (current : Nat)
    (hChain : Chain (nodeNext node) 0 p l) (hStart : p ≠ 0) (hFuel : l.length < fuel) :
    ∃ t, bumpFailed fuel node p current = some t := by
  refine bumpFailed_loop.returns (s := (node, p, current))
    (R := fun s k => s.2.1 ≠ 0 ∧ EndsIn (nodeNext s.1) 0 s.2.1 k) ?_ ⟨hStart, l, hChain, rfl⟩
    hFuel
  rintro ⟨node, p, current⟩ k s' ⟨hNe, hEnds⟩ hBody
  simp only [bumpFailedBody] at hBody
  split at hBody
  · simp at hBody
  · rename_i hMore
    obtain rfl := Sum.inl.inj hBody
    obtain ⟨j, hLess, hRest⟩ := hEnds.step hNe
    -- counting a failure leaves the links
    exact ⟨j, hLess, hMore, hRest.congr fun b => (sameButFailed_update node p _ b).2.2⟩

theorem findAlloc_returns {header : Nat → MpLarge} {q : Nat}
    (hChain : Chain (headerNext header) 0 q l) (hFuel : l.length < fuel) :
    ∃ r, findAlloc header p fuel q = some r := by
  refine (findAlloc_loop header p).returns (R := EndsIn (headerNext header) 0) ?_
    ⟨l, hChain, rfl⟩ hFuel
  intro q k q' hEnds hBody
  unfold findAllocBody at hBody
  split at hBody
  · simp at hBody
  · rename_i hNe
    split at hBody
    · simp at hBody
    · obtain rfl := Sum.inl.inj hBody
      exact hEnds.step hNe

theorem freeLarge_returns {heap : Heap} {q : Nat} (hChain : Chain (headerNext heap.header) 0 q l)
    (hFuel : l.length < fuel) : ∃ heap', freeLarge fuel heap q = some heap' := by
  refine freeLarge_loop.returns (s := (heap, q))
    (R := fun s k => EndsIn (headerNext s.1.header) 0 s.2 k) ?_ ⟨l, hChain, rfl⟩ hFuel
  rintro ⟨heap, q⟩ k s' hEnds hBody
  simp only [freeLargeBody] at hBody
  split at hBody
  · simp at hBody
  · rename_i hNe
    obtain rfl := Sum.inl.inj hBody
    obtain ⟨j, hLess, hRest⟩ := hEnds.step hNe
    refine ⟨j, hLess, ?_⟩
    simp only [free_header]
    exact hRest

theorem rewindNodes_returns {node : Nat → MpNode} {h : Nat}
    (hChain : Chain (nodeNext node) 0 h l) (hFuel : l.length < fuel) :
    ∃ node', rewindNodes fuel node h = some node' := by
  refine rewindNodes_loop.returns (s := (node, h))
    (R := fun s k => EndsIn (nodeNext s.1) 0 s.2 k) ?_ ⟨l, hChain, rfl⟩ hFuel
  rintro ⟨node, h⟩ k s' hEnds hBody
  simp only [rewindNodesBody] at hBody
  split at hBody
  · simp at hBody
  · rename_i hNe
    obtain rfl := Sum.inl.inj hBody
    obtain ⟨j, hLess, hRest⟩ := hEnds.step hNe
    refine ⟨j, hLess, hRest.congr fun b => ?_⟩
    by_cases hHere : b = h
    · subst hHere
      simp [nodeNext]
    · simp [nodeNext, hHere]

theorem freeNodes_returns {heap : Heap} {h : Nat} (hChain : Chain (nodeNext heap.node) 0 h l)
    (hFuel : l.length < fuel) : ∃ heap', freeNodes fuel heap h = some heap' := by
  refine freeNodes_loop.returns (s := (heap, h))
    (R := fun s k => EndsIn (nodeNext s.1.node) 0 s.2 k) ?_ ⟨l, hChain, rfl⟩ hFuel
  rintro ⟨heap, h⟩ k s' hEnds hBody
  simp only [freeNodesBody] at hBody
  split at hBody
  · simp at hBody
  · rename_i hNe
    obtain rfl := Sum.inl.inj hBody
    obtain ⟨j, hLess, hRest⟩ := hEnds.step hNe
    refine ⟨j, hLess, ?_⟩
    simp only [free_node]
    exact hRest

/-- `mp_alloc_block` walks over the old list, whatever the system answers. -/
theorem mpAllocBlock_returns (hInv : Inv size s nodes larges pending)
    (hFuel : nodes.length < fuel) : ∃ r, mpAllocBlock fuel s n = some r := by
  unfold mpAllocBlock
  rw [psize_eq hInv]
  rcases hAsk : s.posixMemalign mpAlignment (sizeofNode + size) with ⟨c, heap⟩
  simp only [hAsk]
  split
  · exact ⟨_, rfl⟩
  · rename_i hPtr
    rcases (inv_request hInv hAsk).2 with ⟨hNull, _, _⟩ | ⟨_, _, _, hLive, hGranted⟩
    · exact absurd hNull hPtr
    · have hNode : sizeofNode = 32 := rfl
      rw [Nat.max_eq_left (by omega)] at hLive
      have hNew : c ∉ nodes := new_node_not_mem hGranted hLive
      obtain ⟨l, hChain, hSuffix⟩ := hGranted.chain_new hNew
        { last := ptrAdd (mpAlignPtr (ptrAdd c sizeofNode) mpAlignment) n
          end_ := ptrAdd c (sizeofNode + size), next := 0, failed := 0 }
      obtain ⟨t, hWalk⟩ := bumpFailed_returns s.current hChain hInv.current_ne
        (Nat.lt_of_le_of_lt hSuffix.length_le hFuel)
      simp only [hWalk]
      exact ⟨_, rfl⟩

theorem mpAlloc_small_returns (hInv : Inv size s nodes larges pending) (hSize : n ≤ s.max)
    (hFuel : nodes.length + 1 < fuel) : ∃ r, mpAlloc fuel s n = some r := by
  obtain ⟨k, rfl⟩ : ∃ k, fuel = k + 1 := ⟨fuel - 1, by omega⟩
  have hEnough : nodes.length < k := by omega
  unfold mpAlloc
  rw [if_pos hSize]
  obtain ⟨l, hChain, hSuffix⟩ := hInv.chain.suffix hInv.current_mem
  obtain ⟨q, hFit⟩ := findFit_returns (n := n) hChain hInv.current_ne
    (Nat.lt_of_le_of_lt hSuffix.length_le hEnough)
  simp only [hFit]
  split
  · exact ⟨_, rfl⟩
  · exact mpAllocBlock_returns hInv hEnough

theorem attachLarge_returns {alloc : Pool → Nat → Option (Nat × Pool)}
    (hHeader : ∃ r, alloc s sizeofLarge = some r) : ∃ r, attachLarge alloc s p = some r := by
  obtain ⟨⟨large, t⟩, hHeader⟩ := hHeader
  unfold attachLarge
  simp only [hHeader]
  split
  · exact ⟨_, rfl⟩
  · exact ⟨_, rfl⟩

/-- The recursion of `mp_alloc` has depth two: the request for a header is a
small one. -/
theorem mpAlloc_returns (hInv : Inv size s nodes larges pending) (hMax : sizeofLarge ≤ s.max)
    (hFuel : nodes.length + 2 < fuel) : ∃ r, mpAlloc fuel s n = some r := by
  by_cases hSize : n ≤ s.max
  · exact mpAlloc_small_returns hInv hSize (by omega)
  · obtain ⟨k, rfl⟩ : ∃ k, fuel = k + 1 := ⟨fuel - 1, by omega⟩
    unfold mpAlloc mpAllocLarge
    rw [if_neg hSize]
    rcases hAsk : s.malloc n with ⟨p, heap⟩
    simp only
    split
    · exact ⟨_, rfl⟩
    · rename_i hPtr
      rcases (inv_request hInv hAsk).2 with ⟨hNull, _, _⟩ | ⟨_, _, _, _, hGranted⟩
      · exact absurd hNull hPtr
      · split
        · exact ⟨_, rfl⟩
        · exact attachLarge_returns (mpAlloc_small_returns hGranted hMax (by omega))

theorem mpMemalign_returns {alignment : Nat} (hInv : Inv size s nodes larges pending)
    (hMax : sizeofLarge ≤ s.max) (hFuel : nodes.length + 1 < fuel) :
    ∃ r, mpMemalign fuel s n alignment = some r := by
  unfold mpMemalign
  rcases hAsk : s.posixMemalign alignment n with ⟨p, heap⟩
  simp only
  split
  · exact ⟨_, rfl⟩
  · rename_i hPtr
    rcases (inv_request hInv hAsk).2 with ⟨hNull, _, _⟩ | ⟨_, _, _, _, hGranted⟩
    · exact absurd hNull hPtr
    · exact attachLarge_returns (mpAlloc_small_returns hGranted hMax hFuel)

theorem mpFree_returns (hInv : Inv size s nodes larges pending) (hFuel : larges.length < fuel) :
    ∃ s', mpFree fuel s p = some s' := by
  obtain ⟨q, hFind⟩ := findAlloc_returns (p := p) hInv.headers hFuel
  unfold mpFree
  simp only [hFind]
  split
  · exact ⟨_, rfl⟩
  · exact ⟨_, rfl⟩

theorem mpResetPool_returns (hInv : Inv size s nodes larges pending)
    (hFuel : nodes.length < fuel) (hFuel' : larges.length < fuel) :
    ∃ s', mpResetPool fuel s = some s' := by
  obtain ⟨heap, hFree⟩ := freeLarge_returns hInv.headers hFuel'
  obtain ⟨node', hRewind⟩ := rewindNodes_returns hInv.chain hFuel
  unfold mpResetPool
  simp only [hFree, (freeLarge_structures hFree).1, hRewind]
  exact ⟨_, rfl⟩

theorem mpDestoryPool_returns (hInv : Inv size s nodes larges pending)
    (hFuel : nodes.length < fuel) (hFuel' : larges.length < fuel) :
    ∃ heap, mpDestoryPool fuel s = some heap := by
  obtain ⟨heap, hFree⟩ := freeLarge_returns hInv.headers hFuel'
  obtain ⟨nodes', rfl, hRest⟩ := hInv.chain.exists_cons (hInv.chain.ne_null_of_mem hInv.head_mem)
  have hNodes : Chain (nodeNext heap.node) 0 (heap.node s.head).next nodes' := by
    rw [(freeLarge_structures hFree).1]
    exact hRest
  obtain ⟨heap', hNodesRun⟩ := freeNodes_returns hNodes (Nat.lt_of_succ_lt hFuel)
  unfold mpDestoryPool
  simp only [hFree, hNodesRun]
  exact ⟨_, rfl⟩

/-- **Enough fuel**: in a pool with room for a header, fuel above the lengths of
the two lists suffices for every call. -/
theorem exec_returns {op : Op} (hInv : Inv size s nodes larges pending)
    (hMax : sizeofLarge ≤ s.max) (hFuel : nodes.length + 2 < fuel)
    (hFuel' : larges.length < fuel) : ∃ r, exec fuel s op = some r := by
  cases op with
  | alloc n => exact mpAlloc_returns hInv hMax hFuel
  | calloc n => exact mpAlloc_returns hInv hMax hFuel
  | memalign n alignment => exact mpMemalign_returns hInv hMax (by omega)
  | free p =>
      obtain ⟨t, hFree⟩ := mpFree_returns (p := p) hInv hFuel'
      exact ⟨(0, t), Option.map_eq_some_iff.mpr ⟨t, hFree, rfl⟩⟩
  | reset =>
      obtain ⟨t, hReset⟩ := mpResetPool_returns hInv (by omega) hFuel'
      exact ⟨(0, t), Option.map_eq_some_iff.mpr ⟨t, hReset, rfl⟩⟩

/-- **Every call has a result** that does not depend on the fuel, in every
state of a run whose searches stay inside, in a pool with room for a header. -/
theorem exec_result {node : Nat → MpNode} {header : Nat → MpLarge} {answer : Nat → Nat}
    {s₀ : Pool} (hSize : size + (sizeofPool + sizeofNode) < 2 ^ 64)
    (hCreate : mpCreatePool (Heap.start node header answer) size = some s₀)
    (hNull : (s₀.node s₀.head).next = 0) (hRoom : sizeofLarge ≤ size)
    (hReach : Reach step StaysInside s₀ s) (op : Op) :
    ∃ r least, ∀ fuel, least ≤ fuel → exec fuel s op = some r := by
  obtain ⟨nodes, larges, hInv⟩ := inv_reach ⟨_, _, mpCreatePool_inv hSize hCreate hNull⟩ hReach
  have hMax : sizeofLarge ≤ s.max := by
    have hEq := hInv.max_eq
    have hPage : sizeofLarge ≤ mpMaxAllocFromPool := by decide
    split at hEq <;> omega
  obtain ⟨r, hRun⟩ : ∃ r, exec (nodes.length + larges.length + 3) s op = some r :=
    exec_returns hInv hMax (by omega) (by omega)
  exact ⟨r, nodes.length + larges.length + 3, fun _ hLe => exec_mono hRun hLe⟩

end Enough

end MemPool
end LinuxCppLearn
