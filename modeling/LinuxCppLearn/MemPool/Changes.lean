import LinuxCppLearn.MemPool.Ledger

/-!
# The changes of the memory pool

Every function of `mempool.c` is made of a few changes, and each of them keeps
the invariant of the ledger.  A function that obtains memory first and enters it
later carries it as pending in between.

* `request_cases`, `inv_request`, `inv_free` — system calls.
* `freeLarge_structures` — giving memory back leaves nodes and headers.
* `inv_take`, `inv_record`, `inv_grow` — taking memory from a node and linking
  a new one.
* `inv_fill`, `inv_push`, `inv_clear` — the list of headers.
* `inv_freeLarge`, `inv_rewind` — the two loops of a reset.
-/

namespace LinuxCppLearn
namespace MemPool

open LinkedChain Regions

/-- A call for memory fails, or hands out the proposed region. -/
theorem request_cases {heap heap' : Heap} {alignment n p : Nat} {call : Nat → SysCall}
    (hAsk : heap.request alignment n call = (p, heap')) :
    (p = 0 ∧ ¬ heap.Grants alignment n ∧
      heap' = { heap with asked := heap.asked + 1, calls := call 0 :: heap.calls }) ∨
    (p ≠ 0 ∧ ∃ hGrants : heap.Grants alignment n, p = (heap.proposal n).base ∧
      heap' = { heap with
        asked := heap.asked + 1
        live := heap.live.insert (heap.proposal n) hGrants.2.2
        calls := call p :: heap.calls }) := by
  unfold Heap.request at hAsk
  split at hAsk
  · rename_i hGrants
    right
    simp only [Prod.mk.injEq] at hAsk
    obtain ⟨rfl, rfl⟩ := hAsk
    have hPos := hGrants.2.2.1.1
    exact ⟨by omega, hGrants, rfl, rfl⟩
  · rename_i hRefused
    left
    simp only [Prod.mk.injEq] at hAsk
    obtain ⟨rfl, rfl⟩ := hAsk
    exact ⟨rfl, hRefused, rfl⟩

/-- Giving memory back leaves the structures of the pool. -/
theorem free_header (heap : Heap) (p : Nat) : (heap.free p).header = heap.header := by
  unfold Heap.free
  split
  · rfl
  · rfl

theorem free_node (heap : Heap) (p : Nat) : (heap.free p).node = heap.node := by
  unfold Heap.free
  split
  · rfl
  · rfl

/-- Giving back the memory of the headers leaves the structures. -/
theorem freeLarge_structures {fuel l : Nat} {heap heap' : Heap}
    (hRun : freeLarge fuel heap l = some heap') :
    heap'.node = heap.node ∧ heap'.header = heap.header := by
  induction fuel generalizing heap l with
  | zero => simp [freeLarge] at hRun
  | succ fuel ih =>
      unfold freeLarge at hRun
      split at hRun
      · rw [Option.some.inj hRun]
        exact ⟨rfl, rfl⟩
      · obtain ⟨hNode, hHeader⟩ := ih hRun
        exact ⟨hNode.trans (free_node _ _), hHeader.trans (free_header _ _)⟩

variable {size : Nat} {s : Pool} {nodes larges pending : List Nat} {p n l h : Nat}

/-- A call that fails changes nothing the invariant reads. -/
theorem inv_answered (hInv : Inv size s nodes larges pending) (k : Nat) (c : List SysCall) :
    Inv size { s with asked := k, calls := c } nodes larges pending :=
  { hInv with chain := hInv.chain }

/-- What a call hands out is pending first. -/
theorem inv_granted (hInv : Inv size s nodes larges pending) {r : Region}
    (hFits : s.live.Fits r) (k : Nat) (c : List SysCall) :
    Inv size { s with asked := k, live := s.live.insert r hFits, calls := c } nodes larges
      (r.base :: pending) :=
  { hInv with
    chain := hInv.chain
    block_live := fun h hMem => List.mem_cons_of_mem r (hInv.block_live h hMem)
    ledger := hInv.ledger.cons r.base }

/-- A call for memory, on the level of the pool. -/
theorem inv_request {heap : Heap} {alignment : Nat} {call : Nat → SysCall}
    (hInv : Inv size s nodes larges pending)
    (hAsk : s.request alignment n call = (p, heap)) :
    (heap.node = s.node ∧ heap.header = s.header) ∧
      ((p = 0 ∧ ¬ s.Grants alignment n ∧
          Inv size { s with toHeap := heap } nodes larges pending) ∨
        (p ≠ 0 ∧ s.Grants alignment n ∧ p % alignment = 0 ∧
          ⟨p, max n 1⟩ ∈ heap.live.regions ∧
          Inv size { s with toHeap := heap } nodes larges (p :: pending))) := by
  rcases request_cases hAsk with ⟨hNull, hRefused, rfl⟩ | ⟨hPtr, hGrants, rfl, rfl⟩
  · refine ⟨⟨rfl, rfl⟩, .inl ⟨hNull, hRefused, inv_answered hInv _ _⟩⟩
  · refine ⟨⟨rfl, rfl⟩, .inr ⟨hPtr, hGrants, hGrants.2.1, List.mem_cons_self, ?_⟩⟩
    exact inv_granted hInv hGrants.2.2 _ _

/-- Giving back pending memory. -/
theorem inv_free (hInv : Inv size s nodes larges (p :: pending)) (hPtr : p ≠ 0) :
    Inv size { s with toHeap := s.free p } nodes larges pending := by
  have hFree : s.free p = { s.toHeap with
      live := s.live.erase p, calls := .free p :: s.calls } := by
    unfold Heap.free
    rw [if_neg hPtr]
  rw [hFree]
  refine { hInv with
    chain := hInv.chain
    block_live := fun h hMem =>
      LiveRegions.mem_erase (hInv.block_live h hMem) (hInv.pending_not_block hMem)
    ledger := ?_ }
  have hErased := hInv.ledger.erase p
  rw [List.append_assoc, List.cons_append, List.erase_cons_head, ← List.append_assoc] at hErased
  show (s.live.erase p).bases.Perm _
  rw [LiveRegions.bases_erase]
  exact hErased

/-- Only the links of the nodes matter for the list of nodes. -/
theorem chain_of_next {node node' : Nat → MpNode} {a : Nat}
    (hChain : Chain (nodeNext node) 0 a nodes) (hSame : ∀ h, (node' h).next = (node h).next) :
    Chain (nodeNext node') 0 a nodes :=
  hChain.congr fun h _ => hSame h

/-- Moving `last` of one node up to an address inside the node. -/
theorem inv_take (hInv : Inv size s nodes larges pending) {a : Nat}
    (hLow : (s.node h).last ≤ a) (hHigh : a ≤ (s.node h).end_) :
    Inv size { s with node := Function.update s.node h { s.node h with last := a } } nodes
      larges pending := by
  let node' := Function.update s.node h { s.node h with last := a }
  have hSelf : node' h = { s.node h with last := a } := Function.update_self ..
  have hOther : ∀ b, b ≠ h → node' b = s.node b := fun b hNe => Function.update_of_ne hNe _ _
  have hNext : ∀ b, (node' b).next = (s.node b).next := by
    intro b
    by_cases hHere : b = h
    · rw [hHere, hSelf]
    · rw [hOther b hHere]
  have hGrows : ∀ b, (s.node b).last ≤ (node' b).last := by
    intro b
    by_cases hHere : b = h
    · rw [hHere, hSelf]
      exact hLow
    · rw [hOther b hHere]
  refine { hInv with
    chain := chain_of_next hInv.chain hNext
    spans := ?_
    header_inside := ?_ }
  · intro b hIn
    have hSpans := hInv.spans b hIn
    show Spans size node' b
    by_cases hHere : b = h
    · subst hHere
      have hLast : (node' b).last = a := by rw [hSelf]
      have hEnd : (node' b).end_ = (s.node b).end_ := by rw [hSelf]
      have hStart := hSpans.start_le_last
      exact ⟨hEnd.trans hSpans.end_eq, by omega, by omega⟩
    · have hSame := hOther b hHere
      exact ⟨hSame ▸ hSpans.end_eq, hSame ▸ hSpans.start_le_last, hSame ▸ hSpans.last_le_end⟩
  · intro l hIn
    obtain ⟨b, hNode, hStart, hEnd⟩ := hInv.header_inside l hIn
    exact ⟨b, hNode, hStart, Nat.le_trans hEnd (hGrows b)⟩

/-- Recording a region that lies in a node. -/
theorem inv_record (hInv : Inv size s nodes larges pending) {r : Region} (hMem : h ∈ nodes)
    (hLow : h + sizeofNode ≤ r.base) (hHigh : r.base + r.len ≤ h + sizeofNode + size) :
    Inv size { s with carved := r :: s.carved } nodes larges pending :=
  { hInv with
    chain := hInv.chain
    carved_inside := List.forall_mem_cons.mpr ⟨⟨h, hMem, hLow, hHigh⟩, hInv.carved_inside⟩ }

/-- A pending block is not in the list of nodes. -/
theorem new_node_not_mem {c : Nat} (hInv : Inv size s nodes larges (c :: pending))
    (hLive : ⟨c, sizeofNode + size⟩ ∈ s.live.regions) : c ∉ nodes := by
  intro hMem
  have hNode : sizeofNode = 32 := rfl
  obtain ⟨hBase, hEnd⟩ := block_bounds s size c
  have hSame : s.block size c = ⟨c, sizeofNode + size⟩ := by
    apply LiveRegions.eq_of_meet (x := c) (hInv.block_live c hMem) hLive hBase
    · rw [hEnd]
      omega
    · exact Nat.le_refl c
    · show c < c + (sizeofNode + size)
      omega
  apply hInv.pending_not_block hMem
  rw [hSame]

/-- Linking a pending block behind the last node `t`. -/
theorem inv_grow {c t current' : Nat} {node' : Nat → MpNode}
    (hInv : Inv size s nodes larges (c :: pending))
    (hLive : ⟨c, sizeofNode + size⟩ ∈ s.live.regions) (hAligned : c % 32 = 0)
    (hTail : t ∈ nodes) (hLast : (s.node t).next = 0)
    (hNew : Spans size node' c) (hEnd : (node' c).next = 0) (hLink : (node' t).next = c)
    (hKept : ∀ b ∈ nodes, (node' b).last = (s.node b).last ∧ (node' b).end_ = (s.node b).end_)
    (hNext : ∀ b ∈ nodes, b ≠ t → (node' b).next = (s.node b).next)
    (hCurrent : current' ∈ nodes ++ [c]) :
    Inv size { s with node := node', current := current' } (nodes ++ [c]) larges pending := by
  have hFresh : c ∉ nodes := new_node_not_mem hInv hLive
  have hHead : c ≠ s.head := fun hEq => hFresh (hEq ▸ hInv.head_mem)
  have hBlock : s.block size c = ⟨c, sizeofNode + size⟩ := if_neg hHead
  have hPtr : c ≠ 0 := by
    have hPos := (s.live.inside _ hLive).1
    exact Nat.pos_iff_ne_zero.mp hPos
  -- what holds of the old nodes and of the new one holds of the longer list
  have hMem : ∀ {P : Nat → Prop}, (∀ b ∈ nodes, P b) → P c → ∀ b ∈ nodes ++ [c], P b := by
    intro P hOld hC b hIn
    rcases List.mem_append.mp hIn with hIn | hIn
    · exact hOld b hIn
    · obtain rfl := List.mem_singleton.mp hIn
      exact hC
  refine { hInv with
    chain := hInv.chain.snoc hTail hLast hPtr hLink hEnd hNext
    current_mem := hCurrent
    spans := hMem ?_ hNew
    block_live := hMem hInv.block_live (show s.block size c ∈ _ from hBlock ▸ hLive)
    block_aligned := hMem hInv.block_aligned
      (show (s.block size c).base % 32 = 0 from hBlock ▸ hAligned)
    header_inside := ?_
    ledger := ?_
    carved_inside := ?_ }
  · intro b hIn
    have hSpans := hInv.spans b hIn
    obtain ⟨hSameLast, hSameEnd⟩ := hKept b hIn
    exact ⟨hSameEnd.trans hSpans.end_eq, hSameLast ▸ hSpans.start_le_last,
      hSameLast ▸ hSameEnd ▸ hSpans.last_le_end⟩
  · intro l hIn
    obtain ⟨b, hNode, hStart, hBelow⟩ := hInv.header_inside l hIn
    refine ⟨b, List.mem_append_left _ hNode, hStart, ?_⟩
    show l + sizeofLarge ≤ (node' b).last
    rw [(hKept b hNode).1]
    exact hBelow
  · refine hInv.ledger.trans ?_
    have hMap : (nodes ++ [c]).map (fun h => (s.block size h).base) =
        nodes.map (fun h => (s.block size h).base) ++ [c] := by
      rw [List.map_append, List.map_singleton, hBlock]
    show List.Perm _ (pending ++ (nodes ++ [c]).map (fun h => (s.block size h).base) ++
      allocs s.header larges)
    rw [hMap, List.cons_append, List.cons_append, ← List.append_assoc, List.append_assoc _ [c]]
    exact List.perm_middle.symm
  · intro r hIn
    obtain ⟨b, hNode, hInside⟩ := hInv.carved_inside r hIn
    exact ⟨b, List.mem_append_left _ hNode, hInside⟩

/-- Pending memory goes into an empty header. -/
theorem inv_fill (hInv : Inv size s nodes larges (p :: pending)) (hPtr : p ≠ 0)
    (hMem : l ∈ larges) (hEmpty : (s.header l).alloc = 0) :
    Inv size { s with header := Function.update s.header l { s.header l with alloc := p } }
      nodes larges pending := by
  refine { hInv with
    chain := hInv.chain
    headers := hInv.headers.congr ?_
    ledger := hInv.ledger.trans ?_ }
  · intro b _
    by_cases hHere : b = l
    · subst hHere
      simp [headerNext]
    · simp [headerNext, hHere]
  · have hFill := allocs_fill hInv.headers.nodup hMem hEmpty hPtr
    rw [List.cons_append, List.cons_append]
    exact List.perm_middle.symm.trans (hFill.symm.append_left _)

/-- Pending memory gets a new header at the front. -/
theorem inv_push (hInv : Inv size s nodes larges (p :: pending)) (hPtr : p ≠ 0) (hNe : l ≠ 0)
    (hNew : l ∉ larges) (hMem : h ∈ nodes) (hLow : h + sizeofNode ≤ l)
    (hHigh : l + sizeofLarge ≤ (s.node h).last) (hMax : sizeofLarge ≤ s.max) :
    Inv size { s with
      header := Function.update s.header l { alloc := p, next := s.large }
      large := l } nodes (l :: larges) pending := by
  have hSelf : Function.update s.header l { alloc := p, next := s.large } l =
      { alloc := p, next := s.large } := Function.update_self ..
  have hRest : Chain (headerNext (Function.update s.header l { alloc := p, next := s.large })) 0
      s.large larges := by
    refine hInv.headers.congr ?_
    intro b hIn
    have hOther : b ≠ l := fun hEq => hNew (hEq ▸ hIn)
    simp [headerNext, hOther]
  refine { hInv with
    chain := hInv.chain
    headers := ⟨rfl, hNe, ?_⟩
    header_inside := List.forall_mem_cons.mpr ⟨⟨h, hMem, hLow, hHigh⟩, hInv.header_inside⟩
    no_headers := fun hSmall => absurd hMax (Nat.not_le_of_lt hSmall)
    ledger := hInv.ledger.trans ?_ }
  · show Chain _ 0 (Function.update s.header l { alloc := p, next := s.large } l).next larges
    rw [hSelf]
    exact hRest
  · show List.Perm _ (_ ++ allocs (Function.update s.header l { alloc := p, next := s.large })
      (l :: larges))
    rw [allocs_cons, hSelf, if_neg hPtr, allocs_update hNew, List.cons_append, List.cons_append]
    exact List.perm_middle.symm

/-- The memory of a header becomes pending when the header forgets it. -/
theorem inv_clear (hInv : Inv size s nodes larges pending) (hMem : l ∈ larges)
    (hPtr : (s.header l).alloc ≠ 0) :
    Inv size { s with header := Function.update s.header l { s.header l with alloc := 0 } }
      nodes larges ((s.header l).alloc :: pending) := by
  refine { hInv with
    chain := hInv.chain
    headers := hInv.headers.congr ?_
    ledger := hInv.ledger.trans ?_ }
  · intro b _
    by_cases hHere : b = l
    · subst hHere
      simp [headerNext]
    · simp [headerNext, hHere]
  · have hClear := allocs_clear hInv.headers.nodup hMem hPtr
    rw [List.cons_append, List.cons_append]
    exact (hClear.append_left _).trans List.perm_middle

/-- A reset makes the memory of all headers pending. -/
theorem inv_forget (hInv : Inv size s nodes larges pending) :
    Inv size { s with large := 0 } nodes [] (allocs s.header larges ++ pending) := by
  refine { hInv with
    chain := hInv.chain
    headers := rfl
    header_inside := by simp
    no_headers := fun _ => rfl
    ledger := hInv.ledger.trans ?_ }
  show List.Perm _ (allocs s.header larges ++ pending ++ _ ++ [])
  rw [List.append_nil, List.append_assoc (allocs s.header larges)]
  exact List.perm_append_comm

/-- The first loop of a reset gives back what the headers remember. -/
theorem inv_freeLarge {fuel : Nat} {heap : Heap}
    (hInv : Inv size s nodes [] (allocs s.header larges ++ pending))
    (hChain : Chain (headerNext s.header) 0 l larges)
    (hLoop : freeLarge fuel s.toHeap l = some heap) :
    Inv size { s with toHeap := heap } nodes [] pending := by
  induction fuel generalizing s l larges with
  | zero => simp [freeLarge] at hLoop
  | succ fuel ih =>
      unfold freeLarge at hLoop
      split at hLoop
      · rename_i hNull
        subst hNull
        obtain rfl := hChain.eq_nil
        obtain rfl := Option.some.inj hLoop
        exact hInv
      · rename_i hNe
        obtain ⟨larges', rfl, hRest⟩ := hChain.exists_cons hNe
        rw [allocs_cons] at hInv
        have hHeader : (s.free (s.header l).alloc).header = s.header := free_header _ _
        let t : Pool := { s with toHeap := s.free (s.header l).alloc }
        have hFreed : Inv size t nodes [] (allocs t.header larges' ++ pending) := by
          show Inv size t nodes [] (allocs (s.free (s.header l).alloc).header larges' ++ pending)
          rw [hHeader]
          split at hInv
          -- an emptied header: `free(NULL)` gives nothing back
          · rename_i hEmpty
            show Inv size { s with toHeap := s.free (s.header l).alloc } nodes [] _
            rw [hEmpty]
            exact hInv
          · rename_i hPtr
            exact inv_free hInv hPtr
        have hRest' : Chain (headerNext t.header) 0 (s.header l).next larges' := by
          show Chain (headerNext (s.free (s.header l).alloc).header) 0 _ larges'
          rw [hHeader]
          exact hRest
        exact ih (s := t) hFreed hRest' hLoop

/-- The second loop of a reset empties the nodes. -/
theorem inv_rewind {fuel : Nat} {node' : Nat → MpNode} (hInv : Inv size s nodes [] pending)
    (hLoop : rewindNodes fuel s.node s.head = some node') :
    Inv size { s with node := node' } nodes [] pending := by
  obtain ⟨hIn, hOut⟩ := rewindNodes_spec hInv.chain hLoop
  refine { hInv with
    chain := hInv.chain.congr ?_
    spans := ?_
    header_inside := by simp }
  · intro b hMem
    show (node' b).next = (s.node b).next
    rw [hIn b hMem]
  · intro b hMem
    have hSpans := hInv.spans b hMem
    have hTop := hInv.end_le_top hMem
    have hEnd := hSpans.end_eq
    have hBound : addressTop < 2 ^ 64 := by decide
    show Spans size node' b
    have hLast : (node' b).last = b + sizeofNode := by
      rw [hIn b hMem]
      exact ptrAdd_eq (by omega)
    have hSame : (node' b).end_ = (s.node b).end_ := by rw [hIn b hMem]
    exact ⟨hSame.trans hEnd, by omega, by omega⟩

end MemPool
end LinuxCppLearn
