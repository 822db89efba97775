import LinuxCppLearn.Library.StepSystem
import LinuxCppLearn.MemPool.SmallRequests

/-!
# Small allocations lie inside their blocks

`mp_alloc` aligns `last` up before it compares the room of a node with the
request, and it takes the difference as a `size_t`.  When the aligned address
lies beyond the end of the node, the difference wraps around and the test passes
for every request, so that the memory handed out begins behind the block.  This
happens exactly when the search for a node comes to one that overshoots before
it comes to one with room.

* `smallRequest` — the request up to `max` that a call makes, for the client or
  for a header.
* `exec_inv` — a call whose search stays inside keeps the invariant.
* `exec_escapes` — a call whose search does not hands out memory of no block.
* `small_allocations_contained_exactly` — both, over runs.
-/

namespace LinuxCppLearn
namespace MemPool

open LinkedChain Regions StepSystem

/-- The node at `h` is on the list of the pool. -/
def OnList (s : Pool) (h : Nat) : Prop :=
  ∃ nodes, Chain (nodeNext s.node) 0 s.head nodes ∧ h ∈ nodes

/-- The region lies in one node of the list, behind its structure. -/
def InBlock (s : Pool) (r : Region) : Prop :=
  ∃ h, OnList s h ∧ h + sizeofNode ≤ r.base ∧ r.base + r.len ≤ (s.node h).end_

/-- The size of the request up to `max` which `mp_alloc` serves during a call.
A larger request and `mp_memalign` make one when a header is needed, after the
system has granted the memory itself. -/
def smallRequest (s : Pool) : Op → Option Nat
  | .alloc n | .calloc n =>
      if n ≤ s.max then some n
      else if sizeofLarge ≤ s.max ∧ s.Grants 16 n ∧ freeSlot s.header 5 s.large = none then
        some sizeofLarge
      else none
  | .memalign n alignment =>
      if sizeofLarge ≤ s.max ∧ s.Grants alignment n then some sizeofLarge else none
  | .free _ | .reset => none

/-- The search of the call comes to no node that overshoots. -/
def StaysInside (s : Pool) (a : Action) : Prop :=
  ∀ n, smallRequest s a.1 = some n → ¬ MeetsOvershoot s.node n s.current

/-- The search ends at the first node if that has room. -/
theorem staysInside_of_room {s : Pool} {a : Action}
    (h : ∀ n ∈ smallRequest s a.1, HasRoom s.node n s.current) : StaysInside s a := by
  intro n hRequest hMeets
  have hRoom := h n hRequest
  cases hMeets with
  | here hOver =>
      unfold HasRoom at hRoom
      unfold Overshoots at hOver
      omega
  | later hFull => exact hFull hRoom

/-- The call takes its memory from a node that overshoots. -/
def Escapes (s s' : Pool) (nodes : List Nat) (n : Nat) : Prop :=
  ∃ q ∈ nodes, Overshoots s.node q ∧ s'.addr = s.addr ∧ s'.node = (carve s q n).2.node ∧
    ⟨(carve s q n).1, n⟩ ∈ s'.carved

variable {size : Nat} {s s' : Pool} {nodes larges pending : List Nat} {m n p fuel : Nat}

theorem Inv.onList_iff (hInv : Inv size s nodes larges pending) {h : Nat} :
    OnList s h ↔ h ∈ nodes := by
  constructor
  · rintro ⟨nodes', hChain, hMem⟩
    rw [hInv.chain.unique hChain]
    exact hMem
  · intro hMem
    exact ⟨nodes, hInv.chain, hMem⟩

theorem Inv.inBlock (hInv : Inv size s nodes larges pending) {r : Region}
    (hMem : r ∈ s.carved) : InBlock s r := by
  obtain ⟨h, hIn, hLow, hHigh⟩ := hInv.carved_inside r hMem
  refine ⟨h, hInv.onList_iff.mpr hIn, hLow, ?_⟩
  rw [(hInv.spans h hIn).end_eq]
  exact hHigh

/-- The aligned end of a node that overshoots lies in no node: it is the least
aligned address behind the block, and every other block is aligned too. -/
theorem overshoot_outside (hInv : Inv size s nodes larges pending) {q h : Nat}
    (hMem : q ∈ nodes) (hOver : Overshoots s.node q) (hIn : h ∈ nodes)
    (hLow : h + sizeofNode ≤ (carve s q n).1) :
    h + sizeofNode + size < (carve s q n).1 + n := by
  have hSpans := hInv.spans q hMem
  have hTop := hInv.end_le_top hMem
  have hLast := hSpans.last_le_end
  have hEnd := hSpans.end_eq
  have hNode : sizeofNode = 32 := rfl
  have hBeyond : (s.node q).end_ < (carve s q n).1 := hOver
  obtain ⟨_, _, _, hLeast⟩ := mpAlignPtr_spec (p := (s.node q).last) (by omega)
  by_cases hSame : h = q
  · subst hSame
    omega
  -- a block behind the node starts at an aligned address, so not below this one
  · rcases hInv.blocks_apart hMem hIn (Ne.symm hSame) with hAfter | hBefore
    · have hBase := (block_bounds s size h).1
      have hAligned := hLeast _ (by omega) (hInv.block_aligned h hIn)
      have hSmaller : (carve s q n).1 ≤ (s.block size h).base := hAligned
      omega
    · have hBase := (block_bounds s size q).1
      omega

theorem carve_not_inBlock (hInv : Inv size s nodes larges pending) {q : Nat} (hMem : q ∈ nodes)
    (hOver : Overshoots s.node q) (hAddr : s'.addr = s.addr)
    (hNodes : s'.node = (carve s q n).2.node) : ¬ InBlock s' ⟨(carve s q n).1, n⟩ := by
  rintro ⟨h, ⟨nodes', hChain, hIn⟩, hLow, hHigh⟩
  -- taking memory moves `last` only
  have hSame : ∀ b, (s'.node b).next = (s.node b).next ∧ (s'.node b).end_ = (s.node b).end_ := by
    intro b
    rw [hNodes]
    show (Function.update s.node q _ b).next = _ ∧ (Function.update s.node q _ b).end_ = _
    by_cases hHere : b = q
    · subst hHere
      rw [Function.update_self]
      exact ⟨rfl, rfl⟩
    · rw [Function.update_of_ne hHere]
      exact ⟨rfl, rfl⟩
  have hHead : s'.head = s.head := by
    unfold Pool.head
    rw [hAddr]
  rw [hHead] at hChain
  have hChain' : Chain (nodeNext s.node) 0 s.head nodes' :=
    chain_of_next hChain fun b => (hSame b).1.symm
  have hOld : h ∈ nodes := hInv.chain.unique hChain' ▸ hIn
  have hOutside := overshoot_outside (n := n) hInv hMem hOver hOld hLow
  rw [(hSame h).2, (hInv.spans h hOld).end_eq] at hHigh
  exact absurd hHigh (Nat.not_le_of_lt hOutside)

theorem not_inBlock_of_escapes (hInv : Inv size s nodes larges pending)
    (hEscapes : Escapes s s' nodes n) : ∃ r ∈ s'.carved, ¬ InBlock s' r := by
  obtain ⟨q, hMem, hOver, hAddr, hNodes, hRecord⟩ := hEscapes
  exact ⟨_, hRecord, carve_not_inBlock hInv hMem hOver hAddr hNodes⟩

theorem attachLarge_inv (hInv : Inv size s nodes larges (p :: pending)) (hPtr : p ≠ 0)
    (hClear : sizeofLarge ≤ s.max → ¬ MeetsOvershoot s.node sizeofLarge s.current)
    (hRun : attachLarge (mpAlloc fuel) s p = some (m, s')) :
    ∃ nodes' larges', Inv size s' nodes' larges' pending := by
  unfold attachLarge at hRun
  split at hRun
  · simp at hRun
  · rename_i l t hHeader
    by_cases hMax : sizeofLarge ≤ s.max
    · rcases mpAlloc_small hInv hMax (hClear hMax) hHeader with
        ⟨rfl, hFailed, _⟩ | ⟨nodes', hServed⟩
      · obtain ⟨rfl, rfl⟩ := Prod.mk.inj (Option.some.inj hRun)
        exact ⟨nodes, larges, inv_free hFailed hPtr⟩
      · rw [if_neg hServed.ne_null] at hRun
        obtain ⟨rfl, rfl⟩ := Prod.mk.inj (Option.some.inj hRun)
        obtain ⟨h, hMem, hLow, hHigh⟩ := hServed.place
        refine ⟨nodes', l :: larges, ?_⟩
        exact inv_push hServed.inv hPtr hServed.ne_null (hServed.fresh (by decide)) hMem hLow
          hHigh (hServed.max_eq ▸ hMax)
    · have hTiny : s.max < sizeofLarge := Nat.lt_of_not_le hMax
      obtain rfl := hInv.no_headers hTiny
      obtain ⟨rfl, hDone, _⟩ := mpAlloc_tiny hInv hTiny hTiny hHeader
      obtain ⟨rfl, rfl⟩ := Prod.mk.inj (Option.some.inj hRun)
      exact ⟨nodes, [], inv_free hDone hPtr⟩

theorem attachLarge_escapes (hInv : Inv size s nodes larges pending) (hMax : sizeofLarge ≤ s.max)
    (hMeets : MeetsOvershoot s.node sizeofLarge s.current)
    (hRun : attachLarge (mpAlloc fuel) s p = some (m, s')) : Escapes s s' nodes sizeofLarge := by
  unfold attachLarge at hRun
  split at hRun
  · simp at hRun
  · rename_i l t hHeader
    obtain ⟨q, hMem, hOver, rfl, rfl⟩ := mpAlloc_overshoot hInv hMax hMeets hHeader
    obtain ⟨hStart, hAbove, _, _⟩ := carve_bounds (n := sizeofLarge) hInv hMem
    have hNode : sizeofNode = 32 := rfl
    rw [if_neg (by omega)] at hRun
    obtain ⟨rfl, rfl⟩ := Prod.mk.inj (Option.some.inj hRun)
    exact ⟨q, hMem, hOver, rfl, rfl, List.mem_cons_self⟩

theorem mpAllocLarge_inv (hInv : Inv size s nodes larges pending)
    (hClear : sizeofLarge ≤ s.max → s.Grants 16 n → freeSlot s.header 5 s.large = none →
      ¬ MeetsOvershoot s.node sizeofLarge s.current)
    (hRun : mpAllocLarge (mpAlloc fuel) s n = some (m, s')) :
    ∃ nodes' larges', Inv size s' nodes' larges' pending := by
  unfold mpAllocLarge at hRun
  rcases hAsk : s.malloc n with ⟨p, heap⟩
  simp only [hAsk] at hRun
  obtain ⟨⟨hNodes, hHeaders⟩, hAnswer⟩ := inv_request hInv hAsk
  rcases hAnswer with ⟨rfl, _, hFailed⟩ | ⟨hPtr, hGrants, _, _, hGranted⟩
  · obtain ⟨rfl, rfl⟩ := Prod.mk.inj (Option.some.inj hRun)
    exact ⟨nodes, larges, hFailed⟩
  · rw [if_neg hPtr] at hRun
    split at hRun
    · rename_i l hSlot
      obtain ⟨rfl, rfl⟩ := Prod.mk.inj (Option.some.inj hRun)
      obtain ⟨hMem, hEmpty⟩ := freeSlot_spec hInv.headers hSlot
      have hEmpty' : (heap.header l).alloc = 0 := by
        rw [hHeaders]
        exact hEmpty
      exact ⟨nodes, larges, inv_fill hGranted hPtr hMem hEmpty'⟩
    · rename_i hNoSlot
      apply attachLarge_inv hGranted hPtr ?_ hRun
      intro hMax
      show ¬ MeetsOvershoot heap.node sizeofLarge s.current
      rw [hNodes]
      exact hClear hMax hGrants hNoSlot

/-- Obtaining memory first does not matter for where the header is taken. -/
theorem Escapes.of_request {heap : Heap} (hNodes : heap.node = s.node)
    (hEscapes : Escapes { s with toHeap := heap } s' nodes n) : Escapes s s' nodes n := by
  obtain ⟨q, hMem, hOver, hAddr, hTaken, hRecord⟩ := hEscapes
  unfold carve at hTaken hRecord
  simp only [hNodes] at hOver hTaken hRecord
  exact ⟨q, hMem, hOver, hAddr, hTaken, hRecord⟩

theorem mpAllocLarge_escapes (hInv : Inv size s nodes larges pending)
    (hMax : sizeofLarge ≤ s.max) (hGrants : s.Grants 16 n)
    (hNoSlot : freeSlot s.header 5 s.large = none)
    (hMeets : MeetsOvershoot s.node sizeofLarge s.current)
    (hRun : mpAllocLarge (mpAlloc fuel) s n = some (m, s')) : Escapes s s' nodes sizeofLarge := by
  unfold mpAllocLarge at hRun
  rcases hAsk : s.malloc n with ⟨p, heap⟩
  simp only [hAsk] at hRun
  obtain ⟨⟨hNodes, _⟩, hAnswer⟩ := inv_request hInv hAsk
  rcases hAnswer with ⟨_, hRefused, _⟩ | ⟨hPtr, _, _, _, hGranted⟩
  · exact absurd hGrants hRefused
  · rw [if_neg hPtr, hNoSlot] at hRun
    rw [← hNodes] at hMeets
    exact (attachLarge_escapes hGranted hMax hMeets hRun).of_request hNodes

theorem mpAlloc_inv (hInv : Inv size s nodes larges pending)
    (hClear : ∀ k, smallRequest s (.alloc n) = some k → ¬ MeetsOvershoot s.node k s.current)
    (hRun : mpAlloc fuel s n = some (m, s')) :
    ∃ nodes' larges', Inv size s' nodes' larges' pending := by
  simp only [smallRequest] at hClear
  by_cases hSize : n ≤ s.max
  · rw [if_pos hSize] at hClear
    rcases mpAlloc_small hInv hSize (hClear n rfl) hRun with ⟨_, hFailed, _⟩ | ⟨nodes', hServed⟩
    · exact ⟨nodes, larges, hFailed⟩
    · exact ⟨nodes', larges, hServed.inv⟩
  · rw [if_neg hSize] at hClear
    obtain ⟨fuel', hLarge⟩ := mpAlloc_large_cases hSize hRun
    apply mpAllocLarge_inv hInv ?_ hLarge
    intro hMax hGrants hNoSlot
    exact hClear sizeofLarge (if_pos ⟨hMax, hGrants, hNoSlot⟩)

theorem mpAlloc_escapes (hInv : Inv size s nodes larges pending) {k : Nat}
    (hRequest : smallRequest s (.alloc n) = some k) (hMeets : MeetsOvershoot s.node k s.current)
    (hRun : mpAlloc fuel s n = some (m, s')) : Escapes s s' nodes k := by
  simp only [smallRequest] at hRequest
  by_cases hSize : n ≤ s.max
  · rw [if_pos hSize] at hRequest
    obtain rfl := Option.some.inj hRequest
    obtain ⟨q, hMem, hOver, rfl, rfl⟩ := mpAlloc_overshoot hInv hSize hMeets hRun
    exact ⟨q, hMem, hOver, rfl, rfl, List.mem_cons_self⟩
  · rw [if_neg hSize] at hRequest
    split at hRequest
    · rename_i hHeader
      obtain ⟨hMax, hGrants, hNoSlot⟩ := hHeader
      obtain rfl := Option.some.inj hRequest
      obtain ⟨fuel', hLarge⟩ := mpAlloc_large_cases hSize hRun
      exact mpAllocLarge_escapes hInv hMax hGrants hNoSlot hMeets hLarge
    · simp at hRequest

theorem mpMemalign_inv {alignment : Nat} (hInv : Inv size s nodes larges pending)
    (hClear : ∀ k, smallRequest s (.memalign n alignment) = some k →
      ¬ MeetsOvershoot s.node k s.current)
    (hRun : mpMemalign fuel s n alignment = some (m, s')) :
    ∃ nodes' larges', Inv size s' nodes' larges' pending := by
  simp only [smallRequest] at hClear
  unfold mpMemalign at hRun
  rcases hAsk : s.posixMemalign alignment n with ⟨p, heap⟩
  simp only [hAsk] at hRun
  obtain ⟨⟨hNodes, _⟩, hAnswer⟩ := inv_request hInv hAsk
  rcases hAnswer with ⟨rfl, _, hFailed⟩ | ⟨hPtr, hGrants, _, _, hGranted⟩
  · obtain ⟨rfl, rfl⟩ := Prod.mk.inj (Option.some.inj hRun)
    exact ⟨nodes, larges, hFailed⟩
  · rw [if_neg hPtr] at hRun
    apply attachLarge_inv hGranted hPtr ?_ hRun
    intro hMax
    show ¬ MeetsOvershoot heap.node sizeofLarge s.current
    rw [hNodes]
    exact hClear sizeofLarge (if_pos ⟨hMax, hGrants⟩)

theorem mpMemalign_escapes {alignment k : Nat} (hInv : Inv size s nodes larges pending)
    (hRequest : smallRequest s (.memalign n alignment) = some k)
    (hMeets : MeetsOvershoot s.node k s.current)
    (hRun : mpMemalign fuel s n alignment = some (m, s')) : Escapes s s' nodes k := by
  simp only [smallRequest] at hRequest
  unfold mpMemalign at hRun
  split at hRequest
  · rename_i hHeader
    obtain rfl := Option.some.inj hRequest
    rcases hAsk : s.posixMemalign alignment n with ⟨p, heap⟩
    simp only [hAsk] at hRun
    obtain ⟨⟨hNodes, _⟩, hAnswer⟩ := inv_request hInv hAsk
    rcases hAnswer with ⟨_, hRefused, _⟩ | ⟨hPtr, _, _, _, hGranted⟩
    · exact absurd hHeader.2 hRefused
    · rw [if_neg hPtr] at hRun
      rw [← hNodes] at hMeets
      exact (attachLarge_escapes hGranted hHeader.1 hMeets hRun).of_request hNodes
  · simp at hRequest

theorem mpFree_inv (hInv : Inv size s nodes larges pending) (hRun : mpFree fuel s p = some s') :
    Inv size s' nodes larges pending := by
  unfold mpFree at hRun
  split at hRun
  · simp at hRun
  · rename_i l hFind
    by_cases hNone : l = 0
    · rw [if_pos hNone] at hRun
      obtain rfl := Option.some.inj hRun
      exact hInv
    · rw [if_neg hNone] at hRun
      obtain rfl := Option.some.inj hRun
      obtain ⟨hMem, hAlloc⟩ := (findAlloc_spec hInv.headers hFind).resolve_left hNone
      by_cases hPtr : (s.header l).alloc = 0
      -- `mp_free(pool, NULL)` has found an emptied header
      · have hSame : Function.update s.header l { s.header l with alloc := 0 } = s.header := by
          rw [← hPtr]
          exact Function.update_eq_self l s.header
        have hFree : s.free (s.header l).alloc = s.toHeap := if_pos hPtr
        rw [hFree, hSame]
        exact hInv
      · have hFreed := inv_free (inv_clear hInv hMem hPtr) hPtr
        unfold Heap.free at hFreed ⊢
        rw [if_neg hPtr] at hFreed ⊢
        exact hFreed

theorem mpResetPool_inv (hInv : Inv size s nodes larges pending)
    (hRun : mpResetPool fuel s = some s') : Inv size s' nodes [] pending := by
  unfold mpResetPool at hRun
  split at hRun
  · simp at hRun
  · rename_i heap hFree
    split at hRun
    · simp at hRun
    · rename_i node' hRewind
      obtain rfl := Option.some.inj hRun
      have hFreed := inv_freeLarge (s := { s with large := 0 }) (inv_forget hInv) hInv.headers hFree
      exact inv_rewind hFreed hRewind

/-- **One call keeps the invariant** if its search stays inside. -/
theorem exec_inv {op : Op} (hInv : Inv size s nodes larges [])
    (hInside : ∀ k, smallRequest s op = some k → ¬ MeetsOvershoot s.node k s.current)
    (hRun : exec fuel s op = some (m, s')) : ∃ nodes' larges', Inv size s' nodes' larges' [] := by
  cases op with
  | alloc n => exact mpAlloc_inv hInv hInside hRun
  | calloc n => exact mpAlloc_inv hInv hInside hRun
  | memalign n alignment => exact mpMemalign_inv hInv hInside hRun
  | free p =>
      obtain ⟨t, hFree, hEq⟩ := Option.map_eq_some_iff.mp hRun
      obtain ⟨rfl, rfl⟩ := Prod.mk.inj hEq
      exact ⟨nodes, larges, mpFree_inv hInv hFree⟩
  | reset =>
      obtain ⟨t, hReset, hEq⟩ := Option.map_eq_some_iff.mp hRun
      obtain ⟨rfl, rfl⟩ := Prod.mk.inj hEq
      exact ⟨nodes, [], mpResetPool_inv hInv hReset⟩

/-- A call whose search does not stay inside takes memory beyond a node. -/
theorem exec_escapes {op : Op} {k : Nat} (hInv : Inv size s nodes larges [])
    (hRequest : smallRequest s op = some k) (hMeets : MeetsOvershoot s.node k s.current)
    (hRun : exec fuel s op = some (m, s')) : Escapes s s' nodes k := by
  cases op with
  | alloc n => exact mpAlloc_escapes hInv hRequest hMeets hRun
  | calloc n => exact mpAlloc_escapes hInv hRequest hMeets hRun
  | memalign n alignment => exact mpMemalign_escapes hInv hRequest hMeets hRun
  | free p => simp [smallRequest] at hRequest
  | reset => simp [smallRequest] at hRequest

/-- The first node of a new pool; `next` is what the memory had there. -/
def firstNode (node : Nat → MpNode) (p size : Nat) : MpNode :=
  { node (p + sizeofPool) with
    last := p + sizeofPool + sizeofNode
    end_ := p + sizeofPool + sizeofNode + size
    failed := 0 }

/-- What `mp_create_pool` makes of the block at `p`. -/
theorem mpCreatePool_eq_some {node : Nat → MpNode} {header : Nat → MpLarge} {answer : Nat → Nat}
    (hSize : size + (sizeofPool + sizeofNode) < 2 ^ 64)
    (hCreate : mpCreatePool (Heap.start node header answer) size = some s) :
    ∃ p, p % 32 = 0 ∧ s.live.regions = [⟨p, sizeofPool + sizeofNode + size⟩] ∧
      s.node = Function.update node (p + sizeofPool) (firstNode node p size) ∧ s.addr = p ∧
      s.max = (if size < mpMaxAllocFromPool then size else mpMaxAllocFromPool) ∧
      s.current = p + sizeofPool ∧ s.large = 0 ∧ s.carved = [] := by
  unfold mpCreatePool at hCreate
  rw [ptrAdd_eq hSize] at hCreate
  rcases hAsk : (Heap.start node header answer).posixMemalign mpAlignment
    (size + (sizeofPool + sizeofNode)) with ⟨p, heap⟩
  simp only [hAsk] at hCreate
  rcases request_cases hAsk with ⟨rfl, _, _⟩ | ⟨hPtr, hGrants, hBase, rfl⟩
  · simp at hCreate
  · rw [if_neg hPtr] at hCreate
    obtain rfl := Option.some.inj hCreate
    have hPool : sizeofPool = 24 := rfl
    have hNode : sizeofNode = 32 := rfl
    have hBound : addressTop < 2 ^ 64 := by decide
    have hProposal : (Heap.start node header answer).proposal
        (size + (sizeofPool + sizeofNode)) = ⟨p, sizeofPool + sizeofNode + size⟩ := by
      rw [hBase]
      show (⟨_, max (size + (sizeofPool + sizeofNode)) 1⟩ : Region) = _
      rw [Nat.max_eq_left (by omega), Nat.add_comm]
      rfl
    have hInside : p + (sizeofPool + sizeofNode + size) ≤ addressTop := by
      have hFits := hGrants.2.2.1.2.2
      rw [hProposal] at hFits
      exact hFits
    have hLast : ptrAdd p (sizeofPool + sizeofNode) = p + sizeofPool + sizeofNode := by
      rw [ptrAdd_eq (by omega)]
      omega
    have hEnd : ptrAdd (p + sizeofPool + sizeofNode) size =
        p + sizeofPool + sizeofNode + size := ptrAdd_eq (by omega)
    refine ⟨p, hBase ▸ hGrants.2.1, congrArg (fun r => [r]) hProposal, ?_, rfl, rfl, rfl, rfl, rfl⟩
    show Function.update node (p + sizeofPool) _ = _
    rw [hLast, hEnd]
    rfl

/-- A new pool, in memory where `head->next` reads `NULL`. -/
theorem mpCreatePool_inv {node : Nat → MpNode} {header : Nat → MpLarge} {answer : Nat → Nat}
    (hSize : size + (sizeofPool + sizeofNode) < 2 ^ 64)
    (hCreate : mpCreatePool (Heap.start node header answer) size = some s)
    (hNull : (s.node s.head).next = 0) : Inv size s [s.head] [] [] := by
  obtain ⟨p, hAligned, hLive, hNodes, hAddr, hMax, hCurrent, hLarge, hCarved⟩ :=
    mpCreatePool_eq_some hSize hCreate
  have hHead : s.head = p + sizeofPool := by
    unfold Pool.head
    rw [hAddr]
  have hFirst : s.node s.head = firstNode node p size := by
    rw [hNodes, hHead, Function.update_self]
  have hBlock : s.block size s.head = ⟨p, sizeofPool + sizeofNode + size⟩ := by
    rw [block_head, hAddr]
  refine {
    chain := ⟨rfl, ?_, hNull⟩
    current_mem := List.mem_singleton.mpr (hCurrent.trans hHead.symm)
    max_eq := hMax
    spans := List.forall_mem_singleton.mpr ⟨?_, ?_, ?_⟩
    block_live := List.forall_mem_singleton.mpr ?_
    block_aligned := List.forall_mem_singleton.mpr ?_
    headers := hLarge
    header_inside := by simp
    no_headers := fun _ => rfl
    ledger := ?_
    carved_inside := by simp [hCarved] }
  · rw [hHead]
    unfold sizeofPool
    omega
  · rw [hFirst, hHead]
    rfl
  · rw [hFirst, hHead]
    exact Nat.le_refl _
  · rw [hFirst]
    exact Nat.le_add_right _ _
  · rw [hBlock, hLive]
    exact List.mem_cons_self
  · rw [hBlock]
    exact hAligned
  · show (s.live.regions.map Region.base).Perm _
    rw [hLive, List.map_singleton, List.map_singleton, hBlock]
    exact List.Perm.refl _

/-- What `mp_alloc` returns for a request up to `max` is recorded. -/
theorem mpAlloc_recorded (hSize : n ≤ s.max) (hRun : mpAlloc fuel s n = some (m, s'))
    (hPtr : m ≠ 0) : ⟨m, n⟩ ∈ s'.carved := by
  obtain ⟨fuel', q, -, hCases⟩ := mpAlloc_small_cases hSize hRun
  rcases hCases with ⟨-, hBlock⟩ | ⟨-, rfl, rfl⟩
  · unfold mpAllocBlock at hBlock
    simp only at hBlock
    split at hBlock
    · obtain ⟨rfl, _⟩ := Prod.mk.inj (Option.some.inj hBlock)
      exact absurd rfl hPtr
    · split at hBlock
      · simp at hBlock
      · obtain ⟨rfl, rfl⟩ := Prod.mk.inj (Option.some.inj hBlock)
        exact List.mem_cons_self
  · exact List.mem_cons_self

/-- The invariant over a run whose searches stay inside. -/
theorem inv_reach {s₀ : Pool} (hInit : ∃ nodes larges, Inv size s₀ nodes larges [])
    (h : Reach step StaysInside s₀ s) : ∃ nodes larges, Inv size s nodes larges [] := by
  refine h.invariant (P := fun s => ∃ nodes larges, Inv size s nodes larges []) hInit ?_
  rintro s a s' ⟨nodes, larges, hInv⟩ hInside hStep
  obtain ⟨⟨m, t⟩, hRun, rfl⟩ := Option.map_eq_some_iff.mp hStep
  exact exec_inv hInv hInside hRun

/-- **Containment and its exact condition.**  In a run whose searches stay
inside, everything that `mp_alloc` has returned for requests up to `max`, to
clients and for headers, lies in a node of the list.  The first search that
does not stay inside returns memory that lies in none. -/
theorem small_allocations_contained_exactly {node : Nat → MpNode} {header : Nat → MpLarge}
    {answer : Nat → Nat} {s₀ : Pool} (hSize : size + (sizeofPool + sizeofNode) < 2 ^ 64)
    (hCreate : mpCreatePool (Heap.start node header answer) size = some s₀)
    (hNull : (s₀.node s₀.head).next = 0) :
    (∀ s, Reach step StaysInside s₀ s → ∀ r ∈ s.carved, InBlock s r) ∧
      (∀ s fuel n m s', Reach step StaysInside s₀ s → n ≤ s.max →
        mpAlloc fuel s n = some (m, s') → m ≠ 0 →
          (InBlock s' ⟨m, n⟩ ↔ StaysInside s (.alloc n, fuel))) ∧
      ∀ s a s', Reach step StaysInside s₀ s → step s a = some s' →
        ((∀ r ∈ s'.carved, InBlock s' r) ↔ StaysInside s a) := by
  have hInit : ∃ nodes larges, Inv size s₀ nodes larges [] :=
    ⟨_, _, mpCreatePool_inv hSize hCreate hNull⟩
  refine ⟨?_, ?_, ?_⟩
  · intro s hReach r hMem
    obtain ⟨nodes, larges, hInv⟩ := inv_reach hInit hReach
    exact hInv.inBlock hMem
  · intro s fuel n m s' hReach hSmall hRun hPtr
    obtain ⟨nodes, larges, hInv⟩ := inv_reach hInit hReach
    have hRequest : smallRequest s (.alloc n) = some n := if_pos hSmall
    constructor
    · intro hIn k hAsked hMeets
      obtain rfl := Option.some.inj (hRequest.symm.trans hAsked)
      obtain ⟨q, hMem, hOver, rfl, rfl⟩ := mpAlloc_overshoot hInv hSmall hMeets hRun
      have hOut : ¬ InBlock (carve s q n).2 ⟨(carve s q n).1, n⟩ :=
        carve_not_inBlock hInv hMem hOver rfl rfl
      exact hOut hIn
    · intro hInside
      obtain ⟨nodes', larges', hInv'⟩ := mpAlloc_inv hInv hInside hRun
      exact hInv'.inBlock (mpAlloc_recorded hSmall hRun hPtr)
  · intro s a s' hReach hStep
    obtain ⟨nodes, larges, hInv⟩ := inv_reach hInit hReach
    obtain ⟨⟨m, t⟩, hRun, rfl⟩ := Option.map_eq_some_iff.mp hStep
    constructor
    · intro hAll k hRequest hMeets
      obtain ⟨r, hMem, hOut⟩ :=
        not_inBlock_of_escapes hInv (exec_escapes hInv hRequest hMeets hRun)
      exact hOut (hAll r hMem)
    · intro hInside r hMem
      obtain ⟨nodes', larges', hInv'⟩ := exec_inv hInv hInside hRun
      exact hInv'.inBlock hMem

/-- Zeroed memory and a system that grants every 64 kB. -/
def zeroedHeap : Heap :=
  Heap.start (fun _ => ⟨0, 0, 0, 0⟩) (fun _ => ⟨0, 0⟩) fun k => 65536 * (k + 1)

/-- The pool of 4096 bytes that `main` creates. -/
def mainPool : Pool := (mpCreatePool zeroedHeap 4096).get (by decide)

theorem mainPool_created : mpCreatePool zeroedHeap 4096 = some mainPool := by
  simp [mainPool]

/-- `main` starts with requests of 512 bytes, for which the first node has room. -/
theorem mainPool_first_request :
    ∃ s, s.carved = [⟨65600, 512⟩] ∧ Reach step StaysInside mainPool s := by
  let a : Action := (.alloc 512, 3)
  have hInside : StaysInside mainPool a := staysInside_of_room (by decide)
  have hStep : step mainPool a = some ((step mainPool a).get (by decide)) := by simp
  exact ⟨_, by decide, Reach.next a Reach.start hInside hStep⟩

theorem small_allocations_contained_exactly_mainPool :
    ∃ s, s.carved = [⟨65600, 512⟩] ∧ ∀ r ∈ s.carved, InBlock s r := by
  obtain ⟨s, hCarved, hReach⟩ := mainPool_first_request
  exact ⟨s, hCarved,
    (small_allocations_contained_exactly (by decide) mainPool_created (by decide)).1 s hReach⟩

/-- The only node of a pool. -/
theorem eq_head_of_onList {h : Nat} (hNe : s.head ≠ 0) (hNext : (s.node s.head).next = 0)
    (hOn : OnList s h) : h = s.head := by
  obtain ⟨nodes, hChain, hMem⟩ := hOn
  have hSingle : Chain (nodeNext s.node) 0 s.head [s.head] := ⟨rfl, hNe, hNext⟩
  rw [hChain.unique hSingle] at hMem
  exact List.mem_singleton.mp hMem

/-- After a request of 4080 bytes, the pool of `main` answers a request of 64
with an address behind the end of its only block. -/
theorem small_allocation_outside_blocks :
    ∃ s₀ s n fuel m s', mpCreatePool zeroedHeap 4096 = some s₀ ∧ (s₀.node s₀.head).next = 0 ∧
      Reachable step s₀ s ∧ n ≤ s.max ∧ mpAlloc fuel s n = some (m, s') ∧ m ≠ 0 ∧
      ¬ InBlock s' ⟨m, n⟩ := by
  have hRun : run step mainPool [(.alloc 4080, 3)] =
      some ((run step mainPool [(.alloc 4080, 3)]).get (by decide)) := by simp
  let s := (run step mainPool [(.alloc 4080, 3)]).get (by decide)
  have hCall : mpAlloc 3 s 64 = some ((mpAlloc 3 s 64).get (by decide)) := by simp
  refine ⟨mainPool, s, 64, 3, _, _, mainPool_created, by decide, reachable_of_run hRun,
    by decide, hCall, by decide, ?_⟩
  rintro ⟨h, hOn, _, hHigh⟩
  -- the list has one node, and its end lies below the region
  obtain rfl := eq_head_of_onList (by decide) (by decide) hOn
  exact absurd hHigh (by decide)

end MemPool
end LinuxCppLearn
