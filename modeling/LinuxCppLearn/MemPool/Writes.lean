import LinuxCppLearn.Library.Cells
import LinuxCppLearn.MemPool.Balance
import LinuxCppLearn.MemPool.Contents

/-!
# What the pool writes, and where

A call whose search stays inside writes into the structures of the pool, and
`mp_calloc` into the memory it returns.  What has been taken from the blocks
before stays apart from every structure that the call adds.

* `bumpFailed_changed`, `rewindNodes_changed` — the loops that write.
* `Models.carves_apart` — no two regions taken from the blocks overlap.
* `Grown` — a call for memory: what it leaves to those who have memory already.
* `mpAlloc_grown`, `mpMemalign_grown` — every such call.
-/

namespace LinuxCppLearn
namespace MemPool
namespace Bytes

open ByteMemory Regions LinkedChain StepSystem

variable {f f' : Pool} {s s' : MemPool.Pool} {nodes larges pending : List Nat}
  {alignment size m n p q l fuel : Nat} {call : Nat → SysCall} {t t' : Heap} {r : Region}
  {mem' : Memory}

/-! ## Loops -/

theorem OneOf.of_node {addr b : Nat} (hMem : b ∈ nodes) :
    OneOf addr nodes larges ⟨b, sizeofNode⟩ :=
  .inr (.inl ⟨b, hMem, rfl⟩)

theorem OneOf.of_header {addr : Nat} (hMem : l ∈ larges) :
    OneOf addr nodes larges ⟨l, sizeofLarge⟩ :=
  .inr (.inr ⟨l, hMem, rfl⟩)

theorem OneOf.mono {addr : Nat} {nodes' larges' : List Nat} (h : OneOf addr nodes larges r)
    (hNodes : nodes ⊆ nodes') (hLarges : larges ⊆ larges') : OneOf addr nodes' larges' r := by
  rcases h with hPool | ⟨b, hMem, hNode⟩ | ⟨l, hMem, hHeader⟩
  · exact .inl hPool
  · exact .inr (.inl ⟨b, hNodes hMem, hNode⟩)
  · exact .inr (.inr ⟨l, hLarges hMem, hHeader⟩)

/-- The loop of `mp_alloc_block` writes into nodes of the list. -/
theorem bumpFailed_changed {current c : Nat} (h : Refines f s nodes larges)
    (hLayout : Layout s.addr nodes larges)
    (hNext : ∀ b ∈ nodes, (s.node b).next = 0 ∨ (s.node b).next ∈ nodes) (hMem : p ∈ nodes)
    (hRun : bumpFailed fuel f.mem p current = some (q, c, mem')) :
    q ∈ nodes ∧ ChangedIn (OneOf s.addr nodes larges) f.mem mem' := by
  induction fuel generalizing f s p current with
  | zero => simp [bumpFailed] at hRun
  | succ fuel ih =>
      unfold bumpFailed at hRun
      split at hRun
      · simp only [Option.some.injEq, Prod.mk.injEq] at hRun
        obtain ⟨rfl, -, rfl⟩ := hRun
        exact ⟨hMem, ChangedIn.refl _ _⟩
      · rename_i hMore
        have hCount : ((s.node p).failed + 1) % 2 ^ 64 < 2 ^ 64 := Nat.mod_lt _ (by decide)
        rw [h.node_eq p hMem] at hRun hMore
        simp only [nodeAt_setFailed hCount, h.node_eq p hMem] at hRun
        have hWritten := h.setFailed hLayout hMem hCount
        have hStep : SameOutside f.mem (setFailed f.mem p (((s.node p).failed + 1) % 2 ^ 64))
            ⟨p, sizeofNode⟩ := setFailed_outside f.mem p _
        obtain ⟨hLast, hRest⟩ := ih hWritten hLayout
          (fun b hIn => by
            rw [(sameButFailed_update s.node p _ b).2.2]
            exact hNext b hIn)
          ((hNext p hMem).resolve_left hMore) hRun
        exact ⟨hLast, (hStep.changedIn (OneOf.of_node hMem)).trans hRest⟩

/-- The second loop of `mp_reset_pool` writes into nodes of the list. -/
theorem rewindNodes_changed {b₀ : Nat} (h : Refines f s nodes larges)
    (hLayout : Layout s.addr nodes larges)
    (hNext : ∀ b ∈ nodes, (s.node b).next = 0 ∨ (s.node b).next ∈ nodes)
    (hStart : b₀ = 0 ∨ b₀ ∈ nodes) (hRun : rewindNodes fuel f.mem b₀ = some mem') :
    ChangedIn (OneOf s.addr nodes larges) f.mem mem' := by
  induction fuel generalizing f s b₀ with
  | zero => simp [rewindNodes] at hRun
  | succ fuel ih =>
      unfold rewindNodes at hRun
      split at hRun
      · obtain rfl := Option.some.inj hRun
        exact ChangedIn.refl _ _
      · rename_i hNe
        have hMem := hStart.resolve_left hNe
        have hBound : ptrAdd b₀ sizeofNode < 2 ^ 64 := Nat.mod_lt _ (by decide)
        simp only [nodeAt_setLast hBound, h.node_eq b₀ hMem] at hRun
        have hStep : SameOutside f.mem (setLast f.mem b₀ (ptrAdd b₀ sizeofNode))
            ⟨b₀, sizeofNode⟩ := setLast_outside f.mem b₀ _
        have hLinks : ∀ b, (Function.update s.node b₀
            { s.node b₀ with last := ptrAdd b₀ sizeofNode } b).next = (s.node b).next := by
          intro b
          by_cases hHere : b = b₀
          · rw [hHere, Function.update_self]
          · rw [Function.update_of_ne hHere]
        have hRest := ih (h.setLast hLayout hMem hBound) hLayout
          (fun b hIn => by
            rw [hLinks b]
            exact hNext b hIn)
          (hNext b₀ hMem) hRun
        exact (hStep.changedIn (OneOf.of_node hMem)).trans hRest

/-! ## Regions taken from the blocks -/

/-- A region taken from a block lies in the memory that the system handed out
for it. -/
theorem Models.carve_within (h : Models size f s nodes larges pending) {c : Carve}
    (hMem : c ∈ f.carves) : c.block ∈ nodes ∧ c.region.Within (s.block size c.block) := by
  obtain ⟨hBlock, hLow, -, hHigh⟩ := h.stacked.inside c hMem
  refine ⟨hBlock, within_block ?_ (Nat.le_trans hHigh (h.inv.last_le hBlock))⟩
  exact Nat.le_trans (Nat.le_add_right _ _) hLow

theorem Models.carves_apart (h : Models size f s nodes larges pending) :
    (f.carves.map Carve.region).Pairwise Region.Apart := by
  rw [List.pairwise_map]
  refine h.stacked.ordered.imp_of_mem ?_
  intro later earlier hLater hEarlier hOrder
  by_cases hSame : later.block = earlier.block
  · exact .inr (hOrder hSame)
  · obtain ⟨hBlock, hPart⟩ := h.carve_within hLater
    obtain ⟨hBlock', hPart'⟩ := h.carve_within hEarlier
    exact (h.inv.block_apart hBlock hBlock' hSame).mono hPart hPart'

/-- What belongs to a header is no block. -/
theorem alloc_not_block {k : Nat} (hInv : Inv size s nodes larges pending)
    (hAlloc : p ∈ allocs s.header larges) : ∀ b ∈ nodes, s.block size b ≠ ⟨p, k⟩ := by
  intro b hMem hSame
  have hNodup := hInv.ledger.nodup_iff.mp s.live.bases_nodup
  have hBase : p ∈ pending ++ nodes.map fun h => (s.block size h).base := by
    refine List.mem_append_right _ (List.mem_map.mpr ⟨b, hMem, ?_⟩)
    rw [hSame]
  exact (List.nodup_append.mp hNodup).2.2 p hBase p hAlloc rfl

theorem Models.carve_apart_alloc {k : Nat} (h : Models size f s nodes larges pending) {c : Carve}
    (hMem : c ∈ f.carves) (hAlloc : p ∈ allocs s.header larges)
    (hLive : ⟨p, k⟩ ∈ s.live.regions) : c.region.Apart ⟨p, k⟩ := by
  obtain ⟨hBlock, hPart⟩ := h.carve_within hMem
  have hApart := s.live.apart.forall (h.inv.block_live _ hBlock) hLive
    (alloc_not_block h.inv hAlloc _ hBlock)
  exact hApart.mono hPart (Region.Within.refl _)

/-! ## Small requests -/

/-- A call that finds no memory writes none. -/
structure Refused (f f' : Pool) : Prop where
  mem_eq : f'.mem = f.mem
  addr_eq : f'.addr = f.addr
  carves_eq : f'.carves = f.carves
  live : ∀ r ∈ f.live.regions, r ∈ f'.live.regions

theorem mpAllocBlock_changed (h : Models size f s nodes larges pending)
    (hRun : mpAllocBlock fuel f n = some (m, f')) :
    (m = 0 ∧ Refused f f') ∨
      ∃ c, m = c + sizeofNode ∧ f'.addr = f.addr ∧ f'.carves = ⟨c, ⟨m, n⟩⟩ :: f.carves ∧
        ChangedIn (OneOf s.addr (nodes ++ [c]) larges) f.mem f'.mem := by
  unfold mpAllocBlock at hRun
  rw [h.refines.head_eq, h.refines.node_eq s.head h.inv.head_mem, psize_eq h.inv] at hRun
  rcases hAsk : f.typed.posixMemalign mpAlignment (sizeofNode + size) with ⟨c, t⟩
  simp only [Ram.posixMemalign, hAsk] at hRun
  obtain ⟨t', -, hAnswer⟩ := h.request hAsk
  rcases hAnswer with ⟨rfl, -⟩ | ⟨hPtr, -, hAligned, hLive, hGranted⟩
  · rw [if_pos rfl] at hRun
    obtain ⟨rfl, rfl⟩ := Prod.mk.inj (Option.some.inj hRun)
    exact .inl ⟨rfl, rfl, rfl, rfl, fun r hOwned => request_live hAsk r hOwned⟩
  · rw [if_neg hPtr] at hRun
    have hNode : sizeofNode = 32 := rfl
    have hZero : 0 < 2 ^ 64 := by decide
    rw [Nat.max_eq_left (by omega)] at hLive
    have hInside : c + (sizeofNode + size) ≤ addressTop := (t'.live.inside _ hLive).2.2
    have hWord : ptrAdd (c + sizeofNode) n < 2 ^ 64 := Nat.mod_lt _ hZero
    have hWord' : ptrAdd c (sizeofNode + size) < 2 ^ 64 := Nat.mod_lt _ hZero
    have hBlock : Unused s.addr nodes larges ⟨c, sizeofNode + size⟩ :=
      unused_of_pending (s := { s with toHeap := t' }) hGranted.inv hLive
    have hStruct : Unused s.addr nodes larges ⟨c, sizeofNode⟩ :=
      hBlock.mono ⟨Nat.le_refl _, by simp only; omega⟩
    rw [new_block_data hAligned hInside] at hRun
    obtain ⟨hSame, -⟩ := newNode_written f.mem c hWord hWord'
    have hFrame := hGranted.refines.frame hSame hStruct
    have hCurrent := hFrame.current_eq
    simp only at hCurrent
    simp only [Ram.withSystem] at hRun
    rw [hCurrent] at hRun
    split at hRun
    · simp at hRun
    · rename_i tail current' mem' hWalk
      obtain ⟨rfl, rfl⟩ := Prod.mk.inj (Option.some.inj hRun)
      obtain ⟨hTail, hWalked⟩ := bumpFailed_changed hFrame hGranted.layout hGranted.node_next
        h.inv.current_mem hWalk
      have hGrow : ∀ r, OneOf s.addr nodes larges r → OneOf s.addr (nodes ++ [c]) larges r :=
        fun r hOne => hOne.mono (List.subset_append_left _ _) (List.Subset.refl _)
      have hNew : OneOf s.addr (nodes ++ [c]) larges ⟨c, sizeofNode⟩ :=
        OneOf.of_node (List.mem_append_right _ List.mem_cons_self)
      have hLast : OneOf s.addr (nodes ++ [c]) larges ⟨tail, sizeofNode⟩ :=
        OneOf.of_node (List.mem_append_left [c] hTail)
      have hLink := (setNext_outside mem' tail c).changedIn hLast
      have hPool : OneOf s.addr (nodes ++ [c]) larges ⟨f.addr, sizeofPool⟩ :=
        .inl (by rw [h.refines.addr_eq])
      have hStart := (setCurrent_outside (setNext mem' tail c) f.addr
        (if current' ≠ 0 then current' else c)).changedIn hPool
      exact .inr ⟨c, rfl, rfl, rfl,
        (((hSame.changedIn hNew).trans (hWalked.mono hGrow)).trans hLink).trans hStart⟩

/-- What a small request leaves. -/
theorem mpAlloc_small_changed (h : Models size f s nodes larges pending) (hSize : n ≤ s.max)
    (hClear : ¬ MeetsOvershoot s.node n s.current) (hRun : mpAlloc fuel f n = some (m, f')) :
    ∃ s', MemPool.mpAlloc fuel s n = some (m, s') ∧
      (m = 0 ∧ Models size f' s' nodes larges pending ∧ Refused f f' ∨
        ∃ nodes', nodes ⊆ nodes' ∧ Taken size f' s s' nodes' larges pending m n ∧
          s'.addr = s.addr ∧ (∃ b, f'.carves = ⟨b, ⟨m, n⟩⟩ :: f.carves) ∧
          ChangedIn (OneOf s.addr nodes' larges) f.mem f'.mem) := by
  cases fuel with
  | zero => simp [mpAlloc] at hRun
  | succ fuel =>
      unfold mpAlloc at hRun
      rw [h.refines.max_eq, h.refines.current_eq, if_pos hSize] at hRun
      split at hRun
      · simp at hRun
      · rename_i q hFit
        have hFit' := findFit_refines h.refines h.node_next h.inv.current_mem hFit
        unfold MemPool.mpAlloc
        simp only [if_pos hSize, hFit']
        rcases h.inv.search_hasRoom hSize hClear hFit' with rfl | ⟨hNodes, hRoom⟩
        · rw [if_neg (by simp)] at hRun ⊢
          obtain ⟨s', hRun', hOutcome⟩ := mpAllocBlock_taken h hSize hRun
          refine ⟨s', hRun', ?_⟩
          rcases mpAllocBlock_changed h hRun with
            ⟨rfl, hSame⟩ | ⟨c, hResult, hAddr, hCarves, hChanged⟩
          · rcases hOutcome with ⟨-, hModels⟩ | ⟨nodes', hTaken⟩
            · exact .inl ⟨rfl, hModels, hSame⟩
            · exact absurd rfl hTaken.served.ne_null
          · rcases hOutcome with ⟨hNull, -⟩ | ⟨nodes', hTaken⟩
            · have hNode : sizeofNode = 32 := rfl
              omega
            · rcases mpAllocBlock_served h.inv hSize hRun' with ⟨hNull, -⟩ | ⟨c', hSame, hServed⟩
              · exact absurd hNull hTaken.served.ne_null
              · obtain rfl : c' = c := by omega
                obtain rfl := hTaken.served.inv.chain.unique hServed.inv.chain
                refine .inr ⟨_, List.subset_append_left _ _, hTaken, ?_, ⟨c', hCarves⟩, hChanged⟩
                rw [← hTaken.models.refines.addr_eq, hAddr, h.refines.addr_eq]
        · have hNe := h.inv.chain.ne_null_of_mem hNodes
          rw [if_pos hNe] at hRun ⊢
          obtain ⟨hResult, hTaken⟩ := carve_taken h hNodes hRoom
          have hPair := Option.some.inj hRun
          obtain rfl : (carve f q n).2 = f' := congrArg Prod.snd hPair
          obtain rfl : (MemPool.carve s q n).1 = m := hResult.symm.trans (congrArg Prod.fst hPair)
          refine ⟨_, rfl, .inr ⟨nodes, List.Subset.refl _, hTaken, rfl, ⟨q, ?_⟩, ?_⟩⟩
          · rw [← hResult]
            rfl
          · exact (setLast_outside f.mem q _).changedIn (OneOf.of_node hNodes)

/-! ## Calls for memory -/

/-- A call for memory, from `f` to `f'`: what has been handed out stays so, no
new header lies in it, and only structures are written. -/
structure Grown (f f' : Pool) (s s' : MemPool.Pool) (larges nodes' larges' : List Nat) :
    Prop where
  carves : f.carves ⊆ f'.carves
  headers : ∀ l ∈ larges', l ∈ larges ∨ ∀ c ∈ f.carves, c.region.Apart ⟨l, sizeofLarge⟩
  owned : allocs s.header larges ⊆ allocs s'.header larges'
  live : ∀ r ∈ s.live.regions, r.base ∈ allocs s.header larges → r ∈ s'.live.regions
  changed : ChangedIn (OneOf s'.addr nodes' larges') f.mem f'.mem

/-- What the call has returned: memory taken from a block, or memory of a header
that it had not before. -/
def Returned (f f' : Pool) (s s' : MemPool.Pool) (larges larges' : List Nat) (m n : Nat) : Prop :=
  ((∃ b, f'.carves = ⟨b, ⟨m, n⟩⟩ :: f.carves) ∧
      ∀ l ∈ larges', Region.Apart ⟨m, n⟩ ⟨l, sizeofLarge⟩) ∨
    (m ∉ allocs s.header larges ∧ m ∈ allocs s'.header larges' ∧
      ⟨m, max n 1⟩ ∈ s'.live.regions)

/-- In the same memory the headers have the same memory. -/
theorem allocs_eq (h : Refines f s nodes larges) (h' : Refines f' s' nodes larges)
    (hMem : f'.mem = f.mem) : allocs s'.header larges = allocs s.header larges := by
  unfold allocs
  congr 1
  apply List.map_congr_left
  intro l hIn
  rw [← h'.header_eq l hIn, ← h.header_eq l hIn, hMem]

theorem Models.live_eq (h : Models size f s nodes larges pending) : f.live = s.live :=
  h.refines.system.live_eq

/-- A call that finds no memory. -/
theorem Grown.of_failed {pending' : List Nat} (h : Models size f s nodes larges pending)
    (h' : Models size f' s' nodes larges pending') (hMem : f'.mem = f.mem)
    (hCarves : f'.carves = f.carves)
    (hLive : ∀ r ∈ s.live.regions, r.base ∈ allocs s.header larges → r ∈ s'.live.regions) :
    Grown f f' s s' larges nodes larges where
  carves := hCarves ▸ List.Subset.refl _
  headers l hIn := .inl hIn
  owned := by
    rw [allocs_eq h.refines h'.refines hMem]
    exact List.Subset.refl _
  live := hLive
  changed := by
    rw [hMem]
    exact ChangedIn.refl _ _

/-- Pending memory belongs to no header. -/
theorem pending_not_alloc (hInv : Inv size s nodes larges (p :: pending)) :
    p ∉ allocs s.header larges := by
  intro hAlloc
  have hNodup := hInv.ledger.nodup_iff.mp s.live.bases_nodup
  rw [List.append_assoc, List.cons_append, List.nodup_cons] at hNodup
  exact hNodup.1 (by simp [hAlloc])

/-- What a call hands out is no memory that was out before. -/
theorem request_fresh {heap heap' : Heap} (hAsk : heap.request alignment n call = (p, heap'))
    (hPtr : p ≠ 0) (hOwned : r ∈ heap.live.regions) : r.base ≠ p := by
  rcases request_cases hAsk with ⟨hNull, -⟩ | ⟨-, hGrants, hBase, rfl⟩
  · exact absurd hNull hPtr
  · have hNodup := (heap.live.insert (heap.proposal n) hGrants.2.2).bases_nodup
    have hNew : p ∉ heap.live.bases := by
      rw [hBase]
      exact (List.nodup_cons.mp hNodup).1
    rintro rfl
    exact hNew (List.mem_map_of_mem hOwned)

/-- Giving back memory that belongs to no header. -/
theorem free_keeps {heap : Heap} (hOwned : r ∈ heap.live.regions) (hNe : r.base ≠ p) :
    r ∈ (heap.free p).live.regions := by
  unfold Heap.free
  split
  · exact hOwned
  · exact LiveRegions.mem_erase hOwned hNe

/-- The header has been written in front of the list. -/
theorem placed_changed {addr : Nat} {nodes' : List Nat} (mem : Memory) (v w : Nat) :
    ChangedIn (OneOf addr nodes' (l :: larges)) mem
      (setLarge (setLargeNext (setAlloc mem l v) l w) addr l) :=
  (((setAlloc_outside mem l v).changedIn (OneOf.of_header List.mem_cons_self)).trans
    ((setLargeNext_outside _ l w).changedIn (OneOf.of_header List.mem_cons_self))).trans
    ((setLarge_outside _ addr l).changedIn (.inl rfl))

theorem mpAlloc_tiny_changed (h : Models size f s nodes [] pending) (hTiny : s.max < sizeofLarge)
    (hSize : s.max < n) (hRun : mpAlloc fuel f n = some (m, f')) :
    ∃ s', MemPool.mpAlloc fuel s n = some (m, s') ∧ m = 0 ∧ Models size f' s' nodes [] pending ∧
      Refused f f' := by
  obtain ⟨s', hRun', rfl, hModels⟩ := mpAlloc_tiny_models h hTiny hSize hRun
  refine ⟨s', hRun', rfl, hModels, ?_⟩
  clear hRun' hModels
  induction fuel generalizing f f' s pending n with
  | zero => simp [mpAlloc] at hRun
  | succ fuel ih =>
      have hEmpty : s.large = 0 := h.inv.headers
      unfold mpAlloc mpAllocLarge at hRun
      rw [h.refines.max_eq, if_neg (Nat.not_le_of_lt hSize)] at hRun
      rcases hAsk : f.typed.malloc n with ⟨p, t⟩
      simp only [Ram.malloc, hAsk] at hRun
      obtain ⟨t', -, hAnswer⟩ := h.request hAsk
      rcases hAnswer with ⟨rfl, -⟩ | ⟨hPtr, -, -, -, hGranted⟩
      · rw [if_pos rfl] at hRun
        obtain ⟨-, rfl⟩ := Prod.mk.inj (Option.some.inj hRun)
        exact ⟨rfl, rfl, rfl, fun r hOwned => request_live hAsk r hOwned⟩
      · have hNoSlot : freeSlot (headerAt f.mem) 5 (poolAt f.mem f.addr).large = none := by
          rw [h.refines.large_eq, hEmpty, freeSlot_null]
        rw [if_neg hPtr] at hRun
        simp only [Ram.withSystem, hNoSlot] at hRun
        unfold attachLarge at hRun
        split at hRun
        · simp at hRun
        · rename_i l f₂ hHeader
          obtain ⟨-, -, rfl, -⟩ := mpAlloc_tiny_models hGranted hTiny hTiny hHeader
          obtain ⟨hMem, hAddr, hCarves, hLive⟩ := ih hGranted hTiny hTiny hHeader
          rw [if_pos rfl] at hRun
          obtain ⟨-, rfl⟩ := Prod.mk.inj (Option.some.inj hRun)
          exact ⟨hMem, hAddr, hCarves, fun r hOwned => @free_keeps _ _ f₂.typed
            (hLive r (request_live hAsk r hOwned)) (request_fresh hAsk hPtr hOwned)⟩

/-- The memory `p` is given back when there is no header for it. -/
theorem giveBack_grown {s₁ : MemPool.Pool} (h : Models size f s nodes larges (p :: pending))
    (hPtr : p ≠ 0) (h' : Models size f' s₁ nodes larges (p :: pending)) (hSame : Refused f f') :
    Models size { f' with toRam := f'.free p } { s₁ with toHeap := s₁.free p } nodes larges
        pending ∧
      Grown f { f' with toRam := f'.free p } s { s₁ with toHeap := s₁.free p } larges nodes
        larges := by
  have hModels := h'.free hPtr
  refine ⟨hModels, Grown.of_failed h hModels hSame.mem_eq hSame.carves_eq ?_⟩
  rintro r hOwned hAlloc
  have hKept : r ∈ s₁.live.regions := by
    rw [← h.live_eq] at hOwned
    rw [← h'.live_eq]
    exact hSame.live r hOwned
  refine free_keeps hKept ?_
  rintro rfl
  exact pending_not_alloc h.inv hAlloc

/-- A header for the memory `p`. -/
theorem attachLarge_grown (h : Models size f s nodes larges (p :: pending)) (hPtr : p ≠ 0)
    (hWord : p < 2 ^ 64)
    (hClear : sizeofLarge ≤ s.max → ¬ MeetsOvershoot s.node sizeofLarge s.current)
    (hRun : attachLarge (mpAlloc fuel) f p = some (m, f')) :
    ∃ s' nodes' larges', MemPool.attachLarge (MemPool.mpAlloc fuel) s p = some (m, s') ∧
      Models size f' s' nodes' larges' pending ∧ Grown f f' s s' larges nodes' larges' ∧
      Attached s s' larges' m p := by
  obtain ⟨s', nodes', larges', hRun', hModels, hAttached⟩ :=
    attachLarge_models h hPtr hWord hClear hRun
  refine ⟨s', nodes', larges', hRun', hModels, ?_, hAttached⟩
  unfold attachLarge at hRun
  unfold MemPool.attachLarge at hRun'
  split at hRun
  · simp at hRun
  · rename_i l f₁ hHeader
    by_cases hMax : sizeofLarge ≤ s.max
    · obtain ⟨s₁, hHeader', hOutcome⟩ := mpAlloc_small_changed h hMax (hClear hMax) hHeader
      simp only [hHeader'] at hRun'
      rcases hOutcome with ⟨rfl, hFailed, hSame⟩ | ⟨_, -, hTaken, hHere, ⟨b, hCarve⟩, hChanged⟩
      · rw [if_pos rfl] at hRun hRun'
        obtain ⟨-, rfl⟩ := Prod.mk.inj (Option.some.inj hRun)
        obtain ⟨-, rfl⟩ := Prod.mk.inj (Option.some.inj hRun')
        obtain ⟨hBack, hGrown⟩ := giveBack_grown h hPtr hFailed hSame
        obtain rfl := hModels.inv.chain.unique hBack.inv.chain
        obtain rfl := hModels.inv.headers.unique hBack.inv.headers
        exact hGrown
      · have hNe : l ≠ 0 := hTaken.served.ne_null
        rw [if_neg hNe] at hRun hRun'
        obtain ⟨-, rfl⟩ := Prod.mk.inj (Option.some.inj hRun)
        obtain ⟨-, rfl⟩ := Prod.mk.inj (Option.some.inj hRun')
        have hFresh : l ∉ larges := hTaken.served.fresh (by decide)
        obtain ⟨d, hIn, hLow, hHigh⟩ := hTaken.served.place
        have hInv := inv_push hTaken.served.inv hPtr hNe hFresh hIn hLow hHigh
          (hTaken.served.max_eq ▸ hMax)
        obtain rfl := hModels.inv.chain.unique hInv.chain
        obtain rfl := hModels.inv.headers.unique hInv.headers
        refine ⟨?_, ?_, ?_, fun r hOwned _ => hTaken.live r hOwned, ?_⟩
        · show f.carves ⊆ f₁.carves
          rw [hCarve]
          exact List.subset_cons_self _ _
        · have hApart := hTaken.models.carves_apart
          rw [hCarve, List.map_cons, List.pairwise_cons] at hApart
          refine List.forall_mem_cons.mpr ⟨.inr fun c hOld => ?_, fun d hOld => .inl hOld⟩
          exact (hApart.1 _ (List.mem_map_of_mem hOld)).symm
        · show allocs s.header larges ⊆
            allocs (Function.update s₁.header l { alloc := p, next := s₁.large }) (l :: larges)
          rw [allocs_cons, Function.update_self, if_neg hPtr, allocs_update hFresh,
            hTaken.served.header_eq]
          exact List.subset_cons_self _ _
        · show ChangedIn (OneOf s₁.addr _ (l :: larges)) f.mem _
          have hAddr : f₁.addr = s₁.addr := hTaken.models.refines.addr_eq
          rw [hAddr]
          refine (hChanged.mono fun r hOne => ?_).trans (placed_changed _ _ _)
          rw [hHere]
          exact hOne.mono (List.Subset.refl _) (List.subset_cons_self _ _)
    · have hTiny : s.max < sizeofLarge := Nat.lt_of_not_le hMax
      obtain rfl := h.inv.no_headers hTiny
      obtain ⟨s₁, hHeader', rfl, hFailed, hSame⟩ := mpAlloc_tiny_changed h hTiny hTiny hHeader
      simp only [hHeader', if_true] at hRun'
      rw [if_pos rfl] at hRun
      obtain ⟨-, rfl⟩ := Prod.mk.inj (Option.some.inj hRun)
      obtain ⟨-, rfl⟩ := Prod.mk.inj (Option.some.inj hRun')
      obtain ⟨hBack, hGrown⟩ := giveBack_grown h hPtr hFailed hSame
      obtain rfl := hModels.inv.chain.unique hBack.inv.chain
      obtain rfl := hModels.inv.headers.unique hBack.inv.headers
      exact hGrown

/-- What the call for the memory itself changes is of no matter. -/
theorem Grown.behind_request {heap : Heap} {nodes' larges' : List Nat}
    (h : Grown { f with toRam := f.withSystem t } f' { s with toHeap := heap } s' larges nodes'
      larges') (hHeader : heap.header = s.header)
    (hLive : ∀ r ∈ s.live.regions, r ∈ heap.live.regions) :
    Grown f f' s s' larges nodes' larges' where
  carves := h.carves
  headers := h.headers
  owned := hHeader ▸ h.owned
  live r hOwned hAlloc := h.live r (hLive r hOwned) (by
    show r.base ∈ allocs heap.header larges
    rwa [hHeader])
  changed := h.changed

theorem mpAllocLarge_grown (h : Models size f s nodes larges pending)
    (hClear : sizeofLarge ≤ s.max → s.Grants 16 n → freeSlot s.header 5 s.large = none →
      ¬ MeetsOvershoot s.node sizeofLarge s.current)
    (hRun : mpAllocLarge (mpAlloc fuel) f n = some (m, f')) :
    ∃ s' nodes' larges', MemPool.mpAllocLarge (MemPool.mpAlloc fuel) s n = some (m, s') ∧
      Models size f' s' nodes' larges' pending ∧ Grown f f' s s' larges nodes' larges' ∧
      (m ≠ 0 → Returned f f' s s' larges larges' m n) := by
  unfold mpAllocLarge at hRun
  unfold MemPool.mpAllocLarge
  rcases hAsk : f.typed.malloc n with ⟨p, t⟩
  simp only [Ram.malloc, hAsk] at hRun
  obtain ⟨t', hAsk', hAnswer⟩ := h.request hAsk
  have hAsk'' : s.malloc n = (p, t') := hAsk'
  simp only [hAsk'']
  obtain ⟨⟨hNodes, hHeaders⟩, -⟩ := inv_request h.inv hAsk'
  have hOut : ∀ r ∈ s.live.regions, r ∈ t'.live.regions := request_live hAsk'
  rcases hAnswer with ⟨rfl, hFailed⟩ | ⟨hPtr, hGrants, -, hLive, hGranted⟩
  · rw [if_pos rfl] at hRun
    obtain ⟨rfl, rfl⟩ := Prod.mk.inj (Option.some.inj hRun)
    exact ⟨_, nodes, larges, if_pos rfl, hFailed,
      Grown.of_failed h hFailed rfl rfl fun r hOwned _ => hOut r hOwned, fun hNe => absurd rfl hNe⟩
  · have hSlots : freeSlot (headerAt f.mem) 5 (poolAt f.mem f.addr).large =
        freeSlot s.header 5 s.large := by
      rw [h.refines.large_eq]
      exact freeSlot_refines h.refines h.header_next h.inv.headers.start_mem
    have hWord : p < 2 ^ 64 := live_lt hLive
    have hNew : p ∉ allocs s.header larges := by
      have hPending := pending_not_alloc hGranted.inv
      rwa [hHeaders] at hPending
    rw [if_neg hPtr] at hRun ⊢
    simp only [Ram.withSystem, hSlots] at hRun
    cases hSlot : freeSlot s.header 5 s.large with
    | some l =>
        simp only [hSlot] at hRun ⊢
        obtain ⟨rfl, rfl⟩ := Prod.mk.inj (Option.some.inj hRun)
        obtain ⟨hMem, hEmpty⟩ := freeSlot_spec h.inv.headers hSlot
        have hEmpty' : (t'.header l).alloc = 0 := by
          rw [hHeaders]
          exact hEmpty
        have hInv := inv_fill hGranted.inv hPtr hMem hEmpty'
        have hRefines := hGranted.refines.setAlloc hGranted.layout hMem hWord
        have hFilled := allocs_fill h.inv.headers.nodup hMem hEmpty hPtr
        refine ⟨_, nodes, larges, rfl, ⟨hInv, hRefines, h.headers_apart, hGranted.stacked⟩,
          ⟨List.Subset.refl _, fun d hIn => .inl hIn, ?_, fun r hOwned _ => hOut r hOwned, ?_⟩,
          fun _ => .inr ⟨hNew, ?_, hLive⟩⟩
        · show _ ⊆ allocs (Function.update t'.header l { t'.header l with alloc := p }) larges
          rw [hHeaders]
          exact fun q hOld => hFilled.symm.subset (List.mem_cons_of_mem p hOld)
        · exact (setAlloc_outside f.mem l p).changedIn (OneOf.of_header hMem)
        · show p ∈ allocs (Function.update t'.header l { t'.header l with alloc := p }) larges
          rw [hHeaders]
          exact hFilled.symm.subset List.mem_cons_self
    | none =>
        simp only [hSlot] at hRun ⊢
        have hClear' : sizeofLarge ≤ s.max → ¬ MeetsOvershoot t'.node sizeofLarge s.current := by
          intro hMax
          rw [hNodes]
          exact hClear hMax hGrants hSlot
        obtain ⟨s', nodes', larges', hRun', hModels, hGrown, hAttached⟩ :=
          attachLarge_grown hGranted hPtr hWord hClear' hRun
        refine ⟨s', nodes', larges', hRun', hModels, hGrown.behind_request hHeaders hOut, ?_⟩
        intro hNe
        obtain ⟨rfl, hAlloc, hKept⟩ := hAttached hNe
        exact .inr ⟨hNew, hAlloc, hKept _ hLive⟩

/-- **`mp_alloc`** leaves what has been handed out. -/
theorem mpAlloc_grown (h : Models size f s nodes larges pending)
    (hClear : ∀ k, smallRequest s (.alloc n) = some k → ¬ MeetsOvershoot s.node k s.current)
    (hRun : mpAlloc fuel f n = some (m, f')) :
    ∃ s' nodes' larges', MemPool.mpAlloc fuel s n = some (m, s') ∧
      Models size f' s' nodes' larges' pending ∧ Grown f f' s s' larges nodes' larges' ∧
      (m ≠ 0 → Returned f f' s s' larges larges' m n) := by
  simp only [smallRequest] at hClear
  by_cases hSize : n ≤ s.max
  · rw [if_pos hSize] at hClear
    obtain ⟨s', hRun', hOutcome⟩ := mpAlloc_small_changed h hSize (hClear n rfl) hRun
    rcases hOutcome with ⟨rfl, hFailed, hSame⟩ | ⟨nodes', -, hTaken, hAddr, ⟨b, hCarve⟩, hChanged⟩
    · refine ⟨s', nodes, larges, hRun', hFailed,
        Grown.of_failed h hFailed hSame.mem_eq hSame.carves_eq ?_, fun hNe => absurd rfl hNe⟩
      intro r hOwned _
      rw [← h.live_eq] at hOwned
      rw [← hFailed.live_eq]
      exact hSame.live r hOwned
    · refine ⟨s', nodes', larges, hRun', hTaken.models,
        ⟨?_, fun l hIn => .inl hIn, ?_, fun r hOwned _ => hTaken.live r hOwned, hAddr ▸ hChanged⟩,
        fun _ => .inl ⟨⟨b, hCarve⟩, hTaken.apart⟩⟩
      · rw [hCarve]
        exact List.subset_cons_self _ _
      · rw [hTaken.served.header_eq]
        exact List.Subset.refl _
  · rw [if_neg hSize] at hClear
    cases fuel with
    | zero => simp [mpAlloc] at hRun
    | succ fuel =>
        unfold mpAlloc at hRun
        rw [h.refines.max_eq, if_neg hSize] at hRun
        unfold MemPool.mpAlloc
        rw [if_neg hSize]
        refine mpAllocLarge_grown h ?_ hRun
        intro hMax hGrants hNoSlot
        exact hClear sizeofLarge (if_pos ⟨hMax, hGrants, hNoSlot⟩)

/-- **`mp_memalign`** leaves what has been handed out. -/
theorem mpMemalign_grown (h : Models size f s nodes larges pending)
    (hClear : ∀ k, smallRequest s (.memalign n alignment) = some k →
      ¬ MeetsOvershoot s.node k s.current)
    (hRun : mpMemalign fuel f n alignment = some (m, f')) :
    ∃ s' nodes' larges', MemPool.mpMemalign fuel s n alignment = some (m, s') ∧
      Models size f' s' nodes' larges' pending ∧ Grown f f' s s' larges nodes' larges' ∧
      (m ≠ 0 → Returned f f' s s' larges larges' m n) := by
  simp only [smallRequest] at hClear
  unfold mpMemalign at hRun
  unfold MemPool.mpMemalign
  rcases hAsk : f.typed.posixMemalign alignment n with ⟨p, t⟩
  simp only [Ram.posixMemalign, hAsk] at hRun
  obtain ⟨t', hAsk', hAnswer⟩ := h.request hAsk
  have hAsk'' : s.posixMemalign alignment n = (p, t') := hAsk'
  simp only [hAsk'']
  obtain ⟨⟨hNodes, hHeaders⟩, -⟩ := inv_request h.inv hAsk'
  have hOut : ∀ r ∈ s.live.regions, r ∈ t'.live.regions := request_live hAsk'
  rcases hAnswer with ⟨rfl, hFailed⟩ | ⟨hPtr, hGrants, -, hLive, hGranted⟩
  · rw [if_pos rfl] at hRun
    obtain ⟨rfl, rfl⟩ := Prod.mk.inj (Option.some.inj hRun)
    exact ⟨_, nodes, larges, if_pos rfl, hFailed,
      Grown.of_failed h hFailed rfl rfl fun r hOwned _ => hOut r hOwned, fun hNe => absurd rfl hNe⟩
  · have hClear' : sizeofLarge ≤ s.max → ¬ MeetsOvershoot t'.node sizeofLarge s.current := by
      intro hMax
      rw [hNodes]
      exact hClear sizeofLarge (if_pos ⟨hMax, hGrants⟩)
    have hNew : p ∉ allocs s.header larges := by
      have hPending := pending_not_alloc hGranted.inv
      rwa [hHeaders] at hPending
    rw [if_neg hPtr] at hRun ⊢
    obtain ⟨s', nodes', larges', hRun', hModels, hGrown, hAttached⟩ :=
      attachLarge_grown hGranted hPtr (live_lt hLive) hClear' hRun
    refine ⟨s', nodes', larges', hRun', hModels, hGrown.behind_request hHeaders hOut, ?_⟩
    intro hNe
    obtain ⟨rfl, hAlloc, hKept⟩ := hAttached hNe
    exact .inr ⟨hNew, hAlloc, hKept _ hLive⟩

/-! ## Giving back -/

/-- **`mp_free`** leaves all memory but what it gives back. -/
theorem mpFree_kept (h : Models size f s nodes larges pending)
    (hRun : mpFree fuel f p = some f') :
    ∃ s', MemPool.mpFree fuel s p = some s' ∧ Models size f' s' nodes larges pending ∧
      f'.carves = f.carves ∧ ChangedIn (OneOf s'.addr nodes larges) f.mem f'.mem ∧
      (∀ q ∈ allocs s.header larges, q ≠ p → q ∈ allocs s'.header larges) ∧
      (∀ r ∈ s.live.regions, r.base ≠ p → r ∈ s'.live.regions) ∧
      (findAlloc (headerAt f.mem) p fuel (poolAt f.mem f.addr).large = some 0 → f' = f) := by
  obtain ⟨s', hRun', hModels⟩ := mpFree_models h hRun
  refine ⟨s', hRun', hModels, ?_⟩
  unfold mpFree at hRun
  split at hRun
  · simp at hRun
  · rename_i l hFind
    have hFind' := hFind
    rw [h.refines.large_eq] at hFind'
    have hTyped := findAlloc_refines h.refines h.header_next h.inv.headers.start_mem hFind'
    unfold MemPool.mpFree at hRun'
    simp only [hTyped] at hRun'
    split at hRun
    · rename_i hNone
      obtain rfl := Option.some.inj hRun
      rw [if_pos hNone] at hRun'
      obtain rfl := Option.some.inj hRun'
      exact ⟨rfl, ChangedIn.refl _ _, fun q hIn _ => hIn, fun r hIn _ => hIn, fun _ => rfl⟩
    · rename_i hFound
      obtain rfl := Option.some.inj hRun
      rw [if_neg hFound] at hRun'
      obtain rfl := Option.some.inj hRun'
      obtain ⟨hMem, rfl⟩ := (findAlloc_spec h.inv.headers hTyped).resolve_left hFound
      refine ⟨rfl, (setAlloc_outside f.mem l 0).changedIn (OneOf.of_header hMem), ?_,
        fun r hOwned hNe => free_keeps hOwned hNe,
        fun hNone => absurd (Option.some.inj (hFind.symm.trans hNone)) hFound⟩
      intro q hOld hNe
      obtain ⟨⟨d, hIn, hAlloc⟩, hSome⟩ := mem_allocs.mp hOld
      refine mem_allocs.mpr ⟨⟨d, hIn, ?_⟩, hSome⟩
      have hOther : d ≠ l := fun hSame => hNe (by rw [← hAlloc, hSame])
      show (Function.update s.header l { s.header l with alloc := 0 } d).alloc = q
      rw [Function.update_of_ne hOther, hAlloc]

/-- **`mp_reset_pool`** writes into the pool and its nodes. -/
theorem mpResetPool_changed (h : Models size f s nodes larges pending)
    (hRun : mpResetPool fuel f = some f') :
    ∃ s', MemPool.mpResetPool fuel s = some s' ∧ Models size f' s' nodes [] pending ∧
      ChangedIn (OneOf s'.addr nodes []) f.mem f'.mem := by
  obtain ⟨s', hRun', hModels⟩ := mpResetPool_models h hRun
  refine ⟨s', hRun', hModels, ?_⟩
  have hAddr : f'.addr = s'.addr := hModels.refines.addr_eq
  rw [← hAddr]
  unfold mpResetPool at hRun
  split at hRun
  · simp at hRun
  · split at hRun
    · simp at hRun
    · rename_i mem' hRewind
      obtain rfl := Option.some.inj hRun
      rw [h.refines.head_eq] at hRewind
      have hNone : Refines { f with mem := setLarge f.mem f.addr 0 } { s with large := 0 } nodes
          [] := by
        have hKept := h.refines.setLarge h.layout (show 0 < 2 ^ 64 by decide)
        exact ⟨hKept.addr_eq, hKept.pool_eq, hKept.node_eq, by simp, hKept.system⟩
      have hLayout : Layout s.addr nodes [] :=
        ⟨h.layout.pool_node, by simp, h.layout.node_node, by simp, by simp⟩
      have hRest := rewindNodes_changed hNone hLayout h.node_next (.inr h.inv.head_mem) hRewind
      rw [← h.refines.addr_eq] at hRest
      exact ((setLarge_outside f.mem f.addr 0).changedIn (.inl rfl)).trans hRest

/-! ## Where the structures lie -/

/-- Every structure lies in memory that the pool has from the system. -/
theorem Models.structure_within (h : Models size f s nodes larges pending)
    (hOne : OneOf s.addr nodes larges r) : ∃ r' ∈ f.live.regions, r.Within r' := by
  rw [h.live_eq]
  rcases hOne with rfl | ⟨b, hMem, rfl⟩ | ⟨l, hMem, rfl⟩
  · exact ⟨_, h.inv.block_live _ h.inv.head_mem, pool_within_block s size⟩
  · exact ⟨_, h.inv.block_live b hMem, node_within_block s size b⟩
  · obtain ⟨b, hNode, hLow, hHigh⟩ := header_within_block h.inv hMem
    exact ⟨_, h.inv.block_live b hNode, within_block (by simp only; omega) hHigh⟩

/-- So does what a call has returned. -/
theorem Returned.within {larges' nodes' : List Nat}
    (h : Returned f f' s s' larges larges' m n)
    (hModels : Models size f' s' nodes' larges' pending) :
    ∃ r' ∈ f'.live.regions, Region.Within ⟨m, n⟩ r' := by
  rw [hModels.live_eq]
  rcases h with ⟨⟨b, hCarve⟩, -⟩ | ⟨-, -, hLive⟩
  · have hMem : (⟨b, ⟨m, n⟩⟩ : Carve) ∈ f'.carves := by
      rw [hCarve]
      exact List.mem_cons_self
    obtain ⟨hBlock, hPart⟩ := hModels.carve_within hMem
    exact ⟨_, hModels.inv.block_live _ hBlock, hPart⟩
  · exact ⟨_, hLive, Nat.le_refl _, Nat.add_le_add_left (Nat.le_max_left n 1) m⟩

end Bytes
end MemPool
end LinuxCppLearn
