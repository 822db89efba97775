import LinuxCppLearn.MemPool.Fuel

/-!
# The pool gives back what it has obtained

The log of system calls, replayed from the oldest call on, says what the pool
has obtained and not given back, and breaks off at a `free` of anything else.
As long as the searches stay inside, the replay agrees with the two lists of the
pool, and `mp_destory_pool` empties it.

* `outstanding`, `Accounted` — the replay, and that it agrees with the regions
  that are live.
* `exec_accounted`, `mpDestoryPool_accounted` — the calls of the pool.
* `Balanced`, `FreesExactly`, `DestroysExactly` — what this says about the lists
  of the pool, `mp_free` and `mp_destory_pool`.
* `ledger_balances_if_inside` — all three, over runs.
-/

namespace LinuxCppLearn
namespace MemPool

open LinkedChain Regions StepSystem

/-- What has been obtained and not given back, by the calls, newest first;
`none` when memory was given back that was not outstanding. -/
def outstanding : List SysCall → Option (List Nat)
  | [] => some []
  | .posixMemalign _ _ p :: calls | .malloc _ p :: calls =>
      (outstanding calls).map fun owned => if p = 0 then owned else p :: owned
  | .free p :: calls =>
      (outstanding calls).bind fun owned => if p ∈ owned then some (owned.erase p) else none

/-- Every `free` so far was of outstanding memory, and what is left is live. -/
def Accounted (heap : Heap) : Prop :=
  ∃ owned, outstanding heap.calls = some owned ∧ owned.Perm heap.live.bases

theorem accounted_start (node : Nat → MpNode) (header : Nat → MpLarge) (answer : Nat → Nat) :
    Accounted (Heap.start node header answer) :=
  ⟨[], rfl, List.Perm.refl _⟩

/-- A `posix_memalign` or a `malloc`, which the log shows with its result. -/
def IsRequest (call : Nat → SysCall) : Prop :=
  ∀ calls p, outstanding (call p :: calls) =
    (outstanding calls).map fun owned => if p = 0 then owned else p :: owned

theorem isRequest_posixMemalign (alignment n : Nat) : IsRequest (.posixMemalign alignment n) :=
  fun _ _ => rfl

theorem isRequest_malloc (n : Nat) : IsRequest (.malloc n) :=
  fun _ _ => rfl

variable {heap heap' : Heap} {n p fuel : Nat}

theorem request_accounted {alignment : Nat} {call : Nat → SysCall} (hCall : IsRequest call)
    (h : Accounted heap) (hAsk : heap.request alignment n call = (p, heap')) :
    Accounted heap' := by
  obtain ⟨owned, hCalls, hPerm⟩ := h
  rcases request_cases hAsk with ⟨-, -, rfl⟩ | ⟨hPtr, hGrants, hBase, rfl⟩
  · refine ⟨owned, ?_, hPerm⟩
    show outstanding (call 0 :: heap.calls) = some owned
    rw [hCall, hCalls]
    rfl
  · refine ⟨p :: owned, ?_, ?_⟩
    · show outstanding (call p :: heap.calls) = some (p :: owned)
      rw [hCall, hCalls, Option.map_some, if_neg hPtr]
    · show (p :: owned).Perm ((heap.proposal n).base :: heap.live.bases)
      rw [hBase]
      exact hPerm.cons _

/-- Giving back memory that is live. -/
theorem free_accounted (h : Accounted heap) (hPtr : p ≠ 0) {rest : List Nat}
    (hLive : heap.live.bases.Perm (p :: rest)) :
    Accounted (heap.free p) ∧ (heap.free p).live.bases.Perm rest := by
  obtain ⟨owned, hCalls, hPerm⟩ := h
  have hMem : p ∈ owned := (hPerm.trans hLive).mem_iff.mpr List.mem_cons_self
  have hLeft : (heap.live.bases.erase p).Perm rest := by
    have hErase := hLive.erase p
    rwa [List.erase_cons_head] at hErase
  unfold Heap.free
  rw [if_neg hPtr]
  show Accounted _ ∧ (heap.live.erase p).bases.Perm rest
  rw [LiveRegions.bases_erase]
  refine ⟨⟨owned.erase p, by simp [outstanding, hCalls, hMem], ?_⟩, hLeft⟩
  show (owned.erase p).Perm (heap.live.erase p).bases
  rw [LiveRegions.bases_erase]
  exact hPerm.erase p

theorem free_accounted_of_mem (h : Accounted heap) (hMem : p ∈ heap.live.bases) (hPtr : p ≠ 0) :
    Accounted (heap.free p) :=
  (free_accounted h hPtr (List.perm_cons_erase hMem)).1

/-- The loop over the headers gives back each memory they remember. -/
theorem freeLarge_accounted {l : Nat} {larges rest : List Nat} (h : Accounted heap)
    (hChain : Chain (headerNext heap.header) 0 l larges)
    (hLive : heap.live.bases.Perm (allocs heap.header larges ++ rest))
    (hLoop : freeLarge fuel heap l = some heap') :
    Accounted heap' ∧ heap'.live.bases.Perm rest := by
  induction fuel generalizing heap l larges with
  | zero => simp [freeLarge] at hLoop
  | succ fuel ih =>
      unfold freeLarge at hLoop
      split at hLoop
      · rename_i hNull
        subst hNull
        obtain rfl := hChain.eq_nil
        obtain rfl := Option.some.inj hLoop
        exact ⟨h, hLive⟩
      · rename_i hNe
        obtain ⟨larges', rfl, hRest⟩ := hChain.exists_cons hNe
        rw [allocs_cons] at hLive
        have hFreed : Accounted (heap.free (heap.header l).alloc) ∧
            (heap.free (heap.header l).alloc).live.bases.Perm
              (allocs heap.header larges' ++ rest) := by
          split at hLive
          -- an emptied header: `free(NULL)` gives nothing back
          · rename_i hEmpty
            rw [hEmpty]
            exact ⟨h, hLive⟩
          · rename_i hPtr
            exact free_accounted h hPtr hLive
        have hHeader := free_header heap (heap.header l).alloc
        have hRest' : Chain (headerNext (heap.free (heap.header l).alloc).header) 0
            (heap.header l).next larges' := by
          rw [hHeader]
          exact hRest
        refine ih hFreed.1 hRest' ?_ hLoop
        rw [hHeader]
        exact hFreed.2

/-- The loop over the nodes gives back each of them. -/
theorem freeNodes_accounted {h₀ : Nat} {nodes rest : List Nat} (h : Accounted heap)
    (hChain : Chain (nodeNext heap.node) 0 h₀ nodes)
    (hLive : heap.live.bases.Perm (nodes ++ rest))
    (hLoop : freeNodes fuel heap h₀ = some heap') :
    Accounted heap' ∧ heap'.live.bases.Perm rest := by
  induction fuel generalizing heap h₀ nodes with
  | zero => simp [freeNodes] at hLoop
  | succ fuel ih =>
      unfold freeNodes at hLoop
      split at hLoop
      · rename_i hNull
        subst hNull
        obtain rfl := hChain.eq_nil
        obtain rfl := Option.some.inj hLoop
        exact ⟨h, hLive⟩
      · rename_i hNe
        obtain ⟨nodes', rfl, hRest⟩ := hChain.exists_cons hNe
        obtain ⟨hFreed, hLeft⟩ := free_accounted h hNe hLive
        have hRest' : Chain (nodeNext (heap.free h₀).node) 0 (heap.node h₀).next nodes' := by
          rw [free_node]
          exact hRest
        exact ih hFreed hRest' hLeft hLoop

variable {size : Nat} {s s' s₀ : Pool} {nodes larges pending : List Nat} {m : Nat}

/-! ## The calls of the pool -/

theorem mpAllocBlock_accounted (h : Accounted s.toHeap)
    (hRun : mpAllocBlock fuel s n = some (m, s')) : Accounted s'.toHeap := by
  unfold mpAllocBlock at hRun
  rcases hAsk : s.posixMemalign mpAlignment (ptrDiff (s.node s.head).end_ s.head) with ⟨c, heap⟩
  simp only [hAsk] at hRun
  have hAnswered := request_accounted (isRequest_posixMemalign _ _) h hAsk
  split at hRun
  · obtain ⟨-, rfl⟩ := Prod.mk.inj (Option.some.inj hRun)
    exact hAnswered
  · split at hRun
    · simp at hRun
    · obtain ⟨-, rfl⟩ := Prod.mk.inj (Option.some.inj hRun)
      exact hAnswered

/-- Taking memory from a node makes no call. -/
theorem mpAlloc_small_accounted (h : Accounted s.toHeap) (hSize : n ≤ s.max)
    (hRun : mpAlloc fuel s n = some (m, s')) : Accounted s'.toHeap := by
  obtain ⟨fuel', q, -, hCases⟩ := mpAlloc_small_cases hSize hRun
  rcases hCases with ⟨-, hBlock⟩ | ⟨-, -, rfl⟩
  · exact mpAllocBlock_accounted h hBlock
  · exact h

theorem attachLarge_accounted (hInv : Inv size s nodes larges (p :: pending)) (hPtr : p ≠ 0)
    (hMax : sizeofLarge ≤ s.max) (hClear : ¬ MeetsOvershoot s.node sizeofLarge s.current)
    (h : Accounted s.toHeap) (hRun : attachLarge (mpAlloc fuel) s p = some (m, s')) :
    Accounted s'.toHeap := by
  unfold attachLarge at hRun
  split at hRun
  · simp at hRun
  · rename_i l t hHeader
    have hSmall := mpAlloc_small_accounted h hMax hHeader
    split at hRun
    · rename_i hNull
      obtain ⟨-, rfl⟩ := Prod.mk.inj (Option.some.inj hRun)
      rcases mpAlloc_small hInv hMax hClear hHeader with ⟨-, hFailed, -⟩ | ⟨nodes', hServed⟩
      · have hLive : p ∈ t.live.bases := hFailed.ledger.mem_iff.mpr (by simp)
        exact free_accounted_of_mem hSmall hLive hPtr
      · exact absurd hNull hServed.ne_null
    · obtain ⟨-, rfl⟩ := Prod.mk.inj (Option.some.inj hRun)
      exact hSmall

theorem mpAllocLarge_accounted (hInv : Inv size s nodes larges pending)
    (hMax : sizeofLarge ≤ s.max)
    (hClear : s.Grants 16 n → freeSlot s.header 5 s.large = none →
      ¬ MeetsOvershoot s.node sizeofLarge s.current)
    (h : Accounted s.toHeap) (hRun : mpAllocLarge (mpAlloc fuel) s n = some (m, s')) :
    Accounted s'.toHeap := by
  unfold mpAllocLarge at hRun
  rcases hAsk : s.malloc n with ⟨p, heap⟩
  simp only [hAsk] at hRun
  have hAnswered := request_accounted (isRequest_malloc n) h hAsk
  obtain ⟨⟨hNodes, -⟩, hAnswer⟩ := inv_request hInv hAsk
  rcases hAnswer with ⟨rfl, -, -⟩ | ⟨hPtr, hGrants, -, -, hGranted⟩
  · obtain ⟨-, rfl⟩ := Prod.mk.inj (Option.some.inj hRun)
    exact hAnswered
  · rw [if_neg hPtr] at hRun
    split at hRun
    · obtain ⟨-, rfl⟩ := Prod.mk.inj (Option.some.inj hRun)
      exact hAnswered
    · rename_i hNoSlot
      refine attachLarge_accounted hGranted hPtr hMax ?_ hAnswered hRun
      show ¬ MeetsOvershoot heap.node sizeofLarge s.current
      rw [hNodes]
      exact hClear hGrants hNoSlot

theorem mpAlloc_accounted (hInv : Inv size s nodes larges pending) (hMax : sizeofLarge ≤ s.max)
    (hClear : ∀ k, smallRequest s (.alloc n) = some k → ¬ MeetsOvershoot s.node k s.current)
    (h : Accounted s.toHeap) (hRun : mpAlloc fuel s n = some (m, s')) : Accounted s'.toHeap := by
  simp only [smallRequest] at hClear
  by_cases hSize : n ≤ s.max
  · exact mpAlloc_small_accounted h hSize hRun
  · rw [if_neg hSize] at hClear
    obtain ⟨fuel', hLarge⟩ := mpAlloc_large_cases hSize hRun
    refine mpAllocLarge_accounted hInv hMax ?_ h hLarge
    intro hGrants hNoSlot
    exact hClear sizeofLarge (if_pos ⟨hMax, hGrants, hNoSlot⟩)

theorem mpMemalign_accounted {alignment : Nat} (hInv : Inv size s nodes larges pending)
    (hMax : sizeofLarge ≤ s.max)
    (hClear : ∀ k, smallRequest s (.memalign n alignment) = some k →
      ¬ MeetsOvershoot s.node k s.current)
    (h : Accounted s.toHeap) (hRun : mpMemalign fuel s n alignment = some (m, s')) :
    Accounted s'.toHeap := by
  simp only [smallRequest] at hClear
  unfold mpMemalign at hRun
  rcases hAsk : s.posixMemalign alignment n with ⟨p, heap⟩
  simp only [hAsk] at hRun
  have hAnswered := request_accounted (isRequest_posixMemalign alignment n) h hAsk
  obtain ⟨⟨hNodes, -⟩, hAnswer⟩ := inv_request hInv hAsk
  rcases hAnswer with ⟨rfl, -, -⟩ | ⟨hPtr, hGrants, -, -, hGranted⟩
  · obtain ⟨-, rfl⟩ := Prod.mk.inj (Option.some.inj hRun)
    exact hAnswered
  · rw [if_neg hPtr] at hRun
    refine attachLarge_accounted hGranted hPtr hMax ?_ hAnswered hRun
    show ¬ MeetsOvershoot heap.node sizeofLarge s.current
    rw [hNodes]
    exact hClear sizeofLarge (if_pos ⟨hMax, hGrants⟩)

/-- What a header of the list remembers. -/
theorem mem_allocs {header : Nat → MpLarge} :
    p ∈ allocs header larges ↔ (∃ l ∈ larges, (header l).alloc = p) ∧ p ≠ 0 := by
  simp [allocs]

theorem mpFree_accounted (hInv : Inv size s nodes larges pending) (h : Accounted s.toHeap)
    (hRun : mpFree fuel s p = some s') : Accounted s'.toHeap := by
  unfold mpFree at hRun
  split at hRun
  · simp at hRun
  · rename_i l hFind
    split at hRun
    · obtain rfl := Option.some.inj hRun
      exact h
    · rename_i hFound
      obtain rfl := Option.some.inj hRun
      obtain ⟨hMem, -⟩ := (findAlloc_spec hInv.headers hFind).resolve_left hFound
      show Accounted (s.free (s.header l).alloc)
      by_cases hPtr : (s.header l).alloc = 0
      · rw [hPtr]
        exact h
      · have hLive : (s.header l).alloc ∈ s.live.bases := by
          refine hInv.ledger.mem_iff.mpr (List.mem_append_right _ ?_)
          exact mem_allocs.mpr ⟨⟨l, hMem, rfl⟩, hPtr⟩
        exact free_accounted_of_mem h hLive hPtr

theorem mpResetPool_accounted (hInv : Inv size s nodes larges pending) (h : Accounted s.toHeap)
    (hRun : mpResetPool fuel s = some s') : Accounted s'.toHeap := by
  unfold mpResetPool at hRun
  split at hRun
  · simp at hRun
  · rename_i heap hFree
    split at hRun
    · simp at hRun
    · obtain rfl := Option.some.inj hRun
      exact (freeLarge_accounted h hInv.headers (hInv.ledger.trans List.perm_append_comm) hFree).1

/-- **One call keeps the account** if its search stays inside. -/
theorem exec_accounted {op : Op} (hInv : Inv size s nodes larges [])
    (hMax : sizeofLarge ≤ s.max)
    (hInside : ∀ k, smallRequest s op = some k → ¬ MeetsOvershoot s.node k s.current)
    (h : Accounted s.toHeap) (hRun : exec fuel s op = some (m, s')) : Accounted s'.toHeap := by
  cases op with
  | alloc n => exact mpAlloc_accounted hInv hMax hInside h hRun
  | calloc n => exact mpAlloc_accounted hInv hMax hInside h hRun
  | memalign n alignment => exact mpMemalign_accounted hInv hMax hInside h hRun
  | free p =>
      obtain ⟨t, hFree, hEq⟩ := Option.map_eq_some_iff.mp hRun
      obtain ⟨rfl, rfl⟩ := Prod.mk.inj hEq
      exact mpFree_accounted hInv h hFree
  | reset =>
      obtain ⟨t, hReset, hEq⟩ := Option.map_eq_some_iff.mp hRun
      obtain ⟨rfl, rfl⟩ := Prod.mk.inj hEq
      exact mpResetPool_accounted hInv h hReset

/-! ## What the client sees of the account -/

/-- What is outstanding: the pool, each node behind the first, and the memory of
each header. -/
def Balanced (s : Pool) : Prop :=
  ∃ nodes larges owned, Chain (nodeNext s.node) 0 s.head (s.head :: nodes) ∧
    Chain (headerNext s.header) 0 s.large larges ∧ outstanding s.calls = some owned ∧
    owned.Perm (s.addr :: nodes ++ allocs s.header larges)

/-- `p` is the memory of a header on the list. -/
def LargeAlloc (s : Pool) (p : Nat) : Prop :=
  ∃ larges, Chain (headerNext s.header) 0 s.large larges ∧ p ∈ allocs s.header larges

/-- `mp_free` returns, having given back exactly its argument if that is a large
allocation, and nothing otherwise. -/
def FreesExactly (s : Pool) (p : Nat) : Prop :=
  ∃ s', (∃ least, ∀ fuel, least ≤ fuel → mpFree fuel s p = some s') ∧
    (LargeAlloc s p → s'.calls = .free p :: s.calls) ∧ (¬ LargeAlloc s p → s'.calls = s.calls)

/-- `mp_destory_pool` returns, having made one `free` for each outstanding
region and no other call. -/
def DestroysExactly (s : Pool) : Prop :=
  ∃ heap freed owned, (∃ least, ∀ fuel, least ≤ fuel → mpDestoryPool fuel s = some heap) ∧
    heap.calls = freed.map .free ++ s.calls ∧ outstanding s.calls = some owned ∧
    owned.Perm freed ∧ outstanding heap.calls = some []

/-- The first node is part of the pool's region, every other one is a region. -/
theorem block_bases {rest : List Nat} (hChain : Chain (nodeNext s.node) 0 s.head (s.head :: rest)) :
    (s.head :: rest).map (fun h => (s.block size h).base) = s.addr :: rest := by
  obtain ⟨hFresh, -⟩ := List.nodup_cons.mp hChain.nodup
  rw [List.map_cons, block_head]
  congr 1
  conv_rhs => rw [← List.map_id rest]
  apply List.map_congr_left
  intro h hMem
  have hNe : h ≠ s.head := ne_of_mem_of_not_mem hMem hFresh
  unfold Pool.block
  rw [if_neg hNe]
  rfl

theorem Inv.live_perm (hInv : Inv size s nodes larges []) :
    ∃ rest, nodes = s.head :: rest ∧
      s.live.bases.Perm (s.addr :: rest ++ allocs s.header larges) := by
  obtain ⟨rest, rfl, -⟩ := hInv.chain.exists_cons (hInv.chain.ne_null_of_mem hInv.head_mem)
  have hLedger := hInv.ledger
  rw [block_bases hInv.chain, List.nil_append] at hLedger
  exact ⟨rest, rfl, hLedger⟩

theorem balanced_of_accounted (hInv : Inv size s nodes larges []) (h : Accounted s.toHeap) :
    Balanced s := by
  obtain ⟨owned, hCalls, hPerm⟩ := h
  obtain ⟨rest, rfl, hLive⟩ := hInv.live_perm
  exact ⟨rest, larges, owned, hInv.chain, hInv.headers, hCalls, hPerm.trans hLive⟩

/-- The search of `mp_free` misses nothing. -/
theorem findAlloc_none {header : Nat → MpLarge} {l : Nat}
    (hChain : Chain (headerNext header) 0 l larges) (hFind : findAlloc header p fuel l = some 0) :
    ∀ b ∈ larges, (header b).alloc ≠ p := by
  induction fuel generalizing l larges with
  | zero => simp [findAlloc] at hFind
  | succ fuel ih =>
      unfold findAlloc at hFind
      split at hFind
      · rename_i hNull
        subst hNull
        obtain rfl := hChain.eq_nil
        simp
      · rename_i hNe
        obtain ⟨larges', rfl, hRest⟩ := hChain.exists_cons hNe
        split at hFind
        · exact absurd (Option.some.inj hFind) hNe
        · rename_i hOther
          exact List.forall_mem_cons.mpr ⟨Ne.symm hOther, ih hRest hFind⟩

theorem Inv.largeAlloc_iff (hInv : Inv size s nodes larges pending) :
    LargeAlloc s p ↔ (∃ l ∈ larges, (s.header l).alloc = p) ∧ p ≠ 0 := by
  rw [← mem_allocs]
  constructor
  · rintro ⟨larges', hChain, hMem⟩
    rwa [hInv.headers.unique hChain]
  · intro hMem
    exact ⟨larges, hInv.headers, hMem⟩

theorem mpFree_exactly (hInv : Inv size s nodes larges pending) (p : Nat) : FreesExactly s p := by
  obtain ⟨s', hRun⟩ := mpFree_returns (p := p) hInv (Nat.lt_succ_self larges.length)
  refine ⟨s', ⟨_, fun fuel hLe => mpFree_mono hRun hLe⟩, ?_⟩
  rw [hInv.largeAlloc_iff]
  unfold mpFree at hRun
  split at hRun
  · simp at hRun
  · rename_i l hFind
    split at hRun
    · rename_i hNone
      obtain rfl := Option.some.inj hRun
      rw [hNone] at hFind
      refine ⟨?_, fun _ => rfl⟩
      rintro ⟨⟨b, hMem, hAlloc⟩, -⟩
      exact absurd hAlloc (findAlloc_none hInv.headers hFind b hMem)
    · rename_i hFound
      obtain rfl := Option.some.inj hRun
      obtain ⟨hMem, hAlloc⟩ := (findAlloc_spec hInv.headers hFind).resolve_left hFound
      show (_ → (s.free (s.header l).alloc).calls = _) ∧ (_ → (s.free (s.header l).alloc).calls = _)
      rw [hAlloc]
      unfold Heap.free
      split
      · rename_i hNull
        exact ⟨fun hLarge => absurd hNull hLarge.2, fun _ => rfl⟩
      · rename_i hPtr
        exact ⟨fun _ => rfl, fun hNot => absurd ⟨⟨l, hMem, hAlloc⟩, hPtr⟩ hNot⟩

/-! ## The end of a pool -/

theorem free_calls (heap : Heap) (p : Nat) :
    ∃ freed : List Nat, (heap.free p).calls = freed.map .free ++ heap.calls := by
  unfold Heap.free
  split
  · exact ⟨[], rfl⟩
  · exact ⟨[p], rfl⟩

/-- One `free` more in front of others. -/
theorem free_calls_append {t : Heap}
    (h : ∃ freed : List Nat, t.calls = freed.map .free ++ (heap.free p).calls) :
    ∃ freed : List Nat, t.calls = freed.map .free ++ heap.calls := by
  obtain ⟨freed, hCalls⟩ := h
  obtain ⟨first, hFirst⟩ := free_calls heap p
  refine ⟨freed ++ first, ?_⟩
  rw [hCalls, hFirst, List.map_append, List.append_assoc]

theorem freeLarge_calls {l : Nat} (hLoop : freeLarge fuel heap l = some heap') :
    ∃ freed : List Nat, heap'.calls = freed.map .free ++ heap.calls := by
  induction fuel generalizing heap l with
  | zero => simp [freeLarge] at hLoop
  | succ fuel ih =>
      unfold freeLarge at hLoop
      split at hLoop
      · obtain rfl := Option.some.inj hLoop
        exact ⟨[], rfl⟩
      · exact free_calls_append (ih hLoop)

theorem freeNodes_calls {h : Nat} (hLoop : freeNodes fuel heap h = some heap') :
    ∃ freed : List Nat, heap'.calls = freed.map .free ++ heap.calls := by
  induction fuel generalizing heap h with
  | zero => simp [freeNodes] at hLoop
  | succ fuel ih =>
      unfold freeNodes at hLoop
      split at hLoop
      · obtain rfl := Option.some.inj hLoop
        exact ⟨[], rfl⟩
      · exact free_calls_append (ih hLoop)

/-- Frees that the replay accepts are of different outstanding regions. -/
theorem outstanding_free {calls : List SysCall} {freed owned left : List Nat}
    (hBefore : outstanding calls = some owned)
    (hAfter : outstanding (freed.map .free ++ calls) = some left) :
    owned.Perm (freed ++ left) := by
  induction freed generalizing left with
  | nil =>
      obtain rfl := Option.some.inj (hBefore.symm.trans hAfter)
      exact List.Perm.refl _
  | cons p freed ih =>
      simp only [List.map_cons, List.cons_append, outstanding, Option.bind_eq_some_iff] at hAfter
      obtain ⟨owned', hRest, hHere⟩ := hAfter
      split at hHere
      · rename_i hMem
        obtain rfl := Option.some.inj hHere
        calc
          List.Perm owned (freed ++ owned') := ih hRest
          List.Perm _ (freed ++ p :: owned'.erase p) := (List.perm_cons_erase hMem).append_left _
          List.Perm _ (p :: freed ++ owned'.erase p) := List.perm_middle
      · simp at hHere

theorem mpDestoryPool_accounted (hInv : Inv size s nodes larges []) (h : Accounted s.toHeap)
    (hRun : mpDestoryPool fuel s = some heap) :
    (∃ freed : List Nat, heap.calls = freed.map .free ++ s.calls) ∧
      outstanding heap.calls = some [] := by
  obtain ⟨rest, rfl, hLive⟩ := hInv.live_perm
  unfold mpDestoryPool at hRun
  split at hRun
  · simp at hRun
  · rename_i heap₁ hFree
    split at hRun
    · simp at hRun
    · rename_i heap₂ hNodes
      obtain rfl := Option.some.inj hRun
      constructor
      · obtain ⟨freed₁, h₁⟩ := freeLarge_calls hFree
        obtain ⟨freed₂, h₂⟩ := freeNodes_calls hNodes
        obtain ⟨freed₃, h₃⟩ := free_calls heap₂ s.addr
        refine ⟨freed₃ ++ freed₂ ++ freed₁, ?_⟩
        rw [h₃, h₂, h₁]
        simp
      · obtain ⟨hDone₁, hLeft₁⟩ :=
          freeLarge_accounted h hInv.headers (hLive.trans List.perm_append_comm) hFree
        have hRest : Chain (nodeNext heap₁.node) 0 (heap₁.node s.head).next rest := by
          rw [(freeLarge_structures hFree).1]
          exact hInv.chain.2.2
        have hLeft₁' : heap₁.live.bases.Perm (rest ++ [s.addr]) :=
          hLeft₁.trans (List.perm_append_singleton _ _).symm
        obtain ⟨hDone₂, hLeft₂⟩ := freeNodes_accounted hDone₁ hRest hLeft₁' hNodes
        have hPool : s.addr ≠ 0 := by
          have hBlock := hInv.block_live s.head hInv.head_mem
          have hPos := (s.live.inside _ hBlock).1
          rw [block_head] at hPos
          exact Nat.pos_iff_ne_zero.mp hPos
        obtain ⟨⟨owned, hCalls, hPerm⟩, hLeft₃⟩ := free_accounted hDone₂ hPool hLeft₂
        rw [hCalls, (hPerm.trans hLeft₃).eq_nil]

theorem mpDestoryPool_exactly (hInv : Inv size s nodes larges []) (h : Accounted s.toHeap) :
    DestroysExactly s := by
  obtain ⟨heap, hRun⟩ : ∃ heap, mpDestoryPool (nodes.length + larges.length + 1) s = some heap :=
    mpDestoryPool_returns hInv (by omega) (by omega)
  obtain ⟨⟨freed, hFreed⟩, hNothing⟩ := mpDestoryPool_accounted hInv h hRun
  obtain ⟨owned, hCalls, -⟩ := h
  have hPerm : owned.Perm (freed ++ []) := outstanding_free hCalls (hFreed ▸ hNothing)
  rw [List.append_nil] at hPerm
  exact ⟨heap, freed, owned, ⟨_, fun fuel hLe => mpDestoryPool_mono hRun hLe⟩, hFreed, hCalls,
    hPerm, hNothing⟩

/-! ## Runs -/

/-- A new pool has made one call, for its own region. -/
theorem mpCreatePool_accounted {node : Nat → MpNode} {header : Nat → MpLarge}
    {answer : Nat → Nat} (hCreate : mpCreatePool (Heap.start node header answer) size = some s) :
    Accounted s.toHeap := by
  unfold mpCreatePool at hCreate
  rcases hAsk : (Heap.start node header answer).posixMemalign mpAlignment
    (ptrAdd size (sizeofPool + sizeofNode)) with ⟨p, heap⟩
  simp only [hAsk] at hCreate
  have hAnswered :=
    request_accounted (isRequest_posixMemalign _ _) (accounted_start node header answer) hAsk
  split at hCreate
  · simp at hCreate
  · obtain rfl := Option.some.inj hCreate
    exact hAnswered

theorem Inv.room_for_header (hInv : Inv size s nodes larges pending)
    (hRoom : sizeofLarge ≤ size) : sizeofLarge ≤ s.max := by
  have hEq := hInv.max_eq
  have hPage : sizeofLarge ≤ mpMaxAllocFromPool := by decide
  split at hEq <;> omega

/-- The invariant and the account over a run whose searches stay inside. -/
theorem accounted_reach (hRoom : sizeofLarge ≤ size)
    (hInit : (∃ nodes larges, Inv size s₀ nodes larges []) ∧ Accounted s₀.toHeap)
    (h : Reach step StaysInside s₀ s) :
    (∃ nodes larges, Inv size s nodes larges []) ∧ Accounted s.toHeap := by
  refine h.invariant (P := fun s => (∃ nodes larges, Inv size s nodes larges []) ∧
    Accounted s.toHeap) hInit ?_
  rintro s a s' ⟨⟨nodes, larges, hInv⟩, hAccounted⟩ hInside hStep
  obtain ⟨⟨m, t⟩, hRun, rfl⟩ := Option.map_eq_some_iff.mp hStep
  exact ⟨exec_inv hInv hInside hRun,
    exec_accounted hInv (hInv.room_for_header hRoom) hInside hAccounted hRun⟩

/-- **The ledger balances while the searches stay inside.**  In every state of
such a run every call returns, what has been obtained and not given back is the
pool, its nodes and the memory of its headers, `mp_free` gives back exactly its
argument if that is a large allocation and nothing otherwise, and
`mp_destory_pool` gives back each outstanding region exactly once.  No `free`
of the run was of memory that was not outstanding. -/
theorem ledger_balances_if_inside {node : Nat → MpNode} {header : Nat → MpLarge}
    {answer : Nat → Nat} (hSize : size + (sizeofPool + sizeofNode) < 2 ^ 64)
    (hRoom : sizeofLarge ≤ size)
    (hCreate : mpCreatePool (Heap.start node header answer) size = some s₀)
    (hNull : (s₀.node s₀.head).next = 0) (hReach : Reach step StaysInside s₀ s) :
    (∀ op, ∃ r least, ∀ fuel, least ≤ fuel → exec fuel s op = some r) ∧
      Balanced s ∧ (∀ p, FreesExactly s p) ∧ DestroysExactly s := by
  obtain ⟨⟨nodes, larges, hInv⟩, hAccounted⟩ := accounted_reach hRoom
    ⟨⟨_, _, mpCreatePool_inv hSize hCreate hNull⟩, mpCreatePool_accounted hCreate⟩ hReach
  refine ⟨exec_result hSize hCreate hNull hRoom hReach, ?_, ?_, ?_⟩
  · exact balanced_of_accounted hInv hAccounted
  · exact mpFree_exactly hInv
  · exact mpDestoryPool_exactly hInv hAccounted

/-- After its first request of 512 bytes, the pool of `main` gives back one
region when it is destroyed. -/
theorem ledger_balances_if_inside_mainPool :
    ∃ s, s.carved = [⟨65600, 512⟩] ∧ Balanced s ∧ DestroysExactly s := by
  obtain ⟨s, hCarved, hReach⟩ := mainPool_first_request
  obtain ⟨-, hBalanced, -, hDestroys⟩ :=
    ledger_balances_if_inside (by decide) (by decide) mainPool_created (by decide) hReach
  exact ⟨s, hCarved, hBalanced, hDestroys⟩

/-- A list whose first header points to itself has no end. -/
theorem not_chain_of_self_loop {header : Nat → MpLarge} {l : Nat} (hPtr : l ≠ 0)
    (hLoop : (header l).next = l) : ¬ Chain (headerNext header) 0 l larges := by
  intro hChain
  obtain ⟨larges', rfl, hRest⟩ := hChain.exists_cons hPtr
  have hRest' : Chain (headerNext header) 0 l larges' := hLoop ▸ hRest
  exact absurd (hChain.unique hRest') (List.cons_ne_self l larges')

/-- The loop over such a list does not return. -/
theorem freeLarge_self_loop {l : Nat} (hPtr : l ≠ 0) (hLoop : (heap.header l).next = l)
    (fuel : Nat) : freeLarge fuel heap l = none := by
  induction fuel generalizing heap with
  | zero => rfl
  | succ fuel ih =>
      unfold freeLarge
      rw [if_neg hPtr, hLoop]
      apply ih
      rw [free_header]
      exact hLoop

/-- A system that grants the second block of a pool of 4112 bytes 24 bytes
behind the first one. -/
def adjacentHeap : Heap :=
  Heap.start (fun _ => ⟨0, 0, 0, 0⟩) (fun _ => ⟨0, 0⟩) fun k =>
    [65536, 200000, 69728, 300000].getD k 0

def adjacentPool : Pool := (mpCreatePool adjacentHeap 4112).get (by decide)

theorem adjacentPool_created : mpCreatePool adjacentHeap 4112 = some adjacentPool := by
  simp [adjacentPool]

/-- The header of the first large allocation starts the second block.  A full
first block then overshoots, and its tail runs into the second one: the header
of the second large allocation is the same memory, now its own successor. -/
def headerTwice : List Action :=
  [(.alloc 4090, 6), (.alloc 5000, 6), (.alloc 8, 6), (.alloc 1, 6), (.alloc 5000, 6)]

/-- The first large allocation is lost, and the pool cannot be destroyed. -/
theorem large_allocation_lost :
    ∃ size s₀ s, sizeofLarge ≤ size ∧ size + (sizeofPool + sizeofNode) < 2 ^ 64 ∧
      mpCreatePool adjacentHeap size = some s₀ ∧ (s₀.node s₀.head).next = 0 ∧
      Reachable step s₀ s ∧ outstanding s.calls = some [300000, 69728, 200000, 65536] ∧
      ¬ Balanced s ∧ ∀ fuel, mpDestoryPool fuel s = none := by
  have hRun : run step adjacentPool headerTwice =
      some ((run step adjacentPool headerTwice).get (by decide)) := by simp
  refine ⟨4112, adjacentPool, _, by decide, by decide, adjacentPool_created, by decide,
    reachable_of_run hRun, by decide, ?_, ?_⟩
  · rintro ⟨nodes, larges, owned, -, hChain, -⟩
    exact not_chain_of_self_loop (by decide) (by decide) hChain
  · intro fuel
    unfold mpDestoryPool
    rw [freeLarge_self_loop (by decide) (by decide)]

end MemPool
end LinuxCppLearn
