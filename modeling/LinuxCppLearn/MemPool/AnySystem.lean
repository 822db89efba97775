import LinuxCppLearn.MemPool.Containment

/-!
# The memory pool over any system

The functions of `mempool.c` over a system that is a parameter: what it answers
depends on its own state only, and nothing is asked of the answers.  The system
of `Heap`, which hands out regions of the address space while there are any, is
one instance; a system that never fails is another.

* `System` — `posix_memalign`, `malloc` and `free` on a state of the system.
* `exec` — the calls to the pool.
* `exec_ofHeap`, `reachable_ofHeap` — over the system of `Heap` they are the
  calls of the model, and the runs of the model are runs over it.
-/

namespace LinuxCppLearn
namespace MemPool
namespace OnSystem

open Regions StepSystem

/-- The allocator of the system, on its state; `0` is a failed call. -/
structure System (σ : Type) where
  /-- by alignment and size -/
  posixMemalign : σ → Nat → Nat → Nat × σ
  malloc : σ → Nat → Nat × σ
  free : σ → Nat → σ

/-- The pool at the address `addr`, the structures in memory and the system. -/
structure Pool (σ : Type) where
  node : Nat → MpNode
  header : Nat → MpLarge
  system : σ
  addr : Nat
  max : Nat
  current : Nat
  large : Nat

variable {σ : Type}

/-- The address of the flexible array member `head`. -/
def Pool.head (s : Pool σ) : Nat := s.addr + sizeofPool

/-- `mp_create_pool`; `p->head->next` is left as the memory has it. -/
def mpCreatePool (sys : System σ) (node : Nat → MpNode) (header : Nat → MpLarge) (w : σ)
    (size : Nat) : Option (Pool σ) :=
  match sys.posixMemalign w mpAlignment (ptrAdd size (sizeofPool + sizeofNode)) with
  | (p, w) =>
      if p = 0 then none
      else
        let head := p + sizeofPool
        let last := ptrAdd p (sizeofPool + sizeofNode)
        some {
          node := Function.update node head
            { node head with last := last, end_ := ptrAdd last size, failed := 0 }
          header := header
          system := w
          addr := p
          max := if size < mpMaxAllocFromPool then size else mpMaxAllocFromPool
          current := head
          large := 0 }

/-- `mp_alloc_block` -/
def mpAllocBlock (sys : System σ) (fuel : Nat) (s : Pool σ) (size : Nat) :
    Option (Nat × Pool σ) :=
  let psize := ptrDiff (s.node s.head).end_ s.head
  match sys.posixMemalign s.system mpAlignment psize with
  | (newNode, w) =>
      if newNode = 0 then some (0, { s with system := w })
      else
        let m := mpAlignPtr (ptrAdd newNode sizeofNode) mpAlignment
        let node := Function.update s.node newNode
          { last := ptrAdd m size, end_ := ptrAdd newNode psize, next := 0, failed := 0 }
        match bumpFailed fuel node s.current s.current with
        | none => none
        | some (p, current, node) =>
            some (m, { s with
              node := Function.update node p { node p with next := newNode }
              system := w
              current := if current ≠ 0 then current else newNode })

/-- The end of `mp_alloc_large` and of `mp_memalign`. -/
def attachLarge (sys : System σ) (alloc : Pool σ → Nat → Option (Nat × Pool σ)) (s : Pool σ)
    (p : Nat) : Option (Nat × Pool σ) :=
  match alloc s sizeofLarge with
  | none => none
  | some (large, s) =>
      if large = 0 then some (0, { s with system := sys.free s.system p })
      else
        some (p, { s with
          header := Function.update s.header large { alloc := p, next := s.large }
          large := large })

/-- `mp_alloc_large`, calling back `mp_alloc`. -/
def mpAllocLarge (sys : System σ) (alloc : Pool σ → Nat → Option (Nat × Pool σ)) (s : Pool σ)
    (size : Nat) : Option (Nat × Pool σ) :=
  match sys.malloc s.system size with
  | (p, w) =>
      if p = 0 then some (0, { s with system := w })
      else
        match freeSlot s.header 5 s.large with
        | some large =>
            some (p, { s with
              header := Function.update s.header large { s.header large with alloc := p }
              system := w })
        | none => attachLarge sys alloc { s with system := w } p

/-- Take `size` bytes from the node `p`. -/
def carve (s : Pool σ) (p size : Nat) : Nat × Pool σ :=
  let m := mpAlignPtr (s.node p).last mpAlignment
  (m, { s with node := Function.update s.node p { s.node p with last := ptrAdd m size } })

/-- `mp_alloc` -/
def mpAlloc (sys : System σ) : Nat → Pool σ → Nat → Option (Nat × Pool σ)
  | 0, _, _ => none
  | fuel + 1, s, size =>
      if size ≤ s.max then
        match findFit s.node size fuel s.current with
        | none => none
        | some p => if p ≠ 0 then some (carve s p size) else mpAllocBlock sys fuel s size
      else mpAllocLarge sys (mpAlloc sys fuel) s size

/-- `mp_calloc`; the `memset` of the returned region leaves the pool alone. -/
def mpCalloc (sys : System σ) (fuel : Nat) (s : Pool σ) (size : Nat) : Option (Nat × Pool σ) :=
  mpAlloc sys fuel s size

/-- `mp_memalign` -/
def mpMemalign (sys : System σ) (fuel : Nat) (s : Pool σ) (size alignment : Nat) :
    Option (Nat × Pool σ) :=
  match sys.posixMemalign s.system alignment size with
  | (p, w) =>
      if p = 0 then some (0, { s with system := w })
      else attachLarge sys (mpAlloc sys fuel) { s with system := w } p

/-- `mp_free` -/
def mpFree (sys : System σ) (fuel : Nat) (s : Pool σ) (p : Nat) : Option (Pool σ) :=
  match findAlloc s.header p fuel s.large with
  | none => none
  | some l =>
      if l = 0 then some s
      else
        some { s with
          header := Function.update s.header l { s.header l with alloc := 0 }
          system := sys.free s.system (s.header l).alloc }

/-- The first loop of `mp_reset_pool`. -/
def freeLarge (sys : System σ) (header : Nat → MpLarge) : Nat → σ → Nat → Option σ
  | 0, _, _ => none
  | fuel + 1, w, l =>
      if l = 0 then some w
      else
        freeLarge sys header fuel
          (if (header l).alloc ≠ 0 then sys.free w (header l).alloc else w) (header l).next

/-- `mp_reset_pool` -/
def mpResetPool (sys : System σ) (fuel : Nat) (s : Pool σ) : Option (Pool σ) :=
  match freeLarge sys s.header fuel s.system s.large with
  | none => none
  | some w =>
      match rewindNodes fuel s.node s.head with
      | none => none
      | some node => some { s with node := node, system := w, large := 0 }

/-- Perform a call; `NULL` for the calls that return nothing. -/
def exec (sys : System σ) (fuel : Nat) (s : Pool σ) : Op → Option (Nat × Pool σ)
  | .alloc size => mpAlloc sys fuel s size
  | .calloc size => mpCalloc sys fuel s size
  | .memalign size alignment => mpMemalign sys fuel s size alignment
  | .free p => (mpFree sys fuel s p).map fun s => (0, s)
  | .reset => (mpResetPool sys fuel s).map fun s => (0, s)

/-- The state behind a call. -/
def step (sys : System σ) (s : Pool σ) (a : Action) : Option (Pool σ) :=
  (exec sys a.2 s a.1).map Prod.snd

/-! ## The system of the model -/

/-- The system of a heap, without the structures in its memory. -/
def blank (heap : Heap) : Heap :=
  { heap with node := fun _ => ⟨0, 0, 0, 0⟩, header := fun _ => ⟨0, 0⟩ }

def heapSystem : System Heap where
  posixMemalign := Heap.posixMemalign
  malloc := Heap.malloc
  free := Heap.free

/-- A pool of the model as one over the system of its heap. -/
def ofHeap (s : MemPool.Pool) : Pool Heap where
  node := s.node
  header := s.header
  system := blank s.toHeap
  addr := s.addr
  max := s.max
  current := s.current
  large := s.large

/-- The result of a call, over the system of its heap. -/
def ofResult (r : Nat × MemPool.Pool) : Nat × Pool Heap := (r.1, ofHeap r.2)

theorem request_blank (heap : Heap) (alignment size : Nat) (call : Nat → SysCall) :
    (blank heap).request alignment size call =
      ((heap.request alignment size call).1, blank (heap.request alignment size call).2) := by
  unfold Heap.request
  by_cases hGrants : heap.Grants alignment size
  · have hGrants' : (blank heap).Grants alignment size := hGrants
    rw [dif_pos hGrants, dif_pos hGrants']
    rfl
  · have hRefused : ¬ (blank heap).Grants alignment size := hGrants
    rw [dif_neg hGrants, dif_neg hRefused]
    rfl

theorem free_blank (heap : Heap) (p : Nat) : (blank heap).free p = blank (heap.free p) := by
  unfold Heap.free
  split
  · rfl
  · rfl

/-- A call for memory leaves the structures. -/
theorem request_structures (heap : Heap) (alignment size : Nat) (call : Nat → SysCall) :
    (heap.request alignment size call).2.node = heap.node ∧
      (heap.request alignment size call).2.header = heap.header := by
  unfold Heap.request
  split
  · exact ⟨rfl, rfl⟩
  · exact ⟨rfl, rfl⟩

section Same

variable {s : MemPool.Pool} {fuel : Nat}

/-- Asking the system for memory, over the system of the heap. -/
theorem ofHeap_request {heap : Heap} {alignment size p : Nat} {call : Nat → SysCall}
    (hAsk : s.request alignment size call = (p, heap)) :
    (blank s.toHeap).request alignment size call = (p, blank heap) ∧
      ofHeap { s with toHeap := heap } = { ofHeap s with system := blank heap } := by
  obtain ⟨hNode, hHeader⟩ := request_structures s.toHeap alignment size call
  have hBlank := request_blank s.toHeap alignment size call
  rw [hAsk] at hNode hHeader hBlank
  refine ⟨hBlank, ?_⟩
  unfold ofHeap
  simp only
  rw [show heap.node = s.node from hNode, show heap.header = s.header from hHeader]

theorem mpAllocBlock_ofHeap (s : MemPool.Pool) (fuel n : Nat) :
    (MemPool.mpAllocBlock fuel s n).map ofResult = mpAllocBlock heapSystem fuel (ofHeap s) n := by
  rcases hAsk : s.posixMemalign mpAlignment (ptrDiff (s.node s.head).end_ s.head) with ⟨c, heap⟩
  obtain ⟨hAsk', hSame⟩ := ofHeap_request hAsk
  obtain ⟨hNode, hHeader⟩ := request_structures s.toHeap mpAlignment
    (ptrDiff (s.node s.head).end_ s.head)
    (.posixMemalign mpAlignment (ptrDiff (s.node s.head).end_ s.head))
  rw [show s.request _ _ _ = _ from hAsk] at hNode hHeader
  have hCall : heapSystem.posixMemalign (ofHeap s).system mpAlignment
      (ptrDiff ((ofHeap s).node (ofHeap s).head).end_ (ofHeap s).head) = (c, blank heap) := hAsk'
  unfold MemPool.mpAllocBlock mpAllocBlock
  simp only [hAsk, hCall]
  by_cases hNull : c = 0
  · simp only [if_pos hNull, Option.map_some, ofResult, hSame]
  · simp only [if_neg hNull]
    have hSize : ptrDiff ((ofHeap s).node (ofHeap s).head).end_ (ofHeap s).head =
        ptrDiff (s.node s.head).end_ s.head := rfl
    rw [show heap.node = (ofHeap s).node from hNode, hSize]
    show Option.map _ (match bumpFailed fuel _ (ofHeap s).current (ofHeap s).current with
      | none => none
      | some (p, current, node) => _) = _
    split
    · rfl
    · simp only [Option.map_some, ofResult, ofHeap]
      rw [show heap.header = s.header from hHeader]
      rfl

theorem attachLarge_ofHeap {alloc : MemPool.Pool → Nat → Option (Nat × MemPool.Pool)}
    {alloc' : Pool Heap → Nat → Option (Nat × Pool Heap)}
    (hAlloc : ∀ s n, (alloc s n).map ofResult = alloc' (ofHeap s) n) (s : MemPool.Pool)
    (p : Nat) :
    (MemPool.attachLarge alloc s p).map ofResult =
      attachLarge heapSystem alloc' (ofHeap s) p := by
  unfold MemPool.attachLarge attachLarge
  rw [← hAlloc s sizeofLarge]
  cases alloc s sizeofLarge with
  | none => rfl
  | some r =>
      obtain ⟨l, t⟩ := r
      by_cases hNull : l = 0
      · simp only [Option.map_some, ofResult, if_pos hNull]
        unfold ofHeap
        simp only [free_node, free_header]
        rw [show heapSystem.free (blank t.toHeap) p = blank (t.free p) from free_blank _ _]
      · simp only [Option.map_some, ofResult, if_neg hNull]
        rfl

theorem mpAllocLarge_ofHeap {alloc : MemPool.Pool → Nat → Option (Nat × MemPool.Pool)}
    {alloc' : Pool Heap → Nat → Option (Nat × Pool Heap)}
    (hAlloc : ∀ s n, (alloc s n).map ofResult = alloc' (ofHeap s) n) (s : MemPool.Pool)
    (n : Nat) :
    (MemPool.mpAllocLarge alloc s n).map ofResult =
      mpAllocLarge heapSystem alloc' (ofHeap s) n := by
  unfold MemPool.mpAllocLarge mpAllocLarge
  rcases hAsk : s.malloc n with ⟨p, heap⟩
  obtain ⟨hAsk', hSame⟩ := ofHeap_request hAsk
  obtain ⟨hNode, hHeader⟩ := request_structures s.toHeap 16 n (.malloc n)
  rw [show s.request _ _ _ = _ from hAsk] at hNode hHeader
  have hCall : heapSystem.malloc (ofHeap s).system n = (p, blank heap) := hAsk'
  rw [hCall]
  by_cases hNull : p = 0
  · simp only [if_pos hNull, Option.map_some]
    simp only [ofResult, hSame]
  · simp only [if_neg hNull]
    show Option.map _ (match freeSlot s.header 5 s.large with
      | some large => _
      | none => _) = match freeSlot s.header 5 s.large with
      | some large => _
      | none => _
    cases freeSlot s.header 5 s.large with
    | some l =>
        simp only [Option.map_some, ofResult, ofHeap]
        rw [show heap.node = s.node from hNode, show heap.header = s.header from hHeader]
        rfl
    | none =>
        simp only
        rw [attachLarge_ofHeap hAlloc, hSame]

/-- **`mp_alloc` over the system of the heap** is `mp_alloc` of the model. -/
theorem mpAlloc_ofHeap (fuel : Nat) (s : MemPool.Pool) (n : Nat) :
    (MemPool.mpAlloc fuel s n).map ofResult = mpAlloc heapSystem fuel (ofHeap s) n := by
  induction fuel generalizing s n with
  | zero => rfl
  | succ fuel ih =>
      unfold MemPool.mpAlloc mpAlloc
      show Option.map _ (if n ≤ s.max then _ else _) = if n ≤ s.max then _ else _
      by_cases hSize : n ≤ s.max
      · rw [if_pos hSize, if_pos hSize]
        show Option.map _ (match findFit s.node n fuel s.current with
          | none => none
          | some p => _) = match findFit s.node n fuel s.current with
          | none => none
          | some p => _
        cases findFit s.node n fuel s.current with
        | none => rfl
        | some q =>
            by_cases hFound : q ≠ 0
            · simp only [if_pos hFound]
              rfl
            · simp only [if_neg hFound]
              exact mpAllocBlock_ofHeap s fuel n
      · rw [if_neg hSize, if_neg hSize]
        exact mpAllocLarge_ofHeap ih s n

theorem mpMemalign_ofHeap (fuel : Nat) (s : MemPool.Pool) (n alignment : Nat) :
    (MemPool.mpMemalign fuel s n alignment).map ofResult =
      mpMemalign heapSystem fuel (ofHeap s) n alignment := by
  unfold MemPool.mpMemalign mpMemalign
  rcases hAsk : s.posixMemalign alignment n with ⟨p, heap⟩
  obtain ⟨hAsk', hSame⟩ := ofHeap_request hAsk
  have hCall : heapSystem.posixMemalign (ofHeap s).system alignment n = (p, blank heap) := hAsk'
  rw [hCall]
  by_cases hNull : p = 0
  · simp only [if_pos hNull, Option.map_some]
    simp only [ofResult, hSame]
  · simp only [if_neg hNull]
    rw [attachLarge_ofHeap (mpAlloc_ofHeap fuel), hSame]

theorem mpFree_ofHeap (fuel : Nat) (s : MemPool.Pool) (p : Nat) :
    (MemPool.mpFree fuel s p).map ofHeap = mpFree heapSystem fuel (ofHeap s) p := by
  unfold MemPool.mpFree mpFree
  show Option.map _ (match findAlloc s.header p fuel s.large with
    | none => none
    | some l => _) = match findAlloc s.header p fuel s.large with
    | none => none
    | some l => _
  cases findAlloc s.header p fuel s.large with
  | none => rfl
  | some l =>
      by_cases hNone : l = 0
      · simp only [if_pos hNone]
        rfl
      · simp only [if_neg hNone, Option.map_some]
        unfold ofHeap
        simp only [free_node]
        rw [show heapSystem.free (blank s.toHeap) (s.header l).alloc =
          blank (s.free (s.header l).alloc) from free_blank _ _]
        rfl

theorem freeLarge_ofHeap (fuel : Nat) (heap : Heap) (l : Nat) :
    (MemPool.freeLarge fuel heap l).map blank =
      freeLarge heapSystem heap.header fuel (blank heap) l := by
  induction fuel generalizing heap l with
  | zero => rfl
  | succ fuel ih =>
      unfold MemPool.freeLarge freeLarge
      by_cases hNone : l = 0
      · rw [if_pos hNone, if_pos hNone]
        rfl
      · rw [if_neg hNone, if_neg hNone, ih, free_header]
        congr 1
        split
        · exact (free_blank _ _).symm
        -- the source does not call `free` for an emptied header
        · rename_i hEmpty
          rw [show heap.free (heap.header l).alloc = heap from if_pos (not_not.mp hEmpty)]

theorem mpResetPool_ofHeap (fuel : Nat) (s : MemPool.Pool) :
    (MemPool.mpResetPool fuel s).map ofHeap = mpResetPool heapSystem fuel (ofHeap s) := by
  unfold MemPool.mpResetPool mpResetPool
  have hFree := freeLarge_ofHeap fuel s.toHeap s.large
  rw [show freeLarge heapSystem (ofHeap s).header fuel (ofHeap s).system (ofHeap s).large = _ from
    hFree.symm]
  cases hRun : MemPool.freeLarge fuel s.toHeap s.large with
  | none => rfl
  | some heap =>
      obtain ⟨hNode, hHeader⟩ := freeLarge_structures hRun
      simp only [Option.map_some]
      rw [hNode]
      show Option.map _ (match rewindNodes fuel s.node s.head with
        | none => none
        | some node => _) = match rewindNodes fuel s.node s.head with
        | none => none
        | some node => _
      cases rewindNodes fuel s.node s.head with
      | none => rfl
      | some node =>
          simp only [Option.map_some, ofHeap]
          rw [hHeader]
          rfl

theorem mpCreatePool_ofHeap (heap : Heap) (size : Nat) :
    (MemPool.mpCreatePool heap size).map ofHeap =
      mpCreatePool heapSystem heap.node heap.header (blank heap) size := by
  rcases hAsk : heap.posixMemalign mpAlignment (ptrAdd size (sizeofPool + sizeofNode)) with
    ⟨p, heap'⟩
  obtain ⟨hNode, hHeader⟩ := request_structures heap mpAlignment
    (ptrAdd size (sizeofPool + sizeofNode))
    (.posixMemalign mpAlignment (ptrAdd size (sizeofPool + sizeofNode)))
  have hBlank := request_blank heap mpAlignment (ptrAdd size (sizeofPool + sizeofNode))
    (.posixMemalign mpAlignment (ptrAdd size (sizeofPool + sizeofNode)))
  rw [show heap.request _ _ _ = _ from hAsk] at hNode hHeader hBlank
  have hCall : heapSystem.posixMemalign (blank heap) mpAlignment
      (ptrAdd size (sizeofPool + sizeofNode)) = (p, blank heap') := hBlank
  unfold MemPool.mpCreatePool mpCreatePool
  simp only [hAsk, hCall]
  by_cases hNull : p = 0
  · simp only [if_pos hNull, Option.map_none]
  · simp only [if_neg hNull, Option.map_some, ofHeap]
    rw [show heap'.node = heap.node from hNode, show heap'.header = heap.header from hHeader]
    rfl

/-- **The calls over the system of the heap** are those of the model. -/
theorem exec_ofHeap (fuel : Nat) (s : MemPool.Pool) (op : Op) :
    (MemPool.exec fuel s op).map ofResult = exec heapSystem fuel (ofHeap s) op := by
  cases op with
  | alloc n => exact mpAlloc_ofHeap fuel s n
  | calloc n => exact mpAlloc_ofHeap fuel s n
  | memalign n alignment => exact mpMemalign_ofHeap fuel s n alignment
  | free p =>
      show Option.map _ (Option.map _ _) = Option.map _ (mpFree heapSystem fuel (ofHeap s) p)
      rw [← mpFree_ofHeap, Option.map_map, Option.map_map]
      rfl
  | reset =>
      show Option.map _ (Option.map _ _) = Option.map _ (mpResetPool heapSystem fuel (ofHeap s))
      rw [← mpResetPool_ofHeap, Option.map_map, Option.map_map]
      rfl

/-- A run of the model is one over the system of its heap. -/
theorem reachable_ofHeap {s₀ : MemPool.Pool} (hReach : Reachable MemPool.step s₀ s) :
    Reachable (step heapSystem) (ofHeap s₀) (ofHeap s) := by
  refine hReach.invariant (P := fun s => Reachable (step heapSystem) (ofHeap s₀) (ofHeap s))
    Reach.start ?_
  intro s a s' hBefore _ hStep
  obtain ⟨r, hRun, rfl⟩ := Option.map_eq_some_iff.mp hStep
  refine Reach.next a hBefore trivial ?_
  show (exec heapSystem a.2 (ofHeap s) a.1).map Prod.snd = _
  rw [← exec_ofHeap, hRun]
  rfl

end Same

end OnSystem
end MemPool
end LinuxCppLearn
