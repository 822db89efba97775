import LinuxCppLearn.Library.LiveRegions
import Mathlib.Algebra.Group.Nat.Defs
import Mathlib.Logic.Function.Basic

/-!
# The memory pool

`mempool.c` serves small requests by moving a pointer through blocks obtained
with `posix_memalign`, and large ones with `malloc`, remembered through headers
which are themselves small allocations.

Addresses and `size_t` values are `Nat` below `2 ^ 64`, with `NULL = 0` and the
wrap-around written out; the layout is LP64.  The memory holds the two kinds of
structures the pool keeps in it, each at its address: `mp_node_s` (`node`) and
`mp_large_s` (`header`).  What clients store in their regions is not part of
the model, so `mp_calloc` is `mp_alloc`, and a write past the end of a block is
not followed into the memory it hits.

The system is a stream of addresses it proposes, one for each call.  A proposed
address is granted if it meets what `posix_memalign` and `malloc` promise, and
the call fails otherwise; so every stream is an honest system, with failures at
any calls.

The loops over lists and the mutual recursion of `mp_alloc` and
`mp_alloc_large` take fuel; `none` says that it did not suffice.
-/

namespace LinuxCppLearn
namespace MemPool

open Regions

/-- `MP_ALIGNMENT` -/
def mpAlignment : Nat := 32

/-- `MP_MAX_ALLOC_FROM_POOL`, one less than `MP_PAGE_SIZE` -/
def mpMaxAllocFromPool : Nat := 4096 - 1

def sizeofPool : Nat := 24

def sizeofNode : Nat := 32

def sizeofLarge : Nat := 16

/-- No region reaches into the last bytes of the address space. -/
def addressTop : Nat := 2 ^ 64 - 32

/-- `p + n` on pointers and `size_t`. -/
def ptrAdd (p n : Nat) : Nat := (p + n) % 2 ^ 64

/-- `(size_t)(p - q)` -/
def ptrDiff (p q : Nat) : Nat := (p + 2 ^ 64 - q) % 2 ^ 64

/-- `mp_align_ptr`; `~(alignment - 1)` is `2 ^ 64 - alignment` as a `size_t`. -/
def mpAlignPtr (p alignment : Nat) : Nat :=
  ptrAdd p (alignment - 1) &&& (2 ^ 64 - alignment)

/-- `struct mp_large_s` -/
structure MpLarge where
  next : Nat
  alloc : Nat
deriving DecidableEq, Repr

/-- `struct mp_node_s` -/
structure MpNode where
  last : Nat
  end_ : Nat
  next : Nat
  failed : Nat
deriving DecidableEq, Repr

/-- A call to the system with its arguments and result. -/
inductive SysCall where
  | posixMemalign (alignment size result : Nat)
  | malloc (size result : Nat)
  | free (p : Nat)
deriving DecidableEq, Repr

/-- The memory and the system allocator. -/
structure Heap where
  /-- the `mp_node_s` at each address -/
  node : Nat → MpNode
  /-- the `mp_large_s` at each address -/
  header : Nat → MpLarge
  /-- the address proposed for each call, in order -/
  answer : Nat → Nat
  /-- the number of calls answered -/
  asked : Nat
  /-- obtained by the pool and not given back -/
  live : LiveRegions addressTop
  /-- all calls, newest first -/
  calls : List SysCall

/-- The memory in which a pool is created, with any contents and any answers. -/
def Heap.start (node : Nat → MpNode) (header : Nat → MpLarge) (answer : Nat → Nat) : Heap where
  node := node
  header := header
  answer := answer
  asked := 0
  live := LiveRegions.empty addressTop
  calls := []

namespace Heap

/-- The region the system proposes next; one of size 0 still has its own address. -/
def proposal (heap : Heap) (size : Nat) : Region :=
  ⟨heap.answer heap.asked, max size 1⟩

/-- The alignment is a power of two and a multiple of the pointer size, and the
proposed region has it and fits. -/
def Grants (heap : Heap) (alignment size : Nat) : Prop :=
  (alignment ≠ 0 ∧ alignment % 8 = 0 ∧ alignment &&& (alignment - 1) = 0) ∧
    (heap.proposal size).base % alignment = 0 ∧ heap.live.Fits (heap.proposal size)

instance (heap : Heap) (alignment size : Nat) : Decidable (heap.Grants alignment size) :=
  inferInstanceAs (Decidable (_ ∧ _))

/-- A call for memory: the address, or `NULL` if the call fails. -/
def request (heap : Heap) (alignment size : Nat) (call : Nat → SysCall) : Nat × Heap :=
  if h : heap.Grants alignment size then
    let p := (heap.proposal size).base
    (p, { heap with
      asked := heap.asked + 1
      live := heap.live.insert (heap.proposal size) h.2.2
      calls := call p :: heap.calls })
  else
    (0, { heap with asked := heap.asked + 1, calls := call 0 :: heap.calls })

/-- `NULL` stands for a return value other than 0. -/
def posixMemalign (heap : Heap) (alignment size : Nat) : Nat × Heap :=
  heap.request alignment size (.posixMemalign alignment size)

def malloc (heap : Heap) (size : Nat) : Nat × Heap :=
  heap.request 16 size (.malloc size)

def free (heap : Heap) (p : Nat) : Heap :=
  if p = 0 then heap
  else { heap with live := heap.live.erase p, calls := .free p :: heap.calls }

end Heap

/-- `struct mp_pool_s` at the address `addr`, and the memory. -/
structure Pool extends Heap where
  addr : Nat
  max : Nat
  current : Nat
  large : Nat
  /-- what `mp_alloc` returned for requests up to `max`, newest first -/
  carved : List Region

/-- The address of the flexible array member `head`. -/
def Pool.head (s : Pool) : Nat := s.addr + sizeofPool

/-- `mp_create_pool`; `p->head->next` is left as the memory has it. -/
def mpCreatePool (heap : Heap) (size : Nat) : Option Pool :=
  match heap.posixMemalign mpAlignment (ptrAdd size (sizeofPool + sizeofNode)) with
  | (p, heap) =>
      if p = 0 then none
      else
        let head := p + sizeofPool
        let last := ptrAdd p (sizeofPool + sizeofNode)
        some {
          toHeap := { heap with
            node := Function.update heap.node head
              { heap.node head with last := last, end_ := ptrAdd last size, failed := 0 } }
          addr := p
          max := if size < mpMaxAllocFromPool then size else mpMaxAllocFromPool
          current := head
          large := 0
          carved := [] }

/-- The loop of `mp_alloc_block`: counts a failure for every node from `p` to
the last but one, and answers the last node with the new `current`. -/
def bumpFailed : Nat → (Nat → MpNode) → Nat → Nat → Option (Nat × Nat × (Nat → MpNode))
  | 0, _, _, _ => none
  | fuel + 1, node, p, current =>
      if (node p).next = 0 then some (p, current, node)
      else
        bumpFailed fuel
          (Function.update node p { node p with failed := ((node p).failed + 1) % 2 ^ 64 })
          (node p).next
          (if 4 < (node p).failed then (node p).next else current)

/-- `mp_alloc_block` -/
def mpAllocBlock (fuel : Nat) (s : Pool) (size : Nat) : Option (Nat × Pool) :=
  let psize := ptrDiff (s.node s.head).end_ s.head
  match s.posixMemalign mpAlignment psize with
  | (newNode, heap) =>
      if newNode = 0 then some (0, { s with toHeap := heap })
      else
        let m := mpAlignPtr (ptrAdd newNode sizeofNode) mpAlignment
        let node := Function.update heap.node newNode
          { last := ptrAdd m size, end_ := ptrAdd newNode psize, next := 0, failed := 0 }
        match bumpFailed fuel node s.current s.current with
        | none => none
        | some (p, current, node) =>
            some (m, { s with
              toHeap := { heap with
                node := Function.update node p { node p with next := newNode } }
              current := if current ≠ 0 then current else newNode
              carved := ⟨m, size⟩ :: s.carved })

/-- The loop of `mp_alloc_large`: a header without memory among the first
`budget`.  The loop starts with 5, as `n++ > 3` ends it behind the fifth. -/
def freeSlot (header : Nat → MpLarge) : Nat → Nat → Option Nat
  | 0, _ => none
  | budget + 1, large =>
      if large = 0 then none
      else if (header large).alloc = 0 then some large
      else freeSlot header budget (header large).next

/-- The end of `mp_alloc_large` and of `mp_memalign`: `mp_alloc` a header for
the memory `p` and put it in front of the list, or give `p` back. -/
def attachLarge (alloc : Pool → Nat → Option (Nat × Pool)) (s : Pool) (p : Nat) :
    Option (Nat × Pool) :=
  match alloc s sizeofLarge with
  | none => none
  | some (large, s) =>
      if large = 0 then some (0, { s with toHeap := s.free p })
      else
        some (p, { s with
          header := Function.update s.header large { alloc := p, next := s.large }
          large := large })

/-- `mp_alloc_large`, calling back `mp_alloc`. -/
def mpAllocLarge (alloc : Pool → Nat → Option (Nat × Pool)) (s : Pool) (size : Nat) :
    Option (Nat × Pool) :=
  match s.malloc size with
  | (p, heap) =>
      if p = 0 then some (0, { s with toHeap := heap })
      else
        match freeSlot s.header 5 s.large with
        | some large =>
            some (p, { s with
              toHeap := { heap with
                header := Function.update heap.header large { heap.header large with alloc := p } } })
        | none => attachLarge alloc { s with toHeap := heap } p

/-- The `do` loop of `mp_alloc`: the first node from `p` on that passes the
test, or `NULL`. -/
def findFit (node : Nat → MpNode) (size : Nat) : Nat → Nat → Option Nat
  | 0, _ => none
  | fuel + 1, p =>
      if size ≤ ptrDiff (node p).end_ (mpAlignPtr (node p).last mpAlignment) then some p
      else if (node p).next = 0 then some 0
      else findFit node size fuel (node p).next

/-- Take `size` bytes from the node `p`. -/
def carve (s : Pool) (p size : Nat) : Nat × Pool :=
  let m := mpAlignPtr (s.node p).last mpAlignment
  (m, { s with
    node := Function.update s.node p { s.node p with last := ptrAdd m size }
    carved := ⟨m, size⟩ :: s.carved })

/-- `mp_alloc` -/
def mpAlloc : Nat → Pool → Nat → Option (Nat × Pool)
  | 0, _, _ => none
  | fuel + 1, s, size =>
      if size ≤ s.max then
        match findFit s.node size fuel s.current with
        | none => none
        | some p => if p ≠ 0 then some (carve s p size) else mpAllocBlock fuel s size
      else mpAllocLarge (mpAlloc fuel) s size

/-- `mp_calloc`; the `memset` of the returned region leaves the pool alone. -/
def mpCalloc (fuel : Nat) (s : Pool) (size : Nat) : Option (Nat × Pool) :=
  mpAlloc fuel s size

/-- `mp_memalign` -/
def mpMemalign (fuel : Nat) (s : Pool) (size alignment : Nat) : Option (Nat × Pool) :=
  match s.posixMemalign alignment size with
  | (p, heap) =>
      if p = 0 then some (0, { s with toHeap := heap })
      else attachLarge (mpAlloc fuel) { s with toHeap := heap } p

/-- The loop of `mp_free`: the first header from `l` on whose memory is `p`. -/
def findAlloc (header : Nat → MpLarge) (p : Nat) : Nat → Nat → Option Nat
  | 0, _ => none
  | fuel + 1, l =>
      if l = 0 then some 0
      else if p = (header l).alloc then some l
      else findAlloc header p fuel (header l).next

/-- `mp_free` -/
def mpFree (fuel : Nat) (s : Pool) (p : Nat) : Option Pool :=
  match findAlloc s.header p fuel s.large with
  | none => none
  | some l =>
      if l = 0 then some s
      else
        some { s with
          toHeap := { s.free (s.header l).alloc with
            header := Function.update s.header l { s.header l with alloc := 0 } } }

/-- The first loop of `mp_reset_pool`: give back all memory from `l` on. -/
def freeLarge : Nat → Heap → Nat → Option Heap
  | 0, _, _ => none
  | fuel + 1, heap, l =>
      if l = 0 then some heap
      -- `free(NULL)` does nothing, as the test of `l->alloc` says
      else freeLarge fuel (heap.free (heap.header l).alloc) (heap.header l).next

/-- The second loop of `mp_reset_pool`: empty every node from `h` on. -/
def rewindNodes : Nat → (Nat → MpNode) → Nat → Option (Nat → MpNode)
  | 0, _, _ => none
  | fuel + 1, node, h =>
      if h = 0 then some node
      else
        rewindNodes fuel
          (Function.update node h { node h with last := ptrAdd h sizeofNode })
          (node h).next

/-- `mp_reset_pool` -/
def mpResetPool (fuel : Nat) (s : Pool) : Option Pool :=
  match freeLarge fuel s.toHeap s.large with
  | none => none
  | some heap =>
      match rewindNodes fuel heap.node s.head with
      | none => none
      | some node => some { s with toHeap := { heap with node := node }, large := 0 }

/-- The second loop of `mp_destory_pool`: give back the nodes from `h` on. -/
def freeNodes : Nat → Heap → Nat → Option Heap
  | 0, _, _ => none
  | fuel + 1, heap, h =>
      if h = 0 then some heap else freeNodes fuel (heap.free h) (heap.node h).next

/-- `mp_destory_pool`; its first loop is that of `mp_reset_pool`. -/
def mpDestoryPool (fuel : Nat) (s : Pool) : Option Heap :=
  match freeLarge fuel s.toHeap s.large with
  | none => none
  | some heap =>
      match freeNodes fuel heap (heap.node s.head).next with
      | none => none
      | some heap => some (heap.free s.addr)

/-- A call to the pool. -/
inductive Op where
  | alloc (size : Nat)
  | calloc (size : Nat)
  | memalign (size alignment : Nat)
  | free (p : Nat)
  | reset
deriving DecidableEq, Repr

/-- Perform a call; `NULL` for the calls that return nothing. -/
def exec (fuel : Nat) (s : Pool) : Op → Option (Nat × Pool)
  | .alloc size => mpAlloc fuel s size
  | .calloc size => mpCalloc fuel s size
  | .memalign size alignment => mpMemalign fuel s size alignment
  | .free p => (mpFree fuel s p).map fun s => (0, s)
  | .reset => (mpResetPool fuel s).map fun s => (0, s)

/-- A call together with the fuel its loops are given. -/
abbrev Action := Op × Nat

/-- The state behind a call. -/
def step (s : Pool) (a : Action) : Option Pool :=
  (exec a.2 s a.1).map Prod.snd

end MemPool
end LinuxCppLearn
