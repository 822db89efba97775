import LinuxCppLearn.Library.ByteMemory
import LinuxCppLearn.MemPool.Containment

/-!
# The memory pool in a memory of bytes

The structures `mp_pool_s`, `mp_node_s` and `mp_large_s` at their addresses in
one memory, with the fields at their offsets.  A write beyond the end of a block
is a write into whatever lies there.

The loops of `mempool.c` that only read are those over typed structures, on the
structures which the memory shows; those that write are given here.

* `mpCreatePool`, `mpAlloc`, `mpCalloc`, `mpMemalign`, `mpFree`, `mpResetPool`,
  `mpDestoryPool` — the functions of `mempool.c`.
* `Carve` — what has been taken from a block, for clients and for headers.
* `Pool.view` — the typed structures the memory shows at each address.
-/

namespace LinuxCppLearn
namespace MemPool
namespace Bytes

open ByteMemory Regions

/-! ## The fields -/

/-- The fields of `struct mp_pool_s` in front of `head`. -/
structure MpPool where
  max : Nat
  current : Nat
  large : Nat
deriving DecidableEq, Repr

/-- The `mp_pool_s` that the memory shows at `p`. -/
def poolAt (mem : Memory) (p : Nat) : MpPool where
  max := load mem p 8
  current := load mem (p + 8) 8
  large := load mem (p + 16) 8

/-- The `mp_node_s` that the memory shows at `p`. -/
def nodeAt (mem : Memory) (p : Nat) : MpNode where
  last := load mem p 8
  end_ := load mem (p + 8) 8
  next := load mem (p + 16) 8
  failed := load mem (p + 24) 8

/-- The `mp_large_s` that the memory shows at `l`. -/
def headerAt (mem : Memory) (l : Nat) : MpLarge where
  next := load mem l 8
  alloc := load mem (l + 8) 8

/-- `p->max = v` -/
def setMax (mem : Memory) (p v : Nat) : Memory := store mem p 8 v

/-- `p->current = v` -/
def setCurrent (mem : Memory) (p v : Nat) : Memory := store mem (p + 8) 8 v

/-- `p->large = v` -/
def setLarge (mem : Memory) (p v : Nat) : Memory := store mem (p + 16) 8 v

/-- `h->last = v` -/
def setLast (mem : Memory) (h v : Nat) : Memory := store mem h 8 v

/-- `h->end = v` -/
def setEnd (mem : Memory) (h v : Nat) : Memory := store mem (h + 8) 8 v

/-- `h->next = v` for a node -/
def setNext (mem : Memory) (h v : Nat) : Memory := store mem (h + 16) 8 v

/-- `h->failed = v` -/
def setFailed (mem : Memory) (h v : Nat) : Memory := store mem (h + 24) 8 v

/-- `l->next = v` for a header -/
def setLargeNext (mem : Memory) (l v : Nat) : Memory := store mem l 8 v

/-- `l->alloc = v` -/
def setAlloc (mem : Memory) (l v : Nat) : Memory := store mem (l + 8) 8 v

/-! ## The system -/

/-- The memory and the system allocator. -/
structure Ram where
  mem : Memory
  /-- the address proposed for each call, in order -/
  answer : Nat → Nat
  /-- the number of calls answered -/
  asked : Nat
  /-- obtained by the pool and not given back -/
  live : LiveRegions addressTop
  /-- all calls, newest first -/
  calls : List SysCall

/-- The memory in which a pool is created, with any contents and any answers. -/
def Ram.start (mem : Memory) (answer : Nat → Nat) : Ram where
  mem := mem
  answer := answer
  asked := 0
  live := LiveRegions.empty addressTop
  calls := []

/-- The structures that the memory shows at each address. -/
def Ram.typed (ram : Ram) : Heap where
  node := nodeAt ram.mem
  header := headerAt ram.mem
  answer := ram.answer
  asked := ram.asked
  live := ram.live
  calls := ram.calls

/-- What the system has done; no call to it writes into the memory. -/
def Ram.withSystem (ram : Ram) (heap : Heap) : Ram :=
  { ram with asked := heap.asked, live := heap.live, calls := heap.calls }

def Ram.posixMemalign (ram : Ram) (alignment size : Nat) : Nat × Ram :=
  match ram.typed.posixMemalign alignment size with
  | (p, heap) => (p, ram.withSystem heap)

def Ram.malloc (ram : Ram) (size : Nat) : Nat × Ram :=
  match ram.typed.malloc size with
  | (p, heap) => (p, ram.withSystem heap)

def Ram.free (ram : Ram) (p : Nat) : Ram :=
  ram.withSystem (ram.typed.free p)

/-! ## The pool -/

/-- A region taken from the node at `block`. -/
structure Carve where
  block : Nat
  region : Region
deriving DecidableEq, Repr

/-- The pool at the address `addr`, and the memory. -/
structure Pool extends Ram where
  addr : Nat
  /-- taken from each node since the last reset, newest first -/
  carves : List Carve

/-- The address of the flexible array member `head`. -/
def Pool.head (s : Pool) : Nat := s.addr + sizeofPool

/-- The pool of typed structures that the memory shows. -/
def Pool.view (s : Pool) : MemPool.Pool where
  toHeap := s.typed
  addr := s.addr
  max := (poolAt s.mem s.addr).max
  current := (poolAt s.mem s.addr).current
  large := (poolAt s.mem s.addr).large
  carved := []

/-- `mp_create_pool` -/
def mpCreatePool (ram : Ram) (size : Nat) : Option Pool :=
  match ram.posixMemalign mpAlignment (ptrAdd size (sizeofPool + sizeofNode)) with
  | (p, ram) =>
      if p = 0 then none
      else
        let head := p + sizeofPool
        let mem := setMax ram.mem p (if size < mpMaxAllocFromPool then size else mpMaxAllocFromPool)
        let mem := setCurrent mem p head
        let mem := setLarge mem p 0
        let mem := setLast mem head (ptrAdd p (sizeofPool + sizeofNode))
        let mem := setEnd mem head (ptrAdd (nodeAt mem head).last size)
        let mem := setFailed mem head 0
        some { toRam := { ram with mem := mem }, addr := p, carves := [] }

/-- The loop of `mp_alloc_block`. -/
def bumpFailed : Nat → Memory → Nat → Nat → Option (Nat × Nat × Memory)
  | 0, _, _, _ => none
  | fuel + 1, mem, p, current =>
      if (nodeAt mem p).next = 0 then some (p, current, mem)
      else
        let mem' := setFailed mem p (((nodeAt mem p).failed + 1) % 2 ^ 64)
        bumpFailed fuel mem' (nodeAt mem' p).next
          (if 4 < (nodeAt mem p).failed then (nodeAt mem' p).next else current)

/-- `mp_alloc_block` -/
def mpAllocBlock (fuel : Nat) (s : Pool) (size : Nat) : Option (Nat × Pool) :=
  let psize := ptrDiff (nodeAt s.mem s.head).end_ s.head
  match s.posixMemalign mpAlignment psize with
  | (newNode, ram) =>
      if newNode = 0 then some (0, { s with toRam := ram })
      else
        let mem := setEnd ram.mem newNode (ptrAdd newNode psize)
        let mem := setNext mem newNode 0
        let mem := setFailed mem newNode 0
        let m := mpAlignPtr (ptrAdd newNode sizeofNode) mpAlignment
        let mem := setLast mem newNode (ptrAdd m size)
        let current := (poolAt mem s.addr).current
        match bumpFailed fuel mem current current with
        | none => none
        | some (p, current, mem) =>
            let mem := setNext mem p newNode
            let mem := setCurrent mem s.addr (if current ≠ 0 then current else newNode)
            some (m, { s with
              toRam := { ram with mem := mem }
              carves := ⟨newNode, ⟨m, size⟩⟩ :: s.carves })

/-- The end of `mp_alloc_large` and of `mp_memalign`. -/
def attachLarge (alloc : Pool → Nat → Option (Nat × Pool)) (s : Pool) (p : Nat) :
    Option (Nat × Pool) :=
  match alloc s sizeofLarge with
  | none => none
  | some (large, s) =>
      if large = 0 then some (0, { s with toRam := s.free p })
      else
        let mem := setAlloc s.mem large p
        let mem := setLargeNext mem large (poolAt mem s.addr).large
        let mem := setLarge mem s.addr large
        some (p, { s with toRam := { s.toRam with mem := mem } })

/-- `mp_alloc_large`, calling back `mp_alloc`. -/
def mpAllocLarge (alloc : Pool → Nat → Option (Nat × Pool)) (s : Pool) (size : Nat) :
    Option (Nat × Pool) :=
  match s.malloc size with
  | (p, ram) =>
      if p = 0 then some (0, { s with toRam := ram })
      else
        match freeSlot (headerAt ram.mem) 5 (poolAt ram.mem s.addr).large with
        | some large =>
            some (p, { s with toRam := { ram with mem := setAlloc ram.mem large p } })
        | none => attachLarge alloc { s with toRam := ram } p

/-- Take `size` bytes from the node `p`. -/
def carve (s : Pool) (p size : Nat) : Nat × Pool :=
  let m := mpAlignPtr (nodeAt s.mem p).last mpAlignment
  (m, { s with
    toRam := { s.toRam with mem := setLast s.mem p (ptrAdd m size) }
    carves := ⟨p, ⟨m, size⟩⟩ :: s.carves })

/-- `mp_alloc` -/
def mpAlloc : Nat → Pool → Nat → Option (Nat × Pool)
  | 0, _, _ => none
  | fuel + 1, s, size =>
      if size ≤ (poolAt s.mem s.addr).max then
        match findFit (nodeAt s.mem) size fuel (poolAt s.mem s.addr).current with
        | none => none
        | some p => if p ≠ 0 then some (carve s p size) else mpAllocBlock fuel s size
      else mpAllocLarge (mpAlloc fuel) s size

/-- `mp_calloc` -/
def mpCalloc (fuel : Nat) (s : Pool) (size : Nat) : Option (Nat × Pool) :=
  match mpAlloc fuel s size with
  | none => none
  | some (p, s) =>
      if p = 0 then some (p, s)
      else some (p, { s with toRam := { s.toRam with mem := fill s.mem p size 0 } })

/-- `mp_memalign` -/
def mpMemalign (fuel : Nat) (s : Pool) (size alignment : Nat) : Option (Nat × Pool) :=
  match s.posixMemalign alignment size with
  | (p, ram) =>
      if p = 0 then some (0, { s with toRam := ram })
      else attachLarge (mpAlloc fuel) { s with toRam := ram } p

/-- `mp_free` -/
def mpFree (fuel : Nat) (s : Pool) (p : Nat) : Option Pool :=
  match findAlloc (headerAt s.mem) p fuel (poolAt s.mem s.addr).large with
  | none => none
  | some l =>
      if l = 0 then some s
      else
        let ram := s.free (headerAt s.mem l).alloc
        some { s with toRam := { ram with mem := setAlloc ram.mem l 0 } }

/-- The second loop of `mp_reset_pool`. -/
def rewindNodes : Nat → Memory → Nat → Option Memory
  | 0, _, _ => none
  | fuel + 1, mem, h =>
      if h = 0 then some mem
      else
        let mem' := setLast mem h (ptrAdd h sizeofNode)
        rewindNodes fuel mem' (nodeAt mem' h).next

/-- `mp_reset_pool`; its first loop writes no memory. -/
def mpResetPool (fuel : Nat) (s : Pool) : Option Pool :=
  match freeLarge fuel s.typed (poolAt s.mem s.addr).large with
  | none => none
  | some heap =>
      match rewindNodes fuel (setLarge s.mem s.addr 0) s.head with
      | none => none
      | some mem =>
          some { s with toRam := { s.withSystem heap with mem := mem }, carves := [] }

/-- `mp_destory_pool`; it writes no memory. -/
def mpDestoryPool (fuel : Nat) (s : Pool) : Option Ram :=
  match freeLarge fuel s.typed (poolAt s.mem s.addr).large with
  | none => none
  | some heap =>
      match freeNodes fuel heap (heap.node s.head).next with
      | none => none
      | some heap => some (s.withSystem (heap.free s.addr))

/-- Perform a call; `NULL` for the calls that return nothing. -/
def exec (fuel : Nat) (s : Pool) : Op → Option (Nat × Pool)
  | .alloc size => mpAlloc fuel s size
  | .calloc size => mpCalloc fuel s size
  | .memalign size alignment => mpMemalign fuel s size alignment
  | .free p => (mpFree fuel s p).map fun s => (0, s)
  | .reset => (mpResetPool fuel s).map fun s => (0, s)

/-- The state behind a call. -/
def step (s : Pool) (a : Action) : Option Pool :=
  (exec a.2 s a.1).map Prod.snd

end Bytes
end MemPool
end LinuxCppLearn
