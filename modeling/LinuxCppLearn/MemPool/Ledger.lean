import LinuxCppLearn.MemPool.Loops

/-!
# Blocks, headers and the ledger of the memory pool

`Inv size s nodes larges pending` describes a pool created with `size` bytes:
`nodes` and `larges` are its two lists, and the system memory it holds is
exactly the block of each node, the memory of each header, and `pending`, what
a running call has obtained and not yet entered.

* `allocs_fill`, `allocs_clear` — what the headers remember, when an empty one is
  taken or a full one emptied.
* `Inv.block_apart`, `Inv.pending_not_block` — the blocks do not meet each other
  or what is pending.
-/

namespace LinuxCppLearn
namespace MemPool

open LinkedChain Regions

/-- What the system handed out for the node at `h`: the first node lies behind
the pool structure, every other one starts its block. -/
def Pool.block (s : Pool) (size h : Nat) : Region :=
  if h = s.head then ⟨s.addr, sizeofPool + sizeofNode + size⟩ else ⟨h, sizeofNode + size⟩

/-- The memory remembered by the headers. -/
def allocs (header : Nat → MpLarge) (larges : List Nat) : List Nat :=
  (larges.map fun l => (header l).alloc).filter (· ≠ 0)

/-- The node at `h` covers `size` bytes behind its structure, of which those
below `last` are taken. -/
structure Spans (size : Nat) (node : Nat → MpNode) (h : Nat) : Prop where
  end_eq : (node h).end_ = h + sizeofNode + size
  start_le_last : h + sizeofNode ≤ (node h).last
  last_le_end : (node h).last ≤ (node h).end_

structure Inv (size : Nat) (s : Pool) (nodes larges pending : List Nat) : Prop where
  chain : Chain (nodeNext s.node) 0 s.head nodes
  current_mem : s.current ∈ nodes
  max_eq : s.max = if size < mpMaxAllocFromPool then size else mpMaxAllocFromPool
  spans : ∀ h ∈ nodes, Spans size s.node h
  block_live : ∀ h ∈ nodes, s.block size h ∈ s.live.regions
  block_aligned : ∀ h ∈ nodes, (s.block size h).base % 32 = 0
  headers : Chain (headerNext s.header) 0 s.large larges
  header_inside : ∀ l ∈ larges, ∃ h ∈ nodes,
    h + sizeofNode ≤ l ∧ l + sizeofLarge ≤ (s.node h).last
  no_headers : s.max < sizeofLarge → larges = []
  ledger : s.live.bases.Perm
    (pending ++ (nodes.map fun h => (s.block size h).base) ++ allocs s.header larges)
  carved_inside : ∀ r ∈ s.carved, ∃ h ∈ nodes,
    h + sizeofNode ≤ r.base ∧ r.base + r.len ≤ h + sizeofNode + size

theorem block_head (s : Pool) (size : Nat) :
    s.block size s.head = ⟨s.addr, sizeofPool + sizeofNode + size⟩ :=
  if_pos rfl

theorem block_bounds (s : Pool) (size h : Nat) :
    (s.block size h).base ≤ h ∧
      (s.block size h).base + (s.block size h).len = h + sizeofNode + size := by
  unfold Pool.block
  split
  · rename_i hHead
    subst hHead
    show s.addr ≤ s.addr + sizeofPool ∧
      s.addr + (sizeofPool + sizeofNode + size) = s.addr + sizeofPool + sizeofNode + size
    omega
  · show h ≤ h ∧ h + (sizeofNode + size) = h + sizeofNode + size
    omega

theorem block_injective {s : Pool} {size h h' : Nat} (hEq : s.block size h = s.block size h') :
    h = h' := by
  have hBounds := (block_bounds s size h).2
  have hBounds' := (block_bounds s size h').2
  rw [hEq] at hBounds
  omega

section AllocsOfHeaders

variable {header : Nat → MpLarge} {larges : List Nat} {l p n : Nat}

theorem allocs_cons : allocs header (l :: larges) =
    if (header l).alloc = 0 then allocs header larges
    else (header l).alloc :: allocs header larges := by
  unfold allocs
  rw [List.map_cons, List.filter_cons]
  by_cases hEmpty : (header l).alloc = 0
  · simp [hEmpty]
  · simp [hEmpty]

/-- A header outside the list does not count. -/
theorem allocs_update (hNew : l ∉ larges) (x : MpLarge) :
    allocs (Function.update header l x) larges = allocs header larges := by
  unfold allocs
  congr 1
  apply List.map_congr_left
  intro l' hMem
  rw [Function.update_of_ne (ne_of_mem_of_not_mem hMem hNew)]

/-- Writing `p` into an empty header adds `p`. -/
theorem allocs_fill (hNodup : larges.Nodup) (hMem : l ∈ larges) (hEmpty : (header l).alloc = 0)
    (hPtr : p ≠ 0) :
    (allocs (Function.update header l { header l with alloc := p }) larges).Perm
      (p :: allocs header larges) := by
  induction larges with
  | nil => simp at hMem
  | cons d larges ih =>
      obtain ⟨hNew, hNodup⟩ := List.nodup_cons.mp hNodup
      rw [allocs_cons, allocs_cons]
      by_cases hHere : l = d
      · subst hHere
        rw [Function.update_self, if_neg hPtr, if_pos hEmpty, allocs_update hNew]
      · have hTail : l ∈ larges := (List.mem_cons.mp hMem).resolve_left hHere
        rw [Function.update_of_ne (Ne.symm hHere)]
        split
        · exact ih hNodup hTail
        · exact ((ih hNodup hTail).cons _).trans (List.Perm.swap _ _ _)

/-- Writing `NULL` over `p` takes `p` away. -/
theorem allocs_clear (hNodup : larges.Nodup) (hMem : l ∈ larges) (hPtr : (header l).alloc ≠ 0) :
    (allocs header larges).Perm
      ((header l).alloc ::
        allocs (Function.update header l { header l with alloc := 0 }) larges) := by
  let cleared := Function.update header l { header l with alloc := 0 }
  have hCleared : cleared l = { header l with alloc := 0 } := Function.update_self ..
  have hEmpty : (cleared l).alloc = 0 := by rw [hCleared]
  have hFill := @allocs_fill cleared larges l (header l).alloc hNodup hMem hEmpty hPtr
  rw [hCleared, Function.update_idem] at hFill
  have hSame : Function.update header l
      { next := (header l).next, alloc := (header l).alloc } = header :=
    Function.update_eq_self l header
  rw [hSame] at hFill
  exact hFill

end AllocsOfHeaders

section Consequences

variable {size : Nat} {s : Pool} {nodes larges pending : List Nat} {h h' x : Nat}

theorem Inv.end_le_top (hInv : Inv size s nodes larges pending) (hMem : h ∈ nodes) :
    h + sizeofNode + size ≤ addressTop := by
  have hInside := (s.live.inside _ (hInv.block_live h hMem)).2.2
  rw [(block_bounds s size h).2] at hInside
  exact hInside

theorem Inv.boundedNodes (hInv : Inv size s nodes larges pending) :
    BoundedNodes s.node nodes := by
  intro h hMem
  have hSpans := hInv.spans h hMem
  refine ⟨hSpans.last_le_end, ?_⟩
  rw [hSpans.end_eq]
  exact hInv.end_le_top hMem

theorem Inv.max_le (hInv : Inv size s nodes larges pending) :
    s.max ≤ size ∧ s.max ≤ mpMaxAllocFromPool := by
  have hMax := hInv.max_eq
  split at hMax <;> omega

theorem Inv.current_ne (hInv : Inv size s nodes larges pending) : s.current ≠ 0 :=
  hInv.chain.ne_null_of_mem hInv.current_mem

theorem Inv.head_mem (hInv : Inv size s nodes larges pending) : s.head ∈ nodes := by
  by_cases hNull : s.head = 0
  · unfold Pool.head sizeofPool at hNull
    omega
  · obtain ⟨rest, rfl, _⟩ := hInv.chain.exists_cons hNull
    exact List.mem_cons_self

/-- An address in the data of a node belongs to no other node. -/
theorem Inv.node_unique (hInv : Inv size s nodes larges pending) (hMem : h ∈ nodes)
    (hMem' : h' ∈ nodes) (hLow : h ≤ x) (hHigh : x < h + sizeofNode + size)
    (hLow' : h' ≤ x) (hHigh' : x < h' + sizeofNode + size) : h = h' := by
  obtain ⟨hBase, hEnd⟩ := block_bounds s size h
  obtain ⟨hBase', hEnd'⟩ := block_bounds s size h'
  have hSame : s.block size h = s.block size h' :=
    LiveRegions.eq_of_meet (x := x) (hInv.block_live h hMem) (hInv.block_live h' hMem')
      (by omega) (by omega) (by omega) (by omega)
  exact block_injective hSame

theorem Inv.last_le (hInv : Inv size s nodes larges pending) (hMem : h ∈ nodes) :
    (s.node h).last ≤ h + sizeofNode + size := by
  have hSpans := hInv.spans h hMem
  rw [← hSpans.end_eq]
  exact hSpans.last_le_end

theorem Inv.block_apart (hInv : Inv size s nodes larges pending) (hMem : h ∈ nodes)
    (hMem' : h' ∈ nodes) (hNe : h ≠ h') : (s.block size h).Apart (s.block size h') :=
  s.live.apart.forall (hInv.block_live h hMem) (hInv.block_live h' hMem')
    fun hEq => hNe (block_injective hEq)

/-- The blocks of two nodes do not overlap. -/
theorem Inv.blocks_apart (hInv : Inv size s nodes larges pending) (hMem : h ∈ nodes)
    (hMem' : h' ∈ nodes) (hNe : h ≠ h') :
    h + sizeofNode + size ≤ (s.block size h').base ∨
      h' + sizeofNode + size ≤ (s.block size h).base := by
  rw [← (block_bounds s size h).2, ← (block_bounds s size h').2]
  exact hInv.block_apart hMem hMem' hNe

/-- Pending memory is not the block of a node. -/
theorem Inv.pending_not_block {p : Nat} (hInv : Inv size s nodes larges (p :: pending))
    (hMem : h ∈ nodes) : (s.block size h).base ≠ p := by
  intro hEq
  have hNodup := hInv.ledger.nodup_iff.mp s.live.bases_nodup
  rw [List.append_assoc, List.cons_append, List.nodup_cons, List.mem_append] at hNodup
  apply hNodup.1
  right
  rw [List.mem_append]
  left
  exact List.mem_map.mpr ⟨h, hMem, hEq⟩

end Consequences

end MemPool
end LinuxCppLearn
