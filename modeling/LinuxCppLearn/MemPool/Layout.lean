import LinuxCppLearn.MemPool.Bytes

/-!
# Structures that do not overlap

While every search stays inside, the structures of the pool lie apart from each
other, and a write into one of them is the update of one typed structure.

* `nodeAt_setLast`, `headerAt_setAlloc`, … — a field that is written, and the
  other fields of its structure.
* `Layout` — the pool, its nodes and its headers lie apart.
* `Refines` — a memory shows the structures of a typed pool.
* `Refines.write_node`, `Refines.write_header`, `Refines.write_pool`,
  `Refines.frame` — what a write does to it.
-/

namespace LinuxCppLearn
namespace MemPool
namespace Bytes

open ByteMemory Regions LinkedChain

variable {mem mem' : Memory} {a b h l p v : Nat}

/-! ## Fields -/

theorem load_store_word (hv : v < 2 ^ 64) : load (store mem a 8 v) a 8 = v :=
  load_store hv

theorem load_store_apart (hApart : a + 8 ≤ b ∨ b + 8 ≤ a) :
    load (store mem a 8 v) b 8 = load mem b 8 :=
  store_sameOutside.load_eq hApart

theorem load_word_lt (mem : Memory) (a : Nat) : load mem a 8 < 2 ^ 64 :=
  load_lt mem a 8

theorem nodeAt_setLast (hv : v < 2 ^ 64) :
    nodeAt (setLast mem h v) h = { nodeAt mem h with last := v } := by
  simp (disch := omega) only [nodeAt, setLast, load_store_word, load_store_apart]

theorem nodeAt_setEnd (hv : v < 2 ^ 64) :
    nodeAt (setEnd mem h v) h = { nodeAt mem h with end_ := v } := by
  simp (disch := omega) only [nodeAt, setEnd, load_store_word, load_store_apart]

theorem nodeAt_setNext (hv : v < 2 ^ 64) :
    nodeAt (setNext mem h v) h = { nodeAt mem h with next := v } := by
  simp (disch := omega) only [nodeAt, setNext, load_store_word, load_store_apart]

theorem nodeAt_setFailed (hv : v < 2 ^ 64) :
    nodeAt (setFailed mem h v) h = { nodeAt mem h with failed := v } := by
  simp (disch := omega) only [nodeAt, setFailed, load_store_word, load_store_apart]

theorem headerAt_setAlloc (hv : v < 2 ^ 64) :
    headerAt (setAlloc mem l v) l = { headerAt mem l with alloc := v } := by
  simp (disch := omega) only [headerAt, setAlloc, load_store_word, load_store_apart]

theorem headerAt_setLargeNext (hv : v < 2 ^ 64) :
    headerAt (setLargeNext mem l v) l = { headerAt mem l with next := v } := by
  simp (disch := omega) only [headerAt, setLargeNext, load_store_word, load_store_apart]

theorem poolAt_setMax (hv : v < 2 ^ 64) :
    poolAt (setMax mem p v) p = { poolAt mem p with max := v } := by
  simp (disch := omega) only [poolAt, setMax, load_store_word, load_store_apart]

theorem poolAt_setCurrent (hv : v < 2 ^ 64) :
    poolAt (setCurrent mem p v) p = { poolAt mem p with current := v } := by
  simp (disch := omega) only [poolAt, setCurrent, load_store_word, load_store_apart]

theorem poolAt_setLarge (hv : v < 2 ^ 64) :
    poolAt (setLarge mem p v) p = { poolAt mem p with large := v } := by
  simp (disch := omega) only [poolAt, setLarge, load_store_word, load_store_apart]

/-! ## Writes stay in their structure -/

section Outside

variable (mem h l p v)

theorem setLast_outside : SameOutside mem (setLast mem h v) ⟨h, sizeofNode⟩ :=
  store_sameOutside.mono ⟨Nat.le_refl _, by simp only [sizeofNode]; omega⟩

theorem setEnd_outside : SameOutside mem (setEnd mem h v) ⟨h, sizeofNode⟩ :=
  store_sameOutside.mono ⟨Nat.le_add_right _ _, by simp only [sizeofNode]; omega⟩

theorem setNext_outside : SameOutside mem (setNext mem h v) ⟨h, sizeofNode⟩ :=
  store_sameOutside.mono ⟨Nat.le_add_right _ _, by simp only [sizeofNode]; omega⟩

theorem setFailed_outside : SameOutside mem (setFailed mem h v) ⟨h, sizeofNode⟩ :=
  store_sameOutside.mono ⟨Nat.le_add_right _ _, by simp only [sizeofNode]; omega⟩

theorem setLargeNext_outside : SameOutside mem (setLargeNext mem l v) ⟨l, sizeofLarge⟩ :=
  store_sameOutside.mono ⟨Nat.le_refl _, by simp only [sizeofLarge]; omega⟩

theorem setAlloc_outside : SameOutside mem (setAlloc mem l v) ⟨l, sizeofLarge⟩ :=
  store_sameOutside.mono ⟨Nat.le_add_right _ _, by simp only [sizeofLarge]; omega⟩

theorem setMax_outside : SameOutside mem (setMax mem p v) ⟨p, sizeofPool⟩ :=
  store_sameOutside.mono ⟨Nat.le_refl _, by simp only [sizeofPool]; omega⟩

theorem setCurrent_outside : SameOutside mem (setCurrent mem p v) ⟨p, sizeofPool⟩ :=
  store_sameOutside.mono ⟨Nat.le_add_right _ _, by simp only [sizeofPool]; omega⟩

theorem setLarge_outside : SameOutside mem (setLarge mem p v) ⟨p, sizeofPool⟩ :=
  store_sameOutside.mono ⟨Nat.le_add_right _ _, by simp only [sizeofPool]; omega⟩

end Outside

section Frames

variable {r : Region}

theorem nodeAt_eq (hSame : SameOutside mem mem' r) (hApart : r.Apart ⟨h, sizeofNode⟩) :
    nodeAt mem' h = nodeAt mem h := by
  have hField : ∀ k, k + 8 ≤ sizeofNode → load mem' (h + k) 8 = load mem (h + k) 8 :=
    fun k hIn => hSame.load_field hApart hIn
  have hFirst := hField 0 (by decide)
  rw [Nat.add_zero] at hFirst
  simp only [nodeAt, hFirst, hField 8 (by decide), hField 16 (by decide), hField 24 (by decide)]

theorem headerAt_eq (hSame : SameOutside mem mem' r) (hApart : r.Apart ⟨l, sizeofLarge⟩) :
    headerAt mem' l = headerAt mem l := by
  have hFirst : load mem' (l + 0) 8 = load mem (l + 0) 8 := hSame.load_field hApart (by decide)
  have hSecond : load mem' (l + 8) 8 = load mem (l + 8) 8 := hSame.load_field hApart (by decide)
  rw [Nat.add_zero] at hFirst
  simp only [headerAt, hFirst, hSecond]

theorem poolAt_eq (hSame : SameOutside mem mem' r) (hApart : r.Apart ⟨p, sizeofPool⟩) :
    poolAt mem' p = poolAt mem p := by
  have hField : ∀ k, k + 8 ≤ sizeofPool → load mem' (p + k) 8 = load mem (p + k) 8 :=
    fun k hIn => hSame.load_field hApart hIn
  have hFirst := hField 0 (by decide)
  rw [Nat.add_zero] at hFirst
  simp only [poolAt, hFirst, hField 8 (by decide), hField 16 (by decide)]

end Frames

/-! ## The layout of a pool -/

/-- The structures of a pool lie apart from each other. -/
structure Layout (addr : Nat) (nodes larges : List Nat) : Prop where
  pool_node : ∀ h ∈ nodes, Region.Apart ⟨addr, sizeofPool⟩ ⟨h, sizeofNode⟩
  pool_header : ∀ l ∈ larges, Region.Apart ⟨addr, sizeofPool⟩ ⟨l, sizeofLarge⟩
  node_node : ∀ h ∈ nodes, ∀ h' ∈ nodes, h ≠ h' →
    Region.Apart ⟨h, sizeofNode⟩ ⟨h', sizeofNode⟩
  node_header : ∀ h ∈ nodes, ∀ l ∈ larges, Region.Apart ⟨h, sizeofNode⟩ ⟨l, sizeofLarge⟩
  header_header : ∀ l ∈ larges, ∀ l' ∈ larges, l ≠ l' →
    Region.Apart ⟨l, sizeofLarge⟩ ⟨l', sizeofLarge⟩

/-- The region holds no structure of the pool. -/
structure Unused (addr : Nat) (nodes larges : List Nat) (r : Region) : Prop where
  pool : r.Apart ⟨addr, sizeofPool⟩
  node : ∀ h ∈ nodes, r.Apart ⟨h, sizeofNode⟩
  header : ∀ l ∈ larges, r.Apart ⟨l, sizeofLarge⟩

/-! ## A memory that shows a typed pool -/

/-- Two heaps differ in the structures at most. -/
structure SameSystem (heap heap' : Heap) : Prop where
  answer_eq : heap.answer = heap'.answer
  asked_eq : heap.asked = heap'.asked
  live_eq : heap.live = heap'.live
  calls_eq : heap.calls = heap'.calls

/-- The memory shows the pool structure, the nodes and the headers of `s`. -/
structure Refines (f : Pool) (s : MemPool.Pool) (nodes larges : List Nat) : Prop where
  addr_eq : f.addr = s.addr
  pool_eq : poolAt f.mem f.addr = ⟨s.max, s.current, s.large⟩
  node_eq : ∀ h ∈ nodes, nodeAt f.mem h = s.node h
  header_eq : ∀ l ∈ larges, headerAt f.mem l = s.header l
  system : SameSystem f.typed s.toHeap

section Writes

variable {f : Pool} {s : MemPool.Pool} {nodes larges : List Nat} {r : Region}

theorem Refines.max_eq (h : Refines f s nodes larges) : (poolAt f.mem f.addr).max = s.max := by
  rw [h.pool_eq]

theorem Refines.current_eq (h : Refines f s nodes larges) :
    (poolAt f.mem f.addr).current = s.current := by
  rw [h.pool_eq]

theorem Refines.large_eq (h : Refines f s nodes larges) :
    (poolAt f.mem f.addr).large = s.large := by
  rw [h.pool_eq]

theorem Refines.head_eq (h : Refines f s nodes larges) : f.head = s.head := by
  unfold Pool.head MemPool.Pool.head
  rw [h.addr_eq]

/-- What has been handed out is not in the memory. -/
theorem Refines.record (h : Refines f s nodes larges) (carves : List Carve)
    (carved : List Region) :
    Refines { f with carves := carves } { s with carved := carved } nodes larges :=
  ⟨h.addr_eq, h.pool_eq, h.node_eq, h.header_eq, h.system⟩

/-- A write into a region without structures. -/
theorem Refines.frame (h : Refines f s nodes larges) (hSame : SameOutside f.mem mem' r)
    (hUnused : Unused s.addr nodes larges r) :
    Refines { f with mem := mem' } s nodes larges where
  addr_eq := h.addr_eq
  pool_eq := (poolAt_eq hSame (h.addr_eq ▸ hUnused.pool)).trans h.pool_eq
  node_eq b hMem := (nodeAt_eq hSame (hUnused.node b hMem)).trans (h.node_eq b hMem)
  header_eq l hMem := (headerAt_eq hSame (hUnused.header l hMem)).trans (h.header_eq l hMem)
  system := ⟨h.system.answer_eq, h.system.asked_eq, h.system.live_eq, h.system.calls_eq⟩

/-- A write into a node of the list. -/
theorem Refines.write_node (h : Refines f s nodes larges) (hLayout : Layout s.addr nodes larges)
    (hMem : p ∈ nodes) (hSame : SameOutside f.mem mem' ⟨p, sizeofNode⟩) :
    Refines { f with mem := mem' }
      { s with node := Function.update s.node p (nodeAt mem' p) } nodes larges where
  addr_eq := h.addr_eq
  pool_eq := by
    have hApart := (hLayout.pool_node p hMem).symm
    exact (poolAt_eq hSame (h.addr_eq ▸ hApart)).trans h.pool_eq
  node_eq b hIn := by
    show nodeAt mem' b = Function.update s.node p (nodeAt mem' p) b
    by_cases hHere : b = p
    · rw [hHere, Function.update_self]
    · rw [Function.update_of_ne hHere]
      have hApart := hLayout.node_node p hMem b hIn (Ne.symm hHere)
      exact (nodeAt_eq hSame hApart).trans (h.node_eq b hIn)
  header_eq l hIn :=
    (headerAt_eq hSame (hLayout.node_header p hMem l hIn)).trans (h.header_eq l hIn)
  system := ⟨h.system.answer_eq, h.system.asked_eq, h.system.live_eq, h.system.calls_eq⟩

/-- A write into a header of the list. -/
theorem Refines.write_header (h : Refines f s nodes larges) (hLayout : Layout s.addr nodes larges)
    (hMem : l ∈ larges) (hSame : SameOutside f.mem mem' ⟨l, sizeofLarge⟩) :
    Refines { f with mem := mem' }
      { s with header := Function.update s.header l (headerAt mem' l) } nodes larges where
  addr_eq := h.addr_eq
  pool_eq := by
    have hApart := (hLayout.pool_header l hMem).symm
    exact (poolAt_eq hSame (h.addr_eq ▸ hApart)).trans h.pool_eq
  node_eq b hIn := by
    have hApart := (hLayout.node_header b hIn l hMem).symm
    exact (nodeAt_eq hSame hApart).trans (h.node_eq b hIn)
  header_eq b hIn := by
    show headerAt mem' b = Function.update s.header l (headerAt mem' l) b
    by_cases hHere : b = l
    · rw [hHere, Function.update_self]
    · rw [Function.update_of_ne hHere]
      have hApart := hLayout.header_header l hMem b hIn (Ne.symm hHere)
      exact (headerAt_eq hSame hApart).trans (h.header_eq b hIn)
  system := ⟨h.system.answer_eq, h.system.asked_eq, h.system.live_eq, h.system.calls_eq⟩

/-- A write into the pool structure. -/
theorem Refines.write_pool (h : Refines f s nodes larges) (hLayout : Layout s.addr nodes larges)
    (hSame : SameOutside f.mem mem' ⟨s.addr, sizeofPool⟩) :
    Refines { f with mem := mem' }
      { s with
        max := (poolAt mem' s.addr).max
        current := (poolAt mem' s.addr).current
        large := (poolAt mem' s.addr).large } nodes larges where
  addr_eq := h.addr_eq
  pool_eq := by
    show poolAt mem' f.addr = poolAt mem' s.addr
    rw [h.addr_eq]
  node_eq b hIn := (nodeAt_eq hSame (hLayout.pool_node b hIn)).trans (h.node_eq b hIn)
  header_eq l hIn := (headerAt_eq hSame (hLayout.pool_header l hIn)).trans (h.header_eq l hIn)
  system := ⟨h.system.answer_eq, h.system.asked_eq, h.system.live_eq, h.system.calls_eq⟩

/-- A new node in a region without structures. -/
theorem Refines.new_node {c : Nat} (h : Refines f s nodes larges)
    (hUnused : Unused s.addr nodes larges ⟨c, sizeofNode⟩) (hNew : c ∉ nodes)
    (hSame : SameOutside f.mem mem' ⟨c, sizeofNode⟩) :
    Refines { f with mem := mem' } { s with node := Function.update s.node c (nodeAt mem' c) }
      (nodes ++ [c]) larges := by
  have hFrame := h.frame hSame hUnused
  refine ⟨hFrame.addr_eq, hFrame.pool_eq, ?_, hFrame.header_eq,
    h.system.answer_eq, h.system.asked_eq, h.system.live_eq, h.system.calls_eq⟩
  intro b hIn
  show nodeAt mem' b = Function.update s.node c (nodeAt mem' c) b
  rcases List.mem_append.mp hIn with hOld | hHere
  · rw [Function.update_of_ne (ne_of_mem_of_not_mem hOld hNew)]
    exact hFrame.node_eq b hOld
  · rw [List.mem_singleton.mp hHere, Function.update_self]

/-- A new header in a region without structures. -/
theorem Refines.new_header (h : Refines f s nodes larges)
    (hUnused : Unused s.addr nodes larges ⟨l, sizeofLarge⟩) (hNew : l ∉ larges)
    (hSame : SameOutside f.mem mem' ⟨l, sizeofLarge⟩) :
    Refines { f with mem := mem' }
      { s with header := Function.update s.header l (headerAt mem' l) } nodes (l :: larges) := by
  have hFrame := h.frame hSame hUnused
  refine ⟨hFrame.addr_eq, hFrame.pool_eq, hFrame.node_eq, ?_,
    h.system.answer_eq, h.system.asked_eq, h.system.live_eq, h.system.calls_eq⟩
  intro b hIn
  show headerAt mem' b = Function.update s.header l (headerAt mem' l) b
  rcases List.mem_cons.mp hIn with hHere | hOld
  · rw [hHere, Function.update_self]
  · rw [Function.update_of_ne (ne_of_mem_of_not_mem hOld hNew)]
    exact hFrame.header_eq b hOld

/-- The layout with a new node. -/
theorem Layout.new_node {addr c : Nat} (h : Layout addr nodes larges)
    (hUnused : Unused addr nodes larges ⟨c, sizeofNode⟩) : Layout addr (nodes ++ [c]) larges := by
  have hMem : ∀ {P : Nat → Prop}, (∀ b ∈ nodes, P b) → P c → ∀ b ∈ nodes ++ [c], P b := by
    intro P hOld hC b hIn
    rcases List.mem_append.mp hIn with hIn | hIn
    · exact hOld b hIn
    · rw [List.mem_singleton.mp hIn]
      exact hC
  refine ⟨hMem h.pool_node hUnused.pool.symm, h.pool_header, ?_, hMem h.node_header hUnused.header,
    h.header_header⟩
  refine hMem ?_ (hMem (fun b hIn _ => hUnused.node b hIn) fun hNe => absurd rfl hNe)
  intro b hIn
  exact hMem (h.node_node b hIn) fun _ => (hUnused.node b hIn).symm

theorem Refines.setLast (h : Refines f s nodes larges) (hLayout : Layout s.addr nodes larges)
    (hMem : p ∈ nodes) (hv : v < 2 ^ 64) :
    Refines { f with mem := setLast f.mem p v }
      { s with node := Function.update s.node p { s.node p with last := v } } nodes larges := by
  have hWrite := h.write_node hLayout hMem (setLast_outside f.mem p v)
  rwa [nodeAt_setLast hv, h.node_eq p hMem] at hWrite

theorem Refines.setNext (h : Refines f s nodes larges) (hLayout : Layout s.addr nodes larges)
    (hMem : p ∈ nodes) (hv : v < 2 ^ 64) :
    Refines { f with mem := setNext f.mem p v }
      { s with node := Function.update s.node p { s.node p with next := v } } nodes larges := by
  have hWrite := h.write_node hLayout hMem (setNext_outside f.mem p v)
  rwa [nodeAt_setNext hv, h.node_eq p hMem] at hWrite

theorem Refines.setFailed (h : Refines f s nodes larges) (hLayout : Layout s.addr nodes larges)
    (hMem : p ∈ nodes) (hv : v < 2 ^ 64) :
    Refines { f with mem := setFailed f.mem p v }
      { s with node := Function.update s.node p { s.node p with failed := v } } nodes larges := by
  have hWrite := h.write_node hLayout hMem (setFailed_outside f.mem p v)
  rwa [nodeAt_setFailed hv, h.node_eq p hMem] at hWrite

theorem Refines.setAlloc (h : Refines f s nodes larges) (hLayout : Layout s.addr nodes larges)
    (hMem : l ∈ larges) (hv : v < 2 ^ 64) :
    Refines { f with mem := setAlloc f.mem l v }
      { s with header := Function.update s.header l { s.header l with alloc := v } }
      nodes larges := by
  have hWrite := h.write_header hLayout hMem (setAlloc_outside f.mem l v)
  rwa [headerAt_setAlloc hv, h.header_eq l hMem] at hWrite

theorem Refines.setCurrent (h : Refines f s nodes larges) (hLayout : Layout s.addr nodes larges)
    (hv : v < 2 ^ 64) :
    Refines { f with mem := setCurrent f.mem f.addr v } { s with current := v } nodes larges := by
  have hSame : SameOutside f.mem (Bytes.setCurrent f.mem f.addr v) ⟨s.addr, sizeofPool⟩ := by
    rw [h.addr_eq]
    exact setCurrent_outside f.mem s.addr v
  have hWrite := h.write_pool hLayout hSame
  have hPool : poolAt (Bytes.setCurrent f.mem f.addr v) s.addr = ⟨s.max, v, s.large⟩ := by
    rw [← h.addr_eq, poolAt_setCurrent hv, h.pool_eq]
  rwa [hPool] at hWrite

theorem Refines.setLarge (h : Refines f s nodes larges) (hLayout : Layout s.addr nodes larges)
    (hv : v < 2 ^ 64) :
    Refines { f with mem := setLarge f.mem f.addr v } { s with large := v } nodes larges := by
  have hSame : SameOutside f.mem (Bytes.setLarge f.mem f.addr v) ⟨s.addr, sizeofPool⟩ := by
    rw [h.addr_eq]
    exact setLarge_outside f.mem s.addr v
  have hWrite := h.write_pool hLayout hSame
  have hPool : poolAt (Bytes.setLarge f.mem f.addr v) s.addr = ⟨s.max, s.current, v⟩ := by
    rw [← h.addr_eq, poolAt_setLarge hv, h.pool_eq]
  rwa [hPool] at hWrite

end Writes

/-! ## The layout while searches stay inside -/

section Inside

variable {size b l : Nat} {s : MemPool.Pool} {nodes larges pending : List Nat} {r : Region}

theorem within_block (hLow : b ≤ r.base) (hHigh : r.base + r.len ≤ b + sizeofNode + size) :
    r.Within (s.block size b) := by
  obtain ⟨hBase, hEnd⟩ := block_bounds s size b
  exact ⟨by omega, by omega⟩

theorem node_within_block (s : MemPool.Pool) (size b : Nat) :
    Region.Within ⟨b, sizeofNode⟩ (s.block size b) :=
  within_block (Nat.le_refl b) (Nat.le_add_right _ size)

/-- The pool structure lies in the block of the first node. -/
theorem pool_within_block (s : MemPool.Pool) (size : Nat) :
    Region.Within ⟨s.addr, sizeofPool⟩ (s.block size s.head) := by
  rw [block_head]
  refine ⟨Nat.le_refl _, ?_⟩
  show s.addr + sizeofPool ≤ s.addr + (sizeofPool + sizeofNode + size)
  omega

theorem header_within_block (hInv : Inv size s nodes larges pending) (hMem : l ∈ larges) :
    ∃ b ∈ nodes, b + sizeofNode ≤ l ∧ l + sizeofLarge ≤ b + sizeofNode + size := by
  obtain ⟨b, hNode, hLow, hHigh⟩ := hInv.header_inside l hMem
  exact ⟨b, hNode, hLow, Nat.le_trans hHigh (hInv.last_le hNode)⟩

/-- What lies in the data of a node holds neither the pool structure nor a node. -/
theorem apart_of_inside (hInv : Inv size s nodes larges pending) (hMem : b ∈ nodes)
    (hLow : b + sizeofNode ≤ r.base) (hHigh : r.base + r.len ≤ b + sizeofNode + size) :
    r.Apart ⟨s.addr, sizeofPool⟩ ∧ ∀ h ∈ nodes, r.Apart ⟨h, sizeofNode⟩ := by
  have hWithin : r.Within (s.block size b) := within_block (by omega) hHigh
  constructor
  · by_cases hHead : b = s.head
    · have hPool : s.head = s.addr + sizeofPool := rfl
      exact .inr (by simp only; omega)
    · have hApart := hInv.block_apart hMem hInv.head_mem hHead
      exact hApart.mono hWithin (pool_within_block s size)
  · intro h hIn
    by_cases hHere : b = h
    · subst hHere
      exact .inr hLow
    · exact (hInv.block_apart hMem hIn hHere).mono hWithin (node_within_block s size h)

theorem layout_of_inv (hInv : Inv size s nodes larges pending)
    (hHeaders : ∀ l ∈ larges, ∀ l' ∈ larges, l ≠ l' →
      Region.Apart ⟨l, sizeofLarge⟩ ⟨l', sizeofLarge⟩) : Layout s.addr nodes larges := by
  have hHeader : ∀ l ∈ larges, Region.Apart ⟨l, sizeofLarge⟩ ⟨s.addr, sizeofPool⟩ ∧
      ∀ h ∈ nodes, Region.Apart ⟨l, sizeofLarge⟩ ⟨h, sizeofNode⟩ := by
    intro l hIn
    obtain ⟨b, hMem, hLow, hHigh⟩ := header_within_block hInv hIn
    exact apart_of_inside hInv hMem hLow hHigh
  constructor
  · intro h hIn
    by_cases hHead : s.head = h
    · have hPool : s.head = s.addr + sizeofPool := rfl
      exact .inl (by simp only; omega)
    · exact (hInv.block_apart hInv.head_mem hIn hHead).mono (pool_within_block s size)
        (node_within_block s size h)
  · exact fun l hIn => (hHeader l hIn).1.symm
  · intro h hIn h' hIn' hNe
    exact (hInv.block_apart hIn hIn' hNe).mono (node_within_block s size h)
      (node_within_block s size h')
  · exact fun h hIn l hIn' => ((hHeader l hIn').2 h hIn).symm
  · exact hHeaders

end Inside

end Bytes
end MemPool
end LinuxCppLearn
