import LinuxCppLearn.Library.FirstFit
import LinuxCppLearn.MemPool.Counters
import Mathlib.Data.List.Forall2

/-!
# Small requests are packed by first fit

The blocks of a pool as bins: where a request goes depends on the offsets of
`last` and `end` from the aligned start of each block only, with the arithmetic
of `size_t`.  A request of at most `max` bytes goes to the first of the last
seven blocks that passes the test of `mp_alloc`, and to a new one if none does.

* `Bin`, `Bin.put` — a block by its offsets, and the test of `mp_alloc`.
* `Shows` — a node with these offsets.
* `findFit_place` — the search of `mp_alloc` is first fit.
* `Packed` — a pool whose blocks are bins.
* `Packed.serve` — one request.
-/

namespace LinuxCppLearn
namespace MemPool

open LinkedChain Regions FirstFit

/-- A block by offsets from its start: of `last`, of `end`, and of what has been
taken from it, newest first. -/
structure Bin where
  last : Nat
  end_ : Nat
  taken : List Nat
deriving DecidableEq, Repr

/-- The test of `mp_alloc`, and taking `n` bytes. -/
def Bin.put (b : Bin) (n : Nat) : Option Bin :=
  let m := mpAlignPtr b.last mpAlignment
  if n ≤ ptrDiff b.end_ m then some { b with last := ptrAdd m n, taken := m :: b.taken } else none

/-- The empty block of the pool structure, which is aligned with the pool. -/
def firstBin (size : Nat) : Bin :=
  ⟨sizeofPool + sizeofNode, sizeofPool + sizeofNode + size, []⟩

/-- The other blocks, empty. -/
def laterBin (size : Nat) : Bin :=
  ⟨sizeofNode, sizeofNode + size, []⟩

/-- A block that `mp_alloc_block` has obtained for `n` bytes. -/
def openedBin (size n : Nat) : Bin :=
  ⟨sizeofNode + n, sizeofNode + size, [sizeofNode]⟩

/-! ## Offsets -/

section Offsets

variable {base p m n e size : Nat}

theorem mpAlignPtr_eq (p : Nat) : mpAlignPtr p mpAlignment = (p + 31) % 2 ^ 64 / 32 * 32 := by
  show ptrAdd p 31 &&& (2 ^ 64 - 32) = _
  exact and_eq_div_mul (Nat.mod_lt _ (by decide))

/-- Rounding up commutes with moving by an aligned address. -/
theorem mpAlignPtr_base (hBase : base % 32 = 0) :
    mpAlignPtr (ptrAdd base p) mpAlignment = ptrAdd base (mpAlignPtr p mpAlignment) := by
  rw [mpAlignPtr_eq, mpAlignPtr_eq]
  unfold ptrAdd
  omega

theorem mpAlignPtr_lt (p : Nat) : mpAlignPtr p mpAlignment < 2 ^ 64 := by
  rw [mpAlignPtr_eq]
  omega

theorem ptrDiff_base (hEnd : base + e < 2 ^ 64) (hm : m < 2 ^ 64) :
    ptrDiff (base + e) (ptrAdd base m) = ptrDiff e m := by
  unfold ptrDiff ptrAdd
  omega

theorem ptrAdd_assoc : ptrAdd (ptrAdd base m) n = ptrAdd base (ptrAdd m n) := by
  unfold ptrAdd
  omega

/-- An empty block takes every request that `mp_alloc_block` is called for. -/
theorem laterBin_put (hSize : n ≤ size) (hBound : size + (sizeofPool + sizeofNode) < 2 ^ 64) :
    (laterBin size).put n = some (openedBin size n) := by
  have hAlign : mpAlignPtr sizeofNode mpAlignment = sizeofNode := by decide
  have hPool : sizeofPool = 24 := rfl
  have hRoom : ptrDiff (sizeofNode + size) sizeofNode = size := by
    rw [ptrDiff_of_le (by omega) (by omega)]
    omega
  have hAdd : ptrAdd sizeofNode n = sizeofNode + n := ptrAdd_eq (by omega)
  unfold Bin.put laterBin
  simp only [hAlign, hRoom, hAdd, if_pos hSize]
  rfl

end Offsets

/-! ## Blocks as bins -/

/-- The start of the block of the node at `h`, in the pool at `addr`. -/
def nodeBase (addr h : Nat) : Nat :=
  if h = addr + sizeofPool then addr else h

/-- The node at `h` has the offsets of the bin. -/
structure Shows (addr : Nat) (node : Nat → MpNode) (h : Nat) (b : Bin) : Prop where
  last_eq : (node h).last = ptrAdd (nodeBase addr h) b.last
  end_eq : (node h).end_ = nodeBase addr h + b.end_
  aligned : nodeBase addr h % 32 = 0
  end_lt : nodeBase addr h + b.end_ < 2 ^ 64

/-- Nothing taken from the block lies at address 0. -/
def Clear (addr h : Nat) (b : Bin) : Prop :=
  ∀ m ∈ b.taken, ptrAdd (nodeBase addr h) m ≠ 0

/-- The nodes when `n` bytes have been taken from the one at `p`. -/
def takenFrom (node : Nat → MpNode) (p n : Nat) : Nat → MpNode :=
  Function.update node p { node p with last := ptrAdd (mpAlignPtr (node p).last mpAlignment) n }

section Bins

variable {addr fuel h n p q : Nat} {node node' : Nat → MpNode} {b : Bin} {bins : List Bin}
  {l : List Nat}

theorem Shows.test_iff (h : Shows addr node p b) :
    n ≤ ptrDiff (node p).end_ (mpAlignPtr (node p).last mpAlignment) ↔
      n ≤ ptrDiff b.end_ (mpAlignPtr b.last mpAlignment) := by
  rw [h.end_eq, h.last_eq, mpAlignPtr_base h.aligned, ptrDiff_base h.end_lt (mpAlignPtr_lt _)]

theorem Shows.put_none (h : Shows addr node p b)
    (hFull : ¬ n ≤ ptrDiff (node p).end_ (mpAlignPtr (node p).last mpAlignment)) :
    b.put n = none := by
  unfold Bin.put
  exact if_neg fun hRoom => hFull (h.test_iff.mpr hRoom)

theorem Shows.put_some (h : Shows addr node p b)
    (hFits : n ≤ ptrDiff (node p).end_ (mpAlignPtr (node p).last mpAlignment)) :
    ∃ b', b.put n = some b' ∧ Shows addr (takenFrom node p n) p b' ∧
      (Clear addr p b' ↔ mpAlignPtr (node p).last mpAlignment ≠ 0 ∧ Clear addr p b) := by
  have hPut : b.put n = some
      { b with
        last := ptrAdd (mpAlignPtr b.last mpAlignment) n
        taken := mpAlignPtr b.last mpAlignment :: b.taken } := if_pos (h.test_iff.mp hFits)
  have hAddress : mpAlignPtr (node p).last mpAlignment =
      ptrAdd (nodeBase addr p) (mpAlignPtr b.last mpAlignment) := by
    rw [h.last_eq, mpAlignPtr_base h.aligned]
  have hHere : takenFrom node p n p =
      { node p with last := ptrAdd (mpAlignPtr (node p).last mpAlignment) n } :=
    Function.update_self ..
  refine ⟨_, hPut, ⟨?_, ?_, h.aligned, h.end_lt⟩, ?_⟩
  · rw [hHere, hAddress]
    exact ptrAdd_assoc
  · rw [hHere]
    exact h.end_eq
  · rw [hAddress]
    exact List.forall_mem_cons

theorem shows_congr (hShows : List.Forall₂ (Shows addr node) l bins)
    (hSame : ∀ h ∈ l, (node' h).last = (node h).last ∧ (node' h).end_ = (node h).end_) :
    List.Forall₂ (Shows addr node') l bins := by
  induction hShows with
  | nil => exact .nil
  | @cons h b l bins hHere _ ih =>
      obtain ⟨hLast, hEnd⟩ := hSame h List.mem_cons_self
      refine .cons ⟨hLast.trans hHere.last_eq, hEnd.trans hHere.end_eq, hHere.aligned,
        hHere.end_lt⟩ (ih fun h' hMem => hSame h' (List.mem_cons_of_mem h hMem))

/-- **The search of `mp_alloc` is first fit**: it ends at the first node that
takes the request, or finds that none does. -/
theorem findFit_place (hChain : Chain (nodeNext node) 0 p l) (hStart : p ≠ 0)
    (hShows : List.Forall₂ (Shows addr node) l bins) (hFit : findFit node n fuel p = some q) :
    (q = 0 ∧ place Bin.put bins n = none) ∨
      (q ∈ l ∧ ∃ bins', place Bin.put bins n = some bins' ∧
        List.Forall₂ (Shows addr (takenFrom node q n)) l bins' ∧
        (List.Forall₂ (Clear addr) l bins' ↔
          mpAlignPtr (node q).last mpAlignment ≠ 0 ∧ List.Forall₂ (Clear addr) l bins)) := by
  induction fuel generalizing p l bins with
  | zero => simp [findFit] at hFit
  | succ fuel ih =>
      have hNodup := hChain.nodup
      obtain ⟨l', rfl, hRest⟩ := hChain.exists_cons hStart
      have hFresh : p ∉ l' := (List.nodup_cons.mp hNodup).1
      obtain ⟨b, bins, hHere, hTail, rfl⟩ := List.forall₂_cons_left_iff.mp hShows
      unfold findFit at hFit
      by_cases hFits : n ≤ ptrDiff (node p).end_ (mpAlignPtr (node p).last mpAlignment)
      · rw [if_pos hFits] at hFit
        obtain rfl := Option.some.inj hFit
        obtain ⟨b', hPut, hShown, hClear⟩ := hHere.put_some hFits
        refine .inr ⟨List.mem_cons_self, b' :: bins, place_cons_some hPut, .cons hShown ?_, ?_⟩
        · refine shows_congr hTail fun h hMem => ?_
          rw [show takenFrom node p n h = node h from
            Function.update_of_ne (ne_of_mem_of_not_mem hMem hFresh) _ _]
          exact ⟨rfl, rfl⟩
        · rw [List.forall₂_cons, List.forall₂_cons, hClear, and_assoc]
      · rw [if_neg hFits] at hFit
        have hPut := hHere.put_none hFits
        by_cases hLast : (node p).next = 0
        · rw [if_pos hLast] at hFit
          obtain rfl := Option.some.inj hFit
          rw [show nodeNext node p = 0 from hLast] at hRest
          obtain rfl := hRest.eq_nil
          obtain rfl := List.forall₂_nil_left_iff.mp hTail
          exact .inl ⟨rfl, place_cons_none hPut⟩
        · rw [if_neg hLast] at hFit
          rcases ih hRest hLast hTail hFit with ⟨hNull, hPlace⟩ |
            ⟨hMem, bins', hPlace, hShown, hClear⟩
          · refine .inl ⟨hNull, ?_⟩
            rw [place_cons_none hPut, hPlace]
            rfl
          · have hOther : takenFrom node q n p = node p :=
              Function.update_of_ne (Ne.symm (ne_of_mem_of_not_mem hMem hFresh)) _ _
            refine .inr ⟨List.mem_cons_of_mem p hMem, b :: bins', ?_, .cons ?_ hShown, ?_⟩
            · rw [place_cons_none hPut, hPlace]
              rfl
            · exact ⟨hOther ▸ hHere.last_eq, hOther ▸ hHere.end_eq, hHere.aligned, hHere.end_lt⟩
            · rw [List.forall₂_cons, List.forall₂_cons, hClear]
              exact and_left_comm

end Bins

theorem forall₂_append_iff {α β : Type} {R : α → β → Prop} {l₁ l₂ : List α} {m₁ m₂ : List β}
    (hLength : l₁.length = m₁.length) :
    List.Forall₂ R (l₁ ++ l₂) (m₁ ++ m₂) ↔ List.Forall₂ R l₁ m₁ ∧ List.Forall₂ R l₂ m₂ := by
  constructor
  · intro hAll
    have hTake := List.forall₂_take l₁.length hAll
    have hDrop := List.forall₂_drop l₁.length hAll
    rw [List.take_left, hLength, List.take_left] at hTake
    rw [List.drop_left, hLength, List.drop_left] at hDrop
    exact ⟨hTake, hDrop⟩
  · rintro ⟨hFront, hRest⟩
    exact List.rel_append hFront hRest

/-! ## A pool whose blocks are bins -/

/-- The blocks of the nodes have the offsets of the bins, and the counters are
those of `mp_alloc_block`; there is no large memory. -/
structure Packed (size : Nat) (s : Pool) (nodes : List Nat) (bins : List Bin) : Prop where
  chain : Chain (nodeNext s.node) 0 s.head nodes
  counted : ∃ front behind, Counted s.node nodes s.current front behind
  max_le : s.max ≤ size
  large_eq : s.large = 0
  shows : List.Forall₂ (Shows s.addr s.node) nodes bins
  ends : ∀ h ∈ nodes, (s.node h).end_ = h + sizeofNode + size
  block_live : ∀ h ∈ nodes, s.block size h ∈ s.live.regions

/-- A request has left the pool structure, but for `current`. -/
structure SamePool (s s' : Pool) : Prop where
  addr_eq : s'.addr = s.addr
  max_eq : s'.max = s.max

section Requests

variable {size c m n fuel : Nat} {s s' : Pool} {nodes : List Nat} {bins : List Bin}

theorem Packed.head_mem (h : Packed size s nodes bins) : s.head ∈ nodes := by
  have hHead : s.head ≠ 0 := by
    unfold Pool.head sizeofPool
    omega
  exact h.chain.start_mem.resolve_left hHead

theorem Packed.end_le_top (h : Packed size s nodes bins) {b : Nat} (hMem : b ∈ nodes) :
    b + sizeofNode + size ≤ addressTop := by
  have hInside := (s.live.inside _ (h.block_live b hMem)).2.2
  rwa [(block_bounds s size b).2] at hInside

/-- A region apart from all live ones does not start at a node. -/
theorem Packed.not_mem_of_fits (h : Packed size s nodes bins)
    (hFits : s.live.Fits ⟨c, sizeofNode + size⟩) : c ∉ nodes := by
  intro hMem
  have hApart := hFits.2 _ (h.block_live c hMem)
  have hNode : sizeofNode = 32 := rfl
  obtain ⟨hBase, hEnd⟩ := block_bounds s size c
  rcases hApart with hBefore | hAfter
  · dsimp only at hBefore
    omega
  · dsimp only at hAfter
    omega

theorem Packed.psize_eq (h : Packed size s nodes bins) :
    ptrDiff (s.node s.head).end_ s.head = sizeofNode + size := by
  have hTop := h.end_le_top h.head_mem
  have hBound : addressTop < 2 ^ 64 := by decide
  rw [h.ends s.head h.head_mem, ptrDiff_of_le (by omega) (by omega)]
  omega

/-- The node that `mp_alloc_block` writes at `c`, for `n` bytes. -/
def newNode (size c n : Nat) : MpNode where
  last := ptrAdd (c + sizeofNode) n
  end_ := c + (sizeofNode + size)
  next := 0
  failed := 0

/-- Linking a new block behind the last node. -/
theorem Packed.grow {t current' : Nat} {node' : Nat → MpNode}
    (hPacked : Packed size s nodes bins) (hFits : s.live.Fits ⟨c, sizeofNode + size⟩)
    (hAligned : c % 32 = 0)
    (hWalk : bumpFailed fuel (Function.update s.node c (newNode size c n)) s.current s.current =
      some (t, current', node')) :
    current' ≠ 0 ∧ ∀ asked calls carved, Packed size
      { s with
        node := Function.update node' t { node' t with next := c }
        asked := asked
        live := s.live.insert ⟨c, sizeofNode + size⟩ hFits
        calls := calls
        current := current'
        carved := carved } (nodes ++ [c]) (bins ++ [openedBin size n]) := by
  have hNode : sizeofNode = 32 := rfl
  have hTop : c + (sizeofNode + size) ≤ addressTop := hFits.1.2.2
  have hBound : addressTop < 2 ^ 64 := by decide
  have hPtr : c ≠ 0 := Nat.pos_iff_ne_zero.mp hFits.1.1
  have hNew : c ∉ nodes := hPacked.not_mem_of_fits hFits
  have hHead : c ≠ s.head := fun hEq => hNew (hEq ▸ hPacked.head_mem)
  have hBase : nodeBase s.addr c = c := if_neg hHead
  obtain ⟨front, behind, hCounted⟩ := hPacked.counted
  obtain ⟨hTailMem, hSame, hChain'⟩ := hCounted.link hPacked.chain hNew hPtr rfl hWalk
  have hLinked := linked_nodes hNew hTailMem hSame
  obtain ⟨hNewLast, hNewEnd, hNewNext⟩ := (hLinked c).1 rfl
  obtain ⟨front', behind', hCounted'⟩ := hCounted.grow hPacked.chain hNew rfl hWalk
  refine ⟨hChain'.ne_null_of_mem hCounted'.current_mem, fun _ _ _ => ⟨hChain',
    ⟨front', behind', hCounted'⟩, hPacked.max_le, hPacked.large_eq, ?_, ?_, ?_⟩⟩
  · have hOldShows := shows_congr hPacked.shows fun b hMem =>
      ⟨((hLinked b).2 hMem).1, ((hLinked b).2 hMem).2.1⟩
    refine List.rel_append hOldShows (.cons ⟨?_, ?_, ?_, ?_⟩ .nil)
    · rw [hBase, hNewLast]
      show ptrAdd (c + sizeofNode) n = ptrAdd c (sizeofNode + n)
      unfold ptrAdd
      rw [Nat.add_assoc]
    · rw [hBase, hNewEnd]
      rfl
    · rw [hBase]
      exact hAligned
    · rw [hBase]
      exact Nat.lt_of_le_of_lt hTop hBound
  · intro b hMem
    rcases List.mem_append.mp hMem with hIn | hIn
    · exact ((hLinked b).2 hIn).2.1.trans (hPacked.ends b hIn)
    · obtain rfl := List.mem_singleton.mp hIn
      rw [hNewEnd, Nat.add_assoc]
      rfl
  · intro b hMem
    rcases List.mem_append.mp hMem with hIn | hIn
    · exact List.mem_cons_of_mem _ (hPacked.block_live b hIn)
    · obtain rfl := List.mem_singleton.mp hIn
      have hBlock : s.block size b = ⟨b, sizeofNode + size⟩ := if_neg hHead
      show s.block size b ∈ _
      rw [hBlock]
      exact List.mem_cons_self

/-- **A new block** takes the request, and the window moves on. -/
theorem mpAllocBlock_packed (hPacked : Packed size s nodes bins) (hSize : n ≤ size)
    (hRun : mpAllocBlock fuel s n = some (m, s')) :
    SamePool s s' ∧ (m = 0 ∨ ∃ c, Clear s.addr c (openedBin size n) ∧
      Packed size s' (nodes ++ [c]) (bins ++ [openedBin size n]) ∧
      s.live.regions.length < s'.live.regions.length) := by
  have hNode : sizeofNode = 32 := rfl
  unfold mpAllocBlock at hRun
  rw [hPacked.psize_eq] at hRun
  rcases hAsk : s.posixMemalign mpAlignment (sizeofNode + size) with ⟨c, heap⟩
  simp only [hAsk] at hRun
  rcases request_cases hAsk with ⟨rfl, _, rfl⟩ | ⟨hPtr, hGrants, hProposed, rfl⟩
  · obtain ⟨rfl, rfl⟩ := Prod.mk.inj (Option.some.inj hRun)
    exact ⟨⟨rfl, rfl⟩, .inl rfl⟩
  · have hProposal : s.proposal (sizeofNode + size) = ⟨c, sizeofNode + size⟩ := by
      rw [hProposed]
      show (⟨_, max (sizeofNode + size) 1⟩ : Region) = _
      rw [Nat.max_eq_left (by omega)]
      rfl
    obtain ⟨_, hAligned, hFits⟩ := hGrants
    simp only [hProposal] at hAligned hFits hRun
    have hTop : c + (sizeofNode + size) ≤ addressTop := hFits.1.2.2
    have hBound : addressTop < 2 ^ 64 := by decide
    have hEnd : ptrAdd c (sizeofNode + size) = c + (sizeofNode + size) := ptrAdd_eq (by omega)
    rw [if_neg hPtr, new_block_data hAligned hTop, hEnd] at hRun
    split at hRun
    · simp at hRun
    · rename_i t current' node' hWalk
      obtain ⟨hCurrent, hGrown⟩ := hPacked.grow (n := n) hFits hAligned hWalk
      rw [if_pos hCurrent] at hRun
      obtain ⟨rfl, rfl⟩ := Prod.mk.inj (Option.some.inj hRun)
      refine ⟨⟨rfl, rfl⟩, .inr ⟨c, ?_, hGrown _ _ _, Nat.lt_succ_self _⟩⟩
      have hNew : c ∉ nodes := hPacked.not_mem_of_fits hFits
      have hHead : c ≠ s.head := fun hEq => hNew (hEq ▸ hPacked.head_mem)
      have hBase : nodeBase s.addr c = c := if_neg hHead
      refine List.forall_mem_singleton.mpr ?_
      rw [hBase, ptrAdd_eq (by omega)]
      omega

theorem takenFrom_same {node : Nat → MpNode} {p n : Nat} (b : Nat) :
    (takenFrom node p n b).end_ = (node b).end_ ∧ (takenFrom node p n b).next = (node b).next ∧
      (takenFrom node p n b).failed = (node b).failed := by
  unfold takenFrom
  by_cases hHere : b = p
  · subst hHere
    rw [Function.update_self]
    exact ⟨rfl, rfl, rfl⟩
  · rw [Function.update_of_ne hHere]
    exact ⟨rfl, rfl, rfl⟩

/-- The bins of the nodes before the window, and of the window, which is what
`mp_alloc` looks at. -/
theorem Packed.window (h : Packed size s nodes bins) :
    ∃ front behind frontBins windowBins, Counted s.node nodes s.current front behind ∧
      bins = frontBins ++ windowBins ∧
      List.Forall₂ (Shows s.addr s.node) front frontBins ∧
      List.Forall₂ (Shows s.addr s.node) (s.current :: behind) windowBins ∧
      ∀ n, placeLast Bin.put 7 (frontBins ++ windowBins) n =
        (place Bin.put windowBins n).map (frontBins ++ ·) := by
  obtain ⟨front, behind, hCounted⟩ := h.counted
  have hShows := h.shows
  rw [hCounted.nodes_eq] at hShows
  have hFront := List.forall₂_take front.length hShows
  have hWindow := List.forall₂_drop front.length hShows
  rw [List.take_left] at hFront
  rw [List.drop_left] at hWindow
  refine ⟨front, behind, bins.take front.length, bins.drop front.length, hCounted,
    (List.take_append_drop _ _).symm, hFront, hWindow, fun n => placeLast_window ?_⟩
  have hLength := hWindow.length_eq
  have hLe := hCounted.behind_le
  rw [List.length_cons] at hLength
  rcases hCounted.full with hNone | hFull
  · subst hNone
    exact .inl ⟨rfl, by omega⟩
  · exact .inr (by omega)

/-- **One request** of at most `max` bytes: it goes to the first of the last
seven blocks that takes it, or to a new block. -/
theorem Packed.serve (hPacked : Packed size s nodes bins) (hSize : n ≤ s.max)
    (hRun : mpAlloc fuel s n = some (m, s')) :
    SamePool s s' ∧
      ((∃ bins', placeLast Bin.put 7 bins n = some bins' ∧ Packed size s' nodes bins' ∧
          s'.live = s.live ∧ (List.Forall₂ (Clear s.addr) nodes bins' ↔
            m ≠ 0 ∧ List.Forall₂ (Clear s.addr) nodes bins)) ∨
        (placeLast Bin.put 7 bins n = none ∧
          (m = 0 ∨ ∃ c, Clear s.addr c (openedBin size n) ∧
            Packed size s' (nodes ++ [c]) (bins ++ [openedBin size n]) ∧
            s.live.regions.length < s'.live.regions.length))) := by
  obtain ⟨front, behind, frontBins, windowBins, hCounted, rfl, hFront, hWindow, hLast⟩ :=
    hPacked.window
  have hChain := hCounted.chain_window hPacked.chain
  have hStart := hPacked.chain.ne_null_of_mem hCounted.current_mem
  obtain ⟨fuel', q, hFit, hCases⟩ := mpAlloc_small_cases hSize hRun
  rcases findFit_place hChain hStart hWindow hFit with
    ⟨rfl, hNone⟩ | ⟨hMem, windowBins', hPlace, hShown, hClear⟩
  · rcases hCases with ⟨-, hRun'⟩ | ⟨hPtr, -⟩
    · obtain ⟨hSame, hBlock⟩ :=
        mpAllocBlock_packed hPacked (Nat.le_trans hSize hPacked.max_le) hRun'
      refine ⟨hSame, .inr ⟨?_, hBlock⟩⟩
      rw [hLast, hNone]
      rfl
    · exact absurd rfl hPtr
  · have hIn : q ∈ nodes := hCounted.window_subset hMem
    rcases hCases with ⟨hNull, -⟩ | ⟨-, rfl, rfl⟩
    · exact absurd hNull (hPacked.chain.ne_null_of_mem hIn)
    · refine ⟨⟨rfl, rfl⟩, .inl ⟨frontBins ++ windowBins', ?_, ?_, rfl, ?_⟩⟩
      · rw [hLast, hPlace]
        rfl
      · have hNodup := hPacked.chain.nodup
        rw [hCounted.nodes_eq] at hNodup
        have hOther : ∀ b ∈ front, takenFrom s.node q n b = s.node b := by
          intro b hBefore
          have hNe : b ≠ q := fun hEq =>
            (List.disjoint_of_nodup_append hNodup) hBefore (hEq ▸ hMem)
          exact Function.update_of_ne hNe _ _
        refine ⟨hPacked.chain.congr fun b _ => (takenFrom_same b).2.1,
          ⟨front, behind, hCounted.congr fun b => (takenFrom_same b).2.2⟩, hPacked.max_le,
          hPacked.large_eq, ?_, fun b hB => (takenFrom_same b).1.trans (hPacked.ends b hB),
          hPacked.block_live⟩
        show List.Forall₂ (Shows s.addr (takenFrom s.node q n)) nodes _
        rw [hCounted.nodes_eq]
        refine List.rel_append (shows_congr hFront fun b hBefore => ?_) hShown
        rw [hOther b hBefore]
        exact ⟨rfl, rfl⟩
      · rw [hCounted.nodes_eq, forall₂_append_iff hFront.length_eq,
          forall₂_append_iff hFront.length_eq, hClear]
        exact and_left_comm

end Requests

end MemPool
end LinuxCppLearn
