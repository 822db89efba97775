import LinuxCppLearn.MemPool.Fuel
import LinuxCppLearn.MemPool.Packing

/-!
# What a reset makes reusable

`mp_reset_pool` empties every block, but leaves `current` and the counters where
they are.  With up to seven blocks `current` is still the first one, and requests
made again go where they went before.  From the eighth block on, the blocks
before `current` are out of reach: they stay empty, and the requests have to fit
into the last seven blocks.

* `mpAllocs` — a sequence of requests.
* `Packed.fill` — on a new pool, it packs the blocks by first fit.
* `Packed.reset` — a reset empties them.
* `Packed.again_iff` — when a sequence is served without another block.
* `reset_makes_reusable_exactly` — when this holds of the sequence made before.
-/

namespace LinuxCppLearn
namespace MemPool

open LinkedChain Regions FirstFit FuelLoop

/-- Requests one after another, with what each returns. -/
def mpAllocs (fuel : Nat) : Pool → List Nat → Option (List Nat × Pool)
  | s, [] => some ([], s)
  | s, n :: requests =>
      match mpAlloc fuel s n with
      | none => none
      | some (m, s) =>
          match mpAllocs fuel s requests with
          | none => none
          | some (ms, s) => some (m :: ms, s)

/-- All requests succeed, with the memory that the pool has. -/
def ServedAgain (s : Pool) (requests : List Nat) : Prop :=
  ∃ fuel ms s', mpAllocs fuel s requests = some (ms, s') ∧ (∀ m ∈ ms, m ≠ 0) ∧ s'.live = s.live

section Runs

variable {size c m n fuel fuel' : Nat} {s s' : Pool} {nodes requests ms : List Nat}
  {bins : List Bin}

theorem mpAllocs_cons (hRun : mpAllocs fuel s (n :: requests) = some (ms, s')) :
    ∃ m t ms', mpAlloc fuel s n = some (m, t) ∧ mpAllocs fuel t requests = some (ms', s') ∧
      ms = m :: ms' := by
  rw [mpAllocs] at hRun
  split at hRun
  · simp at hRun
  · rename_i m t hFirst
    split at hRun
    · simp at hRun
    · rename_i ms' t' hRest
      obtain ⟨rfl, rfl⟩ := Prod.mk.inj (Option.some.inj hRun)
      exact ⟨m, t, ms', hFirst, hRest, rfl⟩

theorem mpAllocs_mono (hRun : mpAllocs fuel s requests = some (ms, s')) (hLe : fuel ≤ fuel') :
    mpAllocs fuel' s requests = some (ms, s') := by
  induction requests generalizing s ms with
  | nil => exact hRun
  | cons n requests ih =>
      obtain ⟨m, t, ms', hFirst, hRest, rfl⟩ := mpAllocs_cons hRun
      rw [mpAllocs, mpAlloc_mono hFirst hLe]
      simp only [ih hRest]

/-! ## The first time -/

/-- **A sequence that succeeds** packs the blocks by first fit, with a new block
where the last seven have no room. -/
theorem Packed.fill (hPacked : Packed size s nodes bins) (hSmall : ∀ n ∈ requests, n ≤ s.max)
    (hRun : mpAllocs fuel s requests = some (ms, s')) (hServed : ∀ m ∈ ms, m ≠ 0)
    (hClear : List.Forall₂ (Clear s.addr) nodes bins) :
    ∃ nodes', SamePool s s' ∧
      Packed size s' nodes' (FirstFit.fill Bin.put 7 (openedBin size) bins requests) ∧
      List.Forall₂ (Clear s.addr) nodes'
        (FirstFit.fill Bin.put 7 (openedBin size) bins requests) ∧
      s.live.regions.length ≤ s'.live.regions.length := by
  induction requests generalizing s nodes bins ms with
  | nil =>
      obtain ⟨rfl, rfl⟩ := Prod.mk.inj (Option.some.inj hRun)
      exact ⟨nodes, ⟨rfl, rfl⟩, hPacked, hClear, Nat.le_refl _⟩
  | cons n requests ih =>
      obtain ⟨m, t, ms', hFirst, hRest, rfl⟩ := mpAllocs_cons hRun
      obtain ⟨hPtr, hServed'⟩ := List.forall_mem_cons.mp hServed
      obtain ⟨hSize, hSmall'⟩ := List.forall_mem_cons.mp hSmall
      obtain ⟨⟨hAddr, hMax⟩, hCase⟩ := hPacked.serve hSize hFirst
      rw [← hMax] at hSmall'
      rw [FirstFit.fill, ← hAddr]
      rcases hCase with ⟨bins', hPlace, hPacked', hLive, hIff⟩ | ⟨hNone, hOpened⟩
      · have hClear' := hIff.mpr ⟨hPtr, hClear⟩
        rw [← hAddr] at hClear'
        rw [hPlace, Option.getD_some]
        obtain ⟨nodes', ⟨hAddr', hMax'⟩, hAll⟩ := ih hPacked' hSmall' hRest hServed' hClear'
        exact ⟨nodes', ⟨hAddr'.trans hAddr, hMax'.trans hMax⟩, hLive ▸ hAll⟩
      · obtain ⟨c, hNewClear, hPacked', hMore⟩ := hOpened.resolve_left hPtr
        have hClear' : List.Forall₂ (Clear t.addr) (nodes ++ [c]) (bins ++ [openedBin size n]) := by
          rw [hAddr]
          exact List.rel_append hClear (.cons hNewClear .nil)
        rw [hNone, Option.getD_none]
        obtain ⟨nodes', ⟨hAddr', hMax'⟩, hAll, hAllClear, hLive⟩ :=
          ih hPacked' hSmall' hRest hServed' hClear'
        exact ⟨nodes', ⟨hAddr'.trans hAddr, hMax'.trans hMax⟩, hAll, hAllClear,
          Nat.le_trans (Nat.le_of_lt hMore) hLive⟩

/-! ## The reset -/

theorem Packed.base_aligned (hPacked : Packed size s nodes bins) :
    ∀ h ∈ nodes, nodeBase s.addr h % 32 = 0 := by
  have hShows := hPacked.shows
  clear hPacked
  induction hShows with
  | nil => simp
  | cons hHere _ ih => exact List.forall_mem_cons.mpr ⟨hHere.aligned, ih⟩

theorem forall₂_replicate {R : Nat → Bin → Prop} {b : Bin} {l : List Nat} (h : ∀ a ∈ l, R a b) :
    List.Forall₂ R l (List.replicate l.length b) := by
  induction l with
  | nil => exact .nil
  | cons a l ih =>
      obtain ⟨hHere, hRest⟩ := List.forall_mem_cons.mp h
      exact .cons hHere (ih hRest)

/-- The bins of emptied blocks. -/
def emptied (size k : Nat) : List Bin :=
  firstBin size :: List.replicate (k - 1) (laterBin size)

/-- Nothing is taken from emptied blocks. -/
theorem clear_emptied {addr : Nat} {l : List Nat} (hPos : 0 < l.length) :
    List.Forall₂ (Clear addr) l (emptied size l.length) := by
  cases l with
  | nil => simp at hPos
  | cons h l =>
      exact .cons (by simp [Clear, firstBin])
        (forall₂_replicate fun h hMem => by simp [Clear, laterBin])

/-- A node whose `last` has been put behind its structure. -/
theorem shows_emptied {node' : Nat → MpNode} (hPacked : Packed size s nodes bins)
    (hIn : ∀ b ∈ nodes, node' b = { s.node b with last := ptrAdd b sizeofNode }) {h : Nat}
    (hMem : h ∈ nodes) :
    Shows s.addr node' h (if h = s.head then firstBin size else laterBin size) := by
  have hEnd := hPacked.ends h hMem
  have hTop := hPacked.end_le_top hMem
  have hAligned := hPacked.base_aligned h hMem
  have hBound : addressTop < 2 ^ 64 := by decide
  by_cases hHead : h = s.head
  · subst hHead
    have hBase : nodeBase s.addr s.head = s.addr := if_pos rfl
    have hAddr : s.head = s.addr + sizeofPool := rfl
    rw [if_pos rfl]
    refine ⟨?_, ?_, hAligned, ?_⟩
    · rw [hIn s.head hMem, hBase]
      show ptrAdd s.head sizeofNode = ptrAdd s.addr (sizeofPool + sizeofNode)
      rw [hAddr, ptrAdd, ptrAdd, Nat.add_assoc]
    · rw [hIn s.head hMem, hBase]
      show (s.node s.head).end_ = s.addr + (sizeofPool + sizeofNode + size)
      omega
    · rw [hBase]
      show s.addr + (sizeofPool + sizeofNode + size) < 2 ^ 64
      omega
  · have hBase : nodeBase s.addr h = h := if_neg hHead
    rw [if_neg hHead]
    refine ⟨?_, ?_, hAligned, ?_⟩
    · rw [hIn h hMem, hBase]
      rfl
    · rw [hIn h hMem, hBase]
      show (s.node h).end_ = h + (sizeofNode + size)
      omega
    · rw [hBase]
      show h + (sizeofNode + size) < 2 ^ 64
      omega

/-- All nodes with their `last` behind their structures. -/
theorem emptied_shows {node' : Nat → MpNode} (hPacked : Packed size s nodes bins)
    (hIn : ∀ b ∈ nodes, node' b = { s.node b with last := ptrAdd b sizeofNode }) :
    List.Forall₂ (Shows s.addr node') nodes (emptied size nodes.length) := by
  have hNodup := hPacked.chain.nodup
  obtain ⟨rest, hNodes, _⟩ :=
    hPacked.chain.exists_cons (hPacked.chain.ne_null_of_mem hPacked.head_mem)
  have hShown := fun h (hMem : h ∈ nodes) => shows_emptied hPacked hIn hMem
  rw [hNodes] at hNodup hShown ⊢
  obtain ⟨hHere, hRest⟩ := List.forall_mem_cons.mp hShown
  rw [if_pos rfl] at hHere
  refine .cons hHere (forall₂_replicate fun h hMem => ?_)
  have hOther : h ≠ s.head := ne_of_mem_of_not_mem hMem (List.nodup_cons.mp hNodup).1
  have hLater := hRest h hMem
  rwa [if_neg hOther] at hLater

/-- **A reset** empties the blocks and leaves `current` and the counters. -/
theorem Packed.reset (hPacked : Packed size s nodes bins) (hRun : mpResetPool fuel s = some s') :
    SamePool s s' ∧ Packed size s' nodes (emptied size nodes.length) := by
  unfold mpResetPool at hRun
  rw [hPacked.large_eq] at hRun
  have hFree : freeLarge fuel s.toHeap 0 = none ∨ freeLarge fuel s.toHeap 0 = some s.toHeap := by
    cases fuel with
    | zero => exact .inl rfl
    | succ fuel => exact .inr rfl
  rcases hFree with hNone | hFree
  · simp [hNone] at hRun
  · rw [hFree] at hRun
    simp only at hRun
    split at hRun
    · simp at hRun
    · rename_i node' hRewind
      obtain rfl := Option.some.inj hRun
      obtain ⟨hIn, hOut⟩ := rewindNodes_spec hPacked.chain hRewind
      have hFailed : ∀ b, (node' b).failed = (s.node b).failed := by
        intro b
        by_cases hMem : b ∈ nodes
        · rw [hIn b hMem]
        · rw [hOut b hMem]
      obtain ⟨front, behind, hCounted⟩ := hPacked.counted
      have hNext : ∀ b ∈ nodes, (node' b).next = (s.node b).next := fun b hMem => by rw [hIn b hMem]
      have hShown := emptied_shows hPacked hIn
      have hEnd : ∀ b ∈ nodes, (node' b).end_ = (s.node b).end_ := fun b hMem => by rw [hIn b hMem]
      exact ⟨⟨rfl, rfl⟩, ⟨hPacked.chain.congr hNext, ⟨front, behind, hCounted.congr hFailed⟩,
        hPacked.max_le, rfl, hShown,
        fun b hMem => (hEnd b hMem).trans (hPacked.ends b hMem), hPacked.block_live⟩⟩

/-! ## Once more -/

/-- A request that one of the last seven blocks takes is answered. -/
theorem Packed.returns (hPacked : Packed size s nodes bins) (hSize : n ≤ s.max)
    (hPlace : (placeLast Bin.put 7 bins n).isSome) :
    ∃ r, mpAlloc (nodes.length + 2) s n = some r := by
  obtain ⟨front, behind, frontBins, windowBins, hCounted, rfl, _, hWindow, hLast⟩ :=
    hPacked.window
  have hChain := hCounted.chain_window hPacked.chain
  have hStart : s.current ≠ 0 := hPacked.chain.ne_null_of_mem hCounted.current_mem
  have hLength : (s.current :: behind).length ≤ nodes.length := by
    rw [hCounted.nodes_eq, List.length_append]
    exact Nat.le_add_left _ _
  obtain ⟨q, hFit⟩ := findFit_returns (n := n) hChain hStart (Nat.lt_succ_of_le hLength)
  unfold mpAlloc
  rw [if_pos hSize, hFit]
  rcases findFit_place hChain hStart hWindow hFit with ⟨_, hNone⟩ | ⟨hMem, _⟩
  · rw [hLast, hNone] at hPlace
    simp at hPlace
  · have hFound : q ≠ 0 := hPacked.chain.ne_null_of_mem (hCounted.window_subset hMem)
    simp only [if_pos hFound]
    exact ⟨_, rfl⟩

/-- **A sequence of requests is served without another block** if and only if
first fit puts it into the last seven blocks; nothing taken then lies at
address 0. -/
theorem Packed.again_iff (hPacked : Packed size s nodes bins)
    (hSmall : ∀ n ∈ requests, n ≤ s.max) :
    (ServedAgain s requests ∧ List.Forall₂ (Clear s.addr) nodes bins) ↔
      ∃ bins', packLast Bin.put 7 bins requests = some bins' ∧
        List.Forall₂ (Clear s.addr) nodes bins' := by
  induction requests generalizing s bins with
  | nil =>
      constructor
      · rintro ⟨_, hClear⟩
        exact ⟨bins, rfl, hClear⟩
      · rintro ⟨bins', hPack, hClear⟩
        obtain rfl := Option.some.inj hPack
        exact ⟨⟨0, [], s, rfl, by simp, rfl⟩, hClear⟩
  | cons n requests ih =>
      obtain ⟨hSize, hSmall'⟩ := List.forall_mem_cons.mp hSmall
      constructor
      · rintro ⟨⟨fuel, ms, s', hRun, hServed, hLive⟩, hClear⟩
        obtain ⟨m, t, ms', hFirst, hRest, rfl⟩ := mpAllocs_cons hRun
        obtain ⟨hPtr, hServed'⟩ := List.forall_mem_cons.mp hServed
        obtain ⟨⟨hAddr, hMax⟩, hCase⟩ := hPacked.serve hSize hFirst
        rw [← hMax] at hSmall'
        rcases hCase with ⟨bins', hPlace, hPacked', hSameLive, hIff⟩ | ⟨_, hOpened⟩
        · have hAgain : ServedAgain t requests :=
            ⟨fuel, ms', s', hRest, hServed', hLive.trans hSameLive.symm⟩
          have hRest' := (ih hPacked' hSmall').mp
            ⟨hAgain, hAddr.symm ▸ hIff.mpr ⟨hPtr, hClear⟩⟩
          rw [hAddr] at hRest'
          rw [packLast, hPlace]
          exact hRest'
        -- a block obtained on the way is still there at the end
        · obtain ⟨c, hNewClear, hPacked', hMore⟩ := hOpened.resolve_left hPtr
          have hClear' : List.Forall₂ (Clear t.addr) (nodes ++ [c])
              (bins ++ [openedBin size n]) := by
            rw [hAddr]
            exact List.rel_append hClear (.cons hNewClear .nil)
          obtain ⟨_, _, _, _, hKept⟩ := hPacked'.fill hSmall' hRest hServed' hClear'
          rw [hLive] at hKept
          omega
      · rintro ⟨final, hPack, hClear⟩
        obtain ⟨bins', hPlace, hRest⟩ := Option.bind_eq_some_iff.mp hPack
        obtain ⟨⟨m, t⟩, hFirst⟩ := hPacked.returns hSize (by rw [hPlace]; rfl)
        obtain ⟨⟨hAddr, hMax⟩, hCase⟩ := hPacked.serve hSize hFirst
        rw [← hMax] at hSmall'
        rcases hCase with ⟨bins₁, hPlace₁, hPacked', hSameLive, hIff⟩ | ⟨hNone, _⟩
        · obtain rfl := Option.some.inj (hPlace.symm.trans hPlace₁)
          obtain ⟨⟨fuel, ms, s', hRun, hServed, hLive⟩, hClear'⟩ :=
            (ih hPacked' hSmall').mpr ⟨final, hRest, hAddr.symm ▸ hClear⟩
          rw [hAddr] at hClear'
          obtain ⟨hPtr, hClear₀⟩ := hIff.mp hClear'
          refine ⟨⟨max (nodes.length + 2) fuel, m :: ms, s', ?_,
            List.forall_mem_cons.mpr ⟨hPtr, hServed⟩, hLive.trans hSameLive⟩, hClear₀⟩
          rw [mpAllocs, mpAlloc_mono hFirst (Nat.le_max_left _ _)]
          simp only [mpAllocs_mono hRun (Nat.le_max_right _ _)]
        · rw [hNone] at hPlace
          simp at hPlace

end Runs

/-! ## The sequence made before the reset -/

/-- First fit puts the requests into an empty first block of `size` bytes and six
more. -/
def FitsFromHead (size : Nat) (requests : List Nat) : Prop :=
  (pack Bin.put (emptied size 7) requests).isSome

/-- First fit puts the requests into seven empty blocks of `size` bytes, those
from `current` on, and takes nothing at address 0. -/
def FitsFromCurrent (s : Pool) (size : Nat) (requests : List Nat) : Prop :=
  ∃ window bins, Chain (nodeNext s.node) 0 s.current window ∧
    pack Bin.put (List.replicate 7 (laterBin size)) requests = some bins ∧
    List.Forall₂ (fun h b => ∀ m ∈ b.taken, ptrAdd h m ≠ 0) window bins

instance (size : Nat) (requests : List Nat) : Decidable (FitsFromHead size requests) :=
  inferInstanceAs (Decidable (_ = true))

theorem mpCreatePool_packed {size : Nat} {s : Pool} {node : Nat → MpNode}
    {header : Nat → MpLarge} {answer : Nat → Nat}
    (hSize : size + (sizeofPool + sizeofNode) < 2 ^ 64)
    (hCreate : mpCreatePool (Heap.start node header answer) size = some s)
    (hNull : (s.node s.head).next = 0) : Packed size s [s.head] [firstBin size] := by
  have hInv := mpCreatePool_inv hSize hCreate hNull
  obtain ⟨p, hAligned, -, hNodes, hAddr, -, hCurrent, hLarge, -⟩ :=
    mpCreatePool_eq_some hSize hCreate
  have hHead : s.head = p + sizeofPool := by
    unfold Pool.head
    rw [hAddr]
  have hFirst : s.node s.head = firstNode node p size := by
    rw [hNodes, hHead, Function.update_self]
  have hBase : nodeBase s.addr s.head = p := (if_pos rfl).trans hAddr
  have hTop := hInv.end_le_top hInv.head_mem
  have hBound : addressTop < 2 ^ 64 := by decide
  refine ⟨hInv.chain, ⟨[], [], ?_, by simp, ?_, by simp, .inl rfl⟩, hInv.max_le.1, hLarge,
    .cons ⟨?_, ?_, ?_, ?_⟩ .nil, fun h hMem => (hInv.spans h hMem).end_eq, hInv.block_live⟩
  · rw [hCurrent, hHead]
    rfl
  · rw [hCurrent, ← hHead]
    show [(s.node s.head).failed] = [0]
    rw [hFirst]
    rfl
  · rw [hFirst, hBase]
    show p + sizeofPool + sizeofNode = ptrAdd p (sizeofPool + sizeofNode)
    rw [ptrAdd_eq (by omega)]
    omega
  · rw [hFirst, hBase]
    show p + sizeofPool + sizeofNode + size = p + (sizeofPool + sizeofNode + size)
    omega
  · rw [hBase]
    exact hAligned
  · rw [hBase]
    show p + (sizeofPool + sizeofNode + size) < 2 ^ 64
    omega

/-- Behind the first node, a block starts at its node. -/
theorem clear_iff {addr : Nat} {l : List Nat} {bins : List Bin} (hHead : addr + sizeofPool ∉ l) :
    List.Forall₂ (Clear addr) l bins ↔
      List.Forall₂ (fun h b => ∀ m ∈ b.taken, ptrAdd h m ≠ 0) l bins := by
  induction l generalizing bins with
  | nil => simp
  | cons h l ih =>
      rw [List.mem_cons, not_or] at hHead
      have hBase : nodeBase addr h = h := if_neg (Ne.symm hHead.1)
      cases bins with
      | nil => simp
      | cons b bins => rw [List.forall₂_cons, List.forall₂_cons, ih hHead.2, Clear, hBase]

/-- With more than seven blocks, only those from `current` on are in reach. -/
theorem Packed.again_behind {size : Nat} {s : Pool} {nodes requests : List Nat}
    (hPacked : Packed size s nodes (emptied size nodes.length)) (hMany : 7 < nodes.length) :
    (∃ bins', packLast Bin.put 7 (emptied size nodes.length) requests = some bins' ∧
      List.Forall₂ (Clear s.addr) nodes bins') ↔ FitsFromCurrent s size requests := by
  obtain ⟨front, behind, hCounted⟩ := hPacked.counted
  have hWindow := hCounted.chain_window hPacked.chain
  have hFrontLength := hCounted.front_length
  have hPack : packLast Bin.put 7 (emptied size nodes.length) requests =
      (pack Bin.put (List.replicate 7 (laterBin size)) requests).map
        (emptied size front.length ++ ·) := by
    rw [emptied, packLast_behind (by omega), emptied, hFrontLength, Nat.sub_right_comm]
  have hLength : front.length = (emptied size front.length).length := by
    rw [emptied, List.length_cons, List.length_replicate]
    omega
  -- the first node lies before the window
  have hHead : s.head ∉ s.current :: behind := by
    have hNodup := hPacked.chain.nodup
    rw [hCounted.nodes_eq] at hNodup
    obtain ⟨rest, hNodes, _⟩ :=
      hPacked.chain.exists_cons (hPacked.chain.ne_null_of_mem hPacked.head_mem)
    cases hFront : front with
    | nil =>
        rw [hFront, List.length_nil] at hFrontLength
        omega
    | cons h front' =>
        have hEq := hCounted.nodes_eq
        rw [hFront] at hEq hNodup
        obtain rfl : s.head = h := (List.cons.inj (hNodes.symm.trans hEq)).1
        exact List.disjoint_of_nodup_append hNodup List.mem_cons_self
  have hSplit : ∀ bins, List.Forall₂ (Clear s.addr) nodes (emptied size front.length ++ bins) ↔
      List.Forall₂ (fun h b => ∀ m ∈ b.taken, ptrAdd h m ≠ 0) (s.current :: behind) bins := by
    intro bins
    rw [hCounted.nodes_eq, forall₂_append_iff hLength, clear_iff hHead]
    exact and_iff_right (clear_emptied (by omega))
  constructor
  · rintro ⟨bins', hPacks, hAll⟩
    rw [hPack] at hPacks
    obtain ⟨bins, hBins, rfl⟩ := Option.map_eq_some_iff.mp hPacks
    exact ⟨_, bins, hWindow, hBins, (hSplit bins).mp hAll⟩
  · rintro ⟨window, bins, hChain, hBins, hNone⟩
    obtain rfl := hChain.unique hWindow
    refine ⟨emptied size front.length ++ bins, ?_, (hSplit bins).mpr hNone⟩
    rw [hPack, hBins]
    rfl

/-- **What a reset makes reusable, exactly.**  Requests of at most `max` bytes
that have succeeded on a new pool succeed again after a reset without another
block, if and only if first fit puts them into the first block and six more, so
that the pool has at most seven, or into the seven blocks from `current` on. -/
theorem reset_makes_reusable_exactly {size fuel fuel' : Nat} {node : Nat → MpNode}
    {header : Nat → MpLarge} {answer : Nat → Nat} {s₀ s₁ s₂ : Pool} {requests ms : List Nat}
    (hSize : size + (sizeofPool + sizeofNode) < 2 ^ 64)
    (hCreate : mpCreatePool (Heap.start node header answer) size = some s₀)
    (hNull : (s₀.node s₀.head).next = 0) (hSmall : ∀ n ∈ requests, n ≤ s₀.max)
    (hFirst : mpAllocs fuel s₀ requests = some (ms, s₁)) (hServed : ∀ m ∈ ms, m ≠ 0)
    (hReset : mpResetPool fuel' s₁ = some s₂) :
    ServedAgain s₂ requests ↔
      FitsFromHead size requests ∨ FitsFromCurrent s₂ size requests := by
  have hNew := mpCreatePool_packed hSize hCreate hNull
  have hFresh : List.Forall₂ (Clear s₀.addr) [s₀.head] [firstBin size] :=
    .cons (by simp [Clear, firstBin]) .nil
  have hOpens : ∀ n ∈ requests, (laterBin size).put n = some (openedBin size n) :=
    fun n hMem => laterBin_put (Nat.le_trans (hSmall n hMem) hNew.max_le) hSize
  obtain ⟨nodes, ⟨hAddr, hMax⟩, hFilled, hClear, _⟩ := hNew.fill hSmall hFirst hServed hFresh
  obtain ⟨⟨hAddr', hMax'⟩, hEmpty⟩ := hFilled.reset hReset
  have hSmall' : ∀ n ∈ requests, n ≤ s₂.max := by
    rw [hMax', hMax]
    exact hSmall
  have hAgain := hEmpty.again_iff hSmall'
  rw [and_iff_left (clear_emptied (List.length_pos_of_mem hEmpty.head_mem))] at hAgain
  have hCount := hFilled.shows.length_eq
  rw [hAgain]
  by_cases hFew : nodes.length ≤ 7
  · rw [hCount] at hFew
    have hFits : FitsFromHead size requests := (fill_length_le_iff (by decide) hOpens).mp hFew
    have hPack : packLast Bin.put 7 (emptied size nodes.length) requests =
        some (FirstFit.fill Bin.put 7 (openedBin size) [firstBin size] requests) := by
      rw [hCount]
      exact packLast_again hOpens hFew
    rw [← hAddr, ← hAddr'] at hClear
    exact iff_of_true ⟨_, hPack, hClear⟩ (.inl hFits)
  · have hNot : ¬ FitsFromHead size requests := by
      intro hFits
      have hLe := (fill_length_le_iff (by decide) hOpens).mpr hFits
      exact hFew (hCount ▸ hLe)
    rw [or_iff_right hNot]
    exact hEmpty.again_behind (Nat.lt_of_not_le hFew)

theorem eq_some_get {r : Option (List Nat × Pool)} (h : r.isSome) :
    r = some ((r.get h).1, (r.get h).2) :=
  (Option.some_get h).symm

/-- The ten requests of 512 bytes that `main` makes. -/
def mainRequests : List Nat := List.replicate 10 512

/-- The pool of `main` behind these requests, and what they returned. -/
def mainServed : List Nat × Pool := (mpAllocs 4 mainPool mainRequests).get (by decide +kernel)

theorem mainPool_served :
    mpAllocs 4 mainPool mainRequests = some (mainServed.1, mainServed.2) := by
  unfold mainServed
  exact eq_some_get _

/-- The pool of `main` behind the reset. -/
def mainReset : Pool := (mpResetPool 4 mainServed.2).get (by decide +kernel)

theorem mainPool_reset : mpResetPool 4 mainServed.2 = some mainReset := by
  simp [mainReset]

theorem reset_makes_reusable_exactly_mainPool : ServedAgain mainReset mainRequests := by
  have hServed : ∀ m ∈ mainServed.1, m ≠ 0 := by decide +kernel
  have hFits : FitsFromHead 4096 mainRequests := by decide +kernel
  exact (reset_makes_reusable_exactly (by decide) mainPool_created (by decide) (by decide)
    mainPool_served hServed mainPool_reset).mpr (.inl hFits)

/-- A pool of 32 bytes, of which the first block takes no request of 32. -/
def tightPool : Pool := (mpCreatePool zeroedHeap 32).get (by decide)

def tightRequests : List Nat := List.replicate 8 32

def tightServed : List Nat × Pool := (mpAllocs 12 tightPool tightRequests).get (by decide +kernel)

def tightReset : Pool := (mpResetPool 12 tightServed.2).get (by decide +kernel)

def tightAgain : List Nat × Pool := (mpAllocs 12 tightReset tightRequests).get (by decide +kernel)

theorem tightPool_served :
    mpAllocs 12 tightPool tightRequests = some (tightServed.1, tightServed.2) := by
  unfold tightServed
  exact eq_some_get _

theorem tightPool_reset : mpResetPool 12 tightServed.2 = some tightReset := by
  simp [tightReset]

theorem tightPool_again :
    mpAllocs 12 tightReset tightRequests = some (tightAgain.1, tightAgain.2) := by
  unfold tightAgain
  exact eq_some_get _

/-- A block obtained with more fuel, too. -/
theorem not_servedAgain_of_more {s t : Pool} {requests ms : List Nat} {fuel : Nat}
    (hRun : mpAllocs fuel s requests = some (ms, t))
    (hMore : s.live.regions.length < t.live.regions.length) : ¬ ServedAgain s requests := by
  rintro ⟨fuel', ms', t', hRun', _, hLive⟩
  have hSame := (mpAllocs_mono hRun' (Nat.le_max_left fuel' fuel)).symm.trans
    (mpAllocs_mono hRun (Nat.le_max_right fuel' fuel))
  obtain ⟨_, rfl⟩ := Prod.mk.inj (Option.some.inj hSame)
  rw [hLive] at hMore
  exact absurd hMore (Nat.lt_irrefl _)

/-- Eight requests of 32 bytes make eight blocks behind the first; after a reset
the eighth makes one more. -/
theorem reset_strands_block :
    mpCreatePool zeroedHeap 32 = some tightPool ∧ (tightPool.node tightPool.head).next = 0 ∧
      (∀ n ∈ tightRequests, n ≤ tightPool.max) ∧
      mpAllocs 12 tightPool tightRequests = some (tightServed.1, tightServed.2) ∧
      (∀ m ∈ tightServed.1, m ≠ 0) ∧
      mpResetPool 12 tightServed.2 = some tightReset ∧ ¬ ServedAgain tightReset tightRequests := by
  have hServed : ∀ m ∈ tightServed.1, m ≠ 0 := by decide +kernel
  have hMore : tightReset.live.regions.length < tightAgain.2.live.regions.length := by
    decide +kernel
  exact ⟨by simp [tightPool], by decide, by decide, tightPool_served, hServed, tightPool_reset,
    not_servedAgain_of_more tightPool_again hMore⟩

end MemPool
end LinuxCppLearn
