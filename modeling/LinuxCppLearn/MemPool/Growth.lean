import LinuxCppLearn.Library.BinLoads
import LinuxCppLearn.Library.StepSystem
import LinuxCppLearn.MemPool.Reuse
import Mathlib.Algebra.GroupWithZero.Nat

/-!
# How a pool grows

A block is asked for only if the last one has no room.  So the blocks behind the
first are half full at least, counting each request with the bytes that its
alignment costs: a bound for every run of small requests and resets, also where
a block is overrun.  For requests that are repeated after each reset the number
of blocks is exact: it stays, or it grows by the same number each time.

* `padded` — a request with what rounding up costs it.
* `Holds` — a bound of what is taken from a block; `loads`.
* `Kept` — the account of a run; `Kept.step`.
* `blocks_bounded` — the number of blocks of a run.
* `mpRounds`, `rounds_add_blocks` — the same requests in each round.
-/

namespace LinuxCppLearn
namespace MemPool

open LinkedChain Regions FirstFit StepSystem

/-- The request, rounded up to `MP_ALIGNMENT`. -/
def padded (n : Nat) : Nat := (n + 31) / 32 * 32

/-- The list behind `pool->head` has `k` nodes. -/
def Pool.HasBlocks (s : Pool) (k : Nat) : Prop :=
  ∃ nodes, Chain (nodeNext s.node) 0 s.head nodes ∧ nodes.length = k

/-! ## The loads of blocks -/

/-- At most `x` of the `size` bytes of a block lie before the next request. -/
structure Holds (size : Nat) (b : Bin) (x : Nat) : Prop where
  last_le : mpAlignPtr b.last mpAlignment + size ≤ b.end_ + x
  end_lt : b.end_ < 2 ^ 64

section Loads

variable {size n x : Nat} {b b' : Bin}

theorem mpAlignPtr_le (p : Nat) : mpAlignPtr p mpAlignment ≤ (p + 31) / 32 * 32 := by
  rw [mpAlignPtr_eq]
  omega

/-- From an aligned offset on, a request costs its padded size at most, also
where the sum wraps around. -/
theorem mpAlignPtr_add_le {m : Nat} (hAligned : m % 32 = 0) :
    mpAlignPtr (ptrAdd m n) mpAlignment ≤ m + padded n := by
  have hUp := mpAlignPtr_le (ptrAdd m n)
  have hSum : ptrAdd m n ≤ m + n := Nat.mod_le _ _
  unfold padded
  omega

theorem Holds.put_some (h : Holds size b x) (hPut : b.put n = some b') :
    Holds size b' (x + padded n) := by
  unfold Bin.put at hPut
  dsimp only at hPut
  split at hPut
  · obtain rfl := Option.some.inj hPut
    have hAligned : mpAlignPtr b.last mpAlignment % 32 = 0 := by
      rw [mpAlignPtr_eq]
      exact Nat.mul_mod_left _ _
    have hNext := mpAlignPtr_add_le (n := n) hAligned
    have hLast := h.last_le
    refine ⟨?_, h.end_lt⟩
    show mpAlignPtr (ptrAdd (mpAlignPtr b.last mpAlignment) n) mpAlignment + size ≤
      b.end_ + (x + padded n)
    omega
  · simp at hPut

/-- The difference that `mp_alloc` compares with is at least what is left. -/
theorem Holds.put_none (h : Holds size b x) (hPut : b.put n = none) : size < x + padded n := by
  unfold Bin.put at hPut
  dsimp only at hPut
  split at hPut
  · simp at hPut
  · rename_i hFull
    have hLast := h.last_le
    have hEnd := h.end_lt
    have hAlign := mpAlignPtr_lt b.last
    unfold ptrDiff at hFull
    unfold padded
    omega

theorem holds_openedBin (hSize : size + (sizeofPool + sizeofNode) < 2 ^ 64) :
    Holds size (openedBin size n) (padded n) := by
  have hNode : sizeofNode = 32 := rfl
  have hUp := mpAlignPtr_le (sizeofNode + n)
  constructor
  · show mpAlignPtr (sizeofNode + n) mpAlignment + size ≤ sizeofNode + size + padded n
    unfold padded
    omega
  · show sizeofNode + size < 2 ^ 64
    omega

theorem holds_laterBin (hSize : size + (sizeofPool + sizeofNode) < 2 ^ 64) :
    Holds size (laterBin size) 0 := by
  have hNode : sizeofNode = 32 := rfl
  have hAlign : mpAlignPtr sizeofNode mpAlignment = sizeofNode := by decide
  constructor
  · show mpAlignPtr sizeofNode mpAlignment + size ≤ sizeofNode + size + 0
    omega
  · show sizeofNode + size < 2 ^ 64
    omega

/-- The structures before the first block take 8 bytes of it. -/
theorem holds_firstBin (hSize : size + (sizeofPool + sizeofNode) < 2 ^ 64) :
    Holds size (firstBin size) 8 := by
  have hAlign : mpAlignPtr (sizeofPool + sizeofNode) mpAlignment = sizeofPool + sizeofNode + 8 := by
    decide
  constructor
  · show mpAlignPtr (sizeofPool + sizeofNode) mpAlignment + size ≤
      sizeofPool + sizeofNode + size + 8
    omega
  · show sizeofPool + sizeofNode + size < 2 ^ 64
    omega

theorem loads (hSize : size + (sizeofPool + sizeofNode) < 2 ^ 64) :
    Loads Bin.put (openedBin size) padded size (Holds size) where
  put_some := Holds.put_some
  put_none := Holds.put_none
  opened_load _ := holds_openedBin hSize

end Loads

/-! ## One request -/

section Requests

variable {size c m n fuel spent : Nat} {s s' : Pool} {nodes : List Nat} {bins : List Bin}

/-- A block that the system does not have leaves the pool as it is. -/
theorem Packed.no_block (hPacked : Packed size s nodes bins)
    (hRun : mpAllocBlock fuel s n = some (0, s')) : Packed size s' nodes bins := by
  unfold mpAllocBlock at hRun
  rw [hPacked.psize_eq] at hRun
  rcases hAsk : s.posixMemalign mpAlignment (sizeofNode + size) with ⟨c, heap⟩
  simp only [hAsk] at hRun
  rcases request_cases hAsk with ⟨rfl, _, rfl⟩ | ⟨hPtr, hGrants, hProposed, rfl⟩
  · obtain ⟨-, rfl⟩ := Prod.mk.inj (Option.some.inj hRun)
    exact ⟨hPacked.chain, hPacked.counted, hPacked.max_le, hPacked.large_eq, hPacked.shows,
      hPacked.ends, hPacked.block_live⟩
  -- a block that has been obtained does not start at `NULL`
  · obtain ⟨_, hAligned, hFits⟩ := hGrants
    have hProposal : s.proposal (sizeofNode + size) = ⟨c, sizeofNode + size⟩ := by
      rw [hProposed]
      show (⟨_, max (sizeofNode + size) 1⟩ : Region) = _
      rw [Nat.max_eq_left (Nat.le_add_right_of_le (by decide))]
      rfl
    simp only [hProposal] at hAligned hFits hRun
    rw [if_neg hPtr, new_block_data hAligned hFits.1.2.2] at hRun
    split at hRun
    · simp at hRun
    · obtain ⟨hNull, -⟩ := Prod.mk.inj (Option.some.inj hRun)
      exact absurd (Nat.eq_zero_of_add_eq_zero_right hNull) hPtr

/-- **One request**, also if the system has no memory: it has its place in the
window, a block has been opened for it, or nothing has changed. -/
theorem Packed.request (hPacked : Packed size s nodes bins) (hSize : n ≤ s.max)
    (hRun : mpAlloc fuel s n = some (m, s')) :
    s'.max = s.max ∧ (Packed size s' nodes bins ∨
      (∃ bins', placeLast Bin.put 7 bins n = some bins' ∧ Packed size s' nodes bins') ∨
      (placeLast Bin.put 7 bins n = none ∧
        ∃ c, Packed size s' (nodes ++ [c]) (bins ++ [openedBin size n]))) := by
  obtain ⟨⟨-, hMax⟩, hServed⟩ := hPacked.serve hSize hRun
  refine ⟨hMax, ?_⟩
  rcases hServed with ⟨bins', hPlace, hPacked', -⟩ | ⟨hNone, hFailed | ⟨c, -, hPacked', -⟩⟩
  · exact .inr (.inl ⟨bins', hPlace, hPacked'⟩)
  · obtain ⟨fuel', q, hFit, hCases⟩ := mpAlloc_small_cases hSize hRun
    rcases hCases with ⟨rfl, hBlock⟩ | ⟨hFound, -⟩
    · exact .inl (hPacked.no_block (hFailed ▸ hBlock))
    · obtain ⟨front, behind, frontBins, windowBins, hCounted, rfl, -, hWindow, hLast⟩ :=
        hPacked.window
      rcases findFit_place (hCounted.chain_window hPacked.chain)
        (hPacked.chain.ne_null_of_mem hCounted.current_mem) hWindow hFit with
        ⟨hNull, -⟩ | ⟨-, bins', hPlace, -⟩
      · exact absurd hNull hFound
      · rw [hLast, hPlace] at hNone
        simp at hNone
  · exact .inr (.inr ⟨hNone, c, hPacked'⟩)

end Requests

/-! ## The account of a run -/

/-- A call that asks for at most `max` bytes, if it asks for memory. -/
def Small (max : Nat) : Op → Prop
  | .alloc n => n ≤ max
  | .calloc n => n ≤ max
  | .memalign _ _ => False
  | .free _ => True
  | .reset => True

instance (max : Nat) (op : Op) : Decidable (Small max op) := by
  induction op using Op.casesOn <;> unfold Small <;> infer_instance

/-- The bytes a call asks for, rounded up. -/
def asked : Op → Nat
  | .alloc n => padded n
  | .calloc n => padded n
  | _ => 0

/-- Requests of `spent` bytes have paid for the blocks behind the first, and for
what the last one holds. -/
structure Account (size max spent : Nat) (s : Pool) (nodes : List Nat) (bins : List Bin)
    (b : Bin) (x : Nat) : Prop where
  packed : Packed size s nodes (bins ++ [b])
  holds : Holds size b x
  paid : (nodes.length - 1) * (size + 1) + x ≤ 2 * spent + 8
  max_eq : s.max = max

/-- The run has kept its account. -/
def Kept (size max spent : Nat) (s : Pool) : Prop :=
  ∃ nodes bins b x, Account size max spent s nodes bins b x

section Accounts

variable {size max m n fuel spent : Nat} {s s' : Pool}

theorem Kept.alloc (hSize : size + (sizeofPool + sizeofNode) < 2 ^ 64)
    (h : Kept size max spent s) (hSmall : n ≤ max) (hRun : mpAlloc fuel s n = some (m, s')) :
    Kept size max (spent + padded n) s' := by
  obtain ⟨nodes, bins, b, x, hPacked, hHolds, hPaid, rfl⟩ := h
  obtain ⟨hMax, hCases⟩ := hPacked.request hSmall hRun
  obtain ⟨hTaken, hOpened⟩ :=
    (loads hSize).opens_one bins n (show 0 < 7 by decide) hHolds
  rcases hCases with hSame | ⟨bins', hPlace, hPacked'⟩ | ⟨hNone, c, hPacked'⟩
  · exact ⟨nodes, bins, b, x, hSame, hHolds, by omega, hMax⟩
  · obtain ⟨front', b', x', rfl, hHolds', hGrows⟩ := hTaken bins' hPlace
    exact ⟨nodes, front', b', x', hPacked', hHolds', by omega, hMax⟩
  · obtain ⟨hHolds', hRoom⟩ := hOpened hNone
    refine ⟨nodes ++ [c], bins ++ [b], openedBin size n, padded n, hPacked', hHolds', ?_, hMax⟩
    have hPos := List.length_pos_of_mem hPacked.head_mem
    have hMore : (nodes ++ [c]).length - 1 = nodes.length - 1 + 1 := by
      rw [List.length_append, List.length_singleton]
      omega
    rw [hMore, Nat.succ_mul]
    omega

/-- The last of the emptied blocks. -/
theorem emptied_last (hSize : size + (sizeofPool + sizeofNode) < 2 ^ 64) {k : Nat} :
    ∃ bins b, emptied size k = bins ++ [b] ∧ Holds size b (if k ≤ 1 then 8 else 0) := by
  unfold emptied
  cases hMore : k - 1 with
  | zero =>
      rw [if_pos (by omega)]
      exact ⟨[], firstBin size, rfl, holds_firstBin hSize⟩
  | succ j =>
      rw [if_neg (by omega), List.replicate_succ', ← List.cons_append]
      exact ⟨_, laterBin size, rfl, holds_laterBin hSize⟩

theorem Kept.reset (hSize : size + (sizeofPool + sizeofNode) < 2 ^ 64)
    (h : Kept size max spent s) (hRun : mpResetPool fuel s = some s') :
    Kept size max spent s' := by
  obtain ⟨nodes, bins, b, x, hPacked, hHolds, hPaid, rfl⟩ := h
  obtain ⟨⟨-, hMax⟩, hEmpty⟩ := hPacked.reset hRun
  obtain ⟨bins', b', hLast, hHolds'⟩ := emptied_last hSize (k := nodes.length)
  rw [hLast] at hEmpty
  refine ⟨nodes, bins', b', _, hEmpty, hHolds', ?_, hMax⟩
  split
  · rename_i hOne
    rw [Nat.sub_eq_zero_of_le hOne]
    omega
  · omega

/-- Without large memory `mp_free` finds nothing. -/
theorem mpFree_of_large_eq {p : Nat} (hLarge : s.large = 0) (hRun : mpFree fuel s p = some s') :
    s' = s := by
  unfold mpFree at hRun
  rw [hLarge] at hRun
  cases fuel with
  | zero => simp [findAlloc] at hRun
  | succ fuel => exact (Option.some.inj hRun).symm

/-- **One call** keeps the account. -/
theorem Kept.call {a : Action} (hSize : size + (sizeofPool + sizeofNode) < 2 ^ 64)
    (h : Kept size max spent s) (hSmall : Small max a.1) (hStep : step s a = some s') :
    Kept size max (spent + asked a.1) s' := by
  obtain ⟨op, fuel⟩ := a
  obtain ⟨⟨m, t⟩, hRun, rfl⟩ := Option.map_eq_some_iff.mp hStep
  cases op with
  | alloc n => exact h.alloc hSize hSmall hRun
  | calloc n => exact h.alloc hSize hSmall hRun
  | memalign n alignment => exact absurd hSmall id
  | free p =>
      obtain ⟨t', hFree, hEq⟩ := Option.map_eq_some_iff.mp hRun
      obtain ⟨nodes, bins, b, x, hAccount⟩ := h
      obtain ⟨-, rfl⟩ := Prod.mk.inj hEq
      obtain rfl := mpFree_of_large_eq hAccount.packed.large_eq hFree
      exact ⟨nodes, bins, b, x, hAccount⟩
  | reset =>
      obtain ⟨t', hReset, hEq⟩ := Option.map_eq_some_iff.mp hRun
      obtain ⟨-, rfl⟩ := Prod.mk.inj hEq
      exact h.reset hSize hReset

/-- A run keeps the account, with all its requests. -/
theorem Kept.calls {trace : List Action} (hSize : size + (sizeofPool + sizeofNode) < 2 ^ 64)
    (h : Kept size max spent s) (hSmall : ∀ a ∈ trace, Small max a.1)
    (hRun : run step s trace = some s') :
    Kept size max (spent + (trace.map fun a => asked a.1).sum) s' := by
  induction trace generalizing s spent with
  | nil =>
      obtain rfl := Option.some.inj hRun
      exact h
  | cons a trace ih =>
      obtain ⟨hHere, hRest⟩ := List.forall_mem_cons.mp hSmall
      rw [run_cons] at hRun
      obtain ⟨t, hStep, hRun'⟩ := Option.bind_eq_some_iff.mp hRun
      rw [List.map_cons, List.sum_cons, ← Nat.add_assoc]
      exact ih (h.call hSize hHere hStep) hRest hRun'

end Accounts

/-- **The blocks behind the first one are half full at least**: twice the padded
bytes of all requests of a run, and 8 more, pay for `size + 1` bytes of each.
This holds for every run of requests of at most `max` bytes and resets, with any
failures of the system, and whatever has been taken behind the end of a block. -/
theorem blocks_bounded {size : Nat} {node : Nat → MpNode} {header : Nat → MpLarge}
    {answer : Nat → Nat} {s₀ s : Pool} {trace : List Action}
    (hSize : size + (sizeofPool + sizeofNode) < 2 ^ 64)
    (hCreate : mpCreatePool (Heap.start node header answer) size = some s₀)
    (hNull : (s₀.node s₀.head).next = 0) (hSmall : ∀ a ∈ trace, Small s₀.max a.1)
    (hRun : run step s₀ trace = some s) :
    ∃ k, s.HasBlocks (k + 1) ∧
      k * (size + 1) ≤ 2 * (trace.map fun a => asked a.1).sum + 8 := by
  have hStart : Kept size s₀.max 0 s₀ :=
    ⟨[s₀.head], [], firstBin size, 8, mpCreatePool_packed hSize hCreate hNull,
      holds_firstBin hSize, by simp, rfl⟩
  obtain ⟨nodes, bins, b, x, hPacked, -, hPaid, -⟩ := hStart.calls hSize hSmall hRun
  have hPos := List.length_pos_of_mem hPacked.head_mem
  refine ⟨nodes.length - 1, ⟨nodes, hPacked.chain, by omega⟩, ?_⟩
  rw [Nat.zero_add] at hPaid
  exact Nat.le_trans (Nat.le_add_right _ x) hPaid

/-- The calls of `main` up to `max` bytes. -/
def mainCalls : List Action :=
  List.replicate 10 (.alloc 512, 9) ++ List.replicate 5 (.calloc 32, 9) ++ [(.reset, 9)] ++
    List.replicate 58 (.alloc 256, 9)

/-- The pool of `main` behind them. -/
def mainUsed : Pool := (run step mainPool mainCalls).get (by decide +kernel)

theorem mainPool_used : run step mainPool mainCalls = some mainUsed := by
  simp [mainUsed]

theorem blocks_bounded_mainPool : ∃ k, mainUsed.HasBlocks (k + 1) ∧ k ≤ 9 := by
  have hSmall : ∀ a ∈ mainCalls, Small mainPool.max a.1 := by decide +kernel
  have hAsked : (mainCalls.map fun a => asked a.1).sum = 20128 := by decide +kernel
  obtain ⟨k, hBlocks, hBound⟩ :=
    blocks_bounded (by decide) mainPool_created (by decide) hSmall mainPool_used
  rw [hAsked] at hBound
  exact ⟨k, hBlocks, by omega⟩

/-! ## Rounds -/

/-- In each round a list of requests, and `mp_reset_pool` behind them. -/
def mpRounds (fuel : Nat) : Pool → List (List Nat) → Option (List (List Nat) × Pool)
  | s, [] => some ([], s)
  | s, requests :: rounds =>
      match mpAllocs fuel s requests with
      | none => none
      | some (ms, s) =>
          match mpResetPool fuel s with
          | none => none
          | some s =>
              match mpRounds fuel s rounds with
              | none => none
              | some (mss, s) => some (ms :: mss, s)

/-- The blocks that the requests need on a new pool. -/
def firstRound (size : Nat) (requests : List Nat) : Nat :=
  (fill Bin.put 7 (openedBin size) [firstBin size] requests).length

/-- The blocks that they open when seven empty ones behind the first are in
reach. -/
def furtherRound (size : Nat) (requests : List Nat) : Nat :=
  (fill Bin.put 7 (openedBin size) (List.replicate 7 (laterBin size)) requests).length - 7

/-- The blocks that every round but the first adds. -/
def addedBlocks (size : Nat) (requests : List Nat) : Nat :=
  if firstRound size requests ≤ 7 then 0 else furtherRound size requests

section Rounds

variable {size fuel : Nat} {s s' : Pool} {nodes requests : List Nat} {ms : List Nat}
  {mss rounds : List (List Nat)}

theorem mpRounds_cons (hRun : mpRounds fuel s (requests :: rounds) = some (mss, s')) :
    ∃ ms t t' mss', mpAllocs fuel s requests = some (ms, t) ∧ mpResetPool fuel t = some t' ∧
      mpRounds fuel t' rounds = some (mss', s') ∧ mss = ms :: mss' := by
  rw [mpRounds] at hRun
  split at hRun
  · simp at hRun
  · rename_i ms t hAllocs
    split at hRun
    · simp at hRun
    · rename_i t' hReset
      split at hRun
      · simp at hRun
      · rename_i mss' t'' hRest
        obtain ⟨rfl, rfl⟩ := Prod.mk.inj (Option.some.inj hRun)
        exact ⟨ms, t, t', mss', hAllocs, hReset, hRest, rfl⟩

/-- **One round** on emptied blocks leaves emptied blocks, with those that first
fit has opened. -/
theorem Packed.round (hPacked : Packed size s nodes (emptied size nodes.length))
    (hSmall : ∀ n ∈ requests, n ≤ s.max) (hRun : mpAllocs fuel s requests = some (ms, s'))
    (hServed : ∀ m ∈ ms, m ≠ 0) {t : Pool} (hReset : mpResetPool fuel s' = some t) :
    ∃ nodes', t.max = s.max ∧ Packed size t nodes' (emptied size nodes'.length) ∧
      nodes'.length =
        (FirstFit.fill Bin.put 7 (openedBin size) (emptied size nodes.length) requests).length := by
  have hPos := List.length_pos_of_mem hPacked.head_mem
  obtain ⟨nodes', ⟨-, hMax⟩, hFilled, -⟩ :=
    hPacked.fill hSmall hRun hServed (clear_emptied hPos)
  obtain ⟨⟨-, hMax'⟩, hEmpty⟩ := hFilled.reset hReset
  exact ⟨nodes', hMax'.trans hMax, hEmpty, hFilled.shows.length_eq⟩

/-- Of more than seven emptied blocks, seven are in reach. -/
theorem fill_emptied {k : Nat} (hMany : 7 < k) :
    (fill Bin.put 7 (openedBin size) (emptied size k) requests).length =
      k + furtherRound size requests := by
  have hSplit : emptied size k = emptied size (k - 7) ++ List.replicate 7 (laterBin size) := by
    unfold emptied
    rw [List.cons_append, ← List.replicate_add, show k - 7 - 1 + 7 = k - 1 by omega]
  have hFront : (emptied size (k - 7)).length = k - 7 := by
    rw [emptied, List.length_cons, List.length_replicate]
    omega
  have hGrows : (List.replicate 7 (laterBin size)).length ≤
      (fill Bin.put 7 (openedBin size) (List.replicate 7 (laterBin size)) requests).length :=
    length_le_fill
  rw [List.length_replicate] at hGrows
  rw [hSplit, fill_append (by simp), List.length_append, hFront, furtherRound]
  omega

/-- The blocks of the first round are enough for a further one, or there are more
than seven of them. -/
theorem fill_further (hSize : size + (sizeofPool + sizeofNode) < 2 ^ 64)
    (hSmall : ∀ n ∈ requests, n ≤ size) {k : Nat} (hLeast : firstRound size requests ≤ k)
    (hExact : firstRound size requests ≤ 7 → k = firstRound size requests) :
    (fill Bin.put 7 (openedBin size) (emptied size k) requests).length =
      k + addedBlocks size requests := by
  unfold addedBlocks
  by_cases hFew : firstRound size requests ≤ 7
  · have hNew : ∀ n ∈ requests, (laterBin size).put n = some (openedBin size n) :=
      fun n hMem => laterBin_put (hSmall n hMem) hSize
    rw [if_pos hFew, hExact hFew]
    exact congrArg List.length (fill_again hNew hFew)
  · rw [if_neg hFew]
    exact fill_emptied (by omega)

/-- Further rounds of the same requests. -/
theorem Packed.further (hSize : size + (sizeofPool + sizeofNode) < 2 ^ 64) {r : Nat}
    (hPacked : Packed size s nodes (emptied size nodes.length))
    (hSmall : ∀ n ∈ requests, n ≤ s.max)
    (hLeast : firstRound size requests ≤ nodes.length)
    (hExact : firstRound size requests ≤ 7 → nodes.length = firstRound size requests)
    (hRun : mpRounds fuel s (List.replicate r requests) = some (mss, s'))
    (hServed : ∀ ms ∈ mss, ∀ m ∈ ms, m ≠ 0) :
    s'.HasBlocks (nodes.length + r * addedBlocks size requests) := by
  induction r generalizing s nodes mss with
  | zero =>
      obtain ⟨-, rfl⟩ := Prod.mk.inj (Option.some.inj hRun)
      exact ⟨nodes, hPacked.chain, by simp⟩
  | succ r ih =>
      obtain ⟨ms, t, t', mss', hAllocs, hReset, hRest, rfl⟩ := mpRounds_cons hRun
      obtain ⟨hHere, hServed'⟩ := List.forall_mem_cons.mp hServed
      obtain ⟨nodes', hMax, hPacked', hLength⟩ := hPacked.round hSmall hAllocs hHere hReset
      have hFit : ∀ n ∈ requests, n ≤ size :=
        fun n hMem => Nat.le_trans (hSmall n hMem) hPacked.max_le
      rw [fill_further hSize hFit hLeast hExact] at hLength
      have hStays : firstRound size requests ≤ 7 → addedBlocks size requests = 0 :=
        fun hFew => if_pos hFew
      have hMore := ih hPacked' (hMax.symm ▸ hSmall) (by omega)
        (fun hFew => by rw [hLength, hStays hFew, hExact hFew, Nat.add_zero]) hRest hServed'
      have hSum : nodes'.length + r * addedBlocks size requests =
          nodes.length + (r + 1) * addedBlocks size requests := by
        rw [hLength, Nat.add_assoc, Nat.add_comm (addedBlocks size requests), ← Nat.succ_mul]
      exact hSum ▸ hMore

end Rounds

/-- **The same requests in each round**: on a new pool of which every request is
served, the first round makes `firstRound` blocks and each further one adds
`addedBlocks`: none if the first makes at most seven, and else those for which
the seven empty blocks that are in reach have no room. -/
theorem rounds_add_blocks {size fuel r : Nat} {node : Nat → MpNode} {header : Nat → MpLarge}
    {answer : Nat → Nat} {s₀ s : Pool} {requests : List Nat} {mss : List (List Nat)}
    (hSize : size + (sizeofPool + sizeofNode) < 2 ^ 64)
    (hCreate : mpCreatePool (Heap.start node header answer) size = some s₀)
    (hNull : (s₀.node s₀.head).next = 0) (hSmall : ∀ n ∈ requests, n ≤ s₀.max)
    (hRun : mpRounds fuel s₀ (List.replicate (r + 1) requests) = some (mss, s))
    (hServed : ∀ ms ∈ mss, ∀ m ∈ ms, m ≠ 0) :
    s.HasBlocks (firstRound size requests + r * addedBlocks size requests) := by
  have hNew : Packed size s₀ [s₀.head] (emptied size [s₀.head].length) :=
    mpCreatePool_packed hSize hCreate hNull
  obtain ⟨ms, t, t', mss', hAllocs, hReset, hRest, rfl⟩ := mpRounds_cons hRun
  obtain ⟨hHere, hServed'⟩ := List.forall_mem_cons.mp hServed
  obtain ⟨nodes, hMax, hEmpty, hLength⟩ := hNew.round hSmall hAllocs hHere hReset
  have hFirst : nodes.length = firstRound size requests := hLength
  rw [← hFirst]
  exact hEmpty.further hSize (hMax.symm ▸ hSmall) (Nat.le_of_eq hFirst.symm) (fun _ => hFirst)
    hRest hServed'

theorem rounds_eq_some_get {r : Option (List (List Nat) × Pool)} (h : r.isSome) :
    r = some ((r.get h).1, (r.get h).2) :=
  (Option.some_get h).symm

/-- The pool of 32 bytes, of which eight requests of 32 make nine blocks, one
more in each further round: eleven behind the third. -/
def tightRounds : List (List Nat) × Pool :=
  (mpRounds 16 tightPool (List.replicate 3 tightRequests)).get (by decide +kernel)

theorem tightPool_rounds :
    mpRounds 16 tightPool (List.replicate 3 tightRequests) =
      some (tightRounds.1, tightRounds.2) := by
  unfold tightRounds
  exact rounds_eq_some_get _

theorem rounds_add_blocks_tightPool : tightRounds.2.HasBlocks 11 := by
  have hServed : ∀ ms ∈ tightRounds.1, ∀ m ∈ ms, m ≠ 0 := by decide +kernel
  have hCreate : mpCreatePool zeroedHeap 32 = some tightPool := by simp [tightPool]
  have hCount : firstRound 32 tightRequests + 2 * addedBlocks 32 tightRequests = 11 := by
    decide +kernel
  have hBlocks := rounds_add_blocks (by decide) hCreate (by decide) (by decide)
    tightPool_rounds hServed
  rwa [hCount] at hBlocks

end MemPool
end LinuxCppLearn
