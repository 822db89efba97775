import LinuxCppLearn.MemPool.AnySystem
import LinuxCppLearn.MemPool.Fuel

/-!
# When `mp_alloc` returns

`mp_alloc` and `mp_alloc_large` call each other: memory for a large request
needs a header, and the header is requested from `mp_alloc` again.  In a pool
with room for a header that request is a small one and the recursion ends there,
whatever the system answers.  In a pool of less than 16 bytes it is a large one,
so that the recursion goes on until a `malloc` fails; over a system which never
fails it goes on for ever.

* `mallocResult` — the answers to the `malloc`s of such a recursion.
* `mpAlloc_isSome_iff` — the recursion ends exactly at the first that fails.
* `tiny_reach` — a pool too small for a header stays one, over any system.
* `mp_alloc_terminates_exactly` — both kinds of pools, in every state reached.
-/

namespace LinuxCppLearn
namespace MemPool

open StepSystem

namespace OnSystem

/-- A pool too small for a header, and without one. -/
structure Tiny (s : Pool σ) : Prop where
  max_lt : s.max < sizeofLarge
  large_eq : s.large = 0

/-- The answer to the `k`-th `malloc`, when the one of `n` bytes is followed by
one for a header again and again. -/
def mallocResult {σ : Type} (sys : System σ) : Nat → σ → Nat → Nat
  | 0, w, n => (sys.malloc w n).1
  | k + 1, w, n => mallocResult sys k (sys.malloc w n).2 sizeofLarge

variable {σ : Type} {sys : System σ} {s s' s₀ : Pool σ} {fuel m n p : Nat}

/-! ## The recursion in a pool too small for a header -/

theorem attachLarge_isSome_iff {alloc : Pool σ → Nat → Option (Nat × Pool σ)} :
    (attachLarge sys alloc s p).isSome ↔ (alloc s sizeofLarge).isSome := by
  unfold attachLarge
  cases alloc s sizeofLarge with
  | none => exact Iff.rfl
  | some r =>
      simp only
      split
      · exact Iff.rfl
      · exact Iff.rfl

/-- A request beyond `max` is a `malloc`, and a request for a header if that
succeeds. -/
theorem mpAlloc_large (hTiny : Tiny s) (hSize : s.max < n) :
    mpAlloc sys (fuel + 1) s n =
      if (sys.malloc s.system n).1 = 0 then
        some (0, { s with system := (sys.malloc s.system n).2 })
      else
        attachLarge sys (mpAlloc sys fuel) { s with system := (sys.malloc s.system n).2 }
          (sys.malloc s.system n).1 := by
  have hNoSlot : freeSlot s.header 5 s.large = none := by
    rw [hTiny.large_eq]
    exact freeSlot_null s.header 5
  rw [mpAlloc, if_neg (Nat.not_le_of_lt hSize), mpAllocLarge]
  simp only [hNoSlot]

/-- **The recursion ends** with the first `malloc` that fails, and only there. -/
theorem mpAlloc_isSome_iff (hTiny : Tiny s) (hSize : s.max < n) :
    (mpAlloc sys fuel s n).isSome ↔ ∃ k < fuel, mallocResult sys k s.system n = 0 := by
  induction fuel generalizing s n with
  | zero => simp [mpAlloc]
  | succ fuel ih =>
      rw [mpAlloc_large hTiny hSize]
      by_cases hNull : (sys.malloc s.system n).1 = 0
      · rw [if_pos hNull]
        exact iff_of_true rfl ⟨0, Nat.succ_pos fuel, hNull⟩
      · have hTiny' : Tiny { s with system := (sys.malloc s.system n).2 } :=
          ⟨hTiny.max_lt, hTiny.large_eq⟩
        rw [if_neg hNull, attachLarge_isSome_iff, ih hTiny' hTiny'.max_lt]
        constructor
        · rintro ⟨k, hLess, hFails⟩
          exact ⟨k + 1, Nat.succ_lt_succ hLess, hFails⟩
        · rintro ⟨k, hLess, hFails⟩
          cases k with
          | zero => exact absurd hFails hNull
          | succ k => exact ⟨k, Nat.lt_of_succ_lt_succ hLess, hFails⟩

/-- What comes back is `NULL`, and the pool has no header then either. -/
theorem mpAlloc_large_fails (hTiny : Tiny s) (hSize : s.max < n)
    (hRun : mpAlloc sys fuel s n = some (m, s')) :
    m = 0 ∧ s'.max = s.max ∧ s'.large = 0 := by
  induction fuel generalizing s n m s' with
  | zero => simp [mpAlloc] at hRun
  | succ fuel ih =>
      rw [mpAlloc_large hTiny hSize] at hRun
      split at hRun
      · obtain ⟨rfl, rfl⟩ := Prod.mk.inj (Option.some.inj hRun)
        exact ⟨rfl, rfl, hTiny.large_eq⟩
      · unfold attachLarge at hRun
        split at hRun
        · simp at hRun
        · rename_i l t hHeader
          have hTiny' : Tiny { s with system := (sys.malloc s.system n).2 } :=
            ⟨hTiny.max_lt, hTiny.large_eq⟩
          obtain ⟨rfl, hMax, hLarge⟩ := ih hTiny' hTiny'.max_lt hHeader
          obtain ⟨rfl, rfl⟩ := Prod.mk.inj (Option.some.inj hRun)
          exact ⟨rfl, hMax, hLarge⟩

/-! ## Over runs -/

theorem mpAllocBlock_keeps (hRun : mpAllocBlock sys fuel s n = some (m, s')) :
    s'.max = s.max ∧ s'.large = s.large := by
  unfold mpAllocBlock at hRun
  simp only at hRun
  split at hRun
  · obtain ⟨_, rfl⟩ := Prod.mk.inj (Option.some.inj hRun)
    exact ⟨rfl, rfl⟩
  · split at hRun
    · simp at hRun
    · obtain ⟨_, rfl⟩ := Prod.mk.inj (Option.some.inj hRun)
      exact ⟨rfl, rfl⟩

theorem mpAlloc_keeps (hTiny : Tiny s) (hRun : mpAlloc sys fuel s n = some (m, s')) :
    s'.max = s.max ∧ s'.large = 0 := by
  by_cases hSize : n ≤ s.max
  · cases fuel with
    | zero => simp [mpAlloc] at hRun
    | succ fuel =>
        rw [mpAlloc, if_pos hSize] at hRun
        split at hRun
        · simp at hRun
        · split at hRun
          · obtain ⟨_, rfl⟩ := Prod.mk.inj (Option.some.inj hRun)
            exact ⟨rfl, hTiny.large_eq⟩
          · obtain ⟨hMax, hLarge⟩ := mpAllocBlock_keeps hRun
            exact ⟨hMax, hLarge.trans hTiny.large_eq⟩
  · exact (mpAlloc_large_fails hTiny (Nat.lt_of_not_le hSize) hRun).2

theorem mpMemalign_keeps {alignment : Nat} (hTiny : Tiny s)
    (hRun : mpMemalign sys fuel s n alignment = some (m, s')) :
    s'.max = s.max ∧ s'.large = 0 := by
  unfold mpMemalign at hRun
  simp only at hRun
  split at hRun
  · obtain ⟨_, rfl⟩ := Prod.mk.inj (Option.some.inj hRun)
    exact ⟨rfl, hTiny.large_eq⟩
  · unfold attachLarge at hRun
    split at hRun
    · simp at hRun
    · rename_i l t hHeader
      -- the header is too large for the pool
      have hTiny' : Tiny { s with system := (sys.posixMemalign s.system alignment n).2 } :=
        ⟨hTiny.max_lt, hTiny.large_eq⟩
      obtain ⟨rfl, hMax, hLarge⟩ := mpAlloc_large_fails hTiny' hTiny'.max_lt hHeader
      obtain ⟨_, rfl⟩ := Prod.mk.inj (Option.some.inj hRun)
      exact ⟨hMax, hLarge⟩

theorem mpFree_keeps (hRun : mpFree sys fuel s p = some s') :
    s'.max = s.max ∧ s'.large = s.large := by
  unfold mpFree at hRun
  split at hRun
  · simp at hRun
  · split at hRun
    · obtain rfl := Option.some.inj hRun
      exact ⟨rfl, rfl⟩
    · obtain rfl := Option.some.inj hRun
      exact ⟨rfl, rfl⟩

theorem mpResetPool_keeps (hRun : mpResetPool sys fuel s = some s') :
    s'.max = s.max ∧ s'.large = 0 := by
  unfold mpResetPool at hRun
  split at hRun
  · simp at hRun
  · split at hRun
    · simp at hRun
    · obtain rfl := Option.some.inj hRun
      exact ⟨rfl, rfl⟩

/-- **One call** leaves a pool too small for a header without one. -/
theorem exec_keeps {op : Op} (hTiny : Tiny s) (hRun : exec sys fuel s op = some (m, s')) :
    s'.max = s.max ∧ s'.large = 0 := by
  cases op with
  | alloc n => exact mpAlloc_keeps hTiny hRun
  | calloc n => exact mpAlloc_keeps hTiny hRun
  | memalign n alignment => exact mpMemalign_keeps hTiny hRun
  | free p =>
      obtain ⟨t, hFree, hEq⟩ := Option.map_eq_some_iff.mp hRun
      obtain ⟨_, rfl⟩ := Prod.mk.inj hEq
      obtain ⟨hMax, hLarge⟩ := mpFree_keeps hFree
      exact ⟨hMax, hLarge.trans hTiny.large_eq⟩
  | reset =>
      obtain ⟨t, hReset, hEq⟩ := Option.map_eq_some_iff.mp hRun
      obtain ⟨_, rfl⟩ := Prod.mk.inj hEq
      exact mpResetPool_keeps hReset

theorem mpCreatePool_tiny {node : Nat → MpNode} {header : Nat → MpLarge} {w : σ} {size : Nat}
    (hSize : size < sizeofLarge) (hCreate : mpCreatePool sys node header w size = some s) :
    s.max = size ∧ s.large = 0 := by
  have hPage : size < mpMaxAllocFromPool := Nat.lt_trans hSize (by decide)
  unfold mpCreatePool at hCreate
  simp only at hCreate
  split at hCreate
  · simp at hCreate
  · obtain rfl := Option.some.inj hCreate
    exact ⟨rfl, rfl⟩

/-- **Every run** leaves a pool too small for a header without one. -/
theorem tiny_reach {size : Nat} (hSize : size < sizeofLarge)
    (hInit : s₀.max = size ∧ s₀.large = 0) (hReach : Reachable (step sys) s₀ s) :
    s.max = size ∧ s.large = 0 := by
  refine hReach.invariant (P := fun s => s.max = size ∧ s.large = 0) hInit ?_
  rintro s a s' ⟨hMax, hLarge⟩ _ hStep
  obtain ⟨⟨m, t⟩, hRun, rfl⟩ := Option.map_eq_some_iff.mp hStep
  obtain ⟨hMax', hLarge'⟩ := exec_keeps ⟨hMax ▸ hSize, hLarge⟩ hRun
  exact ⟨hMax'.trans hMax, hLarge'⟩

/-- The pool asked for more than it serves itself. -/
theorem mpAlloc_returns_iff (sys : System σ) (hTiny : Tiny s) (hSize : s.max < n) :
    (∃ fuel r, mpAlloc sys fuel s n = some r) ↔ ∃ k, mallocResult sys k s.system n = 0 := by
  constructor
  · rintro ⟨fuel, r, hRun⟩
    obtain ⟨k, _, hFails⟩ := (mpAlloc_isSome_iff hTiny hSize).mp (by rw [hRun]; rfl)
    exact ⟨k, hFails⟩
  · rintro ⟨k, hFails⟩
    have hSome := (mpAlloc_isSome_iff hTiny hSize).mpr ⟨k, Nat.lt_succ_self k, hFails⟩
    exact ⟨k + 1, Option.isSome_iff_exists.mp hSome⟩

theorem mpMemalign_returns_iff {alignment : Nat} (hTiny : Tiny s) :
    (∃ fuel r, mpMemalign sys fuel s n alignment = some r) ↔
      (sys.posixMemalign s.system alignment n).1 = 0 ∨
        ∃ k, mallocResult sys k (sys.posixMemalign s.system alignment n).2 sizeofLarge = 0 := by
  have hTiny' : Tiny { s with system := (sys.posixMemalign s.system alignment n).2 } :=
    ⟨hTiny.max_lt, hTiny.large_eq⟩
  have hHeader := mpAlloc_returns_iff sys hTiny' hTiny'.max_lt
  by_cases hNull : (sys.posixMemalign s.system alignment n).1 = 0
  · have hFails : mpMemalign sys 0 s n alignment =
        some (0, { s with system := (sys.posixMemalign s.system alignment n).2 }) := by
      unfold mpMemalign
      simp only
      exact if_pos hNull
    exact iff_of_true ⟨0, _, hFails⟩ (.inl hNull)
  · have hAttach : ∀ fuel, mpMemalign sys fuel s n alignment =
        attachLarge sys (mpAlloc sys fuel)
          { s with system := (sys.posixMemalign s.system alignment n).2 }
          (sys.posixMemalign s.system alignment n).1 := by
      intro fuel
      unfold mpMemalign
      simp only
      exact if_neg hNull
    rw [or_iff_right hNull, ← hHeader]
    simp only [hAttach, ← Option.isSome_iff_exists, attachLarge_isSome_iff]

end OnSystem

/-! ## Every pool -/

/-- The invariant does not depend on what the system will answer. -/
theorem inv_answers {size : Nat} {s : Pool} {nodes larges pending : List Nat}
    (hInv : Inv size s nodes larges pending) (answer : Nat → Nat) :
    Inv size { s with answer := answer } nodes larges pending :=
  { hInv with chain := hInv.chain }

/-- **Termination and its exact condition.**  In a run whose searches stay
inside, in a pool with room for a header every request returns, and in any pool
every request it serves itself, within a bound for all further answers of the
system.  In a pool with less room a larger request returns if and only if one of
the `malloc`s fails that follow each other then, in every run over any system. -/
theorem mp_alloc_terminates_exactly {size : Nat}
    (hSize : size + (sizeofPool + sizeofNode) < 2 ^ 64) :
    (∀ (node : Nat → MpNode) (header : Nat → MpLarge) (answer : Nat → Nat) (s₀ s : Pool),
      mpCreatePool (Heap.start node header answer) size = some s₀ →
      (s₀.node s₀.head).next = 0 → Reach step StaysInside s₀ s →
      ∃ least, ∀ answer' fuel, least ≤ fuel →
        (∀ n, sizeofLarge ≤ size ∨ n ≤ size →
          (∃ r, mpAlloc fuel { s with answer := answer' } n = some r) ∧
            ∃ r, mpCalloc fuel { s with answer := answer' } n = some r) ∧
        (sizeofLarge ≤ size → ∀ n alignment,
          ∃ r, mpMemalign fuel { s with answer := answer' } n alignment = some r)) ∧
    ∀ (σ : Type) (sys : OnSystem.System σ) (node : Nat → MpNode) (header : Nat → MpLarge) (w : σ)
      (s₀ s : OnSystem.Pool σ), OnSystem.mpCreatePool sys node header w size = some s₀ →
      Reachable (OnSystem.step sys) s₀ s → size < sizeofLarge →
        (∀ n, size < n →
          ((∃ fuel r, OnSystem.mpAlloc sys fuel s n = some r) ↔
            ∃ k, OnSystem.mallocResult sys k s.system n = 0) ∧
          ((∃ fuel r, OnSystem.mpCalloc sys fuel s n = some r) ↔
            ∃ k, OnSystem.mallocResult sys k s.system n = 0)) ∧
        ∀ n alignment, (∃ fuel r, OnSystem.mpMemalign sys fuel s n alignment = some r) ↔
          (sys.posixMemalign s.system alignment n).1 = 0 ∨
            ∃ k, OnSystem.mallocResult sys k (sys.posixMemalign s.system alignment n).2
              sizeofLarge = 0 := by
  constructor
  · intro node header answer s₀ s hCreate hNull hReach
    obtain ⟨nodes, larges, hInv⟩ := inv_reach ⟨_, _, mpCreatePool_inv hSize hCreate hNull⟩ hReach
    have hMax := hInv.max_eq
    have hPage : sizeofLarge ≤ mpMaxAllocFromPool := by decide
    refine ⟨nodes.length + 3, fun answer' fuel hFuel => ?_⟩
    have hInv' := inv_answers hInv answer'
    constructor
    · intro n hCase
      have hReturns : ∃ r, mpAlloc fuel { s with answer := answer' } n = some r := by
        rcases hCase with hRoom | hSmall
        · exact mpAlloc_returns hInv' (show sizeofLarge ≤ s.max by split at hMax <;> omega)
            (by omega)
        · by_cases hRoom : sizeofLarge ≤ size
          · exact mpAlloc_returns hInv' (show sizeofLarge ≤ s.max by split at hMax <;> omega)
              (by omega)
          · exact mpAlloc_small_returns hInv' (show n ≤ s.max by split at hMax <;> omega)
              (by omega)
      exact ⟨hReturns, hReturns⟩
    · intro hRoom n alignment
      exact mpMemalign_returns hInv' (show sizeofLarge ≤ s.max by split at hMax <;> omega)
        (by omega)
  · intro σ sys node header w s₀ s hCreate hReach hTiny
    obtain ⟨hMax, hLarge⟩ :=
      OnSystem.tiny_reach hTiny (OnSystem.mpCreatePool_tiny hTiny hCreate) hReach
    have hTiny' : OnSystem.Tiny s := ⟨hMax ▸ hTiny, hLarge⟩
    constructor
    · intro n hLess
      have hIff := OnSystem.mpAlloc_returns_iff sys hTiny' (hMax ▸ hLess)
      exact ⟨hIff, hIff⟩
    · intro n alignment
      exact OnSystem.mpMemalign_returns_iff hTiny'

/-- A system that hands out one address after another and never fails but for
an alignment that `posix_memalign` refuses; its state is the last address used. -/
def boundlessSystem : OnSystem.System Nat where
  posixMemalign w alignment size :=
    if (alignment ≠ 0 ∧ alignment % 8 = 0) ∧ alignment &&& (alignment - 1) = 0 then
      let p := (w / alignment + 1) * alignment
      (p, p + size)
    else (0, w)
  malloc w size := ((w / 16 + 1) * 16, (w / 16 + 1) * 16 + size)
  free w _ := w

theorem boundlessSystem_malloc (w n : Nat) : (boundlessSystem.malloc w n).1 ≠ 0 :=
  Nat.mul_ne_zero (Nat.succ_ne_zero _) (by decide)

theorem mallocResult_boundless (k w n : Nat) :
    OnSystem.mallocResult boundlessSystem k w n ≠ 0 := by
  induction k generalizing w n with
  | zero => exact boundlessSystem_malloc w n
  | succ k ih => exact ih _ _

/-- A pool of eight bytes in zeroed memory, over the system that never fails. -/
def tinyPool : OnSystem.Pool Nat :=
  (OnSystem.mpCreatePool boundlessSystem (fun _ => ⟨0, 0, 0, 0⟩) (fun _ => ⟨0, 0⟩) 0 8).get
    (by decide)

theorem tinyPool_created :
    OnSystem.mpCreatePool boundlessSystem (fun _ => ⟨0, 0, 0, 0⟩) (fun _ => ⟨0, 0⟩) 0 8 =
      some tinyPool := by
  simp [tinyPool]

theorem tinyPool_tiny : OnSystem.Tiny tinyPool :=
  ⟨by decide, by decide⟩

/-- A new pool of eight bytes, over a system whose `malloc` never fails: a
request of nine bytes uses up every fuel. -/
theorem mp_alloc_never_returns :
    (∀ w n, (boundlessSystem.malloc w n).1 ≠ 0) ∧
      OnSystem.mpCreatePool boundlessSystem (fun _ => ⟨0, 0, 0, 0⟩) (fun _ => ⟨0, 0⟩) 0 8 =
        some tinyPool ∧
      (tinyPool.node tinyPool.head).next = 0 ∧
      ∀ fuel, OnSystem.mpAlloc boundlessSystem fuel tinyPool 9 = none := by
  refine ⟨boundlessSystem_malloc, tinyPool_created, by decide, ?_⟩
  intro fuel
  by_contra hSome
  obtain ⟨r, hRun⟩ := Option.ne_none_iff_exists'.mp hSome
  obtain ⟨k, hFails⟩ :=
    (OnSystem.mpAlloc_returns_iff boundlessSystem tinyPool_tiny (by decide)).mp ⟨fuel, r, hRun⟩
  exact mallocResult_boundless k _ _ hFails

/-- Over the answers of `zeroedHeap`, a pool of eight bytes answers a request of
eight; over the system that never fails it never answers one of nine. -/
theorem mp_alloc_terminates_exactly_eight :
    (∃ s₀ least, mpCreatePool zeroedHeap 8 = some s₀ ∧ ∃ r, mpAlloc least s₀ 8 = some r) ∧
      ¬ ∃ fuel r, OnSystem.mpAlloc boundlessSystem fuel tinyPool 9 = some r := by
  obtain ⟨hServed, hEndless⟩ := mp_alloc_terminates_exactly (show 8 + (24 + 32) < 2 ^ 64 by decide)
  constructor
  · let s₀ := (mpCreatePool zeroedHeap 8).get (by decide)
    have hCreate : mpCreatePool zeroedHeap 8 = some s₀ := by simp [s₀]
    obtain ⟨least, hLeast⟩ := hServed _ _ _ s₀ s₀ hCreate (by decide) Reach.start
    exact ⟨s₀, least, hCreate, ((hLeast s₀.answer least (Nat.le_refl _)).1 8 (.inr (by decide))).1⟩
  · intro hReturns
    obtain ⟨hAlloc, _⟩ :=
      hEndless Nat boundlessSystem _ _ _ tinyPool tinyPool tinyPool_created Reach.start (by decide)
    obtain ⟨k, hFails⟩ := ((hAlloc 9 (by decide)).1).mp hReturns
    exact mallocResult_boundless k _ _ hFails

end MemPool
end LinuxCppLearn
