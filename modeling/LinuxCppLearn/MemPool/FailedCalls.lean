import LinuxCppLearn.MemPool.Bytes
import LinuxCppLearn.MemPool.Changes

/-!
# A failed allocation leaves the pool as it was

A large allocation obtains its memory first and then a header through `mp_alloc`,
which may itself carve, ask for a block, or, in a pool too small for a header,
ask for a large allocation again.  As soon as one call to the system fails,
`NULL` goes up through all of them, each gives back its own memory, and none has
written anything yet.

* `Untouched` — the memory, and what the pool holds of the system's, are the same.
* `Outcome` — either no call to the system failed, or the result is `NULL` and
  the pool is untouched.
* `failed_call_leaves_pool` — every call to the pool has an outcome.
-/

namespace LinuxCppLearn
namespace MemPool

open Regions

/-- `posix_memalign` or `malloc` has failed. -/
def SysCall.Failed : SysCall → Prop
  | .posixMemalign _ _ result => result = 0
  | .malloc _ result => result = 0
  | .free _ => False

instance (call : SysCall) : Decidable call.Failed := by
  cases call with
  | posixMemalign alignment size result => exact inferInstanceAs (Decidable (result = 0))
  | malloc size result => exact inferInstanceAs (Decidable (result = 0))
  | free p => exact inferInstanceAs (Decidable False)

namespace Bytes

open ByteMemory

/-- Between `f` and `f'` the calls `made` have been made to the system. -/
def Made (f f' : Pool) (made : List SysCall) : Prop :=
  f'.calls = made ++ f.calls

/-- A call to the system has failed between `f` and `f'`. -/
def SomeFailed (f f' : Pool) : Prop :=
  ∃ made, Made f f' made ∧ ∃ call ∈ made, call.Failed

/-- The memory is the same, with every structure in it, and so is what the pool
has obtained and not given back. -/
structure Untouched (f f' : Pool) : Prop where
  mem_eq : f'.mem = f.mem
  addr_eq : f'.addr = f.addr
  live_eq : f'.live.regions = f.live.regions

/-- What a call has come to: no call to the system failed, or it answered `NULL`. -/
def Outcome (f : Pool) (m : Nat) (f' : Pool) : Prop :=
  ∃ made, Made f f' made ∧ ((∀ call ∈ made, ¬ call.Failed) ∨ (m = 0 ∧ Untouched f f'))

variable {f f' g : Pool} {alignment m n p fuel : Nat} {call : Nat → SysCall} {t : Heap}

theorem Untouched.trans (h : Untouched f g) (h' : Untouched g f') : Untouched f f' :=
  ⟨h'.mem_eq.trans h.mem_eq, h'.addr_eq.trans h.addr_eq, h'.live_eq.trans h.live_eq⟩

/-- No call to the system, and so no failure. -/
theorem Outcome.of_calls_eq (hCalls : f'.calls = f.calls) : Outcome f m f' :=
  ⟨[], hCalls, .inl (by simp)⟩

theorem Outcome.failed (h : Outcome f m f') (hFailed : SomeFailed f f') :
    m = 0 ∧ Untouched f f' := by
  obtain ⟨made, hMade, hCases⟩ := h
  obtain ⟨made', hMade', c, hMem, hBad⟩ := hFailed
  obtain rfl : made' = made := List.append_cancel_right (hMade'.symm.trans hMade)
  rcases hCases with hQuiet | hNull
  · exact absurd hBad (hQuiet c hMem)
  · exact hNull

/-! ## One call to the system -/

/-- A failed request leaves everything; behind one that was granted, giving the
region back leaves the regions that were there before. -/
theorem request_outcome (hAsk : f.typed.request alignment n call = (p, t)) :
    t.calls = call p :: f.calls ∧
      ((p = 0 ∧ t.live = f.live) ∨ (p ≠ 0 ∧ (t.live.erase p).regions = f.live.regions)) := by
  rcases request_cases hAsk with ⟨rfl, -, rfl⟩ | ⟨hPtr, hGrants, rfl, rfl⟩
  · exact ⟨rfl, .inl ⟨rfl, rfl⟩⟩
  · refine ⟨rfl, .inr ⟨hPtr, ?_⟩⟩
    show List.eraseP (fun r => r.base == (f.typed.proposal n).base)
      (f.typed.proposal n :: f.live.regions) = f.live.regions
    rw [List.eraseP_cons_of_pos (by simp)]

/-- `NULL` goes up at once. -/
theorem refused_outcome (hAsk : f.typed.request alignment n call = (0, t)) :
    Outcome f 0 { f with toRam := f.withSystem t } := by
  obtain ⟨hCalls, hLive⟩ := request_outcome hAsk
  rcases hLive with ⟨-, hSame⟩ | ⟨hPtr, -⟩
  · exact ⟨[call 0], hCalls, .inr ⟨rfl, rfl, rfl, congrArg LiveRegions.regions hSame⟩⟩
  · exact absurd rfl hPtr

/-- A call of which all requests to the system are granted. -/
theorem granted_outcome (hCall : ∀ q, (call q).Failed → q = 0) (hPtr : p ≠ 0)
    (hAsk : f.typed.request alignment n call = (p, t)) (hCalls : f'.calls = t.calls) :
    Outcome f m f' := by
  refine ⟨[call p], hCalls.trans (request_outcome hAsk).1, .inl ?_⟩
  rw [List.forall_mem_singleton]
  exact fun hFailed => hPtr (hCall p hFailed)

theorem posixMemalign_failed (alignment n q : Nat) :
    (SysCall.posixMemalign alignment n q).Failed → q = 0 := id

theorem malloc_failed (n q : Nat) : (SysCall.malloc n q).Failed → q = 0 := id

/-! ## The calls to the pool -/

theorem mpAllocBlock_outcome (hRun : mpAllocBlock fuel f n = some (m, f')) : Outcome f m f' := by
  unfold mpAllocBlock at hRun
  rcases hAsk : f.typed.posixMemalign mpAlignment (ptrDiff (nodeAt f.mem f.head).end_ f.head)
    with ⟨c, t⟩
  simp only [Ram.posixMemalign, hAsk] at hRun
  split at hRun
  · rename_i hNull
    subst hNull
    obtain ⟨rfl, rfl⟩ := Prod.mk.inj (Option.some.inj hRun)
    exact refused_outcome hAsk
  · rename_i hPtr
    split at hRun
    · simp at hRun
    · obtain ⟨-, rfl⟩ := Prod.mk.inj (Option.some.inj hRun)
      exact granted_outcome (posixMemalign_failed _ _) hPtr hAsk rfl

/-- The memory `p` has been obtained; if its header fails, it is given back. -/
theorem attachLarge_outcome {alloc : Pool → Nat → Option (Nat × Pool)}
    (hCall : ∀ q, (call q).Failed → q = 0) (hPtr : p ≠ 0)
    (hAsk : f.typed.request alignment n call = (p, t))
    (hAlloc : ∀ {l g}, alloc { f with toRam := f.withSystem t } sizeofLarge = some (l, g) →
      Outcome { f with toRam := f.withSystem t } l g)
    (hRun : attachLarge alloc { f with toRam := f.withSystem t } p = some (m, f')) :
    Outcome f m f' := by
  obtain ⟨hCalls, hLive⟩ := request_outcome hAsk
  have hErased := (hLive.resolve_left fun hNull => hPtr hNull.1).2
  have hHere : ¬ (call p).Failed := fun hFailed => hPtr (hCall p hFailed)
  unfold attachLarge at hRun
  split at hRun
  · simp at hRun
  · rename_i l g hHeader
    obtain ⟨made, hMade, hCases⟩ := hAlloc hHeader
    have hSoFar : g.calls = made ++ call p :: f.calls := by
      rw [← hCalls]
      exact hMade
    split at hRun
    · obtain ⟨rfl, rfl⟩ := Prod.mk.inj (Option.some.inj hRun)
      have hGiven : g.free p = { g.toRam with
          live := g.live.erase p, calls := .free p :: g.calls } := by
        unfold Ram.free Heap.free
        rw [if_neg hPtr]
        rfl
      refine ⟨.free p :: (made ++ [call p]), ?_, ?_⟩
      · show (g.free p).calls = _
        rw [hGiven, hSoFar]
        simp
      · rcases hCases with hQuiet | ⟨-, hSame⟩
        · left
          simp only [List.mem_cons, List.mem_append, List.not_mem_nil, or_false]
          rintro c (rfl | hIn | rfl)
          · exact id
          · exact hQuiet c hIn
          · exact hHere
        · right
          refine ⟨rfl, ?_, hSame.addr_eq, ?_⟩
          · show (g.free p).mem = f.mem
            rw [hGiven]
            exact hSame.mem_eq
          · show (g.free p).live.regions = f.live.regions
            rw [hGiven, ← hErased]
            exact congrArg (List.eraseP _) hSame.live_eq
    · obtain ⟨rfl, rfl⟩ := Prod.mk.inj (Option.some.inj hRun)
      rename_i hLarge
      refine ⟨made ++ [call p], ?_, .inl ?_⟩
      · show g.calls = _
        rw [hSoFar]
        simp
      · intro c hIn
        rcases List.mem_append.mp hIn with hIn | hIn
        · exact (hCases.resolve_right fun hNull => hLarge hNull.1) c hIn
        · rwa [List.mem_singleton.mp hIn]

/-- Every allocation, by induction on the depth of the calls. -/
theorem mpAlloc_outcome (hRun : mpAlloc fuel f n = some (m, f')) : Outcome f m f' := by
  induction fuel generalizing f f' m n with
  | zero => simp [mpAlloc] at hRun
  | succ fuel ih =>
      unfold mpAlloc at hRun
      split at hRun
      · split at hRun
        · simp at hRun
        · split at hRun
          · obtain ⟨rfl, rfl⟩ := Prod.mk.inj (Option.some.inj hRun)
            exact Outcome.of_calls_eq rfl
          · exact mpAllocBlock_outcome hRun
      · unfold mpAllocLarge at hRun
        rcases hAsk : f.typed.malloc n with ⟨p, t⟩
        simp only [Ram.malloc, hAsk] at hRun
        split at hRun
        · rename_i hNull
          subst hNull
          obtain ⟨rfl, rfl⟩ := Prod.mk.inj (Option.some.inj hRun)
          exact refused_outcome hAsk
        · rename_i hPtr
          split at hRun
          · obtain ⟨-, rfl⟩ := Prod.mk.inj (Option.some.inj hRun)
            exact granted_outcome (malloc_failed _) hPtr hAsk rfl
          · exact attachLarge_outcome (malloc_failed _) hPtr hAsk (fun h => ih h) hRun

/-- The memory is cleared only if there is some. -/
theorem mpCalloc_outcome (hRun : mpCalloc fuel f n = some (m, f')) : Outcome f m f' := by
  unfold mpCalloc at hRun
  split at hRun
  · simp at hRun
  · rename_i p g hAlloc
    have hOutcome := mpAlloc_outcome hAlloc
    split at hRun
    · obtain ⟨rfl, rfl⟩ := Prod.mk.inj (Option.some.inj hRun)
      exact hOutcome
    · rename_i hPtr
      obtain ⟨rfl, rfl⟩ := Prod.mk.inj (Option.some.inj hRun)
      obtain ⟨made, hMade, hCases⟩ := hOutcome
      exact ⟨made, hMade, .inl (hCases.resolve_right fun hNull => hPtr hNull.1)⟩

theorem mpMemalign_outcome (hRun : mpMemalign fuel f n alignment = some (m, f')) :
    Outcome f m f' := by
  unfold mpMemalign at hRun
  rcases hAsk : f.typed.posixMemalign alignment n with ⟨p, t⟩
  simp only [Ram.posixMemalign, hAsk] at hRun
  split at hRun
  · rename_i hNull
    subst hNull
    obtain ⟨rfl, rfl⟩ := Prod.mk.inj (Option.some.inj hRun)
    exact refused_outcome hAsk
  · rename_i hPtr
    exact attachLarge_outcome (posixMemalign_failed _ _) hPtr hAsk
      (fun hHeader => mpAlloc_outcome hHeader) hRun

/-- Giving back is no request. -/
theorem free_calls (heap : Heap) (p : Nat) :
    ∃ made, (heap.free p).calls = made ++ heap.calls ∧ ∀ call ∈ made, ¬ call.Failed := by
  unfold Heap.free
  split
  · exact ⟨[], rfl, by simp⟩
  · exact ⟨[.free p], rfl, by simp [SysCall.Failed]⟩

theorem freeLarge_calls {heap : Heap} {l : Nat} (hRun : freeLarge fuel heap l = some t) :
    ∃ made, t.calls = made ++ heap.calls ∧ ∀ call ∈ made, ¬ call.Failed := by
  induction fuel generalizing heap l with
  | zero => simp [freeLarge] at hRun
  | succ fuel ih =>
      unfold freeLarge at hRun
      split at hRun
      · obtain rfl := Option.some.inj hRun
        exact ⟨[], rfl, by simp⟩
      · obtain ⟨later, hLater, hQuiet⟩ := ih hRun
        obtain ⟨first, hFirst, hQuiet'⟩ := free_calls heap (heap.header l).alloc
        refine ⟨later ++ first, ?_, ?_⟩
        · rw [hLater, hFirst, List.append_assoc]
        · intro c hMem
          rcases List.mem_append.mp hMem with hIn | hIn
          · exact hQuiet c hIn
          · exact hQuiet' c hIn

theorem mpFree_outcome (hRun : mpFree fuel f p = some f') : Outcome f m f' := by
  unfold mpFree at hRun
  split at hRun
  · simp at hRun
  · split at hRun
    · obtain rfl := Option.some.inj hRun
      exact Outcome.of_calls_eq rfl
    · rename_i l _ _
      obtain rfl := Option.some.inj hRun
      obtain ⟨made, hMade, hQuiet⟩ := free_calls f.typed (headerAt f.mem l).alloc
      exact ⟨made, hMade, .inl hQuiet⟩

theorem mpResetPool_outcome (hRun : mpResetPool fuel f = some f') : Outcome f m f' := by
  unfold mpResetPool at hRun
  split at hRun
  · simp at hRun
  · rename_i t hFree
    split at hRun
    · simp at hRun
    · obtain rfl := Option.some.inj hRun
      obtain ⟨made, hMade, hQuiet⟩ := freeLarge_calls hFree
      exact ⟨made, hMade, .inl hQuiet⟩

theorem exec_outcome {op : Op} (hRun : exec fuel f op = some (m, f')) : Outcome f m f' := by
  cases op with
  | alloc n => exact mpAlloc_outcome hRun
  | calloc n => exact mpCalloc_outcome hRun
  | memalign n alignment => exact mpMemalign_outcome hRun
  | free p =>
      obtain ⟨g, hFree, hEq⟩ := Option.map_eq_some_iff.mp hRun
      obtain ⟨-, rfl⟩ := Prod.mk.inj hEq
      exact mpFree_outcome hFree
  | reset =>
      obtain ⟨g, hReset, hEq⟩ := Option.map_eq_some_iff.mp hRun
      obtain ⟨-, rfl⟩ := Prod.mk.inj hEq
      exact mpResetPool_outcome hReset

/-- **A failed call leaves the pool**: if a request to the system fails during a
call, the call returns `NULL`, the memory is as it was before, and all that was
obtained during the call has been given back. -/
theorem failed_call_leaves_pool {op : Op} (hRun : exec fuel f op = some (m, f'))
    (hFailed : SomeFailed f f') : m = 0 ∧ Untouched f f' :=
  (exec_outcome hRun).failed hFailed

/-- A system that grants a pool and one large allocation, and then fails. -/
def refusingRam : Ram :=
  Ram.start (fun _ => 0) fun k => [65536, 200000].getD k 0

/-- A pool of 4104 bytes of which 4095 are taken, so that it has no room for a
header. -/
def fullPool : Pool :=
  ((mpCreatePool refusingRam 4104).bind fun f => step f (.alloc 4095, 3)).get (by decide +kernel)

def refused : Nat × Pool := (exec 4 fullPool (.calloc 5000)).get (by decide +kernel)

theorem fullPool_refused : exec 4 fullPool (.calloc 5000) = some refused := by
  simp [refused]

/-- `malloc` succeeds, and the block for the header fails. -/
theorem failed_call_leaves_pool_header :
    Made fullPool refused.2
        [.free 200000, .posixMemalign 32 4136 0, .malloc 5000 200000] ∧
      refused.1 = 0 ∧ Untouched fullPool refused.2 := by
  have hMade : Made fullPool refused.2
      [.free 200000, .posixMemalign 32 4136 0, .malloc 5000 200000] := by
    show refused.2.calls = _ ++ fullPool.calls
    decide +kernel
  exact ⟨hMade, failed_call_leaves_pool fullPool_refused
    ⟨_, hMade, .posixMemalign 32 4136 0, by simp, rfl⟩⟩

end Bytes
end MemPool
end LinuxCppLearn
