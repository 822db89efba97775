import LinuxCppLearn.Library.LinkedChain
import LinuxCppLearn.MemPool.Model

/-!
# Pointer arithmetic and the loops of the memory pool

What each loop of `mempool.c` computes on a list that ends.

* `mpAlignPtr_spec` — rounding up to the next multiple of 32.
* `fitTest_iff` — the test of `mp_alloc` passes where the request has room, and
  also where the aligned `last` lies beyond the end of the node.
* `findFit_overshoot`, `findFit_hasRoom` — the node which `mp_alloc` chooses.
* `bumpFailed_spec`, `freeSlot_spec`, `findAlloc_spec`, `rewindNodes_spec` — the
  other loops.
-/

namespace LinuxCppLearn
namespace MemPool

open LinkedChain

/-- The `next` fields of the nodes. -/
abbrev nodeNext (node : Nat → MpNode) (h : Nat) : Nat := (node h).next

/-- The `next` fields of the headers. -/
abbrev headerNext (header : Nat → MpLarge) (l : Nat) : Nat := (header l).next

theorem ptrAdd_eq {p n : Nat} (h : p + n < 2 ^ 64) : ptrAdd p n = p + n :=
  Nat.mod_eq_of_lt h

theorem ptrDiff_of_le {p q : Nat} (hLe : q ≤ p) (hBound : p < 2 ^ 64) : ptrDiff p q = p - q := by
  unfold ptrDiff
  omega

theorem ptrDiff_of_lt {p q : Nat} (hLt : p < q) : ptrDiff p q = p + 2 ^ 64 - q := by
  unfold ptrDiff
  omega

/-- Clearing the low five bits. -/
theorem and_eq_div_mul {x : Nat} (h : x < 2 ^ 64) : x &&& (2 ^ 64 - 32) = x / 32 * 32 := by
  have hMask : 2 ^ 64 - 32 = (2 ^ 59 - 1) <<< 5 := by decide
  have hShift : x / 32 * 32 = (x >>> 5) <<< 5 := by
    rw [Nat.shiftRight_eq_div_pow, Nat.shiftLeft_eq]
  rw [hMask, hShift]
  apply Nat.eq_of_testBit_eq
  intro i
  rw [Nat.testBit_and, Nat.testBit_shiftLeft, Nat.testBit_shiftLeft,
    Nat.testBit_two_pow_sub_one, Nat.testBit_shiftRight]
  by_cases hLow : 5 ≤ i
  · rw [Nat.add_sub_cancel' hLow]
    by_cases hHigh : i < 64
    · have hIn : i - 5 < 59 := by omega
      simp [hLow, hIn]
    · have hZero : x.testBit i = false :=
        Nat.testBit_lt_two_pow (Nat.lt_of_lt_of_le h (Nat.pow_le_pow_right (by omega) (by omega)))
      simp [hZero]
  · simp [hLow]

/-- `mp_align_ptr` with `MP_ALIGNMENT` is the least multiple of 32 from `p` on. -/
theorem mpAlignPtr_spec {p : Nat} (h : p ≤ addressTop) :
    p ≤ mpAlignPtr p mpAlignment ∧ mpAlignPtr p mpAlignment ≤ p + 31 ∧
      mpAlignPtr p mpAlignment % 32 = 0 ∧
      ∀ q, p ≤ q → q % 32 = 0 → mpAlignPtr p mpAlignment ≤ q := by
  unfold addressTop at h
  have hEq : mpAlignPtr p mpAlignment = (p + 31) / 32 * 32 := by
    show ptrAdd p 31 &&& (2 ^ 64 - 32) = _
    rw [ptrAdd_eq (by omega), and_eq_div_mul (by omega)]
  rw [hEq]
  refine ⟨by omega, by omega, by omega, ?_⟩
  intro q hLe hAligned
  omega

/-- The node's free memory, from the next aligned address on, holds `size` bytes. -/
def HasRoom (node : Nat → MpNode) (size p : Nat) : Prop :=
  mpAlignPtr (node p).last mpAlignment + size ≤ (node p).end_

/-- The next aligned address lies beyond the end of the node. -/
def Overshoots (node : Nat → MpNode) (p : Nat) : Prop :=
  (node p).end_ < mpAlignPtr (node p).last mpAlignment

instance (node : Nat → MpNode) (size p : Nat) : Decidable (HasRoom node size p) :=
  inferInstanceAs (Decidable (_ ≤ _))

instance (node : Nat → MpNode) (p : Nat) : Decidable (Overshoots node p) :=
  inferInstanceAs (Decidable (_ < _))

/-- The free memory of every node of the list is a part of the address space. -/
def BoundedNodes (node : Nat → MpNode) (nodes : List Nat) : Prop :=
  ∀ h ∈ nodes, (node h).last ≤ (node h).end_ ∧ (node h).end_ ≤ addressTop

/-- The difference is taken as a `size_t`, so it is huge instead of negative. -/
theorem fitTest_iff {node : Nat → MpNode} {size p : Nat} (hLast : (node p).last ≤ (node p).end_)
    (hEnd : (node p).end_ ≤ addressTop) (hSize : size ≤ mpMaxAllocFromPool) :
    size ≤ ptrDiff (node p).end_ (mpAlignPtr (node p).last mpAlignment) ↔
      HasRoom node size p ∨ Overshoots node p := by
  obtain ⟨hLow, hHigh, _, _⟩ := mpAlignPtr_spec (Nat.le_trans hLast hEnd)
  unfold HasRoom Overshoots
  unfold addressTop at hEnd
  unfold mpMaxAllocFromPool at hSize
  by_cases hOver : (node p).end_ < mpAlignPtr (node p).last mpAlignment
  · rw [ptrDiff_of_lt hOver]
    omega
  · rw [ptrDiff_of_le (by omega) (by omega)]
    omega

/-- The search for a node comes to one that overshoots before one with room. -/
inductive MeetsOvershoot (node : Nat → MpNode) (size : Nat) : Nat → Prop
  | here {p : Nat} (beyond : Overshoots node p) : MeetsOvershoot node size p
  | later {p : Nat} (full : ¬ HasRoom node size p) (more : (node p).next ≠ 0)
      (rest : MeetsOvershoot node size (node p).next) : MeetsOvershoot node size p

section Search

variable {node : Nat → MpNode} {size fuel p q : Nat} {l : List Nat}

theorem findFit_overshoot (hChain : Chain (nodeNext node) 0 p l) (hStart : p ≠ 0)
    (hBound : BoundedNodes node l) (hSize : size ≤ mpMaxAllocFromPool)
    (hFit : findFit node size fuel p = some q) (hMeets : MeetsOvershoot node size p) :
    q ∈ l ∧ Overshoots node q := by
  induction fuel generalizing p l with
  | zero => simp [findFit] at hFit
  | succ fuel ih =>
      obtain ⟨l', rfl, hRest⟩ := hChain.exists_cons hStart
      have hHere := hBound p List.mem_cons_self
      have hIff := fitTest_iff hHere.1 hHere.2 hSize
      unfold findFit at hFit
      cases hMeets with
      | here hOver =>
          rw [if_pos (hIff.mpr (.inr hOver))] at hFit
          obtain rfl := Option.some.inj hFit
          exact ⟨List.mem_cons_self, hOver⟩
      | later hFull hMore hLater =>
          -- a node without room may overshoot itself, and is chosen then
          by_cases hOver : Overshoots node p
          · rw [if_pos (hIff.mpr (.inr hOver))] at hFit
            obtain rfl := Option.some.inj hFit
            exact ⟨List.mem_cons_self, hOver⟩
          · have hNot : ¬ (HasRoom node size p ∨ Overshoots node p) := not_or.mpr ⟨hFull, hOver⟩
            rw [if_neg (mt hIff.mp hNot), if_neg hMore] at hFit
            obtain ⟨hMem, hFound⟩ := ih hRest hMore
              (fun h hIn => hBound h (List.mem_cons_of_mem p hIn)) hFit hLater
            exact ⟨List.mem_cons_of_mem p hMem, hFound⟩

theorem findFit_hasRoom (hChain : Chain (nodeNext node) 0 p l) (hStart : p ≠ 0)
    (hBound : BoundedNodes node l) (hSize : size ≤ mpMaxAllocFromPool)
    (hFit : findFit node size fuel p = some q) (hClear : ¬ MeetsOvershoot node size p) :
    q = 0 ∨ (q ∈ l ∧ HasRoom node size q) := by
  induction fuel generalizing p l with
  | zero => simp [findFit] at hFit
  | succ fuel ih =>
      obtain ⟨l', rfl, hRest⟩ := hChain.exists_cons hStart
      have hHere := hBound p List.mem_cons_self
      have hIff := fitTest_iff hHere.1 hHere.2 hSize
      have hInside : ¬ Overshoots node p := fun hOver => hClear (.here hOver)
      unfold findFit at hFit
      by_cases hRoom : HasRoom node size p
      · rw [if_pos (hIff.mpr (.inl hRoom))] at hFit
        obtain rfl := Option.some.inj hFit
        exact .inr ⟨List.mem_cons_self, hRoom⟩
      · have hNot : ¬ (HasRoom node size p ∨ Overshoots node p) := not_or.mpr ⟨hRoom, hInside⟩
        rw [if_neg (mt hIff.mp hNot)] at hFit
        by_cases hMore : (node p).next = 0
        · rw [if_pos hMore] at hFit
          exact .inl (Option.some.inj hFit).symm
        · rw [if_neg hMore] at hFit
          have hLater : ¬ MeetsOvershoot node size (node p).next :=
            fun hMeets => hClear (.later hRoom hMore hMeets)
          rcases ih hRest hMore (fun h hIn => hBound h (List.mem_cons_of_mem p hIn)) hFit hLater
            with hNone | ⟨hMem, hFound⟩
          · exact .inl hNone
          · exact .inr ⟨List.mem_cons_of_mem p hMem, hFound⟩

end Search

/-- Two memories whose nodes differ in `failed` only. -/
def SameButFailed (node node' : Nat → MpNode) : Prop :=
  ∀ h, (node' h).last = (node h).last ∧ (node' h).end_ = (node h).end_ ∧
    (node' h).next = (node h).next

theorem SameButFailed.refl (node : Nat → MpNode) : SameButFailed node node :=
  fun _ => ⟨rfl, rfl, rfl⟩

theorem SameButFailed.trans {node node' node'' : Nat → MpNode} (h : SameButFailed node node')
    (h' : SameButFailed node' node'') : SameButFailed node node'' := by
  intro p
  obtain ⟨hLast, hEnd, hNext⟩ := h p
  obtain ⟨hLast', hEnd', hNext'⟩ := h' p
  exact ⟨hLast'.trans hLast, hEnd'.trans hEnd, hNext'.trans hNext⟩

theorem sameButFailed_update (node : Nat → MpNode) (p k : Nat) :
    SameButFailed node (Function.update node p { node p with failed := k }) := by
  intro h
  by_cases hEq : h = p
  · subst hEq
    rw [Function.update_self]
    exact ⟨rfl, rfl, rfl⟩
  · rw [Function.update_of_ne hEq]
    exact ⟨rfl, rfl, rfl⟩

/-- The walk ends at the last node, moves `current` to a node of the list at
most, and writes nothing but `failed`. -/
theorem bumpFailed_spec {node node' : Nat → MpNode} {fuel p current t current' : Nat}
    {l : List Nat} (hChain : Chain (nodeNext node) 0 p l) (hStart : p ≠ 0)
    (hWalk : bumpFailed fuel node p current = some (t, current', node')) :
    (t ∈ l ∧ (node t).next = 0) ∧ (current' = current ∨ current' ∈ l) ∧
      SameButFailed node node' := by
  induction fuel generalizing p l node current with
  | zero => simp [bumpFailed] at hWalk
  | succ fuel ih =>
      obtain ⟨l', rfl, hRest⟩ := hChain.exists_cons hStart
      unfold bumpFailed at hWalk
      split at hWalk
      · rename_i hLast
        simp only [Option.some.injEq, Prod.mk.injEq] at hWalk
        obtain ⟨rfl, rfl, rfl⟩ := hWalk
        exact ⟨⟨List.mem_cons_self, hLast⟩, .inl rfl, SameButFailed.refl _⟩
      · rename_i hMore
        have hSame := sameButFailed_update node p (((node p).failed + 1) % 2 ^ 64)
        have hRest' := hRest.congr (fun b _ => (hSame b).2.2)
        obtain ⟨⟨hMem, hLast⟩, hCurrent, hSame'⟩ := ih hRest' hMore hWalk
        refine ⟨⟨List.mem_cons_of_mem p hMem, (hSame t).2.2 ▸ hLast⟩, ?_, hSame.trans hSame'⟩
        rcases hCurrent with hKept | hMoved
        -- more than four failures move `current` to the next node
        · by_cases hFailed : 4 < (node p).failed
          · rw [if_pos hFailed] at hKept
            obtain ⟨l'', rfl, _⟩ := hRest.exists_cons hMore
            exact .inr (hKept ▸ List.mem_cons_of_mem p List.mem_cons_self)
          · rw [if_neg hFailed] at hKept
            exact .inl hKept
        · exact .inr (List.mem_cons_of_mem p hMoved)

/-- A slot found is a header of the list without memory. -/
theorem freeSlot_spec {header : Nat → MpLarge} {budget large slot : Nat} {l : List Nat}
    (hChain : Chain (headerNext header) 0 large l)
    (hSlot : freeSlot header budget large = some slot) :
    slot ∈ l ∧ (header slot).alloc = 0 := by
  induction budget generalizing large l with
  | zero => simp [freeSlot] at hSlot
  | succ budget ih =>
      unfold freeSlot at hSlot
      split at hSlot
      · simp at hSlot
      · rename_i hStart
        obtain ⟨l', rfl, hRest⟩ := hChain.exists_cons hStart
        split at hSlot
        · rename_i hEmpty
          obtain rfl := Option.some.inj hSlot
          exact ⟨List.mem_cons_self, hEmpty⟩
        · obtain ⟨hMem, hEmpty⟩ := ih hRest hSlot
          exact ⟨List.mem_cons_of_mem large hMem, hEmpty⟩

@[simp] theorem freeSlot_null (header : Nat → MpLarge) (budget : Nat) :
    freeSlot header budget 0 = none := by
  cases budget with
  | zero => rfl
  | succ budget => rfl

/-- The header found by `mp_free` belongs to the list and remembers `p`. -/
theorem findAlloc_spec {header : Nat → MpLarge} {fuel p l q : Nat} {ls : List Nat}
    (hChain : Chain (headerNext header) 0 l ls) (hFind : findAlloc header p fuel l = some q) :
    q = 0 ∨ (q ∈ ls ∧ (header q).alloc = p) := by
  induction fuel generalizing l ls with
  | zero => simp [findAlloc] at hFind
  | succ fuel ih =>
      unfold findAlloc at hFind
      split at hFind
      · exact .inl (Option.some.inj hFind).symm
      · rename_i hStart
        obtain ⟨ls', rfl, hRest⟩ := hChain.exists_cons hStart
        split at hFind
        · rename_i hHere
          obtain rfl := Option.some.inj hFind
          exact .inr ⟨List.mem_cons_self, hHere.symm⟩
        · rcases ih hRest hFind with hNone | ⟨hMem, hHere⟩
          · exact .inl hNone
          · exact .inr ⟨List.mem_cons_of_mem l hMem, hHere⟩

/-- Every node of the list is emptied, and nothing else changes. -/
theorem rewindNodes_spec {node node' : Nat → MpNode} {fuel h : Nat} {l : List Nat}
    (hChain : Chain (nodeNext node) 0 h l) (hRewind : rewindNodes fuel node h = some node') :
    (∀ b ∈ l, node' b = { node b with last := ptrAdd b sizeofNode }) ∧
      ∀ b, b ∉ l → node' b = node b := by
  induction fuel generalizing h l node with
  | zero => simp [rewindNodes] at hRewind
  | succ fuel ih =>
      unfold rewindNodes at hRewind
      split at hRewind
      · rename_i hNull
        subst hNull
        obtain rfl := hChain.eq_nil
        obtain rfl := Option.some.inj hRewind
        exact ⟨by simp, fun _ _ => rfl⟩
      · rename_i hStart
        have hNodup := hChain.nodup
        obtain ⟨l', rfl, hRest⟩ := hChain.exists_cons hStart
        have hFresh : h ∉ l' := (List.nodup_cons.mp hNodup).1
        have hOther : ∀ b, b ≠ h → Function.update node h
            { node h with last := ptrAdd h sizeofNode } b = node b :=
          fun b hNe => Function.update_of_ne hNe _ _
        -- the walk goes on over links that the write has left alone
        have hRest' : Chain (nodeNext (Function.update node h
            { node h with last := ptrAdd h sizeofNode })) 0 (node h).next l' := by
          apply hRest.congr
          intro b hMem
          show (Function.update node h _ b).next = (node b).next
          rw [hOther b (ne_of_mem_of_not_mem hMem hFresh)]
        obtain ⟨hIn, hOut⟩ := ih hRest' hRewind
        constructor
        · intro b hMem
          rcases List.mem_cons.mp hMem with rfl | hTail
          · rw [hOut b hFresh, Function.update_self]
          · rw [hIn b hTail, hOther b (ne_of_mem_of_not_mem hTail hFresh)]
        · intro b hNotMem
          rw [List.mem_cons, not_or] at hNotMem
          rw [hOut b hNotMem.2, hOther b hNotMem.1]

end MemPool
end LinuxCppLearn
