import LinuxCppLearn.MemPool.Fuel
import LinuxCppLearn.MemPool.Layout

/-!
# The memory of bytes refines the typed structures

As long as the searches stay inside, every call on the memory of bytes is the
same call on a pool of typed structures: it has the same result, makes the same
calls to the system, and leaves a memory which shows the structures of the
pool's lists.
-/

namespace LinuxCppLearn
namespace MemPool
namespace Bytes

open ByteMemory Regions LinkedChain FuelLoop StepSystem

/-! ## The system -/

section System

variable {heap heap' t : Heap} {alignment n p : Nat} {call : Nat → SysCall}

/-- The answer to a call does not depend on the structures. -/
theorem SameSystem.request (h : SameSystem heap heap')
    (hAsk : heap.request alignment n call = (p, t)) :
    ∃ t', heap'.request alignment n call = (p, t') ∧ SameSystem t t' ∧ t.answer = heap.answer ∧
      t'.node = heap'.node ∧ t'.header = heap'.header := by
  obtain ⟨node, header, answer, asked, live, calls⟩ := heap
  obtain ⟨node', header', answer', asked', live', calls'⟩ := heap'
  obtain ⟨hAnswer, hAsked, hLive, hCalls⟩ := h
  simp only at hAnswer hAsked hLive hCalls
  subst hAnswer hAsked hLive hCalls
  rcases request_cases hAsk with ⟨rfl, hRefused, rfl⟩ | ⟨-, hGrants, rfl, rfl⟩
  · refine ⟨_, dif_neg hRefused, ⟨rfl, rfl, rfl, rfl⟩, rfl, rfl, rfl⟩
  · refine ⟨_, dif_pos hGrants, ⟨rfl, rfl, rfl, rfl⟩, rfl, rfl, rfl⟩

theorem SameSystem.free (h : SameSystem heap heap') (p : Nat) :
    SameSystem (heap.free p) (heap'.free p) := by
  unfold Heap.free
  split
  · exact h
  · constructor
    · exact h.answer_eq
    · exact h.asked_eq
    · exact congrArg (fun live => live.erase p) h.live_eq
    · exact congrArg (fun calls => SysCall.free p :: calls) h.calls_eq

theorem free_answer (heap : Heap) (p : Nat) : (heap.free p).answer = heap.answer := by
  unfold Heap.free
  split
  · rfl
  · rfl

end System

variable {f f' : Pool} {s s' : MemPool.Pool} {nodes larges pending : List Nat}
  {alignment size m n p q fuel : Nat} {call : Nat → SysCall} {t t' : Heap}

/-- What the system does leaves the structures. -/
theorem Refines.withSystem (h : Refines f s nodes larges) (hSystem : SameSystem t t')
    (hAnswer : t.answer = f.answer) (hNode : t'.node = s.node) (hHeader : t'.header = s.header) :
    Refines { f with toRam := f.withSystem t } { s with toHeap := t' } nodes larges := by
  refine ⟨h.addr_eq, h.pool_eq, ?_, ?_, ?_⟩
  · intro b hMem
    show nodeAt f.mem b = t'.node b
    rw [hNode, h.node_eq b hMem]
  · intro l hMem
    show headerAt f.mem l = t'.header l
    rw [hHeader, h.header_eq l hMem]
  · exact ⟨hAnswer.symm.trans hSystem.answer_eq, hSystem.asked_eq, hSystem.live_eq,
      hSystem.calls_eq⟩

theorem Refines.request (h : Refines f s nodes larges)
    (hAsk : f.typed.request alignment n call = (p, t)) :
    ∃ t', s.request alignment n call = (p, t') ∧
      Refines { f with toRam := f.withSystem t } { s with toHeap := t' } nodes larges := by
  obtain ⟨t', hAsk', hSystem, hAnswer, hNode, hHeader⟩ := h.system.request hAsk
  exact ⟨t', hAsk', h.withSystem hSystem hAnswer hNode hHeader⟩

theorem Refines.free (h : Refines f s nodes larges) (p : Nat) :
    Refines { f with toRam := f.free p } { s with toHeap := s.free p } nodes larges :=
  h.withSystem (h.system.free p) (free_answer _ p) (free_node _ p) (free_header _ p)

/-! ## The loops -/

theorem findFit_refines (h : Refines f s nodes larges)
    (hNext : ∀ b ∈ nodes, (s.node b).next = 0 ∨ (s.node b).next ∈ nodes) (hMem : p ∈ nodes)
    (hRun : findFit (nodeAt f.mem) n fuel p = some q) : findFit s.node n fuel p = some q := by
  suffices h' : ∃ q', findFit s.node n fuel p = some q' ∧ q = q' by
    obtain ⟨q', hRun', rfl⟩ := h'
    exact hRun'
  refine (findFit_loop (nodeAt f.mem) n).simulates (findFit_loop s.node n)
    (R := fun b b' => b = b' ∧ b ∈ nodes) ?_ ?_ ⟨rfl, hMem⟩ hRun
  · rintro b _ b' ⟨rfl, hIn⟩ hBody
    have hSame := h.node_eq b hIn
    unfold findFitBody at hBody ⊢
    rw [hSame] at hBody
    refine ⟨b', hBody, rfl, ?_⟩
    split at hBody
    · simp at hBody
    · split at hBody
      · simp at hBody
      · rename_i hMore
        obtain rfl := Sum.inl.inj hBody
        exact (hNext b hIn).resolve_left hMore
  · rintro b _ r ⟨rfl, hIn⟩ hBody
    refine ⟨r, ?_, rfl⟩
    unfold findFitBody at hBody ⊢
    rwa [h.node_eq b hIn] at hBody

theorem findAlloc_refines {l : Nat} (h : Refines f s nodes larges)
    (hNext : ∀ b ∈ larges, (s.header b).next = 0 ∨ (s.header b).next ∈ larges)
    (hStart : l = 0 ∨ l ∈ larges)
    (hRun : findAlloc (headerAt f.mem) p fuel l = some q) :
    findAlloc s.header p fuel l = some q := by
  suffices h' : ∃ q', findAlloc s.header p fuel l = some q' ∧ q = q' by
    obtain ⟨q', hRun', rfl⟩ := h'
    exact hRun'
  refine (findAlloc_loop (headerAt f.mem) p).simulates (findAlloc_loop s.header p)
    (R := fun b b' => b = b' ∧ (b = 0 ∨ b ∈ larges)) ?_ ?_ ⟨rfl, hStart⟩ hRun
  · rintro b _ b' ⟨rfl, hIn⟩ hBody
    unfold findAllocBody at hBody ⊢
    split at hBody
    · simp at hBody
    · rename_i hNe
      have hMem := hIn.resolve_left hNe
      rw [h.header_eq b hMem] at hBody
      rw [if_neg hNe]
      refine ⟨b', hBody, rfl, ?_⟩
      split at hBody
      · simp at hBody
      · obtain rfl := Sum.inl.inj hBody
        exact hNext b hMem
  · rintro b _ r ⟨rfl, hIn⟩ hBody
    refine ⟨r, ?_, rfl⟩
    unfold findAllocBody at hBody ⊢
    by_cases hNull : b = 0
    · rwa [if_pos hNull] at hBody ⊢
    · rw [if_neg hNull] at hBody ⊢
      rwa [h.header_eq b (hIn.resolve_left hNull)] at hBody

theorem freeSlot_refines {budget l : Nat} (h : Refines f s nodes larges)
    (hNext : ∀ b ∈ larges, (s.header b).next = 0 ∨ (s.header b).next ∈ larges)
    (hStart : l = 0 ∨ l ∈ larges) :
    freeSlot (headerAt f.mem) budget l = freeSlot s.header budget l := by
  induction budget generalizing l with
  | zero => rfl
  | succ budget ih =>
      unfold freeSlot
      by_cases hNull : l = 0
      · rw [if_pos hNull, if_pos hNull]
      · have hMem := hStart.resolve_left hNull
        rw [if_neg hNull, if_neg hNull, h.header_eq l hMem, ih (hNext l hMem)]

theorem freeLarge_refines {l : Nat} (h : Refines f s nodes larges)
    (hNext : ∀ b ∈ larges, (s.header b).next = 0 ∨ (s.header b).next ∈ larges)
    (hStart : l = 0 ∨ l ∈ larges) (hRun : freeLarge fuel f.typed l = some t) :
    ∃ t', freeLarge fuel s.toHeap l = some t' ∧
      Refines { f with toRam := f.withSystem t } { s with toHeap := t' } nodes larges := by
  refine freeLarge_loop.simulates (s := (f.typed, l)) (t := (s.toHeap, l)) freeLarge_loop
    (R := fun u u' => u.2 = u'.2 ∧ (u.2 = 0 ∨ u.2 ∈ larges) ∧ SameSystem u.1 u'.1 ∧
      (u.1.header = headerAt f.mem ∧ u.1.answer = f.answer) ∧
      u'.1.node = s.node ∧ u'.1.header = s.header)
    (Q := fun t t' => Refines { f with toRam := f.withSystem t } { s with toHeap := t' } nodes
      larges) ?_ ?_
    ⟨rfl, hStart, h.system, ⟨rfl, rfl⟩, rfl, rfl⟩ hRun
  · rintro ⟨heap, b⟩ ⟨heap', _⟩ u ⟨rfl, hIn, hSystem, ⟨hTyped, hAnswer⟩, hNode, hHeader⟩ hBody
    simp only [freeLargeBody] at hIn hTyped hAnswer hNode hHeader hBody ⊢
    split at hBody
    · simp at hBody
    · rename_i hNe
      have hMem := hIn.resolve_left hNe
      have hSame : heap.header b = heap'.header b := by
        rw [hTyped, hHeader, h.header_eq b hMem]
      obtain rfl := Sum.inl.inj hBody
      rw [if_neg hNe, hSame]
      refine ⟨_, rfl, rfl, ?_, hSystem.free _, ⟨?_, ?_⟩, ?_, ?_⟩
      · show (heap'.header b).next = 0 ∨ _
        rw [hHeader]
        exact hNext b hMem
      · exact (free_header _ _).trans hTyped
      · exact (free_answer _ _).trans hAnswer
      · exact (free_node _ _).trans hNode
      · exact (free_header _ _).trans hHeader
  · rintro ⟨heap, b⟩ ⟨heap', _⟩ r ⟨rfl, hIn, hSystem, ⟨hTyped, hAnswer⟩, hNode, hHeader⟩ hBody
    simp only [freeLargeBody] at hBody ⊢
    split at hBody
    · rename_i hNull
      obtain rfl := Sum.inr.inj hBody
      rw [if_pos hNull]
      exact ⟨heap', rfl, h.withSystem hSystem hAnswer hNode hHeader⟩
    · simp at hBody

def bumpFailedBody : Memory × Nat × Nat → (Memory × Nat × Nat) ⊕ (Nat × Nat × Memory)
  | (mem, p, current) =>
      if (nodeAt mem p).next = 0 then .inr (p, current, mem)
      else
        let mem' := setFailed mem p (((nodeAt mem p).failed + 1) % 2 ^ 64)
        .inl (mem', (nodeAt mem' p).next,
          if 4 < (nodeAt mem p).failed then (nodeAt mem' p).next else current)

theorem bumpFailed_loop :
    IsLoop (fun fuel u => bumpFailed fuel u.1 u.2.1 u.2.2) bumpFailedBody where
  zero _ := rfl
  succ fuel u := by
    obtain ⟨mem, p, current⟩ := u
    simp only [bumpFailed, bumpFailedBody]
    split
    · rfl
    · rfl

theorem bumpFailed_refines {current c : Nat} {mem' : Memory} (h : Refines f s nodes larges)
    (hLayout : Layout s.addr nodes larges)
    (hNext : ∀ b ∈ nodes, (s.node b).next = 0 ∨ (s.node b).next ∈ nodes) (hMem : p ∈ nodes)
    (hRun : bumpFailed fuel f.mem p current = some (q, c, mem')) :
    ∃ node', MemPool.bumpFailed fuel s.node p current = some (q, c, node') ∧
      Refines { f with mem := mem' } { s with node := node' } nodes larges := by
  suffices h' : ∃ r, MemPool.bumpFailed fuel s.node p current = some r ∧
      q = r.1 ∧ c = r.2.1 ∧ Refines { f with mem := mem' } { s with node := r.2.2 } nodes larges by
    obtain ⟨⟨_, _, node'⟩, hRun', rfl, rfl, hRefines⟩ := h'
    exact ⟨node', hRun', hRefines⟩
  refine bumpFailed_loop.simulates (s := (f.mem, p, current)) (t := (s.node, p, current))
    MemPool.bumpFailed_loop
    (R := fun u u' => u.2 = u'.2 ∧ u.2.1 ∈ nodes ∧
      (∀ b, (u'.1 b).next = (s.node b).next) ∧
      Refines { f with mem := u.1 } { s with node := u'.1 } nodes larges)
    (Q := fun r r' => r.1 = r'.1 ∧ r.2.1 = r'.2.1 ∧
      Refines { f with mem := r.2.2 } { s with node := r'.2.2 } nodes larges) ?_ ?_
    ⟨rfl, hMem, fun _ => rfl, h⟩ hRun
  · rintro ⟨mem, b, k⟩ ⟨node, _, _⟩ u ⟨hSame, hIn, hLinks, hRefines⟩ hBody
    obtain ⟨rfl, rfl⟩ := Prod.mk.inj hSame
    have hHere : nodeAt mem b = node b := hRefines.node_eq b hIn
    have hCount : ((node b).failed + 1) % 2 ^ 64 < 2 ^ 64 := Nat.mod_lt _ (by decide)
    have hWritten : (nodeAt (setFailed mem b (((node b).failed + 1) % 2 ^ 64)) b).next =
        (node b).next := by
      rw [nodeAt_setFailed hCount, hHere]
    simp only [bumpFailedBody, MemPool.bumpFailedBody] at hIn hBody ⊢
    rw [hHere] at hBody
    split at hBody
    · simp at hBody
    · rename_i hMore
      simp only [hWritten] at hBody
      obtain rfl := Sum.inl.inj hBody
      rw [if_neg hMore]
      refine ⟨_, rfl, rfl, ?_, ?_, hRefines.setFailed hLayout hIn hCount⟩
      · have hRest := hNext b hIn
        rw [← hLinks b] at hRest
        exact hRest.resolve_left hMore
      · intro d
        exact ((sameButFailed_update node b _ d).2.2).trans (hLinks d)
  · rintro ⟨mem, b, k⟩ ⟨node, _, _⟩ r ⟨hSame, hIn, hLinks, hRefines⟩ hBody
    obtain ⟨rfl, rfl⟩ := Prod.mk.inj hSame
    have hHere : nodeAt mem b = node b := hRefines.node_eq b hIn
    simp only [bumpFailedBody, MemPool.bumpFailedBody] at hBody ⊢
    rw [hHere] at hBody
    split at hBody
    · rename_i hLast
      obtain rfl := Sum.inr.inj hBody
      rw [if_pos hLast]
      exact ⟨_, rfl, rfl, rfl, hRefines⟩
    · simp at hBody

def rewindNodesBody : Memory × Nat → (Memory × Nat) ⊕ Memory
  | (mem, h) =>
      if h = 0 then .inr mem
      else
        let mem' := setLast mem h (ptrAdd h sizeofNode)
        .inl (mem', (nodeAt mem' h).next)

theorem rewindNodes_loop : IsLoop (fun fuel u => rewindNodes fuel u.1 u.2) rewindNodesBody where
  zero _ := rfl
  succ fuel u := by
    obtain ⟨mem, h⟩ := u
    simp only [rewindNodes, rewindNodesBody]
    split
    · rfl
    · rfl

theorem rewindNodes_refines {b₀ : Nat} {mem' : Memory} (h : Refines f s nodes larges)
    (hLayout : Layout s.addr nodes larges)
    (hNext : ∀ b ∈ nodes, (s.node b).next = 0 ∨ (s.node b).next ∈ nodes)
    (hStart : b₀ = 0 ∨ b₀ ∈ nodes) (hRun : rewindNodes fuel f.mem b₀ = some mem') :
    ∃ node', MemPool.rewindNodes fuel s.node b₀ = some node' ∧
      Refines { f with mem := mem' } { s with node := node' } nodes larges := by
  refine rewindNodes_loop.simulates (s := (f.mem, b₀)) (t := (s.node, b₀))
    MemPool.rewindNodes_loop
    (R := fun u u' => u.2 = u'.2 ∧ (u.2 = 0 ∨ u.2 ∈ nodes) ∧
      (∀ b, (u'.1 b).next = (s.node b).next) ∧
      Refines { f with mem := u.1 } { s with node := u'.1 } nodes larges)
    (Q := fun mem' node' => Refines { f with mem := mem' } { s with node := node' } nodes larges)
    ?_ ?_ ⟨rfl, hStart, fun _ => rfl, h⟩ hRun
  · rintro ⟨mem, b⟩ ⟨node, _⟩ u ⟨rfl, hIn, hLinks, hRefines⟩ hBody
    simp only [rewindNodesBody, MemPool.rewindNodesBody] at hIn hBody ⊢
    split at hBody
    · simp at hBody
    · rename_i hNe
      have hMem := hIn.resolve_left hNe
      have hHere : nodeAt mem b = node b := hRefines.node_eq b hMem
      have hBound : ptrAdd b sizeofNode < 2 ^ 64 := Nat.mod_lt _ (by decide)
      rw [nodeAt_setLast hBound, hHere] at hBody
      obtain rfl := Sum.inl.inj hBody
      rw [if_neg hNe]
      refine ⟨_, rfl, rfl, ?_, ?_, hRefines.setLast hLayout hMem hBound⟩
      · show (node b).next = 0 ∨ (node b).next ∈ nodes
        rw [hLinks b]
        exact hNext b hMem
      · intro d
        have hKept : (Function.update node b { node b with last := ptrAdd b sizeofNode } d).next =
            (node d).next := by
          by_cases hHere : d = b
          · rw [hHere, Function.update_self]
          · rw [Function.update_of_ne hHere]
        exact hKept.trans (hLinks d)
  · rintro ⟨mem, b⟩ ⟨node, _⟩ r ⟨rfl, hIn, hLinks, hRefines⟩ hBody
    simp only [rewindNodesBody, MemPool.rewindNodesBody] at hBody ⊢
    split at hBody
    · rename_i hNull
      obtain rfl := Sum.inr.inj hBody
      rw [if_pos hNull]
      exact ⟨_, rfl, hRefines⟩
    · simp at hBody

end Bytes
end MemPool
end LinuxCppLearn
