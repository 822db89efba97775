import LinuxCppLearn.MemPool.Changes

/-!
# Serving a small request

A request of at most `max` bytes is served from the first node that passes the
test of `mp_alloc`, or from a new one.  If the search does not come to a node
that overshoots, the region lies in a node and the pool keeps its invariant.

* `carve_served`, `mpAllocBlock_served` — the two ways.
* `mpAlloc_small_cases`, `mpAlloc_large_cases` — the branches of `mp_alloc`.
* `mpAlloc_small`, `mpAlloc_overshoot` — `mp_alloc` up to `max`.
* `mpAlloc_tiny` — in a pool too small for a header, a larger request is never
  served.
-/

namespace LinuxCppLearn
namespace MemPool

open LinkedChain Regions

/-- A request of `n` bytes has been served with `m`, from the state `s` to `s'`. -/
structure Served (size : Nat) (s s' : Pool) (nodes larges pending : List Nat) (m n : Nat) :
    Prop where
  inv : Inv size s' nodes larges pending
  header_eq : s'.header = s.header
  large_eq : s'.large = s.large
  max_eq : s'.max = s.max
  record : s'.carved = ⟨m, n⟩ :: s.carved
  ne_null : m ≠ 0
  place : ∃ h ∈ nodes, h + sizeofNode ≤ m ∧ m + n ≤ (s'.node h).last
  fresh : 0 < n → m ∉ larges

variable {size : Nat} {s s' : Pool} {nodes larges pending : List Nat} {m n q fuel : Nat}

/-- Where `mp_alloc` takes memory from a node, against the node's bounds. -/
theorem carve_bounds (hInv : Inv size s nodes larges pending) (hMem : q ∈ nodes) :
    q + sizeofNode ≤ (s.node q).last ∧ (s.node q).last ≤ (carve s q n).1 ∧
      (s.node q).end_ = q + sizeofNode + size ∧ q + sizeofNode + size ≤ addressTop := by
  have hSpans := hInv.spans q hMem
  have hTop := hInv.end_le_top hMem
  have hLast := hSpans.last_le_end
  have hEnd := hSpans.end_eq
  exact ⟨hSpans.start_le_last, (mpAlignPtr_spec (by omega)).1, hEnd, hTop⟩

/-- No header lies at an address which every node that spans it has free. -/
theorem not_header_of_free (hInv : Inv size s nodes larges pending)
    (hFree : ∀ h ∈ nodes, h + sizeofNode ≤ m → m < h + sizeofNode + size →
      (s.node h).last ≤ m) : m ∉ larges := by
  intro hOld
  obtain ⟨h, hIn, hLow, hHigh⟩ := hInv.header_inside m hOld
  have hSpans := hInv.spans h hIn
  have hLast := hSpans.last_le_end
  have hEnd := hSpans.end_eq
  have hLarge : sizeofLarge = 16 := rfl
  have hAbove := hFree h hIn hLow (by omega)
  omega

theorem carve_served (hInv : Inv size s nodes larges pending) (hMem : q ∈ nodes)
    (hRoom : HasRoom s.node n q) :
    Served size s (carve s q n).2 nodes larges pending (carve s q n).1 n := by
  obtain ⟨hStart, hAbove, hEnd, hTop⟩ := carve_bounds (n := n) hInv hMem
  have hFits : (carve s q n).1 + n ≤ (s.node q).end_ := hRoom
  have hBound : addressTop < 2 ^ 64 := by decide
  have hNode : sizeofNode = 32 := rfl
  have hAdd : ptrAdd (carve s q n).1 n = (carve s q n).1 + n := ptrAdd_eq (by omega)
  have hTaken := inv_take hInv (h := q) (a := (carve s q n).1 + n) (by omega) hFits
  have hRecorded := inv_record (r := ⟨(carve s q n).1, n⟩) hTaken hMem
    (Nat.le_trans hStart hAbove) (hEnd ▸ hFits)
  rw [← hAdd] at hRecorded
  refine ⟨hRecorded, rfl, rfl, rfl, rfl, by omega, ⟨q, hMem, by omega, ?_⟩, ?_⟩
  · show _ ≤ (Function.update s.node q
      { s.node q with last := ptrAdd (carve s q n).1 n } q).last
    rw [Function.update_self]
    exact Nat.le_of_eq hAdd.symm
  · intro hPos
    apply not_header_of_free hInv
    intro h hIn hLow hHigh
    -- blocks do not overlap, so the only node around the address is `q`
    obtain rfl : h = q := hInv.node_unique (x := (carve s q n).1) hIn hMem
      (by omega) (by omega) (by omega) (by omega)
    exact hAbove

/-- The block that `mp_alloc_block` asks for. -/
theorem psize_eq (hInv : Inv size s nodes larges pending) :
    ptrDiff (s.node s.head).end_ s.head = sizeofNode + size := by
  have hEnd := (hInv.spans s.head hInv.head_mem).end_eq
  have hTop := hInv.end_le_top hInv.head_mem
  have hBound : addressTop < 2 ^ 64 := by decide
  rw [ptrDiff_of_le (by omega) (by omega), hEnd]
  omega

/-- The list from `current` on, in the memory where a new node at `c` has been
written. -/
theorem Inv.chain_new {c : Nat} (hInv : Inv size s nodes larges pending) (hNew : c ∉ nodes)
    (x : MpNode) :
    ∃ l, Chain (nodeNext (Function.update s.node c x)) 0 s.current l ∧ l <:+ nodes := by
  obtain ⟨l, hChain, hSuffix⟩ := hInv.chain.suffix hInv.current_mem
  refine ⟨l, hChain.congr ?_, hSuffix⟩
  intro b hIn
  have hOther : b ≠ c := ne_of_mem_of_not_mem (hSuffix.subset hIn) hNew
  simp [nodeNext, hOther]

/-- The walk of `mp_alloc_block`, in the memory where the new node at `c` has
been written. -/
theorem bumpFailed_new {c t current' : Nat} {x : MpNode} {node' : Nat → MpNode}
    (hInv : Inv size s nodes larges pending) (hNew : c ∉ nodes)
    (hWalk : bumpFailed fuel (Function.update s.node c x) s.current s.current =
      some (t, current', node')) :
    (t ∈ nodes ∧ (s.node t).next = 0) ∧ current' ∈ nodes ∧
      SameButFailed (Function.update s.node c x) node' := by
  obtain ⟨l, hChain, hSuffix⟩ := hInv.chain_new hNew x
  obtain ⟨⟨hTail, hLast⟩, hCurrent, hSame⟩ := bumpFailed_spec hChain hInv.current_ne hWalk
  have hTailNodes : t ∈ nodes := hSuffix.subset hTail
  rw [Function.update_of_ne (ne_of_mem_of_not_mem hTailNodes hNew)] at hLast
  refine ⟨⟨hTailNodes, hLast⟩, ?_, hSame⟩
  rcases hCurrent with rfl | hMoved
  · exact hInv.current_mem
  · exact hSuffix.subset hMoved

/-- The nodes behind the walk, with the new node `x` linked to the last one. -/
theorem linked_nodes {c t : Nat} {x : MpNode} {node node' : Nat → MpNode} (hNew : c ∉ nodes)
    (hTail : t ∈ nodes) (hSame : SameButFailed (Function.update node c x) node') :
    (∀ b, (b = c → (Function.update node' t { node' t with next := c } b).last = x.last ∧
        (Function.update node' t { node' t with next := c } b).end_ = x.end_ ∧
        (Function.update node' t { node' t with next := c } b).next = x.next) ∧
      (b ∈ nodes → (Function.update node' t { node' t with next := c } b).last = (node b).last ∧
        (Function.update node' t { node' t with next := c } b).end_ = (node b).end_ ∧
        (b ≠ t → (Function.update node' t { node' t with next := c } b).next = (node b).next))) := by
  have hNe : t ≠ c := ne_of_mem_of_not_mem hTail hNew
  intro b
  obtain ⟨hLast, hEnd, hNext⟩ := hSame b
  constructor
  · rintro rfl
    rw [Function.update_self] at hLast hEnd hNext
    rw [Function.update_of_ne (Ne.symm hNe)]
    exact ⟨hLast, hEnd, hNext⟩
  · intro hIn
    rw [Function.update_of_ne (ne_of_mem_of_not_mem hIn hNew)] at hLast hEnd hNext
    by_cases hHere : b = t
    · subst hHere
      rw [Function.update_self]
      exact ⟨hLast, hEnd, fun hOther => absurd rfl hOther⟩
    · rw [Function.update_of_ne hHere]
      exact ⟨hLast, hEnd, fun _ => hNext⟩

/-- A new block is aligned, and so is the address behind its structure. -/
theorem new_block_data {c : Nat} (hAligned : c % 32 = 0)
    (hInside : c + (sizeofNode + size) ≤ addressTop) :
    mpAlignPtr (ptrAdd c sizeofNode) mpAlignment = c + sizeofNode := by
  have hNode : sizeofNode = 32 := rfl
  have hBound : addressTop < 2 ^ 64 := by decide
  rw [ptrAdd_eq (by omega)]
  obtain ⟨hLow, _, _, hLeast⟩ := mpAlignPtr_spec (p := c + sizeofNode) (by omega)
  have hUp := hLeast (c + sizeofNode) (Nat.le_refl _) (by omega)
  omega

/-- A new block hands out the memory behind its structure. -/
theorem mpAllocBlock_served (hInv : Inv size s nodes larges pending) (hSize : n ≤ s.max)
    (hRun : mpAllocBlock fuel s n = some (m, s')) :
    (m = 0 ∧ Inv size s' nodes larges pending ∧ s'.carved = s.carved) ∨
      ∃ c, m = c + sizeofNode ∧ Served size s s' (nodes ++ [c]) larges pending m n := by
  unfold mpAllocBlock at hRun
  rw [psize_eq hInv] at hRun
  rcases hAsk : s.posixMemalign mpAlignment (sizeofNode + size) with ⟨c, heap⟩
  simp only [hAsk] at hRun
  obtain ⟨⟨hNodes, hHeaders⟩, hAnswer⟩ := inv_request hInv hAsk
  rcases hAnswer with ⟨rfl, _, hFailed⟩ | ⟨hPtr, _, hAligned, hLive, hGranted⟩
  · left
    simp only [if_true, Option.some.injEq, Prod.mk.injEq] at hRun
    obtain ⟨rfl, rfl⟩ := hRun
    exact ⟨rfl, hFailed, rfl⟩
  · right
    have hNode : sizeofNode = 32 := rfl
    have hBound : addressTop < 2 ^ 64 := by decide
    have hMax := hInv.max_le.1
    rw [Nat.max_eq_left (by omega)] at hLive
    have hInside : c + (sizeofNode + size) ≤ addressTop := (heap.live.inside _ hLive).2.2
    have hNew : c ∉ nodes := new_node_not_mem hGranted hLive
    have hData := new_block_data hAligned hInside
    have hLast : ptrAdd (c + sizeofNode) n = c + sizeofNode + n := ptrAdd_eq (by omega)
    have hEnd : ptrAdd c (sizeofNode + size) = c + (sizeofNode + size) := ptrAdd_eq (by omega)
    simp only [hPtr, if_false, hData, hLast, hEnd] at hRun
    split at hRun
    · simp at hRun
    · rename_i t current' node' hWalk
      simp only [Option.some.injEq, Prod.mk.injEq] at hRun
      obtain ⟨rfl, rfl⟩ := hRun
      obtain ⟨⟨hTail, hTailNext⟩, hCurrent, hSame⟩ :=
        bumpFailed_new (s := { s with toHeap := heap }) hGranted hNew hWalk
      have hLinked := linked_nodes hNew hTail hSame
      obtain ⟨hNewLast, hNewEnd, hNewNext⟩ := (hLinked c).1 rfl
      dsimp only at hNewLast hNewEnd hNewNext
      have hCurrent' : (if current' ≠ 0 then current' else c) ∈ nodes ++ [c] := by
        rw [if_pos (hInv.chain.ne_null_of_mem hCurrent)]
        exact List.mem_append_left _ hCurrent
      have hGrown := inv_grow hGranted hLive hAligned hTail hTailNext
        ⟨by omega, by omega, by omega⟩ hNewNext (by rw [Function.update_self])
        (fun b hIn => ⟨((hLinked b).2 hIn).1, ((hLinked b).2 hIn).2.1⟩)
        (fun b hIn hOther => ((hLinked b).2 hIn).2.2 hOther) hCurrent'
      have hMem : c ∈ nodes ++ [c] := List.mem_append_right _ List.mem_cons_self
      have hRecorded := inv_record (r := ⟨c + sizeofNode, n⟩) hGrown hMem (Nat.le_refl _)
        (show c + sizeofNode + n ≤ c + sizeofNode + size by omega)
      refine ⟨c, rfl, hRecorded, hHeaders, rfl, rfl, rfl, by omega,
        ⟨c, hMem, Nat.le_refl _, Nat.le_of_eq hNewLast.symm⟩, ?_⟩
      intro hPos
      apply not_header_of_free hInv
      intro h hIn hLow hHigh
      -- an old node around the address would be the new one
      obtain rfl : h = c := hGrown.node_unique (x := c + sizeofNode)
        (List.mem_append_left _ hIn) hMem (by omega) (by omega) (by omega) (by omega)
      exact absurd hIn hNew

/-- The search for a node, if it comes to none that overshoots. -/
theorem Inv.search_hasRoom (hInv : Inv size s nodes larges pending) (hSize : n ≤ s.max)
    (hClear : ¬ MeetsOvershoot s.node n s.current)
    (hFit : findFit s.node n fuel s.current = some q) :
    q = 0 ∨ q ∈ nodes ∧ HasRoom s.node n q := by
  obtain ⟨l, hChain, hSuffix⟩ := hInv.chain.suffix hInv.current_mem
  have hBound : BoundedNodes s.node l := fun h hIn => hInv.boundedNodes h (hSuffix.subset hIn)
  have hFound := findFit_hasRoom hChain hInv.current_ne hBound
    (Nat.le_trans hSize hInv.max_le.2) hFit hClear
  exact hFound.imp id fun ⟨hMem, hRoom⟩ => ⟨hSuffix.subset hMem, hRoom⟩

/-- The search for a node, if it comes to one that overshoots. -/
theorem Inv.search_overshoot (hInv : Inv size s nodes larges pending) (hSize : n ≤ s.max)
    (hMeets : MeetsOvershoot s.node n s.current)
    (hFit : findFit s.node n fuel s.current = some q) : q ∈ nodes ∧ Overshoots s.node q := by
  obtain ⟨l, hChain, hSuffix⟩ := hInv.chain.suffix hInv.current_mem
  have hBound : BoundedNodes s.node l := fun h hIn => hInv.boundedNodes h (hSuffix.subset hIn)
  obtain ⟨hMem, hOver⟩ := findFit_overshoot hChain hInv.current_ne hBound
    (Nat.le_trans hSize hInv.max_le.2) hFit hMeets
  exact ⟨hSuffix.subset hMem, hOver⟩

/-- A request up to `max` takes memory from the node that the search answers, or
from a new one. -/
theorem mpAlloc_small_cases (hSize : n ≤ s.max) (hRun : mpAlloc fuel s n = some (m, s')) :
    ∃ fuel' q, findFit s.node n fuel' s.current = some q ∧
      ((q = 0 ∧ mpAllocBlock fuel' s n = some (m, s')) ∨
        (q ≠ 0 ∧ m = (carve s q n).1 ∧ s' = (carve s q n).2)) := by
  cases fuel with
  | zero => simp [mpAlloc] at hRun
  | succ fuel =>
      unfold mpAlloc at hRun
      rw [if_pos hSize] at hRun
      split at hRun
      · simp at hRun
      · rename_i q hFit
        refine ⟨fuel, q, hFit, ?_⟩
        split at hRun
        · rename_i hPtr
          have hCarved := (Option.some.inj hRun).symm
          exact .inr ⟨hPtr, congrArg Prod.fst hCarved, congrArg Prod.snd hCarved⟩
        · rename_i hNull
          exact .inl ⟨not_not.mp hNull, hRun⟩

/-- A larger request goes to `mp_alloc_large`. -/
theorem mpAlloc_large_cases (hSize : ¬ n ≤ s.max) (hRun : mpAlloc fuel s n = some (m, s')) :
    ∃ fuel', mpAllocLarge (mpAlloc fuel') s n = some (m, s') := by
  cases fuel with
  | zero => simp [mpAlloc] at hRun
  | succ fuel =>
      unfold mpAlloc at hRun
      rw [if_neg hSize] at hRun
      exact ⟨fuel, hRun⟩

/-- A request up to `max` whose search comes to no node that overshoots. -/
theorem mpAlloc_small (hInv : Inv size s nodes larges pending) (hSize : n ≤ s.max)
    (hClear : ¬ MeetsOvershoot s.node n s.current) (hRun : mpAlloc fuel s n = some (m, s')) :
    (m = 0 ∧ Inv size s' nodes larges pending ∧ s'.carved = s.carved) ∨
      ∃ nodes', Served size s s' nodes' larges pending m n := by
  obtain ⟨fuel', q, hFit, hCases⟩ := mpAlloc_small_cases hSize hRun
  rcases hCases with ⟨-, hBlock⟩ | ⟨hPtr, rfl, rfl⟩
  · rcases mpAllocBlock_served hInv hSize hBlock with hFailed | ⟨c, -, hServed⟩
    · exact .inl hFailed
    · exact .inr ⟨nodes ++ [c], hServed⟩
  · obtain ⟨hMem, hRoom⟩ := (hInv.search_hasRoom hSize hClear hFit).resolve_left hPtr
    exact .inr ⟨nodes, carve_served hInv hMem hRoom⟩

/-- A request up to `max` whose search does come to such a node. -/
theorem mpAlloc_overshoot (hInv : Inv size s nodes larges pending) (hSize : n ≤ s.max)
    (hMeets : MeetsOvershoot s.node n s.current) (hRun : mpAlloc fuel s n = some (m, s')) :
    ∃ q ∈ nodes, Overshoots s.node q ∧ m = (carve s q n).1 ∧ s' = (carve s q n).2 := by
  obtain ⟨fuel', q, hFit, hCases⟩ := mpAlloc_small_cases hSize hRun
  obtain ⟨hMem, hOver⟩ := hInv.search_overshoot hSize hMeets hFit
  rcases hCases with ⟨hNull, -⟩ | ⟨-, hResult, hState⟩
  · exact absurd hNull (hInv.chain.ne_null_of_mem hMem)
  · exact ⟨q, hMem, hOver, hResult, hState⟩

/-- In a pool too small for a header, each larger request asks for a header,
which is a larger request again; once `malloc` fails, all of it is given back. -/
theorem mpAlloc_tiny (hInv : Inv size s nodes [] pending) (hTiny : s.max < sizeofLarge)
    (hSize : s.max < n) (hRun : mpAlloc fuel s n = some (m, s')) :
    m = 0 ∧ Inv size s' nodes [] pending ∧ s'.carved = s.carved := by
  induction fuel generalizing s s' pending m n with
  | zero => simp [mpAlloc] at hRun
  | succ fuel ih =>
      unfold mpAlloc mpAllocLarge at hRun
      rw [if_neg (Nat.not_le_of_lt hSize)] at hRun
      rcases hAsk : s.malloc n with ⟨p, heap⟩
      simp only [hAsk] at hRun
      rcases (inv_request hInv hAsk).2 with ⟨rfl, _, hFailed⟩ | ⟨hPtr, _, _, _, hGranted⟩
      · simp only [if_true, Option.some.injEq, Prod.mk.injEq] at hRun
        obtain ⟨rfl, rfl⟩ := hRun
        exact ⟨rfl, hFailed, rfl⟩
      · have hNoHeaders : s.large = 0 := hInv.headers
        have hNoSlot : freeSlot s.header 5 s.large = none := by
          rw [hNoHeaders]
          exact freeSlot_null s.header 5
        simp only [hPtr, if_false, hNoSlot, attachLarge] at hRun
        split at hRun
        · simp at hRun
        · rename_i l s'' hHeader
          -- the header is too large for the pool as well
          obtain ⟨rfl, hDone, hRecord⟩ := ih hGranted hTiny hTiny hHeader
          simp only [if_true, Option.some.injEq, Prod.mk.injEq] at hRun
          obtain ⟨rfl, rfl⟩ := hRun
          exact ⟨rfl, inv_free hDone hPtr, hRecord⟩

end MemPool
end LinuxCppLearn
