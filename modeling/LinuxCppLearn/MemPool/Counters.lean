import LinuxCppLearn.MemPool.SmallRequests

/-!
# The counters of `mp_alloc_block`

When `mp_alloc_block` links a new node, it counts a failure for every node from
`current` to the last but one, and moves `current` behind a node that has failed
more than four times before.  So the counters of the nodes from `current` on
fall by one from node to node and end with two zeroes, `current` moves with each
new node from the eighth on, and the nodes from `current` on are the last seven.

* `bump`, `movedTo` — what the walk does to the counters and to `current`.
* `bumpFailed_walk` — the loop does it.
* `Counted` — the counters of the list and the place of `current`.
* `Counted.grow` — a new node keeps this.
-/

namespace LinuxCppLearn
namespace MemPool

open LinkedChain

/-- The `failed` fields of the nodes, in order. -/
def counts (node : Nat → MpNode) (nodes : List Nat) : List Nat :=
  nodes.map fun h => (node h).failed

/-- A failure more for each but the last. -/
def bump : List Nat → List Nat
  | [] => []
  | [k] => [k]
  | k :: k' :: ks => (k + 1) % 2 ^ 64 :: bump (k' :: ks)

/-- Where `current` is behind a walk over the nodes. -/
def movedTo (node : Nat → MpNode) : Nat → List Nat → Nat
  | current, h :: h' :: nodes =>
      movedTo node (if 4 < (node h).failed then h' else current) (h' :: nodes)
  | current, _ => current

/-- The counters of `m` nodes in the window: `m - 2`, …, `1`, `0`, `0`. -/
def tally : Nat → List Nat
  | 0 => []
  | 1 => [0]
  | m + 2 => m :: tally (m + 1)

theorem bump_tally {m : Nat} (hPos : 0 < m) (hSmall : m < 2 ^ 64) :
    bump (tally m) ++ [0] = tally (m + 1) := by
  induction m with
  | zero => omega
  | succ m ih =>
      cases m with
      | zero => rfl
      | succ m =>
          cases m with
          | zero => rfl
          | succ m =>
              have hRest := ih (by omega) (by omega)
              show ((m + 1) + 1) % 2 ^ 64 :: bump (tally (m + 2)) ++ [0] = (m + 2) :: tally (m + 3)
              rw [List.cons_append, hRest, Nat.mod_eq_of_lt (by omega)]

theorem tally_le {m k : Nat} (hMem : k ∈ tally m) : k ≤ m - 2 := by
  induction m with
  | zero => simp [tally] at hMem
  | succ m ih =>
      cases m with
      | zero =>
          obtain rfl := List.mem_singleton.mp hMem
          exact Nat.le_refl 0
      | succ m =>
          rcases List.mem_cons.mp hMem with rfl | hRest
          · omega
          · have hLe := ih hRest
            omega

section Walk

variable {node node' : Nat → MpNode} {nodes l : List Nat} {fuel p t c current current' : Nat}

theorem counts_congr (hSame : ∀ h ∈ l, (node' h).failed = (node h).failed) :
    counts node' l = counts node l :=
  List.map_congr_left hSame

/-- Nodes that have failed at most four times leave `current` where it is. -/
theorem movedTo_of_le (hFew : ∀ h ∈ l, (node h).failed ≤ 4) : movedTo node current l = current := by
  induction l generalizing current with
  | nil => rfl
  | cons h l ih =>
      cases l with
      | nil => rfl
      | cons h' l =>
          have hHere : ¬ 4 < (node h).failed := Nat.not_lt.mpr (hFew h List.mem_cons_self)
          rw [movedTo, if_neg hHere]
          exact ih fun b hMem => hFew b (List.mem_cons_of_mem h hMem)

theorem movedTo_congr (hSame : ∀ h ∈ l, (node' h).failed = (node h).failed) :
    movedTo node' current l = movedTo node current l := by
  induction l generalizing current with
  | nil => rfl
  | cons h l ih =>
      cases l with
      | nil => rfl
      | cons h' l =>
          rw [movedTo, movedTo, hSame h List.mem_cons_self]
          exact ih fun b hMem => hSame b (List.mem_cons_of_mem h hMem)

/-- **The loop of `mp_alloc_block`** ends at the last node, counts a failure for
the others, and leaves the nodes which are not on its way. -/
theorem bumpFailed_walk (hChain : Chain (nodeNext node) 0 p l) (hStart : p ≠ 0)
    (hWalk : bumpFailed fuel node p current = some (t, current', node')) :
    l.getLast? = some t ∧ current' = movedTo node current l ∧
      counts node' l = bump (counts node l) ∧ ∀ b, b ∉ l → node' b = node b := by
  induction fuel generalizing p l node current with
  | zero => simp [bumpFailed] at hWalk
  | succ fuel ih =>
      have hNodup := hChain.nodup
      obtain ⟨l', rfl, hRest⟩ := hChain.exists_cons hStart
      have hFresh : p ∉ l' := (List.nodup_cons.mp hNodup).1
      unfold bumpFailed at hWalk
      by_cases hLast : (node p).next = 0
      · rw [if_pos hLast] at hWalk
        simp only [Option.some.injEq, Prod.mk.injEq] at hWalk
        obtain ⟨rfl, rfl, rfl⟩ := hWalk
        rw [show nodeNext node p = 0 from hLast] at hRest
        obtain rfl := hRest.eq_nil
        exact ⟨rfl, rfl, rfl, fun _ _ => rfl⟩
      · rw [if_neg hLast] at hWalk
        let node₁ := Function.update node p { node p with failed := ((node p).failed + 1) % 2 ^ 64 }
        have hOther : ∀ b, b ≠ p → node₁ b = node b := fun b hNe => Function.update_of_ne hNe _ _
        have hTail : ∀ b ∈ l', (node₁ b).failed = (node b).failed :=
          fun b hMem => by rw [hOther b (ne_of_mem_of_not_mem hMem hFresh)]
        have hRest₁ : Chain (nodeNext node₁) 0 (node p).next l' :=
          hRest.congr fun b _ => (sameButFailed_update node p _ b).2.2
        obtain ⟨hEnd, hMoved, hCounts, hKept⟩ := ih hRest₁ hLast hWalk
        obtain ⟨l'', rfl, _⟩ := hRest.exists_cons hLast
        have hHere : node' p = node₁ p := hKept p hFresh
        refine ⟨hEnd, ?_, ?_, ?_⟩
        · rw [hMoved, movedTo_congr hTail]
          rfl
        · have hSelf : (node' p).failed = ((node p).failed + 1) % 2 ^ 64 := by
            rw [hHere]
            rw [show node₁ p = _ from Function.update_self ..]
          show (node' p).failed :: counts node' _ = _
          rw [hSelf, hCounts, counts_congr hTail]
          rfl
        · intro b hNot
          rw [List.mem_cons, not_or] at hNot
          rw [hKept b hNot.2, hOther b hNot.1]

end Walk

/-- The counters of the list `nodes`: the nodes from `current` on are the last
seven, or all of up to seven. -/
structure Counted (node : Nat → MpNode) (nodes : List Nat) (current : Nat)
    (front behind : List Nat) : Prop where
  nodes_eq : nodes = front ++ current :: behind
  front_failed : ∀ h ∈ front, (node h).failed = 6
  window_failed : counts node (current :: behind) = tally (behind.length + 1)
  behind_le : behind.length ≤ 6
  full : front = [] ∨ behind.length = 6

section Window

variable {node node' : Nat → MpNode} {nodes front behind : List Nat}
  {current current' c t fuel : Nat} {x : MpNode}

theorem Counted.window_subset (h : Counted node nodes current front behind) :
    current :: behind ⊆ nodes := by
  rw [h.nodes_eq]
  exact List.subset_append_right front _

theorem Counted.current_mem (h : Counted node nodes current front behind) : current ∈ nodes :=
  h.window_subset List.mem_cons_self

/-- Before the window are all nodes but seven. -/
theorem Counted.front_length (h : Counted node nodes current front behind) :
    front.length = nodes.length - 7 := by
  have hLength : nodes.length = front.length + (behind.length + 1) := by
    rw [h.nodes_eq, List.length_append, List.length_cons]
  have hLe := h.behind_le
  rcases h.full with hNone | hFull
  · rw [hNone, List.length_nil] at hLength ⊢
    omega
  · omega

theorem Counted.congr (h : Counted node nodes current front behind)
    (hSame : ∀ b, (node' b).failed = (node b).failed) :
    Counted node' nodes current front behind :=
  { h with
    front_failed := fun b hMem => (hSame b).trans (h.front_failed b hMem)
    window_failed := (counts_congr fun b _ => hSame b).trans h.window_failed }

theorem Counted.chain_window (h : Counted node nodes current front behind) {a : Nat}
    (hChain : Chain (nodeNext node) 0 a nodes) :
    Chain (nodeNext node) 0 current (current :: behind) := by
  rw [h.nodes_eq] at hChain
  exact hChain.behind

/-- A node of the window has failed less often, the further back it is. -/
theorem Counted.behind_failed_le (h : Counted node nodes current front behind) :
    ∀ b ∈ behind, (node b).failed ≤ 4 := by
  intro b hMem
  cases hBehind : behind with
  | nil => simp [hBehind] at hMem
  | cons d rest =>
      have hTally := h.window_failed
      have hLe := h.behind_le
      rw [hBehind] at hTally hMem hLe
      have hTail : counts node (d :: rest) = tally (rest.length + 1) :=
        (List.cons.inj hTally).2
      have hIn : (node b).failed ∈ tally (rest.length + 1) :=
        hTail ▸ List.mem_map_of_mem hMem
      have hBound := tally_le hIn
      rw [List.length_cons] at hLe
      omega

/-- `current` leaves the first node of a window of seven, which has failed more
than four times then. -/
theorem Counted.movedTo_eq {d : Nat} {rest : List Nat}
    (h : Counted node nodes current front (d :: rest)) :
    movedTo node current (current :: d :: rest) = if rest.length = 5 then d else current := by
  have hFirst : (node current).failed = rest.length := (List.cons.inj h.window_failed).1
  have hLe : rest.length + 1 ≤ 6 := h.behind_le
  rw [movedTo, hFirst, movedTo_of_le h.behind_failed_le]
  by_cases hSeven : rest.length = 5
  · rw [if_pos (by omega), if_pos hSeven]
  · rw [if_neg (by omega), if_neg hSeven]

/-- One more node behind the window: below seven nodes the window grows, a
window of seven slides. -/
theorem Counted.slide (h : Counted node nodes current front behind)
    (hSix : ∀ b ∈ front, (node' b).failed = 6)
    (hAll : counts node' (current :: behind ++ [c]) = tally (behind.length + 2)) :
    ∃ front' behind',
      Counted node' (nodes ++ [c]) (movedTo node current (current :: behind)) front' behind' := by
  have hNodes := h.nodes_eq
  cases behind with
  | nil =>
      have hFront : front = [] := h.full.resolve_right (by simp)
      refine ⟨front, [c], ?_, hSix, hAll, by simp, .inl hFront⟩
      rw [hNodes, List.append_assoc]
      rfl
  | cons d rest =>
      have hLe : rest.length + 1 ≤ 6 := h.behind_le
      rw [h.movedTo_eq]
      by_cases hSeven : rest.length = 5
      · rw [if_pos hSeven]
        rw [List.length_cons, hSeven] at hAll
        obtain ⟨hHead, hTail⟩ := List.cons.inj hAll
        refine ⟨front ++ [current], rest ++ [c], ?_, ?_, ?_, ?_, .inr ?_⟩
        · rw [hNodes]
          simp
        · intro b hMem
          rcases List.mem_append.mp hMem with hOldFront | hHere
          · exact hSix b hOldFront
          · rw [List.mem_singleton.mp hHere]
            exact hHead
        · rw [List.length_append, hSeven]
          exact hTail
        · rw [List.length_append, hSeven, List.length_singleton]
        · rw [List.length_append, hSeven, List.length_singleton]
      · rw [if_neg hSeven]
        have hNotFull : (d :: rest).length ≠ 6 := by
          rw [List.length_cons]
          omega
        refine ⟨front, d :: rest ++ [c], ?_, hSix, ?_, ?_, .inl (h.full.resolve_right hNotFull)⟩
        · rw [hNodes]
          simp
        · rw [List.length_append, List.length_singleton]
          exact hAll
        · rw [List.length_append, List.length_cons, List.length_singleton]
          omega

/-- **A new node**, linked behind the last one by `mp_alloc_block`. -/
theorem Counted.grow {a : Nat} (h : Counted node nodes current front behind)
    (hChain : Chain (nodeNext node) 0 a nodes) (hNew : c ∉ nodes) (hFailed : x.failed = 0)
    (hWalk : bumpFailed fuel (Function.update node c x) current current =
      some (t, current', node')) :
    ∃ front' behind',
      Counted (Function.update node' t { node' t with next := c }) (nodes ++ [c]) current'
        front' behind' := by
  let node₁ := Function.update node c x
  let node₂ := Function.update node' t { node' t with next := c }
  have hOld : ∀ b ∈ nodes, node₁ b = node b :=
    fun b hMem => Function.update_of_ne (ne_of_mem_of_not_mem hMem hNew) _ _
  have hWindow : ∀ b ∈ current :: behind, b ∈ nodes := fun b hMem => h.window_subset hMem
  have hSame : ∀ b ∈ current :: behind, (node₁ b).failed = (node b).failed :=
    fun b hMem => congrArg MpNode.failed (hOld b (hWindow b hMem))
  have hStart : current ≠ 0 := hChain.ne_null_of_mem h.current_mem
  have hChain₁ : Chain (nodeNext node₁) 0 current (current :: behind) :=
    (h.chain_window hChain).congr fun b hMem =>
      congrArg MpNode.next (hOld b (hWindow b hMem))
  obtain ⟨-, hMoved, hCounts, hKept⟩ := bumpFailed_walk hChain₁ hStart hWalk
  -- linking the new node leaves the counters
  have hLinked : ∀ b, (node₂ b).failed = (node' b).failed := by
    intro b
    by_cases hHere : b = t
    · subst hHere
      rw [show node₂ b = _ from Function.update_self ..]
    · rw [show node₂ b = node' b from Function.update_of_ne hHere _ _]
  have hSix : ∀ b ∈ front, (node₂ b).failed = 6 := by
    intro b hMem
    have hNodup := hChain.nodup
    rw [h.nodes_eq] at hNodup
    have hBefore : b ∉ current :: behind := (List.disjoint_of_nodup_append hNodup) hMem
    have hIn : b ∈ nodes := h.nodes_eq ▸ List.mem_append_left _ hMem
    rw [hLinked, hKept b hBefore, hOld b hIn]
    exact h.front_failed b hMem
  have hZero : (node₂ c).failed = 0 := by
    rw [hLinked, hKept c fun hMem => hNew (hWindow c hMem)]
    rw [show node₁ c = x from Function.update_self ..]
    exact hFailed
  have hAll : counts node₂ (current :: behind ++ [c]) = tally (behind.length + 2) := by
    have hTallied : counts node₂ (current :: behind) = bump (tally (behind.length + 1)) := by
      rw [counts_congr fun b _ => hLinked b, hCounts, counts_congr hSame, h.window_failed]
    have hLe := h.behind_le
    rw [counts, List.map_append, ← counts, hTallied, List.map_singleton, hZero,
      bump_tally (Nat.succ_pos _) (by omega)]
  rw [hMoved, movedTo_congr hSame]
  exact h.slide hSix hAll

/-- The list with the new node, which the loop of `mp_alloc_block` has linked
behind its last one. -/
theorem Counted.link {a : Nat} (h : Counted node nodes current front behind)
    (hChain : Chain (nodeNext node) 0 a nodes) (hNew : c ∉ nodes) (hPtr : c ≠ 0)
    (hEnds : x.next = 0)
    (hWalk : bumpFailed fuel (Function.update node c x) current current =
      some (t, current', node')) :
    t ∈ nodes ∧ SameButFailed (Function.update node c x) node' ∧
      Chain (nodeNext (Function.update node' t { node' t with next := c })) 0 a (nodes ++ [c]) := by
  have hWindow : ∀ b ∈ current :: behind, b ∈ nodes := fun b hMem => h.window_subset hMem
  have hOld : ∀ b ∈ nodes, Function.update node c x b = node b :=
    fun b hMem => Function.update_of_ne (ne_of_mem_of_not_mem hMem hNew) _ _
  have hStart : current ≠ 0 := hChain.ne_null_of_mem h.current_mem
  -- the walk is over the window, in the memory with the new node
  have hChain₁ : Chain (nodeNext (Function.update node c x)) 0 current (current :: behind) :=
    (h.chain_window hChain).congr fun b hMem =>
      congrArg MpNode.next (hOld b (hWindow b hMem))
  obtain ⟨⟨hTail, hLast⟩, -, hSame⟩ := bumpFailed_spec hChain₁ hStart hWalk
  have hTailMem : t ∈ nodes := hWindow t hTail
  rw [hOld t hTailMem] at hLast
  have hLinked := linked_nodes hNew hTailMem hSame
  refine ⟨hTailMem, hSame, hChain.snoc hTailMem hLast hPtr ?_ ?_ fun b hMem hOther =>
    ((hLinked b).2 hMem).2.2 hOther⟩
  · show (Function.update node' t { node' t with next := c } t).next = c
    rw [Function.update_self]
  · exact ((hLinked c).1 rfl).2.2.trans hEnds

end Window

end MemPool
end LinuxCppLearn
