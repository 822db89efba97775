import LinuxCppLearn.MemPool.InUse

/-!
# The same call on two memories

A call on a pool in two memories which show the same structures, with the same
answers of the system.

* `Takes` — the memory that a call takes for structures of its own or clears.
* `execLinks` — the links that it reads.
* `exec_twins` — a call that takes no memory with a structure in it, and reads no link
  that may differ, answers alike, and leaves two memories which show the same structures.
* `mpDestoryPool_twins` — both runs give back the same memory.
-/

namespace LinuxCppLearn
namespace MemPool
namespace Bytes

open ByteMemory Regions Lockstep

/-! ## The memory that a call takes -/

/-- The search of `mp_alloc` ends at `p`; at `NULL` if no node passes the test. -/
def SearchEnds (f : Pool) (n p : Nat) : Prop :=
  ∃ fuel, findFit (nodeAt f.mem) n fuel (poolAt f.mem f.addr).current = some p

/-- A request of `n ≤ max` bytes makes the system return the block `c`. -/
def OpensBlock (f : Pool) (n c : Nat) : Prop :=
  SearchEnds f n 0 ∧
    f.typed.Grants mpAlignment (ptrDiff (nodeAt f.mem f.head).end_ f.head) ∧
    c = f.answer f.asked

/-- A request of `n ≤ max` bytes is served at `m`. -/
def ServedAt (f : Pool) (n m : Nat) : Prop :=
  (∃ p, p ≠ 0 ∧ SearchEnds f n p ∧ m = mpAlignPtr (nodeAt f.mem p).last mpAlignment) ∨
    ∃ c, OpensBlock f n c ∧ m = mpAlignPtr (ptrAdd c sizeofNode) mpAlignment

/-- What a call takes memory for. -/
inductive Taking
  | node
  | header
  | cleared
deriving DecidableEq, Repr

def SmallTakes (f : Pool) (n : Nat) : Taking → Region → Prop
  | .node, r => ∃ c, OpensBlock f n c ∧ r = ⟨c, sizeofNode⟩
  | .header, _ | .cleared, _ => False

def HeaderTakes (f : Pool) : Taking → Region → Prop
  | .node, r => sizeofLarge ≤ (poolAt f.mem f.addr).max ∧ SmallTakes f sizeofLarge .node r
  | .header, r =>
      sizeofLarge ≤ (poolAt f.mem f.addr).max ∧
        ∃ l, ServedAt f sizeofLarge l ∧ r = ⟨l, sizeofLarge⟩
  | .cleared, _ => False

def AllocTakes (f : Pool) (n : Nat) (what : Taking) (r : Region) : Prop :=
  if n ≤ (poolAt f.mem f.addr).max then SmallTakes f n what r
  else
    (f.malloc n).1 ≠ 0 ∧
      freeSlot (headerAt f.mem) 5 (poolAt f.mem f.addr).large = none ∧
      HeaderTakes { f with toRam := (f.malloc n).2 } what r

/-- `mp_calloc` clears `r`. -/
def Clears (f : Pool) (n : Nat) (r : Region) : Prop :=
  ∃ m, r = ⟨m, n⟩ ∧
    if n ≤ (poolAt f.mem f.addr).max then ServedAt f n m else m ≠ 0 ∧ m = (f.malloc n).1

def Takes (f : Pool) : Op → Taking → Region → Prop
  | .alloc n, what, r => AllocTakes f n what r
  | .calloc n, .cleared, r => Clears f n r
  | .calloc n, what, r => AllocTakes f n what r
  | .memalign n alignment, what, r =>
      (f.posixMemalign alignment n).1 ≠ 0 ∧
        HeaderTakes { f with toRam := (f.posixMemalign alignment n).2 } what r
  | .free _, _, _ | .reset, _, _ => False

/-- What is taken holds no structure, and is taken for one purpose. -/
def TakenSpared (K : Region → Prop) (T : Taking → Region → Prop) : Prop :=
  ∀ what r, T what r → Spared K r ∧ ∀ what' r', T what' r' → what ≠ what' → r.Apart r'

/-! ## The links that a call reads -/

/-- The search for room, and the walk to the end behind one that finds none. -/
def smallLinks (fuel : Nat) (f : Pool) (n : Nat) : List Nat :=
  searchLinks f.mem n fuel (poolAt f.mem f.addr).current ++
    if findFit (nodeAt f.mem) n fuel (poolAt f.mem f.addr).current = some 0 then
      walkLinks f.mem fuel (poolAt f.mem f.addr).current
    else []

/-- A large request reads what its request for a header reads. -/
def allocLinks : Nat → Pool → Nat → List Nat
  | 0, _, _ => []
  | fuel + 1, f, n =>
      if n ≤ (poolAt f.mem f.addr).max then smallLinks fuel f n
      else if (f.malloc n).1 ≠ 0 ∧
          freeSlot (headerAt f.mem) 5 (poolAt f.mem f.addr).large = none then
        allocLinks fuel { f with toRam := (f.malloc n).2 } sizeofLarge
      else []

def execLinks (fuel : Nat) (f : Pool) : Op → List Nat
  | .alloc n | .calloc n => allocLinks fuel f n
  | .memalign n alignment =>
      if (f.posixMemalign alignment n).1 ≠ 0 then
        allocLinks fuel { f with toRam := (f.posixMemalign alignment n).2 } sizeofLarge
      else []
  | .free _ => []
  | .reset => walkLinks f.mem fuel f.head

def destoryLinks (fuel : Nat) (f : Pool) : List Nat :=
  walkLinks f.mem (fuel + 1) f.head

/-! ## Two runs at one pool -/

/-- The same pool on two memories which show the same structures. -/
structure Twins (pools unread : List Nat) (M : Nat → Nat) (K : Region → Prop) (f g : Pool) :
    Prop where
  addr_eq : g.addr = f.addr
  addr_mem : f.addr ∈ pools
  system : SameSystem f.typed g.typed
  alike : Alike pools unread M K f.mem g.mem

section Calls

variable {pools unread : List Nat} {M : Nat → Nat} {K K' : Region → Prop} {f g : Pool}
  {mem mem' : Memory} {alignment n p fuel : Nat} {call : Nat → SysCall} {t t' : Heap}

theorem Twins.pool_eq (h : Twins pools unread M K f g) :
    poolAt g.mem g.addr = poolAt f.mem f.addr := by
  rw [h.addr_eq]
  exact h.alike.pool_same h.addr_mem

theorem Twins.head_eq (h : Twins pools unread M K f g) : g.head = f.head := by
  unfold Pool.head
  rw [h.addr_eq]

theorem Twins.max_eq (h : Twins pools unread M K f g) : (poolAt f.mem f.addr).max = M f.addr :=
  h.alike.max_eq _ h.addr_mem

theorem Twins.head_mem (h : Twins pools unread M K f g) : K ⟨f.head, sizeofNode⟩ :=
  h.alike.closed.head _ h.addr_mem

theorem Twins.current_mem (h : Twins pools unread M K f g) :
    K ⟨(poolAt f.mem f.addr).current, sizeofNode⟩ :=
  h.alike.closed.current _ h.addr_mem

theorem Twins.large_mem (h : Twins pools unread M K f g) :
    (poolAt f.mem f.addr).large ≠ 0 → K ⟨(poolAt f.mem f.addr).large, sizeofLarge⟩ :=
  h.alike.closed.large _ h.addr_mem

theorem Twins.withSystem (h : Twins pools unread M K f g) (hSystem : SameSystem t t') :
    Twins pools unread M K { f with toRam := f.withSystem t } { g with toRam := g.withSystem t' } :=
  ⟨h.addr_eq, h.addr_mem,
    ⟨h.system.answer_eq, hSystem.asked_eq, hSystem.live_eq, hSystem.calls_eq⟩, h.alike⟩

theorem Twins.free (h : Twins pools unread M K f g) (p : Nat) :
    Twins pools unread M K { f with toRam := f.free p } { g with toRam := g.free p } :=
  h.withSystem (h.system.free p)

/-- Other memories, and other records of what has been taken. -/
theorem Twins.memory (h : Twins pools unread M K f g) (hAlike : Alike pools unread M K' mem mem')
    (carves carves' : List Carve) :
    Twins pools unread M K' { f with toRam := { f.toRam with mem := mem }, carves := carves }
      { g with toRam := { g.toRam with mem := mem' }, carves := carves' } :=
  ⟨h.addr_eq, h.addr_mem,
    ⟨h.system.answer_eq, h.system.asked_eq, h.system.live_eq, h.system.calls_eq⟩, hAlike⟩

/-- Both runs get the same answer. -/
theorem Twins.request (h : Twins pools unread M K f g)
    (hAsk : f.typed.request alignment n call = (p, t)) :
    ∃ t', g.typed.request alignment n call = (p, t') ∧
      Twins pools unread M K { f with toRam := f.withSystem t }
        { g with toRam := g.withSystem t' } := by
  obtain ⟨t', hAsk', hSystem, -⟩ := h.system.request hAsk
  exact ⟨t', hAsk', h.withSystem hSystem⟩

theorem request_lt (hAsk : f.typed.request alignment n call = (p, t)) : p < 2 ^ 64 := by
  have hBound : addressTop < 2 ^ 64 := by decide
  rcases request_cases hAsk with ⟨rfl, -, -⟩ | ⟨-, hGrants, hBase, -⟩
  · decide
  · have hInside := hGrants.2.2.1.2.2
    omega

theorem served_lt {m : Nat} (h : ServedAt f n m) : m < 2 ^ 64 := by
  have hAligned : ∀ q, mpAlignPtr q mpAlignment < 2 ^ 64 := by
    intro q
    have hWord : ptrAdd q (mpAlignment - 1) < 2 ^ 64 := Nat.mod_lt _ (by decide)
    exact Nat.lt_of_le_of_lt Nat.and_le_left hWord
  rcases h with ⟨p, -, -, rfl⟩ | ⟨c, -, rfl⟩
  · exact hAligned _
  · exact hAligned _

/-! ## Small requests -/

theorem disjoint_small (hSize : n ≤ (poolAt f.mem f.addr).max)
    (hUnread : unread.Disjoint (allocLinks (fuel + 1) f n)) :
    unread.Disjoint (searchLinks f.mem n fuel (poolAt f.mem f.addr).current) ∧
      (findFit (nodeAt f.mem) n fuel (poolAt f.mem f.addr).current = some 0 →
        unread.Disjoint (walkLinks f.mem fuel (poolAt f.mem f.addr).current)) := by
  rw [allocLinks, if_pos hSize, smallLinks, List.disjoint_append_right] at hUnread
  refine ⟨hUnread.1, fun hNone => ?_⟩
  have hWalk := hUnread.2
  rw [if_pos hNone] at hWalk
  exact hWalk

theorem disjoint_large {p : Nat} {ram : Ram} (hSize : ¬ n ≤ (poolAt f.mem f.addr).max)
    (hGot : f.malloc n = (p, ram)) (hPtr : p ≠ 0)
    (hSlot : freeSlot (headerAt f.mem) 5 (poolAt f.mem f.addr).large = none)
    (hUnread : unread.Disjoint (allocLinks (fuel + 1) f n)) :
    unread.Disjoint (allocLinks fuel { f with toRam := ram } sizeofLarge) := by
  rw [allocLinks, if_neg hSize, hGot, if_pos ⟨hPtr, hSlot⟩] at hUnread
  exact hUnread

/-- What two runs of a request up to `max` come to. -/
def SmallTwins (pools unread : List Nat) (M : Nat → Nat) (K : Region → Prop) (f : Pool) (n : Nat)
    (r r' : Nat × Pool) : Prop :=
  r'.1 = r.1 ∧ (r.1 ≠ 0 → ServedAt f n r.1) ∧ r.2.addr = f.addr ∧
    ∃ K', Twins pools unread M K' r.2 r'.2 ∧ ∀ k, K' k → K k ∨ SmallTakes f n .node k

theorem carve_twins (h : Twins pools unread M K f g) (hNode : K ⟨p, sizeofNode⟩) (hPtr : p ≠ 0)
    (hEnds : SearchEnds f n p) : SmallTwins pools unread M K f n (carve f p n) (carve g p n) := by
  have hResult : (carve g p n).1 = (carve f p n).1 := by
    unfold carve
    rw [h.alike.node_fields hNode]
  have hWritten : Alike pools unread M K (setLast f.mem p (ptrAdd (carve f p n).1 n))
      (setLast g.mem p (ptrAdd (carve g p n).1 n)) := by
    rw [hResult]
    exact h.alike.setLast hNode (Nat.mod_lt _ (by decide))
  exact ⟨hResult, fun _ => .inl ⟨p, hPtr, hEnds, rfl⟩, rfl, K, h.memory hWritten _ _,
    fun k hK => .inl hK⟩

theorem mpAllocBlock_twins (h : Twins pools unread M K f g) (hEnds : SearchEnds f n 0)
    (hSpared : ∀ r, SmallTakes f n .node r → Spared K r)
    (hUnread : unread.Disjoint (walkLinks f.mem fuel (poolAt f.mem f.addr).current)) :
    Option.Rel (SmallTwins pools unread M K f n) (mpAllocBlock fuel f n)
      (mpAllocBlock fuel g n) := by
  unfold mpAllocBlock
  rw [h.head_eq, h.alike.node_fields h.head_mem]
  rcases hAsk : f.typed.posixMemalign mpAlignment (ptrDiff (nodeAt f.mem f.head).end_ f.head) with
    ⟨c, t⟩
  obtain ⟨t', hAsk', hAsked⟩ := h.request hAsk
  have hAsk'' : g.typed.posixMemalign mpAlignment (ptrDiff (nodeAt f.mem f.head).end_ f.head) =
    (c, t') := hAsk'
  simp only [Ram.posixMemalign, hAsk, hAsk'']
  by_cases hNull : c = 0
  · rw [if_pos hNull, if_pos hNull]
    exact .some ⟨rfl, fun hSome => absurd rfl hSome, rfl, K, hAsked, fun k hK => .inl hK⟩
  · rw [if_neg hNull, if_neg hNull]
    have hOpens : OpensBlock f n c := by
      rcases request_cases hAsk with ⟨hRefused, -, -⟩ | ⟨-, hGrants, hBase, -⟩
      · exact absurd hRefused hNull
      · exact ⟨hEnds, hGrants, hBase⟩
    have hZero : 0 < 2 ^ 64 := by decide
    have hAdded := h.alike.addNode (hSpared _ ⟨c, hOpens, rfl⟩)
      (x := ptrAdd (mpAlignPtr (ptrAdd c sizeofNode) mpAlignment) n)
      (e := ptrAdd c (ptrDiff (nodeAt f.mem f.head).end_ f.head))
      (Nat.mod_lt _ hZero) (Nat.mod_lt _ hZero)
    have hOut := (newNode_written f.mem c
      (x := ptrAdd (mpAlignPtr (ptrAdd c sizeofNode) mpAlignment) n)
      (e := ptrAdd c (ptrDiff (nodeAt f.mem f.head).end_ f.head))
      (Nat.mod_lt _ hZero) (Nat.mod_lt _ hZero)).1
    have hKept : ∀ b, K ⟨b, sizeofNode⟩ → (nodeAt _ b).next = (nodeAt f.mem b).next :=
      fun b hNode => congrArg MpNode.next
        (nodeAt_eq hOut (hSpared _ ⟨c, hOpens, rfl⟩ _ hNode))
    have hPool : poolAt _ f.addr = poolAt f.mem f.addr :=
      poolAt_eq hOut (hSpared _ ⟨c, hOpens, rfl⟩ _ (h.alike.closed.pool _ h.addr_mem))
    rw [← walkLinks_eq h.alike.closed h.current_mem hUnread hKept, ← hPool] at hUnread
    have hCurrent := hAdded.closed.current _ h.addr_mem
    simp only [Ram.withSystem, h.addr_eq]
    rw [hAdded.pool_same h.addr_mem]
    have hWalk := bumpFailed_alike hAdded hCurrent hUnread ⟨hCurrent, load_word_lt _ _⟩
    generalize bumpFailed fuel _ _ _ = walk at hWalk ⊢
    generalize bumpFailed fuel _ _ _ = walk' at hWalk ⊢
    cases hWalk with
    | none => exact .none
    | @some u u' hEnd =>
        obtain ⟨p, current, mem⟩ := u
        obtain ⟨p', current', mem'⟩ := u'
        obtain ⟨rfl, rfl, hLast, ⟨hNext, hWord⟩, hBumped⟩ := hEnd
        simp only at hLast hNext hWord hBumped ⊢
        have hBlock : c < 2 ^ 64 := request_lt hAsk
        have hLinked := hBumped.setNext hLast hBlock (.inl rfl)
        have hDone := hLinked.setCurrent (v := if current' ≠ 0 then current' else c) h.addr_mem
          (by split <;> assumption)
          (by
            split
            · exact hNext
            · exact .inl rfl)
        refine .some ⟨rfl, fun _ => .inr ⟨c, hOpens, rfl⟩, rfl, _, ⟨rfl, h.addr_mem, ?_, hDone⟩, ?_⟩
        · exact ⟨hAsked.system.answer_eq, hAsked.system.asked_eq, hAsked.system.live_eq,
            hAsked.system.calls_eq⟩
        · rintro k (rfl | hK)
          · exact .inr ⟨c, hOpens, rfl⟩
          · exact .inl hK

theorem mpAlloc_small_twins (h : Twins pools unread M K f g) (hSize : n ≤ M f.addr)
    (hSpared : ∀ r, SmallTakes f n .node r → Spared K r)
    (hUnread : unread.Disjoint (allocLinks fuel f n)) :
    Option.Rel (SmallTwins pools unread M K f n) (mpAlloc fuel f n) (mpAlloc fuel g n) := by
  cases fuel with
  | zero => exact .none
  | succ fuel =>
      obtain ⟨hSearch, hWalk⟩ := disjoint_small (h.max_eq ▸ hSize) hUnread
      unfold mpAlloc
      rw [h.pool_eq, h.max_eq, if_pos hSize, if_pos hSize,
        findFit_alike h.alike h.current_mem hSearch]
      cases hFit : findFit (nodeAt f.mem) n fuel (poolAt f.mem f.addr).current with
      | none => exact .none
      | some p =>
          simp only
          by_cases hPtr : p ≠ 0
          · rw [if_pos hPtr, if_pos hPtr]
            have hNode :=
              (findFit_inUse h.alike.closed h.current_mem hSearch hFit).resolve_left hPtr
            exact .some (carve_twins h hNode hPtr ⟨fuel, hFit⟩)
          · rw [if_neg hPtr, if_neg hPtr]
            obtain rfl : p = 0 := not_not.mp hPtr
            exact mpAllocBlock_twins h ⟨fuel, hFit⟩ hSpared (hWalk hFit)

/-! ## Large requests -/

/-- What `attachLarge` makes of the answer to its request for a header. -/
def placeHeader (p : Nat) (r : Nat × Pool) : Nat × Pool :=
  if r.1 = 0 then (0, { r.2 with toRam := r.2.free p })
  else
    let mem := setAlloc r.2.mem r.1 p
    let mem := setLargeNext mem r.1 (poolAt mem r.2.addr).large
    let mem := setLarge mem r.2.addr r.1
    (p, { r.2 with toRam := { r.2.toRam with mem := mem } })

theorem attachLarge_eq (alloc : Pool → Nat → Option (Nat × Pool)) (f : Pool) (p : Nat) :
    attachLarge alloc f p = (alloc f sizeofLarge).map (placeHeader p) := by
  unfold attachLarge placeHeader
  cases alloc f sizeofLarge with
  | none => rfl
  | some r =>
      simp only [Option.map_some]
      split
      · rfl
      · rfl

/-- No pool that is too small for a header gets one. -/
theorem mpAlloc_tiny_twins (h : Twins pools unread M K f g) (hTiny : M f.addr < sizeofLarge)
    (hSize : M f.addr < n) :
    Option.Rel
      (fun r r' => r'.1 = r.1 ∧ r.1 = 0 ∧ r.2.addr = f.addr ∧ Twins pools unread M K r.2 r'.2)
      (mpAlloc fuel f n) (mpAlloc fuel g n) := by
  induction fuel generalizing f g n with
  | zero => exact .none
  | succ fuel ih =>
      unfold mpAlloc mpAllocLarge
      rw [h.pool_eq, h.max_eq, if_neg (Nat.not_le_of_lt hSize), if_neg (Nat.not_le_of_lt hSize)]
      rcases hAsk : f.typed.malloc n with ⟨p, t⟩
      obtain ⟨t', hAsk', hAsked⟩ := h.request hAsk
      have hAsk'' : g.typed.malloc n = (p, t') := hAsk'
      simp only [Ram.malloc, hAsk, hAsk'']
      by_cases hNull : p = 0
      · rw [if_pos hNull, if_pos hNull]
        exact .some ⟨rfl, rfl, rfl, hAsked⟩
      · have hNone : (poolAt f.mem f.addr).large = 0 := h.alike.tiny _ h.addr_mem hTiny
        have hNoSlot : ∀ header : Nat → MpLarge, freeSlot header 5 0 = none := fun _ => rfl
        have hHeader := ih hAsked hTiny hTiny
        rw [if_neg hNull, if_neg hNull]
        simp only [Ram.withSystem, h.pool_eq, hNone, hNoSlot, attachLarge_eq] at hHeader ⊢
        refine rel_map hHeader ?_
        rintro ⟨l, u⟩ ⟨l', u'⟩ ⟨rfl, rfl, hAddr, hTwins⟩
        exact ⟨rfl, rfl, hAddr, hTwins.free p⟩

/-- What two runs of any request come to. -/
def AllocTwins (pools unread : List Nat) (M : Nat → Nat) (K : Region → Prop) (f : Pool)
    (T : Taking → Region → Prop) (r r' : Nat × Pool) : Prop :=
  r'.1 = r.1 ∧ r.2.addr = f.addr ∧
    ∃ K', Twins pools unread M K' r.2 r'.2 ∧ ∀ k, K' k → K k ∨ ∃ what, T what k

/-- A header for the memory `p`, in memory that holds no structure. -/
theorem attachLarge_twins (h : Twins pools unread M K f g) (hWord : p < 2 ^ 64)
    (hSpared : TakenSpared K (HeaderTakes f))
    (hUnread : unread.Disjoint (allocLinks fuel f sizeofLarge)) :
    Option.Rel
      (fun r r' => AllocTwins pools unread M K f (HeaderTakes f) r r' ∧ (r.1 ≠ 0 → r.1 = p))
      (attachLarge (mpAlloc fuel) f p) (attachLarge (mpAlloc fuel) g p) := by
  rw [attachLarge_eq, attachLarge_eq]
  by_cases hMax : sizeofLarge ≤ M f.addr
  · have hRoom : sizeofLarge ≤ (poolAt f.mem f.addr).max := h.max_eq ▸ hMax
    have hHeader : Option.Rel (SmallTwins pools unread M K f sizeofLarge)
        (mpAlloc fuel f sizeofLarge) (mpAlloc fuel g sizeofLarge) :=
      mpAlloc_small_twins h hMax (fun r hTaken => (hSpared .node r ⟨hRoom, hTaken⟩).1) hUnread
    refine rel_map hHeader ?_
    rintro ⟨l, u⟩ ⟨l', u'⟩ ⟨rfl, hServed, hAddr, K', hTwins, hGrown⟩
    have hGrown' : ∀ k, K' k → K k ∨ ∃ what, HeaderTakes f what k := by
      intro k hK
      exact (hGrown k hK).imp id fun hTaken => ⟨.node, hRoom, hTaken⟩
    simp only at hServed hAddr hTwins ⊢
    unfold placeHeader
    simp only
    by_cases hNull : l' = 0
    · rw [if_pos hNull, if_pos hNull]
      exact ⟨⟨rfl, hAddr, K', hTwins.free p, hGrown'⟩, fun hSome => absurd rfl hSome⟩
    · rw [if_neg hNull, if_neg hNull]
      have hPlace : HeaderTakes f .header ⟨l', sizeofLarge⟩ := ⟨hRoom, l', hServed hNull, rfl⟩
      have hFree : Spared K' ⟨l', sizeofLarge⟩ := by
        intro k hK
        rcases hGrown k hK with hOld | hNode
        · exact (hSpared _ _ hPlace).1 k hOld
        · exact (hSpared _ _ hPlace).2 .node k ⟨hRoom, hNode⟩ (by decide)
      have hHeld : u.addr ∈ pools := hTwins.addr_mem
      have hOld : ∀ mem, SameOutside u.mem mem ⟨l', sizeofLarge⟩ →
          poolAt mem u.addr = poolAt u.mem u.addr :=
        fun mem hOut => poolAt_eq hOut (hFree _ (hTwins.alike.closed.pool _ hHeld))
      have hAdded := hTwins.alike.addHeader hFree hWord (load_word_lt u.mem (u.addr + 16))
        hTwins.large_mem
      have hDone := hAdded.setLarge hHeld (served_lt (hServed hNull))
        (fun _ => ⟨.inl rfl, hAddr ▸ hMax⟩)
      have hShown : poolAt (setAlloc u.mem l' p) u.addr = poolAt u.mem u.addr :=
        hOld _ (setAlloc_outside u.mem l' p)
      have hShown' : poolAt (setAlloc u'.mem l' p) u'.addr = poolAt u.mem u.addr := by
        rw [← hTwins.pool_eq]
        have hApart := hFree _ (hTwins.alike.closed.pool _ hHeld)
        rw [← hTwins.addr_eq] at hApart
        exact poolAt_eq (setAlloc_outside u'.mem l' p) hApart
      rw [hShown, hShown', hTwins.addr_eq]
      refine ⟨⟨rfl, hAddr, _, ⟨rfl, hHeld, ?_, hDone⟩, ?_⟩, fun _ => rfl⟩
      · exact ⟨hTwins.system.answer_eq, hTwins.system.asked_eq, hTwins.system.live_eq,
          hTwins.system.calls_eq⟩
      · rintro k (rfl | hK)
        · exact .inr ⟨.header, hPlace⟩
        · exact hGrown' k hK
  · have hTiny : M f.addr < sizeofLarge := Nat.lt_of_not_le hMax
    refine rel_map (mpAlloc_tiny_twins h hTiny hTiny) ?_
    rintro ⟨l, u⟩ ⟨l', u'⟩ ⟨rfl, rfl, hAddr, hTwins⟩
    exact ⟨⟨rfl, hAddr, K, hTwins.free p, fun k hK => .inl hK⟩, fun hSome => absurd rfl hSome⟩

/-- A large request, whether it finds a free header or asks for one. -/
theorem mpAllocLarge_twins (h : Twins pools unread M K f g)
    (hSpared : (f.malloc n).1 ≠ 0 →
      freeSlot (headerAt f.mem) 5 (poolAt f.mem f.addr).large = none →
      TakenSpared K (HeaderTakes { f with toRam := (f.malloc n).2 }))
    (hUnread : (f.malloc n).1 ≠ 0 →
      freeSlot (headerAt f.mem) 5 (poolAt f.mem f.addr).large = none →
      unread.Disjoint (allocLinks fuel { f with toRam := (f.malloc n).2 } sizeofLarge)) :
    Option.Rel (fun r r' => r'.1 = r.1 ∧ r.2.addr = f.addr ∧ (r.1 ≠ 0 → r.1 = (f.malloc n).1) ∧
        ∃ K', Twins pools unread M K' r.2 r'.2 ∧ ∀ k, K' k → K k ∨ ∃ what,
          (f.malloc n).1 ≠ 0 ∧ freeSlot (headerAt f.mem) 5 (poolAt f.mem f.addr).large = none ∧
            HeaderTakes { f with toRam := (f.malloc n).2 } what k)
      (mpAllocLarge (mpAlloc fuel) f n) (mpAllocLarge (mpAlloc fuel) g n) := by
  unfold mpAllocLarge
  rcases hAsk : f.typed.malloc n with ⟨p, t⟩
  obtain ⟨t', hAsk', hAsked⟩ := h.request hAsk
  have hAsk'' : g.typed.malloc n = (p, t') := hAsk'
  have hGot : f.malloc n = (p, f.withSystem t) := by
    simp only [Ram.malloc, hAsk]
  have hGot' : g.malloc n = (p, g.withSystem t') := by
    simp only [Ram.malloc, hAsk'']
  rw [hGot] at hSpared hUnread
  rw [hGot, hGot']
  simp only at hSpared hUnread ⊢
  by_cases hNull : p = 0
  · rw [if_pos hNull, if_pos hNull]
    exact .some ⟨rfl, rfl, fun hSome => absurd rfl hSome, K, hAsked, fun k hK => .inl hK⟩
  · rw [if_neg hNull, if_neg hNull]
    have hSlots : freeSlot (headerAt g.mem) 5 (poolAt g.mem g.addr).large =
        freeSlot (headerAt f.mem) 5 (poolAt f.mem f.addr).large := by
      rw [h.pool_eq]
      exact freeSlot_alike h.alike h.large_mem
    have hWord : p < 2 ^ 64 := request_lt hAsk
    simp only [Ram.withSystem]
    rw [hSlots]
    cases hSlot : freeSlot (headerAt f.mem) 5 (poolAt f.mem f.addr).large with
    | some l =>
        have hHeader := freeSlot_inUse h.alike.closed h.large_mem hSlot
        exact .some ⟨rfl, rfl, fun _ => rfl, K,
          hAsked.memory (h.alike.setAlloc hHeader hWord) f.carves g.carves, fun k hK => .inl hK⟩
    | none =>
        refine rel_imp (attachLarge_twins hAsked hWord (hSpared hNull hSlot)
          (hUnread hNull hSlot)) ?_
        rintro r r' - - ⟨⟨hSame, hAddr, K', hTwins, hGrown⟩, hResult⟩
        refine ⟨hSame, hAddr, hResult, K', hTwins, fun k hK => ?_⟩
        exact (hGrown k hK).imp id (Exists.imp fun what hTaken => ⟨hNull, rfl, hTaken⟩)

theorem AllocTakes.small {what : Taking} {r : Region} (hSize : n ≤ (poolAt f.mem f.addr).max) :
    AllocTakes f n what r ↔ SmallTakes f n what r := by
  unfold AllocTakes
  rw [if_pos hSize]

theorem mpAlloc_twins (h : Twins pools unread M K f g) (hSpared : TakenSpared K (AllocTakes f n))
    (hUnread : unread.Disjoint (allocLinks fuel f n)) :
    Option.Rel (fun r r' => AllocTwins pools unread M K f (AllocTakes f n) r r' ∧
        (r.1 ≠ 0 → Clears f n ⟨r.1, n⟩))
      (mpAlloc fuel f n) (mpAlloc fuel g n) := by
  by_cases hSize : n ≤ (poolAt f.mem f.addr).max
  · have hTakes : ∀ what r, SmallTakes f n what r → AllocTakes f n what r :=
      fun what r hTaken => (AllocTakes.small hSize).mpr hTaken
    refine rel_imp (mpAlloc_small_twins h (h.max_eq ▸ hSize)
      (fun r hTaken => (hSpared .node r (hTakes _ _ hTaken)).1) hUnread) ?_
    rintro r r' - - ⟨hSame, hServed, hAddr, K', hTwins, hGrown⟩
    refine ⟨⟨hSame, hAddr, K', hTwins, fun k hK => ?_⟩, fun hSome => ⟨r.1, rfl, ?_⟩⟩
    · exact (hGrown k hK).imp id fun hTaken => ⟨.node, hTakes _ _ hTaken⟩
    · rw [if_pos hSize]
      exact hServed hSome
  · cases fuel with
    | zero => exact .none
    | succ fuel =>
        unfold mpAlloc
        rw [h.pool_eq, if_neg hSize, if_neg hSize]
        have hTakes : ∀ what r, AllocTakes f n what r ↔ (f.malloc n).1 ≠ 0 ∧
            freeSlot (headerAt f.mem) 5 (poolAt f.mem f.addr).large = none ∧
            HeaderTakes { f with toRam := (f.malloc n).2 } what r := by
          intro what r
          unfold AllocTakes
          rw [if_neg hSize]
        refine rel_imp (mpAllocLarge_twins h (fun hGot hSlot what r hTaken => ?_)
          fun hGot hSlot => disjoint_large hSize rfl hGot hSlot hUnread) ?_
        · obtain ⟨hFree, hApart⟩ := hSpared what r ((hTakes _ _).mpr ⟨hGot, hSlot, hTaken⟩)
          exact ⟨hFree, fun what' r' hTaken' =>
            hApart what' r' ((hTakes _ _).mpr ⟨hGot, hSlot, hTaken'⟩)⟩
        · rintro r r' - - ⟨hSame, hAddr, hResult, K', hTwins, hGrown⟩
          refine ⟨⟨hSame, hAddr, K', hTwins, fun k hK => ?_⟩, fun hSome => ⟨r.1, rfl, ?_⟩⟩
          · exact (hGrown k hK).imp id (Exists.imp fun what => (hTakes what k).mpr)
          · rw [if_neg hSize]
            exact ⟨hSome, hResult hSome⟩

/-! ## Every call -/

/-- What `mpCalloc` makes of the answer of `mpAlloc`. -/
def clear (n : Nat) (r : Nat × Pool) : Nat × Pool :=
  if r.1 = 0 then r
  else (r.1, { r.2 with toRam := { r.2.toRam with mem := fill r.2.mem r.1 n 0 } })

theorem mpCalloc_eq (fuel : Nat) (f : Pool) (n : Nat) :
    mpCalloc fuel f n = (mpAlloc fuel f n).map (clear n) := by
  unfold mpCalloc clear
  cases mpAlloc fuel f n with
  | none => rfl
  | some r =>
      simp only [Option.map_some]
      split
      · rfl
      · rfl

/-- What two runs of a call come to. -/
def ExecTwins (pools unread : List Nat) (M : Nat → Nat) (f : Pool) (r r' : Nat × Pool) : Prop :=
  r'.1 = r.1 ∧ r.2.addr = f.addr ∧ ∃ K', Twins pools unread M K' r.2 r'.2

theorem mpCalloc_twins (h : Twins pools unread M K f g)
    (hSpared : TakenSpared K (Takes f (.calloc n)))
    (hUnread : unread.Disjoint (execLinks fuel f (.calloc n))) :
    Option.Rel (ExecTwins pools unread M f) (mpCalloc fuel f n) (mpCalloc fuel g n) := by
  have hTakes : ∀ what r, AllocTakes f n what r → what ≠ .cleared ∧ Takes f (.calloc n) what r := by
    intro what r hTaken
    cases what with
    | node | header => exact ⟨by decide, hTaken⟩
    | cleared =>
        unfold AllocTakes at hTaken
        split at hTaken
        · exact hTaken.elim
        · exact hTaken.2.2.elim
  have hAlloc : TakenSpared K (AllocTakes f n) := by
    intro what r hTaken
    obtain ⟨hFree, hApart⟩ := hSpared what r (hTakes what r hTaken).2
    exact ⟨hFree, fun what' r' hTaken' => hApart what' r' (hTakes what' r' hTaken').2⟩
  rw [mpCalloc_eq, mpCalloc_eq]
  refine rel_map (mpAlloc_twins h hAlloc hUnread) ?_
  rintro ⟨m, u⟩ ⟨m', u'⟩ ⟨⟨rfl, hAddr, K', hTwins, hGrown⟩, hClears⟩
  simp only at hAddr hTwins hClears
  unfold clear
  simp only
  by_cases hNull : m' = 0
  · rw [if_pos hNull, if_pos hNull]
    exact ⟨rfl, hAddr, K', hTwins⟩
  · rw [if_neg hNull, if_neg hNull]
    have hCleared : Takes f (.calloc n) .cleared ⟨m', n⟩ := hClears hNull
    have hFree : Spared K' ⟨m', n⟩ := by
      intro k hK
      rcases hGrown k hK with hOld | ⟨what, hTaken⟩
      · exact (hSpared _ _ hCleared).1 k hOld
      · obtain ⟨hOther, hTaken'⟩ := hTakes what k hTaken
        exact (hSpared _ _ hCleared).2 what k hTaken' (Ne.symm hOther)
    exact ⟨rfl, hAddr, K', hTwins.memory
      (hTwins.alike.frame hFree fill_sameOutside fill_sameOutside) u.carves u'.carves⟩

theorem mpMemalign_twins (h : Twins pools unread M K f g)
    (hSpared : TakenSpared K (Takes f (.memalign n alignment)))
    (hUnread : unread.Disjoint (execLinks fuel f (.memalign n alignment))) :
    Option.Rel (ExecTwins pools unread M f) (mpMemalign fuel f n alignment)
      (mpMemalign fuel g n alignment) := by
  unfold mpMemalign
  rcases hAsk : f.typed.posixMemalign alignment n with ⟨p, t⟩
  obtain ⟨t', hAsk', hAsked⟩ := h.request hAsk
  have hAsk'' : g.typed.posixMemalign alignment n = (p, t') := hAsk'
  have hGot : f.posixMemalign alignment n = (p, f.withSystem t) := by
    simp only [Ram.posixMemalign, hAsk]
  have hGot' : g.posixMemalign alignment n = (p, g.withSystem t') := by
    simp only [Ram.posixMemalign, hAsk'']
  simp only [hGot, hGot']
  by_cases hNull : p = 0
  · rw [if_pos hNull, if_pos hNull]
    exact .some ⟨rfl, rfl, K, hAsked⟩
  · rw [if_neg hNull, if_neg hNull]
    have hHeader : TakenSpared K (HeaderTakes { f with toRam := f.withSystem t }) := by
      have hTakes : ∀ what r, HeaderTakes { f with toRam := f.withSystem t } what r →
          Takes f (.memalign n alignment) what r := by
        intro what r hTaken
        simp only [Takes, hGot]
        exact ⟨hNull, hTaken⟩
      intro what r hTaken
      obtain ⟨hFree, hApart⟩ := hSpared what r (hTakes what r hTaken)
      exact ⟨hFree, fun what' r' hTaken' => hApart what' r' (hTakes what' r' hTaken')⟩
    rw [execLinks, hGot, if_pos hNull] at hUnread
    refine rel_imp (attachLarge_twins hAsked (request_lt hAsk) hHeader hUnread) ?_
    rintro r r' - - ⟨⟨hSame, hAddr, K', hTwins, -⟩, -⟩
    exact ⟨hSame, hAddr, K', hTwins⟩

theorem mpFree_twins (h : Twins pools unread M K f g) :
    Option.Rel (fun u u' => u.addr = f.addr ∧ Twins pools unread M K u u') (mpFree fuel f p)
      (mpFree fuel g p) := by
  unfold mpFree
  rw [h.pool_eq, findAlloc_alike h.alike h.large_mem]
  cases hFind : findAlloc (headerAt f.mem) p fuel (poolAt f.mem f.addr).large with
  | none => exact .none
  | some l =>
      simp only
      by_cases hNone : l = 0
      · rw [if_pos hNone, if_pos hNone]
        exact .some ⟨rfl, h⟩
      · have hHeader := findAlloc_inUse h.alike.closed h.large_mem hFind hNone
        rw [if_neg hNone, if_neg hNone, h.alike.header_same hHeader]
        have hFreed := h.free (headerAt f.mem l).alloc
        exact .some
          ⟨rfl, hFreed.memory (hFreed.alike.setAlloc hHeader (by decide)) f.carves g.carves⟩

theorem mpResetPool_twins (h : Twins pools unread M K f g)
    (hUnread : unread.Disjoint (execLinks fuel f .reset)) :
    Option.Rel (fun u u' => u.addr = f.addr ∧ Twins pools unread M K u u') (mpResetPool fuel f)
      (mpResetPool fuel g) := by
  unfold mpResetPool
  rw [h.pool_eq]
  have hFreed := @freeLarge_alike _ _ _ _ _ _ _ _ _ fuel h.alike h.system rfl rfl h.large_mem
  generalize freeLarge fuel f.typed _ = heap at hFreed ⊢
  generalize freeLarge fuel g.typed _ = heap' at hFreed ⊢
  cases hFreed with
  | none => exact .none
  | @some t t' hSystem =>
      have hForgot := h.alike.setLarge h.addr_mem (v := 0) (by decide)
        (fun hSome => absurd rfl hSome)
      have hLinks : ∀ b, K ⟨b, sizeofNode⟩ →
          (nodeAt (setLarge f.mem f.addr 0) b).next = (nodeAt f.mem b).next := by
        intro b hNode
        have hApart := h.alike.apart _ _ (h.alike.closed.pool _ h.addr_mem) hNode fun hSame => by
          have hLen : sizeofPool = sizeofNode := congrArg Region.len hSame
          exact absurd hLen (by decide)
        rw [nodeAt_eq (setLarge_outside f.mem f.addr 0) hApart]
      have hWalk : unread.Disjoint (walkLinks (setLarge f.mem f.addr 0) fuel f.head) := by
        rw [walkLinks_eq h.alike.closed h.head_mem hUnread hLinks]
        exact hUnread
      have hRewound := rewindNodes_alike hForgot fun _ => ⟨h.head_mem, hWalk⟩
      simp only [h.head_eq, h.addr_eq]
      generalize rewindNodes fuel (setLarge f.mem f.addr 0) _ = mem at hRewound ⊢
      generalize rewindNodes fuel (setLarge g.mem f.addr 0) _ = mem' at hRewound ⊢
      cases hRewound with
      | none => exact .none
      | some hAlike =>
          refine .some ⟨rfl, rfl, h.addr_mem, ?_, hAlike⟩
          exact ⟨h.system.answer_eq, hSystem.asked_eq, hSystem.live_eq, hSystem.calls_eq⟩

/-- **One call** on two memories. -/
theorem exec_twins (h : Twins pools unread M K f g) (op : Op)
    (hSpared : TakenSpared K (Takes f op)) (hUnread : unread.Disjoint (execLinks fuel f op)) :
    Option.Rel (ExecTwins pools unread M f) (exec fuel f op) (exec fuel g op) := by
  cases op with
  | alloc n =>
      refine rel_imp (mpAlloc_twins h hSpared hUnread) ?_
      rintro r r' - - ⟨⟨hSame, hAddr, K', hTwins, -⟩, -⟩
      exact ⟨hSame, hAddr, K', hTwins⟩
  | calloc n => exact mpCalloc_twins h hSpared hUnread
  | memalign n alignment => exact mpMemalign_twins h hSpared hUnread
  | free p =>
      refine rel_map (mpFree_twins h) ?_
      rintro u u' ⟨hAddr, hTwins⟩
      exact ⟨rfl, hAddr, K, hTwins⟩
  | reset =>
      refine rel_map (mpResetPool_twins h hUnread) ?_
      rintro u u' ⟨hAddr, hTwins⟩
      exact ⟨rfl, hAddr, K, hTwins⟩

/-- Both runs give back the same memory. -/
theorem mpDestoryPool_twins (h : Twins pools unread M K f g)
    (hUnread : unread.Disjoint (destoryLinks fuel f)) :
    Option.Rel
      (fun ram ram' => ram.mem = f.mem ∧ ram'.mem = g.mem ∧ SameSystem ram.typed ram'.typed)
      (mpDestoryPool fuel f) (mpDestoryPool fuel g) := by
  unfold mpDestoryPool
  rw [h.pool_eq]
  have hFreed : Option.Rel (fun t t' => SameSystem t t' ∧ t.node = nodeAt f.mem ∧
      t'.node = nodeAt g.mem) (freeLarge fuel f.typed (poolAt f.mem f.addr).large)
      (freeLarge fuel g.typed (poolAt f.mem f.addr).large) :=
    rel_imp (freeLarge_alike h.alike h.system rfl rfl h.large_mem) fun _ _ hRun hRun' hSystem =>
      ⟨hSystem, (freeLarge_structures hRun).1, (freeLarge_structures hRun').1⟩
  generalize freeLarge fuel f.typed _ = heap at hFreed ⊢
  generalize freeLarge fuel g.typed _ = heap' at hFreed ⊢
  cases hFreed with
  | none => exact .none
  | @some t t' hRel =>
      obtain ⟨hSystem, hNode, hNode'⟩ := hRel
      obtain ⟨hRead, hRest⟩ := disjoint_walk hUnread
      have hFirst : (t'.node g.head).next = (t.node f.head).next := by
        rw [hNode, hNode', h.head_eq, h.alike.node_same h.head_mem hRead]
      have hStart : (t.node f.head).next ≠ 0 → K ⟨(t.node f.head).next, sizeofNode⟩ ∧
          unread.Disjoint (walkLinks f.mem fuel (t.node f.head).next) := by
        rw [hNode]
        exact fun hMore => ⟨h.alike.closed.next _ h.head_mem hRead hMore, hRest hMore⟩
      have hNodes := freeNodes_alike h.alike hSystem hNode hNode' hStart
      simp only [hFirst, h.addr_eq]
      generalize freeNodes fuel t _ = heap at hNodes ⊢
      generalize freeNodes fuel t' _ = heap' at hNodes ⊢
      cases hNodes with
      | none => exact .none
      | some hRel =>
          have hGone := hRel.free f.addr
          exact .some ⟨rfl, rfl, h.system.answer_eq, hGone.asked_eq, hGone.live_eq, hGone.calls_eq⟩

end Calls

end Bytes
end MemPool
end LinuxCppLearn
