import LinuxCppLearn.Library.Lockstep
import LinuxCppLearn.MemPool.Simulation

/-!
# Two memories with the same structures

Any number of pools in one memory.  Another memory may hold anything else, as
long as it shows the same structures where the links of the pools lead to: then
every walk over these links finds the same in both.  A link that has been neither
written nor read may differ, and leads nowhere.

* `InUse` — the structures that the links lead to, from the pools on.
* `Alike` — two memories which agree in these structures.
* `Alike.drop` — a link that is `NULL` in both may be read.
* `Alike.write`, `Alike.add` — the same write into one of them, and into memory
  that becomes one.
* `findFit_alike`, `bumpFailed_alike`, … — the loops.
-/

namespace LinuxCppLearn
namespace MemPool
namespace Bytes

open ByteMemory Regions Lockstep

/-- The structures that the links of the pools lead to; `next` has not been read of
the nodes in `unread`. -/
inductive InUse (mem : Memory) (pools unread : List Nat) : Region → Prop
  | pool {p : Nat} (hPool : p ∈ pools) : InUse mem pools unread ⟨p, sizeofPool⟩
  | head {p : Nat} (hPool : p ∈ pools) : InUse mem pools unread ⟨p + sizeofPool, sizeofNode⟩
  | current {p : Nat} (hPool : p ∈ pools) :
      InUse mem pools unread ⟨(poolAt mem p).current, sizeofNode⟩
  | large {p : Nat} (hPool : p ∈ pools) (hSome : (poolAt mem p).large ≠ 0) :
      InUse mem pools unread ⟨(poolAt mem p).large, sizeofLarge⟩
  | next {h : Nat} (hNode : InUse mem pools unread ⟨h, sizeofNode⟩) (hRead : h ∉ unread)
      (hSome : (nodeAt mem h).next ≠ 0) :
      InUse mem pools unread ⟨(nodeAt mem h).next, sizeofNode⟩
  | header {l : Nat} (hHeader : InUse mem pools unread ⟨l, sizeofLarge⟩)
      (hSome : (headerAt mem l).next ≠ 0) :
      InUse mem pools unread ⟨(headerAt mem l).next, sizeofLarge⟩

/-- The regions hold structures, and the links of these lead to such regions. -/
structure Closed (mem : Memory) (pools unread : List Nat) (K : Region → Prop) : Prop where
  pool : ∀ p ∈ pools, K ⟨p, sizeofPool⟩
  head : ∀ p ∈ pools, K ⟨p + sizeofPool, sizeofNode⟩
  current : ∀ p ∈ pools, K ⟨(poolAt mem p).current, sizeofNode⟩
  large : ∀ p ∈ pools, (poolAt mem p).large ≠ 0 → K ⟨(poolAt mem p).large, sizeofLarge⟩
  next : ∀ h, K ⟨h, sizeofNode⟩ → h ∉ unread → (nodeAt mem h).next ≠ 0 →
    K ⟨(nodeAt mem h).next, sizeofNode⟩
  header : ∀ l, K ⟨l, sizeofLarge⟩ → (headerAt mem l).next ≠ 0 →
    K ⟨(headerAt mem l).next, sizeofLarge⟩

/-- The region holds none of the structures. -/
def Spared (K : Region → Prop) (r : Region) : Prop :=
  ∀ k, K k → r.Apart k

/-- The byte is one of `next` of a node in `unread`. -/
def InLink (unread : List Nat) (x : Nat) : Prop :=
  ∃ b ∈ unread, b + 16 ≤ x ∧ x < b + 24

/-- The two memories agree in the region, but for the links in `unread`. -/
def SameBut (unread : List Nat) (mem mem' : Memory) (r : Region) : Prop :=
  ∀ x, r.base ≤ x → x < r.base + r.len → ¬ InLink unread x → mem' x = mem x

/-- The structures lie apart from each other, and the second memory shows them
as the first one does, but for the links in `unread`; `M` is what each pool takes for
a small request. -/
structure Alike (pools unread : List Nat) (M : Nat → Nat) (K : Region → Prop)
    (mem mem' : Memory) : Prop where
  closed : Closed mem pools unread K
  apart : ∀ r r', K r → K r' → r ≠ r' → r.Apart r'
  same : ∀ r, K r → SameBut unread mem mem' r
  node : ∀ b ∈ unread, K ⟨b, sizeofNode⟩
  max_eq : ∀ p ∈ pools, (poolAt mem p).max = M p
  /-- a pool too small for a header has none -/
  tiny : ∀ p ∈ pools, M p < sizeofLarge → (poolAt mem p).large = 0

section Agreement

variable {mem mem' mem₁ mem₁' : Memory} {unread unread' : List Nat} {r r' : Region}

theorem sameBut_of_sameIn (h : SameIn mem mem' r) : SameBut unread mem mem' r :=
  fun x hLow hHigh _ => h x hLow hHigh

theorem SameBut.mono (h : SameBut unread mem mem' r) (hSub : unread ⊆ unread') :
    SameBut unread' mem mem' r :=
  fun x hLow hHigh hNot => h x hLow hHigh fun ⟨b, hMem, hAt⟩ => hNot ⟨b, hSub hMem, hAt⟩

/-- Away from the links the memories agree. -/
theorem SameBut.sameIn (h : SameBut unread mem mem' r)
    (hApart : ∀ b ∈ unread, r.Apart ⟨b, sizeofNode⟩) : SameIn mem mem' r := by
  intro x hLow hHigh
  refine h x hLow hHigh ?_
  rintro ⟨b, hMem, hFrom, hTo⟩
  have hLen : sizeofNode = 32 := rfl
  rcases hApart b hMem with hBefore | hAfter
  · simp only at hBefore
    omega
  · simp only at hAfter
    omega

theorem SameBut.store (h : SameBut unread mem mem' r) (a n v : Nat) :
    SameBut unread (store mem a n v) (ByteMemory.store mem' a n v) r := by
  intro x hLow hHigh hNot
  unfold ByteMemory.store
  split
  · rfl
  · exact h x hLow hHigh hNot

theorem SameBut.of_outside (h : SameBut unread mem mem' r') (hOut : SameOutside mem mem₁ r)
    (hOut' : SameOutside mem' mem₁' r) (hApart : r.Apart r') :
    SameBut unread mem₁ mem₁' r' := by
  intro x hLow hHigh hNot
  have hAway : x < r.base ∨ r.base + r.len ≤ x := by
    rcases hApart with hBefore | hAfter
    · exact .inr (by omega)
    · exact .inl (by omega)
  rw [hOut' x hAway, hOut x hAway]
  exact h x hLow hHigh hNot

/-- Links that are `NULL` in both memories agree. -/
theorem SameBut.drop (h : SameBut unread mem mem' r)
    (hNull : ∀ b ∈ unread, b ∉ unread' → (nodeAt mem b).next = 0 ∧ (nodeAt mem' b).next = 0) :
    SameBut unread' mem mem' r := by
  intro x hLow hHigh hNot
  by_cases hLink : InLink unread x
  · obtain ⟨b, hMem, hFrom, hTo⟩ := hLink
    have hDropped : b ∉ unread' := fun hStill => hNot ⟨b, hStill, hFrom, hTo⟩
    obtain ⟨hNext, hNext'⟩ := hNull b hMem hDropped
    have hSame : load mem' (b + 16) 8 = load mem (b + 16) 8 := hNext'.trans hNext.symm
    exact byte_eq_of_load_eq hSame hFrom (by omega)
  · exact h x hLow hHigh hLink

end Agreement

section Closure

variable {mem mem' : Memory} {pools pools' unread unread' : List Nat} {M : Nat → Nat}
  {K : Region → Prop} {r : Region}

theorem inUse_closed (mem : Memory) (pools unread : List Nat) :
    Closed mem pools unread (InUse mem pools unread) :=
  ⟨fun _ => .pool, fun _ => .head, fun _ => .current, fun _ => .large, fun _ => .next,
    fun _ => .header⟩

theorem InUse.of_closed (h : InUse mem pools unread r) (hClosed : Closed mem pools unread K) :
    K r := by
  induction h with
  | pool hPool => exact hClosed.pool _ hPool
  | head hPool => exact hClosed.head _ hPool
  | current hPool => exact hClosed.current _ hPool
  | large hPool hSome => exact hClosed.large _ hPool hSome
  | next _ hRead hSome ih => exact hClosed.next _ ih hRead hSome
  | header _ hSome ih => exact hClosed.header _ ih hSome

theorem Closed.pools_mono (h : Closed mem pools unread K) (hSub : pools' ⊆ pools) :
    Closed mem pools' unread K :=
  ⟨fun p hIn => h.pool p (hSub hIn), fun p hIn => h.head p (hSub hIn),
    fun p hIn => h.current p (hSub hIn), fun p hIn => h.large p (hSub hIn), h.next, h.header⟩

/-- Only the structures in use need to agree. -/
theorem Alike.shrink (h : Alike pools unread M K mem mem') (hSub : pools' ⊆ pools)
    (hFirst : ∀ b ∈ unread, ∃ p ∈ pools', b = p + sizeofPool) :
    Alike pools' unread M (InUse mem pools' unread) mem mem' := by
  have hIn : ∀ r, InUse mem pools' unread r → K r := fun _ hUse =>
    hUse.of_closed (h.closed.pools_mono hSub)
  refine ⟨inUse_closed mem pools' unread, fun r r' hR hR' => h.apart r r' (hIn r hR) (hIn r' hR'),
    fun r hR => h.same r (hIn r hR), ?_, fun p hMem => h.max_eq p (hSub hMem),
    fun p hMem => h.tiny p (hSub hMem)⟩
  intro b hMem
  obtain ⟨p, hPool, rfl⟩ := hFirst b hMem
  exact .head hPool

/-- A link that is `NULL` in both memories may be read. -/
theorem Alike.drop (h : Alike pools unread M K mem mem') (hSub : unread' ⊆ unread)
    (hNull : ∀ b ∈ unread, b ∉ unread' → (nodeAt mem b).next = 0 ∧ (nodeAt mem' b).next = 0) :
    Alike pools unread' M K mem mem' := by
  refine ⟨⟨h.closed.pool, h.closed.head, h.closed.current, h.closed.large, ?_, h.closed.header⟩,
    h.apart, fun r hK => (h.same r hK).drop hNull, fun b hMem => h.node b (hSub hMem), h.max_eq,
    h.tiny⟩
  intro b hNode hRead hSome
  by_cases hMem : b ∈ unread
  · exact absurd (hNull b hMem hRead).1 hSome
  · exact h.closed.next b hNode hMem hSome

end Closure

/-! ## What the memories show -/

section Reads

variable {mem mem' : Memory} {pools unread : List Nat} {M : Nat → Nat} {K : Region → Prop}
  {p h l b : Nat}

theorem poolAt_same (hSame : SameIn mem mem' ⟨p, sizeofPool⟩) : poolAt mem' p = poolAt mem p := by
  have hField : ∀ k, k + 8 ≤ sizeofPool → load mem' (p + k) 8 = load mem (p + k) 8 :=
    fun k hIn => hSame.load_field hIn
  have hFirst := hField 0 (by decide)
  rw [Nat.add_zero] at hFirst
  simp only [poolAt, hFirst, hField 8 (by decide), hField 16 (by decide)]

theorem nodeAt_same (hSame : SameIn mem mem' ⟨h, sizeofNode⟩) : nodeAt mem' h = nodeAt mem h := by
  have hField : ∀ k, k + 8 ≤ sizeofNode → load mem' (h + k) 8 = load mem (h + k) 8 :=
    fun k hIn => hSame.load_field hIn
  have hFirst := hField 0 (by decide)
  rw [Nat.add_zero] at hFirst
  simp only [nodeAt, hFirst, hField 8 (by decide), hField 16 (by decide), hField 24 (by decide)]

theorem headerAt_same (hSame : SameIn mem mem' ⟨l, sizeofLarge⟩) :
    headerAt mem' l = headerAt mem l := by
  have hFirst : load mem' (l + 0) 8 = load mem (l + 0) 8 := hSame.load_field (by decide)
  have hSecond : load mem' (l + 8) 8 = load mem (l + 8) 8 := hSame.load_field (by decide)
  rw [Nat.add_zero] at hFirst
  simp only [headerAt, hFirst, hSecond]

/-- Structures that look the same are the same bytes. -/
theorem sameIn_of_poolAt (hSame : poolAt mem' p = poolAt mem p) :
    SameIn mem mem' ⟨p, sizeofPool⟩ := by
  have hMax := sameIn_of_load_eq (congrArg MpPool.max hSame)
  have hCurrent := sameIn_of_load_eq (congrArg MpPool.current hSame)
  have hLarge := sameIn_of_load_eq (congrArg MpPool.large hSame)
  exact (hMax.append hCurrent).append hLarge

theorem sameIn_of_nodeAt (hSame : nodeAt mem' h = nodeAt mem h) :
    SameIn mem mem' ⟨h, sizeofNode⟩ := by
  have hLast := sameIn_of_load_eq (congrArg MpNode.last hSame)
  have hEnd := sameIn_of_load_eq (congrArg MpNode.end_ hSame)
  have hNext := sameIn_of_load_eq (congrArg MpNode.next hSame)
  have hFailed := sameIn_of_load_eq (congrArg MpNode.failed hSame)
  exact ((hLast.append hEnd).append hNext).append hFailed

theorem sameIn_of_headerAt (hSame : headerAt mem' l = headerAt mem l) :
    SameIn mem mem' ⟨l, sizeofLarge⟩ := by
  have hNext := sameIn_of_load_eq (congrArg MpLarge.next hSame)
  have hAlloc := sameIn_of_load_eq (congrArg MpLarge.alloc hSame)
  exact hNext.append hAlloc

/-- A node whose link may differ. -/
theorem sameBut_of_nodeAt (hMem : h ∈ unread)
    (hSame : nodeAt mem' h = { nodeAt mem h with next := (nodeAt mem' h).next }) :
    SameBut unread mem mem' ⟨h, sizeofNode⟩ := by
  have hLast := sameIn_of_load_eq (congrArg MpNode.last hSame)
  have hEnd := sameIn_of_load_eq (congrArg MpNode.end_ hSame)
  have hFailed := sameIn_of_load_eq (congrArg MpNode.failed hSame)
  have hLen : sizeofNode = 32 := rfl
  intro x hLow hHigh hNot
  simp only at hLow hHigh
  by_cases hFront : x < h + 16
  · exact (hLast.append hEnd) x hLow hFront
  · by_cases hLink : x < h + 24
    · exact absurd ⟨h, hMem, Nat.le_of_not_lt hFront, hLink⟩ hNot
    · exact hFailed x (Nat.le_of_not_lt hLink) (by simp only; omega)

theorem Alike.sameIn {r : Region} (h : Alike pools unread M K mem mem') (hIn : K r)
    (hOther : ∀ b ∈ unread, r ≠ ⟨b, sizeofNode⟩) : SameIn mem mem' r :=
  (h.same r hIn).sameIn fun b hMem => h.apart r _ hIn (h.node b hMem) (hOther b hMem)

theorem Alike.pool_same (h : Alike pools unread M K mem mem') (hPool : p ∈ pools) :
    poolAt mem' p = poolAt mem p := by
  refine poolAt_same (h.sameIn (h.closed.pool p hPool) fun b _ hKind => ?_)
  have hLen : sizeofPool = sizeofNode := congrArg Region.len hKind
  exact absurd hLen (by decide)

theorem Alike.node_same (h : Alike pools unread M K mem mem') (hNode : K ⟨b, sizeofNode⟩)
    (hRead : b ∉ unread) : nodeAt mem' b = nodeAt mem b := by
  refine nodeAt_same (h.sameIn hNode fun b' hMem hSame => ?_)
  obtain rfl : b = b' := congrArg Region.base hSame
  exact hRead hMem

/-- Whether its link has been read or not. -/
theorem Alike.node_fields (h : Alike pools unread M K mem mem') (hNode : K ⟨b, sizeofNode⟩) :
    nodeAt mem' b = { nodeAt mem b with next := (nodeAt mem' b).next } := by
  by_cases hMem : b ∈ unread
  · have hField : ∀ k, k + 8 ≤ 16 ∨ 24 ≤ k ∧ k + 8 ≤ 32 →
        load mem' (b + k) 8 = load mem (b + k) 8 := by
      intro k hOff
      have hLen : sizeofNode = 32 := rfl
      refine load_congr fun x hLow hHigh => h.same _ hNode x ?_ ?_ ?_
      · simp only
        omega
      · simp only
        omega
      · rintro ⟨b', hMem', hFrom, hTo⟩
        by_cases hHere : b' = b
        · subst hHere
          omega
        · have hApart := h.apart _ _ hNode (h.node b' hMem')
            fun hSame => hHere (congrArg Region.base hSame).symm
          rcases hApart with hBefore | hAfter
          · simp only at hBefore
            omega
          · simp only at hAfter
            omega
    have hFirst := hField 0 (by decide)
    rw [Nat.add_zero] at hFirst
    simp only [nodeAt, hFirst, hField 8 (by decide), hField 24 (by decide)]
  · rw [h.node_same hNode hMem]

theorem Alike.header_same (h : Alike pools unread M K mem mem') (hHeader : K ⟨l, sizeofLarge⟩) :
    headerAt mem' l = headerAt mem l := by
  refine headerAt_same (h.sameIn hHeader fun b _ hKind => ?_)
  have hLen : sizeofLarge = sizeofNode := congrArg Region.len hKind
  exact absurd hLen (by decide)

end Reads

/-! ## Writes -/

/-- The links of the structure at `r` lead to structures. -/
structure Leads (mem : Memory) (pools unread : List Nat) (M : Nat → Nat) (K : Region → Prop)
    (r : Region) : Prop where
  pool : ∀ p ∈ pools, r = ⟨p, sizeofPool⟩ → K ⟨(poolAt mem p).current, sizeofNode⟩ ∧
    ((poolAt mem p).large ≠ 0 → K ⟨(poolAt mem p).large, sizeofLarge⟩) ∧
    (poolAt mem p).max = M p ∧ (M p < sizeofLarge → (poolAt mem p).large = 0)
  node : ∀ h, r = ⟨h, sizeofNode⟩ → h ∉ unread → (nodeAt mem h).next ≠ 0 →
    K ⟨(nodeAt mem h).next, sizeofNode⟩
  header : ∀ l, r = ⟨l, sizeofLarge⟩ → (headerAt mem l).next ≠ 0 →
    K ⟨(headerAt mem l).next, sizeofLarge⟩

section Writes

variable {mem mem' mem₁ mem₁' : Memory} {pools unread : List Nat} {M : Nat → Nat}
  {K K' : Region → Prop} {r : Region}
  {p h l v : Nat}

/-- A write into the region `r`, which is one of the structures behind it. -/
theorem Alike.update (h : Alike pools unread M K mem mem') (hGrow : ∀ k, K' k ↔ k = r ∨ K k)
    (hApart : ∀ k, K k → k ≠ r → r.Apart k) (hOut : SameOutside mem mem₁ r)
    (hOut' : SameOutside mem' mem₁' r) (hSame : SameBut unread mem₁ mem₁' r)
    (hLeads : Leads mem₁ pools unread M K' r) : Alike pools unread M K' mem₁ mem₁' := by
  have hOld : ∀ k, K k → K' k := fun k hK => (hGrow k).mpr (.inr hK)
  have hPool : ∀ p ∈ pools, (⟨p, sizeofPool⟩ : Region) ≠ r → poolAt mem₁ p = poolAt mem p :=
    fun p hMem hNe => poolAt_eq hOut (hApart _ (h.closed.pool p hMem) hNe)
  refine ⟨⟨?_, ?_, ?_, ?_, ?_, ?_⟩, ?_, ?_, fun b hMem => hOld _ (h.node b hMem), ?_, ?_⟩
  · exact fun p hMem => hOld _ (h.closed.pool p hMem)
  · exact fun p hMem => hOld _ (h.closed.head p hMem)
  · intro p hMem
    by_cases hHere : (⟨p, sizeofPool⟩ : Region) = r
    · exact (hLeads.pool p hMem hHere.symm).1
    · rw [hPool p hMem hHere]
      exact hOld _ (h.closed.current p hMem)
  · intro p hMem
    by_cases hHere : (⟨p, sizeofPool⟩ : Region) = r
    · exact (hLeads.pool p hMem hHere.symm).2.1
    · rw [hPool p hMem hHere]
      exact fun hSome => hOld _ (h.closed.large p hMem hSome)
  · intro b hNode
    by_cases hHere : (⟨b, sizeofNode⟩ : Region) = r
    · exact hLeads.node b hHere.symm
    · have hNode' := ((hGrow _).mp hNode).resolve_left hHere
      rw [nodeAt_eq hOut (hApart _ hNode' hHere)]
      exact fun hRead hSome => hOld _ (h.closed.next b hNode' hRead hSome)
  · intro l hHeader
    by_cases hHere : (⟨l, sizeofLarge⟩ : Region) = r
    · exact hLeads.header l hHere.symm
    · have hHeader' := ((hGrow _).mp hHeader).resolve_left hHere
      rw [headerAt_eq hOut (hApart _ hHeader' hHere)]
      exact fun hSome => hOld _ (h.closed.header l hHeader' hSome)
  · intro k k' hK hK' hNe
    rcases (hGrow k).mp hK with rfl | hK
    · exact hApart k' (((hGrow k').mp hK').resolve_left (Ne.symm hNe)) (Ne.symm hNe)
    · rcases (hGrow k').mp hK' with rfl | hK'
      · exact (hApart k hK hNe).symm
      · exact h.apart k k' hK hK' hNe
  · intro k hK
    by_cases hHere : k = r
    · exact hHere ▸ hSame
    · have hK := ((hGrow k).mp hK).resolve_left hHere
      exact (h.same k hK).of_outside hOut hOut' (hApart k hK hHere)
  · intro p hMem
    by_cases hHere : (⟨p, sizeofPool⟩ : Region) = r
    · exact (hLeads.pool p hMem hHere.symm).2.2.1
    · rw [hPool p hMem hHere]
      exact h.max_eq p hMem
  · intro p hMem
    by_cases hHere : (⟨p, sizeofPool⟩ : Region) = r
    · exact (hLeads.pool p hMem hHere.symm).2.2.2
    · rw [hPool p hMem hHere]
      exact h.tiny p hMem

/-- A write into a structure. -/
theorem Alike.write (h : Alike pools unread M K mem mem') (hIn : K r)
    (hOut : SameOutside mem mem₁ r) (hOut' : SameOutside mem' mem₁' r)
    (hSame : SameBut unread mem₁ mem₁' r) (hLeads : Leads mem₁ pools unread M K r) :
    Alike pools unread M K mem₁ mem₁' := by
  refine h.update (fun k => ?_) (fun k hK hNe => h.apart r k hIn hK (Ne.symm hNe)) hOut hOut' hSame
    hLeads
  exact ⟨.inr, fun hEither => hEither.elim (fun hHere => hHere ▸ hIn) id⟩

/-- A structure in memory that held none. -/
theorem Alike.add (h : Alike pools unread M K mem mem') (hSpared : Spared K r)
    (hOut : SameOutside mem mem₁ r) (hOut' : SameOutside mem' mem₁' r)
    (hSame : SameIn mem₁ mem₁' r) (hLeads : Leads mem₁ pools unread M (fun k => k = r ∨ K k) r) :
    Alike pools unread M (fun k => k = r ∨ K k) mem₁ mem₁' :=
  h.update (fun _ => Iff.rfl) (fun k hK _ => hSpared k hK) hOut hOut'
    (sameBut_of_sameIn hSame) hLeads

/-- A write into memory that holds no structure. -/
theorem Alike.frame (h : Alike pools unread M K mem mem') (hSpared : Spared K r)
    (hOut : SameOutside mem mem₁ r) (hOut' : SameOutside mem' mem₁' r) :
    Alike pools unread M K mem₁ mem₁' := by
  have hPool : ∀ p ∈ pools, poolAt mem₁ p = poolAt mem p :=
    fun p hMem => poolAt_eq hOut (hSpared _ (h.closed.pool p hMem))
  refine ⟨⟨h.closed.pool, h.closed.head, ?_, ?_, ?_, ?_⟩, h.apart, ?_, h.node, ?_, ?_⟩
  · intro p hMem
    rw [hPool p hMem]
    exact h.closed.current p hMem
  · intro p hMem
    rw [hPool p hMem]
    exact h.closed.large p hMem
  · intro b hNode
    rw [nodeAt_eq hOut (hSpared _ hNode)]
    exact h.closed.next b hNode
  · intro l hHeader
    rw [headerAt_eq hOut (hSpared _ hHeader)]
    exact h.closed.header l hHeader
  · exact fun k hK => (h.same k hK).of_outside hOut hOut' (hSpared k hK)
  · intro p hMem
    rw [hPool p hMem]
    exact h.max_eq p hMem
  · intro p hMem
    rw [hPool p hMem]
    exact h.tiny p hMem

/-! ### Regions of the three kinds -/

theorem leads_node {b : Nat}
    (hNext : b ∉ unread → (nodeAt mem b).next ≠ 0 → K ⟨(nodeAt mem b).next, sizeofNode⟩) :
    Leads mem pools unread M K ⟨b, sizeofNode⟩ := by
  refine ⟨?_, ?_, ?_⟩
  · intro p _ hKind
    have hLen : sizeofNode = sizeofPool := congrArg Region.len hKind
    exact absurd hLen (by decide)
  · intro h hSame
    obtain rfl : b = h := congrArg Region.base hSame
    exact hNext
  · intro l hKind
    have hLen : sizeofNode = sizeofLarge := congrArg Region.len hKind
    exact absurd hLen (by decide)

theorem leads_header (hNext : (headerAt mem l).next ≠ 0 → K ⟨(headerAt mem l).next, sizeofLarge⟩) :
    Leads mem pools unread M K ⟨l, sizeofLarge⟩ := by
  refine ⟨?_, ?_, ?_⟩
  · intro p _ hKind
    have hLen : sizeofLarge = sizeofPool := congrArg Region.len hKind
    exact absurd hLen (by decide)
  · intro h hKind
    have hLen : sizeofLarge = sizeofNode := congrArg Region.len hKind
    exact absurd hLen (by decide)
  · intro k hSame
    obtain rfl : l = k := congrArg Region.base hSame
    exact hNext

theorem leads_pool (hCurrent : K ⟨(poolAt mem p).current, sizeofNode⟩)
    (hLarge : (poolAt mem p).large ≠ 0 → K ⟨(poolAt mem p).large, sizeofLarge⟩)
    (hMax : (poolAt mem p).max = M p) (hTiny : M p < sizeofLarge → (poolAt mem p).large = 0) :
    Leads mem pools unread M K ⟨p, sizeofPool⟩ := by
  refine ⟨?_, ?_, ?_⟩
  · intro q _ hSame
    obtain rfl : p = q := congrArg Region.base hSame
    exact ⟨hCurrent, hLarge, hMax, hTiny⟩
  · intro h hKind
    have hLen : sizeofPool = sizeofNode := congrArg Region.len hKind
    exact absurd hLen (by decide)
  · intro k hKind
    have hLen : sizeofPool = sizeofLarge := congrArg Region.len hKind
    exact absurd hLen (by decide)

end Writes

/-! ## The fields -/

section Fields

variable {mem mem' : Memory} {pools unread : List Nat} {M : Nat → Nat} {K : Region → Prop}
  {p b l v : Nat}

theorem Alike.setLast (h : Alike pools unread M K mem mem') (hNode : K ⟨b, sizeofNode⟩)
    (hv : v < 2 ^ 64) :
    Alike pools unread M K (setLast mem b v) (setLast mem' b v) := by
  refine h.write hNode (setLast_outside mem b v) (setLast_outside mem' b v)
    ((h.same _ hNode).store b 8 v) (leads_node ?_)
  rw [nodeAt_setLast hv]
  exact h.closed.next b hNode

theorem Alike.setFailed (h : Alike pools unread M K mem mem') (hNode : K ⟨b, sizeofNode⟩)
    (hv : v < 2 ^ 64) : Alike pools unread M K (setFailed mem b v) (setFailed mem' b v) := by
  refine h.write hNode (setFailed_outside mem b v) (setFailed_outside mem' b v)
    ((h.same _ hNode).store (b + 24) 8 v) (leads_node ?_)
  rw [nodeAt_setFailed hv]
  exact h.closed.next b hNode

theorem Alike.setNext (h : Alike pools unread M K mem mem') (hNode : K ⟨b, sizeofNode⟩)
    (hv : v < 2 ^ 64) (hNext : K ⟨v, sizeofNode⟩) :
    Alike pools unread M K (setNext mem b v) (setNext mem' b v) := by
  refine h.write hNode (setNext_outside mem b v) (setNext_outside mem' b v)
    ((h.same _ hNode).store (b + 16) 8 v) (leads_node ?_)
  rw [nodeAt_setNext hv]
  exact fun _ _ => hNext

theorem Alike.setAlloc (h : Alike pools unread M K mem mem') (hHeader : K ⟨l, sizeofLarge⟩)
    (hv : v < 2 ^ 64) : Alike pools unread M K (setAlloc mem l v) (setAlloc mem' l v) := by
  refine h.write hHeader (setAlloc_outside mem l v) (setAlloc_outside mem' l v)
    ((h.same _ hHeader).store (l + 8) 8 v) (leads_header ?_)
  rw [headerAt_setAlloc hv]
  exact h.closed.header l hHeader

theorem Alike.setCurrent (h : Alike pools unread M K mem mem') (hPool : p ∈ pools) (hv : v < 2 ^ 64)
    (hCurrent : K ⟨v, sizeofNode⟩) :
    Alike pools unread M K (setCurrent mem p v) (setCurrent mem' p v) := by
  have hIn := h.closed.pool p hPool
  refine h.write hIn (setCurrent_outside mem p v) (setCurrent_outside mem' p v)
    ((h.same _ hIn).store (p + 8) 8 v) ?_
  apply leads_pool
  · rw [poolAt_setCurrent hv]
    exact hCurrent
  · rw [poolAt_setCurrent hv]
    exact h.closed.large p hPool
  · rw [poolAt_setCurrent hv]
    exact h.max_eq p hPool
  · rw [poolAt_setCurrent hv]
    exact h.tiny p hPool

theorem Alike.setLarge (h : Alike pools unread M K mem mem') (hPool : p ∈ pools) (hv : v < 2 ^ 64)
    (hLarge : v ≠ 0 → K ⟨v, sizeofLarge⟩ ∧ sizeofLarge ≤ M p) :
    Alike pools unread M K (setLarge mem p v) (setLarge mem' p v) := by
  have hIn := h.closed.pool p hPool
  refine h.write hIn (setLarge_outside mem p v) (setLarge_outside mem' p v)
    ((h.same _ hIn).store (p + 16) 8 v) ?_
  apply leads_pool
  · rw [poolAt_setLarge hv]
    exact h.closed.current p hPool
  · rw [poolAt_setLarge hv]
    exact fun hSome => (hLarge hSome).1
  · rw [poolAt_setLarge hv]
    exact h.max_eq p hPool
  · rw [poolAt_setLarge hv]
    intro hTiny
    by_contra hSome
    exact absurd (hLarge hSome).2 (Nat.not_le_of_lt hTiny)

/-- The structure of a new block. -/
theorem Alike.addNode {c x e : Nat} (h : Alike pools unread M K mem mem')
    (hSpared : Spared K ⟨c, sizeofNode⟩)
    (hx : x < 2 ^ 64) (he : e < 2 ^ 64) :
    Alike pools unread M (fun k => k = ⟨c, sizeofNode⟩ ∨ K k)
      (Bytes.setLast (Bytes.setFailed (Bytes.setNext (setEnd mem c e) c 0) c 0) c x)
      (Bytes.setLast (Bytes.setFailed (Bytes.setNext (setEnd mem' c e) c 0) c 0) c x) := by
  obtain ⟨hOut, hWritten⟩ := newNode_written mem c hx he
  obtain ⟨hOut', hWritten'⟩ := newNode_written mem' c hx he
  refine h.add hSpared hOut hOut' (sameIn_of_nodeAt (hWritten'.trans hWritten.symm)) (leads_node ?_)
  rw [hWritten]
  exact fun _ hSome => absurd rfl hSome

/-- A new header. -/
theorem Alike.addHeader (h : Alike pools unread M K mem mem') (hSpared : Spared K ⟨l, sizeofLarge⟩)
    (hp : p < 2 ^ 64) (hv : v < 2 ^ 64) (hNext : v ≠ 0 → K ⟨v, sizeofLarge⟩) :
    Alike pools unread M (fun k => k = ⟨l, sizeofLarge⟩ ∨ K k)
      (setLargeNext (Bytes.setAlloc mem l p) l v) (setLargeNext (Bytes.setAlloc mem' l p) l v) := by
  obtain ⟨hOut, hWritten⟩ := header_written mem l hp hv
  obtain ⟨hOut', hWritten'⟩ := header_written mem' l hp hv
  refine h.add hSpared hOut hOut' (sameIn_of_headerAt (hWritten'.trans hWritten.symm))
    (leads_header ?_)
  rw [hWritten]
  exact fun hSome => .inr (hNext hSome)

end Fields

/-! ## The loops -/

/-- The nodes of which a walk from `p` on reads `next`; a node that fits ends it. -/
def linksRead (node : Nat → MpNode) (fits : Nat → Bool) : Nat → Nat → List Nat
  | 0, _ => []
  | fuel + 1, p =>
      if fits p then []
      else p :: if (node p).next = 0 then [] else linksRead node fits fuel (node p).next

/-- The test of `mp_alloc`. -/
def passesTest (node : Nat → MpNode) (size p : Nat) : Bool :=
  decide (size ≤ ptrDiff (node p).end_ (mpAlignPtr (node p).last mpAlignment))

/-- The links that the search of `mp_alloc` reads. -/
def searchLinks (mem : Memory) (size : Nat) : Nat → Nat → List Nat :=
  linksRead (nodeAt mem) (passesTest (nodeAt mem) size)

/-- The links that a walk to the end of the list reads. -/
def walkLinks (mem : Memory) : Nat → Nat → List Nat :=
  linksRead (nodeAt mem) fun _ => false

section Loops

variable {mem mem' mem₁ : Memory} {pools unread : List Nat} {M : Nat → Nat} {K : Region → Prop}
  {a a' heap heap' : Heap}
  {n p q h l c v fuel budget : Nat}

theorem disjoint_search (hUnread : unread.Disjoint (searchLinks mem n (fuel + 1) p))
    (hShort : ¬ n ≤ ptrDiff (nodeAt mem p).end_ (mpAlignPtr (nodeAt mem p).last mpAlignment)) :
    p ∉ unread ∧
      ((nodeAt mem p).next ≠ 0 → unread.Disjoint (searchLinks mem n fuel (nodeAt mem p).next)) := by
  have hLinks : searchLinks mem n (fuel + 1) p =
      p :: if (nodeAt mem p).next = 0 then [] else searchLinks mem n fuel (nodeAt mem p).next := by
    rw [searchLinks, linksRead, passesTest, if_neg (by simpa using hShort)]
  rw [hLinks] at hUnread
  refine ⟨fun hMem => hUnread hMem List.mem_cons_self, fun hMore => ?_⟩
  rw [if_neg hMore] at hUnread
  exact List.disjoint_of_disjoint_cons_right hUnread

theorem disjoint_walk (hUnread : unread.Disjoint (walkLinks mem (fuel + 1) p)) :
    p ∉ unread ∧
      ((nodeAt mem p).next ≠ 0 → unread.Disjoint (walkLinks mem fuel (nodeAt mem p).next)) := by
  have hLinks : walkLinks mem (fuel + 1) p =
      p :: if (nodeAt mem p).next = 0 then [] else walkLinks mem fuel (nodeAt mem p).next := rfl
  rw [hLinks] at hUnread
  refine ⟨fun hMem => hUnread hMem List.mem_cons_self, fun hMore => ?_⟩
  rw [if_neg hMore] at hUnread
  exact List.disjoint_of_disjoint_cons_right hUnread

/-- Writes that keep the links do not change the way. -/
theorem walkLinks_eq (hClosed : Closed mem pools unread K) (hStart : K ⟨p, sizeofNode⟩)
    (hUnread : unread.Disjoint (walkLinks mem fuel p))
    (hKept : ∀ b, K ⟨b, sizeofNode⟩ → (nodeAt mem₁ b).next = (nodeAt mem b).next) :
    walkLinks mem₁ fuel p = walkLinks mem fuel p := by
  induction fuel generalizing p with
  | zero => rfl
  | succ fuel ih =>
      obtain ⟨hRead, hRest⟩ := disjoint_walk hUnread
      simp only [walkLinks, linksRead, Bool.false_eq_true, if_false, hKept p hStart] at ih ⊢
      by_cases hLast : (nodeAt mem p).next = 0
      · rw [if_pos hLast, if_pos hLast]
      · rw [if_neg hLast, if_neg hLast,
          ih (hClosed.next p hStart hRead hLast) (hRest hLast)]

theorem findFit_alike (hAlike : Alike pools unread M K mem mem') (hStart : K ⟨p, sizeofNode⟩)
    (hUnread : unread.Disjoint (searchLinks mem n fuel p)) :
    findFit (nodeAt mem') n fuel p = findFit (nodeAt mem) n fuel p := by
  induction fuel generalizing p with
  | zero => rfl
  | succ fuel ih =>
      unfold findFit
      by_cases hFits : n ≤ ptrDiff (nodeAt mem p).end_
          (mpAlignPtr (nodeAt mem p).last mpAlignment)
      · rw [hAlike.node_fields hStart, if_pos hFits, if_pos hFits]
      · obtain ⟨hRead, hRest⟩ := disjoint_search hUnread hFits
        rw [hAlike.node_same hStart hRead]
        by_cases hLast : (nodeAt mem p).next = 0
        · simp only [hLast, if_true]
        · rw [ih (hAlike.closed.next p hStart hRead hLast) (hRest hLast)]

theorem findFit_inUse (hClosed : Closed mem pools unread K) (hStart : K ⟨p, sizeofNode⟩)
    (hUnread : unread.Disjoint (searchLinks mem n fuel p))
    (hRun : findFit (nodeAt mem) n fuel p = some q) : q = 0 ∨ K ⟨q, sizeofNode⟩ := by
  induction fuel generalizing p with
  | zero => simp [findFit] at hRun
  | succ fuel ih =>
      unfold findFit at hRun
      split at hRun
      · exact .inr (Option.some.inj hRun ▸ hStart)
      · rename_i hShort
        obtain ⟨hRead, hRest⟩ := disjoint_search hUnread hShort
        split at hRun
        · exact .inl (Option.some.inj hRun).symm
        · rename_i hMore
          exact ih (hClosed.next p hStart hRead hMore) (hRest hMore) hRun

theorem findAlloc_alike (hAlike : Alike pools unread M K mem mem')
    (hStart : l ≠ 0 → K ⟨l, sizeofLarge⟩) :
    findAlloc (headerAt mem') p fuel l = findAlloc (headerAt mem) p fuel l := by
  induction fuel generalizing l with
  | zero => rfl
  | succ fuel ih =>
      unfold findAlloc
      by_cases hEnd : l = 0
      · rw [if_pos hEnd, if_pos hEnd]
      · rw [if_neg hEnd, if_neg hEnd, hAlike.header_same (hStart hEnd),
          ih (hAlike.closed.header l (hStart hEnd))]

theorem findAlloc_inUse (hClosed : Closed mem pools unread K) (hStart : l ≠ 0 → K ⟨l, sizeofLarge⟩)
    (hRun : findAlloc (headerAt mem) p fuel l = some q) : q ≠ 0 → K ⟨q, sizeofLarge⟩ := by
  induction fuel generalizing l with
  | zero => simp [findAlloc] at hRun
  | succ fuel ih =>
      unfold findAlloc at hRun
      split at hRun
      · exact fun hSome => absurd (Option.some.inj hRun).symm hSome
      · rename_i hMore
        split at hRun
        · exact fun _ => Option.some.inj hRun ▸ hStart hMore
        · exact ih (hClosed.header l (hStart hMore)) hRun

theorem freeSlot_alike (hAlike : Alike pools unread M K mem mem')
    (hStart : l ≠ 0 → K ⟨l, sizeofLarge⟩) :
    freeSlot (headerAt mem') budget l = freeSlot (headerAt mem) budget l := by
  induction budget generalizing l with
  | zero => rfl
  | succ budget ih =>
      unfold freeSlot
      by_cases hEnd : l = 0
      · rw [if_pos hEnd, if_pos hEnd]
      · rw [if_neg hEnd, if_neg hEnd, hAlike.header_same (hStart hEnd),
          ih (hAlike.closed.header l (hStart hEnd))]

theorem freeSlot_inUse (hClosed : Closed mem pools unread K) (hStart : l ≠ 0 → K ⟨l, sizeofLarge⟩)
    (hRun : freeSlot (headerAt mem) budget l = some q) : K ⟨q, sizeofLarge⟩ := by
  induction budget generalizing l with
  | zero => simp [freeSlot] at hRun
  | succ budget ih =>
      unfold freeSlot at hRun
      split at hRun
      · simp at hRun
      · rename_i hMore
        split at hRun
        · exact Option.some.inj hRun ▸ hStart hMore
        · exact ih (hClosed.header l (hStart hMore)) hRun

/-- Both give back the same memory. -/
theorem freeLarge_alike (hAlike : Alike pools unread M K mem mem') (hSystem : SameSystem heap heap')
    (hHeader : heap.header = headerAt mem) (hHeader' : heap'.header = headerAt mem')
    (hStart : l ≠ 0 → K ⟨l, sizeofLarge⟩) :
    Option.Rel SameSystem (freeLarge fuel heap l) (freeLarge fuel heap' l) := by
  induction fuel generalizing heap heap' l with
  | zero => exact .none
  | succ fuel ih =>
      unfold freeLarge
      by_cases hEnd : l = 0
      · rw [if_pos hEnd, if_pos hEnd]
        exact .some hSystem
      · have hSame : heap'.header l = heap.header l := by
          rw [hHeader, hHeader']
          exact hAlike.header_same (hStart hEnd)
        rw [if_neg hEnd, if_neg hEnd, hSame]
        refine ih (hSystem.free _) ?_ ?_ ?_
        · rw [free_header, hHeader]
        · rw [free_header, hHeader']
        · rw [hHeader]
          exact hAlike.closed.header l (hStart hEnd)

theorem freeNodes_alike (hAlike : Alike pools unread M K mem mem') (hSystem : SameSystem heap heap')
    (hNode : heap.node = nodeAt mem) (hNode' : heap'.node = nodeAt mem')
    (hStart : h ≠ 0 → K ⟨h, sizeofNode⟩ ∧ unread.Disjoint (walkLinks mem fuel h)) :
    Option.Rel SameSystem (freeNodes fuel heap h) (freeNodes fuel heap' h) := by
  induction fuel generalizing heap heap' h with
  | zero => exact .none
  | succ fuel ih =>
      unfold freeNodes
      by_cases hEnd : h = 0
      · rw [if_pos hEnd, if_pos hEnd]
        exact .some hSystem
      · obtain ⟨hIn, hUnread⟩ := hStart hEnd
        obtain ⟨hRead, hRest⟩ := disjoint_walk hUnread
        have hSame : heap'.node h = heap.node h := by
          rw [hNode, hNode']
          exact hAlike.node_same hIn hRead
        rw [if_neg hEnd, if_neg hEnd, hSame]
        refine ih (hSystem.free _) ?_ ?_ ?_
        · rw [free_node, hNode]
        · rw [free_node, hNode']
        · rw [hNode]
          exact fun hMore => ⟨hAlike.closed.next h hIn hRead hMore, hRest hMore⟩

/-- A write into one node keeps the links of all. -/
theorem Alike.next_kept (hAlike : Alike pools unread M K mem mem') (hStart : K ⟨p, sizeofNode⟩)
    (hOut : SameOutside mem mem₁ ⟨p, sizeofNode⟩)
    (hOwn : (nodeAt mem₁ p).next = (nodeAt mem p).next) :
    ∀ b, K ⟨b, sizeofNode⟩ → (nodeAt mem₁ b).next = (nodeAt mem b).next := by
  intro b hNode
  by_cases hHere : b = p
  · rw [hHere, hOwn]
  · have hApart := hAlike.apart _ _ hStart hNode fun hSame =>
      hHere (congrArg Region.base hSame).symm
    rw [nodeAt_eq hOut hApart]

theorem bumpFailed_alike (hAlike : Alike pools unread M K mem mem') (hStart : K ⟨p, sizeofNode⟩)
    (hUnread : unread.Disjoint (walkLinks mem fuel p))
    (hCurrent : K ⟨c, sizeofNode⟩ ∧ c < 2 ^ 64) :
    Option.Rel (fun t t' => t'.1 = t.1 ∧ t'.2.1 = t.2.1 ∧ K ⟨t.1, sizeofNode⟩ ∧
        (K ⟨t.2.1, sizeofNode⟩ ∧ t.2.1 < 2 ^ 64) ∧ Alike pools unread M K t.2.2 t'.2.2)
      (bumpFailed fuel mem p c) (bumpFailed fuel mem' p c) := by
  induction fuel generalizing mem mem' p c with
  | zero => exact .none
  | succ fuel ih =>
      obtain ⟨hRead, hRest⟩ := disjoint_walk hUnread
      unfold bumpFailed
      rw [hAlike.node_same hStart hRead]
      by_cases hLast : (nodeAt mem p).next = 0
      · rw [if_pos hLast, if_pos hLast]
        exact .some ⟨rfl, rfl, hStart, hCurrent, hAlike⟩
      · rw [if_neg hLast, if_neg hLast]
        have hCount : ((nodeAt mem p).failed + 1) % 2 ^ 64 < 2 ^ 64 := Nat.mod_lt _ (by decide)
        have hBumped := hAlike.setFailed hStart hCount
        have hKept : (nodeAt (setFailed mem p (((nodeAt mem p).failed + 1) % 2 ^ 64)) p).next =
            (nodeAt mem p).next := by
          rw [nodeAt_setFailed hCount]
        have hKept' : (nodeAt (setFailed mem' p (((nodeAt mem p).failed + 1) % 2 ^ 64)) p).next =
            (nodeAt mem p).next := by
          rw [nodeAt_setFailed hCount, hAlike.node_same hStart hRead]
        have hNext := hAlike.closed.next p hStart hRead hLast
        have hLinks : ∀ b, K ⟨b, sizeofNode⟩ →
            (nodeAt (setFailed mem p (((nodeAt mem p).failed + 1) % 2 ^ 64)) b).next =
              (nodeAt mem b).next :=
          hAlike.next_kept hStart (setFailed_outside mem p _) hKept
        have hRest' := hRest hLast
        rw [← walkLinks_eq hAlike.closed hNext hRest' hLinks] at hRest'
        simp only [hKept, hKept']
        refine ih hBumped hNext hRest' ?_
        split
        · exact ⟨hNext, load_word_lt _ _⟩
        · exact hCurrent

theorem rewindNodes_alike (hAlike : Alike pools unread M K mem mem')
    (hStart : h ≠ 0 → K ⟨h, sizeofNode⟩ ∧ unread.Disjoint (walkLinks mem fuel h)) :
    Option.Rel (Alike pools unread M K) (rewindNodes fuel mem h) (rewindNodes fuel mem' h) := by
  induction fuel generalizing mem mem' h with
  | zero => exact .none
  | succ fuel ih =>
      unfold rewindNodes
      by_cases hEnd : h = 0
      · rw [if_pos hEnd, if_pos hEnd]
        exact .some hAlike
      · rw [if_neg hEnd, if_neg hEnd]
        obtain ⟨hNode, hUnread⟩ := hStart hEnd
        obtain ⟨hRead, hRest⟩ := disjoint_walk hUnread
        have hWord : ptrAdd h sizeofNode < 2 ^ 64 := Nat.mod_lt _ (by decide)
        have hRewound := hAlike.setLast hNode hWord
        have hSame := hRewound.node_same hNode hRead
        have hKept : (nodeAt (setLast mem h (ptrAdd h sizeofNode)) h).next =
            (nodeAt mem h).next := by
          rw [nodeAt_setLast hWord]
        have hLinks : ∀ b, K ⟨b, sizeofNode⟩ →
            (nodeAt (setLast mem h (ptrAdd h sizeofNode)) b).next = (nodeAt mem b).next :=
          hAlike.next_kept hNode (setLast_outside mem h _) hKept
        simp only [hSame, hKept]
        refine ih hRewound fun hMore => ?_
        have hNext := hAlike.closed.next h hNode hRead hMore
        refine ⟨hNext, ?_⟩
        rw [walkLinks_eq hAlike.closed hNext (hRest hMore) hLinks]
        exact hRest hMore

end Loops

end Bytes
end MemPool
end LinuxCppLearn
