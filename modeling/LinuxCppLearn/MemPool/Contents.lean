import LinuxCppLearn.MemPool.CarveOrder
import LinuxCppLearn.MemPool.Twins

/-!
# What the memory holds when the system returns it

The same calls on two memories, with the same answers of the system.  Every
field that a pool reads has been written before, but one: `mp_create_pool` does
not set `next` of the first node.

* `Session` — runs over any number of pools; memory without a structure in it may get
  other contents between the calls.
* `contents_do_not_matter` — they do not depend on the memory, as long as no call
  takes memory with a structure in it, and the first call that reads `next` of the first
  node of a pool finds `NULL` there.
* `contents_matter` — a pool that finds something else there gives it back.
* `takenSpared_of_inside` — calls whose search stays inside take no memory with a
  structure in it.
-/

namespace LinuxCppLearn
namespace MemPool
namespace Bytes

open ByteMemory Regions Lockstep LinkedChain

/-! ## Runs over any number of pools -/

/-- A call of the client, which names a pool by its address. -/
inductive PoolCall
  | create (size : Nat)
  | on (pool : Nat) (op : Op)
  | destory (pool : Nat)
deriving DecidableEq, Repr

/-- What happens in a run: a call, which may take so many steps, or memory gets other
contents, as it does between the call that gives it back and the one that returns it
again, and where the client writes. -/
inductive SessionAct
  | call (call : PoolCall) (fuel : Nat)
  | renewed (r : Region)
deriving DecidableEq, Repr

structure Session extends Ram where
  /-- what memory gets, and what it holds at the start -/
  contents : Nat → Memory
  /-- how often it has got other contents -/
  renewals : Nat
  /-- created and not destroyed -/
  pools : List Nat
  /-- the first nodes of which no call has read `next` -/
  unread : List Nat
  /-- what the calls have returned, newest first -/
  returned : List Nat

def Session.start (contents : Nat → Memory) (answer : Nat → Nat) : Session where
  toRam := Ram.start (contents 0) answer
  contents := contents
  renewals := 0
  pools := []
  unread := []
  returned := []

/-- The pool at the address `p`. -/
def Session.pool (s : Session) (p : Nat) : Pool where
  toRam := s.toRam
  addr := p
  carves := []

/-- The call for the memory of a new pool. -/
def Session.askPool (s : Session) (size : Nat) : Nat × Ram :=
  s.posixMemalign mpAlignment (ptrAdd size (sizeofPool + sizeofNode))

/-- The links that a call reads. -/
def Session.links (s : Session) (fuel : Nat) : PoolCall → List Nat
  | .create _ => []
  | .on p op => execLinks fuel (s.pool p) op
  | .destory p => destoryLinks fuel (s.pool p)

def Session.stillUnread (s : Session) (fuel : Nat) (call : PoolCall) : List Nat :=
  s.unread.filter fun b => b ∉ s.links fuel call

/-- Perform a call; only pools that have been created are named. -/
def Session.perform (fuel : Nat) (s : Session) : PoolCall → Option (Nat × Session)
  | .create size =>
      match mpCreatePool s.toRam size with
      | none => some (0, { s with toRam := (s.askPool size).2 })
      | some f =>
          some (f.addr,
            { s with
              toRam := f.toRam
              pools := f.addr :: s.pools
              unread := (f.addr + sizeofPool) :: s.unread })
  | .on p op =>
      if p ∈ s.pools then
        (exec fuel (s.pool p) op).map fun r =>
          (r.1, { s with toRam := r.2.toRam, unread := s.stillUnread fuel (.on p op) })
      else none
  | .destory p =>
      if p ∈ s.pools then
        (mpDestoryPool fuel (s.pool p)).map fun ram =>
          (0,
            { s with
              toRam := ram
              pools := s.pools.erase p
              unread := s.stillUnread fuel (.destory p) })
      else none

def Session.renew (s : Session) (r : Region) : Session :=
  { s with
    mem := fun x =>
      if r.base ≤ x ∧ x < r.base + r.len then s.contents (s.renewals + 1) x else s.mem x
    renewals := s.renewals + 1 }

def Session.step (s : Session) : SessionAct → Option Session
  | .call call fuel =>
      (s.perform fuel call).map fun r => { r.2 with returned := r.1 :: r.2.returned }
  | .renewed r => some (s.renew r)

/-- The structures of the pools. -/
def Session.Used (s : Session) : Region → Prop :=
  InUse s.mem s.pools s.unread

/-- A call that is the first to read `next` of a first node finds `NULL` there. -/
def FindsNull (s t : Session) (fuel : Nat) (call : PoolCall) : Prop :=
  ∀ b ∈ s.unread, b ∈ s.links fuel call →
    (nodeAt s.mem b).next = 0 ∧ (nodeAt t.mem b).next = 0

/-- The memory that a call takes, or that gets other contents, holds no structure of
a pool, and a call that reads what `mp_create_pool` has not set finds `NULL`. -/
def FindsNoContents (s t : Session) : SessionAct → Prop
  | .call (.create size) _ => (s.askPool size).1 ≠ 0 →
      Spared s.Used ⟨(s.askPool size).1, sizeofPool + sizeofNode⟩
  | .call (.on p op) fuel =>
      TakenSpared s.Used (Takes (s.pool p) op) ∧ FindsNull s t fuel (.on p op)
  | .call (.destory p) fuel => FindsNull s t fuel (.destory p)
  | .renewed r => Spared s.Used r

/-- The same returned pointers, and the same calls to the system. -/
def SameSeen (s t : Session) : Prop :=
  s.returned = t.returned ∧ s.calls = t.calls

structure SessionTwins (s t : Session) : Prop where
  pools_eq : t.pools = s.pools
  returned_eq : t.returned = s.returned
  system : SameSystem s.typed t.typed
  first : ∀ b ∈ s.unread, ∃ p ∈ s.pools, b = p + sizeofPool
  alike : ∃ M, Alike s.pools s.unread M s.Used s.mem t.mem

theorem not_inUse_nil {mem : Memory} {unread : List Nat} {r : Region} :
    ¬ InUse mem [] unread r := by
  intro hUse
  refine hUse.of_closed (K := fun _ => False) ⟨?_, ?_, ?_, ?_, ?_, ?_⟩
  · exact fun p hMem => absurd hMem List.not_mem_nil
  · exact fun p hMem => absurd hMem List.not_mem_nil
  · exact fun p hMem => absurd hMem List.not_mem_nil
  · exact fun p hMem => absurd hMem List.not_mem_nil
  · exact fun h hNode _ _ => hNode
  · exact fun l hHeader _ => hHeader

section Sessions

variable {s t : Session} {mem mem' : Memory} {pools unread : List Nat} {M : Nat → Nat}
  {K : Region → Prop} {call : PoolCall} {p size fuel : Nat}

/-- The memory when `mp_create_pool` has set the fields in front of `head`. -/
def poolWritten (mem : Memory) (p size : Nat) : Memory :=
  setLarge (setCurrent (setMax mem p
    (if size < mpMaxAllocFromPool then size else mpMaxAllocFromPool)) p (p + sizeofPool)) p 0

/-- The memory behind `mp_create_pool`. -/
def createdMem (mem : Memory) (p size : Nat) : Memory :=
  setFailed (setEnd (setLast (poolWritten mem p size)
    (p + sizeofPool) (ptrAdd p (sizeofPool + sizeofNode))) (p + sizeofPool)
    (ptrAdd (ptrAdd p (sizeofPool + sizeofNode)) size)) (p + sizeofPool) 0

theorem mpCreatePool_eq (ram : Ram) (size : Nat) :
    mpCreatePool ram size =
      if (ram.posixMemalign mpAlignment (ptrAdd size (sizeofPool + sizeofNode))).1 = 0 then none
      else
        some {
          toRam := { (ram.posixMemalign mpAlignment (ptrAdd size (sizeofPool + sizeofNode))).2 with
            mem := createdMem ram.mem
              (ram.posixMemalign mpAlignment (ptrAdd size (sizeofPool + sizeofNode))).1 size }
          addr := (ram.posixMemalign mpAlignment (ptrAdd size (sizeofPool + sizeofNode))).1
          carves := [] } := by
  unfold mpCreatePool createdMem poolWritten
  rcases hAsk : ram.typed.posixMemalign mpAlignment (ptrAdd size (sizeofPool + sizeofNode)) with
    ⟨p, t⟩
  have hWord : ptrAdd p (sizeofPool + sizeofNode) < 2 ^ 64 := Nat.mod_lt _ (by decide)
  simp only [Ram.posixMemalign, hAsk, nodeAt_setLast hWord, Ram.withSystem]

theorem createdMem_outside (mem : Memory) (p size : Nat) :
    SameOutside mem (createdMem mem p size) ⟨p, sizeofPool + sizeofNode⟩ := by
  have hPool : Region.Within ⟨p, sizeofPool⟩ ⟨p, sizeofPool + sizeofNode⟩ :=
    ⟨Nat.le_refl _, by simp only; omega⟩
  have hHead : Region.Within ⟨p + sizeofPool, sizeofNode⟩ ⟨p, sizeofPool + sizeofNode⟩ :=
    ⟨Nat.le_add_right _ _, by simp only; omega⟩
  have hFirst : SameOutside mem (poolWritten mem p size) ⟨p, sizeofPool⟩ :=
    ((setMax_outside mem p _).trans (setCurrent_outside _ p _)).trans (setLarge_outside _ p 0)
  have hSecond : SameOutside (poolWritten mem p size) (createdMem mem p size)
      ⟨p + sizeofPool, sizeofNode⟩ :=
    ((setLast_outside _ (p + sizeofPool) _).trans (setEnd_outside _ (p + sizeofPool) _)).trans
      (setFailed_outside _ (p + sizeofPool) 0)
  exact (hFirst.mono hPool).trans (hSecond.mono hHead)

theorem createdMem_shows (mem : Memory) (size : Nat) (hTop : p + sizeofPool < 2 ^ 64) :
    poolAt (createdMem mem p size) p =
        ⟨if size < mpMaxAllocFromPool then size else mpMaxAllocFromPool, p + sizeofPool, 0⟩ ∧
      nodeAt (createdMem mem p size) (p + sizeofPool) =
        { nodeAt mem (p + sizeofPool) with
          last := ptrAdd p (sizeofPool + sizeofNode)
          end_ := ptrAdd (ptrAdd p (sizeofPool + sizeofNode)) size
          failed := 0 } := by
  have hZero : 0 < 2 ^ 64 := by decide
  have hMax : (if size < mpMaxAllocFromPool then size else mpMaxAllocFromPool) < 2 ^ 64 := by
    have hPage : mpMaxAllocFromPool = 4095 := rfl
    split <;> omega
  exact created_written mem hMax hTop (Nat.mod_lt _ hZero) (Nat.mod_lt _ hZero)

/-- The structures in use, and those of a new pool at `p`. -/
def WithPool (K : Region → Prop) (p : Nat) (k : Region) : Prop :=
  k = ⟨p, sizeofPool⟩ ∨ k = ⟨p + sizeofPool, sizeofNode⟩ ∨ K k

theorem Closed.addPool {max : Nat} (h : Closed mem pools unread K)
    (hPool : poolAt mem p = ⟨max, p + sizeofPool, 0⟩) :
    Closed mem (p :: pools) ((p + sizeofPool) :: unread) (WithPool K p) where
  pool q hMem := by
    rcases List.mem_cons.mp hMem with rfl | hMem
    · exact .inl rfl
    · exact .inr (.inr (h.pool q hMem))
  head q hMem := by
    rcases List.mem_cons.mp hMem with rfl | hMem
    · exact .inr (.inl rfl)
    · exact .inr (.inr (h.head q hMem))
  current q hMem := by
    rcases List.mem_cons.mp hMem with rfl | hMem
    · rw [hPool]
      exact .inr (.inl rfl)
    · exact .inr (.inr (h.current q hMem))
  large q hMem hSome := by
    rcases List.mem_cons.mp hMem with rfl | hMem
    · rw [hPool] at hSome
      exact absurd rfl hSome
    · exact .inr (.inr (h.large q hMem hSome))
  -- the three kinds of structures differ in their lengths
  next b hNode hRead hSome := by
    rw [List.mem_cons, not_or] at hRead
    rcases hNode with hKind | hFirst | hNode
    · have hLen : sizeofNode = sizeofPool := congrArg Region.len hKind
      exact absurd hLen (by decide)
    · exact absurd (congrArg Region.base hFirst) hRead.1
    · exact .inr (.inr (h.next b hNode hRead.2 hSome))
  header l hHeader hSome := by
    rcases hHeader with hKind | hKind | hHeader
    · have hLen : sizeofLarge = sizeofPool := congrArg Region.len hKind
      exact absurd hLen (by decide)
    · have hLen : sizeofLarge = sizeofNode := congrArg Region.len hKind
      exact absurd hLen (by decide)
    · exact .inr (.inr (h.header l hHeader hSome))

/-- The structures of a new pool lie apart from the others and from each other. -/
theorem WithPool.apart (hOld : ∀ k k', K k → K k' → k ≠ k' → k.Apart k')
    (hSpared : Spared K ⟨p, sizeofPool + sizeofNode⟩) :
    ∀ k k', WithPool K p k → WithPool K p k' → k ≠ k' → k.Apart k' := by
  have hBoth : Region.Apart ⟨p, sizeofPool⟩ ⟨p + sizeofPool, sizeofNode⟩ := .inl (Nat.le_refl _)
  have hPool : ∀ k, K k → (⟨p, sizeofPool⟩ : Region).Apart k := fun k hK =>
    (hSpared k hK).mono ⟨Nat.le_refl _, by simp only; omega⟩ (Region.Within.refl k)
  have hHead : ∀ k, K k → (⟨p + sizeofPool, sizeofNode⟩ : Region).Apart k := fun k hK =>
    (hSpared k hK).mono ⟨Nat.le_add_right _ _, by simp only; omega⟩ (Region.Within.refl k)
  rintro k k' (rfl | rfl | hK) (rfl | rfl | hK') hNe
  · exact absurd rfl hNe
  · exact hBoth
  · exact hPool k' hK'
  · exact hBoth.symm
  · exact absurd rfl hNe
  · exact hHead k' hK'
  · exact (hPool k hK).symm
  · exact (hHead k hK).symm
  · exact hOld k k' hK hK' hNe

/-- A new pool beside the others; the link of its first node may differ. -/
theorem Alike.addPool (h : Alike pools unread M K mem mem') (hTop : p + sizeofPool < 2 ^ 64)
    (hSpared : Spared K ⟨p, sizeofPool + sizeofNode⟩) :
    ∃ M' K', Alike (p :: pools) ((p + sizeofPool) :: unread) M' K' (createdMem mem p size)
      (createdMem mem' p size) := by
  obtain ⟨hPool, hHead⟩ := createdMem_shows mem size hTop
  obtain ⟨hPool', hHead'⟩ := createdMem_shows mem' size hTop
  have hOld := h.frame hSpared (createdMem_outside mem p size) (createdMem_outside mem' p size)
  have hNew : ∀ q ∈ pools, q ≠ p := by
    rintro q hMem rfl
    have hApart := hSpared _ (h.closed.pool q hMem)
    have hLen : sizeofPool = 24 := rfl
    rcases hApart with hBefore | hAfter
    · simp only at hBefore
      omega
    · simp only at hAfter
      omega
  have hSame : nodeAt (createdMem mem' p size) (p + sizeofPool) =
      { nodeAt (createdMem mem p size) (p + sizeofPool) with
        next := (nodeAt (createdMem mem' p size) (p + sizeofPool)).next } := by
    rw [hHead, hHead']
  refine ⟨Function.update M p (if size < mpMaxAllocFromPool then size else mpMaxAllocFromPool),
    WithPool K p, hOld.closed.addPool hPool, WithPool.apart h.apart hSpared, ?_, ?_, ?_, ?_⟩
  · rintro k (rfl | rfl | hK)
    · exact sameBut_of_sameIn (sameIn_of_poolAt (hPool'.trans hPool.symm))
    · exact sameBut_of_nodeAt List.mem_cons_self hSame
    · exact (hOld.same k hK).mono (List.subset_cons_self _ _)
  · intro b hMem
    rcases List.mem_cons.mp hMem with rfl | hMem
    · exact .inr (.inl rfl)
    · exact .inr (.inr (hOld.node b hMem))
  · intro q hMem
    rcases List.mem_cons.mp hMem with rfl | hMem
    · rw [hPool, Function.update_self]
    · rw [Function.update_of_ne (hNew q hMem)]
      exact hOld.max_eq q hMem
  · intro q hMem
    rcases List.mem_cons.mp hMem with rfl | hMem
    · intro _
      rw [hPool]
    · rw [Function.update_of_ne (hNew q hMem)]
      exact hOld.tiny q hMem

theorem create_twins (h : SessionTwins s t)
    (hMet : FindsNoContents s t (.call (.create size) fuel)) :
    Option.Rel (fun r r' => r'.1 = r.1 ∧ SessionTwins r.2 r'.2) (s.perform fuel (.create size))
      (t.perform fuel (.create size)) := by
  obtain ⟨M, hAlike⟩ := h.alike
  rcases hAsk : s.typed.posixMemalign mpAlignment (ptrAdd size (sizeofPool + sizeofNode)) with
    ⟨p, u⟩
  obtain ⟨u', hAsk', hSystem, -⟩ := h.system.request hAsk
  have hAsk'' : t.typed.posixMemalign mpAlignment (ptrAdd size (sizeofPool + sizeofNode)) =
    (p, u') := hAsk'
  have hGot : s.posixMemalign mpAlignment (ptrAdd size (sizeofPool + sizeofNode)) =
      (p, s.withSystem u) := by
    simp only [Ram.posixMemalign, hAsk]
  have hGot' : t.posixMemalign mpAlignment (ptrAdd size (sizeofPool + sizeofNode)) =
      (p, t.withSystem u') := by
    simp only [Ram.posixMemalign, hAsk'']
  simp only [FindsNoContents, Session.askPool, hGot] at hMet
  simp only [Session.perform, Session.askPool, mpCreatePool_eq, hGot, hGot']
  have hSystem' : SameSystem (s.withSystem u).typed (t.withSystem u').typed :=
    ⟨h.system.answer_eq, hSystem.asked_eq, hSystem.live_eq, hSystem.calls_eq⟩
  by_cases hNull : p = 0
  · rw [if_pos hNull, if_pos hNull]
    exact .some ⟨rfl, h.pools_eq, h.returned_eq, hSystem', h.first, M, hAlike⟩
  · rw [if_neg hNull, if_neg hNull]
    have hTop : p + sizeofPool < 2 ^ 64 := by
      rcases request_cases hAsk with ⟨hRefused, -, -⟩ | ⟨-, hGrants, hBase, -⟩
      · exact absurd hRefused hNull
      · have hInside := hGrants.2.2.1
        have hLen : sizeofPool = 24 := rfl
        have hBound : addressTop = 2 ^ 64 - 32 := rfl
        omega
    have hFirst : ∀ b ∈ (p + sizeofPool) :: s.unread, ∃ q ∈ p :: s.pools, b = q + sizeofPool := by
      intro b hMem
      rcases List.mem_cons.mp hMem with rfl | hMem
      · exact ⟨p, List.mem_cons_self, rfl⟩
      · obtain ⟨q, hPool, rfl⟩ := h.first b hMem
        exact ⟨q, List.mem_cons_of_mem p hPool, rfl⟩
    obtain ⟨M', K', hCreated⟩ := @Alike.addPool _ _ _ _ _ _ _ size hAlike hTop (hMet hNull)
    refine .some ⟨rfl, congrArg (p :: ·) h.pools_eq, h.returned_eq, ?_, hFirst, M', ?_⟩
    · exact ⟨hSystem'.answer_eq, hSystem'.asked_eq, hSystem'.live_eq, hSystem'.calls_eq⟩
    · exact hCreated.shrink (List.Subset.refl _) hFirst

theorem stillUnread_subset : s.stillUnread fuel call ⊆ s.unread :=
  List.filter_subset_self _

theorem stillUnread_disjoint : (s.stillUnread fuel call).Disjoint (s.links fuel call) := by
  intro b hMem hLink
  have hKept := List.of_mem_filter hMem
  exact of_decide_eq_true hKept hLink

/-- A call may read the links in which it finds `NULL`. -/
theorem Alike.read (h : Alike s.pools s.unread M K s.mem t.mem) (hMet : FindsNull s t fuel call) :
    Alike s.pools (s.stillUnread fuel call) M K s.mem t.mem := by
  refine h.drop stillUnread_subset fun b hMem hGone => hMet b hMem ?_
  by_contra hLink
  exact hGone (List.mem_filter.mpr ⟨hMem, decide_eq_true hLink⟩)

theorem on_twins (h : SessionTwins s t) {op : Op} (hMet : TakenSpared s.Used (Takes (s.pool p) op))
    (hNull : FindsNull s t fuel (.on p op)) :
    Option.Rel (fun r r' => r'.1 = r.1 ∧ SessionTwins r.2 r'.2) (s.perform fuel (.on p op))
      (t.perform fuel (.on p op)) := by
  obtain ⟨M, hAlike⟩ := h.alike
  simp only [Session.perform, h.pools_eq]
  by_cases hMem : p ∈ s.pools
  · rw [if_pos hMem, if_pos hMem]
    have hTwins : Twins s.pools (s.stillUnread fuel (.on p op)) M s.Used (s.pool p) (t.pool p) :=
      ⟨rfl, hMem, h.system, hAlike.read hNull⟩
    have hFirst : ∀ b ∈ s.stillUnread fuel (.on p op), ∃ q ∈ s.pools, b = q + sizeofPool :=
      fun b hStill => h.first b (stillUnread_subset hStill)
    refine rel_map (exec_twins hTwins op hMet stillUnread_disjoint) ?_
    rintro r r' ⟨hSame, -, K', hBehind⟩
    exact ⟨hSame, rfl, h.returned_eq, hBehind.system, hFirst, M,
      hBehind.alike.shrink (List.Subset.refl _) hFirst⟩
  · rw [if_neg hMem, if_neg hMem]
    exact .none

theorem destory_twins (h : SessionTwins s t) (hNull : FindsNull s t fuel (.destory p)) :
    Option.Rel (fun r r' => r'.1 = r.1 ∧ SessionTwins r.2 r'.2) (s.perform fuel (.destory p))
      (t.perform fuel (.destory p)) := by
  obtain ⟨M, hAlike⟩ := h.alike
  simp only [Session.perform, h.pools_eq]
  by_cases hMem : p ∈ s.pools
  · rw [if_pos hMem, if_pos hMem]
    have hTwins : Twins s.pools (s.stillUnread fuel (.destory p)) M s.Used (s.pool p) (t.pool p) :=
      ⟨rfl, hMem, h.system, hAlike.read hNull⟩
    -- the link of the pool's own first node has been read
    have hFirst : ∀ b ∈ s.stillUnread fuel (.destory p),
        ∃ q ∈ s.pools.erase p, b = q + sizeofPool := by
      intro b hStill
      obtain ⟨q, hPool, rfl⟩ := h.first b (stillUnread_subset hStill)
      have hOther : q ≠ p := by
        rintro rfl
        exact stillUnread_disjoint hStill List.mem_cons_self
      exact ⟨q, (List.mem_erase_of_ne hOther).mpr hPool, rfl⟩
    refine rel_map (mpDestoryPool_twins hTwins stillUnread_disjoint) ?_
    rintro ram ram' ⟨hKept, hKept', hSystem⟩
    refine ⟨rfl, rfl, h.returned_eq, hSystem, hFirst, M, ?_⟩
    have hBehind := hTwins.alike.shrink List.erase_subset hFirst
    simp only [Session.Used, hKept, hKept']
    exact hBehind
  · rw [if_neg hMem, if_neg hMem]
    exact .none

theorem renew_twins {r : Region} (h : SessionTwins s t) (hSpared : Spared s.Used r) :
    SessionTwins (s.renew r) (t.renew r) := by
  obtain ⟨M, hAlike⟩ := h.alike
  refine ⟨h.pools_eq, h.returned_eq, ?_, h.first, M, ?_⟩
  · exact ⟨h.system.answer_eq, h.system.asked_eq, h.system.live_eq, h.system.calls_eq⟩
  · have hBehind : Alike s.pools s.unread M s.Used (s.renew r).mem (t.renew r).mem :=
      hAlike.frame hSpared (fun x hOut => if_neg (by omega)) (fun x hOut => if_neg (by omega))
    exact hBehind.shrink (List.Subset.refl _) h.first

/-- **One step** of two runs that take no memory with a structure in it. -/
theorem step_twins (h : SessionTwins s t) (a : SessionAct) (hMet : FindsNoContents s t a) :
    Option.Rel (fun s' t' => SameSeen s' t' ∧ SessionTwins s' t') (s.step a) (t.step a) := by
  cases a with
  | renewed r =>
      have hTwins := renew_twins h hMet
      exact .some ⟨⟨hTwins.returned_eq.symm, hTwins.system.calls_eq⟩, hTwins⟩
  | call call fuel =>
      have hPerform : Option.Rel (fun r r' => r'.1 = r.1 ∧ SessionTwins r.2 r'.2)
          (s.perform fuel call) (t.perform fuel call) := by
        cases call with
        | create size => exact create_twins h hMet
        | on p op => exact on_twins h hMet.1 hMet.2
        | destory p => exact destory_twins h hMet
      unfold Session.step
      refine rel_map hPerform ?_
      rintro ⟨m, s'⟩ ⟨m', t'⟩ ⟨rfl, hTwins⟩
      have hReturned : m' :: t'.returned = m' :: s'.returned :=
        congrArg (m' :: ·) hTwins.returned_eq
      exact ⟨⟨hReturned.symm, hTwins.system.calls_eq⟩, hTwins.pools_eq, hReturned, hTwins.system,
        hTwins.first, hTwins.alike⟩

/-- **What the memory holds when the system returns it does not matter**, as
long as no call takes memory with a structure of a pool in it, and every call that is
the first to read the one field that `mp_create_pool` does not set finds `NULL`. -/
theorem contents_do_not_matter (contents contents' : Nat → Memory) (answer : Nat → Nat)
    (steps : List SessionAct)
    (hMet : Guarded Session.step Session.step FindsNoContents (Session.start contents answer)
      (Session.start contents' answer) steps) :
    InStep Session.step Session.step (fun _ => SameSeen) (Session.start contents answer)
      (Session.start contents' answer) steps := by
  have hStart : SessionTwins (Session.start contents answer) (Session.start contents' answer) := by
    have hNothing : ∀ r, ¬ InUse (contents 0) [] [] r := fun r => not_inUse_nil
    refine ⟨rfl, rfl, ⟨rfl, rfl, rfl, rfl⟩, ?_, fun _ => 0, inUse_closed (contents 0) [] [], ?_, ?_,
      ?_, ?_, ?_⟩
    · exact fun b hMem => absurd hMem List.not_mem_nil
    · exact fun r _ hUse => absurd hUse (hNothing r)
    · exact fun r hUse => absurd hUse (hNothing r)
    · exact fun b hMem => absurd hMem List.not_mem_nil
    · exact fun p hMem => absurd hMem List.not_mem_nil
    · exact fun p hMem => absurd hMem List.not_mem_nil
  exact inStep_of_guarded (R := SessionTwins)
    (fun s t a hTwins hGuard => step_twins hTwins a hGuard) hStart hMet

end Sessions

/-- A request for which the first node has room takes no memory for the pool. -/
theorem small_takes_nothing {f : Pool} {n : Nat}
    (hFits : n ≤ ptrDiff (nodeAt f.mem (poolAt f.mem f.addr).current).end_
      (mpAlignPtr (nodeAt f.mem (poolAt f.mem f.addr).current).last mpAlignment))
    (hPtr : (poolAt f.mem f.addr).current ≠ 0) (what : Taking) (r : Region) :
    ¬ SmallTakes f n what r := by
  intro hTaken
  cases what with
  | header | cleared => exact hTaken
  | node =>
      obtain ⟨c, ⟨⟨fuel, hFit⟩, -⟩, -⟩ := hTaken
      cases fuel with
      | zero => simp [findFit] at hFit
      | succ fuel =>
          unfold findFit at hFit
          rw [if_pos hFits, Option.some.injEq] at hFit
          exact hPtr hFit

/-- A system that grants every 64 kB. -/
def everyPage (k : Nat) : Nat := 65536 * (k + 1)

/-- Rubbish everywhere but in `next` of the first node. -/
def rubbish (x : Nat) : UInt8 :=
  if 65536 + sizeofPool + 16 ≤ x ∧ x < 65536 + sizeofPool + 24 then 0 else 7

/-- The structures of a pool without large memory, of which no call has gone past the
first node. -/
theorem spared_of_single {mem : Memory} {p : Nat} {r : Region}
    (hCurrent : (poolAt mem p).current = p + sizeofPool) (hLarge : (poolAt mem p).large = 0)
    (hAbove : p + sizeofPool + sizeofNode ≤ r.base) :
    Spared (InUse mem [p] [p + sizeofPool]) r := by
  have hNone : Closed mem [] [] fun _ => False :=
    ⟨by simp, by simp, by simp, by simp, fun _ hNode => hNode.elim, fun _ hHeader => hHeader.elim⟩
  have hPool : poolAt mem p = ⟨(poolAt mem p).max, p + sizeofPool, 0⟩ := by
    rw [← hCurrent, ← hLarge]
  intro k hUse
  rcases hUse.of_closed (hNone.addPool hPool) with rfl | rfl | hNo
  · exact .inr (Nat.le_trans (Nat.le_add_right _ sizeofNode) hAbove)
  · exact .inr hAbove
  · exact hNo.elim

/-- A request of 16 bytes between the creation of a pool and its end; the client
writes something else there in the second run. -/
theorem contents_do_not_matter_rubbish :
    InStep Session.step Session.step (fun _ => SameSeen) (.start (fun _ _ => 0) everyPage)
      (.start (fun _ => rubbish) everyPage)
      [.call (.create 64) 3, .call (.on 65536 (.alloc 16)) 3, .renewed ⟨65600, 16⟩,
        .call (.destory 65536) 3] := by
  refine contents_do_not_matter _ _ _ _ ⟨?_, fun s t hS hT => ⟨⟨?_, ?_⟩, fun s' t' hS' hT' =>
    ⟨?_, fun s'' t'' hS'' hT'' => ⟨?_, fun _ _ _ _ => trivial⟩⟩⟩⟩
  · exact fun _ k hUse => absurd hUse not_inUse_nil
  · have hTest : (Session.step (.start (fun _ _ => 0) everyPage) (.call (.create 64) 3)).map
        (fun s => decide (16 ≤ (poolAt s.mem 65536).max ∧ 16 ≤
          ptrDiff (nodeAt s.mem (poolAt s.mem 65536).current).end_
            (mpAlignPtr (nodeAt s.mem (poolAt s.mem 65536).current).last mpAlignment) ∧
          (poolAt s.mem 65536).current ≠ 0)) = some true := by decide +kernel
    rw [hS, Option.map_some, Option.some.injEq] at hTest
    obtain ⟨hMax, hFits, hPtr⟩ := of_decide_eq_true hTest
    intro what r hTaken
    exact absurd ((AllocTakes.small hMax).mp hTaken) (small_takes_nothing hFits hPtr what r)
  · have hTest : (Session.step (.start (fun _ _ => 0) everyPage) (.call (.create 64) 3)).map
        (fun s => s.links 3 (.on 65536 (.alloc 16))) = some [] := by decide +kernel
    rw [hS, Option.map_some, Option.some.injEq] at hTest
    intro b _ hLink
    rw [hTest] at hLink
    exact absurd hLink List.not_mem_nil
  · have hTest : ((Session.step (.start (fun _ _ => 0) everyPage) (.call (.create 64) 3)).bind
        fun s => s.step (.call (.on 65536 (.alloc 16)) 3)).map (fun s =>
        decide (s.pools = [65536] ∧ s.unread = [65536 + sizeofPool] ∧
          (poolAt s.mem 65536).current = 65536 + sizeofPool ∧ (poolAt s.mem 65536).large = 0)) =
        some true := by decide +kernel
    rw [hS, Option.bind_some, hS', Option.map_some, Option.some.injEq] at hTest
    obtain ⟨hPools, hUnread, hCurrent, hLarge⟩ := of_decide_eq_true hTest
    show Spared (InUse s'.mem s'.pools s'.unread) ⟨65600, 16⟩
    rw [hPools, hUnread]
    exact spared_of_single hCurrent hLarge (by decide)
  · have hTest : (((Session.step (.start (fun _ _ => 0) everyPage) (.call (.create 64) 3)).bind
        fun s => s.step (.call (.on 65536 (.alloc 16)) 3)).bind fun s =>
        s.step (.renewed ⟨65600, 16⟩)).map (fun s => decide (s.unread = [65536 + sizeofPool] ∧
          (nodeAt s.mem (65536 + sizeofPool)).next = 0)) = some true := by decide +kernel
    have hTest' : (((Session.step (.start (fun _ => rubbish) everyPage) (.call (.create 64) 3)).bind
        fun t => t.step (.call (.on 65536 (.alloc 16)) 3)).bind fun t =>
        t.step (.renewed ⟨65600, 16⟩)).map (fun t => (nodeAt t.mem (65536 + sizeofPool)).next) =
        some 0 := by decide +kernel
    rw [hS, Option.bind_some, hS', Option.bind_some, hS'', Option.map_some,
      Option.some.injEq] at hTest
    rw [hT, Option.bind_some, hT', Option.bind_some, hT'', Option.map_some,
      Option.some.injEq] at hTest'
    obtain ⟨hUnread, hNext⟩ := of_decide_eq_true hTest
    intro b hMem _
    rw [hUnread, List.mem_singleton] at hMem
    rw [hMem]
    exact ⟨hNext, hTest'⟩

/-- A pool of 64 bytes that is created and destroyed. -/
def briefPool : List SessionAct := [.call (.create 64) 3, .call (.destory 65536) 3]

/-- Memory that is zero but for the third byte of `next` of the first node. -/
def strayLink (x : Nat) : UInt8 := if x = 65536 + sizeofPool + 18 then 2 else 0

/-- **A pool gives back what it finds** in `next` of its first node: with the
second memory the address `131072`, which was never handed out. -/
theorem contents_matter :
    (∃ s t, StepSystem.run Session.step (.start (fun _ _ => 0) everyPage) briefPool = some s ∧
      StepSystem.run Session.step (.start (fun _ => strayLink) everyPage) briefPool = some t ∧
      s.calls = [.free 65536, .posixMemalign 32 120 65536] ∧
      t.calls = [.free 65536, .free 131072, .posixMemalign 32 120 65536]) ∧
    ¬ InStep Session.step Session.step (fun _ => SameSeen) (.start (fun _ _ => 0) everyPage)
      (.start (fun _ => strayLink) everyPage) briefPool := by
  have hRun : (StepSystem.run Session.step (.start (fun _ _ => 0) everyPage) briefPool).map
      (fun s => s.calls) = some [.free 65536, .posixMemalign 32 120 65536] := by decide +kernel
  have hRun' : (StepSystem.run Session.step (.start (fun _ => strayLink) everyPage) briefPool).map
      (fun s => s.calls) = some [.free 65536, .free 131072, .posixMemalign 32 120 65536] := by
    decide +kernel
  obtain ⟨s, hS, hCalls⟩ := Option.map_eq_some_iff.mp hRun
  obtain ⟨t, hT, hCalls'⟩ := Option.map_eq_some_iff.mp hRun'
  refine ⟨⟨s, t, hS, hT, hCalls, hCalls'⟩, fun hStep => ?_⟩
  have hLast : briefPool = [.call (.create 64) 3] ++ [.call (.destory 65536) 3] := rfl
  rw [hLast] at hS hT hStep
  have hSeen : SameSeen s t := hStep.obs_of_run hS hT
  have hSame := hSeen.2
  rw [hCalls, hCalls'] at hSame
  exact absurd hSame (by decide)

/-! ## Searches that stay inside -/

section Inside

variable {f : Pool} {s : MemPool.Pool} {nodes larges pending unread : List Nat} {r : Region}
  {size n p q c m : Nat}

theorem searchEnds_unique (h : SearchEnds f n p) (h' : SearchEnds f n q) : p = q := by
  obtain ⟨k, hRun⟩ := h
  obtain ⟨k', hRun'⟩ := h'
  have hMore := (findFit_loop (nodeAt f.mem) n).mono hRun (Nat.le_max_left k k')
  have hMore' := (findFit_loop (nodeAt f.mem) n).mono hRun' (Nat.le_max_right k k')
  exact Option.some.inj (hMore.symm.trans hMore')

/-- The structures of one pool. -/
def OneOf (addr : Nat) (nodes larges : List Nat) (k : Region) : Prop :=
  k = ⟨addr, sizeofPool⟩ ∨ (∃ b ∈ nodes, k = ⟨b, sizeofNode⟩) ∨ ∃ l ∈ larges, k = ⟨l, sizeofLarge⟩

theorem OneOf.node_mem {addr b : Nat} (h : OneOf addr nodes larges ⟨b, sizeofNode⟩) :
    b ∈ nodes := by
  rcases h with hKind | ⟨d, hMem, hSame⟩ | ⟨l, -, hKind⟩
  · have hLen : sizeofNode = sizeofPool := congrArg Region.len hKind
    exact absurd hLen (by decide)
  · obtain rfl : b = d := congrArg Region.base hSame
    exact hMem
  · have hLen : sizeofNode = sizeofLarge := congrArg Region.len hKind
    exact absurd hLen (by decide)

theorem OneOf.header_mem {addr l : Nat} (h : OneOf addr nodes larges ⟨l, sizeofLarge⟩) :
    l ∈ larges := by
  rcases h with hKind | ⟨d, -, hKind⟩ | ⟨d, hMem, hSame⟩
  · have hLen : sizeofLarge = sizeofPool := congrArg Region.len hKind
    exact absurd hLen (by decide)
  · have hLen : sizeofLarge = sizeofNode := congrArg Region.len hKind
    exact absurd hLen (by decide)
  · obtain rfl : l = d := congrArg Region.base hSame
    exact hMem

/-- In memory that shows one pool of typed structures, these are in use. -/
theorem Models.closed (h : Models size f s nodes larges pending) :
    Closed f.mem [f.addr] unread (OneOf s.addr nodes larges) := by
  refine ⟨?_, ?_, ?_, ?_, ?_, ?_⟩
  · intro p hPool
    rw [List.mem_singleton.mp hPool, h.refines.addr_eq]
    exact .inl rfl
  · intro p hPool
    rw [List.mem_singleton.mp hPool, h.refines.addr_eq]
    exact .inr (.inl ⟨_, h.inv.head_mem, rfl⟩)
  · intro p hPool
    rw [List.mem_singleton.mp hPool, h.refines.current_eq]
    exact .inr (.inl ⟨_, h.inv.current_mem, rfl⟩)
  · intro p hPool hSome
    rw [List.mem_singleton.mp hPool, h.refines.large_eq] at hSome ⊢
    exact .inr (.inr ⟨_, h.inv.headers.start_mem.resolve_left hSome, rfl⟩)
  · intro b hNode _ hSome
    have hMem := hNode.node_mem
    rw [h.refines.node_eq b hMem] at hSome ⊢
    exact .inr (.inl ⟨_, (h.node_next b hMem).resolve_left hSome, rfl⟩)
  · intro l hHeader hSome
    have hMem := hHeader.header_mem
    rw [h.refines.header_eq l hMem] at hSome ⊢
    exact .inr (.inr ⟨_, (h.header_next l hMem).resolve_left hSome, rfl⟩)

theorem Models.spared (h : Models size f s nodes larges pending)
    (hUnused : Unused s.addr nodes larges r) : Spared (InUse f.mem [f.addr] unread) r := by
  intro k hUse
  rcases hUse.of_closed h.closed with rfl | ⟨b, hMem, rfl⟩ | ⟨l, hMem, rfl⟩
  · exact hUnused.pool
  · exact hUnused.node b hMem
  · exact hUnused.header l hMem

/-- A block that the system returns next. -/
theorem opens_region (h : Models size f s nodes larges pending) (hOpens : OpensBlock f n c) :
    c % 32 = 0 ∧ c + (sizeofNode + size) ≤ addressTop ∧
      ∀ r ∈ s.live.regions, Region.Apart ⟨c, sizeofNode + size⟩ r := by
  obtain ⟨-, hGrants, rfl⟩ := hOpens
  have hSize : ptrDiff (nodeAt f.mem f.head).end_ f.head = sizeofNode + size := by
    rw [h.refines.head_eq, h.refines.node_eq s.head h.inv.head_mem, psize_eq h.inv]
  have hPos : max (sizeofNode + size) 1 = sizeofNode + size :=
    Nat.max_eq_left (Nat.le_trans (by decide) (Nat.le_add_right sizeofNode size))
  have hProposal : f.typed.proposal (sizeofNode + size) =
      ⟨f.answer f.asked, sizeofNode + size⟩ := by
    unfold Heap.proposal
    rw [hPos]
    rfl
  rw [hSize] at hGrants
  have hFits := hGrants.2.2
  have hAligned := hGrants.2.1
  rw [hProposal] at hFits hAligned
  refine ⟨hAligned, hFits.1.2.2, fun r hLive => hFits.2 r ?_⟩
  rw [← h.refines.system.live_eq] at hLive
  exact hLive

theorem opens_unused (h : Models size f s nodes larges pending) (hOpens : OpensBlock f n c) :
    Unused s.addr nodes larges ⟨c, sizeofNode + size⟩ :=
  unused_of_apart h.inv fun b hMem =>
    (opens_region h hOpens).2.2 _ (h.inv.block_live b hMem)

/-- A search that stays inside ends where there is room, or nowhere. -/
theorem searchEnds_room (h : Models size f s nodes larges pending) (hSize : n ≤ s.max)
    (hClear : ¬ MeetsOvershoot s.node n s.current) (hEnds : SearchEnds f n p) :
    p = 0 ∨ p ∈ nodes ∧ HasRoom s.node n p := by
  obtain ⟨fuel, hFit⟩ := hEnds
  rw [h.refines.current_eq] at hFit
  have hFit' := findFit_refines h.refines h.node_next h.inv.current_mem hFit
  exact h.inv.search_hasRoom hSize hClear hFit'

/-- A region served by a search that stays inside: it holds no structure, is no
part of a block that is opened for it, and of no other memory of the system. -/
structure FreshRegion (size : Nat) (s : MemPool.Pool) (nodes larges : List Nat) (f : Pool)
    (n : Nat) (r : Region) : Prop where
  unused : Unused s.addr nodes larges r
  opened : ∀ k, SmallTakes f n .node k → r.Apart k
  other : ∀ k ∈ s.live.regions, (∀ b ∈ nodes, s.block size b ≠ k) → r.Apart k

theorem servedAt_fresh (h : Models size f s nodes larges pending) (hSize : n ≤ s.max)
    (hClear : ¬ MeetsOvershoot s.node n s.current) (hServed : ServedAt f n m) :
    FreshRegion size s nodes larges f n ⟨m, n⟩ := by
  have hMax := h.inv.max_le.1
  rcases hServed with ⟨p, hPtr, hEnds, rfl⟩ | ⟨c, hOpens, rfl⟩
  -- in a node of the list
  · obtain ⟨hMem, hRoom⟩ := (searchEnds_room h hSize hClear hEnds).resolve_left hPtr
    rw [h.refines.node_eq p hMem]
    obtain ⟨hStart, hAbove, hEnd, -⟩ := carve_bounds (n := n) h.inv hMem
    have hFits : (MemPool.carve s p n).1 + n ≤ (s.node p).end_ := hRoom
    have hLow : p + sizeofNode ≤ (MemPool.carve s p n).1 := Nat.le_trans hStart hAbove
    obtain ⟨hPool, hNodes⟩ := apart_of_inside h.inv hMem (r := ⟨(MemPool.carve s p n).1, n⟩) hLow
      (hEnd ▸ hFits)
    refine ⟨⟨hPool, hNodes, header_apart_of_above h.inv hMem hAbove hFits⟩, ?_, ?_⟩
    · rintro k ⟨c, hOpens, -⟩
      exact absurd (searchEnds_unique hEnds hOpens.1) hPtr
    · intro k hLive hNot
      have hApart := s.live.apart.forall (h.inv.block_live p hMem) hLive (hNot p hMem)
      exact hApart.mono (within_block (Nat.le_trans (Nat.le_add_right p _) hLow) (hEnd ▸ hFits))
        (Region.Within.refl k)
  -- behind the structure of a new block
  · obtain ⟨hAligned, hTop, hLive⟩ := opens_region h hOpens
    rw [new_block_data hAligned hTop]
    have hPart : Region.Within ⟨c + sizeofNode, n⟩ ⟨c, sizeofNode + size⟩ :=
      ⟨Nat.le_add_right _ _, by simp only; omega⟩
    refine ⟨(opens_unused h hOpens).mono hPart, ?_, ?_⟩
    · rintro k ⟨c', hOpens', rfl⟩
      obtain rfl : c' = c := hOpens'.2.2.trans hOpens.2.2.symm
      exact .inr (Nat.le_refl _)
    · exact fun k hIn _ => (hLive k hIn).mono hPart (Region.Within.refl k)

theorem smallTakes_unused (h : Models size f s nodes larges pending)
    (hTaken : SmallTakes f n .node r) : Unused s.addr nodes larges r := by
  obtain ⟨c, hOpens, rfl⟩ := hTaken
  exact (opens_unused h hOpens).mono ⟨Nat.le_refl _, by simp only; omega⟩

/-- What a header takes. -/
theorem headerTakes_unused (h : Models size f s nodes larges pending)
    (hClear : sizeofLarge ≤ s.max → ¬ MeetsOvershoot s.node sizeofLarge s.current)
    {what : Taking} (hTaken : HeaderTakes f what r) :
    Unused s.addr nodes larges r ∧
      (∀ what' r', HeaderTakes f what' r' → what ≠ what' → r.Apart r') ∧
      ∀ k ∈ s.live.regions, (∀ b ∈ nodes, s.block size b ≠ k) → r.Apart k := by
  have hServed : ∀ l, sizeofLarge ≤ (poolAt f.mem f.addr).max → ServedAt f sizeofLarge l →
      FreshRegion size s nodes larges f sizeofLarge ⟨l, sizeofLarge⟩ := by
    intro l hMax hServed
    rw [h.refines.max_eq] at hMax
    exact servedAt_fresh h hMax (hClear hMax) hServed
  cases what with
  | node =>
      obtain ⟨-, hSmall⟩ := hTaken
      refine ⟨smallTakes_unused h hSmall, ?_, ?_⟩
      · intro what' r' hTaken' hOther
        cases what' with
        | node => exact absurd rfl hOther
        | header =>
            obtain ⟨hMax, l, hAt, rfl⟩ := hTaken'
            exact ((hServed l hMax hAt).opened r hSmall).symm
        | cleared => exact hTaken'.elim
      · intro k hLive _
        obtain ⟨c, hOpens, rfl⟩ := hSmall
        exact ((opens_region h hOpens).2.2 k hLive).mono ⟨Nat.le_refl _, by simp only; omega⟩
          (Region.Within.refl k)
  | header =>
      obtain ⟨hMax, l, hAt, rfl⟩ := hTaken
      have hFresh := hServed l hMax hAt
      refine ⟨hFresh.unused, ?_, hFresh.other⟩
      intro what' r' hTaken' hOther
      cases what' with
      | node => exact hFresh.opened r' hTaken'.2
      | header => exact absurd rfl hOther
      | cleared => exact hTaken'.elim
  | cleared => exact hTaken.elim

/-- What a header takes behind a granted call for memory. -/
theorem headerTakes_spared {alignment : Nat} {call : Nat → SysCall} {t : Heap}
    (h : Models size f s nodes larges [])
    (hAsk : f.typed.request alignment n call = (p, t)) (hPtr : p ≠ 0)
    (hClear : sizeofLarge ≤ s.max → s.Grants alignment n →
      ¬ MeetsOvershoot s.node sizeofLarge s.current)
    {what : Taking} (hTaken : HeaderTakes { f with toRam := f.withSystem t } what r) :
    Spared (InUse f.mem [f.addr] unread) r ∧
      (∀ what' r', HeaderTakes { f with toRam := f.withSystem t } what' r' → what ≠ what' →
        r.Apart r') ∧
      r.Apart ⟨p, n⟩ := by
  obtain ⟨t', hAsk', hAnswer⟩ := h.request hAsk
  rcases hAnswer with ⟨hNull, -⟩ | ⟨-, hGrants, -, hLive, hGranted⟩
  · exact absurd hNull hPtr
  · have hNode : t'.node = s.node := (inv_request h.inv hAsk').1.1
    have hClear' : sizeofLarge ≤ s.max → ¬ MeetsOvershoot t'.node sizeofLarge s.current := by
      intro hMax
      rw [hNode]
      exact hClear hMax hGrants
    obtain ⟨hUnused, hOther, hApart⟩ := headerTakes_unused hGranted hClear' hTaken
    refine ⟨hGranted.spared hUnused, hOther, ?_⟩
    have hBlock : ∀ b ∈ nodes, s.block size b ≠ ⟨p, max n 1⟩ := by
      intro b hMem hSame
      exact hGranted.inv.pending_not_block hMem (congrArg Region.base hSame)
    exact (hApart _ hLive hBlock).mono (Region.Within.refl r)
      ⟨Nat.le_refl _, Nat.add_le_add_left (Nat.le_max_left n 1) p⟩

/-- What an allocation takes, and what `mp_calloc` clears. -/
theorem allocTakes_spared (h : Models size f s nodes larges [])
    (hClear : ∀ k, smallRequest s (.alloc n) = some k → ¬ MeetsOvershoot s.node k s.current)
    {what : Taking} (hTaken : AllocTakes f n what r) :
    Spared (InUse f.mem [f.addr] unread) r ∧
      (∀ what' r', AllocTakes f n what' r' → what ≠ what' → r.Apart r') ∧
      ∀ k, Clears f n k → r.Apart k := by
  simp only [smallRequest] at hClear
  by_cases hSize : n ≤ s.max
  · have hSize' : n ≤ (poolAt f.mem f.addr).max := h.refines.max_eq ▸ hSize
    rw [if_pos hSize] at hClear
    rw [AllocTakes.small hSize'] at hTaken
    cases what with
    | header | cleared => exact hTaken.elim
    | node =>
        refine ⟨h.spared (smallTakes_unused h hTaken), ?_, ?_⟩
        · intro what' r' hTaken' hOther
          rw [AllocTakes.small hSize'] at hTaken'
          cases what' with
          | node => exact absurd rfl hOther
          | header | cleared => exact hTaken'.elim
        · rintro k ⟨m, rfl, hAt⟩
          rw [if_pos hSize'] at hAt
          exact ((servedAt_fresh h hSize (hClear n rfl) hAt).opened r hTaken).symm
  · have hSize' : ¬ n ≤ (poolAt f.mem f.addr).max := by
      rw [h.refines.max_eq]
      exact hSize
    rcases hAsk : f.typed.malloc n with ⟨p, t⟩
    have hGot : f.malloc n = (p, f.withSystem t) := by
      simp only [Ram.malloc, hAsk]
    have hTakes : ∀ what r, AllocTakes f n what r ↔ p ≠ 0 ∧
        freeSlot (headerAt f.mem) 5 (poolAt f.mem f.addr).large = none ∧
        HeaderTakes { f with toRam := f.withSystem t } what r := by
      intro what r
      unfold AllocTakes
      rw [if_neg hSize', hGot]
    obtain ⟨hPtr, hSlot, hHeader⟩ := (hTakes what r).mp hTaken
    rw [h.refines.large_eq,
      freeSlot_refines h.refines h.header_next h.inv.headers.start_mem] at hSlot
    rw [if_neg hSize] at hClear
    have hClear' : sizeofLarge ≤ s.max → s.Grants 16 n →
        ¬ MeetsOvershoot s.node sizeofLarge s.current := by
      intro hMax hGrants
      exact hClear sizeofLarge (if_pos ⟨hMax, hGrants, hSlot⟩)
    obtain ⟨hSpared, hOther, hApart⟩ := headerTakes_spared h hAsk hPtr hClear' hHeader
    refine ⟨hSpared, fun what' r' hTaken' => hOther what' r' ((hTakes what' r').mp hTaken').2.2, ?_⟩
    rintro k ⟨m, rfl, hAt⟩
    rw [if_neg hSize', hGot] at hAt
    rw [hAt.2]
    exact hApart

theorem clears_spared (h : Models size f s nodes larges [])
    (hClear : ∀ k, smallRequest s (.calloc n) = some k → ¬ MeetsOvershoot s.node k s.current)
    (hTaken : Clears f n r) : Spared (InUse f.mem [f.addr] unread) r := by
  simp only [smallRequest] at hClear
  obtain ⟨m, rfl, hAt⟩ := hTaken
  by_cases hSize : n ≤ s.max
  · rw [if_pos (h.refines.max_eq ▸ hSize)] at hAt
    rw [if_pos hSize] at hClear
    exact h.spared (servedAt_fresh h hSize (hClear n rfl) hAt).unused
  · have hSize' : ¬ n ≤ (poolAt f.mem f.addr).max := by
      rw [h.refines.max_eq]
      exact hSize
    rcases hAsk : f.typed.malloc n with ⟨p, t⟩
    have hGot : f.malloc n = (p, f.withSystem t) := by
      simp only [Ram.malloc, hAsk]
    rw [if_neg hSize', hGot] at hAt
    obtain ⟨hPtr, rfl⟩ := hAt
    obtain ⟨t', -, hAnswer⟩ := h.request hAsk
    rcases hAnswer with ⟨hNull, -⟩ | ⟨-, -, -, hLive, hGranted⟩
    · exact absurd hNull hPtr
    · have hUnused := unused_of_pending hGranted.inv hLive
      exact hGranted.spared
        (hUnused.mono ⟨Nat.le_refl _, Nat.add_le_add_left (Nat.le_max_left n 1) _⟩)

/-- **Searches that stay inside** take no memory that holds a structure. -/
theorem takenSpared_of_inside (h : Models size f s nodes larges []) {op : Op} {fuel : Nat}
    (hInside : StaysInside f (op, fuel)) :
    TakenSpared (InUse f.mem [f.addr] unread) (Takes f op) := by
  have hClear : ∀ k, smallRequest s op = some k → ¬ MeetsOvershoot s.node k s.current :=
    h.stays_inside hInside
  cases op with
  | alloc n =>
      intro what r hTaken
      obtain ⟨hSpared, hOther, -⟩ := allocTakes_spared h hClear hTaken
      exact ⟨hSpared, hOther⟩
  | calloc n =>
      intro what r hTaken
      have hAlloc : ∀ what r, what ≠ .cleared → Takes f (.calloc n) what r →
          AllocTakes f n what r := by
        intro what r hOther hTakes
        cases what with
        | node | header => exact hTakes
        | cleared => exact absurd rfl hOther
      by_cases hCleared : what = .cleared
      · subst hCleared
        refine ⟨clears_spared h hClear hTaken, fun what' r' hTaken' hOther => ?_⟩
        have hOther' := hAlloc what' r' (Ne.symm hOther) hTaken'
        have hBoth : Spared (InUse f.mem [f.addr] unread) r' ∧ _ :=
          allocTakes_spared h hClear hOther'
        exact (hBoth.2.2 r hTaken).symm
      · obtain ⟨hSpared, hOther, hApart⟩ :=
          allocTakes_spared h hClear (hAlloc what r hCleared hTaken)
        refine ⟨hSpared, fun what' r' hTaken' hNe => ?_⟩
        by_cases hCleared' : what' = .cleared
        · subst hCleared'
          exact hApart r' hTaken'
        · exact hOther what' r' (hAlloc what' r' hCleared' hTaken') hNe
  | memalign n alignment =>
      rcases hAsk : f.typed.posixMemalign alignment n with ⟨p, t⟩
      have hGot : f.posixMemalign alignment n = (p, f.withSystem t) := by
        simp only [Ram.posixMemalign, hAsk]
      simp only [smallRequest] at hClear
      have hClear' : sizeofLarge ≤ s.max → s.Grants alignment n →
          ¬ MeetsOvershoot s.node sizeofLarge s.current := by
        intro hMax hGrants
        exact hClear sizeofLarge (if_pos ⟨hMax, hGrants⟩)
      intro what r hTaken
      simp only [Takes, hGot] at hTaken
      obtain ⟨hSpared, hOther, -⟩ := headerTakes_spared h hAsk hTaken.1 hClear' hTaken.2
      refine ⟨hSpared, fun what' r' hTaken' => ?_⟩
      simp only [Takes, hGot] at hTaken'
      exact hOther what' r' hTaken'.2
  | free p => exact fun what r hTaken => hTaken.elim
  | reset => exact fun what r hTaken => hTaken.elim

end Inside

end Bytes
end MemPool
end LinuxCppLearn
