import LinuxCppLearn.MemPool.Writes

/-!
# What clients store in the pool

A client writes into the memory that it has got from a pool, between its calls
and in any order.  While the searches stay inside, its allocations are cells that
do not depend on each other or on the pool: no call and no write changes what is
stored in another one, and what the client writes is of no matter to the pool.

* `Client` — a pool and a client, who remembers what it has written where.
* `client_data_kept` — over every run.
* `written_in_own_memory` — a call writes into memory that the pool has from the
  system, into no other, and not into what the client holds.
-/

namespace LinuxCppLearn
namespace MemPool
namespace Bytes

open ByteMemory Regions LinkedChain StepSystem

/-! ## A pool and its client -/

structure Client extends Pool where
  /-- the allocations of the client, newest first, and what it knows of them -/
  cells : List Cell
  /-- the calls made, newest first -/
  made : List Action

def Client.start (f : Pool) : Client := ⟨f, [], []⟩

inductive ClientAct
  | call (a : Action)
  /-- write the bytes at the offset `k` of the allocation number `i` -/
  | write (i k : Nat) (bs : List UInt8)

/-- The allocations behind `mp_free(pool, p)`; it does nothing when the pool has
no large allocation at `p`. -/
def Client.cellsFreed (c : Client) (fuel p : Nat) : List Cell :=
  if findAlloc (headerAt c.mem) p fuel (poolAt c.mem c.addr).large = some 0 then c.cells
  else c.cells.filter fun d => d.region.base ≠ p

/-- The allocations behind a call that has returned `m`. -/
def Client.cellsAfter (c : Client) (a : Action) (m : Nat) : List Cell :=
  match a.1 with
  | .alloc n => if m = 0 then c.cells else Cell.fresh ⟨m, n⟩ :: c.cells
  | .calloc n => if m = 0 then c.cells else Cell.filled ⟨m, n⟩ 0 :: c.cells
  | .memalign n _ => if m = 0 then c.cells else Cell.fresh ⟨m, n⟩ :: c.cells
  | .free p => c.cellsFreed a.2 p
  | .reset => []

def Client.step (c : Client) : ClientAct → Option Client
  | .call a =>
      (exec a.2 c.toPool a.1).map fun r =>
        { toPool := r.2, cells := c.cellsAfter a r.1, made := a :: c.made }
  | .write i k bs =>
      match c.cells[i]? with
      | none => none
      | some d =>
          if k + bs.length ≤ d.region.len then
            some { c with
              mem := writeBytes c.mem (d.region.base + k) bs
              cells := writeCell c.cells i k bs }
          else none

/-- The search of a call comes to no node that overshoots. -/
def Client.StaysInside (c : Client) : ClientAct → Prop
  | .call a => Bytes.StaysInside c.toPool a
  | .write _ _ _ => True

/-! ## The invariant -/

variable {f f' f₀ : Pool} {s s' s₀ : MemPool.Pool} {nodes larges nodes' larges' : List Nat}
  {size n m p fuel : Nat} {r : Region} {cells : List Cell} {mem : Memory} {answer : Nat → Nat}

/-- Where an allocation of the client lies: in memory taken from a block, or in
the memory of a header. -/
def Held (f : Pool) (s : MemPool.Pool) (larges : List Nat) (r : Region) : Prop :=
  (∃ c ∈ f.carves, c.region = r) ∨
    (r.base ∈ allocs s.header larges ∧ ⟨r.base, max r.len 1⟩ ∈ s.live.regions)

structure Holding (size : Nat) (f : Pool) (s : MemPool.Pool) (nodes larges : List Nat)
    (cells : List Cell) : Prop where
  models : Models size f s nodes larges []
  held : ∀ d ∈ cells, Held f s larges d.region
  no_header : ∀ d ∈ cells, ∀ l ∈ larges, d.region.Apart ⟨l, sizeofLarge⟩
  apart : CellsApart cells
  shows : ShowsCells f.mem cells

theorem within_alloc (r : Region) : r.Within ⟨r.base, max r.len 1⟩ :=
  ⟨Nat.le_refl _, Nat.add_le_add_left (Nat.le_max_left _ _) _⟩

/-- What the client holds is no part of a structure. -/
theorem Held.unused (h : Held f s larges r) (hModels : Models size f s nodes larges [])
    (hHeaders : ∀ l ∈ larges, r.Apart ⟨l, sizeofLarge⟩) : Unused s.addr nodes larges r := by
  rcases h with ⟨c, hMem, rfl⟩ | ⟨hAlloc, hLive⟩
  · obtain ⟨hBlock, hLow, -, hHigh⟩ := hModels.stacked.inside c hMem
    obtain ⟨hPool, hNodes⟩ := apart_of_inside hModels.inv hBlock hLow
      (Nat.le_trans hHigh (hModels.inv.last_le hBlock))
    exact ⟨hPool, hNodes, hHeaders⟩
  · exact (unused_of_alloc hModels.inv hAlloc hLive).mono (within_alloc r)

theorem Unused.apart_one {addr : Nat} (h : Unused addr nodes larges r) {k : Region}
    (hOne : OneOf addr nodes larges k) : k.Apart r := by
  rcases hOne with rfl | ⟨b, hMem, rfl⟩ | ⟨l, hMem, rfl⟩
  · exact h.pool.symm
  · exact (h.node b hMem).symm
  · exact (h.header l hMem).symm

theorem Holding.apart_one (h : Holding size f s nodes larges cells) {d : Cell} (hMem : d ∈ cells)
    {k : Region} (hOne : OneOf s.addr nodes larges k) : k.Apart d.region :=
  ((h.held d hMem).unused h.models (h.no_header d hMem)).apart_one hOne

/-- The client writes where no structure lies. -/
theorem Models.frame {pending : List Nat} {mem' : Memory}
    (h : Models size f s nodes larges pending)
    (hSame : SameOutside f.mem mem' r) (hUnused : Unused s.addr nodes larges r) :
    Models size { f with mem := mem' } s nodes larges pending :=
  ⟨h.inv, h.refines.frame hSame hUnused, h.headers_apart, h.stacked⟩

/-! ## Steps -/

/-- **A write of the client.** -/
theorem Holding.write (h : Holding size f s nodes larges cells) {i k : Nat} {bs : List UInt8}
    {d : Cell} (hCell : cells[i]? = some d) (hRoom : k + bs.length ≤ d.region.len) :
    Holding size { f with mem := writeBytes f.mem (d.region.base + k) bs } s nodes larges
      (writeCell cells i k bs) := by
  have hMem : d ∈ cells := List.mem_of_getElem? hCell
  have hRegions := writeCell_regions cells i k bs
  have hOld : ∀ e ∈ writeCell cells i k bs, ∃ e' ∈ cells, e'.region = e.region := by
    intro e hIn
    have hRegion : e.region ∈ cells.map Cell.region := hRegions ▸ List.mem_map_of_mem hIn
    exact List.mem_map.mp hRegion
  have hUnused := (h.held d hMem).unused h.models (h.no_header d hMem)
  have hPart : Unused s.addr nodes larges ⟨d.region.base + k, bs.length⟩ :=
    hUnused.mono ⟨Nat.le_add_right _ _, by simp only; omega⟩
  refine ⟨h.models.frame writeBytes_outside hPart, ?_, ?_, ?_, h.shows.write h.apart hCell hRoom⟩
  · intro e hIn
    obtain ⟨e', hIn', hSame⟩ := hOld e hIn
    exact hSame ▸ h.held e' hIn'
  · intro e hIn
    obtain ⟨e', hIn', hSame⟩ := hOld e hIn
    exact hSame ▸ h.no_header e' hIn'
  · unfold CellsApart
    rw [hRegions]
    exact h.apart

/-- What a call for memory leaves to the client. -/
theorem Holding.grow (h : Holding size f s nodes larges cells)
    (hModels : Models size f' s' nodes' larges' [])
    (hGrown : Grown f f' s s' larges nodes' larges') :
    Holding size f' s' nodes' larges' cells := by
  have hHeld : ∀ d ∈ cells, Held f' s' larges' d.region := by
    intro d hMem
    rcases h.held d hMem with ⟨c, hCarve, hSame⟩ | ⟨hAlloc, hLive⟩
    · exact .inl ⟨c, hGrown.carves hCarve, hSame⟩
    · exact .inr ⟨hGrown.owned hAlloc, hGrown.live _ hLive hAlloc⟩
  have hHeaders : ∀ d ∈ cells, ∀ l ∈ larges', d.region.Apart ⟨l, sizeofLarge⟩ := by
    intro d hMem l hHeader
    rcases hGrown.headers l hHeader with hOld | hNew
    · exact h.no_header d hMem l hOld
    · rcases h.held d hMem with ⟨c, hCarve, hSame⟩ | ⟨hAlloc, hLive⟩
      · exact hSame ▸ hNew c hCarve
      · have hUnused := unused_of_alloc hModels.inv (hGrown.owned hAlloc)
          (hGrown.live _ hLive hAlloc)
        exact (hUnused.header l hHeader).mono (within_alloc _) (Region.Within.refl _)
  refine ⟨hModels, hHeld, hHeaders, h.apart, h.shows.frame hGrown.changed ?_⟩
  intro d hMem k hOne
  exact ((hHeld d hMem).unused hModels (hHeaders d hMem)).apart_one hOne

/-- What has been returned is held, and apart from what is held already. -/
theorem Returned.held (h : Returned f f' s s' larges larges' m n) :
    Held f' s' larges' ⟨m, n⟩ := by
  rcases h with ⟨⟨b, hCarve⟩, -⟩ | ⟨-, hAlloc, hLive⟩
  · refine .inl ⟨⟨b, ⟨m, n⟩⟩, ?_, rfl⟩
    rw [hCarve]
    exact List.mem_cons_self
  · exact .inr ⟨hAlloc, hLive⟩

theorem Returned.no_header (h : Returned f f' s s' larges larges' m n)
    (hModels : Models size f' s' nodes' larges' []) :
    ∀ l ∈ larges', Region.Apart ⟨m, n⟩ ⟨l, sizeofLarge⟩ := by
  rcases h with ⟨-, hHeaders⟩ | ⟨-, hAlloc, hLive⟩
  · exact hHeaders
  · intro l hHeader
    have hUnused := unused_of_alloc hModels.inv hAlloc hLive
    exact (hUnused.header l hHeader).mono (within_alloc ⟨m, n⟩) (Region.Within.refl _)

theorem Returned.apart_held (h : Returned f f' s s' larges larges' m n)
    (hModels : Models size f' s' nodes' larges' [])
    (hGrown : Grown f f' s s' larges nodes' larges') (hHeld : Held f s larges r) :
    Region.Apart ⟨m, n⟩ r := by
  rcases h with ⟨⟨b, hCarve⟩, -⟩ | ⟨hNew, hAlloc, hLive⟩
  -- taken from a block just now
  · rcases hHeld with ⟨c, hOld, rfl⟩ | ⟨hAlloc, hLive⟩
    · have hApart := hModels.carves_apart
      rw [hCarve, List.map_cons, List.pairwise_cons] at hApart
      exact hApart.1 _ (List.mem_map_of_mem hOld)
    · have hMem : (⟨b, ⟨m, n⟩⟩ : Carve) ∈ f'.carves := by
        rw [hCarve]
        exact List.mem_cons_self
      exact (hModels.carve_apart_alloc hMem (hGrown.owned hAlloc)
        (hGrown.live _ hLive hAlloc)).mono (Region.Within.refl _) (within_alloc r)
  -- memory of its own from the system
  · rcases hHeld with ⟨c, hOld, rfl⟩ | ⟨hAlloc', hLive'⟩
    · have hApart := hModels.carve_apart_alloc (hGrown.carves hOld) hAlloc hLive
      exact Region.Apart.mono hApart.symm (within_alloc ⟨m, n⟩) (Region.Within.refl _)
    · have hNe : (⟨m, max n 1⟩ : Region) ≠ ⟨r.base, max r.len 1⟩ := by
        intro hSame
        have hBase : m = r.base := congrArg Region.base hSame
        exact hNew (hBase ▸ hAlloc')
      have hApart := s'.live.apart.forall hLive (hGrown.live _ hLive' hAlloc') hNe
      exact hApart.mono (within_alloc ⟨m, n⟩) (within_alloc r)

/-- **Memory handed to the client.** -/
theorem Holding.take (h : Holding size f s nodes larges cells)
    (hModels : Models size f' s' nodes' larges' [])
    (hGrown : Grown f f' s s' larges nodes' larges')
    (hReturned : Returned f f' s s' larges larges' m n) {d : Cell} (hRegion : d.region = ⟨m, n⟩)
    (hShown : d.ShownBy f'.mem) : Holding size f' s' nodes' larges' (d :: cells) := by
  have hKept := h.grow hModels hGrown
  refine ⟨hModels, List.forall_mem_cons.mpr ⟨?_, hKept.held⟩,
    List.forall_mem_cons.mpr ⟨?_, hKept.no_header⟩, ?_,
    List.forall_mem_cons.mpr ⟨hShown, hKept.shows⟩⟩
  · rw [hRegion]
    exact hReturned.held
  · rw [hRegion]
    exact hReturned.no_header hModels
  · refine List.pairwise_cons.mpr ⟨?_, h.apart⟩
    rw [hRegion, List.forall_mem_map]
    exact fun e hMem => hReturned.apart_held hModels hGrown (h.held e hMem)

/-- **`mp_free`** of what may be an allocation of the client. -/
theorem Holding.free (h : Holding size f s nodes larges cells) (hRun : mpFree fuel f p = some f') :
    ∃ s', MemPool.mpFree fuel s p = some s' ∧
      Holding size f' s' nodes larges
        (if findAlloc (headerAt f.mem) p fuel (poolAt f.mem f.addr).large = some 0 then cells
         else cells.filter fun d => d.region.base ≠ p) := by
  obtain ⟨s', hRun', hModels, hCarves, hChanged, hOwned, hLive, hNothing⟩ :=
    mpFree_kept h.models hRun
  refine ⟨s', hRun', ?_⟩
  split
  · rename_i hNone
    obtain rfl := hNothing hNone
    have hOwned' : Grown f' f' s s' larges nodes larges :=
      Grown.of_failed h.models hModels rfl rfl fun r hIn hAlloc => by
        rw [← h.models.live_eq] at hIn
        rwa [← hModels.live_eq]
    exact h.grow hModels hOwned'
  · have hKept : ∀ d ∈ cells.filter fun d => d.region.base ≠ p,
        d ∈ cells ∧ Held f' s' larges d.region := by
      intro d hIn
      obtain ⟨hMem, hNe⟩ := List.mem_filter.mp hIn
      have hOther : d.region.base ≠ p := by simpa using hNe
      refine ⟨hMem, ?_⟩
      rcases h.held d hMem with ⟨c, hCarve, hSame⟩ | ⟨hAlloc, hMine⟩
      · exact .inl ⟨c, hCarves ▸ hCarve, hSame⟩
      · exact .inr ⟨hOwned _ hAlloc hOther, hLive _ hMine hOther⟩
    have hHeaders : ∀ d ∈ cells.filter fun d => d.region.base ≠ p, ∀ l ∈ larges,
        d.region.Apart ⟨l, sizeofLarge⟩ := fun d hIn => h.no_header d (hKept d hIn).1
    refine ⟨hModels, fun d hIn => (hKept d hIn).2, hHeaders,
      List.Pairwise.sublist (List.Sublist.map _ List.filter_sublist) h.apart, ?_⟩
    have hShown : ShowsCells f.mem (cells.filter fun d => d.region.base ≠ p) :=
      fun d hIn => h.shows d (hKept d hIn).1
    refine hShown.frame hChanged fun d hIn k hOne => ?_
    exact ((hKept d hIn).2.unused hModels (hHeaders d hIn)).apart_one hOne

/-- `mp_alloc` and `mp_memalign`, whose memory may hold anything. -/
theorem Holding.fresh (h : Holding size f s nodes larges cells)
    (hModels : Models size f' s' nodes' larges' [])
    (hGrown : Grown f f' s s' larges nodes' larges')
    (hReturned : m ≠ 0 → Returned f f' s s' larges larges' m n) :
    Holding size f' s' nodes' larges' (if m = 0 then cells else Cell.fresh ⟨m, n⟩ :: cells) := by
  split
  · exact h.grow hModels hGrown
  · rename_i hPtr
    exact h.take hModels hGrown (hReturned hPtr) rfl (Cell.fresh_shownBy _ _)

theorem fill_shown (mem : Memory) (m n : Nat) (b : UInt8) :
    (Cell.filled ⟨m, n⟩ b).ShownBy (fill mem m n b) := by
  intro j hIn b' hKnown
  have hSame : b = b' := Option.some.inj hKnown
  show fill mem m n b (m + j) = b'
  unfold fill
  rw [if_pos ⟨Nat.le_add_right m j, Nat.add_lt_add_left hIn m⟩, hSame]

/-- `mp_calloc` clears memory that holds no structure and nothing of the client. -/
theorem Holding.calloc (h : Holding size f s nodes larges cells)
    (hInside : ∀ k, smallRequest s (.calloc n) = some k → ¬ MeetsOvershoot s.node k s.current)
    (hRun : mpCalloc fuel f n = some (m, f')) :
    ∃ s' nodes' larges', MemPool.mpCalloc fuel s n = some (m, s') ∧
      Holding size f' s' nodes' larges'
        (if m = 0 then cells else Cell.filled ⟨m, n⟩ 0 :: cells) := by
  rw [mpCalloc_eq, Option.map_eq_some_iff] at hRun
  obtain ⟨⟨m', g⟩, hAlloc, hClear⟩ := hRun
  obtain ⟨s', nodes', larges', hRun', hModels, hGrown, hReturned⟩ :=
    mpAlloc_grown h.models hInside hAlloc
  have hKept := h.grow hModels hGrown
  unfold clear at hClear
  simp only at hClear
  split at hClear
  · rename_i hNull
    obtain ⟨rfl, rfl⟩ := Prod.mk.inj hClear
    rw [if_pos hNull]
    exact ⟨s', nodes', larges', hRun', hKept⟩
  · rename_i hPtr
    obtain ⟨rfl, rfl⟩ := Prod.mk.inj hClear
    rw [if_neg hPtr]
    have hTaken := h.take hModels hGrown (hReturned hPtr) (d := Cell.fresh ⟨m', n⟩) rfl
      (Cell.fresh_shownBy _ _)
    have hSame : SameOutside g.mem (fill g.mem m' n 0) ⟨m', n⟩ := fill_sameOutside
    have hUnused := (hReturned hPtr).held.unused hModels ((hReturned hPtr).no_header hModels)
    obtain ⟨hHeld, hHeldRest⟩ := List.forall_mem_cons.mp hTaken.held
    obtain ⟨hHeader, hHeaderRest⟩ := List.forall_mem_cons.mp hTaken.no_header
    obtain ⟨hAway, hApart⟩ := List.pairwise_cons.mp hTaken.apart
    refine ⟨s', nodes', larges', hRun', hModels.frame hSame hUnused,
      List.forall_mem_cons.mpr ⟨hHeld, hHeldRest⟩,
      List.forall_mem_cons.mpr ⟨hHeader, hHeaderRest⟩,
      List.pairwise_cons.mpr ⟨hAway, hApart⟩, List.forall_mem_cons.mpr ⟨fill_shown _ _ _ _, ?_⟩⟩
    refine hKept.shows.frame (hSame.changedIn (K := fun k => k = ⟨m', n⟩) rfl) ?_
    rintro d hMem _ rfl
    exact hAway _ (List.mem_map_of_mem hMem)

/-- **One call** of the client. -/
theorem Holding.call {c : Client} {a : Action} (h : Holding size c.toPool s nodes larges c.cells)
    (hInside : StaysInside c.toPool a) (hRun : exec a.2 c.toPool a.1 = some (m, f')) :
    ∃ s' nodes' larges', MemPool.step s a = some s' ∧
      Holding size f' s' nodes' larges' (c.cellsAfter a m) := by
  obtain ⟨op, fuel⟩ := a
  have hClear : ∀ k, smallRequest s op = some k → ¬ MeetsOvershoot s.node k s.current :=
    h.models.stays_inside hInside
  have hStep : ∀ s', MemPool.exec fuel s op = some (m, s') →
      MemPool.step s (op, fuel) = some s' :=
    fun s' hRun' => Option.map_eq_some_iff.mpr ⟨(m, s'), hRun', rfl⟩
  cases op with
  | alloc n =>
      obtain ⟨s', nodes', larges', hRun', hModels, hGrown, hReturned⟩ :=
        mpAlloc_grown h.models hClear hRun
      exact ⟨s', nodes', larges', hStep s' hRun', h.fresh hModels hGrown hReturned⟩
  | calloc n =>
      obtain ⟨s', nodes', larges', hRun', hHolding⟩ := h.calloc hClear hRun
      exact ⟨s', nodes', larges', hStep s' hRun', hHolding⟩
  | memalign n alignment =>
      obtain ⟨s', nodes', larges', hRun', hModels, hGrown, hReturned⟩ :=
        mpMemalign_grown h.models hClear hRun
      exact ⟨s', nodes', larges', hStep s' hRun', h.fresh hModels hGrown hReturned⟩
  | free p =>
      obtain ⟨g, hFree, hEq⟩ := Option.map_eq_some_iff.mp hRun
      obtain ⟨rfl, rfl⟩ := Prod.mk.inj hEq
      obtain ⟨s', hRun', hHolding⟩ := h.free hFree
      exact ⟨s', nodes, larges, hStep s' (Option.map_eq_some_iff.mpr ⟨s', hRun', rfl⟩), hHolding⟩
  | reset =>
      obtain ⟨g, hReset, hEq⟩ := Option.map_eq_some_iff.mp hRun
      obtain ⟨rfl, rfl⟩ := Prod.mk.inj hEq
      obtain ⟨s', hRun', hModels⟩ := mpResetPool_models h.models hReset
      refine ⟨s', nodes, [], hStep s' (Option.map_eq_some_iff.mpr ⟨s', hRun', rfl⟩), hModels,
        ?_, ?_, List.Pairwise.nil, ?_⟩
      · exact fun d hMem => absurd hMem List.not_mem_nil
      · exact fun d hMem => absurd hMem List.not_mem_nil
      · exact fun d hMem => absurd hMem List.not_mem_nil

/-! ## Runs -/

/-- Behind any run: what the client holds, and the same calls on typed
structures without a client. -/
theorem holding_reach {c : Client} (hModels : Models size f₀ s₀ nodes larges [])
    (hReach : Reach Client.step Client.StaysInside (Client.start f₀) c) :
    ∃ s nodes larges, run MemPool.step s₀ c.made.reverse = some s ∧
      Holding size c.toPool s nodes larges c.cells := by
  refine hReach.invariant (P := fun c => ∃ s nodes larges,
    run MemPool.step s₀ c.made.reverse = some s ∧
      Holding size c.toPool s nodes larges c.cells) ?_ ?_
  · refine ⟨s₀, nodes, larges, rfl, hModels, ?_, ?_, List.Pairwise.nil, ?_⟩
    · exact fun d hMem => absurd hMem List.not_mem_nil
    · exact fun d hMem => absurd hMem List.not_mem_nil
    · exact fun d hMem => absurd hMem List.not_mem_nil
  · rintro c a c' ⟨s, nodes, larges, hRun, hHolding⟩ hInside hStep
    cases a with
    | call a =>
        obtain ⟨⟨m, g⟩, hExec, rfl⟩ := Option.map_eq_some_iff.mp hStep
        obtain ⟨s', nodes', larges', hStep', hHolding'⟩ := hHolding.call hInside hExec
        refine ⟨s', nodes', larges', ?_, hHolding'⟩
        show run MemPool.step s₀ (a :: c.made).reverse = some s'
        rw [List.reverse_cons, run_append, hRun, Option.bind_some, run_cons, hStep']
        rfl
    | write i k bs =>
        simp only [Client.step] at hStep
        split at hStep
        · simp at hStep
        · rename_i d hCell
          split at hStep
          · rename_i hRoom
            obtain rfl := Option.some.inj hStep
            exact ⟨s, nodes, larges, hRun, hHolding.write hCell hRoom⟩
          · simp at hStep

/-- **What a client has stored is kept.**  Its allocations do not overlap, from
each of them is read what has been written there last (or zero, behind
`mp_calloc`), and the pool is as it would be after the same calls without any
write. -/
theorem client_data_kept {c : Client} (hSize : size + (sizeofPool + sizeofNode) < 2 ^ 64)
    (hCreate : mpCreatePool (Ram.start mem answer) size = some f₀)
    (hNull : (nodeAt f₀.mem f₀.head).next = 0)
    (hReach : Reach Client.step Client.StaysInside (Client.start f₀) c) :
    CellsApart c.cells ∧
      (∀ d ∈ c.cells, ∀ (k : Nat) (bs : List UInt8), k + bs.length ≤ d.region.len →
        (∀ i < bs.length, d.known (k + i) = bs[i]?) →
          readBytes c.mem (d.region.base + k) bs.length = bs) ∧
      ∃ s₀ s,
        MemPool.mpCreatePool (Heap.start (nodeAt mem) (headerAt mem) answer) size = some s₀ ∧
        run MemPool.step s₀ c.made.reverse = some s ∧
        ∃ nodes larges, Refines c.toPool s nodes larges ∧ Layout s.addr nodes larges ∧
          Chain (nodeNext s.node) 0 s.head nodes ∧
          Chain (headerNext s.header) 0 s.large larges := by
  obtain ⟨s₀, hCreate', -, hModels⟩ := create_models hSize hCreate hNull
  obtain ⟨s, nodes, larges, hRun, hHolding⟩ := holding_reach hModels hReach
  exact ⟨hHolding.apart, fun d hMem k bs => hHolding.shows.read hMem, s₀, s, hCreate', hRun,
    nodes, larges, hHolding.models.refines, hHolding.models.layout, hHolding.models.inv.chain,
    hHolding.models.inv.headers⟩

/-- A call that finds room at once. -/
def Client.FirstHasRoom (c : Client) : ClientAct → Prop
  | .call a => Bytes.FirstHasRoom c.toPool a
  | .write _ _ _ => True

instance (c : Client) (a : ClientAct) : Decidable (c.FirstHasRoom a) := by
  induction a using ClientAct.casesOn <;> unfold Client.FirstHasRoom <;> infer_instance

theorem Client.staysInside_of_room {c : Client} {a : ClientAct} (hRoom : c.FirstHasRoom a) :
    c.StaysInside a := by
  cases a with
  | call a => exact MemPool.staysInside_of_room hRoom
  | write i k bs => trivial

/-- Two allocations written into in turns, and a large one given back between. -/
def storeThree : List ClientAct :=
  [.call (.alloc 512, 3), .call (.calloc 16, 3), .write 1 509 [1, 2, 3], .write 0 0 [4],
    .call (.alloc 5000, 3), .write 0 4999 [5], .call (.free 131072, 3), .write 0 1 [6, 7]]

theorem client_data_kept_mainPool : ∃ c : Client,
    c.cells.map Cell.region = [⟨66112, 16⟩, ⟨65600, 512⟩] ∧ CellsApart c.cells ∧
      ∀ d ∈ c.cells, ∀ (k : Nat) (bs : List UInt8), k + bs.length ≤ d.region.len →
        (∀ i < bs.length, d.known (k + i) = bs[i]?) →
          readBytes c.mem (d.region.base + k) bs.length = bs := by
  have hRun : run (guarded Client.step Client.FirstHasRoom) (Client.start mainPool) storeThree =
      some ((run (guarded Client.step Client.FirstHasRoom) (Client.start mainPool)
        storeThree).get (by decide +kernel)) := by simp
  have hReach := (reach_of_run_guarded hRun).mono fun c a hRoom => c.staysInside_of_room hRoom
  obtain ⟨hApart, hRead, -⟩ :=
    client_data_kept (by decide) mainPool_created (by decide +kernel) hReach
  exact ⟨_, by decide +kernel, hApart, hRead⟩

/-! ## Memory that is not the pool's -/

/-- One call writes into what the pool has from the system behind it. -/
theorem exec_changed {op : Op} (h : Models size f s nodes larges [])
    (hInside : ∀ k, smallRequest s op = some k → ¬ MeetsOvershoot s.node k s.current)
    (hRun : exec fuel f op = some (m, f')) :
    ChangedIn (fun r => r ∈ f'.live.regions) f.mem f'.mem := by
  cases op with
  | alloc n =>
      obtain ⟨s', nodes', larges', -, hModels, hGrown, -⟩ := mpAlloc_grown h hInside hRun
      exact hGrown.changed.within fun r hOne => hModels.structure_within hOne
  | calloc n =>
      simp only [exec] at hRun
      rw [mpCalloc_eq, Option.map_eq_some_iff] at hRun
      obtain ⟨⟨m', g⟩, hAlloc, hClear⟩ := hRun
      obtain ⟨s', nodes', larges', -, hModels, hGrown, hReturned⟩ := mpAlloc_grown h hInside hAlloc
      have hFirst : ChangedIn (fun r => r ∈ g.live.regions) f.mem g.mem :=
        hGrown.changed.within fun r hOne => hModels.structure_within hOne
      unfold clear at hClear
      simp only at hClear
      split at hClear
      · obtain ⟨rfl, rfl⟩ := Prod.mk.inj hClear
        exact hFirst
      · rename_i hPtr
        obtain ⟨rfl, rfl⟩ := Prod.mk.inj hClear
        have hSame : SameOutside g.mem (fill g.mem m' n 0) ⟨m', n⟩ := fill_sameOutside
        refine hFirst.trans ((hSame.changedIn (K := fun k => k = ⟨m', n⟩) rfl).within ?_)
        rintro _ rfl
        exact (hReturned hPtr).within hModels
  | memalign n alignment =>
      obtain ⟨s', nodes', larges', -, hModels, hGrown, -⟩ := mpMemalign_grown h hInside hRun
      exact hGrown.changed.within fun r hOne => hModels.structure_within hOne
  | free p =>
      obtain ⟨g, hFree, hEq⟩ := Option.map_eq_some_iff.mp hRun
      obtain ⟨rfl, rfl⟩ := Prod.mk.inj hEq
      obtain ⟨s', -, hModels, -, hChanged, -⟩ := mpFree_kept h hFree
      exact hChanged.within fun r hOne => hModels.structure_within hOne
  | reset =>
      obtain ⟨g, hReset, hEq⟩ := Option.map_eq_some_iff.mp hRun
      obtain ⟨rfl, rfl⟩ := Prod.mk.inj hEq
      obtain ⟨s', -, hModels, hChanged⟩ := mpResetPool_changed h hReset
      exact hChanged.within fun r hOne => hModels.structure_within hOne

/-- The client may look at all that it holds. -/
theorem Holding.readFrom (h : Holding size f s nodes larges cells) :
    Holding size f s nodes larges (cells.map (Cell.readFrom f.mem)) := by
  have hSame : (cells.map (Cell.readFrom f.mem)).map Cell.region = cells.map Cell.region := by
    rw [List.map_map]
    rfl
  refine ⟨h.models, List.forall_mem_map.mpr h.held, List.forall_mem_map.mpr h.no_header, ?_,
    List.forall_mem_map.mpr fun d _ => d.readFrom_shownBy f.mem⟩
  unfold CellsApart
  rw [hSame]
  exact h.apart

/-- The client behind a call has looked at what it held before. -/
theorem readFrom_mem_cellsAfter {c : Client} {a : Action} {d : Cell} {mem : Memory}
    (hMem : d ∈ c.cells) (hStill : d ∈ c.cellsAfter a m) :
    d.readFrom mem ∈
      ({ c with cells := c.cells.map (Cell.readFrom mem) } : Client).cellsAfter a m := by
  obtain ⟨op, fuel⟩ := a
  have hRead : d.readFrom mem ∈ c.cells.map (Cell.readFrom mem) := List.mem_map_of_mem hMem
  cases op with
  | alloc n | calloc n | memalign n alignment =>
      simp only [Client.cellsAfter]
      split
      · exact hRead
      · exact List.mem_cons_of_mem _ hRead
  | free p =>
      simp only [Client.cellsAfter, Client.cellsFreed] at hStill ⊢
      split
      · exact hRead
      · rename_i hFound
        rw [if_neg hFound] at hStill
        exact List.mem_filter.mpr ⟨hRead, (List.mem_filter.mp hStill).2⟩
  | reset => exact absurd hStill List.not_mem_nil

/-- **Nothing else is written.**  Whatever a client has called and stored before,
the next call changes bytes only in memory that the pool has from the system when
the call returns, and none in an allocation that the client holds then and held
before. -/
theorem written_in_own_memory {c c' : Client} {a : Action}
    (hSize : size + (sizeofPool + sizeofNode) < 2 ^ 64)
    (hCreate : mpCreatePool (Ram.start mem answer) size = some f₀)
    (hNull : (nodeAt f₀.mem f₀.head).next = 0)
    (hReach : Reach Client.step Client.StaysInside (Client.start f₀) c)
    (hInside : StaysInside c.toPool a) (hStep : c.step (.call a) = some c') :
    ChangedIn (fun r => r ∈ c'.live.regions) c.mem c'.mem ∧
      ∀ d ∈ c.cells, d ∈ c'.cells → SameIn c.mem c'.mem d.region := by
  obtain ⟨s₀, -, -, hModels⟩ := create_models hSize hCreate hNull
  obtain ⟨s, nodes, larges, -, hHolding⟩ := holding_reach hModels hReach
  obtain ⟨⟨m, g⟩, hExec, rfl⟩ := Option.map_eq_some_iff.mp hStep
  refine ⟨exec_changed hHolding.models (hHolding.models.stays_inside hInside) hExec, ?_⟩
  intro d hMem hStill
  let known : Client := { c with cells := c.cells.map (Cell.readFrom c.mem) }
  have hKnown : Holding size known.toPool s nodes larges known.cells := hHolding.readFrom
  obtain ⟨s', nodes', larges', -, hAfter⟩ := hKnown.call hInside hExec
  exact Cell.sameIn_of_readFrom (hAfter.shows _ (readFrom_mem_cellsAfter hMem hStill))

/-- The second request of `main`, with the first one written into. -/
theorem written_in_own_memory_mainPool : ∃ c c' : Client,
    c.cells.map Cell.region = [⟨65600, 512⟩] ∧ c.step (.call (.alloc 512, 3)) = some c' ∧
      ChangedIn (fun r => r ∈ c'.live.regions) c.mem c'.mem ∧
      ∀ d ∈ c.cells, d ∈ c'.cells → SameIn c.mem c'.mem d.region := by
  have hRun : run (guarded Client.step Client.FirstHasRoom) (Client.start mainPool)
      [.call (.alloc 512, 3), .write 0 7 [1, 2]] =
      some ((run (guarded Client.step Client.FirstHasRoom) (Client.start mainPool)
        [.call (.alloc 512, 3), .write 0 7 [1, 2]]).get (by decide +kernel)) := by simp
  have hReach := (reach_of_run_guarded hRun).mono fun c a hRoom => c.staysInside_of_room hRoom
  generalize hClient : (run (guarded Client.step Client.FirstHasRoom) (Client.start mainPool)
    [.call (.alloc 512, 3), .write 0 7 [1, 2]]).get _ = c at hReach
  have hCells : c.cells.map Cell.region = [⟨65600, 512⟩] := by
    rw [← hClient]
    decide +kernel
  have hRoom : FirstHasRoom c.toPool (.alloc 512, 3) := by
    rw [← hClient]
    decide +kernel
  have hSome : (c.step (.call (.alloc 512, 3))).isSome = true := by
    rw [← hClient]
    decide +kernel
  obtain ⟨c', hStep⟩ := Option.isSome_iff_exists.mp hSome
  exact ⟨c, c', hCells, hStep, written_in_own_memory (by decide) mainPool_created
    (by decide +kernel) hReach (staysInside_of_room hRoom) hStep⟩

end Bytes
end MemPool
end LinuxCppLearn
