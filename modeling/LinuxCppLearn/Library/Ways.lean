import Mathlib.Combinatorics.Pigeonhole
import Mathlib.Data.List.Lex
import Mathlib.Data.List.Pairwise
import LinuxCppLearn.Library.WalkOrder

/-!
# Ways by the places of their edges

A way from a point is the list of places, in the lists `adj`, of the edges taken
one after the other.  Depth-first order is the lexicographic order of these
lists, so what a search meets first can be said without one.

* `follow` — the end of a way.
* `ComesBack` — a way ends in a point it has passed; `exists_comesBack` says that
  a long way has a beginning that does.
* `ways` — the ways in the order of `walks`; `walkAt` is the walk along a way.
* `firstMeeting_walks_eq_none`, `exists_way_of_firstMeeting` — the first meeting
  in terms of ways.
-/

namespace WalkOrder

open Relation

variable {V : Type*} {adj : V → List V} {v u : V} {front : List V} {ks ls : List Nat}

/-- Where one gets from `v` over the edges at these places. -/
def follow (adj : V → List V) : V → List Nat → Option V
  | v, [] => some v
  | v, k :: ks => (adj v)[k]?.bind fun j => follow adj j ks

/-- One way comes before another in the order of the lists. -/
abbrev Before (ls ks : List Nat) : Prop :=
  List.Lex (· < ·) ls ks

/-- The way from `v` ends in a point it has passed. -/
def ComesBack (adj : V → List V) (v : V) (ks : List Nat) : Prop :=
  ∃ m < ks.length, ∃ u, follow adj v (ks.take m) = some u ∧ follow adj v ks = some u

/-! ## The order -/

theorem Before.trans {ms : List Nat} (h : Before ls ks) (h' : Before ks ms) : Before ls ms :=
  List.lex_trans Nat.lt_trans h h'

theorem Before.irrefl (ks : List Nat) : ¬ Before ks ks :=
  fun h => asymm_of (List.Lex (· < ·)) h h

/-- A beginning of a way comes before it. -/
theorem before_take {m : Nat} (h : m < ks.length) : Before (ks.take m) ks := by
  induction ks generalizing m with
  | nil => simp at h
  | cons k ks ih =>
      cases m with
      | zero => exact .nil
      | succ m =>
          rw [List.take_succ_cons]
          exact .cons (ih (Nat.lt_of_succ_lt_succ h))

theorem take_eq_or_before (ks : List Nat) (m : Nat) : ks.take m = ks ∨ Before (ks.take m) ks := by
  rcases Nat.lt_or_ge m ks.length with hLt | hGe
  · exact .inr (before_take hLt)
  · exact .inl (List.take_of_length_le hGe)

/-! ## The end of a way -/

theorem follow_append : follow adj v (ks ++ ls) = (follow adj v ks).bind (follow adj · ls) := by
  induction ks generalizing v with
  | nil => rfl
  | cons k ks ih =>
      rw [List.cons_append, follow, follow, Option.bind_assoc]
      exact Option.bind_congr fun j _ => ih

theorem exists_follow_take (h : follow adj v ks = some u) (m : Nat) :
    ∃ x, follow adj v (ks.take m) = some x ∧ follow adj x (ks.drop m) = some u := by
  rw [← List.take_append_drop m ks, follow_append] at h
  exact Option.bind_eq_some_iff.mp h

theorem follow_mem {D : V → Prop} (hAdj : ∀ v j, D v → j ∈ adj v → D j) (hV : D v)
    (h : follow adj v ks = some u) : D u := by
  induction ks generalizing v with
  | nil =>
      obtain rfl := Option.some.inj h
      exact hV
  | cons k ks ih =>
      obtain ⟨j, hStep, hRest⟩ := Option.bind_eq_some_iff.mp h
      exact ih (hAdj v j hV (List.mem_of_getElem? hStep)) hRest

theorem transGen_of_follow {R : V → V → Prop} {D : V → Prop}
    (hAdj : ∀ v j, D v → j ∈ adj v → R v j ∧ D j) (hV : D v) (hSome : ks ≠ [])
    (h : follow adj v ks = some u) : TransGen R v u := by
  induction ks generalizing v with
  | nil => exact absurd rfl hSome
  | cons k ks ih =>
      obtain ⟨j, hStep, hRest⟩ := Option.bind_eq_some_iff.mp h
      obtain ⟨hEdge, hJ⟩ := hAdj v j hV (List.mem_of_getElem? hStep)
      cases ks with
      | nil =>
          obtain rfl := Option.some.inj hRest
          exact .single hEdge
      | cons k' ks => exact .head hEdge (ih hJ (List.cons_ne_nil k' ks) hRest)

/-- A way that comes back goes around a circle. -/
theorem ComesBack.transGen {R : V → V → Prop} {D : V → Prop}
    (hAdj : ∀ v j, D v → j ∈ adj v → R v j ∧ D j) (hV : D v) (h : ComesBack adj v ks) :
    ∃ u, D u ∧ TransGen R u u := by
  obtain ⟨m, hLt, u, hTake, hEnd⟩ := h
  have hU : D u := follow_mem (fun v j hD hMem => (hAdj v j hD hMem).2) hV hTake
  obtain ⟨x, hTake', hDrop⟩ := exists_follow_take hEnd m
  obtain rfl : u = x := Option.some.inj (hTake.symm.trans hTake')
  refine ⟨u, hU, transGen_of_follow hAdj hU ?_ hDrop⟩
  rw [ne_eq, List.drop_eq_nil_iff]
  omega

/-- **A way longer than the points are many** has a beginning that comes back. -/
theorem exists_comesBack {s : Finset V} (hAdj : ∀ v j, v ∈ s → j ∈ adj v → j ∈ s) (hV : v ∈ s)
    (h : follow adj v ks = some u) (hLong : s.card ≤ ks.length) :
    ∃ m ≤ s.card, ComesBack adj v (ks.take m) := by
  have hPoint : ∀ m, ∃ x ∈ s, follow adj v (ks.take m) = some x := fun m => by
    obtain ⟨x, hTake, -⟩ := exists_follow_take h m
    exact ⟨x, follow_mem (D := fun x => x ∈ s) hAdj hV hTake, hTake⟩
  choose point hMem hFollow using hPoint
  obtain ⟨i, hI, j, hJ, hNe, hSame⟩ := Finset.exists_ne_map_eq_of_card_lt_of_maps_to
    (s := Finset.range (s.card + 1)) (t := s) (by simp) fun m _ => hMem m
  rw [Finset.mem_range] at hI hJ
  -- of the two moments the later one has come back to the earlier one's point
  have hBack : ∀ i j, i < j → j < s.card + 1 → point i = point j →
      ComesBack adj v (ks.take j) := by
    intro i j hLt hJ hSame
    refine ⟨i, by rw [List.length_take]; omega, point i, ?_, hSame ▸ hFollow j⟩
    rw [List.take_take, Nat.min_eq_left (Nat.le_of_lt hLt)]
    exact hFollow i
  rcases Nat.lt_or_gt_of_ne hNe with hLt | hGt
  · exact ⟨j, by omega, hBack i j hLt hJ hSame⟩
  · exact ⟨i, by omega, hBack j i hGt hI hSame.symm⟩

/-! ## The ways in the order of the walks -/

/-- The ways of fewer than `n` edges. -/
def ways (adj : V → List V) : Nat → V → List (List Nat)
  | 0, _ => []
  | n + 1, v => [] :: (adj v).zipIdx.flatMap fun step => (ways adj n step.1).map (step.2 :: ·)

/-- The walk along a way, behind `front`. -/
def walkAt (adj : V → List V) : List V → V → List Nat → Option (Walk V)
  | front, v, [] => some ⟨front, v⟩
  | front, v, k :: ks => (adj v)[k]?.bind fun j => walkAt adj (front ++ [v]) j ks

theorem walks_map_some (adj : V → List V) (n : Nat) :
    ∀ (front : List V) (v : V),
      (walks adj n front v).map some = (ways adj n v).map (walkAt adj front v) := by
  induction n with
  | zero =>
      intro front v
      rfl
  | succ n ih =>
      intro front v
      rw [walks, ways, List.map_cons, List.map_cons, List.map_flatMap, List.map_flatMap]
      congr 1
      have hFst : adj v = (adj v).zipIdx.map Prod.fst := (List.zipIdx_map_fst 0 (adj v)).symm
      conv => lhs; rw [hFst]
      rw [List.flatMap_map]
      refine List.flatMap_congr fun step hMem => ?_
      rw [ih, List.map_map]
      refine List.map_congr_left fun ks _ => ?_
      show _ = (adj v)[step.2]?.bind _
      rw [List.mem_zipIdx_iff_getElem?.mp hMem]
      rfl

theorem mem_ways {n : Nat} : ks ∈ ways adj n v ↔ ks.length < n ∧ ∃ u, follow adj v ks = some u := by
  induction n generalizing v ks with
  | zero => simp [ways]
  | succ n ih =>
      cases ks with
      | nil => simp [ways, follow]
      | cons k ks =>
          simp only [ways, List.mem_cons, reduceCtorEq, false_or, List.mem_flatMap, List.mem_map,
            List.cons.injEq, List.length_cons, follow]
          constructor
          · rintro ⟨⟨j, k'⟩, hStep, ks', hWay, rfl, rfl⟩
            obtain ⟨hLength, u, hEnd⟩ := ih.mp hWay
            refine ⟨by omega, u, ?_⟩
            rw [List.mem_zipIdx_iff_getElem?.mp hStep]
            exact hEnd
          · rintro ⟨hLength, u, hEnd⟩
            obtain ⟨j, hStep, hRest⟩ := Option.bind_eq_some_iff.mp hEnd
            exact ⟨(j, k), List.mem_zipIdx_iff_getElem?.mpr hStep, ks,
              ih.mpr ⟨by omega, u, hRest⟩, rfl, rfl⟩

theorem ways_sorted (adj : V → List V) (n : Nat) : ∀ v, (ways adj n v).Pairwise Before := by
  induction n with
  | zero =>
      intro v
      exact .nil
  | succ n ih =>
      intro v
      rw [ways, List.pairwise_cons, List.pairwise_flatMap]
      refine ⟨fun ks hMem => ?_, fun step _ => ?_, ?_⟩
      · obtain ⟨step, -, hMem⟩ := List.mem_flatMap.mp hMem
        obtain ⟨ks', -, rfl⟩ := List.mem_map.mp hMem
        exact .nil
      · rw [List.pairwise_map]
        exact (ih step.1).imp fun h => .cons h
      -- the edges are taken in the order of their places
      · have hPlaces : ((adj v).zipIdx.map Prod.snd).Pairwise (· < ·) := by
          rw [List.zipIdx_map_snd]
          exact List.pairwise_lt_range'
        refine (List.pairwise_map.mp hPlaces).imp fun {step step'} hLt ks hMem ls hMem' => ?_
        obtain ⟨ks', -, rfl⟩ := List.mem_map.mp hMem
        obtain ⟨ls', -, rfl⟩ := List.mem_map.mp hMem'
        exact .rel hLt

theorem walkAt_last : (walkAt adj front v ks).map Walk.last = follow adj v ks := by
  induction ks generalizing front v with
  | nil => rfl
  | cons k ks ih =>
      rw [walkAt, follow, Option.map_bind]
      exact Option.bind_congr fun j _ => ih

/-- The walk along a way ends where the way leads. -/
theorem follow_of_walkAt {w : Walk V} (h : walkAt adj front v ks = some w) :
    follow adj v ks = some w.last := by
  have hLast := congrArg (Option.map Walk.last) h
  rwa [walkAt_last] at hLast

/-- In front of the end of a walk are `front` and the points it has passed. -/
theorem mem_front_walkAt {w : Walk V} (h : walkAt adj front v ks = some w) :
    u ∈ w.front ↔ u ∈ front ∨ ∃ m < ks.length, follow adj v (ks.take m) = some u := by
  induction ks generalizing front v with
  | nil =>
      obtain rfl := Option.some.inj h
      simp
  | cons k ks ih =>
      obtain ⟨j, hStep, hRest⟩ := Option.bind_eq_some_iff.mp h
      rw [ih hRest, List.mem_append, List.mem_singleton, or_assoc]
      apply or_congr_right
      constructor
      · rintro (rfl | ⟨m, hLt, hEnd⟩)
        · exact ⟨0, by simp, rfl⟩
        · refine ⟨m + 1, by simpa using hLt, ?_⟩
          rw [List.take_succ_cons, follow, hStep]
          exact hEnd
      · rintro ⟨m, hLt, hEnd⟩
        cases m with
        | zero => exact .inl (Option.some.inj hEnd).symm
        | succ m =>
            rw [List.take_succ_cons, follow, hStep] at hEnd
            exact .inr ⟨m, by simpa using hLt, hEnd⟩

theorem closes_walkAt_iff {w : Walk V} (h : walkAt adj [] v ks = some w) :
    w.Closes ↔ ComesBack adj v ks := by
  have hLast : follow adj v ks = some w.last := follow_of_walkAt h
  rw [Walk.Closes, mem_front_walkAt h, ComesBack]
  simp [hLast]

/-! ## The first meeting -/

variable [DecidableEq V]

theorem firstMeeting_split {seen : Finset V} {ws : List (Walk V)} {w : Walk V}
    (h : firstMeeting seen ws = some w) : ∃ pre post, ws = pre ++ w :: post ∧
      firstMeeting seen pre = none ∧ (w.last ∈ seen ∨ ∃ x ∈ pre, x.last = w.last) := by
  induction ws generalizing seen with
  | nil => simp [firstMeeting] at h
  | cons x ws ih =>
      rw [firstMeeting] at h
      split at h
      · rename_i hSeen
        obtain rfl := Option.some.inj h
        exact ⟨[], ws, rfl, rfl, .inl hSeen⟩
      · rename_i hNew
        obtain ⟨pre, post, rfl, hNone, hLast⟩ := ih h
        refine ⟨x :: pre, post, rfl, by rw [firstMeeting, if_neg hNew, hNone], ?_⟩
        rcases hLast with hSeen | ⟨y, hMem, hSame⟩
        · rcases Finset.mem_insert.mp hSeen with hSame | hSeen
          · exact .inr ⟨x, List.mem_cons_self, hSame.symm⟩
          · exact .inl hSeen
        · exact .inr ⟨y, List.mem_cons_of_mem x hMem, hSame⟩

/-- No way in a list ends in a marked point or where an earlier one has ended. -/
def Quiet (adj : V → List V) (seen : Finset V) (v : V) (kss : List (List Nat)) : Prop :=
  ∀ ks ∈ kss, ∀ u, follow adj v ks = some u →
    u ∉ seen ∧ ∀ ls ∈ kss, Before ls ks → follow adj v ls ≠ some u

theorem firstMeeting_eq_none_iff_quiet {seen : Finset V} {ws : List (Walk V)}
    {kss : List (List Nat)} (hWs : ws.map some = kss.map (walkAt adj front v))
    (hSorted : kss.Pairwise Before) : firstMeeting seen ws = none ↔ Quiet adj seen v kss := by
  have hEnds : (ws.map Walk.last).map some = kss.map (follow adj v) := by
    have hLasts := congrArg (List.map (Option.map Walk.last)) hWs
    rw [List.map_map, List.map_map] at hLasts
    rw [List.map_map]
    exact hLasts.trans (List.map_congr_left fun ks _ => walkAt_last)
  rw [firstMeeting_eq_none]
  constructor
  · rintro ⟨hNodup, hFree⟩ ks hMem u hEnd
    constructor
    · have hU : some u ∈ (ws.map Walk.last).map some := by
        rw [hEnds, ← hEnd]
        exact List.mem_map_of_mem hMem
      obtain ⟨x, hX, hSame⟩ := List.mem_map.mp hU
      obtain ⟨w, hW, rfl⟩ := List.mem_map.mp hX
      exact Option.some.inj hSame ▸ hFree w hW
    · intro ls hMem' hBefore hEnd'
      have hDistinct := hNodup.map (Option.some_injective V)
      rw [hEnds] at hDistinct
      have hSame := List.inj_on_of_nodup_map hDistinct hMem' hMem (hEnd'.trans hEnd.symm)
      exact Before.irrefl ks (hSame ▸ hBefore)
  · intro hQuiet
    constructor
    · apply List.Nodup.of_map some
      rw [hEnds, List.Nodup, List.pairwise_map]
      refine hSorted.imp_of_mem fun {ls ks} hL hK hBefore hSame => ?_
      have hSome : follow adj v ks ∈ (ws.map Walk.last).map some :=
        hEnds ▸ List.mem_map_of_mem hK
      obtain ⟨u, -, hEnd⟩ := List.mem_map.mp hSome
      exact (hQuiet ks hK u hEnd.symm).2 ls hL hBefore (hSame.trans hEnd.symm)
    · intro w hMem
      have hSome : some w.last ∈ kss.map (follow adj v) := by
        rw [← hEnds]
        exact List.mem_map_of_mem (List.mem_map_of_mem hMem)
      obtain ⟨ks, hK, hEnd⟩ := List.mem_map.mp hSome
      exact (hQuiet ks hK w.last hEnd).1

theorem firstMeeting_walks_eq_none {seen : Finset V} {n : Nat} :
    firstMeeting seen (walks adj n front v) = none ↔ Quiet adj seen v (ways adj n v) :=
  firstMeeting_eq_none_iff_quiet (walks_map_some adj n front v) (ways_sorted adj n v)

/-- The first meeting is on the first way that meets. -/
theorem exists_way_of_firstMeeting {seen : Finset V} {n : Nat} {w : Walk V}
    (h : firstMeeting seen (walks adj n front v) = some w) :
    ∃ ks ∈ ways adj n v, walkAt adj front v ks = some w ∧
      (w.last ∈ seen ∨ ∃ ls, Before ls ks ∧ follow adj v ls = some w.last) ∧
      Quiet adj seen v ((ways adj n v).filter (Before · ks)) := by
  obtain ⟨pre, post, hWalks, hNone, hMeets⟩ := firstMeeting_split h
  have hMap := walks_map_some adj n front v
  have hSorted := ways_sorted adj n v
  rw [hWalks, List.map_append, List.map_cons] at hMap
  obtain ⟨pre', rest, hWays, hPre, hRest⟩ := List.map_eq_append_iff.mp hMap.symm
  obtain ⟨ks, post', rfl, hKs, -⟩ := List.map_eq_cons_iff.mp hRest
  rw [hWays] at hSorted ⊢
  obtain ⟨hSortedPre, hTail, hCross⟩ := List.pairwise_append.mp hSorted
  rw [List.pairwise_cons] at hTail
  have hFilter : (pre' ++ ks :: post').filter (Before · ks) = pre' := by
    rw [List.filter_append, List.filter_eq_self.mpr, List.filter_eq_nil_iff.mpr, List.append_nil]
    · intro ls hMem hBefore
      rcases List.mem_cons.mp hMem with rfl | hMem
      · exact Before.irrefl ls (of_decide_eq_true hBefore)
      · exact Before.irrefl ls ((of_decide_eq_true hBefore).trans (hTail.1 ls hMem))
    · intro ls hMem
      exact decide_eq_true (hCross ls hMem ks List.mem_cons_self)
  refine ⟨ks, by simp, hKs, ?_, ?_⟩
  · refine hMeets.imp id fun ⟨x, hMem, hSame⟩ => ?_
    have hX : some x ∈ pre'.map (walkAt adj front v) := hPre ▸ List.mem_map_of_mem hMem
    obtain ⟨ls, hL, hWalk⟩ := List.mem_map.mp hX
    refine ⟨ls, hCross ls hL ks List.mem_cons_self, ?_⟩
    rw [follow_of_walkAt hWalk, hSame]
  · rw [hFilter]
    exact (firstMeeting_eq_none_iff_quiet hPre.symm hSortedPre).mp hNone

end WalkOrder
