import Mathlib.Data.Finset.Dedup
import Mathlib.Data.Finset.Lattice.Lemmas
import Mathlib.Data.List.Basic
import Mathlib.Logic.Relation
import Mathlib.Tactic.Common

/-!
# Walks in depth-first order

`adj` gives the points one may go on to from a point, in an order.  A walk is
kept as its last point and the points in front of it.

* `walks` — the walks that prolong a given one, in the order of a depth-first
  search: a walk comes before its prolongations, and these follow the order of
  `adj`.
* `firstMeeting` — the first walk in a list that ends in a marked point or
  where an earlier one has ended; `firstMeeting_append` cuts the list.
* `firstMeeting_eq_none` — when there is none.
* `transGen_of_mem_walks` — every point of a walk leads to its end; `D` stands
  for the points on which the steps are taken.
-/

namespace WalkOrder

open Relation

structure Walk (V : Type*) where
  front : List V
  last : V
deriving DecidableEq

variable {V : Type*}

def Walk.points (w : Walk V) : List V :=
  w.front ++ [w.last]

/-- The walk comes back to one of its points. -/
def Walk.Closes (w : Walk V) : Prop :=
  w.last ∈ w.front

instance [DecidableEq V] (w : Walk V) : Decidable w.Closes :=
  inferInstanceAs (Decidable (w.last ∈ w.front))

/-- The walks along `front`, `v` and then at most `n - 1` points more. -/
def walks (adj : V → List V) : Nat → List V → V → List (Walk V)
  | 0, _, _ => []
  | n + 1, front, v => ⟨front, v⟩ :: (adj v).flatMap (walks adj n (front ++ [v]))

theorem transGen_of_mem_walks {adj : V → List V} {R : V → V → Prop} {D : V → Prop}
    (hAdj : ∀ v j, D v → j ∈ adj v → R v j ∧ D j) (n : Nat) :
    ∀ (front : List V) (v : V), D v → (∀ u ∈ front, D u ∧ TransGen R u v) →
      ∀ w ∈ walks adj n front v, D w.last ∧ ∀ u ∈ w.front, D u ∧ TransGen R u w.last := by
  induction n with
  | zero =>
      intro front v _ _ w hMem
      simp [walks] at hMem
  | succ n ih =>
      intro front v hV hFront w hMem
      rw [walks, List.mem_cons, List.mem_flatMap] at hMem
      rcases hMem with rfl | ⟨j, hStep, hMem⟩
      · exact ⟨hV, hFront⟩
      · obtain ⟨hR, hJ⟩ := hAdj v j hV hStep
        refine ih (front ++ [v]) j hJ ?_ w hMem
        intro u hU
        rcases List.mem_append.mp hU with hOld | hLast
        · exact ⟨(hFront u hOld).1, (hFront u hOld).2.tail hR⟩
        · rw [List.mem_singleton.mp hLast]
          exact ⟨hV, TransGen.single hR⟩

theorem front_subset_of_mem_walks {adj : V → List V} (n : Nat) :
    ∀ (front : List V) (v : V), ∀ w ∈ walks adj n front v, front ⊆ w.front := by
  induction n with
  | zero =>
      intro front v w hMem
      simp [walks] at hMem
  | succ n ih =>
      intro front v w hMem
      rw [walks, List.mem_cons, List.mem_flatMap] at hMem
      rcases hMem with rfl | ⟨j, -, hMem⟩
      · exact List.Subset.refl front
      · exact List.Subset.trans (List.subset_append_left front [v])
          (ih (front ++ [v]) j w hMem)

/-- Only the steps that can be come to count. -/
theorem walks_congr {adj adj' : V → List V} {D : V → Prop} (hSame : ∀ v, D v → adj' v = adj v)
    (hAdj : ∀ v j, D v → j ∈ adj v → D j) (n : Nat) :
    ∀ (front : List V) (v : V), D v → walks adj' n front v = walks adj n front v := by
  induction n with
  | zero =>
      intro front v _
      rfl
  | succ n ih =>
      intro front v hV
      rw [walks, walks, hSame v hV]
      congr 1
      apply List.flatMap_congr
      intro j hMem
      exact ih (front ++ [v]) j (hAdj v j hV hMem)

variable [DecidableEq V]

def firstMeeting (seen : Finset V) : List (Walk V) → Option (Walk V)
  | [] => none
  | w :: ws => if w.last ∈ seen then some w else firstMeeting (insert w.last seen) ws

/-- The points in which the walks end. -/
def lasts (ws : List (Walk V)) : Finset V :=
  (ws.map Walk.last).toFinset

@[simp] theorem lasts_nil : lasts ([] : List (Walk V)) = ∅ := rfl

@[simp] theorem lasts_cons {w : Walk V} {ws : List (Walk V)} :
    lasts (w :: ws) = insert w.last (lasts ws) := by
  simp [lasts]

@[simp] theorem lasts_append {ws ws' : List (Walk V)} :
    lasts (ws ++ ws') = lasts ws ∪ lasts ws' := by
  rw [lasts, List.map_append, List.toFinset_append, lasts, lasts]

theorem firstMeeting_append {seen : Finset V} {ws ws' : List (Walk V)} :
    firstMeeting seen (ws ++ ws') =
      (firstMeeting seen ws).or (firstMeeting (seen ∪ lasts ws) ws') := by
  induction ws generalizing seen with
  | nil => simp [firstMeeting]
  | cons w ws ih =>
      rw [List.cons_append, firstMeeting, firstMeeting]
      by_cases hMet : w.last ∈ seen
      · rw [if_pos hMet, if_pos hMet, Option.some_or]
      · rw [if_neg hMet, if_neg hMet, ih, lasts_cons, Finset.insert_union_comm]

theorem firstMeeting_eq_none {seen : Finset V} {ws : List (Walk V)} :
    firstMeeting seen ws = none ↔
      (ws.map Walk.last).Nodup ∧ ∀ w ∈ ws, w.last ∉ seen := by
  induction ws generalizing seen with
  | nil => simp [firstMeeting]
  | cons w ws ih =>
      rw [firstMeeting, List.map_cons, List.nodup_cons]
      by_cases hMet : w.last ∈ seen
      · rw [if_pos hMet]
        constructor
        · intro hNone
          simp at hNone
        · rintro ⟨-, hFree⟩
          exact absurd hMet (hFree w List.mem_cons_self)
      · rw [if_neg hMet, ih]
        constructor
        · rintro ⟨hNodup, hFree⟩
          refine ⟨⟨fun hMem => ?_, hNodup⟩, fun u hMem => ?_⟩
          · obtain ⟨u, hU, hSame⟩ := List.mem_map.mp hMem
            exact hFree u hU (by rw [hSame]; exact Finset.mem_insert_self _ _)
          · rcases List.mem_cons.mp hMem with rfl | hMem
            · exact hMet
            · exact fun hSeen => hFree u hMem (Finset.mem_insert_of_mem hSeen)
        · rintro ⟨⟨hNew, hNodup⟩, hFree⟩
          refine ⟨hNodup, fun u hMem hSeen => ?_⟩
          rcases Finset.mem_insert.mp hSeen with hSame | hSeen
          · exact hNew (List.mem_map.mpr ⟨u, hMem, hSame⟩)
          · exact hFree u (List.mem_cons_of_mem w hMem) hSeen

theorem mem_of_firstMeeting {seen : Finset V} {ws : List (Walk V)} {w : Walk V}
    (h : firstMeeting seen ws = some w) : w ∈ ws := by
  induction ws generalizing seen with
  | nil => simp [firstMeeting] at h
  | cons u ws ih =>
      rw [firstMeeting] at h
      split at h
      · rw [Option.some.inj h]
        exact List.mem_cons_self
      · exact List.mem_cons_of_mem u (ih h)

end WalkOrder
