import Mathlib.Data.Finset.Card
import Mathlib.Dynamics.PeriodicPts.Defs
import Mathlib.Logic.Relation

/-!
# Circles

A relation in which everybody has a successor among finitely many runs in a
circle, and a ring that is walked around is walked through everywhere.

* `exists_circle` — a function on a finite set without a fixed point there has a
  circle of at least two different members.
* `behind_circle` — where each of finitely many has a predecessor among them, each is
  on a circle or behind one.
* `ring_all`, `ring_closed` — in a ring of `n` places, some of whose links are
  open, there is a way around exactly if all the links are open.
-/

namespace Circles

open Function Relation

/-- **Backwards into a circle**: among the predecessors of `a` there is one twice. -/
theorem behind_circle {α : Type*} {R : α → α → Prop} {members : Finset α} {a : α}
    (hBefore : ∀ a ∈ members, ∃ b ∈ members, R b a) (hMem : a ∈ members) :
    ∃ b, TransGen R b b ∧ ReflTransGen R b a := by
  classical
  choose! f hInto hLink using hBefore
  have hAll : ∀ i, f^[i] a ∈ members := by
    intro i
    induction i with
    | zero => exact hMem
    | succ i ih =>
        rw [iterate_succ_apply']
        exact hInto _ ih
  have hBack : ∀ i k, ReflTransGen R (f^[k + i] a) (f^[i] a) := by
    intro i k
    induction k with
    | zero => rw [Nat.zero_add]
    | succ k ih =>
        rw [Nat.succ_add, iterate_succ_apply']
        exact ReflTransGen.head (hLink _ (hAll _)) ih
  have hCircle : ∀ i j, i < j → f^[i] a = f^[j] a → TransGen R (f^[i] a) (f^[i] a) := by
    intro i j hLt hEq
    obtain ⟨k, rfl⟩ := Nat.exists_eq_add_of_lt hLt
    have hStep : R (f^[i + k + 1] a) (f^[i + k] a) := by
      rw [iterate_succ_apply']
      exact hLink _ (hAll _)
    rw [← hEq, Nat.add_comm i k] at hStep
    exact TransGen.head' hStep (hBack i k)
  obtain ⟨i, -, j, -, hNe, hSame⟩ :=
    Finset.exists_ne_map_eq_of_card_lt_of_maps_to (s := Finset.range (members.card + 1))
      (t := members) (f := fun i => f^[i] a) (by simp) fun i _ => hAll i
  rcases Nat.lt_or_gt_of_ne hNe with hLt | hGt
  · exact ⟨f^[i] a, hCircle i j hLt hSame, hBack 0 i⟩
  · exact ⟨f^[j] a, hCircle j i hGt hSame.symm, hBack 0 j⟩

/-- **A circle** of members `x 0 → x 1 → … → x 0`. -/
theorem exists_circle {α : Type*} {members : Finset α} {f : α → α} (hSome : members.Nonempty)
    (hInto : ∀ a ∈ members, f a ∈ members) (hMoves : ∀ a ∈ members, f a ≠ a) :
    ∃ (n : Nat) (x : Nat → α), 2 ≤ n ∧ (∀ i < n, x i ∈ members) ∧
      (∀ i < n, ∀ j < n, x i = x j → i = j) ∧ ∀ i < n, f (x i) = x ((i + 1) % n) := by
  classical
  obtain ⟨a, hMem⟩ := hSome
  have hAll : ∀ i, f^[i] a ∈ members := by
    intro i
    induction i with
    | zero => exact hMem
    | succ i ih =>
        rw [iterate_succ_apply']
        exact hInto _ ih
  -- two of the first values agree, so the orbit ends in a period
  obtain ⟨i, -, j, -, hNe, hSame⟩ :=
    Finset.exists_ne_map_eq_of_card_lt_of_maps_to (s := Finset.range (members.card + 1))
      (t := members) (f := fun i => f^[i] a) (by simp) fun i _ => hAll i
  have hPeriodic : ∀ i j, i < j → f^[i] a = f^[j] a → f^[i] a ∈ periodicPts f := by
    intro i j hLt hEq
    refine mk_mem_periodicPts (show 0 < j - i by omega) ?_
    show f^[j - i] (f^[i] a) = f^[i] a
    rw [← iterate_add_apply, Nat.sub_add_cancel (by omega)]
    exact hEq.symm
  obtain ⟨k, hBack⟩ : ∃ k, f^[k] a ∈ periodicPts f := by
    rcases Nat.lt_or_gt_of_ne hNe with hLt | hGt
    · exact ⟨i, hPeriodic i j hLt hSame⟩
    · exact ⟨j, hPeriodic j i hGt hSame.symm⟩
  have hPos : 0 < minimalPeriod f (f^[k] a) := minimalPeriod_pos_of_mem_periodicPts hBack
  have hFixed : minimalPeriod f (f^[k] a) ≠ 1 := by
    rw [Ne, minimalPeriod_eq_one_iff_isFixedPt]
    exact hMoves _ (hAll k)
  refine ⟨minimalPeriod f (f^[k] a), fun i => f^[i] (f^[k] a), by omega, ?_, ?_, ?_⟩
  · intro i _
    show f^[i] (f^[k] a) ∈ members
    rw [← iterate_add_apply]
    exact hAll (i + k)
  · intro i hi j hj hEq
    exact iterate_injOn_Iio_minimalPeriod hi hj hEq
  · intro i _
    show f (f^[i] (f^[k] a)) = f^[(i + 1) % minimalPeriod f (f^[k] a)] (f^[k] a)
    rw [iterate_mod_minimalPeriod_eq, iterate_succ_apply']

section Ring

variable {n : Nat} {isOpen : Nat → Prop}

/-- One link of a ring of `n` places. -/
def Link (n : Nat) (isOpen : Nat → Prop) (i j : Nat) : Prop :=
  i < n ∧ isOpen i ∧ j = (i + 1) % n

/-- Where a walk through links ends, and what it has passed. -/
theorem link_walk {i j : Nat} (h : TransGen (Link n isOpen) i j) :
    ∃ k, 0 < k ∧ j = (i + k) % n ∧ ∀ d < k, isOpen ((i + d) % n) := by
  induction h with
  | single hLink =>
      obtain ⟨hLt, hOpen, rfl⟩ := hLink
      refine ⟨1, Nat.one_pos, rfl, fun d hd => ?_⟩
      obtain rfl : d = 0 := by omega
      rwa [Nat.add_zero, Nat.mod_eq_of_lt hLt]
  | tail _ hLink ih =>
      obtain ⟨k, hPos, rfl, hPassed⟩ := ih
      obtain ⟨-, hOpen, rfl⟩ := hLink
      refine ⟨k + 1, by omega, by rw [Nat.mod_add_mod, Nat.add_assoc], fun d hd => ?_⟩
      by_cases hLast : d = k
      · rw [hLast]
        exact hOpen
      · exact hPassed d (by omega)

/-- **Once around** goes through every place. -/
theorem ring_all {i : Nat} (h : TransGen (Link n isOpen) i i) : ∀ j < n, isOpen j := by
  have hLt : i < n := by
    obtain ⟨_, hLink, -⟩ := TransGen.head'_iff.mp h
    exact hLink.1
  obtain ⟨k, hPos, hBack, hPassed⟩ := link_walk h
  have hLong : n ≤ k := by
    by_contra hShort
    rcases Nat.lt_or_ge (i + k) n with hIn | hOver
    · rw [Nat.mod_eq_of_lt hIn] at hBack
      omega
    · rw [Nat.mod_eq_sub_mod hOver, Nat.mod_eq_of_lt (by omega)] at hBack
      omega
  intro j hj
  rcases Nat.lt_or_ge j i with hBehind | hAhead
  · have hOpen := hPassed (n + j - i) (by omega)
    rwa [show i + (n + j - i) = j + n by omega, Nat.add_mod_right, Nat.mod_eq_of_lt hj] at hOpen
  · have hOpen := hPassed (j - i) (by omega)
    rwa [Nat.add_sub_cancel' hAhead, Nat.mod_eq_of_lt hj] at hOpen

/-- With all links open there is a way around. -/
theorem ring_closed (hPos : 0 < n) (hOpen : ∀ i < n, isOpen i) :
    TransGen (Link n isOpen) 0 0 := by
  -- induction on the distance from the first place
  have hChain : ∀ k < n, TransGen (Link n isOpen) 0 ((k + 1) % n) := by
    intro k
    induction k with
    | zero =>
        intro hk
        exact .single ⟨hk, hOpen 0 hk, rfl⟩
    | succ k ih =>
        intro hk
        have hBefore := ih (by omega)
        rw [Nat.mod_eq_of_lt hk] at hBefore
        exact hBefore.tail ⟨hk, hOpen _ hk, rfl⟩
  have hBack := hChain (n - 1) (by omega)
  rwa [Nat.sub_add_cancel hPos, Nat.mod_self] at hBack

end Ring

end Circles
