import LinuxCppLearn.Library.StepSystem
import Mathlib.Algebra.BigOperators.Finprod
import Mathlib.Algebra.Order.BigOperators.Group.Finset

/-!
# Runs that come to an end

The actions of a step system are split into those that the system takes on its
own and those that its environment decides on.  If every step of its own lowers
an amount of work, then it stops on its own, and how long that takes is bounded.

* `RunsOut` — steps of its own keep an invariant and lower the work.
* `RunsOut.length_le` — the bound on runs of such steps, `RunsOut.countP_le` with
  others in between.
* `RunsOut.exists_stuck` — some such run goes on until nothing can be done.
* `totalWeight` — the work as a sum over the places of threads, finitely many of
  which have any.
-/

namespace Quiescence

open StepSystem

/-! ## Steps that lower the work -/

section Runs

variable {σ α : Type*} {step : σ → α → Option σ} {Own : α → Prop} {Inv : σ → Prop}
  {work : σ → Nat} {s s' : σ} {as : List α}

/-- The system can do nothing on its own. -/
def Stuck (step : σ → α → Option σ) (Own : α → Prop) (s : σ) : Prop :=
  ∀ a, Own a → step s a = none

structure RunsOut (step : σ → α → Option σ) (Own : α → Prop) (Inv : σ → Prop)
    (work : σ → Nat) : Prop where
  keeps : ∀ s a s', Inv s → Own a → step s a = some s' → Inv s'
  less : ∀ s a s', Inv s → Own a → step s a = some s' → work s' < work s

/-- **The bound on a run** of steps that lower the work. -/
theorem RunsOut.length_le (h : RunsOut step Own Inv work) (hInv : Inv s)
    (hOwn : ∀ a ∈ as, Own a) (hRun : run step s as = some s') :
    as.length + work s' ≤ work s ∧ Inv s' := by
  induction as generalizing s with
  | nil =>
      simp only [run_nil, Option.some.injEq] at hRun
      subst hRun
      exact ⟨by simp, hInv⟩
  | cons a as ih =>
      obtain ⟨hFirst, hRest⟩ := List.forall_mem_cons.mp hOwn
      rw [run_cons, Option.bind_eq_some_iff] at hRun
      obtain ⟨t, hStep, hTail⟩ := hRun
      have hLess := h.less s a t hInv hFirst hStep
      obtain ⟨hLength, hInv'⟩ := ih (h.keeps s a t hInv hFirst hStep) hRest hTail
      refine ⟨?_, hInv'⟩
      rw [List.length_cons]
      omega

/-- The same bound with steps of the environment in between, none of which makes
work. -/
theorem RunsOut.countP_le [DecidablePred Own] (h : RunsOut step Own Inv work) (hInv : Inv s)
    (hOther : ∀ s a s', Inv s → ¬ Own a → step s a = some s' → Inv s' ∧ work s' ≤ work s)
    (hRun : run step s as = some s') : as.countP (fun a => Own a) + work s' ≤ work s := by
  induction as generalizing s with
  | nil =>
      simp only [run_nil, Option.some.injEq] at hRun
      subst hRun
      simp
  | cons a as ih =>
      rw [run_cons, Option.bind_eq_some_iff] at hRun
      obtain ⟨t, hStep, hTail⟩ := hRun
      by_cases hOwn : Own a
      · have hLess := h.less s a t hInv hOwn hStep
        have hRest := ih (h.keeps s a t hInv hOwn hStep) hTail
        rw [List.countP_cons_of_pos (by simpa using hOwn)]
        omega
      · obtain ⟨hInv', hLe⟩ := hOther s a t hInv hOwn hStep
        have hRest := ih hInv' hTail
        rw [List.countP_cons_of_neg (by simpa using hOwn)]
        omega

/-- **Some run ends**, by induction on the work. -/
theorem RunsOut.exists_stuck (h : RunsOut step Own Inv work) (hInv : Inv s) :
    ∃ as s', (∀ a ∈ as, Own a) ∧ run step s as = some s' ∧ Stuck step Own s' := by
  induction hWork : work s using Nat.strongRecOn generalizing s with
  | ind k ih =>
      by_cases hStuck : Stuck step Own s
      · exact ⟨[], s, by simp, rfl, hStuck⟩
      · unfold Stuck at hStuck
        simp only [not_forall] at hStuck
        obtain ⟨a, hOwn, hSome⟩ := hStuck
        obtain ⟨t, hStep⟩ := Option.ne_none_iff_exists'.mp hSome
        have hLess := h.less s a t hInv hOwn hStep
        obtain ⟨as, s', hAll, hRun, hEnd⟩ :=
          ih (work t) (by omega) (h.keeps s a t hInv hOwn hStep) rfl
        refine ⟨a :: as, s', List.forall_mem_cons.mpr ⟨hOwn, hAll⟩, ?_, hEnd⟩
        rw [run_cons, hStep]
        exact hRun

end Runs

/-! ## The work of threads -/

section Weights

variable {ι β : Type*} {weight : β → Nat} {place place' : ι → β}

/-- The weights of the places where the threads are, summed up. -/
noncomputable def totalWeight (weight : β → Nat) (place : ι → β) : Nat :=
  finsum fun i => weight (place i)

/-- The threads that have any work. -/
def Busy (weight : β → Nat) (place : ι → β) : Set ι :=
  Function.support fun i => weight (place i)

/-- Moving all threads at once, each of them to a place not much heavier. -/
theorem totalWeight_le [Fintype ι] {k : Nat}
    (hEach : ∀ i, weight (place' i) ≤ weight (place i) + k) :
    totalWeight weight place' ≤ totalWeight weight place + Fintype.card ι * k := by
  unfold totalWeight
  rw [finsum_eq_sum_of_fintype, finsum_eq_sum_of_fintype]
  have hSum := Finset.sum_le_sum fun i (_ : i ∈ Finset.univ) => hEach i
  rw [Finset.sum_add_distrib, Finset.sum_const, Finset.card_univ, smul_eq_mul] at hSum
  exact hSum

variable [DecidableEq ι]

theorem Busy.update (hFin : (Busy weight place).Finite) (i : ι) (b : β) :
    (Busy weight (Function.update place i b)).Finite := by
  refine (hFin.insert i).subset fun j hBusy => ?_
  by_cases hHere : j = i
  · exact .inl hHere
  · right
    have hKept : weight (Function.update place i b j) ≠ 0 := hBusy
    rwa [Function.update_of_ne hHere] at hKept

/-- **Moving one thread** changes the sum by the weights of its two places. -/
theorem totalWeight_update (hFin : (Busy weight place).Finite) (i : ι) (b : β) :
    totalWeight weight (Function.update place i b) + weight (place i) =
      totalWeight weight place + weight b := by
  classical
  let members := insert i hFin.toFinset
  have hMem : i ∈ members := Finset.mem_insert_self _ _
  have hOld : totalWeight weight place = ∑ j ∈ members, weight (place j) := by
    refine finsum_eq_finsetSum_of_support_subset _ fun j hBusy => ?_
    exact Finset.mem_coe.mpr (Finset.mem_insert_of_mem (hFin.mem_toFinset.mpr hBusy))
  have hNew : totalWeight weight (Function.update place i b) =
      ∑ j ∈ members, Function.update (fun j => weight (place j)) i (weight b) j := by
    have hSame : (fun j => weight (Function.update place i b j)) =
        Function.update (fun j => weight (place j)) i (weight b) := by
      funext j
      by_cases hHere : j = i
      · rw [hHere, Function.update_self, Function.update_self]
      · rw [Function.update_of_ne hHere, Function.update_of_ne hHere]
    unfold totalWeight
    rw [hSame]
    refine finsum_eq_finsetSum_of_support_subset _ fun j hBusy => ?_
    by_cases hHere : j = i
    · rw [hHere]
      exact hMem
    · have hKept : Function.update (fun j => weight (place j)) i (weight b) j ≠ 0 := hBusy
      rw [Function.update_of_ne hHere] at hKept
      exact Finset.mem_coe.mpr (Finset.mem_insert_of_mem (hFin.mem_toFinset.mpr hKept))
  have hSplit := Finset.add_sum_erase members (fun j => weight (place j)) hMem
  rw [hOld, hNew, Finset.sum_update_of_mem hMem, Finset.sdiff_singleton_eq_erase]
  omega

end Weights

end Quiescence
