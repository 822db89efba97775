import Mathlib.Data.Set.Card
import Mathlib.Logic.Function.Basic

/-!
# Counting the threads at a place

A system of threads is a function from thread names to places.  `tally` counts
the threads whose place passes a test, over any set of names, as long as only
finitely many pass.

* `tally_update` — what moving one thread does to a count.
-/

namespace Counting

variable {ι β : Type*} [DecidableEq ι] {p : β → Bool} {place : ι → β}

/-- The number of threads at a place that passes the test. -/
noncomputable def tally (p : β → Bool) (place : ι → β) : Nat :=
  {i | p (place i) = true}.ncard

/-- Where the test still passes once the thread `i` has moved. -/
theorem setOf_update (i : ι) (b : β) :
    {j | p (Function.update place i b j) = true} =
      if p b = true then insert i {j | p (place j) = true}
      else {j | p (place j) = true} \ {i} := by
  ext j
  by_cases hEq : j = i
  · subst hEq
    by_cases hNew : p b = true <;> simp [hNew]
  · by_cases hNew : p b = true <;> simp [hNew, hEq]

theorem finite_update (hFin : {i | p (place i) = true}.Finite) (i : ι) (b : β) :
    {j | p (Function.update place i b j) = true}.Finite := by
  rw [setOf_update]
  split
  · exact hFin.insert i
  · exact hFin.sdiff

/-- **Moving one thread** takes it off the count where it was and adds it where
it goes. -/
theorem tally_update (hFin : {i | p (place i) = true}.Finite) (i : ι) (b : β) :
    tally p (Function.update place i b) + (p (place i)).toNat =
      tally p place + (p b).toNat := by
  unfold tally
  rw [setOf_update]
  cases hOld : p (place i) with
  | true =>
      have hMem : i ∈ {j | p (place j) = true} := hOld
      cases hNew : p b with
      | true => simp [Set.insert_eq_of_mem hMem]
      | false =>
          have hLess := Set.ncard_sdiff_singleton_add_one hMem hFin
          simpa using hLess
  | false =>
      have hNot : i ∉ {j | p (place j) = true} := by simp [hOld]
      cases hNew : p b with
      | true =>
          have hMore := Set.ncard_insert_of_notMem hNot hFin
          simpa using hMore
      | false => simp [Set.sdiff_singleton_eq_self hNot]

end Counting
