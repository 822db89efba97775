import Mathlib.Data.List.Basic
import Mathlib.Logic.Function.Basic
import Mathlib.Order.Basic

/-!
# Queues in order of arrival

An element is stamped with the clock when it joins a queue at the back.  As long
as the clock does not go backwards and nothing is stamped while it is queued,
the front element is the oldest one: whoever looks for old elements may stop at
the first one that is not.

* `InOrder.leave`, `InOrder.join` — the two ends of the queue.
* `InOrder.front_oldest` — nothing is older than the front.
-/

namespace TimedQueue

variable {ι τ : Type*} [Preorder τ] {stamp : ι → τ} {clock now : τ} {q q' : List ι} {i : ι}

/-- From front to back the stamps do not go down, and none lies in the future. -/
structure InOrder (stamp : ι → τ) (clock : τ) (q : List ι) : Prop where
  sorted : q.Pairwise fun i j => stamp i ≤ stamp j
  past : ∀ i ∈ q, stamp i ≤ clock

theorem InOrder.nil (stamp : ι → τ) (clock : τ) : InOrder stamp clock [] :=
  ⟨List.Pairwise.nil, fun _ hMem => absurd hMem List.not_mem_nil⟩

/-- Elements leave at the front while time goes on. -/
theorem InOrder.leave (h : InOrder stamp clock q) (hSuffix : q' <:+ q) (hClock : clock ≤ now) :
    InOrder stamp now q' where
  sorted := h.sorted.sublist hSuffix.sublist
  past i hMem := (h.past i (hSuffix.subset hMem)).trans hClock

/-- Whoever is not queued may be stamped. -/
theorem InOrder.restamp [DecidableEq ι] (h : InOrder stamp clock q) (hOut : i ∉ q) (t : τ) :
    InOrder (Function.update stamp i t) clock q := by
  have hSame : ∀ j ∈ q, Function.update stamp i t j = stamp j := by
    intro j hMem
    refine Function.update_of_ne ?_ t stamp
    rintro rfl
    exact hOut hMem
  constructor
  · refine List.Pairwise.imp_of_mem ?_ h.sorted
    intro j k hJ hK hLe
    rw [hSame j hJ, hSame k hK]
    exact hLe
  · intro j hMem
    rw [hSame j hMem]
    exact h.past j hMem

/-- An element is stamped with the time and joins at the back. -/
theorem InOrder.join [DecidableEq ι] (h : InOrder stamp clock q) (hOut : i ∉ q)
    (hClock : clock ≤ now) : InOrder (Function.update stamp i now) now (q ++ [i]) := by
  have hQueue := (h.restamp hOut now).leave (List.suffix_refl q) hClock
  have hNew : Function.update stamp i now i = now := Function.update_self ..
  constructor
  · refine List.pairwise_append.mpr ⟨hQueue.sorted, List.pairwise_singleton .., ?_⟩
    intro j hJ k hK
    obtain rfl := List.mem_singleton.mp hK
    rw [hNew]
    exact hQueue.past j hJ
  · intro j hMem
    rcases List.mem_append.mp hMem with hOld | hLast
    · exact hQueue.past j hOld
    · obtain rfl := List.mem_singleton.mp hLast
      exact hNew.le

theorem InOrder.front_oldest (h : InOrder stamp clock (i :: q)) :
    ∀ j ∈ i :: q, stamp i ≤ stamp j := by
  intro j hMem
  rcases List.mem_cons.mp hMem with rfl | hRest
  · exact le_refl _
  · exact List.rel_of_pairwise_cons h.sorted hRest

end TimedQueue
