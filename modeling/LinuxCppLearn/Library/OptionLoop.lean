import Mathlib.Data.List.Basic
import Mathlib.Data.Option.Basic
import Mathlib.Logic.Relation
import Mathlib.Order.Basic

/-!
# Loops that can fail, and closed walks

* `foldlM_invariant`, `foldlM_total` — the partial and the total rule for a
  loop over a list whose body answers `none` when it fails.
* `mapM_total`, `mapM_eq_map` — a list of computations that all succeed, and
  what it gives.
* `findSome?_congr` — a search with another test that answers alike.
* `exists_sequence_of_transGen` — a relation that leads from a point back to
  itself has a closed walk, given as a sequence of points.
-/

namespace OptionLoop

variable {σ α β : Type*} {f : σ → α → Option σ} {P : σ → Prop}

theorem foldlM_cons_eq_some {a : α} {as : List α} {s s' : σ} :
    (a :: as).foldlM f s = some s' ↔ ∃ t, f s a = some t ∧ as.foldlM f t = some s' := by
  rw [List.foldlM_cons, Option.bind_eq_bind, Option.bind_eq_some_iff]

/-- What every round keeps holds behind the loop. -/
theorem foldlM_invariant {as : List α} {s s' : σ} (hRun : as.foldlM f s = some s')
    (hInit : P s) (hStep : ∀ a ∈ as, ∀ t t', P t → f t a = some t' → P t') : P s' := by
  induction as generalizing s with
  | nil =>
      have hEq : s = s' := by simpa using hRun
      exact hEq ▸ hInit
  | cons a as ih =>
      obtain ⟨t, hFirst, hRest⟩ := foldlM_cons_eq_some.mp hRun
      have hMid : P t := hStep a List.mem_cons_self s t hInit hFirst
      apply ih hRest hMid
      intro b hMem
      exact hStep b (List.mem_cons_of_mem a hMem)

/-- A loop whose rounds all succeed under the invariant succeeds. -/
theorem foldlM_total {as : List α} {s : σ} (hInit : P s)
    (hStep : ∀ a ∈ as, ∀ t, P t → ∃ t', f t a = some t' ∧ P t') :
    ∃ s', as.foldlM f s = some s' ∧ P s' := by
  induction as generalizing s with
  | nil => exact ⟨s, rfl, hInit⟩
  | cons a as ih =>
      obtain ⟨t, hFirst, hMid⟩ := hStep a List.mem_cons_self s hInit
      obtain ⟨s', hRest, hDone⟩ := ih hMid fun b hMem => hStep b (List.mem_cons_of_mem a hMem)
      exact ⟨s', foldlM_cons_eq_some.mpr ⟨t, hFirst, hRest⟩, hDone⟩

theorem mapM_total {g : α → Option β} {as : List α} (h : ∀ a ∈ as, g a ≠ none) :
    ∃ bs, as.mapM g = some bs := by
  induction as with
  | nil => exact ⟨[], rfl⟩
  | cons a as ih =>
      obtain ⟨b, hHead⟩ := Option.ne_none_iff_exists'.mp (h a List.mem_cons_self)
      obtain ⟨bs, hTail⟩ := ih fun a' hMem => h a' (List.mem_cons_of_mem a hMem)
      exact ⟨b :: bs, by simp [List.mapM_cons, hHead, hTail]⟩

theorem mapM_eq_map {g : α → Option β} {h : α → β} {as : List α} {bs : List β}
    (hSome : ∀ a ∈ as, ∀ b, g a = some b → b = h a) (hRun : as.mapM g = some bs) :
    bs = as.map h := by
  induction as generalizing bs with
  | nil => simpa using hRun.symm
  | cons a as ih =>
      simp only [List.mapM_cons, Option.bind_eq_bind, Option.bind_eq_some_iff, Option.pure_def,
        Option.some.injEq] at hRun
      obtain ⟨b, hHead, bs', hTail, rfl⟩ := hRun
      rw [List.map_cons, hSome a List.mem_cons_self b hHead,
        ih (fun a' hMem => hSome a' (List.mem_cons_of_mem a hMem)) hTail]

theorem findSome?_congr {g h : α → Option β} {as : List α} (hSame : ∀ a ∈ as, g a = h a) :
    as.findSome? g = as.findSome? h := by
  induction as with
  | nil => rfl
  | cons a as ih =>
      rw [List.findSome?_cons, List.findSome?_cons, hSame a List.mem_cons_self,
        ih fun b hMem => hSame b (List.mem_cons_of_mem a hMem)]

/-- A nonempty chain of steps, as a sequence of points. -/
theorem exists_sequence_of_transGen {R : α → α → Prop} {a b : α}
    (h : Relation.TransGen R a b) :
    ∃ (n : Nat) (point : Nat → α), 1 ≤ n ∧ point 0 = a ∧ point n = b ∧
      ∀ i < n, R (point i) (point (i + 1)) := by
  induction h with
  | @single c hStep =>
      refine ⟨1, fun i => if i = 0 then a else c, by omega, rfl, rfl, ?_⟩
      intro i hLt
      obtain rfl : i = 0 := by omega
      exact hStep
  | @tail c d _ hStep ih =>
      obtain ⟨n, point, hPos, hFirst, hLast, hChain⟩ := ih
      refine ⟨n + 1, fun i => if i ≤ n then point i else d, by omega, by simpa using hFirst,
        by simp, ?_⟩
      intro i hLt
      show R (if i ≤ n then point i else d) (if i + 1 ≤ n then point (i + 1) else d)
      by_cases hEnd : i = n
      · subst hEnd
        rw [if_pos (by omega), if_neg (by omega), hLast]
        exact hStep
      · rw [if_pos (by omega), if_pos (by omega)]
        exact hChain i (by omega)

end OptionLoop
