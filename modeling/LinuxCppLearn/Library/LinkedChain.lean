import Mathlib.Data.List.Basic
import Mathlib.Data.List.Nodup
import Mathlib.Data.List.Infix

/-!
# Chains of links

`Chain next null a l` says that following `next` from `a` visits exactly the
points of `l` and then arrives at `null`.  It is the usual description of a
singly linked list whose links live in a memory.

* `Chain.unique`, `Chain.nodup` — the visited points are determined by the
  start, so a chain that ends never comes back to a point.
* `Chain.start_mem`, `Chain.next_mem` — the visited points hold the start and
  are closed under `next`.
* `Chain.congr` — only the links of visited points matter.
* `Chain.snoc` — a new last point.
* `EndsIn` — how many points a walk visits, as a rank for loops.
-/

namespace LinkedChain

variable {α : Type*} {next next' : α → α} {null a b c t : α} {l l' : List α}

/-- The points visited from `a` until `null`, in order. -/
def Chain (next : α → α) (null : α) : α → List α → Prop
  | a, [] => a = null
  | a, b :: l => a = b ∧ a ≠ null ∧ Chain next null (next a) l

/-- A chain that starts at `null` is empty. -/
theorem Chain.eq_nil (h : Chain next null null l) : l = [] := by
  cases l with
  | nil => rfl
  | cons b l => exact absurd rfl h.2.1

/-- A chain from a proper point starts with it. -/
theorem Chain.exists_cons (h : Chain next null a l) (hNe : a ≠ null) :
    ∃ l', l = a :: l' ∧ Chain next null (next a) l' := by
  cases l with
  | nil => exact absurd h hNe
  | cons b l =>
      obtain ⟨rfl, _, hRest⟩ := h
      exact ⟨l, rfl, hRest⟩

theorem Chain.ne_null_of_mem (h : Chain next null a l) (hMem : b ∈ l) : b ≠ null := by
  induction l generalizing a with
  | nil => simp at hMem
  | cons d l ih =>
      obtain ⟨rfl, hNe, hRest⟩ := h
      rcases List.mem_cons.mp hMem with rfl | hTail
      · exact hNe
      · exact ih hRest hTail

theorem Chain.unique (h : Chain next null a l) (h' : Chain next null a l') : l = l' := by
  induction l generalizing a l' with
  | nil =>
      have hNull : a = null := h
      subst hNull
      exact h'.eq_nil.symm
  | cons b l ih =>
      obtain ⟨rfl, hNe, hRest⟩ := h
      obtain ⟨m, rfl, hRest'⟩ := h'.exists_cons hNe
      rw [ih hRest hRest']

/-- From each visited point on, the rest of the chain. -/
theorem Chain.suffix (h : Chain next null a l) (hMem : b ∈ l) :
    ∃ l', Chain next null b l' ∧ l' <:+ l := by
  induction l generalizing a with
  | nil => simp at hMem
  | cons d l ih =>
      by_cases hHere : b = d
      · subst hHere
        have hStart : a = b := h.1
        subst hStart
        exact ⟨a :: l, h, List.suffix_rfl⟩
      · have hTail : b ∈ l := (List.mem_cons.mp hMem).resolve_left hHere
        obtain ⟨l', hChain, hSuffix⟩ := ih h.2.2 hTail
        exact ⟨l', hChain, hSuffix.trans (List.suffix_cons d l)⟩

/-- The rest of the chain behind its first points. -/
theorem Chain.behind {front : List α} (h : Chain next null a (front ++ b :: l)) :
    Chain next null b (b :: l) := by
  induction front generalizing a with
  | nil =>
      obtain rfl : a = b := h.1
      exact h
  | cons d front ih => exact ih h.2.2

theorem Chain.start_mem (h : Chain next null a l) : a = null ∨ a ∈ l := by
  by_cases hNe : a = null
  · exact .inl hNe
  · obtain ⟨l', rfl, -⟩ := h.exists_cons hNe
    exact .inr List.mem_cons_self

/-- From a visited point the chain ends or goes on to a visited point. -/
theorem Chain.next_mem (h : Chain next null a l) (hMem : b ∈ l) :
    next b = null ∨ next b ∈ l := by
  obtain ⟨l', hRest, hSuffix⟩ := h.suffix hMem
  obtain ⟨l'', rfl, hTail⟩ := hRest.exists_cons (h.ne_null_of_mem hMem)
  by_cases hEnd : next b = null
  · exact .inl hEnd
  · obtain ⟨l₃, rfl, -⟩ := hTail.exists_cons hEnd
    exact .inr (hSuffix.subset (List.mem_cons_of_mem b List.mem_cons_self))

/-- No point is visited twice: a return would give two chains of different
lengths from the same point. -/
theorem Chain.nodup (h : Chain next null a l) : l.Nodup := by
  induction l generalizing a with
  | nil => exact List.nodup_nil
  | cons b l ih =>
      have hRest := h.2.2
      refine List.nodup_cons.mpr ⟨?_, ih hRest⟩
      intro hMem
      obtain ⟨l', hAgain, hSuffix⟩ := hRest.suffix hMem
      have hEq : b :: l = l' := by
        have hStart : a = b := h.1
        subst hStart
        exact h.unique hAgain
      have hLength := hSuffix.length_le
      rw [← hEq, List.length_cons] at hLength
      omega

theorem Chain.congr (h : Chain next null a l) (hSame : ∀ b ∈ l, next' b = next b) :
    Chain next' null a l := by
  induction l generalizing a with
  | nil => exact h
  | cons b l ih =>
      obtain ⟨rfl, hNe, hRest⟩ := h
      refine ⟨rfl, hNe, ?_⟩
      rw [hSame a List.mem_cons_self]
      exact ih hRest fun d hMem => hSame d (List.mem_cons_of_mem a hMem)

/-- Linking a new point behind the last one. -/
theorem Chain.snoc (h : Chain next null a l) (hMem : t ∈ l) (hLast : next t = null)
    (hNe : c ≠ null) (hLink : next' t = c) (hEnd : next' c = null)
    (hSame : ∀ b ∈ l, b ≠ t → next' b = next b) : Chain next' null a (l ++ [c]) := by
  induction l generalizing a with
  | nil => simp at hMem
  | cons b l ih =>
      obtain ⟨rfl, hStart, hRest⟩ := h
      by_cases hHere : a = t
      · subst hHere
        rw [hLast] at hRest
        obtain rfl := hRest.eq_nil
        exact ⟨rfl, hStart, hLink, hLink ▸ hNe, hLink ▸ hEnd⟩
      · have hTail : t ∈ l := (List.mem_cons.mp hMem).resolve_left fun hEq => hHere hEq.symm
        refine ⟨rfl, hStart, ?_⟩
        rw [hSame a List.mem_cons_self hHere]
        exact ih hRest hTail fun d hIn => hSame d (List.mem_cons_of_mem a hIn)

/-- The links from `a` lead to `null` behind `k` points. -/
def EndsIn (next : α → α) (null a : α) (k : Nat) : Prop :=
  ∃ l, Chain next null a l ∧ l.length = k

theorem EndsIn.step {k : Nat} (h : EndsIn next null a k) (hNe : a ≠ null) :
    ∃ j < k, EndsIn next null (next a) j := by
  obtain ⟨l, hChain, rfl⟩ := h
  obtain ⟨l', rfl, hRest⟩ := hChain.exists_cons hNe
  exact ⟨l'.length, Nat.lt_succ_self _, l', hRest, rfl⟩

theorem EndsIn.congr {k : Nat} (h : EndsIn next null a k) (hSame : ∀ b, next' b = next b) :
    EndsIn next' null a k := by
  obtain ⟨l, hChain, hLength⟩ := h
  exact ⟨l, hChain.congr fun b _ => hSame b, hLength⟩

end LinkedChain
