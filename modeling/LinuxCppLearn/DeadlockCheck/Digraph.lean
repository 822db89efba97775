import Mathlib.Data.List.Basic
import Mathlib.Data.Finset.Card
import Mathlib.Logic.Function.Basic
import Mathlib.Tactic.Common

/-!
# The directed graph of the deadlock detector

`vertex_list` is an array of `MAX` vertices of which the first `vertex_num` are
in use; every vertex heads a linked list of target vertices, kept as a list of
their pairs.  The bound on `vertex_num` is a field of the structure, so the
index of every search loop is in range; the one index that can leave the array
is the slot a new vertex is written to, and `addVertex` answers `none` there.

* `succ`, `IsVertex` — what the graph says about a pair.
* `WellFormed` — the vertices are distinct and every edge ends in one.
* `addVertex_spec`, `addEdge_spec`, `removeEdge_spec`, `verifyEdge_eq_true` —
  what each operation does in these terms; later modules use nothing else.
-/

namespace LinuxCppLearn
namespace DeadlockCheck

/-- `MAX` -/
def MAX : Nat := 100

/-- A search loop over `0 .. num - 1`: the first index that passes the test. -/
def firstIndex (num : Nat) (test : Nat → Bool) : Option Nat :=
  (List.range num).find? test

theorem firstIndex_eq_some {num i : Nat} {test : Nat → Bool} :
    firstIndex num test = some i ↔
      i < num ∧ test i = true ∧ ∀ j < i, test j = false := by
  unfold firstIndex
  rw [List.find?_range_eq_some]
  simp only [List.mem_range, Bool.not_eq_true']
  constructor
  · rintro ⟨hTest, hLt, hFirst⟩
    exact ⟨hLt, hTest, hFirst⟩
  · rintro ⟨hLt, hTest, hFirst⟩
    exact ⟨hTest, hLt, hFirst⟩

theorem firstIndex_eq_none {num : Nat} {test : Nat → Bool} :
    firstIndex num test = none ↔ ∀ i < num, test i = false := by
  unfold firstIndex
  simp

inductive VType
  | process
  | resource
deriving DecidableEq, Repr

/-- The part of `struct pair_t` that a vertex uses. -/
structure Pair where
  thId : Nat
  type : VType
deriving DecidableEq, Repr

structure Vertex where
  pair : Pair
  /-- the list behind `next` -/
  next : List Pair
deriving DecidableEq, Repr

structure Digraph where
  vertexList : Nat → Vertex
  vertexNum : Nat
  vertexNum_le : vertexNum ≤ MAX

namespace Digraph

/-- `search_vertex`, `none` for `-1`. -/
def searchVertex (g : Digraph) (pair : Pair) : Option Nat :=
  firstIndex g.vertexNum fun i => (g.vertexList i).pair = pair

/-- `add_vertex`; `none` when `vertex_list[vertex_num]` is outside the array. -/
def addVertex (g : Digraph) (pair : Pair) : Option Digraph :=
  match g.searchVertex pair with
  | some _ => some g
  | none =>
      if hRoom : g.vertexNum < MAX then
        some
          { vertexList := Function.update g.vertexList g.vertexNum ⟨pair, []⟩
            vertexNum := g.vertexNum + 1
            vertexNum_le := hRoom }
      else none

/-- Replace the list of the vertex at an index. -/
def setNext (g : Digraph) (i : Nat) (next : List Pair) : Digraph :=
  { g with
    vertexList := Function.update g.vertexList i { g.vertexList i with next := next } }

/-- `add_edge`: the new node goes to the end of the list of `u`. -/
def addEdge (g : Digraph) (u v : Pair) : Option Digraph := do
  let g ← g.addVertex u
  let g ← g.addVertex v
  -- not `-1`: `u` has just been added
  let i ← g.searchVertex u
  some (g.setNext i ((g.vertexList i).next ++ [v]))

/-- `verify_edge`: the walk starts at the vertex itself and compares `th_id`
only. -/
def verifyEdge (g : Digraph) (u v : Pair) : Bool :=
  if g.vertexNum = 0 then false
  else
    match g.searchVertex u with
    | none => false
    | some i =>
        ((g.vertexList i).pair :: (g.vertexList i).next).any fun p => p.thId = v.thId

/-- `remove_edge`: the first node with the `th_id` of `v` goes. -/
def removeEdge (g : Digraph) (u v : Pair) : Digraph :=
  match g.searchVertex u, g.searchVertex v with
  | some i, some _ =>
      g.setNext i ((g.vertexList i).next.eraseP fun p => p.thId = v.thId)
  | _, _ => g

/-! ## What the graph says -/

def IsVertex (g : Digraph) (pair : Pair) : Prop :=
  g.searchVertex pair ≠ none

instance (g : Digraph) (pair : Pair) : Decidable (g.IsVertex pair) :=
  inferInstanceAs (Decidable (_ ≠ _))

/-- The targets of a pair, in list order. -/
def succ (g : Digraph) (pair : Pair) : List Pair :=
  match g.searchVertex pair with
  | none => []
  | some i => (g.vertexList i).next

structure WellFormed (g : Digraph) : Prop where
  distinct : ∀ i < g.vertexNum, ∀ j < g.vertexNum,
    (g.vertexList i).pair = (g.vertexList j).pair → i = j
  target : ∀ i < g.vertexNum, ∀ q ∈ (g.vertexList i).next, g.IsVertex q

variable {g g' : Digraph} {pair u v : Pair}

theorem searchVertex_lt {i : Nat} (h : g.searchVertex pair = some i) : i < g.vertexNum :=
  (firstIndex_eq_some.mp h).1

theorem searchVertex_pair {i : Nat} (h : g.searchVertex pair = some i) :
    (g.vertexList i).pair = pair := by
  simpa using (firstIndex_eq_some.mp h).2.1

theorem isVertex_iff : g.IsVertex pair ↔ ∃ i < g.vertexNum, (g.vertexList i).pair = pair := by
  unfold IsVertex searchVertex
  rw [ne_eq, firstIndex_eq_none]
  simp

theorem WellFormed.searchVertex_eq (hWf : g.WellFormed) {i : Nat} (hLt : i < g.vertexNum)
    (hPair : (g.vertexList i).pair = pair) : g.searchVertex pair = some i := by
  cases h : g.searchVertex pair with
  | none =>
      unfold searchVertex at h
      rw [firstIndex_eq_none] at h
      simpa [hPair] using h i hLt
  | some j =>
      have hSame : (g.vertexList j).pair = (g.vertexList i).pair := by
        rw [searchVertex_pair h, hPair]
      rw [hWf.distinct j (searchVertex_lt h) i hLt hSame]

theorem WellFormed.succ_eq (hWf : g.WellFormed) {i : Nat} (hLt : i < g.vertexNum)
    (hPair : (g.vertexList i).pair = pair) : g.succ pair = (g.vertexList i).next := by
  unfold succ
  rw [hWf.searchVertex_eq hLt hPair]

theorem succ_of_not_isVertex (h : ¬ g.IsVertex pair) : g.succ pair = [] := by
  unfold IsVertex at h
  rw [ne_eq, not_not] at h
  simp [succ, h]

theorem WellFormed.isVertex_of_mem_succ (hWf : g.WellFormed) (h : v ∈ g.succ u) :
    g.IsVertex v := by
  unfold succ at h
  split at h
  · simp at h
  · rename_i i hFound
    exact hWf.target i (searchVertex_lt hFound) v h

/-- The vertices are at most as many as the pairs they can stand for. -/
theorem WellFormed.vertexNum_le_card (hWf : g.WellFormed) (pairs : Finset Pair)
    (hPairs : ∀ p, g.IsVertex p → p ∈ pairs) : g.vertexNum ≤ pairs.card := by
  have hCard : (Finset.range g.vertexNum).card ≤ pairs.card := by
    apply Finset.card_le_card_of_injOn fun i => (g.vertexList i).pair
    · intro i hMem
      have hLt : i < g.vertexNum := by simpa using hMem
      exact hPairs _ (isVertex_iff.mpr ⟨i, hLt, rfl⟩)
    · intro i hMem j hMem' hSame
      have hLt : i < g.vertexNum := by simpa using hMem
      have hLt' : j < g.vertexNum := by simpa using hMem'
      exact hWf.distinct i hLt j hLt' hSame
  rwa [Finset.card_range] at hCard

/-! ## What the operations do -/

theorem addVertex_eq_none :
    g.addVertex pair = none ↔ ¬ g.IsVertex pair ∧ g.vertexNum = MAX := by
  have hLe := g.vertexNum_le
  unfold addVertex IsVertex
  cases h : g.searchVertex pair with
  | some i => simp
  | none =>
      by_cases hRoom : g.vertexNum < MAX
      · simp only [hRoom, dite_true]
        simp
        omega
      · simp only [hRoom, dite_false]
        simp
        omega

/-- A vertex that is there already stays; a new one goes to the first free
index. -/
theorem addVertex_cases (h : g.addVertex pair = some g') :
    (g.IsVertex pair ∧ g' = g) ∨
      (¬ g.IsVertex pair ∧ g.vertexNum < MAX ∧ g'.vertexNum = g.vertexNum + 1 ∧
        g'.vertexList = Function.update g.vertexList g.vertexNum ⟨pair, []⟩) := by
  unfold addVertex at h
  cases hFound : g.searchVertex pair with
  | some i =>
      simp only [hFound, Option.some.injEq] at h
      left
      constructor
      · simp [IsVertex, hFound]
      · exact h.symm
  | none =>
      simp only [hFound] at h
      split at h
      · rename_i hRoom
        simp only [Option.some.injEq] at h
        subst h
        right
        refine ⟨?_, hRoom, rfl, rfl⟩
        simp [IsVertex, hFound]
      · simp at h

/-- `g'` is `g` with the new vertex `pair`, without edges, at the first free
index. -/
structure Appends (g g' : Digraph) (pair : Pair) : Prop where
  fresh : ∀ i < g.vertexNum, (g.vertexList i).pair ≠ pair
  num : g'.vertexNum = g.vertexNum + 1
  old : ∀ i < g.vertexNum, g'.vertexList i = g.vertexList i
  new : g'.vertexList g.vertexNum = ⟨pair, []⟩

namespace Appends

theorem isVertex_iff (h : Appends g g' pair) (q : Pair) :
    g'.IsVertex q ↔ g.IsVertex q ∨ q = pair := by
  rw [Digraph.isVertex_iff, Digraph.isVertex_iff, h.num]
  constructor
  · rintro ⟨i, hLt, hPair⟩
    by_cases hEq : i = g.vertexNum
    · subst hEq
      rw [h.new] at hPair
      exact .inr hPair.symm
    · have hLt' : i < g.vertexNum := by omega
      rw [h.old i hLt'] at hPair
      exact .inl ⟨i, hLt', hPair⟩
  · rintro (⟨i, hLt, hPair⟩ | rfl)
    · exact ⟨i, by omega, by rw [h.old i hLt]; exact hPair⟩
    · exact ⟨g.vertexNum, by omega, by rw [h.new]⟩

theorem wellFormed (h : Appends g g' pair) (hWf : g.WellFormed) : g'.WellFormed := by
  have hNum := h.num
  constructor
  · intro i hLt j hLt' hPair
    by_cases hi : i = g.vertexNum
    · by_cases hj : j = g.vertexNum
      · omega
      · subst hi
        rw [h.new, h.old j (by omega)] at hPair
        exact absurd hPair.symm (h.fresh j (by omega))
    · by_cases hj : j = g.vertexNum
      · subst hj
        rw [h.new, h.old i (by omega)] at hPair
        exact absurd hPair (h.fresh i (by omega))
      · rw [h.old i (by omega), h.old j (by omega)] at hPair
        exact hWf.distinct i (by omega) j (by omega) hPair
  · intro i hLt q hMem
    by_cases hi : i = g.vertexNum
    · subst hi
      simp [h.new] at hMem
    · rw [h.old i (by omega)] at hMem
      exact (h.isVertex_iff q).mpr (.inl (hWf.target i (by omega) q hMem))

theorem succ_eq (h : Appends g g' pair) (hWf : g.WellFormed) (q : Pair) :
    g'.succ q = g.succ q := by
  have hNum := h.num
  have hWf' := h.wellFormed hWf
  by_cases hIs : g.IsVertex q
  · obtain ⟨i, hLt, hPair⟩ := Digraph.isVertex_iff.mp hIs
    have hPair' : (g'.vertexList i).pair = q := by
      rw [h.old i hLt]
      exact hPair
    rw [hWf'.succ_eq (by omega) hPair', h.old i hLt, hWf.succ_eq hLt hPair]
  · rw [succ_of_not_isVertex hIs]
    by_cases hEq : q = pair
    -- the new vertex has no targets yet
    · subst hEq
      rw [hWf'.succ_eq (i := g.vertexNum) (by omega) (by rw [h.new]), h.new]
    · apply succ_of_not_isVertex
      rw [h.isVertex_iff]
      simp [hIs, hEq]

end Appends

theorem addVertex_spec (hWf : g.WellFormed) (h : g.addVertex pair = some g') :
    g'.WellFormed ∧ (∀ q, g'.succ q = g.succ q) ∧
      ∀ q, g'.IsVertex q ↔ g.IsVertex q ∨ q = pair := by
  rcases addVertex_cases h with ⟨hOld, rfl⟩ | ⟨hNew, -, hNum, hList⟩
  · refine ⟨hWf, fun q => rfl, fun q => ?_⟩
    constructor
    · exact Or.inl
    · rintro (hIs | rfl)
      · exact hIs
      · exact hOld
  · have hAppends : Appends g g' pair := by
      refine ⟨?_, hNum, ?_, ?_⟩
      · intro i hLt hEq
        exact hNew (isVertex_iff.mpr ⟨i, hLt, hEq⟩)
      · intro i hLt
        rw [hList, Function.update_of_ne (by omega)]
      · rw [hList, Function.update_self]
    exact ⟨hAppends.wellFormed hWf, hAppends.succ_eq hWf, hAppends.isVertex_iff⟩

/-- Replacing one list keeps the vertices and the other lists. -/
theorem setNext_spec (hWf : g.WellFormed) {i : Nat} {next : List Pair}
    (hFound : g.searchVertex u = some i) (hNext : ∀ q ∈ next, g.IsVertex q) :
    (g.setNext i next).WellFormed ∧
      (∀ q, (g.setNext i next).succ q = if q = u then next else g.succ q) ∧
      ∀ q, (g.setNext i next).IsVertex q ↔ g.IsVertex q := by
  have hPairs : ∀ j, ((g.setNext i next).vertexList j).pair = (g.vertexList j).pair := by
    intro j
    simp only [setNext]
    by_cases hEq : j = i
    · subst hEq
      rw [Function.update_self]
    · rw [Function.update_of_ne hEq]
  -- a search compares pairs only, so every search has the old answer
  have hSearch : ∀ q, (g.setNext i next).searchVertex q = g.searchVertex q := by
    intro q
    unfold searchVertex
    simp only [hPairs]
    rfl
  have hVertex : ∀ q, (g.setNext i next).IsVertex q ↔ g.IsVertex q := by
    intro q
    simp only [IsVertex, hSearch]
  refine ⟨⟨?_, ?_⟩, ?_, hVertex⟩
  · intro j hLt k hLt' hPair
    rw [hPairs, hPairs] at hPair
    exact hWf.distinct j hLt k hLt' hPair
  · intro j hLt q hMem
    rw [hVertex]
    by_cases hEq : j = i
    · subst hEq
      simp only [setNext, Function.update_self] at hMem
      exact hNext q hMem
    · simp only [setNext, Function.update_of_ne hEq] at hMem
      exact hWf.target j hLt q hMem
  · intro q
    unfold succ
    rw [hSearch]
    by_cases hEq : q = u
    · subst hEq
      simp [hFound, setNext]
    · rw [if_neg hEq]
      cases hq : g.searchVertex q with
      | none => rfl
      | some j =>
          have hNe : j ≠ i := by
            rintro rfl
            exact hEq ((searchVertex_pair hq).symm.trans (searchVertex_pair hFound))
          simp [setNext, Function.update_of_ne hNe]

theorem addEdge_spec (hWf : g.WellFormed) (h : g.addEdge u v = some g') :
    g'.WellFormed ∧ (∀ q, g'.succ q = if q = u then g.succ u ++ [v] else g.succ q) ∧
      ∀ q, g'.IsVertex q ↔ g.IsVertex q ∨ q = u ∨ q = v := by
  unfold addEdge at h
  simp only [Option.bind_eq_bind, Option.bind_eq_some_iff] at h
  obtain ⟨g₁, hU, g₂, hV, i, hFound, hSet⟩ := h
  obtain ⟨hWf₁, hSucc₁, hVertex₁⟩ := addVertex_spec hWf hU
  obtain ⟨hWf₂, hSucc₂, hVertex₂⟩ := addVertex_spec hWf₁ hV
  have hOut : (g₂.vertexList i).next = g.succ u := by
    rw [← hSucc₁, ← hSucc₂]
    simp [succ, hFound]
  have hTargets : ∀ q ∈ (g₂.vertexList i).next ++ [v], g₂.IsVertex q := by
    intro q hMem
    rw [List.mem_append, List.mem_singleton] at hMem
    rcases hMem with hOld | rfl
    · exact hWf₂.target i (searchVertex_lt hFound) q hOld
    · exact (hVertex₂ q).mpr (.inr rfl)
  obtain ⟨hWf', hSucc', hVertex'⟩ := setNext_spec hWf₂ hFound hTargets
  simp only [Option.some.injEq] at hSet
  subst hSet
  refine ⟨hWf', fun q => ?_, fun q => ?_⟩
  · rw [hSucc', hOut, hSucc₂, hSucc₁]
  · rw [hVertex', hVertex₂, hVertex₁, or_assoc]

theorem verifyEdge_eq_true :
    g.verifyEdge u v = true ↔
      g.IsVertex u ∧ (u.thId = v.thId ∨ ∃ q ∈ g.succ u, q.thId = v.thId) := by
  unfold verifyEdge IsVertex succ
  cases h : g.searchVertex u with
  | none => simp
  | some i =>
      have hNum : g.vertexNum ≠ 0 := by
        have hLt := searchVertex_lt h
        omega
      simp [hNum, searchVertex_pair h]

/-- `remove_edge` does nothing if the target is not a vertex. -/
theorem removeEdge_of_not_isVertex (hV : ¬ g.IsVertex v) : g.removeEdge u v = g := by
  have hGone : g.searchVertex v = none := by
    by_contra hFound
    exact hV hFound
  unfold removeEdge
  rw [hGone]
  cases g.searchVertex u with
  | none => rfl
  | some i => rfl

theorem removeEdge_spec (hWf : g.WellFormed) (hU : g.IsVertex u) (hV : g.IsVertex v) :
    (g.removeEdge u v).WellFormed ∧
      (∀ q, (g.removeEdge u v).succ q =
        if q = u then (g.succ u).eraseP (fun p => p.thId = v.thId) else g.succ q) ∧
      ∀ q, (g.removeEdge u v).IsVertex q ↔ g.IsVertex q := by
  obtain ⟨i, hFound⟩ := Option.ne_none_iff_exists'.mp hU
  obtain ⟨j, hFound'⟩ := Option.ne_none_iff_exists'.mp hV
  have hOut : (g.vertexList i).next = g.succ u := by simp [succ, hFound]
  have hEq : g.removeEdge u v =
      g.setNext i ((g.succ u).eraseP fun p => p.thId = v.thId) := by
    simp only [removeEdge, hFound, hFound', hOut]
  rw [hEq]
  apply setNext_spec hWf hFound
  intro q hMem
  have hOld : q ∈ g.succ u := List.mem_of_mem_eraseP hMem
  exact hWf.isVertex_of_mem_succ hOld

/-- `if (verify_edge(u, v)) remove_edge(u, v);` for two vertices: where the test
fails, no node would match. -/
theorem removeVerified_spec (hWf : g.WellFormed) (hV : g.IsVertex v)
    (h : g' = if g.verifyEdge u v then g.removeEdge u v else g) :
    g'.WellFormed ∧
      (∀ q, g'.succ q =
        if q = u then (g.succ q).eraseP (fun p => p.thId = v.thId) else g.succ q) ∧
      ∀ q, g'.IsVertex q ↔ g.IsVertex q := by
  by_cases hVerify : g.verifyEdge u v = true
  · rw [if_pos hVerify] at h
    subst h
    obtain ⟨hWf', hSucc, hVertex⟩ := removeEdge_spec hWf (verifyEdge_eq_true.mp hVerify).1 hV
    refine ⟨hWf', ?_, hVertex⟩
    intro q
    rw [hSucc]
    by_cases hq : q = u
    · subst hq
      rfl
    · rw [if_neg hq, if_neg hq]
  · rw [if_neg hVerify] at h
    subst h
    refine ⟨hWf, ?_, fun q => Iff.rfl⟩
    intro q
    split
    · rename_i hq
      subst hq
      -- a failed test means that no node carries the id of `v`
      rw [List.eraseP_of_forall_not]
      intro p hMem
      rw [verifyEdge_eq_true] at hVerify
      have hU : g'.IsVertex q := by
        by_contra hNot
        rw [succ_of_not_isVertex hNot] at hMem
        simp at hMem
      have hDiffers : p.thId ≠ v.thId := fun hEq => hVerify ⟨hU, .inr ⟨p, hMem, hEq⟩⟩
      simpa using hDiffers
    · rfl

/-! ## Indices stay -/

/-- Vertices are only added, and behind the old ones. -/
structure Extends (g g' : Digraph) : Prop where
  num : g.vertexNum ≤ g'.vertexNum
  pair : ∀ i < g.vertexNum, (g'.vertexList i).pair = (g.vertexList i).pair

namespace Extends

theorem refl (g : Digraph) : Extends g g := ⟨Nat.le_refl _, fun _ _ => rfl⟩

theorem trans {g₁ g₂ g₃ : Digraph} (h : Extends g₁ g₂) (h' : Extends g₂ g₃) :
    Extends g₁ g₃ where
  num := Nat.le_trans h.num h'.num
  pair i hLt := by rw [h'.pair i (Nat.lt_of_lt_of_le hLt h.num), h.pair i hLt]

end Extends

theorem addVertex_extends (h : g.addVertex pair = some g') : Extends g g' := by
  rcases addVertex_cases h with ⟨-, rfl⟩ | ⟨-, -, hNum, hList⟩
  · exact .refl g'
  · refine ⟨by omega, fun i hLt => ?_⟩
    rw [hList, Function.update_of_ne (by omega)]

theorem setNext_extends (g : Digraph) (i : Nat) (next : List Pair) :
    Extends g (g.setNext i next) := by
  refine ⟨Nat.le_refl _, fun j _ => ?_⟩
  unfold setNext
  by_cases hEq : j = i
  · subst hEq
    simp
  · simp [Function.update_of_ne hEq]

theorem addEdge_extends (h : g.addEdge u v = some g') : Extends g g' := by
  unfold addEdge at h
  simp only [Option.bind_eq_bind, Option.bind_eq_some_iff, Option.some.injEq] at h
  obtain ⟨g₁, hU, g₂, hV, i, -, rfl⟩ := h
  exact ((addVertex_extends hU).trans (addVertex_extends hV)).trans (setNext_extends _ _ _)

theorem removeEdge_extends (g : Digraph) (u v : Pair) : Extends g (g.removeEdge u v) := by
  unfold removeEdge
  split
  · exact setNext_extends _ _ _
  · exact .refl g

end Digraph

end DeadlockCheck
end LinuxCppLearn
