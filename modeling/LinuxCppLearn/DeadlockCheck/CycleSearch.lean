import Mathlib.Data.Finset.Card
import Mathlib.Logic.Relation
import LinuxCppLearn.Library.OptionLoop
import LinuxCppLearn.DeadlockCheck.Digraph

/-!
# The search for a cycle

`check_dead_lock` starts `search_for_cycle` from every vertex until one of the
searches has set `deadlock`.  A search marks what it visits, never takes a mark
back, and reports as soon as it comes to a marked vertex.  The recursion is
given a bound on its depth; `none` stands for an exhausted bound, for an index
outside `path`, and for a target that is no vertex.

* `dfs_returns` — in a well formed graph none of this happens.
* `dfs_closed` — a search without a report has marked a set that is closed
  under edges and was unmarked before; so a cycle is always reported.
* `dfs_report` — where every vertex has at most one edge, a report means a
  cycle.  (Two paths that meet again are reported as well.)
-/

namespace LinuxCppLearn
namespace DeadlockCheck

open OptionLoop Relation

/-- The fields of `struct task_graph` that the search uses, and what it has
printed. -/
structure Search where
  path : Nat → Int
  visited : Nat → Int
  k : Nat
  deadlock : Int
  printed : List (List Nat)

/-- `path[k++] = idx`; `path` has `MAX + 1` entries. -/
def Search.push (s : Search) (idx : Nat) : Option Search :=
  if s.k ≤ MAX then
    some { s with path := Function.update s.path s.k idx, k := s.k + 1 }
  else none

def Search.mark (s : Search) (idx : Nat) : Search :=
  { s with visited := Function.update s.visited idx 1 }

namespace Digraph

/-- `vertex_list[idx].pair.th_id` -/
def threadAt (g : Digraph) (idx : Int) : Option Nat :=
  if 0 ≤ idx ∧ idx < MAX then some (g.vertexList idx.toNat).pair.thId else none

/-- The line `print_deadlock` prints. -/
def printDeadlock (g : Digraph) (s : Search) : Option (List Nat) :=
  (List.range (s.k - 1) ++ [s.k - 1]).mapM fun i => g.threadAt (s.path i)

/-- `DFS` -/
def dfs (g : Digraph) : Nat → Nat → Search → Option Search
  | 0, _, _ => none
  | fuel + 1, idx, s =>
      if s.visited idx = 1 then do
        let s ← s.push idx
        let line ← g.printDeadlock s
        some { s with deadlock := 1, printed := s.printed ++ [line] }
      else do
        let s ← (s.mark idx).push idx
        (g.vertexList idx).next.foldlM
          (fun s pair => do
            let i ← g.searchVertex pair
            let s ← dfs g fuel i s
            -- `k--` behind the call, whether it has reported or not
            some { s with k := s.k - 1 }) s

/-- The part of `search_for_cycle` before its call of `DFS`: all marks but the
one of `idx` are taken back and `path` is emptied behind it. -/
def resetFor (g : Digraph) (idx : Nat) (s : Search) : Search :=
  { s with
    visited := fun i => if i < g.vertexNum ∧ i ≠ idx then 0 else s.visited i
    path := fun i => if 1 ≤ i ∧ i ≤ MAX then -1 else s.path i
    k := 1 }

/-- `search_for_cycle` -/
def searchForCycle (g : Digraph) (s : Search) (idx : Nat) : Option Search :=
  let s := { s.mark idx with path := Function.update s.path 0 idx, k := 1 }
  (g.vertexList idx).next.foldlM
    (fun s pair => do
      let i ← g.searchVertex pair
      -- the marks are taken back for every edge of the root, the verdict is not
      g.dfs (g.vertexNum + 1) i (g.resetFor idx s)) s

/-- `check_dead_lock` -/
def checkDeadLock (g : Digraph) (s : Search) : Option Search :=
  (List.range g.vertexNum).foldlM
    (fun s i => if s.deadlock = 1 then some s else g.searchForCycle s i)
    { s with deadlock := 0 }

/-! ## The graph on indices -/

/-- The indices the search goes to from an index. -/
def adj (g : Digraph) (i : Nat) : List Nat :=
  (g.vertexList i).next.filterMap g.searchVertex

variable {g : Digraph}

/-- A loop over targets that are vertices is one over their indices. -/
theorem foldlM_targets {σ : Type} {next : List Pair} (hTarget : ∀ p ∈ next, g.IsVertex p)
    (f : σ → Nat → Option σ) (s : σ) :
    next.foldlM
        (fun s pair => do
          let j ← g.searchVertex pair
          f s j) s =
      (next.filterMap g.searchVertex).foldlM f s := by
  induction next generalizing s with
  | nil => rfl
  | cons p next ih =>
      obtain ⟨j, hFound⟩ := Option.ne_none_iff_exists'.mp (hTarget p List.mem_cons_self)
      rw [List.filterMap_cons_some hFound, List.foldlM_cons, List.foldlM_cons]
      simp only [hFound, Option.bind_eq_bind, Option.bind_some]
      cases f s j with
      | none => rfl
      | some t =>
          simp only [Option.bind_some]
          exact ih (fun q hMem => hTarget q (List.mem_cons_of_mem p hMem)) t

theorem adj_lt {i j : Nat} (h : j ∈ g.adj i) : j < g.vertexNum := by
  unfold adj at h
  rw [List.mem_filterMap] at h
  obtain ⟨p, _, hFound⟩ := h
  exact searchVertex_lt hFound

/-- One round of the loop in `DFS`. -/
def dfsRound (g : Digraph) (fuel : Nat) (s : Search) (i : Nat) : Option Search := do
  let s ← g.dfs fuel i s
  some { s with k := s.k - 1 }

theorem dfs_expands {fuel idx : Nat} {s : Search}
    (hTarget : ∀ p ∈ (g.vertexList idx).next, g.IsVertex p) (hNew : s.visited idx ≠ 1) :
    g.dfs (fuel + 1) idx s =
      ((s.mark idx).push idx).bind fun s => (g.adj idx).foldlM (g.dfsRound fuel) s := by
  rw [dfs, if_neg hNew]
  simp only [Option.bind_eq_bind]
  congr 1
  funext t
  exact foldlM_targets hTarget (g.dfsRound fuel) t

theorem dfs_unmarked (hWf : g.WellFormed) {fuel idx : Nat} {s : Search}
    (hLt : idx < g.vertexNum) (hNew : s.visited idx ≠ 1) :
    g.dfs (fuel + 1) idx s =
      ((s.mark idx).push idx).bind fun s => (g.adj idx).foldlM (g.dfsRound fuel) s :=
  dfs_expands (hWf.target idx hLt) hNew

theorem dfs_marked {fuel idx : Nat} {s : Search} (hOld : s.visited idx = 1) :
    g.dfs (fuel + 1) idx s =
      (s.push idx).bind fun s => (g.printDeadlock s).bind fun line =>
        some { s with deadlock := 1, printed := s.printed ++ [line] } := by
  rw [dfs, if_pos hOld]
  rfl

theorem push_eq_some {s s' : Search} {idx : Nat} :
    s.push idx = some s' ↔
      s.k ≤ MAX ∧ s' = { s with path := Function.update s.path s.k idx, k := s.k + 1 } := by
  unfold Search.push
  split
  · rename_i hRoom
    simp only [Option.some.injEq, hRoom, true_and]
    exact eq_comm
  · rename_i hFull
    simp [hFull]

@[simp] theorem mark_visited {s : Search} {idx i : Nat} :
    (s.mark idx).visited i = 1 ↔ i = idx ∨ s.visited i = 1 := by
  unfold Search.mark
  by_cases hEq : i = idx
  · simp [hEq]
  · simp [hEq]

/-! ## Every search returns -/

/-- The marked vertices. -/
def marked (g : Digraph) (s : Search) : Finset Nat :=
  (Finset.range g.vertexNum).filter fun i => s.visited i = 1

theorem mem_marked {s : Search} {i : Nat} :
    i ∈ g.marked s ↔ i < g.vertexNum ∧ s.visited i = 1 := by
  unfold marked
  rw [Finset.mem_filter, Finset.mem_range]

theorem marked_card_le {s : Search} : (g.marked s).card ≤ g.vertexNum := by
  have hCard := Finset.card_filter_le (Finset.range g.vertexNum) fun i => s.visited i = 1
  rwa [Finset.card_range] at hCard

theorem marked_mark {s : Search} {idx : Nat} (hLt : idx < g.vertexNum)
    (hNew : s.visited idx ≠ 1) : g.marked (s.mark idx) = insert idx (g.marked s) := by
  ext i
  rw [Finset.mem_insert, mem_marked, mem_marked, mark_visited]
  constructor
  · rintro ⟨hi, hEq | hOld⟩
    · exact .inl hEq
    · exact .inr ⟨hi, hOld⟩
  · rintro (rfl | ⟨hi, hOld⟩)
    · exact ⟨hLt, .inl rfl⟩
    · exact ⟨hi, .inr hOld⟩

/-- The path holds indices of the array. -/
def PathInRange (s : Search) : Prop :=
  ∀ i < s.k, 0 ≤ s.path i ∧ s.path i < MAX

/-- What `DFS` needs: the path holds indices of the array and is at most as
long as there are marks. -/
structure PathReady (g : Digraph) (s : Search) : Prop where
  path_index : PathInRange s
  k_le : s.k ≤ (g.marked s).card

theorem push_ready {s : Search} {idx : Nat} (hLt : idx < g.vertexNum)
    (hPath : PathInRange s) (hRoom : s.k ≤ MAX) :
    ∃ s', s.push idx = some s' ∧ s'.k = s.k + 1 ∧ s'.visited = s.visited ∧
      s'.deadlock = s.deadlock ∧ PathInRange s' := by
  refine ⟨_, push_eq_some.mpr ⟨hRoom, rfl⟩, rfl, rfl, rfl, ?_⟩
  intro i hi
  have hMax : g.vertexNum ≤ MAX := g.vertexNum_le
  by_cases hEq : i = s.k
  · subst hEq
    simp only [Function.update_self]
    omega
  · simp only [Function.update_of_ne hEq]
    exact hPath i (by simp at hi; omega)

theorem printDeadlock_returns {s : Search} (hPos : 0 < s.k)
    (hPath : PathInRange s) : ∃ line, g.printDeadlock s = some line := by
  unfold printDeadlock
  apply mapM_total
  intro i hMem
  have hLt : i < s.k := by
    simp at hMem
    omega
  simp [threadAt, hPath i hLt]

/-- **`DFS` returns**, one entry further along `path`, if its bound exceeds the
number of unmarked vertices. -/
theorem dfs_returns (hWf : g.WellFormed) (fuel : Nat) :
    ∀ (idx : Nat) (s : Search), idx < g.vertexNum → g.PathReady s →
      g.vertexNum < (g.marked s).card + fuel →
      ∃ s', g.dfs fuel idx s = some s' ∧ s'.k = s.k + 1 ∧ PathInRange s' ∧
        g.marked s ⊆ g.marked s' := by
  induction fuel with
  | zero =>
      intro idx s _ _ hFuel
      -- there are no more marks than vertices, so the bound is not used up
      have hCard : (g.marked s).card ≤ g.vertexNum := marked_card_le
      omega
  | succ fuel ih =>
      intro idx s hLt hReady hFuel
      have hCard : (g.marked s).card ≤ g.vertexNum := marked_card_le
      have hMax : g.vertexNum ≤ MAX := g.vertexNum_le
      have hLe : s.k ≤ (g.marked s).card := hReady.k_le
      by_cases hOld : s.visited idx = 1
      -- the vertex is marked: it is pushed and the path is printed
      · obtain ⟨t, hPush, hK, hVisited, -, hPath⟩ := push_ready hLt hReady.path_index (by omega)
        obtain ⟨line, hLine⟩ := printDeadlock_returns (g := g) (by omega) hPath
        refine ⟨{ t with deadlock := 1, printed := t.printed ++ [line] }, ?_, hK, hPath, ?_⟩
        · rw [dfs_marked hOld, hPush, Option.bind_some, hLine, Option.bind_some]
        · intro i hMem
          rw [mem_marked] at hMem ⊢
          exact ⟨hMem.1, by simpa [hVisited] using hMem.2⟩
      -- the vertex is new: mark, push, and one search per edge
      · have hMarked := marked_mark hLt hOld
        have hNotMem : idx ∉ g.marked s := by
          rw [mem_marked]
          exact fun h => hOld h.2
        have hMore : (g.marked (s.mark idx)).card = (g.marked s).card + 1 := by
          rw [hMarked, Finset.card_insert_of_notMem hNotMem]
        have hBelow : (g.marked (s.mark idx)).card ≤ g.vertexNum := marked_card_le
        obtain ⟨t, hPush, hK, hVisited, -, hPath⟩ :=
          push_ready (s := s.mark idx) hLt hReady.path_index
            (show s.k ≤ MAX by omega)
        have hK' : t.k = s.k + 1 := hK
        have hSame : g.marked t = g.marked (s.mark idx) := by
          unfold marked
          rw [hVisited]
        obtain ⟨s', hLoop, hk, hPath', hSub⟩ :
            ∃ s', (g.adj idx).foldlM (g.dfsRound fuel) t = some s' ∧ s'.k = s.k + 1 ∧
              PathInRange s' ∧ g.marked t ⊆ g.marked s' := by
          -- every round adds marks and takes its own entry off the path
          refine foldlM_total
            (P := fun s' => s'.k = s.k + 1 ∧ PathInRange s' ∧ g.marked t ⊆ g.marked s')
            ⟨hK', hPath, Finset.Subset.refl _⟩ ?_
          rintro j hMem u ⟨hk, hPathU, hSub⟩
          have hGrown : (g.marked t).card ≤ (g.marked u).card := Finset.card_le_card hSub
          rw [hSame] at hGrown
          obtain ⟨u', hRun, hk', hPathU', hSub'⟩ :=
            ih j u (adj_lt hMem) ⟨hPathU, by omega⟩ (by omega)
          refine ⟨{ u' with k := u'.k - 1 }, ?_, ?_, ?_, ?_⟩
          · simp [dfsRound, hRun]
          · show u'.k - 1 = s.k + 1
            omega
          · intro i hi
            exact hPathU' i (by simp at hi; omega)
          · exact Finset.Subset.trans hSub hSub'
        refine ⟨s', ?_, hk, hPath', ?_⟩
        · rw [dfs_unmarked hWf hLt hOld, hPush, Option.bind_some, hLoop]
        · intro i hMem
          apply hSub
          rw [hSame, hMarked]
          exact Finset.mem_insert_of_mem hMem

/-! ## What a search marks -/

/-- Marks and the verdict stay. -/
def Grows (s s' : Search) : Prop :=
  (∀ i, s.visited i = 1 → s'.visited i = 1) ∧ (s.deadlock = 1 → s'.deadlock = 1)

theorem Grows.trans {s t u : Search} (h : Grows s t) (h' : Grows t u) : Grows s u :=
  ⟨fun i hOld => h'.1 i (h.1 i hOld), fun hOld => h'.2 (h.2 hOld)⟩

theorem dfsRound_eq_some {fuel i : Nat} {s s' : Search} :
    g.dfsRound fuel s i = some s' ↔
      ∃ t, g.dfs fuel i s = some t ∧ s' = { t with k := t.k - 1 } := by
  unfold dfsRound
  simp only [Option.bind_eq_bind, Option.bind_eq_some_iff, Option.some.injEq]
  constructor
  · rintro ⟨t, hRun, rfl⟩
    exact ⟨t, hRun, rfl⟩
  · rintro ⟨t, hRun, rfl⟩
    exact ⟨t, hRun, rfl⟩

/-- A search that returns, taken apart: it reports at a marked vertex, or marks
and goes through the edges. -/
theorem dfs_cases (hWf : g.WellFormed) {fuel idx : Nat} {s s' : Search}
    (hLt : idx < g.vertexNum) (h : g.dfs (fuel + 1) idx s = some s') :
    (s.visited idx = 1 ∧ s'.visited = s.visited ∧ s'.deadlock = 1) ∨
      (s.visited idx ≠ 1 ∧ ∃ t, (∀ i, t.visited i = 1 ↔ i = idx ∨ s.visited i = 1) ∧
        t.deadlock = s.deadlock ∧ (g.adj idx).foldlM (g.dfsRound fuel) t = some s') := by
  by_cases hOld : s.visited idx = 1
  · left
    rw [dfs_marked hOld] at h
    simp only [Option.bind_eq_some_iff, Option.some.injEq] at h
    obtain ⟨t, hPush, line, _, rfl⟩ := h
    obtain ⟨-, rfl⟩ := push_eq_some.mp hPush
    exact ⟨hOld, rfl, rfl⟩
  · right
    rw [dfs_unmarked hWf hLt hOld, Option.bind_eq_some_iff] at h
    obtain ⟨t, hPush, hLoop⟩ := h
    have hPushed := (push_eq_some.mp hPush).2
    refine ⟨hOld, t, fun i => ?_, ?_, hLoop⟩
    · rw [hPushed]
      exact mark_visited
    · rw [hPushed]
      rfl

theorem dfs_grows (hWf : g.WellFormed) (fuel : Nat) :
    ∀ (idx : Nat) (s s' : Search), idx < g.vertexNum → g.dfs fuel idx s = some s' →
      Grows s s' := by
  induction fuel with
  | zero =>
      intro idx s s' _ h
      simp [dfs] at h
  | succ fuel ih =>
      intro idx s s' hLt h
      rcases dfs_cases hWf hLt h with ⟨-, hVisited, hReport⟩ | ⟨-, t, hMarks, hSame, hLoop⟩
      · exact ⟨fun i hOld => by rw [hVisited]; exact hOld, fun _ => hReport⟩
      · have hGrows : Grows t s' := by
          refine foldlM_invariant (P := Grows t) hLoop ⟨fun _ h => h, id⟩ ?_
          intro j hMem u u' hBefore hRound
          obtain ⟨v, hRun, rfl⟩ := dfsRound_eq_some.mp hRound
          exact hBefore.trans (ih j u v (adj_lt hMem) hRun)
        refine ⟨fun i hOld => hGrows.1 i ((hMarks i).mpr (.inr hOld)), fun hOld => ?_⟩
        exact hGrows.2 (hSame.trans hOld)

/-- A set of vertices that the edges do not leave. -/
def Closed (g : Digraph) (N : Set Nat) : Prop :=
  ∀ i ∈ N, ∀ j ∈ g.adj i, j ∈ N

/-- What a search without a report did: it marked the closed set `N`, which
held no mark before. -/
structure Marked (g : Digraph) (s s' : Search) (N : Set Nat) : Prop where
  quiet : s.deadlock ≠ 1
  fresh : ∀ i ∈ N, s.visited i ≠ 1
  marks : ∀ i, s'.visited i = 1 ↔ s.visited i = 1 ∨ i ∈ N

/-- A loop of searches without a report. -/
theorem dfsLoop_closed {fuel : Nat}
    (hDfs : ∀ (idx : Nat) (s s' : Search), idx < g.vertexNum → g.dfs fuel idx s = some s' →
      s'.deadlock ≠ 1 → ∃ N : Set Nat, idx ∈ N ∧ g.Closed N ∧ Marked g s s' N)
    {js : List Nat} (hLt : ∀ j ∈ js, j < g.vertexNum) {s s' : Search}
    (h : js.foldlM (g.dfsRound fuel) s = some s') (hQuiet : s'.deadlock ≠ 1) :
    ∃ N : Set Nat, (∀ j ∈ js, j ∈ N) ∧ g.Closed N ∧ Marked g s s' N := by
  induction js generalizing s with
  | nil =>
      obtain rfl : s = s' := by simpa using h
      refine ⟨∅, by simp, fun i hMem => absurd hMem (Set.notMem_empty i), hQuiet, ?_, ?_⟩
      · intro i hMem
        exact absurd hMem (Set.notMem_empty i)
      · intro i
        simp
  | cons j js ih =>
      obtain ⟨t, hRound, hRest⟩ := foldlM_cons_eq_some.mp h
      obtain ⟨u, hRun, rfl⟩ := dfsRound_eq_some.mp hRound
      have hTail : ∀ i ∈ js, i < g.vertexNum := fun i hMem => hLt i (List.mem_cons_of_mem j hMem)
      obtain ⟨N', hIn', hClosed', hMarked'⟩ := ih hTail hRest
      obtain ⟨N, hIn, hClosed, hMarked⟩ :=
        hDfs j s u (hLt j List.mem_cons_self) hRun hMarked'.quiet
      refine ⟨N ∪ N', ?_, ?_, hMarked.quiet, ?_, ?_⟩
      · intro i hMem
        rcases List.mem_cons.mp hMem with rfl | hTailMem
        · exact .inl hIn
        · exact .inr (hIn' i hTailMem)
      · rintro i (hMem | hMem) k hEdge
        · exact .inl (hClosed i hMem k hEdge)
        · exact .inr (hClosed' i hMem k hEdge)
      · rintro i (hMem | hMem) hOld
        · exact hMarked.fresh i hMem hOld
        · exact hMarked'.fresh i hMem ((hMarked.marks i).mpr (.inl hOld))
      · intro i
        rw [hMarked'.marks i]
        show u.visited i = 1 ∨ i ∈ N' ↔ _
        rw [hMarked.marks i, Set.mem_union, or_assoc]

/-- **A search without a report** has marked a set that contains its start, is
closed under edges and was unmarked before. -/
theorem dfs_closed (hWf : g.WellFormed) (fuel : Nat) :
    ∀ (idx : Nat) (s s' : Search), idx < g.vertexNum → g.dfs fuel idx s = some s' →
      s'.deadlock ≠ 1 → ∃ N : Set Nat, idx ∈ N ∧ g.Closed N ∧ Marked g s s' N := by
  induction fuel with
  | zero =>
      intro idx s s' _ h
      simp [dfs] at h
  | succ fuel ih =>
      intro idx s s' hLt h hQuiet
      rcases dfs_cases hWf hLt h with ⟨-, -, hReport⟩ | ⟨hNew, t, hMarks, hSame, hLoop⟩
      · exact absurd hReport hQuiet
      · obtain ⟨N, hIn, hClosed, hMarked⟩ :=
          dfsLoop_closed ih (fun j hMem => adj_lt hMem) hLoop hQuiet
        refine ⟨insert idx N, Set.mem_insert idx N, ?_, ?_, ?_, ?_⟩
        · rintro i (rfl | hMem) j hEdge
          · exact .inr (hIn j hEdge)
          · exact .inr (hClosed i hMem j hEdge)
        · rw [← hSame]
          exact hMarked.quiet
        · rintro i (rfl | hMem) hOld
          · exact hNew hOld
          · exact hMarked.fresh i hMem ((hMarks i).mpr (.inr hOld))
        · intro i
          rw [hMarked.marks, hMarks, Set.mem_insert_iff]
          constructor
          · rintro ((hEq | hOld) | hMem)
            · exact .inr (.inl hEq)
            · exact .inl hOld
            · exact .inr (.inr hMem)
          · rintro (hOld | hEq | hMem)
            · exact .inl (.inr hOld)
            · exact .inl (.inl hEq)
            · exact .inr hMem

/-! ## Searches from a root -/

/-- An edge of the graph on indices. -/
def Edge (g : Digraph) (i j : Nat) : Prop :=
  i < g.vertexNum ∧ j ∈ g.adj i

theorem Edge.lt_right {i j : Nat} (h : g.Edge i j) : j < g.vertexNum :=
  adj_lt h.2

theorem WellFormed.edge_iff (hWf : g.WellFormed) {i j : Nat} :
    g.Edge i j ↔ i < g.vertexNum ∧ j < g.vertexNum ∧
      (g.vertexList j).pair ∈ g.succ (g.vertexList i).pair := by
  unfold Edge adj
  constructor
  · rintro ⟨hLt, hMem⟩
    obtain ⟨p, hNext, hFound⟩ := List.mem_filterMap.mp hMem
    refine ⟨hLt, searchVertex_lt hFound, ?_⟩
    rw [hWf.succ_eq hLt rfl, searchVertex_pair hFound]
    exact hNext
  · rintro ⟨hLt, hLt', hMem⟩
    rw [hWf.succ_eq hLt rfl] at hMem
    exact ⟨hLt, List.mem_filterMap.mpr ⟨_, hMem, hWf.searchVertex_eq hLt' rfl⟩⟩

theorem Closed.mem_of_reach {N : Set Nat} (h : g.Closed N) {i j : Nat} (hMem : i ∈ N)
    (hReach : ReflTransGen g.Edge i j) : j ∈ N := by
  induction hReach with
  | refl => exact hMem
  | tail _ hEdge ih => exact h _ ih _ hEdge.2

/-- One round of the loop in `search_for_cycle`. -/
def rootRound (g : Digraph) (idx : Nat) (s : Search) (i : Nat) : Option Search :=
  g.dfs (g.vertexNum + 1) i (g.resetFor idx s)

theorem searchForCycle_rounds {idx : Nat}
    (hTarget : ∀ p ∈ (g.vertexList idx).next, g.IsVertex p) (s : Search) :
    g.searchForCycle s idx = (g.adj idx).foldlM (g.rootRound idx)
      { s.mark idx with path := Function.update s.path 0 idx, k := 1 } :=
  foldlM_targets hTarget (g.rootRound idx) _

theorem searchForCycle_eq (hWf : g.WellFormed) {idx : Nat} (hLt : idx < g.vertexNum)
    (s : Search) :
    g.searchForCycle s idx = (g.adj idx).foldlM (g.rootRound idx)
      { s.mark idx with path := Function.update s.path 0 idx, k := 1 } :=
  searchForCycle_rounds (hWf.target idx hLt) s

/-- Where the loop of `search_for_cycle` stands: the root is marked and heads
the path. -/
def RootReady (s : Search) (idx : Nat) : Prop :=
  s.visited idx = 1 ∧ 0 ≤ s.path 0 ∧ s.path 0 < MAX

theorem rootReady_start {s : Search} {idx : Nat} (hLt : idx < g.vertexNum) :
    RootReady { s.mark idx with path := Function.update s.path 0 idx, k := 1 } idx := by
  have hMax : g.vertexNum ≤ MAX := g.vertexNum_le
  refine ⟨mark_visited.mpr (.inl rfl), ?_, ?_⟩
  · simp
  · simp only [Function.update_self]
    omega

theorem resetFor_visited {s : Search} {idx i : Nat} (hRoot : s.visited idx = 1)
    (hLt : i < g.vertexNum) : (g.resetFor idx s).visited i = 1 ↔ i = idx := by
  unfold resetFor
  by_cases hEq : i = idx
  · subst hEq
    simp [hRoot]
  · simp [hEq, hLt]

theorem marked_resetFor {s : Search} {idx : Nat} (hLt : idx < g.vertexNum)
    (hRoot : s.visited idx = 1) : g.marked (g.resetFor idx s) = {idx} := by
  ext i
  rw [mem_marked, Finset.mem_singleton]
  constructor
  · rintro ⟨hi, hMark⟩
    exact (resetFor_visited hRoot hi).mp hMark
  · rintro rfl
    exact ⟨hLt, (resetFor_visited hRoot hLt).mpr rfl⟩

theorem resetFor_ready {s : Search} {idx : Nat} (hLt : idx < g.vertexNum)
    (h : RootReady s idx) : g.PathReady (g.resetFor idx s) := by
  constructor
  · intro i hi
    obtain rfl : i = 0 := by
      have hk : i < 1 := hi
      omega
    simpa [resetFor] using h.2
  · rw [marked_resetFor hLt h.1, Finset.card_singleton]
    exact Nat.le_refl 1

theorem rootRound_returns (hWf : g.WellFormed) {idx i : Nat} {s : Search}
    (hLt : idx < g.vertexNum) (hi : i < g.vertexNum) (h : RootReady s idx) :
    ∃ s', g.rootRound idx s i = some s' ∧ RootReady s' idx := by
  have hReady := resetFor_ready hLt h
  obtain ⟨s', hRun, hk, hPath, hSub⟩ := dfs_returns hWf (g.vertexNum + 1) i _ hi hReady (by omega)
  have hRoot : (g.resetFor idx s).visited idx = 1 := (resetFor_visited h.1 hLt).mpr rfl
  refine ⟨s', hRun, (dfs_grows hWf _ i _ s' hi hRun).1 idx hRoot, ?_⟩
  exact hPath 0 (by omega)

theorem searchForCycle_returns (hWf : g.WellFormed) {idx : Nat} (hLt : idx < g.vertexNum)
    (s : Search) : ∃ s', g.searchForCycle s idx = some s' := by
  rw [searchForCycle_eq hWf hLt]
  obtain ⟨s', hRun, -⟩ := foldlM_total (P := fun s => RootReady s idx) (rootReady_start hLt)
    fun i hMem t hReady => rootRound_returns hWf hLt (adj_lt hMem) hReady
  exact ⟨s', hRun⟩

theorem rootRound_deadlock (hWf : g.WellFormed) {idx i : Nat} {s s' : Search}
    (hi : i < g.vertexNum) (h : g.rootRound idx s i = some s') (hSet : s.deadlock = 1) :
    s'.deadlock = 1 :=
  (dfs_grows hWf _ i _ s' hi h).2 hSet

/-- A round whose start leads back to the root reports. -/
theorem rootRound_complete (hWf : g.WellFormed) {idx i : Nat} {s s' : Search}
    (hLt : idx < g.vertexNum) (hi : i < g.vertexNum) (hRoot : s.visited idx = 1)
    (hBack : ReflTransGen g.Edge i idx) (h : g.rootRound idx s i = some s') :
    s'.deadlock = 1 := by
  by_contra hQuiet
  obtain ⟨N, hIn, hClosed, hMarked⟩ := dfs_closed hWf _ i _ s' hi h hQuiet
  have hMem : idx ∈ N := hClosed.mem_of_reach hIn hBack
  exact hMarked.fresh idx hMem ((resetFor_visited hRoot hLt).mpr rfl)

theorem searchForCycle_complete (hWf : g.WellFormed) {idx : Nat} {s s' : Search}
    (hCycle : TransGen g.Edge idx idx) (h : g.searchForCycle s idx = some s') :
    s'.deadlock = 1 := by
  obtain ⟨i, hEdge, hBack⟩ := TransGen.head'_iff.mp hCycle
  have hLt : idx < g.vertexNum := hEdge.1
  rw [searchForCycle_eq hWf hLt] at h
  -- the loop gets to the edge that starts the cycle with the root still marked
  obtain ⟨before, after, hSplit⟩ := List.append_of_mem hEdge.2
  have hBefore : ∀ j ∈ before, j < g.vertexNum := by
    intro j hMem
    exact adj_lt (i := idx) (by rw [hSplit]; exact List.mem_append_left _ hMem)
  have hAfter : ∀ j ∈ after, j < g.vertexNum := by
    intro j hMem
    refine adj_lt (i := idx) ?_
    rw [hSplit]
    exact List.mem_append_right _ (List.mem_cons_of_mem i hMem)
  rw [hSplit, List.foldlM_append, Option.bind_eq_bind, Option.bind_eq_some_iff] at h
  obtain ⟨t, hFirst, hRest⟩ := h
  obtain ⟨u, hRound, hLast⟩ := foldlM_cons_eq_some.mp hRest
  have hReady : RootReady t idx := by
    refine foldlM_invariant (P := fun s => RootReady s idx) hFirst (rootReady_start hLt) ?_
    intro j hMem v v' hv hRun
    obtain ⟨w, hRun', hw⟩ := rootRound_returns hWf hLt (hBefore j hMem) hv
    rw [hRun'] at hRun
    obtain rfl : w = v' := by simpa using hRun
    exact hw
  have hReport : u.deadlock = 1 :=
    rootRound_complete hWf hLt hEdge.lt_right hReady.1 hBack hRound
  exact foldlM_invariant (P := fun s => s.deadlock = 1) hLast hReport
    fun j hMem v v' hv hRun => rootRound_deadlock hWf (hAfter j hMem) hRun hv

/-! ## The verdict of `check_dead_lock` -/

/-- One round of the loop in `check_dead_lock`. -/
def checkRound (g : Digraph) (s : Search) (i : Nat) : Option Search :=
  if s.deadlock = 1 then some s else g.searchForCycle s i

theorem checkDeadLock_eq (s : Search) :
    g.checkDeadLock s = (List.range g.vertexNum).foldlM g.checkRound { s with deadlock := 0 } :=
  rfl

theorem checkRound_returns (hWf : g.WellFormed) {i : Nat} (hLt : i < g.vertexNum) (s : Search) :
    ∃ s', g.checkRound s i = some s' := by
  unfold checkRound
  split
  · exact ⟨s, rfl⟩
  · exact searchForCycle_returns hWf hLt s

theorem checkRound_deadlock {i : Nat} {s s' : Search} (h : g.checkRound s i = some s')
    (hSet : s.deadlock = 1) : s' = s := by
  unfold checkRound at h
  rw [if_pos hSet, Option.some.injEq] at h
  exact h.symm

theorem checkDeadLock_returns (hWf : g.WellFormed) (s : Search) :
    ∃ s', g.checkDeadLock s = some s' := by
  rw [checkDeadLock_eq]
  have hTotal : ∀ i ∈ List.range g.vertexNum, ∀ t : Search, True →
      ∃ t', g.checkRound t i = some t' ∧ True := by
    intro i hMem t _
    obtain ⟨t', hRun⟩ := checkRound_returns hWf (List.mem_range.mp hMem) t
    exact ⟨t', hRun, trivial⟩
  obtain ⟨s', hRun, -⟩ := foldlM_total (s := { s with deadlock := 0 }) trivial hTotal
  exact ⟨s', hRun⟩

/-- **Completeness**: a cycle is reported. -/
theorem checkDeadLock_complete (hWf : g.WellFormed) {i : Nat} (hCycle : TransGen g.Edge i i)
    {s s' : Search} (h : g.checkDeadLock s = some s') : s'.deadlock = 1 := by
  obtain ⟨j, hEdge, -⟩ := TransGen.head'_iff.mp hCycle
  obtain ⟨before, after, hSplit⟩ := List.append_of_mem (List.mem_range.mpr hEdge.1)
  rw [checkDeadLock_eq, hSplit, List.foldlM_append, Option.bind_eq_bind,
    Option.bind_eq_some_iff] at h
  obtain ⟨t, -, hRest⟩ := h
  obtain ⟨u, hRound, hLast⟩ := foldlM_cons_eq_some.mp hRest
  have hReport : u.deadlock = 1 := by
    -- an earlier search has reported, or the one from `i` does
    by_cases hSet : t.deadlock = 1
    · rw [checkRound_deadlock hRound hSet]
      exact hSet
    · unfold checkRound at hRound
      rw [if_neg hSet] at hRound
      exact searchForCycle_complete hWf hCycle hRound
  refine foldlM_invariant (P := fun s => s.deadlock = 1) hLast hReport ?_
  intro k _ v v' hv hRun
  rw [checkRound_deadlock hRun hv]
  exact hv

/-- Every vertex has at most one edge. -/
def Functional (g : Digraph) : Prop :=
  ∀ i < g.vertexNum, (g.adj i).length ≤ 1

theorem Functional.adj_cases (h : g.Functional) {i : Nat} (hLt : i < g.vertexNum) :
    g.adj i = [] ∨ ∃ j, g.adj i = [j] := by
  have hLength := h i hLt
  cases hAdj : g.adj i with
  | nil => exact .inl rfl
  | cons j js =>
      rw [hAdj, List.length_cons] at hLength
      obtain rfl : js = [] := List.length_eq_zero_iff.mp (by omega)
      exact .inr ⟨j, rfl⟩

/-- Where every mark lies on the way to the start of the search, a report
closes a cycle. -/
theorem dfs_report (hWf : g.WellFormed) (hFun : g.Functional) (fuel : Nat) :
    ∀ (idx : Nat) (s s' : Search), idx < g.vertexNum → g.dfs fuel idx s = some s' →
      s.deadlock ≠ 1 → s'.deadlock = 1 →
      (∀ i < g.vertexNum, s.visited i = 1 → TransGen g.Edge i idx) →
      ∃ i, TransGen g.Edge i i := by
  induction fuel with
  | zero =>
      intro idx s s' _ h
      simp [dfs] at h
  | succ fuel ih =>
      intro idx s s' hLt h hQuiet hReport hPath
      rcases dfs_cases hWf hLt h with ⟨hOld, -, -⟩ | ⟨-, t, hMarks, hSame, hLoop⟩
      · exact ⟨idx, hPath idx hLt hOld⟩
      rcases hFun.adj_cases hLt with hNone | ⟨j, hOne⟩
      · rw [hNone] at hLoop
        -- without an edge the search ends quietly
        obtain rfl : t = s' := by simpa using hLoop
        exact absurd (hSame.symm.trans hReport) hQuiet
      · rw [hOne] at hLoop
        obtain ⟨u, hRound, hEnd⟩ := foldlM_cons_eq_some.mp hLoop
        obtain rfl : u = s' := by simpa using hEnd
        obtain ⟨v, hRun, rfl⟩ := dfsRound_eq_some.mp hRound
        have hEdge : g.Edge idx j := ⟨hLt, by rw [hOne]; exact List.mem_singleton_self j⟩
        -- the one edge prolongs the way from every mark to the start
        refine ih j t v hEdge.lt_right hRun (by rw [hSame]; exact hQuiet) hReport ?_
        intro i hi hMark
        rcases (hMarks i).mp hMark with rfl | hOld
        · exact TransGen.single hEdge
        · exact (hPath i hi hOld).tail hEdge

theorem searchForCycle_report (hWf : g.WellFormed) (hFun : g.Functional) {idx : Nat}
    {s s' : Search} (hLt : idx < g.vertexNum) (h : g.searchForCycle s idx = some s')
    (hQuiet : s.deadlock ≠ 1) (hReport : s'.deadlock = 1) : ∃ i, TransGen g.Edge i i := by
  rw [searchForCycle_eq hWf hLt] at h
  rcases hFun.adj_cases hLt with hNone | ⟨j, hOne⟩
  · rw [hNone] at h
    simp only [List.foldlM_nil, Option.pure_def, Option.some.injEq] at h
    subst h
    exact absurd hReport hQuiet
  · rw [hOne] at h
    obtain ⟨u, hRound, hEnd⟩ := foldlM_cons_eq_some.mp h
    obtain rfl : u = s' := by simpa using hEnd
    have hEdge : g.Edge idx j := ⟨hLt, by rw [hOne]; exact List.mem_singleton_self j⟩
    refine dfs_report hWf hFun _ j _ u hEdge.lt_right hRound hQuiet hReport ?_
    intro i hi hMark
    have hRoot := rootReady_start (s := s) hLt
    obtain rfl := (resetFor_visited hRoot.1 hi).mp hMark
    exact TransGen.single hEdge

/-- **Soundness** where every vertex has at most one edge. -/
theorem checkDeadLock_report (hWf : g.WellFormed) (hFun : g.Functional) {s s' : Search}
    (h : g.checkDeadLock s = some s') (hReport : s'.deadlock = 1) :
    ∃ i, TransGen g.Edge i i := by
  rw [checkDeadLock_eq] at h
  refine foldlM_invariant (P := fun s => s.deadlock = 1 → ∃ i, TransGen g.Edge i i) h ?_ ?_ hReport
  · intro hSet
    simp at hSet
  · intro i hMem t t' hBefore hRun hSet
    by_cases hOld : t.deadlock = 1
    · exact hBefore hOld
    · unfold checkRound at hRun
      rw [if_neg hOld] at hRun
      exact searchForCycle_report hWf hFun (List.mem_range.mp hMem) hRun hOld hSet

end Digraph

end DeadlockCheck
end LinuxCppLearn
