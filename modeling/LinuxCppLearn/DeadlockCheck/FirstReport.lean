import LinuxCppLearn.Library.Ways
import LinuxCppLearn.DeadlockCheck.BuiltGraph

/-!
# The first path printed

Up to its first report a search from a root has met no vertex twice.  So it has
gone along the walks over one edge of the root in depth-first order, and what it
prints first is the first of them that ends at the root or where an earlier one
has ended.  Whether that walk comes back to one of its own vertices is not
looked at.

* `meeting` — that walk.
* `dfs_follows`, `rootRound_outcome`, `checkDeadLock_outcome` — the search up to
  its first report, for one call of `DFS`, one root, and the whole check.
* `ComesBackInTime` — the condition on the graph: where two ways over one edge of
  a vertex end in the same vertex, no later than the second of them there is a
  way that comes back to a vertex it has passed.
* `meeting_closes_iff` — so it is exactly if the walk `meeting` comes back.
* `built_report_sound_exactly` — a report is sound exactly on these graphs.
* `acyclic_comesBackInTime_iff` — without a cycle: no two ways over one edge of a
  vertex end in the same vertex.
-/

namespace LinuxCppLearn
namespace DeadlockCheck
namespace Digraph

open OptionLoop StepSystem Relation WalkOrder

variable {g : Digraph} {s s' t u : Search} {met met' : Option (Walk Nat)}

/-! ## By the graph alone -/

/-- The walks over the edge from a root to `i`. -/
def walksOver (g : Digraph) (root i : Nat) : List (Walk Nat) :=
  walks g.adj (g.vertexNum + 1) [root] i

def rootMeeting (g : Digraph) (root : Nat) : Option (Walk Nat) :=
  (g.adj root).findSome? fun i => firstMeeting {root} (g.walksOver root i)

/-- The first walk that ends at its root or where an earlier one over the same
edge has ended: by roots, by the edges of a root, and in depth-first order. -/
def meeting (g : Digraph) : Option (Walk Nat) :=
  (List.range g.vertexNum).findSome? g.rootMeeting

/-- A way is given by its root and the places of its edges in the lists, and the
ways are in the order of these numbers.  If two ways over one edge of a root end
in the same vertex, then a way that comes back to a vertex it has passed is the
later of the two or comes before it. -/
def ComesBackInTime (g : Digraph) : Prop :=
  ∀ root < g.vertexNum, ∀ (k : Nat) (ls ks : List Nat) (v : Nat), Before ls ks →
    follow g.adj root (k :: ls) = some v → follow g.adj root (k :: ks) = some v →
    ∃ root' ms, (root' :: ms = root :: k :: ks ∨ Before (root' :: ms) (root :: k :: ks)) ∧
      ComesBack g.adj root' ms

/-- The `th_id`s along a path. -/
def line (g : Digraph) (path : List Nat) : List Nat :=
  path.map fun i => (g.vertexList i).pair.thId

/-! ## What is printed -/

/-- `path[0 .. k - 1]` -/
def OnPath (s : Search) (path : List Nat) : Prop :=
  (List.range s.k).map s.path = path.map fun i : Nat => (i : Int)

namespace OnPath

variable {path : List Nat}

theorem k_eq (h : OnPath s path) : s.k = path.length := by
  have hLength := congrArg List.length h
  rwa [List.length_map, List.length_map, List.length_range] at hLength

theorem push (h : OnPath s path) (idx : Nat) :
    OnPath { s with path := Function.update s.path s.k idx, k := s.k + 1 } (path ++ [idx]) := by
  unfold OnPath at h ⊢
  rw [List.range_succ, List.map_append, List.map_append, ← h]
  congr 1
  · apply List.map_congr_left
    intro i hMem
    exact Function.update_of_ne (Nat.ne_of_lt (List.mem_range.mp hMem)) _ _
  · simp

/-- `k--` -/
theorem pop (h : OnPath s (path ++ [idx])) : OnPath { s with k := s.k - 1 } path := by
  have hK := h.k_eq
  rw [List.length_append, List.length_singleton] at hK
  unfold OnPath at h ⊢
  have hBelow : s.k - 1 = path.length := by omega
  rw [hK, List.range_succ, List.map_append, List.map_append] at h
  rw [hBelow]
  exact (List.append_inj h (by simp)).1

theorem printed (h : OnPath s path) (hPos : 0 < s.k) {l : List Nat}
    (hLine : g.printDeadlock s = some l) : l = g.line path := by
  unfold printDeadlock at hLine
  have hRange : List.range (s.k - 1) ++ [s.k - 1] = List.range s.k := by
    rw [← List.range_succ]
    congr 1
    omega
  rw [hRange] at hLine
  have hAll : l = (List.range s.k).map fun i => (g.vertexList (s.path i).toNat).pair.thId := by
    refine mapM_eq_map ?_ hLine
    intro i _ thread hThread
    unfold threadAt at hThread
    split at hThread
    · exact (Option.some.inj hThread).symm
    · simp at hThread
  have hMapped := congrArg (List.map fun i : Int => (g.vertexList i.toNat).pair.thId) h
  rw [List.map_map, List.map_map] at hMapped
  rw [hAll]
  exact hMapped

end OnPath

/-! ## Up to the first report -/

/-- What a part of the search has done, if `met` is the first walk it reports. -/
structure Outcome (g : Digraph) (s s' : Search) (met : Option (Walk Nat)) : Prop where
  quiet : met = none → s'.deadlock = s.deadlock ∧ s'.printed = s.printed
  report : ∀ w, met = some w →
    s'.deadlock = 1 ∧ s.printed ++ [g.line w.points] <+: s'.printed

namespace Outcome

theorem refl (g : Digraph) (s : Search) : Outcome g s s none :=
  ⟨fun _ => ⟨rfl, rfl⟩, fun _ hMet => absurd hMet (by simp)⟩

/-- The verdict and the lines printed stay. -/
theorem later (h : Outcome g s s' met) :
    (s.deadlock = 1 → s'.deadlock = 1) ∧ s.printed <+: s'.printed := by
  cases met with
  | none =>
      obtain ⟨hVerdict, hPrinted⟩ := h.quiet rfl
      rw [hVerdict, hPrinted]
      exact ⟨id, List.prefix_rfl⟩
  | some w =>
      obtain ⟨hVerdict, hPrinted⟩ := h.report w rfl
      exact ⟨fun _ => hVerdict, (List.prefix_append _ _).trans hPrinted⟩

theorem or (h : Outcome g s t met) (h' : Outcome g t u met') :
    Outcome g s u (met.or met') := by
  cases met with
  | none =>
      obtain ⟨hVerdict, hPrinted⟩ := h.quiet rfl
      rw [Option.none_or]
      constructor
      · intro hNone
        rw [← hVerdict, ← hPrinted]
        exact h'.quiet hNone
      · intro w hMet
        rw [← hPrinted]
        exact h'.report w hMet
  | some w =>
      obtain ⟨hVerdict, hPrinted⟩ := h.report w rfl
      rw [Option.some_or]
      constructor
      · intro hNone
        simp at hNone
      · intro w' hMet
        obtain rfl := Option.some.inj hMet
        exact ⟨h'.later.1 hVerdict, hPrinted.trans h'.later.2⟩

end Outcome

/-- The search has gone along these walks, and `path` is what is left on the
path. -/
structure Follows (g : Digraph) (s s' : Search) (ws : List (Walk Nat)) (path : List Nat) :
    Prop where
  outcome : Outcome g s s' (firstMeeting (g.marked s) ws)
  marks : firstMeeting (g.marked s) ws = none → g.marked s' = g.marked s ∪ lasts ws
  onPath : OnPath s' path

theorem Follows.append {ws ws' : List (Walk Nat)} {path path' : List Nat}
    (h : Follows g s t ws path) (h' : Follows g t u ws' path') :
    Follows g s u (ws ++ ws') path' := by
  have hBoth := h.outcome.or h'.outcome
  cases hMet : firstMeeting (g.marked s) ws with
  | none =>
      have hMarks := h.marks hMet
      rw [hMet, Option.none_or, hMarks] at hBoth
      have hSame : firstMeeting (g.marked s) (ws ++ ws') =
          firstMeeting (g.marked s ∪ lasts ws) ws' := by
        rw [firstMeeting_append, hMet, Option.none_or]
      refine ⟨hSame ▸ hBoth, fun hNone => ?_, h'.onPath⟩
      rw [hSame, ← hMarks] at hNone
      rw [h'.marks hNone, hMarks, lasts_append, Finset.union_assoc]
  | some w =>
      have hSame : firstMeeting (g.marked s) (ws ++ ws') = some w := by
        rw [firstMeeting_append, hMet, Option.some_or]
      rw [hMet, Option.some_or] at hBoth
      refine ⟨hSame ▸ hBoth, fun hNone => ?_, h'.onPath⟩
      rw [hSame] at hNone
      simp at hNone

/-- The loop in `DFS`. -/
theorem dfsLoop_follows {fuel : Nat}
    (hDfs : ∀ (idx : Nat) (s s' : Search) (front : List Nat), idx < g.vertexNum →
      g.dfs fuel idx s = some s' → OnPath s front →
      Follows g s s' (walks g.adj fuel front idx) (front ++ [idx]))
    {js : List Nat} (hLt : ∀ j ∈ js, j < g.vertexNum) {front : List Nat}
    (hPath : OnPath s front) (h : js.foldlM (g.dfsRound fuel) s = some s') :
    Follows g s s' (js.flatMap (walks g.adj fuel front)) front := by
  induction js generalizing s with
  | nil =>
      obtain rfl : s = s' := by simpa using h
      refine ⟨Outcome.refl g s, fun _ => ?_, hPath⟩
      rw [List.flatMap_nil, lasts_nil, Finset.union_empty]
  | cons j js ih =>
      obtain ⟨t, hRound, hRest⟩ := foldlM_cons_eq_some.mp h
      obtain ⟨v, hRun, rfl⟩ := dfsRound_eq_some.mp hRound
      have hFirst := hDfs j s v front (hLt j List.mem_cons_self) hRun hPath
      have hBack : Follows g s { v with k := v.k - 1 } (walks g.adj fuel front j) front :=
        ⟨⟨hFirst.outcome.quiet, hFirst.outcome.report⟩, hFirst.marks, hFirst.onPath.pop⟩
      exact hBack.append
        (ih (fun i hMem => hLt i (List.mem_cons_of_mem j hMem)) hBack.onPath hRest)

/-- **`DFS` goes along the walks** in depth-first order up to the first that ends
in a marked vertex. -/
theorem dfs_follows (hWf : g.WellFormed) (fuel : Nat) :
    ∀ (idx : Nat) (s s' : Search) (front : List Nat), idx < g.vertexNum →
      g.dfs fuel idx s = some s' → OnPath s front →
      Follows g s s' (walks g.adj fuel front idx) (front ++ [idx]) := by
  induction fuel with
  | zero =>
      intro idx s s' front _ h
      simp [dfs] at h
  | succ fuel ih =>
      intro idx s s' front hLt h hPath
      rw [walks]
      by_cases hOld : s.visited idx = 1
      -- the walk that has led here is the first
      · have hMet : ∀ ws, firstMeeting (g.marked s) (⟨front, idx⟩ :: ws) = some ⟨front, idx⟩ :=
          fun ws => if_pos (mem_marked.mpr ⟨hLt, hOld⟩)
        rw [dfs_marked hOld, Option.bind_eq_some_iff] at h
        obtain ⟨t, hPush, h⟩ := h
        obtain ⟨l, hLine, h⟩ := Option.bind_eq_some_iff.mp h
        obtain rfl := Option.some.inj h
        obtain ⟨-, rfl⟩ := push_eq_some.mp hPush
        have hPath' := hPath.push idx
        obtain rfl := hPath'.printed (Nat.succ_pos _) hLine
        refine ⟨⟨fun hNone => ?_, fun w hSome => ?_⟩, fun hNone => ?_, hPath'⟩
        · rw [hMet] at hNone
          simp at hNone
        · rw [hMet] at hSome
          obtain rfl := Option.some.inj hSome
          exact ⟨rfl, List.prefix_rfl⟩
        · rw [hMet] at hNone
          simp at hNone
      -- the vertex is marked, and the walks go on over its edges
      · have hNew : idx ∉ g.marked s := fun hMem => hOld (mem_marked.mp hMem).2
        rw [dfs_unmarked hWf hLt hOld, Option.bind_eq_some_iff] at h
        obtain ⟨t, hPush, hLoop⟩ := h
        obtain ⟨-, rfl⟩ := push_eq_some.mp hPush
        have hMark : OnPath (s.mark idx) front := hPath
        have hRest := dfsLoop_follows ih (fun j hMem => adj_lt hMem) (hMark.push idx) hLoop
        have hMarks := marked_mark hLt hOld
        have hSame : ∀ ws, firstMeeting (g.marked s) (⟨front, idx⟩ :: ws) =
            firstMeeting (g.marked (s.mark idx)) ws := by
          intro ws
          rw [hMarks]
          exact if_neg hNew
        refine ⟨⟨fun hNone => ?_, fun w hSome => ?_⟩, fun hNone => ?_, hRest.onPath⟩
        · rw [hSame] at hNone
          exact hRest.outcome.quiet hNone
        · rw [hSame] at hSome
          exact hRest.outcome.report w hSome
        · rw [hSame] at hNone
          have hAll : g.marked s' = g.marked (s.mark idx) ∪ _ := hRest.marks hNone
          rw [hAll, hMarks, lasts_cons, Finset.insert_union_comm]

/-! ## From the roots -/

/-- The root is marked and heads the path. -/
structure AtRoot (s : Search) (root : Nat) : Prop where
  visited : s.visited root = 1
  path : s.path 0 = root

theorem rootRound_outcome (hWf : g.WellFormed) {root i : Nat} (hLt : root < g.vertexNum)
    (hi : i < g.vertexNum) (hAt : AtRoot s root) (h : g.rootRound root s i = some s') :
    Outcome g s s' (firstMeeting {root} (g.walksOver root i)) ∧ AtRoot s' root := by
  have hPath : OnPath (g.resetFor root s) [root] := by
    simp [OnPath, resetFor, List.range_one, hAt.path]
  have hMarked := marked_resetFor hLt hAt.visited
  have hFollows := dfs_follows hWf _ i _ s' [root] hi h hPath
  have hOutcome := hFollows.outcome
  rw [hMarked] at hOutcome
  have hRoot : (g.resetFor root s).visited root = 1 := (resetFor_visited hAt.visited hLt).mpr rfl
  refine ⟨⟨hOutcome.quiet, hOutcome.report⟩, (dfs_grows hWf _ i _ s' hi h).1 root hRoot, ?_⟩
  have hEntry := hFollows.onPath
  unfold OnPath at hEntry
  rw [hFollows.onPath.k_eq] at hEntry
  simpa [List.range_succ_eq_map] using congrArg List.head? hEntry

theorem rootLoop_outcome (hWf : g.WellFormed) {root : Nat} (hLt : root < g.vertexNum)
    {js : List Nat} (hJs : ∀ j ∈ js, j < g.vertexNum) (hAt : AtRoot s root)
    (h : js.foldlM (g.rootRound root) s = some s') :
    Outcome g s s' (js.findSome? fun i => firstMeeting {root} (g.walksOver root i)) := by
  induction js generalizing s with
  | nil =>
      obtain rfl : s = s' := by simpa using h
      exact Outcome.refl g s
  | cons j js ih =>
      obtain ⟨t, hRound, hRest⟩ := foldlM_cons_eq_some.mp h
      obtain ⟨hFirst, hAt'⟩ := rootRound_outcome hWf hLt (hJs j List.mem_cons_self) hAt hRound
      have hBoth := hFirst.or (ih (fun i hMem => hJs i (List.mem_cons_of_mem j hMem)) hAt' hRest)
      rw [List.findSome?_cons]
      cases hMet : firstMeeting {root} (g.walksOver root j) with
      | none =>
          rw [hMet, Option.none_or] at hBoth
          exact hBoth
      | some w =>
          rw [hMet, Option.some_or] at hBoth
          exact hBoth

theorem searchForCycle_outcome (hWf : g.WellFormed) {root : Nat} (hLt : root < g.vertexNum)
    (h : g.searchForCycle s root = some s') : Outcome g s s' (g.rootMeeting root) := by
  rw [searchForCycle_eq hWf hLt] at h
  have hAt : AtRoot { s.mark root with path := Function.update s.path 0 root, k := 1 } root :=
    ⟨mark_visited.mpr (.inl rfl), Function.update_self 0 (root : Int) s.path⟩
  have hLoop := rootLoop_outcome hWf hLt (fun j hMem => adj_lt hMem) hAt h
  exact ⟨hLoop.quiet, hLoop.report⟩

/-- The loop of `check_dead_lock`, which stops behind a root with a report. -/
theorem checkLoop_outcome (hWf : g.WellFormed) (hZero : s.deadlock ≠ 1) {roots : List Nat}
    (hRoots : ∀ i ∈ roots, i < g.vertexNum) (hBefore : Outcome g s t met)
    (h : roots.foldlM g.checkRound t = some u) :
    Outcome g s u (met.or (roots.findSome? g.rootMeeting)) := by
  induction roots generalizing t met with
  | nil =>
      obtain rfl : t = u := by simpa using h
      rwa [List.findSome?_nil, Option.or_none]
  | cons i roots ih =>
      obtain ⟨v, hRound, hRest⟩ := foldlM_cons_eq_some.mp h
      have hTail : ∀ j ∈ roots, j < g.vertexNum :=
        fun j hMem => hRoots j (List.mem_cons_of_mem i hMem)
      by_cases hSet : t.deadlock = 1
      · obtain rfl := checkRound_deadlock hRound hSet
        -- the report was one of the earlier roots'
        cases met with
        | none => exact absurd ((hBefore.quiet rfl).1.symm.trans hSet) hZero
        | some w =>
            have hDone := ih hTail hBefore hRest
            rw [Option.some_or] at hDone ⊢
            exact hDone
      · unfold checkRound at hRound
        rw [if_neg hSet] at hRound
        have hRoot := searchForCycle_outcome hWf (hRoots i List.mem_cons_self) hRound
        have hDone := ih hTail (hBefore.or hRoot) hRest
        rw [Option.or_assoc] at hDone
        rw [List.findSome?_cons]
        cases hMet : g.rootMeeting i with
        | none =>
            rw [hMet, Option.none_or] at hDone
            exact hDone
        | some w =>
            rw [hMet, Option.some_or] at hDone
            exact hDone

/-- **The check up to its first report.** -/
theorem checkDeadLock_outcome (hWf : g.WellFormed) (h : g.checkDeadLock s = some s') :
    Outcome g { s with deadlock := 0 } s' g.meeting := by
  rw [checkDeadLock_eq] at h
  have hLoop := checkLoop_outcome hWf (s := { s with deadlock := 0 }) (by simp)
    (fun i hMem => List.mem_range.mp hMem) (Outcome.refl g _) h
  rwa [Option.none_or] at hLoop

/-! ## Sound reports -/

/-- The last entry occurs earlier. -/
def ClosesOnItself (printed : List Nat) : Prop :=
  ∃ front last, printed = front ++ [last] ∧ last ∈ front

/-- If a check reports, there is a cycle, and the first line it prints closes on
itself. -/
def ReportsSoundly (g : Digraph) (s : Search) : Prop :=
  ∀ s', g.checkDeadLock s = some s' → s'.deadlock = 1 →
    g.HasCycle ∧ ∃ first rest, s'.printed = s.printed ++ first :: rest ∧ ClosesOnItself first

/-- Every vertex on a walk leads to its last one, and the root is on it. -/
theorem walksOver_leads {root i : Nat} (hLt : root < g.vertexNum) (hStep : i ∈ g.adj root)
    {w : Walk Nat} (hMem : w ∈ g.walksOver root i) :
    w.last < g.vertexNum ∧ (∀ i ∈ w.front, i < g.vertexNum ∧ TransGen g.Edge i w.last) ∧
      root ∈ w.front := by
  have hLeads := transGen_of_mem_walks (R := g.Edge) (D := fun i => i < g.vertexNum)
    (fun v j hV hAdj => ⟨⟨hV, hAdj⟩, adj_lt hAdj⟩) _ [root] i (adj_lt hStep) (by
      intro u hU
      rw [List.mem_singleton.mp hU]
      exact ⟨hLt, TransGen.single ⟨hLt, hStep⟩⟩) w hMem
  exact ⟨hLeads.1, hLeads.2,
    front_subset_of_mem_walks _ [root] i w hMem (List.mem_singleton_self root)⟩

theorem meeting_leads {w : Walk Nat} (h : g.meeting = some w) :
    w.last < g.vertexNum ∧ ∀ i ∈ w.front, i < g.vertexNum ∧ TransGen g.Edge i w.last := by
  obtain ⟨root, hRoot, hMet⟩ := List.exists_of_findSome?_eq_some h
  obtain ⟨i, hStep, hFirst⟩ := List.exists_of_findSome?_eq_some hMet
  obtain ⟨hLast, hFront, -⟩ :=
    walksOver_leads (List.mem_range.mp hRoot) hStep (mem_of_firstMeeting hFirst)
  exact ⟨hLast, hFront⟩

theorem closesOnItself_iff (hBuilt : g.Built) {w : Walk Nat} (hMet : g.meeting = some w) :
    ClosesOnItself (g.line w.points) ↔ w.Closes := by
  obtain ⟨hLast, hFront⟩ := meeting_leads hMet
  have hLine : g.line w.points = g.line w.front ++ [(g.vertexList w.last).pair.thId] := by
    simp [line, Walk.points]
  constructor
  · rintro ⟨front, last, hSplit, hMem⟩
    rw [hLine] at hSplit
    obtain ⟨rfl, hSame⟩ := List.append_inj' hSplit rfl
    obtain rfl := List.singleton_inj.mp hSame
    obtain ⟨i, hIn, hThread⟩ := List.mem_map.mp hMem
    -- two vertices of type `PROCESS` have different `th_id`s
    obtain rfl := hBuilt.index_eq (hFront i hIn).1 hLast hThread
    exact hIn
  · intro hCloses
    exact ⟨_, _, hLine, List.mem_map.mpr ⟨w.last, hCloses, rfl⟩⟩

/-! ## The meeting in terms of ways -/

/-- A way that a search goes along and that ends at its root, or where an earlier
one over the same edge has ended. -/
def Meets (g : Digraph) (root k : Nat) (ks : List Nat) : Prop :=
  ks.length ≤ g.vertexNum ∧ ∃ u, follow g.adj root (k :: ks) = some u ∧
    (u = root ∨ ∃ ls, Before ls ks ∧ ls.length ≤ g.vertexNum ∧
      follow g.adj root (k :: ls) = some u)

theorem follow_cons {root k i : Nat} {ks : List Nat} (hEdge : (g.adj root)[k]? = some i) :
    follow g.adj root (k :: ks) = follow g.adj i ks := by
  rw [follow, hEdge]
  rfl

theorem not_meets_of_quiet {root k i : Nat} {ks : List Nat} {kss : List (List Nat)}
    (hEdge : (g.adj root)[k]? = some i) (hQuiet : Quiet g.adj {root} i kss)
    (hMem : ∀ ls ∈ ways g.adj (g.vertexNum + 1) i, ls = ks ∨ Before ls ks → ls ∈ kss) :
    ¬ g.Meets root k ks := by
  rintro ⟨hShort, u, hEnd, hMeets⟩
  rw [follow_cons hEdge] at hEnd
  have hWay : ∀ ls, ls.length ≤ g.vertexNum → follow g.adj i ls = some u →
      ls ∈ ways g.adj (g.vertexNum + 1) i :=
    fun ls hLength hFollow => mem_ways.mpr ⟨Nat.lt_succ_of_le hLength, u, hFollow⟩
  obtain ⟨hNew, hFree⟩ := hQuiet ks (hMem ks (hWay ks hShort hEnd) (.inl rfl)) u hEnd
  rcases hMeets with rfl | ⟨ls, hBefore, hLength, hSame⟩
  · exact hNew (Finset.mem_singleton_self u)
  · rw [follow_cons hEdge] at hSame
    exact hFree ls (hMem ls (hWay ls hLength hSame) (.inr hBefore)) hBefore hSame

theorem walksOver_quiet {root k i : Nat} (hEdge : (g.adj root)[k]? = some i) :
    firstMeeting {root} (g.walksOver root i) = none ↔ ∀ ks, ¬ g.Meets root k ks := by
  rw [walksOver, firstMeeting_walks_eq_none]
  constructor
  · intro hQuiet ks
    exact not_meets_of_quiet hEdge hQuiet fun ls hWay _ => hWay
  · intro hNone ks hWay u hEnd
    have hShort : ∀ ls ∈ ways g.adj (g.vertexNum + 1) i, ls.length ≤ g.vertexNum :=
      fun ls hMem => Nat.le_of_lt_succ (mem_ways.mp hMem).1
    rw [← follow_cons hEdge] at hEnd
    constructor
    · intro hRoot
      exact hNone ks ⟨hShort ks hWay, u, hEnd, .inl (Finset.mem_singleton.mp hRoot)⟩
    · intro ls hWay' hBefore hSame
      rw [← follow_cons hEdge] at hSame
      exact hNone ks ⟨hShort ks hWay, u, hEnd, .inr ⟨ls, hBefore, hShort ls hWay', hSame⟩⟩

theorem rootMeeting_eq_none_iff {root : Nat} :
    g.rootMeeting root = none ↔ ∀ k ks, ¬ g.Meets root k ks := by
  rw [rootMeeting, List.findSome?_eq_none_iff]
  constructor
  · intro hQuiet k ks hMeets
    obtain ⟨-, u, hEnd, -⟩ := id hMeets
    obtain ⟨i, hEdge, -⟩ := Option.bind_eq_some_iff.mp hEnd
    exact (walksOver_quiet hEdge).mp (hQuiet i (List.mem_of_getElem? hEdge)) ks hMeets
  · intro hNone i hMem
    obtain ⟨k, hEdge⟩ := List.getElem?_of_mem hMem
    exact (walksOver_quiet hEdge).mpr (hNone k)

theorem meeting_eq_none_iff :
    g.meeting = none ↔ ∀ root < g.vertexNum, ∀ k ks, ¬ g.Meets root k ks := by
  simp only [meeting, List.findSome?_eq_none_iff, List.mem_range, rootMeeting_eq_none_iff]

theorem exists_way_of_rootMeeting {root : Nat} {w : Walk Nat} (h : g.rootMeeting root = some w) :
    ∃ k ks, walkAt g.adj [] root (k :: ks) = some w ∧
      (w.last = root ∨ ∃ ls, Before ls ks ∧ follow g.adj root (k :: ls) = some w.last) ∧
      ∀ k' ks', Before (k' :: ks') (k :: ks) → ¬ g.Meets root k' ks' := by
  obtain ⟨before, i, after, hAdj, hFirst, hQuiet⟩ := List.findSome?_eq_some_iff.mp h
  have hEdge : (g.adj root)[before.length]? = some i := by simp [hAdj]
  obtain ⟨ks, -, hWalk, hMeets, hEarlier⟩ := exists_way_of_firstMeeting hFirst
  refine ⟨before.length, ks, ?_, ?_, fun k' ks' hBefore => ?_⟩
  · rw [walkAt, hEdge]
    exact hWalk
  · rcases hMeets with hRoot | ⟨ls, hBefore, hEnd⟩
    · exact .inl (Finset.mem_singleton.mp hRoot)
    · exact .inr ⟨ls, hBefore, by rw [follow_cons hEdge, hEnd]⟩
  · cases hBefore with
    | rel hLt =>
        -- over an earlier edge of the root
        have hEdge' : (g.adj root)[k']? = some before[k'] := by
          rw [hAdj, List.getElem?_append_left hLt, List.getElem?_eq_getElem hLt]
        exact (walksOver_quiet hEdge').mp (hQuiet _ (List.getElem_mem hLt)) ks'
    | cons hBefore =>
        refine not_meets_of_quiet hEdge hEarlier fun ls hWay hLs => ?_
        refine List.mem_filter.mpr ⟨hWay, decide_eq_true ?_⟩
        rcases hLs with rfl | hLs
        · exact hBefore
        · exact hLs.trans hBefore

/-- The first walk that meets goes along the first way that does. -/
theorem exists_way_of_meeting {w : Walk Nat} (h : g.meeting = some w) :
    ∃ root k ks, root < g.vertexNum ∧ walkAt g.adj [] root (k :: ks) = some w ∧
      (w.last = root ∨ ∃ ls, Before ls ks ∧ follow g.adj root (k :: ls) = some w.last) ∧
      ∀ root' k' ks', Before (root' :: k' :: ks') (root :: k :: ks) →
        ¬ g.Meets root' k' ks' := by
  obtain ⟨before, root, after, hRange, hFirst, hQuiet⟩ := List.findSome?_eq_some_iff.mp h
  have hLength : root < g.vertexNum := List.mem_range.mp (by simp [hRange])
  obtain ⟨k, ks, hWalk, hMeets, hEarlier⟩ := exists_way_of_rootMeeting hFirst
  refine ⟨root, k, ks, hLength, hWalk, hMeets, fun root' k' ks' hBefore => ?_⟩
  cases hBefore with
  | rel hLt =>
      -- from an earlier root
      have hMem : root' ∈ List.range g.vertexNum := List.mem_range.mpr (by omega)
      have hSorted : (before ++ root :: after).Pairwise (· < ·) :=
        hRange ▸ List.pairwise_lt_range
      rw [hRange, List.mem_append, List.mem_cons] at hMem
      rw [List.pairwise_append, List.pairwise_cons] at hSorted
      rcases hMem with hMem | rfl | hMem
      · exact rootMeeting_eq_none_iff.mp (hQuiet root' hMem) k' ks'
      · exact absurd hLt (Nat.lt_irrefl root')
      · exact absurd hLt (Nat.lt_asymm (hSorted.2.1.1 root' hMem))
  | cons hBefore => exact hEarlier k' ks' hBefore

/-! ## When a report is sound -/

/-- A way that comes back begins with one that a search would go along and that
meets. -/
theorem exists_meets_of_comesBack {root : Nat} {ks : List Nat} (hLt : root < g.vertexNum)
    (h : ComesBack g.adj root ks) : ∃ m k ls, ks.take m = k :: ls ∧
      ComesBack g.adj root (k :: ls) ∧ g.Meets root k ls := by
  obtain ⟨m, hLength, hBack⟩ : ∃ m, (ks.take m).length ≤ g.vertexNum + 1 ∧
      ComesBack g.adj root (ks.take m) := by
    rcases Nat.lt_or_ge ks.length g.vertexNum with hShort | hLong
    · exact ⟨ks.length, by rw [List.length_take]; omega, by rwa [List.take_length]⟩
    · obtain ⟨-, -, u, -, hEnd⟩ := h
      obtain ⟨m, hLe, hBack⟩ := exists_comesBack (s := Finset.range g.vertexNum)
        (fun v j _ hMem => Finset.mem_range.mpr (adj_lt hMem)) (Finset.mem_range.mpr hLt) hEnd
        (by rwa [Finset.card_range])
      rw [Finset.card_range] at hLe
      exact ⟨m, by rw [List.length_take]; omega, hBack⟩
  refine ⟨m, ?_⟩
  generalize ks.take m = ks at hLength hBack
  cases ks with
  | nil =>
      obtain ⟨n, hN, -⟩ := hBack
      exact absurd hN (Nat.not_lt_zero n)
  | cons k ls =>
      refine ⟨k, ls, rfl, hBack, Nat.le_of_succ_le_succ hLength, ?_⟩
      obtain ⟨n, hN, u, hTake, hEnd⟩ := hBack
      refine ⟨u, hEnd, ?_⟩
      cases n with
      | zero => exact .inl (Option.some.inj hTake).symm
      | succ n =>
          rw [List.take_succ_cons] at hTake
          have hBefore := before_take (Nat.lt_of_succ_lt_succ hN)
          refine .inr ⟨ls.take n, hBefore, ?_, hTake⟩
          rw [List.length_take]
          exact (Nat.min_le_right n ls.length).trans (Nat.le_of_succ_le_succ hLength)

/-- The way that comes back may be taken short. -/
theorem ComesBackInTime.of_long {root k : Nat} {ls ks : List Nat} {v : Nat}
    (hLt : root < g.vertexNum) (hLs : ls = ks ∨ Before ls ks)
    (hEnd : follow g.adj root (k :: ls) = some v) (hLong : g.vertexNum < ls.length) :
    ∃ root' ms, (root' :: ms = root :: k :: ks ∨ Before (root' :: ms) (root :: k :: ks)) ∧
      ComesBack g.adj root' ms := by
  obtain ⟨m, -, hBack⟩ := exists_comesBack (s := Finset.range g.vertexNum)
    (fun v j _ hMem => Finset.mem_range.mpr (adj_lt hMem)) (Finset.mem_range.mpr hLt) hEnd
    (by rw [Finset.card_range, List.length_cons]; omega)
  refine ⟨root, (k :: ls).take m, ?_, hBack⟩
  have hBegins := take_eq_or_before (k :: ls) m
  rcases hLs with rfl | hLs
  · exact hBegins.imp (fun hSame => by rw [hSame]) .cons
  · right
    rcases hBegins with hSame | hBegins
    · rw [hSame]
      exact .cons (.cons hLs)
    · exact Before.trans (.cons hBegins) (.cons (.cons hLs))

/-- **The first walk that meets comes back to one of its own vertices** exactly
on the graphs that meet the condition. -/
theorem meeting_closes_iff : (∀ w, g.meeting = some w → w.Closes) ↔ g.ComesBackInTime := by
  constructor
  · intro hCloses root hLt k ls ks v hBefore hEnd hEnd'
    by_cases hLong : g.vertexNum < ks.length
    · exact ComesBackInTime.of_long hLt (.inl rfl) hEnd' hLong
    by_cases hLong' : g.vertexNum < ls.length
    · exact ComesBackInTime.of_long hLt (.inr hBefore) hEnd hLong'
    have hMeets : g.Meets root k ks := by
      exact ⟨by omega, v, hEnd', .inr ⟨ls, hBefore, by omega, hEnd⟩⟩
    -- so there is a first walk that meets, and this way is not in front of it
    cases hMet : g.meeting with
    | none => exact absurd hMeets (meeting_eq_none_iff.mp hMet root hLt k ks)
    | some w =>
        obtain ⟨root₀, k₀, ks₀, -, hWalk, -, hFirst⟩ := exists_way_of_meeting hMet
        refine ⟨root₀, k₀ :: ks₀, ?_, (closes_walkAt_iff hWalk).mp (hCloses w hMet)⟩
        rcases trichotomous_of (List.Lex (· < ·)) (root₀ :: k₀ :: ks₀) (root :: k :: ks) with
          hLater | hSame | hEarlier
        · exact .inr hLater
        · exact .inl hSame
        · exact absurd hMeets (hFirst root k ks hEarlier)
  · intro hInTime w hMet
    obtain ⟨root, k, ks, hLt, hWalk, hMeets, hFirst⟩ := exists_way_of_meeting hMet
    rw [closes_walkAt_iff hWalk]
    have hEnd : follow g.adj root (k :: ks) = some w.last := follow_of_walkAt hWalk
    rcases hMeets with hRoot | ⟨ls, hBefore, hEnd'⟩
    · exact ⟨0, Nat.succ_pos _, w.last, by rw [hRoot]; rfl, hEnd⟩
    obtain ⟨root', ms, hOrder, hBack⟩ := hInTime root hLt k ls ks w.last hBefore hEnd' hEnd
    have hLt' : root' < g.vertexNum := by
      rcases hOrder with hSame | hEarlier
      · rwa [(List.cons.inj hSame).1]
      · cases hEarlier with
        | rel hRoots => exact Nat.lt_trans hRoots hLt
        | cons => exact hLt
    obtain ⟨m, k', ls', hTake, hBack', hMeets'⟩ := exists_meets_of_comesBack hLt' hBack
    -- nothing meets before the first meeting, so the way that comes back is this one
    have hBegins : root' :: k' :: ls' = root' :: ms ∨
        Before (root' :: k' :: ls') (root' :: ms) := by
      rw [← hTake]
      exact (take_eq_or_before ms m).imp (congrArg _) .cons
    have hNot := hFirst root' k' ls'
    rcases hBegins with hSame | hBegins
    · rcases hOrder with hSame' | hEarlier
      · obtain ⟨rfl, hWay⟩ := List.cons.inj (hSame.trans hSame')
        rwa [← hWay]
      · exact absurd hMeets' (hNot (hSame ▸ hEarlier))
    · rcases hOrder with hSame' | hEarlier
      · exact absurd hMeets' (hNot (hSame' ▸ hBegins))
      · exact absurd hMeets' (hNot (hBegins.trans hEarlier))

/-- **A report is sound exactly if** wherever two ways over one edge of a vertex
end in the same vertex, a way that comes back to a vertex it has passed is not
later than both. -/
theorem built_report_sound_exactly (hBuilt : g.Built) (s : Search) :
    g.ReportsSoundly s ↔ g.ComesBackInTime := by
  have hWf := hBuilt.wellFormed
  rw [← meeting_closes_iff]
  constructor
  · intro hSound w hMet
    obtain ⟨s', hCheck⟩ := checkDeadLock_returns hWf s
    obtain ⟨hVerdict, hPrinted⟩ := (checkDeadLock_outcome hWf hCheck).report w hMet
    obtain ⟨-, first, rest, hLines, hCloses⟩ := hSound s' hCheck hVerdict
    obtain ⟨more, hMore⟩ := hPrinted
    have hSame : g.line w.points :: more = first :: rest := by
      have hAll : s.printed ++ (g.line w.points :: more) = s.printed ++ first :: rest := by
        rw [← hLines, ← hMore]
        simp
      exact List.append_cancel_left hAll
    obtain ⟨rfl, -⟩ := List.cons.inj hSame
    exact (closesOnItself_iff hBuilt hMet).mp hCloses
  · intro hMeeting s' hCheck hVerdict
    have hOutcome := checkDeadLock_outcome hWf hCheck
    cases hMet : g.meeting with
    | none =>
        have hZero : s'.deadlock = 0 := (hOutcome.quiet hMet).1
        omega
    | some w =>
        have hCloses := hMeeting w hMet
        obtain ⟨more, hMore⟩ := (hOutcome.report w hMet).2
        refine ⟨hWf.hasCycle_iff.mpr ⟨w.last, ((meeting_leads hMet).2 w.last hCloses).2⟩, ?_⟩
        refine ⟨g.line w.points, more, ?_, (closesOnItself_iff hBuilt hMet).mpr hCloses⟩
        rw [← hMore]
        simp

/-- Two vertices that point to each other, the second also to a third: the walk
over both edges comes back to the root. -/
theorem built_report_sound_exactly_two :
    ∃ g : Digraph, g.Built ∧ g.ComesBackInTime ∧ g.ReportsSoundly usedSearch ∧ g.HasCycle := by
  have hRun : ((run (guarded GraphCall.run fun _ call => call.OnProcesses)
      (empty fun _ => ⟨⟨9, .process⟩, []⟩)
      [.addEdge ⟨1, .process⟩ ⟨2, .process⟩, .addEdge ⟨2, .process⟩ ⟨3, .process⟩,
        .addEdge ⟨2, .process⟩ ⟨1, .process⟩]).map fun g =>
        decide (g.meeting = some ⟨[0, 1], 0⟩ ∧
          g.Points ⟨1, .process⟩ ⟨2, .process⟩ ∧ g.Points ⟨2, .process⟩ ⟨1, .process⟩)) =
      some true := by decide
  obtain ⟨g, hG, hTest⟩ := Option.map_eq_some_iff.mp hRun
  obtain ⟨hMet, hThere, hBack⟩ := of_decide_eq_true hTest
  have hBuilt : g.Built := ⟨_, reach_of_run_guarded hG⟩
  have hInTime : g.ComesBackInTime := by
    refine meeting_closes_iff.mp fun w hSome => ?_
    rw [hMet, Option.some.injEq] at hSome
    rw [← hSome]
    decide
  exact ⟨g, hBuilt, hInTime, (built_report_sound_exactly hBuilt usedSearch).mpr hInTime,
    ⟨_, TransGen.tail (TransGen.single hThere) hBack⟩⟩

/-- A diamond below an edge: two ways lead to the fourth vertex, none of them
back, and the second one is reported. -/
theorem diamond_reported :
    ∃ g : Digraph, g.Built ∧ ¬ g.HasCycle ∧
      ∃ s', g.checkDeadLock usedSearch = some s' ∧ s'.deadlock = 1 ∧
        s'.printed = [[1, 2, 4, 5]] := by
  have hRun : ((run (guarded GraphCall.run fun _ call => call.OnProcesses)
      (empty fun _ => ⟨⟨9, .process⟩, []⟩)
      [.addEdge ⟨1, .process⟩ ⟨2, .process⟩, .addEdge ⟨2, .process⟩ ⟨3, .process⟩,
        .addEdge ⟨2, .process⟩ ⟨4, .process⟩, .addEdge ⟨3, .process⟩ ⟨5, .process⟩,
        .addEdge ⟨4, .process⟩ ⟨5, .process⟩]).map fun g =>
        decide ((∀ i < g.vertexNum, ∀ j ∈ g.adj i, i < j) ∧
          (g.checkDeadLock usedSearch).map (fun s => (s.deadlock, s.printed)) =
            some (1, [[1, 2, 4, 5]]))) = some true := by decide
  obtain ⟨g, hG, hTest⟩ := Option.map_eq_some_iff.mp hRun
  obtain ⟨hUp, hCheck⟩ := of_decide_eq_true hTest
  have hBuilt : g.Built := ⟨_, reach_of_run_guarded hG⟩
  obtain ⟨s', hRun, hEnd⟩ := Option.map_eq_some_iff.mp hCheck
  obtain ⟨hVerdict, hPrinted⟩ := Prod.mk.inj hEnd
  refine ⟨g, hBuilt, fun hCycle => ?_, s', hRun, hVerdict, hPrinted⟩
  -- every edge leads to a later index
  obtain ⟨i, hIndices⟩ := hBuilt.wellFormed.hasCycle_iff.mp hCycle
  have hLater : ∀ j, TransGen g.Edge i j → i < j := by
    intro j hChain
    induction hChain with
    | single hEdge => exact hUp _ hEdge.1 _ hEdge.2
    | tail _ hEdge ih => exact Nat.lt_trans ih (hUp _ hEdge.1 _ hEdge.2)
  exact Nat.lt_irrefl i (hLater i hIndices)

/-- Without a cycle no way comes back: a report is always wrong, and there is one
as soon as two ways over one edge of a vertex end in the same vertex. -/
theorem acyclic_comesBackInTime_iff (hWf : g.WellFormed) (hAcyclic : ¬ g.HasCycle) :
    g.ComesBackInTime ↔ ∀ root < g.vertexNum, ∀ (k : Nat) (ls ks : List Nat) (v : Nat),
      Before ls ks → follow g.adj root (k :: ls) = some v →
        follow g.adj root (k :: ks) ≠ some v := by
  have hNever : ∀ root < g.vertexNum, ∀ ms, ¬ ComesBack g.adj root ms := by
    intro root hLt ms hBack
    obtain ⟨u, -, hCircle⟩ := hBack.transGen (R := g.Edge) (D := fun v => v < g.vertexNum)
      (fun v j hV hMem => ⟨⟨hV, hMem⟩, adj_lt hMem⟩) hLt
    exact hAcyclic (hWf.hasCycle_iff.mpr ⟨u, hCircle⟩)
  constructor
  · intro hInTime root hLt k ls ks v hBefore hEnd hEnd'
    obtain ⟨root', ms, hOrder, hBack⟩ := hInTime root hLt k ls ks v hBefore hEnd hEnd'
    refine hNever root' ?_ ms hBack
    rcases hOrder with hSame | hEarlier
    · rwa [(List.cons.inj hSame).1]
    · cases hEarlier with
      | rel hRoots => exact Nat.lt_trans hRoots hLt
      | cons => exact hLt
  · intro hDistinct root hLt k ls ks v hBefore hEnd hEnd'
    exact absurd hEnd' (hDistinct root hLt k ls ks v hBefore hEnd)

end Digraph

end DeadlockCheck
end LinuxCppLearn
