import Mathlib.Data.Finset.Basic
import LinuxCppLearn.DeadlockCheck.BuiltGraph

/-!
# The lists as a set of edges

An edge is inserted when `verify_edge` does not find it, and deleted when it
does, as the hooks do it; the set of the edges inserted and not deleted since is
kept beside the graph as a history.  `verify_edge` starts at the vertex itself
and compares `th_id` only, so it also finds a vertex in its own list, and an
edge to the pair with the same `th_id` and the other type.

* `EdgeCall` — the calls; `AnswersFor` — `verify_edge` says whether the edge is
  in the set.
* `verifyEdge_same`, `verifyEdge_other` — what `verify_edge` says about a pair
  with one `th_id` and about another one.
* `Edited` — what a call does.
* `LeavesAlone` — a call that does not bring the answer for a pair out of step.
* `verify_edge_exact_exactly` — the answer for a pair is right in a whole run if
  and only if all calls are of this kind.
-/

namespace LinuxCppLearn
namespace DeadlockCheck

open StepSystem

/-- A call that edits the graph, behind its test. -/
inductive EdgeCall
  | addVertex (pair : Pair)
  | insert (u v : Pair)
  | delete (u v : Pair)
deriving DecidableEq, Repr

/-- The edges inserted and not deleted since. -/
abbrev EdgeSet := Finset (Pair × Pair)

namespace EdgeCall

/-- `none` where `verify_edge` forbids the call, and where it leaves the array. -/
def run (g : Digraph) : EdgeCall → Option Digraph
  | addVertex pair => g.addVertex pair
  | insert u v => if g.verifyEdge u v then none else g.addEdge u v
  | delete u v => if g.verifyEdge u v then some (g.removeEdge u v) else none

def record (edges : EdgeSet) : EdgeCall → EdgeSet
  | addVertex _ => edges
  | insert u v => Insert.insert (u, v) edges
  | delete u v => edges.erase (u, v)

/-- The edge it inserts or deletes. -/
def edge : EdgeCall → Option (Pair × Pair)
  | addVertex _ => none
  | insert u v | delete u v => some (u, v)

/-- A call, with the set as a history. -/
def step : Digraph × EdgeSet → EdgeCall → Option (Digraph × EdgeSet) :=
  withHistory run fun _ edges call => call.record edges

end EdgeCall

namespace Digraph

/-- `verify_edge` says of the pair whether its edge is in the set. -/
def AnswersFor (u v : Pair) (s : Digraph × EdgeSet) : Prop :=
  s.1.verifyEdge u v = true ↔ (u, v) ∈ s.2

instance (u v : Pair) (s : Digraph × EdgeSet) : Decidable (AnswersFor u v s) :=
  inferInstanceAs (Decidable (_ ↔ _))

/-- For a pair with one `th_id`: its vertex appears with the edge, and the edge
stays.  For another pair: its source gets and loses no edge to the pair with the
`th_id` of the target and the other type. -/
def LeavesAlone (u v : Pair) (g : Digraph) : EdgeCall → Prop
  | .addVertex pair => u.thId = v.thId → pair = u → g.IsVertex u
  | .insert a b =>
      if u.thId = v.thId then a = u ∨ b = u → g.IsVertex u ∨ (a = u ∧ b = v)
      else a = u → b.thId = v.thId → b = v
  | .delete a b =>
      if u.thId = v.thId then ¬ (a = u ∧ b = v)
      else a = u → b.thId = v.thId → b = v ∨ ¬ g.IsVertex b

/-- What holds behind all calls: the targets of a vertex have different
`th_id`s, and the edges in the set end in vertices. -/
structure EdgeInv (s : Digraph × EdgeSet) : Prop where
  wellFormed : s.1.WellFormed
  distinct : ∀ u, ((s.1.succ u).map Pair.thId).Nodup
  target : ∀ u v, (u, v) ∈ s.2 → s.1.IsVertex v

variable {g g' : Digraph} {edges : EdgeSet} {u v a b : Pair}

/-! ## What `verify_edge` says -/

/-- A target of `u` has the `th_id` of `v`. -/
def LeadsTo (g : Digraph) (u v : Pair) : Prop :=
  ∃ q ∈ g.succ u, q.thId = v.thId

theorem verifyEdge_same (hSame : u.thId = v.thId) : g.verifyEdge u v = true ↔ g.IsVertex u := by
  rw [verifyEdge_eq_true]
  exact and_iff_left (.inl hSame)

theorem verifyEdge_other (hNe : u.thId ≠ v.thId) :
    g.verifyEdge u v = true ↔ g.LeadsTo u v := by
  rw [verifyEdge_eq_true]
  constructor
  · rintro ⟨-, hSame | hLeads⟩
    · exact absurd hSame hNe
    · exact hLeads
  · intro hLeads
    refine ⟨?_, .inr hLeads⟩
    by_contra hNot
    obtain ⟨q, hMem, -⟩ := hLeads
    rw [succ_of_not_isVertex hNot] at hMem
    simp at hMem

/-- Only the `th_id` of the target counts. -/
theorem verifyEdge_congr (hSame : b.thId = v.thId) : g.verifyEdge u b = g.verifyEdge u v := by
  unfold verifyEdge
  rw [hSame]

/-- Taking away the first target with an id takes away the only one. -/
theorem mem_eraseP_iff {l : List Pair} (hDistinct : (l.map Pair.thId).Nodup) {n m : Nat} :
    (∃ q ∈ l.eraseP (fun p => p.thId = n), q.thId = m) ↔ (∃ q ∈ l, q.thId = m) ∧ m ≠ n := by
  induction l with
  | nil => simp
  | cons p l ih =>
      rw [List.map_cons, List.nodup_cons] at hDistinct
      obtain ⟨hNew, hRest⟩ := hDistinct
      by_cases hHere : p.thId = n
      · rw [List.eraseP_cons_of_pos (by simpa using hHere)]
        constructor
        · rintro ⟨q, hMem, hId⟩
          refine ⟨⟨q, List.mem_cons_of_mem _ hMem, hId⟩, ?_⟩
          rintro rfl
          exact hNew (List.mem_map.mpr ⟨q, hMem, hId.trans hHere.symm⟩)
        · rintro ⟨⟨q, hMem, hId⟩, hNe⟩
          rcases List.mem_cons.mp hMem with rfl | hTail
          · exact absurd (hId.symm.trans hHere) hNe
          · exact ⟨q, hTail, hId⟩
      · rw [List.eraseP_cons_of_neg (by simpa using hHere)]
        simp only [List.exists_mem_cons_iff, ih hRest]
        constructor
        · rintro (rfl | ⟨hLater, hNe⟩)
          · exact ⟨.inl rfl, hHere⟩
          · exact ⟨.inr hLater, hNe⟩
        · rintro ⟨rfl | hLater, hNe⟩
          · exact .inl rfl
          · exact .inr ⟨hLater, hNe⟩

/-! ## What a call does -/

/-- What a call has done to the graph. -/
inductive Edited (g : Digraph) : EdgeCall → Digraph → Prop
  | addVertex {pair : Pair} {g' : Digraph} (hWf : g'.WellFormed)
      (hSucc : ∀ q, g'.succ q = g.succ q)
      (hVertex : ∀ q, g'.IsVertex q ↔ g.IsVertex q ∨ q = pair) : Edited g (.addVertex pair) g'
  | insert {a b : Pair} {g' : Digraph} (hTest : ¬ g.verifyEdge a b = true) (hWf : g'.WellFormed)
      (hSucc : ∀ q, g'.succ q = if q = a then g.succ a ++ [b] else g.succ q)
      (hVertex : ∀ q, g'.IsVertex q ↔ g.IsVertex q ∨ q = a ∨ q = b) :
      Edited g (.insert a b) g'
  | delete {a b : Pair} {g' : Digraph} (hTest : g.verifyEdge a b = true) (hWf : g'.WellFormed)
      (hSucc : ∀ q, g'.succ q =
        if q = a ∧ g.IsVertex b then (g.succ a).eraseP (fun p => p.thId = b.thId) else g.succ q)
      (hVertex : ∀ q, g'.IsVertex q ↔ g.IsVertex q) : Edited g (.delete a b) g'

theorem edited_of_run {call : EdgeCall} (hWf : g.WellFormed) (h : call.run g = some g') :
    Edited g call g' := by
  cases call with
  | addVertex pair =>
      obtain ⟨hWf', hSucc, hVertex⟩ := addVertex_spec hWf h
      exact .addVertex hWf' hSucc hVertex
  | insert a b =>
      rw [EdgeCall.run] at h
      split at h
      · simp at h
      · rename_i hTest
        obtain ⟨hWf', hSucc, hVertex⟩ := addEdge_spec hWf h
        exact .insert hTest hWf' hSucc hVertex
  | delete a b =>
      rw [EdgeCall.run] at h
      split at h
      · rename_i hTest
        obtain rfl : g.removeEdge a b = g' := Option.some.inj h
        by_cases hB : g.IsVertex b
        · obtain ⟨hWf', hSucc, hVertex⟩ :=
            removeEdge_spec hWf (verifyEdge_eq_true.mp hTest).1 hB
          refine .delete hTest hWf' (fun q => ?_) hVertex
          rw [hSucc]
          simp only [hB, and_true]
        · rw [removeEdge_of_not_isVertex hB]
          refine .delete hTest hWf (fun q => ?_) fun q => Iff.rfl
          rw [if_neg fun hBoth => hB hBoth.2]
      · simp at h

/-- Behind a failed test there is no target with the id. -/
theorem not_leadsTo_of_test (hTest : ¬ g.verifyEdge a b = true) : ¬ g.LeadsTo a b := by
  rintro ⟨q, hMem, hId⟩
  apply hTest
  rw [verifyEdge_eq_true]
  refine ⟨?_, .inr ⟨q, hMem, hId⟩⟩
  by_contra hNot
  rw [succ_of_not_isVertex hNot] at hMem
  simp at hMem

theorem EdgeInv.step {call : EdgeCall} (h : EdgeInv (g, edges)) (hEdit : Edited g call g') :
    EdgeInv (g', call.record edges) := by
  cases hEdit with
  | addVertex hWf hSucc hVertex =>
      refine ⟨hWf, fun u => ?_, fun u v hMem => (hVertex v).mpr (.inl (h.target u v hMem))⟩
      show ((g'.succ u).map Pair.thId).Nodup
      rw [hSucc]
      exact h.distinct u
  | @insert a b _ hTest hWf hSucc hVertex =>
      refine ⟨hWf, fun u => ?_, fun u v hMem => (hVertex v).mpr ?_⟩
      · show ((g'.succ u).map Pair.thId).Nodup
        rw [hSucc]
        split
        · rw [List.map_append, List.map_singleton, List.nodup_append]
          refine ⟨h.distinct a, List.nodup_singleton _, ?_⟩
          intro n hOld m hNew hSame
          obtain ⟨q, hMem, rfl⟩ := List.mem_map.mp hOld
          rw [List.mem_singleton.mp hNew] at hSame
          exact not_leadsTo_of_test hTest ⟨q, hMem, hSame⟩
        · exact h.distinct u
      · rcases Finset.mem_insert.mp hMem with hNew | hOld
        · exact .inr (.inr (congrArg Prod.snd hNew))
        · exact .inl (h.target u v hOld)
  | @delete a b _ hTest hWf hSucc hVertex =>
      refine ⟨hWf, fun u => ?_, fun u v hMem => (hVertex v).mpr ?_⟩
      · show ((g'.succ u).map Pair.thId).Nodup
        rw [hSucc]
        split
        · exact (h.distinct a).sublist (List.eraseP_sublist.map Pair.thId)
        · exact h.distinct u
      · exact h.target u v (Finset.mem_of_mem_erase hMem)

/-! ## The answer for one pair -/

/-- A pair with one `th_id`: the answer is whether there is a vertex. -/
theorem answers_same {call : EdgeCall} (hSame : u.thId = v.thId)
    (hAnswers : AnswersFor u v (g, edges)) (hEdit : Edited g call g') :
    AnswersFor u v (g', call.record edges) ↔ LeavesAlone u v g call := by
  have hNow : g.IsVertex u ↔ (u, v) ∈ edges := (verifyEdge_same hSame).symm.trans hAnswers
  have hLater : AnswersFor u v (g', call.record edges) ↔
      (g'.IsVertex u ↔ (u, v) ∈ call.record edges) := by
    unfold AnswersFor
    rw [verifyEdge_same hSame]
  rw [hLater]
  cases hEdit with
  | @addVertex pair _ _ _ hVertex =>
      show _ ↔ (u.thId = v.thId → pair = u → g.IsVertex u)
      rw [hVertex, EdgeCall.record, ← hNow]
      constructor
      · rintro hIff - rfl
        exact hIff.mp (.inr rfl)
      · intro hOnly
        exact ⟨fun hIs => hIs.elim id fun hEq => hOnly hSame hEq.symm, .inl⟩
  | @insert a b _ hTest _ _ hVertex =>
      simp only [LeavesAlone, if_pos hSame]
      rw [hVertex, EdgeCall.record, Finset.mem_insert, ← hNow, Prod.mk.injEq]
      constructor
      · rintro hIff hEnd
        have hIs : u = a ∨ u = b := hEnd.imp Eq.symm Eq.symm
        rcases hIff.mp (.inr hIs) with ⟨rfl, rfl⟩ | hOld
        · exact .inr ⟨rfl, rfl⟩
        · exact .inl hOld
      · intro hOnly
        constructor
        · rintro (hOld | hIs)
          · exact .inr hOld
          · rcases hOnly (hIs.imp Eq.symm Eq.symm) with hOld | ⟨rfl, rfl⟩
            · exact .inr hOld
            · exact .inl ⟨rfl, rfl⟩
        · rintro (⟨rfl, rfl⟩ | hOld)
          · exact .inr (.inl rfl)
          · exact .inl hOld
  | @delete a b _ hTest _ _ hVertex =>
      simp only [LeavesAlone, if_pos hSame]
      rw [hVertex, EdgeCall.record, Finset.mem_erase, ← hNow, ne_eq, Prod.mk.injEq]
      constructor
      · rintro hIff ⟨rfl, rfl⟩
        have hIs : g.IsVertex a := (verifyEdge_same hSame).mp hTest
        exact (hIff.mp hIs).1 ⟨rfl, rfl⟩
      · intro hNot
        exact ⟨fun hIs => ⟨fun hBoth => hNot ⟨hBoth.1.symm, hBoth.2.symm⟩, hIs⟩,
          fun hBoth => hBoth.2⟩

/-- An edge that is put in leads from its source to its id. -/
theorem leadsTo_insert
    (hSucc : ∀ q, g'.succ q = if q = a then g.succ a ++ [b] else g.succ q) :
    g'.LeadsTo u v ↔ g.LeadsTo u v ∨ (a = u ∧ b.thId = v.thId) := by
  unfold LeadsTo
  rw [hSucc]
  by_cases hFrom : u = a
  · subst hFrom
    simp [or_and_right, exists_or]
  · rw [if_neg hFrom]
    exact (or_iff_left fun hBoth => hFrom hBoth.1.symm).symm

/-- Taking an edge away takes its id from its source, if the target is a vertex. -/
theorem leadsTo_delete (hDistinct : ((g.succ a).map Pair.thId).Nodup)
    (hSucc : ∀ q, g'.succ q =
      if q = a ∧ g.IsVertex b then (g.succ a).eraseP (fun p => p.thId = b.thId) else g.succ q) :
    g'.LeadsTo u v ↔ g.LeadsTo u v ∧ ¬ (a = u ∧ b.thId = v.thId ∧ g.IsVertex b) := by
  unfold LeadsTo
  rw [hSucc]
  by_cases hTaken : u = a ∧ g.IsVertex b
  · obtain ⟨rfl, hB⟩ := hTaken
    rw [if_pos ⟨rfl, hB⟩, mem_eraseP_iff hDistinct]
    exact and_congr_right fun _ => ⟨fun hNe hAll => hNe hAll.2.1.symm,
      fun hNot hEq => hNot ⟨rfl, hEq.symm, hB⟩⟩
  · rw [if_neg hTaken]
    exact (and_iff_left fun hAll => hTaken ⟨hAll.1.symm, hAll.2.2⟩).symm

theorem answers_insert (hTest : ¬ g.verifyEdge a b = true) (hNow : g.LeadsTo u v ↔ (u, v) ∈ edges)
    (hSucc : ∀ q, g'.succ q = if q = a then g.succ a ++ [b] else g.succ q) :
    (g'.LeadsTo u v ↔ (u, v) ∈ EdgeCall.record edges (.insert a b)) ↔
      (a = u → b.thId = v.thId → b = v) := by
  rw [leadsTo_insert hSucc, EdgeCall.record, Finset.mem_insert, ← hNow, Prod.mk.injEq]
  constructor
  · rintro hIff rfl hId
    rcases hIff.mp (.inr ⟨rfl, hId⟩) with ⟨-, hSame⟩ | ⟨q, hMem, hOld⟩
    · exact hSame.symm
    · exact absurd ⟨q, hMem, hOld.trans hId.symm⟩ (not_leadsTo_of_test hTest)
  · intro hOnly
    constructor
    · rintro (hOld | ⟨rfl, hId⟩)
      · exact .inr hOld
      · exact .inl ⟨rfl, (hOnly rfl hId).symm⟩
    · rintro (⟨rfl, rfl⟩ | hOld)
      · exact .inr ⟨rfl, rfl⟩
      · exact .inl hOld

theorem answers_delete (hNe : u.thId ≠ v.thId) (hInv : EdgeInv (g, edges))
    (hTest : g.verifyEdge a b = true) (hNow : g.LeadsTo u v ↔ (u, v) ∈ edges)
    (hSucc : ∀ q, g'.succ q =
      if q = a ∧ g.IsVertex b then (g.succ a).eraseP (fun p => p.thId = b.thId) else g.succ q) :
    (g'.LeadsTo u v ↔ (u, v) ∈ EdgeCall.record edges (.delete a b)) ↔
      (a = u → b.thId = v.thId → b = v ∨ ¬ g.IsVertex b) := by
  rw [leadsTo_delete (hInv.distinct a) hSucc, EdgeCall.record, Finset.mem_erase, ← hNow, ne_eq,
    Prod.mk.injEq]
  constructor
  · rintro hIff rfl hId
    by_contra hBoth
    obtain ⟨hOther, hB⟩ := not_or.mp hBoth
    -- the test has found the edge for the other type as well
    have hThere : g.LeadsTo a v := by
      rw [← verifyEdge_other hNe, ← verifyEdge_congr hId]
      exact hTest
    have hKept := hIff.mpr ⟨fun hEq => hOther hEq.2.symm, hThere⟩
    exact hKept.2 ⟨rfl, hId, not_not.mp hB⟩
  · intro hOnly
    constructor
    · rintro ⟨hThere, hLeft⟩
      refine ⟨?_, hThere⟩
      rintro ⟨rfl, rfl⟩
      exact hLeft ⟨rfl, rfl, hInv.target u v (hNow.mp hThere)⟩
    · rintro ⟨hNot, hThere⟩
      refine ⟨hThere, ?_⟩
      rintro ⟨rfl, hId, hB⟩
      rcases hOnly rfl hId with rfl | hGone
      · exact hNot ⟨rfl, rfl⟩
      · exact hGone hB

/-- Another pair: the answer is whether the source has a target with the id. -/
theorem answers_other {call : EdgeCall} (hNe : u.thId ≠ v.thId) (hInv : EdgeInv (g, edges))
    (hAnswers : AnswersFor u v (g, edges)) (hEdit : Edited g call g') :
    AnswersFor u v (g', call.record edges) ↔ LeavesAlone u v g call := by
  have hNow : g.LeadsTo u v ↔ (u, v) ∈ edges := (verifyEdge_other hNe).symm.trans hAnswers
  have hLater : AnswersFor u v (g', call.record edges) ↔
      (g'.LeadsTo u v ↔ (u, v) ∈ call.record edges) := by
    unfold AnswersFor
    rw [verifyEdge_other hNe]
  rw [hLater]
  cases hEdit with
  | @addVertex pair _ _ hSucc _ =>
      have hKept : g'.LeadsTo u v ↔ g.LeadsTo u v := by
        unfold LeadsTo
        rw [hSucc]
      show _ ↔ (u.thId = v.thId → pair = u → g.IsVertex u)
      rw [hKept, EdgeCall.record]
      exact ⟨fun _ hSame => absurd hSame hNe, fun _ => hNow⟩
  | insert hTest _ hSucc _ =>
      simp only [LeavesAlone, if_neg hNe]
      exact answers_insert hTest hNow hSucc
  | delete hTest _ hSucc _ =>
      simp only [LeavesAlone, if_neg hNe]
      exact answers_delete hNe hInv hTest hNow hSucc

theorem answers_step {s s' : Digraph × EdgeSet} {call : EdgeCall} (hInv : EdgeInv s)
    (hAnswers : AnswersFor u v s) (hStep : EdgeCall.step s call = some s') :
    EdgeInv s' ∧ (AnswersFor u v s' ↔ LeavesAlone u v s.1 call) := by
  obtain ⟨g, edges⟩ := s
  obtain ⟨g', edges'⟩ := s'
  obtain ⟨hRun, rfl⟩ := withHistory_eq_some.mp hStep
  have hEdit := edited_of_run hInv.wellFormed hRun
  refine ⟨hInv.step hEdit, ?_⟩
  by_cases hSame : u.thId = v.thId
  · exact answers_same hSame hAnswers hEdit
  · exact answers_other hSame hInv hAnswers hEdit

/-! ## Runs -/

/-- Behind the call `verify_edge` is right about the pair, and it has changed its
answer only if the call was about this pair. -/
def RightAbout (u v : Pair) (s : Digraph × EdgeSet) (call : EdgeCall) (s' : Digraph × EdgeSet) :
    Prop :=
  AnswersFor u v s' ∧ (call.edge ≠ some (u, v) → s'.1.verifyEdge u v = s.1.verifyEdge u v)

theorem mem_record_iff {call : EdgeCall} (hOther : call.edge ≠ some (u, v)) :
    (u, v) ∈ call.record edges ↔ (u, v) ∈ edges := by
  cases call with
  | addVertex pair => exact Iff.rfl
  | insert a b =>
      have hNe : (u, v) ≠ (a, b) := fun hSame => hOther (congrArg some hSame.symm)
      rw [EdgeCall.record, Finset.mem_insert, or_iff_right hNe]
  | delete a b =>
      have hNe : (u, v) ≠ (a, b) := fun hSame => hOther (congrArg some hSame.symm)
      rw [EdgeCall.record, Finset.mem_erase, and_iff_right hNe]

/-- Calls about other edges leave an answer that is right before and behind them. -/
theorem rightAbout_iff {s s' : Digraph × EdgeSet} {call : EdgeCall} (hAnswers : AnswersFor u v s)
    (hStep : EdgeCall.step s call = some s') :
    RightAbout u v s call s' ↔ AnswersFor u v s' := by
  refine ⟨And.left, fun hAnswers' => ⟨hAnswers', fun hOther => ?_⟩⟩
  have hKept : (u, v) ∈ s'.2 ↔ (u, v) ∈ s.2 := by
    rw [(withHistory_eq_some.mp hStep).2]
    exact mem_record_iff hOther
  have hSame : s'.1.verifyEdge u v = true ↔ s.1.verifyEdge u v = true :=
    hAnswers'.trans (hKept.trans hAnswers.symm)
  exact Bool.eq_iff_iff.mpr hSame

/-- The empty graph, and no edge inserted. -/
def noEdges (vertexList : Nat → Vertex) : Digraph × EdgeSet :=
  (empty vertexList, ∅)

theorem edgeInv_noEdges (vertexList : Nat → Vertex) : EdgeInv (noEdges vertexList) := by
  have hNone := not_isVertex_of_vertexNum (g := empty vertexList) rfl
  refine ⟨wellFormed_of_vertexNum rfl, fun q => ?_, fun q r hMem => ?_⟩
  · show (((empty vertexList).succ q).map Pair.thId).Nodup
    rw [succ_of_not_isVertex (hNone q)]
    exact List.nodup_nil
  · exact absurd hMem (Finset.notMem_empty _)

theorem answersFor_noEdges (vertexList : Nat → Vertex) (u v : Pair) :
    AnswersFor u v (noEdges vertexList) := by
  refine ⟨fun hTrue => ?_, fun hMem => absurd hMem (Finset.notMem_empty _)⟩
  exact absurd (verifyEdge_eq_true.mp hTrue).1
    (not_isVertex_of_vertexNum (g := empty vertexList) rfl u)

/-- **The answer for a pair is exact** behind all calls of a run if and only if
all of them leave it alone. -/
theorem verify_edge_exact_exactly (vertexList : Nat → Vertex) (u v : Pair)
    (calls : List EdgeCall) :
    AlongRun EdgeCall.step (RightAbout u v) (noEdges vertexList) calls ↔
      AlongRun EdgeCall.step (fun s call _ => LeavesAlone u v s.1 call) (noEdges vertexList)
        calls := by
  have hStep : ∀ s call s', EdgeInv s ∧ AnswersFor u v s → EdgeCall.step s call = some s' →
      (RightAbout u v s call s' ↔ LeavesAlone u v s.1 call) ∧
        (LeavesAlone u v s.1 call → EdgeInv s' ∧ AnswersFor u v s') := by
    rintro s call s' ⟨hInv, hAnswers⟩ hStep
    obtain ⟨hInv', hIff⟩ := answers_step hInv hAnswers hStep
    refine ⟨(rightAbout_iff hAnswers hStep).trans hIff, fun hLeaves => ?_⟩
    exact ⟨hInv', hIff.mpr hLeaves⟩
  exact alongRun_iff hStep ⟨edgeInv_noEdges vertexList, answersFor_noEdges vertexList u v⟩

/-- Behind the one edge from 1 to 2, `verify_edge` finds an edge from 1 to
itself, and one to the resource 2. -/
theorem edges_never_inserted :
    ∃ s : Digraph × EdgeSet,
      Reachable EdgeCall.step (noEdges fun _ => ⟨⟨0, .process⟩, []⟩) s ∧
        s.2 = {(⟨1, .process⟩, ⟨2, .process⟩)} ∧
        s.1.verifyEdge ⟨1, .process⟩ ⟨1, .process⟩ = true ∧
        s.1.verifyEdge ⟨1, .process⟩ ⟨2, .resource⟩ = true ∧
        ¬ AnswersFor ⟨1, .process⟩ ⟨1, .process⟩ s := by
  have hRun : (run EdgeCall.step (noEdges fun _ => ⟨⟨0, .process⟩, []⟩)
      [.insert ⟨1, .process⟩ ⟨2, .process⟩]).map (fun s =>
      decide (s.2 = {(⟨1, .process⟩, ⟨2, .process⟩)} ∧
        s.1.verifyEdge ⟨1, .process⟩ ⟨1, .process⟩ = true ∧
        s.1.verifyEdge ⟨1, .process⟩ ⟨2, .resource⟩ = true ∧
        ¬ AnswersFor ⟨1, .process⟩ ⟨1, .process⟩ s)) = some true := by decide
  obtain ⟨s, hReach, hTest⟩ := exists_reachable_of_run hRun
  exact ⟨s, hReach, of_decide_eq_true hTest⟩

end Digraph
end DeadlockCheck
end LinuxCppLearn
