import LinuxCppLearn.LeakCheck.Records

/-!
# What the record files say behind a double free

The first `free` of a pointer that the application does not hold returns with
`enable_free_hook` cleared, and nothing sets the flag again.  `malloc` goes on
making files, but no `free` removes one, and none is looked at.

* `obtained` — the pointers that get a file from then on.
* `Off` — the tracker behind a double free; `off_of_double_free`, `Off.step`.
* `records_of_any_run` — what the files and the reports of any run are.
-/

namespace LinuxCppLearn
namespace LeakCheck

open StepSystem

/-- The request of a `malloc`. -/
def Call.request? : Call → Option Request
  | .malloc r => some r
  | .free _ _ => none

/-- The pointers obtained by the calls, and in front of them by `printf` for the
buffer of `stdout`. -/
def obtained (stdoutBuffer : Option Request) (calls : List Call) : List Ptr :=
  (stdoutBuffer.toList ++ calls.filterMap Call.request?).map Request.p

theorem mem_obtained_malloc {stdoutBuffer : Option Request} {calls : List Call} {r : Request}
    {p : Ptr} : p ∈ obtained stdoutBuffer (calls ++ [.malloc r]) ↔
      p ∈ obtained stdoutBuffer calls ∨ p = r.p := by
  simp [obtained, Call.request?, or_assoc, eq_comm]

theorem obtained_free {stdoutBuffer buffer : Option Request} {calls : List Call} {ptr : Ptr} :
    obtained stdoutBuffer (calls ++ [.free ptr buffer]) = obtained stdoutBuffer calls := by
  simp [obtained, Call.request?]

namespace Tracker

variable {t : Tracker} {p ptr : Ptr} {r : Request}

theorem writeRecord_mem : (t.writeRecord r).mem p ≠ none ↔ t.mem p ≠ none ∨ p = r.p := by
  by_cases hEq : p = r.p
  · simp [writeRecord, hEq]
  · simp [writeRecord, hEq]

/-- With the flag cleared, `free` goes past the tracker. -/
theorem free_off (h : t.enableFreeHook = false) (stdoutBuffer : Option Request) :
    t.free ptr stdoutBuffer = t.freeF ptr := by
  simp [free, h]

/-- **A double free**: the report, a file for the buffer of `stdout` if `printf`
asks for it, and the flag that stays cleared. -/
theorem free_double (hFlags : t.enableMallocHook = true ∧ t.enableFreeHook = true)
    (hFile : t.mem ptr = none) (stdoutBuffer : Option Request) :
    let t' := t.free ptr stdoutBuffer
    (t'.enableMallocHook = true ∧ t'.enableFreeHook = false) ∧
      t'.doubleFree = t.doubleFree ++ [ptr] ∧
      ∀ p, t'.mem p ≠ none ↔ t.mem p ≠ none ∨ p ∈ obtained stdoutBuffer [] := by
  obtain ⟨hMalloc, hFree⟩ := hFlags
  cases stdoutBuffer with
  | none => simp [free, unlink, report, obtained, hFree, hFile, hMalloc]
  | some r =>
      have hUp : ({ t with enableFreeHook := false } : Tracker).enableMallocHook = true := hMalloc
      have hEq : t.free ptr (some r) =
          ((({ t with enableFreeHook := false } : Tracker).mallocF r.p).writeRecord r).report
            ptr := by
        rw [← malloc_tracked hUp]
        simp [free, unlink, hFree, hFile]
      refine ⟨?_, ?_, fun p => ?_⟩
      · rw [hEq]
        exact ⟨hMalloc, rfl⟩
      · rw [hEq]
        rfl
      · rw [hEq]
        refine writeRecord_mem.trans ?_
        simp [mallocF, obtained]

end Tracker

/-- Behind the double free of `ptr` in the state `t₀` and the calls `after`. -/
structure Off (t₀ : Tracker) (ptr : Ptr) (stdoutBuffer : Option Request) (after : List Call)
    (t : Tracker) : Prop where
  flags : t.enableMallocHook = true ∧ t.enableFreeHook = false
  reported : t.doubleFree = [ptr]
  records : ∀ p, t.mem p ≠ none ↔ p ∈ t₀.live ∨ p ∈ obtained stdoutBuffer after
  live_recorded : ∀ p ∈ t.live, t.mem p ≠ none

variable {t t₀ t' : Tracker} {ptr : Ptr} {stdoutBuffer : Option Request} {after : List Call}

/-- **The double free** switches the tracker off. -/
theorem off_of_double_free (h : RecordsInv t₀) (hNone : t₀.doubleFree = []) (hDead : ptr ∉ t₀.live)
    (hStep : step t₀ (.free ptr stdoutBuffer) = some t) : Off t₀ ptr stdoutBuffer [] t := by
  obtain ⟨-, hStep⟩ := Option.ite_none_right_eq_some.mp hStep
  obtain rfl := Option.some.inj hStep
  have hFile : t₀.mem ptr = none := by
    by_contra hFile
    exact hDead ((h.records ptr).mp hFile)
  obtain ⟨hFlags, hReport, hMem⟩ := Tracker.free_double h.flags hFile stdoutBuffer
  refine ⟨hFlags, ?_, fun p => ?_, fun p hLive => ?_⟩
  · rw [hNone] at hReport
    exact hReport
  · rw [← h.records p]
    exact hMem p
  · have hOld : p ∈ t₀.live := Finset.mem_of_mem_erase hLive
    exact (hMem p).mpr (.inl ((h.records p).mpr hOld))

/-- **Every further call** leaves it off. -/
theorem Off.step {call : Call} (h : Off t₀ ptr stdoutBuffer after t)
    (hStep : LeakCheck.step t call = some t') :
    Off t₀ ptr stdoutBuffer (after ++ [call]) t' := by
  cases call with
  | malloc r =>
      obtain ⟨-, hStep⟩ := Option.ite_none_right_eq_some.mp hStep
      obtain rfl := Option.some.inj hStep
      rw [Tracker.malloc_tracked h.flags.1]
      have hMem : ∀ p, ((t.mallocF r.p).writeRecord r).mem p ≠ none ↔
          t.mem p ≠ none ∨ p = r.p := fun p => Tracker.writeRecord_mem
      refine ⟨h.flags, h.reported, fun p => ?_, fun p hLive => ?_⟩
      · rw [mem_obtained_malloc, ← or_assoc, ← h.records p]
        exact hMem p
      · rcases Finset.mem_insert.mp hLive with hNew | hOld
        · exact (hMem p).mpr (.inr hNew)
        · exact (hMem p).mpr (.inl (h.live_recorded p hOld))
  | free q buffer =>
      obtain ⟨-, hStep⟩ := Option.ite_none_right_eq_some.mp hStep
      obtain rfl := Option.some.inj hStep
      rw [Tracker.free_off h.flags.2]
      refine ⟨h.flags, h.reported, fun p => ?_, fun p hLive => ?_⟩
      · rw [obtained_free]
        exact h.records p
      · exact h.live_recorded p (Finset.mem_of_mem_erase hLive)

/-- A run without a double free, or behind its first one. -/
def BeforeOrBehind (calls : List Call) (t : Tracker) : Prop :=
  (RecordsInv t ∧ t.doubleFree = []) ∨
    ∃ before ptr stdoutBuffer after t₀,
      calls = before ++ .free ptr stdoutBuffer :: after ∧ run step Tracker.init before = some t₀ ∧
        RecordsInv t₀ ∧ ptr ∉ t₀.live ∧ Off t₀ ptr stdoutBuffer after t

/-- A call that frees nothing else than live pointers reports nothing. -/
theorem nothing_reported {call : Call} (h : RecordsInv t) (hNone : t.doubleFree = [])
    (hLive : FreesLive t call) (hStep : step t call = some t') :
    RecordsInv t' ∧ t'.doubleFree = [] := by
  obtain ⟨hExact, hInv⟩ := step_of_live h hLive hStep
  refine ⟨hInv, ?_⟩
  have hReports := hExact.reports
  cases call with
  | malloc r => exact hReports.trans hNone
  | free ptr stdoutBuffer =>
      have hMem : ptr ∈ t.live := hLive
      simp only [if_pos hMem] at hReports
      exact hReports.trans hNone

theorem beforeOrBehind_of_run {calls : List Call} (hRun : run step Tracker.init calls = some t) :
    BeforeOrBehind calls t := by
  refine run_invariant hRun (.inl ⟨recordsInv_init, rfl⟩) ?_
  intro calls t call t' hBefore hCase hStep
  rcases hCase with ⟨hInv, hNone⟩ | ⟨before, ptr, buffer, after, t₀, rfl, hFirst, hInv, hDead, hOff⟩
  · by_cases hLive : FreesLive t call
    · exact .inl (nothing_reported hInv hNone hLive hStep)
    -- the first double free
    · cases call with
      | malloc r => exact absurd trivial hLive
      | free ptr buffer =>
          exact .inr ⟨calls, ptr, buffer, [], t, rfl, hBefore, hInv, hLive,
            off_of_double_free hInv hNone hLive hStep⟩
  · refine .inr ⟨before, ptr, buffer, after ++ [call], t₀, ?_, hFirst, hInv, hDead,
      hOff.step hStep⟩
    rw [List.append_assoc, List.cons_append]

/-- **The files of any run.**  No block in use is without its file.  Either nothing
has been reported and the files are those of the blocks in use, or one double free
has been, the first: then the files are those of the blocks that were in use at this
moment, and of all that have been obtained since, whether they have been freed or
not, and no `free` has been reported any more. -/
theorem records_of_any_run {calls : List Call} (hRun : run step Tracker.init calls = some t) :
    (∀ p ∈ t.live, t.mem p ≠ none) ∧
      ((t.doubleFree = [] ∧ ∀ p, t.mem p ≠ none ↔ p ∈ t.live) ∨
        ∃ before ptr stdoutBuffer after t₀,
          calls = before ++ .free ptr stdoutBuffer :: after ∧
            run step Tracker.init before = some t₀ ∧ (∀ p, t₀.mem p ≠ none ↔ p ∈ t₀.live) ∧
            ptr ∉ t₀.live ∧ t.doubleFree = [ptr] ∧
            ∀ p, t.mem p ≠ none ↔ p ∈ t₀.live ∨ p ∈ obtained stdoutBuffer after) := by
  rcases beforeOrBehind_of_run hRun with
    ⟨hInv, hNone⟩ | ⟨before, ptr, buffer, after, t₀, hCalls, hFirst, hInv, hDead, hOff⟩
  · exact ⟨fun p hLive => (hInv.records p).mpr hLive, .inl ⟨hNone, hInv.records⟩⟩
  · exact ⟨hOff.live_recorded, .inr ⟨before, ptr, buffer, after, t₀, hCalls, hFirst,
      hInv.records, hDead, hOff.reported, hOff.records⟩⟩

/-- Two blocks, of which one is freed twice, and then the other one. -/
def freedBehind : List Call :=
  [.malloc ⟨1, 10, 7⟩, .malloc ⟨2, 15, 7⟩, .free 1 none, .free 1 none, .free 2 none]

/-- The state behind them. -/
def freedBehindState : Tracker :=
  (run step Tracker.init freedBehind).get (by decide)

/-- Nothing is in use any more, and a leak of the second block is shown. -/
theorem records_of_any_run_freedBehind :
    freedBehindState.live = ∅ ∧ freedBehindState.mem 2 ≠ none ∧
      ∃ before ptr stdoutBuffer after t₀,
        freedBehind = before ++ .free ptr stdoutBuffer :: after ∧
          run step Tracker.init before = some t₀ ∧ ptr ∉ t₀.live ∧
          ∀ p, freedBehindState.mem p ≠ none ↔ p ∈ t₀.live ∨ p ∈ obtained stdoutBuffer after := by
  have hRun : run step Tracker.init freedBehind = some freedBehindState := by
    simp [freedBehindState]
  have hReported : freedBehindState.doubleFree = [1] := by decide
  obtain ⟨-, ⟨hNone, -⟩ | ⟨before, ptr, buffer, after, t₀, hCalls, hFirst, -, hDead, -, hFiles⟩⟩ :=
    records_of_any_run hRun
  · rw [hNone] at hReported
    exact absurd hReported (by decide)
  · exact ⟨by decide, by decide, before, ptr, buffer, after, t₀, hCalls, hFirst, hDead, hFiles⟩

end LeakCheck
end LinuxCppLearn
