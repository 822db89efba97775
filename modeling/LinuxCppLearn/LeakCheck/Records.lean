import LinuxCppLearn.LeakCheck.Model

/-!
# What the record files say, on one thread

* `Exact` — what the tracker promises of a call: both flags are set behind it,
  the files are those of the pointers the application holds, and a `free` is
  reported exactly when its pointer is not one of them.
* `RecordsInv` — the state in which every call starts as long as the
  application frees only what it holds.
* `step_of_live`, `step_of_not_live` — a call in such a state.  The report of a
  double free returns in front of the line that sets `enable_free_hook` again,
  so the tracker is off from then on.
* `records_exact_exactly` — the law over all sequences of calls.
-/

namespace LinuxCppLearn
namespace LeakCheck

open StepSystem

/-- What the tracker promises of the call `c` that leads from `t` to `t'`. -/
structure Exact (t : Tracker) (c : Call) (t' : Tracker) : Prop where
  flags : t'.enableMallocHook = true ∧ t'.enableFreeHook = true
  records : ∀ p, t'.mem p ≠ none ↔ p ∈ t'.live
  reports :
    match c with
    | .malloc _ => t'.doubleFree = t.doubleFree
    | .free ptr _ =>
        if ptr ∈ t.live then t'.doubleFree = t.doubleFree else t' = t.report ptr

/-- The call is no `free` of a pointer the application does not hold. -/
def FreesLive (t : Tracker) : Call → Prop
  | .malloc _ => True
  | .free ptr _ => ptr ∈ t.live

instance (t : Tracker) (c : Call) : Decidable (FreesLive t c) := by
  cases c with
  | malloc r => exact inferInstanceAs (Decidable True)
  | free ptr stdoutBuffer => exact inferInstanceAs (Decidable (_ ∈ _))

structure RecordsInv (t : Tracker) : Prop where
  flags : t.enableMallocHook = true ∧ t.enableFreeHook = true
  records : ∀ p, t.mem p ≠ none ↔ p ∈ t.live
  /-- every file names its block -/
  names : ∀ p r, t.mem p = some r → r.addr = p
  allocated : t.live ⊆ t.heap

theorem recordsInv_init : RecordsInv Tracker.init where
  flags := ⟨rfl, rfl⟩
  records p := by simp [Tracker.init]
  names p r h := by simp [Tracker.init] at h
  allocated := Finset.Subset.refl _

namespace Tracker

variable {t : Tracker}

/-- With the flag set, `malloc` writes one file and sets the flag again. -/
theorem malloc_tracked (h : t.enableMallocHook = true) (r : Request) :
    t.malloc r = (t.mallocF r.p).writeRecord r := by
  unfold malloc
  rw [if_pos h]
  simp [mallocF, writeRecord, h]

/-- With the flag set, `free` of a recorded pointer removes its file and the
block. -/
theorem free_recorded (h : t.enableFreeHook = true) {ptr : Ptr} (hFile : t.mem ptr ≠ none)
    (stdoutBuffer : Option Request) :
    t.free ptr stdoutBuffer =
      { t.freeF ptr with mem := Function.update t.mem ptr none } := by
  obtain ⟨r, hr⟩ := Option.ne_none_iff_exists'.mp hFile
  simp [free, unlink, freeF, h, hr]

/-- With the flag set, `free` of any other pointer ends with the flag
cleared. -/
theorem free_unrecorded (h : t.enableFreeHook = true) {ptr : Ptr} (hFile : t.mem ptr = none)
    (stdoutBuffer : Option Request) :
    (t.free ptr stdoutBuffer).enableFreeHook = false := by
  cases stdoutBuffer with
  | none => simp [free, unlink, report, h, hFile]
  | some r =>
      simp only [free, unlink, report, h, hFile, if_true]
      unfold malloc
      split <;> simp [mallocF, writeRecord]

end Tracker

theorem RecordsInv.malloc {t : Tracker} (h : RecordsInv t) (r : Request) :
    RecordsInv { t.malloc r with live := insert r.p t.live } where
  flags := by
    rw [Tracker.malloc_tracked h.flags.1]
    exact h.flags
  records p := by
    rw [Tracker.malloc_tracked h.flags.1]
    by_cases hEq : p = r.p
    · subst hEq
      simp [Tracker.writeRecord]
    · have hOld := h.records p
      simpa [Tracker.writeRecord, Tracker.mallocF, hEq] using hOld
  names p r' hFile := by
    rw [Tracker.malloc_tracked h.flags.1] at hFile
    by_cases hEq : p = r.p
    · subst hEq
      have hRecord : Record.mk r.caller r.p r.size = r' := by
        simpa [Tracker.writeRecord] using hFile
      rw [← hRecord]
    · exact h.names p r' (by simpa [Tracker.writeRecord, Tracker.mallocF, hEq] using hFile)
  allocated := by
    rw [Tracker.malloc_tracked h.flags.1]
    exact Finset.insert_subset_insert r.p h.allocated

theorem RecordsInv.free {t : Tracker} (h : RecordsInv t) {ptr : Ptr} (hLive : ptr ∈ t.live)
    (stdoutBuffer : Option Request) :
    RecordsInv { t.free ptr stdoutBuffer with live := t.live.erase ptr } := by
  rw [Tracker.free_recorded h.flags.2 ((h.records ptr).mpr hLive)]
  constructor
  · exact h.flags
  · intro p
    by_cases hEq : p = ptr
    · subst hEq
      simp
    · have hOld := h.records p
      simpa [hEq] using hOld
  · intro p r hFile
    by_cases hEq : p = ptr
    · subst hEq
      simp at hFile
    · exact h.names p r (by simpa [hEq] using hFile)
  · exact Finset.erase_subset_erase ptr h.allocated

/-- **A call that frees only what is live** keeps its promise. -/
theorem step_of_live {t t' : Tracker} {c : Call} (h : RecordsInv t) (hLive : FreesLive t c)
    (hStep : step t c = some t') : Exact t c t' ∧ RecordsInv t' := by
  cases c with
  | malloc r =>
      simp only [step] at hStep
      split at hStep
      · obtain rfl := Option.some.inj hStep
        have hInv := h.malloc r
        refine ⟨⟨hInv.flags, hInv.records, ?_⟩, hInv⟩
        rw [Tracker.malloc_tracked h.flags.1]
        rfl
      · simp at hStep
  | free ptr stdoutBuffer =>
      have hLive : ptr ∈ t.live := hLive
      simp only [step] at hStep
      split at hStep
      · obtain rfl := Option.some.inj hStep
        have hInv := h.free hLive stdoutBuffer
        refine ⟨⟨hInv.flags, hInv.records, ?_⟩, hInv⟩
        simp only [hLive, if_true]
        rw [Tracker.free_recorded h.flags.2 ((h.records ptr).mpr hLive)]
        rfl
      · simp at hStep

/-- **A call that frees anything else** leaves `enable_free_hook` cleared. -/
theorem step_of_not_live {t t' : Tracker} {c : Call} (h : RecordsInv t)
    (hDead : ¬ FreesLive t c) (hStep : step t c = some t') : t'.enableFreeHook = false := by
  cases c with
  | malloc r => exact absurd trivial hDead
  | free ptr stdoutBuffer =>
      have hFile : t.mem ptr = none := by
        by_contra hFile
        exact hDead ((h.records ptr).mp hFile)
      simp only [step] at hStep
      split at hStep
      · obtain rfl := Option.some.inj hStep
        exact Tracker.free_unrecorded h.flags.2 hFile stdoutBuffer
      · simp at hStep

/-- **The records are exact exactly on the runs without a double free**: every
call of a sequence keeps its promise if and only if every `free` in it gets a
pointer that is live. -/
theorem records_exact_exactly (calls : List Call) :
    AlongRun step Exact Tracker.init calls ↔
      AlongRun step (fun t c _ => FreesLive t c) Tracker.init calls := by
  have hStep : ∀ t c t', RecordsInv t → step t c = some t' →
      (Exact t c t' ↔ FreesLive t c) ∧ (FreesLive t c → RecordsInv t') := by
    intro t c t' hInv hStep
    refine ⟨⟨fun hExact => ?_, fun hLive => ?_⟩, fun hLive => ?_⟩
    · by_contra hDead
      have hOff := step_of_not_live hInv hDead hStep
      exact absurd hExact.flags.2 (by simp [hOff])
    · exact (step_of_live hInv hLive hStep).1
    · exact (step_of_live hInv hLive hStep).2
  exact alongRun_iff hStep recordsInv_init

/-- A block is freed twice. -/
def freedTwice : List Call :=
  [.malloc ⟨1, 10, 7⟩, .free 1 none, .free 1 none]

theorem double_free_turns_tracker_off : ¬ AlongRun step Exact Tracker.init freedTwice := by
  intro hRun
  obtain ⟨-, hFirst⟩ := hRun _ rfl
  obtain ⟨-, hSecond⟩ := hFirst _ rfl
  obtain ⟨hThird, -⟩ := hSecond _ rfl
  exact absurd hThird.flags.2 (by decide)

end LeakCheck
end LinuxCppLearn
