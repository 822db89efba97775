import Mathlib.Data.Fintype.EquivFin
import LinuxCppLearn.LeakCheck.Model

/-!
# The leak tracker under several threads

`enable_malloc_hook` and `enable_free_hook` are one flag each for the whole
process.  Every statement of the two hooks that touches shared state is a step
here, so another thread may get in between any two of them; creating the record
file is one step.

* `malloc_in_one_piece`, `free_in_one_piece` — a call with no other thread
  between its steps does what the tracker does on one thread.
* `Move`, `step_move` — what a step does.
* `FlagUp` — the flag is set when a call reads it.
* `ThreadsInv` — under it every block is in one place, and its file says so.
* `tracking_exact_exactly` — the law: with `FlagUp` all along the tracker is
  right, and any call that reads a cleared flag can end with the wrong record.
-/

namespace LinuxCppLearn
namespace LeakCheck
namespace Threads

open StepSystem

/-- Where a thread is in `malloc` or `free`. -/
inductive Pc
  /-- in the application -/
  | run
  /-- has read the flag as set -/
  | mallocClear
  /-- about to call `malloc_f`, in the first branch or in the `else` branch -/
  | mallocReal (tracked : Bool)
  | mallocRecord (r : Request)
  | mallocRestore (r : Request)
  /-- has read the flag as set -/
  | freeClear (ptr : Ptr)
  | freeUnlink (ptr : Ptr)
  /-- about to call `free_f`, in the first branch or in the `else` branch -/
  | freeReal (ptr : Ptr) (tracked : Bool)
  | freeRestore (ptr : Ptr)
deriving DecidableEq, Repr

/-- A finished call: whether a `malloc` made a record; whether a `free` removed
one, and whether it called `free_f`. -/
inductive Done
  | malloc (p : Ptr) (recorded : Bool)
  | free (ptr : Ptr) (unlinked freed : Bool)
deriving DecidableEq, Repr

structure State where
  tracker : Tracker
  pc : Nat → Pc
  /-- the calls that have returned, in order -/
  done : List Done

def init : State where
  tracker := Tracker.init
  pc _ := .run
  done := []

inductive Action
  | mallocRead (t : Nat)
  | mallocClear (t : Nat)
  | mallocReal (t : Nat) (r : Request)
  | mallocRecord (t : Nat)
  | mallocRestore (t : Nat)
  | freeRead (t : Nat) (ptr : Ptr)
  | freeClear (t : Nat)
  | freeUnlink (t : Nat)
  | freeReal (t : Nat)
  | freeRestore (t : Nat)
deriving DecidableEq, Repr

def State.setPc (s : State) (t : Nat) (pc : Pc) : State :=
  { s with pc := Function.update s.pc t pc }

/-- `return p;` -/
def State.mallocReturns (s : State) (t : Nat) (p : Ptr) (recorded : Bool) : State :=
  { s.setPc t .run with
    tracker := { s.tracker with live := insert p s.tracker.live }
    done := s.done ++ [.malloc p recorded] }

def State.freeReturns (s : State) (t : Nat) (ptr : Ptr) (unlinked freed : Bool) : State :=
  { s.setPc t .run with done := s.done ++ [.free ptr unlinked freed] }

/-- One step of one thread.  The application frees only pointers it holds, each
once: a pointer is no longer held from the call of `free` on. -/
def step (s : State) : Action → Option State
  | .mallocRead t =>
      match s.pc t with
      | .run =>
          some (s.setPc t (if s.tracker.enableMallocHook then .mallocClear else .mallocReal false))
      | _ => none
  | .mallocClear t =>
      match s.pc t with
      | .mallocClear =>
          some { s.setPc t (.mallocReal true) with
            tracker := { s.tracker with enableMallocHook := false } }
      | _ => none
  -- `malloc_f` returns no pointer in use
  | .mallocReal t r =>
      match s.pc t with
      | .mallocReal tracked =>
          if r.p ≠ 0 ∧ r.p ∉ s.tracker.heap then
            let s := { s with tracker := s.tracker.mallocF r.p }
            if tracked then some (s.setPc t (.mallocRecord r))
            else some (s.mallocReturns t r.p false)
          else none
      | _ => none
  | .mallocRecord t =>
      match s.pc t with
      | .mallocRecord r =>
          some { s.setPc t (.mallocRestore r) with tracker := s.tracker.writeRecord r }
      | _ => none
  | .mallocRestore t =>
      match s.pc t with
      | .mallocRestore r =>
          let s := { s with tracker := { s.tracker with enableMallocHook := true } }
          some (s.mallocReturns t r.p true)
      | _ => none
  | .freeRead t ptr =>
      match s.pc t with
      | .run =>
          if ptr ∈ s.tracker.live then
            some { s.setPc t
                (if s.tracker.enableFreeHook then .freeClear ptr else .freeReal ptr false) with
              tracker := { s.tracker with live := s.tracker.live.erase ptr } }
          else none
      | _ => none
  | .freeClear t =>
      match s.pc t with
      | .freeClear ptr =>
          some { s.setPc t (.freeUnlink ptr) with
            tracker := { s.tracker with enableFreeHook := false } }
      | _ => none
  | .freeUnlink t =>
      match s.pc t with
      | .freeUnlink ptr =>
          match s.tracker.unlink ptr with
          -- `return;` without the flag and without `free_f`
          | none =>
              let s := { s with tracker := s.tracker.report ptr }
              some (s.freeReturns t ptr false false)
          | some tracker => some { s.setPc t (.freeReal ptr true) with tracker := tracker }
      | _ => none
  | .freeReal t =>
      match s.pc t with
      | .freeReal ptr tracked =>
          let s := { s with tracker := s.tracker.freeF ptr }
          if tracked then some (s.setPc t (.freeRestore ptr))
          else some (s.freeReturns t ptr false true)
      | _ => none
  | .freeRestore t =>
      match s.pc t with
      | .freeRestore ptr =>
          let s := { s with tracker := { s.tracker with enableFreeHook := true } }
          some (s.freeReturns t ptr true true)
      | _ => none

/-! ## A call in one piece -/

def Action.thread : Action → Nat
  | .mallocRead t | .mallocClear t | .mallocReal t _ | .mallocRecord t | .mallocRestore t
  | .freeRead t _ | .freeClear t | .freeUnlink t | .freeReal t | .freeRestore t => t

section
variable {s : State} {t : Nat} {tracker : Tracker}

theorem update_run (hRun : s.pc t = .run) : Function.update s.pc t .run = s.pc := by
  rw [← hRun]
  exact Function.update_eq_self t s.pc

/-- **`malloc` in one piece**, whether it finds its flag set or not. -/
theorem malloc_in_one_piece {r : Request} (hRun : s.pc t = .run) (hFresh : r.p ∉ s.tracker.heap)
    (hStep : LeakCheck.step s.tracker (.malloc r) = some tracker) :
    ∃ as recorded, (∀ a ∈ as, a.thread = t) ∧ run step s as =
      some { s with tracker := tracker, done := s.done ++ [.malloc r.p recorded] } := by
  obtain ⟨⟨hNull, -⟩, hStep⟩ := Option.ite_none_right_eq_some.mp hStep
  obtain rfl := Option.some.inj hStep
  have hSame := update_run hRun
  by_cases hUp : s.tracker.enableMallocHook = true
  · refine ⟨[.mallocRead t, .mallocClear t, .mallocReal t r, .mallocRecord t, .mallocRestore t],
      true, by simp [Action.thread], ?_⟩
    simp [run, step, hRun, hUp, hNull, hFresh, hSame, State.setPc, State.mallocReturns,
      Tracker.mallocF, Tracker.writeRecord, Tracker.malloc]
  · refine ⟨[.mallocRead t, .mallocReal t r], false, by simp [Action.thread], ?_⟩
    simp [run, step, hRun, hUp, hNull, hFresh, hSame, State.setPc, State.mallocReturns,
      Tracker.mallocF, Tracker.malloc]

/-- **`free` in one piece**, on each of its three ways out. -/
theorem free_in_one_piece {ptr : Ptr} (hRun : s.pc t = .run) (hLive : ptr ∈ s.tracker.live)
    (hStep : LeakCheck.step s.tracker (.free ptr none) = some tracker) :
    ∃ as unlinked freed, (∀ a ∈ as, a.thread = t) ∧ run step s as =
      some { s with tracker := tracker, done := s.done ++ [.free ptr unlinked freed] } := by
  obtain ⟨-, hStep⟩ := Option.ite_none_right_eq_some.mp hStep
  obtain rfl := Option.some.inj hStep
  have hSame := update_run hRun
  by_cases hUp : s.tracker.enableFreeHook = true
  · cases hFile : s.tracker.mem ptr with
    -- the report
    | none =>
        refine ⟨[.freeRead t ptr, .freeClear t, .freeUnlink t], false, false,
          by simp [Action.thread], ?_⟩
        simp [run, step, hRun, hLive, hUp, hFile, hSame, State.setPc, State.freeReturns,
          Tracker.unlink, Tracker.report, Tracker.free]
    | some r =>
        refine ⟨[.freeRead t ptr, .freeClear t, .freeUnlink t, .freeReal t, .freeRestore t],
          true, true, by simp [Action.thread], ?_⟩
        simp [run, step, hRun, hLive, hUp, hFile, hSame, State.setPc, State.freeReturns,
          Tracker.unlink, Tracker.freeF, Tracker.free]
  · refine ⟨[.freeRead t ptr, .freeReal t], false, true, by simp [Action.thread], ?_⟩
    simp [run, step, hRun, hLive, hUp, hSame, State.setPc, State.freeReturns, Tracker.freeF,
      Tracker.free]

end

/-! ## What the hooks promise -/

/-- What a call of the hooks promises when it returns. -/
def Done.Good : Done → Prop
  | .malloc _ recorded => recorded = true
  | .free _ unlinked freed => unlinked = true ∧ freed = true

instance (d : Done) : Decidable d.Good := by
  cases d with
  | malloc p recorded => exact inferInstanceAs (Decidable (_ = _))
  | free ptr unlinked freed => exact inferInstanceAs (Decidable (_ ∧ _))

/-- The tracker is right: every call so far has done what it promises, nothing
was reported, and every block the application holds has its file.  Of other files
nothing is said: `fopen` and `printf` ask for memory of their own. -/
structure Right (s : State) : Prop where
  done : ∀ d ∈ s.done, d.Good
  quiet : s.tracker.doubleFree = []
  records : ∀ p ∈ s.tracker.live, s.tracker.mem p ≠ none

/-- A call reads its flag only while it is set: no other call of the same
function has cleared it and not set it again. -/
def FlagUp (s : State) : Action → Prop
  | .mallocRead _ => s.tracker.enableMallocHook = true
  | .freeRead _ _ => s.tracker.enableFreeHook = true
  | _ => True

instance (s : State) (a : Action) : Decidable (FlagUp s a) := by
  cases a with
  | mallocRead t => exact inferInstanceAs (Decidable (_ = _))
  | freeRead t ptr => exact inferInstanceAs (Decidable (_ = _))
  | _ => exact inferInstanceAs (Decidable True)

/-- The steps of a run in which every call has found its flag set. -/
inductive Move (s : State) : Action → State → Prop
  | mallocRead {t : Nat} (hPc : s.pc t = .run) :
      Move s (.mallocRead t) (s.setPc t .mallocClear)
  | mallocClear {t : Nat} (hPc : s.pc t = .mallocClear) :
      Move s (.mallocClear t) { s.setPc t (.mallocReal true) with
        tracker := { s.tracker with enableMallocHook := false } }
  | mallocReal {t : Nat} {r : Request} (hPc : s.pc t = .mallocReal true)
      (hFresh : r.p ∉ s.tracker.heap) :
      Move s (.mallocReal t r) { s.setPc t (.mallocRecord r) with
        tracker := s.tracker.mallocF r.p }
  | mallocRecord {t : Nat} {r : Request} (hPc : s.pc t = .mallocRecord r) :
      Move s (.mallocRecord t) { s.setPc t (.mallocRestore r) with
        tracker := s.tracker.writeRecord r }
  | mallocRestore {t : Nat} {r : Request} (hPc : s.pc t = .mallocRestore r) :
      Move s (.mallocRestore t) (State.mallocReturns
        { s with tracker := { s.tracker with enableMallocHook := true } } t r.p true)
  | freeRead {t : Nat} {ptr : Ptr} (hPc : s.pc t = .run) (hLive : ptr ∈ s.tracker.live) :
      Move s (.freeRead t ptr) { s.setPc t (.freeClear ptr) with
        tracker := { s.tracker with live := s.tracker.live.erase ptr } }
  | freeClear {t : Nat} {ptr : Ptr} (hPc : s.pc t = .freeClear ptr) :
      Move s (.freeClear t) { s.setPc t (.freeUnlink ptr) with
        tracker := { s.tracker with enableFreeHook := false } }
  | freeUnlink {t : Nat} {ptr : Ptr} (hPc : s.pc t = .freeUnlink ptr) :
      Move s (.freeUnlink t) { s.setPc t (.freeReal ptr true) with
        tracker := { s.tracker with mem := Function.update s.tracker.mem ptr none } }
  | freeReal {t : Nat} {ptr : Ptr} (hPc : s.pc t = .freeReal ptr true) :
      Move s (.freeReal t) { s.setPc t (.freeRestore ptr) with
        tracker := s.tracker.freeF ptr }
  | freeRestore {t : Nat} {ptr : Ptr} (hPc : s.pc t = .freeRestore ptr) :
      Move s (.freeRestore t) (State.freeReturns
        { s with tracker := { s.tracker with enableFreeHook := true } } t ptr true true)

/-- The block a thread has in its hands: allocated and not returned yet, or
given to `free` and not freed yet. -/
def Pc.inHand : Pc → Option Ptr
  | .mallocRecord r | .mallocRestore r => some r.p
  | .freeClear ptr | .freeUnlink ptr | .freeReal ptr _ => some ptr
  | _ => none

/-- The block in hand has its file. -/
def Pc.hasFile : Pc → Bool
  | .mallocRestore _ | .freeClear _ | .freeUnlink _ => true
  | _ => false

/-- The thread has read a cleared flag. -/
def Pc.bypass : Pc → Bool
  | .mallocReal tracked | .freeReal _ tracked => !tracked
  | _ => false

structure ThreadsInv (s : State) : Prop where
  tracked : ∀ t, (s.pc t).bypass = false
  live_heap : s.tracker.live ⊆ s.tracker.heap
  live_file : ∀ p ∈ s.tracker.live, s.tracker.mem p ≠ none
  hand_heap : ∀ t p, (s.pc t).inHand = some p → p ∈ s.tracker.heap ∧ p ∉ s.tracker.live
  hand_file : ∀ t p, (s.pc t).inHand = some p →
    (s.tracker.mem p ≠ none ↔ (s.pc t).hasFile = true)
  hand_once : ∀ t u p, (s.pc t).inHand = some p → (s.pc u).inHand = some p → t = u
  file_owner : ∀ p, s.tracker.mem p ≠ none →
    p ∈ s.tracker.live ∨ ∃ t, (s.pc t).inHand = some p
  quiet : s.tracker.doubleFree = []
  done : ∀ d ∈ s.done, d.Good

theorem threadsInv_init : ThreadsInv init where
  tracked t := rfl
  live_heap := Finset.Subset.refl _
  live_file p h := by simp [init, Tracker.init] at h
  hand_heap t p h := by simp [init, Pc.inHand] at h
  hand_file t p h := by simp [init, Pc.inHand] at h
  hand_once t u p h := by simp [init, Pc.inHand] at h
  file_owner p h := by simp [init, Tracker.init] at h
  quiet := rfl
  done d h := by simp [init] at h

/-- **Inversion of a step** whose call finds its flag set. -/
theorem step_move {s s' : State} {a : Action} (h : ThreadsInv s) (hUp : FlagUp s a)
    (hStep : step s a = some s') : Move s a s' := by
  cases a with
  | mallocRead t =>
      simp only [step] at hStep
      split at hStep
      · rename_i hPc
        have hUp : s.tracker.enableMallocHook = true := hUp
        rw [if_pos hUp] at hStep
        exact Option.some.inj hStep ▸ .mallocRead hPc
      · simp at hStep
  | mallocClear t =>
      simp only [step] at hStep
      split at hStep
      · rename_i hPc
        exact Option.some.inj hStep ▸ .mallocClear hPc
      · simp at hStep
  | mallocReal t r =>
      simp only [step] at hStep
      split at hStep
      · rename_i tracked hPc
        have hTracked : tracked = true := by
          have hBypass := h.tracked t
          simpa [hPc, Pc.bypass] using hBypass
        subst hTracked
        split at hStep
        · rename_i hFresh
          exact Option.some.inj hStep ▸ .mallocReal hPc hFresh.2
        · simp at hStep
      · simp at hStep
  | mallocRecord t =>
      simp only [step] at hStep
      split at hStep
      · rename_i r hPc
        exact Option.some.inj hStep ▸ .mallocRecord hPc
      · simp at hStep
  | mallocRestore t =>
      simp only [step] at hStep
      split at hStep
      · rename_i r hPc
        exact Option.some.inj hStep ▸ .mallocRestore hPc
      · simp at hStep
  | freeRead t ptr =>
      simp only [step] at hStep
      split at hStep
      · rename_i hPc
        split at hStep
        · rename_i hLive
          have hUp : s.tracker.enableFreeHook = true := hUp
          rw [if_pos hUp] at hStep
          exact Option.some.inj hStep ▸ .freeRead hPc hLive
        · simp at hStep
      · simp at hStep
  | freeClear t =>
      simp only [step] at hStep
      split at hStep
      · rename_i ptr hPc
        exact Option.some.inj hStep ▸ .freeClear hPc
      · simp at hStep
  | freeUnlink t =>
      simp only [step] at hStep
      split at hStep
      · rename_i ptr hPc
        -- the file is there, so the report is not reached
        have hFile : s.tracker.mem ptr ≠ none := by
          apply (h.hand_file t ptr (by rw [hPc]; rfl)).mpr
          rw [hPc]
          rfl
        obtain ⟨r, hr⟩ := Option.ne_none_iff_exists'.mp hFile
        simp only [Tracker.unlink, hr] at hStep
        exact Option.some.inj hStep ▸ .freeUnlink hPc
      · simp at hStep
  | freeReal t =>
      simp only [step] at hStep
      split at hStep
      · rename_i ptr tracked hPc
        have hTracked : tracked = true := by
          have hBypass := h.tracked t
          simpa [hPc, Pc.bypass] using hBypass
        subst hTracked
        exact Option.some.inj hStep ▸ .freeReal hPc
      · simp at hStep
  | freeRestore t =>
      simp only [step] at hStep
      split at hStep
      · rename_i ptr hPc
        exact Option.some.inj hStep ▸ .freeRestore hPc
      · simp at hStep

/-- A thread moves to `pc` with the block `p` and touches no other block. -/
theorem ThreadsInv.touch {s s' : State} (h : ThreadsInv s) (t : Nat) (p : Ptr) {pc : Pc}
    (hPc : s'.pc = Function.update s.pc t pc)
    (hLive : ∀ q ≠ p, q ∈ s'.tracker.live ↔ q ∈ s.tracker.live)
    (hHeap : ∀ q ≠ p, q ∈ s.tracker.heap → q ∈ s'.tracker.heap)
    (hMem : ∀ q ≠ p, s'.tracker.mem q = s.tracker.mem q)
    (hOld : ∀ q, (s.pc t).inHand = some q → q = p)
    (hNew : ∀ q, pc.inHand = some q → q = p)
    (hOthers : ∀ u ≠ t, (s.pc u).inHand ≠ some p)
    (hBypass : pc.bypass = false)
    (hAtLive : p ∈ s'.tracker.live →
      p ∈ s'.tracker.heap ∧ s'.tracker.mem p ≠ none ∧ pc.inHand ≠ some p)
    (hAtHand : pc.inHand = some p →
      p ∈ s'.tracker.heap ∧ (s'.tracker.mem p ≠ none ↔ pc.hasFile = true))
    (hAtFile : s'.tracker.mem p ≠ none → p ∈ s'.tracker.live ∨ pc.inHand = some p)
    (hQuiet : s'.tracker.doubleFree = s.tracker.doubleFree)
    (hDone : ∀ d ∈ s'.done, d ∈ s.done ∨ d.Good) : ThreadsInv s' := by
  have hSelf : s'.pc t = pc := by rw [hPc, Function.update_self]
  have hElse : ∀ u ≠ t, s'.pc u = s.pc u := fun u hu => by rw [hPc, Function.update_of_ne hu]
  -- a block in another thread's hands is not `p`
  have hOther : ∀ u ≠ t, ∀ q, (s'.pc u).inHand = some q →
      (s.pc u).inHand = some q ∧ q ≠ p := by
    intro u hu q hq
    rw [hElse u hu] at hq
    refine ⟨hq, ?_⟩
    rintro rfl
    exact hOthers u hu hq
  constructor
  · intro u
    by_cases hu : u = t
    · subst hu
      rw [hSelf]
      exact hBypass
    · rw [hElse u hu]
      exact h.tracked u
  · intro q hq
    by_cases hqp : q = p
    · subst hqp
      exact (hAtLive hq).1
    · exact hHeap q hqp (h.live_heap ((hLive q hqp).mp hq))
  · intro q hq
    by_cases hqp : q = p
    · subst hqp
      exact (hAtLive hq).2.1
    · rw [hMem q hqp]
      exact h.live_file q ((hLive q hqp).mp hq)
  · intro u q hq
    by_cases hu : u = t
    · subst hu
      rw [hSelf] at hq
      obtain rfl := hNew q hq
      exact ⟨(hAtHand hq).1, fun hIn => (hAtLive hIn).2.2 hq⟩
    · obtain ⟨hq, hqp⟩ := hOther u hu q hq
      have hOwn := h.hand_heap u q hq
      exact ⟨hHeap q hqp hOwn.1, fun hIn => hOwn.2 ((hLive q hqp).mp hIn)⟩
  · intro u q hq
    by_cases hu : u = t
    · subst hu
      rw [hSelf] at hq ⊢
      obtain rfl := hNew q hq
      exact (hAtHand hq).2
    · obtain ⟨hq, hqp⟩ := hOther u hu q hq
      rw [hMem q hqp, hElse u hu]
      exact h.hand_file u q hq
  · intro u v q hq hq'
    by_cases hu : u = t
    · by_cases hv : v = t
      · rw [hu, hv]
      · subst hu
        rw [hSelf] at hq
        exact absurd (hNew q hq) (hOther v hv q hq').2
    · by_cases hv : v = t
      · subst hv
        rw [hSelf] at hq'
        exact absurd (hNew q hq') (hOther u hu q hq).2
      · exact h.hand_once u v q (hOther u hu q hq).1 (hOther v hv q hq').1
  · intro q hq
    by_cases hqp : q = p
    · subst hqp
      rcases hAtFile hq with hIn | hHand
      · exact .inl hIn
      · exact .inr ⟨t, by rw [hSelf]; exact hHand⟩
    · rw [hMem q hqp] at hq
      rcases h.file_owner q hq with hIn | ⟨u, hHand⟩
      · exact .inl ((hLive q hqp).mpr hIn)
      · have hu : u ≠ t := by
          rintro rfl
          exact hqp (hOld q hHand)
        exact .inr ⟨u, by rw [hElse u hu]; exact hHand⟩
  · rw [hQuiet]
    exact h.quiet
  · intro d hd
    rcases hDone d hd with hOldDone | hGood
    · exact h.done d hOldDone
    · exact hGood

/-- Nobody else has the block that a thread has in its hands. -/
theorem ThreadsInv.only_hand {s : State} (h : ThreadsInv s) {t : Nat} {p : Ptr}
    (hHand : (s.pc t).inHand = some p) : ∀ u ≠ t, (s.pc u).inHand ≠ some p :=
  fun u hu hHand' => hu (h.hand_once u t p hHand' hHand)

/-- What is the same of the new place of one thread is the same of every thread's. -/
theorem same_of_update {β : Type} (f : Pc → β) {place : Nat → Pc} {t : Nat} {pc : Pc}
    (hSame : f pc = f (place t)) (u : Nat) : f (Function.update place t pc u) = f (place u) := by
  by_cases hu : u = t
  · subst hu
    rw [Function.update_self, hSame]
  · rw [Function.update_of_ne hu]

/-- A thread moves and touches no block. -/
theorem ThreadsInv.flag {s s' : State} (h : ThreadsInv s) (t : Nat) {pc : Pc}
    (hPc : s'.pc = Function.update s.pc t pc) (hHand : pc.inHand = (s.pc t).inHand)
    (hFile : pc.hasFile = (s.pc t).hasFile) (hBypass : pc.bypass = false)
    (hLive : s'.tracker.live = s.tracker.live) (hHeap : s'.tracker.heap = s.tracker.heap)
    (hMem : s'.tracker.mem = s.tracker.mem)
    (hQuiet : s'.tracker.doubleFree = s.tracker.doubleFree)
    (hDone : ∀ d ∈ s'.done, d ∈ s.done ∨ d.Good) : ThreadsInv s' := by
  have hHands : ∀ u, (s'.pc u).inHand = (s.pc u).inHand := by
    intro u
    rw [hPc]
    exact same_of_update Pc.inHand hHand u
  have hFiles : ∀ u, (s'.pc u).hasFile = (s.pc u).hasFile := by
    intro u
    rw [hPc]
    exact same_of_update Pc.hasFile hFile u
  constructor
  · intro u
    rw [hPc, same_of_update Pc.bypass (hBypass.trans (h.tracked t).symm)]
    exact h.tracked u
  · rw [hLive, hHeap]
    exact h.live_heap
  · rw [hLive, hMem]
    exact h.live_file
  · intro u q
    rw [hHands, hHeap, hLive]
    exact h.hand_heap u q
  · intro u q
    rw [hHands, hFiles, hMem]
    exact h.hand_file u q
  · intro u v q
    rw [hHands, hHands]
    exact h.hand_once u v q
  · intro q
    simp only [hHands, hMem, hLive]
    exact h.file_owner q
  · rw [hQuiet]
    exact h.quiet
  · intro d hd
    rcases hDone d hd with hOldDone | hGood
    · exact h.done d hOldDone
    · exact hGood

/-- A thread that holds `p` holds nothing else. -/
theorem eq_of_inHand {pc : Pc} {p q : Ptr} (hHand : pc.inHand = some p)
    (hHand' : pc.inHand = some q) : q = p :=
  Option.some.inj (hHand'.symm.trans hHand)

theorem done_or_good {done : List Done} {d : Done} (hGood : d.Good) :
    ∀ e ∈ done ++ [d], e ∈ done ∨ e.Good := by
  intro e he
  rcases List.mem_append.mp he with hOld | hNew
  · exact .inl hOld
  · obtain rfl := List.mem_singleton.mp hNew
    exact .inr hGood

theorem threadsInv_move {s s' : State} {a : Action} (h : ThreadsInv s) (hMove : Move s a s') :
    ThreadsInv s' := by
  cases hMove with
  | @mallocRead t hPc =>
      exact h.flag t rfl (by rw [hPc]; rfl) (by rw [hPc]; rfl) rfl rfl rfl rfl rfl
        (fun d hd => .inl hd)
  | @mallocClear t hPc =>
      exact h.flag t rfl (by rw [hPc]; rfl) (by rw [hPc]; rfl) rfl rfl rfl rfl rfl
        (fun d hd => .inl hd)
  | @mallocReal t r hPc hFresh =>
      have hNotLive : r.p ∉ s.tracker.live := fun hIn => hFresh (h.live_heap hIn)
      have hNobody : ∀ u, (s.pc u).inHand ≠ some r.p := fun u hHand =>
        hFresh (h.hand_heap u r.p hHand).1
      -- the new block has no file: every file belongs to an allocated block
      have hNoFile : s.tracker.mem r.p = none := by
        by_contra hFile
        rcases h.file_owner r.p hFile with hIn | ⟨u, hHand⟩
        · exact hNotLive hIn
        · exact hNobody u hHand
      refine h.touch t r.p rfl (fun q _ => Iff.rfl) ?_ (fun q _ => rfl) ?_
        (fun q => eq_of_inHand rfl) (fun u _ => hNobody u) rfl ?_ ?_ ?_ rfl
        (fun d hd => .inl hd)
      · intro q _ hq
        exact Finset.mem_insert_of_mem hq
      · intro q hq
        simp [hPc, Pc.inHand] at hq
      · intro hIn
        exact absurd hIn hNotLive
      · intro _
        simp [Tracker.mallocF, Pc.hasFile, hNoFile]
      · intro hFile
        exact absurd hNoFile hFile
  | @mallocRecord t r hPc =>
      have hHand : (s.pc t).inHand = some r.p := by rw [hPc]; rfl
      have hOwn := h.hand_heap t r.p hHand
      refine h.touch t r.p rfl (fun q _ => Iff.rfl) (fun q _ hq => hq) ?_
        (fun q => eq_of_inHand hHand) (fun q => eq_of_inHand rfl) (h.only_hand hHand) rfl
        ?_ ?_ (fun _ => .inr rfl) rfl (fun d hd => .inl hd)
      · intro q hq
        simp [Tracker.writeRecord, hq]
      · intro hIn
        exact absurd hIn hOwn.2
      · intro _
        exact ⟨hOwn.1, by simp [Tracker.writeRecord, Pc.hasFile]⟩
  | @mallocRestore t r hPc =>
      have hHand : (s.pc t).inHand = some r.p := by rw [hPc]; rfl
      have hOwn := h.hand_heap t r.p hHand
      have hFile : s.tracker.mem r.p ≠ none :=
        (h.hand_file t r.p hHand).mpr (by rw [hPc]; rfl)
      refine h.touch t r.p rfl ?_ (fun q _ hq => hq) (fun q _ => rfl)
        (fun q => eq_of_inHand hHand) (by simp [Pc.inHand]) (h.only_hand hHand) rfl ?_
        (by simp [Pc.inHand]) ?_ rfl (done_or_good rfl)
      · intro q hq
        simp [State.mallocReturns, hq]
      · intro _
        exact ⟨hOwn.1, hFile, by simp [Pc.inHand]⟩
      · intro _
        left
        simp [State.mallocReturns]
  | @freeRead t ptr hPc hLive =>
      have hHeap : ptr ∈ s.tracker.heap := h.live_heap hLive
      have hFile : s.tracker.mem ptr ≠ none := h.live_file ptr hLive
      have hNobody : ∀ u, (s.pc u).inHand ≠ some ptr := fun u hHand =>
        (h.hand_heap u ptr hHand).2 hLive
      refine h.touch t ptr rfl ?_ (fun q _ hq => hq) (fun q _ => rfl) ?_
        (fun q => eq_of_inHand rfl) (fun u _ => hNobody u) rfl ?_ ?_ (fun _ => .inr rfl) rfl
        (fun d hd => .inl hd)
      · intro q hq
        simp [hq]
      · intro q hq
        simp [hPc, Pc.inHand] at hq
      · intro hIn
        simp at hIn
      · intro _
        exact ⟨hHeap, by simpa [Pc.hasFile] using hFile⟩
  | @freeClear t ptr hPc =>
      exact h.flag t rfl (by rw [hPc]; rfl) (by rw [hPc]; rfl) rfl rfl rfl rfl rfl
        (fun d hd => .inl hd)
  | @freeUnlink t ptr hPc =>
      have hHand : (s.pc t).inHand = some ptr := by rw [hPc]; rfl
      have hOwn := h.hand_heap t ptr hHand
      refine h.touch t ptr rfl (fun q _ => Iff.rfl) (fun q _ hq => hq) ?_
        (fun q => eq_of_inHand hHand) (fun q => eq_of_inHand rfl) (h.only_hand hHand) rfl
        ?_ ?_ ?_ rfl (fun d hd => .inl hd)
      · intro q hq
        simp [hq]
      · intro hIn
        exact absurd hIn hOwn.2
      · intro _
        exact ⟨hOwn.1, by simp [Pc.hasFile]⟩
      · intro hFile
        simp at hFile
  | @freeReal t ptr hPc =>
      have hHand : (s.pc t).inHand = some ptr := by rw [hPc]; rfl
      have hOwn := h.hand_heap t ptr hHand
      have hNoFile : s.tracker.mem ptr = none := by
        by_contra hFile
        have hHas := (h.hand_file t ptr hHand).mp hFile
        simp [hPc, Pc.hasFile] at hHas
      refine h.touch t ptr rfl (fun q _ => Iff.rfl) ?_ (fun q _ => rfl)
        (fun q => eq_of_inHand hHand) (by simp [Pc.inHand]) (h.only_hand hHand) rfl
        ?_ (by simp [Pc.inHand]) ?_ rfl (fun d hd => .inl hd)
      · intro q hq hIn
        exact Finset.mem_erase_of_ne_of_mem hq hIn
      · intro hIn
        exact absurd hIn hOwn.2
      · intro hFile
        exact absurd hNoFile hFile
  | @freeRestore t ptr hPc =>
      exact h.flag t rfl (by rw [hPc]; rfl) (by rw [hPc]; rfl) rfl rfl rfl rfl rfl
        (done_or_good ⟨rfl, rfl⟩)

theorem ThreadsInv.right {s : State} (h : ThreadsInv s) : Right s where
  done := h.done
  quiet := h.quiet
  records := h.live_file

theorem threadsInv_reach {s : State} (h : Reach step FlagUp init s) : ThreadsInv s :=
  h.invariant threadsInv_init fun _ _ _ hInv hUp hStep =>
    threadsInv_move hInv (step_move hInv hUp hStep)

/-- A `malloc` that has read the flag as cleared returns a block without a
file. -/
theorem malloc_bypass {s s' : State} {t : Nat} (hDown : s.tracker.enableMallocHook = false)
    (hStep : step s (.mallocRead t) = some s') : ∃ u, Reachable step s' u ∧ ¬ Right u := by
  obtain ⟨p, hFresh⟩ := Infinite.exists_notMem_finset (insert 0 s.tracker.heap)
  simp only [Finset.mem_insert, not_or] at hFresh
  simp only [step] at hStep
  split at hStep
  · rw [if_neg (by simp [hDown])] at hStep
    obtain rfl := Option.some.inj hStep
    let r : Request := ⟨p, 1, 0⟩
    let s' := s.setPc t (.mallocReal false)
    let u := State.mallocReturns { s' with tracker := s'.tracker.mallocF p } t p false
    have hReal : step s' (.mallocReal t r) = some u := by
      simp [step, s', u, r, State.setPc, hFresh]
    refine ⟨u, Reach.next _ Reach.start trivial hReal, fun hRight => ?_⟩
    have hGood := hRight.done (.malloc p false) (by simp [u, State.mallocReturns])
    simp [Done.Good] at hGood
  · simp at hStep

/-- A `free` that has read the flag as cleared removes no file. -/
theorem free_bypass {s s' : State} {t : Nat} {ptr : Ptr}
    (hDown : s.tracker.enableFreeHook = false) (hStep : step s (.freeRead t ptr) = some s') :
    ∃ u, Reachable step s' u ∧ ¬ Right u := by
  simp only [step] at hStep
  split at hStep
  · split at hStep
    · rw [if_neg (by simp [hDown])] at hStep
      obtain rfl := Option.some.inj hStep
      let s' : State := { s.setPc t (.freeReal ptr false) with
        tracker := { s.tracker with live := s.tracker.live.erase ptr } }
      let u := State.freeReturns { s' with tracker := s'.tracker.freeF ptr } t ptr false true
      have hReal : step s' (.freeReal t) = some u := by
        simp [step, s', u, State.setPc]
      refine ⟨u, Reach.next _ Reach.start trivial hReal, fun hRight => ?_⟩
      have hGood := hRight.done (.free ptr false true) (by simp [u, State.freeReturns])
      simp [Done.Good] at hGood
    · simp at hStep
  · simp at hStep

/-- Two threads use the hooks one after the other; one frees the block of the
other. -/
def oneAfterTheOther : List Action :=
  [.mallocRead 0, .mallocClear 0, .mallocReal 0 ⟨1, 10, 7⟩, .mallocRecord 0, .mallocRestore 0,
    .mallocRead 1, .mallocClear 1, .mallocReal 1 ⟨2, 20, 7⟩, .mallocRecord 1, .mallocRestore 1,
    .freeRead 1 1, .freeClear 1, .freeUnlink 1, .freeReal 1, .freeRestore 1]

/-- Thread 1 calls `malloc` while thread 0 has the flag cleared, and frees the
block later. -/
def overlappingMallocs : List Action :=
  [.mallocRead 0, .mallocClear 0, .mallocRead 1, .mallocReal 1 ⟨1, 10, 7⟩,
    .mallocReal 0 ⟨2, 20, 7⟩, .mallocRecord 0, .mallocRestore 0,
    .freeRead 1 1, .freeClear 1, .freeUnlink 1]

end Threads
end LeakCheck
end LinuxCppLearn
