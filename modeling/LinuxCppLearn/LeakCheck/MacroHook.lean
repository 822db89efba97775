import LinuxCppLearn.LeakCheck.Model

/-!
# The leak tracker made of two macros

`macro_hook.c` does without flags: the macros `malloc` and `free` come behind
the hooks, so the calls inside them are the real ones.  `malloc_hook` makes a
file for whatever the real `malloc` has returned, `free_hook` reports every
pointer without a file.

* `Exact` — what the tracker promises of a call: the files are those of the
  blocks, and a `free` is reported exactly when its pointer is neither `NULL`
  nor a block.
* `BlocksInv` — the state in which every call starts as long as no call is about
  `NULL`.
* `block_files_exact_exactly` — the law over all sequences of calls: a `malloc`
  that fails leaves a file, and `free(NULL)` is reported.
-/

namespace LinuxCppLearn
namespace LeakCheck
namespace MacroHook

open StepSystem

/-- `__FILE__`, `__FUNCTION__` and `__LINE__` of a call. -/
structure Site where
  file : String
  func : String
  line : Nat
deriving DecidableEq, Repr

/-- The line in a record file. -/
structure BlockRecord where
  site : Site
  addr : Ptr
  size : Nat
deriving DecidableEq, Repr

structure Tracker where
  /-- the files of `./mem`, each under the pointer in its name -/
  mem : Ptr → Option BlockRecord
  /-- the pointers printed as double free -/
  doubleFree : List Ptr
  /-- the blocks got through `malloc_hook` that are not freed -/
  blocks : Finset Ptr

/-- With `./mem` empty. -/
def Tracker.init : Tracker where
  mem _ := none
  doubleFree := []
  blocks := ∅

namespace Tracker

/-- The real `malloc` returns `p`. -/
def realMalloc (t : Tracker) (p : Ptr) : Tracker :=
  if p = 0 then t else { t with blocks := insert p t.blocks }

/-- The real `free`. -/
def realFree (t : Tracker) (p : Ptr) : Tracker :=
  { t with blocks := t.blocks.erase p }

/-- `unlink(buff)`, `none` when it fails. -/
def unlink (t : Tracker) (p : Ptr) : Option Tracker :=
  match t.mem p with
  | none => none
  | some _ => some { t with mem := Function.update t.mem p none }

/-- `malloc_hook`, for which the real `malloc` returns `p` -/
def mallocHook (t : Tracker) (size : Nat) (site : Site) (p : Ptr) : Tracker :=
  let t := t.realMalloc p
  -- `p` is not tested in front of `fopen(buff, "w")`
  { t with mem := Function.update t.mem p (some ⟨site, p, size⟩) }

/-- `free_hook` -/
def freeHook (t : Tracker) (p : Ptr) : Tracker :=
  match t.unlink p with
  | none => { t with doubleFree := t.doubleFree ++ [p] }
  | some t => t.realFree p

end Tracker

/-- A call of the application, with the answer of the real `malloc`. -/
inductive HookCall
  | malloc (size : Nat) (site : Site) (p : Ptr)
  | free (p : Ptr)
deriving DecidableEq, Repr

/-- `malloc` returns `NULL` or an address that is not in use; `free` may be given
any pointer. -/
def step (t : Tracker) : HookCall → Option Tracker
  | .malloc size site p =>
      if p = 0 ∨ p ∉ t.blocks then some (t.mallocHook size site p) else none
  | .free p => some (t.freeHook p)

/-! ## The law -/

/-- What the tracker promises of the call that leads from `t` to `t'`. -/
structure Exact (t : Tracker) (call : HookCall) (t' : Tracker) : Prop where
  files : ∀ p, t'.mem p ≠ none ↔ p ∈ t'.blocks
  reports : t'.doubleFree =
    match call with
    | .malloc _ _ _ => t.doubleFree
    | .free p => if p ≠ 0 ∧ p ∉ t.blocks then t.doubleFree ++ [p] else t.doubleFree
  blocks : t'.blocks =
    match call with
    | .malloc _ _ p => if p = 0 then t.blocks else insert p t.blocks
    | .free p => t.blocks.erase p

/-- The pointer of the call is not `NULL`: `malloc` has not failed, and `free` is
given a pointer. -/
def NotNull : HookCall → Prop
  | .malloc _ _ p => p ≠ 0
  | .free p => p ≠ 0

/-- The files are those of the blocks, and no block is `NULL`. -/
structure BlocksInv (t : Tracker) : Prop where
  files : ∀ p, t.mem p ≠ none ↔ p ∈ t.blocks
  nonzero : 0 ∉ t.blocks

theorem blocksInv_init : BlocksInv Tracker.init where
  files p := by simp [Tracker.init]
  nonzero := by simp [Tracker.init]

namespace Tracker

variable {t : Tracker} {p q : Ptr}

theorem mallocHook_mem (t : Tracker) (size : Nat) (site : Site) (p q : Ptr) :
    (t.mallocHook size site p).mem q ≠ none ↔ q = p ∨ t.mem q ≠ none := by
  have hMem : (t.realMalloc p).mem = t.mem := by
    unfold realMalloc
    split <;> rfl
  by_cases hEq : q = p
  · simp [mallocHook, hEq]
  · simp [mallocHook, hEq, hMem]

theorem mallocHook_blocks (t : Tracker) (size : Nat) (site : Site) (p : Ptr) :
    (t.mallocHook size site p).blocks = if p = 0 then t.blocks else insert p t.blocks := by
  show (t.realMalloc p).blocks = _
  unfold realMalloc
  split <;> rfl

theorem mallocHook_doubleFree (t : Tracker) (size : Nat) (site : Site) (p : Ptr) :
    (t.mallocHook size site p).doubleFree = t.doubleFree := by
  show (t.realMalloc p).doubleFree = _
  unfold realMalloc
  split <;> rfl

/-- A pointer with a file loses it, and its block is freed. -/
theorem freeHook_recorded (hFile : t.mem p ≠ none) :
    t.freeHook p = { t with
      mem := Function.update t.mem p none
      blocks := t.blocks.erase p } := by
  obtain ⟨r, hFile⟩ := Option.ne_none_iff_exists'.mp hFile
  simp [freeHook, unlink, realFree, hFile]

/-- A pointer without a file is reported, and nothing else happens. -/
theorem freeHook_unrecorded (hFile : t.mem p = none) :
    t.freeHook p = { t with doubleFree := t.doubleFree ++ [p] } := by
  simp [freeHook, unlink, hFile]

end Tracker

/-- **A call about no null pointer** keeps its promise. -/
theorem exact_of_notNull {t t' : Tracker} {call : HookCall} (h : BlocksInv t)
    (hNotNull : NotNull call) (hStep : step t call = some t') :
    Exact t call t' ∧ BlocksInv t' := by
  cases call with
  | malloc size site p =>
      obtain ⟨-, hStep⟩ := Option.ite_none_right_eq_some.mp hStep
      obtain rfl := Option.some.inj hStep
      have hBlocks := t.mallocHook_blocks size site p
      rw [if_neg hNotNull] at hBlocks
      have hFiles : ∀ q, (t.mallocHook size site p).mem q ≠ none ↔
          q ∈ (t.mallocHook size site p).blocks := by
        intro q
        rw [t.mallocHook_mem, hBlocks, Finset.mem_insert, h.files]
      refine ⟨⟨hFiles, t.mallocHook_doubleFree size site p, t.mallocHook_blocks size site p⟩,
        hFiles, ?_⟩
      rw [hBlocks, Finset.mem_insert, not_or]
      exact ⟨Ne.symm hNotNull, h.nonzero⟩
  | free p =>
      obtain rfl := Option.some.inj hStep
      have hNotNull : p ≠ 0 := hNotNull
      by_cases hBlock : p ∈ t.blocks
      · -- the file and the block go together
        rw [Tracker.freeHook_recorded ((h.files p).mpr hBlock)]
        have hFiles : ∀ q, Function.update t.mem p none q ≠ none ↔ q ∈ t.blocks.erase p := by
          intro q
          by_cases hEq : q = p
          · simp [hEq]
          · simpa [hEq] using h.files q
        refine ⟨⟨hFiles, ?_, rfl⟩, hFiles, fun hMem => h.nonzero (Finset.mem_of_mem_erase hMem)⟩
        simp [hBlock]
      · -- nothing is there to free
        have hFile : t.mem p = none := by
          by_contra hFile
          exact hBlock ((h.files p).mp hFile)
        rw [Tracker.freeHook_unrecorded hFile]
        refine ⟨⟨h.files, ?_, ?_⟩, h.files, h.nonzero⟩
        · simp [hBlock, hNotNull]
        · simp [hBlock]

/-- **A call about `NULL`** breaks its promise: the failed `malloc` leaves a file
without a block, and `free(NULL)` is reported. -/
theorem not_exact_of_null {t t' : Tracker} {call : HookCall} (h : BlocksInv t)
    (hNull : ¬ NotNull call) (hStep : step t call = some t') : ¬ Exact t call t' := by
  intro hExact
  cases call with
  | malloc size site p =>
      obtain ⟨-, hStep⟩ := Option.ite_none_right_eq_some.mp hStep
      obtain rfl := Option.some.inj hStep
      obtain rfl : p = 0 := by simpa [NotNull] using hNull
      have hBlock := (hExact.files 0).mp ((t.mallocHook_mem size site 0 0).mpr (.inl rfl))
      rw [t.mallocHook_blocks, if_pos rfl] at hBlock
      exact h.nonzero hBlock
  | free p =>
      obtain rfl := Option.some.inj hStep
      obtain rfl : p = 0 := by simpa [NotNull] using hNull
      have hFile : t.mem 0 = none := by
        by_contra hFile
        exact h.nonzero ((h.files 0).mp hFile)
      have hReports := hExact.reports
      rw [Tracker.freeHook_unrecorded hFile] at hReports
      simp at hReports

/-- **The block files are exact exactly on the runs without `NULL`**: every call
of a sequence keeps its promise if and only if no `malloc` in it fails and no
`free` in it gets a null pointer. -/
theorem block_files_exact_exactly (calls : List HookCall) :
    AlongRun step Exact Tracker.init calls ↔
      AlongRun step (fun _ call _ => NotNull call) Tracker.init calls := by
  have hStep : ∀ t call t', BlocksInv t → step t call = some t' →
      (Exact t call t' ↔ NotNull call) ∧ (NotNull call → BlocksInv t') := by
    intro t call t' hInv hStep
    refine ⟨⟨fun hExact => ?_, fun hNotNull => ?_⟩, fun hNotNull => ?_⟩
    · by_contra hNull
      exact not_exact_of_null hInv hNull hStep hExact
    · exact (exact_of_notNull hInv hNotNull hStep).1
    · exact (exact_of_notNull hInv hNotNull hStep).2
  exact alongRun_iff hStep blocksInv_init

/-- The first call in `main`. -/
def firstSite : Site := ⟨"macro_hook.c", "main", 45⟩

/-- A `malloc` that fails leaves `./mem/(nil).mem`, and `free(NULL)` on an empty
directory is reported as a double free. -/
theorem null_pointer_recorded :
    ¬ AlongRun step Exact Tracker.init [.malloc 10 firstSite 0] ∧
      ¬ AlongRun step Exact Tracker.init [.free 0] := by
  constructor
  · intro hRun
    exact not_exact_of_null blocksInv_init (by simp [NotNull]) rfl (hRun _ rfl).1
  · intro hRun
    exact not_exact_of_null blocksInv_init (by simp [NotNull]) rfl (hRun _ rfl).1

end MacroHook
end LeakCheck
end LinuxCppLearn
