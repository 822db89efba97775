import LinuxCppLearn.SimpleString.Refinement

/-!
# When an assignment is all or nothing

Both assignments give the old buffer back before they have a new one, and before
they read what they assign.  So an assignment from somewhere else goes well if
the allocation does, and only the assignment of an object to itself is guarded.

* `copy_atomic_iff` — what decides it behind `delete[] data`.
* `assignment_atomic_exactly` — for every source, every answer to the allocation
  and every state of the object.
-/

namespace LinuxCppLearn
namespace SimpleString

open Buffers StepSystem

/-- The object can be read: its buffer is there, with this string in it.  So it
can be assigned to and destroyed too. -/
def Reads (s : State) (o : ObjId) (value : List UInt8) : Prop :=
  ∃ b length, s.obj o = some ⟨some b, length⟩ ∧ s.heap.Stores b value

/-- The assignment completes, or throws and leaves the object as it was. -/
def Atomic (s : State) (this : ObjId) (old value : List UInt8) :
    EStateM.Result Fault State Unit → Prop
  | .ok _ t => Reads t this value
  | .error .badAlloc t => t.obj this = s.obj this ∧ Reads t this old
  | .error .undefined _ => False

/-- What is assigned. -/
inductive Source
  | object (str : ObjId)
  | chars (str : CharArg)
deriving DecidableEq, Repr

def Source.assignTo (this : ObjId) : Source → Call
  | .object str => .assign this str
  | .chars str => .assignChars this str

/-- The characters are in the buffer, if there are any. -/
def Source.pointer (s : State) : Source → Option (CharPtr UInt8)
  | .object o => (s.obj o).bind fun m => m.data.map fun b => .inside ⟨b, 0⟩
  | .chars .null => none
  | .chars (.outside own) => some (.outside own)
  | .chars (.within o off) =>
      (s.obj o).bind fun m => m.data.map fun b => .inside ⟨b, off⟩

def State.lengthOf (s : State) (o : ObjId) : UInt32 :=
  ((s.obj o).map MyString.length).getD 0

/-- The `length` that the object gets: the one of the other object, or `strlen`
as an `unsigned int`. -/
def Source.length (s : State) (value : List UInt8) : Source → UInt32
  | .object o => s.lengthOf o
  | .chars _ => UInt32.ofNat value.length

/-- The pointer is not one into the buffer of the object. -/
def NotInBuffer (s : State) (this : ObjId) (ptr : CharPtr UInt8) : Prop :=
  ∀ p, ptr = .inside p → (s.obj this).bind MyString.data ≠ some p.buffer

variable {s s₁ t : State} {this str : ObjId} {old value : List UInt8} {b : Nat}
  {length l : UInt32} {ptr : CharPtr UInt8} {answer : Answer}

theorem lengthOf_eq {data : Option Nat} (hObj : s.obj this = some ⟨data, length⟩) :
    s.lengthOf this = length := by
  rw [State.lengthOf, hObj]
  rfl

theorem pointer_object (hPointer : (Source.object str).pointer s = some ptr) :
    ∃ b length, s.obj str = some ⟨some b, length⟩ ∧ ptr = .inside ⟨b, 0⟩ := by
  obtain ⟨⟨data, length⟩, hStr, hData⟩ := Option.bind_eq_some_iff.mp hPointer
  obtain ⟨b, hInner, rfl⟩ := Option.map_eq_some_iff.mp hData
  obtain rfl : data = some b := hInner
  exact ⟨b, length, hStr, rfl⟩

/-- A `const char *` with characters evaluates to its pointer. -/
theorem eval_pointer {arg : CharArg} (hPointer : (Source.chars arg).pointer s = some ptr) :
    arg.eval.run s = .ok (some ptr) s := by
  cases arg with
  | null => simp [Source.pointer] at hPointer
  | outside own =>
      obtain rfl := Option.some.inj hPointer
      rfl
  | within o off =>
      obtain ⟨m, hObj, hData⟩ := Option.bind_eq_some_iff.mp hPointer
      obtain ⟨c, hInner, rfl⟩ := Option.map_eq_some_iff.mp hData
      exact run_bind (run_buffer hObj hInner) rfl

/-! ## Behind `delete[] data` -/

/-- Where the buffer of an object is gone, its destructor is undefined. -/
theorem dtor_dangling (hObj : t.obj this = some ⟨some b, length⟩)
    (hGone : t.heap.bytes b = none) :
    ∃ u, (exec answer (.dtor this)).run t = .error .undefined u := by
  refine ⟨t, ?_⟩
  have hDtor : (dtor this).run t = .error .undefined t := by
    refine run_bind (run_members hObj) ?_
    rw [if_pos (by simp)]
    exact run_bind_error (run_deleteData_dead hObj hGone)
  exact run_bind_error hDtor

/-- Nothing on the heap throws but `new char[]`. -/
theorem onHeap_not_badAlloc {f : Heap UInt8 → Option (Heap UInt8)} :
    (onHeap f).run s ≠ .error .badAlloc t := by
  intro hThrown
  cases hHeap : f s.heap with
  | none =>
      rw [run_onHeap_undefined hHeap] at hThrown
      cases hThrown
  | some heap =>
      rw [run_onHeap hHeap] at hThrown
      cases hThrown

theorem not_reads_of_gone (hObj : t.obj this = some ⟨some b, length⟩)
    (hGone : t.heap.bytes b = none) : ¬ Reads t this value := by
  rintro ⟨c, length', hObj', hStores⟩
  obtain ⟨hData, -⟩ := MyString.mk.inj (Option.some.inj (hObj.symm.trans hObj'))
  obtain rfl : b = c := Option.some.inj hData
  have hLive := hStores.live
  simp [hGone] at hLive

section

variable {src : Code (CharPtr UInt8)} (hEmptied : Emptied s this (some b) length s₁)
include hEmptied

theorem Emptied.gone : s₁.heap.bytes b = none := by
  rw [hEmptied.bytes, if_pos rfl]

/-- **The old buffer is gone already** when the allocation throws. -/
theorem copy_throws (src : Code (CharPtr UInt8)) (answer' : Answer) :
    ∃ t, (copyFrom this src none).run s₁ = .error .badAlloc t ∧ (∀ value, ¬ Reads t this value) ∧
      ∃ u, (exec answer' (.dtor this)).run t = .error .undefined u :=
  ⟨_, copyFrom_throws hEmptied.self src, fun _ => not_reads_of_gone hEmptied.self hEmptied.gone,
    dtor_dangling hEmptied.self hEmptied.gone⟩

/-- What can still be read is copied, if it is granted a buffer and fits there. -/
theorem copy_atomic_iff
    (hSrc : ∀ fill, src.run (s₁.withBuffer this length fill) =
      .ok ptr (s₁.withBuffer this length fill))
    (hRead : s₁.heap.read ptr = some value) :
    Atomic s this old value ((copyFrom this src answer).run s₁) ↔
      answer ≠ none ∧ Room length value := by
  cases answer with
  | none =>
      obtain ⟨t, hThrows, hNot, -⟩ := copy_throws hEmptied src none
      rw [hThrows]
      constructor
      · rintro ⟨-, hReads⟩
        exact absurd hReads (hNot old)
      · rintro ⟨hNone, -⟩
        exact absurd rfl hNone
  | some fill =>
      by_cases hRoom : Room length value
      · obtain ⟨t, hCopy, hFilled⟩ := copyFrom_fills src fill hEmptied.self (hSrc fill) hRead hRoom
        rw [hCopy]
        exact iff_of_true ⟨_, _, hFilled.self, hFilled.stores⟩ ⟨by simp, hRoom⟩
      · obtain ⟨t, hCopy⟩ := copyFrom_overflows hEmptied.self (hSrc fill) hRead hRoom
        rw [hCopy]
        exact iff_of_false id fun hGood => hRoom hGood.2

/-- And whenever it throws, the destructor is undefined. -/
theorem copy_badAlloc
    (hSrc : ∀ fill, src.run (s₁.withBuffer this length fill) =
      .ok ptr (s₁.withBuffer this length fill))
    (hThrown : (copyFrom this src answer).run s₁ = .error .badAlloc t) (answer' : Answer) :
    ∃ u, (exec answer' (.dtor this)).run t = .error .undefined u := by
  cases answer with
  | none =>
      obtain ⟨t', hThrows, -, hDtor⟩ := copy_throws hEmptied src answer'
      rw [hThrows] at hThrown
      obtain rfl := (EStateM.Result.error.inj hThrown).2
      exact hDtor
  | some fill =>
      rw [copyFrom_run hEmptied.self (hSrc fill) rfl] at hThrown
      exact absurd hThrown onHeap_not_badAlloc

end

/-! ## The two operators -/

/-- What is to be shown of an assignment, for one source. -/
def AtomicExactly (s : State) (this : ObjId) (old value : List UInt8) (call : Call)
    (answer : Answer) (condition : Prop) : Prop :=
  (Atomic s this old value ((exec answer call).run s) ↔ condition) ∧
    ∀ t, (exec answer call).run s = .error .badAlloc t →
      ∀ answer', ∃ u, (exec answer' (.dtor this)).run t = .error .undefined u

section

variable (hObj : s.obj this = some ⟨some b, l⟩) (hStores : s.heap.Stores b old)
include hObj hStores

theorem atomic_assign_self (answer : Answer) (hRead : s.heap.read (.inside ⟨b, 0⟩) = some value) :
    AtomicExactly s this old value (.assign this this) answer True := by
  have hRun : (exec answer (.assign this this)).run s = .ok () s := assign_self answer
  unfold AtomicExactly
  rw [hRun]
  obtain rfl : old = value := Option.some.inj (hStores.read_zero.symm.trans hRead)
  refine ⟨iff_of_true ⟨b, l, hObj, hStores⟩ trivial, ?_⟩
  intro t hThrown
  cases hThrown

theorem atomic_assign {c : Nat} (answer : Answer) (hNe : this ≠ str)
    (hStr : s.obj str = some ⟨some c, length⟩)
    (hRead : s.heap.read (.inside ⟨c, 0⟩) = some value) :
    AtomicExactly s this old value (.assign this str) answer
      (c ≠ b ∧ answer ≠ none ∧ Room length value) := by
  obtain ⟨s₁, hEmptied, hRest⟩ := assign_run hNe hObj hStores.live hStr
  have hSrc : ∀ fill, (chars str).run (s₁.withBuffer this length fill) =
      .ok (.inside ⟨c, 0⟩) (s₁.withBuffer this length fill) := fun fill =>
    run_chars_other hNe.symm ((hEmptied.other str hNe.symm).trans hStr)
  have hRun : (exec answer (.assign this str)).run s =
      (copyFrom this (chars str) answer).run s₁ := hRest answer _ rfl
  unfold AtomicExactly
  rw [hRun]
  refine ⟨?_, fun t hThrown => copy_badAlloc hEmptied hSrc hThrown⟩
  by_cases hApart : c = b
  · subst hApart
    refine iff_of_false ?_ fun hGood => hGood.1 rfl
    cases answer with
    | none =>
        obtain ⟨t, hThrows, hNot, -⟩ := copy_throws hEmptied (chars str) none
        rw [hThrows]
        exact fun hAtomic => hNot old hAtomic.2
    | some fill =>
        have hNext : c ≠ s₁.heap.next := by
          rw [hEmptied.next]
          exact read_not_next hRead _ rfl
        obtain ⟨t, hCopy⟩ := copyFrom_dangling hEmptied.self (hSrc fill) hEmptied.gone hNext
        rw [hCopy]
        exact id
  · have hRead₁ := hEmptied.read hRead (by rintro p ⟨⟩; simpa using hApart)
    rw [copy_atomic_iff hEmptied hSrc hRead₁]
    exact ⟨fun hGood => ⟨hApart, hGood⟩, fun hGood => hGood.2⟩

theorem atomic_assignChars {arg : CharArg} (answer : Answer)
    (hEval : arg.eval.run s = .ok (some ptr) s)
    (hRead : s.heap.read ptr = some value) :
    AtomicExactly s this old value (.assignChars this arg) answer
      ((∀ p, ptr = .inside p → p.buffer ≠ b) ∧ answer ≠ none ∧
        Room (UInt32.ofNat value.length) value) := by
  have hRun : (exec answer (.assignChars this arg)).run s = (assignChars this ptr answer).run s :=
    run_bind hEval rfl
  unfold AtomicExactly
  rw [hRun]
  by_cases hApart : ∀ p, ptr = .inside p → p.buffer ≠ b
  · obtain ⟨s₁, hEmptied, hRest⟩ := assignChars_run hObj hStores.live hRead hApart
    have hRead₁ := hEmptied.read hRead fun p hEq hSame => hApart p hEq (Option.some.inj hSame)
    have hSrc : ∀ fill, (pure ptr : Code _).run
        (s₁.withBuffer this (UInt32.ofNat value.length) fill) =
          .ok ptr (s₁.withBuffer this (UInt32.ofNat value.length) fill) := fun _ => rfl
    rw [hRest answer _ rfl]
    refine ⟨?_, fun t hThrown => copy_badAlloc hEmptied hSrc hThrown⟩
    rw [copy_atomic_iff hEmptied hSrc hRead₁]
    exact ⟨fun hGood => ⟨hApart, hGood⟩, fun hGood => hGood.2⟩
  · have hOwn := hApart
    push Not at hOwn
    obtain ⟨p, rfl, hIn⟩ := hOwn
    obtain ⟨t, hUndefined⟩ := assignChars_dangling hObj hStores.live hIn answer
    rw [hUndefined]
    refine ⟨iff_of_false id fun hGood => hApart hGood.1, ?_⟩
    intro t' hThrown
    cases hThrown

end

/-! ## An object with a string -/

/-- `myString s("ab");` -/
def abCalls : List (Call × (Nat → UInt8)) := [(.ctorChars 0 (.outside [97, 98]), fun _ => 7)]

theorem abCalls_stores :
    ∃ s b l, run step .init abCalls = some s ∧ s.obj 0 = some ⟨some b, l⟩ ∧
      s.heap.Stores b [97, 98] := by
  have hValue : (run (fun v a => valueStep v a.1) (fun _ => none) abCalls).map (· 0) =
      some (some [97, 98]) := by decide
  obtain ⟨v, hSpec, hString⟩ := Option.map_eq_some_iff.mp hValue
  obtain ⟨s, hRun, hRep⟩ := run_represents represents_init hSpec
  obtain ⟨b, l, hObj, hStores, -⟩ := hRep.holds hString
  exact ⟨s, b, l, hRun, hObj, hStores⟩

/-! ## Every source -/

/-- **When an assignment is atomic**: to itself always, and otherwise if the source
is not in the own buffer, the allocation succeeds, and the length that is asked for
is that of the string and does not wrap.  Where the allocation throws, the
destructor that follows is undefined. -/
theorem assignment_atomic_exactly (src : Source) (answer : Answer) (hThis : Reads s this old)
    (hPointer : src.pointer s = some ptr) (hRead : s.heap.read ptr = some value) :
    (Atomic s this old value ((exec answer (src.assignTo this)).run s) ↔
      src = .object this ∨
        NotInBuffer s this ptr ∧ answer ≠ none ∧ Room (src.length s value) value) ∧
      ∀ t, (exec answer (src.assignTo this)).run s = .error .badAlloc t →
        ∀ answer', ∃ u, (exec answer' (.dtor this)).run t = .error .undefined u := by
  obtain ⟨b, l, hObj, hStores⟩ := hThis
  have hNotIn : NotInBuffer s this ptr ↔ ∀ p, ptr = .inside p → p.buffer ≠ b := by
    simp [NotInBuffer, hObj, eq_comm]
  rw [hNotIn]
  cases src with
  | object str =>
      obtain ⟨c, length, hStr, rfl⟩ := pointer_object hPointer
      have hLength : Source.length s value (.object str) = length := lengthOf_eq hStr
      by_cases hSelf : this = str
      · subst hSelf
        obtain ⟨hSame, -⟩ := MyString.mk.inj (Option.some.inj (hObj.symm.trans hStr))
        obtain rfl : b = c := Option.some.inj hSame
        obtain ⟨hIff, hThrown⟩ := atomic_assign_self hObj hStores answer hRead
        exact ⟨hIff.trans (iff_of_true trivial (.inl rfl)), hThrown⟩
      · obtain ⟨hIff, hThrown⟩ := atomic_assign hObj hStores answer hSelf hStr hRead
        refine ⟨hIff.trans ?_, hThrown⟩
        rw [hLength]
        simp [Ne.symm hSelf]
  | chars arg =>
      have hEval := eval_pointer hPointer
      obtain ⟨hIff, hThrown⟩ := atomic_assignChars hObj hStores answer hEval hRead
      refine ⟨hIff.trans ?_, hThrown⟩
      simp [Source.length]

/-- `s = "c";` with a buffer for it. -/
theorem assignment_atomic_exactly_c :
    ∃ s, run step .init abCalls = some s ∧ Atomic s 0 [97, 98] [99]
      ((exec (some fun _ => 7) (.assignChars 0 (.outside [99]))).run s) := by
  obtain ⟨s, b, l, hRun, hObj, hStores⟩ := abCalls_stores
  refine ⟨s, hRun, ?_⟩
  refine (assignment_atomic_exactly (.chars (.outside [99])) (some fun _ => 7)
    ⟨b, l, hObj, hStores⟩ rfl rfl).1.mpr (.inr ⟨?_, by simp, ?_⟩)
  · intro p hInside
    cases hInside
  · show Room (UInt32.ofNat 1) [99]
    constructor <;> decide

/-- `s = s.c_str() + 1;` reads the buffer that was given back, and `s = "c";`
without a buffer for it leaves nothing that can be destroyed. -/
theorem assignment_of_tail_undefined :
    ∃ s b, run step .init abCalls = some s ∧ Reads s 0 [97, 98] ∧
      (Source.chars (.within 0 1)).pointer s = some (.inside ⟨b, 1⟩) ∧
      s.heap.read (.inside ⟨b, 1⟩) = some [98] ∧
      ¬ Atomic s 0 [97, 98] [98]
        ((exec (some fun _ => 7) (.assignChars 0 (.within 0 1))).run s) ∧
      ∃ t, (exec none (.assignChars 0 (.outside [99]))).run s = .error .badAlloc t ∧
        (∀ value, ¬ Reads t 0 value) ∧
          ∃ u, (exec none (.dtor 0)).run t = .error .undefined u := by
  obtain ⟨s, b, l, hRun, hObj, hStores⟩ := abCalls_stores
  refine ⟨s, b, hRun, ⟨b, l, hObj, hStores⟩, by simp [Source.pointer, hObj],
    hStores.read (by simp), ?_, ?_⟩
  · have hEval : (CharArg.within 0 1).eval.run s = .ok (some (.inside ⟨b, 1⟩)) s :=
      run_bind (run_buffer hObj rfl) rfl
    obtain ⟨t, hUndefined⟩ :=
      assignChars_dangling (p := ⟨b, 1⟩) hObj hStores.live rfl (some fun _ => 7)
    have hExec : (exec (some fun _ => 7) (.assignChars 0 (.within 0 1))).run s =
        .error .undefined t := run_bind hEval hUndefined
    rw [hExec]
    exact id
  · have hRead : s.heap.read (.outside [99]) = some [99] := rfl
    obtain ⟨s₁, hEmptied, hRest⟩ := assignChars_run hObj hStores.live hRead (by simp)
    obtain ⟨t, hThrows, hNot, hDtor⟩ := copy_throws hEmptied (pure (.outside [99])) none
    have hExec : (exec none (.assignChars 0 (.outside [99]))).run s = .error .badAlloc t :=
      hRest none _ hThrows
    exact ⟨t, hExec, hNot, hDtor⟩

end SimpleString
end LinuxCppLearn
