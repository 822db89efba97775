import LinuxCppLearn.SimpleString.Model

/-!
# What the operations do

The statements one after another, and with them the operations, from a state
where the objects have buffers with C strings in them.

* `Filled` — an object has got a new buffer with a string in it, and its old
  buffer is gone.
* `copyFrom_fills`, `copyFrom_throws`, `copyFrom_overflows`, `copyFrom_dangling` —
  the ways in which `data = new char[length + 1]; strcpy(data, src)` ends.
* `ctor_fills`, `ctorChars_fills`, `ctorCopy_fills`, `assign_fills`,
  `assignChars_fills`, `append_fills` — the operations with room for the result.
-/

namespace LinuxCppLearn
namespace SimpleString

open Buffers

variable {s s' : State} {o this str : ObjId} {m : MyString} {b : Nat} {answer : Answer}

/-! ## Statements -/

def State.withMembers (s : State) (o : ObjId) (m : MyString) : State :=
  { s with obj := Function.update s.obj o (some m) }

@[simp] theorem withMembers_self : (s.withMembers o m).obj o = some m :=
  Function.update_self ..

@[simp] theorem withMembers_heap : (s.withMembers o m).heap = s.heap := rfl

@[simp] theorem withMembers_other {o' : ObjId} (hNe : o' ≠ o) :
    (s.withMembers o m).obj o' = s.obj o' :=
  Function.update_of_ne hNe _ _

@[simp] theorem withMembers_again {m' : MyString} :
    (s.withMembers o m).withMembers o m' = s.withMembers o m' := by
  simp [State.withMembers]

def State.withHeap (s : State) (heap : Heap UInt8) : State :=
  { s with heap := heap }

@[simp] theorem withHeap_heap {heap : Heap UInt8} : (s.withHeap heap).heap = heap := rfl

section

variable {α β : Type} {x : Code α} {f : α → Code β} {a : α} {r : EStateM.Result Fault State β}

/-- The first statement returns, and the others go on from there. -/
theorem run_bind (hFirst : x.run s = .ok a s') (hRest : (f a).run s' = r) :
    (x >>= f).run s = r := by
  rw [EStateM.run_bind, hFirst]
  exact hRest

/-- The first statement does not return. -/
theorem run_bind_error {e : Fault} (hFirst : x.run s = .error e s') :
    (x >>= f).run s = .error e s' := by
  rw [EStateM.run_bind, hFirst]

end

theorem run_members (h : s.obj o = some m) : (members o).run s = .ok m s := by
  simp [members, EStateM.run, h]

theorem run_setData (h : s.obj o = some m) (data : Option Nat) :
    (setData o data).run s = .ok () (s.withMembers o { m with data := data }) :=
  run_bind (run_members h) rfl

theorem run_setLength (h : s.obj o = some m) (length : UInt32) :
    (setLength o length).run s = .ok () (s.withMembers o { m with length := length }) :=
  run_bind (run_members h) rfl

theorem run_buffer (h : s.obj o = some m) (hData : m.data = some b) :
    (buffer o).run s = .ok b s := by
  refine run_bind (run_members h) ?_
  rw [hData]
  rfl

theorem run_chars (h : s.obj o = some m) (hData : m.data = some b) :
    (chars o).run s = .ok (.inside ⟨b, 0⟩) s :=
  run_bind (run_buffer h hData) rfl

theorem run_onHeap {f : Heap UInt8 → Option (Heap UInt8)} {heap : Heap UInt8}
    (h : f s.heap = some heap) : (onHeap f).run s = .ok () (s.withHeap heap) := by
  simp [onHeap, EStateM.run, h, State.withHeap]

theorem run_onHeap_undefined {f : Heap UInt8 → Option (Heap UInt8)}
    (h : f s.heap = none) : (onHeap f).run s = .error .undefined s := by
  simp [onHeap, EStateM.run, h]

theorem run_newChars (size : UInt32) (fill : Nat → UInt8) :
    (newChars size (some fill)).run s =
      .ok s.heap.next (s.withHeap (s.heap.new size.toNat fill)) := rfl

theorem run_newChars_throws (size : UInt32) :
    (newChars size none).run s = .error .badAlloc (s.withHeap (s.heap.refuse size.toNat)) := rfl

/-! ## The objects and their buffers -/

/-- What is known in front of `data = new char[length + 1]`: the length is there,
and the old buffer is gone, though `data` still points to it. -/
structure Emptied (s : State) (this : ObjId) (old : Option Nat) (length : UInt32)
    (s' : State) : Prop where
  self : s'.obj this = some ⟨old, length⟩
  other : ∀ o ≠ this, s'.obj o = s.obj o
  bytes : ∀ b, s'.heap.bytes b = if some b = old then none else s.heap.bytes b
  next : s'.heap.next = s.heap.next
  requests : s'.heap.requests = s.heap.requests

/-- The object has got a new buffer with this string in it, and its old buffer is
gone. -/
structure Filled (s : State) (this : ObjId) (old : Option Nat) (length : UInt32)
    (value : List UInt8) (s' : State) : Prop where
  self : s'.obj this = some ⟨some s.heap.next, length⟩
  other : ∀ o ≠ this, s'.obj o = s.obj o
  stores : s'.heap.Stores s.heap.next value
  bytes : ∀ b ≠ s.heap.next, s'.heap.bytes b = if some b = old then none else s.heap.bytes b

theorem Emptied.filled {s₁ : State} {old : Option Nat} {length : UInt32} {value : List UInt8}
    (hEmptied : Emptied s this old length s₁) (hFilled : Filled s₁ this none length value s') :
    Filled s this old length value s' where
  self := by rw [hFilled.self, hEmptied.next]
  other o hNe := (hFilled.other o hNe).trans (hEmptied.other o hNe)
  stores := hEmptied.next ▸ hFilled.stores
  bytes c hNe := by
    rw [hFilled.bytes c (by rwa [hEmptied.next]), if_neg (by simp), hEmptied.bytes]

theorem new_bytes_self (heap : Heap UInt8) (size : Nat) (fill : Nat → UInt8) :
    (heap.new size fill).bytes heap.next = some ((List.range size).map fill) :=
  Function.update_self ..

theorem new_bytes_other (heap : Heap UInt8) (size : Nat) (fill : Nat → UInt8) {c : Nat}
    (hNe : c ≠ heap.next) : (heap.new size fill).bytes c = heap.bytes c :=
  Function.update_of_ne hNe _ _

/-- A pointer that can be read is not one to the next buffer. -/
theorem read_not_next {heap : Heap UInt8} {ptr : CharPtr UInt8} {value : List UInt8}
    (hRead : heap.read ptr = some value) :
    ∀ p, ptr = .inside p → p.buffer ≠ heap.next := by
  rintro p rfl hEq
  rw [Heap.read_dangling (by rw [hEq]; exact (heap.fresh _ (Nat.le_refl _)).1)] at hRead
  simp at hRead

/-- A request that is met does not disturb what can be read. -/
theorem read_new {heap : Heap UInt8} {ptr : CharPtr UInt8} {value : List UInt8} {size : Nat}
    {fill : Nat → UInt8} (hRead : heap.read ptr = some value) :
    (heap.new size fill).read ptr = some value := by
  rw [← hRead]
  exact Heap.read_congr fun p hEq => new_bytes_other heap size fill (read_not_next hRead p hEq)

/-- Nor does a buffer that is gone and that the pointer does not point into. -/
theorem Emptied.read {s₁ : State} {old : Option Nat} {length : UInt32} {ptr : CharPtr UInt8}
    {value : List UInt8} (hEmptied : Emptied s this old length s₁)
    (hRead : s.heap.read ptr = some value) (hApart : ∀ p, ptr = .inside p → some p.buffer ≠ old) :
    s₁.heap.read ptr = some value := by
  rw [← hRead]
  refine Heap.read_congr fun p hEq => ?_
  rw [hEmptied.bytes, if_neg (hApart p hEq)]

/-! ## `data = new char[length + 1]` and the copy into it -/

/-- The length is at least that of the string, and one more is an `unsigned int`. -/
def Room (length : UInt32) (value : List UInt8) : Prop :=
  value.length ≤ length.toNat ∧ length.toNat + 1 < 2 ^ 32

theorem room_iff {length : UInt32} {value : List UInt8} :
    Room length value ↔ value.length + 1 ≤ (length + 1).toNat := by
  have hLt := length.toNat_lt
  unfold Room
  rw [UInt32.toNat_add, UInt32.toNat_one]
  omega

/-- The object has a new buffer of `length + 1` characters. -/
def State.withBuffer (s : State) (this : ObjId) (length : UInt32) (fill : Nat → UInt8) : State :=
  (s.withHeap (s.heap.new (length + 1).toNat fill)).withMembers this ⟨some s.heap.next, length⟩

section

variable {src : Code (CharPtr UInt8)} {ptr : CharPtr UInt8} {value : List UInt8}
  {fill : Nat → UInt8} {data : Option Nat} {length : UInt32}

theorem copyFrom_run {r : EStateM.Result Fault State Unit}
    (hObj : s.obj this = some ⟨data, length⟩)
    (hSrc : src.run (s.withBuffer this length fill) = .ok ptr (s.withBuffer this length fill))
    (hCopy : (strcpy s.heap.next ptr).run (s.withBuffer this length fill) = r) :
    (copyFrom this src (some fill)).run s = r := by
  refine run_bind (run_members hObj) ?_
  refine run_bind (run_newChars _ fill) ?_
  refine run_bind (run_setData (s := s.withHeap (s.heap.new (length + 1).toNat fill)) hObj _) ?_
  refine run_bind (run_buffer withMembers_self rfl) ?_
  exact run_bind hSrc hCopy

/-- With room for the string the copy is there. -/
theorem copyFrom_fills (src : Code (CharPtr UInt8)) (fill : Nat → UInt8)
    (hObj : s.obj this = some ⟨data, length⟩)
    (hSrc : src.run (s.withBuffer this length fill) = .ok ptr (s.withBuffer this length fill))
    (hRead : s.heap.read ptr = some value) (hRoom : Room length value) :
    ∃ s', (copyFrom this src (some fill)).run s = .ok () s' ∧
      Filled s this none length value s' := by
  obtain ⟨heap, hCopy, hWrote, hStores⟩ :=
    Heap.strcpy_stores (new_bytes_self s.heap _ fill) (read_new hRead) (read_not_next hRead)
      (by simpa using room_iff.mp hRoom)
  refine ⟨_, copyFrom_run hObj hSrc (run_onHeap hCopy), withMembers_self, ?_, hStores, ?_⟩
  · intro o hNe
    exact withMembers_other hNe
  · intro c hNe
    rw [if_neg (by simp)]
    exact (hWrote.others c hNe).trans (new_bytes_other s.heap _ fill hNe)

/-- Without it the copy runs over the end. -/
theorem copyFrom_overflows (hObj : s.obj this = some ⟨data, length⟩)
    (hSrc : src.run (s.withBuffer this length fill) = .ok ptr (s.withBuffer this length fill))
    (hRead : s.heap.read ptr = some value) (hShort : ¬ Room length value) :
    ∃ s', (copyFrom this src (some fill)).run s = .error .undefined s' := by
  refine ⟨_, copyFrom_run hObj hSrc (run_onHeap_undefined ?_)⟩
  exact Heap.strcpy_overflows (new_bytes_self s.heap _ fill) (read_new hRead)
    (by simpa using Nat.lt_of_not_le (mt room_iff.mpr hShort))

/-- And from a buffer that is gone there is nothing to copy. -/
theorem copyFrom_dangling {p : Ptr} (hObj : s.obj this = some ⟨data, length⟩)
    (hSrc : src.run (s.withBuffer this length fill) =
      .ok (.inside p) (s.withBuffer this length fill))
    (hGone : s.heap.bytes p.buffer = none) (hNe : p.buffer ≠ s.heap.next) :
    ∃ s', (copyFrom this src (some fill)).run s = .error .undefined s' := by
  refine ⟨_, copyFrom_run hObj hSrc (run_onHeap_undefined ?_)⟩
  have hRead : (s.heap.new (length + 1).toNat fill).read (.inside p) = none :=
    Heap.read_dangling ((new_bytes_other _ _ _ hNe).trans hGone)
  show (s.heap.new (length + 1).toNat fill).strcpy ⟨s.heap.next, 0⟩ (.inside p) = none
  simp only [Heap.strcpy, hRead]

theorem copyFrom_throws (hObj : s.obj this = some ⟨data, length⟩)
    (src : Code (CharPtr UInt8)) :
    (copyFrom this src none).run s =
      .error .badAlloc (s.withHeap (s.heap.refuse (length + 1).toNat)) := by
  refine (run_bind (run_members hObj) ?_ : (copyFrom this src none).run s = _)
  exact run_bind_error (run_newChars_throws _)

/-- The C string of another object, while this one has its new buffer. -/
theorem run_chars_other {l : UInt32} (hNe : str ≠ this) (hStr : s.obj str = some ⟨some b, l⟩) :
    (chars str).run (s.withBuffer this length fill) =
      .ok (.inside ⟨b, 0⟩) (s.withBuffer this length fill) :=
  run_chars ((withMembers_other hNe).trans hStr) rfl

/-- `data[0] = '\0'` in a new buffer of one character. -/
theorem terminate_fills (s : State) (this : ObjId) (fill : Nat → UInt8) :
    ∃ s', (terminate this).run
        ((s.withHeap (s.heap.new 1 fill)).withMembers this ⟨some s.heap.next, 0⟩) = .ok () s' ∧
      Filled s this none 0 [] s' := by
  obtain ⟨heap, hWrite, hWrote, hBytes⟩ :=
    Heap.write_fits ⟨s.heap.next, 0⟩ [0] (new_bytes_self s.heap 1 fill) (by simp)
  refine ⟨_, run_bind (run_buffer withMembers_self rfl) (run_onHeap hWrite), withMembers_self,
    ?_, ?_, ?_⟩
  · intro o hNe
    exact withMembers_other hNe
  · exact ⟨List.not_mem_nil, [], by simpa using hBytes⟩
  · intro c hNe
    rw [if_neg (by simp)]
    exact (hWrote.others c hNe).trans (new_bytes_other s.heap 1 fill hNe)

/-! ## Constructors -/

theorem emptied_setLength (s : State) (this : ObjId) (length : UInt32) :
    Emptied s this none length (s.withMembers this ⟨none, length⟩) where
  self := withMembers_self
  other _ hNe := withMembers_other hNe
  bytes c := by rw [if_neg (by simp), withMembers_heap]
  next := rfl
  requests := rfl

theorem ctor_fills (hObj : s.obj this = some m) (fill : Nat → UInt8) :
    ∃ s', (ctor this (some fill)).run s = .ok () s' ∧ Filled s this none 0 [] s' := by
  obtain ⟨s', hEnd, hFilled⟩ := terminate_fills s this fill
  refine ⟨s', ?_, hFilled⟩
  refine run_bind (run_newChars 1 fill) ?_
  refine run_bind (run_setData (s := s.withHeap (s.heap.new 1 fill)) hObj _) ?_
  refine run_bind (run_setLength withMembers_self 0) ?_
  rw [withMembers_again]
  exact hEnd

theorem ctorChars_null_fills (hObj : s.obj this = some m) (fill : Nat → UInt8) :
    ∃ s', (ctorChars this none (some fill)).run s = .ok () s' ∧
      Filled s this none 0 [] s' := by
  obtain ⟨s', hEnd, hFilled⟩ := terminate_fills s this fill
  refine ⟨s', ?_, hFilled⟩
  refine run_bind (run_setLength hObj 0) ?_
  refine run_bind (run_newChars 1 fill) ?_
  refine run_bind (run_setData (s := (s.withMembers this { m with length := 0 }).withHeap
    (s.heap.new 1 fill)) withMembers_self _) ?_
  have hSame : ((s.withMembers this { m with length := 0 }).withHeap
      (s.heap.new 1 fill)).withMembers this ⟨some s.heap.next, 0⟩ =
        (s.withHeap (s.heap.new 1 fill)).withMembers this ⟨some s.heap.next, 0⟩ := by
    simp [State.withMembers, State.withHeap]
  show (terminate this).run (((s.withMembers this { m with length := 0 }).withHeap
    (s.heap.new 1 fill)).withMembers this ⟨some s.heap.next, 0⟩) = _
  rw [hSame]
  exact hEnd

theorem run_strlen (hRead : s.heap.read ptr = some value) :
    (strlen ptr).run s = .ok value.length s := by
  simp [strlen, EStateM.run, Heap.strlen, hRead]

theorem run_strlen_undefined (hRead : s.heap.read ptr = none) :
    (strlen ptr).run s = .error .undefined s := by
  simp [strlen, EStateM.run, Heap.strlen, hRead]

theorem ctorChars_fills (hObj : s.obj this = some ⟨none, 0⟩) (hRead : s.heap.read ptr = some value)
    (hRoom : Room (UInt32.ofNat value.length) value) (fill : Nat → UInt8) :
    ∃ s', (ctorChars this (some ptr) (some fill)).run s = .ok () s' ∧
      Filled s this none (UInt32.ofNat value.length) value s' := by
  have hEmptied := emptied_setLength s this (UInt32.ofNat value.length)
  obtain ⟨s', hCopy, hFilled⟩ := copyFrom_fills (pure ptr) fill
    (s := s.withMembers this ⟨none, UInt32.ofNat value.length⟩)
    withMembers_self rfl hRead hRoom
  refine ⟨s', ?_, hEmptied.filled hFilled⟩
  refine run_bind (run_strlen hRead) ?_
  exact run_bind (run_setLength hObj _) hCopy

theorem ctorCopy_fills {l : UInt32} (hObj : s.obj this = some ⟨none, 0⟩) (hNe : str ≠ this)
    (hStr : s.obj str = some ⟨some b, l⟩) (hStores : s.heap.Stores b value)
    (hRoom : Room l value) (fill : Nat → UInt8) :
    ∃ s', (ctorCopy this str (some fill)).run s = .ok () s' ∧
      Filled s this none l value s' := by
  have hEmptied := emptied_setLength s this l
  obtain ⟨s', hCopy, hFilled⟩ := copyFrom_fills (chars str) fill
    (s := s.withMembers this ⟨none, l⟩) withMembers_self
    (run_chars_other hNe ((withMembers_other hNe).trans hStr)) hStores.read_zero hRoom
  refine ⟨s', ?_, hEmptied.filled hFilled⟩
  refine run_bind (run_members hStr) ?_
  exact run_bind (run_setLength hObj _) hCopy

/-! ## Destructor and assignments -/

/-- `delete[] data` -/
theorem run_deleteData {l : UInt32} (hObj : s.obj this = some ⟨some b, l⟩)
    (hLive : (s.heap.bytes b).isSome) :
    ∃ heap : Heap UInt8, (deleteData this).run s = .ok () (s.withHeap heap) ∧
      heap.bytes = Function.update s.heap.bytes b none ∧ heap.next = s.heap.next ∧
        heap.requests = s.heap.requests := by
  obtain ⟨heap, hDelete, hBytes, hNext, hRequests⟩ := Heap.delete_live hLive
  refine ⟨heap, ?_, hBytes, hNext, hRequests⟩
  exact run_bind (run_members hObj) (run_onHeap hDelete)

/-- A buffer that is gone is not given back again. -/
theorem run_deleteData_dead {l : UInt32} (hObj : s.obj this = some ⟨some b, l⟩)
    (hDead : s.heap.bytes b = none) : (deleteData this).run s = .error .undefined s :=
  run_bind (run_members hObj) (run_onHeap_undefined (Heap.delete_dead hDead))

/-- `delete[] data; length = …` -/
theorem emptied_delete {heap : Heap UInt8} (this : ObjId)
    (hBytes : heap.bytes = Function.update s.heap.bytes b none) (hNext : heap.next = s.heap.next)
    (hRequests : heap.requests = s.heap.requests) (length : UInt32) :
    Emptied s this (some b) length ((s.withHeap heap).withMembers this ⟨some b, length⟩) where
  self := withMembers_self
  other _ hNe := withMembers_other hNe
  bytes c := by
    rw [withMembers_heap, withHeap_heap, hBytes]
    by_cases hEq : c = b
    · subst hEq
      rw [Function.update_self, if_pos rfl]
    · rw [Function.update_of_ne hEq, if_neg (by simpa using hEq)]
  next := hNext
  requests := hRequests

/-- An assignment from another object deletes, and then copies. -/
theorem assign_run {l l' : UInt32} {data : Option Nat} (hNe : this ≠ str)
    (hObj : s.obj this = some ⟨some b, l⟩) (hLive : (s.heap.bytes b).isSome)
    (hStr : s.obj str = some ⟨data, l'⟩) :
    ∃ s₁, Emptied s this (some b) l' s₁ ∧
      ∀ answer r, (copyFrom this (chars str) answer).run s₁ = r →
        (assign this str answer).run s = r := by
  obtain ⟨heap, hDelete, hBytes, hNext, hRequests⟩ := run_deleteData hObj hLive
  refine ⟨_, emptied_delete this hBytes hNext hRequests l', fun answer r hCopy => ?_⟩
  unfold assign
  rw [if_pos hNe]
  refine run_bind hDelete ?_
  refine run_bind (run_members (s := s.withHeap heap) hStr) ?_
  exact run_bind (run_setLength (s := s.withHeap heap) hObj _) hCopy

theorem assign_self (answer : Answer) : (assign this this answer).run s = .ok () s := by
  unfold assign
  rw [if_neg (not_not.mpr rfl)]
  rfl

/-- An assignment from a C string that is not in the own buffer does the same. -/
theorem assignChars_run {l : UInt32} (hObj : s.obj this = some ⟨some b, l⟩)
    (hLive : (s.heap.bytes b).isSome) (hRead : s.heap.read ptr = some value)
    (hApart : ∀ p, ptr = .inside p → p.buffer ≠ b) :
    ∃ s₁, Emptied s this (some b) (UInt32.ofNat value.length) s₁ ∧
      ∀ answer r, (copyFrom this (pure ptr) answer).run s₁ = r →
        (assignChars this ptr answer).run s = r := by
  obtain ⟨heap, hDelete, hBytes, hNext, hRequests⟩ := run_deleteData hObj hLive
  have hEmptied := emptied_delete this hBytes hNext hRequests (UInt32.ofNat value.length)
  refine ⟨_, hEmptied, fun answer r hCopy => ?_⟩
  have hRead' : (s.withHeap heap).heap.read ptr = some value :=
    hEmptied.read hRead fun p hEq => fun hSame => hApart p hEq (Option.some.inj hSame)
  refine run_bind hDelete ?_
  refine run_bind (run_strlen hRead') ?_
  exact run_bind (run_setLength (s := s.withHeap heap) hObj _) hCopy

/-- One from the own buffer reads what it has just given back. -/
theorem assignChars_dangling {l : UInt32} {p : Ptr} (hObj : s.obj this = some ⟨some b, l⟩)
    (hLive : (s.heap.bytes b).isSome) (hOwn : p.buffer = b) (answer : Answer) :
    ∃ s', (assignChars this (.inside p) answer).run s = .error .undefined s' := by
  obtain ⟨heap, hDelete, hBytes, -⟩ := run_deleteData hObj hLive
  refine ⟨s.withHeap heap, ?_⟩
  refine run_bind hDelete ?_
  refine run_bind_error (run_strlen_undefined (Heap.read_dangling ?_))
  rw [withHeap_heap, hBytes, hOwn, Function.update_self]

theorem assign_fills {l l' : UInt32} {c : Nat} (hNe : this ≠ str)
    (hObj : s.obj this = some ⟨some b, l⟩) (hLive : (s.heap.bytes b).isSome)
    (hStr : s.obj str = some ⟨some c, l'⟩) (hStores : s.heap.Stores c value) (hApart : c ≠ b)
    (hRoom : Room l' value) (fill : Nat → UInt8) :
    ∃ s', (assign this str (some fill)).run s = .ok () s' ∧
      Filled s this (some b) l' value s' := by
  obtain ⟨s₁, hEmptied, hRest⟩ := assign_run hNe hObj hLive hStr
  have hRead : s₁.heap.read (.inside ⟨c, 0⟩) = some value :=
    hEmptied.read hStores.read_zero (by rintro p ⟨⟩; simpa using hApart)
  obtain ⟨s', hCopy, hFilled⟩ := copyFrom_fills (chars str) fill hEmptied.self
    (run_chars_other hNe.symm ((hEmptied.other _ hNe.symm).trans hStr)) hRead hRoom
  exact ⟨s', hRest _ _ hCopy, hEmptied.filled hFilled⟩

theorem assignChars_fills {l : UInt32} (hObj : s.obj this = some ⟨some b, l⟩)
    (hLive : (s.heap.bytes b).isSome) (hRead : s.heap.read ptr = some value)
    (hApart : ∀ p, ptr = .inside p → p.buffer ≠ b)
    (hRoom : Room (UInt32.ofNat value.length) value) (fill : Nat → UInt8) :
    ∃ s', (assignChars this ptr (some fill)).run s = .ok () s' ∧
      Filled s this (some b) (UInt32.ofNat value.length) value s' := by
  obtain ⟨s₁, hEmptied, hRest⟩ := assignChars_run hObj hLive hRead hApart
  have hRead' : s₁.heap.read ptr = some value :=
    hEmptied.read hRead fun p hEq => fun hSame => hApart p hEq (Option.some.inj hSame)
  obtain ⟨s', hCopy, hFilled⟩ := copyFrom_fills (pure ptr) fill hEmptied.self rfl hRead'
    hRoom
  exact ⟨s', hRest _ _ hCopy, hEmptied.filled hFilled⟩

/-! ## Appending -/

/-- `str.length` after `length += str.length`: the new length, when `str` is the
object itself. -/
def lengthAfter (this str : ObjId) (sum length : UInt32) : UInt32 :=
  if str = this then sum else length

variable {la lc : UInt32} {va vc : List UInt8} {c : Nat}

theorem append_members (hObj : s.obj this = some ⟨some b, la⟩)
    (hStr : s.obj str = some ⟨some c, lc⟩) :
    (s.withMembers this ⟨some b, la + lc⟩).obj str =
      some ⟨some c, lengthAfter this str (la + lc) lc⟩ := by
  by_cases hEq : str = this
  · subst hEq
    obtain ⟨hData, rfl⟩ := MyString.mk.inj (Option.some.inj (hObj.symm.trans hStr))
    rw [withMembers_self, lengthAfter, if_pos rfl, hData]
  · rw [withMembers_other hEq, hStr, lengthAfter, if_neg hEq]

/-- `length += str.length; new char[length + str.length + 1]` -/
theorem append_run (hObj : s.obj this = some ⟨some b, la⟩)
    (hStr : s.obj str = some ⟨some c, lc⟩) {answer : Answer}
    {r : EStateM.Result Fault State Unit}
    (hRest : (do
        let tmp ← newChars (la + lc + lengthAfter this str (la + lc) lc + 1) answer
        strcpy tmp (← chars this)
        strcat tmp (← chars str)
        deleteData this
        setData this (some tmp) : Code Unit).run (s.withMembers this ⟨some b, la + lc⟩) = r) :
    (append this str answer).run s = r := by
  refine run_bind (run_members hObj) ?_
  refine run_bind (run_members hStr) ?_
  refine run_bind (run_setLength hObj _) ?_
  refine run_bind (run_members withMembers_self) ?_
  exact run_bind (run_members (append_members hObj hStr)) hRest

/-- The first string is in the new buffer, and the second is still where it was. -/
theorem append_copied {heap : Heap UInt8} {size : Nat} (hStores : heap.Stores b va)
    (hStores' : heap.Stores c vc) (fill : Nat → UInt8) (hFirst : va.length + 1 ≤ size) :
    ∃ heap₁ bytes₁,
      (heap.new size fill).strcpy ⟨heap.next, 0⟩ (.inside ⟨b, 0⟩) = some heap₁ ∧
      (heap.new size fill).Wrote heap.next heap₁ ∧ heap₁.Stores heap.next va ∧
      heap₁.bytes heap.next = some bytes₁ ∧ bytes₁.length = size ∧
      heap₁.read (.inside ⟨c, 0⟩) = some vc := by
  have hNew := new_bytes_self heap size fill
  have hNeC : c ≠ heap.next := read_not_next hStores'.read_zero _ rfl
  obtain ⟨heap₁, hCopy, hWrote, hStores₁⟩ := Heap.strcpy_stores hNew
    (read_new hStores.read_zero) (read_not_next hStores.read_zero) (by simpa using hFirst)
  obtain ⟨bytes₁, hBytes₁⟩ := Option.isSome_iff_exists.mp hStores₁.live
  have hLength : bytes₁.length = size := by
    have hLength := hWrote.length
    rw [hBytes₁, hNew] at hLength
    simpa using hLength
  have hSame : heap₁.bytes c = heap.bytes c :=
    (hWrote.others c hNeC).trans (new_bytes_other _ _ _ hNeC)
  exact ⟨heap₁, bytes₁, hCopy, hWrote, hStores₁, hBytes₁, hLength, (hStores'.congr hSame).read_zero⟩

theorem append_fills (hObj : s.obj this = some ⟨some b, la⟩) (hStores : s.heap.Stores b va)
    (hStr : s.obj str = some ⟨some c, lc⟩) (hStores' : s.heap.Stores c vc)
    (hRoom : va.length + vc.length + 1 ≤
      (la + lc + lengthAfter this str (la + lc) lc + 1).toNat) (fill : Nat → UInt8) :
    ∃ s', (append this str (some fill)).run s = .ok () s' ∧
      Filled s this (some b) (la + lc) (va ++ vc) s' := by
  -- the old buffers stay readable until the new one is complete
  have hNeB : b ≠ s.heap.next := read_not_next hStores.read_zero _ rfl
  have hNeC : c ≠ s.heap.next := read_not_next hStores'.read_zero _ rfl
  set size := (la + lc + lengthAfter this str (la + lc) lc + 1).toNat with hSize
  have hFirst : va.length + 1 ≤ size := by omega
  obtain ⟨heap₁, bytes₁, hCopy, hWrote₁, hStores₁, hBytes₁, hLength₁, hRead₁⟩ :=
    append_copied hStores hStores' fill hFirst
  obtain ⟨heap₂, hCat, hWrote₂, hStores₂⟩ := Heap.strcat_stores hStores₁ hBytes₁ hRead₁
    (by rintro p ⟨⟩; exact hNeC) (by omega)
  have hWrote := hWrote₁.trans hWrote₂
  have hLive₂ : (heap₂.bytes b).isSome := by
    rw [hWrote.isSome, new_bytes_other _ _ _ hNeB]
    exact hStores.live
  obtain ⟨heap₃, hDelete, hBytes₃, -⟩ := run_deleteData
    (s := (s.withMembers this ⟨some b, la + lc⟩).withHeap heap₂) withMembers_self hLive₂
  have hBytes₃' : heap₃.bytes = Function.update heap₂.bytes b none := hBytes₃
  refine ⟨((s.withMembers this ⟨some b, la + lc⟩).withHeap heap₃).withMembers this
    ⟨some s.heap.next, la + lc⟩, append_run hObj hStr ?_, ?_⟩
  · refine run_bind (run_newChars _ fill) ?_
    refine run_bind (run_chars (m := ⟨some b, la + lc⟩) withMembers_self rfl) ?_
    refine run_bind (run_onHeap hCopy) ?_
    refine run_bind (run_chars (append_members hObj hStr) rfl) ?_
    refine run_bind (run_onHeap hCat) ?_
    refine run_bind hDelete ?_
    exact run_setData (s := (s.withMembers this ⟨some b, la + lc⟩).withHeap heap₃)
      withMembers_self _
  · refine ⟨withMembers_self, fun o hNe => ?_, ?_, fun d hNe => ?_⟩
    · exact (withMembers_other hNe).trans (withMembers_other hNe)
    · refine hStores₂.congr ?_
      rw [withMembers_heap, withHeap_heap, hBytes₃', Function.update_of_ne hNeB.symm]
    · rw [withMembers_heap, withHeap_heap, hBytes₃']
      by_cases hEq : d = b
      · subst hEq
        rw [Function.update_self, if_pos rfl]
      · rw [Function.update_of_ne hEq, if_neg (by simpa using hEq), hWrote.others d hNe,
          new_bytes_other _ _ _ hNe]

end

end SimpleString
end LinuxCppLearn
