import LinuxCppLearn.SimpleString.Assignment

/-!
# How large a buffer the operations ask for

Every operation that makes a string asks for one buffer, and the size is an
`unsigned int`: a length plus one, and in `operator+=` a sum that has the length of
the argument in it twice.

* `Quiet` — what asks for nothing; a statement that asks, and quiet ones behind it.
* `call_asks` — the one size that each operation asks for.
* `request_enough_exactly` — when it is enough for the string that is to be made.
-/

namespace LinuxCppLearn
namespace SimpleString

open Buffers StepSystem

variable {α β : Type} {s s₁ : State} {this str o : ObjId} {answer : Answer}
  {value : List UInt8} {length : UInt32}

/-! ## What is asked for -/

/-- The state in which the code ends, whether it returns or not. -/
def finalState : EStateM.Result Fault State α → State
  | .ok _ t => t
  | .error _ t => t

/-- The sizes that `new char[]` is called with, in order. -/
def AsksIn (x : Code α) (s : State) (sizes : List Nat) : Prop :=
  (finalState (x.run s)).heap.requests = s.heap.requests ++ sizes

def Quiet (x : Code α) : Prop := ∀ s, AsksIn x s []

theorem quiet_pure (a : α) : Quiet (pure a : Code α) := fun s => by
  simp [AsksIn, finalState, EStateM.run, pure, EStateM.pure]

theorem quiet_throw (e : Fault) : Quiet (throw e : Code α) :=
  fun s => (List.append_nil s.heap.requests).symm

/-- Behind a statement that returns. -/
theorem asks_bind {x : Code α} {f : α → Code β} {a : α} {sizes : List Nat}
    (hFirst : x.run s = .ok a s₁) (hSame : s₁.heap.requests = s.heap.requests)
    (hRest : AsksIn (f a) s₁ sizes) : AsksIn (x >>= f) s sizes := by
  unfold AsksIn at hRest ⊢
  rw [run_bind hFirst rfl, hRest, hSame]

theorem Quiet.bind {x : Code α} {f : α → Code β} (hFirst : Quiet x) (hRest : ∀ a, Quiet (f a)) :
    Quiet (x >>= f) := by
  intro s
  cases hRun : x.run s with
  | ok a t =>
      have hSame := hFirst s
      rw [AsksIn, hRun, List.append_nil] at hSame
      exact asks_bind hRun hSame (hRest a t)
  | error e t =>
      have hSame := hFirst s
      rw [AsksIn, hRun] at hSame
      rw [AsksIn, run_bind_error hRun]
      exact hSame

/-- One request, and nothing behind it asks for more. -/
theorem asks_newChars {size : UInt32} {f : Nat → Code α} (hRest : ∀ b, Quiet (f b))
    (answer : Answer) : AsksIn (newChars size answer >>= f) s [size.toNat] := by
  unfold AsksIn
  cases answer with
  | none =>
      rw [run_bind_error (run_newChars_throws size)]
      rfl
  | some fill =>
      rw [run_bind (run_newChars size fill) rfl]
      have hQuiet := hRest s.heap.next (s.withHeap (s.heap.new size.toNat fill))
      rw [AsksIn, List.append_nil] at hQuiet
      exact hQuiet

/-! ## Statements -/

theorem quiet_members (o : ObjId) : Quiet (members o) := by
  intro s
  unfold AsksIn
  cases hObj : s.obj o with
  | none => simp [members, EStateM.run, hObj, finalState]
  | some m => simp [run_members hObj, finalState]

theorem quiet_setMembers (o : ObjId) (m : MyString) : Quiet (setMembers o m) := by
  intro s
  rw [AsksIn, List.append_nil]
  rfl

theorem quiet_setData (o : ObjId) (data : Option Nat) : Quiet (setData o data) :=
  (quiet_members o).bind fun _ => quiet_setMembers o _

theorem quiet_setLength (o : ObjId) (length : UInt32) : Quiet (setLength o length) :=
  (quiet_members o).bind fun _ => quiet_setMembers o _

theorem quiet_buffer (o : ObjId) : Quiet (buffer o) := by
  refine (quiet_members o).bind fun m => ?_
  cases m.data with
  | none => exact quiet_throw _
  | some b => exact quiet_pure b

theorem quiet_onHeap {f : Heap UInt8 → Option (Heap UInt8)}
    (hKeeps : ∀ h h', f h = some h' → h'.requests = h.requests) : Quiet (onHeap f) := by
  intro s
  rw [AsksIn, List.append_nil]
  cases hHeap : f s.heap with
  | none =>
      rw [run_onHeap_undefined hHeap]
      rfl
  | some heap =>
      rw [run_onHeap hHeap]
      exact hKeeps _ _ hHeap

theorem quiet_deleteData (o : ObjId) : Quiet (deleteData o) := by
  refine (quiet_members o).bind fun m => ?_
  cases m.data with
  | none => exact quiet_pure ()
  | some b => exact quiet_onHeap fun _ _ => Heap.delete_requests

theorem quiet_chars (o : ObjId) : Quiet (chars o) :=
  (quiet_buffer o).bind fun _ => quiet_pure _

theorem quiet_strcpy (dst : Nat) (src : CharPtr UInt8) : Quiet (strcpy dst src) :=
  quiet_onHeap fun _ _ => Heap.strcpy_requests

theorem quiet_strcat (dst : Nat) (src : CharPtr UInt8) : Quiet (strcat dst src) :=
  quiet_onHeap fun _ _ => Heap.strcat_requests

theorem quiet_terminate (o : ObjId) : Quiet (terminate o) :=
  (quiet_buffer o).bind fun _ => quiet_onHeap fun _ _ => Heap.write_requests

/-- `data = new char[length + 1]` asks for one more than the length. -/
theorem copyFrom_asks {data : Option Nat} {src : Code (CharPtr UInt8)}
    (hObj : s.obj this = some ⟨data, length⟩) (hSrc : Quiet src) (answer : Answer) :
    AsksIn (copyFrom this src answer) s [(length + 1).toNat] := by
  refine (asks_bind (run_members hObj) rfl ?_ : AsksIn (copyFrom this src answer) s _)
  refine asks_newChars (fun b => ?_) answer
  refine (quiet_setData this _).bind fun _ => ?_
  exact (quiet_buffer this).bind fun dst => hSrc.bind fun ptr => quiet_strcpy dst ptr

/-! ## The operations -/

def Source.text (s : State) (src : Source) : Option (List UInt8) :=
  (src.pointer s).bind s.heap.read

/-- The string that the operation is to make. -/
def Call.text (s : State) : Call → Option (List UInt8)
  | .ctor _ => some []
  | .ctorChars _ .null => some []
  | .ctorChars _ str => (Source.chars str).text s
  | .ctorCopy _ str => (Source.object str).text s
  | .dtor _ => none
  | .assign _ str => (Source.object str).text s
  | .assignChars _ str => (Source.chars str).text s
  | .append this str =>
      ((Source.object this).text s).bind fun front =>
        ((Source.object str).text s).map fun back => front ++ back

/-- What the program sees to: a constructor has an object that is not there yet,
and an assignment one that can be read. -/
def Call.Ready (s : State) : Call → Prop
  | .ctor this | .ctorChars this _ | .ctorCopy this _ => s.obj this = none
  | .assign this _ | .assignChars this _ => ∃ old, Reads s this old
  | .dtor _ | .append _ _ => True

/-- `s = s` -/
def Call.KeepsBuffer : Call → Prop
  | .assign this str => this = str
  | _ => False

/-- `s = s.c_str() + off`, which reads what it has just given back. -/
def Call.FromOwnBuffer (s : State) : Call → Prop
  | .assignChars this str =>
      ∃ ptr, (Source.chars str).pointer s = some ptr ∧ ¬ NotInBuffer s this ptr
  | _ => False

/-- `s = s`, and an assignment that ends before it asks. -/
def Call.AsksNothing (s : State) (call : Call) : Prop :=
  call.KeepsBuffer ∨ call.FromOwnBuffer s

/-- The size that is asked for, as it is computed. -/
def Call.size (s : State) (value : List UInt8) : Call → UInt32
  | .ctor _ | .ctorChars _ _ | .assignChars _ _ | .dtor _ => UInt32.ofNat value.length + 1
  | .ctorCopy _ str | .assign _ str => s.lengthOf str + 1
  | .append this str =>
      let sum := s.lengthOf this + s.lengthOf str
      sum + lengthAfter this str sum (s.lengthOf str) + 1

theorem text_object (hText : (Source.object o).text s = some value) :
    ∃ b length, s.obj o = some ⟨some b, length⟩ ∧ s.heap.read (.inside ⟨b, 0⟩) = some value := by
  obtain ⟨ptr, hPointer, hRead⟩ := Option.bind_eq_some_iff.mp hText
  obtain ⟨b, length, hObj, rfl⟩ := pointer_object hPointer
  exact ⟨b, length, hObj, hRead⟩

theorem construct_asks {body : Code Unit} {sizes : List Nat} (hNew : s.obj this = none)
    (hBody : AsksIn body (s.withMembers this ⟨none, 0⟩) sizes) :
    AsksIn (construct this body) s sizes := by
  unfold AsksIn at hBody ⊢
  cases hRun : body.run (s.withMembers this ⟨none, 0⟩) with
  | ok a t =>
      have hStart : body { s with obj := Function.update s.obj this (some ⟨none, 0⟩) } = .ok a t :=
        hRun
      rw [hRun] at hBody
      simp only [construct, EStateM.run, hNew, ne_eq, not_true_eq_false, if_false, hStart]
      exact hBody
  | error e t =>
      have hStart : body { s with obj := Function.update s.obj this (some ⟨none, 0⟩) } =
          .error e t := hRun
      rw [hRun] at hBody
      simp only [construct, EStateM.run, hNew, ne_eq, not_true_eq_false, if_false, hStart]
      exact hBody

theorem ctorChars_asks {ptr : CharPtr UInt8} (hNew : s.obj this = none)
    (hRead : s.heap.read ptr = some value) (answer : Answer) :
    AsksIn (construct this (ctorChars this (some ptr) answer)) s
      [(UInt32.ofNat value.length + 1).toNat] := by
  refine construct_asks hNew ?_
  have hRead' : (s.withMembers this ⟨none, 0⟩).heap.read ptr = some value := hRead
  refine asks_bind (run_strlen hRead') rfl ?_
  refine asks_bind (run_setLength withMembers_self _) rfl ?_
  exact copyFrom_asks withMembers_self (quiet_pure ptr) answer

theorem ctorCopy_asks {m : MyString} (hNew : s.obj this = none) (hStr : s.obj str = some m)
    (answer : Answer) :
    AsksIn (construct this (ctorCopy this str answer)) s [(m.length + 1).toNat] := by
  have hNe : str ≠ this := by
    rintro rfl
    simp [hNew] at hStr
  refine construct_asks hNew ?_
  refine asks_bind (run_members ((withMembers_other hNe).trans hStr)) rfl ?_
  refine asks_bind (run_setLength withMembers_self _) rfl ?_
  exact copyFrom_asks withMembers_self (quiet_chars str) answer

/-- What an assignment asks for when it has emptied its object. -/
theorem emptied_asks {x : Code Unit} {old : Option Nat} {src : Code (CharPtr UInt8)}
    (hEmptied : Emptied s this old length s₁) (hSrc : Quiet src)
    (hRest : ∀ r, (copyFrom this src answer).run s₁ = r → x.run s = r) :
    AsksIn x s [(length + 1).toNat] := by
  have hCopy := copyFrom_asks hEmptied.self hSrc answer
  rw [AsksIn, hEmptied.requests] at hCopy
  rw [AsksIn, hRest _ rfl]
  exact hCopy

theorem assign_asks {old : List UInt8} {data : Option Nat} (hNe : this ≠ str)
    (hOld : Reads s this old) (hStr : s.obj str = some ⟨data, length⟩) (answer : Answer) :
    AsksIn (assign this str answer) s [(length + 1).toNat] := by
  obtain ⟨b, l, hObj, hStores⟩ := hOld
  obtain ⟨s₁, hEmptied, hRest⟩ := assign_run hNe hObj hStores.live hStr
  exact emptied_asks hEmptied (quiet_chars str) (hRest answer)

theorem assignChars_asks {old : List UInt8} {ptr : CharPtr UInt8} (hOld : Reads s this old)
    (hRead : s.heap.read ptr = some value) (hApart : NotInBuffer s this ptr) (answer : Answer) :
    AsksIn (assignChars this ptr answer) s [(UInt32.ofNat value.length + 1).toNat] := by
  obtain ⟨b, l, hObj, hStores⟩ := hOld
  have hNe : ∀ p, ptr = .inside p → p.buffer ≠ b := by
    intro p hInside hIn
    refine hApart p hInside ?_
    rw [hObj, hIn]
    rfl
  obtain ⟨s₁, hEmptied, hRest⟩ := assignChars_run hObj hStores.live hRead hNe
  exact emptied_asks hEmptied (quiet_pure ptr) (hRest answer)

theorem append_asks {b c : Nat} {la lc : UInt32} (hObj : s.obj this = some ⟨some b, la⟩)
    (hStr : s.obj str = some ⟨some c, lc⟩) (answer : Answer) :
    AsksIn (append this str answer) s
      [(la + lc + lengthAfter this str (la + lc) lc + 1).toNat] := by
  rw [AsksIn, append_run hObj hStr rfl]
  refine asks_newChars (fun tmp => ?_) answer
  refine (quiet_chars this).bind fun _ => (quiet_strcpy tmp _).bind fun _ => ?_
  refine (quiet_chars str).bind fun _ => (quiet_strcat tmp _).bind fun _ => ?_
  exact (quiet_deleteData this).bind fun _ => quiet_setData this _

/-- **The one size** that an operation asks for. -/
theorem call_asks (call : Call) (hReady : call.Ready s) (hText : call.text s = some value)
    (hAsks : ¬ call.AsksNothing s) (answer : Answer) :
    AsksIn (exec answer call) s [(call.size s value).toNat] := by
  cases call with
  | ctor this =>
      obtain rfl := Option.some.inj hText
      refine construct_asks hReady ?_
      refine asks_newChars (fun b => ?_) answer
      refine (quiet_setData this _).bind fun _ => ?_
      exact (quiet_setLength this 0).bind fun _ => quiet_terminate this
  | ctorChars this str =>
      cases str with
      | null =>
          obtain rfl := Option.some.inj hText
          refine construct_asks hReady ?_
          refine asks_bind (run_setLength withMembers_self 0) rfl ?_
          refine asks_newChars (fun b => ?_) answer
          exact (quiet_setData this _).bind fun _ => quiet_terminate this
      | outside own =>
          have hSource : (Source.chars (.outside own)).text s = some value := hText
          obtain ⟨ptr, hPointer, hRead⟩ := Option.bind_eq_some_iff.mp hSource
          exact asks_bind (eval_pointer hPointer) rfl (ctorChars_asks hReady hRead answer)
      | within o off =>
          have hSource : (Source.chars (.within o off)).text s = some value := hText
          obtain ⟨ptr, hPointer, hRead⟩ := Option.bind_eq_some_iff.mp hSource
          exact asks_bind (eval_pointer hPointer) rfl (ctorChars_asks hReady hRead answer)
  | ctorCopy this str =>
      obtain ⟨b, length, hStr, -⟩ := text_object hText
      simp only [Call.size, lengthOf_eq hStr]
      exact ctorCopy_asks hReady hStr answer
  | dtor this => simp [Call.text] at hText
  | assign this str =>
      obtain ⟨old, hOld⟩ := hReady
      obtain ⟨b, length, hStr, -⟩ := text_object hText
      simp only [Call.size, lengthOf_eq hStr]
      have hNe : this ≠ str := fun hSelf => hAsks (.inl hSelf)
      exact assign_asks hNe hOld hStr answer
  | assignChars this str =>
      obtain ⟨old, hOld⟩ := hReady
      obtain ⟨ptr, hPointer, hRead⟩ := Option.bind_eq_some_iff.mp hText
      have hApart : NotInBuffer s this ptr := by
        by_contra hIn
        exact hAsks (.inr ⟨ptr, hPointer, hIn⟩)
      exact asks_bind (eval_pointer hPointer) rfl (assignChars_asks hOld hRead hApart answer)
  | append this str =>
      obtain ⟨front, hFront, hRest⟩ := Option.bind_eq_some_iff.mp hText
      obtain ⟨back, hBack, -⟩ := Option.map_eq_some_iff.mp hRest
      obtain ⟨b, la, hObj, -⟩ := text_object hFront
      obtain ⟨c, lc, hStr, -⟩ := text_object hBack
      simp only [Call.size, lengthOf_eq hObj, lengthOf_eq hStr]
      exact append_asks hObj hStr answer

theorem keepsBuffer_asks_nothing {call : Call} (hKeeps : call.KeepsBuffer) (answer : Answer) :
    AsksIn (exec answer call) s [] := by
  cases call with
  | assign this str =>
      have hSelf : this = str := hKeeps
      subst hSelf
      show AsksIn (assign this this answer) s []
      rw [AsksIn, assign_self, List.append_nil]
      rfl
  | ctor this | ctorChars this str | ctorCopy this str | dtor this | assignChars this str
  | append this str => exact hKeeps.elim

/-- It ends at `strlen`. -/
theorem fromOwnBuffer_asks_nothing {call : Call} (hReady : call.Ready s)
    (hOwn : call.FromOwnBuffer s) (answer : Answer) : AsksIn (exec answer call) s [] := by
  cases call with
  | assignChars this str =>
      obtain ⟨old, b, l, hObj, hStores⟩ := hReady
      obtain ⟨ptr, hPointer, hIn⟩ := hOwn
      obtain ⟨p, rfl, hSame⟩ : ∃ p, ptr = .inside p ∧ p.buffer = b := by
        by_contra hNone
        push Not at hNone
        refine hIn fun p hInside hSame => hNone p hInside ?_
        rw [hObj] at hSame
        exact (Option.some.inj hSame).symm
      obtain ⟨heap, hDelete, hBytes, -, hRequests⟩ := run_deleteData hObj hStores.live
      refine asks_bind (eval_pointer hPointer) rfl ?_
      refine (asks_bind hDelete hRequests ?_ : AsksIn (assignChars this (.inside p) answer) s [])
      have hGone : (s.withHeap heap).heap.read (.inside p) = none := by
        refine Heap.read_dangling ?_
        rw [withHeap_heap, hBytes, hSame, Function.update_self]
      rw [AsksIn, run_bind_error (run_strlen_undefined hGone), List.append_nil]
      rfl
  | ctor this | ctorChars this str | ctorCopy this str | dtor this | assign this str
  | append this str => exact hOwn.elim

/-! ## When it is enough -/

/-- `length + str.length + 1` behind `length += str.length`, before it wraps. -/
def State.appendSum (s : State) (this str : ObjId) : Nat :=
  if str = this then 4 * (s.lengthOf this).toNat + 1
  else (s.lengthOf this).toNat + 2 * (s.lengthOf str).toNat + 1

/-- A copy needs a length that is that of the string; what `+=` asks for is the sum
modulo 2^32. -/
def Call.Enough (s : State) (value : List UInt8) : Call → Prop
  | .ctorCopy _ str => Room (s.lengthOf str) value
  | .assign this str => this = str ∨ Room (s.lengthOf str) value
  | .assignChars this str => ¬ (Call.assignChars this str).FromOwnBuffer s
  | .append this str => value.length + 1 ≤ s.appendSum this str % 2 ^ 32
  | _ => True

/-- The length is that of the string.  It is, unless `+=` has thrown. -/
def State.ExactLength (s : State) (o : ObjId) : Prop :=
  ∀ text, (Source.object o).text s = some text → (s.lengthOf o).toNat = text.length

def Call.Exact (s : State) : Call → Prop
  | .ctorCopy _ str | .assign _ str => s.ExactLength str
  | .append this str => s.ExactLength this ∧ s.ExactLength str
  | _ => True

/-- The sum does not wrap. -/
def Call.NoWrap (s : State) : Call → Prop
  | .append this str => s.appendSum this str < 2 ^ 32
  | _ => True

theorem append_size (value : List UInt8) (this str : ObjId) :
    ((Call.append this str).size s value).toNat = s.appendSum this str % 2 ^ 32 := by
  unfold State.appendSum
  simp only [Call.size, lengthAfter]
  split
  · rename_i hSelf
    subst hSelf
    simp only [UInt32.toNat_add, UInt32.toNat_one]
    omega
  · simp only [UInt32.toNat_add, UInt32.toNat_one]
    omega

theorem enough_iff_size {call : Call} (hAsks : ¬ call.AsksNothing s)
    (hText : call.text s = some value) (hFits : value.length + 1 < 2 ^ 32) :
    call.Enough s value ↔ value.length + 1 ≤ (call.size s value).toNat := by
  have hOwn : value.length + 1 ≤ (UInt32.ofNat value.length + 1).toNat := by
    rw [UInt32.toNat_add, UInt32.toNat_one, UInt32.toNat_ofNat']
    omega
  cases call with
  | ctor this | ctorChars this str => exact iff_of_true trivial hOwn
  | ctorCopy this str => exact room_iff
  | dtor this => simp [Call.text] at hText
  | assign this str => exact (or_iff_right fun hSelf => hAsks (.inl hSelf)).trans room_iff
  | assignChars this str => exact iff_of_true (fun hFrom => hAsks (.inr hFrom)) hOwn
  | append this str =>
      rw [append_size]
      exact Iff.rfl

theorem enough_of_keepsBuffer {call : Call} (hKeeps : call.KeepsBuffer) :
    call.Enough s value := by
  cases call with
  | assign this str => exact .inl hKeeps
  | ctor this | ctorChars this str | ctorCopy this str | dtor this | assignChars this str
  | append this str => exact hKeeps.elim

theorem not_enough_of_fromOwnBuffer {call : Call} (hOwn : call.FromOwnBuffer s) :
    ¬ call.Enough s value := by
  cases call with
  | assignChars this str => exact fun hEnough => hEnough hOwn
  | ctor this | ctorChars this str | ctorCopy this str | dtor this | assign this str
  | append this str => exact hOwn.elim

/-- With exact lengths only `+=` can ask for too little: the sum that wraps is below
the length of the argument. -/
theorem enough_iff_noWrap {call : Call} (hExact : call.Exact s)
    (hText : call.text s = some value) (hFits : value.length + 1 < 2 ^ 32) :
    call.Enough s value ↔ call.NoWrap s ∧ ¬ call.FromOwnBuffer s := by
  have hRoom : ∀ {str}, (Source.object str).text s = some value → s.ExactLength str →
      Room (s.lengthOf str) value := by
    intro str hStr hLength
    have hEq := hLength value hStr
    unfold Room
    omega
  cases call with
  | ctor this | ctorChars this str | dtor this => exact iff_of_true trivial ⟨trivial, id⟩
  | ctorCopy this str => exact iff_of_true (hRoom hText hExact) ⟨trivial, id⟩
  | assign this str => exact iff_of_true (.inr (hRoom hText hExact)) ⟨trivial, id⟩
  | assignChars this str => exact ⟨fun hFresh => ⟨trivial, hFresh⟩, fun h => h.2⟩
  | append this str =>
      obtain ⟨front, hFront, hRest⟩ := Option.bind_eq_some_iff.mp hText
      obtain ⟨back, hBack, rfl⟩ := Option.map_eq_some_iff.mp hRest
      have hLa := hExact.1 front hFront
      have hLc := hExact.2 back hBack
      simp only [Call.Enough, Call.NoWrap, Call.FromOwnBuffer, State.appendSum, not_false_eq_true,
        and_true]
      rw [List.length_append] at hFits ⊢
      split
      · rename_i hSelf
        subst hSelf
        omega
      · omega

/-! ## The sum that wraps -/

/-- Without room for both strings `operator+=` writes behind its new buffer. -/
theorem append_overflows {b c : Nat} {la lc : UInt32} {va vc : List UInt8}
    (hObj : s.obj this = some ⟨some b, la⟩) (hStores : s.heap.Stores b va)
    (hStr : s.obj str = some ⟨some c, lc⟩) (hStores' : s.heap.Stores c vc)
    (hShort : (la + lc + lengthAfter this str (la + lc) lc + 1).toNat < va.length + vc.length + 1)
    (fill : Nat → UInt8) :
    ∃ t, (append this str (some fill)).run s = .error .undefined t := by
  set size := (la + lc + lengthAfter this str (la + lc) lc + 1).toNat with hSize
  set s₁ := (s.withMembers this ⟨some b, la + lc⟩).withHeap (s.heap.new size fill) with hS₁
  have hChars : (chars this).run s₁ = .ok (.inside ⟨b, 0⟩) s₁ :=
    run_chars (m := ⟨some b, la + lc⟩) withMembers_self rfl
  by_cases hFirst : va.length + 1 ≤ size
  · obtain ⟨heap₁, bytes₁, hCopy, -, hStores₁, hBytes₁, hLength₁, hRead₁⟩ :=
      append_copied hStores hStores' fill hFirst
    have hCat := Heap.strcat_overflows hStores₁ hBytes₁ hRead₁ (by omega)
    refine ⟨s₁.withHeap heap₁, append_run hObj hStr ?_⟩
    refine run_bind (run_newChars _ fill) ?_
    refine run_bind hChars ?_
    refine run_bind (run_onHeap hCopy) ?_
    refine run_bind (run_chars (append_members hObj hStr) rfl) ?_
    exact run_bind_error (run_onHeap_undefined hCat)
  · have hCopy := Heap.strcpy_overflows (new_bytes_self s.heap size fill)
      (read_new hStores.read_zero) (by simpa using hFirst)
    refine ⟨s₁, append_run hObj hStr ?_⟩
    refine run_bind (run_newChars _ fill) ?_
    refine run_bind hChars ?_
    exact run_bind_error (run_onHeap_undefined hCopy)

/-- `myString s("a"), t("aa…a");` -/
def operandCalls (n : Nat) : List (Call × (Nat → UInt8)) :=
  [(.ctorChars 0 (.outside [97]), fun _ => 0),
    (.ctorChars 1 (.outside (List.replicate n 97)), fun _ => 0)]

theorem step_ctorChars_outside (this : ObjId) (own : List UInt8) (hNew : s.obj this = none)
    (hOwn : cString own = value) (hFits : value.length + 1 < 2 ^ 32) (fill : Nat → UInt8) :
    ∃ s', step s (.ctorChars this (.outside own), fill) = some s' ∧
      Filled s this none (UInt32.ofNat value.length) value s' := by
  have hRoom : Room (UInt32.ofNat value.length) value := by
    unfold Room
    rw [UInt32.toNat_ofNat']
    omega
  have hRead : s.heap.read (.outside own) = some value := congrArg some hOwn
  obtain ⟨s', hRun, hFilled⟩ :=
    construct_filled hNew (ctorChars_fills withMembers_self hRead hRoom fill)
  exact ⟨s', step_of_run (run_bind rfl hRun), hFilled⟩

theorem cString_replicate (n : Nat) : cString (List.replicate n (97 : UInt8)) =
    List.replicate n 97 := by
  simp [cString]

theorem operandCalls_stores {n : Nat} (hFits : n + 1 < 2 ^ 32) :
    ∃ s b c, run step .init (operandCalls n) = some s ∧
      s.obj 0 = some ⟨some b, 1⟩ ∧ s.heap.Stores b [97] ∧
      s.obj 1 = some ⟨some c, UInt32.ofNat n⟩ ∧ s.heap.Stores c (List.replicate n 97) := by
  obtain ⟨s₁, hFirst, hFilled₁⟩ := step_ctorChars_outside (s := State.init) 0 [97] rfl rfl
    (by decide) fun _ => 0
  have hNew : s₁.obj 1 = none := hFilled₁.other 1 (by decide)
  obtain ⟨s₂, hSecond, hFilled₂⟩ := step_ctorChars_outside 1 _ hNew (cString_replicate n)
    (by rwa [List.length_replicate]) fun _ => 0
  rw [List.length_replicate] at hFilled₂
  refine ⟨s₂, _, _, ?_, (hFilled₂.other 0 (by decide)).trans hFilled₁.self, ?_, hFilled₂.self,
    hFilled₂.stores⟩
  · rw [operandCalls, run_cons, hFirst, Option.bind_some, run_cons, hSecond]
    rfl
  · refine hFilled₁.stores.congr ?_
    rw [hFilled₂.bytes _ (Heap.lt_next hFilled₁.stores.live).ne, if_neg (by simp)]

/-- What `s += t` is to make of them, and the sum in it. -/
theorem operandCalls_append {n : Nat} (hFits : n + 1 < 2 ^ 32) :
    ∃ s, run step .init (operandCalls n) = some s ∧
      (Call.append 0 1).text s = some (97 :: List.replicate n 97) ∧
      s.appendSum 0 1 = 2 * n + 2 ∧
      ((2 * n + 2) % 2 ^ 32 < n + 2 →
        ∀ fill, ∃ t, (exec (some fill) (.append 0 1)).run s = .error .undefined t) := by
  obtain ⟨s, b, c, hRun, hObj, hStores, hStr, hStores'⟩ := operandCalls_stores hFits
  have hSum : s.appendSum 0 1 = 2 * n + 2 := by
    rw [State.appendSum, if_neg (by decide), lengthOf_eq hObj, lengthOf_eq hStr,
      UInt32.toNat_one, UInt32.toNat_ofNat']
    omega
  refine ⟨s, hRun, ?_, hSum, fun hWraps fill => ?_⟩
  · have hFront : (Source.object 0).text s = some [97] := by
      simp [Source.text, Source.pointer, hObj, hStores.read_zero]
    have hBack : (Source.object 1).text s = some (List.replicate n 97) := by
      simp [Source.text, Source.pointer, hStr, hStores'.read_zero]
    simp only [Call.text, hFront, hBack]
    rfl
  · refine append_overflows hObj hStores hStr hStores' ?_ fill
    have hSize := append_size (s := s) [] 0 1
    simp only [Call.size, lengthOf_eq hObj, lengthOf_eq hStr] at hSize
    rw [hSize, hSum, List.length_replicate, List.length_singleton]
    omega

/-! ## The operations ask for enough, or not -/

/-- **When the operations ask for enough.**  An operation asks for one buffer, or
for none; what it asks for holds the string and its terminator exactly if the sum in
`+=`, modulo 2^32, and the length that a copy takes over are large enough, and if it is
no assignment from the object's own buffer, which ends before it asks.  With lengths
that are those of the strings this is that `length + 2 * str.length + 1` does not wrap,
and all the other operations are fine but that assignment. -/
theorem request_enough_exactly (call : Call) (answer : Answer) (hReady : call.Ready s)
    (hText : call.text s = some value) (hFits : value.length + 1 < 2 ^ 32) :
    (∃ sizes, AsksIn (exec answer call) s sizes ∧
      (call.AsksNothing s ∧ sizes = [] ∨ ¬ call.AsksNothing s ∧ ∃ size, sizes = [size]) ∧
      ((call.KeepsBuffer ∨ ∃ size ∈ sizes, value.length + 1 ≤ size) ↔ call.Enough s value)) ∧
      (call.Exact s → (call.Enough s value ↔ call.NoWrap s ∧ ¬ call.FromOwnBuffer s)) := by
  refine ⟨?_, fun hExact => enough_iff_noWrap hExact hText hFits⟩
  by_cases hKeeps : call.KeepsBuffer
  · refine ⟨[], keepsBuffer_asks_nothing hKeeps answer, .inl ⟨.inl hKeeps, rfl⟩, ?_⟩
    exact iff_of_true (.inl hKeeps) (enough_of_keepsBuffer hKeeps)
  · by_cases hOwn : call.FromOwnBuffer s
    · refine ⟨[], fromOwnBuffer_asks_nothing hReady hOwn answer, .inl ⟨.inr hOwn, rfl⟩, ?_⟩
      exact iff_of_false (by simp [hKeeps]) (not_enough_of_fromOwnBuffer hOwn)
    · have hAsks : ¬ call.AsksNothing s := not_or.mpr ⟨hKeeps, hOwn⟩
      refine ⟨_, call_asks call hReady hText hAsks answer, .inr ⟨hAsks, _, rfl⟩, ?_⟩
      rw [enough_iff_size hAsks hText hFits, or_iff_right hKeeps]
      simp

/-- `s += t` with one character each. -/
theorem request_enough_exactly_single :
    ∃ s sizes, run step .init (operandCalls 1) = some s ∧
      AsksIn (exec none (.append 0 1)) s sizes ∧ ∃ size ∈ sizes, 3 ≤ size := by
  obtain ⟨s, hRun, hText, hSum, -⟩ := operandCalls_append (n := 1) (by omega)
  obtain ⟨⟨sizes, hAsks, -, hEnough⟩, -⟩ :=
    request_enough_exactly (.append 0 1) none trivial hText (by decide)
  have hRoom : (Call.append 0 1).Enough s (97 :: List.replicate 1 97) := by
    simp only [Call.Enough, hSum]
    decide
  exact ⟨s, sizes, hRun, hAsks, (hEnough.mpr hRoom).resolve_left id⟩

/-- `s += t` with one character and 2^31 asks for two bytes, and writes behind them. -/
theorem append_asks_two :
    ∃ s value, run step .init (operandCalls (2 ^ 31)) = some s ∧
      (Call.append 0 1).text s = some value ∧ value.length + 1 < 2 ^ 32 ∧
      (∀ answer, AsksIn (exec answer (.append 0 1)) s [2]) ∧
      ∀ fill, ∃ t, (exec (some fill) (.append 0 1)).run s = .error .undefined t := by
  obtain ⟨s, hRun, hText, hSum, hOverflows⟩ := operandCalls_append (n := 2 ^ 31) (by omega)
  refine ⟨s, _, hRun, hText, ?_, fun answer => ?_, hOverflows (by omega)⟩
  · rw [List.length_cons, List.length_replicate]
    omega
  · have hAsks := call_asks (.append 0 1) trivial hText (not_or.mpr ⟨id, id⟩) answer
    rwa [append_size, hSum] at hAsks

end SimpleString
end LinuxCppLearn
