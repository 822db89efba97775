import LinuxCppLearn.SimpleString.Effects

/-!
# The class refines strings

The purpose of the class, over strings: an object stands for a list of
characters, every operation is one on lists, and a run stays among lengths below
2^30.  Every such run is a run of the code, for every content that `new char[]`
may give, and behind it

* every object that is there has a buffer with its string in front of a
  terminator, and its length;
* no two of them have the same buffer;
* every buffer that was ever given is that of an object, or was given back, once.

* `Represents.filled` — a new buffer for one object keeps this.
* `step_represents` — one operation.
* `run_refines_strings` — every run.
-/

namespace LinuxCppLearn
namespace SimpleString

open Buffers StepSystem

/-! ## Strings -/

/-- The strings that the objects stand for. -/
abbrev Values := ObjId → Option (List UInt8)

/-- The string of a `const char *`, where it is one. -/
def Values.argument (v : Values) : CharArg → Option (List UInt8)
  | .null => some []
  | .outside chars => some (cString chars)
  | .within o off =>
      (v o).bind fun value => if off ≤ value.length then some (value.drop off) else none

def Values.put (v : Values) (this : ObjId) (value : List UInt8) : Option Values :=
  if value.length < 2 ^ 30 then some (Function.update v this (some value)) else none

def Values.construct (v : Values) (this : ObjId) (value : Option (List UInt8)) : Option Values :=
  if v this = none then value.bind (v.put this) else none

def Values.assign (v : Values) (this : ObjId) (value : Option (List UInt8)) : Option Values :=
  if v this = none then none else value.bind (v.put this)

/-- What the operations are for; `none` where the program may not use them, which
is also an assignment from a pointer into a buffer of the class. -/
def valueStep (v : Values) : Call → Option Values
  | .ctor this => v.construct this (some [])
  | .ctorChars this str => v.construct this (v.argument str)
  | .ctorCopy this str => v.construct this (v str)
  | .dtor this => if v this = none then none else some (Function.update v this none)
  | .assign this str => v.assign this (v str)
  | .assignChars this (.outside chars) => v.assign this (some (cString chars))
  | .assignChars _ _ => none
  | .append this str =>
      (v this).bind fun front => (v str).bind fun back => v.put this (front ++ back)

/-! ## What it means that the objects stand for strings -/

def Owns (s : State) (o : ObjId) (b : Nat) : Prop :=
  ∃ length, s.obj o = some ⟨some b, length⟩

/-- A buffer with the string in front of a terminator, and the length of it. -/
def Holds (s : State) (o : ObjId) (value : List UInt8) : Prop :=
  ∃ b length, s.obj o = some ⟨some b, length⟩ ∧ s.heap.Stores b value ∧
    length.toNat = value.length

structure Represents (s : State) (v : Values) : Prop where
  holds : ∀ {o value}, v o = some value → Holds s o value
  gone : ∀ {o}, v o = none → s.obj o = none
  short : ∀ {o value}, v o = some value → value.length < 2 ^ 30
  apart : ∀ {o o' b}, Owns s o b → Owns s o' b → o = o'
  owned : ∀ {b}, (s.heap.bytes b).isSome → ∃ o, Owns s o b

variable {s s' : State} {v v' : Values} {this str o : ObjId} {value : List UInt8} {b : Nat}
  {old : Option Nat} {length : UInt32}

theorem represents_init : Represents .init fun _ => none where
  holds h := by simp at h
  gone _ := rfl
  short h := by simp at h
  apart h := by simp [Owns, State.init] at h
  owned h := by simp [State.init, Heap.empty] at h

theorem Owns.isSome (hRep : Represents s v) (hOwns : Owns s o b) : (s.heap.bytes b).isSome := by
  obtain ⟨length, hObj⟩ := hOwns
  cases hValue : v o with
  | none => simp [hRep.gone hValue] at hObj
  | some value =>
      obtain ⟨c, length', hObj', hStores, -⟩ := hRep.holds hValue
      obtain ⟨hData, -⟩ := MyString.mk.inj (Option.some.inj (hObj.symm.trans hObj'))
      obtain rfl : b = c := Option.some.inj hData
      exact hStores.live

theorem Owns.unique {c : Nat} (hOwns : Owns s o b) (hOwns' : Owns s o c) : b = c := by
  obtain ⟨length, hObj⟩ := hOwns
  obtain ⟨length', hObj'⟩ := hOwns'
  obtain ⟨hData, -⟩ := MyString.mk.inj (Option.some.inj (hObj.symm.trans hObj'))
  exact Option.some.inj hData

/-- **One object gets another value, or none.**  The other objects and what they own
stay; what it owns now was not live, and what it owned is not live any more. -/
theorem Represents.one_object {new : Option (List UInt8)} (hRep : Represents s v)
    (hOther : ∀ o, o ≠ this → s'.obj o = s.obj o)
    (hKept : ∀ {o b}, o ≠ this → Owns s o b → s'.heap.bytes b = s.heap.bytes b)
    (hHolds : ∀ value, new = some value → Holds s' this value ∧ value.length < 2 ^ 30)
    (hGone : new = none → s'.obj this = none)
    (hFresh : ∀ {b}, Owns s' this b → ¬ (s.heap.bytes b).isSome)
    (hLive : ∀ {b}, (s'.heap.bytes b).isSome →
      Owns s' this b ∨ (s.heap.bytes b).isSome ∧ ¬ Owns s this b) :
    Represents s' (Function.update v this new) := by
  have hOwnsOther : ∀ {o b}, o ≠ this → (Owns s' o b ↔ Owns s o b) := by
    intro o b hNe
    unfold Owns
    rw [hOther o hNe]
  -- the only owner of what `this` owns
  have hAlone : ∀ {o b}, Owns s' this b → Owns s' o b → o = this := by
    intro o b hOwns hOwns'
    by_contra hNe
    exact hFresh hOwns (((hOwnsOther hNe).mp hOwns').isSome hRep)
  constructor
  case holds =>
    intro o value hValue
    by_cases hEq : o = this
    · subst hEq
      rw [Function.update_self] at hValue
      exact (hHolds value hValue).1
    · rw [Function.update_of_ne hEq] at hValue
      obtain ⟨b, length, hObj, hStores, hLength⟩ := hRep.holds hValue
      exact ⟨b, length, (hOther o hEq).trans hObj, hStores.congr (hKept hEq ⟨length, hObj⟩),
        hLength⟩
  case gone =>
    intro o hValue
    by_cases hEq : o = this
    · subst hEq
      rw [Function.update_self] at hValue
      exact hGone hValue
    · rw [Function.update_of_ne hEq] at hValue
      exact (hOther o hEq).trans (hRep.gone hValue)
  case short =>
    intro o value hValue
    by_cases hEq : o = this
    · subst hEq
      rw [Function.update_self] at hValue
      exact (hHolds value hValue).2
    · rw [Function.update_of_ne hEq] at hValue
      exact hRep.short hValue
  case apart =>
    intro o o' b hOwns hOwns'
    by_cases hEq : o = this
    · subst hEq
      exact (hAlone hOwns hOwns').symm
    · by_cases hEq' : o' = this
      · subst hEq'
        exact hAlone hOwns' hOwns
      · exact hRep.apart ((hOwnsOther hEq).mp hOwns) ((hOwnsOther hEq').mp hOwns')
  case owned =>
    intro b hSome
    rcases hLive hSome with hOwns | ⟨hSome', hNot⟩
    · exact ⟨this, hOwns⟩
    · obtain ⟨o, hOwns⟩ := hRep.owned hSome'
      have hNe : o ≠ this := by
        rintro rfl
        exact hNot hOwns
      exact ⟨o, (hOwnsOther hNe).mpr hOwns⟩

/-- A new buffer for one object; the old one is gone. -/
theorem Represents.filled (hRep : Represents s v) (hOld : ∀ b, some b = old ↔ Owns s this b)
    (hFilled : Filled s this old length value s') (hLength : length.toNat = value.length)
    (hShort : value.length < 2 ^ 30) :
    Represents s' (Function.update v this (some value)) := by
  have hOwnsThis : ∀ {b}, Owns s' this b ↔ b = s.heap.next := by
    intro b
    unfold Owns
    rw [hFilled.self]
    simp [eq_comm]
  refine hRep.one_object hFilled.other ?kept ?holds ?gone ?fresh ?live
  case kept =>
    intro o b hNe hOwns
    have hNotNext : b ≠ s.heap.next := (Heap.lt_next (hOwns.isSome hRep)).ne
    rw [hFilled.bytes b hNotNext, if_neg]
    intro hGone
    exact hNe (hRep.apart hOwns ((hOld b).mp hGone))
  case holds =>
    intro value' hValue
    obtain rfl := Option.some.inj hValue
    exact ⟨⟨s.heap.next, length, hFilled.self, hFilled.stores, hLength⟩, hShort⟩
  case gone =>
    intro hValue
    simp at hValue
  case fresh =>
    intro b hOwns hSome
    exact (Heap.lt_next hSome).ne (hOwnsThis.mp hOwns)
  case live =>
    intro b hSome
    by_cases hEq : b = s.heap.next
    · exact .inl (hOwnsThis.mpr hEq)
    · rw [hFilled.bytes b hEq] at hSome
      split at hSome
      · simp at hSome
      · rename_i hNot
        exact .inr ⟨hSome, fun hOwns => hNot ((hOld b).mpr hOwns)⟩

/-- An object and its buffer are gone. -/
theorem Represents.destroyed (hRep : Represents s v) (hOwns : Owns s this b)
    (hObj : s'.obj = Function.update s.obj this none)
    (hBytes : s'.heap.bytes = Function.update s.heap.bytes b none) :
    Represents s' (Function.update v this none) := by
  have hSelf : s'.obj this = none := by
    rw [hObj, Function.update_self]
  refine hRep.one_object ?other ?kept ?holds (fun _ => hSelf) ?fresh ?live
  case other =>
    intro o hNe
    rw [hObj, Function.update_of_ne hNe]
  case kept =>
    intro o c hNe hOwns'
    rw [hBytes, Function.update_of_ne]
    rintro rfl
    exact hNe (hRep.apart hOwns' hOwns)
  case holds =>
    intro value hValue
    simp at hValue
  case fresh =>
    rintro c ⟨length, hObj'⟩
    rw [hSelf] at hObj'
    simp at hObj'
  case live =>
    intro c hSome
    have hNe : c ≠ b := by
      rintro rfl
      rw [hBytes, Function.update_self] at hSome
      simp at hSome
    rw [hBytes, Function.update_of_ne hNe] at hSome
    exact .inr ⟨hSome, fun hOwns' => hNe (hOwns'.unique hOwns)⟩

/-! ## One operation -/

theorem step_of_run {a : Call × (Nat → UInt8)} (hRun : (exec (some a.2) a.1).run s = .ok () s') :
    step s a = some s' := by
  simp only [step, hRun]

/-- The object is new; its constructor ends with a buffer. -/
theorem construct_filled {body : Code Unit} (hNew : s.obj this = none)
    (hBody : ∃ s', body.run (s.withMembers this ⟨none, 0⟩) = .ok () s' ∧
      Filled (s.withMembers this ⟨none, 0⟩) this none length value s') :
    ∃ s', (construct this body).run s = .ok () s' ∧ Filled s this none length value s' := by
  obtain ⟨s', hRun, hFilled⟩ := hBody
  refine ⟨s', ?_, hFilled.self, fun o hNe => ?_, hFilled.stores, hFilled.bytes⟩
  · have hBody : body { s with obj := Function.update s.obj this (some ⟨none, 0⟩) } = .ok () s' :=
      hRun
    simp only [construct, EStateM.run, hNew, ne_eq, not_true_eq_false, if_false, hBody]
  · exact (hFilled.other o hNe).trans (withMembers_other hNe)

theorem dtor_run (hObj : s.obj this = some ⟨some b, length⟩) (hLive : (s.heap.bytes b).isSome)
    (answer : Answer) :
    ∃ s', (exec answer (.dtor this)).run s = .ok () s' ∧
      s'.obj = Function.update s.obj this none ∧
      s'.heap.bytes = Function.update s.heap.bytes b none := by
  obtain ⟨heap, hDelete, hBytes, -⟩ := run_deleteData hObj hLive
  have hDtor : (dtor this).run s =
      .ok () ((s.withHeap heap).withMembers this ⟨none, length⟩) := by
    refine run_bind (run_members hObj) ?_
    rw [if_pos (by simp)]
    exact run_bind hDelete (run_setData (s := s.withHeap heap) hObj none)
  refine ⟨_, run_bind hDtor rfl, ?_, hBytes⟩
  show Function.update (Function.update s.obj this _) this none = _
  rw [Function.update_idem]

theorem Values.put_eq_some (hPut : v.put this value = some v') :
    value.length < 2 ^ 30 ∧ v' = Function.update v this (some value) := by
  obtain ⟨hShort, hEq⟩ := Option.ite_none_right_eq_some.mp hPut
  exact ⟨hShort, (Option.some.inj hEq).symm⟩

theorem Values.construct_eq_some {argument : Option (List UInt8)}
    (hSpec : v.construct this argument = some v') :
    v this = none ∧ ∃ value, argument = some value ∧ value.length < 2 ^ 30 ∧
      v' = Function.update v this (some value) := by
  obtain ⟨hNew, hBind⟩ := Option.ite_none_right_eq_some.mp hSpec
  obtain ⟨value, hValue, hPut⟩ := Option.bind_eq_some_iff.mp hBind
  exact ⟨hNew, value, hValue, Values.put_eq_some hPut⟩

theorem Values.assign_eq_some {argument : Option (List UInt8)}
    (hSpec : v.assign this argument = some v') :
    (∃ was, v this = some was) ∧ ∃ value, argument = some value ∧ value.length < 2 ^ 30 ∧
      v' = Function.update v this (some value) := by
  obtain ⟨hThere, hBind⟩ := Option.ite_none_left_eq_some.mp hSpec
  obtain ⟨value, hValue, hPut⟩ := Option.bind_eq_some_iff.mp hBind
  exact ⟨Option.ne_none_iff_exists'.mp hThere, value, hValue, Values.put_eq_some hPut⟩

/-- There is room behind a length that is that of the string. -/
theorem room_of_length (hLength : length.toNat = value.length) (hShort : value.length < 2 ^ 30) :
    Room length value := by
  unfold Room
  omega

theorem ofNat_length (hShort : value.length < 2 ^ 30) :
    (UInt32.ofNat value.length).toNat = value.length := by
  rw [UInt32.toNat_ofNat']
  omega

theorem owns_iff (hObj : s.obj this = some ⟨some b, length⟩) (c : Nat) :
    some c = some b ↔ Owns s this c := by
  constructor
  · intro hEq
    obtain rfl := Option.some.inj hEq
    exact ⟨length, hObj⟩
  · intro hOwns
    exact congrArg some (hOwns.unique ⟨length, hObj⟩)

section

variable (hRep : Represents s v)
include hRep

theorem Represents.owns_none (hNew : v this = none) (c : Nat) :
    some c = none ↔ Owns s this c := by
  constructor
  · intro hEq
    simp at hEq
  · rintro ⟨length, hObj⟩
    rw [hRep.gone hNew] at hObj
    simp at hObj

/-- The pointer that an argument evaluates to, and what it reads. -/
theorem Represents.argument {str : CharArg} (hValue : v.argument str = some value) :
    str = .null ∧ value = [] ∨
      ∃ ptr, str.eval.run s = .ok (some ptr) s ∧ s.heap.read ptr = some value := by
  cases str with
  | null =>
      left
      exact ⟨rfl, (Option.some.inj hValue).symm⟩
  | outside chars =>
      right
      exact ⟨.outside chars, rfl, hValue⟩
  | within o off =>
      right
      obtain ⟨whole, hWhole, hBehind⟩ := Option.bind_eq_some_iff.mp hValue
      obtain ⟨hIn, hEq⟩ := Option.ite_none_right_eq_some.mp hBehind
      obtain ⟨b, length, hObj, hStores, -⟩ := hRep.holds hWhole
      refine ⟨.inside ⟨b, off⟩, run_bind (run_buffer hObj rfl) rfl, ?_⟩
      rw [hStores.read hIn, hEq]

theorem Represents.step_ctor (hSpec : v.construct this (some []) = some v')
    (fill : Nat → UInt8) :
    ∃ s', (exec (some fill) (.ctor this)).run s = .ok () s' ∧ Represents s' v' := by
  obtain ⟨hNew, value, hValue, hShort, rfl⟩ := Values.construct_eq_some hSpec
  obtain rfl := Option.some.inj hValue
  obtain ⟨s', hRun, hFilled⟩ := construct_filled (hRep.gone hNew)
    (ctor_fills withMembers_self fill)
  exact ⟨s', hRun, hRep.filled (hRep.owns_none hNew) hFilled rfl hShort⟩

theorem Represents.step_ctorChars {str : CharArg}
    (hSpec : v.construct this (v.argument str) = some v') (fill : Nat → UInt8) :
    ∃ s', (exec (some fill) (.ctorChars this str)).run s = .ok () s' ∧ Represents s' v' := by
  obtain ⟨hNew, value, hValue, hShort, rfl⟩ := Values.construct_eq_some hSpec
  obtain ⟨rfl, rfl⟩ | ⟨ptr, hEval, hRead⟩ := hRep.argument hValue
  · obtain ⟨s', hRun, hFilled⟩ := construct_filled (hRep.gone hNew)
      (ctorChars_null_fills withMembers_self fill)
    exact ⟨s', hRun, hRep.filled (hRep.owns_none hNew) hFilled rfl hShort⟩
  · have hLength := ofNat_length hShort
    obtain ⟨s', hRun, hFilled⟩ := construct_filled (hRep.gone hNew)
      (ctorChars_fills withMembers_self hRead (room_of_length hLength hShort) fill)
    exact ⟨s', run_bind hEval hRun, hRep.filled (hRep.owns_none hNew) hFilled hLength hShort⟩

theorem Represents.step_ctorCopy (hSpec : v.construct this (v str) = some v')
    (fill : Nat → UInt8) :
    ∃ s', (exec (some fill) (.ctorCopy this str)).run s = .ok () s' ∧ Represents s' v' := by
  obtain ⟨hNew, value, hValue, hShort, rfl⟩ := Values.construct_eq_some hSpec
  obtain ⟨b, length, hObj, hStores, hLength⟩ := hRep.holds hValue
  have hNe : str ≠ this := by
    rintro rfl
    simp [hNew] at hValue
  obtain ⟨s', hRun, hFilled⟩ := construct_filled (hRep.gone hNew)
    (ctorCopy_fills withMembers_self hNe ((withMembers_other hNe).trans hObj) hStores
      (room_of_length hLength hShort) fill)
  exact ⟨s', hRun, hRep.filled (hRep.owns_none hNew) hFilled hLength hShort⟩

theorem Represents.step_dtor (hThere : v this ≠ none) (fill : Nat → UInt8) :
    ∃ s', (exec (some fill) (.dtor this)).run s = .ok () s' ∧
      Represents s' (Function.update v this none) := by
  obtain ⟨value, hValue⟩ := Option.ne_none_iff_exists'.mp hThere
  obtain ⟨b, length, hObj, hStores, -⟩ := hRep.holds hValue
  obtain ⟨s', hRun, hObj', hBytes⟩ := dtor_run hObj hStores.live (some fill)
  exact ⟨s', hRun, hRep.destroyed ⟨length, hObj⟩ hObj' hBytes⟩

/-- Also to itself: nothing happens then, and nothing has to. -/
theorem Represents.step_assign (hSpec : v.assign this (v str) = some v') (fill : Nat → UInt8) :
    ∃ s', (exec (some fill) (.assign this str)).run s = .ok () s' ∧ Represents s' v' := by
  obtain ⟨⟨was, hWas⟩, value, hValue, hShort, rfl⟩ := Values.assign_eq_some hSpec
  by_cases hEq : this = str
  · subst hEq
    refine ⟨s, assign_self _, ?_⟩
    rwa [← hValue, Function.update_eq_self]
  · obtain ⟨b, length, hObj, hStores, -⟩ := hRep.holds hWas
    obtain ⟨c, length', hStr, hStores', hLength⟩ := hRep.holds hValue
    have hApart : c ≠ b := by
      rintro rfl
      exact hEq (hRep.apart ⟨length, hObj⟩ ⟨length', hStr⟩)
    obtain ⟨s', hRun, hFilled⟩ := assign_fills hEq hObj hStores.live hStr hStores' hApart
      (room_of_length hLength hShort) fill
    exact ⟨s', hRun, hRep.filled (owns_iff hObj) hFilled hLength hShort⟩

theorem Represents.step_assignChars {chars : List UInt8}
    (hSpec : v.assign this (some (cString chars)) = some v') (fill : Nat → UInt8) :
    ∃ s', (exec (some fill) (.assignChars this (.outside chars))).run s = .ok () s' ∧
      Represents s' v' := by
  obtain ⟨⟨was, hWas⟩, value, hValue, hShort, rfl⟩ := Values.assign_eq_some hSpec
  obtain ⟨b, length, hObj, hStores, -⟩ := hRep.holds hWas
  have hLength := ofNat_length hShort
  have hValue' : s.heap.read (.outside chars) = some value := hValue
  obtain ⟨s', hRun, hFilled⟩ := assignChars_fills hObj hStores.live hValue'
    (by simp) (room_of_length hLength hShort) fill
  refine ⟨s', ?_, hRep.filled (owns_iff hObj) hFilled hLength hShort⟩
  exact hRun

/-- Also to itself: the length has doubled when it is added once more, and the
buffer is the larger for it. -/
theorem Represents.step_append {front back : List UInt8} (hFront : v this = some front)
    (hBack : v str = some back) (hShort : (front ++ back).length < 2 ^ 30)
    (fill : Nat → UInt8) :
    ∃ s', (exec (some fill) (.append this str)).run s = .ok () s' ∧
      Represents s' (Function.update v this (some (front ++ back))) := by
  obtain ⟨b, la, hObj, hStores, hLa⟩ := hRep.holds hFront
  obtain ⟨c, lc, hStr, hStores', hLc⟩ := hRep.holds hBack
  rw [List.length_append] at hShort
  have hSum : (la + lc).toNat = (front ++ back).length := by
    rw [UInt32.toNat_add, hLa, hLc, List.length_append]
    omega
  have hRoom : front.length + back.length + 1 ≤
      (la + lc + lengthAfter this str (la + lc) lc + 1).toNat := by
    have hAfter : (lengthAfter this str (la + lc) lc).toNat ≤ front.length + back.length := by
      unfold lengthAfter
      split
      · rw [hSum, List.length_append]
      · rw [hLc]
        omega
    rw [List.length_append] at hSum
    rw [UInt32.toNat_add, UInt32.toNat_add, UInt32.toNat_one, hSum]
    omega
  obtain ⟨s', hRun, hFilled⟩ := append_fills hObj hStores hStr hStores' hRoom fill
  refine ⟨s', hRun, hRep.filled (owns_iff hObj) hFilled hSum ?_⟩
  rwa [List.length_append]

end

/-- **One operation**: what is one on strings is one of the code. -/
theorem step_represents (hRep : Represents s v) {a : Call × (Nat → UInt8)}
    (hSpec : valueStep v a.1 = some v') : ∃ s', step s a = some s' ∧ Represents s' v' := by
  obtain ⟨call, fill⟩ := a
  have hRun : ∃ s', (exec (some fill) call).run s = .ok () s' ∧ Represents s' v' := by
    cases call with
    | ctor this => exact hRep.step_ctor hSpec fill
    | ctorChars this str => exact hRep.step_ctorChars hSpec fill
    | ctorCopy this str => exact hRep.step_ctorCopy hSpec fill
    | dtor this =>
        obtain ⟨hThere, hEq⟩ := Option.ite_none_left_eq_some.mp hSpec
        obtain rfl := Option.some.inj hEq
        exact hRep.step_dtor hThere fill
    | assign this str => exact hRep.step_assign hSpec fill
    | assignChars this str =>
        cases str with
        | null => simp [valueStep] at hSpec
        | outside chars => exact hRep.step_assignChars hSpec fill
        | within o off => simp [valueStep] at hSpec
    | append this str =>
        obtain ⟨front, hFront, hBind⟩ := Option.bind_eq_some_iff.mp hSpec
        obtain ⟨back, hBack, hPut⟩ := Option.bind_eq_some_iff.mp hBind
        obtain ⟨hShort, rfl⟩ := Values.put_eq_some hPut
        exact hRep.step_append hFront hBack hShort fill
  obtain ⟨s', hRun, hRep'⟩ := hRun
  exact ⟨s', step_of_run hRun, hRep'⟩

/-! ## Every run -/

theorem run_represents {calls : List (Call × (Nat → UInt8))} (hRep : Represents s v)
    (hSpec : run (fun v a => valueStep v a.1) v calls = some v') :
    ∃ s', run step s calls = some s' ∧ Represents s' v' := by
  induction calls generalizing s v with
  | nil =>
      obtain rfl := Option.some.inj hSpec
      exact ⟨s, rfl, hRep⟩
  | cons a calls ih =>
      rw [run_cons, Option.bind_eq_some_iff] at hSpec
      obtain ⟨v₁, hFirst, hRest⟩ := hSpec
      obtain ⟨s₁, hStep, hRep₁⟩ := step_represents hRep hFirst
      obtain ⟨s', hRun, hRep'⟩ := ih hRep₁ hRest
      refine ⟨s', ?_, hRep'⟩
      rw [run_cons, hStep]
      exact hRun

/-- A buffer is given back once, and not before its object is done with it. -/
theorem Represents.freed (hRep : Represents s v) {b : Nat} (hGiven : b < s.heap.next) :
    s.heap.freed.count b = 0 ∧ (∃ o, Owns s o b) ∨
      s.heap.freed.count b = 1 ∧ ¬ ∃ o, Owns s o b := by
  rw [s.heap.ledger b hGiven]
  by_cases hLive : (s.heap.bytes b).isSome
  · left
    exact ⟨if_pos hLive, hRep.owned hLive⟩
  · right
    refine ⟨if_neg hLive, ?_⟩
    rintro ⟨o, hOwns⟩
    exact hLive (hOwns.isSome hRep)

/-- **The class refines strings.** -/
theorem run_refines_strings {calls : List (Call × (Nat → UInt8))} {v : Values}
    (hSpec : run (fun v a => valueStep v a.1) (fun _ => none) calls = some v) :
    ∃ s, run step .init calls = some s ∧
      (∀ o, (s.obj o).isSome ↔ (v o).isSome) ∧
      (∀ o value, v o = some value →
        ∃ b length bytes, s.obj o = some ⟨some b, length⟩ ∧ s.heap.bytes b = some bytes ∧
          length.toNat + 1 ≤ bytes.length ∧ s.heap.text ⟨b, 0⟩ = some value ∧
          s.heap.strlen (.inside ⟨b, 0⟩) = some length.toNat) ∧
      (∀ o o' b, Owns s o b → Owns s o' b → o = o') ∧
      (∀ b < s.heap.next, s.heap.freed.count b = 0 ∧ (∃ o, Owns s o b) ∨
        s.heap.freed.count b = 1 ∧ ¬ ∃ o, Owns s o b) ∧
      ((∀ o, v o = none) → ∀ b < s.heap.next, s.heap.freed.count b = 1) := by
  obtain ⟨s, hRun, hRep⟩ := run_represents represents_init hSpec
  refine ⟨s, hRun, fun o => ?_, fun o value hValue => ?_, fun o o' b => hRep.apart,
    fun b => hRep.freed, fun hEmpty b hGiven => ?_⟩
  · cases hValue : v o with
    | none => simp [hRep.gone hValue]
    | some value =>
        obtain ⟨b, length, hObj, -⟩ := hRep.holds hValue
        simp [hObj]
  · obtain ⟨b, length, hObj, hStores, hLength⟩ := hRep.holds hValue
    obtain ⟨bytes, hBytes⟩ := Option.isSome_iff_exists.mp hStores.live
    refine ⟨b, length, bytes, hObj, hBytes, ?_, hStores.text_zero, ?_⟩
    · rw [hLength]
      exact hStores.room hBytes
    · rw [Heap.strlen, hStores.read_zero, hLength]
      rfl
  · rcases hRep.freed hGiven with ⟨-, o, length, hObj⟩ | ⟨hCount, -⟩
    · simp [hRep.gone (hEmpty o)] at hObj
    · exact hCount

/-- The objects of `main`, and then `str4 += str4; str4 = str4;` -/
def mainCalls : List (Call × (Nat → UInt8)) :=
  [.ctorChars 1 (.outside [104, 101, 108, 108, 111]), .ctorCopy 2 1, .ctorCopy 3 2, .ctor 4,
    .append 4 3, .append 4 4, .assign 4 4, .dtor 1].map fun call => (call, fun _ => 7)

theorem run_refines_strings_mainCalls :
    ∃ s, run step .init mainCalls = some s ∧ ∃ b length, s.obj 4 = some ⟨some b, length⟩ ∧
      s.heap.text ⟨b, 0⟩ = some [104, 101, 108, 108, 111, 104, 101, 108, 108, 111] := by
  have hValue : (run (fun v a => valueStep v a.1) (fun _ => none) mainCalls).map (· 4) =
      some (some [104, 101, 108, 108, 111, 104, 101, 108, 108, 111]) := by decide
  obtain ⟨v, hSpec, hString⟩ := Option.map_eq_some_iff.mp hValue
  obtain ⟨s, hRun, -, hHolds, -⟩ := run_refines_strings hSpec
  obtain ⟨b, length, bytes, hObj, -, -, hText, -⟩ := hHolds 4 _ hString
  exact ⟨s, hRun, b, length, hObj, hText⟩

end SimpleString
end LinuxCppLearn
