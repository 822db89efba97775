import LinuxCppLearn.SimpleSharedPtr.Model
import LinuxCppLearn.Library.Counting

/-!
# The counters count the handles

The purpose of the class is a partition of the live handles by the objects they
manage; an operation puts one handle into another class of it.

* `Inv` — every object that was given has one counter, which is the number of
  its handles, and both are deleted, once, when there is none.
* `inv_forget`, `inv_adopt`, `inv_give` — a handle leaves its class, joins that of
  another one, and makes a new one.
* `counts_exact` — every run in which the counters stay within `int`.
* `handles_overflow` — they need not.
-/

namespace LinuxCppLearn
namespace SimpleSharedPtr

open Counting StepSystem

variable {s s₁ s' t : State} {x y this other : HandleId} {p : ObjId} {c : CountId}
  {h o : SharedPtr}

/-! ## The partition of the handles -/

/-- What a handle manages. -/
def State.managing (s : State) (x : HandleId) : Option ObjId :=
  (s.handle x).map SharedPtr.ptr

/-- The number of live handles that manage the object. -/
noncomputable def handles (s : State) (p : ObjId) : Nat :=
  tally (fun q : Option ObjId => q = some p) s.managing

/-- The handle that an operation is about. -/
def Op.handle : Op → HandleId
  | .ctor this _ | .ctorCopy this _ | .assign this _ | .dtor this => this

/-- What it manages afterwards. -/
def Op.manages (s : State) : Op → Option ObjId
  | .ctor _ ptr => some ptr
  | .ctorCopy _ other | .assign _ other => s.managing other
  | .dtor _ => none

/-- The partition behind an operation. -/
def Op.after (s : State) (a : Op) : HandleId → Option ObjId :=
  Function.update s.managing a.handle (a.manages s)

/-- No object gets more handles than an `int` can count. -/
def Few (s : State) (a : Op) : Prop :=
  ∀ p, tally (fun q : Option ObjId => q = some p) (a.after s) < 2 ^ 31

theorem managing_eq_some : s.managing x = some p ↔ ∃ h, s.handle x = some h ∧ h.ptr = p :=
  Option.map_eq_some_iff

/-- Members that change put their handle into another class. -/
theorem managing_update {m : Option SharedPtr}
    (hHandle : s'.handle = Function.update s.handle x m) :
    s'.managing = Function.update s.managing x (m.map SharedPtr.ptr) := by
  funext y
  unfold State.managing
  rw [hHandle]
  exact Function.apply_update (fun _ => Option.map SharedPtr.ptr) s.handle x m y

/-- The handle is no more, or not yet. -/
def State.forget (s : State) (x : HandleId) : State :=
  { s with handle := Function.update s.handle x none }

theorem forget_managing (s : State) (x : HandleId) :
    (s.forget x).managing = Function.update s.managing x none :=
  managing_update (m := none) rfl

/-- The handle manages what `h` says, and `*count` is `v`. -/
def State.adopt (s : State) (x : HandleId) (h : SharedPtr) (c : CountId) (v : Int) : State :=
  { s with
    handle := Function.update s.handle x (some h)
    counter := Function.update s.counter c (some v) }

theorem adopt_managing (s : State) (x : HandleId) (h : SharedPtr) (c : CountId) (v : Int) :
    (s.adopt x h c v).managing = Function.update s.managing x (some h.ptr) :=
  managing_update (m := some h) rfl

/-! ## The invariant -/

/-- An object that was given and its counter, with `n` handles. -/
structure Settled (s : State) (n : Nat) (p : ObjId) (c : CountId) : Prop where
  counter : s.counter c = if n = 0 then none else some (n : Int)
  object : s.deletedObjects.count p = if n = 0 then 1 else 0
  count : s.deletedCounts.count c = if n = 0 then 1 else 0

structure Inv (s : State) : Prop where
  finite : {x | (s.managing x).isSome = true}.Finite
  objects : (s.given.map Prod.fst).Nodup
  counters : (s.given.map Prod.snd).Nodup
  made : ∀ {p c}, (p, c) ∈ s.given → c < s.nextCount
  managed : ∀ {x h}, s.handle x = some h → ∃ c, h.count = some c ∧ (h.ptr, c) ∈ s.given
  settled : ∀ {p c}, (p, c) ∈ s.given → Settled s (handles s p) p c
  few : ∀ p, handles s p < 2 ^ 31
  raw : ∀ p, p ∉ s.given.map Prod.fst → p ∉ s.deletedObjects
  unmade : ∀ c, s.nextCount ≤ c → c ∉ s.deletedCounts

theorem inv_init : Inv .init := by
  have hNone : ∀ p, handles .init p = 0 := by
    intro p
    simp [handles, tally, State.managing, State.init]
  constructor
  case finite => simp [State.managing, State.init]
  case few =>
    intro p
    rw [hNone]
    decide
  all_goals simp [State.init]

/-- The object of a given counter, and the counter of a given object, are one. -/
theorem Inv.count_unique {c' : CountId} (hInv : Inv s) (hGiven : (p, c) ∈ s.given)
    (hGiven' : (p, c') ∈ s.given) : c = c' :=
  congrArg Prod.snd (List.inj_on_of_nodup_map hInv.objects hGiven hGiven' rfl)

theorem Inv.object_unique {p' : ObjId} (hInv : Inv s) (hGiven : (p, c) ∈ s.given)
    (hGiven' : (p', c) ∈ s.given) : p = p' :=
  congrArg Prod.fst (List.inj_on_of_nodup_map hInv.counters hGiven hGiven' rfl)

theorem finite_managing (hFin : {x | (s.managing x).isSome = true}.Finite) (p : ObjId) :
    {x | decide (s.managing x = some p) = true}.Finite := by
  refine hFin.subset fun x hMem => ?_
  have hEq : s.managing x = some p := by simpa using hMem
  simp [hEq]

theorem handles_pos_iff (hInv : Inv s) : 0 < handles s p ↔ ∃ x, s.managing x = some p := by
  unfold handles tally
  rw [Set.ncard_pos (finite_managing hInv.finite p)]
  simp [Set.Nonempty]

/-- What one handle that changes its class does to the number of handles. -/
theorem tally_managing (hInv : Inv s) (x : HandleId) (q : Option ObjId) (p : ObjId) :
    tally (fun q : Option ObjId => q = some p) (Function.update s.managing x q) +
        (if s.managing x = some p then 1 else 0) =
      handles s p + (if q = some p then 1 else 0) := by
  have hMoved := tally_update (p := fun q : Option ObjId => decide (q = some p))
    (finite_managing hInv.finite p) x q
  simpa [handles, Bool.toNat, Bool.cond_decide] using hMoved

theorem tally_leave (hInv : Inv s) (hHandle : s.handle x = some h) (p : ObjId) :
    tally (fun q : Option ObjId => q = some p) (Function.update s.managing x none) +
        (if h.ptr = p then 1 else 0) = handles s p := by
  have hWas : s.managing x = some h.ptr := managing_eq_some.mpr ⟨h, hHandle, rfl⟩
  simpa [hWas] using tally_managing hInv x none p

theorem tally_join (hInv : Inv s) (hNew : s.handle x = none) (q p : ObjId) :
    tally (fun q : Option ObjId => q = some p) (Function.update s.managing x (some q)) =
      handles s p + (if q = p then 1 else 0) := by
  have hWas : s.managing x = none := by simp [State.managing, hNew]
  simpa [hWas] using tally_managing hInv x (some q) p

theorem finite_update (hInv : Inv s) (x : HandleId) (q : Option ObjId) :
    {y | (Function.update s.managing x q y).isSome = true}.Finite :=
  Counting.finite_update (p := Option.isSome) hInv.finite x q

/-! ## Statements -/

/-- A statement that is defined, and what comes behind it. -/
theorem run_bind {α β : Type} {x : Code α} {f : α → Code β} {a : α} {r : Option (β × State)}
    (hFirst : x.run s = some (a, s')) (hRest : (f a).run s' = r) : (x >>= f).run s = r := by
  rw [StateT.run_bind, hFirst]
  exact hRest

theorem run_members (hHandle : s.handle x = some h) : (members x).run s = some (h, s) := by
  simp [members, StateT.run, hHandle]

theorem run_load {v : Int} (hCounter : s.counter c = some v) :
    (load (some c)).run s = some (v, s) := by
  simp [load, StateT.run, hCounter]

theorem run_store {v : Int} (hCounter : s.counter c ≠ none) (hLow : -2 ^ 31 ≤ v)
    (hHigh : v < 2 ^ 31) :
    (store (some c) v).run s =
      some ((), { s with counter := Function.update s.counter c (some v) }) :=
  if_pos ⟨hCounter, hLow, hHigh⟩

/-- An `int` out of range. -/
theorem run_store_overflow {v : Int} (hHigh : 2 ^ 31 ≤ v) : (store (some c) v).run s = none :=
  if_neg fun hRange => absurd hRange.2.2 (not_lt.mpr hHigh)

theorem run_deleteObject (hLive : p ∉ s.deletedObjects) :
    (deleteObject p).run s =
      some ((), { s with deletedObjects := s.deletedObjects ++ [p] }) :=
  if_neg hLive

theorem run_deleteCount (hLive : s.counter c ≠ none) :
    (deleteCount (some c)).run s =
      some ((), { s with
        counter := Function.update s.counter c none
        deletedCounts := s.deletedCounts ++ [c] }) :=
  if_neg hLive

/-- The handle has other members. -/
def State.withHandle (s : State) (x : HandleId) (h : SharedPtr) : State :=
  { s with handle := Function.update s.handle x (some h) }

theorem run_setMembers (s : State) (x : HandleId) (h : SharedPtr) :
    (setMembers x h).run s = some ((), s.withHandle x h) := rfl

@[simp] theorem withHandle_self : (s.withHandle x h).handle x = some h :=
  Function.update_self ..

@[simp] theorem withHandle_other (hNe : y ≠ x) : (s.withHandle x h).handle y = s.handle y :=
  Function.update_of_ne hNe _ _

@[simp] theorem withHandle_again : (s.withHandle x h).withHandle x o = s.withHandle x o := by
  simp [State.withHandle]

/-! ## A handle leaves its class -/

/-- What `release` makes of a counter of `n`. -/
def State.released (s : State) (p : ObjId) (c : CountId) (n : Nat) : State :=
  if n = 1 then
    { s with
      counter := Function.update s.counter c none
      deletedObjects := s.deletedObjects ++ [p]
      deletedCounts := s.deletedCounts ++ [c] }
  else { s with counter := Function.update s.counter c (some (n - 1 : Int)) }

theorem released_handle (s : State) (p : ObjId) (c : CountId) (n : Nat) :
    (s.released p c n).handle = s.handle ∧ (s.released p c n).given = s.given ∧
      (s.released p c n).nextCount = s.nextCount := by
  unfold State.released
  split
  · exact ⟨rfl, rfl, rfl⟩
  · exact ⟨rfl, rfl, rfl⟩

theorem released_managing (s : State) (p : ObjId) (c : CountId) (n : Nat) :
    (s.released p c n).managing = s.managing := by
  funext y
  unfold State.managing
  rw [(released_handle s p c n).1]

/-- The entry of the handle counts one less, and is deleted at the last one. -/
theorem released_settled {n : Nat} (hSettled : Settled s n p c) (hPos : 0 < n) :
    Settled (s.released p c n) (n - 1) p c := by
  have hNe : n ≠ 0 := by omega
  obtain ⟨hCounter, hObject, hCount⟩ := hSettled
  rw [if_neg hNe] at hCounter hObject hCount
  unfold State.released
  by_cases hLast : n = 1
  · subst hLast
    rw [if_pos rfl]
    constructor
    · simp
    · simp [List.count_append, hObject]
    · simp [List.count_append, hCount]
  · have hMore : n - 1 ≠ 0 := by omega
    rw [if_neg hLast]
    constructor
    · rw [if_neg hMore]
      refine (Function.update_self c (some (n - 1 : Int)) s.counter).trans ?_
      congr 1
      omega
    · rw [if_neg hMore, hObject]
    · rw [if_neg hMore, hCount]

/-- The other entries stay. -/
theorem released_settled_other {n m : Nat} {p' : ObjId} {c' : CountId}
    (hSettled : Settled s m p' c') (hObject : p' ≠ p) (hCount : c' ≠ c) :
    Settled (s.released p c n) m p' c' := by
  obtain ⟨hCounter, hDeleted, hDeleted'⟩ := hSettled
  unfold State.released
  split
  · constructor
    · rw [← hCounter]
      exact Function.update_of_ne hCount _ _
    · have hNone : [p].count p' = 0 := List.count_eq_zero_of_not_mem (by simpa using hObject)
      rw [← hDeleted, List.count_append, hNone, Nat.add_zero]
    · have hNone : [c].count c' = 0 := List.count_eq_zero_of_not_mem (by simpa using hCount)
      rw [← hDeleted', List.count_append, hNone, Nat.add_zero]
  · constructor
    · rw [← hCounter]
      exact Function.update_of_ne hCount _ _
    · exact hDeleted
    · exact hDeleted'

theorem released_deletedObjects {n : Nat} {q : ObjId}
    (hMem : q ∈ (s.released p c n).deletedObjects) : q ∈ s.deletedObjects ∨ q = p := by
  unfold State.released at hMem
  split at hMem
  · exact (List.mem_append.mp hMem).imp id List.mem_singleton.mp
  · exact .inl hMem

theorem released_deletedCounts {n : Nat} {d : CountId}
    (hMem : d ∈ (s.released p c n).deletedCounts) : d ∈ s.deletedCounts ∨ d = c := by
  unfold State.released at hMem
  split at hMem
  · exact (List.mem_append.mp hMem).imp id List.mem_singleton.mp
  · exact .inl hMem

/-- Every entry, with the handles that it has when one has left `p`. -/
theorem released_entries (hInv : Inv s) (hGiven : (p, c) ∈ s.given) (hPos : 0 < handles s p)
    {q : ObjId} {d : CountId} (hMem : (q, d) ∈ s.given) :
    Settled (s.released p c (handles s p)) (handles s q - if p = q then 1 else 0) q d := by
  by_cases hEq : p = q
  · subst hEq
    obtain rfl := hInv.count_unique hMem hGiven
    rw [if_pos rfl]
    exact released_settled (hInv.settled hMem) hPos
  · have hNe : d ≠ c := by
      rintro rfl
      exact hEq (hInv.object_unique hGiven hMem)
    rw [if_neg hEq, Nat.sub_zero]
    exact released_settled_other (hInv.settled hMem) (Ne.symm hEq) hNe

/-- The counter of a live handle. -/
theorem Inv.counted (hInv : Inv s) (hHandle : s.handle x = some h) :
    ∃ c, h.count = some c ∧ (h.ptr, c) ∈ s.given ∧ 0 < handles s h.ptr ∧
      Settled s (handles s h.ptr) h.ptr c := by
  obtain ⟨c, hCount, hGiven⟩ := hInv.managed hHandle
  refine ⟨c, hCount, hGiven, ?_, hInv.settled hGiven⟩
  exact (handles_pos_iff hInv).mpr ⟨x, managing_eq_some.mpr ⟨h, hHandle, rfl⟩⟩

/-- **`release`** counts one less, and deletes at the last one. -/
theorem release_run (hInv : Inv s) (hHandle : s.handle x = some h) (hCount : h.count = some c)
    (hPos : 0 < handles s h.ptr) (hSettled : Settled s (handles s h.ptr) h.ptr c) :
    (release x).run s = some ((), s.released h.ptr c (handles s h.ptr)) := by
  set n := handles s h.ptr with hN
  have hNe : n ≠ 0 := by omega
  have hFew : n < 2 ^ 31 := hInv.few h.ptr
  have hCounter : s.counter c = some (n : Int) := by
    rw [hSettled.counter, if_neg hNe]
  have hLive : h.ptr ∉ s.deletedObjects := by
    rw [← List.count_eq_zero, hSettled.object, if_neg hNe]
  let s₁ : State := { s with counter := Function.update s.counter c (some (n - 1 : Int)) }
  have hStored : s₁.counter c = some (n - 1 : Int) := Function.update_self ..
  have hStart : (release x).run s =
      (do
        if (← load h.count) = 0 then
          deleteObject h.ptr
          deleteCount h.count : Code Unit).run s₁ := by
    refine run_bind (run_members hHandle) ?_
    rw [hCount]
    refine run_bind (run_load hCounter) ?_
    exact run_bind (run_store (by simp [hCounter]) (by omega) (by omega)) rfl
  rw [hStart, hCount]
  refine run_bind (run_load hStored) ?_
  unfold State.released
  by_cases hLast : n = 1
  · rw [if_pos hLast, if_pos (by omega)]
    refine run_bind (run_deleteObject hLive) ?_
    rw [run_deleteCount (by simp [hStored])]
    simp [s₁]
  · rw [if_neg hLast, if_neg (by omega)]
    rfl

/-- **A handle leaves its class.** -/
theorem inv_forget (hInv : Inv s) (hHandle : s.handle x = some h)
    (hGiven : (h.ptr, c) ∈ s.given) (hPos : 0 < handles s h.ptr) :
    Inv ((s.released h.ptr c (handles s h.ptr)).forget x) := by
  obtain ⟨hSame, hSameGiven, hSameNext⟩ := released_handle s h.ptr c (handles s h.ptr)
  have hEntries := @released_entries s h.ptr c hInv hGiven hPos
  have hObjects := @released_deletedObjects s h.ptr c (handles s h.ptr)
  have hCounts := @released_deletedCounts s h.ptr c (handles s h.ptr)
  have hManaging : ((s.released h.ptr c (handles s h.ptr)).forget x).managing =
      Function.update s.managing x none := by
    rw [forget_managing, released_managing]
  set s₁ := s.released h.ptr c (handles s h.ptr)
  have hHandles : ∀ p, handles (s₁.forget x) p + (if h.ptr = p then 1 else 0) = handles s p := by
    intro p
    rw [handles, hManaging]
    exact tally_leave hInv hHandle p
  constructor
  case finite =>
    rw [hManaging]
    exact finite_update hInv x none
  case objects => exact hSameGiven ▸ hInv.objects
  case counters => exact hSameGiven ▸ hInv.counters
  case made =>
    intro p c hMem
    have hMem' : (p, c) ∈ s.given := hSameGiven ▸ hMem
    exact hSameNext ▸ hInv.made hMem'
  case managed =>
    intro y o hHandle'
    have hNe : y ≠ x := by
      rintro rfl
      simp [State.forget] at hHandle'
    have hOld : s.handle y = some o := by
      simpa [State.forget, hNe, hSame] using hHandle'
    obtain ⟨d, hCount, hMem⟩ := hInv.managed hOld
    exact ⟨d, hCount, hSameGiven ▸ hMem⟩
  case settled =>
    intro p d hMem
    have hMem' : (p, d) ∈ s.given := hSameGiven ▸ hMem
    rw [Nat.eq_sub_of_add_eq (hHandles p)]
    obtain ⟨hCounter, hObject, hCount⟩ := hEntries hMem'
    exact ⟨hCounter, hObject, hCount⟩
  case few =>
    intro p
    have hLess := hHandles p
    have hFew := hInv.few p
    omega
  case raw =>
    intro p hNot hMem
    have hNot' : p ∉ s.given.map Prod.fst := hSameGiven ▸ hNot
    rcases hObjects hMem with hOld | rfl
    · exact hInv.raw p hNot' hOld
    · exact hNot' (List.mem_map_of_mem hGiven)
  case unmade =>
    intro d hLe hMem
    have hLe' : s.nextCount ≤ d := hSameNext ▸ hLe
    rcases hCounts hMem with hOld | rfl
    · exact hInv.unmade d hLe' hOld
    · exact absurd (hInv.made hGiven) (Nat.not_lt.mpr hLe')

/-! ## A handle joins a class, or makes one -/

/-- Every entry, with the handles that it has when one has joined `o`. -/
theorem adopt_entries (hInv : Inv t) (hGiven : (o.ptr, c) ∈ t.given) (hPos : 0 < handles t o.ptr)
    {d : CountId} (hMem : (p, d) ∈ t.given) :
    Settled (t.adopt x o c ((handles t o.ptr : Int) + 1))
      (handles t p + if o.ptr = p then 1 else 0) p d := by
  obtain ⟨hCounter, hObject, hDeleted⟩ := hInv.settled hMem
  by_cases hEq : o.ptr = p
  · subst hEq
    obtain rfl := hInv.count_unique hMem hGiven
    have hNe : handles t o.ptr ≠ 0 := by omega
    rw [if_neg hNe] at hObject hDeleted
    rw [if_pos rfl]
    refine ⟨?_, ?_, ?_⟩
    · rw [if_neg (by omega)]
      exact Function.update_self ..
    · rw [if_neg (by omega)]
      exact hObject
    · rw [if_neg (by omega)]
      exact hDeleted
  · have hNe : d ≠ c := by
      rintro rfl
      exact hEq (hInv.object_unique hGiven hMem)
    rw [if_neg hEq, Nat.add_zero]
    exact ⟨(Function.update_of_ne hNe _ _).trans hCounter, hObject, hDeleted⟩

/-- **A handle joins the class of another one**, whose counter counts one more. -/
theorem inv_adopt (hInv : Inv t) (hNew : t.handle x = none) (hCount : o.count = some c)
    (hGiven : (o.ptr, c) ∈ t.given) (hPos : 0 < handles t o.ptr)
    (hFew : handles t o.ptr + 1 < 2 ^ 31) :
    Inv (t.adopt x o c ((handles t o.ptr : Int) + 1)) := by
  set t' := t.adopt x o c ((handles t o.ptr : Int) + 1) with hT'
  have hHandles : ∀ p, handles t' p = handles t p + (if o.ptr = p then 1 else 0) := by
    intro p
    rw [handles, hT', adopt_managing]
    exact tally_join hInv hNew o.ptr p
  constructor
  case finite =>
    rw [hT', adopt_managing]
    exact finite_update hInv x (some o.ptr)
  case objects => exact hInv.objects
  case counters => exact hInv.counters
  case made => exact hInv.made
  case managed =>
    intro y h hHandle
    by_cases hEq : y = x
    · subst hEq
      have hSame : h = o := by simpa [hT', State.adopt] using hHandle.symm
      subst hSame
      exact ⟨c, hCount, hGiven⟩
    · exact hInv.managed (by simpa [hT', State.adopt, hEq] using hHandle)
  case settled =>
    intro p d hMem
    rw [hHandles p]
    exact adopt_entries hInv hGiven hPos hMem
  case few =>
    intro p
    rw [hHandles p]
    have hOld := hInv.few p
    split
    · rename_i hEq
      subst hEq
      exact hFew
    · exact hOld
  case raw => exact hInv.raw
  case unmade => exact hInv.unmade

/-- The state behind the pointer constructor. -/
def State.give (s : State) (x : HandleId) (p : ObjId) : State :=
  { s with
    handle := Function.update s.handle x (some ⟨p, some s.nextCount⟩)
    counter := Function.update s.counter s.nextCount (some 1)
    nextCount := s.nextCount + 1
    given := s.given ++ [(p, s.nextCount)] }

theorem give_managing (s : State) (x : HandleId) (p : ObjId) :
    (s.give x p).managing = Function.update s.managing x (some p) :=
  managing_update (m := some ⟨p, some s.nextCount⟩) rfl

/-- **A handle makes a class of its own.** -/
theorem inv_give (hInv : Inv s) (hNew : s.handle x = none) (hRaw : p ∉ s.given.map Prod.fst) :
    Inv (s.give x p) := by
  set s' := s.give x p with hS'
  have hHandles : ∀ q, handles s' q = handles s q + (if p = q then 1 else 0) := by
    intro q
    rw [handles, hS', give_managing]
    exact tally_join hInv hNew p q
  have hNone : handles s p = 0 := by
    by_contra hPos
    obtain ⟨y, hManaging⟩ := (handles_pos_iff hInv).mp (Nat.pos_of_ne_zero hPos)
    obtain ⟨h, hHandle, rfl⟩ := managing_eq_some.mp hManaging
    obtain ⟨c, -, hGiven⟩ := hInv.managed hHandle
    exact hRaw (List.mem_map_of_mem hGiven)
  have hCases : ∀ {q d}, (q, d) ∈ s'.given →
      (q, d) ∈ s.given ∨ q = p ∧ d = s.nextCount := by
    intro q d hMem
    have hMem' : (q, d) ∈ s.given ++ [(p, s.nextCount)] := hMem
    simpa using hMem'
  have hFresh : ∀ {q d}, (q, d) ∈ s.given → d ≠ s.nextCount := fun hMem => (hInv.made hMem).ne
  constructor
  case finite =>
    rw [hS', give_managing]
    exact finite_update hInv x (some p)
  case objects =>
    show ((s.given ++ [(p, s.nextCount)]).map Prod.fst).Nodup
    rw [List.map_append, List.nodup_append]
    refine ⟨hInv.objects, List.nodup_singleton _, ?_⟩
    intro q hMem q' hMem' hEq
    obtain rfl : q' = p := by simpa using hMem'
    exact hRaw (hEq ▸ hMem)
  case counters =>
    show ((s.given ++ [(p, s.nextCount)]).map Prod.snd).Nodup
    rw [List.map_append, List.nodup_append]
    refine ⟨hInv.counters, List.nodup_singleton _, ?_⟩
    intro d hMem d' hMem' hEq
    obtain rfl : d' = s.nextCount := by simpa using hMem'
    obtain ⟨⟨q, d⟩, hGiven, rfl⟩ := List.mem_map.mp hMem
    exact hFresh hGiven hEq
  case made =>
    intro q d hMem
    show d < s.nextCount + 1
    rcases hCases hMem with hOld | ⟨-, rfl⟩
    · exact Nat.lt_succ_of_lt (hInv.made hOld)
    · exact Nat.lt_succ_self _
  case managed =>
    intro y h hHandle
    by_cases hEq : y = x
    · subst hEq
      have hSame : h = ⟨p, some s.nextCount⟩ := by simpa [hS', State.give] using hHandle.symm
      subst hSame
      exact ⟨s.nextCount, rfl, List.mem_append_right _ (List.mem_singleton.mpr rfl)⟩
    · have hOld : s.handle y = some h := by simpa [hS', State.give, hEq] using hHandle
      obtain ⟨c, hCount, hGiven⟩ := hInv.managed hOld
      exact ⟨c, hCount, List.mem_append_left _ hGiven⟩
  case settled =>
    intro q d hMem
    rw [hHandles q]
    rcases hCases hMem with hOld | ⟨rfl, rfl⟩
    · obtain ⟨hCounter, hObject, hDeleted⟩ := hInv.settled hOld
      have hNe : p ≠ q := by
        rintro rfl
        exact hRaw (List.mem_map_of_mem hOld)
      rw [if_neg hNe, Nat.add_zero]
      exact ⟨(Function.update_of_ne (hFresh hOld) _ _).trans hCounter, hObject, hDeleted⟩
    · rw [if_pos rfl, hNone]
      refine ⟨Function.update_self .., ?_, ?_⟩
      · exact List.count_eq_zero_of_not_mem (hInv.raw q hRaw)
      · exact List.count_eq_zero_of_not_mem (hInv.unmade _ (Nat.le_refl _))
  case few =>
    intro q
    rw [hHandles q]
    have hOld := hInv.few q
    split
    · rename_i hEq
      subst hEq
      rw [hNone]
      decide
    · exact hOld
  case raw =>
    intro q hNot
    refine hInv.raw q fun hMem => hNot ?_
    show q ∈ (s.given ++ [(p, s.nextCount)]).map Prod.fst
    rw [List.map_append]
    exact List.mem_append_left _ hMem
  case unmade =>
    intro d hLe
    have hLe' : s.nextCount + 1 ≤ d := hLe
    exact hInv.unmade d (Nat.le_of_succ_le hLe')

/-! ## The operations -/

theorem step_of_run {a : Op} (hRun : (exec a).run s = some ((), s')) : step s a = some s' := by
  rw [step, hRun]
  rfl

/-- What an operation does: it is defined, the handles are partitioned as it says,
and the counters that are there stay. -/
def Does (s : State) (a : Op) : Prop :=
  ∃ s', step s a = some s' ∧ Inv s' ∧ s'.managing = a.after s ∧ s.given ⊆ s'.given

theorem ctor_does (hInv : Inv s) (hUsage : Usage s (.ctor this p)) : Does s (.ctor this p) := by
  obtain ⟨hNew, hRaw⟩ := hUsage
  exact ⟨s.give this p, rfl, inv_give hInv hNew hRaw, give_managing s this p,
    List.subset_append_left _ _⟩

/-- `(*count)++` behind the members of another handle. -/
theorem run_adopt {v : Int} (hCounter : s.counter c = some v) (hLow : 0 ≤ v)
    (hFew : v + 1 < 2 ^ 31) :
    (store (some c) (v + 1)).run (s.withHandle x o) = some ((), s.adopt x o c (v + 1)) := by
  have hThere : (s.withHandle x o).counter c ≠ none := by simp [State.withHandle, hCounter]
  exact run_store hThere (by omega) hFew

/-- A copy has the members of the other handle, and counts one more. -/
theorem ctorCopy_run {v : Int} (hOther : s.handle other = some o) (hCount : o.count = some c)
    (hCounter : s.counter c = some v) :
    (ctorCopy this other).run s = (store (some c) (v + 1)).run (s.withHandle this o) := by
  refine run_bind (run_members hOther) ?_
  refine run_bind (run_setMembers s this o) ?_
  rw [if_pos (by simp [hCount]), hCount]
  exact run_bind (run_load (s := s.withHandle this o) hCounter) rfl

theorem ctorCopy_does (hInv : Inv s) (hUsage : Usage s (.ctorCopy this other))
    (hFew : Few s (.ctorCopy this other)) : Does s (.ctorCopy this other) := by
  obtain ⟨hNew, hThere⟩ := hUsage
  obtain ⟨o, hOther⟩ := Option.ne_none_iff_exists'.mp hThere
  obtain ⟨c, hCount, hGiven, hPos, hSettled⟩ := hInv.counted hOther
  have hManages : s.managing other = some o.ptr := managing_eq_some.mpr ⟨o, hOther, rfl⟩
  have hMore : handles s o.ptr + 1 < 2 ^ 31 := by
    have hBound := hFew o.ptr
    simp only [Op.after, Op.handle, Op.manages, hManages] at hBound
    rwa [tally_join hInv hNew, if_pos rfl] at hBound
  have hCounter : s.counter c = some (handles s o.ptr : Int) := by
    rw [hSettled.counter, if_neg (by omega)]
  refine ⟨_, step_of_run ?_, inv_adopt hInv hNew hCount hGiven hPos hMore, ?_,
    List.Subset.refl _⟩
  · exact (ctorCopy_run hOther hCount hCounter).trans (run_adopt hCounter (by omega) (by omega))
  · rw [adopt_managing, Op.after, Op.manages, hManages]
    rfl

theorem dtor_does (hInv : Inv s) (hUsage : Usage s (.dtor this)) : Does s (.dtor this) := by
  obtain ⟨h, hHandle⟩ := Option.ne_none_iff_exists'.mp hUsage
  obtain ⟨c, hCount, hGiven, hPos, hSettled⟩ := hInv.counted hHandle
  obtain ⟨-, hSameGiven, -⟩ := released_handle s h.ptr c (handles s h.ptr)
  refine ⟨_, step_of_run ?_, inv_forget hInv hHandle hGiven hPos, ?_,
    fun _ hMem => hSameGiven.symm ▸ hMem⟩
  · exact run_bind (release_run hInv hHandle hCount hPos hSettled) rfl
  · rw [forget_managing, released_managing]
    rfl

/-- An assignment has the members of the other handle behind `release`, and counts one
more. -/
theorem assign_run {v : Int} (hNe : this ≠ other) (hRelease : (release this).run s = some ((), s₁))
    (hThis : s₁.handle this = some h) (hOther : s₁.handle other = some o)
    (hCount : o.count = some c) (hCounter : s₁.counter c = some v) :
    (assign this other).run s = (store (some c) (v + 1)).run (s₁.withHandle this o) := by
  obtain ⟨p, count⟩ := o
  obtain rfl : count = some c := hCount
  unfold assign
  rw [if_pos hNe]
  refine run_bind hRelease ?_
  refine run_bind (run_members hThis) ?_
  refine run_bind (run_members hOther) ?_
  refine run_bind (run_setMembers s₁ this _) ?_
  refine run_bind (run_members withHandle_self) ?_
  refine run_bind (run_members ((withHandle_other hNe.symm).trans hOther)) ?_
  refine run_bind (run_setMembers _ this _) ?_
  rw [withHandle_again]
  refine run_bind (run_members withHandle_self) ?_
  exact run_bind (run_load (s := s₁.withHandle this ⟨p, some c⟩) hCounter) rfl

/-- Between two handles of one object the counter goes down and up again; it does
not reach zero, since the other handle counts too. -/
theorem assign_does (hInv : Inv s) (hUsage : Usage s (.assign this other))
    (hFew : Few s (.assign this other)) : Does s (.assign this other) := by
  by_cases hSelf : this = other
  · subst hSelf
    refine ⟨s, step_of_run ?_, hInv, ?_, List.Subset.refl _⟩
    · show (assign this this).run s = _
      unfold assign
      rw [if_neg (not_not.mpr rfl)]
      rfl
    · exact (Function.update_eq_self this s.managing).symm
  · obtain ⟨hThis, hThere⟩ := hUsage
    obtain ⟨h, hHandle⟩ := Option.ne_none_iff_exists'.mp hThis
    obtain ⟨o, hOther⟩ := Option.ne_none_iff_exists'.mp hThere
    obtain ⟨c, hCount, hGiven, hPos, hSettled⟩ := hInv.counted hHandle
    have hInvT := inv_forget hInv hHandle hGiven hPos
    obtain ⟨hSame, hSameGiven, -⟩ := released_handle s h.ptr c (handles s h.ptr)
    have hManagingT := (forget_managing (s.released h.ptr c (handles s h.ptr)) this).trans
      (congrArg (Function.update · this none) (released_managing s h.ptr c (handles s h.ptr)))
    set s₁ := s.released h.ptr c (handles s h.ptr) with hS₁
    have hOther₁ : s₁.handle other = some o := hSame ▸ hOther
    have hThis₁ : s₁.handle this = some h := hSame ▸ hHandle
    have hOtherT : (s₁.forget this).handle other = some o := by
      rw [← hOther₁]
      exact Function.update_of_ne (Ne.symm hSelf) _ _
    have hNewT : (s₁.forget this).handle this = none := Function.update_self ..
    -- the other handle is live without this one
    obtain ⟨d, hCountO, hGivenO, hPosO, hSettledO⟩ := hInvT.counted hOtherT
    have hManages : s.managing other = some o.ptr := managing_eq_some.mpr ⟨o, hOther, rfl⟩
    have hAfter : Op.after s (.assign this other) =
        Function.update (s₁.forget this).managing this (some o.ptr) := by
      rw [hManagingT, Function.update_idem, Op.after, Op.manages, hManages]
      rfl
    have hMore : handles (s₁.forget this) o.ptr + 1 < 2 ^ 31 := by
      have hBound := hFew o.ptr
      rwa [hAfter, tally_join hInvT hNewT, if_pos rfl] at hBound
    have hCounterO : s₁.counter d = some (handles (s₁.forget this) o.ptr : Int) := by
      have hCounter := hSettledO.counter
      rw [if_neg (by omega)] at hCounter
      exact hCounter
    have hEnd : s₁.adopt this o d ((handles (s₁.forget this) o.ptr : Int) + 1) =
        (s₁.forget this).adopt this o d ((handles (s₁.forget this) o.ptr : Int) + 1) := by
      simp [State.adopt, State.forget]
    refine ⟨_, step_of_run ?_, inv_adopt hInvT hNewT hCountO hGivenO hPosO hMore, ?_,
      fun _ hMem => hSameGiven.symm ▸ hMem⟩
    · have hRelease := release_run hInv hHandle hCount hPos hSettled
      refine (assign_run hSelf hRelease hThis₁ hOther₁ hCountO hCounterO).trans ?_
      rw [← hEnd]
      exact run_adopt hCounterO (by omega) (by omega)
    · rw [adopt_managing, hAfter]

theorem step_does {a : Op} (hInv : Inv s) (hUsage : Usage s a) (hFew : Few s a) : Does s a := by
  cases a with
  | ctor this ptr => exact ctor_does hInv hUsage
  | ctorCopy this other => exact ctorCopy_does hInv hUsage hFew
  | assign this other => exact assign_does hInv hUsage hFew
  | dtor this => exact dtor_does hInv hUsage

/-! ## Every run -/

theorem inv_reach (hReach : Reach step (fun s a => Usage s a ∧ Few s a) .init s) : Inv s := by
  refine hReach.invariant inv_init fun s a s' hInv hMet hStep => ?_
  obtain ⟨s'', hStep', hInv', -⟩ := step_does hInv hMet.1 hMet.2
  obtain rfl : s'' = s' := Option.some.inj (hStep'.symm.trans hStep)
  exact hInv'

/-! ## With few handles -/

theorem tally_lt_of_small {n : Nat} {m : HandleId → Option ObjId}
    (hSmall : ∀ x, m x ≠ none → x < n) (p : ObjId) :
    tally (fun q : Option ObjId => q = some p) m ≤ n := by
  have hSubset : {x | decide (m x = some p) = true} ⊆ (Finset.range n : Set HandleId) := by
    intro x hMem
    have hEq : m x = some p := by simpa using hMem
    simpa using hSmall x (by simp [hEq])
  calc tally (fun q : Option ObjId => q = some p) m
      ≤ (Finset.range n : Set HandleId).ncard :=
        Set.ncard_le_ncard hSubset (Finset.finite_toSet _)
    _ = n := by rw [Set.ncard_coe_finset, Finset.card_range]

/-- A program that has less than 2^31 handles never has too many. -/
theorem reach_of_small {n : Nat} (hFewNames : n < 2 ^ 31)
    (hReach : Reach step (fun s a => Usage s a ∧ a.handle < n) .init s) :
    Reach step (fun s a => Usage s a ∧ Few s a) .init s ∧
      ∀ x, s.managing x ≠ none → x < n := by
  induction hReach with
  | start => exact ⟨Reach.start, fun x hManages => absurd rfl hManages⟩
  | @next s s' a _ hMet hStep ih =>
      obtain ⟨hReach, hSmall⟩ := ih
      have hSmall' : ∀ x, a.after s x ≠ none → x < n := by
        intro x hManages
        by_cases hEq : x = a.handle
        · exact hEq ▸ hMet.2
        · rw [Op.after, Function.update_of_ne hEq] at hManages
          exact hSmall x hManages
      have hFew : Few s a := fun p => Nat.lt_of_le_of_lt (tally_lt_of_small hSmall' p) hFewNames
      obtain ⟨s'', hStep', -, hManaging, -⟩ := step_does (inv_reach hReach) hMet.1 hFew
      obtain rfl : s'' = s' := Option.some.inj (hStep'.symm.trans hStep)
      exact ⟨Reach.next a hReach ⟨hMet.1, hFew⟩ hStep, hManaging ▸ hSmall'⟩

/-- The handles of `main`, and a second object that loses its handle to the first. -/
def mainOps : List Op :=
  [.ctor 1 10, .ctorCopy 2 1, .ctorCopy 3 2, .ctor 4 20, .assign 4 3, .assign 1 1, .dtor 3,
    .dtor 2]

/-! ## Exact counts -/

/-- What the counters of a state are to say. -/
structure Exact (s : State) : Prop where
  counted : ∀ x h, s.handle x = some h →
    ∃ c, h.count = some c ∧ s.counter c = some (handles s h.ptr : Int)
  shared : ∀ x y h o, s.handle x = some h → s.handle y = some o →
    (h.ptr = o.ptr ↔ h.count = o.count)
  alive : ∀ x h, s.handle x = some h →
    h.ptr ∉ s.deletedObjects ∧ ∀ c, h.count = some c → c ∉ s.deletedCounts
  deleted : ∀ p c, (p, c) ∈ s.given →
    s.deletedObjects.count p = (if handles s p = 0 then 1 else 0) ∧
      s.deletedCounts.count c = (if handles s p = 0 then 1 else 0)
  only : ∀ p ∈ s.deletedObjects, p ∈ s.given.map Prod.fst

theorem Inv.exact (hInv : Inv s) : Exact s where
  counted x h hHandle := by
    obtain ⟨c, hCount, -, hPos, hSettled⟩ := hInv.counted hHandle
    refine ⟨c, hCount, ?_⟩
    rw [hSettled.counter, if_neg (by omega)]
  shared x y h o hHandle hHandle' := by
    obtain ⟨c, hCount, hGiven, -⟩ := hInv.counted hHandle
    obtain ⟨d, hCount', hGiven', -⟩ := hInv.counted hHandle'
    rw [hCount, hCount', Option.some.injEq]
    constructor
    · intro hPtr
      rw [← hPtr] at hGiven'
      exact hInv.count_unique hGiven hGiven'
    · rintro rfl
      exact hInv.object_unique hGiven hGiven'
  alive x h hHandle := by
    obtain ⟨c, hCount, -, hPos, hSettled⟩ := hInv.counted hHandle
    have hNe : handles s h.ptr ≠ 0 := by omega
    refine ⟨?_, fun d hCount' => ?_⟩
    · rw [← List.count_eq_zero, hSettled.object, if_neg hNe]
    · obtain rfl : c = d := Option.some.inj (hCount.symm.trans hCount')
      rw [← List.count_eq_zero, hSettled.count, if_neg hNe]
  deleted p c hGiven := ⟨(hInv.settled hGiven).object, (hInv.settled hGiven).count⟩
  only p hMem := by
    by_contra hNot
    exact hInv.raw p hNot hMem

/-- An entry is deleted by the step at which it loses its last handle. -/
theorem deleted_at_last {n n' k k' : Nat} (hBefore : k = if n = 0 then 1 else 0)
    (hBehind : k' = if n' = 0 then 1 else 0) :
    k = 0 ∧ 0 < k' ↔ 0 < n ∧ n' = 0 := by
  split at hBefore <;> split at hBehind <;> omega

/-- **Reference counts are exact** in every run in which no object gets more handles
than an `int` can count; there every operation is defined, regroups the handles as
it says, and deletes an object and its counter at the last handle. -/
theorem counts_exact (hReach : Reach step (fun s a => Usage s a ∧ Few s a) .init s) :
    Exact s ∧
      ∀ a, Usage s a → Few s a →
        ∃ s', step s a = some s' ∧ Exact s' ∧ s'.managing = a.after s ∧
          ∀ p c, (p, c) ∈ s.given →
            (p ∉ s.deletedObjects ∧ p ∈ s'.deletedObjects ↔
              0 < handles s p ∧ handles s' p = 0) ∧
            (c ∉ s.deletedCounts ∧ c ∈ s'.deletedCounts ↔
              0 < handles s p ∧ handles s' p = 0) := by
  have hInv := inv_reach hReach
  refine ⟨hInv.exact, fun a hUsage hFew => ?_⟩
  obtain ⟨s', hStep, hInv', hManaging, hGiven⟩ := step_does hInv hUsage hFew
  refine ⟨s', hStep, hInv'.exact, hManaging, fun p c hMem => ?_⟩
  have hBefore := hInv.settled hMem
  have hBehind := hInv'.settled (hGiven hMem)
  rw [← List.count_eq_zero, ← List.count_eq_zero, ← List.count_pos_iff, ← List.count_pos_iff]
  exact ⟨deleted_at_last hBefore.object hBehind.object,
    deleted_at_last hBefore.count hBehind.count⟩

theorem counts_exact_mainOps :
    ∃ s, s.deletedObjects = [20] ∧ s.handle 4 = some ⟨10, some 0⟩ ∧ s.counter 0 = some 2 ∧
      Exact s := by
  let final := run (guarded step fun s a => Usage s a ∧ a.handle < 5) .init mainOps
  have hFinal : final = some (final.get (by decide)) := by simp
  have hReach := (reach_of_small (by decide) (reach_of_run_guarded hFinal)).1
  exact ⟨_, by decide, by decide, by decide, (counts_exact hReach).1⟩

/-! ## With too many handles -/

/-- The handles `0, …, k` of one object. -/
def crowd (k : Nat) : State where
  handle x := if x ≤ k then some ⟨10, some 0⟩ else none
  counter c := if c = 0 then some (k + 1 : Int) else none
  nextCount := 1
  deletedObjects := []
  deletedCounts := []
  given := [(10, 0)]

theorem crowd_start : step .init (.ctor 0 10) = some (crowd 0) := by
  have hStep : step .init (.ctor 0 10) = some (State.init.give 0 10) := rfl
  rw [hStep]
  simp only [State.give, State.init, crowd]
  congr 2
  · funext x
    by_cases hEq : x = 0 <;> simp [hEq]
  · funext c
    by_cases hEq : c = 0 <;> simp [hEq]

theorem crowd_handle (k : Nat) : (crowd k).handle 0 = some ⟨10, some 0⟩ := by
  simp [crowd]

theorem crowd_counter (k : Nat) : (crowd k).counter 0 = some (k + 1 : Int) := by
  simp [crowd]

theorem crowd_new (k : Nat) : (crowd k).handle (k + 1) = none := by
  simp [crowd]

/-- One more. -/
theorem crowd_next {k : Nat} (hFew : k + 2 < 2 ^ 31) :
    step (crowd k) (.ctorCopy (k + 1) 0) = some (crowd (k + 1)) := by
  have hEnd : ({ (crowd k).withHandle (k + 1) ⟨10, some 0⟩ with
      counter := Function.update (crowd k).counter 0 (some (k + 1 + 1 : Int)) } : State) =
        crowd (k + 1) := by
    simp only [State.withHandle, crowd]
    congr 1
    · funext x
      by_cases hEq : x = k + 1
      · simp [hEq]
      · have hIff : x ≤ k ↔ x ≤ k + 1 :=
          ⟨Nat.le_succ_of_le, fun hLe => Nat.le_of_lt_succ (Nat.lt_of_le_of_ne hLe hEq)⟩
        simp [hEq, hIff]
    · funext c
      by_cases hEq : c = 0 <;> simp [hEq]
  refine step_of_run ?_
  rw [← hEnd]
  refine (ctorCopy_run (crowd_handle k) rfl (crowd_counter k)).trans ?_
  have hThere : ((crowd k).withHandle (k + 1) ⟨10, some 0⟩).counter 0 ≠ none :=
    Option.some_ne_none _
  exact run_store hThere (by omega) (by omega)

theorem crowd_reach {k : Nat} (hFew : k + 1 < 2 ^ 31) : Reach step Usage .init (crowd k) := by
  induction k with
  | zero =>
      refine Reach.next (.ctor 0 10) Reach.start ?_ crowd_start
      exact ⟨rfl, List.not_mem_nil⟩
  | succ k ih =>
      refine Reach.next (.ctorCopy (k + 1) 0) (ih (by omega)) ?_ (crowd_next hFew)
      refine ⟨crowd_new k, ?_⟩
      rw [crowd_handle]
      exact Option.some_ne_none _

/-- The counter is full, and the copy behind it overflows the `int`. -/
theorem crowd_overflows {k : Nat} (hFull : k + 2 = 2 ^ 31) :
    step (crowd k) (.ctorCopy (k + 1) 0) = none := by
  have hCopy : (ctorCopy (k + 1) 0).run (crowd k) =
      (store (some 0) (k + 1 + 1 : Int)).run ((crowd k).withHandle (k + 1) ⟨10, some 0⟩) :=
    ctorCopy_run (crowd_handle k) rfl (crowd_counter k)
  have hStore : (store (some 0) (k + 1 + 1 : Int)).run
      ((crowd k).withHandle (k + 1) ⟨10, some 0⟩) = none :=
    run_store_overflow (by omega)
  show ((ctorCopy (k + 1) 0).run (crowd k)).map Prod.snd = none
  rw [hCopy, hStore]
  rfl

/-- A program with 2^31 handles of one object: the counter cannot be their number. -/
theorem handles_overflow :
    ∃ s x, Reach step Usage .init s ∧ s.counter 0 = some (2 ^ 31 - 1) ∧
      Usage s (.ctorCopy x 0) ∧ step s (.ctorCopy x 0) = none := by
  obtain ⟨k, hFull⟩ : ∃ k : Nat, k + 2 = 2 ^ 31 := ⟨2 ^ 31 - 2, by omega⟩
  refine ⟨crowd k, k + 1, crowd_reach (by omega), ?_, ⟨crowd_new k, ?_⟩, crowd_overflows hFull⟩
  · rw [crowd_counter, Option.some.injEq]
    omega
  · rw [crowd_handle]
    exact Option.some_ne_none _

end SimpleSharedPtr
end LinuxCppLearn
