import LinuxCppLearn.SimpleSharedPtr.Model
import Mathlib.Data.List.Nodup
import Mathlib.Algebra.Group.Nat.Defs
import Mathlib.Tactic.Common

/-!
# Objects with handles in them

`myShared_ptr<T>` for a `T` with members of the type `myShared_ptr<T>`, as the nodes
of a list or a tree have.  Here `delete ptr` runs the destructor of the object, which
destroys its members in reverse order, and so `release` may come to any number of
objects.  What is left to do on the call stack is written out as a list.

The members of an object are made by its constructor from handles that are there, and
may be assigned to later.  The program's own handles are variables.

* `Work`, `drain` — `release` with everything behind it.
* `Op`, `step` — the program.
-/

namespace LinuxCppLearn
namespace SimpleSharedPtr
namespace Nodes

/-- A live object; a member is `none` while `operator=` has released it and has not
copied its argument yet. -/
structure Object where
  id : ObjId
  members : List (Option SharedPtr)
deriving DecidableEq, Repr

def Object.handles (o : Object) : List SharedPtr := o.members.filterMap fun m => m

/-- The object number `n` and its counter are both called `n`. -/
structure State where
  vars : List (HandleId × SharedPtr)
  objects : List Object
  counter : CountId → Option Int
  next : Nat

def State.init : State where
  vars := []
  objects := []
  counter _ := none
  next := 0

/-- The first element that meets the test, and the others. -/
def extract {α : Type} (p : α → Bool) : List α → Option (α × List α)
  | [] => none
  | a :: l => if p a then some (a, l) else (extract p l).map fun r => (r.1, a :: r.2)

/-! ## Statements -/

/-- `*count` -/
def State.load (s : State) (count : Option CountId) : Option Int :=
  count.bind s.counter

/-- `*count = v` -/
def State.store (s : State) (count : Option CountId) (v : Int) : Option State :=
  match count with
  | none => none
  | some c =>
      if s.counter c ≠ none ∧ -2 ^ 31 ≤ v ∧ v < 2 ^ 31 then
        some { s with counter := Function.update s.counter c (some v) }
      else none

/-- `delete count` -/
def State.deleteCount (s : State) (count : Option CountId) : Option State :=
  match count with
  | none => some s
  | some c =>
      if s.counter c = none then none
      else some { s with counter := Function.update s.counter c none }

/-- What is left to do: `release` of a handle, and `delete count` behind `delete ptr`. -/
inductive Work
  | release (h : SharedPtr)
  | deleteCount (count : Option CountId)
deriving DecidableEq, Repr

/-- Everything that is left to do; `none` is undefined behaviour, or too little fuel.
When the destructor of an object starts, the object is not live any more. -/
def drain : Nat → State → List Work → Option State
  | _, s, [] => some s
  | 0, _, _ :: _ => none
  | fuel + 1, s, .release h :: work =>
      match s.load h.count with
      | none => none
      | some v =>
          match s.store h.count (v - 1) with
          | none => none
          | some s =>
              if v - 1 = 0 then
                match extract (fun o => o.id = h.ptr) s.objects with
                | none => none
                | some (o, objects) =>
                    drain fuel { s with objects := objects }
                      (o.handles.reverse.map .release ++ .deleteCount h.count :: work)
              else drain fuel s work
  | fuel + 1, s, .deleteCount count :: work =>
      match s.deleteCount count with
      | none => none
      | some s => drain fuel s work

/-! ## The program -/

/-- Where a handle is: a variable, or a member of an object. -/
inductive Loc
  | var (x : HandleId)
  | member (p : ObjId) (i : Nat)
deriving DecidableEq, Repr

/-- The members `ptr` and `count` of a handle; `none` where there is none. -/
def State.read (s : State) : Loc → Option SharedPtr
  | .var x => (s.vars.find? fun v => v.1 = x).map Prod.snd
  | .member p i => (s.objects.find? fun o => o.id = p).bind fun o => (o.members[i]?).join

/-- `(*count)++` -/
def State.increment (s : State) (h : SharedPtr) : Option State :=
  (s.load h.count).bind fun v => s.store h.count (v + 1)

/-- `if (count) ++(*count)`, in the copy constructor -/
def State.share (s : State) (h : SharedPtr) : Option State :=
  if h.count = none then some s else s.increment h

/-- The copies that the constructor of an object makes of its arguments. -/
def State.copyAll (s : State) : List Loc → Option (List SharedPtr × State)
  | [] => some ([], s)
  | loc :: args =>
      match s.read loc with
      | none => none
      | some h =>
          match s.share h with
          | none => none
          | some s => (s.copyAll args).map fun r => (h :: r.1, r.2)

/-- Member number `i` of a live object becomes `m`. -/
def State.setMember (s : State) (p : ObjId) (i : Nat) (m : Option SharedPtr) : Option State :=
  (extract (fun o => o.id = p) s.objects).map fun r =>
    { s with objects := { r.1 with members := r.1.members.set i m } :: r.2 }

/-- The handle that is about to be released. -/
def State.take (s : State) : Loc → Option (SharedPtr × State)
  | .var x =>
      (extract (fun v => v.1 = x) s.vars).map fun r => (r.1.2, { s with vars := r.2 })
  | .member p i =>
      (s.read (.member p i)).bind fun h => (s.setMember p i none).map fun s => (h, s)

/-- `ptr = other.ptr; count = other.count`, where the handle itself is still there. -/
def State.put (s : State) (this : Loc) (h : SharedPtr) : Option State :=
  match this with
  | .var x => some { s with vars := (x, h) :: s.vars }
  | .member p i => s.setMember p i (some h)

inductive Op
  /-- `myShared_ptr<T> x(new T(args))` -/
  | make (x : HandleId) (args : List Loc)
  | ctorCopy (x : HandleId) (other : Loc)
  | assign (this other : Loc)
  | dtor (x : HandleId)
deriving DecidableEq, Repr

/-- An operation; variables are declared once. -/
def exec (fuel : Nat) (s : State) : Op → Option State
  | .make x args =>
      if x ∈ s.vars.map Prod.fst then none
      else
        (s.copyAll args).map fun r =>
          { vars := (x, ⟨r.2.next, some r.2.next⟩) :: r.2.vars
            objects := ⟨r.2.next, r.1.map some⟩ :: r.2.objects
            counter := Function.update r.2.counter r.2.next (some 1)
            next := r.2.next + 1 }
  | .ctorCopy x other =>
      if x ∈ s.vars.map Prod.fst then none
      else
        (s.read other).bind fun h => (s.share h).bind fun s => s.put (.var x) h
  | .assign this other =>
      if this = other then (s.read this).map fun _ => s
      else
        -- nobody looks at `this` between `release` and the new members; if the object
        -- that it is a member of is deleted on the way, `put` finds it no more
        (s.take this).bind fun r =>
          (drain fuel r.2 [.release r.1]).bind fun s =>
            (s.read other).bind fun h => (s.increment h).bind fun s => s.put this h
  | .dtor x =>
      (s.take (.var x)).bind fun r => drain fuel r.2 [.release r.1]

/-- An operation together with the fuel it is given. -/
abbrev Action := Op × Nat

def step (s : State) (a : Action) : Option State :=
  exec a.2 s a.1

/-! ## The invariant -/

/-- All handles: the variables, the members of live objects, and those that are still
to be released or have just been copied. -/
def State.handles (s : State) (pending : List SharedPtr) : List SharedPtr :=
  s.vars.map Prod.snd ++ s.objects.flatMap Object.handles ++ pending

/-- How many of the handles manage the object. -/
def managing (p : ObjId) (hs : List SharedPtr) : Nat :=
  hs.countP fun h => h.ptr = p

/-- Every counter counts the handles in `hs`, and every handle has an object; the counters
in `dying` are about to be deleted. -/
structure Counts (objects : List Object) (counter : CountId → Option Int) (hs : List SharedPtr)
    (dying : List CountId) : Prop where
  managed : ∀ h ∈ hs, h.count = some h.ptr ∧ h.ptr ∈ objects.map Object.id
  counted : ∀ p ∈ objects.map Object.id, counter p = some (managing p hs : Int) ∧
    0 < managing p hs ∧ managing p hs < 2 ^ 31
  dying_nodup : dying.Nodup
  dying_apart : ∀ c ∈ dying, counter c ≠ none ∧ c ∉ objects.map Object.id
  only : ∀ c, counter c ≠ none → c ∈ objects.map Object.id ∨ c ∈ dying

structure Inv (s : State) (pending : List SharedPtr) (dying : List CountId) : Prop where
  vars : (s.vars.map Prod.fst).Nodup
  objects : (s.objects.map Object.id).Nodup
  older : ∀ o ∈ s.objects, o.id < s.next
  counts : Counts s.objects s.counter (s.handles pending) dying

theorem inv_init : Inv .init [] [] := by
  constructor
  case counts => constructor <;> simp [State.init, State.handles]
  all_goals simp [State.init]

section Lists

variable {α : Type} {p : α → Bool} {a : α} {l l' : List α}

theorem extract_perm (h : extract p l = some (a, l')) : p a ∧ l.Perm (a :: l') := by
  induction l generalizing a l' with
  | nil => simp [extract] at h
  | cons b l ih =>
      unfold extract at h
      split at h
      · rename_i hHere
        obtain ⟨rfl, rfl⟩ := Prod.mk.inj (Option.some.inj h)
        exact ⟨hHere, .refl _⟩
      · obtain ⟨⟨c, rest⟩, hRest, hEq⟩ := Option.map_eq_some_iff.mp h
        obtain ⟨rfl, rfl⟩ := Prod.mk.inj hEq
        obtain ⟨hMeets, hPerm⟩ := ih hRest
        exact ⟨hMeets, (hPerm.cons b).trans (.swap c b rest)⟩

theorem extract_sublist (h : extract p l = some (a, l')) : l'.Sublist l := by
  induction l generalizing a l' with
  | nil => simp [extract] at h
  | cons b l ih =>
      unfold extract at h
      split at h
      · obtain ⟨-, rfl⟩ := Prod.mk.inj (Option.some.inj h)
        exact List.sublist_cons_self _ _
      · obtain ⟨⟨c, rest⟩, hRest, hEq⟩ := Option.map_eq_some_iff.mp h
        obtain ⟨-, rfl⟩ := Prod.mk.inj hEq
        exact (ih hRest).cons_cons b

theorem exists_extract (hMem : a ∈ l) (hMeets : p a) : ∃ b l', extract p l = some (b, l') := by
  induction l with
  | nil => simp at hMem
  | cons b l ih =>
      unfold extract
      split
      · exact ⟨b, l, rfl⟩
      · rename_i hNot
        have hRest : a ∈ l := by
          rcases List.mem_cons.mp hMem with rfl | hRest
          · exact absurd hMeets hNot
          · exact hRest
        obtain ⟨c, l', hFound⟩ := ih hRest
        exact ⟨c, b :: l', by rw [hFound]; rfl⟩

end Lists

section Counting

variable {objects objects' : List Object} {counter : CountId → Option Int}
  {hs hs' : List SharedPtr} {h : SharedPtr} {p : ObjId} {dying : List CountId}

theorem managing_perm (hPerm : hs.Perm hs') : managing p hs = managing p hs' :=
  hPerm.countP_eq _

theorem managing_cons : managing p (h :: hs) = managing p hs + if h.ptr = p then 1 else 0 := by
  simp [managing, List.countP_cons]

theorem Counts.perm (hCounts : Counts objects counter hs dying) (hPerm : hs.Perm hs') :
    Counts objects counter hs' dying where
  managed h hMem := hCounts.managed h (hPerm.mem_iff.mpr hMem)
  counted p hMem := managing_perm (p := p) hPerm ▸ hCounts.counted p hMem
  dying_nodup := hCounts.dying_nodup
  dying_apart := hCounts.dying_apart
  only := hCounts.only

/-- Only the numbers of the objects matter. -/
theorem Counts.congr (hCounts : Counts objects counter hs dying)
    (hIds : (objects.map Object.id).Perm (objects'.map Object.id)) :
    Counts objects' counter hs dying where
  managed h hMem := (hCounts.managed h hMem).imp_right hIds.mem_iff.mp
  counted p hMem := hCounts.counted p (hIds.mem_iff.mpr hMem)
  dying_nodup := hCounts.dying_nodup
  dying_apart c hMem := (hCounts.dying_apart c hMem).imp_right (mt hIds.mem_iff.mpr)
  only c hLive := (hCounts.only c hLive).imp_left hIds.mem_iff.mp

/-- **A handle of an object with others** is released. -/
theorem Counts.release (hCounts : Counts objects counter (h :: hs) dying)
    (hOthers : managing h.ptr hs ≠ 0) :
    Counts objects (Function.update counter h.ptr (some (managing h.ptr hs : Int))) hs dying := by
  have hIn := (hCounts.managed h List.mem_cons_self).2
  refine ⟨fun k hMem => hCounts.managed k (List.mem_cons_of_mem h hMem), fun p hMem => ?_,
    hCounts.dying_nodup, fun c hMem => ?_, fun c hLive => ?_⟩
  · obtain ⟨hCounter, hPos, hFew⟩ := hCounts.counted p hMem
    rw [managing_cons] at hCounter hPos hFew
    by_cases hHere : p = h.ptr
    · subst hHere
      rw [Function.update_self]
      exact ⟨rfl, Nat.pos_of_ne_zero hOthers, by omega⟩
    · rw [Function.update_of_ne hHere]
      rw [if_neg (Ne.symm hHere)] at hCounter hPos hFew
      exact ⟨hCounter, hPos, hFew⟩
  · obtain ⟨hLive, hApart⟩ := hCounts.dying_apart c hMem
    have hOther : c ≠ h.ptr := fun hEq => hApart (hEq ▸ hIn)
    rw [Function.update_of_ne hOther]
    exact ⟨hLive, hApart⟩
  · by_cases hHere : c = h.ptr
    · exact .inl (hHere ▸ hIn)
    · rw [Function.update_of_ne hHere] at hLive
      exact hCounts.only c hLive

/-- **The last handle** is released: the object leaves, its members are the next. -/
theorem Counts.release_last (hCounts : Counts objects counter (h :: hs) dying)
    (hNodup : (objects.map Object.id).Nodup) (hLast : managing h.ptr hs = 0)
    (hPerm : (objects.map Object.id).Perm (h.ptr :: objects'.map Object.id)) :
    Counts objects' (Function.update counter h.ptr (some 0)) hs (h.ptr :: dying) := by
  have hNew : h.ptr ∉ objects'.map Object.id := (List.nodup_cons.mp (hPerm.nodup hNodup)).1
  have hIn := (hCounts.managed h List.mem_cons_self).2
  refine ⟨fun k hMem => ?_, fun p hMem => ?_, ?_, fun c hMem => ?_, fun c hLive => ?_⟩
  · obtain ⟨hCount, hObject⟩ := hCounts.managed k (List.mem_cons_of_mem h hMem)
    have hOther : k.ptr ≠ h.ptr := by
      intro hEq
      have hNone := List.countP_eq_zero.mp hLast k hMem
      simp [hEq] at hNone
    exact ⟨hCount, (List.mem_cons.mp (hPerm.mem_iff.mp hObject)).resolve_left hOther⟩
  · have hOther : p ≠ h.ptr := ne_of_mem_of_not_mem hMem hNew
    have hOld := hCounts.counted p (hPerm.mem_iff.mpr (List.mem_cons_of_mem _ hMem))
    rw [managing_cons, if_neg (Ne.symm hOther)] at hOld
    rw [Function.update_of_ne hOther]
    exact hOld
  · exact List.nodup_cons.mpr ⟨fun hDying => (hCounts.dying_apart h.ptr hDying).2 hIn,
      hCounts.dying_nodup⟩
  · rcases List.mem_cons.mp hMem with rfl | hOld
    · rw [Function.update_self]
      exact ⟨by simp, hNew⟩
    · obtain ⟨hLive, hApart⟩ := hCounts.dying_apart c hOld
      have hOther : c ≠ h.ptr := fun hEq => hApart (hEq ▸ hIn)
      rw [Function.update_of_ne hOther]
      exact ⟨hLive, fun hNow => hApart (hPerm.mem_iff.mpr (List.mem_cons_of_mem _ hNow))⟩
  · by_cases hHere : c = h.ptr
    · exact .inr (List.mem_cons.mpr (.inl hHere))
    · rw [Function.update_of_ne hHere] at hLive
      rcases hCounts.only c hLive with hOld | hOld
      · exact .inl ((List.mem_cons.mp (hPerm.mem_iff.mp hOld)).resolve_left hHere)
      · exact .inr (List.mem_cons_of_mem _ hOld)

/-- A handle is copied. -/
theorem Counts.copy (hCounts : Counts objects counter hs dying) (hMem : h ∈ hs)
    (hFew : managing h.ptr hs + 1 < 2 ^ 31) :
    Counts objects (Function.update counter h.ptr (some (managing h.ptr hs + 1 : Int))) (h :: hs)
      dying := by
  have hHandle := hCounts.managed h hMem
  refine ⟨fun k hIn => ?_, fun p hIn => ?_, hCounts.dying_nodup, fun c hIn => ?_,
    fun c hLive => ?_⟩
  · rcases List.mem_cons.mp hIn with rfl | hOld
    · exact hHandle
    · exact hCounts.managed k hOld
  · rw [managing_cons]
    by_cases hHere : p = h.ptr
    · subst hHere
      rw [Function.update_self, if_pos rfl]
      exact ⟨by push_cast; rfl, Nat.succ_pos _, hFew⟩
    · rw [Function.update_of_ne hHere, if_neg (Ne.symm hHere)]
      exact hCounts.counted p hIn
  · obtain ⟨hLive, hApart⟩ := hCounts.dying_apart c hIn
    have hOther : c ≠ h.ptr := fun hEq => hApart (hEq ▸ hHandle.2)
    rw [Function.update_of_ne hOther]
    exact ⟨hLive, hApart⟩
  · by_cases hHere : c = h.ptr
    · exact .inl (hHere ▸ hHandle.2)
    · rw [Function.update_of_ne hHere] at hLive
      exact hCounts.only c hLive

/-- A new object with one handle. -/
theorem Counts.make {members : List (Option SharedPtr)} (hCounts : Counts objects counter hs [])
    (hNew : p ∉ objects.map Object.id) :
    Counts (⟨p, members⟩ :: objects) (Function.update counter p (some 1)) (⟨p, some p⟩ :: hs)
      [] := by
  have hNone : managing p hs = 0 := by
    refine List.countP_eq_zero.mpr fun h hMem => ?_
    have hOther : h.ptr ≠ p := ne_of_mem_of_not_mem (hCounts.managed h hMem).2 hNew
    simpa using hOther
  refine ⟨fun h hMem => ?_, fun q hMem => ?_, List.nodup_nil, by simp, fun c hLive => ?_⟩
  · rcases List.mem_cons.mp hMem with rfl | hIn
    · exact ⟨rfl, List.mem_cons_self⟩
    · obtain ⟨hCount, hObject⟩ := hCounts.managed h hIn
      exact ⟨hCount, List.mem_cons_of_mem _ hObject⟩
  · rw [managing_cons]
    by_cases hHere : q = p
    · subst hHere
      rw [Function.update_self, if_pos rfl, hNone]
      exact ⟨rfl, by decide, by decide⟩
    · have hIn : q ∈ objects.map Object.id := (List.mem_cons.mp hMem).resolve_left hHere
      rw [Function.update_of_ne hHere, if_neg (Ne.symm hHere)]
      exact hCounts.counted q hIn
  · by_cases hHere : c = p
    · exact .inl (List.mem_cons.mpr (.inl hHere))
    · rw [Function.update_of_ne hHere] at hLive
      have hIn := (hCounts.only c hLive).resolve_right (by simp)
      exact .inl (List.mem_cons_of_mem _ hIn)

/-- The counter of an object that is gone is deleted. -/
theorem Counts.deleteCount {c : CountId} (hCounts : Counts objects counter hs (c :: dying)) :
    Counts objects (Function.update counter c none) hs dying := by
  obtain ⟨hFresh, hNodup⟩ := List.nodup_cons.mp hCounts.dying_nodup
  obtain ⟨-, hApart⟩ := hCounts.dying_apart c List.mem_cons_self
  refine ⟨hCounts.managed, fun p hMem => ?_, hNodup, fun d hMem => ?_, fun d hLive => ?_⟩
  · rw [Function.update_of_ne (ne_of_mem_of_not_mem hMem hApart)]
    exact hCounts.counted p hMem
  · rw [Function.update_of_ne (ne_of_mem_of_not_mem hMem hFresh)]
    exact hCounts.dying_apart d (List.mem_cons_of_mem c hMem)
  · have hOther : d ≠ c := by
      rintro rfl
      exact hLive (Function.update_self ..)
    rw [Function.update_of_ne hOther] at hLive
    exact (hCounts.only d hLive).imp_right fun hMem => (List.mem_cons.mp hMem).resolve_left hOther

end Counting

/-! ## What a release comes to -/

/-- The handles that are still to be released. -/
def Work.handle? : Work → Option SharedPtr
  | .release h => some h
  | .deleteCount _ => none

/-- The counters that are still to be deleted. -/
def Work.count? : Work → Option CountId
  | .release _ => none
  | .deleteCount count => count

def pendingOf (work : List Work) : List SharedPtr := work.filterMap Work.handle?

def dyingOf (work : List Work) : List CountId := work.filterMap Work.count?

/-- A bound of the steps. -/
def effort (s : State) (work : List Work) : Nat :=
  (s.objects.flatMap Object.handles).length + 2 * s.objects.length + work.length

/-- The objects of `K` are live, and variables or members of objects of `K` hold them. -/
structure Supported (s : State) (K : ObjId → Prop) : Prop where
  live : ∀ p, K p → p ∈ s.objects.map Object.id
  held : ∀ p, K p → (∃ v ∈ s.vars, v.2.ptr = p) ∨
    ∃ o ∈ s.objects, K o.id ∧ ∃ h ∈ o.handles, h.ptr = p

/-- Objects may have been deleted, but none that the others support. -/
structure Below (s₁ s : State) : Prop where
  vars_eq : s₁.vars = s.vars
  next_eq : s₁.next = s.next
  objects_sub : s₁.objects.Sublist s.objects
  supported : ∀ K, Supported s K → Supported s₁ K

section Release

variable {s s₁ s' t : State} {h : SharedPtr} {pending : List SharedPtr} {work : List Work}
  {w : Work} {fuel : Nat} {o : Object} {objects : List Object}

theorem Below.trans (h₁ : Below s₁ s) (h₂ : Below t s₁) : Below t s :=
  ⟨h₂.vars_eq.trans h₁.vars_eq, h₂.next_eq.trans h₁.next_eq,
    h₂.objects_sub.trans h₁.objects_sub, fun K hK => h₂.supported K (h₁.supported K hK)⟩

/-- Only counters have changed. -/
theorem below_of_same (hVars : s₁.vars = s.vars) (hObjects : s₁.objects = s.objects)
    (hNext : s₁.next = s.next) : Below s₁ s := by
  refine ⟨hVars, hNext, hObjects ▸ .refl _, fun K hK => ?_⟩
  obtain ⟨hLive, hHeld⟩ := hK
  rw [← hObjects] at hLive hHeld
  rw [← hVars] at hHeld
  exact ⟨hLive, hHeld⟩

theorem mem_handles : h ∈ s.handles pending ↔
    (∃ v ∈ s.vars, v.2 = h) ∨ (∃ o ∈ s.objects, h ∈ o.handles) ∨ h ∈ pending := by
  simp [State.handles]

/-- An object without handles is deleted: it supported none of the others. -/
theorem below_of_delete (hVars : s₁.vars = s.vars) (hNext : s₁.next = s.next)
    (hSub : s₁.objects.Sublist s.objects) (hPerm : s.objects.Perm (o :: s₁.objects))
    (hNone : managing o.id (s.handles pending) = 0) : Below s₁ s := by
  refine ⟨hVars, hNext, hSub, fun K hK => ?_⟩
  have hFree : ∀ h ∈ s.handles pending, h.ptr ≠ o.id := fun h hMem hEq => by
    have hNot := List.countP_eq_zero.mp hNone h hMem
    simp [hEq] at hNot
  have hOutside : ¬ K o.id := by
    intro hIn
    rcases hK.held _ hIn with ⟨v, hMem, hPtr⟩ | ⟨k, hMem, -, h, hHandle, hPtr⟩
    · exact hFree v.2 (mem_handles.mpr (.inl ⟨v, hMem, rfl⟩)) hPtr
    · exact hFree h (mem_handles.mpr (.inr (.inl ⟨k, hMem, hHandle⟩))) hPtr
  have hStays : ∀ k ∈ s.objects, K k.id → k ∈ s₁.objects := by
    intro k hMem hIn
    refine (List.mem_cons.mp (hPerm.mem_iff.mp hMem)).resolve_left ?_
    rintro rfl
    exact hOutside hIn
  constructor
  · intro p hIn
    obtain ⟨k, hMem, rfl⟩ := List.mem_map.mp (hK.live p hIn)
    exact List.mem_map_of_mem (hStays k hMem hIn)
  · intro p hIn
    rcases hK.held p hIn with hVar | ⟨k, hMem, hKeeper, hHandle⟩
    · exact .inl (hVars ▸ hVar)
    · exact .inr ⟨k, hStays k hMem hKeeper, hKeeper, hHandle⟩

theorem handles_cons : (s.handles (h :: pending)).Perm (h :: s.handles pending) :=
  List.perm_middle

theorem pendingOf_members {count : Option CountId} :
    pendingOf (o.handles.reverse.map .release ++ .deleteCount count :: work) =
      o.handles.reverse ++ pendingOf work := by
  simp [pendingOf, Work.handle?, List.filterMap_append, List.filterMap_map, List.filterMap_cons,
    Function.comp_def]

theorem dyingOf_members {c : CountId} :
    dyingOf (o.handles.reverse.map .release ++ .deleteCount (some c) :: work) =
      c :: dyingOf work := by
  simp [dyingOf, Work.count?, List.filterMap_append, List.filterMap_map, Function.comp_def]

/-- The members of an object that leaves are released next. -/
theorem handles_members (hPerm : s.objects.Perm (o :: objects))
    (counter : CountId → Option Int) :
    (s.handles pending).Perm
      (State.handles { s with objects := objects, counter := counter }
        (o.handles.reverse ++ pending)) := by
  have hFlat := hPerm.flatMap_right Object.handles
  rw [List.flatMap_cons] at hFlat
  refine List.perm_iff_count.mpr fun a => ?_
  have hCount := List.perm_iff_count.mp hFlat a
  simp only [State.handles, List.count_append, List.count_reverse] at hCount ⊢
  omega

/-- The counter of a handle, and what is stored when it is released. -/
theorem Inv.load_store {dying : List CountId} (hInv : Inv s (h :: pending) dying) :
    ∃ n : Nat, n = managing h.ptr (s.handles pending) ∧ h.count = some h.ptr ∧
      s.load h.count = some (n + 1 : Int) ∧
      s.store h.count (n + 1 - 1 : Int) =
        some { s with counter := Function.update s.counter h.ptr (some (n : Int)) } := by
  have hCounts := hInv.counts.perm handles_cons
  obtain ⟨hCount, hObject⟩ := hCounts.managed h List.mem_cons_self
  obtain ⟨hCounter, -, hFew⟩ := hCounts.counted h.ptr hObject
  rw [managing_cons, if_pos rfl] at hCounter hFew
  refine ⟨managing h.ptr (s.handles pending), rfl, hCount, ?_, ?_⟩
  · rw [hCount]
    show s.counter h.ptr = _
    rw [hCounter]
    push_cast
    rfl
  · rw [hCount, Int.add_sub_cancel]
    refine if_pos ⟨by simp [hCounter], by omega, by omega⟩

/-- **One step** of what is left to do. -/
theorem drain_step (hInv : Inv s (pendingOf (w :: work)) (dyingOf (w :: work))) :
    ∃ s₁ work₁, (∀ fuel, drain (fuel + 1) s (w :: work) = drain fuel s₁ work₁) ∧
      Inv s₁ (pendingOf work₁) (dyingOf work₁) ∧ Below s₁ s ∧
      effort s₁ work₁ < effort s (w :: work) := by
  cases w with
  | release h =>
      have hInv : Inv s (h :: pendingOf work) (dyingOf work) := hInv
      have hCounts := hInv.counts.perm handles_cons
      obtain ⟨n, hn, hCount, hLoad, hStore⟩ := hInv.load_store
      by_cases hLast : n = 0
      · obtain ⟨o', hMem, hId⟩ := List.mem_map.mp (hCounts.managed h List.mem_cons_self).2
        obtain ⟨o, objects, hExtract⟩ :=
          exists_extract (p := fun o : Object => o.id = h.ptr) hMem (by simpa using hId)
        obtain ⟨hHere, hPerm⟩ := extract_perm hExtract
        have hHere : o.id = h.ptr := by simpa using hHere
        have hIds : (s.objects.map Object.id).Perm (h.ptr :: objects.map Object.id) := by
          rw [← hHere, ← List.map_cons]
          exact hPerm.map Object.id
        refine ⟨{ s with
            counter := Function.update s.counter h.ptr (some (n : Int))
            objects := objects },
          o.handles.reverse.map .release ++ .deleteCount h.count :: work,
          fun fuel => ?_, ⟨hInv.vars, ?_, fun k hIn => ?_, ?_⟩,
          below_of_delete rfl rfl (extract_sublist hExtract) hPerm
            (hHere.symm ▸ hn.symm.trans hLast), ?_⟩
        · have hZero : (n : Int) + 1 - 1 = 0 := by omega
          simp only [drain, hLoad, hStore, if_pos hZero, hExtract]
        · exact (List.nodup_cons.mp (hIds.nodup hInv.objects)).2
        · exact hInv.older k (hPerm.mem_iff.mpr (List.mem_cons_of_mem o hIn))
        · rw [hCount, pendingOf_members, dyingOf_members]
          have hGone := hCounts.release_last hInv.objects (hn.symm.trans hLast) hIds
          rw [hLast]
          exact hGone.perm (handles_members hPerm _)
        · have hObjects := hPerm.length_eq
          have hMembers := (hPerm.flatMap_right Object.handles).length_eq
          simp only [effort, List.flatMap_cons, List.length_append, List.length_map,
            List.length_reverse, List.length_cons] at hObjects hMembers ⊢
          omega
      · refine ⟨{ s with counter := Function.update s.counter h.ptr (some (n : Int)) }, work,
          fun fuel => ?_, ⟨hInv.vars, hInv.objects, hInv.older, ?_⟩,
          below_of_same rfl rfl rfl, Nat.lt_succ_self _⟩
        · have hMore : ¬ ((n : Int) + 1 - 1 = 0) := by omega
          simp only [drain, hLoad, hStore, if_neg hMore]
        · subst hn
          exact hCounts.release hLast
  | deleteCount count =>
      cases count with
      | none => exact ⟨s, work, fun fuel => rfl, hInv, below_of_same rfl rfl rfl,
          Nat.lt_succ_self _⟩
      | some c =>
          have hInv : Inv s (pendingOf work) (c :: dyingOf work) := hInv
          have hLive := (hInv.counts.dying_apart c List.mem_cons_self).1
          refine ⟨{ s with counter := Function.update s.counter c none }, work, fun fuel => ?_,
            ⟨hInv.vars, hInv.objects, hInv.older, hInv.counts.deleteCount⟩,
            below_of_same rfl rfl rfl, Nat.lt_succ_self _⟩
          simp only [drain, State.deleteCount, if_neg hLive]

/-- **A release comes to an end** and is defined. -/
theorem drain_returns (hInv : Inv s (pendingOf work) (dyingOf work)) :
    ∃ fuel s', drain fuel s work = some s' := by
  induction hEffort : effort s work using Nat.strongRecOn generalizing s work with
  | _ n ih =>
      cases work with
      | nil => exact ⟨0, s, rfl⟩
      | cons w work =>
          obtain ⟨s₁, work₁, hStep, hInv₁, -, hLess⟩ := drain_step hInv
          obtain ⟨fuel, s', hRest⟩ := ih _ (hEffort ▸ hLess) hInv₁ rfl
          exact ⟨fuel + 1, s', (hStep fuel).trans hRest⟩

/-- Behind it every counter counts the handles that are left. -/
theorem drain_inv (hInv : Inv s (pendingOf work) (dyingOf work))
    (hRun : drain fuel s work = some s') : Inv s' [] [] ∧ Below s' s := by
  induction fuel generalizing s work with
  | zero =>
      cases work with
      | nil =>
          obtain rfl := Option.some.inj hRun
          exact ⟨hInv, below_of_same rfl rfl rfl⟩
      | cons w work => simp [drain] at hRun
  | succ fuel ih =>
      cases work with
      | nil =>
          obtain rfl := Option.some.inj hRun
          exact ⟨hInv, below_of_same rfl rfl rfl⟩
      | cons w work =>
          obtain ⟨s₁, work₁, hStep, hInv₁, hBelow, -⟩ := drain_step hInv
          rw [hStep] at hRun
          obtain ⟨hInv', hBelow'⟩ := ih hInv₁ hRun
          exact ⟨hInv', hBelow.trans hBelow'⟩

end Release

end Nodes
end SimpleSharedPtr
end LinuxCppLearn
