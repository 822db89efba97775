import LinuxCppLearn.Library.Circles
import LinuxCppLearn.SimpleSharedPtr.Nodes
import Mathlib.Data.List.Flatten

/-!
# Objects live as long as they can be reached, or for ever

Every counter is the number of handles, and so an object lives as long as somebody has
a handle of it.  That is the program, or an object in turn; an object which the program
cannot reach any more is kept by a circle of handles.

* `Reached`, `BehindCircle` — who leads to an object.
* `Inv.step` — every operation keeps the counts; `Inv.live_iff`.
* `nodes_alive_exactly` — what holds in every run.
* `assign_defined_exactly` — `operator=` releases the old object first, so that neither
  its argument nor the handle itself may go with it.
-/

namespace LinuxCppLearn
namespace SimpleSharedPtr
namespace Nodes

open StepSystem Relation

/-- A member of the first object is a handle of the second. -/
def Leads (s : State) (q p : ObjId) : Prop :=
  ∃ o ∈ s.objects, o.id = q ∧ ∃ h ∈ o.handles, h.ptr = p

/-- The variables lead to the object. -/
def Reached (s : State) (p : ObjId) : Prop :=
  ∃ v ∈ s.vars, ReflTransGen (Leads s) v.2.ptr p

/-- A circle of handles leads to the object. -/
def BehindCircle (s : State) (p : ObjId) : Prop :=
  ∃ q, TransGen (Leads s) q q ∧ ReflTransGen (Leads s) q p

theorem find_of_nodup {α β : Type} [DecidableEq β] {f : α → β} {a : α} {b : β} {l : List α}
    (hNodup : (l.map f).Nodup) (hMem : a ∈ l) (hAt : f a = b) :
    l.find? (fun a => f a = b) = some a := by
  have hThere : (l.find? fun a => f a = b).isSome :=
    List.find?_isSome.mpr ⟨a, hMem, by simpa using hAt⟩
  obtain ⟨k, hFind⟩ := Option.isSome_iff_exists.mp hThere
  have hSame : f k = b := by simpa using List.find?_some hFind
  rw [hFind, List.inj_on_of_nodup_map hNodup (List.mem_of_find?_eq_some hFind) hMem
    (hSame.trans hAt.symm)]

theorem set_perm {α : Type} {a b : α} {l : List α} {i : Nat} (hAt : l[i]? = some a) :
    (b :: l).Perm (a :: l.set i b) := by
  induction l generalizing i with
  | nil => simp at hAt
  | cons c l ih =>
      cases i with
      | zero =>
          obtain rfl : c = a := by simpa using hAt
          exact .swap c b l
      | succ i =>
          have hRest : l[i]? = some a := by simpa using hAt
          exact (List.Perm.swap c b l).trans (((ih hRest).cons c).trans (.swap a c _))

/-- A member is exchanged. -/
theorem handles_set {o : Object} {m m' : Option SharedPtr} {i : Nat}
    (hAt : o.members[i]? = some m) :
    (m'.toList ++ o.handles).Perm
      (m.toList ++ Object.handles { o with members := o.members.set i m' }) := by
  have hPerm := (set_perm (b := m') hAt).filterMap fun m => m
  cases m <;> cases m' <;> simpa [Object.handles] using hPerm

section Copies

variable {s s' : State} {h : SharedPtr} {hs pending pending' : List SharedPtr}
  {dying : List CountId} {x : HandleId} {p : ObjId} {i : Nat} {loc : Loc} {args : List Loc}
  {m m' : Option SharedPtr}

theorem Inv.read_var (hInv : Inv s pending dying) :
    s.read (.var x) = some h ↔ (x, h) ∈ s.vars := by
  unfold State.read
  constructor
  · intro hRead
    obtain ⟨v, hFind, rfl⟩ := Option.map_eq_some_iff.mp hRead
    have hName : v.1 = x := by simpa using List.find?_some hFind
    exact hName ▸ List.mem_of_find?_eq_some hFind
  · intro hMem
    show (s.vars.find? fun v => v.1 = x).map Prod.snd = some h
    rw [find_of_nodup hInv.vars hMem rfl]
    rfl

theorem Inv.read_member (hInv : Inv s pending dying) :
    s.read (.member p i) = some h ↔
      ∃ o ∈ s.objects, o.id = p ∧ o.members[i]? = some (some h) := by
  unfold State.read
  constructor
  · intro hRead
    obtain ⟨o, hFind, hMember⟩ := Option.bind_eq_some_iff.mp hRead
    have hId : o.id = p := by simpa using List.find?_some hFind
    exact ⟨o, List.mem_of_find?_eq_some hFind, hId, Option.join_eq_some_iff.mp hMember⟩
  · rintro ⟨o, hMem, hId, hMember⟩
    show ((s.objects.find? fun o => o.id = p).bind fun o => (o.members[i]?).join) = some h
    rw [find_of_nodup hInv.objects hMem hId]
    exact Option.join_eq_some_iff.mpr hMember

/-- What is read is one of the handles. -/
theorem Inv.mem_handles_of_read (hInv : Inv s pending dying) (hRead : s.read loc = some h) :
    h ∈ s.handles pending := by
  cases loc with
  | var x => exact mem_handles.mpr (.inl ⟨(x, h), hInv.read_var.mp hRead, rfl⟩)
  | member p i =>
      obtain ⟨o, hMem, -, hMember⟩ := hInv.read_member.mp hRead
      refine mem_handles.mpr (.inr (.inl ⟨o, hMem, ?_⟩))
      exact List.mem_filterMap.mpr ⟨some h, List.mem_of_getElem? hMember, rfl⟩

theorem Inv.perm (hInv : Inv s pending dying) (hPerm : pending.Perm pending') :
    Inv s pending' dying :=
  ⟨hInv.vars, hInv.objects, hInv.older, hInv.counts.perm (hPerm.append_left _)⟩

/-- There is one object of each number. -/
theorem Inv.object_unique (hInv : Inv s pending dying) {o o' : Object} (hMem : o ∈ s.objects)
    (hMem' : o' ∈ s.objects) (hEq : o.id = o'.id) : o = o' :=
  List.inj_on_of_nodup_map hInv.objects hMem hMem' hEq

/-- Only a counter has changed. -/
structure SameButCounter (s' s : State) : Prop where
  vars_eq : s'.vars = s.vars
  objects_eq : s'.objects = s.objects
  next_eq : s'.next = s.next

/-- **`++(*count)`** is defined below the largest `int`. -/
theorem Inv.increment_eq (hInv : Inv s pending dying) (hMem : h ∈ s.handles pending) :
    s.increment h =
      if managing h.ptr (s.handles pending) + 1 < 2 ^ 31 then
        some { s with
          counter := Function.update s.counter h.ptr
            (some (managing h.ptr (s.handles pending) + 1 : Int)) }
      else none := by
  obtain ⟨hCount, hObject⟩ := hInv.counts.managed h hMem
  obtain ⟨hCounter, -, -⟩ := hInv.counts.counted h.ptr hObject
  unfold State.increment
  rw [hCount]
  show (s.counter h.ptr).bind _ = _
  rw [hCounter, Option.bind_some]
  unfold State.store
  by_cases hFew : managing h.ptr (s.handles pending) + 1 < 2 ^ 31
  · rw [if_pos hFew]
    exact if_pos ⟨by simp [hCounter], by omega, by omega⟩
  · rw [if_neg hFew]
    exact if_neg fun hRange => hFew (by omega)

theorem Inv.copy (hInv : Inv s pending dying) (hMem : h ∈ s.handles pending)
    (hRun : s.increment h = some s') : Inv s' (h :: pending) dying ∧ SameButCounter s' s := by
  rw [hInv.increment_eq hMem] at hRun
  obtain ⟨hFew, hRun⟩ := Option.ite_none_right_eq_some.mp hRun
  obtain rfl := Option.some.inj hRun
  refine ⟨⟨hInv.vars, hInv.objects, hInv.older, ?_⟩, rfl, rfl, rfl⟩
  exact (hInv.counts.copy hMem hFew).perm handles_cons.symm

/-- A handle that has been made has a counter. -/
theorem Inv.share_eq (hInv : Inv s pending dying) (hMem : h ∈ s.handles pending) :
    s.share h = s.increment h := by
  have hCount := (hInv.counts.managed h hMem).1
  exact if_neg (hCount ▸ Option.some_ne_none _)

/-- The copies for the members of a new object. -/
theorem Inv.copyAll (hInv : Inv s pending dying) (hRun : s.copyAll args = some (hs, s')) :
    Inv s' (hs ++ pending) dying ∧ SameButCounter s' s := by
  induction args generalizing s pending hs with
  | nil =>
      obtain ⟨rfl, rfl⟩ := Prod.mk.inj (Option.some.inj hRun)
      exact ⟨hInv, rfl, rfl, rfl⟩
  | cons loc args ih =>
      unfold State.copyAll at hRun
      split at hRun
      · simp at hRun
      · rename_i h hRead
        split at hRun
        · simp at hRun
        · rename_i s₁ hShare
          have hMem : h ∈ s.handles pending := hInv.mem_handles_of_read hRead
          rw [hInv.share_eq hMem] at hShare
          obtain ⟨⟨hs₁, s₂⟩, hRest, hEq⟩ := Option.map_eq_some_iff.mp hRun
          obtain ⟨rfl, rfl⟩ := Prod.mk.inj hEq
          obtain ⟨hInv₁, hVars, hObjects, hNext⟩ := hInv.copy hMem hShare
          obtain ⟨hInv₂, hVars', hObjects', hNext'⟩ := ih hInv₁ hRest
          exact ⟨hInv₂.perm List.perm_middle, hVars'.trans hVars, hObjects'.trans hObjects,
            hNext'.trans hNext⟩

/-- **A new object**, whose members have just been copied. -/
theorem Inv.make (hInv : Inv s hs []) (hFresh : x ∉ s.vars.map Prod.fst) :
    Inv { vars := (x, ⟨s.next, some s.next⟩) :: s.vars
          objects := ⟨s.next, hs.map some⟩ :: s.objects
          counter := Function.update s.counter s.next (some 1)
          next := s.next + 1 } [] [] := by
  have hOld : ∀ p ∈ s.objects.map Object.id, p < s.next := by
    intro p hMem
    obtain ⟨o, hIn, rfl⟩ := List.mem_map.mp hMem
    exact hInv.older o hIn
  have hNew : s.next ∉ s.objects.map Object.id := fun hMem => Nat.lt_irrefl _ (hOld _ hMem)
  refine ⟨List.nodup_cons.mpr ⟨hFresh, hInv.vars⟩, List.nodup_cons.mpr ⟨hNew, hInv.objects⟩,
    fun o hMem => ?_, (hInv.counts.make hNew).perm ?_⟩
  · rcases List.mem_cons.mp hMem with rfl | hIn
    · exact Nat.lt_succ_self _
    · exact Nat.lt_succ_of_lt (hInv.older o hIn)
  · have hMembers : Object.handles ⟨s.next, hs.map some⟩ = hs := by
      simp [Object.handles, List.filterMap_map]
    simp only [State.handles, hMembers, List.map_cons, List.flatMap_cons, List.append_nil,
      List.append_assoc, List.cons_append]
    exact (List.perm_append_comm.append_left _).cons _

theorem setMember_eq_some (hSet : s.setMember p i m = some s') :
    ∃ o objects, o.id = p ∧ s.objects.Perm (o :: objects) ∧
      s' = { s with objects := { o with members := o.members.set i m } :: objects } := by
  obtain ⟨⟨o, objects⟩, hExtract, rfl⟩ := Option.map_eq_some_iff.mp hSet
  obtain ⟨hHere, hPerm⟩ := extract_perm hExtract
  exact ⟨o, objects, by simpa using hHere, hPerm, rfl⟩

theorem exists_setMember (hLive : p ∈ s.objects.map Object.id) :
    ∃ s', s.setMember p i m = some s' := by
  obtain ⟨o, hMem, hId⟩ := List.mem_map.mp hLive
  obtain ⟨o', objects, hExtract⟩ :=
    exists_extract (p := fun o : Object => o.id = p) hMem (by simpa using hId)
  exact ⟨_, Option.map_eq_some_iff.mpr ⟨_, hExtract, rfl⟩⟩

/-- A member becomes another one, and the handles are the same altogether. -/
theorem Inv.setMember (hInv : Inv s pending dying) (hSet : s.setMember p i m' = some s')
    (hAt : ∀ o ∈ s.objects, o.id = p → o.members[i]? = some m)
    (hMoved : (m'.toList ++ pending').Perm (m.toList ++ pending)) : Inv s' pending' dying := by
  obtain ⟨o, objects, hId, hPerm, rfl⟩ := setMember_eq_some hSet
  have hIds : (s.objects.map Object.id).Perm (o.id :: objects.map Object.id) :=
    hPerm.map Object.id
  have hMem : o ∈ s.objects := hPerm.mem_iff.mpr List.mem_cons_self
  refine ⟨hInv.vars, hIds.nodup hInv.objects, fun k hIn => ?_, ?_⟩
  · rcases List.mem_cons.mp hIn with rfl | hOld
    · exact hInv.older o hMem
    · exact hInv.older k (hPerm.mem_iff.mpr (List.mem_cons_of_mem o hOld))
  · have hHandles : (s.handles pending).Perm (State.handles
        { s with objects := { o with members := o.members.set i m' } :: objects } pending') := by
      refine List.perm_iff_count.mpr fun a => ?_
      have hFlat := List.perm_iff_count.mp (hPerm.flatMap_right Object.handles) a
      have hSlot : (m'.toList ++ o.handles).Perm
          (m.toList ++ Object.handles { o with members := o.members.set i m' }) :=
        handles_set (hAt o hMem hId)
      have hChanged := List.perm_iff_count.mp hSlot a
      have hMoved := List.perm_iff_count.mp hMoved a
      simp only [State.handles, List.flatMap_cons, List.count_append] at hFlat hChanged hMoved ⊢
      omega
    exact (hInv.counts.perm hHandles).congr hIds

end Copies

/-! ## One handle is exchanged -/

/-- There is no handle at the place: it has been taken. -/
def Hole (s : State) : Loc → Prop
  | .var x => x ∉ s.vars.map Prod.fst
  | .member p i => ∀ o ∈ s.objects, o.id = p → o.members[i]? = some none

section Exchange

variable {s s' s₁ t : State} {h k : SharedPtr} {pending : List SharedPtr}
  {dying : List CountId} {x : HandleId} {p : ObjId} {this other : Loc}

theorem Hole.below (hHole : Hole t this) (hVars : s₁.vars = t.vars)
    (hSub : s₁.objects.Sublist t.objects) : Hole s₁ this := by
  cases this with
  | var x => exact fun hMem => hHole (hVars ▸ hMem)
  | member p i => exact fun o hMem => hHole o (hSub.subset hMem)

theorem take_var (hTake : s.take (.var x) = some (h, t)) :
    ∃ vars, s.vars.Perm ((x, h) :: vars) ∧ t = { s with vars := vars } := by
  obtain ⟨⟨v, vars⟩, hExtract, hEq⟩ := Option.map_eq_some_iff.mp hTake
  obtain ⟨rfl, rfl⟩ := Prod.mk.inj hEq
  obtain ⟨hHere, hPerm⟩ := extract_perm hExtract
  obtain rfl : v.1 = x := by simpa using hHere
  exact ⟨vars, hPerm, rfl⟩

theorem take_member {i : Nat} (hTake : s.take (.member p i) = some (h, t)) :
    s.read (.member p i) = some h ∧ s.setMember p i none = some t := by
  obtain ⟨k, hRead, hRest⟩ := Option.bind_eq_some_iff.mp hTake
  obtain ⟨t', hSet, hEq⟩ := Option.map_eq_some_iff.mp hRest
  obtain ⟨rfl, rfl⟩ := Prod.mk.inj hEq
  exact ⟨hRead, hSet⟩

/-- **A handle is taken** and about to be released. -/
theorem Inv.take (hInv : Inv s [] []) (hTake : s.take this = some (h, t)) :
    Inv t (pendingOf [.release h]) (dyingOf [.release h]) ∧ Hole t this := by
  cases this with
  | var x =>
      obtain ⟨vars, hPerm, rfl⟩ := take_var hTake
      obtain ⟨hFresh, hNodup⟩ := List.nodup_cons.mp ((hPerm.map Prod.fst).nodup hInv.vars)
      refine ⟨⟨hNodup, hInv.objects, hInv.older, hInv.counts.perm ?_⟩, hFresh⟩
      show (s.handles []).Perm (State.handles { s with vars := vars } [h])
      simp only [State.handles, List.append_nil]
      exact ((hPerm.map Prod.snd).append_right _).trans (List.perm_append_singleton h _).symm
  | member p i =>
      obtain ⟨hRead, hSet⟩ := take_member hTake
      obtain ⟨o, hMem, hId, hAt⟩ := hInv.read_member.mp hRead
      have hOnly : ∀ o' ∈ s.objects, o'.id = p → o'.members[i]? = some (some h) := by
        intro o' hMem' hId'
        rw [hInv.object_unique hMem' hMem (hId'.trans hId.symm)]
        exact hAt
      have hTaken : Inv t [h] [] := hInv.setMember hSet hOnly (.refl _)
      refine ⟨hTaken, fun o' hMem' hId' => ?_⟩
      obtain ⟨o₁, objects, hId₁, hPerm, rfl⟩ := setMember_eq_some hSet
      have hAt₁ := hOnly o₁ (hPerm.mem_iff.mpr List.mem_cons_self) hId₁
      have hChanged := hTaken.object_unique hMem' List.mem_cons_self (hId'.trans hId₁.symm)
      rw [hChanged]
      show (o₁.members.set i none)[i]? = some none
      rw [List.getElem?_set_self (List.getElem?_eq_some_iff.mp hAt₁).1]

theorem take_counter (hTake : s.take this = some (h, t)) : t.counter = s.counter := by
  cases this with
  | var x =>
      obtain ⟨vars, -, rfl⟩ := take_var hTake
      rfl
  | member p i =>
      obtain ⟨o, objects, -, -, rfl⟩ := setMember_eq_some (take_member hTake).2
      rfl

/-- The other handles stay where they are. -/
theorem Inv.read_taken (hInv : Inv s [] []) (hTake : s.take this = some (h, t))
    (hOther : this ≠ other) (hRead : s.read other = some k) : t.read other = some k := by
  have hTaken := (hInv.take hTake).1
  cases this with
  | var x =>
      obtain ⟨vars, hPerm, rfl⟩ := take_var hTake
      cases other with
      | var y =>
          refine hTaken.read_var.mpr ?_
          have hMem := hPerm.mem_iff.mp (hInv.read_var.mp hRead)
          refine (List.mem_cons.mp hMem).resolve_left ?_
          intro hEq
          exact hOther (congrArg (fun v => Loc.var v.1) hEq.symm)
      | member q j => exact hRead
  | member p i =>
      obtain ⟨o₁, objects, hId₁, hPerm, rfl⟩ := setMember_eq_some (take_member hTake).2
      cases other with
      | var y => exact hRead
      | member q j =>
          obtain ⟨o, hMem, hId, hAt⟩ := hInv.read_member.mp hRead
          refine hTaken.read_member.mpr ?_
          rcases List.mem_cons.mp (hPerm.mem_iff.mp hMem) with rfl | hRest
          · refine ⟨_, List.mem_cons_self, hId, ?_⟩
            have hElse : i ≠ j := by
              rintro rfl
              exact hOther (by rw [← hId₁, ← hId])
            rw [List.getElem?_set_ne hElse]
            exact hAt
          · exact ⟨o, List.mem_cons_of_mem _ hRest, hId, hAt⟩

/-- **The copy** gets to its place. -/
theorem Inv.put (hInv : Inv s [h] []) (hHole : Hole s this) (hPut : s.put this h = some s') :
    Inv s' [] [] := by
  cases this with
  | var x =>
      obtain rfl := Option.some.inj hPut
      refine ⟨List.nodup_cons.mpr ⟨hHole, hInv.vars⟩, hInv.objects, hInv.older, ?_⟩
      refine hInv.counts.perm ?_
      simp only [State.handles, List.map_cons, List.append_nil]
      exact List.perm_append_singleton h _
  | member p i => exact hInv.setMember hPut hHole (.refl _)

/-- What `release` leaves behind it. -/
theorem Inv.released {fuel : Nat} (hInv : Inv s [] []) (hTake : s.take this = some (h, t))
    (hRun : drain fuel t [.release h] = some s₁) :
    Inv s₁ [] [] ∧ Below s₁ t ∧ Hole s₁ this := by
  obtain ⟨hTaken, hHole⟩ := hInv.take hTake
  obtain ⟨hInv₁, hBelow⟩ := drain_inv hTaken hRun
  exact ⟨hInv₁, hBelow, hHole.below hBelow.vars_eq hBelow.objects_sub⟩

/-- A handle is copied to a place that is free. -/
theorem Inv.copyTo (hInv : Inv s [] []) (hHole : Hole s this) (hMem : h ∈ s.handles [])
    (hIncrement : s.increment h = some s₁) (hPut : s₁.put this h = some s') :
    Inv s' [] [] := by
  obtain ⟨hInv₁, hVars, hObjects, -⟩ := hInv.copy hMem hIncrement
  exact hInv₁.put (hHole.below hVars (hObjects ▸ .refl _)) hPut

/-- **Every operation** keeps the counts. -/
theorem Inv.step {a : Action} (hInv : Inv s [] []) (hStep : step s a = some s') :
    Inv s' [] [] := by
  obtain ⟨op, fuel⟩ := a
  cases op with
  | make x args =>
      obtain ⟨hFresh, hRun⟩ := Option.ite_none_left_eq_some.mp hStep
      obtain ⟨⟨hs, s₁⟩, hCopies, rfl⟩ := Option.map_eq_some_iff.mp hRun
      obtain ⟨hInv₁, hVars, -, -⟩ := hInv.copyAll hCopies
      rw [List.append_nil] at hInv₁
      exact hInv₁.make (hVars ▸ hFresh)
  | ctorCopy x other =>
      obtain ⟨hFresh, hRun⟩ := Option.ite_none_left_eq_some.mp hStep
      obtain ⟨h, hRead, hCopy⟩ := Option.bind_eq_some_iff.mp hRun
      obtain ⟨s₁, hShare, hPut⟩ := Option.bind_eq_some_iff.mp hCopy
      have hMem := hInv.mem_handles_of_read hRead
      have hHole : Hole s (.var x) := hFresh
      exact hInv.copyTo hHole hMem (hInv.share_eq hMem ▸ hShare) hPut
  | assign this other =>
      by_cases hSame : this = other
      · simp only [Nodes.step, exec, if_pos hSame] at hStep
        obtain ⟨-, -, rfl⟩ := Option.map_eq_some_iff.mp hStep
        exact hInv
      · simp only [Nodes.step, exec, if_neg hSame] at hStep
        obtain ⟨⟨old, t⟩, hTake, hRun⟩ := Option.bind_eq_some_iff.mp hStep
        obtain ⟨s₁, hDrain, hRun⟩ := Option.bind_eq_some_iff.mp hRun
        obtain ⟨h, hRead, hRun⟩ := Option.bind_eq_some_iff.mp hRun
        obtain ⟨s₂, hIncrement, hPut⟩ := Option.bind_eq_some_iff.mp hRun
        obtain ⟨hInv₁, -, hHole⟩ := hInv.released hTake hDrain
        exact hInv₁.copyTo hHole (hInv₁.mem_handles_of_read hRead) hIncrement hPut
  | dtor x =>
      obtain ⟨⟨old, t⟩, hTake, hDrain⟩ := Option.bind_eq_some_iff.mp hStep
      exact (hInv.released hTake hDrain).1

theorem inv_reach (hRun : Reachable Nodes.step .init s) : Inv s [] [] :=
  hRun.invariant (P := fun s => Inv s [] []) inv_init fun _ _ _ hInv _ hStep => hInv.step hStep

end Exchange

section Runs

variable {s s' s₁ t : State} {old h : SharedPtr} {pending : List SharedPtr}
  {dying : List CountId} {x : HandleId} {p q : ObjId} {this other : Loc}

theorem Inv.live_of_leads (hInv : Inv s pending dying) (hLeads : Leads s q p) :
    p ∈ s.objects.map Object.id := by
  obtain ⟨o, hMem, -, h, hHandle, rfl⟩ := hLeads
  exact (hInv.counts.managed h (mem_handles.mpr (.inr (.inl ⟨o, hMem, hHandle⟩)))).2

theorem Inv.live_of_reached (hInv : Inv s pending dying) (hReached : Reached s p) :
    p ∈ s.objects.map Object.id := by
  obtain ⟨v, hVar, hWay⟩ := hReached
  rcases hWay.cases_tail with hEq | ⟨q, -, hLeads⟩
  · rw [hEq]
    exact (hInv.counts.managed v.2 (mem_handles.mpr (.inl ⟨v, hVar, rfl⟩))).2
  · exact hInv.live_of_leads hLeads

/-- On a circle everybody has somebody in front. -/
theorem BehindCircle.exists_leads (hBehind : BehindCircle s p) :
    ∃ q, BehindCircle s q ∧ Leads s q p := by
  obtain ⟨c, hCircle, hWay⟩ := hBehind
  rcases hWay.cases_tail with rfl | ⟨q, hBefore, hLeads⟩
  · obtain ⟨q, hBefore, hLeads⟩ := TransGen.tail'_iff.mp hCircle
    exact ⟨q, ⟨p, hCircle, hBefore⟩, hLeads⟩
  · exact ⟨q, ⟨c, hCircle, hBefore⟩, hLeads⟩

theorem Reached.next (hReached : Reached s q) (hLeads : Leads s q p) : Reached s p := by
  obtain ⟨v, hVar, hWay⟩ := hReached
  exact ⟨v, hVar, hWay.tail hLeads⟩

/-- Every live object is held. -/
theorem Inv.held (hInv : Inv s [] []) (hLive : p ∈ s.objects.map Object.id) :
    (∃ v ∈ s.vars, v.2.ptr = p) ∨ ∃ q ∈ s.objects.map Object.id, Leads s q p := by
  obtain ⟨h, hMem, hPtr⟩ := List.countP_pos_iff.mp (hInv.counts.counted p hLive).2.1
  have hPtr : h.ptr = p := by simpa using hPtr
  rcases mem_handles.mp hMem with ⟨v, hVar, rfl⟩ | ⟨o, hObject, hHandle⟩ | hIn
  · exact .inl ⟨v, hVar, hPtr⟩
  · exact .inr ⟨o.id, List.mem_map_of_mem hObject, o, hObject, rfl, h, hHandle, hPtr⟩
  · simp at hIn

/-- **Counting keeps what can be reached, and circles.**  Who holds an object that cannot
be reached cannot be reached either, and there are finitely many of them. -/
theorem Inv.live_iff (hInv : Inv s [] []) :
    p ∈ s.objects.map Object.id ↔ Reached s p ∨ BehindCircle s p := by
  classical
  constructor
  · intro hLive
    by_cases hReached : Reached s p
    · exact .inl hReached
    · have hLost : p ∈ (s.objects.map Object.id).toFinset.filter fun q => ¬ Reached s q :=
        Finset.mem_filter.mpr ⟨List.mem_toFinset.mpr hLive, hReached⟩
      refine .inr (Circles.behind_circle (fun a hMem => ?_) hLost)
      obtain ⟨hLive, hLost⟩ := Finset.mem_filter.mp hMem
      rcases hInv.held (List.mem_toFinset.mp hLive) with ⟨v, hVar, rfl⟩ | ⟨q, hKeeper, hLeads⟩
      · exact absurd ⟨v, hVar, .refl⟩ hLost
      · refine ⟨q, Finset.mem_filter.mpr ⟨List.mem_toFinset.mpr hKeeper, ?_⟩, hLeads⟩
        exact fun hBefore => hLost (hBefore.next hLeads)
  · rintro (hReached | hBehind)
    · exact hInv.live_of_reached hReached
    · obtain ⟨q, -, hLeads⟩ := hBehind.exists_leads
      exact hInv.live_of_leads hLeads

/-- What can be reached and the circles support themselves. -/
theorem Inv.supported (hInv : Inv s pending dying) :
    Supported s fun p => Reached s p ∨ BehindCircle s p := by
  constructor
  · rintro p (hReached | hBehind)
    · exact hInv.live_of_reached hReached
    · obtain ⟨q, -, hLeads⟩ := hBehind.exists_leads
      exact hInv.live_of_leads hLeads
  · rintro p (⟨v, hVar, hWay⟩ | hBehind)
    · rcases hWay.cases_tail with hEq | ⟨q, hBefore, o, hMem, rfl, hHandle⟩
      · exact .inl ⟨v, hVar, hEq.symm⟩
      · exact .inr ⟨o, hMem, .inl ⟨v, hVar, hBefore⟩, hHandle⟩
    · obtain ⟨q, hBefore, o, hMem, rfl, hHandle⟩ := hBehind.exists_leads
      exact .inr ⟨o, hMem, .inr hBefore, hHandle⟩

/-- **A release deletes what is neither reached nor behind a circle** without the handle. -/
theorem Below.live_iff (hBelow : Below s₁ t) (hInv : Inv t pending dying)
    (hInv₁ : Inv s₁ [] []) :
    p ∈ s₁.objects.map Object.id ↔ Reached t p ∨ BehindCircle t p := by
  have hLeads : ∀ a b, Leads s₁ a b → Leads t a b := by
    rintro a b ⟨o, hMem, hLeads⟩
    exact ⟨o, hBelow.objects_sub.subset hMem, hLeads⟩
  constructor
  · intro hLive
    rcases hInv₁.live_iff.mp hLive with ⟨v, hVar, hWay⟩ | ⟨c, hCircle, hWay⟩
    · exact .inl ⟨v, hBelow.vars_eq ▸ hVar, ReflTransGen.mono hLeads _ _ hWay⟩
    · exact .inr ⟨c, TransGen.mono hLeads _ _ hCircle, ReflTransGen.mono hLeads _ _ hWay⟩
  · exact (hBelow.supported _ hInv.supported).live p

theorem exists_take (hDeclared : x ∈ s.vars.map Prod.fst) :
    ∃ r, s.take (.var x) = some r := by
  obtain ⟨v, hMem, hName⟩ := List.mem_map.mp hDeclared
  obtain ⟨w, vars, hExtract⟩ :=
    exists_extract (p := fun v : HandleId × SharedPtr => v.1 = x) hMem (by simpa using hName)
  exact ⟨_, Option.map_eq_some_iff.mpr ⟨_, hExtract, rfl⟩⟩

/-- **Nodes live as long as they can be reached, or for ever.**  In every run the live
objects are those that the variables or circles of handles lead to, every counter is the
number of handles, no counter outlives its object, every destructor of a variable comes
to an end, and without a circle nothing is left when the last variable is gone. -/
theorem nodes_alive_exactly (hRun : Reachable Nodes.step .init s) :
    (∀ p, p ∈ s.objects.map Object.id ↔ Reached s p ∨ BehindCircle s p) ∧
    (∀ p ∈ s.objects.map Object.id,
      s.counter p = some (managing p (s.handles []) : Int)) ∧
    (∀ c, s.counter c ≠ none → c ∈ s.objects.map Object.id) ∧
    (∀ x ∈ s.vars.map Prod.fst, ∃ fuel s', Nodes.step s (.dtor x, fuel) = some s') ∧
    (s.vars = [] → (∀ p, ¬ TransGen (Leads s) p p) →
      s.objects = [] ∧ ∀ c, s.counter c = none) := by
  have hInv := inv_reach hRun
  have hCounters : ∀ c, s.counter c ≠ none → c ∈ s.objects.map Object.id := fun c hLive =>
    (hInv.counts.only c hLive).resolve_right (by simp)
  refine ⟨fun p => hInv.live_iff, fun p hMem => (hInv.counts.counted p hMem).1,
    hCounters, fun x hDeclared => ?_, fun hNone hNoCircle => ?_⟩
  · obtain ⟨⟨old, t⟩, hTake⟩ := exists_take hDeclared
    obtain ⟨fuel, s', hDrain⟩ := drain_returns (hInv.take hTake).1
    exact ⟨fuel, s', Option.bind_eq_some_iff.mpr ⟨(old, t), hTake, hDrain⟩⟩
  · have hDead : ∀ p, p ∉ s.objects.map Object.id := by
      intro p hLive
      rcases hInv.live_iff.mp hLive with ⟨v, hVar, -⟩ | ⟨c, hCircle, -⟩
      · simp [hNone] at hVar
      · exact hNoCircle c hCircle
    refine ⟨List.map_eq_nil_iff.mp (List.eq_nil_iff_forall_not_mem.mpr hDead), fun c => ?_⟩
    by_contra hLive
    exact hDead c (hCounters c hLive)

/-- A node whose handle of another one is set to itself. -/
def selfHeld : List Action :=
  [(.make 0 [], 0), (.make 1 [.var 0], 0), (.assign (.member 1 0) (.var 1), 1), (.dtor 0, 2),
    (.dtor 1, 1)]

theorem nodes_alive_exactly_selfHeld :
    ∃ s, Reachable Nodes.step .init s ∧ s.vars = [] ∧ BehindCircle s 1 := by
  have hRun : (run Nodes.step .init selfHeld).map (fun s => decide
      (s.vars = [] ∧ s.objects.map Object.id = [1])) = some true := by
    decide
  obtain ⟨s, hReach, hTest⟩ := exists_reachable_of_run hRun
  obtain ⟨hVars, hObjects⟩ := of_decide_eq_true hTest
  obtain ⟨hAlive, -⟩ := nodes_alive_exactly hReach
  have hKept := (hAlive 1).mp (by simp [hObjects])
  refine ⟨s, hReach, hVars, hKept.resolve_left ?_⟩
  rintro ⟨v, hVar, -⟩
  simp [hVars] at hVar

/-- The place is there when the old object has been released: it is a variable, or in an
object that stays. -/
def Loc.Stays (t : State) : Loc → Prop
  | .var _ => True
  | .member p _ => Reached t p ∨ BehindCircle t p

theorem Below.put_iff (hBelow : Below s₁ t) (hInv : Inv t pending dying)
    (hInv₁ : Inv s₁ [] []) (hObjects : s'.objects = s₁.objects) :
    (s'.put this h).isSome ↔ this.Stays t := by
  cases this with
  | var x => exact iff_of_true rfl trivial
  | member p i =>
      have hThere : (s'.put (.member p i) h).isSome ↔ p ∈ s₁.objects.map Object.id := by
        constructor
        · intro hSome
          obtain ⟨t', hSet⟩ := Option.isSome_iff_exists.mp hSome
          obtain ⟨o, objects, rfl, hPerm, -⟩ := setMember_eq_some hSet
          rw [← hObjects]
          exact List.mem_map_of_mem (hPerm.mem_iff.mpr List.mem_cons_self)
        · intro hLive
          exact Option.isSome_iff_exists.mpr (exists_setMember (hObjects ▸ hLive))
      exact hThere.trans (hBelow.live_iff hInv hInv₁)

/-- What is read behind the release is what was read before. -/
theorem Below.read_iff (hBelow : Below s₁ t) (hInv : Inv t pending dying)
    (hInv₁ : Inv s₁ [] []) (hRead : t.read other = some h) :
    (other.Stays t → s₁.read other = some h) ∧ (s₁.read other ≠ none → other.Stays t) := by
  cases other with
  | var y =>
      refine ⟨fun _ => hInv₁.read_var.mpr ?_, fun _ => trivial⟩
      exact hBelow.vars_eq ▸ hInv.read_var.mp hRead
  | member p i =>
      have hBehind := hBelow.live_iff (p := p) hInv hInv₁
      refine ⟨fun hStays => ?_, fun hThere => hBehind.mp ?_⟩
      · obtain ⟨o, hMem, hId, hMember⟩ := hInv.read_member.mp hRead
        obtain ⟨o', hMem', hId'⟩ := List.mem_map.mp (hBehind.mpr hStays)
        obtain rfl := hInv.object_unique (hBelow.objects_sub.subset hMem') hMem
          (hId'.trans hId.symm)
        exact hInv₁.read_member.mpr ⟨o', hMem', hId', hMember⟩
      · obtain ⟨k, hNow⟩ := Option.ne_none_iff_exists'.mp hThere
        obtain ⟨o, hMem, rfl, -⟩ := hInv₁.read_member.mp hNow
        exact List.mem_map_of_mem hMem

/-- Fewer variables and objects have no more handles. -/
theorem managing_le (hVars : s₁.vars = t.vars) (hSub : s₁.objects.Sublist t.objects) :
    managing p (s₁.handles []) ≤ managing p (t.handles [old]) := by
  have hMembers := hSub.flatMap Object.handles
  simp only [State.handles, hVars]
  exact (((List.Sublist.refl _).append hMembers).append (List.nil_sublist _)).countP_le

/-- **`operator=`** with room in the counter: it is defined and comes to an end exactly if
neither the handle nor its argument goes with the old object.  `head = head->next` is not
defined, unless somebody else holds the node. -/
theorem assign_defined_exactly (hRun : Reachable Nodes.step .init s)
    (hTake : s.take this = some (old, t)) (hOther : this ≠ other)
    (hRead : s.read other = some h) (hRoom : s.counter h.ptr ≠ some (2 ^ 31 - 1)) :
    (∃ fuel s', Nodes.step s (.assign this other, fuel) = some s') ↔
      this.Stays t ∧ other.Stays t := by
  have hInv := inv_reach hRun
  obtain ⟨hTaken, -⟩ := hInv.take hTake
  have hBefore := hInv.read_taken hTake hOther hRead
  constructor
  · rintro ⟨fuel, s', hDone⟩
    simp only [Nodes.step, exec, if_neg hOther, hTake, Option.bind_some] at hDone
    obtain ⟨s₁, hDrain, hRest⟩ := Option.bind_eq_some_iff.mp hDone
    obtain ⟨k, hNow, hRest⟩ := Option.bind_eq_some_iff.mp hRest
    obtain ⟨s₂, hIncrement, hPut⟩ := Option.bind_eq_some_iff.mp hRest
    obtain ⟨hInv₁, hBelow, -⟩ := hInv.released hTake hDrain
    have hSame := (hInv₁.copy (hInv₁.mem_handles_of_read hNow) hIncrement).2
    refine ⟨(hBelow.put_iff hTaken hInv₁ hSame.objects_eq).mp (by rw [hPut]; rfl), ?_⟩
    refine (hBelow.read_iff hTaken hInv₁ hBefore).2 ?_
    rw [hNow]
    exact Option.some_ne_none _
  · rintro ⟨hThis, hArgument⟩
    obtain ⟨fuel, s₁, hDrain⟩ := drain_returns hTaken
    obtain ⟨hInv₁, hBelow, -⟩ := hInv.released hTake hDrain
    have hNow := (hBelow.read_iff hTaken hInv₁ hBefore).1 hArgument
    have hMem := hInv₁.mem_handles_of_read hNow
    have hFew : managing h.ptr (s₁.handles []) + 1 < 2 ^ 31 := by
      have hLe : managing h.ptr (s₁.handles []) ≤ managing h.ptr (t.handles [old]) :=
        managing_le hBelow.vars_eq hBelow.objects_sub
      have hLive := (hTaken.counts.managed h (hTaken.mem_handles_of_read hBefore)).2
      have hCounter : t.counter h.ptr = some (managing h.ptr (t.handles [old]) : Int) :=
        (hTaken.counts.counted h.ptr hLive).1
      have hBound : managing h.ptr (t.handles [old]) < 2 ^ 31 :=
        (hTaken.counts.counted h.ptr hLive).2.2
      rw [← take_counter hTake, hCounter, ne_eq, Option.some.injEq] at hRoom
      omega
    have hIncrement := (hInv₁.increment_eq hMem).trans (if_pos hFew)
    have hSame := (hInv₁.copy hMem hIncrement).2
    have hPut := (hBelow.put_iff (h := h) hTaken hInv₁ hSame.objects_eq).mpr hThis
    refine ⟨fuel, Option.isSome_iff_exists.mp ?_⟩
    simp only [Nodes.step, exec, if_neg hOther, hTake, Option.bind_some, hDrain, hNow, hIncrement]
    exact hPut

/-- A list of two nodes that one variable holds. -/
def listOfTwo : List Action :=
  [(.make 0 [], 0), (.make 1 [.var 0], 0), (.dtor 0, 1)]

/-- `head = head->next` for a list that nobody else holds. -/
theorem assign_defined_exactly_headNext :
    ∃ s, Reachable Nodes.step .init s ∧ s.read (.var 1) ≠ none ∧ s.read (.member 1 0) ≠ none ∧
      ¬ ∃ fuel s', Nodes.step s (.assign (.var 1) (.member 1 0), fuel) = some s' := by
  have hRun : (run Nodes.step .init listOfTwo).map (fun s => decide
      (s.vars = [(1, ⟨1, some 1⟩)] ∧ s.objects = [⟨1, [some ⟨0, some 0⟩]⟩, ⟨0, []⟩] ∧
        s.read (.var 1) = some ⟨1, some 1⟩ ∧ s.read (.member 1 0) = some ⟨0, some 0⟩ ∧
        s.counter 0 = some 1)) = some true := by
    decide
  obtain ⟨s, hReach, hTest⟩ := exists_reachable_of_run hRun
  obtain ⟨hVars, hObjects, hHead, hNext, hCounter⟩ := of_decide_eq_true hTest
  have hTake : s.take (.var 1) = some (⟨1, some 1⟩, { s with vars := [] }) := by
    simp [State.take, hVars, extract]
  have hExactly := assign_defined_exactly hReach hTake (by decide) hNext (by simp [hCounter])
  refine ⟨s, hReach, by simp [hHead], by simp [hNext], fun hDone => ?_⟩
  have hLink : ∀ q p, Leads { s with vars := [] } q p → q = 1 ∧ p = 0 := by
    rintro q p ⟨o, hMem, rfl, h, hHandle, rfl⟩
    have hMem : o ∈ s.objects := hMem
    rw [hObjects] at hMem
    simp only [List.mem_cons, List.not_mem_nil, or_false] at hMem
    rcases hMem with rfl | rfl
    · obtain rfl : h = ⟨0, some 0⟩ := by simpa [Object.handles] using hHandle
      exact ⟨rfl, rfl⟩
    · simp [Object.handles] at hHandle
  rcases (hExactly.mp hDone).2 with ⟨v, hVar, -⟩ | ⟨c, hCircle, -⟩
  · simp at hVar
  · obtain ⟨a, hFirst, -⟩ := TransGen.head'_iff.mp hCircle
    obtain ⟨b, -, hLast⟩ := TransGen.tail'_iff.mp hCircle
    exact absurd ((hLink c a hFirst).1.symm.trans (hLink b c hLast).2) (by decide)

end Runs

end Nodes
end SimpleSharedPtr
end LinuxCppLearn
