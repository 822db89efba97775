import Mathlib.Data.List.Perm.Basic
import Mathlib.Data.List.Nodup

/-!
# Every live object has one owner

`owned` lists the objects by their owners, in any order, and `live` lists the
objects that exist.  `OwnedOnce owned live` says that the two agree and that no
object is listed by two owners.  Handing an object on permutes `owned`; creating
and destroying one changes both lists.
-/

variable {α : Type*} {owned owned' live : List α} {x : α}

structure OwnedOnce (owned live : List α) : Prop where
  nodup : owned.Nodup
  mem_iff : ∀ x, x ∈ live ↔ x ∈ owned

namespace OwnedOnce

theorem nil : OwnedOnce ([] : List α) [] := ⟨List.nodup_nil, fun _ => Iff.rfl⟩

/-- Objects change owners. -/
theorem perm (h : OwnedOnce owned live) (hPerm : owned'.Perm owned) : OwnedOnce owned' live where
  nodup := hPerm.nodup_iff.mpr h.nodup
  mem_iff x := by rw [h.mem_iff, hPerm.mem_iff]

/-- A new object gets an owner. -/
theorem create (h : OwnedOnce owned live) (hNew : x ∉ live)
    (hPerm : owned'.Perm (x :: owned)) : OwnedOnce owned' (x :: live) where
  nodup := by
    have hOut : x ∉ owned := fun hMem => hNew ((h.mem_iff x).mpr hMem)
    exact hPerm.nodup_iff.mpr (List.nodup_cons.mpr ⟨hOut, h.nodup⟩)
  mem_iff y := by
    rw [hPerm.mem_iff, List.mem_cons, List.mem_cons, h.mem_iff]

/-- The objects of `dead` are destroyed and leave their owners. -/
theorem destroy [DecidableEq α] {dead : List α} (h : OwnedOnce owned live)
    (hPerm : owned.Perm (dead ++ owned')) :
    OwnedOnce owned' (live.filter (· ∉ dead)) := by
  have hNodup := hPerm.nodup_iff.mp h.nodup
  rw [List.nodup_append] at hNodup
  refine ⟨hNodup.2.1, fun y => ?_⟩
  rw [List.mem_filter, h.mem_iff, hPerm.mem_iff, List.mem_append, decide_eq_true_iff]
  constructor
  · rintro ⟨hDead | hMem, hAlive⟩
    · exact absurd hDead hAlive
    · exact hMem
  · intro hMem
    exact ⟨.inr hMem, fun hDead => hNodup.2.2 y hDead y hMem rfl⟩

theorem remove [DecidableEq α] (h : OwnedOnce owned live) (hPerm : owned.Perm (x :: owned')) :
    OwnedOnce owned' (live.filter (· ≠ x)) := by
  have hDestroy := h.destroy (show owned.Perm ([x] ++ owned') from hPerm)
  simpa using hDestroy

/-- Nobody owns anything, so nothing exists. -/
theorem live_eq_nil (h : OwnedOnce [] live) : live = [] :=
  List.eq_nil_iff_forall_not_mem.mpr fun x hMem => List.not_mem_nil ((h.mem_iff x).mp hMem)

end OwnedOnce
