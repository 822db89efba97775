import Mathlib.Data.List.Basic
import Mathlib.Data.List.Nodup
import Mathlib.Data.List.Pairwise
import Mathlib.Data.List.Perm.Basic

/-!
# Live regions of an address space

What a memory allocator has handed out and not got back: regions which never
overlap, are never empty, do not start at address 0 and stay below `top`.
`LiveRegions` carries these facts, so that they need no proof for the states of
a program which only inserts what `Fits` and erases by the base address.

* `Region.Apart`, `Region.Within` — regions that do not overlap, and their parts.
* `LiveRegions.bases_nodup` — a base address identifies a live region.
* `LiveRegions.eq_of_meet` — two live regions with a common address are equal.
* `LiveRegions.bases_erase`, `LiveRegions.mem_erase` — what is left when a
  region is taken back.
-/

namespace Regions

/-- `len` bytes from the address `base` on. -/
structure Region where
  base : Nat
  len : Nat
deriving DecidableEq, Repr

/-- One of the regions ends before the other begins. -/
def Region.Apart (r r' : Region) : Prop :=
  r.base + r.len ≤ r'.base ∨ r'.base + r'.len ≤ r.base

instance (r r' : Region) : Decidable (r.Apart r') :=
  inferInstanceAs (Decidable (_ ∨ _))

instance : Std.Symm Region.Apart where
  symm _ _ h := Or.symm h

/-- Part of a region. -/
def Region.Within (r r' : Region) : Prop :=
  r'.base ≤ r.base ∧ r.base + r.len ≤ r'.base + r'.len

theorem Region.Within.refl (r : Region) : r.Within r :=
  ⟨Nat.le_refl _, Nat.le_refl _⟩

/-- Parts of regions that lie apart lie apart. -/
theorem Region.Apart.mono {r r' part part' : Region} (h : r.Apart r') (hPart : part.Within r)
    (hPart' : part'.Within r') : part.Apart part' := by
  obtain ⟨hLow, hHigh⟩ := hPart
  obtain ⟨hLow', hHigh'⟩ := hPart'
  rcases h with hBefore | hAfter
  · exact .inl (by omega)
  · exact .inr (by omega)

/-- The regions handed out and not given back. -/
structure LiveRegions (top : Nat) where
  regions : List Region
  apart : regions.Pairwise Region.Apart
  inside : ∀ r ∈ regions, 0 < r.base ∧ 0 < r.len ∧ r.base + r.len ≤ top

namespace LiveRegions

variable {top : Nat} {live : LiveRegions top} {r r' : Region} {b x : Nat}

/-- Nothing is handed out. -/
def empty (top : Nat) : LiveRegions top where
  regions := []
  apart := List.Pairwise.nil
  inside := by simp

/-- The region may be handed out next. -/
def Fits (live : LiveRegions top) (r : Region) : Prop :=
  (0 < r.base ∧ 0 < r.len ∧ r.base + r.len ≤ top) ∧ ∀ r' ∈ live.regions, r.Apart r'

instance (live : LiveRegions top) (r : Region) : Decidable (live.Fits r) :=
  inferInstanceAs (Decidable (_ ∧ _))

/-- Hand out a region. -/
def insert (live : LiveRegions top) (r : Region) (h : live.Fits r) : LiveRegions top where
  regions := r :: live.regions
  apart := List.pairwise_cons.mpr ⟨h.2, live.apart⟩
  inside := List.forall_mem_cons.mpr ⟨h.1, live.inside⟩

/-- Take back the region that starts at `b`. -/
def erase (live : LiveRegions top) (b : Nat) : LiveRegions top where
  regions := live.regions.eraseP fun r => r.base == b
  apart := live.apart.sublist List.eraseP_sublist
  inside := fun r hMem => live.inside r (List.mem_of_mem_eraseP hMem)

/-- The start addresses of the live regions. -/
def bases (live : LiveRegions top) : List Nat :=
  live.regions.map Region.base

theorem bases_erase : (live.erase b).bases = live.bases.erase b := by
  show (live.regions.eraseP _).map Region.base = _
  rw [bases, List.erase_eq_eraseP', List.eraseP_map]
  rfl

/-- Taking back one region leaves the others. -/
theorem mem_erase (hMem : r ∈ live.regions) (hNe : r.base ≠ b) :
    r ∈ (live.erase b).regions := by
  show r ∈ live.regions.eraseP _
  rw [List.mem_eraseP_of_neg (by simpa using hNe)]
  exact hMem

/-- Two live regions with a common address are one. -/
theorem eq_of_meet (hMem : r ∈ live.regions) (hMem' : r' ∈ live.regions)
    (hLow : r.base ≤ x) (hHigh : x < r.base + r.len)
    (hLow' : r'.base ≤ x) (hHigh' : x < r'.base + r'.len) : r = r' := by
  by_contra hNe
  have hApart : r.Apart r' := live.apart.forall hMem hMem' hNe
  rcases hApart with hBefore | hAfter <;> omega

theorem bases_nodup (live : LiveRegions top) : live.bases.Nodup := by
  rw [bases, List.Nodup, List.pairwise_map]
  refine live.apart.imp_of_mem ?_
  intro r r' hMem hMem' hApart hSame
  have hPos := (live.inside r hMem).2.1
  have hPos' := (live.inside r' hMem').2.1
  rcases hApart with hBefore | hAfter <;> omega

end LiveRegions
end Regions
