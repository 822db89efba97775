import LinuxCppLearn.Library.LiveRegions
import Mathlib.Algebra.Group.Nat.Defs
import Mathlib.Data.UInt

/-!
# Memory as bytes

A memory has one byte at every address, and numbers are kept in it with the low
byte first.  Two structures that overlap are therefore no problem of the model:
a write into one of them is a write into the other.

* `load`, `store`, `fill` — numbers of `n` bytes, and `memset`.
* `load_store_same` — a number that fits is read back.
* `SameOutside` — two memories which agree outside a region, and what can be
  read from both with the same result.
* `SameIn` — two memories which agree in a region, and that the same write into
  both makes them agree where it went.
-/

namespace ByteMemory

open Regions

/-- The byte at each address. -/
abbrev Memory := Nat → UInt8

variable {mem mem' mem'' : Memory} {a n v : Nat} {r r' : Region}

/-- The number in the `n` bytes from `a` on. -/
def load (mem : Memory) (a : Nat) : Nat → Nat
  | 0 => 0
  | n + 1 => (mem a).toNat + 256 * load mem (a + 1) n

/-- The byte number `i` of `v`, from the low end. -/
def byteOf (v i : Nat) : UInt8 := UInt8.ofNat (v / 256 ^ i)

/-- Write the low `n` bytes of `v` from `a` on. -/
def store (mem : Memory) (a n v : Nat) : Memory :=
  fun x => if a ≤ x ∧ x < a + n then byteOf v (x - a) else mem x

/-- Write `b` into the `n` bytes from `a` on. -/
def fill (mem : Memory) (a n : Nat) (b : UInt8) : Memory :=
  fun x => if a ≤ x ∧ x < a + n then b else mem x

/-- Only the bytes read matter. -/
theorem load_congr (h : ∀ x, a ≤ x → x < a + n → mem' x = mem x) :
    load mem' a n = load mem a n := by
  induction n generalizing a with
  | zero => rfl
  | succ n ih =>
      have hFirst : mem' a = mem a := h a (Nat.le_refl a) (by omega)
      have hRest : load mem' (a + 1) n = load mem (a + 1) n :=
        ih fun x hLow hHigh => h x (by omega) (by omega)
      unfold load
      rw [hFirst, hRest]

theorem load_lt (mem : Memory) (a n : Nat) : load mem a n < 256 ^ n := by
  induction n generalizing a with
  | zero => exact Nat.one_pos
  | succ n ih =>
      have hByte : (mem a).toNat < 256 := (mem a).toNat_lt
      have hRest := ih (a + 1)
      unfold load
      rw [Nat.pow_succ]
      omega

/-- The low byte, and the others as the bytes of the quotient. -/
theorem byteOf_zero (v : Nat) : (byteOf v 0).toNat = v % 256 := by
  simp [byteOf]

theorem byteOf_succ (v i : Nat) : byteOf v (i + 1) = byteOf (v / 256) i := by
  unfold byteOf
  rw [Nat.pow_succ', Nat.div_div_eq_div_mul]

theorem load_store_same : load (store mem a n v) a n = v % 256 ^ n := by
  induction n generalizing a v mem with
  | zero => simp [load, Nat.mod_one]
  | succ n ih =>
      have hFirst : store mem a (n + 1) v a = byteOf v 0 := by
        simp [store]
      have hRest : load (store mem a (n + 1) v) (a + 1) n =
          load (store mem (a + 1) n (v / 256)) (a + 1) n := by
        apply load_congr
        intro x hLow hHigh
        obtain ⟨i, rfl⟩ : ∃ i, x = a + 1 + i := ⟨x - (a + 1), by omega⟩
        have hIndex : a + 1 + i - a = i + 1 := by omega
        have hIndex' : a + 1 + i - (a + 1) = i := by omega
        unfold store
        rw [if_pos (by omega), if_pos (by omega), hIndex, hIndex', byteOf_succ]
      unfold load
      rw [hFirst, hRest, ih, byteOf_zero, Nat.pow_succ']
      exact (Nat.mod_mul).symm

theorem load_store (h : v < 256 ^ n) : load (store mem a n v) a n = v := by
  rw [load_store_same, Nat.mod_eq_of_lt h]

/-- A number determines its bytes. -/
theorem byte_eq_of_load_eq (h : load mem' a n = load mem a n) {x : Nat} (hLow : a ≤ x)
    (hHigh : x < a + n) : mem' x = mem x := by
  induction n generalizing a with
  | zero => omega
  | succ n ih =>
      have hByte : (mem a).toNat < 256 := (mem a).toNat_lt
      have hByte' : (mem' a).toNat < 256 := (mem' a).toNat_lt
      unfold load at h
      by_cases hHere : x = a
      · subst hHere
        exact UInt8.toNat_inj.mp (by omega)
      · exact ih (a := a + 1) (by omega) (by omega) (by omega)

-- a comparison of two states need not look into the bytes
attribute [irreducible] load

/-! ## Writes into a region -/

/-- The two memories differ in the region at most. -/
def SameOutside (mem mem' : Memory) (r : Region) : Prop :=
  ∀ x, x < r.base ∨ r.base + r.len ≤ x → mem' x = mem x

theorem SameOutside.refl (mem : Memory) (r : Region) : SameOutside mem mem r :=
  fun _ _ => rfl

theorem SameOutside.trans (h : SameOutside mem mem' r) (h' : SameOutside mem' mem'' r) :
    SameOutside mem mem'' r :=
  fun x hOut => (h' x hOut).trans (h x hOut)

/-- A larger region leaves less outside. -/
theorem SameOutside.mono (h : SameOutside mem mem' r) (hPart : r.Within r') :
    SameOutside mem mem' r' := by
  intro x hOut
  obtain ⟨hLow, hHigh⟩ := hPart
  exact h x (by omega)

theorem store_sameOutside : SameOutside mem (store mem a n v) ⟨a, n⟩ := by
  intro x hOut
  exact if_neg (by simp only at hOut; omega)

theorem fill_sameOutside {b : UInt8} : SameOutside mem (fill mem a n b) ⟨a, n⟩ := by
  intro x hOut
  exact if_neg (by simp only at hOut; omega)

/-- What lies apart from the region is read as before. -/
theorem SameOutside.load_eq (h : SameOutside mem mem' r) (hApart : r.Apart ⟨a, n⟩) :
    load mem' a n = load mem a n := by
  apply load_congr
  intro x hLow hHigh
  apply h
  rcases hApart with hBefore | hAfter
  · exact .inr (by simp only at hBefore; omega)
  · exact .inl (by simp only at hAfter; omega)

/-- A field of a structure that lies apart from the region. -/
theorem SameOutside.load_field {k len : Nat} (h : SameOutside mem mem' r)
    (hApart : r.Apart ⟨a, len⟩) (hIn : k + n ≤ len) :
    load mem' (a + k) n = load mem (a + k) n := by
  apply h.load_eq
  refine hApart.mono (Region.Within.refl r) ⟨Nat.le_add_right a k, ?_⟩
  show a + k + n ≤ a + len
  omega

/-! ## The same write into two memories -/

/-- The two memories agree in the region. -/
def SameIn (mem mem' : Memory) (r : Region) : Prop :=
  ∀ x, r.base ≤ x → x < r.base + r.len → mem' x = mem x

theorem SameIn.load_field {k len : Nat} (h : SameIn mem mem' ⟨a, len⟩) (hIn : k + n ≤ len) :
    load mem' (a + k) n = load mem (a + k) n := by
  apply load_congr
  intro x hLow hHigh
  exact h x (by simp only; omega) (by simp only; omega)

theorem sameIn_of_load_eq (h : load mem' a n = load mem a n) : SameIn mem mem' ⟨a, n⟩ :=
  fun _ hLow hHigh => byte_eq_of_load_eq h hLow hHigh

theorem SameIn.store (h : SameIn mem mem' r) (a n v : Nat) :
    SameIn (store mem a n v) (ByteMemory.store mem' a n v) r := by
  intro x hLow hHigh
  unfold ByteMemory.store
  split
  · rfl
  · exact h x hLow hHigh

theorem SameIn.fill (h : SameIn mem mem' r) (a n : Nat) (b : UInt8) :
    SameIn (fill mem a n b) (ByteMemory.fill mem' a n b) r := by
  intro x hLow hHigh
  unfold ByteMemory.fill
  split
  · rfl
  · exact h x hLow hHigh

/-- Writes elsewhere leave the agreement. -/
theorem SameIn.of_outside {mem₁ mem₁' : Memory} (h : SameIn mem mem' r')
    (hOut : SameOutside mem mem₁ r) (hOut' : SameOutside mem' mem₁' r) (hApart : r.Apart r') :
    SameIn mem₁ mem₁' r' := by
  intro x hLow hHigh
  have hAway : x < r.base ∨ r.base + r.len ≤ x := by
    rcases hApart with hBefore | hAfter
    · exact .inr (by omega)
    · exact .inl (by omega)
  rw [hOut' x hAway, hOut x hAway]
  exact h x hLow hHigh

/-- Two fields next to each other. -/
theorem SameIn.append {k : Nat} (h : SameIn mem mem' ⟨a, n⟩) (h' : SameIn mem mem' ⟨a + n, k⟩) :
    SameIn mem mem' ⟨a, n + k⟩ := by
  intro x hLow hHigh
  simp only at hLow hHigh
  by_cases hFirst : x < a + n
  · exact h x hLow hFirst
  · exact h' x (by simp only; omega) (by simp only; omega)

end ByteMemory
