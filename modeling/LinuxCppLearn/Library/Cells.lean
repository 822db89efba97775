import LinuxCppLearn.Library.ByteMemory

/-!
# Cells of a memory

A cell is a region of the memory together with what is known of its bytes: the
last value written into each of them, or nothing.  Cells that lie apart are
independent of each other, although the memory is one.

* `ChangedIn` — the bytes outside some regions are as before.
* `writeBytes`, `readBytes` — a copy into the memory, and out of it.
* `ShowsCells` — the memory holds what is known of the cells.
* `ShowsCells.write` — a copy into one cell leaves what is known of the others.
* `ShowsCells.frame` — so does every change apart from the cells.
* `ShowsCells.read` — what is known of a cell is read from the memory.
* `Cell.readFrom` — all of a cell is known, so it shows every change.
-/

namespace ByteMemory

open Regions

variable {mem mem' mem'' : Memory} {K K' : Region → Prop} {r : Region} {a k n : Nat}
  {bs : List UInt8}

/-! ## Changes -/

/-- Only bytes in the regions of `K` have changed. -/
def ChangedIn (K : Region → Prop) (mem mem' : Memory) : Prop :=
  ∀ x, (∀ r, K r → x < r.base ∨ r.base + r.len ≤ x) → mem' x = mem x

theorem ChangedIn.refl (K : Region → Prop) (mem : Memory) : ChangedIn K mem mem :=
  fun _ _ => rfl

theorem ChangedIn.trans (h : ChangedIn K mem mem') (h' : ChangedIn K mem' mem'') :
    ChangedIn K mem mem'' :=
  fun x hOut => (h' x hOut).trans (h x hOut)

theorem ChangedIn.mono (h : ChangedIn K mem mem') (hSub : ∀ r, K r → K' r) :
    ChangedIn K' mem mem' :=
  fun x hOut => h x fun r hK => hOut r (hSub r hK)

/-- Parts of other regions. -/
theorem ChangedIn.within (h : ChangedIn K mem mem')
    (hPart : ∀ r, K r → ∃ r', K' r' ∧ r.Within r') : ChangedIn K' mem mem' := by
  refine fun x hOut => h x fun r hK => ?_
  obtain ⟨r', hK', hLow, hHigh⟩ := hPart r hK
  have hAway := hOut r' hK'
  omega

theorem SameOutside.changedIn (h : SameOutside mem mem' r) (hK : K r) : ChangedIn K mem mem' :=
  fun x hOut => h x (hOut r hK)

/-- A region apart from all of them is as before. -/
theorem ChangedIn.sameIn (h : ChangedIn K mem mem') (hApart : ∀ r', K r' → r'.Apart r) :
    SameIn mem mem' r := by
  intro x hLow hHigh
  refine h x fun r' hK => ?_
  rcases hApart r' hK with hBefore | hAfter
  · exact .inr (by omega)
  · exact .inl (by omega)

/-! ## Copies -/

/-- Write the bytes from `a` on. -/
def writeBytes (mem : Memory) (a : Nat) (bs : List UInt8) : Memory :=
  fun x => if a ≤ x then bs.getD (x - a) (mem x) else mem x

/-- The `n` bytes from `a` on. -/
def readBytes (mem : Memory) (a n : Nat) : List UInt8 :=
  (List.range n).map fun i => mem (a + i)

theorem writeBytes_outside : SameOutside mem (writeBytes mem a bs) ⟨a, bs.length⟩ := by
  intro x hOut
  unfold writeBytes
  split
  · rename_i hLow
    have hBeyond : bs.length ≤ x - a := by
      simp only at hOut
      omega
    rw [List.getD_eq_getElem?_getD, List.getElem?_eq_none hBeyond]
    rfl
  · rfl

theorem writeBytes_at {i : Nat} {b : UInt8} (hByte : bs[i]? = some b) :
    writeBytes mem a bs (a + i) = b := by
  unfold writeBytes
  rw [if_pos (Nat.le_add_right a i), Nat.add_sub_cancel_left, List.getD_eq_getElem?_getD, hByte]
  rfl

/-! ## Cells -/

/-- A region, and at each offset the last byte written there. -/
structure Cell where
  region : Region
  known : Nat → Option UInt8

/-- Memory whose contents are not known. -/
def Cell.fresh (r : Region) : Cell := ⟨r, fun _ => none⟩

/-- Memory that has been set to `b`. -/
def Cell.filled (r : Region) (b : UInt8) : Cell := ⟨r, fun _ => some b⟩

/-- Write the bytes at the offset `k`. -/
def Cell.write (c : Cell) (k : Nat) (bs : List UInt8) : Cell :=
  { c with known := fun j => if k ≤ j then (bs[j - k]?).or (c.known j) else c.known j }

/-- What the memory holds now. -/
def Cell.readFrom (mem : Memory) (c : Cell) : Cell :=
  { c with known := fun j => some (mem (c.region.base + j)) }

@[simp] theorem Cell.readFrom_region (mem : Memory) (c : Cell) :
    (c.readFrom mem).region = c.region := rfl

@[simp] theorem Cell.write_region (c : Cell) (k : Nat) (bs : List UInt8) :
    (c.write k bs).region = c.region := rfl

/-- Write the bytes at the offset `k` of the cell number `i`. -/
def writeCell (cells : List Cell) (i k : Nat) (bs : List UInt8) : List Cell :=
  cells.modify i fun c => c.write k bs

/-- The memory holds what is known of the cell. -/
def Cell.ShownBy (c : Cell) (mem : Memory) : Prop :=
  ∀ j < c.region.len, ∀ b, c.known j = some b → mem (c.region.base + j) = b

/-- The memory holds what is known of the cells. -/
def ShowsCells (mem : Memory) (cells : List Cell) : Prop :=
  ∀ c ∈ cells, c.ShownBy mem

/-- No two of the cells overlap. -/
def CellsApart (cells : List Cell) : Prop :=
  (cells.map Cell.region).Pairwise Region.Apart

variable {cells : List Cell} {c : Cell} {i : Nat}

theorem Cell.fresh_shownBy (r : Region) (mem : Memory) : (Cell.fresh r).ShownBy mem := by
  intro j _ b hKnown
  exact absurd hKnown (by simp [Cell.fresh])

theorem Cell.readFrom_shownBy (mem : Memory) (c : Cell) : (c.readFrom mem).ShownBy mem :=
  fun _ _ _ hKnown => Option.some.inj hKnown

theorem Cell.sameIn_of_readFrom (h : (c.readFrom mem).ShownBy mem') : SameIn mem mem' c.region := by
  intro x hLow hHigh
  obtain ⟨j, rfl⟩ := Nat.exists_eq_add_of_le hLow
  exact h j (Nat.lt_of_add_lt_add_left hHigh) _ rfl

theorem Cell.ShownBy.sameIn (h : c.ShownBy mem) (hSame : SameIn mem mem' c.region) :
    c.ShownBy mem' := by
  intro j hIn b hKnown
  rw [hSame _ (Nat.le_add_right _ _) (by omega)]
  exact h j hIn b hKnown

theorem Cell.ShownBy.write (h : c.ShownBy mem) :
    (c.write k bs).ShownBy (writeBytes mem (c.region.base + k) bs) := by
  intro j hIn b hKnown
  have hOld : c.known j = some b → mem (c.region.base + j) = b := h j hIn b
  simp only [Cell.write] at hKnown ⊢
  split at hKnown
  · rename_i hLow
    obtain ⟨d, rfl⟩ : ∃ d, j = k + d := ⟨j - k, by omega⟩
    rw [Nat.add_sub_cancel_left] at hKnown
    cases hByte : bs[d]? with
    | some b' =>
        rw [hByte, Option.some_or, Option.some.injEq] at hKnown
        subst hKnown
        rw [← Nat.add_assoc]
        exact writeBytes_at hByte
    | none =>
        rw [hByte, Option.none_or] at hKnown
        have hBeyond : bs.length ≤ d := List.getElem?_eq_none_iff.mp hByte
        rw [writeBytes_outside _ (.inr (by simp only; omega))]
        exact hOld hKnown
  · rename_i hHigh
    rw [writeBytes_outside _ (.inl (by simp only; omega))]
    exact hOld hKnown

theorem writeCell_regions (cells : List Cell) (i k : Nat) (bs : List UInt8) :
    (writeCell cells i k bs).map Cell.region = cells.map Cell.region := by
  unfold writeCell
  induction cells generalizing i with
  | nil => simp
  | cons c cells ih =>
      cases i with
      | zero => simp
      | succ i => simp [ih i]

/-- A change apart from the cells. -/
theorem ShowsCells.frame (h : ShowsCells mem cells) (hChanged : ChangedIn K mem mem')
    (hApart : ∀ c ∈ cells, ∀ r, K r → r.Apart c.region) : ShowsCells mem' cells :=
  fun c hMem => (h c hMem).sameIn (hChanged.sameIn (hApart c hMem))

/-- **A copy into one cell** leaves what is known of the others. -/
theorem ShowsCells.write (h : ShowsCells mem cells) (hApart : CellsApart cells)
    (hCell : cells[i]? = some c) (hRoom : k + bs.length ≤ c.region.len) :
    ShowsCells (writeBytes mem (c.region.base + k) bs) (writeCell cells i k bs) := by
  have hPart : Region.Within ⟨c.region.base + k, bs.length⟩ c.region :=
    ⟨Nat.le_add_right _ _, by simp only; omega⟩
  induction cells generalizing i with
  | nil => simp at hCell
  | cons d cells ih =>
      obtain ⟨hHead, hTail⟩ := List.pairwise_cons.mp hApart
      obtain ⟨hFirst, hRest⟩ := List.forall_mem_cons.mp h
      cases i with
      | zero =>
          obtain rfl : d = c := by simpa using hCell
          refine List.forall_mem_cons.mpr ⟨hFirst.write, fun e hMem => (hRest e hMem).sameIn ?_⟩
          have hAway := (hHead _ (List.mem_map_of_mem hMem)).mono hPart (Region.Within.refl _)
          exact (writeBytes_outside.changedIn (K := fun r => r = _) rfl).sameIn
            (by rintro _ rfl; exact hAway)
      | succ i =>
          have hCell' : cells[i]? = some c := by simpa using hCell
          have hMem : c ∈ cells := List.mem_of_getElem? hCell'
          have hAway := Region.Apart.mono (hHead _ (List.mem_map_of_mem hMem)).symm hPart
            (Region.Within.refl _)
          refine List.forall_mem_cons.mpr ⟨hFirst.sameIn ?_, ih hRest hTail hCell'⟩
          exact (writeBytes_outside.changedIn (K := fun r => r = _) rfl).sameIn
            (by rintro _ rfl; exact hAway)

/-- What is known of a cell is read. -/
theorem ShowsCells.read (h : ShowsCells mem cells) (hMem : c ∈ cells)
    (hRoom : k + bs.length ≤ c.region.len)
    (hKnown : ∀ i < bs.length, c.known (k + i) = bs[i]?) :
    readBytes mem (c.region.base + k) bs.length = bs := by
  apply List.ext_getElem?
  intro i
  unfold readBytes
  by_cases hIn : i < bs.length
  · have hByte : bs[i]? = some bs[i] := List.getElem?_eq_getElem hIn
    have hShown := h c hMem (k + i) (by omega) _ ((hKnown i hIn).trans hByte)
    rw [List.getElem?_map, List.getElem?_range hIn, hByte, Option.map_some, Nat.add_assoc, hShown]
  · rw [List.getElem?_eq_none (by simp; omega), List.getElem?_eq_none (by omega)]

end ByteMemory
