import Mathlib.Data.List.Basic
import Mathlib.Tactic.Common

/-!
# First fit over a window of bins

An item goes into the first bin that takes it.  `put b i` is the bin `b` with
the item `i`, or `none` if it does not take it.  A packer which looks at its
last `w` bins only, and opens a new bin when none of them takes the item, may
find bins out of reach when it packs the same items once more.

* `place`, `pack` — one item and a list of items, into bins that are given.
* `placeLast`, `packLast` — the same among the last `w` bins.
* `fill` — with a new bin for every item that the last `w` bins do not take.
* `pack_fill` — up to `w` bins, the bins opened can be given in advance.
* `packLast_again`, `packLast_behind` — the emptied bins and the same items.
-/

namespace FirstFit

variable {β ι : Type*} (put : β → ι → Option β)

/-- Put the item into the first bin that takes it. -/
def place : List β → ι → Option (List β)
  | [], _ => none
  | b :: bins, i =>
      match put b i with
      | some b' => some (b' :: bins)
      | none => (place bins i).map (b :: ·)

/-- Put the items into the bins, one after another. -/
def pack : List β → List ι → Option (List β)
  | bins, [] => some bins
  | bins, i :: items => (place put bins i).bind fun bins' => pack bins' items

/-- Put the item into the first of the last `w` bins that takes it. -/
def placeLast (w : Nat) (bins : List β) (i : ι) : Option (List β) :=
  (place put (bins.drop (bins.length - w)) i).map (bins.take (bins.length - w) ++ ·)

/-- Put the items into the last `w` bins, one after another. -/
def packLast (w : Nat) : List β → List ι → Option (List β)
  | bins, [] => some bins
  | bins, i :: items => (placeLast put w bins i).bind fun bins' => packLast w bins' items

/-- Put the items into the last `w` bins; an item that none of them takes goes
into a new one. -/
def fill (w : Nat) (opened : ι → β) : List β → List ι → List β
  | bins, [] => bins
  | bins, i :: items =>
      fill w opened ((placeLast put w bins i).getD (bins ++ [opened i])) items

variable {put} {w : Nat} {opened : ι → β} {bins bins' rest : List β} {items : List ι} {i : ι}
  {new : β}

/-! ## One item -/

theorem place_cons_some {b b' : β} (h : put b i = some b') :
    place put (b :: bins) i = some (b' :: bins) := by
  simp only [place, h]

theorem place_cons_none {b : β} (h : put b i = none) :
    place put (b :: bins) i = (place put bins i).map (b :: ·) := by
  simp only [place, h]

theorem place_length (h : place put bins i = some bins') : bins'.length = bins.length := by
  induction bins generalizing bins' with
  | nil => simp [place] at h
  | cons b bins ih =>
      cases hPut : put b i with
      | some b' =>
          rw [place_cons_some hPut] at h
          obtain rfl := Option.some.inj h
          rfl
      | none =>
          rw [place_cons_none hPut] at h
          obtain ⟨bins₁, hPlace, rfl⟩ := Option.map_eq_some_iff.mp h
          rw [List.length_cons, List.length_cons, ih hPlace]

/-- Bins behind the one that takes the item do not matter. -/
theorem place_append_of_some (h : place put bins i = some bins') :
    place put (bins ++ rest) i = some (bins' ++ rest) := by
  induction bins generalizing bins' with
  | nil => simp [place] at h
  | cons b bins ih =>
      rw [List.cons_append]
      cases hPut : put b i with
      | some b' =>
          rw [place_cons_some hPut] at h ⊢
          obtain rfl := Option.some.inj h
          rfl
      | none =>
          rw [place_cons_none hPut] at h ⊢
          obtain ⟨bins₁, hPlace, rfl⟩ := Option.map_eq_some_iff.mp h
          rw [ih hPlace]
          rfl

/-- Bins that do not take the item do not matter. -/
theorem place_append_of_none (h : place put bins i = none) :
    place put (bins ++ rest) i = (place put rest i).map (bins ++ ·) := by
  induction bins with
  | nil => simp
  | cons b bins ih =>
      rw [List.cons_append]
      cases hPut : put b i with
      | some b' => simp [place_cons_some hPut] at h
      | none =>
          rw [place_cons_none hPut] at h ⊢
          rw [ih (Option.map_eq_none_iff.mp h), Option.map_map]
          rfl

/-- An item that no bin takes goes into the first of the empty ones behind. -/
theorem place_empty (h : place put bins i = none) (hNew : put new i = some (opened i)) (k : Nat) :
    place put (bins ++ List.replicate (k + 1) new) i =
      some (bins ++ [opened i] ++ List.replicate k new) := by
  rw [place_append_of_none h, List.replicate_succ, place_cons_some hNew, Option.map_some,
    List.append_assoc, List.singleton_append]

theorem placeLast_of_le (h : bins.length ≤ w) : placeLast put w bins i = place put bins i := by
  rw [placeLast, Nat.sub_eq_zero_of_le h]
  simp

/-- With a window of bins behind others, only the window matters. -/
theorem placeLast_append (h : rest.length = w) :
    placeLast put w (bins ++ rest) i = (place put rest i).map (bins ++ ·) := by
  have hFront : (bins ++ rest).length - w = bins.length := by
    rw [List.length_append]
    omega
  rw [placeLast, hFront, List.drop_left, List.take_left]

/-- The bins behind `bins` are the window, or all bins are in it. -/
theorem placeLast_window (h : bins = [] ∧ rest.length ≤ w ∨ rest.length = w) :
    placeLast put w (bins ++ rest) i = (place put rest i).map (bins ++ ·) := by
  rcases h with ⟨rfl, hLe⟩ | hLength
  · rw [List.nil_append, placeLast_of_le hLe]
    simp
  · exact placeLast_append hLength

theorem placeLast_length (h : placeLast put w bins i = some bins') :
    bins'.length = bins.length := by
  obtain ⟨window, hPlace, rfl⟩ := Option.map_eq_some_iff.mp h
  rw [List.length_append, place_length hPlace, List.length_take, List.length_drop]
  omega

/-! ## A list of items -/

/-- Bins that are not needed do not matter. -/
theorem pack_append_of_some (h : pack put bins items = some bins') (rest : List β) :
    pack put (bins ++ rest) items = some (bins' ++ rest) := by
  induction items generalizing bins with
  | nil =>
      obtain rfl := Option.some.inj h
      rfl
  | cons i items ih =>
      obtain ⟨bins₁, hPlace, hRest⟩ := Option.bind_eq_some_iff.mp h
      rw [pack, place_append_of_some hPlace]
      exact ih hRest

theorem packLast_of_le (h : bins.length ≤ w) : packLast put w bins items = pack put bins items := by
  induction items generalizing bins with
  | nil => rfl
  | cons i items ih =>
      rw [packLast, pack, placeLast_of_le h]
      cases hPlace : place put bins i with
      | none => rfl
      | some bins₁ => exact ih (Nat.le_trans (Nat.le_of_eq (place_length hPlace)) h)

theorem packLast_append (h : rest.length = w) :
    packLast put w (bins ++ rest) items = (pack put rest items).map (bins ++ ·) := by
  induction items generalizing rest with
  | nil => rfl
  | cons i items ih =>
      rw [packLast, pack, placeLast_append h]
      cases hPlace : place put rest i with
      | none => rfl
      | some rest₁ => exact ih ((place_length hPlace).trans h)

/-- The bins only grow in number. -/
theorem length_le_fill : bins.length ≤ (fill put w opened bins items).length := by
  induction items generalizing bins with
  | nil => exact Nat.le_refl _
  | cons i items ih =>
      refine Nat.le_trans ?_ ih
      cases hPlace : placeLast put w bins i with
      | none => simp
      | some bins₁ => exact Nat.le_of_eq (placeLast_length hPlace).symm

/-- **Up to `w` bins**, first fit into the bins that will be opened, given in
advance, puts every item where it goes with the bins opened on demand. -/
theorem pack_fill (hNew : ∀ i ∈ items, put new i = some (opened i))
    (h : (fill put w opened bins items).length ≤ w) :
    pack put
        (bins ++ List.replicate ((fill put w opened bins items).length - bins.length) new) items =
      some (fill put w opened bins items) := by
  induction items generalizing bins with
  | nil => simp [pack, fill]
  | cons i items ih =>
      have hLen : bins.length ≤ w := Nat.le_trans length_le_fill h
      have hRest : ∀ i ∈ items, put new i = some (opened i) :=
        fun j hMem => hNew j (List.mem_cons_of_mem i hMem)
      rw [fill, placeLast_of_le hLen] at h ⊢
      cases hPlace : place put bins i with
      | some bins₁ =>
          rw [hPlace, Option.getD_some] at h
          rw [Option.getD_some, pack, place_append_of_some hPlace, Option.bind_some,
            ← place_length hPlace]
          exact ih hRest h
      | none =>
          rw [hPlace, Option.getD_none] at h
          have hGrows : (bins ++ [opened i]).length ≤
              (fill put w opened (bins ++ [opened i]) items).length := length_le_fill
          rw [List.length_append, List.length_singleton] at hGrows
          obtain ⟨k, hMore⟩ := Nat.exists_eq_add_of_le hGrows
          have hCount : (fill put w opened (bins ++ [opened i]) items).length - bins.length =
              k + 1 := by omega
          have hFilled := ih hRest h
          rw [List.length_append, List.length_singleton, hMore, Nat.add_sub_cancel_left] at hFilled
          rw [Option.getD_none, hCount, pack, place_empty hPlace (hNew i List.mem_cons_self) k]
          exact hFilled

/-- Items for which `w` bins are enough do not make a packer open more. -/
theorem fill_length_le (hNew : ∀ i ∈ items, put new i = some (opened i)) (hLen : bins.length ≤ w)
    (h : (pack put (bins ++ List.replicate (w - bins.length) new) items).isSome) :
    (fill put w opened bins items).length ≤ w := by
  induction items generalizing bins with
  | nil => exact hLen
  | cons i items ih =>
      have hRest : ∀ i ∈ items, put new i = some (opened i) :=
        fun j hMem => hNew j (List.mem_cons_of_mem i hMem)
      rw [pack] at h
      rw [fill, placeLast_of_le hLen]
      cases hPlace : place put bins i with
      | some bins₁ =>
          have hSame := place_length hPlace
          rw [place_append_of_some hPlace, Option.bind_some, ← hSame] at h
          exact ih hRest (Nat.le_trans (Nat.le_of_eq hSame) hLen) h
      | none =>
          cases hFree : w - bins.length with
          | zero =>
              rw [hFree, List.replicate_zero, List.append_nil, hPlace] at h
              simp at h
          | succ k =>
              rw [hFree, place_empty hPlace (hNew i List.mem_cons_self) k, Option.bind_some] at h
              have hLen' : (bins ++ [opened i]).length ≤ w := by
                rw [List.length_append, List.length_singleton]
                omega
              have hFree' : w - (bins ++ [opened i]).length = k := by
                rw [List.length_append, List.length_singleton]
                omega
              rw [Option.getD_none]
              exact ih hRest hLen' (hFree' ▸ h)

section Again

variable {start : β}

/-- A packer that starts with one bin opens at most `w` if and only if the bin
and `w - 1` new ones take the items. -/
theorem fill_length_le_iff (hWindow : 0 < w) (hNew : ∀ i ∈ items, put new i = some (opened i)) :
    (fill put w opened [start] items).length ≤ w ↔
      (pack put (start :: List.replicate (w - 1) new) items).isSome := by
  constructor
  · intro hFew
    have hStart : [start].length ≤ (fill put w opened [start] items).length := length_le_fill
    have hSplit : List.replicate (w - 1) new =
        List.replicate ((fill put w opened [start] items).length - 1) new ++
          List.replicate (w - (fill put w opened [start] items).length) new := by
      rw [List.length_singleton] at hStart
      rw [← List.replicate_add]
      congr 1
      omega
    have hAll := pack_append_of_some (pack_fill hNew hFew)
      (List.replicate (w - (fill put w opened [start] items).length) new)
    rw [List.length_singleton, List.singleton_append, List.cons_append, ← hSplit] at hAll
    rw [hAll]
    rfl
  · intro h
    exact fill_length_le hNew hWindow h

/-- **The same items once more**, into the emptied bins: up to `w` bins, each
item goes where it went. -/
theorem packLast_again (hNew : ∀ i ∈ items, put new i = some (opened i))
    (hFew : (fill put w opened [start] items).length ≤ w) :
    packLast put w
        (start :: List.replicate ((fill put w opened [start] items).length - 1) new) items =
      some (fill put w opened [start] items) := by
  have hStart : [start].length ≤ (fill put w opened [start] items).length := length_le_fill
  rw [packLast_of_le]
  · exact pack_fill hNew hFew
  · rw [List.length_singleton] at hStart
    rw [List.length_cons, List.length_replicate]
    omega

/-- With more than `w` bins, only new ones are in reach. -/
theorem packLast_behind {k : Nat} (hMany : w ≤ k) :
    packLast put w (start :: List.replicate k new) items =
      (pack put (List.replicate w new) items).map
        (start :: List.replicate (k - w) new ++ ·) := by
  have hBins : start :: List.replicate k new =
      (start :: List.replicate (k - w) new) ++ List.replicate w new := by
    rw [List.cons_append, ← List.replicate_add, Nat.sub_add_cancel hMany]
  rw [hBins, packLast_append List.length_replicate]

end Again

end FirstFit
