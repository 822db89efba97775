import LinuxCppLearn.Library.FirstFit

/-!
# How many bins first fit opens

A packer over a window opens a bin only for an item that its last bin refuses,
so that this bin and the new one hold more than a capacity between them.  The
loads are upper bounds; a bin that takes more than its capacity does no harm.

* `Loads` — what the loads of the bins have to satisfy.
* `placeLast_last`, `last_refuses` — one item, and the last bin.
* `opens_one` — the account of one item.
* `fill_append`, `fill_again` — the items once more, behind other bins and with
  up to `w` bins.
-/

namespace FirstFit

variable {β ι : Type*} {put : β → ι → Option β} {w cap : Nat} {opened : ι → β}
  {weight : ι → Nat} {Load : β → Nat → Prop} {front bins bins' rest : List β} {items : List ι}
  {i : ι} {b : β} {x : Nat}

/-- `Load b x` bounds what the bin `b` holds by `x`: an item adds its weight at
most, and a bin that refuses an item has no room for the weight. -/
structure Loads (put : β → ι → Option β) (opened : ι → β) (weight : ι → Nat) (cap : Nat)
    (Load : β → Nat → Prop) : Prop where
  put_some : ∀ {b b' i x}, Load b x → put b i = some b' → Load b' (x + weight i)
  put_none : ∀ {b i x}, Load b x → put b i = none → cap < x + weight i
  opened_load : ∀ i, Load (opened i) (weight i)

/-! ## The last bin -/

theorem place_last (h : place put (front ++ [b]) i = some bins') :
    ∃ front' b', bins' = front' ++ [b'] ∧ (b' = b ∨ put b i = some b') := by
  cases hFront : place put front i with
  | some front' =>
      rw [place_append_of_some hFront] at h
      exact ⟨front', b, (Option.some.inj h).symm, .inl rfl⟩
  | none =>
      rw [place_append_of_none hFront] at h
      obtain ⟨last, hLast, rfl⟩ := Option.map_eq_some_iff.mp h
      cases hPut : put b i with
      | none => simp [place, hPut] at hLast
      | some b' =>
          rw [place_cons_some hPut] at hLast
          obtain rfl := Option.some.inj hLast
          exact ⟨front, b', rfl, .inr rfl⟩

theorem place_none_last (h : place put (front ++ [b]) i = none) : put b i = none := by
  cases hPut : put b i with
  | none => rfl
  | some b' =>
      cases hFront : place put front i with
      | some front' => simp [place_append_of_some hFront] at h
      | none => simp [place_append_of_none hFront, place_cons_some hPut] at h

/-- The window ends with the last bin. -/
theorem drop_window (hWindow : 0 < w) :
    (front ++ [b]).drop ((front ++ [b]).length - w) =
      front.drop ((front ++ [b]).length - w) ++ [b] := by
  refine List.drop_append_of_le_length ?_
  rw [List.length_append, List.length_singleton]
  omega

/-- An item that has its place in the window leaves the last bin, or goes into
it. -/
theorem placeLast_last (hWindow : 0 < w) (h : placeLast put w (front ++ [b]) i = some bins') :
    ∃ front' b', bins' = front' ++ [b'] ∧ (b' = b ∨ put b i = some b') := by
  obtain ⟨window, hPlace, rfl⟩ := Option.map_eq_some_iff.mp h
  rw [drop_window hWindow] at hPlace
  obtain ⟨front', b', rfl, hLast⟩ := place_last hPlace
  exact ⟨_, b', (List.append_assoc ..).symm, hLast⟩

theorem last_refuses (hWindow : 0 < w) (h : placeLast put w (front ++ [b]) i = none) :
    put b i = none := by
  have hPlace := Option.map_eq_none_iff.mp h
  rw [drop_window hWindow] at hPlace
  exact place_none_last hPlace

/-- **The account of one item**: twice its weight pays for what the load of the
last bin grows by, and for the capacity of a bin if one is opened. -/
theorem Loads.opens_one (hLoads : Loads put opened weight cap Load) (front : List β) (i : ι)
    (hWindow : 0 < w) (hLast : Load b x) :
    (∀ bins', placeLast put w (front ++ [b]) i = some bins' →
      ∃ front' b' x', bins' = front' ++ [b'] ∧ Load b' x' ∧ x' ≤ 2 * weight i + x) ∧
    (placeLast put w (front ++ [b]) i = none →
      Load (opened i) (weight i) ∧ cap + 1 + weight i ≤ 2 * weight i + x) := by
  constructor
  · intro bins' hPlace
    obtain ⟨front', b', rfl, rfl | hPut⟩ := placeLast_last hWindow hPlace
    · exact ⟨front', b', x, rfl, hLast, Nat.le_add_left _ _⟩
    · exact ⟨front', b', x + weight i, rfl, hLoads.put_some hLast hPut, by omega⟩
  · intro hNone
    have hFull := hLoads.put_none hLast (last_refuses hWindow hNone)
    exact ⟨hLoads.opened_load i, by omega⟩

/-! ## The same items once more -/

/-- Bins before the window stay as they are. -/
theorem fill_append (h : w ≤ rest.length) :
    fill put w opened (bins ++ rest) items = bins ++ fill put w opened rest items := by
  induction items generalizing rest with
  | nil => rfl
  | cons i items ih =>
      have hFront : (bins ++ rest).length - w = bins.length + (rest.length - w) := by
        rw [List.length_append]
        omega
      have hPlace : placeLast put w (bins ++ rest) i =
          (placeLast put w rest i).map (bins ++ ·) := by
        rw [placeLast, placeLast, hFront, List.drop_length_add_append,
          List.take_length_add_append, Option.map_map]
        congr 1
        funext bins'
        exact List.append_assoc ..
      rw [fill, fill, hPlace]
      cases hRest : placeLast put w rest i with
      | none =>
          rw [Option.map_none, Option.getD_none, Option.getD_none, List.append_assoc]
          refine ih ?_
          rw [List.length_append]
          exact Nat.le_add_right_of_le h
      | some rest' =>
          rw [Option.map_some, Option.getD_some, Option.getD_some]
          exact ih (Nat.le_trans h (Nat.le_of_eq (placeLast_length hRest).symm))

theorem fill_of_packLast (h : packLast put w bins items = some bins') :
    fill put w opened bins items = bins' := by
  induction items generalizing bins with
  | nil => exact Option.some.inj h
  | cons i items ih =>
      obtain ⟨bins₁, hPlace, hRest⟩ := Option.bind_eq_some_iff.mp h
      rw [fill, hPlace, Option.getD_some]
      exact ih hRest

/-- **Up to `w` bins**, emptied, are enough for the items once more. -/
theorem fill_again {start new : β} (hNew : ∀ i ∈ items, put new i = some (opened i))
    (hFew : (fill put w opened [start] items).length ≤ w) :
    fill put w opened
        (start :: List.replicate ((fill put w opened [start] items).length - 1) new) items =
      fill put w opened [start] items :=
  fill_of_packLast (packLast_again hNew hFew)

end FirstFit
