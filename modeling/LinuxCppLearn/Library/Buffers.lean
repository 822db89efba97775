import Mathlib.Data.List.Basic
import Mathlib.Data.List.TakeWhile
import Mathlib.Logic.Function.Basic
import Mathlib.Tactic.Common

/-!
# Buffers on a heap, and C strings in them

A heap of buffers with the history of what was asked for and what was given
back.  A buffer is named by a number that is not used again, so a pointer into a
buffer that was given back stays what it is, a dangling one.  `none` stands for
undefined behaviour: a read or a write outside of a live buffer, a copy between
regions that overlap, and giving back what is not live.

* `Heap` — every buffer that is not live was given back, once; the heap carries
  this with it.
* `Heap.Stores` — a buffer holds a C string from its beginning on.
* `strcpy_stores`, `strcat_stores` — the copy is there if it has room.
* `strcpy_overflows`, `strcat_overflows` — and undefined if it has not.
-/

namespace Buffers

variable {χ : Type}

structure Ptr where
  buffer : Nat
  off : Nat
deriving DecidableEq, Repr

structure Heap (χ : Type) where
  /-- what is in the live buffers -/
  bytes : Nat → Option (List χ)
  /-- the number of the next buffer -/
  next : Nat
  /-- the buffers given back, in order -/
  freed : List Nat
  /-- the sizes asked for, in order -/
  requests : List Nat
  fresh : ∀ b, next ≤ b → bytes b = none ∧ b ∉ freed
  ledger : ∀ b < next, freed.count b = if (bytes b).isSome then 0 else 1

namespace Heap

def empty : Heap χ where
  bytes _ := none
  next := 0
  freed := []
  requests := []
  fresh _ _ := ⟨rfl, List.not_mem_nil⟩
  ledger b hLt := absurd hLt (Nat.not_lt_zero b)

/-- A request that is not met. -/
def refuse (h : Heap χ) (size : Nat) : Heap χ :=
  { h with requests := h.requests ++ [size] }

/-- A request that is met by a buffer with anything in it. -/
def new (h : Heap χ) (size : Nat) (fill : Nat → χ) : Heap χ where
  bytes := Function.update h.bytes h.next (some ((List.range size).map fill))
  next := h.next + 1
  freed := h.freed
  requests := h.requests ++ [size]
  fresh b hLe := by
    rw [Function.update_of_ne (by omega)]
    exact h.fresh b (by omega)
  ledger b hLt := by
    by_cases hEq : b = h.next
    · subst hEq
      rw [List.count_eq_zero_of_not_mem (h.fresh _ (Nat.le_refl _)).2]
      simp
    · rw [Function.update_of_ne hEq]
      exact h.ledger b (by omega)

theorem lt_next {h : Heap χ} {b : Nat} (hLive : (h.bytes b).isSome) : b < h.next := by
  by_contra hNot
  rw [(h.fresh b (by omega)).1] at hLive
  simp at hLive

/-- `delete[]` -/
def delete (h : Heap χ) (b : Nat) : Option (Heap χ) :=
  if hLive : (h.bytes b).isSome then
    some
      { bytes := Function.update h.bytes b none
        next := h.next
        freed := h.freed ++ [b]
        requests := h.requests
        fresh := fun c hLe => by
          have hNe : c ≠ b := by
            rintro rfl
            exact absurd (lt_next hLive) (by omega)
          rw [Function.update_of_ne hNe, List.mem_append, List.mem_singleton]
          exact ⟨(h.fresh c hLe).1, not_or.mpr ⟨(h.fresh c hLe).2, hNe⟩⟩
        ledger := fun c hLt => by
          rw [List.count_append, h.ledger c hLt]
          by_cases hEq : c = b
          · subst hEq
            simp [hLive]
          · rw [Function.update_of_ne hEq, List.count_eq_zero_of_not_mem (by simpa using hEq)]
            rfl }
  else none

/-- Write over a live buffer. -/
def set (h : Heap χ) (b : Nat) (bytes : List χ) (hLive : (h.bytes b).isSome) : Heap χ :=
  { h with
    bytes := Function.update h.bytes b (some bytes)
    fresh := fun c hLe => by
      have hNe : c ≠ b := by
        rintro rfl
        exact absurd (lt_next hLive) (by omega)
      rw [Function.update_of_ne hNe]
      exact h.fresh c hLe
    ledger := fun c hLt => by
      rw [h.ledger c hLt]
      by_cases hEq : c = b
      · subst hEq
        simp [hLive]
      · rw [Function.update_of_ne hEq] }

/-- Write characters from a pointer on. -/
def write (h : Heap χ) (p : Ptr) (chars : List χ) : Option (Heap χ) :=
  match hBytes : h.bytes p.buffer with
  | none => none
  | some bytes =>
      if p.off + chars.length ≤ bytes.length then
        some (h.set p.buffer
          (bytes.take p.off ++ (chars ++ bytes.drop (p.off + chars.length))) (by simp [hBytes]))
      else none

/-! ## What an operation changes -/

/-- Giving back a live buffer succeeds. -/
theorem delete_live {h : Heap χ} {b : Nat} (hLive : (h.bytes b).isSome) :
    ∃ h', h.delete b = some h' ∧ h'.bytes = Function.update h.bytes b none ∧
      h'.next = h.next ∧ h'.requests = h.requests := by
  refine ⟨_, dif_pos hLive, rfl, rfl, rfl⟩

theorem delete_dead {h : Heap χ} {b : Nat} (hDead : h.bytes b = none) : h.delete b = none :=
  dif_neg (by simp [hDead])

/-- One buffer was written, and is as long as before. -/
structure Wrote (h : Heap χ) (b : Nat) (h' : Heap χ) : Prop where
  others : ∀ c ≠ b, h'.bytes c = h.bytes c
  length : (h'.bytes b).map List.length = (h.bytes b).map List.length
  next : h'.next = h.next
  freed : h'.freed = h.freed
  requests : h'.requests = h.requests

section

variable {h h' h'' : Heap χ} {b : Nat} {p : Ptr} {chars bytes : List χ}

theorem Wrote.trans (hFirst : Wrote h b h') (hSecond : Wrote h' b h'') : Wrote h b h'' where
  others c hNe := (hSecond.others c hNe).trans (hFirst.others c hNe)
  length := hSecond.length.trans hFirst.length
  next := hSecond.next.trans hFirst.next
  freed := hSecond.freed.trans hFirst.freed
  requests := hSecond.requests.trans hFirst.requests

theorem Wrote.isSome (hWrote : Wrote h b h') (c : Nat) :
    (h'.bytes c).isSome = (h.bytes c).isSome := by
  by_cases hEq : c = b
  · subst hEq
    have hLength := congrArg Option.isSome hWrote.length
    simpa using hLength
  · rw [hWrote.others c hEq]

theorem write_fits (p : Ptr) (chars : List χ) (hBytes : h.bytes p.buffer = some bytes)
    (hFits : p.off + chars.length ≤ bytes.length) :
    ∃ h', h.write p chars = some h' ∧ Wrote h p.buffer h' ∧
      h'.bytes p.buffer =
        some (bytes.take p.off ++ (chars ++ bytes.drop (p.off + chars.length))) := by
  have hLive : (h.bytes p.buffer).isSome := by simp [hBytes]
  refine ⟨h.set p.buffer (bytes.take p.off ++ (chars ++ bytes.drop (p.off + chars.length)))
    hLive, ?_, ?_, ?_⟩
  · unfold write
    split
    · rename_i hNone
      simp [hNone] at hBytes
    · rename_i found hFound
      obtain rfl : found = bytes := Option.some.inj (hFound.symm.trans hBytes)
      exact if_pos hFits
  · refine ⟨fun c hNe => Function.update_of_ne hNe _ _, ?_, rfl, rfl, rfl⟩
    have hLength : (bytes.take p.off ++ (chars ++ bytes.drop (p.off + chars.length))).length =
        bytes.length := by
      simp only [List.length_append, List.length_take, List.length_drop]
      omega
    simp [set, hBytes]
    omega
  · exact Function.update_self ..

/-- Whatever is written, nothing is asked for. -/
theorem write_requests (hWrite : h.write p chars = some h') : h'.requests = h.requests := by
  unfold write at hWrite
  split at hWrite
  · simp at hWrite
  · obtain ⟨-, hSet⟩ := Option.ite_none_right_eq_some.mp hWrite
    rw [← Option.some.inj hSet]
    rfl

theorem delete_requests (hDelete : h.delete b = some h') : h'.requests = h.requests := by
  unfold delete at hDelete
  split at hDelete
  · rw [← Option.some.inj hDelete]
  · simp at hDelete

theorem write_overflows (hBytes : h.bytes p.buffer = some bytes)
    (hLong : bytes.length < p.off + chars.length) : h.write p chars = none := by
  unfold write
  split
  · rfl
  · rename_i found hFound
    obtain rfl : found = bytes := Option.some.inj (hFound.symm.trans hBytes)
    exact if_neg (by omega)

end

end Heap

/-! ## C strings -/

/-- What a `const char *` may point to: characters with a terminator behind them
that are in no buffer of the heap, or a place in a buffer. -/
inductive CharPtr (χ : Type)
  | outside (chars : List χ)
  | inside (p : Ptr)
deriving DecidableEq, Repr

/-- `n` characters from the two pointers on have one in common. -/
def CharPtr.Meets (src : CharPtr χ) (dst : Ptr) (n : Nat) : Prop :=
  match src with
  | .outside _ => False
  | .inside p => p.buffer = dst.buffer ∧ p.off < dst.off + n ∧ dst.off < p.off + n

instance (src : CharPtr χ) (dst : Ptr) (n : Nat) : Decidable (src.Meets dst n) := by
  cases src <;> unfold CharPtr.Meets <;> infer_instance

theorem CharPtr.not_meets {src : CharPtr χ} {p : Ptr} {n : Nat}
    (hApart : ∀ q, src = .inside q → q.buffer ≠ p.buffer) : ¬ src.Meets p n := by
  cases src with
  | outside chars => exact id
  | inside q => exact fun hMeets => hApart q rfl hMeets.1

variable [Zero χ] [DecidableEq χ]

/-- The characters in front of the first terminator. -/
def cString (chars : List χ) : List χ :=
  chars.takeWhile (· ≠ 0)

namespace Heap

/-- The C string at a pointer. -/
def text (h : Heap χ) (p : Ptr) : Option (List χ) :=
  match h.bytes p.buffer with
  | none => none
  | some bytes => if 0 ∈ bytes.drop p.off then some (cString (bytes.drop p.off)) else none

def read (h : Heap χ) : CharPtr χ → Option (List χ)
  | .outside chars => some (cString chars)
  | .inside p => h.text p

def strlen (h : Heap χ) (src : CharPtr χ) : Option Nat :=
  (h.read src).map List.length

def strcpy (h : Heap χ) (dst : Ptr) (src : CharPtr χ) : Option (Heap χ) :=
  match h.read src with
  | none => none
  | some chars =>
      if src.Meets dst (chars.length + 1) then none else h.write dst (chars ++ [0])

def strcat (h : Heap χ) (dst : Ptr) (src : CharPtr χ) : Option (Heap χ) :=
  match h.text dst, h.read src with
  | some front, some chars =>
      let dst : Ptr := ⟨dst.buffer, dst.off + front.length⟩
      if src.Meets dst (chars.length + 1) then none else h.write dst (chars ++ [0])
  | _, _ => none

/-- The buffer holds the C string from its beginning on. -/
def Stores (h : Heap χ) (b : Nat) (value : List χ) : Prop :=
  0 ∉ value ∧ ∃ rest, h.bytes b = some (value ++ 0 :: rest)

variable {h h' : Heap χ} {b : Nat} {p : Ptr} {chars value front bytes : List χ}
  {src : CharPtr χ}

/-! ## The C string in a buffer -/

theorem cString_append {rest : List χ} (hNo : 0 ∉ value) :
    cString (value ++ 0 :: rest) = value := by
  unfold cString
  rw [List.takeWhile_append_of_pos (by
    intro c hMem
    have hNe : c ≠ 0 := ne_of_mem_of_not_mem hMem hNo
    simpa using hNe)]
  simp

omit [DecidableEq χ] in
theorem Stores.live (hStores : h.Stores b value) : (h.bytes b).isSome := by
  obtain ⟨-, rest, hBytes⟩ := hStores
  simp [hBytes]

omit [DecidableEq χ] in
/-- There is room for the string and its terminator. -/
theorem Stores.room (hStores : h.Stores b value) (hBytes : h.bytes b = some bytes) :
    value.length + 1 ≤ bytes.length := by
  obtain ⟨-, rest, hOld⟩ := hStores
  obtain rfl : bytes = value ++ 0 :: rest := Option.some.inj (hBytes.symm.trans hOld)
  simp

omit [DecidableEq χ] in
/-- What is not written stays. -/
theorem Stores.congr (hStores : h.Stores b value) (hSame : h'.bytes b = h.bytes b) :
    h'.Stores b value := by
  obtain ⟨hNo, rest, hBytes⟩ := hStores
  exact ⟨hNo, rest, hSame.trans hBytes⟩

/-- A pointer into the string reads what is behind it. -/
theorem Stores.text (hStores : h.Stores b value) {off : Nat} (hIn : off ≤ value.length) :
    h.text ⟨b, off⟩ = some (value.drop off) := by
  obtain ⟨hNo, rest, hBytes⟩ := hStores
  have hDrop : (value ++ 0 :: rest).drop off = value.drop off ++ 0 :: rest :=
    List.drop_append_of_le_length hIn
  have hNo' : 0 ∉ value.drop off := fun hMem => hNo (List.mem_of_mem_drop hMem)
  simp only [Heap.text, hBytes, hDrop]
  rw [if_pos (by simp), cString_append hNo']

theorem Stores.text_zero (hStores : h.Stores b value) : h.text ⟨b, 0⟩ = some value :=
  hStores.text (Nat.zero_le _)

theorem Stores.read (hStores : h.Stores b value) {off : Nat} (hIn : off ≤ value.length) :
    h.read (.inside ⟨b, off⟩) = some (value.drop off) :=
  hStores.text hIn

theorem Stores.read_zero (hStores : h.Stores b value) :
    h.read (.inside ⟨b, 0⟩) = some value :=
  hStores.text_zero

theorem Stores.unique (hStores : h.Stores b value) (hStores' : h.Stores b chars) :
    value = chars :=
  Option.some.inj (hStores.text_zero.symm.trans hStores'.text_zero)

/-- The string at a pointer has no terminator in it. -/
theorem cString_no_zero : 0 ∉ cString chars := by
  intro hMem
  have hNe := List.mem_takeWhile_imp hMem
  simp at hNe

theorem text_no_zero (hText : h.text p = some value) : 0 ∉ value := by
  unfold Heap.text at hText
  split at hText
  · simp at hText
  · split at hText
    · obtain rfl := Option.some.inj hText
      exact cString_no_zero
    · simp at hText

theorem read_no_zero (hRead : h.read src = some value) : 0 ∉ value := by
  cases src with
  | outside chars =>
      obtain rfl := Option.some.inj hRead
      exact cString_no_zero
  | inside p => exact text_no_zero hRead

/-- Reading somewhere else is not disturbed. -/
theorem read_congr (hSame : ∀ p, src = .inside p → h'.bytes p.buffer = h.bytes p.buffer) :
    h'.read src = h.read src := by
  cases src with
  | outside chars => rfl
  | inside p =>
      simp only [read, text, hSame p rfl]

/-- A dangling pointer cannot be read. -/
theorem read_dangling (hDead : h.bytes p.buffer = none) : h.read (.inside p) = none := by
  simp [read, text, hDead]

/-- **`strcpy`** from somewhere else into a buffer with room for it. -/
theorem strcpy_stores (hBytes : h.bytes b = some bytes) (hRead : h.read src = some value)
    (hApart : ∀ q, src = .inside q → q.buffer ≠ b) (hRoom : value.length + 1 ≤ bytes.length) :
    ∃ h', h.strcpy ⟨b, 0⟩ src = some h' ∧ Wrote h b h' ∧ h'.Stores b value := by
  have hNot : ¬ src.Meets ⟨b, 0⟩ (value.length + 1) := CharPtr.not_meets hApart
  obtain ⟨h', hWrite, hWrote, hBytes'⟩ :=
    write_fits ⟨b, 0⟩ (value ++ [0]) hBytes (by simpa using hRoom)
  refine ⟨h', ?_, hWrote, read_no_zero hRead, _, by rw [hBytes']; simp; rfl⟩
  simp only [strcpy, hRead, if_neg hNot, hWrite]

/-- **`strcpy` overflows** a buffer that has no room. -/
theorem strcpy_overflows (hBytes : h.bytes b = some bytes) (hRead : h.read src = some value)
    (hLong : bytes.length < value.length + 1) : h.strcpy ⟨b, 0⟩ src = none := by
  simp only [strcpy, hRead]
  split
  · rfl
  · exact write_overflows (p := ⟨b, 0⟩) hBytes (by simpa using hLong)

theorem strcpy_requests {dst : Ptr} (hCopy : h.strcpy dst src = some h') :
    h'.requests = h.requests := by
  unfold strcpy at hCopy
  split at hCopy
  · simp at hCopy
  · obtain ⟨-, hWrite⟩ := Option.ite_none_left_eq_some.mp hCopy
    exact write_requests hWrite

theorem strcat_requests {dst : Ptr} (hCopy : h.strcat dst src = some h') :
    h'.requests = h.requests := by
  unfold strcat at hCopy
  split at hCopy
  · obtain ⟨-, hWrite⟩ := Option.ite_none_left_eq_some.mp hCopy
    exact write_requests hWrite
  · simp at hCopy

/-- **`strcat`** from somewhere else behind the string in a buffer with room for
both. -/
theorem strcat_stores (hStores : h.Stores b front) (hBytes : h.bytes b = some bytes)
    (hRead : h.read src = some value) (hApart : ∀ q, src = .inside q → q.buffer ≠ b)
    (hRoom : front.length + value.length + 1 ≤ bytes.length) :
    ∃ h', h.strcat ⟨b, 0⟩ src = some h' ∧ Wrote h b h' ∧ h'.Stores b (front ++ value) := by
  have hNot : ¬ src.Meets ⟨b, 0 + front.length⟩ (value.length + 1) := CharPtr.not_meets hApart
  obtain ⟨h', hWrite, hWrote, hBytes'⟩ :=
    write_fits ⟨b, 0 + front.length⟩ (value ++ [0]) hBytes (by simp; omega)
  obtain ⟨hNo, rest, hOld⟩ := hStores
  obtain rfl : bytes = front ++ 0 :: rest := Option.some.inj (hBytes.symm.trans hOld)
  refine ⟨h', ?_, hWrote, ?_, _, by rw [hBytes']; simp; rfl⟩
  · simp only [strcat, Stores.text_zero ⟨hNo, rest, hOld⟩, hRead, if_neg hNot, hWrite]
  · rw [List.mem_append, not_or]
    exact ⟨hNo, read_no_zero hRead⟩

/-- **`strcat` overflows** a buffer that has room for one string but not for both. -/
theorem strcat_overflows (hStores : h.Stores b front) (hBytes : h.bytes b = some bytes)
    (hRead : h.read src = some value) (hLong : bytes.length < front.length + value.length + 1) :
    h.strcat ⟨b, 0⟩ src = none := by
  simp only [strcat, hStores.text_zero, hRead]
  split
  · rfl
  · refine write_overflows (p := ⟨b, 0 + front.length⟩) hBytes ?_
    rw [List.length_append, List.length_singleton]
    show bytes.length < 0 + front.length + (value.length + 1)
    omega

end Heap

end Buffers
