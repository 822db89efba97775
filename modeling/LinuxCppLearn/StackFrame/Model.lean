import LinuxCppLearn.Library.Calls

/-!
# A program and its machine code

`example.c`, and the object file that `example.s` is the disassembly of.  The
object file leaves three fields to the linker, and `printf` and the stack to the
system.

* `add`, `main` — the functions in C.
* `objectCode`, `relocations` — the bytes of `.text`, and its open fields.
* `Layout.text` — the bytes with the addresses filled in.
* `Program`, `Program.machine` — the linked code, loaded and given a stack.
-/

namespace LinuxCppLearn
namespace StackFrame

open X86 Regions ByteMemory

/-! ## The source -/

/-- `int Add(int x, int y)`; an `int` that overflows is undefined. -/
def add (x y : Int) : Option Int :=
  let z := x + y
  if -2 ^ 31 ≤ z ∧ z < 2 ^ 31 then some z else none

/-- `int main()`: what it prints with `%d`, and what it returns. -/
def main : Option (Int × Int) :=
  let a := 10
  let b := 20
  (add a b).map fun c => (c, 0)

/-! ## The object file -/

def objectCode : List (BitVec 8) :=
  [ -- Add
    0xf3, 0x0f, 0x1e, 0xfa,
    0x55,
    0x48, 0x89, 0xe5,
    0x89, 0x7d, 0xec,
    0x89, 0x75, 0xe8,
    0xc7, 0x45, 0xfc, 0x00, 0x00, 0x00, 0x00,
    0x8b, 0x55, 0xec,
    0x8b, 0x45, 0xe8,
    0x01, 0xd0,
    0x89, 0x45, 0xfc,
    0x8b, 0x45, 0xfc,
    0x5d,
    0xc3,
    -- main
    0xf3, 0x0f, 0x1e, 0xfa,
    0x55,
    0x48, 0x89, 0xe5,
    0x48, 0x83, 0xec, 0x10,
    0xc7, 0x45, 0xf4, 0x0a, 0x00, 0x00, 0x00,
    0xc7, 0x45, 0xf8, 0x14, 0x00, 0x00, 0x00,
    0xc7, 0x45, 0xfc, 0x00, 0x00, 0x00, 0x00,
    0x8b, 0x55, 0xf8,
    0x8b, 0x45, 0xf4,
    0x89, 0xd6,
    0x89, 0xc7,
    0xe8, 0x00, 0x00, 0x00, 0x00,
    0x89, 0x45, 0xfc,
    0x8b, 0x45, 0xfc,
    0x89, 0xc6,
    0x48, 0x8d, 0x05, 0x00, 0x00, 0x00, 0x00,
    0x48, 0x89, 0xc7,
    0xb8, 0x00, 0x00, 0x00, 0x00,
    0xe8, 0x00, 0x00, 0x00, 0x00,
    0xb8, 0x00, 0x00, 0x00, 0x00,
    0xc9,
    0xc3 ]

/-- `0000000000000025 <main>` -/
def mainOffset : Nat := 0x25

/-- `2d: sub $0x10,%rsp` -/
example : decode (objectCode.drop 0x2d) = some (.subq 0x10 .rsp, 4) := by decide

/-- `Add`, the string `"%d\n"`, and `printf`. -/
inductive Symbol
  | add
  | format
  | printf
deriving DecidableEq, Repr

/-- The fields that hold the distance of a symbol from the end of the field. -/
def relocations : List (Nat × Symbol) :=
  [(0x51, .add), (0x60, .format), (0x6d, .printf)]

/-! ## The linked program -/

/-- Where the parts of the program have got to. -/
structure Layout where
  base : BitVec 64
  format : BitVec 64
  printf : BitVec 64

namespace Layout

variable (l : Layout)

def address : Symbol → BitVec 64
  | .add => l.base
  | .format => l.format
  | .printf => l.printf

def distance (offset : Nat) (sym : Symbol) : BitVec 64 :=
  l.address sym - (l.base + BitVec.ofNat 64 (offset + 4))

/-- Four bytes, the low one first. -/
def bytes32 (v : BitVec 32) : List (BitVec 8) :=
  [v.extractLsb' 0 8, v.extractLsb' 8 8, v.extractLsb' 16 8, v.extractLsb' 24 8]

def relocate (code : List (BitVec 8)) (field : Nat × Symbol) : List (BitVec 8) :=
  code.take field.1 ++ bytes32 ((l.distance field.1 field.2).setWidth 32) ++
    code.drop (field.1 + 4)

def text : List (BitVec 8) := relocations.foldl l.relocate objectCode

theorem relocate_length {code : List (BitVec 8)} {field : Nat × Symbol}
    (h : field.1 + 4 ≤ code.length) : (l.relocate code field).length = code.length := by
  simp only [relocate, bytes32, List.length_append, List.length_take, List.length_drop,
    List.length_cons, List.length_nil]
  omega

theorem objectCode_length : objectCode.length = 0x78 := rfl

/-- Filling the fields in does not move the code. -/
theorem text_length : l.text.length = objectCode.length := by
  have hLength := objectCode_length
  simp only [text, relocations, List.foldl_cons, List.foldl_nil]
  rw [relocate_length, relocate_length, relocate_length]
  all_goals simp only [relocate_length, hLength, Nat.reduceAdd, Nat.reduceLeDiff]

end Layout

/-- `"%d\n"` with its terminator. -/
def formatString : List UInt8 := [37, 100, 10, 0]

/-- A program that has been linked and loaded: the distances fit into their fields, and
code, string and stack are in different places. -/
structure Program extends Layout where
  stack : Region
  near : ∀ field ∈ relocations,
    ((toLayout.distance field.1 field.2).setWidth 32).signExtend 64 =
      toLayout.distance field.1 field.2
  text_fits : base.toNat + objectCode.length ≤ 2 ^ 64
  stack_fits : stack.base + stack.len ≤ 2 ^ 64
  printf_outside : ∀ k < objectCode.length, base + BitVec.ofNat 64 k ≠ printf
  format_outside : stack.Apart ⟨format.toNat, formatString.length⟩

variable {ω : Type}

/-- The machine that runs the program; `printf` is what the library does. -/
def Program.machine (p : Program) (printf : State ω → Option (State ω)) : Machine ω where
  base := p.base
  text := p.text
  stack := p.stack
  library a := if a = p.printf then some printf else none
  text_own := fun k hInside => if_neg (p.printf_outside k (p.text_length ▸ hInside))
  text_fits := by
    rw [p.text_length]
    exact p.text_fits
  stack_fits := p.stack_fits

end StackFrame
end LinuxCppLearn
