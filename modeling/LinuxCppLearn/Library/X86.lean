import LinuxCppLearn.Library.ByteMemory
import LinuxCppLearn.Library.StepSystem
import Mathlib.Logic.Function.Basic

/-!
# A fragment of x86-64

The instructions that a compiler emits without optimisation for functions on
`int`s: they keep their locals at `disp8(%rbp)` and call each other.

* `Instr`, `decode` — the instructions and their encoding.
* `Machine` — the code, the stack it may use, and the functions that are linked
  to it.
* `Machine.step` — fetch, decode, execute.  An access outside the stack faults.
* `Action`, `Machine.act` — a step, or a signal whose handler uses the same stack
  below the red zone.

The flags are left out: no instruction of the fragment reads them.
-/

namespace X86

open Regions ByteMemory

/-! ## Instructions -/

inductive Reg
  | rax | rcx | rdx | rbx | rsp | rbp | rsi | rdi
  | r8 | r9 | r10 | r11 | r12 | r13 | r14 | r15
deriving DecidableEq, Repr

/-- The number that stands for a register in an encoding. -/
def Reg.ofCode : Nat → Reg
  | 0 => .rax | 1 => .rcx | 2 => .rdx | 3 => .rbx
  | 4 => .rsp | 5 => .rbp | 6 => .rsi | 7 => .rdi
  | 8 => .r8 | 9 => .r9 | 10 => .r10 | 11 => .r11
  | 12 => .r12 | 13 => .r13 | 14 => .r14 | _ => .r15

/-- Sources stand in front of destinations, as in the AT&T syntax. -/
inductive Instr
  | endbr64
  | push (r : Reg)
  | pop (r : Reg)
  | leave
  | ret
  | call (disp : BitVec 32)
  /-- `mov %src,%dst` on 64 and on 32 bits -/
  | movq (src dst : Reg)
  | movl (src dst : Reg)
  /-- `mov %src,disp(%rbp)`, `mov disp(%rbp),%dst` and `movl $imm,disp(%rbp)` -/
  | store (src : Reg) (disp : BitVec 8)
  | load (disp : BitVec 8) (dst : Reg)
  | storeImm (imm : BitVec 32) (disp : BitVec 8)
  | movImm (imm : BitVec 32) (dst : Reg)
  | addl (src dst : Reg)
  | subq (imm : BitVec 8) (dst : Reg)
  /-- `lea disp(%rip),%dst` -/
  | lea (disp : BitVec 32) (dst : Reg)
deriving DecidableEq, Repr

/-! ## Encoding -/

/-- Four bytes, the low one first. -/
def word32 : List (BitVec 8) → Option (BitVec 32)
  | b₀ :: b₁ :: b₂ :: b₃ :: _ => some (b₃ ++ b₂ ++ b₁ ++ b₀)
  | _ => none

/-- The bits `W`, `R` and `B` of a REX prefix. -/
structure Rex where
  w : Bool
  r : Bool
  b : Bool
deriving DecidableEq

/-- The fields of a ModRM byte, the two registers with their bits of the prefix. -/
def modOf (modrm : BitVec 8) : Nat := modrm.toNat / 64

def regOf (rex : Rex) (modrm : BitVec 8) : Reg :=
  Reg.ofCode (modrm.toNat / 8 % 8 + if rex.r then 8 else 0)

def rmOf (rex : Rex) (modrm : BitVec 8) : Reg :=
  Reg.ofCode (modrm.toNat % 8 + if rex.b then 8 else 0)

/-- An instruction behind its prefix, and its length. -/
def decodeOpcode (rex : Rex) : List (BitVec 8) → Option (Instr × Nat)
  | [] => none
  | op :: rest =>
      match op.toNat, rest with
      | 0x01, modrm :: _ =>
          if modOf modrm = 3 ∧ !rex.w then some (.addl (regOf rex modrm) (rmOf rex modrm), 2)
          else none
      | 0x83, modrm :: imm :: _ =>
          if modOf modrm = 3 ∧ modrm.toNat / 8 % 8 = 5 ∧ rex.w then
            some (.subq imm (rmOf rex modrm), 3)
          else none
      | 0x89, modrm :: more =>
          if modOf modrm = 3 then
            let move := if rex.w then Instr.movq else Instr.movl
            some (move (regOf rex modrm) (rmOf rex modrm), 2)
          else if modOf modrm = 1 ∧ rmOf rex modrm = .rbp ∧ !rex.w then
            more.head?.map fun disp => (.store (regOf rex modrm) disp, 3)
          else none
      | 0x8b, modrm :: disp :: _ =>
          if modOf modrm = 1 ∧ rmOf rex modrm = .rbp ∧ !rex.w then
            some (.load disp (regOf rex modrm), 3)
          else none
      | 0x8d, modrm :: more =>
          if modOf modrm = 0 ∧ modrm.toNat % 8 = 5 ∧ rex.w then
            (word32 more).map fun disp => (.lea disp (regOf rex modrm), 6)
          else none
      | 0xc3, _ => some (.ret, 1)
      | 0xc7, modrm :: disp :: more =>
          if modOf modrm = 1 ∧ modrm.toNat / 8 % 8 = 0 ∧ rmOf rex modrm = .rbp ∧ !rex.w then
            (word32 more).map fun imm => (.storeImm imm disp, 7)
          else none
      | 0xc9, _ => some (.leave, 1)
      | 0xe8, more => (word32 more).map fun disp => (.call disp, 5)
      | n, more =>
          let r := Reg.ofCode (n % 8 + if rex.b then 8 else 0)
          if n / 8 = 10 then some (.push r, 1)
          else if n / 8 = 11 then some (.pop r, 1)
          else if n / 8 = 23 ∧ !rex.w then (word32 more).map fun imm => (.movImm imm r, 5)
          else none

/-- The first instruction in the bytes, and its length. -/
def decode (bytes : List (BitVec 8)) : Option (Instr × Nat) :=
  match bytes with
  | [] => none
  | b :: rest =>
      if bytes.take 4 = [0xf3, 0x0f, 0x1e, 0xfa] then some (.endbr64, 4)
      else if b.toNat / 16 = 4 then
        let rex : Rex := ⟨b.toNat / 8 % 2 = 1, b.toNat / 4 % 2 = 1, b.toNat % 2 = 1⟩
        (decodeOpcode rex rest).map fun d => (d.1, d.2 + 1)
      else decodeOpcode ⟨false, false, false⟩ bytes

/-! ## States -/

variable {ω : Type}

/-- The registers, the memory, and the world outside that functions like `printf`
act on. -/
structure State (ω : Type) where
  regs : Reg → BitVec 64
  rip : BitVec 64
  mem : Memory
  world : ω

namespace State

abbrev rsp (s : State ω) : BitVec 64 := s.regs .rsp

abbrev rbp (s : State ω) : BitVec 64 := s.regs .rbp

/-- The lower half of a register. -/
def reg32 (s : State ω) (r : Reg) : BitVec 32 := (s.regs r).setWidth 32

def setReg (s : State ω) (r : Reg) (v : BitVec 64) : State ω :=
  { s with regs := Function.update s.regs r v }

@[simp]
theorem setReg_self (s : State ω) (r : Reg) (v : BitVec 64) : (s.setReg r v).regs r = v :=
  Function.update_self _ _ _

theorem setReg_of_ne (s : State ω) {r r' : Reg} (h : r' ≠ r) (v : BitVec 64) :
    (s.setReg r v).regs r' = s.regs r' :=
  Function.update_of_ne h _ _

/-- A write to the lower half of a register clears the upper one. -/
def setReg32 (s : State ω) (r : Reg) (v : BitVec 32) : State ω := s.setReg r (v.setWidth 64)

def jump (s : State ω) (a : BitVec 64) : State ω := { s with rip := a }

/-- The address `disp(%rbp)`. -/
def frameAddr (s : State ω) (disp : BitVec 8) : BitVec 64 := s.rbp + disp.signExtend 64

end State

/-! ## Execution -/

/-- The code from `base` on, the stack, and what is done at the addresses of the
functions that are defined elsewhere. -/
structure Machine (ω : Type) where
  base : BitVec 64
  text : List (BitVec 8)
  stack : Region
  library : BitVec 64 → Option (State ω → Option (State ω))
  text_own : ∀ k < text.length, library (base + BitVec.ofNat 64 k) = none
  text_fits : base.toNat + text.length ≤ 2 ^ 64
  stack_fits : stack.base + stack.len ≤ 2 ^ 64

namespace Machine

variable (m : Machine ω)

/-- The `n` bytes from `a` on are in the stack. -/
def InStack (a : BitVec 64) (n : Nat) : Prop :=
  m.stack.base ≤ a.toNat ∧ a.toNat + n ≤ m.stack.base + m.stack.len

instance (a : BitVec 64) (n : Nat) : Decidable (m.InStack a n) :=
  inferInstanceAs (Decidable (_ ∧ _))

def read (s : State ω) (a : BitVec 64) (n : Nat) : Option Nat :=
  if m.InStack a n then some (ByteMemory.load s.mem a.toNat n) else none

def write (s : State ω) (a : BitVec 64) (n v : Nat) : Option (State ω) :=
  if m.InStack a n then some { s with mem := ByteMemory.store s.mem a.toNat n v } else none

def push (s : State ω) (v : BitVec 64) : Option (State ω) :=
  (m.write s (s.rsp - 8) 8 v.toNat).map fun t => t.setReg .rsp (s.rsp - 8)

def pop (s : State ω) : Option (BitVec 64 × State ω) :=
  (m.read s s.rsp 8).map fun v => (BitVec.ofNat 64 v, s.setReg .rsp (s.rsp + 8))

/-- One instruction; the next one is at `next`. -/
def exec (s : State ω) (next : BitVec 64) : Instr → Option (State ω)
  | .endbr64 => some (s.jump next)
  | .push r => (m.push s (s.regs r)).map fun t => t.jump next
  | .pop r => (m.pop s).map fun p => (p.2.setReg r p.1).jump next
  | .leave => (m.pop (s.setReg .rsp s.rbp)).map fun p => (p.2.setReg .rbp p.1).jump next
  | .ret => (m.pop s).map fun p => p.2.jump p.1
  | .call disp => (m.push s next).map fun t => t.jump (next + disp.signExtend 64)
  | .movq src dst => some ((s.setReg dst (s.regs src)).jump next)
  | .movl src dst => some ((s.setReg32 dst (s.reg32 src)).jump next)
  | .store src disp =>
      (m.write s (s.frameAddr disp) 4 (s.reg32 src).toNat).map fun t => t.jump next
  | .load disp dst =>
      (m.read s (s.frameAddr disp) 4).map fun v => (s.setReg32 dst (BitVec.ofNat 32 v)).jump next
  | .storeImm imm disp => (m.write s (s.frameAddr disp) 4 imm.toNat).map fun t => t.jump next
  | .movImm imm dst => some ((s.setReg32 dst imm).jump next)
  | .addl src dst => some ((s.setReg32 dst (s.reg32 dst + s.reg32 src)).jump next)
  | .subq imm dst => some ((s.setReg dst (s.regs dst - imm.signExtend 64)).jump next)
  | .lea disp dst => some ((s.setReg dst (next + disp.signExtend 64)).jump next)

/-- The instruction at an offset of the code. -/
def fetch (offset : Nat) : Option (Instr × Nat) := decode (m.text.drop offset)

def step (s : State ω) : Option (State ω) :=
  match m.library s.rip with
  | some f => f s
  | none =>
      (m.fetch (s.rip - m.base).toNat).bind fun d => m.exec s (s.rip + BitVec.ofNat 64 d.2) d.1

/-- A step inside of the code, and one of a function that is linked to it. -/
theorem step_eq {s : State ω} {offset len : Nat} {i : Instr}
    (hRip : s.rip = m.base + BitVec.ofNat 64 offset)
    (hFetch : m.fetch offset = some (i, len)) :
    m.step s = m.exec s (m.base + BitVec.ofNat 64 (offset + len)) i := by
  have hInside : offset < m.text.length := by
    by_contra hOut
    unfold fetch at hFetch
    rw [List.drop_eq_nil_of_le (by omega)] at hFetch
    simp [decode] at hFetch
  have hFits := m.text_fits
  have hOffset : (s.rip - m.base).toNat = offset := by
    rw [hRip, BitVec.add_comm, BitVec.add_sub_cancel, BitVec.toNat_ofNat,
      Nat.mod_eq_of_lt (by omega)]
  have hNext : s.rip + BitVec.ofNat 64 len = m.base + BitVec.ofNat 64 (offset + len) := by
    rw [hRip, BitVec.ofNat_add, BitVec.add_assoc]
  unfold step
  rw [hRip, m.text_own offset hInside, ← hRip, hOffset, hFetch]
  simp only [Option.bind_some, hNext]

theorem step_library {m : Machine ω} {s : State ω} {f : State ω → Option (State ω)}
    (h : m.library s.rip = some f) : m.step s = f s := by
  unfold step
  rw [h]

end Machine

/-! ## Signals -/

/-- A handler that runs on the stack of the program leaves the 128 bytes below
`%rsp` alone and gives all registers back. -/
def State.signal (s : State ω) (stack : Region) (frame : Memory) : State ω :=
  { s with mem := fun x => if stack.base ≤ x ∧ x + 128 < s.rsp.toNat then frame x else s.mem x }

inductive Action
  | step
  | signal (frame : Memory)

/-- The actions that are steps of the program itself. -/
def Action.own : Action → Bool
  | .step => true
  | .signal _ => false

def Machine.act (m : Machine ω) (s : State ω) : Action → Option (State ω)
  | .step => m.step s
  | .signal frame => some (s.signal m.stack frame)

end X86
