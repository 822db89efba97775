import LinuxCppLearn.Library.Signals

/-!
# Stack frames

What a function of the System V calling convention knows of the state while it
runs, relative to the state `s₀` it has been entered in: its frame lies below
the return address, with the saved frame pointer on top and its locals below.

* `Untouched` — nothing from the entry's stack pointer upward has changed, and
  the registers of the caller have their values.
* `Active` — `%rbp` points to the frame, and `%rsp` lies `depth` bytes below.
* `Sym` — what is known of the scratch registers and the locals; `Sym.step`
  executes an instruction on it.
* `Holds.step` — that execution is right, whatever signals arrive.
-/

namespace X86

open Regions ByteMemory StepSystem

variable {ω : Type} {m : Machine ω} {s₀ s s' : State ω} {a n k v : Nat}

/-! ## What a function leaves alone -/

/-- The registers that a function has to give back, apart from `%rsp` and `%rbp`. -/
def calleeSaved : List Reg := [.rbx, .r12, .r13, .r14, .r15]

/-- The registers that a function may use as it likes. -/
def scratch : List Reg := [.rax, .rcx, .rdx, .rsi, .rdi, .r8, .r9, .r10, .r11]

/-- The stack below an address. -/
def Machine.below (m : Machine ω) (a : Nat) : Region := ⟨m.stack.base, a - m.stack.base⟩

/-- There are `n` bytes of stack below the return address. -/
structure Room (m : Machine ω) (s₀ : State ω) (n : Nat) : Prop where
  low : m.stack.base + n ≤ s₀.rsp.toNat
  high : s₀.rsp.toNat + 8 ≤ m.stack.base + m.stack.len

theorem Room.mono (h : Room m s₀ n) (hLe : k ≤ n) : Room m s₀ k := by
  have hLow := h.low
  exact ⟨by omega, h.high⟩

theorem Room.below_top (h : Room m s₀ n) : s₀.rsp.toNat ≤ m.stack.base + m.stack.len := by
  have hHigh := h.high
  omega

structure Untouched (m : Machine ω) (s₀ s : State ω) : Prop where
  memory : SameOutside s₀.mem s.mem (m.below s₀.rsp.toNat)
  callee : ∀ r ∈ calleeSaved, s.regs r = s₀.regs r

theorem Untouched.refl (m : Machine ω) (s : State ω) : Untouched m s s :=
  ⟨SameOutside.refl _ _, fun _ _ => rfl⟩

/-- What is read from the stack above does not change. -/
theorem Untouched.load_eq (h : Untouched m s₀ s) (hLow : m.stack.base ≤ s₀.rsp.toNat)
    (hHigh : s₀.rsp.toNat ≤ a) : load s.mem a n = load s₀.mem a n := by
  apply h.memory.load_eq
  left
  show m.stack.base + (s₀.rsp.toNat - m.stack.base) ≤ a
  omega

/-- Nothing outside of the stack changes. -/
theorem Untouched.outside (h : Untouched m s₀ s)
    (hHigh : s₀.rsp.toNat ≤ m.stack.base + m.stack.len)
    (hOut : a < m.stack.base ∨ m.stack.base + m.stack.len ≤ a) : s.mem a = s₀.mem a := by
  apply h.memory
  show a < m.stack.base ∨ m.stack.base + (s₀.rsp.toNat - m.stack.base) ≤ a
  omega

theorem Untouched.setReg {r : Reg} {x : BitVec 64} (h : Untouched m s₀ s)
    (hScratch : r ∉ calleeSaved) : Untouched m s₀ (s.setReg r x) := by
  refine ⟨h.memory, fun r' hCallee => ?_⟩
  have hOther : r' ≠ r := fun hSame => hScratch (hSame ▸ hCallee)
  exact (s.setReg_of_ne hOther x).trans (h.callee r' hCallee)

/-- A write below the entry's stack pointer. -/
theorem Untouched.store (h : Untouched m s₀ s) (hLow : m.stack.base ≤ a)
    (hHigh : a + n ≤ s₀.rsp.toNat) :
    Untouched m s₀ { s with mem := ByteMemory.store s.mem a n v } := by
  refine ⟨h.memory.trans (store_sameOutside.mono ⟨hLow, ?_⟩), h.callee⟩
  show a + n ≤ m.stack.base + (s₀.rsp.toNat - m.stack.base)
  omega

/-- A signal handler that runs below the entry's stack pointer. -/
theorem Untouched.signal {frame : Memory} (h : Untouched m s₀ s)
    (hBelow : s.rsp.toNat ≤ s₀.rsp.toNat + 128) :
    Untouched m s₀ (s.signal m.stack frame) := by
  refine ⟨h.memory.trans fun x hOut => if_neg ?_, h.callee⟩
  simp only [Machine.below] at hOut
  omega

/-- Neither the red zone nor what lies above it. -/
theorem load_signal {frame : Memory} (h : s.rsp.toNat ≤ a + 128) :
    load (s.signal m.stack frame).mem a n = load s.mem a n := by
  apply load_congr
  intro x hLow _
  exact if_neg (by omega)

/-! ## The frame of the running function -/

structure Active (m : Machine ω) (s₀ : State ω) (depth : Nat) (s : State ω) : Prop
    extends Untouched m s₀ s where
  rbp : s.rbp.toNat + 8 = s₀.rsp.toNat
  rsp : s.rsp.toNat + depth = s.rbp.toNat
  saved : load s.mem s.rbp.toNat 8 = s₀.rbp.toNat

/-- What is known at a point of the code: its offset, how far `%rsp` lies below the
frame pointer, some scratch registers, and locals by their distance from the frame
pointer. -/
structure Sym (ω : Type) where
  offset : Nat
  depth : Nat
  regs : List (Reg × BitVec 64)
  locals : List (Nat × BitVec 32)
  world : ω

/-- The part of this knowledge that is not about the code. -/
structure Knows (m : Machine ω) (s₀ : State ω) (sym : Sym ω) (s : State ω) : Prop
    extends Active m s₀ sym.depth s where
  world : s.world = sym.world
  regs : ∀ p ∈ sym.regs, p.1 ∈ scratch ∧ s.regs p.1 = p.2
  locals : ∀ p ∈ sym.locals, load s.mem (s.rbp.toNat - p.1) 4 = p.2.toNat
  inFrame : ∀ p ∈ sym.locals,
    4 ≤ p.1 ∧ p.1 ≤ sym.depth + 128 ∧ m.stack.base + p.1 ≤ s.rbp.toNat

structure Holds (m : Machine ω) (s₀ : State ω) (sym : Sym ω) (s : State ω) : Prop
    extends Knows m s₀ sym s where
  rip : s.rip = m.base + BitVec.ofNat 64 sym.offset

/-- No signal handler invalidates the knowledge: it is not about what lies below the
red zone. -/
theorem Knows.signal {sym : Sym ω} {frame : Memory} (h : Knows m s₀ sym s) :
    Knows m s₀ sym (s.signal m.stack frame) := by
  have hRbp := h.rbp
  have hRsp := h.rsp
  refine ⟨⟨h.toUntouched.signal (by omega), hRbp, hRsp, ?_⟩, h.world, h.regs, ?_, h.inFrame⟩
  · have hKept : load (s.signal m.stack frame).mem s.rbp.toNat 8 = load s.mem s.rbp.toNat 8 :=
      load_signal (by omega)
    exact hKept.trans h.saved
  · intro p hMem
    obtain ⟨-, hNear, -⟩ := h.inFrame p hMem
    have hKept : load (s.signal m.stack frame).mem (s.rbp.toNat - p.1) 4 =
        load s.mem (s.rbp.toNat - p.1) 4 := load_signal (by omega)
    exact hKept.trans (h.locals p hMem)

theorem Holds.stable {sym : Sym ω} : Stable m (Holds m s₀ sym) :=
  fun _ _ h => ⟨h.toKnows.signal, h.rip⟩

/-! ## Execution on what is known -/

namespace Sym

variable (sym : Sym ω)

/-- What is known of a scratch register. -/
def reg (r : Reg) : Option (BitVec 64) := sym.regs.lookup r

/-- How far below the frame pointer `disp(%rbp)` lies. -/
def slot (disp : BitVec 8) : Option Nat :=
  if 128 ≤ disp.toNat then some (256 - disp.toNat) else none

def setReg (r : Reg) (v : BitVec 64) : Option (Sym ω) :=
  if r ∈ scratch then some { sym with regs := (r, v) :: sym.regs.filter fun p => p.1 ≠ r }
  else none

/-- A local may also lie in the red zone. -/
def setLocal (room k : Nat) (v : BitVec 32) : Option (Sym ω) :=
  if 4 ≤ k ∧ k ≤ sym.depth + 128 ∧ k + 8 ≤ room then
    some { sym with
      locals := (k, v) :: sym.locals.filter fun p => p.1 + 4 ≤ k ∨ k + 4 ≤ p.1 }
  else none

/-- An instruction inside of a frame; `next` is the offset behind it. -/
def exec (base : BitVec 64) (room next : Nat) : Instr → Option (Sym ω)
  | .movq src dst => (sym.reg src).bind fun v => sym.setReg dst v
  | .movl src dst =>
      (sym.reg src).bind fun v => sym.setReg dst ((v.setWidth 32).setWidth 64)
  | .store src disp =>
      (sym.reg src).bind fun v => (slot disp).bind fun k => sym.setLocal room k (v.setWidth 32)
  | .storeImm imm disp => (slot disp).bind fun k => sym.setLocal room k imm
  | .load disp dst =>
      (slot disp).bind fun k => (sym.locals.lookup k).bind fun v => sym.setReg dst (v.setWidth 64)
  | .movImm imm dst => sym.setReg dst (imm.setWidth 64)
  | .addl src dst =>
      (sym.reg src).bind fun v => (sym.reg dst).bind fun w =>
        sym.setReg dst ((w.setWidth 32 + v.setWidth 32).setWidth 64)
  | .subq imm .rsp =>
      if imm.toNat < 128 ∧ sym.depth + imm.toNat + 8 ≤ room then
        some { sym with depth := sym.depth + imm.toNat }
      else none
  | .lea disp dst => sym.setReg dst (base + BitVec.ofNat 64 next + disp.signExtend 64)
  | _ => none

def step (base : BitVec 64) (text : List (BitVec 8)) (room : Nat) : Option (Sym ω) :=
  (decode (text.drop sym.offset)).bind fun d =>
    (sym.exec base room (sym.offset + d.2) d.1).map fun sym' =>
      { sym' with offset := sym.offset + d.2 }

/-- A stretch of straight-line code. -/
def steps (base : BitVec 64) (text : List (BitVec 8)) (room : Nat) :
    Nat → Sym ω → Option (Sym ω)
  | 0, sym => some sym
  | n + 1, sym => (sym.step base text room).bind (steps base text room n)

end Sym

/-! ## That it is right -/

variable {sym sym' : Sym ω} {room : Nat}

theorem mem_of_lookup {α β : Type*} [DecidableEq α] {l : List (α × β)} {x : α} {y : β}
    (h : l.lookup x = some y) : (x, y) ∈ l := by
  obtain ⟨front, back, rfl, -⟩ := List.lookup_eq_some_iff.mp h
  simp

theorem ne_of_mem_scratch {r : Reg} (h : r ∈ scratch) :
    r ≠ .rsp ∧ r ≠ .rbp ∧ r ∉ calleeSaved := by
  revert h
  cases r <;> decide

/-- The known value of a register. -/
theorem Knows.reg_eq (h : Knows m s₀ sym s) {r : Reg} {x : BitVec 64}
    (hReg : sym.reg r = some x) : s.regs r = x :=
  (h.regs _ (mem_of_lookup hReg)).2

/-- Neither the offset nor `%rip` is part of what is known. -/
theorem Knows.jump (h : Knows m s₀ sym s) (k : Nat) (a : BitVec 64) :
    Knows m s₀ { sym with offset := k } (s.jump a) :=
  ⟨⟨⟨h.memory, h.callee⟩, h.rbp, h.rsp, h.saved⟩, h.world, h.regs, h.locals, h.inFrame⟩

theorem Knows.setReg (h : Knows m s₀ sym s) {r : Reg} {x : BitVec 64}
    (hSet : sym.setReg r x = some sym') : Knows m s₀ sym' (s.setReg r x) := by
  unfold Sym.setReg at hSet
  split at hSet
  · rename_i hScratch
    obtain ⟨hRsp, hRbp, hCallee⟩ := ne_of_mem_scratch hScratch
    simp only [Option.some.injEq] at hSet
    subst hSet
    have hRsp' : (s.setReg r x).rsp = s.rsp := s.setReg_of_ne (Ne.symm hRsp) x
    have hRbp' : (s.setReg r x).rbp = s.rbp := s.setReg_of_ne (Ne.symm hRbp) x
    refine ⟨⟨h.toUntouched.setReg hCallee, ?_, ?_, ?_⟩, h.world, ?_, ?_, ?_⟩
    · rw [hRbp']
      exact h.rbp
    · rw [hRsp', hRbp']
      exact h.rsp
    · rw [hRbp']
      exact h.saved
    · intro p hMem
      rcases List.mem_cons.mp hMem with rfl | hOld
      · exact ⟨hScratch, s.setReg_self r x⟩
      · obtain ⟨hOld, hOther⟩ := List.mem_filter.mp hOld
        obtain ⟨hIn, hValue⟩ := h.regs p hOld
        exact ⟨hIn, (s.setReg_of_ne (by simpa using hOther) _).trans hValue⟩
    · intro p hMem
      rw [hRbp']
      exact h.locals p hMem
    · intro p hMem
      rw [hRbp']
      exact h.inFrame p hMem
  · simp at hSet

/-- The address of a local. -/
theorem State.frameAddr_toNat {disp : BitVec 8} (hSlot : Sym.slot disp = some k)
    (hLow : k ≤ s.rbp.toNat) : (s.frameAddr disp).toNat = s.rbp.toNat - k := by
  unfold Sym.slot at hSlot
  split at hSlot
  · rename_i hNegative
    simp only [Option.some.injEq] at hSlot
    have hMsb : disp.msb = true := by
      rw [BitVec.msb_eq_decide]
      exact decide_eq_true hNegative
    have hByte := disp.isLt
    have hBig := s.rbp.isLt
    unfold State.frameAddr
    rw [BitVec.toNat_add, BitVec.toNat_signExtend, hMsb, BitVec.toNat_setWidth]
    simp only [if_true]
    omega
  · simp at hSlot

/-- The local at a slot is in the stack. -/
theorem Knows.inStack (h : Knows m s₀ sym s) (hRoom : Room m s₀ room) {disp : BitVec 8}
    (hSlot : Sym.slot disp = some k) (hFour : 4 ≤ k) (hLow : m.stack.base + k ≤ s.rbp.toNat) :
    (s.frameAddr disp).toNat = s.rbp.toNat - k ∧ m.InStack (s.frameAddr disp) 4 := by
  have hRbp := h.rbp
  have hHigh := hRoom.high
  have hAddr := State.frameAddr_toNat (s := s) hSlot (by omega)
  refine ⟨hAddr, ?_⟩
  unfold Machine.InStack
  omega

theorem Knows.setLocal (h : Knows m s₀ sym s) (hRoom : Room m s₀ room) {disp : BitVec 8}
    {x : BitVec 32} (hSlot : Sym.slot disp = some k)
    (hSet : sym.setLocal room k x = some sym') :
    ∃ t, m.write s (s.frameAddr disp) 4 x.toNat = some t ∧ Knows m s₀ sym' t := by
  unfold Sym.setLocal at hSet
  split at hSet
  · rename_i hPlace
    obtain ⟨hFour, hNear, hIn⟩ := hPlace
    simp only [Option.some.injEq] at hSet
    subst hSet
    have hRbp := h.rbp
    have hLow := hRoom.low
    obtain ⟨hAddr, hStack⟩ := h.inStack hRoom hSlot hFour (by omega)
    refine ⟨_, if_pos hStack, ?_⟩
    rw [hAddr]
    refine ⟨⟨h.toUntouched.store (by omega) (by omega), h.rbp, h.rsp, ?_⟩, h.world, h.regs, ?_, ?_⟩
    · refine (store_sameOutside.load_eq (.inl ?_)).trans h.saved
      show s.rbp.toNat - k + 4 ≤ s.rbp.toNat
      omega
    · intro p hMem
      rcases List.mem_cons.mp hMem with rfl | hOld
      · exact load_store (by have := x.isLt; omega)
      · obtain ⟨hOld, hApart⟩ := List.mem_filter.mp hOld
        obtain ⟨-, -, hLow'⟩ := h.inFrame p hOld
        simp only [decide_eq_true_eq] at hApart
        have hRegions : Region.Apart ⟨s.rbp.toNat - k, 4⟩ ⟨s.rbp.toNat - p.1, 4⟩ := by
          unfold Region.Apart
          dsimp only
          omega
        exact (store_sameOutside.load_eq hRegions).trans (h.locals p hOld)
    · intro p hMem
      rcases List.mem_cons.mp hMem with rfl | hOld
      · exact ⟨hFour, hNear, (by omega : m.stack.base + k ≤ s.rbp.toNat)⟩
      · exact h.inFrame p (List.mem_filter.mp hOld).1
  · simp at hSet

/-- What is read from a local. -/
theorem Knows.getLocal (h : Knows m s₀ sym s) (hRoom : Room m s₀ room) {disp : BitVec 8}
    {x : BitVec 32} (hSlot : Sym.slot disp = some k) (hKnown : sym.locals.lookup k = some x) :
    m.read s (s.frameAddr disp) 4 = some x.toNat := by
  have hMem := mem_of_lookup hKnown
  obtain ⟨hFour, -, hLow⟩ := h.inFrame _ hMem
  obtain ⟨hAddr, hStack⟩ := h.inStack hRoom hSlot hFour hLow
  unfold Machine.read
  rw [if_pos hStack, hAddr, h.locals _ hMem]

/-- Room for more locals. -/
theorem Knows.reserve (h : Knows m s₀ sym s) (hRoom : Room m s₀ room) {imm : BitVec 8}
    (hSmall : imm.toNat < 128) (hIn : sym.depth + imm.toNat + 8 ≤ room) :
    Knows m s₀ { sym with depth := sym.depth + imm.toNat }
      (s.setReg .rsp (s.rsp - imm.signExtend 64)) := by
  have hRbp := h.rbp
  have hRsp := h.rsp
  have hLow := hRoom.low
  have hMsb : imm.msb = false := by
    rw [BitVec.msb_eq_decide]
    exact decide_eq_false (by omega)
  have hSub : (s.rsp - imm.signExtend 64).toNat + imm.toNat = s.rsp.toNat := by
    have hBig := s.rsp.isLt
    rw [BitVec.toNat_sub, BitVec.toNat_signExtend, hMsb, BitVec.toNat_setWidth]
    simp only [Bool.false_eq_true, if_false]
    omega
  refine ⟨⟨h.toUntouched.setReg (by decide), h.rbp, ?_, h.saved⟩, h.world, ?_, h.locals, ?_⟩
  · rw [State.rsp, State.setReg_self]
    show (s.rsp - imm.signExtend 64).toNat + (sym.depth + imm.toNat) = s.rbp.toNat
    omega
  · intro p hMem
    obtain ⟨hScratch, hValue⟩ := h.regs p hMem
    exact ⟨hScratch, (s.setReg_of_ne (ne_of_mem_scratch hScratch).1 _).trans hValue⟩
  · intro p hMem
    obtain ⟨hFour, hNear, hLow⟩ := h.inFrame p hMem
    exact ⟨hFour, (by omega : p.1 ≤ sym.depth + imm.toNat + 128), hLow⟩

/-- **Execution on what is known is right**: the instruction does not fault, and the
new knowledge holds behind it. -/
theorem Knows.exec (h : Knows m s₀ sym s) (hRoom : Room m s₀ room) {next : Nat} {i : Instr}
    (hExec : sym.exec m.base room next i = some sym') :
    ∃ t, m.exec s (m.base + BitVec.ofNat 64 next) i =
        some (t.jump (m.base + BitVec.ofNat 64 next)) ∧ Knows m s₀ sym' t := by
  cases i with
  | endbr64 | push | pop | leave | ret | call => simp [Sym.exec] at hExec
  | movq src dst =>
      simp only [Sym.exec, Option.bind_eq_some_iff] at hExec
      obtain ⟨v, hReg, hSet⟩ := hExec
      refine ⟨_, rfl, ?_⟩
      rw [h.reg_eq hReg]
      exact h.setReg hSet
  | movl src dst =>
      simp only [Sym.exec, Option.bind_eq_some_iff] at hExec
      obtain ⟨v, hReg, hSet⟩ := hExec
      refine ⟨_, rfl, ?_⟩
      unfold State.setReg32 State.reg32
      rw [h.reg_eq hReg]
      exact h.setReg hSet
  | store src disp =>
      simp only [Sym.exec, Option.bind_eq_some_iff] at hExec
      obtain ⟨v, hReg, k, hSlot, hSet⟩ := hExec
      obtain ⟨t, hWrite, hKnows⟩ := h.setLocal hRoom hSlot hSet
      refine ⟨t, ?_, hKnows⟩
      unfold Machine.exec State.reg32
      simp only [h.reg_eq hReg, hWrite, Option.map_some]
  | load disp dst =>
      simp only [Sym.exec, Option.bind_eq_some_iff] at hExec
      obtain ⟨k, hSlot, v, hKnown, hSet⟩ := hExec
      have hRead := h.getLocal hRoom hSlot hKnown
      refine ⟨s.setReg32 dst v, ?_, h.setReg hSet⟩
      unfold Machine.exec
      simp only [hRead, Option.map_some, BitVec.ofNat_toNat, BitVec.setWidth_eq]
  | storeImm imm disp =>
      simp only [Sym.exec, Option.bind_eq_some_iff] at hExec
      obtain ⟨k, hSlot, hSet⟩ := hExec
      obtain ⟨t, hWrite, hKnows⟩ := h.setLocal hRoom hSlot hSet
      refine ⟨t, ?_, hKnows⟩
      unfold Machine.exec
      simp only [hWrite, Option.map_some]
  | movImm imm dst => exact ⟨_, rfl, h.setReg hExec⟩
  | addl src dst =>
      simp only [Sym.exec, Option.bind_eq_some_iff] at hExec
      obtain ⟨v, hSrc, w, hDst, hSet⟩ := hExec
      refine ⟨_, rfl, ?_⟩
      unfold State.setReg32 State.reg32
      rw [h.reg_eq hSrc, h.reg_eq hDst]
      exact h.setReg hSet
  | subq imm dst =>
      cases dst with
      | rsp =>
          simp only [Sym.exec] at hExec
          split at hExec
          · rename_i hPlace
            simp only [Option.some.injEq] at hExec
            subst hExec
            exact ⟨_, rfl, h.reserve hRoom hPlace.1 hPlace.2⟩
          · simp at hExec
      | _ => simp [Sym.exec] at hExec
  | lea disp dst => exact ⟨_, rfl, h.setReg hExec⟩

theorem Holds.step (h : Holds m s₀ sym s) (hRoom : Room m s₀ room)
    (hStep : sym.step m.base m.text room = some sym') :
    ∃ s', m.step s = some s' ∧ Holds m s₀ sym' s' := by
  unfold Sym.step at hStep
  simp only [Option.bind_eq_some_iff, Option.map_eq_some_iff] at hStep
  obtain ⟨⟨i, len⟩, hFetch, sym₁, hExec, rfl⟩ := hStep
  obtain ⟨t, hTaken, hKnows⟩ := h.toKnows.exec hRoom hExec
  refine ⟨_, ?_, hKnows.jump _ _, rfl⟩
  rw [m.step_eq h.rip hFetch, hTaken]

/-- **A stretch of straight-line code**, whatever signals arrive. -/
theorem Holds.leads {n : Nat} (hRoom : Room m s₀ room)
    (hSteps : Sym.steps m.base m.text room n sym = some sym') :
    Leads m (Holds m s₀ sym) n (Holds m s₀ sym') := by
  induction n generalizing sym with
  | zero =>
      simp only [Sym.steps, Option.some.injEq] at hSteps
      exact hSteps ▸ Leads.nil Holds.stable
  | succ n ih =>
      simp only [Sym.steps, Option.bind_eq_some_iff] at hSteps
      obtain ⟨sym₁, hStep, hRest⟩ := hSteps
      exact Leads.cons Holds.stable (fun s h => h.step hRoom hStep) (ih hRest)

end X86
