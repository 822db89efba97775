import LinuxCppLearn.StackFrame.Model

/-!
# What the machine code does

`Add` and `main` of `example.s` do what `example.c` says, and they keep to the
calling convention: whatever signals are handled while they run, they return to
their caller with its frame, its registers and its stack as they were.

* `add_leads` — the 13 steps of `Add`.
* `PrintfSpec` — what is assumed of `printf`.
* `main_leads` — the 36 steps of `main`, with the calls of both.
-/

namespace LinuxCppLearn
namespace StackFrame

open X86 Regions ByteMemory StepSystem

variable {ω : Type} {p : Program} {printf : State ω → Option (State ω)} {s₀ s : State ω}

/-! ## Add -/

/-- The sum that C defines is the sum on 32 bits. -/
theorem toInt_sum {x y : BitVec 32} {z : Int} (h : add x.toInt y.toInt = some z) :
    (x + y).toInt = z := by
  simp only [add] at h
  split at h
  · rename_i hFits
    simp only [Option.some.injEq] at h
    rw [BitVec.toInt_add, ← h]
    exact Int.bmod_eq_of_le (by omega) (by omega)
  · simp at h

/-- The body of `Add`, between the two frame pointers. -/
theorem add_body (l : Layout) (x y : BitVec 64) (w : ω) :
    ∃ sym : Sym ω, Sym.steps l.base l.text 32 8 ⟨8, 0, [(.rdi, x), (.rsi, y)], [], w⟩ = some sym ∧
      sym.offset = 0x23 ∧ sym.depth = 0 ∧ sym.world = w ∧
      (Reg.rax, (x.setWidth 32 + y.setWidth 32).setWidth 64) ∈ sym.regs := by
  refine ⟨_, rfl, rfl, rfl, rfl, List.mem_cons.mpr (.inl (Prod.ext rfl ?_))⟩
  simp [BitVec.add_comm]

theorem add_leads (hRoom : Room (p.machine printf) s₀ 32) :
    Leads (p.machine printf) (Entered (p.machine printf) s₀ p.base) 13
      (Returned (p.machine printf) s₀
        [(.rax, (s₀.reg32 .rdi + s₀.reg32 .rsi).setWidth 64)] s₀.world) := by
  obtain ⟨sym, hBody, hOffset, hDepth, hWorld, hSum⟩ :=
    add_body p.toLayout (s₀.regs .rdi) (s₀.regs .rsi) s₀.world
  have hEntry : (p.machine printf).base + BitVec.ofNat 64 0 = p.base := by
    rw [BitVec.add_zero]
    rfl
  have hArgs : ∀ r ∈ [Reg.rdi, Reg.rsi], r ∈ scratch := by decide
  have hBegin := Entered.prologue (m := p.machine printf) (e := 0) hArgs hRoom (by omega)
    rfl rfl rfl
  have hMiddle : Leads (p.machine printf) _ 8 _ := Holds.leads hRoom hBody
  have hEnd : Leads (p.machine printf) (Holds (p.machine printf) s₀ sym) 2 _ :=
    Holds.epilogue hRoom (by omega) hDepth (by rw [hOffset]; rfl) (by rw [hOffset]; rfl)
  rw [hEntry] at hBegin
  refine ((hBegin.trans hMiddle).trans hEnd).mono (fun _ h => h) fun s h => ?_
  rw [hWorld] at h
  refine h.mono fun q hMem => ?_
  rw [List.mem_singleton.mp hMem]
  exact hSum

/-! ## What the linker has filled in -/

theorem word_bytes32 (v : BitVec 32) :
    v.extractLsb' 24 8 ++ v.extractLsb' 16 8 ++ v.extractLsb' 8 8 ++ v.extractLsb' 0 8 = v := by
  ext i hi
  simp
  grind

/-- From behind its field a symbol is reached. -/
theorem Program.reach (p : Program) (offset : Nat) (sym : Symbol)
    (hMem : (offset, sym) ∈ relocations) :
    p.base + BitVec.ofNat 64 (offset + 4) +
        ((p.distance offset sym).setWidth 32).signExtend 64 = p.address sym := by
  rw [p.near (offset, sym) hMem]
  unfold Layout.distance
  rw [BitVec.add_comm, BitVec.sub_add_cancel]

theorem fetch_call_add : (p.machine printf).fetch 0x50 =
    some (.call ((p.distance 0x51 .add).setWidth 32), 5) := by
  rw [← word_bytes32 ((p.distance 0x51 .add).setWidth 32)]
  rfl

theorem fetch_call_printf : (p.machine printf).fetch 0x6c =
    some (.call ((p.distance 0x6d .printf).setWidth 32), 5) := by
  rw [← word_bytes32 ((p.distance 0x6d .printf).setWidth 32)]
  rfl

/-! ## main -/

/-- The string that is handed to `printf`. -/
def FormatAt (mem : Memory) (a : Nat) : Prop :=
  ∀ i < formatString.length, mem (a + i) = formatString.getD i 0

/-- `printf("%d\n", v)` by the calling convention: the stack is aligned to 16 bytes, `%al`
says that no vector registers are used, and the function returns with `v` printed.  What
the library keeps in memory of its own is part of the world. -/
def PrintfSpec (m : Machine ω) (format : BitVec 64) (printf : State ω → Option (State ω))
    (need : Nat) (Prints : Int → ω → ω → Prop) : Prop :=
  ∀ s, Room m s need → (s.rsp.toNat + 8) % 16 = 0 → s.regs .rdi = format →
    FormatAt s.mem format.toNat → (s.regs .rax).setWidth 8 = 0#8 →
    ∃ s' w, printf s = some s' ∧ Returned m s [] w s' ∧ Prints (s.reg32 .rsi).toInt s.world w

/-- `main` in front of its call of `Add`. -/
def beforeAdd (w : ω) : Sym ω :=
  ⟨0x50, 0x10, [(.rdi, 10), (.rsi, 20), (.rax, 10), (.rdx, 20)], [(4, 0), (8, 20), (12, 10)], w⟩

/-- `main` in front of its call of `printf`. -/
def beforePrintf (format : BitVec 64) (w : ω) : Sym ω :=
  ⟨0x6c, 0x10, [(.rax, 0), (.rdi, format), (.rsi, 30)], [(4, 30), (8, 20), (12, 10)], w⟩

theorem main_first (l : Layout) (w : ω) :
    Sym.steps l.base l.text 64 8 ⟨0x2d, 0, [], [], w⟩ = some (beforeAdd w) := by
  rfl

theorem main_second (p : Program) (w : ω) :
    Sym.steps p.base p.text 64 6 ((beforeAdd w).afterCall 0x55 [(.rax, 30)] w) =
      some (beforePrintf p.format w) := by
  have hFormat : p.format = p.base + BitVec.ofNat 64 (0x5d + 7) +
      ((p.distance 0x60 .format).setWidth 32).signExtend 64 :=
    (p.reach 0x60 .format (by decide)).symm
  rw [hFormat, ← word_bytes32 ((p.distance 0x60 .format).setWidth 32)]
  rfl

theorem main_third (l : Layout) (format : BitVec 64) (w : ω) :
    Sym.steps l.base l.text 64 1 ((beforePrintf format w).afterCall 0x71 [] w) =
      some ⟨0x76, 0x10, [(.rax, 0)], [(4, 30), (8, 20), (12, 10)], w⟩ := by
  rfl

section Main

variable {need : Nat} {Prints : Int → ω → ω → Prop}

theorem main_calls_add (hRoom : Room (p.machine printf) s₀ 64) :
    Leads (p.machine printf) (Holds (p.machine printf) s₀ (beforeAdd s₀.world)) 14
      (Holds (p.machine printf) s₀
        ((beforeAdd s₀.world).afterCall 0x55 [(.rax, 30)] s₀.world)) := by
  have hTarget : (p.machine printf).base + BitVec.ofNat 64 0x55 +
      ((p.distance 0x51 .add).setWidth 32).signExtend 64 = p.base :=
    p.reach 0x51 .add (by decide)
  have hIn : (beforeAdd s₀.world).depth + 16 ≤ 64 := by
    simp only [beforeAdd]
    omega
  have hCall : Leads (p.machine printf) (Holds (p.machine printf) s₀ (beforeAdd s₀.world)) 14
      fun s => ∃ w, w = s₀.world ∧ Holds (p.machine printf) s₀
        ((beforeAdd s₀.world).afterCall 0x55 [(.rax, 30)] w) s := by
    refine Leads.call (n := 13) hRoom hIn fetch_call_add hTarget fun s₁ hCalled _ => ?_
    have hCallee : Room (p.machine printf) s₁ 32 := hCalled.callee_room hRoom (by
      simp only [beforeAdd]
      omega)
    have hFirst : s₁.regs .rdi = 10 :=
      (hCalled.regs (.rdi, 10) (by simp [beforeAdd, Sym.calling])).2
    have hSecond : s₁.regs .rsi = 20 :=
      (hCalled.regs (.rsi, 20) (by simp [beforeAdd, Sym.calling])).2
    refine (add_leads hCallee).mono (fun _ h => h) fun s h => ⟨s₁.world, hCalled.world, ?_⟩
    unfold State.reg32 at h
    rw [hFirst, hSecond] at h
    exact h
  refine hCall.mono (fun _ h => h) fun s h => ?_
  obtain ⟨w, rfl, hHolds⟩ := h
  exact hHolds

/-- The string is not in the stack. -/
theorem FormatAt.kept {s₁ : State ω} (h : FormatAt s₀.mem p.format.toNat)
    (hKept : Untouched (p.machine printf) s₀ s₁)
    (hHigh : s₀.rsp.toNat ≤ p.stack.base + p.stack.len) : FormatAt s₁.mem p.format.toNat := by
  intro i hIndex
  rw [← h i hIndex]
  refine hKept.outside hHigh ?_
  rcases p.format_outside with hBelow | hAbove
  · exact .inr (Nat.le_trans hBelow (Nat.le_add_right _ _))
  · exact .inl (Nat.lt_of_lt_of_le (Nat.add_lt_add_left hIndex _) hAbove)

/-- What `printf` asks for is there when `main` calls it. -/
theorem printf_applies {back : BitVec 64} {s₁ : State ω}
    (hRoom : Room (p.machine printf) s₀ (need + 32)) (hCallee : Room (p.machine printf) s₁ need)
    (hSpec : PrintfSpec (p.machine printf) p.format printf need Prints)
    (hAligned : (s₀.rsp.toNat + 8) % 16 = 0) (hFormat : FormatAt s₀.mem p.format.toNat)
    (hCalled : Called (p.machine printf) s₀ (beforePrintf p.format s₀.world) back s₁)
    (hEntered : Entered (p.machine printf) s₁ p.printf s) :
    ∃ s' w, printf s = some s' ∧ Returned (p.machine printf) s [] w s' ∧
      Prints 30 s₀.world w := by
  have hRegs := hCalled.regs
  have hWorld : s.world = s₀.world := hEntered.world.trans hCalled.world
  have hRbp := hCalled.rbp
  have hDepth : s₁.rsp.toNat + 0x18 = s₁.rbp.toNat := hCalled.rsp
  have hRsp : s.rsp = s₁.rsp := congrFun hEntered.regs .rsp
  have hReg {r : Reg} {x : BitVec 64} (hMem : (r, x) ∈ [(Reg.rax, 0#64), (.rdi, p.format),
      (.rsi, 30#64)]) : s.regs r = x :=
    (congrFun hEntered.regs r).trans (hRegs (r, x) hMem).2
  have hValue : (s.reg32 .rsi).toInt = 30 := by
    unfold State.reg32
    rw [hReg (r := .rsi) (x := 30#64) (by simp)]
    rfl
  have hString : FormatAt s.mem p.format.toNat :=
    (hFormat.kept hCalled.toUntouched hRoom.below_top).kept hEntered.toUntouched hCallee.below_top
  obtain ⟨s', w, hTaken, hBack, hPrints⟩ := hSpec s
    ⟨by rw [hRsp]; exact hCallee.low, by rw [hRsp]; exact hCallee.high⟩ (by rw [hRsp]; omega)
    (hReg (by simp)) hString (by rw [hReg (r := .rax) (x := 0#64) (by simp)]; rfl)
  rw [hValue, hWorld] at hPrints
  exact ⟨s', w, hTaken, hBack, hPrints⟩

theorem main_calls_printf (hRoom : Room (p.machine printf) s₀ (need + 32))
    (hSpec : PrintfSpec (p.machine printf) p.format printf need Prints)
    (hAligned : (s₀.rsp.toNat + 8) % 16 = 0) (hFormat : FormatAt s₀.mem p.format.toNat) :
    Leads (p.machine printf) (Holds (p.machine printf) s₀ (beforePrintf p.format s₀.world)) 2
      fun s => ∃ w, Prints 30 s₀.world w ∧ Holds (p.machine printf) s₀
        ((beforePrintf p.format s₀.world).afterCall 0x71 [] w) s := by
  have hTarget : (p.machine printf).base + BitVec.ofNat 64 0x71 +
      ((p.distance 0x6d .printf).setWidth 32).signExtend 64 = p.printf :=
    p.reach 0x6d .printf (by decide)
  have hIn : (beforePrintf p.format s₀.world).depth + 16 ≤ need + 32 := by
    simp only [beforePrintf]
    omega
  refine Leads.call (n := 1) hRoom hIn fetch_call_printf hTarget fun s₁ hCalled _ => ?_
  have hCallee : Room (p.machine printf) s₁ need := hCalled.callee_room hRoom (by
    simp only [beforePrintf]
    omega)
  refine Leads.one Entered.stable (fun s frame ⟨w, hOk, hBack⟩ =>
    ⟨w, hOk, Returned.stable s frame hBack⟩) fun s hEntered => ?_
  obtain ⟨s', w, hTaken, hBack, hPrints⟩ := printf_applies hRoom hCallee hSpec hAligned hFormat
    hCalled hEntered
  refine ⟨s', ?_, w, hPrints, hEntered.returned (by have := hCallee.low; omega) hBack⟩
  have hLibrary : (p.machine printf).library s.rip = some printf := by
    rw [hEntered.rip]
    exact if_pos rfl
  rw [Machine.step_library hLibrary]
  exact hTaken

/-- Behind the call of `printf`. -/
theorem main_ends (hRoom : Room (p.machine printf) s₀ 64) (w : ω) :
    Leads (p.machine printf)
      (Holds (p.machine printf) s₀ ((beforePrintf p.format s₀.world).afterCall 0x71 [] w)) 3
      (Returned (p.machine printf) s₀ [(.rax, 0)] w) :=
  (Holds.leads hRoom (main_third p.toLayout p.format w)).trans
    (Holds.epilogue_leave hRoom (by omega) rfl rfl)

theorem main_leads (hRoom : Room (p.machine printf) s₀ (max 64 (need + 32)))
    (hSpec : PrintfSpec (p.machine printf) p.format printf need Prints)
    (hAligned : (s₀.rsp.toNat + 8) % 16 = 0) (hFormat : FormatAt s₀.mem p.format.toNat) :
    Leads (p.machine printf)
      (Entered (p.machine printf) s₀ (p.base + BitVec.ofNat 64 mainOffset)) 36
      fun s => ∃ w, Prints 30 s₀.world w ∧ Returned (p.machine printf) s₀ [(.rax, 0)] w s := by
  have hOwn : Room (p.machine printf) s₀ 64 := hRoom.mono (Nat.le_max_left _ _)
  have hLibrary : Room (p.machine printf) s₀ (need + 32) := hRoom.mono (Nat.le_max_right _ _)
  have hArgs : ∀ r ∈ ([] : List Reg), r ∈ scratch := by decide
  have hBegin := Entered.prologue (m := p.machine printf) (e := 0x25) hArgs hOwn (by omega)
    rfl rfl rfl
  have hFirst : Leads (p.machine printf) _ 8 (Holds _ s₀ (beforeAdd s₀.world)) :=
    Holds.leads hOwn (main_first p.toLayout s₀.world)
  have hSecond : Leads (p.machine printf) _ 6 (Holds _ s₀ (beforePrintf p.format s₀.world)) :=
    Holds.leads hOwn (main_second p s₀.world)
  have hEnd : Leads (p.machine printf) (fun s => ∃ w, Prints 30 s₀.world w ∧
      Holds (p.machine printf) s₀ ((beforePrintf p.format s₀.world).afterCall 0x71 [] w) s) 3
      fun s => ∃ w, Prints 30 s₀.world w ∧ Returned (p.machine printf) s₀ [(.rax, 0)] w s := by
    refine Leads.exists fun w s h => ?_
    exact (main_ends hOwn w).mono (fun _ h => h) (fun t hBack => ⟨w, h.1, hBack⟩) s h.2
  exact ((((hBegin.trans hFirst).trans (main_calls_add hOwn)).trans hSecond).trans
    (main_calls_printf hLibrary hSpec hAligned hFormat)).trans hEnd

end Main

/-! ## A loaded program -/

/-- Code, string, `printf` and stack on pages of their own. -/
def loaded : Program where
  base := 0x1000
  format := 0x2000
  printf := 0x3000
  stack := ⟨0x7000, 0x1000⟩
  near := by decide
  text_fits := by decide
  stack_fits := by decide
  printf_outside := by decide
  format_outside := by decide

/-- `printf` on a string to which the output is appended; `%rax` gets its length. -/
def printDecimal (s : State String) : Option (State String) :=
  let text := toString (s.reg32 .rsi).toInt ++ "\n"
  let back := BitVec.ofNat 64 (load s.mem s.rsp.toNat 8)
  some { ((s.setReg .rsp (s.rsp + 8)).setReg .rax (BitVec.ofNat 64 text.length)).jump back with
    world := s.world ++ text }

theorem printDecimal_spec {m : Machine String} {format : BitVec 64} {need : Nat} :
    PrintfSpec m format printDecimal need
      fun v w w' => w' = w ++ (toString v ++ "\n") := by
  intro s _ _ _ _ _
  let length := BitVec.ofNat 64 (toString (s.reg32 .rsi).toInt ++ "\n").length
  let t := (s.setReg .rsp (s.rsp + 8)).setReg .rax length
  have hRsp : t.rsp = s.rsp + 8 :=
    (State.setReg_of_ne _ (by decide) length).trans (s.setReg_self .rsp _)
  have hOther {r : Reg} (hNotRsp : r ≠ .rsp) (hNotRax : r ≠ .rax) : t.regs r = s.regs r :=
    (State.setReg_of_ne _ hNotRax length).trans (s.setReg_of_ne hNotRsp _)
  have hRbp : t.rbp = s.rbp := hOther (by decide) (by decide)
  refine ⟨_, _, rfl, ⟨⟨SameOutside.refl _ _, ?_⟩, rfl, hRsp, hRbp, rfl, by simp⟩, rfl⟩
  intro r hCallee
  exact hOther (fun hSame => by simp [hSame, calleeSaved] at hCallee)
    (fun hSame => by simp [hSame, calleeSaved] at hCallee)

/-- A call of the code at `a` with 3 and 4 in the first two argument registers. -/
def calledAt (a : BitVec 64) : State String where
  regs
    | .rsp => 0x7f78
    | .rdi => 3
    | .rsi => 4
    | _ => 0
  rip := a
  mem x := formatString.getD (x - 0x2000) 0
  world := ""

/-! ## The two functions for their callers -/

/-- **`Add` adds.**  Called from anywhere with 32 bytes of stack, and with signals at any
time, it makes 13 steps, none of which faults, and is back with the sum in `%eax`; where C
defines the sum of the two `int`s, it is this sum. -/
theorem machine_code_adds (p : Program) (printf : State ω → Option (State ω)) (s₀ : State ω)
    (hEntry : s₀.rip = p.base) (hRoom : Room (p.machine printf) s₀ 32) (as : List Action)
    (hSteps : ownSteps as ≤ 13) :
    ∃ s, run (p.machine printf).act s₀ as = some s ∧ (ownSteps as = 13 →
      Returned (p.machine printf) s₀ [] s₀.world s ∧
      s.reg32 .rax = s₀.reg32 .rdi + s₀.reg32 .rsi ∧
      ∀ z, add (s₀.reg32 .rdi).toInt (s₀.reg32 .rsi).toInt = some z →
        (s.reg32 .rax).toInt = z) := by
  obtain ⟨s, hRun, hBack⟩ := add_leads hRoom s₀ (hEntry ▸ Entered.refl _ s₀) as hSteps
  refine ⟨s, hRun, fun hAll => ?_⟩
  have hReturned := hBack hAll
  have hSum : s.reg32 .rax = s₀.reg32 .rdi + s₀.reg32 .rsi := by
    have hRax := (hReturned.regs (.rax, _) (List.mem_singleton.mpr rfl)).2
    unfold State.reg32 at hRax ⊢
    rw [hRax]
    simp
  refine ⟨hReturned.mono (by simp), hSum, fun z hDefined => ?_⟩
  rw [hSum]
  exact toInt_sum hDefined

theorem machine_code_adds_three_four :
    ∃ s, run (loaded.machine printDecimal).act (calledAt 0x1000)
        (.step :: .signal (fun _ => 0xff) :: List.replicate 12 .step) = some s ∧
      (s.reg32 .rax).toInt = 7 := by
  have hRoom : Room (loaded.machine printDecimal) (calledAt 0x1000) 32 := by
    constructor <;> decide
  obtain ⟨s, hRun, hBack⟩ := machine_code_adds loaded printDecimal (calledAt 0x1000) rfl hRoom
    (.step :: .signal (fun _ => 0xff) :: List.replicate 12 .step) (by decide)
  obtain ⟨-, -, hSum⟩ := hBack (by decide)
  exact ⟨s, hRun, hSum 7 (by decide)⟩

/-- **`main` prints the sum and returns 0.** -/
theorem machine_code_prints (p : Program) (printf : State ω → Option (State ω)) (s₀ : State ω)
    {need : Nat} {Prints : Int → ω → ω → Prop}
    (hEntry : s₀.rip = p.base + BitVec.ofNat 64 mainOffset)
    (hRoom : Room (p.machine printf) s₀ (max 64 (need + 32)))
    (hAligned : (s₀.rsp.toNat + 8) % 16 = 0) (hFormat : FormatAt s₀.mem p.format.toNat)
    (hSpec : PrintfSpec (p.machine printf) p.format printf need Prints)
    (as : List Action) (hSteps : ownSteps as ≤ 36) :
    ∃ s, run (p.machine printf).act s₀ as = some s ∧ (ownSteps as = 36 →
      ∃ c, main = some (c, (s.reg32 .rax).toInt) ∧ Prints c s₀.world s.world ∧
        Returned (p.machine printf) s₀ [] s.world s) := by
  obtain ⟨s, hRun, hBack⟩ := main_leads hRoom hSpec hAligned hFormat s₀
    (hEntry ▸ Entered.refl _ s₀) as hSteps
  refine ⟨s, hRun, fun hAll => ?_⟩
  obtain ⟨w, hPrints, hReturned⟩ := hBack hAll
  obtain rfl : s.world = w := hReturned.world
  have hRax : s.regs .rax = 0 := (hReturned.regs (.rax, 0) (List.mem_singleton.mpr rfl)).2
  refine ⟨30, ?_, hPrints, hReturned.mono (by simp)⟩
  unfold State.reg32
  rw [hRax]
  decide

theorem machine_code_prints_thirty :
    ∃ s, run (loaded.machine printDecimal).act (calledAt 0x1025)
        (List.replicate 30 .step ++ .signal (fun _ => 0xff) :: List.replicate 6 .step) = some s ∧
      s.world = "30\n" ∧ (s.reg32 .rax).toInt = 0 := by
  have hRoom : Room (loaded.machine printDecimal) (calledAt 0x1025) (max 64 (0 + 32)) := by
    constructor <;> decide
  have hFormat : FormatAt (calledAt 0x1025).mem loaded.format.toNat := by
    unfold FormatAt
    decide
  obtain ⟨s, hRun, hBack⟩ := machine_code_prints loaded printDecimal (calledAt 0x1025) rfl hRoom
    (by decide) hFormat printDecimal_spec
    (List.replicate 30 .step ++ .signal (fun _ => 0xff) :: List.replicate 6 .step) (by decide)
  obtain ⟨c, hMain, hPrints, -⟩ := hBack (by decide)
  have hValues : main = some (30, 0) := by decide
  rw [hValues] at hMain
  simp only [Option.some.injEq, Prod.mk.injEq] at hMain
  obtain ⟨rfl, hZero⟩ := hMain
  exact ⟨s, hRun, hPrints, hZero.symm⟩

end StackFrame
end LinuxCppLearn
