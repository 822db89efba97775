import LinuxCppLearn.Library.StackFrames

/-!
# Calls and returns

The parts of a function around its straight-line code: what its first and its
last instructions do to the frame, and what a caller knows when a function that
it has called is back.

* `Entered`, `Returned` — a function at its beginning, and behind its `ret`.
* `Entered.prologue` — `endbr64; push %rbp; mov %rsp,%rbp` make the frame.
* `Holds.epilogue`, `Holds.epilogue_leave` — the frame is gone again.
* `Leads.call` — the rule for calls: only the locals below `%rsp` are lost.
-/

namespace X86

open Regions ByteMemory StepSystem

variable {ω : Type} {m : Machine ω} {s₀ s s' : State ω} {sym : Sym ω} {n k len room : Nat}
  {regs : List (Reg × BitVec 64)} {w : ω}

/-- The function entered in `s₀`, before it has changed anything. -/
structure Entered (m : Machine ω) (s₀ : State ω) (a : BitVec 64) (s : State ω) : Prop
    extends Untouched m s₀ s where
  regs : s.regs = s₀.regs
  world : s.world = s₀.world
  rip : s.rip = a

/-- The function entered in `s₀` is back, with what is known of the scratch registers. -/
structure Returned (m : Machine ω) (s₀ : State ω) (regs : List (Reg × BitVec 64)) (w : ω)
    (s : State ω) : Prop extends Untouched m s₀ s where
  rip : s.rip = BitVec.ofNat 64 (load s₀.mem s₀.rsp.toNat 8)
  rsp : s.rsp = s₀.rsp + 8
  rbp : s.rbp = s₀.rbp
  world : s.world = w
  regs : ∀ p ∈ regs, p.1 ∈ scratch ∧ s.regs p.1 = p.2

theorem Entered.refl (m : Machine ω) (s : State ω) : Entered m s s.rip s :=
  ⟨Untouched.refl m s, rfl, rfl, rfl⟩

theorem Entered.stable {a : BitVec 64} : Stable m (Entered m s₀ a) := by
  intro s frame h
  have hRsp : s.rsp = s₀.rsp := congrFun h.regs .rsp
  refine ⟨h.toUntouched.signal ?_, h.regs, h.world, h.rip⟩
  rw [hRsp]
  omega

theorem Returned.stable : Stable m (Returned m s₀ regs w) := by
  intro s frame h
  have hRsp := h.rsp
  refine ⟨h.toUntouched.signal ?_, h.rip, h.rsp, h.rbp, h.world, h.regs⟩
  have hLe : (s₀.rsp + 8).toNat ≤ s₀.rsp.toNat + 8 := by
    rw [BitVec.toNat_add]
    exact Nat.mod_le _ _
  rw [hRsp]
  omega

/-- A function that returns from where signals have been handled since it was entered. -/
theorem Entered.returned {a : BitVec 64} (h : Entered m s₀ a s)
    (hLow : m.stack.base ≤ s₀.rsp.toNat) (h' : Returned m s regs w s') :
    Returned m s₀ regs w s' := by
  have hRsp : s.rsp = s₀.rsp := congrFun h.regs .rsp
  have hMemory := h'.memory
  have hRip := h'.rip
  rw [hRsp] at hMemory hRip
  rw [h.toUntouched.load_eq hLow (Nat.le_refl _)] at hRip
  exact ⟨⟨h.memory.trans hMemory, fun r hIn => (h'.callee r hIn).trans (h.callee r hIn)⟩, hRip,
    hRsp ▸ h'.rsp, h'.rbp.trans (congrFun h.regs .rbp), h'.world, h'.regs⟩

/-- Less may be claimed of the registers. -/
theorem Returned.mono {regs' : List (Reg × BitVec 64)} (h : Returned m s₀ regs w s)
    (hSub : ∀ p ∈ regs', p ∈ regs) : Returned m s₀ regs' w s :=
  ⟨h.toUntouched, h.rip, h.rsp, h.rbp, h.world, fun p hMem => h.regs p (hSub p hMem)⟩

/-! ## Push and pop -/

/-- The address of what is pushed. -/
theorem push_addr {x : BitVec 64} (h : 8 ≤ x.toNat) : (x - 8).toNat + 8 = x.toNat := by
  bv_omega

/-- `x` has been pushed. -/
structure PushOf (s : State ω) (x : BitVec 64) (t : State ω) : Prop where
  rsp : t.rsp.toNat + 8 = s.rsp.toNat
  regs : ∀ r, r ≠ .rsp → t.regs r = s.regs r
  memory : SameOutside s.mem t.mem ⟨s.rsp.toNat - 8, 8⟩
  top : load t.mem t.rsp.toNat 8 = x.toNat
  world : t.world = s.world

theorem Machine.push_spec (x : BitVec 64) (hLow : m.stack.base + 8 ≤ s.rsp.toNat)
    (hHigh : s.rsp.toNat ≤ m.stack.base + m.stack.len) :
    ∃ t, m.push s x = some t ∧ PushOf s x t := by
  have hAddr := push_addr (x := s.rsp) (by omega)
  have hIn : m.InStack (s.rsp - 8) 8 := by
    unfold Machine.InStack
    omega
  have hBase : s.rsp.toNat - 8 = (s.rsp - 8).toNat := by omega
  unfold Machine.push Machine.write
  rw [if_pos hIn, Option.map_some]
  refine ⟨_, rfl, ?_, fun r hOther => State.setReg_of_ne _ hOther _, ?_, ?_, rfl⟩
  · rw [State.rsp, State.setReg_self]
    exact hAddr
  · rw [hBase]
    exact store_sameOutside
  · simp only [State.rsp, State.setReg_self]
    exact load_store x.isLt

/-- A push by a function that has room for it. -/
theorem Untouched.push {t : State ω} {x : BitVec 64} (h : Untouched m s₀ s) (hPush : PushOf s x t)
    (hLow : m.stack.base + 8 ≤ s.rsp.toNat) (hHigh : s.rsp.toNat ≤ s₀.rsp.toNat) :
    Untouched m s₀ t := by
  refine ⟨h.memory.trans (hPush.memory.mono ⟨?_, ?_⟩), fun r hCallee => ?_⟩
  · show m.stack.base ≤ s.rsp.toNat - 8
    omega
  · show s.rsp.toNat - 8 + 8 ≤ m.stack.base + (s₀.rsp.toNat - m.stack.base)
    omega
  · have hOther : r ≠ .rsp := fun hSame => by simp [hSame, calleeSaved] at hCallee
    exact (hPush.regs r hOther).trans (h.callee r hCallee)

theorem Machine.pop_eq (hLow : m.stack.base ≤ s.rsp.toNat)
    (hHigh : s.rsp.toNat + 8 ≤ m.stack.base + m.stack.len) :
    m.pop s = some (BitVec.ofNat 64 (load s.mem s.rsp.toNat 8), s.setReg .rsp (s.rsp + 8)) := by
  have hIn : m.InStack s.rsp 8 := ⟨hLow, hHigh⟩
  unfold Machine.pop Machine.read
  rw [if_pos hIn]
  rfl

/-! ## The beginning of a function -/

/-- The caller's frame pointer is saved, and the new one is not set yet. -/
structure Pushed (m : Machine ω) (s₀ : State ω) (a : BitVec 64) (s : State ω) : Prop
    extends Untouched m s₀ s where
  regs : ∀ r, r ≠ .rsp → s.regs r = s₀.regs r
  rsp : s.rsp.toNat + 8 = s₀.rsp.toNat
  saved : load s.mem s.rsp.toNat 8 = s₀.rbp.toNat
  world : s.world = s₀.world
  rip : s.rip = a

theorem Pushed.stable {a : BitVec 64} : Stable m (Pushed m s₀ a) := by
  intro s frame h
  have hRsp := h.rsp
  have hKept : load (s.signal m.stack frame).mem s.rsp.toNat 8 = load s.mem s.rsp.toNat 8 :=
    load_signal (by omega)
  exact ⟨h.toUntouched.signal (by omega), h.regs, h.rsp, hKept.trans h.saved, h.world, h.rip⟩

theorem Entered.push {offset : Nat} (hRoom : Room m s₀ room) (hEight : 8 ≤ room)
    (hFetch : m.fetch offset = some (.push .rbp, len))
    (h : Entered m s₀ (m.base + BitVec.ofNat 64 offset) s) :
    ∃ s', m.step s = some s' ∧ Pushed m s₀ (m.base + BitVec.ofNat 64 (offset + len)) s' := by
  have hLow := hRoom.low
  have hHigh := hRoom.high
  have hRsp : s.rsp = s₀.rsp := congrFun h.regs .rsp
  have hRbp : s.regs .rbp = s₀.rbp := congrFun h.regs .rbp
  rw [← hRsp] at hLow hHigh
  obtain ⟨t, hTaken, hPush⟩ := m.push_spec (s := s) (s.regs .rbp) (by omega) (by omega)
  refine ⟨t.jump (m.base + BitVec.ofNat 64 (offset + len)), ?_, ?_⟩
  · rw [m.step_eq h.rip hFetch]
    simp only [Machine.exec, hTaken, Option.map_some]
  · have hUntouched := h.toUntouched.push hPush (by omega) (by rw [hRsp])
    refine ⟨⟨hUntouched.memory, hUntouched.callee⟩, ?_, ?_, ?_, ?_, rfl⟩
    · intro r hOther
      exact (hPush.regs r hOther).trans (congrFun h.regs r)
    · rw [← hRsp]
      exact hPush.rsp
    · rw [← hRbp]
      exact hPush.top
    · exact hPush.world.trans h.world

/-- `mov %rsp,%rbp` -/
theorem Pushed.setFrame (offset len : Nat) {args : List Reg} (hArgs : ∀ r ∈ args, r ∈ scratch)
    (hFetch : m.fetch offset = some (.movq .rsp .rbp, len))
    (h : Pushed m s₀ (m.base + BitVec.ofNat 64 offset) s) :
    ∃ s', m.step s = some s' ∧
      Holds m s₀ ⟨offset + len, 0, args.map fun r => (r, s₀.regs r), [], s₀.world⟩ s' := by
  refine ⟨(s.setReg .rbp s.rsp).jump (m.base + BitVec.ofNat 64 (offset + len)), ?_, ?_⟩
  · rw [m.step_eq h.rip hFetch]
    rfl
  · have hRbp : (s.setReg .rbp s.rsp).rbp = s.rsp := s.setReg_self .rbp s.rsp
    have hRsp : (s.setReg .rbp s.rsp).rsp = s.rsp := s.setReg_of_ne (by decide) s.rsp
    have hUntouched : Untouched m s₀ (s.setReg .rbp s.rsp) :=
      h.toUntouched.setReg (by decide)
    have hKnows : Knows m s₀ ⟨offset, 0, args.map fun r => (r, s₀.regs r), [], s₀.world⟩
        (s.setReg .rbp s.rsp) := by
      refine ⟨⟨hUntouched, ?_, ?_, ?_⟩, h.world, ?_, by simp, by simp⟩
      · rw [hRbp]
        exact h.rsp
      · rw [hRbp, hRsp]
        rfl
      · rw [hRbp]
        exact h.saved
      · intro p hMem
        obtain ⟨r, hArg, rfl⟩ := List.mem_map.mp hMem
        have hScratch := hArgs r hArg
        obtain ⟨hNotRsp, hNotRbp, -⟩ := ne_of_mem_scratch hScratch
        exact ⟨hScratch, (s.setReg_of_ne hNotRbp _).trans (h.regs r hNotRsp)⟩
    exact ⟨hKnows.jump _ _, rfl⟩

/-- **The beginning of a function** makes its frame. -/
theorem Entered.prologue {e : Nat} {args : List Reg} (hArgs : ∀ r ∈ args, r ∈ scratch)
    (hRoom : Room m s₀ room) (hEight : 8 ≤ room)
    (hEndbr : m.fetch e = some (.endbr64, 4))
    (hPush : m.fetch (e + 4) = some (.push .rbp, 1))
    (hMov : m.fetch (e + 5) = some (.movq .rsp .rbp, 3)) :
    Leads m (Entered m s₀ (m.base + BitVec.ofNat 64 e)) 3
      (Holds m s₀ ⟨e + 8, 0, args.map fun r => (r, s₀.regs r), [], s₀.world⟩) := by
  have hFrame (s : State ω) (h : Pushed m s₀ (m.base + BitVec.ofNat 64 (e + 5)) s) :
      ∃ s', m.step s = some s' ∧
        Holds m s₀ ⟨e + 8, 0, args.map fun r => (r, s₀.regs r), [], s₀.world⟩ s' :=
    h.setFrame (e + 5) 3 hArgs hMov
  refine Leads.cons Entered.stable (fun s h => ⟨_, m.step_eq h.rip hEndbr, ?_⟩)
    (Leads.cons Entered.stable (fun s h => h.push hRoom hEight hPush)
      (Leads.one Pushed.stable Holds.stable hFrame))
  exact ⟨⟨h.memory, h.callee⟩, h.regs, h.world, rfl⟩

/-! ## The end of a function -/

/-- The frame is gone, and only the return address is left on the stack. -/
structure Restored (m : Machine ω) (s₀ : State ω) (sym : Sym ω) (s : State ω) : Prop
    extends Untouched m s₀ s where
  rip : s.rip = m.base + BitVec.ofNat 64 sym.offset
  rsp : s.rsp = s₀.rsp
  rbp : s.rbp = s₀.rbp
  world : s.world = sym.world
  regs : ∀ p ∈ sym.regs, p.1 ∈ scratch ∧ s.regs p.1 = p.2

theorem Restored.stable : Stable m (Restored m s₀ sym) := by
  intro s frame h
  refine ⟨h.toUntouched.signal ?_, h.rip, h.rsp, h.rbp, h.world, h.regs⟩
  rw [h.rsp]
  omega

/-- The saved frame pointer is popped. -/
theorem Knows.restore (h : Knows m s₀ sym s) (hRoom : Room m s₀ room) (hEight : 8 ≤ room)
    (hTop : sym.depth = 0) (k : Nat) :
    ∃ t, m.exec s (m.base + BitVec.ofNat 64 k) (.pop .rbp) = some t ∧
      Restored m s₀ { sym with offset := k } t := by
  have hLow := hRoom.low
  have hHigh := hRoom.high
  have hRbp := h.rbp
  have hRsp := h.rsp
  have hPop := m.pop_eq (s := s) (by omega) (by omega)
  have hSaved : BitVec.ofNat 64 (load s.mem s.rsp.toNat 8) = s₀.rbp := by
    have hSame : s.rsp.toNat = s.rbp.toNat := by omega
    rw [hSame, h.saved, BitVec.ofNat_toNat, BitVec.setWidth_eq]
  have hUp : s.rsp + 8 = s₀.rsp := by bv_omega
  rw [hSaved, hUp] at hPop
  simp only [Machine.exec, hPop, Option.map_some, Option.some.injEq, exists_eq_left']
  have hPopped : Untouched m s₀ ((s.setReg .rsp s₀.rsp).setReg .rbp s₀.rbp) :=
    (h.toUntouched.setReg (by decide)).setReg (by decide)
  have hNewRsp : ((s.setReg .rsp s₀.rsp).setReg .rbp s₀.rbp).rsp = s₀.rsp :=
    (State.setReg_of_ne _ (by decide) s₀.rbp).trans (s.setReg_self .rsp s₀.rsp)
  have hNewRbp : ((s.setReg .rsp s₀.rsp).setReg .rbp s₀.rbp).rbp = s₀.rbp :=
    State.setReg_self _ .rbp s₀.rbp
  refine ⟨⟨hPopped.memory, hPopped.callee⟩, rfl, hNewRsp, hNewRbp, h.world, ?_⟩
  intro p hMem
  obtain ⟨hScratch, hValue⟩ := h.regs p hMem
  obtain ⟨hNotRsp, hNotRbp, -⟩ := ne_of_mem_scratch hScratch
  exact ⟨hScratch, (State.setReg_of_ne _ hNotRbp _).trans
    ((State.setReg_of_ne _ hNotRsp _).trans hValue)⟩

/-- `mov %rbp,%rsp` gives up the locals. -/
theorem Knows.collapse (h : Knows m s₀ sym s) :
    Knows m s₀ { sym with depth := 0, locals := [] } (s.setReg .rsp s.rbp) := by
  refine ⟨⟨h.toUntouched.setReg (by decide), h.rbp, ?_, h.saved⟩, h.world, ?_, by simp, by simp⟩
  · simp only [State.rsp, State.setReg_self]
    rfl
  · intro p hMem
    obtain ⟨hScratch, hValue⟩ := h.regs p hMem
    exact ⟨hScratch, (State.setReg_of_ne _ (ne_of_mem_scratch hScratch).1 _).trans hValue⟩

/-- `leave` is `mov %rbp,%rsp` followed by `pop %rbp`. -/
theorem Machine.exec_leave (next : BitVec 64) :
    m.exec s next .leave = m.exec (s.setReg .rsp s.rbp) next (.pop .rbp) := rfl

theorem Restored.ret (sym : Sym ω) (h : Restored m s₀ sym s) (hRoom : Room m s₀ room)
    (hFetch : m.fetch sym.offset = some (.ret, len)) :
    ∃ s', m.step s = some s' ∧ Returned m s₀ sym.regs sym.world s' := by
  have hLow := hRoom.low
  have hHigh := hRoom.high
  have hRsp := h.rsp
  have hPop := m.pop_eq (s := s) (by rw [hRsp]; omega) (by rw [hRsp]; omega)
  have hBack : load s.mem s₀.rsp.toNat 8 = load s₀.mem s₀.rsp.toNat 8 :=
    h.toUntouched.load_eq (by omega) (by omega)
  rw [hRsp, hBack] at hPop
  rw [m.step_eq h.rip hFetch]
  simp only [Machine.exec, hPop, Option.map_some, Option.some.injEq, exists_eq_left']
  have hPopped : Untouched m s₀ (s.setReg .rsp (s₀.rsp + 8)) :=
    h.toUntouched.setReg (by decide)
  have hNewRsp : (s.setReg .rsp (s₀.rsp + 8)).rsp = s₀.rsp + 8 := s.setReg_self .rsp (s₀.rsp + 8)
  have hNewRbp : (s.setReg .rsp (s₀.rsp + 8)).rbp = s.rbp := s.setReg_of_ne (by decide) _
  refine ⟨⟨hPopped.memory, hPopped.callee⟩, rfl, hNewRsp, hNewRbp.trans h.rbp, h.world, ?_⟩
  intro p hMem
  obtain ⟨hScratch, hValue⟩ := h.regs p hMem
  exact ⟨hScratch, (State.setReg_of_ne _ (ne_of_mem_scratch hScratch).1 _).trans hValue⟩

/-- **The end of a function** whose frame has only red zone below `%rbp`:
`pop %rbp; ret`. -/
theorem Holds.epilogue (hRoom : Room m s₀ room) (hEight : 8 ≤ room) (hTop : sym.depth = 0)
    (hPop : m.fetch sym.offset = some (.pop .rbp, 1))
    (hRet : m.fetch (sym.offset + 1) = some (.ret, 1)) :
    Leads m (Holds m s₀ sym) 2 (Returned m s₀ sym.regs sym.world) := by
  refine Leads.cons Holds.stable (fun s h => ?_) (Leads.one Restored.stable Returned.stable
    fun s h => h.ret { sym with offset := sym.offset + 1 } hRoom hRet)
  rw [m.step_eq h.rip hPop]
  exact h.toKnows.restore hRoom hEight hTop _

/-- The same with locals: `leave; ret`. -/
theorem Holds.epilogue_leave (hRoom : Room m s₀ room) (hEight : 8 ≤ room)
    (hLeave : m.fetch sym.offset = some (.leave, 1))
    (hRet : m.fetch (sym.offset + 1) = some (.ret, 1)) :
    Leads m (Holds m s₀ sym) 2 (Returned m s₀ sym.regs sym.world) := by
  refine Leads.cons Holds.stable (fun s h => ?_) (Leads.one Restored.stable Returned.stable
    fun s h => h.ret ⟨sym.offset + 1, 0, sym.regs, [], sym.world⟩ hRoom hRet)
  rw [m.step_eq h.rip hLeave, m.exec_leave]
  exact h.toKnows.collapse.restore hRoom hEight rfl _

/-! ## Calls -/

/-- What the caller knows during a call: the red zone is not its own any more. -/
def Sym.calling (sym : Sym ω) : Sym ω :=
  { sym with
    depth := sym.depth + 8
    locals := sym.locals.filter fun p => p.1 ≤ sym.depth }

/-- What the caller knows behind it. -/
def Sym.afterCall (sym : Sym ω) (offset : Nat) (regs : List (Reg × BitVec 64)) (w : ω) : Sym ω :=
  ⟨offset, sym.depth, regs, sym.calling.locals, w⟩

/-- A function has been called, and is to return to `back`. -/
structure Called (m : Machine ω) (s₀ : State ω) (sym : Sym ω) (back : BitVec 64)
    (s : State ω) : Prop extends Knows m s₀ sym.calling s where
  back : load s.mem s.rsp.toNat 8 = back.toNat

theorem Knows.call {t : State ω} {back : BitVec 64} (h : Knows m s₀ sym s)
    (hPush : PushOf s back t) (hLow : m.stack.base + 8 ≤ s.rsp.toNat) : Called m s₀ sym back t := by
  have hRbp := h.rbp
  have hRsp := h.rsp
  have hNewRsp := hPush.rsp
  have hNewRbp : t.rbp = s.rbp := hPush.regs .rbp (by decide)
  have hAbove {a n : Nat} (hHigh : s.rsp.toNat ≤ a) : load t.mem a n = load s.mem a n := by
    refine hPush.memory.load_eq (.inl ?_)
    show s.rsp.toNat - 8 + 8 ≤ a
    omega
  refine ⟨⟨⟨h.toUntouched.push hPush hLow (by omega), ?_, ?_, ?_⟩, hPush.world.trans h.world,
    ?_, ?_, ?_⟩, hPush.top⟩
  · rw [hNewRbp]
    exact hRbp
  · rw [hNewRbp]
    show t.rsp.toNat + (sym.depth + 8) = s.rbp.toNat
    omega
  · rw [hNewRbp, hAbove (by omega)]
    exact h.saved
  · intro p hMem
    obtain ⟨hScratch, hValue⟩ := h.regs p hMem
    exact ⟨hScratch, (hPush.regs p.1 (ne_of_mem_scratch hScratch).1).trans hValue⟩
  · intro p hMem
    obtain ⟨hMem, hInside⟩ := List.mem_filter.mp hMem
    simp only [decide_eq_true_eq] at hInside
    rw [hNewRbp, hAbove (by omega)]
    exact h.locals p hMem
  · intro p hMem
    obtain ⟨hMem, -⟩ := List.mem_filter.mp hMem
    obtain ⟨hFour, hNear, hBase⟩ := h.inFrame p hMem
    rw [hNewRbp]
    exact ⟨hFour, (by omega : p.1 ≤ sym.depth + 8 + 128), hBase⟩

/-- The room that is left for the function called. -/
theorem Called.callee_room {back : BitVec 64} (h : Called m s₀ sym back s)
    (hRoom : Room m s₀ room) (hIn : n + sym.depth + 16 ≤ room) : Room m s n := by
  have hLow := hRoom.low
  have hHigh := hRoom.high
  have hRbp := h.rbp
  have hRsp : s.rsp.toNat + (sym.depth + 8) = s.rbp.toNat := h.rsp
  constructor <;> omega

/-- **The caller continues**: its frame is as it was. -/
theorem Called.back_in_frame {s₁ : State ω} (h : Called m s₀ sym (m.base + BitVec.ofNat 64 k) s₁)
    (hLow : m.stack.base ≤ s₁.rsp.toNat) (h' : Returned m s₁ regs w s) :
    Holds m s₀ (sym.afterCall k regs w) s := by
  have hRbp := h.rbp
  have hRsp : s₁.rsp.toNat + (sym.depth + 8) = s₁.rbp.toNat := h.rsp
  have hNewRbp := h'.rbp
  have hUp : s.rsp.toNat = s₁.rsp.toNat + 8 := by
    have hBig := s₁.rbp.isLt
    rw [h'.rsp]
    bv_omega
  have hAbove {a n : Nat} (hHigh : s₁.rsp.toNat ≤ a) : load s.mem a n = load s₁.mem a n :=
    h'.toUntouched.load_eq hLow hHigh
  refine ⟨⟨⟨⟨?_, ?_⟩, ?_, ?_, ?_⟩, h'.world, h'.regs, ?_, ?_⟩, ?_⟩
  · refine h.memory.trans (h'.memory.mono ⟨Nat.le_refl _, ?_⟩)
    show m.stack.base + (s₁.rsp.toNat - m.stack.base) ≤
      m.stack.base + (s₀.rsp.toNat - m.stack.base)
    omega
  · exact fun r hCallee => (h'.callee r hCallee).trans (h.callee r hCallee)
  · rw [hNewRbp]
    exact hRbp
  · rw [hNewRbp]
    show s.rsp.toNat + sym.depth = s₁.rbp.toNat
    omega
  · rw [hNewRbp, hAbove (by omega)]
    exact h.saved
  · intro p hMem
    have hInside : p.1 ≤ sym.depth := by
      simpa using (List.mem_filter.mp hMem).2
    rw [hNewRbp, hAbove (by omega)]
    exact h.locals p hMem
  · intro p hMem
    have hInside : p.1 ≤ sym.depth := by
      simpa using (List.mem_filter.mp hMem).2
    obtain ⟨hFour, -, hBase⟩ := h.inFrame p hMem
    rw [hNewRbp]
    exact ⟨hFour, (by omega : p.1 ≤ sym.depth + 128), hBase⟩
  · rw [h'.rip, h.back, BitVec.ofNat_toNat, BitVec.setWidth_eq]
    rfl

/-- **The rule for calls.**  What the callee may do to the world is `Ok`; it is to be
proved of the callee from the state in which it is entered. -/
theorem Leads.call {Ok : ω → Prop} {disp : BitVec 32} {target : BitVec 64}
    (hRoom : Room m s₀ room) (hIn : sym.depth + 16 ≤ room)
    (hFetch : m.fetch sym.offset = some (.call disp, len))
    (hTarget : m.base + BitVec.ofNat 64 (sym.offset + len) + disp.signExtend 64 = target)
    (hCallee : ∀ s₁, Called m s₀ sym (m.base + BitVec.ofNat 64 (sym.offset + len)) s₁ →
      s₁.rip = target →
      Leads m (Entered m s₁ target) n fun s => ∃ w, Ok w ∧ Returned m s₁ regs w s) :
    Leads m (Holds m s₀ sym) (n + 1) fun s =>
      ∃ w, Ok w ∧ Holds m s₀ (sym.afterCall (sym.offset + len) regs w) s := by
  have hCall (s : State ω) (h : Holds m s₀ sym s) : ∃ s', m.step s = some s' ∧
      ∃ s₁, (Called m s₀ sym (m.base + BitVec.ofNat 64 (sym.offset + len)) s₁ ∧
        s₁.rip = target) ∧ Entered m s₁ target s' := by
    have hLow := hRoom.low
    have hHigh := hRoom.high
    have hRbp := h.rbp
    have hRsp := h.rsp
    obtain ⟨t, hTaken, hPush⟩ :=
      m.push_spec (s := s) (m.base + BitVec.ofNat 64 (sym.offset + len)) (by omega) (by omega)
    have hCalled := h.toKnows.call hPush (by omega)
    refine ⟨t.jump target, ?_, t.jump target, ⟨⟨hCalled.toKnows.jump _ _, hCalled.back⟩, rfl⟩,
      Entered.refl m _⟩
    rw [m.step_eq h.rip hFetch, ← hTarget]
    simp only [Machine.exec, hTaken, Option.map_some]
  refine Leads.cons Holds.stable hCall (Leads.exists fun s₁ s h => ?_)
  obtain ⟨⟨hCalled, hRip⟩, hEntered⟩ := h
  refine (hCallee s₁ hCalled hRip).mono (fun _ h => h) (fun t hBack => ?_) s hEntered
  obtain ⟨w, hOk, hReturned⟩ := hBack
  have hLow := (hCalled.callee_room (n := 0) hRoom (by omega)).low
  exact ⟨w, hOk, hCalled.back_in_frame hLow hReturned⟩

end X86
