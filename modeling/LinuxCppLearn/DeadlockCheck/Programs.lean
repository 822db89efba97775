import LinuxCppLearn.Library.Circles
import LinuxCppLearn.Library.Quiescence
import LinuxCppLearn.DeadlockCheck.Bounds
import LinuxCppLearn.DeadlockCheck.Verdicts

/-!
# Programs under the detector

A thread runs a routine: calls of the hooked `pthread_mutex_lock` and
`pthread_mutex_unlock`, one behind the other.  The routines release what they
lock and only that, and `check_dead_lock` may run at any time.

* `Program` — the routines, with what is asked of them.
* `Machine` — the state of the hooks, and what is left of each routine.
* `HeldInv` — a thread really holds what its calls so far have left locked.
* `program_outcomes` — a program comes to an end, in one of three ways: all
  routines are done, a hook indexes outside of an array, or some of the threads
  wait in a circle, which is reported if the run has kept the detector's view.
-/

namespace LinuxCppLearn
namespace DeadlockCheck

open StepSystem Quiescence Relation

/-- A call in the routine of a thread. -/
inductive Call
  | lock (lock : Nat)
  | unlock (lock : Nat)
deriving DecidableEq, Repr

/-- The calls release what is held and what they lock, once each, and lock
nothing that is held. -/
def Balanced : Finset Nat → List Call → Prop
  | held, [] => held = ∅
  | held, .lock lock :: calls => lock ∉ held ∧ Balanced (insert lock held) calls
  | held, .unlock lock :: calls => lock ∈ held ∧ Balanced (held.erase lock) calls

structure Program (sc : Scope) where
  routine : Nat → List Call
  balanced : ∀ thread, Balanced ∅ (routine thread)
  scope : ∀ thread lock, .lock lock ∈ routine thread → thread ∈ sc.threads ∧ lock ∈ sc.locks

structure Machine where
  hooks : State
  /-- the calls of a thread that have not returned -/
  calls : Nat → List Call

def Program.start {sc : Scope} (p : Program sc) : Machine where
  hooks := init
  calls := p.routine

/-- The action belongs to the call that its thread is at. -/
def Turn (m : Machine) : Action → Prop
  | .lockBefore thread lock | .acquire thread lock | .lockAfter thread lock =>
      (m.calls thread).head? = some (.lock lock)
  | .release thread lock | .unlockAfter thread lock =>
      (m.calls thread).head? = some (.unlock lock)
  | .check => True

instance (m : Machine) (a : Action) : Decidable (Turn m a) := by
  induction a using Action.casesOn <;> unfold Turn <;> infer_instance

/-- The hook behind the real function is the last step of a call. -/
def callsBehind (calls : Nat → List Call) : Action → Nat → List Call
  | .lockAfter thread _ | .unlockAfter thread _ =>
      Function.update calls thread (calls thread).tail
  | _ => calls

def Machine.step (sc : Scope) (m : Machine) (a : Action) : Option Machine :=
  if Turn m a then
    (DeadlockCheck.step sc m.hooks a).map fun hooks => ⟨hooks, callsBehind m.calls a⟩
  else none

theorem machine_step_eq_some {sc : Scope} {m m' : Machine} {a : Action} :
    Machine.step sc m a = some m' ↔
      Turn m a ∧ step sc m.hooks a = some m'.hooks ∧ m'.calls = callsBehind m.calls a := by
  unfold Machine.step
  by_cases hTurn : Turn m a
  · rw [if_pos hTurn, Option.map_eq_some_iff]
    simp only [hTurn, true_and]
    constructor
    · rintro ⟨hooks, hStep, rfl⟩
      exact ⟨hStep, rfl⟩
    · rintro ⟨hStep, hCalls⟩
      refine ⟨m'.hooks, hStep, ?_⟩
      rw [← hCalls]
  · simp [hTurn]

/-- A step that fails in the hook: an index is outside of its array. -/
def OutOfRange (sc : Scope) (m : Machine) (a : Action) : Prop :=
  Turn m a ∧ Enabled sc m.hooks a ∧ effect m.hooks a = none

/-- The threads act; the check only looks. -/
def ByThread (a : Action) : Prop :=
  a ≠ .check

instance : DecidablePred ByThread :=
  fun a => inferInstanceAs (Decidable (a ≠ .check))

/-- All routines are done, and no mutex is held. -/
def AllDone (sc : Scope) (m : Machine) : Prop :=
  (∀ thread ∈ sc.threads, m.calls thread = [] ∧ m.hooks.pc thread = .run) ∧
    ∀ lock, m.hooks.owner lock = none

/-! ## What a step can do -/

/-- Where the thread of a step is behind it, and who holds the mutexes. -/
structure Moved (s s' : State) (thread : Nat) (pc : Pc) (owner : Nat → Option Nat) : Prop where
  pc : s'.pc = Function.update s.pc thread pc
  owner : s'.owner = owner

inductive Shift (sc : Scope) (m m' : Machine) : Action → Prop
  | asks {thread lock : Nat} {calls : List Call} (hThread : thread ∈ sc.threads)
      (hPc : m.hooks.pc thread = .run) (hAt : m.calls thread = .lock lock :: calls)
      (hMoved : Moved m.hooks m'.hooks thread (.requested lock) m.hooks.owner)
      (hCalls : m'.calls = m.calls) : Shift sc m m' (.lockBefore thread lock)
  | takes {thread lock : Nat} {calls : List Call} (hPc : m.hooks.pc thread = .requested lock)
      (hAt : m.calls thread = .lock lock :: calls) (hFree : m.hooks.owner lock = none)
      (hMoved : Moved m.hooks m'.hooks thread (.acquired lock)
        (Function.update m.hooks.owner lock (some thread)))
      (hCalls : m'.calls = m.calls) : Shift sc m m' (.acquire thread lock)
  | locked {thread lock : Nat} {calls : List Call} (hPc : m.hooks.pc thread = .acquired lock)
      (hAt : m.calls thread = .lock lock :: calls)
      (hMoved : Moved m.hooks m'.hooks thread .run m.hooks.owner)
      (hCalls : m'.calls = Function.update m.calls thread calls) :
      Shift sc m m' (.lockAfter thread lock)
  | gives {thread lock : Nat} {calls : List Call} (hPc : m.hooks.pc thread = .run)
      (hAt : m.calls thread = .unlock lock :: calls)
      (hHeld : m.hooks.owner lock = some thread)
      (hMoved : Moved m.hooks m'.hooks thread (.released lock)
        (Function.update m.hooks.owner lock none))
      (hCalls : m'.calls = m.calls) : Shift sc m m' (.release thread lock)
  | unlocked {thread lock : Nat} {calls : List Call} (hPc : m.hooks.pc thread = .released lock)
      (hAt : m.calls thread = .unlock lock :: calls)
      (hMoved : Moved m.hooks m'.hooks thread .run m.hooks.owner)
      (hCalls : m'.calls = Function.update m.calls thread calls) :
      Shift sc m m' (.unlockAfter thread lock)
  | looks (hPc : m'.hooks.pc = m.hooks.pc) (hOwner : m'.hooks.owner = m.hooks.owner)
      (hCalls : m'.calls = m.calls) : Shift sc m m' .check

theorem step_shift {sc : Scope} {m m' : Machine} {a : Action}
    (hStep : Machine.step sc m a = some m') : Shift sc m m' a := by
  obtain ⟨hTurn, hHooks, hCalls⟩ := machine_step_eq_some.mp hStep
  obtain ⟨hEnabled, hEffect⟩ := step_eq_some.mp hHooks
  have hTail : ∀ {thread : Nat} {c : Call} {calls : List Call},
      m.calls thread = c :: calls →
        m'.calls = Function.update m.calls thread (m.calls thread).tail →
          m'.calls = Function.update m.calls thread calls := by
    intro thread c calls hAt hEq
    rw [hEq, hAt, List.tail_cons]
  cases a with
  | lockBefore thread lock =>
      obtain ⟨hThread, -, hPc⟩ := hEnabled
      obtain ⟨calls, hAt⟩ := List.head?_eq_some_iff.mp hTurn
      simp only [effect, Option.bind_eq_bind, Option.bind_eq_some_iff, Option.some.injEq]
        at hEffect
      obtain ⟨tg, -, hState⟩ := hEffect
      refine .asks hThread hPc hAt ?_ hCalls
      rw [← hState]
      exact ⟨rfl, rfl⟩
  | acquire thread lock =>
      obtain ⟨hPc, hFree⟩ := hEnabled
      obtain ⟨calls, hAt⟩ := List.head?_eq_some_iff.mp hTurn
      simp only [effect, Option.some.injEq] at hEffect
      refine .takes hPc hAt hFree ?_ hCalls
      rw [← hEffect]
      exact ⟨rfl, rfl⟩
  | lockAfter thread lock =>
      obtain ⟨calls, hAt⟩ := List.head?_eq_some_iff.mp hTurn
      simp only [effect, Option.bind_eq_bind, Option.bind_eq_some_iff, Option.some.injEq]
        at hEffect
      obtain ⟨tg, -, hState⟩ := hEffect
      refine .locked hEnabled hAt ?_ (hTail hAt hCalls)
      rw [← hState]
      exact ⟨rfl, rfl⟩
  | release thread lock =>
      obtain ⟨hPc, hHeld⟩ := hEnabled
      obtain ⟨calls, hAt⟩ := List.head?_eq_some_iff.mp hTurn
      simp only [effect, Option.some.injEq] at hEffect
      refine .gives hPc hAt hHeld ?_ hCalls
      rw [← hEffect]
      exact ⟨rfl, rfl⟩
  | unlockAfter thread lock =>
      obtain ⟨calls, hAt⟩ := List.head?_eq_some_iff.mp hTurn
      simp only [effect, Option.bind_eq_bind, Option.bind_eq_some_iff, Option.some.injEq]
        at hEffect
      obtain ⟨tg, -, hState⟩ := hEffect
      refine .unlocked hEnabled hAt ?_ (hTail hAt hCalls)
      rw [← hState]
      exact ⟨rfl, rfl⟩
  | check =>
      simp only [effect, Option.bind_eq_bind, Option.bind_eq_some_iff, Option.some.injEq]
        at hEffect
      obtain ⟨search, -, hState⟩ := hEffect
      refine .looks ?_ ?_ hCalls
      · rw [← hState]
      · rw [← hState]

/-! ## What a thread holds -/

/-- What is really held in the middle of a call, if `held` is what the calls
before it have left locked. -/
def Pc.claims : Pc → Finset Nat → Finset Nat
  | .acquired lock, held => insert lock held
  | .released lock, held => held.erase lock
  | .run, held | .requested _, held => held

/-- The call that a thread in the middle of it must be at. -/
def Pc.call : Pc → Option Call
  | .run => none
  | .requested lock | .acquired lock => some (.lock lock)
  | .released lock => some (.unlock lock)

structure ThreadInv (s : State) (thread : Nat) (calls : List Call) (held : Finset Nat) :
    Prop where
  balanced : Balanced held calls
  owner : ∀ lock, s.owner lock = some thread ↔ lock ∈ (s.pc thread).claims held
  call : ∀ c, (s.pc thread).call = some c → calls.head? = some c

/-- Every thread holds what its calls so far have left locked. -/
structure HeldInv (sc : Scope) (m : Machine) : Prop where
  consistent : Consistent sc m.hooks
  thread : ∀ thread, ∃ held, ThreadInv m.hooks thread (m.calls thread) held
  scope : ∀ thread lock, .lock lock ∈ m.calls thread → thread ∈ sc.threads ∧ lock ∈ sc.locks

theorem heldInv_start {sc : Scope} (p : Program sc) : HeldInv sc p.start where
  consistent := consistent_init sc
  thread t := ⟨∅, p.balanced t, by simp [Program.start, init, Pc.claims],
    by simp [Program.start, init, Pc.call]⟩
  scope := p.scope

section Steps

variable {sc : Scope} {m m' : Machine} {thread lock : Nat} {a : Action}

/-- Another thread moves, and it takes or gives back only what this one does not
hold. -/
theorem ThreadInv.frame {s s' : State} {calls : List Call} {held : Finset Nat}
    (h : ThreadInv s thread calls held) (hPc : s'.pc thread = s.pc thread)
    (hOwner : ∀ lock, s'.owner lock = some thread ↔ s.owner lock = some thread) :
    ThreadInv s' thread calls held := by
  refine ⟨h.balanced, fun l => ?_, fun c hc => h.call c ?_⟩
  · rw [hOwner, hPc]
    exact h.owner l
  · rwa [← hPc]

theorem HeldInv.move (h : HeldInv sc m) {pc : Pc} {owner : Nat → Option Nat}
    {calls : List Call} {held : Finset Nat} (hCons : Consistent sc m'.hooks)
    (hMoved : Moved m.hooks m'.hooks thread pc owner)
    (hCalls : m'.calls = Function.update m.calls thread calls)
    (hSub : ∀ c ∈ calls, c ∈ m.calls thread)
    (hOther : ∀ t ≠ thread, ∀ l, owner l = some t ↔ m.hooks.owner l = some t)
    (hBalanced : Balanced held calls)
    (hOwner : ∀ l, owner l = some thread ↔ l ∈ pc.claims held)
    (hCall : ∀ c, pc.call = some c → calls.head? = some c) : HeldInv sc m' := by
  refine ⟨hCons, fun t => ?_, fun t l hMem => ?_⟩
  · by_cases hEq : t = thread
    · subst hEq
      refine ⟨held, ?_, fun l => ?_, ?_⟩
      · rwa [hCalls, Function.update_self]
      · rw [hMoved.owner, hMoved.pc, Function.update_self]
        exact hOwner l
      · rwa [hCalls, hMoved.pc, Function.update_self, Function.update_self]
    · obtain ⟨kept, hInv⟩ := h.thread t
      refine ⟨kept, ?_⟩
      rw [hCalls, Function.update_of_ne hEq]
      refine hInv.frame ?_ fun l => ?_
      · rw [hMoved.pc, Function.update_of_ne hEq]
      · rw [hMoved.owner]
        exact hOther t hEq l
  · rw [hCalls] at hMem
    by_cases hEq : t = thread
    · subst hEq
      rw [Function.update_self] at hMem
      exact h.scope t l (hSub _ hMem)
    · rw [Function.update_of_ne hEq] at hMem
      exact h.scope t l hMem

/-- Behind a step of a thread the other threads hold what they held. -/
theorem owner_update {owner : Nat → Option Nat} {lock thread : Nat} {holder : Option Nat}
    (hOld : owner lock = none ∨ owner lock = some thread)
    (hNew : holder = none ∨ holder = some thread) {t : Nat} (hNe : t ≠ thread) (l : Nat) :
    Function.update owner lock holder l = some t ↔ owner l = some t := by
  by_cases hSame : l = lock
  · subst hSame
    rw [Function.update_self]
    rcases hOld with hOld | hOld <;> rcases hNew with rfl | rfl <;> simp [hOld, hNe.symm]
  · rw [Function.update_of_ne hSame]

theorem heldInv_step (h : HeldInv sc m) (hStep : Machine.step sc m a = some m') :
    HeldInv sc m' := by
  have hHooks := (machine_step_eq_some.mp hStep).2.1
  have hCons := consistent_move h.consistent (step_move h.consistent hHooks)
  cases step_shift hStep with
  | @asks thread lock calls _ hPc hAt hMoved hCalls =>
      obtain ⟨held, hBalanced, hOwner, -⟩ := h.thread thread
      rw [hPc] at hOwner
      refine h.move hCons hMoved (hCalls.trans (Function.update_eq_self thread m.calls).symm)
        (fun _ hc => hc) (fun _ _ _ => Iff.rfl) hBalanced hOwner fun c hc => ?_
      rw [hAt, ← hc]
      rfl
  | @takes thread lock calls hPc hAt hFree hMoved hCalls =>
      obtain ⟨held, hBalanced, hOwner, -⟩ := h.thread thread
      rw [hPc] at hOwner
      refine h.move hCons hMoved (hCalls.trans (Function.update_eq_self thread m.calls).symm)
        (fun _ hc => hc) (fun t hNe l => owner_update (.inl hFree) (.inr rfl) hNe l)
        hBalanced (fun l => ?_) fun c hc => ?_
      · by_cases hSame : l = lock
        · subst hSame
          simp [Pc.claims]
        · rw [Function.update_of_ne hSame, hOwner]
          simp [Pc.claims, hSame]
      · rw [hAt, ← hc]
        rfl
  | @locked thread lock calls hPc hAt hMoved hCalls =>
      obtain ⟨held, hBalanced, hOwner, -⟩ := h.thread thread
      rw [hPc] at hOwner
      rw [hAt] at hBalanced
      exact h.move hCons hMoved hCalls (fun c hc => hAt ▸ List.mem_cons_of_mem _ hc)
        (fun _ _ _ => Iff.rfl) hBalanced.2 hOwner (by simp [Pc.call])
  | @gives thread lock calls hPc hAt hHeld hMoved hCalls =>
      obtain ⟨held, hBalanced, hOwner, -⟩ := h.thread thread
      rw [hPc] at hOwner
      refine h.move hCons hMoved (hCalls.trans (Function.update_eq_self thread m.calls).symm)
        (fun _ hc => hc) (fun t hNe l => owner_update (.inr hHeld) (.inl rfl) hNe l)
        hBalanced (fun l => ?_) fun c hc => ?_
      · by_cases hSame : l = lock
        · subst hSame
          simp [Pc.claims]
        · rw [Function.update_of_ne hSame, hOwner]
          simp [Pc.claims, hSame]
      · rw [hAt, ← hc]
        rfl
  | @unlocked thread lock calls hPc hAt hMoved hCalls =>
      obtain ⟨held, hBalanced, hOwner, -⟩ := h.thread thread
      rw [hPc] at hOwner
      rw [hAt] at hBalanced
      exact h.move hCons hMoved hCalls (fun c hc => hAt ▸ List.mem_cons_of_mem _ hc)
        (fun _ _ _ => Iff.rfl) hBalanced.2 hOwner (by simp [Pc.call])
  | looks hPc hOwner hCalls =>
      refine ⟨hCons, fun t => ?_, ?_⟩
      · obtain ⟨held, hInv⟩ := h.thread t
        refine ⟨held, ?_⟩
        rw [hCalls]
        exact hInv.frame (by rw [hPc]) fun l => by rw [hOwner]
      · rw [hCalls]
        exact h.scope

theorem heldInv_reach {p : Program sc} {guard : Machine → Action → Prop}
    (h : Reach (Machine.step sc) guard p.start m) : HeldInv sc m :=
  h.invariant (heldInv_start p) fun _ _ _ hInv _ hStep => heldInv_step hInv hStep

end Steps

/-! ## The steps that are left -/

/-- The steps of a call: two hooks and the real function, or one of each. -/
def Call.steps : Call → Nat
  | .lock _ => 3
  | .unlock _ => 2

/-- The steps of the call that are behind. -/
def Pc.behind : Pc → Nat
  | .run => 0
  | .requested _ | .released _ => 1
  | .acquired _ => 2

def stepsLeft (pc : Pc) (calls : List Call) : Nat :=
  (calls.map Call.steps).sum - pc.behind

def work (sc : Scope) (m : Machine) : Nat :=
  ∑ thread ∈ sc.threads, stepsLeft (m.hooks.pc thread) (m.calls thread)

section Work

variable {sc : Scope} {m m' : Machine} {thread : Nat} {a : Action}

theorem work_lowered (hThread : thread ∈ sc.threads)
    (hOther : ∀ t ≠ thread, m'.hooks.pc t = m.hooks.pc t ∧ m'.calls t = m.calls t)
    (hLess : stepsLeft (m'.hooks.pc thread) (m'.calls thread) <
      stepsLeft (m.hooks.pc thread) (m.calls thread)) : work sc m' < work sc m := by
  refine Finset.sum_lt_sum (fun t _ => ?_) ⟨thread, hThread, hLess⟩
  by_cases hEq : t = thread
  · subst hEq
    exact Nat.le_of_lt hLess
  · rw [(hOther t hEq).1, (hOther t hEq).2]

/-- A step in the middle of a call. -/
theorem work_moved (hThread : thread ∈ sc.threads) {pc : Pc} {owner : Nat → Option Nat}
    {c : Call} {calls : List Call} (hMoved : Moved m.hooks m'.hooks thread pc owner)
    (hCalls : m'.calls = m.calls) (hAt : m.calls thread = c :: calls)
    (hMore : (m.hooks.pc thread).behind < pc.behind)
    (hRoom : pc.behind ≤ c.steps) : work sc m' < work sc m := by
  refine work_lowered hThread (fun t hNe => ?_) ?_
  · rw [hMoved.pc, Function.update_of_ne hNe, hCalls]
    exact ⟨rfl, rfl⟩
  · rw [hMoved.pc, Function.update_self, hCalls, hAt]
    unfold stepsLeft
    rw [List.map_cons, List.sum_cons]
    omega

/-- The last step of a call. -/
theorem work_returned (hThread : thread ∈ sc.threads) {owner : Nat → Option Nat}
    {c : Call} {calls : List Call} (hMoved : Moved m.hooks m'.hooks thread .run owner)
    (hCalls : m'.calls = Function.update m.calls thread calls)
    (hAt : m.calls thread = c :: calls)
    (hLast : (m.hooks.pc thread).behind < c.steps) : work sc m' < work sc m := by
  refine work_lowered hThread (fun t hNe => ?_) ?_
  · rw [hMoved.pc, hCalls, Function.update_of_ne hNe, Function.update_of_ne hNe]
    exact ⟨rfl, rfl⟩
  · rw [hMoved.pc, hCalls, Function.update_self, Function.update_self, hAt]
    unfold stepsLeft
    rw [List.map_cons, List.sum_cons, show Pc.run.behind = 0 from rfl]
    omega

theorem work_step (h : HeldInv sc m) (hAct : ByThread a)
    (hStep : Machine.step sc m a = some m') : work sc m' < work sc m := by
  have hScope := fun thread lock hLock => (h.consistent.pc_scope thread lock hLock).1
  cases step_shift hStep with
  | asks hThread hPc hAt hMoved hCalls =>
      exact work_moved hThread hMoved hCalls hAt (by simp [hPc, Pc.behind])
        (by simp [Pc.behind, Call.steps])
  | @takes thread lock _ hPc hAt _ hMoved hCalls =>
      exact work_moved (hScope thread lock (by rw [hPc]; rfl)) hMoved hCalls hAt
        (by simp [hPc, Pc.behind]) (by simp [Pc.behind, Call.steps])
  | @locked thread lock _ hPc hAt hMoved hCalls =>
      exact work_returned (hScope thread lock (by rw [hPc]; rfl)) hMoved hCalls hAt
        (by simp [hPc, Pc.behind, Call.steps])
  | @gives thread lock _ hPc hAt hHeld hMoved hCalls =>
      exact work_moved (h.consistent.owner_scope thread lock hHeld).1 hMoved hCalls hAt
        (by simp [hPc, Pc.behind]) (by simp [Pc.behind, Call.steps])
  | @unlocked thread lock _ hPc hAt hMoved hCalls =>
      exact work_returned (hScope thread lock (by rw [hPc]; rfl)) hMoved hCalls hAt
        (by simp [hPc, Pc.behind, Call.steps])
  | looks _ _ _ => exact absurd rfl hAct

theorem work_check (hStep : Machine.step sc m .check = some m') : work sc m' = work sc m := by
  cases step_shift hStep with
  | looks hPc _ hCalls =>
      unfold work
      rw [hPc, hCalls]

theorem runsOut (sc : Scope) :
    RunsOut (Machine.step sc) ByThread (HeldInv sc) (work sc) where
  keeps _ _ _ hInv _ hStep := heldInv_step hInv hStep
  less _ _ _ hInv hAct hStep := work_step hInv hAct hStep

/-- The steps of the threads in a run use up the work. -/
theorem steps_le_work (p : Program sc) {as : List Action}
    (hRun : run (Machine.step sc) p.start as = some m) :
    as.countP (fun a => ByThread a) + work sc m ≤ work sc p.start := by
  refine (runsOut sc).countP_le (heldInv_start p) (fun t a t' hInv hNot hStep => ?_) hRun
  obtain rfl : a = .check := not_not.mp hNot
  exact ⟨heldInv_step hInv hStep, Nat.le_of_eq (work_check hStep)⟩

end Work

/-! ## Where a program ends -/

section Ends

variable {sc : Scope} {m : Machine}

theorem step_or_outOfRange {a : Action} (hTurn : Turn m a) (hEnabled : Enabled sc m.hooks a) :
    Machine.step sc m a ≠ none ∨ OutOfRange sc m a := by
  cases hEffect : effect m.hooks a with
  | none => exact .inr ⟨hTurn, hEnabled, hEffect⟩
  | some hooks =>
      left
      unfold Machine.step
      rw [if_pos hTurn, step_eq_some.mpr ⟨hEnabled, hEffect⟩]
      simp

/-- The thread waits for a mutex that another thread holds. -/
def WaitsFor (s : State) (thread other : Nat) : Prop :=
  other ≠ thread ∧ ∃ lock, s.pc thread = .requested lock ∧ s.owner lock = some other

/-- **A thread that cannot go on** is done, or waits for another one. -/
theorem done_or_waits (h : HeldInv sc m) (hStuck : Stuck (Machine.step sc) ByThread m)
    (hRange : ∀ a, ¬ OutOfRange sc m a) (thread : Nat) :
    (m.calls thread = [] ∧ m.hooks.pc thread = .run ∧
      ∀ lock, m.hooks.owner lock ≠ some thread) ∨
      ∃ other, WaitsFor m.hooks thread other := by
  have hCannot : ∀ a, ByThread a → Turn m a → ¬ Enabled sc m.hooks a := by
    intro a hAct hTurn hEnabled
    rcases step_or_outOfRange hTurn hEnabled with hStep | hOut
    · exact hStep (hStuck a hAct)
    · exact hRange a hOut
  obtain ⟨held, hBalanced, hOwner, hCall⟩ := h.thread thread
  cases hPc : m.hooks.pc thread with
  | run =>
      rw [hPc] at hOwner
      cases hCalls : m.calls thread with
      | nil =>
          rw [hCalls] at hBalanced
          obtain rfl : held = ∅ := hBalanced
          refine .inl ⟨rfl, rfl, fun lock hOwn => ?_⟩
          simpa [Pc.claims] using (hOwner lock).mp hOwn
      | cons c calls =>
          have hHead : (m.calls thread).head? = some c := by
            rw [hCalls]
            rfl
          rw [hCalls] at hBalanced
          cases c with
          | lock lock =>
              have hScope := h.scope thread lock (by simp [hCalls])
              exact absurd ⟨hScope.1, hScope.2, hPc⟩
                (hCannot (.lockBefore thread lock) (by simp [ByThread]) hHead)
          | unlock lock =>
              exact absurd ⟨hPc, (hOwner lock).mpr hBalanced.1⟩
                (hCannot (.release thread lock) (by simp [ByThread]) hHead)
  | requested lock =>
      have hHead := hCall (.lock lock) (by rw [hPc]; rfl)
      have hTaken : m.hooks.owner lock ≠ none := fun hFree =>
        hCannot (.acquire thread lock) (by simp [ByThread]) hHead ⟨hPc, hFree⟩
      obtain ⟨other, hOther⟩ := Option.ne_none_iff_exists'.mp hTaken
      refine .inr ⟨other, ?_, lock, hPc, hOther⟩
      -- a thread does not lock what it holds
      rintro rfl
      rw [hPc] at hOwner
      obtain ⟨calls, hCalls⟩ := List.head?_eq_some_iff.mp hHead
      rw [hCalls] at hBalanced
      exact hBalanced.1 ((hOwner lock).mp hOther)
  | acquired lock =>
      exact absurd hPc (hCannot (.lockAfter thread lock) (by simp [ByThread])
        (hCall (.lock lock) (by rw [hPc]; rfl)))
  | released lock =>
      exact absurd hPc (hCannot (.unlockAfter thread lock) (by simp [ByThread])
        (hCall (.unlock lock) (by rw [hPc]; rfl)))

/-- Some threads wait in a circle. -/
def SomeCircle (sc : Scope) (s : State) : Prop :=
  ∃ (n : Nat) (thread lock : Nat → Nat), 2 ≤ n ∧ (∀ i < n, thread i ∈ sc.threads) ∧
    (∀ i < n, ∀ j < n, thread i = thread j → i = j) ∧ CircularWait s n thread lock

/-- Threads that all wait for one another do so in a circle. -/
theorem someCircle_of_waits {s : State} (hCons : Consistent sc s) {waiting : Nat → Prop}
    (hSome : ∃ thread, waiting thread)
    (hWaits : ∀ thread, waiting thread → ∃ other, WaitsFor s thread other)
    (hNext : ∀ thread other, waiting thread → WaitsFor s thread other → waiting other) :
    SomeCircle sc s := by
  classical
  choose! next hNextSpec using hWaits
  let members := sc.threads.filter waiting
  have hIn : ∀ thread, waiting thread → thread ∈ members := by
    intro thread hWaiting
    obtain ⟨-, lock, hPc, -⟩ := hNextSpec thread hWaiting
    exact Finset.mem_filter.mpr ⟨(hCons.pc_scope thread lock (by rw [hPc]; rfl)).1, hWaiting⟩
  have hOf : ∀ thread ∈ members, waiting thread := fun thread hMem =>
    (Finset.mem_filter.mp hMem).2
  obtain ⟨n, x, hTwo, hMem, hDistinct, hCircle⟩ := Circles.exists_circle
    (hSome.imp fun thread hWaiting => hIn thread hWaiting)
    (fun thread hMem => hIn _ (hNext thread _ (hOf thread hMem)
      (hNextSpec thread (hOf thread hMem))))
    (fun thread hMem => (hNextSpec thread (hOf thread hMem)).1)
  have hLock : ∀ i, i < n → ∃ lock, s.pc (x i) = .requested lock ∧
      s.owner lock = some (x ((i + 1) % n)) := by
    intro i hi
    rw [← hCircle i hi]
    exact (hNextSpec (x i) (hOf _ (hMem i hi))).2
  choose! lock hLockSpec using hLock
  exact ⟨n, x, lock, hTwo, fun i hi => (Finset.mem_filter.mp (hMem i hi)).1, hDistinct,
    fun i hi => (hLockSpec i hi).1, fun i hi => (hLockSpec i hi).2⟩

/-- **The three ways to end.** -/
theorem stuck_outcome (h : HeldInv sc m) (hStuck : Stuck (Machine.step sc) ByThread m) :
    AllDone sc m ∨ (∃ a, OutOfRange sc m a) ∨
      ((∀ a, ¬ OutOfRange sc m a) ∧ SomeCircle sc m.hooks) := by
  by_cases hRange : ∀ a, ¬ OutOfRange sc m a
  · by_cases hSome : ∃ thread other, WaitsFor m.hooks thread other
    · right; right
      refine ⟨hRange, someCircle_of_waits h.consistent hSome (fun _ hWaits => hWaits) ?_⟩
      -- who is waited for holds a mutex, so it is not done
      rintro thread other - ⟨-, lock, -, hOwn⟩
      rcases done_or_waits h hStuck hRange other with ⟨-, -, hNothing⟩ | hWaits
      · exact absurd hOwn (hNothing lock)
      · exact hWaits
    · left
      have hDone : ∀ thread, m.calls thread = [] ∧ m.hooks.pc thread = .run ∧
          ∀ lock, m.hooks.owner lock ≠ some thread := by
        intro thread
        rcases done_or_waits h hStuck hRange thread with hDone | hWaits
        · exact hDone
        · exact absurd ⟨thread, hWaits⟩ hSome
      refine ⟨fun thread _ => ⟨(hDone thread).1, (hDone thread).2.1⟩, fun lock => ?_⟩
      exact Option.eq_none_iff_forall_ne_some.mpr fun thread => (hDone thread).2.2 lock
  · push Not at hRange
    exact .inr (.inl hRange)

/-- Nobody is in front of a hook when the threads cannot go on. -/
theorem quiescent_of_stuck (h : HeldInv sc m) (hStuck : Stuck (Machine.step sc) ByThread m)
    (hRange : ∀ a, ¬ OutOfRange sc m a) : Quiescent m.hooks := by
  intro thread lock
  rcases done_or_waits h hStuck hRange thread with ⟨-, hPc, -⟩ | ⟨_, -, other, hPc, -⟩
  · simp [hPc]
  · simp [hPc]

/-- The run of the hooks in a run of a program. -/
theorem reach_hooks {p : Program sc} {guard : State → Action → Prop}
    (h : Reach (Machine.step sc) (fun m a => guard m.hooks a) p.start m) :
    Reach (DeadlockCheck.step sc) guard init m.hooks := by
  induction h with
  | start => exact .start
  | next a _ hMet hStep ih => exact .next a ih hMet (machine_step_eq_some.mp hStep).2.1

/-- With few threads and mutexes only `unlock_after` leaves its array. -/
theorem outOfRange_small {p : Program sc} (hReach : Reachable (Machine.step sc) p.start m)
    (hThreads : sc.threads.card ≤ MAX) (hLocks : sc.locks.card ≤ MAX) {a : Action}
    (hOut : OutOfRange sc m a) :
    ∃ thread lock, a = .unlockAfter thread lock ∧ m.hooks.pc thread = .released lock ∧
      m.hooks.tg.locks.slot? lock = none := by
  obtain ⟨-, hEnabled, hEffect⟩ := hOut
  have hHooks : Reachable (DeadlockCheck.step sc) init m.hooks := reach_hooks hReach
  have hWf := (consistent_reach hHooks).wellFormed
  cases a with
  | lockBefore thread lock =>
      have hRoom := lockBefore_room hHooks hThreads hEnabled
      have hHook : m.hooks.tg.lockBefore thread lock = none := by
        by_contra hSome
        obtain ⟨tg, hTg⟩ := Option.ne_none_iff_exists'.mp hSome
        simp [effect, hTg] at hEffect
      obtain ⟨slot, hSlot, hOver⟩ := (lockBefore_eq_none hWf).mp hHook
      have hFits := hRoom slot hSlot
      omega
  | acquire thread lock => simp [effect] at hEffect
  | lockAfter thread lock =>
      have hRoom := lockAfter_room hHooks hLocks hEnabled
      have hHook : m.hooks.tg.lockAfter thread lock = none := by
        by_contra hSome
        obtain ⟨tg, hTg⟩ := Option.ne_none_iff_exists'.mp hSome
        simp [effect, hTg] at hEffect
      obtain ⟨hSlot, hFull⟩ := lockAfter_eq_none.mp hHook
      have hFits := hRoom hSlot
      omega
  | release thread lock => simp [effect] at hEffect
  | unlockAfter thread lock =>
      have hHook : m.hooks.tg.unlockAfter thread lock = none := by
        by_contra hSome
        obtain ⟨tg, hTg⟩ := Option.ne_none_iff_exists'.mp hSome
        simp [effect, hTg] at hEffect
      exact ⟨thread, lock, rfl, hEnabled, unlockAfter_eq_none.mp hHook⟩
  | check =>
      obtain ⟨search, hRun⟩ := Digraph.checkDeadLock_returns hWf.graph m.hooks.tg.search
      simp [effect, hRun] at hEffect

end Ends

/-- A check that any thread may run next finds a deadlock. -/
def Reported (sc : Scope) (m : Machine) : Prop :=
  ∃ m', Machine.step sc m .check = some m' ∧ m'.hooks.tg.search.deadlock = 1

theorem reported_of_check {sc : Scope} {m : Machine} {s : State}
    (hStep : step sc m.hooks .check = some s) (hReport : s.tg.search.deadlock = 1) :
    Reported sc m :=
  ⟨⟨s, m.calls⟩, machine_step_eq_some.mpr ⟨trivial, hStep, rfl⟩, hReport⟩

/-- **A program under the detector comes to an end**, after a number of steps that
its routines bound, whatever the schedule and whenever the check runs.  Then all
routines are done, or a hook indexes outside of an array, or some threads wait in
a circle; and the circle is reported if the run has kept the detector's view. -/
theorem program_outcomes {sc : Scope} (p : Program sc) :
    (∀ as m, run (Machine.step sc) p.start as = some m →
      as.countP (fun a => ByThread a) ≤
        ∑ thread ∈ sc.threads, ((p.routine thread).map Call.steps).sum) ∧
    (∀ m, Reachable (Machine.step sc) p.start m → Stuck (Machine.step sc) ByThread m →
      AllDone sc m ∨ (∃ a, OutOfRange sc m a) ∨ SomeCircle sc m.hooks) ∧
    (∀ m, Reach (Machine.step sc) (fun m a => KeepsView sc m.hooks a) p.start m →
      Stuck (Machine.step sc) ByThread m →
      AllDone sc m ∨ (∃ a, OutOfRange sc m a) ∨ Reported sc m) ∧
    ∀ m a, Reachable (Machine.step sc) p.start m → sc.threads.card ≤ MAX →
      sc.locks.card ≤ MAX → OutOfRange sc m a →
      ∃ thread lock, a = .unlockAfter thread lock ∧ m.hooks.pc thread = .released lock ∧
        m.hooks.tg.locks.slot? lock = none := by
  refine ⟨fun as m hRun => ?_, fun m hReach hStuck => ?_, fun m hReach hStuck => ?_, ?_⟩
  · have hBound := steps_le_work p hRun
    have hStart : work sc p.start =
      ∑ thread ∈ sc.threads, ((p.routine thread).map Call.steps).sum := rfl
    omega
  · rcases stuck_outcome (heldInv_reach hReach) hStuck with hDone | hOut | ⟨-, hCircle⟩
    · exact .inl hDone
    · exact .inr (.inl hOut)
    · exact .inr (.inr hCircle)
  · have hInv := heldInv_reach hReach
    have hHooks := reach_hooks hReach
    rcases stuck_outcome hInv hStuck with hDone | hOut |
      ⟨hRange, n, thread, lock, hTwo, -, hDistinct, hCircle⟩
    · exact .inl hDone
    · exact .inr (.inl hOut)
    · right; right
      have hWait : WaitInv sc m.hooks := waitInv_reach (fun _ _ hMet => hMet.1) hHooks
      have hRecorded := recordedInv_reach (fun _ _ hMet => hMet.2) hHooks
      obtain ⟨s, hStep, hReport⟩ := check_reports_requests hWait hInv.consistent
        (requests_of_circularWait hRecorded (quiescent_of_stuck hInv hStuck hRange) hTwo
          hDistinct hCircle)
      exact reported_of_check hStep hReport
  · exact fun m a hReach hThreads hLocks hOut =>
      outOfRange_small hReach hThreads hLocks hOut

end DeadlockCheck
end LinuxCppLearn
