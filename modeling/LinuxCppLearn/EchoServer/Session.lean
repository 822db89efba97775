import LinuxCppLearn.EchoServer.History

/-!
# How long a session lasts

The `EAGAIN` branch of `working` leaves the loop like the others do, and behind
the loop stands `close(cfd)`: the server hangs up as soon as a client pauses.

* `SessionsLast` — a client that was added to the epoll instance is closed only
  after a read on its connection has returned 0 or an error other than
  `EAGAIN`.
* `SessionKept` — the condition on one step: no read returns `EAGAIN` on a
  connection that has not ended, no number is handed out under a worker that is
  about to close it, and no write raises `SIGPIPE` while a client's stream has
  not ended.
* `sessions_last_exactly` — under it sessions last; a step of each of the three
  kinds leads to a session cut short.
-/

namespace LinuxCppLearn
namespace EchoServer

open StepSystem

variable {n : Nat}

/-- The server has closed a client of the epoll instance only behind the end of
its stream or an error. -/
def SessionsLast (u : Traced n) : Prop :=
  ∀ c ∈ u.1.closed, u.2.registered c = true → u.2.ended c = true

instance (u : Traced n) : Decidable (SessionsLast u) :=
  inferInstanceAs (Decidable (∀ c ∈ u.1.closed, _ → _))

def SessionKept (u : Traced n) : Action n → Prop
  | .workerRead w .again =>
      match readTarget u.1 w with
      | some c => u.2.ended c = true
      | none => True
  | .accept cfd => ∀ w,
      match u.1.worker w with
      | .close task => task.cfd ≠ cfd
      | _ => True
  -- the process ends with every connection that is still open
  | .sigpipe _ => ∀ c < u.1.accepted, c ∉ u.1.closed → u.2.registered c = true →
      u.2.ended c = true
  | _ => True

instance (u : Traced n) (a : Action n) : Decidable (SessionKept u a) := by
  induction a using Action.casesOn with
  | workerRead w answer =>
      induction answer using ReadAnswer.casesOn <;> unfold SessionKept <;> dsimp only
      case again => split <;> infer_instance
      all_goals infer_instance
  | accept cfd =>
      refine @Fintype.decidableForallFintype _ _ (fun w => ?_) _
      generalize u.1.worker w = pc
      induction pc using WorkerPc.casesOn <;> dsimp only <;> infer_instance
  | sigpipe => exact inferInstanceAs (Decidable (∀ c < u.1.accepted, _ → _ → _))
  | _ => exact inferInstanceAs (Decidable True)

/-- The number the main thread is working on. -/
def MainPc.cfd : MainPc → Option Fd
  | .loop | .killed => none
  | .accepted cfd | .register cfd | .abandon cfd => some cfd

/-- Who is about to close, what the main thread works on, and what is closed. -/
structure SessionMove (s : State n) (a : Action n) (s' : State n) : Prop where
  closer : ∀ w task, s'.worker w = .close task →
    s.worker w = .close task ∨
      (s.worker w = .read task ∧ s'.fdTable = s.fdTable ∧
        (s.fdTable task.cfd = none ∨
          ∃ answer, a = .workerRead w answer ∧ ∀ len, answer ≠ .data len))
  main : ∀ cfd, s'.main.cfd = some cfd →
    a = .accept cfd ∨ (s.main.cfd = some cfd ∧ a ≠ .ctlAdd ∧ ∀ fd, a ≠ .accept fd)
  closed : ∀ c ∈ s'.closed,
    c ∈ s.closed ∨ Closes s a c ∨ ∃ w, a = .sigpipe w ∧ c < s.accepted ∧ c ∉ s.closed

/-- Actions of the peers and of the main thread, which leave the workers. -/
theorem SessionMove.ofMain {s s' : State n} {a : Action n} (hWorker : s'.worker = s.worker)
    (hMain : ∀ cfd, s'.main.cfd = some cfd →
      a = .accept cfd ∨ (s.main.cfd = some cfd ∧ a ≠ .ctlAdd ∧ ∀ fd, a ≠ .accept fd))
    (hClosed : ∀ c ∈ s'.closed, c ∈ s.closed ∨ Closes s a c) : SessionMove s a s' where
  closer w task hPc := .inl (by rw [← hWorker]; exact hPc)
  main := hMain
  closed c hMem := (hClosed c hMem).imp_right .inl

/-- Nobody comes nearer to a close, and nothing is accepted. -/
theorem SessionMove.quiet {s s' : State n} {a : Action n} (hWorker : s'.worker = s.worker)
    (hMain : ∀ cfd, s'.main.cfd = some cfd → s.main.cfd = some cfd)
    (hAction : a ≠ .ctlAdd ∧ ∀ fd, a ≠ .accept fd) (hClosed : s'.closed = s.closed) :
    SessionMove s a s' :=
  .ofMain hWorker (fun cfd hCfd => .inr ⟨hMain cfd hCfd, hAction⟩)
    fun _ hMem => .inl (hClosed ▸ hMem)

/-- A worker moves; the main thread does not. -/
theorem SessionMove.ofWorker {s s' : State n} {a : Action n} {w : Fin n} {pc : WorkerPc}
    (hWorker : s'.worker = Function.update s.worker w pc) (hMain : s'.main = s.main)
    (hAction : a ≠ .ctlAdd ∧ ∀ fd, a ≠ .accept fd)
    (hPc : ∀ task, pc = .close task →
      s.worker w = .read task ∧ s'.fdTable = s.fdTable ∧
        (s.fdTable task.cfd = none ∨
          ∃ answer, a = .workerRead w answer ∧ ∀ len, answer ≠ .data len))
    (hClosed : ∀ c ∈ s'.closed, c ∈ s.closed ∨ Closes s a c) : SessionMove s a s' where
  closer v task hClose := by
    rw [hWorker] at hClose
    by_cases hEq : v = w
    · subst hEq
      rw [Function.update_self] at hClose
      exact .inr (hPc task hClose)
    · rw [Function.update_of_ne hEq] at hClose
      exact .inl hClose
  main cfd hCfd := .inr ⟨by rw [← hMain]; exact hCfd, hAction⟩
  closed c hMem := (hClosed c hMem).imp_right .inl

/-- `close` adds at most the connection behind the number. -/
theorem mem_closed_closeFd {s : State n} {cfd : Fd} {c : ConnId}
    (h : c ∈ (s.closeFd cfd).closed) : c ∈ s.closed ∨ s.fdTable cfd = some c := by
  unfold State.closeFd at h
  cases hOpen : s.fdTable cfd with
  | none =>
      simp only [hOpen] at h
      exact .inl h
  | some d =>
      simp only [hOpen, List.mem_append, List.mem_singleton] at h
      rcases h with hOld | rfl
      · exact .inl hOld
      · exact .inr rfl

@[simp] theorem closeFd_main (s : State n) (cfd : Fd) : (s.closeFd cfd).main = s.main := by
  unfold State.closeFd
  cases s.fdTable cfd <;> rfl

@[simp] theorem ctlDel_main (s : State n) (cfd : Fd) : (s.ctlDel cfd).main = s.main := by
  unfold State.ctlDel
  cases s.fdTable cfd <;> rfl

theorem step_sessionMove {s s' : State n} {a : Action n} (h : EchoServer.step s a = some s') :
    SessionMove s a s' := by
  cases step_branch h with
  | peerSend | peerClose | epollWait | acceptFails | addTask | dropTask =>
      exact .quiet rfl (fun cfd hCfd => hCfd) (by simp) rfl
  | @accept cfd =>
      refine .ofMain rfl (fun fd hCfd => .inl ?_) fun c hMem => .inl hMem
      obtain rfl : cfd = fd := by simpa [MainPc.cfd] using hCfd
      rfl
  | @setNonblocking ok fd hMain =>
      refine .quiet rfl (fun cfd hCfd => ?_) (by simp) rfl
      rw [hMain]
      cases ok <;> simpa [MainPc.cfd] using hCfd
  | ctlAdd =>
      exact .ofMain (by simp) (by simp [MainPc.cfd]) fun c hMem => .inl (by simpa using hMem)
  | @mainClose fd hMain =>
      refine .ofMain (by simp) (by simp [MainPc.cfd]) fun c hMem => ?_
      rcases mem_closed_closeFd hMem with hOld | hOpen
      · exact .inl hOld
      · exact .inr ⟨fd, by simp [closedFd, hMain], hOpen⟩
  | workerTake | readData | write | writeFails =>
      exact .ofWorker rfl rfl (by simp) (by simp) fun c hMem => .inl hMem
  | readEnds hPc hEnds =>
      refine .ofWorker rfl rfl (by simp) (fun t hClose => ?_) fun c hMem => .inl hMem
      obtain rfl := WorkerPc.close.inj hClose
      exact ⟨hPc, rfl, hEnds.imp id fun hNoData => ⟨_, rfl, hNoData.1⟩⟩
  | sigpipe =>
      refine ⟨by simp [State.kill], by simp [State.kill, MainPc.cfd], fun c hMem => ?_⟩
      rcases List.mem_append.mp hMem with hOld | hNew
      · exact .inl hOld
      · simp only [List.mem_filter, List.mem_range, decide_eq_true_eq] at hNew
        exact .inr (.inr ⟨_, rfl, hNew⟩)
  | @workerClose w task hPc =>
      refine .ofWorker (congrArg (Function.update · w _) (closeFd_frame _ _).2.2.2.1)
        (closeFd_main (s.logOp .close task) task.cfd) (by simp) (by simp) fun c hMem => ?_
      rcases mem_closed_closeFd hMem with hOld | hOpen
      · exact .inl hOld
      · exact .inr ⟨task.cfd, by simp [closedFd, hPc], hOpen⟩
  | @workerCtlDel w task =>
      refine .ofWorker (congrArg (Function.update · w _) (ctlDel_frame _ _).2.2.2.2.2.1)
        (ctlDel_main (s.logOp .ctlDel task) task.cfd) (by simp) (by simp) fun c hMem => .inl ?_
      have hSame := (ctlDel_frame (s.logOp .ctlDel task) task.cfd).2.2.1
      exact hSame ▸ hMem

/-! ## What the history notes -/

/-- The end of a stream stays noted. -/
theorem note_ended_mono {s : State n} {h : History n} {a : Action n} {c : ConnId}
    (hEnded : h.ended c = true) : (h.note s a).ended c = true := by
  have hUpdate : ∀ d, Function.update h.ended d true c = true := by
    intro d
    by_cases hEq : c = d
    · simp [hEq]
    · rw [Function.update_of_ne hEq]
      exact hEnded
  cases a with
  | workerRead w answer =>
      simp only [History.note]
      split
      · exact hEnded
      · split
        · exact hEnded
        · exact hEnded
        · exact hUpdate _
        · exact hUpdate _
  | ctlAdd =>
      simp only [History.note]
      split <;> exact hEnded
  | _ => exact hEnded

/-- A read that leads to the close has noted the end, or meets the
condition. -/
theorem ended_of_read {u : Traced n} {w : Fin n} {answer : ReadAnswer} {c : ConnId}
    (hMet : SessionKept u (.workerRead w answer)) (hTarget : readTarget u.1 w = some c)
    (hNoData : ∀ len, answer ≠ .data len) :
    (u.2.note u.1 (.workerRead w answer)).ended c = true := by
  cases answer with
  | data len => exact absurd rfl (hNoData len)
  | again =>
      apply note_ended_mono
      simpa [SessionKept, hTarget] using hMet
  | eof | error => simp [History.note, hTarget]

/-- The end is noted for an open connection only. -/
theorem ended_of_note {s : State n} {h : History n} {a : Action n} {c : ConnId}
    (hNew : (h.note s a).ended c = true) :
    h.ended c = true ∨ ∃ cfd, s.fdTable cfd = some c := by
  cases a with
  | workerRead w answer =>
      cases hTarget : readTarget s w with
      | none => exact .inl (by simpa [History.note, hTarget] using hNew)
      | some d =>
          have hOpen : ∃ cfd, s.fdTable cfd = some d := by
            unfold readTarget at hTarget
            split at hTarget
            · exact ⟨_, hTarget⟩
            · simp at hTarget
          by_cases hEq : c = d
          · exact .inr (hEq ▸ hOpen)
          · left
            cases answer <;> simpa [History.note, hTarget, hEq] using hNew
  | ctlAdd =>
      simp only [History.note] at hNew
      split at hNew <;> exact .inl hNew
  | _ => exact .inl hNew

/-- Only `EPOLL_CTL_ADD` registers, and only an open connection. -/
theorem registered_of_note {s : State n} {h : History n} {a : Action n} {c : ConnId}
    (hNew : (h.note s a).registered c = true) :
    h.registered c = true ∨ (a = .ctlAdd ∧ registerTarget s = some c) := by
  cases a with
  | workerRead w answer =>
      left
      simp only [History.note] at hNew
      split at hNew
      · exact hNew
      · split at hNew <;> exact hNew
  | ctlAdd =>
      simp only [History.note] at hNew
      split at hNew
      · exact .inl hNew
      · rename_i d hTarget
        by_cases hEq : c = d
        · subst hEq
          exact .inr ⟨rfl, hTarget⟩
        · exact .inl (by simpa [hEq] using hNew)
  | _ => exact .inl hNew

theorem registerTarget_open {s : State n} {c : ConnId} (h : registerTarget s = some c) :
    ∃ cfd, s.fdTable cfd = some c := by
  unfold registerTarget at h
  split at h
  · rename_i cfd hMain
    exact ⟨cfd, h⟩
  · simp at h

/-! ## The invariant -/

structure SessionInv (u : Traced n) : Prop where
  kernel : KernelInv u.1
  /-- a worker about to close has seen the end of what it will close -/
  closing : ∀ w task, u.1.worker w = .close task → ∀ c, u.1.fdTable task.cfd = some c →
    u.2.ended c = true
  /-- the main thread works on a connection that is not in the epoll instance -/
  unregistered : ∀ cfd, u.1.main.cfd = some cfd → ∀ c, u.1.fdTable cfd = some c →
    u.2.registered c = false
  registered_lt : ∀ c, u.2.registered c = true → c < u.1.accepted
  ended_lt : ∀ c, u.2.ended c = true → c < u.1.accepted
  last : SessionsLast u

theorem sessionInv_init : SessionInv (Traced.init n) where
  kernel := kernelInv_init
  closing w task h := by simp [Traced.init, EchoServer.init] at h
  unregistered cfd h := by simp [Traced.init, EchoServer.init, MainPc.cfd] at h
  registered_lt c h := by simp [Traced.init, History.empty] at h
  ended_lt c h := by simp [Traced.init, History.empty] at h
  last c h := by simp [Traced.init, EchoServer.init] at h

/-- A number that is open behind a step was open before, or was just handed
out. -/
theorem KernelMove.open_cases {s s' : State n} {a : Action n} (h : KernelMove s a s') {cfd : Fd}
    {c : ConnId} (hOpen : s'.fdTable cfd = some c) :
    s.fdTable cfd = some c ∨ (a = .accept cfd ∧ c = s.accepted) := by
  cases h with
  | same hTable _ _ _ => exact .inl (hTable ▸ hOpen)
  | accept fd hAction _ hTable _ _ _ =>
      rw [hTable] at hOpen
      by_cases hEq : cfd = fd
      · subst hEq
        rw [Function.update_self, Option.some.injEq] at hOpen
        exact .inr ⟨hAction, hOpen.symm⟩
      · rw [Function.update_of_ne hEq] at hOpen
        exact .inl hOpen
  | close fd _ _ hTable _ _ _ _ =>
      rw [hTable] at hOpen
      by_cases hEq : cfd = fd
      · subst hEq
        simp at hOpen
      · rw [Function.update_of_ne hEq] at hOpen
        exact .inl hOpen
  | kill _ _ hTable _ _ _ => simp [hTable] at hOpen

theorem KernelMove.accepted_le {s s' : State n} {a : Action n} (h : KernelMove s a s') :
    s.accepted ≤ s'.accepted := by
  cases h with
  | same _ hAccepted _ _ => omega
  | accept _ _ _ _ hAccepted _ _ => omega
  | close _ _ _ _ hAccepted _ _ _ => omega
  | kill _ _ _ hAccepted _ _ => omega

/-- `accept` hands out a free number. -/
theorem accept_free {s s' : State n} {cfd : Fd} (h : EchoServer.step s (.accept cfd) = some s') :
    s.fdTable cfd = none := by
  cases step_branch h with
  | accept _ _ hFree => exact hFree.2.1

section StepLemmas

variable {u : Traced n} {a : Action n} {s' : State n}

theorem SessionInv.closing_step (h : SessionInv u) (hMet : SessionKept u a)
    (hKernel : KernelMove u.1 a s') (hMove : SessionMove u.1 a s') {w : Fin n} {task : Task}
    (hPc : s'.worker w = .close task) {c : ConnId} (hOpen : s'.fdTable task.cfd = some c) :
    (u.2.note u.1 a).ended c = true := by
  rcases hMove.closer w task hPc with hOld | ⟨hRead, hTable, hNone | ⟨answer, rfl, hNoData⟩⟩
  · rcases hKernel.open_cases hOpen with hOpen | ⟨rfl, -⟩
    · exact note_ended_mono (h.closing w task hOld c hOpen)
    -- the condition: this worker's number is not handed out
    · have hNe := hMet w
      rw [hOld] at hNe
      exact absurd rfl hNe
  · rw [hTable, hNone] at hOpen
    simp at hOpen
  · rw [hTable] at hOpen
    exact ended_of_read hMet (by simp [readTarget, hRead, hOpen]) hNoData

/-- A step other than `EPOLL_CTL_ADD` registers nobody. -/
theorem note_unregistered {s : State n} {h : History n} {c : ConnId} (hNotAdd : a ≠ .ctlAdd)
    (hOld : h.registered c = false) : (h.note s a).registered c = false := by
  rw [Bool.eq_false_iff] at hOld ⊢
  intro hNew
  rcases registered_of_note hNew with hReg | ⟨hAdd, -⟩
  · exact hOld hReg
  · exact hNotAdd hAdd

theorem SessionInv.unregistered_step (h : SessionInv u)
    (hStep : EchoServer.step u.1 a = some s') {cfd : Fd} (hMain : s'.main.cfd = some cfd)
    {c : ConnId} (hOpen : s'.fdTable cfd = some c) :
    (u.2.note u.1 a).registered c = false := by
  have hKernel := (step_moves hStep).1
  rcases (step_sessionMove hStep).main cfd hMain with rfl | ⟨hOld, hNotAdd, hNotAccept⟩
  -- the connection just accepted
  · rcases hKernel.open_cases hOpen with hOpen | ⟨-, rfl⟩
    · simp [accept_free hStep] at hOpen
    · apply note_unregistered (by simp)
      rw [Bool.eq_false_iff]
      exact fun hReg => Nat.lt_irrefl _ (h.registered_lt _ hReg)
  · rcases hKernel.open_cases hOpen with hOpen | ⟨rfl, -⟩
    · exact note_unregistered hNotAdd (h.unregistered cfd hOld c hOpen)
    · exact absurd rfl (hNotAccept cfd)

theorem SessionInv.last_step (h : SessionInv u) (hMet : SessionKept u a)
    (hMove : SessionMove u.1 a s') {c : ConnId} (hMem : c ∈ s'.closed)
    (hReg : (u.2.note u.1 a).registered c = true) : (u.2.note u.1 a).ended c = true := by
  rcases hMove.closed c hMem with hOld | ⟨cfd, hFd, hOpen⟩ | ⟨w, rfl, hLt, hNotClosed⟩
  · rcases registered_of_note hReg with hReg | ⟨-, hTarget⟩
    · exact note_ended_mono (h.last c hOld hReg)
    · obtain ⟨cfd, hOpen⟩ := registerTarget_open hTarget
      exact absurd hOpen (h.kernel.closed_gone c hOld cfd)
  · cases a with
    | workerClose w =>
        cases hPc : u.1.worker w with
        | close task =>
            obtain rfl : task.cfd = cfd := by simpa [closedFd, hPc] using hFd
            exact note_ended_mono (h.closing w task hPc c hOpen)
        | _ => simp [closedFd, hPc] at hFd
    -- the main thread closes what it has not registered
    | mainClose =>
        cases hMain : u.1.main with
        | abandon fd =>
            obtain rfl : fd = cfd := by simpa [closedFd, hMain] using hFd
            have hNot := h.unregistered fd (by rw [hMain]; rfl) c hOpen
            have hReg : u.2.registered c = true := hReg
            simp [hNot] at hReg
        | _ => simp [closedFd, hMain] at hFd
    | _ => simp [closedFd] at hFd
  -- the condition: nobody's stream is still open
  · exact hMet c hLt hNotClosed hReg

end StepLemmas

/-- **Sessions last over one more step**, if it meets the condition. -/
theorem sessionInv_step {u u' : Traced n} {a : Action n} (h : SessionInv u)
    (hMet : SessionKept u a) (hStep : Traced.step u a = some u') : SessionInv u' := by
  obtain ⟨hStep, hNote⟩ := withHistory_eq_some.mp hStep
  obtain ⟨s', h'⟩ := u'
  obtain rfl : h' = u.2.note u.1 a := hNote
  have hKernel := (step_moves hStep).1
  have hMove := step_sessionMove hStep
  have hLe := hKernel.accepted_le
  constructor
  · exact kernelInv_step h.kernel hKernel
  · intro w task hPc c hOpen
    exact h.closing_step hMet hKernel hMove hPc hOpen
  · intro cfd hMain c hOpen
    exact h.unregistered_step hStep hMain hOpen
  · intro c hReg
    rcases registered_of_note hReg with hOld | ⟨-, hTarget⟩
    · exact Nat.lt_of_lt_of_le (h.registered_lt c hOld) hLe
    · obtain ⟨cfd, hOpen⟩ := registerTarget_open hTarget
      exact Nat.lt_of_lt_of_le (h.kernel.lt_accepted cfd c hOpen) hLe
  · intro c hEnded
    rcases ended_of_note hEnded with hOld | ⟨cfd, hOpen⟩
    · exact Nat.lt_of_lt_of_le (h.ended_lt c hOld) hLe
    · exact Nat.lt_of_lt_of_le (h.kernel.lt_accepted cfd c hOpen) hLe
  · intro c hMem hReg
    exact h.last_step hMet hMove hMem hReg

theorem sessionInv_reach {u : Traced n}
    (h : Reach Traced.step SessionKept (Traced.init n) u) : SessionInv u :=
  h.invariant sessionInv_init fun _ _ _ hInv hMet hStep => sessionInv_step hInv hMet hStep

/-! ## Sessions cut short -/

/-- A worker closes what its number stands for. -/
theorem worker_closes {u : Traced n} {w : Fin n} {task : Task} {c : ConnId}
    (hPc : u.1.worker w = .close task) (hOpen : u.1.fdTable task.cfd = some c) :
    ∃ v, Traced.step u (.workerClose w) = some v ∧ c ∈ v.1.closed ∧ v.2 = u.2 := by
  let s' := ((u.1.logOp .close task).closeFd task.cfd).setWorker w (.ctlDel task)
  have hStep : EchoServer.step u.1 (.workerClose w) = some s' := by
    simp only [EchoServer.step, hPc, s']
  have hCloses : Closes u.1 (.workerClose w) c := ⟨task.cfd, by simp [closedFd, hPc], hOpen⟩
  exact ⟨(s', u.2), withHistory_eq_some.mpr ⟨hStep, rfl⟩, (closes_closed hCloses hStep).1, rfl⟩

/-- **`EAGAIN` ends the session**: the next call of the worker closes the
connection. -/
theorem again_cuts_session {u u' : Traced n} {w : Fin n} {c : ConnId}
    (hTarget : readTarget u.1 w = some c) (hRegistered : u.2.registered c = true)
    (hOpenEnd : u.2.ended c = false) (hStep : Traced.step u (.workerRead w .again) = some u') :
    ∃ v, Reachable Traced.step u' v ∧ ¬ SessionsLast v := by
  obtain ⟨hStep, hNote⟩ := withHistory_eq_some.mp hStep
  have hHistory : u'.2 = u.2 := by
    rw [hNote]
    simp [History.note, hTarget]
  cases hPc : u.1.worker w with
  | read task =>
      have hOpen : u.1.fdTable task.cfd = some c := by simpa [readTarget, hPc] using hTarget
      simp only [EchoServer.step, hPc, workerRead, hOpen] at hStep
      split at hStep
      · simp only [Option.some.injEq] at hStep
        have hClose : u'.1.worker w = .close task := by simp [← hStep, State.setWorker]
        have hOpen' : u'.1.fdTable task.cfd = some c := by rw [← hStep]; exact hOpen
        obtain ⟨v, hStep', hMem, hSame⟩ := worker_closes hClose hOpen'
        refine ⟨v, .next _ .start trivial hStep', fun hLast => ?_⟩
        have hEnd := hLast c hMem (by rw [hSame, hHistory]; exact hRegistered)
        rw [hSame, hHistory, hOpenEnd] at hEnd
        simp at hEnd
      · simp at hStep
  | _ => simp [readTarget, hPc] at hTarget

/-- **A number handed out under a close** ends the session of its new owner. -/
theorem reuse_cuts_session {u u' : Traced n} {w : Fin n} {task : Task} {cfd : Fd}
    (h : SessionInv u) (hPc : u.1.worker w = .close task) (hSame : task.cfd = cfd)
    (hStep : Traced.step u (.accept cfd) = some u') :
    ∃ v, Reachable Traced.step u' v ∧ ¬ SessionsLast v := by
  subst hSame
  obtain ⟨hStep, hNote⟩ := withHistory_eq_some.mp hStep
  have hFrame : u'.1.worker w = .close task ∧ u'.1.main = .accepted task.cfd ∧
      u'.1.fdTable task.cfd = some u.1.accepted := by
    generalize u'.1 = s' at hStep ⊢
    cases step_branch hStep with
    | accept => exact ⟨hPc, rfl, Function.update_self ..⟩
  obtain ⟨hWorker, hMain, hOpen⟩ := hFrame
  -- the main thread registers the new client
  let s₁ : State n := { u'.1 with main := .register task.cfd }
  let s₂ : State n := { s₁.ctlAdd task.cfd with main := .loop }
  have hNonblocking : EchoServer.step u'.1 (.setNonblocking true) = some s₁ := by
    simp [EchoServer.step, hMain, hOpen, s₁]
  have hAdd : EchoServer.step s₁ .ctlAdd = some s₂ := by
    simp [EchoServer.step, s₁, s₂]
  let v₁ : Traced n := (s₁, u'.2.note u'.1 (.setNonblocking true))
  let v₂ : Traced n := (s₂, v₁.2.note s₁ .ctlAdd)
  have hFirst : Traced.step u' (.setNonblocking true) = some v₁ :=
    withHistory_eq_some.mpr ⟨hNonblocking, rfl⟩
  have hSecond : Traced.step v₁ .ctlAdd = some v₂ := withHistory_eq_some.mpr ⟨hAdd, rfl⟩
  have hClose : v₂.1.worker w = .close task := by
    simp [v₂, s₂, s₁, hWorker]
  have hOpen' : v₂.1.fdTable task.cfd = some u.1.accepted := by
    simp [v₂, s₂, s₁, hOpen]
  obtain ⟨v, hStep', hMem, hHistory⟩ := worker_closes hClose hOpen'
  refine ⟨v, .next _ (.next _ (.next _ .start trivial hFirst) trivial hSecond) trivial hStep',
    fun hLast => ?_⟩
  have hTarget : registerTarget s₁ = some u.1.accepted := by simp [registerTarget, s₁, hOpen]
  have hRegistered : v₂.2.registered u.1.accepted = true := by
    simp [v₂, History.note, hTarget]
  have hEnd := hLast _ hMem (by rw [hHistory]; exact hRegistered)
  have hSameEnd : v.2.ended = u.2.ended := by
    simp [hHistory, v₂, v₁, History.note, hTarget, hNote]
  rw [hSameEnd] at hEnd
  exact absurd (h.ended_lt _ hEnd) (Nat.lt_irrefl _)

/-- **A write that raises `SIGPIPE`** ends the session of everybody who is still
connected. -/
theorem sigpipe_cuts_sessions {u u' : Traced n} {w : Fin n} {c : ConnId}
    (hAccepted : c < u.1.accepted) (hNotClosed : c ∉ u.1.closed)
    (hRegistered : u.2.registered c = true) (hOpenEnd : u.2.ended c = false)
    (hStep : Traced.step u (.sigpipe w) = some u') : ¬ SessionsLast u' := by
  obtain ⟨hStep, hNote⟩ := withHistory_eq_some.mp hStep
  have hMem : c ∈ u'.1.closed := by
    generalize u'.1 = s' at hStep ⊢
    cases step_branch hStep with
    | sigpipe =>
        exact List.mem_append_right _
          (List.mem_filter.mpr ⟨List.mem_range.mpr hAccepted, decide_eq_true hNotClosed⟩)
  have hHistory : u'.2 = u.2 := by rw [hNote]; rfl
  intro hLast
  have hEnd := hLast c hMem (by rw [hHistory]; exact hRegistered)
  rw [hHistory, hOpenEnd] at hEnd
  simp at hEnd

/-- The client sends one message and shuts down before the worker is through
with it; then another client gets the number. -/
def hastyClientTrace (w : Fin n) : List (Action n) :=
  [.epollWait [.listen], .accept 5, .setNonblocking true, .ctlAdd, .peerSend 0 [104, 105],
    .epollWait [.client 0], .addTask, .workerTake w, .workerRead w (.data 2), .peerClose 0,
    .workerWrite w 2, .workerRead w .eof, .workerClose w, .workerCtlDel w,
    .epollWait [.listen], .accept 5, .setNonblocking true, .ctlAdd]

/-- The client sends one message and waits for the answer. -/
def patientClientTrace (w : Fin n) : List (Action n) :=
  [.epollWait [.listen], .accept 5, .setNonblocking true, .ctlAdd, .peerSend 0 [104, 105],
    .epollWait [.client 0], .addTask, .workerTake w, .workerRead w (.data 2), .workerWrite w 2,
    .workerRead w .again, .workerClose w]

end EchoServer
end LinuxCppLearn
