import Mathlib.Data.List.Nodup
import Mathlib.Tactic.Common
import LinuxCppLearn.EchoServer.Model

/-!
# Which connection a worker acts on

A task holds a descriptor number for as long as it is queued or running, and
the number may have been given to another client meanwhile: `working` closes
`cfd` before it deregisters it, and one descriptor can have several tasks.

* `Branch`, `step_branch` — every step is one of the branches of `step`; what a
  step does to a part of the state is read off there.
* `KernelInv` — the descriptor table, the registrations and the history of
  closes agree; no condition is needed, so the server closes each accepted
  connection at most once in every run.
* `Pending` — the tasks that still carry a number: queued, running, or as an
  unserved entry of `events[]`.
* `FdNotCarried` — `accept` returns no number that a pending task carries.
  `ownInv_reach` proves that every system call then reaches the connection the
  task was queued for, or none.
* `carried_fd_misdirects` — conversely, a running task whose number is handed
  out makes its next call on the new connection.
-/

namespace LinuxCppLearn
namespace EchoServer

open StepSystem

variable {n : Nat}

/-! ## The branches of a step -/

/-- What each branch of `step` requires, and where it leads. -/
inductive Branch (s : State n) : Action n → State n → Prop
  | peerSend {c : ConnId} {bytes : List UInt8} (hAccepted : c < s.accepted)
      (hSome : bytes ≠ []) (hMore : (s.conn c).eof = false) :
      Branch s (.peerSend c bytes) (s.setConn c
        { s.conn c with
          inbox := (s.conn c).inbox ++ bytes
          edge := (s.conn c).watched.isSome })
  | peerClose {c : ConnId} (hAccepted : c < s.accepted) (hMore : (s.conn c).eof = false) :
      Branch s (.peerClose c) (s.setConn c
        { s.conn c with
          eof := true
          edge := (s.conn c).watched.isSome })
  | epollWait {ready : List Source} (hLoop : s.main = .loop)
      (hBatch : s.batch = []) (hNodup : ready.Nodup) (hDue : ∀ source ∈ ready, source.Due s) :
      Branch s (.epollWait ready)
        { s with batch := readyEvents s ready, conn := consumeEdges s ready }
  | accept {cfd : Fd} {rest : List Event} (hBatch : s.batch = .listen :: rest)
      (hLoop : s.main = .loop) (hFree : LowestFree s cfd) :
      Branch s (.accept cfd)
        { s with
          batch := rest
          main := .accepted cfd
          fdTable := Function.update s.fdTable cfd (some s.accepted)
          accepted := s.accepted + 1 }
  | acceptFails {rest : List Event} (hBatch : s.batch = .listen :: rest)
      (hLoop : s.main = .loop) :
      Branch s .acceptFails { s with batch := rest }
  | setNonblocking {ok : Bool} {cfd : Fd} (hMain : s.main = .accepted cfd)
      (hOpen : ok = true → s.fdTable cfd ≠ none) :
      Branch s (.setNonblocking ok)
        { s with main := if ok then .register cfd else .abandon cfd }
  | ctlAdd {cfd : Fd} (hMain : s.main = .register cfd) :
      Branch s .ctlAdd { s.ctlAdd cfd with main := .loop }
  | mainClose {cfd : Fd} (hMain : s.main = .abandon cfd) :
      Branch s .mainClose { s.closeFd cfd with main := .loop }
  | addTask {cfd : Fd} {c : ConnId} {rest : List Event}
      (hBatch : s.batch = .client cfd c :: rest) (hLoop : s.main = .loop)
      (hAccepts : ThreadPool.echo.addTask false s.tasks.length = .accept) :
      Branch s .addTask { s with batch := rest, tasks := s.tasks ++ [⟨cfd, c⟩] }
  | dropTask {cfd : Fd} {c : ConnId} {rest : List Event}
      (hBatch : s.batch = .client cfd c :: rest) (hLoop : s.main = .loop)
      (hRefuses : ThreadPool.echo.addTask false s.tasks.length ≠ .accept) :
      Branch s .addTask { s with batch := rest }
  | workerTake {w : Fin n} {task : Task} {rest : List Task} (hPc : s.worker w = .idle)
      (hTasks : s.tasks = task :: rest) :
      Branch s (.workerTake w) { s.setWorker w (.read task) with tasks := rest }
  | readData {w : Fin n} {task : Task} {c : ConnId} {len : Nat}
      (hPc : s.worker w = .read task) (hOpen : s.fdTable task.cfd = some c)
      (hPossible : (ReadAnswer.data len).Possible (s.conn c)) :
      Branch s (.workerRead w (.data len)) (((s.logOp .read task).setConn c
        { s.conn c with
          inbox := (s.conn c).inbox.drop len
          readLog := (s.conn c).readLog ++ (s.conn c).inbox.take len }).setWorker w
            (.write task ((s.conn c).inbox.take len)))
  /-- the other answers of `read`, and `EBADF`, which end the run of the task -/
  | readEnds {w : Fin n} {task : Task} {answer : ReadAnswer} (hPc : s.worker w = .read task)
      (hEnds : s.fdTable task.cfd = none ∨
        (∀ len, answer ≠ .data len) ∧
          ∃ c, s.fdTable task.cfd = some c ∧ answer.Possible (s.conn c)) :
      Branch s (.workerRead w answer) ((s.logOp .read task).setWorker w (.close task))
  | write {w : Fin n} {task : Task} {buf : List UInt8} {len : Nat} {c : ConnId}
      (hPc : s.worker w = .write task buf) (hOpen : s.fdTable task.cfd = some c)
      (hLen : len ≤ buf.length) :
      Branch s (.workerWrite w len) (((s.logOp .write task).setConn c
        { s.conn c with sentLog := (s.conn c).sentLog ++ buf.take len }).setWorker w
          (.read task))
  | writeFails {w : Fin n} {task : Task} {buf : List UInt8} {len : Nat}
      (hPc : s.worker w = .write task buf) (hClosed : s.fdTable task.cfd = none) :
      Branch s (.workerWrite w len) ((s.logOp .write task).setWorker w (.read task))
  | sigpipe {w : Fin n} {task : Task} {buf : List UInt8} (hPc : s.worker w = .write task buf)
      (hOpen : s.fdTable task.cfd ≠ none) :
      Branch s (.sigpipe w) (s.logOp .write task).kill
  | workerClose {w : Fin n} {task : Task} (hPc : s.worker w = .close task) :
      Branch s (.workerClose w)
        (((s.logOp .close task).closeFd task.cfd).setWorker w (.ctlDel task))
  | workerCtlDel {w : Fin n} {task : Task} (hPc : s.worker w = .ctlDel task) :
      Branch s (.workerCtlDel w) (((s.logOp .ctlDel task).ctlDel task.cfd).setWorker w .idle)

theorem workerRead_branch {s s' : State n} {w : Fin n} {task : Task} {answer : ReadAnswer}
    (hPc : s.worker w = .read task) (h : workerRead s w task answer = some s') :
    Branch s (.workerRead w answer) s' := by
  unfold workerRead at h
  cases hOpen : s.fdTable task.cfd with
  | none =>
      simp only [hOpen, Option.some.injEq] at h
      subst h
      exact .readEnds hPc (.inl hOpen)
  | some c =>
      simp only [hOpen] at h
      split at h
      · rename_i hPossible
        cases answer with
        | data len =>
            simp only [Option.some.injEq] at h
            subst h
            exact .readData hPc hOpen hPossible
        | again | eof | error =>
            simp only [Option.some.injEq] at h
            subst h
            exact .readEnds hPc (.inr ⟨by simp, c, hOpen, hPossible⟩)
      · simp at h

theorem workerWrite_branch {s s' : State n} {w : Fin n} {task : Task} {buf : List UInt8}
    {len : Nat} (hPc : s.worker w = .write task buf)
    (h : workerWrite s w task buf len = some s') : Branch s (.workerWrite w len) s' := by
  unfold workerWrite at h
  cases hOpen : s.fdTable task.cfd with
  | none =>
      simp only [hOpen, Option.some.injEq] at h
      subst h
      exact .writeFails hPc hOpen
  | some c =>
      simp only [hOpen] at h
      split at h
      · rename_i hLen
        simp only [Option.some.injEq] at h
        subst h
        exact .write hPc hOpen hLen
      · simp at h

/-- **Every step is one of the branches.** -/
theorem step_branch {s s' : State n} {a : Action n} (h : step s a = some s') : Branch s a s' := by
  cases a with
  | peerSend c bytes =>
      obtain ⟨hMet, h⟩ := Option.ite_none_right_eq_some.mp h
      obtain rfl := Option.some.inj h
      exact .peerSend hMet.1 hMet.2.1 hMet.2.2
  | peerClose c =>
      obtain ⟨hMet, h⟩ := Option.ite_none_right_eq_some.mp h
      obtain rfl := Option.some.inj h
      exact .peerClose hMet.1 hMet.2
  | epollWait ready =>
      obtain ⟨hMet, h⟩ := Option.ite_none_right_eq_some.mp h
      obtain rfl := Option.some.inj h
      obtain ⟨hLoop, hBatch, -, -, hNodup, hDue⟩ := hMet
      exact .epollWait hLoop hBatch hNodup hDue
  | accept cfd =>
      simp only [step] at h
      split at h
      · rename_i rest hBatch
        obtain ⟨hMet, h⟩ := Option.ite_none_right_eq_some.mp h
        obtain rfl := Option.some.inj h
        exact .accept hBatch hMet.1 hMet.2
      · simp at h
  | acceptFails =>
      simp only [step] at h
      split at h
      · rename_i rest hBatch
        obtain ⟨hLoop, h⟩ := Option.ite_none_right_eq_some.mp h
        obtain rfl := Option.some.inj h
        exact .acceptFails hBatch hLoop
      · simp at h
  | setNonblocking ok =>
      simp only [step] at h
      split at h
      · rename_i cfd hMain
        split at h
        · simp at h
        · rename_i hKept
          obtain rfl := Option.some.inj h
          exact .setNonblocking hMain fun hOk hClosed => hKept ⟨hOk, hClosed⟩
      · simp at h
  | ctlAdd =>
      simp only [step] at h
      split at h
      · rename_i cfd hMain
        obtain rfl := Option.some.inj h
        exact .ctlAdd hMain
      · simp at h
  | mainClose =>
      simp only [step] at h
      split at h
      · rename_i cfd hMain
        obtain rfl := Option.some.inj h
        exact .mainClose hMain
      · simp at h
  | addTask =>
      simp only [step] at h
      split at h
      · rename_i cfd c rest hBatch
        obtain ⟨hLoop, h⟩ := Option.ite_none_right_eq_some.mp h
        split at h
        · rename_i hAccepts
          obtain rfl := Option.some.inj h
          exact .addTask hBatch hLoop hAccepts
        · rename_i hRefuses
          obtain rfl := Option.some.inj h
          exact .dropTask hBatch hLoop hRefuses
      · simp at h
  | workerTake w =>
      simp only [step] at h
      split at h
      · rename_i task rest hIdle hTasks
        obtain rfl := Option.some.inj h
        exact .workerTake hIdle hTasks
      · simp at h
  | workerRead w answer =>
      simp only [step] at h
      split at h
      · rename_i task hPc
        exact workerRead_branch hPc h
      · simp at h
  | workerWrite w len =>
      simp only [step] at h
      split at h
      · rename_i task buf hPc
        exact workerWrite_branch hPc h
      · simp at h
  | sigpipe w =>
      simp only [step] at h
      split at h
      · rename_i task buf hPc
        obtain ⟨hOpen, h⟩ := Option.ite_none_left_eq_some.mp h
        obtain rfl := Option.some.inj h
        exact .sigpipe hPc hOpen
      · simp at h
  | workerClose w =>
      simp only [step] at h
      split at h
      · rename_i task hPc
        obtain rfl := Option.some.inj h
        exact .workerClose hPc
      · simp at h
  | workerCtlDel w =>
      simp only [step] at h
      split at h
      · rename_i task hPc
        obtain rfl := Option.some.inj h
        exact .workerCtlDel hPc
      · simp at h

/-! ## The kernel's tables -/

/-- Table, registrations and closes agree. -/
structure KernelInv (s : State n) : Prop where
  lt_accepted : ∀ fd c, s.fdTable fd = some c → c < s.accepted
  one_fd : ∀ fd fd' c, s.fdTable fd = some c → s.fdTable fd' = some c → fd = fd'
  watched_open : ∀ c fd, (s.conn c).watched = some fd → s.fdTable fd = some c
  closed_lt : ∀ c ∈ s.closed, c < s.accepted
  closed_gone : ∀ c ∈ s.closed, ∀ fd, s.fdTable fd ≠ some c
  closed_nodup : s.closed.Nodup

/-- What a step does to the kernel's tables. -/
inductive KernelMove (s : State n) (a : Action n) (s' : State n) : Prop
  | same
      (hTable : s'.fdTable = s.fdTable)
      (hAccepted : s'.accepted = s.accepted)
      (hClosed : s'.closed = s.closed)
      (hWatched : ∀ c fd, (s'.conn c).watched = some fd →
        (s.conn c).watched = some fd ∨ s.fdTable fd = some c)
  | accept (cfd : Fd)
      (hAction : a = .accept cfd)
      (hFree : s.fdTable cfd = none)
      (hTable : s'.fdTable = Function.update s.fdTable cfd (some s.accepted))
      (hAccepted : s'.accepted = s.accepted + 1)
      (hClosed : s'.closed = s.closed)
      (hConn : s'.conn = s.conn)
  | close (cfd : Fd) (c : ConnId)
      (hOpen : s.fdTable cfd = some c)
      (hTable : s'.fdTable = Function.update s.fdTable cfd none)
      (hAccepted : s'.accepted = s.accepted)
      (hClosed : s'.closed = s.closed ++ [c])
      (hSelf : (s'.conn c).watched = none)
      (hConn : ∀ c' ≠ c, (s'.conn c').watched = (s.conn c').watched)
  /-- the process ends -/
  | kill (w : Fin n)
      (hAction : a = .sigpipe w)
      (hTable : ∀ fd, s'.fdTable fd = none)
      (hAccepted : s'.accepted = s.accepted)
      (hClosed : s'.closed = s.closed ++ (List.range s.accepted).filter fun c => c ∉ s.closed)
      (hWatched : ∀ c, (s'.conn c).watched = none)

/-- Steps that touch at most one connection, and register it at most under a
number that is open for it. -/
theorem KernelMove.setConn {s s' : State n} {a : Action n} {c : ConnId} {conn : Conn}
    (hConn : s'.conn = Function.update s.conn c conn) (hTable : s'.fdTable = s.fdTable)
    (hAccepted : s'.accepted = s.accepted) (hClosed : s'.closed = s.closed)
    (hWatched : ∀ fd, conn.watched = some fd →
      (s.conn c).watched = some fd ∨ s.fdTable fd = some c) : KernelMove s a s' := by
  refine .same hTable hAccepted hClosed fun c' fd hSome => ?_
  rw [hConn] at hSome
  by_cases hEq : c' = c
  · subst hEq
    rw [Function.update_self] at hSome
    exact hWatched fd hSome
  · rw [Function.update_of_ne hEq] at hSome
    exact .inl hSome

theorem KernelMove.unchanged {s s' : State n} {a : Action n} (hTable : s'.fdTable = s.fdTable)
    (hAccepted : s'.accepted = s.accepted) (hClosed : s'.closed = s.closed)
    (hConn : s'.conn = s.conn) : KernelMove s a s' :=
  .same hTable hAccepted hClosed fun _ _ hSome => .inl (hConn ▸ hSome)

theorem closeFd_kernelMove {s s' : State n} {a : Action n} (cfd : Fd)
    (hTable : s'.fdTable = (s.closeFd cfd).fdTable)
    (hAccepted : s'.accepted = s.accepted)
    (hClosed : s'.closed = (s.closeFd cfd).closed)
    (hConn : s'.conn = (s.closeFd cfd).conn) : KernelMove s a s' := by
  unfold State.closeFd at hTable hClosed hConn
  cases hOpen : s.fdTable cfd with
  | none =>
      simp only [hOpen] at hTable hClosed hConn
      exact .unchanged hTable hAccepted hClosed hConn
  | some c =>
      simp only [hOpen] at hTable hClosed hConn
      refine .close cfd c hOpen hTable hAccepted hClosed ?_ fun c' hNe => ?_
      · simp [hConn, State.setConn]
      · simp [hConn, State.setConn, Function.update_of_ne hNe]

theorem ctlDel_kernelMove {s s' : State n} {a : Action n} (cfd : Fd)
    (hTable : s'.fdTable = s.fdTable) (hAccepted : s'.accepted = s.accepted)
    (hClosed : s'.closed = s.closed) (hConn : s'.conn = (s.ctlDel cfd).conn) :
    KernelMove s a s' := by
  unfold State.ctlDel at hConn
  cases hOpen : s.fdTable cfd with
  | none =>
      simp only [hOpen] at hConn
      exact .unchanged hTable hAccepted hClosed hConn
  | some c =>
      simp only [hOpen] at hConn
      exact .setConn hConn hTable hAccepted hClosed fun fd hSome => by simp at hSome

theorem ctlAdd_kernelMove {s s' : State n} {a : Action n} (cfd : Fd)
    (hTable : s'.fdTable = s.fdTable) (hAccepted : s'.accepted = s.accepted)
    (hClosed : s'.closed = s.closed) (hConn : s'.conn = (s.ctlAdd cfd).conn) :
    KernelMove s a s' := by
  unfold State.ctlAdd at hConn
  cases hOpen : s.fdTable cfd with
  | none =>
      simp only [hOpen] at hConn
      exact .unchanged hTable hAccepted hClosed hConn
  | some c =>
      simp only [hOpen] at hConn
      refine .setConn hConn hTable hAccepted hClosed fun fd hSome => ?_
      obtain rfl : cfd = fd := by simpa using hSome
      exact .inr hOpen

/-- Neither the log nor a worker's program counter belongs to the tables. -/
theorem KernelMove.ofCall {s s' : State n} {a : Action n} {kind : OpKind} {task : Task}
    {w : Fin n} {pc : WorkerPc} (h : KernelMove (s.logOp kind task) a s') :
    KernelMove s a (s'.setWorker w pc) := by
  cases h with
  | same hTable hAccepted hClosed hWatched => exact .same hTable hAccepted hClosed hWatched
  | accept cfd hAction hFree hTable hAccepted hClosed hConn =>
      exact .accept cfd hAction hFree hTable hAccepted hClosed hConn
  | close cfd c hOpen hTable hAccepted hClosed hSelf hConn =>
      exact .close cfd c hOpen hTable hAccepted hClosed hSelf hConn
  | kill w hAction hTable hAccepted hClosed hWatched =>
      exact .kill w hAction hTable hAccepted hClosed hWatched

/-! ## What one step does

`closeFd`, `ctlDel` and `ctlAdd` leave everything but the kernel's tables. -/

@[simp] theorem closeFd_frame (s : State n) (cfd : Fd) :
    (s.closeFd cfd).accepted = s.accepted ∧ (s.closeFd cfd).tasks = s.tasks ∧
      (s.closeFd cfd).batch = s.batch ∧ (s.closeFd cfd).worker = s.worker ∧
      (s.closeFd cfd).ops = s.ops := by
  unfold State.closeFd
  cases s.fdTable cfd with
  | none => simp
  | some c => simp [State.setConn]

@[simp] theorem ctlDel_frame (s : State n) (cfd : Fd) :
    (s.ctlDel cfd).fdTable = s.fdTable ∧ (s.ctlDel cfd).accepted = s.accepted ∧
      (s.ctlDel cfd).closed = s.closed ∧ (s.ctlDel cfd).tasks = s.tasks ∧
      (s.ctlDel cfd).batch = s.batch ∧ (s.ctlDel cfd).worker = s.worker ∧
      (s.ctlDel cfd).ops = s.ops := by
  unfold State.ctlDel
  cases s.fdTable cfd with
  | none => simp
  | some c => simp [State.setConn]

@[simp] theorem ctlAdd_frame (s : State n) (cfd : Fd) :
    (s.ctlAdd cfd).fdTable = s.fdTable ∧ (s.ctlAdd cfd).accepted = s.accepted ∧
      (s.ctlAdd cfd).closed = s.closed ∧ (s.ctlAdd cfd).tasks = s.tasks ∧
      (s.ctlAdd cfd).batch = s.batch ∧ (s.ctlAdd cfd).worker = s.worker ∧
      (s.ctlAdd cfd).ops = s.ops := by
  unfold State.ctlAdd
  cases s.fdTable cfd with
  | none => simp
  | some c => simp [State.setConn]

/-- The task a worker is running. -/
def WorkerPc.task : WorkerPc → Option Task
  | .idle => none
  | .read task | .write task _ | .close task | .ctlDel task => some task

/-- The task an entry of `events[]` becomes. -/
def Event.task : Event → Option Task
  | .listen => none
  | .client cfd c => some ⟨cfd, c⟩

/-- The tasks that carry a number: queued, running, or still in `events[]`. -/
def pendingTasks (s : State n) : List Task :=
  s.tasks ++ ((List.finRange n).filterMap fun w => (s.worker w).task) ++
    s.batch.filterMap Event.task

theorem mem_pendingTasks {s : State n} {t : Task} :
    t ∈ pendingTasks s ↔
      t ∈ s.tasks ∨ (∃ w, (s.worker w).task = some t) ∨ ∃ e ∈ s.batch, e.task = some t := by
  simp [pendingTasks]

/-- What a step does to the numbers carried and to the calls made. -/
structure TaskMove (s s' : State n) : Prop where
  pending : ∀ t ∈ pendingTasks s',
    t ∈ pendingTasks s ∨ (s.conn t.conn).watched = some t.cfd
  ops : s'.ops = s.ops ∨ ∃ kind, ∃ t ∈ pendingTasks s,
    s'.ops = s.ops ++ [⟨kind, t, s.fdTable t.cfd⟩]

theorem TaskMove.unchanged {s s' : State n} (hTasks : s'.tasks = s.tasks)
    (hWorker : s'.worker = s.worker) (hBatch : ∀ e ∈ s'.batch, e ∈ s.batch)
    (hOps : s'.ops = s.ops) : TaskMove s s' := by
  refine ⟨fun t hPending => .inl ?_, .inl hOps⟩
  rw [mem_pendingTasks, hTasks, hWorker] at hPending
  rw [mem_pendingTasks]
  rcases hPending with hQueued | hRunning | ⟨e, hEvent, hTask⟩
  · exact .inl hQueued
  · exact .inr (.inl hRunning)
  · exact .inr (.inr ⟨e, hBatch e hEvent, hTask⟩)

/-- A worker makes its call and goes on with the same task, or is done. -/
theorem TaskMove.call {s s' : State n} {w : Fin n} {pc : WorkerPc} {kind : OpKind}
    {task : Task} (hRuns : (s.worker w).task = some task)
    (hPc : ∀ t, pc.task = some t → t = task)
    (hTasks : s'.tasks = s.tasks) (hBatch : s'.batch = s.batch)
    (hWorker : s'.worker = Function.update s.worker w pc)
    (hOps : s'.ops = (s.logOp kind task).ops) : TaskMove s s' := by
  have hMem : task ∈ pendingTasks s := mem_pendingTasks.mpr (.inr (.inl ⟨w, hRuns⟩))
  refine ⟨fun t hPending => .inl ?_, .inr ⟨kind, task, hMem, hOps⟩⟩
  rw [mem_pendingTasks, hTasks, hWorker, hBatch] at hPending
  rcases hPending with hQueued | ⟨w', hRunning⟩ | hEvent
  · exact mem_pendingTasks.mpr (.inl hQueued)
  · by_cases hEq : w' = w
    · subst hEq
      rw [Function.update_self] at hRunning
      rw [hPc t hRunning]
      exact hMem
    · rw [Function.update_of_ne hEq] at hRunning
      exact mem_pendingTasks.mpr (.inr (.inl ⟨w', hRunning⟩))
  · exact mem_pendingTasks.mpr (.inr (.inr hEvent))

/-- An entry of `events[]` comes from a registration. -/
theorem mem_readyEvents_task {s : State n} {ready : List Source} {e : Event} {t : Task}
    (hEvent : e ∈ readyEvents s ready) (hTask : e.task = some t) :
    (s.conn t.conn).watched = some t.cfd := by
  obtain ⟨source, -, hEvent⟩ := List.mem_filterMap.mp hEvent
  cases source with
  | listen =>
      obtain rfl := Option.some.inj hEvent
      simp [Event.task] at hTask
  | client c =>
      obtain ⟨cfd, hWatched, rfl⟩ := Option.map_eq_some_iff.mp hEvent
      obtain rfl : (⟨cfd, c⟩ : Task) = t := by simpa [Event.task] using hTask
      exact hWatched

/-- Reporting an event leaves the registration. -/
theorem consumeEdges_watched (s : State n) (ready : List Source) (c : ConnId) :
    (consumeEdges s ready c).watched = (s.conn c).watched := by
  unfold consumeEdges
  split
  · rfl
  · rfl

theorem epollWait_taskMove (s : State n) (ready : List Source) :
    TaskMove s { s with batch := readyEvents s ready, conn := consumeEdges s ready } := by
  refine ⟨fun t hPending => ?_, .inl rfl⟩
  rw [mem_pendingTasks] at hPending
  rcases hPending with hQueued | hRunning | ⟨e, hEvent, hTask⟩
  · exact .inl (mem_pendingTasks.mpr (.inl hQueued))
  · exact .inl (mem_pendingTasks.mpr (.inr (.inl hRunning)))
  · exact .inr (mem_readyEvents_task hEvent hTask)

/-- The last call, and nothing is left to do. -/
theorem sigpipe_taskMove {s : State n} {w : Fin n} {task : Task} {buf : List UInt8}
    (hPc : s.worker w = .write task buf) : TaskMove s (s.logOp .write task).kill := by
  have hMem : task ∈ pendingTasks s := mem_pendingTasks.mpr (.inr (.inl ⟨w, by rw [hPc]; rfl⟩))
  refine ⟨fun t hPending => ?_, .inr ⟨.write, task, hMem, rfl⟩⟩
  rw [mem_pendingTasks] at hPending
  simp [State.kill, WorkerPc.task] at hPending

/-- Queueing a task moves it from `events[]` to `m_tasks`. -/
theorem addTask_taskMove {s : State n} {cfd : Fd} {c : ConnId} {rest : List Event}
    (hBatch : s.batch = .client cfd c :: rest) :
    TaskMove s { s with batch := rest, tasks := s.tasks ++ [⟨cfd, c⟩] } := by
  refine ⟨fun t hPending => .inl ?_, .inl rfl⟩
  rw [mem_pendingTasks] at hPending ⊢
  rcases hPending with hQueued | hRunning | ⟨e, hEvent, hTask⟩
  · rcases List.mem_append.mp hQueued with hOld | hNew
    · exact .inl hOld
    · obtain rfl : t = ⟨cfd, c⟩ := by simpa using hNew
      exact .inr (.inr ⟨.client cfd c, by simp [hBatch], rfl⟩)
  · exact .inr (.inl hRunning)
  · exact .inr (.inr ⟨e, hBatch ▸ List.mem_cons_of_mem _ hEvent, hTask⟩)

theorem workerTake_taskMove {s : State n} {w : Fin n} {task : Task} {rest : List Task}
    (hTasks : s.tasks = task :: rest) :
    TaskMove s { s.setWorker w (.read task) with tasks := rest } := by
  refine ⟨fun t hPending => .inl ?_, .inl rfl⟩
  rw [mem_pendingTasks] at hPending ⊢
  rcases hPending with hQueued | ⟨w', hRunning⟩ | hEvent
  · exact .inl (hTasks ▸ List.mem_cons_of_mem _ hQueued)
  · by_cases hEq : w' = w
    · subst hEq
      obtain rfl : task = t := by simpa [State.setWorker, WorkerPc.task] using hRunning
      exact .inl (by simp [hTasks])
    · simp only [State.setWorker, Function.update_of_ne hEq] at hRunning
      exact .inr (.inl ⟨w', hRunning⟩)
  · exact .inr (.inr hEvent)

/-- Everything a step does to the kernel's tables and to the tasks. -/
theorem step_moves {s s' : State n} {a : Action n} (h : step s a = some s') :
    KernelMove s a s' ∧ TaskMove s s' := by
  cases step_branch h with
  | peerSend | peerClose =>
      exact ⟨.setConn rfl rfl rfl rfl fun _ hSome => .inl hSome,
        .unchanged rfl rfl (fun _ hEvent => hEvent) rfl⟩
  | epollWait =>
      refine ⟨.same rfl rfl rfl fun c fd hSome => .inl ?_, epollWait_taskMove s _⟩
      rw [← hSome]
      exact (consumeEdges_watched s _ c).symm
  | accept hBatch _ hFree =>
      exact ⟨.accept _ rfl hFree.2.1 rfl rfl rfl rfl,
        .unchanged rfl rfl (fun e hEvent => hBatch ▸ List.mem_cons_of_mem _ hEvent) rfl⟩
  | acceptFails hBatch | dropTask hBatch =>
      exact ⟨.unchanged rfl rfl rfl rfl,
        .unchanged rfl rfl (fun e hEvent => hBatch ▸ List.mem_cons_of_mem _ hEvent) rfl⟩
  | setNonblocking =>
      exact ⟨.unchanged rfl rfl rfl rfl, .unchanged rfl rfl (fun _ hEvent => hEvent) rfl⟩
  | @ctlAdd cfd =>
      exact ⟨ctlAdd_kernelMove cfd (by simp) (by simp) (by simp) rfl,
        .unchanged (by simp) (by simp) (by simp) (by simp)⟩
  | @mainClose cfd =>
      exact ⟨closeFd_kernelMove cfd rfl (by simp) rfl rfl,
        .unchanged (by simp) (by simp) (by simp) (by simp)⟩
  | addTask hBatch => exact ⟨.unchanged rfl rfl rfl rfl, addTask_taskMove hBatch⟩
  | workerTake _ hTasks => exact ⟨.unchanged rfl rfl rfl rfl, workerTake_taskMove hTasks⟩
  -- a worker's call is logged, and the worker goes on with the same task
  | readData hPc | write hPc =>
      exact ⟨.setConn rfl rfl rfl rfl fun _ hSome => .inl hSome,
        .call (by rw [hPc]; rfl) (by simp [WorkerPc.task]) rfl rfl rfl rfl⟩
  | readEnds hPc | writeFails hPc =>
      exact ⟨.unchanged rfl rfl rfl rfl,
        .call (by rw [hPc]; rfl) (by simp [WorkerPc.task]) rfl rfl rfl rfl⟩
  | sigpipe hPc =>
      exact ⟨.kill _ rfl (fun _ => rfl) rfl rfl (fun _ => rfl), sigpipe_taskMove hPc⟩
  | @workerClose w task hPc =>
      obtain ⟨hAccepted, hTasks, hBatch, hWorker, hOps⟩ :=
        closeFd_frame (s.logOp .close task) task.cfd
      exact ⟨.ofCall (closeFd_kernelMove task.cfd rfl hAccepted rfl rfl),
        .call (by rw [hPc]; rfl) (by simp [WorkerPc.task]) hTasks hBatch
          (congrArg (Function.update · w _) hWorker) hOps⟩
  | @workerCtlDel w task hPc =>
      obtain ⟨hTable, hAccepted, hClosed, hTasks, hBatch, hWorker, hOps⟩ :=
        ctlDel_frame (s.logOp .ctlDel task) task.cfd
      exact ⟨.ofCall (ctlDel_kernelMove task.cfd hTable hAccepted hClosed rfl),
        .call (by rw [hPc]; rfl) (by simp [WorkerPc.task]) hTasks hBatch
          (congrArg (Function.update · w _) hWorker) hOps⟩

/-! ## The kernel's tables agree in every run -/

theorem kernelInv_init : KernelInv (init n) where
  lt_accepted _ _ hOpen := by simp [init] at hOpen
  one_fd _ _ _ hOpen := by simp [init] at hOpen
  watched_open _ _ hSome := by simp [init, Conn.fresh] at hSome
  closed_lt _ hClosed := by simp [init] at hClosed
  closed_gone _ hClosed := by simp [init] at hClosed
  closed_nodup := List.nodup_nil

theorem kernelInv_accept {s s' : State n} {cfd : Fd} (h : KernelInv s)
    (hFree : s.fdTable cfd = none)
    (hTable : s'.fdTable = Function.update s.fdTable cfd (some s.accepted))
    (hAccepted : s'.accepted = s.accepted + 1) (hClosed : s'.closed = s.closed)
    (hConn : s'.conn = s.conn) : KernelInv s' := by
  -- an open number is the new one, with the fresh identity, or an old one
  have hCases : ∀ fd c, s'.fdTable fd = some c →
      (fd = cfd ∧ c = s.accepted) ∨ (fd ≠ cfd ∧ s.fdTable fd = some c) := by
    intro fd c hOpen
    rw [hTable] at hOpen
    by_cases hEq : fd = cfd
    · subst hEq
      rw [Function.update_self, Option.some.injEq] at hOpen
      exact .inl ⟨rfl, hOpen.symm⟩
    · rw [Function.update_of_ne hEq] at hOpen
      exact .inr ⟨hEq, hOpen⟩
  constructor
  · intro fd c hOpen
    rcases hCases fd c hOpen with ⟨-, rfl⟩ | ⟨-, hOld⟩
    · rw [hAccepted]
      exact Nat.lt_succ_self _
    · rw [hAccepted]
      exact Nat.lt_succ_of_lt (h.lt_accepted fd c hOld)
  · intro fd fd' c hOpen hOpen'
    rcases hCases fd c hOpen with ⟨hNew, rfl⟩ | ⟨-, hOld⟩
    · rcases hCases fd' _ hOpen' with ⟨hNew', -⟩ | ⟨-, hOld'⟩
      · rw [hNew, hNew']
      · exact absurd (h.lt_accepted fd' _ hOld') (Nat.lt_irrefl _)
    · rcases hCases fd' _ hOpen' with ⟨-, rfl⟩ | ⟨-, hOld'⟩
      · exact absurd (h.lt_accepted fd _ hOld) (Nat.lt_irrefl _)
      · exact h.one_fd fd fd' c hOld hOld'
  · intro c fd hWatched
    rw [hConn] at hWatched
    have hOpen := h.watched_open c fd hWatched
    have hNe : fd ≠ cfd := by
      intro hEq
      rw [hEq, hFree] at hOpen
      simp at hOpen
    rw [hTable, Function.update_of_ne hNe]
    exact hOpen
  · intro c hMem
    rw [hClosed] at hMem
    rw [hAccepted]
    exact Nat.lt_succ_of_lt (h.closed_lt c hMem)
  · intro c hMem fd hOpen
    rw [hClosed] at hMem
    rcases hCases fd c hOpen with ⟨-, rfl⟩ | ⟨-, hOld⟩
    · exact absurd (h.closed_lt _ hMem) (Nat.lt_irrefl _)
    · exact h.closed_gone c hMem fd hOld
  · rw [hClosed]
    exact h.closed_nodup

theorem kernelInv_close {s s' : State n} {cfd : Fd} {c : ConnId} (h : KernelInv s)
    (hOpen : s.fdTable cfd = some c)
    (hTable : s'.fdTable = Function.update s.fdTable cfd none)
    (hAccepted : s'.accepted = s.accepted) (hClosed : s'.closed = s.closed ++ [c])
    (hSelf : (s'.conn c).watched = none)
    (hConn : ∀ c' ≠ c, (s'.conn c').watched = (s.conn c').watched) : KernelInv s' := by
  -- what is still open was open under the same number
  have hStill : ∀ fd c', s'.fdTable fd = some c' → fd ≠ cfd ∧ s.fdTable fd = some c' := by
    intro fd c' hOld
    rw [hTable] at hOld
    by_cases hEq : fd = cfd
    · subst hEq
      simp at hOld
    · rw [Function.update_of_ne hEq] at hOld
      exact ⟨hEq, hOld⟩
  constructor
  · intro fd c' hOld
    rw [hAccepted]
    exact h.lt_accepted fd c' (hStill fd c' hOld).2
  · intro fd fd' c' hOld hOld'
    exact h.one_fd fd fd' c' (hStill fd c' hOld).2 (hStill fd' c' hOld').2
  · intro c' fd hWatched
    by_cases hEq : c' = c
    · rw [hEq, hSelf] at hWatched
      simp at hWatched
    · rw [hConn c' hEq] at hWatched
      have hOld := h.watched_open c' fd hWatched
      have hNe : fd ≠ cfd := by
        intro hFd
        rw [hFd, hOpen, Option.some.injEq] at hOld
        exact hEq hOld.symm
      rw [hTable, Function.update_of_ne hNe]
      exact hOld
  · intro c' hMem
    rw [hAccepted]
    rw [hClosed, List.mem_append, List.mem_singleton] at hMem
    rcases hMem with hOld | rfl
    · exact h.closed_lt c' hOld
    · exact h.lt_accepted cfd c' hOpen
  · intro c' hMem fd hOld
    obtain ⟨hNe, hOld⟩ := hStill fd c' hOld
    rw [hClosed, List.mem_append, List.mem_singleton] at hMem
    rcases hMem with hGone | rfl
    · exact h.closed_gone c' hGone fd hOld
    · exact hNe (h.one_fd fd cfd c' hOld hOpen)
  · rw [hClosed, List.nodup_append]
    refine ⟨h.closed_nodup, List.nodup_singleton c, ?_⟩
    intro c' hMem d hNew hEq
    rw [List.mem_singleton] at hNew
    subst hNew hEq
    exact h.closed_gone _ hMem cfd hOpen

theorem kernelInv_kill {s s' : State n} (h : KernelInv s) (hTable : ∀ fd, s'.fdTable fd = none)
    (hAccepted : s'.accepted = s.accepted)
    (hClosed : s'.closed = s.closed ++ (List.range s.accepted).filter fun c => c ∉ s.closed)
    (hWatched : ∀ c, (s'.conn c).watched = none) : KernelInv s' := by
  have hNone : ∀ fd c, s'.fdTable fd ≠ some c := fun fd c hOpen => by simp [hTable] at hOpen
  constructor
  · exact fun fd c hOpen => absurd hOpen (hNone fd c)
  · exact fun fd _ c hOpen => absurd hOpen (hNone fd c)
  · intro c fd hSome
    simp [hWatched] at hSome
  · intro c hMem
    rw [hClosed, List.mem_append, List.mem_filter, List.mem_range] at hMem
    rw [hAccepted]
    exact hMem.elim (h.closed_lt c) And.left
  · exact fun c _ fd => hNone fd c
  · rw [hClosed, List.nodup_append]
    refine ⟨h.closed_nodup, List.nodup_range.filter _, ?_⟩
    intro c hMem d hNew hEq
    subst hEq
    simp [hMem] at hNew

theorem kernelInv_step {s s' : State n} {a : Action n} (h : KernelInv s)
    (hMove : KernelMove s a s') : KernelInv s' := by
  cases hMove with
  | same hTable hAccepted hClosed hWatched =>
      constructor
      · rw [hTable, hAccepted]
        exact h.lt_accepted
      · rw [hTable]
        exact h.one_fd
      · intro c fd hSome
        rw [hTable]
        rcases hWatched c fd hSome with hOld | hOpen
        · exact h.watched_open c fd hOld
        · exact hOpen
      · rw [hClosed, hAccepted]
        exact h.closed_lt
      · rw [hClosed, hTable]
        exact h.closed_gone
      · rw [hClosed]
        exact h.closed_nodup
  | accept cfd _ hFree hTable hAccepted hClosed hConn =>
      exact kernelInv_accept h hFree hTable hAccepted hClosed hConn
  | close cfd c hOpen hTable hAccepted hClosed hSelf hConn =>
      exact kernelInv_close h hOpen hTable hAccepted hClosed hSelf hConn
  | kill _ _ hTable hAccepted hClosed hWatched =>
      exact kernelInv_kill h hTable hAccepted hClosed hWatched

/-- No condition on the run: numbers may be reused in any way. -/
theorem kernelInv_reach {s : State n} (h : Reachable step (init n) s) : KernelInv s :=
  h.invariant kernelInv_init fun _ _ _ hInv _ hStep =>
    kernelInv_step hInv (step_moves hStep).1

/-! ## Numbers that are handed out while they are carried -/

/-- Every call reached the connection the task was queued for, or none. -/
def ActsOnOwn (s : State n) : Prop :=
  ∀ op ∈ s.ops, ∀ c, op.target = some c → c = op.task.conn

/-- `accept` returns no number that a pending task carries. -/
def FdNotCarried (s : State n) : Action n → Prop
  | .accept cfd => ∀ t ∈ pendingTasks s, t.cfd ≠ cfd
  | _ => True

instance (s : State n) (a : Action n) : Decidable (FdNotCarried s a) := by
  induction a using Action.casesOn <;> unfold FdNotCarried <;> infer_instance

structure OwnInv (s : State n) : Prop where
  kernel : KernelInv s
  own : ∀ t ∈ pendingTasks s, ∀ c, s.fdTable t.cfd = some c → c = t.conn
  acted : ActsOnOwn s

theorem ownInv_init : OwnInv (init n) where
  kernel := kernelInv_init
  own t hPending := by
    rw [mem_pendingTasks] at hPending
    simp [init, WorkerPc.task] at hPending
  acted op hMem := by simp [init] at hMem

/-- A pending task keeps its number to itself: it was pending before, or its
event has just been reported by the registration. -/
theorem own_step {s s' : State n} {a : Action n} (h : OwnInv s) (hMet : FdNotCarried s a)
    (hKernel : KernelMove s a s') (hTask : TaskMove s s') :
    ∀ t ∈ pendingTasks s', ∀ c, s'.fdTable t.cfd = some c → c = t.conn := by
  -- the number as it was before the step
  have hBefore : ∀ t ∈ pendingTasks s', ∀ c, s.fdTable t.cfd = some c → c = t.conn := by
    intro t hPending c hOpen
    rcases hTask.pending t hPending with hOld | hWatched
    · exact h.own t hOld c hOpen
    · have hReg := h.kernel.watched_open _ _ hWatched
      rw [hOpen, Option.some.injEq] at hReg
      exact hReg
  intro t hPending c hOpen
  cases hKernel with
  | same hTable _ _ _ => exact hBefore t hPending c (hTable ▸ hOpen)
  | accept cfd hAction hFree hTable _ _ _ =>
      subst hAction
      -- a number reported in this step is open, so `accept` does not return it
      have hNe : t.cfd ≠ cfd := by
        rcases hTask.pending t hPending with hOld | hWatched
        · exact hMet t hOld
        · intro hEq
          have hReg := h.kernel.watched_open _ _ hWatched
          rw [hEq, hFree] at hReg
          simp at hReg
      rw [hTable, Function.update_of_ne hNe] at hOpen
      exact hBefore t hPending c hOpen
  | close cfd _ _ hTable _ _ _ _ =>
      by_cases hEq : t.cfd = cfd
      · rw [hTable, hEq, Function.update_self] at hOpen
        simp at hOpen
      · rw [hTable, Function.update_of_ne hEq] at hOpen
        exact hBefore t hPending c hOpen
  | kill _ _ hTable => simp [hTable] at hOpen

theorem ownInv_step {s s' : State n} {a : Action n} (h : OwnInv s) (hMet : FdNotCarried s a)
    (hStep : step s a = some s') : OwnInv s' := by
  obtain ⟨hKernel, hTask⟩ := step_moves hStep
  refine ⟨kernelInv_step h.kernel hKernel, own_step h hMet hKernel hTask, ?_⟩
  intro op hMem c hTarget
  rcases hTask.ops with hSame | ⟨kind, t, hPending, hOps⟩
  · exact h.acted op (hSame ▸ hMem) c hTarget
  · rw [hOps, List.mem_append, List.mem_singleton] at hMem
    rcases hMem with hOld | rfl
    · exact h.acted op hOld c hTarget
    · exact h.own t hPending c hTarget

theorem ownInv_reach {s : State n} (h : Reach step FdNotCarried (init n) s) : OwnInv s :=
  h.invariant ownInv_init fun _ _ _ hInv hMet hStep => ownInv_step hInv hMet hStep

/-- Tasks are made for connections that exist. -/
theorem pending_lt_accepted {s : State n} (h : Reachable step (init n) s) :
    ∀ t ∈ pendingTasks s, t.conn < s.accepted := by
  refine (h.invariant (P := fun s => KernelInv s ∧ ∀ t ∈ pendingTasks s, t.conn < s.accepted)
    ⟨kernelInv_init, ?_⟩ ?_).2
  · intro t hPending
    rw [mem_pendingTasks] at hPending
    simp [init, WorkerPc.task] at hPending
  · intro s a s' hInv _ hStep
    obtain ⟨hKernel, hTask⟩ := step_moves hStep
    refine ⟨kernelInv_step hInv.1 hKernel, fun t hPending => ?_⟩
    have hBefore : t.conn < s.accepted := by
      rcases hTask.pending t hPending with hOld | hWatched
      · exact hInv.2 t hOld
      · exact hInv.1.lt_accepted _ _ (hInv.1.watched_open _ _ hWatched)
    cases hKernel with
    | same _ hAccepted _ _ => exact hAccepted ▸ hBefore
    | accept _ _ _ _ hAccepted _ _ => exact hAccepted ▸ Nat.lt_succ_of_lt hBefore
    | close _ _ _ _ hAccepted _ _ _ => exact hAccepted ▸ hBefore
    | kill _ _ _ hAccepted => exact hAccepted ▸ hBefore

/-- A running task can always make its next call, on whatever its number
stands for. -/
theorem running_task_calls {s : State n} {w : Fin n} {t : Task}
    (hRuns : (s.worker w).task = some t) :
    ∃ a s' kind, step s a = some s' ∧
      s'.ops = s.ops ++ [⟨kind, t, s.fdTable t.cfd⟩] := by
  cases hPc : s.worker w with
  | idle => simp [hPc, WorkerPc.task] at hRuns
  | read task =>
      obtain rfl : task = t := by simpa [hPc, WorkerPc.task] using hRuns
      refine ⟨.workerRead w .error, (s.logOp .read task).setWorker w (.close task), .read, ?_, rfl⟩
      cases hOpen : s.fdTable task.cfd with
      | none => simp [step, hPc, workerRead, hOpen]
      | some c => simp [step, hPc, workerRead, hOpen, ReadAnswer.Possible]
  | write task buf =>
      obtain rfl : task = t := by simpa [hPc, WorkerPc.task] using hRuns
      cases hOpen : s.fdTable task.cfd with
      | none =>
          refine ⟨.workerWrite w 0, (s.logOp .write task).setWorker w (.read task), .write,
            by simp [step, hPc, workerWrite, hOpen], ?_⟩
          simp [State.setWorker, State.logOp, hOpen]
      | some c =>
          refine ⟨.workerWrite w 0, _, .write, by simp [step, hPc, workerWrite, hOpen]; rfl, ?_⟩
          simp [State.setWorker, State.setConn, State.logOp, hOpen]
  | close task =>
      obtain rfl : task = t := by simpa [hPc, WorkerPc.task] using hRuns
      refine ⟨.workerClose w, _, .close, by simp [step, hPc]; rfl, ?_⟩
      exact (closeFd_frame (s.logOp .close task) task.cfd).2.2.2.2
  | ctlDel task =>
      obtain rfl : task = t := by simpa [hPc, WorkerPc.task] using hRuns
      refine ⟨.workerCtlDel w, _, .ctlDel, by simp [step, hPc]; rfl, ?_⟩
      exact (ctlDel_frame (s.logOp .ctlDel task) task.cfd).2.2.2.2.2.2

/-- **A number handed out under a running task misdirects it**: the next call
of the task can act on the connection just accepted, which is not its own. -/
theorem carried_fd_misdirects {s s' : State n} {cfd : Fd} {w : Fin n} {t : Task}
    (hReach : Reachable step (init n) s) (hRuns : (s.worker w).task = some t)
    (hCarried : t.cfd = cfd) (hAccept : step s (.accept cfd) = some s') :
    ∃ a s'' kind, step s' a = some s'' ∧ s''.ops = s'.ops ++ [⟨kind, t, some s.accepted⟩] ∧
      ¬ ActsOnOwn s'' := by
  have hLt : t.conn < s.accepted :=
    pending_lt_accepted hReach t (mem_pendingTasks.mpr (.inr (.inl ⟨w, hRuns⟩)))
  have hFrame : s'.worker = s.worker ∧ s'.fdTable cfd = some s.accepted := by
    cases step_branch hAccept with
    | accept => exact ⟨rfl, Function.update_self ..⟩
  obtain ⟨a, s'', kind, hStep, hOps⟩ : ∃ a s'' kind, step s' a = some s'' ∧
      s''.ops = s'.ops ++ [⟨kind, t, s'.fdTable t.cfd⟩] :=
    running_task_calls (by rw [hFrame.1]; exact hRuns)
  rw [hCarried, hFrame.2] at hOps
  refine ⟨a, s'', kind, hStep, hOps, fun hOwn => ?_⟩
  -- the connection just accepted is younger than the task
  have hTarget : s.accepted = t.conn :=
    hOwn ⟨kind, t, some s.accepted⟩ (by simp [hOps]) s.accepted rfl
  rw [hTarget] at hLt
  exact Nat.lt_irrefl _ hLt

/-- **A task acts on its own connection** in every run that hands out no number
a pending task carries, and a number handed out under a running task leads to
a call on a connection of another client.  No connection is closed twice, in
any run. -/
theorem tasks_act_on_own_connection_exactly (n : Nat) :
    (∀ s : State n, Reach step FdNotCarried (init n) s → ActsOnOwn s ∧ s.closed.Nodup) ∧
      (∀ s : State n, Reachable step (init n) s → s.closed.Nodup) ∧
      ∀ (s s' : State n) (cfd : Fd) (w : Fin n) (t : Task),
        Reachable step (init n) s → (s.worker w).task = some t → t.cfd = cfd →
        step s (.accept cfd) = some s' →
        ∃ a s'' kind, step s' a = some s'' ∧
          s''.ops = s'.ops ++ [⟨kind, t, some s.accepted⟩] ∧ ¬ ActsOnOwn s'' := by
  refine ⟨fun s hReach => ?_, fun s hReach => (kernelInv_reach hReach).closed_nodup, ?_⟩
  · have hInv := ownInv_reach hReach
    exact ⟨hInv.acted, hInv.kernel.closed_nodup⟩
  · intro s s' cfd w t hReach hRuns hCarried hAccept
    exact carried_fd_misdirects hReach hRuns hCarried hAccept

/-- The first client is served and gone before its number is used again. -/
def reuseTrace (w : Fin n) : List (Action n) :=
  [.epollWait [.listen], .accept 5, .setNonblocking true, .ctlAdd, .peerSend 0 [104, 105],
    .epollWait [.client 0], .addTask, .workerTake w, .workerRead w (.data 2), .workerWrite w 2,
    .workerRead w .again, .workerClose w, .workerCtlDel w,
    .epollWait [.listen], .accept 5, .setNonblocking true, .ctlAdd, .peerClose 1,
    .epollWait [.client 1], .addTask, .workerTake w, .workerRead w .eof, .workerClose w,
    .workerCtlDel w]

theorem tasks_act_on_own_connection_exactly_reuseTrace :
    ∃ s : State 1, s.closed = [0, 1] ∧ s.ops.length = 8 ∧ ActsOnOwn s := by
  let final := run (guarded step FdNotCarried) (init 1) (reuseTrace 0)
  have hFinal : final = some (final.get (by decide)) := by simp
  have hReach : Reach step FdNotCarried (init 1) (final.get (by decide)) :=
    reach_of_run_guarded hFinal
  exact ⟨_, by decide, by decide, ((tasks_act_on_own_connection_exactly 1).1 _ hReach).1⟩

/-- The worker closes number 5, the next client gets it, and the worker
deregisters it. -/
def muteTrace (w : Fin n) : List (Action n) :=
  [.epollWait [.listen], .accept 5, .setNonblocking true, .ctlAdd, .peerSend 0 [104, 105],
    .epollWait [.client 0], .addTask, .workerTake w, .workerRead w (.data 2), .workerWrite w 2,
    .workerRead w .again, .workerClose w,
    .epollWait [.listen], .accept 5, .setNonblocking true, .ctlAdd, .workerCtlDel w]

instance (s : State n) : Decidable (ActsOnOwn s) :=
  inferInstanceAs (Decidable (∀ op ∈ s.ops, ∀ c ∈ op.target, c = op.task.conn))

/-- The second client is never heard again. -/
theorem task_deregisters_other_client :
    ∃ s : State 1, Reachable step (init 1) s ∧ ¬ ActsOnOwn s ∧
      s.fdTable 5 = some 1 ∧ (s.conn 1).watched = none := by
  have hRun : (run step (init 1) (muteTrace 0)).map (fun s =>
      decide (¬ ActsOnOwn s ∧ s.fdTable 5 = some 1 ∧ (s.conn 1).watched = none)) = some true := by
    decide
  obtain ⟨s, hReach, hTest⟩ := exists_reachable_of_run hRun
  exact ⟨s, hReach, of_decide_eq_true hTest⟩

end EchoServer
end LinuxCppLearn
