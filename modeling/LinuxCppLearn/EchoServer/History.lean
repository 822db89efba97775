import LinuxCppLearn.EchoServer.Isolation

/-!
# What happened on each connection

Two laws about connections need more of the past than the state holds: which
chunks have been read and not echoed yet, in the order of the reads, and
whether a read has reported the end.  `History` keeps both beside the state;
the server never sees it.

* `Traced`, `step` — the server with its history; `reachable_state_iff` says
  that the same states are reached.
* `ReadMove`, `step_readMove` — what a step does to the bytes of the
  connections and to the chunks in the workers' hands.
* `Closes` — the close of a connection, by a worker or by the main thread.
-/

namespace LinuxCppLearn
namespace EchoServer

open StepSystem

variable {n : Nat}

structure History (n : Nat) where
  /-- the chunks read from a connection and not written yet, oldest first -/
  unwritten : ConnId → List (Fin n × List UInt8)
  /-- a read on the connection has returned 0 or an error other than `EAGAIN` -/
  ended : ConnId → Bool
  /-- the connection has been added to the epoll instance -/
  registered : ConnId → Bool

def History.empty (n : Nat) : History n where
  unwritten _ := []
  ended _ := false
  registered _ := false

/-- The connection a worker's next `read` acts on. -/
def readTarget (s : State n) (w : Fin n) : Option ConnId :=
  match s.worker w with
  | .read task => s.fdTable task.cfd
  | _ => none

/-- The connection the main thread's `EPOLL_CTL_ADD` acts on. -/
def registerTarget (s : State n) : Option ConnId :=
  match s.main with
  | .register cfd => s.fdTable cfd
  | _ => none

/-- Write an action down, in the state it is taken from. -/
def History.note (s : State n) (h : History n) : Action n → History n
  | .workerRead w answer =>
      match readTarget s w with
      | none => h
      | some c =>
          match answer with
          | .data len =>
              let chunk := (s.conn c).inbox.take len
              { h with
                unwritten := Function.update h.unwritten c (h.unwritten c ++ [(w, chunk)]) }
          | .again => h
          | .eof | .error => { h with ended := Function.update h.ended c true }
  | .workerWrite w _ =>
      { h with unwritten := fun c => (h.unwritten c).eraseP fun chunk => chunk.1 = w }
  | .ctlAdd =>
      match registerTarget s with
      | none => h
      | some c => { h with registered := Function.update h.registered c true }
  | _ => h

/-- The server and what happened so far. -/
abbrev Traced (n : Nat) := State n × History n

def Traced.init (n : Nat) : Traced n :=
  (EchoServer.init n, History.empty n)

def Traced.step : Traced n → Action n → Option (Traced n) :=
  withHistory EchoServer.step History.note

theorem reachable_state_iff {s : State n} :
    Reachable step (init n) s ↔ ∃ h, Reachable Traced.step (Traced.init n) (s, h) :=
  reachable_withHistory

/-- The bytes of every connection are left alone. -/
def SameLogs (s s' : State n) : Prop :=
  ∀ c, (s'.conn c).readLog = (s.conn c).readLog ∧ (s'.conn c).sentLog = (s.conn c).sentLog

/-- The number an action closes. -/
def closedFd (s : State n) : Action n → Option Fd
  | .workerClose w =>
      match s.worker w with
      | .close task => some task.cfd
      | _ => none
  | .mainClose =>
      match s.main with
      | .abandon cfd => some cfd
      | _ => none
  | _ => none

/-- The action closes the connection. -/
def Closes (s : State n) (a : Action n) (c : ConnId) : Prop :=
  ∃ cfd, closedFd s a = some cfd ∧ s.fdTable cfd = some c

/-- What a step does to the bytes of the connections, and to the workers that
have read and not written. -/
inductive ReadMove (s : State n) : Action n → State n → Prop
  | read (w : Fin n) (task : Task) (c : ConnId) (len : Nat) (s' : State n)
      (hPc : s.worker w = .read task) (hOpen : s.fdTable task.cfd = some c)
      (hSome : (s.conn c).inbox.take len ≠ [])
      (hTable : s'.fdTable = s.fdTable)
      (hWorker : s'.worker =
        Function.update s.worker w (.write task ((s.conn c).inbox.take len)))
      (hSelf : (s'.conn c).readLog = (s.conn c).readLog ++ (s.conn c).inbox.take len ∧
        (s'.conn c).sentLog = (s.conn c).sentLog)
      (hConn : ∀ d ≠ c, s'.conn d = s.conn d) :
      ReadMove s (.workerRead w (.data len)) s'
  | write (w : Fin n) (task : Task) (buf : List UInt8) (len : Nat) (s' : State n)
      (hPc : s.worker w = .write task buf)
      (hTable : s'.fdTable = s.fdTable)
      (hWorker : s'.worker = Function.update s.worker w (.read task))
      (hLogs : ∀ c, (s'.conn c).readLog = (s.conn c).readLog ∧
        (s'.conn c).sentLog =
          if s.fdTable task.cfd = some c then (s.conn c).sentLog ++ buf.take len
          else (s.conn c).sentLog) :
      ReadMove s (.workerWrite w len) s'
  /-- the process ends -/
  | kill (w : Fin n) (s' : State n)
      (hLogs : SameLogs s s') :
      ReadMove s (.sigpipe w) s'
  | other (a : Action n) (s' : State n)
      (hRead : ∀ w len, a = .workerRead w (.data len) → readTarget s w = none)
      (hWrite : ∀ w len, a ≠ .workerWrite w len)
      (hLogs : SameLogs s s')
      (hWriters : ∀ w task buf, s'.worker w = .write task buf ↔ s.worker w = .write task buf)
      (hTable : ∀ fd c, s.fdTable fd = some c → s'.fdTable fd = some c ∨ closedFd s a = some fd) :
      ReadMove s a s'

/-! ## The moves -/

theorem SameLogs.refl (s : State n) : SameLogs s s :=
  fun _ => ⟨rfl, rfl⟩

/-- A connection changes, but not its bytes. -/
theorem SameLogs.setConn {s s' : State n} {c : ConnId} {conn : Conn}
    (hConn : s'.conn = Function.update s.conn c conn)
    (hRead : conn.readLog = (s.conn c).readLog) (hSent : conn.sentLog = (s.conn c).sentLog) :
    SameLogs s s' := by
  intro d
  rw [hConn]
  by_cases hEq : d = c
  · subst hEq
    rw [Function.update_self]
    exact ⟨hRead, hSent⟩
  · rw [Function.update_of_ne hEq]
    exact ⟨rfl, rfl⟩

theorem closeFd_sameLogs (s : State n) (cfd : Fd) : SameLogs s (s.closeFd cfd) := by
  unfold State.closeFd
  cases s.fdTable cfd with
  | none => exact .refl s
  | some c => exact .setConn rfl rfl rfl

theorem ctlDel_sameLogs (s : State n) (cfd : Fd) : SameLogs s (s.ctlDel cfd) := by
  unfold State.ctlDel
  cases s.fdTable cfd with
  | none => exact .refl s
  | some c => exact .setConn rfl rfl rfl

theorem ctlAdd_sameLogs (s : State n) (cfd : Fd) : SameLogs s (s.ctlAdd cfd) := by
  unfold State.ctlAdd
  cases s.fdTable cfd with
  | none => exact .refl s
  | some c => exact .setConn rfl rfl rfl

/-- `close` frees its own number only. -/
theorem closeFd_fdTable (s : State n) (cfd : Fd) {fd : Fd} {c : ConnId}
    (hOpen : s.fdTable fd = some c) :
    (s.closeFd cfd).fdTable fd = some c ∨ cfd = fd := by
  unfold State.closeFd
  cases hTable : s.fdTable cfd with
  | none => exact .inl hOpen
  | some d =>
      by_cases hEq : fd = cfd
      · exact .inr hEq.symm
      · left
        show Function.update s.fdTable cfd none fd = some c
        rw [Function.update_of_ne hEq]
        exact hOpen

/-- A worker moves between places other than its `write`. -/
theorem writers_update {s s' : State n} {w : Fin n} {pc : WorkerPc}
    (hWorker : s'.worker = Function.update s.worker w pc)
    (hOld : ∀ task buf, s.worker w ≠ .write task buf) (hNew : ∀ task buf, pc ≠ .write task buf) :
    ∀ v task buf, s'.worker v = .write task buf ↔ s.worker v = .write task buf := by
  intro v task buf
  rw [hWorker]
  by_cases hEq : v = w
  · subst hEq
    rw [Function.update_self]
    exact ⟨fun h => absurd h (hNew task buf), fun h => absurd h (hOld task buf)⟩
  · rw [Function.update_of_ne hEq]

/-- Actions that touch no bytes, no worker and no open number. -/
theorem ReadMove.quiet {s s' : State n} {a : Action n}
    (hRead : ∀ w len, a ≠ .workerRead w (.data len)) (hWrite : ∀ w len, a ≠ .workerWrite w len)
    (hLogs : SameLogs s s') (hWorker : s'.worker = s.worker)
    (hTable : ∀ fd c, s.fdTable fd = some c → s'.fdTable fd = some c ∨ closedFd s a = some fd) :
    ReadMove s a s' := by
  refine .other a s' (fun w len hEq => absurd hEq (hRead w len)) hWrite hLogs ?_ hTable
  intro w task buf
  rw [hWorker]

/-- A close ends what the number stood for and leaves the bytes. -/
theorem closes_closed {s s' : State n} {a : Action n} {c : ConnId} (hCloses : Closes s a c)
    (hStep : EchoServer.step s a = some s') : c ∈ s'.closed ∧ SameLogs s s' := by
  obtain ⟨cfd, hFd, hOpen⟩ := hCloses
  cases step_branch hStep with
  | @workerClose w task hPc =>
      obtain rfl : task.cfd = cfd := by simpa [closedFd, hPc] using hFd
      refine ⟨?_, closeFd_sameLogs (s.logOp .close task) task.cfd⟩
      simp [State.closeFd, State.logOp, State.setWorker, hOpen]
  | @mainClose fd hMain =>
      obtain rfl : fd = cfd := by simpa [closedFd, hMain] using hFd
      refine ⟨?_, closeFd_sameLogs s fd⟩
      simp [State.closeFd, hOpen]
  | _ => simp [closedFd] at hFd

/-- `epoll_wait` leaves the bytes where they are. -/
theorem consumeEdges_sameLogs (s : State n) (batch : List Event) (ready : List Source) :
    SameLogs s { s with batch := batch, conn := consumeEdges s ready } := by
  intro c
  show (consumeEdges s ready c).readLog = _ ∧ (consumeEdges s ready c).sentLog = _
  unfold consumeEdges
  split
  · exact ⟨rfl, rfl⟩
  · exact ⟨rfl, rfl⟩

/-- **What a step does to the bytes**: every step is one of the moves. -/
theorem step_readMove {s s' : State n} {a : Action n} (h : EchoServer.step s a = some s') :
    ReadMove s a s' := by
  cases step_branch h with
  | peerSend | peerClose =>
      exact .quiet (by simp) (by simp) (.setConn rfl rfl rfl) rfl fun fd c hFd => .inl hFd
  | epollWait =>
      exact .quiet (by simp) (by simp) (consumeEdges_sameLogs s _ _) rfl fun fd c hFd => .inl hFd
  | @accept cfd rest _ _ hFree =>
      refine .quiet (by simp) (by simp) (.refl s) rfl fun fd c hFd => .inl ?_
      -- the number handed out was free
      have hNe : fd ≠ cfd := by
        rintro rfl
        rw [hFree.2.1] at hFd
        simp at hFd
      show Function.update s.fdTable cfd (some s.accepted) fd = some c
      rw [Function.update_of_ne hNe]
      exact hFd
  | acceptFails | setNonblocking | addTask | dropTask =>
      exact .quiet (by simp) (by simp) (.refl s) rfl fun fd c hFd => .inl hFd
  | @ctlAdd cfd =>
      refine .quiet (by simp) (by simp) (ctlAdd_sameLogs s cfd) (by simp) fun fd c hFd => .inl ?_
      simpa using hFd
  | @mainClose cfd hMain =>
      refine .quiet (by simp) (by simp) (closeFd_sameLogs s cfd) (by simp) fun fd c hFd => ?_
      rcases closeFd_fdTable s cfd hFd with hStill | rfl
      · exact .inl hStill
      · exact .inr (by simp [closedFd, hMain])
  | workerTake hPc =>
      exact .other _ _ (by simp) (by simp) (.refl s)
        (writers_update rfl (by simp [hPc]) (by simp)) fun fd c hFd => .inl hFd
  | @readData w task c len hPc hOpen hPossible =>
      have hSome : (s.conn c).inbox.take len ≠ [] := by
        intro hNil
        have hLength := congrArg List.length hNil
        obtain ⟨hPos, -, hLen⟩ := hPossible
        rw [List.length_take, List.length_nil] at hLength
        omega
      refine .read w task c len _ hPc hOpen hSome rfl rfl ?_ fun d hd => ?_
      · simp [State.setConn, State.setWorker]
      · simp [State.setConn, State.setWorker, State.logOp, hd]
  | @readEnds w task answer hPc hEnds =>
      refine .other _ _ (fun v len hEq => ?_) (by simp) (.refl s)
        (writers_update rfl (by simp [hPc]) (by simp)) fun fd c hFd => .inl hFd
      simp only [Action.workerRead.injEq] at hEq
      obtain ⟨rfl, rfl⟩ := hEq
      have hOpen : s.fdTable task.cfd = none := hEnds.resolve_right fun hNoData => hNoData.1 len rfl
      simp [readTarget, hPc, hOpen]
  | @write w task buf len c hPc hOpen =>
      refine .write w task buf len _ hPc rfl rfl fun d => ?_
      by_cases hEq : d = c
      · subst hEq
        simp [hOpen, State.setConn, State.setWorker, State.logOp]
      · simp [hOpen, State.setConn, State.setWorker, State.logOp, hEq, Ne.symm hEq]
  | @writeFails w task buf len hPc hClosed =>
      refine .write w task buf len _ hPc rfl rfl fun c => ⟨rfl, ?_⟩
      simp [hClosed, State.setWorker, State.logOp]
  | sigpipe =>
      exact .kill _ _ fun c => ⟨rfl, rfl⟩
  | @workerClose w task hPc =>
      refine .other _ _ (by simp) (by simp) (closeFd_sameLogs (s.logOp .close task) task.cfd)
        (writers_update (congrArg (Function.update · w _) (closeFd_frame _ _).2.2.2.1)
          (by simp [hPc]) (by simp)) fun fd c hFd => ?_
      rcases closeFd_fdTable (s.logOp .close task) task.cfd hFd with hStill | rfl
      · exact .inl hStill
      · exact .inr (by simp [closedFd, hPc])
  | @workerCtlDel w task hPc =>
      refine .other _ _ (by simp) (by simp) (ctlDel_sameLogs (s.logOp .ctlDel task) task.cfd)
        (writers_update (congrArg (Function.update · w _) (ctlDel_frame _ _).2.2.2.2.2.1)
          (by simp [hPc]) (by simp)) fun fd c hFd => .inl ?_
      rw [← hFd]
      exact congrFun (ctlDel_frame (s.logOp .ctlDel task) task.cfd).1 fd

end EchoServer
end LinuxCppLearn
