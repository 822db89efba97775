import LinuxCppLearn.EchoServer.Session

/-!
# Whether a reported event is served

Clients are registered edge-triggered: what `epoll_wait` reports once it does
not report again.  The result of `addTask` is dropped, so the event of a full
queue is gone; and `EPOLL_CTL_DEL` behind `close` may strike a client that has
got the number meanwhile, which then raises no event at all.

* `Attended` — a `working(cfd)` is queued, or runs and has its `close` in front
  of it.
* `Covered` — somebody comes to the connection whatever arrives on it.
* `KeepsServed` — the condition on one step: `addTask` is not refused, and
  `EPOLL_CTL_DEL` does not deregister, where nobody else comes.
* `every_event_served_exactly` — under it every event is served and nothing is
  left unread; a step that breaks it leaves a connection that at most one more
  message makes unread for ever.
-/

namespace LinuxCppLearn
namespace EchoServer

open StepSystem

variable {n : Nat}

/-! ## Who comes to a connection -/

/-- A run of `working(cfd)` that has not closed yet. -/
def WorkerPc.WillClose (cfd : Fd) : WorkerPc → Prop
  | .read task | .write task _ | .close task => task.cfd = cfd
  | .idle | .ctlDel _ => False

instance (cfd : Fd) (pc : WorkerPc) : Decidable (pc.WillClose cfd) := by
  cases pc <;> unfold WorkerPc.WillClose <;> infer_instance

/-- A `working(cfd)` is queued, or a worker runs one that has not closed yet. -/
def Attended (s : State n) (cfd : Fd) : Prop :=
  (∃ task ∈ s.tasks, task.cfd = cfd) ∨ ∃ w, (s.worker w).WillClose cfd

instance (s : State n) (cfd : Fd) : Decidable (Attended s cfd) :=
  inferInstanceAs (Decidable (_ ∨ _))

/-- The number an entry of `events[]` is about. -/
def Event.cfd : Event → Option Fd
  | .listen => none
  | .client cfd _ => some cfd

/-- An entry of `events[]` for the number is still to be served. -/
def Reported (s : State n) (cfd : Fd) : Prop :=
  ∃ e ∈ s.batch, e.cfd = some cfd

instance (s : State n) (cfd : Fd) : Decidable (Reported s cfd) :=
  inferInstanceAs (Decidable (∃ e ∈ s.batch, _))

/-- The connection is registered, and an event is due if there is something to
read. -/
def Listening (s : State n) (cfd : Fd) (c : ConnId) : Prop :=
  (s.conn c).watched = some cfd ∧ ((s.conn c).readable = true → (s.conn c).edge = true)

instance (s : State n) (cfd : Fd) (c : ConnId) : Decidable (Listening s cfd c) :=
  inferInstanceAs (Decidable (_ ∧ (_ → _)))

/-- Somebody comes to the connection, whatever arrives on it. -/
def Covered (s : State n) (cfd : Fd) (c : ConnId) : Prop :=
  Attended s cfd ∨ Reported s cfd ∨ s.main.cfd = some cfd ∨ Listening s cfd c

/-! ## The law -/

/-- No open connection with something to read is left without a queued or
running task, without an event that is due or in `events[]`, and out of the main
thread's hands. -/
def NothingStranded (s : State n) : Prop :=
  ∀ cfd c, s.fdTable cfd = some c → (s.conn c).readable = true →
    Attended s cfd ∨ Reported s cfd ∨ s.main.cfd = some cfd ∨ Due s c

/-- The entry of `events[]` that the step handles has a task, or its connection
is closed, or its event is due again. -/
def EventServed (s : State n) (a : Action n) (s' : State n) : Prop :=
  match a, s.batch with
  | .addTask, .client cfd c :: _ => Attended s' cfd ∨ c ∈ s'.closed ∨ Due s' c
  | _, _ => True

/-- `addTask` is refused, and `EPOLL_CTL_DEL` strikes an open number, only where
somebody comes to the connection all the same. -/
def KeepsServed (s : State n) : Action n → Prop
  | .addTask =>
      match s.batch with
      | .client cfd _ :: _ =>
          ThreadPool.echo.addTask false s.tasks.length = .accept ∨ Attended s cfd ∨
            ∀ c ∈ s.fdTable cfd, Listening s cfd c
      | _ => True
  | .workerCtlDel w =>
      match s.worker w with
      | .ctlDel task =>
          s.fdTable task.cfd = none ∨ Attended s task.cfd ∨ Reported s task.cfd ∨
            s.main.cfd = some task.cfd
      | _ => True
  | _ => True

instance (s : State n) (a : Action n) : Decidable (KeepsServed s a) := by
  induction a using Action.casesOn with
  | addTask =>
      unfold KeepsServed
      dsimp only
      split <;> infer_instance
  | workerCtlDel w =>
      unfold KeepsServed
      dsimp only
      split <;> infer_instance
  | _ => exact inferInstanceAs (Decidable True)

variable {s s' : State n} {a : Action n} {cfd : Fd} {c : ConnId}

/-! ## What a step does to those who come -/

/-- Nothing leaves the queue, and no worker moves. -/
theorem Attended.of_same (h : Attended s cfd) (hTasks : s.tasks ⊆ s'.tasks)
    (hWorker : s'.worker = s.worker) : Attended s' cfd := by
  rcases h with ⟨task, hMem, hCfd⟩ | hRuns
  · exact .inl ⟨task, hTasks hMem, hCfd⟩
  · exact .inr (hWorker ▸ hRuns)

/-- One worker moves, and its `close` stays in front of it. -/
theorem Attended.of_worker {w : Fin n} {p : WorkerPc} (h : Attended s cfd)
    (hTasks : s'.tasks = s.tasks) (hWorker : s'.worker = Function.update s.worker w p)
    (hPc : (s.worker w).WillClose cfd → p.WillClose cfd) : Attended s' cfd := by
  rcases h with ⟨task, hMem, hCfd⟩ | ⟨v, hRuns⟩
  · exact .inl ⟨task, hTasks ▸ hMem, hCfd⟩
  · refine .inr ⟨v, ?_⟩
    rw [hWorker]
    by_cases hEq : v = w
    · subst hEq
      rw [Function.update_self]
      exact hPc hRuns
    · rw [Function.update_of_ne hEq]
      exact hRuns

theorem closeFd_closed (s : State n) (cfd : Fd) : (s.closeFd cfd).fdTable cfd = none := by
  unfold State.closeFd
  cases hOpen : s.fdTable cfd with
  | none => simpa using hOpen
  | some c => simp

theorem closeFd_not_open (s : State n) (cfd : Fd) (c : ConnId) :
    (s.closeFd cfd).fdTable cfd ≠ some c := by
  rw [closeFd_closed]
  exact (Option.some_ne_none c).symm

/-- **Who comes to a number comes until it is closed.** -/
theorem attended_step (h : Attended s cfd) (hStep : step s a = some s') :
    Attended s' cfd ∨ s'.fdTable cfd = none := by
  cases step_branch hStep with
  | peerSend | peerClose | epollWait | accept | acceptFails | setNonblocking | dropTask =>
      exact .inl (h.of_same (List.Subset.refl _) rfl)
  | ctlAdd | mainClose => exact .inl (h.of_same (by simp) (by simp))
  | addTask => exact .inl (h.of_same (List.subset_append_left _ _) rfl)
  | @workerTake w task rest hPc hTasks =>
      left
      -- the task at the head of the queue is in the worker's hands now
      rcases h with ⟨t, hMem, hCfd⟩ | ⟨v, hRuns⟩
      · rw [hTasks, List.mem_cons] at hMem
        rcases hMem with rfl | hMem
        · exact .inr ⟨w, by simpa [State.setWorker, WorkerPc.WillClose] using hCfd⟩
        · exact .inl ⟨t, hMem, hCfd⟩
      · refine .inr ⟨v, ?_⟩
        have hNe : v ≠ w := by
          rintro rfl
          simp [hPc, WorkerPc.WillClose] at hRuns
        simpa [State.setWorker, hNe] using hRuns
  | readData hPc | readEnds hPc | write hPc | writeFails hPc =>
      exact .inl (h.of_worker rfl rfl (by simp [hPc, WorkerPc.WillClose]))
  | sigpipe => exact .inr rfl
  | @workerClose w task hPc =>
      by_cases hSelf : task.cfd = cfd
      · right
        subst hSelf
        exact closeFd_closed _ _
      · left
        obtain ⟨-, hTasks, -, hWorker, -⟩ := closeFd_frame (s.logOp .close task) task.cfd
        refine h.of_worker hTasks (congrArg (Function.update · w _) hWorker) fun hRuns => ?_
        exact absurd (by simpa [hPc, WorkerPc.WillClose] using hRuns) hSelf
  | @workerCtlDel w task hPc =>
      obtain ⟨-, -, -, hTasks, -, hWorker, -⟩ := ctlDel_frame (s.logOp .ctlDel task) task.cfd
      refine .inl (h.of_worker hTasks (congrArg (Function.update · w _) hWorker) fun hRuns => ?_)
      simp [hPc, WorkerPc.WillClose] at hRuns

theorem attended_open_step (h : Attended s cfd) (hStep : step s a = some s')
    (hOpen' : s'.fdTable cfd = some c) : Attended s' cfd := by
  rcases attended_step h hStep with hStill | hClosed
  · exact hStill
  · rw [hClosed] at hOpen'
    simp at hOpen'

/-- An entry of `events[]` for a number that stays open stays there until the
main thread handles it. -/
theorem reported_step (h : Reported s cfd) (hStep : step s a = some s')
    (hOpen' : s'.fdTable cfd = some c) :
    Reported s' cfd ∨ a = .addTask ∧ ∃ e rest, s.batch = e :: rest ∧ e.cfd = some cfd := by
  obtain ⟨e, hMem, hCfd⟩ := h
  have hKeep : s'.batch = s.batch → Reported s' cfd := fun hSame => ⟨e, hSame ▸ hMem, hCfd⟩
  cases step_branch hStep with
  | peerSend | peerClose | setNonblocking | workerTake | readData | readEnds | write
  | writeFails => exact .inl (hKeep rfl)
  | ctlAdd | mainClose => exact .inl (hKeep (by simp))
  | workerClose => exact .inl (hKeep (closeFd_frame _ _).2.2.1)
  | workerCtlDel => exact .inl (hKeep (ctlDel_frame _ _).2.2.2.2.1)
  | sigpipe => simp [State.kill] at hOpen'
  | epollWait _ hBatch =>
      rw [hBatch] at hMem
      simp at hMem
  | accept hBatch | acceptFails hBatch =>
      rw [hBatch, List.mem_cons] at hMem
      rcases hMem with rfl | hMem
      · simp [Event.cfd] at hCfd
      · exact .inl ⟨e, hMem, hCfd⟩
  | addTask hBatch | dropTask hBatch =>
      rw [hBatch, List.mem_cons] at hMem
      rcases hMem with rfl | hMem
      · exact .inr ⟨rfl, _, _, hBatch, hCfd⟩
      · exact .inl ⟨e, hMem, hCfd⟩

/-- The main thread goes on with the number it works on until the connection is
registered or closed. -/
theorem main_step (h : s.main.cfd = some cfd) (hStep : step s a = some s')
    (hOpen : s'.fdTable cfd = some c) : s'.main.cfd = some cfd ∨ Listening s' cfd c := by
  cases step_branch hStep with
  | epollWait hLoop | accept _ hLoop | acceptFails _ hLoop | addTask _ hLoop
  | dropTask _ hLoop => simp [hLoop, MainPc.cfd] at h
  | peerSend | peerClose | workerTake | readData | readEnds | write | writeFails => exact .inl h
  | workerClose => exact .inl (by rw [← h]; exact congrArg MainPc.cfd (closeFd_main _ _))
  | workerCtlDel => exact .inl (by rw [← h]; exact congrArg MainPc.cfd (ctlDel_main _ _))
  | sigpipe => simp [State.kill] at hOpen
  | @setNonblocking ok fd hMain =>
      rw [hMain] at h
      left
      cases ok <;> exact h
  | @ctlAdd fd hMain =>
      obtain rfl : fd = cfd := by simpa [hMain, MainPc.cfd] using h
      have hOld : s.fdTable fd = some c := by simpa using hOpen
      right
      -- an edge is raised at once if there is something to read
      constructor <;> simp [State.ctlAdd, hOld, State.setConn, Conn.readable]
  | @mainClose fd hMain =>
      obtain rfl : fd = cfd := by simpa [hMain, MainPc.cfd] using h
      exact absurd hOpen (closeFd_not_open s fd c)

theorem Listening.congr (h : Listening s cfd c) (hConn : s'.conn c = s.conn c) :
    Listening s' cfd c := by
  unfold Listening at h ⊢
  rw [hConn]
  exact h

/-- A change to one connection leaves the others listening. -/
theorem Listening.setConn {d : ConnId} {conn : Conn} (h : Listening s cfd c)
    (hConn : s'.conn = Function.update s.conn d conn)
    (hSelf : c = d → conn.watched = some cfd ∧ (conn.readable = true → conn.edge = true)) :
    Listening s' cfd c := by
  by_cases hEq : c = d
  · subst hEq
    unfold Listening
    rw [hConn, Function.update_self]
    exact hSelf rfl
  · apply h.congr
    rw [hConn, Function.update_of_ne hEq]

theorem closeFd_conn (hNot : s.fdTable cfd ≠ some c) : (s.closeFd cfd).conn c = s.conn c := by
  unfold State.closeFd
  cases hOpen : s.fdTable cfd with
  | none => rfl
  | some d =>
      have hNe : c ≠ d := by
        rintro rfl
        exact hNot hOpen
      simp [State.setConn, hNe]

theorem ctlDel_conn (hNot : s.fdTable cfd ≠ some c) : (s.ctlDel cfd).conn c = s.conn c := by
  unfold State.ctlDel
  cases hOpen : s.fdTable cfd with
  | none => rfl
  | some d =>
      have hNe : c ≠ d := by
        rintro rfl
        exact hNot hOpen
      simp [State.setConn, hNe]

theorem ctlAdd_conn (hNot : s.fdTable cfd ≠ some c) : (s.ctlAdd cfd).conn c = s.conn c := by
  unfold State.ctlAdd
  cases hOpen : s.fdTable cfd with
  | none => rfl
  | some d =>
      have hNe : c ≠ d := by
        rintro rfl
        exact hNot hOpen
      simp [State.setConn, hNe]

/-- A registered connection raises its events until it is reported, read or
deregistered. -/
theorem listening_step (hKernel : KernelInv s) (h : Listening s cfd c)
    (hStep : step s a = some s') (hOpen' : s'.fdTable cfd = some c) :
    Listening s' cfd c ∨ Reported s' cfd ∨ Attended s' cfd ∨
      ∃ w task, a = .workerCtlDel w ∧ s.worker w = .ctlDel task ∧ task.cfd = cfd := by
  have hOpen : s.fdTable cfd = some c := hKernel.watched_open c cfd h.1
  have hOther : ∀ fd, fd ≠ cfd → s.fdTable fd ≠ some c := fun fd hNe hSame =>
    hNe (hKernel.one_fd fd cfd c hSame hOpen)
  cases step_branch hStep with
  | accept | acceptFails | setNonblocking | addTask | dropTask | workerTake | readEnds
  | writeFails => exact .inl (h.congr rfl)
  | peerSend | peerClose =>
      left
      refine h.setConn rfl ?_
      rintro rfl
      exact ⟨h.1, fun _ => by simp [h.1]⟩
  | sigpipe => simp [State.kill] at hOpen'
  | @epollWait ready hLoop hBatch hNodup hDue =>
      by_cases hMem : .client c ∈ ready
      · right; left
        exact ⟨.client cfd c,
          List.mem_filterMap.mpr ⟨.client c, hMem, by simp [Source.event, h.1]⟩, rfl⟩
      · left
        apply h.congr
        show consumeEdges s ready c = s.conn c
        rw [consumeEdges, if_neg hMem]
  | @ctlAdd fd hMain =>
      left
      by_cases hEq : fd = cfd
      · subst hEq
        constructor <;> simp [State.ctlAdd, hOpen, State.setConn, Conn.readable]
      · exact h.congr (ctlAdd_conn (hOther fd hEq))
  | @mainClose fd hMain =>
      have hNe : fd ≠ cfd := by
        rintro rfl
        exact closeFd_not_open s fd c hOpen'
      exact .inl (h.congr (closeFd_conn (hOther fd hNe)))
  | @readData w task d len hPc hTask hPossible =>
      by_cases hEq : task.cfd = cfd
      · exact .inr (.inr (.inl (.inr ⟨w, by simpa [State.setWorker, WorkerPc.WillClose]⟩)))
      · left
        refine h.setConn rfl ?_
        rintro rfl
        exact absurd hTask (hOther task.cfd hEq)
  | @write w task buf len d hPc hTask hLen =>
      left
      refine h.setConn rfl ?_
      rintro rfl
      exact h
  | @workerClose w task hPc =>
      have hNe : task.cfd ≠ cfd := by
        rintro rfl
        exact closeFd_not_open (s.logOp .close task) task.cfd c hOpen'
      exact .inl (h.congr (closeFd_conn (s := s.logOp .close task) (hOther task.cfd hNe)))
  | @workerCtlDel w task hPc =>
      by_cases hEq : task.cfd = cfd
      · exact .inr (.inr (.inr ⟨w, task, rfl, hPc, hEq⟩))
      · exact .inl (h.congr (ctlDel_conn (s := s.logOp .ctlDel task) (hOther task.cfd hEq)))

/-! ## Under the condition everybody stays covered -/

/-- The handled entry of `events[]` is queued, or somebody comes all the same. -/
theorem addTask_covers (hMet : KeepsServed s .addTask) {e : Event} {rest : List Event}
    (hBatch : s.batch = e :: rest) (hCfd : e.cfd = some cfd) (hStep : step s .addTask = some s')
    (hOpen' : s'.fdTable cfd = some c) : Covered s' cfd c := by
  cases step_branch hStep with
  | @addTask fd d _ hHead =>
      obtain ⟨rfl, -⟩ := List.cons.inj (hBatch.symm.trans hHead)
      obtain rfl : fd = cfd := by simpa [Event.cfd] using hCfd
      exact .inl (.inl ⟨⟨fd, d⟩, by simp, rfl⟩)
  | @dropTask fd d _ hHead _ hRefuses =>
      obtain ⟨rfl, -⟩ := List.cons.inj (hBatch.symm.trans hHead)
      obtain rfl : fd = cfd := by simpa [Event.cfd] using hCfd
      simp only [KeepsServed, hHead] at hMet
      rcases hMet with hAccepts | hAttended | hListening
      · exact absurd hAccepts hRefuses
      · exact .inl (attended_open_step hAttended hStep hOpen')
      · exact .inr (.inr (.inr ((hListening c hOpen').congr rfl)))

/-- The deregistration of an open number leaves it to others. -/
theorem ctlDel_covers {w : Fin n} (hMet : KeepsServed s (.workerCtlDel w)) {task : Task}
    (hPc : s.worker w = .ctlDel task) (hStep : step s (.workerCtlDel w) = some s')
    (hOpen' : s'.fdTable task.cfd = some c) : Covered s' task.cfd c := by
  have hOpen : s.fdTable task.cfd = some c := by
    cases step_branch hStep with
    | @workerCtlDel _ task' hPc' =>
        have hSame := (ctlDel_frame (s.logOp .ctlDel task') task'.cfd).1
        exact (congrFun hSame task.cfd).symm.trans hOpen'
  simp only [KeepsServed, hPc] at hMet
  rcases hMet with hClosed | hAttended | hReported | hMain
  · rw [hClosed] at hOpen
    simp at hOpen
  · exact .inl (attended_open_step hAttended hStep hOpen')
  · rcases reported_step hReported hStep hOpen' with hStill | ⟨hAdd, -⟩
    · exact .inr (.inl hStill)
    · simp at hAdd
  · exact (main_step hMain hStep hOpen').elim (.inr ∘ .inr ∘ .inl) (.inr ∘ .inr ∘ .inr)

/-- **One step keeps every open connection covered.** -/
theorem covered_step (hKernel : KernelInv s)
    (h : ∀ cfd c, s.fdTable cfd = some c → Covered s cfd c) (hMet : KeepsServed s a)
    (hStep : step s a = some s') : ∀ cfd c, s'.fdTable cfd = some c → Covered s' cfd c := by
  intro cfd c hOpen'
  rcases (step_moves hStep).1.open_cases hOpen' with hOpen | hNew
  · rcases h cfd c hOpen with hAttended | hReported | hMain | hListening
    · exact .inl (attended_open_step hAttended hStep hOpen')
    · rcases reported_step hReported hStep hOpen' with hStill | ⟨rfl, e, rest, hBatch, hCfd⟩
      · exact .inr (.inl hStill)
      · exact addTask_covers hMet hBatch hCfd hStep hOpen'
    · exact (main_step hMain hStep hOpen').elim (.inr ∘ .inr ∘ .inl) (.inr ∘ .inr ∘ .inr)
    · rcases listening_step hKernel hListening hStep hOpen' with
        hStill | hReported | hAttended | ⟨w, task, rfl, hPc, rfl⟩
      · exact .inr (.inr (.inr hStill))
      · exact .inr (.inl hReported)
      · exact .inl hAttended
      · exact ctlDel_covers hMet hPc hStep hOpen'
  · obtain ⟨rfl, -⟩ := hNew
    cases step_branch hStep with
    | accept => exact .inr (.inr (.inl rfl))

theorem covered_reach (h : Reach step KeepsServed (init n) s) :
    ∀ cfd c, s.fdTable cfd = some c → Covered s cfd c := by
  refine (h.invariant (P := fun s => KernelInv s ∧ ∀ cfd c, s.fdTable cfd = some c →
    Covered s cfd c) ⟨kernelInv_init, fun cfd c hOpen => by simp [init] at hOpen⟩ ?_).2
  rintro s a s' ⟨hKernel, hCovered⟩ hMet hStep
  exact ⟨kernelInv_step hKernel (step_moves hStep).1, covered_step hKernel hCovered hMet hStep⟩

/-- Where everybody is covered, nothing is stranded. -/
theorem nothingStranded_of_covered (h : ∀ cfd c, s.fdTable cfd = some c → Covered s cfd c) :
    NothingStranded s := by
  intro cfd c hOpen hReadable
  rcases h cfd c hOpen with hAttended | hReported | hMain | ⟨hWatched, hEdge⟩
  · exact .inl hAttended
  · exact .inr (.inl hReported)
  · exact .inr (.inr (.inl hMain))
  · exact .inr (.inr (.inr ⟨hEdge hReadable, by simp [hWatched]⟩))

/-! ## Reported events, in any run -/

/-- What a step does to the events of a connection. -/
inductive ConnMove (s s' : State n) (c : ConnId) : Prop
  | keeps (hReadable : (s'.conn c).readable = (s.conn c).readable)
      (hEdge : (s'.conn c).edge = true →
        (s.conn c).edge = true ∧ (s'.conn c).watched = (s.conn c).watched)
  | raises (hReadable : (s.conn c).readable = true → (s'.conn c).readable = true)
      (hEdge : (s'.conn c).edge = true →
        (s'.conn c).readable = true ∧ (s'.conn c).watched ≠ none)
  | read (cfd : Fd) (hOpen : s.fdTable cfd = some c) (hRuns : Attended s' cfd)
      (hEdge : (s'.conn c).edge = (s.conn c).edge)
      (hWatched : (s'.conn c).watched = (s.conn c).watched)

theorem ConnMove.same (hConn : s'.conn c = s.conn c) : ConnMove s s' c :=
  .keeps (by rw [hConn]) fun hEdge => by
    rw [hConn] at hEdge ⊢
    exact ⟨hEdge, rfl⟩

/-- Only one connection changes. -/
theorem ConnMove.setConn {d : ConnId} {conn : Conn}
    (hConn : s'.conn = Function.update s.conn d conn)
    (hSelf : s'.conn d = conn → ConnMove s s' d) : ConnMove s s' c := by
  by_cases hEq : c = d
  · subst hEq
    exact hSelf (by rw [hConn, Function.update_self])
  · apply ConnMove.same
    rw [hConn, Function.update_of_ne hEq]

/-- `close` and `EPOLL_CTL_DEL` end the events of a connection. -/
theorem ConnMove.silenced {conn : ConnId → Conn} (hConn : s'.conn c = conn c)
    (h : conn c = s.conn c ∨ conn c = { s.conn c with watched := none, edge := false }) :
    ConnMove s s' c := by
  rcases h with hSame | hSilent
  · exact .same (hConn.trans hSame)
  · exact .keeps (by rw [hConn, hSilent]; rfl) fun hEdge => by
      rw [hConn, hSilent] at hEdge
      simp at hEdge

theorem closeFd_silences (s : State n) (cfd : Fd) (c : ConnId) :
    (s.closeFd cfd).conn c = s.conn c ∨
      (s.closeFd cfd).conn c = { s.conn c with watched := none, edge := false } := by
  by_cases hOpen : s.fdTable cfd = some c
  · right
    simp [State.closeFd, hOpen, State.setConn]
  · exact .inl (closeFd_conn hOpen)

theorem ctlDel_silences (s : State n) (cfd : Fd) (c : ConnId) :
    (s.ctlDel cfd).conn c = s.conn c ∨
      (s.ctlDel cfd).conn c = { s.conn c with watched := none, edge := false } := by
  by_cases hOpen : s.fdTable cfd = some c
  · right
    simp [State.ctlDel, hOpen, State.setConn]
  · exact .inl (ctlDel_conn hOpen)

theorem conn_step (hStep : step s a = some s') (c : ConnId) : ConnMove s s' c := by
  cases step_branch hStep with
  | accept | acceptFails | setNonblocking | addTask | dropTask | workerTake | readEnds
  | writeFails => exact .same rfl
  | peerSend _ hSome =>
      refine .setConn rfl fun hConn => .raises ?_ ?_ <;> rw [hConn] <;>
        simp [Conn.readable, hSome, Option.isSome_iff_ne_none]
  | peerClose =>
      refine .setConn rfl fun hConn => .raises ?_ ?_ <;> rw [hConn] <;>
        simp [Conn.readable, Option.isSome_iff_ne_none]
  | sigpipe => exact .silenced rfl (.inr rfl)
  | @epollWait ready =>
      by_cases hMem : .client c ∈ ready
      · have hConn : consumeEdges s ready c = { s.conn c with edge := false } := if_pos hMem
        refine .keeps ?_ fun hEdge => by simp [hConn] at hEdge
        show (consumeEdges s ready c).readable = (s.conn c).readable
        rw [hConn]
        rfl
      · exact .same (if_neg hMem)
  | @ctlAdd cfd hMain =>
      by_cases hOpen : s.fdTable cfd = some c
      · refine .raises ?_ ?_ <;>
          simp [State.ctlAdd, hOpen, State.setConn, Conn.readable]
      · exact .same (ctlAdd_conn hOpen)
  | @mainClose cfd => exact .silenced rfl (closeFd_silences s cfd c)
  | @readData w task d len hPc hOpen =>
      refine .setConn rfl fun hConn => .read task.cfd hOpen (.inr ⟨w, ?_⟩) ?_ ?_
      · simp [State.setWorker, WorkerPc.WillClose]
      · rw [hConn]
      · rw [hConn]
  | @write w task buf len d =>
      exact .setConn rfl fun hConn => .keeps (by rw [hConn]; rfl) fun hEdge => by
        rw [hConn] at hEdge ⊢
        exact ⟨hEdge, rfl⟩
  | @workerClose w task => exact .silenced rfl (closeFd_silences (s.logOp .close task) task.cfd c)
  | @workerCtlDel w task =>
      exact .silenced rfl (ctlDel_silences (s.logOp .ctlDel task) task.cfd c)

/-- What a step does to `events[]`. -/
theorem batch_step (hStep : step s a = some s') :
    s'.batch.Sublist s.batch ∨ ∃ ready : List Source,
      ready.Nodup ∧ (∀ source ∈ ready, source.Due s) ∧ s'.fdTable = s.fdTable ∧
        s'.batch = readyEvents s ready := by
  cases step_branch hStep with
  | peerSend | peerClose | setNonblocking | workerTake | readData | readEnds | write
  | writeFails => exact .inl (List.Sublist.refl _)
  | ctlAdd | mainClose => exact .inl (by simp)
  | workerClose =>
      left
      show (State.closeFd _ _).batch.Sublist _
      rw [(closeFd_frame _ _).2.2.1]
      exact List.Sublist.refl _
  | workerCtlDel =>
      left
      show (State.ctlDel _ _).batch.Sublist _
      rw [(ctlDel_frame _ _).2.2.2.2.1]
      exact List.Sublist.refl _
  | accept hBatch | acceptFails hBatch | addTask hBatch | dropTask hBatch =>
      left
      rw [hBatch]
      exact List.sublist_cons_self _ _
  | sigpipe => exact .inl (List.nil_sublist _)
  | @epollWait ready _ _ hNodup hDue => exact .inr ⟨ready, hNodup, hDue, rfl, rfl⟩

theorem mem_readyEvents {ready : List Source} (h : .client cfd c ∈ readyEvents s ready) :
    .client c ∈ ready ∧ (s.conn c).watched = some cfd := by
  obtain ⟨source, hMem, hEvent⟩ := List.mem_filterMap.mp h
  cases source with
  | listen => simp [Source.event] at hEvent
  | client d =>
      obtain ⟨fd, hWatched, hEvent⟩ := Option.map_eq_some_iff.mp hEvent
      obtain ⟨rfl, rfl⟩ := Event.client.inj hEvent
      exact ⟨hMem, hWatched⟩

/-- The entries of `events[]` are about different numbers, each about the
connection it was reported for, which had something to read and keeps it until
somebody comes. -/
structure EventInv (s : State n) : Prop where
  kernel : KernelInv s
  edge_watched : ∀ c, (s.conn c).edge = true → (s.conn c).watched ≠ none
  placed : ∀ cfd c, .client cfd c ∈ s.batch → c ∈ s.closed ∨ s.fdTable cfd = some c
  once : (s.batch.filterMap Event.cfd).Nodup
  ready : ∀ cfd c, s.fdTable cfd = some c →
    (s.conn c).edge = true ∨ .client cfd c ∈ s.batch →
      (s.conn c).readable = true ∨ Attended s cfd

theorem eventInv_init : EventInv (init n) where
  kernel := kernelInv_init
  edge_watched c hEdge := by simp [init, Conn.fresh] at hEdge
  placed cfd c hMem := by simp [init] at hMem
  once := by simp [init]
  ready cfd c hOpen := by simp [init] at hOpen

theorem EventInv.edge_watched_step (h : EventInv s) (hStep : step s a = some s') (c : ConnId)
    (hEdge : (s'.conn c).edge = true) : (s'.conn c).watched ≠ none := by
  cases conn_step hStep c with
  | keeps _ hOld =>
      obtain ⟨hEdge, hSame⟩ := hOld hEdge
      rw [hSame]
      exact h.edge_watched c hEdge
  | raises _ hNew => exact (hNew hEdge).2
  | read _ _ _ hSame hWatched =>
      rw [hWatched]
      exact h.edge_watched c (hSame ▸ hEdge)

theorem EventInv.placed_step (h : EventInv s) (hStep : step s a = some s')
    (hMem : .client cfd c ∈ s'.batch) : c ∈ s'.closed ∨ s'.fdTable cfd = some c := by
  rcases batch_step hStep with hSub | ⟨ready, -, -, hTable, hBatch⟩
  · have hOld := h.placed cfd c (hSub.subset hMem)
    cases (step_moves hStep).1 with
    | same hTable _ hClosed => rwa [hTable, hClosed]
    | accept fd _ hFree hTable _ hClosed =>
        rw [hTable, hClosed]
        refine hOld.imp id fun hOpen => ?_
        have hNe : cfd ≠ fd := by
          rintro rfl
          rw [hFree] at hOpen
          simp at hOpen
        rwa [Function.update_of_ne hNe]
    | close fd d hOpen hTable _ hClosed =>
        rw [hTable, hClosed, List.mem_append, List.mem_singleton]
        rcases hOld with hGone | hOld
        · exact .inl (.inl hGone)
        · by_cases hEq : cfd = fd
          · subst hEq
            exact .inl (.inr (Option.some.inj (hOld.symm.trans hOpen)))
          · exact .inr (by rwa [Function.update_of_ne hEq])
    | kill w hAction _ _ hClosed =>
        subst hAction
        -- what was open is closed with the process
        have hGone : c ∈ s'.closed := by
          rw [hClosed]
          by_cases hOld' : c ∈ s.closed
          · exact List.mem_append_left _ hOld'
          · have hLt := h.kernel.lt_accepted cfd c (hOld.resolve_left hOld')
            exact List.mem_append_right _
              (List.mem_filter.mpr ⟨List.mem_range.mpr hLt, decide_eq_true hOld'⟩)
        exact .inl hGone
  · rw [hBatch] at hMem
    rw [hTable]
    exact .inr (h.kernel.watched_open c cfd (mem_readyEvents hMem).2)

/-- An entry about a number is about a connection registered under it. -/
theorem Source.eq_client_of_cfd {source : Source}
    (h : cfd ∈ (source.event s).bind Event.cfd) :
    ∃ c, source = .client c ∧ (s.conn c).watched = some cfd := by
  cases source with
  | listen => simp [Source.event, Event.cfd] at h
  | client c =>
      obtain ⟨event, hEvent, hCfd⟩ := Option.bind_eq_some_iff.mp h
      obtain ⟨fd, hWatched, rfl⟩ := Option.map_eq_some_iff.mp hEvent
      exact ⟨c, rfl, hWatched.trans hCfd⟩

theorem EventInv.once_step (h : EventInv s) (hStep : step s a = some s') :
    (s'.batch.filterMap Event.cfd).Nodup := by
  rcases batch_step hStep with hSub | ⟨ready, hNodup, -, -, hBatch⟩
  · exact h.once.sublist (hSub.filterMap _)
  · rw [hBatch, readyEvents, List.filterMap_filterMap]
    refine hNodup.filterMap fun source source' fd hFd hFd' => ?_
    obtain ⟨c, rfl, hC⟩ := Source.eq_client_of_cfd hFd
    obtain ⟨d, rfl, hD⟩ := Source.eq_client_of_cfd hFd'
    -- no two connections are registered under one number
    have hOpen := h.kernel.watched_open c fd hC
    rw [h.kernel.watched_open d fd hD] at hOpen
    rw [Option.some.inj hOpen]

/-- The connection just accepted has no event yet. -/
theorem EventInv.accept_quiet (h : EventInv s) (cfd : Fd) (hNew : c = s.accepted) :
    ¬ ((s.conn c).edge = true ∨ .client cfd c ∈ s.batch) := by
  subst hNew
  have hNotOpen : ∀ fd, s.fdTable fd ≠ some s.accepted := fun fd hOpen =>
    Nat.lt_irrefl _ (h.kernel.lt_accepted fd _ hOpen)
  rintro (hEdge | hMem)
  · obtain ⟨fd, hWatched⟩ := Option.ne_none_iff_exists'.mp (h.edge_watched _ hEdge)
    exact hNotOpen fd (h.kernel.watched_open _ fd hWatched)
  · rcases h.placed cfd _ hMem with hClosed | hOpen
    · exact Nat.lt_irrefl _ (h.kernel.closed_lt _ hClosed)
    · exact hNotOpen cfd hOpen

theorem EventInv.ready_step (h : EventInv s) (hStep : step s a = some s')
    (hOpen' : s'.fdTable cfd = some c)
    (hEvent : (s'.conn c).edge = true ∨ .client cfd c ∈ s'.batch) :
    (s'.conn c).readable = true ∨ Attended s' cfd := by
  rcases (step_moves hStep).1.open_cases hOpen' with hOpen | ⟨rfl, hNew⟩
  · -- the event is an old one, or there is something to read now
    have hOld : (s'.conn c).readable = true ∨
        ((s.conn c).edge = true ∨ .client cfd c ∈ s.batch) := by
      rcases hEvent with hEdge | hMem
      · cases conn_step hStep c with
        | keeps _ hSame => exact .inr (.inl (hSame hEdge).1)
        | raises _ hRaised => exact .inl (hRaised hEdge).1
        | read _ _ _ hSame => exact .inr (.inl (hSame ▸ hEdge))
      · rcases batch_step hStep with hSub | ⟨ready, -, hDue, -, hBatch⟩
        · exact .inr (.inr (hSub.subset hMem))
        · rw [hBatch] at hMem
          exact .inr (.inl (hDue _ (mem_readyEvents hMem).1).1)
    rcases hOld with hReadable | hOld
    · exact .inl hReadable
    rcases h.ready cfd c hOpen hOld with hReadable | hAttended
    · cases conn_step hStep c with
      | keeps hSame => exact .inl (hSame.trans hReadable)
      | raises hKept => exact .inl (hKept hReadable)
      | read fd hTask hRuns =>
          obtain rfl := h.kernel.one_fd fd cfd c hTask hOpen
          exact .inr hRuns
    · exact .inr (attended_open_step hAttended hStep hOpen')
  · cases step_branch hStep with
    | @accept _ rest hBatch =>
        have hOld : (s.conn c).edge = true ∨ .client cfd c ∈ s.batch :=
          hEvent.imp id fun hMem => hBatch ▸ List.mem_cons_of_mem _ hMem
        exact absurd hOld (h.accept_quiet cfd hNew)

theorem eventInv_reach (h : Reachable step (init n) s) : EventInv s :=
  h.invariant eventInv_init fun _ _ _ hInv _ hStep =>
    ⟨kernelInv_step hInv.kernel (step_moves hStep).1, hInv.edge_watched_step hStep,
      fun _ _ hMem => hInv.placed_step hStep hMem, hInv.once_step hStep,
      fun _ _ hOpen hEvent => hInv.ready_step hStep hOpen hEvent⟩

/-- **The handled event is served** if the step meets the condition. -/
theorem eventServed_of_keeps (h : EventInv s) (hMet : KeepsServed s a)
    (hStep : step s a = some s') : EventServed s a s' := by
  unfold EventServed
  split
  · rename_i cfd c rest hBatch
    have hMem : Event.client cfd c ∈ s.batch := by simp [hBatch]
    cases step_branch hStep with
    | @addTask fd d _ hHead =>
        obtain ⟨hEvent, -⟩ := List.cons.inj (hBatch.symm.trans hHead)
        obtain ⟨rfl, rfl⟩ := Event.client.inj hEvent
        exact .inl (.inl ⟨⟨cfd, c⟩, by simp, rfl⟩)
    | dropTask _ _ hRefuses =>
        simp only [KeepsServed, hBatch] at hMet
        rcases h.placed cfd c hMem with hClosed | hOpen
        · exact .inr (.inl hClosed)
        rcases hMet with hAccepts | hAttended | hListening
        · exact absurd hAccepts hRefuses
        · exact .inl (hAttended.of_same (List.Subset.refl _) rfl)
        · obtain ⟨hWatched, hEdge⟩ := hListening c hOpen
          -- a refused event is due again unless somebody is about to read it
          rcases h.ready cfd c hOpen (.inr hMem) with hReadable | hAttended
          · exact .inr (.inr ⟨hEdge hReadable, by simp [hWatched]⟩)
          · exact .inl (hAttended.of_same (List.Subset.refl _) rfl)
  · trivial

/-! ## A step that breaks the condition -/

/-- A connection that is not covered is stranded, at the latest by the next
message. -/
theorem stranded_of_not_covered (hKernel : KernelInv s) (hOpen : s.fdTable cfd = some c)
    (hNot : ¬ Covered s cfd c) :
    ¬ NothingStranded s ∨ ∃ t, step s (.peerSend c [0]) = some t ∧ ¬ NothingStranded t := by
  simp only [Covered, not_or] at hNot
  obtain ⟨hAttended, hReported, hMain, hListening⟩ := hNot
  by_cases hReadable : (s.conn c).readable = true
  · left
    intro hNothing
    rcases hNothing cfd c hOpen hReadable with hCome | hCome | hCome | ⟨hEdge, hWatched⟩
    · exact hAttended hCome
    · exact hReported hCome
    · exact hMain hCome
    · obtain ⟨fd, hWatched⟩ := Option.ne_none_iff_exists'.mp hWatched
      obtain rfl := hKernel.one_fd fd cfd c (hKernel.watched_open c fd hWatched) hOpen
      exact hListening ⟨hWatched, fun _ => hEdge⟩
  · right
    -- nothing to read and not listening: the connection is not registered
    have hSilent : (s.conn c).watched = none := by
      by_contra hWatched
      obtain ⟨fd, hWatched⟩ := Option.ne_none_iff_exists'.mp hWatched
      obtain rfl := hKernel.one_fd fd cfd c (hKernel.watched_open c fd hWatched) hOpen
      exact hListening ⟨hWatched, fun hRead => absurd hRead hReadable⟩
    have hMore : (s.conn c).eof = false := by
      simp only [Conn.readable, Bool.or_eq_true, not_or, Bool.not_eq_true] at hReadable
      exact hReadable.2
    have hLt := hKernel.lt_accepted cfd c hOpen
    have hSend : step s (.peerSend c [0]) = some (s.setConn c
        { s.conn c with
          inbox := (s.conn c).inbox ++ [0]
          edge := (s.conn c).watched.isSome }) :=
      if_pos ⟨hLt, List.cons_ne_nil _ _, hMore⟩
    refine ⟨_, hSend, fun hNothing => ?_⟩
    rcases hNothing cfd c hOpen (by simp [State.setConn, Conn.readable]) with
      hCome | hCome | hCome | hDue
    · exact hAttended (hCome.of_same (List.Subset.refl _) rfl)
    · exact hReported hCome
    · exact hMain hCome
    · simp [Due, State.setConn, hSilent] at hDue

/-- A refused event leaves its number uncovered. -/
theorem refused_not_covered (h : EventInv s) (hBreaks : ¬ KeepsServed s .addTask)
    (hStep : step s .addTask = some s') :
    ∃ cfd c, s'.fdTable cfd = some c ∧ ¬ Covered s' cfd c := by
  cases step_branch hStep with
  | addTask hBatch _ hAccepts => exact absurd (by simp [KeepsServed, hBatch, hAccepts]) hBreaks
  | @dropTask cfd d rest hBatch hLoop =>
      simp only [KeepsServed, hBatch, not_or, not_forall] at hBreaks
      obtain ⟨-, hAttended, c, hOpen, hListening⟩ := hBreaks
      refine ⟨cfd, c, hOpen, ?_⟩
      rintro (hCome | ⟨e, hMem, hCfd⟩ | hMain | hCome)
      · exact hAttended (hCome.of_same (List.Subset.refl _) rfl)
      · -- `events[]` has one entry for a number
        have hOnce := h.once
        rw [hBatch, List.filterMap_cons_some (show Event.cfd (.client cfd d) = some cfd from rfl),
          List.nodup_cons] at hOnce
        exact hOnce.1 (List.mem_filterMap.mpr ⟨e, hMem, hCfd⟩)
      · simp [hLoop, MainPc.cfd] at hMain
      · exact hListening hCome

/-- `EPOLL_CTL_DEL` leaves the connection it strikes uncovered. -/
theorem struck_not_covered {w : Fin n} (hBreaks : ¬ KeepsServed s (.workerCtlDel w))
    (hStep : step s (.workerCtlDel w) = some s') :
    ∃ cfd c, s'.fdTable cfd = some c ∧ ¬ Covered s' cfd c := by
  cases step_branch hStep with
  | @workerCtlDel _ task hPc =>
      simp only [KeepsServed, hPc, not_or] at hBreaks
      obtain ⟨hNotFree, hAttended, hReported, hMain⟩ := hBreaks
      obtain ⟨c, hOpen⟩ := Option.ne_none_iff_exists'.mp hNotFree
      obtain ⟨hTable, -, -, hTasks, hBatch, hWorker, -⟩ :=
        ctlDel_frame (s.logOp .ctlDel task) task.cfd
      refine ⟨task.cfd, c, (congrFun hTable task.cfd).trans hOpen, ?_⟩
      rintro (hCome | ⟨e, hMem, hCfd⟩ | hCome | ⟨hWatched, -⟩)
      · refine hAttended (hCome.of_worker (w := w) (p := s.worker w) hTasks.symm ?_ ?_)
        · funext v
          by_cases hEq : v = w
          · simp [hEq]
          · simp [State.setWorker, hEq, State.logOp]
        · simp [State.setWorker, WorkerPc.WillClose]
      · exact hReported ⟨e, hBatch ▸ hMem, hCfd⟩
      · have hSame := congrArg MainPc.cfd (ctlDel_main (s.logOp .ctlDel task) task.cfd)
        exact hMain (hSame.symm.trans hCome)
      · have hOpen' : (s.logOp .ctlDel task).fdTable task.cfd = some c := hOpen
        simp [State.setWorker, State.ctlDel, hOpen', State.setConn] at hWatched

theorem breaks_not_covered (h : EventInv s) (hBreaks : ¬ KeepsServed s a)
    (hStep : step s a = some s') : ∃ cfd c, s'.fdTable cfd = some c ∧ ¬ Covered s' cfd c := by
  cases a with
  | addTask => exact refused_not_covered h hBreaks hStep
  | workerCtlDel w => exact struck_not_covered hBreaks hStep
  | _ => exact absurd trivial hBreaks

/-- **Every reported event is served**, and nothing is left unread, in every run
whose steps meet the condition.  A step that does not meet it is followed, at
the latest behind one more message, by a state in which an open connection has
something to read and nobody will read it. -/
theorem every_event_served_exactly (n : Nat) :
    (∀ s : State n, Reach step KeepsServed (init n) s →
      NothingStranded s ∧
        ∀ a s', KeepsServed s a → step s a = some s' → EventServed s a s') ∧
      ∀ (s s' : State n) (a : Action n), Reachable step (init n) s → step s a = some s' →
        ¬ KeepsServed s a →
        ∃ more t, (∀ b ∈ more, ∃ c bytes, b = .peerSend c bytes) ∧
          run step s' more = some t ∧ ¬ NothingStranded t := by
  refine ⟨fun s hReach => ⟨?_, ?_⟩, fun s s' a hReach hStep hBreaks => ?_⟩
  · exact nothingStranded_of_covered (covered_reach hReach)
  · intro a s' hMet hStep
    exact eventServed_of_keeps (eventInv_reach hReach.reachable) hMet hStep
  · have hInv := eventInv_reach hReach
    obtain ⟨cfd, c, hOpen, hNot⟩ := breaks_not_covered hInv hBreaks hStep
    have hKernel := kernelInv_step hInv.kernel (step_moves hStep).1
    rcases stranded_of_not_covered hKernel hOpen hNot with hNow | ⟨t, hSend, hThen⟩
    · exact ⟨[], s', by simp, rfl, hNow⟩
    · exact ⟨[.peerSend c [0]], t, by simp, by simp [run, hSend], hThen⟩

/-- A client whose second message queues a second task; the worker closes behind
the first one, and the second one finds the number closed. -/
def twoTasksTrace (w : Fin n) : List (Action n) :=
  [.epollWait [.listen], .accept 5, .setNonblocking true, .ctlAdd, .peerSend 0 [104, 105],
    .epollWait [.client 0], .addTask, .peerSend 0 [33], .epollWait [.client 0], .addTask,
    .workerTake w, .workerRead w (.data 3), .workerWrite w 3, .workerRead w .again,
    .workerClose w, .workerCtlDel w, .workerTake w, .workerRead w .error, .workerClose w,
    .epollWait [.listen], .accept 5, .setNonblocking true, .workerCtlDel w, .ctlAdd,
    .peerSend 1 [104]]

theorem every_event_served_exactly_twoTasksTrace :
    ∃ s : State 1, s.closed = [0] ∧ (s.conn 1).inbox = [104] ∧ NothingStranded s := by
  let final := run (guarded step KeepsServed) (init 1) (twoTasksTrace 0)
  have hFinal : final = some (final.get (by decide)) := by simp
  have hReach : Reach step KeepsServed (init 1) (final.get (by decide)) :=
    reach_of_run_guarded hFinal
  exact ⟨_, by decide, by decide, ((every_event_served_exactly 1).1 _ hReach).1⟩

/-! ## A client that floods the queue -/

/-- Two clients are registered, the second one has sent nothing, and `k` events
of the first one are queued. -/
structure Flooded (s : State n) (k : Nat) : Prop where
  tasks : s.tasks = List.replicate k ⟨5, 0⟩
  main : s.main = .loop
  batch : s.batch = []
  accepted : s.accepted = 2
  noisy : (s.conn 0).watched = some 5 ∧ (s.conn 0).eof = false
  quiet : s.conn 1 = { Conn.fresh with watched := some 6 }
  table : s.fdTable 6 = some 1
  idle : ∀ w, s.worker w = .idle
  closed : s.closed = []

/-- Both clients connect. -/
def connectTwo : List (Action n) :=
  [.epollWait [.listen], .accept 5, .setNonblocking true, .ctlAdd,
    .epollWait [.listen], .accept 6, .setNonblocking true, .ctlAdd]

theorem flooded_start : ∃ s : State 4, run step (init 4) connectTwo = some s ∧ Flooded s 0 := by
  have hRun : (run step (init 4) connectTwo).isSome = true := by decide
  obtain ⟨s, hRun⟩ := Option.isSome_iff_exists.mp hRun
  refine ⟨s, hRun, ?_⟩
  obtain rfl : (run step (init 4) connectTwo).get (by decide) = s := by simp [hRun]
  constructor <;> decide

/-- A message of a client whose event is reported. -/
def message (c : ConnId) : List (Action n) :=
  [.peerSend c [1], .epollWait [.client c]]

/-- Behind it the event is in `events[]`, and is not due any more. -/
theorem run_message (hLt : c < s.accepted) (hMore : (s.conn c).eof = false)
    (hWatched : (s.conn c).watched = some cfd) (hMain : s.main = .loop) (hBatch : s.batch = []) :
    run step s (message c) = some
      { s with
        conn := Function.update s.conn c
          { s.conn c with inbox := (s.conn c).inbox ++ [1], edge := false }
        batch := [.client cfd c] } := by
  let t := s.setConn c { s.conn c with inbox := (s.conn c).inbox ++ [1], edge := true }
  have hSend : step s (.peerSend c [1]) = some t := by
    simp [step, hLt, hMore, hWatched, t]
  have hReady : readyEvents t [.client c] = [.client cfd c] := by
    simp [readyEvents, Source.event, t, State.setConn, hWatched]
  have hWait : step t (.epollWait [.client c]) = some
      { t with batch := readyEvents t [.client c], conn := consumeEdges t [.client c] } := by
    refine if_pos ⟨hMain, hBatch, by simp, by simp [maxEvents], List.nodup_singleton _, ?_⟩
    simp [Source.Due, Due, t, State.setConn, hWatched]
  have hConn : consumeEdges t [.client c] = Function.update s.conn c
      { s.conn c with inbox := (s.conn c).inbox ++ [1], edge := false } := by
    funext d
    by_cases hEq : d = c
    · simp [consumeEdges, t, State.setConn, hEq]
    · simp [consumeEdges, t, State.setConn, hEq]
  simp only [message, run, hSend, hWait, hConn, hReady]
  rfl

/-- One more message of the first client, and one more task. -/
theorem Flooded.next {k : Nat} (h : Flooded s k) (hRoom : k < ThreadPool.maxTasks) :
    ∃ s', run step s (message 0 ++ [.addTask]) = some s' ∧ Flooded s' (k + 1) := by
  have hLt : 0 < s.accepted := by simp [h.accepted]
  refine ⟨{ s with
      conn := Function.update s.conn 0
        { s.conn 0 with inbox := (s.conn 0).inbox ++ [1], edge := false }
      batch := []
      tasks := s.tasks ++ [⟨5, 0⟩] }, ?_, ?_⟩
  · have hAccepts : ThreadPool.echo.addTask false s.tasks.length = .accept := by
      rw [h.tasks, List.length_replicate]
      exact if_neg (by omega)
    rw [run_append, run_message hLt h.noisy.2 h.noisy.1 h.main h.batch]
    simp [run, step, h.main, hAccepts]
  · exact
      { tasks := by simp [h.tasks, List.replicate_succ']
        main := h.main
        batch := rfl
        accepted := h.accepted
        noisy := by simpa using h.noisy
        quiet := by simpa using h.quiet
        table := h.table
        idle := h.idle
        closed := h.closed }

/-- The first client fills the queue. -/
theorem flooded_reach {k : Nat} (hRoom : k ≤ ThreadPool.maxTasks) :
    ∃ s : State 4, Reachable step (init 4) s ∧ Flooded s k := by
  induction k with
  | zero =>
      obtain ⟨s, hRun, hStart⟩ := flooded_start
      exact ⟨s, reachable_of_run hRun, hStart⟩
  | succ k ih =>
      obtain ⟨s, hReach, hFlooded⟩ := ih (by omega)
      obtain ⟨s', hRun, hNext⟩ := hFlooded.next (by omega)
      exact ⟨s', hReach.run hRun, hNext⟩

/-- The event of the second client meets a full queue. -/
theorem Flooded.refuses (h : Flooded s ThreadPool.maxTasks) :
    ∃ t t', run step s (message 1) = some t ∧ step t .addTask = some t' ∧
      t.tasks.length = ThreadPool.maxTasks ∧ ¬ EventServed t .addTask t' ∧
        ¬ NothingStranded t' := by
  have hLt : 1 < s.accepted := by simp [h.accepted]
  have hRun := run_message hLt (by simp [h.quiet, Conn.fresh])
    (by simp [h.quiet] : (s.conn 1).watched = some 6) h.main h.batch
  have hNobody : ¬ Attended s 6 := by
    rintro (⟨task, hMem, hCfd⟩ | ⟨w, hRuns⟩)
    · rw [h.tasks] at hMem
      rw [List.eq_of_mem_replicate hMem] at hCfd
      simp at hCfd
    · simp [h.idle, WorkerPc.WillClose] at hRuns
  let t : State n := { s with
    conn := Function.update s.conn 1
      { s.conn 1 with inbox := (s.conn 1).inbox ++ [1], edge := false }
    batch := [.client 6 1] }
  have hRefuses : ThreadPool.echo.addTask false t.tasks.length = .refuse := by
    show ThreadPool.echo.addTask false s.tasks.length = .refuse
    rw [h.tasks, List.length_replicate]
    simp [ThreadPool.echo]
  have hStep : step t .addTask = some { t with batch := [] } := by
    simp [step, t, h.main, hRefuses]
  refine ⟨t, { t with batch := [] }, hRun, hStep, by simp [t, h.tasks], ?_, ?_⟩
  · rintro (hCome | hClosed | hDue)
    · exact hNobody hCome
    · simp [t, h.closed] at hClosed
    · simp [Due, t] at hDue
  · intro hNothing
    rcases hNothing 6 1 h.table (by simp [t, Conn.readable]) with hCome | hCome | hCome | hDue
    · exact hNobody hCome
    · simp [Reported] at hCome
    · simp [t, h.main, MainPc.cfd] at hCome
    · simp [Due, t] at hDue

/-- The removal of number 5 strikes the second client, which then sends. -/
def struckTrace (w : Fin n) : List (Action n) :=
  [.epollWait [.listen], .accept 5, .setNonblocking true, .ctlAdd, .peerClose 0,
    .epollWait [.client 0], .addTask, .workerTake w, .workerRead w .eof, .workerClose w,
    .epollWait [.listen], .accept 5, .setNonblocking true, .ctlAdd, .workerCtlDel w,
    .peerSend 1 [104]]

/-- An event meets a full queue and is gone, the client's data stay unread; and
a client whose number was deregistered is not heard, with an empty queue. -/
theorem event_of_full_queue_lost :
    (∃ s s' : State 4, Reachable step (init 4) s ∧ step s .addTask = some s' ∧
      s.tasks.length = 65535 ∧ ¬ EventServed s .addTask s' ∧ ¬ NothingStranded s') ∧
      ∃ s : State 1, Reachable step (init 1) s ∧ s.tasks = [] ∧ ¬ NothingStranded s := by
  constructor
  · obtain ⟨s, hReach, hFull⟩ := flooded_reach (Nat.le_refl _)
    obtain ⟨t, t', hRun, hStep, hLength, hLost⟩ := hFull.refuses
    exact ⟨t, t', hReach.run hRun, hStep, hLength, hLost⟩
  · have hRun : (run step (init 1) (struckTrace 0)).map (fun s => decide (s.tasks = [] ∧
        s.fdTable 5 = some 1 ∧ (s.conn 1).readable = true ∧ ¬ (Attended s 5 ∨ Reported s 5 ∨
          s.main.cfd = some 5 ∨ Due s 1))) = some true := by decide
    obtain ⟨s, hReach, hTest⟩ := exists_reachable_of_run hRun
    obtain ⟨hTasks, hOpen, hReadable, hNobody⟩ := of_decide_eq_true hTest
    exact ⟨s, hReach, hTasks, fun hNothing => hNobody (hNothing 5 1 hOpen hReadable)⟩

end EchoServer
end LinuxCppLearn
