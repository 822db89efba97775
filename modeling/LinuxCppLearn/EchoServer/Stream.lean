import LinuxCppLearn.EchoServer.History

/-!
# The echoed stream

`working` drops the result of `write`, and several workers can hold chunks of
one connection, so what the kernel accepts need not be what was read.

* `Balanced` — the bytes read are the bytes accepted followed by the chunks in
  the workers' hands, oldest first.
* `Faithful` — the condition on one step: a chunk is written completely and in
  its turn, and a connection is closed with no chunk in anybody's hands.  A
  write that raises `SIGPIPE` is not complete.
* `echo_exact_exactly` — under it the echo is a prefix at every moment and
  complete when no run is left; a short write at the end of a run loses bytes.
-/

namespace LinuxCppLearn
namespace EchoServer

open StepSystem

variable {n : Nat}

/-- No worker runs a task whose number stands for the connection; so it is when
all runs on it have ended. -/
def RunsEnded (s : State n) (c : ConnId) : Prop :=
  ∀ w t, (s.worker w).task = some t → s.fdTable t.cfd ≠ some c

/-- The echo on a connection: what the kernel has accepted is a prefix of what
was read, and all of it when no run is left. -/
structure EchoExact (s : State n) (c : ConnId) : Prop where
  isPrefix : (s.conn c).sentLog <+: (s.conn c).readLog
  complete : RunsEnded s c → (s.conn c).sentLog = (s.conn c).readLog

/-- The kernel accepts a chunk completely and after all chunks read before it,
and a connection is closed only when no chunk of it is left to write. -/
def Faithful (u : Traced n) : Action n → Prop
  | .workerWrite w len =>
      match u.1.worker w with
      | .write task buf =>
          len = buf.length ∧
            match u.1.fdTable task.cfd with
            | some c => (u.2.unwritten c).head? = some (w, buf)
            | none => False
      | _ => True
  | .sigpipe _ => False
  | a =>
      match closedFd u.1 a with
      | some cfd =>
          match u.1.fdTable cfd with
          | some c => u.2.unwritten c = []
          | none => True
      | none => True

instance (u : Traced n) (a : Action n) : Decidable (Faithful u a) := by
  induction a using Action.casesOn with
  | workerWrite w len =>
      unfold Faithful
      dsimp only
      split
      · refine @instDecidableAnd _ _ _ ?_
        split <;> infer_instance
      · infer_instance
  | sigpipe => exact instDecidableFalse
  | _ =>
      unfold Faithful
      dsimp only
      split
      · split <;> infer_instance
      · infer_instance

/-- The chunks in hand, as bytes. -/
def inHand (h : History n) (c : ConnId) : List UInt8 :=
  (h.unwritten c).flatMap Prod.snd

structure Balanced (u : Traced n) : Prop where
  balance : ∀ c, (u.1.conn c).readLog = (u.1.conn c).sentLog ++ inHand u.2 c
  writer : ∀ c w buf, (w, buf) ∈ u.2.unwritten c →
    ∃ task, u.1.worker w = .write task buf ∧ u.1.fdTable task.cfd = some c
  one_chunk : ∀ c, ((u.2.unwritten c).map Prod.fst).Nodup
  some_bytes : ∀ c w buf, (w, buf) ∈ u.2.unwritten c → buf ≠ []

theorem balanced_init : Balanced (Traced.init n) where
  balance c := by simp [Traced.init, EchoServer.init, History.empty, Conn.fresh, inHand]
  writer c w buf h := by simp [Traced.init, History.empty] at h
  one_chunk c := by simp [Traced.init, History.empty]
  some_bytes c w buf h := by simp [Traced.init, History.empty] at h

/-- Behind a close nothing of the connection is in anybody's hands. -/
theorem Faithful.close {u : Traced n} {a : Action n} {cfd : Fd} {c : ConnId}
    (h : Faithful u a) (hClosed : closedFd u.1 a = some cfd) (hOpen : u.1.fdTable cfd = some c) :
    u.2.unwritten c = [] := by
  unfold Faithful at h
  split at h
  · simp [closedFd] at hClosed
  · exact h.elim
  · simpa only [hClosed, hOpen] using h

theorem Faithful.write {u : Traced n} {w : Fin n} {len : Nat} {task : Task}
    {buf : List UInt8} (h : Faithful u (.workerWrite w len))
    (hPc : u.1.worker w = .write task buf) :
    len = buf.length ∧ ∃ c rest, u.1.fdTable task.cfd = some c ∧
      u.2.unwritten c = (w, buf) :: rest := by
  simp only [Faithful, hPc] at h
  obtain ⟨hLen, hHead⟩ := h
  split at hHead
  · rename_i c hOpen
    obtain ⟨rest, hRest⟩ : ∃ rest, u.2.unwritten c = (w, buf) :: rest := by
      cases hList : u.2.unwritten c with
      | nil => simp [hList] at hHead
      | cons chunk rest =>
          obtain rfl : chunk = (w, buf) := by simpa [hList] using hHead
          exact ⟨rest, rfl⟩
    exact ⟨hLen, c, rest, hOpen, hRest⟩
  · exact absurd hHead not_false

/-- A chunk comes into a worker's hands. -/
theorem Balanced.read {u : Traced n} {s' : State n} {w : Fin n} {task : Task} {c : ConnId}
    {len : Nat} (h : Balanced u) (hPc : u.1.worker w = .read task)
    (hOpen : u.1.fdTable task.cfd = some c) (hSome : (u.1.conn c).inbox.take len ≠ [])
    (hTable : s'.fdTable = u.1.fdTable)
    (hWorker : s'.worker =
      Function.update u.1.worker w (.write task ((u.1.conn c).inbox.take len)))
    (hSelf : (s'.conn c).readLog = (u.1.conn c).readLog ++ (u.1.conn c).inbox.take len ∧
      (s'.conn c).sentLog = (u.1.conn c).sentLog)
    (hConn : ∀ d ≠ c, s'.conn d = u.1.conn d) :
    Balanced (s', u.2.note u.1 (.workerRead w (.data len))) := by
  have hUnwritten : (u.2.note u.1 (.workerRead w (.data len))).unwritten =
      Function.update u.2.unwritten c
        (u.2.unwritten c ++ [(w, (u.1.conn c).inbox.take len)]) := by
    simp [History.note, readTarget, hPc, hOpen]
  -- the reader held no chunk
  have hIdle : ∀ d buf, (w, buf) ∉ u.2.unwritten d := by
    intro d buf hMem
    obtain ⟨t, hWrite, -⟩ := h.writer d w buf hMem
    simp [hPc] at hWrite
  have hOld : ∀ d v buf, (v, buf) ∈ u.2.unwritten d →
      ∃ t, s'.worker v = .write t buf ∧ s'.fdTable t.cfd = some d := by
    intro d v buf hMem
    obtain ⟨t, hWrite, hFd⟩ := h.writer d v buf hMem
    have hNe : v ≠ w := by
      rintro rfl
      exact hIdle d buf hMem
    exact ⟨t, by rw [hWorker, Function.update_of_ne hNe, hWrite], by rw [hTable, hFd]⟩
  constructor
  · intro d
    by_cases hEq : d = c
    · subst hEq
      simp only [inHand, hUnwritten, Function.update_self, hSelf.1, hSelf.2, h.balance d]
      simp
    · simp only [inHand, hUnwritten, Function.update_of_ne hEq, hConn d hEq]
      exact h.balance d
  · intro d v buf hMem
    simp only [hUnwritten] at hMem
    by_cases hEq : d = c
    · subst hEq
      rw [Function.update_self, List.mem_append, List.mem_singleton] at hMem
      rcases hMem with hMem | hNew
      · exact hOld d v buf hMem
      · obtain ⟨rfl, rfl⟩ := Prod.mk.inj hNew
        exact ⟨task, by rw [hWorker, Function.update_self], by rw [hTable, hOpen]⟩
    · rw [Function.update_of_ne hEq] at hMem
      exact hOld d v buf hMem
  · intro d
    simp only [hUnwritten]
    by_cases hEq : d = c
    · subst hEq
      rw [Function.update_self, List.map_append, List.nodup_append]
      refine ⟨h.one_chunk d, by simp, ?_⟩
      intro v hMem v' hNew hSame
      obtain rfl : v' = w := by simpa using hNew
      subst hSame
      obtain ⟨⟨_, buf⟩, hIn, rfl⟩ := List.mem_map.mp hMem
      exact hIdle d buf hIn
    · rw [Function.update_of_ne hEq]
      exact h.one_chunk d
  · intro d v buf hMem
    simp only [hUnwritten] at hMem
    by_cases hEq : d = c
    · subst hEq
      rw [Function.update_self, List.mem_append, List.mem_singleton] at hMem
      rcases hMem with hMem | hNew
      · exact h.some_bytes d v buf hMem
      · obtain ⟨rfl, rfl⟩ := Prod.mk.inj hNew
        exact hSome
    · rw [Function.update_of_ne hEq] at hMem
      exact h.some_bytes d v buf hMem

/-- A chunk is accepted in its turn. -/
theorem Balanced.write {u : Traced n} {s' : State n} {w : Fin n} {task : Task}
    {buf : List UInt8} {len : Nat} (h : Balanced u) (hMet : Faithful u (.workerWrite w len))
    (hPc : u.1.worker w = .write task buf) (hTable : s'.fdTable = u.1.fdTable)
    (hWorker : s'.worker = Function.update u.1.worker w (.read task))
    (hLogs : ∀ c, (s'.conn c).readLog = (u.1.conn c).readLog ∧
      (s'.conn c).sentLog =
        if u.1.fdTable task.cfd = some c then (u.1.conn c).sentLog ++ buf.take len
        else (u.1.conn c).sentLog) :
    Balanced (s', u.2.note u.1 (.workerWrite w len)) := by
  obtain ⟨rfl, c, rest, hOpen, hHead⟩ := hMet.write hPc
  have hUnwritten : ∀ d, (u.2.note u.1 (.workerWrite w buf.length)).unwritten d =
      if d = c then rest else u.2.unwritten d := by
    intro d
    show (u.2.unwritten d).eraseP _ = _
    by_cases hEq : d = c
    · subst hEq
      simp [hHead]
    -- a worker's chunk is read from one connection only
    · rw [if_neg hEq]
      apply List.eraseP_of_forall_not
      rintro ⟨v, b⟩ hMem hSame
      obtain rfl : v = w := by simpa using hSame
      obtain ⟨t, hWrite, hFd⟩ := h.writer d v b hMem
      rw [hPc, WorkerPc.write.injEq] at hWrite
      rw [← hWrite.1, hOpen, Option.some.injEq] at hFd
      exact hEq hFd.symm
  have hOthers : ∀ d v b, (v, b) ∈ (u.2.note u.1 (.workerWrite w buf.length)).unwritten d →
      v ≠ w ∧ (v, b) ∈ u.2.unwritten d := by
    intro d v b hMem
    rw [hUnwritten] at hMem
    by_cases hEq : d = c
    · subst hEq
      rw [if_pos rfl] at hMem
      have hNodup := h.one_chunk d
      rw [hHead, List.map_cons, List.nodup_cons] at hNodup
      refine ⟨?_, by rw [hHead]; exact List.mem_cons_of_mem _ hMem⟩
      rintro rfl
      exact hNodup.1 (List.mem_map.mpr ⟨(v, b), hMem, rfl⟩)
    · rw [if_neg hEq] at hMem
      refine ⟨?_, hMem⟩
      rintro rfl
      obtain ⟨t, hWrite, hFd⟩ := h.writer d v b hMem
      rw [hPc, WorkerPc.write.injEq] at hWrite
      rw [← hWrite.1, hOpen, Option.some.injEq] at hFd
      exact hEq hFd.symm
  constructor
  · intro d
    show (s'.conn d).readLog = _
    rw [(hLogs d).1, h.balance d]
    show _ = (s'.conn d).sentLog ++ _
    rw [(hLogs d).2, inHand, inHand, hUnwritten]
    by_cases hEq : d = c
    · subst hEq
      simp [hOpen, hHead]
    · have hNot : u.1.fdTable task.cfd ≠ some d := by
        rw [hOpen]
        simpa using Ne.symm hEq
      rw [if_neg hNot, if_neg hEq]
  · intro d v b hMem
    obtain ⟨hNe, hMem⟩ := hOthers d v b hMem
    obtain ⟨t, hWrite, hFd⟩ := h.writer d v b hMem
    exact ⟨t, by simp only [hWorker, Function.update_of_ne hNe, hWrite],
      by simp only [hTable, hFd]⟩
  · intro d
    rw [hUnwritten]
    split
    · rename_i hEq
      subst hEq
      have hNodup := h.one_chunk d
      rw [hHead, List.map_cons, List.nodup_cons] at hNodup
      exact hNodup.2
    · exact h.one_chunk d
  · intro d v b hMem
    exact h.some_bytes d v b (hOthers d v b hMem).2

/-- Other steps write down no chunk. -/
theorem note_unwritten {s : State n} {h : History n} {a : Action n}
    (hRead : ∀ w len, a = .workerRead w (.data len) → readTarget s w = none)
    (hWrite : ∀ w len, a ≠ .workerWrite w len) : (h.note s a).unwritten = h.unwritten := by
  cases a with
  | workerRead w answer =>
      cases hTarget : readTarget s w with
      | none => simp [History.note, hTarget]
      | some c =>
          cases answer with
          | data len => simp [hRead w len rfl] at hTarget
          | again | eof | error => simp [History.note, hTarget]
  | workerWrite w len => exact absurd rfl (hWrite w len)
  | ctlAdd =>
      simp only [History.note]
      split <;> rfl
  | _ => rfl

/-- **The balance is kept** by every step that meets the condition. -/
theorem balanced_step {u u' : Traced n} {a : Action n} (h : Balanced u) (hMet : Faithful u a)
    (hStep : Traced.step u a = some u') : Balanced u' := by
  obtain ⟨hStep, hNote⟩ := withHistory_eq_some.mp hStep
  obtain ⟨s', h'⟩ := u'
  obtain rfl : h' = u.2.note u.1 a := hNote
  cases step_readMove hStep with
  | read w task c len _ hPc hOpen hSome hTable hWorker hSelf hConn =>
      exact h.read hPc hOpen hSome hTable hWorker hSelf hConn
  | write w task buf len _ hPc hTable hWorker hLogs =>
      exact h.write hMet hPc hTable hWorker hLogs
  | kill => exact hMet.elim
  | other _ _ hRead hWrite hLogs hWriters hTable =>
      have hSame := note_unwritten (h := u.2) hRead hWrite
      constructor
      · intro c
        show (s'.conn c).readLog = (s'.conn c).sentLog ++ _
        rw [(hLogs c).1, (hLogs c).2, inHand, hSame]
        exact h.balance c
      · intro c w buf hMem
        rw [hSame] at hMem
        obtain ⟨task, hWrite', hFd⟩ := h.writer c w buf hMem
        refine ⟨task, (hWriters w task buf).mpr hWrite', ?_⟩
        rcases hTable task.cfd c hFd with hStill | hClosed
        · exact hStill
        · rw [hMet.close hClosed hFd] at hMem
          simp at hMem
      · intro c
        rw [hSame]
        exact h.one_chunk c
      · intro c
        rw [hSame]
        exact h.some_bytes c

theorem balanced_reach {u : Traced n} (h : Reach Traced.step Faithful (Traced.init n) u) :
    Balanced u :=
  h.invariant balanced_init fun _ _ _ hInv hMet hStep => balanced_step hInv hMet hStep

theorem Balanced.echoExact {u : Traced n} (h : Balanced u) (c : ConnId) : EchoExact u.1 c where
  isPrefix := ⟨inHand u.2 c, (h.balance c).symm⟩
  complete hEnded := by
    have hNothing : u.2.unwritten c = [] := by
      cases hList : u.2.unwritten c with
      | nil => rfl
      | cons chunk rest =>
          obtain ⟨task, hWrite, hFd⟩ := h.writer c chunk.1 chunk.2 (by simp [hList])
          exact absurd hFd (hEnded chunk.1 task (by rw [hWrite]; rfl))
    rw [h.balance c, inHand, hNothing]
    simp

/-! ## Bytes that get lost -/

/-- A closed connection has no number, so no run is left on it. -/
theorem runsEnded_of_closed {s : State n} (h : KernelInv s) {c : ConnId} (hMem : c ∈ s.closed) :
    RunsEnded s c :=
  fun _ t _ => h.closed_gone c hMem t.cfd

/-- When all runs end with a chunk in a worker's hands, the chunk is lost. -/
theorem Balanced.loses_in_hand {u : Traced n} {s' : State n} {c : ConnId} (h : Balanced u)
    (hHand : u.2.unwritten c ≠ []) (hLogs : SameLogs u.1 s') (hEnded : RunsEnded s' c) :
    ¬ EchoExact s' c := by
  intro hExact
  have hSame := hExact.complete hEnded
  rw [(hLogs c).1, (hLogs c).2, h.balance c, List.self_eq_append_right] at hSame
  obtain ⟨chunk, rest, hList⟩ := List.exists_cons_of_ne_nil hHand
  have hSome := h.some_bytes c chunk.1 chunk.2 (by simp [hList])
  simp [inHand, hList, hSome] at hSame

/-- Closing a connection with a chunk in a worker's hands loses the chunk. -/
theorem Balanced.close_loses {u u' : Traced n} {a : Action n} {c : ConnId} (h : Balanced u)
    (hKernel : KernelInv u.1) (hCloses : Closes u.1 a c) (hHand : u.2.unwritten c ≠ [])
    (hStep : Traced.step u a = some u') : ¬ EchoExact u'.1 c := by
  have hStep' := (withHistory_eq_some.mp hStep).1
  obtain ⟨hClosed, hLogs⟩ := closes_closed hCloses hStep'
  have hKernel' := kernelInv_step hKernel (step_moves hStep').1
  exact h.loses_in_hand hHand hLogs (runsEnded_of_closed hKernel' hClosed)

/-- `SIGPIPE` ends the process and loses every chunk in the workers' hands. -/
theorem Balanced.sigpipe_loses {u u' : Traced n} {w : Fin n} {c : ConnId} (h : Balanced u)
    (hHand : u.2.unwritten c ≠ []) (hStep : Traced.step u (.sigpipe w) = some u') :
    ¬ EchoExact u'.1 c := by
  have hStep' := (withHistory_eq_some.mp hStep).1
  generalize u'.1 = s' at hStep' ⊢
  cases step_branch hStep' with
  | sigpipe =>
      refine h.loses_in_hand hHand (fun _ => ⟨rfl, rfl⟩) fun v t hTask => ?_
      simp [State.kill, WorkerPc.task] at hTask

/-- The task of a worker ends with a read that fails. -/
theorem run_can_end {u : Traced n} {w : Fin n} {task : Task} {c : ConnId}
    (hKernel : KernelInv u.1) (hPc : u.1.worker w = .read task)
    (hOpen : u.1.fdTable task.cfd = some c) :
    ∃ v, Reachable Traced.step u v ∧ RunsEnded v.1 c ∧ SameLogs u.1 v.1 := by
  let s₁ := (u.1.logOp .read task).setWorker w (.close task)
  have hRead : EchoServer.step u.1 (.workerRead w .error) = some s₁ := by
    simp [EchoServer.step, hPc, workerRead, hOpen, ReadAnswer.Possible, s₁]
  have hPc₁ : s₁.worker w = .close task := by simp [s₁, State.setWorker]
  let s₂ := ((s₁.logOp .close task).closeFd task.cfd).setWorker w (.ctlDel task)
  have hClose : EchoServer.step s₁ (.workerClose w) = some s₂ := by
    simp only [EchoServer.step, hPc₁, s₂]
  have hCloses : Closes s₁ (.workerClose w) c :=
    ⟨task.cfd, by simp [closedFd, hPc₁], hOpen⟩
  have hKernel₁ := kernelInv_step hKernel (step_moves hRead).1
  have hKernel₂ := kernelInv_step hKernel₁ (step_moves hClose).1
  obtain ⟨hClosed, hLogs⟩ := closes_closed hCloses hClose
  let v₁ : Traced n := (s₁, u.2.note u.1 (.workerRead w .error))
  let v₂ : Traced n := (s₂, v₁.2.note s₁ (.workerClose w))
  have hFirst : Traced.step u (.workerRead w .error) = some v₁ :=
    withHistory_eq_some.mpr ⟨hRead, rfl⟩
  have hSecond : Traced.step v₁ (.workerClose w) = some v₂ :=
    withHistory_eq_some.mpr ⟨hClose, rfl⟩
  exact ⟨v₂, .next _ (.next _ .start trivial hFirst) trivial hSecond,
    runsEnded_of_closed hKernel₂ hClosed, hLogs⟩

/-- A short write of the last chunk in hand loses its rest: the run can end
without it. -/
theorem Balanced.short_write_loses {u u' : Traced n} {w : Fin n} {len : Nat} {task : Task}
    {buf : List UInt8} {c : ConnId} (h : Balanced u) (hKernel : KernelInv u.1)
    (hPc : u.1.worker w = .write task buf) (hOpen : u.1.fdTable task.cfd = some c)
    (hLast : u.2.unwritten c = [(w, buf)]) (hShort : len < buf.length)
    (hStep : Traced.step u (.workerWrite w len) = some u') :
    ∃ v, Reachable Traced.step u' v ∧ ¬ EchoExact v.1 c := by
  have hStep' := (withHistory_eq_some.mp hStep).1
  have hKernel' := kernelInv_step hKernel (step_moves hStep').1
  simp only [EchoServer.step, hPc, workerWrite, hOpen, if_pos (Nat.le_of_lt hShort),
    Option.some.injEq] at hStep'
  have hRead : u'.1.worker w = .read task := by simp [← hStep', State.setWorker]
  have hOpen' : u'.1.fdTable task.cfd = some c := by rw [← hStep']; exact hOpen
  obtain ⟨v, hReach, hEnded, hLogs⟩ := run_can_end hKernel' hRead hOpen'
  refine ⟨v, hReach, fun hExact => ?_⟩
  have hSame := hExact.complete hEnded
  rw [(hLogs c).1, (hLogs c).2] at hSame
  have hLength := congrArg List.length hSame
  have hBalance := h.balance c
  simp [← hStep', State.setWorker, State.setConn, State.logOp, hBalance, inHand, hLast]
    at hLength
  omega

/-- **The echo is exact** in every run whose steps write each chunk completely
and in its turn and close a connection with no chunk in hand.  A close with a
chunk in hand loses it, `SIGPIPE` loses all of them, and a short write its
rest. -/
theorem echo_exact_exactly (n : Nat) :
    (∀ u : Traced n, Reach Traced.step Faithful (Traced.init n) u → ∀ c, EchoExact u.1 c) ∧
      (∀ (u u' : Traced n) (a : Action n) (c : ConnId),
        Reach Traced.step Faithful (Traced.init n) u → Closes u.1 a c → u.2.unwritten c ≠ [] →
        Traced.step u a = some u' → ¬ EchoExact u'.1 c) ∧
      (∀ (u u' : Traced n) (w : Fin n) (len : Nat) (task : Task) (buf : List UInt8) (c : ConnId),
        Reach Traced.step Faithful (Traced.init n) u → u.1.worker w = .write task buf →
        u.1.fdTable task.cfd = some c → u.2.unwritten c = [(w, buf)] → len < buf.length →
        Traced.step u (.workerWrite w len) = some u' →
        ∃ v, Reachable Traced.step u' v ∧ ¬ EchoExact v.1 c) ∧
      ∀ (u u' : Traced n) (w : Fin n) (c : ConnId),
        Reach Traced.step Faithful (Traced.init n) u → u.2.unwritten c ≠ [] →
        Traced.step u (.sigpipe w) = some u' → ¬ EchoExact u'.1 c := by
  have hKernel : ∀ u : Traced n, Reach Traced.step Faithful (Traced.init n) u →
      KernelInv u.1 := fun u hReach =>
    kernelInv_reach (reachable_state_iff.mpr ⟨u.2, hReach.reachable⟩)
  refine ⟨fun u hReach c => (balanced_reach hReach).echoExact c, ?_, ?_, ?_⟩
  · intro u u' a c hReach hCloses hHand hStep
    exact (balanced_reach hReach).close_loses (hKernel u hReach) hCloses hHand hStep
  · intro u u' w len task buf c hReach hPc hOpen hLast hShort hStep
    exact (balanced_reach hReach).short_write_loses (hKernel u hReach) hPc hOpen hLast hShort hStep
  · intro u u' w c hReach hHand hStep
    exact (balanced_reach hReach).sigpipe_loses hHand hStep

/-- Two chunks of one connection, echoed completely by one worker after the
other. -/
def inTurnTrace (w v : Fin n) : List (Action n) :=
  [.epollWait [.listen], .accept 5, .setNonblocking true, .ctlAdd, .peerSend 0 [97, 98],
    .epollWait [.client 0], .addTask, .workerTake w, .workerRead w (.data 2), .peerSend 0 [99],
    .workerWrite w 2, .epollWait [.client 0], .addTask, .workerTake v, .workerRead v (.data 1),
    .workerWrite v 1, .workerRead v .again, .workerClose v]

theorem echo_exact_exactly_inTurnTrace :
    ∃ s : State 2, (s.conn 0).readLog = [97, 98, 99] ∧ EchoExact s 0 := by
  let final := run (guarded Traced.step Faithful) (Traced.init 2) (inTurnTrace 0 1)
  have hFinal : final = some (final.get (by decide)) := by simp
  have hReach : Reach Traced.step Faithful (Traced.init 2) (final.get (by decide)) :=
    reach_of_run_guarded hFinal
  exact ⟨_, by decide, (echo_exact_exactly 2).1 _ hReach 0⟩

/-- The kernel takes one of two bytes, and the client sends no more. -/
def shortWriteTrace (w : Fin n) : List (Action n) :=
  [.epollWait [.listen], .accept 5, .setNonblocking true, .ctlAdd, .peerSend 0 [104, 105],
    .epollWait [.client 0], .addTask, .workerTake w, .workerRead w (.data 2), .workerWrite w 1,
    .workerRead w .again, .workerClose w, .workerCtlDel w]

/-- Worker `v` reads after worker `w` and writes before it. -/
def overtakingTrace (w v : Fin n) : List (Action n) :=
  [.epollWait [.listen], .accept 5, .setNonblocking true, .ctlAdd, .peerSend 0 [97],
    .epollWait [.client 0], .addTask, .workerTake w, .workerRead w (.data 1), .peerSend 0 [98],
    .epollWait [.client 0], .addTask, .workerTake v, .workerRead v (.data 1), .workerWrite v 1]

/-- A byte is lost with all runs ended, and two bytes are echoed in the wrong
order. -/
theorem echo_loses_and_reorders :
    (∃ s, Reachable step (init 1) s ∧ (∀ w, s.worker w = .idle) ∧
      (s.conn 0).readLog = [104, 105] ∧ (s.conn 0).sentLog = [104]) ∧
    ∃ s, Reachable step (init 2) s ∧
      (s.conn 0).readLog = [97, 98] ∧ (s.conn 0).sentLog = [98] := by
  constructor
  · let final := run step (init 1) (shortWriteTrace 0)
    have hFinal : final = some (final.get (by decide)) := by simp
    exact ⟨_, reachable_of_run hFinal, by decide, by decide, by decide⟩
  · let final := run step (init 2) (overtakingTrace 0 1)
    have hFinal : final = some (final.get (by decide)) := by simp
    exact ⟨_, reachable_of_run hFinal, by decide, by decide⟩

end EchoServer
end LinuxCppLearn
