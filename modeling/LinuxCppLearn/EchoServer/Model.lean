import Mathlib.Logic.Function.Basic
import Mathlib.Data.Fintype.Basic
import LinuxCppLearn.Library.StepSystem
import LinuxCppLearn.ThreadPool.Model

/-!
# The echo server: epoll loop, workers and the kernel between them

The main thread accepts connections, registers them edge-triggered and queues
`working(cfd, epoll_fd)` for every client event; the pool's workers read, echo,
close and deregister by descriptor number.  The kernel side is modelled as
POSIX and Linux document it: `accept` returns the lowest free number, `close`
frees the number and drops the registration, an operation on a free number
fails with `EBADF`, and every arrival of data or of the end of the stream
raises an edge on a registered connection.  A `write` on a connection that the
peer has reset raises `SIGPIPE`; the server handles no signals, so its process
ends and the kernel closes what it has open.

A connection has an identity of its own, counted in the order of `accept`.
Tasks and events carry the connection they were made for next to the number;
the code has only the number, and no branch of the model reads the other one.
-/

namespace LinuxCppLearn
namespace EchoServer

abbrev Fd := Nat
abbrev ConnId := Nat

/-- Numbers below are taken: the standard streams, `lfd` and `epoll_fd`. -/
def firstClientFd : Fd := 5

/-- `MAX_EVENTS` -/
def maxEvents : Nat := 1024

/-- Length of `buf` in `working`. -/
def bufSize : Nat := 1024

/-- One accepted connection, as the kernel sees it. -/
structure Conn where
  /-- received and not yet read -/
  inbox : List UInt8
  /-- the peer has shut down its side -/
  eof : Bool
  /-- the number it is registered under in the epoll instance -/
  watched : Option Fd
  /-- an edge-triggered event is due -/
  edge : Bool
  /-- everything the server has read -/
  readLog : List UInt8
  /-- everything the kernel has accepted from the server -/
  sentLog : List UInt8
deriving DecidableEq, Repr

def Conn.fresh : Conn where
  inbox := []
  eof := false
  watched := none
  edge := false
  readLog := []
  sentLog := []

/-- `EPOLLIN` holds. -/
def Conn.readable (c : Conn) : Bool := !c.inbox.isEmpty || c.eof

/-- The closure `[cfd, epoll_fd]() { working(cfd, epoll_fd); }`, with the
connection whose event queued it. -/
structure Task where
  cfd : Fd
  conn : ConnId
deriving DecidableEq, Repr

/-- What `epoll_wait` reports: the listening socket or a connection. -/
inductive Source
  | listen
  | client (c : ConnId)
deriving DecidableEq, Repr

/-- An entry of `events[]`. -/
inductive Event
  | listen
  | client (cfd : Fd) (conn : ConnId)
deriving DecidableEq, Repr

/-- Where the main thread is. -/
inductive MainPc
  /-- in `epoll_wait` or at the next entry of `events[]` -/
  | loop
  /-- `accept` returned this number -/
  | accepted (cfd : Fd)
  /-- `set_nonblocking` succeeded -/
  | register (cfd : Fd)
  /-- `set_nonblocking` failed -/
  | abandon (cfd : Fd)
  /-- `SIGPIPE` has ended the process -/
  | killed
deriving DecidableEq, Repr

/-- Where a worker is in `working`. -/
inductive WorkerPc
  | idle
  | read (task : Task)
  | write (task : Task) (buf : List UInt8)
  | close (task : Task)
  | ctlDel (task : Task)
deriving DecidableEq, Repr

inductive OpKind
  | read
  | write
  | close
  | ctlDel
deriving DecidableEq, Repr

/-- A system call made by a task, with the connection the kernel applied it
to (`none`: `EBADF`). -/
structure Op where
  kind : OpKind
  task : Task
  target : Option ConnId
deriving DecidableEq, Repr

structure State (n : Nat) where
  /-- open client descriptors -/
  fdTable : Fd → Option ConnId
  conn : ConnId → Conn
  /-- how many connections were accepted, the identity of the next one -/
  accepted : Nat
  main : MainPc
  /-- rest of `events[]` of the current round -/
  batch : List Event
  /-- `m_tasks` of the pool -/
  tasks : List Task
  worker : Fin n → WorkerPc
  /-- system calls made by tasks, in order -/
  ops : List Op
  /-- connections closed by the server or with its process, in order -/
  closed : List ConnId

def init (n : Nat) : State n where
  fdTable _ := none
  conn _ := .fresh
  accepted := 0
  main := .loop
  batch := []
  tasks := []
  worker _ := .idle
  ops := []
  closed := []

/-- What `read` answers on an open connection. -/
inductive ReadAnswer
  /-- this many bytes -/
  | data (len : Nat)
  /-- `-1` with `EAGAIN` -/
  | again
  /-- `0` -/
  | eof
  /-- `-1` with another error -/
  | error
deriving DecidableEq, Repr

inductive Action (n : Nat)
  | peerSend (c : ConnId) (bytes : List UInt8)
  | peerClose (c : ConnId)
  | epollWait (ready : List Source)
  | accept (cfd : Fd)
  | acceptFails
  | setNonblocking (ok : Bool)
  | ctlAdd
  | mainClose
  | addTask
  | workerTake (w : Fin n)
  | workerRead (w : Fin n) (answer : ReadAnswer)
  | workerWrite (w : Fin n) (len : Nat)
  | sigpipe (w : Fin n)
  | workerClose (w : Fin n)
  | workerCtlDel (w : Fin n)
deriving DecidableEq, Repr

section State

variable {n : Nat}

def State.setWorker (s : State n) (w : Fin n) (pc : WorkerPc) : State n :=
  { s with worker := Function.update s.worker w pc }

def State.setConn (s : State n) (c : ConnId) (conn : Conn) : State n :=
  { s with conn := Function.update s.conn c conn }

/-- Record a system call of a task. -/
def State.logOp (s : State n) (kind : OpKind) (task : Task) : State n :=
  { s with ops := s.ops ++ [⟨kind, task, s.fdTable task.cfd⟩] }

/-- `close(cfd)`: the number becomes free and the registration goes with the
last descriptor of the connection. -/
def State.closeFd (s : State n) (cfd : Fd) : State n :=
  match s.fdTable cfd with
  | none => s
  | some c =>
      { s.setConn c { s.conn c with watched := none, edge := false } with
        fdTable := Function.update s.fdTable cfd none
        closed := s.closed ++ [c] }

/-- `epoll_ctl(epoll_fd, EPOLL_CTL_DEL, cfd, NULL)`. -/
def State.ctlDel (s : State n) (cfd : Fd) : State n :=
  match s.fdTable cfd with
  | none => s
  | some c => s.setConn c { s.conn c with watched := none, edge := false }

/-- `epoll_ctl(epoll_fd, EPOLL_CTL_ADD, cfd, &ev)` with `EPOLLIN | EPOLLET`: an
event is due at once if the connection is readable. -/
def State.ctlAdd (s : State n) (cfd : Fd) : State n :=
  match s.fdTable cfd with
  | none => s
  | some c =>
      s.setConn c { s.conn c with watched := some cfd, edge := (s.conn c).readable }

/-- The process ends: the kernel closes every connection that is still open. -/
def State.kill (s : State n) : State n :=
  { s with
    fdTable := fun _ => none
    conn := fun c => { s.conn c with watched := none, edge := false }
    main := .killed
    batch := []
    tasks := []
    worker := fun _ => .idle
    closed := s.closed ++ (List.range s.accepted).filter fun c => c ∉ s.closed }

/-- POSIX: the lowest number that is not open. -/
def LowestFree (s : State n) (cfd : Fd) : Prop :=
  firstClientFd ≤ cfd ∧ s.fdTable cfd = none ∧
    ∀ k < cfd, firstClientFd ≤ k → s.fdTable k ≠ none

instance (s : State n) (cfd : Fd) : Decidable (LowestFree s cfd) :=
  inferInstanceAs (Decidable (_ ∧ _ ∧ _))

/-- A connection whose event `epoll_wait` may return. -/
def Due (s : State n) (c : ConnId) : Prop :=
  (s.conn c).edge = true ∧ (s.conn c).watched ≠ none

instance (s : State n) (c : ConnId) : Decidable (Due s c) :=
  inferInstanceAs (Decidable (_ ∧ _))

/-- `epoll_wait` may return it; a client may be waiting at any time. -/
def Source.Due (s : State n) : Source → Prop
  | .listen => True
  | .client c => EchoServer.Due s c

instance (s : State n) (source : Source) : Decidable (source.Due s) := by
  cases source with
  | listen => exact inferInstanceAs (Decidable True)
  | client c => exact inferInstanceAs (Decidable (EchoServer.Due s c))

/-- The answers `read` can give on a connection. -/
def ReadAnswer.Possible (conn : Conn) : ReadAnswer → Prop
  | .data len => 0 < len ∧ len ≤ bufSize ∧ len ≤ conn.inbox.length
  | .again => conn.inbox = [] ∧ conn.eof = false
  | .eof => conn.inbox = [] ∧ conn.eof = true
  | .error => True

instance (conn : Conn) (answer : ReadAnswer) : Decidable (answer.Possible conn) := by
  cases answer with
  | data len => exact inferInstanceAs (Decidable (_ ∧ _ ∧ _))
  | again => exact inferInstanceAs (Decidable (_ ∧ _))
  | eof => exact inferInstanceAs (Decidable (_ ∧ _))
  | error => exact inferInstanceAs (Decidable True)

/-- The entry `epoll_wait` writes. -/
def Source.event (s : State n) : Source → Option Event
  | .listen => some .listen
  | .client c => (s.conn c).watched.map fun cfd => .client cfd c

/-- The entries `epoll_wait` writes for what it reports, in its order. -/
def readyEvents (s : State n) (ready : List Source) : List Event :=
  ready.filterMap (Source.event s)

/-- `epoll_wait` consumes the edges it reports. -/
def consumeEdges (s : State n) (ready : List Source) : ConnId → Conn := fun c =>
  if .client c ∈ ready then { s.conn c with edge := false } else s.conn c

/-- `read(cfd, buf, sizeof(buf))` and the branch taken on its result. -/
def workerRead (s : State n) (w : Fin n) (task : Task) (answer : ReadAnswer) :
    Option (State n) :=
  match s.fdTable task.cfd with
  -- `EBADF`: `perror("read"); break;`
  | none => some ((s.logOp .read task).setWorker w (.close task))
  | some c =>
      if answer.Possible (s.conn c) then
        match answer with
        | .data len =>
            let conn := s.conn c
            let bytes := conn.inbox.take len
            some (((s.logOp .read task).setConn c
              { conn with
                inbox := conn.inbox.drop len
                readLog := conn.readLog ++ bytes }).setWorker w (.write task bytes))
        | .again | .eof | .error => some ((s.logOp .read task).setWorker w (.close task))
      else none

/-- `write(cfd, buf, len)`, whose result is dropped: the kernel accepts `len`
of the bytes. -/
def workerWrite (s : State n) (w : Fin n) (task : Task) (buf : List UInt8) (len : Nat) :
    Option (State n) :=
  match s.fdTable task.cfd with
  | none => some ((s.logOp .write task).setWorker w (.read task))
  | some c =>
      if len ≤ buf.length then
        some (((s.logOp .write task).setConn c
          { s.conn c with sentLog := (s.conn c).sentLog ++ buf.take len }).setWorker w
            (.read task))
      else none

/-- One step of the server, of its peers or of the kernel. -/
def step (s : State n) : Action n → Option (State n)
  | .peerSend c bytes =>
      let conn := s.conn c
      if c < s.accepted ∧ bytes ≠ [] ∧ conn.eof = false then
        some (s.setConn c
          { conn with inbox := conn.inbox ++ bytes, edge := conn.watched.isSome })
      else none
  | .peerClose c =>
      let conn := s.conn c
      if c < s.accepted ∧ conn.eof = false then
        some (s.setConn c { conn with eof := true, edge := conn.watched.isSome })
      else none
  | .epollWait ready =>
      if s.main = .loop ∧ s.batch = [] ∧ ready ≠ [] ∧ ready.length ≤ maxEvents ∧
          ready.Nodup ∧ ∀ source ∈ ready, source.Due s then
        some { s with batch := readyEvents s ready, conn := consumeEdges s ready }
      else none
  | .accept cfd =>
      match s.batch with
      | .listen :: rest =>
          if s.main = .loop ∧ LowestFree s cfd then
            some { s with
              batch := rest
              main := .accepted cfd
              fdTable := Function.update s.fdTable cfd (some s.accepted)
              accepted := s.accepted + 1 }
          else none
      | _ => none
  -- `perror("accept"); continue;`
  | .acceptFails =>
      match s.batch with
      | .listen :: rest => if s.main = .loop then some { s with batch := rest } else none
      | _ => none
  | .setNonblocking ok =>
      match s.main with
      | .accepted cfd =>
          -- a worker with an old task may have closed the number: `fcntl` fails then
          if ok = true ∧ s.fdTable cfd = none then none
          else some { s with main := if ok then .register cfd else .abandon cfd }
      | _ => none
  | .ctlAdd =>
      match s.main with
      | .register cfd => some { s.ctlAdd cfd with main := .loop }
      | _ => none
  | .mainClose =>
      match s.main with
      | .abandon cfd => some { s.closeFd cfd with main := .loop }
      | _ => none
  -- `pool.addTask(...)`, whose result is dropped
  | .addTask =>
      match s.batch with
      | .client cfd c :: rest =>
          if s.main = .loop then
            match ThreadPool.echo.addTask false s.tasks.length with
            | .accept => some { s with batch := rest, tasks := s.tasks ++ [⟨cfd, c⟩] }
            | _ => some { s with batch := rest }
          else none
      | _ => none
  | .workerTake w =>
      match s.worker w, s.tasks with
      | .idle, task :: rest => some { s.setWorker w (.read task) with tasks := rest }
      | _, _ => none
  | .workerRead w answer =>
      match s.worker w with
      | .read task => workerRead s w task answer
      | _ => none
  | .workerWrite w len =>
      match s.worker w with
      | .write task buf => workerWrite s w task buf len
      | _ => none
  -- the same call on a connection that the peer has reset; a peer can do so at any time
  | .sigpipe w =>
      match s.worker w with
      | .write task _ =>
          if s.fdTable task.cfd = none then none else some (s.logOp .write task).kill
      | _ => none
  | .workerClose w =>
      match s.worker w with
      | .close task => some (((s.logOp .close task).closeFd task.cfd).setWorker w (.ctlDel task))
      | _ => none
  | .workerCtlDel w =>
      match s.worker w with
      | .ctlDel task => some (((s.logOp .ctlDel task).ctlDel task.cfd).setWorker w .idle)
      | _ => none

end State

end EchoServer
end LinuxCppLearn
