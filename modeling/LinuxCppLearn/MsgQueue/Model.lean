import LinuxCppLearn.Library.StepSystem
import Mathlib.Data.List.Basic
import Mathlib.Logic.Function.Basic

/-!
# The sender and the receiver of messages

Any number of processes run `send.c` and `recv.c` in one directory, so that
`ftok` gives all of them the same key.  A system call is one step.  Every call
may fail at any time, and on a queue that has been removed it does; the two
programs do not look at what `msgctl` returns.

* `Msgbuf` — the message buffer of both programs.
* `Kernel` — the queue of the key, if there is one.
* `Sender`, `Receiver` — the two programs between their system calls.
* `step` — any process makes its next call.
-/

namespace LinuxCppLearn
namespace MsgQueue

/-- `struct msgbuf`; `sizeof(msgbuf) - sizeof(long)` bytes of it are sent. -/
structure Msgbuf where
  mtype : Int
  mtext : List UInt8
  size : mtext.length = 64

/-- `strcpy(msgbuf.mtext, text)`: what stands behind the terminator stays. -/
def Msgbuf.strcpy (m : Msgbuf) (text : List UInt8) (hFits : text.length < 64) : Msgbuf where
  mtype := m.mtype
  mtext := text ++ 0 :: m.mtext.drop (text.length + 1)
  size := by
    have hSize := m.size
    rw [List.length_append, List.length_cons, List.length_drop]
    omega

/-- What `%s` prints; without a terminator it runs out of the buffer. -/
def Msgbuf.print (m : Msgbuf) : Option (List UInt8) :=
  if 0 ∈ m.mtext then some (m.mtext.takeWhile (· ≠ 0)) else none

/-- `"message k"` -/
def messageText (k : Nat) : List UInt8 :=
  [109, 101, 115, 115, 97, 103, 101, 32, 48 + UInt8.ofNat k]

theorem messageText_length (k : Nat) : (messageText k).length < 64 := by
  simp [messageText]

/-- The assignment to `mtype` and the `strcpy` in front of the `k`-th `msgsnd`. -/
def Msgbuf.fill (m : Msgbuf) (k : Nat) : Msgbuf :=
  ({ m with mtype := k } : Msgbuf).strcpy (messageText k) (messageText_length k)

/-- A message in a queue, with the process that has sent it. -/
structure Entry where
  author : Nat
  msg : Msgbuf

/-- The queue that the key leads to.  The id of a removed queue is not used again. -/
structure Kernel where
  current : Option (Nat × List Entry)
  nextId : Nat

/-- The messages of a queue; none if it is not there. -/
def Kernel.waiting (k : Kernel) (msgid : Nat) : Option (List Entry) :=
  match k.current with
  | some (id, entries) => if id = msgid then some entries else none
  | none => none

/-- `msgget(key, IPC_CREAT | 0666)` -/
def Kernel.msgget (k : Kernel) : Nat × Kernel :=
  match k.current with
  | some (id, _) => (id, k)
  | none => (k.nextId, ⟨some (k.nextId, []), k.nextId + 1⟩)

/-- Put the messages of a queue that is there. -/
def Kernel.put (k : Kernel) (msgid : Nat) (entries : List Entry) : Kernel :=
  { k with current := some (msgid, entries) }

/-- `msgctl(msgid, IPC_RMID, NULL)`, which fails without effect on a removed queue. -/
def Kernel.rmid (k : Kernel) (msgid : Nat) : Kernel :=
  match k.waiting msgid with
  | some _ => { k with current := none }
  | none => k

/-! ## The two programs -/

inductive SenderPc
  | start
  /-- in front of the `k`-th `msgsnd`, `k` from 1 to 3 -/
  | send (msgid k : Nat)
  | exit (status : Int)
deriving DecidableEq, Repr

structure Sender where
  pc : SenderPc
  msgbuf : Msgbuf

/-- Behind the `k`-th `msgsnd`. -/
def Sender.goOn (p : Sender) (msgid k : Nat) : Sender :=
  if k < 3 then { pc := .send msgid (k + 1), msgbuf := p.msgbuf.fill (k + 1) }
  else { p with pc := .exit 0 }

/-- Only the answer of the first `msgsnd` is looked at. -/
def Sender.msgsndFailed (p : Sender) (msgid k : Nat) : Sender :=
  if k = 1 then { p with pc := .exit (-1) } else p.goOn msgid k

inductive ReceiverPc
  | start
  /-- in front of the first `IPC_STAT` -/
  | stat (msgid : Nat)
  /-- in front of `msgrcv` -/
  | receive (msgid count : Nat)
  /-- behind `msgrcv`, in front of the `IPC_STAT` in the loop -/
  | received (msgid count : Nat)
  /-- in front of `IPC_RMID` -/
  | remove (msgid : Nat)
  | exit (status : Int)
deriving DecidableEq, Repr

structure Receiver where
  pc : ReceiverPc
  /-- `mqs.msg_qnum` -/
  qnum : Nat
  /-- the texts behind `recv msg:` -/
  texts : List (List UInt8)
  /-- the numbers behind `msg_qnum:` -/
  qnums : List Nat
  /-- `IPC_RMID` has failed on a queue that was there -/
  kept : Bool

/-- `IPC_STAT`, which leaves `mqs` as it is when it fails, and the `printf` behind it. -/
def Receiver.ipcStat (q : Receiver) (answer : Option Nat) : Receiver :=
  let qnum := answer.getD q.qnum
  { q with qnum := qnum, qnums := q.qnums ++ [qnum] }

/-- One of the two calls of `IPC_STAT` and what follows it. -/
def Receiver.goOn (q : Receiver) (answer : Nat → Option Nat) : Option Receiver :=
  match q.pc with
  | .stat msgid => some { q.ipcStat (answer msgid) with pc := .receive msgid 0 }
  | .received msgid count =>
      let pc := if count + 1 = 3 then .remove msgid else .receive msgid (count + 1)
      some { q.ipcStat (answer msgid) with pc := pc }
  | _ => none

/-! ## The processes together -/

structure State where
  kernel : Kernel
  sender : Nat → Sender
  receiver : Nat → Receiver
  /-- the messages that a queue has accepted, in order -/
  accepted : Nat → List Entry
  /-- the messages that have been taken from a queue, in order, and who has them -/
  taken : Nat → List (Nat × Entry)
  /-- the messages that were lost with a queue -/
  discarded : Nat → List Entry

/-- No queue; nothing is known of the senders' buffers, which are on their stacks. -/
def start (stack : Nat → Msgbuf) : State where
  kernel := ⟨none, 0⟩
  sender p := ⟨.start, stack p⟩
  receiver _ := ⟨.start, 0, [], [], false⟩
  accepted _ := []
  taken _ := []
  discarded _ := []

def State.setSender (s : State) (p : Nat) (sender : Sender) : State :=
  { s with sender := Function.update s.sender p sender }

def State.setReceiver (s : State) (q : Nat) (receiver : Receiver) : State :=
  { s with receiver := Function.update s.receiver q receiver }

inductive Action
  /-- `ftok` and `msgget` -/
  | senderGet (p : Nat)
  | senderGetFails (p : Nat)
  | msgsnd (p : Nat)
  | msgsndFails (p : Nat)
  | receiverGet (q : Nat)
  | receiverGetFails (q : Nat)
  | ipcStat (q : Nat)
  | ipcStatFails (q : Nat)
  | msgrcv (q : Nat)
  | msgrcvFails (q : Nat)
  | ipcRmid (q : Nat)
  | ipcRmidFails (q : Nat)
deriving DecidableEq, Repr

/-- A process makes its next call; `none` if it is not at this call, or if the
call blocks.  A queue has room for `room` messages. -/
def step (room : Nat) (s : State) : Action → Option State
  | .senderGet p =>
      match (s.sender p).pc with
      | .start =>
          let (msgid, kernel) := s.kernel.msgget
          some { s.setSender p ⟨.send msgid 1, (s.sender p).msgbuf.fill 1⟩ with
            kernel := kernel }
      | _ => none
  | .senderGetFails p =>
      match (s.sender p).pc with
      | .start => some (s.setSender p { s.sender p with pc := .exit (-1) })
      | _ => none
  | .msgsnd p =>
      match (s.sender p).pc with
      | .send msgid k =>
          match s.kernel.waiting msgid with
          | some entries =>
              -- a full queue blocks the sender
              if entries.length < room then
                let entry : Entry := ⟨p, (s.sender p).msgbuf⟩
                some { s.setSender p ((s.sender p).goOn msgid k) with
                  kernel := s.kernel.put msgid (entries ++ [entry])
                  accepted := Function.update s.accepted msgid (s.accepted msgid ++ [entry]) }
              else none
          | none => none
      | _ => none
  | .msgsndFails p =>
      match (s.sender p).pc with
      | .send msgid k => some (s.setSender p ((s.sender p).msgsndFailed msgid k))
      | _ => none
  | .receiverGet q =>
      match (s.receiver q).pc with
      | .start =>
          let (msgid, kernel) := s.kernel.msgget
          some { s.setReceiver q { s.receiver q with pc := .stat msgid } with kernel := kernel }
      | _ => none
  | .receiverGetFails q =>
      match (s.receiver q).pc with
      | .start => some (s.setReceiver q { s.receiver q with pc := .exit (-1) })
      | _ => none
  | .ipcStat q =>
      ((s.receiver q).goOn fun msgid => (s.kernel.waiting msgid).map List.length).map
        (s.setReceiver q)
  | .ipcStatFails q => ((s.receiver q).goOn fun _ => none).map (s.setReceiver q)
  | .msgrcv q =>
      match (s.receiver q).pc with
      | .receive msgid count =>
          match s.kernel.waiting msgid with
          -- the message type 0 asks for the first message, whatever its type
          | some (entry :: entries) => do
              let text ← entry.msg.print
              some { s.setReceiver q { s.receiver q with
                  pc := .received msgid count
                  texts := (s.receiver q).texts ++ [text] } with
                kernel := s.kernel.put msgid entries
                taken := Function.update s.taken msgid (s.taken msgid ++ [(q, entry)]) }
          -- an empty queue blocks the receiver
          | some [] | none => none
      | _ => none
  | .msgrcvFails q =>
      match (s.receiver q).pc with
      | .receive _ _ => some (s.setReceiver q { s.receiver q with pc := .exit (-1) })
      | _ => none
  | .ipcRmid q =>
      match (s.receiver q).pc with
      | .remove msgid =>
          some { s.setReceiver q { s.receiver q with pc := .exit 0 } with
            kernel := s.kernel.rmid msgid
            discarded := Function.update s.discarded msgid
              (s.discarded msgid ++ (s.kernel.waiting msgid).getD []) }
      | _ => none
  -- on a queue that is there, for example with `EPERM`
  | .ipcRmidFails q =>
      match (s.receiver q).pc with
      | .remove msgid =>
          if s.kernel.waiting msgid = none then none
          else some (s.setReceiver q { s.receiver q with pc := .exit 0, kept := true })
      | _ => none

end MsgQueue
end LinuxCppLearn
