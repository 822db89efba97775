import LinuxCppLearn.MsgQueue.Model
import Mathlib.Tactic.IntervalCases

/-!
# What becomes of the messages

* `Move`, `step_move` — what a call does, said once.
* `QueueInv` — every accepted message has been taken, waits, or was lost with its
  queue, in this order.
* `SenderInv`, `ReceiverInv` — what a process has to do with it.
* `messages_accounted_for` — the three of them, for any number of processes.
* `removed_queue_is_final` — nothing happens to a removed queue any more, and if
  one receiver has read it, it has got the first three messages and the others are
  lost.
-/

namespace LinuxCppLearn
namespace MsgQueue

open StepSystem

variable {room : Nat} {s s' : State} {a : Action}

/-! ## The kernel -/

theorem waiting_msgget (k : Kernel) (id : Nat) :
    k.msgget.2.waiting id =
      if k.current = none ∧ id = k.nextId then some [] else k.waiting id := by
  unfold Kernel.msgget
  cases hCurrent : k.current with
  | none =>
      simp only [true_and]
      unfold Kernel.waiting
      simp only [hCurrent]
      by_cases hEq : id = k.nextId
      · rw [if_pos hEq, if_pos hEq.symm]
      · rw [if_neg hEq, if_neg (Ne.symm hEq)]
  | some queue => simp

theorem msgget_there (k : Kernel) : k.msgget.2.waiting k.msgget.1 ≠ none := by
  unfold Kernel.msgget
  cases hCurrent : k.current with
  | none => simp [Kernel.waiting]
  | some queue =>
      obtain ⟨id, entries⟩ := queue
      simp [Kernel.waiting, hCurrent]

theorem msgget_nextId (k : Kernel) : k.nextId ≤ k.msgget.2.nextId := by
  unfold Kernel.msgget
  cases k.current with
  | none => exact Nat.le_succ _
  | some queue => exact Nat.le_refl _

theorem waiting_put {k : Kernel} {msgid : Nat} {old : List Entry}
    (hThere : k.waiting msgid = some old) (entries : List Entry) (id : Nat) :
    (k.put msgid entries).waiting id = if id = msgid then some entries else k.waiting id := by
  unfold Kernel.waiting at hThere ⊢
  unfold Kernel.put
  cases hCurrent : k.current with
  | none => simp [hCurrent] at hThere
  | some queue =>
      simp only [hCurrent] at hThere ⊢
      split at hThere
      · rename_i hSame
        by_cases hEq : id = msgid
        · rw [if_pos hEq.symm, if_pos hEq]
        · rw [if_neg (Ne.symm hEq), if_neg hEq, if_neg (by rw [hSame]; exact Ne.symm hEq)]
      · simp at hThere

theorem waiting_rmid (k : Kernel) (msgid id : Nat) :
    (k.rmid msgid).waiting id = if id = msgid then none else k.waiting id := by
  unfold Kernel.rmid
  cases hThere : k.waiting msgid with
  | none =>
      by_cases hEq : id = msgid
      · rw [if_pos hEq, hEq]
        exact hThere
      · rw [if_neg hEq]
  | some old =>
      by_cases hEq : id = msgid
      · rw [if_pos hEq]
        rfl
      · rw [if_neg hEq]
        unfold Kernel.waiting at hThere ⊢
        cases hCurrent : k.current with
        | none => rfl
        | some queue =>
            simp only [hCurrent] at hThere ⊢
            split at hThere
            · rename_i hSame
              rw [if_neg (by rw [hSame]; exact Ne.symm hEq)]
            · simp at hThere

theorem rmid_nextId (k : Kernel) (msgid : Nat) : (k.rmid msgid).nextId = k.nextId := by
  unfold Kernel.rmid
  split <;> rfl

/-! ## What a call does -/

/-- From one of the two calls of `IPC_STAT` on a queue to the next call. -/
def GoesOn (pc : ReceiverPc) (msgid : Nat) (pc' : ReceiverPc) : Prop :=
  (pc = .stat msgid ∧ pc' = .receive msgid 0) ∨
    ∃ count, pc = .received msgid count ∧
      pc' = if count + 1 = 3 then .remove msgid else .receive msgid (count + 1)

theorem goOn_eq_some {q q' : Receiver} {answer : Nat → Option Nat}
    (h : q.goOn answer = some q') :
    ∃ msgid pc, GoesOn q.pc msgid pc ∧ q' = { q.ipcStat (answer msgid) with pc := pc } := by
  unfold Receiver.goOn at h
  split at h
  · rename_i msgid hPc
    obtain rfl := Option.some.inj h
    exact ⟨msgid, _, .inl ⟨hPc, rfl⟩, rfl⟩
  · rename_i msgid count hPc
    obtain rfl := Option.some.inj h
    exact ⟨msgid, _, .inr ⟨count, hPc, rfl⟩, rfl⟩
  · simp at h

inductive Move (room : Nat) (s : State) : Action → State → Prop
  | senderGet {p : Nat} (hPc : (s.sender p).pc = .start) :
      Move room s (.senderGet p)
        { s.setSender p ⟨.send s.kernel.msgget.1 1, (s.sender p).msgbuf.fill 1⟩ with
          kernel := s.kernel.msgget.2 }
  | senderGetFails {p : Nat} (hPc : (s.sender p).pc = .start) :
      Move room s (.senderGetFails p) (s.setSender p { s.sender p with pc := .exit (-1) })
  | msgsnd {p msgid k : Nat} {entries : List Entry} (hPc : (s.sender p).pc = .send msgid k)
      (hThere : s.kernel.waiting msgid = some entries) (hRoom : entries.length < room) :
      Move room s (.msgsnd p)
        { s.setSender p ((s.sender p).goOn msgid k) with
          kernel := s.kernel.put msgid (entries ++ [⟨p, (s.sender p).msgbuf⟩])
          accepted := Function.update s.accepted msgid
            (s.accepted msgid ++ [⟨p, (s.sender p).msgbuf⟩]) }
  | msgsndFails {p msgid k : Nat} (hPc : (s.sender p).pc = .send msgid k) :
      Move room s (.msgsndFails p) (s.setSender p ((s.sender p).msgsndFailed msgid k))
  | receiverGet {q : Nat} (hPc : (s.receiver q).pc = .start) :
      Move room s (.receiverGet q)
        { s.setReceiver q { s.receiver q with pc := .stat s.kernel.msgget.1 } with
          kernel := s.kernel.msgget.2 }
  | receiverGetFails {q : Nat} (hPc : (s.receiver q).pc = .start) :
      Move room s (.receiverGetFails q) (s.setReceiver q { s.receiver q with pc := .exit (-1) })
  | ipcStat {q msgid : Nat} {pc : ReceiverPc} (hPc : GoesOn (s.receiver q).pc msgid pc) :
      Move room s (.ipcStat q) (s.setReceiver q
        { (s.receiver q).ipcStat ((s.kernel.waiting msgid).map List.length) with pc := pc })
  | ipcStatFails {q msgid : Nat} {pc : ReceiverPc} (hPc : GoesOn (s.receiver q).pc msgid pc) :
      Move room s (.ipcStatFails q)
        (s.setReceiver q { (s.receiver q).ipcStat none with pc := pc })
  | msgrcv {q msgid count : Nat} {entry : Entry} {entries : List Entry} {text : List UInt8}
      (hPc : (s.receiver q).pc = .receive msgid count)
      (hThere : s.kernel.waiting msgid = some (entry :: entries))
      (hText : entry.msg.print = some text) :
      Move room s (.msgrcv q)
        { s.setReceiver q { s.receiver q with
            pc := .received msgid count
            texts := (s.receiver q).texts ++ [text] } with
          kernel := s.kernel.put msgid entries
          taken := Function.update s.taken msgid (s.taken msgid ++ [(q, entry)]) }
  | msgrcvFails {q msgid count : Nat} (hPc : (s.receiver q).pc = .receive msgid count) :
      Move room s (.msgrcvFails q) (s.setReceiver q { s.receiver q with pc := .exit (-1) })
  | ipcRmid {q msgid : Nat} (hPc : (s.receiver q).pc = .remove msgid) :
      Move room s (.ipcRmid q)
        { s.setReceiver q { s.receiver q with pc := .exit 0 } with
          kernel := s.kernel.rmid msgid
          discarded := Function.update s.discarded msgid
            (s.discarded msgid ++ (s.kernel.waiting msgid).getD []) }
  | ipcRmidFails {q msgid : Nat} (hPc : (s.receiver q).pc = .remove msgid) :
      Move room s (.ipcRmidFails q)
        (s.setReceiver q { s.receiver q with pc := .exit 0, kept := true })

theorem step_move (h : step room s a = some s') : Move room s a s' := by
  cases a with
  | senderGet p =>
      cases hPc : (s.sender p).pc with
      | start =>
          simp only [step, hPc, Option.some.injEq] at h
          subst h
          exact .senderGet hPc
      | send _ _ | exit _ => simp [step, hPc] at h
  | senderGetFails p =>
      cases hPc : (s.sender p).pc with
      | start =>
          simp only [step, hPc, Option.some.injEq] at h
          subst h
          exact .senderGetFails hPc
      | send _ _ | exit _ => simp [step, hPc] at h
  | msgsnd p =>
      cases hPc : (s.sender p).pc with
      | start | exit _ => simp [step, hPc] at h
      | send msgid k =>
          cases hThere : s.kernel.waiting msgid with
          | none => simp [step, hPc, hThere] at h
          | some entries =>
              by_cases hRoom : entries.length < room
              · simp only [step, hPc, hThere, if_pos hRoom, Option.some.injEq] at h
                subst h
                exact .msgsnd hPc hThere hRoom
              · simp [step, hPc, hThere, hRoom] at h
  | msgsndFails p =>
      cases hPc : (s.sender p).pc with
      | start | exit _ => simp [step, hPc] at h
      | send msgid k =>
          simp only [step, hPc, Option.some.injEq] at h
          subst h
          exact .msgsndFails hPc
  | receiverGet q =>
      cases hPc : (s.receiver q).pc with
      | start =>
          simp only [step, hPc, Option.some.injEq] at h
          subst h
          exact .receiverGet hPc
      | stat _ | receive _ _ | received _ _ | remove _ | exit _ => simp [step, hPc] at h
  | receiverGetFails q =>
      cases hPc : (s.receiver q).pc with
      | start =>
          simp only [step, hPc, Option.some.injEq] at h
          subst h
          exact .receiverGetFails hPc
      | stat _ | receive _ _ | received _ _ | remove _ | exit _ => simp [step, hPc] at h
  | ipcStat q =>
      obtain ⟨q', hGoOn, rfl⟩ := Option.map_eq_some_iff.mp h
      obtain ⟨msgid, pc, hPc, rfl⟩ := goOn_eq_some hGoOn
      exact .ipcStat hPc
  | ipcStatFails q =>
      obtain ⟨q', hGoOn, rfl⟩ := Option.map_eq_some_iff.mp h
      obtain ⟨msgid, pc, hPc, rfl⟩ := goOn_eq_some hGoOn
      exact .ipcStatFails hPc
  | msgrcv q =>
      cases hPc : (s.receiver q).pc with
      | receive msgid count =>
          cases hThere : s.kernel.waiting msgid with
          | none => simp [step, hPc, hThere] at h
          | some entries =>
              cases entries with
              | nil => simp [step, hPc, hThere] at h
              | cons entry entries =>
                  simp only [step, hPc, hThere, Option.bind_eq_bind, Option.bind_eq_some_iff,
                    Option.some.injEq] at h
                  obtain ⟨text, hText, rfl⟩ := h
                  exact .msgrcv hPc hThere hText
      | start | stat _ | received _ _ | remove _ | exit _ => simp [step, hPc] at h
  | msgrcvFails q =>
      cases hPc : (s.receiver q).pc with
      | receive msgid count =>
          simp only [step, hPc, Option.some.injEq] at h
          subst h
          exact .msgrcvFails hPc
      | start | stat _ | received _ _ | remove _ | exit _ => simp [step, hPc] at h
  | ipcRmid q =>
      cases hPc : (s.receiver q).pc with
      | remove msgid =>
          simp only [step, hPc, Option.some.injEq] at h
          subst h
          exact .ipcRmid hPc
      | start | stat _ | receive _ _ | received _ _ | exit _ => simp [step, hPc] at h
  | ipcRmidFails q =>
      cases hPc : (s.receiver q).pc with
      | remove msgid =>
          simp only [step, hPc, Option.ite_none_left_eq_some, Option.some.injEq] at h
          obtain ⟨-, rfl⟩ := h
          exact .ipcRmidFails hPc
      | start | stat _ | receive _ _ | received _ _ | exit _ => simp [step, hPc] at h

/-! ## The buffer -/

/-- The buffer holds the `k`-th message. -/
structure Ready (m : Msgbuf) (k : Nat) : Prop where
  mtype : m.mtype = k
  text : m.print = some (messageText k)

/-- **The text of a message** is printed as it was written, whatever the buffer
held before. -/
theorem ready_fill (m : Msgbuf) {k : Nat} (hLe : k ≤ 3) : Ready (m.fill k) k := by
  refine ⟨rfl, ?_⟩
  have hLast : 48 + UInt8.ofNat k ≠ 0 := by
    interval_cases k <;> decide
  have hText : ∀ b ∈ messageText k, b ≠ 0 := by
    simp [messageText, hLast]
  have hTake : (m.fill k).mtext.takeWhile (· ≠ 0) = messageText k := by
    show (messageText k ++ 0 :: _).takeWhile (· ≠ 0) = messageText k
    rw [List.takeWhile_append_of_pos (by simpa using hText)]
    simp
  have hMem : 0 ∈ (m.fill k).mtext := by
    show 0 ∈ messageText k ++ 0 :: _
    simp
  unfold Msgbuf.print
  rw [if_pos hMem, hTake]

/-- One of the three messages of a sender. -/
def Genuine (e : Entry) : Prop :=
  ∃ k, 1 ≤ k ∧ k ≤ 3 ∧ Ready e.msg k

/-- The text that belongs to the type of a message. -/
def textOf (e : Entry) : List UInt8 :=
  messageText e.msg.mtype.toNat

theorem Genuine.print {e : Entry} (h : Genuine e) : e.msg.print = some (textOf e) := by
  obtain ⟨k, -, -, hReady⟩ := h
  unfold textOf
  rw [hReady.text, hReady.mtype, Int.toNat_natCast]

/-! ## The queues -/

structure QueueInv (s : State) : Prop where
  ledger : ∀ id, s.accepted id =
    (s.taken id).map Prod.snd ++ ((s.kernel.waiting id).getD [] ++ s.discarded id)
  lost : ∀ id, s.kernel.waiting id ≠ none → s.discarded id = []
  fresh : ∀ id, s.kernel.nextId ≤ id → s.kernel.waiting id = none ∧ s.accepted id = []
  genuine : ∀ id, ∀ e ∈ s.accepted id, Genuine e

theorem queueInv_start (stack : Nat → Msgbuf) : QueueInv (start stack) where
  ledger _ := rfl
  lost _ _ := rfl
  fresh _ _ := ⟨rfl, rfl⟩
  genuine _ _ hMem := by simp [start] at hMem

/-- The calls that do not touch a message. -/
theorem QueueInv.congr (h : QueueInv s) (hKernel : s'.kernel = s.kernel)
    (hAccepted : s'.accepted = s.accepted) (hTaken : s'.taken = s.taken)
    (hDiscarded : s'.discarded = s.discarded) : QueueInv s' := by
  refine ⟨fun id => ?_, fun id => ?_, fun id => ?_, fun id => ?_⟩
  · rw [hKernel, hAccepted, hTaken, hDiscarded]
    exact h.ledger id
  · rw [hKernel, hDiscarded]
    exact h.lost id
  · rw [hKernel, hAccepted]
    exact h.fresh id
  · rw [hAccepted]
    exact h.genuine id

/-- Nothing has happened to a queue that is not there yet. -/
theorem QueueInv.untouched (h : QueueInv s) {id : Nat} (hId : s.kernel.nextId ≤ id) :
    s.taken id = [] ∧ s.discarded id = [] := by
  obtain ⟨hWaiting, hAccepted⟩ := h.fresh id hId
  have hLedger := h.ledger id
  rw [hAccepted, hWaiting] at hLedger
  have hParts := List.append_eq_nil_iff.mp hLedger.symm
  exact ⟨List.map_eq_nil_iff.mp hParts.1, by simpa using hParts.2⟩

theorem QueueInv.msgget (h : QueueInv s) (hKernel : s'.kernel = s.kernel.msgget.2)
    (hAccepted : s'.accepted = s.accepted) (hTaken : s'.taken = s.taken)
    (hDiscarded : s'.discarded = s.discarded) : QueueInv s' := by
  have hWaiting : ∀ id, (s'.kernel.waiting id).getD [] = (s.kernel.waiting id).getD [] := by
    intro id
    rw [hKernel, waiting_msgget]
    split
    · rename_i hNew
      rw [(h.fresh id hNew.2.ge).1]
      rfl
    · rfl
  refine ⟨fun id => ?_, fun id hThere => ?_, fun id hId => ?_, fun id => ?_⟩
  · rw [hWaiting, hAccepted, hTaken, hDiscarded]
    exact h.ledger id
  · rw [hDiscarded]
    rw [hKernel, waiting_msgget] at hThere
    split at hThere
    · rename_i hNew
      exact (h.untouched hNew.2.ge).2
    · exact h.lost id hThere
  · have hOld : s.kernel.nextId ≤ id :=
      Nat.le_trans (msgget_nextId s.kernel) (hKernel ▸ hId)
    rw [hKernel, waiting_msgget, hAccepted, if_neg]
    · exact h.fresh id hOld
    · rintro ⟨hNone, rfl⟩
      rw [hKernel] at hId
      simp [Kernel.msgget, hNone] at hId
  · rw [hAccepted]
    exact h.genuine id

theorem put_nextId (k : Kernel) (msgid : Nat) (entries : List Entry) :
    (k.put msgid entries).nextId = k.nextId := rfl

theorem QueueInv.ne_of_there (h : QueueInv s) {msgid id : Nat} {entries : List Entry}
    (hThere : s.kernel.waiting msgid = some entries) (hId : s.kernel.nextId ≤ id) :
    id ≠ msgid := by
  rintro rfl
  have hNone := (h.fresh id hId).1
  rw [hThere] at hNone
  simp at hNone

/-- `msgsnd` puts a message at the end. -/
theorem QueueInv.accept (h : QueueInv s) {msgid : Nat} {entries : List Entry} {entry : Entry}
    (hThere : s.kernel.waiting msgid = some entries) (hGenuine : Genuine entry)
    (hKernel : s'.kernel = s.kernel.put msgid (entries ++ [entry]))
    (hAccepted : s'.accepted =
      Function.update s.accepted msgid (s.accepted msgid ++ [entry]))
    (hTaken : s'.taken = s.taken) (hDiscarded : s'.discarded = s.discarded) : QueueInv s' := by
  have hKept : s.discarded msgid = [] := h.lost msgid (by simp [hThere])
  refine ⟨fun id => ?_, fun id hIs => ?_, fun id hId => ?_, fun id e hMem => ?_⟩
  · rw [hKernel, waiting_put hThere, hAccepted, hTaken, hDiscarded]
    by_cases hEq : id = msgid
    · subst hEq
      have hLedger := h.ledger id
      rw [hThere, hKept] at hLedger
      rw [Function.update_self, if_pos rfl, hKept, hLedger]
      simp
    · rw [Function.update_of_ne hEq, if_neg hEq]
      exact h.ledger id
  · rw [hDiscarded]
    rw [hKernel, waiting_put hThere] at hIs
    by_cases hEq : id = msgid
    · rw [hEq, hKept]
    · rw [if_neg hEq] at hIs
      exact h.lost id hIs
  · rw [hKernel, put_nextId] at hId
    have hOld := h.fresh id hId
    have hNe := h.ne_of_there hThere hId
    rw [hKernel, waiting_put hThere, hAccepted, Function.update_of_ne hNe, if_neg hNe]
    exact hOld
  · rw [hAccepted] at hMem
    by_cases hEq : id = msgid
    · subst hEq
      rw [Function.update_self] at hMem
      rcases List.mem_append.mp hMem with hOld | hNew
      · exact h.genuine id e hOld
      · exact List.mem_singleton.mp hNew ▸ hGenuine
    · rw [Function.update_of_ne hEq] at hMem
      exact h.genuine id e hMem

/-- `msgrcv` takes the first message. -/
theorem QueueInv.take (h : QueueInv s) {q msgid : Nat} {entry : Entry} {entries : List Entry}
    (hThere : s.kernel.waiting msgid = some (entry :: entries))
    (hKernel : s'.kernel = s.kernel.put msgid entries) (hAccepted : s'.accepted = s.accepted)
    (hTaken : s'.taken = Function.update s.taken msgid (s.taken msgid ++ [(q, entry)]))
    (hDiscarded : s'.discarded = s.discarded) : QueueInv s' := by
  have hKept : s.discarded msgid = [] := h.lost msgid (by simp [hThere])
  refine ⟨fun id => ?_, fun id hIs => ?_, fun id hId => ?_, fun id e hMem => ?_⟩
  · rw [hKernel, waiting_put hThere, hAccepted, hTaken, hDiscarded]
    by_cases hEq : id = msgid
    · subst hEq
      have hLedger := h.ledger id
      rw [hThere] at hLedger
      rw [Function.update_self, if_pos rfl, hLedger]
      simp
    · rw [Function.update_of_ne hEq, if_neg hEq]
      exact h.ledger id
  · rw [hDiscarded]
    rw [hKernel, waiting_put hThere] at hIs
    by_cases hEq : id = msgid
    · rw [hEq, hKept]
    · rw [if_neg hEq] at hIs
      exact h.lost id hIs
  · rw [hKernel, put_nextId] at hId
    have hOld := h.fresh id hId
    have hNe := h.ne_of_there hThere hId
    rw [hKernel, waiting_put hThere, hAccepted, if_neg hNe]
    exact hOld
  · rw [hAccepted] at hMem
    exact h.genuine id e hMem

/-- `IPC_RMID` loses what waits. -/
theorem QueueInv.remove (h : QueueInv s) {msgid : Nat}
    (hKernel : s'.kernel = s.kernel.rmid msgid) (hAccepted : s'.accepted = s.accepted)
    (hTaken : s'.taken = s.taken)
    (hDiscarded : s'.discarded = Function.update s.discarded msgid
      (s.discarded msgid ++ (s.kernel.waiting msgid).getD [])) : QueueInv s' := by
  refine ⟨fun id => ?_, fun id hIs => ?_, fun id hId => ?_, fun id e hMem => ?_⟩
  · rw [hKernel, waiting_rmid, hAccepted, hTaken, hDiscarded]
    by_cases hEq : id = msgid
    · subst hEq
      rw [Function.update_self, if_pos rfl, h.ledger id]
      cases hThere : s.kernel.waiting id with
      | none => simp
      | some entries =>
          rw [h.lost id (by simp [hThere])]
          simp
    · rw [Function.update_of_ne hEq, if_neg hEq]
      exact h.ledger id
  · rw [hKernel, waiting_rmid] at hIs
    by_cases hEq : id = msgid
    · simp [hEq] at hIs
    · rw [if_neg hEq] at hIs
      rw [hDiscarded, Function.update_of_ne hEq]
      exact h.lost id hIs
  · rw [hKernel, rmid_nextId] at hId
    have hOld := h.fresh id hId
    rw [hKernel, waiting_rmid, hAccepted]
    refine ⟨?_, hOld.2⟩
    split
    · rfl
    · exact hOld.1
  · rw [hAccepted] at hMem
    exact h.genuine id e hMem

/-- A removed queue does not come back, and nothing happens to it. -/
theorem gone_move {msgid : Nat} (hOld : msgid < s.kernel.nextId)
    (hGone : s.kernel.waiting msgid = none) (hMove : Move room s a s') :
    msgid < s'.kernel.nextId ∧ s'.kernel.waiting msgid = none ∧
      s'.accepted msgid = s.accepted msgid ∧ s'.taken msgid = s.taken msgid ∧
        s'.discarded msgid = s.discarded msgid := by
  have hGet : s.kernel.msgget.2.waiting msgid = none := by
    rw [waiting_msgget, if_neg]
    · exact hGone
    · rintro ⟨-, rfl⟩
      exact absurd hOld (Nat.lt_irrefl _)
  cases hMove with
  | senderGet hPc => exact ⟨Nat.lt_of_lt_of_le hOld (msgget_nextId _), hGet, rfl, rfl, rfl⟩
  | receiverGet hPc => exact ⟨Nat.lt_of_lt_of_le hOld (msgget_nextId _), hGet, rfl, rfl, rfl⟩
  | senderGetFails _ | msgsndFails _ | receiverGetFails _ | ipcStat _ | ipcStatFails _
  | msgrcvFails _ | ipcRmidFails _ => exact ⟨hOld, hGone, rfl, rfl, rfl⟩
  | @msgsnd p id k entries hPc hThere _ =>
      have hNe : msgid ≠ id := by
        rintro rfl
        simp [hGone] at hThere
      refine ⟨hOld, ?_, Function.update_of_ne hNe _ _, rfl, rfl⟩
      show (s.kernel.put id _).waiting msgid = none
      rw [waiting_put hThere, if_neg hNe]
      exact hGone
  | @msgrcv q id count entry entries text hPc hThere _ =>
      have hNe : msgid ≠ id := by
        rintro rfl
        simp [hGone] at hThere
      refine ⟨hOld, ?_, rfl, Function.update_of_ne hNe _ _, rfl⟩
      show (s.kernel.put id _).waiting msgid = none
      rw [waiting_put hThere, if_neg hNe]
      exact hGone
  | @ipcRmid q id hPc =>
      refine ⟨(rmid_nextId s.kernel id).symm ▸ hOld, ?_, rfl, rfl, ?_⟩
      · show (s.kernel.rmid id).waiting msgid = none
        rw [waiting_rmid, hGone]
        split <;> rfl
      · show Function.update s.discarded id _ msgid = s.discarded msgid
        by_cases hEq : msgid = id
        · subst hEq
          rw [Function.update_self, hGone]
          simp
        · rw [Function.update_of_ne hEq]

/-! ## The processes -/

/-- The messages of a sender that a queue has accepted. -/
def State.sentBy (s : State) (p id : Nat) : List Entry :=
  (s.accepted id).filter fun e => e.author = p

/-- The messages that a receiver has taken from a queue. -/
def State.readBy (s : State) (q id : Nat) : List Entry :=
  ((s.taken id).filter fun r => r.1 = q).map Prod.snd

/-- Where a sender is behind `n` calls of `msgsnd`. -/
inductive SenderAt (msgid : Nat) (m : Msgbuf) : SenderPc → Nat → Prop
  | start : SenderAt msgid m .start 0
  | send {n : Nat} (hLt : n < 3) (hReady : Ready m (n + 1)) :
      SenderAt msgid m (.send msgid (n + 1)) n
  | done : SenderAt msgid m (.exit 0) 3
  | failed : SenderAt msgid m (.exit (-1)) 0

theorem SenderAt.le {msgid n : Nat} {m : Msgbuf} {pc : SenderPc} (h : SenderAt msgid m pc n) :
    n ≤ 3 := by
  cases h <;> omega

def mtypes (entries : List Entry) : List Int :=
  entries.map fun e => e.msg.mtype

/-- The types 1, …, `n`. -/
def firstTypes (n : Nat) : List Int :=
  (List.range n).map fun i : Nat => (i : Int) + 1

theorem firstTypes_succ (n : Nat) : firstTypes (n + 1) = firstTypes n ++ [(n : Int) + 1] := by
  unfold firstTypes
  rw [List.range_succ, List.map_append]
  rfl

structure SenderInv (s : State) (p msgid n : Nat) : Prop where
  place : SenderAt msgid (s.sender p).msgbuf (s.sender p).pc n
  elsewhere : ∀ id ≠ msgid, s.sentBy p id = []
  types : (mtypes (s.sentBy p msgid)).Sublist (firstTypes n)
  first : 0 < n → 1 ∈ mtypes (s.sentBy p msgid)

theorem senderInv_start (stack : Nat → Msgbuf) (p : Nat) : SenderInv (start stack) p 0 0 where
  place := .start
  elsewhere _ _ := rfl
  types := List.Sublist.refl []
  first h := absurd h (Nat.lt_irrefl 0)

theorem SenderInv.congr {p msgid n : Nat} (h : SenderInv s p msgid n)
    (hSender : s'.sender p = s.sender p) (hSent : ∀ id, s'.sentBy p id = s.sentBy p id) :
    SenderInv s' p msgid n := by
  refine ⟨hSender ▸ h.place, fun id hNe => ?_, ?_, fun hPos => ?_⟩
  · rw [hSent]
    exact h.elsewhere id hNe
  · rw [hSent]
    exact h.types
  · rw [hSent]
    exact h.first hPos

theorem SenderInv.sent_of_zero {p msgid : Nat} (h : SenderInv s p msgid 0) (id : Nat) :
    s.sentBy p id = [] := by
  by_cases hEq : id = msgid
  · exact List.map_eq_nil_iff.mp (List.sublist_nil.mp (hEq ▸ h.types))
  · exact h.elsewhere id hEq

/-- Nothing has been sent yet. -/
theorem SenderInv.restart {p msgid : Nat} (h : SenderInv s p msgid 0) {msgid' : Nat}
    (hAt : SenderAt msgid' (s'.sender p).msgbuf (s'.sender p).pc 0)
    (hAccepted : s'.accepted = s.accepted) :
    SenderInv s' p msgid' 0 := by
  have hNone : ∀ id, s'.sentBy p id = [] := by
    intro id
    unfold State.sentBy
    rw [hAccepted]
    exact h.sent_of_zero id
  refine ⟨hAt, fun id _ => hNone id, ?_, fun hPos => absurd hPos (Nat.lt_irrefl 0)⟩
  rw [hNone]
  exact List.nil_sublist _

theorem senderAt_goOn {msgid n : Nat} (p : Sender) (hLt : n < 3) :
    SenderAt msgid (p.goOn msgid (n + 1)).msgbuf (p.goOn msgid (n + 1)).pc (n + 1) := by
  unfold Sender.goOn
  split
  · rename_i hMore
    exact .send hMore (ready_fill p.msgbuf hMore)
  · obtain rfl : n = 2 := by omega
    exact .done

theorem setSender_self (s : State) (p : Nat) (sender : Sender) :
    (s.setSender p sender).sender p = sender :=
  Function.update_self _ _ _

/-- The sender that a step is about. -/
def Action.sender : Action → Option Nat
  | .senderGet p | .senderGetFails p | .msgsnd p | .msgsndFails p => some p
  | _ => none

/-- The receiver that a step is about. -/
def Action.receiver : Action → Option Nat
  | .receiverGet q | .receiverGetFails q | .ipcStat q | .ipcStatFails q | .msgrcv q
  | .msgrcvFails q | .ipcRmid q | .ipcRmidFails q => some q
  | _ => none

/-- A step of another process. -/
theorem SenderInv.frame {p msgid n : Nat} (h : SenderInv s p msgid n)
    (hOther : a.sender ≠ some p) (hMove : Move room s a s') : SenderInv s' p msgid n := by
  cases hMove with
  | senderGet _ | senderGetFails _ | msgsndFails _ =>
      refine h.congr (Function.update_of_ne ?_ _ _) fun _ => rfl
      rintro rfl
      exact hOther rfl
  | @msgsnd p' id k entries _ _ _ =>
      have hNe : p ≠ p' := by
        rintro rfl
        exact hOther rfl
      refine h.congr (Function.update_of_ne hNe _ _) fun id' => ?_
      show (Function.update s.accepted id _ id').filter _ = _
      by_cases hEq : id' = id
      · subst hEq
        rw [Function.update_self, List.filter_append]
        simp [State.sentBy, hNe.symm]
      · rw [Function.update_of_ne hEq]
        rfl
  | receiverGet _ | receiverGetFails _ | ipcStat _ | ipcStatFails _ | msgrcv _ _ _
  | msgrcvFails _ | ipcRmid _ | ipcRmidFails _ => exact h.congr rfl fun _ => rfl

/-- A message accepted is one message more of its sender. -/
theorem sentBy_accept {p msgid : Nat} {m : Msgbuf}
    (hAccepted : s'.accepted = Function.update s.accepted msgid (s.accepted msgid ++ [⟨p, m⟩]))
    (id : Nat) :
    s'.sentBy p id = if id = msgid then s.sentBy p msgid ++ [⟨p, m⟩] else s.sentBy p id := by
  unfold State.sentBy
  rw [hAccepted]
  by_cases hSame : id = msgid
  · subst hSame
    rw [Function.update_self, if_pos rfl, List.filter_append]
    simp
  · rw [Function.update_of_ne hSame, if_neg hSame]

/-- The next message of a sender is accepted. -/
theorem SenderInv.accept {p msgid n : Nat} (h : SenderInv s p msgid n) {m : Msgbuf}
    (hReady : Ready m (n + 1))
    (hAt : SenderAt msgid (s'.sender p).msgbuf (s'.sender p).pc (n + 1))
    (hAccepted : s'.accepted =
      Function.update s.accepted msgid (s.accepted msgid ++ [⟨p, m⟩])) :
    SenderInv s' p msgid (n + 1) := by
  have hSent := sentBy_accept hAccepted
  have hType : ∀ l : List Entry, mtypes (l ++ [⟨p, m⟩]) = mtypes l ++ [(n : Int) + 1] := by
    intro l
    unfold mtypes
    rw [List.map_append]
    simp [hReady.mtype]
  refine ⟨hAt, fun l hNe => ?_, ?_, fun _ => ?_⟩
  · rw [hSent, if_neg hNe]
    exact h.elsewhere l hNe
  · rw [hSent, if_pos rfl, hType, firstTypes_succ]
    exact h.types.append (List.Sublist.refl _)
  · rw [hSent, if_pos rfl, hType]
    rcases Nat.eq_zero_or_pos n with rfl | hPos
    · simp
    · exact List.mem_append_left _ (h.first hPos)

/-- **A step of the sender itself.** -/
theorem SenderInv.move {p msgid n : Nat} (h : SenderInv s p msgid n)
    (hOwn : a.sender = some p) (hMove : Move room s a s') :
    ∃ msgid' n', SenderInv s' p msgid' n' := by
  have hAt := h.place
  cases hMove with
  | @senderGet p' hPc =>
      obtain rfl : p' = p := Option.some.inj hOwn
      rw [hPc] at hAt
      cases hAt with
      | start =>
          refine ⟨s.kernel.msgget.1, 0, h.restart ?_ rfl⟩
          show SenderAt _ ((s.setSender p' _).sender p').msgbuf _ 0
          rw [setSender_self]
          exact .send (by decide) (ready_fill _ (by decide))
  | @senderGetFails p' hPc =>
      obtain rfl : p' = p := Option.some.inj hOwn
      rw [hPc] at hAt
      cases hAt with
      | start =>
          refine ⟨msgid, 0, h.restart ?_ rfl⟩
          rw [setSender_self]
          exact .failed
  | @msgsnd p' id k entries hPc hThere _ =>
      obtain rfl : p' = p := Option.some.inj hOwn
      rw [hPc] at hAt
      cases hAt with
      | send hLt hReady =>
          refine ⟨msgid, n + 1, h.accept hReady ?_ rfl⟩
          show SenderAt _ ((s.setSender p' _).sender p').msgbuf _ _
          rw [setSender_self]
          exact senderAt_goOn _ hLt
  | @msgsndFails p' id k hPc =>
      obtain rfl : p' = p := Option.some.inj hOwn
      rw [hPc] at hAt
      cases hAt with
      | send hLt hReady =>
          rcases Nat.eq_zero_or_pos n with rfl | hPos
          · refine ⟨msgid, 0, h.restart ?_ rfl⟩
            rw [setSender_self]
            exact .failed
          -- the answer of the second and the third call is not looked at
          · refine ⟨msgid, n + 1, ?_, h.elsewhere, ?_, fun _ => h.first hPos⟩
            · rw [setSender_self]
              unfold Sender.msgsndFailed
              rw [if_neg (by omega)]
              exact senderAt_goOn _ hLt
            · rw [firstTypes_succ]
              exact h.types.trans (List.sublist_append_left _ _)
  | receiverGet _ | receiverGetFails _ | ipcStat _ | ipcStatFails _ | msgrcv _ _ _
  | msgrcvFails _ | ipcRmid _ | ipcRmidFails _ => simp [Action.sender] at hOwn

/-- Where a receiver is behind `n` messages. -/
inductive ReceiverAt (msgid : Nat) : ReceiverPc → Nat → Prop
  | start : ReceiverAt msgid .start 0
  | stat : ReceiverAt msgid (.stat msgid) 0
  | receive {n : Nat} (hLt : n < 3) : ReceiverAt msgid (.receive msgid n) n
  | received {n : Nat} (hLt : n < 3) : ReceiverAt msgid (.received msgid n) (n + 1)
  | remove : ReceiverAt msgid (.remove msgid) 3
  | done : ReceiverAt msgid (.exit 0) 3
  | failed {n : Nat} (hLt : n < 3) : ReceiverAt msgid (.exit (-1)) n

theorem ReceiverAt.le {msgid n : Nat} {pc : ReceiverPc} (h : ReceiverAt msgid pc n) :
    n ≤ 3 := by
  cases h <;> omega

structure ReceiverInv (s : State) (q msgid n : Nat) : Prop where
  place : ReceiverAt msgid (s.receiver q).pc n
  elsewhere : ∀ id ≠ msgid, s.readBy q id = []
  texts : (s.receiver q).texts = (s.readBy q msgid).map textOf
  count : (s.readBy q msgid).length = n
  known : (s.receiver q).pc ≠ .start → (s.receiver q).pc ≠ .exit (-1) →
    msgid < s.kernel.nextId
  gone : (s.receiver q).pc = .exit 0 → (s.receiver q).kept = false →
    s.kernel.waiting msgid = none

theorem receiverInv_start (stack : Nat → Msgbuf) (q : Nat) :
    ReceiverInv (start stack) q 0 0 where
  place := .start
  elsewhere _ _ := rfl
  texts := rfl
  count := rfl
  known h := absurd rfl h
  gone h := by simp [start] at h

theorem nextId_move (hMove : Move room s a s') : s.kernel.nextId ≤ s'.kernel.nextId := by
  cases hMove with
  | senderGet _ | receiverGet _ => exact msgget_nextId s.kernel
  | ipcRmid _ => exact (rmid_nextId s.kernel _).ge
  | senderGetFails _ | msgsnd _ _ _ | msgsndFails _ | receiverGetFails _ | ipcStat _
  | ipcStatFails _ | msgrcv _ _ _ | msgrcvFails _ | ipcRmidFails _ => exact Nat.le_refl _

/-- A queue that is not there stays away, unless its id is new. -/
theorem waiting_none_move {msgid : Nat} (hOld : msgid < s.kernel.nextId)
    (hGone : s.kernel.waiting msgid = none) (hMove : Move room s a s') :
    s'.kernel.waiting msgid = none :=
  (gone_move hOld hGone hMove).2.1

/-- A step of another process. -/
theorem ReceiverInv.frame {q msgid n : Nat} (h : ReceiverInv s q msgid n)
    (hOther : a.receiver ≠ some q) (hMove : Move room s a s') : ReceiverInv s' q msgid n := by
  have hSame : s'.receiver q = s.receiver q ∧ ∀ id, s'.readBy q id = s.readBy q id := by
    cases hMove with
    | receiverGet _ | receiverGetFails _ | ipcStat _ | ipcStatFails _ | msgrcvFails _
    | ipcRmid _ | ipcRmidFails _ =>
        refine ⟨Function.update_of_ne ?_ _ _, fun _ => rfl⟩
        rintro rfl
        exact hOther rfl
    | @msgrcv q' msgid' count entry entries text _ _ _ =>
        have hNe : q ≠ q' := by
          rintro rfl
          exact hOther rfl
        refine ⟨Function.update_of_ne hNe _ _, fun id => ?_⟩
        show ((Function.update s.taken msgid' _ id).filter _).map _ = _
        by_cases hEq : id = msgid'
        · subst hEq
          rw [Function.update_self, List.filter_append]
          simp [State.readBy, hNe.symm]
        · rw [Function.update_of_ne hEq]
          rfl
    | senderGet _ | senderGetFails _ | msgsnd _ _ _ | msgsndFails _ => exact ⟨rfl, fun _ => rfl⟩
  obtain ⟨hReceiver, hRead⟩ := hSame
  refine ⟨hReceiver ▸ h.place, fun id hNe => ?_, ?_, ?_, fun hStart hFailed => ?_,
    fun hDone hKept => ?_⟩
  · rw [hRead]
    exact h.elsewhere id hNe
  · rw [hReceiver, hRead]
    exact h.texts
  · rw [hRead]
    exact h.count
  · rw [hReceiver] at hStart hFailed
    exact Nat.lt_of_lt_of_le (h.known hStart hFailed) (nextId_move hMove)
  · rw [hReceiver] at hDone hKept
    refine waiting_none_move (h.known ?_ ?_) (h.gone hDone hKept) hMove
    · simp [hDone]
    · simp [hDone]

theorem setReceiver_self (s : State) (q : Nat) (receiver : Receiver) :
    (s.setReceiver q receiver).receiver q = receiver :=
  Function.update_self _ _ _

/-- A step of the receiver that takes no message. -/
theorem ReceiverInv.goOn {q msgid n : Nat} (h : ReceiverInv s q msgid n)
    (hAt : ReceiverAt msgid (s'.receiver q).pc n)
    (hTexts : (s'.receiver q).texts = (s.receiver q).texts) (hTaken : s'.taken = s.taken)
    (hKnown : msgid < s'.kernel.nextId ∨ (s'.receiver q).pc = .exit (-1))
    (hGone : (s'.receiver q).pc = .exit 0 → (s'.receiver q).kept = false →
      s'.kernel.waiting msgid = none) :
    ReceiverInv s' q msgid n := by
  have hRead : ∀ id, s'.readBy q id = s.readBy q id := by
    intro id
    unfold State.readBy
    rw [hTaken]
  refine ⟨hAt, fun id hNe => ?_, ?_, ?_, fun _ hFailed => hKnown.resolve_right hFailed, hGone⟩
  · rw [hRead]
    exact h.elsewhere id hNe
  · rw [hTexts, hRead]
    exact h.texts
  · rw [hRead]
    exact h.count

theorem ReceiverInv.read_of_zero {q msgid : Nat} (h : ReceiverInv s q msgid 0) (id : Nat) :
    s.readBy q id = [] := by
  by_cases hEq : id = msgid
  · exact List.length_eq_zero_iff.mp (hEq ▸ h.count)
  · exact h.elsewhere id hEq

/-- A message taken is one message more of its reader. -/
theorem readBy_take {q msgid : Nat} {entry : Entry}
    (hTaken : s'.taken = Function.update s.taken msgid (s.taken msgid ++ [(q, entry)]))
    (id : Nat) :
    s'.readBy q id = if id = msgid then s.readBy q msgid ++ [entry] else s.readBy q id := by
  unfold State.readBy
  rw [hTaken]
  by_cases hSame : id = msgid
  · subst hSame
    rw [Function.update_self, if_pos rfl, List.filter_append]
    simp
  · rw [Function.update_of_ne hSame, if_neg hSame]

/-- The next message is taken. -/
theorem ReceiverInv.take {q msgid n : Nat} (h : ReceiverInv s q msgid n) {entry : Entry}
    (hAt : ReceiverAt msgid (s'.receiver q).pc (n + 1))
    (hTexts : (s'.receiver q).texts = (s.receiver q).texts ++ [textOf entry])
    (hTaken : s'.taken = Function.update s.taken msgid (s.taken msgid ++ [(q, entry)]))
    (hKnown : msgid < s'.kernel.nextId) (hOpen : (s'.receiver q).pc ≠ .exit 0) :
    ReceiverInv s' q msgid (n + 1) := by
  have hRead := readBy_take hTaken
  refine ⟨hAt, fun id hNe => ?_, ?_, ?_, fun _ _ => hKnown, fun hDone => absurd hDone hOpen⟩
  · rw [hRead, if_neg hNe]
    exact h.elsewhere id hNe
  · rw [hTexts, hRead, if_pos rfl, List.map_append, h.texts]
    rfl
  · rw [hRead, if_pos rfl, List.length_append, h.count]
    rfl

/-- Behind `IPC_STAT`, whatever it has answered. -/
theorem ReceiverInv.stat {q msgid n id : Nat} {pc : ReceiverPc} (h : ReceiverInv s q msgid n)
    (hPc : GoesOn (s.receiver q).pc id pc) (answer : Option Nat) :
    ReceiverInv (s.setReceiver q { (s.receiver q).ipcStat answer with pc := pc }) q msgid n := by
  have hAt := h.place
  have hKnown : msgid < s.kernel.nextId := by
    apply h.known
    · rcases hPc with ⟨hPc, -⟩ | ⟨count, hPc, -⟩ <;> simp [hPc]
    · rcases hPc with ⟨hPc, -⟩ | ⟨count, hPc, -⟩ <;> simp [hPc]
  have hNext : ReceiverAt msgid pc n ∧ pc ≠ .exit 0 := by
    rcases hPc with ⟨hPc, rfl⟩ | ⟨count, hPc, rfl⟩
    · rw [hPc] at hAt
      cases hAt with
      | stat => exact ⟨.receive (by decide), by simp⟩
    · rw [hPc] at hAt
      cases hAt with
      | received hLt =>
          split
          · rename_i hLast
            rw [hLast]
            exact ⟨.remove, by simp⟩
          · exact ⟨.receive (by omega), by simp⟩
  refine h.goOn ?_ ?_ rfl (.inl hKnown) ?_
  · rw [setReceiver_self]
    exact hNext.1
  · rw [setReceiver_self]
    rfl
  · rw [setReceiver_self]
    exact fun hDone => absurd hDone hNext.2

/-- **A step of the receiver itself.** -/
theorem ReceiverInv.move {q msgid n : Nat} (h : ReceiverInv s q msgid n) (hQueue : QueueInv s)
    (hOwn : a.receiver = some q) (hMove : Move room s a s') :
    ∃ msgid' n', ReceiverInv s' q msgid' n' := by
  have hAt := h.place
  cases hMove with
  | @receiverGet q' hPc =>
      obtain rfl : q' = q := Option.some.inj hOwn
      rw [hPc] at hAt
      cases hAt with
      | start =>
          have hNone := h.read_of_zero
          have hSelf := setReceiver_self s q' { s.receiver q' with pc := .stat s.kernel.msgget.1 }
          have hText := h.texts
          rw [hNone msgid] at hText
          refine ⟨s.kernel.msgget.1, 0, ?_, fun id _ => hNone id, ?_, ?_, fun _ _ => ?_, ?_⟩
          · show ReceiverAt _ ((s.setReceiver q' _).receiver q').pc 0
            rw [hSelf]
            exact .stat
          · show ((s.setReceiver q' _).receiver q').texts = (s.readBy q' _).map textOf
            rw [hSelf, hNone]
            exact hText
          · show (s.readBy q' _).length = 0
            rw [hNone]
            rfl
          · by_contra hNot
            have hThere := msgget_there s.kernel
            rw [waiting_msgget] at hThere
            split at hThere
            · rename_i hNew
              apply hNot
              show s.kernel.msgget.1 < s.kernel.msgget.2.nextId
              rw [hNew.2]
              simp [Kernel.msgget, hNew.1]
            · exact hThere (hQueue.fresh _ (Nat.le_trans (msgget_nextId _) (not_lt.mp hNot))).1
          · show ((s.setReceiver q' _).receiver q').pc = .exit 0 → _
            rw [hSelf]
            simp
  | @receiverGetFails q' hPc =>
      obtain rfl : q' = q := Option.some.inj hOwn
      rw [hPc] at hAt
      cases hAt with
      | start =>
          refine ⟨msgid, 0, h.goOn ?_ ?_ rfl (.inr ?_) ?_⟩
          · rw [setReceiver_self]
            exact .failed (by decide)
          · rw [setReceiver_self]
          · rw [setReceiver_self]
          · rw [setReceiver_self]
            simp
  | @ipcStat q' id pc hPc =>
      obtain rfl : q' = q := Option.some.inj hOwn
      exact ⟨msgid, n, h.stat hPc _⟩
  | @ipcStatFails q' id pc hPc =>
      obtain rfl : q' = q := Option.some.inj hOwn
      exact ⟨msgid, n, h.stat hPc none⟩
  | @msgrcv q' id count entry entries text hPc hThere hText =>
      obtain rfl : q' = q := Option.some.inj hOwn
      have hKnown := h.known (by simp [hPc]) (by simp [hPc])
      rw [hPc] at hAt
      cases hAt with
      | receive hLt =>
          have hGenuine : Genuine entry := by
            refine hQueue.genuine msgid entry ?_
            rw [hQueue.ledger msgid, hThere]
            simp
          obtain rfl : text = textOf entry := Option.some.inj (hText.symm.trans hGenuine.print)
          refine ⟨msgid, n + 1, h.take ?_ ?_ rfl hKnown ?_⟩
          · show ReceiverAt _ ((s.setReceiver q' _).receiver q').pc _
            rw [setReceiver_self]
            exact .received hLt
          · show ((s.setReceiver q' _).receiver q').texts = _
            rw [setReceiver_self]
          · show ((s.setReceiver q' _).receiver q').pc ≠ .exit 0
            rw [setReceiver_self]
            simp
  | @msgrcvFails q' id count hPc =>
      obtain rfl : q' = q := Option.some.inj hOwn
      rw [hPc] at hAt
      cases hAt with
      | receive hLt =>
          refine ⟨msgid, n, h.goOn ?_ ?_ rfl (.inr ?_) ?_⟩
          · rw [setReceiver_self]
            exact .failed hLt
          · rw [setReceiver_self]
          · rw [setReceiver_self]
          · rw [setReceiver_self]
            simp
  | @ipcRmid q' id hPc =>
      obtain rfl : q' = q := Option.some.inj hOwn
      have hKnown := h.known (by simp [hPc]) (by simp [hPc])
      rw [hPc] at hAt
      cases hAt with
      | remove =>
          refine ⟨msgid, 3, h.goOn ?_ ?_ rfl (.inl ?_) fun _ _ => ?_⟩
          · show ReceiverAt _ ((s.setReceiver q' _).receiver q').pc 3
            rw [setReceiver_self]
            exact .done
          · show ((s.setReceiver q' _).receiver q').texts = _
            rw [setReceiver_self]
          · exact (rmid_nextId s.kernel msgid).symm ▸ hKnown
          · show (s.kernel.rmid msgid).waiting msgid = none
            rw [waiting_rmid, if_pos rfl]
  | @ipcRmidFails q' id hPc =>
      obtain rfl : q' = q := Option.some.inj hOwn
      have hKnown := h.known (by simp [hPc]) (by simp [hPc])
      rw [hPc] at hAt
      cases hAt with
      | remove =>
          refine ⟨msgid, 3, h.goOn ?_ ?_ rfl (.inl hKnown) fun _ hKept => ?_⟩
          · rw [setReceiver_self]
            exact .done
          · rw [setReceiver_self]
          · rw [setReceiver_self] at hKept
            simp at hKept
  | senderGet _ | senderGetFails _ | msgsnd _ _ _ | msgsndFails _ =>
      simp [Action.receiver] at hOwn

/-! ## All processes -/

structure AllInv (s : State) : Prop where
  queues : QueueInv s
  senders : ∀ p, ∃ msgid n, SenderInv s p msgid n
  receivers : ∀ q, ∃ msgid n, ReceiverInv s q msgid n

theorem queueInv_move (h : AllInv s) (hMove : Move room s a s') : QueueInv s' := by
  have hQueue := h.queues
  cases hMove with
  | senderGet _ | receiverGet _ => exact hQueue.msgget rfl rfl rfl rfl
  | senderGetFails _ | msgsndFails _ | receiverGetFails _ | ipcStat _ | ipcStatFails _
  | msgrcvFails _ | ipcRmidFails _ => exact hQueue.congr rfl rfl rfl rfl
  | @msgsnd p msgid k entries hPc hThere _ =>
      refine hQueue.accept hThere ?_ rfl rfl rfl rfl
      obtain ⟨id, n, hSender⟩ := h.senders p
      have hAt := hSender.place
      rw [hPc] at hAt
      cases hAt with
      | send hLt hReady => exact ⟨n + 1, by omega, by omega, hReady⟩
  | msgrcv _ hThere _ => exact hQueue.take hThere rfl rfl rfl rfl
  | ipcRmid _ => exact hQueue.remove rfl rfl rfl rfl

theorem allInv_step (h : AllInv s) (hStep : step room s a = some s') : AllInv s' := by
  have hMove := step_move hStep
  refine ⟨queueInv_move h hMove, fun p => ?_, fun q => ?_⟩
  · obtain ⟨msgid, n, hSender⟩ := h.senders p
    by_cases hOwn : a.sender = some p
    · exact hSender.move hOwn hMove
    · exact ⟨msgid, n, hSender.frame hOwn hMove⟩
  · obtain ⟨msgid, n, hReceiver⟩ := h.receivers q
    by_cases hOwn : a.receiver = some q
    · exact hReceiver.move h.queues hOwn hMove
    · exact ⟨msgid, n, hReceiver.frame hOwn hMove⟩

theorem allInv_start (stack : Nat → Msgbuf) : AllInv (start stack) where
  queues := queueInv_start stack
  senders p := ⟨0, 0, senderInv_start stack p⟩
  receivers q := ⟨0, 0, receiverInv_start stack q⟩

theorem allInv_reach {stack : Nat → Msgbuf} (h : Reachable (step room) (start stack) s) :
    AllInv s :=
  h.invariant (allInv_start stack) fun _ _ _ hInv _ hStep => allInv_step hInv hStep

/-- **Every message is accounted for.**  What a queue has accepted has been taken,
or waits, or was lost with the queue, in this order.  A sender has at most its
three messages accepted, in order and by one queue, and the first of them if it
ends well.  A receiver prints the texts of the messages that it takes from one
queue, at most three of them; if it ends well there are three, and the queue is
gone unless its `IPC_RMID` has failed on it. -/
theorem messages_accounted_for {stack : Nat → Msgbuf}
    (hReach : Reachable (step room) (start stack) s) :
    (∀ id, s.accepted id =
      (s.taken id).map Prod.snd ++ ((s.kernel.waiting id).getD [] ++ s.discarded id)) ∧
    (∀ p, ∃ msgid, (∀ id ≠ msgid, s.sentBy p id = []) ∧
      (mtypes (s.sentBy p msgid)).Sublist [1, 2, 3] ∧
      ((s.sender p).pc = .exit 0 → 1 ∈ mtypes (s.sentBy p msgid))) ∧
    ∀ q, ∃ msgid, (∀ id ≠ msgid, s.readBy q id = []) ∧
      (s.receiver q).texts = (s.readBy q msgid).map textOf ∧
      (s.readBy q msgid).length ≤ 3 ∧
      ((s.receiver q).pc = .exit 0 → (s.readBy q msgid).length = 3 ∧
        ((s.receiver q).kept = false → s.kernel.waiting msgid = none)) := by
  have hInv := allInv_reach hReach
  refine ⟨hInv.queues.ledger, fun p => ?_, fun q => ?_⟩
  · obtain ⟨msgid, n, hSender⟩ := hInv.senders p
    have hAt := hSender.place
    have hLe := hAt.le
    refine ⟨msgid, hSender.elsewhere, ?_, fun hDone => ?_⟩
    · refine hSender.types.trans ?_
      unfold firstTypes
      interval_cases n <;> decide
    · rw [hDone] at hAt
      cases hAt with
      | done => exact hSender.first (by decide)
  · obtain ⟨msgid, n, hReceiver⟩ := hInv.receivers q
    have hAt := hReceiver.place
    refine ⟨msgid, hReceiver.elsewhere, hReceiver.texts, ?_, fun hDone => ?_⟩
    · rw [hReceiver.count]
      exact hAt.le
    · have hGone := hReceiver.gone hDone
      rw [hDone] at hAt
      cases hAt with
      | done => exact ⟨hReceiver.count, hGone⟩

/-- Zeroed stacks. -/
def zeroStack (_ : Nat) : Msgbuf where
  mtype := 0
  mtext := List.replicate 64 0
  size := List.length_replicate

/-- A receiver that has got its queue reads three messages and removes the queue. -/
def readThree (q : Nat) : List Action :=
  [.ipcStat q, .msgrcv q, .ipcStat q, .msgrcv q, .ipcStat q, .msgrcv q, .ipcStat q, .ipcRmid q]

/-- Two senders and one receiver; the last message comes too late. -/
def lateTrace : List Action :=
  [.senderGet 0, .receiverGet 0, .msgsnd 0, .senderGet 1, .msgsnd 1, .msgsnd 0, .msgsnd 1,
    .msgsnd 0] ++ readThree 0 ++ [.msgsndFails 1]

theorem lateTrace_runs : ∃ s, run (step 16) (start zeroStack) lateTrace = some s ∧
    (s.sender 1).pc = .exit 0 ∧ (s.receiver 0).pc = .exit 0 ∧ (s.receiver 0).kept = false := by
  have hRun : (run (step 16) (start zeroStack) lateTrace).map (fun s =>
      decide ((s.sender 1).pc = .exit 0 ∧ (s.receiver 0).pc = .exit 0 ∧
        (s.receiver 0).kept = false)) = some true := by
    decide +kernel
  obtain ⟨s, hRun, hTest⟩ := Option.map_eq_some_iff.mp hRun
  exact ⟨s, hRun, of_decide_eq_true hTest⟩

theorem messages_accounted_for_lateTrace : ∃ s : State, ∃ msgid,
    1 ∈ mtypes (s.sentBy 1 msgid) ∧ (s.receiver 0).texts.length ≤ 3 := by
  obtain ⟨s, hRun, hSender, -, -⟩ := lateTrace_runs
  obtain ⟨-, hSenders, hReceivers⟩ := messages_accounted_for (reachable_of_run hRun)
  obtain ⟨msgid, -, -, hFirst⟩ := hSenders 1
  obtain ⟨_, -, hTexts, hLe, -⟩ := hReceivers 0
  exact ⟨s, msgid, hFirst hSender, by rw [hTexts, List.length_map]; exact hLe⟩

/-! ## Removed queues -/

theorem gone_reach {s₀ : State} {msgid : Nat} (hOld : msgid < s₀.kernel.nextId)
    (hGone : s₀.kernel.waiting msgid = none) (hReach : Reachable (step room) s₀ s) :
    s.kernel.waiting msgid = none ∧ s.accepted msgid = s₀.accepted msgid ∧
      s.taken msgid = s₀.taken msgid ∧ s.discarded msgid = s₀.discarded msgid := by
  have hAll : msgid < s.kernel.nextId ∧ s.kernel.waiting msgid = none ∧
      s.accepted msgid = s₀.accepted msgid ∧ s.taken msgid = s₀.taken msgid ∧
        s.discarded msgid = s₀.discarded msgid := by
    refine hReach.invariant (P := fun s => msgid < s.kernel.nextId ∧
      s.kernel.waiting msgid = none ∧ s.accepted msgid = s₀.accepted msgid ∧
        s.taken msgid = s₀.taken msgid ∧ s.discarded msgid = s₀.discarded msgid)
      ⟨hOld, hGone, rfl, rfl, rfl⟩ ?_
    rintro t a t' ⟨hOld, hGone, hAccepted, hTaken, hDiscarded⟩ - hStep
    obtain ⟨hOld', hGone', hA, hT, hD⟩ := gone_move hOld hGone (step_move hStep)
    exact ⟨hOld', hGone', hA.trans hAccepted, hT.trans hTaken, hD.trans hDiscarded⟩
  exact hAll.2

/-- **A removed queue is final.**  When a receiver has ended well and its
`IPC_RMID` has not failed on its queue, no process adds or gets a message of this
queue ever after.  If nobody else has read from the queue, the receiver has
printed its first three messages and all later ones are lost. -/
theorem removed_queue_is_final {stack : Nat → Msgbuf} {q : Nat}
    (hReach : Reachable (step room) (start stack) s) (hDone : (s.receiver q).pc = .exit 0)
    (hRemoved : (s.receiver q).kept = false) :
    ∃ msgid, (s.readBy q msgid).length = 3 ∧
      (∀ s', Reachable (step room) s s' →
        s'.kernel.waiting msgid = none ∧ s'.accepted msgid = s.accepted msgid ∧
          s'.taken msgid = s.taken msgid ∧ s'.discarded msgid = s.discarded msgid) ∧
      ((∀ q' ≠ q, s.readBy q' msgid = []) →
        (s.receiver q).texts = ((s.accepted msgid).take 3).map textOf ∧
          3 ≤ (s.accepted msgid).length ∧ s.discarded msgid = (s.accepted msgid).drop 3) := by
  have hInv := allInv_reach hReach
  obtain ⟨msgid, n, hReceiver⟩ := hInv.receivers q
  have hGone := hReceiver.gone hDone hRemoved
  have hKnown := hReceiver.known (by simp [hDone]) (by simp [hDone])
  have hAt := hReceiver.place
  rw [hDone] at hAt
  cases hAt with
  | done =>
      have hCount := hReceiver.count
      refine ⟨msgid, hCount, fun s' hLater => gone_reach hKnown hGone hLater, fun hOnly => ?_⟩
      -- all readers are this one
      have hAll : s.readBy q msgid = (s.taken msgid).map Prod.snd := by
        unfold State.readBy
        rw [List.filter_eq_self.mpr]
        intro r hMem
        by_contra hNot
        have hNe : r.1 ≠ q := by simpa using hNot
        have hNone := hOnly r.1 hNe
        unfold State.readBy at hNone
        have hEmpty := List.map_eq_nil_iff.mp hNone
        exact List.ne_nil_of_mem (List.mem_filter.mpr ⟨hMem, by simp⟩) hEmpty
      have hLedger := hInv.queues.ledger msgid
      rw [hGone, Option.getD_none, List.nil_append, ← hAll] at hLedger
      refine ⟨?_, ?_, ?_⟩
      · rw [hLedger, ← hCount, List.take_left, hReceiver.texts]
      · rw [hLedger, List.length_append]
        omega
      · rw [hLedger, ← hCount, List.drop_left]

/-- A receiver that makes no call reads nothing. -/
theorem readBy_idle {stack : Nat → Msgbuf} {q : Nat} {as : List Action}
    (hRun : run (step room) (start stack) as = some s) (hIdle : ∀ a ∈ as, a.receiver ≠ some q)
    (id : Nat) : s.readBy q id = [] := by
  have hInv : (∀ a ∈ as, a.receiver ≠ some q) → ReceiverInv s q 0 0 := by
    refine run_invariant (P := fun as s => (∀ a ∈ as, a.receiver ≠ some q) →
      ReceiverInv s q 0 0) hRun (fun _ => receiverInv_start stack q) ?_
    intro as s a s' _ hBefore hStep hAll
    have hOld := hBefore fun b hMem => hAll b (List.mem_append_left _ hMem)
    exact hOld.frame (hAll a (by simp)) (step_move hStep)
  exact (hInv hIdle).read_of_zero id

theorem removed_queue_is_final_lateTrace : ∃ s : State, ∃ msgid,
    (s.receiver 0).texts = ((s.accepted msgid).take 3).map textOf ∧
      s.discarded msgid = (s.accepted msgid).drop 3 := by
  obtain ⟨s, hRun, -, hDone, hRemoved⟩ := lateTrace_runs
  have hOnly : ∀ q ≠ 0, ∀ id, s.readBy q id = [] := fun q hNe =>
    readBy_idle hRun (by simp [lateTrace, readThree, Action.receiver, hNe.symm])
  obtain ⟨msgid, -, -, hFinal⟩ :=
    removed_queue_is_final (reachable_of_run hRun) hDone hRemoved
  obtain ⟨hTexts, -, hLost⟩ := hFinal fun q hNe => hOnly q hNe msgid
  exact ⟨s, msgid, hTexts, hLost⟩

end MsgQueue
end LinuxCppLearn
