import LinuxCppLearn.Library.Quiescence
import LinuxCppLearn.MsgQueue.Delivery

/-!
# One sender and one receiver

The two programs as they are meant to be run: one process of each, in a directory
where no queue is left over, and no call that fails without need.

* `NoFault` — the calls of the two processes; a call fails only on a queue that
  has been removed.
* `PairInv` — both work on the queue 0, and it is not removed too early.
* `one_pair_delivers` — every schedule ends, with all three messages printed and
  nothing left.
-/

namespace LinuxCppLearn
namespace MsgQueue

open StepSystem Quiescence

/-- The queue that a sender or a receiver is about to call is not there any more. -/
def State.sendsToGone (s : State) (p : Nat) : Bool :=
  match (s.sender p).pc with
  | .send msgid _ => (s.kernel.waiting msgid).isNone
  | .start | .exit _ => false

def State.receivesFromGone (s : State) (q : Nat) : Bool :=
  match (s.receiver q).pc with
  | .receive msgid _ => (s.kernel.waiting msgid).isNone
  | .start | .stat _ | .received _ _ | .remove _ | .exit _ => false

def NoFault (p q : Nat) (s : State) : Action → Prop
  | .senderGet p' | .msgsnd p' => p' = p
  | .receiverGet q' | .ipcStat q' | .msgrcv q' | .ipcRmid q' => q' = q
  | .senderGetFails _ | .receiverGetFails _ | .ipcStatFails _ | .ipcRmidFails _ => False
  | .msgsndFails p' => p' = p ∧ s.sendsToGone p = true
  | .msgrcvFails q' => q' = q ∧ s.receivesFromGone q = true

instance (p q : Nat) (s : State) (a : Action) : Decidable (NoFault p q s a) := by
  induction a using Action.casesOn <;> unfold NoFault <;> infer_instance

/-- Where the sender is, and what it has sent. -/
inductive PairSender (s : State) : SenderPc → Prop
  | start (hNone : s.accepted 0 = []) : PairSender s .start
  | send {n : Nat} (hLt : n < 3) (hSent : mtypes (s.accepted 0) = firstTypes n)
      (hThere : s.kernel.waiting 0 ≠ none) : PairSender s (.send 0 (n + 1))
  | done (hSent : mtypes (s.accepted 0) = firstTypes 3) : PairSender s (.exit 0)

/-- Where the queue is. -/
inductive PairQueue (s : State) : SenderPc → ReceiverPc → Prop
  | unborn (hNone : s.kernel = ⟨none, 0⟩) : PairQueue s .start .start
  | there {p : SenderPc} {q : ReceiverPc} {entries : List Entry}
      (hThere : s.kernel.current = some (0, entries)) (hAny : p ≠ .start ∨ q ≠ .start)
      (hOpen : q ≠ .exit 0) : PairQueue s p q
  | removed {p : SenderPc} (hNone : s.kernel.current = none) : PairQueue s p (.exit 0)

structure PairInv (p q : Nat) (s : State) : Prop where
  all : AllInv s
  sender : PairSender s (s.sender p).pc
  receiver : ReceiverAt 0 (s.receiver q).pc (s.taken 0).length
  noFault : (s.receiver q).pc ≠ .exit (-1)
  queue : PairQueue s (s.sender p).pc (s.receiver q).pc
  texts : (s.receiver q).texts = (s.taken 0).map fun r => textOf r.2
  lost : ∀ id, s.discarded id = []

theorem pairInv_start (p q : Nat) (stack : Nat → Msgbuf) : PairInv p q (start stack) where
  all := allInv_start stack
  sender := .start rfl
  receiver := .start
  noFault := by simp [start]
  queue := .unborn rfl
  texts := rfl
  lost _ := rfl

section Steps

variable {p q room : Nat} {s s' : State} {a : Action}

theorem waiting_zero {k : Kernel} {entries : List Entry}
    (hThere : k.current = some (0, entries)) : k.waiting 0 = some entries := by
  simp [Kernel.waiting, hThere]

/-- The number of messages sent. -/
theorem PairSender.sent_length {pc : SenderPc} (h : PairSender s pc) :
    (s.accepted 0).length ≤ 3 := by
  have hTypes : (mtypes (s.accepted 0)).length = (s.accepted 0).length := List.length_map _
  cases h with
  | start hNone => simp [hNone]
  | send hLt hSent _ =>
      rw [hSent] at hTypes
      simp only [firstTypes, List.length_map, List.length_range] at hTypes
      omega
  | done hSent =>
      rw [hSent] at hTypes
      simp only [firstTypes, List.length_map, List.length_range] at hTypes
      omega

theorem PairInv.taken_le (h : PairInv p q s) :
    (s.taken 0).length + ((s.kernel.waiting 0).getD []).length = (s.accepted 0).length := by
  rw [h.all.queues.ledger 0, h.lost 0]
  simp

/-- Both processes get the queue 0. -/
theorem PairInv.get (h : PairInv p q s) (hOpen : (s.receiver q).pc ≠ .exit 0) :
    ∃ entries, s.kernel.msgget.1 = 0 ∧ s.kernel.msgget.2.current = some (0, entries) := by
  have hQueue := h.queue
  generalize (s.sender p).pc = sender at hQueue
  generalize (s.receiver q).pc = receiver at hQueue hOpen
  cases hQueue with
  | unborn hNone => exact ⟨[], by rw [hNone]; rfl, by rw [hNone]; rfl⟩
  | there hThere _ _ =>
      unfold Kernel.msgget
      rw [hThere]
      exact ⟨_, rfl, hThere⟩
  | removed _ => exact absurd rfl hOpen

/-- The receiver has not got three messages while the sender is busy. -/
theorem PairInv.open_of_busy (h : PairInv p q s) (hBusy : (s.sender p).pc ≠ .exit 0) :
    (s.taken 0).length < 3 := by
  have hSender := h.sender
  have hTypes : (mtypes (s.accepted 0)).length = (s.accepted 0).length := List.length_map _
  have hLength := h.taken_le
  generalize (s.sender p).pc = pc at hSender hBusy
  cases hSender with
  | start hNone =>
      rw [hNone] at hLength
      simp only [List.length_nil] at hLength
      omega
  | send hLt hSent _ =>
      rw [hSent] at hTypes
      simp only [firstTypes, List.length_map, List.length_range] at hTypes
      omega
  | done _ => exact absurd rfl hBusy

theorem ReceiverAt.exit_length {n : Nat} (h : ReceiverAt 0 (.exit 0) n) : n = 3 := by
  cases h with
  | done => rfl

theorem PairInv.looping_of_busy (h : PairInv p q s) (hBusy : (s.sender p).pc ≠ .exit 0) :
    (s.receiver q).pc ≠ .exit 0 := by
  intro hExit
  have hThree := h.receiver
  rw [hExit] at hThree
  have hFew := h.open_of_busy hBusy
  rw [hThree.exit_length] at hFew
  omega

/-- The queue that both have got is open while the receiver is in its loop. -/
theorem PairInv.there_of_loop (h : PairInv p q s) (hStarted : (s.receiver q).pc ≠ .start)
    (hOpen : (s.receiver q).pc ≠ .exit 0) :
    ∃ entries, s.kernel.current = some (0, entries) := by
  have hQueue := h.queue
  generalize (s.sender p).pc = sender at hQueue
  generalize (s.receiver q).pc = receiver at hQueue hStarted hOpen
  cases hQueue with
  | unborn _ => exact absurd rfl hStarted
  | there hThere _ _ => exact ⟨_, hThere⟩
  | removed _ => exact absurd rfl hOpen

/-- The state of the two behind a step, put together. -/
theorem PairInv.of_parts (hAll : AllInv s') (sender : SenderPc) (receiver : ReceiverPc)
    (hSenderPc : (s'.sender p).pc = sender) (hReceiverPc : (s'.receiver q).pc = receiver)
    (hSender : PairSender s' sender) (hReceiver : ReceiverAt 0 receiver (s'.taken 0).length)
    (hNoFault : receiver ≠ .exit (-1)) (hQueue : PairQueue s' sender receiver)
    (hTexts : (s'.receiver q).texts = (s'.taken 0).map fun r => textOf r.2)
    (hLost : ∀ id, s'.discarded id = []) : PairInv p q s' := by
  subst hSenderPc hReceiverPc
  exact ⟨hAll, hSender, hReceiver, hNoFault, hQueue, hTexts, hLost⟩

theorem PairSender.congr {pc : SenderPc} (h : PairSender s pc)
    (hAccepted : s'.accepted = s.accepted)
    (hThere : s.kernel.waiting 0 ≠ none → s'.kernel.waiting 0 ≠ none) : PairSender s' pc := by
  cases h with
  | start hNone => exact .start (hAccepted ▸ hNone)
  | send hLt hSent hOld => exact .send hLt (hAccepted ▸ hSent) (hThere hOld)
  | done hSent => exact .done (hAccepted ▸ hSent)

theorem put_current (k : Kernel) (msgid : Nat) (entries : List Entry) :
    (k.put msgid entries).current = some (msgid, entries) := rfl

/-- The sender makes its next call. -/
theorem PairInv.move_sender (h : PairInv p q s) (hAll : AllInv s') (hOwn : a.sender = some p)
    (hMet : NoFault p q s a) (hMove : Move room s a s') : PairInv p q s' := by
  have hSender := h.sender
  cases hMove with
  | @senderGet p' hPc =>
      obtain rfl : p' = p := Option.some.inj hOwn
      rw [hPc] at hSender
      cases hSender with
      | start hNone =>
          have hOpen := h.looping_of_busy (by simp [hPc])
          obtain ⟨entries, hId, hCurrent⟩ := h.get hOpen
          refine .of_parts hAll (.send 0 1) _ ?_ rfl
            (.send (n := 0) (by decide) (by show mtypes (s.accepted 0) = _; rw [hNone]; rfl) ?_)
            h.receiver h.noFault (.there hCurrent (.inl (by simp)) hOpen) h.texts h.lost
          · show ((s.setSender p' _).sender p').pc = _
            rw [setSender_self, hId]
          · show s.kernel.msgget.2.waiting 0 ≠ none
            rw [waiting_zero hCurrent]
            simp
  | senderGetFails _ => exact hMet.elim
  | @msgsnd p' msgid k entries hPc hThere _ =>
      obtain rfl : p' = p := Option.some.inj hOwn
      have hReady : Ready (s.sender p').msgbuf k := by
        obtain ⟨id, n, hInv⟩ := h.all.senders p'
        have hAt := hInv.place
        rw [hPc] at hAt
        cases hAt with
        | send _ hReady => exact hReady
      have hQueue := h.queue
      rw [hPc] at hSender hQueue
      cases hSender with
      | @send n hLt hSent _ =>
          have hOpen := h.looping_of_busy (by simp [hPc])
          have hNow : mtypes (Function.update s.accepted 0
              (s.accepted 0 ++ [⟨p', (s.sender p').msgbuf⟩]) 0) = firstTypes (n + 1) := by
            rw [Function.update_self, firstTypes_succ, ← hSent]
            unfold mtypes
            rw [List.map_append]
            simp [hReady.mtype]
          have hPc' : ((s.setSender p' ((s.sender p').goOn 0 (n + 1))).sender p').pc =
              if n + 1 < 3 then .send 0 (n + 2) else .exit 0 := by
            rw [setSender_self]
            unfold Sender.goOn
            split <;> rfl
          refine .of_parts hAll _ _ hPc' rfl ?_ h.receiver h.noFault ?_ h.texts h.lost
          · split
            · rename_i hMore
              refine .send hMore hNow ?_
              show (s.kernel.put 0 _).waiting 0 ≠ none
              rw [waiting_zero (put_current _ _ _)]
              simp
            · obtain rfl : n = 2 := by omega
              exact .done hNow
          · refine .there (put_current _ _ _) (.inl ?_) hOpen
            split <;> simp
  | @msgsndFails p' msgid k hPc =>
      obtain rfl : p' = p := Option.some.inj hOwn
      rw [hPc] at hSender
      cases hSender with
      | send _ _ hThere =>
          have hGone := hMet.2
          unfold State.sendsToGone at hGone
          rw [hPc] at hGone
          exact absurd (Option.isNone_iff_eq_none.mp hGone) hThere
  | receiverGet _ | receiverGetFails _ | ipcStat _ | ipcStatFails _ | msgrcv _ _ _
  | msgrcvFails _ | ipcRmid _ | ipcRmidFails _ => simp [Action.sender] at hOwn

/-- The receiver makes its next call. -/
theorem PairInv.move_receiver (h : PairInv p q s) (hAll : AllInv s')
    (hOwn : a.receiver = some q) (hMet : NoFault p q s a) (hMove : Move room s a s') :
    PairInv p q s' := by
  have hReceiver := h.receiver
  cases hMove with
  | @receiverGet q' hPc =>
      obtain rfl : q' = q := Option.some.inj hOwn
      obtain ⟨entries, hId, hCurrent⟩ := h.get (by simp [hPc])
      have hThere : s.kernel.msgget.2.waiting 0 ≠ none := by
        rw [waiting_zero hCurrent]
        simp
      rw [hPc] at hReceiver
      have hNone : (s.taken 0).length = 0 := by
        generalize (s.taken 0).length = n at hReceiver
        cases hReceiver with
        | start => rfl
      refine .of_parts hAll _ (.stat 0) rfl ?_
        (h.sender.congr rfl fun _ => hThere) ?_ (by simp)
        (.there hCurrent (.inr (by simp)) (by simp)) ?_ h.lost
      · show ((s.setReceiver q' _).receiver q').pc = _
        rw [setReceiver_self, hId]
      · show ReceiverAt 0 _ (s.taken 0).length
        rw [hNone]
        exact .stat
      · show ((s.setReceiver q' _).receiver q').texts = _
        rw [setReceiver_self]
        exact h.texts
  | receiverGetFails _ | ipcStatFails _ | ipcRmidFails _ => exact hMet.elim
  | @ipcStat q' msgid pc hPc =>
      obtain rfl : q' = q := Option.some.inj hOwn
      obtain ⟨entries, hCurrent⟩ := h.there_of_loop
        (by rcases hPc with ⟨hPc, -⟩ | ⟨_, hPc, -⟩ <;> simp [hPc])
        (by rcases hPc with ⟨hPc, -⟩ | ⟨_, hPc, -⟩ <;> simp [hPc])
      have hNext : ReceiverAt 0 pc (s.taken 0).length ∧ pc ≠ .start ∧ pc ≠ .exit 0 ∧
          pc ≠ .exit (-1) := by
        generalize (s.taken 0).length = n at hReceiver
        rcases hPc with ⟨hPc, rfl⟩ | ⟨count, hPc, rfl⟩
        · rw [hPc] at hReceiver
          cases hReceiver with
          | stat => exact ⟨.receive (by decide), by simp⟩
        · rw [hPc] at hReceiver
          cases hReceiver with
          | received hLt =>
              split
              · rename_i hLast
                rw [hLast]
                exact ⟨.remove, by simp⟩
              · exact ⟨.receive (by omega), by simp⟩
      obtain ⟨hAt, hStarted, hOpen, hFault⟩ := hNext
      refine .of_parts hAll _ pc rfl ?_ (h.sender.congr rfl fun hThere => hThere) hAt hFault
        (.there hCurrent (.inr hStarted) hOpen) ?_ h.lost
      · rw [setReceiver_self]
      · rw [setReceiver_self]
        exact h.texts
  | @msgrcv q' msgid count entry entries text hPc hThere hText =>
      obtain rfl : q' = q := Option.some.inj hOwn
      rw [hPc] at hReceiver
      obtain ⟨hId, hCount, hLt⟩ : msgid = 0 ∧ count = (s.taken 0).length ∧ count < 3 := by
        generalize (s.taken 0).length = n at hReceiver
        cases hReceiver with
        | receive hLt => exact ⟨rfl, rfl, hLt⟩
      subst hId
      have hGenuine : Genuine entry := by
        refine h.all.queues.genuine 0 entry ?_
        rw [h.all.queues.ledger 0, hThere]
        simp
      obtain rfl : text = textOf entry := Option.some.inj (hText.symm.trans hGenuine.print)
      have hTaken : Function.update s.taken 0 (s.taken 0 ++ [(q', entry)]) 0 =
          s.taken 0 ++ [(q', entry)] := Function.update_self _ _ _
      refine .of_parts hAll _ (.received 0 count) rfl ?_
        (h.sender.congr rfl fun _ => ?_) ?_ (by simp)
        (.there (put_current _ _ _) (.inr (by simp)) (by simp)) ?_ h.lost
      · show ((s.setReceiver q' _).receiver q').pc = _
        rw [setReceiver_self]
      · show (s.kernel.put 0 entries).waiting 0 ≠ none
        rw [waiting_zero (put_current _ _ _)]
        simp
      · have hLength : (Function.update s.taken 0 (s.taken 0 ++ [(q', entry)]) 0).length =
            count + 1 := by
          rw [hTaken, List.length_append, ← hCount]
          rfl
        exact hLength ▸ .received hLt
      · show ((s.setReceiver q' _).receiver q').texts =
          (Function.update s.taken 0 (s.taken 0 ++ [(q', entry)]) 0).map fun r => textOf r.2
        rw [setReceiver_self, hTaken, List.map_append, h.texts]
        rfl
  | @msgrcvFails q' msgid count hPc =>
      obtain rfl : q' = q := Option.some.inj hOwn
      obtain ⟨entries, hCurrent⟩ := h.there_of_loop (by simp [hPc]) (by simp [hPc])
      rw [hPc] at hReceiver
      have hId : msgid = 0 := by
        generalize (s.taken 0).length = n at hReceiver
        cases hReceiver with
        | receive _ => rfl
      have hGone := hMet.2
      unfold State.receivesFromGone at hGone
      simp [hPc, hId, waiting_zero hCurrent] at hGone
  | @ipcRmid q' msgid hPc =>
      obtain rfl : q' = q := Option.some.inj hOwn
      obtain ⟨entries, hCurrent⟩ := h.there_of_loop (by simp [hPc]) (by simp [hPc])
      rw [hPc] at hReceiver
      obtain ⟨hId, hThree⟩ : msgid = 0 ∧ (s.taken 0).length = 3 := by
        generalize (s.taken 0).length = n at hReceiver
        cases hReceiver with
        | remove => exact ⟨rfl, rfl⟩
      subst hId
      -- all three messages have been sent and taken, so nothing is lost
      have hEnded : (s.sender p).pc = .exit 0 := by
        by_contra hBusy
        have hFew := h.open_of_busy hBusy
        omega
      have hEmpty : (s.kernel.waiting 0).getD [] = [] := by
        have hLength := h.taken_le
        have hSent := h.sender.sent_length
        exact List.length_eq_zero_iff.mp (by omega)
      have hSender := h.sender
      rw [hEnded] at hSender
      refine .of_parts hAll (.exit 0) (.exit 0) hEnded ?_ ?_ ?_ (by simp)
        (.removed ?_) ?_ fun id => ?_
      · show ((s.setReceiver q' _).receiver q').pc = _
        rw [setReceiver_self]
      · cases hSender with
        | done hSent => exact .done hSent
      · show ReceiverAt 0 _ (s.taken 0).length
        rw [hThree]
        exact .done
      · show (s.kernel.rmid 0).current = none
        unfold Kernel.rmid
        rw [waiting_zero hCurrent]
      · show ((s.setReceiver q' _).receiver q').texts = _
        rw [setReceiver_self]
        exact h.texts
      · show Function.update s.discarded 0 _ id = []
        rw [hEmpty, List.append_nil, Function.update_eq_self]
        exact h.lost id
  | senderGet _ | senderGetFails _ | msgsnd _ _ _ | msgsndFails _ =>
      simp [Action.receiver] at hOwn

theorem pairInv_step (h : PairInv p q s) (hMet : NoFault p q s a)
    (hStep : step room s a = some s') : PairInv p q s' := by
  have hAll := allInv_step h.all hStep
  have hMove := step_move hStep
  have hOwn : a.sender = some p ∨ a.receiver = some q := by
    cases a with
    | senderGet p' | msgsnd p' => exact .inl (congrArg some hMet)
    | receiverGet q' | ipcStat q' | msgrcv q' | ipcRmid q' => exact .inr (congrArg some hMet)
    | senderGetFails _ | receiverGetFails _ | ipcStatFails _ | ipcRmidFails _ => exact hMet.elim
    | msgsndFails p' => exact .inl (congrArg some hMet.1)
    | msgrcvFails q' => exact .inr (congrArg some hMet.1)
  rcases hOwn with hSender | hReceiver
  · exact h.move_sender hAll hSender hMet hMove
  · exact h.move_receiver hAll hReceiver hMet hMove

/-! ## The end -/

/-- The calls that are left of a sender. -/
def senderLeft : SenderPc → Nat
  | .start => 4
  | .send _ k => 4 - k
  | .exit _ => 0

/-- The calls that are left of a receiver. -/
def receiverLeft : ReceiverPc → Nat
  | .start => 9
  | .stat _ => 8
  | .receive _ count => 7 - 2 * count
  | .received _ count => 6 - 2 * count
  | .remove _ => 1
  | .exit _ => 0

def callsLeft (p q : Nat) (s : State) : Nat :=
  senderLeft (s.sender p).pc + receiverLeft (s.receiver q).pc

theorem callsLeft_sender {p' : Nat} {sender : Sender} (hEq : p' = p)
    (hSame : s'.receiver = s.receiver) (hIs : s'.sender = Function.update s.sender p' sender)
    (hLess : senderLeft sender.pc < senderLeft (s.sender p).pc) :
    callsLeft p q s' < callsLeft p q s := by
  subst hEq
  unfold callsLeft
  rw [hSame, hIs, Function.update_self]
  omega

theorem callsLeft_receiver {q' : Nat} {receiver : Receiver} (hEq : q' = q)
    (hSame : s'.sender = s.sender) (hIs : s'.receiver = Function.update s.receiver q' receiver)
    (hLess : receiverLeft receiver.pc < receiverLeft (s.receiver q).pc) :
    callsLeft p q s' < callsLeft p q s := by
  subst hEq
  unfold callsLeft
  rw [hSame, hIs, Function.update_self]
  omega

theorem senderLeft_goOn (sender : Sender) {msgid k : Nat} (hLe : k ≤ 3) :
    senderLeft (sender.goOn msgid k).pc < senderLeft (.send msgid k) := by
  unfold Sender.goOn
  split
  · simp only [senderLeft]
    omega
  · simp only [senderLeft]
    omega

/-- Every call of the two is one call less. -/
theorem callsLeft_step (h : PairInv p q s) (hMet : NoFault p q s a)
    (hStep : step room s a = some s') : callsLeft p q s' < callsLeft p q s := by
  have hSend : ∀ {msgid k}, (s.sender p).pc = .send msgid k → k ≤ 3 := by
    intro msgid k hPc
    have hSender := h.sender
    rw [hPc] at hSender
    cases hSender with
    | send hLt _ _ => omega
  have hCount : ∀ {msgid count}, (s.receiver q).pc = .receive msgid count ∨
      (s.receiver q).pc = .received msgid count → count < 3 := by
    intro msgid count hPc
    have hReceiver := h.receiver
    generalize (s.taken 0).length = n at hReceiver
    rcases hPc with hPc | hPc
    · rw [hPc] at hReceiver
      cases hReceiver with
      | receive hLt => exact hLt
    · rw [hPc] at hReceiver
      cases hReceiver with
      | received hLt => exact hLt
  cases step_move hStep with
  | @senderGet p' hPc =>
      refine callsLeft_sender hMet rfl rfl ?_
      rw [← (hMet : p' = p), hPc]
      simp [senderLeft]
  | @msgsnd p' msgid k entries hPc _ _ =>
      have hEq : p' = p := hMet
      subst hEq
      refine callsLeft_sender rfl rfl rfl ?_
      rw [hPc]
      exact senderLeft_goOn _ (hSend hPc)
  | @msgsndFails p' msgid k hPc =>
      obtain ⟨rfl, -⟩ := hMet
      refine callsLeft_sender rfl rfl rfl ?_
      have hLe := hSend hPc
      rw [hPc]
      unfold Sender.msgsndFailed
      split
      · simp only [senderLeft]
        omega
      · exact senderLeft_goOn _ hLe
  | @receiverGet q' hPc =>
      have hEq : q' = q := hMet
      subst hEq
      refine callsLeft_receiver rfl rfl rfl ?_
      rw [hPc]
      simp [receiverLeft]
  | @ipcStat q' msgid pc hPc =>
      have hEq : q' = q := hMet
      subst hEq
      refine callsLeft_receiver rfl rfl rfl ?_
      rcases hPc with ⟨hPc, rfl⟩ | ⟨count, hPc, rfl⟩
      · rw [hPc]
        simp [receiverLeft]
      · have hLt := hCount (.inr hPc)
        rw [hPc]
        split
        · simp only [receiverLeft]
          omega
        · simp only [receiverLeft]
          omega
  | @msgrcv q' msgid count entry entries text hPc _ _ =>
      have hEq : q' = q := hMet
      subst hEq
      have hLt := hCount (.inl hPc)
      refine callsLeft_receiver rfl rfl rfl ?_
      rw [hPc]
      simp only [receiverLeft]
      omega
  | @msgrcvFails q' msgid count hPc =>
      obtain ⟨rfl, -⟩ := hMet
      have hLt := hCount (.inl hPc)
      refine callsLeft_receiver rfl rfl rfl ?_
      rw [hPc]
      simp only [receiverLeft]
      omega
  | @ipcRmid q' msgid hPc =>
      have hEq : q' = q := hMet
      subst hEq
      refine callsLeft_receiver rfl rfl rfl ?_
      rw [hPc]
      simp [receiverLeft]
  | senderGetFails _ | receiverGetFails _ | ipcStatFails _ | ipcRmidFails _ => exact hMet.elim

theorem pair_runsOut (p q room : Nat) :
    RunsOut (guarded (step room) (NoFault p q)) (fun _ => True) (PairInv p q)
      (callsLeft p q) := by
  have hBoth : ∀ s a s', PairInv p q s → guarded (step room) (NoFault p q) s a = some s' →
      PairInv p q s' ∧ callsLeft p q s' < callsLeft p q s := by
    intro s a s' hInv hStep
    unfold guarded at hStep
    split at hStep
    · rename_i hMet
      exact ⟨pairInv_step hInv hMet hStep, callsLeft_step hInv hMet hStep⟩
    · simp at hStep
  exact ⟨fun s a s' hInv _ hStep => (hBoth s a s' hInv hStep).1,
    fun s a s' hInv _ hStep => (hBoth s a s' hInv hStep).2⟩

/-- What the receiver prints is a part of what it should print. -/
theorem PairInv.texts_prefix (h : PairInv p q s) :
    (s.receiver q).texts <+: [messageText 1, messageText 2, messageText 3] := by
  have hTexts : (s.receiver q).texts = ((s.taken 0).map Prod.snd).map textOf := by
    rw [h.texts, List.map_map]
    rfl
  have hPart : (s.taken 0).map Prod.snd <+: s.accepted 0 := by
    rw [h.all.queues.ledger 0]
    exact List.prefix_append _ _
  have hTypes : ∃ n ≤ 3, mtypes (s.accepted 0) = firstTypes n := by
    have hSender := h.sender
    generalize (s.sender p).pc = pc at hSender
    cases hSender with
    | start hNone => exact ⟨0, by omega, by rw [hNone]; rfl⟩
    | @send n hLt hSent _ => exact ⟨n, by omega, hSent⟩
    | done hSent => exact ⟨3, by omega, hSent⟩
  obtain ⟨n, hLe, hTypes⟩ := hTypes
  have hMap : (s.accepted 0).map textOf = (firstTypes n).map fun k => messageText k.toNat := by
    rw [← hTypes]
    unfold mtypes
    rw [List.map_map]
    rfl
  rw [hTexts]
  refine (hPart.map textOf).trans ?_
  rw [hMap]
  interval_cases n <;> decide

/-- **Nobody waits for ever**: somebody can make a call until both have ended. -/
theorem PairInv.ended_of_stuck (h : PairInv p q s) (hRoom : 0 < room)
    (hStuck : Stuck (guarded (step room) (NoFault p q)) (fun _ => True) s) :
    (s.sender p).pc = .exit 0 ∧ (s.receiver q).pc = .exit 0 := by
  have hNone : ∀ a, NoFault p q s a → step room s a = none := by
    intro a hMet
    have hNone := hStuck a trivial
    unfold guarded at hNone
    rwa [if_pos hMet] at hNone
  have hLength := h.taken_le
  have hReceiver := h.receiver
  -- the receiver waits for a message, or has ended
  have hWaits : (s.receiver q).pc = .exit 0 ∨
      (∃ n, (s.receiver q).pc = .receive 0 n ∧ n = (s.taken 0).length ∧ n < 3 ∧
        s.kernel.waiting 0 = some []) := by
    generalize hPc : (s.receiver q).pc = pc at hReceiver
    generalize hCount : (s.taken 0).length = n at hReceiver
    cases hReceiver with
    | start =>
        have hGet := hNone (.receiverGet q) rfl
        simp [step, hPc] at hGet
    | stat =>
        have hStat := hNone (.ipcStat q) rfl
        simp [step, Receiver.goOn, hPc] at hStat
    | received hLt =>
        have hStat := hNone (.ipcStat q) rfl
        simp [step, Receiver.goOn, hPc] at hStat
    | remove =>
        have hRemove := hNone (.ipcRmid q) rfl
        simp [step, hPc] at hRemove
    | done => exact .inl rfl
    | failed _ => exact absurd hPc h.noFault
    | receive hLt =>
        refine .inr ⟨n, rfl, rfl, hLt, ?_⟩
        obtain ⟨entries, hCurrent⟩ := h.there_of_loop (by simp [hPc]) (by simp [hPc])
        have hThere := waiting_zero hCurrent
        cases entries with
        | nil => exact hThere
        | cons entry entries =>
            have hGenuine : Genuine entry := by
              refine h.all.queues.genuine 0 entry ?_
              rw [h.all.queues.ledger 0, hThere]
              simp
            have hReceive := hNone (.msgrcv q) rfl
            simp [step, hPc, hThere, hGenuine.print] at hReceive
  have hEnded : (s.sender p).pc = .exit 0 := by
    have hSender := h.sender
    generalize hPc : (s.sender p).pc = pc at hSender
    cases hSender with
    | start _ =>
        have hGet := hNone (.senderGet p) rfl
        simp [step, hPc] at hGet
    | done _ => rfl
    | @send n hLt _ hThere =>
        exfalso
        rcases hWaits with hExit | ⟨count, -, -, -, hEmpty⟩
        · exact h.looping_of_busy (by simp [hPc]) hExit
        · have hSend := hNone (.msgsnd p) rfl
          simp [step, hPc, hEmpty, hRoom] at hSend
  refine ⟨hEnded, hWaits.resolve_right ?_⟩
  rintro ⟨count, -, hCount, hLt, hEmpty⟩
  have hSender := h.sender
  rw [hEnded] at hSender
  cases hSender with
  | done hSent =>
      have hThree : (s.accepted 0).length = 3 := by
        have hTypes : (mtypes (s.accepted 0)).length = (s.accepted 0).length := List.length_map _
        rw [hSent] at hTypes
        exact hTypes.symm
      rw [hEmpty] at hLength
      simp only [Option.getD_some, List.length_nil] at hLength
      omega

/-- **One sender and one receiver**, in any schedule: the calls come to an end
after 13 of them at most, what is printed is right so far, and in the end both
processes have ended well, all three messages are printed, and nothing is left. -/
theorem one_pair_delivers {stack : Nat → Msgbuf} {as : List Action} (hRoom : 0 < room)
    (hRun : run (guarded (step room) (NoFault p q)) (start stack) as = some s) :
    as.length ≤ 13 ∧
    (s.receiver q).texts <+: [messageText 1, messageText 2, messageText 3] ∧
    (Stuck (guarded (step room) (NoFault p q)) (fun _ => True) s →
      (s.sender p).pc = .exit 0 ∧ (s.receiver q).pc = .exit 0 ∧
      (s.receiver q).texts = [messageText 1, messageText 2, messageText 3] ∧
      s.kernel.current = none ∧ ∀ id, s.discarded id = []) := by
  obtain ⟨hLength, hInv⟩ := (pair_runsOut p q room).length_le (pairInv_start p q stack)
    (fun _ _ => trivial) hRun
  have hStart : callsLeft p q (start stack) = 13 := rfl
  refine ⟨by omega, hInv.texts_prefix, fun hStuck => ?_⟩
  obtain ⟨hSender, hReceiver⟩ := hInv.ended_of_stuck hRoom hStuck
  refine ⟨hSender, hReceiver, hInv.texts_prefix.eq_of_length ?_, ?_, hInv.lost⟩
  · have hAt := hInv.receiver
    rw [hReceiver] at hAt
    rw [hInv.texts, List.length_map, hAt.exit_length]
    rfl
  · have hQueue := hInv.queue
    rw [hReceiver] at hQueue
    generalize (s.sender p).pc = pc at hQueue
    cases hQueue with
    | there _ _ hOpen => exact absurd rfl hOpen
    | removed hNone => exact hNone

/-- The receiver is started when all messages are there. -/
def pairTrace : List Action :=
  [.senderGet 0, .msgsnd 0, .msgsnd 0, .msgsnd 0, .receiverGet 0] ++ readThree 0

theorem one_pair_delivers_pairTrace : ∃ s : State,
    run (guarded (step 3) (NoFault 0 0)) (start zeroStack) pairTrace = some s ∧
      (s.receiver 0).texts = [messageText 1, messageText 2, messageText 3] := by
  have hSome : (run (guarded (step 3) (NoFault 0 0)) (start zeroStack) pairTrace).isSome = true :=
    by decide +kernel
  obtain ⟨s, hRun⟩ := Option.isSome_iff_exists.mp hSome
  refine ⟨s, hRun, ((one_pair_delivers (by decide) hRun).2.2 fun a _ => ?_).2.2.1⟩
  -- a further call would be the fourteenth
  by_contra hMore
  obtain ⟨s', hStep⟩ := Option.ne_none_iff_exists'.mp hMore
  have hLonger : run (guarded (step 3) (NoFault 0 0)) (start zeroStack) (pairTrace ++ [a]) =
      some s' := by
    rw [run_append, hRun, Option.bind_some, run_cons, hStep]
    rfl
  have hLength := (one_pair_delivers (by decide) hLonger).1
  simp [pairTrace, readThree] at hLength

end Steps

end MsgQueue
end LinuxCppLearn
