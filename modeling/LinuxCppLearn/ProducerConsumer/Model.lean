import LinuxCppLearn.Library.StepSystem

/-!
# A producer and a consumer

The program of `bagu/thread.cpp`: one thread pushes numbers into a queue, the other one
takes them out and stops behind a certain one.  Both work under `queue_mutex`, and the
consumer waits on `data_cond` with a predicate.

* `State` — where the two threads are, the queue, and what has been printed.
* `step` — one step of a thread, with `count` numbers to produce and the last one to
  consume.  `program` has the numbers of the source.
* `Step`, `step_cases` — what a step can do.
-/

namespace LinuxCppLearn
namespace ProducerConsumer

open StepSystem

inductive Side
  | producer
  | consumer
deriving DecidableEq, Repr

/-- A line of output. -/
inductive Line
  | produced (i : Nat)
  | consumed (value : Nat)
  /-- the line of `main` behind both `join`s -/
  | finished
deriving DecidableEq, Repr

/-- Where the producer is in its loop. -/
inductive ProducerPc
  /-- in front of the test of `i` -/
  | loop (i : Nat)
  /-- `lock` is constructed -/
  | locked (i : Nat)
  /-- `push` and the output are done -/
  | pushed (i : Nat)
  /-- `notify_one` is done; the thread sleeps, still with the mutex -/
  | notified (i : Nat)
deriving DecidableEq, Repr

/-- Where the consumer is. -/
inductive ConsumerPc
  /-- in front of the constructor of `lock` -/
  | loop
  /-- in `wait` with the mutex, in front of a test of the predicate -/
  | locked
  /-- blocked in `wait`, without the mutex -/
  | waiting
  /-- awake in `wait`, and in need of the mutex -/
  | woken
  /-- `wait` has returned -/
  | ready
  /-- `pop` and the output are done -/
  | popped (value : Nat)
  /-- returned -/
  | done
deriving DecidableEq, Repr

structure State where
  dataQueue : List Nat
  queueMutex : Option Side
  producer : ProducerPc
  consumer : ConsumerPc
  /-- `main` is behind its two `join`s -/
  joined : Bool
  output : List Line
deriving DecidableEq, Repr

def init : State where
  dataQueue := []
  queueMutex := none
  producer := .loop 0
  consumer := .loop
  joined := false
  output := []

inductive Action
  | producerLock
  | push
  | notifyOne
  | producerUnlock
  | consumerLock
  /-- the predicate of `wait`, and blocking if it is false -/
  | test
  | relock
  | pop
  | consumerUnlock
  /-- both `join`s of `main` -/
  | join
  | spuriousWake
deriving DecidableEq, Repr

/-- What `notify_one` does to the only thread that can wait. -/
def ConsumerPc.notified : ConsumerPc → ConsumerPc
  | .waiting => .woken
  | pc => pc

def step (count last : Nat) (s : State) : Action → Option State
  | .producerLock =>
      match s.producer with
      | .loop i =>
          if i < count ∧ s.queueMutex = none then
            some { s with producer := .locked i, queueMutex := some .producer }
          else none
      | _ => none
  | .push =>
      match s.producer with
      | .locked i =>
          some { s with
            producer := .pushed i
            dataQueue := s.dataQueue ++ [i]
            output := s.output ++ [.produced i] }
      | _ => none
  | .notifyOne =>
      match s.producer with
      | .pushed i => some { s with producer := .notified i, consumer := s.consumer.notified }
      | _ => none
  | .producerUnlock =>
      match s.producer with
      | .notified i => some { s with producer := .loop (i + 1), queueMutex := none }
      | _ => none
  | .consumerLock =>
      if s.consumer = .loop ∧ s.queueMutex = none then
        some { s with consumer := .locked, queueMutex := some .consumer }
      else none
  | .test =>
      if s.consumer = .locked then
        if s.dataQueue = [] then
          some { s with consumer := .waiting, queueMutex := none }
        else some { s with consumer := .ready }
      else none
  | .relock =>
      if s.consumer = .woken ∧ s.queueMutex = none then
        some { s with consumer := .locked, queueMutex := some .consumer }
      else none
  | .pop =>
      match s.consumer, s.dataQueue with
      | .ready, value :: rest =>
          some { s with
            consumer := .popped value
            dataQueue := rest
            output := s.output ++ [.consumed value] }
      -- `front` of an empty queue is undefined
      | _, _ => none
  | .consumerUnlock =>
      match s.consumer with
      | .popped value =>
          some { s with
            consumer := if value = last then .done else .loop
            queueMutex := none }
      | _ => none
  | .join =>
      if s.producer = .loop count ∧ s.consumer = .done ∧ s.joined = false then
        some { s with joined := true, output := s.output ++ [.finished] }
      else none
  | .spuriousWake =>
      if s.consumer = .waiting then some { s with consumer := .woken } else none

/-- The numbers of the source. -/
def program : State → Action → Option State :=
  step 5 4

/-! ## What a step is -/

inductive Step (count last : Nat) (s : State) : Action → State → Prop
  | producerLock {i : Nat} (hPc : s.producer = .loop i) (hMore : i < count)
      (hFree : s.queueMutex = none) :
      Step count last s .producerLock
        { s with producer := .locked i, queueMutex := some .producer }
  | push {i : Nat} (hPc : s.producer = .locked i) :
      Step count last s .push
        { s with
          producer := .pushed i
          dataQueue := s.dataQueue ++ [i]
          output := s.output ++ [.produced i] }
  | notifyOne {i : Nat} (hPc : s.producer = .pushed i) :
      Step count last s .notifyOne
        { s with producer := .notified i, consumer := s.consumer.notified }
  | producerUnlock {i : Nat} (hPc : s.producer = .notified i) :
      Step count last s .producerUnlock { s with producer := .loop (i + 1), queueMutex := none }
  | consumerLock (hPc : s.consumer = .loop) (hFree : s.queueMutex = none) :
      Step count last s .consumerLock
        { s with consumer := .locked, queueMutex := some .consumer }
  | block (hPc : s.consumer = .locked) (hEmpty : s.dataQueue = []) :
      Step count last s .test { s with consumer := .waiting, queueMutex := none }
  | pass (hPc : s.consumer = .locked) (hSome : s.dataQueue ≠ []) :
      Step count last s .test { s with consumer := .ready }
  | relock (hPc : s.consumer = .woken) (hFree : s.queueMutex = none) :
      Step count last s .relock { s with consumer := .locked, queueMutex := some .consumer }
  | pop {value : Nat} {rest : List Nat} (hPc : s.consumer = .ready)
      (hQueue : s.dataQueue = value :: rest) :
      Step count last s .pop
        { s with
          consumer := .popped value
          dataQueue := rest
          output := s.output ++ [.consumed value] }
  | leave {value : Nat} (hPc : s.consumer = .popped value) (hLast : value = last) :
      Step count last s .consumerUnlock { s with consumer := .done, queueMutex := none }
  | again {value : Nat} (hPc : s.consumer = .popped value) (hMore : value ≠ last) :
      Step count last s .consumerUnlock { s with consumer := .loop, queueMutex := none }
  | join (hProducer : s.producer = .loop count) (hConsumer : s.consumer = .done)
      (hBefore : s.joined = false) :
      Step count last s .join { s with joined := true, output := s.output ++ [.finished] }
  | spuriousWake (hPc : s.consumer = .waiting) :
      Step count last s .spuriousWake { s with consumer := .woken }

theorem step_cases {count last : Nat} {s s' : State} {a : Action}
    (h : step count last s a = some s') : Step count last s a s' := by
  cases a with
  | producerLock =>
      simp only [step] at h
      split at h
      · rename_i i hPc
        split at h
        · rename_i hEnabled
          obtain rfl := Option.some.inj h
          exact .producerLock hPc hEnabled.1 hEnabled.2
        · simp at h
      · simp at h
  | push =>
      simp only [step] at h
      split at h
      · rename_i i hPc
        obtain rfl := Option.some.inj h
        exact .push hPc
      · simp at h
  | notifyOne =>
      simp only [step] at h
      split at h
      · rename_i i hPc
        obtain rfl := Option.some.inj h
        exact .notifyOne hPc
      · simp at h
  | producerUnlock =>
      simp only [step] at h
      split at h
      · rename_i i hPc
        obtain rfl := Option.some.inj h
        exact .producerUnlock hPc
      · simp at h
  | consumerLock =>
      simp only [step] at h
      split at h
      · rename_i hEnabled
        obtain rfl := Option.some.inj h
        exact .consumerLock hEnabled.1 hEnabled.2
      · simp at h
  | test =>
      simp only [step] at h
      split at h
      · rename_i hPc
        split at h
        · rename_i hEmpty
          obtain rfl := Option.some.inj h
          exact .block hPc hEmpty
        · rename_i hSome
          obtain rfl := Option.some.inj h
          exact .pass hPc hSome
      · simp at h
  | relock =>
      simp only [step] at h
      split at h
      · rename_i hEnabled
        obtain rfl := Option.some.inj h
        exact .relock hEnabled.1 hEnabled.2
      · simp at h
  | pop =>
      simp only [step] at h
      split at h
      · rename_i value rest hPc hQueue
        obtain rfl := Option.some.inj h
        exact .pop hPc hQueue
      · simp at h
  | consumerUnlock =>
      simp only [step] at h
      split at h
      · rename_i value hPc
        obtain rfl := Option.some.inj h
        by_cases hLast : value = last
        · rw [if_pos hLast]
          exact .leave hPc hLast
        · rw [if_neg hLast]
          exact .again hPc hLast
      · simp at h
  | join =>
      simp only [step] at h
      split at h
      · rename_i hEnabled
        obtain rfl := Option.some.inj h
        exact .join hEnabled.1 hEnabled.2.1 hEnabled.2.2
      · simp at h
  | spuriousWake =>
      simp only [step] at h
      split at h
      · rename_i hPc
        obtain rfl := Option.some.inj h
        exact .spuriousWake hPc
      · simp at h

end ProducerConsumer
end LinuxCppLearn
