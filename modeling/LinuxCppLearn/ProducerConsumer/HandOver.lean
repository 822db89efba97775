import LinuxCppLearn.Library.Quiescence
import LinuxCppLearn.ProducerConsumer.Model

/-!
# Every number is handed over

* `Inv` — what the mutex protects: the numbers taken and those in the queue are the
  numbers produced, and a consumer that is blocked beside a number is about to be notified.
* `work` — how many steps are left; only a spurious wake-up adds to them.
* `numbers_handed_over` — what every schedule comes to.
-/

namespace LinuxCppLearn
namespace ProducerConsumer

open StepSystem Quiescence

variable {count last : Nat} {s s' : State} {a : Action} {as : List Action}

/-! ## What has been printed -/

def Line.produced? : Line → Option Nat
  | .produced i => some i
  | _ => none

def Line.consumed? : Line → Option Nat
  | .consumed value => some value
  | _ => none

def producedIn (output : List Line) : List Nat :=
  output.filterMap Line.produced?

def consumedIn (output : List Line) : List Nat :=
  output.filterMap Line.consumed?

section Output

variable {output : List Line} {i : Nat}

@[simp] theorem producedIn_produced :
    producedIn (output ++ [.produced i]) = producedIn output ++ [i] :=
  List.filterMap_append

@[simp] theorem producedIn_consumed : producedIn (output ++ [.consumed i]) = producedIn output := by
  simp [producedIn, Line.produced?]

@[simp] theorem producedIn_finished : producedIn (output ++ [.finished]) = producedIn output := by
  simp [producedIn, Line.produced?]

@[simp] theorem consumedIn_produced : consumedIn (output ++ [.produced i]) = consumedIn output := by
  simp [consumedIn, Line.consumed?]

@[simp] theorem consumedIn_consumed :
    consumedIn (output ++ [.consumed i]) = consumedIn output ++ [i] :=
  List.filterMap_append

@[simp] theorem consumedIn_finished : consumedIn (output ++ [.finished]) = consumedIn output := by
  simp [consumedIn, Line.consumed?]

end Output

/-! ## The invariant -/

/-- The producer is in the body of its loop, with the mutex. -/
def ProducerPc.Inside : ProducerPc → Prop
  | .loop _ => False
  | _ => True

def ConsumerPc.Inside : ConsumerPc → Prop
  | .locked | .ready | .popped _ => True
  | _ => False

/-- How many numbers the producer has pushed. -/
def ProducerPc.made : ProducerPc → Nat
  | .loop i | .locked i => i
  | .pushed i | .notified i => i + 1

/-- `i < count` is known behind the test of the loop. -/
def ProducerPc.Within (count : Nat) : ProducerPc → Prop
  | .loop i => i ≤ count
  | .locked i | .pushed i | .notified i => i < count

/-- How many numbers the consumer has taken. -/
def ConsumerPc.Behind (last taken : Nat) : ConsumerPc → Prop
  | .popped value => value + 1 = taken ∧ value ≤ last
  | .done => taken = last + 1
  | _ => taken ≤ last

/-- Whoever is inside has the mutex, so that there is only one. -/
structure MutexInv (s : State) : Prop where
  producer : s.queueMutex = some .producer ↔ s.producer.Inside
  consumer : s.queueMutex = some .consumer ↔ s.consumer.Inside

theorem mutexInv_init : MutexInv init := by
  constructor <;> simp [init, ProducerPc.Inside, ConsumerPc.Inside]

theorem inside_notified {pc : ConsumerPc} : pc.notified.Inside ↔ pc.Inside := by
  cases pc <;> simp [ConsumerPc.notified, ConsumerPc.Inside]

theorem mutexInv_step (hInv : MutexInv s) (h : step count last s a = some s') :
    MutexInv s' := by
  obtain ⟨hProducer, hConsumer⟩ := hInv
  cases step_cases h with
  | notifyOne hPc => exact ⟨by simpa [hPc, ProducerPc.Inside] using hProducer,
      hConsumer.trans inside_notified.symm⟩
  | producerLock | push | producerUnlock | consumerLock | block | pass | relock | pop | leave
    | again | join | spuriousWake =>
      constructor <;> simp_all [ProducerPc.Inside, ConsumerPc.Inside]

/-- What has been produced is taken or waits, in its order. -/
structure NumbersInv (count last : Nat) (s : State) : Prop where
  produced : producedIn s.output = List.range s.producer.made
  handed : consumedIn s.output ++ s.dataQueue = List.range s.producer.made
  within : s.producer.Within count
  behind : s.consumer.Behind last (consumedIn s.output).length

theorem numbersInv_init : NumbersInv count last init := by
  constructor <;>
    simp [init, producedIn, consumedIn, ProducerPc.made, ProducerPc.Within, ConsumerPc.Behind]

/-- The two parts of a range. -/
theorem range_split {taken queue : List Nat} {made : Nat} (h : taken ++ queue = List.range made) :
    taken.length ≤ made ∧ taken = List.range taken.length ∧
      queue = List.range' taken.length (made - taken.length) := by
  rw [List.range_eq_range'] at h
  obtain ⟨k, hLe, hTaken, hQueue⟩ := List.range'_eq_append_iff.mp h.symm
  have hLength : taken.length = k := by rw [hTaken, List.length_range']
  rw [hLength, List.range_eq_range']
  exact ⟨hLe, hTaken, by simpa using hQueue⟩

/-- The first number in the queue is the number of those taken before. -/
theorem NumbersInv.front (h : NumbersInv count last s) {value : Nat} {rest : List Nat}
    (hQueue : s.dataQueue = value :: rest) : value = (consumedIn s.output).length := by
  obtain ⟨-, -, hRest⟩ := range_split h.handed
  rw [hQueue] at hRest
  cases hMore : s.producer.made - (consumedIn s.output).length with
  | zero => simp [hMore] at hRest
  | succ more =>
      rw [hMore, List.range'_succ] at hRest
      exact (List.cons.inj hRest).1

theorem behind_notified {pc : ConsumerPc} {taken : Nat} :
    pc.notified.Behind last taken ↔ pc.Behind last taken := by
  cases pc <;> simp [ConsumerPc.notified, ConsumerPc.Behind]

theorem numbersInv_step (hInv : NumbersInv count last s) (h : step count last s a = some s') :
    NumbersInv count last s' := by
  have hFront {value : Nat} {rest : List Nat} (hQueue : s.dataQueue = value :: rest) :=
    hInv.front hQueue
  obtain ⟨hProduced, hHanded, hWithin, hBehind⟩ := hInv
  cases step_cases h with
  | @producerLock i hPc hMore =>
      rw [hPc] at hProduced hHanded
      exact ⟨hProduced, hHanded, hMore, hBehind⟩
  | @push i hPc =>
      rw [hPc] at hProduced hHanded hWithin
      have hMade : List.range (i + 1) = List.range i ++ [i] := List.range_succ
      refine ⟨?_, ?_, hWithin, by simpa using hBehind⟩
      · rw [producedIn_produced, hProduced]
        exact hMade.symm
      · rw [consumedIn_produced, ← List.append_assoc, hHanded]
        exact hMade.symm
  | notifyOne hPc =>
      rw [hPc] at hProduced hHanded hWithin
      exact ⟨hProduced, hHanded, hWithin, behind_notified.mpr hBehind⟩
  | producerUnlock hPc =>
      rw [hPc] at hProduced hHanded hWithin
      exact ⟨hProduced, hHanded, hWithin, hBehind⟩
  | consumerLock hPc | block hPc | pass hPc | relock hPc | spuriousWake hPc =>
      rw [hPc] at hBehind
      exact ⟨hProduced, hHanded, hWithin, hBehind⟩
  | @pop value rest hPc hQueue =>
      have hValue := hFront hQueue
      rw [hPc] at hBehind
      have hLe : (consumedIn s.output).length ≤ last := hBehind
      refine ⟨by simpa using hProduced, ?_, hWithin, ?_⟩
      · rw [consumedIn_consumed, List.append_assoc, List.singleton_append, ← hQueue]
        exact hHanded
      · rw [consumedIn_consumed, List.length_append, List.length_singleton, ← hValue]
        exact ⟨rfl, hValue ▸ hLe⟩
  | leave hPc hLast =>
      rw [hPc] at hBehind
      obtain ⟨hTaken, -⟩ := hBehind
      refine ⟨hProduced, hHanded, hWithin, ?_⟩
      show (consumedIn s.output).length = last + 1
      omega
  | again hPc hMore =>
      rw [hPc] at hBehind
      obtain ⟨hTaken, hLe⟩ := hBehind
      refine ⟨hProduced, hHanded, hWithin, ?_⟩
      show (consumedIn s.output).length ≤ last
      omega
  | join =>
      exact ⟨by simpa using hProduced, by simpa using hHanded, hWithin, by simpa using hBehind⟩

/-- Where a thread is, beside what it needs there. -/
structure PlacesInv (count : Nat) (s : State) : Prop where
  ready : s.consumer = .ready → s.dataQueue ≠ []
  awake : s.consumer = .waiting → s.dataQueue = [] ∨ ∃ i, s.producer = .pushed i
  joined : s.joined = true → s.consumer = .done ∧ s.producer = .loop count ∧
    s.output.getLast? = some .finished

theorem placesInv_init : PlacesInv count init := by
  constructor <;> simp [init]

theorem notified_eq_ready {pc : ConsumerPc} : pc.notified = .ready ↔ pc = .ready := by
  cases pc <;> simp [ConsumerPc.notified]

theorem notified_ne_waiting {pc : ConsumerPc} : pc.notified ≠ .waiting := by
  cases pc <;> simp [ConsumerPc.notified]

/-- **No lost wake-up**: a number comes into the queue in front of a notification, and the
consumer blocks in front of an empty queue only. -/
theorem placesInv_step (hInv : PlacesInv count s) (h : step count last s a = some s') :
    PlacesInv count s' := by
  obtain ⟨hReady, hAwake, hJoined⟩ := hInv
  cases step_cases h with
  | notifyOne hPc =>
      refine ⟨fun hAt => hReady (notified_eq_ready.mp hAt),
        fun hAt => absurd hAt notified_ne_waiting, fun hEnd => ?_⟩
      have hAtEnd := (hJoined hEnd).2.1
      simp [hPc] at hAtEnd
  | producerLock hPc hMore =>
      refine ⟨hReady, fun hAt => .inl ?_, fun hEnd => ?_⟩
      · simpa [hPc] using hAwake hAt
      · have hAtEnd := (hJoined hEnd).2.1
        rw [hPc, ProducerPc.loop.injEq] at hAtEnd
        omega
  | push | producerUnlock | consumerLock | block | pass | relock | pop | leave | again | join
    | spuriousWake => constructor <;> simp_all

structure Inv (count last : Nat) (s : State) : Prop where
  mutex : MutexInv s
  numbers : NumbersInv count last s
  places : PlacesInv count s

theorem inv_run (hRun : run (step count last) init as = some s) : Inv count last s := by
  refine (reachable_of_run hRun).invariant (P := Inv count last)
    ⟨mutexInv_init, numbersInv_init, placesInv_init⟩ ?_
  rintro s a s' ⟨hMutex, hNumbers, hPlaces⟩ - hStep
  exact ⟨mutexInv_step hMutex hStep, numbersInv_step hNumbers hStep, placesInv_step hPlaces hStep⟩

/-! ## The steps that are left -/

/-- A number costs the producer four steps, wakes the consumer into two, and costs it
four. -/
def ProducerPc.left (count : Nat) : ProducerPc → Nat
  | .loop i => 10 * (count - i)
  | .locked i => 10 * (count - i) - 1
  | .pushed i => 10 * (count - i) - 6
  | .notified i => 10 * (count - i) - 9

/-- What the consumer does before it blocks, beside the numbers that wait. -/
def ConsumerPc.left : ConsumerPc → Nat
  | .loop | .woken => 2
  | .locked => 1
  | .waiting | .ready | .done => 0
  | .popped _ => 3

def work (count : Nat) (s : State) : Nat :=
  s.producer.left count + 4 * s.dataQueue.length + s.consumer.left + if s.joined then 0 else 1

theorem left_notified (pc : ConsumerPc) : pc.notified.left ≤ pc.left + 2 := by
  cases pc <;> simp [ConsumerPc.notified, ConsumerPc.left]

/-- Every step but a spurious wake-up. -/
def Own (a : Action) : Prop :=
  a ≠ .spuriousWake

instance (a : Action) : Decidable (Own a) :=
  inferInstanceAs (Decidable (_ ≠ _))

theorem work_step (hInv : Inv count last s) (h : step count last s a = some s') (hOwn : Own a) :
    work count s' < work count s := by
  have hWithin := hInv.numbers.within
  unfold work
  cases step_cases h with
  | producerLock hPc hMore =>
      rw [hPc]
      simp only [ProducerPc.left]
      omega
  | push hPc =>
      rw [hPc] at hWithin ⊢
      have hLt : _ < count := hWithin
      simp only [ProducerPc.left, List.length_append, List.length_singleton]
      omega
  | notifyOne hPc =>
      have hWoken := left_notified s.consumer
      rw [hPc] at hWithin ⊢
      have hLt : _ < count := hWithin
      simp only [ProducerPc.left]
      omega
  | producerUnlock hPc =>
      rw [hPc] at hWithin ⊢
      have hLt : _ < count := hWithin
      simp only [ProducerPc.left]
      omega
  | consumerLock hPc | block hPc | pass hPc | relock hPc | leave hPc | again hPc =>
      rw [hPc]
      simp only [ConsumerPc.left]
      omega
  | pop hPc hQueue =>
      rw [hPc, hQueue]
      simp only [ConsumerPc.left, List.length_cons]
      omega
  | join _ _ hBefore => simp [hBefore]
  | spuriousWake => exact absurd rfl hOwn

theorem work_wake (h : step count last s .spuriousWake = some s') :
    work count s' = work count s + 2 := by
  cases step_cases h with
  | spuriousWake hPc =>
      unfold work
      rw [hPc]
      simp only [ConsumerPc.left]
      omega

/-- The steps made and the steps left. -/
theorem steps_and_work (hRun : run (step count last) init as = some s) :
    as.countP (fun a => Own a) + work count s ≤ 10 * count + 3 + 2 * as.count .spuriousWake := by
  refine run_invariant (P := fun as s => as.countP (fun a => Own a) + work count s ≤
    10 * count + 3 + 2 * as.count .spuriousWake) hRun ?_ ?_
  · simp [work, init, ProducerPc.left, ConsumerPc.left]
  · intro as s a s' hBefore hLe hStep
    rw [List.countP_append, List.count_append]
    by_cases hOwn : Own a
    · have hLess := work_step (inv_run hBefore) hStep hOwn
      have hOther : a ≠ .spuriousWake := hOwn
      simp [hOwn, hOther]
      omega
    · obtain rfl : a = .spuriousWake := by
        by_contra hOther
        exact hOwn hOther
      have hMore := work_wake hStep
      simp [hOwn]
      omega

/-! ## Where nothing can go on -/

/-- Whoever has the mutex goes on. -/
theorem stuck_free (hInv : Inv count last s) (hStuck : Stuck (step count last) Own s) :
    s.queueMutex = none := by
  cases hOwner : s.queueMutex with
  | none => rfl
  | some side =>
      cases side with
      | producer =>
          have hInside := hInv.mutex.producer.mp hOwner
          cases hPc : s.producer with
          | loop i =>
              rw [hPc] at hInside
              exact absurd hInside id
          | locked i => simpa [step, hPc] using hStuck .push (by decide)
          | pushed i => simpa [step, hPc] using hStuck .notifyOne (by decide)
          | notified i => simpa [step, hPc] using hStuck .producerUnlock (by decide)
      | consumer =>
          have hInside := hInv.mutex.consumer.mp hOwner
          cases hPc : s.consumer with
          | loop | waiting | woken | done =>
              rw [hPc] at hInside
              exact absurd hInside id
          | locked =>
              have hTest := hStuck .test (by decide)
              by_cases hEmpty : s.dataQueue = []
              · simp [step, hPc, hEmpty] at hTest
              · simp [step, hPc, hEmpty] at hTest
          | ready =>
              obtain ⟨value, rest, hQueue⟩ := List.exists_cons_of_ne_nil (hInv.places.ready hPc)
              simpa [step, hPc, hQueue] using hStuck .pop (by decide)
          | popped value => simpa [step, hPc] using hStuck .consumerUnlock (by decide)

/-- The producer has returned; so has the consumer, or it is blocked in front of an empty
queue. -/
theorem stuck_cases (hInv : Inv count last s) (hStuck : Stuck (step count last) Own s) :
    s.producer = .loop count ∧
      (s.consumer = .done ∨ s.consumer = .waiting ∧ s.dataQueue = []) := by
  have hFree := stuck_free hInv hStuck
  have hReturned : s.producer = .loop count := by
    cases hPc : s.producer with
    | loop i =>
        have hLe : i ≤ count := by simpa [hPc, ProducerPc.Within] using hInv.numbers.within
        have hLock := hStuck .producerLock (by decide)
        simp only [step, hPc, hFree, and_true, ite_eq_right_iff, reduceCtorEq, imp_false] at hLock
        rw [show i = count by omega]
    | locked i | pushed i | notified i =>
        have hOwner := hInv.mutex.producer.mpr (by rw [hPc]; trivial)
        simp [hFree] at hOwner
  refine ⟨hReturned, ?_⟩
  cases hPc : s.consumer with
  | loop => simpa [step, hPc, hFree] using hStuck .consumerLock (by decide)
  | woken => simpa [step, hPc, hFree] using hStuck .relock (by decide)
  | waiting =>
      rcases hInv.places.awake hPc with hEmpty | ⟨i, hPushed⟩
      · exact .inr ⟨rfl, hEmpty⟩
      · simp [hReturned] at hPushed
  | done => exact .inl rfl
  | locked | ready | popped value =>
      have hOwner := hInv.mutex.consumer.mpr (by rw [hPc]; trivial)
      simp [hFree] at hOwner

/-- **What every schedule comes to.**  Only one thread is inside at a time; the numbers are
produced and consumed in order, none is lost and none is consumed twice; there is a bound
on the steps, to which a spurious wake-up adds two.  Where nothing can go on, all numbers
have been produced, and if the last number to consume is one of them the consumer has
stopped behind it and `main` has printed its line.  Otherwise the consumer has consumed all
of them and waits for ever. -/
theorem numbers_handed_over (hRun : run (step count last) init as = some s) :
    ¬ (s.producer.Inside ∧ s.consumer.Inside) ∧
    (∃ made taken, taken ≤ made ∧ made ≤ count ∧ taken ≤ last + 1 ∧
      producedIn s.output = List.range made ∧ consumedIn s.output = List.range taken ∧
      s.dataQueue = List.range' taken (made - taken)) ∧
    as.countP (fun a => Own a) ≤ 10 * count + 3 + 2 * as.count .spuriousWake ∧
    (Stuck (step count last) Own s →
      producedIn s.output = List.range count ∧
      (last < count → consumedIn s.output = List.range (last + 1) ∧ s.consumer = .done ∧
        s.output.getLast? = some .finished) ∧
      (count ≤ last → consumedIn s.output = List.range count ∧ s.consumer = .waiting ∧
        s.joined = false)) := by
  have hInv := inv_run hRun
  have hNumbers := hInv.numbers
  obtain ⟨hLe, hTaken, hQueue⟩ := range_split hNumbers.handed
  have hBehind := hNumbers.behind
  refine ⟨?_, ⟨s.producer.made, (consumedIn s.output).length, hLe, ?_, ?_, hNumbers.produced,
    hTaken, hQueue⟩, ?_, fun hStuck => ?_⟩
  · rintro ⟨hProducer, hConsumer⟩
    have hOwner := hInv.mutex.producer.mpr hProducer
    rw [hInv.mutex.consumer.mpr hConsumer] at hOwner
    simp at hOwner
  · have hWithin := hNumbers.within
    cases hPc : s.producer <;> simp only [hPc, ProducerPc.Within, ProducerPc.made] at hWithin ⊢ <;>
      omega
  · cases hPc : s.consumer <;> simp only [hPc, ConsumerPc.Behind] at hBehind <;> omega
  · exact le_trans (Nat.le_add_right _ _) (steps_and_work hRun)
  · obtain ⟨hReturned, hConsumer⟩ := stuck_cases hInv hStuck
    have hAll : s.producer.made = count := by rw [hReturned]; rfl
    rw [hAll] at hLe hQueue
    refine ⟨hAll ▸ hNumbers.produced, fun hLast => ?_, fun hMore => ?_⟩
    · rcases hConsumer with hDone | ⟨hWaits, hEmpty⟩
      · rw [hDone] at hBehind
        have hLength : (consumedIn s.output).length = last + 1 := hBehind
        refine ⟨by rw [hTaken, hLength], hDone, ?_⟩
        cases hJoined : s.joined with
        | true => exact (hInv.places.joined hJoined).2.2
        | false => simpa [step, hReturned, hDone, hJoined] using hStuck .join (by decide)
      · rw [hWaits] at hBehind
        have hTakenLe : (consumedIn s.output).length ≤ last := hBehind
        rw [hEmpty] at hQueue
        have hLength := congrArg List.length hQueue
        simp only [List.length_nil, List.length_range'] at hLength
        omega
    · rcases hConsumer with hDone | ⟨hWaits, hEmpty⟩
      · rw [hDone] at hBehind
        have hTakenAll : (consumedIn s.output).length = last + 1 := hBehind
        omega
      · rw [hEmpty] at hQueue
        have hLength := congrArg List.length hQueue
        simp only [List.length_nil, List.length_range'] at hLength
        refine ⟨by rw [hTaken, show (consumedIn s.output).length = count by omega], hWaits, ?_⟩
        cases hJoined : s.joined with
        | false => rfl
        | true =>
            have hDone := (hInv.places.joined hJoined).1
            rw [hWaits] at hDone
            simp at hDone

/-! ## The program of the source -/

/-- Each number is taken before the next one is produced. -/
def inTurns : List Action :=
  (List.replicate 5 [.producerLock, .push, .notifyOne, .producerUnlock, .consumerLock, .test,
    .pop, .consumerUnlock]).flatten ++ [.join]

/-- The source produces five numbers and stops behind the number 4. -/
theorem numbers_handed_over_inTurns :
    ∃ s, run program init inTurns = some s ∧ inTurns.countP (fun a => Own a) ≤ 53 ∧
      producedIn s.output = List.range 5 ∧ consumedIn s.output = List.range 5 ∧
      s.output.getLast? = some .finished := by
  have hAt : (run program init inTurns).map (fun s => (s.producer, s.consumer, s.joined)) =
      some (.loop 5, .done, true) := by decide
  obtain ⟨s, hRun, hEq⟩ := Option.map_eq_some_iff.mp hAt
  simp only [Prod.mk.injEq] at hEq
  obtain ⟨hProducer, hConsumer, hJoined⟩ := hEq
  obtain ⟨-, -, hSteps, hEnd⟩ := numbers_handed_over hRun
  have hStuck : Stuck (step 5 4) Own s := by
    intro a _
    cases a <;> simp [step, hProducer, hConsumer, hJoined]
  obtain ⟨hProduced, hConsumed, -⟩ := hEnd hStuck
  obtain ⟨hAll, -, hLine⟩ := hConsumed (by decide)
  exact ⟨s, hRun, hSteps, hProduced, hAll, hLine⟩

end ProducerConsumer
end LinuxCppLearn
