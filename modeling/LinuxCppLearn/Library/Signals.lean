import LinuxCppLearn.Library.X86

/-!
# Runs with signals in between

Between any two steps of a program a signal may be handled on its stack.  What
is claimed of such runs must therefore not look below the red zone.

* `Stable` — properties that no signal handler changes.
* `Leads` — from `P`, whatever signals arrive, no step faults, and `n` steps
  lead to `Q`.
* `Leads.nil`, `Leads.cons`, `Leads.trans` — how such runs are composed.
-/

namespace X86

open ByteMemory StepSystem

variable {ω : Type} {m : Machine ω} {P P' Q Q' R : State ω → Prop} {n k : Nat}

def Stable (m : Machine ω) (P : State ω → Prop) : Prop :=
  ∀ s frame, P s → P (s.signal m.stack frame)

/-- The number of steps that the program itself makes. -/
def ownSteps (as : List Action) : Nat := as.countP Action.own

@[simp]
theorem ownSteps_nil : ownSteps [] = 0 := rfl

@[simp]
theorem ownSteps_step (as : List Action) : ownSteps (.step :: as) = ownSteps as + 1 :=
  List.countP_cons_of_pos rfl

@[simp]
theorem ownSteps_signal (frame : Memory) (as : List Action) :
    ownSteps (.signal frame :: as) = ownSteps as :=
  List.countP_cons_of_neg (by simp [Action.own])

@[simp]
theorem ownSteps_append (as bs : List Action) :
    ownSteps (as ++ bs) = ownSteps as + ownSteps bs :=
  List.countP_append

def Leads (m : Machine ω) (P : State ω → Prop) (n : Nat) (Q : State ω → Prop) : Prop :=
  ∀ s, P s → ∀ as, ownSteps as ≤ n →
    ∃ s', run m.act s as = some s' ∧ (ownSteps as = n → Q s')

theorem Leads.mono (h : Leads m P n Q) (hPre : ∀ s, P' s → P s) (hPost : ∀ s, Q s → Q' s) :
    Leads m P' n Q' := by
  intro s hP as hCount
  obtain ⟨s', hRun, hQ⟩ := h s (hPre s hP) as hCount
  exact ⟨s', hRun, fun hAll => hPost s' (hQ hAll)⟩

/-- A case distinction over what the state before fixes. -/
theorem Leads.exists {ι : Type*} {P : ι → State ω → Prop} (h : ∀ i, Leads m (P i) n Q) :
    Leads m (fun s => ∃ i, P i s) n Q :=
  fun s ⟨i, hP⟩ => h i s hP

/-- Signals only. -/
theorem Leads.nil (hStable : Stable m P) : Leads m P 0 P := by
  intro s hP as hCount
  induction as generalizing s with
  | nil => exact ⟨s, rfl, fun _ => hP⟩
  | cons a as ih =>
      cases a with
      | step =>
          rw [ownSteps_step] at hCount
          omega
      | signal frame =>
          rw [ownSteps_signal] at hCount ⊢
          rw [run_cons]
          exact ih _ (hStable s frame hP) hCount

/-- One step of the program, behind any number of signals. -/
theorem Leads.cons (hStable : Stable m P) (hStep : ∀ s, P s → ∃ s', m.step s = some s' ∧ Q s')
    (hRest : Leads m Q n R) : Leads m P (n + 1) R := by
  intro s hP as hCount
  induction as generalizing s with
  | nil => exact ⟨s, rfl, fun hAll => by simp at hAll⟩
  | cons a as ih =>
      rw [run_cons]
      cases a with
      | step =>
          rw [ownSteps_step] at hCount ⊢
          obtain ⟨t, hTaken, hQ⟩ := hStep s hP
          have hAct : m.act s .step = some t := hTaken
          rw [hAct, Option.bind_some]
          obtain ⟨s', hRun, hR⟩ := hRest t hQ as (by omega)
          exact ⟨s', hRun, fun hAll => hR (by omega)⟩
      | signal frame =>
          rw [ownSteps_signal] at hCount ⊢
          exact ih _ (hStable s frame hP) hCount

theorem Leads.one (hPre : Stable m P) (hPost : Stable m Q)
    (hStep : ∀ s, P s → ∃ s', m.step s = some s' ∧ Q s') : Leads m P 1 Q :=
  Leads.cons hPre hStep (Leads.nil hPost)

/-- A run with more than `n` steps, cut behind the first `n` of them. -/
theorem exists_prefix_ownSteps {as : List Action} (h : n ≤ ownSteps as) :
    ∃ front back, as = front ++ back ∧ ownSteps front = n := by
  induction as generalizing n with
  | nil =>
      refine ⟨[], [], rfl, ?_⟩
      rw [ownSteps_nil] at h ⊢
      omega
  | cons a as ih =>
      cases n with
      | zero => exact ⟨[], a :: as, rfl, rfl⟩
      | succ n =>
          cases a with
          | step =>
              rw [ownSteps_step] at h
              obtain ⟨front, back, hSplit, hCount⟩ := ih (n := n) (by omega)
              exact ⟨.step :: front, back, by rw [hSplit]; rfl, by rw [ownSteps_step, hCount]⟩
          | signal frame =>
              rw [ownSteps_signal] at h
              obtain ⟨front, back, hSplit, hCount⟩ := ih h
              exact ⟨.signal frame :: front, back, by rw [hSplit]; rfl, by
                rw [ownSteps_signal, hCount]⟩

theorem Leads.trans (h : Leads m P n Q) (h' : Leads m Q k R) : Leads m P (n + k) R := by
  intro s hP as hCount
  by_cases hShort : ownSteps as < n
  · obtain ⟨s', hRun, -⟩ := h s hP as (by omega)
    exact ⟨s', hRun, fun hAll => by omega⟩
  · obtain ⟨front, back, rfl, hFront⟩ := exists_prefix_ownSteps (Nat.not_lt.mp hShort)
    rw [ownSteps_append] at hCount ⊢
    obtain ⟨t, hRun, hQ⟩ := h s hP front (by omega)
    obtain ⟨s', hRun', hR⟩ := h' t (hQ hFront) back (by omega)
    exact ⟨s', by rw [run_append, hRun]; exact hRun', fun hAll => hR (by omega)⟩

end X86
