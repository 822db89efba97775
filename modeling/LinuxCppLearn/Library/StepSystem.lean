import Mathlib.Data.Option.Basic
import Mathlib.Data.List.Basic
import Mathlib.Data.List.Induction

/-!
# Step systems and their runs

A step system is a partial function `step : σ → α → Option σ`: performing the
action `a` in the state `s` gives `step s a`, and `none` says that `a` is not
enabled there.  Every nondeterministic choice of a system (which thread moves,
what the environment answers) is part of the action, so a finite interleaving
is a list of actions and `run` executes it.

* `Reach step guard init s` — `s` is reached from `init` by steps which all
  meet `guard` in the state they are taken from; `Reachable` is the unguarded
  case.
* `Reach.invariant` — the induction over a run, packaged once.
* `run_invariant` — the same for a property of the state and the run behind it.
* `AlongRun`, `AlongRun.imp`, `alongRun_iff` — a property of every step of a run,
  when it gives another one, and when two of them agree.
* `withHistory`, `reachable_withHistory` — history variables beside the state.
* `reachable_of_run`, `exists_reachable_of_run` — an executed list of actions
  gives a reachable state; `reach_of_run_guarded` does the same for runs which
  check a decidable guard as they go.
-/

namespace StepSystem

variable {σ α : Type*}

/-- Execute the actions in order; `none` as soon as one is not enabled. -/
def run (step : σ → α → Option σ) : σ → List α → Option σ
  | s, [] => some s
  | s, a :: as =>
      match step s a with
      | none => none
      | some s' => run step s' as

@[simp] theorem run_nil (step : σ → α → Option σ) (s : σ) :
    run step s [] = some s := rfl

theorem run_cons (step : σ → α → Option σ) (s : σ) (a : α) (as : List α) :
    run step s (a :: as) = (step s a).bind fun s' => run step s' as := by
  cases h : step s a with
  | none => simp [run, h]
  | some s' => simp [run, h]

theorem run_append (step : σ → α → Option σ) (s : σ) (as bs : List α) :
    run step s (as ++ bs) = (run step s as).bind fun t => run step t bs := by
  induction as generalizing s with
  | nil => rfl
  | cons a as ih =>
      rw [List.cons_append, run_cons, run_cons, Option.bind_assoc]
      congr 1
      funext t
      exact ih t

/-- States reached from `init` by steps that all meet `guard`. -/
inductive Reach (step : σ → α → Option σ) (guard : σ → α → Prop) (init : σ) : σ → Prop
  | start : Reach step guard init init
  | next {s s' : σ} (a : α) (before : Reach step guard init s) (met : guard s a)
      (enabled : step s a = some s') : Reach step guard init s'

/-- States reached by any interleaving. -/
abbrev Reachable (step : σ → α → Option σ) (init : σ) : σ → Prop :=
  Reach step (fun _ _ => True) init

variable {step : σ → α → Option σ} {guard guard' : σ → α → Prop} {init s s' : σ}

/-- **The invariant rule.**  What holds initially and is kept by every guarded
step holds in every state reached. -/
theorem Reach.invariant {P : σ → Prop} (h : Reach step guard init s)
    (hInit : P init)
    (hStep : ∀ s a s', P s → guard s a → step s a = some s' → P s') :
    P s := by
  induction h with
  | start => exact hInit
  | next a _ hMet hEnabled ih => exact hStep _ a _ ih hMet hEnabled

/-- A weaker guard reaches at least the same states. -/
theorem Reach.mono (h : Reach step guard init s)
    (hImp : ∀ s a, guard s a → guard' s a) : Reach step guard' init s := by
  induction h with
  | start => exact Reach.start
  | next a _ hMet hEnabled ih => exact Reach.next a ih (hImp _ _ hMet) hEnabled

theorem Reach.reachable (h : Reach step guard init s) : Reachable step init s :=
  h.mono fun _ _ _ => trivial

theorem Reachable.trans (h : Reachable step init s) (h' : Reachable step s s') :
    Reachable step init s' := by
  induction h' with
  | start => exact h
  | next a _ _ hEnabled ih => exact Reach.next a ih trivial hEnabled

/-- A reachable state is reached again after any further enabled actions. -/
theorem Reachable.run {as : List α} (h : Reachable step init s)
    (hRun : run step s as = some s') : Reachable step init s' := by
  induction as generalizing s with
  | nil =>
      simp only [run_nil, Option.some.injEq] at hRun
      exact hRun ▸ h
  | cons a as ih =>
      rw [run_cons, Option.bind_eq_some_iff] at hRun
      obtain ⟨t, hStep, hRest⟩ := hRun
      exact ih (Reach.next a h trivial hStep) hRest

/-- An executed list of actions reaches its final state. -/
theorem reachable_of_run {as : List α} (hRun : run step init as = some s) :
    Reachable step init s :=
  Reachable.run Reach.start hRun

/-- A test that evaluates to `true` behind a list of actions holds in some
reachable state. -/
theorem exists_reachable_of_run {as : List α} {test : σ → Bool}
    (hRun : (run step init as).map test = some true) :
    ∃ s, Reachable step init s ∧ test s = true := by
  rw [Option.map_eq_some_iff] at hRun
  obtain ⟨s, hRun, hTest⟩ := hRun
  exact ⟨s, reachable_of_run hRun, hTest⟩

/-- The rule for a property of the run and the state: the induction is over the
last action. -/
theorem run_invariant {P : List α → σ → Prop} {as : List α} (hRun : run step init as = some s)
    (hInit : P [] init)
    (hStep : ∀ as s a s', run step init as = some s → P as s → step s a = some s' →
      P (as ++ [a]) s') : P as s := by
  induction as using List.reverseRecOn generalizing s with
  | nil =>
      simp only [run_nil, Option.some.injEq] at hRun
      exact hRun ▸ hInit
  | append_singleton as a ih =>
      rw [run_append, Option.bind_eq_some_iff] at hRun
      obtain ⟨t, hBefore, hLast⟩ := hRun
      rw [run_cons, Option.bind_eq_some_iff] at hLast
      obtain ⟨u, hTaken, hEnd⟩ := hLast
      simp only [run_nil, Option.some.injEq] at hEnd
      subst hEnd
      exact hStep as t a u hBefore (ih hBefore) hTaken

/-- `P` holds of every step that the actions make, in order. -/
def AlongRun (step : σ → α → Option σ) (P : σ → α → σ → Prop) : σ → List α → Prop
  | _, [] => True
  | s, a :: as => ∀ s', step s a = some s' → P s a s' ∧ AlongRun step P s' as

/-- A run can be checked step by step. -/
instance AlongRun.decidable {P : σ → α → σ → Prop} [∀ s a s', Decidable (P s a s')] :
    ∀ s as, Decidable (AlongRun step P s as)
  | _, [] => isTrue trivial
  | s, a :: as =>
      match hStep : step s a with
      | none => isTrue fun s' hEnabled => by simp [hStep] at hEnabled
      | some t =>
          have hIff : P s a t ∧ AlongRun step P t as ↔ AlongRun step P s (a :: as) := by
            simp [AlongRun, hStep]
          have := AlongRun.decidable (P := P) t as
          decidable_of_iff _ hIff

/-- A property of every step of a run gives another one, if it keeps the
invariant that this takes. -/
theorem AlongRun.imp {P Q : σ → α → σ → Prop} {Inv : σ → Prop} {as : List α}
    (hRun : AlongRun step P s as)
    (hStep : ∀ s a s', Inv s → step s a = some s' → P s a s' → Q s a s' ∧ Inv s')
    (hInv : Inv s) : AlongRun step Q s as := by
  induction as generalizing s with
  | nil => trivial
  | cons a as ih =>
      intro s' hEnabled
      obtain ⟨hP, hRest⟩ := hRun s' hEnabled
      obtain ⟨hQ, hInv'⟩ := hStep s a s' hInv hEnabled hP
      exact ⟨hQ, ih hRest hInv'⟩

/-- **Two properties of a run** agree if they agree on every single step from a
state with the invariant, and a step that has the second one keeps it. -/
theorem alongRun_iff {P Q : σ → α → σ → Prop} {Inv : σ → Prop}
    (hStep : ∀ s a s', Inv s → step s a = some s' → (P s a s' ↔ Q s a s') ∧ (Q s a s' → Inv s'))
    {as : List α} (hInv : Inv s) : AlongRun step P s as ↔ AlongRun step Q s as := by
  constructor
  · refine fun hRun => hRun.imp (fun s a s' hInv hEnabled hP => ?_) hInv
    obtain ⟨hIff, hKeeps⟩ := hStep s a s' hInv hEnabled
    exact ⟨hIff.mp hP, hKeeps (hIff.mp hP)⟩
  · refine fun hRun => hRun.imp (fun s a s' hInv hEnabled hQ => ?_) hInv
    obtain ⟨hIff, hKeeps⟩ := hStep s a s' hInv hEnabled
    exact ⟨hIff.mpr hQ, hKeeps hQ⟩

/-- The system with a history that is written down and never read. -/
def withHistory {η : Type*} (step : σ → α → Option σ) (note : σ → η → α → η) :
    σ × η → α → Option (σ × η) :=
  fun u a => (step u.1 a).map fun s' => (s', note u.1 u.2 a)

theorem withHistory_eq_some {η : Type*} {note : σ → η → α → η} {u u' : σ × η} {a : α} :
    withHistory step note u a = some u' ↔ step u.1 a = some u'.1 ∧ u'.2 = note u.1 u.2 a := by
  unfold withHistory
  rw [Option.map_eq_some_iff]
  constructor
  · rintro ⟨s', hStep, rfl⟩
    exact ⟨hStep, rfl⟩
  · rintro ⟨hStep, hNote⟩
    exact ⟨u'.1, hStep, Prod.ext rfl hNote.symm⟩

/-- **Writing a history changes nothing**: the same states are reached with
it and without it. -/
theorem reachable_withHistory {η : Type*} {note : σ → η → α → η} {h₀ : η} :
    Reachable step init s ↔ ∃ h, Reachable (withHistory step note) (init, h₀) (s, h) := by
  constructor
  · intro hReach
    induction hReach with
    | start => exact ⟨h₀, Reach.start⟩
    | @next t s' a _ _ hEnabled ih =>
        obtain ⟨h, hReach⟩ := ih
        exact ⟨note t h a, Reach.next a hReach trivial (withHistory_eq_some.mpr ⟨hEnabled, rfl⟩)⟩
  · rintro ⟨h, hReach⟩
    refine hReach.invariant (P := fun u => Reachable step init u.1) Reach.start ?_
    intro u a u' hBefore _ hEnabled
    exact Reach.next a hBefore trivial (withHistory_eq_some.mp hEnabled).1

/-- The step function which refuses the steps that do not meet the guard. -/
def guarded (step : σ → α → Option σ) (guard : σ → α → Prop)
    [∀ s a, Decidable (guard s a)] : σ → α → Option σ :=
  fun s a => if guard s a then step s a else none

theorem run_of_run_guarded [∀ s a, Decidable (guard s a)] {as : List α}
    (hRun : run (guarded step guard) s as = some s') : run step s as = some s' := by
  induction as generalizing s with
  | nil => exact hRun
  | cons a as ih =>
      rw [run_cons, Option.bind_eq_some_iff] at hRun ⊢
      obtain ⟨t, hTaken, hRest⟩ := hRun
      unfold guarded at hTaken
      split at hTaken
      · exact ⟨t, hTaken, ih hRest⟩
      · simp at hTaken

theorem reach_of_run_guarded [∀ s a, Decidable (guard s a)] {as : List α}
    (hRun : run (guarded step guard) init as = some s) : Reach step guard init s := by
  have hReach := reachable_of_run hRun
  clear hRun
  induction hReach with
  | start => exact Reach.start
  | next a _ _ hEnabled ih =>
      unfold guarded at hEnabled
      split at hEnabled
      · rename_i hMet
        exact Reach.next a ih hMet hEnabled
      · simp at hEnabled

end StepSystem
