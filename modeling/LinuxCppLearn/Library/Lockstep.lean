import Mathlib.Tactic.Common
import LinuxCppLearn.Library.StepSystem

/-!
# Two systems in lockstep

Two step systems over the same actions, started side by side.  `Option.Rel`
compares what they answer to one action: both are disabled, or both go on, to
related states.

* `InStep` — along a list of actions both are always enabled together, and `Obs`
  relates them behind every action.
* `Guarded` — a condition on every pair of states that an action is taken from.
* `inStep_of_guarded` — a relation between the two that the condition keeps.
* `inStep_iff` — when the two agree: one relation that the condition keeps, and
  a condition that follows from `Obs` behind the step.
* `InStep.obs_of_run` — what it says of two finished runs.
* `guarded_of_invariant` — a relation that implies the condition and is kept.
-/

namespace Lockstep

universe u v w

section Rel

variable {α : Type u} {β : Type v} {γ : Type u} {δ : Type v} {r q : α → β → Prop}
  {x : Option α} {y : Option β}

theorem rel_imp (h : Option.Rel r x y)
    (hImp : ∀ a b, x = some a → y = some b → r a b → q a b) : Option.Rel q x y := by
  cases h with
  | some hRel => exact .some (hImp _ _ rfl rfl hRel)
  | none => exact .none

theorem rel_bind {p : γ → δ → Prop} {f : α → Option γ} {g : β → Option δ}
    (h : Option.Rel r x y) (hBody : ∀ a b, r a b → Option.Rel p (f a) (g b)) :
    Option.Rel p (x.bind f) (y.bind g) := by
  cases h with
  | some hRel => exact hBody _ _ hRel
  | none => exact .none

theorem rel_map {p : γ → δ → Prop} {f : α → γ} {g : β → δ} (h : Option.Rel r x y)
    (hBody : ∀ a b, r a b → p (f a) (g b)) : Option.Rel p (x.map f) (y.map g) := by
  cases h with
  | some hRel => exact .some (hBody _ _ hRel)
  | none => exact .none

end Rel

section Systems

variable {σ : Type u} {τ : Type v} {α : Type w}

def InStep (step : σ → α → Option σ) (step' : τ → α → Option τ) (Obs : α → σ → τ → Prop) :
    σ → τ → List α → Prop
  | _, _, [] => True
  | s, t, a :: as =>
      Option.Rel (fun s' t' => Obs a s' t' ∧ InStep step step' Obs s' t' as) (step s a) (step' t a)

def Guarded (step : σ → α → Option σ) (step' : τ → α → Option τ) (G : σ → τ → α → Prop) :
    σ → τ → List α → Prop
  | _, _, [] => True
  | s, t, a :: as =>
      G s t a ∧ ∀ s' t', step s a = some s' → step' t a = some t' →
        Guarded step step' G s' t' as

variable {step : σ → α → Option σ} {step' : τ → α → Option τ} {Obs : α → σ → τ → Prop}
  {G : σ → τ → α → Prop} {R : σ → τ → Prop} {s : σ} {t : τ}

/-- **Lockstep under a condition** that keeps a relation between the two. -/
theorem inStep_of_guarded
    (hKeeps : ∀ s t a, R s t → G s t a →
      Option.Rel (fun s' t' => Obs a s' t' ∧ R s' t') (step s a) (step' t a))
    {as : List α} (h : R s t) (hMet : Guarded step step' G s t as) :
    InStep step step' Obs s t as := by
  induction as generalizing s t with
  | nil => trivial
  | cons a as ih =>
      refine rel_imp (hKeeps s t a h hMet.1) fun s' t' hS hT hRel => ?_
      exact ⟨hRel.1, ih hRel.2 (hMet.2 s' t' hS hT)⟩

/-- **Lockstep exactly under a condition.** -/
theorem inStep_iff
    (hKeeps : ∀ s t a, R s t → G s t a →
      Option.Rel (fun s' t' => Obs a s' t' ∧ R s' t') (step s a) (step' t a))
    (hExact : ∀ s t a, R s t → Option.Rel (Obs a) (step s a) (step' t a) → G s t a)
    {as : List α} (h : R s t) :
    InStep step step' Obs s t as ↔ Guarded step step' G s t as := by
  refine ⟨fun hStep => ?_, inStep_of_guarded hKeeps h⟩
  induction as generalizing s t with
  | nil => trivial
  | cons a as ih =>
      have hMet : G s t a := hExact s t a h (rel_imp hStep fun _ _ _ _ hBoth => hBoth.1)
      refine ⟨hMet, fun s' t' hS hT => ?_⟩
      have hNext := hKeeps s t a h hMet
      unfold InStep at hStep
      rw [hS, hT] at hNext hStep
      cases hNext with
      | some hRel =>
          cases hStep with
          | some hRest => exact ih hRel.2 hRest.2

theorem guarded_of_invariant (hGuard : ∀ s t a, R s t → G s t a)
    (hKeeps : ∀ s t a s' t', R s t → step s a = some s' → step' t a = some t' → R s' t')
    {as : List α} (h : R s t) : Guarded step step' G s t as := by
  induction as generalizing s t with
  | nil => trivial
  | cons a as ih =>
      exact ⟨hGuard s t a h, fun s' t' hS hT => ih (hKeeps s t a s' t' h hS hT)⟩

theorem InStep.obs_of_run {as : List α} {a : α} {s' : σ} {t' : τ}
    (h : InStep step step' Obs s t (as ++ [a]))
    (hS : StepSystem.run step s (as ++ [a]) = some s')
    (hT : StepSystem.run step' t (as ++ [a]) = some t') : Obs a s' t' := by
  induction as generalizing s t with
  | nil =>
      rw [List.nil_append, StepSystem.run_cons, Option.bind_eq_some_iff] at hS hT
      obtain ⟨u, hU, hEnd⟩ := hS
      obtain ⟨v, hV, hEnd'⟩ := hT
      rw [StepSystem.run_nil, Option.some.injEq] at hEnd hEnd'
      subst hEnd hEnd'
      rw [List.nil_append] at h
      unfold InStep at h
      rw [hU, hV] at h
      cases h with
      | some hRel => exact hRel.1
  | cons b as ih =>
      rw [List.cons_append, StepSystem.run_cons, Option.bind_eq_some_iff] at hS hT
      obtain ⟨u, hU, hRest⟩ := hS
      obtain ⟨v, hV, hRest'⟩ := hT
      rw [List.cons_append] at h
      unfold InStep at h
      rw [hU, hV] at h
      cases h with
      | some hRel => exact ih hRel.2 hRest hRest'

end Systems

end Lockstep
