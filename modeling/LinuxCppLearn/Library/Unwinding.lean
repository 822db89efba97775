import Mathlib.Data.Option.Basic

/-!
# What an observer sees of a machine with outputs

A machine is a partial function `call : σ → α → Option (β × σ)`: the call `a`
in the state `s` returns a `β` and moves on, or the machine breaks (`none`).
`observe` lists what a sequence of calls returns, up to the call that breaks.

Two states are indistinguishable when some relation unwinds them: related
states answer every call alike and stay related.
-/

namespace Unwinding

variable {σ α β : Type*}

/-- The outputs of the calls; `none` stands for the one that breaks the machine. -/
def observe (call : σ → α → Option (β × σ)) : σ → List α → List (Option β)
  | _, [] => []
  | s, a :: as =>
      match call s a with
      | none => [none]
      | some (b, s') => some b :: observe call s' as

variable {call : σ → α → Option (β × σ)}

theorem observe_cons_none {s : σ} {a : α} (h : call s a = none) (as : List α) :
    observe call s (a :: as) = [none] := by
  simp only [observe, h]

theorem observe_cons_some {s s' : σ} {a : α} {b : β} (h : call s a = some (b, s'))
    (as : List α) : observe call s (a :: as) = some b :: observe call s' as := by
  simp only [observe, h]

/-- The two answers to a call are the same, and what comes behind is related. -/
inductive Alike (R : σ → σ → Prop) : Option (β × σ) → Option (β × σ) → Prop
  | broken : Alike R none none
  | returned (b : β) {t t' : σ} (rel : R t t') : Alike R (some (b, t)) (some (b, t'))

/-- **Related states cannot be told apart**, if the relation unwinds. -/
theorem observe_eq {R : σ → σ → Prop}
    (hUnwinds : ∀ s s' a, R s s' → Alike R (call s a) (call s' a)) {s s' : σ} (h : R s s')
    (as : List α) : observe call s as = observe call s' as := by
  induction as generalizing s s' with
  | nil => rfl
  | cons a as ih =>
      have hAlike := hUnwinds s s' a h
      generalize hCall : call s a = x at hAlike
      generalize hCall' : call s' a = x' at hAlike
      cases hAlike with
      | broken => rw [observe_cons_none hCall, observe_cons_none hCall']
      | returned b hRel =>
          rw [observe_cons_some hCall, observe_cons_some hCall', ih hRel]

end Unwinding
