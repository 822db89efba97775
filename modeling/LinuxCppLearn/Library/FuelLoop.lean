import Mathlib.Data.Option.Basic
import Mathlib.Tactic.Common

/-!
# Loops that run on fuel

A loop is given by its body, which answers the next state or the result.  Run
with fuel, it answers `none` when the fuel is used up before the result is
there.

* `IsLoop.mono` — fuel is a bound and nothing else: more of it gives the same
  result.
* `IsLoop.returns` — a rank that goes down in every round bounds the fuel that
  is needed.
* `IsLoop.simulates` — loops whose bodies keep their states related have related
  results.
-/

namespace FuelLoop

variable {σ ρ σ' ρ' : Type*} {f : Nat → σ → Option ρ} {body : σ → σ ⊕ ρ} {s : σ} {r : ρ}
  {g : Nat → σ' → Option ρ'} {body' : σ' → σ' ⊕ ρ'} {t : σ'} {fuel fuel' : Nat}

/-- `f fuel s` runs the loop from `s` for at most `fuel` rounds. -/
structure IsLoop (f : Nat → σ → Option ρ) (body : σ → σ ⊕ ρ) : Prop where
  zero : ∀ s, f 0 s = none
  succ : ∀ fuel s, f (fuel + 1) s =
    match body s with
    | .inl s' => f fuel s'
    | .inr r => some r

theorem IsLoop.mono (h : IsLoop f body) (hRun : f fuel s = some r) (hLe : fuel ≤ fuel') :
    f fuel' s = some r := by
  induction fuel generalizing fuel' s with
  | zero => simp [h.zero] at hRun
  | succ fuel ih =>
      obtain ⟨k, rfl⟩ : ∃ k, fuel' = k + 1 := ⟨fuel' - 1, by omega⟩
      rw [h.succ] at hRun ⊢
      cases hBody : body s with
      | inl s' =>
          rw [hBody] at hRun
          exact ih hRun (by omega)
      | inr r' =>
          rw [hBody] at hRun
          exact hRun

/-- `R s n` says that `n` bounds the rounds before the last one. -/
theorem IsLoop.returns (h : IsLoop f body) {R : σ → Nat → Prop}
    (hRound : ∀ s n s', R s n → body s = .inl s' → ∃ k < n, R s' k) {n : Nat}
    (hRank : R s n) (hFuel : n < fuel) : ∃ r, f fuel s = some r := by
  induction fuel generalizing s n with
  | zero => omega
  | succ fuel ih =>
      rw [h.succ]
      cases hBody : body s with
      | inl s' =>
          obtain ⟨k, hLess, hRank'⟩ := hRound s n s' hRank hBody
          exact ih hRank' (by omega)
      | inr r => exact ⟨r, rfl⟩

/-- `R` relates the states and `Q` the results. -/
theorem IsLoop.simulates (h : IsLoop f body) (h' : IsLoop g body') {R : σ → σ' → Prop}
    {Q : ρ → ρ' → Prop}
    (hNext : ∀ s t s', R s t → body s = .inl s' → ∃ t', body' t = .inl t' ∧ R s' t')
    (hDone : ∀ s t r, R s t → body s = .inr r → ∃ r', body' t = .inr r' ∧ Q r r')
    (hStart : R s t) (hRun : f fuel s = some r) : ∃ r', g fuel t = some r' ∧ Q r r' := by
  induction fuel generalizing s t with
  | zero => simp [h.zero] at hRun
  | succ fuel ih =>
      rw [h.succ] at hRun
      rw [h'.succ]
      cases hBody : body s with
      | inl s' =>
          obtain ⟨t', hBody', hRelated⟩ := hNext s t s' hStart hBody
          rw [hBody] at hRun
          rw [hBody']
          exact ih hRelated hRun
      | inr r₀ =>
          obtain ⟨r', hBody', hRelated⟩ := hDone s t r₀ hStart hBody
          rw [hBody] at hRun
          rw [hBody']
          obtain rfl := Option.some.inj hRun
          exact ⟨r', rfl, hRelated⟩

end FuelLoop
