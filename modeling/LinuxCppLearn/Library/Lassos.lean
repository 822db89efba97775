import LinuxCppLearn.Library.WalkOrder
import Mathlib.Data.List.Chain
import Mathlib.Data.List.Nodup

/-!
# Ways that run into a circle

Where at most one step leads on from a point, there is only one way from it.  It
ends, or it comes back to one of its own points.

* `Lasso` — a way that has come back: a tail, the point it came back to, and the
  circle behind that point.
* `lasso_of_firstMeeting` — the first walk that ends in a marked point is one, if
  only its own points are marked.
* `Lasso.map` — what a map of the points makes of it.
-/

namespace Lassos

open Relation WalkOrder

variable {V W : Type*}

/-- Along `tail` to the knot, around the circle and back to the knot. -/
def looped (tail : List V) (knot : V) (circle : List V) : List V :=
  tail ++ knot :: (circle ++ [knot])

/-- No point comes twice, apart from the knot. -/
structure Lasso (R : V → V → Prop) (tail : List V) (knot : V) (circle : List V) : Prop where
  nodup : (tail ++ knot :: circle).Nodup
  chain : (looped tail knot circle).IsChain R

namespace Lasso

variable {R S : V → V → Prop} {tail circle : List V} {knot : V}

/-- The part from the knot on. -/
theorem around (h : Lasso R tail knot circle) : (knot :: (circle ++ [knot])).IsChain R :=
  h.chain.right_of_append

theorem closed (h : Lasso R tail knot circle) : TransGen R knot knot :=
  (h.around.imp fun _ _ => TransGen.single).rel_cons (by simp)

/-- The points of the circle lead to each other. -/
theorem leads (h : Lasso R tail knot circle) {a b : V} (hA : a ∈ knot :: circle)
    (hB : b ∈ knot :: circle) : ReflTransGen R a b := by
  have hPairs := List.isChain_iff_pairwise.mp (h.around.imp fun _ _ => ReflTransGen.single)
  have hFrom : ReflTransGen R knot b := by
    rcases List.mem_cons.mp hB with rfl | hIn
    · exact ReflTransGen.refl
    · exact List.rel_of_pairwise_cons hPairs (List.mem_append_left _ hIn)
  rw [← List.cons_append, List.pairwise_append] at hPairs
  exact (hPairs.2.2 a hA knot (List.mem_singleton_self knot)).trans hFrom

/-- What the relation gives on the circle. -/
theorem around_imp (h : Lasso R tail knot circle)
    (hStep : ∀ a b, R a b → ReflTransGen R b a → S a b) :
    (knot :: (circle ++ [knot])).IsChain S := by
  refine List.IsChain.imp_of_mem_imp (fun a b hA hB hRel => ?_) h.around
  have hOn {c : V} (hMem : c ∈ knot :: (circle ++ [knot])) : c ∈ knot :: circle := by
    simp only [List.mem_cons, List.mem_append, List.not_mem_nil] at hMem ⊢
    tauto
  exact hStep a b hRel (h.leads (hOn hB) (hOn hA))

/-- A map that keeps the relation and the points of the way apart. -/
theorem map (h : Lasso R tail knot circle) {T : W → W → Prop} (f : V → W)
    (hStep : ∀ a b, R a b → T (f a) (f b))
    (hApart : ∀ a ∈ tail ++ knot :: circle, ∀ b ∈ tail ++ knot :: circle, f a = f b → a = b) :
    Lasso T (tail.map f) (f knot) (circle.map f) where
  nodup := by
    have hMapped := (List.nodup_map_iff_inj_on h.nodup).mpr hApart
    rwa [List.map_append, List.map_cons] at hMapped
  chain := by
    have hMapped := List.isChain_map_of_isChain f hStep h.chain
    simpa [looped] using hMapped

end Lasso

theorem looped_map {tail circle : List V} {knot : V} (f : V → W) :
    (looped tail knot circle).map f = looped (tail.map f) (f knot) (circle.map f) := by
  simp [looped]

/-! ## The only way from a point -/

variable [DecidableEq V] {R : V → V → Prop} {D : V → Prop} {adj : V → List V}

/-- **The only way on** comes back to itself, by induction on what is left of it: behind
a point that is not marked it goes on with one more mark. -/
theorem lasso_of_firstMeeting (hAdj : ∀ v j, D v → j ∈ adj v → R v j ∧ D j)
    (hOne : ∀ v, D v → (adj v).length ≤ 1) (n : Nat) :
    ∀ (front : List V) (v : V), D v → (front ++ [v]).IsChain R → front.Nodup →
      ∀ w, firstMeeting front.toFinset (walks adj n front v) = some w →
        ∃ tail knot circle, w.points = looped tail knot circle ∧ Lasso R tail knot circle := by
  induction n with
  | zero =>
      intro front v _ _ _ w hMet
      simp [walks, firstMeeting] at hMet
  | succ n ih =>
      intro front v hV hChain hNodup w hMet
      rw [walks, firstMeeting] at hMet
      by_cases hSeen : v ∈ front.toFinset
      · rw [if_pos hSeen, Option.some.injEq] at hMet
        obtain ⟨tail, circle, rfl⟩ := List.append_of_mem (List.mem_toFinset.mp hSeen)
        have hPoints : tail ++ v :: circle ++ [v] = looped tail v circle := by simp [looped]
        refine ⟨tail, v, circle, ?_, hNodup, hPoints ▸ hChain⟩
        rw [← hMet, ← hPoints]
        rfl
      · rw [if_neg hSeen] at hMet
        cases hNext : adj v with
        | nil =>
            rw [hNext] at hMet
            simp [firstMeeting] at hMet
        | cons j js =>
            have hLength := hOne v hV
            rw [hNext, List.length_cons] at hLength
            obtain rfl : js = [] := List.length_eq_zero_iff.mp (by omega)
            obtain ⟨hStep, hJ⟩ := hAdj v j hV (by rw [hNext]; exact List.mem_singleton_self j)
            have hMarks : insert v front.toFinset = (front ++ [v]).toFinset := by
              ext u
              simp
            rw [hNext, List.flatMap_singleton, hMarks] at hMet
            refine ih (front ++ [v]) j hJ ?_ ?_ w hMet
            · exact hChain.append (List.isChain_singleton j) (by simpa using hStep)
            · have hNew : v ∉ front := fun hMem => hSeen (List.mem_toFinset.mpr hMem)
              exact List.nodup_append.mpr ⟨hNodup, List.nodup_singleton v, by
                rintro a hA b hB rfl
                rw [List.mem_singleton.mp hB] at hA
                exact hNew hA⟩

end Lassos
