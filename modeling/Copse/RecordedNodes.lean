import Copse.KDTreeScopedSweep

set_option autoImplicit false

namespace Copse
open PointStore TreeBuilder TransitionRuns

namespace Tree
variable {Dim : ℕ} {K : Type*} {M : List ℕ} {t u v : Tree Dim K} {d e : ℕ}

theorem Closed.sub (h : t.Closed M) (hs : t.Sub d u) : u.Closed M := by
  induction hs with
  | refl t => exact h
  | left _ _ _ _ _ _ ih => exact ih h.2.1
  | right _ _ _ _ _ _ ih => exact ih h.2.2

theorem Closed.above (h : t.Closed M) (hs : t.Sub d u) (hu : u.id ∈ M) : t.id ∈ M := by
  induction hs with
  | refl t => exact hu
  | left _ _ _ _ _ _ ih => exact h.1 (Or.inl (ih h.2.1 hu))
  | right _ _ _ _ _ _ ih => exact h.1 (Or.inr (ih h.2.2 hu))

end Tree

namespace TreeBuilder
variable {Dim : ℕ} [NeZero Dim] {K : Type*} [Field K] [LinearOrder K]

section
variable {b : TreeBuilder K} {points : PointStore Dim K} {visit : ℕ → Bool} {M : List ℕ}
variable {p : Pools Dim K} {t u : Tree Dim K} {d : ℕ}

end
end TreeBuilder

namespace KDTreeImpl
variable {Dim : ℕ} [NeZero Dim] {K : Type*} [Field K] [LinearOrder K]

section
variable {env : Env K} {cfg : Config K} {s u : KDTreeImpl Dim K} {a : Action Dim K}

variable [IsStrictOrderedRing K]

end

end KDTreeImpl
end Copse
