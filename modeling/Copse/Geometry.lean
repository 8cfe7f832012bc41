import Copse.ExtendedField
import Mathlib.Data.Fintype.BigOperators
import Mathlib.Data.Fin.VecNotation

set_option autoImplicit false

namespace Copse
open ExtendedField

/-- Coordinates are exact, while the corners of a box may be infinite. -/
abbrev Point (Dim : ℕ) (K : Type*) := Fin Dim → K

section
variable {Dim : ℕ} {K : Type*} [Field K]

def Point.sqDist (p q : Point Dim K) : K := ∑ i, (p i - q i) * (p i - q i)

theorem Point.sqDist_comm (p q : Point Dim K) : p.sqDist q = q.sqDist p :=
  Finset.sum_congr rfl (fun i _ => by rw [← neg_sub (q i), neg_mul_neg])

end

/-- Per-axis inclusive lower and upper bounds. -/
structure BBox (Dim : ℕ) (K : Type*) where
  minCorner : Fin Dim → Ext K
  maxCorner : Fin Dim → Ext K

namespace BBox
variable {Dim : ℕ} {K : Type*} [Field K] [LinearOrder K]

def zero : BBox Dim K := ⟨fun _ => val 0, fun _ => val 0⟩

/-- Inverted infinite corners: the box of no point, the start of every expansion. -/
def empty : BBox Dim K := ⟨fun _ => ⊤, fun _ => ⊥⟩

def expand (b : BBox Dim K) (p : Point Dim K) : BBox Dim K :=
  ⟨fun i => min (b.minCorner i) (val (p i)), fun i => max (b.maxCorner i) (val (p i))⟩

def contains (b : BBox Dim K) (p : Point Dim K) : Bool :=
  decide (∀ i, ¬ (val (p i) < b.minCorner i ∨ b.maxCorner i < val (p i)))

def containsBox (b other : BBox Dim K) : Bool :=
  decide (∀ i, ¬ (other.minCorner i < b.minCorner i ∨ b.maxCorner i < other.maxCorner i))

def disjoint (b other : BBox Dim K) : Bool :=
  decide (∃ i, b.maxCorner i < other.minCorner i ∨ other.maxCorner i < b.minCorner i)

def minSqDist (b : BBox Dim K) (p : Point Dim K) : WithTop K :=
  ∑ i, (square (max (sub (b.minCorner i) (val (p i))) (val 0)) +
    square (max (sub (val (p i)) (b.maxCorner i)) (val 0)))

def maxSqDist (b : BBox Dim K) (p : Point Dim K) : WithTop K :=
  ∑ i, square (max (abs (sub (val (p i)) (b.minCorner i))) (abs (sub (val (p i)) (b.maxCorner i))))

def left (b : BBox Dim K) (dim : Fin Dim) (split : K) : BBox Dim K :=
  { b with maxCorner := Function.update b.maxCorner dim (min (b.maxCorner dim) (val split)) }

def right (b : BBox Dim K) (dim : Fin Dim) (split : K) : BBox Dim K :=
  { b with minCorner := Function.update b.minCorner dim (max (b.minCorner dim) (val split)) }

end BBox
end Copse
