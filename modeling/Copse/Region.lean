import Copse.Geometry
import Mathlib.Tactic.Linarith
import Mathlib.Tactic.Ring

set_option autoImplicit false

namespace Copse
open ExtendedField

namespace BBox
variable {Dim : ℕ} {K : Type*} [Field K] [LinearOrder K]

/-- The point lies between the corners on every axis. -/
def Mem (b : BBox Dim K) (x : Point Dim K) : Prop :=
  ∀ i, b.minCorner i ≤ val (x i) ∧ val (x i) ≤ b.maxCorner i

section
omit [Field K]

theorem contains_iff (b : BBox Dim K) (x : Point Dim K) : b.contains x = true ↔ b.Mem x := by
  simp only [contains, decide_eq_true_eq, not_or, not_lt]
  exact Iff.rfl

theorem mem_expand_self (b : BBox Dim K) (x : Point Dim K) : (b.expand x).Mem x :=
  fun _ => ⟨min_le_right _ _, le_max_right _ _⟩

theorem Mem.expand {b : BBox Dim K} {x : Point Dim K} (h : b.Mem x) (y : Point Dim K) :
    (b.expand y).Mem x :=
  fun i => ⟨(min_le_left _ _).trans (h i).1, (h i).2.trans (le_max_left _ _)⟩

theorem Mem.left {b : BBox Dim K} {x : Point Dim K} (h : b.Mem x) {dim : Fin Dim} {split : K}
    (hx : x dim ≤ split) : (b.left dim split).Mem x := by
  intro i
  refine ⟨(h i).1, ?_⟩
  by_cases hi : i = dim
  · subst hi
    simpa [BBox.left] using ⟨(h i).2, hx⟩
  · simpa [BBox.left, hi] using (h i).2

theorem Mem.right {b : BBox Dim K} {x : Point Dim K} (h : b.Mem x) {dim : Fin Dim} {split : K}
    (hx : split ≤ x dim) : (b.right dim split).Mem x := by
  intro i
  refine ⟨?_, (h i).2⟩
  by_cases hi : i = dim
  · subst hi
    simpa [BBox.right] using ⟨(h i).1, hx⟩
  · simpa [BBox.right, hi] using (h i).1

theorem not_mem_of_disjoint {b other : BBox Dim K} {x : Point Dim K}
    (hd : b.disjoint other = true) (hx : other.Mem x) : ¬ b.Mem x := by
  simp only [disjoint, decide_eq_true_eq] at hd
  obtain ⟨i, hi⟩ := hd
  intro hb
  rcases hi with hi | hi
  · exact absurd (hi.trans_le ((hx i).1.trans (hb i).2)) (lt_irrefl _)
  · exact absurd (hi.trans_le ((hb i).1.trans (hx i).2)) (lt_irrefl _)

theorem mem_of_containsBox {b other : BBox Dim K} {x : Point Dim K}
    (hc : b.containsBox other = true) (hx : other.Mem x) : b.Mem x := by
  simp only [containsBox, decide_eq_true_eq, not_or, not_lt] at hc
  exact fun i => ⟨(hc i).1.trans (hx i).1, (hx i).2.trans (hc i).2⟩

end

variable [IsStrictOrderedRing K]

theorem minSqDist_le {b : BBox Dim K} {x : Point Dim K} (h : b.Mem x) (c : Point Dim K) :
    b.minSqDist c ≤ ((x.sqDist c : K) : WithTop K) := by
  rw [Point.sqDist, WithTop.coe_sum]
  refine Finset.sum_le_sum (fun i _ => ?_)
  refine (add_le_add (square_excess_le (c i) (h i).1) (square_deficit_le (c i) (h i).2)).trans ?_
  rw [← WithTop.coe_add]
  refine WithTop.coe_le_coe.mpr (le_of_eq ?_)
  rcases le_total (x i) (c i) with hi | hi
  · rw [max_eq_right (by linarith), max_eq_left (by linarith)]
    ring
  · rw [max_eq_left (by linarith), max_eq_right (by linarith)]
    ring

theorem le_maxSqDist {b : BBox Dim K} {x : Point Dim K} (h : b.Mem x) (c : Point Dim K) :
    ((x.sqDist c : K) : WithTop K) ≤ b.maxSqDist c := by
  rw [Point.sqDist, WithTop.coe_sum]
  exact Finset.sum_le_sum (fun i _ => le_square_farthest (c i) (h i).1 (h i).2)

end BBox

/-- The three tests of a recursive delete: a box none of whose points goes, a
box all of whose points go, and a point that goes. The box tests agree with
the point test on every point inside the box. -/
structure Region (Dim : ℕ) (K : Type*) [Field K] [LinearOrder K] where
  keeps : BBox Dim K → Bool
  clears : BBox Dim K → Bool
  hit : Point Dim K → Bool
  keeps_sound : ∀ b x, keeps b = true → b.Mem x → hit x = false
  clears_sound : ∀ b x, clears b = true → b.Mem x → hit x = true

namespace Region
variable {Dim : ℕ} {K : Type*} [Field K] [LinearOrder K] [IsStrictOrderedRing K]

def box (queryBox : BBox Dim K) : Region Dim K where
  keeps b := queryBox.disjoint b
  clears b := queryBox.containsBox b
  hit x := queryBox.contains x
  keeps_sound b x hd hx := by
    rw [Bool.eq_false_iff, ne_eq, BBox.contains_iff]
    exact BBox.not_mem_of_disjoint hd hx
  clears_sound b x hc hx := (BBox.contains_iff _ _).mpr (BBox.mem_of_containsBox hc hx)

def crop (center : Point Dim K) (sqRadius : K) : Region Dim K where
  keeps b := decide (b.maxSqDist center ≤ (sqRadius : WithTop K))
  clears b := decide ((sqRadius : WithTop K) < b.minSqDist center)
  hit x := decide (sqRadius < x.sqDist center)
  keeps_sound b x hk hx := by
    have h := (BBox.le_maxSqDist hx center).trans (of_decide_eq_true hk)
    exact decide_eq_false (not_lt.mpr (WithTop.coe_le_coe.mp h))
  clears_sound b x hc hx := by
    have h := (of_decide_eq_true hc).trans_le (BBox.minSqDist_le hx center)
    exact decide_eq_true (WithTop.coe_lt_coe.mp h)

end Region
end Copse
