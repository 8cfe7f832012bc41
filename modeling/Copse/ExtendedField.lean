import Mathlib.Algebra.Order.Field.Basic
import Mathlib.Algebra.Order.Monoid.WithTop
import Mathlib.Algebra.BigOperators.Group.Finset.Basic
import Mathlib.Algebra.Order.BigOperators.Group.Finset
import Mathlib.Algebra.BigOperators.WithTop
import Mathlib.Tactic.Linarith

set_option autoImplicit false

/-!
# An ordered field with both infinities

The exact counterpart of a floating-point coordinate: a field element or one
of the two infinities. Subtraction, absolute value and square follow the
IEEE rules; the indeterminate `∞ - ∞` takes the sign of its left operand.
-/
namespace ExtendedField

abbrev Ext (K : Type*) := WithBot (WithTop K)

abbrev val {K : Type*} (x : K) : Ext K := ((x : WithTop K) : WithBot (WithTop K))

section
variable {K : Type*} [Field K] [LinearOrder K]

def sub : Ext K → Ext K → Ext K
  | none, _ => ⊥
  | some none, _ => ⊤
  | some (some _), none => ⊤
  | some (some _), some none => ⊥
  | some (some x), some (some y) => val (x - y)

def abs : Ext K → Ext K
  | none => ⊤
  | some none => ⊤
  | some (some x) => val |x|

/-- Squares of extended values have no negative infinity left. -/
def square : Ext K → WithTop K
  | none => ⊤
  | some none => ⊤
  | some (some x) => ((x * x : K) : WithTop K)

variable [IsStrictOrderedRing K]

omit [Field K] [IsStrictOrderedRing K] in
theorem max_val (x y : K) : max (val x) (val y) = val (max x y) := by
  rcases le_total x y with h | h
  · rw [max_eq_right h, max_eq_right (by simpa using h)]
  · rw [max_eq_left h, max_eq_left (by simpa using h)]

theorem square_val_le {x y : K} (h : |x| ≤ |y|) :
    square (val x) ≤ ((y * y : K) : WithTop K) :=
  WithTop.coe_le_coe.mpr (abs_le_iff_mul_self_le.mp h)

theorem square_excess_le {lo : Ext K} {x : K} (c : K) (h : lo ≤ val x) :
    square (max (sub lo (val c)) (val 0)) ≤ ((max (x - c) 0 * max (x - c) 0 : K) : WithTop K) := by
  have hx : 0 ≤ max (x - c) 0 := le_max_right _ _
  match lo, h with
  | none, _ =>
    rw [show sub none (val c) = ⊥ from rfl, max_eq_right bot_le]
    exact square_val_le (by simp)
  | some (some a), h =>
    have hax : a ≤ x := WithTop.coe_le_coe.mp (WithBot.coe_le_coe.mp h)
    rw [show sub (some (some a)) (val c) = val (a - c) from rfl, max_val]
    refine square_val_le ?_
    rw [abs_of_nonneg hx, abs_of_nonneg (le_max_right _ _)]
    exact max_le_max_right 0 (by linarith)
  | some none, h => exact absurd (WithBot.coe_le_coe.mp h) (WithTop.not_top_le_coe x)

theorem square_deficit_le {hi : Ext K} {x : K} (c : K) (h : val x ≤ hi) :
    square (max (sub (val c) hi) (val 0)) ≤ ((max (c - x) 0 * max (c - x) 0 : K) : WithTop K) := by
  have hx : 0 ≤ max (c - x) 0 := le_max_right _ _
  match hi, h with
  | none, h => exact absurd h (WithBot.not_coe_le_bot _)
  | some (some b), h =>
    have hxb : x ≤ b := WithTop.coe_le_coe.mp (WithBot.coe_le_coe.mp h)
    rw [show sub (val c) (some (some b)) = val (c - b) from rfl, max_val]
    refine square_val_le ?_
    rw [abs_of_nonneg hx, abs_of_nonneg (le_max_right _ _)]
    exact max_le_max_right 0 (by linarith)
  | some none, _ =>
    rw [show sub (val c) (some none) = ⊥ from rfl, max_eq_right bot_le]
    exact square_val_le (by simp)

/-- The farther of two bounds is at least as far from `c` as a point between them. -/
theorem le_square_farthest {lo hi : Ext K} {x : K} (c : K) (hlo : lo ≤ val x) (hhi : val x ≤ hi) :
    (((x - c) * (x - c) : K) : WithTop K) ≤
      square (max (abs (sub (val c) lo)) (abs (sub (val c) hi))) := by
  match lo, hi, hlo, hhi with
  | none, _, _, _ =>
    rw [show abs (sub (val c) none) = ⊤ from rfl, max_eq_left le_top]
    exact le_top
  | some none, _, h, _ => exact absurd (WithBot.coe_le_coe.mp h) (WithTop.not_top_le_coe x)
  | _, none, _, h => exact absurd h (WithBot.not_coe_le_bot _)
  | some (some a), some none, _, _ =>
    rw [show abs (sub (val c) (some none)) = ⊤ from rfl, max_eq_right le_top]
    exact le_top
  | some (some a), some (some b), ha, hb =>
    have hax : a ≤ x := WithTop.coe_le_coe.mp (WithBot.coe_le_coe.mp ha)
    have hxb : x ≤ b := WithTop.coe_le_coe.mp (WithBot.coe_le_coe.mp hb)
    rw [show abs (sub (val c) (some (some a))) = val |c - a| from rfl,
      show abs (sub (val c) (some (some b))) = val |c - b| from rfl, max_val]
    refine WithTop.coe_le_coe.mpr (abs_le_iff_mul_self_le.mp ?_)
    rw [abs_of_nonneg (le_max_of_le_left (abs_nonneg _))]
    refine abs_le.mpr ⟨?_, ?_⟩
    · exact neg_le.mpr ((by linarith [le_abs_self (c - a)] : -(x - c) ≤ |c - a|).trans
        (le_max_left _ _))
    · exact (by linarith [neg_abs_le (c - b)] : x - c ≤ |c - b|).trans (le_max_right _ _)

end
end ExtendedField
