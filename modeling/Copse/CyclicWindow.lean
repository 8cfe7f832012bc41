import Mathlib.Data.List.Rotate
import Mathlib.Data.List.Nodup
import Mathlib.Data.Nat.ModEq
import Mathlib.Tactic.Ring

set_option autoImplicit false

namespace CyclicWindow

theorem position_inj {c h j k : ℕ} (hj : j < c) (hk : k < c)
    (heq : (j + h) % c = (k + h) % c) : j = k := by
  have hmod : j % c = k % c := Nat.ModEq.add_right_cancel' h heq
  rwa [Nat.mod_eq_of_lt hj, Nat.mod_eq_of_lt hk] at hmod

section
variable {α : Type*}

theorem getElem?_position {l : List α} {c h j : ℕ} (hl : l.length = c) (hj : j < c) :
    l[(j + h) % c]? = (l.rotate h)[j]? := by
  subst hl
  exact (List.getElem?_rotate hj).symm

theorem set_position {l : List α} {c h j : ℕ} (hl : l.length = c) (hj : j < c) (x : α) :
    (l.set ((j + h) % c) x).rotate h = (l.rotate h).set j x := by
  subst hl
  apply List.ext_getElem?
  intro k
  by_cases hk : k < l.length
  · rw [List.getElem?_rotate (by simpa using hk), List.length_set, List.getElem?_set,
      List.getElem?_set, List.getElem?_rotate hk, List.length_rotate]
    have hpos : (j + h) % l.length < l.length := Nat.mod_lt _ (by omega)
    by_cases hjk : j = k
    · simp [hjk, hk, Nat.mod_lt _ (Nat.zero_lt_of_lt hk)]
    · have hne : (j + h) % l.length ≠ (k + h) % l.length :=
        fun heq => hjk (position_inj hj hk heq)
      simp [hjk, hne]
  · rw [List.getElem?_eq_none (by simpa using hk), List.getElem?_eq_none (by simpa using hk)]

theorem rotate_next {l : List α} {c : ℕ} (hl : l.length = c) (h : ℕ) :
    l.rotate ((h + 1) % c) = (l.rotate h).rotate 1 := by
  subst hl
  rw [List.rotate_mod, List.rotate_rotate]

end
end CyclicWindow
