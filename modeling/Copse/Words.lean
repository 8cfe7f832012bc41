import Mathlib

set_option autoImplicit false

/-!
# Fixed-width words

Conversions to the unsigned types of the source, and the arithmetic of the
per-node counters. The counters are 32-bit words in the source; statements
that take arithmetic as exact read the same code over the integers.
-/
namespace Copse

def u16 (n : ℕ) : ℕ := n % 2 ^ 16

def u32 (n : ℕ) : ℕ := n % 2 ^ 32

theorem u16_of_lt {n : ℕ} (h : n < 2 ^ 16) : u16 n = n := Nat.mod_eq_of_lt h

theorem u32_of_lt {n : ℕ} (h : n < 2 ^ 32) : u32 n = n := Nat.mod_eq_of_lt h

/-- Sentinel of an unset node index and of an unused ring position. -/
def invalid : ℕ := 2 ^ 32 - 1

/-- How `subtree_live_count` and `subtree_total_count` are computed. -/
inductive Counter where
  /-- unsigned 32-bit, as compiled -/
  | word
  /-- over the integers -/
  | exact
  deriving DecidableEq

namespace Counter

def wrap : Counter → ℤ → ℤ
  | word, z => z % 2 ^ 32
  | exact, z => z

@[simp] theorem wrap_exact (z : ℤ) : exact.wrap z = z := rfl

theorem wrap_of_fits (c : Counter) {z : ℤ} (h0 : 0 ≤ z) (h : z < 2 ^ 32) : c.wrap z = z := by
  cases c with
  | word => exact Int.emod_eq_of_lt h0 h
  | exact => rfl

@[simp] theorem wrap_wrap_add (c : Counter) (y z : ℤ) : c.wrap (c.wrap y + z) = c.wrap (y + z) := by
  cases c with
  | word => exact Int.emod_add_emod ..
  | exact => rfl

end Counter
end Copse
