import Copse.BoundedSelection
import Mathlib.Data.List.GetD

set_option autoImplicit false

/-!
# The standard algorithms by their contracts

The source calls `std::nth_element`, the two heap operations and `std::sort`.
Which of several admissible orders they leave behind is up to the library, so
they are fields of a structure together with the contract each one meets.
-/
namespace Copse
open BoundedSelection

structure HeapEntry (K : Type*) where
  sqDist : K
  index : ℕ
  deriving DecidableEq

structure StdAlgorithm (K : Type*) [LinearOrder K] where
  /-- `std::nth_element` over a range of indices, comparing by `key`. -/
  nthElement : (ℕ → K) → ℕ → List ℕ → List ℕ
  nthElement_perm : ∀ key n l, n < l.length → (nthElement key n l).Perm l
  nthElement_before : ∀ key n l, n < l.length → ∀ x ∈ (nthElement key n l).take n,
    key x ≤ key ((nthElement key n l).getD n 0)
  nthElement_after : ∀ key n l, n < l.length → ∀ x ∈ (nthElement key n l).drop n,
    key ((nthElement key n l).getD n 0) ≤ key x
  pushHeap : List (HeapEntry K) → List (HeapEntry K)
  pushHeap_perm : ∀ h, IsHeap HeapEntry.sqDist h.dropLast → (pushHeap h).Perm h
  pushHeap_heap : ∀ h, IsHeap HeapEntry.sqDist h.dropLast → IsHeap HeapEntry.sqDist (pushHeap h)
  popHeap : List (HeapEntry K) → List (HeapEntry K)
  popHeap_perm : ∀ h, IsHeap HeapEntry.sqDist h → (popHeap h).Perm h
  popHeap_last : ∀ x h, IsHeap HeapEntry.sqDist (x :: h) → (popHeap (x :: h)).getLast? = some x
  popHeap_heap : ∀ h, IsHeap HeapEntry.sqDist h → IsHeap HeapEntry.sqDist (popHeap h).dropLast
  sort : List (HeapEntry K) → List (HeapEntry K)
  sort_perm : ∀ h, (sort h).Perm h
  sort_pairwise : ∀ h, (sort h).Pairwise (fun x y => x.sqDist ≤ y.sqDist)

namespace StdAlgorithm
section
variable {α β : Type*} [LinearOrder β]

abbrev KeyLE (key : α → β) : α → α → Prop := fun x y => key x ≤ key y

instance (key : α → β) : Std.Total (KeyLE key) := ⟨fun x y => le_total (key x) (key y)⟩
instance (key : α → β) : IsTrans α (KeyLE key) := ⟨fun _ _ _ h h' => le_trans h h'⟩

def sortBy (key : α → β) (l : List α) : List α := l.insertionSort (KeyLE key)

theorem sortBy_perm (key : α → β) (l : List α) : (sortBy key l).Perm l :=
  List.perm_insertionSort _ l

theorem sortBy_pairwise (key : α → β) (l : List α) : (sortBy key l).Pairwise (KeyLE key) :=
  List.pairwise_insertionSort _ l

end

section
variable {K : Type*} [LinearOrder K]

def sortDown (h : List (HeapEntry K)) : List (HeapEntry K) :=
  sortBy (fun e => OrderDual.toDual e.sqDist) h

theorem sortDown_heap (h : List (HeapEntry K)) : IsHeap HeapEntry.sqDist (sortDown h) :=
  isHeap_of_pairwise (sortBy_pairwise (fun e : HeapEntry K => OrderDual.toDual e.sqDist) h)

/-- Remove the front of a heap and leave it behind the others, sorted downwards. -/
def rotateFront : List (HeapEntry K) → List (HeapEntry K)
  | [] => []
  | x :: h => sortDown h ++ [x]

/-- A library that sorts wherever the contract asks for less. -/
def insertion (K : Type*) [LinearOrder K] : StdAlgorithm K where
  nthElement key _ l := sortBy key l
  nthElement_perm key _ l _ := sortBy_perm key l
  nthElement_before key n l hn x hx := by
    have hlen : n < (sortBy key l).length := by rwa [(sortBy_perm key l).length_eq]
    obtain ⟨i, hi, rfl⟩ := List.mem_take_iff_getElem.mp hx
    rw [List.getD_eq_getElem _ _ hlen]
    exact List.pairwise_iff_getElem.mp (sortBy_pairwise key l) i n _ hlen (by omega)
  nthElement_after key n l hn x hx := by
    have hlen : n < (sortBy key l).length := by rwa [(sortBy_perm key l).length_eq]
    obtain ⟨i, hi, rfl⟩ := List.mem_drop_iff_getElem.mp hx
    rw [List.getD_eq_getElem _ _ hlen]
    rcases Nat.eq_zero_or_pos i with rfl | hpos
    · simp
    · exact List.pairwise_iff_getElem.mp (sortBy_pairwise key l) n (n + i) hlen _ (by omega)
  pushHeap := sortDown
  pushHeap_perm h _ := sortBy_perm _ h
  pushHeap_heap h _ := sortDown_heap h
  popHeap := rotateFront
  popHeap_perm h _ := by
    cases h with
    | nil => exact List.Perm.refl _
    | cons x h =>
      exact (List.perm_append_singleton x (sortDown h)).trans ((sortBy_perm _ h).cons x)
  popHeap_last x h _ := by simp [rotateFront]
  popHeap_heap h _ := by
    cases h with
    | nil => exact isHeap_nil
    | cons x h => simpa [rotateFront] using sortDown_heap h
  sort := sortBy HeapEntry.sqDist
  sort_perm := sortBy_perm _
  sort_pairwise := sortBy_pairwise _

end
end StdAlgorithm
end Copse
