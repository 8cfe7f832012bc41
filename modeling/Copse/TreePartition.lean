import Copse.TreeBuilderDelete

set_option autoImplicit false

namespace Copse
open TreeBuilder

namespace BBox
variable {Dim : ℕ} {K : Type*} [LinearOrder K]
open ExtendedField

def NonInverted (b : BBox Dim K) : Prop := ∀ i, b.minCorner i ≤ b.maxCorner i

def Covers (b b' : BBox Dim K) : Prop :=
  ∀ i, b.minCorner i ≤ b'.minCorner i ∧ b'.maxCorner i ≤ b.maxCorner i

section
variable {b b' : BBox Dim K} {dim : Fin Dim} {split : K}

theorem Mem.nonInverted {x : Point Dim K} (h : b.Mem x) : b.NonInverted :=
  fun i => (h i).1.trans (h i).2

theorem Covers.nonInverted (h : b.Covers b') (hb : b'.NonInverted) : b.NonInverted :=
  fun i => (h i).1.trans ((hb i).trans (h i).2)

theorem covers_expand (b : BBox Dim K) (x : Point Dim K) : (b.expand x).Covers b :=
  fun _ => ⟨min_le_left _ _, le_max_left _ _⟩

theorem Covers.left (h : b.Covers b') (dim : Fin Dim) (split : K) :
    (b.left dim split).Covers (b'.left dim split) := by
  intro i
  refine ⟨(h i).1, ?_⟩
  by_cases hi : i = dim
  · subst hi
    simp only [BBox.left, Function.update_self]
    exact min_le_min (h i).2 le_rfl
  · simpa [BBox.left, hi] using (h i).2

theorem Covers.right (h : b.Covers b') (dim : Fin Dim) (split : K) :
    (b.right dim split).Covers (b'.right dim split) := by
  intro i
  refine ⟨?_, (h i).2⟩
  by_cases hi : i = dim
  · subst hi
    simp only [BBox.right, Function.update_self]
    exact max_le_max (h i).1 le_rfl
  · simpa [BBox.right, hi] using (h i).1

theorem NonInverted.left (h : b.NonInverted) (hsplit : b.minCorner dim ≤ val split) :
    (b.left dim split).NonInverted := by
  intro i
  by_cases hi : i = dim
  · subst hi
    simpa [BBox.left] using ⟨h i, hsplit⟩
  · simpa [BBox.left, hi] using h i

theorem NonInverted.right (h : b.NonInverted) (hsplit : val split ≤ b.maxCorner dim) :
    (b.right dim split).NonInverted := by
  intro i
  by_cases hi : i = dim
  · subst hi
    simpa [BBox.right] using ⟨h i, hsplit⟩
  · simpa [BBox.right, hi] using h i

end
end BBox

namespace Tree
variable {Dim : ℕ} {K : Type*} [LinearOrder K]

/-- No partition box derived in the tree from the given box is inverted. -/
def Regular : Tree Dim K → BBox Dim K → Prop
  | leaf .., b => b.NonInverted
  | node _ _ _ dim split left right, b =>
    b.NonInverted ∧ left.Regular (b.left dim split) ∧ right.Regular (b.right dim split)

section
variable {t t' : Tree Dim K} {b b' : BBox Dim K}

theorem Regular.nonInverted (h : t.Regular b) : b.NonInverted := by
  cases t with
  | leaf => exact h
  | node => exact h.1

theorem Regular.mono (h : t.Regular b) (hb : b'.Covers b) : t.Regular b' := by
  induction t generalizing b b' with
  | leaf => exact hb.nonInverted h
  | node id live total dim split left right ihl ihr =>
    obtain ⟨h, hl, hr⟩ := h
    exact ⟨hb.nonInverted h, ihl hl (hb.left dim split), ihr hr (hb.right dim split)⟩

theorem regular_dropLive : t.dropLive.Regular b ↔ t.Regular b := by
  induction t generalizing b with
  | leaf => exact Iff.rfl
  | node id live total dim split left right ihl ihr =>
    exact and_congr Iff.rfl (and_congr ihl ihr)

theorem Regular.of_dropLive (h : t.Regular b) (hdrop : t'.dropLive = t.dropLive) :
    t'.Regular b := by
  rw [← regular_dropLive, hdrop]
  exact regular_dropLive.mpr h

end
end Tree

namespace TreeBuilder
variable {Dim : ℕ} {K : Type*} [Field K] [LinearOrder K]
variable {b : TreeBuilder K} {c : Counter} {points : PointStore Dim K} {B index : ℕ}
variable {t t' : Tree Dim K} {box : BBox Dim K}

theorem Built.regular {indices : List ℕ} (h : Built c points B indices t) (hb : box.NonInverted)
    (hin : ∀ i ∈ indices, box.Mem (points.point i)) : t.Regular box := by
  induction h generalizing box with
  | leaf => exact hb
  | node id dim split indices lo hi left right large perm half below above pivot _ _ ihl ihr =>
    have hlo : ∀ i ∈ lo, box.Mem (points.point i) :=
      fun i hi => hin i (perm.mem_iff.mp (List.mem_append_left _ hi))
    have hhi : ∀ i ∈ hi, box.Mem (points.point i) :=
      fun i hi => hin i (perm.mem_iff.mp (List.mem_append_right _ hi))
    obtain ⟨i, hi, rfl⟩ := pivot
    refine ⟨hb, ihl (hb.left (hhi i hi dim).1) ?_, ihr (hb.right (hhi i hi dim).2) ?_⟩
    · exact fun j hj => (hlo j hj).left (below j hj)
    · exact fun j hj => (hhi j hj).right (above j hj)

theorem Inserted.regular (h : Inserted b points index t t') (ht : t.Regular box)
    (hp : t'.Placed points) (hin : ∀ i ∈ t'.validIn points, box.Mem (points.point i)) :
    t'.Regular box := by
  induction h generalizing box with
  | push => exact ht
  | split id live total offset cap bboxIdx es bbox t' _ rebuilt =>
    exact rebuilt.built.regular ht.nonInverted
      (fun i hi => hin i (rebuilt.validIn_perm.mem_iff.mpr hi))
  | left id live total dim split left right left' _ _ ih =>
    exact ⟨ht.1, ih ht.2.1 hp.2.2.1 (hp.mem_left hin), ht.2.2⟩
  | right id live total dim split left right right' _ _ ih =>
    exact ⟨ht.1, ht.2.1, ih ht.2.2 hp.2.2.2 (hp.mem_right hin)⟩

theorem Swept.regular {visit : ℕ → Bool} {called : Bool} (h : Swept b points visit called t t')
    (ht : t.Regular box) (hp : t'.Placed points)
    (hin : ∀ i ∈ t'.validIn points, box.Mem (points.point i)) : t'.Regular box := by
  induction h generalizing box with
  | skip t => exact ht
  | leaf => exact ht
  | rebuild t t' _ rebuilt =>
    exact rebuilt.built.regular ht.nonInverted
      (fun i hi => hin i (rebuilt.validIn_perm.mem_iff.mpr hi))
  | keep id live total dim split left right left' right' _ _ _ _ ihl ihr =>
    exact ⟨ht.1, ihl ht.2.1 hp.2.2.1 (hp.mem_left hin), ihr ht.2.2 hp.2.2.2 (hp.mem_right hin)⟩
  | again id live total dim split left right left' right' t' _ _ _ _ rebuilt _ _ =>
    exact rebuilt.built.regular ht.nonInverted
      (fun i hi => hin i (rebuilt.validIn_perm.mem_iff.mpr hi))

end TreeBuilder
end Copse
