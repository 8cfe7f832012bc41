import Copse.SearchKernel
import Copse.TreeContents
import Copse.TreeBuilderBuild

set_option autoImplicit false

namespace Copse
open PointStore

section
variable {Dim : ℕ} {K : Type*} [Field K] [LinearOrder K] [IsStrictOrderedRing K]

theorem Point.axis_le_sqDist (x q : Point Dim K) (dim : Fin Dim) :
    (x dim - q dim) * (x dim - q dim) ≤ x.sqDist q :=
  Finset.single_le_sum (f := fun i => (x i - q i) * (x i - q i))
    (fun _ _ => mul_self_nonneg _) (Finset.mem_univ dim)

/-- The value `split` separates `x` from `q`. -/
def Beyond (q split x : K) : Prop := q - split < 0 ∧ split ≤ x ∨ ¬ q - split < 0 ∧ x ≤ split

theorem Beyond.axis_le {q split x : K} (h : Beyond q split x) :
    (q - split) * (q - split) ≤ (x - q) * (x - q) := by
  rw [← abs_le_iff_mul_self_le, abs_sub_comm x q]
  rcases h with ⟨hq, hx⟩ | ⟨hq, hx⟩
  · rw [abs_of_neg hq, abs_of_neg (by linarith)]
    linarith
  · rw [abs_of_nonneg (not_lt.mp hq), abs_of_nonneg (by linarith)]
    linarith

end

namespace SearchKernel
variable {Dim : ℕ} {K : Type*} [Field K] [LinearOrder K]

def within (points : PointStore Dim K) (query : Point Dim K) (bound : WithTop K) (l : List ℕ) :
    List ℕ :=
  l.filter (fun i => decide (((points.point i).sqDist query : WithTop K) < bound))

section
variable {points : PointStore Dim K} {query : Point Dim K}

theorem within_append (bound : WithTop K) (l l' : List ℕ) :
    within points query bound (l ++ l') = within points query bound l ++ within points query bound l' :=
  List.filter_append ..

theorem mem_within {bound : WithTop K} {l : List ℕ} {i : ℕ} :
    i ∈ within points query bound l ↔
      i ∈ l ∧ ((points.point i).sqDist query : WithTop K) < bound := by
  simp [within]

theorem collectLeaf_eq (sqRadius : K) (entries : List BucketEntry) :
    collectLeaf points query sqRadius entries =
      within points query sqRadius ((entries.filter points.valid).map BucketEntry.index) := by
  rw [collectLeaf, within, List.filter_map]
  congr 2
  funext e
  simp

end

section
variable {p : Pools Dim K} {points : PointStore Dim K} {query : Point Dim K}

/-- The two children of a node, named by the side of the query. -/
def nearOf (query : Point Dim K) (dim : Fin Dim) (split : K) (left right : Tree Dim K) : Tree Dim K :=
  if query dim - split < 0 then left else right

def farOf (query : Point Dim K) (dim : Fin Dim) (split : K) (left right : Tree Dim K) : Tree Dim K :=
  if query dim - split < 0 then right else left

theorem near_far (query : Point Dim K) (dim : Fin Dim) (split : K) {P : Tree Dim K → Prop}
    {left right : Tree Dim K}
    (hl : P left) (hr : P right) :
    P (nearOf query dim split left right) ∧ P (farOf query dim split left right) := by
  rw [nearOf, farOf]
  split_ifs
  · exact ⟨hl, hr⟩
  · exact ⟨hr, hl⟩

theorem nearOf_id (dim : Fin Dim) (split : K) (left right : Tree Dim K) :
    (if query dim - split < 0 then left.id else right.id) = (nearOf query dim split left right).id := by
  unfold nearOf
  split_ifs <;> rfl

theorem farOf_id (dim : Fin Dim) (split : K) (left right : Tree Dim K) :
    (if query dim - split < 0 then right.id else left.id) = (farOf query dim split left right).id := by
  unfold farOf
  split_ifs <;> rfl

theorem near_far_validIn (points : PointStore Dim K) (query : Point Dim K) (dim : Fin Dim) (split : K)
    (left right : Tree Dim K) :
    ((nearOf query dim split left right).validIn points ++
      (farOf query dim split left right).validIn points).Perm
      (left.validIn points ++ right.validIn points) := by
  rw [nearOf, farOf]
  split_ifs
  · exact List.Perm.refl _
  · exact List.perm_append_comm

theorem far_beyond (query : Point Dim K) {id : ℕ} {live total : ℤ} {dim : Fin Dim} {split : K}
    {left right : Tree Dim K}
    (h : (Tree.node id live total dim split left right).Placed points) :
    ∀ i ∈ (farOf query dim split left right).validIn points,
      Beyond (query dim) split (points.point i dim) := by
  obtain ⟨hle, hge, -, -⟩ := h
  intro i hi
  rw [farOf] at hi
  split_ifs at hi with hside
  · exact Or.inl ⟨hside, hge i hi⟩
  · exact Or.inr ⟨hside, hle i hi⟩

theorem collectDescend_leaf {id offset cap bboxIdx : ℕ} {live total : ℤ} {es : List BucketEntry}
    {bbox : BBox Dim K} (sqRadius : K) (fuel : ℕ)
    (h : (Tree.leaf id live total offset cap bboxIdx es bbox).Rep p) (hid : id ≠ invalid) :
    collectDescend p points query sqRadius (fuel + 1) id =
      collectLeaf points query sqRadius es := by
  simp only [collectDescend, hid, ↓reduceIte, h.leaf_body, h.view_eq]

theorem collectDescend_node {id : ℕ} {live total : ℤ} {dim : Fin Dim} {split : K}
    {left right : Tree Dim K} (sqRadius : K) (fuel : ℕ)
    (h : (Tree.node id live total dim split left right).Rep p) (hid : id ≠ invalid) :
    collectDescend p points query sqRadius (fuel + 1) id =
      collectDescend p points query sqRadius fuel (nearOf query dim split left right).id ++
        if (query dim - split) * (query dim - split) < sqRadius then
          collectDescend p points query sqRadius fuel (farOf query dim split left right).id
        else [] := by
  simp only [collectDescend, hid, ↓reduceIte, h.node_body,
    nearOf_id dim split left right, farOf_id dim split left right]

variable [IsStrictOrderedRing K]

/-- The collected slots are the valid slots of the tree within the radius. -/
theorem collectDescend_perm {t : Tree Dim K} (sqRadius : K) (h : t.Rep p) (fit : p.Fit)
    (hp : t.Placed points) (fuel : ℕ) (hfuel : t.height < fuel) :
    (collectDescend p points query sqRadius fuel t.id).Perm
      (within points query sqRadius (t.validIn points)) := by
  induction fuel generalizing t with
  | zero => omega
  | succ fuel ih =>
    have hid := h.id_valid fit
    cases t with
    | leaf id live total offset cap bboxIdx es bbox =>
      rw [Tree.id_leaf, collectDescend_leaf _ _ h hid, collectLeaf_eq]
      exact List.Perm.refl _
    | node id live total dim split left right =>
      simp only [Tree.height] at hfuel
      rw [Tree.id_node, collectDescend_node _ _ h hid, Tree.validIn_node]
      have hbeyond := far_beyond query hp
      obtain ⟨-, -, hpl, hpr⟩ := hp
      obtain ⟨hnear, hfar⟩ := near_far query dim split
        (P := fun u => u.Rep p ∧ u.Placed points ∧ u.height < fuel)
        ⟨h.left, hpl, by omega⟩ ⟨h.right, hpr, by omega⟩
      have hboth := near_far_validIn points query dim split left right
      refine List.Perm.trans ?_ (hboth.filter _)
      rw [← within, within_append]
      refine (ih hnear.1 hnear.2.1 hnear.2.2).append ?_
      split_ifs with hclose
      · exact ih hfar.1 hfar.2.1 hfar.2.2
      · rw [within, List.filter_eq_nil_iff.mpr]
        intro i hi
        have haxis := (hbeyond i hi).axis_le.trans (Point.axis_le_sqDist _ _ dim)
        simpa using (not_lt.mp hclose).trans haxis

omit [IsStrictOrderedRing K]

/-- The early exit answers whether anything would be collected. -/
theorem anyWithinDescend_iff (sqRadius : K) (fuel i : ℕ) :
    anyWithinDescend p points query sqRadius fuel i = true ↔
      collectDescend p points query sqRadius fuel i ≠ [] := by
  induction fuel generalizing i with
  | zero => simp [anyWithinDescend, collectDescend]
  | succ fuel ih =>
    by_cases hi : i = invalid
    · simp [anyWithinDescend, collectDescend, hi]
    · simp only [anyWithinDescend, collectDescend, hi, ↓reduceIte]
      split
      · simp only [anyWithinLeaf, collectLeaf, List.any_eq_true, ne_eq, List.map_eq_nil_iff,
          List.filter_eq_nil_iff, not_forall, not_not]
        exact ⟨fun ⟨e, he, hd⟩ => ⟨e, he, hd⟩, fun ⟨e, he, hd⟩ => ⟨e, he, hd⟩⟩
      · simp only [Bool.if_true_left, Bool.or_eq_true, decide_eq_true_eq, ih, ne_eq,
          List.append_eq_nil_iff, not_and_or]
        split_ifs <;> simp [ih]

theorem anyWithin_iff (root : ℕ) (sqRadius : K) :
    anyWithin p points root query sqRadius = true ↔
      collectIndicesWithin p points root query sqRadius ≠ [] := by
  unfold anyWithin collectIndicesWithin
  split_ifs
  · simp
  · exact anyWithinDescend_iff sqRadius _ root

end
end SearchKernel
end Copse
