import Copse.KDTreePartition
import Copse.ScopedSweep
import Copse.SearchDescend

set_option autoImplicit false

namespace Copse
open PointStore TreeBuilder

section
variable {Dim : ℕ} {K : Type*} [Field K] [LinearOrder K]

/-- The squared distances along one axis from the query to the points of a region. -/
def axisSqDists (query : Point Dim K) (region : Set (Point Dim K)) (i : Fin Dim) : Set K :=
  (fun x : Point Dim K => (x i - query i) * (x i - query i)) '' region

def AxisExact (query : Point Dim K) (region : Set (Point Dim K)) (axis : Fin Dim → K) : Prop :=
  ∀ i, IsLeast (axisSqDists query region i) (axis i)

namespace AxisExact
variable [IsStrictOrderedRing K] {query : Point Dim K} {region side : Set (Point Dim K)}
  {axis : Fin Dim → K} {dim : Fin Dim} {split : K}

theorem univ (query : Point Dim K) : AxisExact query Set.univ (fun _ => 0) := by
  refine fun i => ⟨⟨query, Set.mem_univ query, by simp⟩, ?_⟩
  rintro _ ⟨x, -, rfl⟩
  exact mul_self_nonneg _

theorem le_sqDist (h : AxisExact query region axis) {x : Point Dim K} (hx : x ∈ region) :
    ∑ i, axis i ≤ x.sqDist query :=
  Finset.sum_le_sum (fun i _ => (h i).2 ⟨x, hx, rfl⟩)

omit [IsStrictOrderedRing K] in
theorem le_cross (h : AxisExact query region axis)
    (cross : ∀ x ∈ region, Function.update x dim split ∈ region) :
    axis dim ≤ (query dim - split) * (query dim - split) := by
  obtain ⟨⟨x, hx, -⟩, least⟩ := h dim
  have hcross := least ⟨_, cross x hx, rfl⟩
  dsimp only at hcross
  rw [Function.update_self] at hcross
  exact hcross.trans_eq (by ring)

theorem update_le {x : Point Dim K} (h : Beyond (query dim) split (x dim)) (i : Fin Dim) :
    (Function.update x dim split i - query i) * (Function.update x dim split i - query i) ≤
      (x i - query i) * (x i - query i) := by
  by_cases hi : i = dim
  · subst hi
    rw [Function.update_self]
    exact (by ring : (split - query i) * (split - query i) =
      (query i - split) * (query i - split)).trans_le h.axis_le
  · rw [Function.update_of_ne hi]

theorem near (h : AxisExact query region axis)
    (cross : ∀ x ∈ region, Function.update x dim split ∈ region ∩ side)
    (outside : ∀ x ∉ side, Beyond (query dim) split (x dim)) :
    AxisExact query (region ∩ side) axis := by
  intro i
  obtain ⟨⟨x, hx, hdist⟩, least⟩ := h i
  have hlower : axis i ∈ lowerBounds (axisSqDists query (region ∩ side) i) := by
    rintro _ ⟨y, hy, rfl⟩
    exact least ⟨y, hy.1, rfl⟩
  refine ⟨?_, hlower⟩
  by_cases hside : x ∈ side
  · exact ⟨x, ⟨hx, hside⟩, hdist⟩
  · refine ⟨Function.update x dim split, cross x hx, le_antisymm ?_ ?_⟩
    · exact (update_le (outside x hside) i).trans_eq hdist
    · exact least ⟨_, (cross x hx).1, rfl⟩

theorem far (h : AxisExact query region axis)
    (cross : ∀ x ∈ region, Function.update x dim split ∈ region ∩ side)
    (inside : ∀ x ∈ side, Beyond (query dim) split (x dim)) :
    AxisExact query (region ∩ side)
      (Function.update axis dim ((query dim - split) * (query dim - split))) := by
  intro i
  obtain ⟨⟨x, hx, hdist⟩, least⟩ := h i
  by_cases hi : i = dim
  · subst hi
    rw [Function.update_self]
    refine ⟨⟨_, cross x hx, ?_⟩, ?_⟩
    · dsimp only
      rw [Function.update_self]
      ring
    · rintro _ ⟨y, hy, rfl⟩
      exact (inside y hy.2).axis_le
  · rw [Function.update_of_ne hi]
    refine ⟨⟨_, cross x hx, ?_⟩, ?_⟩
    · dsimp only
      rw [Function.update_of_ne hi]
      exact hdist
    · rintro _ ⟨y, hy, rfl⟩
      exact least ⟨y, hy.1, rfl⟩

end AxisExact
end

namespace BBox
variable {Dim : ℕ} {K : Type*} [LinearOrder K]
open ExtendedField

/-- The box of all points. -/
def space : BBox Dim K := ⟨fun _ => ⊥, fun _ => ⊤⟩

theorem mem_space (x : Point Dim K) : (space : BBox Dim K).Mem x := fun _ => ⟨bot_le, le_top⟩

theorem space_covers (b : BBox Dim K) : (space : BBox Dim K).Covers b := fun _ => ⟨bot_le, le_top⟩

theorem mem_left_iff {b : BBox Dim K} {x : Point Dim K} {dim : Fin Dim} {split : K} :
    (b.left dim split).Mem x ↔ b.Mem x ∧ x dim ≤ split := by
  constructor
  · intro h
    refine ⟨fun i => ⟨(h i).1, (h i).2.trans ?_⟩, ?_⟩
    · by_cases hi : i = dim
      · subst hi
        simp [BBox.left]
      · simp [BBox.left, hi]
    · have hdim := (h dim).2
      simp only [BBox.left, Function.update_self, le_min_iff] at hdim
      simpa using hdim.2
  · exact fun h => h.1.left h.2

theorem mem_right_iff {b : BBox Dim K} {x : Point Dim K} {dim : Fin Dim} {split : K} :
    (b.right dim split).Mem x ↔ b.Mem x ∧ split ≤ x dim := by
  constructor
  · intro h
    refine ⟨fun i => ⟨le_trans ?_ (h i).1, (h i).2⟩, ?_⟩
    · by_cases hi : i = dim
      · subst hi
        simp [BBox.right]
      · simp [BBox.right, hi]
    · have hdim := (h dim).1
      simp only [BBox.right, Function.update_self, max_le_iff] at hdim
      simpa using hdim.2
  · exact fun h => h.1.right h.2

theorem Mem.cross {b : BBox Dim K} {x : Point Dim K} {dim : Fin Dim} {split : K} (h : b.Mem x)
    (hl : (b.left dim split).NonInverted) (hr : (b.right dim split).NonInverted) :
    b.Mem (Function.update x dim split) := by
  have hlo := hl dim
  have hhi := hr dim
  simp only [BBox.left, Function.update_self, le_min_iff] at hlo
  simp only [BBox.right, Function.update_self, max_le_iff] at hhi
  intro i
  by_cases hi : i = dim
  · subst hi
    rw [Function.update_self]
    exact ⟨hlo.2, hhi.2⟩
  · rw [Function.update_of_ne hi]
    exact h i

end BBox

namespace Pools
variable {Dim : ℕ} {K : Type*} [LinearOrder K]

/-- On the way from node `i` to node `j` the split planes cut `region` down to `region'`. -/
inductive Cut (p : Pools Dim K) : ℕ → Set (Point Dim K) → ℕ → Set (Point Dim K) → Prop where
  | refl (i : ℕ) (region : Set (Point Dim K)) : Cut p i region i region
  | left {i j left right : ℕ} {dim : Fin Dim} {split : K} {region region' : Set (Point Dim K)}
      (h : (p.node i).body = .internal dim split left right)
      (rest : Cut p left (region ∩ {x | x dim ≤ split}) j region') : Cut p i region j region'
  | right {i j left right : ℕ} {dim : Fin Dim} {split : K} {region region' : Set (Point Dim K)}
      (h : (p.node i).body = .internal dim split left right)
      (rest : Cut p right (region ∩ {x | split ≤ x dim}) j region') : Cut p i region j region'

theorem Cut.reaches {p : Pools Dim K} {i j : ℕ} {region region' : Set (Point Dim K)}
    (h : p.Cut i region j region') : ∃ d, p.Below i d j := by
  induction h with
  | refl i region => exact ⟨0, .refl i⟩
  | left hi _ ih =>
    obtain ⟨d, hd⟩ := ih
    exact ⟨d + 1, .left hi hd⟩
  | right hi _ ih =>
    obtain ⟨d, hd⟩ := ih
    exact ⟨d + 1, .right hi hd⟩

end Pools

namespace Tree
variable {Dim : ℕ} {K : Type*} [Field K] [LinearOrder K]

/-- One path leads to a node of a tree, so one region is cut out for it. -/
theorem Rep.cut_unique {p : Pools Dim K} {t : Tree Dim K} (h : t.Rep p) {j : ℕ}
    {region r r' : Set (Point Dim K)} (hr : p.Cut t.id region j r) (hr' : p.Cut t.id region j r') :
    r = r' := by
  induction t generalizing region with
  | leaf id live total offset cap bboxIdx es bbox =>
    have hbody := h.leaf_body
    cases hr with
    | refl =>
      cases hr' with
      | refl => rfl
      | left hi _ => cases hbody.symm.trans hi
      | right hi _ => cases hbody.symm.trans hi
    | left hi _ => cases hbody.symm.trans hi
    | right hi _ => cases hbody.symm.trans hi
  | node id live total dim split left right ihl ihr =>
    have hbody := h.node_body
    have hne := fun d => below_child_ne (d := d) h
    cases hr with
    | refl =>
      cases hr' with
      | refl => rfl
      | left hi rest =>
        cases hbody.symm.trans hi
        exact absurd rest.reaches.choose_spec (hne _).1
      | right hi rest =>
        cases hbody.symm.trans hi
        exact absurd rest.reaches.choose_spec (hne _).2
    | left hi rest =>
      cases hbody.symm.trans hi
      cases hr' with
      | refl => exact absurd rest.reaches.choose_spec (hne _).1
      | left hi' rest' =>
        cases hbody.symm.trans hi'
        exact ihl h.left rest rest'
      | right hi' rest' =>
        cases hbody.symm.trans hi'
        exact (not_below_both h rest.reaches.choose_spec rest'.reaches.choose_spec).elim
    | right hi rest =>
      cases hbody.symm.trans hi
      cases hr' with
      | refl => exact absurd rest.reaches.choose_spec (hne _).2
      | left hi' rest' =>
        cases hbody.symm.trans hi'
        exact (not_below_both h rest'.reaches.choose_spec rest.reaches.choose_spec).elim
      | right hi' rest' =>
        cases hbody.symm.trans hi'
        exact ihr h.right rest rest'

end Tree

namespace SearchKernel
variable {Dim : ℕ} {K : Type*} [Field K] [LinearOrder K]

/-- A call of `descend`: its arguments, the distance it finds for the far child of its node, and
the axis distances when it returns. -/
structure DescendCall (Dim : ℕ) (K : Type*) where
  node : ℕ
  minSqDist : K
  minSqAxisDist : Fin Dim → K
  farMinSqDist : Option K
  returned : Fin Dim → K

def descendCalls (std : StdAlgorithm K) (p : Pools Dim K) (points : PointStore Dim K)
    (query : Point Dim K) (kMax : ℕ) : ℕ → ℕ → K → Best Dim K → List (DescendCall Dim K)
  | 0, nodeIdx, minSqDist, s => [⟨nodeIdx, minSqDist, s.minSqAxisDist, none, s.minSqAxisDist⟩]
  | fuel + 1, nodeIdx, minSqDist, s =>
    let returned :=
      (descend std p points query kMax (fuel + 1) nodeIdx minSqDist s).minSqAxisDist
    if nodeIdx = invalid then [⟨nodeIdx, minSqDist, s.minSqAxisDist, none, returned⟩]
    else
      match (p.node nodeIdx).body with
      | .leaf .. => [⟨nodeIdx, minSqDist, s.minSqAxisDist, none, returned⟩]
      | .internal dim split left right =>
        let diff := query dim - split
        let nearChild := if diff < 0 then left else right
        let farChild := if diff < 0 then right else left
        let near := descend std p points query kMax fuel nearChild minSqDist s
        let farMinSqDist := minSqDist - near.minSqAxisDist dim + diff * diff
        ⟨nodeIdx, minSqDist, s.minSqAxisDist, some farMinSqDist, returned⟩ ::
          (descendCalls std p points query kMax fuel nearChild minSqDist s ++
            if (farMinSqDist : WithTop K) < near.worst then
              descendCalls std p points query kMax fuel farChild farMinSqDist
                { near with
                  minSqAxisDist := Function.update near.minSqAxisDist dim (diff * diff) }
            else [])

def searchCalls (std : StdAlgorithm K) (p : Pools Dim K) (points : PointStore Dim K) (root : ℕ)
    (query : Point Dim K) (kMax : ℕ) (initialSqRadius : WithTop K) : List (DescendCall Dim K) :=
  if root = invalid ∨ kMax = 0 then []
  else descendCalls std p points query kMax p.nodes.length root 0 ⟨[], initialSqRadius, fun _ => 0⟩

/-- What a call knows of itself. -/
structure DescendCall.Exact (c : DescendCall Dim K) : Prop where
  sum : c.minSqDist = ∑ i, c.minSqAxisDist i
  far : ∀ far ∈ c.farMinSqDist, c.minSqDist ≤ far
  restored : c.returned = c.minSqAxisDist

section
variable {p : Pools Dim K} {points : PointStore Dim K} {query : Point Dim K} {kMax : ℕ}
  {std : StdAlgorithm K}

/-- The boxes of the two children of a node, named by the side of the query. -/
def nearBox (query : Point Dim K) (dim : Fin Dim) (split : K) (b : BBox Dim K) : BBox Dim K :=
  if query dim - split < 0 then b.left dim split else b.right dim split

def farBox (query : Point Dim K) (dim : Fin Dim) (split : K) (b : BBox Dim K) : BBox Dim K :=
  if query dim - split < 0 then b.right dim split else b.left dim split

theorem near_far_box (query : Point Dim K) (dim : Fin Dim) (split : K) (b : BBox Dim K)
    {P : Tree Dim K → BBox Dim K → Prop} {left right : Tree Dim K}
    (hl : P left (b.left dim split)) (hr : P right (b.right dim split)) :
    P (nearOf query dim split left right) (nearBox query dim split b) ∧
      P (farOf query dim split left right) (farBox query dim split b) := by
  rw [nearOf, farOf, nearBox, farBox]
  split_ifs
  · exact ⟨hl, hr⟩
  · exact ⟨hr, hl⟩

theorem descendCalls_leaf {id offset cap bboxIdx : ℕ} {live total : ℤ} {es : List BucketEntry}
    {bbox : BBox Dim K} (fuel : ℕ) (minSqDist : K) (s : Best Dim K)
    (h : (Tree.leaf id live total offset cap bboxIdx es bbox).Rep p) (hid : id ≠ invalid) :
    descendCalls std p points query kMax (fuel + 1) id minSqDist s =
      [⟨id, minSqDist, s.minSqAxisDist, none, s.minSqAxisDist⟩] := by
  simp only [descendCalls, descend_axis, hid, ↓reduceIte, h.leaf_body]

theorem mem_descendCalls_node {id : ℕ} {live total : ℤ} {dim : Fin Dim} {split : K}
    {left right : Tree Dim K} {fuel : ℕ} {minSqDist : K} {s : Best Dim K} {c : DescendCall Dim K}
    (h : (Tree.node id live total dim split left right).Rep p) (hid : id ≠ invalid)
    (hc : c ∈ descendCalls std p points query kMax (fuel + 1) id minSqDist s) :
    c = ⟨id, minSqDist, s.minSqAxisDist,
        some (minSqDist - s.minSqAxisDist dim + (query dim - split) * (query dim - split)),
        s.minSqAxisDist⟩ ∨
      c ∈ descendCalls std p points query kMax fuel (nearOf query dim split left right).id
        minSqDist s ∨
      ∃ s' : Best Dim K,
        s'.minSqAxisDist =
          Function.update s.minSqAxisDist dim ((query dim - split) * (query dim - split)) ∧
        c ∈ descendCalls std p points query kMax fuel (farOf query dim split left right).id
          (minSqDist - s.minSqAxisDist dim + (query dim - split) * (query dim - split)) s' := by
  simp only [descendCalls, descend_axis, hid, ↓reduceIte, h.node_body,
    nearOf_id dim split left right, farOf_id dim split left right] at hc
  rcases List.mem_cons.mp hc with rfl | hc
  · exact Or.inl rfl
  rcases List.mem_append.mp hc with hc | hc
  · exact Or.inr (Or.inl hc)
  split_ifs at hc
  · exact Or.inr (Or.inr ⟨_, rfl, hc⟩)
  · cases hc

omit [Field K] in
theorem setOf_left (b : BBox Dim K) (dim : Fin Dim) (split : K) :
    {x | (b.left dim split).Mem x} = {x | b.Mem x} ∩ {x | x dim ≤ split} :=
  Set.ext (fun _ => BBox.mem_left_iff)

omit [Field K] in
theorem setOf_right (b : BBox Dim K) (dim : Fin Dim) (split : K) :
    {x | (b.right dim split).Mem x} = {x | b.Mem x} ∩ {x | split ≤ x dim} :=
  Set.ext (fun _ => BBox.mem_right_iff)

/-- The call is at a node of the tree, and its axis distances are those to the region cut out for
that node, which holds the valid points below. -/
def Located (p : Pools Dim K) (points : PointStore Dim K) (query : Point Dim K) (t : Tree Dim K)
    (b : BBox Dim K) (c : DescendCall Dim K) : Prop :=
  ∃ (d : ℕ) (u : Tree Dim K) (b' : BBox Dim K), t.Sub d u ∧ u.id = c.node ∧
    p.Cut t.id {x | b.Mem x} c.node {x | b'.Mem x} ∧
    AxisExact query {x | b'.Mem x} c.minSqAxisDist ∧
    ∀ i ∈ u.validIn points, b'.Mem (points.point i)

section
variable {id : ℕ} {live total : ℤ} {dim : Fin Dim} {split : K} {left right : Tree Dim K}
  {b : BBox Dim K} {c : DescendCall Dim K} {axis : Fin Dim → K}

theorem located_left (h : (Tree.node id live total dim split left right).Rep p)
    (hc : Located p points query left (b.left dim split) c) :
    Located p points query (.node id live total dim split left right) b c := by
  obtain ⟨d, u, b', hs, hu, hcut, hexact, hin⟩ := hc
  rw [setOf_left] at hcut
  exact ⟨d + 1, u, b', .left id live total dim split hs, hu, .left h.node_body hcut, hexact, hin⟩

theorem located_right (h : (Tree.node id live total dim split left right).Rep p)
    (hc : Located p points query right (b.right dim split) c) :
    Located p points query (.node id live total dim split left right) b c := by
  obtain ⟨d, u, b', hs, hu, hcut, hexact, hin⟩ := hc
  rw [setOf_right] at hcut
  exact ⟨d + 1, u, b', .right id live total dim split hs, hu, .right h.node_body hcut, hexact, hin⟩

variable [IsStrictOrderedRing K]

theorem axisExact_nearBox (h : AxisExact query {x | b.Mem x} axis)
    (cross : ∀ x, b.Mem x → b.Mem (Function.update x dim split)) :
    AxisExact query {x | (nearBox query dim split b).Mem x} axis := by
  unfold nearBox
  split_ifs with hside
  · rw [setOf_left]
    refine h.near (fun x hx => ⟨cross x hx, by simp⟩) (fun x hx => ?_)
    exact Or.inl ⟨hside, (not_le.mp hx).le⟩
  · rw [setOf_right]
    refine h.near (fun x hx => ⟨cross x hx, by simp⟩) (fun x hx => ?_)
    exact Or.inr ⟨hside, (not_le.mp hx).le⟩

theorem axisExact_farBox (h : AxisExact query {x | b.Mem x} axis)
    (cross : ∀ x, b.Mem x → b.Mem (Function.update x dim split)) :
    AxisExact query {x | (farBox query dim split b).Mem x}
      (Function.update axis dim ((query dim - split) * (query dim - split))) := by
  unfold farBox
  split_ifs with hside
  · rw [setOf_right]
    exact h.far (fun x hx => ⟨cross x hx, by simp⟩) (fun x hx => Or.inl ⟨hside, hx⟩)
  · rw [setOf_left]
    exact h.far (fun x hx => ⟨cross x hx, by simp⟩) (fun x hx => Or.inr ⟨hside, hx⟩)

end

variable [IsStrictOrderedRing K]

/-- Every call below a call with exact axis distances has exact axis distances. -/
theorem descendCalls_located {t : Tree Dim K} {b : BBox Dim K} (h : t.Rep p) (fit : p.Fit)
    (hreg : t.Regular b) (hp : t.Placed points)
    (hin : ∀ i ∈ t.validIn points, b.Mem (points.point i)) (fuel : ℕ) (hfuel : t.height < fuel)
    (minSqDist : K) (s : Best Dim K) (hsum : minSqDist = ∑ i, s.minSqAxisDist i)
    (hexact : AxisExact query {x | b.Mem x} s.minSqAxisDist) :
    ∀ c ∈ descendCalls std p points query kMax fuel t.id minSqDist s,
      c.Exact ∧ Located p points query t b c := by
  induction fuel generalizing t b minSqDist s with
  | zero => omega
  | succ fuel ih =>
    have hid := h.id_valid fit
    intro c hc
    cases t with
    | leaf id live total offset cap bboxIdx es bbox =>
      rw [Tree.id_leaf, descendCalls_leaf fuel minSqDist s h hid, List.mem_singleton] at hc
      subst hc
      exact ⟨⟨hsum, by simp, rfl⟩, 0, _, b, .refl _, rfl, .refl _ _, hexact, hin⟩
    | node id live total dim split left right =>
      simp only [Tree.height] at hfuel
      have hl : (b.left dim split).NonInverted := hreg.2.1.nonInverted
      have hr : (b.right dim split).NonInverted := hreg.2.2.nonInverted
      have cross : ∀ x, b.Mem x → b.Mem (Function.update x dim split) :=
        fun x hx => hx.cross hl hr
      obtain ⟨hnear, hfar⟩ := near_far_box query dim split b
        (P := fun u b' => u.Rep p ∧ u.Regular b' ∧ u.Placed points ∧
          (∀ i ∈ u.validIn points, b'.Mem (points.point i)) ∧ u.height < fuel ∧
          ∀ c, Located p points query u b' c →
            Located p points query (.node id live total dim split left right) b c)
        ⟨h.left, hreg.2.1, hp.2.2.1, hp.mem_left hin, by omega, fun _ => located_left h⟩
        ⟨h.right, hreg.2.2, hp.2.2.2, hp.mem_right hin, by omega, fun _ => located_right h⟩
      rcases mem_descendCalls_node h hid hc with rfl | hc | ⟨s', haxis, hc⟩
      · refine ⟨⟨hsum, ?_, rfl⟩, 0, _, b, .refl _, rfl, .refl _ _, hexact, hin⟩
        intro far hfar
        have hle := hexact.le_cross cross
        rw [← Option.some.inj hfar]
        linarith
      · obtain ⟨hrep, hreg', hpl, hin', hheight, lift⟩ := hnear
        obtain ⟨hc, hloc⟩ := ih hrep hreg' hpl hin' hheight minSqDist s hsum
          (axisExact_nearBox hexact cross) c hc
        exact ⟨hc, lift c hloc⟩
      · obtain ⟨hrep, hreg', hpl, hin', hheight, lift⟩ := hfar
        have hexact' := axisExact_farBox hexact cross
        rw [← haxis] at hexact'
        obtain ⟨hc, hloc⟩ := ih hrep hreg' hpl hin' hheight _ s'
          (by rw [haxis, sum_update, hsum]) hexact' c hc
        exact ⟨hc, lift c hloc⟩

end
end SearchKernel

namespace KDTreeImpl
variable {Dim : ℕ} [NeZero Dim] {K : Type*} [Field K] [LinearOrder K]
open SearchKernel

/-- What a call of `descend` carries: exact axis distances to the region that the split planes cut
out for its node, and their sum, which is a lower bound for the live points below. -/
structure Bounds (s : KDTreeImpl Dim K) (query : Point Dim K) (c : DescendCall Dim K) : Prop where
  exact : c.Exact
  reached : ∃ region, s.pools.Cut s.root Set.univ c.node region
  axis : ∀ region, s.pools.Cut s.root Set.univ c.node region →
    AxisExact query region c.minSqAxisDist
  live : ∀ {n : ℕ} {pos : ℕ × ℕ} {e : BucketEntry}, s.pools.Below c.node n pos.1 →
    s.EntryAt pos e → s.points.valid e = true →
    c.minSqDist ≤ (s.points.point e.index).sqDist query

section
variable [IsStrictOrderedRing K] {env : Env K} {cfg : Config K} {s : KDTreeImpl Dim K}

/-- Every call of `descend` in a search comes with exact distances. -/
theorem descend_bounds (hB : 2 * cfg.leafBucketSize ≤ 65535) (h : Reachable env cfg s)
    (query : Point Dim K) (kMax : ℕ) (initialSqRadius : WithTop K) :
    ∀ c ∈ searchCalls env.std s.pools s.points s.root query kMax initialSqRadius,
      Bounds s query c := by
  intro c hc
  obtain ⟨o, hs, hp⟩ := h.parted hB
  rw [searchCalls] at hc
  split_ifs at hc with hnone
  · cases hc
  cases o with
  | none => exact absurd hs.reads.root (not_or.mp hnone).1
  | some t =>
    have holds : Holds s t := hs.reads
    have hreg : t.Regular BBox.space := Tree.Regular.mono hp (BBox.space_covers _)
    have huniv : {x : Point Dim K | (BBox.space : BBox Dim K).Mem x} = Set.univ :=
      Set.eq_univ_of_forall BBox.mem_space
    rw [← holds.root] at hc
    obtain ⟨hexact, d, u, b, hsub, hu, hcut, haxis, hin⟩ := descendCalls_located holds.rep
      hs.noWrap.pools hreg holds.placed (fun i _ => BBox.mem_space _) _ holds.height_lt 0
      ⟨[], initialSqRadius, fun _ => 0⟩ (by simp) (huniv ▸ AxisExact.univ query) c hc
    rw [huniv] at hcut
    refine ⟨hexact, ⟨_, holds.root ▸ hcut⟩, fun region hregion => ?_, fun {n pos e} hb he hv => ?_⟩
    · rw [← holds.root] at hregion
      rw [holds.rep.cut_unique hregion hcut]
      exact haxis
    · rw [← hu] at hb
      have hat := (hs.entryAt_iff.mp he).of_below holds.rep (hsub.rep holds.rep) hb
      rw [hexact.sum]
      exact haxis.le_sqDist (hin _ (hat.mem_validIn hv))

end

def rowRun : KDTreeImpl 2 ℚ :=
  run wordEnv (start (plane 5 (1 / 4))) [.insert [![0, 0], ![1, 0], ![2, 0], ![3, 0]], .rebuildAll]

theorem descend_bounds_row :
    (searchCalls wordEnv.std rowRun.pools rowRun.points rowRun.root ![5, 1] 3 ⊤).length = 7 ∧
      ∀ c ∈ searchCalls wordEnv.std rowRun.pools rowRun.points rowRun.root ![5, 1] 3 ⊤,
        Bounds rowRun ![5, 1] c :=
  ⟨by decide +kernel, descend_bounds (by decide)
    (reachable_run (plane_accepted (by decide) (by norm_num)) (by decide +kernel)) _ _ _⟩

end KDTreeImpl
end Copse
