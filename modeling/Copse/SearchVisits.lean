import Copse.DescendBounds
import Copse.KDTreeSearch

set_option autoImplicit false

/-!
# The nodes that a search visits

A search enters a node once, while fewer than `k` of the points it has scanned
are as near as the region of the node, and it misses no region with a place
nearer than the points it reports. With no cap this leaves it no choice: a
radius search comes to the regions that meet the ball and to no other. The plain
descent of `collect_indices_within`, which tests one plane at a time, comes to
all of these too.
-/
namespace Copse
open PointStore SearchKernel

namespace SearchKernel
variable {Dim : ℕ} {K : Type*} [Field K] [LinearOrder K]

/-- The nodes below `i` whose regions, cut out of the box, have a point within the bound. -/
def Meets (p : Pools Dim K) (query : Point Dim K) (bound : WithTop K) (i : ℕ) (b : BBox Dim K)
    (j : ℕ) : Prop :=
  ∃ region, p.Cut i {x | b.Mem x} j region ∧ ∃ x ∈ region, (x.sqDist query : WithTop K) < bound

/-- The nodes that `collect_descend` comes to. -/
def collectVisits (p : Pools Dim K) (query : Point Dim K) (sqRadius : K) : ℕ → ℕ → List ℕ
  | 0, _ => []
  | fuel + 1, nodeIdx =>
    if nodeIdx = invalid then []
    else
      match (p.node nodeIdx).body with
      | .leaf .. => [nodeIdx]
      | .internal dim split left right =>
        let diff := query dim - split
        let nearChild := if diff < 0 then left else right
        let farChild := if diff < 0 then right else left
        nodeIdx :: (collectVisits p query sqRadius fuel nearChild ++
          if diff * diff < sqRadius then collectVisits p query sqRadius fuel farChild else [])

def collectAt (p : Pools Dim K) (points : PointStore Dim K) (query : Point Dim K) (sqRadius : K)
    (nodeIdx : ℕ) : List ℕ :=
  match (p.node nodeIdx).body with
  | .leaf offset size _ _ => collectLeaf points query sqRadius (p.view offset size)
  | .internal .. => []

/-- The nodes of the tree that meet one bound, and others that meet a wider one, each once. -/
structure Visits (p : Pools Dim K) (query : Point Dim K) (inner outer : WithTop K) (t : Tree Dim K)
    (b : BBox Dim K) (visited : List ℕ) : Prop where
  nodup : visited.Nodup
  within : ∀ i ∈ visited, Addr.node i ∈ t.addrs
  meets : ∀ i ∈ visited, Meets p query outer t.id b i
  all : ∀ i, Meets p query inner t.id b i → i ∈ visited

def scannedAt (p : Pools Dim K) (points : PointStore Dim K) (nodeIdx : ℕ) : List ℕ :=
  match (p.node nodeIdx).body with
  | .leaf offset size _ _ => ((p.view offset size).filter points.valid).map BucketEntry.index
  | .internal .. => []

def scannedBy (p : Pools Dim K) (points : PointStore Dim K) (calls : List (DescendCall Dim K)) :
    List ℕ :=
  calls.flatMap (fun c => scannedAt p points c.node)

/-- Each call finds fewer than `kMax` entries as near as its region among those seen before it. -/
def Guarded (p : Pools Dim K) (points : PointStore Dim K) (query : Point Dim K) (kMax : ℕ)
    (bound : WithTop K) : List (HeapEntry K) → List (DescendCall Dim K) → Prop
  | _, [] => True
  | seen, c :: calls =>
    ((c.minSqDist : WithTop K) < bound ∧
        seen.countP (fun e => decide (e.sqDist ≤ c.minSqDist)) < kMax) ∧
      Guarded p points query kMax bound
        (candidates points query bound (scannedAt p points c.node) ++ seen) calls

/-- What the calls of one descent amount to. -/
structure Descent (p : Pools Dim K) (points : PointStore Dim K) (query : Point Dim K) (kMax : ℕ)
    (bound : WithTop K) (t : Tree Dim K) (b : BBox Dim K) (seen : List (HeapEntry K))
    (worst : WithTop K) (calls : List (DescendCall Dim K)) : Prop where
  visits : Visits p query worst bound t b (calls.map DescendCall.node)
  guarded : Guarded p points query kMax bound seen calls
  scanned : ∃ rest, (scannedBy p points calls ++ rest).Perm (t.validIn points)

section
variable {p : Pools Dim K} {points : PointStore Dim K} {query : Point Dim K} {kMax : ℕ}
  {bound : WithTop K} {std : StdAlgorithm K} {b : BBox Dim K} {axis : Fin Dim → K} {i j : ℕ}

/-- The trace accounts for the whole answer. -/
theorem collectDescend_eq_flatMap (sqRadius : K) (fuel nodeIdx : ℕ) :
    collectDescend p points query sqRadius fuel nodeIdx =
      (collectVisits p query sqRadius fuel nodeIdx).flatMap (collectAt p points query sqRadius) := by
  induction fuel generalizing nodeIdx with
  | zero => rfl
  | succ fuel ih =>
    rw [collectDescend, collectVisits]
    split_ifs with hid
    · rfl
    · cases hbody : (p.node nodeIdx).body with
      | leaf offset size cap bboxIdx =>
        simp only [List.flatMap_singleton, collectAt, hbody]
      | internal dim split left right =>
        simp only [List.flatMap_cons, List.flatMap_append, collectAt, hbody, List.nil_append, ih]
        split_ifs <;> rfl

omit [Field K] in
theorem cut_subset {region region' : Set (Point Dim K)} (h : p.Cut i region j region') :
    region' ⊆ region := by
  induction h with
  | refl => exact subset_rfl
  | left _ _ ih => exact ih.trans Set.inter_subset_left
  | right _ _ ih => exact ih.trans Set.inter_subset_left

theorem Meets.exists_mem (h : Meets p query bound i b j) :
    ∃ x, b.Mem x ∧ (x.sqDist query : WithTop K) < bound := by
  obtain ⟨region, hcut, x, hx, hlt⟩ := h
  exact ⟨x, cut_subset hcut hx, hlt⟩

theorem meets_leaf {id live total offset cap bboxIdx} {es : List BucketEntry} {bbox : BBox Dim K}
    (h : (Tree.leaf id live total offset cap bboxIdx es bbox).Rep p) :
    Meets p query bound id b j ↔
      j = id ∧ ∃ x, b.Mem x ∧ (x.sqDist query : WithTop K) < bound := by
  constructor
  · intro hm
    have hmem := hm.exists_mem
    obtain ⟨region, hcut, -⟩ := hm
    refine ⟨?_, hmem⟩
    cases hcut with
    | refl => rfl
    | left hbody | right hbody =>
      rw [h.leaf_body] at hbody
      cases hbody
  · rintro ⟨rfl, x, hx, hlt⟩
    exact ⟨_, .refl _ _, x, hx, hlt⟩

theorem meets_node {id : ℕ} {live total : ℤ} {dim : Fin Dim} {split : K} {left right : Tree Dim K}
    (h : (Tree.node id live total dim split left right).Rep p) :
    Meets p query bound id b j ↔
      (j = id ∧ ∃ x, b.Mem x ∧ (x.sqDist query : WithTop K) < bound) ∨
        Meets p query bound (nearOf query dim split left right).id (nearBox query dim split b) j ∨
        Meets p query bound (farOf query dim split left right).id (farBox query dim split b) j := by
  have hsides : Meets p query bound id b j ↔
      (j = id ∧ ∃ x, b.Mem x ∧ (x.sqDist query : WithTop K) < bound) ∨
        Meets p query bound left.id (b.left dim split) j ∨
        Meets p query bound right.id (b.right dim split) j := by
    constructor
    · intro hm
      obtain ⟨region, hcut, hx⟩ := hm
      cases hcut with
      | refl => exact .inl ⟨rfl, hx⟩
      | left hbody rest =>
        rw [h.node_body] at hbody
        cases hbody
        rw [← setOf_left] at rest
        exact .inr (.inl ⟨region, rest, hx⟩)
      | right hbody rest =>
        rw [h.node_body] at hbody
        cases hbody
        rw [← setOf_right] at rest
        exact .inr (.inr ⟨region, rest, hx⟩)
    · rintro (⟨rfl, x, hx, hlt⟩ | ⟨region, hcut, hx⟩ | ⟨region, hcut, hx⟩)
      · exact ⟨_, .refl _ _, x, hx, hlt⟩
      · rw [setOf_left] at hcut
        exact ⟨region, .left h.node_body hcut, hx⟩
      · rw [setOf_right] at hcut
        exact ⟨region, .right h.node_body hcut, hx⟩
  rw [hsides, nearOf, farOf, nearBox, farBox]
  split_ifs
  · exact Iff.rfl
  · rw [@or_comm (Meets p query bound left.id (b.left dim split) j)]

theorem Meets.mono {bound' : WithTop K} (h : Meets p query bound i b j) (hle : bound ≤ bound') :
    Meets p query bound' i b j := by
  obtain ⟨region, hcut, x, hx, hlt⟩ := h
  exact ⟨region, hcut, x, hx, hlt.trans_le hle⟩

theorem Visits.mono {inner inner' outer : WithTop K} {t : Tree Dim K} {visited : List ℕ}
    (h : Visits p query inner outer t b visited) (hle : inner' ≤ inner) :
    Visits p query inner' outer t b visited :=
  ⟨h.nodup, h.within, h.meets, fun i hi => h.all i (hi.mono hle)⟩

theorem visits_leaf {inner outer : WithTop K} {id live total offset cap bboxIdx}
    {es : List BucketEntry} {bbox : BBox Dim K}
    (h : (Tree.leaf id live total offset cap bboxIdx es bbox).Rep p)
    (hself : ∃ x, b.Mem x ∧ (x.sqDist query : WithTop K) < outer) :
    Visits p query inner outer (.leaf id live total offset cap bboxIdx es bbox) b [id] := by
  refine ⟨List.nodup_singleton _, fun i hi => ?_, fun i hi => ?_, fun i hi => ?_⟩
  · rw [List.mem_singleton.mp hi]
    exact Tree.id_mem_addrs _
  · rw [Tree.id_leaf, meets_leaf h]
    exact ⟨List.mem_singleton.mp hi, hself⟩
  · rw [Tree.id_leaf, meets_leaf h] at hi
    exact List.mem_singleton.mpr hi.1

theorem Visits.node {inner outer : WithTop K} {id : ℕ} {live total : ℤ} {dim : Fin Dim} {split : K}
    {left right : Tree Dim K} {near far : List ℕ}
    (h : (Tree.node id live total dim split left right).Rep p)
    (hself : ∃ x, b.Mem x ∧ (x.sqDist query : WithTop K) < outer)
    (hn : Visits p query inner outer (nearOf query dim split left right) (nearBox query dim split b)
      near)
    (hf : Visits p query inner outer (farOf query dim split left right) (farBox query dim split b)
      far) :
    Visits p query inner outer (.node id live total dim split left right) b
      (id :: (near ++ far)) := by
  have hapart : Disjoint (nearOf query dim split left right).addrs
      (farOf query dim split left right).addrs := by
    rw [nearOf, farOf]
    split_ifs
    · exact h.2.2.2.1
    · exact h.2.2.2.1.symm
  obtain ⟨⟨hnotN, hsubN⟩, hnotF, hsubF⟩ := near_far query dim split
    (P := fun u => Addr.node id ∉ u.addrs ∧
      u.addrs ⊆ (Tree.node id live total dim split left right).addrs)
    ⟨h.left.not_mem_of_lt h.2.1, fun a ha => .inr (.inl ha)⟩
    ⟨h.right.not_mem_of_lt h.2.2.1, fun a ha => .inr (.inr ha)⟩
  refine ⟨List.nodup_cons.mpr ⟨?_, List.nodup_append.mpr ⟨hn.nodup, hf.nodup, ?_⟩⟩, ?_, ?_, ?_⟩
  · rw [List.mem_append]
    rintro (hmem | hmem)
    · exact hnotN (hn.within _ hmem)
    · exact hnotF (hf.within _ hmem)
  · rintro i hi j hj rfl
    exact Set.disjoint_left.mp hapart (hn.within i hi) (hf.within i hj)
  · intro i hi
    rcases List.mem_cons.mp hi with rfl | hi
    · exact Tree.id_mem_addrs _
    rcases List.mem_append.mp hi with hi | hi
    · exact hsubN (hn.within i hi)
    · exact hsubF (hf.within i hi)
  · intro i hi
    rw [Tree.id_node, meets_node h]
    rcases List.mem_cons.mp hi with rfl | hi
    · exact .inl ⟨rfl, hself⟩
    rcases List.mem_append.mp hi with hi | hi
    · exact .inr (.inl (hn.meets i hi))
    · exact .inr (.inr (hf.meets i hi))
  · intro i hi
    rw [Tree.id_node, meets_node h] at hi
    rw [List.mem_cons, List.mem_append]
    exact hi.imp And.left (Or.imp (hn.all i) (hf.all i))

omit [LinearOrder K] in
theorem scannedBy_cons (c : DescendCall Dim K) (calls : List (DescendCall Dim K)) :
    scannedBy p points (c :: calls) = scannedAt p points c.node ++ scannedBy p points calls :=
  List.flatMap_cons

omit [LinearOrder K] in
theorem scannedBy_append (calls calls' : List (DescendCall Dim K)) :
    scannedBy p points (calls ++ calls') = scannedBy p points calls ++ scannedBy p points calls' :=
  List.flatMap_append

theorem Guarded.mono {seen seen' : List (HeapEntry K)} {calls : List (DescendCall Dim K)}
    (h : Guarded p points query kMax bound seen calls)
    (hle : ∀ m : K, seen'.countP (fun e => decide (e.sqDist ≤ m)) ≤
      seen.countP (fun e => decide (e.sqDist ≤ m))) :
    Guarded p points query kMax bound seen' calls := by
  induction calls generalizing seen seen' with
  | nil => trivial
  | cons c calls ih =>
    obtain ⟨⟨hbound, hcount⟩, hrest⟩ := h
    refine ⟨⟨hbound, (hle _).trans_lt hcount⟩, ih hrest (fun m => ?_)⟩
    rw [List.countP_append, List.countP_append]
    exact Nat.add_le_add_left (hle m) _

theorem Guarded.append {seen : List (HeapEntry K)} {calls calls' : List (DescendCall Dim K)}
    (h : Guarded p points query kMax bound seen calls)
    (h' : Guarded p points query kMax bound
      (candidates points query bound (scannedBy p points calls) ++ seen) calls') :
    Guarded p points query kMax bound seen (calls ++ calls') := by
  induction calls generalizing seen with
  | nil => exact h'
  | cons c calls ih =>
    refine ⟨h.1, ih h.2 (h'.mono (fun m => le_of_eq ?_))⟩
    rw [scannedBy_cons, candidates_append]
    simp only [List.countP_append]
    omega

theorem Guarded.before {seen : List (HeapEntry K)} {pre post : List (DescendCall Dim K)}
    {c : DescendCall Dim K} (h : Guarded p points query kMax bound seen (pre ++ c :: post)) :
    (c.minSqDist : WithTop K) < bound ∧
      (candidates points query bound (scannedBy p points pre) ++ seen).countP
        (fun e => decide (e.sqDist ≤ c.minSqDist)) < kMax := by
  induction pre generalizing seen with
  | nil => exact h.1
  | cons c' pre ih =>
    obtain ⟨hbound, hcount⟩ := ih h.2
    refine ⟨hbound, lt_of_eq_of_lt ?_ hcount⟩
    rw [scannedBy_cons, candidates_append]
    simp only [List.countP_append]
    omega

variable [IsStrictOrderedRing K]

omit [IsStrictOrderedRing K] in
theorem exists_at_sum (h : AxisExact query {x | b.Mem x} axis) :
    ∃ x, b.Mem x ∧ x.sqDist query = ∑ i, axis i := by
  choose x hx using fun i => (h i).1
  refine ⟨fun i => x i i, fun i => (hx i).1 i, ?_⟩
  exact Finset.sum_congr rfl (fun i _ => (hx i).2)

theorem exists_mem_iff (h : AxisExact query {x | b.Mem x} axis) :
    (∃ x, b.Mem x ∧ (x.sqDist query : WithTop K) < bound) ↔
      ((∑ i, axis i : K) : WithTop K) < bound := by
  constructor
  · rintro ⟨x, hx, hlt⟩
    exact (WithTop.coe_le_coe.mpr (h.le_sqDist hx)).trans_lt hlt
  · intro hlt
    obtain ⟨x, hx, heq⟩ := exists_at_sum h
    exact ⟨x, hx, heq ▸ hlt⟩

section
omit [IsStrictOrderedRing K]

theorem axisBound_of_exact (h : AxisExact query {x | b.Mem x} axis) {t : Tree Dim K}
    (hin : ∀ i ∈ t.validIn points, b.Mem (points.point i)) : AxisBound points query axis t :=
  fun i hi j => (h j).2 ⟨points.point i, hin i hi, rfl⟩

theorem descendCalls_node {id : ℕ} {live total : ℤ} {dim : Fin Dim} {split : K}
    {left right : Tree Dim K} {fuel : ℕ} {minSqDist : K} {s near : Best Dim K}
    (h : (Tree.node id live total dim split left right).Rep p) (hid : id ≠ invalid)
    (hnear : descend std p points query kMax fuel (nearOf query dim split left right).id minSqDist s =
      near) :
    ∃ c : DescendCall Dim K, c.node = id ∧ c.minSqDist = minSqDist ∧
      descendCalls std p points query kMax (fuel + 1) id minSqDist s =
        c :: (descendCalls std p points query kMax fuel (nearOf query dim split left right).id
            minSqDist s ++
          if ((minSqDist - near.minSqAxisDist dim + (query dim - split) * (query dim - split) : K) :
              WithTop K) < near.worst then
            descendCalls std p points query kMax fuel (farOf query dim split left right).id
              (minSqDist - near.minSqAxisDist dim + (query dim - split) * (query dim - split))
              { near with
                minSqAxisDist := Function.update near.minSqAxisDist dim
                  ((query dim - split) * (query dim - split)) }
          else []) := by
  rw [descendCalls]
  simp only [hid, ↓reduceIte, h.node_body, nearOf_id dim split left right,
    farOf_id dim split left right, hnear]
  exact ⟨_, rfl, rfl, rfl⟩

theorem candidates_countP {l : List ℕ} {m : K} (hm : (m : WithTop K) < bound) :
    (candidates points query bound l).countP (fun e => decide (e.sqDist ≤ m)) =
      l.countP (fun i => decide ((points.point i).sqDist query ≤ m)) := by
  rw [candidates, within, List.countP_map, List.countP_filter]
  congr 1
  funext i
  rw [Bool.eq_iff_iff, Bool.and_eq_true, Function.comp_apply, decide_eq_true_eq, decide_eq_true_eq]
  exact and_iff_left_of_imp (fun hle => (WithTop.coe_le_coe.mpr hle).trans_lt hm)

theorem candidates_countP_le {l rest l' : List ℕ} (h : (l ++ rest).Perm l') (m : K) :
    (candidates points query bound l).countP (fun e => decide (e.sqDist ≤ m)) ≤
      (candidates points query bound l').countP (fun e => decide (e.sqDist ≤ m)) := by
  rw [← (candidates_perm h).countP_eq, candidates_append, List.countP_append]
  exact Nat.le_add_right _ _

theorem Descent.node {id : ℕ} {live total : ℤ} {dim : Fin Dim} {split : K} {left right : Tree Dim K}
    {seen : List (HeapEntry K)} {worst worst' : WithTop K} {c : DescendCall Dim K}
    {near far : List (DescendCall Dim K)}
    (h : (Tree.node id live total dim split left right).Rep p) (hc : c.node = id)
    (hself : ∃ x, b.Mem x ∧ (x.sqDist query : WithTop K) < bound)
    (hguard : (c.minSqDist : WithTop K) < bound ∧
      seen.countP (fun e => decide (e.sqDist ≤ c.minSqDist)) < kMax) (hle : worst' ≤ worst)
    (hn : Descent p points query kMax bound (nearOf query dim split left right)
      (nearBox query dim split b) seen worst near)
    (hf : Descent p points query kMax bound (farOf query dim split left right)
      (farBox query dim split b) (candidates points query bound
        ((nearOf query dim split left right).validIn points) ++ seen) worst' far) :
    Descent p points query kMax bound (.node id live total dim split left right) b seen worst'
      (c :: (near ++ far)) := by
  have hnone : scannedAt p points c.node = [] := by
    rw [hc, scannedAt, h.node_body]
  obtain ⟨restN, hscanN⟩ := hn.scanned
  obtain ⟨restF, hscanF⟩ := hf.scanned
  refine ⟨?_, ⟨hguard, ?_⟩, restN ++ restF, ?_⟩
  · rw [List.map_cons, List.map_append, hc]
    exact (hn.visits.mono hle).node h hself hf.visits
  · rw [hnone]
    refine hn.guarded.append (hf.guarded.mono (fun m => ?_))
    rw [List.countP_append, List.countP_append]
    exact Nat.add_le_add_right (candidates_countP_le hscanN m) _
  · rw [scannedBy_cons, hnone, List.nil_append, scannedBy_append, Tree.validIn_node]
    calc
      (scannedBy p points near ++ scannedBy p points far ++ (restN ++ restF)).Perm
          ((scannedBy p points near ++ restN) ++ (scannedBy p points far ++ restF)) := by
        rw [← Multiset.coe_eq_coe]
        simp only [← Multiset.coe_add]
        exact add_add_add_comm _ _ _ _
      List.Perm _ ((nearOf query dim split left right).validIn points ++
          (farOf query dim split left right).validIn points) := hscanN.append hscanF
      List.Perm _ _ := near_far_validIn points query dim split left right

end

/-- A descent enters only while it has to, and it enters all that it has to. -/
theorem descendCalls_descent (hk : 0 < kMax) {t : Tree Dim K} (h : t.Rep p) (fit : p.Fit)
    (hreg : t.Regular b) (hp : t.Placed points)
    (hin : ∀ i ∈ t.validIn points, b.Mem (points.point i)) (fuel : ℕ) (hfuel : t.height < fuel)
    (minSqDist : K) {s : Best Dim K} {all : List (HeapEntry K)} (hs : Kept kMax bound s all)
    (hsum : minSqDist = ∑ i, s.minSqAxisDist i)
    (hexact : AxisExact query {x | b.Mem x} s.minSqAxisDist)
    (hopen : (minSqDist : WithTop K) < s.worst) :
    Descent p points query kMax bound t b all
      (descend std p points query kMax fuel t.id minSqDist s).worst
      (descendCalls std p points query kMax fuel t.id minSqDist s) := by
  induction fuel generalizing t b minSqDist s all with
  | zero => omega
  | succ fuel ih =>
    have hid := h.id_valid fit
    have hguard := (hs.lt_worst_iff hk minSqDist).mp hopen
    have hself : ∃ x, b.Mem x ∧ (x.sqDist query : WithTop K) < bound := by
      rw [exists_mem_iff hexact, ← hsum]
      exact hguard.1
    cases t with
    | leaf id live total offset cap bboxIdx es bbox =>
      rw [Tree.id_leaf, descendCalls_leaf fuel minSqDist s h hid]
      refine ⟨visits_leaf h hself, ⟨hguard, trivial⟩, [], ?_⟩
      rw [scannedBy, List.flatMap_singleton, List.append_nil, scannedAt, h.leaf_body]
      dsimp only
      rw [h.view_eq, Tree.validIn_leaf]
    | node id live total dim split left right =>
      simp only [Tree.height] at hfuel
      have hl : (b.left dim split).NonInverted := hreg.2.1.nonInverted
      have hr : (b.right dim split).NonInverted := hreg.2.2.nonInverted
      have cross : ∀ x, b.Mem x → b.Mem (Function.update x dim split) :=
        fun x hx => hx.cross hl hr
      obtain ⟨hnear, hfar⟩ := near_far_box query dim split b
        (P := fun u b' => u.Rep p ∧ u.Regular b' ∧ u.Placed points ∧
          (∀ i ∈ u.validIn points, b'.Mem (points.point i)) ∧ u.height < fuel)
        ⟨h.left, hreg.2.1, hp.2.2.1, hp.mem_left hin, by omega⟩
        ⟨h.right, hreg.2.2, hp.2.2.2, hp.mem_right hin, by omega⟩
      have hexactN : AxisExact query {x | (nearBox query dim split b).Mem x} s.minSqAxisDist :=
        axisExact_nearBox hexact cross
      have hexactF : AxisExact query {x | (farBox query dim split b).Mem x} _ :=
        axisExact_farBox hexact cross
      have hvisitsN := ih hnear.1 hnear.2.1 hnear.2.2.1 hnear.2.2.2.1 hnear.2.2.2.2 minSqDist hs
        hsum hexactN hopen
      generalize heq : descend std p points query kMax fuel (nearOf query dim split left right).id
        minSqDist s = near at hvisitsN
      have hkept : Kept kMax bound near (candidates points query bound
          ((nearOf query dim split left right).validIn points) ++ all) := heq ▸
        descend_kept std hk hnear.1 fit hnear.2.2.1 fuel hnear.2.2.2.2 minSqDist hs hsum
          (axisBound_of_exact hexactN hnear.2.2.2.1)
      have haxis : near.minSqAxisDist = s.minSqAxisDist := heq ▸ descend_axis ..
      have hsumF : minSqDist - s.minSqAxisDist dim + (query dim - split) * (query dim - split) =
          ∑ i, Function.update s.minSqAxisDist dim ((query dim - split) * (query dim - split)) i := by
        rw [sum_update, hsum]
      obtain ⟨c, hc, hdist, hcalls⟩ := descendCalls_node h hid heq
      rw [← hdist] at hguard
      rw [Tree.id_node, hcalls, descend_node fuel minSqDist s h hid, heq, descendFar, haxis]
      by_cases hclose : ((minSqDist - s.minSqAxisDist dim +
          (query dim - split) * (query dim - split) : K) : WithTop K) < near.worst
      · rw [if_pos hclose, if_pos hclose]
        have hmoved := hkept.axis
          (Function.update s.minSqAxisDist dim ((query dim - split) * (query dim - split)))
        have hdone := descend_kept std hk hfar.1 fit hfar.2.2.1 fuel hfar.2.2.2.2 _ hmoved hsumF
          (axisBound_of_exact hexactF hfar.2.2.2.1)
        exact .node h hc hself hguard (hmoved.worst_anti hk (hdone.axis _)) hvisitsN
          (ih hfar.1 hfar.2.1 hfar.2.2.1 hfar.2.2.2.1 hfar.2.2.2.2 _ hmoved hsumF hexactF hclose)
      · rw [if_neg hclose, if_neg hclose]
        refine .node h hc hself hguard le_rfl hvisitsN
          ⟨⟨List.nodup_nil, by simp, by simp, fun i hi => ?_⟩, trivial, _, List.Perm.refl _⟩
        -- the far region is at least as far off as its distances add up to
        have hlt := (exists_mem_iff hexactF).mp hi.exists_mem
        rw [← hsumF] at hlt
        exact absurd hlt hclose

omit [IsStrictOrderedRing K] in
theorem farBox_beyond {x : Point Dim K} {dim : Fin Dim} {split : K}
    (hx : (farBox query dim split b).Mem x) : Beyond (query dim) split (x dim) := by
  unfold farBox at hx
  split_ifs at hx with hside
  · exact .inl ⟨hside, (BBox.mem_right_iff.mp hx).2⟩
  · exact .inr ⟨hside, (BBox.mem_left_iff.mp hx).2⟩

theorem mem_collectVisits {t : Tree Dim K} (h : t.Rep p) (fit : p.Fit) {sqRadius : K} (fuel : ℕ)
    (hfuel : t.height < fuel) (hm : Meets p query sqRadius t.id b j) :
    j ∈ collectVisits p query sqRadius fuel t.id := by
  induction fuel generalizing t b with
  | zero => omega
  | succ fuel ih =>
    have hid := h.id_valid fit
    cases t with
    | leaf id live total offset cap bboxIdx es bbox =>
      rw [Tree.id_leaf] at hid hm ⊢
      simp only [collectVisits, hid, ↓reduceIte, h.leaf_body, List.mem_singleton]
      exact ((meets_leaf h).mp hm).1
    | node id live total dim split left right =>
      simp only [Tree.height] at hfuel
      obtain ⟨hnear, hfar⟩ := near_far query dim split
        (P := fun u => u.Rep p ∧ u.height < fuel) ⟨h.left, by omega⟩ ⟨h.right, by omega⟩
      rw [Tree.id_node] at hid hm ⊢
      simp only [collectVisits, hid, ↓reduceIte, h.node_body, nearOf_id dim split left right,
        farOf_id dim split left right, List.mem_cons, List.mem_append]
      rcases (meets_node h).mp hm with hself | hm | hm
      · exact .inl hself.1
      · exact .inr (.inl (ih hnear.1 hnear.2 hm))
      · obtain ⟨x, hx, hlt⟩ := hm.exists_mem
        have hclose : (query dim - split) * (query dim - split) < sqRadius :=
          ((farBox_beyond hx).axis_le.trans (Point.axis_le_sqDist x query dim)).trans_lt
            (WithTop.coe_lt_coe.mp hlt)
        rw [if_pos hclose]
        exact .inr (.inr (ih hfar.1 hfar.2 hm))

end
end SearchKernel

namespace KDTreeImpl
variable {Dim : ℕ} [NeZero Dim] {K : Type*} [Field K] [LinearOrder K] [IsStrictOrderedRing K]
variable {env : Env K} {cfg : Config K} {s : KDTreeImpl Dim K}

omit [NeZero Dim] [IsStrictOrderedRing K] in
theorem Nearest.length_le {points : PointStore Dim K} {query : Point Dim K} {k : ℕ∞}
    {bound : WithTop K} {result : List (Neighbor Dim K)} (h : Nearest points query k bound result) :
    result.length ≤ points.liveSlots.length := by
  have hle : (result.length : ℕ∞) ≤ (within points query bound points.liveSlots).length :=
    h.length.trans_le (min_le_right _ _)
  exact (Nat.cast_le.mp hle).trans (List.length_filter_le _ _)

theorem Reachable.descent (hB : 2 * cfg.leafBucketSize ≤ 65535) (h : Reachable env cfg s)
    (hroot : s.root ≠ invalid) (query : Point Dim K) {k : ℕ} (hk : 0 < k) {bound : WithTop K}
    (hpos : 0 < bound) :
    ∃ t : Tree Dim K, Sound s (some t) ∧
      Descent s.pools s.points query k bound t BBox.space []
        (descend env.std s.pools s.points query k s.pools.nodes.length t.id 0
          ⟨[], bound, fun _ => 0⟩).worst
        (searchCalls env.std s.pools s.points s.root query k bound) ∧
      ∀ c ∈ searchCalls env.std s.pools s.points s.root query k bound,
        c.Exact ∧ Located s.pools s.points query t BBox.space c := by
  obtain ⟨o, hs, hp⟩ := h.parted hB
  cases o with
  | none => exact absurd hs.reads.root hroot
  | some t =>
    have holds : Holds s t := hs.reads
    have hreg : t.Regular BBox.space := Tree.Regular.mono hp (BBox.space_covers _)
    have huniv : {x : Point Dim K | (BBox.space : BBox Dim K).Mem x} = Set.univ :=
      Set.eq_univ_of_forall BBox.mem_space
    have hexact : AxisExact query {x : Point Dim K | (BBox.space : BBox Dim K).Mem x} (fun _ => 0) :=
      huniv ▸ AxisExact.univ query
    rw [searchCalls, if_neg (not_or.mpr ⟨hroot, hk.ne'⟩), ← holds.root]
    exact ⟨t, hs,
      descendCalls_descent hk holds.rep hs.noWrap.pools hreg holds.placed
        (fun i _ => BBox.mem_space _) _ holds.height_lt 0 (Kept.start k hk bound (fun _ => 0))
        (by simp) hexact hpos,
      descendCalls_located holds.rep hs.noWrap.pools hreg holds.placed
        (fun i _ => BBox.mem_space _) _ holds.height_lt 0 _ (by simp) hexact⟩

omit [NeZero Dim] in
theorem Sound.lt_worst {t : Tree Dim K} (h : Sound s (some t)) (query : Point Dim K) {k : ℕ}
    (hk : 0 < k) {bound : WithTop K} {d : K} (hd : (d : WithTop K) < bound)
    (hfound : (SearchKernel.search env.std s.pools s.points s.root query k bound).length = k →
      ∃ n ∈ SearchKernel.search env.std s.pools s.points s.root query k bound, d < n.sqDist) :
    (d : WithTop K) < (descend env.std s.pools s.points query k s.pools.nodes.length t.id 0
      ⟨[], bound, fun _ => 0⟩).worst := by
  have holds : Holds s t := h.reads
  have hkept := descend_kept env.std hk holds.rep h.noWrap.pools holds.placed s.pools.nodes.length
    holds.height_lt 0 (Kept.start k hk bound (fun _ => 0)) (by simp)
    (fun _ _ _ => mul_self_nonneg _ : AxisBound s.points query (fun _ => 0) t)
  rw [SearchKernel.search, if_neg (not_or.mpr ⟨holds.root_valid h.noWrap, hk.ne'⟩), ← holds.root,
    List.length_map, (env.std.sort_perm _).length_eq] at hfound
  rcases hkept.length_le.lt_or_eq with hlt | hfull
  · rw [hkept.open_worst hlt]
    exact hd
  · obtain ⟨n, hn, hlt⟩ := hfound hfull
    obtain ⟨e, he, rfl⟩ := List.mem_map.mp hn
    exact (WithTop.coe_lt_coe.mpr hlt).trans_le
      (hkept.le_worst hfull e ((env.std.sort_perm _).mem_iff.mp he))

/-- A search for `k` points comes to a node once, while fewer than `k` of the points it has scanned
are as near as some place of the region of the node, and it comes to every node whose region has a
place nearer than one of `k` points it reports, or within the radius when it reports fewer. -/
theorem search_visits (hB : 2 * cfg.leafBucketSize ≤ 65535) (h : Reachable env cfg s)
    (hroot : s.root ≠ invalid) (query : Point Dim K) {k : ℕ} (hk : 0 < k) {bound : WithTop K}
    (hpos : 0 < bound) :
    ((searchCalls env.std s.pools s.points s.root query k bound).map DescendCall.node).Nodup ∧
      (∀ pre c post, searchCalls env.std s.pools s.points s.root query k bound = pre ++ c :: post →
        ∃ region, s.pools.Cut s.root Set.univ c.node region ∧ ∃ x ∈ region,
          (x.sqDist query : WithTop K) < bound ∧
            ((scannedBy s.pools s.points pre).countP (fun i =>
              decide ((s.points.point i).sqDist query ≤ x.sqDist query))) < k) ∧
      ∀ i region, s.pools.Cut s.root Set.univ i region → ∀ x ∈ region,
        (x.sqDist query : WithTop K) < bound →
          ((SearchKernel.search env.std s.pools s.points s.root query k bound).length = k →
            ∃ n ∈ SearchKernel.search env.std s.pools s.points s.root query k bound,
              x.sqDist query < n.sqDist) →
          i ∈ (searchCalls env.std s.pools s.points s.root query k bound).map DescendCall.node := by
  obtain ⟨t, hs, hdescent, hlocated⟩ := h.descent hB hroot query hk hpos
  have holds : Holds s t := hs.reads
  have huniv : {x : Point Dim K | (BBox.space : BBox Dim K).Mem x} = Set.univ :=
    Set.eq_univ_of_forall BBox.mem_space
  refine ⟨hdescent.visits.nodup, fun pre c post hcalls => ?_, fun i region hcut x hx hlt hfound => ?_⟩
  · obtain ⟨hcexact, d, u, b, -, -, hcut, haxis, -⟩ := hlocated c (by rw [hcalls]; simp)
    rw [huniv, holds.root] at hcut
    obtain ⟨x, hx, hdist⟩ := exists_at_sum haxis
    rw [← hcexact.sum] at hdist
    have hguarded := hdescent.guarded
    rw [hcalls] at hguarded
    obtain ⟨hbound, hcount⟩ := hguarded.before
    rw [List.append_nil, candidates_countP hbound] at hcount
    rw [← hdist] at hbound hcount
    exact ⟨_, hcut, x, hx, hbound, hcount⟩
  · refine hdescent.visits.all i ⟨region, ?_, x, hx, hs.lt_worst query hk hlt hfound⟩
    rw [huniv, holds.root]
    exact hcut

theorem search_visits_row :
    (searchCalls wordEnv.std rowRun.pools rowRun.points rowRun.root ![5, 1] 1 ⊤).length = 4 ∧
      ∀ pre c post,
        searchCalls wordEnv.std rowRun.pools rowRun.points rowRun.root ![5, 1] 1 ⊤ =
            pre ++ c :: post →
          ∃ region, rowRun.pools.Cut rowRun.root Set.univ c.node region ∧ ∃ x ∈ region,
            (x.sqDist ![5, 1] : WithTop ℚ) < ⊤ ∧
              ((scannedBy rowRun.pools rowRun.points pre).countP (fun i =>
                decide ((rowRun.points.point i).sqDist ![5, 1] ≤ x.sqDist ![5, 1]))) < 1 :=
  ⟨by decide +kernel, (search_visits (by decide)
    (reachable_run (plane_accepted (by decide) (by norm_num)) (by decide +kernel)) (by decide +kernel)
    ![5, 1] (by decide) (by decide)).2.1⟩

def radiusVisits (env : Env K) (s : KDTreeImpl Dim K) (query : Point Dim K) (r : K) : List ℕ :=
  (searchCalls env.std s.pools s.points s.root query sizeMax ((r * r : K) : WithTop K)).map
    DescendCall.node

/-- A radius search comes to the nodes whose region meets the open ball, each once, and to no
other. The descent of `collect_indices_within` comes to all of these as well. -/
theorem radius_visits (hB : 2 * cfg.leafBucketSize ≤ 65535) (h : Reachable env cfg s)
    (hroot : s.root ≠ invalid) (query : Point Dim K) {r : K} (hr : r ≠ 0) :
    (radiusVisits env s query r).Nodup ∧
      (∀ i, i ∈ radiusVisits env s query r ↔ ∃ region, s.pools.Cut s.root Set.univ i region ∧
        ∃ x ∈ region, x.sqDist query < r * r) ∧
      ∀ i ∈ radiusVisits env s query r,
        i ∈ collectVisits s.pools query (r * r) s.pools.nodes.length s.root := by
  have hpos : (0 : WithTop K) < ((r * r : K) : WithTop K) :=
    WithTop.coe_lt_coe.mpr (mul_self_pos.mpr hr)
  have hk : 0 < sizeMax := by decide
  obtain ⟨t, hs, hdescent, -⟩ := h.descent hB hroot query hk hpos
  have holds : Holds s t := hs.reads
  have huniv : {x : Point Dim K | (BBox.space : BBox Dim K).Mem x} = Set.univ :=
    Set.eq_univ_of_forall BBox.mem_space
  have hshort : (SearchKernel.search env.std s.pools s.points s.root query sizeMax
      ((r * r : K) : WithTop K)).length ≠ sizeMax :=
    ((hs.search_nearest env.std query sizeMax _).length_le.trans_lt
      (liveSlots_length_lt hs.noWrap)).ne
  have hmem : ∀ i, i ∈ radiusVisits env s query r ↔
      Meets s.pools query ((r * r : K) : WithTop K) t.id BBox.space i := by
    refine fun i => ⟨hdescent.visits.meets i, fun hi => ?_⟩
    obtain ⟨region, hcut, x, hx, hlt⟩ := hi
    exact hdescent.visits.all i
      ⟨region, hcut, x, hx, hs.lt_worst query hk hlt (fun heq => absurd heq hshort)⟩
  refine ⟨hdescent.visits.nodup, fun i => ?_, fun i hi => ?_⟩
  · rw [hmem, Meets, huniv, holds.root]
    simp only [WithTop.coe_lt_coe]
  · rw [← holds.root]
    exact mem_collectVisits holds.rep hs.noWrap.pools _ holds.height_lt ((hmem i).mp hi)

theorem radius_visits_row :
    (radiusVisits wordEnv rowRun ![5, 1] 3).length = 4 ∧
      ∀ i ∈ radiusVisits wordEnv rowRun ![5, 1] 3,
        i ∈ collectVisits rowRun.pools ![5, 1] (3 * 3) rowRun.pools.nodes.length rowRun.root :=
  ⟨by decide +kernel, (radius_visits (by decide)
    (reachable_run (plane_accepted (by decide) (by norm_num)) (by decide +kernel)) (by decide +kernel)
    ![5, 1] (by norm_num)).2.2⟩

end KDTreeImpl
end Copse
