import Copse.KDTreeNet
import Copse.ScopedSweep
import Copse.SearchAgreement

set_option autoImplicit false

/-!
# The structure viewer

`structure_viz.cpp` walks the node pool and draws the live points, coloured by
leaf, with a wireframe around those of each leaf. Its cells cut the cloud up:
each fits its own points, and any two lie on different sides of a plane.
-/
namespace Copse
open PointStore PointQueue SearchKernel SwapQueue TransitionRuns

namespace StructureViz

/-- The lower and the upper corner of a leaf cell. -/
abbrev Cell (K : Type*) := Point 3 K × Point 3 K

structure Snapshot (K : Type*) where
  points : List (Point 3 K)
  pointLeaf : List ℕ
  cellNodes : List (Point 3 K)
  cellEdges : List (ℕ × ℕ)

section
variable {K : Type*}

def corner (c : Cell K) (n : ℕ) : Point 3 K := fun axis =>
  if n.testBit axis then c.2 axis else c.1 axis

def edges : List (ℕ × ℕ) :=
  [(0, 1), (0, 2), (0, 4), (1, 3), (1, 5), (2, 3), (2, 6), (3, 7), (4, 5), (4, 6), (5, 7), (6, 7)]

def addCell (snap : Snapshot K) (c : Cell K) : Snapshot K :=
  let base := snap.cellNodes.length
  { snap with
    cellNodes := snap.cellNodes ++ (List.range 8).map (corner c)
    cellEdges := snap.cellEdges ++ edges.map (fun e => (base + e.1, base + e.2)) }

variable [Field K] [LinearOrder K]

def stretch (cell : Option (Cell K)) (point : Point 3 K) : Cell K :=
  match cell with
  | none => (point, point)
  | some c => (fun axis => min (c.1 axis) (point axis), fun axis => max (c.2 axis) (point axis))

/-- The scan of a leaf; the cell is absent until a live point has been seen. -/
def walkEntries (points : PointStore 3 K) (leafId : ℕ) :
    List BucketEntry → Option (Cell K) × Snapshot K → Option (Cell K) × Snapshot K
  | [], acc => acc
  | e :: es, (cell, snap) =>
    if !points.valid e then walkEntries points leafId es (cell, snap)
    else
      let point := points.point e.index
      walkEntries points leafId es
        (some (stretch cell point),
          { snap with
            points := snap.points ++ [point]
            pointLeaf := snap.pointLeaf ++ [leafId] })

def walk (p : Pools 3 K) (points : PointStore 3 K) : ℕ → ℕ → ℕ × Snapshot K → ℕ × Snapshot K
  | 0, _, acc => acc
  | fuel + 1, nodeIdx, (leafCounter, snap) =>
    if nodeIdx = invalid then (leafCounter, snap)
    else
      match (p.node nodeIdx).body with
      | .leaf offset size _ _ =>
        let r := walkEntries points leafCounter (p.view offset size) (none, snap)
        -- a leaf without live points draws no cell
        (leafCounter + 1, match r.1 with
          | some cell => addCell r.2 cell
          | none => r.2)
      | .internal _ _ left right =>
        walk p points fuel right (walk p points fuel left (leafCounter, snap))

def snapshot (s : KDTreeImpl 3 K) : Snapshot K :=
  (walk s.pools s.points s.pools.nodes.length s.root (0, ⟨[], [], [], []⟩)).2

/-- The live points in the bucket of a leaf. -/
def livePoints (p : Pools 3 K) (points : PointStore 3 K) (nodeIdx : ℕ) : List (Point 3 K) :=
  match (p.node nodeIdx).body with
  | .leaf offset size _ _ =>
    (((p.view offset size).filter points.valid).map BucketEntry.index).map points.point
  | .internal .. => []

/-- Somewhere below the root, `i` is on the left side and `j` on the right. -/
def LeftOf (p : Pools 3 K) (root i j : ℕ) : Prop :=
  ∃ d k dim split left right, p.Below root d k ∧ (p.node k).body = .internal dim split left right ∧
    (∃ e, p.Below left e i) ∧ ∃ e, p.Below right e j

/-- The leaves below the root, from left to right. -/
structure LeafOrder (p : Pools 3 K) (root : ℕ) (leaves : List ℕ) : Prop where
  mem : ∀ i, i ∈ leaves ↔ (∃ d, p.Below root d i) ∧ (p.node i).isLeaf = true
  nodup : leaves.Nodup
  order : leaves.Pairwise (LeftOf p root)

end

section
variable {K : Type*} [Field K] [LinearOrder K]

/-- The cell around the live points of a leaf. -/
def hull (group : List (Point 3 K)) : Option (Cell K) :=
  group.foldl (fun cell point => some (stretch cell point)) none

def drawLeaf (leafId : ℕ) (group : List (Point 3 K)) (snap : Snapshot K) : Snapshot K :=
  let snap :=
    { snap with
      points := snap.points ++ group
      pointLeaf := snap.pointLeaf ++ List.replicate group.length leafId }
  match hull group with
  | some cell => addCell snap cell
  | none => snap

def drawAll : ℕ → List (List (Point 3 K)) → Snapshot K → Snapshot K
  | _, [], snap => snap
  | leafId, group :: groups, snap => drawAll (leafId + 1) groups (drawLeaf leafId group snap)

/-- The live points of each leaf, from left to right. -/
def groupsOf (points : PointStore 3 K) : Tree 3 K → List (List (Point 3 K))
  | t@(.leaf ..) => [(t.validIn points).map points.point]
  | .node _ _ _ _ _ left right => groupsOf points left ++ groupsOf points right

def leafNodes : Tree 3 K → List ℕ
  | .leaf id .. => [id]
  | .node _ _ _ _ _ left right => leafNodes left ++ leafNodes right

def leafIds : ℕ → List (List (Point 3 K)) → List ℕ
  | _, [] => []
  | leafId, group :: groups => List.replicate group.length leafId ++ leafIds (leafId + 1) groups

/-- Both corners touch the points on every axis. -/
def Tight (group : List (Point 3 K)) (c : Cell K) : Prop :=
  ∀ axis, IsLeast {a | ∃ x ∈ group, x axis = a} (c.1 axis) ∧
    IsGreatest {a | ∃ x ∈ group, x axis = a} (c.2 axis)

/-- The first cell ends on some axis no later than the second begins. -/
def Apart (c c' : Cell K) : Prop := ∃ axis, c.2 axis ≤ c'.1 axis

def Wired (nodes : List (Point 3 K)) (e : ℕ × ℕ) : Prop :=
  ∃ x y, nodes[e.1]? = some x ∧ nodes[e.2]? = some y ∧ ∃ axis, ∀ i, i ≠ axis → x i = y i

variable {points : PointStore 3 K} {snap : Snapshot K} {group : List (Point 3 K)} {c : Cell K}
variable {groups groups' : List (List (Point 3 K))} {p : Pools 3 K}

theorem walkEntries_eq (leafId : ℕ) (es : List BucketEntry) (cell : Option (Cell K)) :
    walkEntries points leafId es (cell, snap) =
      ((((es.filter points.valid).map BucketEntry.index).map points.point).foldl
          (fun cell point => some (stretch cell point)) cell,
        { snap with
          points := snap.points ++ ((es.filter points.valid).map BucketEntry.index).map points.point
          pointLeaf := snap.pointLeaf ++ List.replicate
            (((es.filter points.valid).map BucketEntry.index).map points.point).length leafId }) := by
  induction es generalizing cell snap with
  | nil => simp [walkEntries]
  | cons e es ih =>
    rw [walkEntries]
    cases he : points.valid e with
    | false =>
      rw [List.filter_cons_of_neg (by rw [he]; exact Bool.false_ne_true)]
      exact ih cell
    | true =>
      rw [List.filter_cons_of_pos he]
      simp only [Bool.not_true, Bool.false_eq_true, ↓reduceIte, ih, List.map_cons, List.foldl_cons,
        List.append_assoc, List.singleton_append, List.length_cons, List.replicate_succ]

omit [Field K] in
theorem drawAll_append (n : ℕ) (snap : Snapshot K) :
    drawAll n (groups ++ groups') snap =
      drawAll (n + groups.length) groups' (drawAll n groups snap) := by
  induction groups generalizing n snap with
  | nil => rfl
  | cons group groups ih =>
    rw [List.cons_append, drawAll, drawAll, ih, List.length_cons]
    congr 1
    omega

/-- The walk draws the leaves of the tree from left to right. -/
theorem walk_eq {t : Tree 3 K} (h : t.Rep p) (fit : p.Fit) (fuel : ℕ) (hfuel : t.height < fuel)
    (n : ℕ) (snap : Snapshot K) :
    walk p points fuel t.id (n, snap) =
      (n + (groupsOf points t).length, drawAll n (groupsOf points t) snap) := by
  induction fuel generalizing t n snap with
  | zero => omega
  | succ fuel ih =>
    have hid := h.id_valid fit
    cases t with
    | leaf id live total offset cap bboxIdx es bbox =>
      rw [Tree.id_leaf] at hid ⊢
      rw [walk, if_neg hid, h.leaf_body]
      dsimp only
      rw [h.view_eq, walkEntries_eq, groupsOf, drawAll, drawAll, drawLeaf, hull, Tree.validIn_leaf]
      rfl
    | node id live total dim split left right =>
      simp only [Tree.height] at hfuel
      rw [Tree.id_node] at hid ⊢
      rw [walk, if_neg hid, h.node_body]
      dsimp only
      rw [ih h.left (by omega), ih h.right (by omega), groupsOf, drawAll_append, List.length_append,
        Nat.add_assoc]

section
omit [Field K]

theorem tight_stretch {x : Point 3 K} (h : Tight group c) :
    Tight (group ++ [x]) (stretch (some c) x) := by
  intro axis
  have hset : {a | ∃ y ∈ group ++ [x], y axis = a} =
      insert (x axis) {a | ∃ y ∈ group, y axis = a} := by
    ext a
    constructor
    · rintro ⟨y, hy, rfl⟩
      rcases List.mem_append.mp hy with hy | hy
      · exact .inr ⟨y, hy, rfl⟩
      · exact .inl (congrFun (List.mem_singleton.mp hy) axis)
    · rintro (rfl | ⟨y, hy, rfl⟩)
      · exact ⟨x, List.mem_append_right _ List.mem_cons_self, rfl⟩
      · exact ⟨y, List.mem_append_left _ hy, rfl⟩
  rw [hset]
  have hleast := (h axis).1.insert (x axis)
  have hgreatest := (h axis).2.insert (x axis)
  rw [min_comm] at hleast
  rw [max_comm] at hgreatest
  exact ⟨hleast, hgreatest⟩

theorem hull_tight (hne : group ≠ []) : ∃ c, hull group = some c ∧ Tight group c := by
  induction group using List.reverseRecOn with
  | nil => exact absurd rfl hne
  | append_singleton group x ih =>
    rw [hull, List.foldl_append, ← hull]
    refine ⟨_, rfl, ?_⟩
    rcases eq_or_ne group [] with rfl | hgroup
    · have hset : ∀ axis, {a | ∃ y ∈ [x], y axis = a} = {x axis} := by
        intro axis
        ext a
        simp only [List.mem_singleton, exists_eq_left]
        exact eq_comm
      intro axis
      rw [List.nil_append, hset]
      exact ⟨isLeast_singleton, isGreatest_singleton⟩
    · obtain ⟨c, hc, htight⟩ := ih hgroup
      rw [hc]
      exact tight_stretch htight

omit [LinearOrder K] in
theorem Wired.append {nodes more : List (Point 3 K)} {e : ℕ × ℕ} (h : Wired nodes e) :
    Wired (nodes ++ more) e := by
  obtain ⟨x, y, hx, hy, haxis⟩ := h
  exact ⟨x, y, List.getElem?_append_left (List.getElem?_eq_some_iff.mp hx).1 ▸ hx,
    List.getElem?_append_left (List.getElem?_eq_some_iff.mp hy).1 ▸ hy, haxis⟩

omit [LinearOrder K] in
theorem addCell_wired (h : ∀ e ∈ snap.cellEdges, Wired snap.cellNodes e) (c : Cell K) :
    ∀ e ∈ (addCell snap c).cellEdges, Wired (addCell snap c).cellNodes e := by
  intro e he
  rcases List.mem_append.mp he with he | he
  · exact (h e he).append
  · obtain ⟨e', he', rfl⟩ := List.mem_map.mp he
    have hcorner : ∀ n, n < 8 →
        (addCell snap c).cellNodes[snap.cellNodes.length + n]? = some (corner c n) := by
      intro n hn
      rw [addCell, List.getElem?_append_right (Nat.le_add_right _ _), Nat.add_sub_cancel_left,
        List.getElem?_map, List.getElem?_range hn, Option.map_some]
    have hedge : ∀ e ∈ edges, e.1 < 8 ∧ e.2 < 8 ∧
        ∃ axis : Fin 3, ∀ i : Fin 3, i ≠ axis → e.1.testBit i = e.2.testBit i := by
      decide
    obtain ⟨h₁, h₂, axis, haxis⟩ := hedge e' he'
    refine ⟨_, _, hcorner _ h₁, hcorner _ h₂, axis, fun i hi => ?_⟩
    rw [corner, corner, haxis i hi]

theorem drawAll_spec (groups : List (List (Point 3 K))) (n : ℕ) (snap : Snapshot K) :
    (drawAll n groups snap).points = snap.points ++ groups.flatten ∧
      (drawAll n groups snap).pointLeaf = snap.pointLeaf ++ leafIds n groups ∧
      (∃ cells, List.Forall₂ Tight (groups.filter (fun group => !group.isEmpty)) cells ∧
        (drawAll n groups snap).cellNodes =
          snap.cellNodes ++ cells.flatMap (fun c => (List.range 8).map (corner c))) ∧
      ((∀ e ∈ snap.cellEdges, Wired snap.cellNodes e) →
        ∀ e ∈ (drawAll n groups snap).cellEdges, Wired (drawAll n groups snap).cellNodes e) := by
  induction groups generalizing n snap with
  | nil => exact ⟨by simp [drawAll], by simp [drawAll, leafIds], ⟨[], .nil, by simp [drawAll]⟩, id⟩
  | cons group groups ih =>
    obtain ⟨hpoints, hleaf, ⟨cells, hcells, hnodes⟩, hwired⟩ := ih (n + 1) (drawLeaf n group snap)
    rw [drawAll, List.flatten_cons, leafIds, ← List.append_assoc, ← List.append_assoc]
    rcases eq_or_ne group [] with rfl | hne
    · have hnone : drawLeaf n [] snap = snap := by
        simp [drawLeaf, hull]
      rw [hnone] at hpoints hleaf hnodes hwired ⊢
      rw [List.append_nil, List.length_nil, List.replicate_zero, List.append_nil]
      exact ⟨hpoints, hleaf, ⟨cells, hcells, hnodes⟩, hwired⟩
    · obtain ⟨c, hc, htight⟩ := hull_tight hne
      have hdraw : drawLeaf n group snap = addCell
          { snap with
            points := snap.points ++ group
            pointLeaf := snap.pointLeaf ++ List.replicate group.length n } c := by
        rw [drawLeaf, hc]
      have hfull : (!group.isEmpty) = true := by
        rw [Bool.not_eq_true', List.isEmpty_eq_false_iff]
        exact hne
      rw [hdraw] at hpoints hleaf hnodes hwired ⊢
      refine ⟨hpoints, hleaf, ⟨c :: cells, ?_, ?_⟩, fun h => hwired (addCell_wired h c)⟩
      · rw [List.filter_cons, if_pos hfull]
        exact .cons htight hcells
      · rw [hnodes, List.flatMap_cons, ← List.append_assoc]
        rfl

end

section
omit [LinearOrder K]

theorem groupsOf_flatten (t : Tree 3 K) :
    (groupsOf points t).flatten = (t.validIn points).map points.point := by
  induction t with
  | leaf => rw [groupsOf, List.flatten_singleton]
  | node id live total dim split left right ihl ihr =>
    rw [groupsOf, List.flatten_append, ihl, ihr, Tree.validIn_node, List.map_append]

omit [Field K] in
theorem LeftOf.lift {i j root a : ℕ} {d : ℕ} (h : LeftOf p a i j) (ha : p.Below root d a) :
    LeftOf p root i j := by
  obtain ⟨e, k, dim, split, left, right, hk, hbody, hsides⟩ := h
  exact ⟨d + e, k, dim, split, left, right, ha.trans hk, hbody, hsides⟩

theorem mem_leafNodes {t : Tree 3 K} (h : t.Rep p) {i : ℕ} :
    i ∈ leafNodes t ↔ (∃ d, p.Below t.id d i) ∧ (p.node i).isLeaf = true := by
  induction t with
  | leaf id live total offset cap bboxIdx es bbox =>
    rw [leafNodes, List.mem_singleton]
    constructor
    · rintro rfl
      exact ⟨⟨0, .refl i⟩, by rw [TreeNode.isLeaf, h.leaf_body]⟩
    · rintro ⟨⟨d, hb⟩, -⟩
      obtain ⟨u, hs, rfl⟩ := h.below_iff.mp hb
      cases hs
      rfl
  | node id live total dim split left right ihl ihr =>
    rw [leafNodes, List.mem_append, ihl h.left, ihr h.right]
    constructor
    · rintro (⟨⟨d, hb⟩, hleaf⟩ | ⟨⟨d, hb⟩, hleaf⟩)
      · exact ⟨⟨_, .left h.node_body hb⟩, hleaf⟩
      · exact ⟨⟨_, .right h.node_body hb⟩, hleaf⟩
    · rintro ⟨⟨d, hb⟩, hleaf⟩
      obtain ⟨u, hs, rfl⟩ := h.below_iff.mp hb
      cases hs with
      | refl =>
        rw [Tree.id_node, TreeNode.isLeaf, h.node_body] at hleaf
        cases hleaf
      | left _ _ _ _ _ hs => exact .inl ⟨⟨_, h.left.below_iff.mpr ⟨u, hs, rfl⟩⟩, hleaf⟩
      | right _ _ _ _ _ hs => exact .inr ⟨⟨_, h.right.below_iff.mpr ⟨u, hs, rfl⟩⟩, hleaf⟩

theorem leafNodes_nodup {t : Tree 3 K} (h : t.Rep p) : (leafNodes t).Nodup := by
  induction t with
  | leaf id => exact List.nodup_singleton id
  | node id live total dim split left right ihl ihr =>
    refine List.nodup_append.mpr ⟨ihl h.left, ihr h.right, fun i hi j hj hij => ?_⟩
    obtain ⟨⟨d, hbl⟩, -⟩ := (mem_leafNodes h.left).mp hi
    obtain ⟨⟨e, hbr⟩, -⟩ := (mem_leafNodes h.right).mp hj
    exact TreeBuilder.not_below_both h hbl (hij ▸ hbr)

theorem leafNodes_pairwise {t : Tree 3 K} (h : t.Rep p) :
    (leafNodes t).Pairwise (LeftOf p t.id) := by
  induction t with
  | leaf => exact List.pairwise_singleton _ _
  | node id live total dim split left right ihl ihr =>
    refine List.pairwise_append.mpr ⟨?_, ?_, fun i hi j hj => ?_⟩
    · exact (ihl h.left).imp (fun hij => hij.lift (.left h.node_body (.refl _)))
    · exact (ihr h.right).imp (fun hij => hij.lift (.right h.node_body (.refl _)))
    · exact ⟨0, id, dim, split, left.id, right.id, .refl id, h.node_body,
        ((mem_leafNodes h.left).mp hi).1, ((mem_leafNodes h.right).mp hj).1⟩

theorem groupsOf_eq {t : Tree 3 K} (h : t.Rep p) :
    groupsOf points t = (leafNodes t).map (livePoints p points) := by
  induction t with
  | leaf id live total offset cap bboxIdx es bbox =>
    rw [groupsOf, leafNodes, List.map_singleton, livePoints, h.leaf_body]
    dsimp only
    rw [h.view_eq, Tree.validIn_leaf]
  | node id live total dim split left right ihl ihr =>
    rw [groupsOf, leafNodes, List.map_append, ihl h.left, ihr h.right]

end

/-- The split of the last common ancestor lies between two leaves. -/
theorem groupsOf_pairwise {t : Tree 3 K} (h : t.Placed points) :
    (groupsOf points t).Pairwise (fun group group' => ∃ axis split,
      (∀ x ∈ group, x axis ≤ split) ∧ ∀ x ∈ group', split ≤ x axis) := by
  induction t with
  | leaf => exact List.pairwise_singleton _ _
  | node id live total dim split left right ihl ihr =>
    obtain ⟨hleft, hright, hl, hr⟩ := h
    rw [groupsOf, List.pairwise_append]
    refine ⟨ihl hl, ihr hr, fun group hgroup group' hgroup' => ⟨dim, split, fun x hx => ?_, fun x hx => ?_⟩⟩
    · have hmem := List.mem_flatten_of_mem hgroup hx
      rw [groupsOf_flatten] at hmem
      obtain ⟨i, hi, rfl⟩ := List.mem_map.mp hmem
      exact hleft i hi
    · have hmem := List.mem_flatten_of_mem hgroup' hx
      rw [groupsOf_flatten] at hmem
      obtain ⟨i, hi, rfl⟩ := List.mem_map.mp hmem
      exact hright i hi

omit [Field K]

theorem exists_tight {cells : List (Cell K)} (h : List.Forall₂ Tight groups cells) (hc : c ∈ cells) :
    ∃ group ∈ groups, Tight group c := by
  induction h with
  | nil => exact absurd hc List.not_mem_nil
  | cons htight _ ih =>
    rcases List.mem_cons.mp hc with rfl | hc
    · exact ⟨_, List.mem_cons_self, htight⟩
    · obtain ⟨group, hgroup, htight'⟩ := ih hc
      exact ⟨group, List.mem_cons_of_mem _ hgroup, htight'⟩

theorem apart_of_tight {cells : List (Cell K)} (h : List.Forall₂ Tight groups cells)
    (hpair : groups.Pairwise (fun group group' => ∃ axis split,
      (∀ x ∈ group, x axis ≤ split) ∧ ∀ x ∈ group', split ≤ x axis)) : cells.Pairwise Apart := by
  induction h with
  | nil => exact .nil
  | @cons group c groups cells htight hall ih =>
    obtain ⟨hfirst, hrest⟩ := List.pairwise_cons.mp hpair
    refine List.pairwise_cons.mpr ⟨fun c' hc' => ?_, ih hrest⟩
    obtain ⟨group', hgroup', htight'⟩ := exists_tight hall hc'
    obtain ⟨axis, split, hle, hge⟩ := hfirst group' hgroup'
    obtain ⟨x, hx, heq⟩ := (htight axis).2.1
    obtain ⟨y, hy, heq'⟩ := (htight' axis).1.1
    exact ⟨axis, heq ▸ heq' ▸ (hle x hx).trans (hge y hy)⟩

end

section
variable {K : Type*} [Field K] [LinearOrder K]

/-- A drawing shows the leaves from left to right: the live points of each with its number, and
the cells around those that have any. -/
structure Drawing (s : KDTreeImpl 3 K) (leaves : List ℕ) (cells : List (Cell K)) : Prop where
  none : s.root = invalid → leaves = []
  order : s.root ≠ invalid → LeafOrder s.pools s.root leaves
  points : (snapshot s).points = leaves.flatMap (livePoints s.pools s.points)
  complete : (snapshot s).points.Perm s.points.coordinates
  pointLeaf : (snapshot s).pointLeaf = leafIds 0 (leaves.map (livePoints s.pools s.points))
  tight : List.Forall₂ (fun i c => Tight (livePoints s.pools s.points i) c)
    (leaves.filter (fun i => !(livePoints s.pools s.points i).isEmpty)) cells
  apart : cells.Pairwise Apart
  cellNodes : (snapshot s).cellNodes = cells.flatMap (fun c => (List.range 8).map (corner c))
  cellEdges : ∀ e ∈ (snapshot s).cellEdges, Wired (snapshot s).cellNodes e

theorem snapshot_drawing {s : KDTreeImpl 3 K} {o : Option (Tree 3 K)} (h : KDTreeImpl.Sound s o) :
    ∃ leaves cells, Drawing s leaves cells := by
  cases o with
  | none =>
    have hvacant : KDTreeImpl.Vacant s := h.reads
    have hempty : snapshot s = ⟨[], [], [], []⟩ := by
      rw [snapshot, hvacant.root]
      cases s.pools.nodes.length with
      | zero => rfl
      | succ n => rw [walk, if_pos rfl]
    have hnone : s.points.coordinates = [] := by
      rw [coordinates, liveSlots, List.filter_eq_nil_iff.mpr (by simp [hvacant.none]), List.map_nil]
    refine ⟨[], [], fun _ => rfl, fun hroot => absurd hvacant.root hroot, ?_, ?_, ?_, .nil, .nil,
      ?_, ?_⟩
    · rw [hempty, List.flatMap_nil]
    · rw [hempty, hnone]
    · rw [hempty, List.map_nil, leafIds]
    · rw [hempty, List.flatMap_nil]
    · rw [hempty]
      exact fun e he => absurd he List.not_mem_nil
  | some t =>
    have holds : KDTreeImpl.Holds s t := h.reads
    have hgroups : groupsOf s.points t = (leafNodes t).map (livePoints s.pools s.points) :=
      groupsOf_eq holds.rep
    have hwalk : snapshot s = drawAll 0 (groupsOf s.points t) ⟨[], [], [], []⟩ := by
      rw [snapshot, ← holds.root, walk_eq holds.rep h.noWrap.pools _ holds.height_lt]
    obtain ⟨hpoints, hleaf, ⟨cells, htight, hnodes⟩, hwired⟩ :=
      drawAll_spec (groupsOf s.points t) 0 ⟨[], [], [], []⟩
    rw [← hwalk] at hpoints hleaf hnodes hwired
    refine ⟨leafNodes t, cells, fun hroot => ?_, fun _ => ?_, ?_, ?_, ?_, ?_,
      ?_, hnodes, hwired (by simp)⟩
    · exact absurd (holds.root.trans hroot) (holds.rep.id_valid h.noWrap.pools)
    · rw [← holds.root]
      exact ⟨fun i => mem_leafNodes holds.rep, leafNodes_nodup holds.rep,
        leafNodes_pairwise holds.rep⟩
    · rw [hpoints, List.nil_append, hgroups]
      rfl
    · rw [hpoints, List.nil_append, groupsOf_flatten]
      exact (liveSlots_perm holds.nodup holds.complete).map s.points.point
    · rw [hleaf, hgroups]
      rfl
    · rw [hgroups, List.filter_map, List.forall₂_map_left_iff] at htight
      exact htight
    · exact apart_of_tight htight ((groupsOf_pairwise holds.placed).filter _)

end
end StructureViz

namespace KDTreeImpl
open StructureViz

/-- `live_cloud` of `public_viz.cpp`: enumerate the points by a search that is wide enough. -/
def liveCloud {Dim : ℕ} {K : Type*} [Field K] [LinearOrder K] (env : Env K) (s : KDTreeImpl Dim K)
    (center : Point Dim K) (radius : K) : List (Point Dim K) :=
  (s.radiusSearch env center radius).map Neighbor.coord

section
variable {K : Type*} [Field K] [LinearOrder K] [IsStrictOrderedRing K]
variable {env : Env K} {cfg : Config K} {s s' : KDTreeImpl 3 K} {q : List (Point 3 K)}

theorem liveCloud_perm {center : Point 3 K} {radius : K} (h : Queued cfg s q)
    (hin : ∀ x ∈ q, x.sqDist center < radius * radius) : (liveCloud env s center radius).Perm q := by
  have hsearch : NearestIn q center ⊤ ((radius * radius : K) : WithTop K)
      (s.radiusSearch env center radius) := (h.search env.std center).2 _
  obtain ⟨picked, hsub, hresult⟩ := hsearch.points
  have hall : q.filter (fun x => decide ((x.sqDist center : WithTop K) <
      ((radius * radius : K) : WithTop K))) = q :=
    List.filter_eq_self.mpr (fun x hx => decide_eq_true (WithTop.coe_lt_coe.mpr (hin x hx)))
  have hlen := hsearch.length
  rw [hall, min_eq_right le_top, hresult, List.length_map, Nat.cast_inj] at hlen
  have hcoord : liveCloud env s center radius = picked := by
    rw [liveCloud, hresult, List.map_map]
    exact List.map_id _
  rw [hcoord]
  exact hsub.perm_of_length_le hlen.ge

/-- What the structure viewer draws of a reachable tree: leaf by leaf from the left each live point
once, with the number of its leaf, and around the points of each leaf a cell that fits them. Of two
cells the one drawn first ends on some axis no later than the other begins, and each edge runs along
an axis. -/
theorem snapshot_cells (hB : 2 * cfg.leafBucketSize ≤ 65535) (h : Reachable env cfg s) :
    ∃ leaves cells, Drawing s leaves cells := by
  obtain ⟨o, hs⟩ := h.sound hB
  exact snapshot_drawing hs

/-- Both viewers show the same cloud as long as the insertions stay in a ball: the walk through the
nodes and a search as wide as the ball find the same points, as many as `size` says. -/
theorem viewers_agree (hB : 2 * cfg.leafBucketSize ≤ 65535) (hs : create cfg = .ok s)
    (hn : s.NoWrap) {l : List (Call 3 K × Answer 3 K)} (h : Trace (Answers env) s l s')
    {center : Point 3 K} {radius : K}
    (hin : StaysIn (fun x => x.sqDist center < radius * radius) l) :
    (liveCloud env s' center radius).Perm (snapshot s').points ∧
      (liveCloud env s' center radius).length = s'.size := by
  obtain ⟨q, hq, hqueued⟩ := exists_queue hB hs hn h
  have hcloud : (liveCloud env s' center radius).Perm q := by
    refine liveCloud_perm hqueued (fun x hx => ?_)
    obtain ⟨before, batch, n, after, rfl, hbatch, -⟩ := all_justified hq x hx
    exact hin (.update (.insert batch), .count n) (by simp) batch rfl x hbatch
  obtain ⟨o, hs'⟩ := hqueued.sound
  obtain ⟨leaves, cells, hdraw⟩ := snapshot_drawing hs'
  obtain ⟨window, free, hring, rfl⟩ := hqueued.ring
  have hlive : s'.points.coordinates.Perm (window.map s'.points.point) :=
    (liveSlots_perm hring.window_nodup hring.isLive_iff).symm.map s'.points.point
  refine ⟨hcloud.trans (hlive.symm.trans hdraw.complete.symm), ?_⟩
  rw [hcloud.length_eq, hqueued.size_eq]

end

def cloudCalls : List (Call 3 ℚ) :=
  [.update (.insert [![0, 0, 0], ![1, 0, 2], ![2, 1, 0], ![3, 3, 3]]), .update .rebuildAll,
    .update (.remove [![2, 1, 0]])]

def cloudRun : KDTreeImpl 3 ℚ :=
  run wordEnv (start (plane 5 (1 / 4)))
    [.insert [![0, 0, 0], ![1, 0, 2], ![2, 1, 0], ![3, 3, 3]], .rebuildAll, .remove [![2, 1, 0]]]

theorem snapshot_cells_cloud :
    (snapshot cloudRun).cellNodes.length = 24 ∧ ∃ leaves cells, Drawing cloudRun leaves cells :=
  ⟨by decide +kernel, snapshot_cells (by decide)
    (reachable_run (plane_accepted (by decide) (by norm_num)) (by decide +kernel))⟩

theorem viewers_agree_cloud :
    (liveCloud wordEnv (after wordEnv (start (plane 5 (1 / 4))) cloudCalls) ![1, 1, 1] 4).Perm
      (snapshot (after wordEnv (start (plane 5 (1 / 4))) cloudCalls)).points := by
  have hin : StaysIn (fun x => x.sqDist ![1, 1, 1] < 4 * 4)
      (replies wordEnv (start (plane 5 (1 / 4))) cloudCalls) := by
    refine staysIn_replies (fun batch hbatch x hx => ?_)
    simp only [cloudCalls, List.mem_cons, Call.update.injEq, Op.insert.injEq, reduceCtorEq,
      List.not_mem_nil, or_false] at hbatch
    subst hbatch
    simp only [List.mem_cons, List.not_mem_nil, or_false] at hx
    rcases hx with rfl | rfl | rfl | rfl <;> decide +kernel
  exact (viewers_agree (by decide) (create_start (plane_accepted (by decide) (by norm_num)))
    (noWrap_of_fits (by decide +kernel)) (replies_trace (by decide +kernel)) hin).1

end KDTreeImpl
end Copse
