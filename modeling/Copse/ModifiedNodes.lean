import Copse.KDTreePartition
import Copse.PoolGrowth

set_option autoImplicit false

/-!
# The recorded nodes

What a delete writes into `modified_nodes_`: a node whose live count changes is
recorded, with every node above it, or it is a leaf, or it lies below a node
whose subtree was released as a whole.
-/
namespace Copse
open TreeBuilder

namespace Counter

@[simp] theorem wrap_wrap (c : Counter) (z : ℤ) : c.wrap (c.wrap z) = c.wrap z := by
  have h := c.wrap_wrap_add z 0
  rwa [add_zero, add_zero] at h

end Counter

namespace Pools
variable {Dim : ℕ} {K : Type*} {c : Counter} {p p' q : Pools Dim K} {i j : ℕ}

/-- Every live count is one that the counter can hold. -/
def Canonical (c : Counter) (p : Pools Dim K) : Prop :=
  ∀ i, c.wrap (p.node i).subtreeLiveCount = (p.node i).subtreeLiveCount

/-- The same nodes up to their live counts. -/
def SameShape (p q : Pools Dim K) : Prop :=
  ∀ i, (q.node i).body = (p.node i).body ∧
    (q.node i).subtreeTotalCount = (p.node i).subtreeTotalCount

theorem SameShape.refl (p : Pools Dim K) : p.SameShape p := fun _ => ⟨rfl, rfl⟩

theorem SameShape.symm (h : p.SameShape q) : q.SameShape p :=
  fun i => ⟨(h i).1.symm, (h i).2.symm⟩

theorem SameShape.trans (h : p.SameShape q) (h' : q.SameShape p') : p.SameShape p' :=
  fun i => ⟨(h' i).1.trans (h i).1, (h' i).2.trans (h i).2⟩

theorem node_modifyNode (p : Pools Dim K) (i j : ℕ) (f : TreeNode Dim K → TreeNode Dim K) :
    (p.modifyNode i f).node j = if i = j ∧ i < p.nodes.length then f (p.node i) else p.node j :=
  node_setNode p i j _

theorem addLive_sameShape (p : Pools Dim K) (c : Counter) (i : ℕ) (k : ℤ) :
    p.SameShape (p.modifyNode i (TreeNode.addLive c k)) := by
  intro j
  rw [node_modifyNode]
  split_ifs with h
  · rw [h.1]
    exact ⟨rfl, rfl⟩
  · exact ⟨rfl, rfl⟩

theorem addLive_keeps (p : Pools Dim K) (c : Counter) (k : ℤ) (h : i ≠ j) :
    (p.modifyNode i (TreeNode.addLive c k)).node j = p.node j := by
  rw [node_modifyNode, if_neg (fun hij => h hij.1)]

theorem addLive_zero (h : p.Canonical c) (i : ℕ) :
    p.modifyNode i (TreeNode.addLive c (-((0 : ℕ) : ℤ))) = p := by
  have hnode : TreeNode.addLive c (-((0 : ℕ) : ℤ)) (p.node i) = p.node i := by
    rw [TreeNode.addLive, Nat.cast_zero, neg_zero, add_zero, h i]
  rw [modifyNode, hnode, setNode]
  congr 1
  apply List.ext_getElem?
  intro j
  rw [List.getElem?_set]
  split_ifs with hij hlen
  · rw [← hij, node, List.getD_eq_getElem?_getD, List.getElem?_eq_getElem hlen]
    rfl
  · rw [← hij, List.getElem?_eq_none (not_lt.mp hlen)]
  · rfl

theorem Canonical.setNode (h : p.Canonical c) {n : TreeNode Dim K}
    (hn : c.wrap n.subtreeLiveCount = n.subtreeLiveCount) : (p.setNode i n).Canonical c := by
  intro j
  rw [node_setNode]
  split_ifs
  · exact hn
  · exact h j

theorem Canonical.addLive (h : p.Canonical c) (i : ℕ) (k : ℤ) :
    (p.modifyNode i (TreeNode.addLive c k)).Canonical c :=
  h.setNode (c.wrap_wrap _)

theorem Canonical.pushNode (h : p.Canonical c) : p.pushNode.Canonical c := by
  intro j
  rw [node_pushNode]
  exact h j

/-- A way down from one node to another through recorded nodes only. -/
inductive Trail (p : Pools Dim K) (M : List ℕ) : ℕ → ℕ → Prop where
  | refl {i : ℕ} (hi : i ∈ M) : Trail p M i i
  | left {i j left right : ℕ} {dim : Fin Dim} {split : K} (hi : i ∈ M)
      (h : (p.node i).body = .internal dim split left right) (rest : Trail p M left j) :
    Trail p M i j
  | right {i j left right : ℕ} {dim : Fin Dim} {split : K} (hi : i ∈ M)
      (h : (p.node i).body = .internal dim split left right) (rest : Trail p M right j) :
    Trail p M i j

theorem Trail.lift {M M' : List ℕ} (h : q.Trail M i j) (hs : p.SameShape q)
    (hM : ∀ k ∈ M, k ∈ M') : p.Trail M' i j := by
  induction h with
  | refl hi => exact .refl (hM _ hi)
  | left hi h _ ih => exact .left (hM _ hi) ((hs _).1.symm.trans h) ih
  | right hi h _ ih => exact .right (hM _ hi) ((hs _).1.symm.trans h) ih

theorem Trail.head {M : List ℕ} (h : p.Trail M i j) : i ∈ M := by
  cases h with
  | refl hi => exact hi
  | left hi _ _ => exact hi
  | right hi _ _ => exact hi

theorem Trail.reaches {M : List ℕ} (h : p.Trail M i j) : ∃ d, p.Below i d j := by
  induction h with
  | refl _ => exact ⟨0, .refl _⟩
  | left _ h _ ih =>
    obtain ⟨d, hd⟩ := ih
    exact ⟨d + 1, .left h hd⟩
  | right _ h _ ih =>
    obtain ⟨d, hd⟩ := ih
    exact ⟨d + 1, .right h hd⟩

theorem Below.trans {d e k : ℕ} (h : p.Below i d j) (h' : p.Below j e k) : p.Below i (d + e) k := by
  induction h with
  | refl i =>
    rw [Nat.zero_add]
    exact h'
  | left hi _ ih =>
    rw [Nat.succ_add]
    exact .left hi (ih h')
  | right hi _ ih =>
    rw [Nat.succ_add]
    exact .right hi (ih h')

theorem Below.lift {d : ℕ} (h : q.Below i d j) (hs : p.SameShape q) : p.Below i d j := by
  induction h with
  | refl i => exact .refl i
  | left h _ ih => exact .left ((hs _).1.symm.trans h) ih
  | right h _ ih => exact .right ((hs _).1.symm.trans h) ih

/-- What a delete started at node `i` records: `M` grows to `M'` while `p` turns into `q`, and
`whole` are the nodes whose subtrees it released as a whole. -/
structure Recorded (p : Pools Dim K) (M : List ℕ) (whole : List ℕ) (i : ℕ) (q : Pools Dim K)
    (M' : List ℕ) : Prop where
  shape : p.SameShape q
  keeps : ∀ j ∈ M, j ∈ M'
  trail : ∀ j ∈ M', j ∈ M ∨ p.Trail M' i j
  changed : ∀ j, (q.node j).subtreeLiveCount ≠ (p.node j).subtreeLiveCount →
    (p.node j).isLeaf = true ∨ j ∈ M' ∨ ∃ r ∈ whole, r ∈ M' ∧ ∃ d, p.Below r (d + 1) j

section
variable {M M' M'' whole whole' : List ℕ}

theorem Recorded.refl (p : Pools Dim K) (M whole : List ℕ) (i : ℕ) : p.Recorded M whole i p M :=
  ⟨.refl p, fun _ hj => hj, fun _ hj => Or.inl hj, fun _ hj => absurd rfl hj⟩

theorem SameShape.isLeaf (h : p.SameShape q) (j : ℕ) : (q.node j).isLeaf = (p.node j).isLeaf := by
  rw [TreeNode.isLeaf, TreeNode.isLeaf, (h j).1]

theorem Recorded.mono (h : p.Recorded M whole i q M') (hw : ∀ r ∈ whole, r ∈ whole') :
    p.Recorded M whole' i q M' := by
  refine ⟨h.shape, h.keeps, h.trail, fun j hj => (h.changed j hj).imp_right (Or.imp_right ?_)⟩
  rintro ⟨r, hr, hrest⟩
  exact ⟨r, hw r hr, hrest⟩

theorem Recorded.trans (h : p.Recorded M whole i q M') (h' : q.Recorded M' whole i p' M'') :
    p.Recorded M whole i p' M'' := by
  refine ⟨h.shape.trans h'.shape, fun j hj => h'.keeps j (h.keeps j hj), ?_, ?_⟩
  · intro j hj
    rcases h'.trail j hj with hj | hj
    · exact (h.trail j hj).imp_right (fun ht => ht.lift (.refl p) h'.keeps)
    · exact Or.inr (hj.lift h.shape (fun _ hk => hk))
  · intro j hj
    by_cases hq : (q.node j).subtreeLiveCount = (p.node j).subtreeLiveCount
    · rw [← hq] at hj
      rw [← h.shape.isLeaf j]
      refine (h'.changed j hj).imp_right (Or.imp_right ?_)
      rintro ⟨r, hr, hrM, d, hd⟩
      exact ⟨r, hr, hrM, d, hd.lift h.shape⟩
    · refine (h.changed j hq).imp_right (Or.imp (h'.keeps j) ?_)
      rintro ⟨r, hr, hrM, hd⟩
      exact ⟨r, hr, h'.keeps r hrM, hd⟩

end
end Pools

namespace TreeBuilder
open Pools
variable {Dim : ℕ} [NeZero Dim] {K : Type*} [Field K] [LinearOrder K]
variable {c : Counter} {p : Pools Dim K}

/-- A release stays below its node, and one that clears nothing changes nothing. -/
structure ReleasedBelow (c : Counter) (p : Pools Dim K) (i : ℕ) (r : Released Dim K) : Prop where
  canonical : r.pools.Canonical c
  shape : p.SameShape r.pools
  below : ∀ j, (r.pools.node j).subtreeLiveCount ≠ (p.node j).subtreeLiveCount →
    ∃ d, p.Below i d j
  idle : r.cleared = 0 → r.pools = p

section
omit [NeZero Dim] [LinearOrder K]

omit [Field K] in
theorem discount_released (h : p.Canonical c) (i : ℕ) (points : PointStore Dim K) (k : ℕ) :
    ReleasedBelow c p i (Released.discount c ⟨p, points, k⟩ i) := by
  refine ⟨h.addLive i _, addLive_sameShape p c i _, fun j hj => ?_, ?_⟩
  · by_cases hij : i = j
    · exact ⟨0, hij ▸ .refl i⟩
    · exact absurd (congrArg TreeNode.subtreeLiveCount (addLive_keeps p c _ hij)) hj
  · rintro rfl
    exact addLive_zero h i

omit [Field K] in
theorem ReleasedBelow.node {i left right : ℕ} {dim : Fin Dim} {split : K} {l r : Released Dim K}
    (hl : ReleasedBelow c p left l) (hr : ReleasedBelow c l.pools right r)
    (hbody : (p.node i).body = .internal dim split left right) :
    ReleasedBelow c p i (Released.discount c ⟨r.pools, r.points, l.cleared + r.cleared⟩ i) := by
  have hd := discount_released hr.canonical i r.points (l.cleared + r.cleared)
  refine ⟨hd.canonical, (hl.shape.trans hr.shape).trans hd.shape, fun j hj => ?_, fun hzero => ?_⟩
  · by_cases hij : i = j
    · exact ⟨0, hij ▸ .refl i⟩
    rw [Released.discount, addLive_keeps _ c _ hij] at hj
    by_cases hjl : (l.pools.node j).subtreeLiveCount = (p.node j).subtreeLiveCount
    · rw [← hjl] at hj
      obtain ⟨d, hd⟩ := hr.below j hj
      exact ⟨d + 1, .right hbody (hd.lift hl.shape)⟩
    · obtain ⟨d, hd⟩ := hl.below j hjl
      exact ⟨d + 1, .left hbody hd⟩
  · have hsum : l.cleared + r.cleared = 0 := hzero
    have hpr := hr.idle (by omega)
    have hpl := hl.idle (by omega)
    exact (hd.idle hsum).trans (hpr.trans hpl)

theorem releaseSubtree_below (fuel : ℕ) (h : p.Canonical c) (points : PointStore Dim K) (i : ℕ) :
    ReleasedBelow c p i (releaseSubtree c fuel p points i) := by
  induction fuel generalizing p points i with
  | zero => exact ⟨h, .refl p, fun _ hj => absurd rfl hj, fun _ => rfl⟩
  | succ fuel ih =>
    rw [releaseSubtree]
    cases hbody : (p.node i).body with
    | leaf offset size cap bboxIdx => exact discount_released h i _ _
    | internal dim split left right =>
      have hl := ih h points left
      exact hl.node (ih hl.canonical _ right) hbody

def wholeReleases (c : Counter) (rg : Region Dim K) :
    ℕ → Pools Dim K → PointStore Dim K → ℕ → BBox Dim K → List ℕ → List ℕ
  | 0, _, _, _, _, _ => []
  | fuel + 1, p, points, nodeIdx, partition, modified =>
    if rg.keeps partition then []
    else if rg.clears partition then [nodeIdx]
    else
      match (p.node nodeIdx).body with
      | .leaf .. => []
      | .internal dim split left right =>
        let l := deleteRecurse c rg fuel p points left (partition.left dim split) modified
        wholeReleases c rg fuel p points left (partition.left dim split) modified ++
          wholeReleases c rg fuel l.pools l.points right (partition.right dim split) l.modified

/-- What a recursive delete records, and that one that clears nothing changes nothing. -/
structure Deleted (c : Counter) (p : Pools Dim K) (M whole : List ℕ) (i : ℕ)
    (d : Deletion Dim K) : Prop where
  canonical : d.pools.Canonical c
  recorded : p.Recorded M whole i d.pools d.modified
  idle : d.cleared = 0 → d.pools = p ∧ d.modified = M

omit [Field K]

section
variable {M whole whole' : List ℕ} {i : ℕ}

theorem Deleted.refl (h : p.Canonical c) (points : PointStore Dim K) (M whole : List ℕ) (i k : ℕ) :
    Deleted c p M whole i ⟨⟨p, points, k⟩, M⟩ :=
  ⟨h, .refl p M whole i, fun _ => ⟨rfl, rfl⟩⟩

theorem Deleted.leaf {r : Released Dim K} (h : ReleasedBelow c p i r) (M whole : List ℕ)
    (hleaf : (p.node i).isLeaf = true) : Deleted c p M whole i ⟨r, M⟩ := by
  refine ⟨h.canonical, ⟨h.shape, fun _ hj => hj, fun _ hj => Or.inl hj, fun j hj => Or.inl ?_⟩,
    fun hzero => ⟨h.idle hzero, rfl⟩⟩
  obtain ⟨d, hd⟩ := h.below j hj
  cases hd with
  | refl => exact hleaf
  | left hbody _ =>
    rw [TreeNode.isLeaf, hbody] at hleaf
    cases hleaf
  | right hbody _ =>
    rw [TreeNode.isLeaf, hbody] at hleaf
    cases hleaf

theorem Deleted.release {r : Released Dim K} (h : ReleasedBelow c p i r) (M : List ℕ) :
    Deleted c p M [i] i ⟨r, if r.cleared ≠ 0 then M ++ [i] else M⟩ := by
  by_cases hzero : r.cleared = 0
  · rw [if_neg (not_not.mpr hzero)]
    have hsame := h.idle hzero
    refine ⟨h.canonical, ?_, fun _ => ⟨hsame, rfl⟩⟩
    exact hsame.symm ▸ Recorded.refl p M [i] i
  · rw [if_pos hzero]
    have hmem : i ∈ M ++ [i] := List.mem_append_right _ (List.mem_singleton_self i)
    refine ⟨h.canonical, ⟨h.shape, fun _ hj => List.mem_append_left _ hj, fun j hj => ?_,
      fun j hj => Or.inr ?_⟩, fun h0 => absurd h0 hzero⟩
    · rcases List.mem_append.mp hj with hj | hj
      · exact Or.inl hj
      · rw [List.mem_singleton.mp hj]
        exact Or.inr (.refl hmem)
    · obtain ⟨d, hd⟩ := h.below j hj
      cases d with
      | zero =>
        cases hd
        exact Or.inl hmem
      | succ d => exact Or.inr ⟨i, List.mem_singleton_self i, hmem, d, hd⟩

theorem Deleted.node {left right : ℕ} {dim : Fin Dim} {split : K} {l r : Deletion Dim K}
    (hl : Deleted c p M whole left l) (hr : Deleted c l.pools l.modified whole' right r)
    (hbody : (p.node i).body = .internal dim split left right) :
    Deleted c p M (whole ++ whole') i
      ⟨Released.discount c ⟨r.pools, r.points, l.cleared + r.cleared⟩ i,
        if l.cleared + r.cleared ≠ 0 then r.modified ++ [i] else r.modified⟩ := by
  have hd := discount_released hr.canonical i r.points (l.cleared + r.cleared)
  by_cases hzero : l.cleared + r.cleared = 0
  · rw [if_neg (not_not.mpr hzero)]
    obtain ⟨hpl, hml⟩ := hl.idle (by omega)
    obtain ⟨hpr, hmr⟩ := hr.idle (by omega)
    have hsame := (hd.idle hzero).trans (hpr.trans hpl)
    have hmod := hmr.trans hml
    refine ⟨hd.canonical, ?_, fun _ => ⟨hsame, hmod⟩⟩
    dsimp only
    rw [hsame, hmod]
    exact .refl p M _ i
  · rw [if_pos hzero]
    have hmem : i ∈ r.modified ++ [i] := List.mem_append_right _ (List.mem_singleton_self i)
    have hgrow : ∀ j ∈ r.modified, j ∈ r.modified ++ [i] := fun _ hj => List.mem_append_left _ hj
    have hrec := hl.recorded
    have hrec' := hr.recorded
    refine ⟨hd.canonical, ⟨(hrec.shape.trans hrec'.shape).trans hd.shape,
      fun j hj => hgrow j (hrec'.keeps j (hrec.keeps j hj)), fun j hj => ?_, fun j hj => ?_⟩,
      fun h0 => absurd h0 hzero⟩
    · rcases List.mem_append.mp hj with hj | hj
      · rcases hrec'.trail j hj with hj | hj
        · refine (hrec.trail j hj).imp_right (fun ht => .left hmem hbody (ht.lift (.refl p) ?_))
          exact fun k hk => hgrow k (hrec'.keeps k hk)
        · exact Or.inr (.right hmem hbody (hj.lift hrec.shape hgrow))
      · rw [List.mem_singleton.mp hj]
        exact Or.inr (.refl hmem)
    · by_cases hij : i = j
      · exact Or.inr (Or.inl (hij ▸ hmem))
      dsimp only at hj
      rw [Released.discount, addLive_keeps _ c _ hij] at hj
      by_cases hjl : (l.pools.node j).subtreeLiveCount = (p.node j).subtreeLiveCount
      · rw [← hjl] at hj
        rw [← hrec.shape.isLeaf j]
        refine (hrec'.changed j hj).imp_right (Or.imp (hgrow j) ?_)
        rintro ⟨w, hw, hwM, d, hd⟩
        exact ⟨w, List.mem_append_right _ hw, hgrow w hwM, d, hd.lift hrec.shape⟩
      · refine (hrec.changed j hjl).imp_right (Or.imp (fun h => hgrow j (hrec'.keeps j h)) ?_)
        rintro ⟨w, hw, hwM, hd⟩
        exact ⟨w, List.mem_append_left _ hw, hgrow w (hrec'.keeps w hwM), hd⟩

end

end

omit [NeZero Dim] in
theorem deleteRecurse_deleted (rg : Region Dim K) (fuel : ℕ) (h : p.Canonical c)
    (points : PointStore Dim K) (i : ℕ) (partition : BBox Dim K) (M : List ℕ) :
    Deleted c p M (wholeReleases c rg fuel p points i partition M) i
      (deleteRecurse c rg fuel p points i partition M) := by
  induction fuel generalizing p points i partition M with
  | zero => exact .refl h points M _ i 0
  | succ fuel ih =>
    rw [wholeReleases, deleteRecurse]
    by_cases hk : rg.keeps partition = true
    · rw [if_pos hk, if_pos hk]
      exact .refl h points M _ i 0
    rw [if_neg hk, if_neg hk]
    by_cases hc : rg.clears partition = true
    · rw [if_pos hc, if_pos hc]
      exact .release (releaseSubtree_below _ h points i) M
    rw [if_neg hc, if_neg hc]
    cases hbody : (p.node i).body with
    | leaf offset size cap bboxIdx =>
      have hleaf : (p.node i).isLeaf = true := by rw [TreeNode.isLeaf, hbody]
      dsimp only
      split_ifs
      · exact .refl h points M _ i 0
      · exact .leaf (releaseSubtree_below _ h points i) M _ hleaf
      · exact .leaf (discount_released h i _ _) M _ hleaf
    | internal dim split left right =>
      have hl := ih h points left (partition.left dim split) M
      exact hl.node (ih hl.canonical _ right _ _) hbody

omit [NeZero Dim] [Field K] in
theorem tombstoneIndex_recorded (x : Point Dim K) (fuel : ℕ) (h : p.Canonical c) (i : ℕ)
    (M : List ℕ) :
    (tombstoneIndex c x fuel p i M).1.Canonical c ∧
      p.Recorded M [] i (tombstoneIndex c x fuel p i M).1 (tombstoneIndex c x fuel p i M).2 := by
  induction fuel generalizing p i M with
  | zero => exact ⟨h, .refl p M [] i⟩
  | succ fuel ih =>
    have hcount := h.addLive i (-1)
    have hshape := addLive_sameShape p c i (-1)
    rw [tombstoneIndex]
    cases hbody : ((p.modifyNode i (TreeNode.addLive c (-1))).node i).body with
    | leaf offset size cap bboxIdx =>
      refine ⟨hcount, ⟨hshape, fun _ hj => hj, fun _ hj => Or.inl hj, fun j hj => Or.inl ?_⟩⟩
      by_cases hij : i = j
      · rw [← hij, ← hshape.isLeaf i, TreeNode.isLeaf, hbody]
      · exact absurd (congrArg TreeNode.subtreeLiveCount (addLive_keeps p c _ hij)) hj
    | internal dim split left right =>
      have down : ∀ {child : ℕ}, child = left ∨ child = right →
          (tombstoneIndex c x fuel (p.modifyNode i (TreeNode.addLive c (-1))) child (M ++ [i])).1.Canonical c ∧
            p.Recorded M [] i
              (tombstoneIndex c x fuel (p.modifyNode i (TreeNode.addLive c (-1))) child (M ++ [i])).1
              (tombstoneIndex c x fuel (p.modifyNode i (TreeNode.addLive c (-1))) child (M ++ [i])).2 := by
        intro child hchild
        obtain ⟨hcan, hrec⟩ := ih hcount child (M ++ [i])
        have hi := hrec.keeps i (List.mem_append_right _ (List.mem_singleton_self i))
        refine ⟨hcan, ⟨hshape.trans hrec.shape, fun j hj => hrec.keeps j (List.mem_append_left _ hj),
          fun j hj => ?_, fun j hj => ?_⟩⟩
        · rcases hrec.trail j hj with hj | hj
          · rcases List.mem_append.mp hj with hj | hj
            · exact Or.inl hj
            · rw [List.mem_singleton.mp hj]
              exact Or.inr (.refl hi)
          · have hrest := hj.lift hshape (fun _ hk => hk)
            rw [(hshape i).1] at hbody
            rcases hchild with rfl | rfl
            · exact Or.inr (.left hi hbody hrest)
            · exact Or.inr (.right hi hbody hrest)
        · by_cases hij : i = j
          · exact Or.inr (Or.inl (hij ▸ hi))
          · rw [← addLive_keeps p c (-1) hij] at hj ⊢
            refine (hrec.changed j hj).imp_right (Or.imp_right ?_)
            rintro ⟨r, hr, -⟩
            cases hr
      dsimp only
      split_ifs
      · exact down (Or.inl rfl)
      · exact down (Or.inr rfl)

section
variable {b : TreeBuilder K} {env : Env K} {points : PointStore Dim K} {B : ℕ}

theorem buildRecursive_canonical (fuel : ℕ) {p : Pools Dim K} (h : p.Canonical env.counter)
    (indices : List ℕ) : (buildRecursive env points B fuel p indices).1.Canonical env.counter := by
  have small : ∀ {fuel : ℕ} {p : Pools Dim K} {indices : List ℕ}, p.Canonical env.counter →
      indices.length ≤ B → (buildRecursive env points B fuel p indices).1.Canonical env.counter := by
    intro fuel p indices h hB
    rw [buildRecursive_small _ _ hB]
    exact Canonical.setNode (p := { p.pushNode with leafBuckets := _, leafBBoxes := _ }) h.pushNode
      (Counter.wrap_wrap _ _)
  induction fuel generalizing p indices with
  | zero =>
    rcases Nat.lt_or_ge B indices.length with hB | hB
    · simp only [buildRecursive, Nat.not_le.mpr hB, ↓reduceIte]
      exact h.pushNode
    · exact small h hB
  | succ fuel ih =>
    rcases Nat.lt_or_ge B indices.length with hB | hB
    · rw [buildRecursive_large _ _ hB]
      exact (ih (ih h.pushNode _) _).setNode (Counter.wrap_wrap _ _)
    · exact small h hB

theorem rebuildAt_canonical {p : Pools Dim K} (h : p.Canonical b.env.counter) (i : ℕ) :
    (b.rebuildAt points p i).Canonical b.env.counter := by
  let liveIndices := collectLiveIndicesInSubtree points p.nodes.length p i
  have hbuilt : (buildRecursive b.env points b.leafBucketSize liveIndices.length p
      liveIndices).1.Canonical b.env.counter := buildRecursive_canonical _ h _
  exact hbuilt.setNode (hbuilt _)

theorem insertIndex_canonical (index fuel : ℕ) {p : Pools Dim K} (h : p.Canonical b.env.counter)
    (i : ℕ) : (b.insertIndex points index fuel p i).Canonical b.env.counter := by
  induction fuel generalizing p i with
  | zero => exact h
  | succ fuel ih =>
    have hcount : (countNode b.env.counter p i).Canonical b.env.counter :=
      h.setNode (Counter.wrap_wrap _ _)
    cases hbody : ((countNode b.env.counter p i).node i).body with
    | internal dim split left right =>
      rw [insertIndex_at_internal hbody]
      exact ih hcount _
    | leaf offset size cap bboxIdx =>
      have hpush : (pushInto points index (countNode b.env.counter p i) i offset size cap
          bboxIdx).Canonical b.env.counter :=
        Canonical.setNode (p := { countNode b.env.counter p i with leafBuckets := _, leafBBoxes := _ })
          hcount (hcount i)
      rw [insertIndex_at_leaf hbody]
      dsimp only
      split_ifs
      · exact rebuildAt_canonical hpush i
      · exact hpush

theorem sweep_canonical (visit : ℕ → Bool) (fuel : ℕ) {p : Pools Dim K}
    (h : p.Canonical b.env.counter) (i : ℕ) :
    (b.sweep points visit fuel p i).Canonical b.env.counter := by
  induction fuel generalizing p i with
  | zero => exact h
  | succ fuel ih =>
    have child : ∀ {q : Pools Dim K} (j : ℕ), q.Canonical b.env.counter →
        (b.sweepChild points visit fuel q j).Canonical b.env.counter := by
      intro q j hq
      unfold sweepChild
      split_ifs
      · exact ih hq j
      · exact hq
    by_cases hi : i = invalid
    · simp only [sweep, hi, ↓reduceIte]
      exact h
    · cases hbody : (p.node i).body with
      | leaf offset size cap bboxIdx =>
        rw [sweep_leaf fuel hi hbody]
        split_ifs
        · exact rebuildAt_canonical h i
        · exact h
      | internal dim split left right =>
        rw [sweep_internal fuel hi hbody]
        split_ifs
        · exact rebuildAt_canonical h i
        · unfold sweepAgain
          split_ifs
          · exact rebuildAt_canonical (child right (child left h)) i
          · exact child right (child left h)

end
end TreeBuilder
end Copse
