import Copse.AmortizedRebuilds
import Copse.PoolGrowth

set_option autoImplicit false

namespace Copse
open TreeBuilder TransitionRuns

namespace Pools
variable {Dim : ℕ} {K : Type*}

/-- The pools are larger by no more than trees with `n` leaves in all. -/
structure GrownBy (B n : ℕ) (p p' : Pools Dim K) : Prop where
  nodes : p'.nodes.length ≤ p.nodes.length + 2 * n
  boxes : p'.leafBBoxes.length ≤ p.leafBBoxes.length + n
  slots : p'.leafBuckets.data.length ≤ p.leafBuckets.data.length + 2 * B * n

section
variable {p p' p'' : Pools Dim K} {B n m : ℕ}

theorem GrownBy.refl (B : ℕ) (p : Pools Dim K) : GrownBy B 0 p p := ⟨le_rfl, le_rfl, le_rfl⟩

theorem GrownBy.trans (h : GrownBy B n p p') (h' : GrownBy B m p' p'') :
    GrownBy B (n + m) p p'' := by
  obtain ⟨hn, hb, hs⟩ := h
  obtain ⟨hn', hb', hs'⟩ := h'
  refine ⟨by omega, by omega, ?_⟩
  rw [Nat.mul_add]
  omega

theorem GrownBy.mono (h : GrownBy B n p p') (hle : n ≤ m) : GrownBy B m p p' := by
  obtain ⟨hn, hb, hs⟩ := h
  have hmul := Nat.mul_le_mul_left (2 * B) hle
  exact ⟨by omega, by omega, by omega⟩

theorem grownBy_setNode (p : Pools Dim K) (i : ℕ) (n : TreeNode Dim K) :
    GrownBy B 0 p (p.setNode i n) :=
  ⟨(length_setNode p i n).le, le_rfl, le_rfl⟩

end
end Pools

namespace TreeBuilder
open Pools
variable {Dim : ℕ} [NeZero Dim] {K : Type*} [Field K] [LinearOrder K]
variable {env : Env K} {b : TreeBuilder K} {points : PointStore Dim K} {B index : ℕ}
variable {visit : ℕ → Bool}

omit [NeZero Dim] in
theorem buildLeaf_lengths (c : Counter) (points : PointStore Dim K) (B : ℕ) (p : Pools Dim K)
    (i : ℕ) (indices : List ℕ) :
    (buildLeaf c points B p i indices).nodes.length = p.nodes.length ∧
      (buildLeaf c points B p i indices).leafBBoxes.length = p.leafBBoxes.length + 1 ∧
      (buildLeaf c points B p i indices).leafBuckets.data.length ≤
        p.leafBuckets.data.length + 2 * B := by
  have hcap : u16 (2 * B) ≤ 2 * B := Nat.mod_le _ _
  refine ⟨by simp [buildLeaf], by simp [buildLeaf, Pools.setNode], ?_⟩
  simp only [buildLeaf, Pools.setNode, LeafBucket.allocate, LeafBucket.fill_length, List.length_append,
    List.length_replicate]
  omega

/-- A built tree has at least one leaf but no more than entries, and fewer than twice as many
nodes. -/
structure BuiltBy (B n : ℕ) (p p' : Pools Dim K) : Prop where
  nodes : p'.nodes.length + 1 ≤ p.nodes.length + 2 * n
  boxes : p'.leafBBoxes.length ≤ p.leafBBoxes.length + n
  slots : p'.leafBuckets.data.length ≤ p.leafBuckets.data.length + 2 * B * n

omit [NeZero Dim] [Field K] [LinearOrder K] in
theorem BuiltBy.grown {n : ℕ} {p p' : Pools Dim K} (h : BuiltBy B n p p') : GrownBy B n p p' := by
  have hn := h.nodes
  exact ⟨by omega, h.boxes, h.slots⟩

theorem buildRecursive_builtBy (hpos : 0 < B) (fuel : ℕ) (p : Pools Dim K) (indices : List ℕ) :
    BuiltBy B (max 1 indices.length) p (buildRecursive env points B fuel p indices).1 := by
  have small : ∀ {p : Pools Dim K} {indices : List ℕ}, BuiltBy B (max 1 indices.length) p
      (buildLeaf env.counter points B p.pushNode (u32 p.nodes.length) indices) := by
    intro p indices
    obtain ⟨hn, hb, hs⟩ := buildLeaf_lengths env.counter points B p.pushNode (u32 p.nodes.length)
      indices
    have hone : 2 * B ≤ 2 * B * max 1 indices.length := Nat.le_mul_of_pos_right _ (by omega)
    rw [length_pushNode] at hn
    rw [show p.pushNode.leafBBoxes = p.leafBBoxes from rfl] at hb
    rw [show p.pushNode.leafBuckets = p.leafBuckets from rfl] at hs
    exact ⟨by omega, by omega, by omega⟩
  induction fuel generalizing p indices with
  | zero =>
    rw [buildRecursive]
    split_ifs
    · exact small
    · refine ⟨?_, Nat.le_add_right _ _, Nat.le_add_right _ _⟩
      rw [length_pushNode]
      omega
  | succ fuel ih =>
    rw [buildRecursive]
    split_ifs with hsmall
    · exact small
    · have hmid : indices.length / 2 < indices.length := by omega
      have hlen := (env.std.nthElement_perm
        (fun i => points.point i (splitDimOf points indices)) (indices.length / 2) indices
        hmid).length_eq
      dsimp only
      generalize env.std.nthElement (fun i => points.point i (splitDimOf points indices))
        (indices.length / 2) indices = parted at hlen ⊢
      have htake : max 1 (parted.take (indices.length / 2)).length = indices.length / 2 := by
        rw [List.length_take]
        omega
      have hdrop : max 1 (parted.drop (indices.length / 2)).length =
          indices.length - indices.length / 2 := by
        rw [List.length_drop]
        omega
      have hleft := ih p.pushNode (parted.take (indices.length / 2))
      have hright := ih (buildRecursive env points B fuel p.pushNode
        (parted.take (indices.length / 2))).1 (parted.drop (indices.length / 2))
      rw [htake] at hleft
      rw [hdrop] at hright
      obtain ⟨hn, hb, hs⟩ := hleft
      obtain ⟨hn', hb', hs'⟩ := hright
      have hsum : max 1 indices.length =
          indices.length / 2 + (indices.length - indices.length / 2) := by omega
      rw [length_pushNode] at hn
      rw [show p.pushNode.leafBBoxes = p.leafBBoxes from rfl] at hb
      rw [show p.pushNode.leafBuckets = p.leafBuckets from rfl] at hs
      rw [hsum]
      refine ⟨?_, ?_, ?_⟩
      · rw [length_setNode]
        omega
      · exact hb'.trans (by omega)
      · refine hs'.trans ?_
        rw [Nat.mul_add]
        omega

omit [NeZero Dim] [LinearOrder K] in
theorem collect_length_le (points : PointStore Dim K) (fuel : ℕ) (p : Pools Dim K) (i : ℕ) :
    (collectLiveIndicesInSubtree points fuel p i).length ≤ (entriesBelow fuel p i).length := by
  induction fuel generalizing i with
  | zero => exact le_rfl
  | succ fuel ih =>
    rw [collectLiveIndicesInSubtree, entriesBelow]
    cases (p.node i).body with
    | leaf offset size cap bboxIdx =>
      dsimp only
      rw [List.length_map]
      exact List.length_filter_le _ _
    | internal dim split left right =>
      dsimp only
      rw [List.length_append, List.length_append]
      exact Nat.add_le_add (ih left) (ih right)

theorem rebuildAt_grownBy (hpos : 0 < b.leafBucketSize) (p : Pools Dim K) (i : ℕ) :
    GrownBy b.leafBucketSize (scanned (p, i)) p (b.rebuildAt points p i) := by
  have hle : (collectLiveIndicesInSubtree points p.nodes.length p i).length ≤
      (entriesBelow p.nodes.length p i).length := collect_length_le points _ p i
  have hbuilt : BuiltBy b.leafBucketSize _ p (buildRecursive b.env points b.leafBucketSize
      (collectLiveIndicesInSubtree points p.nodes.length p i).length p
      (collectLiveIndicesInSubtree points p.nodes.length p i)).1 :=
    buildRecursive_builtBy hpos _ p _
  have hgrown : GrownBy b.leafBucketSize _ p (b.rebuildAt points p i) :=
    hbuilt.grown.trans (grownBy_setNode _ _ _)
  refine hgrown.mono ?_
  change _ ≤ max 1 (entriesBelow p.nodes.length p i).length
  omega

theorem sweepChild_grownBy {fuel : ℕ} (ih : ∀ (p : Pools Dim K) (i : ℕ), GrownBy b.leafBucketSize
      ((b.sweepRebuilds points visit fuel p i).map scanned).sum p (b.sweep points visit fuel p i))
    (p : Pools Dim K) (i : ℕ) : GrownBy b.leafBucketSize (b.childReads points visit fuel p i) p
      (b.sweepChild points visit fuel p i) := by
  rw [childReads, sweepChild]
  split_ifs
  · exact ih p i
  · exact .refl _ p

theorem sweep_grownBy (hpos : 0 < b.leafBucketSize) (fuel : ℕ) (p : Pools Dim K) (i : ℕ) :
    GrownBy b.leafBucketSize ((b.sweepRebuilds points visit fuel p i).map scanned).sum p
      (b.sweep points visit fuel p i) := by
  induction fuel generalizing p i with
  | zero => exact .refl _ p
  | succ fuel ih =>
    have once : ∀ (q : Pools Dim K) (j : ℕ) (again : Bool), GrownBy b.leafBucketSize
        ((if again then [(q, j)] else []).map scanned).sum q
        (if again then b.rebuildAt points q j else q) := by
      intro q j again
      cases again with
      | true => exact rebuildAt_grownBy hpos q j
      | false => exact .refl _ q
    have child := sweepChild_grownBy ih
    by_cases hi : i = invalid
    · rw [sweepRebuilds, sweep, if_pos hi, if_pos hi]
      exact .refl _ p
    cases hbody : (p.node i).body with
    | leaf offset size cap bboxIdx =>
      rw [sweepRebuilds_leaf fuel hi hbody, sweep_leaf fuel hi hbody]
      simpa only [decide_eq_true_eq] using once p i (decide (2 * b.leafBucketSize < size))
    | internal dim split left right =>
      rw [sweepRebuilds_internal fuel hi hbody, sweep_internal fuel hi hbody]
      cases b.isViolator p i with
      | true => exact rebuildAt_grownBy hpos p i
      | false =>
        rw [if_neg Bool.false_ne_true, if_neg Bool.false_ne_true, sweepAgain]
        dsimp only
        rw [List.map_append, List.map_append, List.sum_append, List.sum_append]
        exact ((child p left).trans (child _ right)).trans (once _ i _)

omit [NeZero Dim] [Field K] [LinearOrder K] in
theorem countNode_grownBy (c : Counter) (p : Pools Dim K) (i : ℕ) :
    GrownBy B 0 p (countNode c p i) := grownBy_setNode p i _

omit [NeZero Dim] in
theorem pushInto_grownBy (points : PointStore Dim K) (index : ℕ) (p : Pools Dim K)
    (i offset size cap bboxIdx : ℕ) :
    GrownBy B 0 p (pushInto points index p i offset size cap bboxIdx) := by
  have hdata : (p.leafBuckets.push offset size cap (stamp points index)).1.data.length =
      p.leafBuckets.data.length := by
    rw [LeafBucket.push]
    split_ifs
    · rfl
    · exact List.length_set
  exact ⟨(length_setNode _ _ _).le, List.length_set.le, hdata.le⟩

theorem insertIndex_grownBy (hpos : 0 < b.leafBucketSize) (points : PointStore Dim K)
    (index fuel : ℕ) (p : Pools Dim K) (i : ℕ) :
    GrownBy b.leafBucketSize ((b.insertRebuilds points index fuel p i).map scanned).sum p
      (b.insertIndex points index fuel p i) := by
  induction fuel generalizing p i with
  | zero => exact .refl _ p
  | succ fuel ih =>
    have hcount : GrownBy b.leafBucketSize 0 p (countNode b.env.counter p i) :=
      countNode_grownBy _ p i
    rw [insertRebuilds]
    cases hbody : ((countNode b.env.counter p i).node i).body with
    | leaf offset size cap bboxIdx =>
      have hpush : GrownBy b.leafBucketSize 0 p (pushInto points index
          (countNode b.env.counter p i) i offset size cap bboxIdx) :=
        hcount.trans (pushInto_grownBy points index _ i offset size cap bboxIdx)
      rw [insertIndex_at_leaf hbody]
      dsimp only
      split_ifs
      · refine (hpush.trans (rebuildAt_grownBy hpos _ i)).mono ?_
        rw [List.map_singleton, List.sum_singleton]
        omega
      · exact hpush
    | internal dim split left right =>
      rw [insertIndex_at_internal hbody]
      refine (hcount.trans (ih _ _)).mono ?_
      rw [Nat.zero_add]

omit [NeZero Dim]

omit [Field K] in
theorem tombstoneIndex_grownBy (c : Counter) (x : Point Dim K) (fuel : ℕ) (p : Pools Dim K) (i : ℕ)
    (modified : List ℕ) : GrownBy B 0 p (tombstoneIndex c x fuel p i modified).1 := by
  induction fuel generalizing p i modified with
  | zero => exact .refl B p
  | succ fuel ih =>
    have hset : GrownBy B 0 p (p.modifyNode i (TreeNode.addLive c (-1))) := grownBy_setNode p i _
    rw [tombstoneIndex]
    split
    · exact hset
    · exact hset.trans (ih _ _ _)

omit [LinearOrder K] in
theorem releaseSubtree_grownBy (c : Counter) (fuel : ℕ) (p : Pools Dim K)
    (points : PointStore Dim K) (i : ℕ) :
    GrownBy B 0 p (releaseSubtree c fuel p points i).pools := by
  induction fuel generalizing p points i with
  | zero => exact .refl B p
  | succ fuel ih =>
    rw [releaseSubtree]
    split
    · exact grownBy_setNode p i _
    · exact ((ih p points _).trans (ih _ _ _)).trans (grownBy_setNode _ i _)

theorem deleteRecurse_grownBy (c : Counter) (rg : Region Dim K) (fuel : ℕ) (p : Pools Dim K)
    (points : PointStore Dim K) (i : ℕ) (partition : BBox Dim K) (modified : List ℕ) :
    GrownBy B 0 p (deleteRecurse c rg fuel p points i partition modified).pools := by
  induction fuel generalizing p points i partition modified with
  | zero => exact .refl B p
  | succ fuel ih =>
    rw [deleteRecurse]
    split_ifs
    · exact .refl B p
    · exact releaseSubtree_grownBy c _ p points i
    dsimp only
    split
    · split_ifs
      · exact .refl B p
      · exact releaseSubtree_grownBy c _ p points i
      · exact grownBy_setNode p i _
    · exact ((ih p points _ _ _).trans (ih _ _ _ _ _)).trans (grownBy_setNode _ i _)

end TreeBuilder

theorem PointStore.forEachLive_length {Dim : ℕ} {K : Type*} [Field K] (points : PointStore Dim K) :
    points.forEachLive.length = points.live := by
  have hgo : ∀ n pos, (PointStore.forEachLive.go points n pos).length = n := by
    intro n
    induction n with
    | zero => exact fun _ => rfl
    | succ n ih => exact fun pos => congrArg Nat.succ (ih _)
  exact hgo _ _

def Action.arrivals {Dim : ℕ} {K : Type*} [Field K] [LinearOrder K] : Action Dim K → ℕ
  | .insertPoint _ => 1
  | _ => 0

namespace KDTreeImpl
variable {Dim : ℕ} [NeZero Dim] {K : Type*} [Field K] [LinearOrder K]

section
variable {env : Env K} {s : KDTreeImpl Dim K}

theorem rebuild_grownBy (hpos : 0 < s.cfg.leafBucketSize) {indices : List ℕ} (hne : indices ≠ []) :
    Pools.GrownBy s.cfg.leafBucketSize indices.length s.pools (s.rebuild env indices).pools := by
  have hlen := List.length_pos_iff.mpr hne
  rw [rebuild_eq env hne]
  refine (buildRecursive_builtBy hpos _ s.pools indices).grown.mono ?_
  omega

theorem sweepFull_pools (env : Env K) (s : KDTreeImpl Dim K) :
    (s.maybePartialRebuildFull env).pools =
      if s.root = invalid then s.pools
      else (s.builder env).sweepFull s.points s.pools.nodes.length s.pools s.root := by
  simp only [maybePartialRebuildFull]
  split_ifs <;> rfl

theorem sweep_pools (env : Env K) (s : KDTreeImpl Dim K) :
    (s.maybePartialRebuild env).pools =
      if s.root = invalid ∨ s.modifiedNodes = [] then s.pools
      else (s.builder env).sweep s.points s.visits s.pools.nodes.length s.pools s.root := by
  by_cases hvacant : s.root = invalid ∨ s.modifiedNodes = []
  · simp only [maybePartialRebuild, hvacant, ↓reduceIte]
  · rw [if_neg hvacant]
    rw [not_or] at hvacant
    rw [sweep_eq env hvacant.1 hvacant.2]

theorem act_grownBy (hpos : 0 < s.cfg.leafBucketSize) {a : Action Dim K} (ha : a ≠ .rebuildAll) :
    Pools.GrownBy s.cfg.leafBucketSize (s.rebuildReads env a + a.arrivals) s.pools
      (s.act env a).pools := by
  have none : Pools.GrownBy s.cfg.leafBucketSize 0 s.pools s.pools := .refl _ _
  have hb : 0 < (s.builder env).leafBucketSize := hpos
  cases a with
  | insertPoint x =>
    cases hx : s.accepts x with
    | false =>
      rw [act_rejected env hx]
      exact none.mono (Nat.zero_le _)
    | true =>
      rw [act_inserts env hx]
      by_cases hroot : s.root = invalid
      · have heq : s.acceptPoint env x =
            { s with points := (s.points.acquire x).1 }.rebuild env [(s.points.acquire x).2] := by
          simp only [acceptPoint, hroot, ↓reduceIte]
        rw [heq]
        exact (rebuild_grownBy (s := { s with points := (s.points.acquire x).1 }) hpos
          (List.cons_ne_nil _ _)).mono (Nat.le_add_left 1 _)
      · have heq : (s.acceptPoint env x).pools = (s.builder env).insertIndex
            (s.points.acquire x).1 (s.points.acquire x).2 s.pools.nodes.length s.pools s.root := by
          simp only [acceptPoint, hroot, ↓reduceIte]
          rfl
        rw [heq, rebuildReads, partialRebuilds, if_pos ⟨hx, hroot⟩]
        exact (insertIndex_grownBy hb _ _ _ _ _).mono (Nat.le_add_right _ _)
  | removeIndex i =>
    have htomb : Pools.GrownBy s.cfg.leafBucketSize 0 s.pools (s.removeIndex env i).pools :=
      tombstoneIndex_grownBy _ _ _ _ _ _
    exact htomb.mono (Nat.zero_le _)
  | deleteRegion rg =>
    rw [act, deleteRegion]
    split_ifs
    · exact none.mono (Nat.zero_le _)
    · exact (deleteRecurse_grownBy _ rg _ _ _ _ _ _).mono (Nat.zero_le _)
  | sweepFull =>
    rw [act, sweepFull_pools]
    split_ifs
    · exact none.mono (Nat.zero_le _)
    · exact (sweep_grownBy hb _ _ _).mono (Nat.le_add_right _ _)
  | sweep =>
    rw [act, sweep_pools]
    split_ifs with hvacant
    · exact none.mono (Nat.zero_le _)
    · rw [rebuildReads, partialRebuilds, if_neg (not_or.mp hvacant).2]
      exact (sweep_grownBy hb _ _ _).mono (Nat.le_add_right _ _)
  | rebuildAll => exact absurd rfl ha

theorem rebuildAll_grownBy (hpos : 0 < s.cfg.leafBucketSize) :
    Pools.GrownBy s.cfg.leafBucketSize s.size Pools.clear (s.rebuildAll env).pools := by
  rw [rebuildAll]
  dsimp only
  split_ifs with hnone
  · exact (Pools.GrownBy.refl _ _).mono (Nat.zero_le _)
  · refine (rebuild_grownBy (s := { s with pools := Pools.clear }) hpos hnone).mono ?_
    rw [List.length_map, PointStore.forEachLive_length]
    exact le_rfl

end
end KDTreeImpl
end Copse
