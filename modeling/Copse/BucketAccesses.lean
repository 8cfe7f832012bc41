import Copse.PoolGrowth

set_option autoImplicit false

namespace Copse
open TreeBuilder

/-- A use of the slice of a leaf: the positions written, the size of the bucket pool, and
whether the entries found room. -/
structure BucketAccess where
  offset : ℕ
  capacity : ℕ
  written : List ℕ
  pool : ℕ
  ok : Bool

structure BucketAccess.InSlice (leafBucketSize : ℕ) (a : BucketAccess) : Prop where
  capacity : a.capacity = 2 * leafBucketSize
  slice : a.offset + a.capacity ≤ a.pool
  written : ∀ i ∈ a.written, a.offset ≤ i ∧ i < a.offset + a.capacity
  ok : a.ok = true

namespace LeafBucket

def pushed (b : LeafBucket) (offset size capacity : ℕ) : BucketAccess :=
  if size = capacity then ⟨offset, capacity, [], b.data.length, false⟩
  else ⟨offset, capacity, [u32 (offset + size)], b.data.length, true⟩

def filled (b : LeafBucket) (capacity count : ℕ) : BucketAccess :=
  let (b, offset) := b.allocate capacity
  ⟨offset, capacity, (List.range count).map (fun i => offset + i), b.data.length, true⟩

def entry (b : LeafBucket) (i : ℕ) : BucketEntry := b.data.getD i ⟨0, 0⟩

theorem entry_set_ne (b : LeafBucket) {i j : ℕ} (e : BucketEntry) (h : i ≠ j) :
    entry ⟨b.data.set i e⟩ j = b.entry j := by
  rw [entry, entry, List.getD_eq_getElem?_getD, List.getElem?_set_ne h,
    List.getD_eq_getElem?_getD]

theorem entry_push (b : LeafBucket) (offset size capacity : ℕ) (e : BucketEntry) {j : ℕ}
    (hj : j ∉ (b.pushed offset size capacity).written) :
    (b.push offset size capacity e).1.entry j = b.entry j := by
  unfold pushed at hj
  unfold push
  split_ifs at hj ⊢
  · rfl
  · exact b.entry_set_ne e (fun h => hj (List.mem_singleton.mpr h.symm))

theorem entry_allocate (b : LeafBucket) (capacity j : ℕ) :
    (b.allocate capacity).1.entry j = b.entry j := by
  simp only [allocate, entry, List.getD_eq_getElem?_getD]
  rcases Nat.lt_or_ge j b.data.length with hj | hj
  · rw [List.getElem?_append_left hj]
  · rw [List.getElem?_append_right hj, List.getElem?_eq_none hj, List.getElem?_replicate]
    split_ifs <;> rfl

theorem entry_fill (b : LeafBucket) (offset : ℕ) (es : List BucketEntry) {j : ℕ}
    (hj : ∀ i < es.length, j ≠ offset + i) : (b.fill offset es).entry j = b.entry j := by
  induction es generalizing b offset with
  | nil => rfl
  | cons e es ih =>
    have hhead := hj 0 (Nat.succ_pos _)
    rw [fill, ih]
    · exact b.entry_set_ne e hhead.symm
    · intro i hi
      have hnext := hj (i + 1) (Nat.succ_lt_succ hi)
      omega

theorem entry_filled (b : LeafBucket) (capacity : ℕ) (es : List BucketEntry) {j : ℕ}
    (hj : j ∉ (b.filled capacity es.length).written) :
    ((b.allocate capacity).1.fill (b.allocate capacity).2 es).entry j = b.entry j := by
  rw [entry_fill, entry_allocate]
  rintro i hi rfl
  exact hj (List.mem_map.mpr ⟨i, List.mem_range.mpr hi, rfl⟩)

theorem filled_inSlice {b : LeafBucket} {leafBucketSize count : ℕ}
    (hB : 2 * leafBucketSize ≤ 65535) (small : count ≤ leafBucketSize)
    (fit : b.data.length < 2 ^ 32) :
    (b.filled (u16 (2 * leafBucketSize)) count).InSlice leafBucketSize := by
  have hcap : u16 (2 * leafBucketSize) = 2 * leafBucketSize := u16_of_lt (by omega)
  have hoffset := u32_of_lt fit
  refine ⟨hcap, ?_, ?_, rfl⟩
  · simp [filled, allocate, hoffset, hcap]
  · intro i hi
    obtain ⟨k, hk, rfl⟩ := List.mem_map.mp hi
    have := List.mem_range.mp hk
    simp only [filled, allocate, hcap]
    omega

theorem pushed_inSlice {b : LeafBucket} {leafBucketSize offset size : ℕ}
    (hsize : size < 2 * leafBucketSize) (hlen : offset + 2 * leafBucketSize ≤ b.data.length)
    (fit : b.data.length < 2 ^ 32) :
    (b.pushed offset size (2 * leafBucketSize)).InSlice leafBucketSize := by
  rw [pushed, if_neg hsize.ne, u32_of_lt (by omega)]
  refine ⟨rfl, hlen, List.forall_mem_singleton.mpr ?_, rfl⟩
  exact ⟨Nat.le_add_right _ _, Nat.add_lt_add_left hsize _⟩

end LeafBucket

/-- From `p` to `q` no position changes that `l` does not write. -/
def Pools.Wrote {Dim : ℕ} {K : Type*} (p : Pools Dim K) (l : List BucketAccess) (q : Pools Dim K) :
    Prop :=
  ∀ j, (∀ a ∈ l, j ∉ a.written) → q.leafBuckets.entry j = p.leafBuckets.entry j

section
variable {Dim : ℕ} {K : Type*} {p q r : Pools Dim K} {l l' : List BucketAccess}

theorem Pools.Wrote.of_eq (h : q.leafBuckets = p.leafBuckets) : p.Wrote l q := by
  intro j _
  rw [h]

theorem Pools.Wrote.trans (h : p.Wrote l q) (h' : q.Wrote l' r) : p.Wrote (l ++ l') r := by
  intro j hj
  rw [h' j (fun a ha => hj a (List.mem_append_right _ ha)),
    h j (fun a ha => hj a (List.mem_append_left _ ha))]

end

namespace TreeBuilder
variable {Dim : ℕ} [NeZero Dim] {K : Type*} [Field K] [LinearOrder K]

def buildAccesses (env : Env K) (points : PointStore Dim K) (leafBucketSize : ℕ) :
    ℕ → Pools Dim K → List ℕ → List BucketAccess
  | fuel, p, indices =>
    let count := indices.length
    let p := p.pushNode
    if count ≤ leafBucketSize then [p.leafBuckets.filled (u16 (2 * leafBucketSize)) count]
    else
      match fuel with
      | 0 => []
      | fuel + 1 =>
        let mid := count / 2
        let parted := partedOf env points indices
        let (q, _) := buildRecursive env points leafBucketSize fuel p (parted.take mid)
        buildAccesses env points leafBucketSize fuel p (parted.take mid) ++
          buildAccesses env points leafBucketSize fuel q (parted.drop mid)

variable (b : TreeBuilder K)

def rebuildAccesses (points : PointStore Dim K) (p : Pools Dim K) (scapegoat : ℕ) :
    List BucketAccess :=
  let liveIndices := collectLiveIndicesInSubtree points p.nodes.length p scapegoat
  buildAccesses b.env points b.leafBucketSize liveIndices.length p liveIndices

def insertAccesses (points : PointStore Dim K) (index : ℕ) :
    ℕ → Pools Dim K → ℕ → List BucketAccess
  | 0, _, _ => []
  | fuel + 1, p, nodeIdx =>
    let p := countNode b.env.counter p nodeIdx
    match (p.node nodeIdx).body with
    | .leaf offset size capacity bboxIdx =>
      let (_, size', _) := p.leafBuckets.push offset size capacity (stamp points index)
      p.leafBuckets.pushed offset size capacity ::
        if size' = capacity then
          b.rebuildAccesses points (pushInto points index p nodeIdx offset size capacity bboxIdx)
            nodeIdx
        else []
    | .internal dim split left right =>
      insertAccesses points index fuel p (if points.point index dim < split then left else right)

/-- The rebuilds of a sweep, each with the pools it starts from and its node. -/
def sweepRebuilds (points : PointStore Dim K) (visit : ℕ → Bool) :
    ℕ → Pools Dim K → ℕ → List (Pools Dim K × ℕ)
  | 0, _, _ => []
  | fuel + 1, p, nodeIdx =>
    if nodeIdx = invalid then []
    else
      match (p.node nodeIdx).body with
      | .leaf _ size _ _ => if 2 * b.leafBucketSize < size then [(p, nodeIdx)] else []
      | .internal _ _ left right =>
        if b.isViolator p nodeIdx then [(p, nodeIdx)]
        else
          let q := b.sweepChild points visit fuel p left
          let r := b.sweepChild points visit fuel q right
          (if visit left then sweepRebuilds points visit fuel p left else []) ++
            (if visit right then sweepRebuilds points visit fuel q right else []) ++
              if b.isViolator r nodeIdx then [(r, nodeIdx)] else []

def sweepAccesses (points : PointStore Dim K) (visit : ℕ → Bool) (fuel : ℕ) (p : Pools Dim K)
    (nodeIdx : ℕ) : List BucketAccess :=
  (b.sweepRebuilds points visit fuel p nodeIdx).flatMap (fun m => b.rebuildAccesses points m.1 m.2)

section
variable {env : Env K} {points : PointStore Dim K} {B : ℕ} {visit : ℕ → Bool}

theorem buildAccesses_small (fuel : ℕ) (p : Pools Dim K) {indices : List ℕ}
    (h : indices.length ≤ B) : buildAccesses env points B fuel p indices =
      [p.leafBuckets.filled (u16 (2 * B)) indices.length] := by
  cases fuel <;> simp [buildAccesses, h, Pools.pushNode]

theorem buildAccesses_large (fuel : ℕ) (p : Pools Dim K) {indices : List ℕ}
    (h : B < indices.length) :
    buildAccesses env points B (fuel + 1) p indices =
      let mid := indices.length / 2
      let parted := partedOf env points indices
      buildAccesses env points B fuel p.pushNode (parted.take mid) ++
        buildAccesses env points B fuel
          (buildRecursive env points B fuel p.pushNode (parted.take mid)).1 (parted.drop mid) := by
  rw [buildAccesses]
  simp only [Nat.not_le.mpr h, ↓reduceIte]

theorem buildRecursive_wrote (fuel : ℕ) (p : Pools Dim K) (indices : List ℕ) :
    p.Wrote (buildAccesses env points B fuel p indices)
      (buildRecursive env points B fuel p indices).1 := by
  have small : ∀ {fuel : ℕ} {p : Pools Dim K} {indices : List ℕ}, indices.length ≤ B →
      p.Wrote (buildAccesses env points B fuel p indices)
        (buildRecursive env points B fuel p indices).1 := by
    intro fuel p indices hB j hj
    rw [buildAccesses_small _ _ hB] at hj
    rw [buildRecursive_small _ _ hB]
    have hout := hj _ (List.mem_singleton_self _)
    rw [← List.length_map (stamp points)] at hout
    exact LeafBucket.entry_filled p.leafBuckets _ _ hout
  induction fuel generalizing p indices with
  | zero =>
    rcases Nat.lt_or_ge B indices.length with hB | hB
    · simp only [buildRecursive, Nat.not_le.mpr hB, ↓reduceIte]
      exact .of_eq rfl
    · exact small hB
  | succ fuel ih =>
    rcases Nat.lt_or_ge B indices.length with hB | hB
    · rw [buildAccesses_large _ _ hB, buildRecursive_large _ _ hB]
      have hlo := ih p.pushNode ((partedOf env points indices).take (indices.length / 2))
      exact hlo.trans (ih _ _)
    · exact small hB

theorem buildAccesses_inSlice (hB : 2 * B ≤ 65535) (fuel : ℕ) (p : Pools Dim K)
    (indices : List ℕ) (fit : (buildRecursive env points B fuel p indices).1.Fit) :
    ∀ a ∈ buildAccesses env points B fuel p indices, a.InSlice B := by
  have small : ∀ {fuel : ℕ} {p : Pools Dim K} {indices : List ℕ}, indices.length ≤ B →
      (buildRecursive env points B fuel p indices).1.Fit →
      ∀ a ∈ buildAccesses env points B fuel p indices, a.InSlice B := by
    intro fuel p indices hle fit
    have hp := fit.of_grown (buildRecursive_grown fuel p indices)
    rw [buildAccesses_small _ _ hle]
    exact List.forall_mem_singleton.mpr (LeafBucket.filled_inSlice hB hle hp.slots)
  induction fuel generalizing p indices with
  | zero =>
    rcases Nat.lt_or_ge B indices.length with hlt | hle
    · simp [buildAccesses, Nat.not_le.mpr hlt]
    · exact small hle fit
  | succ fuel ih =>
    rcases Nat.lt_or_ge B indices.length with hlt | hle
    · rw [buildRecursive_large _ _ hlt] at fit
      rw [buildAccesses_large _ _ hlt]
      have fit₂ := fit.of_grown (Pools.setNode_grown _ _ _)
      have fit₁ := fit₂.of_grown (buildRecursive_grown _ _ _)
      exact List.forall_mem_append.mpr ⟨ih _ _ fit₁, ih _ _ fit₂⟩
    · exact small hle fit

variable {b}

theorem rebuildAt_wrote (p : Pools Dim K) (i : ℕ) :
    p.Wrote (b.rebuildAccesses points p i) (b.rebuildAt points p i) :=
  buildRecursive_wrote _ p _

theorem rebuildAccesses_inSlice (hB : 2 * b.leafBucketSize ≤ 65535) {p : Pools Dim K} {i : ℕ}
    (fit : (b.rebuildAt points p i).Fit) :
    ∀ a ∈ b.rebuildAccesses points p i, a.InSlice b.leafBucketSize :=
  buildAccesses_inSlice hB _ p _ (fit.of_grown (Pools.setNode_grown _ _ _))

theorem insertIndex_wrote (index fuel : ℕ) (p : Pools Dim K) (i : ℕ) :
    p.Wrote (b.insertAccesses points index fuel p i) (b.insertIndex points index fuel p i) := by
  induction fuel generalizing p i with
  | zero => exact .of_eq rfl
  | succ fuel ih =>
    have hcount : p.Wrote [] (countNode b.env.counter p i) := .of_eq rfl
    rw [insertAccesses]
    cases hbody : ((countNode b.env.counter p i).node i).body with
    | internal dim split left right =>
      rw [insertIndex_at_internal hbody]
      exact hcount.trans (ih _ _)
    | leaf offset size cap bboxIdx =>
      rw [insertIndex_at_leaf hbody]
      have hpush : (countNode b.env.counter p i).Wrote
          [(countNode b.env.counter p i).leafBuckets.pushed offset size cap]
          (pushInto points index (countNode b.env.counter p i) i offset size cap bboxIdx) := by
        intro j hj
        exact LeafBucket.entry_push _ _ _ _ _ (hj _ (List.mem_singleton_self _))
      dsimp only
      split_ifs
      · exact (hcount.trans hpush).trans (rebuildAt_wrote _ i)
      · exact hcount.trans hpush

theorem sweepRebuilds_grown (fuel : ℕ) (p : Pools Dim K) (i : ℕ) :
    ∀ m ∈ b.sweepRebuilds points visit fuel p i,
      Pools.Grown (b.rebuildAt points m.1 m.2) (b.sweep points visit fuel p i) := by
  induction fuel generalizing p i with
  | zero => simp [sweepRebuilds]
  | succ fuel ih =>
    have child : ∀ (q : Pools Dim K) (j : ℕ),
        ∀ m ∈ if visit j then b.sweepRebuilds points visit fuel q j else [],
          Pools.Grown (b.rebuildAt points m.1 m.2) (b.sweepChild points visit fuel q j) := by
      intro q j m hm
      unfold sweepChild
      split_ifs at hm ⊢
      · exact ih q j m hm
      · cases hm
    by_cases hi : i = invalid
    · simp [sweepRebuilds, hi]
    · rw [sweepRebuilds, if_neg hi]
      cases hbody : (p.node i).body with
      | leaf offset size cap bboxIdx =>
        rw [sweep_leaf fuel hi hbody]
        dsimp only
        split_ifs
        · exact List.forall_mem_singleton.mpr (Pools.Grown.refl _)
        · exact List.forall_mem_nil _
      | internal dim split left right =>
        rw [sweep_internal fuel hi hbody]
        dsimp only
        by_cases hvio : b.isViolator p i = true
        · rw [if_pos hvio, if_pos hvio]
          exact List.forall_mem_singleton.mpr (Pools.Grown.refl _)
        · rw [if_neg hvio, if_neg hvio]
          intro m hm
          rw [List.mem_append, List.mem_append] at hm
          rcases hm with (hm | hm) | hm
          · exact (child p left m hm).trans
              ((sweepChild_grown fuel _ right).trans (sweepAgain_grown _ i))
          · exact (child _ right m hm).trans (sweepAgain_grown _ i)
          · unfold sweepAgain
            split_ifs at hm ⊢
            · rw [List.mem_singleton.mp hm]
              exact Pools.Grown.refl _
            · cases hm

theorem sweepAccesses_inSlice (hB : 2 * b.leafBucketSize ≤ 65535) {fuel : ℕ} {p : Pools Dim K}
    {i : ℕ} (fit : (b.sweep points visit fuel p i).Fit) :
    ∀ a ∈ b.sweepAccesses points visit fuel p i, a.InSlice b.leafBucketSize := by
  intro a ha
  obtain ⟨m, hm, ha⟩ := List.mem_flatMap.mp ha
  exact rebuildAccesses_inSlice hB (fit.of_grown (sweepRebuilds_grown fuel p i m hm)) a ha

theorem sweep_wrote (fuel : ℕ) (p : Pools Dim K) (i : ℕ) :
    p.Wrote (b.sweepAccesses points visit fuel p i) (b.sweep points visit fuel p i) := by
  induction fuel generalizing p i with
  | zero => exact .of_eq rfl
  | succ fuel ih =>
    have child : ∀ (q : Pools Dim K) (j : ℕ),
        q.Wrote ((if visit j then b.sweepRebuilds points visit fuel q j else []).flatMap
          (fun m => b.rebuildAccesses points m.1 m.2)) (b.sweepChild points visit fuel q j) := by
      intro q j
      unfold sweepChild
      split_ifs
      · exact ih q j
      · exact .of_eq rfl
    have again : ∀ q : Pools Dim K,
        q.Wrote ((if b.isViolator q i then [(q, i)] else []).flatMap
          (fun m => b.rebuildAccesses points m.1 m.2)) (b.sweepAgain points q i) := by
      intro q
      unfold sweepAgain
      split_ifs
      · rw [List.flatMap_singleton]
        exact rebuildAt_wrote q i
      · exact .of_eq rfl
    by_cases hi : i = invalid
    · simp only [sweep, hi, ↓reduceIte]
      exact .of_eq rfl
    · rw [sweepAccesses, sweepRebuilds, if_neg hi]
      cases hbody : (p.node i).body with
      | leaf offset size cap bboxIdx =>
        rw [sweep_leaf fuel hi hbody]
        dsimp only
        split_ifs
        · rw [List.flatMap_singleton]
          exact rebuildAt_wrote p i
        · exact .of_eq rfl
      | internal dim split left right =>
        rw [sweep_internal fuel hi hbody]
        dsimp only
        by_cases hvio : b.isViolator p i = true
        · rw [if_pos hvio, if_pos hvio, List.flatMap_singleton]
          exact rebuildAt_wrote p i
        · rw [if_neg hvio, if_neg hvio, List.flatMap_append, List.flatMap_append]
          exact ((child p left).trans (child _ right)).trans (again _)

theorem insertAccesses_inSlice {p : Pools Dim K} {t : Tree Dim K}
    (hB : 2 * b.leafBucketSize ≤ 65535) (h : t.Rep p) (hs : t.Shape b.leafBucketSize)
    {index fuel : ℕ} (fit : (b.insertIndex points index fuel p t.id).Fit) :
    ∀ a ∈ b.insertAccesses points index fuel p t.id, a.InSlice b.leafBucketSize := by
  induction fuel generalizing p t with
  | zero => simp [insertAccesses]
  | succ fuel ih =>
    have hup := h.update_counted b.env.counter
    have hq := fit.of_grown (insertIndex_grown _ _ _)
    rw [insertAccesses]
    cases t with
    | leaf id live total offset cap bboxIdx es bbox =>
      obtain ⟨rfl, hlen⟩ := hs
      rw [Tree.counted_leaf] at hup
      have hbody : ((countNode b.env.counter p id).node id).body =
          .leaf offset es.length (2 * b.leafBucketSize) bboxIdx := hup.rep.leaf_body
      obtain ⟨-, -, hslots, -⟩ := h
      have hlast := hslots (2 * b.leafBucketSize - 1) (by omega)
      have hpushed : (p.leafBuckets.pushed offset es.length (2 * b.leafBucketSize)).InSlice
          b.leafBucketSize := LeafBucket.pushed_inSlice hlen (by omega) hq.slots
      rw [Tree.id_leaf, insertIndex_at_leaf hbody] at fit
      rw [Tree.id_leaf, hbody]
      dsimp only at fit ⊢
      refine List.forall_mem_cons.mpr ⟨hpushed, ?_⟩
      split_ifs at fit ⊢
      · exact rebuildAccesses_inSlice hB fit
      · exact List.forall_mem_nil _
    | node id live total dim split left right =>
      rw [Tree.counted_node] at hup
      have hbody : ((countNode b.env.counter p id).node id).body =
          .internal dim split left.id right.id := hup.rep.node_body
      rw [Tree.id_node, insertIndex_at_internal hbody] at fit
      rw [Tree.id_node, hbody]
      dsimp only
      split_ifs at fit ⊢
      · exact ih hup.rep.left hs.1 fit
      · exact ih hup.rep.right hs.2 fit

end

end TreeBuilder
end Copse
