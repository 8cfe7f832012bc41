import Copse.TreeBuilder
import Copse.TreeShape

set_option autoImplicit false

namespace Copse
open FramedStore

namespace Pools
variable {Dim : ℕ} {K : Type*}

/-- No index into the pools has wrapped. -/
structure Fit (p : Pools Dim K) : Prop where
  nodes : p.nodes.length < 2 ^ 32
  slots : p.leafBuckets.data.length < 2 ^ 32
  boxes : p.leafBBoxes.length < 2 ^ 32

structure Grown (p p' : Pools Dim K) : Prop where
  nodes : p.nodes.length ≤ p'.nodes.length
  slots : p.leafBuckets.data.length ≤ p'.leafBuckets.data.length
  boxes : p.leafBBoxes.length ≤ p'.leafBBoxes.length

section
variable {p p' p'' : Pools Dim K}

theorem Grown.refl (p : Pools Dim K) : Grown p p := ⟨le_rfl, le_rfl, le_rfl⟩

theorem Grown.trans (h : Grown p p') (h' : Grown p' p'') : Grown p p'' :=
  ⟨h.nodes.trans h'.nodes, h.slots.trans h'.slots, h.boxes.trans h'.boxes⟩

theorem Fit.of_grown (h : p'.Fit) (hg : Grown p p') : p.Fit :=
  ⟨hg.nodes.trans_lt h.nodes, hg.slots.trans_lt h.slots, hg.boxes.trans_lt h.boxes⟩

theorem setNode_grown (p : Pools Dim K) (i : ℕ) (n : TreeNode Dim K) : Grown p (p.setNode i n) :=
  ⟨by simp [setNode], le_rfl, le_rfl⟩

theorem pushNode_grown (p : Pools Dim K) : Grown p p.pushNode :=
  ⟨by simp [pushNode], le_rfl, le_rfl⟩

end
end Pools

theorem Tree.Rep.id_valid {Dim : ℕ} {K : Type*} {p : Pools Dim K} {t : Tree Dim K} (h : t.Rep p)
    (fit : p.Fit) : t.id ≠ invalid := by
  have hlt := h.id_lt
  have hfit := fit.nodes
  unfold invalid
  omega

namespace LeafBucket

theorem fill_data (pre rest es : List BucketEntry) (h : es.length ≤ rest.length) :
    (fill ⟨pre ++ rest⟩ pre.length es).data = pre ++ (es ++ rest.drop es.length) := by
  induction es generalizing pre rest with
  | nil => simp [fill]
  | cons e es ih =>
    cases rest with
    | nil => simp at h
    | cons x rest =>
      have hset : (pre ++ x :: rest).set pre.length e = (pre ++ [e]) ++ rest := by simp
      have hlen : pre.length + 1 = (pre ++ [e]).length := by simp
      rw [fill, hset, hlen, ih (pre ++ [e]) rest (by simpa using h)]
      simp

theorem fill_length (b : LeafBucket) (offset : ℕ) (es : List BucketEntry) :
    (b.fill offset es).data.length = b.data.length := by
  induction es generalizing b offset with
  | nil => rfl
  | cons e es ih => rw [fill, ih]; simp

end LeafBucket

namespace TreeBuilder
variable {Dim : ℕ} [NeZero Dim] {K : Type*} [Field K] [LinearOrder K]

/-- The trees that a build over `indices` may produce. -/
inductive Built (c : Counter) (points : PointStore Dim K) (leafBucketSize : ℕ) :
    List ℕ → Tree Dim K → Prop where
  | leaf (id offset bboxIdx : ℕ) (indices : List ℕ) (small : indices.length ≤ leafBucketSize) :
    Built c points leafBucketSize indices
      (.leaf id (c.wrap indices.length) (c.wrap indices.length) offset (2 * leafBucketSize) bboxIdx
        (indices.map (stamp points)) (bboxOf points indices))
  | node (id : ℕ) (dim : Fin Dim) (split : K) (indices lo hi : List ℕ) (left right : Tree Dim K)
    (large : leafBucketSize < indices.length) (perm : (lo ++ hi).Perm indices)
    (half : lo.length = indices.length / 2) (below : ∀ i ∈ lo, points.point i dim ≤ split)
    (above : ∀ i ∈ hi, split ≤ points.point i dim) (pivot : ∃ i ∈ hi, points.point i dim = split)
    (builtLeft : Built c points leafBucketSize lo left)
    (builtRight : Built c points leafBucketSize hi right) :
    Built c points leafBucketSize indices
      (.node id (c.wrap (left.live + right.live)) (c.wrap (left.total + right.total)) dim split
        left right)

omit [NeZero Dim] in
theorem Built.withId {c : Counter} {points : PointStore Dim K} {B : ℕ} {indices : List ℕ}
    {t : Tree Dim K} (h : Built c points B indices t) (i : ℕ) :
    Built c points B indices (t.withId i) := by
  cases h with
  | leaf _ offset bboxIdx _ small => exact .leaf i offset bboxIdx indices small
  | node _ dim split _ lo hi left right large perm half below above pivot hl hr =>
    exact .node i dim split indices lo hi left right large perm half below above pivot hl hr

section
variable {env : Env K} {points : PointStore Dim K} {B : ℕ}

omit [NeZero Dim] in
theorem buildLeaf_grown (c : Counter) (p : Pools Dim K) (nodeIdx : ℕ) (indices : List ℕ) :
    Pools.Grown p (buildLeaf c points B p nodeIdx indices) := by
  refine ⟨?_, ?_, ?_⟩
  · simp [buildLeaf, Pools.setNode]
  · simp [buildLeaf, Pools.setNode, LeafBucket.fill_length, LeafBucket.allocate]
  · simp [buildLeaf, Pools.setNode]

theorem buildRecursive_small (fuel : ℕ) (p : Pools Dim K) {indices : List ℕ}
    (h : indices.length ≤ B) :
    buildRecursive env points B fuel p indices =
      (buildLeaf env.counter points B p.pushNode (u32 p.nodes.length) indices,
        u32 p.nodes.length) := by
  cases fuel <;> simp [buildRecursive, h]

def partedOf (env : Env K) (points : PointStore Dim K) (indices : List ℕ) : List ℕ :=
  env.std.nthElement (fun i => points.point i (splitDimOf points indices)) (indices.length / 2)
    indices

theorem buildRecursive_large (fuel : ℕ) (p : Pools Dim K) {indices : List ℕ}
    (h : B < indices.length) :
    buildRecursive env points B (fuel + 1) p indices =
      let mid := indices.length / 2
      let parted := partedOf env points indices
      let l := buildRecursive env points B fuel p.pushNode (parted.take mid)
      let r := buildRecursive env points B fuel l.1 (parted.drop mid)
      (r.1.setNode (u32 p.nodes.length)
        ⟨env.counter.wrap ((r.1.node l.2).subtreeLiveCount + (r.1.node r.2).subtreeLiveCount),
          env.counter.wrap ((r.1.node l.2).subtreeTotalCount + (r.1.node r.2).subtreeTotalCount),
          .internal (splitDimOf points indices)
            (points.point (parted.getD mid 0) (splitDimOf points indices)) l.2 r.2⟩,
        u32 p.nodes.length) := by
  rw [buildRecursive]
  simp only [Nat.not_le.mpr h, ↓reduceIte]
  rfl

theorem buildRecursive_grown (fuel : ℕ) (p : Pools Dim K) (indices : List ℕ) :
    Pools.Grown p (buildRecursive env points B fuel p indices).1 := by
  induction fuel generalizing p indices with
  | zero =>
    rcases Nat.lt_or_ge B indices.length with hB | hB
    · simp only [buildRecursive, Nat.not_le.mpr hB, ↓reduceIte]
      exact p.pushNode_grown
    · rw [buildRecursive_small _ _ hB]
      exact p.pushNode_grown.trans (buildLeaf_grown _ _ _ _)
  | succ fuel ih =>
    rcases Nat.lt_or_ge B indices.length with hB | hB
    · rw [buildRecursive_large _ _ hB]
      exact p.pushNode_grown.trans (((ih _ _).trans (ih _ _)).trans (Pools.setNode_grown _ _ _))
    · rw [buildRecursive_small _ _ hB]
      exact p.pushNode_grown.trans (buildLeaf_grown _ _ _ _)

/-- A tree in cells that `p` did not have, next to an unchanged `p`. -/
structure Appended (p p' : Pools Dim K) (t : Tree Dim K) : Prop where
  rep : t.Rep p'
  id_eq : t.id = p.nodes.length
  framed : Framed Pools.read p ∅ p' t.addrs

section
omit [NeZero Dim]

omit [Field K] [LinearOrder K] in
theorem pushNode_read (p : Pools Dim K) (a : Addr) :
    p.pushNode.read a =
      if a = .node p.nodes.length then some (.node TreeNode.empty) else p.read a := by
  cases a with
  | node i =>
    rcases Nat.lt_trichotomy i p.nodes.length with h | h | h
    · simp [Pools.pushNode, Pools.read, List.getElem?_append_left h, h.ne]
    · simp [Pools.pushNode, Pools.read, h]
    · rw [if_neg (by simpa using h.ne')]
      simp [Pools.pushNode, Pools.read, List.getElem?_append_right h.le, h.le]
      omega
  | slot i => simp [Pools.pushNode, Pools.read]
  | box i => simp [Pools.pushNode, Pools.read]

omit [Field K] [LinearOrder K] in
theorem pushNode_framed (p : Pools Dim K) :
    Framed Pools.read p ∅ p.pushNode {.node p.nodes.length} := by
  refine ⟨?_, ?_, ?_⟩
  · intro a _ ha
    rw [pushNode_read, if_neg]
    rintro rfl
    exact absurd (Pools.read_node_ne_none.mp ha) (lt_irrefl _)
  · intro a ha
    rw [pushNode_read]
    split_ifs
    · simp
    · exact ha
  · rintro a rfl
    exact Or.inr (by simp [Pools.read])

def leafOf (c : Counter) (points : PointStore Dim K) (B : ℕ) (p : Pools Dim K)
    (indices : List ℕ) : Tree Dim K :=
  .leaf p.nodes.length (c.wrap indices.length) (c.wrap indices.length) p.leafBuckets.data.length
    (2 * B) p.leafBBoxes.length (indices.map (stamp points)) (bboxOf points indices)

theorem buildLeaf_spec (c : Counter) (hB : 2 * B < 2 ^ 16) (p : Pools Dim K) (fit : p.Fit)
    {indices : List ℕ} (small : indices.length ≤ B) :
    Appended p (buildLeaf c points B p.pushNode (u32 p.nodes.length) indices)
      (leafOf c points B p indices) := by
  let es := indices.map (stamp points)
  have hes : es.length = indices.length := List.length_map _
  have hfill : (p.leafBuckets.allocate (2 * B)).1.fill (p.leafBuckets.allocate (2 * B)).2 es =
      ⟨p.leafBuckets.data ++ (es ++ List.replicate (2 * B - es.length) ⟨0, 0⟩)⟩ := by
    simp only [LeafBucket.allocate, u32_of_lt fit.slots]
    rw [LeafBucket.mk.injEq, LeafBucket.fill_data _ _ _ (by simp; omega), List.drop_replicate]
  have hpools : buildLeaf c points B p.pushNode (u32 p.nodes.length) indices =
      { nodes := p.nodes ++ [(leafOf c points B p indices).header]
        leafBuckets := ⟨p.leafBuckets.data ++
          (es ++ List.replicate (2 * B - es.length) ⟨0, 0⟩)⟩
        leafBBoxes := p.leafBBoxes ++ [bboxOf points indices] } := by
    have hcount : indices.length < 2 ^ 16 := by omega
    simp only [buildLeaf, Pools.pushNode, Pools.setNode, u16_of_lt hB, u16_of_lt hcount,
      u32_of_lt fit.nodes, u32_of_lt fit.boxes]
    congr 1
    simp [LeafBucket.allocate, u32_of_lt fit.slots, Tree.header, leafOf]
  rw [hpools]
  refine ⟨⟨?_, ?_, ?_, ?_, ?_⟩, rfl, ?_, ?_, ?_⟩
  · simp [leafOf]
  · rw [hes]; omega
  · intro j hj
    simp only [List.length_append, List.length_replicate]
    omega
  · intro j e hj
    have hjl : j < es.length := (List.getElem?_eq_some_iff.mp hj).choose
    dsimp only
    rw [List.getElem?_append_right (by omega), Nat.add_sub_cancel_left,
      List.getElem?_append_left hjl]
    exact hj
  · simp
  · intro a _ ha
    cases a with
    | node i =>
      simp [Pools.read, List.getElem?_append_left (Pools.read_node_ne_none.mp ha)]
    | slot i =>
      simp [Pools.read, List.getElem?_append_left (Pools.read_slot_ne_none.mp ha)]
    | box i =>
      simp [Pools.read, List.getElem?_append_left (Pools.read_box_ne_none.mp ha)]
  · intro a ha
    cases a with
    | node i =>
      have := Pools.read_node_ne_none.mp ha
      exact Pools.read_node_ne_none.mpr (by simp; omega)
    | slot i =>
      have := Pools.read_slot_ne_none.mp ha
      exact Pools.read_slot_ne_none.mpr (by simp; omega)
    | box i =>
      have := Pools.read_box_ne_none.mp ha
      exact Pools.read_box_ne_none.mpr (by simp; omega)
  · rintro a (rfl | ⟨j, hj, rfl⟩ | rfl)
    all_goals exact Or.inr (by simp [Pools.read])

end

theorem parted_perm (env : Env K) (points : PointStore Dim K) (indices : List ℕ)
    (h : 0 < indices.length) : (partedOf env points indices).Perm indices :=
  env.std.nthElement_perm _ _ _ (Nat.div_lt_self h (by omega))

omit [NeZero Dim] [Field K] [LinearOrder K] in
theorem join_appended {p p₂ p₃ : Pools Dim K} {left right : Tree Dim K} (live total : ℤ)
    (dim : Fin Dim) (split : K) (hl : Appended p.pushNode p₂ left) (hr : Appended p₂ p₃ right) :
    Appended p
      (p₃.setNode p.nodes.length ⟨live, total, .internal dim split left.id right.id⟩)
      (.node p.nodes.length live total dim split left right) := by
  have hpush : p.pushNode.nodes.length = p.nodes.length + 1 := by simp [Pools.pushNode]
  have hlid : p.nodes.length < left.id := by rw [hl.id_eq, hpush]; omega
  have hrid : p.nodes.length < right.id := by
    have hlt := hl.rep.id_lt
    rw [hr.id_eq]
    omega
  have hl₃ : left.Rep p₃ := hl.rep.frame
    (hr.framed.outside (Set.empty_disjoint _) hl.rep.present)
  have hd : Disjoint right.addrs left.addrs :=
    hr.framed.disjoint (Set.empty_disjoint _) hl.rep.present
  have hroot : p.nodes.length < p₃.nodes.length := hlid.trans hl₃.id_lt
  have htree : Framed Pools.read p ∅ p₃
      ({.node p.nodes.length} ∪ (left.addrs ∪ right.addrs)) := by
    have hall := ((pushNode_framed p).trans (hl.framed.beside _)).trans (hr.framed.beside _)
    rwa [← Set.union_assoc, Set.union_comm right.addrs,
      Set.union_comm _ {Addr.node p.nodes.length}] at hall
  have hset := Tree.setNode_framed (p := p₃) hroot
    ⟨live, total, .internal dim split left.id right.id⟩
    (F := {.node p.nodes.length} ∪ (left.addrs ∪ right.addrs)) (Or.inl rfl)
  refine ⟨⟨?_, hlid, hrid, hd.symm, hl₃.frame ?_, hr.rep.frame ?_⟩, rfl, htree.trans hset⟩
  · simp [Pools.setNode, hroot, Tree.header]
  · intro a ha
    rw [Tree.read_setNode hroot, if_neg]
    rintro rfl
    exact hl₃.not_mem_of_lt hlid ha
  · intro a ha
    rw [Tree.read_setNode hroot, if_neg]
    rintro rfl
    exact hr.rep.not_mem_of_lt hrid ha

/-- A build over enough fuel appends one of the trees that `Built` lists. -/
theorem buildRecursive_spec (hpos : 0 < B) (hB : 2 * B < 2 ^ 16) (fuel : ℕ) (p : Pools Dim K)
    (indices : List ℕ) (hfuel : indices.length ≤ fuel)
    (fit : (buildRecursive env points B fuel p indices).1.Fit) :
    ∃ t, (buildRecursive env points B fuel p indices).2 = t.id ∧
      Built env.counter points B indices t ∧
      Appended p (buildRecursive env points B fuel p indices).1 t := by
  induction fuel generalizing p indices with
  | zero =>
    have small : indices.length ≤ B := by omega
    have hp := fit.of_grown (buildRecursive_grown 0 p indices)
    rw [buildRecursive_small _ _ small]
    exact ⟨leafOf env.counter points B p indices, u32_of_lt hp.nodes,
      .leaf _ _ _ _ small, buildLeaf_spec _ hB p hp small⟩
  | succ fuel ih =>
    have hp := fit.of_grown (buildRecursive_grown (fuel + 1) p indices)
    rcases Nat.lt_or_ge B indices.length with large | small
    · rw [buildRecursive_large _ _ large] at fit ⊢
      have hmid : indices.length / 2 < indices.length := Nat.div_lt_self (by omega) (by omega)
      have hperm := parted_perm env points indices (by omega)
      have hplen := hperm.length_eq
      have hlo : ((partedOf env points indices).take (indices.length / 2)).length =
          indices.length / 2 := by simp; omega
      have hhi : ((partedOf env points indices).drop (indices.length / 2)).length =
          indices.length - indices.length / 2 := by simp [hplen]
      have fit₃ := fit.of_grown (Pools.setNode_grown _ _ _)
      have fit₂ := fit₃.of_grown (buildRecursive_grown _ _ _)
      obtain ⟨left, hleft, builtLeft, appLeft⟩ := ih p.pushNode _ (by omega) fit₂
      obtain ⟨right, hright, builtRight, appRight⟩ := ih _ _ (by omega) fit₃
      have hlive := appLeft.rep.frame
        (appRight.framed.outside (Set.empty_disjoint _) appLeft.rep.present)
      dsimp only
      rw [hleft, hright, hlive.node_eq, appRight.rep.node_eq, u32_of_lt hp.nodes]
      simp only [Tree.live_header, Tree.total_header]
      refine ⟨_, rfl, ?_, join_appended _ _ _ _ appLeft appRight⟩
      refine .node _ _ _ _ _ _ left right large ?_ hlo ?_ ?_ ?_ builtLeft builtRight
      · rw [List.take_append_drop]
        exact hperm
      · exact env.std.nthElement_before _ _ _ hmid
      · exact env.std.nthElement_after _ _ _ hmid
      · refine ⟨(partedOf env points indices).getD (indices.length / 2) 0, ?_, rfl⟩
        rw [List.getD_eq_getElem _ _ (by omega), List.mem_drop_iff_getElem]
        exact ⟨0, by omega, rfl⟩
    · rw [buildRecursive_small _ _ small]
      exact ⟨leafOf env.counter points B p indices, u32_of_lt hp.nodes,
        .leaf _ _ _ _ small, buildLeaf_spec _ hB p hp small⟩

end
end TreeBuilder
end Copse
